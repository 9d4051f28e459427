/-
Numbered cells. A table has a value at every number: the one last written there, or the one it was
made with. Stores, locks, sources and feeds are referred to by number, and a table answers every
number, so no reader has to say what happens outside of it.
-/
set_option autoImplicit false

namespace Collate

/-- Cells numbered from zero, each with a value. -/
structure Table (τ : Type) where
  /-- The cells written so far, and those before them. -/
  rows : List τ
  /-- The value of all further cells. -/
  blank : τ

namespace Table

variable {τ : Type}

/-- The table in which every cell holds `blank`. -/
def filled (blank : τ) : Table τ := ⟨[], blank⟩

/-- A table whose first cells are given. -/
def ofList (blank : τ) (rows : List τ) : Table τ := ⟨rows, blank⟩

/-- The value in cell `i`. -/
def get (t : Table τ) (i : Nat) : τ := t.rows[i]?.getD t.blank

/-- Writes cell `i`; cells in front of it that were never written hold the blank value. -/
def set (t : Table τ) (i : Nat) (x : τ) : Table τ :=
  -- Rows are added up to the cell, then the cell is written.
  { t with rows := (t.rows ++ List.replicate (i + 1 - t.rows.length) t.blank).set i x }

/-- Changes cell `i` by `f`. -/
def update (t : Table τ) (i : Nat) (f : τ → τ) : Table τ := t.set i (f (t.get i))

/-- Writing a cell changes that cell and no other. -/
theorem get_set (t : Table τ) (i j : Nat) (x : τ) :
    (t.set i x).get j = if j = i then x else t.get j := by
  unfold get set
  by_cases h : j = i
  · subst h
    have hlt : j < (t.rows ++ List.replicate (j + 1 - t.rows.length) t.blank).length := by
      simp only [List.length_append, List.length_replicate]
      omega
    simp [List.getElem?_set_self hlt]
  · rw [List.getElem?_set_ne (Ne.symm h), if_neg h, List.getElem?_append]
    by_cases hj : j < t.rows.length
    · simp [hj]
    · rw [if_neg hj, List.getElem?_eq_none (Nat.le_of_not_lt hj), List.getElem?_replicate]
      by_cases hr : j - t.rows.length < i + 1 - t.rows.length <;> simp [hr]

@[simp] theorem get_set_self (t : Table τ) (i : Nat) (x : τ) : (t.set i x).get i = x := by
  rw [get_set, if_pos rfl]

theorem get_set_ne (t : Table τ) {i j : Nat} (x : τ) (h : j ≠ i) : (t.set i x).get j = t.get j := by
  rw [get_set, if_neg h]

@[simp] theorem get_filled (blank : τ) (i : Nat) : (filled blank).get i = blank := rfl

end Table

end Collate
