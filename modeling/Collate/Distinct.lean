/-
Lists without repetitions. Of several equal values the first one stays, so the order is that of
first occurrence.

This is `distinct`, which windows use for the ids of their parents and feeds for those of their
changes.
-/
set_option autoImplicit false

namespace Collate

variable {τ : Type} [DecidableEq τ]

/-- The values of a list that are neither in `seen` nor occurred before. -/
def distinctFrom : List τ → List τ → List τ
  | _, [] => []
  | seen, x :: rest =>
    if x ∈ seen then distinctFrom seen rest else x :: distinctFrom (x :: seen) rest

/-- Each value of a list once, in the order of its first occurrence. -/
def distinct (xs : List τ) : List τ := distinctFrom [] xs

theorem mem_distinctFrom {seen xs : List τ} {x : τ} :
    x ∈ distinctFrom seen xs ↔ x ∈ xs ∧ x ∉ seen := by
  induction xs generalizing seen with
  | nil => simp [distinctFrom]
  | cons y rest ih =>
    by_cases hy : y ∈ seen
    · simp only [distinctFrom, hy, if_true, ih, List.mem_cons]
      constructor
      · rintro ⟨h, hs⟩
        exact ⟨Or.inr h, hs⟩
      · rintro ⟨rfl | h, hs⟩
        · exact absurd hy hs
        · exact ⟨h, hs⟩
    · simp only [distinctFrom, hy, if_false, List.mem_cons, ih, not_or]
      constructor
      · rintro (rfl | ⟨h, _, hs⟩)
        · exact ⟨Or.inl rfl, hy⟩
        · exact ⟨Or.inr h, hs⟩
      · rintro ⟨rfl | h, hs⟩
        · exact Or.inl rfl
        · by_cases hxy : x = y
          · exact Or.inl hxy
          · exact Or.inr ⟨h, hxy, hs⟩

theorem nodup_distinctFrom (seen xs : List τ) : (distinctFrom seen xs).Nodup := by
  induction xs generalizing seen with
  | nil => simp [distinctFrom]
  | cons y rest ih =>
    by_cases hy : y ∈ seen
    · simpa only [distinctFrom, hy, if_true] using ih seen
    · simp only [distinctFrom, hy, if_false, List.nodup_cons]
      refine ⟨fun hm => ?_, ih _⟩
      exact (mem_distinctFrom.1 hm).2 (List.mem_cons_self ..)

/-- Nothing is lost and nothing is added. -/
@[simp] theorem mem_distinct {xs : List τ} {x : τ} : x ∈ distinct xs ↔ x ∈ xs := by
  simp [distinct, mem_distinctFrom]

/-- Nothing is repeated. -/
theorem nodup_distinct (xs : List τ) : (distinct xs).Nodup := nodup_distinctFrom [] xs

end Collate
