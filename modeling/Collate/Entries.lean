/-
Finite maps as lists of pairs with distinct keys. The order of the pairs is the order a batch is
walked in; everything that does not walk a batch looks only at `get?`. The distinctness of the keys
is part of the type, so `size` counts keys and a key has one value.

They stand for a `HashMap`, whose order is not promised. Here the order is that in which keys were
first inserted; where a batch is walked in another one, `BatchOrder` says so.
-/
set_option autoImplicit false

namespace Collate

/-- A finite map: pairs in the order they were first inserted, no key twice. -/
structure Entries (κ ν : Type) where
  /-- The pairs, in order. -/
  pairs : List (κ × ν)
  /-- No key occurs twice. -/
  distinct : (pairs.map Prod.fst).Nodup

namespace Entries

variable {κ ν : Type}

/-! ## 1. The list operations -/

section Pairs

variable [DecidableEq κ]

/-- The value paired with `k`. -/
def lookupIn (k : κ) : List (κ × ν) → Option ν
  | [] => none
  | (k', v) :: rest => if k' = k then some v else lookupIn k rest

/-- Gives `k` the value `v`: in place where `k` is present, at the end otherwise. -/
def placeIn (k : κ) (v : ν) : List (κ × ν) → List (κ × ν)
  | [] => [(k, v)]
  | (k', v') :: rest => if k' = k then (k, v) :: rest else (k', v') :: placeIn k v rest

/-- Leaves `k` out. -/
def dropIn (k : κ) : List (κ × ν) → List (κ × ν)
  | [] => []
  | (k', v) :: rest => if k' = k then dropIn k rest else (k', v) :: dropIn k rest

theorem fst_mem_placeIn {k k' : κ} {v : ν} {l : List (κ × ν)} :
    k' ∈ (placeIn k v l).map Prod.fst ↔ k' = k ∨ k' ∈ l.map Prod.fst := by
  induction l with
  | nil => simp [placeIn]
  | cons p rest ih =>
    by_cases h : p.1 = k
    · simp [placeIn, h]
    · simp only [placeIn, h, if_false, List.map_cons, List.mem_cons, ih]
      constructor
      · rintro (h₁ | h₁ | h₁) <;> simp [h₁]
      · rintro (h₁ | h₁ | h₁) <;> simp [h₁]

theorem nodup_placeIn (k : κ) (v : ν) {l : List (κ × ν)} (h : (l.map Prod.fst).Nodup) :
    ((placeIn k v l).map Prod.fst).Nodup := by
  induction l with
  | nil => simp [placeIn]
  | cons p rest ih =>
    rw [List.map_cons, List.nodup_cons] at h
    by_cases hk : p.1 = k
    · simp only [placeIn, hk, if_true, List.map_cons, List.nodup_cons]
      exact ⟨hk ▸ h.1, h.2⟩
    · simp only [placeIn, hk, if_false, List.map_cons, List.nodup_cons]
      refine ⟨fun hm => ?_, ih h.2⟩
      rcases fst_mem_placeIn.1 hm with he | he
      · exact hk he
      · exact h.1 he

theorem fst_mem_dropIn {k k' : κ} {l : List (κ × ν)} :
    k' ∈ (dropIn k l).map Prod.fst ↔ k' ≠ k ∧ k' ∈ l.map Prod.fst := by
  induction l with
  | nil => simp [dropIn]
  | cons p rest ih =>
    by_cases h : p.1 = k
    · simp only [dropIn, h, if_true, ih, List.map_cons, List.mem_cons]
      constructor
      · exact fun ⟨h₁, h₂⟩ => ⟨h₁, Or.inr h₂⟩
      · rintro ⟨h₁, h₂ | h₂⟩
        · exact absurd h₂ h₁
        · exact ⟨h₁, h₂⟩
    · simp only [dropIn, h, if_false, List.map_cons, List.mem_cons, ih]
      constructor
      · rintro (h₁ | h₁)
        · exact ⟨h₁ ▸ h, Or.inl h₁⟩
        · exact ⟨h₁.1, Or.inr h₁.2⟩
      · rintro ⟨h₁, h₂ | h₂⟩
        · exact Or.inl h₂
        · exact Or.inr ⟨h₁, h₂⟩

theorem nodup_dropIn (k : κ) {l : List (κ × ν)} (h : (l.map Prod.fst).Nodup) :
    ((dropIn k l).map Prod.fst).Nodup := by
  induction l with
  | nil => simp [dropIn]
  | cons p rest ih =>
    rw [List.map_cons, List.nodup_cons] at h
    by_cases hk : p.1 = k
    · simpa only [dropIn, hk, if_true] using ih h.2
    · simp only [dropIn, hk, if_false, List.map_cons, List.nodup_cons]
      exact ⟨fun hm => h.1 (fst_mem_dropIn.1 hm).2, ih h.2⟩

end Pairs

/-! ## 2. The map -/

/-- The map without keys. -/
def empty : Entries κ ν := ⟨[], by simp⟩

instance : EmptyCollection (Entries κ ν) := ⟨empty⟩

instance : Inhabited (Entries κ ν) := ⟨empty⟩

/-- The keys, in order. -/
def keys (m : Entries κ ν) : List κ := m.pairs.map Prod.fst

/-- The number of keys. -/
def size (m : Entries κ ν) : Nat := m.pairs.length

/-- Every value changed by `f`, the keys kept. -/
def mapValues {μ : Type} (f : κ → ν → μ) (m : Entries κ ν) : Entries κ μ where
  pairs := m.pairs.map fun p => (p.1, f p.1 p.2)
  distinct := by
    have h : (m.pairs.map fun p => (p.1, f p.1 p.2)).map Prod.fst = m.pairs.map Prod.fst := by
      simp [List.map_map, Function.comp_def]
    exact h ▸ m.distinct

/-- The pairs that `keep` accepts. -/
def filter (keep : κ → ν → Bool) (m : Entries κ ν) : Entries κ ν where
  pairs := m.pairs.filter fun p => keep p.1 p.2
  distinct := m.distinct.sublist (List.Sublist.map _ List.filter_sublist)

variable [DecidableEq κ]

/-- The value of `k`, if it has one. -/
def get? (m : Entries κ ν) (k : κ) : Option ν := lookupIn k m.pairs

/-- Whether `k` has a value. -/
def contains (m : Entries κ ν) (k : κ) : Bool := (m.get? k).isSome

/-- Gives `k` the value `v`. -/
def insert (m : Entries κ ν) (k : κ) (v : ν) : Entries κ ν :=
  ⟨placeIn k v m.pairs, nodup_placeIn k v m.distinct⟩

/-- Leaves `k` without a value. -/
def erase (m : Entries κ ν) (k : κ) : Entries κ ν :=
  ⟨dropIn k m.pairs, nodup_dropIn k m.distinct⟩

/-- Inserts the pairs of a batch one after the other; of a repeated key the last value stays. -/
def insertAll (m : Entries κ ν) (batch : List (κ × ν)) : Entries κ ν :=
  batch.foldl (fun m p => m.insert p.1 p.2) m

/-- Leaves every key of the list without a value. -/
def eraseAll (m : Entries κ ν) (ks : List κ) : Entries κ ν := ks.foldl erase m

/-- A map out of pairs; of a repeated key the last value stays. -/
def ofList (batch : List (κ × ν)) : Entries κ ν := empty.insertAll batch

/-- The part of the map whose keys are asked for, in the order they are asked for. -/
def restrict (m : Entries κ ν) (ks : List κ) : Entries κ ν :=
  ks.foldl (fun found k => match m.get? k with
    | some v => found.insert k v
    | none => found) empty

/-- Gives each of the keys that has no value the value `v`. -/
def fill (m : Entries κ ν) (ks : List κ) (v : ν) : Entries κ ν :=
  ks.foldl (fun m k => if m.contains k then m else m.insert k v) m

/-! ## 3. What each operation does to `get?` -/

theorem lookupIn_placeIn (k k' : κ) (v : ν) (l : List (κ × ν)) :
    lookupIn k' (placeIn k v l) = if k = k' then some v else lookupIn k' l := by
  induction l with
  | nil => simp [placeIn, lookupIn]
  | cons p rest ih =>
    by_cases h : p.1 = k <;> by_cases h' : k = k' <;> simp_all [placeIn, lookupIn]

theorem lookupIn_dropIn (k k' : κ) (l : List (κ × ν)) :
    lookupIn k' (dropIn k l) = if k = k' then none else lookupIn k' l := by
  induction l with
  | nil => simp [dropIn, lookupIn]
  | cons p rest ih =>
    by_cases h : p.1 = k <;> by_cases h' : k = k' <;> simp_all [dropIn, lookupIn]

theorem isSome_lookupIn (k : κ) (l : List (κ × ν)) :
    (lookupIn k l).isSome ↔ k ∈ l.map Prod.fst := by
  induction l with
  | nil => simp [lookupIn]
  | cons p rest ih =>
    by_cases h : p.1 = k
    · simp [lookupIn, h]
    · simp only [lookupIn, h, if_false, ih, List.map_cons, List.mem_cons, Ne.symm h, false_or]

@[simp] theorem get?_empty (k : κ) : (empty : Entries κ ν).get? k = none := rfl

@[simp] theorem get?_insert (m : Entries κ ν) (k k' : κ) (v : ν) :
    (m.insert k v).get? k' = if k = k' then some v else m.get? k' :=
  lookupIn_placeIn k k' v m.pairs

@[simp] theorem get?_erase (m : Entries κ ν) (k k' : κ) :
    (m.erase k).get? k' = if k = k' then none else m.get? k' :=
  lookupIn_dropIn k k' m.pairs

/-- A key is listed exactly if it has a value. -/
theorem mem_keys (m : Entries κ ν) (k : κ) : k ∈ m.keys ↔ m.contains k = true :=
  (isSome_lookupIn k m.pairs).symm

@[simp] theorem insertAll_nil (m : Entries κ ν) : m.insertAll [] = m := rfl

@[simp] theorem insertAll_cons (m : Entries κ ν) (p : κ × ν) (batch : List (κ × ν)) :
    m.insertAll (p :: batch) = (m.insert p.1 p.2).insertAll batch := rfl

end Entries

end Collate
