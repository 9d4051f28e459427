/-
What the batch operations of a map do to the value of one key.

A map is used in two ways: one key is looked up, or the pairs are walked. The first is all that the
rest of the theory reads, so every operation is described here by `get?` alone, and the order of the
pairs disappears: `mem_pairs` turns a pair into a value, and `get?_insertAll` says that a batch with
distinct keys acts the same in whichever order it is walked.
-/
import Collate.Entries

set_option autoImplicit false

namespace Collate.Entries

variable {κ ν : Type} [DecidableEq κ]

/-! ## 1. Pairs and values -/

theorem lookupIn_eq_some {l : List (κ × ν)} (h : (l.map Prod.fst).Nodup) (k : κ) (v : ν) :
    lookupIn k l = some v ↔ (k, v) ∈ l := by
  induction l with
  | nil => simp [lookupIn]
  | cons p rest ih =>
    obtain ⟨k', v'⟩ := p
    rw [List.map_cons, List.nodup_cons] at h
    by_cases hk : k' = k
    · subst hk
      have hrest : (k', v) ∉ rest := fun hm => h.1 (List.mem_map.2 ⟨_, hm, rfl⟩)
      simp only [lookupIn, if_true, Option.some.injEq, List.mem_cons, Prod.mk.injEq, true_and,
        hrest, or_false]
      exact eq_comm
    · have hne : ¬ (k, v) = (k', v') := fun he => hk (congrArg Prod.fst he).symm
      simp only [lookupIn, hk, if_false, ih h.2, List.mem_cons, hne, false_or]

/-- A pair is listed exactly if its key has its value. -/
theorem mem_pairs (m : Entries κ ν) (k : κ) (v : ν) : (k, v) ∈ m.pairs ↔ m.get? k = some v :=
  (lookupIn_eq_some m.distinct k v).symm

/-- Of a batch with distinct keys, the value of a key does not depend on the order. -/
theorem lookupIn_perm {l₁ l₂ : List (κ × ν)} (hp : l₁.Perm l₂) (h : (l₂.map Prod.fst).Nodup)
    (k : κ) : lookupIn k l₁ = lookupIn k l₂ := by
  have h₁ : (l₁.map Prod.fst).Nodup := (hp.map Prod.fst).nodup_iff.2 h
  refine Option.ext fun v => ?_
  rw [lookupIn_eq_some h₁, lookupIn_eq_some h, hp.mem_iff]

theorem contains_eq_false (m : Entries κ ν) (k : κ) : m.contains k = false ↔ m.get? k = none := by
  rw [contains, Option.isSome_eq_false_iff, Option.isNone_iff_eq_none]

theorem contains_eq_true (m : Entries κ ν) (k : κ) :
    m.contains k = true ↔ ∃ v, m.get? k = some v := by
  rw [contains, Option.isSome_iff_exists]

/-! ## 2. Batches -/

theorem lookupIn_of_not_mem {l : List (κ × ν)} {k : κ} (h : k ∉ l.map Prod.fst) :
    lookupIn k l = none := by
  rw [← Option.not_isSome_iff_eq_none, isSome_lookupIn]
  exact h

/-- A batch with distinct keys gives its keys their values and leaves the others alone. -/
theorem get?_insertAll (m : Entries κ ν) {batch : List (κ × ν)} (h : (batch.map Prod.fst).Nodup)
    (k : κ) : (m.insertAll batch).get? k = (lookupIn k batch).or (m.get? k) := by
  induction batch generalizing m with
  | nil => simp [lookupIn]
  | cons p rest ih =>
    rw [List.map_cons, List.nodup_cons] at h
    rw [insertAll_cons, ih (m.insert p.1 p.2) h.2, get?_insert]
    by_cases hk : p.1 = k
    · have hnone : lookupIn k rest = none := lookupIn_of_not_mem (hk ▸ h.1)
      rw [hnone]
      simp [lookupIn, hk]
    · simp [lookupIn, hk]

/-- Of the map a batch is inserted into only the values count. -/
theorem get?_insertAll_congr {m m' : Entries κ ν} (h : ∀ k, m.get? k = m'.get? k)
    (batch : List (κ × ν)) (k : κ) : (m.insertAll batch).get? k = (m'.insertAll batch).get? k := by
  induction batch generalizing m m' with
  | nil => exact h k
  | cons p rest ih =>
    rw [insertAll_cons, insertAll_cons]
    exact ih fun k' => by rw [get?_insert, get?_insert, h k']

/-- Inserting the pairs of a map, in any order, gives that map's values precedence. -/
theorem get?_insertAll_pairs (m other : Entries κ ν) {batch : List (κ × ν)}
    (hp : batch.Perm other.pairs) (k : κ) :
    (m.insertAll batch).get? k = (other.get? k).or (m.get? k) := by
  have h : (batch.map Prod.fst).Nodup := (hp.map Prod.fst).nodup_iff.2 other.distinct
  rw [get?_insertAll m h, lookupIn_perm hp other.distinct]
  rfl

theorem get?_ofList {batch : List (κ × ν)} (h : (batch.map Prod.fst).Nodup) (k : κ) :
    (ofList batch).get? k = lookupIn k batch := by
  rw [ofList, get?_insertAll _ h, get?_empty, Option.or_none]

theorem get?_eraseAll (m : Entries κ ν) (ks : List κ) (k : κ) :
    (m.eraseAll ks).get? k = if k ∈ ks then none else m.get? k := by
  induction ks generalizing m with
  | nil => simp [eraseAll]
  | cons k' rest ih =>
    rw [show m.eraseAll (k' :: rest) = (m.erase k').eraseAll rest from rfl, ih, get?_erase]
    by_cases hk : k' = k
    · simp [hk]
    · simp [hk, Ne.symm hk]

/-! ## 3. Parts of a map -/

theorem get?_restrict_from (m found : Entries κ ν) (ks : List κ) (k : κ) :
    (ks.foldl (fun found k => match m.get? k with
      | some v => found.insert k v
      | none => found) found).get? k
      = if k ∈ ks then (m.get? k).or (found.get? k) else found.get? k := by
  induction ks generalizing found with
  | nil => simp
  | cons k' rest ih =>
    rw [List.foldl_cons, ih]
    by_cases hk : k' = k
    · subst hk
      cases hm : m.get? k' <;> simp
    · cases hm : m.get? k' <;> simp [hk, Ne.symm hk]

/-- A part of a map has the values of the keys asked for, and no others. -/
theorem get?_restrict (m : Entries κ ν) (ks : List κ) (k : κ) :
    (m.restrict ks).get? k = if k ∈ ks then m.get? k else none := by
  refine (get?_restrict_from m empty ks k).trans ?_
  rw [get?_empty, Option.or_none]

/-- Filling gives the keys listed a value where they have none, and changes nothing else. -/
theorem get?_fill (m : Entries κ ν) (ks : List κ) (v : ν) (k : κ) :
    (m.fill ks v).get? k = (m.get? k).or (if k ∈ ks then some v else none) := by
  induction ks generalizing m with
  | nil => simp [fill]
  | cons k' rest ih =>
    rw [show m.fill (k' :: rest) v
      = (if m.contains k' then m else m.insert k' v).fill rest v from rfl, ih]
    by_cases hk : k' = k
    · subst hk
      cases hm : m.get? k' <;> simp [contains, hm]
    · by_cases hc : m.contains k' = true <;> simp [hc, hk, Ne.symm hk]

theorem lookupIn_map {μ : Type} (f : κ → ν → μ) (l : List (κ × ν)) (k : κ) :
    lookupIn k (l.map fun p => (p.1, f p.1 p.2)) = (lookupIn k l).map (f k) := by
  induction l with
  | nil => rfl
  | cons p rest ih =>
    by_cases hk : p.1 = k
    · simp [lookupIn, hk]
    · simp [lookupIn, hk, ih]

theorem get?_mapValues {μ : Type} (m : Entries κ ν) (f : κ → ν → μ) (k : κ) :
    (m.mapValues f).get? k = (m.get? k).map (f k) :=
  lookupIn_map f m.pairs k

theorem get?_filter (m : Entries κ ν) (keep : κ → ν → Bool) (k : κ) :
    (m.filter keep).get? k = (m.get? k).filter (keep k) := by
  refine Option.ext fun v => ?_
  rw [← mem_pairs, Option.filter_eq_some_iff, ← mem_pairs]
  simp [filter]

end Collate.Entries
