/-
What the calls of a store do to its contents.

A bounded shelf keeps its entries in order of use, and that order decides what is evicted. It decides
nothing about the values: looking up changes no entry, and what a shelf holds after a write is part
of what an unbounded one would hold. These are the only two facts about shelves that the theory of
resolutions needs, and neither looks at the list of uses.
-/
import Collate.Store
import Collate.Proofs.Entries

set_option autoImplicit false

namespace Collate

variable {κ ν : Type}

/-! ## 1. Parts of maps -/

namespace Entries

variable [DecidableEq κ]

/-- Every key of `m` has the same value in `m'`. -/
def Within (m m' : Entries κ ν) : Prop := ∀ k v, m.get? k = some v → m'.get? k = some v

theorem Within.refl (m : Entries κ ν) : m.Within m := fun _ _ h => h

theorem Within.trans {m₁ m₂ m₃ : Entries κ ν} (h₁ : m₁.Within m₂) (h₂ : m₂.Within m₃) :
    m₁.Within m₃ :=
  fun k v h => h₂ k v (h₁ k v h)

theorem within_of_get?_eq {m m' : Entries κ ν} (h : ∀ k, m.get? k = m'.get? k) : m.Within m' :=
  fun k _ hk => (h k).symm.trans hk

end Entries

/-! ## 2. What the list of uses leaves alone -/

namespace Recency

/-- How many slots there are, which of them are free, and how many keys were evicted. The list of
uses can be changed without changing any of these. -/
structure SameRoom (r r' : Recency κ ν) : Prop where
  entries : r'.entries = r.entries
  size : r'.links.size = r.links.size
  free : r'.free = r.free
  evictions : r'.evictions = r.evictions

theorem SameRoom.refl (r : Recency κ ν) : SameRoom r r := ⟨rfl, rfl, rfl, rfl⟩

theorem SameRoom.trans {r₁ r₂ r₃ : Recency κ ν} (h : SameRoom r₁ r₂) (h' : SameRoom r₂ r₃) :
    SameRoom r₁ r₃ :=
  ⟨h'.entries.trans h.entries, h'.size.trans h.size, h'.free.trans h.free,
    h'.evictions.trans h.evictions⟩

theorem sameRoom_setLink (r : Recency κ ν) (slot : Nat) (f : Link κ → Link κ) :
    SameRoom r (r.setLink slot f) := ⟨rfl, Array.size_modify .., rfl, rfl⟩

theorem sameRoom_joinOlder (r : Recency κ ν) (newer older : Option Nat) :
    SameRoom r (r.joinOlder newer older) := by
  cases newer with
  | none => exact ⟨rfl, rfl, rfl, rfl⟩
  | some slot => exact sameRoom_setLink r slot _

theorem sameRoom_joinNewer (r : Recency κ ν) (newer older : Option Nat) :
    SameRoom r (r.joinNewer newer older) := by
  cases older with
  | none => exact ⟨rfl, rfl, rfl, rfl⟩
  | some slot => exact sameRoom_setLink r slot _

theorem sameRoom_detach (r : Recency κ ν) (slot : Nat) : SameRoom r (r.detach slot) := by
  unfold detach
  split
  · exact .refl r
  · exact ((sameRoom_joinOlder ..).trans (sameRoom_joinNewer ..)).trans (sameRoom_setLink ..)

theorem sameRoom_pushFront (r : Recency κ ν) (slot : Nat) : SameRoom r (r.pushFront slot) := by
  unfold pushFront
  cases r.newest with
  | none => exact ⟨rfl, Array.size_modify .., rfl, rfl⟩
  | some next => exact ⟨rfl, (Array.size_modify ..).trans (Array.size_modify ..), rfl, rfl⟩

theorem sameRoom_promote (r : Recency κ ν) (slot : Nat) : SameRoom r (r.promote slot) :=
  (sameRoom_detach r slot).trans (sameRoom_pushFront _ slot)

theorem entries_allocate (r : Recency κ ν) (key : κ) : (r.allocate key).2.entries = r.entries := by
  unfold allocate
  cases r.free <;> rfl

/-! ## 3. Entries in order of use -/

variable [DecidableEq κ]

theorem sameRoom_get (r : Recency κ ν) (key : κ) : SameRoom r (r.get key).2 := by
  unfold get
  cases r.entries.get? key with
  | none => exact .refl r
  | some held => exact sameRoom_promote r held.slot

theorem get?_contents (r : Recency κ ν) (k : κ) :
    r.contents.get? k = (r.entries.get? k).map fun held => held.value :=
  Entries.get?_mapValues r.entries _ k

/-- Looking a key up uses it and changes no entry. -/
@[simp] theorem entries_get (r : Recency κ ν) (key : κ) : (r.get key).2.entries = r.entries :=
  (sameRoom_get r key).entries

theorem get_fst (r : Recency κ ν) (key : κ) : (r.get key).1 = r.contents.get? key := by
  rw [get?_contents, get]
  cases r.entries.get? key <;> rfl

theorem get?_contents_insert (r : Recency κ ν) (key : κ) (value : ν) (k : κ) :
    (r.insert key value).contents.get? k = (r.contents.insert key value).get? k := by
  rw [Entries.get?_insert, get?_contents, get?_contents, insert]
  by_cases hk : key = k
  · subst hk
    cases r.entries.get? key <;> simp [(sameRoom_promote _ _).entries]
  · cases r.entries.get? key with
    | none => simp [hk, (sameRoom_pushFront _ _).entries, entries_allocate]
    | some held => simp [hk, (sameRoom_promote _ _).entries]

theorem get?_contents_forget (r : Recency κ ν) (key k : κ) :
    (r.forget key).2.contents.get? k = (r.contents.erase key).get? k := by
  rw [Entries.get?_erase, get?_contents, get?_contents, forget]
  by_cases hk : key = k
  · subst hk
    cases h : r.entries.get? key <;> simp [h, (sameRoom_detach _ _).entries]
  · cases r.entries.get? key <;> simp [hk, (sameRoom_detach _ _).entries]

/-- Inserting a batch does to the contents what it does to a map without an order. -/
theorem get?_contents_insertAll (r : Recency κ ν) (batch : List (κ × ν)) (k : κ) :
    (r.insertAll batch).contents.get? k = (r.contents.insertAll batch).get? k := by
  -- The contents enter the induction by their values only, so any map with them will do.
  suffices h : ∀ m : Entries κ ν, (∀ k, r.contents.get? k = m.get? k) →
      (r.insertAll batch).contents.get? k = (m.insertAll batch).get? k from h _ fun _ => rfl
  induction batch generalizing r with
  | nil => exact fun m h => h k
  | cons p rest ih =>
    intro m h
    rw [Entries.insertAll_cons]
    refine ih (r.insert p.1 p.2) _ fun k' => ?_
    rw [get?_contents_insert, Entries.get?_insert, Entries.get?_insert, h k']

theorem evictOne_within {r r' : Recency κ ν} {capacity : Nat} (h : r.evictOne capacity = some r') :
    r'.contents.Within r.contents := by
  unfold evictOne at h
  split at h
  · split at h
    · cases h
    · rename_i link _
      cases h
      intro k v hk
      have hk' : (r.forget link.key).2.contents.get? k = some v := hk
      rw [get?_contents_forget, Entries.get?_erase] at hk'
      split at hk'
      · cases hk'
      · exact hk'
  · cases h

theorem evictRounds_within (capacity rounds : Nat) (r : Recency κ ν) :
    (evictRounds capacity rounds r).contents.Within r.contents := by
  induction rounds generalizing r with
  | zero => exact .refl _
  | succ rounds ih =>
    unfold evictRounds
    cases h : r.evictOne capacity with
    | none => exact .refl _
    | some r' => exact (ih r').trans (evictOne_within h)

/-- Looks one more key up. -/
def find (acc : Entries κ ν × Recency κ ν) (key : κ) : Entries κ ν × Recency κ ν :=
  match acc.2.get key with
  | (some value, r) => (acc.1.insert key value, r)
  | (none, r) => (acc.1, r)

theorem getAll_eq_foldl (r : Recency κ ν) (keys : List κ) :
    r.getAll keys = keys.foldl find (.empty, r) := rfl

theorem entries_find (acc : Entries κ ν × Recency κ ν) (key : κ) :
    (find acc key).2.entries = acc.2.entries := by
  rw [← entries_get acc.2 key, find]
  cases acc.2.get key with
  | mk value r => cases value <;> rfl

theorem found_find (acc : Entries κ ν × Recency κ ν) (key k : κ) :
    (find acc key).1.get? k
      = if k = key then (acc.2.contents.get? key).or (acc.1.get? k) else acc.1.get? k := by
  rw [← get_fst acc.2 key, find]
  cases acc.2.get key with
  | mk value r =>
    by_cases hk : k = key
    · subst hk
      cases value <;> simp
    · cases value <;> simp [hk, Ne.symm hk]

theorem entries_foldl_find (keys : List κ) (acc : Entries κ ν × Recency κ ν) :
    (keys.foldl find acc).2.entries = acc.2.entries := by
  induction keys generalizing acc with
  | nil => rfl
  | cons key rest ih => rw [List.foldl_cons, ih, entries_find]

theorem found_foldl_find (keys : List κ) (acc : Entries κ ν × Recency κ ν) (k : κ) :
    (keys.foldl find acc).1.get? k
      = if k ∈ keys then (acc.2.contents.get? k).or (acc.1.get? k) else acc.1.get? k := by
  induction keys generalizing acc with
  | nil => simp
  | cons key rest ih =>
    have hc : (find acc key).2.contents = acc.2.contents := by
      rw [contents, entries_find, contents]
    rw [List.foldl_cons, ih, hc, found_find]
    by_cases hk : k = key
    · subst hk
      cases acc.2.contents.get? k <;> simp
    · simp [hk]

end Recency

/-! ## 4. Shelves -/

namespace Shelf

variable [DecidableEq κ]

/-- Looking keys up changes no entry. -/
@[simp] theorem contents_get (shelf : Shelf κ ν) (keys : List κ) :
    (shelf.get keys).2.contents = shelf.contents := by
  cases shelf with
  | unbounded entries => rfl
  | bounded capacity recent =>
    show (recent.getAll keys).2.contents = recent.contents
    rw [Recency.getAll_eq_foldl, Recency.contents, Recency.entries_foldl_find, Recency.contents]

@[simp] theorem capacity?_get (shelf : Shelf κ ν) (keys : List κ) :
    (shelf.get keys).2.capacity? = shelf.capacity? := by
  cases shelf <;> rfl

@[simp] theorem capacity?_put (shelf : Shelf κ ν) (batch : List (κ × ν)) :
    (shelf.put batch).capacity? = shelf.capacity? := by
  cases shelf <;> rfl

@[simp] theorem capacity?_update (shelf : Shelf κ ν) (batch : List (κ × ν)) (removals : List κ) :
    (shelf.update batch removals).capacity? = shelf.capacity? := by
  cases shelf <;> rfl

/-- What is found is what the shelf holds of the keys asked for. -/
theorem get?_get (shelf : Shelf κ ν) (keys : List κ) (k : κ) :
    (shelf.get keys).1.get? k = if k ∈ keys then shelf.contents.get? k else none := by
  cases shelf with
  | unbounded entries => exact Entries.get?_restrict entries keys k
  | bounded capacity recent =>
    refine (Recency.found_foldl_find keys (.empty, recent) k).trans ?_
    rw [Entries.get?_empty, Option.or_none]
    rfl

omit [DecidableEq κ] in
theorem eq_unbounded {shelf : Shelf κ ν} (h : shelf.capacity? = none) :
    shelf = .unbounded shelf.contents := by
  cases shelf with
  | unbounded entries => rfl
  | bounded capacity recent => cases h

/-- An unbounded shelf keeps all it is given. -/
theorem get?_put_unbounded {shelf : Shelf κ ν} (h : shelf.capacity? = none)
    {batch : List (κ × ν)} {entries : Entries κ ν} (hp : batch.Perm entries.pairs) (k : κ) :
    (shelf.put batch).contents.get? k = (entries.get? k).or (shelf.contents.get? k) := by
  rw [eq_unbounded h]
  exact Entries.get?_insertAll_pairs _ entries hp k

/-- After a write a shelf holds part of what it would hold without a bound. -/
theorem put_within (shelf : Shelf κ ν) (batch : List (κ × ν)) :
    (shelf.put batch).contents.Within (shelf.contents.insertAll batch) := by
  cases shelf with
  | unbounded entries => exact .refl _
  | bounded capacity recent =>
    refine (Recency.evictRounds_within capacity _ (recent.insertAll batch)).trans ?_
    exact Entries.within_of_get?_eq (Recency.get?_contents_insertAll recent batch)

end Shelf

/-! ## 4. Stores -/

namespace Store

/-- No call of the store fails. -/
def Faultless (store : Store κ ν) : Prop := ∀ call n, store.faults call n = none

variable {ρ : Type}

@[simp] theorem faults_attempt (store : Store κ ν) (call : Call)
    (work : Nat → Shelf κ ν → ρ × Shelf κ ν) :
    (store.attempt call work).2.faults = store.faults := by
  simp only [attempt]
  split <;> rfl

/-- A call fails and leaves the shelf as it is, or does its work on the shelf. -/
theorem attempt_cases (store : Store κ ν) (call : Call)
    (work : Nat → Shelf κ ν → ρ × Shelf κ ν) :
    (∃ cause, (store.attempt call work).1 = .error cause
      ∧ (store.attempt call work).2.shelf = store.shelf)
    ∨ ∃ n, (store.attempt call work).1 = .ok (work n store.shelf).1
      ∧ (store.attempt call work).2.shelf = (work n store.shelf).2 := by
  unfold attempt
  cases h : store.faults call (store.calls call + 1) with
  | some cause => exact Or.inl ⟨cause, by simp [h], by simp [h]⟩
  | none => exact Or.inr ⟨store.calls call + 1, by simp [h], by simp [h]⟩

theorem Faultless.attempt {store : Store κ ν} (h : store.Faultless) (call : Call)
    (work : Nat → Shelf κ ν → ρ × Shelf κ ν) : (store.attempt call work).2.Faultless := by
  rw [Faultless, faults_attempt]
  exact h

theorem attempt_ok {store : Store κ ν} (h : store.Faultless) (call : Call)
    (work : Nat → Shelf κ ν → ρ × Shelf κ ν) :
    ∃ n, (store.attempt call work).1 = .ok (work n store.shelf).1
      ∧ (store.attempt call work).2.shelf = (work n store.shelf).2 := by
  refine ⟨store.calls call + 1, ?_, ?_⟩ <;> simp [attempt, h call (store.calls call + 1)]

end Store

end Collate
