/-
What a store has forgotten.

Only evictions take entries away that nobody asked to be taken away, and they are counted. So a
store whose count stands where it stood holds what an unbounded one would hold after the same
update, and one whose count has grown holds part of that. Looking keys up counts nothing.
-/
import Collate.Proofs.Calls
import Collate.Proofs.Store.Uses

set_option autoImplicit false

namespace Collate

variable {κ ν : Type} [DecidableEq κ]

/-! ## 1. Counting -/

namespace Recency

theorem evictions_get (r : Recency κ ν) (key : κ) : (r.get key).2.evictions = r.evictions :=
  (sameRoom_get r key).evictions

theorem evictions_insert (r : Recency κ ν) (key : κ) (value : ν) :
    (r.insert key value).evictions = r.evictions := by
  unfold insert
  cases r.entries.get? key with
  | some held => exact (sameRoom_promote _ held.slot).evictions
  | none =>
    have hallocate : (r.allocate key).2.evictions = r.evictions := by
      unfold allocate
      cases r.free <;> rfl
    exact (sameRoom_pushFront _ _).evictions.trans hallocate

theorem evictions_forget (r : Recency κ ν) (key : κ) :
    (r.forget key).2.evictions = r.evictions := by
  unfold forget
  cases r.entries.get? key with
  | none => rfl
  | some held => exact (sameRoom_detach _ held.slot).evictions

theorem evictions_find (acc : Entries κ ν × Recency κ ν) (key : κ) :
    (find acc key).2.evictions = acc.2.evictions := by
  rw [← evictions_get acc.2 key, find]
  cases acc.2.get key with
  | mk value r => cases value <;> rfl

theorem evictions_getAll (r : Recency κ ν) (keys : List κ) :
    (r.getAll keys).2.evictions = r.evictions := by
  rw [getAll_eq_foldl]
  suffices h : ∀ acc : Entries κ ν × Recency κ ν,
      (keys.foldl find acc).2.evictions = acc.2.evictions from h (.empty, r)
  induction keys with
  | nil => exact fun acc => rfl
  | cons key rest ih =>
    intro acc
    rw [List.foldl_cons, ih, evictions_find]

theorem evictions_insertAll (r : Recency κ ν) (batch : List (κ × ν)) :
    (r.insertAll batch).evictions = r.evictions := by
  induction batch generalizing r with
  | nil => rfl
  | cons p rest ih => exact (ih (r.insert p.1 p.2)).trans (evictions_insert r p.1 p.2)

/-- Taking keys out on purpose is no eviction, and it does to the contents what it does to a map
without an order. -/
theorem forgetAll_spec (r : Recency κ ν) (keys : List κ) :
    (r.forgetAll keys).2.evictions = r.evictions
    ∧ ∀ k, (r.forgetAll keys).2.contents.get? k = (r.contents.eraseAll keys).get? k := by
  rw [forgetAll_eq_foldl]
  suffices h : ∀ (acc : Nat × Recency κ ν),
      (keys.foldl forgetNext acc).2.evictions = acc.2.evictions
      ∧ ∀ k, (keys.foldl forgetNext acc).2.contents.get? k
        = if k ∈ keys then none else acc.2.contents.get? k by
    obtain ⟨hevictions, hcontents⟩ := h (0, r)
    exact ⟨hevictions, fun k => (hcontents k).trans (Entries.get?_eraseAll _ _ _).symm⟩
  induction keys with
  | nil => exact fun acc => ⟨rfl, fun k => by simp⟩
  | cons key rest ih =>
    intro acc
    have hnext : (forgetNext acc key).2 = (acc.2.forget key).2 := by
      unfold forgetNext
      rcases acc.2.forget key with ⟨_ | _, r⟩ <;> rfl
    obtain ⟨hevictions, hcontents⟩ := ih (forgetNext acc key)
    rw [hnext] at hevictions hcontents
    refine ⟨hevictions.trans (evictions_forget acc.2 key), fun k => (hcontents k).trans ?_⟩
    rw [get?_contents_forget, Entries.get?_erase]
    by_cases hk : key = k
    · simp [hk]
    · simp [hk, Ne.symm hk]

/-- A round of eviction counts. -/
theorem evictions_evictOne {r r' : Recency κ ν} {capacity : Nat}
    (h : r.evictOne capacity = some r') : r'.evictions = r.evictions + 1 := by
  unfold evictOne at h
  split at h
  · split at h
    · cases h
    · cases h
      exact congrArg (· + 1) (evictions_forget r _)
  · cases h

/-- Nothing is evicted, or it is counted. -/
theorem evictRounds_cases (capacity rounds : Nat) (r : Recency κ ν) :
    evictRounds capacity rounds r = r
    ∨ r.evictions < (evictRounds capacity rounds r).evictions := by
  induction rounds generalizing r with
  | zero => exact Or.inl rfl
  | succ rounds ih =>
    unfold evictRounds
    cases h : r.evictOne capacity with
    | none => exact Or.inl rfl
    | some r' =>
      have hcount := evictions_evictOne h
      refine Or.inr ?_
      dsimp only
      rcases ih r' with hsame | hlt
      · rw [hsame]
        omega
      · omega

end Recency

/-! ## 2. Shelves -/

namespace Shelf

/-- How many keys were evicted so far. -/
def evicted (shelf : Shelf κ ν) : Nat := shelf.evictions?.getD 0

@[simp] theorem evicted_get (shelf : Shelf κ ν) (keys : List κ) :
    (shelf.get keys).2.evicted = shelf.evicted := by
  cases shelf with
  | unbounded entries => rfl
  | bounded capacity recent => exact recent.evictions_getAll keys

/-- **An update keeps what it does not evict.** A shelf holds part of what it would hold without a
bound, and all of that unless the count has grown. -/
theorem update_spec (shelf : Shelf κ ν) (batch : List (κ × ν)) (removals : List κ) :
    (shelf.update batch removals).contents.Within
      ((shelf.contents.eraseAll removals).insertAll batch)
    ∧ ((∀ k, (shelf.update batch removals).contents.get? k
        = ((shelf.contents.eraseAll removals).insertAll batch).get? k)
        ∧ (shelf.update batch removals).evicted = shelf.evicted
      ∨ shelf.evicted < (shelf.update batch removals).evicted) := by
  cases shelf with
  | unbounded entries => exact ⟨.refl _, Or.inl ⟨fun k => rfl, rfl⟩⟩
  | bounded capacity recent =>
    obtain ⟨hevictions, hcontents⟩ := recent.forgetAll_spec removals
    let inserted := (recent.forgetAll removals).2.insertAll batch
    have hcount : inserted.evictions = recent.evictions :=
      (Recency.evictions_insertAll _ batch).trans hevictions
    have hinserted : ∀ k, inserted.contents.get? k
        = ((recent.contents.eraseAll removals).insertAll batch).get? k := by
      intro k
      rw [Recency.get?_contents_insertAll]
      exact Entries.get?_insertAll_congr hcontents batch k
    refine ⟨(Recency.evictRounds_within capacity inserted.size inserted).trans
      (Entries.within_of_get?_eq hinserted), ?_⟩
    rcases Recency.evictRounds_cases capacity inserted.size inserted with hsame | hlt
    · refine Or.inl ⟨fun k => ?_, ?_⟩
      · show (Recency.evictRounds capacity inserted.size inserted).contents.get? k = _
        rw [hsame]
        exact hinserted k
      · show (Recency.evictRounds capacity inserted.size inserted).evictions = _
        rw [hsame]
        exact hcount
    · refine Or.inr ?_
      rw [hcount] at hlt
      exact hlt

end Shelf

/-! ## 3. Stores that keep their entries -/

namespace System

variable {ι α : Type}

/-- A store holds the same entries, has room for as many and has evicted as many. In which order they
were used may differ. -/
structure SameEntries (n : Nat) (sys sys' : System ι α) : Prop where
  contents : (sys'.stores.get n).shelf.contents = (sys.stores.get n).shelf.contents
  capacity : (sys'.stores.get n).shelf.capacity? = (sys.stores.get n).shelf.capacity?
  evicted : (sys'.stores.get n).shelf.evicted = (sys.stores.get n).shelf.evicted

namespace SameEntries

variable {n : Nat} {sys sys' sys'' : System ι α}

theorem of_shelf (h : (sys'.stores.get n).shelf = (sys.stores.get n).shelf) :
    SameEntries n sys sys' :=
  ⟨congrArg _ h, congrArg _ h, congrArg _ h⟩

theorem refl (n : Nat) (sys : System ι α) : SameEntries n sys sys := .of_shelf rfl

theorem trans (h : SameEntries n sys sys') (h' : SameEntries n sys' sys'') :
    SameEntries n sys sys'' :=
  ⟨h'.contents.trans h.contents, h'.capacity.trans h.capacity, h'.evicted.trans h.evicted⟩

theorem publish (h : SameEntries n sys sys') (feed : Nat) (lifecycle : Lifecycle) :
    SameEntries n sys (sys'.publish feed lifecycle) := by
  obtain ⟨hcontents, hcapacity, hevicted⟩ := h
  constructor <;> rw [stores_publish] <;> assumption

end SameEntries

/-- Looking keys up keeps entries, whether it succeeds or not. -/
theorem sameEntries_read [DecidableEq ι] (sys : System ι α) (layer : Layer) (ids : List ι)
    (n : Nat) : SameEntries n sys (sys.read layer ids).2 := by
  by_cases hn : n = layer.store
  · subst hn
    rcases read_cases sys layer ids with ⟨_, _, hshelf⟩ | ⟨_, hshelf⟩
    · exact .of_shelf hshelf
    · constructor <;> rw [hshelf]
      · exact Shelf.contents_get _ ids
      · exact Shelf.capacity?_get _ ids
      · exact Shelf.evicted_get _ ids
  · exact .of_shelf (by rw [(read_called sys layer ids).others n hn])

end System

end Collate
