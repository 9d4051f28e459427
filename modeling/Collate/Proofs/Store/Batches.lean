/-
What a batch leaves of a bounded store.

In which order a batch is walked is nobody's choice, so it had better not matter. A batch puts its
own keys in front of the line of uses and leaves the others behind them in the order they stood in;
then the line is cut to the store's capacity. The order of the walk is the order of the front part
and nothing else (`Ranking.pairs_useAll`). So how many keys are left and how many are cut off are
told by sets of keys, and as long as the front part fits, so is everything the store holds.

Every key a store ever took in is still there, was taken out, or was evicted. That is a balance over
any run, and each call keeps it.
-/
import Mathlib.Data.Finset.Card
import Collate.Proofs.Store.Loss

set_option autoImplicit false

namespace Collate

variable {κ ν : Type} [DecidableEq κ]

/-! ## 1. A batch on a ranking -/

namespace Ranking

variable (ranking : Ranking κ ν)

/-- The keys of a batch stand in front, the last one first, and behind them the others as they
stood. -/
theorem pairs_useAll {batch : List (κ × ν)} (h : (batch.map Prod.fst).Nodup) :
    (ranking.useAll batch).entries.pairs
      = batch.reverse ++ ranking.entries.pairs.filter fun p => p.1 ∉ batch.map Prod.fst := by
  induction batch using List.reverseRecOn with
  | nil => simp [useAll]
  | append_singleton batch p ih =>
    obtain ⟨hbatch, _, hapart⟩ := List.nodup_append.1 (List.map_append (f := Prod.fst) ▸ h)
    have hp : p.1 ∉ batch.reverse.map Prod.fst := by
      rw [List.map_reverse, List.mem_reverse]
      exact fun hm => hapart _ hm _ (List.mem_singleton_self _) rfl
    have huse : (ranking.useAll (batch ++ [p])).entries.pairs
        = p :: Entries.dropIn p.1 (ranking.useAll batch).entries.pairs := by
      rw [useAll, List.foldl_append]
      rfl
    rw [huse, ih hbatch, Entries.dropIn_append, Entries.dropIn_of_not_mem hp,
      Entries.dropIn_eq_filter, List.filter_filter, List.reverse_concat, List.cons_append]
    refine congrArg (fun rest => p :: (batch.reverse ++ rest)) (List.filter_congr fun q _ => ?_)
    by_cases hq : q.1 = p.1 <;> simp [hq]

/-- A batch adds its keys to those that are there. -/
theorem keys_useAll (batch : List (κ × ν)) :
    (ranking.useAll batch).entries.keys.toFinset
      = (batch.map Prod.fst).toFinset ∪ ranking.entries.keys.toFinset := by
  induction batch generalizing ranking with
  | nil => simp [useAll]
  | cons p rest ih =>
    have huse : (ranking.use p.1 p.2).entries.keys.toFinset
        = insert p.1 ranking.entries.keys.toFinset := by
      ext k
      rw [List.mem_toFinset, Finset.mem_insert, List.mem_toFinset]
      show k ∈ p.1 :: (Entries.dropIn p.1 ranking.entries.pairs).map Prod.fst ↔ _
      rw [List.mem_cons, Entries.fst_mem_dropIn]
      by_cases hk : k = p.1 <;> simp [hk, Entries.keys]
    rw [show ranking.useAll (p :: rest) = (ranking.use p.1 p.2).useAll rest from rfl, ih, huse,
      List.map_cons, List.toFinset_cons, Finset.insert_union, Finset.union_insert]

theorem evictions_useAll (batch : List (κ × ν)) :
    (ranking.useAll batch).evictions = ranking.evictions := by
  induction batch generalizing ranking with
  | nil => rfl
  | cons p rest ih => exact ih (ranking.use p.1 p.2)

theorem forgetAll_eq (keys : List κ) :
    ranking.forgetAll keys = { ranking with entries := ranking.entries.eraseAll keys } := by
  induction keys generalizing ranking with
  | nil => rfl
  | cons key rest ih => exact ih (ranking.forget key)

/-- Those that stay behind a batch: neither in it nor removed with it. -/
def behind (entries : Entries κ ν) (removals : List κ) : List (κ × ν) :=
  ranking.entries.pairs.filter fun p => p.1 ∉ removals ∧ p.1 ∉ entries.keys

variable {ranking} {entries : Entries κ ν} {batch : List (κ × ν)}

/-- **A batch with removals**, before the line is cut. -/
theorem pairs_update (hp : batch.Perm entries.pairs) (removals : List κ) :
    ((ranking.forgetAll removals).useAll batch).entries.pairs
      = batch.reverse ++ ranking.behind entries removals := by
  have hnodup : (batch.map Prod.fst).Nodup := (hp.map Prod.fst).nodup_iff.2 entries.distinct
  rw [pairs_useAll _ hnodup, forgetAll_eq, Entries.pairs_eraseAll, List.filter_filter, behind]
  refine congrArg (batch.reverse ++ ·) (List.filter_congr fun p _ => ?_)
  have hin : p.1 ∈ batch.map Prod.fst ↔ p.1 ∈ entries.keys := (hp.map Prod.fst).mem_iff
  simp only [hin, Bool.decide_and, Bool.and_comm]

theorem evictions_update (removals : List κ) (batch : List (κ × ν)) :
    ((ranking.forgetAll removals).useAll batch).evictions = ranking.evictions := by
  rw [evictions_useAll, forgetAll_eq]

theorem mem_behind {removals : List κ} {p : κ × ν} :
    p ∈ ranking.behind entries removals
      ↔ p ∈ ranking.entries.pairs ∧ p.1 ∉ removals ∧ p.1 ∉ entries.keys := by
  simp [behind, List.mem_filter]

/-- A batch that fits is cut behind its own keys. -/
theorem pairs_of_fits (hp : batch.Perm entries.pairs) (removals : List κ) {capacity : Nat}
    (hle : entries.size ≤ capacity) :
    (((ranking.forgetAll removals).useAll batch).cut capacity).entries.pairs
      = batch.reverse ++ (ranking.behind entries removals).take (capacity - entries.size) := by
  have hlength : batch.reverse.length = entries.size := List.length_reverse.trans hp.length_eq
  show ((ranking.forgetAll removals).useAll batch).entries.pairs.take capacity = _
  rw [pairs_update hp, List.take_append, List.take_of_length_le (hlength ▸ hle), hlength]

/-- A batch that does not fit is all that is left, and not all of it. -/
theorem pairs_of_overflows (hp : batch.Perm entries.pairs) (removals : List κ) {capacity : Nat}
    (hlt : capacity < entries.size) :
    (((ranking.forgetAll removals).useAll batch).cut capacity).entries.pairs
      = batch.reverse.take capacity := by
  have hlength : batch.reverse.length = entries.size := List.length_reverse.trans hp.length_eq
  show ((ranking.forgetAll removals).useAll batch).entries.pairs.take capacity = _
  rw [pairs_update hp, List.take_append_of_le_length (hlength ▸ Nat.le_of_lt hlt)]

end Ranking

/-! ## 2. The line of uses -/

namespace Recency

variable {r : Recency κ ν} {ranking : Ranking κ ν}

omit [DecidableEq κ] in
/-- The keys met along the list of uses, the one used last in front. -/
def line (r : Recency κ ν) : List κ := r.keysFrom r.links.size r.newest

theorem Ranks.line_eq {uses : List (κ × Held ν)} (h : r.Ranks uses) :
    r.line = uses.map Prod.fst := by
  have hlength : (uses.map nodeOf).length ≤ r.links.size := by
    rw [List.length_map, ← h.length_add_free]
    exact Nat.le_add_right ..
  rw [line, h.threads.newest, keysFrom_linked h.threads.linked hlength, List.map_map]
  rfl

theorem Follows.line_eq (h : r.Follows ranking) : r.line = ranking.entries.keys := by
  obtain ⟨uses, hranks, hpairs⟩ := h.ranked
  rw [hranks.line_eq, Entries.keys, ← hpairs, List.map_map]
  rfl

theorem Follows.mem_keys (h : r.Follows ranking) (k : κ) :
    k ∈ r.contents.keys ↔ k ∈ ranking.entries.keys := by
  rw [Entries.mem_keys, Entries.mem_keys, Entries.contains, Entries.contains, h.get?_contents]

/-- The line holds every key that is held, and once. -/
theorem Follows.line_perm (h : r.Follows ranking) : r.line.Perm r.contents.keys := by
  rw [h.line_eq]
  refine (List.perm_ext_iff_of_nodup ranking.entries.distinct r.contents.distinct).2 fun k => ?_
  exact (h.mem_keys k).symm

end Recency

namespace Shelf

/-- The keys in the order of their use; without a bound, in the order they came. -/
def line : Shelf κ ν → List κ
  | .unbounded entries => entries.keys
  | .bounded _ recent => recent.line

/-! ## 3. What a batch leaves -/

/-- The keys in line that are neither removed nor in the batch. -/
def outside (shelf : Shelf κ ν) (entries : Entries κ ν) (removals : List κ) : List κ :=
  shelf.line.filter fun k => k ∉ removals ∧ k ∉ entries.keys

/-- All keys there would be without a bound: the old ones that are not removed and those of the
batch. -/
def involved (shelf : Shelf κ ν) (entries : Entries κ ν) (removals : List κ) : Finset κ :=
  (shelf.contents.keys.toFinset \ removals.toFinset) ∪ entries.keys.toFinset

/-- What a shelf for so many keys has come to by a batch, in whatever order that was walked. -/
structure Settles (capacity : Nat) (shelf : Shelf κ ν) (entries : Entries κ ν) (removals : List κ)
    (after : Shelf κ ν) : Prop where
  /-- Whoever is held stands in line once. -/
  line : after.line.Perm after.contents.keys
  size : after.size = min (shelf.involved entries removals).card capacity
  /-- Those that are too many are evicted. -/
  evicted : after.evicted = shelf.evicted + ((shelf.involved entries removals).card - capacity)
  /-- If the batch fits, those used last stay of the others, in the order they stood in. -/
  survivors : entries.size ≤ capacity → (after.line.filter fun k => k ∉ entries.keys)
    = (shelf.outside entries removals).take (capacity - entries.size)
  /-- If the batch fits it is there as a whole, and those that stay keep their values. -/
  values : entries.size ≤ capacity → ∀ k, after.contents.get? k = (entries.get? k).or
    (if k ∈ (shelf.outside entries removals).take (capacity - entries.size)
      then shelf.contents.get? k else none)
  /-- If it does not fit, nothing else is left, and as many of its keys as there is room for. -/
  overflows : capacity < entries.size → after.size = capacity
    ∧ ∀ k v, after.contents.get? k = some v → entries.get? k = some v

variable {r : Recency κ ν} {ranking : Ranking κ ν} {entries : Entries κ ν} {batch : List (κ × ν)}

theorem outside_eq (h : r.Follows ranking) (capacity : Nat) (entries : Entries κ ν)
    (removals : List κ) :
    (bounded capacity r).outside entries removals
      = (ranking.behind entries removals).map Prod.fst := by
  rw [outside, line, h.line_eq]
  show (ranking.entries.pairs.map Prod.fst).filter _ = _
  rw [List.filter_map]
  rfl

/-- How many keys there are before the line is cut. -/
theorem card_involved (h : r.Follows ranking) (capacity : Nat) (hp : batch.Perm entries.pairs)
    (removals : List κ) :
    ((bounded capacity r).involved entries removals).card
      = ((ranking.forgetAll removals).useAll batch).entries.size := by
  have hkeys : (batch.map Prod.fst).toFinset = entries.keys.toFinset :=
    List.toFinset_eq_of_perm _ _ (hp.map Prod.fst)
  have hold : r.contents.keys.toFinset \ removals.toFinset
      = (ranking.forgetAll removals).entries.keys.toFinset := by
    ext k
    rw [Ranking.forgetAll_eq, Entries.keys_eraseAll]
    simp [h.mem_keys]
  have hinvolved : (bounded capacity r).involved entries removals
      = ((ranking.forgetAll removals).useAll batch).entries.keys.toFinset := by
    rw [Ranking.keys_useAll, hkeys, Finset.union_comm, ← hold]
    rfl
  have hnodup : ((ranking.forgetAll removals).useAll batch).entries.keys.Nodup := Entries.distinct _
  rw [hinvolved, List.toFinset_card_of_nodup hnodup, Entries.size_eq_length_keys]

section Update

variable (h : r.Follows ranking) (capacity : Nat) (hp : batch.Perm entries.pairs)
  (removals : List κ)

include h

/-- A batch with removals does to a shelf what it does to its ranking. -/
theorem follows_update (batch : List (κ × ν)) :
    ∃ next, (bounded capacity r).update batch removals = bounded capacity next
      ∧ next.Follows (((ranking.forgetAll removals).useAll batch).cut capacity) :=
  ⟨_, rfl, ((h.forgetAll removals).1.insertAll batch).evict capacity⟩

include hp

theorem survivors_update (hle : entries.size ≤ capacity) :
    (((bounded capacity r).update batch removals).line.filter fun k => k ∉ entries.keys)
      = ((bounded capacity r).outside entries removals).take (capacity - entries.size) := by
  obtain ⟨next, hnext, hfollows⟩ := follows_update h capacity removals batch
  have hfront : ((batch.reverse.map Prod.fst).filter fun k => k ∉ entries.keys) = [] := by
    refine List.filter_eq_nil_iff.2 fun k hk => ?_
    rw [List.map_reverse, List.mem_reverse] at hk
    have hin : k ∈ entries.keys := (hp.map Prod.fst).mem_iff.1 hk
    simp [hin]
  have hbehind : ((((ranking.behind entries removals).map Prod.fst).take
      (capacity - entries.size)).filter fun k => k ∉ entries.keys)
      = ((ranking.behind entries removals).map Prod.fst).take (capacity - entries.size) := by
    refine List.filter_eq_self.2 fun k hk => ?_
    obtain ⟨p, hp', rfl⟩ := List.mem_map.1 (List.mem_of_mem_take hk)
    simpa using (Ranking.mem_behind.1 hp').2.2
  have hkeys : next.line = batch.reverse.map Prod.fst
      ++ ((ranking.behind entries removals).map Prod.fst).take (capacity - entries.size) := by
    rw [hfollows.line_eq, Entries.keys, Ranking.pairs_of_fits hp removals hle, List.map_append,
      List.map_take]
  rw [hnext, line, hkeys, List.filter_append, hfront, hbehind, List.nil_append, outside_eq h]

theorem values_update (hle : entries.size ≤ capacity) (k : κ) :
    ((bounded capacity r).update batch removals).contents.get? k = (entries.get? k).or
      (if k ∈ ((bounded capacity r).outside entries removals).take (capacity - entries.size)
        then r.contents.get? k else none) := by
  obtain ⟨next, hnext, hfollows⟩ := follows_update h capacity removals batch
  have hold : ∀ {k v}, (k, v) ∈ (ranking.behind entries removals).take (capacity - entries.size) →
      r.contents.get? k = some v ∧ k ∉ entries.keys := by
    intro k v hm
    obtain ⟨hin, -, hnot⟩ := Ranking.mem_behind.1 (List.mem_of_mem_take hm)
    exact ⟨(h.get?_contents k).trans ((Entries.mem_pairs ..).1 hin), hnot⟩
  refine Option.ext fun v => ?_
  rw [hnext, contents, hfollows.get?_contents, ← Entries.mem_pairs,
    Ranking.pairs_of_fits hp removals hle, List.mem_append, List.mem_reverse, hp.mem_iff,
    Entries.mem_pairs, outside_eq h, ← List.map_take]
  cases hk : entries.get? k with
  | some w =>
    have hin : k ∈ entries.keys := (Entries.mem_keys ..).2 (by simp [Entries.contains, hk])
    have hnot : (k, v) ∉ (ranking.behind entries removals).take (capacity - entries.size) :=
      fun hm => (hold hm).2 hin
    simp only [hnot, or_false, Option.some_or]
  | none =>
    rw [Option.none_or]
    constructor
    · rintro (hnone | hm)
      · cases hnone
      · rw [if_pos (List.mem_map_of_mem hm)]
        exact (hold hm).1
    · intro hv
      split at hv
      · next hin =>
        obtain ⟨⟨k', v'⟩, hm, rfl⟩ := List.mem_map.1 hin
        have hv' : some v' = some v := (hold hm).1.symm.trans hv
        exact Or.inr (Option.some.inj hv' ▸ hm)
      · cases hv

/-- **A batch with removals** on a bounded shelf. -/
theorem settles_update :
    (bounded capacity r).Settles capacity entries removals
      ((bounded capacity r).update batch removals) := by
  obtain ⟨next, hnext, hfollows⟩ := follows_update h capacity removals batch
  have hcard := card_involved h capacity hp removals
  have hsize : next.size = min ((ranking.forgetAll removals).useAll batch).entries.size capacity :=
    hfollows.size.trans (List.length_take.trans (Nat.min_comm ..))
  refine ⟨?_, ?_, ?_, survivors_update h capacity hp removals, values_update h capacity hp removals,
    fun hlt => ⟨?_, fun k v hk => ?_⟩⟩
  · rw [hnext]
    exact hfollows.line_perm
  · rw [hnext, hcard]
    exact hsize
  · rw [hnext, hcard]
    refine hfollows.evictions.trans ?_
    show ((ranking.forgetAll removals).useAll batch).evictions + _ = r.evictions + _
    rw [Ranking.evictions_update, h.evictions]
  · have hlength : capacity ≤ batch.reverse.length := by
      rw [List.length_reverse, hp.length_eq]
      exact Nat.le_of_lt hlt
    rw [hnext]
    refine hfollows.size.trans ?_
    rw [Entries.size, Ranking.pairs_of_overflows hp removals hlt, List.length_take,
      Nat.min_eq_left hlength]
  · rw [hnext, contents, hfollows.get?_contents, ← Entries.mem_pairs,
      Ranking.pairs_of_overflows hp removals hlt] at hk
    exact (Entries.mem_pairs ..).1 (hp.subset (List.mem_reverse.1 (List.mem_of_mem_take hk)))

end Update

/-! ## 4. What came and what went -/

/-- How many keys a batch brings that are not held. -/
def added (shelf : Shelf κ ν) (batch : List (κ × ν)) : Nat :=
  ((batch.map Prod.fst).toFinset \ shelf.contents.keys.toFinset).card

/-- How many keys a call takes in that were not held before. -/
def insertions (shelf : Shelf κ ν) : BatchRequest κ ν → Nat
  | .get _ | .remove _ => 0
  | .put batch => shelf.added batch
  | .update batch removals => (shelf.remove removals).2.added batch

/-- How many keys a call takes out that were held. -/
def removals (shelf : Shelf κ ν) : BatchRequest κ ν → Nat
  | .get _ | .put _ => 0
  | .remove keys => (shelf.remove keys).1
  | .update _ keys => (shelf.remove keys).1

/-- Adds up what each call of a run counts on the shelf it meets. -/
def total (count : Shelf κ ν → BatchRequest κ ν → Nat) : Shelf κ ν → List (BatchRequest κ ν) → Nat
  | _, [] => 0
  | shelf, request :: rest => count shelf request + total count (shelf.serve request).2 rest

/-- A batch: whoever came is there or was evicted. -/
theorem balance_put (h : r.Follows ranking) (capacity : Nat) (batch : List (κ × ν)) :
    ((bounded capacity r).put batch).evicted + ((bounded capacity r).put batch).size
      = (bounded capacity r).evicted + (bounded capacity r).size
        + (bounded capacity r).added batch := by
  have hnext := (h.insertAll batch).evict capacity
  have hadded : (bounded capacity r).added batch
      = ((batch.map Prod.fst).toFinset \ ranking.entries.keys.toFinset).card := by
    refine congrArg Finset.card ?_
    ext k
    simp [contents, h.mem_keys]
  have hcard : ∀ entries : Entries κ ν, entries.keys.toFinset.card = entries.size := fun entries =>
    (List.toFinset_card_of_nodup entries.distinct).trans (Entries.size_eq_length_keys _).symm
  have hgrown : (ranking.useAll batch).entries.size
      = (bounded capacity r).added batch + ranking.entries.size := by
    rw [hadded, ← hcard, ← hcard, Ranking.keys_useAll, Finset.card_sdiff_add_card]
  have hsize : ((bounded capacity r).put batch).size
      = min capacity (ranking.useAll batch).entries.size := hnext.size.trans List.length_take
  have hevicted : ((bounded capacity r).put batch).evicted
      = (ranking.useAll batch).evictions + ((ranking.useAll batch).entries.size - capacity) :=
    hnext.evictions
  have hbefore : (bounded capacity r).size = ranking.entries.size := h.size
  have hcount : (bounded capacity r).evicted = ranking.evictions := h.evictions
  rw [hsize, hevicted, hbefore, hcount, Ranking.evictions_useAll]
  omega

/-- A removal: whoever was counted is not there any more. -/
theorem balance_remove (h : r.Follows ranking) (capacity : Nat) (keys : List κ) :
    ((bounded capacity r).remove keys).2.evicted + ((bounded capacity r).remove keys).1
      + ((bounded capacity r).remove keys).2.size
      = (bounded capacity r).evicted + (bounded capacity r).size := by
  obtain ⟨hnext, hcount⟩ := h.forgetAll keys
  have hless : (ranking.forgetAll keys).entries.size ≤ ranking.entries.size := by
    rw [Ranking.forgetAll_eq, Entries.size, Entries.pairs_eraseAll]
    exact List.length_filter_le ..
  have hreply : ((bounded capacity r).remove keys).1
      = ranking.entries.size - (ranking.forgetAll keys).entries.size := hcount
  have hsize : ((bounded capacity r).remove keys).2.size = (ranking.forgetAll keys).entries.size :=
    hnext.size
  have hevicted : ((bounded capacity r).remove keys).2.evicted = (bounded capacity r).evicted :=
    ((bounded capacity r).remove_spec keys).2
  have hbefore : (bounded capacity r).size = ranking.entries.size := h.size
  rw [hreply, hsize, hevicted, hbefore]
  omega

/-- **The balance of a call.** -/
theorem balance_serve (h : r.Follows ranking) (capacity : Nat) (request : BatchRequest κ ν) :
    ((bounded capacity r).serve request).2.evicted + (bounded capacity r).removals request
      + ((bounded capacity r).serve request).2.size
      = (bounded capacity r).evicted + (bounded capacity r).size
        + (bounded capacity r).insertions request := by
  cases request with
  | get keys =>
    have hsize : ((bounded capacity r).get keys).2.size = (bounded capacity r).size :=
      congrArg Entries.size (show (r.getAll keys).2.entries = r.entries by
        rw [Recency.getAll_eq_foldl, Recency.entries_foldl_find])
    show ((bounded capacity r).get keys).2.evicted + 0 + ((bounded capacity r).get keys).2.size = _
    rw [evicted_get, hsize]
    rfl
  | put batch => exact (Nat.add_right_comm ..).trans (balance_put h capacity batch)
  | remove keys => exact balance_remove h capacity keys
  | update batch keys =>
    have hremove := balance_remove h capacity keys
    have hput := balance_put (h.forgetAll keys).1 capacity batch
    show (((bounded capacity r).remove keys).2.put batch).evicted
      + ((bounded capacity r).remove keys).1 + (((bounded capacity r).remove keys).2.put batch).size
      = (bounded capacity r).evicted + (bounded capacity r).size
        + ((bounded capacity r).remove keys).2.added batch
    have hsame : ((bounded capacity r).remove keys).2 = bounded capacity (r.forgetAll keys).2 := rfl
    rw [← hsame] at hput
    omega

/-- **The balance of a run.** -/
theorem balance_serveAll (h : r.Follows ranking) (capacity : Nat)
    (requests : List (BatchRequest κ ν)) :
    (serveAll serve (bounded capacity r) requests).2.evicted
      + total removals (bounded capacity r) requests
      + (serveAll serve (bounded capacity r) requests).2.size
      = (bounded capacity r).evicted + (bounded capacity r).size
        + total insertions (bounded capacity r) requests := by
  induction requests generalizing r ranking with
  | nil => rfl
  | cons request rest ih =>
    obtain ⟨next, hserve, hfollows⟩ := serve_ranking h capacity request
    have hone := balance_serve h capacity request
    have hrest := ih hfollows
    rw [hserve] at hone
    rw [total, total, serveAll, hserve]
    dsimp only at hone hrest ⊢
    omega

end Shelf

/-! ## 5. Stores in use -/

/-- A call that writes entries and removes keys. -/
inductive StoreRequest.Writes : StoreRequest κ ν → Entries κ ν → List κ → Prop where
  | put (entries : Entries κ ν) : Writes (.put entries) entries []
  | update (entries : Entries κ ν) (removals : List κ) :
      Writes (.update entries removals) entries removals

theorem StoreRequest.Writes.arranged {request : StoreRequest κ ν} {entries : Entries κ ν}
    {removals : List κ} (h : request.Writes entries removals) {arranged : BatchRequest κ ν}
    (ha : request.Arranged arranged) (shelf : Shelf κ ν) :
    ∃ batch, batch.Perm entries.pairs ∧ (shelf.serve arranged).2 = shelf.update batch removals := by
  cases h with
  | put =>
    cases ha with
    | put hp => exact ⟨_, hp, shelf.put_eq_update _⟩
  | update =>
    cases ha with
    | update hp => exact ⟨_, hp, rfl⟩

/-- **The order of a batch decides nothing but the order of its own keys.** Let a bounded store have
come to any state, and let a batch be written to it, with removals or without, walked in one order
and in another. As many keys are held afterwards and as many were evicted, namely those of the old
ones not removed and of the batch that are too many. A batch that fits is there as a whole, of the
other keys those used last stay in the order they stood in, and both orders leave the same map. Of a
batch that does not fit as many keys are left as there is room for, and nothing else. In every run
the keys taken in are those that were taken out, evicted, or are held. -/
theorem evictions_any_order (capacity : Nat) (requests : List (BatchRequest κ ν)) :
    let shelf := (serveAll Shelf.serve (Shelf.freshBounded capacity) requests).2
    (∀ (request : StoreRequest κ ν) entries removals arranged arranged',
      request.Writes entries removals → request.Arranged arranged → request.Arranged arranged' →
      let after := (shelf.serve arranged).2
      let after' := (shelf.serve arranged').2
      shelf.Settles (max capacity 1) entries removals after
      ∧ shelf.Settles (max capacity 1) entries removals after'
      ∧ after.size = after'.size ∧ after.evicted = after'.evicted
      ∧ (entries.size ≤ max capacity 1 →
        ∀ k, after.contents.get? k = after'.contents.get? k))
    ∧ shelf.evicted + Shelf.total Shelf.removals (Shelf.freshBounded capacity) requests + shelf.size
      = Shelf.total Shelf.insertions (Shelf.freshBounded capacity) requests := by
  intro shelf
  obtain ⟨r, hserve, hfollows⟩ :=
    Shelf.serveAll_ranking Recency.follows_empty (max capacity 1) requests
  have hshelf : shelf = .bounded (max capacity 1) r := congrArg Prod.snd hserve
  refine ⟨fun request entries removals arranged arranged' hwrites ha ha' => ?_, ?_⟩
  · obtain ⟨batch, hp, hbatch⟩ := hwrites.arranged ha shelf
    obtain ⟨batch', hp', hbatch'⟩ := hwrites.arranged ha' shelf
    rw [hbatch, hbatch', hshelf]
    have hsettles := Shelf.settles_update hfollows (max capacity 1) hp removals
    have hsettles' := Shelf.settles_update hfollows (max capacity 1) hp' removals
    exact ⟨hsettles, hsettles', hsettles.size.trans hsettles'.size.symm,
      hsettles.evicted.trans hsettles'.evicted.symm,
      fun hle k => (hsettles.values hle k).trans (hsettles'.values hle k).symm⟩
  · refine (Shelf.balance_serveAll Recency.follows_empty (max capacity 1) requests).trans ?_
    exact Nat.zero_add _

/-- Of three keys 1 is used last and 2 longest ago. A batch takes 2 out, brings it back and brings
4: whichever of the two comes first, 3 is evicted and 1 stays behind them. -/
theorem evictions_any_order_reinserted :
    let shelf := (serveAll Shelf.serve (Shelf.freshBounded 3)
      [.put [(1, 10), (2, 20), (3, 30)], .get [1]]).2
    let entries : Entries Nat Nat := ⟨[(2, 21), (4, 40)], by decide⟩
    let after := shelf.update [(2, 21), (4, 40)] [2]
    let after' := shelf.update [(4, 40), (2, 21)] [2]
    (StoreRequest.update entries [2]).Writes entries [2]
    ∧ (StoreRequest.update entries [2]).Arranged (.update [(2, 21), (4, 40)] [2])
    ∧ (StoreRequest.update entries [2]).Arranged (.update [(4, 40), (2, 21)] [2])
    ∧ shelf.line = [1, 3, 2] ∧ after.line = [4, 2, 1] ∧ after'.line = [2, 4, 1]
    ∧ after.evicted = after'.evicted ∧ after.evicted = 1
    ∧ ∀ k, after.contents.get? k = after'.contents.get? k := by
  intro shelf entries after after'
  have hwrites : (StoreRequest.update entries [2]).Writes entries [2] := .update entries [2]
  have ha : (StoreRequest.update entries [2]).Arranged (.update [(2, 21), (4, 40)] [2]) :=
    .update (.refl _) [2]
  have ha' : (StoreRequest.update entries [2]).Arranged (.update [(4, 40), (2, 21)] [2]) :=
    .update (.swap ..) [2]
  obtain ⟨_, _, _, hevicted, hsame⟩ := (evictions_any_order 3
    [.put [(1, 10), (2, 20), (3, 30)], .get [1]]).1 (.update entries [2]) entries [2] _ _
    hwrites ha ha'
  exact ⟨hwrites, ha, ha', by decide, by decide, by decide, hevicted, by decide, hsame (by decide)⟩

end Collate
