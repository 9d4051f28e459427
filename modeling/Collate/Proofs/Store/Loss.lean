/-
What a bounded store loses.

Two stores begin empty and are given the same calls; one is bounded, the other keeps everything, and
each walks its batches in an order of its own. The bounded one may have forgotten keys, but it holds
no key and no value that the other does not hold. So whatever it finds the other finds too, it
counts no removal that the other does not count, and while it has evicted nothing nobody can tell
the two apart. Neither the list of uses nor the order of a batch enters the argument: looking keys
up and removing them are functions of the contents alone (`Shelf.get_fst`, `Shelf.remove_fst`), and
of a write it is known what it leaves at most, and what it leaves if it evicts nothing.
-/
import Mathlib.Data.List.Perm.Subperm
import Collate.Proofs.Store.Evictions

set_option autoImplicit false

namespace Collate

variable {κ ν : Type} [DecidableEq κ]

/-! ## 1. Calls -/

/-- A call of a store with all that it is given. The pairs of a batch are in no order yet. -/
inductive StoreRequest (κ ν : Type) where
  | get (keys : List κ)
  | put (entries : Entries κ ν)
  | remove (keys : List κ)
  | update (entries : Entries κ ν) (removals : List κ)

namespace Store

/-- A store answers a call, or fails. -/
def serve (store : Store κ ν) : StoreRequest κ ν → Except String (BatchReply κ ν) × Store κ ν
  | .get keys => ((store.get keys).1.map .found, (store.get keys).2)
  | .put entries => ((store.put entries).1.map fun _ => .written, (store.put entries).2)
  | .remove keys => ((store.remove keys).1.map .removed, (store.remove keys).2)
  | .update entries removals =>
    ((store.update entries removals).1.map fun _ => .written, (store.update entries removals).2)

/-- Calls made one after the other. -/
def serveAll (store : Store κ ν) :
    List (StoreRequest κ ν) → List (Except String (BatchReply κ ν)) × Store κ ν
  | [] => ([], store)
  | request :: rest =>
    let (reply, store) := store.serve request
    let (replies, store) := store.serveAll rest
    (reply :: replies, store)

end Store

/-- The same request, with the pairs of its batch in some order. -/
inductive StoreRequest.Arranged : StoreRequest κ ν → BatchRequest κ ν → Prop where
  | get (keys : List κ) : Arranged (.get keys) (.get keys)
  | put {entries : Entries κ ν} {batch : List (κ × ν)} (h : batch.Perm entries.pairs) :
      Arranged (.put entries) (.put batch)
  | remove (keys : List κ) : Arranged (.remove keys) (.remove keys)
  | update {entries : Entries κ ν} {batch : List (κ × ν)} (h : batch.Perm entries.pairs)
      (removals : List κ) : Arranged (.update entries removals) (.update batch removals)

/-- A store whose calls do not fail does what its shelf does. -/
theorem Store.serve_faultless {store : Store κ ν} (h : store.Faultless)
    (request : StoreRequest κ ν) :
    ∃ arranged, request.Arranged arranged
      ∧ (store.serve request).1 = .ok (store.shelf.serve arranged).1
      ∧ (store.serve request).2.shelf = (store.shelf.serve arranged).2
      ∧ (store.serve request).2.Faultless := by
  cases request with
  | get keys =>
    obtain ⟨_, hreply, hshelf⟩ := attempt_ok h .get fun _ shelf => shelf.get keys
    exact ⟨.get keys, .get keys, congrArg (Except.map BatchReply.found) hreply, hshelf, h.attempt _ _⟩
  | put entries =>
    obtain ⟨n, hreply, hshelf⟩ := attempt_ok h .put fun n shelf =>
      ((), shelf.put (store.order.arrange n entries.pairs))
    exact ⟨.put (store.order.arrange n entries.pairs), .put (store.order.perm n _),
      congrArg (Except.map fun _ => BatchReply.written) hreply, hshelf, h.attempt _ _⟩
  | remove keys =>
    obtain ⟨_, hreply, hshelf⟩ := attempt_ok h .remove fun _ shelf => shelf.remove keys
    exact ⟨.remove keys, .remove keys, congrArg (Except.map BatchReply.removed) hreply, hshelf,
      h.attempt _ _⟩
  | update entries removals =>
    obtain ⟨n, hreply, hshelf⟩ := attempt_ok h .update fun n shelf =>
      ((), shelf.update (store.order.arrange n entries.pairs) removals)
    exact ⟨.update (store.order.arrange n entries.pairs) removals, .update (store.order.perm n _) _,
      congrArg (Except.map fun _ => BatchReply.written) hreply, hshelf, h.attempt _ _⟩

/-! ## 2. Lookups and removals as functions of the contents -/

namespace Entries

variable {m m' : Entries κ ν}

/-- How many of the keys are in the map. A key that is listed twice is there once. -/
def among (m : Entries κ ν) (ks : List κ) : Nat := (m.keys.filter fun k => k ∈ ks).length

theorem Within.keys_subset (h : m.Within m') : m.keys ⊆ m'.keys := by
  intro k hk
  rw [mem_keys, contains_eq_true] at hk ⊢
  obtain ⟨v, hv⟩ := hk
  exact ⟨v, h k v hv⟩

/-- A part of a map has no more of the keys. -/
theorem Within.among_le (h : m.Within m') (ks : List κ) : m.among ks ≤ m'.among ks := by
  have hnodup : (m.keys.filter fun k => k ∈ ks).Nodup := List.Nodup.filter _ m.distinct
  refine (List.subperm_of_subset hnodup ?_).length_le
  intro k hk
  rw [List.mem_filter] at hk ⊢
  exact ⟨h.keys_subset hk.1, hk.2⟩

theorem among_congr (h : ∀ k, m.get? k = m'.get? k) (ks : List κ) : m.among ks = m'.among ks :=
  Nat.le_antisymm ((within_of_get?_eq h).among_le ks)
    ((within_of_get?_eq fun k => (h k).symm).among_le ks)

theorem dropIn_eq_filter (k : κ) (l : List (κ × ν)) :
    dropIn k l = l.filter fun p => p.1 ≠ k := by
  induction l with
  | nil => rfl
  | cons p rest ih =>
    by_cases hk : p.1 = k
    · simp [dropIn, hk, ih]
    · simp [dropIn, hk, ih]

/-- Taking keys out leaves the others in their order. -/
theorem pairs_eraseAll (m : Entries κ ν) (ks : List κ) :
    (m.eraseAll ks).pairs = m.pairs.filter fun p => p.1 ∉ ks := by
  induction ks generalizing m with
  | nil => simp [eraseAll]
  | cons k rest ih =>
    rw [show m.eraseAll (k :: rest) = (m.erase k).eraseAll rest from rfl, ih,
      show (m.erase k).pairs = dropIn k m.pairs from rfl, dropIn_eq_filter, List.filter_filter]
    refine List.filter_congr fun p _ => ?_
    by_cases hk : p.1 = k <;> simp [hk]

theorem keys_erase (m : Entries κ ν) (k : κ) :
    (m.erase k).keys = m.keys.filter fun k' => k' ≠ k := by
  show (dropIn k m.pairs).map Prod.fst = (m.pairs.map Prod.fst).filter _
  rw [dropIn_eq_filter, List.filter_map]
  rfl

theorem keys_eraseAll (m : Entries κ ν) (ks : List κ) :
    (m.eraseAll ks).keys = m.keys.filter fun k => k ∉ ks := by
  rw [keys, pairs_eraseAll, keys, List.filter_map]
  rfl

omit [DecidableEq κ] in
theorem size_eq_length_keys (m : Entries κ ν) : m.size = m.keys.length := (List.length_map _).symm

/-- The keys that are there are those that taking them out takes out. -/
theorem size_eraseAll (m : Entries κ ν) (ks : List κ) :
    m.among ks + (m.eraseAll ks).size = m.size := by
  rw [size_eq_length_keys, size_eq_length_keys, keys_eraseAll, among]
  simpa using (List.length_eq_length_filter_add (l := m.keys) fun k => decide (k ∈ ks)).symm

theorem size_erase (m : Entries κ ν) (k : κ) :
    (if m.contains k then 1 else 0) + (m.erase k).size = m.size := by
  have herase : (m.erase k).keys = m.keys.erase k := by
    have hnodup : m.keys.Nodup := m.distinct
    rw [keys_erase, hnodup.erase_eq_filter]
    apply List.filter_congr
    intro k' _
    rw [bne, decide_not, beq_eq_decide]
  rw [size_eq_length_keys, size_eq_length_keys, herase]
  by_cases hk : m.contains k = true
  · have hmem := (mem_keys m k).2 hk
    rw [if_pos hk, List.length_erase_of_mem hmem]
    have hpos := List.length_pos_of_mem hmem
    omega
  · rw [if_neg hk, List.erase_of_not_mem fun hm => hk ((mem_keys m k).1 hm), Nat.zero_add]

theorem erase_of_get?_eq_none {k : κ} (h : m.get? k = none) : m.erase k = m := by
  have hnot : k ∉ m.pairs.map Prod.fst := by
    rw [← isSome_lookupIn, show lookupIn k m.pairs = none from h]
    exact Bool.false_ne_true
  obtain ⟨pairs, hd⟩ := m
  simp only [erase, dropIn_of_not_mem hnot]

theorem restrict_congr (h : ∀ k, m.get? k = m'.get? k) (ks : List κ) :
    m.restrict ks = m'.restrict ks := by
  simp only [restrict, h]

end Entries

namespace Recency

/-- What is found does not depend on the order of use. -/
theorem getAll_fst (r : Recency κ ν) (keys : List κ) :
    (r.getAll keys).1 = r.contents.restrict keys := by
  rw [getAll_eq_foldl, restrict_eq_foldl]
  suffices h : ∀ (found : Entries κ ν) (r' : Recency κ ν), r'.contents = r.contents →
      (keys.foldl find (found, r')).1 = keys.foldl (gather r.contents) found from h .empty r rfl
  induction keys with
  | nil => exact fun found r' _ => rfl
  | cons key rest ih =>
    intro found r' hr'
    have hfound : (find (found, r') key).1 = gather r.contents found key := by
      rw [gather, ← hr', ← get_fst, find]
      cases r'.get key with
      | mk value r'' => cases value <;> rfl
    have hcontents : (find (found, r') key).2.contents = r.contents := by
      rw [contents, entries_find, ← contents, hr']
    rw [List.foldl_cons, List.foldl_cons, ← hfound]
    exact ih _ _ hcontents

theorem entries_forget (r : Recency κ ν) (key : κ) :
    (r.forget key).2.entries = r.entries.erase key := by
  unfold forget
  cases h : r.entries.get? key with
  | none => exact (Entries.erase_of_get?_eq_none h).symm
  | some held => exact (sameRoom_detach _ _).entries

theorem forget_fst (r : Recency κ ν) (key : κ) : (r.forget key).1 = r.entries.contains key := by
  unfold forget Entries.contains
  cases r.entries.get? key <;> rfl

/-- Forgetting takes a key out for every key it counts. -/
theorem forgetAll_fst (r : Recency κ ν) (keys : List κ) :
    (r.forgetAll keys).1 = r.entries.among keys := by
  suffices h : ∀ counted : Nat × Recency κ ν,
      (keys.foldl forgetNext counted).2.entries = counted.2.entries.eraseAll keys
      ∧ (keys.foldl forgetNext counted).1 + (keys.foldl forgetNext counted).2.size
        = counted.1 + counted.2.size by
    obtain ⟨hentries, hcount⟩ := h (0, r)
    have hsize := r.entries.size_eraseAll keys
    rw [← hentries] at hsize
    rw [forgetAll_eq_foldl]
    simp only [size] at hcount
    omega
  induction keys with
  | nil => exact fun counted => ⟨rfl, rfl⟩
  | cons key rest ih =>
    intro counted
    have hnext : (forgetNext counted key).2 = (counted.2.forget key).2
        ∧ (forgetNext counted key).1 = counted.1 + if (counted.2.forget key).1 then 1 else 0 := by
      unfold forgetNext
      rcases counted.2.forget key with ⟨_ | _, r'⟩
      · exact ⟨rfl, rfl⟩
      · exact ⟨rfl, rfl⟩
    obtain ⟨hentries, hcount⟩ := ih (forgetNext counted key)
    rw [hnext.1, entries_forget] at hentries
    refine ⟨hentries, hcount.trans ?_⟩
    have hone := counted.2.entries.size_erase key
    rw [hnext.1, hnext.2, size, size, entries_forget, forget_fst]
    omega

end Recency

namespace Shelf

/-- Looking keys up finds what is held of them, whatever was used when. -/
theorem get_fst (shelf : Shelf κ ν) (keys : List κ) :
    (shelf.get keys).1 = shelf.contents.restrict keys := by
  cases shelf with
  | unbounded entries => rfl
  | bounded capacity recent => exact recent.getAll_fst keys

/-- Removing keys counts those that are held. -/
theorem remove_fst (shelf : Shelf κ ν) (keys : List κ) :
    (shelf.remove keys).1 = shelf.contents.among keys := by
  cases shelf with
  | unbounded entries =>
    have hsize := entries.size_eraseAll keys
    show entries.size - (entries.eraseAll keys).size = entries.among keys
    omega
  | bounded capacity recent =>
    refine (recent.forgetAll_fst keys).trans ?_
    have hkeys : recent.contents.keys = recent.entries.keys := List.map_map
    rw [Entries.among, Entries.among, contents, hkeys]

theorem remove_spec (shelf : Shelf κ ν) (keys : List κ) :
    (∀ k, (shelf.remove keys).2.contents.get? k = (shelf.contents.eraseAll keys).get? k)
    ∧ (shelf.remove keys).2.evicted = shelf.evicted := by
  cases shelf with
  | unbounded entries => exact ⟨fun k => rfl, rfl⟩
  | bounded capacity recent =>
    obtain ⟨hevictions, hcontents⟩ := recent.forgetAll_spec keys
    exact ⟨hcontents, hevictions⟩

theorem put_eq_update (shelf : Shelf κ ν) (batch : List (κ × ν)) :
    shelf.put batch = shelf.update batch [] := by
  cases shelf <;> rfl

end Shelf

/-! ## 3. One call of each -/

/-- An answer says no more than another. -/
def BatchReply.Within : BatchReply κ ν → BatchReply κ ν → Prop
  | .found m, .found m' => m.Within m'
  | .removed n, .removed n' => n ≤ n'
  | .written, .written => True
  | _, _ => False

namespace Shelf

/-- What a shelf holds next to one without a bound that was given the same calls. -/
structure Shadows (shelf whole : Shelf κ ν) : Prop where
  unbounded : whole.capacity? = none
  within : shelf.contents.Within whole.contents
  /-- Whoever has evicted nothing holds everything. -/
  same : shelf.evicted = 0 → ∀ k, shelf.contents.get? k = whole.contents.get? k

/-- The two go on as a shelf and the one without a bound next to it, and their answers compare. -/
structure Keeps (before : Shelf κ ν) (next whole : BatchReply κ ν × Shelf κ ν) : Prop where
  shadows : next.2.Shadows whole.2
  reply : next.1.Within whole.1
  grows : before.evicted ≤ next.2.evicted
  /-- While nothing is evicted the answers are the same. -/
  equal : next.2.evicted = 0 → next.1 = whole.1

variable {shelf whole : Shelf κ ν}

/-- **Looking up.** -/
theorem Shadows.get (h : shelf.Shadows whole) (keys : List κ) :
    shelf.Keeps (shelf.serve (.get keys)) (whole.serve (.get keys)) := by
  have hcontents : ∀ s : Shelf κ ν, (s.serve (.get keys)).2.contents = s.contents :=
    fun s => s.contents_get keys
  have hevicted : (shelf.serve (.get keys)).2.evicted = shelf.evicted := shelf.evicted_get keys
  refine ⟨⟨?_, ?_, ?_⟩, ?_, Nat.le_of_eq hevicted.symm, ?_⟩
  · exact (whole.capacity?_get keys).trans h.unbounded
  · rw [hcontents, hcontents]
    exact h.within
  · rw [hcontents, hcontents, hevicted]
    exact h.same
  · intro k v hk
    rw [get?_get] at hk ⊢
    split at hk
    · rw [if_pos ‹_›]
      exact h.within k v hk
    · cases hk
  · intro hnone
    rw [hevicted] at hnone
    simp only [Shelf.serve, get_fst, Entries.restrict_congr (h.same hnone)]

/-- **Removing.** -/
theorem Shadows.remove (h : shelf.Shadows whole) (keys : List κ) :
    shelf.Keeps (shelf.serve (.remove keys)) (whole.serve (.remove keys)) := by
  obtain ⟨hcontents, hevicted⟩ := shelf.remove_spec keys
  obtain ⟨hwhole, _⟩ := whole.remove_spec keys
  refine ⟨⟨?_, ?_, ?_⟩, ?_, Nat.le_of_eq hevicted.symm, ?_⟩
  · show (whole.remove keys).2.capacity? = none
    rw [eq_unbounded h.unbounded]
    rfl
  · intro k v hk
    have hk' : (shelf.remove keys).2.contents.get? k = some v := hk
    rw [hcontents, Entries.get?_eraseAll] at hk'
    show (whole.remove keys).2.contents.get? k = some v
    rw [hwhole, Entries.get?_eraseAll]
    split at hk'
    · cases hk'
    · rw [if_neg ‹_›]
      exact h.within k v hk'
  · intro hnone k
    show (shelf.remove keys).2.contents.get? k = (whole.remove keys).2.contents.get? k
    rw [hcontents, hwhole, Entries.get?_eraseAll, Entries.get?_eraseAll,
      h.same (hevicted.symm.trans hnone)]
  · show (shelf.remove keys).1 ≤ (whole.remove keys).1
    rw [remove_fst, remove_fst]
    exact h.within.among_le keys
  · intro hnone
    simp only [Shelf.serve, remove_fst, Entries.among_congr (h.same (hevicted.symm.trans hnone))]

/-- **Writing.** A key that was evicted has no value until it is written again, and then it has the
value written. -/
theorem Shadows.update (h : shelf.Shadows whole) {entries : Entries κ ν}
    {batch batch' : List (κ × ν)} (hb : batch.Perm entries.pairs)
    (hb' : batch'.Perm entries.pairs) (removals : List κ) :
    (shelf.update batch removals).Shadows (whole.update batch' removals)
    ∧ shelf.evicted ≤ (shelf.update batch removals).evicted := by
  obtain ⟨hpart, hall⟩ := shelf.update_spec batch removals
  have hwhole : ∀ k, (whole.update batch' removals).contents.get? k
      = ((whole.contents.eraseAll removals).insertAll batch').get? k := by
    rw [eq_unbounded h.unbounded]
    exact fun k => rfl
  refine ⟨⟨(whole.capacity?_update batch' removals).trans h.unbounded, ?_, ?_⟩, ?_⟩
  · intro k v hk
    have hk' := hpart k v hk
    rw [Entries.get?_insertAll_pairs _ entries hb, Entries.get?_eraseAll] at hk'
    rw [hwhole, Entries.get?_insertAll_pairs _ entries hb', Entries.get?_eraseAll]
    rcases Option.or_eq_some_iff.1 hk' with hnew | ⟨hnew, hold⟩
    · rw [hnew]
      rfl
    · rw [hnew, Option.none_or]
      split at hold
      · cases hold
      · rw [if_neg ‹_›]
        exact h.within k v hold
  · intro hnone k
    rcases hall with ⟨hcontents, hevicted⟩ | hmore
    · rw [hcontents, hwhole, Entries.get?_insertAll_pairs _ entries hb,
        Entries.get?_insertAll_pairs _ entries hb', Entries.get?_eraseAll, Entries.get?_eraseAll,
        h.same (hevicted.symm.trans hnone)]
    · omega
  · rcases hall with ⟨_, hevicted⟩ | hmore
    · exact Nat.le_of_eq hevicted.symm
    · exact Nat.le_of_lt hmore

/-- **One call.** Each of the two walks the batch in an order of its own. -/
theorem Shadows.serve (h : shelf.Shadows whole) {request : StoreRequest κ ν}
    {batch batch' : BatchRequest κ ν} (hb : request.Arranged batch)
    (hb' : request.Arranged batch') : shelf.Keeps (shelf.serve batch) (whole.serve batch') := by
  cases request with
  | get keys =>
    cases hb
    cases hb'
    exact h.get keys
  | put entries =>
    cases hb with | put hb => ?_
    cases hb' with | put hb' => ?_
    obtain ⟨hnext, hgrows⟩ := h.update hb hb' []
    rw [← put_eq_update] at hgrows
    rw [← put_eq_update, ← put_eq_update] at hnext
    exact ⟨hnext, trivial, hgrows, fun _ => rfl⟩
  | remove keys =>
    cases hb
    cases hb'
    exact h.remove keys
  | update entries removals =>
    cases hb with | update hb => ?_
    cases hb' with | update hb' => ?_
    obtain ⟨hnext, hgrows⟩ := h.update hb hb' removals
    exact ⟨hnext, trivial, hgrows, fun _ => rfl⟩

end Shelf

/-! ## 4. Any calls -/

namespace Store

variable {bounded whole : Store κ ν}

/-- Of calls made one after the other each answer of the bounded store is part of the other's; and
the answers are the same if nothing was evicted when the last of them was given. -/
theorem serveAll_shadows (hb : bounded.Faultless) (hw : whole.Faultless)
    (h : bounded.shelf.Shadows whole.shelf) (requests : List (StoreRequest κ ν)) :
    (bounded.serveAll requests).2.shelf.Shadows (whole.serveAll requests).2.shelf
    ∧ bounded.shelf.evicted ≤ (bounded.serveAll requests).2.shelf.evicted
    ∧ List.Forall₂ (fun reply reply' => ∃ r r', reply = .ok r ∧ reply' = .ok r' ∧ r.Within r')
        (bounded.serveAll requests).1 (whole.serveAll requests).1
    ∧ ((bounded.serveAll requests).2.shelf.evicted = 0 →
        (bounded.serveAll requests).1 = (whole.serveAll requests).1) := by
  induction requests generalizing bounded whole with
  | nil => exact ⟨h, Nat.le_refl _, .nil, fun _ => rfl⟩
  | cons request rest ih =>
    obtain ⟨batch, harranged, hreply, hshelf, hfaults⟩ := serve_faultless hb request
    obtain ⟨batch', harranged', hreply', hshelf', hfaults'⟩ := serve_faultless hw request
    obtain ⟨hnext, hwithin, hgrows, hequal⟩ := h.serve harranged harranged'
    rw [← hshelf, ← hshelf'] at hnext
    rw [← hshelf] at hgrows hequal
    obtain ⟨hlast, hmore, hreplies, hsame⟩ := ih hfaults hfaults' hnext
    refine ⟨hlast, Nat.le_trans hgrows hmore, .cons ⟨_, _, hreply, hreply', hwithin⟩ hreplies, ?_⟩
    intro hnone
    -- Evictions are never taken back, so there were none after the first call either.
    have hfirst := hequal (Nat.le_zero.1 (hnone ▸ hmore))
    show (bounded.serve request).1 :: ((bounded.serve request).2.serveAll rest).1
      = (whole.serve request).1 :: ((whole.serve request).2.serveAll rest).1
    rw [hreply, hreply', hfirst, hsame hnone]

/-- A store that counts its evictions goes on counting them. -/
theorem isSome_evictions?_serveAll {store : Store κ ν} (h : store.Faultless)
    (requests : List (StoreRequest κ ν)) :
    (store.serveAll requests).2.shelf.evictions?.isSome = store.shelf.evictions?.isSome := by
  induction requests generalizing store with
  | nil => rfl
  | cons request rest ih =>
    obtain ⟨batch, _, _, hshelf, hfaults⟩ := serve_faultless h request
    refine (ih hfaults).trans ?_
    rw [hshelf]
    cases store.shelf <;> cases batch <;> rfl

/-- **A bounded store loses entries and never makes any up.** Two stores that began empty, of which
one is bounded, are given the same calls, whatever these are and in whichever order each of the two
walks its batches. The bounded one then holds part of what the other holds, each of its answers is
part of the other's, and it has counted no removal that the other has not counted. If it has evicted
nothing, it has given the same answers and holds the same. -/
theorem bounded_within_unbounded (capacity : Nat) (order order' : BatchOrder κ ν)
    (requests : List (StoreRequest κ ν)) :
    let bounded := Store.serveAll { shelf := .freshBounded capacity, order := order } requests
    let whole := Store.serveAll { shelf := .fresh, order := order' } requests
    bounded.2.shelf.contents.Within whole.2.shelf.contents
    ∧ List.Forall₂ (fun reply reply' => ∃ r r', reply = .ok r ∧ reply' = .ok r' ∧ r.Within r')
        bounded.1 whole.1
    ∧ ∃ evictions, bounded.2.shelf.evictions? = some evictions
        ∧ (evictions = 0 →
            bounded.1 = whole.1
            ∧ ∀ k, bounded.2.shelf.contents.get? k = whole.2.shelf.contents.get? k) := by
  intro bounded whole
  have hfaultless : ∀ (shelf : Shelf κ ν) (order : BatchOrder κ ν),
      ({ shelf := shelf, order := order } : Store κ ν).Faultless := fun _ _ _ _ => rfl
  have hempty : (Shelf.freshBounded capacity : Shelf κ ν).Shadows .fresh :=
    ⟨rfl, fun k v hk => hk, fun _ k => rfl⟩
  obtain ⟨hlast, _, hreplies, hsame⟩ := serveAll_shadows
    (hfaultless (.freshBounded capacity) order) (hfaultless .fresh order') hempty requests
  obtain ⟨evictions, hevictions⟩ := Option.isSome_iff_exists.1
    (isSome_evictions?_serveAll (hfaultless (.freshBounded capacity) order) requests)
  refine ⟨hlast.within, hreplies, evictions, hevictions, fun hnone => ?_⟩
  have hevicted : bounded.2.shelf.evicted = 0 := by
    rw [Shelf.evicted, hevictions, hnone]
    rfl
  exact ⟨hsame hevicted, hlast.same hevicted⟩

end Store

end Collate
