/-
A bounded store is a ranking of its keys.

The invariant of the slots (`Ranks`) says which keys are held, in which order, with which values and
in which slots: the slots are threaded in that order, the map points to them, and together with those
given up they are all the slots there are. Every operation keeps it and does to the keys what the
ranking says. Whole calls follow, since they are operations one after the other, and so do whole runs.
-/
import Collate.Proofs.Store.Links
import Collate.Proofs.Store.Ranking

set_option autoImplicit false

namespace Collate

variable {κ ν : Type}

namespace Recency

/-! ## 1. Walking along the list of uses -/

/-- The keys met on at most so many slots, from a slot on towards those used less recently. -/
def keysFrom (r : Recency κ ν) : Nat → Option Nat → List κ
  | 0, _ => []
  | _ + 1, none => []
  | steps + 1, some slot => match r.links[slot]? with
    | none => []
    | some link => link.key :: keysFrom r steps link.older

/-- A walk along linked nodes that has enough steps meets their keys and comes to the end. -/
theorem keysFrom_linked {r : Recency κ ν} {newer : Option Nat} {nodes : List (Nat × κ)}
    (h : Linked r.links newer nodes none) {steps : Nat} (hsteps : nodes.length ≤ steps) :
    r.keysFrom steps (frontSlot none nodes) = nodes.map Prod.snd := by
  induction nodes generalizing newer steps with
  | nil => cases steps <;> rfl
  | cons node rest ih =>
    obtain ⟨steps, rfl⟩ : ∃ n, steps = n + 1 := ⟨steps - 1, by
      rw [List.length_cons] at hsteps
      omega⟩
    show r.keysFrom (steps + 1) (some node.1) = _
    rw [keysFrom, h.1, List.map_cons]
    exact congrArg (node.2 :: ·) (ih h.2 (Nat.le_of_succ_le_succ hsteps))

/-! ## 2. The invariant -/

variable [DecidableEq κ]

/-- The node of a key and what is held of it. -/
def nodeOf (p : κ × Held ν) : Nat × κ := (p.2.slot, p.1)

omit [DecidableEq κ] in
theorem map_nodeOf (uses : List (κ × Held ν)) :
    (uses.map nodeOf).map Prod.fst = uses.map fun p => p.2.slot := by
  rw [List.map_map]
  rfl

/-- The keys are held in this order, the one used last in front. -/
structure Ranks (r : Recency κ ν) (uses : List (κ × Held ν)) : Prop where
  threads : Threads r (uses.map nodeOf)
  keys : (uses.map Prod.fst).Nodup
  entries : ∀ k held, r.entries.get? k = some held ↔ (k, held) ∈ uses
  /-- Every slot is in use or given up, and none is both or twice either. -/
  slots : ((uses.map fun p => p.2.slot) ++ r.free).Perm (List.range r.links.size)

theorem ranks_empty : Ranks (empty : Recency κ ν) [] :=
  ⟨threads_empty, List.nodup_nil, by simp [empty, Entries.get?, Entries.lookupIn, Entries.empty],
    .refl _⟩

variable {r : Recency κ ν} {uses xs ys : List (κ × Held ν)} {key : κ} {held : Held ν}

theorem Ranks.size (h : Ranks r uses) : r.size = uses.length := by
  have hpairs : r.entries.pairs.Perm uses := by
    refine (List.perm_ext_iff_of_nodup ?_ ?_).2 fun p => ?_
    · exact .of_map _ r.entries.distinct
    · exact .of_map _ h.keys
    · rw [Entries.mem_pairs, h.entries]
  exact hpairs.length_eq

theorem Ranks.length_add_free (h : Ranks r uses) : uses.length + r.free.length = r.links.size := by
  have hslots := h.slots.length_eq
  rwa [List.length_append, List.length_map, List.length_range] at hslots

theorem Ranks.slot_lt (h : Ranks r uses) {p : κ × Held ν} (hp : p ∈ uses) :
    p.2.slot < r.links.size :=
  List.mem_range.1 (h.slots.mem_iff.1 (List.mem_append_left _ (List.mem_map_of_mem hp)))

/-- The number of evictions is the store's own affair. -/
theorem Ranks.countEviction (h : Ranks r uses) (n : Nat) : Ranks { r with evictions := n } uses :=
  ⟨⟨h.threads.linked, h.threads.newest, h.threads.oldest, h.threads.distinct⟩, h.keys, h.entries,
    h.slots⟩

theorem Ranks.exists_split (h : Ranks r uses) (hk : r.entries.get? key = some held) :
    ∃ xs ys, uses = xs ++ (key, held) :: ys :=
  List.append_of_mem ((h.entries key held).1 hk)

theorem Ranks.not_mem (h : Ranks r uses) (hk : r.entries.get? key = none) :
    key ∉ uses.map Prod.fst := by
  intro hm
  obtain ⟨⟨k, held⟩, hp, rfl⟩ := List.mem_map.1 hm
  rw [(h.entries k held).2 hp] at hk
  cases hk

/-- The keys around one of them. -/
theorem Ranks.others (h : Ranks r (xs ++ (key, held) :: ys)) :
    key ∉ (xs ++ ys).map Prod.fst ∧ ((xs ++ ys).map Prod.fst).Nodup := by
  have hkeys := h.keys
  rw [List.map_append, List.map_cons, List.nodup_middle, List.nodup_cons] at hkeys
  rw [List.map_append]
  exact hkeys

/-- The map may be changed before the slot of one of its keys is threaded anew. -/
theorem Ranks.threads_entries (h : Ranks r (xs ++ (key, held) :: ys))
    (entries : Entries κ (Held ν)) : Threads { r with entries := entries }
      (xs.map nodeOf ++ nodeOf (key, held) :: ys.map nodeOf) := by
  have ht := h.threads
  rw [List.map_append, List.map_cons] at ht
  exact ⟨ht.linked, ht.newest, ht.oldest, ht.distinct⟩

/-! ## 3. Operations -/

/-- The slot of a key is used again, for the same value or another one. -/
theorem Ranks.promote (h : Ranks r (xs ++ (key, held) :: ys)) {entries : Entries κ (Held ν)}
    {value : ν}
    (he : ∀ k, entries.get? k
      = if key = k then some { held with value := value } else r.entries.get? k) :
    Ranks ({ r with entries := entries }.promote held.slot)
      ((key, { held with value := value }) :: (xs ++ ys)) := by
  obtain ⟨hnot, hkeys⟩ := h.others
  obtain ⟨hentries, hsize, hfree, _⟩ := sameRoom_promote { r with entries := entries } held.slot
  refine ⟨?_, List.nodup_cons.2 ⟨hnot, hkeys⟩, fun k other => ?_, ?_⟩
  · rw [List.map_cons, List.map_append]
    exact (h.threads_entries entries).promote
  · rw [hentries, he, List.mem_cons]
    by_cases hk : key = k
    · subst hk
      rw [if_pos rfl]
      have hout : (key, other) ∉ xs ++ ys := fun hm => hnot (List.mem_map_of_mem hm)
      simp [hout, eq_comm]
    · rw [if_neg hk, h.entries]
      simp [Ne.symm hk]
  · rw [hsize, hfree]
    refine List.Perm.trans ?_ h.slots
    rw [List.map_cons, List.map_append, List.map_append, List.map_cons]
    exact (List.perm_middle.symm).append_right _

theorem Ranks.get (h : Ranks r (xs ++ (key, held) :: ys)) :
    r.get key = (some held.value, r.promote held.slot)
      ∧ Ranks (r.promote held.slot) ((key, held) :: (xs ++ ys)) := by
  have hk : r.entries.get? key = some held := (h.entries key held).2 (by simp)
  have hsame : ∀ k, r.entries.get? k
      = if key = k then some { held with value := held.value } else r.entries.get? k := by
    intro k
    by_cases he : key = k
    · rw [if_pos he, ← he, hk]
    · rw [if_neg he]
  exact ⟨by rw [Recency.get, hk], h.promote hsame⟩

theorem Ranks.insert_held (h : Ranks r (xs ++ (key, held) :: ys)) (value : ν) :
    Ranks (r.insert key value) ((key, { held with value := value }) :: (xs ++ ys)) := by
  have hk : r.entries.get? key = some held := (h.entries key held).2 (by simp)
  have hinsert : r.insert key value
      = { r with entries := r.entries.insert key { held with value := value } }.promote
        held.slot := by
    rw [Recency.insert, hk]
  rw [hinsert]
  exact h.promote fun k => Entries.get?_insert ..

omit [DecidableEq κ] in
/-- A slot for a new key is one that was given up, or a new one. Either way it is nobody's, and it
holds the key. -/
theorem allocate_cases (r : Recency κ ν) (key : κ) :
    (∃ slot rest, r.free = slot :: rest ∧ r.allocate key
        = (slot, { r with free := rest, links := r.links.modify slot fun _ => ⟨key, none, none⟩ }))
    ∨ r.free = [] ∧ r.allocate key
        = (r.links.size, { r with links := r.links.push ⟨key, none, none⟩ }) := by
  unfold allocate
  cases r.free with
  | nil => exact Or.inr ⟨rfl, rfl⟩
  | cons slot rest => exact Or.inl ⟨slot, rest, rfl, rfl⟩

/-- A new key has a slot, which is threaded in front. -/
theorem Ranks.allocate (h : Ranks r uses) (key : κ) :
    ∃ slot r', r.allocate key = (slot, r') ∧ r'.entries = r.entries
      ∧ Threads (r'.pushFront slot) ((slot, key) :: uses.map nodeOf)
      ∧ (slot :: ((uses.map fun p => p.2.slot) ++ r'.free)).Perm (List.range r'.links.size)
      ∧ r'.evictions = r.evictions := by
  -- In both cases the slot is none of those in use, so their links are what they were.
  have hthread : ∀ (r' : Recency κ ν) slot, slot ∉ (uses.map nodeOf).map Prod.fst →
      (∀ other, slot ≠ other → other < r.links.size → r'.links[other]? = r.links[other]?) →
      r'.links[slot]? = some ⟨key, none, none⟩ → r'.newest = r.newest → r'.oldest = r.oldest →
      Threads (r'.pushFront slot) ((slot, key) :: uses.map nodeOf) := by
    intro r' slot hslot hlinks hlink hnewest holdest
    have hold : Threads r' (uses.map nodeOf) := by
      refine ⟨h.threads.linked.frame fun node hn => hlinks _ ?_ ?_,
        hnewest.trans h.threads.newest, holdest.trans h.threads.oldest, h.threads.distinct⟩
      · exact fun he => hslot (he ▸ List.mem_map_of_mem hn)
      · obtain ⟨p, hp, rfl⟩ := List.mem_map.1 hn
        exact h.slot_lt hp
    exact hold.pushFront hlink hslot
  rcases allocate_cases r key with ⟨slot, rest, hfree, hallocate⟩ | ⟨hfree, hallocate⟩
  · have hslots := h.slots
    rw [hfree] at hslots
    have hperm : (slot :: ((uses.map fun p => p.2.slot) ++ rest)).Perm
        (List.range r.links.size) := List.perm_middle.symm.trans hslots
    have hlt : slot < r.links.size :=
      List.mem_range.1 (hperm.mem_iff.1 (List.mem_cons_self ..))
    have hnot : slot ∉ uses.map fun p => p.2.slot := fun hm =>
      (List.nodup_cons.1 (hperm.nodup_iff.2 List.nodup_range)).1 (List.mem_append_left _ hm)
    refine ⟨slot, _, hallocate, rfl, hthread _ slot (map_nodeOf uses ▸ hnot) ?_ ?_ rfl rfl, ?_, rfl⟩
    · exact fun other hne _ => (Array.getElem?_modify ..).trans (if_neg hne)
    · refine (Array.getElem?_modify ..).trans ?_
      rw [if_pos rfl, Array.getElem?_eq_getElem hlt]
      rfl
    · rw [Array.size_modify]
      exact hperm
  · have hslots := h.slots
    rw [hfree] at hslots
    have hnot : r.links.size ∉ uses.map fun p => p.2.slot := by
      intro hm
      obtain ⟨p, hp, hslot⟩ := List.mem_map.1 hm
      exact absurd (h.slot_lt hp) (by omega)
    refine ⟨r.links.size, _, hallocate, rfl, hthread _ r.links.size (map_nodeOf uses ▸ hnot) ?_ ?_ rfl rfl,
      ?_, rfl⟩
    · exact fun other _ hlt =>
        (Array.getElem?_push_lt hlt).trans (Array.getElem?_eq_getElem hlt).symm
    · exact Array.getElem?_push_size
    · rw [Array.size_push, List.range_succ, hfree]
      exact (hslots.cons _).trans (List.perm_append_singleton _ _).symm

theorem Ranks.insert_new (h : Ranks r uses) (hk : r.entries.get? key = none) (value : ν) :
    ∃ slot, Ranks (r.insert key value) ((key, ⟨value, slot⟩) :: uses)
      ∧ (r.insert key value).evictions = r.evictions := by
  obtain ⟨slot, r', hallocate, hentries, hthreads, hslots, hevictions⟩ := h.allocate key
  obtain ⟨hentries', hsize, hfree, hevictions'⟩ := sameRoom_pushFront r' slot
  have hinsert : r.insert key value = { r'.pushFront slot with
      entries := r.entries.insert key ⟨value, slot⟩ } := by
    rw [Recency.insert, hk]
    simp only [hallocate, hentries', hentries]
  refine ⟨slot, ?_, by rw [hinsert]; exact hevictions'.trans hevictions⟩
  rw [hinsert]
  refine ⟨⟨hthreads.linked, hthreads.newest, hthreads.oldest, hthreads.distinct⟩,
    List.nodup_cons.2 ⟨h.not_mem hk, h.keys⟩, fun k other => ?_, ?_⟩
  · show (r.entries.insert key ⟨value, slot⟩).get? k = some other ↔ _
    rw [Entries.get?_insert, List.mem_cons]
    by_cases he : key = k
    · subst he
      have hout : (key, other) ∉ uses := fun hm => h.not_mem hk (List.mem_map_of_mem hm)
      simp [hout, eq_comm]
    · rw [if_neg he, h.entries]
      simp [Ne.symm he]
  · show (slot :: (uses.map fun p => p.2.slot) ++ (r'.pushFront slot).free).Perm _
    rw [hfree, hsize]
    exact hslots

theorem Ranks.forget_held (h : Ranks r (xs ++ (key, held) :: ys)) :
    (r.forget key).1 = true ∧ Ranks (r.forget key).2 (xs ++ ys)
      ∧ (r.forget key).2.evictions = r.evictions := by
  obtain ⟨hnot, hkeys⟩ := h.others
  have hk : r.entries.get? key = some held := (h.entries key held).2 (by simp)
  obtain ⟨ht, _⟩ := (h.threads_entries (r.entries.erase key)).detach
  obtain ⟨hentries, hsize, hfree, hevictions⟩ :=
    sameRoom_detach { r with entries := r.entries.erase key } held.slot
  have hforget : r.forget key = (true, { Recency.detach { r with entries := r.entries.erase key }
      held.slot with free := held.slot :: r.free }) := by
    rw [Recency.forget, hk]
    simp only [hfree]
  rw [hforget]
  refine ⟨rfl, ⟨?_, hkeys, fun k other => ?_, ?_⟩, hevictions⟩
  · rw [List.map_append]
    exact ⟨ht.linked, ht.newest, ht.oldest, ht.distinct⟩
  · show (Recency.detach { r with entries := r.entries.erase key } held.slot).entries.get? k
      = some other ↔ _
    rw [hentries, Entries.get?_erase]
    by_cases he : key = k
    · subst he
      have hout : (key, other) ∉ xs ++ ys := fun hm => hnot (List.mem_map_of_mem hm)
      rw [if_pos rfl]
      simp only [reduceCtorEq, hout]
    · rw [if_neg he, h.entries]
      simp [Ne.symm he]
  · show (((xs ++ ys).map fun p => p.2.slot) ++ held.slot :: r.free).Perm
      (List.range (Recency.detach { r with entries := r.entries.erase key } held.slot).links.size)
    rw [hsize]
    refine List.Perm.trans ?_ h.slots
    rw [List.map_append, List.map_append, List.map_cons]
    refine List.perm_middle.trans ?_
    rw [← List.cons_append]
    exact (List.perm_middle.symm).append_right _

/-- Whoever is used least is at the end of the list of uses. -/
theorem Ranks.oldest (h : Ranks r (xs ++ [(key, held)])) :
    r.oldest = some held.slot ∧ ∃ link, r.links[held.slot]? = some link ∧ link.key = key := by
  have hmem : nodeOf (key, held) ∈ (xs ++ [(key, held)]).map nodeOf :=
    List.mem_map_of_mem (by simp)
  refine ⟨?_, h.threads.linked.exists_link hmem⟩
  rw [h.threads.oldest, List.map_append, List.map_singleton, backSlot_concat]
  rfl

/-- Forgets a key and counts it as evicted. -/
def evictKey (r : Recency κ ν) (key : κ) : Recency κ ν :=
  { (r.forget key).2 with evictions := (r.forget key).2.evictions + 1 }

/-- **A round of eviction** takes out whoever is used least. -/
theorem Ranks.evictOne (h : Ranks r (xs ++ [(key, held)])) {capacity : Nat}
    (hmore : capacity < r.size) :
    r.evictOne capacity = some (r.evictKey key) ∧ Ranks (r.evictKey key) xs
      ∧ (r.evictKey key).evictions = r.evictions + 1 := by
  obtain ⟨holdest, link, hlink, hkey⟩ := h.oldest
  obtain ⟨_, hranks, hsame⟩ := h.forget_held
  rw [List.append_nil] at hranks
  refine ⟨?_, hranks.countEviction _, congrArg (· + 1) hsame⟩
  rw [Recency.evictOne, if_pos hmore, holdest, Option.bind_some, hlink]
  simp only [hkey, evictKey]

/-- Enough rounds of eviction leave those used last. -/
theorem Ranks.evictRounds (h : Ranks r uses) {capacity rounds : Nat}
    (hrounds : uses.length ≤ rounds + capacity) :
    Ranks (evictRounds capacity rounds r) (uses.take capacity)
      ∧ (evictRounds capacity rounds r).evictions = r.evictions + (uses.length - capacity) := by
  induction rounds generalizing r uses with
  | zero =>
    rw [Nat.zero_add] at hrounds
    rw [List.take_of_length_le hrounds, Nat.sub_eq_zero_of_le hrounds]
    exact ⟨h, rfl⟩
  | succ rounds ih =>
    have hsize := h.size
    by_cases hmore : capacity < r.size
    · rcases List.eq_nil_or_concat uses with rfl | ⟨init, ⟨key, held⟩, rfl⟩
      · rw [hsize] at hmore
        exact absurd hmore (Nat.not_lt_zero _)
      · rw [List.concat_eq_append] at h hsize hrounds ⊢
        rw [List.length_append, List.length_singleton] at hsize hrounds
        obtain ⟨hone, hranks, hcount⟩ := h.evictOne hmore
        obtain ⟨hlast, hevictions⟩ := ih hranks (by omega)
        rw [Recency.evictRounds, hone, List.take_append_of_le_length (by omega), List.length_append,
          List.length_singleton]
        refine ⟨hlast, hevictions.trans ?_⟩
        omega
    · have hone : r.evictOne capacity = none := by rw [Recency.evictOne, if_neg hmore]
      rw [Recency.evictRounds, hone, List.take_of_length_le (by omega),
        Nat.sub_eq_zero_of_le (by omega)]
      exact ⟨h, rfl⟩

/-! ## 4. Following a ranking -/

/-- The list of uses is that of a ranking, with the same values and the same number of evictions. -/
structure Follows (r : Recency κ ν) (ranking : Ranking κ ν) : Prop where
  ranked : ∃ uses, Ranks r uses
    ∧ uses.map (fun p => (p.1, p.2.value)) = ranking.entries.pairs
  evictions : r.evictions = ranking.evictions

variable {ranking : Ranking κ ν}

theorem follows_empty : Follows (empty : Recency κ ν) {} := ⟨⟨[], ranks_empty, rfl⟩, rfl⟩

/-- Both hold the same keys with the same values. -/
theorem Follows.get?_contents (h : Follows r ranking) (k : κ) :
    r.contents.get? k = ranking.entries.get? k := by
  obtain ⟨uses, hranks, hpairs⟩ := h.ranked
  refine Option.ext fun v => ?_
  rw [Recency.get?_contents, Option.map_eq_some_iff, ← Entries.mem_pairs, ← hpairs, List.mem_map]
  constructor
  · rintro ⟨held, hk, rfl⟩
    exact ⟨(k, held), (hranks.entries k held).1 hk, rfl⟩
  · rintro ⟨⟨k', held⟩, hm, he⟩
    obtain ⟨rfl, rfl⟩ := Prod.mk.inj he
    exact ⟨held, (hranks.entries k' held).2 hm, rfl⟩

theorem Follows.size (h : Follows r ranking) : r.size = ranking.entries.size := by
  obtain ⟨uses, hranks, hpairs⟩ := h.ranked
  rw [hranks.size, Entries.size, ← hpairs, List.length_map]

/-- Leaving out a key that is held. -/
theorem dropIn_values (h : Ranks r (xs ++ (key, held) :: ys)) :
    Entries.dropIn key ((xs ++ (key, held) :: ys).map fun p => (p.1, p.2.value))
      = (xs ++ ys).map fun p => (p.1, p.2.value) := by
  rw [List.map_append, List.map_cons, List.map_append]
  refine Entries.dropIn_middle ?_
  have hkeys := h.keys
  rw [List.map_append, List.map_cons] at hkeys
  rw [List.map_append, List.map_cons, List.map_map, List.map_map]
  exact hkeys

/-- **Looking a key up.** -/
theorem Follows.get (h : Follows r ranking) (key : κ) :
    (r.get key).1 = ranking.entries.get? key ∧ Follows (r.get key).2 (ranking.touch key) := by
  refine ⟨(get_fst r key).trans (h.get?_contents key), ?_⟩
  have hvalue := h.get?_contents key
  rw [Recency.get?_contents] at hvalue
  obtain ⟨⟨uses, hranks, hpairs⟩, hevictions⟩ := h
  cases hk : r.entries.get? key with
  | none =>
    rw [hk] at hvalue
    rw [Recency.get, hk, Ranking.touch, ← hvalue]
    exact ⟨⟨uses, hranks, hpairs⟩, hevictions⟩
  | some held =>
    rw [hk] at hvalue
    obtain ⟨xs, ys, rfl⟩ := hranks.exists_split hk
    obtain ⟨hget, hranks'⟩ := hranks.get
    rw [hget, Ranking.touch, ← hvalue]
    refine ⟨⟨_, hranks', ?_⟩, (sameRoom_promote r held.slot).evictions.trans hevictions⟩
    show _ = (key, held.value) :: Entries.dropIn key ranking.entries.pairs
    rw [← hpairs, dropIn_values hranks, List.map_cons]

/-- **Inserting a key.** -/
theorem Follows.insert (h : Follows r ranking) (key : κ) (value : ν) :
    Follows (r.insert key value) (ranking.use key value) := by
  obtain ⟨⟨uses, hranks, hpairs⟩, hevictions⟩ := h
  cases hk : r.entries.get? key with
  | none =>
    obtain ⟨slot, hranks', hsame⟩ := hranks.insert_new hk value
    refine ⟨⟨_, hranks', ?_⟩, hsame.trans hevictions⟩
    have hnot : key ∉ (uses.map fun p => (p.1, p.2.value)).map Prod.fst := by
      rw [List.map_map]
      exact hranks.not_mem hk
    show _ = (key, value) :: Entries.dropIn key ranking.entries.pairs
    rw [← hpairs, Entries.dropIn_of_not_mem hnot, List.map_cons]
  | some held =>
    obtain ⟨xs, ys, rfl⟩ := hranks.exists_split hk
    refine ⟨⟨_, hranks.insert_held value, ?_⟩, ?_⟩
    · show _ = (key, value) :: Entries.dropIn key ranking.entries.pairs
      rw [← hpairs, dropIn_values hranks, List.map_cons]
    · rw [Recency.insert, hk]
      exact (sameRoom_promote _ held.slot).evictions.trans hevictions

/-- **Forgetting a key**: it is said whether the key was there. -/
theorem Follows.forget (h : Follows r ranking) (key : κ) :
    Follows (r.forget key).2 (ranking.forget key)
    ∧ (ranking.forget key).entries.size + (if (r.forget key).1 then 1 else 0)
      = ranking.entries.size := by
  obtain ⟨⟨uses, hranks, hpairs⟩, hevictions⟩ := h
  have hdrop : (ranking.forget key).entries.pairs
      = Entries.dropIn key (uses.map fun p => (p.1, p.2.value)) := by
    rw [hpairs]
    rfl
  cases hk : r.entries.get? key with
  | none =>
    have hnot : key ∉ (uses.map fun p => (p.1, p.2.value)).map Prod.fst := by
      rw [List.map_map]
      exact hranks.not_mem hk
    rw [Entries.dropIn_of_not_mem hnot] at hdrop
    rw [Recency.forget, hk]
    refine ⟨⟨⟨uses, hranks, hdrop.symm⟩, hevictions⟩, ?_⟩
    rw [Entries.size, hdrop, hpairs]
    rfl
  | some held =>
    obtain ⟨xs, ys, rfl⟩ := hranks.exists_split hk
    obtain ⟨hthere, hranks', hsame⟩ := hranks.forget_held
    rw [dropIn_values hranks] at hdrop
    refine ⟨⟨⟨_, hranks', hdrop.symm⟩, hsame.trans hevictions⟩, ?_⟩
    rw [hthere, Entries.size, Entries.size, hdrop, ← hpairs]
    simp only [List.length_map, List.length_append, List.length_cons, if_true]
    omega

/-- **Evicting** those used longest ago. -/
theorem Follows.evict (h : Follows r ranking) (capacity : Nat) :
    Follows (r.evict capacity) (ranking.cut capacity) := by
  obtain ⟨⟨uses, hranks, hpairs⟩, hevictions⟩ := h
  have hsize : ranking.entries.size = uses.length := by
    rw [Entries.size, ← hpairs, List.length_map]
  have hrounds : uses.length ≤ r.size + capacity := by
    rw [hranks.size]
    exact Nat.le_add_right ..
  obtain ⟨hlast, hcount⟩ := hranks.evictRounds hrounds
  refine ⟨⟨_, hlast, ?_⟩, hcount.trans ?_⟩
  · rw [List.map_take, hpairs]
    rfl
  · rw [hevictions, ← hsize]
    rfl

/-! ## 5. Whole calls -/

/-- Looks one key up in a map and keeps what is found. -/
def gather (entries found : Entries κ ν) (key : κ) : Entries κ ν :=
  match entries.get? key with
  | some v => found.insert key v
  | none => found

theorem restrict_eq_foldl (entries : Entries κ ν) (keys : List κ) :
    entries.restrict keys = keys.foldl (gather entries) .empty := rfl

/-- Keys that are looked up are found as they are in a map that holds the same: looking some of them
up changes nothing about the others. -/
theorem Follows.getAll (h : Follows r ranking) (keys : List κ) :
    (r.getAll keys).1 = ranking.entries.restrict keys
      ∧ Follows (r.getAll keys).2 (keys.foldl Ranking.touch ranking) := by
  rw [getAll_eq_foldl, restrict_eq_foldl]
  suffices hall : ∀ entries found : Entries κ ν,
      (∀ k, ranking.entries.get? k = entries.get? k) →
      (keys.foldl find (found, r)).1 = keys.foldl (gather entries) found
      ∧ Follows (keys.foldl find (found, r)).2 (keys.foldl Ranking.touch ranking) from
    hall ranking.entries .empty fun _ => rfl
  induction keys generalizing r ranking with
  | nil => exact fun entries found _ => ⟨rfl, h⟩
  | cons key rest ih =>
    intro entries found hsame
    obtain ⟨hvalue, hnext⟩ := h.get key
    have hfind : find (found, r) key = (gather entries found key, (r.get key).2) := by
      rw [gather, ← hsame, ← hvalue, find]
      cases r.get key with
      | mk value r' => cases value <;> rfl
    rw [List.foldl_cons, List.foldl_cons, List.foldl_cons, hfind]
    exact ih hnext entries _ fun k => (Ranking.get?_touch ranking key k).trans (hsame k)

theorem Follows.insertAll (h : Follows r ranking) (batch : List (κ × ν)) :
    Follows (r.insertAll batch) (ranking.useAll batch) := by
  induction batch generalizing r ranking with
  | nil => exact h
  | cons p rest ih => exact ih (h.insert p.1 p.2)

/-- Forgets a key, and counts it if it was there. -/
def forgetNext (counted : Nat × Recency κ ν) (key : κ) : Nat × Recency κ ν :=
  match counted.2.forget key with
  | (true, r) => (counted.1 + 1, r)
  | (false, r) => (counted.1, r)

theorem forgetAll_eq_foldl (r : Recency κ ν) (keys : List κ) :
    r.forgetAll keys = keys.foldl forgetNext (0, r) := rfl

/-- Keys that are taken out are counted once each. -/
theorem Follows.forgetAll (h : Follows r ranking) (keys : List κ) :
    Follows (r.forgetAll keys).2 (ranking.forgetAll keys)
    ∧ (r.forgetAll keys).1 = ranking.entries.size - (ranking.forgetAll keys).entries.size := by
  rw [forgetAll_eq_foldl]
  suffices hall : ∀ n, Follows (keys.foldl forgetNext (n, r)).2 (ranking.forgetAll keys)
      ∧ (keys.foldl forgetNext (n, r)).1 + (ranking.forgetAll keys).entries.size
        = n + ranking.entries.size by
    obtain ⟨hfollows, hcount⟩ := hall 0
    refine ⟨hfollows, ?_⟩
    rw [Nat.zero_add] at hcount
    exact Nat.eq_sub_of_add_eq hcount
  induction keys generalizing r ranking with
  | nil => exact fun n => ⟨h, rfl⟩
  | cons key rest ih =>
    intro n
    obtain ⟨hnext, hcount⟩ := h.forget key
    have hrest : ranking.forgetAll (key :: rest) = (ranking.forget key).forgetAll rest := rfl
    rw [hrest, List.foldl_cons, forgetNext]
    dsimp only
    rcases hforget : r.forget key with ⟨there, r'⟩
    rw [hforget] at hnext hcount
    cases there with
    | false =>
      obtain ⟨hfollows, hsum⟩ := ih hnext n
      refine ⟨hfollows, hsum.trans ?_⟩
      simp only [Bool.false_eq_true, if_false] at hcount
      omega
    | true =>
      obtain ⟨hfollows, hsum⟩ := ih hnext (n + 1)
      refine ⟨hfollows, hsum.trans ?_⟩
      simp only [if_true] at hcount
      omega

end Recency

namespace Shelf

variable [DecidableEq κ]

/-- **Every call of a bounded shelf is one of its ranking**: it answers the same and leaves the same
behind. -/
theorem serve_ranking {r : Recency κ ν} {ranking : Ranking κ ν} (h : r.Follows ranking)
    (capacity : Nat) (request : BatchRequest κ ν) :
    ∃ r', (bounded capacity r).serve request
        = ((ranking.serve capacity request).1, bounded capacity r')
      ∧ r'.Follows (ranking.serve capacity request).2 := by
  cases request with
  | get keys =>
    obtain ⟨hfound, hnext⟩ := h.getAll keys
    exact ⟨_, by simp only [Shelf.serve, Shelf.get, Ranking.serve, hfound], hnext⟩
  | put batch => exact ⟨_, rfl, (h.insertAll batch).evict capacity⟩
  | remove keys =>
    obtain ⟨hnext, hcount⟩ := h.forgetAll keys
    exact ⟨_, by simp only [Shelf.serve, Shelf.remove, Ranking.serve, hcount], hnext⟩
  | update batch removals =>
    obtain ⟨hnext, _⟩ := h.forgetAll removals
    exact ⟨_, rfl, (hnext.insertAll batch).evict capacity⟩

theorem serveAll_ranking {r : Recency κ ν} {ranking : Ranking κ ν} (h : r.Follows ranking)
    (capacity : Nat) (requests : List (BatchRequest κ ν)) :
    ∃ r', serveAll serve (bounded capacity r) requests
        = ((serveAll (Ranking.serve capacity) ranking requests).1, bounded capacity r')
      ∧ r'.Follows (serveAll (Ranking.serve capacity) ranking requests).2 := by
  induction requests generalizing r ranking with
  | nil => exact ⟨r, rfl, h⟩
  | cons request rest ih =>
    obtain ⟨r₁, hserve, hnext⟩ := serve_ranking h capacity request
    obtain ⟨r₂, hrest, hlast⟩ := ih hnext
    refine ⟨r₂, ?_, hlast⟩
    simp only [serveAll, hserve, hrest]

/-- **A bounded store is a ranking of its keys.** Whatever calls are made on a store that began empty,
with keys and batches of any kind, walked in any order, it answers what the ranking of `capacity`
keys, but of one at least, answers. Afterwards a walk along the list of uses that has as many steps
as there are slots, or more, meets the ranked keys in their order and then comes to the end; the map
has the ranked values for them and no other keys; and as many keys were evicted as were cut off. -/
theorem bounded_store_ranks (capacity : Nat) (requests : List (BatchRequest κ ν)) :
    let ranked := serveAll (Ranking.serve (max capacity 1)) ({} : Ranking κ ν) requests
    ∃ r, serveAll serve (freshBounded capacity) requests = (ranked.1, bounded (max capacity 1) r)
      ∧ (∀ steps, r.links.size ≤ steps →
          (r.keysFrom steps r.newest).map (fun k => (k, r.contents.get? k))
            = ranked.2.entries.pairs.map fun p => (p.1, some p.2))
      ∧ r.size = ranked.2.entries.size ∧ r.evictions = ranked.2.evictions := by
  intro ranked
  obtain ⟨r, hserve, hfollows⟩ :=
    serveAll_ranking Recency.follows_empty (max capacity 1) requests
  refine ⟨r, hserve, fun steps hsteps => ?_, hfollows.size, hfollows.evictions⟩
  obtain ⟨uses, hranks, hpairs⟩ := hfollows.ranked
  have hlength : (uses.map Recency.nodeOf).length ≤ steps := by
    have hslots := hranks.slots.length_eq
    rw [List.length_append, List.length_map, List.length_range] at hslots
    rw [List.length_map]
    omega
  rw [hranks.threads.newest, Recency.keysFrom_linked hranks.threads.linked hlength, ← hpairs,
    List.map_map, List.map_map, List.map_map]
  refine List.map_congr_left fun p hp => ?_
  have hvalue : r.contents.get? p.1 = some p.2.value := by
    rw [Recency.get?_contents, (hranks.entries p.1 p.2).2 hp]
    rfl
  exact congrArg (p.1, ·) hvalue

end Shelf

end Collate
