/-
The slots behind the list of uses.

Seen from its slots, a list of uses is two chains of neighbours over the same slots, one the other
way round, and a stack of slots to be used again; the map points into the chains, and the two parts
are all the slots there are (`Intact`). It stays so whatever operations are made. Hence no operation
ever meets a slot that does not exist: the operations are written once more so that such a meeting
ends them (`Checked`), and they never end that way. A slot is made only when none is left to be used
again, and a call evicts before the next one begins, so the slots are no more than the keys a store
has room for and those of one batch.
-/
import Mathlib.Data.List.Induction
import Mathlib.Order.Basic
import Collate.Proofs.Store.Operations

set_option autoImplicit false

namespace Collate

variable {κ ν : Type}

/-! ## 1. Trails -/

/-- The slots met from a slot on, going from neighbour to neighbour until there is none. -/
inductive Trail (links : Array (Link κ)) (next : Link κ → Option Nat) :
    Option Nat → List Nat → Prop where
  | done : Trail links next none []
  | step {slot : Nat} {link : Link κ} {rest : List Nat} (hlink : links[slot]? = some link)
      (hrest : Trail links next (next link) rest) : Trail links next (some slot) (slot :: rest)

variable {links : Array (Link κ)} {newer older : Option Nat} {nodes : List (Nat × κ)}

theorem Linked.trail_older (h : Linked links newer nodes none) :
    Trail links Link.older (frontSlot none nodes) (nodes.map Prod.fst) := by
  induction nodes generalizing newer with
  | nil => exact .done
  | cons node rest ih => exact .step h.1 (ih h.2)

theorem Linked.trail_newer (h : Linked links none nodes older) :
    Trail links Link.newer (backSlot none nodes) (nodes.map Prod.fst).reverse := by
  induction nodes using List.reverseRecOn generalizing older with
  | nil => exact .done
  | append_singleton init node ih =>
    obtain ⟨hinit, hlink, _⟩ := linked_append.1 h
    rw [backSlot_concat, List.map_append, List.reverse_append]
    exact .step hlink (ih hinit)

namespace Recency

variable {r : Recency κ ν}

/-! ## 2. The whole slab -/

section Intact

variable [DecidableEq κ] {uses : List (κ × Held ν)}

/-- The slab of a list of uses is in order, with these slots in use. -/
structure Intact (r : Recency κ ν) (slots : List Nat) : Prop where
  /-- They are met from the most recently used one on, -/
  older : Trail r.links Link.older r.newest slots
  /-- and the other way round from the least recently used one on. -/
  newer : Trail r.links Link.newer r.oldest slots.reverse
  /-- No slot is met twice. -/
  distinct : slots.Nodup
  /-- They are the slots of the keys held. -/
  used : ∀ slot, slot ∈ slots ↔ ∃ key held, r.entries.get? key = some held ∧ held.slot = slot
  /-- The slot of a key holds that key. -/
  keyed : ∀ key held, r.entries.get? key = some held →
    ∃ link, r.links[held.slot]? = some link ∧ link.key = key
  /-- Two keys have two slots. -/
  apart : ∀ key key' held held', r.entries.get? key = some held →
    r.entries.get? key' = some held' → held.slot = held'.slot → key = key'
  /-- No slot is given up twice. -/
  free_distinct : r.free.Nodup
  /-- No slot that was given up is in use. -/
  free_unused : ∀ slot ∈ r.free, slot ∉ slots
  /-- There are no other slots. -/
  covered : ∀ slot, slot < r.links.size ↔ slot ∈ slots ∨ slot ∈ r.free
  /-- The list of uses has both ends or neither, -/
  ends : r.newest = none ↔ r.oldest = none
  /-- and it has them unless nothing is held. -/
  hollow : r.oldest = none ↔ r.size = 0

theorem Ranks.ends_eq_none (h : Ranks r uses) :
    (r.newest = none ↔ uses = []) ∧ (r.oldest = none ↔ uses = []) := by
  rw [h.threads.newest, h.threads.oldest]
  rcases List.eq_nil_or_concat uses with rfl | ⟨init, last, rfl⟩
  · exact ⟨by simp [frontSlot], by simp [backSlot]⟩
  · rw [List.concat_eq_append, List.map_append, List.map_singleton, backSlot_concat]
    cases init <;> simp [frontSlot]

/-- **The invariant of the slots**, said of the slab. -/
theorem Ranks.intact (h : Ranks r uses) : r.Intact (uses.map fun p => p.2.slot) := by
  have hparts := List.nodup_append.1 (h.slots.nodup_iff.2 List.nodup_range)
  have hkeyed : ∀ key held, r.entries.get? key = some held →
      ∃ link, r.links[held.slot]? = some link ∧ link.key = key := fun key held hk =>
    h.threads.linked.exists_link (List.mem_map_of_mem ((h.entries key held).1 hk))
  refine {
    older := ?_
    newer := ?_
    distinct := hparts.1
    used := fun slot => ?_
    keyed := hkeyed
    apart := fun key key' held held' hk hk' hslot => ?_
    free_distinct := hparts.2.1
    free_unused := fun slot hfree hused => hparts.2.2 slot hused slot hfree rfl
    covered := fun slot => ?_
    ends := h.ends_eq_none.1.trans h.ends_eq_none.2.symm
    hollow := ?_ }
  · rw [h.threads.newest, ← map_nodeOf]
    exact h.threads.linked.trail_older
  · rw [h.threads.oldest, ← map_nodeOf]
    exact h.threads.linked.trail_newer
  · simp only [List.mem_map, h.entries, Prod.exists]
  · obtain ⟨link, hlink, rfl⟩ := hkeyed key held hk
    obtain ⟨link', hlink', rfl⟩ := hkeyed key' held' hk'
    rw [hslot, hlink'] at hlink
    rw [Option.some.inj hlink]
  · rw [← List.mem_append, h.slots.mem_iff, List.mem_range]
  · rw [h.ends_eq_none.2, h.size, List.length_eq_zero_iff]

end Intact

/-! ## 3. Operations that check their slots -/

namespace Checked

/-- Changes the node of a slot, which has to exist. -/
def setLink (r : Recency κ ν) (slot : Nat) (f : Link κ → Link κ) : Option (Recency κ ν) :=
  if slot < r.links.size then some (r.setLink slot f) else none

def joinOlder (r : Recency κ ν) (newer older : Option Nat) : Option (Recency κ ν) :=
  match newer with
  | none => some { r with newest := older }
  | some slot => setLink r slot fun l => { l with older := older }

def joinNewer (r : Recency κ ν) (newer older : Option Nat) : Option (Recency κ ν) :=
  match older with
  | none => some { r with oldest := newer }
  | some slot => setLink r slot fun l => { l with newer := newer }

/-- Takes a slot out; it has to exist, and so have its neighbours. -/
def detach (r : Recency κ ν) (slot : Nat) : Option (Recency κ ν) := do
  let link ← r.links[slot]?
  let r ← joinOlder r link.newer link.older
  let r ← joinNewer r link.newer link.older
  setLink r slot fun l => { l with newer := none, older := none }

/-- Puts a slot in front; it has to exist, and so has the one that was in front. -/
def pushFront (r : Recency κ ν) (slot : Nat) : Option (Recency κ ν) := do
  let before := r.newest
  let r ← setLink r slot fun l => { l with newer := none, older := before }
  let r ← match before with
    | none => some r
    | some next => setLink r next fun l => { l with newer := some slot }
  some { r with newest := some slot, oldest := r.oldest.or (some slot) }

def promote (r : Recency κ ν) (slot : Nat) : Option (Recency κ ν) := do
  let r ← detach r slot
  pushFront r slot

/-- A slot for a new key. One that was given up has to exist. -/
def allocate (r : Recency κ ν) (key : κ) : Option (Nat × Recency κ ν) :=
  match r.free with
  | slot :: rest => do
    let r ← setLink { r with free := rest } slot fun _ => ⟨key, none, none⟩
    some (slot, r)
  | [] => some (r.links.size, { r with links := r.links.push ⟨key, none, none⟩ })

variable [DecidableEq κ]

def get (r : Recency κ ν) (key : κ) : Option (Option ν × Recency κ ν) :=
  match r.entries.get? key with
  | none => some (none, r)
  | some held => do
    let r ← promote r held.slot
    some (some held.value, r)

def insert (r : Recency κ ν) (key : κ) (value : ν) : Option (Recency κ ν) :=
  match r.entries.get? key with
  | some held =>
    promote { r with entries := r.entries.insert key { held with value := value } } held.slot
  | none => do
    let (slot, r) ← allocate r key
    let r ← pushFront r slot
    some { r with entries := r.entries.insert key ⟨value, slot⟩ }

def forget (r : Recency κ ν) (key : κ) : Option (Bool × Recency κ ν) :=
  match r.entries.get? key with
  | none => some (false, r)
  | some held => do
    let r ← detach { r with entries := r.entries.erase key } held.slot
    some (true, { r with free := held.slot :: r.free })

/-- At most `rounds` rounds of eviction. The slot at the end of the list of uses has to exist. -/
def evictRounds (capacity : Nat) : Nat → Recency κ ν → Option (Recency κ ν)
  | 0, r => some r
  | rounds + 1, r =>
    if capacity < r.size then
      match r.oldest with
      | none => some r
      | some slot => do
        let link ← r.links[slot]?
        let (_, r) ← forget r link.key
        evictRounds capacity rounds { r with evictions := r.evictions + 1 }
    else some r

def operate (r : Recency κ ν) : Operation κ ν → Option (Recency κ ν)
  | .get key => (get r key).map Prod.snd
  | .insert key value => insert r key value
  | .forget key => (forget r key).map Prod.snd
  | .evict capacity => evictRounds capacity r.size r

/-- Operations one after the other, up to the first that meets a slot that does not exist. -/
def operateAll (r : Recency κ ν) (operations : List (Operation κ ν)) : Option (Recency κ ν) :=
  operations.foldlM operate r

end Checked

/-! ## 4. No operation meets a slot that does not exist -/

theorem checked_setLink {slot : Nat} (h : slot < r.links.size) (f : Link κ → Link κ) :
    Checked.setLink r slot f = some (r.setLink slot f) := if_pos h

theorem checked_joinOlder {newer : Option Nat} (h : ∀ slot ∈ newer, slot < r.links.size)
    (older : Option Nat) : Checked.joinOlder r newer older = some (r.joinOlder newer older) := by
  cases newer with
  | none => rfl
  | some slot => exact checked_setLink (h slot rfl) _

theorem checked_joinNewer {older : Option Nat} (h : ∀ slot ∈ older, slot < r.links.size)
    (newer : Option Nat) : Checked.joinNewer r newer older = some (r.joinNewer newer older) := by
  cases older with
  | none => rfl
  | some slot => exact checked_setLink (h slot rfl) _

theorem checked_detach {slot : Nat} {link : Link κ} (hlink : r.links[slot]? = some link)
    (hnewer : ∀ other ∈ link.newer, other < r.links.size)
    (holder : ∀ other ∈ link.older, other < r.links.size) :
    Checked.detach r slot = some (r.detach slot) := by
  have hslot : slot < r.links.size := (Array.getElem?_eq_some_iff.1 hlink).1
  have hsize := (sameRoom_joinOlder r link.newer link.older).size
  have hsize' := (sameRoom_joinNewer (r.joinOlder link.newer link.older) link.newer link.older).size
  rw [← hsize] at holder
  rw [← hsize, ← hsize'] at hslot
  rw [Checked.detach, Recency.detach, hlink]
  simp only [Option.bind_eq_bind, Option.bind_some, checked_joinOlder hnewer,
    checked_joinNewer holder, checked_setLink hslot]

theorem checked_pushFront {slot : Nat} (hslot : slot < r.links.size)
    (hnewest : ∀ next ∈ r.newest, next < r.links.size) :
    Checked.pushFront r slot = some (r.pushFront slot) := by
  unfold Checked.pushFront Recency.pushFront
  simp only [Option.bind_eq_bind, checked_setLink hslot, Option.bind_some]
  cases hn : r.newest with
  | none => rfl
  | some next =>
    have hnext : next < r.links.size := hnewest next hn
    have hsize := (sameRoom_setLink r slot fun l =>
      { l with newer := none, older := some next }).size
    rw [← hsize] at hnext
    simp only [checked_setLink hnext, Option.bind_some]

theorem Threads.lt_size {nodes : List (Nat × κ)} (h : Threads r nodes) {slot : Nat}
    (hs : slot ∈ nodes.map Prod.fst) : slot < r.links.size := by
  obtain ⟨node, hn, rfl⟩ := List.mem_map.1 hs
  obtain ⟨link, hlink, _⟩ := h.linked.exists_link hn
  exact (Array.getElem?_eq_some_iff.1 hlink).1

/-- The neighbours of a threaded node are threaded too. -/
theorem Threads.checked_detach {xs ys : List (Nat × κ)} {node : Nat × κ}
    (h : Threads r (xs ++ node :: ys)) : Checked.detach r node.1 = some (r.detach node.1) := by
  obtain ⟨_, hlink, _⟩ := linked_append.1 h.linked
  refine Recency.checked_detach hlink (fun other ho => h.lt_size ?_) fun other ho => h.lt_size ?_
  · rw [List.map_append]
    exact List.mem_append_left _ (mem_of_backSlot ho)
  · rw [List.map_append, List.map_cons]
    exact List.mem_append_right _ (List.mem_cons_of_mem _ (mem_of_frontSlot ho))

theorem Threads.checked_promote {xs ys : List (Nat × κ)} {node : Nat × κ}
    (h : Threads r (xs ++ node :: ys)) : Checked.promote r node.1 = some (r.promote node.1) := by
  obtain ⟨hrest, hlink⟩ := h.detach
  have hslot : node.1 < (r.detach node.1).links.size := (Array.getElem?_eq_some_iff.1 hlink).1
  have hnewest : ∀ next ∈ (r.detach node.1).newest, next < (r.detach node.1).links.size := by
    intro next hn
    rw [hrest.newest] at hn
    exact hrest.lt_size (mem_of_frontSlot hn)
  rw [Checked.promote, h.checked_detach]
  exact checked_pushFront hslot hnewest

section Ranked

variable [DecidableEq κ] {uses xs ys : List (κ × Held ν)} {key : κ} {held : Held ν}
  {ranking : Ranking κ ν}

theorem Ranks.checked_get (h : Ranks r uses) (key : κ) : Checked.get r key = some (r.get key) := by
  rw [Checked.get, Recency.get]
  cases hk : r.entries.get? key with
  | none => rfl
  | some held =>
    obtain ⟨xs, ys, rfl⟩ := h.exists_split hk
    have hpromote : Checked.promote r held.slot = some (r.promote held.slot) :=
      (h.threads_entries r.entries).checked_promote
    simp only [hpromote, Option.bind_eq_bind, Option.bind_some]

theorem Ranks.checked_forget (h : Ranks r uses) (key : κ) :
    Checked.forget r key = some (r.forget key) := by
  rw [Checked.forget, Recency.forget]
  cases hk : r.entries.get? key with
  | none => rfl
  | some held =>
    obtain ⟨xs, ys, rfl⟩ := h.exists_split hk
    have hdetach := (h.threads_entries (r.entries.erase key)).checked_detach
    simp only [nodeOf] at hdetach
    simp only [hdetach, Option.bind_eq_bind, Option.bind_some]

/-- A slot that was given up exists. -/
theorem Ranks.checked_allocate (h : Ranks r uses) (key : κ) :
    Checked.allocate r key = some (r.allocate key) := by
  rw [Checked.allocate, Recency.allocate]
  cases hfree : r.free with
  | nil => rfl
  | cons slot rest =>
    have hslot : slot < r.links.size :=
      List.mem_range.1 (h.slots.mem_iff.1 (List.mem_append_right _ (by simp [hfree])))
    have hset := checked_setLink (r := { r with free := rest }) hslot fun _ => ⟨key, none, none⟩
    simp only [hset, Option.bind_eq_bind, Option.bind_some]

theorem Ranks.checked_insert (h : Ranks r uses) (key : κ) (value : ν) :
    Checked.insert r key value = some (r.insert key value) := by
  rw [Checked.insert, Recency.insert]
  cases hk : r.entries.get? key with
  | some held =>
    obtain ⟨xs, ys, rfl⟩ := h.exists_split hk
    exact (h.threads_entries _).checked_promote
  | none =>
    obtain ⟨slot, r', hallocate, _, _, hslots, _⟩ := h.allocate key
    have hsame : (r.allocate key).2.newest = r.newest := by
      unfold Recency.allocate
      cases r.free <;> rfl
    rw [hallocate] at hsame
    have hslot : slot < r'.links.size :=
      List.mem_range.1 (hslots.mem_iff.1 (List.mem_cons_self ..))
    have hnewest : ∀ next ∈ r'.newest, next < r'.links.size := by
      intro next hn
      rw [hsame, h.threads.newest] at hn
      have hin := mem_of_frontSlot hn
      rw [map_nodeOf] at hin
      exact List.mem_range.1 (hslots.mem_iff.1 (List.mem_cons_of_mem _ (List.mem_append_left _ hin)))
    simp only [h.checked_allocate, hallocate, Option.bind_eq_bind, Option.bind_some,
      checked_pushFront hslot hnewest]

theorem Ranks.checked_evictRounds (h : Ranks r uses) (capacity rounds : Nat) :
    Checked.evictRounds capacity rounds r = some (Recency.evictRounds capacity rounds r) := by
  induction rounds generalizing r uses with
  | zero => rfl
  | succ rounds ih =>
    rw [Checked.evictRounds, Recency.evictRounds]
    by_cases hmore : capacity < r.size
    · rcases List.eq_nil_or_concat uses with rfl | ⟨init, ⟨key, held⟩, rfl⟩
      · rw [h.size] at hmore
        exact absurd hmore (Nat.not_lt_zero _)
      · rw [List.concat_eq_append] at h
        obtain ⟨holdest, link, hlink, rfl⟩ := h.oldest
        obtain ⟨hone, hranks, _⟩ := h.evictOne hmore
        rw [if_pos hmore, holdest, hone, ← ih hranks]
        simp only [hlink, h.checked_forget, Option.bind_eq_bind, Option.bind_some, evictKey]
    · have hone : r.evictOne capacity = none := by rw [Recency.evictOne, if_neg hmore]
      rw [if_neg hmore, hone]

theorem Ranks.checked_operate (h : Ranks r uses) (operation : Operation κ ν) :
    Checked.operate r operation = some (r.operate operation) := by
  cases operation with
  | get key => rw [Checked.operate, h.checked_get, operate, Option.map_some]
  | insert key value => exact h.checked_insert key value
  | forget key => rw [Checked.operate, h.checked_forget, operate, Option.map_some]
  | evict capacity => exact h.checked_evictRounds capacity r.size

/-- **Every slot that is used exists**, whatever operations are made. -/
theorem Follows.checked_operateAll (h : Follows r ranking) (operations : List (Operation κ ν)) :
    Checked.operateAll r operations = some (r.operateAll operations) := by
  induction operations generalizing r ranking with
  | nil => rfl
  | cons operation rest ih =>
    obtain ⟨uses, hranks, _⟩ := h.ranked
    obtain ⟨next, hnext⟩ := h.operate operation
    rw [Checked.operateAll, List.foldlM_cons, hranks.checked_operate]
    exact ih hnext

end Ranked

/-! ## 5. How many slots there are -/

section Room

variable [DecidableEq κ] {uses : List (κ × Held ν)} {ranking : Ranking κ ν}

/-- Whether an operation may take in a key. -/
def Operation.isInsert : Operation κ ν → Bool
  | .insert .. => true
  | _ => false

theorem size_links_forget (r : Recency κ ν) (key : κ) :
    (r.forget key).2.links.size = r.links.size := by
  unfold forget
  cases r.entries.get? key with
  | none => rfl
  | some held => exact (sameRoom_detach _ held.slot).size

theorem size_links_evictOne {next : Recency κ ν} {capacity : Nat}
    (h : r.evictOne capacity = some next) : next.links.size = r.links.size := by
  unfold evictOne at h
  split at h
  · split at h
    · cases h
    · cases h
      exact size_links_forget r _
  · cases h

theorem size_links_evictRounds (capacity rounds : Nat) (r : Recency κ ν) :
    (evictRounds capacity rounds r).links.size = r.links.size := by
  induction rounds generalizing r with
  | zero => rfl
  | succ rounds ih =>
    unfold evictRounds
    cases hone : r.evictOne capacity with
    | none => rfl
    | some next => exact (ih next).trans (size_links_evictOne hone)

/-- A slot is made only if none is left to be used again, that is, if there are no more slots than
keys. -/
theorem Ranks.room_insert (h : Ranks r uses) (key : κ) (value : ν) :
    (r.insert key value).size ≤ r.size + 1
    ∧ (r.insert key value).links.size ≤ max r.links.size (r.size + 1) := by
  cases hk : r.entries.get? key with
  | some held =>
    obtain ⟨xs, ys, rfl⟩ := h.exists_split hk
    refine ⟨?_, ?_⟩
    · rw [(h.insert_held value).size, h.size]
      simp only [List.length_cons, List.length_append]
      omega
    · rw [Recency.insert, hk]
      exact (sameRoom_promote _ held.slot).size.trans_le (Nat.le_max_left ..)
  | none =>
    obtain ⟨slot, hranks, _⟩ := h.insert_new hk value
    refine ⟨?_, ?_⟩
    · rw [hranks.size, h.size]
      exact Nat.le_refl _
    · have hslots := h.length_add_free
      have hinsert : (r.insert key value).links.size = (r.allocate key).2.links.size := by
        rw [Recency.insert, hk]
        exact (sameRoom_pushFront ..).size
      rw [hinsert, h.size]
      rcases allocate_cases r key with ⟨slot, rest, _, hallocate⟩ | ⟨hfree, hallocate⟩
      · rw [hallocate]
        exact (Array.size_modify ..).trans_le (Nat.le_max_left ..)
      · rw [hfree, List.length_nil] at hslots
        rw [hallocate]
        show (r.links.push _).size ≤ _
        rw [Array.size_push]
        omega

theorem Follows.size_evict (h : Follows r ranking) (capacity : Nat) :
    (r.evict capacity).size = min r.size capacity := by
  rw [(h.evict capacity).size, h.size]
  exact List.length_take.trans (Nat.min_comm ..)

/-- An operation takes in one key at most. -/
theorem Follows.room_operate (h : Follows r ranking) (operation : Operation κ ν) :
    (r.operate operation).size ≤ r.size + (if operation.isInsert then 1 else 0)
    ∧ (r.operate operation).links.size
      ≤ max r.links.size (r.size + if operation.isInsert then 1 else 0) := by
  cases operation with
  | get key =>
    have hsame := sameRoom_get r key
    exact ⟨Nat.le_of_eq (congrArg Entries.size hsame.entries),
      hsame.size.trans_le (Nat.le_max_left ..)⟩
  | insert key value =>
    obtain ⟨uses, hranks, _⟩ := h.ranked
    exact hranks.room_insert key value
  | forget key =>
    obtain ⟨hnext, hcount⟩ := h.forget key
    refine ⟨?_, (size_links_forget r key).trans_le (Nat.le_max_left ..)⟩
    show (r.forget key).2.size ≤ r.size
    rw [hnext.size, h.size, ← hcount]
    exact Nat.le_add_right ..
  | evict capacity =>
    refine ⟨?_, (size_links_evictRounds ..).trans_le (Nat.le_max_left ..)⟩
    exact (h.size_evict capacity).trans_le (Nat.min_le_left ..)

/-- Operations take in no more keys than they insert, and there are no more slots than there ever
were keys at a time. -/
theorem Follows.room_operateAll (h : Follows r ranking) (operations : List (Operation κ ν)) :
    (r.operateAll operations).size ≤ r.size + operations.countP Operation.isInsert
    ∧ (r.operateAll operations).links.size
      ≤ max r.links.size (r.size + operations.countP Operation.isInsert) := by
  induction operations generalizing r ranking with
  | nil => exact ⟨Nat.le_refl _, Nat.le_max_left ..⟩
  | cons operation rest ih =>
    obtain ⟨next, hnext⟩ := h.operate operation
    obtain ⟨hsize, hlinks⟩ := h.room_operate operation
    obtain ⟨hsize', hlinks'⟩ := ih hnext
    rw [operateAll_cons, List.countP_cons]
    omega

end Room

end Recency

/-! ## 6. Slots in a run of calls -/

section Runs

variable [DecidableEq κ] {r : Recency κ ν} {ranking : Ranking κ ν} {capacity : Nat}

/-- The batch a call writes. -/
def BatchRequest.batch : BatchRequest κ ν → List (κ × ν)
  | .put batch => batch
  | .update batch _ => batch
  | _ => []

/-- How many pairs the largest batch has. -/
def largestBatch (requests : List (BatchRequest κ ν)) : Nat :=
  requests.foldr (fun request n => max request.batch.length n) 0

omit [DecidableEq κ] in
theorem length_batch_le {request : BatchRequest κ ν} {requests : List (BatchRequest κ ν)}
    (h : request ∈ requests) : request.batch.length ≤ largestBatch requests := by
  induction requests with
  | nil => cases h
  | cons first rest ih =>
    rcases List.mem_cons.1 h with rfl | hrest
    · exact Nat.le_max_left ..
    · exact Nat.le_trans (ih hrest) (Nat.le_max_right ..)

omit [DecidableEq κ] in
theorem BatchRequest.countP_operations (capacity : Nat) (request : BatchRequest κ ν) :
    (request.operations capacity).countP Recency.Operation.isInsert = request.batch.length := by
  cases request <;>
    simp [operations, batch, List.countP_map, Function.comp_def, Recency.Operation.isInsert]

namespace Recency

/-- Behind a whole call there is no key too many: it evicts last, or it inserts nothing. -/
theorem Follows.size_call (h : Follows r ranking) (hsize : r.size ≤ capacity)
    (request : BatchRequest κ ν) :
    (r.operateAll (request.operations capacity)).size ≤ capacity := by
  have hevicted : ∀ operations : List (Operation κ ν),
      (r.operateAll (operations ++ [.evict capacity])).size ≤ capacity := by
    intro operations
    obtain ⟨next, hnext⟩ := h.operateAll operations
    rw [operateAll_append]
    exact (hnext.size_evict capacity).trans_le (Nat.min_le_right ..)
  have hfew := (h.room_operateAll (request.operations capacity)).1
  rw [request.countP_operations] at hfew
  cases request with
  | get keys => exact Nat.le_trans hfew hsize
  | put batch => exact hevicted _
  | remove keys => exact Nat.le_trans hfew hsize
  | update batch removals =>
    rw [BatchRequest.operations, ← List.append_assoc]
    exact hevicted _

/-- At any moment of a call the slots are those there were, or as many as the keys that fit and those
of the batch. -/
theorem Follows.room_call (h : Follows r ranking) (hsize : r.size ≤ capacity) {n : Nat}
    (hlinks : r.links.size ≤ capacity + n) {request : BatchRequest κ ν}
    (hbatch : request.batch.length ≤ n) {part : List (Operation κ ν)}
    (hpart : part <+: request.operations capacity) :
    (r.operateAll part).links.size ≤ capacity + n := by
  have hcount := hpart.sublist.countP_le (p := Operation.isInsert)
  rw [request.countP_operations] at hcount
  have hroom := (h.room_operateAll part).2
  omega

/-- **A run of calls** that began with few enough slots has few enough at its end. -/
theorem Follows.room_run (h : Follows r ranking) (hsize : r.size ≤ capacity) {n : Nat}
    (hlinks : r.links.size ≤ capacity + n) {requests : List (BatchRequest κ ν)}
    (hbatch : ∀ request ∈ requests, request.batch.length ≤ n) :
    (r.operateAll (requests.flatMap (BatchRequest.operations capacity))).size ≤ capacity
    ∧ (r.operateAll (requests.flatMap (BatchRequest.operations capacity))).links.size
      ≤ capacity + n := by
  induction requests generalizing r ranking with
  | nil => exact ⟨hsize, hlinks⟩
  | cons request rest ih =>
    obtain ⟨next, hnext⟩ := h.operateAll (request.operations capacity)
    rw [List.flatMap_cons, operateAll_append]
    refine ih hnext (h.size_call hsize request) ?_ fun other ho => hbatch other (.tail _ ho)
    exact h.room_call hsize hlinks (hbatch request (.head _)) (List.prefix_refl _)

/-- **The slab is in order.** Whatever operations are made on a list of uses that began empty, its
slab is intact, and every slot that any of them used was there. Whatever calls are made on a bounded
store that began empty, its list of uses has come about by the operations of these calls; and at any
moment of the next call, in the middle of its batch too, there are no more slots than keys there is
room for and pairs in the largest batch. -/
theorem slab_in_order :
    (∀ operations : List (Operation κ ν),
      (∃ slots, ((empty : Recency κ ν).operateAll operations).Intact slots)
      ∧ Checked.operateAll empty operations = some ((empty : Recency κ ν).operateAll operations))
    ∧ ∀ (capacity : Nat) (requests : List (BatchRequest κ ν)),
      let room := max capacity 1
      let r := (empty : Recency κ ν).operateAll (requests.flatMap (BatchRequest.operations room))
      (serveAll Shelf.serve (.freshBounded capacity) requests).2 = .bounded room r
      ∧ ∀ (request : BatchRequest κ ν) (part : List (Operation κ ν)),
        part <+: request.operations room →
        (r.operateAll part).links.size ≤ room + largestBatch (requests ++ [request]) := by
  constructor
  · intro operations
    obtain ⟨_, hfollows⟩ := follows_empty.operateAll operations
    obtain ⟨uses, hranks, _⟩ := hfollows.ranked
    exact ⟨⟨_, hranks.intact⟩, follows_empty.checked_operateAll operations⟩
  · intro capacity requests room r
    refine ⟨Shelf.serveAll_operations .., fun request part hpart => ?_⟩
    obtain ⟨_, hfollows⟩ := (follows_empty (κ := κ) (ν := ν)).operateAll
      (requests.flatMap (BatchRequest.operations room))
    have hnone : (empty : Recency κ ν).size ≤ room := Nat.zero_le _
    -- The bound is that of all calls, the next one included.
    obtain ⟨hsize, hlinks⟩ := follows_empty.room_run hnone (Nat.zero_le _) fun other ho =>
      length_batch_le (List.mem_append_left [request] ho)
    exact hfollows.room_call hsize hlinks (length_batch_le (by simp)) hpart

/-- With room for one key, a batch of two comes while one is held, and a later one finds its slots
made already. -/
example :
    let requests : List (BatchRequest Nat Nat) :=
      [.put [(1, 10)], .put [(2, 20), (3, 30)], .remove [3], .put [(4, 40), (5, 50)]]
    ((empty : Recency Nat Nat).operateAll
      (requests.flatMap (BatchRequest.operations 1))).links.size = 1 + largestBatch requests := by
  decide

end Recency

end Runs

end Collate
