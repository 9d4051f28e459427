/-
Looking the same keys up twice.

A lookup uses every key it finds, one after the other, and each use moves a key to the front. Doing
all of it again moves the same keys in the same order, so the list of uses ends up as it was: of a
key's uses only the last one counts (`front_again`). That settles the order of the keys. A store is
more than that, it is slots and links; but the order of the keys decides the links of all slots that
are in use, and nobody touches the others (`Ranks.ext`). So the second lookup leaves a store behind
that is the same in every respect.
-/
import Mathlib.Data.List.Induction
import Collate.Proofs.Store.Loss

set_option autoImplicit false

namespace Collate

variable {κ ν : Type} [DecidableEq κ]

/-! ## 1. Moving keys to the front -/

namespace Entries

/-- Moves a key to the front, if it is there. -/
def frontIn (l : List (κ × ν)) (key : κ) : List (κ × ν) :=
  match lookupIn key l with
  | none => l
  | some value => (key, value) :: dropIn key l

/-- Two lists are the same but for where a key is. -/
def SameBut (key : κ) (l l' : List (κ × ν)) : Prop :=
  dropIn key l = dropIn key l' ∧ lookupIn key l = lookupIn key l'

theorem dropIn_comm (k k' : κ) (l : List (κ × ν)) :
    dropIn k (dropIn k' l) = dropIn k' (dropIn k l) := by
  simp only [dropIn_eq_filter, List.filter_filter, Bool.and_comm]

theorem dropIn_dropIn (k : κ) (l : List (κ × ν)) : dropIn k (dropIn k l) = dropIn k l := by
  simp only [dropIn_eq_filter, List.filter_filter, Bool.and_self]

theorem lookupIn_eq_none {k : κ} {l : List (κ × ν)} (h : lookupIn k l = none) :
    k ∉ l.map Prod.fst := by
  rw [← isSome_lookupIn, h]
  exact Bool.false_ne_true

variable {l l' : List (κ × ν)} {key : κ}

theorem sameBut_frontIn (l : List (κ × ν)) (key : κ) : SameBut key (frontIn l key) l := by
  unfold frontIn
  cases h : lookupIn key l with
  | none => exact ⟨rfl, rfl⟩
  | some value =>
    refine ⟨?_, ?_⟩
    · rw [dropIn, if_pos rfl, dropIn_dropIn]
    · rw [lookupIn, if_pos rfl, h]

/-- Whoever is moved to the front may have been anywhere. -/
theorem SameBut.frontIn_eq (h : SameBut key l l') : frontIn l key = frontIn l' key := by
  obtain ⟨hdrop, hlookup⟩ := h
  unfold frontIn
  rw [hlookup, hdrop]
  cases hl : lookupIn key l' with
  | some value => rfl
  | none =>
    rw [hl] at hlookup
    rw [dropIn_of_not_mem (lookupIn_eq_none hlookup),
      dropIn_of_not_mem (lookupIn_eq_none hl)] at hdrop
    exact hdrop

theorem SameBut.frontIn (h : SameBut key l l') (other : κ) :
    SameBut key (frontIn l other) (frontIn l' other) := by
  by_cases ho : other = key
  · subst ho
    rw [h.frontIn_eq]
    exact ⟨rfl, rfl⟩
  · obtain ⟨hdrop, hlookup⟩ := h
    have hother : lookupIn other l = lookupIn other l' := by
      have hkept : ∀ m : List (κ × ν), lookupIn other (dropIn key m) = lookupIn other m := fun m =>
        (lookupIn_dropIn key other m).trans (if_neg (Ne.symm ho))
      rw [← hkept l, hdrop, hkept l']
    unfold Entries.frontIn
    rw [hother]
    cases lookupIn other l' with
    | none => exact ⟨hdrop, hlookup⟩
    | some value =>
      refine ⟨?_, ?_⟩
      · rw [dropIn, dropIn, if_neg ho, if_neg ho, dropIn_comm, hdrop, dropIn_comm]
      · rw [lookupIn, lookupIn, if_neg ho, if_neg ho, lookupIn_dropIn, lookupIn_dropIn, hlookup]

/-- **Moving keys to the front again** moves nothing: each key goes to where its last move of the
first time took it. -/
theorem front_again (keys : List κ) (l : List (κ × ν)) :
    keys.foldl frontIn (keys.foldl frontIn l) = keys.foldl frontIn l := by
  -- The last key is moved last both times, so where it was before makes no difference.
  induction keys using List.reverseRecOn with
  | nil => rfl
  | append_singleton keys key ih =>
    rw [List.foldl_append, List.foldl_append]
    have hsame : ∀ {m m' : List (κ × ν)}, SameBut key m m' →
        SameBut key (keys.foldl frontIn m) (keys.foldl frontIn m') := by
      clear ih
      induction keys with
      | nil => exact fun h => h
      | cons other rest ih => exact fun h => ih (h.frontIn other)
    show frontIn (keys.foldl frontIn (frontIn (keys.foldl frontIn l) key)) key
      = frontIn (keys.foldl frontIn l) key
    rw [(hsame (sameBut_frontIn (keys.foldl frontIn l) key)).frontIn_eq, ih]

end Entries

/-! ## 2. The order of the keys decides the links -/

namespace Recency

omit [DecidableEq κ] in
theorem links_eq_of_linked {links links' : Array (Link κ)} {newer older : Option Nat}
    {nodes : List (Nat × κ)} (h : Linked links newer nodes older)
    (h' : Linked links' newer nodes older) {slot : Nat} (hslot : slot ∈ nodes.map Prod.fst) :
    links[slot]? = links'[slot]? := by
  induction nodes generalizing newer with
  | nil => cases hslot
  | cons node rest ih =>
    rcases List.mem_cons.1 hslot with rfl | hrest
    · exact h.1.trans h'.1.symm
    · exact ih h.2 h'.2 hrest

variable {r r' : Recency κ ν} {uses : List (κ × Held ν)}

/-- Two stores with the same keys in the same order are the same, if they have the same slots to
spare and have evicted equally many. -/
theorem Ranks.ext (h : Ranks r uses) (h' : Ranks r' uses) (hsame : SameRoom r r')
    (hfree : ∀ slot ∈ r.free, r'.links[slot]? = r.links[slot]?) : r' = r := by
  obtain ⟨entries, links, free, newest, oldest, evictions⟩ := r
  obtain ⟨entries', links', free', newest', oldest', evictions'⟩ := r'
  obtain ⟨rfl, hsize, rfl, rfl⟩ : entries' = entries ∧ links'.size = links.size ∧ free' = free
      ∧ evictions' = evictions := ⟨hsame.entries, hsame.size, hsame.free, hsame.evictions⟩
  obtain rfl : newest' = newest := h'.threads.newest.trans h.threads.newest.symm
  obtain rfl : oldest' = oldest := h'.threads.oldest.trans h.threads.oldest.symm
  obtain rfl : links' = links := by
    apply Array.ext_getElem?
    intro slot
    by_cases hslot : slot < links.size
    · rcases List.mem_append.1 (h.slots.mem_iff.2 (List.mem_range.2 hslot)) with hused | hspare
      · apply links_eq_of_linked h'.threads.linked h.threads.linked
        rw [List.map_map]
        exact hused
      · exact hfree slot hspare
    · rw [Array.getElem?_eq_none (by omega), Array.getElem?_eq_none (by omega)]
  rfl

/-! ## 3. Lookups -/

/-- What a lookup leaves alone. -/
structure Spares (r r' : Recency κ ν) : Prop where
  room : SameRoom r r'
  links : ∀ slot ∈ r.free, r'.links[slot]? = r.links[slot]?

omit [DecidableEq κ] in
theorem Spares.trans {r₁ r₂ r₃ : Recency κ ν} (h : Spares r₁ r₂) (h' : Spares r₂ r₃) :
    Spares r₁ r₃ :=
  ⟨h.room.trans h'.room, fun slot hslot =>
    (h'.links slot (h.room.free.symm ▸ hslot)).trans (h.links slot hslot)⟩

/-- A slot that is to spare is not threaded. -/
theorem Ranks.not_threaded (h : Ranks r uses) {slot : Nat} (hslot : slot ∈ r.free) :
    slot ∉ (uses.map nodeOf).map Prod.fst := by
  rw [List.map_map]
  have hnodup := h.slots.nodup_iff.2 List.nodup_range
  exact fun hm => (List.nodup_append.1 hnodup).2.2 slot hm slot hslot rfl

theorem Ranks.lookupIn_eq (h : Ranks r uses) (key : κ) :
    Entries.lookupIn key uses = r.entries.get? key :=
  Option.ext fun held => by rw [Entries.lookupIn_eq_some h.keys, h.entries]

/-- **One lookup** moves its key to the front and spares the rest. -/
theorem Ranks.get_front (h : Ranks r uses) (key : κ) :
    Ranks (r.get key).2 (Entries.frontIn uses key) ∧ Spares r (r.get key).2 := by
  rw [Entries.frontIn, h.lookupIn_eq]
  cases hk : r.entries.get? key with
  | none =>
    rw [Recency.get, hk]
    exact ⟨h, .refl r, fun _ _ => rfl⟩
  | some held =>
    obtain ⟨xs, ys, rfl⟩ := h.exists_split hk
    obtain ⟨hget, hranks⟩ := h.get
    rw [hget]
    refine ⟨?_, sameRoom_promote r held.slot, fun slot hslot => ?_⟩
    · dsimp only
      rw [Entries.dropIn_middle h.keys]
      exact hranks
    · have hthreads := h.threads
      have hspare := h.not_threaded hslot
      rw [List.map_append, List.map_cons] at hthreads hspare
      exact hthreads.links_promote hspare

theorem Ranks.getAll_front (h : Ranks r uses) (keys : List κ) :
    Ranks (r.getAll keys).2 (keys.foldl Entries.frontIn uses) ∧ Spares r (r.getAll keys).2 := by
  rw [getAll_eq_foldl]
  suffices hall : ∀ found : Entries κ ν,
      Ranks (keys.foldl find (found, r)).2 (keys.foldl Entries.frontIn uses)
      ∧ Spares r (keys.foldl find (found, r)).2 from hall .empty
  induction keys generalizing r uses with
  | nil => exact fun found => ⟨h, .refl r, fun _ _ => rfl⟩
  | cons key rest ih =>
    intro found
    obtain ⟨hnext, hspares⟩ := h.get_front key
    have hfind : (find (found, r) key).2 = (r.get key).2 := by
      unfold find
      rcases r.get key with ⟨_ | value, r'⟩
      · rfl
      · rfl
    obtain ⟨hlast, hspares'⟩ := ih (hfind ▸ hnext) (find (found, r) key).1
    rw [List.foldl_cons]
    exact ⟨hlast, hspares.trans (hfind ▸ hspares')⟩

/-- **Looking the same keys up again** changes nothing at all. -/
theorem Ranks.getAll_getAll (h : Ranks r uses) (keys : List κ) :
    ((r.getAll keys).2.getAll keys).2 = (r.getAll keys).2 := by
  obtain ⟨hfirst, _⟩ := h.getAll_front keys
  obtain ⟨hsecond, hspares⟩ := hfirst.getAll_front keys
  rw [Entries.front_again] at hsecond
  exact hfirst.ext hsecond hspares.room hspares.links

end Recency

namespace Shelf

/-- What a shelf that began empty can have come to. -/
def Reachable (shelf : Shelf κ ν) : Prop :=
  ∃ begun requests, (begun = .fresh ∨ ∃ capacity, begun = .freshBounded capacity)
    ∧ shelf = (serveAll Shelf.serve begun requests).2

theorem Reachable.exists_ranks {capacity : Nat} {recent : Recency κ ν}
    (h : (bounded capacity recent).Reachable) : ∃ uses, Recency.Ranks recent uses := by
  obtain ⟨begun, requests, hbegun, hshelf⟩ := h
  rcases hbegun with rfl | ⟨bound, rfl⟩
  · -- A shelf without a bound never gets one.
    have hnever : ∀ (requests : List (BatchRequest κ ν)) (entries : Entries κ ν),
        ∃ entries', (serveAll Shelf.serve (unbounded entries) requests).2 = unbounded entries' := by
      intro requests
      induction requests with
      | nil => exact fun entries => ⟨entries, rfl⟩
      | cons request rest ih =>
        intro entries
        obtain ⟨next, hnext⟩ : ∃ next, ((unbounded entries).serve request).2 = unbounded next := by
          cases request with
          | get | put | remove | update => exact ⟨_, rfl⟩
        obtain ⟨entries', hlast⟩ := ih next
        refine ⟨entries', ?_⟩
        show (serveAll Shelf.serve ((unbounded entries).serve request).2 rest).2 = _
        rw [hnext, hlast]
    obtain ⟨entries', hentries⟩ := hnever requests .empty
    rw [fresh, hentries] at hshelf
    cases hshelf
  · obtain ⟨r, hserve, hfollows⟩ :=
      serveAll_ranking Recency.follows_empty (max bound 1) requests
    have hr : bounded capacity recent = bounded (max bound 1) r := by
      rw [hshelf, freshBounded, hserve]
    cases hr
    obtain ⟨uses, hranks, _⟩ := hfollows.ranked
    exact ⟨uses, hranks⟩

/-- **A repeated lookup** finds the same and leaves the same shelf behind. -/
theorem get_get {shelf : Shelf κ ν} (h : shelf.Reachable) (keys : List κ) :
    (shelf.get keys).2.get keys = shelf.get keys := by
  apply Prod.ext
  · rw [get_fst, get_fst, contents_get]
  · cases shelf with
    | unbounded entries => rfl
    | bounded capacity recent =>
      obtain ⟨uses, hranks⟩ := h.exists_ranks
      exact congrArg (bounded capacity) (hranks.getAll_getAll keys)

end Shelf

end Collate
