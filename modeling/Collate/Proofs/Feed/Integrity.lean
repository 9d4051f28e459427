/-
What is true of every entry that a feed has put together.

An entry is never empty, all children in it belong to its id, where an id has one child it is one
child, and where an id may have many no element is in it twice. None of this is true of the copies
a window works on: a removal of an id that has no entry leaves an empty one behind, and an entry may
be emptied and filled again before it is written. So the invariant is cut in two. What an entry may
be while changes are folded in (`Merge.Tidy`) is kept by every change and so by any history; that it
is not empty is seen to when it is written.

Every entry of the store is the fold of some last changes of its id (`Merge.Recalls`), whatever the
windows were and whatever was evicted between them, and with that it is well-formed. An entry that
was begun anew never has an element that the whole history has removed, so an id whose last element
is gone has no entry.
-/
import Collate.Proofs.Feed.Forgetting
import Collate.Proofs.Feed.Merging

set_option autoImplicit false

namespace Collate

variable {ι α : Type}

/-! ## 1. One entry -/

namespace Merge

/-- What an entry of an id is while changes are folded in: it may be empty. -/
structure Tidy (m : Merge ι α) (id : ι) (entry : List α) : Prop where
  keyed : ∀ child ∈ entry, m.key child = id
  single : m.sameElement = none → entry.length ≤ 1
  apart : ∀ same, m.sameElement = some same → Compares same → Apart same entry

/-- **A well-formed entry** of an id. -/
structure WellFormed (m : Merge ι α) (id : ι) (entry : List α) : Prop where
  nonempty : entry ≠ []
  keyed : ∀ child ∈ entry, m.key child = id
  /-- A one-to-one entry is one child. -/
  single : m.sameElement = none → ∃ child, entry = [child]
  /-- In a one-to-many entry no two children are versions of one element. -/
  apart : ∀ same, m.sameElement = some same → Compares same → Apart same entry

/-- Elements are told apart by comparing their ids. -/
def IsComparing (m : Merge ι α) : Prop := ∀ same, m.sameElement = some same → Compares same

variable {m : Merge ι α} {id : ι} {entry entry' : List α}

theorem Tidy.nil (m : Merge ι α) (id : ι) : m.Tidy id [] :=
  ⟨fun _ h => absurd h List.not_mem_nil, fun _ => Nat.zero_le _, fun _ _ _ => List.Pairwise.nil⟩

theorem Tidy.wellFormed (h : m.Tidy id entry) (hne : entry ≠ []) : m.WellFormed id entry := by
  refine ⟨hne, h.keyed, fun hone => List.length_eq_one_iff.1 ?_, h.apart⟩
  exact Nat.le_antisymm (h.single hone) (List.length_pos_iff.2 hne)

theorem of_mem_replaceOrAppend {same : α → α → Bool} {child x : α}
    (h : x ∈ replaceOrAppend same child entry) : x = child ∨ x ∈ entry := by
  induction entry with
  | nil => exact Or.inl (List.mem_singleton.1 h)
  | cons existing rest ih =>
    rw [replaceOrAppend] at h
    split at h
    · exact (List.mem_cons.1 h).imp_right (List.mem_cons_of_mem _)
    · rcases List.mem_cons.1 h with rfl | hrest
      · exact Or.inr (List.mem_cons_self ..)
      · exact (ih hrest).imp_right (List.mem_cons_of_mem _)

/-- **One change** of an id keeps its entry tidy. -/
theorem Tidy.apply (h : m.Tidy id entry) {change : Change α} (hkey : m.key change.child = id) :
    m.Tidy id (m.apply entry change) := by
  cases hm : m.sameElement with
  | none =>
    cases change with
    | updated child =>
      rw [show m.apply entry (.updated child) = [child] by simp only [Merge.apply, upsert, hm]]
      refine ⟨fun x hx => ?_, fun _ => Nat.le_refl 1, fun _ _ _ => List.pairwise_singleton ..⟩
      rw [List.mem_singleton.1 hx]
      exact hkey
    | removed child =>
      rw [show m.apply entry (.removed child) = [] by simp only [Merge.apply, remove, hm]]
      exact .nil m id
  | some same =>
    have hnone : m.sameElement ≠ none := by simp [hm]
    have hsame : ∀ same', m.sameElement = some same' → same' = same := fun same' h' =>
      Option.some.inj (h'.symm.trans hm)
    cases change with
    | updated child =>
      rw [apply_updated hm]
      refine ⟨fun x hx => ?_, fun hone => absurd hone hnone, fun same' h' hs => ?_⟩
      · rcases of_mem_replaceOrAppend hx with rfl | hin
        · exact hkey
        · exact h.keyed x hin
      · obtain rfl := hsame same' h'
        exact apart_replaceOrAppend hs (h.apart _ h' hs)
    | removed child =>
      rw [apply_removed hm]
      exact ⟨fun x hx => h.keyed x (List.mem_filter.1 hx).1, fun hone => absurd hone hnone,
        fun same' h' hs => (h.apart same' h' hs).filter _⟩

/-- Any changes of an id keep its entry tidy. -/
theorem Tidy.applyAll (h : m.Tidy id entry) {changes : List (Change α)}
    (hkeys : ∀ change ∈ changes, m.key change.child = id) :
    m.Tidy id (m.applyAll entry changes) := by
  induction changes generalizing entry with
  | nil => exact h
  | cons change rest ih =>
    obtain ⟨hkey, hrest⟩ := List.forall_mem_cons.1 hkeys
    exact ih (h.apply hkey) hrest

/-- What comes of a smaller entry is part of what comes of a larger one. -/
theorem applyAll_subset {same : α → α → Bool} (hm : m.sameElement = some same)
    (hs : Compares same) (ha : Apart same entry) (ha' : Apart same entry') (hsub : entry ⊆ entry')
    (changes : List (Change α)) : m.applyAll entry changes ⊆ m.applyAll entry' changes := by
  induction changes generalizing entry entry' with
  | nil => exact hsub
  | cons change rest ih =>
    show m.applyAll (m.apply entry change) rest ⊆ m.applyAll (m.apply entry' change) rest
    cases change with
    | updated child =>
      rw [apply_updated hm, apply_updated hm]
      refine ih (apart_replaceOrAppend hs ha) (apart_replaceOrAppend hs ha') fun x hx => ?_
      rw [mem_replaceOrAppend hs ha] at hx
      rw [mem_replaceOrAppend hs ha']
      exact hx.imp_right fun hin => ⟨hsub hin.1, hin.2⟩
    | removed child =>
      rw [apply_removed hm, apply_removed hm]
      refine ih (ha.filter _) (ha'.filter _) fun x hx => ?_
      obtain ⟨hin, hspared⟩ := List.mem_filter.1 hx
      exact List.mem_filter.2 ⟨hsub hin, hspared⟩

variable [DecidableEq ι] {changes : List (Change α)}

/-- What is recalled for an id is well-formed. -/
theorem Recalls.wellFormed (h : m.Recalls changes id entry) : m.WellFormed id entry := by
  obtain ⟨hne, earlier, later, hsplit, rfl⟩ := h
  refine ((Tidy.nil m id).applyAll fun change hchange => ?_).wellFormed hne
  have hin : change ∈ m.changesOf id changes := hsplit ▸ List.mem_append_right earlier hchange
  simpa using (List.mem_filter.1 hin).2

/-- Nothing is recalled for an id that the whole history has left without children. -/
theorem Recalls.folded_ne_none (h : m.Recalls changes id entry) (hm : m.IsComparing) :
    m.folded? changes id ≠ none := by
  cases hsame : m.sameElement with
  | none =>
    rw [h.folded_of_one hsame]
    exact Option.some_ne_none _
  | some same =>
    obtain ⟨hne, earlier, later, hsplit, rfl⟩ := h
    have hs := hm same hsame
    have htidy : m.Tidy id (m.applyAll [] earlier) := by
      refine (Tidy.nil m id).applyAll fun change hchange => ?_
      have hin : change ∈ m.changesOf id changes := hsplit ▸ List.mem_append_left later hchange
      simpa using (List.mem_filter.1 hin).2
    have hsub : m.applyAll [] later ⊆ m.applyAll [] (m.changesOf id changes) := by
      rw [hsplit, applyAll_append]
      exact applyAll_subset hsame hs .nil (htidy.apart same hsame hs) (List.nil_subset _) later
    unfold folded?
    cases hfold : m.applyAll [] (m.changesOf id changes) with
    | nil =>
      rw [hfold] at hsub
      exact absurd (List.subset_nil.1 hsub) hne
    | cons first rest => exact Option.some_ne_none _

/-- An id whose entry loses all its children is left without one. -/
theorem continued?_eq_none {entries : Entries ι (List α)} (hentry : entries.get? id ≠ some [])
    (h : m.applyAll ((entries.get? id).getD []) (m.changesOf id changes) = []) :
    m.continued? entries changes id = none := by
  unfold continued?
  by_cases hid : id ∈ m.idsOf changes
  · rw [if_pos hid, h]
  · rw [if_neg hid]
    rw [(changesOf_eq_nil m id changes).2 hid] at h
    cases hheld : entries.get? id with
    | none => rfl
    | some entry =>
      rw [hheld] at h hentry
      exact absurd (congrArg some h) hentry

end Merge

/-! ## 2. All entries of a store -/

namespace Service

variable [DecidableEq ι]

/-- The entry of an id in the store behind a consumer. -/
def held? (c : Consumer ι α) (t : Service ι α) (id : ι) : Option (List α) :=
  (t.system.stores.get c.backing.store).shelf.contents.get? id

variable {c₀ c : Consumer ι α} {ref : FeedRef} {t : Service ι α} {sys : System ι α}

/-- An id that has no children left by what is done to its entry has no entry after it. -/
theorem Recalled.cleared (h : Recalled c₀ t) (hsound : Sound ref t) {changes : List (Change α)}
    (hchanges : t.consume.history = t.history ++ changes) {id : ι}
    (hnone : c₀.merge.applyAll ((held? c₀ t id).getD []) (c₀.merge.changesOf id changes) = []) :
    held? c₀ t.consume id = none := by
  have hheld : held? c₀ t id ≠ some [] := fun hentry => (h.recalls id [] hentry).1 rfl
  -- Where the history does not go on the store holds what it held.
  have hquiet : t.consume.history = t.history → held? c₀ t.consume id = held? c₀ t id →
      held? c₀ t.consume id = none := by
    intro hsame hkept
    obtain rfl : changes = [] := List.append_right_eq_self.1 (hchanges.symm.trans hsame)
    rw [hkept]
    cases hentry : held? c₀ t id with
    | none => rfl
    | some entry =>
      rw [hentry] at hnone hheld
      exact absurd (congrArg some hnone) hheld
  have hstore := (t.consumer.stepped t.system).on_store
  rw [h.backing] at hstore
  rcases hstore with ⟨hwindow, hfalse, hsame⟩ | ⟨window, hstage, hwindow, hempty, hsys⟩
    | ⟨updates, removals, failure, batch, hstage, hwindow, htrue, hperm, hshelf⟩
  · refine hquiet ?_ (congrArg (·.get? id) hsame.contents)
    unfold Service.consume
    rw [hwindow, hfalse, history_consumed_none]
  · have hfits := hsound.stage
    rw [hstage] at hfits
    refine hquiet ?_ ?_ <;> unfold Service.consume
    · rw [hwindow, hempty]
      exact h.accepts hstage hfits.1 window
    · rw [hsys]
      rfl
  · obtain ⟨window, hits, hhits, rfl, rfl, hafter⟩ := h.window hsound hstage
    have hhistory : t.consume.history = t.history ++ FeedItem.changes window := by
      unfold Service.consume
      rw [hwindow, htrue]
      exact hafter _ _
    obtain rfl : changes = FeedItem.changes window :=
      List.append_cancel_left (hchanges.symm.trans hhistory)
    refine Option.eq_none_iff_forall_ne_some.2 fun entry hentry => ?_
    have hwritten : held? c₀ t.consume id
        = ((t.system.stores.get c₀.backing.store).shelf.update batch
          (c₀.merge.removalsOf hits (FeedItem.changes window))).contents.get? id :=
      congrArg (·.contents.get? id) hshelf
    have hcontinued := Shelf.continued_of_update hhits hperm (hwritten.symm.trans hentry)
    rw [Merge.continued?_eq_none hheld hnone] at hcontinued
    cases hcontinued

/-- What is true of the entries in the store behind a consumer. -/
structure Integrity (c : Consumer ι α) (t : Service ι α) : Prop where
  /-- Every entry is well-formed. -/
  wellFormed : ∀ id entry, held? c t id = some entry → c.merge.WellFormed id entry
  /-- An id that the history has left without children has no entry, whatever was evicted of it. -/
  gone : c.merge.IsComparing → ∀ id, c.merge.folded? t.history id = none → held? c t id = none
  /-- As soon as a window takes the last child of an entry, the entry is gone. -/
  cleared : ∀ changes, t.consume.history = t.history ++ changes → ∀ id,
    c.merge.applyAll ((held? c t id).getD []) (c.merge.changesOf id changes) = [] →
    held? c t.consume id = none

/-- **Entries are well-formed.** In every state that a feed leads to over a store that was empty at
first, whatever the store's bound and with any grouping of what the feed brings: no entry is empty,
all children in it belong to its id, a one-to-one entry is one child, and a one-to-many entry has no
element twice. An id has no entry as soon as its last child was removed. -/
theorem entries_wellFormed (h : c.Unbegun ref sys) (hunfed : c.backing.feeds = [])
    (hempty : ∀ id, held? c (start c sys) id = none)
    (hrun : Leads ref (Unshared c) (start c sys) t) : Integrity c t := by
  obtain ⟨hsound, hrecalled⟩ :=
    (Recalled.start h hunfed hempty).of_leads h.feed (Sound.start h) hrun
  refine ⟨fun id entry hentry => (hrecalled.recalls id entry hentry).wellFormed,
    fun hm id hfolded => ?_, fun changes hchanges id => hrecalled.cleared hsound hchanges⟩
  refine Option.eq_none_iff_forall_ne_some.2 fun entry hentry => ?_
  exact (hrecalled.recalls id entry hentry).folded_ne_none hm hfolded

/-- Windows of one change: 1 and 2 get a child each, 1 loses its own, gets another, loses that. -/
def unsettled : Consumer Nat (Nat × Nat) :=
  { oneByOne ⟨Prod.fst, some fun old new => old.2 == new.2⟩ with
    inlet := .channel [.ok (.updated (1, 10)), .ok (.updated (2, 20)), .ok (.removed (1, 10)),
      .ok (.updated (1, 11)), .ok (.removed (1, 11))] true false }

/-- Four windows are in the layer and the last is about to be written. -/
def unsettling : Service Nat (Nat × Nat) :=
  let l : Lookup Nat := .start ⟨[.fed ⟨0, 500⟩], 0⟩ [1]
  Nat.repeat consume 18 (((start unsettled narrow).come l).look [] ⟨l, 0⟩ [])

/-- In a store for one entry 2 pushes 1 out, so that a child is removed of an id that has no entry;
then 1 is begun anew, which pushes 2 out, and is gone with its only child. -/
theorem entries_wellFormed_unsettled :
    unsettled.Unbegun ⟨0, 500⟩ narrow
    ∧ Leads ⟨0, 500⟩ (Unshared unsettled) (start unsettled narrow) unsettling
    ∧ (unsettling.system.stores.get 0).shelf.evicted = 2
    ∧ held? unsettled unsettling 1 = some [(1, 11)]
    ∧ unsettled.merge.WellFormed 1 [(1, 11)]
    ∧ held? unsettled unsettling.consume 1 = none
    ∧ Integrity unsettled unsettling.consume := by
  have hbegun : unsettled.Unbegun ⟨0, 500⟩ narrow :=
    ⟨rfl, by simp [unsettled, oneByOne, Layer.feeds], rfl, Nat.ne_of_gt (Nat.le_max_right ..), rfl,
      rfl⟩
  have hcomes : Leads ⟨0, 500⟩ (Unshared unsettled) (start unsettled narrow)
      ((start unsettled narrow).come (.start ⟨[.fed ⟨0, 500⟩], 0⟩ [1])) :=
    .single (.comes ⟨rfl, List.suffix_rfl, List.suffix_rfl⟩ rfl)
  have hrun : Leads ⟨0, 500⟩ (Unshared unsettled) (start unsettled narrow) unsettling :=
    Leads.consumes (hcomes.tail (.looks rfl)) 18
  have hsound := entries_wellFormed hbegun rfl (fun _ => rfl) hrun
  have hheld : held? unsettled unsettling 1 = some [(1, 11)] := by decide +kernel
  have hhistory : unsettling.consume.history = unsettling.history ++ [.removed (1, 11)] := by
    decide +kernel
  refine ⟨hbegun, hrun, by decide +kernel, hheld, hsound.wellFormed 1 _ hheld,
    hsound.cleared _ hhistory 1 ?_,
    entries_wellFormed hbegun rfl (fun _ => rfl) (hrun.tail .consumes)⟩
  rw [hheld]
  decide

end Service

end Collate
