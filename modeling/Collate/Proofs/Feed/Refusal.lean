/-
A store that refuses a call of the consumer behind it.

A window touches the store twice: the entries of its ids are read, and what they become is written
with one update. If either call fails the store holds what the windows before left in it, and
nothing of this one; the feed has failed with the store's error, the consumer is over, and whoever
comes later is told why. So what the store holds is at every moment what the windows counted as
applied leave of what it held at first (`Merge.Leaves`), and after a failure that is all it will
ever hold. A lookup whose own read fails is another matter: it goes, and the feed does not know.

The store may be of any kind. What windows leave of a bounded one depends on which of its ids were
used last, and lookups use them too; so `Leaves` says that windows follow one another on shelves of
one capacity. On an unbounded shelf it determines every entry (`Leaves.get?_unbounded`).
-/
import Collate.Proofs.Feed.Forgetting

set_option autoImplicit false

namespace Collate

variable {ι α : Type} [DecidableEq ι]

/-! ## 1. What windows leave -/

namespace Merge

/-- What windows leave of the entries a shelf had at first: each is folded into what the ones before
it left. A window without changes is not written. -/
inductive Leaves (m : Merge ι α) (capacity? : Option Nat) (initial : Entries ι (List α)) :
    List (List (FeedItem α)) → Entries ι (List α) → Prop where
  | nothing : Leaves m capacity? initial [] initial
  | idle {windows : List (List (FeedItem α))} {contents : Entries ι (List α)}
      {window : List (FeedItem α)} (h : Leaves m capacity? initial windows contents)
      (hidle : FeedItem.changes window = []) :
      Leaves m capacity? initial (windows ++ [window]) contents
  | folded {windows : List (List (FeedItem α))} {shelf : Shelf ι (List α)}
      {window : List (FeedItem α)} {hits : Entries ι (List α)} {batch : List (ι × List α)}
      (h : Leaves m capacity? initial windows shelf.contents)
      (hcapacity : shelf.capacity? = capacity?)
      (hhits : ∀ id, hits.get? id = if id ∈ distinct (m.idsOf (FeedItem.changes window))
        then shelf.contents.get? id else none)
      (hbatch : batch.Perm (m.updatesOf hits (FeedItem.changes window)).pairs) :
      Leaves m capacity? initial (windows ++ [window])
        (shelf.update batch (m.removalsOf hits (FeedItem.changes window))).contents

/-- **What windows leave, entry by entry**, when nothing is evicted. -/
theorem Leaves.get?_unbounded {m : Merge ι α} {initial contents : Entries ι (List α)}
    {windows : List (List (FeedItem α))} (h : m.Leaves none initial windows contents) (id : ι) :
    contents.get? id = m.continued? initial (windows.flatMap FeedItem.changes) id := by
  induction h with
  | nothing => simp [continued?, idsOf]
  | @idle windows contents window _ hidle ih =>
    rw [ih, List.flatMap_append, List.flatMap_singleton, hidle, List.append_nil]
  | @folded windows shelf window hits batch _ hcapacity hhits hbatch ih =>
    rw [Shelf.get?_update_continued hcapacity hhits hbatch, List.flatMap_append,
      List.flatMap_singleton, continued?_append, ← ih]
    rfl

end Merge

/-! ## 2. A call that fails -/

namespace Consumer

/-- What a consumer keeps its entries on. -/
def shelf (c : Consumer ι α) (sys : System ι α) : Shelf ι (List α) :=
  (sys.stores.get c.backing.store).shelf

/-- The failure that the consumer meets with its next step, in a call of its layer. -/
def refusal? (c : Consumer ι α) (sys : System ι α) : Option Error :=
  match c.stage with
  | .reading lookup _ _ =>
    match (lookup.step sys).1 with
    | .finished (.error e) => some e
    | _ => none
  | .writing updates removals _ =>
    match (sys.update c.backing updates removals).1 with
    | .error e => some e
    | .ok _ => none
  | _ => none

variable {c : Consumer ι α} {sys : System ι α} {e : Error}

/-- The consumer gives up, and that is published. -/
theorem step_of_refusal (h : c.refusal? sys = some e) :
    c.takes sys = none ∧ c.applies sys = false ∧ (c.step sys).2.1 = { c with stage := .ended }
    ∧ ((c.step sys).2.2.feeds.get c.feed).lifecycle = .failed e := by
  unfold refusal? at h
  cases hstage : c.stage with
  | gathering | applied | ended =>
    rw [hstage] at h
    cases h
  | reading lookup changes failure =>
    simp only [hstage] at h
    simp only [takes, applies, step, work, hstage]
    rcases hstep : lookup.step sys with ⟨_ | lookup' | (e' | found), sys'⟩ <;>
      rw [hstep] at h <;> cases h
    exact ⟨trivial, trivial, rfl, System.lifecycle_publish ..⟩
  | writing updates removals failure =>
    simp only [hstage] at h
    simp only [takes, applies, step, work, hstage]
    rcases hupdate : sys.update c.backing updates removals with ⟨e' | _, sys'⟩ <;>
      rw [hupdate] at h <;> cases h
    exact ⟨trivial, rfl, rfl, System.lifecycle_publish ..⟩

/-- Over a layer without feeds of its own it is the store that fails. -/
theorem refusal?_store (h : c.refusal? sys = some e)
    (hawaiting : ∀ lookup changes failure, c.stage = .reading lookup changes failure →
      lookup.awaiting = []) : ∃ cause, e = .store cause := by
  unfold refusal? at h
  cases hstage : c.stage with
  | gathering | applied | ended =>
    rw [hstage] at h
    cases h
  | reading lookup changes failure =>
    simp only [hstage] at h
    rw [Lookup.step_read (hawaiting _ _ _ hstage)] at h
    rcases System.read_cases sys lookup.layer lookup.ids with ⟨cause, herror, _⟩ | ⟨hok, _⟩
    · rw [herror] at h
      cases h
      exact ⟨cause, rfl⟩
    · rw [hok] at h
      cases h
  | writing updates removals failure =>
    simp only [hstage] at h
    rcases System.update_cases sys c.backing updates removals with ⟨cause, herror, _⟩ | ⟨_, _, hok, _⟩
    · rw [herror] at h
      cases h
      exact ⟨cause, rfl⟩
    · rw [hok] at h
      cases h

end Consumer

/-! ## 3. What the store holds along a run -/

namespace Service

/-- What is kept along a run over any store: it holds what the windows counted as applied leave of
what it held at first. -/
structure Settled (c₀ : Consumer ι α) (sys₀ : System ι α) (t : Service ι α) : Prop where
  merge : t.consumer.merge = c₀.merge
  backing : t.consumer.backing = c₀.backing
  stage : t.consumer.stage.Carries c₀.merge c₀.backing t.taken t.system
  capacity : (c₀.shelf t.system).capacity? = (c₀.shelf sys₀).capacity?
  leaves : c₀.merge.Leaves (c₀.shelf sys₀).capacity? (c₀.shelf sys₀).contents
    (t.taken.take t.applied) (c₀.shelf t.system).contents

variable {c₀ c : Consumer ι α} {ref : FeedRef} {t t' : Service ι α} {v : Visit ι}
  {sys₀ sys : System ι α}

theorem Settled.moveTo (h : Settled c₀ sys₀ t)
    (hcontents : (c₀.shelf sys).contents = (c₀.shelf t.system).contents)
    (hcapacity : (c₀.shelf sys).capacity? = (c₀.shelf t.system).capacity?) :
    Settled c₀ sys₀ (t.moveTo sys) := by
  refine ⟨h.merge, h.backing, h.stage.of_contents hcontents, hcapacity.trans h.capacity, ?_⟩
  show c₀.merge.Leaves _ _ _ (c₀.shelf sys).contents
  rw [hcontents]
  exact h.leaves

theorem Settled.withVisits (h : Settled c₀ sys₀ t) (visits : List (Visit ι)) :
    Settled c₀ sys₀ { t with visits := visits } :=
  ⟨h.merge, h.backing, h.stage, h.capacity, h.leaves⟩

/-- **A step of the consumer.** What it writes is what the last window leaves of what was held when
the window was taken up, for nobody else has written since. -/
theorem Settled.consume (h : Settled c₀ sys₀ t) (hsound : Sound ref t) :
    Settled c₀ sys₀ t.consume := by
  have hs := t.consumer.stepped t.system
  obtain ⟨_, hmerge, hbacking⟩ := hs.same
  have hcarries := Stage.Carries.stepped h.merge h.backing h.stage hs
  have hfits := hsound.stage
  have hleaves := h.leaves
  have hstore := hs.on_store
  rw [h.backing] at hstore
  unfold Service.consume
  rcases hstore with ⟨hnone, hfalse, hsame⟩ | ⟨window, hstage, hsome, hempty, hsys⟩
    | ⟨updates, removals, failure, batch, hstage, hnone, htrue, hperm, hshelf⟩
  · rw [hnone] at hcarries
    rw [hnone, hfalse]
    refine ⟨hmerge.trans h.merge, hbacking.trans h.backing, hcarries,
      hsame.capacity.trans h.capacity, ?_⟩
    have hcontents : (c₀.shelf (t.consumer.step t.system).2.2).contents
        = (c₀.shelf t.system).contents := hsame.contents
    simpa [hcontents] using hleaves
  · rw [hstage] at hfits
    rw [hfits.1, List.take_length] at hleaves
    rw [hsome] at hcarries
    rw [hsome, hempty]
    rw [hsys] at hcarries ⊢
    refine ⟨hmerge.trans h.merge, hbacking.trans h.backing, hcarries, h.capacity, ?_⟩
    rw [taken_consumed, applied_consumed, hfits.1, system_consumed, Option.toList_some]
    cases hchanges : FeedItem.changes window with
    | nil =>
      rw [List.take_of_length_le (by simp)]
      exact .idle hleaves hchanges
    | cons change changes =>
      rw [List.take_left' (by simp)]
      exact hleaves
  · have hread := h.stage
    rw [hstage] at hfits hread
    obtain ⟨rest, window, hits, htaken, _, _, hhits, rfl, rfl⟩ := hread
    obtain ⟨rest', window', htaken', _, happlied, _⟩ := hfits
    obtain ⟨rfl, _⟩ : rest = rest' ∧ _ := List.append_inj' (htaken.symm.trans htaken') rfl
    rw [happlied, htaken, List.take_left] at hleaves
    rw [hnone] at hcarries
    rw [hnone, htrue]
    have hafter : c₀.shelf (t.consumer.step t.system).2.2
        = (c₀.shelf t.system).update batch (c₀.merge.removalsOf hits (FeedItem.changes window)) :=
      hshelf
    refine ⟨hmerge.trans h.merge, hbacking.trans h.backing, hcarries, ?_, ?_⟩
    · rw [system_consumed, hafter, Shelf.capacity?_update, h.capacity]
    · rw [taken_consumed, applied_consumed, system_consumed, hafter, happlied, htaken,
        List.take_of_length_le (by simp), Option.toList_none, List.append_nil]
      exact .folded hleaves h.capacity hhits hperm

theorem Settled.start (h : c.Unbegun ref sys) : Settled c sys (start c sys) := by
  refine ⟨rfl, rfl, ?_, rfl, .nothing⟩
  show c.stage.Carries c.merge c.backing [] sys
  rw [h.stage]
  rfl

theorem Settled.step (h : Settled c₀ sys₀ t) (hsound : Sound ref t)
    (hstep : Step ref (Undisturbed c₀) t t') : Settled c₀ sys₀ t' := by
  cases hstep with
  | comes => exact h.withVisits _
  | @looks before behind v =>
    have hsame := v.lookup.sameEntries_step t.system c₀.backing.store
    exact (h.moveTo hsame.contents hsame.capacity).withVisits _
  | @drops before behind v =>
    obtain ⟨feeds, hu⟩ := Lookup.unwatch_eq v.lookup t.system
    exact (h.moveTo (by rw [hu]; rfl) (by rw [hu]; rfl)).withVisits _
  | consumes => exact h.consume hsound
  | receives => exact ⟨h.merge, h.backing, h.stage, h.capacity, h.leaves⟩
  | beside hb => exact h.moveTo hb.contents hb.capacity

theorem Settled.of_leads (h : Settled c₀ sys₀ t) (hfeed : c₀.feed = ref.feed)
    (hsound : Sound ref t) (hrun : Leads ref (Undisturbed c₀) t t') :
    Sound ref t' ∧ Settled c₀ sys₀ t' := by
  have helsewhere : ∀ {sys sys' : System ι α}, Undisturbed c₀ sys sys' →
      Elsewhere ref.feed sys sys' := fun hb => hfeed ▸ hb.toElsewhere
  induction hrun with
  | refl => exact ⟨hsound, h⟩
  | tail _ hstep ih => exact ⟨ih.1.step helsewhere hstep, ih.2.step ih.1 hstep⟩

/-! ## 4. After the consumer is over -/

/-- The consumer is over, and as much is taken up, applied and held as before. -/
structure Rests (c₀ : Consumer ι α) (t t' : Service ι α) : Prop where
  stage : t'.consumer.stage = .ended
  backing : t'.consumer.backing = c₀.backing
  taken : t'.taken = t.taken
  applied : t'.applied = t.applied
  contents : (c₀.shelf t'.system).contents = (c₀.shelf t.system).contents

/-- A consumer that is over touches nothing, and nobody else writes. -/
theorem Rests.step {t₀ : Service ι α} (h : Rests c₀ t₀ t)
    (hstep : Step ref (Undisturbed c₀) t t') : Rests c₀ t₀ t' := by
  cases hstep with
  | comes => exact ⟨h.stage, h.backing, h.taken, h.applied, h.contents⟩
  | @looks before behind v =>
    have hsame := v.lookup.sameEntries_step t.system c₀.backing.store
    exact ⟨h.stage, h.backing, h.taken, h.applied, hsame.contents.trans h.contents⟩
  | @drops before behind v =>
    obtain ⟨feeds, hu⟩ := Lookup.unwatch_eq v.lookup t.system
    refine ⟨h.stage, h.backing, h.taken, h.applied, Eq.trans ?_ h.contents⟩
    show (c₀.shelf (v.lookup.unwatch t.system)).contents = _
    rw [hu]
    rfl
  | consumes =>
    have hstep : t.consumer.step t.system = (false, t.consumer, t.system) := by
      simp only [Consumer.step, Consumer.work, h.stage]
    have hquiet : t.consumer.takes t.system = none ∧ t.consumer.applies t.system = false := by
      simp only [Consumer.takes, Consumer.applies, h.stage]
      exact ⟨trivial, trivial⟩
    unfold consume
    rw [hstep, hquiet.1, hquiet.2]
    exact ⟨h.stage, h.backing, by simpa using h.taken, by simpa using h.applied, h.contents⟩
  | receives => exact absurd h.stage ‹_›
  | beside hb => exact ⟨h.stage, h.backing, h.taken, h.applied, hb.contents.trans h.contents⟩

theorem Rests.of_leads {t₀ : Service ι α} (h : Rests c₀ t₀ t)
    (hrun : Leads ref (Undisturbed c₀) t t') : Rests c₀ t₀ t' := by
  induction hrun with
  | refl => exact h
  | tail _ hstep ih => exact ih.step hstep

/-! ## 5. At a window boundary -/

/-- What becomes of a feed whose layer refuses its consumer a call. -/
structure StopsAtWindow (ref : FeedRef) (c : Consumer ι α) (e : Error) (t : Service ι α) : Prop where
  /-- It is the store that fails, unless the layer has feeds of its own. -/
  cause : c.backing.feeds = [] → ∃ cause, e = .store cause
  /-- The call belongs to the window after those applied, the last one taken up. -/
  window : ∃ window, t.taken = t.taken.take t.applied ++ [window]
  /-- The feed has failed for good, and what the windows before it left stays. -/
  failed : ∀ t', Leads ref (Undisturbed c) t.consume t' → t'.lifecycle = .failed e ∧ Rests c t t'
  /-- Whoever comes is told why. -/
  told : ∀ t', Leads ref (Undisturbed c) t.consume t' → ∀ l : Lookup ι,
    l.WaitsAt t'.consumer ref → (l.step t'.system).1 = .finished (.error e)

/-- The window at hand is the last one taken up, and the first that is not applied. -/
theorem Sound.window_at_hand (h : Sound ref t) {e : Error}
    (he : t.consumer.refusal? t.system = some e) :
    ∃ window, t.taken = t.taken.take t.applied ++ [window] := by
  have hfits := h.stage
  unfold Consumer.refusal? at he
  cases hstage : t.consumer.stage with
  | gathering | applied | ended =>
    rw [hstage] at he
    cases he
  | reading =>
    rw [hstage] at hfits
    obtain ⟨_, rest, window, htaken, _, happlied, _⟩ := hfits
    exact ⟨window, by rw [happlied, htaken, List.take_left]⟩
  | writing =>
    rw [hstage] at hfits
    obtain ⟨rest, window, htaken, _, happlied, _⟩ := hfits
    exact ⟨window, by rw [happlied, htaken, List.take_left]⟩

theorem Settled.stops (h : Settled c sys₀ t) (hfeed : c.feed = ref.feed) (hsound : Sound ref t)
    {e : Error} (he : t.consumer.refusal? t.system = some e) : StopsAtWindow ref c e t := by
  have helsewhere : ∀ {sys sys' : System ι α}, Undisturbed c sys sys' →
      Elsewhere ref.feed sys sys' := fun hb => hfeed ▸ hb.toElsewhere
  obtain ⟨htakes, happlies, hconsumer, hlifecycle⟩ := Consumer.step_of_refusal he
  have hs := t.consumer.stepped t.system
  have hconsumed := hsound.consumed hs
  have hl : t.consume.lifecycle = .failed e :=
    (congrArg FeedStatus.lifecycle (status_consumed hs)).trans hlifecycle
  -- The step that fails counts nothing, so it leaves the store alone.
  have hsame : System.SameEntries c.backing.store t.system (t.consumer.step t.system).2.2 := by
    rcases hs.on_store with ⟨_, _, hsame⟩ | ⟨_, _, hsome, _⟩ | ⟨_, _, _, _, _, _, htrue, _⟩
    · rw [h.backing] at hsame
      exact hsame
    · rw [htakes] at hsome
      cases hsome
    · rw [happlies] at htrue
      cases htrue
  have hrests : Rests c t t.consume := by
    unfold Service.consume
    rw [htakes, happlies, hconsumer]
    exact ⟨rfl, h.backing, List.append_nil _, rfl, hsame.contents⟩
  have hfailed : ∀ t', Leads ref (Undisturbed c) t.consume t' → t'.lifecycle = .failed e :=
    fun t' hrun => (hconsumed.final helsewhere (hl ▸ rfl) hrun).trans hl
  refine ⟨fun hunfed => ?_, hsound.window_at_hand he, fun t' hrun => ⟨hfailed t' hrun,
    hrests.of_leads hrun⟩, fun t' hrun l hw => ?_⟩
  · refine Consumer.refusal?_store he fun lookup changes failure hstage => ?_
    have hfits := hsound.stage
    rw [hstage, h.backing] at hfits
    exact List.suffix_nil.1 (hunfed ▸ hfits.1)
  · have hlater := hconsumed.of_leads helsewhere hrun
    exact (Lookup.fails_at hw t'.system).2 (hlater.lifecycle_eq ▸ hfailed t' hrun)

/-- **A failing store stops a feed at a window boundary.** In every run of a feed over any store,
whatever it held at first, with any number of lookups, the store holds what the windows applied leave
of that. If a call that the consumer makes for a window fails, the store keeps what the windows before
it left and never gets anything of this one or a later one, the feed has failed with that error for
good, and every lookup that comes is refused with it. If a read that a lookup makes fails, that lookup
is gone, and nothing else is different. -/
theorem store_failure_stops_feed (h : c.Unbegun ref sys)
    (hrun : Leads ref (Undisturbed c) (start c sys) t) :
    c.merge.Leaves (c.shelf sys).capacity? (c.shelf sys).contents (t.taken.take t.applied)
      (c.shelf t.system).contents
    ∧ ((c.shelf sys).capacity? = none → ∀ id, (c.shelf t.system).contents.get? id
      = c.merge.continued? (c.shelf sys).contents
        ((t.taken.take t.applied).flatMap FeedItem.changes) id)
    ∧ (∀ e, t.consumer.refusal? t.system = some e → StopsAtWindow ref c e t)
    ∧ ∀ before v behind e, t.visits = before ++ v :: behind → ¬ v.lookup.WaitsAt t.consumer ref →
      (v.lookup.step t.system).1 = .finished (.error e) →
      t.look before v behind
        = { t with system := (v.lookup.step t.system).2, visits := before ++ behind }
      ∧ (t.look before v behind).lifecycle = t.lifecycle
      ∧ (c.shelf (t.look before v behind).system).contents = (c.shelf t.system).contents := by
  obtain ⟨hsound, hsettled⟩ := (Settled.start h).of_leads h.feed (Sound.start h) hrun
  refine ⟨hsettled.leaves, fun hcap id => ?_, fun e he => ?_, fun before v behind e hvisits hw he => ?_⟩
  · have hleaves := hsettled.leaves
    rw [hcap] at hleaves
    exact hleaves.get?_unbounded id
  · exact hsettled.stops h.feed hsound he
  · have hv : v ∈ t.visits := hvisits ▸ List.mem_append_right _ (List.mem_cons_self ..)
    have hsame := hsound.same_failed hv he
    rw [← hsound.feed] at hsame
    have hlook : t.look before v behind
        = { t with system := (v.lookup.step t.system).2, visits := before ++ behind } := by
      unfold look
      rw [moveTo_of_same hsame, he]
      rfl
    refine ⟨hlook, ?_, (v.lookup.sameEntries_step t.system c.backing.store).contents⟩
    rw [hlook]
    exact hsame.lifecycle

/-- The store held an entry for 5. Its second update fails, and so does its third get. -/
def faulty : System Nat (Nat × Nat) :=
  { stores := .ofList .fresh [{
      shelf := .unbounded (.ofList [(5, [(5, 50)])])
      faults := fun call n => match call, n with
        | .update, 2 => some "full"
        | .get, 3 => some "busy"
        | _, _ => none }] }

/-- The first window is in the layer and a lookup is past the feed. What the second window comes to is
about to be written, and the lookup is about to read. -/
def aboutToWrite : Service Nat (Nat × Nat) :=
  let l : Lookup Nat := .start ⟨[.fed ⟨0, 500⟩], 0⟩ [1]
  let running := Nat.repeat consume 4
    (((start (oneByOne ⟨Prod.fst, none⟩) faulty).come l).look [] ⟨l, 0⟩ [])
  Nat.repeat consume 2 (running.look [] ⟨{ l with alarm := some ⟨500, 0, .step⟩ }, 0⟩ [])

/-- The update fails: the layer keeps the entry it had and that of the first window, for good. Were it
the lookup's turn, its read would fail instead, and the feed would go on. -/
theorem store_failure_stops_feed_second_window :
    let ref : FeedRef := ⟨0, 500⟩
    let c := oneByOne ⟨Prod.fst, none⟩
    let t := aboutToWrite
    let v : Visit Nat := ⟨{ layer := ⟨[.fed ref], 0⟩, ids := [1], awaiting := [] }, 0⟩
    c.Unbegun ref faulty ∧ Leads ref (Undisturbed c) (start c faulty) t
    ∧ t.applied = 1 ∧ (c.shelf t.system).contents.pairs = [(5, [(5, 50)]), (1, [(1, 10)])]
    ∧ t.consumer.refusal? t.system = some (.store "full")
    ∧ (∀ t', Leads ref (Undisturbed c) t.consume t' → t'.lifecycle = .failed (.store "full")
      ∧ (c.shelf t'.system).contents = (c.shelf t.system).contents
      ∧ ∀ l : Lookup Nat, l.WaitsAt t'.consumer ref →
        (l.step t'.system).1 = .finished (.error (.store "full")))
    ∧ t.visits = [v] ∧ (v.lookup.step t.system).1 = .finished (.error (.store "busy"))
    ∧ (t.look [] v []).visits = [] ∧ (t.look [] v []).lifecycle = .running := by
  intro ref c t v
  have hbegun : c.Unbegun ref faulty :=
    ⟨rfl, by simp [c, oneByOne, Layer.feeds], rfl, Nat.ne_of_gt (Nat.le_max_right ..), rfl, rfl⟩
  have hcomes : Leads ref (Undisturbed c) (start c faulty)
      ((start c faulty).come (.start ⟨[.fed ref], 0⟩ [1])) :=
    .single (.comes ⟨rfl, List.suffix_rfl, List.suffix_rfl⟩ rfl)
  have hrun : Leads ref (Undisturbed c) (start c faulty) t :=
    Leads.consumes ((Leads.consumes (hcomes.tail (.looks rfl)) 4).tail (.looks rfl)) 2
  have hrefusal : t.consumer.refusal? t.system = some (.store "full") := by decide +kernel
  have hvisits : t.visits = [v] := rfl
  have hbusy : (v.lookup.step t.system).1 = .finished (.error (.store "busy")) := by
    rw [Lookup.step_read rfl]
    rfl
  obtain ⟨_, _, hstops, halone⟩ := store_failure_stops_feed hbegun hrun
  have hfull := hstops _ hrefusal
  obtain ⟨hlook, hlifecycle, _⟩ := halone [] v [] _ hvisits (by decide) hbusy
  refine ⟨hbegun, hrun, by decide +kernel, by decide +kernel, hrefusal,
    fun t' hlater => ⟨(hfull.failed t' hlater).1, (hfull.failed t' hlater).2.contents,
      hfull.told t' hlater⟩, hvisits, hbusy, ?_, ?_⟩
  · rw [hlook]
    rfl
  · exact hlifecycle.trans (by decide +kernel)

end Service

end Collate
