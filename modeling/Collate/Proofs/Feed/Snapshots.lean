/-
What lookups see of a feed.

A window gets into the layer with one write, so whenever a lookup reads, the layer holds what the
windows in it come to, and never part of one. Along a run over a store that was empty at first this
is kept as one equation (`Aligned.holds`): the entries are those of the first so many windows, as
many as were counted. While a window is read and folded the count stands still and so do the entries;
that the write makes up for both at once is what the theory of a single consumer says
(`Materialised.worked_writing`).
-/
import Collate.Proofs.Feed.Lifecycle

set_option autoImplicit false

namespace Collate

variable {ι α : Type} [DecidableEq ι]

/-- The layer behind a consumer is one unbounded store without entries, whose calls do not fail. -/
structure Consumer.Blank (c : Consumer ι α) (sys : System ι α) : Prop where
  unfed : c.backing.feeds = []
  unbounded : (sys.stores.get c.backing.store).shelf.capacity? = none
  empty : ∀ id, (sys.stores.get c.backing.store).shelf.contents.get? id = none
  faultless : (sys.stores.get c.backing.store).Faultless

namespace Materialised

variable {c₀ c : Consumer ι α} {windows left : List (List (FeedItem α))} {sys : System ι α}

/-- Items that come in change nothing about what was applied. -/
theorem gathered (h : Materialised c₀ windows left c sys) (collector : Collector (FeedItem α))
    (inlet : Inlet (FeedItem α)) :
    Materialised c₀ windows left { c with collector := collector, inlet := inlet } sys :=
  ⟨h.feed, h.merge, h.backing, h.unbounded, h.faultless, h.knows⟩

/-- A step at a window. -/
theorem step (h : Materialised c₀ windows left c sys) (hunfed : c₀.backing.feeds = [])
    (hstage : c.stage ≠ .gathering) :
    Materialised c₀ windows left (c.step sys).2.1 (c.step sys).2.2 := by
  rw [Consumer.step_of_working hstage]
  exact h.worked hunfed hstage

/-- Reading takes one step. -/
theorem step_reading {lookup : Lookup ι} {changes : List (Change α)} {failure : Option String}
    (h : Materialised c₀ windows left c sys) (hunfed : c₀.backing.feeds = [])
    (hstage : c.stage = .reading lookup changes failure) :
    ∃ updates removals, (c.step sys).2.1.stage = .writing updates removals failure := by
  rw [Consumer.step_of_working (by rw [hstage]; simp)]
  exact (h.worked_reading hunfed hstage).1

/-- What is to be written is written. -/
theorem step_writing {updates : Entries ι (List α)} {removals : List ι} {failure : Option String}
    (h : Materialised c₀ windows left c sys)
    (hstage : c.stage = .writing updates removals failure) :
    (c.step sys).2.1.stage = .applied failure := by
  rw [Consumer.step_of_working (by rw [hstage]; simp)]
  exact (h.worked_writing hstage).1

end Materialised

namespace Service

/-- Nobody but the consumer writes its store: what happens elsewhere changes neither what it holds
nor how it answers. -/
structure Undisturbed (c : Consumer ι α) (sys sys' : System ι α) : Prop
    extends Elsewhere c.feed sys sys' where
  contents : (sys'.stores.get c.backing.store).shelf.contents
    = (sys.stores.get c.backing.store).shelf.contents
  capacity : (sys'.stores.get c.backing.store).shelf.capacity?
    = (sys.stores.get c.backing.store).shelf.capacity?
  faults : (sys'.stores.get c.backing.store).faults = (sys.stores.get c.backing.store).faults

/-- What is kept along a run over a store that was empty at first. -/
structure Aligned (c₀ : Consumer ι α) (t : Service ι α) : Prop where
  merge : t.consumer.merge = c₀.merge
  backing : t.consumer.backing = c₀.backing
  unfed : c₀.backing.feeds = []
  /-- Before the feed is subscribed nothing happened; after that the consumer goes over the windows
  taken up, and over any further ones unless it is done. -/
  fed : t.lifecycle = .unstarted ∧ c₀.Blank t.system
    ∨ t.lifecycle ≠ .unstarted ∧ ∀ left, (t.consumer.stage = .ended → left = []) →
      Materialised c₀ (t.taken ++ left) left t.consumer t.system
  /-- The store holds what the windows in it come to. -/
  holds : c₀.backing.Holds c₀.merge (FeedItem.changes (t.taken.take t.applied).flatten) t.system
  /-- No window is lost at the end. -/
  whole : t.consumer.stage = .ended → t.applied = t.taken.length

variable {c₀ c : Consumer ι α} {ref : FeedRef} {t t' : Service ι α} {v : Visit ι}
  {sys : System ι α}

/-! ## 1. Moves that leave the store alone -/

omit [DecidableEq ι] in
theorem Undisturbed.beside (h : Undisturbed c₀ t.system sys) (hfeed : t.consumer.feed = c₀.feed)
    (hbacking : t.consumer.backing = c₀.backing) : t.consumer.Beside t.system sys :=
  ⟨hbacking ▸ h.contents, hbacking ▸ h.capacity, hbacking ▸ h.faults, hfeed ▸ h.same.lifecycle⟩

/-- What goes on beside the consumer changes nothing for it. -/
theorem Aligned.beside (h : Aligned c₀ t) (hb : t.consumer.Beside t.system sys) :
    Aligned c₀ { t with system := sys } := by
  have hl : ({ t with system := sys } : Service ι α).lifecycle = t.lifecycle := hb.lifecycle
  have hcontents := hb.contents
  have hcapacity := hb.capacity
  have hfaults := hb.faults
  rw [h.backing] at hcontents hcapacity hfaults
  refine ⟨h.merge, h.backing, h.unfed, ?_, fun id => by rw [hcontents]; exact h.holds id, h.whole⟩
  rw [hl]
  refine h.fed.imp (And.imp_right fun hblank => ?_) (And.imp_right fun hfed left hleft => ?_)
  · refine ⟨hblank.unfed, hcapacity.trans hblank.unbounded, fun id => ?_, fun call n => ?_⟩
    · rw [hcontents]
      exact hblank.empty id
    · rw [hfaults]
      exact hblank.faultless call n
  · exact (hfed left hleft).beside hb

theorem Aligned.withVisits (h : Aligned c₀ t) (visits : List (Visit ι)) :
    Aligned c₀ { t with visits := visits } :=
  ⟨h.merge, h.backing, h.unfed, h.fed, h.holds, h.whole⟩

theorem Aligned.moveTo (h : Aligned c₀ t) (hb : t.consumer.Beside t.system sys) :
    Aligned c₀ (t.moveTo sys) := by
  have h' := h.beside hb
  exact ⟨h'.merge, h'.backing, h'.unfed, h'.fed, h'.holds, h'.whole⟩

/-- Items arrive. -/
theorem Aligned.receive (h : Aligned c₀ t) (inlet : Inlet (FeedItem α))
    (brought : List (FeedItem α)) :
    Aligned c₀ { t with consumer := { t.consumer with inlet := inlet }, brought := brought } := by
  refine ⟨h.merge, h.backing, h.unfed, h.fed.imp id (And.imp_right fun hfed left hleft => ?_),
    h.holds, h.whole⟩
  exact (hfed left hleft).gathered t.consumer.collector inlet

/-- A step of a lookup leaves what the store holds as it is. -/
theorem Aligned.looked (h : Aligned c₀ t) (hfeed : c₀.feed = ref.feed) (hsound : Sound ref t)
    (hv : v ∈ t.visits) : Aligned c₀ (t.moveTo (v.lookup.step t.system).2) := by
  have hstep := v.lookup.stepped t.system
  have hcontents := hstep.contents c₀.backing.store
  have hcapacity := hstep.advanced.capacity c₀.backing.store
  have hfaults := hstep.advanced.faults c₀.backing.store
  have hl := hsound.lifecycle_looked hv
  rw [← hsound.feed] at hl
  rcases hl with hsame | ⟨hunstarted, _, hstarting⟩
  · refine h.moveTo ⟨?_, ?_, ?_, hsame⟩ <;> rw [h.backing] <;> assumption
  · -- The feed is subscribed: from now on the consumer goes over its windows.
    have hfits := hsound.stage
    rw [hunstarted] at hfits
    obtain ⟨hstage, htaken, happlied⟩ := hfits.of_unstarted
    obtain ⟨_, hblank⟩ | ⟨hne, _⟩ := h.fed
    · have hl' : (t.moveTo (v.lookup.step t.system).2).lifecycle = .starting := hstarting
      refine ⟨h.merge, h.backing, h.unfed, Or.inr ⟨by rw [hl']; simp, fun left _ => ?_⟩,
        fun id => (congrArg (·.get? id) hcontents).trans (h.holds id), fun hended => ?_⟩
      · refine ⟨hsound.feed.trans hfeed.symm, h.merge, h.backing, hcapacity.trans hblank.unbounded,
          fun call n => ?_, t.taken, rfl, ?_⟩
        · exact (congrFun (congrFun hfaults call) n).trans (hblank.faultless call n)
        · show t.consumer.stage.Knows _ _ _ _ _ _
          rw [hstage, htaken]
          refine ⟨rfl, fun id => ?_, Or.inl ?_⟩
          · exact (congrArg (·.get? id) hcontents).trans (hblank.empty id)
          · rw [hfeed, ← hsound.feed]
            exact hstarting
      · have hended' : t.consumer.stage = .ended := hended
        rw [hstage] at hended'
        cases hended'
    · exact absurd hunstarted hne

/-! ## 2. Steps of the consumer -/

/-- When no window is being read or written, the store holds all that were taken up. -/
theorem Aligned.of_materialised (hmerge : t.consumer.merge = c₀.merge)
    (hbacking : t.consumer.backing = c₀.backing) (hunfed : c₀.backing.feeds = [])
    (hl : t.lifecycle ≠ .unstarted)
    (hfed : ∀ left, (t.consumer.stage = .ended → left = []) →
      Materialised c₀ (t.taken ++ left) left t.consumer t.system)
    (happlied : t.applied = t.taken.length)
    (hstage : t.consumer.stage = .gathering ∨ (∃ failure, t.consumer.stage = .applied failure)
      ∨ t.consumer.stage = .ended) : Aligned c₀ t := by
  refine ⟨hmerge, hbacking, hunfed, Or.inr ⟨hl, hfed⟩, ?_, fun _ => happlied⟩
  obtain ⟨taken, htaken, hknows⟩ := (hfed [] fun _ => rfl).knows
  rw [happlied, List.take_length, List.append_cancel_right htaken]
  rcases hstage with hs | ⟨failure, hs⟩ | hs <;> rw [hs] at hknows
  · exact hknows.2.1
  · exact hknows.2.1
  · exact hknows.1

/-- While a window is being read, neither the store nor the count changes. -/
theorem Aligned.of_same (h : Aligned c₀ t) (hmerge : t'.consumer.merge = t.consumer.merge)
    (hbacking : t'.consumer.backing = t.consumer.backing) (hl : t'.lifecycle ≠ .unstarted)
    (hfed : ∀ left, (t'.consumer.stage = .ended → left = []) →
      Materialised c₀ (t'.taken ++ left) left t'.consumer t'.system)
    (htake : t'.taken.take t'.applied = t.taken.take t.applied)
    (hcontents : (t'.system.stores.get c₀.backing.store).shelf.contents
      = (t.system.stores.get c₀.backing.store).shelf.contents)
    (hstage : t'.consumer.stage ≠ .ended) : Aligned c₀ t' := by
  refine ⟨hmerge.trans h.merge, hbacking.trans h.backing, h.unfed, Or.inr ⟨hl, hfed⟩, fun id => ?_,
    fun hended => absurd hended hstage⟩
  rw [hcontents, htake]
  exact h.holds id

/-- A consumer that sleeps leaves everything as it is. -/
theorem Sound.consume_of_unstarted (h : Sound ref t) (hl : t.lifecycle = .unstarted) :
    t.consume = t := by
  have hfits := h.stage
  rw [hl] at hfits
  have hstage := hfits.of_unstarted.1
  have hunstarted : (t.system.feeds.get t.consumer.feed).lifecycle = .unstarted := hl
  have htakes : t.consumer.takes t.system = none := by
    simp only [Consumer.takes, hstage, if_pos hunstarted]
  have happlies : t.consumer.applies t.system = false := by
    simp only [Consumer.applies, hstage, htakes, Option.any_none]
  unfold consume
  rw [htakes, happlies, h.livesOnce.sleeps hl]
  unfold Service.consumed
  rw [moveTo_of_same (.refl _ _)]
  simp

/-- A window is taken up. It counts as being in the layer when there is nothing to write. -/
theorem Aligned.accepts (h : Aligned c₀ t) (hstage : t.consumer.stage = .gathering)
    (hl : t.lifecycle ≠ .unstarted)
    (hfed : ∀ left, Materialised c₀ (t.taken ++ left) left t.consumer t.system)
    (happlied : t.applied = t.taken.length) {window : List (FeedItem α)}
    {collector : Collector (FeedItem α)} {inlet : Inlet (FeedItem α)}
    (hpull : t.consumer.collector.pull t.consumer.inlet t.system.now t.system.turn
      = (.item window, collector, inlet)) :
    Aligned c₀ (t.consumed (some window) (FeedItem.changes window).isEmpty
      ({ t.consumer with collector := collector, inlet := inlet }.accept window) t.system) := by
  have hs : t.consumer.Stepped t.system _ _ _ _ := .accepts hstage hl hpull
  obtain ⟨_, hmerge, hbacking⟩ := hs.same
  have hl' := (congrArg FeedStatus.lifecycle (status_consumed hs)).trans_ne hl
  have haccepted : ∀ left, Materialised c₀ ((t.taken ++ [window]) ++ left) left
      ({ t.consumer with collector := collector, inlet := inlet }.accept window) t.system := by
    intro left
    rw [List.append_assoc]
    exact ((hfed (window :: left)).gathered collector inlet).accepted hstage
  cases hchanges : FeedItem.changes window with
  | nil =>
    rw [hchanges] at hl'
    refine .of_materialised (hmerge.trans h.merge) (hbacking.trans h.backing) h.unfed hl'
      (fun left _ => haccepted left) ?_ (Or.inr (Or.inl ⟨FeedItem.failure? window, ?_⟩))
    · simp [happlied]
    · simp [Consumer.accept, hchanges]
  | cons change changes =>
    rw [hchanges] at hl'
    refine h.of_same hmerge hbacking hl' (fun left _ => haccepted left) ?_ rfl ?_
    · simp [happlied]
    · simp [Consumer.accept, hchanges]

/-- **A step of the consumer.** It takes a window up, which is not seen; or it reads, which changes
nothing; or it writes, and then the store holds one window more, and the count says so. -/
theorem Aligned.consume (h : Aligned c₀ t) (hsound : Sound ref t) : Aligned c₀ t.consume := by
  have hs := t.consumer.stepped t.system
  have hfits := hsound.stage
  have hfits' := hsound.fits_consumed hs
  obtain ⟨_, hnext⟩ := hsound.lifecycle_consumed hs
  rcases h.fed with ⟨hl, _⟩ | ⟨hl, hfed⟩
  · rw [hsound.consume_of_unstarted hl]
    exact h
  have hl' : t.consume.lifecycle ≠ .unstarted := by
    rw [lifecycle, show t.consume.status = _ from status_consumed hs]
    rcases hnext with hsame | ⟨_, hnext⟩
    · rw [hsame]
      exact hl
    · exact hnext.ne_unstarted
  -- What the theory of a single consumer says of the step.
  have hm := hfed [] fun _ => rfl
  have hworked := fun hstage left hleft => (hfed left hleft).step h.unfed hstage
  have hreading : ∀ {lookup changes failure}, t.consumer.stage = .reading lookup changes failure →
      _ := fun hstage => hm.step_reading h.unfed hstage
  have hwriting : ∀ {updates removals failure},
      t.consumer.stage = .writing updates removals failure → _ := fun hstage => hm.step_writing hstage
  unfold Service.consume at hl' ⊢
  generalize (t.consumer.step t.system).2.1 = c at *
  generalize (t.consumer.step t.system).2.2 = sys at *
  generalize t.consumer.takes t.system = window? at *
  generalize t.consumer.applies t.system = isApplied at *
  cases hs with
  | sleeps _ hunstarted => exact absurd hunstarted hl
  | @gathers hstage hsubscribed collector inlet hpull =>
    rw [hstage] at hfits
    refine .of_materialised h.merge h.backing h.unfed hl' (fun left _ => ?_) ?_ (Or.inl hstage)
    · have hleft := hfed left (by rw [hstage]; simp)
      simpa using hleft.gathered collector inlet
    · simpa using hfits.1
  | @accepts hstage hsubscribed window collector inlet hpull =>
    rw [hstage] at hfits
    exact h.accepts hstage hl (fun left => hfed left (by rw [hstage]; simp)) hfits.1 hpull
  | @completes hstage hsubscribed collector inlet hpull =>
    rw [hstage] at hfits
    refine .of_materialised h.merge h.backing h.unfed hl' (fun left hleft => ?_) ?_
      (Or.inr (Or.inr rfl))
    · obtain rfl := hleft rfl
      have hdone := (hm.gathered collector inlet).completed hstage
      simpa using hdone
    · simpa using hfits.1
  | stalls hstage =>
    obtain ⟨updates, removals, hnext⟩ := hreading hstage
    rw [hstage] at hnext
    cases hnext
  | looks hstage | unread hstage =>
    obtain ⟨updates, removals, hnext⟩ := hreading hstage
    cases hnext
  | @read lookup changes failure found hstage =>
    have hcontents := (lookup.stepped t.system).contents c₀.backing.store
    refine h.of_same rfl rfl hl' (fun left _ => ?_) (by simp) hcontents ?_
    · have hleft := hworked (by rw [hstage]; simp) left (by rw [hstage]; simp)
      simpa using hleft
    · simp
  | unwritten hstage => cases hwriting hstage
  | @written updates removals failure hstage =>
    obtain ⟨rest, window, htaken, _, happlied, _⟩ := hfits'
    refine .of_materialised h.merge h.backing h.unfed hl' (fun left _ => ?_) happlied
      (Or.inr (Or.inl ⟨failure, rfl⟩))
    have hleft := hworked (by rw [hstage]; simp) left (by rw [hstage]; simp)
    simpa using hleft
  | @publishes failure hstage =>
    rw [hstage] at hfits
    obtain ⟨rest, window, _, _, happlied, _⟩ := hfits
    refine .of_materialised h.merge h.backing h.unfed hl' (fun left _ => ?_) ?_ ?_
    · have hleft := hworked (by rw [hstage]; simp) left (by rw [hstage]; simp)
      simpa using hleft
    · simpa using happlied
    · cases failure
      · exact Or.inl rfl
      · exact Or.inr (Or.inr rfl)
  | rests hstage =>
    refine .of_materialised h.merge h.backing h.unfed hl' (fun left hleft => ?_)
      ?_ (Or.inr (Or.inr hstage))
    · simpa using hfed left hleft
    · simpa using h.whole hstage

/-! ## 3. Whole runs -/

theorem Aligned.start (h : c.Unbegun ref sys) (hblank : c.Blank sys) :
    Aligned c (start c sys) := by
  have hl : (Service.start c sys).lifecycle = .unstarted := by
    rw [← h.lifecycle, ← h.feed]
    rfl
  refine ⟨rfl, rfl, hblank.unfed, Or.inl ⟨hl, hblank⟩, hblank.empty, fun hended => ?_⟩
  rw [show (Service.start c sys).consumer.stage = .gathering from h.stage] at hended
  cases hended

theorem Aligned.step (h : Aligned c₀ t) (hfeed : c₀.feed = ref.feed) (hsound : Sound ref t)
    (hstep : Step ref (Undisturbed c₀) t t') : Aligned c₀ t' := by
  cases hstep with
  | comes => exact h.withVisits _
  | @looks before behind v hvisits =>
    have hv : v ∈ t.visits := hvisits ▸ List.mem_append_right _ (List.mem_cons_self ..)
    exact (h.looked hfeed hsound hv).withVisits _
  | @drops before behind v hvisits =>
    refine (h.moveTo ?_).withVisits _
    have hsame := Lookup.sameFeed_unwatch v.lookup t.system t.consumer.feed
    obtain ⟨feeds, hu⟩ := Lookup.unwatch_eq v.lookup t.system
    rw [hu] at hsame ⊢
    exact ⟨rfl, rfl, rfl, hsame.lifecycle⟩
  | consumes => exact h.consume hsound
  | receives => exact h.receive _ _
  | beside hb => exact h.moveTo (hb.beside (hsound.feed.trans hfeed.symm) h.backing)

/-- The store holds whole windows at every moment of a run. -/
theorem Aligned.of_leads (h : Aligned c₀ t) (hfeed : c₀.feed = ref.feed) (hsound : Sound ref t)
    (hrun : Leads ref (Undisturbed c₀) t t') : Sound ref t' ∧ Aligned c₀ t' := by
  have helsewhere : ∀ {sys sys' : System ι α}, Undisturbed c₀ sys sys' →
      Elsewhere ref.feed sys sys' := fun hb => hfeed ▸ hb.toElsewhere
  induction hrun with
  | refl => exact ⟨hsound, h⟩
  | tail _ hstep ih => exact ⟨ih.1.step helsewhere hstep, ih.2.step hfeed ih.1 hstep⟩

/-- No window is taken back or leaves the layer again. -/
theorem Step.grows {elsewhere : System ι α → System ι α → Prop} (hstep : Step ref elsewhere t t') :
    t.applied ≤ t'.applied ∧ t.taken <+: t'.taken := by
  cases hstep with
  | comes | looks | drops | receives | beside => exact ⟨Nat.le_refl _, List.prefix_rfl⟩
  | consumes => exact ⟨Nat.le_add_right .., List.prefix_append ..⟩

theorem Leads.grows {elsewhere : System ι α → System ι α → Prop} (hrun : Leads ref elsewhere t t') :
    t.applied ≤ t'.applied ∧ t.taken <+: t'.taken := by
  induction hrun with
  | refl => exact ⟨Nat.le_refl _, List.prefix_rfl⟩
  | tail _ hstep ih => exact ⟨Nat.le_trans ih.1 hstep.grows.1, ih.2.trans hstep.grows.2⟩

/-- No window is in the layer that was not taken up. -/
theorem Aligned.applied_le (h : Aligned c₀ t) (hsound : Sound ref t) :
    t.applied ≤ t.taken.length := by
  have hfits := hsound.stage
  cases hstage : t.consumer.stage with
  | gathering =>
    rw [hstage] at hfits
    exact Nat.le_of_eq hfits.1
  | reading =>
    rw [hstage] at hfits
    obtain ⟨_, rest, window, htaken, _, happlied, _⟩ := hfits
    rw [happlied, htaken]
    simp
  | writing =>
    rw [hstage] at hfits
    obtain ⟨rest, window, htaken, _, happlied, _⟩ := hfits
    rw [happlied, htaken]
    simp
  | applied =>
    rw [hstage] at hfits
    obtain ⟨rest, window, _, _, happlied, _⟩ := hfits
    exact Nat.le_of_eq happlied
  | ended => exact Nat.le_of_eq (h.whole hstage)

/-! ## 4. What a lookup sees -/

/-- What a lookup that found something has seen. -/
structure Sees (c : Consumer ι α) (ref : FeedRef) (t : Service ι α) (v : Visit ι)
    (found : Found ι α) : Prop where
  /-- Whatever the layer does not hold does not exist. -/
  misses : found.misses = []
  /-- The entries are those that the first so many windows come to. What is behind a failure in its
  window does not count. -/
  hits : ∀ id, found.hits.get? id
    = if id ∈ v.lookup.ids
      then c.merge.folded? (FeedItem.changes (t.taken.take t.applied).flatten) id else none
  /-- All windows that were in the layer when the lookup came are among them. -/
  since : v.since ≤ t.applied
  /-- There is none among them only if the time to wait for one, counted from the subscription, is
  over, or if the feed is complete and brought nothing. -/
  none : t.applied = 0 → (∃ since, t.subscribed = [since] ∧ since + ref.initTimeout ≤ t.system.now)
    ∨ t.lifecycle = .stopped ∧ t.brought = []
  /-- When the feed is complete all windows are among them, and these hold everything it brought. -/
  whole : t.lifecycle = .stopped → t.applied = t.taken.length ∧ t.taken.flatten = t.brought

theorem Aligned.sees (h : Aligned c₀ t) (hsound : Sound ref t) (hv : v ∈ t.visits)
    {found : Found ι α} (hfound : (v.lookup.step t.system).1 = .finished (.ok found)) :
    Sees c₀ ref t v found := by
  have hhosts := hsound.visits v hv
  have hstep := v.lookup.stepped t.system
  rw [hfound] at hstep
  obtain ⟨hhits, hmisses⟩ := hstep.found
  have hstore : v.lookup.layer.store = c₀.backing.store :=
    hhosts.place.store.trans (congrArg Layer.store h.backing)
  -- Only who has passed the feed reads, and whoever was let past it had a reason.
  have hpassed : ¬ v.lookup.WaitsAt t.consumer ref := by
    intro hw
    rw [Lookup.WaitsAt, Lookup.awaiting_of_found hfound] at hw
    cases hw
  obtain ⟨hsubscribed, hreason⟩ := hhosts.admitted hpassed
  refine ⟨?_, fun id => ?_, hhosts.since, fun hzero => ?_, fun hstopped => ?_⟩
  · rw [hmisses]
    refine if_pos ?_
    obtain ⟨outer, hfeeds⟩ := hhosts.place.feeds
    unfold Layer.isAuthoritative
    rw [← hfeeds]
    simp
  · rw [hhits, hstore, h.holds id]
  · refine (hreason.resolve_left fun hne => hne hzero).imp_left fun hdue => ?_
    rcases hsound.dated with ⟨hunstarted, _⟩ | ⟨_, since, hsince, hready⟩
    · exact absurd hunstarted hsubscribed
    · exact ⟨since, hsince, hready ▸ hdue⟩
  · have hfits := hsound.stage
    rw [hfits.isFinished.1 (by rw [hstopped]; rfl)] at hfits
    exact hfits.2 hstopped

/-- **Lookups see whole windows.** In every run of a feed over a store that was empty at first, with
any number of lookups, the windows group what the feed brought; what gets into the layer stays; and
every lookup that is answered has missed nothing and sees just the entries that the first so many
windows come to, where that number never falls. -/
theorem lookups_see_windows (h : c.Unbegun ref sys) (hblank : c.Blank sys)
    (hrun : Leads ref (Undisturbed c) (start c sys) t) :
    t.taken.flatten <+: t.brought ∧ (∀ window ∈ t.taken, window ≠ [])
    ∧ t.applied ≤ t.taken.length
    ∧ (∀ t', Leads ref (Undisturbed c) t t' → t.applied ≤ t'.applied ∧ t.taken <+: t'.taken)
    ∧ ∀ v ∈ t.visits, ∀ found, (v.lookup.step t.system).1 = .finished (.ok found) →
      Sees c ref t v found := by
  obtain ⟨hsound, haligned⟩ := (Aligned.start h hblank).of_leads h.feed (Sound.start h) hrun
  exact ⟨⟨_, hsound.conserved⟩, hsound.filled, haligned.applied_le hsound,
    fun _ hlater => hlater.grows, fun _ hv _ hfound => haligned.sees hsound hv hfound⟩

/-- A lookup subscribes a feed and waits. When the first window is in the layer it is let past the
feed, and sees the child that is there, and none where there is none. -/
theorem lookups_see_windows_first :
    let ref : FeedRef := ⟨0, 500⟩
    let c : Consumer Nat (Nat × Nat) :=
      { feed := 0, merge := ⟨Prod.fst, none⟩, backing := ⟨[], 0⟩
        inlet := .channel [.ok (.updated (1, 10)), .ok (.updated (2, 20))] true false
        collector := .ofSettings {} }
    let l : Lookup Nat := .start ⟨[.fed ref], 0⟩ [1, 3]
    let t := ((((start c {}).come l).look [] ⟨l, 0⟩ []).consume.consume.consume.consume).look []
      ⟨{ l with alarm := some ⟨500, 0, .step⟩ }, 0⟩ []
    c.Unbegun ref {} ∧ c.Blank {} ∧ Leads ref (Undisturbed c) (start c {}) t ∧ t.applied = 1
    ∧ ∃ v ∈ t.visits, v.lookup.ids = [1, 3]
      ∧ ∃ found, (v.lookup.step t.system).1 = .finished (.ok found) ∧ found.misses = []
        ∧ found.hits.get? 1 = some [(1, 10)] ∧ found.hits.get? 3 = none := by
  intro ref c l t
  have hbegun : c.Unbegun ref {} := ⟨rfl, by simp [c, Layer.feeds], rfl, by decide, rfl, rfl⟩
  have hblank : c.Blank {} := ⟨rfl, rfl, fun _ => rfl, fun _ _ => rfl⟩
  have hwaiting : Leads ref (Undisturbed c) (start c {})
      (((start c {}).come l).look [] ⟨l, 0⟩ []) :=
    (Relation.ReflTransGen.single (.comes ⟨rfl, List.suffix_rfl, List.suffix_rfl⟩ rfl)).tail
      (.looks rfl)
  -- The window is taken up, read and written, it is published that the feed runs, and the lookup is
  -- let past it.
  have hrun : Leads ref (Undisturbed c) (start c {}) t :=
    ((((hwaiting.tail .consumes).tail .consumes).tail .consumes).tail .consumes).tail (.looks rfl)
  have happlied : t.applied = 1 := by decide +kernel
  have hwindows : t.taken.take t.applied
      = [[.ok (.updated (1, 10)), .ok (.updated (2, 20))]] := by decide +kernel
  have hreads : ∀ v ∈ t.visits, v.lookup.awaiting = [] ∧ v.lookup.ids = [1, 3]
      ∧ (t.system.read v.lookup.layer v.lookup.ids).1.isOk = true := by decide +kernel
  obtain ⟨v, hv⟩ := List.exists_mem_of_ne_nil t.visits (List.length_pos_iff.1 (by decide +kernel))
  obtain ⟨hawaiting, hids, hok⟩ := hreads v hv
  cases hread : (t.system.read v.lookup.layer v.lookup.ids).1 with
  | error e =>
    rw [hread] at hok
    cases hok
  | ok found =>
    have hfound : (v.lookup.step t.system).1 = .finished (.ok found) := by
      rw [Lookup.step_read hawaiting, hread]
    have hsees := (lookups_see_windows hbegun hblank hrun).2.2.2.2 v hv found hfound
    have hhits := hsees.hits
    rw [hids, hwindows] at hhits
    refine ⟨hbegun, hblank, hrun, happlied, v, hv, hids, found, hfound, hsees.misses, ?_, ?_⟩
    · rw [hhits]
      decide +kernel
    · rw [hhits]
      decide +kernel

end Service

end Collate
