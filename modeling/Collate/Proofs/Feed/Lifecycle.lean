/-
The life of a feed.

In every run of a feed in service, whatever its store does and whoever gives up, the feed is
subscribed once and by a lookup, its lifecycle goes along the arrows and ends for good, it is said to
run only when its first window is in the layer, and lookups fail for its failure or for that of the
layer behind it. All of this is `LivesOnce`, which says for one moment of a run what the next move can
be; since it holds at every moment, it holds of whole runs (`feed_lives_once`).
-/
import Collate.Proofs.Feed.Service

set_option autoImplicit false

namespace Collate.Service

variable {ι α : Type} [DecidableEq ι] {ref : FeedRef} {t t' : Service ι α} {v : Visit ι}
  {sys : System ι α} {elsewhere : System ι α → System ι α → Prop}

/-! ## 1. What a move does to the lifecycle -/

omit [DecidableEq ι] in
theorem Sound.lifecycle_eq (h : Sound ref t) :
    t.lifecycle = (t.system.feeds.get ref.feed).lifecycle := by
  rw [← h.feed]
  rfl

/-- A step of a lookup leaves the feed as it is, or subscribes it. -/
theorem Sound.lifecycle_looked (h : Sound ref t) (hv : v ∈ t.visits) :
    ((v.lookup.step t.system).2.feeds.get ref.feed).lifecycle = t.lifecycle
    ∨ t.lifecycle = .unstarted ∧ v.lookup.WaitsAt t.consumer ref
      ∧ ((v.lookup.step t.system).2.feeds.get ref.feed).lifecycle = .starting := by
  have hlc := h.lifecycle_eq
  by_cases hw : v.lookup.WaitsAt t.consumer ref
  · rw [((Lookup.step_meets hw t.system).2 ref.feed).lifecycle, System.get_subscribe]
    by_cases hl : t.lifecycle = .unstarted
    · exact Or.inr ⟨hl, hw, by rw [FeedStatus.subscribe_of_eq (hlc ▸ hl)]⟩
    · exact Or.inl (by rw [FeedStatus.subscribe_of_ne (hlc ▸ hl), hlc])
  · refine Or.inl ((Lookup.sameFeed_step (fun other ho => ?_) t.system).lifecycle.trans hlc.symm)
    exact h.apart other (((h.visits v hv).place.passed hw).subset ho)

/-- It becomes known that a feed runs when its first window, and only that one, is in the layer. -/
theorem Sound.runs (h : Sound ref t) {c : Consumer ι α}
    {window? : Option (List (FeedItem α))} {isApplied : Bool}
    (hs : t.consumer.Stepped t.system window? isApplied c sys)
    (hrunning : (sys.feeds.get t.consumer.feed).lifecycle = .running)
    (hbefore : t.lifecycle ≠ .running) :
    t.applied = 1
      ∧ ∃ window, t.taken = [window] ∧ window ≠ [] ∧ FeedItem.failure? window = none := by
  have hfits := h.stage
  cases hs with
  | sleeps | gathers | accepts | rests => exact absurd hrunning hbefore
  | stalls hstage | looks hstage | read hstage =>
    exact absurd ((h.same_looked hstage).lifecycle.symm.trans hrunning) hbefore
  | written => exact absurd ((t.same_updated _ _).lifecycle.symm.trans hrunning) hbefore
  | completes | unread | unwritten =>
    rw [System.lifecycle_publish] at hrunning
    cases hrunning
  | @publishes failure hstage =>
    rw [hstage] at hfits
    obtain ⟨rest, window, htaken, hfailure, happlied, hl⟩ := hfits
    rw [lifecycle_published] at hrunning
    cases failure with
    | some cause =>
      unfold Consumer.afterWindow at hrunning
      dsimp only at hrunning
      split at hrunning <;> cases hrunning
    | none =>
      cases rest with
      | cons first rest => exact absurd hl hbefore
      | nil =>
        refine ⟨by rw [happlied, htaken]; rfl, window, htaken, ?_, hfailure.symm⟩
        exact h.filled window (by rw [htaken]; exact List.mem_singleton_self _)

/-- What a move does to the lifecycle: nothing, or a lookup subscribes the feed, or its consumer
publishes. -/
theorem Sound.lifecycle_step
    (helsewhere : ∀ {sys sys'}, elsewhere sys sys' → Elsewhere ref.feed sys sys')
    (h : Sound ref t) (hstep : Step ref elsewhere t t') :
    t'.lifecycle = t.lifecycle
    ∨ t.lifecycle = .unstarted ∧ t'.lifecycle = .starting
      ∧ (∃ v ∈ t.visits, v.lookup.WaitsAt t.consumer ref
        ∧ t'.system = (v.lookup.step t.system).2)
    ∨ t.lifecycle.IsOpen ∧ t.lifecycle.Next t'.lifecycle
      ∧ t'.system = (t.consumer.step t.system).2.2 := by
  have hfeed := h.feed
  cases hstep with
  | comes | receives => exact Or.inl rfl
  | @looks before behind v hvisits =>
    have hv : v ∈ t.visits := hvisits ▸ List.mem_append_right _ (List.mem_cons_self ..)
    have hl := h.lifecycle_looked hv
    rw [← hfeed] at hl
    rcases hl with hsame | ⟨hunstarted, hw, hstarting⟩
    · exact Or.inl hsame
    · exact Or.inr (Or.inl ⟨hunstarted, hstarting, v, hv, hw, rfl⟩)
  | drops => exact Or.inl (Lookup.sameFeed_unwatch ..).lifecycle
  | consumes =>
    have hs := t.consumer.stepped t.system
    have hl : t.consume.lifecycle
        = ((t.consumer.step t.system).2.2.feeds.get t.consumer.feed).lifecycle :=
      congrArg FeedStatus.lifecycle (status_consumed hs)
    rw [hl]
    rcases (h.lifecycle_consumed hs).2 with hsame | ⟨hopen, hnext⟩
    · exact Or.inl hsame
    · exact Or.inr (Or.inr ⟨hopen, hnext, rfl⟩)
  | beside hb =>
    have hsame := (helsewhere hb).same
    rw [← hfeed] at hsame
    exact Or.inl hsame.lifecycle

/-- A move keeps the lifecycle or follows one of the arrows. -/
theorem Sound.next (helsewhere : ∀ {sys sys'}, elsewhere sys sys' → Elsewhere ref.feed sys sys')
    (h : Sound ref t) (hstep : Step ref elsewhere t t') :
    t'.lifecycle = t.lifecycle ∨ t.lifecycle.Next t'.lifecycle := by
  rcases h.lifecycle_step helsewhere hstep with hsame | ⟨hunstarted, hstarting, _⟩ | ⟨_, hnext, _⟩
  · exact Or.inl hsame
  · rw [hunstarted, hstarting]
    exact Or.inr .subscribed
  · exact Or.inr hnext

/-- An end stays. -/
theorem Sound.final (helsewhere : ∀ {sys sys'}, elsewhere sys sys' → Elsewhere ref.feed sys sys')
    (h : Sound ref t) (hfinished : t.lifecycle.isFinished = true)
    (hrun : Leads ref elsewhere t t') : t'.lifecycle = t.lifecycle := by
  induction hrun with
  | refl => rfl
  | tail hrun hstep ih =>
    rcases (h.of_leads helsewhere hrun).next helsewhere hstep with hsame | hnext
    · exact hsame.trans ih
    · have hopen := hnext.isFinished
      rw [ih, hfinished] at hopen
      cases hopen

/-- Only a lookup subscribes the feed. -/
theorem Sound.subscriber
    (helsewhere : ∀ {sys sys'}, elsewhere sys sys' → Elsewhere ref.feed sys sys')
    (h : Sound ref t) (hstep : Step ref elsewhere t t') (hne : t'.subscribed ≠ t.subscribed) :
    ∃ v ∈ t.visits, v.lookup.WaitsAt t.consumer ref ∧ t'.system = (v.lookup.step t.system).2 := by
  -- What is remembered changes with the lifecycle, and only where nobody had come.
  have hchange : t.lifecycle = .unstarted ∧ t'.lifecycle ≠ .unstarted := by
    have hmove : ∀ sys : System ι α, (t.moveTo sys).subscribed ≠ t.subscribed →
        t.lifecycle = .unstarted ∧ (sys.feeds.get t.consumer.feed).lifecycle ≠ .unstarted :=
      fun sys hs => Classical.not_not.1 fun hn => hs (if_neg hn)
    cases hstep with
    | comes | receives => exact absurd rfl hne
    | looks | drops | beside => exact hmove _ hne
    | consumes =>
      obtain ⟨hunstarted, hl⟩ := hmove _ hne
      rw [← (t.consumer.stepped t.system).same.1] at hl
      exact ⟨hunstarted, hl⟩
  rcases h.lifecycle_step helsewhere hstep with hsame | ⟨_, _, hv⟩ | ⟨hopen, _⟩
  · exact absurd (hsame.trans hchange.1) hchange.2
  · exact hv
  · exact absurd hchange.1 hopen.ne_unstarted

/-- It becomes known that a feed runs when its first window is in the layer. -/
theorem Sound.runs_after
    (helsewhere : ∀ {sys sys'}, elsewhere sys sys' → Elsewhere ref.feed sys sys')
    (h : Sound ref t) (hstep : Step ref elsewhere t t') (hrunning : t'.lifecycle = .running)
    (hbefore : t.lifecycle ≠ .running) :
    t.applied = 1
      ∧ ∃ window, t.taken = [window] ∧ window ≠ [] ∧ FeedItem.failure? window = none := by
  have hne : t'.lifecycle ≠ t.lifecycle := fun hsame => hbefore (hsame.symm.trans hrunning)
  rcases h.lifecycle_step helsewhere hstep with hsame | ⟨_, hstarting, _⟩ | ⟨_, _, hsystem⟩
  · exact absurd hsame hne
  · rw [hrunning] at hstarting
    cases hstarting
  · refine h.runs (t.consumer.stepped t.system) ?_ hbefore
    have hfeed : t'.consumer.feed = t.consumer.feed :=
      (h.step helsewhere hstep).feed.trans h.feed.symm
    rw [← hsystem, ← hfeed]
    exact hrunning

/-! ## 2. What can be said of a moment -/

/-- What is true of a feed at one moment, of the next move and of all that follows. -/
structure LivesOnce (ref : FeedRef) (t : Service ι α) : Prop where
  /-- The feed was subscribed once at most, and not as long as nobody came. -/
  once : t.subscribed.length ≤ 1 ∧ (t.subscribed = [] ↔ t.lifecycle = .unstarted)
  /-- A consumer whose feed is not subscribed does nothing at all. -/
  sleeps : t.lifecycle = .unstarted → t.consumer.step t.system = (false, t.consumer, t.system)
  /-- Only a lookup that comes to the feed subscribes it. -/
  subscriber : ∀ t', Step ref (Elsewhere ref.feed) t t' → t'.subscribed ≠ t.subscribed →
    ∃ v ∈ t.visits, v.lookup.WaitsAt t.consumer ref ∧ t'.system = (v.lookup.step t.system).2
  /-- The lifecycle follows the arrows. -/
  arrows : ∀ t', Step ref (Elsewhere ref.feed) t t' →
    t'.lifecycle = t.lifecycle ∨ t.lifecycle.Next t'.lifecycle
  /-- A feed that is complete or has failed stays so. -/
  final : t.lifecycle.isFinished = true →
    ∀ t', Leads ref (Elsewhere ref.feed) t t' → t'.lifecycle = t.lifecycle
  /-- A feed is said to run when one window was taken up, which holds no failure, and that window is
  in the layer. -/
  runs : ∀ t', Step ref (Elsewhere ref.feed) t t' → t'.lifecycle = .running →
    t.lifecycle ≠ .running → t.applied = 1
      ∧ ∃ window, t.taken = [window] ∧ window ≠ [] ∧ FeedItem.failure? window = none
  /-- From the moment a feed has failed, whoever waits for it or comes to it is told why. -/
  refuses : ∀ e, t.lifecycle = .failed e → ∀ t', Leads ref (Elsewhere ref.feed) t t' →
    ∀ v ∈ t'.visits, v.lookup.WaitsAt t'.consumer ref →
      (v.lookup.step t'.system).1 = .finished (.error e)
  /-- A lookup fails because the feed did, or because the layer behind it cannot be read; and then
  the feed is left as it is. -/
  fails : ∀ v ∈ t.visits, ∀ e, (v.lookup.step t.system).1 = .finished (.error e) →
    (v.lookup.WaitsAt t.consumer ref ∧ t.lifecycle = .failed e
      ∨ ¬ v.lookup.WaitsAt t.consumer ref
        ∧ ((v.lookup.within t.consumer.backing).step t.system).1 = .finished (.error e))
    ∧ System.SameFeed ref.feed t.system (v.lookup.step t.system).2
  /-- A lookup that is dropped leaves the feed as it is, and the consumer goes on as before. -/
  drops : ∀ v ∈ t.visits, System.SameFeed ref.feed t.system (v.lookup.unwatch t.system)
    ∧ (v.lookup.unwatch t.system).ready = t.system.ready
    ∧ (t.consumer.step (v.lookup.unwatch t.system)).1 = (t.consumer.step t.system).1
    ∧ (t.consumer.step (v.lookup.unwatch t.system)).2.1 = (t.consumer.step t.system).2.1

/-- A step of a lookup that is subscribed already leaves the feed alone. -/
theorem Sound.same_failed (h : Sound ref t) (hv : v ∈ t.visits) {e : Error}
    (he : (v.lookup.step t.system).1 = .finished (.error e)) :
    System.SameFeed ref.feed t.system (v.lookup.step t.system).2 := by
  by_cases hw : v.lookup.WaitsAt t.consumer ref
  · refine .trans ?_ ((Lookup.step_meets hw t.system).2 ref.feed)
    have hfailed := (Lookup.fails_at hw t.system).1 he
    have hget := System.get_subscribe t.system ref
    rw [FeedStatus.subscribe_of_ne (by rw [hfailed]; simp)] at hget
    constructor <;> rw [hget]
  · refine Lookup.sameFeed_step (fun other ho => h.apart other ?_) t.system
    exact ((h.visits v hv).place.passed hw).subset ho

theorem Sound.livesOnce (h : Sound ref t) : LivesOnce ref t where
  once := by
    rcases h.dated with ⟨hl, hnone⟩ | ⟨hl, since, hone, _⟩
    · exact ⟨by rw [hnone]; exact Nat.zero_le _, iff_of_true hnone hl⟩
    · exact ⟨by rw [hone]; exact Nat.le_refl _, iff_of_false (by rw [hone]; simp) hl⟩
  sleeps hl := by
    have hfits := h.stage
    rw [hl] at hfits
    have hunstarted : (t.system.feeds.get t.consumer.feed).lifecycle = .unstarted := hl
    unfold Consumer.step
    simp only [hfits.of_unstarted.1, hunstarted, if_pos]
  subscriber _ hstep hne := h.subscriber id hstep hne
  arrows _ hstep := h.next id hstep
  final hfinished _ hrun := h.final id hfinished hrun
  runs _ hstep hrunning hbefore := h.runs_after id hstep hrunning hbefore
  refuses e hl t' hrun v _ hw := by
    have hfinal := h.final id (by rw [hl]; rfl) hrun
    exact (Lookup.fails_at hw t'.system).2
      ((h.of_leads id hrun).lifecycle_eq ▸ hfinal.trans hl)
  fails v hv e he := by
    refine ⟨?_, h.same_failed hv he⟩
    by_cases hw : v.lookup.WaitsAt t.consumer ref
    · exact Or.inl ⟨hw, h.lifecycle_eq.trans ((Lookup.fails_at hw t.system).1 he)⟩
    · exact Or.inr ⟨hw, Lookup.fails_within (h.visits v hv).place.store.symm he⟩
  drops v hv := by
    refine ⟨Lookup.sameFeed_unwatch .., ?_⟩
    have hsame := Lookup.sameFeed_unwatch v.lookup t.system
    obtain ⟨feeds, hu⟩ := Lookup.unwatch_eq v.lookup t.system
    rw [hu] at hsame ⊢
    exact ⟨rfl, Consumer.step_congr t.consumer hsame⟩

/-- **A feed lives once.** In every run, with any number of lookups that come, wait and are dropped,
whatever the feed brings and whatever becomes of the stores, the feed is subscribed at most once and
by a lookup, its lifecycle follows the arrows and ends for good, it runs once its first window is in
the layer, and lookups fail for its failure or for that of the layer behind it, and for nothing
else. -/
theorem feed_lives_once {c : Consumer ι α} (h : c.Unbegun ref sys)
    (hrun : Leads ref (Elsewhere ref.feed) (start c sys) t) : LivesOnce ref t :=
  ((Sound.start h).of_leads id hrun).livesOnce

/-- Two lookups wait for a feed whose first window holds a failure. The change in front of it gets
into the layer, and both lookups are refused. -/
theorem feed_lives_once_refused :
    let ref : FeedRef := ⟨0, 500⟩
    let c : Consumer Nat (Nat × Nat) :=
      { feed := 0, merge := ⟨Prod.fst, none⟩, backing := ⟨[], 0⟩
        inlet := .channel [.ok (.updated (1, 10)), .error "gone"] true false
        collector := .ofSettings {} }
    let l : Lookup Nat := .start ⟨[.fed ref], 0⟩ [1]
    let t := (((start c {}).come l).look [] ⟨l, 0⟩ []).come l |>.consume.consume.consume.consume
    c.Unbegun ref {} ∧ Leads ref (Elsewhere ref.feed) (start c {}) t
    ∧ t.applied = 1 ∧ t.visits.length = 2 ∧ t.lifecycle = .failed (.feedInit "gone")
    ∧ ∀ v ∈ t.visits, (v.lookup.step t.system).1 = .finished (.error (.feedInit "gone")) := by
  intro ref c l t
  have hbegun : c.Unbegun ref {} := ⟨rfl, by simp [c, Layer.feeds], rfl, by decide, rfl, rfl⟩
  have hplace : ∀ c' : Consumer Nat (Nat × Nat), c'.backing = ⟨[], 0⟩ →
      l.At c' ref ∧ l.WaitsAt c' ref :=
    fun c' hc => Lookup.at_start (by rw [hc]) (by rw [hc]; rfl) [1]
  have hsubscribed : Leads ref (Elsewhere ref.feed) (start c {})
      (((start c {}).come l).look [] ⟨l, 0⟩ []) :=
    (Relation.ReflTransGen.single (.comes (hplace _ rfl).1 (hplace _ rfl).2)).tail (.looks rfl)
  have hsecond := hsubscribed.tail (.comes (hplace _ rfl).1 (hplace _ rfl).2)
  -- The window is taken up, read and written, and then it is published that the feed failed.
  have hfailed : Leads ref (Elsewhere ref.feed) (start c {}) t :=
    (((hsecond.tail .consumes).tail .consumes).tail .consumes).tail .consumes
  have hwaits : ∀ v ∈ t.visits, v.lookup.WaitsAt t.consumer ref := by decide +kernel
  have hl : t.lifecycle = .failed (.feedInit "gone") := by decide +kernel
  refine ⟨hbegun, hfailed, by decide +kernel, by decide +kernel, hl, fun v hv => ?_⟩
  exact (feed_lives_once hbegun hfailed).refuses _ hl _ .refl v hv (hwaits v hv)

end Collate.Service
