/-
How a feed that fails is reported.

A feed that fails before it ran is told from one that fails later. What decides between the two is
the window the failure is in: a failure in the first window counts as one before the feed ran,
although the changes in front of it in that window are applied like any others. So a feed that never
ran may have changed its store; only when nothing stands in front of the failure the store is as it
was. What is known along a course is how many windows are done with, and that none of them failed
(`Stage.Reports`); store and windows are arbitrary.
-/
import Collate.Proofs.Feed.Service

set_option autoImplicit false

namespace Collate

variable {ι α : Type}

/-! ## 1. What is reported -/

/-- How a feed ends that went over these windows, if its layer did not fail. -/
def Lifecycle.verdict : List (List (FeedItem α)) → Lifecycle
  | [] => .stopped
  | first :: later =>
    match FeedItem.failure? first, FeedItem.failure? later.flatten with
    | some cause, _ => .failed (.feedInit cause)
    | none, some cause => .failed (.feed cause)
    | none, none => .stopped

theorem Lifecycle.verdict_of_none {windows : List (List (FeedItem α))}
    (h : FeedItem.failure? windows.flatten = none) : verdict windows = .stopped := by
  cases windows with
  | nil => rfl
  | cons first later =>
    rw [List.flatten_cons, FeedItem.failure?_append, Option.or_eq_none_iff] at h
    simp only [verdict, h.1, h.2]

/-- The first window that has a failure decides. What it is decided by is how many windows were done
with in front of it. -/
theorem Lifecycle.verdict_of_some {before : List (List (FeedItem α))} {window : List (FeedItem α)}
    {cause : String} (hbefore : FeedItem.failure? before.flatten = none)
    (hwindow : FeedItem.failure? window = some cause) (left : List (List (FeedItem α))) :
    verdict (before ++ window :: left)
      = Consumer.afterWindow (.afterWindows before.length) (some cause) := by
  cases before with
  | nil => simp only [List.nil_append, verdict, hwindow]; rfl
  | cons first rest =>
    rw [List.flatten_cons, FeedItem.failure?_append, Option.or_eq_none_iff] at hbefore
    have hlater : FeedItem.failure? (rest ++ window :: left).flatten = some cause := by
      rw [List.flatten_append, List.flatten_cons, FeedItem.failure?_append,
        FeedItem.failure?_append, hbefore.2, hwindow]
      rfl
    simp only [List.cons_append, verdict, hbefore.1, hlater]
    rfl

theorem Lifecycle.verdict_eq_feedInit {windows : List (List (FeedItem α))} {cause : String}
    (h : verdict windows = .failed (.feedInit cause)) :
    ∃ first later, windows = first :: later ∧ FeedItem.failure? first = some cause := by
  unfold verdict at h
  split at h
  · cases h
  · rename_i first later
    refine ⟨first, later, rfl, ?_⟩
    split at h
    · cases h
      assumption
    · cases h
    · cases h

theorem Lifecycle.verdict_eq_feed {windows : List (List (FeedItem α))} {cause : String}
    (h : verdict windows = .failed (.feed cause)) :
    ∃ first later, windows = first :: later ∧ FeedItem.failure? first = none
      ∧ FeedItem.failure? later.flatten = some cause := by
  unfold verdict at h
  split at h
  · cases h
  · rename_i first later
    refine ⟨first, later, rfl, ?_⟩
    split at h
    · cases h
    · cases h
      exact ⟨by assumption, by assumption⟩
    · cases h

/-- The layer's store holds what it held. -/
def Layer.Untouched [DecidableEq ι] (layer : Layer) (sys₀ sys : System ι α) : Prop :=
  ∀ id, (sys.stores.get layer.store).shelf.contents.get? id
    = (sys₀.stores.get layer.store).shelf.contents.get? id

/-- A consumer whose feed was just subscribed, over any store. -/
structure Consumer.Subscribed (c : Consumer ι α) (sys : System ι α) : Prop where
  stage : c.stage = .gathering
  unfed : c.backing.feeds = []
  starting : (sys.feeds.get c.feed).lifecycle = .starting

/-! ## 2. What is known at each stage -/

/-- What is known when the windows `taken` were taken up and those `left` were not: of those done
with none has failed, and the lifecycle says whether there are any. The store was left alone if
there was nothing to apply. -/
def Stage.Reports (lifecycle : Lifecycle) (taken left : List (List (FeedItem α)))
    (untouched : Prop) : Stage ι α → Prop
  | .gathering => FeedItem.failure? taken.flatten = none
    ∧ lifecycle = .afterWindows taken.length ∧ (FeedItem.changes taken.flatten = [] → untouched)
  | .reading lookup _ failure => lookup.awaiting = [] ∧ ∃ before window, taken = before ++ [window]
    ∧ FeedItem.failure? before.flatten = none ∧ failure = FeedItem.failure? window
    ∧ lifecycle = .afterWindows before.length ∧ FeedItem.changes window ≠ []
    ∧ (FeedItem.changes before.flatten = [] → untouched)
  | .writing _ _ failure => ∃ before window, taken = before ++ [window]
    ∧ FeedItem.failure? before.flatten = none ∧ failure = FeedItem.failure? window
    ∧ lifecycle = .afterWindows before.length ∧ FeedItem.changes window ≠ []
    ∧ (FeedItem.changes before.flatten = [] → untouched)
  | .applied failure => ∃ before window, taken = before ++ [window]
    ∧ FeedItem.failure? before.flatten = none ∧ failure = FeedItem.failure? window
    ∧ lifecycle = .afterWindows before.length ∧ (FeedItem.changes taken.flatten = [] → untouched)
  | .ended => (lifecycle = .verdict (taken ++ left) ∨ ∃ text, lifecycle = .failed (.store text))
    ∧ (FeedItem.changes taken.flatten = [] → untouched)

theorem Stage.Reports.mono {stage : Stage ι α} {lifecycle : Lifecycle}
    {taken left : List (List (FeedItem α))} {untouched untouched' : Prop}
    (h : stage.Reports lifecycle taken left untouched) (hu : untouched → untouched') :
    stage.Reports lifecycle taken left untouched' := by
  cases stage with
  | gathering => exact ⟨h.1, h.2.1, hu ∘ h.2.2⟩
  | reading lookup changes failure =>
    obtain ⟨hawaiting, before, window, htaken, hb, hf, hl, hw, huntouched⟩ := h
    exact ⟨hawaiting, before, window, htaken, hb, hf, hl, hw, hu ∘ huntouched⟩
  | writing updates removals failure =>
    obtain ⟨before, window, htaken, hb, hf, hl, hw, huntouched⟩ := h
    exact ⟨before, window, htaken, hb, hf, hl, hw, hu ∘ huntouched⟩
  | applied failure =>
    obtain ⟨before, window, htaken, hb, hf, hl, huntouched⟩ := h
    exact ⟨before, window, htaken, hb, hf, hl, hu ∘ huntouched⟩
  | ended => exact ⟨h.1, hu ∘ h.2⟩

variable [DecidableEq ι]

/-- What is kept along a course. -/
structure Reported (c₀ : Consumer ι α) (sys₀ : System ι α) (windows left : List (List (FeedItem α)))
    (c : Consumer ι α) (sys : System ι α) : Prop where
  feed : c.feed = c₀.feed
  backing : c.backing = c₀.backing
  reports : ∃ taken, windows = taken ++ left
    ∧ c.stage.Reports (sys.feeds.get c₀.feed).lifecycle taken left (c₀.backing.Untouched sys₀ sys)

namespace Reported

variable {c₀ c : Consumer ι α} {sys₀ sys sys' : System ι α}
  {windows left : List (List (FeedItem α))}

omit [DecidableEq ι] in
/-- A window with changes in it, and none failed in front of it, leaves something to apply. -/
theorem changes_ne_nil {before : List (List (FeedItem α))} {window : List (FeedItem α)}
    (hbefore : FeedItem.failure? before.flatten = none) (hwindow : FeedItem.changes window ≠ []) :
    FeedItem.changes (before ++ [window]).flatten ≠ [] := by
  rw [List.flatten_append, List.flatten_singleton, FeedItem.changes_append, hbefore]
  simp [hwindow]

theorem begun (h : c₀.Subscribed sys₀) : Reported c₀ sys₀ windows windows c₀ sys₀ := by
  refine ⟨rfl, rfl, [], rfl, ?_⟩
  rw [h.stage]
  exact ⟨rfl, h.starting, fun _ _ => rfl⟩

theorem accepted (h₀ : c₀.Subscribed sys₀) {window : List (FeedItem α)}
    (h : Reported c₀ sys₀ windows (window :: left) c sys) (hstage : c.stage = .gathering) :
    Reported c₀ sys₀ windows left (c.accept window) sys := by
  obtain ⟨taken, hwindows, hreports⟩ := h.reports
  rw [hstage] at hreports
  obtain ⟨hfailure, hlifecycle, huntouched⟩ := hreports
  have hwindows' : windows = (taken ++ [window]) ++ left := by rw [hwindows]; simp
  unfold Consumer.accept
  dsimp only
  split
  · rename_i hchanges
    refine ⟨h.feed, h.backing, taken ++ [window], hwindows', taken, window, rfl, hfailure, rfl,
      hlifecycle, fun hnone => huntouched ?_⟩
    rw [List.flatten_append, FeedItem.changes_append] at hnone
    exact (List.append_eq_nil_iff.1 hnone).1
  · rename_i change rest hchanges
    refine ⟨h.feed, h.backing, taken ++ [window], hwindows', ?_, taken, window, rfl, hfailure, rfl,
      hlifecycle, by simp [hchanges], huntouched⟩
    show c.backing.feeds = []
    rw [h.backing, h₀.unfed]

theorem completed (h : Reported c₀ sys₀ windows [] c sys) (hstage : c.stage = .gathering) :
    Reported c₀ sys₀ windows [] { c with stage := .ended } (sys.publish c.feed .stopped) := by
  obtain ⟨taken, hwindows, hreports⟩ := h.reports
  rw [hstage] at hreports
  obtain ⟨hfailure, _, huntouched⟩ := hreports
  refine ⟨h.feed, h.backing, taken, hwindows, Or.inl ?_, fun hnone id => ?_⟩
  · rw [← h.feed, System.lifecycle_publish, List.append_nil, Lifecycle.verdict_of_none hfailure]
  · rw [System.stores_publish]
    exact huntouched hnone id

/-- A layer that fails ends the feed, and the window at hand had something to apply. -/
theorem givenUp (h : Reported c₀ sys₀ windows left c sys) {text : String}
    {before : List (List (FeedItem α))} {window : List (FeedItem α)}
    (hwindows : windows = (before ++ [window]) ++ left)
    (hbefore : FeedItem.failure? before.flatten = none) (hwindow : FeedItem.changes window ≠ []) :
    Reported c₀ sys₀ windows left { c with stage := .ended }
      (sys'.publish c.feed (.failed (.store text))) := by
  refine ⟨h.feed, h.backing, before ++ [window], hwindows, Or.inr ⟨text, ?_⟩, fun hnone => ?_⟩
  · rw [← h.feed, System.lifecycle_publish]
  · exact absurd hnone (changes_ne_nil hbefore hwindow)

/-- Reading fails with the store, or changes neither what the store holds nor the lifecycle. -/
theorem worked_reading {lookup : Lookup ι} {changes : List (Change α)} {failure : Option String}
    (h : Reported c₀ sys₀ windows left c sys)
    (hstage : c.stage = .reading lookup changes failure) :
    Reported c₀ sys₀ windows left (c.work sys).2.1 (c.work sys).2.2 := by
  obtain ⟨taken, hwindows, hreports⟩ := h.reports
  rw [hstage] at hreports
  obtain ⟨hawaiting, before, window, rfl, hbefore, hfailure, hlifecycle, hwindow, huntouched⟩ :=
    hreports
  have hcontents := System.contents_read sys lookup.layer lookup.ids c₀.backing.store
  obtain ⟨log, hread⟩ := System.read_eq sys lookup.layer lookup.ids
  have hfeeds : (sys.read lookup.layer lookup.ids).2.feeds = sys.feeds := by rw [hread]
  have hcases := System.read_cases sys lookup.layer lookup.ids
  unfold Consumer.work
  simp only [hstage, Lookup.step_read hawaiting]
  rcases hcases with ⟨text, hresult, _⟩ | ⟨hresult, _⟩
  · rw [hresult]
    exact h.givenUp hwindows hbefore hwindow
  · rw [hresult]
    refine ⟨h.feed, h.backing, before ++ [window], hwindows, before, window, rfl, hbefore, hfailure,
      ?_, hwindow, fun hnone id => ?_⟩
    · rw [hfeeds]
      exact hlifecycle
    · rw [hcontents]
      exact huntouched hnone id

/-- Writing fails with the store, or something was applied. -/
theorem worked_writing {updates : Entries ι (List α)} {removals : List ι} {failure : Option String}
    (h : Reported c₀ sys₀ windows left c sys)
    (hstage : c.stage = .writing updates removals failure) :
    Reported c₀ sys₀ windows left (c.work sys).2.1 (c.work sys).2.2 := by
  obtain ⟨taken, hwindows, hreports⟩ := h.reports
  rw [hstage] at hreports
  obtain ⟨before, window, rfl, hbefore, hfailure, hlifecycle, hwindow, _⟩ := hreports
  obtain ⟨log, hupdate⟩ := System.update_eq sys c.backing updates removals
  have hfeeds : (sys.update c.backing updates removals).2.feeds = sys.feeds := by rw [hupdate]
  have hcases := System.update_cases sys c.backing updates removals
  unfold Consumer.work
  simp only [hstage]
  generalize sys.update c.backing updates removals = out at hfeeds hcases ⊢
  obtain ⟨result, sys'⟩ := out
  rcases hcases with ⟨text, rfl, _⟩ | ⟨batch, _, rfl, _⟩
  · exact h.givenUp hwindows hbefore hwindow
  · refine ⟨h.feed, h.backing, before ++ [window], hwindows, before, window, rfl, hbefore, hfailure,
      ?_, fun hnone => absurd hnone (changes_ne_nil hbefore hwindow)⟩
    dsimp only at hfeeds ⊢
    rw [hfeeds]
    exact hlifecycle

/-- When a window is done with it is published what follows. -/
theorem worked_applied {failure : Option String} (h : Reported c₀ sys₀ windows left c sys)
    (hstage : c.stage = .applied failure) :
    Reported c₀ sys₀ windows left (c.work sys).2.1 (c.work sys).2.2 := by
  obtain ⟨taken, hwindows, hreports⟩ := h.reports
  rw [hstage] at hreports
  obtain ⟨before, window, rfl, hbefore, hfailure, hlifecycle, huntouched⟩ := hreports
  have hpublished := Service.lifecycle_published sys c.feed
    (Consumer.afterWindow (sys.feeds.get c.feed).lifecycle failure)
  have hstores : (if (sys.feeds.get c.feed).lifecycle
        = Consumer.afterWindow (sys.feeds.get c.feed).lifecycle failure then sys
      else sys.publish c.feed
        (Consumer.afterWindow (sys.feeds.get c.feed).lifecycle failure)).stores = sys.stores := by
    split
    · rfl
    · exact System.stores_publish ..
  unfold Consumer.work
  simp only [hstage]
  generalize (if (sys.feeds.get c.feed).lifecycle
        = Consumer.afterWindow (sys.feeds.get c.feed).lifecycle failure then sys
      else sys.publish c.feed
        (Consumer.afterWindow (sys.feeds.get c.feed).lifecycle failure)) = sys'
    at hpublished hstores ⊢
  rw [h.feed, hlifecycle] at hpublished
  have huntouched' : FeedItem.changes (before ++ [window]).flatten = [] →
      c₀.backing.Untouched sys₀ sys' := by
    intro hnone id
    rw [hstores]
    exact huntouched hnone id
  refine ⟨h.feed, h.backing, before ++ [window], hwindows, ?_⟩
  rw [hpublished]
  cases hf : failure with
  | none =>
    rw [hf] at hfailure
    refine ⟨?_, ?_, huntouched'⟩
    · rw [List.flatten_append, List.flatten_singleton, FeedItem.failure?_append, hbefore,
        ← hfailure]
      rfl
    · rw [List.length_append]
      rfl
  | some cause =>
    rw [hf] at hfailure
    refine ⟨Or.inl ?_, huntouched'⟩
    rw [List.append_assoc]
    exact (Lifecycle.verdict_of_some hbefore hfailure.symm left).symm

theorem worked (h : Reported c₀ sys₀ windows left c sys) (hstage : c.stage ≠ .gathering) :
    Reported c₀ sys₀ windows left (c.work sys).2.1 (c.work sys).2.2 := by
  cases hs : c.stage with
  | gathering => exact absurd hs hstage
  | reading lookup changes failure => exact h.worked_reading hs
  | writing updates removals failure => exact h.worked_writing hs
  | applied failure => exact h.worked_applied hs
  | ended =>
    have hwork : c.work sys = (false, c, sys) := by
      unfold Consumer.work
      rw [hs]
    rw [hwork]
    exact h

theorem beside (h : Reported c₀ sys₀ windows left c sys) (hb : c.Beside sys sys') :
    Reported c₀ sys₀ windows left c sys' := by
  obtain ⟨taken, hwindows, hreports⟩ := h.reports
  have hlifecycle : (sys'.feeds.get c₀.feed).lifecycle = (sys.feeds.get c₀.feed).lifecycle := by
    rw [← h.feed]
    exact hb.lifecycle
  refine ⟨h.feed, h.backing, taken, hwindows, ?_⟩
  rw [hlifecycle]
  refine hreports.mono fun huntouched id => ?_
  rw [← h.backing, hb.contents, h.backing]
  exact huntouched id

theorem of_course (h₀ : c₀.Subscribed sys₀) (h : c₀.Course sys₀ windows left c sys) :
    Reported c₀ sys₀ windows left c sys := by
  induction h with
  | begun => exact begun h₀
  | accepted _ hstage ih => exact ih.accepted h₀ hstage
  | completed _ hstage ih => exact ih.completed hstage
  | worked _ hstage ih => exact ih.worked hstage
  | gathered _ _ _ ih => exact ⟨ih.feed, ih.backing, ih.reports⟩
  | beside _ hb ih => exact ih.beside hb

/-- A feed fails when its consumer ends, and not before. -/
theorem ended_of_failed (h : Reported c₀ sys₀ windows left c sys) {e : Error}
    (hfailed : (sys.feeds.get c₀.feed).lifecycle = .failed e) : c.stage = .ended := by
  obtain ⟨taken, _, hreports⟩ := h.reports
  rw [hfailed] at hreports
  have hopen : ∀ n, Lifecycle.failed e ≠ .afterWindows n := fun n hn => by cases n <;> cases hn
  cases hstage : c.stage with
  | gathering =>
    rw [hstage] at hreports
    exact absurd hreports.2.1 (hopen _)
  | reading =>
    rw [hstage] at hreports
    obtain ⟨_, _, _, _, _, _, hlifecycle, _⟩ := hreports
    exact absurd hlifecycle (hopen _)
  | writing | applied =>
    rw [hstage] at hreports
    obtain ⟨_, _, _, _, _, hlifecycle, _⟩ := hreports
    exact absurd hlifecycle (hopen _)
  | ended => rfl

/-- At the end the windows decide, or the store did. -/
theorem verdict (h : Reported c₀ sys₀ windows left c sys) (hended : c.stage = .ended) :
    (sys.feeds.get c₀.feed).lifecycle = .verdict windows
    ∨ ∃ text, (sys.feeds.get c₀.feed).lifecycle = .failed (.store text) := by
  obtain ⟨taken, rfl, hreports⟩ := h.reports
  rw [hended] at hreports
  exact hreports.1

/-- Where nothing stands in front of the first failure the store is left alone. -/
theorem untouched (h : Reported c₀ sys₀ windows left c sys)
    (hnone : FeedItem.changes windows.flatten = []) : c₀.backing.Untouched sys₀ sys := by
  obtain ⟨taken, rfl, hreports⟩ := h.reports
  have hfront : ∀ before rest : List (FeedItem α), FeedItem.changes (before ++ rest) = [] →
      FeedItem.changes before = [] := by
    intro before rest hn
    rw [FeedItem.changes_append] at hn
    exact (List.append_eq_nil_iff.1 hn).1
  rw [List.flatten_append] at hnone
  have htaken := hfront _ _ hnone
  cases hstage : c.stage with
  | gathering =>
    rw [hstage] at hreports
    exact hreports.2.2 htaken
  | reading =>
    rw [hstage] at hreports
    obtain ⟨_, before, window, rfl, _, _, _, _, huntouched⟩ := hreports
    rw [List.flatten_append] at htaken
    exact huntouched (hfront _ _ htaken)
  | writing =>
    rw [hstage] at hreports
    obtain ⟨before, window, rfl, _, _, _, _, huntouched⟩ := hreports
    rw [List.flatten_append] at htaken
    exact huntouched (hfront _ _ htaken)
  | applied =>
    rw [hstage] at hreports
    obtain ⟨before, window, rfl, _, _, _, huntouched⟩ := hreports
    exact huntouched htaken
  | ended =>
    rw [hstage] at hreports
    exact hreports.2 htaken

end Reported

/-! ## 3. Initial failures -/

/-- **The window of a failure decides how it is reported.** Over any windows and any store, a feed
that is reported to have failed before it ran failed in its first window; and the store, if that
began without entries and never fails or evicts, then holds what stands in front of the failure in
that window. It is as it was if nothing does. A feed that is reported to have failed later went over
its first window without a failure. And so it is reported, unless the store fails. -/
theorem failure_reported_by_window {c₀ c : Consumer ι α} {sys₀ sys : System ι α}
    {windows left : List (List (FeedItem α))} (h : c₀.Subscribed sys₀)
    (hcourse : c₀.Course sys₀ windows left c sys) :
    (∀ cause, (sys.feeds.get c₀.feed).lifecycle = .failed (.feedInit cause) →
      ∃ first later, windows = first :: later ∧ FeedItem.failure? first = some cause
        ∧ (c₀.Fresh sys₀ → c₀.backing.Holds c₀.merge (FeedItem.changes first) sys)
        ∧ (FeedItem.changes first = [] → c₀.backing.Untouched sys₀ sys))
    ∧ (∀ cause, (sys.feeds.get c₀.feed).lifecycle = .failed (.feed cause) →
      ∃ first later, windows = first :: later ∧ FeedItem.failure? first = none
        ∧ FeedItem.failure? later.flatten = some cause)
    ∧ (c.stage = .ended → (sys.feeds.get c₀.feed).lifecycle = .verdict windows
      ∨ ∃ text, (sys.feeds.get c₀.feed).lifecycle = .failed (.store text)) := by
  have hreported := Reported.of_course h hcourse
  have hverdict : ∀ {e}, (sys.feeds.get c₀.feed).lifecycle = .failed e →
      (∀ text, e ≠ .store text) → Lifecycle.verdict windows = .failed e := by
    intro e hfailed hstore
    rcases hreported.verdict (hreported.ended_of_failed hfailed) with hv | ⟨text, ht⟩
    · exact hv.symm.trans hfailed
    · exact absurd (Lifecycle.failed.inj (hfailed.symm.trans ht)) (hstore text)
  refine ⟨fun cause hfailed => ?_, fun cause hfailed => ?_, hreported.verdict⟩
  · have hended := hreported.ended_of_failed hfailed
    obtain ⟨first, later, rfl, hfirst⟩ :=
      Lifecycle.verdict_eq_feedInit (hverdict hfailed fun text ht => by cases ht)
    have hchanges : FeedItem.changes (first :: later).flatten = FeedItem.changes first := by
      rw [List.flatten_cons, FeedItem.changes_append, hfirst]
      simp
    refine ⟨first, later, rfl, hfirst, fun hfresh => ?_, fun hnone => ?_⟩
    · rw [← hchanges]
      exact ((Materialised.of_course hfresh hcourse).prefix_held.2 hended).1
    · exact hreported.untouched (hchanges.trans hnone)
  · exact Lifecycle.verdict_eq_feed (hverdict hfailed fun text ht => by cases ht)

/-- The same failure behind the same change, once in a window of its own: it is reported as one of a
feed that ran. -/
theorem failure_reported_by_window_of_its_own :
    let c₀ : Consumer Nat (Nat × Nat) :=
      { feed := 0, merge := ⟨Prod.fst, none⟩, backing := ⟨[], 0⟩, inlet := .ofTimes [] none
        collector := .ofSettings {} }
    let sys₀ : System Nat (Nat × Nat) := { feeds := .ofList {} [{ lifecycle := .starting }] }
    c₀.Subscribed sys₀ ∧ ∃ left c sys,
      c₀.Course sys₀ [[.ok (.updated (1, 10))], [.error "boom"]] left c sys ∧ c.stage = .ended
      ∧ (sys.feeds.get 0).lifecycle = .failed (.feed "boom") := by
  intro c₀ sys₀
  have hsubscribed : c₀.Subscribed sys₀ := ⟨rfl, rfl, rfl⟩
  have hfresh : c₀.Fresh sys₀ := ⟨rfl, rfl, rfl, rfl, fun _ => rfl, fun _ _ => rfl⟩
  have hbegun : c₀.Course sys₀ [[.ok (.updated (1, 10))], [.error "boom"]] _ c₀ sys₀ := .begun
  obtain ⟨left, c, sys, hcourse, hended⟩ := Materialised.exists_ended hfresh hbegun hfresh.stage
  refine ⟨hsubscribed, left, c, sys, hcourse, hended, ?_⟩
  rcases (failure_reported_by_window hsubscribed hcourse).2.2 hended with hverdict | ⟨text, hstore⟩
  · exact hverdict
  · -- The store never fails here.
    have hends := ((Materialised.of_course hfresh hcourse).prefix_held.2 hended).2
    rw [hstore] at hends
    rcases hends with hends | hends <;> cases hends

/-- Both in one window: the feed is reported to have failed before it ran, and yet the child it
brought is in the store. -/
theorem failed_before_it_ran_after_a_change :
    let c₀ : Consumer Nat (Nat × Nat) :=
      { feed := 0, merge := ⟨Prod.fst, none⟩, backing := ⟨[], 0⟩
        inlet := .ofTimes [(0, .ok (.updated (1, 10))), (0, .error "boom")] none
        collector := .ofSettings {} }
    let sys₀ : System Nat (Nat × Nat) := { feeds := .ofList {} [{ lifecycle := .starting }] }
    ∃ c sys, c₀.Run sys₀ c sys ∧ (sys.feeds.get 0).lifecycle = .failed (.feedInit "boom")
      ∧ (sys₀.stores.get 0).shelf.contents.get? 1 = none
      ∧ (sys.stores.get 0).shelf.contents.get? 1 = some [(1, 10)] := by
  intro c₀ sys₀
  -- The window is asked for while it is open, and once more when its time is over.
  have hwaits : c₀.Run sys₀ (c₀.step sys₀).2.1 (c₀.step sys₀).2.2 := Consumer.Run.begun.stepped
  have hlater : c₀.Run sys₀ (c₀.step sys₀).2.1 { sys₀ with now := 1000 } :=
    hwaits.beside ⟨rfl, rfl, rfl, rfl⟩
  refine ⟨_, _, hlater.stepped.stepped.stepped.stepped, ?_, rfl, ?_⟩ <;> decide +kernel

end Collate
