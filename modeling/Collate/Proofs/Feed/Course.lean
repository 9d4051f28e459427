/-
The course a consumer takes over windows that are given to it.

Which windows a consumer takes up is decided by its collector and by when the feed's items come in.
A course leaves both aside: any grouping of a feed's items into windows may be given, the consumer
takes them up one after the other, and other things go on between any two of its steps. Every run of
a consumer over an inlet is a course over some grouping of the inlet's items (`Run.course`), so what
holds on all courses holds on all runs, whatever the sizes, delays and times of arrival.
-/
import Collate.Proofs.Gathering
import Collate.Proofs.Feed.Batch

set_option autoImplicit false

namespace Collate.Consumer

variable {ι α : Type} [DecidableEq ι]

/-! ## 1. What goes on beside a consumer -/

omit [DecidableEq ι] in
/-- Beside a consumer nobody changes what its backing holds or how it answers, and nobody changes
how far the feed has come. The order of use may change, for lookups read the backing. -/
structure Beside (c : Consumer ι α) (sys sys' : System ι α) : Prop where
  contents : (sys'.stores.get c.backing.store).shelf.contents
    = (sys.stores.get c.backing.store).shelf.contents
  capacity : (sys'.stores.get c.backing.store).shelf.capacity?
    = (sys.stores.get c.backing.store).shelf.capacity?
  faults : (sys'.stores.get c.backing.store).faults = (sys.stores.get c.backing.store).faults
  lifecycle : (sys'.feeds.get c.feed).lifecycle = (sys.feeds.get c.feed).lifecycle

/-! ## 2. Courses and runs -/

/-- A course over given windows, with those that were not taken up yet. -/
inductive Course (c₀ : Consumer ι α) (sys₀ : System ι α) (windows : List (List (FeedItem α))) :
    List (List (FeedItem α)) → Consumer ι α → System ι α → Prop where
  | begun : Course c₀ sys₀ windows windows c₀ sys₀
  /-- A window is taken up when the one before it is done with. -/
  | accepted {window : List (FeedItem α)} {left : List (List (FeedItem α))} {c : Consumer ι α}
      {sys : System ι α} (h : Course c₀ sys₀ windows (window :: left) c sys)
      (hstage : c.stage = .gathering) : Course c₀ sys₀ windows left (c.accept window) sys
  /-- The feed is complete when no window is left. -/
  | completed {c : Consumer ι α} {sys : System ι α} (h : Course c₀ sys₀ windows [] c sys)
      (hstage : c.stage = .gathering) :
      Course c₀ sys₀ windows [] { c with stage := .ended } (sys.publish c.feed .stopped)
  /-- A window that was taken up is worked on, one step at a time. -/
  | worked {left : List (List (FeedItem α))} {c : Consumer ι α} {sys : System ι α}
      (h : Course c₀ sys₀ windows left c sys) (hstage : c.stage ≠ .gathering) :
      Course c₀ sys₀ windows left (c.work sys).2.1 (c.work sys).2.2
  /-- Items come in. -/
  | gathered {left : List (List (FeedItem α))} {c : Consumer ι α} {sys : System ι α}
      (h : Course c₀ sys₀ windows left c sys) (collector : Collector (FeedItem α))
      (inlet : Inlet (FeedItem α)) :
      Course c₀ sys₀ windows left { c with collector := collector, inlet := inlet } sys
  /-- Something else goes on. -/
  | beside {left : List (List (FeedItem α))} {c : Consumer ι α} {sys sys' : System ι α}
      (h : Course c₀ sys₀ windows left c sys) (hb : c.Beside sys sys') :
      Course c₀ sys₀ windows left c sys'

/-- A run of a consumer over its inlet: it takes steps, and other things go on between them. -/
inductive Run (c₀ : Consumer ι α) (sys₀ : System ι α) : Consumer ι α → System ι α → Prop where
  | begun : Run c₀ sys₀ c₀ sys₀
  | stepped {c : Consumer ι α} {sys : System ι α} (h : Run c₀ sys₀ c sys) :
      Run c₀ sys₀ (c.step sys).2.1 (c.step sys).2.2
  | beside {c : Consumer ι α} {sys sys' : System ι α} (h : Run c₀ sys₀ c sys)
      (hb : c.Beside sys sys') : Run c₀ sys₀ c sys'

/-! ## 3. A run is a course -/

/-- What is kept along a run: the windows taken up so far, the buffer and what is still to come in
are the items of the feed, and the run is a course over these windows and any further ones, or the
feed is complete. -/
structure Grouped (c₀ : Consumer ι α) (sys₀ : System ι α) (items : List (FeedItem α))
    (windows : List (List (FeedItem α))) (c : Consumer ι α) (sys : System ι α) : Prop where
  size : c.collector.size ≠ 0
  filled : ∀ window ∈ windows, window ≠ []
  conserved : windows.flatten ++ (c.collector.buffer ++ c.inlet.payload) = items
  course : (∀ left, Course c₀ sys₀ (windows ++ left) left c sys)
    ∨ c.stage = .ended ∧ windows.flatten = items ∧ Course c₀ sys₀ windows [] c sys

omit [DecidableEq ι] in
theorem accept_eq (c : Consumer ι α) (window : List (FeedItem α)) [DecidableEq ι] :
    (c.accept window).collector = c.collector ∧ (c.accept window).inlet = c.inlet := by
  unfold accept
  dsimp only
  split <;> exact ⟨rfl, rfl⟩

theorem work_eq (c : Consumer ι α) (sys : System ι α) :
    (c.work sys).2.1.collector = c.collector ∧ (c.work sys).2.1.inlet = c.inlet := by
  unfold work
  split
  · split <;> exact ⟨rfl, rfl⟩
  · split <;> exact ⟨rfl, rfl⟩
  · exact ⟨rfl, rfl⟩
  · exact ⟨rfl, rfl⟩
  · exact ⟨rfl, rfl⟩

theorem step_of_working {c : Consumer ι α} (h : c.stage ≠ .gathering) (sys : System ι α) :
    c.step sys = c.work sys := by
  unfold step
  split
  · contradiction
  · rfl

/-- One step of a consumer keeps the grouping, and takes up at most one window more. -/
theorem Grouped.step {c₀ c : Consumer ι α} {sys₀ sys : System ι α} {items : List (FeedItem α)}
    {windows : List (List (FeedItem α))} (h : Grouped c₀ sys₀ items windows c sys) :
    ∃ windows', Grouped c₀ sys₀ items windows' (c.step sys).2.1 (c.step sys).2.2 := by
  by_cases hstage : c.stage = .gathering
  · have hcourse : ∀ left, Course c₀ sys₀ (windows ++ left) left c sys := by
      rcases h.course with hc | ⟨hended, _⟩
      · exact hc
      · rw [hstage] at hended
        cases hended
    unfold Consumer.step
    simp only [hstage]
    split
    · exact ⟨windows, h⟩
    · -- The window a collector hands out is the next window of the course.
      have hcons := Collector.pull_conserves c.collector c.inlet sys.now sys.turn
      split
      · rename_i window collector inlet hpull
        rw [hpull] at hcons
        have hne := Collector.pull_item h.size (congrArg Prod.fst hpull)
        refine ⟨windows ++ [window], ?_, ?_, ?_, Or.inl fun left => ?_⟩
        · rw [(accept_eq _ window).1]
          exact hcons.size ▸ h.size
        · intro w hw
          rcases List.mem_append.1 hw with hw | hw
          · exact h.filled w hw
          · exact List.mem_singleton.1 hw ▸ hne.1
        · rw [(accept_eq _ window).1, (accept_eq _ window).2, List.flatten_append,
            List.flatten_singleton, List.append_assoc, ← h.conserved, ← hcons.items]
          rfl
        · have hc := (hcourse (window :: left)).gathered collector inlet
          rw [List.append_assoc]
          exact hc.accepted hstage
      · rename_i collector inlet hpull
        rw [hpull] at hcons
        obtain ⟨hbuf, hpay⟩ := hcons.ended rfl
        have hflat : windows.flatten = items := by
          have hitems := hcons.items
          rw [hbuf, hpay] at hitems
          rw [← h.conserved, ← hitems]
          simp [Pull.items]
        refine ⟨windows, hcons.size ▸ h.size, h.filled, ?_, Or.inr ⟨rfl, hflat, ?_⟩⟩
        · rw [← h.conserved, ← hcons.items]
          rfl
        · have hc := (hcourse []).gathered collector inlet
          rw [List.append_nil] at hc
          exact hc.completed hstage
      · rename_i collector inlet hpull
        rw [hpull] at hcons
        refine ⟨windows, hcons.size ▸ h.size, h.filled, ?_, Or.inl fun left => ?_⟩
        · rw [← h.conserved, ← hcons.items]
          rfl
        · have hc := (hcourse left).gathered collector inlet
          rw [hstage] at hc
          exact hc
  · rw [step_of_working hstage]
    obtain ⟨hcol, hin⟩ := work_eq c sys
    refine ⟨windows, hcol ▸ h.size, h.filled, by rw [hcol, hin]; exact h.conserved, ?_⟩
    rcases h.course with hc | ⟨hended, hflat, hc⟩
    · exact Or.inl fun left => (hc left).worked hstage
    · refine Or.inr ⟨?_, hflat, hc.worked hstage⟩
      simp [work, hended]

/-- **A run is a course over a grouping of the feed's items.** The windows taken up so far, and one
more for what was not looked at yet, hold all items in their order. -/
theorem Run.course {c₀ c : Consumer ι α} {sys₀ sys : System ι α} {items : List (FeedItem α)}
    (hsize : c₀.collector.size ≠ 0) (hbuffer : c₀.collector.buffer = [])
    (hpayload : c₀.inlet.payload = items) (h : Run c₀ sys₀ c sys) :
    ∃ windows left, windows.flatten = items ∧ (∀ window ∈ windows, window ≠ [])
      ∧ Course c₀ sys₀ windows left c sys := by
  have hgrouped : ∃ windows, Grouped c₀ sys₀ items windows c sys := by
    induction h with
    | begun =>
      exact ⟨[], hsize, by simp, by simp [hbuffer, hpayload], Or.inl fun left => .begun⟩
    | stepped _ ih =>
      obtain ⟨windows, hg⟩ := ih
      exact hg.step
    | beside _ hb ih =>
      obtain ⟨windows, hg⟩ := ih
      refine ⟨windows, hg.size, hg.filled, hg.conserved, ?_⟩
      rcases hg.course with hc | ⟨hend, hflat, hc⟩
      · exact Or.inl fun left => (hc left).beside hb
      · exact Or.inr ⟨hend, hflat, hc.beside hb⟩
  obtain ⟨windows, hg⟩ := hgrouped
  rcases hg.course with hc | ⟨_, hflat, hc⟩
  · -- What was not looked at is one more window, if it is anything.
    by_cases hrest : c.collector.buffer ++ c.inlet.payload = []
    · have hconserved := hg.conserved
      rw [hrest, List.append_nil] at hconserved
      have hc' := hc []
      rw [List.append_nil] at hc'
      exact ⟨windows, [], hconserved, hg.filled, hc'⟩
    · refine ⟨windows ++ [c.collector.buffer ++ c.inlet.payload], _, ?_, ?_, hc _⟩
      · rw [List.flatten_append, List.flatten_singleton]
        exact hg.conserved
      · intro w hw
        rcases List.mem_append.1 hw with hw | hw
        · exact hg.filled w hw
        · exact List.mem_singleton.1 hw ▸ hrest
  · exact ⟨windows, [], hflat, hg.filled, hc⟩

end Collate.Consumer
