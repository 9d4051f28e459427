/-
A fed store holds exactly what its feed says.

Along every course of a consumer over an unbounded store the entries are those of the history applied
so far: the changes of the windows done with, each id's folded over an entry that began empty. What
carries this through a window is kept separately for each stage the consumer can be at
(`Materialised`). The grouping into windows is in none of the conclusions, so two groupings of one
feed leave the same entries behind.
-/
import Collate.Proofs.Feed.Course

set_option autoImplicit false

namespace Collate

variable {ι α : Type} [DecidableEq ι]

/-! ## 1. What is known at each stage -/

/-- The entries of a layer's store are those of a history that began with no entries. -/
def Layer.Holds (layer : Layer) (m : Merge ι α) (changes : List (Change α)) (sys : System ι α) :
    Prop :=
  ∀ id, (sys.stores.get layer.store).shelf.contents.get? id = m.folded? changes id

/-- A feed that was subscribed and has neither ended nor failed. -/
def Lifecycle.IsOpen (lifecycle : Lifecycle) : Prop := lifecycle = .starting ∨ lifecycle = .running

/-- How a feed ends: `stopped` without a failure, and otherwise failed with the text of the first
failure, whether or not that was in the first window. -/
def Lifecycle.EndsAs (lifecycle : Lifecycle) : Option String → Prop
  | none => lifecycle = .stopped
  | some cause => lifecycle = .failed (.feed cause) ∨ lifecycle = .failed (.feedInit cause)

namespace Stage

/-- What is true at a stage when the windows taken up so far hold `items` and `left` are the windows
to come. A window that is read or about to be written is the last of `items` and not applied yet. -/
def Knows (m : Merge ι α) (layer : Layer) (lifecycle : Lifecycle) (items : List (FeedItem α))
    (left : List (List (FeedItem α))) (sys : System ι α) : Stage ι α → Prop
  | .gathering =>
    FeedItem.failure? items = none ∧ layer.Holds m (FeedItem.changes items) sys ∧ lifecycle.IsOpen
  | .reading lookup changes failure => ∃ before window, items = before ++ window
    ∧ FeedItem.failure? before = none ∧ failure = FeedItem.failure? window
    ∧ changes = FeedItem.changes window ∧ lookup = .start layer (distinct (m.idsOf changes))
    ∧ layer.Holds m (FeedItem.changes before) sys ∧ lifecycle.IsOpen
  | .writing updates removals failure => ∃ before window hits, items = before ++ window
    ∧ FeedItem.failure? before = none ∧ failure = FeedItem.failure? window
    ∧ (∀ id, hits.get? id = if id ∈ distinct (m.idsOf (FeedItem.changes window))
        then (sys.stores.get layer.store).shelf.contents.get? id else none)
    ∧ updates = m.updatesOf hits (FeedItem.changes window)
    ∧ removals = m.removalsOf hits (FeedItem.changes window)
    ∧ layer.Holds m (FeedItem.changes before) sys ∧ lifecycle.IsOpen
  | .applied failure => failure = FeedItem.failure? items
    ∧ layer.Holds m (FeedItem.changes items) sys ∧ lifecycle.IsOpen
  | .ended => layer.Holds m (FeedItem.changes items) sys
    ∧ lifecycle.EndsAs (FeedItem.failure? items) ∧ (FeedItem.failure? items = none → left = [])

end Stage

/-- What is kept along a course: who the consumer is, that its store neither evicts nor fails, and
what is known at its stage. -/
structure Materialised (c₀ : Consumer ι α) (windows left : List (List (FeedItem α)))
    (c : Consumer ι α) (sys : System ι α) : Prop where
  feed : c.feed = c₀.feed
  merge : c.merge = c₀.merge
  backing : c.backing = c₀.backing
  unbounded : (sys.stores.get c₀.backing.store).shelf.capacity? = none
  faultless : (sys.stores.get c₀.backing.store).Faultless
  knows : ∃ taken, windows = taken ++ left ∧ c.stage.Knows c₀.merge c₀.backing
    (sys.feeds.get c₀.feed).lifecycle taken.flatten left sys

/-- A consumer whose feed was just subscribed, over an unbounded store without entries whose calls do
not fail. -/
structure Consumer.Fresh (c : Consumer ι α) (sys : System ι α) : Prop where
  stage : c.stage = .gathering
  unfed : c.backing.feeds = []
  starting : (sys.feeds.get c.feed).lifecycle = .starting
  unbounded : (sys.stores.get c.backing.store).shelf.capacity? = none
  empty : ∀ id, (sys.stores.get c.backing.store).shelf.contents.get? id = none
  faultless : (sys.stores.get c.backing.store).Faultless

namespace Materialised

variable {c₀ c : Consumer ι α} {sys₀ sys : System ι α} {windows left : List (List (FeedItem α))}

/-! ## 2. What each step keeps -/

theorem begun (h : c₀.Fresh sys₀) : Materialised c₀ windows windows c₀ sys₀ := by
  refine ⟨rfl, rfl, rfl, h.unbounded, h.faultless, [], rfl, ?_⟩
  rw [h.stage]
  exact ⟨rfl, h.empty, Or.inl h.starting⟩

theorem accepted {window : List (FeedItem α)} (h : Materialised c₀ windows (window :: left) c sys)
    (hstage : c.stage = .gathering) : Materialised c₀ windows left (c.accept window) sys := by
  obtain ⟨taken, hwindows, hknows⟩ := h.knows
  rw [hstage] at hknows
  obtain ⟨hfail, hholds, hopen⟩ := hknows
  have hwindows' : windows = (taken ++ [window]) ++ left := by rw [hwindows]; simp
  have hflat : (taken ++ [window]).flatten = taken.flatten ++ window := by simp
  unfold Consumer.accept
  dsimp only
  split
  · -- A window without changes in front of its first failure has nothing to be applied.
    rename_i hnone
    refine ⟨h.feed, h.merge, h.backing, h.unbounded, h.faultless, taken ++ [window], hwindows', ?_,
      ?_, hopen⟩
    · rw [hflat, FeedItem.failure?_append, hfail, Option.none_or]
    · rw [hflat, FeedItem.changes_append, hfail]
      simpa [hnone] using hholds
  · rename_i change rest hsome
    refine ⟨h.feed, h.merge, h.backing, h.unbounded, h.faultless, taken ++ [window], hwindows',
      taken.flatten, window, hflat, hfail, rfl, hsome.symm, ?_, hholds, hopen⟩
    rw [h.backing, h.merge]

theorem completed (h : Materialised c₀ windows [] c sys) (hstage : c.stage = .gathering) :
    Materialised c₀ windows [] { c with stage := .ended } (sys.publish c.feed .stopped) := by
  obtain ⟨taken, hwindows, hknows⟩ := h.knows
  rw [hstage] at hknows
  obtain ⟨hfail, hholds, _⟩ := hknows
  refine ⟨h.feed, h.merge, h.backing, by simpa using h.unbounded, by simpa using h.faultless, taken,
    hwindows, ?_, ?_, fun _ => rfl⟩
  · simpa [Layer.Holds] using hholds
  · rw [hfail, h.feed]
    exact System.lifecycle_publish ..

theorem beside {sys' : System ι α} (h : Materialised c₀ windows left c sys)
    (hb : c.Beside sys sys') : Materialised c₀ windows left c sys' := by
  have hbacking := h.backing
  have hcontents := hb.contents
  have hcapacity := hb.capacity
  have hfaults := hb.faults
  have hlifecycle := hb.lifecycle
  rw [hbacking] at hcontents hcapacity hfaults
  rw [h.feed] at hlifecycle
  have hholds : ∀ {changes}, c₀.backing.Holds c₀.merge changes sys →
      c₀.backing.Holds c₀.merge changes sys' := by
    intro changes hc id
    rw [hcontents]
    exact hc id
  refine ⟨h.feed, h.merge, hbacking, hcapacity.trans h.unbounded, ?_, ?_⟩
  · intro call n
    rw [hfaults]
    exact h.faultless call n
  · obtain ⟨taken, hwindows, hknows⟩ := h.knows
    refine ⟨taken, hwindows, ?_⟩
    rw [hlifecycle]
    cases hstage : c.stage with
    | gathering =>
      rw [hstage] at hknows
      exact ⟨hknows.1, hholds hknows.2.1, hknows.2.2⟩
    | reading lookup changes failure =>
      rw [hstage] at hknows
      obtain ⟨b, w, hi, hf, hfw, hc, hl, hh, ho⟩ := hknows
      exact ⟨b, w, hi, hf, hfw, hc, hl, hholds hh, ho⟩
    | writing updates removals failure =>
      rw [hstage] at hknows
      obtain ⟨b, w, hits, hi, hf, hfw, hhits, hu, hr, hh, ho⟩ := hknows
      refine ⟨b, w, hits, hi, hf, hfw, ?_, hu, hr, hholds hh, ho⟩
      rw [hcontents]
      exact hhits
    | applied failure =>
      rw [hstage] at hknows
      exact ⟨hknows.1, hholds hknows.2.1, hknows.2.2⟩
    | ended =>
      rw [hstage] at hknows
      exact ⟨hholds hknows.1, hknows.2⟩

/-- Reading the entries of a window: the copies are folded and about to be written back. -/
theorem work_reading {lookup : Lookup ι} {changes : List (Change α)} {failure : Option String}
    {found : Found ι α} (hstage : c.stage = .reading lookup changes failure)
    (hawaiting : lookup.awaiting = []) (hread : (sys.read lookup.layer lookup.ids).1 = .ok found) :
    c.work sys = (true,
      { c with
        stage := .writing (c.merge.updatesOf found.hits changes)
          (c.merge.removalsOf found.hits changes) failure },
      (sys.read lookup.layer lookup.ids).2) := by
  unfold Consumer.work
  rw [hstage]
  simp only [Lookup.step_read hawaiting, hread]
  rfl

theorem work_writing {updates : Entries ι (List α)} {removals : List ι} {failure : Option String}
    (hstage : c.stage = .writing updates removals failure)
    (hupdate : (sys.update c.backing updates removals).1 = .ok ()) :
    c.work sys = (true, { c with stage := .applied failure },
      (sys.update c.backing updates removals).2) := by
  unfold Consumer.work
  simp only [hstage]
  cases hu : sys.update c.backing updates removals with
  | mk result sys' =>
    rw [hu] at hupdate
    cases hupdate
    rfl

theorem worked_reading {lookup : Lookup ι} {changes : List (Change α)} {failure : Option String}
    (h : Materialised c₀ windows left c sys) (hunfed : c₀.backing.feeds = [])
    (hstage : c.stage = .reading lookup changes failure) :
    (∃ updates removals, (c.work sys).2.1.stage = .writing updates removals failure)
    ∧ Materialised c₀ windows left (c.work sys).2.1 (c.work sys).2.2 := by
  obtain ⟨taken, hwindows, hknows⟩ := h.knows
  rw [hstage] at hknows
  obtain ⟨before, window, hitems, hbefore, hfailure, hchanges, hlookup, hholds, hopen⟩ := hknows
  subst hlookup
  obtain ⟨found, hfound⟩ := System.read_ok h.faultless (distinct (c₀.merge.idsOf changes))
  have hwork := work_reading hstage (show c₀.backing.feeds = [] from hunfed) hfound
  simp only [Lookup.start] at hwork
  rw [hwork]
  refine ⟨⟨_, _, rfl⟩, ?_⟩
  have hcalled := System.read_called sys c₀.backing (distinct (c₀.merge.idsOf changes))
  rcases System.read_cases sys c₀.backing (distinct (c₀.merge.idsOf changes)) with
    ⟨cause, herror, _⟩ | ⟨hok, hshelf⟩
  · rw [hfound] at herror
    cases herror
  · rw [hfound, Except.ok.injEq] at hok
    have hcontents : ∀ id,
        ((sys.read c₀.backing (distinct (c₀.merge.idsOf changes))).2.stores.get
          c₀.backing.store).shelf.contents.get? id
          = (sys.stores.get c₀.backing.store).shelf.contents.get? id := by
      intro id
      rw [hshelf, Shelf.contents_get]
    refine ⟨h.feed, h.merge, h.backing, ?_, ?_, taken, hwindows, before, window, found.hits, hitems,
      hbefore, hfailure, ?_, ?_, ?_, ?_, ?_⟩
    · rw [hshelf, Shelf.capacity?_get, h.unbounded]
    · intro call n
      exact (congrFun (congrFun hcalled.faults call) n).trans (h.faultless call n)
    · intro id
      refine Eq.trans ?_ (congrArg (fun entry => if id ∈ distinct (c₀.merge.idsOf
        (FeedItem.changes window)) then entry else none) (hcontents id).symm)
      rw [hok, ← hchanges]
      exact Shelf.get?_get _ _ _
    · rw [h.merge, hchanges]
    · rw [h.merge, hchanges]
    · exact fun id => (hcontents id).trans (hholds id)
    · obtain ⟨stores, log, hframe⟩ := hcalled.frame
      rw [hframe]
      exact hopen

theorem worked_writing {updates : Entries ι (List α)} {removals : List ι}
    {failure : Option String} (h : Materialised c₀ windows left c sys)
    (hstage : c.stage = .writing updates removals failure) :
    (c.work sys).2.1.stage = .applied failure
    ∧ Materialised c₀ windows left (c.work sys).2.1 (c.work sys).2.2 := by
  obtain ⟨taken, hwindows, hknows⟩ := h.knows
  rw [hstage] at hknows
  obtain ⟨before, window, hits, hitems, hbefore, hfailure, hhits, hupdates, hremovals, hholds,
    hopen⟩ := hknows
  obtain ⟨feed, merge, backing, inlet, collector, stage⟩ := c
  obtain rfl : backing = c₀.backing := h.backing
  have hok := System.update_ok h.faultless updates removals
  rw [work_writing hstage hok]
  refine ⟨rfl, ?_⟩
  have hcalled := System.update_called sys c₀.backing updates removals
  rcases System.update_cases sys c₀.backing updates removals with
    ⟨cause, herror, _⟩ | ⟨batch, hperm, _, hshelf⟩
  · rw [hok] at herror
    cases herror
  · refine ⟨h.feed, h.merge, h.backing, ?_, ?_, taken, hwindows, ?_, ?_, ?_⟩
    · rw [hshelf, Shelf.capacity?_update, h.unbounded]
    · intro call n
      exact (congrFun (congrFun hcalled.faults call) n).trans (h.faultless call n)
    · rw [hfailure, hitems, FeedItem.failure?_append, hbefore, Option.none_or]
    · intro id
      rw [hshelf, hitems, FeedItem.changes_append, hbefore, hremovals]
      exact Shelf.get?_update_folded h.unbounded hholds hhits (hupdates ▸ hperm) id
    · obtain ⟨stores, log, hframe⟩ := hcalled.frame
      rw [hframe]
      exact hopen

theorem worked_applied {failure : Option String} (h : Materialised c₀ windows left c sys)
    (hstage : c.stage = .applied failure) :
    ((c.work sys).2.1.stage = .gathering ∨ (c.work sys).2.1.stage = .ended)
    ∧ Materialised c₀ windows left (c.work sys).2.1 (c.work sys).2.2 := by
  obtain ⟨taken, hwindows, hknows⟩ := h.knows
  rw [hstage] at hknows
  obtain ⟨hfailure, hholds, hopen⟩ := hknows
  -- The lifecycle is published only when it changes; either way it is what follows for the window.
  have hsys : (c.work sys).2.2.stores = sys.stores
      ∧ ((c.work sys).2.2.feeds.get c₀.feed).lifecycle
        = Consumer.afterWindow (sys.feeds.get c₀.feed).lifecycle failure := by
    unfold Consumer.work
    rw [hstage, h.feed]
    dsimp only
    split
    · rename_i hsame
      exact ⟨rfl, hsame⟩
    · exact ⟨System.stores_publish .., System.lifecycle_publish ..⟩
  have hc : (c.work sys).2.1
      = { c with stage := if failure.isSome then .ended else .gathering } := by
    unfold Consumer.work
    rw [hstage]
  rw [hc]
  refine ⟨by cases failure <;> simp, h.feed, h.merge, h.backing, ?_, ?_, taken, hwindows, ?_⟩
  · rw [hsys.1]
    exact h.unbounded
  · rw [hsys.1]
    exact h.faultless
  · have hholds' : c₀.backing.Holds c₀.merge (FeedItem.changes taken.flatten) (c.work sys).2.2 := by
      intro id
      rw [hsys.1]
      exact hholds id
    rw [hsys.2]
    cases hf : failure with
    | none =>
      rw [hf] at hfailure
      exact ⟨hfailure.symm, hholds', Or.inr rfl⟩
    | some cause =>
      rw [hf] at hfailure
      refine ⟨hholds', ?_, fun hnone => by rw [hnone] at hfailure; cases hfailure⟩
      rw [← hfailure]
      rcases hopen with hstarting | hrunning
      · rw [hstarting]
        exact Or.inr rfl
      · rw [hrunning]
        exact Or.inl rfl

theorem worked (h : Materialised c₀ windows left c sys) (hunfed : c₀.backing.feeds = [])
    (hstage : c.stage ≠ .gathering) :
    Materialised c₀ windows left (c.work sys).2.1 (c.work sys).2.2 := by
  cases hs : c.stage with
  | gathering => exact absurd hs hstage
  | reading lookup changes failure => exact (h.worked_reading hunfed hs).2
  | writing updates removals failure => exact (h.worked_writing hs).2
  | applied failure => exact (h.worked_applied hs).2
  | ended =>
    have hwork : c.work sys = (false, c, sys) := by
      unfold Consumer.work
      rw [hs]
    rw [hwork]
    exact h

/-- What is kept along a course holds at each of its points. -/
theorem of_course (hfresh : c₀.Fresh sys₀) (h : c₀.Course sys₀ windows left c sys) :
    Materialised c₀ windows left c sys := by
  induction h with
  | begun => exact begun hfresh
  | accepted _ hstage ih => exact ih.accepted hstage
  | completed _ hstage ih => exact ih.completed hstage
  | worked _ hstage ih => exact ih.worked hfresh.unfed hstage
  | gathered _ _ _ ih =>
    exact ⟨ih.feed, ih.merge, ih.backing, ih.unbounded, ih.faultless, ih.knows⟩
  | beside _ hb ih => exact ih.beside hb

/-! ## 3. Every course comes to an end -/

theorem exists_ended_of_applied {failure : Option String} (hfresh : c₀.Fresh sys₀)
    (h : c₀.Course sys₀ windows left c sys) (hstage : c.stage = .applied failure) :
    ∃ c' sys', c₀.Course sys₀ windows left c' sys'
      ∧ (c'.stage = .gathering ∨ c'.stage = .ended) :=
  ⟨_, _, h.worked (by simp [hstage]), ((of_course hfresh h).worked_applied hstage).1⟩

theorem exists_ended_of_reading {lookup : Lookup ι} {changes : List (Change α)}
    {failure : Option String} (hfresh : c₀.Fresh sys₀) (h : c₀.Course sys₀ windows left c sys)
    (hstage : c.stage = .reading lookup changes failure) :
    ∃ c' sys', c₀.Course sys₀ windows left c' sys'
      ∧ (c'.stage = .gathering ∨ c'.stage = .ended) := by
  have h₁ := h.worked (by simp [hstage])
  obtain ⟨updates, removals, hs₁⟩ :=
    ((of_course hfresh h).worked_reading hfresh.unfed hstage).1
  have h₂ := h₁.worked (by simp [hs₁])
  exact exists_ended_of_applied hfresh h₂ ((of_course hfresh h₁).worked_writing hs₁).1

/-- From any point at which a consumer waits for a window, the windows left can be gone through. -/
theorem exists_ended (hfresh : c₀.Fresh sys₀) (h : c₀.Course sys₀ windows left c sys)
    (hstage : c.stage = .gathering) :
    ∃ left' c' sys', c₀.Course sys₀ windows left' c' sys' ∧ c'.stage = .ended := by
  induction left generalizing c sys with
  | nil => exact ⟨_, _, _, h.completed hstage, rfl⟩
  | cons window rest ih =>
    have h₁ := h.accepted hstage
    have hdone : ∃ c' sys', c₀.Course sys₀ windows rest c' sys'
        ∧ (c'.stage = .gathering ∨ c'.stage = .ended) := by
      cases hchanges : FeedItem.changes window with
      | nil =>
        have hs : (c.accept window).stage = .applied (FeedItem.failure? window) := by
          simp only [Consumer.accept, hchanges]
        exact exists_ended_of_applied hfresh h₁ hs
      | cons change changes =>
        have hs : (c.accept window).stage
            = .reading (.start c.backing (distinct (c.merge.idsOf (change :: changes))))
              (change :: changes) (FeedItem.failure? window) := by
          simp only [Consumer.accept, hchanges]
        exact exists_ended_of_reading hfresh h₁ hs
    obtain ⟨c', sys', h', hgathering | hended⟩ := hdone
    · exact ih h' hgathering
    · exact ⟨rest, c', sys', h', hended⟩

/-! ## 4. What a feed leaves behind -/

/-- What is known at a point of a course, in terms of all items of the feed. -/
theorem prefix_held (h : Materialised c₀ windows left c sys) :
    (∃ n, c₀.backing.Holds c₀.merge ((FeedItem.changes windows.flatten).take n) sys)
    ∧ (c.stage = .ended →
      c₀.backing.Holds c₀.merge (FeedItem.changes windows.flatten) sys
      ∧ (sys.feeds.get c₀.feed).lifecycle.EndsAs (FeedItem.failure? windows.flatten)) := by
  obtain ⟨taken, rfl, hknows⟩ := h.knows
  -- What was applied is in front of what was not, and nothing behind a failure counts.
  have hheld : ∀ before rest : List (FeedItem α),
      c₀.backing.Holds c₀.merge (FeedItem.changes before) sys →
      ∃ n, c₀.backing.Holds c₀.merge ((FeedItem.changes (before ++ rest)).take n) sys := by
    intro before rest hb
    refine ⟨(FeedItem.changes before).length, ?_⟩
    rw [FeedItem.changes_append, List.take_left]
    exact hb
  rw [List.flatten_append]
  cases hstage : c.stage with
  | gathering =>
    rw [hstage] at hknows
    exact ⟨hheld _ _ hknows.2.1, by simp⟩
  | reading lookup changes failure =>
    rw [hstage] at hknows
    obtain ⟨before, window, hitems, _, _, _, _, hholds, _⟩ := hknows
    rw [hitems, List.append_assoc]
    exact ⟨hheld _ _ hholds, by simp⟩
  | writing updates removals failure =>
    rw [hstage] at hknows
    obtain ⟨before, window, hits, hitems, _, _, _, _, _, hholds, _⟩ := hknows
    rw [hitems, List.append_assoc]
    exact ⟨hheld _ _ hholds, by simp⟩
  | applied failure =>
    rw [hstage] at hknows
    exact ⟨hheld _ _ hknows.2.1, by simp⟩
  | ended =>
    rw [hstage] at hknows
    obtain ⟨hholds, hends, hleft⟩ := hknows
    refine ⟨hheld _ _ hholds, fun _ => ?_⟩
    rw [FeedItem.changes_append, FeedItem.failure?_append]
    cases hfailure : FeedItem.failure? taken.flatten with
    | none =>
      rw [hleft hfailure]
      rw [hfailure] at hends
      exact ⟨by simpa [FeedItem.changes] using hholds, hends⟩
    | some cause =>
      rw [hfailure] at hends
      exact ⟨by simpa using hholds, hends⟩

end Materialised

/-- **A fed store holds exactly what its feed says, whatever the windows.** Over any grouping of the
feed's items into windows the consumer comes to an end; at every point of the way the store holds the
entries of a history that is a beginning of the changes in front of the first failure; and at the end
it holds the entries of all of these changes, and the feed is complete or has failed with the text
of the first failure. A consumer that gathers the windows itself, by whatever settings and at
whatever times, ends in the same way. -/
theorem fed_store_materialises {c₀ : Consumer ι α} {sys₀ : System ι α} (hfresh : c₀.Fresh sys₀)
    (items : List (FeedItem α)) :
    (∀ windows, windows.flatten = items → (∀ window ∈ windows, window ≠ []) →
      (∃ left c sys, c₀.Course sys₀ windows left c sys ∧ c.stage = .ended)
      ∧ ∀ left c sys, c₀.Course sys₀ windows left c sys →
        (∃ n, c₀.backing.Holds c₀.merge ((FeedItem.changes items).take n) sys)
        ∧ (c.stage = .ended → c₀.backing.Holds c₀.merge (FeedItem.changes items) sys
          ∧ (sys.feeds.get c₀.feed).lifecycle.EndsAs (FeedItem.failure? items)))
    ∧ ∀ settings, c₀.collector = .ofSettings settings → c₀.inlet.payload = items →
      ∀ c sys, c₀.Run sys₀ c sys →
        (∃ n, c₀.backing.Holds c₀.merge ((FeedItem.changes items).take n) sys)
        ∧ (c.stage = .ended → c₀.backing.Holds c₀.merge (FeedItem.changes items) sys
          ∧ (sys.feeds.get c₀.feed).lifecycle.EndsAs (FeedItem.failure? items)) := by
  have hcourses : ∀ windows, windows.flatten = items →
      ∀ left c sys, c₀.Course sys₀ windows left c sys →
        (∃ n, c₀.backing.Holds c₀.merge ((FeedItem.changes items).take n) sys)
        ∧ (c.stage = .ended → c₀.backing.Holds c₀.merge (FeedItem.changes items) sys
          ∧ (sys.feeds.get c₀.feed).lifecycle.EndsAs (FeedItem.failure? items)) := by
    intro windows hflat left c sys h
    rw [← hflat]
    exact (Materialised.of_course hfresh h).prefix_held
  refine ⟨fun windows hflat _ => ⟨?_, hcourses windows hflat⟩, ?_⟩
  · exact Materialised.exists_ended hfresh .begun hfresh.stage
  · intro settings hcollector hpayload c sys hrun
    have hsize : c₀.collector.size ≠ 0 := by
      rw [hcollector]
      simp only [Collector.ofSettings, WindowSettings.effectiveMaxSize]
      omega
    obtain ⟨windows, left, hflat, _, hcourse⟩ :=
      hrun.course hsize (by rw [hcollector]; rfl) hpayload
    exact hcourses windows hflat left c sys hcourse

/-- A feed of four changes with a failure in front of the last, in two windows: the child that was
removed again is gone, and the change behind the failure never counts. -/
theorem fed_store_materialises_two_windows :
    let m : Merge Nat (Nat × Nat) := ⟨Prod.fst, some fun a b => a.2 == b.2⟩
    let items : List (FeedItem (Nat × Nat)) :=
      [.ok (.updated (1, 10)), .ok (.updated (1, 11)), .ok (.removed (1, 10)), .error "gone",
        .ok (.updated (2, 20))]
    let c₀ : Consumer Nat (Nat × Nat) :=
      { feed := 0, merge := m, backing := ⟨[], 0⟩, inlet := .ofTimes (items.map fun x => (0, x)) none
        collector := .ofSettings {} }
    let sys₀ : System Nat (Nat × Nat) := { feeds := .ofList {} [{ lifecycle := .starting }] }
    c₀.Fresh sys₀ ∧ ∀ left c sys, c₀.Course sys₀ [items.take 2, items.drop 2] left c sys →
      c.stage = .ended →
      (sys.stores.get 0).shelf.contents.get? 1 = some [(1, 11)]
      ∧ (sys.stores.get 0).shelf.contents.get? 2 = none
      ∧ (sys.feeds.get 0).lifecycle.EndsAs (some "gone") := by
  intro m items c₀ sys₀
  have hfresh : c₀.Fresh sys₀ := ⟨rfl, rfl, rfl, rfl, fun _ => rfl, fun _ _ => rfl⟩
  refine ⟨hfresh, fun left c sys hcourse hended => ?_⟩
  obtain ⟨hholds, hends⟩ := (((fed_store_materialises hfresh items).1 _ rfl (by decide)).2
    left c sys hcourse).2 hended
  exact ⟨hholds 1, hholds 2, hends⟩

end Collate
