/-
What the steps of lookups and of a consumer do to a feed.

How far a feed has come and until when lookups wait for it is changed by two things only: the first
lookup that comes to the feed subscribes it, and its consumer publishes. All else keeps both
(`SameFeed`), and who watches the feed decides about nobody's next step. The steps of a consumer are
gone through once (`Consumer.Stepped`); what becomes of windows, lifecycles and stores along a run is
read off that list.
-/
import Collate.Proofs.Reach
import Collate.Proofs.Feed.Batch

set_option autoImplicit false

namespace Collate

variable {ι α : Type}

/-! ## 1. What is known of a feed -/

namespace FeedStatus

/-- Lookups look at the lifecycle and at the time until which they wait. -/
theorem readiness_congr {status status' : FeedStatus}
    (hlifecycle : status'.lifecycle = status.lifecycle) (hready : status'.readyBy = status.readyBy)
    (now : Nat) : status'.readiness now = status.readiness now := by
  unfold readiness
  rw [hlifecycle, hready]

theorem subscribe_congr {status status' : FeedStatus}
    (hlifecycle : status'.lifecycle = status.lifecycle) (hready : status'.readyBy = status.readyBy)
    (now initTimeout : Nat) :
    (status'.subscribe now initTimeout).lifecycle = (status.subscribe now initTimeout).lifecycle
    ∧ (status'.subscribe now initTimeout).readyBy
      = (status.subscribe now initTimeout).readyBy := by
  unfold subscribe
  rw [hlifecycle]
  split
  · exact ⟨rfl, rfl⟩
  · exact ⟨hlifecycle, hready⟩

theorem subscribe_of_ne {status : FeedStatus} (h : status.lifecycle ≠ .unstarted)
    (now initTimeout : Nat) : status.subscribe now initTimeout = status := by
  unfold subscribe
  split
  · contradiction
  · rfl

theorem subscribe_of_eq {status : FeedStatus} (h : status.lifecycle = .unstarted)
    (now initTimeout : Nat) : status.subscribe now initTimeout
      = { status with lifecycle := .starting, readyBy := now + initTimeout } := by
  unfold subscribe
  rw [h]

/-- A status tells a failure when the feed has failed, and subscribing has no part in that. -/
theorem readiness_subscribe_eq_failed {status : FeedStatus} (now initTimeout : Nat) {e : Error} :
    (status.subscribe now initTimeout).readiness now = .failed e ↔ status.lifecycle = .failed e := by
  unfold subscribe readiness
  cases h : status.lifecycle with
  | unstarted =>
    dsimp only
    split <;> simp
  | starting =>
    simp only [h]
    split <;> simp
  | running | stopped | failed => simp [h]

end FeedStatus

namespace System

/-- A feed has come as far, and lookups wait for it as long, in one state as in the other. -/
structure SameFeed (feed : Nat) (sys sys' : System ι α) : Prop where
  lifecycle : (sys'.feeds.get feed).lifecycle = (sys.feeds.get feed).lifecycle
  readyBy : (sys'.feeds.get feed).readyBy = (sys.feeds.get feed).readyBy

variable {feed other : Nat} {sys sys' sys'' : System ι α}

theorem SameFeed.refl (feed : Nat) (sys : System ι α) : SameFeed feed sys sys := ⟨rfl, rfl⟩

theorem SameFeed.trans (h : SameFeed feed sys sys') (h' : SameFeed feed sys' sys'') :
    SameFeed feed sys sys'' :=
  ⟨h'.lifecycle.trans h.lifecycle, h'.readyBy.trans h.readyBy⟩

theorem SameFeed.of_called (h : Called other sys sys') : SameFeed feed sys sys' := by
  obtain ⟨stores, log, rfl⟩ := h.frame
  exact ⟨rfl, rfl⟩

/-- Changing who watches a feed changes nothing about it. -/
theorem SameFeed.of_update {f : FeedStatus → FeedStatus}
    (hf : ∀ status, (f status).lifecycle = status.lifecycle ∧ (f status).readyBy = status.readyBy) :
    SameFeed feed sys { sys with feeds := sys.feeds.update other f } := by
  by_cases h : feed = other
  · subst h
    constructor
    · simp [Table.update, hf]
    · simp [Table.update, hf]
  · constructor <;> simp [Table.update, Table.get_set_ne _ _ h]

theorem sameFeed_watch (sys : System ι α) : SameFeed feed sys (sys.watch other) := by
  refine .of_update fun status => ?_
  split <;> exact ⟨rfl, rfl⟩

theorem sameFeed_unwatch (sys : System ι α) (strand : Strand) :
    SameFeed feed sys (sys.unwatch other strand) := by
  unfold unwatch
  split
  · exact .refl _ _
  · exact .of_update fun status => ⟨rfl, rfl⟩

@[simp] theorem readyBy_publish (sys : System ι α) (feed : Nat) (lifecycle : Lifecycle) :
    ((sys.publish feed lifecycle).feeds.get feed).readyBy = (sys.feeds.get feed).readyBy := by
  obtain ⟨ready, h⟩ := publish_eq sys feed lifecycle
  rw [h]
  simp [Table.update]

@[simp] theorem now_publish (sys : System ι α) (feed : Nat) (lifecycle : Lifecycle) :
    (sys.publish feed lifecycle).now = sys.now := by
  obtain ⟨ready, h⟩ := publish_eq sys feed lifecycle
  rw [h]

@[simp] theorem now_subscribe (sys : System ι α) (ref : FeedRef) :
    (sys.subscribe ref).now = sys.now := by
  obtain ⟨feeds, ready, _, h⟩ := Lookup.subscribe_eq sys ref
  rw [h]

/-- Subscribing does to the feed what it does to its status. -/
theorem get_subscribe (sys : System ι α) (ref : FeedRef) :
    (sys.subscribe ref).feeds.get ref.feed
      = (sys.feeds.get ref.feed).subscribe sys.now ref.initTimeout := by
  unfold subscribe
  split
  · obtain ⟨ready, _, h⟩ := rouse_eq { sys with
      feeds := sys.feeds.update ref.feed fun f => f.subscribe sys.now ref.initTimeout }
      (.consumer ref.feed)
    rw [h]
    exact Table.get_set_self ..
  · rename_i h
    exact (FeedStatus.subscribe_of_ne h _ _).symm

theorem get_subscribe_ne {ref : FeedRef} (h : feed ≠ ref.feed) (sys : System ι α) :
    (sys.subscribe ref).feeds.get feed = sys.feeds.get feed := by
  unfold subscribe
  split
  · obtain ⟨ready, _, h'⟩ := rouse_eq { sys with
      feeds := sys.feeds.update ref.feed fun f => f.subscribe sys.now ref.initTimeout }
      (.consumer ref.feed)
    rw [h']
    exact Table.get_set_ne _ _ h
  · rfl

end System

/-! ## 2. Steps of a lookup -/

namespace Lookup

variable {l : Lookup ι} {ref : FeedRef} {rest : List FeedRef}

/-- What a lookup does at a feed of which so much is known. -/
def meets (l : Lookup ι) (rest : List FeedRef) (status : FeedStatus) (sys : System ι α) :
    Progress (Lookup ι) (Except Error (Found ι α)) :=
  match status.readiness sys.now with
  | .ready => .going { l with awaiting := rest, alarm := none }
  | .waiting =>
    match l.alarm with
    | some _ => .blocked
    | none => .going { l with alarm := some (sys.alarm status.readyBy) }
  | .failed reason => .finished (.error reason)

/-- What is left of a lookup, in another layer. -/
def within (l : Lookup ι) (layer : Layer) : Lookup ι := { l with layer := layer }

theorem sameFeed_unwatch (l : Lookup ι) (sys : System ι α) (feed : Nat) :
    System.SameFeed feed sys (l.unwatch sys) := by
  unfold unwatch
  split
  · exact System.sameFeed_unwatch ..
  · exact .refl _ _

variable [DecidableEq ι]

/-- The step at a feed: what is known of it, once it is subscribed, decides how the lookup goes on,
and only who watches it may change besides. -/
theorem step_meets (hw : l.awaiting = ref :: rest) (sys : System ι α) :
    (l.step sys).1
      = l.meets rest ((sys.feeds.get ref.feed).subscribe sys.now ref.initTimeout) sys
    ∧ ∀ feed, System.SameFeed feed (sys.subscribe ref) (l.step sys).2 := by
  have hstatus := System.get_subscribe sys ref
  have halarm : ∀ due, (sys.subscribe ref).alarm due = sys.alarm due := by
    intro due
    obtain ⟨feeds, ready, _, hs⟩ := subscribe_eq sys ref
    rw [hs]
    rfl
  unfold step meets
  simp only [hw, hstatus, System.now_subscribe, halarm]
  cases ((sys.feeds.get ref.feed).subscribe sys.now ref.initTimeout).readiness sys.now with
  | ready => exact ⟨rfl, fun feed => sameFeed_unwatch ..⟩
  | waiting =>
    cases l.alarm with
    | some alarm => exact ⟨rfl, fun feed => .refl _ _⟩
    | none => exact ⟨rfl, fun feed => System.sameFeed_watch _⟩
  | failed reason => exact ⟨rfl, fun feed => sameFeed_unwatch ..⟩

/-- A lookup that waits for a feed fails at it exactly if the feed has failed. -/
theorem fails_at (hw : l.awaiting = ref :: rest) (sys : System ι α) {e : Error} :
    (l.step sys).1 = .finished (.error e) ↔ (sys.feeds.get ref.feed).lifecycle = .failed e := by
  rw [(step_meets hw sys).1, ← FeedStatus.readiness_subscribe_eq_failed sys.now ref.initTimeout]
  unfold meets
  split
  · rename_i hready
    simp [hready]
  · rename_i hready
    cases l.alarm <;> simp [hready]
  · rename_i reason hready
    simp [hready]

/-- Only a lookup that has passed all its feeds is answered. -/
theorem awaiting_of_found {sys : System ι α} {found : Found ι α}
    (h : (l.step sys).1 = .finished (.ok found)) : l.awaiting = [] := by
  cases hw : l.awaiting with
  | nil => rfl
  | cons ref rest =>
    rw [(step_meets hw sys).1] at h
    unfold meets at h
    split at h
    · cases h
    · split at h <;> cases h
    · cases h

/-- How a lookup fails depends on the store of its layer and on the feeds it still has to pass. -/
theorem fails_within {layer : Layer} (hstore : layer.store = l.layer.store) {sys : System ι α}
    {e : Error} (h : (l.step sys).1 = .finished (.error e)) :
    ((l.within layer).step sys).1 = .finished (.error e) := by
  have hawaiting : (l.within layer).awaiting = l.awaiting := rfl
  cases hw : l.awaiting with
  | cons ref rest => exact (fails_at (hawaiting.trans hw) sys).2 ((fails_at hw sys).1 h)
  | nil =>
    rw [step_read hw] at h
    have hread := Progress.finished.inj h
    rw [step_read (hawaiting.trans hw)]
    refine congrArg Progress.finished ?_
    show (sys.read layer l.ids).1 = .error e
    rw [System.read_fst] at hread ⊢
    rw [hstore]
    split at hread
    · exact hread
    · cases hread

/-- A lookup changes only what is known of the feeds it still has to pass. -/
theorem sameFeed_step {feed : Nat} (h : ∀ other ∈ l.awaiting, other.feed ≠ feed)
    (sys : System ι α) : System.SameFeed feed sys (l.step sys).2 := by
  cases hw : l.awaiting with
  | nil =>
    rw [step_read hw]
    exact .of_called (System.read_called ..)
  | cons ref rest =>
    refine .trans ?_ ((step_meets hw sys).2 feed)
    have hne : feed ≠ ref.feed := (h ref (hw ▸ List.mem_cons_self ..)).symm
    constructor <;> rw [System.get_subscribe_ne hne]

/-- Who watches feeds makes no difference to how a lookup goes on. -/
theorem step_fst_congr (l : Lookup ι) {sys : System ι α} {feeds : Table FeedStatus}
    (h : ∀ feed, System.SameFeed feed sys { sys with feeds := feeds }) :
    (l.step { sys with feeds := feeds }).1 = (l.step sys).1 := by
  cases hw : l.awaiting with
  | nil =>
    rw [step_read hw, step_read hw]
    simp only [System.read_fst]
  | cons ref rest =>
    rw [(step_meets hw sys).1, (step_meets hw { sys with feeds := feeds }).1]
    obtain ⟨hlifecycle, hready⟩ := FeedStatus.subscribe_congr (h ref.feed).lifecycle
      (h ref.feed).readyBy sys.now ref.initTimeout
    unfold meets
    rw [FeedStatus.readiness_congr hlifecycle hready, hready]
    rfl

theorem now_step (l : Lookup ι) (sys : System ι α) : (l.step sys).2.now = sys.now :=
  (l.stepped sys).advanced.now

end Lookup

/-! ## 3. Steps of a consumer -/

variable [DecidableEq ι]

namespace Consumer

/-- The window that is taken up with the next step, if one is. -/
def takes (c : Consumer ι α) (sys : System ι α) : Option (List (FeedItem α)) :=
  match c.stage with
  | .gathering =>
    if (sys.feeds.get c.feed).lifecycle = .unstarted then none
    else match (c.collector.pull c.inlet sys.now sys.turn).1 with
      | .item window => some window
      | _ => none
  | _ => none

/-- Whether a window gets into the layer with the next step: its outcome is written, or there is
nothing to write. -/
def applies (c : Consumer ι α) (sys : System ι α) : Bool :=
  match c.stage with
  | .gathering => (c.takes sys).any fun window => (FeedItem.changes window).isEmpty
  | .writing updates removals _ => (sys.update c.backing updates removals).1.isOk
  | _ => false

/-- The steps of a consumer: the window taken up, whether a window gets into the layer, and where
the step leads. -/
inductive Stepped (c : Consumer ι α) (sys : System ι α) :
    Option (List (FeedItem α)) → Bool → Consumer ι α → System ι α → Prop where
  /-- Nobody subscribed the feed. -/
  | sleeps (hstage : c.stage = .gathering)
      (hlifecycle : (sys.feeds.get c.feed).lifecycle = .unstarted) :
      Stepped c sys none false c sys
  /-- No window is complete yet. -/
  | gathers (hstage : c.stage = .gathering)
      (hlifecycle : (sys.feeds.get c.feed).lifecycle ≠ .unstarted)
      {collector : Collector (FeedItem α)} {inlet : Inlet (FeedItem α)}
      (hpull : c.collector.pull c.inlet sys.now sys.turn = (.pending, collector, inlet)) :
      Stepped c sys none false { c with collector := collector, inlet := inlet } sys
  /-- A window is taken up. -/
  | accepts (hstage : c.stage = .gathering)
      (hlifecycle : (sys.feeds.get c.feed).lifecycle ≠ .unstarted) {window : List (FeedItem α)}
      {collector : Collector (FeedItem α)} {inlet : Inlet (FeedItem α)}
      (hpull : c.collector.pull c.inlet sys.now sys.turn = (.item window, collector, inlet)) :
      Stepped c sys (some window) (FeedItem.changes window).isEmpty
        ({ c with collector := collector, inlet := inlet }.accept window) sys
  /-- The feed is complete. -/
  | completes (hstage : c.stage = .gathering)
      (hlifecycle : (sys.feeds.get c.feed).lifecycle ≠ .unstarted)
      {collector : Collector (FeedItem α)} {inlet : Inlet (FeedItem α)}
      (hpull : c.collector.pull c.inlet sys.now sys.turn = (.ended, collector, inlet)) :
      Stepped c sys none false
        { c with collector := collector, inlet := inlet, stage := .ended }
        (sys.publish c.feed .stopped)
  /-- The layer has a feed of its own, which is not ready. -/
  | stalls {lookup : Lookup ι} {changes : List (Change α)} {failure : Option String}
      (hstage : c.stage = .reading lookup changes failure) (hstep : (lookup.step sys).1 = .blocked) :
      Stepped c sys none false c (lookup.step sys).2
  /-- The lookup in the layer goes on. -/
  | looks {lookup lookup' : Lookup ι} {changes : List (Change α)} {failure : Option String}
      (hstage : c.stage = .reading lookup changes failure)
      (hstep : (lookup.step sys).1 = .going lookup') :
      Stepped c sys none false { c with stage := .reading lookup' changes failure }
        (lookup.step sys).2
  /-- The layer cannot be read. -/
  | unread {lookup : Lookup ι} {changes : List (Change α)} {failure : Option String} {e : Error}
      (hstage : c.stage = .reading lookup changes failure)
      (hstep : (lookup.step sys).1 = .finished (.error e)) :
      Stepped c sys none false { c with stage := .ended }
        ((lookup.step sys).2.publish c.feed (.failed e))
  /-- The entries of a window are read, and its changes are folded into them. -/
  | read {lookup : Lookup ι} {changes : List (Change α)} {failure : Option String}
      {found : Found ι α} (hstage : c.stage = .reading lookup changes failure)
      (hstep : (lookup.step sys).1 = .finished (.ok found)) :
      Stepped c sys none false
        { c with
          stage := .writing (c.merge.updatesOf found.hits changes)
            (c.merge.removalsOf found.hits changes) failure }
        (lookup.step sys).2
  /-- The layer cannot be written. -/
  | unwritten {updates : Entries ι (List α)} {removals : List ι} {failure : Option String}
      {e : Error} (hstage : c.stage = .writing updates removals failure)
      (hupdate : (sys.update c.backing updates removals).1 = .error e) :
      Stepped c sys none false { c with stage := .ended }
        ((sys.update c.backing updates removals).2.publish c.feed (.failed e))
  /-- A window's outcome is written. -/
  | written {updates : Entries ι (List α)} {removals : List ι} {failure : Option String}
      (hstage : c.stage = .writing updates removals failure)
      (hupdate : (sys.update c.backing updates removals).1 = .ok ()) :
      Stepped c sys none true { c with stage := .applied failure }
        (sys.update c.backing updates removals).2
  /-- What follows for the feed is published, unless that is known already. -/
  | publishes {failure : Option String} (hstage : c.stage = .applied failure) :
      Stepped c sys none false
        { c with stage := if failure.isSome then .ended else .gathering }
        (if (sys.feeds.get c.feed).lifecycle
            = afterWindow (sys.feeds.get c.feed).lifecycle failure then sys
          else sys.publish c.feed (afterWindow (sys.feeds.get c.feed).lifecycle failure))
  /-- It is over. -/
  | rests (hstage : c.stage = .ended) : Stepped c sys none false c sys

theorem stepped (c : Consumer ι α) (sys : System ι α) :
    c.Stepped sys (c.takes sys) (c.applies sys) (c.step sys).2.1 (c.step sys).2.2 := by
  cases hstage : c.stage with
  | gathering =>
    by_cases hlifecycle : (sys.feeds.get c.feed).lifecycle = .unstarted
    · simp only [takes, applies, step, hstage, if_pos hlifecycle]
      exact .sleeps hstage hlifecycle
    · simp only [takes, applies, step, hstage, if_neg hlifecycle]
      rcases hpull : c.collector.pull c.inlet sys.now sys.turn
        with ⟨window | - | -, collector, inlet⟩
      · exact .accepts hstage hlifecycle hpull
      · rw [← hstage]
        exact .completes hstage hlifecycle hpull
      · rw [← hstage]
        exact .gathers hstage hlifecycle hpull
  | reading lookup changes failure =>
    simp only [takes, applies, step, work, hstage]
    rcases hstep : lookup.step sys with ⟨_ | lookup' | (e | found), sys'⟩
    · obtain rfl : (lookup.step sys).2 = sys' := by rw [hstep]
      exact .stalls hstage (by rw [hstep])
    · obtain rfl : (lookup.step sys).2 = sys' := by rw [hstep]
      exact .looks hstage (by rw [hstep])
    · obtain rfl : (lookup.step sys).2 = sys' := by rw [hstep]
      exact .unread hstage (by rw [hstep])
    · obtain rfl : (lookup.step sys).2 = sys' := by rw [hstep]
      exact .read hstage (by rw [hstep])
  | writing updates removals failure =>
    simp only [takes, applies, step, work, hstage]
    rcases hupdate : sys.update c.backing updates removals with ⟨e | _, sys'⟩
    · obtain rfl : (sys.update c.backing updates removals).2 = sys' := by rw [hupdate]
      exact .unwritten hstage (by rw [hupdate])
    · obtain rfl : (sys.update c.backing updates removals).2 = sys' := by rw [hupdate]
      exact .written hstage (by rw [hupdate])
  | applied failure =>
    simp only [takes, applies, step, work, hstage]
    exact .publishes hstage
  | ended =>
    simp only [takes, applies, step, work, hstage]
    exact .rests hstage

variable {c c' : Consumer ι α} {sys sys' : System ι α} {window? : Option (List (FeedItem α))}
  {isApplied : Bool}

/-- A step changes neither whose consumer it is nor what it does with changes. -/
theorem Stepped.same (h : c.Stepped sys window? isApplied c' sys') :
    c'.feed = c.feed ∧ c'.merge = c.merge ∧ c'.backing = c.backing := by
  cases h with
  | accepts =>
    unfold accept
    dsimp only
    split <;> exact ⟨rfl, rfl, rfl⟩
  | sleeps | gathers | completes | stalls | looks | unread | read | unwritten | written | publishes
  | rests => exact ⟨rfl, rfl, rfl⟩

theorem now_update (sys : System ι α) (layer : Layer) (updates : Entries ι (List α))
    (removals : List ι) : (sys.update layer updates removals).2.now = sys.now := by
  obtain ⟨stores, log, h⟩ := (System.update_called sys layer updates removals).frame
  rw [h]

theorem Stepped.now (h : c.Stepped sys window? isApplied c' sys') : sys'.now = sys.now := by
  cases h with
  | sleeps | gathers | accepts | rests => rfl
  | completes => exact System.now_publish ..
  | stalls | looks | read => exact Lookup.now_step ..
  | unread => rw [System.now_publish, Lookup.now_step]
  | unwritten => rw [System.now_publish, now_update]
  | written => exact now_update ..
  | publishes =>
    split
    · rfl
    · exact System.now_publish ..

/-- Who watches feeds makes no difference to a consumer. -/
theorem step_congr (c : Consumer ι α) {feeds : Table FeedStatus}
    (h : ∀ feed, System.SameFeed feed sys { sys with feeds := feeds }) :
    (c.step { sys with feeds := feeds }).1 = (c.step sys).1
    ∧ (c.step { sys with feeds := feeds }).2.1 = (c.step sys).2.1 := by
  have hlifecycle := (h c.feed).lifecycle
  cases hstage : c.stage with
  | gathering =>
    simp only [step, hstage]
    rw [hlifecycle]
    split
    · exact ⟨rfl, rfl⟩
    · split <;> exact ⟨rfl, rfl⟩
  | reading lookup changes failure =>
    have hlookup := lookup.step_fst_congr h
    simp only [step, work, hstage]
    rcases hstep : lookup.step sys with ⟨_ | lookup' | (e | found), sys'⟩ <;>
      rcases hstep' : lookup.step { sys with feeds := feeds } with ⟨p, sys''⟩ <;>
      rw [hstep, hstep'] at hlookup <;> cases hlookup <;> exact ⟨rfl, rfl⟩
  | writing updates removals failure =>
    have hupdate : (({ sys with feeds := feeds } : System ι α).update c.backing updates removals).1
        = (sys.update c.backing updates removals).1 := by
      rw [System.update_fst, System.update_fst]
    simp only [step, work, hstage]
    rcases hu : sys.update c.backing updates removals with ⟨e | _, sys'⟩ <;>
      rcases hu' : ({ sys with feeds := feeds } : System ι α).update c.backing updates removals
        with ⟨result, sys''⟩ <;>
      rw [hu, hu'] at hupdate <;> cases hupdate <;> exact ⟨rfl, rfl⟩
  | applied failure =>
    simp only [step, work, hstage]
    exact ⟨trivial, trivial⟩
  | ended =>
    simp only [step, work, hstage]
    exact ⟨trivial, trivial⟩

end Consumer

end Collate
