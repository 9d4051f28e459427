/-
What observers change, which is nothing.

Take every observer off every layer, and off the log whatever observers have written down. What is
left of a moment is a moment of its own (`unobserved`), and a step from the one leads where the same
step leads from the other: `unobserved` commutes with each of them. The reason is the same
everywhere. Which feeds are waited for, which store is called, what it answers and whether anything
behind a layer is asked does not depend on the observers, and nobody ever reads the log.

What stays in the log are the calls of sources and fallbacks, which are written down whether anybody
observes or not.
-/
import Collate.Feed.Consumer
import Collate.Resolution
import Collate.Proofs.Calls

set_option autoImplicit false

namespace Collate

variable {ι α : Type}

/-! ## 1. Layers and the log -/

namespace Layer

variable (layer : Layer)

@[simp] theorem store_unobserved : layer.unobserved.store = layer.store := rfl

@[simp] theorem feeds_unobserved : layer.unobserved.feeds = layer.feeds := by
  obtain ⟨wraps, store⟩ := layer
  unfold unobserved feeds
  induction wraps with
  | nil => rfl
  | cons wrap rest ih => cases wrap <;> simp [ih]

@[simp] theorem isAuthoritative_unobserved :
    layer.unobserved.isAuthoritative = layer.isAuthoritative := by
  rw [isAuthoritative, feeds_unobserved, isAuthoritative]

@[simp] theorem observers_unobserved (call : Call) : layer.unobserved.observers call = [] := by
  unfold observers unobserved
  refine List.filterMap_eq_nil_iff.2 fun wrap hwrap => ?_
  rw [List.mem_reverse] at hwrap
  have hkept := (List.mem_filter.1 hwrap).2
  cases wrap with
  | observed observer => cases hkept
  | fed feed => rfl

end Layer

/-- The kind of call that an observer has written down, and the name. -/
def Occurrence.subject? : Occurrence ι α → Option (Call × String)
  | .sourceCalled _ => none
  | .fallbackCalled _ => none
  | .layerRead name _ => some (.get, name)
  | .layerWritten name _ => some (.put, name)
  | .layerRemoved name _ => some (.remove, name)
  | .layerUpdated name _ _ => some (.update, name)

/-- Whether it is written down by an observer. -/
def Occurrence.isReport (occurrence : Occurrence ι α) : Bool := occurrence.subject?.isSome

namespace System

/-- The state without what observers have written down. -/
def unobserved (sys : System ι α) : System ι α :=
  { sys with log := sys.log.filter fun line => !line.occurrence.isReport }

section Fields

variable (sys : System ι α)

@[simp] theorem now_unobserved : sys.unobserved.now = sys.now := rfl

@[simp] theorem stores_unobserved : sys.unobserved.stores = sys.stores := rfl

@[simp] theorem sources_unobserved : sys.unobserved.sources = sys.sources := rfl

@[simp] theorem feeds_unobserved : sys.unobserved.feeds = sys.feeds := rfl

@[simp] theorem turn_unobserved : sys.unobserved.turn = sys.turn := rfl

end Fields

/-! ## 2. Calls and errands of the shared state -/

theorem unobserved_note_report (sys : System ι α) (bucket : Nat) {occurrence : Occurrence ι α}
    (h : occurrence.isReport = true) :
    (sys.note bucket occurrence).unobserved = sys.unobserved := by
  simp [unobserved, note, h]

theorem note_unobserved (sys : System ι α) (bucket : Nat) {occurrence : Occurrence ι α}
    (h : occurrence.isReport = false) :
    sys.unobserved.note bucket occurrence = (sys.note bucket occurrence).unobserved := by
  simp [unobserved, note, h]

/-- Telling observers adds nothing but reports. -/
theorem unobserved_tell (sys : System ι α) (observers : List Observer)
    {occurrence : String → Occurrence ι α} (h : ∀ name, (occurrence name).isReport = true) :
    (sys.tell observers occurrence).unobserved = sys.unobserved := by
  induction observers generalizing sys with
  | nil => rfl
  | cons observer rest ih =>
    exact (ih (sys.note observer.bucket (occurrence observer.name))).trans
      (unobserved_note_report sys observer.bucket (h observer.name))

theorem onStore_unobserved {ρ : Type} (sys : System ι α) (store : Nat)
    (call : Store ι (List α) → Except String ρ × Store ι (List α)) :
    sys.unobserved.onStore store call
      = ((sys.onStore store call).1, (sys.onStore store call).2.unobserved) := rfl

theorem rouse_unobserved (sys : System ι α) (strand : Strand) :
    sys.unobserved.rouse strand = (sys.rouse strand).unobserved := by
  unfold rouse unobserved
  split <;> rfl

theorem rouseAll_unobserved (sys : System ι α) (strands : List Strand) :
    sys.unobserved.rouseAll strands = (sys.rouseAll strands).unobserved := by
  induction strands generalizing sys with
  | nil => rfl
  | cons strand rest ih =>
    show (sys.unobserved.rouse strand).rouseAll rest = _
    rw [rouse_unobserved, ih]
    rfl

theorem acquire_unobserved (sys : System ι α) (lock ticket : Nat) (hold : Hold) :
    sys.unobserved.acquire lock ticket hold
      = ((sys.acquire lock ticket hold).1, (sys.acquire lock ticket hold).2.unobserved) := rfl

theorem release_unobserved (sys : System ι α) (lock ticket : Nat) :
    sys.unobserved.release lock ticket = (sys.release lock ticket).unobserved :=
  rouseAll_unobserved
    { sys with locks := sys.locks.set lock ((sys.locks.get lock).release ticket) } _

theorem subscribe_unobserved (sys : System ι α) (ref : FeedRef) :
    sys.unobserved.subscribe ref = (sys.subscribe ref).unobserved := by
  unfold subscribe
  rw [feeds_unobserved]
  split
  · exact rouse_unobserved { sys with
      feeds := sys.feeds.update ref.feed fun f => f.subscribe sys.now ref.initTimeout } _
  · rfl

theorem publish_unobserved (sys : System ι α) (feed : Nat) (lifecycle : Lifecycle) :
    sys.unobserved.publish feed lifecycle = (sys.publish feed lifecycle).unobserved :=
  rouseAll_unobserved { sys with
    feeds := sys.feeds.update feed fun f => { f with lifecycle := lifecycle, watchers := [] } } _

theorem unwatch_unobserved (sys : System ι α) (feed : Nat) (strand : Strand) :
    sys.unobserved.unwatch feed strand = (sys.unwatch feed strand).unobserved := by
  cases strand <;> rfl

variable [DecidableEq ι]

theorem ask_unobserved (sys : System ι α) (origin : Origin ι α) (ids : List ι) :
    sys.unobserved.ask origin ids
      = ((sys.ask origin ids).1, (sys.ask origin ids).2.unobserved) := by
  cases origin with
  | source n bucket key =>
    exact congrArg (Prod.mk _) (note_unobserved
      { sys with sources := sys.sources.set n ((sys.sources.get n).call ids).2 } bucket rfl)
  | fallback bucket delay answer => exact congrArg (Prod.mk _) (note_unobserved sys bucket rfl)

theorem read_unobserved (sys : System ι α) (layer : Layer) (ids : List ι) :
    sys.unobserved.read layer.unobserved ids
      = ((sys.read layer ids).1, (sys.read layer ids).2.unobserved) := by
  unfold read
  rw [onStore_unobserved, Layer.store_unobserved, Layer.isAuthoritative_unobserved,
    Layer.observers_unobserved]
  rcases sys.onStore layer.store fun s => s.get ids with ⟨_ | hits, sys'⟩
  · rfl
  · exact congrArg (Prod.mk _) (unobserved_tell sys' _ fun _ => rfl).symm

theorem write_unobserved (sys : System ι α) (layer : Layer) (entries : Entries ι (List α)) :
    sys.unobserved.write layer.unobserved entries
      = ((sys.write layer entries).1, (sys.write layer entries).2.unobserved) := by
  unfold write
  rw [onStore_unobserved, Layer.store_unobserved, Layer.observers_unobserved]
  rcases sys.onStore layer.store fun s => s.put entries with ⟨_ | _, sys'⟩
  · rfl
  · exact congrArg (Prod.mk _) (unobserved_tell sys' _ fun _ => rfl).symm

theorem remove_unobserved (sys : System ι α) (layer : Layer) (ids : List ι) :
    sys.unobserved.remove layer.unobserved ids
      = ((sys.remove layer ids).1, (sys.remove layer ids).2.unobserved) := by
  unfold remove
  rw [onStore_unobserved, Layer.store_unobserved, Layer.observers_unobserved]
  rcases sys.onStore layer.store fun s => s.remove ids with ⟨_ | _, sys'⟩
  · rfl
  · exact congrArg (Prod.mk _) (unobserved_tell sys' _ fun _ => rfl).symm

theorem update_unobserved (sys : System ι α) (layer : Layer) (entries : Entries ι (List α))
    (removals : List ι) :
    sys.unobserved.update layer.unobserved entries removals
      = ((sys.update layer entries removals).1,
        (sys.update layer entries removals).2.unobserved) := by
  unfold update
  rw [onStore_unobserved, Layer.store_unobserved, Layer.observers_unobserved]
  rcases sys.onStore layer.store fun s => s.update entries removals with ⟨_ | _, sys'⟩
  · rfl
  · exact congrArg (Prod.mk _) (unobserved_tell sys' _ fun _ => rfl).symm

end System

/-! ## 3. What goes on -/

/-- What a step leads to, with what goes on and the result changed by functions. -/
def Progress.map {σ τ ρ υ : Type} (f : σ → τ) (g : ρ → υ) : Progress σ ρ → Progress τ υ
  | .blocked => .blocked
  | .going next => .going (f next)
  | .finished result => .finished (g result)

namespace Lookup

/-- The lookup in the layer without its observers. -/
def unobserved (l : Lookup ι) : Lookup ι := { l with layer := l.layer.unobserved }

@[simp] theorem start_unobserved (layer : Layer) (ids : List ι) :
    start layer.unobserved ids = (start layer ids).unobserved := by
  simp [start, unobserved]

theorem unwatch_unobserved (l : Lookup ι) (sys : System ι α) :
    l.unobserved.unwatch sys.unobserved = (l.unwatch sys).unobserved := by
  obtain ⟨layer, ids, _ | ⟨ref, rest⟩, _ | alarm⟩ := l
  · rfl
  · rfl
  · rfl
  · exact sys.unwatch_unobserved ref.feed alarm.strand

variable [DecidableEq ι]

theorem step_unobserved (l : Lookup ι) (sys : System ι α) :
    l.unobserved.step sys.unobserved
      = ((l.step sys).1.map unobserved id, (l.step sys).2.unobserved) := by
  cases hw : l.awaiting with
  | nil =>
    have hread := sys.read_unobserved l.layer l.ids
    rw [step_read (show l.unobserved.awaiting = [] from hw), step_read hw]
    show (Progress.finished (sys.unobserved.read l.layer.unobserved l.ids).1,
      (sys.unobserved.read l.layer.unobserved l.ids).2) = _
    rw [hread]
    rfl
  | cons ref rest =>
    have hwaiting : l.unobserved.awaiting = ref :: rest := hw
    have halarm : l.unobserved.alarm = l.alarm := rfl
    unfold step
    simp only [hwaiting, hw, halarm, System.subscribe_unobserved, System.feeds_unobserved,
      System.now_unobserved]
    cases ((sys.subscribe ref).feeds.get ref.feed).readiness (sys.subscribe ref).now with
    | ready => exact congrArg (Prod.mk _) (l.unwatch_unobserved _)
    | waiting => cases l.alarm <;> rfl
    | failed reason => exact congrArg (Prod.mk _) (l.unwatch_unobserved _)

end Lookup

/-- A frame of the layer without its observers. -/
def Frame.unobserved (frame : Frame ι α) : Frame ι α :=
  { frame with layer := frame.layer.unobserved }

namespace Walk

/-- The walk through the layers without their observers. -/
def unobserved : Walk ι α → Walk ι α
  | .descending lookup rest frames =>
    .descending lookup.unobserved (rest.map Layer.unobserved) (frames.map Frame.unobserved)
  | .asking ids frames => .asking ids (frames.map Frame.unobserved)
  | .waiting alarm answer frames => .waiting alarm answer (frames.map Frame.unobserved)
  | .returning fetched frames => .returning fetched (frames.map Frame.unobserved)

@[simp] theorem start_unobserved (layers : List Layer) (ids : List ι) (frames : List (Frame ι α)) :
    start (layers.map Layer.unobserved) ids (frames.map Frame.unobserved)
      = (start layers ids frames).unobserved := by
  cases layers with
  | nil => rfl
  | cons layer rest => simp [start, unobserved]

theorem unwatch_unobserved (walk : Walk ι α) (sys : System ι α) :
    walk.unobserved.unwatch sys.unobserved = (walk.unwatch sys).unobserved := by
  cases walk with
  | descending lookup rest frames => exact lookup.unwatch_unobserved sys
  | asking | waiting | returning => rfl

variable [DecidableEq ι]

theorem step_unobserved (origin : Origin ι α) (walk : Walk ι α) (sys : System ι α) :
    walk.unobserved.step origin sys.unobserved
      = ((walk.step origin sys).1.map unobserved id, (walk.step origin sys).2.unobserved) := by
  cases walk with
  | descending lookup rest frames =>
    simp only [unobserved, step, lookup.step_unobserved sys]
    rcases lookup.step sys with ⟨_ | next | e | found, sys'⟩
    · rfl
    · rfl
    · rfl
    · -- The layer keeps its place in the frames, so what is behind it is begun with them.
      have hstart := start_unobserved rest found.misses
        (⟨lookup.layer, found.hits, found.misses⟩ :: frames)
      dsimp only [Progress.map, id]
      split
      · rfl
      · exact congrArg (fun walk => (Progress.going walk, sys'.unobserved)) hstart
  | asking ids frames =>
    simp only [unobserved, step, sys.ask_unobserved origin ids]
    split <;> rfl
  | waiting alarm answer frames =>
    simp only [unobserved, step]
    by_cases hnow : sys.now < alarm.due
    · rw [if_pos (show sys.unobserved.now < alarm.due from hnow), if_pos hnow]
      rfl
    · rw [if_neg (show ¬sys.unobserved.now < alarm.due from hnow), if_neg hnow]
      cases answer <;> rfl
  | returning fetched frames =>
    cases frames with
    | nil => rfl
    | cons frame frames =>
      -- What is written back is a matter of the misses, which have nothing to do with observers.
      have hwrite : sys.unobserved.write frame.unobserved.layer
          (writeBack frame.unobserved fetched) = _ :=
        sys.write_unobserved frame.layer (writeBack frame fetched)
      simp only [unobserved, List.map_cons, step, hwrite]
      rcases sys.write frame.layer (writeBack frame fetched) with ⟨_ | _, sys'⟩ <;> rfl

end Walk

/-- The path through the layers without their observers. -/
def Path.unobserved (path : Path ι α) : Path ι α :=
  { path with layers := path.layers.map Layer.unobserved }

/-- The phase of a resolution through the layers without their observers. -/
def Phase.unobserved : Phase ι α → Phase ι α
  | .wantsShared => .wantsShared
  | .peeking lookup => .peeking lookup.unobserved
  | .wantsExclusive => .wantsExclusive
  | .walking walk => .walking walk.unobserved

namespace Resolution

/-- The resolution through the layers without their observers. -/
def unobserved (r : Resolution ι α) : Resolution ι α :=
  { r with path := r.path.unobserved, phase := r.phase.unobserved }

theorem start_unobserved (path : Path ι α) (ids : List ι) (sys : System ι α) :
    start path.unobserved ids sys.unobserved
      = ((start path ids sys).1.unobserved, (start path ids sys).2.unobserved) := by
  obtain ⟨lock, _ | ⟨first, rest⟩, origin⟩ := path <;> rfl

theorem cancel_unobserved (r : Resolution ι α) (sys : System ι α) :
    r.unobserved.cancel sys.unobserved = (r.cancel sys).unobserved := by
  obtain ⟨path, ids, ticket, phase⟩ := r
  cases phase with
  | wantsShared | wantsExclusive => exact sys.release_unobserved path.lock ticket
  | peeking lookup =>
    show (lookup.unobserved.unwatch sys.unobserved).release path.lock ticket = _
    rw [lookup.unwatch_unobserved, System.release_unobserved]
    rfl
  | walking walk =>
    show (walk.unobserved.unwatch sys.unobserved).release path.lock ticket = _
    rw [walk.unwatch_unobserved, System.release_unobserved]
    rfl

variable [DecidableEq ι]

omit [DecidableEq ι] in
theorem finish_unobserved (r : Resolution ι α) (result : Except Error (Entries ι (List α)))
    (sys : System ι α) :
    r.unobserved.finish result sys.unobserved
      = ((r.finish result sys).1.map unobserved id, (r.finish result sys).2.unobserved) :=
  congrArg (Prod.mk _) (sys.release_unobserved r.path.lock r.ticket)

theorem step_unobserved (r : Resolution ι α) (sys : System ι α) :
    r.unobserved.step sys.unobserved
      = ((r.step sys).1.map unobserved id, (r.step sys).2.unobserved) := by
  obtain ⟨path, ids, ticket, phase⟩ := r
  cases phase with
  | wantsShared =>
    obtain ⟨lock, _ | ⟨first, rest⟩, origin⟩ := path <;>
      simp only [unobserved, Path.unobserved, Phase.unobserved, step, List.map,
        sys.acquire_unobserved lock ticket .shared] <;>
      rcases sys.acquire lock ticket .shared with ⟨_ | _, sys'⟩ <;>
      simp [Progress.map, unobserved, Path.unobserved, Phase.unobserved]
  | peeking lookup =>
    simp only [unobserved, Phase.unobserved, step, lookup.step_unobserved sys]
    rcases lookup.step sys with ⟨_ | next | e | found, sys'⟩
    · rfl
    · rfl
    · exact finish_unobserved ⟨path, ids, ticket, .peeking lookup⟩ (.error e) sys'
    · dsimp only [Progress.map, id]
      split
      · exact finish_unobserved ⟨path, ids, ticket, .peeking lookup⟩ (.ok found.hits) sys'
      · exact congrArg (Prod.mk _) (sys'.release_unobserved path.lock ticket)
  | wantsExclusive =>
    simp only [unobserved, Path.unobserved, Phase.unobserved, step,
      sys.acquire_unobserved path.lock ticket .exclusive]
    rcases sys.acquire path.lock ticket .exclusive with ⟨_ | _, sys'⟩
    · rfl
    · have hstart := Walk.start_unobserved (α := α) path.layers ids []
      simp only [List.map_nil] at hstart
      simp [Progress.map, unobserved, Path.unobserved, Phase.unobserved, hstart]
  | walking walk =>
    simp only [unobserved, Path.unobserved, Phase.unobserved, step,
      walk.step_unobserved path.origin sys]
    rcases walk.step path.origin sys with ⟨_ | next | result, sys'⟩
    · rfl
    · rfl
    · exact finish_unobserved ⟨path, ids, ticket, .walking walk⟩ result sys'

end Resolution

/-! ## 4. Consumers of feeds -/

/-- What a consumer is at, with the layer behind it without its observers. -/
def Stage.unobserved : Stage ι α → Stage ι α
  | .reading lookup changes failure => .reading lookup.unobserved changes failure
  | stage => stage

namespace Consumer

/-- The consumer that keeps the layer without its observers. -/
def unobserved (c : Consumer ι α) : Consumer ι α :=
  { c with backing := c.backing.unobserved, stage := c.stage.unobserved }

variable [DecidableEq ι]

theorem accept_unobserved (c : Consumer ι α) (window : List (FeedItem α)) :
    c.unobserved.accept window = (c.accept window).unobserved := by
  unfold accept
  cases FeedItem.changes window with
  | nil => rfl
  | cons change rest => simp [unobserved, Stage.unobserved]

omit [DecidableEq ι] in
theorem giveUp_unobserved (c : Consumer ι α) (reason : Error) (sys : System ι α) :
    c.unobserved.giveUp reason sys.unobserved
      = ((c.giveUp reason sys).1.unobserved, (c.giveUp reason sys).2.unobserved) :=
  congrArg (Prod.mk _) (sys.publish_unobserved c.feed (.failed reason))

theorem work_unobserved (c : Consumer ι α) (sys : System ι α) :
    c.unobserved.work sys.unobserved
      = ((c.work sys).1, (c.work sys).2.1.unobserved, (c.work sys).2.2.unobserved) := by
  obtain ⟨feed, merge, backing, inlet, collector, stage⟩ := c
  cases stage with
  | gathering | ended => rfl
  | reading lookup changes failure =>
    simp only [unobserved, Stage.unobserved, work, lookup.step_unobserved sys]
    rcases lookup.step sys with ⟨_ | next | e | found, sys'⟩
    · rfl
    · rfl
    · exact congrArg (Prod.mk true) (giveUp_unobserved
        ⟨feed, merge, backing, inlet, collector, .reading lookup changes failure⟩ e sys')
    · rfl
  | writing updates removals failure =>
    simp only [unobserved, Stage.unobserved, work, sys.update_unobserved backing updates removals]
    rcases sys.update backing updates removals with ⟨e | _, sys'⟩
    · exact congrArg (Prod.mk true) (giveUp_unobserved
        ⟨feed, merge, backing, inlet, collector, .writing updates removals failure⟩ e sys')
    · rfl
  | applied failure =>
    simp only [unobserved, Stage.unobserved, work, System.feeds_unobserved,
      System.publish_unobserved]
    congr 1
    congr 1
    · cases failure <;> rfl
    · split <;> rfl

theorem step_unobserved (c : Consumer ι α) (sys : System ι α) :
    c.unobserved.step sys.unobserved
      = ((c.step sys).1, (c.step sys).2.1.unobserved, (c.step sys).2.2.unobserved) := by
  cases hstage : c.stage with
  | gathering =>
    have hbare : c.unobserved.stage = .gathering := congrArg Stage.unobserved hstage
    have hpull : c.unobserved.collector.pull c.unobserved.inlet sys.unobserved.now
        sys.unobserved.turn = c.collector.pull c.inlet sys.now sys.turn := rfl
    unfold step
    simp only [hstage, hbare, hpull]
    by_cases hfeed : (sys.feeds.get c.feed).lifecycle = .unstarted
    · rw [if_pos (show (sys.unobserved.feeds.get c.unobserved.feed).lifecycle = .unstarted
        from hfeed), if_pos hfeed]
    · rw [if_neg (show (sys.unobserved.feeds.get c.unobserved.feed).lifecycle ≠ .unstarted
        from hfeed), if_neg hfeed]
      rcases c.collector.pull c.inlet sys.now sys.turn with ⟨window | _ | _, collector, inlet⟩
      · exact congrArg (fun c => (true, c, sys.unobserved))
          (accept_unobserved { c with collector := collector, inlet := inlet } window)
      · exact congrArg (fun s => (true, _, s)) (sys.publish_unobserved c.feed .stopped)
      · rfl
  | _ =>
    have hstep : ∀ (c : Consumer ι α) (sys : System ι α), c.stage ≠ .gathering →
        c.step sys = c.work sys := fun c sys h => by
      unfold step
      split
      · exact absurd ‹_› h
      · rfl
    rw [hstep c sys (by simp [hstage]), hstep c.unobserved sys.unobserved
      (by simp [unobserved, Stage.unobserved, hstage]), work_unobserved]

end Consumer

end Collate
