/-
Steps that go on. A step either ends where it begins or becomes an activity, which is let go on
whenever something may have changed for it. Steps taken together are begun and let go on in their
order.
-/
import Collate.Simulation.Outcome

set_option autoImplicit false

namespace Collate.Simulation

/-- A single thing that goes on. -/
inductive Doing where
  | sleeping (due : Nat)
  | resolving (shape : Shape Atom Child FieldValue) (get : List Atom)
      (resolution : Resolution Atom Child)
  | processing (task : WindowTask Atom Child Parent)
  | collecting (collection : Collection Atom Child Parent Aggregate)
  | looking (lookup : Lookup Atom)
  | computing (origin : Origin Atom Child) (walk : Walk Atom Child)
  /-- Waits for a feed to be ready, or to be over. -/
  | awaiting (feed : Nat) (toEnd : Bool)

mutual

/-- What goes on while a step is taken. -/
inductive Activity where
  | one (doing : Doing)
  | several (slots : List Slot)

/-- One of several steps taken together. -/
inductive Slot where
  /-- It begins at the time `due`. -/
  | scheduled (due : Nat) (step : Step)
  | active (activity : Activity)
  | finished (time : Nat) (outcome : Outcome)

end

/-! ## 1. Single activities -/

namespace Doing

/-- Ends, or waits. -/
abbrev Turn : Type := Standing Doing Outcome × Session

/-- A turn at the shared state: the session with its state after the turn. -/
def turn {σ ρ : Type} (s : Session) (result : Standing σ ρ × System Atom Child)
    (waiting : σ → Doing) (ending : ρ → Outcome) : Turn :=
  let s := { s with system := result.2 }
  match result.1 with
  | .waiting doing => (.waiting (waiting doing), s)
  | .finished r => (.finished (ending r), s)

/-- Goes on for as long as possible. -/
def run (s : Session) : Doing → Turn
  | .sleeping due =>
    if due ≤ s.system.now then (.finished .done, s) else (.waiting (.sleeping due), s)
  | .resolving shape get resolution =>
    turn s (resolution.run s.system) (.resolving shape get) fun
      | .ok grouped => .ofResolved (shape.resolved grouped) get
      | .error e => .failed e
  | .processing task =>
    turn s (s.assembler.run task s.system) .processing fun
      | .ok aggregates => .aggregates aggregates
      | .error e => .failed e
  | .collecting collection =>
    turn s (collection.run s.assembler s.system) .collecting .collected
  | .looking lookup =>
    turn s (lookup.run s.system) .looking fun
      | .ok found => .found found.hits found.misses
      | .error e => .failed e
  | .computing origin walk =>
    turn s (walk.run origin s.system) (.computing origin) fun
      | .ok entries => .entries entries
      | .error e => .failed e
  | .awaiting feed toEnd =>
    let status := s.system.feeds.get feed
    let enough := if toEnd then status.lifecycle.isFinished else status.lifecycle.isReady
    -- What is known counts before what is gone.
    if enough then (.finished (.lifecycle status.lifecycle), s)
    else if status.dropped then (.finished (.lifecycle (.failed .feedTerminated)), s)
    else (.waiting (.awaiting feed toEnd), { s with system := s.system.watch feed })

/-- Gives up. -/
def cancel (s : Session) : Doing → Session
  | .resolving _ _ resolution => { s with system := resolution.cancel s.system }
  | .processing task => { s with system := task.cancel s.system }
  | .collecting collection => { s with system := collection.assembly.cancel s.system }
  | _ => s

/-- The feeds of the layers that something that goes on uses. Windows use all rules. -/
def feeds (s : Session) : Doing → List Nat
  | .resolving _ _ resolution => feedsOf resolution.path.layers
  | .processing _ => feedsOf (s.rules.flatMap fun rule => rule.path.layers)
  | .collecting _ => feedsOf (s.rules.flatMap fun rule => rule.path.layers)
  | .looking lookup => feedsOf [lookup.layer]
  | .computing .. => feedsOf s.cache.toList
  | .sleeping _ => []
  | .awaiting .. => []
where
  /-- The feeds of layers. -/
  feedsOf (layers : List Layer) : List Nat :=
    (layers.flatMap fun layer => layer.feeds).map fun ref => ref.feed

/-- The alarms set. -/
def alarms (s : Session) : Doing → List Alarm
  | .sleeping due => [.ofStep due]
  | .resolving _ _ resolution => resolution.alarms
  | .processing task => task.alarms
  | .collecting collection => collection.assembly.alarms s.system
  | .looking lookup => lookup.alarms
  | .computing _ walk => walk.alarms
  | .awaiting .. => []

end Doing

/-! ## 2. Beginning a step -/

namespace Session

/-- A step that ends at once, with a call of the layer that stands alone. -/
def onCache (s : Session)
    (call : System Atom Child → Layer → Except Error Unit × System Atom Child) : Doing.Turn :=
  match s.cache with
  | none => (.finished .unknown, s)
  | some layer =>
    let (result, system) := call s.system layer
    (.finished (.ofUnit result), { s with system := system })

/-- A call of a named store by one of its holders. -/
def onNamedStore (s : Session) (name : String) (call : StoreCall Atom (List Child)) : Doing.Turn :=
  match s.names.lookup name with
  | none => (.finished .unknown, s)
  | some number =>
    let handles := (s.handles.lookup name).getD 1
    let (answer, held) := HeldStore.call ⟨s.system.stores.get number, handles⟩ call
    (.finished (.ofStore answer),
      { s with
        system := { s.system with stores := s.system.stores.set number held.store }
        handles := (name, held.handles) :: s.handles })

/-- A step about a feed that ends at once. -/
def onFeed (s : Session) (name : String)
    (ask : Consumer Atom Child → Outcome × Session) : Doing.Turn :=
  match s.feed? name with
  | none => (.finished .unknown, s)
  | some consumer =>
    let (outcome, s) := ask consumer
    (.finished outcome, s)

/-- Whether the consumer of a feed went away or is done with it. -/
def readerGone (s : Session) (consumer : Consumer Atom Child) : Bool :=
  (s.system.feeds.get consumer.feed).dropped || match consumer.stage with
    | .ended => true
    | _ => false

end Session

namespace Doing

/-- Begins an assembly. -/
def collect (settings : AssembleSettings) (stream : WindowStream Parent) (take : Option Nat) :
    Doing :=
  .collecting { assembly := .start settings stream, wanted := take }

/-- Begins a single step and lets it go on. -/
def begin (s : Session) : Step → Turn
  | .advance millis => run s (.sleeping (s.system.now + millis))
  | .resolve rule ids get =>
    match s.rules[rule]? with
    | none => (.finished .unknown, s)
    | some rule =>
      let (resolution, system) := Resolution.start rule.path ids s.system
      run { s with system := system } (.resolving rule.shape get resolution)
  | .process window =>
    let (task, system) := s.assembler.start window s.system
    run { s with system := system } (.processing task)
  | .assemble windows endsAt settings take =>
    run s (collect settings (.given (.ofTimes windows (some endsAt))) take)
  | .assembleParents parents window endsAt settings take =>
    run s (collect settings (.gathered (.ofSettings window) (.ofTimes parents (some endsAt))) take)
  | .setSource rule data => (.finished .done, s.setData rule data)
  | .store name call => s.onNamedStore name call
  | .send feed event => s.onFeed feed fun consumer =>
    if s.readerGone consumer then (.flag false, s)
    else
      let (arrived, s) := s.deliver consumer (consumer.inlet.send event)
      (.flag arrived, s)
  | .close feed => s.onFeed feed fun consumer =>
    (.done, (s.deliver consumer consumer.inlet.close).2)
  | .feedDropped feed => s.onFeed feed fun consumer =>
    if !consumer.inlet.isChannel || consumer.inlet.isClosed then (.noFlag, s)
    else (.flag (s.readerGone consumer), s)
  | .status feed => s.onFeed feed fun consumer =>
    (.lifecycle (s.system.feeds.get consumer.feed).lifecycle, s)
  | .ready feed =>
    match s.feed? feed with
    | none => (.finished .unknown, s)
    | some consumer => run s (.awaiting consumer.feed false)
  | .finished feed =>
    match s.feed? feed with
    | none => (.finished .unknown, s)
    | some consumer => run s (.awaiting consumer.feed true)
  | .drop => (.finished .done, s.release)
  | .cacheGet ids =>
    match s.cache with
    | none => (.finished .unknown, s)
    | some layer => run s (.looking (.start layer ids))
  | .cachePut entries => s.onCache fun system layer => system.write layer (.ofList entries)
  | .cacheRemove ids => s.onCache fun system layer => system.remove layer ids
  | .cacheUpdate entries removals =>
    s.onCache fun system layer => system.update layer (.ofList entries) removals
  | .cacheCompute ids delay answer =>
    match s.cache with
    | none => (.finished .unknown, s)
    | some layer =>
      run s (.computing (.fallback s.cacheBucket delay answer) (Walk.start [layer] ids []))
  | .parallel _ => (.finished .unknown, s)

end Doing

/-! ## 3. Activities -/

/-- The outcomes of several steps, if all of them are over. -/
def Slot.outcomes? : List Slot → Option (List (Nat × Outcome))
  | [] => some []
  | .finished time outcome :: rest => (outcomes? rest).map ((time, outcome) :: ·)
  | .scheduled .. :: _ => none
  | .active _ :: _ => none

/-- What a step's standing means for its place among several. -/
def Slot.ofStanding (now : Nat) : Standing Activity Outcome → Slot
  | .waiting activity => .active activity
  | .finished outcome => .finished now outcome

namespace Activity

/-- Several steps are over when each of them is. -/
def join (slots : List Slot) : Standing Activity Outcome :=
  match Slot.outcomes? slots with
  | some outcomes => .finished (.together outcomes)
  | none => .waiting (.several slots)

mutual

/-- Begins a step and lets it go on. -/
def begin (s : Session) : Step → Standing Activity Outcome × Session
  | .parallel steps =>
    let (slots, s) := beginAll s s.system.now steps
    (join slots, s)
  | step => match Doing.begin s step with
    | (.waiting doing, s) => (.waiting (.one doing), s)
    | (.finished outcome, s) => (.finished outcome, s)

/-- Begins those of several steps that are not put off, in order. -/
def beginAll (s : Session) (start : Nat) : List (Nat × Step) → List Slot × Session
  | [] => ([], s)
  | (offset, step) :: rest =>
    let (slot, s) : Slot × Session :=
      -- A step that is not put off begins before the next one is looked at.
      if offset = 0 then
        let (standing, s) := begin s step
        (.ofStanding s.system.now standing, s)
      else (.scheduled (start + offset) step, s)
    let (slots, s) := beginAll s start rest
    (slot :: slots, s)

end

mutual

/-- Goes on for as long as possible. -/
def run (s : Session) : Activity → Standing Activity Outcome × Session
  | .one doing => match doing.run s with
    | (.waiting doing, s) => (.waiting (.one doing), s)
    | (.finished outcome, s) => (.finished outcome, s)
  | .several slots =>
    let (slots, s) := runAll s slots
    (join slots, s)

/-- Lets several steps go on, in order, and begins those whose time has come. -/
def runAll (s : Session) : List Slot → List Slot × Session
  | [] => ([], s)
  | slot :: rest =>
    let (slot, s) := runSlot s slot
    let (rest, s) := runAll s rest
    (slot :: rest, s)

/-- Lets one of several steps go on. -/
def runSlot (s : Session) : Slot → Slot × Session
  | .scheduled due step =>
    if due ≤ s.system.now then
      let (standing, s) := begin s step
      (.ofStanding s.system.now standing, s)
    else (.scheduled due step, s)
  | .active activity =>
    let (standing, s) := run s activity
    (.ofStanding s.system.now standing, s)
  | .finished time outcome => (.finished time outcome, s)

end

mutual

/-- Gives up. -/
def cancel (s : Session) : Activity → Session
  | .one doing => doing.cancel s
  | .several slots => cancelAll s slots

/-- Gives several steps up. -/
def cancelAll (s : Session) : List Slot → Session
  | [] => s
  | slot :: rest => cancelAll (cancelSlot s slot) rest

/-- Gives one of several steps up. -/
def cancelSlot (s : Session) : Slot → Session
  | .active activity => cancel s activity
  | .scheduled .. => s
  | .finished .. => s

end

mutual

/-- The feeds of the layers in use. -/
def feeds (s : Session) : Activity → List Nat
  | .one doing => doing.feeds s
  | .several slots => feedsAll s slots

/-- The feeds of the layers that several steps use. -/
def feedsAll (s : Session) : List Slot → List Nat
  | [] => []
  | slot :: rest => feedsSlot s slot ++ feedsAll s rest

/-- The feeds of the layers that one of several steps uses. -/
def feedsSlot (s : Session) : Slot → List Nat
  | .active activity => feeds s activity
  | .scheduled .. => []
  | .finished .. => []

end

mutual

/-- The alarms set. -/
def alarms (s : Session) : Activity → List Alarm
  | .one doing => doing.alarms s
  | .several slots => alarmsAll s slots

/-- The alarms of several steps. -/
def alarmsAll (s : Session) : List Slot → List Alarm
  | [] => []
  | slot :: rest => alarmsSlot s slot ++ alarmsAll s rest

/-- The alarms of one of several steps. -/
def alarmsSlot (s : Session) : Slot → List Alarm
  | .active activity => alarms s activity
  | .scheduled due _ => [.ofStep due]
  | .finished .. => []

end

end Activity

end Collate.Simulation
