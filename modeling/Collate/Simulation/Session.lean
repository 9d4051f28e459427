/-
A running simulation: the shared state, the consumers of its feeds, its rules, and the names by
which steps refer to stores and feeds. A session is built from a plan; layers of rules and the layer
that stands alone are made in the order in which the plan lists them, each with its own store unless
it names one.

Layers are put in front of a source as `bind` does it, each by the `create` of its own factory, and
that of an `AutoCacheBuilder` makes the layer behind the feed as well.
-/
import Collate.Assembly
import Collate.Feed.Consumer
import Collate.Simulation.Plan

set_option autoImplicit false

namespace Collate.Simulation

/-- The value of a field. -/
inductive FieldValue where
  | child (child : Child)
  | absent
  | children (children : List Child)

/-- A parent with one value per rule. -/
structure Aggregate where
  parent : Parent
  fields : List FieldValue

/-- How a rule's values are made. -/
def RuleKind.shape : RuleKind → Shape Atom Child FieldValue
  | .one default => .one .child fun id => .child ⟨id, .null, default⟩
  | .optional => .one .child fun _ => .absent
  | .many seed => .many (.children seed) fun value added => match value with
    | .children before => .children (before ++ added)
    | other => other
  | .manySet => .many (.children []) fun value added => match value with
    | .children before =>
      .children (added.foldl (fun set child => insertOnce Child.order child set) before)
    | other => other

/-- A feed of the session. -/
structure SessionFeed where
  name : String
  consumer : Consumer Atom Child

/-- A running simulation. -/
structure Session where
  system : System Atom Child := {}
  /-- The feeds; the consumer's number is the place in the list. -/
  feeds : List SessionFeed := []
  rules : List (Rule Atom Child FieldValue) := []
  /-- The sources, one per rule. -/
  sources : List SourcePlan := []
  parentKey : ParentKey := .id
  /-- Named stores, with the store's number and the number of handles there are on it. -/
  names : List (String × Nat) := []
  handles : List (String × Nat) := []
  /-- The layer that stands alone. -/
  cache : Option Layer := none
  /-- How many stores there are. -/
  storeCount : Nat := 0
  /-- Whether the assembler, the rules and the layer that stands alone were let go. -/
  letGo : Bool := false

namespace Session

/-! ## 1. Building -/

/-- Adds a store. -/
def addStore (s : Session) (store : Store Atom (List Child)) : Nat × Session :=
  (s.storeCount,
    { s with
      system := { s.system with stores := s.system.stores.set s.storeCount store }
      storeCount := s.storeCount + 1 })

/-- Adds a layer; what its observers are told goes to `bucket`. -/
def addLayer (s : Session) (bucket : Nat) (merge : Merge Atom Child) : CachePlan → Layer × Session
  | .unbounded =>
    let (store, s) := s.addStore .fresh
    (⟨[], store⟩, s)
  | .bounded capacity =>
    let (store, s) := s.addStore (.freshBounded capacity)
    (⟨[], store⟩, s)
  | .named name =>
    match s.names.lookup name with
    | some store => (⟨[], store⟩, s)
    | none =>
      let (store, s) := s.addStore .fresh
      (⟨[], store⟩, { s with names := (name, store) :: s.names })
  | .observed inner name calls =>
    let (layer, s) := s.addLayer bucket merge inner
    ({ layer with wraps := .observed ⟨bucket, name, calls⟩ :: layer.wraps }, s)
  | .fed name feed window initTimeout backing =>
    -- The layer behind a feed is made first, so feeds further in have smaller numbers.
    let (layer, s) := s.addLayer bucket merge backing
    let number := s.feeds.length
    let inlet : Inlet FeedEvent := match feed with
      | .script events endsAt => .ofTimes events endsAt
      | .channel => .ofChannel
    let consumer : Consumer Atom Child :=
      { feed := number, merge := merge, backing := layer, inlet := inlet
        collector := .ofSettings window }
    ({ layer with wraps := .fed ⟨number, initTimeout.millis⟩ :: layer.wraps },
      { s with feeds := s.feeds ++ [⟨name, consumer⟩] })

/-- Adds layers, from the outermost on. -/
def addLayers (s : Session) (bucket : Nat) (merge : Merge Atom Child) :
    List CachePlan → List Layer × Session
  | [] => ([], s)
  | plan :: rest =>
    let (layer, s) := s.addLayer bucket merge plan
    let (layers, s) := s.addLayers bucket merge rest
    (layer :: layers, s)

/-- Adds a rule with its source, lock and log. -/
def addRule (s : Session) (plan : RulePlan) : Session :=
  let number := s.rules.length
  let (layers, s) := s.addLayers number plan.merge plan.caches
  let rule : Rule Atom Child FieldValue :=
    { path := ⟨number, layers, .source number number plan.key.read⟩
      shape := plan.kind.shape }
  { s with
    rules := s.rules ++ [rule]
    sources := s.sources ++ [plan.source]
    system := { s.system with
      sources := s.system.sources.set number { reply := plan.source.reply } } }

/-- Adds a store that steps refer to by name. -/
def addNamedStore (s : Session) (name : String) (plan : StorePlan) : Session :=
  let (store, s) := s.addStore plan.build
  { s with names := (name, store) :: s.names }

/-- The session of a plan, before its first step. -/
def ofPlan (plan : Plan) : Session :=
  let s := plan.stores.foldl (fun s (name, store) => s.addNamedStore name store) {}
  let s := plan.rules.foldl addRule s
  let s := { s with parentKey := plan.parentKey }
  match plan.cache with
  | none => s
  | some cache =>
    let (layer, s) := s.addLayer plan.rules.length plan.cacheMerge.build cache
    { s with cache := some layer }

/-! ## 2. Access -/

/-- The assembler over all rules. -/
def assembler (s : Session) : Assembler Atom Child FieldValue Parent Aggregate :=
  ⟨s.rules, s.parentKey.read, fun parent fields => ⟨parent, fields⟩⟩

/-- How many logs there are: one per rule, and one for the layer that stands alone. -/
def buckets (s : Session) : Nat := s.rules.length + 1

/-- The log of the layer that stands alone. -/
def cacheBucket (s : Session) : Nat := s.rules.length

/-- The consumer of the feed of that name; of several the last one. -/
def feed? (s : Session) (name : String) : Option (Consumer Atom Child) :=
  (s.feeds.reverse.find? (·.name = name)).map (·.consumer)

/-- Changes the consumer with the feed's number. -/
def setConsumer (s : Session) (consumer : Consumer Atom Child) : Session :=
  { s with feeds := s.feeds.map fun f =>
      if f.consumer.feed = consumer.feed then { f with consumer := consumer } else f }

/-- Puts something into a consumer's inlet, and calls the consumer if it waits for that; says
whether it arrived. -/
def deliver (s : Session) (consumer : Consumer Atom Child) (sent : Inlet.Sent FeedEvent) :
    Bool × Session :=
  let s := s.setConsumer { consumer with inlet := sent.inlet }
  let system := if sent.awaited then s.system.rouse (.consumer consumer.feed) else s.system
  (sent.arrived, { s with system := system })

/-- Replaces the data of a rule's source. -/
def setData (s : Session) (rule : Nat) (data : List Child) : Session :=
  match s.sources[rule]? with
  | none => s
  | some source =>
    let source := { source with data := data }
    { s with
      sources := s.sources.set rule source
      system := { s.system with
        sources := s.system.sources.update rule fun state =>
          { state with reply := source.reply } } }

/-- Lets the assembler, the rules and the layer that stands alone go. -/
def release (s : Session) : Session := { s with letGo := true }

/-- Drops a feed and whatever its consumer is at. The step may be waiting for the feed. -/
def dropFeed (s : Session) (consumer : Consumer Atom Child) : Session :=
  { s.setConsumer consumer.abandon with
    system := { s.system with
      feeds := s.system.feeds.update consumer.feed fun status => { status with dropped := true }
      }.rouse .step }

/-- Drops the feeds that nobody needs any more: their layers were let go, and no step under way uses
them. -/
def dropUnused (s : Session) (inUse : List Nat) : Session :=
  if s.letGo then
    s.feeds.foldl (fun s feed =>
      let number := feed.consumer.feed
      -- A feed is dropped once.
      if number ∈ inUse || (s.system.feeds.get number).dropped then s
      else s.dropFeed feed.consumer) s
  else s

end Session

end Collate.Simulation
