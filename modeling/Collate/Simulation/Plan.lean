/-
What a simulation is made of: scripted stores, feeds and sources, the layers and rules that use
them, and the steps taken one after the other. A plan only says what is wanted; `Session.ofPlan`
makes it.
-/
import Collate.Error
import Collate.Settings
import Collate.Store
import Collate.Merge
import Collate.Source
import Collate.Simulation.Atom

set_option autoImplicit false

namespace Collate.Simulation

/-! ## 1. Stores -/

/-- A call of a store that is to fail: the `n`-th of its kind, or every one. -/
structure StoreFault where
  call : Call
  n : Option Nat
  message : String

/-- A store. -/
inductive StorePlan where
  | unbounded
  | bounded (capacity : Nat)
  | faulty (faults : List StoreFault)

/-- The text with which a call fails: that of the first fault it meets. -/
def StoreFault.find (faults : List StoreFault) (call : Call) (n : Nat) : Option String :=
  (faults.find? fun f => f.call = call && (f.n.isNone || f.n = some n)).map (·.message)

/-- The store of a plan. -/
def StorePlan.build {κ ν : Type} : StorePlan → Store κ ν
  | .unbounded => .fresh
  | .bounded capacity => .freshBounded capacity
  | .faulty faults => { shelf := .fresh, faults := StoreFault.find faults }

/-- A call of a store by whoever holds it. -/
inductive StoreCall (κ ν : Type) where
  | get (keys : List κ)
  | put (entries : List (κ × ν))
  | remove (keys : List κ)
  | update (entries : List (κ × ν)) (removals : List κ)
  | len
  | capacity
  | evictions
  /-- Another handle on the same store. -/
  | clone

/-- The answer of a store to whoever holds it. -/
inductive StoreAnswer (κ ν : Type) where
  | done
  | entries (entries : Entries κ ν)
  | count (n : Nat)
  | noCount
  | failed (message : String)

/-- A store and how many handles there are on it. All of them lead to the same contents. -/
structure HeldStore (κ ν : Type) where
  store : Store κ ν
  handles : Nat := 1

namespace HeldStore

variable {κ ν : Type}

/-- The answer to a number that not every store has. -/
def answerOf : Option Nat → StoreAnswer κ ν
  | some n => .count n
  | none => .noCount

/-- The answer to a call that may fail. -/
def answerOr {ρ : Type} (ok : ρ → StoreAnswer κ ν) : Except String ρ → StoreAnswer κ ν
  | .ok r => ok r
  | .error message => .failed message

variable [DecidableEq κ]

/-- Makes a call. -/
def call (held : HeldStore κ ν) : StoreCall κ ν → StoreAnswer κ ν × HeldStore κ ν
  | .get keys =>
    let (result, store) := held.store.get keys
    (answerOr .entries result, { held with store := store })
  | .put entries =>
    let (result, store) := held.store.put (.ofList entries)
    (answerOr (fun _ => .done) result, { held with store := store })
  | .remove keys =>
    let (result, store) := held.store.remove keys
    (answerOr .count result, { held with store := store })
  | .update entries removals =>
    let (result, store) := held.store.update (.ofList entries) removals
    (answerOr (fun _ => .done) result, { held with store := store })
  | .len => (.count held.store.shelf.size, held)
  | .capacity => (answerOf held.store.shelf.capacity?, held)
  | .evictions => (answerOf held.store.shelf.evictions?, held)
  | .clone => (.count held.handles, { held with handles := held.handles + 1 })

/-- Makes calls one after the other. -/
def callAll (held : HeldStore κ ν) : List (StoreCall κ ν) → List (StoreAnswer κ ν)
  | [] => []
  | call :: rest =>
    let (answer, held) := held.call call
    answer :: callAll held rest

end HeldStore

/-! ## 2. Feeds and layers -/

/-- An item of a feed. -/
abbrev FeedEvent := Except String (Change Child)

/-- A change feed: a script, or a channel that is sent to later. -/
inductive FeedPlan where
  | script (events : List (Nat × FeedEvent)) (endsAt : Option Nat)
  | channel

/-- A cache layer. -/
inductive CachePlan where
  | unbounded
  | bounded (capacity : Nat)
  /-- The layer is a store known by name. -/
  | named (store : String)
  | observed (inner : CachePlan) (name : String) (calls : List Call)
  | fed (name : String) (feed : FeedPlan) (window : WindowSettings) (initTimeout : Duration)
      (backing : CachePlan)

/-! ## 3. Sources and rules -/

/-- Which children a source delivers. -/
inductive SourceMode where
  /-- Those whose key is asked for, in the order of the data. -/
  | matching
  | all
  /-- Those whose key is asked for, in the order in which they are asked for. -/
  | byIds

/-- A call of a source that is to fail, by its number and by an id that it asks for. -/
structure SourceFault where
  call : Option Nat
  id : Option Atom
  /-- How many children are delivered before. -/
  after : Nat
  message : String

/-- A data source. -/
structure SourcePlan where
  /-- Whether children are delivered one after the other rather than all at once. -/
  streams : Bool := true
  data : List Child := []
  mode : SourceMode := .matching
  delay : Nat := 0
  /-- Ids that take longer. -/
  delayFor : List (Atom × Nat) := []
  faults : List SourceFault := []

namespace SourcePlan

/-- The children that are there for a call. -/
def children (plan : SourcePlan) (ids : List Atom) : List Child :=
  match plan.mode with
  | .matching => plan.data.filter fun child => child.key ∈ ids
  | .all => plan.data
  | .byIds => ids.flatMap fun id => plan.data.filter fun child => child.key = id

/-- The fault that the `n`-th call meets, if any. -/
def fault? (plan : SourcePlan) (n : Nat) (ids : List Atom) : Option SourceFault :=
  plan.faults.find? fun f =>
    (f.call.isNone || f.call = some n) && (f.id.all fun id => id ∈ ids)

/-- How long a call takes: as long as the slowest of what is asked for. -/
def wait (plan : SourcePlan) (ids : List Atom) : Nat :=
  plan.delayFor.foldl (fun wait (id, delay) => if id ∈ ids then max wait delay else wait) plan.delay

/-- The answer to the `n`-th call. -/
def reply (plan : SourcePlan) (n : Nat) (ids : List Atom) : Reply Child :=
  let children := plan.children ids
  { delay := plan.wait ids
    items := match plan.fault? n ids with
      | none => children.map .ok
      | some fault =>
        (if plan.streams then (children.take fault.after).map .ok else [])
          ++ [.error fault.message] }

end SourcePlan

/-- What a rule makes of the children of an id. -/
inductive RuleKind where
  /-- The first child, or a child with these contents. -/
  | one (default : Atom)
  /-- The first child, or nothing. -/
  | optional
  /-- All children, behind those given. -/
  | many (seed : List Child)
  /-- All children in ascending order, equal ones once. -/
  | manySet

/-- A rule. -/
structure RulePlan where
  kind : RuleKind
  key : ChildKey := .key
  element : ChildKey := .element
  source : SourcePlan := {}
  caches : List CachePlan := []

/-- How the children of a layer that stands alone are keyed. -/
structure MergePlan where
  many : Bool := false
  key : ChildKey := .key
  element : ChildKey := .element

/-- Keying and merging of a plan. -/
def MergePlan.build (plan : MergePlan) : Merge Atom Child where
  key := plan.key.read
  sameElement :=
    if plan.many then some fun a b => plan.element.read a = plan.element.read b else none

/-- How the children of a rule are keyed and merged. -/
def RulePlan.merge (plan : RulePlan) : Merge Atom Child :=
  MergePlan.build
    { key := plan.key
      element := plan.element
      many := match plan.kind with
        | .one _ => false
        | .optional => false
        | .many _ => true
        | .manySet => true }

/-! ## 4. Steps -/

/-- One step. -/
inductive Step where
  | advance (millis : Nat)
  /-- Resolves ids by one rule and looks up values. -/
  | resolve (rule : Nat) (ids get : List Atom)
  | process (window : List Parent)
  | assemble (windows : List (Nat × List Parent)) (endsAt : Nat) (settings : AssembleSettings)
      (take : Option Nat)
  | assembleParents (parents : List (Nat × Parent)) (window : WindowSettings) (endsAt : Nat)
      (settings : AssembleSettings) (take : Option Nat)
  | setSource (rule : Nat) (data : List Child)
  | store (name : String) (call : StoreCall Atom (List Child))
  | send (feed : String) (event : FeedEvent)
  | close (feed : String)
  | feedDropped (feed : String)
  | status (feed : String)
  | ready (feed : String)
  | finished (feed : String)
  /-- Drops the assembler, the rules and the layer that stands alone. -/
  | drop
  | cacheGet (ids : List Atom)
  | cachePut (entries : List (Atom × List Child))
  | cacheRemove (ids : List Atom)
  | cacheUpdate (entries : List (Atom × List Child)) (removals : List Atom)
  /-- Looks ids up in the layer that stands alone, with a fallback for its misses. -/
  | cacheCompute (ids : List Atom) (delay : Nat)
      (answer : Except Error (Entries Atom (List Child)))
  /-- Steps begun one after the other, each so many milliseconds after the first, and awaited
  together. -/
  | parallel (steps : List (Nat × Step))

/-- A whole simulation. -/
structure Plan where
  stores : List (String × StorePlan) := []
  rules : List RulePlan := []
  parentKey : ParentKey := .id
  /-- A layer that stands alone. -/
  cache : Option CachePlan := none
  cacheMerge : MergePlan := {}
  steps : List Step := []

end Collate.Simulation
