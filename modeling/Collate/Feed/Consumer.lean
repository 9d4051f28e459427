/-
The consumer of a change feed. It gathers the feed's changes into windows and applies each window to
the layer behind it: the entries of the ids concerned are read, the changes are applied to them in
the order they came, and the outcome is written back as one update, in which entries left empty are
removed. So a reader of the layer sees whole windows only.

A failure in the feed ends it. Changes in front of it in the same window are applied, changes behind
it never are. The consumer also ends when the layer behind it fails, and then the window is not
applied.

This is `apply_feed`: `step` asks for the next window, `accept` parts it as `map_while` does, and
`afterWindow` is what follows from it. Reading, applying and writing are `apply_events`.
-/
import Collate.Distinct
import Collate.Window
import Collate.Merge
import Collate.Lookup

set_option autoImplicit false

namespace Collate

/-- A change, or the text with which the feed failed. -/
abbrev FeedItem (α : Type) := Except String (Change α)

/-- What a consumer is at. -/
inductive Stage (ι α : Type) where
  /-- It waits for a window. -/
  | gathering
  /-- It reads the entries that the window's changes concern. -/
  | reading (lookup : Lookup ι) (changes : List (Change α)) (failure : Option String)
  /-- It is about to write the window's outcome. -/
  | writing (updates : Entries ι (List α)) (removals : List ι) (failure : Option String)
  /-- The window is applied. -/
  | applied (failure : Option String)
  /-- It is over. -/
  | ended

/-- The consumer of a feed. -/
structure Consumer (ι α : Type) where
  feed : Nat
  merge : Merge ι α
  /-- The layer that is kept up to date. -/
  backing : Layer
  inlet : Inlet (FeedItem α)
  collector : Collector (FeedItem α)
  stage : Stage ι α := .gathering

/-! ## 1. What a window does -/

namespace FeedItem

variable {α : Type}

/-- The changes in front of the first failure. -/
def changes : List (FeedItem α) → List (Change α)
  | [] => []
  | .error _ :: _ => []
  | .ok change :: rest => change :: changes rest

/-- The first failure. -/
def failure? : List (FeedItem α) → Option String
  | [] => none
  | .error cause :: _ => some cause
  | .ok _ :: rest => failure? rest

end FeedItem

namespace Merge

variable {ι α : Type} [DecidableEq ι]

/-- Applies a change to the entry it concerns; an id that has no entry begins with an empty one. -/
def applyTo (m : Merge ι α) (entries : Entries ι (List α)) (change : Change α) :
    Entries ι (List α) :=
  let id := m.key change.child
  entries.insert id (m.apply ((entries.get? id).getD []) change)

/-- Applies changes one after the other. -/
def applyAllTo (m : Merge ι α) (entries : Entries ι (List α)) (changes : List (Change α)) :
    Entries ι (List α) :=
  changes.foldl m.applyTo entries

omit [DecidableEq ι] in
/-- The ids that changes concern, in the order they are first named. -/
def idsOf (m : Merge ι α) (changes : List (Change α)) : List ι :=
  changes.map fun change => m.key change.child

end Merge

/-! ## 2. The consumer -/

namespace Consumer

variable {ι α : Type} [DecidableEq ι]

/-- What follows for the feed when a window was applied: without a failure the feed runs; a failure
in the first window means it never did. -/
def afterWindow (lifecycle : Lifecycle) : Option String → Lifecycle
  | none => .running
  | some cause => match lifecycle with
    | .running => .failed (.feed cause)
    | _ => .failed (.feedInit cause)

/-- Takes up a window. -/
def accept (c : Consumer ι α) (window : List (FeedItem α)) : Consumer ι α :=
  let failure := FeedItem.failure? window
  -- Changes behind the first failure are lost; those in front of it still count.
  match FeedItem.changes window with
  | [] => { c with stage := .applied failure }
  | change :: rest =>
    let changes := change :: rest
    let ids := distinct (c.merge.idsOf changes)
    { c with stage := .reading (.start c.backing ids) changes failure }

/-- The feed fails because its layer did. -/
def giveUp (c : Consumer ι α) (reason : Error) (sys : System ι α) : Consumer ι α × System ι α :=
  ({ c with stage := .ended }, sys.publish c.feed (.failed reason))

/-- One step of the work on a window; says whether there was anything to do. -/
def work (c : Consumer ι α) (sys : System ι α) : Bool × Consumer ι α × System ι α :=
  match c.stage with
  | .reading lookup changes failure =>
    match lookup.step sys with
    | (.blocked, sys) => (false, c, sys)
    | (.going lookup, sys) => (true, { c with stage := .reading lookup changes failure }, sys)
    | (.finished (.error e), sys) => (true, c.giveUp e sys)
    | (.finished (.ok found), sys) =>
      -- An entry that is left empty is removed rather than written.
      let entries := c.merge.applyAllTo found.hits changes
      let updates := entries.filter fun _ entry => !entry.isEmpty
      let removals := (entries.filter fun _ entry => entry.isEmpty).keys
      (true, { c with stage := .writing updates removals failure }, sys)
  | .writing updates removals failure =>
    match sys.update c.backing updates removals with
    | (.error e, sys) => (true, c.giveUp e sys)
    | (.ok _, sys) => (true, { c with stage := .applied failure }, sys)
  | .applied failure =>
    -- The lifecycle is published once the window is in the layer, and only when it changes.
    let before := (sys.feeds.get c.feed).lifecycle
    let after := afterWindow before failure
    (true, { c with stage := if failure.isSome then .ended else .gathering },
      if before = after then sys else sys.publish c.feed after)
  | .gathering => (false, c, sys)
  | .ended => (false, c, sys)

/-- One step: asks the feed for a window, or goes on with the one at hand; says whether there was
anything to do. A feed nobody subscribed is left alone. -/
def step (c : Consumer ι α) (sys : System ι α) : Bool × Consumer ι α × System ι α :=
  match c.stage with
  | .gathering =>
    -- Before the first lookup the inlet is not even asked.
    if (sys.feeds.get c.feed).lifecycle = .unstarted then (false, c, sys)
    else match c.collector.pull c.inlet sys.now sys.turn with
      | (.item window, collector, inlet) =>
        (true, { c with collector := collector, inlet := inlet }.accept window, sys)
      | (.ended, collector, inlet) =>
        (true, { c with collector := collector, inlet := inlet, stage := .ended },
          sys.publish c.feed .stopped)
      | (.pending, collector, inlet) =>
        (false, { c with collector := collector, inlet := inlet }, sys)
  | _ => c.work sys

/-- Goes on for as long as possible, but for at most `fuel` steps. -/
def run : Nat → Consumer ι α → System ι α → Consumer ι α × System ι α
  | 0, c, sys => (c, sys)
  | fuel + 1, c, sys =>
    match c.step sys with
    | (true, c, sys) => run fuel c sys
    | (false, c, sys) => (c, sys)

/-- How many steps are enough until the consumer has to wait, while nothing else is sent: a window
takes its lookup, an update and two more, and there are no more windows than items. -/
def budget (c : Consumer ι α) : Nat :=
  (c.inlet.remaining + c.collector.buffer.length + 2) * (2 * c.backing.feeds.length + 5)

omit [DecidableEq ι] in
/-- The alarms set. Those of the feed and its windows stay set while a window is applied. -/
def alarms (c : Consumer ι α) : List Alarm :=
  let strand := Strand.consumer c.feed
  let waiting := c.inlet.alarms strand ++ c.collector.alarms strand
  match c.stage with
  | .ended => []
  | .reading lookup _ _ => waiting ++ lookup.alarms
  | _ => waiting

/-- Goes away, whatever it is at. -/
def abandon (c : Consumer ι α) : Consumer ι α := { c with stage := .ended }

end Consumer

end Collate
