/-
Looking ids up in one layer. A lookup first passes the layer's feeds, outermost first: it subscribes
a feed that nobody subscribed yet, and waits until the feed is ready, has failed, or has kept
lookups waiting for long enough. Then it reads the store, in one step. A feed that failed ends the
lookup, and nothing is read.

Passing a feed is `ensure_started` and `ready` of its `AutoCache`, and the last step is `get_all` of
what is behind all of them.
-/
import Collate.Progress
import Collate.System

set_option autoImplicit false

namespace Collate

/-- A lookup that goes on. -/
structure Lookup (ι : Type) where
  layer : Layer
  ids : List ι
  /-- The feeds that are still to be passed. -/
  awaiting : List FeedRef
  /-- Set while the lookup waits for the first of them. -/
  alarm : Option Alarm := none

namespace Lookup

variable {ι α : Type}

/-- A lookup that has not begun. -/
def start (layer : Layer) (ids : List ι) : Lookup ι :=
  { layer := layer, ids := ids, awaiting := layer.feeds }

/-- How many steps a lookup can take at most: each feed is waited for and passed. -/
def budget (l : Lookup ι) : Nat := 2 * l.awaiting.length + 1

/-- Stops waiting for the first of the feeds. -/
def unwatch (l : Lookup ι) (sys : System ι α) : System ι α :=
  match l.awaiting, l.alarm with
  | ref :: _, some alarm => sys.unwatch ref.feed alarm.strand
  | _, _ => sys

variable [DecidableEq ι]

/-- Passes the next feed, or reads the store. -/
def step (l : Lookup ι) (sys : System ι α) :
    Progress (Lookup ι) (Except Error (Found ι α)) × System ι α :=
  match l.awaiting with
  | ref :: rest =>
    -- Whoever comes first subscribes; for all others this changes nothing.
    let sys := sys.subscribe ref
    match (sys.feeds.get ref.feed).readiness sys.now with
    | .ready => (.going { l with awaiting := rest, alarm := none }, l.unwatch sys)
    | .waiting =>
      match l.alarm with
      | some _ => (.blocked, sys)
      | none =>
        -- The lookup is called when the feed changes, or when it waited for long enough.
        let alarm := sys.alarm (sys.feeds.get ref.feed).readyBy
        (.going { l with alarm := some alarm }, sys.watch ref.feed)
    | .failed reason => (.finished (.error reason), l.unwatch sys)
  | [] =>
    let (result, sys) := sys.read l.layer l.ids
    (.finished result, sys)

/-- Goes on for as long as possible. -/
def run (l : Lookup ι) (sys : System ι α) :
    Standing (Lookup ι) (Except Error (Found ι α)) × System ι α :=
  runSteps step l.budget l sys

omit [DecidableEq ι] in
/-- The alarms set. -/
def alarms (l : Lookup ι) : List Alarm := l.alarm.toList

end Lookup

end Collate
