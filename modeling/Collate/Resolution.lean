/-
Resolving ids for one rule. Without cache layers the source is asked directly. With layers the first
one is asked while the lock is shared, so that resolutions it can answer alone do not hinder each
other. If it misses anything its answer is thrown away; the resolution waits for the lock for itself
and walks the whole chain from its first lookup to its last write, so that of several resolutions
missing the same ids only the first asks the source for them.

This is `fetch` of a `CachedSource`, or of a `KeyedSource` where `bind` found no layers; a phase is
an await in it.
-/
import Collate.Walk

set_option autoImplicit false

namespace Collate

/-- How a rule gets from ids to children: its lock, its layers from the outermost on, its origin. -/
structure Path (ι α : Type) where
  lock : Nat
  layers : List Layer
  origin : Origin ι α

/-- How far a resolution has come. -/
inductive Phase (ι α : Type) where
  /-- It wants to share the lock. -/
  | wantsShared
  /-- It shares the lock and looks into the first layer. -/
  | peeking (lookup : Lookup ι)
  /-- It wants the lock for itself. -/
  | wantsExclusive
  /-- It has the lock for itself, or needs none, and walks the chain. -/
  | walking (walk : Walk ι α)

/-- A resolution that goes on. -/
structure Resolution (ι α : Type) where
  path : Path ι α
  ids : List ι
  /-- The ticket it is known by at the lock. -/
  ticket : Nat
  phase : Phase ι α

namespace Resolution

variable {ι α : Type}

/-- A resolution that has not begun. It waits for nothing and nobody knows of it yet. -/
def start (path : Path ι α) (ids : List ι) (sys : System ι α) : Resolution ι α × System ι α :=
  let (ticket, sys) := sys.ticket
  let phase := if path.layers.isEmpty then .walking (.asking ids []) else .wantsShared
  (⟨path, ids, ticket, phase⟩, sys)

/-- Gives up: whatever is held or waited for is given back. -/
def cancel (r : Resolution ι α) (sys : System ι α) : System ι α :=
  let sys := match r.phase with
    | .peeking lookup => lookup.unwatch sys
    | .walking walk => walk.unwatch sys
    | _ => sys
  sys.release r.path.lock r.ticket

/-- How many steps a resolution can take at most. -/
def budget (r : Resolution ι α) : Nat :=
  let walk := (Walk.start r.path.layers r.ids ([] : List (Frame ι α))).budget
  match r.phase with
  | .wantsShared => walk + walk + 2
  | .peeking lookup => lookup.budget + walk + 1
  | .wantsExclusive => walk + 1
  | .walking walk => walk.budget

variable [DecidableEq ι]

/-- Ends with a result and without the lock. -/
def finish (r : Resolution ι α) (result : Except Error (Entries ι (List α))) (sys : System ι α) :
    Progress (Resolution ι α) (Except Error (Entries ι (List α))) × System ι α :=
  (.finished result, sys.release r.path.lock r.ticket)

/-- One step of a resolution. -/
def step (r : Resolution ι α) (sys : System ι α) :
    Progress (Resolution ι α) (Except Error (Entries ι (List α))) × System ι α :=
  match r.phase with
  | .wantsShared =>
    match sys.acquire r.path.lock r.ticket .shared with
    | (false, sys) => (.blocked, sys)
    | (true, sys) =>
      match r.path.layers with
      -- No resolution without layers comes here; it begins with its walk.
      | [] => (.going { r with phase := .wantsExclusive }, sys)
      | first :: _ => (.going { r with phase := .peeking (.start first r.ids) }, sys)
  | .peeking lookup =>
    match lookup.step sys with
    | (.blocked, sys) => (.blocked, sys)
    | (.going lookup, sys) => (.going { r with phase := .peeking lookup }, sys)
    | (.finished (.error e), sys) => r.finish (.error e) sys
    | (.finished (.ok found), sys) =>
      -- What was found is thrown away with the shared lock: by the time the lock is held alone,
      -- someone else may have filled the layer.
      if found.misses.isEmpty then r.finish (.ok found.hits) sys
      else (.going { r with phase := .wantsExclusive }, sys.release r.path.lock r.ticket)
  | .wantsExclusive =>
    -- The lock is asked for once; from then on the resolution has its place in the queue.
    match sys.acquire r.path.lock r.ticket .exclusive with
    | (false, sys) => (.blocked, sys)
    | (true, sys) => (.going { r with phase := .walking (.start r.path.layers r.ids []) }, sys)
  | .walking walk =>
    match walk.step r.path.origin sys with
    | (.blocked, sys) => (.blocked, sys)
    | (.going walk, sys) => (.going { r with phase := .walking walk }, sys)
    | (.finished result, sys) => r.finish result sys

/-- Goes on for as long as possible. -/
def run (r : Resolution ι α) (sys : System ι α) :
    Standing (Resolution ι α) (Except Error (Entries ι (List α))) × System ι α :=
  runSteps step r.budget r sys

omit [DecidableEq ι] in
/-- The alarms set. -/
def alarms (r : Resolution ι α) : List Alarm :=
  match r.phase with
  | .peeking lookup => lookup.alarms
  | .walking walk => walk.alarms
  | _ => []

end Resolution

end Collate
