/-
The way through a chain of layers. Ids are looked up in the first layer; what it misses is looked up
in the layer behind it, and so on; what the last layer misses is asked of an origin, a data source
in general. On the way back each layer that missed something is given everything that was found
behind it, the innermost first, and ids nobody knows children of are written down as having none. A
layer is written once and as a whole, or not at all: a failure anywhere ends the walk, and the
layers that were still to be written on the way back stay as they are.

Looking a layer up and writing it back are `compute_all` of the layer, and going on with what is
behind it is `fetch` of a `Chain`. The origin is the `KeyedSource`, or whatever a single layer's
`compute_all` is given.
-/
import Collate.Lookup

set_option autoImplicit false

namespace Collate

/-- What stands behind the last layer. -/
inductive Origin (ι α : Type) where
  /-- A data source; `key` is the id of a child. Its calls are written down in `bucket`. -/
  | source (source bucket : Nat) (key : α → ι)
  /-- Something that answers after `delay`, always in the same way. -/
  | fallback (bucket delay : Nat) (answer : Except Error (Entries ι (List α)))

/-- A layer on the way back: what it held, and what it has to be given. -/
structure Frame (ι α : Type) where
  layer : Layer
  hits : Entries ι (List α)
  misses : List ι

/-- A walk that goes on. Frames are those of the layers passed, the innermost in front. -/
inductive Walk (ι α : Type) where
  /-- A layer is being looked into; `rest` are the layers behind it. -/
  | descending (lookup : Lookup ι) (rest : List Layer) (frames : List (Frame ι α))
  /-- The origin is to be asked. -/
  | asking (ids : List ι) (frames : List (Frame ι α))
  /-- The origin was asked and answers when the alarm rings. -/
  | waiting (alarm : Alarm) (answer : Except Error (Entries ι (List α))) (frames : List (Frame ι α))
  /-- Everything behind the frames is known. -/
  | returning (fetched : Entries ι (List α)) (frames : List (Frame ι α))

namespace System

variable {ι α : Type} [DecidableEq ι]

/-- Asks an origin; the answer is known at once but given only at the time that comes with it. -/
def ask (sys : System ι α) (origin : Origin ι α) (ids : List ι) :
    (Nat × Except Error (Entries ι (List α))) × System ι α :=
  match origin with
  | .source source bucket key =>
    let (reply, called) := (sys.sources.get source).call ids
    let answer := (Source.group key ids reply.items).mapError Error.source
    ((sys.now + reply.delay, answer),
      { sys with sources := sys.sources.set source called }.note bucket (.sourceCalled ids))
  | .fallback bucket delay answer =>
    ((sys.now + delay, answer), sys.note bucket (.fallbackCalled ids))

end System

namespace Walk

variable {ι α : Type}

/-- The walk through `layers`, in front of an origin. -/
def start (layers : List Layer) (ids : List ι) (frames : List (Frame ι α)) : Walk ι α :=
  match layers with
  | [] => .asking ids frames
  | layer :: rest => .descending (.start layer ids) rest frames

/-- How many steps are left from where the origin is asked, with so many frames. -/
def budgetOfReturn (frames : Nat) : Nat := frames + 3

/-- How many steps a walk can take at most. -/
def budget : Walk ι α → Nat
  | .descending lookup rest frames =>
    lookup.budget + rest.foldr (fun layer n => 2 * layer.feeds.length + 1 + n) 0
      + budgetOfReturn (frames.length + 1 + rest.length)
  | .asking _ frames => budgetOfReturn frames.length
  | .waiting _ _ frames => budgetOfReturn frames.length
  | .returning _ frames => budgetOfReturn frames.length

variable [DecidableEq ι]

/-- What a layer is given on the way back: everything found behind it, and no children for what was
not found. -/
def writeBack (frame : Frame ι α) (fetched : Entries ι (List α)) : Entries ι (List α) :=
  fetched.fill frame.misses []

/-- One step of a walk. -/
def step (origin : Origin ι α) (walk : Walk ι α) (sys : System ι α) :
    Progress (Walk ι α) (Except Error (Entries ι (List α))) × System ι α :=
  match walk with
  | .descending lookup rest frames =>
    match lookup.step sys with
    | (.blocked, sys) => (.blocked, sys)
    | (.going lookup, sys) => (.going (.descending lookup rest frames), sys)
    | (.finished (.error e), sys) => (.finished (.error e), sys)
    | (.finished (.ok found), sys) =>
      -- Nothing behind a layer is looked at unless the layer misses something.
      if found.misses.isEmpty then (.going (.returning found.hits frames), sys)
      else
        let frame := ⟨lookup.layer, found.hits, found.misses⟩
        (.going (start rest found.misses (frame :: frames)), sys)
  | .asking ids frames =>
    -- An origin is never asked for nothing.
    if ids.isEmpty then (.going (.returning .empty frames), sys)
    else
      let ((due, answer), sys) := sys.ask origin ids
      (.going (.waiting (sys.alarm due) answer frames), sys)
  | .waiting alarm answer frames =>
    if sys.now < alarm.due then (.blocked, sys)
    -- A failure ends the walk before any layer on the way back is written.
    else match answer with
      | .error e => (.finished (.error e), sys)
      | .ok fetched => (.going (.returning fetched frames), sys)
  | .returning fetched [] => (.finished (.ok fetched), sys)
  | .returning fetched (frame :: frames) =>
    let entries := writeBack frame fetched
    match sys.write frame.layer entries with
    | (.error e, sys) => (.finished (.error e), sys)
    -- The next layer out is given what this one held and what it missed.
    | (.ok _, sys) => (.going (.returning (frame.hits.insertAll entries.pairs) frames), sys)

/-- Goes on for as long as possible. -/
def run (origin : Origin ι α) (walk : Walk ι α) (sys : System ι α) :
    Standing (Walk ι α) (Except Error (Entries ι (List α))) × System ι α :=
  runSteps (step origin) walk.budget walk sys

omit [DecidableEq ι] in
/-- Stops waiting for feeds. -/
def unwatch (walk : Walk ι α) (sys : System ι α) : System ι α :=
  match walk with
  | .descending lookup _ _ => lookup.unwatch sys
  | _ => sys

omit [DecidableEq ι] in
/-- The alarms set. -/
def alarms : Walk ι α → List Alarm
  | .descending lookup _ _ => lookup.alarms
  | .waiting alarm _ _ => [alarm]
  | _ => []

end Walk

end Collate
