/-
Aggregates of a sequence of windows. An assembly is a pipeline whose input is a stream of windows,
given as such or gathered from a stream of parents, and whose work is the resolution of a window by
an assembler.

`start` and `surroundings` are `assemble_with`; a gathered stream is what `assemble_parents` puts in
front of it.
-/
import Collate.Assembler
import Collate.Pipeline
import Collate.Window

set_option autoImplicit false

namespace Collate

/-- Where an assembly's windows come from. -/
inductive WindowStream (π : Type) where
  | given (inlet : Inlet (List π))
  | gathered (collector : Collector π) (inlet : Inlet π)

namespace WindowStream

variable {π : Type}

/-- Asks for the next window at time `now` in the turn `turn`. -/
def pull (stream : WindowStream π) (now turn : Nat) : Pull (List π) × WindowStream π :=
  match stream with
  | .given inlet =>
    let (answer, inlet) := inlet.pull now turn
    (answer, .given inlet)
  | .gathered collector inlet =>
    let (answer, collector, inlet) := collector.pull inlet now turn
    (answer, .gathered collector inlet)

/-- When a stream that has nothing now will have something to say, if time alone decides it. -/
def wakesAt (now : Nat) : WindowStream π → Option Nat
  | .given inlet => earliest now [inlet.wakesAt]
  | .gathered collector inlet => earliest now [inlet.wakesAt, collector.wakesAt]

/-- No fewer windows than are still to come, as far as is known. -/
def remaining : WindowStream π → Nat
  | .given inlet => inlet.remaining
  | .gathered collector inlet => collector.buffer.length + inlet.remaining

/-- No fewer answers than the windows to come can lead to. -/
def outstanding : WindowStream π → Nat
  | .given (.timed items _ _ _) => items.foldr (fun item n => item.2.length + 1 + n) 0
  | .given (.channel queue _ _) => queue.foldr (fun window n => window.length + 1 + n) 0
  | .gathered collector inlet => 2 * (collector.buffer.length + inlet.remaining)

end WindowStream

/-- A window under way. -/
structure Underway (ι α π : Type) where
  /-- The number of its strand. -/
  number : Nat
  /-- The ticket of the turn it had last, or of when it was taken. -/
  touched : Nat
  task : WindowTask ι α π

/-- The strand of a window. -/
def Underway.strand {ι α π : Type} (w : Underway ι α π) : Strand := .window w.number

/-- An assembly that goes on. -/
structure Assembly (ι α π γ : Type) where
  pipeline : Pipeline (Underway ι α π) Error γ
  stream : WindowStream π

namespace Assembly

variable {ι α β π γ : Type}

/-- An assembly that has not begun. -/
def start (settings : AssembleSettings) (stream : WindowStream π) : Assembly ι α π γ :=
  ⟨.start settings.maxConcurrentWindows.toNat, stream⟩

/-- How many windows may still be taken or are under way: so many rounds, and one more, answer a
question. -/
def rounds (a : Assembly ι α π γ) : Nat := a.stream.remaining + a.pipeline.inFlight.length + 1

/-- No fewer answers than are still to come. -/
def outstanding (a : Assembly ι α π γ) : Nat :=
  a.stream.outstanding + a.pipeline.outputs.length + a.pipeline.inFlight.foldr add 0 + 1
where
  /-- Adds what a window can lead to: an answer per parent, and one more. -/
  add : Flight (Underway ι α π) Error γ → Nat → Nat
    | .running w, n => w.task.parents.length + 1 + n
    | .landed (.ok aggregates), n => aggregates.length + 1 + n
    | .landed (.error _), n => 1 + n

/-- The windows that are not done. -/
def underway (a : Assembly ι α π γ) : List (Underway ι α π) := Pipeline.works a.pipeline.inFlight

/-- Gives everything up that is under way; the window that had its turn last goes first. -/
def cancel (a : Assembly ι α π γ) (sys : System ι α) : System ι α :=
  (a.underway.mergeSort fun v w => w.touched ≤ v.touched).foldl (fun sys w =>
    (w.task.cancel sys).forget w.strand) sys

/-- The alarms set, and when there may be another window. -/
def alarms (a : Assembly ι α π γ) (sys : System ι α) : List Alarm :=
  (a.stream.wakesAt sys.now).toList.map Alarm.ofStep ++ a.underway.flatMap fun w => w.task.alarms

variable [DecidableEq ι]

/-- Windows come from a stream, each is a strand of its own, and they are resolved by an assembler.
All of them see the shared state, and they go on as they are called. -/
def surroundings (assembler : Assembler ι α β π γ) :
    Surroundings (List π) (Underway ι α π) Error γ (WindowStream π × System ι α) where
  pull := fun (stream, sys) =>
    let (answer, stream) := stream.pull sys.now sys.turn
    (answer, (stream, sys))
  launch := fun window (stream, sys) =>
    let (number, sys) := sys.ticket
    let (task, sys) := assembler.start window sys
    -- A window is called once without anything having changed.
    (⟨number, number, task⟩, (stream, sys.rouse (.window number)))
  next := fun works (stream, sys) =>
    match sys.takeReady fun strand => works.any fun w => w.strand = strand with
    | (some strand, sys) => (works.findIdx? fun w => w.strand = strand, (stream, sys))
    | (none, sys) => (none, (stream, sys))
  advance := fun w (stream, sys) =>
    -- The window has its turn within that of the step.
    let caller := sys.strand
    match assembler.run w.task (sys.beginTurn w.strand) with
    | (.waiting task, sys) =>
      let w := { w with touched := sys.turn, task := task }
      (.waiting w, (stream, { sys with strand := caller }))
    | (.finished result, sys) =>
      (.finished result, (stream, { sys.forget w.strand with strand := caller }))

/-- Asks for the next aggregate or failure. -/
def poll (assembler : Assembler ι α β π γ) (a : Assembly ι α π γ) (sys : System ι α) :
    Pull (Except Error γ) × Assembly ι α π γ × System ι α :=
  let (answer, pipeline, (stream, sys)) :=
    a.pipeline.poll (surroundings assembler) a.rounds (a.stream, sys)
  (answer, ⟨pipeline, stream⟩, sys)

end Assembly

/-! ## Collecting what an assembly hands out -/

/-- An assembly whose answers are collected until it ends or as many were taken as are wanted. -/
structure Collection (ι α π γ : Type) where
  assembly : Assembly ι α π γ
  /-- How many answers are wanted, if not all. -/
  wanted : Option Nat
  /-- The answers so far with the time of each, the latest in front. -/
  collected : List (Nat × Except Error γ) := []

namespace Collection

variable {ι α β π γ : Type} [DecidableEq ι]

omit [DecidableEq ι] in
/-- Whether as many answers were taken as are wanted. -/
def isComplete (c : Collection ι α π γ) : Bool := c.wanted = some c.collected.length

/-- Asks for as many answers as there are now, but for at most `fuel`. A collection that is complete
asks no more and gives its assembly up. -/
def runFor (assembler : Assembler ι α β π γ) : Nat → Collection ι α π γ → System ι α →
    Standing (Collection ι α π γ) (List (Nat × Except Error γ)) × System ι α
  | 0, c, sys => (.waiting c, sys)
  | fuel + 1, c, sys =>
    -- An assembly is given up as soon as enough was taken, not when it would be asked again.
    if c.isComplete then (.finished c.collected.reverse, c.assembly.cancel sys)
    else match c.assembly.poll assembler sys with
      | (.item answer, assembly, sys) =>
        runFor assembler fuel
          { c with assembly := assembly, collected := (sys.now, answer) :: c.collected } sys
      | (.ended, assembly, sys) => (.finished c.collected.reverse, assembly.cancel sys)
      | (.pending, assembly, sys) => (.waiting { c with assembly := assembly }, sys)

/-- Goes on for as long as possible. -/
def run (assembler : Assembler ι α β π γ) (c : Collection ι α π γ) (sys : System ι α) :
    Standing (Collection ι α π γ) (List (Nat × Except Error γ)) × System ι α :=
  runFor assembler (c.assembly.outstanding + 1) c sys

end Collection

end Collate
