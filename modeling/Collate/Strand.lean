/-
Who goes on, and in which order. Whatever is given turns of its own is a strand: the step that is
taken, each window of an assembly, each consumer of a feed. A strand that has to wait is called by
whoever changes what it waits for, or by an alarm. Those called go on in the order in which they
were called; to be called again before that changes nothing. Of the alarms that ring at one moment,
those set in earlier turns ring first.

Strands stand for what an executor polls and calling one for waking it; alarms are timers. Assumed
is that whoever waits is woken when what it waits for changes, and that a timer rings when its time
has come and not before. The order among those woken is that of an executor with a single thread.
-/
set_option autoImplicit false

namespace Collate

/-- What is given turns of its own. -/
inductive Strand where
  /-- The step that is taken, and all that is done as part of it. -/
  | step
  /-- A window of an assembly. -/
  | window (number : Nat)
  /-- The consumer of a feed. -/
  | consumer (feed : Nat)
  deriving DecidableEq, Repr, Inhabited

/-- Whether a strand is the consumer of a feed. -/
def Strand.isConsumer : Strand → Bool
  | .consumer _ => true
  | _ => false

/-- A time that a strand waits for, and the turn in which it began to. -/
structure Alarm where
  due : Nat
  turn : Nat
  strand : Strand
  deriving DecidableEq, Repr

namespace Alarm

/-- An alarm of the step, which needs no place among others. -/
def ofStep (due : Nat) : Alarm := ⟨due, 0, .step⟩

/-- The first moment after `now` at which an alarm rings. -/
def next? (now : Nat) (alarms : List Alarm) : Option Nat :=
  (alarms.filterMap fun alarm => if now < alarm.due then some alarm.due else none).min?

/-- The strands whose alarms ring at `now`, in the order in which the alarms were set. -/
def ringing (now : Nat) (alarms : List Alarm) : List Strand :=
  let due := alarms.filter fun alarm => alarm.due = now
  (due.mergeSort fun a b => a.turn ≤ b.turn).map fun alarm => alarm.strand

/-- The order apart, the strands called are those of the alarms that are due. -/
theorem mem_ringing {now : Nat} {alarms : List Alarm} {strand : Strand} :
    strand ∈ ringing now alarms ↔ ∃ alarm ∈ alarms, alarm.due = now ∧ alarm.strand = strand := by
  simp [ringing, List.mem_mergeSort, and_assoc]

end Alarm

end Collate
