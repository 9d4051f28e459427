/-
What comes in over time. An inlet is asked for its next item and says that it has one, that it has
none yet, or that there will be none any more. Items of a timed inlet become available one after the
other, each when its time has passed since the inlet was first asked; items of a channel are there
once they were sent. Nothing happens in an inlet that is not asked.

An inlet stands for a `Stream` and a pull for its `poll_next`. Of a channel the documented behaviour
is assumed: items arrive in the order in which they were sent, who waits for one is woken by the
next one and by the end, and the end comes after everything that was sent.
-/
import Collate.Strand

set_option autoImplicit false

namespace Collate

/-- The answer of something asked for its next item. -/
inductive Pull (τ : Type) where
  | item (x : τ)
  | ended
  | pending
  deriving Repr

/-- A sequence of items that become available over time. -/
inductive Inlet (τ : Type) where
  /-- Items with the time at which each may be taken, the time after which the inlet ends once they
  are all taken, and the moment the inlet was first asked; times count from that moment. The last
  is the turn in which someone began to wait for what comes next, if someone does. -/
  | timed (items : List (Nat × τ)) (endsAt : Option Nat) (since waits : Option Nat)
  /-- Items that were sent and not taken yet, whether no more will be sent, and whether someone is
  to be called when one is. -/
  | channel (queue : List τ) (closed waits : Bool)

namespace Inlet

variable {τ : Type}

/-- A timed inlet that was not asked yet. -/
def ofTimes (items : List (Nat × τ)) (endsAt : Option Nat) : Inlet τ :=
  .timed items endsAt none none

/-- A channel that nothing was sent to. -/
def ofChannel : Inlet τ := .channel [] false false

/-- Asks for the next item at time `now` in the turn `turn`. Who is told that there is none yet
waits from this turn on, unless they waited before. -/
def pull (inlet : Inlet τ) (now turn : Nat) : Pull τ × Inlet τ :=
  match inlet with
  | .timed items endsAt since waits =>
    let start := since.getD now
    let waiting : Inlet τ := .timed items endsAt (some start) (waits.or (some turn))
    match items with
    | (due, x) :: rest =>
      if start + due ≤ now then (.item x, .timed rest endsAt (some start) none)
      else (.pending, waiting)
    | [] =>
      match endsAt with
      | some due =>
        if start + due ≤ now then (.ended, .timed [] endsAt (some start) none)
        else (.pending, waiting)
      | none => (.pending, waiting)
  | .channel (x :: rest) closed waits => (.item x, .channel rest closed waits)
  | .channel [] true _ => (.ended, inlet)
  | .channel [] false _ => (.pending, .channel [] false true)

/-- The time at which an inlet that has nothing now will have something to say, if time alone
decides it. -/
def wakesAt : Inlet τ → Option Nat
  | .timed ((due, _) :: _) _ (some start) _ => some (start + due)
  | .timed [] (some due) (some start) _ => some (start + due)
  | _ => none

/-- The alarm of a strand that waits. -/
def alarms (inlet : Inlet τ) (strand : Strand) : List Alarm :=
  match inlet, inlet.wakesAt with
  | .timed _ _ _ (some turn), some due => [⟨due, turn, strand⟩]
  | _, _ => []

/-- What happens when something is sent. -/
structure Sent (τ : Type) where
  /-- Whether the channel is open, so that it arrives. -/
  arrived : Bool
  /-- Whether someone waits for it. -/
  awaited : Bool
  inlet : Inlet τ

/-- Sends an item. -/
def send (inlet : Inlet τ) (x : τ) : Sent τ :=
  match inlet with
  | .channel queue false waits => ⟨true, waits, .channel (queue ++ [x]) false false⟩
  | _ => ⟨false, false, inlet⟩

/-- Ends a channel after what was sent. -/
def close (inlet : Inlet τ) : Sent τ :=
  match inlet with
  | .channel queue _ waits => ⟨true, waits, .channel queue true false⟩
  | _ => ⟨false, false, inlet⟩

/-- Whether a channel was closed. -/
def isClosed : Inlet τ → Bool
  | .channel _ closed _ => closed
  | .timed .. => false

/-- Whether the inlet is a channel. -/
def isChannel : Inlet τ → Bool
  | .channel .. => true
  | .timed .. => false

/-- How many items are still to be taken, as far as that is known. -/
def remaining : Inlet τ → Nat
  | .timed items _ _ _ => items.length
  | .channel queue _ _ => queue.length

end Inlet

end Collate
