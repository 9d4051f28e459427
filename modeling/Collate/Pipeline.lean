/-
The pipeline of windows. Windows are taken from an input while fewer than a limit of them are under
way; those under way go on side by side; their results are handed out one aggregate at a time, in
the order in which the windows were taken. A window that is done before an earlier one is held back.
A window that fails is one failure in place of its aggregates and does not touch the others.

The input and the work on a window are those of its surroundings: how to ask for the next window,
how to begin work on it, which work is to go on next, and how to let it go on. Nothing is assumed of
them. Every time the pipeline is asked, no more goes are given than there are windows which are not
done, so that it comes to an answer whatever its surroundings do.

This is `Assemble`: `start` is its `new`, `poll` its `poll_next` and `round` one pass through the
loop in it; an input that ended is not asked again because it is a `Fuse`. `sweep` and `drive` stand
for `FuturesOrdered`, of which the documented behaviour is assumed: work goes on only while the
queue is asked and only if something woke it, and results come out in the order in which the work
was put in. Which of the works that were woken goes on next is left to the surroundings.
-/
import Collate.Inlet
import Collate.Progress

set_option autoImplicit false

namespace Collate

/-- A window under way, or done and held back. -/
inductive Flight (τ ε γ : Type) where
  | running (work : τ)
  | landed (result : Except ε (List γ))

/-- The pipeline's own state. -/
structure Pipeline (τ ε γ : Type) where
  /-- How many windows may be under way, those held back included. -/
  limit : Nat
  /-- The windows under way, in the order they were taken. -/
  inFlight : List (Flight τ ε γ) := []
  /-- Aggregates of the window that was done last, not handed out yet. -/
  outputs : List γ := []
  /-- Whether the input has ended. -/
  inputEnded : Bool := false

/-- Where a pipeline gets its windows `ω` from and how they are worked on, over a state `σ`. -/
structure Surroundings (ω τ ε γ σ : Type) where
  /-- Asks the input for a window. -/
  pull : σ → Pull ω × σ
  /-- Prepares work on a window. -/
  launch : ω → σ → τ × σ
  /-- Which of the works is to go on next, by its place among them, if any of them can. -/
  next : List τ → σ → Option Nat × σ
  /-- Lets work go on for as long as possible. -/
  advance : τ → σ → Standing τ (Except ε (List γ)) × σ

namespace Pipeline

variable {ω τ ε γ σ : Type}

/-- A pipeline that has taken nothing yet. At least one window may be under way. -/
def start (maxConcurrent : Nat) : Pipeline τ ε γ := { limit := max maxConcurrent 1 }

/-- Takes windows while there is room for `room` more. An input that ended is not asked again. -/
def refill (around : Surroundings ω τ ε γ σ) : Nat → Pipeline τ ε γ → σ → Pipeline τ ε γ × σ
  | 0, p, s => (p, s)
  | room + 1, p, s =>
    if p.inputEnded then (p, s)
    else match around.pull s with
      | (.item window, s) =>
        let (work, s) := around.launch window s
        refill around room { p with inFlight := p.inFlight ++ [.running work] } s
      | (.ended, s) => ({ p with inputEnded := true }, s)
      | (.pending, s) => (p, s)

/-- The works that are not done. -/
def works : List (Flight τ ε γ) → List τ
  | [] => []
  | .running work :: rest => work :: works rest
  | .landed _ :: rest => works rest

/-- Lets the window go on that has this place among those not done; says whether it is done now. -/
def advanceNth (around : Surroundings ω τ ε γ σ) :
    Nat → List (Flight τ ε γ) → σ → Bool × List (Flight τ ε γ) × σ
  | _, [], s => (false, [], s)
  | 0, .running work :: rest, s =>
    match around.advance work s with
    | (.waiting work, s) => (false, .running work :: rest, s)
    | (.finished result, s) => (true, .landed result :: rest, s)
  | n + 1, .running work :: rest, s =>
    let (done, rest, s) := advanceNth around n rest s
    (done, .running work :: rest, s)
  | n, .landed result :: rest, s =>
    let (done, rest, s) := advanceNth around n rest s
    (done, .landed result :: rest, s)

/-- Lets windows go on, each when it is its turn, until one of them is done or none can; at most so
many goes are given. Says whether one is done. -/
def sweep (around : Surroundings ω τ ε γ σ) :
    Nat → List (Flight τ ε γ) → σ → Bool × List (Flight τ ε γ) × σ
  | 0, flights, s => (false, flights, s)
  | goes + 1, flights, s =>
    match around.next (works flights) s with
    | (none, s) => (false, flights, s)
    | (some n, s) =>
      match advanceNth around n flights s with
      | (true, flights, s) => (true, flights, s)
      | (false, flights, s) => sweep around goes flights s

/-- Lets windows go on until the first of them is done, for its result is wanted before anything
else, or until no other is done. Every sweep but the last leaves one window less to be done. -/
def drive (around : Surroundings ω τ ε γ σ) :
    Nat → List (Flight τ ε γ) → σ → List (Flight τ ε γ) × σ
  | 0, flights, s => (flights, s)
  | sweeps + 1, flights, s =>
    match flights with
    | .running _ :: _ =>
      match sweep around (works flights).length flights s with
      | (true, flights, s) => drive around sweeps flights s
      | (false, flights, s) => (flights, s)
    | _ => (flights, s)

/-- One round: takes windows, then hands out an aggregate if there is one, and otherwise lets the
windows go on. Without an answer the first window was done and another round is to follow. -/
def round (around : Surroundings ω τ ε γ σ) (p : Pipeline τ ε γ) (s : σ) :
    Option (Pull (Except ε γ)) × Pipeline τ ε γ × σ :=
  -- Windows are taken in every round, also while aggregates are left to hand out.
  let (p, s) := refill around (p.limit - p.inFlight.length) p s
  match p.outputs with
  | aggregate :: rest => (some (.item (.ok aggregate)), { p with outputs := rest }, s)
  | [] =>
    match drive around (p.inFlight.length + 1) p.inFlight s with
    -- Nothing is under way, so all depends on the input.
    | ([], s) => (some (if p.inputEnded then .ended else .pending), { p with inFlight := [] }, s)
    -- There is no answer yet: the window may have been empty, and a place has become free.
    | (.landed (.ok aggregates) :: rest, s) =>
      (none, { p with inFlight := rest, outputs := aggregates }, s)
    | (.landed (.error e) :: rest, s) =>
      (some (.item (.error e)), { p with inFlight := rest }, s)
    | (.running work :: rest, s) => (some .pending, { p with inFlight := .running work :: rest }, s)

/-- Asks for the next aggregate or failure, in at most `rounds` rounds. -/
def poll (around : Surroundings ω τ ε γ σ) :
    Nat → Pipeline τ ε γ → σ → Pull (Except ε γ) × Pipeline τ ε γ × σ
  | 0, p, s => (.pending, p, s)
  | rounds + 1, p, s =>
    match round around p s with
    | (some answer, p, s) => (answer, p, s)
    | (none, p, s) => poll around rounds p s

end Pipeline

end Collate
