/-
Windows. Items of an inlet are gathered into windows: a window opens when its first item is taken,
and it is handed out when it is full, when it was open for the longest time allowed, or when the
inlet ends. No item is dropped.

`windows` leaves the gathering to `chunks_timeout`, which is not part of this library. So that is a
parameter: a `Batcher` is whatever batches items up to a size and within a time, and `Batches` (in
`Collate.Proofs.Batcher`) says what is documented of it. What is proved of `windows` holds for every
batcher that keeps to this.

A `Collector` is one batcher. The inlet is asked before the clock is looked at, so an item that is
available at the very moment a window's time is over still gets in, and so does the end of the
inlet. Feeds and assemblies are run with it; what is proved of them holds for all windows, whatever
they are made of.
-/
import Collate.Inlet
import Collate.Progress
import Collate.Settings

set_option autoImplicit false

namespace Collate

/-! ## 1. Batchers -/

/-- Something that batches the items of an inlet, and is asked whenever someone wants a batch. -/
structure Batcher (τ : Type) where
  State : Type
  start : State
  /-- Asks for the next batch at a moment. -/
  poll : State → Inlet τ → (now : Nat) → Pull (List τ) × State × Inlet τ
  /-- When its timer rings, if one is set. -/
  rings : State → Option Nat
  /-- Whether these items are held, with the moments they were taken: all since the last batch. -/
  Holds : State → List (Nat × τ) → Prop

/-- Windows are batches of a size that a window can have. A batcher is made for a size and a time. -/
def windows {τ : Type} (chunks : (size : Nat) → (delay : Duration) → Batcher τ)
    (s : WindowSettings) : Batcher τ :=
  chunks s.effectiveMaxSize s.maxDelay

/-! ## 2. Collectors -/

/-- The window being gathered. -/
structure Collector (τ : Type) where
  /-- The number of items that fill a window. -/
  size : Nat
  /-- The longest time a window stays open. -/
  delay : Nat
  /-- The items gathered so far. -/
  buffer : List τ := []
  /-- When the time is over of the window that was opened last. -/
  deadline : Nat := 0
  /-- The turn in which someone began to wait for that, if someone does. -/
  waits : Option Nat := none

namespace Collector

variable {τ : Type}

/-- No window open yet. -/
def ofSettings (s : WindowSettings) : Collector τ :=
  { size := s.effectiveMaxSize, delay := s.maxDelay.millis }

/-- Adds an item; the first one opens the window. -/
def push (c : Collector τ) (x : τ) (now : Nat) : Collector τ :=
  { c with
    buffer := c.buffer ++ [x]
    deadline := if c.buffer.isEmpty then now + c.delay else c.deadline
    waits := if c.buffer.isEmpty then none else c.waits }

/-- Hands the window out. -/
def flush (c : Collector τ) : List τ × Collector τ := (c.buffer, { c with buffer := [] })

/-- From this turn on someone waits for the end of an open window, unless they waited before. -/
def waitFrom (c : Collector τ) (turn : Nat) : Collector τ :=
  if c.buffer.isEmpty then c else { c with waits := c.waits.or (some turn) }

/-- Takes items for as long as there are some and there is room for `room` more, and says what
follows for the window. -/
def fill (c : Collector τ) (now turn : Nat) :
    Nat → Inlet τ → Pull (List τ) × Collector τ × Inlet τ
  | 0, inlet => (.item c.flush.1, c.flush.2, inlet)
  | room + 1, inlet =>
    match inlet.pull now turn with
    -- The first item of a window opens it and sets its deadline.
    | (.item x, inlet) => fill (c.push x now) now turn room inlet
    | (.ended, inlet) =>
      if c.buffer.isEmpty then (.ended, c, inlet) else (.item c.flush.1, c.flush.2, inlet)
    | (.pending, inlet) =>
      -- The clock counts only now that the inlet has nothing.
      if !c.buffer.isEmpty && c.deadline ≤ now then (.item c.flush.1, c.flush.2, inlet)
      else (.pending, c.waitFrom turn, inlet)

/-- Asks for the next window at time `now` in the turn `turn`. -/
def pull (c : Collector τ) (inlet : Inlet τ) (now turn : Nat) :
    Pull (List τ) × Collector τ × Inlet τ :=
  c.fill now turn (c.size - c.buffer.length) inlet

/-- When an open window's time is over. -/
def wakesAt (c : Collector τ) : Option Nat := if c.buffer.isEmpty then none else some c.deadline

/-- The alarm of a strand that waits. It stays set when a window is full before its time. -/
def alarms (c : Collector τ) (strand : Strand) : List Alarm :=
  match c.waits with
  | some turn => [⟨c.deadline, turn, strand⟩]
  | none => []

/-- Items were gathered at these moments, and their window is open. -/
structure Holds (c : Collector τ) (size delay : Nat) (held : List (Nat × τ)) : Prop where
  sized : c.size = size
  timed : c.delay = delay
  buffer : c.buffer = held.map Prod.snd
  deadline : ∀ first ∈ held.head?, c.deadline = first.1 + delay

/-- A collector as a batcher, on a clock of nanoseconds. -/
def chunks (size : Nat) (delay : Duration) : Batcher τ where
  State := Collector τ
  start := { size := size, delay := delay.nanos }
  poll c inlet now := c.pull inlet now 0
  rings := wakesAt
  Holds c held := c.Holds size delay.nanos held

end Collector

/-! ## 3. Windows over a whole inlet -/

/-- Windows with the time each was handed out, and the time the inlet ended, if it did. -/
structure Timeline (τ : Type) where
  windows : List (Nat × List τ)
  ended : Option Nat

namespace Timeline

variable {τ : Type}

/-- Asks for windows, waiting for the next moment something can happen whenever there is none, for
at most `rounds` answers. -/
def gather (b : Batcher τ) : Nat → b.State → Inlet τ → Nat → Timeline τ
  | 0, _, _, _ => ⟨[], none⟩
  | rounds + 1, s, inlet, now =>
    match b.poll s inlet now with
    | (.item window, s, inlet) =>
      let later := gather b rounds s inlet now
      { later with windows := (now, window) :: later.windows }
    | (.ended, _, _) => ⟨[], some now⟩
    | (.pending, s, inlet) =>
      match earliest now [inlet.wakesAt, b.rings s] with
      | some wake => gather b rounds s inlet wake
      | none => ⟨[], none⟩

/-- The batches of an inlet that is asked as soon as it has something to say, starting at time zero.
An item leads to at most three answers (a wait for it, its window's wait and its window), the end to
two. -/
def ofInlet (b : Batcher τ) (inlet : Inlet τ) : Timeline τ :=
  gather b (3 * inlet.remaining + 4) b.start inlet 0

end Timeline

end Collate
