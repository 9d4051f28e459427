/-
Settings of windows and of assembling, and their defaults. Sizes are 64-bit words. A duration is a
number of nanoseconds whose whole seconds are a 64-bit word.

`WindowSettings` is `WindowConfig` with `effective_max_size`, and `AssembleSettings` is
`AssembleConfig`. The defaults are `DEFAULT_MAX_WINDOW_SIZE`, `DEFAULT_MAX_WINDOW_DELAY`, one window
at a time, and `DEFAULT_AUTO_CACHE_INIT_TIMEOUT`.
-/
set_option autoImplicit false

namespace Collate

/-- A length of time. -/
structure Duration where
  nanos : Nat
  /-- The whole seconds fit a 64-bit word. -/
  inRange : nanos < UInt64.size * 1000000000
  deriving DecidableEq, Repr

namespace Duration

/-- Nanoseconds in a second. -/
def nanosPerSecond : Nat := 1000000000

/-- Nanoseconds in a millisecond. -/
def nanosPerMilli : Nat := 1000000

/-- A duration of so many nanoseconds, or the longest there is. -/
def ofNanos (nanos : Nat) : Duration :=
  -- The longest duration is one nanosecond short of the bound.
  ⟨min nanos (UInt64.size * 1000000000 - 1), Nat.lt_of_le_of_lt (Nat.min_le_right ..) (by decide)⟩

/-- A duration of so many milliseconds, or the longest there is. -/
def ofMillis (millis : Nat) : Duration := ofNanos (millis * nanosPerMilli)

/-- Whole seconds and nanoseconds beside them, which may be seconds themselves; nothing if that is
longer than any duration. -/
def ofParts? (seconds nanos : Nat) : Option Duration :=
  if h : seconds * 1000000000 + nanos < UInt64.size * 1000000000 then some ⟨_, h⟩ else none

instance : Inhabited Duration := ⟨ofNanos 0⟩

/-- The whole seconds of a duration. -/
def seconds (d : Duration) : Nat := d.nanos / nanosPerSecond

/-- What is left beside the whole seconds, in nanoseconds. -/
def subsecNanos (d : Duration) : Nat := d.nanos % nanosPerSecond

/-- The milliseconds a timer waits for: timers ring on whole milliseconds and never early. -/
def millis (d : Duration) : Nat := (d.nanos + (nanosPerMilli - 1)) / nanosPerMilli

end Duration

/-- How a sequence of items is cut into windows. -/
structure WindowSettings where
  /-- The largest number of items in a window. -/
  maxSize : UInt64 := 100
  /-- The longest time a window stays open. -/
  maxDelay : Duration := .ofMillis 50
  deriving DecidableEq, Repr

namespace WindowSettings

instance : Inhabited WindowSettings := ⟨{}⟩

/-- The number of items that fill a window. A window of no items does not exist. -/
def effectiveMaxSize (s : WindowSettings) : Nat := max s.maxSize.toNat 1

end WindowSettings

/-- How windows are turned into aggregates. -/
structure AssembleSettings where
  /-- How many windows are resolved at the same time. -/
  maxConcurrentWindows : UInt64 := 1
  deriving DecidableEq, Repr

instance : Inhabited AssembleSettings := ⟨{}⟩

/-- How long lookups wait for the first window of a feed, counted from subscribing to it. -/
def defaultInitTimeout : Duration := .ofMillis 500

end Collate
