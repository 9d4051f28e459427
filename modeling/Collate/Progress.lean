/-
Things that go on in steps. What is going on is a value; one step either finds that it has to wait,
or leads to what is going on next, or ends with a result, and it may change a state that several
such things share. Between any two steps others may take theirs. Running something on its own means
taking its steps until it waits or ends.

A step that is blocked stands for an await that is pending, and a standing is what one poll of a
future comes to.
-/
set_option autoImplicit false

namespace Collate

/-- What one step leads to. -/
inductive Progress (σ ρ : Type) where
  /-- Nothing can be done now; the step changed nothing that matters to it. -/
  | blocked
  /-- It goes on from here. -/
  | going (next : σ)
  /-- It is over. -/
  | finished (result : ρ)

/-- Where something stands after it ran for as long as it could. -/
inductive Standing (σ ρ : Type) where
  | waiting (s : σ)
  | finished (result : ρ)

/-- Takes at most `fuel` steps, until a step is blocked or the last one. -/
def runSteps {σ ρ ω : Type} (step : σ → ω → Progress σ ρ × ω) : Nat → σ → ω → Standing σ ρ × ω
  | 0, s, w => (.waiting s, w)
  | fuel + 1, s, w =>
    match step s w with
    | (.blocked, w) => (.waiting s, w)
    | (.going s, w) => runSteps step fuel s w
    | (.finished r, w) => (.finished r, w)

/-- The first of several times that is still to come, where any of them may be missing. -/
def earliest (now : Nat) (times : List (Option Nat)) : Option Nat :=
  (times.filterMap fun time => time.filter (now < ·)).min?

end Collate
