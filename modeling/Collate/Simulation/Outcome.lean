/-
What steps answer.
-/
import Collate.Simulation.Session

set_option autoImplicit false

namespace Collate.Simulation

/-- The answer of a step. -/
inductive Outcome where
  | done
  /-- The layer or the rule failed. -/
  | failed (reason : Error)
  /-- What a store answered to one of its holders. -/
  | ofStore (answer : StoreAnswer Atom (List Child))
  | values (values : List FieldValue)
  | aggregates (aggregates : List Aggregate)
  /-- Aggregates and failures with the time each was handed out. -/
  | collected (answers : List (Nat × Except Error Aggregate))
  | found (hits : Entries Atom (List Child)) (misses : List Atom)
  | entries (entries : Entries Atom (List Child))
  | flag (value : Bool)
  | noFlag
  | lifecycle (state : Lifecycle)
  /-- The outcomes of steps taken together, with the time of each. -/
  | together (outcomes : List (Nat × Outcome))
  /-- The step did not end within an hour. -/
  | stuck
  /-- The step names something the plan does not have. -/
  | unknown

/-- A step's answer, when it was there, and what was written down since the step before, by log. -/
structure Report where
  time : Nat
  outcome : Outcome
  logs : List (List (LogLine Atom Child))

/-- The answer of a rule asked for the values of some ids. -/
def Outcome.ofResolved (resolved : Resolved Atom FieldValue) (ids : List Atom) : Outcome :=
  .values (ids.map fun id => resolved.get id)

/-- An answer without contents, or a failure. -/
def Outcome.ofUnit : Except Error Unit → Outcome
  | .ok _ => .done
  | .error e => .failed e

end Collate.Simulation
