/-
Running a simulation. Time stands still for as long as anyone is called: the step that is taken goes
on first, then the consumers of feeds, in the order in which they were called, and then the step
again. Only then does time move, to the next moment at which an alarm rings. After a step its
consequences follow before its log is read, again without time passing.
-/
import Collate.Simulation.Activity

set_option autoImplicit false

namespace Collate.Simulation

namespace Session

/-- The time a step may take before it counts as stuck. -/
def patience : Nat := 3600000

/-- Lets the consumer of a feed have its turn. -/
def runConsumer (s : Session) (strand : Strand) : Session :=
  match strand with
  | .consumer feed =>
    match s.feeds[feed]? with
    | none => s
    | some feed =>
      let consumer := feed.consumer
      let (consumer, system) := consumer.run consumer.budget (s.system.beginTurn strand)
      { s with system := system }.setConsumer consumer
  | _ => s

/-- Lets consumers go on as they are called, in at most so many turns. -/
def runConsumers : Nat → Session → Session
  | 0, s => s
  | turns + 1, s =>
    match s.system.takeReady Strand.isConsumer with
    | (some strand, system) => runConsumers turns ({ s with system := system }.runConsumer strand)
    | (none, _) => s

/-- How often a session may have to look again within a moment, or to move on in time, for what its
feeds bring. -/
def feedRounds (s : Session) : Nat :=
  s.feeds.foldr (fun feed n => 8 * feed.consumer.inlet.remaining + 16 + n) 16

/-- Lets everything follow that consumers do without time passing. -/
def settle (s : Session) : Session := s.runConsumers s.feedRounds

/-- Gives the step its turn. It is not called any more. -/
def beginStep (s : Session) : Session :=
  { s with system := (s.system.forget .step).beginTurn .step }

/-- The session at the next moment at which someone goes on: now, if the step is called, or else
when the next alarm rings. -/
def nextMoment (s : Session) (activity : Activity) : Option Session :=
  if s.system.stepIsCalled then some s
  else
    let alarms := activity.alarms s ++ s.feeds.flatMap fun feed => feed.consumer.alarms
    (Alarm.next? s.system.now alarms).map fun time =>
      { s with system := s.system.moveTo time alarms }

/-- Gives a step up that did not end by the time `limit`. -/
def giveUp (s : Session) (limit : Nat) (activity : Activity) : Outcome × Session :=
  (.stuck, activity.cancel { s with system := { s.system with now := limit } })

/-- Lets an activity that waits go on to its end, in at most so many rounds. -/
def complete (limit : Nat) : Nat → Activity → Session → Outcome × Session
  | 0, activity, s => s.giveUp limit activity
  | rounds + 1, activity, s =>
    -- The activity waits, so it is the turn of the consumers.
    match s.settle.nextMoment activity with
    | none => s.giveUp limit activity
    | some s =>
      if limit < s.system.now then s.giveUp limit activity
      else if s.system.stepIsCalled then
        match activity.run s.beginStep with
        | (.finished outcome, s) => (outcome, s.dropUnused [])
        | (.waiting activity, s) =>
          complete limit rounds activity (s.dropUnused (activity.feeds s))
      else complete limit rounds activity s

/-- The lines of one log, the earliest in front. -/
def logOf (s : Session) (bucket : Nat) : List (LogLine Atom Child) :=
  (s.system.log.filter (·.bucket = bucket)).reverse

end Session

namespace Step

mutual

/-- A number of rounds that is enough for a step, apart from what feeds add. -/
def rounds : Step → Nat
  | .assemble windows .. => 64 + 16 * windows.length
  | .assembleParents parents .. => 64 + 16 * parents.length
  | .parallel steps => roundsAll steps
  | _ => 64

/-- A number of rounds that is enough for several steps. -/
def roundsAll : List (Nat × Step) → Nat
  | [] => 64
  | (_, step) :: rest => 64 + rounds step + roundsAll rest

end

end Step

namespace Session

/-- Takes a step and lets its consequences follow. -/
def take (s : Session) (step : Step) : Report × Session :=
  let rules := s.rules.length + 1
  let rounds := (step.rounds * rules + s.feedRounds) * 4
  let limit := s.system.now + patience
  let (outcome, s) : Outcome × Session := match Activity.begin s.beginStep step with
    | (.finished outcome, s) => (outcome, s.dropUnused [])
    | (.waiting activity, s) =>
      complete limit rounds activity (s.dropUnused (activity.feeds s))
  let time := s.system.now
  let s := s.settle
  let logs := (List.range s.buckets).map s.logOf
  (⟨time, outcome, logs⟩, { s with system := { s.system with log := [], ready := [] } })

/-- Takes steps one after the other. -/
def takeAll (s : Session) : List Step → List Report
  | [] => []
  | step :: rest =>
    let (report, s) := s.take step
    report :: takeAll s rest

end Session

/-- The reports of a simulation's steps. -/
def Plan.run (plan : Plan) : List Report := (Session.ofPlan plan).takeAll plan.steps

end Collate.Simulation
