/-
Assembling a window of parents. The ids of a window, each once and in the order they first occur,
are resolved by all rules at the same time. Rules go on in their order; the first one found failing
ends the window and the others give up, so a rule that comes after one failing without a wait never
begins. When all rules are done every parent, in order and repeated as often as it occurs, gets the
values of its id, one per rule. A window of no parents resolves nothing.

`start` and `run` are `process` of an `Assembler`, the branches are `resolve_all`, and `fields` and
`construct` are those of `Rules` and `Constructor`. Several rules are joined by `try_join`, of which
the documented behaviour is assumed: all go on together, in their order, and the first failure found
ends the others.
-/
import Collate.Distinct
import Collate.Rule

set_option autoImplicit false

namespace Collate

/-- Rules, the id of a parent, and how a parent and its field values become an aggregate. -/
structure Assembler (ι α β π γ : Type) where
  rules : List (Rule ι α β)
  key : π → ι
  construct : π → List β → γ

/-! ## 1. All rules of a window -/

/-- How far one rule of a window has come. -/
inductive Branch (ι α : Type) where
  | pending (resolution : Resolution ι α)
  | resolved (grouped : Entries ι (List α))

namespace Branch

variable {ι α : Type}

/-- One branch per rule, none of them begun. -/
def startAll : List (Path ι α) → List ι → System ι α → List (Branch ι α) × System ι α
  | [], _, sys => ([], sys)
  | path :: rest, ids, sys =>
    let (resolution, sys) := Resolution.start path ids sys
    let (branches, sys) := startAll rest ids sys
    (.pending resolution :: branches, sys)

/-- All branches give up, the last one first. -/
def cancelAll (branches : List (Branch ι α)) (sys : System ι α) : System ι α :=
  branches.foldr (fun branch sys => match branch with
    | .pending resolution => resolution.cancel sys
    | .resolved _ => sys) sys

/-- What the branches found, if all of them are done. -/
def results? : List (Branch ι α) → Option (List (Entries ι (List α)))
  | [] => some []
  | .pending _ :: _ => none
  | .resolved grouped :: rest => (results? rest).map (grouped :: ·)

variable [DecidableEq ι]

/-- Lets the branches go on, in order, until one fails. What is returned on a failure are the
branches that may still hold something. -/
def runAll : List (Branch ι α) → System ι α →
    Except (Error × List (Branch ι α)) (List (Branch ι α)) × System ι α
  | [], sys => (.ok [], sys)
  | .resolved grouped :: rest, sys =>
    match runAll rest sys with
    | (.ok branches, sys) => (.ok (.resolved grouped :: branches), sys)
    | (.error (e, branches), sys) => (.error (e, branches), sys)
  | .pending resolution :: rest, sys =>
    match resolution.run sys with
    -- The branch that failed holds nothing any more; those in front of it are added on the way out.
    | (.finished (.error e), sys) => (.error (e, rest), sys)
    | (.finished (.ok grouped), sys) =>
      match runAll rest sys with
      | (.ok branches, sys) => (.ok (.resolved grouped :: branches), sys)
      | (.error (e, branches), sys) => (.error (e, branches), sys)
    | (.waiting resolution, sys) =>
      match runAll rest sys with
      | (.ok branches, sys) => (.ok (.pending resolution :: branches), sys)
      | (.error (e, branches), sys) => (.error (e, .pending resolution :: branches), sys)

end Branch

/-! ## 2. One window -/

/-- A window that is being resolved. -/
structure WindowTask (ι α π : Type) where
  parents : List π
  branches : List (Branch ι α)

namespace Assembler

variable {ι α β π γ : Type} [DecidableEq ι]

/-- The values of the rules, from what their paths found. -/
def resolved (assembler : Assembler ι α β π γ) (results : List (Entries ι (List α))) :
    List (Resolved ι β) :=
  (assembler.rules.zip results).map fun (rule, grouped) => rule.shape.resolved grouped

/-- The field values of an id, one per rule. -/
def fields (resolved : List (Resolved ι β)) (id : ι) : List β := resolved.map fun r => r.get id

/-- The aggregates of a window whose ids are resolved. -/
def aggregates (assembler : Assembler ι α β π γ) (parents : List π)
    (results : List (Entries ι (List α))) : List γ :=
  let resolved := assembler.resolved results
  parents.map fun parent => assembler.construct parent (fields resolved (assembler.key parent))

/-- A window whose rules have not begun. -/
def start (assembler : Assembler ι α β π γ) (parents : List π) (sys : System ι α) :
    WindowTask ι α π × System ι α :=
  match parents with
  | [] => (⟨[], []⟩, sys)
  | _ :: _ =>
    let ids := distinct (parents.map assembler.key)
    let (branches, sys) := Branch.startAll (assembler.rules.map (·.path)) ids sys
    (⟨parents, branches⟩, sys)

/-- Lets the rules of a window go on for as long as possible. -/
def run (assembler : Assembler ι α β π γ) (task : WindowTask ι α π) (sys : System ι α) :
    Standing (WindowTask ι α π) (Except Error (List γ)) × System ι α :=
  -- A window of no parents is done without a single call.
  if task.parents.isEmpty then (.finished (.ok []), sys)
  else
    match Branch.runAll task.branches sys with
    -- One failure is enough; whatever the other rules wait for or hold is given back.
    | (.error (e, left), sys) => (.finished (.error e), Branch.cancelAll left sys)
    | (.ok branches, sys) =>
      match Branch.results? branches with
      | some results => (.finished (.ok (assembler.aggregates task.parents results)), sys)
      | none => (.waiting { task with branches := branches }, sys)

end Assembler

namespace WindowTask

variable {ι α π : Type}

/-- Gives the window up. -/
def cancel (task : WindowTask ι α π) (sys : System ι α) : System ι α :=
  Branch.cancelAll task.branches sys

/-- The alarms set. -/
def alarms (task : WindowTask ι α π) : List Alarm :=
  task.branches.flatMap fun
    | .pending resolution => resolution.alarms
    | .resolved _ => []

end WindowTask

end Collate
