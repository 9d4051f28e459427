/-
Field values, and what a rule gives without its caches.

What a rule makes of an id depends on the id's children alone: a cached list of no children and no
entry at all mean the same to it, for every cardinality. The measure of all caching is the rule
without layers, asked for a single id with nobody else around.
-/
import Collate.Proofs.Coherence

set_option autoImplicit false

namespace Collate

variable {ι α β : Type}

/-! ## 1. The value of children -/

namespace Shape

/-- The field value of an id with its children. -/
def field (shape : Shape ι α β) (children : ι → List α) (id : ι) : β :=
  (shape.value? (children id)).getD (shape.default id)

theorem value?_nil (shape : Shape ι α β) : shape.value? [] = none := by
  cases shape <;> rfl

variable [DecidableEq ι]

omit [DecidableEq ι] in
theorem fst_valuesOf_sublist (shape : Shape ι α β) (l : List (ι × List α)) :
    ((shape.valuesOf l).map Prod.fst).Sublist (l.map Prod.fst) := by
  induction l with
  | nil => exact .slnil
  | cons p rest ih =>
    unfold valuesOf
    split
    · exact ih.cons_cons p.1
    · exact ih.cons p.1

theorem lookupIn_valuesOf (shape : Shape ι α β) {l : List (ι × List α)}
    (h : (l.map Prod.fst).Nodup) (id : ι) :
    Entries.lookupIn id (shape.valuesOf l) = (Entries.lookupIn id l).bind shape.value? := by
  induction l with
  | nil => rfl
  | cons p rest ih =>
    obtain ⟨hp, hrest⟩ := List.nodup_cons.1 h
    unfold valuesOf
    by_cases hid : p.1 = id
    · cases hv : shape.value? p.2 with
      | some value => simp [Entries.lookupIn, hid, hv]
      | none =>
        -- Of an id without a value nothing is written, and the id does not come again.
        have hnot : id ∉ (shape.valuesOf rest).map Prod.fst := fun hm =>
          hp (hid ▸ (fst_valuesOf_sublist shape rest).subset hm)
        simp [Entries.lookupIn, hid, hv, Entries.lookupIn_of_not_mem hnot]
    · cases hv : shape.value? p.2 with
      | some value => simp [Entries.lookupIn, hid, ih hrest]
      | none => simp [Entries.lookupIn, hid, ih hrest]

/-- The value of an id, or the default, is what the children found lead to. -/
theorem get_resolved_found (shape : Shape ι α β) (grouped : Entries ι (List α)) (id : ι) :
    (shape.resolved grouped).get id = shape.field (fun id => (grouped.get? id).getD []) id := by
  have hnodup : ((shape.valuesOf grouped.pairs).map Prod.fst).Nodup :=
    (fst_valuesOf_sublist shape grouped.pairs).nodup grouped.distinct
  have hvalue : (shape.resolved grouped).values.get? id = (grouped.get? id).bind shape.value? := by
    rw [resolved, Entries.get?_ofList hnodup, lookupIn_valuesOf shape grouped.distinct]
    rfl
  rw [Resolved.get, hvalue, field]
  cases grouped.get? id with
  | none =>
    rw [Option.getD_none, value?_nil]
    rfl
  | some found => rfl

/-- **Whatever answers for an id leads to its field value.** -/
theorem get_resolved (shape : Shape ι α β) {children : ι → List α} {ids : List ι}
    {grouped : Entries ι (List α)} (h : Answers children ids grouped) {id : ι} (hid : id ∈ ids) :
    (shape.resolved grouped).get id = shape.field children id := by
  rw [get_resolved_found, field, field]
  cases hg : grouped.get? id with
  | none =>
    rw [Option.getD_none, h.missing id hid hg]
  | some found =>
    rw [Option.getD_some, h.complete id found hg]

end Shape

/-! ## 2. A single call without caches -/

/-- The rule without its layers. -/
def Rule.uncached (rule : Rule ι α β) : Rule ι α β :=
  { rule with path := { rule.path with layers := [] } }

variable [DecidableEq ι]

/-- Runs a resolution that nobody else gets in the way of: whenever it waits, time moves on to its
next alarm; at most so many times. -/
def Resolution.alone : Nat → Resolution ι α → System ι α → Option (Except Error (Entries ι (List α)))
  | 0, _, _ => none
  | waits + 1, r, sys =>
    match r.run sys with
    | (.finished result, _) => some result
    | (.waiting r, sys) =>
      match Alarm.next? sys.now r.alarms with
      | some due => alone waits r (sys.moveTo due r.alarms)
      | none => none

/-- What a rule gives for one id in a single call. Without layers it waits for its source only. -/
def Rule.single (rule : Rule ι α β) (id : ι) (sys : System ι α) : Option (Except Error β) :=
  let (r, sys) := Resolution.start rule.path [id] sys
  (r.alone 2 sys).map fun result => result.map fun grouped => (rule.shape.resolved grouped).get id

namespace Resolution

/-- A resolution whose answer is there ends with it. -/
theorem runSteps_answered {r : Resolution ι α} {alarm : Alarm}
    {answer : Except Error (Entries ι (List α))} (hp : r.phase = .walking (.waiting alarm answer []))
    {sys : System ι α} (hnow : alarm.due ≤ sys.now) (fuel : Nat) :
    (runSteps step (fuel + 2) r sys).1 = .finished answer := by
  have hlt : ¬sys.now < alarm.due := Nat.not_lt.2 hnow
  cases answer with
  | error e => simp [runSteps, step, hp, Walk.step, hlt, finish]
  | ok fetched => simp [runSteps, step, hp, Walk.step, hlt, finish]

theorem alone_of_finished {r : Resolution ι α} {sys : System ι α}
    {answer : Except Error (Entries ι (List α))} (h : (r.run sys).1 = .finished answer)
    (waits : Nat) : r.alone (waits + 1) sys = some answer := by
  rw [alone]
  rcases hres : r.run sys with ⟨standing, sys'⟩
  rw [hres] at h
  obtain rfl : standing = _ := h
  rfl

/-- Without layers and company a resolution gives its source's answer. -/
theorem alone_uncached {r : Resolution ι α} {ids : List ι} (hids : ids ≠ [])
    (hp : r.phase = .walking (.asking ids [])) (sys : System ι α) :
    r.alone 2 sys = some (sys.ask r.path.origin ids).1.2 := by
  let asked := (sys.ask r.path.origin ids).2
  let alarm := asked.alarm (sys.ask r.path.origin ids).1.1
  let answer := (sys.ask r.path.origin ids).1.2
  have hempty : ids.isEmpty = false := by simpa using hids
  have hstep : r.step sys = (.going (r.into (.walking (.waiting alarm answer []))), asked) := by
    simp only [step, hp, Walk.step, hempty]
    rfl
  have hbudget : r.budget = 3 := by simp [budget, hp, Walk.budget, Walk.budgetOfReturn]
  by_cases hnow : asked.now < alarm.due
  · -- The answer takes its time: the resolution waits for it, and then it is there.
    have hblocked : (r.into (.walking (.waiting alarm answer []))).step asked
        = (.blocked, asked) := by
      simp only [step, into, Walk.step, if_pos hnow]
    have hwait : r.run sys = (.waiting (r.into (.walking (.waiting alarm answer []))), asked) := by
      rw [run, hbudget, runSteps, hstep]
      simp only [runSteps, hblocked]
    have hnext : Alarm.next? asked.now [alarm] = some alarm.due := by
      simp [Alarm.next?, hnow]
    have hmoved : (asked.moveTo alarm.due [alarm]).now = alarm.due := by
      obtain ⟨ready, _, h⟩ := System.rouseAll_eq { asked with now := alarm.due }
        (Alarm.ringing alarm.due [alarm])
      rw [System.moveTo, h]
    have hrun : ((r.into (.walking (.waiting alarm answer []))).run
        (asked.moveTo alarm.due [alarm])).1 = .finished answer :=
      runSteps_answered rfl (Nat.le_of_eq hmoved.symm) 1
    rw [alone, hwait]
    simp only [alarms, into, Walk.alarms, hnext]
    exact alone_of_finished hrun 0
  · have hfin : (r.run sys).1 = .finished answer := by
      rw [run, hbudget, runSteps, hstep]
      exact runSteps_answered rfl (Nat.le_of_not_lt hnow) 0
    exact alone_of_finished hfin 1

end Resolution

/-- **A single call without caches gives what the source answers**, failures included. -/
theorem Rule.single_uncached (rule : Rule ι α β) (id : ι) (sys : System ι α) :
    rule.uncached.single id sys = some ((sys.ask rule.path.origin [id]).1.2.map fun grouped =>
      (rule.shape.resolved grouped).get id) := by
  have hask : ((Resolution.start rule.uncached.path [id] sys).2.ask rule.path.origin [id]).1
      = (sys.ask rule.path.origin [id]).1 := by
    cases rule.path.origin <;> rfl
  have halone : (Resolution.start rule.uncached.path [id] sys).1.alone 2
      (Resolution.start rule.uncached.path [id] sys).2
      = some ((Resolution.start rule.uncached.path [id] sys).2.ask rule.path.origin [id]).1.2 :=
    Resolution.alone_uncached (List.cons_ne_nil id []) rfl _
  rw [hask] at halone
  exact congrArg (Option.map fun result => result.map fun grouped =>
    (rule.shape.resolved grouped).get id) halone

/-- What a single call without caches gives, if it gives anything, is the field value. -/
theorem Rule.field_of_single {rule : Rule ι α β} {children : ι → List α} {sys : System ι α}
    (h : rule.path.origin.PerId children sys) {id : ι} {value : β}
    (hv : rule.uncached.single id sys = some (.ok value)) :
    value = rule.shape.field children id := by
  rw [Rule.single_uncached] at hv
  cases ha : (sys.ask rule.path.origin [id]).1.2 with
  | error e =>
    rw [ha] at hv
    cases hv
  | ok grouped =>
    rw [ha] at hv
    have hanswers := h.answers (by simp) ha
    rw [← rule.shape.get_resolved hanswers (List.mem_singleton_self id)]
    cases hv
    rfl

end Collate
