/-
Resolving without layers, from the ids to the field values.

A rule without layers asks its source itself, and what it gives is a function of what the source
delivers. Children are told by their ids, whatever was asked for: those of other ids are passed
over, the rest keep the order they came in. So the children an id ends up with are the delivered
ones of that id (`Source.group_ok`), and its value is the first of them or all of them together
(`Shape.gathered`). A failure anywhere undoes all that, and the first one is the answer.

The source is called with the first turn and never again. Between that turn and the answer anything
may happen to the rest of the world; the resolution holds its answer already and only waits for it
to be due.
-/
import Collate.Proofs.Conduct
import Collate.Proofs.Fields

set_option autoImplicit false

namespace Collate

variable {ι α β : Type}

/-! ## 1. What is delivered -/

namespace Source

/-- A delivery is one of children alone, or of children up to a failure. -/
theorem delivery_cases (items : List (Except String α)) :
    (∃ children : List α, items = children.map .ok)
    ∨ ∃ (children : List α) (cause : String) (later : List (Except String α)),
      items = children.map .ok ++ .error cause :: later := by
  induction items with
  | nil => exact Or.inl ⟨[], rfl⟩
  | cons item rest ih =>
    cases item with
    | error cause => exact Or.inr ⟨[], cause, rest, rfl⟩
    | ok child =>
      rcases ih with ⟨children, rfl⟩ | ⟨children, cause, later, rfl⟩
      · exact Or.inl ⟨child :: children, rfl⟩
      · exact Or.inr ⟨child :: children, cause, later, rfl⟩

variable [DecidableEq ι]

/-- Children without a failure are grouped, and each id asked for gets its own in their order. -/
theorem group_ok (key : α → ι) (ids : List ι) (children : List α) :
    ∃ grouped, group key ids (children.map .ok) = .ok grouped
      ∧ ∀ id, (grouped.get? id).getD []
        = if id ∈ ids then children.filter fun child => key child = id else [] := by
  obtain ⟨grouped, hgrouped, hget⟩ := groupFrom_ok key ids children .empty
  refine ⟨grouped, hgrouped, fun id => ?_⟩
  rw [hget, Entries.get?_empty, extended]
  by_cases hid : id ∈ ids
  · rw [if_pos hid, if_pos hid]
    split
    · next hnone => exact hnone.symm
    · rfl
  · rw [if_neg hid, if_neg hid]
    rfl

end Source

/-! ## 2. The values that come of it -/

namespace Shape

variable [DecidableEq ι]

/-- The value of an id by the children a source delivers: where an id has one child, the first that
is its own; where it has many, a fresh collection with all of them in their order. An id that was
not asked for, or has none, has the default. -/
def gathered (shape : Shape ι α β) (key : α → ι) (ids : List ι) (children : List α) (id : ι) : β :=
  match shape with
  | .one convert default =>
    if id ∈ ids then ((children.find? fun child => key child = id).map convert).getD (default id)
    else default id
  | .many fresh extend =>
    if id ∈ ids ∧ ∃ child ∈ children, key child = id
    then extend fresh (children.filter fun child => key child = id)
    else fresh

theorem gathered_of_not_asked (shape : Shape ι α β) (key : α → ι) {ids : List ι}
    (children : List α) {id : ι} (hid : id ∉ ids) :
    shape.gathered key ids children id = shape.default id := by
  cases shape with
  | one convert default => exact if_neg hid
  | many fresh extend => exact if_neg fun h => hid h.1

/-- What is found of each id leads to the value that its children have. -/
theorem get_resolved_gathered (shape : Shape ι α β) {key : α → ι} {ids : List ι}
    {children : List α} {grouped : Entries ι (List α)}
    (h : ∀ id, (grouped.get? id).getD []
      = if id ∈ ids then children.filter fun child => key child = id else []) (id : ι) :
    (shape.resolved grouped).get id = shape.gathered key ids children id := by
  rw [get_resolved_found, field, h]
  by_cases hid : id ∈ ids
  · rw [if_pos hid]
    cases shape with
    | one convert default =>
      rw [gathered, if_pos hid, ← List.head?_filter]
      cases children.filter fun child => key child = id <;> rfl
    | many fresh extend =>
      have hsome : (∃ child ∈ children, key child = id)
          ↔ (children.filter fun child => key child = id) ≠ [] := by
        simp [List.filter_eq_nil_iff]
      rw [gathered]
      simp only [hid, true_and, hsome]
      cases children.filter fun child => key child = id <;> rfl
  · rw [if_neg hid, gathered_of_not_asked shape key children hid, value?_nil]
    rfl

/-- What a rule makes of the reply of its source. -/
structure Gives (shape : Shape ι α β) (key : α → ι) (ids : List ι) (reply : Reply α)
    (answer : Except Error (Entries ι (List α))) : Prop where
  /-- It fails just when a failure is delivered, and with the first one. -/
  failed : ∀ e, answer = .error e ↔ ∃ (children : List α) (cause : String)
    (later : List (Except String α)),
      reply.items = children.map .ok ++ .error cause :: later ∧ e = .source cause
  /-- Otherwise every id, asked for or not, gets its value. -/
  answered : ∀ children : List α, reply.items = children.map .ok →
    ∃ grouped, answer = .ok grouped
      ∧ ∀ id, (shape.resolved grouped).get id = shape.gathered key ids children id
  /-- A source that has everything at once gives just that. -/
  atOnce : ∀ delay result, reply = .atOnce delay result → match result with
    | .error cause => answer = .error (.source cause)
    | .ok children => ∃ grouped, answer = .ok grouped
      ∧ ∀ id, (shape.resolved grouped).get id = shape.gathered key ids children id

/-- **Grouping gives what was delivered.** -/
theorem gives_group (shape : Shape ι α β) (key : α → ι) (ids : List ι) (reply : Reply α) :
    shape.Gives key ids reply ((Source.group key ids reply.items).mapError .source) := by
  have hfailed : ∀ (children : List α) (cause : String) (later : List (Except String α)),
      reply.items = children.map .ok ++ .error cause :: later →
      (Source.group key ids reply.items).mapError Error.source = .error (.source cause) := by
    intro children cause later hitems
    rw [hitems, Source.group, Source.groupFrom_of_failure]
    rfl
  have hanswered : ∀ children : List α, reply.items = children.map .ok →
      ∃ grouped, (Source.group key ids reply.items).mapError Error.source = .ok grouped
        ∧ ∀ id, (shape.resolved grouped).get id = shape.gathered key ids children id := by
    intro children hitems
    obtain ⟨grouped, hgrouped, hget⟩ := Source.group_ok key ids children
    rw [hitems, hgrouped]
    exact ⟨grouped, rfl, shape.get_resolved_gathered hget⟩
  refine ⟨fun e => ⟨fun he => ?_, ?_⟩, hanswered, fun delay result hreply => ?_⟩
  · rcases Source.delivery_cases reply.items with
      ⟨children, hitems⟩ | ⟨children, cause, later, hitems⟩
    · obtain ⟨grouped, hok, _⟩ := hanswered children hitems
      rw [hok] at he
      cases he
    · rw [hfailed children cause later hitems] at he
      exact ⟨children, cause, later, hitems, (Except.error.inj he).symm⟩
  · rintro ⟨children, cause, later, hitems, rfl⟩
    exact hfailed children cause later hitems
  · subst hreply
    cases result with
    | error cause => exact hfailed [] cause [] rfl
    | ok children => exact hanswered children rfl

end Shape

/-! ## 3. The turns of a resolution -/

namespace Resolution

variable [DecidableEq ι]

/-- A resolution that calls its source with a step: once, with its ids, and no other. -/
structure Calls (r : Resolution ι α) (n bucket : Nat) (sys : System ι α) (asked : Resolution ι α)
    (called : System ι α) : Prop where
  step : r.step sys = (.going asked, called)
  once : called.sources = sys.sources.set n ((sys.sources.get n).call r.ids).2
  logged : called.log = ⟨bucket, sys.now, .sourceCalled r.ids⟩ :: sys.log

/-- A resolution that only waits for its answer to be due. -/
structure Awaits (r : Resolution ι α) (due : Nat) (answer : Except Error (Entries ι (List α))) :
    Prop where
  waits : ∀ sys : System ι α, sys.now < due → r.run sys = (.waiting r, sys)
  ends : ∀ sys : System ι α, due ≤ sys.now → (r.run sys).1 = .finished answer
  silent : ∀ sys : System ι α, (r.run sys).2.sources = sys.sources ∧ (r.run sys).2.log = sys.log

/-- Once the answer is there nothing happens any more but that the lock is given back. -/
theorem awaits {r : Resolution ι α} {alarm : Alarm} {answer : Except Error (Entries ι (List α))}
    (hp : r.phase = .walking (.waiting alarm answer [])) : r.Awaits alarm.due answer := by
  have hbudget : r.budget = 3 := by simp [budget, hp, Walk.budget, Walk.budgetOfReturn]
  have hwaits : ∀ sys : System ι α, sys.now < alarm.due → r.run sys = (.waiting r, sys) := by
    intro sys hnow
    rw [run, hbudget]
    simp [runSteps, Resolution.step, hp, Walk.step, hnow]
  have hends : ∀ sys : System ι α, alarm.due ≤ sys.now →
      r.run sys = (.finished answer, sys.release r.path.lock r.ticket) := by
    intro sys hnow
    have hlt : ¬sys.now < alarm.due := Nat.not_lt.2 hnow
    rw [run, hbudget]
    cases answer <;> simp [runSteps, Resolution.step, hp, Walk.step, hlt, finish]
  refine ⟨hwaits, fun sys hnow => congrArg Prod.fst (hends sys hnow), fun sys => ?_⟩
  rcases Nat.lt_or_ge sys.now alarm.due with hnow | hnow
  · rw [hwaits sys hnow]
    exact ⟨rfl, rfl⟩
  · rw [hends sys hnow]
    exact ⟨sources_release .., log_release ..⟩

/-- Without layers there is nothing to do for no ids. -/
theorem run_nothing {r : Resolution ι α} (hp : r.phase = .walking (.asking [] []))
    (sys : System ι α) :
    r.run sys = (.finished (.ok .empty), sys.release r.path.lock r.ticket) := by
  have hbudget : r.budget = 3 := by simp [budget, hp, Walk.budget, Walk.budgetOfReturn]
  rw [run, hbudget]
  simp [runSteps, Resolution.step, hp, Walk.step, finish]

end Resolution

/-! ## 4. Whole resolutions -/

variable [DecidableEq ι]

/-- **Resolving without layers.** Let a rule without layers get any ids. With none it ends at once,
calls nothing, and every id has the default. Otherwise its first step, whenever it comes, calls the
source once with the ids; the reply takes its time, in which the resolution waits and anything else
may happen; at its first turn after that it ends, and the source is not called again. It has failed
just when a failure was delivered, with the first, and else each id has the value of its children.
Left alone it gives the same answer. -/
theorem resolve_uncached (rule : Rule ι α β) {n bucket : Nat} {key : α → ι}
    (hlayers : rule.path.layers = []) (horigin : rule.path.origin = .source n bucket key)
    (ids : List ι) (begun sys : System ι α) :
    let r := (Resolution.start rule.path ids begun).1
    let reply := ((sys.sources.get n).call ids).1
    (ids = [] → (r.run sys).1 = .finished (.ok .empty)
      ∧ (r.run sys).2.sources = sys.sources ∧ (r.run sys).2.log = sys.log
      ∧ ∀ id, (rule.shape.resolved .empty).get id = rule.shape.default id)
    ∧ (ids ≠ [] → ∃ asked called answer, r.Calls n bucket sys asked called
      ∧ asked.Awaits (sys.now + reply.delay) answer ∧ rule.shape.Gives key ids reply answer
      ∧ r.alone 2 sys = some answer) := by
  intro r reply
  have hids : r.ids = ids := rfl
  have hp : r.phase = .walking (.asking ids []) := by
    show (if rule.path.layers.isEmpty then _ else _) = _
    rw [hlayers]
    rfl
  refine ⟨fun hnone => ?_, fun hsome => ?_⟩
  · rw [hnone] at hp
    rw [Resolution.run_nothing hp]
    refine ⟨rfl, Resolution.sources_release .., Resolution.log_release .., fun id => ?_⟩
    rw [Shape.get_resolved_found, Shape.field, Entries.get?_empty, Option.getD_none,
      Shape.value?_nil]
    rfl
  · let answer := (Source.group key ids reply.items).mapError Error.source
    let called := { sys with sources := sys.sources.set n ((sys.sources.get n).call ids).2 }.note
      bucket (.sourceCalled ids)
    let asked := r.into (.walking (.waiting (called.alarm (sys.now + reply.delay)) answer []))
    have hask : sys.ask r.path.origin ids = ((sys.now + reply.delay, answer), called) := by
      rw [show r.path.origin = .source n bucket key from horigin]
      rfl
    have hstep : r.step sys = (.going asked, called) := by
      have hempty : ids.isEmpty = false := by simpa using hsome
      simp only [Resolution.step, hp, Walk.step, hempty, hask]
      rfl
    have hphase : asked.phase
        = .walking (.waiting (called.alarm (sys.now + reply.delay)) answer []) := rfl
    refine ⟨asked, called, answer, ⟨hstep, rfl, rfl⟩, Resolution.awaits hphase,
      rule.shape.gives_group key ids reply, ?_⟩
    rw [Resolution.alone_uncached hsome hp, hask]

/-- A rule with many children for an id; its collections begin with a zero. -/
def seeded : Rule Nat (Nat × Nat) (List Nat) where
  path := ⟨0, [], .source 0 7 Prod.fst⟩
  shape := .many [0] fun values children => values ++ children.map Prod.snd

/-- The only source delivers some items after five. -/
def delivering (items : List (Except String (Nat × Nat))) : System Nat (Nat × Nat) where
  sources := .ofList default [{ reply := fun _ _ => { delay := 5, items := items } }]

/-- Asked for 2, 1 and 2 again the source delivers a child of 3 among the others, which nobody gets;
and asked another time it fails after its first child. -/
theorem resolve_uncached_seeded :
    let r := (Resolution.start seeded.path [2, 1, 2] {}).1
    seeded.path.layers = [] ∧ seeded.path.origin = .source 0 7 Prod.fst
    ∧ (∃ grouped, r.alone 2 (delivering [.ok (1, 10), .ok (3, 30), .ok (2, 20), .ok (1, 11)])
        = some (.ok grouped)
      ∧ (seeded.shape.resolved grouped).get 1 = [0, 10, 11]
      ∧ (seeded.shape.resolved grouped).get 2 = [0, 20]
      ∧ (seeded.shape.resolved grouped).get 3 = [0])
    ∧ r.alone 2 (delivering [.ok (1, 10), .error "down", .ok (2, 20), .error "late"])
      = some (.error (.source "down")) := by
  intro r
  refine ⟨rfl, rfl, ?_, ?_⟩
  · obtain ⟨asked, called, answer, _, _, hgives, halone⟩ := (resolve_uncached seeded rfl rfl
      [2, 1, 2] {} (delivering [.ok (1, 10), .ok (3, 30), .ok (2, 20), .ok (1, 11)])).2 (by decide)
    obtain ⟨grouped, rfl, hvalues⟩ := hgives.answered [(1, 10), (3, 30), (2, 20), (1, 11)] rfl
    exact ⟨grouped, halone, (hvalues 1).trans (by decide), (hvalues 2).trans (by decide),
      (hvalues 3).trans (by decide)⟩
  · obtain ⟨asked, called, answer, _, _, hgives, halone⟩ := (resolve_uncached seeded rfl rfl
      [2, 1, 2] {} (delivering [.ok (1, 10), .error "down", .ok (2, 20), .error "late"])).2
      (by decide)
    rw [halone, (hgives.failed (.source "down")).2
      ⟨[(1, 10)], "down", [.ok (2, 20), .error "late"], rfl, rfl⟩]

end Collate
