/-
The join of a window.

The rules of a window are resolved for its ids, each id once, while the parents are joined one by
one with what the rules found, as often as they occur. So lists of different lengths and orders have
to be put together, and nobody says so but the code. Here a window is followed from its beginning
and each of its rules along with it (`Course`): how the window stands, and how the resolution of
each rule stands. A window that waits has the resolutions of its rules in its branches, one per rule
and in the rules' order (`Course.fits`); that alone is kept by every turn, and the rest is read off
it.
-/
import Collate.Proofs.Batching

set_option autoImplicit false

namespace Collate

variable {ι α β π γ : Type} [DecidableEq ι]

/-! ## 1. A window and its rules -/

/-- How the resolution of a rule stands. -/
abbrev RuleStanding (ι α : Type) := Standing (Resolution ι α) (Except Error (Entries ι (List α)))

/-- The resolution of ids along a path stands like this after some turns. What happened to the
shared state before each of them makes no difference. -/
inductive Path.Comes (path : Path ι α) (ids : List ι) : RuleStanding ι α → Prop where
  | begins (sys : System ι α) : Comes path ids (.waiting (Resolution.start path ids sys).1)
  | turns {r : Resolution ι α} (h : Comes path ids (.waiting r)) (sys : System ι α) :
      Comes path ids (r.run sys).1

/-- Rules have a turn: those that wait go on one after the other, until one of them fails. -/
def turnAll : List (RuleStanding ι α) → System ι α → List (RuleStanding ι α) × System ι α
  | [], sys => ([], sys)
  | .finished result :: rest, sys =>
    let (rest, sys) := turnAll rest sys
    (.finished result :: rest, sys)
  | .waiting r :: rest, sys =>
    match r.run sys with
    -- Those behind it have no turn.
    | (.finished (.error e), sys) => (.finished (.error e) :: rest, sys)
    | (standing, sys) =>
      let (rest, sys) := turnAll rest sys
      (standing :: rest, sys)

/-- How the rule of a branch stands. -/
def Branch.standing : Branch ι α → RuleStanding ι α
  | .pending r => .waiting r
  | .resolved grouped => .finished (.ok grouped)

/-- The field value of an id, from all the children that were found. -/
def Rule.value (rule : Rule ι α β) (grouped : Entries ι (List α)) (id : ι) : β :=
  rule.shape.field (fun id => (grouped.get? id).getD []) id

namespace Assembler

variable {assembler : Assembler ι α β π γ} {parents : List π}
  {window : Standing (WindowTask ι α π) (Except Error (List γ))}
  {standings : List (RuleStanding ι α)}

/-- A window of these parents and its rules. They have their turns together, and anything may happen
to the shared state between two of them. -/
inductive Course (assembler : Assembler ι α β π γ) (parents : List π) :
    Standing (WindowTask ι α π) (Except Error (List γ)) → List (RuleStanding ι α) → Prop where
  | begins (sys : System ι α) :
      Course assembler parents (.waiting (assembler.start parents sys).1)
        ((assembler.start parents sys).1.branches.map Branch.standing)
  | turns {task : WindowTask ι α π} {standings : List (RuleStanding ι α)}
      (h : Course assembler parents (.waiting task) standings) (sys : System ι α) :
      Course assembler parents (assembler.run task sys).1 (turnAll standings sys).1

/-- Every window has a course. -/
theorem Leads.exists_course {elsewhere : System ι α → System ι α → Prop} {sys : System ι α}
    {t : Proceeding ι α π γ} (h : assembler.Leads elsewhere (assembler.begin parents sys) t) :
    ∃ standings, assembler.Course parents t.standing standings := by
  induction h with
  | refl => exact ⟨_, .begins sys⟩
  | tail _ hstep ih =>
    obtain ⟨standings, hcourse⟩ := ih
    cases hstep with
    | turns _ => exact ⟨_, hcourse.turns _⟩
    | beside _ => exact ⟨standings, hcourse⟩

end Assembler

/-! ## 2. One turn -/

theorem Path.Comes.turnAll {rules : List (Rule ι α β)} {ids : List ι}
    {standings : List (RuleStanding ι α)}
    (h : List.Forall₂ (fun rule standing => rule.path.Comes ids standing) rules standings)
    (sys : System ι α) :
    List.Forall₂ (fun rule standing => rule.path.Comes ids standing) rules
      (turnAll standings sys).1 := by
  induction h generalizing sys with
  | nil => exact .nil
  | @cons rule standing rules standings hhead hrest ih =>
    cases standing with
    | finished result => exact .cons hhead (ih sys)
    | waiting r =>
      have hnext := hhead.turns sys
      unfold Collate.turnAll
      rcases hrun : r.run sys with ⟨r' | (e | grouped), sys'⟩ <;> rw [hrun] at hnext
      · exact .cons hnext (ih sys')
      · exact .cons hnext hrest
      · exact .cons hnext (ih sys')

namespace Branch

/-- **A turn of branches is one of their rules**: it ends with the first failure of one of them, or
all of them have gone on. -/
theorem runAll_turnAll (branches : List (Branch ι α)) (sys : System ι α) :
    match runAll branches sys with
    | (.ok branches', sys') => turnAll (branches.map standing) sys = (branches'.map standing, sys')
    | (.error (e, _), sys') => .finished (.error e) ∈ (turnAll (branches.map standing) sys).1
      ∧ (turnAll (branches.map standing) sys).2 = sys' := by
  induction branches generalizing sys with
  | nil => rfl
  | cons head branches ih =>
    cases head with
    | resolved grouped =>
      have hrest := ih sys
      rw [List.map_cons, standing, turnAll]
      rcases hrun : runAll branches sys with ⟨⟨e, left⟩ | branches', sys'⟩ <;>
        rw [hrun] at hrest <;> simp only [runAll, hrun]
      · exact ⟨List.mem_cons_of_mem _ hrest.1, hrest.2⟩
      · rw [hrest]
        rfl
    | pending r =>
      rw [List.map_cons, standing, turnAll]
      rcases hresult : r.run sys with ⟨r' | (e | grouped), sys₁⟩
      · have hrest := ih sys₁
        rcases hrun : runAll branches sys₁ with ⟨⟨e, left⟩ | branches', sys'⟩ <;>
          rw [hrun] at hrest <;> simp only [runAll, hresult, hrun]
        · exact ⟨List.mem_cons_of_mem _ hrest.1, hrest.2⟩
        · rw [hrest]
          rfl
      · simp only [runAll, hresult]
        exact ⟨List.mem_cons_self .., trivial⟩
      · have hrest := ih sys₁
        rcases hrun : runAll branches sys₁ with ⟨⟨e, left⟩ | branches', sys'⟩ <;>
          rw [hrun] at hrest <;> simp only [runAll, hresult, hrun]
        · exact ⟨List.mem_cons_of_mem _ hrest.1, hrest.2⟩
        · rw [hrest]
          rfl

omit [DecidableEq ι] in
/-- All branches are done if all rules are. -/
theorem results?_eq_some {branches : List (Branch ι α)} {results : List (Entries ι (List α))} :
    results? branches = some results
      ↔ branches.map standing = results.map fun grouped => .finished (.ok grouped) := by
  induction branches generalizing results with
  | nil =>
    cases results with
    | nil => simp [results?]
    | cons first others => simp [results?]
  | cons head branches ih =>
    cases head with
    | pending r =>
      cases results with
      | nil => simp [results?]
      | cons first others => simp [results?, standing]
    | resolved grouped =>
      rw [results?, Option.map_eq_some_iff]
      constructor
      · rintro ⟨others, hothers, rfl⟩
        rw [List.map_cons, ih.1 hothers]
        rfl
      · intro h
        cases results with
        | nil => cases h
        | cons first others =>
          rw [List.map_cons, List.map_cons, List.cons.injEq] at h
          obtain ⟨hfirst, hothers⟩ := h
          injection hfirst with hfirst
          injection hfirst with hfirst
          exact ⟨others, ih.2 hothers, by rw [hfirst]⟩

omit [DecidableEq ι] in
/-- No branch is that of a failed rule. -/
theorem error_not_mem_standing (branches : List (Branch ι α)) (e : Error) :
    .finished (.error e) ∉ branches.map standing := by
  intro h
  obtain ⟨branch, _, hb⟩ := List.mem_map.1 h
  cases branch <;> cases hb

end Branch

/-! ## 3. Field values -/

namespace Assembler

variable {assembler : Assembler ι α β π γ} {parents : List π}
  {window : Standing (WindowTask ι α π) (Except Error (List γ))}
  {standings : List (RuleStanding ι α)}

theorem fields_eq_zipWith (assembler : Assembler ι α β π γ) (results : List (Entries ι (List α)))
    (id : ι) : fields (assembler.resolved results) id
      = List.zipWith (fun rule grouped => rule.value grouped id) assembler.rules results := by
  rw [fields, resolved, List.map_map, ← List.map_uncurry_zip_eq_zipWith]
  apply List.map_congr_left
  intro pair _
  exact pair.1.shape.get_resolved_found pair.2 id

/-! ## 4. Courses -/

/-- How a window of some parents stands next to its rules. -/
def Fits (assembler : Assembler ι α β π γ) (parents : List π)
    (window : Standing (WindowTask ι α π) (Except Error (List γ)))
    (standings : List (RuleStanding ι α)) : Prop :=
  match window with
  | .waiting task => task.parents = parents ∧ standings = task.branches.map Branch.standing
    ∧ Branch.results? task.branches = none
  | .finished (.ok aggregates) => ∃ results,
    standings = results.map (fun grouped => .finished (.ok grouped))
      ∧ aggregates = assembler.aggregates parents results
  | .finished (.error e) => .finished (.error e) ∈ standings

/-- **A turn of a window** keeps it in line with its rules. -/
theorem Fits.turn {task : WindowTask ι α π} (hparents : parents ≠ [])
    (h : assembler.Fits parents (.waiting task) standings) (sys : System ι α) :
    assembler.Fits parents (assembler.run task sys).1 (turnAll standings sys).1 := by
  obtain ⟨rfl, rfl, _⟩ := h
  have hempty : task.parents.isEmpty = false := by
    rw [List.isEmpty_eq_false_iff]
    exact hparents
  have hturn := Branch.runAll_turnAll task.branches sys
  rcases hrun : Branch.runAll task.branches sys with ⟨⟨e, left⟩ | branches, sys'⟩ <;>
    rw [hrun] at hturn <;> simp only [run, hempty, hrun]
  · exact hturn.1
  · rw [hturn]
    cases hresults : Branch.results? branches with
    | none => exact ⟨rfl, rfl, hresults⟩
    | some results => exact ⟨results, Branch.results?_eq_some.1 hresults, rfl⟩

theorem fits_begin (hrules : assembler.rules ≠ []) (hparents : parents ≠ []) (sys : System ι α) :
    assembler.Fits parents (.waiting (assembler.start parents sys).1)
      ((assembler.start parents sys).1.branches.map Branch.standing)
    ∧ List.Forall₂ (fun rule standing =>
        rule.path.Comes (distinct (parents.map assembler.key)) standing) assembler.rules
      ((assembler.start parents sys).1.branches.map Branch.standing) := by
  obtain ⟨parent, rest, rfl⟩ := List.exists_cons_of_ne_nil hparents
  obtain ⟨branches, tickets, heq, hbranches⟩ := Conduct.startAll_eq
    (assembler.rules.map fun rule => rule.path) (distinct ((parent :: rest).map assembler.key)) sys
  have hstart : (assembler.start (parent :: rest) sys).1 = ⟨parent :: rest, branches⟩ := by
    simp only [start, heq]
  rw [List.forall₂_map_left_iff] at hbranches
  rw [hstart]
  refine ⟨⟨rfl, rfl, ?_⟩, List.forall₂_map_right_iff.2 (hbranches.imp ?_)⟩
  · -- There is a rule, and it has not begun.
    obtain ⟨rule, others, hcons⟩ := List.exists_cons_of_ne_nil hrules
    rw [hcons] at hbranches
    obtain ⟨branch, branches, ⟨sys₁, rfl⟩, _, rfl⟩ := List.forall₂_cons_left_iff.1 hbranches
    rfl
  · rintro rule _ ⟨sys₁, rfl⟩
    exact .begins sys₁

theorem Course.fits (h : assembler.Course parents window standings) (hrules : assembler.rules ≠ [])
    (hparents : parents ≠ []) :
    assembler.Fits parents window standings
    ∧ List.Forall₂ (fun rule standing =>
        rule.path.Comes (distinct (parents.map assembler.key)) standing) assembler.rules
      standings := by
  induction h with
  | begins sys => exact fits_begin hrules hparents sys
  | turns _ sys ih => exact ⟨ih.1.turn hparents sys, Path.Comes.turnAll ih.2 sys⟩

/-- A window of no parents has no rules to be resolved. -/
theorem Course.of_nil (h : assembler.Course [] window standings) :
    standings = [] ∧ (window = .waiting ⟨[], []⟩ ∨ window = .finished (.ok [])) := by
  induction h with
  | begins sys => exact ⟨rfl, Or.inl rfl⟩
  | turns _ sys ih =>
    obtain ⟨rfl, hwindow | hwindow⟩ := ih
    · injection hwindow with htask
      subst htask
      exact ⟨rfl, Or.inr rfl⟩
    · cases hwindow

/-- **A window is joined exactly.** Take a window and each of its rules, from the window's beginning
on and whatever happens meanwhile. Each rule resolves its own path for the window's ids, each id
once. As soon as all rules have found something the window ends, with one aggregate per parent, in
order: the one made of the parent and, in the order of the rules, the values of its id, where a rule
that found no children for the id has its default. As soon as a rule fails the window ends with the
failure of one of the rules. Until then it waits. A window of no parents ends at its first turn
without any rule being resolved. -/
theorem parents_joined (assembler : Assembler ι α β π γ) (hrules : assembler.rules ≠ [])
    (parents : List π) (window : Standing (WindowTask ι α π) (Except Error (List γ)))
    (standings : List (RuleStanding ι α)) (h : assembler.Course parents window standings) :
    (parents ≠ [] →
      List.Forall₂ (fun rule standing =>
          rule.path.Comes (distinct (parents.map assembler.key)) standing) assembler.rules standings
      ∧ (∀ results, standings = results.map (fun grouped => .finished (.ok grouped)) →
          ∃ aggregates, window = .finished (.ok aggregates) ∧ aggregates.length = parents.length
            ∧ ∀ (i : Nat) (parent : π), parents[i]? = some parent →
              aggregates[i]? = some (assembler.construct parent
                (List.zipWith (fun rule grouped => rule.value grouped (assembler.key parent))
                  assembler.rules results)))
      ∧ (∀ e, .finished (.error e) ∈ standings →
          ∃ e', .finished (.error e') ∈ standings ∧ window = .finished (.error e'))
      ∧ (∀ r, .waiting r ∈ standings → (∀ e, .finished (.error e) ∉ standings) →
          ∃ task, window = .waiting task))
    ∧ (parents = [] →
        standings = [] ∧ (window = .waiting ⟨[], []⟩ ∨ window = .finished (.ok []))
        ∧ ∀ sys : System ι α, assembler.start [] sys = (⟨[], []⟩, sys)
          ∧ assembler.run ⟨[], []⟩ sys = (.finished (.ok []), sys)) := by
  refine ⟨fun hparents => ?_, ?_⟩
  · obtain ⟨hfits, hcomes⟩ := h.fits hrules hparents
    refine ⟨hcomes, fun results hresults => ?_, fun e he => ?_, fun r hr hnone => ?_⟩
    · match window, hfits with
      | .waiting task, ⟨_, hstandings, hnone⟩ =>
        rw [Branch.results?_eq_some.2 (hstandings.symm.trans hresults)] at hnone
        cases hnone
      | .finished (.error e), hmem =>
        rw [hresults] at hmem
        obtain ⟨grouped, _, hg⟩ := List.mem_map.1 hmem
        cases hg
      | .finished (.ok aggregates), ⟨results', hstandings, haggregates⟩ =>
        have hinj : Function.Injective fun grouped : Entries ι (List α) =>
            (.finished (.ok grouped) : RuleStanding ι α) := fun a b hab => by
          cases hab
          rfl
        obtain rfl : results' = results :=
          List.map_injective_iff.2 hinj (hstandings.symm.trans hresults)
        refine ⟨aggregates, rfl, by rw [haggregates, Assembler.aggregates, List.length_map],
          fun i parent hi => ?_⟩
        rw [haggregates, Assembler.aggregates, List.getElem?_map, hi, ← fields_eq_zipWith]
        rfl
    · match window, hfits with
      | .waiting task, ⟨_, hstandings, _⟩ =>
        rw [hstandings] at he
        exact absurd he (Branch.error_not_mem_standing _ e)
      | .finished (.error e'), hmem => exact ⟨e', hmem, rfl⟩
      | .finished (.ok aggregates), ⟨results, hstandings, _⟩ =>
        rw [hstandings] at he
        obtain ⟨grouped, _, hg⟩ := List.mem_map.1 he
        cases hg
    · match window, hfits with
      | .waiting task, _ => exact ⟨task, rfl⟩
      | .finished (.error e), hmem => exact absurd hmem (hnone e)
      | .finished (.ok aggregates), ⟨results, hstandings, _⟩ =>
        rw [hstandings] at hr
        obtain ⟨grouped, _, hg⟩ := List.mem_map.1 hr
        cases hg
  · rintro rfl
    obtain ⟨hstandings, hwindow⟩ := h.of_nil
    exact ⟨hstandings, hwindow, fun sys => ⟨rfl, rfl⟩⟩

/-- A window of three parents, of which two have an id that nothing is known of. The rule without
layers finds no entry for it, and the one with layers an empty one. -/
theorem parents_joined_side_by_side :
    ∃ window standings, sideBySide.Course [3, 1, 3] window standings
      ∧ standings = [Entries.ofList [(1, [10])], Entries.ofList [(1, [10]), (3, [])]].map
          (fun grouped => .finished (.ok grouped))
      ∧ ∃ aggregates, window = .finished (.ok aggregates) ∧ aggregates.length = 3
        ∧ aggregates[1]? = some [10, 10] ∧ aggregates[2]? = some [0, 0] := by
  have hbegun : sideBySide.Course [3, 1, 3] _ _ := .begins answering
  have hcourse := hbegun.turns (sideBySide.start [3, 1, 3] answering).2
  obtain ⟨_, hresolved, _⟩ := (parents_joined sideBySide (by decide) _ _ _ hcourse).1 (by decide)
  obtain ⟨aggregates, hwindow, hlength, hjoined⟩ :=
    hresolved [.ofList [(1, [10])], .ofList [(1, [10]), (3, [])]] rfl
  exact ⟨_, _, hcourse, rfl, aggregates, hwindow, hlength, hjoined 1 1 rfl, hjoined 2 3 rfl⟩

end Assembler

end Collate
