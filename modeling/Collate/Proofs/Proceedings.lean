/-
Windows from their beginning to their end.

A window has turns, and anything may happen to the shared state between two of them. What the
window's own turns write down is kept apart, so that the calls it makes can be told from those of
others. The conduct of its resolutions is kept all the while, and if nobody waits for anything but the
time, the window comes to an end.
-/
import Collate.Proofs.Conduct
import Collate.Proofs.Transparency

set_option autoImplicit false

namespace Collate

variable {ι α β π γ : Type} [DecidableEq ι]

/-! ## 1. What happens to a window -/

/-- A window: how it stands, the shared state, and what its own turns have written down, the latest in
front. -/
structure Proceeding (ι α π γ : Type) where
  standing : Standing (WindowTask ι α π) (Except Error (List γ))
  system : System ι α
  written : List (LogLine ι α)

omit [DecidableEq ι] in
theorem WindowTask.mem_alarms {task : WindowTask ι α π} {r : Resolution ι α}
    (hr : .pending r ∈ task.branches) {alarm : Alarm} (h : alarm ∈ r.alarms) :
    alarm ∈ task.alarms := List.mem_flatMap.2 ⟨_, hr, h⟩

/-- There is a time by which all alarms have rung. -/
theorem Alarm.exists_later (now : Nat) (alarms : List Alarm) :
    ∃ later, now ≤ later ∧ ∀ alarm ∈ alarms, alarm.due ≤ later := by
  induction alarms with
  | nil => exact ⟨now, Nat.le_refl _, by simp⟩
  | cons alarm rest ih =>
    obtain ⟨later, hnow, hrest⟩ := ih
    refine ⟨max later alarm.due, Nat.le_trans hnow (Nat.le_max_left ..),
      List.forall_mem_cons.2 ⟨Nat.le_max_right .., fun other ho => ?_⟩⟩
    exact Nat.le_trans (hrest other ho) (Nat.le_max_left ..)

omit [DecidableEq ι] in
theorem Branch.log_cancelAll (branches : List (Branch ι α)) (sys : System ι α) :
    (Branch.cancelAll branches sys).log = sys.log := by
  induction branches with
  | nil => rfl
  | cons head branches ih =>
    cases head with
    | resolved grouped => exact ih
    | pending r => exact (r.log_cancel _).trans ih

namespace Assembler

variable {assembler : Assembler ι α β π γ} {elsewhere : System ι α → System ι α → Prop}
  {t t' : Proceeding ι α π γ}

/-- A window that has had no turn yet. -/
def begin (assembler : Assembler ι α β π γ) (parents : List π) (sys : System ι α) :
    Proceeding ι α π γ :=
  ⟨.waiting (assembler.start parents sys).1, (assembler.start parents sys).2, []⟩

/-- What happens next to a window. -/
inductive Step (assembler : Assembler ι α β π γ) (elsewhere : System ι α → System ι α → Prop) :
    Proceeding ι α π γ → Proceeding ι α π γ → Prop where
  /-- It has a turn. -/
  | turns {task : WindowTask ι α π} {sys : System ι α} {written lines : List (LogLine ι α)}
      (h : (assembler.run task sys).2.log = lines ++ sys.log) :
      Step assembler elsewhere ⟨.waiting task, sys, written⟩
        ⟨(assembler.run task sys).1, (assembler.run task sys).2, lines ++ written⟩
  /-- Something happens elsewhere. -/
  | beside {standing : Standing (WindowTask ι α π) (Except Error (List γ))} {sys sys' : System ι α}
      {written : List (LogLine ι α)} (h : elsewhere sys sys') :
      Step assembler elsewhere ⟨standing, sys, written⟩ ⟨standing, sys', written⟩

/-- What comes of a window with time. -/
def Leads (assembler : Assembler ι α β π γ) (elsewhere : System ι α → System ι α → Prop) :
    Proceeding ι α π γ → Proceeding ι α π γ → Prop :=
  Relation.ReflTransGen (assembler.Step elsewhere)

theorem Leads.mono {elsewhere' : System ι α → System ι α → Prop}
    (h : assembler.Leads elsewhere t t')
    (hmono : ∀ sys sys', elsewhere sys sys' → elsewhere' sys sys') :
    assembler.Leads elsewhere' t t' := by
  refine Relation.ReflTransGen.mono (fun a b hstep => ?_) _ _ h
  cases hstep with
  | turns hlog => exact .turns hlog
  | beside hb => exact .beside (hmono _ _ hb)

/-- A window of no parents calls nobody. -/
theorem Leads.of_nil {sys : System ι α} (h : assembler.Leads elsewhere (assembler.begin [] sys) t) :
    t.written = [] ∧ Relation.ReflTransGen elsewhere sys t.system
      ∧ (t.standing = .waiting ⟨[], []⟩ ∨ t.standing = .finished (.ok [])) := by
  induction h with
  | refl => exact ⟨rfl, .refl, Or.inl rfl⟩
  | tail _ hstep ih =>
    obtain ⟨hwritten, hsys, hstanding⟩ := ih
    cases hstep with
    | beside hb => exact ⟨hwritten, hsys.tail hb, hstanding⟩
    | @turns task sys' written lines hlog =>
      have htask : task = ⟨[], []⟩ := by
        rcases hstanding with hs | hs
        · exact Standing.waiting.inj hs
        · cases hs
      subst htask
      have hrun : assembler.run ⟨[], []⟩ sys' = (.finished (.ok []), sys') := rfl
      rw [hrun] at hlog ⊢
      obtain rfl : lines = [] := List.append_left_eq_self.1 hlog.symm
      exact ⟨hwritten, hsys, Or.inr rfl⟩

end Assembler

/-! ## 2. The conduct of a window -/

namespace Conduct

variable {assembler : Assembler ι α β π γ} {c : Conduct ι α} {apart : Path ι α → Path ι α → Prop}
  {elsewhere : System ι α → System ι α → Prop} {parents : List π} {t t' : Proceeding ι α π γ}
  {sys : System ι α}

/-- The conduct of all resolutions of a window. -/
def Window (c : Conduct ι α) (paths : List (Path ι α)) (parents : List π)
    (t : Proceeding ι α π γ) : Prop :=
  match t.standing with
  | .waiting task => task.parents = parents
    ∧ List.Forall₂ (fun path branch =>
      c.Holds path t.system (callsIn path.origin.bucket t.written) branch) paths task.branches
  | .finished (.ok _) => ∀ path ∈ paths, c.done path t.system (callsIn path.origin.bucket t.written)
  | .finished (.error _) => (∀ path ∈ paths, c.Stopped (callsIn path.origin.bucket t.written))
    ∧ ∃ path ∈ paths, c.failed (callsIn path.origin.bucket t.written)

omit [DecidableEq ι] in
/-- Branches that are all done are done well. -/
theorem done_of_results? {paths : List (Path ι α)} {branches : List (Branch ι α)}
    {calls : Path ι α → List (List ι)} {results : List (Entries ι (List α))}
    (hs : List.Forall₂ (fun path branch => c.Holds path sys (calls path) branch) paths branches)
    (h : Branch.results? branches = some results) :
    ∀ path ∈ paths, c.done path sys (calls path) := by
  induction hs generalizing results with
  | nil => simp
  | @cons path head paths branches hhead _ ih =>
    cases head with
    | pending r => cases h
    | resolved grouped =>
      obtain ⟨others, hrest, _⟩ := Option.map_eq_some_iff.1 h
      exact List.forall_mem_cons.2 ⟨hhead, ih hrest⟩

omit [DecidableEq ι] in
/-- Branches that are not all done have one under way. -/
theorem exists_pending_of_results? {branches : List (Branch ι α)}
    (h : Branch.results? branches = none) : ∃ r, .pending r ∈ branches := by
  induction branches with
  | nil => cases h
  | cons head branches ih =>
    cases head with
    | pending r => exact ⟨r, List.mem_cons_self ..⟩
    | resolved grouped =>
      obtain ⟨r, hr⟩ := ih (Option.map_eq_none_iff.1 h)
      exact ⟨r, List.mem_cons_of_mem _ hr⟩

/-- **A turn of a window** keeps the conduct of its resolutions. If the window still waits it has come
further, or one of its resolutions is stuck at this moment. -/
theorem Kept.turn (h : c.Kept apart elsewhere) (hapart : assembler.paths.Pairwise apart)
    (hparents : parents ≠ []) {task : WindowTask ι α π} {written : List (LogLine ι α)}
    (hw : c.Window assembler.paths parents (γ := γ) ⟨.waiting task, sys, written⟩) :
    ∃ lines, (assembler.run task sys).2.log = lines ++ sys.log
      ∧ c.Window assembler.paths parents
        ⟨(assembler.run task sys).1, (assembler.run task sys).2, lines ++ written⟩
      ∧ ∀ task', (assembler.run task sys).1 = .waiting task' →
        Branch.left task'.branches < Branch.left task.branches ∨ ∃ r, .pending r ∈ task.branches
          ∧ ∃ sys₁, sys₁.now = sys.now ∧ c.Halts r sys₁ := by
  obtain ⟨rfl, hbranches⟩ := hw
  obtain ⟨calls, hran⟩ := h.runAll hapart (fun bucket => callsIn bucket written) hbranches
  have hempty : task.parents.isEmpty = false := by
    rw [List.isEmpty_eq_false_iff]
    exact hparents
  obtain ⟨⟨lines, hlog, hcalls⟩, _, _, hturned⟩ := hran
  have hsplit : (fun bucket => calls bucket ++ callsIn bucket written)
      = fun bucket => callsIn bucket (lines ++ written) :=
    funext fun bucket => by rw [callsIn_append, hcalls]
  rw [hsplit] at hturned
  refine ⟨lines, ?_⟩
  rcases hrun : Branch.runAll task.branches sys with ⟨⟨e, left⟩ | branches, sys'⟩ <;>
    rw [hrun] at hlog hturned
  · have hresult : assembler.run task sys = (.finished (.error e), Branch.cancelAll left sys') := by
      simp [Assembler.run, hempty, hrun]
    rw [hresult]
    exact ⟨(Branch.log_cancelAll left sys').trans hlog, hturned, fun _ hwaits => by cases hwaits⟩
  · cases hresults : Branch.results? branches with
    | none =>
      have hresult : assembler.run task sys
          = (.waiting { task with branches := branches }, sys') := by
        simp [Assembler.run, hempty, hrun, hresults]
      rw [hresult]
      refine ⟨hlog, ⟨rfl, hturned.1⟩, ?_⟩
      rintro _ ⟨⟩
      refine hturned.2.imp id ?_
      rintro ⟨rfl, hstuck⟩
      obtain ⟨r, hr⟩ := exists_pending_of_results? hresults
      exact ⟨r, hr, hstuck r hr⟩
    | some results =>
      have hresult : assembler.run task sys
          = (.finished (.ok (assembler.aggregates task.parents results)), sys') := by
        simp [Assembler.run, hempty, hrun, hresults]
      rw [hresult]
      exact ⟨hlog, done_of_results? hturned.1 hresults, fun _ hwaits => by cases hwaits⟩

/-- **Windows** keep the conduct of their resolutions, whatever happens elsewhere between their
turns. -/
theorem Kept.window (h : c.Kept apart elsewhere) (hapart : assembler.paths.Pairwise apart)
    (hparents : parents ≠ []) (hw : c.Window assembler.paths parents t)
    (hrun : assembler.Leads elsewhere t t') : c.Window assembler.paths parents t' := by
  induction hrun with
  | refl => exact hw
  | tail _ hstep ih =>
    cases hstep with
    | turns hlog =>
      obtain ⟨lines, hlog', hw', _⟩ := h.turn hapart hparents ih
      rw [hlog] at hlog'
      obtain rfl := List.append_cancel_right hlog'
      exact hw'
    | @beside standing sys sys' written hb =>
      cases standing with
      | waiting task => exact ⟨ih.1, ih.2.imp fun path branch hh => hh.aside h (.elsewhere hb)⟩
      | finished result =>
        cases result with
        | error e => exact ih
        | ok aggregates => exact fun path hp => h.done_aside (ih path hp) (.elsewhere hb)

omit [DecidableEq ι] in
theorem startAll_eq (paths : List (Path ι α)) (ids : List ι) (sys : System ι α) :
    ∃ branches tickets, Branch.startAll paths ids sys = (branches, { sys with tickets := tickets })
      ∧ List.Forall₂ (fun path branch => ∃ sys₁, branch = .pending (Resolution.start path ids sys₁).1)
        paths branches := by
  induction paths generalizing sys with
  | nil => exact ⟨[], sys.tickets, rfl, .nil⟩
  | cons path paths ih =>
    obtain ⟨branches, tickets, hstart, hbranches⟩ := ih (Resolution.start path ids sys).2
    refine ⟨.pending (Resolution.start path ids sys).1 :: branches, tickets, ?_,
      .cons ⟨sys, rfl⟩ hbranches⟩
    simp only [Branch.startAll, hstart]
    rfl

theorem window_begin (hparents : parents ≠ [])
    (hstart : ∀ path ∈ assembler.paths, ∀ sys₁ tickets,
      c.going (Resolution.start path (distinct (parents.map assembler.key)) sys₁).1
        { sys with tickets := tickets } []) :
    c.Window assembler.paths parents (assembler.begin parents sys) := by
  obtain ⟨parent, rest, rfl⟩ := List.exists_cons_of_ne_nil hparents
  obtain ⟨branches, tickets, heq, hbranches⟩ := startAll_eq assembler.paths
    (distinct ((parent :: rest).map assembler.key)) sys
  have hbegin : assembler.begin (parent :: rest) sys
      = ⟨.waiting ⟨parent :: rest, branches⟩, { sys with tickets := tickets }, []⟩ := by
    simp only [Assembler.begin, Assembler.start]
    rw [show assembler.rules.map (fun rule => rule.path) = assembler.paths from rfl, heq]
  rw [hbegin]
  refine ⟨rfl, ((List.forall₂_and_left _ _).2 ⟨hstart, hbranches⟩).imp ?_⟩
  rintro path _ ⟨hgoing, sys₁, rfl⟩
  exact ⟨rfl, Resolution.regular_start _ _ _, hgoing sys₁ tickets⟩

/-- **A window comes to an end** if whoever is stuck waits for time to pass. -/
theorem Kept.exists_ended (h : c.Kept apart elsewhere) (hapart : assembler.paths.Pairwise apart)
    (hpasses : ∀ sys sys', Traffic.Passes sys sys' → elsewhere sys sys')
    (hhalts : ∀ r sys, c.Halts r sys → ∃ alarm ∈ r.alarms, sys.now < alarm.due)
    (hparents : parents ≠ []) (hw : c.Window assembler.paths parents t) :
    ∃ t' result, assembler.Leads Traffic.Passes t t' ∧ t'.standing = .finished result := by
  obtain ⟨standing, sys, written⟩ := t
  cases standing with
  | finished result => exact ⟨_, result, .refl, rfl⟩
  | waiting task =>
    -- The steps left of all branches together become fewer.
    generalize hleft : Branch.left task.branches = left
    induction left using Nat.strongRecOn generalizing task sys written with
    | ind left ih =>
      obtain ⟨now, hnow, hdue⟩ := Alarm.exists_later sys.now task.alarms
      have hpass : Traffic.Passes sys { sys with now := now } := ⟨now, hnow, rfl⟩
      have hw' := h.window hapart hparents hw (.single (.beside (hpasses _ _ hpass)))
      obtain ⟨lines, hlog, hturned, hfurther⟩ := h.turn hapart hparents hw'
      have hleads : assembler.Leads Traffic.Passes ⟨.waiting task, sys, written⟩ _ :=
        (Relation.ReflTransGen.single (.beside hpass)).tail (.turns hlog)
      rcases hresult : (assembler.run task { sys with now := now }).1 with task' | result <;>
        rw [hresult] at hturned hleads
      · have hlt : Branch.left task'.branches < left := by
          rcases hfurther task' hresult with hlt | ⟨r, hr, sys₁, hnow₁, hr₁⟩
          · exact hleft ▸ hlt
          · obtain ⟨alarm, halarm, hlater⟩ := hhalts r sys₁ hr₁
            rw [hnow₁] at hlater
            exact absurd (hdue alarm (WindowTask.mem_alarms hr halarm)) (Nat.not_le_of_lt hlater)
        obtain ⟨t', result, hrest, hend⟩ := ih _ hlt _ _ _ hturned rfl
        exact ⟨t', result, hleads.trans hrest, hend⟩
      · exact ⟨_, result, hleads, rfl⟩

end Conduct

end Collate
