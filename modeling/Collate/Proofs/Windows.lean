/-
What a window of parents comes to.

A window resolves the ids of its parents by all rules at once. When its rules are run in harmony with
all other resolutions under way, none of them fails, and each of them has answered for the ids or
waits with good reason. When all have answered, the aggregate of each parent has the field values of
its id, however often the id occurs and whatever the window is made of.
-/
import Mathlib.Algebra.GroupWithZero.Nat
import Collate.Assembler
import Collate.Proofs.Fields
import Collate.Proofs.Harmony

set_option autoImplicit false

namespace Collate

variable {ι α β π γ : Type}

/-- How many steps a resolution along the path can take at most. -/
def Path.load (path : Path ι α) : Nat :=
  2 * (Walk.start path.layers ([] : List ι) ([] : List (Frame ι α))).left + 2

/-- The paths of the rules. -/
def Assembler.paths (assembler : Assembler ι α β π γ) : List (Path ι α) :=
  assembler.rules.map fun rule => rule.path

theorem Assembler.mem_paths {assembler : Assembler ι α β π γ} {rule : Rule ι α β}
    (hr : rule ∈ assembler.rules) : rule.path ∈ assembler.paths := List.mem_map_of_mem hr

/-! ## 1. Branches -/

namespace Branch

/-- The resolutions of branches that are not done, as members of a strand. -/
def members (strand : Strand) : List (Branch ι α) → List (Member ι α)
  | [] => []
  | .pending r :: rest => ⟨strand, r⟩ :: members strand rest
  | .resolved _ :: rest => members strand rest

/-- How many steps are left of all branches at most. -/
def left : List (Branch ι α) → Nat
  | [] => 0
  | .pending r :: rest => r.left + left rest
  | .resolved _ :: rest => left rest

/-- The branch is that of a rule: it resolves the ids along the rule's path, or has answered. -/
def Suits [DecidableEq ι] (children : Path ι α → ι → List α) (ids : List ι) (rule : Rule ι α β) :
    Branch ι α → Prop
  | .pending r => r.path = rule.path ∧ r.ids = ids
  | .resolved grouped => Answers (children rule.path) ids grouped

theorem strand_of_mem_members {strand : Strand} {branches : List (Branch ι α)} {m : Member ι α}
    (h : m ∈ members strand branches) : m.strand = strand := by
  induction branches with
  | nil => cases h
  | cons branch rest ih =>
    cases branch with
    | pending r =>
      rcases List.mem_cons.1 h with rfl | h
      · rfl
      · exact ih h
    | resolved grouped => exact ih h

/-- Branches that are not all done have something left to do. -/
theorem members_of_results?_none {strand : Strand} {branches : List (Branch ι α)}
    (h : results? branches = none) : members strand branches ≠ [] := by
  induction branches with
  | nil => cases h
  | cons branch rest ih =>
    cases branch with
    | pending r => exact List.cons_ne_nil _ _
    | resolved grouped => exact ih (Option.map_eq_none_iff.1 h)

/-- Branches that are all done have nothing left to do. -/
theorem members_of_results?_some {strand : Strand} {branches : List (Branch ι α)}
    {results : List (Entries ι (List α))} (h : results? branches = some results) :
    members strand branches = [] := by
  induction branches generalizing results with
  | nil => rfl
  | cons branch rest ih =>
    cases branch with
    | pending r => cases h
    | resolved grouped =>
      obtain ⟨others, hrest, _⟩ := Option.map_eq_some_iff.1 h
      exact ih hrest

variable [DecidableEq ι] {children : Path ι α → ι → List α} {paths : List (Path ι α)}
  {ids : List ι} {rules : List (Rule ι α β)} {branches : List (Branch ι α)}
  {before behind : List (Member ι α)} {strand : Strand} {sys : System ι α}

/-- The branches of a window after they were run, and the state they leave. -/
structure Ran (children : Path ι α → ι → List α) (paths : List (Path ι α)) (ids : List ι)
    (rules : List (Rule ι α β)) (before behind : List (Member ι α)) (strand : Strand)
    (branches : List (Branch ι α)) (sys : System ι α) (branches' : List (Branch ι α))
    (sys' : System ι α) : Prop where
  suits : List.Forall₂ (Suits children ids) rules branches'
  harmony : Harmony children paths (before ++ (members strand branches' ++ behind)) sys'
  others : Undisturbed paths (before ++ behind) sys sys'
  heeded : ∀ m ∈ members strand branches', m.Heeded sys'
  further : left branches' < left branches ∨ branches' = branches ∧ sys'.ready = sys.ready

/-- **Running the branches of a window**: none fails, and each has answered or is heeded. -/
theorem runAll_ran (hs : List.Forall₂ (Suits children ids) rules branches)
    (h : Harmony children paths (before ++ (members strand branches ++ behind)) sys)
    (hstrand : sys.strand = strand) :
    ∃ branches' sys', runAll branches sys = (.ok branches', sys')
      ∧ Ran children paths ids rules before behind strand branches sys branches' sys' := by
  induction hs generalizing before sys with
  | nil => exact ⟨[], sys, rfl, .nil, h, .refl _ _ _, by simp [members], Or.inr ⟨rfl, rfl⟩⟩
  | @cons rule branch rules rest hbranch hrest ih =>
    cases branch with
    | resolved grouped =>
      obtain ⟨rest', sys', hrun, hran⟩ := ih h hstrand
      refine ⟨.resolved grouped :: rest', sys', by simp only [runAll, hrun],
        .cons hbranch hran.suits, hran.harmony, hran.others, hran.heeded, ?_⟩
      rcases hran.further with hlt | ⟨rfl, hready⟩
      · exact Or.inl hlt
      · exact Or.inr ⟨rfl, hready⟩
    | pending r =>
      have hmember : Harmony children paths
          (before ++ ⟨strand, r⟩ :: (members strand rest ++ behind)) sys := h
      obtain ⟨hothers, hend⟩ := hmember.run hstrand
      have hsub : before ++ behind ⊆ before ++ (members strand rest ++ behind) := by
        intro m hm
        rcases List.mem_append.1 hm with hm | hm <;> simp [hm]
      have hturn : (r.run sys).2.strand = strand := hothers.advanced.strand.trans hstrand
      rcases hrun : r.run sys with ⟨standing, sys₁⟩
      rw [hrun] at hothers hend hturn
      rcases hend with ⟨r', rfl, hpath, hids, hharmony, hresting, hfurther⟩ |
        ⟨grouped, rfl, hanswers, hharmony⟩
      · -- Those behind are run next to one more that waits.
        have hnext : Harmony children paths
            ((before ++ [⟨strand, r'⟩]) ++ (members strand rest ++ behind)) sys₁ := by
          rw [List.append_assoc]
          exact hharmony
        obtain ⟨rest', sys', hrest', hran⟩ := ih hnext hturn
        have hharmony' := hran.harmony
        rw [List.append_assoc] at hharmony'
        have hr' : Member.Heeded sys' ⟨strand, r'⟩ :=
          hran.others.heeded _ (by simp) (Or.inl hresting)
        have hothers' : Undisturbed paths (before ++ behind) sys₁ sys' := by
          refine hran.others.mono fun m hm => ?_
          rcases List.mem_append.1 hm with hm | hm <;> simp [hm]
        refine ⟨.pending r' :: rest', sys', by simp only [runAll, hrun, hrest'],
          .cons ⟨hpath.trans hbranch.1, hids.trans hbranch.2⟩ hran.suits, hharmony',
          (hothers.mono hsub).trans hothers', ?_, ?_⟩
        · exact List.forall_mem_cons.2 ⟨hr', hran.heeded⟩
        · rcases hfurther with hlt | ⟨rfl, hready⟩
          · refine Or.inl ?_
            rcases hran.further with hlt' | ⟨rfl, _⟩
            · exact Nat.add_lt_add hlt hlt'
            · exact Nat.add_lt_add_right hlt _
          · rcases hran.further with hlt' | ⟨rfl, hready'⟩
            · exact Or.inl (Nat.add_lt_add_left hlt' _)
            · exact Or.inr ⟨rfl, hready'.trans hready⟩
      · obtain ⟨rest', sys', hrest', hran⟩ := ih hharmony hturn
        rw [hbranch.1, hbranch.2] at hanswers
        refine ⟨.resolved grouped :: rest', sys', by simp only [runAll, hrun, hrest'],
          .cons hanswers hran.suits, hran.harmony, (hothers.mono hsub).trans hran.others,
          hran.heeded, Or.inl ?_⟩
        have hpos := r.left_pos
        rcases hran.further with hlt | ⟨rfl, _⟩
        · exact Nat.lt_of_lt_of_le hlt (Nat.le_add_left _ _)
        · exact Nat.lt_add_of_pos_left hpos

/-- What branches that are all done have found answers for the ids. -/
theorem answers_of_results? (hs : List.Forall₂ (Suits children ids) rules branches)
    {results : List (Entries ι (List α))} (h : results? branches = some results) :
    List.Forall₂ (fun rule grouped => Answers (children rule.path) ids grouped) rules results := by
  induction hs generalizing results with
  | nil =>
    obtain rfl := Option.some.inj h
    exact .nil
  | @cons rule branch rules rest hbranch hrest ih =>
    cases branch with
    | pending r => cases h
    | resolved grouped =>
      obtain ⟨others, hothers, rfl⟩ := Option.map_eq_some_iff.1 h
      exact .cons hbranch (ih hothers)

/-! ## 2. Branches that begin -/

omit [DecidableEq ι] in
/-- How many steps a resolution along a path can take at most, whatever its ids are. -/
theorem left_start_le (path : Path ι α) (ids : List ι) (sys : System ι α) :
    (Resolution.start path ids sys).1.left ≤ path.load := by
  have hwalk := Walk.left_start path.layers ids ([] : List (Frame ι α))
  have hload := Walk.left_start path.layers [] ([] : List (Frame ι α))
  have hleft : (Resolution.start path ids sys).1.left = if path.layers.isEmpty then 3
      else 2 * (Walk.start path.layers ids ([] : List (Frame ι α))).left + 2 := by
    unfold Resolution.start Resolution.left
    cases path.layers.isEmpty with
    | true => rfl
    | false =>
      simp only [Bool.false_eq_true, if_false]
      omega
  rw [hleft, Path.load, hwalk, hload]
  split <;> omega

variable {crew : List (Member ι α)}

/-- The branches of a window that begins join all others under way. -/
theorem startAll_joins (hsub : ∀ rule ∈ rules, rule.path ∈ paths) (hids : ids.Nodup)
    (h : Harmony children paths crew sys) (strand : Strand) :
    ∃ branches tickets, startAll (rules.map fun rule => rule.path) ids sys
        = (branches, { sys with tickets := tickets })
      ∧ sys.tickets ≤ tickets
      ∧ List.Forall₂ (Suits children ids) rules branches
      ∧ Harmony children paths (crew ++ members strand branches) { sys with tickets := tickets }
      ∧ left branches ≤ (rules.map fun rule => rule.path.load).sum := by
  induction rules generalizing crew sys with
  | nil =>
    refine ⟨[], sys.tickets, rfl, Nat.le_refl _, .nil, ?_, Nat.le_refl _⟩
    rw [members, List.append_nil]
    exact h
  | cons rule rest ih =>
    have hrule : rule.path ∈ paths := hsub rule (List.mem_cons_self ..)
    have hrest : ∀ other ∈ rest, other.path ∈ paths := fun other ho =>
      hsub other (List.mem_cons_of_mem _ ho)
    obtain ⟨branches, tickets, hstart, htickets, hsuits, hharmony, hleft⟩ :=
      ih hrest (h.join hrule hids strand)
    have hfirst := left_start_le rule.path ids sys
    rw [List.append_assoc] at hharmony
    refine ⟨.pending (Resolution.start rule.path ids sys).1 :: branches, tickets, ?_,
      Nat.le_trans (Nat.le_succ _) htickets, .cons ⟨rfl, rfl⟩ hsuits, hharmony, ?_⟩
    · simp only [List.map_cons, startAll, hstart]
      rfl
    · rw [List.map_cons, List.sum_cons]
      exact Nat.add_le_add hfirst hleft

end Branch

/-! ## 3. Windows -/

variable [DecidableEq ι] {children : Path ι α → ι → List α} {paths : List (Path ι α)}
  {before behind : List (Member ι α)} {strand : Strand} {sys : System ι α}

namespace Assembler

variable {assembler : Assembler ι α β π γ}

/-- What becomes of a parent whose id has these children. -/
def aggregate (assembler : Assembler ι α β π γ) (children : Path ι α → ι → List α)
    (parent : π) : γ :=
  assembler.construct parent (assembler.rules.map fun rule =>
    rule.shape.field (children rule.path) (assembler.key parent))

theorem fields_resolved {ids : List ι} {rules : List (Rule ι α β)}
    {results : List (Entries ι (List α))}
    (h : List.Forall₂ (fun rule grouped => Answers (children rule.path) ids grouped) rules results)
    {id : ι} (hid : id ∈ ids) :
    fields ((rules.zip results).map fun (rule, grouped) => rule.shape.resolved grouped) id
      = rules.map fun rule => rule.shape.field (children rule.path) id := by
  induction h with
  | nil => rfl
  | @cons rule grouped rules results hfirst hrest ih =>
    have hfield := rule.shape.get_resolved hfirst hid
    simp only [fields, List.zip_cons_cons, List.map_cons, hfield] at ih ⊢
    rw [ih]

/-- **A window whose rules have answered** gives each of its parents the aggregate of its id. -/
theorem aggregates_eq (parents : List π) {results : List (Entries ι (List α))}
    (h : List.Forall₂ (fun rule grouped => Answers (children rule.path)
      (distinct (parents.map assembler.key)) grouped) assembler.rules results) :
    assembler.aggregates parents results = parents.map (assembler.aggregate children) := by
  refine List.map_congr_left fun parent hparent => ?_
  have hid : assembler.key parent ∈ distinct (parents.map assembler.key) :=
    mem_distinct.2 (List.mem_map_of_mem hparent)
  rw [aggregate, ← fields_resolved h hid]
  rfl

/-- The branches of a window are those of its rules, for the ids of its parents. -/
def Suits (assembler : Assembler ι α β π γ) (children : Path ι α → ι → List α)
    (task : WindowTask ι α π) : Prop :=
  task.parents = [] ∧ task.branches = [] ∨ task.parents ≠ [] ∧
    List.Forall₂ (Branch.Suits children (distinct (task.parents.map assembler.key)))
      assembler.rules task.branches

/-- A window that begins joins all others under way. -/
theorem start_joins {crew : List (Member ι α)} (h : Harmony children assembler.paths crew sys)
    (parents : List π) (strand : Strand) :
    ∃ task tickets, assembler.start parents sys = (task, { sys with tickets := tickets })
      ∧ sys.tickets ≤ tickets ∧ task.parents = parents ∧ assembler.Suits children task
      ∧ Harmony children assembler.paths (crew ++ Branch.members strand task.branches)
        { sys with tickets := tickets }
      ∧ Branch.left task.branches ≤ (assembler.rules.map fun rule => rule.path.load).sum := by
  cases parents with
  | nil =>
    refine ⟨⟨[], []⟩, sys.tickets, rfl, Nat.le_refl _, rfl, Or.inl ⟨rfl, rfl⟩, ?_, Nat.zero_le _⟩
    rw [Branch.members, List.append_nil]
    exact h
  | cons parent rest =>
    obtain ⟨branches, tickets, hstart, htickets, hsuits, hharmony, hleft⟩ :=
      Branch.startAll_joins (fun rule hr => mem_paths hr)
        (nodup_distinct ((parent :: rest).map assembler.key)) h strand
    refine ⟨⟨parent :: rest, branches⟩, tickets, ?_, htickets, rfl,
      Or.inr ⟨List.cons_ne_nil _ _, hsuits⟩, hharmony, hleft⟩
    simp only [start, hstart]

/-- **What a window does when it is run.** It ends with the aggregates of its parents, or it waits,
and then each of its resolutions is heeded; and it has come further or nobody was called. -/
theorem run_ran {task : WindowTask ι α π} (hs : assembler.Suits children task)
    (h : Harmony children paths (before ++ (Branch.members strand task.branches ++ behind)) sys)
    (hstrand : sys.strand = strand) :
    ∃ standing sys', assembler.run task sys = (standing, sys')
      ∧ Undisturbed paths (before ++ behind) sys sys'
      ∧ ((∃ branches, standing = .waiting { task with branches := branches }
          ∧ assembler.Suits children { task with branches := branches }
          ∧ Harmony children paths (before ++ (Branch.members strand branches ++ behind)) sys'
          ∧ (∀ m ∈ Branch.members strand branches, m.Heeded sys')
          ∧ Branch.members strand branches ≠ []
          ∧ (Branch.left branches < Branch.left task.branches
            ∨ branches = task.branches ∧ sys'.ready = sys.ready))
        ∨ standing = .finished (.ok (task.parents.map (assembler.aggregate children)))
          ∧ Harmony children paths (before ++ behind) sys') := by
  rcases hs with ⟨hparents, hbranches⟩ | ⟨hparents, hsuits⟩
  · rw [hbranches] at h
    refine ⟨.finished (.ok []), sys, ?_, .refl _ _ _, Or.inr ⟨?_, h⟩⟩
    · simp only [run, hparents, List.isEmpty_nil, if_true]
    · rw [hparents]
      rfl
  · obtain ⟨branches, sys', hrun, hran⟩ := Branch.runAll_ran hsuits h hstrand
    have hempty : task.parents.isEmpty = false := by
      rw [List.isEmpty_eq_false_iff]
      exact hparents
    cases hresults : Branch.results? branches with
    | none =>
      refine ⟨.waiting { task with branches := branches }, sys', ?_, hran.others,
        Or.inl ⟨branches, rfl, Or.inr ⟨hparents, hran.suits⟩, hran.harmony, hran.heeded,
          Branch.members_of_results?_none hresults, hran.further⟩⟩
      simp [run, hempty, hrun, hresults]
    | some results =>
      have hharmony := hran.harmony
      rw [Branch.members_of_results?_some hresults, List.nil_append] at hharmony
      refine ⟨.finished (.ok (task.parents.map (assembler.aggregate children))), sys', ?_,
        hran.others, Or.inr ⟨rfl, hharmony⟩⟩
      rw [← aggregates_eq task.parents (Branch.answers_of_results? hran.suits hresults)]
      simp [run, hempty, hrun, hresults]

end Assembler

end Collate
