/-
Windows under way side by side.

The windows of an assembly are strands of their own, with numbers nobody else has. Together they form
a company: all their resolutions are in harmony, each of them is heeded, and every window is called
or has something to wait for. Taking a window, and letting one go on, keep the company so. This makes
the surroundings of an assembly lawful, whatever the order in which windows are called.
-/
import Collate.Proofs.Pipeline
import Collate.Proofs.Stream
import Collate.Proofs.Windows

set_option autoImplicit false

namespace Collate

variable {ι α β π γ : Type}

/-! ## 1. Strands -/

theorem Underway.strand_inj {w w' : Underway ι α π} :
    w.strand = w'.strand ↔ w.number = w'.number :=
  ⟨fun h => Strand.window.inj h, fun h => congrArg Strand.window h⟩

/-- The resolutions of windows, with their strands. -/
def crew (works : List (Underway ι α π)) : List (Member ι α) :=
  works.flatMap fun w => Branch.members w.strand w.task.branches

/-- Whether a strand is that of one of the windows. -/
def own (works : List (Underway ι α π)) (strand : Strand) : Bool :=
  works.any fun w => w.strand = strand

theorem crew_append (before behind : List (Underway ι α π)) :
    crew (before ++ behind) = crew before ++ crew behind := List.flatMap_append

theorem crew_cons (w : Underway ι α π) (behind : List (Underway ι α π)) :
    crew (w :: behind) = Branch.members w.strand w.task.branches ++ crew behind :=
  List.flatMap_cons

theorem crew_concat (works : List (Underway ι α π)) (w : Underway ι α π) :
    crew (works ++ [w]) = crew works ++ Branch.members w.strand w.task.branches := by
  simp [crew]

theorem exists_of_mem_crew {works : List (Underway ι α π)} {m : Member ι α} (h : m ∈ crew works) :
    ∃ w ∈ works, m ∈ Branch.members w.strand w.task.branches ∧ m.strand = w.strand := by
  obtain ⟨w, hw, hm⟩ := List.mem_flatMap.1 h
  exact ⟨w, hw, hm, Branch.strand_of_mem_members hm⟩

theorem mem_alarms {strand : Strand} {task : WindowTask ι α π} {alarm : Alarm} :
    alarm ∈ task.alarms
      ↔ ∃ m ∈ Branch.members strand task.branches, alarm ∈ m.resolution.alarms := by
  unfold WindowTask.alarms
  induction task.branches with
  | nil => simp [Branch.members]
  | cons branch rest ih => cases branch <;> simp [Branch.members, ih]

/-! ## 2. Companies -/

variable [DecidableEq ι]

/-- The windows under way and the state they share. -/
structure Company (children : Path ι α → ι → List α)
    (assembler : Assembler ι α β π γ) (works : List (Underway ι α π)) (sys : System ι α) :
    Prop where
  harmony : Harmony children assembler.paths (crew works) sys
  heeded : ∀ m ∈ crew works, m.Heeded sys
  numbers : (works.map fun w => w.number).Nodup
  issued : ∀ w ∈ works, w.number < sys.tickets
  suits : ∀ w ∈ works, assembler.Suits children w.task
  alive : ∀ w ∈ works, w.strand ∈ sys.ready ∨ Branch.members w.strand w.task.branches ≠ []

namespace Company

variable {children : Path ι α → ι → List α}
  {assembler : Assembler ι α β π γ} {works before behind : List (Underway ι α π)}
  {w : Underway ι α π} {sys sys' : System ι α}

omit [DecidableEq ι] in
/-- The others have other strands. -/
theorem strand_ne (h : ((before ++ w :: behind).map fun w => w.number).Nodup)
    {other : Underway ι α π} (ho : other ∈ before ++ behind) : other.strand ≠ w.strand := by
  rw [List.map_append, List.map_cons, List.nodup_middle, List.nodup_cons, ← List.map_append] at h
  intro hs
  exact h.1 (Underway.strand_inj.1 hs ▸ List.mem_map_of_mem ho)

/-- What happens elsewhere leaves a company as it is, if whoever's alarm rings is called. -/
theorem later (h : Company children assembler works sys)
    (htickets : sys.tickets ≤ sys'.tickets)
    (hlocks : ∀ path ∈ assembler.paths, sys'.locks.get path.lock = sys.locks.get path.lock)
    (hsturdy : Sturdy children assembler.paths sys')
    (hcalled : ∀ w ∈ works, w.strand ∈ sys.ready → w.strand ∈ sys'.ready)
    (hrung : ∀ w ∈ works, ∀ alarm ∈ w.task.alarms, sys.now < alarm.due → alarm.due ≤ sys'.now →
      alarm.strand ∈ sys'.ready) : Company children assembler works sys' := by
  refine ⟨h.harmony.later htickets hlocks hsturdy, fun m hm => ?_, h.numbers,
    fun w hw => Nat.lt_of_lt_of_le (h.issued w hw) htickets, h.suits, fun w hw => ?_⟩
  · obtain ⟨w, hw, hmember, hstrand⟩ := exists_of_mem_crew hm
    refine (h.heeded m hm).later (hlocks _ (h.harmony.fit m hm).path) ?_ ?_
    · rw [hstrand]
      exact hcalled w hw
    · intro alarm halarm hfuture hdue
      rw [← (h.harmony.strung m hm).alarm alarm halarm]
      exact hrung w hw alarm (mem_alarms.2 ⟨m, hmember, halarm⟩) hfuture hdue
  · rcases h.alive w hw with hready | hne
    · exact Or.inl (hcalled w hw hready)
    · exact Or.inr hne

/-- **A window that is taken joins the company.** -/
theorem launch (h : Company children assembler works sys)
    (window : List π)
    (stream : WindowStream π) :
    ∃ work sys', (Assembly.surroundings assembler).launch window (stream, sys)
        = (work, (stream, sys'))
      ∧ Company children assembler (works ++ [work]) sys' ∧ work.task.parents = window
      ∧ Branch.left work.task.branches
        ≤ (assembler.rules.map fun rule => rule.path.load).sum := by
  have hticket : Harmony children assembler.paths (crew works) sys.ticket.2 :=
    h.harmony.elsewhere rfl rfl rfl (Nat.le_succ _)
  obtain ⟨task, tickets, hstart, htickets, hparents, hsuits, hharmony, hleft⟩ :=
    Assembler.start_joins hticket window (.window sys.tickets)
  obtain ⟨ready, hmem, hrouse⟩ :=
    System.rouse_eq { sys.ticket.2 with tickets := tickets } (.window sys.tickets)
  have hlaunch : (Assembly.surroundings assembler).launch window (stream, sys)
      = (⟨sys.tickets, sys.tickets, task⟩,
        (stream, { sys with tickets := tickets, ready := ready })) := by
    have hstart' : assembler.start window sys.ticket.2 = (task, { sys with tickets := tickets }) :=
      hstart
    simp only [Assembly.surroundings, System.ticket] at hstart' ⊢
    rw [hstart']
    exact congrArg (fun s => (_, (stream, s))) hrouse
  have hlt : sys.tickets < tickets := htickets
  refine ⟨_, _, hlaunch, ⟨?_, ?_, ?_, ?_, ?_, ?_⟩, hparents, hleft⟩
  · rw [crew_concat]
    exact hharmony.elsewhere rfl rfl rfl (Nat.le_refl _)
  · intro m hm
    rw [crew_append] at hm
    rcases List.mem_append.1 hm with hm | hm
    · exact (h.heeded m hm).still rfl rfl fun hr => (hmem _).2 (Or.inl hr)
    · obtain ⟨w, hw, _, hstrand⟩ := exists_of_mem_crew hm
      rw [List.mem_singleton.1 hw] at hstrand
      exact Or.inr ((hmem _).2 (Or.inr hstrand))
  · rw [List.map_append, List.map_singleton]
    refine List.nodup_append.2 ⟨h.numbers, by simp, fun a ha b hb => ?_⟩
    obtain ⟨w, hw, rfl⟩ := List.mem_map.1 ha
    rw [List.mem_singleton.1 hb]
    exact Nat.ne_of_lt (h.issued w hw)
  · refine List.forall_mem_append.2 ⟨fun w hw => Nat.lt_trans (h.issued w hw) hlt, ?_⟩
    intro w hw
    rw [List.mem_singleton.1 hw]
    exact hlt
  · refine List.forall_mem_append.2 ⟨h.suits, ?_⟩
    intro w hw
    rw [List.mem_singleton.1 hw]
    exact hsuits
  · refine List.forall_mem_append.2 ⟨fun w hw => ?_, ?_⟩
    · exact (h.alive w hw).imp_left fun hr => (hmem _).2 (Or.inl hr)
    · intro w hw
      rw [List.mem_singleton.1 hw]
      exact Or.inl ((hmem _).2 (Or.inr rfl))

/-! ## 3. Turns of windows -/

omit [DecidableEq ι] in
theorem own_iff {strand : Strand} : own works strand = true ↔ ∃ w ∈ works, w.strand = strand := by
  simp [own]

/-- The next window to go on is one that is called; if there is none, no window is called. -/
theorem next_cases (assembler : Assembler ι α β π γ) (works : List (Underway ι α π))
    (stream : WindowStream π) (sys : System ι α) :
    ((Assembly.surroundings assembler).next works (stream, sys) = (none, (stream, sys))
      ∧ ∀ w ∈ works, w.strand ∉ sys.ready)
    ∨ ∃ before w behind, works = before ++ w :: behind ∧ w.strand ∈ sys.ready
      ∧ (Assembly.surroundings assembler).next works (stream, sys)
        = (some before.length, (stream, sys.forget w.strand)) := by
  cases hfind : sys.ready.find? (own works) with
  | none =>
    have htake : sys.takeReady (own works) = (none, sys) := by
      rw [System.takeReady, hfind]
    unfold own at htake
    refine Or.inl ⟨?_, fun w hw hready => ?_⟩
    · simp only [Assembly.surroundings, htake]
    · have hnot := List.find?_eq_none.1 hfind w.strand hready
      exact hnot (own_iff.2 ⟨w, hw, rfl⟩)
  | some strand =>
    have htake : sys.takeReady (own works) = (some strand, sys.forget strand) := by
      rw [System.takeReady, hfind]
    unfold own at htake
    have hmine := List.find?_some hfind
    have hready := List.mem_of_find?_eq_some hfind
    obtain ⟨w, hw, rfl⟩ := own_iff.1 hmine
    cases hplace : works.findIdx? fun x => x.strand = w.strand with
    | none =>
      have hnone := List.findIdx?_eq_none_iff.1 hplace w hw
      simp at hnone
    | some n =>
      obtain ⟨hn, hstrand, _⟩ := List.findIdx?_eq_some_iff_getElem.1 hplace
      have hsame : works[n].strand = w.strand := by simpa using hstrand
      refine Or.inr ⟨works.take n, works[n], works.drop (n + 1), ?_, hsame ▸ hready, ?_⟩
      · rw [List.getElem_cons_drop, List.take_append_drop]
      · simp only [Assembly.surroundings, htake, hsame, hplace, List.length_take,
          Nat.min_eq_left (Nat.le_of_lt hn)]

/-- Where no window can go on, none is called. -/
theorem calm_of_quiet {flights : List (Flight (Underway ι α π) Error γ)}
    {stream : WindowStream π}
    (h : flights = [] ∨ Pipeline.Quiet (Assembly.surroundings assembler) flights (stream, sys)) :
    ∀ w ∈ Pipeline.works flights, w.strand ∉ sys.ready := by
  rcases h with rfl | hquiet
  · intro w hw
    cases hw
  · rcases next_cases assembler (Pipeline.works flights) stream sys with
      ⟨_, hcalm⟩ | ⟨_, _, _, _, _, hsome⟩
    · exact hcalm
    · rw [Pipeline.Quiet, hsome] at hquiet
      cases hquiet

/-- The state in which a window has its turn. -/
theorem turn (h : Company children assembler (before ++ w :: behind) sys) :
    Harmony children assembler.paths
      (crew before ++ (Branch.members w.strand w.task.branches ++ crew behind))
      ((sys.forget w.strand).beginTurn w.strand)
    ∧ ∀ m ∈ crew before ++ crew behind, m.Heeded ((sys.forget w.strand).beginTurn w.strand) := by
  have hharmony := h.harmony
  have hheeded := h.heeded
  rw [crew_append, crew_cons] at hharmony hheeded
  refine ⟨hharmony.elsewhere rfl rfl rfl (Nat.le_succ _), fun m hm => ?_⟩
  have hsub := ((List.sublist_append_right (Branch.members w.strand w.task.branches)
    (crew behind)).append_left (crew before)).subset
  rw [← crew_append] at hm
  obtain ⟨other, ho, _, hstrand⟩ := exists_of_mem_crew hm
  rw [crew_append] at hm
  have hne : m.strand ≠ w.strand := hstrand ▸ strand_ne h.numbers ho
  exact (hheeded m (hsub hm)).still rfl rfl fun hready => (List.mem_erase_of_ne hne).2 hready

/-- After a window's turn the others are in company with what is left of it, if anything is. -/
theorem rejoin (h : Company children assembler (before ++ w :: behind) sys)
    {left : List (Underway ι α π)}
    (hharmony : Harmony children assembler.paths (crew before ++ (crew left ++ crew behind)) sys')
    (htickets : sys.tickets ≤ sys'.tickets)
    (hothers : ∀ m ∈ crew before ++ crew behind, m.Heeded sys')
    (hcalled : ∀ other ∈ before ++ behind, other.strand ∈ sys.ready → other.strand ∈ sys'.ready)
    (hnumbers : (left.map fun x => x.number).Sublist [w.number])
    (hsuits : ∀ x ∈ left, assembler.Suits children x.task) (hleft : ∀ m ∈ crew left, m.Heeded sys')
    (halive : ∀ x ∈ left, Branch.members x.strand x.task.branches ≠ []) :
    Company children assembler (before ++ (left ++ behind)) sys' := by
  have hsub := ((List.sublist_cons_self w behind).append_left before).subset
  have hsame : ((before ++ (left ++ behind)).map fun x => x.number).Sublist
      ((before ++ w :: behind).map fun x => x.number) := by
    simp only [List.map_append, List.map_cons]
    exact (hnumbers.append_right _).append_left _
  refine ⟨?_, fun m hm => ?_, hsame.nodup h.numbers, fun x hx => ?_, fun x hx => ?_, fun x hx => ?_⟩
  · rw [crew_append, crew_append]
    exact hharmony
  · rw [crew_append, crew_append, List.mem_append, List.mem_append] at hm
    rcases hm with hm | hm | hm
    · exact hothers m (List.mem_append_left _ hm)
    · exact hleft m hm
    · exact hothers m (List.mem_append_right _ hm)
  · obtain ⟨other, ho, hnumber⟩ := List.mem_map.1 (hsame.subset (List.mem_map_of_mem hx))
    have hissued := h.issued other ho
    rw [hnumber] at hissued
    exact Nat.lt_of_lt_of_le hissued htickets
  · rw [List.mem_append, List.mem_append] at hx
    rcases hx with hx | hx | hx
    · exact h.suits x (hsub (List.mem_append_left _ hx))
    · exact hsuits x hx
    · exact h.suits x (hsub (List.mem_append_right _ hx))
  · rw [List.mem_append, List.mem_append] at hx
    rcases hx with hx | hx | hx
    · have hm : x ∈ before ++ behind := List.mem_append_left _ hx
      exact (h.alive x (hsub hm)).imp_left (hcalled x hm)
    · exact Or.inr (halive x hx)
    · have hm : x ∈ before ++ behind := List.mem_append_right _ hx
      exact (h.alive x (hsub hm)).imp_left (hcalled x hm)

/-- **A window that has its turn** ends with the aggregates of its parents, or it waits in company;
and it has come further or nobody was called. -/
theorem advance (h : Company children assembler (before ++ w :: behind) sys)
    (stream : WindowStream π) :
    (∃ branches sys', (Assembly.surroundings assembler).advance w (stream, sys.forget w.strand)
        = (.waiting { w with touched := sys'.turn, task := { w.task with branches := branches } },
          (stream, sys'))
      ∧ Company children assembler (before ++ { w with
        touched := sys'.turn, task := { w.task with branches := branches } } :: behind) sys'
      ∧ sys'.now = sys.now
      ∧ (Branch.left branches < Branch.left w.task.branches
        ∨ branches = w.task.branches ∧ sys'.ready = sys.ready.erase w.strand))
    ∨ ∃ sys', (Assembly.surroundings assembler).advance w (stream, sys.forget w.strand)
        = (.finished (.ok (w.task.parents.map (assembler.aggregate children))), (stream, sys'))
      ∧ Company children assembler (before ++ behind) sys' := by
  obtain ⟨hharmony, hheeded⟩ := h.turn
  obtain ⟨standing, sys', hrun, hothers, hend⟩ :=
    Assembler.run_ran (h.suits w (by simp)) hharmony rfl
  have hadv := hothers.advanced
  have htickets : sys.tickets ≤ sys'.tickets := by
    have hmore : sys'.tickets = sys.tickets + 1 := hadv.tickets
    omega
  have hheeded' : ∀ m ∈ crew before ++ crew behind, m.Heeded sys' := fun m hm =>
    hothers.heeded m hm (hheeded m hm)
  -- Those who are called stay called, the window itself apart.
  have hcalled : ∀ other ∈ before ++ behind, other.strand ∈ sys.ready →
      other.strand ∈ sys'.ready := fun other ho hready =>
    hadv.ready ((List.mem_erase_of_ne (strand_ne h.numbers ho)).2 hready)
  rcases hend with ⟨branches, rfl, hsuits, hharmony', hown, hne, hfurther⟩ | ⟨rfl, hharmony'⟩
  · let w' : Underway ι α π := { w with
      touched := sys'.turn, task := { w.task with branches := branches } }
    have hadvance : (Assembly.surroundings assembler).advance w (stream, sys.forget w.strand)
        = (.waiting w', (stream, { sys' with strand := sys.strand })) := by
      simp only [Assembly.surroundings, hrun]
      rfl
    have hcrew : crew [w'] = Branch.members w.strand branches := List.append_nil _
    have hcompany : Company children assembler (before ++ ([w'] ++ behind))
        { sys' with strand := sys.strand } := by
      refine h.rejoin ?_ htickets hheeded' hcalled (List.Sublist.refl _) ?_ ?_ ?_
      · rw [hcrew]
        exact hharmony'.elsewhere rfl rfl rfl (Nat.le_refl _)
      · exact List.forall_mem_singleton.2 hsuits
      · rw [hcrew]
        exact hown
      · exact List.forall_mem_singleton.2 hne
    exact Or.inl ⟨branches, { sys' with strand := sys.strand }, hadvance, hcompany, hadv.now,
      hfurther⟩
  · have hadvance : (Assembly.surroundings assembler).advance w (stream, sys.forget w.strand)
        = (.finished (.ok (w.task.parents.map (assembler.aggregate children))),
          (stream, { sys'.forget w.strand with strand := sys.strand })) := by
      simp only [Assembly.surroundings, hrun]
      rfl
    have hcompany : Company children assembler (before ++ ([] ++ behind))
        { sys'.forget w.strand with strand := sys.strand } := by
      refine h.rejoin (hharmony'.elsewhere rfl rfl rfl (Nat.le_refl _)) htickets (fun m hm => ?_)
        (fun other ho hready => ?_) (List.nil_sublist _) (by simp) (by simp [crew]) (by simp)
      · have hm' := hm
        rw [← crew_append] at hm'
        obtain ⟨other, ho, _, hstrand⟩ := exists_of_mem_crew hm'
        have hne : m.strand ≠ w.strand := hstrand ▸ strand_ne h.numbers ho
        exact (hheeded' m hm).still rfl rfl fun hr => (List.mem_erase_of_ne hne).2 hr
      · exact (List.mem_erase_of_ne (strand_ne h.numbers ho)).2 (hcalled other ho hready)
    exact Or.inr ⟨{ sys'.forget w.strand with strand := sys.strand }, hadvance, hcompany⟩

end Company

/-! ## 4. The surroundings of an assembly -/

namespace Assembly

/-- How much one window can cost, and a little more. -/
def load (assembler : Assembler ι α β π γ) : Nat :=
  2 + (assembler.rules.map fun rule => rule.path.load).sum

/-- When the alarms of windows ring. -/
def dues (works : List (Underway ι α π)) : List Nat :=
  works.flatMap fun w => w.task.alarms.map fun alarm => alarm.due

/-- What an assembly's surroundings come to. What is watched are the moments still to come and the
calls that wait to be heard. -/
def view (children : Path ι α → ι → List α)
    (assembler : Assembler ι α β π γ) (endsAt : Option Nat) :
    View (Underway ι α π) γ (WindowStream π × System ι α) (Nat ×ₗ Nat) where
  sound := fun works (stream, sys) =>
    Company children assembler works sys ∧ stream.Timed endsAt
  value := fun w => w.task.parents.map (assembler.aggregate children)
  rest := fun (stream, _) => stream.parents.map (assembler.aggregate children)
  cost := fun works (stream, _) =>
    (works.map fun w => 2 + Branch.left w.task.branches).sum + stream.weight (load assembler)
  watch := fun works (stream, sys) =>
    toLex ((stream.moments ++ dues works).countP (sys.now < ·), sys.ready.countP (own works))
  dry := fun (stream, sys) =>
    (∃ due ∈ stream.moments, sys.now < due) ∨ stream.parents = [] ∧ endsAt = none
  ends := endsAt.isSome = true

variable {children : Path ι α → ι → List α}
  {assembler : Assembler ι α β π γ} {endsAt : Option Nat}

/-- A window that gave up its call is called once less. -/
theorem countP_erase_lt {ready : List Strand} {strand : Strand} {mine : Strand → Bool}
    (hm : strand ∈ ready) (hmine : mine strand = true) :
    (ready.erase strand).countP mine < ready.countP mine := by
  rw [(List.perm_cons_erase hm).countP_eq, List.countP_cons_of_pos hmine]
  exact Nat.lt_succ_self _

variable (children assembler endsAt) in
/-- There is less to wait for when nothing changed but that a window is called no more. -/
theorem watch_lt {before behind : List (Underway ι α π)} {w : Underway ι α π} {touched : Nat}
    {stream : WindowStream π} {sys sys' : System ι α} (hready : w.strand ∈ sys.ready)
    (hnow : sys'.now = sys.now) (hready' : sys'.ready = sys.ready.erase w.strand) :
    (view children assembler endsAt).watch (before ++ { w with touched := touched } :: behind)
        (stream, sys')
      < (view children assembler endsAt).watch (before ++ w :: behind) (stream, sys) := by
  have hdues : dues (before ++ { w with touched := touched } :: behind)
      = dues (before ++ w :: behind) := by
    simp only [dues, List.flatMap_append, List.flatMap_cons]
  have hown : own (before ++ { w with touched := touched } :: behind)
      = own (before ++ w :: behind) := by
    funext strand
    simp only [own, List.any_append, List.any_cons]
    rfl
  have hmine : own (before ++ w :: behind) w.strand = true :=
    Company.own_iff.2 ⟨w, by simp, rfl⟩
  refine Prod.Lex.toLex_lt_toLex.2 (Or.inr ⟨?_, ?_⟩)
  · simp only [hnow, hdues]
  · simp only [hready', hown]
    exact countP_erase_lt hready hmine

/-- A stream that has come further, or stayed as it was, leaves less to be done or as much. -/
theorem outlook_le_of_stream {stream stream' : WindowStream π} (works : List (Underway ι α π))
    (sys : System ι α)
    (h : stream'.weight (load assembler) < stream.weight (load assembler)
      ∨ stream'.weight (load assembler) = stream.weight (load assembler)
        ∧ stream'.moments = stream.moments) :
    (view children assembler endsAt).outlook works (stream', sys)
      ≤ (view children assembler endsAt).outlook works (stream, sys) := by
  rw [View.outlook, View.outlook, Prod.Lex.toLex_le_toLex]
  rcases h with hless | ⟨hsame, hmoments⟩
  · exact Or.inl (Nat.add_lt_add_left hless _)
  · refine Or.inr ⟨?_, ?_⟩
    · simp only [view, hsame]
    · simp only [view, hmoments]
      exact le_refl _

/-- **The surroundings of an assembly are lawful.** -/
theorem lawful :
    (surroundings assembler).Lawful (view children assembler endsAt) where
  item := by
    rintro works ⟨stream, sys⟩ window s' ⟨hcompany, htimed⟩ hpull
    rcases hstream : stream.pull sys.now sys.turn with ⟨answer, stream'⟩
    simp only [surroundings, hstream, Prod.mk.injEq] at hpull
    obtain ⟨rfl, rfl⟩ := hpull
    obtain ⟨htimed', hne, hparents, hweight⟩ :=
      WindowStream.pull_item (load assembler) htimed hstream
    obtain ⟨work, sys', hlaunch, hcompany', hwindow, hleft⟩ :=
      hcompany.launch window stream'
    refine ⟨work, (stream', sys'), hlaunch, ⟨hcompany', htimed'⟩, ?_, ?_, ?_⟩
    · simp only [view]
      rw [hwindow, ← List.map_append, hparents]
    · simp only [view]
      rw [hwindow]
      exact fun hnil => hne (List.map_eq_nil_iff.1 hnil)
    · simp only [view, List.map_append, List.map_singleton, List.sum_append, List.sum_singleton]
      rw [load] at hweight ⊢
      omega
  ended := by
    rintro works ⟨stream, sys⟩ s' ⟨hcompany, htimed⟩ hpull
    rcases hstream : stream.pull sys.now sys.turn with ⟨answer, stream'⟩
    simp only [surroundings, hstream, Prod.mk.injEq] at hpull
    obtain ⟨rfl, rfl⟩ := hpull
    obtain ⟨htimed', hparents, hparents', hends, hfurther⟩ :=
      WindowStream.pull_ended (load assembler) htimed hstream
    refine ⟨⟨hcompany, htimed'⟩, ?_, ?_, hends, outlook_le_of_stream works sys hfurther⟩
    · simp only [view, hparents, List.map_nil]
    · simp only [view, hparents', List.map_nil]
  pending := by
    rintro works ⟨stream, sys⟩ s' ⟨hcompany, htimed⟩ hpull
    rcases hstream : stream.pull sys.now sys.turn with ⟨answer, stream'⟩
    simp only [surroundings, hstream, Prod.mk.injEq] at hpull
    obtain ⟨rfl, rfl⟩ := hpull
    obtain ⟨htimed', hparents, hfurther, hdry⟩ :=
      WindowStream.pull_pending (load assembler) htimed hstream
    refine ⟨⟨hcompany, htimed'⟩, ?_, outlook_le_of_stream works sys hfurther, hdry⟩
    simp only [view, hparents]
  idle := by
    rintro works ⟨stream, sys⟩ s' _ hnext
    rcases Company.next_cases assembler works stream sys with ⟨hnone, _⟩ | ⟨_, _, _, _, _, hsome⟩
    · rw [hnone] at hnext
      exact (Prod.mk.inj hnext).2.symm
    · rw [hsome] at hnext
      cases hnext
  goes := by
    rintro works ⟨stream, sys⟩ n s' ⟨hcompany, htimed⟩ hnext
    rcases Company.next_cases assembler works stream sys with ⟨hnone, _⟩ |
      ⟨before, w, behind, rfl, hready, hsome⟩
    · rw [hnone] at hnext
      cases hnext
    rw [hsome] at hnext
    cases hnext
    refine ⟨before, w, behind, rfl, rfl, ?_⟩
    rcases hcompany.advance stream with ⟨branches, sys', hadvance, hcompany', hnow, hfurther⟩ |
      ⟨sys', hadvance, hcompany'⟩
    · refine Or.inl ⟨_, (stream, sys'), hadvance, ⟨hcompany', htimed⟩, rfl, rfl, ?_⟩
      rw [View.outlook, View.outlook, Prod.Lex.toLex_lt_toLex]
      rcases hfurther with hless | ⟨rfl, hready'⟩
      · refine Or.inl ?_
        simp only [view, List.map_append, List.map_cons, List.sum_append, List.sum_cons]
        omega
      · refine Or.inr ⟨?_, watch_lt children assembler endsAt hready hnow hready'⟩
        simp only [view, List.map_append, List.map_cons]
    · refine Or.inr ⟨(stream, sys'), hadvance, ⟨hcompany', htimed⟩, rfl, ?_⟩
      simp only [view, List.map_append, List.map_cons, List.sum_append, List.sum_cons]
      omega

end Assembly

end Collate
