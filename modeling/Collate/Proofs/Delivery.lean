/-
What an assembly of parents delivers.

Parents that arrive over time are gathered into windows, the windows are resolved side by side
through caches, and their aggregates are handed out one by one. However they arrive, wherever the
windows are cut, however many of them are under way, in whatever order sources answer and windows are
called, and whenever the reader asks: what is read is one aggregate per parent, in their order, each
made of the field values that the rules give without caches in single calls. And a reader who asks
again when a window is called, or when the next alarm rings, gets them all.
-/
import Collate.Proofs.Company

set_option autoImplicit false

namespace Collate

variable {ι α β π γ : Type}

/-! ## 1. The next alarm -/

namespace Alarm

theorem next?_eq_some {now due : Nat} {alarms : List Alarm} (h : next? now alarms = some due) :
    (∃ alarm ∈ alarms, alarm.due = due) ∧ now < due
      ∧ ∀ alarm ∈ alarms, now < alarm.due → due ≤ alarm.due := by
  obtain ⟨hm, hmin⟩ := List.min?_eq_some_iff.1 h
  obtain ⟨alarm, ha, hdue⟩ := List.mem_filterMap.1 hm
  refine ⟨⟨alarm, ha, ?_⟩, ?_, fun other ho hlt => hmin _ (List.mem_filterMap.2 ⟨other, ho, ?_⟩)⟩
  · split at hdue <;> cases hdue
    rfl
  · split at hdue <;> cases hdue
    assumption
  · exact if_pos hlt

theorem next?_eq_none {now : Nat} {alarms : List Alarm} (h : next? now alarms = none) :
    ∀ alarm ∈ alarms, ¬now < alarm.due := by
  intro alarm ha hlt
  have hm : alarm.due ∈ alarms.filterMap fun a => if now < a.due then some a.due else none :=
    List.mem_filterMap.2 ⟨alarm, ha, if_pos hlt⟩
  rw [List.min?_eq_none_iff.1 h] at hm
  cases hm

end Alarm

/-- A narrower count that misses something is less. -/
theorem countP_lt {τ : Type} {p q : τ → Bool} {l : List τ} (h : ∀ x ∈ l, q x = true → p x = true)
    {x : τ} (hx : x ∈ l) (hp : p x = true) (hq : q x = false) : l.countP q < l.countP p := by
  obtain ⟨before, behind, rfl⟩ := List.append_of_mem hx
  have hfirst := List.countP_mono_left (fun y hy => h y (List.mem_append_left _ hy))
  have hlast := List.countP_mono_left
    (fun y hy => h y (List.mem_append_right _ (List.mem_cons_of_mem x hy)))
  rw [List.countP_append, List.countP_append, List.countP_cons_of_pos hp,
    List.countP_cons_of_neg (by rw [hq]; exact Bool.false_ne_true)]
  omega

variable [DecidableEq ι]

namespace Assembly

/-! ## 2. Assemblies between questions -/

variable {children : Path ι α → ι → List α}
  {assembler : Assembler ι α β π γ} {endsAt : Option Nat} {a a' : Assembly ι α π γ}
  {sys sys' : System ι α}

/-- The windows are in company, none has failed, and parents are gathered as they arrive. -/
def Steady (children : Path ι α → ι → List α)
    (assembler : Assembler ι α β π γ) (endsAt : Option Nat) (a : Assembly ι α π γ)
    (sys : System ι α) : Prop :=
  Pipeline.Sound (view children assembler endsAt) a.pipeline (a.stream, sys)

/-- The aggregates still to be handed out. -/
def owed (children : Path ι α → ι → List α)
    (assembler : Assembler ι α β π γ) (endsAt : Option Nat) (a : Assembly ι α π γ)
    (sys : System ι α) : List γ :=
  Pipeline.content (view children assembler endsAt) a.pipeline (a.stream, sys)

/-- How much there is to do until the next answer. -/
def outlook (children : Path ι α → ι → List α)
    (assembler : Assembler ι α β π γ) (endsAt : Option Nat) (a : Assembly ι α π γ)
    (sys : System ι α) : Nat ×ₗ Nat ×ₗ Nat :=
  Pipeline.outlook (view children assembler endsAt) a.pipeline.inFlight (a.stream, sys)

/-- What may happen while nobody asks: time passes, and whoever's alarm rings is called; others hold
tickets and have turns, but the rules' locks are theirs alone, and nothing fails. -/
structure Meantime (children : Path ι α → ι → List α) (assembler : Assembler ι α β π γ)
    (a : Assembly ι α π γ) (sys sys' : System ι α) : Prop where
  tickets : sys.tickets ≤ sys'.tickets
  locks : ∀ path ∈ assembler.paths, sys'.locks.get path.lock = sys.locks.get path.lock
  sturdy : Sturdy children assembler.paths sys'
  called : ∀ w ∈ a.underway, w.strand ∈ sys.ready → w.strand ∈ sys'.ready
  rung : ∀ w ∈ a.underway, ∀ alarm ∈ w.task.alarms, sys.now < alarm.due → alarm.due ≤ sys'.now →
    alarm.strand ∈ sys'.ready

theorem Steady.later (h : Steady children assembler endsAt a sys)
    (hm : Meantime children assembler a sys sys') : Steady children assembler endsAt a sys' := by
  obtain ⟨hlimit, ⟨⟨hcompany, htimed⟩, hunfailing⟩, hended⟩ := h
  refine ⟨hlimit, ⟨⟨?_, htimed⟩, hunfailing⟩, hended⟩
  exact hcompany.later hm.tickets hm.locks hm.sturdy hm.called hm.rung

/-- **Asking an assembly.** -/
theorem poll_answered
    (h : Steady children assembler endsAt a sys) :
    ∃ answer a' sys', a.poll assembler sys = (answer, a', sys')
      ∧ Pipeline.Answered (surroundings assembler) (view children assembler endsAt) a.pipeline
        (a.stream, sys) answer a'.pipeline (a'.stream, sys') := by
  have hremaining := h.afloat.sound.2.remaining
  have hrounds : a.pipeline.inFlight.length
      + ((view children assembler endsAt).rest (a.stream, sys)).length < a.rounds := by
    simp only [view, List.length_map, rounds]
    omega
  obtain ⟨answer, pipeline, ⟨stream, sys'⟩, hpoll, hanswered⟩ :=
    Pipeline.poll_answered lawful h hrounds
  exact ⟨answer, ⟨pipeline, stream⟩, sys', by rw [poll, hpoll], hanswered⟩

/-- An assembly that has nothing to hand out, and of whose windows none is called, has an alarm that
is still to ring, or nothing is left and the parents never end. -/
theorem exists_alarm (h : Steady children assembler endsAt a sys)
    (hparked : Pipeline.Parked (view children assembler endsAt) a.pipeline (a.stream, sys))
    (hcalm : ∀ w ∈ a.underway, w.strand ∉ sys.ready) :
    (∃ alarm ∈ a.alarms sys, sys.now < alarm.due)
    ∨ owed children assembler endsAt a sys = [] ∧ endsAt = none := by
  obtain ⟨hcompany, htimed⟩ := h.afloat.sound
  rcases hflights : a.pipeline.inFlight with _ | ⟨flight, rest⟩
  · rcases hparked.dry hflights with ⟨due, hm, hdue⟩ | ⟨hparents, hends⟩
    · obtain ⟨first, hwakes⟩ := WindowStream.exists_wakesAt hm hdue
      refine Or.inl ⟨.ofStep first, List.mem_append_left _ ?_,
        (WindowStream.wakesAt_eq_some hwakes).2⟩
      rw [hwakes]
      exact List.mem_singleton_self _
    · refine Or.inr ⟨?_, hends⟩
      have hparents' : a.stream.parents = [] := hparents
      rw [owed, Pipeline.content, hparked.outputs, hflights]
      simp only [view, hparents', List.map_nil]
      rfl
  · -- The first window has something to wait for, and all that wait do so with good reason.
    obtain ⟨w, rfl⟩ := hparked.first flight rest hflights
    have hw : w ∈ a.underway := by
      rw [underway, hflights]
      exact List.mem_cons_self ..
    have hne : crew a.underway ≠ [] := by
      rcases hcompany.alive w hw with hready | hne
      · exact absurd hready (hcalm w hw)
      · obtain ⟨m, hm⟩ := List.exists_mem_of_ne_nil _ hne
        exact List.ne_nil_of_mem (List.mem_flatMap.2 ⟨w, hw, hm⟩)
    obtain ⟨m, hm, alarm, halarm, hdue⟩ := hcompany.harmony.exists_alarm hne fun m hm => by
      obtain ⟨other, ho, _, hstrand⟩ := exists_of_mem_crew hm
      refine (hcompany.heeded m hm).resolve_right ?_
      rw [hstrand]
      exact hcalm other ho
    obtain ⟨other, ho, hmember, _⟩ := exists_of_mem_crew hm
    exact Or.inl ⟨alarm, List.mem_append_right _ (List.mem_flatMap.2
      ⟨other, ho, mem_alarms.2 ⟨m, hmember, halarm⟩⟩), hdue⟩

/-- Nothing but time and calls has changed at the next alarm, and there is less to wait for. -/
theorem moveTo_meantime (h : Steady children assembler endsAt a sys) {due : Nat}
    (hdue : Alarm.next? sys.now (a.alarms sys) = some due) :
    Meantime children assembler a sys (sys.moveTo due (a.alarms sys))
    ∧ outlook children assembler endsAt a (sys.moveTo due (a.alarms sys))
      < outlook children assembler endsAt a sys := by
  obtain ⟨hcompany, htimed⟩ := h.afloat.sound
  obtain ⟨⟨alarm, halarm, hfirst⟩, hnow, hmin⟩ := Alarm.next?_eq_some hdue
  obtain ⟨ready, hmem, hmove⟩ := System.rouseAll_eq { sys with now := due }
    (Alarm.ringing due (a.alarms sys))
  have hmoved : sys.moveTo due (a.alarms sys) = { sys with now := due, ready := ready } := hmove
  rw [hmoved]
  refine ⟨⟨Nat.le_refl _, fun _ _ => rfl, ?_, fun w _ hr => (hmem _).2 (Or.inl hr), ?_⟩, ?_⟩
  · exact hcompany.harmony.sturdy.elsewhere rfl rfl
  · intro w hw other ho hlt hle
    have hm : other ∈ a.alarms sys :=
      List.mem_append_right _ (List.mem_flatMap.2 ⟨w, hw, ho⟩)
    have hsame : other.due = due := Nat.le_antisymm hle (hmin other hm hlt)
    exact (hmem _).2 (Or.inr (Alarm.mem_ringing.2 ⟨other, hm, hsame, rfl⟩))
  · -- The moment that has come is no longer to be waited for.
    have hmoment : due ∈ a.stream.moments ++ dues a.underway := by
      rcases List.mem_append.1 halarm with hm | hm
      · obtain ⟨wake, hwake, rfl⟩ := List.mem_map.1 hm
        have hwakes := WindowStream.wakesAt_eq_some (Option.mem_toList.1 hwake)
        rw [← hfirst]
        exact List.mem_append_left _ hwakes.1
      · obtain ⟨w, hw, hm⟩ := List.mem_flatMap.1 hm
        exact List.mem_append_right _ (List.mem_flatMap.2
          ⟨w, hw, List.mem_map.2 ⟨alarm, hm, hfirst⟩⟩)
    have hcount : (a.stream.moments ++ dues a.underway).countP (due < ·)
        < (a.stream.moments ++ dues a.underway).countP (sys.now < ·) := by
      refine countP_lt (fun moment _ hlt => ?_) hmoment (by simpa using hnow) (by simp)
      have hlater : due < moment := by simpa using hlt
      simpa using Nat.lt_trans hnow hlater
    rw [outlook, outlook, Pipeline.outlook, Pipeline.outlook, Prod.Lex.toLex_lt_toLex]
    refine Or.inr ⟨rfl, Prod.Lex.toLex_lt_toLex.2 (Or.inl hcount)⟩

/-! ## 3. Reading to the end -/

/-- Reads at most so many answers, and says whether the end was reached. While there is none the
assembly is asked again if one of its windows is called, and otherwise when the next alarm rings. -/
def exhaust (assembler : Assembler ι α β π γ) :
    Nat → Assembly ι α π γ → System ι α → List (Except Error γ) × Bool
  | 0, _, _ => ([], false)
  | fuel + 1, a, sys =>
    match a.poll assembler (sys.beginTurn .step) with
    | (.item answer, a, sys) =>
      let (later, ended) := exhaust assembler fuel a sys
      (answer :: later, ended)
    | (.ended, _, _) => ([], true)
    | (.pending, a, sys) =>
      if sys.ready.any (own a.underway) then exhaust assembler fuel a sys
      else match Alarm.next? sys.now (a.alarms sys) with
        | some due => exhaust assembler fuel a (sys.moveTo due (a.alarms sys))
        | none => ([], false)

theorem Steady.beginTurn (h : Steady children assembler endsAt a sys) :
    Steady children assembler endsAt a (sys.beginTurn .step) := by
  have hsturdy : Sturdy children assembler.paths (sys.beginTurn .step) :=
    h.afloat.sound.1.harmony.sturdy.elsewhere rfl rfl
  exact h.later ⟨Nat.le_succ _, fun _ _ => rfl, hsturdy, fun _ _ hr => hr,
    fun _ _ _ _ hlt hle => absurd hle (Nat.not_le_of_lt hlt)⟩

/-- **After a pause there is less to do**: a window is called already, or will be with the next alarm;
otherwise nothing is owed, and there is no end to wait for. -/
theorem after_pause (h : Steady children assembler endsAt a sys)
    (hparked : Pipeline.Parked (view children assembler endsAt) a.pipeline (a.stream, sys))
    {before : Nat ×ₗ Nat ×ₗ Nat}
    (hless : outlook children assembler endsAt a sys < before
      ∨ outlook children assembler endsAt a sys ≤ before
        ∧ (a.pipeline.inFlight = []
          ∨ Pipeline.Quiet (surroundings assembler) a.pipeline.inFlight (a.stream, sys))) :
    (sys.ready.any (own a.underway) = true ∧ outlook children assembler endsAt a sys < before)
    ∨ sys.ready.any (own a.underway) = false
      ∧ ((∃ due, Alarm.next? sys.now (a.alarms sys) = some due
          ∧ Steady children assembler endsAt a (sys.moveTo due (a.alarms sys))
          ∧ outlook children assembler endsAt a (sys.moveTo due (a.alarms sys)) < before)
        ∨ Alarm.next? sys.now (a.alarms sys) = none
          ∧ owed children assembler endsAt a sys = [] ∧ endsAt = none) := by
  cases hready : sys.ready.any (own a.underway) with
  | true =>
    -- A window is called, so something has happened.
    refine Or.inl ⟨rfl, hless.resolve_right fun hquiet => ?_⟩
    obtain ⟨strand, hm, hmine⟩ := List.any_eq_true.1 hready
    obtain ⟨w, hw, rfl⟩ := Company.own_iff.1 hmine
    exact Company.calm_of_quiet hquiet.2 w hw hm
  | false =>
    have hcalm : ∀ w ∈ a.underway, w.strand ∉ sys.ready := by
      intro w hw hm
      have hany := List.any_eq_true.2 ⟨w.strand, hm, Company.own_iff.2 ⟨w, hw, rfl⟩⟩
      rw [hready] at hany
      cases hany
    refine Or.inr ⟨rfl, ?_⟩
    cases hwake : Alarm.next? sys.now (a.alarms sys) with
    | none =>
      rcases exists_alarm h hparked hcalm with ⟨alarm, halarm, hdue⟩ | ⟨hnil, hends⟩
      · exact absurd hdue (Alarm.next?_eq_none hwake alarm halarm)
      · exact Or.inr ⟨rfl, hnil, hends⟩
    | some due =>
      obtain ⟨hmeantime, hfewer⟩ := moveTo_meantime h hwake
      refine Or.inl ⟨due, rfl, h.later hmeantime, lt_of_lt_of_le hfewer ?_⟩
      rcases hless with hlt | ⟨hle, _⟩
      · exact le_of_lt hlt
      · exact hle

/-- **A reader gets all that is owed**, and the end if there is one. -/
theorem exhaust_eq
    (h : Steady children assembler endsAt a sys) :
    ∃ fuel, a.exhaust assembler fuel sys
      = ((owed children assembler endsAt a sys).map Except.ok, endsAt.isSome) := by
  -- Either an answer less is owed, or there is less to do until the next one.
  generalize hmeasure : toLex ((owed children assembler endsAt a sys).length,
    outlook children assembler endsAt a sys) = measure
  induction measure using WellFoundedLT.induction generalizing a sys with
  | ind measure ih =>
    obtain ⟨answer, a', sys', hpoll, hanswered⟩ := poll_answered h.beginTurn
    have hnext : ∀ next : System ι α, Steady children assembler endsAt a' next →
        ((owed children assembler endsAt a' next).length
          < (owed children assembler endsAt a sys).length
        ∨ (owed children assembler endsAt a' next).length
            = (owed children assembler endsAt a sys).length
          ∧ outlook children assembler endsAt a' next
            < outlook children assembler endsAt a sys) →
        ∃ fuel, a'.exhaust assembler fuel next
          = ((owed children assembler endsAt a' next).map Except.ok, endsAt.isSome) := by
      intro next hsteady hless
      refine ih _ ?_ hsteady rfl
      rw [← hmeasure]
      exact Prod.Lex.toLex_lt_toLex.2 hless
    generalize hp : a'.pipeline = p at hanswered
    generalize hs : (a'.stream, sys') = s at hanswered
    cases hanswered with
    | @item x _ _ hsound hc =>
      subst hp hs
      have howed : owed children assembler endsAt a sys
          = x :: owed children assembler endsAt a' sys' := hc
      obtain ⟨fuel, hfuel⟩ := hnext sys' hsound (Or.inl (by rw [howed]; exact Nat.lt_succ_self _))
      refine ⟨fuel + 1, ?_⟩
      rw [exhaust, hpoll]
      simp only [hfuel, howed, List.map_cons]
    | ended hc he =>
      have howed : owed children assembler endsAt a sys = [] := hc
      have hends : endsAt.isSome = true := he
      refine ⟨1, ?_⟩
      rw [exhaust, hpoll, howed, hends]
      rfl
    | pending hsound hc hparked hn =>
      subst hp hs
      have howed : owed children assembler endsAt a' sys'
          = owed children assembler endsAt a sys := hc
      have hlength := congrArg List.length howed
      rcases after_pause hsound hparked hn with ⟨hready, hless⟩ |
        ⟨hready, ⟨due, hwake, hsteady, hless⟩ | ⟨hwake, hnil, hends⟩⟩
      · obtain ⟨fuel, hfuel⟩ := hnext sys' hsound (Or.inr ⟨hlength, hless⟩)
        refine ⟨fuel + 1, ?_⟩
        rw [exhaust, hpoll, ← howed]
        simp only [hready, if_true, hfuel]
      · obtain ⟨fuel, hfuel⟩ := hnext _ hsteady (Or.inr ⟨hlength, hless⟩)
        refine ⟨fuel + 1, ?_⟩
        rw [exhaust, hpoll, ← howed]
        simp only [hready, Bool.false_eq_true, if_false, hwake, hfuel]
        rfl
      · refine ⟨1, ?_⟩
        rw [exhaust, hpoll, ← howed, hnil, hends]
        simp only [hready, Bool.false_eq_true, if_false, hwake]
        rfl

/-! ## 4. What parents come to -/

/-- An assembly of parents that become available at these times. -/
def ofParents (settings : AssembleSettings) (window : WindowSettings) (parents : List (Nat × π))
    (endsAt : Option Nat) : Assembly ι α π γ :=
  .start settings (.gathered (.ofSettings window) (.ofTimes parents endsAt))

/-- What can be read of an assembly, and where that leads: it is asked at any time, and in between
happens what may. -/
inductive Read (children : Path ι α → ι → List α) (assembler : Assembler ι α β π γ)
    (first : Assembly ι α π γ) (sys₀ : System ι α) :
    List (Except Error γ) → Assembly ι α π γ → System ι α → Prop where
  | begins : Read children assembler first sys₀ [] first sys₀
  | hands {handed : List (Except Error γ)} {a a' : Assembly ι α π γ} {sys sys' : System ι α}
      {answer : Except Error γ} (h : Read children assembler first sys₀ handed a sys)
      (hp : a.poll assembler sys = (.item answer, a', sys')) :
      Read children assembler first sys₀ (handed ++ [answer]) a' sys'
  | waits {handed : List (Except Error γ)} {a a' : Assembly ι α π γ} {sys sys' : System ι α}
      (h : Read children assembler first sys₀ handed a sys)
      (hp : a.poll assembler sys = (.pending, a', sys')) :
      Read children assembler first sys₀ handed a' sys'
  | passes {handed : List (Except Error γ)} {a : Assembly ι α π γ} {sys sys' : System ι α}
      (h : Read children assembler first sys₀ handed a sys)
      (hm : Meantime children assembler a sys sys') :
      Read children assembler first sys₀ handed a sys'

theorem steady_ofParents (hsturdy : Sturdy children assembler.paths sys)
    (hidle : ∀ path ∈ assembler.paths, sys.locks.get path.lock = {}) (settings : AssembleSettings)
    (window : WindowSettings) (parents : List (Nat × π)) (endsAt : Option Nat) :
    Steady children assembler endsAt (.ofParents settings window parents endsAt) sys := by
  have hharmony : Harmony children assembler.paths (crew ([] : List (Underway ι α π))) sys := by
    refine ⟨hsturdy, ?_, List.nodup_nil, ?_, fun path hp => .idle (hidle path hp) _, ?_⟩
    all_goals
      intro m hm
      cases hm
  have hcompany : Company children assembler [] sys := by
    refine ⟨hharmony, ?_, List.nodup_nil, ?_, ?_, ?_⟩
    all_goals
      intro x hx
      cases hx
  have hsize : window.effectiveMaxSize ≠ 0 := by
    rw [WindowSettings.effectiveMaxSize]
    omega
  have hlimit : 0 < max settings.maxConcurrentWindows.toNat 1 := by omega
  exact ⟨hlimit, ⟨⟨hcompany, hsize, rfl⟩, by simp [ofParents, start, Pipeline.start]⟩,
    fun he => by cases he⟩

/-- **What was read and what is owed are together what the parents come to.** -/
theorem Read.steady {first : Assembly ι α π γ} {sys₀ : System ι α}
    (hfirst : Steady children assembler endsAt first sys₀)
    {handed : List (Except Error γ)} (h : Read children assembler first sys₀ handed a sys) :
    Steady children assembler endsAt a sys
    ∧ handed ++ (owed children assembler endsAt a
        sys).map Except.ok
      = (owed children assembler endsAt first
        sys₀).map Except.ok := by
  induction h with
  | begins => exact ⟨hfirst, rfl⟩
  | @hands handed a a' sys sys' answer h hp ih =>
    obtain ⟨hsteady, hall⟩ := ih
    obtain ⟨given, a₁, sys₁, hpoll, hanswered⟩ := poll_answered hsteady
    rw [hpoll] at hp
    cases hp
    generalize hp : a'.pipeline = p at hanswered
    generalize hs : (a'.stream, sys') = s at hanswered
    cases hanswered with
    | item hsound hc =>
      subst hp hs
      refine ⟨hsound, ?_⟩
      rw [← hall, List.append_assoc]
      exact congrArg (fun l => handed ++ l.map Except.ok) hc.symm
  | @waits handed a a' sys sys' h hp ih =>
    obtain ⟨hsteady, hall⟩ := ih
    obtain ⟨given, a₁, sys₁, hpoll, hanswered⟩ := poll_answered hsteady
    rw [hpoll] at hp
    cases hp
    generalize hp : a'.pipeline = p at hanswered
    generalize hs : (a'.stream, sys') = s at hanswered
    cases hanswered with
    | pending hsound hc hparked hn =>
      subst hp hs
      refine ⟨hsound, ?_⟩
      rw [← hall]
      exact congrArg (fun l => handed ++ l.map Except.ok) hc
  | passes h hm ih => exact ⟨ih.1.later hm, ih.2⟩

end Assembly

/-- What is made of a parent and the values that the rules give, without their layers, in single
calls for its id. -/
def Assembler.Alone (assembler : Assembler ι α β π γ) (sys : System ι α) (parent : π)
    (answer : γ) : Prop :=
  ∃ values, List.Forall₂ (fun rule value =>
      rule.uncached.single (assembler.key parent) sys = some (.ok value)) assembler.rules values
    ∧ answer = assembler.construct parent values

theorem Assembler.alone_aggregate {children : Path ι α → ι → List α}
    {assembler : Assembler ι α β π γ} {sys alone : System ι α}
    (h : Sturdy children assembler.paths sys)
    (hreplies : ∀ n, (alone.sources.get n).reply = (sys.sources.get n).reply) (parent : π) :
    assembler.Alone alone parent (assembler.aggregate children parent) := by
  refine ⟨_, ?_, rfl⟩
  rw [List.forall₂_map_right_iff, List.forall₂_same]
  intro rule hr
  have hp : rule.path ∈ assembler.paths := Assembler.mem_paths hr
  have hunfailing := (h.unfailing _ hp).of_replies hreplies
  have hconsistent := (h.coherent _ hp).origin.of_replies hreplies
  obtain ⟨grouped, hanswer⟩ := hunfailing.ask (List.nodup_singleton (assembler.key parent))
  have hsingle : rule.uncached.single (assembler.key parent) alone
      = some (.ok ((rule.shape.resolved grouped).get (assembler.key parent))) := by
    rw [Rule.single_uncached, hanswer]
    rfl
  rw [hsingle, Rule.field_of_single hconsistent hsingle]

namespace Assembly

/-- **Windows and concurrency change no answer.** The sources of all rules are consistent per id and
never fail; in front of each stands any chain of stores that never fail, bounded or not, observed or
not, which hold nothing that is wrong; and nobody else has the rules' locks. Then, for every way to
cut windows and to let them go on side by side, for parents arriving at any times, and whenever and
however often the reader asks: what was read are aggregates of the first parents, one each, in order,
made of the values that the rules give alone; if there is an end it comes after the last of them; and
asking on, the reader gets all the others. -/
theorem delivers {children : Path ι α → ι → List α} {assembler : Assembler ι α β π γ}
    {sys : System ι α} (hsturdy : Sturdy children assembler.paths sys)
    (hidle : ∀ path ∈ assembler.paths, sys.locks.get path.lock = {})
    (settings : AssembleSettings) (window : WindowSettings) (parents : List (Nat × π))
    (endsAt : Option Nat) :
    (∀ alone : System ι α, (∀ n, (alone.sources.get n).reply = (sys.sources.get n).reply) →
      ∀ parent, assembler.Alone alone parent (assembler.aggregate children parent))
    ∧ ∀ handed a now,
      Read children assembler (.ofParents settings window parents endsAt) sys handed a now →
      ∃ more, handed ++ more
          = parents.map (fun parent => .ok (assembler.aggregate children parent.2))
        ∧ (∀ a' now', a.poll assembler now = (.ended, a', now') → more = [])
        ∧ ∃ fuel, a.exhaust assembler fuel now = (more, endsAt.isSome) := by
  have hfirst : Steady children assembler endsAt
      (.ofParents settings window parents endsAt) sys :=
    steady_ofParents hsturdy hidle settings window parents endsAt
  refine ⟨fun alone hreplies => Assembler.alone_aggregate hsturdy hreplies,
    fun handed a now hread => ?_⟩
  obtain ⟨hsteady, hall⟩ := hread.steady hfirst
  obtain ⟨fuel, hfuel⟩ := exhaust_eq hsteady
  refine ⟨_, ?_, fun a' now' hpoll => ?_, fuel, hfuel⟩
  · rw [hall]
    simp [owed, Pipeline.content, ofParents, start, Pipeline.start, Pipeline.yields, view,
      WindowStream.parents, Collector.ofSettings, Inlet.ofTimes, Inlet.payload]
  · obtain ⟨answer, _, _, hanswer, hanswered⟩ := poll_answered hsteady
    rw [hpoll] at hanswer
    cases hanswer
    cases hanswered with
    | ended hc =>
      have howed : owed children assembler endsAt a now
          = [] := hc
      rw [howed, List.map_nil]

/-- Tens and units of numbers: a child of an id is a number that has it as its tens. One rule goes
through two caches, of which the inner one has room for one id, and takes the first child; the other
has no cache and adds the children up. -/
def tens : Assembler Nat Nat Nat Nat (List Nat) where
  rules := [
    ⟨⟨0, [⟨[.observed ⟨1, "outer", [.get]⟩], 0⟩, ⟨[], 1⟩], .source 0 2 (· / 10)⟩,
      .one id fun _ => 0⟩,
    ⟨⟨1, [], .source 1 2 (· / 10)⟩, .many 0 fun sum children => sum + children.sum⟩]
  key := id
  construct := List.cons

/-- Later calls are answered sooner. -/
def hasty : System Nat Nat where
  stores := .ofList .fresh [.fresh, .freshBounded 1]
  sources := .ofList default [
    { reply := fun n _ => ⟨20 - 5 * n, [10, 20, 11].map Except.ok⟩ },
    { reply := fun n _ => ⟨n, [21, 12, 22].map Except.ok⟩ }]

/-- What the sources know of an id. -/
def tensOf (path : Path Nat Nat) (id : Nat) : List Nat :=
  (if path.lock = 0 then [10, 20, 11] else [21, 12, 22]).filter fun child => child / 10 = id

theorem sturdy_hasty : Sturdy tensOf tens.paths hasty := by
  have hinj : Function.Injective (Except.ok : Nat → Except String Nat) :=
    fun a b h => Except.ok.inj h
  have hall : ∀ {P : Path Nat Nat → Prop}, P ⟨0, [⟨[.observed ⟨1, "outer", [.get]⟩], 0⟩, ⟨[], 1⟩],
      .source 0 2 (· / 10)⟩ → P ⟨1, [], .source 1 2 (· / 10)⟩ →
      ∀ path ∈ tens.paths, P path := by
    intro P hfirst hsecond path hp
    obtain rfl | rfl : path = _ ∨ path = _ := by
      simpa [tens, Assembler.paths] using hp
    · exact hfirst
    · exact hsecond
  have hdelivered : ∀ {xs delivered : List Nat}, xs.map (Except.ok : Nat → Except String Nat)
      = delivered.map Except.ok → xs = delivered := fun h => List.map_injective_iff.2 hinj h
  refine ⟨hall ?_ ?_, hall (hall ?_ ?_) (hall ?_ ?_), hall ⟨?_, ?_⟩ ⟨?_, ?_⟩, hall ?_ ?_, hall ?_ ?_⟩
  · simp [Path.Unfed, Layer.feeds]
  · simp [Path.Unfed]
  · exact fun _ _ _ _ _ => rfl
  · simp
  · simp
  · simp
  · intro layer hl id found hf
    obtain rfl | rfl : layer = _ ∨ layer = _ := by simpa using hl
    · cases hf
    · cases hf
  · intro n ids delivered _ hitems id _
    rw [← hdelivered hitems]
    rfl
  · simp
  · intro n ids delivered _ hitems id _
    rw [← hdelivered hitems]
    rfl
  · intro layer hl call n
    obtain rfl | rfl : layer = _ ∨ layer = _ := by simpa using hl
    · rfl
    · rfl
  · simp
  · exact fun n ids _ => ⟨_, rfl⟩
  · exact fun n ids _ => ⟨_, rfl⟩

theorem delivers_two_at_a_time : ∃ fuel,
    (ofParents ⟨2⟩ ⟨2, default⟩ [(0, 1), (0, 2), (3, 1), (3, 2), (9, 3)] (some 12)).exhaust tens fuel
      hasty = ([.ok [1, 10, 12], .ok [2, 20, 43], .ok [1, 10, 12], .ok [2, 20, 43],
        .ok [3, 0, 0]], true) := by
  obtain ⟨more, hmore, _, fuel, hfuel⟩ := (delivers sturdy_hasty (fun _ _ => rfl) ⟨2⟩
    ⟨2, default⟩ [(0, 1), (0, 2), (3, 1), (3, 2), (9, 3)] (some 12)).2 [] _ hasty .begins
  rw [List.nil_append] at hmore
  exact ⟨fuel, by rw [hfuel, hmore]; rfl⟩

end Assembly

end Collate
