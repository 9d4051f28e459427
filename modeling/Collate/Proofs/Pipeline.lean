/-
A pipeline hands out what its windows come to, in order.

Nothing is assumed of a pipeline's surroundings but what a view of them says: that taking a window
and working on it change neither what is to come nor what the works will come to, and that every go
makes things fewer. Then no limit, no order in which the works go on and no bound on goes and rounds
matters. What is handed out, held back, under way and to come is, put together, always the same list
without what was handed out; and a pipeline that hands out nothing has come nearer to its end, or
nothing can go on before something happens outside.
-/
import Mathlib.Algebra.GroupWithZero.Nat
import Mathlib.Data.Prod.Lex
import Collate.Pipeline

set_option autoImplicit false

namespace Collate

variable {ω τ ε γ σ W : Type}

/-! ## 1. Views of the surroundings -/

/-- What can be said of works and the state they share. -/
structure View (τ γ σ W : Type) where
  /-- Works and state fit together. -/
  sound : List τ → σ → Prop
  /-- What a work will come to. -/
  value : τ → List γ
  /-- What the windows still to be taken will come to. -/
  rest : σ → List γ
  /-- How much there is to do. -/
  cost : List τ → σ → Nat
  /-- How much is to be waited for, and who is called. -/
  watch : List τ → σ → W
  /-- The input has nothing before something happens outside. -/
  dry : σ → Prop
  /-- The input ends at some time. -/
  ends : Prop

/-- The first of the two counts for more. -/
def View.outlook (view : View τ γ σ W) (works : List τ) (s : σ) : Nat ×ₗ W :=
  toLex (view.cost works s, view.watch works s)

/-- The surroundings are as a view says. -/
structure Surroundings.Lawful [Preorder W] (around : Surroundings ω τ ε γ σ)
    (view : View τ γ σ W) : Prop where
  item : ∀ {works s window s'}, view.sound works s → around.pull s = (.item window, s') →
    ∃ work s'', around.launch window s' = (work, s'') ∧ view.sound (works ++ [work]) s''
      ∧ view.value work ++ view.rest s'' = view.rest s ∧ view.value work ≠ []
      ∧ view.cost (works ++ [work]) s'' < view.cost works s
  ended : ∀ {works s s'}, view.sound works s → around.pull s = (.ended, s') →
    view.sound works s' ∧ view.rest s = [] ∧ view.rest s' = [] ∧ view.ends
      ∧ view.outlook works s' ≤ view.outlook works s
  pending : ∀ {works s s'}, view.sound works s → around.pull s = (.pending, s') →
    view.sound works s' ∧ view.rest s' = view.rest s
      ∧ view.outlook works s' ≤ view.outlook works s ∧ view.dry s'
  idle : ∀ {works s s'}, view.sound works s → around.next works s = (none, s') → s' = s
  goes : ∀ {works s n s'}, view.sound works s → around.next works s = (some n, s') →
    ∃ before work behind, works = before ++ work :: behind ∧ before.length = n
      ∧ ((∃ work' s'', around.advance work s' = (.waiting work', s'')
          ∧ view.sound (before ++ work' :: behind) s'' ∧ view.value work' = view.value work
          ∧ view.rest s'' = view.rest s
          ∧ view.outlook (before ++ work' :: behind) s'' < view.outlook works s)
        ∨ ∃ s'', around.advance work s' = (.finished (.ok (view.value work)), s'')
          ∧ view.sound (before ++ behind) s'' ∧ view.rest s'' = view.rest s
          ∧ view.cost (before ++ behind) s'' + 2 ≤ view.cost works s)

namespace Pipeline

/-! ## 2. Flights -/

@[simp] theorem works_append (xs ys : List (Flight τ ε γ)) :
    works (xs ++ ys) = works xs ++ works ys := by
  induction xs with
  | nil => rfl
  | cons x rest ih =>
    cases x with
    | running work => simp only [List.cons_append, works, ih]
    | landed result => simp only [List.cons_append, works, ih]

/-- A work has its place among the flights. -/
theorem exists_flight {flights : List (Flight τ ε γ)} {before behind : List τ} {work : τ}
    (h : works flights = before ++ work :: behind) :
    ∃ fore aft, flights = fore ++ .running work :: aft ∧ works fore = before
      ∧ works aft = behind := by
  induction flights generalizing before with
  | nil =>
    have hlen := congrArg List.length h
    simp [works] at hlen
  | cons flight rest ih =>
    cases flight with
    | landed result =>
      obtain ⟨fore, aft, rfl, hfore, haft⟩ := ih h
      exact ⟨.landed result :: fore, aft, rfl, hfore, haft⟩
    | running first =>
      cases before with
      | nil =>
        obtain ⟨rfl, hrest⟩ := List.cons.inj h
        exact ⟨[], rest, rfl, rfl, hrest⟩
      | cons x before =>
        obtain ⟨rfl, hrest⟩ := List.cons.inj h
        obtain ⟨fore, aft, rfl, hfore, haft⟩ := ih hrest
        exact ⟨.running first :: fore, aft, rfl, congrArg _ hfore, haft⟩

theorem advanceNth_eq (around : Surroundings ω τ ε γ σ) (fore aft : List (Flight τ ε γ)) (work : τ)
    (s : σ) :
    advanceNth around (works fore).length (fore ++ .running work :: aft) s
      = match around.advance work s with
        | (.waiting work', s') => (false, fore ++ .running work' :: aft, s')
        | (.finished result, s') => (true, fore ++ .landed result :: aft, s') := by
  induction fore with
  | nil =>
    rcases hrun : around.advance work s with ⟨_ | _, s'⟩ <;>
      simp only [works, List.length_nil, List.nil_append, advanceNth, hrun]
  | cons flight rest ih =>
    cases flight with
    | running first =>
      rcases hrun : around.advance work s with ⟨_ | _, s'⟩ <;>
        simp only [works, List.length_cons, List.cons_append, advanceNth, ih, hrun]
    | landed result =>
      -- A window that is done has no place among the works.
      have hskip : ∀ n, advanceNth around n (.landed result :: (rest ++ .running work :: aft)) s
          = ((advanceNth around n (rest ++ .running work :: aft) s).1,
            .landed result :: (advanceNth around n (rest ++ .running work :: aft) s).2.1,
            (advanceNth around n (rest ++ .running work :: aft) s).2.2) := by
        intro n
        cases n <;> rfl
      rcases hrun : around.advance work s with ⟨_ | _, s'⟩ <;>
        simp only [works, List.cons_append, hskip, ih, hrun]

/-- How many windows are done and held back. -/
def landings : List (Flight τ ε γ) → Nat
  | [] => 0
  | .running _ :: rest => landings rest
  | .landed _ :: rest => landings rest + 1

@[simp] theorem landings_append (xs ys : List (Flight τ ε γ)) :
    landings (xs ++ ys) = landings xs + landings ys := by
  induction xs with
  | nil => simp [landings]
  | cons x rest ih =>
    cases x with
    | running work => simp only [List.cons_append, landings, ih]
    | landed result =>
      simp only [List.cons_append, landings, ih]
      omega

/-- What the windows under way come to, or have come to. -/
def yields (view : View τ γ σ W) : List (Flight τ ε γ) → List γ
  | [] => []
  | .running work :: rest => view.value work ++ yields view rest
  | .landed (.ok aggregates) :: rest => aggregates ++ yields view rest
  | .landed (.error _) :: rest => yields view rest

@[simp] theorem yields_append (view : View τ γ σ W) (xs ys : List (Flight τ ε γ)) :
    yields view (xs ++ ys) = yields view xs ++ yields view ys := by
  induction xs with
  | nil => rfl
  | cons x rest ih =>
    rcases x with work | (e | aggregates) <;>
      simp only [List.cons_append, yields, ih, List.append_assoc]

/-- The works fit the state, and no window has failed. -/
structure Afloat (view : View τ γ σ W) (flights : List (Flight τ ε γ)) (s : σ) : Prop where
  sound : view.sound (works flights) s
  unfailing : ∀ e, .landed (.error e) ∉ flights

/-- How much is left of all windows that were taken. -/
def outlook (view : View τ γ σ W) (flights : List (Flight τ ε γ)) (s : σ) : Nat ×ₗ W :=
  toLex (view.cost (works flights) s + landings flights, view.watch (works flights) s)

theorem outlook_lt [Preorder W] {view : View τ γ σ W} {flights flights' : List (Flight τ ε γ)}
    {s s' : σ} (h : view.outlook (works flights') s' < view.outlook (works flights) s)
    (hl : landings flights' = landings flights) :
    outlook view flights' s' < outlook view flights s := by
  rw [View.outlook, View.outlook, Prod.Lex.toLex_lt_toLex] at h
  rw [outlook, outlook, Prod.Lex.toLex_lt_toLex, hl]
  rcases h with hcost | ⟨hcost, hwatch⟩
  · exact Or.inl (Nat.add_lt_add_right hcost _)
  · exact Or.inr ⟨congrArg (· + landings flights) hcost, hwatch⟩

theorem outlook_lt_of_cost [Preorder W] {view : View τ γ σ W}
    {flights flights' : List (Flight τ ε γ)} {s s' : σ}
    (h : view.cost (works flights') s' + landings flights'
      < view.cost (works flights) s + landings flights) :
    outlook view flights' s' < outlook view flights s := by
  rw [outlook, outlook, Prod.Lex.toLex_lt_toLex]
  exact Or.inl h

theorem outlook_le [Preorder W] {view : View τ γ σ W} {flights : List (Flight τ ε γ)} {s s' : σ}
    (h : view.outlook (works flights) s' ≤ view.outlook (works flights) s) :
    outlook view flights s' ≤ outlook view flights s := by
  rw [View.outlook, View.outlook, Prod.Lex.toLex_le_toLex] at h
  rw [outlook, outlook, Prod.Lex.toLex_le_toLex]
  rcases h with hcost | ⟨hcost, hwatch⟩
  · exact Or.inl (Nat.add_lt_add_right hcost _)
  · exact Or.inr ⟨congrArg (· + landings flights) hcost, hwatch⟩

/-! ## 3. Letting windows go on -/

section Going

variable [Preorder W] {around : Surroundings ω τ ε γ σ} {view : View τ γ σ W}
  {flights : List (Flight τ ε γ)} {s : σ}

/-- No work can go on. -/
def Quiet (around : Surroundings ω τ ε γ σ) (flights : List (Flight τ ε γ)) (s : σ) : Prop :=
  (around.next (works flights) s).1 = none

/-- What stays the same when windows go on: what they come to, and what is to come. -/
structure Gone (view : View τ γ σ W) (flights : List (Flight τ ε γ)) (s : σ)
    (flights' : List (Flight τ ε γ)) (s' : σ) : Prop where
  afloat : Afloat view flights' s'
  yields : yields view flights' = yields view flights
  rest : view.rest s' = view.rest s
  length : flights'.length = flights.length

omit [Preorder W] in
theorem Gone.refl (h : Afloat view flights s) : Gone view flights s flights s := ⟨h, rfl, rfl, rfl⟩

omit [Preorder W] in
theorem Gone.trans {flights₁ flights₂ : List (Flight τ ε γ)} {s₁ s₂ : σ}
    (h : Gone view flights s flights₁ s₁) (h' : Gone view flights₁ s₁ flights₂ s₂) :
    Gone view flights s flights₂ s₂ :=
  ⟨h'.afloat, h'.yields.trans h.yields, h'.rest.trans h.rest, h'.length.trans h.length⟩

/-- **One go** leaves less to be done. -/
theorem go (h : around.Lawful view) (ha : Afloat view flights s) {n : Nat} {s₁ : σ}
    (hn : around.next (works flights) s = (some n, s₁)) :
    ∃ done flights' s', advanceNth around n flights s₁ = (done, flights', s')
      ∧ Gone view flights s flights' s' ∧ outlook view flights' s' < outlook view flights s := by
  obtain ⟨before, work, behind, hworks, rfl, hgo⟩ := h.goes ha.sound hn
  obtain ⟨fore, aft, rfl, rfl, rfl⟩ := exists_flight hworks
  have hadvance := advanceNth_eq around fore aft work s₁
  have hfine : ∀ (flight : Flight τ ε γ), (∀ e, flight ≠ .landed (.error e)) →
      ∀ e, .landed (.error e) ∉ fore ++ flight :: aft := by
    intro flight hflight e hm
    have hnot := ha.unfailing e
    simp only [List.mem_append, List.mem_cons, not_or] at hnot hm
    rcases hm with hm | hm | hm
    · exact hnot.1 hm
    · exact hflight e hm.symm
    · exact hnot.2.2 hm
  rcases hgo with ⟨work', s', hrun, hsound, hvalue, hrest, hless⟩ |
    ⟨s', hrun, hsound, hrest, hless⟩
  · rw [hrun] at hadvance
    refine ⟨false, _, s', hadvance, ⟨⟨?_, hfine _ (by simp)⟩, ?_, hrest, by simp⟩, ?_⟩
    · rw [works_append]
      exact hsound
    · simp only [yields_append, yields, hvalue]
    · refine outlook_lt ?_ (by simp [landings])
      simp only [works_append, works] at hless ⊢
      exact hless
  · rw [hrun] at hadvance
    refine ⟨true, _, s', hadvance, ⟨⟨?_, hfine _ (by simp)⟩, ?_, hrest, by simp⟩, ?_⟩
    · rw [works_append]
      exact hsound
    · simp only [yields_append, yields]
    · refine outlook_lt_of_cost ?_
      simp only [works_append, landings_append, works, landings] at hless ⊢
      omega

/-- A sweep leaves less to be done, or it finds that no window can go on. -/
theorem sweep_gone (h : around.Lawful view) (goes : Nat) (ha : Afloat view flights s) :
    ∃ done flights' s', sweep around goes flights s = (done, flights', s')
      ∧ Gone view flights s flights' s'
      ∧ (outlook view flights' s' < outlook view flights s
        ∨ (done = false ∧ flights' = flights ∧ s' = s) ∧ (goes = 0 ∨ Quiet around flights s)) := by
  induction goes generalizing flights s with
  | zero => exact ⟨false, flights, s, rfl, .refl ha, Or.inr ⟨⟨rfl, rfl, rfl⟩, Or.inl rfl⟩⟩
  | succ goes ih =>
    rcases hnext : around.next (works flights) s with ⟨_ | n, s₁⟩
    · obtain rfl := h.idle ha.sound hnext
      refine ⟨false, flights, s₁, by simp only [sweep, hnext], .refl ha,
        Or.inr ⟨⟨rfl, rfl, rfl⟩, Or.inr ?_⟩⟩
      rw [Quiet, hnext]
    · obtain ⟨done, flights₂, s₂, hadvance, hgone, hless⟩ := go h ha hnext
      cases done with
      | true =>
        exact ⟨true, flights₂, s₂, by simp only [sweep, hnext, hadvance], hgone, Or.inl hless⟩
      | false =>
        obtain ⟨done, flights₃, s₃, hsweep, hgone', hend⟩ := ih hgone.afloat
        refine ⟨done, flights₃, s₃, by simp only [sweep, hnext, hadvance, hsweep],
          hgone.trans hgone', Or.inl ?_⟩
        rcases hend with hless' | ⟨⟨_, rfl, rfl⟩, _⟩
        · exact lt_trans hless' hless
        · exact hless

/-- A drive leaves less to be done, or it does nothing: no window is under way, the first of them is
done, or none can go on. -/
theorem drive_gone (h : around.Lawful view) (sweeps : Nat) (ha : Afloat view flights s) :
    ∃ flights' s', drive around sweeps flights s = (flights', s')
      ∧ Gone view flights s flights' s'
      ∧ (outlook view flights' s' < outlook view flights s
        ∨ (flights' = flights ∧ s' = s) ∧ (sweeps = 0 ∨
          ∀ work rest, flights = .running work :: rest → Quiet around flights s)) := by
  induction sweeps generalizing flights s with
  | zero => exact ⟨flights, s, rfl, .refl ha, Or.inr ⟨⟨rfl, rfl⟩, Or.inl rfl⟩⟩
  | succ sweeps ih =>
    rcases flights with _ | ⟨work | result, rest⟩
    · refine ⟨[], s, rfl, .refl ha, Or.inr ⟨⟨rfl, rfl⟩, Or.inr ?_⟩⟩
      intro work rest hcons
      cases hcons
    · obtain ⟨done, flights₁, s₁, hsweep, hgone, hend⟩ :=
        sweep_gone h (works (.running work :: rest)).length ha
      cases done with
      | false =>
        refine ⟨flights₁, s₁, by simp only [drive, hsweep], hgone, ?_⟩
        rcases hend with hless | ⟨⟨_, rfl, rfl⟩, hzero | hquiet⟩
        · exact Or.inl hless
        · cases hzero
        · exact Or.inr ⟨⟨rfl, rfl⟩, Or.inr fun _ _ _ => hquiet⟩
      | true =>
        obtain ⟨flights₂, s₂, hdrive, hgone', hend'⟩ := ih hgone.afloat
        refine ⟨flights₂, s₂, by simp only [drive, hsweep, hdrive], hgone.trans hgone', Or.inl ?_⟩
        rcases hend with hless | ⟨⟨hdone, _⟩, _⟩
        · rcases hend' with hless' | ⟨⟨rfl, rfl⟩, _⟩
          · exact lt_trans hless' hless
          · exact hless
        · cases hdone
    · refine ⟨.landed result :: rest, s, rfl, .refl ha, Or.inr ⟨⟨rfl, rfl⟩, Or.inr ?_⟩⟩
      intro work rest' hcons
      cases hcons

end Going

/-! ## 4. Rounds -/

section Rounds

variable [Preorder W] {around : Surroundings ω τ ε γ σ} {view : View τ γ σ W}
  {p : Pipeline τ ε γ} {s : σ}

/-- All that is not handed out yet. -/
def content (view : View τ γ σ W) (p : Pipeline τ ε γ) (s : σ) : List γ :=
  p.outputs ++ (yields view p.inFlight ++ view.rest s)

/-- There is room for a window, the works fit the state, and an input that ended has nothing. -/
structure Sound (view : View τ γ σ W) (p : Pipeline τ ε γ) (s : σ) : Prop where
  limit : 0 < p.limit
  afloat : Afloat view p.inFlight s
  ended : p.inputEnded = true → view.rest s = [] ∧ view.ends

/-- There is nothing to hand out: the first window is under way, or there is none and the input has
nothing now. -/
structure Parked (view : View τ γ σ W) (p : Pipeline τ ε γ) (s : σ) : Prop where
  outputs : p.outputs = []
  dry : p.inFlight = [] → view.dry s
  first : ∀ flight rest, p.inFlight = flight :: rest → ∃ work, flight = .running work

/-- The pipeline and the state after windows were taken. -/
structure Refilled (view : View τ γ σ W) (room : Nat) (p : Pipeline τ ε γ) (s : σ)
    (p' : Pipeline τ ε γ) (s' : σ) : Prop where
  sound : Sound view p' s'
  content : content view p' s' = content view p s
  length : p'.inFlight.length + (view.rest s').length ≤ p.inFlight.length + (view.rest s).length
  further : outlook view p'.inFlight s' ≤ outlook view p.inFlight s
  dry : p'.inFlight = [] →
    p.inFlight = [] ∧ (room = 0 ∨ p'.inputEnded = true ∨ view.dry s')

/-- A window that is taken up owes what it took from the input. -/
theorem launch_taken (h : around.Lawful view) (hp : Sound view p s) (hgoing : p.inputEnded = false)
    {window : ω} {s₁ : σ} (hpull : around.pull s = (.item window, s₁)) :
    ∃ work s', around.launch window s₁ = (work, s')
      ∧ Sound view { p with inFlight := p.inFlight ++ [.running work] } s'
      ∧ content view { p with inFlight := p.inFlight ++ [.running work] } s' = content view p s
      ∧ (p.inFlight ++ [Flight.running work]).length + (view.rest s').length
        ≤ p.inFlight.length + (view.rest s).length
      ∧ outlook view (p.inFlight ++ [.running work]) s' < outlook view p.inFlight s := by
  obtain ⟨work, s', hlaunch, hsound, hvalue, hne, hless⟩ := h.item hp.afloat.sound hpull
  refine ⟨work, s', hlaunch, ⟨hp.limit, ⟨?_, fun e hm => ?_⟩, fun he => ?_⟩, ?_, ?_,
    outlook_lt_of_cost ?_⟩
  · show view.sound (works (p.inFlight ++ [.running work])) s'
    rw [works_append]
    exact hsound
  · rcases List.mem_append.1 hm with hm | hm
    · exact hp.afloat.unfailing e hm
    · cases List.mem_singleton.1 hm
  · rw [hgoing] at he
    cases he
  · show p.outputs ++ (yields view (p.inFlight ++ [.running work]) ++ view.rest s') = _
    rw [yields_append, content, ← hvalue]
    simp only [yields, List.append_nil, List.append_assoc]
  · have hpos := List.length_pos_iff.2 hne
    have hsum := congrArg List.length hvalue
    rw [List.length_append] at hsum ⊢
    rw [List.length_singleton]
    omega
  · rw [works_append, landings_append]
    exact Nat.add_lt_add_right hless _

theorem refill_refilled (h : around.Lawful view) (room : Nat) (hp : Sound view p s) :
    ∃ p' s', refill around room p s = (p', s') ∧ Refilled view room p s p' s' := by
  induction room generalizing p s with
  | zero =>
    exact ⟨p, s, rfl, hp, rfl, le_refl _, le_refl _, fun hn => ⟨hn, Or.inl rfl⟩⟩
  | succ room ih =>
    by_cases hended : p.inputEnded = true
    · refine ⟨p, s, by simp only [refill, hended, if_true], hp, rfl, le_refl _, le_refl _,
        fun hn => ⟨hn, Or.inr (Or.inl hended)⟩⟩
    · have hgoing : p.inputEnded = false := Bool.eq_false_iff.2 hended
      rcases hpull : around.pull s with ⟨window | _ | _, s₁⟩
      · obtain ⟨work, s₂, hlaunch, hsound, hcontent, hlength, hless⟩ :=
          launch_taken h hp hgoing hpull
        obtain ⟨p', s', hrefill, hr⟩ := ih hsound
        refine ⟨p', s', ?_, hr.sound, hr.content.trans hcontent, le_trans hr.length hlength,
          le_trans hr.further (le_of_lt hless), fun hn => ?_⟩
        · rw [refill, if_neg hended, hpull]
          simp only [hlaunch]
          exact hrefill
        · have hnil : p.inFlight ++ [.running work] = [] := (hr.dry hn).1
          simp at hnil
      · obtain ⟨hsound, hrest, hrest', hends, hfurther⟩ := h.ended hp.afloat.sound hpull
        refine ⟨{ p with inputEnded := true }, s₁, by simp [refill, hgoing, hpull],
          ⟨hp.limit, ⟨hsound, hp.afloat.unfailing⟩, fun _ => ⟨hrest', hends⟩⟩, ?_, ?_,
          outlook_le hfurther, fun hn => ⟨hn, Or.inr (Or.inl rfl)⟩⟩
        · rw [content, content, hrest, hrest']
        · rw [hrest, hrest']
      · obtain ⟨hsound, hrest, hfurther, hdry⟩ := h.pending hp.afloat.sound hpull
        refine ⟨p, s₁, by simp [refill, hgoing, hpull],
          ⟨hp.limit, ⟨hsound, hp.afloat.unfailing⟩, fun he => absurd he hended⟩, ?_, ?_,
          outlook_le hfurther, fun hn => ⟨hn, Or.inr (Or.inr hdry)⟩⟩
        · rw [content, content, hrest]
        · rw [hrest]

/-- What a pipeline may answer, and how it stands then. -/
inductive Answered (around : Surroundings ω τ ε γ σ) (view : View τ γ σ W) (p : Pipeline τ ε γ)
    (s : σ) : Pull (Except ε γ) → Pipeline τ ε γ → σ → Prop where
  /-- It hands out what comes next. -/
  | item {x : γ} {p' : Pipeline τ ε γ} {s' : σ} (hp : Sound view p' s')
      (hc : content view p s = x :: content view p' s') :
      Answered around view p s (.item (.ok x)) p' s'
  /-- There is nothing left. -/
  | ended {p' : Pipeline τ ε γ} {s' : σ} (hc : content view p s = []) (he : view.ends) :
      Answered around view p s .ended p' s'
  /-- There is nothing to hand out; it has come nearer to its end, or no window can go on. -/
  | pending {p' : Pipeline τ ε γ} {s' : σ} (hp : Sound view p' s')
      (hc : content view p' s' = content view p s) (hparked : Parked view p' s')
      (hn : outlook view p'.inFlight s' < outlook view p.inFlight s
        ∨ outlook view p'.inFlight s' ≤ outlook view p.inFlight s
          ∧ (p'.inFlight = [] ∨ Quiet around p'.inFlight s')) :
      Answered around view p s .pending p' s'

/-- The pipeline and the state after windows were taken and let go on: what is still owed is the same,
and a first window that is not done has brought the end nearer or none can go on. -/
structure Driven (around : Surroundings ω τ ε γ σ) (view : View τ γ σ W) (p : Pipeline τ ε γ) (s : σ)
    (p' : Pipeline τ ε γ) (s' : σ) : Prop where
  sound : Sound view p' s'
  outputs : p'.outputs = []
  content : content view p' s' = content view p s
  length : p'.inFlight.length + (view.rest s').length ≤ p.inFlight.length + (view.rest s).length
  further : outlook view p'.inFlight s' ≤ outlook view p.inFlight s
  dry : p'.inFlight = [] → p'.inputEnded = true ∨ view.dry s'
  quiet : ∀ work rest, p'.inFlight = .running work :: rest →
    outlook view p'.inFlight s' < outlook view p.inFlight s ∨ Quiet around p'.inFlight s'

theorem drive_driven (h : around.Lawful view) (hp : Sound view p s) {p₁ : Pipeline τ ε γ} {s₁ : σ}
    (hr : Refilled view (p.limit - p.inFlight.length) p s p₁ s₁) (hout : p₁.outputs = []) :
    ∃ flights s', drive around (p₁.inFlight.length + 1) p₁.inFlight s₁ = (flights, s')
      ∧ Driven around view p s { p₁ with inFlight := flights } s' := by
  obtain ⟨flights, s₂, hdrive, hgone, hend⟩ :=
    drive_gone h (p₁.inFlight.length + 1) hr.sound.afloat
  refine ⟨flights, s₂, hdrive, ⟨hr.sound.limit, hgone.afloat, ?_⟩, hout, ?_, ?_, ?_, ?_, ?_⟩
  · rw [hgone.rest]
    exact hr.sound.ended
  · rw [← hr.content]
    show p₁.outputs ++ _ = p₁.outputs ++ _
    rw [hgone.yields, hgone.rest]
  · show flights.length + _ ≤ _
    rw [hgone.length, hgone.rest]
    exact hr.length
  · rcases hend with hlt | ⟨⟨rfl, rfl⟩, _⟩
    · exact le_trans (le_of_lt hlt) hr.further
    · exact hr.further
  · -- No window is under way, so none was before, and there was room to take one.
    rintro rfl
    have hnone : p₁.inFlight = [] := List.eq_nil_of_length_eq_zero hgone.length.symm
    rw [hnone] at hdrive
    obtain rfl : s₁ = s₂ := (Prod.mk.inj hdrive).2
    obtain ⟨hbefore, hinput⟩ := hr.dry hnone
    refine hinput.resolve_left ?_
    have hlimit := hp.limit
    rw [hbefore, List.length_nil]
    omega
  · rintro work rest rfl
    rcases hend with hlt | ⟨⟨hflights, rfl⟩, hzero | hquiet⟩
    · exact Or.inl (lt_of_lt_of_le hlt hr.further)
    · cases hzero
    · have hq := hquiet work rest hflights.symm
      rw [← hflights] at hq
      exact Or.inr hq

/-- **One round** gives an answer, or brings the pipeline nearer to its end. -/
theorem round_answered (h : around.Lawful view) (hp : Sound view p s) :
    ∃ answer p' s', round around p s = (answer, p', s')
      ∧ ((∃ given, answer = some given ∧ Answered around view p s given p' s')
        ∨ answer = none ∧ Sound view p' s' ∧ content view p' s' = content view p s
          ∧ p'.inFlight.length + (view.rest s').length
            < p.inFlight.length + (view.rest s).length
          ∧ outlook view p'.inFlight s' < outlook view p.inFlight s) := by
  obtain ⟨p₁, s₁, hrefill, hrefilled⟩ :=
    refill_refilled h (p.limit - p.inFlight.length) hp
  rcases hout : p₁.outputs with _ | ⟨aggregate, rest⟩
  · obtain ⟨flights, s₂, hdrive, hdriven⟩ := drive_driven h hp hrefilled hout
    rcases flights with _ | ⟨work | e | aggregates, others⟩
    · by_cases he : p₁.inputEnded = true
      · refine ⟨some .ended, { p₁ with inFlight := [] }, s₂, ?_,
          Or.inl ⟨.ended, rfl, .ended ?_ (hdriven.sound.ended he).2⟩⟩
        · simp [round, hrefill, hout, hdrive, he]
        · rw [← hdriven.content, content, hdriven.outputs, (hdriven.sound.ended he).1]
          rfl
      · refine ⟨some .pending, { p₁ with inFlight := [] }, s₂, ?_,
          Or.inl ⟨.pending, rfl, .pending hdriven.sound hdriven.content
            ⟨hout, fun hn => (hdriven.dry hn).resolve_left he, fun flight rest hcons => ?_⟩
            (Or.inr ⟨hdriven.further, Or.inl rfl⟩)⟩⟩
        · simp [round, hrefill, hout, hdrive, he]
        · cases hcons
    · -- The first window is under way still.
      refine ⟨some .pending, { p₁ with inFlight := .running work :: others }, s₂, ?_,
        Or.inl ⟨.pending, rfl, .pending hdriven.sound hdriven.content
          ⟨hout, fun hn => ?_, fun flight rest hcons => ?_⟩ ?_⟩⟩
      · simp [round, hrefill, hout, hdrive]
      · cases hn
      · exact ⟨work, (List.cons.inj hcons).1.symm⟩
      · rcases hdriven.quiet work others rfl with hless | hquiet
        · exact Or.inl hless
        · exact Or.inr ⟨hdriven.further, Or.inr hquiet⟩
    · exact absurd (List.mem_cons_self ..) (hdriven.sound.afloat.unfailing e)
    · -- The first window is done.
      refine ⟨none, { p₁ with inFlight := others, outputs := aggregates }, s₂, ?_,
        Or.inr ⟨rfl, ⟨hdriven.sound.limit, ⟨hdriven.sound.afloat.sound, fun e hm => ?_⟩,
          hdriven.sound.ended⟩, ?_, ?_, ?_⟩⟩
      · simp [round, hrefill, hout, hdrive]
      · exact hdriven.sound.afloat.unfailing e (List.mem_cons_of_mem _ hm)
      · rw [← hdriven.content]
        simp only [content, hout, yields, List.nil_append, List.append_assoc]
      · exact lt_of_lt_of_le (Nat.add_lt_add_right (Nat.lt_succ_self _) _) hdriven.length
      · exact lt_of_lt_of_le (outlook_lt_of_cost (Nat.lt_succ_self _)) hdriven.further
  · refine ⟨some (.item (.ok aggregate)), { p₁ with outputs := rest }, s₁, ?_,
      Or.inl ⟨_, rfl,
        .item ⟨hrefilled.sound.limit, hrefilled.sound.afloat, hrefilled.sound.ended⟩ ?_⟩⟩
    · simp [round, hrefill, hout]
    · rw [← hrefilled.content, content, hout]
      rfl

/-- **Asking a pipeline.** It hands out what comes next, or it ends when there is nothing left, or it
has nothing to hand out now. No round is missing that another answer would need. -/
theorem poll_answered (h : around.Lawful view) {rounds : Nat} (hp : Sound view p s)
    (hrounds : p.inFlight.length + (view.rest s).length < rounds) :
    ∃ answer p' s', poll around rounds p s = (answer, p', s')
      ∧ Answered around view p s answer p' s' := by
  induction rounds generalizing p s with
  | zero => exact absurd hrounds (Nat.not_lt_zero _)
  | succ rounds ih =>
    obtain ⟨answer, p₁, s₁, hround, ⟨given, rfl, hgiven⟩ |
      ⟨rfl, hsound, hcontent, hlength, hless⟩⟩ := round_answered h hp
    · exact ⟨given, p₁, s₁, by rw [poll, hround], hgiven⟩
    · obtain ⟨answer, p', s', hpoll, hanswered⟩ := ih hsound (by omega)
      refine ⟨answer, p', s', by rw [poll, hround]; exact hpoll, ?_⟩
      cases hanswered with
      | item hp' hc => exact .item hp' (hcontent.symm.trans hc)
      | ended hc he => exact .ended (hcontent.symm.trans hc) he
      | pending hp' hc hparked hn =>
        refine .pending hp' (hc.trans hcontent) hparked (Or.inl ?_)
        rcases hn with hlt | ⟨hle, _⟩
        · exact lt_trans hlt hless
        · exact lt_of_le_of_lt hle hless

end Rounds

end Pipeline

end Collate
