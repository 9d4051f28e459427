/-
Windows keep their order, and a failure keeps to its window.

The input gives the windows of a queue, and each window comes to aggregates or to a failure. When a
window becomes available, which work goes on, how long it takes and what happens between two
questions is left open. Then the answers still owed, those of the aggregates at hand, of the windows
under way and of the windows in the queue read one after the other, are the same list before and after
every question, without what was handed out; so what is handed out is always a beginning of what the
windows come to, and the end is only answered when nothing is owed, and from then on always.

For the other half, that the end is reached, it is enough that nobody is put off for ever: whenever
the input or a work has nothing yet, a count goes down. Every question that is not answered makes the
count go down, or the windows still to be worked on become fewer.
-/
import Collate.Proofs.Pipeline

set_option autoImplicit false

namespace Collate

variable {ω τ ε γ σ : Type}

/-! ## 1. Windows and what they come to -/

/-- The answers of a window: one for each aggregate, or one failure. -/
def answersOf : Except ε (List γ) → List (Except ε γ)
  | .ok aggregates => aggregates.map .ok
  | .error e => [.error e]

/-- The windows of a queue come in, one after the other, and the work on a window ends with what the
window comes to. -/
structure Surroundings.Resolves (around : Surroundings ω τ ε γ σ) (outcome : ω → Except ε (List γ))
    (queue : σ → List ω) (origin : τ → ω) : Prop where
  item : ∀ {s window s'}, around.pull s = (.item window, s') → queue s = window :: queue s'
  ended : ∀ {s s'}, around.pull s = (.ended, s') → queue s = [] ∧ queue s' = []
  pending : ∀ {s s'}, around.pull s = (.pending, s') → queue s' = queue s
  launch : ∀ {window s work s'}, around.launch window s = (work, s') →
    origin work = window ∧ queue s' = queue s
  next : ∀ {works s place s'}, around.next works s = (place, s') → queue s' = queue s
  waiting : ∀ {work s work' s'}, around.advance work s = (.waiting work', s') →
    origin work' = origin work ∧ queue s' = queue s
  finished : ∀ {work s result s'}, around.advance work s = (.finished result, s') →
    result = outcome (origin work) ∧ queue s' = queue s

/-- Nobody is put off for ever: a count goes down whenever the input has nothing yet, no work can go
on, or a work has to wait. -/
structure Surroundings.Patient (around : Surroundings ω τ ε γ σ) (patience : List τ → σ → Nat) :
    Prop where
  ended : ∀ {works s s'}, around.pull s = (.ended, s') → patience works s' ≤ patience works s
  pending : ∀ {works s s'}, around.pull s = (.pending, s') → patience works s' < patience works s
  idle : ∀ {works s s'}, works ≠ [] → around.next works s = (none, s') →
    patience works s' < patience works s
  chosen : ∀ {works s n s'}, around.next works s = (some n, s') →
    n < works.length ∧ patience works s' ≤ patience works s
  waiting : ∀ before behind {work s work' s'}, around.advance work s = (.waiting work', s') →
    patience (before ++ work' :: behind) s' < patience (before ++ work :: behind) s

namespace Pipeline

variable {around : Surroundings ω τ ε γ σ} {outcome : ω → Except ε (List γ)} {queue : σ → List ω}
  {origin : τ → ω} {patience : List τ → σ → Nat} {flights flights' : List (Flight τ ε γ)} {s s' : σ}

/-- What a window under way leads to. -/
def flightAnswers (outcome : ω → Except ε (List γ)) (origin : τ → ω) :
    Flight τ ε γ → List (Except ε γ)
  | .running work => answersOf (outcome (origin work))
  | .landed result => answersOf result

/-- How much is to be done for the windows taken: how many are not done, and how long they are put
off. -/
def toDo (patience : List τ → σ → Nat) (flights : List (Flight τ ε γ)) (s : σ) : Nat ×ₗ Nat :=
  toLex ((works flights).length, patience (works flights) s)

/-! ## 2. Letting windows go on -/

/-- Going on changes neither what the windows taken lead to nor the queue, and there is no more to do
afterwards than before. -/
structure Kept (around : Surroundings ω τ ε γ σ) (outcome : ω → Except ε (List γ))
    (queue : σ → List ω) (origin : τ → ω) (patience : List τ → σ → Nat)
    (flights : List (Flight τ ε γ)) (s : σ) (flights' : List (Flight τ ε γ)) (s' : σ) : Prop where
  answers : flights'.flatMap (flightAnswers outcome origin)
    = flights.flatMap (flightAnswers outcome origin)
  queue : queue s' = queue s
  length : flights'.length = flights.length
  toDo : around.Patient patience → toDo patience flights' s' ≤ toDo patience flights s

theorem Kept.refl (flights : List (Flight τ ε γ)) (s : σ) :
    Kept around outcome queue origin patience flights s flights s :=
  ⟨rfl, rfl, rfl, fun _ => le_refl _⟩

theorem Kept.trans {flights₁ : List (Flight τ ε γ)} {s₁ : σ}
    (h : Kept around outcome queue origin patience flights s flights₁ s₁)
    (h' : Kept around outcome queue origin patience flights₁ s₁ flights' s') :
    Kept around outcome queue origin patience flights s flights' s' :=
  ⟨h'.answers.trans h.answers, h'.queue.trans h.queue, h'.length.trans h.length,
    fun hp => le_trans (h'.toDo hp) (h.toDo hp)⟩

theorem toDo_lt_of_works {patience : List τ → σ → Nat}
    (h : (works flights').length < (works flights).length) :
    toDo patience flights' s' < toDo patience flights s :=
  Prod.Lex.toLex_lt_toLex.2 (Or.inl h)

theorem toDo_lt_of_patience {patience : List τ → σ → Nat}
    (hw : (works flights').length = (works flights).length)
    (h : patience (works flights') s' < patience (works flights) s) :
    toDo patience flights' s' < toDo patience flights s :=
  Prod.Lex.toLex_lt_toLex.2 (Or.inr ⟨hw, h⟩)

/-- There is no place for a work beyond the last one, so nothing happens. -/
theorem advanceNth_beyond (around : Surroundings ω τ ε γ σ) {n : Nat}
    {flights : List (Flight τ ε γ)} (hn : (works flights).length ≤ n) (s : σ) :
    advanceNth around n flights s = (false, flights, s) := by
  induction flights generalizing n with
  | nil => rw [advanceNth]
  | cons flight rest ih =>
    cases flight with
    | running work =>
      rw [works, List.length_cons] at hn
      obtain ⟨n, rfl⟩ : ∃ m, n = m + 1 := ⟨n - 1, by omega⟩
      rw [advanceNth, ih (Nat.le_of_succ_le_succ hn)]
    | landed result =>
      rw [works] at hn
      cases n <;> rw [advanceNth, ih hn]

/-- **One go.** Whoever it is given to, the windows lead to the same, and unless one of them is done
as many go on as before; and there is less to do, if the go is given to one of them. -/
theorem go_kept (h : around.Resolves outcome queue origin) {n : Nat} {s₁ : σ}
    (hn : around.next (works flights) s = (some n, s₁)) :
    ∃ done flights' s', advanceNth around n flights s₁ = (done, flights', s')
      ∧ Kept around outcome queue origin patience flights s flights' s'
      ∧ (done = false → (works flights').length = (works flights).length)
      ∧ (around.Patient patience → toDo patience flights' s' < toDo patience flights s) := by
  have hqueue := h.next hn
  by_cases hplace : n < (works flights).length
  · obtain ⟨fore, aft, hflights, hbefore, hbehind⟩ :=
      exists_flight (show works flights
          = (works flights).take n ++ (works flights)[n] :: (works flights).drop (n + 1) by
        rw [List.getElem_cons_drop, List.take_append_drop])
    generalize (works flights)[n] = work at hflights
    subst hflights
    have hfore : (works fore).length = n := by
      rw [hbefore, List.length_take]
      omega
    have hadvance := advanceNth_eq around fore aft work s₁
    rw [hfore] at hadvance
    rcases hrun : around.advance work s₁ with ⟨work' | result, s'⟩
    · -- The work goes on, and has to wait.
      obtain ⟨horigin, hsame⟩ := h.waiting hrun
      rw [hrun] at hadvance
      have hless : around.Patient patience →
          toDo patience (fore ++ .running work' :: aft) s'
            < toDo patience (fore ++ .running work :: aft) s := by
        intro hp
        refine toDo_lt_of_patience (by simp [works]) ?_
        have hwaits := hp.waiting (works fore) (works aft) hrun
        have hchosen := (hp.chosen hn).2
        simp only [works_append, works] at hchosen ⊢
        exact lt_of_lt_of_le hwaits hchosen
      refine ⟨false, _, s', hadvance, ⟨?_, hsame.trans hqueue, by simp, fun hp => ?_⟩,
        fun _ => by simp [works], hless⟩
      · simp only [List.flatMap_append, List.flatMap_cons, flightAnswers, horigin]
      · exact le_of_lt (hless hp)
    · obtain ⟨hresult, hsame⟩ := h.finished hrun
      rw [hrun] at hadvance
      have hless : toDo patience (fore ++ .landed result :: aft) s'
          < toDo patience (fore ++ .running work :: aft) s := by
        refine toDo_lt_of_works ?_
        simp only [works_append, works, List.length_append, List.length_cons]
        omega
      refine ⟨true, _, s', hadvance, ⟨?_, hsame.trans hqueue, by simp, fun _ => ?_⟩,
        (fun hwaits => by cases hwaits), fun _ => hless⟩
      · simp only [List.flatMap_append, List.flatMap_cons, flightAnswers, hresult]
      · exact le_of_lt hless
  · have hbeyond := advanceNth_beyond around (Nat.le_of_not_lt hplace) s₁
    exact ⟨false, flights, s₁, hbeyond,
      ⟨rfl, hqueue, rfl, fun hp => absurd (hp.chosen hn).1 hplace⟩, fun _ => rfl,
      fun hp => absurd (hp.chosen hn).1 hplace⟩

variable (patience) in
/-- A sweep in which at least one go may be given leaves less to do. -/
theorem sweep_kept (h : around.Resolves outcome queue origin) (goes : Nat)
    (flights : List (Flight τ ε γ)) (s : σ) (hworks : works flights ≠ []) :
    ∃ done flights' s', sweep around goes flights s = (done, flights', s')
      ∧ Kept around outcome queue origin patience flights s flights' s'
      ∧ (around.Patient patience → goes ≠ 0 →
        toDo patience flights' s' < toDo patience flights s) := by
  induction goes generalizing flights s with
  | zero => exact ⟨false, flights, s, rfl, .refl flights s, fun _ hz => absurd rfl hz⟩
  | succ goes ih =>
    rcases hnext : around.next (works flights) s with ⟨_ | n, s₁⟩
    · have hless : around.Patient patience →
          toDo patience flights s₁ < toDo patience flights s :=
        fun hp => toDo_lt_of_patience rfl (hp.idle hworks hnext)
      exact ⟨false, flights, s₁, by rw [sweep, hnext],
        ⟨rfl, h.next hnext, rfl, fun hp => le_of_lt (hless hp)⟩, fun hp _ => hless hp⟩
    · obtain ⟨done, flights₂, s₂, hadvance, hkept, hsame, hless⟩ := go_kept h hnext
      cases done with
      | true =>
        exact ⟨true, flights₂, s₂, by simp only [sweep, hnext, hadvance], hkept,
          fun hp _ => hless hp⟩
      | false =>
        have hworks₂ : works flights₂ ≠ [] := by
          rw [← List.length_pos_iff, hsame rfl]
          exact List.length_pos_iff.2 hworks
        obtain ⟨done, flights₃, s₃, hsweep, hkept', _⟩ := ih flights₂ s₂ hworks₂
        exact ⟨done, flights₃, s₃, by simp only [sweep, hnext, hadvance, hsweep],
          hkept.trans hkept', fun hp _ => lt_of_le_of_lt (hkept'.toDo hp) (hless hp)⟩

variable (patience) in
/-- A drive leaves less to do, unless the first window is done already, or none is under way. -/
theorem drive_kept (h : around.Resolves outcome queue origin) {sweeps : Nat} (hsweeps : sweeps ≠ 0)
    (flights : List (Flight τ ε γ)) (s : σ) :
    ∃ flights' s', drive around sweeps flights s = (flights', s')
      ∧ Kept around outcome queue origin patience flights s flights' s'
      ∧ ∀ work rest, flights' = .running work :: rest → around.Patient patience →
        toDo patience flights' s' < toDo patience flights s := by
  induction sweeps generalizing flights s with
  | zero => exact absurd rfl hsweeps
  | succ sweeps ih =>
    rcases flights with _ | ⟨work | result, rest⟩
    · refine ⟨[], s, rfl, .refl [] s, fun work rest hcons => ?_⟩
      cases hcons
    · obtain ⟨done, flights₁, s₁, hsweep, hkept, hless⟩ :=
        sweep_kept patience h (works (.running work :: rest)).length
          (.running work :: rest) s (by simp [works])
      have hless' := fun hp => hless hp (by simp [works])
      cases done with
      | false =>
        exact ⟨flights₁, s₁, by simp only [drive, hsweep], hkept, fun _ _ _ => hless'⟩
      | true =>
        by_cases hzero : sweeps = 0
        · subst hzero
          exact ⟨flights₁, s₁, by simp only [drive, hsweep], hkept, fun _ _ _ => hless'⟩
        · obtain ⟨flights₂, s₂, hdrive, hkept', _⟩ := ih hzero flights₁ s₁
          exact ⟨flights₂, s₂, by simp only [drive, hsweep, hdrive], hkept.trans hkept',
            fun _ _ _ hp => lt_of_le_of_lt (hkept'.toDo hp) (hless' hp)⟩
    · refine ⟨.landed result :: rest, s, rfl, .refl _ s, fun work rest' hcons => ?_⟩
      cases hcons

/-! ## 3. Rounds -/

section Rounds

variable {p p' : Pipeline τ ε γ}

/-- The answers that are still to be given. -/
def due (outcome : ω → Except ε (List γ)) (queue : σ → List ω) (origin : τ → ω)
    (p : Pipeline τ ε γ) (s : σ) : List (Except ε γ) :=
  p.outputs.map .ok ++ (p.inFlight.flatMap (flightAnswers outcome origin)
    ++ (queue s).flatMap fun window => answersOf (outcome window))

/-- There is room for a window, and an input that has ended has nothing left. -/
structure Orderly (queue : σ → List ω) (p : Pipeline τ ε γ) (s : σ) : Prop where
  limit : 0 < p.limit
  ended : p.inputEnded = true → queue s = []

/-- How many windows may still be taken or be handed out. -/
def pieces (queue : σ → List ω) (p : Pipeline τ ε γ) (s : σ) : Nat :=
  p.inFlight.length + (queue s).length

/-- How much is to be done until nothing is put off any more. A window that is taken up counts for
less than one that is still to be taken. -/
def delay (queue : σ → List ω) (patience : List τ → σ → Nat) (p : Pipeline τ ε γ) (s : σ) :
    Nat ×ₗ Nat :=
  toLex (2 * (queue s).length + (works p.inFlight).length, patience (works p.inFlight) s)

theorem delay_le_of_toDo {patience : List τ → σ → Nat} (hq : queue s' = queue s)
    (h : toDo patience p'.inFlight s' ≤ toDo patience p.inFlight s) :
    delay queue patience p' s' ≤ delay queue patience p s := by
  rw [toDo, toDo, Prod.Lex.toLex_le_toLex] at h
  rw [delay, delay, Prod.Lex.toLex_le_toLex, hq]
  rcases h with h | ⟨h, hle⟩
  · exact Or.inl (Nat.add_lt_add_left h _)
  · exact Or.inr ⟨congrArg (2 * (queue s).length + ·) h, hle⟩

theorem delay_lt_of_toDo {patience : List τ → σ → Nat} (hq : queue s' = queue s)
    (h : toDo patience p'.inFlight s' < toDo patience p.inFlight s) :
    delay queue patience p' s' < delay queue patience p s := by
  rw [toDo, toDo, Prod.Lex.toLex_lt_toLex] at h
  rw [delay, delay, Prod.Lex.toLex_lt_toLex, hq]
  rcases h with h | ⟨h, hlt⟩
  · exact Or.inl (Nat.add_lt_add_left h _)
  · exact Or.inr ⟨congrArg (2 * (queue s).length + ·) h, hlt⟩

/-- What stays when the pipeline has taken windows and let them go on. -/
structure Turned (around : Surroundings ω τ ε γ σ) (outcome : ω → Except ε (List γ))
    (queue : σ → List ω) (origin : τ → ω) (patience : List τ → σ → Nat) (p : Pipeline τ ε γ) (s : σ)
    (p' : Pipeline τ ε γ) (s' : σ) : Prop where
  orderly : Orderly queue p' s'
  due : due outcome queue origin p' s' = due outcome queue origin p s
  pieces : pieces queue p' s' ≤ pieces queue p s
  delay : around.Patient patience → delay queue patience p' s' ≤ delay queue patience p s

theorem Turned.refl (h : Orderly queue p s) :
    Turned around outcome queue origin patience p s p s := ⟨h, rfl, le_refl _, fun _ => le_refl _⟩

theorem Turned.trans {p₁ : Pipeline τ ε γ} {s₁ : σ}
    (h : Turned around outcome queue origin patience p s p₁ s₁)
    (h' : Turned around outcome queue origin patience p₁ s₁ p' s') :
    Turned around outcome queue origin patience p s p' s' :=
  ⟨h'.orderly, h'.due.trans h.due, le_trans h'.pieces h.pieces,
    fun hp => le_trans (h'.delay hp) (h.delay hp)⟩

variable (patience) in
/-- A window that is taken owes what it owed in the queue, and there is less to do. -/
theorem launch_turned (h : around.Resolves outcome queue origin) (hp : Orderly queue p s)
    (hgoing : p.inputEnded = false) {window : ω} {s₁ : σ} (hpull : around.pull s = (.item window, s₁))
    {work : τ} {s₂ : σ} (hlaunch : around.launch window s₁ = (work, s₂)) :
    Turned around outcome queue origin patience p s
      { p with inFlight := p.inFlight ++ [.running work] } s₂
    ∧ delay queue patience { p with inFlight := p.inFlight ++ [.running work] } s₂
      < delay queue patience p s := by
  have htaken := h.item hpull
  obtain ⟨rfl, hsame⟩ := h.launch hlaunch
  have hless : delay queue patience { p with inFlight := p.inFlight ++ [.running work] } s₂
      < delay queue patience p s := by
    refine Prod.Lex.toLex_lt_toLex.2 (Or.inl ?_)
    rw [hsame, htaken, works_append, List.length_append, List.length_cons]
    simp only [works, List.length_singleton]
    omega
  refine ⟨⟨⟨hp.limit, fun he => ?_⟩, ?_, ?_, fun _ => le_of_lt hless⟩, hless⟩
  · rw [hgoing] at he
    cases he
  · rw [due, due, hsame, htaken]
    simp only [List.flatMap_append, List.flatMap_cons, List.flatMap_nil, flightAnswers,
      List.append_nil, List.append_assoc]
  · rw [pieces, pieces, hsame, htaken, List.length_append, List.length_singleton, List.length_cons]
    omega

variable (patience) in
/-- Windows are taken. Nothing else is changed, and if there was room, there is less to do or the
input has ended. -/
theorem refill_turned (h : around.Resolves outcome queue origin) (room : Nat)
    (hp : Orderly queue p s) :
    ∃ p' s', refill around room p s = (p', s')
      ∧ Turned around outcome queue origin patience p s p' s' ∧ p'.outputs = p.outputs
      ∧ p.inFlight <+: p'.inFlight
      ∧ (room ≠ 0 → p'.inputEnded = false → around.Patient patience →
        delay queue patience p' s' < delay queue patience p s) := by
  induction room generalizing p s with
  | zero => exact ⟨p, s, rfl, .refl hp, rfl, List.prefix_rfl, fun hz => absurd rfl hz⟩
  | succ room ih =>
    cases hended : p.inputEnded with
    | true =>
      refine ⟨p, s, by simp only [refill, hended, if_true], .refl hp, rfl, List.prefix_rfl,
        fun _ hgoing => ?_⟩
      rw [hended] at hgoing
      cases hgoing
    | false =>
      rcases hpull : around.pull s with ⟨window | _ | _, s₁⟩
      · rcases hlaunch : around.launch window s₁ with ⟨work, s₂⟩
        obtain ⟨hturned, hless⟩ :=
          launch_turned patience h hp hended hpull hlaunch
        obtain ⟨p', s', hrefill, hturned', houtputs, hprefix, _⟩ := ih hturned.orderly
        refine ⟨p', s', ?_, hturned.trans hturned', houtputs,
          (List.prefix_append ..).trans hprefix,
          fun _ _ hpatient => lt_of_le_of_lt (hturned'.delay hpatient) hless⟩
        rw [refill, if_neg (by rw [hended]; exact Bool.false_ne_true), hpull]
        simp only [hlaunch]
        exact hrefill
      · obtain ⟨hnone, hnone'⟩ := h.ended hpull
        refine ⟨{ p with inputEnded := true }, s₁, by simp [refill, hended, hpull],
          ⟨⟨hp.limit, fun _ => hnone'⟩, ?_, ?_, fun hpatient => ?_⟩, rfl, List.prefix_rfl,
          fun _ hgoing => by cases hgoing⟩
        · rw [due, due, hnone, hnone']
        · rw [pieces, pieces, hnone, hnone']
        · refine delay_le_of_toDo (hnone'.trans hnone.symm) ?_
          exact Prod.Lex.toLex_le_toLex.2 (Or.inr ⟨rfl, hpatient.ended hpull⟩)
      · have hsame := h.pending hpull
        have hless : around.Patient patience →
            delay queue patience p s₁ < delay queue patience p s := fun hpatient =>
          delay_lt_of_toDo hsame (toDo_lt_of_patience rfl (hpatient.pending hpull))
        refine ⟨p, s₁, by simp [refill, hended, hpull],
          ⟨⟨hp.limit, fun he => ?_⟩, ?_, ?_, fun hpatient => le_of_lt (hless hpatient)⟩, rfl,
          List.prefix_rfl, fun _ _ => hless⟩
        · rw [hended] at he
          cases he
        · rw [due, due, hsame]
        · rw [pieces, pieces, hsame]

/-- What a pipeline may answer, and how it stands then. -/
inductive Given (around : Surroundings ω τ ε γ σ) (outcome : ω → Except ε (List γ))
    (queue : σ → List ω) (origin : τ → ω) (patience : List τ → σ → Nat) (p : Pipeline τ ε γ) (s : σ) :
    Pull (Except ε γ) → Pipeline τ ε γ → σ → Prop where
  /-- It hands out what comes next. -/
  | item {x : Except ε γ} {p' : Pipeline τ ε γ} {s' : σ} (hp : Orderly queue p' s')
      (hdue : due outcome queue origin p s = x :: due outcome queue origin p' s') :
      Given around outcome queue origin patience p s (.item x) p' s'
  /-- Nothing is left. -/
  | ended {p' : Pipeline τ ε γ} {s' : σ} (hp : Orderly queue p' s')
      (hdue : due outcome queue origin p s = []) (hinput : p'.inputEnded = true)
      (hflights : p'.inFlight = []) (houtputs : p'.outputs = []) :
      Given around outcome queue origin patience p s .ended p' s'
  /-- There is nothing to hand out, and what has to be waited for is less. -/
  | pending {p' : Pipeline τ ε γ} {s' : σ} (hp : Orderly queue p' s')
      (hdue : due outcome queue origin p' s' = due outcome queue origin p s)
      (hless : around.Patient patience → delay queue patience p' s' < delay queue patience p s) :
      Given around outcome queue origin patience p s .pending p' s'

variable (patience) in
/-- **One round** gives an answer, or takes a window off that led to nothing yet. -/
theorem round_given (h : around.Resolves outcome queue origin) (hp : Orderly queue p s) :
    ∃ answer p' s', round around p s = (answer, p', s')
      ∧ ((∃ given, answer = some given
          ∧ Given around outcome queue origin patience p s given p' s')
        ∨ answer = none ∧ Turned around outcome queue origin patience p s p' s'
          ∧ pieces queue p' s' < pieces queue p s) := by
  obtain ⟨p₁, s₁, hrefill, hturned, houtputs, hprefix, hless⟩ :=
    refill_turned patience h (p.limit - p.inFlight.length) hp
  have hfirst := hturned.orderly
  rcases hout : p₁.outputs with _ | ⟨aggregate, rest⟩
  · obtain ⟨flights, s₂, hdrive, hkept, hdriven⟩ :=
      drive_kept patience h (Nat.succ_ne_zero p₁.inFlight.length) p₁.inFlight s₁
    -- Whatever the windows under way have come to, nothing is owed that was not owed before.
    have hdue : due outcome queue origin { p₁ with inFlight := flights } s₂
        = due outcome queue origin p s := by
      rw [← hturned.due, due, due, hkept.queue]
      simp only [hkept.answers]
    have horderly : ∀ p' : Pipeline τ ε γ, p'.limit = p₁.limit → p'.inputEnded = p₁.inputEnded →
        Orderly queue p' s₂ := by
      intro p' hlimit hinput
      refine ⟨hlimit ▸ hfirst.limit, fun he => ?_⟩
      rw [hkept.queue]
      exact hfirst.ended (hinput ▸ he)
    have hpieces : flights.length + (queue s₂).length ≤ pieces queue p s := by
      rw [hkept.length, hkept.queue]
      exact hturned.pieces
    rcases flights with _ | ⟨work | e | aggregates, others⟩
    · have hnone : p₁.inFlight = [] := List.eq_nil_of_length_eq_zero hkept.length.symm
      have hbefore : p.inFlight = [] := List.prefix_nil.1 (hnone ▸ hprefix)
      have hroom : p.limit - p.inFlight.length ≠ 0 := by
        have hlimit := hp.limit
        rw [hbefore, List.length_nil]
        omega
      cases he : p₁.inputEnded with
      | true =>
        refine ⟨some .ended, { p₁ with inFlight := [] }, s₂,
          by simp [round, hrefill, hout, hdrive, he],
          Or.inl ⟨.ended, rfl, .ended (horderly _ rfl rfl) ?_ he rfl hout⟩⟩
        rw [← hdue, due, hkept.queue, hfirst.ended he, hout]
        rfl
      | false =>
        refine ⟨some .pending, { p₁ with inFlight := [] }, s₂,
          by simp [round, hrefill, hout, hdrive, he],
          Or.inl ⟨.pending, rfl, .pending (horderly _ rfl rfl) hdue fun hpatient => ?_⟩⟩
        refine lt_of_le_of_lt (delay_le_of_toDo hkept.queue (hkept.toDo hpatient)) ?_
        exact hless hroom he hpatient
    · refine ⟨some .pending, { p₁ with inFlight := .running work :: others }, s₂,
        by simp [round, hrefill, hout, hdrive],
        Or.inl ⟨.pending, rfl, .pending (horderly _ rfl rfl) hdue fun hpatient => ?_⟩⟩
      exact lt_of_lt_of_le (delay_lt_of_toDo hkept.queue (hdriven work others rfl hpatient))
        (hturned.delay hpatient)
    · refine ⟨some (.item (.error e)), { p₁ with inFlight := others }, s₂,
        by simp [round, hrefill, hout, hdrive],
        Or.inl ⟨_, rfl, .item (horderly _ rfl rfl) ?_⟩⟩
      rw [← hdue, due, due, hout]
      rfl
    · refine ⟨none, { p₁ with inFlight := others, outputs := aggregates }, s₂,
        by simp [round, hrefill, hout, hdrive],
        Or.inr ⟨rfl, ⟨horderly _ rfl rfl, ?_, ?_, fun hpatient => ?_⟩, ?_⟩⟩
      · rw [← hdue, due, due, hout]
        simp only [List.flatMap_cons, flightAnswers, answersOf, List.map_nil, List.nil_append,
          List.append_assoc]
      · exact le_trans (Nat.add_le_add_right (Nat.le_succ _) _) hpieces
      · exact le_trans (delay_le_of_toDo hkept.queue (hkept.toDo hpatient))
          (hturned.delay hpatient)
      · exact lt_of_lt_of_le (Nat.add_lt_add_right (Nat.lt_succ_self _) _) hpieces
  · refine ⟨some (.item (.ok aggregate)), { p₁ with outputs := rest }, s₁,
      by simp [round, hrefill, hout],
      Or.inl ⟨_, rfl, .item ⟨hfirst.limit, hfirst.ended⟩ ?_⟩⟩
    rw [← hturned.due, due, due, hout]
    rfl

variable (patience) in
/-- **Asking a pipeline**, in as many rounds as there are windows, and one more. -/
theorem poll_given (h : around.Resolves outcome queue origin) {rounds : Nat} (hp : Orderly queue p s)
    (hrounds : pieces queue p s < rounds) :
    ∃ answer p' s', poll around rounds p s = (answer, p', s')
      ∧ Given around outcome queue origin patience p s answer p' s' := by
  induction rounds generalizing p s with
  | zero => exact absurd hrounds (Nat.not_lt_zero _)
  | succ rounds ih =>
    obtain ⟨answer, p₁, s₁, hround, ⟨given, rfl, hgiven⟩ | ⟨rfl, hturned, hpieces⟩⟩ :=
      round_given patience h hp
    · exact ⟨given, p₁, s₁, by rw [poll, hround], hgiven⟩
    · obtain ⟨answer, p', s', hpoll, hgiven⟩ := ih hturned.orderly (by omega)
      refine ⟨answer, p', s', by rw [poll, hround]; exact hpoll, ?_⟩
      cases hgiven with
      | item hp' hdue => exact .item hp' (hturned.due.symm.trans hdue)
      | ended hp' hdue hinput hflights houtputs =>
        exact .ended hp' (hturned.due.symm.trans hdue) hinput hflights houtputs
      | pending hp' hdue hless =>
        exact .pending hp' (hdue.trans hturned.due)
          fun hpatient => lt_of_lt_of_le (hless hpatient) (hturned.delay hpatient)

end Rounds

/-! ## 4. Questions over time -/

/-- The items among some answers. -/
def handed {τ : Type} (answers : List (Pull τ)) : List τ :=
  answers.filterMap fun
    | .item x => some x
    | _ => none

/-- The answers to so many questions asked one after the other, each in rounds enough. -/
def askOften (around : Surroundings ω τ ε γ σ) (queue : σ → List ω) :
    Nat → Pipeline τ ε γ → σ → List (Pull (Except ε γ))
  | 0, _, _ => []
  | questions + 1, p, s =>
    let (answer, p', s') := poll around (pieces queue p s + 1) p s
    answer :: askOften around queue questions p' s'

/-- What was answered so far, and where that led. The pipeline is asked at any time, in rounds enough,
and in between anything may happen that takes no window away and adds none. -/
inductive Asked (around : Surroundings ω τ ε γ σ) (queue : σ → List ω) (p₀ : Pipeline τ ε γ)
    (s₀ : σ) : List (Pull (Except ε γ)) → Pipeline τ ε γ → σ → Prop where
  | begins : Asked around queue p₀ s₀ [] p₀ s₀
  | asks {answers : List (Pull (Except ε γ))} {p p' : Pipeline τ ε γ} {s s' : σ} {rounds : Nat}
      {answer : Pull (Except ε γ)} (h : Asked around queue p₀ s₀ answers p s)
      (hrounds : pieces queue p s < rounds) (hp : poll around rounds p s = (answer, p', s')) :
      Asked around queue p₀ s₀ (answers ++ [answer]) p' s'
  | passes {answers : List (Pull (Except ε γ))} {p : Pipeline τ ε γ} {s s' : σ}
      (h : Asked around queue p₀ s₀ answers p s) (hq : queue s' = queue s) :
      Asked around queue p₀ s₀ answers p s'

section Questions

variable {p p₀ : Pipeline τ ε γ} {s₀ : σ} {answers : List (Pull (Except ε γ))}

theorem handed_append {τ : Type} (xs ys : List (Pull τ)) :
    handed (xs ++ ys) = handed xs ++ handed ys := List.filterMap_append ..

/-- Nothing is under way or at hand, and the input has ended. -/
structure Over (p : Pipeline τ ε γ) : Prop where
  input : p.inputEnded = true
  flights : p.inFlight = []
  outputs : p.outputs = []

/-- A pipeline that is over stays as it is, and says so again. -/
theorem poll_over (around : Surroundings ω τ ε γ σ) (h : Over p) {rounds : Nat}
    (hrounds : rounds ≠ 0) (s : σ) :
    ∃ p', poll around rounds p s = (.ended, p', s) ∧ Over p' := by
  obtain ⟨rounds, rfl⟩ := Nat.exists_eq_succ_of_ne_zero hrounds
  obtain ⟨hinput, hflights, houtputs⟩ := h
  have hrefill : refill around (p.limit - p.inFlight.length) p s = (p, s) := by
    cases p.limit - p.inFlight.length with
    | zero => rfl
    | succ room => rw [refill, if_pos hinput]
  have hround : round around p s = (some .ended, { p with inFlight := [] }, s) := by
    rw [round, hrefill]
    simp [houtputs, hflights, drive, hinput]
  exact ⟨{ p with inFlight := [] }, by rw [poll, hround], hinput, rfl, houtputs⟩

/-- What is known after some questions: what was handed out and what is still due are together what
was due at first, and an end that was answered is one, and the last answer there is. -/
structure Told (outcome : ω → Except ε (List γ)) (queue : σ → List ω) (origin : τ → ω)
    (all : List (Except ε γ)) (answers : List (Pull (Except ε γ))) (p : Pipeline τ ε γ) (s : σ) :
    Prop where
  orderly : Orderly queue p s
  all : handed answers ++ due outcome queue origin p s = all
  ends : ∃ before n, answers = before ++ List.replicate n .ended ∧ .ended ∉ before
    ∧ (n ≠ 0 → Over p)

theorem Over.due (h : Over p) (hp : Orderly queue p s) : due outcome queue origin p s = [] := by
  rw [Pipeline.due, h.outputs, h.flights, hp.ended h.input]
  rfl

theorem Told.ask {all : List (Except ε γ)} (h : around.Resolves outcome queue origin)
    (ht : Told outcome queue origin all answers p s) {rounds : Nat}
    (hrounds : pieces queue p s < rounds) {answer : Pull (Except ε γ)} {p' : Pipeline τ ε γ} {s' : σ}
    (hp : poll around rounds p s = (answer, p', s')) :
    Told outcome queue origin all (answers ++ [answer]) p' s' := by
  obtain ⟨horderly, hall, before, n, rfl, hbefore, hover⟩ := ht
  by_cases hn : n = 0
  · -- The end was not answered yet.
    subst hn
    obtain ⟨given, p₁, s₁, hpoll, hgiven⟩ :=
      poll_given (fun _ _ => 0) h horderly hrounds
    rw [hp] at hpoll
    cases hpoll
    simp only [List.replicate_zero, List.append_nil] at hall ⊢
    cases hgiven with
    | @item x _ _ hp' hdue =>
      refine ⟨hp', ?_, before ++ [.item x], 0, by simp, by simp [hbefore], fun hz => absurd rfl hz⟩
      rw [handed_append, List.append_assoc, ← hall, hdue]
      rfl
    | ended hp' hdue hinput hflights houtputs =>
      have hnone : due outcome queue origin p' s' = [] :=
        Over.due ⟨hinput, hflights, houtputs⟩ hp'
      refine ⟨hp', ?_, before, 1, rfl, hbefore, fun _ => ⟨hinput, hflights, houtputs⟩⟩
      rw [handed_append, hnone, ← hall, hdue]
      simp [handed]
    | pending hp' hdue hless =>
      refine ⟨hp', ?_, before ++ [.pending], 0, by simp, by simp [hbefore],
        fun hz => absurd rfl hz⟩
      rw [handed_append, ← hall, hdue]
      simp [handed]
  · obtain ⟨p₁, hpoll, hover'⟩ := poll_over around (hover hn) (Nat.ne_zero_of_lt hrounds) s
    rw [hp] at hpoll
    cases hpoll
    have horderly' : Orderly queue p' s := by
      obtain ⟨given, p₁, s₁, hpoll, hgiven⟩ :=
        poll_given (fun _ _ => 0) h horderly hrounds
      rw [hp] at hpoll
      cases hpoll
      cases hgiven with
      | ended hp' => exact hp'
    refine ⟨horderly', ?_, before, n + 1, ?_, hbefore, fun _ => hover'⟩
    · rw [← hall, handed_append, hover'.due horderly', (hover hn).due horderly]
      simp [handed]
    · rw [List.append_assoc, ← List.replicate_succ']

theorem Asked.told (h : around.Resolves outcome queue origin) (hp₀ : Orderly queue p₀ s₀)
    (hasked : Asked around queue p₀ s₀ answers p s) :
    Told outcome queue origin (due outcome queue origin p₀ s₀) answers p s := by
  induction hasked with
  | begins =>
    exact ⟨hp₀, rfl, [], 0, rfl, List.not_mem_nil, fun hz => absurd rfl hz⟩
  | asks _ hrounds hp ih => exact ih.ask h hrounds hp
  | passes _ hq ih =>
    refine ⟨⟨ih.orderly.limit, fun he => hq.trans (ih.orderly.ended he)⟩, ?_, ih.ends⟩
    rw [← ih.all, due, due, hq]

theorem Asked.askOften (hasked : Asked around queue p₀ s₀ answers p s) (questions : Nat) :
    ∃ p' s', Asked around queue p₀ s₀ (answers ++ askOften around queue questions p s) p' s' := by
  induction questions generalizing answers p s with
  | zero => exact ⟨p, s, by rw [Pipeline.askOften, List.append_nil]; exact hasked⟩
  | succ questions ih =>
    rcases hpoll : poll around (pieces queue p s + 1) p s with ⟨answer, p₁, s₁⟩
    obtain ⟨p', s', hrest⟩ := ih (hasked.asks (Nat.lt_succ_self _) hpoll)
    refine ⟨p', s', ?_⟩
    rw [Pipeline.askOften, hpoll]
    rw [List.append_assoc] at hrest
    exact hrest

/-- **Whoever goes on asking reaches the end**, if nobody is put off for ever. -/
theorem exists_ended (h : around.Resolves outcome queue origin) (hpatient : around.Patient patience)
    (hp : Orderly queue p s) :
    ∃ questions, .ended ∈ askOften around queue questions p s := by
  -- Either an answer less is due, or there is less to wait for.
  generalize hmeasure : toLex ((due outcome queue origin p s).length, delay queue patience p s)
    = measure
  induction measure using WellFoundedLT.induction generalizing p s with
  | ind measure ih =>
    obtain ⟨answer, p', s', hpoll, hgiven⟩ := poll_given patience h hp (Nat.lt_succ_self _)
    have hnext : Orderly queue p' s' → toLex ((due outcome queue origin p' s').length,
        delay queue patience p' s') < measure →
        ∃ questions, .ended ∈ askOften around queue questions p s := by
      intro hp' hless
      obtain ⟨questions, hmem⟩ := ih _ hless hp' rfl
      refine ⟨questions + 1, ?_⟩
      rw [Pipeline.askOften, hpoll]
      exact List.mem_cons_of_mem _ hmem
    rw [← hmeasure] at hnext
    cases hgiven with
    | item hp' hdue =>
      refine hnext hp' (Prod.Lex.toLex_lt_toLex.2 (Or.inl ?_))
      rw [hdue]
      exact Nat.lt_succ_self _
    | ended hp' hdue hinput hflights houtputs =>
      refine ⟨1, ?_⟩
      rw [Pipeline.askOften, hpoll]
      exact List.mem_cons_self ..
    | pending hp' hdue hless =>
      refine hnext hp' (Prod.Lex.toLex_lt_toLex.2 (Or.inr ⟨?_, hless hpatient⟩))
      rw [hdue]

end Questions

/-- **Windows are answered in their order, each by itself, to the end.** However many windows may be
under way, whenever windows become available, in whatever order works go on and end, whatever else
happens, and whenever the pipeline is asked: what was handed out is a beginning of what the windows
come to, one after the other, where a window that fails is one failure. The end is answered when all
of that was handed out, and then nothing but the end is ever answered again. And if nobody is put off
for ever, asking on leads to the end. -/
theorem windows_in_order {around : Surroundings ω τ ε γ σ} {outcome : ω → Except ε (List γ)}
    {queue : σ → List ω} {origin : τ → ω} (h : around.Resolves outcome queue origin)
    (maxConcurrent : Nat) (s₀ : σ) {answers : List (Pull (Except ε γ))} {p : Pipeline τ ε γ} {s : σ}
    (hasked : Asked around queue (start maxConcurrent) s₀ answers p s) :
    let all := (queue s₀).flatMap fun window => answersOf (outcome window)
    handed answers <+: all
    ∧ (.ended ∈ answers → handed answers = all)
    ∧ (∃ before n, answers = before ++ List.replicate n .ended ∧ .ended ∉ before)
    ∧ ∀ patience, around.Patient patience → ∃ questions,
        .ended ∈ askOften around queue questions p s
        ∧ handed (answers ++ askOften around queue questions p s) = all := by
  intro all
  have hp₀ : Orderly queue (start maxConcurrent : Pipeline τ ε γ) s₀ :=
    ⟨by simp only [start]; omega, fun he => by cases he⟩
  -- When the end was answered, nothing is due any more.
  have hall : ∀ {answers p s}, Asked around queue (start maxConcurrent) s₀ answers p s →
      .ended ∈ answers → handed answers = all := by
    intro answers p s hasked hended
    obtain ⟨horderly, htold, before, n, hsplit, hbefore, hover⟩ := hasked.told h hp₀
    have hn : n ≠ 0 := by
      rintro rfl
      rw [hsplit, List.replicate_zero, List.append_nil] at hended
      exact hbefore hended
    rw [(hover hn).due horderly, List.append_nil] at htold
    exact htold
  have htold := hasked.told h hp₀
  refine ⟨⟨_, htold.all⟩, hall hasked, ?_, fun patience hpatient => ?_⟩
  · obtain ⟨before, n, hsplit, hbefore, _⟩ := htold.ends
    exact ⟨before, n, hsplit, hbefore⟩
  · obtain ⟨questions, hmem⟩ := exists_ended h hpatient htold.orderly
    obtain ⟨p', s', hasked'⟩ := hasked.askOften questions
    exact ⟨questions, hmem, hall hasked' (List.mem_append_right _ hmem)⟩

/-- Windows named by numbers, each with the number of questions until it is there. A window is worked
on in as many goes as its name says, and the one taken last goes first. The third one fails. -/
def relay : Surroundings Nat (Nat × Nat) String Nat (List (Nat × Nat)) where
  pull
    | [] => (.ended, [])
    | (0, window) :: rest => (.item window, rest)
    | (wait + 1, window) :: rest => (.pending, (wait, window) :: rest)
  launch window s := ((window, window), s)
  next works s := (if works.isEmpty then none else some (works.length - 1), s)
  advance
    | (window, 0), s => (.finished (if window = 3 then .error "torn" else .ok (List.range window)), s)
    | (window, goes + 1), s => (.waiting (window, goes), s)

theorem resolves_relay : relay.Resolves
    (fun window => if window = 3 then .error "torn" else .ok (List.range window))
    (fun s => s.map Prod.snd) Prod.fst := by
  refine ⟨?_, ?_, ?_, ?_, ?_, ?_, ?_⟩
  · rintro (_ | ⟨⟨_ | wait, first⟩, rest⟩) window s' hpull <;> cases hpull
    rfl
  · rintro (_ | ⟨⟨_ | wait, first⟩, rest⟩) s' hpull <;> cases hpull
    exact ⟨rfl, rfl⟩
  · rintro (_ | ⟨⟨_ | wait, first⟩, rest⟩) s' hpull <;> cases hpull
    rfl
  · rintro window s work s' hlaunch
    cases hlaunch
    exact ⟨rfl, rfl⟩
  · rintro works s place s' hnext
    cases hnext
    rfl
  · rintro ⟨window, _ | goes⟩ s work' s' hrun <;> cases hrun
    exact ⟨rfl, rfl⟩
  · rintro ⟨window, _ | goes⟩ s result s' hrun <;> cases hrun
    exact ⟨rfl, rfl⟩

theorem patient_relay :
    relay.Patient fun works s => (works.map Prod.snd).sum + (s.map Prod.fst).sum := by
  refine ⟨?_, ?_, ?_, ?_, ?_⟩
  · rintro works (_ | ⟨⟨_ | wait, first⟩, rest⟩) s' hpull <;> cases hpull
    exact le_refl _
  · rintro works (_ | ⟨⟨_ | wait, first⟩, rest⟩) s' hpull <;> cases hpull
    simp only [List.map_cons, List.sum_cons]
    omega
  · rintro works s s' hworks hnext
    simp [relay, hworks] at hnext
  · rintro works s n s' hnext
    cases works with
    | nil => simp [relay] at hnext
    | cons work rest =>
      cases hnext
      exact ⟨by simp, le_refl _⟩
  · rintro before behind ⟨window, _ | goes⟩ s work' s' hrun <;> cases hrun
    simp only [List.map_append, List.map_cons, List.sum_append, List.sum_cons]
    omega

/-- Of four windows two are under way at a time; the first fails last and is answered first, and the
second has no aggregates. -/
theorem windows_in_order_relay : ∃ questions,
    handed (askOften relay (fun s => s.map Prod.snd) questions (start 2)
      [(0, 3), (1, 0), (0, 2), (2, 1)])
      = [.error "torn", .ok 0, .ok 1, .ok 0] := by
  obtain ⟨questions, _, hall⟩ := (windows_in_order resolves_relay 2
    [(0, 3), (1, 0), (0, 2), (2, 1)] .begins).2.2.2 _ patient_relay
  exact ⟨questions, hall⟩

end Pipeline

end Collate
