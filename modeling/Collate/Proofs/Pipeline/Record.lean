/-
What a pipeline does while it is asked, one thing at a time, and how many windows it has under way.

The record of a question lists every answer of the input, every go that was given to a window, every
answer of the windows under way and every aggregate handed out, each with how the pipeline stood right
after it. So a state in the middle of a question is a state like any other: whatever holds after each
entry holds whenever somebody looks. A question that goes round without end has a record too, as long
as the number of rounds that are looked at.

Everything is derived from what one entry can be (`Move`): a window is taken only where there is
room, goes are given and results are taken only while no aggregates are left, and nothing but the
result of a window ever brings aggregates.
-/
import Mathlib.Data.List.Infix
import Collate.Proofs.Pipeline.Order

set_option autoImplicit false

namespace Collate

namespace Pipeline

variable {ω τ ε γ σ : Type}

/-! ## 1. Records -/

/-- A thing that a pipeline does. -/
inductive Event (ω ε γ : Type) where
  /-- It asked the input, which answered so. -/
  | asked (answer : Pull ω)
  /-- It let the window with this place among those not done go on; whether that one is done now. -/
  | advanced (place : Nat) (done : Bool)
  /-- It found that no window can go on. -/
  | idle
  /-- The windows under way, asked for the result of the first one, answered so. A result that was
  answered has left them. -/
  | drove (answer : Pull (Except ε (List γ)))
  /-- It handed out an aggregate. -/
  | handed (aggregate : γ)

/-- A thing that was done, and how the pipeline stood right after it. -/
abbrev Moment (ω τ ε γ : Type) := Event ω ε γ × Pipeline τ ε γ

/-- How a pipeline stands that stood so before it did these things. -/
def standing (p : Pipeline τ ε γ) (past : List (Moment ω τ ε γ)) : Pipeline τ ε γ :=
  (past.getLast?.map Prod.snd).getD p

/-- The aggregates of a window that came to this. -/
def aggregatesOf : Except ε (List γ) → List γ
  | .ok aggregates => aggregates
  | .error _ => []

/-- The record of taking windows while there is room for `room` more. -/
def refillRecord (around : Surroundings ω τ ε γ σ) :
    Nat → Pipeline τ ε γ → σ → List (Moment ω τ ε γ)
  | 0, _, _ => []
  | room + 1, p, s =>
    if p.inputEnded then []
    else match around.pull s with
      | (.item window, s) =>
        let (work, s) := around.launch window s
        let p := { p with inFlight := p.inFlight ++ [.running work] }
        (.asked (.item window), p) :: refillRecord around room p s
      | (.ended, _) => [(.asked .ended, { p with inputEnded := true })]
      | (.pending, _) => [(.asked .pending, p)]

/-- The record of one sweep over the windows under way. -/
def sweepRecord (around : Surroundings ω τ ε γ σ) :
    Nat → Pipeline τ ε γ → σ → List (Moment ω τ ε γ)
  | 0, _, _ => []
  | goes + 1, p, s =>
    match around.next (works p.inFlight) s with
    | (none, _) => [(.idle, p)]
    | (some n, s) =>
      match advanceNth around n p.inFlight s with
      | (true, flights, _) => [(.advanced n true, { p with inFlight := flights })]
      | (false, flights, s) =>
        (.advanced n false, { p with inFlight := flights })
          :: sweepRecord around goes { p with inFlight := flights } s

/-- The record of letting windows go on until the first one is done or none can. -/
def driveRecord (around : Surroundings ω τ ε γ σ) :
    Nat → Pipeline τ ε γ → σ → List (Moment ω τ ε γ)
  | 0, _, _ => []
  | sweeps + 1, p, s =>
    match p.inFlight with
    | .running _ :: _ =>
      sweepRecord around (works p.inFlight).length p s
        ++ match sweep around (works p.inFlight).length p.inFlight s with
          | (true, flights, s) => driveRecord around sweeps { p with inFlight := flights } s
          | (false, _, _) => []
    | _ => []

/-- The record of a pipeline without aggregates asking its windows under way for a result. -/
def resultRecord (around : Surroundings ω τ ε γ σ) (p : Pipeline τ ε γ) (s : σ) :
    List (Moment ω τ ε γ) :=
  driveRecord around (p.inFlight.length + 1) p s
    ++ match drive around (p.inFlight.length + 1) p.inFlight s with
      | ([], _) => [(.drove .ended, { p with inFlight := [] })]
      | (.landed result :: rest, _) =>
        [(.drove (.item result), { p with inFlight := rest, outputs := aggregatesOf result })]
      | (.running work :: rest, _) =>
        [(.drove .pending, { p with inFlight := .running work :: rest })]

/-- The record of one round. -/
def roundRecord (around : Surroundings ω τ ε γ σ) (p : Pipeline τ ε γ) (s : σ) :
    List (Moment ω τ ε γ) :=
  let room := p.limit - p.inFlight.length
  refillRecord around room p s
    ++ match refill around room p s with
      | (p, s) =>
        match p.outputs with
        | aggregate :: rest => [(.handed aggregate, { p with outputs := rest })]
        | [] => resultRecord around p s

/-- The records of the rounds of a question, at most `rounds` of them. -/
def pollRecords (around : Surroundings ω τ ε γ σ) :
    Nat → Pipeline τ ε γ → σ → List (List (Moment ω τ ε γ))
  | 0, _, _ => []
  | rounds + 1, p, s =>
    roundRecord around p s ::
      match round around p s with
      | (none, p, s) => pollRecords around rounds p s
      | (some _, _, _) => []

/-- Whether a window was taken from the input. -/
def Event.takes : Event ω ε γ → Bool
  | .asked (.item _) => true
  | _ => false

/-- What a window brought whose result was taken. -/
def Event.brings? : Event ω ε γ → Option (List γ)
  | .drove (.item result) => some (aggregatesOf result)
  | _ => none

/-- How many windows were taken from the input. -/
def taken (past : List (Moment ω τ ε γ)) : Nat := past.countP fun moment => moment.1.takes

/-- How many windows had their results taken. -/
def unloaded (past : List (Moment ω τ ε γ)) : Nat :=
  past.countP fun moment => moment.1.brings?.isSome

/-- The aggregates of the window whose result was taken last. -/
def latest (past : List (Moment ω τ ε γ)) : List γ :=
  past.foldl (fun aggregates moment => moment.1.brings?.getD aggregates) []

/-! ## 2. What one entry can be -/

/-- What a pipeline may do when it stands so, and how it stands then. -/
inductive Move : Event ω ε γ → Pipeline τ ε γ → Pipeline τ ε γ → Prop where
  | take {p : Pipeline τ ε γ} (window : ω) (work : τ) (hroom : p.inFlight.length < p.limit) :
      Move (.asked (.item window)) p { p with inFlight := p.inFlight ++ [.running work] }
  | close (p : Pipeline τ ε γ) : Move (.asked .ended) p { p with inputEnded := true }
  | lack (p : Pipeline τ ε γ) : Move (.asked .pending) p p
  | advance {p : Pipeline τ ε γ} (place : Nat) (done : Bool) {flights : List (Flight τ ε γ)}
      (hout : p.outputs = []) (hlen : flights.length = p.inFlight.length) :
      Move (.advanced place done) p { p with inFlight := flights }
  | idle (p : Pipeline τ ε γ) : Move .idle p p
  | wait (p : Pipeline τ ε γ) : Move (.drove .pending) p p
  | finish (p : Pipeline τ ε γ) : Move (.drove .ended) p p
  | unload {p : Pipeline τ ε γ} {result : Except ε (List γ)} {rest : List (Flight τ ε γ)}
      (hout : p.outputs = []) (hfirst : p.inFlight = .landed result :: rest) :
      Move (.drove (.item result)) p
        { p with inFlight := rest, outputs := aggregatesOf result }
  | hand {p : Pipeline τ ε γ} {aggregate : γ} {rest : List γ} (hout : p.outputs = aggregate :: rest) :
      Move (.handed aggregate) p { p with outputs := rest }

/-- Each entry of a record is a move from how the pipeline stood before it. -/
inductive Moves : Pipeline τ ε γ → List (Moment ω τ ε γ) → Prop where
  | nil (p : Pipeline τ ε γ) : Moves p []
  | cons {event : Event ω ε γ} {p q : Pipeline τ ε γ} {rest : List (Moment ω τ ε γ)}
      (hm : Move event p q) (hrest : Moves q rest) : Moves p ((event, q) :: rest)

section Standing

variable {p q : Pipeline τ ε γ} {past later : List (Moment ω τ ε γ)} {event : Event ω ε γ}

@[simp] theorem standing_nil (p : Pipeline τ ε γ) :
    standing p ([] : List (Moment ω τ ε γ)) = p := rfl

@[simp] theorem standing_cons (p q : Pipeline τ ε γ) (event : Event ω ε γ)
    (rest : List (Moment ω τ ε γ)) : standing p ((event, q) :: rest) = standing q rest := by
  cases rest with
  | nil => rfl
  | cons moment rest => simp [standing, List.getLast?_cons]

theorem standing_append (p : Pipeline τ ε γ) (past later : List (Moment ω τ ε γ)) :
    standing p (past ++ later) = standing (standing p past) later := by
  induction past generalizing p with
  | nil => rfl
  | cons moment rest ih => rw [List.cons_append, standing_cons, standing_cons, ih]

theorem Moves.append (h : Moves p past) (h' : Moves (standing p past) later) :
    Moves p (past ++ later) := by
  induction h with
  | nil p => exact h'
  | cons hm _ ih =>
    rw [standing_cons] at h'
    exact .cons hm (ih h')

theorem Moves.single (h : Move event p q) : Moves p [(event, q)] := .cons h (.nil q)

end Standing

/-! ## 3. Records consist of moves -/

section Records

variable (around : Surroundings ω τ ε γ σ) {p : Pipeline τ ε γ} {s : σ}

/-- Windows are taken one by one, and never more than there is room for. -/
theorem refillRecord_moves (room : Nat) (p : Pipeline τ ε γ) (s : σ)
    (hroom : p.inFlight.length + room ≤ p.limit ∨ room = 0) :
    Moves p (refillRecord around room p s)
      ∧ standing p (refillRecord around room p s) = (refill around room p s).1 := by
  induction room generalizing p s with
  | zero => exact ⟨.nil p, rfl⟩
  | succ room ih =>
    have hfree : p.inFlight.length < p.limit := by omega
    by_cases hended : p.inputEnded = true
    · simp only [refillRecord, refill, hended, if_true]
      exact ⟨.nil p, rfl⟩
    · rw [refillRecord, refill, if_neg hended, if_neg hended]
      rcases around.pull s with ⟨window | _ | _, s₁⟩
      · rcases hlaunch : around.launch window s₁ with ⟨work, s₂⟩
        simp only [hlaunch]
        have hnext : (p.inFlight ++ [Flight.running work]).length + room ≤ p.limit := by
          rw [List.length_append, List.length_singleton]
          omega
        obtain ⟨hmoves, hstands⟩ :=
          ih { p with inFlight := p.inFlight ++ [.running work] } s₂ (Or.inl hnext)
        exact ⟨.cons (.take window work hfree) hmoves, by rw [standing_cons]; exact hstands⟩
      · exact ⟨.single (.close p), rfl⟩
      · exact ⟨.single (.lack p), rfl⟩

/-- What a go can do: the work goes on and waits, or it is done, or there is no work with this
place. -/
theorem advanceNth_cases (n : Nat) (flights : List (Flight τ ε γ)) (s : σ) :
    (∃ fore work aft work' s', flights = fore ++ .running work :: aft
      ∧ advanceNth around n flights s = (false, fore ++ .running work' :: aft, s'))
    ∨ (∃ fore work aft result s', flights = fore ++ .running work :: aft
      ∧ advanceNth around n flights s = (true, fore ++ .landed result :: aft, s'))
    ∨ advanceNth around n flights s = (false, flights, s) := by
  by_cases hplace : n < (works flights).length
  · obtain ⟨fore, aft, hflights, hbefore, -⟩ :=
      exists_flight (show works flights
          = (works flights).take n ++ (works flights)[n] :: (works flights).drop (n + 1) by
        rw [List.getElem_cons_drop, List.take_append_drop])
    generalize (works flights)[n] = work at hflights
    subst hflights
    have hfore : (works fore).length = n := by
      rw [hbefore, List.length_take]
      omega
    have hadvance := advanceNth_eq around fore aft work s
    rw [hfore] at hadvance
    rcases hrun : around.advance work s with ⟨work' | result, s'⟩
    · rw [hrun] at hadvance
      exact Or.inl ⟨fore, work, aft, work', s', rfl, hadvance⟩
    · rw [hrun] at hadvance
      exact Or.inr (Or.inl ⟨fore, work, aft, result, s', rfl, hadvance⟩)
  · exact Or.inr (Or.inr (advanceNth_beyond around (Nat.le_of_not_lt hplace) s))

/-- A go neither adds a window nor takes one away. -/
theorem advanceNth_length (n : Nat) (flights : List (Flight τ ε γ)) (s : σ) :
    (advanceNth around n flights s).2.1.length = flights.length := by
  rcases advanceNth_cases around n flights s with
    ⟨fore, work, aft, work', s', rfl, hadvance⟩ | ⟨fore, work, aft, result, s', rfl, hadvance⟩ |
    hadvance
  · simp [hadvance]
  · simp [hadvance]
  · rw [hadvance]

theorem sweepRecord_moves (goes : Nat) (p : Pipeline τ ε γ) (s : σ) (hout : p.outputs = []) :
    Moves p (sweepRecord around goes p s)
      ∧ standing p (sweepRecord around goes p s)
        = { p with inFlight := (sweep around goes p.inFlight s).2.1 } := by
  induction goes generalizing p s with
  | zero => exact ⟨.nil p, rfl⟩
  | succ goes ih =>
    rw [sweepRecord, sweep]
    rcases around.next (works p.inFlight) s with ⟨_ | n, s₁⟩
    · exact ⟨.single (.idle p), rfl⟩
    · have hlen := advanceNth_length around n p.inFlight s₁
      rcases hadvance : advanceNth around n p.inFlight s₁ with ⟨_ | _, flights, s₂⟩
      · rw [hadvance] at hlen
        simp only [hadvance]
        obtain ⟨hmoves, hstands⟩ := ih { p with inFlight := flights } s₂ hout
        exact ⟨.cons (.advance n false hout hlen) hmoves, by rw [standing_cons, hstands]⟩
      · rw [hadvance] at hlen
        simp only [hadvance]
        exact ⟨.single (.advance n true hout hlen), rfl⟩

theorem driveRecord_moves (sweeps : Nat) (p : Pipeline τ ε γ) (s : σ) (hout : p.outputs = []) :
    Moves p (driveRecord around sweeps p s)
      ∧ standing p (driveRecord around sweeps p s)
        = { p with inFlight := (drive around sweeps p.inFlight s).1 } := by
  induction sweeps generalizing p s with
  | zero => exact ⟨.nil p, rfl⟩
  | succ sweeps ih =>
    rcases hflights : p.inFlight with _ | ⟨work | result, rest⟩
    · simp only [driveRecord, drive, hflights]
      exact ⟨.nil p, by rw [standing_nil, ← hflights]⟩
    · have hsweep := sweepRecord_moves around (works p.inFlight).length p s hout
      simp only [driveRecord, drive, hflights] at hsweep ⊢
      rcases hend : sweep around (works (.running work :: rest)).length (.running work :: rest) s
        with ⟨_ | _, flights, s₁⟩
      · rw [hend] at hsweep
        simp only [List.append_nil]
        exact hsweep
      · rw [hend] at hsweep
        obtain ⟨hmoves, hstands⟩ := hsweep
        obtain ⟨hmoves', hstands'⟩ := ih { p with inFlight := flights } s₁ hout
        refine ⟨hmoves.append ?_, ?_⟩
        · rw [hstands]
          exact hmoves'
        · rw [standing_append, hstands, hstands']
    · simp only [driveRecord, drive, hflights]
      exact ⟨.nil p, by rw [standing_nil, ← hflights]⟩

/-- **The record of a round** consists of moves, and it ends where the round ends. -/
theorem roundRecord_moves (p : Pipeline τ ε γ) (s : σ) :
    Moves p (roundRecord around p s)
      ∧ standing p (roundRecord around p s) = (round around p s).2.1 := by
  obtain ⟨htaken, hstands⟩ := refillRecord_moves around (p.limit - p.inFlight.length) p s (by omega)
  rcases hrefill : refill around (p.limit - p.inFlight.length) p s with ⟨p₁, s₁⟩
  rw [hrefill] at hstands
  simp only [roundRecord, round, hrefill]
  rcases hout : p₁.outputs with _ | ⟨aggregate, rest⟩
  · obtain ⟨hdriven, hend⟩ := driveRecord_moves around (p₁.inFlight.length + 1) p₁ s₁ hout
    rcases hdrive : drive around (p₁.inFlight.length + 1) p₁.inFlight s₁ with ⟨flights, s₂⟩
    rw [hdrive] at hend
    -- Whatever the windows under way answer is the last entry.
    have hlast : ∀ event q, Move event { p₁ with inFlight := flights } q →
        Moves p (refillRecord around (p.limit - p.inFlight.length) p s
            ++ (driveRecord around (p₁.inFlight.length + 1) p₁ s₁ ++ [(event, q)]))
          ∧ standing p (refillRecord around (p.limit - p.inFlight.length) p s
            ++ (driveRecord around (p₁.inFlight.length + 1) p₁ s₁ ++ [(event, q)])) = q := by
      intro event q hm
      refine ⟨htaken.append ?_, ?_⟩
      · rw [hstands]
        refine hdriven.append ?_
        rw [hend]
        exact .single hm
      · rw [standing_append, hstands, standing_append, standing_cons, standing_nil]
    simp only [resultRecord, hdrive]
    rcases flights with _ | ⟨work | e | aggregates, others⟩
    · simpa only [hout] using hlast _ _ (.finish _)
    · simpa only [hout] using hlast _ _ (.wait _)
    · exact hlast _ _ (.unload hout rfl)
    · exact hlast _ _ (.unload hout rfl)
  · refine ⟨htaken.append ?_, ?_⟩
    · rw [hstands]
      exact .single (.hand hout)
    · rw [standing_append, hstands]
      rfl

/-- The records of the rounds of a question, one after the other, consist of moves, and they end
where the question ends. -/
theorem pollRecords_moves (rounds : Nat) (p : Pipeline τ ε γ) (s : σ) :
    Moves p (pollRecords around rounds p s).flatten
      ∧ standing p (pollRecords around rounds p s).flatten = (poll around rounds p s).2.1 := by
  induction rounds generalizing p s with
  | zero => exact ⟨.nil p, rfl⟩
  | succ rounds ih =>
    obtain ⟨hmoves, hstands⟩ := roundRecord_moves around p s
    rw [pollRecords, poll]
    rcases hround : round around p s with ⟨_ | answer, p₁, s₁⟩
    · rw [hround] at hstands
      obtain ⟨hmoves', hstands'⟩ := ih p₁ s₁
      simp only [List.flatten_cons]
      refine ⟨hmoves.append ?_, ?_⟩
      · rw [hstands]
        exact hmoves'
      · rw [standing_append, hstands, hstands']
    · rw [hround] at hstands
      simp only [List.flatten_cons, List.flatten_nil, List.append_nil]
      exact ⟨hmoves, hstands⟩

end Records

/-! ## 4. How many windows are under way -/

/-- What a pipeline has done since it began. It is asked at any time and looked at after any number
of rounds, and in between anything may happen to what is around it. -/
inductive History (around : Surroundings ω τ ε γ σ) (p₀ : Pipeline τ ε γ) :
    List (Moment ω τ ε γ) → Pipeline τ ε γ → σ → Prop where
  | begins (s : σ) : History around p₀ [] p₀ s
  | asks {past : List (Moment ω τ ε γ)} {p : Pipeline τ ε γ} {s : σ}
      (h : History around p₀ past p s) (rounds : Nat) :
      History around p₀ (past ++ (pollRecords around rounds p s).flatten)
        (poll around rounds p s).2.1 (poll around rounds p s).2.2
  | passes {past : List (Moment ω τ ε γ)} {p : Pipeline τ ε γ} {s : σ}
      (h : History around p₀ past p s) (s' : σ) : History around p₀ past p s'

section Accounts

variable {around : Surroundings ω τ ε γ σ} {p₀ p q : Pipeline τ ε γ} {s : σ}
  {past later : List (Moment ω τ ε γ)} {event : Event ω ε γ}

theorem History.moves (h : History around p₀ past p s) : Moves p₀ past ∧ standing p₀ past = p := by
  induction h with
  | begins s => exact ⟨.nil p₀, rfl⟩
  | @asks past p s _ rounds ih =>
    obtain ⟨hmoves, hstands⟩ := pollRecords_moves around rounds p s
    refine ⟨ih.1.append ?_, ?_⟩
    · rw [ih.2]
      exact hmoves
    · rw [standing_append, ih.2, hstands]
  | passes _ _ ih => exact ih

/-- A window that was taken is under way until its result is taken. -/
theorem Moves.balance (h : Moves p past) :
    taken past + p.inFlight.length = unloaded past + (standing p past).inFlight.length := by
  induction h with
  | nil p => simp [taken, unloaded]
  | @cons event p q rest hm _ ih =>
    have hstep : (if event.takes then 1 else 0) + p.inFlight.length
        = (if event.brings?.isSome then 1 else 0) + q.inFlight.length := by
      cases hm with
      | take window work hroom => simp [Event.takes, Event.brings?, Nat.add_comm]
      | unload hout hfirst => simp [Event.takes, Event.brings?, hfirst, Nat.add_comm]
      | advance place done hout hlen => simp [Event.takes, Event.brings?, hlen]
      | _ => rfl
    rw [standing_cons]
    simp only [taken, unloaded, List.countP_cons] at ih ⊢
    omega

theorem Move.limit (h : Move event p q) : q.limit = p.limit := by
  cases h <;> rfl

theorem Moves.limit (h : Moves p past) : (standing p past).limit = p.limit := by
  induction h with
  | nil p => rfl
  | cons hm _ ih =>
    rw [standing_cons, ih]
    exact hm.limit

/-- What is known of a pipeline that has done these things. -/
structure Accounts (past : List (Moment ω τ ε γ)) (p : Pipeline τ ε γ) : Prop where
  inFlight : p.inFlight.length ≤ p.limit
  outputs : p.outputs <:+ latest past

/-- An entry that brings no aggregates leaves a part of those at hand. -/
theorem Accounts.keep (h : Accounts past p) (hbrings : event.brings? = none)
    (hlen : q.inFlight.length ≤ q.limit) (hout : q.outputs <:+ p.outputs) :
    Accounts (past ++ [(event, q)]) q where
  inFlight := hlen
  outputs := by
    have houtputs := hout.trans h.outputs
    simpa only [latest, List.foldl_append, List.foldl_cons, List.foldl_nil, hbrings,
      Option.getD_none] using houtputs

/-- **One move** keeps the accounts. -/
theorem Accounts.move (h : Accounts past p) (hm : Move event p q) :
    Accounts (past ++ [(event, q)]) q := by
  have hflights := h.inFlight
  cases hm with
  | take window work hroom =>
    refine h.keep rfl ?_ List.suffix_rfl
    rw [List.length_append, List.length_singleton]
    exact hroom
  | @unload _ result rest hout hfirst =>
    rw [hfirst, List.length_cons] at hflights
    exact ⟨Nat.le_of_succ_le hflights, by simp [latest, Event.brings?]⟩
  | advance place done hout hlen => exact h.keep rfl (hlen ▸ hflights) List.suffix_rfl
  | @hand _ aggregate rest hout =>
    exact h.keep rfl hflights (hout ▸ List.suffix_cons aggregate rest)
  | _ => exact h.keep rfl hflights List.suffix_rfl

/-- The accounts are kept along any number of moves. -/
theorem Accounts.moves (h : Accounts past p) (hm : Moves p later) :
    Accounts (past ++ later) (standing p later) := by
  induction hm generalizing past with
  | nil p =>
    rw [List.append_nil]
    exact h
  | cons hm _ ih =>
    rw [standing_cons, List.append_cons]
    exact ih (h.move hm)

theorem Moves.of_append {before after : List (Moment ω τ ε γ)} (h : Moves p (before ++ after)) :
    Moves p before ∧ Moves (standing p before) after := by
  induction before generalizing p with
  | nil => exact ⟨.nil p, h⟩
  | cons moment rest ih =>
    rw [List.cons_append] at h
    cases h with
    | cons hm hrest =>
      obtain ⟨hbefore, hafter⟩ := ih hrest
      refine ⟨.cons hm hbefore, ?_⟩
      rw [standing_cons]
      exact hafter

end Accounts

/-- **Back-pressure.** Whatever the input brings, in whatever order works go on and end, and whenever
the pipeline is asked: at every moment of its history, those in the middle of a question included,
there are no more windows under way than the limit, and they are just those that were taken and whose
results were not taken yet; the aggregates at hand are the last ones of the window whose result was
taken last; and while there are any, no window is let go on. -/
theorem never_overfull (around : Surroundings ω τ ε γ σ) (maxConcurrent : Nat)
    {past : List (Moment ω τ ε γ)} {p : Pipeline τ ε γ} {s : σ}
    (h : History around (start maxConcurrent) past p s) :
    standing (start maxConcurrent) past = p
    ∧ ∀ before after, past = before ++ after →
      let now : Pipeline τ ε γ := standing (start maxConcurrent) before
      now.inFlight.length ≤ max maxConcurrent 1
      ∧ taken before = unloaded before + now.inFlight.length
      ∧ now.outputs <:+ latest before
      ∧ ∀ place done q rest, after = (.advanced place done, q) :: rest → now.outputs = [] := by
  obtain ⟨hmoves, hstands⟩ := h.moves
  refine ⟨hstands, fun before after hsplit => ?_⟩
  subst hsplit
  obtain ⟨hbefore, hafter⟩ := hmoves.of_append
  have hbegin : Accounts ([] : List (Moment ω τ ε γ)) (start maxConcurrent : Pipeline τ ε γ) :=
    ⟨Nat.zero_le _, List.suffix_rfl⟩
  obtain ⟨hflights, houtputs⟩ := hbegin.moves hbefore
  rw [hbefore.limit] at hflights
  refine ⟨hflights, hbefore.balance, houtputs, ?_⟩
  rintro place done q rest rfl
  cases hafter with
  | cons hm _ =>
    cases hm with
    | advance _ _ hout _ => exact hout

/-- Three windows, two of which may be under way. In the third question the first one is done; one of
its two aggregates is handed out, and the third window is taken. -/
theorem never_overfull_relay : ∃ past p s,
    History relay (start 2) past p s ∧ standing (start 2) past = p ∧ p.outputs = [1]
      ∧ p.inFlight.length ≤ max 2 1 ∧ taken past = 3 ∧ unloaded past = 1
      ∧ 3 = 1 + p.inFlight.length ∧ [1] <:+ latest past := by
  have hbegins : History relay (start 2) [] (start 2) [(0, 2), (0, 1), (0, 2)] := .begins _
  have hhistory := ((hbegins.asks 5).asks 5).asks 5
  obtain ⟨hstands, hall⟩ := never_overfull relay 2 hhistory
  obtain ⟨hflights, hbalance, houtputs, -⟩ := hall _ [] (List.append_nil _).symm
  rw [hstands] at hflights hbalance houtputs
  exact ⟨_, _, _, hhistory, hstands, rfl, hflights, rfl, rfl, hbalance, houtputs⟩

end Pipeline

end Collate
