/-
A pipeline that has nothing to hand out is called again, and it never goes round without end.

What a pipeline waits for is what it asked last: the windows under way, if there are any, and the
input, if there is room for another window. Each of the two calls the pipeline when it has something,
provided that its last answer was that it has nothing yet; so it is to be shown of the last round
that they were asked, and that this was what they answered. The windows under way answer so only if
none of them can go on, or when as many goes were given as there are windows not done, and then the
pipeline is called for the rest.

A round without an answer takes the result of a window, which was under way before the question or
was taken during it. So there are no more such rounds than there are windows.
-/
import Collate.Proofs.Pipeline.Record

set_option autoImplicit false

namespace Collate

namespace Pipeline

variable {ω τ ε γ σ : Type}

/-! ## 1. Questions that come to an answer -/

/-- A question comes to this answer, in rounds with these records. -/
inductive Comes (around : Surroundings ω τ ε γ σ) :
    Pipeline τ ε γ → σ → List (List (Moment ω τ ε γ)) → Pull (Except ε γ) →
    Pipeline τ ε γ → σ → Prop where
  /-- The round gives the answer. -/
  | answered {p p' : Pipeline τ ε γ} {s s' : σ} {answer : Pull (Except ε γ)}
      (h : round around p s = (some answer, p', s')) :
      Comes around p s [roundRecord around p s] answer p' s'
  /-- The round leaves the question open. -/
  | again {p p₁ p' : Pipeline τ ε γ} {s s₁ s' : σ} {records : List (List (Moment ω τ ε γ))}
      {answer : Pull (Except ε γ)} (h : round around p s = (none, p₁, s₁))
      (hrest : Comes around p₁ s₁ records answer p' s') :
      Comes around p s (roundRecord around p s :: records) answer p' s'

/-- What the input answered, in order. -/
def inputAnswers (record : List (Moment ω τ ε γ)) : List (Pull ω) :=
  record.filterMap fun
    | (.asked answer, _) => some answer
    | _ => none

/-- Windows were let go on, none of which was done, until none could or so many goes were given. -/
inductive Stalls : Nat → List (Moment ω τ ε γ) → Prop where
  | idle (goes : Nat) (p : Pipeline τ ε γ) : Stalls goes [(.idle, p)]
  | spent : Stalls 0 []
  | waits {goes : Nat} {rest : List (Moment ω τ ε γ)} (place : Nat) (p : Pipeline τ ε γ)
      (h : Stalls goes rest) : Stalls (goes + 1) ((.advanced place false, p) :: rest)

/-- The windows under way were asked last and have nothing now: a sweep over all that are not done
ended without one more that is. -/
def Unready (record : List (Moment ω τ ε γ)) (p : Pipeline τ ε γ) : Prop :=
  ∃ front sweep, record = front ++ (sweep ++ [(.drove .pending, p)])
    ∧ Stalls (works p.inFlight).length sweep

/-! ## 2. What is asked in a round -/

section Rounds

variable {around : Surroundings ω τ ε γ σ} {p p' : Pipeline τ ε γ} {s s' : σ}
  {flights flights' : List (Flight τ ε γ)}

@[simp] theorem inputAnswers_asked (answer : Pull ω) (p : Pipeline τ ε γ)
    (rest : List (Moment ω τ ε γ)) :
    inputAnswers ((.asked answer, p) :: rest) = answer :: inputAnswers rest := rfl

theorem inputAnswers_append (xs ys : List (Moment ω τ ε γ)) :
    inputAnswers (xs ++ ys) = inputAnswers xs ++ inputAnswers ys := List.filterMap_append ..

/-- Windows are taken as long as there is room, unless the input has ended or has nothing now. -/
theorem refill_spare (room : Nat) (h : refill around room p s = (p', s'))
    (hgoing : p'.inputEnded = false) (hspare : p'.inFlight.length < p.inFlight.length + room) :
    (inputAnswers (refillRecord around room p s)).getLast? = some .pending := by
  induction room generalizing p s with
  | zero =>
    cases h
    exact absurd hspare (Nat.lt_irrefl _)
  | succ room ih =>
    by_cases hended : p.inputEnded = true
    · rw [refill, if_pos hended] at h
      cases h
      rw [hended] at hgoing
      cases hgoing
    · rw [refill, if_neg hended] at h
      rw [refillRecord, if_neg hended]
      rcases hpull : around.pull s with ⟨window | _ | _, s₁⟩
      · rcases hlaunch : around.launch window s₁ with ⟨work, s₂⟩
        simp only [hpull, hlaunch] at h ⊢
        have hlast := ih h (by rw [List.length_append, List.length_singleton]; omega)
        rw [inputAnswers_asked, List.getLast?_cons, hlast]
        rfl
      · rw [hpull] at h
        cases h
        cases hgoing
      · rfl

theorem works_length_le (flights : List (Flight τ ε γ)) :
    (works flights).length ≤ flights.length := by
  induction flights with
  | nil => exact Nat.le_refl _
  | cons flight rest ih =>
    cases flight with
    | running work => exact Nat.succ_le_succ ih
    | landed result => exact Nat.le_succ_of_le ih

/-- A window that is done after a go is one less to be let go on. -/
theorem advanceNth_works {n : Nat} {done : Bool}
    (h : advanceNth around n flights s = (done, flights', s')) :
    (works flights').length + (if done then 1 else 0) = (works flights).length := by
  rcases advanceNth_cases around n flights s with
    ⟨fore, work, aft, work', s₁, rfl, hadvance⟩ | ⟨fore, work, aft, result, s₁, rfl, hadvance⟩ |
    hadvance
  all_goals
    rw [hadvance] at h
    cases h
    simp [works]
  omega

/-- A sweep that leaves no window done has given as many goes as it could. -/
theorem sweep_stalls (goes : Nat) (h : sweep around goes p.inFlight s = (false, flights', s')) :
    Stalls goes (sweepRecord around goes p s)
      ∧ (works flights').length = (works p.inFlight).length := by
  induction goes generalizing p s with
  | zero =>
    cases h
    exact ⟨.spent, rfl⟩
  | succ goes ih =>
    rcases hnext : around.next (works p.inFlight) s with ⟨_ | n, s₁⟩
    · simp only [sweep, sweepRecord, hnext] at h ⊢
      cases h
      exact ⟨.idle _ _, rfl⟩
    · rcases hadvance : advanceNth around n p.inFlight s₁ with ⟨_ | _, flights₂, s₂⟩
      · simp only [sweep, sweepRecord, hnext, hadvance] at h ⊢
        have hworks := advanceNth_works hadvance
        obtain ⟨hstalls, hlen⟩ := @ih { p with inFlight := flights₂ } s₂ h
        exact ⟨.waits n _ hstalls, hlen.trans hworks⟩
      · simp only [sweep, hnext, hadvance] at h
        cases h

/-- A sweep that leaves a window done leaves one less to be let go on. -/
theorem sweep_done (goes : Nat) (h : sweep around goes flights s = (true, flights', s')) :
    (works flights').length + 1 = (works flights).length := by
  induction goes generalizing flights s with
  | zero => cases h
  | succ goes ih =>
    rcases hnext : around.next (works flights) s with ⟨_ | n, s₁⟩
    · simp only [sweep, hnext] at h
      cases h
    · rcases hadvance : advanceNth around n flights s₁ with ⟨_ | _, flights₂, s₂⟩
      · simp only [sweep, hnext, hadvance] at h
        have hworks := advanceNth_works hadvance
        exact (ih h).trans hworks
      · simp only [sweep, hnext, hadvance] at h
        cases h
        exact advanceNth_works hadvance

/-- If the first window is not done in the end, the last sweep left no window done. There are sweeps
enough, for each but the last one leaves a window done. -/
theorem drive_stalls (sweeps : Nat) (hsweeps : (works p.inFlight).length < sweeps) {work : τ}
    {rest : List (Flight τ ε γ)}
    (h : drive around sweeps p.inFlight s = (.running work :: rest, s')) :
    ∃ front sweep, driveRecord around sweeps p s = front ++ sweep
      ∧ Stalls (works (.running work :: rest : List (Flight τ ε γ))).length sweep := by
  induction sweeps generalizing p s with
  | zero => exact absurd hsweeps (Nat.not_lt_zero _)
  | succ sweeps ih =>
    obtain ⟨limit, flights, outputs, inputEnded⟩ := p
    rcases flights with _ | ⟨first | result, others⟩
    · simp only [drive] at h
      cases h
    · simp only [drive, driveRecord] at h ⊢
      rcases hsweep : sweep around (works (.running first :: others)).length
          (.running first :: others) s with ⟨_ | _, flights₁, s₁⟩
      · rw [hsweep] at h
        cases h
        obtain ⟨hstalls, hlen⟩ :=
          @sweep_stalls _ _ _ _ _ around ⟨limit, .running first :: others, outputs, inputEnded⟩
            _ _ _ _ hsweep
        rw [hlen]
        exact ⟨[], _, List.append_nil _, hstalls⟩
      · rw [hsweep] at h
        have hless : (works flights₁).length < sweeps := by
          have hmany : (works (.running first :: others : List (Flight τ ε γ))).length < sweeps + 1 :=
            hsweeps
          have hdone := sweep_done _ hsweep
          omega
        obtain ⟨front, last, hdrive, hstalls⟩ :=
          @ih ⟨limit, flights₁, outputs, inputEnded⟩ s₁ hless h
        exact ⟨_, last, (congrArg (_ ++ ·) hdrive).trans (List.append_assoc ..).symm, hstalls⟩
    · simp only [drive] at h
      cases h

theorem sweep_length (around : Surroundings ω τ ε γ σ) (goes : Nat) (flights : List (Flight τ ε γ))
    (s : σ) : (sweep around goes flights s).2.1.length = flights.length := by
  induction goes generalizing flights s with
  | zero => rfl
  | succ goes ih =>
    rw [sweep]
    rcases around.next (works flights) s with ⟨_ | n, s₁⟩
    · rfl
    · have hlen := advanceNth_length around n flights s₁
      rcases hadvance : advanceNth around n flights s₁ with ⟨_ | _, flights₂, s₂⟩
      · rw [hadvance] at hlen
        simp only [hadvance]
        exact (ih flights₂ s₂).trans hlen
      · rw [hadvance] at hlen
        simp only [hadvance]
        exact hlen

theorem drive_length (around : Surroundings ω τ ε γ σ) (sweeps : Nat)
    (flights : List (Flight τ ε γ)) (s : σ) :
    (drive around sweeps flights s).1.length = flights.length := by
  induction sweeps generalizing flights s with
  | zero => rfl
  | succ sweeps ih =>
    rcases flights with _ | ⟨work | result, others⟩
    · rfl
    · have hlen := sweep_length around (works (.running work :: others)).length
        (.running work :: others) s
      rw [drive]
      rcases hsweep : sweep around (works (.running work :: others)).length (.running work :: others) s
        with ⟨_ | _, flights₁, s₁⟩
      · rw [hsweep] at hlen
        exact hlen
      · rw [hsweep] at hlen
        exact (ih flights₁ s₁).trans hlen
    · rfl

/-- Taking windows takes none away. -/
theorem refill_length (around : Surroundings ω τ ε γ σ) (room : Nat) (p : Pipeline τ ε γ) (s : σ) :
    p.inFlight.length ≤ (refill around room p s).1.inFlight.length := by
  induction room generalizing p s with
  | zero => exact Nat.le_refl _
  | succ room ih =>
    by_cases hended : p.inputEnded = true
    · rw [refill, if_pos hended]
    · rw [refill, if_neg hended]
      rcases around.pull s with ⟨window | _ | _, s₁⟩
      · rcases hlaunch : around.launch window s₁ with ⟨work, s₂⟩
        simp only [hlaunch]
        have hlen := ih { p with inFlight := p.inFlight ++ [.running work] } s₂
        exact Nat.le_trans (by simp) hlen
      · exact Nat.le_refl _
      · exact Nat.le_refl _

/-- Only taking windows asks the input. -/
theorem inputAnswers_sweepRecord (around : Surroundings ω τ ε γ σ) (goes : Nat)
    (p : Pipeline τ ε γ) (s : σ) : inputAnswers (sweepRecord around goes p s) = [] := by
  induction goes generalizing p s with
  | zero => rfl
  | succ goes ih =>
    rw [sweepRecord]
    rcases around.next (works p.inFlight) s with ⟨_ | n, s₁⟩
    · rfl
    · rcases hadvance : advanceNth around n p.inFlight s₁ with ⟨_ | _, flights₂, s₂⟩
      · simp only [hadvance]
        exact ih _ s₂
      · simp only [hadvance]
        rfl

theorem inputAnswers_driveRecord (around : Surroundings ω τ ε γ σ) (sweeps : Nat)
    (p : Pipeline τ ε γ) (s : σ) : inputAnswers (driveRecord around sweeps p s) = [] := by
  induction sweeps generalizing p s with
  | zero => rfl
  | succ sweeps ih =>
    obtain ⟨limit, flights, outputs, inputEnded⟩ := p
    rcases flights with _ | ⟨work | result, others⟩
    · rfl
    · simp only [driveRecord]
      rw [inputAnswers_append, inputAnswers_sweepRecord, List.nil_append]
      rcases sweep around (works (.running work :: others)).length (.running work :: others) s
        with ⟨_ | _, flights₁, s₁⟩
      · rfl
      · exact ih _ s₁
    · rfl

theorem inputAnswers_resultRecord (around : Surroundings ω τ ε γ σ) (p : Pipeline τ ε γ) (s : σ) :
    inputAnswers (resultRecord around p s) = [] := by
  rw [resultRecord, inputAnswers_append, inputAnswers_driveRecord, List.nil_append]
  split <;> rfl

/-- A round without an answer takes a result. -/
theorem round_none (h : round around p s = (none, p', s')) :
    1 ≤ unloaded (roundRecord around p s) := by
  rcases hrefill : refill around (p.limit - p.inFlight.length) p s with ⟨p₁, s₁⟩
  simp only [round, roundRecord, hrefill] at h ⊢
  rcases hout : p₁.outputs with _ | ⟨aggregate, rest⟩
  · rcases hdrive : drive around (p₁.inFlight.length + 1) p₁.inFlight s₁ with
      ⟨_ | ⟨work | e | aggregates, others⟩, s₂⟩
    · simp [hout, hdrive] at h
    · simp [hout, hdrive] at h
    · simp [hout, hdrive] at h
    · simp only [resultRecord, hdrive, unloaded, List.countP_append, List.countP_singleton,
        Event.brings?, Option.isSome_some, if_true]
      omega
  · simp [hout] at h

/-- **A round that has nothing to hand out.** The windows under way were asked last and have nothing
now, or there is none and the input has not ended; and if there is room for another window, the input
was asked and has nothing now, unless it has ended. -/
theorem round_pending (h : round around p s = (some .pending, p', s')) :
    (p'.inFlight ≠ [] ∧ Unready (roundRecord around p s) p'
      ∨ p'.inFlight = [] ∧ p'.inputEnded = false)
    ∧ (p'.inFlight.length < p'.limit → p'.inputEnded = false →
      (inputAnswers (roundRecord around p s)).getLast? = some .pending) := by
  have hmore := refill_length around (p.limit - p.inFlight.length) p s
  obtain ⟨htaken, hstands⟩ := refillRecord_moves around (p.limit - p.inFlight.length) p s (by omega)
  have hlimit := htaken.limit
  rcases hrefill : refill around (p.limit - p.inFlight.length) p s with ⟨p₁, s₁⟩
  rw [hrefill] at hmore hstands
  rw [hstands] at hlimit
  -- Room that is left over now was left over when windows were taken.
  have hasked : p₁.inFlight.length < p₁.limit → p₁.inputEnded = false →
      (inputAnswers (refillRecord around (p.limit - p.inFlight.length) p s)).getLast?
        = some .pending := by
    intro hspare hgoing
    exact refill_spare _ hrefill hgoing (by simp only at hmore hlimit; omega)
  simp only [round, roundRecord, hrefill] at h ⊢
  rcases hout : p₁.outputs with _ | ⟨aggregate, rest⟩
  · have hlen := drive_length around (p₁.inFlight.length + 1) p₁.inFlight s₁
    simp only [hout] at h ⊢
    rw [inputAnswers_append, inputAnswers_resultRecord, List.append_nil]
    rcases hdrive : drive around (p₁.inFlight.length + 1) p₁.inFlight s₁ with
      ⟨_ | ⟨work | e | aggregates, others⟩, s₂⟩
    · rw [hdrive] at h hlen
      by_cases hended : p₁.inputEnded = true
      · simp [hended] at h
      · simp only [if_neg hended] at h
        cases h
        refine ⟨Or.inr ⟨rfl, Bool.eq_false_iff.2 hended⟩, fun hspare hgoing => ?_⟩
        exact hasked (hlen ▸ hspare) hgoing
    · rw [hdrive] at h hlen
      cases h
      obtain ⟨front, sweep, hrecord, hstalls⟩ :=
        drive_stalls (p₁.inFlight.length + 1) (Nat.lt_succ_of_le (works_length_le _)) hdrive
      refine ⟨Or.inl ⟨List.cons_ne_nil _ _, ?_⟩, fun hspare hgoing => ?_⟩
      · refine ⟨refillRecord around (p.limit - p.inFlight.length) p s ++ front, sweep, ?_, hstalls⟩
        simp only [resultRecord, hdrive, hrecord, List.append_assoc, hout]
      · exact hasked (hlen ▸ hspare) hgoing
    · simp [hdrive] at h
    · simp [hdrive] at h
  · simp [hout] at h

end Rounds

section Questions

variable {around : Surroundings ω τ ε γ σ} {p p' p₁ : Pipeline τ ε γ} {s s' s₁ : σ}
  {records : List (List (Moment ω τ ε γ))} {answer : Pull (Except ε γ)}

/-- More rounds than a question takes change nothing. -/
theorem Comes.poll_eq (h : Comes around p s records answer p' s') {rounds : Nat}
    (hrounds : records.length ≤ rounds) : poll around rounds p s = (answer, p', s') := by
  induction h generalizing rounds with
  | answered h =>
    obtain ⟨rounds, rfl⟩ := Nat.exists_eq_add_of_le' hrounds
    rw [List.length_singleton, poll, h]
  | again h _ ih =>
    obtain ⟨rounds, rfl⟩ := Nat.exists_eq_add_of_le' hrounds
    rw [List.length_cons, ← Nat.add_assoc, poll, h]
    exact ih (Nat.le_add_left _ _)

/-- Either a question comes to an answer in time, or each round took a result. -/
theorem comes_or_open (around : Surroundings ω τ ε γ σ) (rounds : Nat) (p : Pipeline τ ε γ) (s : σ) :
    (∃ records answer p' s', Comes around p s records answer p' s' ∧ records.length ≤ rounds)
    ∨ rounds ≤ unloaded (pollRecords around rounds p s).flatten := by
  induction rounds generalizing p s with
  | zero => exact Or.inr (Nat.zero_le _)
  | succ rounds ih =>
    rcases hround : round around p s with ⟨_ | answer, p₁, s₁⟩
    · rcases ih p₁ s₁ with ⟨records, answer, p', s', hcomes, hlen⟩ | hopen
      · exact Or.inl ⟨_, answer, p', s', .again hround hcomes, Nat.succ_le_succ hlen⟩
      · refine Or.inr ?_
        have hone := round_none hround
        simp only [pollRecords, hround, List.flatten_cons, unloaded, List.countP_append]
          at hone hopen ⊢
        omega
    · exact Or.inl ⟨_, answer, p₁, s₁, .answered hround, Nat.succ_le_succ (Nat.zero_le _)⟩

theorem Comes.limit (h : Comes around p s records answer p' s') : p'.limit = p.limit := by
  have hround : ∀ {p p' : Pipeline τ ε γ} {s s' : σ} {given : Option (Pull (Except ε γ))},
      round around p s = (given, p', s') → p'.limit = p.limit := by
    intro p p' s s' given h
    obtain ⟨hmoves, hstands⟩ := roundRecord_moves around p s
    rw [h] at hstands
    rw [← hmoves.limit, hstands]
  induction h with
  | answered h => exact hround h
  | again h _ ih => exact ih.trans (hround h)

/-- A question that comes to an answer ends with the round that gave it. -/
theorem Comes.last (h : Comes around p s records answer p' s') :
    ∃ earlier p₁ s₁, records = earlier ++ [roundRecord around p₁ s₁]
      ∧ round around p₁ s₁ = (some answer, p', s') := by
  induction h with
  | answered h => exact ⟨[], _, _, rfl, h⟩
  | again h _ ih =>
    obtain ⟨earlier, p₁, s₁, rfl, hround⟩ := ih
    exact ⟨_ :: earlier, p₁, s₁, rfl, hround⟩

end Questions

/-- **No question is forgotten and none goes on for ever.** However the pipeline has come to stand as
it does, and whatever the input and the works do:

If it answers that it has nothing yet, then in its last round the windows under way were asked after
everything else and had nothing, all of them that can go on having been let go on; or there is none,
and the input, which has not ended, had nothing. And whenever there is room for a window and the
input has not ended, the input was asked in that round and had nothing yet. So each of those that
the pipeline waits for calls it.

If no more than some number of windows are still to come, it answers after at most as many rounds as
there are windows to come and under way, and one more. -/
theorem never_left_waiting (around : Surroundings ω τ ε γ σ) (maxConcurrent : Nat)
    {past : List (Moment ω τ ε γ)} {p : Pipeline τ ε γ} {s : σ}
    (h : History around (start maxConcurrent) past p s) :
    (∀ records p' s', Comes around p s records .pending p' s' →
      ∃ earlier last, records = earlier ++ [last]
        ∧ (p'.inFlight ≠ [] ∧ Unready last p'
          ∨ p'.inFlight = [] ∧ p'.inputEnded = false
            ∧ (inputAnswers last).getLast? = some .pending)
        ∧ (p'.inFlight.length < p'.limit → p'.inputEnded = false →
          (inputAnswers last).getLast? = some .pending))
    ∧ ∀ toCome, (∀ rounds, taken (pollRecords around rounds p s).flatten ≤ toCome) →
      ∃ records answer p' s', Comes around p s records answer p' s'
        ∧ records.length ≤ toCome + p.inFlight.length + 1
        ∧ ∀ rounds, records.length ≤ rounds → poll around rounds p s = (answer, p', s') := by
  refine ⟨fun records p' s' hcomes => ?_, fun toCome hfew => ?_⟩
  · obtain ⟨earlier, p₁, s₁, rfl, hround⟩ := hcomes.last
    obtain ⟨hwaits, hasked⟩ := round_pending hround
    refine ⟨earlier, _, rfl, ?_, hasked⟩
    rcases hwaits with hunready | ⟨hnone, hgoing⟩
    · exact Or.inl hunready
    · refine Or.inr ⟨hnone, hgoing, hasked ?_ hgoing⟩
      -- There is always room for one window.
      obtain ⟨hmoves, rfl⟩ := h.moves
      rw [hnone, List.length_nil, hcomes.limit, hmoves.limit]
      exact Nat.lt_of_lt_of_le Nat.one_pos (Nat.le_max_right _ _)
  · rcases comes_or_open around (toCome + p.inFlight.length + 1) p s with
      ⟨records, answer, p', s', hcomes, hlen⟩ | hopen
    · exact ⟨records, answer, p', s', hcomes, hlen, fun rounds => hcomes.poll_eq⟩
    · -- Every round would have taken a result of a window that is not there.
      obtain ⟨hmoves, -⟩ := pollRecords_moves around (toCome + p.inFlight.length + 1) p s
      have hbalance := hmoves.balance
      have htaken := hfew (toCome + p.inFlight.length + 1)
      omega

/-- Two windows, the second of which is not there yet. The first one was taken, had its go and is not
done, and the input, which has room to give another, was asked for it. As one window is to come and
none is under way, two rounds are enough. -/
theorem never_left_waiting_relay : ∃ last p s,
    Comes relay (start 2) [(0, 2), (1, 0)] [last] .pending p s ∧ p.inFlight.length = 1
      ∧ Unready last p ∧ (inputAnswers last).getLast? = some .pending
      ∧ (∀ rounds, taken (pollRecords relay rounds (start 2) [(0, 2), (1, 0)]).flatten ≤ 1)
      ∧ ∃ records answer p' s', Comes relay (start 2) [(0, 2), (1, 0)] records answer p' s'
        ∧ records.length ≤ 1 + 0 + 1 := by
  have hbegins : History relay (start 2) [] (start 2) [(0, 2), (1, 0)] := .begins _
  obtain ⟨hpending, hfew⟩ := never_left_waiting relay 2 hbegins
  have hcomes : Comes relay (start 2) [(0, 2), (1, 0)]
      [roundRecord relay (start 2) [(0, 2), (1, 0)]] .pending _ _ := .answered rfl
  obtain ⟨earlier, last, hlast, hwaits, hasked⟩ := hpending _ _ _ hcomes
  have htaken : ∀ rounds,
      taken (pollRecords relay rounds (start 2) [(0, 2), (1, 0)]).flatten ≤ 1 := by
    intro rounds
    cases rounds with
    | zero => exact Nat.zero_le 1
    | succ rounds => exact Nat.le_refl 1
  obtain ⟨records, answer, p', s', hcomes', hlen, -⟩ := hfew 1 htaken
  obtain ⟨rfl, rfl⟩ : earlier = [] ∧ last = roundRecord relay (start 2) [(0, 2), (1, 0)] := by
    obtain ⟨hnone, hone⟩ := List.append_inj' (show [] ++ _ = earlier ++ [last] from hlast) rfl
    exact ⟨hnone.symm, (List.singleton_inj.1 hone).symm⟩
  rcases hwaits with ⟨-, hunready⟩ | ⟨hnone, -⟩
  · exact ⟨_, _, _, hcomes, rfl, hunready, hasked (by decide) rfl, htaken, records, answer, p', s',
      hcomes', hlen⟩
  · cases hnone

end Pipeline

end Collate
