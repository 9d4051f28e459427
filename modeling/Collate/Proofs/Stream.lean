/-
Windows of parents that arrive over time.

Parents are gathered from an inlet whose items become available at certain times. Asked for a window,
the stream hands out what it has gathered, or it ends, or it has nothing now; and then a moment still
to come is known at which it may have more, unless all parents were taken and the inlet never ends.
Parents weigh more before they are gathered than afterwards, and a window that is handed out weighs
more than the work on it.
-/
import Collate.Assembly
import Collate.Proofs.Gathering

set_option autoImplicit false

namespace Collate

variable {τ π : Type}

/-! ## 1. Timed inlets -/

namespace Inlet

/-- When an inlet was first asked, if it is asked now. -/
def begun (since : Option Nat) (now : Nat) : Nat := since.getD now

/-- What asking a timed inlet leads to. -/
theorem pull_timed (items : List (Nat × τ)) (endsAt since waits : Option Nat) (now turn : Nat) :
    (∃ due x rest, items = (due, x) :: rest ∧ (timed items endsAt since waits).pull now turn
        = (.item x, .timed rest endsAt (some (begun since now)) none))
    ∨ (items = [] ∧ endsAt.isSome = true ∧ (timed items endsAt since waits).pull now turn
        = (.ended, .timed [] endsAt (some (begun since now)) none))
    ∨ ∃ waits', (timed items endsAt since waits).pull now turn
        = (.pending, .timed items endsAt (some (begun since now)) waits')
      ∧ (items = [] ∧ endsAt = none ∨ ∃ due, now < due
        ∧ (timed items endsAt (some (begun since now)) waits').wakesAt = some due) := by
  rcases items with _ | ⟨⟨due, x⟩, rest⟩
  · rcases endsAt with _ | due
    · exact Or.inr (Or.inr ⟨_, rfl, Or.inl ⟨rfl, rfl⟩⟩)
    · by_cases hdue : begun since now + due ≤ now
      · refine Or.inr (Or.inl ⟨rfl, rfl, ?_⟩)
        simp only [pull]
        exact if_pos hdue
      · refine Or.inr (Or.inr ⟨waits.or (some turn), ?_, Or.inr ⟨_, Nat.lt_of_not_le hdue, rfl⟩⟩)
        simp only [pull]
        exact if_neg hdue
  · by_cases hdue : begun since now + due ≤ now
    · refine Or.inl ⟨due, x, rest, rfl, ?_⟩
      simp only [pull]
      exact if_pos hdue
    · refine Or.inr (Or.inr ⟨waits.or (some turn), ?_, Or.inr ⟨_, Nat.lt_of_not_le hdue, rfl⟩⟩)
      simp only [pull]
      exact if_neg hdue

end Inlet

/-! ## 2. Filling a window -/

namespace Collector

variable {c c' : Collector τ} {now turn room : Nat} {items : List (Nat × τ)}
  {endsAt since waits : Option Nat} {inlet' : Inlet τ}

/-- Whatever a timed inlet is asked for, it stays one, with no more items than before. -/
theorem fill_timed (c : Collector τ) (now turn room : Nat) (items : List (Nat × τ))
    (endsAt since waits : Option Nat) :
    ∃ items' since' waits', (c.fill now turn room (.timed items endsAt since waits)).2.2
        = .timed items' endsAt since' waits'
      ∧ items'.length ≤ items.length ∧ (since.isSome = true → since'.isSome = true) := by
  induction room generalizing c items since waits with
  | zero => exact ⟨items, since, waits, rfl, Nat.le_refl _, id⟩
  | succ room ih =>
    rcases Inlet.pull_timed items endsAt since waits now turn with
      ⟨due, x, rest, rfl, hpull⟩ | ⟨rfl, _, hpull⟩ | ⟨waits', hpull, _⟩
    · obtain ⟨items', since', waits', hfill, hlen, hsome⟩ :=
        ih (c.push x now) rest (some (Inlet.begun since now)) none
      refine ⟨items', since', waits', by rw [fill, hpull]; exact hfill,
        Nat.le_succ_of_le hlen, fun _ => hsome rfl⟩
    · refine ⟨[], some (Inlet.begun since now), none, ?_, Nat.le_refl _, fun _ => rfl⟩
      simp only [fill, hpull]
      split <;> rfl
    · refine ⟨items, some (Inlet.begun since now), waits', ?_, Nat.le_refl _, fun _ => rfl⟩
      simp only [fill, hpull]
      split <;> rfl

/-- A stream ends when nothing is gathered and the inlet ends. -/
theorem fill_ended
    (h : c.fill now turn room (.timed items endsAt since waits) = (.ended, c', inlet')) :
    c.buffer = [] ∧ items = [] ∧ endsAt.isSome = true ∧ c' = c
      ∧ inlet' = .timed [] endsAt (some (Inlet.begun since now)) none := by
  induction room generalizing c items since waits with
  | zero =>
    rw [fill] at h
    cases h
  | succ room ih =>
    rcases Inlet.pull_timed items endsAt since waits now turn with
      ⟨due, x, rest, rfl, hpull⟩ | ⟨rfl, hsome, hpull⟩ | ⟨waits', hpull, _⟩
    · rw [fill, hpull] at h
      have hbuffer : c.buffer ++ [x] = [] := (ih h).1
      simp at hbuffer
    · simp only [fill, hpull] at h
      split at h
      · rename_i hempty
        cases h
        exact ⟨List.isEmpty_iff.1 hempty, rfl, hsome, rfl, rfl⟩
      · cases h
    · simp only [fill, hpull] at h
      split at h <;> cases h

/-- A stream that has nothing now has gathered something, or is as it was; and it knows when to be
asked again, or nothing is left. -/
theorem fill_pending
    (h : c.fill now turn room (.timed items endsAt since waits) = (.pending, c', inlet')) :
    ∃ items' waits', inlet' = .timed items' endsAt (some (Inlet.begun since now)) waits'
      ∧ (items'.length < items.length ∨ items' = items ∧ c' = c.waitFrom turn)
      ∧ ((∃ due, now < due ∧ (inlet'.wakesAt = some due ∨ c'.wakesAt = some due))
        ∨ c'.buffer = [] ∧ items' = [] ∧ endsAt = none) := by
  induction room generalizing c items since waits with
  | zero =>
    rw [fill] at h
    cases h
  | succ room ih =>
    rcases Inlet.pull_timed items endsAt since waits now turn with
      ⟨due, x, rest, rfl, hpull⟩ | ⟨rfl, hsome, hpull⟩ | ⟨waits', hpull, hwakes⟩
    · rw [fill, hpull] at h
      obtain ⟨items', waits', hinlet, hless, hknown⟩ := ih h
      refine ⟨items', waits', hinlet, Or.inl ?_, hknown⟩
      rw [List.length_cons]
      rcases hless with hless | ⟨rfl, _⟩
      · exact Nat.lt_succ_of_lt hless
      · exact Nat.lt_succ_self _
    · simp only [fill, hpull] at h
      split at h <;> cases h
    · simp only [fill, hpull] at h
      split at h
      · cases h
      · rename_i hopen
        cases h
        refine ⟨items, waits', rfl, Or.inr ⟨rfl, rfl⟩, ?_⟩
        rcases hwakes with ⟨hitems, hends⟩ | ⟨due, hdue, hwakes⟩
        · by_cases hbuffer : c.buffer = []
          · exact Or.inr ⟨by rw [buffer_waitFrom]; exact hbuffer, hitems, hends⟩
          · refine Or.inl ⟨c.deadline, ?_, Or.inr ?_⟩
            · simpa [hbuffer] using hopen
            · simp [waitFrom, wakesAt, hbuffer]
        · exact Or.inl ⟨due, hdue, Or.inl hwakes⟩

end Collector

/-! ## 3. Streams of windows -/

namespace WindowStream

/-- Parents are gathered from a timed inlet into windows that are not empty. -/
def Timed (endsAt : Option Nat) : WindowStream π → Prop
  | .gathered c (.timed _ ends _ _) => c.size ≠ 0 ∧ ends = endsAt
  | _ => False

/-- The parents still to come, those gathered in front. -/
def parents : WindowStream π → List π
  | .given inlet => inlet.payload.flatten
  | .gathered c inlet => c.buffer ++ inlet.payload

/-- When the stream may have something to say. -/
def moments : WindowStream π → List Nat
  | .given inlet => inlet.wakesAt.toList
  | .gathered c inlet => inlet.wakesAt.toList ++ c.wakesAt.toList

/-- How much there is to do for the parents still to come, if a window can be worked on in `load`. -/
def weight (load : Nat) : WindowStream π → Nat
  | .gathered c (.timed items _ since _) =>
    items.length * (load + 2) + c.buffer.length * (load + 1) + if since.isSome then 0 else 1
  | _ => 0

variable {endsAt : Option Nat} {stream stream' : WindowStream π} {now turn : Nat}

theorem Timed.cases (h : stream.Timed endsAt) : ∃ c items since waits,
    stream = .gathered c (.timed items endsAt since waits) ∧ c.size ≠ 0 := by
  unfold Timed at h
  split at h
  · obtain ⟨hsize, rfl⟩ := h
    exact ⟨_, _, _, _, rfl, hsize⟩
  · cases h

/-- A window that is handed out takes its parents from the front, and the work on it weighs less than
they did. -/
theorem pull_item (load : Nat) {window : List π} (ht : stream.Timed endsAt)
    (h : stream.pull now turn = (.item window, stream')) :
    stream'.Timed endsAt ∧ window ≠ [] ∧ window ++ stream'.parents = stream.parents
      ∧ stream'.weight load + load < stream.weight load := by
  obtain ⟨c, items, since, waits, rfl, hsize⟩ := ht.cases
  have hc := c.pull_conserves (.timed items endsAt since waits) now turn
  obtain ⟨items', since', waits', hinlet, hlen, hsome⟩ :=
    c.fill_timed now turn (c.size - c.buffer.length) items endsAt since waits
  rcases hpull : c.pull (.timed items endsAt since waits) now turn with ⟨answer, c', inlet'⟩
  rw [hpull] at hc
  rw [← Collector.pull, hpull] at hinlet
  obtain rfl : inlet' = _ := hinlet
  simp only [pull, hpull] at h
  cases h
  have hitem := Collector.pull_item hsize (congrArg Prod.fst hpull)
  rw [hpull] at hitem
  obtain ⟨hwindow, hbuffer⟩ := hitem
  have hbuffer' : c'.buffer = [] := hbuffer
  have hparents : window ++ (c'.buffer ++ (Inlet.timed items' endsAt since' waits').payload)
      = c.buffer ++ (Inlet.timed items endsAt since waits).payload := hc.items
  refine ⟨⟨hc.size ▸ hsize, rfl⟩, hwindow, hparents, ?_⟩
  have hcount : window.length + items'.length = c.buffer.length + items.length := by
    have hl := congrArg List.length hparents
    simpa [hbuffer', Inlet.payload] using hl
  have hpos : 0 < window.length := List.length_pos_iff.2 hwindow
  have hasked : (if since'.isSome then 0 else 1) ≤ if since.isSome then 0 else 1 := by
    by_cases hs : since.isSome = true
    · simp only [hs, hsome hs, if_true, Nat.le_refl]
    · rw [if_neg hs]
      split <;> omega
  -- What left the inlet and what left the buffer make up the window.
  obtain ⟨taken, htaken⟩ := Nat.exists_eq_add_of_le hlen
  have hone : load + 1 ≤ (taken + c.buffer.length) * (load + 1) :=
    Nat.le_mul_of_pos_left _ (by omega)
  simp only [weight, hbuffer', List.length_nil, Nat.zero_mul, htaken, Nat.add_mul] at hone ⊢
  have hextra : taken * (load + 2) = taken * (load + 1) + taken := by
    rw [← Nat.mul_succ]
  omega

/-- A stream that ends has nothing left. -/
theorem pull_ended (load : Nat) (ht : stream.Timed endsAt)
    (h : stream.pull now turn = (.ended, stream')) :
    stream'.Timed endsAt ∧ stream.parents = [] ∧ stream'.parents = [] ∧ endsAt.isSome = true
      ∧ (stream'.weight load < stream.weight load
        ∨ stream'.weight load = stream.weight load ∧ stream'.moments = stream.moments) := by
  obtain ⟨c, items, since, waits, rfl, hsize⟩ := ht.cases
  rcases hpull : c.pull (.timed items endsAt since waits) now turn with ⟨answer, c', inlet'⟩
  simp only [pull, hpull] at h
  cases h
  obtain ⟨hbuffer, rfl, hends, rfl, rfl⟩ := Collector.fill_ended hpull
  refine ⟨⟨hsize, rfl⟩, by rw [parents, hbuffer]; rfl, by rw [parents, hbuffer]; rfl, hends, ?_⟩
  cases since with
  | none => exact Or.inl (by simp [weight])
  | some start => exact Or.inr ⟨rfl, by cases endsAt <;> rfl⟩

/-- A stream that has nothing now knows when it may have more, or nothing is left and it never
ends. -/
theorem pull_pending (load : Nat) (ht : stream.Timed endsAt)
    (h : stream.pull now turn = (.pending, stream')) :
    stream'.Timed endsAt ∧ stream'.parents = stream.parents
      ∧ (stream'.weight load < stream.weight load
        ∨ stream'.weight load = stream.weight load ∧ stream'.moments = stream.moments)
      ∧ ((∃ due ∈ stream'.moments, now < due) ∨ stream'.parents = [] ∧ endsAt = none) := by
  obtain ⟨c, items, since, waits, rfl, hsize⟩ := ht.cases
  have hc := c.pull_conserves (.timed items endsAt since waits) now turn
  rcases hpull : c.pull (.timed items endsAt since waits) now turn with ⟨answer, c', inlet'⟩
  rw [hpull] at hc
  simp only [pull, hpull] at h
  cases h
  obtain ⟨items', waits', rfl, hfurther, hknown⟩ := Collector.fill_pending hpull
  have hparents : c'.buffer ++ (Inlet.timed items' endsAt _ waits').payload
      = c.buffer ++ (Inlet.timed items endsAt since waits).payload := hc.items
  refine ⟨⟨hc.size ▸ hsize, rfl⟩, hparents, ?_, ?_⟩
  · have hcount : c'.buffer.length + items'.length = c.buffer.length + items.length := by
      have hl := congrArg List.length hparents
      simpa [Inlet.payload] using hl
    rcases hfurther with hless | ⟨rfl, rfl⟩
    · -- Each parent that was gathered weighs less than before.
      refine Or.inl ?_
      obtain ⟨taken, htaken⟩ := Nat.exists_eq_add_of_le (Nat.le_of_lt hless)
      have hbuffer : c'.buffer.length = c.buffer.length + taken := by omega
      simp only [weight, htaken, hbuffer, Option.isSome_some, if_true, Nat.add_mul]
      have hextra : taken * (load + 2) = taken * (load + 1) + taken := by
        rw [← Nat.mul_succ]
      omega
    · cases since with
      | none => exact Or.inl (by simp [weight])
      | some start =>
        refine Or.inr ⟨by simp [weight], ?_⟩
        have hwakes : (c.waitFrom turn).wakesAt = c.wakesAt := by
          unfold Collector.waitFrom Collector.wakesAt
          split
          · rfl
          · rfl
        have hinlet : (Inlet.timed items' endsAt (some start) waits').wakesAt
            = (Inlet.timed items' endsAt (some start) waits).wakesAt := by
          rcases items' with _ | ⟨⟨due, x⟩, rest⟩
          · cases endsAt <;> rfl
          · rfl
        simp only [moments, hwakes]
        exact congrArg (·.toList ++ _) hinlet
  · rcases hknown with ⟨due, hdue, hwakes | hwakes⟩ | ⟨hbuffer, rfl, hends⟩
    · exact Or.inl ⟨due, by simp [moments, hwakes], hdue⟩
    · exact Or.inl ⟨due, by simp [moments, hwakes], hdue⟩
    · exact Or.inr ⟨by rw [parents, hbuffer]; rfl, hends⟩

/-! ## 4. When to ask again -/

theorem earliest_eq_some {now due : Nat} {times : List (Option Nat)}
    (h : earliest now times = some due) : some due ∈ times ∧ now < due := by
  have hm := (List.min?_eq_some_iff.1 h).1
  obtain ⟨time, ht, hf⟩ := List.mem_filterMap.1 hm
  obtain ⟨rfl, hlt⟩ := Option.filter_eq_some_iff.1 hf
  exact ⟨ht, by simpa using hlt⟩

theorem exists_earliest {now due : Nat} {times : List (Option Nat)} (hm : some due ∈ times)
    (hlt : now < due) : ∃ first, earliest now times = some first := by
  have hmem : due ∈ times.filterMap fun time => time.filter (now < ·) :=
    List.mem_filterMap.2 ⟨some due, hm, by simp [hlt]⟩
  cases hmin : earliest now times with
  | some first => exact ⟨first, rfl⟩
  | none =>
    rw [List.min?_eq_none_iff.1 hmin] at hmem
    cases hmem

/-- The moment at which a stream is to be asked again is one of its moments. -/
theorem wakesAt_eq_some {due : Nat} (h : stream.wakesAt now = some due) :
    due ∈ stream.moments ∧ now < due := by
  cases stream with
  | given inlet =>
    obtain ⟨hm, hlt⟩ := earliest_eq_some h
    exact ⟨Option.mem_toList.2 (List.mem_singleton.1 hm).symm, hlt⟩
  | gathered c inlet =>
    obtain ⟨hm, hlt⟩ := earliest_eq_some h
    refine ⟨List.mem_append.2 ?_, hlt⟩
    rcases List.mem_cons.1 hm with hm | hm
    · exact Or.inl (Option.mem_toList.2 hm.symm)
    · exact Or.inr (Option.mem_toList.2 (List.mem_singleton.1 hm).symm)

theorem exists_wakesAt {due : Nat} (hm : due ∈ stream.moments) (hlt : now < due) :
    ∃ first, stream.wakesAt now = some first := by
  cases stream with
  | given inlet =>
    have hw : inlet.wakesAt = some due := Option.mem_toList.1 hm
    exact exists_earliest (List.mem_singleton.2 hw.symm) hlt
  | gathered c inlet =>
    rcases List.mem_append.1 hm with hm | hm
    · have hw : inlet.wakesAt = some due := Option.mem_toList.1 hm
      exact exists_earliest (List.mem_cons.2 (Or.inl hw.symm)) hlt
    · have hw : c.wakesAt = some due := Option.mem_toList.1 hm
      exact exists_earliest (List.mem_cons_of_mem _ (List.mem_singleton.2 hw.symm)) hlt

/-- No more windows are counted as remaining than there are parents. -/
theorem Timed.remaining (h : stream.Timed endsAt) : stream.remaining = stream.parents.length := by
  obtain ⟨c, items, since, waits, rfl, _⟩ := h.cases
  rw [parents, List.length_append, Inlet.payload_length]
  rfl

end WindowStream

end Collate
