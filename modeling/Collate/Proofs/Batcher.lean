/-
What is asked of a batcher, and that a collector keeps to it.

Items of a timed inlet can be taken one after the other, each when its time has come. `Batches` says
what is documented of `chunks_timeout`, answer by answer. A batcher asked for a batch takes what is
there, as far as there is room, and adds it to what it holds. It hands all of this out when there is
no more room, when the time since its first item is over, or when the items have ended; it never hands
out nothing. The items are asked for before the clock is looked at. Times are whole nanoseconds, and a
timer rings at its time.

Nothing is said of more than one answer. How answers follow each other, when items are taken and what
a whole run hands out is for `Collate.Proofs.Partition`.
-/
import Collate.Proofs.Stream

set_option autoImplicit false

namespace Collate

variable {τ : Type}

/-! ## 1. When items can be taken -/

namespace Inlet

/-- The items with the moment each can be taken from this time on: when its own time has come, and
not before the one in front of it. -/
def arrivals (now : Nat) : List (Nat × τ) → List (Nat × τ)
  | [] => []
  | (due, x) :: rest => (max now due, x) :: arrivals (max now due) rest

/-- The moment at which all items are taken and the end can be seen, if there is one. -/
def finish (endsAt : Option Nat) (now : Nat) : List (Nat × τ) → Option Nat
  | [] => endsAt.map (max now)
  | (due, _) :: rest => finish endsAt (max now due) rest

/-- The time of what comes next, an item or the end. -/
def nextDue (endsAt : Option Nat) : List (Nat × τ) → Option Nat
  | [] => endsAt
  | (due, _) :: _ => some due

/-- Items that are taken at one moment. -/
def stamp (now : Nat) (items : List (Nat × τ)) : List (Nat × τ) := items.map fun item => (now, item.2)

variable {now wake : Nat} {items got rest : List (Nat × τ)} {endsAt : Option Nat}

@[simp] theorem map_snd_arrivals (now : Nat) (items : List (Nat × τ)) :
    (arrivals now items).map Prod.snd = items.map Prod.snd := by
  induction items generalizing now with
  | nil => rfl
  | cons item rest ih => simp only [arrivals, List.map_cons, ih]

/-- Items whose time has come are taken at once. -/
theorem arrivals_append (hready : ∀ item ∈ got, item.1 ≤ now) :
    arrivals now (got ++ rest) = stamp now got ++ arrivals now rest := by
  induction got with
  | nil => rfl
  | cons item got ih =>
    obtain ⟨hitem, hgot⟩ := List.forall_mem_cons.1 hready
    rw [List.cons_append, arrivals, Nat.max_eq_left hitem, ih hgot]
    rfl

theorem finish_append (hready : ∀ item ∈ got, item.1 ≤ now) :
    finish endsAt now (got ++ rest) = finish endsAt now rest := by
  induction got with
  | nil => rfl
  | cons item got ih =>
    obtain ⟨hitem, hgot⟩ := List.forall_mem_cons.1 hready
    rw [List.cons_append, finish, Nat.max_eq_left hitem, ih hgot]

/-- As long as nothing comes, it does not matter when one began to ask. -/
theorem arrivals_eq_of_le (hle : now ≤ wake) (hnext : ∀ due ∈ nextDue endsAt items, wake ≤ due) :
    arrivals now items = arrivals wake items := by
  cases items with
  | nil => rfl
  | cons item rest =>
    have hdue : wake ≤ item.1 := hnext _ rfl
    rw [arrivals, arrivals, Nat.max_eq_right hdue, Nat.max_eq_right (Nat.le_trans hle hdue)]

theorem finish_eq_of_le (hle : now ≤ wake) (hnext : ∀ due ∈ nextDue endsAt items, wake ≤ due) :
    finish endsAt now items = finish endsAt wake items := by
  cases items with
  | nil =>
    cases endsAt with
    | none => rfl
    | some due =>
      have hdue : wake ≤ due := hnext _ rfl
      rw [finish, finish, Option.map_some, Option.map_some, Nat.max_eq_right hdue,
        Nat.max_eq_right (Nat.le_trans hle hdue)]
  | cons item rest =>
    have hdue : wake ≤ item.1 := hnext _ rfl
    rw [finish, finish, Nat.max_eq_right hdue, Nat.max_eq_right (Nat.le_trans hle hdue)]

theorem le_of_mem_arrivals {item : Nat × τ} (h : item ∈ arrivals now items) : now ≤ item.1 := by
  induction items generalizing now with
  | nil => cases h
  | cons first rest ih =>
    rw [arrivals] at h
    rcases List.mem_cons.1 h with rfl | h
    · exact Nat.le_max_left _ _
    · exact Nat.le_trans (Nat.le_max_left _ _) (ih h)

theorem le_of_mem_finish {due : Nat} (h : due ∈ finish endsAt now items) : now ≤ due := by
  induction items generalizing now with
  | nil =>
    obtain ⟨e, -, rfl⟩ := Option.map_eq_some_iff.1 h
    exact Nat.le_max_left _ _
  | cons first rest ih => exact Nat.le_trans (Nat.le_max_left _ _) (ih h)

/-- Once all is taken, the end can be seen as soon as its time has come. -/
theorem finish_over {due : Nat} (hend : endsAt = some due) (hdue : due ≤ now) :
    finish endsAt now ([] : List (Nat × τ)) = some now := by
  rw [hend, finish, Option.map_some, Nat.max_eq_left hdue]

/-- What can be taken at one moment, as far as there is room, and what is left. -/
theorem exists_ready (now room : Nat) (items : List (Nat × τ)) :
    ∃ got rest, items = got ++ rest ∧ (∀ item ∈ got, item.1 ≤ now) ∧ got.length ≤ room
      ∧ (got.length = room ∨ ∀ item ∈ rest.head?, now < item.1) := by
  induction room generalizing items with
  | zero => exact ⟨[], items, rfl, by simp, Nat.le_refl _, Or.inl rfl⟩
  | succ room ih =>
    cases items with
    | nil => exact ⟨[], [], rfl, by simp, Nat.zero_le _, Or.inr (by simp)⟩
    | cons item rest =>
      by_cases hdue : item.1 ≤ now
      · obtain ⟨got, left, rfl, hready, hlen, hmore⟩ := ih rest
        refine ⟨item :: got, left, rfl, List.forall_mem_cons.2 ⟨hdue, hready⟩,
          Nat.succ_le_succ hlen, ?_⟩
        exact hmore.imp (congrArg (· + 1)) id
      · refine ⟨[], item :: rest, rfl, by simp, Nat.zero_le _, Or.inr fun other hother => ?_⟩
        cases hother
        exact Nat.lt_of_not_le hdue

theorem lt_of_mem_arrivals (hnext : ∀ due ∈ nextDue endsAt items, now < due) {item : Nat × τ}
    (h : item ∈ arrivals now items) : now < item.1 := by
  rw [arrivals_eq_of_le (Nat.le_succ now) hnext] at h
  exact le_of_mem_arrivals h

theorem lt_of_mem_finish (hnext : ∀ due ∈ nextDue endsAt items, now < due) {due : Nat}
    (h : due ∈ finish endsAt now items) : now < due := by
  rw [finish_eq_of_le (Nat.le_succ now) hnext] at h
  exact le_of_mem_finish h

variable {since waits : Option Nat} {turn : Nat}

theorem wakesAt_timed (items : List (Nat × τ)) (endsAt waits : Option Nat) :
    (timed items endsAt (some 0) waits).wakesAt = nextDue endsAt items := by
  rcases items with _ | ⟨⟨due, x⟩, rest⟩
  · cases endsAt with
    | none => rfl
    | some due => exact congrArg some (Nat.zero_add due)
  · exact congrArg some (Nat.zero_add due)

theorem pull_ready {due : Nat} {x : τ} (hbegun : begun since now = 0) (hdue : due ≤ now) :
    (timed ((due, x) :: rest) endsAt since waits).pull now turn
      = (.item x, .timed rest endsAt (some 0) none) := by
  have hstart : since.getD now = 0 := hbegun
  simp [pull, hstart, hdue]

theorem pull_over {due : Nat} (hbegun : begun since now = 0) (hdue : due ≤ now) :
    (timed ([] : List (Nat × τ)) (some due) since waits).pull now turn
      = (.ended, .timed [] (some due) (some 0) none) := by
  have hstart : since.getD now = 0 := hbegun
  simp [pull, hstart, hdue]

theorem pull_waits (hbegun : begun since now = 0)
    (hnext : ∀ due ∈ nextDue endsAt items, now < due) :
    (timed items endsAt since waits).pull now turn
      = (.pending, .timed items endsAt (some 0) (waits.or (some turn))) := by
  have hstart : since.getD now = 0 := hbegun
  rcases items with _ | ⟨⟨due, x⟩, rest⟩
  · cases endsAt with
    | none => simp [pull, hstart]
    | some due =>
      have hdue : now < due := hnext _ rfl
      simp [pull, hstart, Nat.not_le.2 hdue]
  · have hdue : now < due := hnext _ rfl
    simp [pull, hstart, Nat.not_le.2 hdue]

end Inlet
open Inlet

/-! ## 2. What is asked of a batcher -/

namespace Batcher

/-- Of the items that are to come, some were taken now and added to those held. -/
def Took (now : Nat) (held items held' rest : List (Nat × τ)) : Prop :=
  ∃ got, items = got ++ rest ∧ (∀ item ∈ got, item.1 ≤ now) ∧ held' = held ++ stamp now got

/-- What asking leads to, by what was taken and what comes next: an answer, the items held afterwards
and the inlet that is left. -/
inductive Answers (size delay : Nat) (held : List (Nat × τ)) (now : Nat) (items : List (Nat × τ))
    (endsAt : Option Nat) : Pull (List τ) → List (Nat × τ) → Inlet τ → Prop where
  /-- As many items were taken since the last batch as may be in one. -/
  | full {held' rest : List (Nat × τ)} {since waits : Option Nat}
      (htook : Took now held items held' rest) (hlen : held'.length = size)
      (hbegun : begun since now = 0) :
      Answers size delay held now items endsAt (.item (held'.map Prod.snd)) []
        (.timed rest endsAt since waits)
  /-- Nothing comes now, and the time since the first item of the batch is over. -/
  | late {held' rest : List (Nat × τ)} {waits : Option Nat} {first : Nat × τ}
      (htook : Took now held items held' rest) (hlen : held'.length < size)
      (hnext : ∀ due ∈ nextDue endsAt rest, now < due) (hfirst : held'.head? = some first)
      (hdue : first.1 + delay ≤ now) :
      Answers size delay held now items endsAt (.item (held'.map Prod.snd)) []
        (.timed rest endsAt (some 0) waits)
  /-- The end of the items is reached. -/
  | last {held' : List (Nat × τ)} {waits : Option Nat} {due : Nat} (htook : Took now held items held' [])
      (hlen : held'.length < size) (hend : endsAt = some due) (hdue : due ≤ now) (hne : held' ≠ []) :
      Answers size delay held now items endsAt (.item (held'.map Prod.snd)) []
        (.timed [] endsAt (some 0) waits)
  /-- The end of the items is reached, and none is held. No batch is empty. -/
  | ended {waits : Option Nat} {due : Nat} (htook : Took now held items [] [])
      (hend : endsAt = some due) (hdue : due ≤ now) :
      Answers size delay held now items endsAt .ended [] (.timed [] endsAt (some 0) waits)
  /-- None of this is so yet. -/
  | waits {held' rest : List (Nat × τ)} {waits : Option Nat} (htook : Took now held items held' rest)
      (hlen : held'.length < size) (hnext : ∀ due ∈ nextDue endsAt rest, now < due)
      (hopen : ∀ first ∈ held'.head?, now < first.1 + delay) :
      Answers size delay held now items endsAt .pending held' (.timed rest endsAt (some 0) waits)

/-- What is documented of a batcher for a size, which is at least one, and a time. -/
structure Batches (b : Batcher τ) (size delay : Nat) : Prop where
  /-- There is no batch at first. -/
  start : b.Holds b.start []
  /-- The timer runs from the first item of a batch on. -/
  rings : ∀ {s : b.State} {held : List (Nat × τ)}, b.Holds s held →
    b.rings s = held.head?.map fun first => first.1 + delay
  /-- Batches are handed out in order, in one of three situations. -/
  poll : ∀ {s : b.State} {held : List (Nat × τ)} {now : Nat} {since : Option Nat}, b.Holds s held →
    held.length < size → begun since now = 0 → ∀ (items : List (Nat × τ)) (endsAt waits : Option Nat),
    ∃ answer s' held' inlet', b.poll s (.timed items endsAt since waits) now = (answer, s', inlet')
      ∧ b.Holds s' held' ∧ Answers size delay held now items endsAt answer held' inlet'

variable {size delay now : Nat} {held held' items rest : List (Nat × τ)}

theorem Took.arrivals (h : Took now held items held' rest) :
    held ++ Inlet.arrivals now items = held' ++ Inlet.arrivals now rest := by
  obtain ⟨got, rfl, hready, rfl⟩ := h
  rw [arrivals_append hready, List.append_assoc]

theorem Took.finish (h : Took now held items held' rest) (endsAt : Option Nat) :
    Inlet.finish endsAt now items = Inlet.finish endsAt now rest := by
  obtain ⟨got, rfl, hready, rfl⟩ := h
  exact finish_append hready

theorem Took.past (h : Took now held items held' rest) (hpast : ∀ item ∈ held, item.1 ≤ now) :
    ∀ item ∈ held', item.1 ≤ now := by
  obtain ⟨got, -, -, rfl⟩ := h
  intro item hitem
  rcases List.mem_append.1 hitem with hitem | hitem
  · exact hpast item hitem
  · obtain ⟨_, -, rfl⟩ := List.mem_map.1 hitem
    exact Nat.le_refl now

/-- The items taken are missing among those to come and found among those held. -/
theorem Took.lengths (h : Took now held items held' rest) :
    items.length + held.length = held'.length + rest.length ∧ rest.length ≤ items.length := by
  obtain ⟨got, rfl, -, rfl⟩ := h
  simp only [List.length_append, stamp, List.length_map]
  omega

theorem Took.eq_or_less (h : Took now held items held' rest) :
    held' = held ∧ rest = items ∨ rest.length < items.length := by
  obtain ⟨got, rfl, -, rfl⟩ := h
  cases got with
  | nil => exact Or.inl ⟨List.append_nil held, rfl⟩
  | cons item got =>
    refine Or.inr ?_
    rw [List.length_append, List.length_cons]
    omega

/-- The last of the items held was taken now if any was. -/
theorem Took.getLast (h : Took now held items held' rest) (hless : held.length < held'.length) :
    ∃ last, held'.getLast? = some last ∧ last.1 = now := by
  obtain ⟨got, -, -, rfl⟩ := h
  rcases List.eq_nil_or_concat got with rfl | ⟨before, last, rfl⟩
  · rw [stamp, List.map_nil, List.append_nil] at hless
    exact absurd hless (Nat.lt_irrefl _)
  · refine ⟨(now, last.2), ?_, rfl⟩
    simp [stamp]

/-- A batch is still in time when items are added to it now. -/
theorem Took.inTime (h : Took now held items held' rest)
    (hopen : ∀ first ∈ held.head?, now ≤ first.1 + delay) :
    ∀ first ∈ held'.head?, now ≤ first.1 + delay := by
  obtain ⟨got, -, -, rfl⟩ := h
  cases held with
  | nil =>
    intro first hfirst
    obtain ⟨item, -, rfl⟩ := List.mem_map.1 (List.mem_of_mem_head? hfirst)
    exact Nat.le_add_right _ _
  | cons item held => exact hopen

end Batcher

/-! ## 3. Collectors -/

namespace Collector

open Batcher

variable {c : Collector τ} {size delay : Nat} {held held' got rest items : List (Nat × τ)}
  {now turn room : Nat} {endsAt since waits : Option Nat}

theorem Holds.push (h : c.Holds size delay held) (x : τ) (now : Nat) :
    (c.push x now).Holds size delay (held ++ [(now, x)]) := by
  obtain ⟨hsize, rfl, hbuffer, hdeadline⟩ := h
  have hbuffer' : (c.push x now).buffer = (held ++ [(now, x)]).map Prod.snd := by
    simp [Collector.push, hbuffer]
  cases held with
  | nil =>
    -- The first item opens the window.
    refine ⟨hsize, rfl, hbuffer', fun first hfirst => ?_⟩
    cases hfirst
    simp [Collector.push, hbuffer]
  | cons item rest =>
    refine ⟨hsize, rfl, hbuffer', fun first hfirst => ?_⟩
    cases hfirst
    simpa [Collector.push, hbuffer] using hdeadline item rfl

/-- Items that are there are taken before anything else. -/
theorem fill_append (h : c.Holds size delay held) (turn room : Nat) (hbegun : begun since now = 0)
    (waits : Option Nat) (hready : ∀ item ∈ got, item.1 ≤ now) (rest : List (Nat × τ))
    (endsAt : Option Nat) :
    ∃ (c' : Collector τ) (since' waits' : Option Nat),
      c'.Holds size delay (held ++ stamp now got) ∧ begun since' now = 0
      ∧ c.fill now turn (got.length + room) (.timed (got ++ rest) endsAt since waits)
        = c'.fill now turn room (.timed rest endsAt since' waits') := by
  induction got generalizing c held since waits with
  | nil =>
    refine ⟨c, since, waits, (List.append_nil held).symm ▸ h, hbegun, ?_⟩
    rw [List.length_nil, Nat.zero_add]
    rfl
  | cons item got ih =>
    obtain ⟨hitem, hgot⟩ := List.forall_mem_cons.1 hready
    obtain ⟨c', since', waits', hholds, hbegun', hfill⟩ :=
      ih (h.push item.2 now) (show begun (some 0) now = 0 from rfl) none hgot
    rw [List.append_assoc] at hholds
    refine ⟨c', since', waits', hholds, hbegun', ?_⟩
    have hroom : (item :: got).length + room = got.length + room + 1 := by
      rw [List.length_cons, Nat.add_right_comm]
    rw [hroom, List.cons_append, fill, pull_ready hbegun hitem]
    exact hfill

theorem Holds.flush (h : c.Holds size delay held) :
    c.flush.1 = held.map Prod.snd ∧ c.flush.2.Holds size delay [] :=
  ⟨h.buffer, h.sized, h.timed, rfl, fun _ hfirst => (by cases hfirst)⟩

theorem Holds.waitFrom (h : c.Holds size delay held) (turn : Nat) :
    (c.waitFrom turn).Holds size delay held := by
  obtain ⟨hsize, hdelay, hbuffer, hdeadline⟩ := h
  unfold Collector.waitFrom
  split
  · exact ⟨hsize, hdelay, hbuffer, hdeadline⟩
  · exact ⟨hsize, hdelay, hbuffer, hdeadline⟩

/-- The clock closes a window that was open for the longest time. -/
theorem Holds.expired (h : c.Holds size delay held) :
    (!c.buffer.isEmpty && decide (c.deadline ≤ now)) = true
      ↔ ∃ first ∈ held.head?, first.1 + delay ≤ now := by
  rw [h.buffer]
  cases held with
  | nil => simp
  | cons first rest => simp [h.deadline first rfl]

/-- At the end of the items, what is held is the last window. -/
theorem fill_over {due : Nat} (h : c.Holds size delay held') (htook : Took now held items held' [])
    (hlen : held'.length < size) (hbegun : begun since now = 0) (hdue : due ≤ now)
    (turn room : Nat) (waits : Option Nat) :
    ∃ answer c' left inlet',
      c.fill now turn (room + 1) (.timed [] (some due) since waits) = (answer, c', inlet')
      ∧ c'.Holds size delay left
      ∧ Batcher.Answers size delay held now items (some due) answer left inlet' := by
  have hempty : c.buffer.isEmpty = held'.isEmpty := by rw [h.buffer, List.isEmpty_map]
  by_cases hnone : held' = []
  · subst hnone
    refine ⟨.ended, c, [], .timed [] (some due) (some 0) none, ?_, h, .ended htook rfl hdue⟩
    rw [fill, pull_over hbegun hdue]
    simp only [hempty, List.isEmpty_nil, if_true]
  · obtain ⟨hwindow, hflushed⟩ := h.flush
    refine ⟨.item c.flush.1, c.flush.2, [], .timed [] (some due) (some 0) none, ?_, hflushed, ?_⟩
    · rw [fill, pull_over hbegun hdue]
      simp [hempty, hnone]
    · rw [hwindow]
      exact .last htook hlen rfl hdue hnone

/-- While nothing comes, the clock decides. -/
theorem fill_waits (h : c.Holds size delay held') (htook : Took now held items held' rest)
    (hlen : held'.length < size) (hbegun : begun since now = 0)
    (hnext : ∀ due ∈ nextDue endsAt rest, now < due) (turn room : Nat) (waits : Option Nat) :
    ∃ answer c' left inlet',
      c.fill now turn (room + 1) (.timed rest endsAt since waits) = (answer, c', inlet')
      ∧ c'.Holds size delay left
      ∧ Batcher.Answers size delay held now items endsAt answer left inlet' := by
  by_cases hlate : ∃ first ∈ held'.head?, first.1 + delay ≤ now
  · obtain ⟨first, hfirst, hle⟩ := hlate
    obtain ⟨hwindow, hflushed⟩ := h.flush
    refine ⟨.item c.flush.1, c.flush.2, [], .timed rest endsAt (some 0) (waits.or (some turn)), ?_,
      hflushed, ?_⟩
    · rw [fill, pull_waits hbegun hnext]
      exact if_pos (h.expired.2 ⟨first, hfirst, hle⟩)
    · rw [hwindow]
      exact .late htook hlen hnext hfirst hle
  · refine ⟨.pending, c.waitFrom turn, held', .timed rest endsAt (some 0) (waits.or (some turn)), ?_,
      h.waitFrom turn, ?_⟩
    · rw [fill, pull_waits hbegun hnext]
      exact if_neg (mt h.expired.1 hlate)
    · refine .waits htook hlen hnext fun first hfirst => ?_
      exact Nat.lt_of_not_le fun hle => hlate ⟨first, hfirst, hle⟩

/-- **Asking a collector for a window.** -/
theorem pull_answers (h : c.Holds size delay held) (hroom : held.length < size)
    (hbegun : begun since now = 0) (items : List (Nat × τ)) (endsAt waits : Option Nat) (turn : Nat) :
    ∃ answer c' left inlet', c.pull (.timed items endsAt since waits) now turn = (answer, c', inlet')
      ∧ c'.Holds size delay left
      ∧ Batcher.Answers size delay held now items endsAt answer left inlet' := by
  -- What is there is taken first, as far as there is room. Only then the end and the clock count.
  obtain ⟨got, rest, rfl, hready, hlen, hmore⟩ := exists_ready now (size - held.length) items
  obtain ⟨room, hsum⟩ := Nat.exists_eq_add_of_le hlen
  obtain ⟨c', since', waits', hc, hbegun', hfill⟩ :=
    fill_append h turn room hbegun waits hready rest endsAt
  have hpull : c.pull (.timed (got ++ rest) endsAt since waits) now turn
      = c'.fill now turn room (.timed rest endsAt since' waits') := by
    rw [← hfill, pull, h.sized, h.buffer, List.length_map, hsum]
  have htook : Took now held (got ++ rest) (held ++ stamp now got) rest := ⟨got, rfl, hready, rfl⟩
  have hheld : (held ++ stamp now got).length + room = size := by
    rw [List.length_append, stamp, List.length_map]
    omega
  rw [hpull]
  cases room with
  | zero =>
    obtain ⟨hwindow, hflushed⟩ := hc.flush
    refine ⟨_, _, [], _, rfl, hflushed, ?_⟩
    rw [hwindow]
    exact .full htook hheld hbegun'
  | succ room =>
    have hspare : (held ++ stamp now got).length < size := by omega
    have hcoming : ∀ item ∈ rest.head?, now < item.1 := hmore.resolve_left (by omega)
    by_cases hover : rest = [] ∧ ∃ due ∈ endsAt, due ≤ now
    · obtain ⟨rfl, due, hend, hdue⟩ := hover
      obtain rfl : endsAt = some due := hend
      exact fill_over hc htook hspare hbegun' hdue turn room waits'
    · refine fill_waits hc htook hspare hbegun' (fun due hdue => ?_) turn room waits'
      cases rest with
      | nil => exact Nat.lt_of_not_le fun hle => hover ⟨rfl, due, hdue, hle⟩
      | cons item rest =>
        cases hdue
        exact hcoming item rfl

theorem Holds.wakesAt (h : c.Holds size delay held) :
    c.wakesAt = held.head?.map fun first => first.1 + delay := by
  rw [Collector.wakesAt, h.buffer]
  cases held with
  | nil => rfl
  | cons first rest => exact congrArg some (h.deadline first rfl)

/-- **A collector does what is documented of a batcher.** -/
theorem chunks_batches (size : Nat) (delay : Duration) :
    (chunks size delay : Batcher τ).Batches size delay.nanos where
  start := ⟨rfl, rfl, rfl, fun _ hfirst => (by cases hfirst)⟩
  rings := Holds.wakesAt
  poll h hroom hbegun items endsAt waits := pull_answers h hroom hbegun items endsAt waits 0

end Collector

end Collate
