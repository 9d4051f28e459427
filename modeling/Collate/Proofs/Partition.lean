/-
Windows cut a sequence of items into pieces.

Someone who asks for windows as soon as there may be one takes every item at the moment it can be
taken. So the windows depend on these moments, the size of a window, the time it stays open and the
end of the items, and on nothing else; `Cut` says how, and leaves no choice (`Cut.unique`). A window
is closed in one of three ways: it is full, and is handed out when its last item is taken; it was open
for the longest time allowed; or the items have ended. Where several of these fall on one moment,
items come before the end, and both come before the clock.

All of this follows from what is documented of a batcher for one answer (`Batcher.Batches`). The number
of answers that are looked at is enough: every wait is for something that happens then, an item, the
end, or a window's time.
-/
import Collate.Proofs.Batcher

set_option autoImplicit false

namespace Collate

variable {τ : Type}

open Inlet

/-! ## 1. How items are cut into windows -/

/-- Why a window of these items is handed out at a time, while others are taken later. -/
inductive Closes (size delay : Nat) (finish : Option Nat) (part later : List (Nat × τ)) (time : Nat) :
    Prop where
  /-- It is full, and its last item is taken now. -/
  | full {first last : Nat × τ} (hlen : part.length = size) (hfirst : part.head? = some first)
      (hlast : part.getLast? = some last) (hnow : last.1 = time) (hopen : time ≤ first.1 + delay)
  /-- It was open for the longest time, and nothing comes now. -/
  | late {first : Nat × τ} (hlen : part.length < size) (hfirst : part.head? = some first)
      (hnow : time = first.1 + delay) (hlater : ∀ item ∈ later, time < item.1)
      (hfinish : ∀ due ∈ finish, time < due)
  /-- The items end now. -/
  | last {first : Nat × τ} (hlen : part.length < size) (hfirst : part.head? = some first)
      (hnone : later = []) (hnow : finish = some time) (hopen : time ≤ first.1 + delay)

/-- How items, with the moments they are taken, are cut into windows, with the moments these are
handed out, when the items end at `finish`. -/
inductive Cut (size delay : Nat) (finish : Option Nat) :
    List (Nat × τ) → List (Nat × List τ) → Prop where
  | none : Cut size delay finish [] []
  | window {part later : List (Nat × τ)} {time : Nat} {windows : List (Nat × List τ)}
      (hpast : ∀ item ∈ part, item.1 ≤ time) (hcloses : Closes size delay finish part later time)
      (hlater : Cut size delay finish later windows) :
      Cut size delay finish (part ++ later) ((time, part.map Prod.snd) :: windows)

namespace Closes

variable {size delay time time' : Nat} {finish : Option Nat}
  {part later part' later' : List (Nat × τ)}

/-- A window has a first item, is not too large and not open for too long. -/
theorem opened (h : Closes size delay finish part later time) :
    ∃ first, part.head? = some first ∧ part.length ≤ size ∧ time ≤ first.1 + delay := by
  cases h with
  | full hlen hfirst _ _ hopen => exact ⟨_, hfirst, Nat.le_of_eq hlen, hopen⟩
  | late hlen hfirst hnow => exact ⟨_, hfirst, Nat.le_of_lt hlen, Nat.le_of_eq hnow⟩
  | last hlen hfirst _ _ hopen => exact ⟨_, hfirst, Nat.le_of_lt hlen, hopen⟩

/-- Of two windows that begin with the same items, neither holds more than the other. -/
theorem length_le (h : Closes size delay finish part later time)
    (hsame : part ++ later = part' ++ later') (hpast : ∀ item ∈ part, item.1 ≤ time)
    (h' : Closes size delay finish part' later' time') : part.length ≤ part'.length := by
  refine Nat.le_of_not_lt fun hless => ?_
  obtain ⟨more, rfl, rfl⟩ : ∃ more, part = part' ++ more ∧ later' = more ++ later := by
    rcases List.append_eq_append_iff.1 hsame with ⟨more, rfl, _⟩ | hmore
    · rw [List.length_append] at hless
      omega
    · exact hmore
  -- The first item behind the shorter window is in the longer one.
  obtain ⟨item, hitem⟩ := List.exists_mem_of_length_pos (l := more) (by
    rw [List.length_append] at hless
    omega)
  obtain ⟨first, hfirst, hlen, hopen⟩ := h.opened
  have hfirst' : ∀ first' ∈ part'.head?, first' = first := by
    intro first' hmem
    rw [List.head?_append, hmem] at hfirst
    exact Option.some.inj hfirst
  cases h' with
  | full hfull => omega
  | late _ hhead hnow hlater =>
    obtain rfl := hfirst' _ hhead
    have hnot := hlater item (List.mem_append_left _ hitem)
    have hin := hpast item (List.mem_append_right _ hitem)
    omega
  | last _ _ hnone =>
    rw [(List.append_eq_nil_iff.1 hnone).1] at hitem
    cases hitem

theorem time_eq (h : Closes size delay finish part later time)
    (h' : Closes size delay finish part later time') : time = time' := by
  cases h with
  | full hlen _ hlast hnow =>
    cases h' with
    | full _ _ hlast' hnow' =>
      cases hlast.symm.trans hlast'
      exact hnow.symm.trans hnow'
    | late hlen' => omega
    | last hlen' => omega
  | late hlen hfirst hnow hlater hfinish =>
    cases h' with
    | full hlen' => omega
    | late _ hfirst' hnow' =>
      cases hfirst.symm.trans hfirst'
      exact hnow.trans hnow'.symm
    | last _ hfirst' _ hnow' hopen =>
      cases hfirst.symm.trans hfirst'
      have hlt := hfinish _ hnow'
      omega
  | last hlen hfirst _ hnow hopen =>
    cases h' with
    | full hlen' => omega
    | late _ hfirst' hnow' _ hfinish =>
      cases hfirst.symm.trans hfirst'
      have hlt := hfinish _ hnow
      omega
    | last _ _ _ hnow' => exact Option.some.inj (hnow.symm.trans hnow')

end Closes

namespace Cut

variable {size delay : Nat} {finish : Option Nat} {items : List (Nat × τ)}
  {windows windows' : List (Nat × List τ)}

/-- Nothing is lost, added or moved. -/
theorem flatMap_windows (h : Cut size delay finish items windows) :
    windows.flatMap Prod.snd = items.map Prod.snd := by
  induction h with
  | none => rfl
  | window _ _ _ ih => rw [List.flatMap_cons, ih, List.map_append]

theorem window_bounds (h : Cut size delay finish items windows) :
    ∀ window ∈ windows, window.2 ≠ [] ∧ window.2.length ≤ size := by
  induction h with
  | none => exact fun _ hw => absurd hw List.not_mem_nil
  | @window part _ _ _ _ hcloses _ ih =>
    obtain ⟨first, hfirst, hlen, -⟩ := hcloses.opened
    refine List.forall_mem_cons.2 ⟨⟨?_, ?_⟩, ih⟩
    · exact List.ne_nil_of_mem (List.mem_map_of_mem (List.mem_of_mem_head? hfirst))
    · rw [List.length_map]
      exact hlen

theorem cases_windows (h : Cut size delay finish items windows) :
    items = [] ∧ windows = [] ∨ ∃ part later time rest, items = part ++ later
      ∧ windows = (time, part.map Prod.snd) :: rest ∧ (∀ item ∈ part, item.1 ≤ time)
      ∧ Closes size delay finish part later time ∧ Cut size delay finish later rest := by
  cases h with
  | none => exact Or.inl ⟨rfl, rfl⟩
  | window hpast hcloses hlater => exact Or.inr ⟨_, _, _, _, rfl, rfl, hpast, hcloses, hlater⟩

/-- **There is only one way to cut items into windows.** -/
theorem unique (h : Cut size delay finish items windows)
    (h' : Cut size delay finish items windows') : windows = windows' := by
  induction h generalizing windows' with
  | none =>
    rcases h'.cases_windows with ⟨_, rfl⟩ | ⟨part', later', _, _, hsame, _, _, hcloses', _⟩
    · rfl
    · obtain ⟨_, hfirst, -⟩ := hcloses'.opened
      rw [(List.append_eq_nil_iff.1 hsame.symm).1] at hfirst
      cases hfirst
  | @window part later time rest hpast hcloses hlater ih =>
    rcases h'.cases_windows with
      ⟨hsame, _⟩ | ⟨part', later', time', rest', hsame, rfl, hpast', hcloses', hlater'⟩
    · obtain ⟨_, hfirst, -⟩ := hcloses.opened
      rw [(List.append_eq_nil_iff.1 hsame).1] at hfirst
      cases hfirst
    · have hlen := Nat.le_antisymm (hcloses.length_le hsame hpast hcloses')
        (hcloses'.length_le hsame.symm hpast' hcloses)
      obtain ⟨rfl, rfl⟩ := List.append_inj hsame hlen
      rw [hcloses.time_eq hcloses', ih hlater']

end Cut

/-! ## 2. What one answer hands out -/

namespace Batcher

variable {size delay now : Nat} {held held' items : List (Nat × τ)} {endsAt : Option Nat}
  {window : List τ} {inlet' : Inlet τ}

/-- **A batch that is handed out is closed now.** Nothing is held afterwards. -/
theorem Answers.closes (h : Answers size delay held now items endsAt (.item window) held' inlet')
    (hroom : held.length < size) (hopen : ∀ first ∈ held.head?, now ≤ first.1 + delay) :
    held' = [] ∧ ∃ part rest since waits, inlet' = .timed rest endsAt since waits
      ∧ begun since now = 0 ∧ Took now held items part rest ∧ window = part.map Prod.snd
      ∧ Closes size delay (finish endsAt now rest) part (arrivals now rest) now := by
  cases h with
  | @full part rest since waits htook hlen hbegun =>
    refine ⟨rfl, part, rest, since, waits, rfl, hbegun, htook, rfl, ?_⟩
    obtain ⟨last, hlast, hnow⟩ := htook.getLast (hlen ▸ hroom)
    have hfirst := List.head?_eq_some_head (List.ne_nil_of_mem (List.mem_of_getLast? hlast))
    exact .full hlen hfirst hlast hnow (htook.inTime hopen _ hfirst)
  | @late part rest waits first htook hlen hnext hfirst hdue =>
    refine ⟨rfl, part, rest, some 0, waits, rfl, rfl, htook, rfl, ?_⟩
    have hnow : now = first.1 + delay := Nat.le_antisymm (htook.inTime hopen _ hfirst) hdue
    exact .late hlen hfirst hnow (fun item => lt_of_mem_arrivals hnext)
      fun due => lt_of_mem_finish hnext
  | @last part waits due htook hlen hend hdue hne =>
    refine ⟨rfl, part, [], some 0, waits, rfl, rfl, htook, rfl, ?_⟩
    have hfirst := List.head?_eq_some_head hne
    exact .last hlen hfirst rfl (finish_over hend hdue) (htook.inTime hopen _ hfirst)

end Batcher

/-! ## 3. A whole run -/

namespace Timeline

open Batcher

/-- The items that were taken from an inlet between two states of it, at this moment. -/
def taken (now : Nat) (before after : Inlet τ) : List (Nat × τ) :=
  (before.payload.take (before.remaining - after.remaining)).map fun x => (now, x)

/-- The items of a timeline with the moments they were taken. -/
def pulls (b : Batcher τ) : Nat → b.State → Inlet τ → Nat → List (Nat × τ)
  | 0, _, _, _ => []
  | rounds + 1, s, inlet, now =>
    match b.poll s inlet now with
    | (.item _, s, inlet') => taken now inlet inlet' ++ pulls b rounds s inlet' now
    | (.ended, _, inlet') => taken now inlet inlet'
    | (.pending, s, inlet') =>
      taken now inlet inlet' ++
        match earliest now [inlet'.wakesAt, b.rings s] with
        | some wake => pulls b rounds s inlet' wake
        | none => []

/-- What is told of a timeline that goes on at this time, with these items held and those to come. -/
structure Follows (size delay : Nat) (held items : List (Nat × τ)) (endsAt : Option Nat) (now : Nat)
    (timeline : Timeline τ) (pulled : List (Nat × τ)) : Prop where
  cut : Cut size delay (finish endsAt now items) (held ++ arrivals now items) timeline.windows
  ended : timeline.ended = finish endsAt now items
  pulled : pulled = arrivals now items
  later : ∀ window ∈ timeline.windows, now ≤ window.1
  sorted : timeline.windows.Pairwise (·.1 ≤ ·.1)

/-- Whether asking now leads to a window, to the end, or to more items held. -/
def Ripe (delay : Nat) (held items : List (Nat × τ)) (endsAt : Option Nat) (now : Nat) : Prop :=
  (∃ due ∈ nextDue endsAt items, due ≤ now) ∨ ∃ first ∈ held.head?, first.1 + delay ≤ now

/-- How many answers may be needed: three for each item to come, to wait for it, to wait for its
window's time and to hand the window out; and two of these once it is held. -/
def weight (held items : List (Nat × τ)) : Nat := 3 * items.length + 2 * min held.length 1

variable {size delay now wake : Nat} {held held' items rest pulled : List (Nat × τ)}
  {endsAt since waits : Option Nat} {timeline : Timeline τ} {b : Batcher τ} {s : b.State}

theorem taken_of_took (h : Took now held items held' rest) (since' waits' : Option Nat) :
    taken now (.timed items endsAt since waits) (.timed rest endsAt since' waits')
      ++ arrivals now rest = arrivals now items := by
  obtain ⟨got, rfl, hready, -⟩ := h
  rw [arrivals_append hready, taken]
  simp [Inlet.payload, Inlet.remaining, stamp]

theorem weight_handed (h : Took now held items held' rest) (hne : held' ≠ []) :
    weight ([] : List (Nat × τ)) rest + 2 ≤ weight held items := by
  have hlengths := h.lengths
  have hpos := List.length_pos_iff.2 hne
  simp only [weight, List.length_nil]
  omega

/-- Each item that is taken makes up for the window that waits for its time. -/
theorem weight_waiting (h : Took now held items held' rest) :
    held' = held ∧ rest = items ∨ weight held' rest < weight held items := by
  refine h.eq_or_less.imp id fun hless => ?_
  simp only [weight]
  omega

/-- Items that are taken now may as well have been held. -/
theorem Follows.of_took (h : Follows size delay held' rest endsAt now timeline pulled)
    (htook : Took now held items held' rest) (since' waits' : Option Nat) :
    Follows size delay held items endsAt now timeline
      (taken now (.timed items endsAt since waits) (.timed rest endsAt since' waits') ++ pulled) := by
  refine ⟨?_, ?_, ?_, h.later, h.sorted⟩
  · rw [htook.arrivals, htook.finish]
    exact h.cut
  · rw [htook.finish]
    exact h.ended
  · rw [h.pulled, taken_of_took htook]

/-- A window that is handed out now comes in front. -/
theorem Follows.window (h : Follows size delay [] items endsAt now timeline pulled)
    (hpast : ∀ item ∈ held, item.1 ≤ now)
    (hcloses : Closes size delay (finish endsAt now items) held (arrivals now items) now) :
    Follows size delay held items endsAt now
      { timeline with windows := (now, held.map Prod.snd) :: timeline.windows } pulled :=
  ⟨.window hpast hcloses h.cut, h.ended, h.pulled,
    List.forall_mem_cons.2 ⟨Nat.le_refl now, h.later⟩, List.pairwise_cons.2 ⟨h.later, h.sorted⟩⟩

/-- While nothing comes, the time that passes does not matter. -/
theorem Follows.of_wake (h : Follows size delay held items endsAt wake timeline pulled)
    (hle : now ≤ wake) (hnext : ∀ due ∈ nextDue endsAt items, wake ≤ due) :
    Follows size delay held items endsAt now timeline pulled := by
  refine ⟨?_, ?_, ?_, fun window hw => Nat.le_trans hle (h.later window hw), h.sorted⟩
  · rw [arrivals_eq_of_le hle hnext, finish_eq_of_le hle hnext]
    exact h.cut
  · rw [finish_eq_of_le hle hnext]
    exact h.ended
  · rw [arrivals_eq_of_le hle hnext]
    exact h.pulled

/-- When something comes next, and when the window that is open is closed. -/
def moments (delay : Nat) (held items : List (Nat × τ)) (endsAt : Option Nat) : List (Option Nat) :=
  [nextDue endsAt items, held.head?.map fun first => first.1 + delay]

theorem earliest_le {due : Nat} {times : List (Option Nat)} (h : earliest now times = some wake)
    (hm : some due ∈ times) (hlt : now < due) : wake ≤ due :=
  (List.min?_eq_some_iff.1 h).2 due (List.mem_filterMap.2 ⟨some due, hm, by simp [hlt]⟩)

/-- All moments are still to come when asking led to nothing. -/
theorem lt_of_mem_moments {due : Nat} (hnext : ∀ due ∈ nextDue endsAt items, now < due)
    (hopen : ∀ first ∈ held.head?, now < first.1 + delay)
    (h : some due ∈ moments delay held items endsAt) : now < due := by
  rcases List.mem_cons.1 h with h | h
  · exact hnext due h.symm
  · obtain ⟨first, hfirst, rfl⟩ := Option.map_eq_some_iff.1 (List.mem_singleton.1 h).symm
    exact hopen first hfirst

theorem le_of_first_moment (hnext : ∀ due ∈ nextDue endsAt items, now < due)
    (hopen : ∀ first ∈ held.head?, now < first.1 + delay)
    (h : earliest now (moments delay held items endsAt) = some wake) :
    now < wake ∧ (∀ due ∈ nextDue endsAt items, wake ≤ due)
      ∧ (∀ first ∈ held.head?, wake ≤ first.1 + delay) ∧ Ripe delay held items endsAt wake := by
  obtain ⟨hmem, hlt⟩ := WindowStream.earliest_eq_some h
  refine ⟨hlt, fun due hdue => ?_, fun first hfirst => ?_, ?_⟩
  · have hm : some due ∈ moments delay held items endsAt := List.mem_cons.2 (Or.inl hdue.symm)
    exact earliest_le h hm (lt_of_mem_moments hnext hopen hm)
  · have hm : some (first.1 + delay) ∈ moments delay held items endsAt :=
      List.mem_cons_of_mem _ (List.mem_singleton.2 (by rw [hfirst, Option.map_some]))
    exact earliest_le h hm (lt_of_mem_moments hnext hopen hm)
  · rcases List.mem_cons.1 hmem with hmem | hmem
    · exact Or.inl ⟨wake, hmem.symm, Nat.le_refl wake⟩
    · obtain ⟨first, hfirst, hwake⟩ := Option.map_eq_some_iff.1 (List.mem_singleton.1 hmem).symm
      exact Or.inr ⟨first, hfirst, Nat.le_of_eq hwake⟩

theorem eq_nil_of_no_moment (hnext : ∀ due ∈ nextDue endsAt items, now < due)
    (hopen : ∀ first ∈ held.head?, now < first.1 + delay)
    (h : earliest now (moments delay held items endsAt) = none) :
    held = [] ∧ items = [] ∧ endsAt = none := by
  have hno : ∀ due, some due ∉ moments delay held items endsAt := by
    intro due hm
    obtain ⟨_, hsome⟩ := WindowStream.exists_earliest hm (lt_of_mem_moments hnext hopen hm)
    rw [h] at hsome
    cases hsome
  rcases held with _ | ⟨first, held⟩
  · rcases items with _ | ⟨item, items⟩
    · refine ⟨rfl, rfl, Option.eq_none_iff_forall_not_mem.2 fun due hdue => hno due ?_⟩
      exact List.mem_cons.2 (Or.inl hdue.symm)
    · exact absurd (List.mem_cons.2 (Or.inl rfl)) (hno item.1)
  · exact absurd (List.mem_cons_of_mem _ (List.mem_singleton.2 rfl)) (hno (first.1 + delay))

/-- A window that is handed out leads on from here. -/
theorem Follows.of_closes (h : Follows size delay [] rest endsAt now timeline pulled)
    (htook : Took now held items held' rest) (hpast : ∀ item ∈ held, item.1 ≤ now)
    (hcloses : Closes size delay (finish endsAt now rest) held' (arrivals now rest) now)
    (since' waits' : Option Nat) :
    Follows size delay held items endsAt now
      { timeline with windows := (now, held'.map Prod.snd) :: timeline.windows }
      (taken now (.timed items endsAt since waits) (.timed rest endsAt since' waits') ++ pulled) :=
  (h.window (htook.past hpast) hcloses).of_took htook since' waits'

/-- **The windows of a timeline are the pieces of what comes in.** The answers that are looked at
suffice, with one to spare unless the first of them leads to something. -/
theorem gather_follows {rounds : Nat} (hb : b.Batches size delay) (hs : b.Holds s held)
    (hroom : held.length < size) (hbegun : begun since now = 0) (hpast : ∀ item ∈ held, item.1 ≤ now)
    (hopen : ∀ first ∈ held.head?, now ≤ first.1 + delay)
    (hrounds : weight held items + 1 < rounds
      ∨ weight held items < rounds ∧ Ripe delay held items endsAt now) :
    Follows size delay held items endsAt now
      (gather b rounds s (.timed items endsAt since waits) now)
      (pulls b rounds s (.timed items endsAt since waits) now) := by
  -- Each answer makes the weight less or the moment ripe, so there is one left for what remains.
  induction rounds generalizing s held items since waits now with
  | zero => omega
  | succ rounds ih =>
    obtain ⟨answer, s', held', inlet', hpoll, hs', hanswers⟩ :=
      hb.poll hs hroom hbegun items endsAt waits
    simp only [gather, pulls, hpoll]
    cases answer with
    | item window =>
      obtain ⟨rfl, part, rest, since', waits', rfl, hbegun', htook, rfl, hcloses⟩ :=
        hanswers.closes hroom hopen
      obtain ⟨first, hfirst, -⟩ := hcloses.opened
      have hne : part ≠ [] := List.ne_nil_of_mem (List.mem_of_mem_head? hfirst)
      have hweight := weight_handed htook hne
      -- Nothing is held, so the rest of the timeline goes on from now.
      exact (ih hs' (Nat.lt_of_le_of_lt (Nat.zero_le _) hroom) hbegun'
        (fun _ h => absurd h List.not_mem_nil) (fun _ h => by cases h)
        (Or.inl (by omega))).of_closes htook hpast hcloses since' waits'
    | ended =>
      cases hanswers with
      | @ended waits' due htook hend hdue =>
        have hnone : Follows size delay [] [] endsAt now (⟨[], some now⟩ : Timeline τ) [] :=
          ⟨.none, (finish_over hend hdue).symm, rfl, by simp, .nil⟩
        simpa using hnone.of_took htook (some 0) waits'
    | pending =>
      cases hanswers with
      | @waits _ rest waits' htook hlen hnext hlate =>
        have hspare : weight held' rest < rounds := by
          rcases weight_waiting htook with ⟨rfl, rfl⟩ | hless
          · -- Nothing was taken, so the moment was not ripe.
            refine Nat.succ_lt_succ_iff.1 (hrounds.resolve_right fun hripe => ?_)
            rcases hripe.2 with ⟨due, hdue, hle⟩ | ⟨first, hfirst, hle⟩
            · exact Nat.not_lt_of_le hle (hnext due hdue)
            · exact Nat.not_lt_of_le hle (hlate first hfirst)
          · omega
        refine Follows.of_took ?_ htook (some 0) waits'
        have hmoments : [(Inlet.timed rest endsAt (some 0) waits').wakesAt, b.rings s']
            = moments delay held' rest endsAt := by
          rw [wakesAt_timed, hb.rings hs', moments]
        dsimp only
        rw [hmoments]
        cases hwake : earliest now (moments delay held' rest endsAt) with
        | none =>
          obtain ⟨rfl, rfl, rfl⟩ := eq_nil_of_no_moment hnext hlate hwake
          exact ⟨.none, rfl, rfl, by simp, .nil⟩
        | some wake =>
          obtain ⟨hlt, hitems, hclock, hripe⟩ := le_of_first_moment hnext hlate hwake
          have hle := Nat.le_of_lt hlt
          exact Follows.of_wake (ih hs' hlen rfl
            (fun item hitem => Nat.le_trans (htook.past hpast item hitem) hle) hclock
            (Or.inr ⟨hspare, hripe⟩)) hle hitems

/-- The items of an inlet with the moments they are taken for its timeline. -/
def pullsOfInlet (b : Batcher τ) (inlet : Inlet τ) : List (Nat × τ) :=
  pulls b (3 * inlet.remaining + 4) b.start inlet 0

end Timeline

open Timeline in
/-- **Windows partition what comes in**, whatever does the batching, as long as it keeps to what is
documented of it. Read one after the other they are the items, none of them is empty or too large, and
each is handed out just when it is full, when its first item was taken `maxDelay` ago, or at the end,
whichever is first; they are handed out in order, and the output ends with the input. Times are in
nanoseconds. -/
theorem windows_partition (chunks : Nat → Duration → Batcher τ)
    (hchunks : ∀ size delay, 0 < size → (chunks size delay).Batches size delay.nanos)
    (settings : WindowSettings) (items : List (Nat × τ)) (endsAt : Option Nat) :
    let inlet := Inlet.ofTimes items endsAt
    let timeline := ofInlet (windows chunks settings) inlet
    timeline.windows.flatMap Prod.snd = items.map Prod.snd
      ∧ (∀ window ∈ timeline.windows,
          window.2 ≠ [] ∧ window.2.length ≤ max settings.maxSize.toNat 1)
      ∧ Cut (max settings.maxSize.toNat 1) settings.maxDelay.nanos (finish endsAt 0 items)
          (pullsOfInlet (windows chunks settings) inlet) timeline.windows
      ∧ pullsOfInlet (windows chunks settings) inlet = arrivals 0 items
      ∧ timeline.windows.Pairwise (·.1 ≤ ·.1)
      ∧ timeline.ended = finish endsAt 0 items := by
  intro inlet timeline
  -- A window of no items does not exist, so the size is one that batches can have.
  have hsize : 0 < max settings.maxSize.toNat 1 := Nat.lt_of_lt_of_le Nat.one_pos (Nat.le_max_right _ _)
  have hb : (windows chunks settings).Batches (max settings.maxSize.toNat 1)
      settings.maxDelay.nanos := hchunks _ settings.maxDelay hsize
  have hrounds : weight ([] : List (Nat × τ)) items + 1 < 3 * inlet.remaining + 4 := by
    show 3 * items.length + 0 + 1 < 3 * items.length + 4
    omega
  have h : Follows (max settings.maxSize.toNat 1) settings.maxDelay.nanos [] items endsAt 0
      timeline (pullsOfInlet (windows chunks settings) inlet) :=
    gather_follows hb hb.start hsize rfl (fun _ hitem => absurd hitem List.not_mem_nil)
      (fun _ hfirst => by cases hfirst) (Or.inl hrounds)
  have hcut := h.cut
  rw [List.nil_append] at hcut
  refine ⟨?_, hcut.window_bounds, ?_, h.pulled, h.sorted, h.ended⟩
  · rw [hcut.flatMap_windows, map_snd_arrivals]
  · rw [h.pulled]
    exact hcut

open Timeline in
/-- A window that is full at once, one that is open for the two milliseconds, and the last one. -/
theorem windows_partition_three_windows :
    let items := [(0, 'a'), (0, 'b'), (1000000, 'c'), (5000000, 'd')]
    let timeline := ofInlet (windows Collector.chunks ⟨2, .ofMillis 2⟩)
      (.ofTimes items (some 6000000))
    timeline.windows = [(0, ['a', 'b']), (3000000, ['c']), (6000000, ['d'])]
      ∧ Cut 2 2000000 (some 6000000) items timeline.windows ∧ timeline.ended = some 6000000 := by
  intro items timeline
  obtain ⟨-, -, hcut, hpulls, -, hended⟩ := windows_partition Collector.chunks
    (fun size delay _ => Collector.chunks_batches size delay) ⟨2, .ofMillis 2⟩ items
    (some 6000000)
  rw [hpulls] at hcut
  exact ⟨rfl, hcut, hended⟩

end Collate
