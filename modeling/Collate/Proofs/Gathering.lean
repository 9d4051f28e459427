/-
What an inlet gives and what becomes of it in a window.

An inlet has items still to give, its payload; a collector holds the items of the window it gathers.
Asking for a window moves items from the payload through the buffer into the window and loses none
on the way: window, buffer and payload read one after the other are the same list before and after
(`pull_conserves`). A window that is handed out is not empty and leaves the buffer empty, and an
inlet that has ended has nothing left in either.
-/
import Collate.Window

set_option autoImplicit false

namespace Collate

variable {τ : Type}

/-! ## 1. Inlets -/

/-- The items an answer brings. -/
def Pull.items : Pull (List τ) → List τ
  | .item window => window
  | _ => []

namespace Inlet

/-- The items an inlet has still to give, in order. -/
def payload : Inlet τ → List τ
  | .timed items _ _ _ => items.map Prod.snd
  | .channel queue _ _ => queue

theorem payload_length (inlet : Inlet τ) : inlet.payload.length = inlet.remaining := by
  cases inlet <;> simp [payload, remaining]

theorem pull_item {inlet inlet' : Inlet τ} {now turn : Nat} {x : τ}
    (h : inlet.pull now turn = (.item x, inlet')) : inlet.payload = x :: inlet'.payload := by
  unfold pull at h
  split at h
  · dsimp only at h
    split at h
    · split at h <;> cases h
      rfl
    · split at h
      · split at h <;> cases h
      · cases h
  · cases h
    rfl
  · cases h
  · cases h

theorem pull_ended {inlet inlet' : Inlet τ} {now turn : Nat}
    (h : inlet.pull now turn = (.ended, inlet')) : inlet.payload = [] ∧ inlet'.payload = [] := by
  unfold pull at h
  split at h
  · dsimp only at h
    split at h
    · split at h <;> cases h
    · split at h
      · split at h <;> cases h
        exact ⟨rfl, rfl⟩
      · cases h
  · cases h
  · cases h
    exact ⟨rfl, rfl⟩
  · cases h

theorem pull_pending {inlet inlet' : Inlet τ} {now turn : Nat}
    (h : inlet.pull now turn = (.pending, inlet')) : inlet'.payload = inlet.payload := by
  unfold pull at h
  split at h
  · dsimp only at h
    split at h
    · split at h <;> cases h
      rfl
    · split at h
      · split at h <;> cases h
        rfl
      · cases h
        rfl
  · cases h
  · cases h
  · cases h
    rfl

end Inlet

/-! ## 2. Collectors -/

namespace Collector

@[simp] theorem buffer_waitFrom (c : Collector τ) (turn : Nat) :
    (c.waitFrom turn).buffer = c.buffer := by
  unfold waitFrom
  split <;> rfl

@[simp] theorem size_waitFrom (c : Collector τ) (turn : Nat) : (c.waitFrom turn).size = c.size := by
  unfold waitFrom
  split <;> rfl

@[simp] theorem buffer_push (c : Collector τ) (x : τ) (now : Nat) :
    (c.push x now).buffer = c.buffer ++ [x] := rfl

/-- What asking for a window leads to, as far as items are concerned. -/
structure Conserves (c : Collector τ) (inlet : Inlet τ) (answer : Pull (List τ))
    (c' : Collector τ) (inlet' : Inlet τ) : Prop where
  items : answer.items ++ (c'.buffer ++ inlet'.payload) = c.buffer ++ inlet.payload
  size : c'.size = c.size
  ended : answer = .ended → c'.buffer = [] ∧ inlet'.payload = []

/-- No item is lost or doubled while a window is filled. -/
theorem fill_conserves (c : Collector τ) (now turn room : Nat) (inlet : Inlet τ) :
    Conserves c inlet (c.fill now turn room inlet).1 (c.fill now turn room inlet).2.1
      (c.fill now turn room inlet).2.2 := by
  induction room generalizing c inlet with
  | zero => exact ⟨rfl, rfl, by simp [fill]⟩
  | succ room ih =>
    unfold fill
    split
    · rename_i x inlet' hpull
      obtain ⟨hitems, hsize, hended⟩ := ih (c.push x now) inlet'
      refine ⟨?_, hsize, hended⟩
      rw [hitems, Inlet.pull_item hpull, buffer_push, List.append_assoc]
      rfl
    · rename_i inlet' hpull
      obtain ⟨hpay, hpay'⟩ := Inlet.pull_ended hpull
      split
      · rename_i hempty
        have hbuf : c.buffer = [] := by simpa using hempty
        exact ⟨by simp [Pull.items, hbuf, hpay, hpay'], rfl, fun _ => ⟨hbuf, hpay'⟩⟩
      · exact ⟨by simp [Pull.items, flush, hpay, hpay'], rfl, by simp⟩
    · rename_i inlet' hpull
      have hpay := Inlet.pull_pending hpull
      split
      · exact ⟨by simp [Pull.items, flush, hpay], rfl, by simp⟩
      · exact ⟨by simp [Pull.items, hpay], by simp, by simp⟩

/-- A window that is handed out leaves the buffer empty. It is empty itself only if there was no
room for an item and none was there. -/
theorem fill_item {c : Collector τ} {now turn room : Nat} {inlet : Inlet τ} {window : List τ}
    (h : (c.fill now turn room inlet).1 = .item window) (hroom : room ≠ 0 ∨ c.buffer ≠ []) :
    window ≠ [] ∧ (c.fill now turn room inlet).2.1.buffer = [] := by
  induction room generalizing c inlet with
  | zero =>
    rcases hroom with hroom | hbuf
    · exact absurd rfl hroom
    · have hw : c.buffer = window := by simpa [fill, flush] using h
      exact ⟨hw ▸ hbuf, rfl⟩
  | succ room ih =>
    unfold fill at h ⊢
    split at h
    · rename_i x inlet' hpull
      exact ih h (Or.inr (by simp))
    · split at h
      · cases h
      · rename_i hempty
        have hw : c.buffer = window := by simpa [flush] using h
        rw [if_neg hempty]
        exact ⟨fun hn => hempty (by simp [hw, hn]), rfl⟩
    · split at h
      · rename_i hdue
        have hw : c.buffer = window := by simpa [flush] using h
        rw [if_pos hdue]
        refine ⟨fun hn => ?_, rfl⟩
        rw [← hw] at hn
        simp [hn] at hdue
      · cases h

/-- **Asking for a window loses no item.** -/
theorem pull_conserves (c : Collector τ) (inlet : Inlet τ) (now turn : Nat) :
    Conserves c inlet (c.pull inlet now turn).1 (c.pull inlet now turn).2.1
      (c.pull inlet now turn).2.2 :=
  fill_conserves c now turn _ inlet

theorem pull_item {c : Collector τ} {now turn : Nat} {inlet : Inlet τ} {window : List τ}
    (hsize : c.size ≠ 0) (h : (c.pull inlet now turn).1 = .item window) :
    window ≠ [] ∧ (c.pull inlet now turn).2.1.buffer = [] := by
  refine fill_item h ?_
  by_cases hbuf : c.buffer = []
  · exact Or.inl (by simpa [hbuf] using hsize)
  · exact Or.inr hbuf

end Collector

end Collate
