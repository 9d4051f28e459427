/-
What a lock promises to those who hold it and those who wait.

Serving the queue moves waiters from its head to the holders and does nothing else: nobody is lost,
nobody comes in, and whoever held the lock still holds it. A lock that was served has somebody
holding it if anybody waits, so waiting for a lock is always waiting for somebody.
-/
import Mathlib.Data.List.Perm.Basic
import Collate.Lock

set_option autoImplicit false

namespace Collate.Lock

/-- Everybody the lock knows of, holders in front. -/
def tickets (l : Lock) : List Nat :=
  l.readers ++ l.writer.toList ++ l.queue.map fun waiter => waiter.ticket

/-- Nobody at the head of the queue could go on. -/
def Served (l : Lock) : Prop := serve l.readers l.writer l.queue = l

@[simp] theorem holds_iff {l : Lock} {ticket : Nat} :
    l.holds ticket = true ↔ ticket ∈ l.readers ∨ l.writer = some ticket := by
  simp [holds]

@[simp] theorem awaits_iff {l : Lock} {ticket : Nat} :
    l.awaits ticket = true ↔ ∃ waiter ∈ l.queue, waiter.ticket = ticket := by
  simp [awaits]

theorem mem_tickets {l : Lock} {ticket : Nat} :
    ticket ∈ l.tickets ↔ l.holds ticket = true ∨ l.awaits ticket = true := by
  rw [holds_iff, awaits_iff]
  simp [tickets, or_assoc]

/-! ## 1. Serving the queue -/

section Serve

variable {readers : List Nat} {writer : Option Nat} {queue : List Waiter}

/-- While one has the lock for itself nobody is let in. -/
theorem serve_of_writer (readers : List Nat) (ticket : Nat) (queue : List Waiter) :
    serve readers (some ticket) queue = ⟨readers, some ticket, queue⟩ := by
  rcases queue with _ | ⟨⟨t, _ | _, strand⟩, rest⟩ <;> simp [serve]

theorem subset_readers_serve (readers : List Nat) (writer : Option Nat) (queue : List Waiter) :
    readers ⊆ (serve readers writer queue).readers := by
  fun_induction serve readers writer queue with
  | case2 readers ticket strand rest hw ih => exact fun t ht => ih (List.mem_append_left _ ht)
  | case1 | case3 | case4 | case5 => exact fun _ h => h

/-- New holders that share the lock waited to share it. -/
theorem mem_readers_serve {ticket : Nat} (h : ticket ∈ (serve readers writer queue).readers) :
    ticket ∈ readers ∨ ∃ waiter ∈ queue, waiter.ticket = ticket ∧ waiter.hold = .shared := by
  fun_induction serve readers writer queue with
  | case2 readers t strand rest hw ih =>
    rcases ih h with hr | ⟨waiter, hm, hwaiter⟩
    · rcases List.mem_append.1 hr with hr | hr
      · exact Or.inl hr
      · exact Or.inr ⟨_, List.mem_cons_self .., (List.mem_singleton.1 hr).symm, rfl⟩
    · exact Or.inr ⟨waiter, List.mem_cons_of_mem _ hm, hwaiter⟩
  | case1 | case3 | case4 | case5 => exact Or.inl h

/-- Those who still wait are the end of the queue. -/
theorem queue_serve_suffix (readers : List Nat) (writer : Option Nat) (queue : List Waiter) :
    (serve readers writer queue).queue <:+ queue := by
  fun_induction serve readers writer queue with
  | case2 readers ticket strand rest hw ih => exact ih.trans (List.suffix_cons _ _)
  | case4 readers ticket strand rest hw => exact List.suffix_cons _ _
  | case1 | case3 | case5 => exact List.suffix_rfl

/-- Whoever waited still waits, or was let in. -/
theorem mem_queue_serve {waiter : Waiter} (h : waiter ∈ queue) :
    waiter ∈ (serve readers writer queue).queue
      ∨ (serve readers writer queue).holds waiter.ticket = true := by
  rw [holds_iff]
  fun_induction serve readers writer queue with
  | case2 readers ticket strand rest hw ih =>
    rcases List.mem_cons.1 h with rfl | h
    · exact Or.inr (Or.inl (subset_readers_serve _ _ _ (List.mem_append_right _ (by simp))))
    · exact ih h
  | case4 readers ticket strand rest hw =>
    rcases List.mem_cons.1 h with rfl | h
    · exact Or.inr (Or.inr rfl)
    · exact Or.inl h
  | case1 | case3 | case5 => exact Or.inl h

/-- Serving the queue loses nobody and lets nobody in from elsewhere. -/
theorem tickets_serve (readers : List Nat) (writer : Option Nat) (queue : List Waiter) :
    (serve readers writer queue).tickets.Perm (tickets ⟨readers, writer, queue⟩) := by
  fun_induction serve readers writer queue with
  | case2 readers ticket strand rest hw ih =>
    refine ih.trans ?_
    rw [Option.isNone_iff_eq_none.1 hw]
    simp [tickets]
  | case4 readers ticket strand rest hw =>
    have hn := Bool.and_eq_true_iff.1 hw
    rw [Option.isNone_iff_eq_none.1 hn.1, List.isEmpty_iff.1 hn.2]
    simp [tickets]
  | case1 | case3 | case5 => exact .refl _

/-- Serving the queue once is enough. -/
theorem served_serve (readers : List Nat) (writer : Option Nat) (queue : List Waiter) :
    (serve readers writer queue).Served := by
  fun_induction serve readers writer queue with
  | case1 => rfl
  | case2 readers ticket strand rest hw ih => exact ih
  | case3 readers ticket strand rest hw => simp only [Served, serve, if_neg hw]
  | case4 readers ticket strand rest hw => exact serve_of_writer _ _ _
  | case5 readers ticket strand rest hw => simp only [Served, serve, if_neg hw]

end Serve

/-! ## 2. A lock that was served -/

/-- The head of a queue that was served cannot go on. -/
theorem Served.head {l : Lock} {ticket : Nat} {hold : Hold} {strand : Strand} {rest : List Waiter}
    (h : l.Served) (hq : l.queue = ⟨ticket, hold, strand⟩ :: rest) :
    l.writer.isSome ∨ hold = .exclusive ∧ l.readers ≠ [] := by
  obtain ⟨readers, writer, queue⟩ := l
  obtain rfl : queue = _ := hq
  have h' : serve readers writer (⟨ticket, hold, strand⟩ :: rest) = ⟨readers, writer, _⟩ := h
  cases writer with
  | some t => exact Or.inl rfl
  | none =>
    refine Or.inr ?_
    cases hold with
    | shared =>
      -- The head would have been let in, and the queue would have become shorter.
      have hs := queue_serve_suffix (readers ++ [ticket]) none rest
      have hr : serve (readers ++ [ticket]) none rest = _ := h'
      rw [hr] at hs
      have hlen := hs.length_le
      simp only [List.length_cons] at hlen
      omega
    | exclusive =>
      refine ⟨rfl, fun hr => ?_⟩
      obtain rfl : readers = [] := hr
      simp [serve] at h'

/-- Somebody holds a lock that others wait for. -/
theorem Served.exists_holder {l : Lock} (h : l.Served) (hq : l.queue ≠ []) :
    ∃ ticket, l.holds ticket = true := by
  obtain ⟨⟨t, hold, strand⟩, rest, hl⟩ := List.exists_cons_of_ne_nil hq
  rcases h.head hl with hw | ⟨_, hr⟩
  · obtain ⟨ticket, hw⟩ := Option.isSome_iff_exists.1 hw
    exact ⟨ticket, holds_iff.2 (Or.inr hw)⟩
  · obtain ⟨ticket, readers, hr⟩ := List.exists_cons_of_ne_nil hr
    exact ⟨ticket, holds_iff.2 (Or.inl (hr ▸ List.mem_cons_self ..))⟩

/-- **Nobody overtakes those who wait**: whoever asks for the lock joins the end of the queue. -/
theorem Served.request {l : Lock} (h : l.Served) (hq : l.queue ≠ []) (waiter : Waiter) :
    l.request waiter = { l with queue := l.queue ++ [waiter] } := by
  obtain ⟨⟨t, hold, strand⟩, rest, hl⟩ := List.exists_cons_of_ne_nil hq
  rw [Lock.request, hl, List.cons_append]
  rcases h.head hl with hw | ⟨rfl, hr⟩
  · obtain ⟨ticket, hw⟩ := Option.isSome_iff_exists.1 hw
    rw [hw, serve_of_writer]
  · rw [serve, if_neg]
    simp [hr]

/-! ## 3. Asking for the lock and giving it back -/

section Change

variable {l : Lock} {ticket : Nat} {waiter : Waiter}

theorem served_request (l : Lock) (waiter : Waiter) : (l.request waiter).Served :=
  served_serve _ _ _

theorem served_release (l : Lock) (ticket : Nat) : (l.release ticket).Served := served_serve _ _ _

theorem served_ensureRequested (h : l.Served) (waiter : Waiter) :
    (l.ensureRequested waiter).Served := by
  unfold ensureRequested
  split
  · exact h
  · exact served_request l waiter

/-- After asking, the lock knows of whoever asked, and otherwise of those it knew. -/
theorem mem_tickets_ensureRequested :
    ticket ∈ (l.ensureRequested waiter).tickets ↔ ticket ∈ l.tickets ∨ ticket = waiter.ticket := by
  unfold ensureRequested
  split
  · rename_i h
    refine ⟨Or.inl, fun ht => ht.elim id ?_⟩
    rintro rfl
    exact mem_tickets.2 (by simpa using h)
  · rw [Lock.request, (tickets_serve _ _ _).mem_iff]
    simp [tickets, or_assoc]

/-- After giving back, the lock knows of all others it knew and of nobody else. -/
theorem mem_tickets_release {other : Nat} :
    other ∈ (l.release ticket).tickets ↔ other ∈ l.tickets ∧ other ≠ ticket := by
  rw [release, (tickets_serve _ _ _).mem_iff]
  simp only [tickets, List.mem_append, List.mem_filter, List.mem_map, Option.mem_toList,
    Option.filter_eq_some_iff, decide_eq_true_eq]
  grind

theorem mem_queue_ensureRequested {other : Waiter}
    (h : other ∈ (l.ensureRequested waiter).queue) : other ∈ l.queue ∨ other = waiter := by
  unfold ensureRequested at h
  split at h
  · exact Or.inl h
  · have hm := (queue_serve_suffix _ _ _).subset h
    rwa [List.mem_append, List.mem_singleton] at hm

theorem queue_release_subset (l : Lock) (ticket : Nat) : (l.release ticket).queue ⊆ l.queue :=
  fun _ h => (List.mem_filter.1 ((queue_serve_suffix _ _ _).subset h)).1

/-- Whoever is kept waiting is not heard earlier because another asks. -/
theorem awaits_ensureRequested (h : l.Served) (ha : l.awaits ticket = true)
    (hh : l.holds ticket = false) : (l.ensureRequested waiter).awaits ticket = true
      ∧ (l.ensureRequested waiter).holds ticket = false := by
  unfold ensureRequested
  split
  · exact ⟨ha, hh⟩
  · obtain ⟨other, ho, rfl⟩ := awaits_iff.1 ha
    rw [h.request (List.ne_nil_of_mem ho)]
    exact ⟨awaits_iff.2 ⟨other, List.mem_append_left _ ho, rfl⟩, hh⟩

/-- Whoever waits is kept waiting, or called, when another gives the lock back. -/
theorem awaits_release {other : Nat} (ha : l.awaits other = true) (hne : other ≠ ticket) :
    ((l.release ticket).awaits other = true ∧ (l.release ticket).holds other = false)
    ∨ ∃ waiter ∈ l.queue, waiter.ticket = other
      ∧ waiter.strand ∈ l.admitted (l.release ticket) := by
  obtain ⟨waiter, hw, rfl⟩ := awaits_iff.1 ha
  cases hh : (l.release ticket).holds waiter.ticket with
  | true =>
    exact Or.inr ⟨waiter, hw, rfl, List.mem_map_of_mem (List.mem_filter.2 ⟨hw, hh⟩)⟩
  | false =>
    have hm : waiter ∈ (l.release ticket).queue ∨ (l.release ticket).holds waiter.ticket = true :=
      mem_queue_serve (List.mem_filter.2 ⟨hw, by simpa using hne⟩)
    rw [hh] at hm
    rcases hm with hm | hm
    · exact Or.inl ⟨awaits_iff.2 ⟨waiter, hm, rfl⟩, rfl⟩
    · cases hm

end Change

/-! ## 4. The lock for oneself -/

/-- The ticket has nothing to do with sharing the lock: it does not share it and does not wait to. -/
def SharesNothing (l : Lock) (ticket : Nat) : Prop :=
  ticket ∉ l.readers ∧ ∀ waiter ∈ l.queue, waiter.ticket = ticket → waiter.hold = .exclusive

section Alone

variable {l : Lock} {ticket other : Nat}

theorem sharesNothing_serve {readers : List Nat} {writer : Option Nat} {queue : List Waiter}
    (hr : ticket ∉ readers)
    (hq : ∀ waiter ∈ queue, waiter.ticket = ticket → waiter.hold = .exclusive) :
    (serve readers writer queue).SharesNothing ticket := by
  refine ⟨fun hm => ?_, fun waiter hw => hq waiter ((queue_serve_suffix _ _ _).subset hw)⟩
  rcases mem_readers_serve hm with hm | ⟨waiter, hw, ht, hshared⟩
  · exact hr hm
  · rw [hq waiter hw ht] at hshared
    cases hshared

theorem SharesNothing.ensureRequested (h : l.SharesNothing ticket) {waiter : Waiter}
    (hw : waiter.ticket = ticket → waiter.hold = .exclusive) :
    (l.ensureRequested waiter).SharesNothing ticket := by
  unfold Lock.ensureRequested
  split
  · exact h
  · refine sharesNothing_serve h.1 fun x hx => ?_
    rcases List.mem_append.1 hx with hx | hx
    · exact h.2 x hx
    · exact List.mem_singleton.1 hx ▸ hw

theorem SharesNothing.release (h : l.SharesNothing ticket) (other : Nat) :
    (l.release other).SharesNothing ticket :=
  sharesNothing_serve (fun hm => h.1 (List.mem_filter.1 hm).1)
    fun x hx => h.2 x (List.mem_filter.1 hx).1

/-- Whoever gave the lock back has nothing to do with it. -/
theorem sharesNothing_release_self (l : Lock) (ticket : Nat) :
    (l.release ticket).SharesNothing ticket := by
  refine sharesNothing_serve (by simp) fun x hx ht => ?_
  simp [ht] at hx

/-- Whoever holds the lock and does not share it has it alone. -/
theorem SharesNothing.writer_of_holds (h : l.SharesNothing ticket) (hh : l.holds ticket = true) :
    l.writer = some ticket :=
  (holds_iff.1 hh).resolve_left h.1

theorem writer_ensureRequested (h : l.writer = some ticket) (waiter : Waiter) :
    (l.ensureRequested waiter).writer = some ticket := by
  unfold Lock.ensureRequested
  split
  · exact h
  · rw [Lock.request, h, serve_of_writer]

/-- Whoever has the lock alone keeps it when others give it back. -/
theorem writer_release (h : l.writer = some ticket) (hne : other ≠ ticket) :
    (l.release other).writer = some ticket := by
  rw [Lock.release, h, Option.filter_some, if_pos (by simpa using Ne.symm hne), serve_of_writer]

end Alone

end Collate.Lock
