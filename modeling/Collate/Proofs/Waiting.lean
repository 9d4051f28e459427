/-
Who waits for whom.

A lock is minded by some resolutions if it was served and knows nobody else. Steps keep it so: those
who ask come in with their own ticket, and whoever leaves gives its ticket back. Behind a minded
lock nobody waits for good: it has a holder, the holder is one of the resolutions, and a holder never
waits for its lock.
-/
import Collate.Proofs.Reach

set_option autoImplicit false

namespace Collate

variable {ι α : Type}

/-- The lock was served and knows nobody but these resolutions, those of its path. -/
structure Minded (n : Nat) (rs : List (Resolution ι α)) (sys : System ι α) : Prop where
  served : (sys.locks.get n).Served
  known : ∀ ticket ∈ (sys.locks.get n).tickets, ∃ r ∈ rs, r.path.lock = n ∧ r.ticket = ticket

theorem Minded.idle {n : Nat} {sys : System ι α} (h : sys.locks.get n = {})
    (rs : List (Resolution ι α)) : Minded n rs sys := by
  refine ⟨by rw [h]; rfl, fun ticket ht => ?_⟩
  rw [h] at ht
  cases ht

theorem Minded.mono {n : Nat} {rs rs' : List (Resolution ι α)} {sys sys' : System ι α}
    (h : Minded n rs sys) (hlock : sys'.locks.get n = sys.locks.get n) (hrs : rs ⊆ rs') :
    Minded n rs' sys' := by
  refine ⟨hlock ▸ h.served, fun ticket ht => ?_⟩
  rw [hlock] at ht
  obtain ⟨r, hr, hrt⟩ := h.known ticket ht
  exact ⟨r, hrs hr, hrt⟩

/-- Behind a minded lock a waiter waits for another of the resolutions. -/
theorem Minded.exists_holder {n : Nat} {rs : List (Resolution ι α)} {sys : System ι α}
    (h : Minded n rs sys) (hq : (sys.locks.get n).queue ≠ []) :
    ∃ r ∈ rs, r.path.lock = n ∧ (sys.locks.get n).holds r.ticket = true := by
  obtain ⟨ticket, hholds⟩ := h.served.exists_holder hq
  obtain ⟨r, hr, hlock, rfl⟩ := h.known ticket (Lock.mem_tickets.2 (Or.inl hholds))
  exact ⟨r, hr, hlock, hholds⟩

/-- Whoever holds a lock has it when it asks for it. -/
theorem System.acquire_of_holds {sys : System ι α} {lock ticket : Nat}
    (h : (sys.locks.get lock).holds ticket = true) (hold : Hold) :
    (sys.acquire lock ticket hold).1 = true := by
  rw [System.acquire_fst, System.acquire_eq, Table.get_set_self, Lock.ensureRequested, h]
  exact h

/-- A lock nobody holds and nobody waits for is given to whoever asks for it. -/
theorem System.acquire_of_idle {sys : System ι α} {lock : Nat} (h : sys.locks.get lock = {})
    (ticket : Nat) (hold : Hold) : (sys.acquire lock ticket hold).1 = true := by
  rw [System.acquire_fst, System.acquire_eq, Table.get_set_self, h]
  cases hold <;> simp [Lock.ensureRequested, Lock.holds, Lock.awaits, Lock.request, Lock.serve]

/-! ## 1. What a step does to the locks -/

variable [DecidableEq ι]

namespace Resolution

variable {r r' : Resolution ι α} {sys sys' : System ι α}
  {p : Progress (Resolution ι α) (Except Error (Entries ι (List α)))}

/-- What a step leaves of its lock: it was served, and knows nobody new but the one who stepped. -/
theorem Stepped.lock (h : r.Stepped sys p sys') (hs : (sys.locks.get r.path.lock).Served) :
    (sys'.locks.get r.path.lock).Served
    ∧ ∀ ticket ∈ (sys'.locks.get r.path.lock).tickets,
      ticket ∈ (sys.locks.get r.path.lock).tickets ∨ ticket = r.ticket := by
  rcases h.locking with ⟨hold, rfl⟩ | hlocks | ⟨sys₁, hlocks, rfl⟩
  · rw [System.acquire_eq, Table.get_set_self]
    exact ⟨Lock.served_ensureRequested hs _, fun ticket => Lock.mem_tickets_ensureRequested.1⟩
  · rw [hlocks]
    exact ⟨hs, fun _ => Or.inl⟩
  · rw [System.locks_release, Table.get_set_self, hlocks]
    exact ⟨Lock.served_release _ _, fun ticket ht => Or.inl (Lock.mem_tickets_release.1 ht).1⟩

/-- Whoever ends has nothing to do with its lock any more. -/
theorem Stepped.released {result : Except Error (Entries ι (List α))}
    (h : r.Stepped sys (.finished result) sys') :
    r.ticket ∉ (sys'.locks.get r.path.lock).tickets := by
  have hrelease : ∀ sys₁ : System ι α,
      r.ticket ∉ ((sys₁.release r.path.lock r.ticket).locks.get r.path.lock).tickets := by
    intro sys₁ ht
    rw [System.locks_release, Table.get_set_self] at ht
    exact (Lock.mem_tickets_release.1 ht).2 rfl
  cases h with
  | unread | found | ends => exact hrelease _

/-- A step leaves all other locks alone. -/
theorem Stepped.other_locks (h : r.Stepped sys p sys') {n : Nat} (hn : n ≠ r.path.lock) :
    sys'.locks.get n = sys.locks.get n := by
  rcases h.locking with ⟨hold, rfl⟩ | hlocks | ⟨sys₁, hlocks, rfl⟩
  · rw [System.acquire_eq, Table.get_set_ne _ _ hn]
  · rw [hlocks]
  · rw [System.locks_release, Table.get_set_ne _ _ hn, hlocks]

/-- Without feeds, whoever is blocked waits for its lock or for an alarm. -/
theorem Stepped.blocked (h : r.Stepped sys .blocked sys') (hr : r.Regular) (hu : r.path.Unfed) :
    (∃ hold, (r.phase = .wantsShared ∨ r.phase = .wantsExclusive)
      ∧ (sys.acquire r.path.lock r.ticket hold).1 = false
      ∧ sys' = (sys.acquire r.path.lock r.ticket hold).2)
    ∨ (sys' = sys ∧ ∃ alarm ∈ r.alarms, sys.now < alarm.due) := by
  have hlookup : ∀ {l : Lookup ι} {sys'' : System ι α}, l.Regular → l.layer.feeds = [] →
      ¬l.Stepped sys .blocked sys'' := by
    intro l sys'' hl hf h
    cases h with
    | stalls feeds ready hready hw => exact hw (hl.awaiting hf)
  cases h with
  | queues hp h => exact Or.inl ⟨.shared, Or.inl hp, h, rfl⟩
  | lingers hp h => exact Or.inl ⟨.exclusive, Or.inr hp, h, rfl⟩
  | stalls hp h =>
    rw [Regular, hp] at hr
    exact absurd h (hlookup hr.1 (hu _ hr.2))
  | rests hp h =>
    rw [Regular, hp] at hr
    cases h with
    | stalls h => exact absurd h (hlookup hr.1 (hu _ hr.2.1))
    | waits hnow => exact Or.inr ⟨rfl, _, by simp [alarms, hp, Walk.alarms], hnow⟩

end Resolution

namespace Minded

variable {n : Nat} {before behind : List (Resolution ι α)} {r r' : Resolution ι α}
  {sys sys' : System ι α}

omit [DecidableEq ι] in
/-- Whoever is put in place of one with the same path and ticket minds the same locks. -/
theorem replace (h : Minded n (before ++ r :: behind) sys) (hpath : r'.path = r.path)
    (hticket : r'.ticket = r.ticket) : Minded n (before ++ r' :: behind) sys := by
  refine ⟨h.served, fun ticket ht => ?_⟩
  obtain ⟨x, hx, hlock, hxt⟩ := h.known ticket ht
  rcases List.mem_append.1 hx with hx | hx
  · exact ⟨x, List.mem_append_left _ hx, hlock, hxt⟩
  · rcases List.mem_cons.1 hx with rfl | hx
    · exact ⟨r', by simp, hpath ▸ hlock, hticket.trans hxt⟩
    · exact ⟨x, by simp [hx], hlock, hxt⟩

theorem step {p : Progress (Resolution ι α) (Except Error (Entries ι (List α)))}
    (h : Minded n (before ++ r :: behind) sys) (hs : r.Stepped sys p sys') :
    Minded n (before ++ r :: behind) sys' := by
  by_cases hn : n = r.path.lock
  · subst hn
    obtain ⟨hserved, htickets⟩ := hs.lock h.served
    refine ⟨hserved, fun ticket ht => ?_⟩
    rcases htickets ticket ht with ht | rfl
    · exact h.known ticket ht
    · exact ⟨r, by simp, rfl, rfl⟩
  · exact h.mono (hs.other_locks hn) (List.Subset.refl _)

omit [DecidableEq ι] in
/-- Whoever has nothing to do with its lock any more is not missed. -/
theorem leave (h : Minded n (before ++ r :: behind) sys)
    (hr : r.ticket ∉ (sys.locks.get r.path.lock).tickets) : Minded n (before ++ behind) sys := by
  refine ⟨h.served, fun ticket ht => ?_⟩
  obtain ⟨x, hx, hlock, hxt⟩ := h.known ticket ht
  rcases List.mem_append.1 hx with hx | hx
  · exact ⟨x, List.mem_append_left _ hx, hlock, hxt⟩
  · rcases List.mem_cons.1 hx with rfl | hx
    · exact absurd (hlock ▸ hxt ▸ ht) hr
    · exact ⟨x, List.mem_append_right _ hx, hlock, hxt⟩

omit [DecidableEq ι] in
/-- Whoever gives up is not missed either. -/
theorem cancel (h : Minded n (before ++ r :: behind) sys) :
    Minded n (before ++ behind) (r.cancel sys) := by
  obtain ⟨feeds, ready, _, hcancel⟩ := r.cancel_eq sys
  have hlocks : (r.cancel sys).locks
      = sys.locks.set r.path.lock ((sys.locks.get r.path.lock).release r.ticket) := by rw [hcancel]
  have hminded : Minded n (before ++ r :: behind) (r.cancel sys) := by
    by_cases hn : n = r.path.lock
    · subst hn
      refine ⟨?_, fun ticket ht => ?_⟩
      · rw [hlocks, Table.get_set_self]
        exact Lock.served_release _ _
      · rw [hlocks, Table.get_set_self] at ht
        exact h.known ticket (Lock.mem_tickets_release.1 ht).1
    · exact h.mono (by rw [hlocks, Table.get_set_ne _ _ hn]) (List.Subset.refl _)
  refine hminded.leave fun ht => ?_
  rw [hlocks, Table.get_set_self] at ht
  exact (Lock.mem_tickets_release.1 ht).2 rfl

/-- **Somebody can go on**, once what it waits for has had its time: of resolutions along one path
without feeds that mind its lock, not all can be kept waiting by each other. -/
theorem exists_going {path : Path ι α} {rs : List (Resolution ι α)} (h : Minded path.lock rs sys)
    (hrs : rs ≠ []) (hpath : ∀ r ∈ rs, r.path = path) (hregular : ∀ r ∈ rs, r.Regular)
    (hu : path.Unfed) :
    ∃ r ∈ rs, ∃ due, ∀ now, due ≤ now → (r.step { sys with now := now }).1 ≠ .blocked := by
  by_contra hstuck
  -- Whoever is blocked however late it is does not have the lock and asks for it in vain.
  have hblocked : ∀ r ∈ rs, ∃ hold, (sys.acquire path.lock r.ticket hold).1 = false := by
    intro r hr
    obtain ⟨bound, hbound⟩ : ∃ bound, ∀ alarm ∈ r.alarms, alarm.due ≤ bound := by
      refine ⟨(r.alarms.map Alarm.due).max?.getD 0, fun alarm ha => ?_⟩
      exact List.le_max?_getD_of_mem (List.mem_map_of_mem ha)
    obtain ⟨now, hnow, hb⟩ : ∃ now, bound ≤ now
        ∧ (r.step { sys with now := now }).1 = .blocked := by
      by_contra hno
      exact hstuck ⟨r, hr, bound, fun now hnow hb => hno ⟨now, hnow, hb⟩⟩
    have hs := r.stepped { sys with now := now }
    rw [hb] at hs
    rcases hs.blocked (hregular r hr) (hpath r hr ▸ hu) with
      ⟨hold, _, hfalse, _⟩ | ⟨_, alarm, ha, hlt⟩
    · rw [hpath r hr] at hfalse
      exact ⟨hold, hfalse⟩
    · have hdue := hbound alarm ha
      have hlt' : now < alarm.due := hlt
      omega
  have hfree : ∀ r ∈ rs, (sys.locks.get path.lock).holds r.ticket ≠ true := by
    intro r hr hholds
    obtain ⟨hold, hfalse⟩ := hblocked r hr
    rw [System.acquire_of_holds hholds] at hfalse
    cases hfalse
  -- So nobody has it, and therefore nobody waits for it: it is idle.
  have hidle : sys.locks.get path.lock = {} := by
    have hnone : ∀ ticket, (sys.locks.get path.lock).holds ticket ≠ true := by
      intro ticket hholds
      obtain ⟨r, hr, _, rfl⟩ := h.known ticket (Lock.mem_tickets.2 (Or.inl hholds))
      exact hfree r hr hholds
    have hqueue : (sys.locks.get path.lock).queue = [] := by
      by_contra hq
      obtain ⟨r, hr, _, hholds⟩ := h.exists_holder hq
      exact hfree r hr hholds
    cases hl : sys.locks.get path.lock with
    | mk readers writer queue =>
      rw [hl] at hnone hqueue
      have hreaders : readers = [] :=
        List.eq_nil_iff_forall_not_mem.2 fun t ht => hnone t (Lock.holds_iff.2 (Or.inl ht))
      have hwriter : writer = none :=
        Option.eq_none_iff_forall_ne_some.2 fun t ht => hnone t (Lock.holds_iff.2 (Or.inr ht))
      have hqueue' : queue = [] := hqueue
      rw [hreaders, hwriter, hqueue']
  obtain ⟨r, hr⟩ := List.exists_mem_of_ne_nil rs hrs
  obtain ⟨hold, hfalse⟩ := hblocked r hr
  rw [System.acquire_of_idle hidle] at hfalse
  cases hfalse

end Minded

end Collate
