/-
Going on alone.

A walk and a resolution meet with three things outside themselves: layers they look into, the origin
they ask, layers they write. Each is the move of one step and can be told from what stands before
the step, with all that is handed over. Whoever goes on alone takes steps, and in between only time
passes; what comes of it is the list of its moves, a result and a state. Since a step reaches stores
and sources by its move alone (`Walk.Stepped.makes`), the moves account for all that is left behind
(`Alone.makes`).
-/
import Collate.Proofs.Errands
import Collate.Proofs.Proceedings

set_option autoImplicit false

namespace Collate

variable {ι α : Type}

/-! ## 1. Moves -/

/-- What is called on the way through a chain, and with what. -/
inductive Move (ι α : Type) where
  /-- A layer is asked for ids. -/
  | look (layer : Layer) (ids : List ι)
  /-- The origin is asked for ids. -/
  | ask (ids : List ι)
  /-- A layer is given entries. -/
  | give (layer : Layer) (entries : Entries ι (List α))

/-- The ids the origin is asked for. -/
def Move.asked? : Move ι α → Option (List ι)
  | .ask ids => some ids
  | _ => none

/-- The move of a lookup's next step. -/
def Lookup.move? (l : Lookup ι) : Option (Move ι α) :=
  match l.awaiting with
  | [] => some (.look l.layer l.ids)
  | _ :: _ => none

/-- What the stores hold and how often the sources were called. -/
structure System.SameStock (sys sys' : System ι α) : Prop where
  stores : sys'.stores = sys.stores
  sources : sys'.sources = sys.sources

namespace System.SameStock

variable {sys sys' sys'' : System ι α}

theorem refl (sys : System ι α) : SameStock sys sys := ⟨rfl, rfl⟩

theorem trans (h : SameStock sys sys') (h' : SameStock sys' sys'') : SameStock sys sys'' :=
  ⟨h'.stores.trans h.stores, h'.sources.trans h.sources⟩

theorem of_passes (h : Traffic.Passes sys sys') : SameStock sys sys' := by
  obtain ⟨now, _, rfl⟩ := h
  exact ⟨rfl, rfl⟩

theorem of_release (sys : System ι α) (lock ticket : Nat) :
    SameStock sys (sys.release lock ticket) :=
  ⟨Resolution.stores_release sys lock ticket, Resolution.sources_release sys lock ticket⟩

end System.SameStock

variable [DecidableEq ι]

/-- Makes a move. -/
def Move.make (origin : Origin ι α) (sys : System ι α) : Move ι α → System ι α
  | .look layer ids => (sys.read layer ids).2
  | .ask ids => (sys.ask origin ids).2
  | .give layer entries => (sys.write layer entries).2

/-- The move of a walk's next step. -/
def Walk.move? : Walk ι α → Option (Move ι α)
  | .descending lookup _ _ => lookup.move?
  | .asking (id :: rest) _ => some (.ask (id :: rest))
  | .returning fetched (frame :: _) => some (.give frame.layer (writeBack frame fetched))
  | _ => none

/-- The move of a resolution's next step. -/
def Resolution.move? (r : Resolution ι α) : Option (Move ι α) :=
  match r.phase with
  | .peeking lookup => lookup.move?
  | .walking walk => walk.move?
  | _ => none

/-- The state after a move, if there is one. -/
def Move.makeAll (origin : Origin ι α) (sys : System ι α) (moves : List (Move ι α)) : System ι α :=
  moves.foldl (Move.make origin) sys

/-! ## 2. What a move depends on -/

namespace System

variable {origin : Origin ι α} {sys sys' : System ι α}

/-- Reading depends on the stores. -/
theorem SameStock.read (h : SameStock sys sys') (layer : Layer) (ids : List ι) :
    (sys'.read layer ids).1 = (sys.read layer ids).1
    ∧ SameStock (sys.read layer ids).2 (sys'.read layer ids).2 := by
  obtain ⟨log, hread⟩ := read_eq sys layer ids
  obtain ⟨log', hread'⟩ := read_eq sys' layer ids
  refine ⟨by rw [read_fst, read_fst, h.stores], ?_⟩
  rw [hread, hread', h.stores]
  exact ⟨rfl, h.sources⟩

/-- Writing depends on the stores. -/
theorem SameStock.write (h : SameStock sys sys') (layer : Layer) (entries : Entries ι (List α)) :
    (sys'.write layer entries).1 = (sys.write layer entries).1
    ∧ SameStock (sys.write layer entries).2 (sys'.write layer entries).2 := by
  obtain ⟨log, hwrite⟩ := write_eq sys layer entries
  obtain ⟨log', hwrite'⟩ := write_eq sys' layer entries
  refine ⟨by rw [write_fst, write_fst, h.stores], ?_⟩
  rw [hwrite, hwrite', h.stores]
  exact ⟨rfl, h.sources⟩

/-- Asking reaches no store. -/
theorem stores_ask (sys : System ι α) (origin : Origin ι α) (ids : List ι) :
    (sys.ask origin ids).2.stores = sys.stores := by
  obtain ⟨sources, log, _, hask⟩ := ask_eq sys origin ids
  rw [hask]

/-- What is answered depends on the sources; when it is answered is another matter. -/
theorem ask_congr (h : sys'.sources = sys.sources) (origin : Origin ι α) (ids : List ι) :
    (sys'.ask origin ids).1.2 = (sys.ask origin ids).1.2
    ∧ (sys'.ask origin ids).2.sources = (sys.ask origin ids).2.sources := by
  cases origin with
  | source number bucket key =>
    refine ⟨?_, ?_⟩
    · simp only [ask, h]
    · simp only [ask, h, note]
  | fallback bucket delay answer => exact ⟨rfl, h⟩

theorem SameStock.ask (h : SameStock sys sys') (origin : Origin ι α) (ids : List ι) :
    (sys'.ask origin ids).1.2 = (sys.ask origin ids).1.2
    ∧ SameStock (sys.ask origin ids).2 (sys'.ask origin ids).2 := by
  obtain ⟨hanswer, hsources⟩ := ask_congr h.sources origin ids
  refine ⟨hanswer, ?_, hsources⟩
  rw [stores_ask, stores_ask]
  exact h.stores

theorem SameStock.make (h : SameStock sys sys') (origin : Origin ι α) (move : Move ι α) :
    SameStock (move.make origin sys) (move.make origin sys') := by
  cases move with
  | look layer ids => exact (h.read layer ids).2
  | ask ids => exact (h.ask origin ids).2
  | give layer entries => exact (h.write layer entries).2

theorem SameStock.makeAll (h : SameStock sys sys') (origin : Origin ι α)
    (moves : List (Move ι α)) :
    SameStock (Move.makeAll origin sys moves) (Move.makeAll origin sys' moves) := by
  induction moves generalizing sys sys' with
  | nil => exact h
  | cons move rest ih => exact ih (h.make origin move)

end System

/-! ## 3. A step makes its move -/

theorem Lookup.Stepped.makes {l : Lookup ι} {sys sys' : System ι α}
    {p : Progress (Lookup ι) (Except Error (Found ι α))} (h : l.Stepped sys p sys')
    (origin : Origin ι α) : (Move.makeAll origin sys l.move?.toList).SameStock sys' := by
  have hnone : l.awaiting ≠ [] → (l.move? : Option (Move ι α)) = none := by
    intro hne
    obtain ⟨ref, rest, hw⟩ := List.exists_cons_of_ne_nil hne
    rw [move?, hw]
  cases h with
  | stalls feeds ready hr hw | watches feeds ready hr hw | refused feeds ready hr hw =>
    rw [hnone hw]
    exact ⟨rfl, rfl⟩
  | passes feeds ready hr hw =>
    rw [hnone (hw ▸ List.cons_ne_nil _ _)]
    exact ⟨rfl, rfl⟩
  | reads hw =>
    rw [move?, hw]
    exact .refl _

/-- A lookup that tries in vain reaches nothing. -/
theorem Lookup.Stepped.sameStock {l : Lookup ι} {sys sys' : System ι α}
    (h : l.Stepped sys .blocked sys') : sys.SameStock sys' := by
  cases h with
  | stalls => exact ⟨rfl, rfl⟩

/-- **A step of a walk reaches stores and sources by its move alone.** -/
theorem Walk.Stepped.makes {origin : Origin ι α} {walk : Walk ι α} {sys sys' : System ι α}
    {p : Progress (Walk ι α) (Except Error (Entries ι (List α)))}
    (h : Stepped origin walk sys p sys') :
    (Move.makeAll origin sys walk.move?.toList).SameStock sys' := by
  cases h with
  | stalls h | looks h | unread h | found h | missed h => exact h.makes origin
  | spared | waits | failed | answered | done => exact .refl sys
  | unwritten | written => exact .refl _
  | asked hids =>
    obtain ⟨id, rest, rfl⟩ := List.exists_cons_of_ne_nil hids
    exact .refl _

/-! ## 4. Alone to the end -/

section Alone

variable {σ ρ : Type}

/-- Something goes on alone to its end: it takes its steps, and in between only time passes. Listed
are its moves. -/
inductive Alone (step : σ → System ι α → Progress σ ρ × System ι α)
    (move? : σ → Option (Move ι α)) :
    σ → System ι α → List (Move ι α) → ρ → System ι α → Prop where
  /-- It has all the time it needs. -/
  | passes {s : σ} {sys sys₁ sys' : System ι α} {moves : List (Move ι α)} {result : ρ}
      (h : Traffic.Passes sys sys₁) (hrest : Alone step move? s sys₁ moves result sys') :
      Alone step move? s sys moves result sys'
  /-- It tries in vain. -/
  | blocked {s : σ} {sys sys₁ sys' : System ι α} {moves : List (Move ι α)} {result : ρ}
      (h : step s sys = (.blocked, sys₁)) (hrest : Alone step move? s sys₁ moves result sys') :
      Alone step move? s sys moves result sys'
  | goes {s s₁ : σ} {sys sys₁ sys' : System ι α} {moves : List (Move ι α)} {result : ρ}
      (h : step s sys = (.going s₁, sys₁)) (hrest : Alone step move? s₁ sys₁ moves result sys') :
      Alone step move? s sys ((move? s).toList ++ moves) result sys'
  | ends {s : σ} {sys sys' : System ι α} {result : ρ} (h : step s sys = (.finished result, sys')) :
      Alone step move? s sys (move? s).toList result sys'

variable {step : σ → System ι α → Progress σ ρ × System ι α} {move? : σ → Option (Move ι α)}
  {s : σ} {sys sys' : System ι α} {moves : List (Move ι α)} {result : ρ}

omit [DecidableEq ι] in
/-- What comes next is a step that goes on or the last one. It is taken with the stock as it is,
since neither time nor vain tries reach it. -/
theorem Alone.next (h : Alone step move? s sys moves result sys')
    (hblocked : ∀ {sys₁ sys₂}, step s sys₁ = (.blocked, sys₂) → sys₁.SameStock sys₂) :
    ∃ sys₁, sys.SameStock sys₁
      ∧ ((step s sys₁ = (.finished result, sys') ∧ moves = (move? s).toList)
        ∨ ∃ s₁ sys₂ rest, step s sys₁ = (.going s₁, sys₂) ∧ moves = (move? s).toList ++ rest
          ∧ Alone step move? s₁ sys₂ rest result sys') := by
  induction h with
  | passes h _ ih =>
    obtain ⟨sys₁, hsame, hnext⟩ := ih hblocked
    exact ⟨sys₁, (System.SameStock.of_passes h).trans hsame, hnext⟩
  | blocked h _ ih =>
    obtain ⟨sys₁, hsame, hnext⟩ := ih hblocked
    exact ⟨sys₁, (hblocked h).trans hsame, hnext⟩
  | goes h hrest _ => exact ⟨_, .refl _, Or.inr ⟨_, _, _, h, rfl, hrest⟩⟩
  | ends h => exact ⟨_, .refl _, Or.inl ⟨h, rfl⟩⟩

end Alone

/-- A walk goes on alone. -/
abbrev Walk.Alone (origin : Origin ι α) (walk : Walk ι α) (sys : System ι α)
    (moves : List (Move ι α)) (result : Except Error (Entries ι (List α))) (sys' : System ι α) :
    Prop :=
  Collate.Alone (Walk.step origin) Walk.move? walk sys moves result sys'

/-- A resolution goes on alone. -/
abbrev Resolution.Alone (r : Resolution ι α) (sys : System ι α) (moves : List (Move ι α))
    (result : Except Error (Entries ι (List α))) (sys' : System ι α) : Prop :=
  Collate.Alone Resolution.step Resolution.move? r sys moves result sys'

namespace Walk

variable {origin : Origin ι α} {walk : Walk ι α} {sys sys' : System ι α} {moves : List (Move ι α)}
  {result : Except Error (Entries ι (List α))}

/-- A walk that tries in vain reaches nothing. -/
theorem Stepped.sameStock (h : Stepped origin walk sys .blocked sys') : sys.SameStock sys' := by
  cases h with
  | stalls h => exact h.sameStock
  | waits => exact .refl _

theorem sameStock_of_blocked (h : walk.step origin sys = (.blocked, sys')) :
    sys.SameStock sys' := by
  have hs := walk.stepped origin sys
  rw [h] at hs
  exact hs.sameStock

/-- The next step of a walk is taken with the stock as it is. -/
theorem Alone.step (h : walk.Alone origin sys moves result sys') :
    ∃ sys₁, sys.SameStock sys₁
      ∧ ((walk.step origin sys₁ = (.finished result, sys') ∧ moves = walk.move?.toList)
        ∨ ∃ walk₁ sys₂ rest, walk.step origin sys₁ = (.going walk₁, sys₂)
          ∧ moves = walk.move?.toList ++ rest ∧ walk₁.Alone origin sys₂ rest result sys') :=
  Collate.Alone.next h sameStock_of_blocked

/-- **The moves account for everything**: they leave the stock that was left behind. -/
theorem Alone.makes (h : walk.Alone origin sys moves result sys') :
    (Move.makeAll origin sys moves).SameStock sys' := by
  -- What comes before the first move reaches no stock, so the moves may as well be made without it.
  induction h with
  | passes hp _ ih => exact ((System.SameStock.of_passes hp).makeAll origin _).trans ih
  | blocked hb _ ih => exact ((sameStock_of_blocked hb).makeAll origin _).trans ih
  | @goes walk _ sys _ _ moves _ hg _ ih =>
    have hs := walk.stepped origin sys
    rw [hg] at hs
    rw [Move.makeAll, List.foldl_append]
    exact (hs.makes.makeAll origin moves).trans ih
  | @ends walk sys _ _ he =>
    have hs := walk.stepped origin sys
    rw [he] at hs
    exact hs.makes

/-- **A walk along layers without feeds comes to an end** when it is left alone. -/
theorem exists_alone {layers : List Layer} (hu : ∀ layer ∈ layers, layer.feeds = [])
    (hw : walk.Regular layers) (sys : System ι α) :
    ∃ moves result sys', walk.Alone origin sys moves result sys' := by
  generalize hleft : walk.left = left
  induction left using Nat.strongRecOn generalizing walk sys with
  | ind left ih =>
    -- When all its alarms have rung it is not blocked.
    obtain ⟨now, hnow, hdue⟩ := Alarm.exists_later sys.now walk.alarms
    have hpass : Traffic.Passes sys { sys with now := now } := ⟨now, hnow, rfl⟩
    have hs := walk.stepped origin { sys with now := now }
    rcases hstep : walk.step origin { sys with now := now } with ⟨_ | walk' | result, sys'⟩ <;>
      rw [hstep] at hs
    · exfalso
      cases hs with
      | stalls hl =>
        cases hl with
        | stalls feeds ready hr hne => exact hne (hw.1.awaiting (hu _ hw.2.1))
      | waits hlt => exact absurd (hdue _ (List.mem_singleton_self _)) (Nat.not_le_of_lt hlt)
    · obtain ⟨hw', hlt⟩ := hs.going hw
      obtain ⟨moves, result, last, hrest⟩ := ih _ (hleft ▸ hlt) hw' sys' rfl
      exact ⟨_, result, last, .passes hpass (.goes hstep hrest)⟩
    · exact ⟨_, result, sys', .passes hpass (.ends hstep)⟩

end Walk

end Collate
