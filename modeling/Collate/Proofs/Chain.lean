/-
A chain of layers as a function.

A walk takes its way through a chain in steps and keeps what it passed in frames, because others may
come in between. Where nobody does, all this comes down to a recursion over the layers: look into
the first one, fetch what it misses from those behind it, give it what was fetched (`Chain.fetch`).
The way down is a recursion that has yet to return, and the frames are what it will do then
(`Chain.unwind`). A walk that is left alone makes just the moves of the function, ends with its
result, and leaves the stock it leaves (`Walk.Alone.fetched`).

What the function does depends on the state only by what reads, writes and calls bring to light; a
relation between states that these keep is kept by all of it (`Chain.fetch_like`).
-/
import Collate.Proofs.Solitude

set_option autoImplicit false

namespace Collate

variable {ι α ρ τ : Type}

/-! ## 1. Journeys -/

/-- What came of something that makes moves. -/
structure Journey (ι α ρ : Type) where
  moves : List (Move ι α)
  result : Except Error ρ
  system : System ι α

namespace Journey

/-- Comes after other moves. -/
def led (moves : List (Move ι α)) (j : Journey ι α ρ) : Journey ι α ρ :=
  { j with moves := moves ++ j.moves }

/-- Goes on with the result, unless that is a failure. -/
def bind (j : Journey ι α ρ) (next : ρ → System ι α → Journey ι α τ) : Journey ι α τ :=
  match j.result with
  | .error e => ⟨j.moves, .error e, j.system⟩
  | .ok x => (next x j.system).led j.moves

variable {j k l : Journey ι α ρ} {next : ρ → System ι α → Journey ι α τ}

theorem bind_of_error {e : Error} (h : j.result = .error e) :
    j.bind next = ⟨j.moves, .error e, j.system⟩ := by
  rw [bind, h]

theorem bind_of_ok {x : ρ} (h : j.result = .ok x) :
    j.bind next = (next x j.system).led j.moves := by
  rw [bind, h]

theorem bind_led (moves : List (Move ι α)) (j : Journey ι α ρ)
    (next : ρ → System ι α → Journey ι α τ) :
    (j.led moves).bind next = (j.bind next).led moves := by
  obtain ⟨own, result, sys⟩ := j
  cases result with
  | error e => rfl
  | ok x => simp only [bind, led, List.append_assoc]

theorem bind_assoc {υ : Type} (j : Journey ι α ρ) (next : ρ → System ι α → Journey ι α τ)
    (last : τ → System ι α → Journey ι α υ) :
    (j.bind next).bind last = j.bind fun x sys => (next x sys).bind last := by
  cases h : j.result with
  | error e => rw [bind_of_error h, bind_of_error h, bind_of_error rfl]
  | ok x => rw [bind_of_ok h, bind_of_ok h, bind_led]

/-- Journeys that make the same moves and have the same result, and states that are related. -/
structure Like (related : System ι α → System ι α → Prop) (j k : Journey ι α ρ) : Prop where
  moves : k.moves = j.moves
  result : k.result = j.result
  system : related j.system k.system

variable {related : System ι α → System ι α → Prop}

theorem Like.trans (h : j.Like System.SameStock k) (h' : k.Like System.SameStock l) :
    j.Like System.SameStock l :=
  ⟨h'.moves.trans h.moves, h'.result.trans h.result, h.system.trans h'.system⟩

theorem Like.led (h : j.Like related k) (moves : List (Move ι α)) :
    (j.led moves).Like related (k.led moves) :=
  ⟨congrArg (moves ++ ·) h.moves, h.result, h.system⟩

theorem Like.bind {next' : ρ → System ι α → Journey ι α τ} (h : j.Like related k)
    (hnext : ∀ x sys sys', j.result = .ok x → related sys sys' →
      (next x sys).Like related (next' x sys')) :
    (j.bind next).Like related (k.bind next') := by
  cases hj : j.result with
  | error e =>
    rw [bind_of_error hj, bind_of_error (h.result.trans hj)]
    exact ⟨h.moves, rfl, h.system⟩
  | ok x =>
    rw [bind_of_ok hj, bind_of_ok (h.result.trans hj), h.moves]
    exact (hnext x _ _ hj h.system).led j.moves

end Journey

variable [DecidableEq ι]

/-! ## 2. The function -/

namespace Chain

/-- A layer is asked for ids. -/
def look (layer : Layer) (ids : List ι) (sys : System ι α) : Journey ι α (Found ι α) :=
  ⟨[.look layer ids], (sys.read layer ids).1, (sys.read layer ids).2⟩

/-- A layer is asked for ids. If it misses some of them something comes next. -/
def lookThen (layer : Layer) (ids : List ι)
    (next : Found ι α → System ι α → Journey ι α (Entries ι (List α))) (sys : System ι α) :
    Journey ι α (Entries ι (List α)) :=
  (look layer ids sys).bind fun found sys =>
    if found.misses.isEmpty then ⟨[], .ok found.hits, sys⟩ else next found sys

/-- The origin is asked for ids, unless there are none. -/
def askFor (origin : Origin ι α) (ids : List ι) (sys : System ι α) :
    Journey ι α (Entries ι (List α)) :=
  match ids with
  | [] => ⟨[], .ok .empty, sys⟩
  | id :: rest =>
    ⟨[.ask (id :: rest)], (sys.ask origin (id :: rest)).1.2, (sys.ask origin (id :: rest)).2⟩

/-- A layer is given what was fetched behind it, and everything is passed on that is known now. -/
def give (frame : Frame ι α) (fetched : Entries ι (List α)) (sys : System ι α) :
    Journey ι α (Entries ι (List α)) :=
  let entries := Walk.writeBack frame fetched
  ⟨[.give frame.layer entries],
    (sys.write frame.layer entries).1.map fun _ => frame.hits.insertAll entries.pairs,
    (sys.write frame.layer entries).2⟩

/-- Gets ids from a chain of layers in front of an origin. -/
def fetch (origin : Origin ι α) : List Layer → List ι → System ι α →
    Journey ι α (Entries ι (List α))
  | [], ids, sys => askFor origin ids sys
  | layer :: rest, ids, sys => lookThen layer ids (fun found sys =>
    -- What the layers behind it come to is given to the layer, with what it held itself.
    (fetch origin rest found.misses sys).bind (give ⟨layer, found.hits, found.misses⟩)) sys

/-- What is left to do on the way back. -/
def unwind : List (Frame ι α) → Entries ι (List α) → System ι α →
    Journey ι α (Entries ι (List α))
  | [], fetched, sys => ⟨[], .ok fetched, sys⟩
  | frame :: frames, fetched, sys => (give frame fetched sys).bind (unwind frames)

theorem bind_unwind_nil (j : Journey ι α (Entries ι (List α))) : j.bind (unwind []) = j := by
  obtain ⟨moves, result, sys⟩ := j
  cases result with
  | error e => rfl
  | ok fetched => simp only [Journey.bind, unwind, Journey.led, List.append_nil]

section Look

variable {layer : Layer} {ids : List ι} {sys : System ι α}
  (next : Found ι α → System ι α → Journey ι α (Entries ι (List α)))

/-- A layer that cannot be read ends it. -/
theorem lookThen_of_error {e : Error} (h : (sys.read layer ids).1 = .error e) :
    lookThen layer ids next sys = ⟨[.look layer ids], .error e, (sys.read layer ids).2⟩ := by
  have hlook : (look layer ids sys).result = .error e := h
  rw [lookThen, Journey.bind_of_error hlook]
  rfl

/-- A layer that misses nothing answers alone. -/
theorem lookThen_of_found {found : Found ι α} (h : (sys.read layer ids).1 = .ok found)
    (hm : found.misses = []) :
    lookThen layer ids next sys = ⟨[.look layer ids], .ok found.hits, (sys.read layer ids).2⟩ := by
  have hlook : (look layer ids sys).result = .ok found := h
  rw [lookThen, Journey.bind_of_ok hlook, if_pos (List.isEmpty_iff.2 hm)]
  rfl

theorem lookThen_of_missed {found : Found ι α} (h : (sys.read layer ids).1 = .ok found)
    (hm : found.misses ≠ []) :
    lookThen layer ids next sys
      = (next found (sys.read layer ids).2).led [.look layer ids] := by
  have hlook : (look layer ids sys).result = .ok found := h
  rw [lookThen, Journey.bind_of_ok hlook, if_neg fun he => hm (List.isEmpty_iff.1 he)]
  rfl

end Look

/-! ## 3. What the function depends on -/

/-- Related states answer the same, and stay related. -/
structure Indifferent (origin : Origin ι α) (layers : List Layer)
    (related : System ι α → System ι α → Prop) : Prop where
  read : ∀ {sys sys'}, related sys sys' → ∀ layer ∈ layers, ∀ ids,
    (sys'.read layer ids).1 = (sys.read layer ids).1
      ∧ related (sys.read layer ids).2 (sys'.read layer ids).2
  write : ∀ {sys sys'}, related sys sys' → ∀ layer ∈ layers, ∀ entries,
    (sys'.write layer entries).1 = (sys.write layer entries).1
      ∧ related (sys.write layer entries).2 (sys'.write layer entries).2
  ask : ∀ {sys sys'}, related sys sys' → ∀ ids,
    (sys'.ask origin ids).1.2 = (sys.ask origin ids).1.2
      ∧ related (sys.ask origin ids).2 (sys'.ask origin ids).2

theorem indifferent_sameStock (origin : Origin ι α) (layers : List Layer) :
    Indifferent origin layers (System.SameStock (ι := ι) (α := α)) :=
  ⟨fun h layer _ ids => h.read layer ids, fun h layer _ entries => h.write layer entries,
    fun h ids => h.ask origin ids⟩

variable {origin : Origin ι α} {layers : List Layer} {related : System ι α → System ι α → Prop}
  {sys sys' : System ι α}

theorem askFor_like (hr : Indifferent origin layers related) (h : related sys sys')
    (ids : List ι) : (askFor origin ids sys).Like related (askFor origin ids sys') := by
  cases ids with
  | nil => exact ⟨rfl, rfl, h⟩
  | cons id rest =>
    obtain ⟨hanswer, hnext⟩ := hr.ask h (id :: rest)
    exact ⟨rfl, hanswer, hnext⟩

theorem give_like (hr : Indifferent origin layers related) (h : related sys sys')
    {frame : Frame ι α} (hf : frame.layer ∈ layers) (fetched : Entries ι (List α)) :
    (give frame fetched sys).Like related (give frame fetched sys') := by
  obtain ⟨hanswer, hnext⟩ := hr.write h frame.layer hf (Walk.writeBack frame fetched)
  refine ⟨rfl, ?_, hnext⟩
  rw [give, give, hanswer]

/-- A look that finds the same comes to the same, if what is next does. -/
theorem lookThen_like {layer : Layer} {ids : List ι}
    {next : Found ι α → System ι α → Journey ι α (Entries ι (List α))}
    (hlook : (look layer ids sys).Like related (look layer ids sys'))
    (hnext : ∀ {sys sys'}, related sys sys' → ∀ found,
      (next found sys).Like related (next found sys')) :
    (lookThen layer ids next sys).Like related (lookThen layer ids next sys') := by
  apply hlook.bind
  intro found sys₁ sys₂ _ h₁
  split
  · exact ⟨rfl, rfl, h₁⟩
  · exact hnext h₁ found

/-- **Related states make no difference** to what is fetched, nor to how. -/
theorem fetch_like {rest : List Layer} (hr : Indifferent origin layers related)
    (hrest : rest ⊆ layers) (h : related sys sys') (ids : List ι) :
    (fetch origin rest ids sys).Like related (fetch origin rest ids sys') := by
  induction rest generalizing ids sys sys' with
  | nil => exact askFor_like hr h ids
  | cons layer rest ih =>
    obtain ⟨hlayer, hrest⟩ := List.cons_subset.1 hrest
    obtain ⟨hanswer, hread⟩ := hr.read h layer hlayer ids
    apply lookThen_like
    · exact ⟨rfl, hanswer, hread⟩
    · -- What was found is the same, so the same ids are fetched from behind and given back.
      intro sys₁ sys₂ h₁ found
      apply (ih hrest h₁ found.misses).bind
      intro fetched _ _ _ h₂
      exact give_like hr h₂ hlayer fetched

theorem unwind_like {frames : List (Frame ι α)} (hr : Indifferent origin layers related)
    (hf : ∀ frame ∈ frames, frame.layer ∈ layers) (h : related sys sys')
    (fetched : Entries ι (List α)) :
    (unwind frames fetched sys).Like related (unwind frames fetched sys') := by
  induction frames generalizing fetched sys sys' with
  | nil => exact ⟨rfl, rfl, h⟩
  | cons frame frames ih =>
    obtain ⟨hframe, hframes⟩ := List.forall_mem_cons.1 hf
    apply (give_like hr h hframe fetched).bind
    intro fetched _ _ _ h₁
    exact ih hframes h₁ fetched

/-- Neither time nor locks nor what was written down makes a difference. -/
theorem fetch_unwind_like (h : sys.SameStock sys') (origin : Origin ι α) (layers : List Layer)
    (ids : List ι) (frames : List (Frame ι α)) :
    ((fetch origin layers ids sys).bind (unwind frames)).Like System.SameStock
      ((fetch origin layers ids sys').bind (unwind frames)) := by
  have hfetch := fetch_like (indifferent_sameStock origin layers) (List.Subset.refl _) h ids
  apply hfetch.bind
  intro fetched _ _ _ h₁
  exact unwind_like (indifferent_sameStock origin _) (fun frame hf => List.mem_map_of_mem hf) h₁
    fetched

end Chain

/-- A lookup in a layer without feeds reads it. -/
theorem Lookup.Stepped.reading {layer : Layer} {ids : List ι} {sys sys' : System ι α}
    {p : Progress (Lookup ι) (Except Error (Found ι α))}
    (h : (Lookup.start layer ids).Stepped sys p sys') (hu : layer.feeds = []) :
    p = .finished (sys.read layer ids).1 ∧ sys' = (sys.read layer ids).2 := by
  have hw : (Lookup.start layer ids).awaiting = [] := hu
  cases h with
  | stalls feeds ready hr hne | watches feeds ready hr hne | refused feeds ready hr hne =>
    exact absurd hw hne
  | passes feeds ready hr hsome =>
    rw [hw] at hsome
    cases hsome
  | reads => exact ⟨rfl, rfl⟩

/-! ## 4. Walks that are left alone -/

namespace Walk

open Chain

variable {origin : Origin ι α} {sys sys' : System ι α} {moves : List (Move ι α)}
  {result : Except Error (Entries ι (List α))} {frames : List (Frame ι α)}

/-- **The way back** is what the frames say. -/
theorem Alone.unwound {fetched : Entries ι (List α)}
    (h : (Walk.returning fetched frames).Alone origin sys moves result sys') :
    (unwind frames fetched sys).Like System.SameStock ⟨moves, result, sys'⟩ := by
  induction frames generalizing fetched sys moves with
  | nil =>
    obtain ⟨sys₁, hsame, ⟨hstep, rfl⟩ | ⟨walk₁, sys₂, rest, hstep, -, -⟩⟩ := h.step
    · cases hstep
      exact ⟨rfl, rfl, hsame⟩
    · cases hstep
  | cons frame frames ih =>
    obtain ⟨sys₁, hsame, hnext⟩ := h.step
    refine (unwind_like (indifferent_sameStock origin _) (fun frame hf => List.mem_map_of_mem hf)
      hsame fetched).trans ?_
    have hs := (Walk.returning fetched (frame :: frames)).stepped origin sys₁
    obtain ⟨hstep, rfl⟩ | ⟨walk₁, sys₂, rest, hstep, rfl, hrest⟩ := hnext
    · rw [hstep] at hs
      generalize hp : (Progress.finished result
        : Progress (Walk ι α) (Except Error (Entries ι (List α)))) = p at hs
      cases hs with
      | written => cases hp
      | @unwritten _ _ _ _ e he =>
        cases hp
        -- A layer that cannot be given anything ends it, with frames still open.
        have hgive : (give frame fetched sys₁).result = .error e := by
          rw [give, he]
          rfl
        rw [unwind, Journey.bind_of_error hgive]
        exact ⟨rfl, rfl, .refl _⟩
    · rw [hstep] at hs
      cases hs with
      | written hok =>
        have hgive : (give frame fetched sys₁).result
            = .ok (frame.hits.insertAll (writeBack frame fetched).pairs) := by
          rw [give, hok]
          rfl
        rw [unwind, Journey.bind_of_ok hgive]
        exact (ih hrest).led _

/-- A failure of the origin ends the walk, and an answer is taken back. -/
theorem Alone.answered {alarm : Alarm} {answer : Except Error (Entries ι (List α))}
    (h : (Walk.waiting alarm answer frames).Alone origin sys moves result sys') :
    ((⟨[], answer, sys⟩ : Journey ι α _).bind (unwind frames)).Like System.SameStock
      ⟨moves, result, sys'⟩ := by
  obtain ⟨sys₁, hsame, hnext⟩ := h.step
  have hs := (Walk.waiting alarm answer frames).stepped origin sys₁
  obtain ⟨hstep, rfl⟩ | ⟨walk₁, sys₂, rest, hstep, rfl, hrest⟩ := hnext
  · rw [hstep] at hs
    cases hs with
    | failed => exact ⟨rfl, rfl, hsame⟩
  · rw [hstep] at hs
    cases hs with
    | answered =>
      have hback := (unwind_like (indifferent_sameStock origin _)
        (fun frame hf => List.mem_map_of_mem hf) hsame _).trans hrest.unwound
      exact hback.led []

/-- **Wherever it is, the rest of a walk is the function and the way back**, as far as there are no
feeds in front of it. -/
theorem Alone.fetched_unwound {layers : List Layer} (hu : ∀ layer ∈ layers, layer.feeds = [])
    {ids : List ι} (h : (Walk.start layers ids frames).Alone origin sys moves result sys') :
    ((fetch origin layers ids sys).bind (unwind frames)).Like System.SameStock
      ⟨moves, result, sys'⟩ := by
  -- The layers that are still in front of the walk become fewer; those it has passed are its frames.
  induction layers generalizing ids frames sys moves with
  | nil =>
    obtain ⟨sys₁, hsame, hnext⟩ := h.step
    refine (fetch_unwind_like hsame origin [] ids frames).trans ?_
    have hs := (Walk.asking ids frames).stepped origin sys₁
    obtain ⟨hstep, -⟩ | ⟨walk₁, sys₂, rest, hstep, rfl, hrest⟩ := hnext
    · rw [show (Walk.asking ids frames).step origin sys₁ = _ from hstep] at hs
      cases hs
    · rw [show (Walk.asking ids frames).step origin sys₁ = _ from hstep] at hs
      cases hs with
      | spared => exact hrest.unwound.led []
      | asked hids =>
        obtain ⟨id, others, rfl⟩ := List.exists_cons_of_ne_nil hids
        have hasked := hrest.answered.led [.ask (id :: others)]
        rw [← Journey.bind_led] at hasked
        exact hasked
  | cons layer rest ih =>
    obtain ⟨hlayer, hrest⟩ := List.forall_mem_cons.1 hu
    obtain ⟨sys₁, hsame, hnext⟩ := h.step
    refine (fetch_unwind_like hsame origin (layer :: rest) ids frames).trans ?_
    have hs := (Walk.descending (.start layer ids) rest frames).stepped origin sys₁
    have hmove : (Walk.start (layer :: rest) ids frames).move?.toList = [.look layer ids] := by
      simp only [start, move?, Lookup.move?, Lookup.start, hlayer, Option.toList_some]
    rw [hmove] at hnext
    obtain ⟨hstep, rfl⟩ | ⟨walk₁, sys₂, moves, hstep, rfl, hwalk⟩ := hnext
    · rw [show (Walk.descending (.start layer ids) rest frames).step origin sys₁ = _
        from hstep] at hs
      cases hs with
      | unread hl =>
        obtain ⟨hread, rfl⟩ := hl.reading hlayer
        rw [fetch, lookThen_of_error _ (Progress.finished.inj hread).symm]
        exact ⟨rfl, rfl, .refl _⟩
    · rw [show (Walk.descending (.start layer ids) rest frames).step origin sys₁ = _
        from hstep] at hs
      cases hs with
      | looks hl => cases (hl.reading hlayer).1
      | found hl hm =>
        obtain ⟨hread, rfl⟩ := hl.reading hlayer
        rw [fetch, lookThen_of_found _ (Progress.finished.inj hread).symm hm]
        exact hwalk.unwound.led [.look layer ids]
      | missed hl hm =>
        obtain ⟨hread, rfl⟩ := hl.reading hlayer
        rw [fetch, lookThen_of_missed _ (Progress.finished.inj hread).symm hm, Journey.bind_led,
          Journey.bind_assoc]
        exact (ih hrest hwalk).led [.look layer ids]

/-- **A walk that is left alone is the function**, as far as the chain has no feeds: it makes the
same moves, ends with the same result and leaves the same stock behind. -/
theorem Alone.fetched {layers : List Layer} (hu : ∀ layer ∈ layers, layer.feeds = [])
    {ids : List ι} (h : (Walk.start layers ids []).Alone origin sys moves result sys') :
    (fetch origin layers ids sys).Like System.SameStock ⟨moves, result, sys'⟩ := by
  rw [← bind_unwind_nil (fetch origin layers ids sys)]
  exact h.fetched_unwound hu

end Walk

end Collate
