/-
Failures on the way through a chain.

Any call a chain makes may fail: a look into a layer, the call of the source, a write. Each ends the
resolution with its error, and a call that fails changes nothing. Nothing is written before
everything is known, so a chain that fails on the way in leaves every layer as it was. On the way
out layers are written one after the other, from the innermost outwards, each with one batch for all
ids it missed. So when a write fails the layers behind have got their whole batches, and that layer
and those in front of it are as they were. Whatever fails, the moves of a resolution are the first
so many of those it would have made (`Ends.moves`), and no layer ever gets part of its batch.

The induction is over the chain. Where the layers behind the first one come to an end with a
failure, so does the whole; where they come to an answer, all of them have been written that were to be
written, and what is left that can fail is the write of the first.
-/
import Collate.Proofs.Peeking

set_option autoImplicit false

namespace Collate

variable {ι α ρ τ : Type} [DecidableEq ι]

/-! ## 1. Moves that fail -/

/-- How a call failed, if it did. -/
def failureOf : Except Error ρ → Option Error
  | .error e => some e
  | .ok _ => none

theorem failureOf_eq_some {result : Except Error ρ} {e : Error} :
    failureOf result = some e ↔ result = .error e := by
  cases result <;> simp [failureOf]

/-- The failure a move meets. -/
def Move.failure? (origin : Origin ι α) (sys : System ι α) : Move ι α → Option Error
  | .look layer ids => failureOf (sys.read layer ids).1
  | .ask ids => failureOf (sys.ask origin ids).1.2
  | .give layer entries => failureOf (sys.write layer entries).1

theorem Move.makeAll_append (origin : Origin ι α) (sys : System ι α)
    (moves moves' : List (Move ι α)) :
    makeAll origin sys (moves ++ moves') = makeAll origin (makeAll origin sys moves) moves' :=
  List.foldl_append ..

namespace Journey

/-- What comes of a journey is the work of its moves: one that fails is the last, and its failure is
the result; and there is no other failure. -/
structure Honest (origin : Origin ι α) (sys : System ι α) (j : Journey ι α ρ) : Prop where
  system : j.system = Move.makeAll origin sys j.moves
  stops : ∀ before move after e, j.moves = before ++ move :: after →
    move.failure? origin (Move.makeAll origin sys before) = some e →
      after = [] ∧ j.result = .error e
  fails : ∀ e, j.result = .error e → ∃ before move, j.moves = before ++ [move]
    ∧ move.failure? origin (Move.makeAll origin sys before) = some e

variable {origin : Origin ι α} {sys : System ι α} {j : Journey ι α ρ}
  {next : ρ → System ι α → Journey ι α τ}

/-- Nothing was done. -/
theorem Honest.idle (x : ρ) : Honest origin sys ⟨[], .ok x, sys⟩ := by
  refine ⟨rfl, fun before move after e hmoves => ?_, fun e he => ?_⟩
  · simp at hmoves
  · cases he

/-- One move was made. -/
theorem Honest.single {move : Move ι α} (hsystem : j.system = move.make origin sys)
    (hmoves : j.moves = [move])
    (hresult : ∀ e, move.failure? origin sys = some e ↔ j.result = .error e) :
    Honest origin sys j := by
  refine ⟨by rw [hsystem, hmoves]; rfl, fun before other after e hsplit he => ?_, fun e he => ?_⟩
  · rw [hmoves] at hsplit
    obtain ⟨rfl, rfl, rfl⟩ : before = [] ∧ other = move ∧ after = [] := by
      cases before with
      | nil => simpa [eq_comm] using hsplit
      | cons first rest => simp at hsplit
    exact ⟨rfl, (hresult e).1 he⟩
  · exact ⟨[], move, hmoves, (hresult e).2 he⟩

/-- **What goes on only with a result** is the work of its moves if both parts are. -/
theorem Honest.bind (h : j.Honest origin sys)
    (hnext : ∀ x, j.result = .ok x → (next x j.system).Honest origin j.system) :
    (j.bind next).Honest origin sys := by
  cases hj : j.result with
  | error e =>
    rw [bind_of_error hj]
    refine ⟨h.system, fun before move after e' hmoves he => ?_, fun e' he => ?_⟩
    · obtain ⟨hafter, hresult⟩ := h.stops before move after e' hmoves he
      exact ⟨hafter, congrArg _ (Except.error.inj (hj.symm.trans hresult))⟩
    · cases he
      exact h.fails e hj
  | ok x =>
    obtain ⟨hsystem, hstops, hfails⟩ := hnext x hj
    rw [bind_of_ok hj]
    have hlater : ∀ moves, Move.makeAll origin sys (j.moves ++ moves)
        = Move.makeAll origin j.system moves := fun moves => by
      rw [Move.makeAll_append, ← h.system]
    refine ⟨hsystem.trans (hlater _).symm, fun before move after e hmoves he => ?_, fun e he => ?_⟩
    · -- The move that fails is one of the second part, since the first one came to a result.
      obtain ⟨early, rfl, hrest⟩ | ⟨late, hfirst, hrest⟩ := List.append_eq_append_iff.1 hmoves
      · rw [hlater] at he
        exact hstops early move after e hrest he
      · cases late with
        | nil =>
          rw [List.append_nil] at hfirst
          rw [← hfirst, ← h.system] at he
          exact hstops [] move after e hrest.symm he
        | cons other late =>
          obtain ⟨rfl, -⟩ := List.cons.inj hrest
          have hfailed := (h.stops before move late e hfirst he).2
          rw [hj] at hfailed
          cases hfailed
    · obtain ⟨before, move, hmoves, hmove⟩ := hfails e he
      refine ⟨j.moves ++ before, move, ?_, by rw [hlater, hmove]⟩
      show j.moves ++ (next x j.system).moves = _
      rw [hmoves, List.append_assoc]

end Journey

namespace Chain

open Journey

variable {origin : Origin ι α} {held : Layer → Entries ι (List α)} {grouped : Entries ι (List α)}
  {layer : Layer} {layers rest : List Layer} {ids : List ι}

theorem look_honest (layer : Layer) (ids : List ι) (sys : System ι α) :
    (look layer ids sys).Honest origin sys :=
  .single rfl rfl fun _ => failureOf_eq_some

theorem askFor_honest (ids : List ι) (sys : System ι α) :
    (askFor origin ids sys).Honest origin sys := by
  cases ids with
  | nil => exact .idle _
  | cons id rest => exact .single rfl rfl fun _ => failureOf_eq_some

theorem give_honest (frame : Frame ι α) (fetched : Entries ι (List α)) (sys : System ι α) :
    (give frame fetched sys).Honest origin sys := by
  refine .single rfl rfl fun e => failureOf_eq_some.trans ?_
  rw [give]
  cases (sys.write frame.layer (Walk.writeBack frame fetched)).1 <;> simp [Except.map]

theorem lookThen_honest {next : Found ι α → System ι α → Journey ι α (Entries ι (List α))}
    (hnext : ∀ found sys, (next found sys).Honest origin sys) (layer : Layer) (ids : List ι)
    (sys : System ι α) : (lookThen layer ids next sys).Honest origin sys := by
  refine (look_honest layer ids sys).bind fun found _ => ?_
  split
  · exact .idle _
  · exact hnext found _

/-- **A chain comes to what its moves come to.** -/
theorem fetch_honest (layers : List Layer) (ids : List ι) (sys : System ι α) :
    (fetch origin layers ids sys).Honest origin sys := by
  induction layers generalizing ids sys with
  | nil => exact askFor_honest ids sys
  | cons layer rest ih =>
    exact lookThen_honest (fun found sys => (ih found.misses sys).bind fun _ _ => give_honest ..) ..

theorem peek_honest (layers : List Layer) (ids : List ι) (sys : System ι α) :
    (peek origin layers ids sys).Honest origin sys := by
  cases layers with
  | nil => exact askFor_honest ids sys
  | cons first rest => exact lookThen_honest (fun _ sys => fetch_honest _ ids sys) ..

/-! ## 2. What layers hold in the end -/

/-- The `i`-th layer holds what it held, or, if it passed ids on, that and one batch: all that was
written back to it. Between the two it may have been read. -/
def Given (sys sys' : System ι α) (layers : List Layer) (ids : List ι)
    (written : Nat → Entries ι (List α)) (i : Nat) : Prop :=
  ∀ layer, layers[i]? = some layer →
    if passedOn sys.held (layers.take (i + 1)) ids = [] then System.SameEntries layer.store sys sys'
    else ∃ between batch, System.SameEntries layer.store sys between ∧ batch.Perm (written i).pairs
      ∧ (sys'.stores.get layer.store).shelf = (between.stores.get layer.store).shelf.put batch

/-- What a move leaves of the layers when it fails. A look or a call of the origin leaves all of
them as they were. A write leaves its layer and those in front of it as they were, and those behind it
have been written. -/
def LeavesWhole (sys sys' : System ι α) (layers : List Layer) (ids : List ι)
    (written : Nat → Entries ι (List α)) (e : Error) : Move ι α → Prop
  | .look _ _ => (∃ cause, e = .store cause)
    ∧ ∀ layer ∈ layers, System.SameEntries layer.store sys sys'
  | .ask _ => (∃ cause, e = .source cause)
    ∧ ∀ layer ∈ layers, System.SameEntries layer.store sys sys'
  | .give layer entries => (∃ cause, e = .store cause)
    ∧ ∃ i, layers[i]? = some layer ∧ entries = written i
      ∧ (∀ k ≤ i, ∀ other, layers[k]? = some other → System.SameEntries other.store sys sys')
      ∧ ∀ k > i, Given sys sys' layers ids written k

/-- How a chain ends that has moves to make: with one that fails, or when all are made. -/
structure Ends (sys : System ι α) (layers : List Layer) (grouped : Entries ι (List α))
    (ids : List ι) (written : Nat → Entries ι (List α)) (all : List (Move ι α))
    (j : Journey ι α (Entries ι (List α))) : Prop where
  moves : j.moves <+: all
  answered : ∀ m, j.result = .ok m → j.moves = all
    ∧ FetchedExactly sys.held layers grouped ids m
    ∧ ∀ i, Given sys j.system layers ids written i
  failed : ∀ e, j.result = .error e → ∃ before move, j.moves = before ++ [move]
    ∧ LeavesWhole sys j.system layers ids written e move

/-- Entries with the given values. -/
theorem exists_entries (ids : List ι) (children : ι → List α) :
    ∃ entries : Entries ι (List α), ∀ id, entries.get? id
      = if id ∈ ids then some (children id) else none := by
  induction ids with
  | nil => exact ⟨.empty, fun id => rfl⟩
  | cons first rest ih =>
    obtain ⟨entries, hentries⟩ := ih
    refine ⟨entries.insert first (children first), fun id => ?_⟩
    rw [Entries.get?_insert, hentries]
    by_cases hid : first = id
    · subst hid
      simp
    · simp [hid, Ne.symm hid]

theorem exists_writtenExactly (held : Layer → Entries ι (List α)) (layers : List Layer)
    (grouped : Entries ι (List α)) (ids : List ι) :
    ∃ written, WrittenExactly held layers grouped ids written := by
  refine ⟨fun i => (exists_entries (passedOn held (layers.take (i + 1)) ids)
    (childrenOf held layers grouped)).choose, fun i _ => ?_⟩
  exact (exists_entries _ _).choose_spec

/-- A chain reaches the stores of its layers only. -/
theorem fetch_untouched {n : Nat} (h : ∀ layer ∈ layers, layer.store ≠ n) (sys : System ι α) :
    (fetch origin layers ids sys).system.stores.get n = sys.stores.get n := by
  induction layers generalizing ids sys with
  | nil =>
    cases ids with
    | nil => rfl
    | cons id rest =>
      show (sys.ask origin (id :: rest)).2.stores.get n = _
      rw [System.stores_ask]
  | cons layer rest ih =>
    obtain ⟨hlayer, hrest⟩ := List.forall_mem_cons.1 h
    have hread : (sys.read layer ids).2.stores.get n = sys.stores.get n :=
      (System.read_called sys layer ids).others n (Ne.symm hlayer)
    rw [fetch]
    rcases hfound : (sys.read layer ids).1 with e | found
    · rw [lookThen_of_error _ hfound]
      exact hread
    · by_cases hm : found.misses = []
      · rw [lookThen_of_found _ hfound hm]
        exact hread
      · rw [lookThen_of_missed _ hfound hm]
        have hbehind : (fetch origin rest found.misses (sys.read layer ids).2).system.stores.get n
            = sys.stores.get n := (ih hrest _).trans hread
        rcases hfetched : (fetch origin rest found.misses (sys.read layer ids).2).result
          with e | fetched
        · rw [Journey.bind_of_error hfetched]
          exact hbehind
        · rw [Journey.bind_of_ok hfetched]
          exact ((System.write_called _ layer _).others n (Ne.symm hlayer)).trans hbehind

/-- What layers were given depends on their stores. -/
theorem Given.congr {sys sys' sys'' : System ι α} {written : Nat → Entries ι (List α)} {i : Nat}
    (h : Given sys sys' layers ids written i)
    (hsame : ∀ layer ∈ layers,
      (sys''.stores.get layer.store).shelf = (sys'.stores.get layer.store).shelf) :
    Given sys sys'' layers ids written i := by
  intro layer hlayer
  have hshelf := hsame layer (List.mem_of_getElem? hlayer)
  have hgiven := h layer hlayer
  split at hgiven
  · rename_i hnone
    rw [if_pos hnone]
    exact hgiven.trans (.of_shelf hshelf)
  · rename_i hsome
    rw [if_neg hsome, hshelf]
    exact hgiven

/-- Behind a layer that is in front of others. -/
theorem Given.behind {sys sys' : System ι α} {written : Nat → Entries ι (List α)}
    {entries : Entries ι (List α)} {i : Nat}
    (h : Given sys sys' rest (passedOn sys.held [layer] ids) written i) :
    Given sys sys' (layer :: rest) ids (fun | 0 => entries | i + 1 => written i) (i + 1) := h

/-- What a failure leaves of the layers behind is what it leaves of all, if the first one is as it
was. -/
theorem LeavesWhole.behind {sys sys' : System ι α} {written : Nat → Entries ι (List α)}
    {entries : Entries ι (List α)} {e : Error} {move : Move ι α}
    (h : LeavesWhole sys sys' rest (passedOn sys.held [layer] ids) written e move)
    (hfirst : System.SameEntries layer.store sys sys') :
    LeavesWhole sys sys' (layer :: rest) ids (fun | 0 => entries | i + 1 => written i) e move := by
  cases move with
  | look | ask => exact ⟨h.1, List.forall_mem_cons.2 ⟨hfirst, h.2⟩⟩
  | give other given =>
    obtain ⟨hcause, i, hother, hgiven, hfront, hbehind⟩ := h
    refine ⟨hcause, i + 1, hother, hgiven, fun k hk layer' hlayer' => ?_, fun k hk => ?_⟩
    · cases k with
      | zero => exact Option.some.inj hlayer' ▸ hfirst
      | succ k => exact hfront k (Nat.le_of_succ_le_succ hk) layer' hlayer'
    · cases k with
      | zero => exact absurd hk (Nat.not_lt_zero _)
      | succ k => exact (hbehind k (Nat.lt_of_succ_lt_succ hk)).behind

/-- It depends on the stores of the layers too. -/
theorem LeavesWhole.congr {sys sys' sys'' : System ι α} {written : Nat → Entries ι (List α)}
    {e : Error} {move : Move ι α} (h : LeavesWhole sys sys' layers ids written e move)
    (hsame : ∀ layer ∈ layers,
      (sys''.stores.get layer.store).shelf = (sys'.stores.get layer.store).shelf) :
    LeavesWhole sys sys'' layers ids written e move := by
  cases move with
  | look | ask => exact ⟨h.1, fun layer hl => (h.2 layer hl).trans (.of_shelf (hsame layer hl))⟩
  | give =>
    obtain ⟨hcause, i, hlayer, hgiven, hfront, hbehind⟩ := h
    refine ⟨hcause, i, hlayer, hgiven, fun k hk other ho => ?_,
      fun k hk => (hbehind k hk).congr hsame⟩
    exact (hfront k hk other ho).trans (.of_shelf (hsame other (List.mem_of_getElem? ho)))

/-! ## 3. The chain -/

variable {number bucket : Nat} {key : α → ι} {sys₀ sys : System ι α}

/-- Where there is no layer none is given anything. -/
theorem given_nil (sys sys' : System ι α) (ids : List ι) (written : Nat → Entries ι (List α))
    (i : Nat) : Given sys sys' [] ids written i := by
  intro layer hlayer
  cases hlayer

/-- A source that fails, fails as a source. -/
theorem ask_error {e : Error}
    (h : (sys.ask (.source number bucket key) ids).1.2 = .error e) :
    ∃ cause, e = .source cause := by
  have hgrouped : (Source.group key ids ((sys.sources.get number).call ids).1.items).mapError
      Error.source = .error e := h
  cases hg : Source.group key ids ((sys.sources.get number).call ids).1.items with
  | error cause =>
    rw [hg] at hgrouped
    cases hgrouped
    exact ⟨cause, rfl⟩
  | ok all =>
    rw [hg] at hgrouped
    cases hgrouped

variable (sys₀) in
/-- Behind the last layer a chain ends with the call of the source. -/
theorem askFor_ends
    (hanswer : ∀ m, (sys.ask (.source number bucket key) ids).1.2 = .ok m → m = grouped)
    (written : Nat → Entries ι (List α)) :
    Ends sys₀ [] grouped ids written (movesOf sys₀.held [] ids written)
      (askFor (.source number bucket key) ids sys) := by
  cases ids with
  | nil =>
    refine ⟨List.prefix_rfl, fun m hm => ⟨rfl, ?_, fun _ => given_nil _ _ _ _ _⟩,
      fun e he => by cases he⟩
    cases hm
    exact ⟨fun _ _ => rfl, by simp, by simp⟩
  | cons id others =>
    refine ⟨List.prefix_rfl, fun m hm => ?_, fun e he => ?_⟩
    · have hok : (sys.ask (.source number bucket key) (id :: others)).1.2 = .ok m := hm
      obtain rfl := hanswer m hok
      obtain ⟨hmoves, m', hm', hexact⟩ := askFor_exact sys₀.held (fun _ => hok) written
      obtain rfl : m' = m := Except.ok.inj (hm'.symm.trans hm)
      exact ⟨hmoves, hexact, fun _ => given_nil _ _ _ _ _⟩
    · have herror : (sys.ask (.source number bucket key) (id :: others)).1.2 = .error e := he
      exact ⟨[], _, rfl, ask_error herror, by simp⟩

/-- A layer that cannot be read ends it, and was only looked into. -/
theorem lookThen_ends_of_error
    {next : Found ι α → System ι α → Journey ι α (Entries ι (List α))}
    (hsame : ∀ other ∈ layer :: rest, System.SameEntries other.store sys₀ sys) {e : Error}
    (h : (sys.read layer ids).1 = .error e) (written : Nat → Entries ι (List α))
    {all : List (Move ι α)} (hall : [.look layer ids] <+: all) :
    Ends sys₀ (layer :: rest) grouped ids written all (lookThen layer ids next sys) := by
  rw [lookThen_of_error _ h]
  refine ⟨hall, fun m hm => (by cases hm), fun e' he' => ⟨[], .look layer ids, rfl, ?_, ?_⟩⟩
  · cases he'
    rcases System.read_cases sys layer ids with ⟨cause, hread, _⟩ | ⟨hread, _⟩
    · rw [h] at hread
      cases hread
      exact ⟨cause, rfl⟩
    · rw [h] at hread
      cases hread
  · exact fun other ho => (hsame other ho).trans (System.sameEntries_read ..)

/-- A layer that holds all ids ends it too. -/
theorem lookThen_ends_of_found
    {next : Found ι α → System ι α → Journey ι α (Entries ι (List α))} (hu : layer.feeds = [])
    (hsame : ∀ other ∈ layer :: rest, System.SameEntries other.store sys₀ sys) {found : Found ι α}
    (h : (sys.read layer ids).1 = .ok found) (hm : found.misses = [])
    (written : Nat → Entries ι (List α)) :
    Ends sys₀ (layer :: rest) grouped ids written (movesOf sys₀.held (layer :: rest) ids written)
      (lookThen layer ids next sys) := by
  have hheld : sys.held layer = sys₀.held layer := (hsame layer (List.mem_cons_self ..)).contents
  obtain ⟨hmisses, hhits⟩ := found_exact hu hheld h
  have hnone : passedOn sys₀.held [layer] ids = [] := hmisses.symm.trans hm
  have hmoves : movesOf sys₀.held (layer :: rest) ids written = [.look layer ids] :=
    movesOf_of_none hnone written
  rw [lookThen_of_found _ h hm]
  refine ⟨hmoves ▸ List.prefix_rfl, fun m hok => ⟨hmoves.symm, ?_, fun i other ho => ?_⟩,
    fun e he => by cases he⟩
  · cases hok
    exact .of_hits hhits hnone
  · rw [List.take_succ_cons, if_pos (passedOn_cons_of_none hnone _)]
    exact (hsame other (List.mem_of_getElem? ho)).trans (System.sameEntries_read ..)

/-- When the layers behind fail, nothing is given to the first. -/
theorem Ends.of_error {written : Nat → Entries ι (List α)} {entries : Entries ι (List α)}
    {j : Journey ι α (Entries ι (List α))} {e : Error}
    (h : Ends sys₀ rest grouped (passedOn sys₀.held [layer] ids) written
      (movesOf sys₀.held rest (passedOn sys₀.held [layer] ids) written) j)
    (hsome : passedOn sys₀.held [layer] ids ≠ []) (he : j.result = .error e)
    (hfirst : System.SameEntries layer.store sys₀ j.system) :
    let written' : Nat → Entries ι (List α) := fun | 0 => entries | i + 1 => written i
    Ends sys₀ (layer :: rest) grouped ids written' (movesOf sys₀.held (layer :: rest) ids written')
      (Journey.led [.look layer ids] ⟨j.moves, .error e, j.system⟩) := by
  intro written'
  refine ⟨?_, fun m hm => (by cases hm), fun e' he' => ?_⟩
  · rw [movesOf_of_some hsome]
    exact List.cons_prefix_cons.2 ⟨rfl, h.moves.trans (List.prefix_append ..)⟩
  · obtain ⟨before, move, hmoves, hleaves⟩ := h.failed e he
    cases he'
    refine ⟨.look layer ids :: before, move, ?_, hleaves.behind hfirst⟩
    exact congrArg (Move.look layer ids :: ·) hmoves

/-- Moves made before are as good. -/
theorem Ends.led {written : Nat → Entries ι (List α)} {all : List (Move ι α)}
    {j : Journey ι α (Entries ι (List α))} (h : Ends sys₀ layers grouped ids written all j)
    (lead : List (Move ι α)) : Ends sys₀ layers grouped ids written (lead ++ all) (j.led lead) := by
  refine ⟨(List.prefix_append_right_inj lead).2 h.moves, fun m hm => ?_, fun e he => ?_⟩
  · obtain ⟨hmoves, hrest⟩ := h.answered m hm
    exact ⟨congrArg (lead ++ ·) hmoves, hrest⟩
  · obtain ⟨before, move, hmoves, hleaves⟩ := h.failed e he
    refine ⟨lead ++ before, move, ?_, hleaves⟩
    show lead ++ j.moves = _
    rw [hmoves, List.append_assoc]

/-- **When the layers behind have answered** all moves are made but the write of the first layer. If
that fails, the layers behind have been written and it is as it was. -/
theorem Ends.of_fetched {written : Nat → Entries ι (List α)} {hits fetched : Entries ι (List α)}
    {j : Journey ι α (Entries ι (List α))}
    (h : Ends sys₀ rest grouped (passedOn sys₀.held [layer] ids) written
      (movesOf sys₀.held rest (passedOn sys₀.held [layer] ids) written) j)
    (hsome : passedOn sys₀.held [layer] ids ≠ []) (hnot : layer.store ∉ rest.map Layer.store)
    (hhits : ∀ id, hits.get? id = if id ∈ ids then (sys₀.held layer).get? id else none)
    (hfetched : j.result = .ok fetched)
    (hfirst : System.SameEntries layer.store sys₀ j.system) :
    let frame : Frame ι α := ⟨layer, hits, passedOn sys₀.held [layer] ids⟩
    let written' : Nat → Entries ι (List α) := fun
      | 0 => Walk.writeBack frame fetched
      | i + 1 => written i
    Ends sys₀ (layer :: rest) grouped ids written' (movesOf sys₀.held (layer :: rest) ids written')
      (((give frame fetched j.system).led j.moves).led [.look layer ids]) := by
  intro frame written'
  obtain ⟨hmoves, hexact, hgiven⟩ := h.answered fetched hfetched
  have hall : (((give frame fetched j.system).led j.moves).led [.look layer ids]).moves
      = movesOf sys₀.held (layer :: rest) ids written' := by
    rw [movesOf_of_some hsome]
    exact congrArg (fun moves => Move.look layer ids
      :: (moves ++ [Move.give layer (Walk.writeBack frame fetched)])) hmoves
  -- Whether the write fails or not, it reaches none of the layers behind.
  have hothers : ∀ other ∈ rest, ((give frame fetched j.system).system.stores.get other.store).shelf
      = (j.system.stores.get other.store).shelf := fun other ho => by
    have hne : other.store ≠ layer.store := fun he => hnot (he ▸ List.mem_map_of_mem ho)
    exact congrArg Store.shelf ((System.write_called j.system layer _).others _ hne)
  have hbehind : ∀ i, Given sys₀ (give frame fetched j.system).system (layer :: rest) ids written'
      (i + 1) := fun i => ((hgiven i).congr hothers).behind
  rcases System.write_cases j.system layer (Walk.writeBack frame fetched) with
    ⟨cause, herror, hshelf⟩ | ⟨batch, hperm, hok, hshelf⟩
  · have hresult : (give frame fetched j.system).result = .error (.store cause) := by
      rw [give, herror]
      rfl
    refine ⟨hall ▸ List.prefix_rfl, fun m hm => ?_, fun e he => ?_⟩
    · cases hresult.symm.trans hm
    · cases hresult.symm.trans he
      refine ⟨.look layer ids :: j.moves, .give layer (Walk.writeBack frame fetched), rfl,
        ⟨cause, rfl⟩, 0, rfl, rfl, fun k hk other ho => ?_, fun k hk => ?_⟩
      · obtain rfl := Nat.le_zero.1 hk
        cases ho
        exact hfirst.trans (.of_shelf hshelf)
      · obtain ⟨i, rfl⟩ := Nat.exists_eq_succ_of_ne_zero (Nat.ne_of_gt hk)
        exact hbehind i
  · have hresult : (give frame fetched j.system).result
        = .ok (hits.insertAll (Walk.writeBack frame fetched).pairs) := by
      rw [give, hok]
      rfl
    refine ⟨hall ▸ List.prefix_rfl, fun m hm => ⟨hall, ?_, fun i => ?_⟩, fun e he => ?_⟩
    · cases hresult.symm.trans hm
      exact .outer hhits (hexact.writeBack layer hits)
    · cases i with
      | succ i => exact hbehind i
      | zero =>
        intro other ho
        cases ho
        exact (if_neg hsome).mpr ⟨j.system, batch, hfirst, hperm, hshelf⟩
    · cases hresult.symm.trans he

/-- **How a chain ends.** Calls may fail anywhere. -/
theorem fetch_ends (hu : ∀ layer ∈ layers, layer.feeds = [])
    (hapart : (layers.map Layer.store).Nodup)
    (hsame : ∀ layer ∈ layers, System.SameEntries layer.store sys₀ sys)
    (hanswer : ∀ sys₁ : System ι α, sys₁.sources = sys.sources → ∀ m,
      (sys₁.ask (.source number bucket key) (passedOn sys₀.held layers ids)).1.2 = .ok m →
        m = grouped) :
    ∃ written, WrittenExactly sys₀.held layers grouped ids written
      ∧ Ends sys₀ layers grouped ids written (movesOf sys₀.held layers ids written)
        (fetch (.source number bucket key) layers ids sys) := by
  induction layers generalizing ids sys with
  | nil =>
    obtain ⟨written, hwritten⟩ := exists_writtenExactly sys₀.held [] grouped ids
    exact ⟨written, hwritten, askFor_ends sys₀ (hanswer sys rfl) written⟩
  | cons layer rest ih =>
    obtain ⟨hlayer, hrest⟩ := List.forall_mem_cons.1 hu
    obtain ⟨hnot, hnodup⟩ := List.nodup_cons.1 hapart
    rcases hread : (sys.read layer ids).1 with e | found
    · obtain ⟨written, hwritten⟩ := exists_writtenExactly sys₀.held (layer :: rest) grouped ids
      refine ⟨written, hwritten, lookThen_ends_of_error hsame hread written ?_⟩
      rw [movesOf_cons]
      exact ⟨_, rfl⟩
    · by_cases hm : found.misses = []
      · obtain ⟨written, hwritten⟩ := exists_writtenExactly sys₀.held (layer :: rest) grouped ids
        exact ⟨written, hwritten, lookThen_ends_of_found hlayer hsame hread hm written⟩
      · have hheld : sys.held layer = sys₀.held layer :=
          (hsame layer (List.mem_cons_self ..)).contents
        obtain ⟨hmisses, hhits⟩ := found_exact hlayer hheld hread
        have hsome : passedOn sys₀.held [layer] ids ≠ [] := hmisses ▸ hm
        obtain ⟨behind, hbehind, hends⟩ := @ih found.misses (sys.read layer ids).2 hrest hnodup
          (fun other ho => (hsame other (List.mem_cons_of_mem _ ho)).trans
            (System.sameEntries_read ..))
          (fun sys₁ hs => hmisses ▸ hanswer sys₁ (hs.trans (System.sources_read ..)))
        rw [hmisses] at hbehind hends
        -- The layers behind do not share its store.
        have huntouched : (fetch (.source number bucket key) rest found.misses
            (sys.read layer ids).2).system.stores.get layer.store
              = (sys.read layer ids).2.stores.get layer.store :=
          fetch_untouched (fun other ho he => hnot (List.mem_map.2 ⟨other, ho, he⟩)) _
        have hfirst := ((hsame layer (List.mem_cons_self ..)).trans
          (System.sameEntries_read sys layer ids layer.store)).trans
            (.of_shelf (congrArg Store.shelf huntouched))
        rw [fetch, lookThen_of_missed _ hread hm]
        rw [hmisses] at hfirst ⊢
        generalize fetch (.source number bucket key) rest (passedOn sys₀.held [layer] ids)
          (sys.read layer ids).2 = j at hends hfirst
        rcases hfetched : j.result with e | fetched
        · obtain ⟨entries, hentries⟩ := exists_entries (passedOn sys₀.held [layer] ids)
            (childrenOf sys₀.held rest grouped)
          refine ⟨_, hbehind.cons hentries, ?_⟩
          rw [Journey.bind_of_error hfetched]
          exact hends.of_error hsome hfetched hfirst
        · obtain ⟨_, hexact, _⟩ := hends.answered fetched hfetched
          refine ⟨_, hbehind.cons (hexact.writeBack layer found.hits), ?_⟩
          rw [Journey.bind_of_ok hfetched]
          exact hends.of_fetched hsome hnot hhits hfetched hfirst

/-- **How looking first and then fetching ends.** The first look may fail like all others. -/
theorem peek_ends (hu : ∀ layer ∈ layers, layer.feeds = [])
    (hapart : (layers.map Layer.store).Nodup)
    (hanswer : ∀ sys₁ : System ι α, sys₁.sources = sys.sources → ∀ m,
      (sys₁.ask (.source number bucket key) (passedOn sys.held layers ids)).1.2 = .ok m →
        m = grouped) :
    ∃ written, WrittenExactly sys.held layers grouped ids written
      ∧ Ends sys layers grouped ids written
        (firstLook sys.held layers ids ++ movesOf sys.held layers ids written)
        (peek (.source number bucket key) layers ids sys) := by
  have hsame : ∀ layer ∈ layers, System.SameEntries layer.store sys sys := fun _ _ => .refl _ _
  obtain ⟨written, hwritten⟩ := exists_writtenExactly sys.held layers grouped ids
  cases layers with
  | nil => exact ⟨written, hwritten, askFor_ends sys (hanswer sys rfl) written⟩
  | cons first rest =>
    have hfirst : first.feeds = [] := hu first (List.mem_cons_self ..)
    rcases hread : (sys.read first ids).1 with e | found
    · refine ⟨written, hwritten, lookThen_ends_of_error hsame hread written ?_⟩
      unfold firstLook
      dsimp only
      split
      · rw [movesOf_cons]
        exact ⟨_, rfl⟩
      · exact List.prefix_append ..
    · obtain ⟨hmisses, -⟩ := found_exact hfirst rfl hread
      by_cases hm : found.misses = []
      · rw [firstLook, if_pos (hmisses.symm.trans hm)]
        exact ⟨written, hwritten, lookThen_ends_of_found hfirst hsame hread hm written⟩
      · -- The first layer is looked into again, and all goes on from there.
        obtain ⟨written, hwritten, hends⟩ := fetch_ends hu hapart
          (fun other _ => System.sameEntries_read sys first ids other.store)
          (fun sys₁ hs => hanswer sys₁ (hs.trans (System.sources_read ..)))
        refine ⟨written, hwritten, ?_⟩
        rw [firstLook, if_neg (hmisses ▸ hm), peek, lookThen_of_missed _ hread hm]
        exact hends.led [.look first ids]

end Chain

/-! ## 4. Resolutions -/

namespace Resolution

open Chain

/-- What is known when all was asked: what the source has found, or nothing if it has failed. -/
def foundBehind (answer : Except Error (Entries ι (List α))) : Entries ι (List α) :=
  answer.toOption.getD .empty

/-- **Failures leave layers whole.** Take any number of layers without feeds over separate stores,
bounded or not, of which any calls may fail, in any state, a source that answers or fails in any
way, and any ids. A resolution that is left alone comes to an end if its lock is free at first.
However it ends, its moves are the first so many of those it makes when nothing fails, each layer
being given all ids it missed in one batch.

If it returns something, all these moves were made, and every layer that passed ids on holds its
batch in addition to what it held. If it fails, its last move failed and no other. And a move that
fails is the last and decides the result. A look: then it is a failure of a store, and all layers
hold what they held. The call of the source, after any number of children: then it is a failure of
the source, and all layers hold what they held. A write: then it is a failure of a store, that layer
and those in front of it hold what they held, and each layer behind it holds in addition its batch,
if it passed ids on, or else what it held. -/
theorem failures_leave_layers_whole (lock number bucket : Nat) (key : α → ι) (layers : List Layer)
    (ids : List ι) (sys : System ι α) (hunfed : ∀ layer ∈ layers, layer.feeds = [])
    (hapart : (layers.map Layer.store).Nodup) :
    let path : Path ι α := ⟨lock, layers, .source number bucket key⟩
    let grouped := foundBehind (sys.ask path.origin (passedOn sys.held layers ids)).1.2
    (sys.locks.get lock = {} → ∃ moves result sys',
      (start path ids sys).1.Alone (start path ids sys).2 moves result sys')
    ∧ ∀ moves result sys',
      (start path ids sys).1.Alone (start path ids sys).2 moves result sys' →
      ∃ written, WrittenExactly sys.held layers grouped ids written
        ∧ moves <+: firstLook sys.held layers ids ++ movesOf sys.held layers ids written
        ∧ (∀ m, result = .ok m →
          moves = firstLook sys.held layers ids ++ movesOf sys.held layers ids written
          ∧ ∀ i, Given sys sys' layers ids written i)
        ∧ (∀ e, result = .error e → ∃ before move, moves = before ++ [move]
          ∧ move.failure? path.origin (Move.makeAll path.origin sys before) = some e)
        ∧ (∀ before move after e, moves = before ++ move :: after →
          move.failure? path.origin (Move.makeAll path.origin sys before) = some e →
            after = [] ∧ result = .error e ∧ LeavesWhole sys sys' layers ids written e move)
        ∧ ∀ before asked after (children : List α) cause later,
          moves = before ++ .ask asked :: after →
          (((Move.makeAll path.origin sys before).sources.get number).call asked).1.items
            = children.map .ok ++ .error cause :: later →
          result = .error (.source cause)
            ∧ ∀ layer ∈ layers, System.SameEntries layer.store sys sys' := by
  intro path grouped
  refine ⟨fun hidle => ?_, fun moves result sys' halone => ?_⟩
  · have hfree : (start path ids sys).2.locks.get path.lock = {} := hidle
    exact exists_alone (regular_start path ids sys) hunfed (Minded.idle hfree _)
  have hanswer : ∀ sys₁ : System ι α, sys₁.sources = sys.sources → ∀ m,
      (sys₁.ask path.origin (passedOn sys.held layers ids)).1.2 = .ok m → m = grouped := by
    intro sys₁ hsources m hm
    rw [(System.ask_congr hsources _ _).1] at hm
    show m = foundBehind _
    rw [hm]
    rfl
  obtain ⟨written, hwritten, hends⟩ := peek_ends hunfed hapart hanswer
  have hhonest : (peek path.origin layers ids sys).Honest path.origin sys :=
    peek_honest layers ids sys
  obtain ⟨hmoves, hresult, hstock⟩ := halone.peeked hunfed
  have hshelves : ∀ layer ∈ layers, (sys'.stores.get layer.store).shelf
      = ((peek path.origin layers ids sys).system.stores.get layer.store).shelf := fun layer _ => by
    rw [hstock.stores]
  -- The last move of a resolution that fails is the one that has failed.
  have hstops : ∀ before move after e, moves = before ++ move :: after →
      move.failure? path.origin (Move.makeAll path.origin sys before) = some e →
        after = [] ∧ result = .error e ∧ LeavesWhole sys sys' layers ids written e move := by
    intro before move after e hsplit he
    obtain ⟨rfl, herror⟩ := hhonest.stops before move after e (hmoves.symm.trans hsplit) he
    obtain ⟨before', move', hsplit', hleaves⟩ := hends.failed e herror
    obtain rfl := List.singleton_inj.1
      (List.append_inj' (hsplit'.symm.trans (hmoves.symm.trans hsplit)) rfl).2
    exact ⟨rfl, hresult.trans herror, hleaves.congr hshelves⟩
  have hprefix : moves <+: _ := (show moves = _ from hmoves) ▸ hends.moves
  refine ⟨written, hwritten, hprefix, fun m hm => ?_, fun e he => ?_, hstops,
    fun before asked after children cause later hsplit hitems => ?_⟩
  · obtain ⟨hall, -, hgiven⟩ := hends.answered m (hresult.symm.trans hm)
    exact ⟨hmoves.trans hall, fun i => (hgiven i).congr hshelves⟩
  · obtain ⟨before, move, hsplit, hmove⟩ := hhonest.fails e (hresult.symm.trans he)
    exact ⟨before, move, hmoves.trans hsplit, hmove⟩
  · have hfailed : (Move.ask asked).failure? path.origin (Move.makeAll path.origin sys before)
        = some (.source cause) := by
      have hgroup := Source.groupFrom_of_failure key asked children cause later .empty
      rw [← hitems] at hgroup
      exact failureOf_eq_some.2 (congrArg (Except.mapError Error.source) hgroup)
    obtain ⟨-, herror, -, hsame⟩ := hstops before (.ask asked) after _ hsplit hfailed
    exact ⟨herror, hsame⟩

/-- Two layers of which the inner one has an entry, and the outer one is full. -/
def overfull : System Nat Nat where
  stores := .ofList .fresh
    [{ shelf := .fresh, faults := fun call n => if call = .put ∧ n = 1 then some "full" else none },
      { shelf := .unbounded (.ofList [(1, [11])]) }]
  sources := .filled { reply := fun _ _ => ⟨0, [.ok 20]⟩ }

/-- The inner layer has been given all it missed, and the outer one nothing. -/
theorem failures_leave_layers_whole_overfull :
    ∃ (moves : List (Move Nat Nat)) (result : Except Error (Entries Nat (List Nat)))
      (sys' : System Nat Nat),
      (start ⟨0, [⟨[], 0⟩, ⟨[], 1⟩], .source 0 0 (· / 10)⟩ [1, 2, 3] overfull).1.Alone
        (start ⟨0, [⟨[], 0⟩, ⟨[], 1⟩], .source 0 0 (· / 10)⟩ [1, 2, 3] overfull).2 moves result sys'
      ∧ result = .error (.store "full")
      ∧ (∀ id, (sys'.held ⟨[], 0⟩).get? id = none)
      ∧ (sys'.held ⟨[], 1⟩).get? 1 = some [11] ∧ (sys'.held ⟨[], 1⟩).get? 2 = some [20]
      ∧ (sys'.held ⟨[], 1⟩).get? 3 = some [] := by
  have hunfed : ∀ layer ∈ [(⟨[], 0⟩ : Layer), ⟨[], 1⟩], layer.feeds = [] := by decide
  obtain ⟨hend, hall⟩ := failures_leave_layers_whole 0 0 0 (· / 10) [⟨[], 0⟩, ⟨[], 1⟩] [1, 2, 3]
    overfull hunfed (by decide)
  obtain ⟨moves, result, sys', halone⟩ := hend rfl
  obtain ⟨written, hwritten, -, -, -, hstops, -⟩ := hall moves result sys' halone
  obtain ⟨entries, hmoves⟩ : ∃ entries, moves = [.look ⟨[], 0⟩ [1, 2, 3], .look ⟨[], 0⟩ [1, 2, 3],
      .look ⟨[], 1⟩ [1, 2, 3], .ask [2, 3], .give ⟨[], 1⟩ (.ofList [(2, [20]), (3, [])])]
        ++ .give ⟨[], 0⟩ entries :: [] := ⟨_, (halone.peeked hunfed).moves⟩
  obtain ⟨-, hresult, -, i, hi, -, hfront, hbehind⟩ := hstops _ _ _ (.store "full") hmoves rfl
  obtain rfl : i = 0 := by
    match i with
    | 0 => rfl
    | 1 => cases hi
    | i + 2 => cases hi
  have hget : ∀ id, (sys'.held ⟨[], 1⟩).get? id
      = ((written 1).get? id).or ((overfull.held ⟨[], 1⟩).get? id) := by
    obtain ⟨between, batch, hsame, hperm, hshelf⟩ := hbehind 1 Nat.one_pos ⟨[], 1⟩ rfl
    intro id
    have hnone : (between.stores.get 1).shelf.capacity? = none := hsame.capacity
    have hcontents : (between.stores.get 1).shelf.contents = _ := hsame.contents
    rw [System.held, hshelf, Shelf.get?_put_unbounded hnone hperm, hcontents]
    rfl
  refine ⟨moves, result, sys', halone, hresult, fun id => ?_, ?_, ?_, ?_⟩
  · rw [System.held, (hfront 0 (Nat.le_refl 0) ⟨[], 0⟩ rfl).contents]
    rfl
  · rw [hget, hwritten 1 (by decide) 1]
    rfl
  · rw [hget, hwritten 1 (by decide) 2]
    rfl
  · rw [hget, hwritten 1 (by decide) 3]
    rfl

end Resolution

end Collate
