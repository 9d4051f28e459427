/-
Writing through, exactly.

What a chain does for some ids is decided before it begins, by what its layers hold and by one
answer of the origin. Each layer passes on the ids it does not hold, in their order; as long as
there are some left the next layer is asked for them, and what is left behind the last layer the
origin is asked for. On the way back each layer that passed something on is given just that, nothing
else, and in one piece.

Looking into a layer changes none of its entries, and nothing is written before everything is known.
So the ids passed on can be told from the contents at the beginning (`passedOn`), layer by layer;
the induction is over the chain, and of what was fetched behind a layer it needs to know the
children only, since a layer fills in the ids that have none.
-/
import Collate.Proofs.Chain
import Collate.Proofs.Novelty

set_option autoImplicit false

namespace Collate

variable {ι α : Type} [DecidableEq ι]

/-! ## 1. What is decided beforehand -/

omit [DecidableEq ι] in
/-- What a layer's store holds. -/
def System.held (sys : System ι α) (layer : Layer) : Entries ι (List α) :=
  (sys.stores.get layer.store).shelf.contents

namespace Chain

variable {held : Layer → Entries ι (List α)} {grouped : Entries ι (List α)} {layer : Layer}
  {rest layers : List Layer} {ids : List ι}

/-- The ids that none of the layers holds, in order. -/
def passedOn (held : Layer → Entries ι (List α)) (layers : List Layer) (ids : List ι) : List ι :=
  layers.foldl (fun ids layer => ids.filter fun id => !(held layer).contains id) ids

/-- The children of an id: those in the first layer that holds it, or else those the origin has
found, or else none. -/
def childrenOf (held : Layer → Entries ι (List α)) (layers : List Layer)
    (grouped : Entries ι (List α)) (id : ι) : List α :=
  ((layers.findSome? fun layer => (held layer).get? id).or (grouped.get? id)).getD []

/-- The `i`-th layer, counted from zero, is asked for the ids passed on to it, if there are any; the
first one is asked in any case. -/
def lookAt (held : Layer → Entries ι (List α)) (layers : List Layer) (ids : List ι) (i : Nat) :
    Option (Move ι α) :=
  if i = 0 ∨ passedOn held (layers.take i) ids ≠ [] then
    layers[i]?.map fun layer => .look layer (passedOn held (layers.take i) ids)
  else none

/-- The origin is asked for what the last layer passes on, if that is anything. -/
def askBehind (held : Layer → Entries ι (List α)) (layers : List Layer) (ids : List ι) :
    Option (Move ι α) :=
  if passedOn held layers ids = [] then none else some (.ask (passedOn held layers ids))

/-- The `i`-th layer is given entries, if it has passed anything on. -/
def giveTo (held : Layer → Entries ι (List α)) (layers : List Layer) (ids : List ι)
    (written : Nat → Entries ι (List α)) (i : Nat) : Option (Move ι α) :=
  if passedOn held (layers.take (i + 1)) ids ≠ [] then
    layers[i]?.map fun layer => .give layer (written i)
  else none

/-- All moves: first all layers are looked into, from the outermost inwards, then the origin is
asked, and then layers are written, from the innermost outwards. -/
def movesOf (held : Layer → Entries ι (List α)) (layers : List Layer) (ids : List ι)
    (written : Nat → Entries ι (List α)) : List (Move ι α) :=
  (List.range layers.length).filterMap (lookAt held layers ids)
    ++ (askBehind held layers ids).toList
    ++ (List.range layers.length).reverse.filterMap (giveTo held layers ids written)

/-- The entries written are those of the ids a layer passed on, with their children. -/
def WrittenExactly (held : Layer → Entries ι (List α)) (layers : List Layer)
    (grouped : Entries ι (List α)) (ids : List ι) (written : Nat → Entries ι (List α)) : Prop :=
  ∀ i < layers.length, ∀ id, (written i).get? id
    = if id ∈ passedOn held (layers.take (i + 1)) ids then some (childrenOf held layers grouped id)
      else none

theorem passedOn_subset (held : Layer → Entries ι (List α)) (layers : List Layer) (ids : List ι) :
    passedOn held layers ids ⊆ ids := by
  induction layers generalizing ids with
  | nil => exact List.Subset.refl _
  | cons layer rest ih => exact List.Subset.trans (ih _) (List.filter_subset_self _)

theorem passedOn_nil (held : Layer → Entries ι (List α)) (layers : List Layer) :
    passedOn held layers [] = [] := List.subset_nil.1 (passedOn_subset held layers [])

/-- Behind a layer that passes nothing on nothing is passed on. -/
theorem passedOn_cons_of_none (h : passedOn held [layer] ids = []) (rest : List Layer) :
    passedOn held (layer :: rest) ids = [] := by
  show passedOn held rest (passedOn held [layer] ids) = []
  rw [h, passedOn_nil]

theorem childrenOf_cons_of_some {id : ι} {children : List α}
    (h : (held layer).get? id = some children) :
    childrenOf held (layer :: rest) grouped id = children := by
  rw [childrenOf, List.findSome?_cons, h]
  rfl

theorem childrenOf_cons_of_none {id : ι} (h : (held layer).get? id = none) :
    childrenOf held (layer :: rest) grouped id = childrenOf held rest grouped id := by
  rw [childrenOf, List.findSome?_cons, h]
  rfl

/-! ## 2. The moves of a chain, layer by layer -/

omit [DecidableEq ι] in
theorem filterMap_range_succ {τ : Type} (f : Nat → Option τ) (n : Nat) :
    (List.range (n + 1)).filterMap f
      = (f 0).toList ++ (List.range n).filterMap fun i => f (i + 1) := by
  rw [List.range_succ_eq_map, List.filterMap_cons, List.filterMap_map]
  cases f 0 <;> rfl

omit [DecidableEq ι] in
theorem filterMap_reverse_range_succ {τ : Type} (f : Nat → Option τ) (n : Nat) :
    (List.range (n + 1)).reverse.filterMap f
      = ((List.range n).reverse.filterMap fun i => f (i + 1)) ++ (f 0).toList := by
  rw [List.filterMap_reverse, filterMap_range_succ, List.reverse_append, List.filterMap_reverse]
  cases f 0 <;> rfl

/-- The first layer comes first on the way in and last on the way out. -/
theorem movesOf_cons (written : Nat → Entries ι (List α)) :
    movesOf held (layer :: rest) ids written
      = .look layer ids
        :: ((List.range rest.length).filterMap (fun i => lookAt held (layer :: rest) ids (i + 1))
          ++ (askBehind held (layer :: rest) ids).toList
          ++ (List.range rest.length).reverse.filterMap
              (fun i => giveTo held (layer :: rest) ids written (i + 1)))
        ++ (giveTo held (layer :: rest) ids written 0).toList := by
  have hfirst : lookAt held (layer :: rest) ids 0 = some (.look layer ids) := if_pos (Or.inl rfl)
  rw [movesOf, List.length_cons, filterMap_range_succ, filterMap_reverse_range_succ, hfirst,
    Option.toList_some, List.singleton_append, List.cons_append, List.cons_append,
    List.cons_append, List.append_assoc, List.append_assoc, List.append_assoc]

/-- A layer that passes nothing on is all there is. -/
theorem movesOf_of_none (h : passedOn held [layer] ids = []) (written : Nat → Entries ι (List α)) :
    movesOf held (layer :: rest) ids written = [.look layer ids] := by
  have hnone := passedOn_cons_of_none h
  have hlooks : (List.range rest.length).filterMap
      (fun i => lookAt held (layer :: rest) ids (i + 1)) = [] := by
    apply List.filterMap_eq_nil_iff.2
    intro i _
    apply if_neg
    rw [List.take_succ_cons, hnone]
    simp
  have hgives : ∀ i, giveTo held (layer :: rest) ids written i = none := by
    intro i
    apply if_neg
    rw [List.take_succ_cons, hnone]
    exact not_not_intro rfl
  have hask : askBehind held (layer :: rest) ids = none := if_pos (hnone rest)
  rw [movesOf_cons, hlooks, hask, hgives, List.filterMap_eq_nil_iff.2 fun i _ => hgives (i + 1)]
  rfl

/-- A layer that passes something on is looked into first and written last. -/
theorem movesOf_of_some (h : passedOn held [layer] ids ≠ []) (written : Nat → Entries ι (List α)) :
    movesOf held (layer :: rest) ids written
      = .look layer ids :: (movesOf held rest (passedOn held [layer] ids) (fun i => written (i + 1))
        ++ [.give layer (written 0)]) := by
  have hlook : ∀ i, lookAt held (layer :: rest) ids (i + 1)
      = lookAt held rest (passedOn held [layer] ids) i := by
    intro i
    by_cases hi : i = 0
    · subst hi
      exact (if_pos (Or.inr h)).trans (if_pos (Or.inl rfl)).symm
    · simp only [lookAt, hi, Nat.succ_ne_zero, false_or, List.take_succ_cons,
        List.getElem?_cons_succ]
      rfl
  have hfirst : giveTo held (layer :: rest) ids written 0 = some (.give layer (written 0)) :=
    if_pos h
  rw [movesOf_cons, hfirst, movesOf]
  simp only [hlook]
  rfl

/-! ## 3. What is found and what is written -/

/-- What was fetched for some ids: no other ids, and their children. Behind at least one layer every
id has an entry. -/
structure FetchedExactly (held : Layer → Entries ι (List α)) (layers : List Layer)
    (grouped : Entries ι (List α)) (ids : List ι) (m : Entries ι (List α)) : Prop where
  others : ∀ id, id ∉ ids → m.get? id = none
  children : ∀ id ∈ ids, (m.get? id).getD [] = childrenOf held layers grouped id
  entries : layers ≠ [] → ∀ id ∈ ids, m.get? id = some (childrenOf held layers grouped id)

theorem mem_passedOn_singleton {id : ι} :
    id ∈ passedOn held [layer] ids ↔ id ∈ ids ∧ (held layer).get? id = none := by
  show id ∈ ids.filter (fun id => !(held layer).contains id) ↔ _
  rw [List.mem_filter, Bool.not_eq_true', Entries.contains_eq_false]

/-- What is written back has entries of what was missed, ids without children included. -/
theorem get?_writeBack {frame : Frame ι α} {fetched : Entries ι (List α)}
    (h : fetched.KeysIn frame.misses) (id : ι) : (Walk.writeBack frame fetched).get? id
      = if id ∈ frame.misses then some ((fetched.get? id).getD []) else none := by
  rw [Walk.writeBack, Entries.get?_fill]
  cases hget : fetched.get? id with
  | some children =>
    have hid := h id children hget
    rw [if_pos hid, if_pos hid]
    rfl
  | none => rfl

/-- **A layer is given what it passed on.** -/
theorem FetchedExactly.writeBack {fetched : Entries ι (List α)}
    (h : FetchedExactly held rest grouped ids fetched) (layer : Layer) (hits : Entries ι (List α))
    (id : ι) : (Walk.writeBack ⟨layer, hits, ids⟩ fetched).get? id
      = if id ∈ ids then some (childrenOf held rest grouped id) else none := by
  have hkeys : fetched.KeysIn ids := fun id children hget => by
    by_contra hid
    rw [h.others id hid] at hget
    cases hget
  rw [get?_writeBack hkeys]
  by_cases hid : id ∈ ids
  · rw [if_pos hid, if_pos hid, h.children id hid]
  · rw [if_neg hid, if_neg hid]

/-- What a layer holds of the ids together with what was fetched for the rest. -/
theorem FetchedExactly.outer {hits entries : Entries ι (List α)}
    (hhits : ∀ id, hits.get? id = if id ∈ ids then (held layer).get? id else none)
    (hentries : ∀ id, entries.get? id = if id ∈ passedOn held [layer] ids then
      some (childrenOf held rest grouped id) else none) :
    FetchedExactly held (layer :: rest) grouped ids (hits.insertAll entries.pairs) := by
  have hget : ∀ id ∈ ids, (hits.insertAll entries.pairs).get? id
      = some (childrenOf held (layer :: rest) grouped id) := by
    intro id hid
    rw [Entries.get?_insertAll_pairs _ _ (.refl _), hentries, hhits, if_pos hid]
    cases hheld : (held layer).get? id with
    | some children =>
      rw [if_neg fun hm => by simp [mem_passedOn_singleton, hheld] at hm,
        childrenOf_cons_of_some hheld]
      rfl
    | none =>
      rw [if_pos (mem_passedOn_singleton.2 ⟨hid, hheld⟩), childrenOf_cons_of_none hheld]
      rfl
  refine ⟨fun id hid => ?_, fun id hid => by rw [hget id hid]; rfl, fun _ => hget⟩
  rw [Entries.get?_insertAll_pairs _ _ (.refl _), hentries, hhits, if_neg hid,
    if_neg fun hm => hid (mem_passedOn_singleton.1 hm).1]
  rfl

/-- A layer that holds everything answers alone. -/
theorem FetchedExactly.of_hits {hits : Entries ι (List α)}
    (hhits : ∀ id, hits.get? id = if id ∈ ids then (held layer).get? id else none)
    (hnone : passedOn held [layer] ids = []) :
    FetchedExactly held (layer :: rest) grouped ids hits := by
  have hget : ∀ id ∈ ids, hits.get? id = some (childrenOf held (layer :: rest) grouped id) := by
    intro id hid
    rw [hhits, if_pos hid]
    cases hheld : (held layer).get? id with
    | some children => rw [childrenOf_cons_of_some hheld]
    | none =>
      have hm := mem_passedOn_singleton.2 ⟨hid, hheld⟩
      rw [hnone] at hm
      cases hm
  refine ⟨fun id hid => ?_, fun id hid => by rw [hget id hid]; rfl, fun _ => hget⟩
  rw [hhits, if_neg hid]

/-- The first layer's entries come in front of those of the layers behind it. -/
theorem WrittenExactly.cons {written : Nat → Entries ι (List α)} {entries : Entries ι (List α)}
    (h : WrittenExactly held rest grouped (passedOn held [layer] ids) written)
    (hentries : ∀ id, entries.get? id = if id ∈ passedOn held [layer] ids then
      some (childrenOf held rest grouped id) else none) :
    WrittenExactly held (layer :: rest) grouped ids fun
      | 0 => entries
      | i + 1 => written i := by
  -- Whatever is passed on behind the first layer is not held by it.
  have hchildren : ∀ id ∈ passedOn held [layer] ids, childrenOf held (layer :: rest) grouped id
      = childrenOf held rest grouped id :=
    fun id hid => childrenOf_cons_of_none (mem_passedOn_singleton.1 hid).2
  intro i hi id
  cases i with
  | zero =>
    refine (hentries id).trans ?_
    by_cases hid : id ∈ passedOn held [layer] ids
    · rw [if_pos hid, ← hchildren id hid]
      exact (if_pos hid).symm
    · rw [if_neg hid]
      exact (if_neg hid).symm
  | succ i =>
    have hsame : passedOn held ((layer :: rest).take (i + 1 + 1)) ids
        = passedOn held (rest.take (i + 1)) (passedOn held [layer] ids) := rfl
    refine (h i (Nat.lt_of_succ_lt_succ hi) id).trans ?_
    rw [hsame]
    by_cases hid : id ∈ passedOn held (rest.take (i + 1)) (passedOn held [layer] ids)
    · rw [if_pos hid, if_pos hid, hchildren id (passedOn_subset _ _ _ hid)]
    · rw [if_neg hid, if_neg hid]

/-! ## 4. The chain -/

/-- **A layer passes on what it does not hold.** -/
theorem missesOf_exact (hu : layer.feeds = []) {hits : Entries ι (List α)}
    (hhits : ∀ id, hits.get? id = if id ∈ ids then (held layer).get? id else none) :
    System.missesOf layer ids hits = passedOn held [layer] ids := by
  rw [System.missesOf_unfed hu]
  apply List.filter_congr
  intro id hid
  rw [Entries.contains, hhits, if_pos hid, Entries.contains]

/-- So does one that was read. -/
theorem found_exact {sys : System ι α} (hu : layer.feeds = []) (hheld : sys.held layer = held layer)
    {found : Found ι α} (h : (sys.read layer ids).1 = .ok found) :
    found.misses = passedOn held [layer] ids
    ∧ ∀ id, found.hits.get? id = if id ∈ ids then (held layer).get? id else none := by
  have hget : ∀ id, ((sys.stores.get layer.store).shelf.get ids).1.get? id
      = if id ∈ ids then (held layer).get? id else none := by
    intro id
    rw [Shelf.get?_get, ← hheld]
    rfl
  rcases System.read_cases sys layer ids with ⟨cause, hread, _⟩ | ⟨hread, _⟩
  · rw [h] at hread
    cases hread
  · rw [h] at hread
    cases hread
    exact ⟨missesOf_exact hu hget, hget⟩

/-- A layer whose store does not fail can be read. -/
theorem look_exact {sys : System ι α} (hu : layer.feeds = [])
    (hf : (sys.stores.get layer.store).Faultless) (hheld : sys.held layer = held layer)
    (ids : List ι) :
    ∃ hits, (sys.read layer ids).1 = .ok ⟨hits, passedOn held [layer] ids⟩
      ∧ ∀ id, hits.get? id = if id ∈ ids then (held layer).get? id else none := by
  obtain ⟨found, hfound⟩ := System.read_ok hf ids
  obtain ⟨hmisses, hhits⟩ := found_exact hu hheld hfound
  exact ⟨found.hits, by rw [hfound, ← hmisses], hhits⟩

variable {number bucket : Nat} {key : α → ι}

variable (held) in
/-- The origin is asked once and for what is left, or not at all. -/
theorem askFor_exact {sys : System ι α}
    (hanswer : ids ≠ [] → (sys.ask (.source number bucket key) ids).1.2 = .ok grouped)
    (written : Nat → Entries ι (List α)) :
    (askFor (.source number bucket key) ids sys).moves = movesOf held [] ids written
    ∧ ∃ m, (askFor (.source number bucket key) ids sys).result = .ok m
      ∧ FetchedExactly held [] grouped ids m := by
  cases ids with
  | nil => exact ⟨rfl, .empty, rfl, fun _ _ => rfl, by simp, by simp⟩
  | cons first others =>
    have hok := hanswer (List.cons_ne_nil _ _)
    refine ⟨rfl, grouped, hok, fun id hid => ?_, fun id _ => rfl, fun h => absurd rfl h⟩
    -- A source answers with children of the ids it was asked for.
    cases hg : grouped.get? id with
    | none => rfl
    | some children => exact absurd (System.keysIn_ask hok id children hg) hid

/-- **A chain fetches and writes exactly.** -/
theorem fetch_exact {sys : System ι α} (hu : ∀ layer ∈ layers, layer.feeds = [])
    (hf : ∀ layer ∈ layers, (sys.stores.get layer.store).Faultless)
    (hheld : ∀ layer ∈ layers, sys.held layer = held layer)
    (hanswer : ∀ sys₁ : System ι α, sys₁.sources = sys.sources → passedOn held layers ids ≠ [] →
      (sys₁.ask (.source number bucket key) (passedOn held layers ids)).1.2 = .ok grouped) :
    (∀ n, ((fetch (.source number bucket key) layers ids sys).system.stores.get n).faults
      = (sys.stores.get n).faults)
    ∧ (∃ written, WrittenExactly held layers grouped ids written
      ∧ (fetch (.source number bucket key) layers ids sys).moves = movesOf held layers ids written)
    ∧ ∃ m, (fetch (.source number bucket key) layers ids sys).result = .ok m
      ∧ FetchedExactly held layers grouped ids m := by
  induction layers generalizing ids sys with
  | nil =>
    obtain ⟨hmoves, hresult⟩ := askFor_exact held (hanswer sys rfl) fun _ => .empty
    refine ⟨fun n => ?_, ⟨fun _ => .empty, fun i hi => absurd hi (Nat.not_lt_zero i), hmoves⟩,
      hresult⟩
    rw [fetch]
    cases ids with
    | nil => rfl
    | cons id rest => rfl
  | cons layer rest ih =>
    obtain ⟨hlayer, hrest⟩ := List.forall_mem_cons.1 hu
    obtain ⟨hfirst, hothers⟩ := List.forall_mem_cons.1 hf
    obtain ⟨hits, hread, hhits⟩ :=
      look_exact hlayer hfirst (hheld layer (List.mem_cons_self ..)) ids
    -- Looking changes no entry, no source, and nobody's failures.
    have hadvanced : System.Advanced [layer] sys (sys.read layer ids).2 :=
      .of_called (List.mem_singleton_self layer) (System.read_called sys layer ids)
        (System.capacity?_read sys layer ids)
    by_cases hnone : passedOn held [layer] ids = []
    · rw [fetch, lookThen_of_found _ hread hnone]
      refine ⟨hadvanced.faults, ⟨fun _ => .empty, fun i hi id => ?_, ?_⟩, hits, rfl,
        .of_hits hhits hnone⟩
      · rw [List.take_succ_cons, passedOn_cons_of_none hnone]
        exact (if_neg (List.not_mem_nil)).symm
      · rw [movesOf_of_none hnone]
    · obtain ⟨hfaults, ⟨written, hwritten, hmoves⟩, fetched, hfetched, hexact⟩ :=
        @ih (passedOn held [layer] ids) (sys.read layer ids).2 hrest
          (fun other ho call n => (congrFun (congrFun (hadvanced.faults _) call) n).trans
            (hothers other ho call n))
          (fun other ho => (System.contents_read sys layer ids other.store).trans
            (hheld other (List.mem_cons_of_mem _ ho)))
          (fun sys₁ hs => hanswer sys₁ (hs.trans (System.sources_read ..)))
      let j := fetch (.source number bucket key) rest (passedOn held [layer] ids)
        (sys.read layer ids).2
      let frame : Frame ι α := ⟨layer, hits, passedOn held [layer] ids⟩
      have hentries := hexact.writeBack layer hits
      have hfaultless : (j.system.stores.get layer.store).Faultless := fun call n => by
        rw [hfaults, hadvanced.faults]
        exact hfirst call n
      have hgive : (give frame fetched j.system).result
          = .ok (hits.insertAll (Walk.writeBack frame fetched).pairs) := by
        rw [give, System.write_ok hfaultless]
        rfl
      have hwrite : System.Advanced [layer] j.system (give frame fetched j.system).system :=
        .of_called (List.mem_singleton_self layer) (System.write_called j.system layer _)
          (System.capacity?_write j.system layer _)
      rw [fetch, lookThen_of_missed _ hread hnone, Journey.bind_of_ok hfetched]
      refine ⟨fun n => ?_, ⟨_, hwritten.cons hentries, ?_⟩, _, hgive, .outer hhits hentries⟩
      · exact (hwrite.faults n).trans ((hfaults n).trans (hadvanced.faults n))
      · rw [movesOf_of_some hnone]
        exact congrArg (fun moves => Move.look layer ids
          :: (moves ++ [Move.give layer (Walk.writeBack frame fetched)])) hmoves

end Chain

/-! ## 5. Runs of a chain -/

namespace Walk

open Chain

/-- **Write-through is exact.** Take a chain of layers without feeds over stores that do not fail,
in any state, and let the source answer well for what all layers together do not hold. A run of the
chain that nobody interferes with comes to an end, and every such run makes these moves and no
others. It asks the first layer for the ids, and each further one for those that the layers in front
of it do not hold, in their order, if there are any; it asks the source once for those that no layer
holds, if there are any; and then, from the innermost layer outwards, it gives each layer that
passed ids on just one batch, whose keys are these ids and whose values are their children. It
returns no id it was not asked for and, since there is a layer to fill them in, every id it was
asked for, with the children in the first layer that holds it or else those of the source or else
none. What it leaves behind is the work of its moves. -/
theorem written_through (number bucket : Nat) (key : α → ι) (layers : List Layer) (ids : List ι)
    (sys : System ι α) (grouped : Entries ι (List α))
    (hunfed : ∀ layer ∈ layers, layer.feeds = [])
    (hfaultless : ∀ layer ∈ layers, (sys.stores.get layer.store).Faultless)
    (hanswer : passedOn sys.held layers ids ≠ [] →
      (sys.ask (.source number bucket key) (passedOn sys.held layers ids)).1.2 = .ok grouped) :
    (∃ moves result sys',
      (Walk.start layers ids []).Alone (.source number bucket key) sys moves result sys')
    ∧ ∀ moves result sys',
      (Walk.start layers ids []).Alone (.source number bucket key) sys moves result sys' →
        (∃ written, WrittenExactly sys.held layers grouped ids written
          ∧ moves = movesOf sys.held layers ids written)
        ∧ (∃ m, result = .ok m ∧ (∀ id, id ∉ ids → m.get? id = none)
          ∧ (layers ≠ [] → ∀ id ∈ ids, m.get? id = some (childrenOf sys.held layers grouped id)))
        ∧ (Move.makeAll (.source number bucket key) sys moves).SameStock sys' := by
  refine ⟨exists_alone hunfed (regular_start ids (List.Subset.refl _) (by simp)) sys, ?_⟩
  intro moves result sys' halone
  obtain ⟨hmoves, hresult, _⟩ := halone.fetched hunfed
  have hask : ∀ sys₁ : System ι α, sys₁.sources = sys.sources →
      passedOn sys.held layers ids ≠ [] →
      (sys₁.ask (.source number bucket key) (passedOn sys.held layers ids)).1.2 = .ok grouped := by
    intro sys₁ hs hne
    exact (System.ask_congr hs _ _).1.trans (hanswer hne)
  obtain ⟨_, ⟨written, hwritten, hexact⟩, m, hm, hfetched⟩ :=
    fetch_exact hunfed hfaultless (fun _ _ => rfl) hask
  exact ⟨⟨written, hwritten, hmoves.trans hexact⟩,
    ⟨m, hresult.trans hm, hfetched.others, hfetched.entries⟩, halone.makes⟩

/-- Of two layers the inner one has an entry, and the source has children of one id more. -/
def stocked : System Nat Nat where
  stores := .ofList .fresh [.fresh, { shelf := .unbounded (.ofList [(1, [11])]) }]
  sources := .filled { reply := fun _ _ => ⟨0, [.ok 20]⟩ }

/-- Three ids, of which nobody knows the last: the inner layer is not given what it held, and both
are given the id without children. -/
theorem written_through_two_layers :
    ∃ (moves : List (Move Nat Nat)) (result : Except Error (Entries Nat (List Nat)))
      (sys' : System Nat Nat) (written : Nat → Entries Nat (List Nat)) (m : Entries Nat (List Nat)),
      (Walk.start [⟨[], 0⟩, ⟨[], 1⟩] [1, 2, 3] []).Alone (.source 0 0 (· / 10)) stocked moves result
        sys'
      ∧ moves = [.look ⟨[], 0⟩ [1, 2, 3], .look ⟨[], 1⟩ [1, 2, 3], .ask [2, 3],
          .give ⟨[], 1⟩ (written 1), .give ⟨[], 0⟩ (written 0)]
      ∧ (written 1).get? 1 = none ∧ (written 1).get? 3 = some []
      ∧ (written 0).get? 1 = some [11] ∧ (written 0).get? 3 = some []
      ∧ result = .ok m ∧ m.get? 1 = some [11] ∧ m.get? 2 = some [20] := by
  have hunfed : ∀ layer ∈ [(⟨[], 0⟩ : Layer), ⟨[], 1⟩], layer.feeds = [] := by decide
  have hfaultless : ∀ layer ∈ [(⟨[], 0⟩ : Layer), ⟨[], 1⟩],
      (stocked.stores.get layer.store).Faultless := by
    intro layer hl
    obtain rfl | rfl : layer = ⟨[], 0⟩ ∨ layer = ⟨[], 1⟩ := by simpa using hl
    all_goals exact fun _ _ => rfl
  obtain ⟨⟨moves, result, sys', halone⟩, hall⟩ := written_through 0 0 (· / 10) _ [1, 2, 3] stocked
    (.ofList [(2, [20])]) hunfed hfaultless fun _ => rfl
  obtain ⟨⟨written, hwritten, hmoves⟩, ⟨m, hm, _, hentries⟩, _⟩ := hall moves result sys' halone
  exact ⟨moves, result, sys', written, m, halone, hmoves, hwritten 1 (by decide) 1,
    hwritten 1 (by decide) 3, hwritten 0 (by decide) 1, hwritten 0 (by decide) 3, hm,
    hentries (by decide) 1 (by decide), hentries (by decide) 2 (by decide)⟩

end Walk

end Collate
