/-
Looking twice.

A resolution looks into the first layer while it shares the lock. If the layer misses anything, what
it found is thrown away, and the walk that follows looks for the same ids there again. Each look is
a use of what it finds, so the store is used twice where it would have been used once. That leaves
no trace: a look that follows the same look finds the same, and leaves the shelf as that one did
(`Shelf.get_get`). From then on two states are compared that differ in nothing but how often their
stores were read, and nothing a chain does tells them apart.

So a resolution that is left alone comes to what a walk along its layers comes to without any lock,
but for one look more.
-/
import Collate.Proofs.WriteThrough
import Collate.Proofs.Store.Repetition

set_option autoImplicit false

namespace Collate

/-! ## 1. Stores that were read more often -/

namespace Store

variable {κ ν : Type}

/-- Stores that differ at most in how often they were read. -/
structure SameButReads (store store' : Store κ ν) : Prop where
  shelf : store'.shelf = store.shelf
  faults : store'.faults = store.faults
  order : store'.order = store.order
  calls : ∀ call, call ≠ .get → store'.calls call = store.calls call

theorem SameButReads.refl (store : Store κ ν) : store.SameButReads store :=
  ⟨rfl, rfl, rfl, fun _ _ => rfl⟩

variable {store store' : Store κ ν} {ρ : Type}

/-- A call of a store that does not fail counts and does its work. -/
theorem attempt_faultless (h : store.Faultless) (call : Call)
    (work : Nat → Shelf κ ν → ρ × Shelf κ ν) :
    store.attempt call work = (.ok (work (store.calls call + 1) store.shelf).1,
      { store with
        shelf := (work (store.calls call + 1) store.shelf).2
        calls := fun c => if c = call then store.calls call + 1 else store.calls c }) := by
  simp only [attempt, h call]

/-- The same work leads to the same, if it does not depend on how many reads there were. -/
theorem SameButReads.attempt (h : store.SameButReads store') (hf : store.Faultless) {call : Call}
    {work work' : Nat → Shelf κ ν → ρ × Shelf κ ν}
    (hwork : work' (store'.calls call + 1) store.shelf = work (store.calls call + 1) store.shelf) :
    (store'.attempt call work').1 = (store.attempt call work).1
    ∧ (store.attempt call work).2.SameButReads (store'.attempt call work').2 := by
  have hf' : store'.Faultless := fun c n => by rw [h.faults, hf]
  rw [attempt_faultless hf, attempt_faultless hf', h.shelf, hwork]
  refine ⟨rfl, rfl, h.faults, h.order, fun c hc => ?_⟩
  by_cases hcall : c = call
  · subst hcall
    simp only [h.calls c hc]
  · simp only [if_neg hcall, h.calls c hc]

variable [DecidableEq κ]

theorem SameButReads.get (h : store.SameButReads store') (hf : store.Faultless) (keys : List κ) :
    (store'.get keys).1 = (store.get keys).1
    ∧ (store.get keys).2.SameButReads (store'.get keys).2 :=
  h.attempt hf rfl

theorem SameButReads.put (h : store.SameButReads store') (hf : store.Faultless)
    (entries : Entries κ ν) :
    (store'.put entries).1 = (store.put entries).1
    ∧ (store.put entries).2.SameButReads (store'.put entries).2 := by
  -- The order of a batch goes by the number of the write, and both were written equally often.
  apply h.attempt hf
  rw [h.order, h.calls .put (by decide)]

/-- **A repeated read** finds the same and changes nothing. -/
theorem get_again (hf : store.Faultless) (hr : store.shelf.Reachable) (keys : List κ) :
    ((store.get keys).2.get keys).1 = (store.get keys).1
    ∧ (store.get keys).2.SameButReads ((store.get keys).2.get keys).2 := by
  have hf' : (store.get keys).2.Faultless := hf.attempt _ _
  have hshelf : (store.get keys).2.shelf = (store.shelf.get keys).2 := by
    rw [Store.get, attempt_faultless hf]
  have hfirst : (store.get keys).1 = .ok (store.shelf.get keys).1 := by
    rw [Store.get, attempt_faultless hf]
  -- Of the store after the first read only its shelf and its counters matter from here on.
  generalize (store.get keys).2 = used at hf' hshelf
  have hagain := Shelf.get_get hr keys
  rw [← hshelf] at hagain
  rw [hfirst, Store.get, attempt_faultless hf', hagain]
  refine ⟨rfl, hshelf.symm, rfl, rfl, ?_⟩
  intro call hcall
  exact if_neg hcall

end Store

variable {ι α : Type}

/-! ## 2. States whose stores were read more often -/

namespace System

/-- States whose stores differ at most in how often they were read; those of some layers do not
fail. -/
structure SameButReads (layers : List Layer) (sys sys' : System ι α) : Prop where
  stores : ∀ n, (sys.stores.get n).SameButReads (sys'.stores.get n)
  sources : sys'.sources = sys.sources
  faultless : ∀ layer ∈ layers, (sys.stores.get layer.store).Faultless

variable {layers : List Layer} {sys sys' next next' : System ι α}

/-- What a call of one store leaves behind. -/
theorem SameButReads.of_set (h : SameButReads layers sys sys') {n : Nat}
    {store store' : Store ι (List α)} (hs : store.SameButReads store')
    (hfaults : store.faults = (sys.stores.get n).faults)
    (hstores : next.stores = sys.stores.set n store) (hsources : next.sources = sys.sources)
    (hstores' : next'.stores = sys'.stores.set n store')
    (hsources' : next'.sources = sys'.sources) :
    SameButReads layers next next' := by
  refine ⟨fun m => ?_, by rw [hsources, hsources', h.sources], fun layer hl call number => ?_⟩
  · rw [hstores, hstores', Table.get_set, Table.get_set]
    split
    · exact hs
    · exact h.stores m
  · rw [hstores, Table.get_set]
    split
    · rename_i hn
      rw [hfaults, ← hn]
      exact h.faultless layer hl call number
    · exact h.faultless layer hl call number

variable [DecidableEq ι]

theorem SameButReads.read (h : SameButReads layers sys sys') {layer : Layer} (hl : layer ∈ layers)
    (ids : List ι) :
    (sys'.read layer ids).1 = (sys.read layer ids).1
    ∧ SameButReads layers (sys.read layer ids).2 (sys'.read layer ids).2 := by
  obtain ⟨hanswer, hstore⟩ := (h.stores layer.store).get (h.faultless layer hl) ids
  refine ⟨by rw [read_fst, read_fst, hanswer], ?_⟩
  obtain ⟨log, hread⟩ := read_eq sys layer ids
  obtain ⟨log', hread'⟩ := read_eq sys' layer ids
  rw [hread, hread']
  exact h.of_set hstore (Store.faults_attempt _ _ _) rfl rfl rfl rfl

theorem SameButReads.write (h : SameButReads layers sys sys') {layer : Layer} (hl : layer ∈ layers)
    (entries : Entries ι (List α)) :
    (sys'.write layer entries).1 = (sys.write layer entries).1
    ∧ SameButReads layers (sys.write layer entries).2 (sys'.write layer entries).2 := by
  obtain ⟨hanswer, hstore⟩ := (h.stores layer.store).put (h.faultless layer hl) entries
  refine ⟨by rw [write_fst, write_fst, hanswer], ?_⟩
  obtain ⟨log, hwrite⟩ := write_eq sys layer entries
  obtain ⟨log', hwrite'⟩ := write_eq sys' layer entries
  rw [hwrite, hwrite']
  exact h.of_set hstore (Store.faults_attempt _ _ _) rfl rfl rfl rfl

theorem SameButReads.ask (h : SameButReads layers sys sys') (origin : Origin ι α) (ids : List ι) :
    (sys'.ask origin ids).1.2 = (sys.ask origin ids).1.2
    ∧ SameButReads layers (sys.ask origin ids).2 (sys'.ask origin ids).2 := by
  obtain ⟨hanswer, hsources⟩ := ask_congr h.sources origin ids
  refine ⟨hanswer, ?_, hsources, ?_⟩
  · rw [stores_ask, stores_ask]
    exact h.stores
  · rw [stores_ask]
    exact h.faultless

/-- **A layer that is looked into again** finds the same, and the state is the one that the first
look left behind. -/
theorem SameButReads.read_again (hf : ∀ layer ∈ layers, (sys.stores.get layer.store).Faultless)
    {layer : Layer} (hl : layer ∈ layers) (hr : (sys.stores.get layer.store).shelf.Reachable)
    (ids : List ι) :
    ((sys.read layer ids).2.read layer ids).1 = (sys.read layer ids).1
    ∧ SameButReads layers (sys.read layer ids).2 ((sys.read layer ids).2.read layer ids).2 := by
  obtain ⟨hanswer, hstore⟩ := Store.get_again (hf layer hl) hr ids
  obtain ⟨log, hread⟩ := read_eq sys layer ids
  have hused : (sys.read layer ids).2.stores.get layer.store
      = ((sys.stores.get layer.store).get ids).2 := by
    rw [hread]
    exact Table.get_set_self ..
  -- No store but the layer's own was called, and that one was read once more.
  refine ⟨by rw [read_fst, read_fst, hused, hanswer], fun n => ?_, ?_, fun other ho => ?_⟩
  · obtain ⟨log', hread'⟩ := read_eq (sys.read layer ids).2 layer ids
    rw [hread', Table.get_set, hused]
    split
    · rename_i hn
      rw [hn, hused]
      exact hstore
    · exact .refl _
  · obtain ⟨log', hread'⟩ := read_eq (sys.read layer ids).2 layer ids
    rw [hread']
  · have hadvanced : Advanced [layer] sys (sys.read layer ids).2 :=
      .of_called (List.mem_singleton_self layer) (read_called sys layer ids)
        (capacity?_read sys layer ids)
    rw [Store.Faultless, hadvanced.faults]
    exact hf other ho

end System

/-! ## 3. Looking first -/

variable [DecidableEq ι]

namespace Chain

variable {origin : Origin ι α} {layers : List Layer} {sys sys' : System ι α}

/-- Gets ids from the first layer if that misses nothing, and otherwise from all of them. -/
def peek (origin : Origin ι α) (layers : List Layer) (ids : List ι) (sys : System ι α) :
    Journey ι α (Entries ι (List α)) :=
  match layers with
  | [] => askFor origin ids sys
  | first :: rest => lookThen first ids (fun _ => fetch origin (first :: rest) ids) sys

/-- The look that comes before all others and is thrown away: it is made if the first layer does not
hold all ids. -/
def firstLook (held : Layer → Entries ι (List α)) (layers : List Layer) (ids : List ι) :
    List (Move ι α) :=
  match layers with
  | [] => []
  | first :: _ => if passedOn held [first] ids = [] then [] else [.look first ids]

theorem asked_firstLook (held : Layer → Entries ι (List α)) (layers : List Layer) (ids : List ι) :
    (firstLook held layers ids).filterMap Move.asked? = [] := by
  unfold firstLook
  cases layers with
  | nil => rfl
  | cons first rest =>
    dsimp only
    split
    · rfl
    · rfl

theorem indifferent_sameButReads (origin : Origin ι α) (layers : List Layer) :
    Indifferent origin layers (System.SameButReads (ι := ι) (α := α) layers) :=
  ⟨fun h _ hl ids => h.read hl ids, fun h _ hl entries => h.write hl entries,
    fun h ids => h.ask origin ids⟩

/-- Neither time nor locks nor what was written down makes a difference. -/
theorem look_fetch_like (h : sys.SameStock sys') (origin : Origin ι α) (layers : List Layer)
    (first : Layer) (ids : List ι) :
    (lookThen first ids (fun _ => fetch origin layers ids) sys).Like System.SameStock
      (lookThen first ids (fun _ => fetch origin layers ids) sys') := by
  obtain ⟨hanswer, hread⟩ := h.read first ids
  apply lookThen_like
  · exact ⟨rfl, hanswer, hread⟩
  · intro sys₁ sys₂ h₁ found
    exact fetch_like (indifferent_sameStock origin layers) (List.Subset.refl _) h₁ ids

/-- **The first look makes no difference** to what is fetched and to what is left behind. -/
theorem peek_fetch (origin : Origin ι α) (hu : ∀ layer ∈ layers, layer.feeds = [])
    (hf : ∀ layer ∈ layers, (sys.stores.get layer.store).Faultless)
    (hr : ∀ layer ∈ layers, (sys.stores.get layer.store).shelf.Reachable) (ids : List ι) :
    (peek origin layers ids sys).moves
      = firstLook sys.held layers ids ++ (fetch origin layers ids sys).moves
    ∧ (peek origin layers ids sys).result = (fetch origin layers ids sys).result
    ∧ (∀ n, ((fetch origin layers ids sys).system.stores.get n).SameButReads
        ((peek origin layers ids sys).system.stores.get n))
    ∧ (peek origin layers ids sys).system.sources
      = (fetch origin layers ids sys).system.sources := by
  cases layers with
  | nil => exact ⟨rfl, rfl, fun _ => .refl _, rfl⟩
  | cons first rest =>
    have hmem : first ∈ first :: rest := List.mem_cons_self ..
    obtain ⟨hits, hread, -⟩ := look_exact (hu first hmem) (hf first hmem) rfl ids
    by_cases hm : passedOn sys.held [first] ids = []
    · have hsame : peek origin (first :: rest) ids sys = fetch origin (first :: rest) ids sys := by
        rw [peek, fetch, lookThen_of_found _ hread hm, lookThen_of_found _ hread hm]
      rw [hsame, firstLook, if_pos hm]
      exact ⟨rfl, rfl, fun _ => .refl _, rfl⟩
    · -- What follows is the whole chain, from a state in which its first look was made before.
      obtain ⟨hanswer, hagain⟩ := System.SameButReads.read_again hf hmem (hr first hmem) ids
      have hindifferent := indifferent_sameButReads origin (first :: rest)
      have hfetch : (fetch origin (first :: rest) ids sys).Like
          (System.SameButReads (first :: rest))
          (fetch origin (first :: rest) ids (sys.read first ids).2) := by
        apply lookThen_like
        · exact ⟨rfl, hanswer, hagain⟩
        · intro sys₁ sys₂ h₁ found
          have hrest := fetch_like hindifferent (List.subset_cons_self ..) h₁ found.misses
          exact hrest.bind fun fetched _ _ _ h₂ => give_like hindifferent h₂ hmem fetched
      rw [peek, lookThen_of_missed _ hread hm, firstLook, if_neg hm]
      exact ⟨congrArg _ hfetch.moves, hfetch.result, hfetch.system.stores, hfetch.system.sources⟩

end Chain

/-! ## 4. Resolutions that are left alone -/

namespace Resolution

open Chain

variable {r : Resolution ι α} {sys sys' : System ι α} {moves : List (Move ι α)}
  {result : Except Error (Entries ι (List α))}

/-- A resolution that tries in vain reaches nothing. -/
theorem sameStock_of_blocked (h : r.step sys = (.blocked, sys')) : sys.SameStock sys' := by
  have hs := r.stepped sys
  rw [h] at hs
  cases hs with
  | queues | lingers => exact ⟨rfl, rfl⟩
  | stalls hp hlookup => exact hlookup.sameStock
  | rests hp hwalk => exact hwalk.sameStock

/-- The next step of a resolution is taken with the stock as it is. -/
theorem Alone.step (h : r.Alone sys moves result sys') :
    ∃ sys₁, sys.SameStock sys₁
      ∧ ((r.step sys₁ = (.finished result, sys') ∧ moves = r.move?.toList)
        ∨ ∃ r₁ sys₂ rest, r.step sys₁ = (.going r₁, sys₂) ∧ moves = r.move?.toList ++ rest
          ∧ r₁.Alone sys₂ rest result sys') :=
  Collate.Alone.next h sameStock_of_blocked

/-- A resolution that walks takes the steps of its walk. -/
theorem step_walking {walk : Walk ι α} (hp : r.phase = .walking walk) (sys : System ι α) :
    r.step sys = match walk.step r.path.origin sys with
      | (.blocked, sys) => (.blocked, sys)
      | (.going walk, sys) => (.going (r.into (.walking walk)), sys)
      | (.finished result, sys) => (.finished result, sys.release r.path.lock r.ticket) := by
  obtain ⟨path, ids, ticket, phase⟩ := r
  obtain rfl : phase = .walking walk := hp
  rfl

theorem move?_walking {walk : Walk ι α} (hp : r.phase = .walking walk) : r.move? = walk.move? := by
  rw [move?, hp]

/-- It does what its walk does, and then gives the lock back. -/
theorem Alone.walked {walk : Walk ι α} (h : r.Alone sys moves result sys')
    (hp : r.phase = .walking walk) :
    ∃ sys₁, walk.Alone r.path.origin sys moves result sys₁ ∧ sys₁.SameStock sys' := by
  induction h generalizing walk with
  | passes hpass _ ih =>
    obtain ⟨sys₁, hwalk, hsame⟩ := ih hp
    exact ⟨sys₁, .passes hpass hwalk, hsame⟩
  | @blocked r sys _ _ _ _ hb _ ih =>
    rw [step_walking hp] at hb
    rcases hstep : walk.step r.path.origin sys with ⟨_ | _ | _, _⟩ <;> rw [hstep] at hb <;> cases hb
    obtain ⟨sys₁, hwalk, hsame⟩ := ih hp
    exact ⟨sys₁, .blocked hstep hwalk, hsame⟩
  | @goes r _ sys _ _ _ _ hg _ ih =>
    rw [step_walking hp] at hg
    rcases hstep : walk.step r.path.origin sys with ⟨_ | _ | _, _⟩ <;> rw [hstep] at hg <;> cases hg
    obtain ⟨sys₁, hwalk, hsame⟩ := ih rfl
    exact ⟨sys₁, move?_walking hp ▸ .goes hstep hwalk, hsame⟩
  | @ends r sys _ _ he =>
    rw [step_walking hp] at he
    rcases hstep : walk.step r.path.origin sys with ⟨_ | _ | _, sys₁⟩ <;> rw [hstep] at he <;>
      cases he
    exact ⟨sys₁, move?_walking hp ▸ .ends hstep, .of_release _ _ _⟩

/-- Whoever asks for a lock changes no stock, whether it gets the lock or not. -/
theorem Alone.admitted {next : Resolution ι α} {hold : Hold} (h : r.Alone sys moves result sys')
    (hmove : r.move? = none)
    (hstep : ∀ sys, r.step sys = match sys.acquire r.path.lock r.ticket hold with
      | (false, sys) => (.blocked, sys)
      | (true, sys) => (.going next, sys)) :
    ∃ sys₁, sys.SameStock sys₁ ∧ next.Alone sys₁ moves result sys' := by
  obtain ⟨sys₁, hsame, hnext⟩ := h.step
  have hacquired : sys₁.SameStock (sys₁.acquire r.path.lock r.ticket hold).2 := ⟨rfl, rfl⟩
  rw [hmove, hstep] at hnext
  generalize sys₁.acquire r.path.lock r.ticket hold = acquired at hnext hacquired
  obtain ⟨_ | _, sys₂⟩ := acquired
  · rcases hnext with ⟨hend, -⟩ | ⟨_, _, _, hgoing, -⟩
    · cases hend
    · cases hgoing
  · rcases hnext with ⟨hend, -⟩ | ⟨_, _, rest, hgoing, rfl, hrest⟩
    · cases hend
    · cases hgoing
      exact ⟨_, hsame.trans hacquired, hrest⟩

/-- With the lock for itself it fetches. -/
theorem Alone.fetched (h : r.Alone sys moves result sys') (hu : r.path.Unfed)
    (hp : r.phase = .wantsExclusive) :
    (fetch r.path.origin r.path.layers r.ids sys).Like System.SameStock ⟨moves, result, sys'⟩ := by
  obtain ⟨path, ids, ticket, phase⟩ := r
  obtain rfl : phase = .wantsExclusive := hp
  obtain ⟨sys₁, hsame, halone⟩ := h.admitted rfl fun _ => rfl
  obtain ⟨sys₂, hwalk, hback⟩ := halone.walked rfl
  have hstart := fetch_like (indifferent_sameStock path.origin path.layers) (List.Subset.refl _)
    hsame ids
  exact hstart.trans ((hwalk.fetched hu).trans ⟨rfl, rfl, hback⟩)

/-- While it shares the lock it looks, and it goes on only if it has to. -/
theorem Alone.looked {first : Layer} (h : r.Alone sys moves result sys') (hu : r.path.Unfed)
    (hfirst : first.feeds = []) (hp : r.phase = .peeking (.start first r.ids)) :
    (lookThen first r.ids (fun _ => fetch r.path.origin r.path.layers r.ids) sys).Like
      System.SameStock ⟨moves, result, sys'⟩ := by
  obtain ⟨sys₁, hsame, hnext⟩ := h.step
  refine (look_fetch_like hsame r.path.origin r.path.layers first r.ids).trans ?_
  have hmove : r.move?.toList = [.look first r.ids] := by
    simp only [move?, hp, Lookup.move?, Lookup.start, hfirst, Option.toList_some]
  have hlookup : (Lookup.start first r.ids).step sys₁
      = (.finished (sys₁.read first r.ids).1, (sys₁.read first r.ids).2) :=
    Lookup.step_read hfirst sys₁
  rw [hmove, Resolution.step, hp] at hnext
  simp only [hlookup] at hnext
  -- Two of the three ways end here, and both give the lock back.
  cases hread : (sys₁.read first r.ids).1 with
  | error e =>
    rw [lookThen_of_error _ hread]
    simp only [hread] at hnext
    rcases hnext with ⟨hend, rfl⟩ | ⟨_, _, _, hgoing, -⟩
    · cases hend
      exact ⟨rfl, rfl, .of_release _ _ _⟩
    · cases hgoing
  | ok found =>
    simp only [hread] at hnext
    by_cases hm : found.misses = []
    · rw [lookThen_of_found _ hread hm]
      rw [if_pos (List.isEmpty_iff.2 hm)] at hnext
      rcases hnext with ⟨hend, rfl⟩ | ⟨_, _, _, hgoing, -⟩
      · cases hend
        exact ⟨rfl, rfl, .of_release _ _ _⟩
      · cases hgoing
    · rw [lookThen_of_missed _ hread hm]
      rw [if_neg fun he => hm (List.isEmpty_iff.1 he)] at hnext
      rcases hnext with ⟨hend, -⟩ | ⟨_, _, rest, hgoing, rfl, hrest⟩
      · cases hend
      · cases hgoing
        -- The lock is given back in between, and that reaches no stock.
        have hreleased : (sys₁.read first r.ids).2.SameStock _ := .of_release _ r.path.lock r.ticket
        have hstart := fetch_like (indifferent_sameStock r.path.origin r.path.layers)
          (List.Subset.refl _) hreleased r.ids
        exact (hstart.trans (hrest.fetched hu rfl)).led [.look first r.ids]

/-- **A resolution that is left alone** looks first and then fetches. -/
theorem Alone.peeked {path : Path ι α} {ids : List ι}
    (h : (start path ids sys).1.Alone (start path ids sys).2 moves result sys') (hu : path.Unfed) :
    (peek path.origin path.layers ids sys).Like System.SameStock ⟨moves, result, sys'⟩ := by
  have hticket : sys.SameStock (start path ids sys).2 := ⟨rfl, rfl⟩
  obtain ⟨lock, layers, origin⟩ := path
  cases layers with
  | nil =>
    obtain ⟨sys₁, hwalk, hback⟩ := h.walked rfl
    have hchain : (Walk.start [] ids []).Alone origin (start ⟨lock, [], origin⟩ ids sys).2 moves
        result sys₁ := hwalk
    have hstart := askFor_like (indifferent_sameStock origin []) hticket ids
    exact hstart.trans ((hchain.fetched hu).trans ⟨rfl, rfl, hback⟩)
  | cons first rest =>
    obtain ⟨sys₁, hsame, halone⟩ := h.admitted rfl fun sys₁ => rfl
    have hfirst : first.feeds = [] := hu first (List.mem_cons_self ..)
    have hstart := look_fetch_like (hticket.trans hsame) origin (first :: rest) first ids
    exact hstart.trans (halone.looked hu hfirst rfl)

/-- **A resolution comes to an end** when it is left alone, if it has to do with its lock alone. -/
theorem exists_alone (hr : r.Regular) (hu : r.path.Unfed) (hm : Minded r.path.lock [r] sys) :
    ∃ moves result sys', r.Alone sys moves result sys' := by
  generalize hleft : r.left = left
  induction left using Nat.strongRecOn generalizing r sys with
  | ind left ih =>
    -- Nobody has the lock but the resolution itself, so after some time it is not blocked.
    obtain ⟨other, ho, due, hgoes⟩ := hm.exists_going (List.cons_ne_nil _ _)
      (fun other ho => by rw [List.mem_singleton.1 ho])
      (fun other ho => by rwa [List.mem_singleton.1 ho]) hu
    obtain rfl := List.mem_singleton.1 ho
    let later := max sys.now due
    have hpass : Traffic.Passes sys { sys with now := later } := ⟨later, Nat.le_max_left .., rfl⟩
    have hfree := hgoes later (Nat.le_max_right ..)
    have hs := other.stepped { sys with now := later }
    rcases hstep : other.step { sys with now := later } with ⟨_ | next | result, sys'⟩ <;>
      rw [hstep] at hs hfree
    · exact absurd rfl hfree
    · obtain ⟨⟨phase, rfl⟩, hregular, hlt⟩ := hs.going hr
      have hminded : Minded other.path.lock ([] ++ other :: []) { sys with now := later } :=
        hm.mono rfl (List.Subset.refl _)
      have hnext : Minded other.path.lock ([] ++ other.into phase :: []) sys' :=
        (hminded.step hs).replace rfl rfl
      obtain ⟨moves, result, last, hrest⟩ := ih _ (hleft ▸ hlt) hregular hu hnext rfl
      exact ⟨_, result, last, .passes hpass (.goes hstep hrest)⟩
    · exact ⟨_, result, sys', .passes hpass (.ends hstep)⟩

/-- **Looking first while sharing the lock, and walking without any lock, agree.** Take layers
without feeds over stores that do not fail, which may be bounded or not and have come to what they
hold by any calls at all, any ids, any origin with any answers, and a lock that nobody has to do
with. A resolution that is left alone comes to an end, and so does a walk along its layers. Whatever
they come to, the moves of the resolution are those of the walk, after one look that is thrown away
if the first layer does not hold all ids. The origin is asked for the same, the results are the
same, and the stores are left in the same state: the same entries, uses, links and evictions, in
short all but the number of reads. -/
theorem peeked_as_walked (path : Path ι α) (ids : List ι) (sys : System ι α)
    (hunfed : path.Unfed) (hidle : sys.locks.get path.lock = {})
    (hfaultless : ∀ layer ∈ path.layers, (sys.stores.get layer.store).Faultless)
    (hreachable : ∀ layer ∈ path.layers, (sys.stores.get layer.store).shelf.Reachable) :
    (∃ moves result sys', (start path ids sys).1.Alone (start path ids sys).2 moves result sys')
    ∧ (∃ moves result sys',
      (Walk.start path.layers ids []).Alone path.origin sys moves result sys')
    ∧ ∀ moves result sys' moves' result' sys'',
      (start path ids sys).1.Alone (start path ids sys).2 moves result sys' →
      (Walk.start path.layers ids []).Alone path.origin sys moves' result' sys'' →
        moves = firstLook sys.held path.layers ids ++ moves'
        ∧ moves.filterMap Move.asked? = moves'.filterMap Move.asked?
        ∧ result = result'
        ∧ (∀ n, (sys''.stores.get n).SameButReads (sys'.stores.get n))
        ∧ sys'.sources = sys''.sources := by
  refine ⟨?_, ?_, fun moves result sys' moves' result' sys'' hresolution hwalk => ?_⟩
  · have hfree : (start path ids sys).2.locks.get path.lock = {} := hidle
    exact exists_alone (regular_start path ids sys) hunfed (Minded.idle hfree _)
  · exact Walk.exists_alone hunfed (Walk.regular_start ids (List.Subset.refl _) (by simp)) sys
  · obtain ⟨hpeekMoves, hpeekResult, hpeekStock⟩ := hresolution.peeked hunfed
    obtain ⟨hmoves, hresult, hstock⟩ := hwalk.fetched hunfed
    obtain ⟨hsame, hresults, hstores, hsources⟩ :=
      peek_fetch path.origin hunfed hfaultless hreachable ids
    have hled : moves = firstLook sys.held path.layers ids ++ moves' :=
      hpeekMoves.trans (hsame.trans (congrArg _ hmoves.symm))
    refine ⟨hled, ?_, ?_, fun n => ?_, ?_⟩
    · rw [hled, List.filterMap_append, asked_firstLook, List.nil_append]
    · exact hpeekResult.trans (hresults.trans hresult.symm)
    · have hwalked : sys''.stores = _ := hstock.stores
      have hpeeked : sys'.stores = _ := hpeekStock.stores
      rw [hwalked, hpeeked]
      exact hstores n
    · have hwalked : sys''.sources = _ := hstock.sources
      have hpeeked : sys'.sources = _ := hpeekStock.sources
      rw [hwalked, hpeeked]
      exact hsources

/-- The outer store has room for two of three ids and holds two already. -/
def halfKnown : System Nat Nat where
  stores := .ofList .fresh [{ shelf := (Shelf.freshBounded 2).put [(1, [10]), (2, [20])] }, .fresh]
  sources := .filled { reply := fun _ _ => ⟨0, [.ok 30]⟩ }

/-- Ids of which one is not held, and one is asked for twice: the outer store is used twice, and
something is evicted from it, and that is the same as if it had been used once. -/
theorem peeked_as_walked_half_known :
    ∃ (moves moves' : List (Move Nat Nat)) (result : Except Error (Entries Nat (List Nat)))
      (sys' sys'' : System Nat Nat),
      (start ⟨0, [⟨[], 0⟩, ⟨[], 1⟩], .source 0 0 (· / 10)⟩ [1, 3, 2, 1] halfKnown).1.Alone
        (start ⟨0, [⟨[], 0⟩, ⟨[], 1⟩], .source 0 0 (· / 10)⟩ [1, 3, 2, 1] halfKnown).2 moves result
        sys'
      ∧ (Walk.start [⟨[], 0⟩, ⟨[], 1⟩] [1, 3, 2, 1] []).Alone (.source 0 0 (· / 10)) halfKnown
        moves' result sys''
      ∧ moves = .look ⟨[], 0⟩ [1, 3, 2, 1] :: moves'
      ∧ (sys'.stores.get 0).shelf = (sys''.stores.get 0).shelf := by
  have hfaultless : ∀ layer ∈ [(⟨[], 0⟩ : Layer), ⟨[], 1⟩],
      (halfKnown.stores.get layer.store).Faultless := by
    intro layer hl
    obtain rfl | rfl : layer = ⟨[], 0⟩ ∨ layer = ⟨[], 1⟩ := by simpa using hl
    all_goals exact fun _ _ => rfl
  have hreachable : ∀ layer ∈ [(⟨[], 0⟩ : Layer), ⟨[], 1⟩],
      (halfKnown.stores.get layer.store).shelf.Reachable := by
    intro layer hl
    obtain rfl | rfl : layer = ⟨[], 0⟩ ∨ layer = ⟨[], 1⟩ := by simpa using hl
    · exact ⟨.freshBounded 2, [.put [(1, [10]), (2, [20])]], Or.inr ⟨2, rfl⟩, rfl⟩
    · exact ⟨.fresh, [], Or.inl rfl, rfl⟩
  obtain ⟨⟨moves, result, sys', hresolution⟩, ⟨moves', result', sys'', hwalk⟩, hagree⟩ :=
    peeked_as_walked ⟨0, [⟨[], 0⟩, ⟨[], 1⟩], .source 0 0 (· / 10)⟩ [1, 3, 2, 1] halfKnown (by
      unfold Path.Unfed
      decide) rfl hfaultless hreachable
  obtain ⟨hmoves, -, rfl, hstores, -⟩ := hagree _ _ _ _ _ _ hresolution hwalk
  exact ⟨moves, moves', result, sys', sys'', hresolution, hwalk, hmoves, (hstores 0).shelf⟩

end Resolution

end Collate
