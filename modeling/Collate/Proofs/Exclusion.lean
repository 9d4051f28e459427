/-
Concurrent resolutions ask for an id once.

Suppose one layer of a path keeps everything it is given and nobody else writes to it. A resolution
asks the origin only while it has the lock for itself, and only for ids that layer was found without
under the same lock; what it asked for is in that layer before it returns. So whoever comes later
finds the ids there, or finds them still held up behind the lock.

The invariant says this of a walk in between: past the layer, the ids still wanted are unknown to it
and among the misses of its frame; once the origin was asked, its ids are among those misses until
the frame is written, and known from then on.
-/
import Collate.Proofs.Traffic

set_option autoImplicit false

namespace Collate

variable {ι α : Type} [DecidableEq ι]

/-! ## 1. What the layer knows -/

namespace System

/-- The ids a store has an entry of. -/
def Knows (sys : System ι α) (store : Nat) (id : ι) : Prop :=
  (sys.stores.get store).shelf.contents.contains id = true

theorem knows_iff {sys : System ι α} {store : Nat} {id : ι} :
    sys.Knows store id ↔ ∃ v, (sys.stores.get store).shelf.contents.get? id = some v :=
  Entries.contains_eq_true _ _

/-- After a write an unbounded store knows what it knew and, if it was written without a failure, what
was written. -/
theorem knows_write_iff {sys : System ι α} {store : Nat}
    (hcap : (sys.stores.get store).shelf.capacity? = none) (layer : Layer)
    (entries : Entries ι (List α)) (id : ι) :
    (sys.write layer entries).2.Knows store id ↔ sys.Knows store id
      ∨ layer.store = store ∧ (sys.write layer entries).1 = .ok ()
        ∧ entries.contains id = true := by
  by_cases hn : layer.store = store
  · subst hn
    cases hw : (sys.write layer entries).1 with
    | error e =>
      rw [Knows, contents_of_unwritten hw, Knows]
      simp
    | ok =>
      rw [knows_iff, knows_iff, Entries.contains_eq_true, get?_contents_write hcap hw]
      cases entries.get? id <;> simp
  · rw [Knows, (write_called sys layer entries).others store (Ne.symm hn), Knows]
    simp [hn]

/-- A write adds to what an unbounded store knows, and if it does not fail all of it is known. -/
theorem knows_write {sys : System ι α} {store : Nat}
    (hcap : (sys.stores.get store).shelf.capacity? = none) (layer : Layer)
    (entries : Entries ι (List α)) :
    (∀ id, sys.Knows store id → (sys.write layer entries).2.Knows store id)
    ∧ (layer.store = store → (sys.write layer entries).1 = .ok () →
        ∀ id, entries.contains id = true → (sys.write layer entries).2.Knows store id) :=
  ⟨fun id hid => (knows_write_iff hcap layer entries id).2 (Or.inl hid),
    fun hn hok id hid => (knows_write_iff hcap layer entries id).2 (Or.inr ⟨hn, hok, hid⟩)⟩

end System

/-- What is written back has an entry of everything that was missed. -/
theorem contains_writeBack {frame : Frame ι α} (fetched : Entries ι (List α)) {id : ι}
    (h : id ∈ frame.misses) : (Walk.writeBack frame fetched).contains id = true := by
  rw [Entries.contains_eq_true, Walk.writeBack, Entries.get?_fill, if_pos h]
  cases fetched.get? id <;> exact ⟨_, rfl⟩

/-! ## 2. Walks -/

/-- The ids are among the misses of a frame of the store, so they will be written to it. -/
def Pending (store : Nat) (ids : List ι) (frames : List (Frame ι α)) : Prop :=
  ∃ frame ∈ frames, frame.layer.store = store ∧ ids ⊆ frame.misses

omit [DecidableEq ι] in
theorem Pending.cons {store : Nat} {ids : List ι} {frames : List (Frame ι α)}
    (h : Pending store ids frames) (frame : Frame ι α) : Pending store ids (frame :: frames) := by
  obtain ⟨f, hf, hp⟩ := h
  exact ⟨f, List.mem_cons_of_mem _ hf, hp⟩

omit [DecidableEq ι] in
theorem Pending.mono {store : Nat} {ids ids' : List ι} {frames : List (Frame ι α)}
    (h : Pending store ids frames) (hids : ids' ⊆ ids) : Pending store ids' frames := by
  obtain ⟨f, hf, hs, hm⟩ := h
  exact ⟨f, hf, hs, fun id hid => hm (hids hid)⟩

namespace Walk

/-- What a walk past a store knows of it: before the origin was asked, that the ids wanted are not in
the store; afterwards, that what was asked for is on its way to the store or there. -/
def Guarded (store : Nat) (known : ι → Prop) (asked : List ι → Prop) : Walk ι α → Prop
  | .descending lookup rest frames => (∀ ids, ¬asked ids)
    ∧ ((∃ layer ∈ lookup.layer :: rest, layer.store = store)
      ∨ (∀ id ∈ lookup.ids, ¬known id) ∧ Pending store lookup.ids frames)
  | .asking ids frames => (∀ ids, ¬asked ids) ∧ (∀ id ∈ ids, ¬known id) ∧ Pending store ids frames
  | .waiting _ _ frames => ∀ ids, asked ids → Pending store ids frames ∨ ∀ id ∈ ids, known id
  | .returning _ frames => ∀ ids, asked ids → Pending store ids frames ∨ ∀ id ∈ ids, known id

variable {store : Nat} {known : ι → Prop} {asked : List ι → Prop}

omit [DecidableEq ι] in
theorem guarded_start {ids : List ι} {rest : List Layer} {frames : List (Frame ι α)}
    (hasked : ∀ ids, ¬asked ids) (h : (∃ layer ∈ rest, layer.store = store)
      ∨ (∀ id ∈ ids, ¬known id) ∧ Pending store ids frames) :
    (start rest ids frames).Guarded store known asked := by
  cases rest with
  | nil =>
    rcases h with ⟨layer, hl, _⟩ | h
    · cases hl
    · exact ⟨hasked, h⟩
  | cons layer rest => exact ⟨hasked, h⟩

variable {origin : Origin ι α} {walk walk' : Walk ι α} {sys sys' : System ι α}
  {p : Progress (Walk ι α) (Except Error (Entries ι (List α)))}

/-- No step makes an unbounded store forget anything. -/
theorem Stepped.knows (h : Stepped origin walk sys p sys')
    (hcap : (sys.stores.get store).shelf.capacity? = none) {id : ι} (hid : sys.Knows store id) :
    sys'.Knows store id := by
  cases h with
  | stalls h | looks h | unread h | found h hm | missed h hm =>
    rw [System.Knows, h.contents]
    exact hid
  | spared | waits | failed | answered | done => exact hid
  | asked hids =>
    obtain ⟨sources, log, _, heq⟩ := System.ask_eq sys origin _
    rw [heq]
    exact hid
  | unwritten h | written h => exact (System.knows_write hcap _ _).1 id hid

/-- **A step keeps the guard.** What it asks for counts as asked afterwards. -/
theorem Stepped.guarded {layers : List Layer} (h : Stepped origin walk sys (.going walk') sys')
    (hr : walk.Regular layers) (hcap : (sys.stores.get store).shelf.capacity? = none)
    (hw : walk.Guarded store (sys.Knows store) asked) :
    walk'.Guarded store (sys'.Knows store) fun ids => asked ids ∨ walk.asks = some ids := by
  cases h with
  | looks h =>
    obtain ⟨hasked, hahead⟩ := hw
    obtain ⟨hlayer, hids, _, _⟩ := h.going hr.1
    refine ⟨fun ids ha => ha.elim (hasked ids) (by simp [asks]), ?_⟩
    rw [hlayer, hids]
    simp only [System.Knows, h.contents]
    exact hahead
  | found h hm =>
    exact fun ids ha => absurd ha (by simp [hw.1 ids, asks])
  | @missed lookup rest frames _ _ found h hm =>
    obtain ⟨hasked, hahead⟩ := hw
    obtain ⟨hhits, hmisses⟩ := h.found
    -- A layer that misses something has no feed, so its misses are what it does not hold.
    have hnot : lookup.layer.isAuthoritative = false := by
      cases hauth : lookup.layer.isAuthoritative with
      | false => rfl
      | true => exact absurd (by rw [hmisses, System.missesOf, hauth]; rfl) hm
    have hmem : ∀ id ∈ found.misses, id ∈ lookup.ids ∧ found.hits.get? id = none := by
      intro id hid
      rw [hmisses, System.missesOf, hnot] at hid
      obtain ⟨hid, hc⟩ := List.mem_filter.1 hid
      exact ⟨hid, (Entries.contains_eq_false _ _).1 (by simpa using hc)⟩
    refine guarded_start (fun ids ha => ha.elim (hasked ids) (by simp [asks])) ?_
    simp only [System.Knows, h.contents]
    by_cases hstore : lookup.layer.store = store
    · -- This is the layer that keeps everything; it does not know what it misses.
      refine Or.inr ⟨fun id hid hk => ?_, ⟨_, List.mem_cons_self .., hstore, fun _ h => h⟩⟩
      obtain ⟨hmem, hnone⟩ := hmem id hid
      rw [hhits id, if_pos hmem, hstore] at hnone
      obtain ⟨v, hv⟩ := (Entries.contains_eq_true _ _).1 hk
      rw [hv] at hnone
      cases hnone
    · rcases hahead with ⟨layer, hl, hs⟩ | ⟨hunknown, hpending⟩
      · rcases List.mem_cons.1 hl with rfl | hl
        · exact absurd hs hstore
        · exact Or.inl ⟨layer, hl, hs⟩
      · exact Or.inr ⟨fun id hid => hunknown id (hmem id hid).1,
          (hpending.mono fun id hid => (hmem id hid).1).cons _⟩
  | spared => exact fun ids ha => absurd ha (by simp [hw.1 ids, asks])
  | asked hids =>
    obtain ⟨hasked, _, hpending⟩ := hw
    intro ids ha
    rcases ha with ha | ha
    · exact absurd ha (hasked ids)
    · rw [asks_asking hids] at ha
      exact Or.inl (Option.some.inj ha ▸ hpending)
  | answered hnow =>
    exact fun ids ha => ha.elim (hw ids) (by simp [asks])
  | @written fetched frame frames _ h =>
    obtain ⟨hmono, hnew⟩ := System.knows_write hcap frame.layer (writeBack frame fetched)
    intro ids ha
    rcases hw ids (ha.elim id (by simp [asks])) with ⟨f, hf, hs, hm⟩ | hknown
    · rcases List.mem_cons.1 hf with rfl | hf
      · exact Or.inr fun id hid => hnew hs h id (contains_writeBack fetched (hm hid))
      · exact Or.inl ⟨f, hf, hs, hm⟩
    · exact Or.inr fun id hid => hmono id (hknown id hid)

end Walk

/-! ## 3. Resolutions -/

/-- Nothing about the lock changes that matters to the holder of a ticket who shares nothing. -/
structure Lock.Spares (ticket : Nat) (l l' : Lock) : Prop where
  sharesNothing : l.SharesNothing ticket → l'.SharesNothing ticket
  writer : l.writer = some ticket → l'.writer = some ticket

namespace Resolution

/-- What a resolution has to do with the lock and with a store, given what it asked for so far. -/
def Guarded (store : Nat) (sys : System ι α) (asked : List ι → Prop) (r : Resolution ι α) : Prop :=
  match r.phase with
  | .wantsShared => (∀ ids, ¬asked ids) ∧ ∃ layer ∈ r.path.layers, layer.store = store
  | .peeking _ => (∀ ids, ¬asked ids) ∧ ∃ layer ∈ r.path.layers, layer.store = store
  | .wantsExclusive => (∀ ids, ¬asked ids) ∧ (∃ layer ∈ r.path.layers, layer.store = store)
    ∧ (sys.locks.get r.path.lock).SharesNothing r.ticket
  | .walking walk => (sys.locks.get r.path.lock).writer = some r.ticket
    ∧ walk.Guarded store (sys.Knows store) asked

variable {store : Nat} {asked asked' : List ι → Prop} {r r' : Resolution ι α}
  {sys sys' : System ι α} {p : Progress (Resolution ι α) (Except Error (Entries ι (List α)))}

theorem guarded_start {path : Path ι α} (h : ∃ layer ∈ path.layers, layer.store = store)
    (ids : List ι) (hasked : ∀ ids, ¬asked ids) :
    (start path ids sys).1.Guarded store sys' asked := by
  have hlayers : path.layers.isEmpty = false := by
    obtain ⟨layer, hl, _⟩ := h
    simpa using List.ne_nil_of_mem hl
  unfold start Guarded
  simp only [hlayers]
  exact ⟨hasked, h⟩

/-- The guard of one who does nothing stays as long as its lock is spared and, if it walks, the store
is not written. -/
theorem Guarded.frame (h : r.Guarded store sys asked)
    (hlock : Lock.Spares r.ticket (sys.locks.get r.path.lock) (sys'.locks.get r.path.lock))
    (hknows : (∃ walk, r.phase = .walking walk) → ∀ id, sys'.Knows store id ↔ sys.Knows store id)
    (hasked : ∀ ids, asked' ids ↔ asked ids) : r.Guarded store sys' asked' := by
  obtain rfl : asked' = asked := funext fun ids => propext (hasked ids)
  unfold Guarded at h ⊢
  cases hp : r.phase with
  | wantsShared | peeking =>
    rw [hp] at h
    exact h
  | wantsExclusive =>
    rw [hp] at h
    exact ⟨h.1, h.2.1, hlock.sharesNothing h.2.2⟩
  | walking walk =>
    rw [hp] at h
    have heq : sys'.Knows store = sys.Knows store := funext fun id => propext (hknows ⟨_, hp⟩ id)
    exact ⟨hlock.writer h.1, by rw [heq]; exact h.2⟩

/-- A step spares the lock of all others. -/
theorem Stepped.spares (h : r.Stepped sys p sys') {other : Nat} (hne : other ≠ r.ticket) :
    Lock.Spares other (sys.locks.get r.path.lock) (sys'.locks.get r.path.lock) := by
  rcases h.locking with ⟨hold, rfl⟩ | hlocks | ⟨sys₁, hlocks, rfl⟩
  · rw [System.acquire_eq, Table.get_set_self]
    exact ⟨fun h => h.ensureRequested fun ht => absurd ht.symm hne,
      fun h => Lock.writer_ensureRequested h _⟩
  · rw [hlocks]
    exact ⟨id, id⟩
  · rw [System.locks_release, Table.get_set_self, hlocks]
    exact ⟨fun h => h.release r.ticket, fun h => Lock.writer_release h (Ne.symm hne)⟩

theorem knows_release (sys : System ι α) (lock ticket store : Nat) (id : ι) :
    (sys.release lock ticket).Knows store id ↔ sys.Knows store id := by
  rw [System.Knows, stores_release]
  rfl

/-- Only a walk changes entries. -/
theorem Stepped.contents (h : r.Stepped sys p sys') (hp : ∀ walk, r.phase ≠ .walking walk)
    (n : Nat) : (sys'.stores.get n).shelf.contents = (sys.stores.get n).shelf.contents := by
  cases h with
  | queues | shares | overshoots | lingers | enters => rfl
  | stalls _ h | looks _ h => exact h.contents n
  | unread _ h | found _ h | missed _ h =>
    rw [stores_release]
    exact h.contents n
  | rests hw | walks hw | ends hw => exact absurd hw (hp _)

/-- Only a walk changes what a store knows. -/
theorem Stepped.knows_iff (h : r.Stepped sys p sys') (hp : ∀ walk, r.phase ≠ .walking walk)
    (id : ι) : sys'.Knows store id ↔ sys.Knows store id := by
  rw [System.Knows, h.contents hp]
  rfl

/-- An unbounded store forgets nothing. -/
theorem Stepped.knows (h : r.Stepped sys p sys')
    (hcap : (sys.stores.get store).shelf.capacity? = none) {id : ι} (hid : sys.Knows store id) :
    sys'.Knows store id := by
  cases h with
  | queues | shares | overshoots | lingers | enters => exact hid
  | stalls _ h | looks _ h =>
    rw [System.Knows, h.contents]
    exact hid
  | unread _ h | found _ h | missed _ h =>
    rw [knows_release, System.Knows, h.contents]
    exact hid
  | rests hp h | walks hp h => exact h.knows hcap hid
  | ends hp h => exact (knows_release _ _ _ _ _).2 (h.knows hcap hid)

omit [DecidableEq ι] in
/-- Waiting for the lock alone keeps one from sharing it; having it means having it alone. -/
theorem sharesNothing_acquire {lock ticket : Nat} (h : (sys.locks.get lock).SharesNothing ticket) :
    ((sys.acquire lock ticket .exclusive).2.locks.get lock).SharesNothing ticket := by
  rw [System.acquire_eq, Table.get_set_self]
  exact h.ensureRequested fun _ => rfl

/-- **Whoever goes on keeps its guard.** -/
theorem Stepped.guarded (h : r.Stepped sys (.going r') sys') (hr : r.Regular)
    (hcap : (sys.stores.get store).shelf.capacity? = none) (hg : r.Guarded store sys asked) :
    r'.Guarded store sys' fun ids => asked ids ∨ r.asks = some ids := by
  have hnone : (∀ walk, r.phase ≠ .walking walk) → (∀ ids, ¬asked ids) →
      ∀ ids, ¬(asked ids ∨ r.asks = some ids) := by
    intro hp hasked ids ha
    refine ha.elim (hasked ids) fun ha => ?_
    unfold asks at ha
    split at ha
    · rename_i walk hw
      exact hp walk hw
    · cases ha
  cases h with
  | shares hp hl h =>
    rw [Guarded, hp] at hg
    exact ⟨hnone (by simp [hp]) hg.1, hg.2⟩
  | overshoots hp hl h =>
    rw [Regular, hp] at hr
    exact absurd hl hr
  | looks hp h =>
    rw [Guarded, hp] at hg
    exact ⟨hnone (by simp [hp]) hg.1, hg.2⟩
  | missed hp h hm =>
    rw [Guarded, hp] at hg
    refine ⟨hnone (by simp [hp]) hg.1, hg.2, ?_⟩
    show ((System.release _ r.path.lock r.ticket).locks.get r.path.lock).SharesNothing r.ticket
    rw [System.locks_release, Table.get_set_self]
    exact Lock.sharesNothing_release_self _ _
  | enters hp h =>
    rw [Guarded, hp] at hg
    refine ⟨?_, Walk.guarded_start (hnone (by simp [hp]) hg.1) (Or.inl hg.2.1)⟩
    rw [System.acquire_fst] at h
    exact (sharesNothing_acquire hg.2.2).writer_of_holds h
  | @walks walk walk' hp _ h =>
    rw [Guarded, hp] at hg
    rw [Regular, hp] at hr
    have hasks : r.asks = walk.asks := by rw [asks, hp]
    rw [hasks]
    refine ⟨?_, h.guarded hr hcap hg.2⟩
    rw [h.locks]
    exact hg.1

/-- Whoever has to wait keeps its guard. -/
theorem Stepped.guarded_blocked (h : r.Stepped sys .blocked sys')
    (hg : r.Guarded store sys asked) : r.Guarded store sys' asked := by
  unfold Guarded at hg ⊢
  cases h with
  | queues hp h =>
    rw [hp] at hg ⊢
    exact hg
  | stalls hp h =>
    rw [hp] at hg ⊢
    exact hg
  | lingers hp h =>
    rw [hp] at hg ⊢
    exact ⟨hg.1, hg.2.1, sharesNothing_acquire hg.2.2⟩
  | rests hp h =>
    rw [hp] at hg ⊢
    refine ⟨by rw [h.locks]; exact hg.1, ?_⟩
    cases h with
    | stalls h =>
      have heq : sys'.Knows store = sys.Knows store := by
        funext id
        simp only [System.Knows, h.contents]
      rw [heq]
      exact hg.2
    | waits => exact hg.2

/-- **What a resolution asked for is known when it returns well.** -/
theorem Stepped.settled {grouped : Entries ι (List α)}
    (h : r.Stepped sys (.finished (.ok grouped)) sys') (hg : r.Guarded store sys asked) :
    ∀ ids, asked ids → ∀ id ∈ ids, sys'.Knows store id := by
  cases h with
  | found hp h hm =>
    rw [Guarded, hp] at hg
    exact fun ids ha => absurd ha (hg.1 ids)
  | ends hp h =>
    rw [Guarded, hp] at hg
    cases h with
    | done =>
      intro ids ha id hid
      rw [knows_release]
      rcases hg.2 ids ha with ⟨frame, hf, _⟩ | hk
      · cases hf
      · exact hk id hid

end Resolution

/-! ## 4. Traffic -/

section History

omit [DecidableEq ι]

/-- The resolution of the ticket has returned well. -/
def Succeeded (history : List (Mark ι α)) (ticket : Nat) : Prop :=
  ∃ ids grouped, .returned ticket ids (.ok grouped) ∈ history

/-- The resolution of the ticket has failed or was given up. -/
def Failed (history : List (Mark ι α)) (ticket : Nat) : Prop :=
  .dropped ticket ∈ history ∨ ∃ ids e, .returned ticket ids (.error e) ∈ history

theorem Succeeded.mono {history history' : List (Mark ι α)} {ticket : Nat}
    (h : Succeeded history ticket) (hsub : history ⊆ history') : Succeeded history' ticket := by
  obtain ⟨ids, grouped, hm⟩ := h
  exact ⟨ids, grouped, hsub hm⟩

theorem Failed.mono {history history' : List (Mark ι α)} {ticket : Nat}
    (h : Failed history ticket) (hsub : history ⊆ history') : Failed history' ticket := by
  rcases h with h | ⟨ids, e, h⟩
  · exact Or.inl (hsub h)
  · exact Or.inr ⟨ids, e, hsub h⟩

/-- Whatever was asked for had not been asked for before, unless by a resolution that had failed or
been given up by then. -/
def Apart : List (Mark ι α) → Prop
  | [] => True
  | mark :: earlier => Apart earlier ∧ ∀ ticket' ids', mark = .asked ticket' ids' →
    ∀ ticket ids, .asked ticket ids ∈ earlier →
      (∀ id ∈ ids', id ∉ ids) ∨ Failed earlier ticket ∧ ¬Succeeded earlier ticket

theorem Apart.at {later earlier : List (Mark ι α)} {ticket' : Nat} {ids' : List ι}
    (h : Apart (later ++ .asked ticket' ids' :: earlier)) {ticket : Nat} {ids : List ι}
    (hm : .asked ticket ids ∈ earlier) :
    (∀ id ∈ ids', id ∉ ids) ∨ Failed earlier ticket ∧ ¬Succeeded earlier ticket := by
  induction later with
  | nil => exact h.2 ticket' ids' rfl ticket ids hm
  | cons mark later ih => exact ih h.1

end History

namespace Traffic

/-- The invariant of traffic along a path with an unbounded store that nobody else writes to. -/
structure Guarded (path : Path ι α) (store : Nat) (t : Traffic ι α) : Prop where
  regular : Regular path t
  capacity : (t.system.stores.get store).shelf.capacity? = none
  guarded : ∀ r ∈ t.underway,
    r.Guarded store t.system fun ids => .asked r.ticket ids ∈ t.history
  settled : ∀ ticket ids, .asked ticket ids ∈ t.history → Succeeded t.history ticket →
    ∀ id ∈ ids, t.system.Knows store id
  accounted : ∀ ticket ids, .asked ticket ids ∈ t.history → (∃ r ∈ t.underway, r.ticket = ticket)
    ∨ Succeeded t.history ticket ∨ Failed t.history ticket
  apart : Apart t.history

variable {path : Path ι α} {store : Nat} {t t' : Traffic ι α}

/-- Two who walk are one, for each of them has the lock for itself. -/
theorem Guarded.walker_unique (ht : Guarded path store t) {r x : Resolution ι α}
    (hr : r ∈ t.underway) (hx : x ∈ t.underway) {walk walk' : Walk ι α}
    (hpr : r.phase = .walking walk) (hpx : x.phase = .walking walk') : x.ticket = r.ticket := by
  have hgr := ht.guarded r hr
  have hgx := ht.guarded x hx
  rw [Resolution.Guarded, hpr] at hgr
  rw [Resolution.Guarded, hpx] at hgx
  rw [ht.regular.path r hr] at hgr
  rw [ht.regular.path x hx, hgr.1] at hgx
  exact (Option.some.inj hgx.1).symm

/-- Whoever asked for something and is under way walks. -/
theorem Guarded.walks_of_asked (ht : Guarded path store t) {r : Resolution ι α}
    (hr : r ∈ t.underway) {ids : List ι} (ha : .asked r.ticket ids ∈ t.history) :
    ∃ walk, r.phase = .walking walk := by
  have hg := ht.guarded r hr
  cases hp : r.phase with
  | walking walk => exact ⟨walk, rfl⟩
  | wantsShared | peeking | wantsExclusive =>
    rw [Resolution.Guarded, hp] at hg
    exact absurd ha (hg.1 ids)

/-- A step of one keeps the guard of all others. -/
theorem Guarded.others (ht : Guarded path store t) {r x : Resolution ι α} (hr : r ∈ t.underway)
    (hx : x ∈ t.underway) (hne : x.ticket ≠ r.ticket) {sys' : System ι α}
    {p : Progress (Resolution ι α) (Except Error (Entries ι (List α)))}
    (h : r.Stepped t.system p sys') {asked : List ι → Prop}
    (hasked : ∀ ids, asked ids ↔ .asked x.ticket ids ∈ t.history) :
    x.Guarded store sys' asked := by
  refine (ht.guarded x hx).frame ?_ (fun hwalk id => ?_) hasked
  · have hlock := h.spares hne
    rw [ht.regular.path r hr] at hlock
    rw [ht.regular.path x hx]
    exact hlock
  · obtain ⟨walk, hwalk⟩ := hwalk
    exact h.knows_iff (fun walk' hw => hne (ht.walker_unique hr hx hw hwalk)) id

omit [DecidableEq ι] in
theorem asked_of_marks {r : Resolution ι α} {history : List (Mark ι α)} {ticket : Nat}
    {ids : List ι} (h : .asked ticket ids ∈ r.marks ++ history) :
    (ticket = r.ticket ∧ r.asks = some ids) ∨ .asked ticket ids ∈ history := by
  rcases List.mem_append.1 h with h | h
  · obtain ⟨ids', ha, heq⟩ := Resolution.mem_marks.1 h
    cases heq
    exact Or.inl ⟨rfl, ha⟩
  · exact Or.inr h

omit [DecidableEq ι] in
theorem returned_of_marks {r : Resolution ι α} {history : List (Mark ι α)} {ticket : Nat}
    {ids : List ι} {result : Except Error (Entries ι (List α))}
    (h : .returned ticket ids result ∈ r.marks ++ history) :
    .returned ticket ids result ∈ history := by
  refine (List.mem_append.1 h).resolve_left fun hm => ?_
  obtain ⟨_, _, heq⟩ := Resolution.mem_marks.1 hm
  cases heq

omit [DecidableEq ι] in
theorem succeeded_of_marks {r : Resolution ι α} {history : List (Mark ι α)} {ticket : Nat}
    (h : Succeeded (r.marks ++ history) ticket) : Succeeded history ticket := by
  obtain ⟨ids, grouped, h⟩ := h
  exact ⟨ids, grouped, returned_of_marks h⟩

theorem Guarded.begin {ids : List ι} (ht : Guarded path store t)
    (hm : ∃ layer ∈ path.layers, layer.store = store)
    (hregular : Regular path ⟨t.underway ++ [(Resolution.start path ids t.system).1],
      (Resolution.start path ids t.system).2, t.history⟩) :
    Guarded path store ⟨t.underway ++ [(Resolution.start path ids t.system).1],
      (Resolution.start path ids t.system).2, t.history⟩ := by
  refine ⟨hregular, ht.capacity, fun x hx => ?_, ht.settled, fun ticket ids' ha => ?_, ht.apart⟩
  · rcases List.mem_append.1 hx with hx | hx
    · exact (ht.guarded x hx).frame ⟨id, id⟩ (fun _ _ => Iff.rfl) fun _ => Iff.rfl
    · obtain rfl := List.mem_singleton.1 hx
      refine Resolution.guarded_start hm ids fun ids' ha => ?_
      exact absurd (ht.regular.marked _ ha) (Nat.lt_irrefl _)
  · rcases ht.accounted ticket ids' ha with ⟨x, hx, hxt⟩ | h
    · exact Or.inl ⟨x, List.mem_append_left _ hx, hxt⟩
    · exact Or.inr h

section Step

variable {before behind : List (Resolution ι α)} {r r' : Resolution ι α} {sys sys' : System ι α}
  {history : List (Mark ι α)}

theorem Guarded.wait (ht : Guarded path store ⟨before ++ r :: behind, sys, history⟩)
    (h : r.Stepped sys .blocked sys')
    (hregular : Regular path ⟨before ++ r :: behind, sys', history⟩) :
    Guarded path store ⟨before ++ r :: behind, sys', history⟩ := by
  have hr : r ∈ before ++ r :: behind := by simp
  have hadv := h.advanced (ht.regular.regular r hr)
  refine ⟨hregular, (hadv.capacity store).trans ht.capacity, fun x hx => ?_,
    fun ticket ids ha hs id hid => h.knows ht.capacity (ht.settled ticket ids ha hs id hid),
    ht.accounted, ht.apart⟩
  rcases eq_or_mem_rest hx with rfl | hx'
  · exact h.guarded_blocked (ht.guarded x hr)
  · exact ht.others hr hx (ticket_ne_of_mem_rest ht.regular.distinct hx') h fun _ => Iff.rfl

/-- Whoever asks now asks for nothing that was asked for before, failures apart. -/
theorem Guarded.apart_marks (ht : Guarded path store ⟨before ++ r :: behind, sys, history⟩) :
    Apart (r.marks ++ history) := by
  have hr : r ∈ before ++ r :: behind := by simp
  cases hasks : r.asks with
  | none => simpa [Resolution.marks, hasks] using ht.apart
  | some ids' =>
    have hmarks : r.marks = [.asked r.ticket ids'] := by simp [Resolution.marks, hasks]
    rw [hmarks]
    refine ⟨ht.apart, fun ticket' ids'' heq ticket ids ha => ?_⟩
    cases heq
    -- The resolution stands at the origin, with ids that the store does not know.
    obtain ⟨frames, hp⟩ : ∃ frames, r.phase = .walking (.asking ids' frames) := by
      unfold Resolution.asks at hasks
      split at hasks
      · rename_i walk hp
        unfold Walk.asks at hasks
        split at hasks
        · cases hasks
          exact ⟨_, hp⟩
        · cases hasks
      · cases hasks
    have hg := ht.guarded r hr
    rw [Resolution.Guarded, hp] at hg
    obtain ⟨_, hnone, hunknown, _⟩ := hg
    by_cases hs : Succeeded history ticket
    · exact Or.inl fun id hid' hid => hunknown id hid' (ht.settled ticket ids ha hs id hid)
    · refine Or.inr ⟨?_, hs⟩
      rcases ht.accounted ticket ids ha with ⟨x, hx, rfl⟩ | h | h
      · -- Nobody else walks, and this one has asked for nothing yet.
        obtain ⟨walk, hw⟩ := ht.walks_of_asked hx ha
        have hxr := ht.walker_unique hr hx hp hw
        exact absurd (hxr ▸ ha) (hnone ids)
      · exact absurd h hs
      · exact h

theorem Guarded.go (ht : Guarded path store ⟨before ++ r :: behind, sys, history⟩)
    (h : r.Stepped sys (.going r') sys')
    (hregular : Regular path ⟨before ++ r' :: behind, sys', r.marks ++ history⟩) :
    Guarded path store ⟨before ++ r' :: behind, sys', r.marks ++ history⟩ := by
  have hr : r ∈ before ++ r :: behind := by simp
  have hadv := h.advanced (ht.regular.regular r hr)
  obtain ⟨⟨phase, hphase⟩, _⟩ := h.going (ht.regular.regular r hr)
  have hticket : r'.ticket = r.ticket := by rw [hphase]; rfl
  refine ⟨hregular, (hadv.capacity store).trans ht.capacity, fun x hx => ?_,
    fun ticket ids ha hs id hid => ?_, fun ticket ids ha => ?_, ht.apart_marks⟩
  · rcases eq_or_mem_rest hx with rfl | hx'
    · have hg := h.guarded (ht.regular.regular r hr) ht.capacity (ht.guarded r hr)
      have hasked : (fun ids => Mark.asked x.ticket ids ∈ r.marks ++ history)
          = fun ids => Mark.asked r.ticket ids ∈ history ∨ r.asks = some ids := by
        funext ids
        rw [hticket, List.mem_append, Resolution.mem_marks, eq_iff_iff, or_comm]
        simp
      rw [hasked]
      exact hg
    · have hne := ticket_ne_of_mem_rest ht.regular.distinct hx'
      refine ht.others hr (mem_of_mem_rest hx') hne h fun ids => ?_
      refine ⟨fun ha => ?_, fun ha => List.mem_append_right _ ha⟩
      rcases asked_of_marks ha with ⟨hxr, _⟩ | ha
      · exact absurd hxr hne
      · exact ha
  · rcases asked_of_marks ha with ⟨rfl, _⟩ | ha
    · -- Whoever goes on has not returned.
      obtain ⟨ids', grouped, hm⟩ := succeeded_of_marks hs
      obtain ⟨ids'', heq⟩ := ht.regular.live r hr _ hm rfl
      cases heq
    · exact h.knows ht.capacity (ht.settled ticket ids ha (succeeded_of_marks hs) id hid)
  · rcases asked_of_marks ha with ⟨rfl, _⟩ | ha
    · exact Or.inl ⟨r', by simp, hticket⟩
    · rcases ht.accounted ticket ids ha with ⟨x, hx, rfl⟩ | hs | hf
      · rcases eq_or_mem_rest hx with rfl | hx
        · exact Or.inl ⟨r', by simp, hticket⟩
        · exact Or.inl ⟨x, mem_of_mem_rest hx, rfl⟩
      · exact Or.inr (Or.inl (hs.mono (List.subset_append_right _ _)))
      · exact Or.inr (Or.inr (hf.mono (List.subset_append_right _ _)))

/-- Whoever leaves does so with a mark; the others stay as they are. -/
theorem Guarded.leave {mark : Mark ι α}
    (ht : Guarded path store ⟨before ++ r :: behind, sys, history⟩)
    (hregular : Regular path ⟨before ++ behind, sys', mark :: history⟩)
    (hcap : (sys'.stores.get store).shelf.capacity? = none)
    (hknows : ∀ id, sys.Knows store id → sys'.Knows store id)
    (hothers : ∀ x ∈ before ++ behind,
      x.Guarded store sys' fun ids => .asked x.ticket ids ∈ history)
    (hmark : Succeeded [mark] r.ticket ∨ Failed [mark] r.ticket)
    (hsettled : Succeeded [mark] r.ticket → ∀ ids, .asked r.ticket ids ∈ history →
      ∀ id ∈ ids, sys'.Knows store id) :
    Guarded path store ⟨before ++ behind, sys', mark :: history⟩ := by
  have hnotask : ∀ ticket ids, mark ≠ .asked ticket ids := by
    rintro ticket ids rfl
    rcases hmark with ⟨_, _, h⟩ | h | ⟨_, _, h⟩ <;> simp at h
  have hold : ∀ ticket ids, .asked ticket ids ∈ mark :: history →
      .asked ticket ids ∈ history := fun ticket ids h =>
    (List.mem_cons.1 h).resolve_left fun heq => hnotask ticket ids heq.symm
  refine ⟨hregular, hcap, fun x hx => ?_, fun ticket ids ha hs id hid => ?_, fun ticket ids ha => ?_,
    ht.apart, fun ticket' ids' heq => absurd heq (hnotask _ _)⟩
  · have hasked : (fun ids => Mark.asked x.ticket ids ∈ mark :: history)
        = fun ids => Mark.asked x.ticket ids ∈ history := by
      funext ids
      exact propext ⟨hold _ _, List.mem_cons_of_mem _⟩
    rw [hasked]
    exact hothers x hx
  · obtain ⟨ids', grouped, hm⟩ := hs
    rcases List.mem_cons.1 hm with heq | hm
    · have hticket : ticket = r.ticket := by
        rcases hmark with ⟨_, _, h⟩ | h | ⟨_, _, h⟩ <;> rw [← heq] at h <;> simp at h
        exact h.1.symm
      subst hticket
      exact hsettled ⟨ids', grouped, by simp [heq]⟩ ids (hold _ _ ha) id hid
    · exact hknows id (ht.settled ticket ids (hold _ _ ha) ⟨ids', grouped, hm⟩ id hid)
  · have hends : Succeeded (mark :: history) r.ticket ∨ Failed (mark :: history) r.ticket :=
      hmark.imp (fun h => h.mono (by simp)) fun h => h.mono (by simp)
    rcases ht.accounted ticket ids (hold _ _ ha) with ⟨x, hx, rfl⟩ | h | h
    · rcases eq_or_mem_rest hx with rfl | hx
      · exact Or.inr hends
      · exact Or.inl ⟨x, hx, rfl⟩
    · exact Or.inr (Or.inl (h.mono (List.subset_cons_self _ _)))
    · exact Or.inr (Or.inr (h.mono (List.subset_cons_self _ _)))

theorem Guarded.return {result : Except Error (Entries ι (List α))}
    (ht : Guarded path store ⟨before ++ r :: behind, sys, history⟩)
    (h : r.Stepped sys (.finished result) sys')
    (hregular : Regular path ⟨before ++ behind, sys', .returned r.ticket r.ids result :: history⟩) :
    Guarded path store ⟨before ++ behind, sys', .returned r.ticket r.ids result :: history⟩ := by
  have hr : r ∈ before ++ r :: behind := by simp
  have hadv := h.advanced (ht.regular.regular r hr)
  refine ht.leave hregular ((hadv.capacity store).trans ht.capacity)
    (fun id hid => h.knows ht.capacity hid) (fun x hx => ?_) ?_ fun hs ids ha => ?_
  · have hne := ticket_ne_of_mem_rest ht.regular.distinct hx
    exact ht.others hr (mem_of_mem_rest hx) hne h fun _ => Iff.rfl
  · cases result with
    | ok grouped => exact Or.inl ⟨_, _, List.mem_singleton_self _⟩
    | error e => exact Or.inr (Or.inr ⟨_, _, List.mem_singleton_self _⟩)
  · obtain ⟨ids', grouped, hm⟩ := hs
    cases List.mem_singleton.1 hm
    exact h.settled (ht.guarded r hr) ids ha

theorem Guarded.drop (ht : Guarded path store ⟨before ++ r :: behind, sys, history⟩)
    (hregular : Regular path ⟨before ++ behind, r.cancel sys, .dropped r.ticket :: history⟩) :
    Guarded path store ⟨before ++ behind, r.cancel sys, .dropped r.ticket :: history⟩ := by
  obtain ⟨feeds, ready, _, hcancel⟩ := r.cancel_eq sys
  have hstores : (r.cancel sys).stores = sys.stores := by rw [hcancel]
  have hknows : ∀ id, (r.cancel sys).Knows store id ↔ sys.Knows store id := fun id => by
    rw [System.Knows, hstores]
    rfl
  refine ht.leave hregular (by rw [hstores]; exact ht.capacity) (fun id => (hknows id).2)
    (fun x hx => ?_) (Or.inr (Or.inl (List.mem_singleton_self _))) fun hs => ?_
  · have hne := ticket_ne_of_mem_rest ht.regular.distinct hx
    have hpath : x.path = r.path := by
      rw [ht.regular.path x (mem_of_mem_rest hx), ht.regular.path r (by simp)]
    refine (ht.guarded x (mem_of_mem_rest hx)).frame ?_ (fun _ => hknows) fun _ => Iff.rfl
    rw [hcancel, hpath, Table.get_set_self]
    exact ⟨fun h => h.release _, fun h => Lock.writer_release h (Ne.symm hne)⟩
  · obtain ⟨_, _, hm⟩ := hs
    cases List.mem_singleton.1 hm

end Step

/-- **Every step keeps the invariant.** -/
theorem Guarded.step {admits : List ι → Prop} {m : Layer} (hm : m ∈ path.layers)
    (ht : Guarded path m.store t) (h : Step path admits (Elsewhere path.lock [m]) t t') :
    Guarded path m.store t' := by
  have hregular := ht.regular.step (fun _ _ he => he.tickets) h
  cases h with
  | begins h => exact ht.begin ⟨m, hm, rfl⟩ hregular
  | @waits before behind r sys sys' history h =>
    have hs := r.stepped sys
    rw [h] at hs
    exact ht.wait hs hregular
  | @goes before behind r r' sys sys' history h =>
    have hs := r.stepped sys
    rw [h] at hs
    exact ht.go hs hregular
  | @returns before behind r sys sys' history result h =>
    have hs := r.stepped sys
    rw [h] at hs
    exact ht.return hs hregular
  | drops => exact ht.drop hregular
  | @beside _ sys h =>
    have hown := h.contents m (List.mem_singleton_self m)
    have hknows : ∀ id, sys.Knows m.store id ↔ t.system.Knows m.store id := fun id => by
      rw [System.Knows, hown]
      rfl
    refine ⟨hregular, (h.capacity m (List.mem_singleton_self m)).trans ht.capacity, fun x hx => ?_,
      fun ticket ids ha hs id hid => (hknows id).2 (ht.settled ticket ids ha hs id hid),
      ht.accounted, ht.apart⟩
    refine (ht.guarded x hx).frame ?_ (fun _ => hknows) fun _ => Iff.rfl
    rw [ht.regular.path x hx, h.lock]
    exact ⟨id, id⟩

/-- The invariant holds on every run. -/
theorem Guarded.of_leads {admits : List ι → Prop} {m : Layer} (hm : m ∈ path.layers)
    (ht : Guarded path m.store t) (h : Leads path admits (Elsewhere path.lock [m]) t t') :
    Guarded path m.store t' := by
  induction h with
  | refl => exact ht
  | tail _ hstep ih => exact ih.step hm hstep

theorem Guarded.start {sys : System ι α} (hcap : (sys.stores.get store).shelf.capacity? = none) :
    Guarded path store (Traffic.start sys) := by
  refine ⟨regular_start path sys, hcap, ?_, ?_, ?_, trivial⟩ <;> simp [Traffic.start]

/-! ## 5. What follows -/

omit [DecidableEq ι] in
/-- Of those with tickets of their own, at most one is like the others that are alike. -/
theorem countP_le_one {underway : List (Resolution ι α)} {like : Resolution ι α → Bool}
    (hdistinct : (underway.map fun r => r.ticket).Nodup)
    (h : ∀ r ∈ underway, ∀ x ∈ underway, like r = true → like x = true → x.ticket = r.ticket) :
    underway.countP like ≤ 1 := by
  induction underway with
  | nil => exact Nat.zero_le 1
  | cons r rest ih =>
    rw [List.map_cons, List.nodup_cons] at hdistinct
    by_cases hr : like r = true
    · -- All others have other tickets, so none of them is like this one.
      have hrest : rest.countP like = 0 := by
        refine List.countP_eq_zero.2 fun x hx hlike => hdistinct.1 ?_
        have hticket := h r (by simp) x (by simp [hx]) hr hlike
        exact hticket ▸ List.mem_map_of_mem hx
      rw [List.countP_cons_of_pos hr]
      omega
    · rw [List.countP_cons_of_neg hr]
      exact ih hdistinct.2 fun x hx y hy => h x (by simp [hx]) y (by simp [hy])

/-- At any moment the origin is being asked by at most one resolution. -/
theorem Guarded.countP_awaitsOrigin (ht : Guarded path store t) :
    t.underway.countP Resolution.awaitsOrigin ≤ 1 := by
  refine countP_le_one ht.regular.distinct fun r hr x hx hlr hlx => ?_
  have hwalks : ∀ y : Resolution ι α, y.awaitsOrigin = true → ∃ walk, y.phase = .walking walk := by
    intro y hy
    unfold Resolution.awaitsOrigin at hy
    split at hy
    · rename_i hp
      exact ⟨_, hp⟩
    · cases hy
  obtain ⟨walk, hp⟩ := hwalks r hlr
  obtain ⟨walk', hp'⟩ := hwalks x hlx
  exact ht.walker_unique hr hx hp hp'

/-- Where nothing failed, no id was asked for twice. -/
theorem countP_asksFor {history : List (Mark ι α)} (h : Apart history)
    (hok : ∀ mark ∈ history, mark.isFailure = false) (id : ι) :
    history.countP (Mark.asksFor id) ≤ 1 := by
  induction history with
  | nil => exact Nat.zero_le 1
  | cons mark earlier ih =>
    obtain ⟨hearlier, hapart⟩ := h
    have hok' : ∀ mark ∈ earlier, mark.isFailure = false := fun m hm =>
      hok m (List.mem_cons_of_mem _ hm)
    by_cases hasks : mark.asksFor id = true
    · have hrest : earlier.countP (Mark.asksFor id) = 0 := by
        refine List.countP_eq_zero.2 fun other ho hother => ?_
        cases mark with
        | returned | dropped => cases hasks
        | asked ticket' ids' =>
          cases other with
          | returned | dropped => cases hother
          | asked ticket ids =>
            have hid' : id ∈ ids' := by simpa [Mark.asksFor] using hasks
            have hid : id ∈ ids := by simpa [Mark.asksFor] using hother
            rcases hapart ticket' ids' rfl ticket ids ho with hdisjoint | ⟨hfailed, _⟩
            · exact hdisjoint id hid' hid
            · rcases hfailed with hf | ⟨_, _, hf⟩
              · exact absurd (hok' _ hf) (by simp [Mark.isFailure])
              · exact absurd (hok' _ hf) (by simp [Mark.isFailure])
      rw [List.countP_cons_of_pos hasks]
      omega
    · rw [List.countP_cons_of_neg hasks]
      exact ih hearlier hok'

/-- **Concurrent resolutions ask the origin for an id at most once.** Some layer of the path keeps
everything, and nobody else writes to it. Then, whatever the other layers do, in whatever order the
resolutions take their steps, and whoever fails or is dropped on the way: at every moment at most one
resolution awaits the origin; what a resolution asked for that returned well is never asked for
again; and where nobody failed or was dropped, every id was asked for at most once. -/
theorem origin_asked_once {path : Path ι α} {m : Layer} (hm : m ∈ path.layers) {sys : System ι α}
    (hcap : (sys.stores.get m.store).shelf.capacity? = none) {admits : List ι → Prop}
    {t : Traffic ι α} (h : Leads path admits (Elsewhere path.lock [m]) (Traffic.start sys) t) :
    t.underway.countP Resolution.awaitsOrigin ≤ 1
    ∧ (∀ later earlier ticket' ids', t.history = later ++ .asked ticket' ids' :: earlier →
      ∀ ticket ids, .asked ticket ids ∈ earlier → Succeeded earlier ticket →
        ∀ id ∈ ids', id ∉ ids)
    ∧ ((∀ mark ∈ t.history, mark.isFailure = false) →
      ∀ id, t.history.countP (Mark.asksFor id) ≤ 1) := by
  have ht := (Guarded.start hcap).of_leads hm h
  refine ⟨ht.countP_awaitsOrigin, ?_, countP_asksFor ht.apart⟩
  intro later earlier ticket' ids' hhistory ticket ids ha hs
  have hapart := ht.apart
  rw [hhistory] at hapart
  exact (hapart.at ha).resolve_right fun hf => hf.2 hs

/-- Two windows side by side: the second misses two ids on the shared lock, waits for the first one,
and then asks for the one that is still missing. -/
def sideBySide : List (Move Nat) :=
  [.begin [1, 2], .begin [2, 3], .step 0, .step 1, .step 0, .step 1, .step 0, .step 1]
    ++ List.replicate 3 (.step 0) ++ [.passTo 5] ++ List.replicate 7 (.step 0) ++ [.passTo 10]
    ++ List.replicate 4 (.step 0)

/-- A path with one layer, in front of a source that takes its time and gives ten times the id. -/
def echoPath : Path Nat Nat := ⟨0, [⟨[], 0⟩], .source 0 0 (· / 10)⟩

def echoSystem : System Nat Nat :=
  { sources := .filled { reply := fun _ ids => ⟨5, ids.map fun id => .ok (10 * id)⟩ } }

theorem leads_sideBySide : Leads echoPath (fun _ => True) (Elsewhere echoPath.lock [⟨[], 0⟩])
    (Traffic.start echoSystem) ((Traffic.start echoSystem).play echoPath sideBySide) :=
  leads_play (elsewhere_passTo _ _) _ fun _ _ => trivial

theorem origin_asked_once_side_by_side :
    ((Traffic.start echoSystem).play echoPath sideBySide).underway = []
    ∧ (((Traffic.start echoSystem).play echoPath sideBySide).history.map Mark.ticket
      = [1, 1, 0, 0])
    ∧ ∀ id, ((Traffic.start echoSystem).play echoPath sideBySide).history.countP
      (Mark.asksFor id) ≤ 1 :=
  ⟨rfl, rfl, (origin_asked_once (List.mem_singleton_self _) rfl leads_sideBySide).2.2 (by decide)⟩

end Traffic

end Collate
