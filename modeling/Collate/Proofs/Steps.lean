/-
What one step of a resolution can do.

The step functions of lookups, walks and resolutions are taken apart here once. `Stepped` lists the
steps there are, each with its guard, what goes on afterwards and the shared state it leaves; every
invariant of the theory is then checked against these lists, and no later proof unfolds a step.
-/
import Collate.Resolution
import Collate.Proofs.Calls
import Collate.Proofs.Lock

set_option autoImplicit false

namespace Collate

variable {ι α : Type}

/-! ## 1. Locks in the shared state -/

namespace System

theorem acquire_fst (sys : System ι α) (lock ticket : Nat) (hold : Hold) :
    (sys.acquire lock ticket hold).1
      = (((sys.acquire lock ticket hold).2.locks.get lock).holds ticket) := by
  simp [acquire]

theorem acquire_eq (sys : System ι α) (lock ticket : Nat) (hold : Hold) :
    (sys.acquire lock ticket hold).2 = { sys with
      locks := sys.locks.set lock
        ((sys.locks.get lock).ensureRequested ⟨ticket, hold, sys.strand⟩) } := rfl

/-- Giving a lock back calls those who were let in. -/
theorem release_eq (sys : System ι α) (lock ticket : Nat) :
    ∃ ready, (∀ strand, strand ∈ ready ↔ strand ∈ sys.ready
        ∨ strand ∈ (sys.locks.get lock).admitted ((sys.locks.get lock).release ticket))
      ∧ sys.release lock ticket = { sys with
        locks := sys.locks.set lock ((sys.locks.get lock).release ticket)
        ready := ready } := by
  obtain ⟨ready, hmem, h⟩ := rouseAll_eq
    { sys with locks := sys.locks.set lock ((sys.locks.get lock).release ticket) }
    ((sys.locks.get lock).admitted ((sys.locks.get lock).release ticket))
  exact ⟨ready, hmem, h⟩

theorem locks_release (sys : System ι α) (lock ticket : Nat) :
    (sys.release lock ticket).locks
      = sys.locks.set lock ((sys.locks.get lock).release ticket) := by
  obtain ⟨ready, _, h⟩ := release_eq sys lock ticket
  rw [h]

end System

variable [DecidableEq ι]

/-! ## 2. Lookups -/

namespace Lookup

/-- The steps of a lookup. -/
inductive Stepped (l : Lookup ι) (sys : System ι α) :
    Progress (Lookup ι) (Except Error (Found ι α)) → System ι α → Prop where
  /-- The feed it waits for is not ready. -/
  | stalls (feeds : Table FeedStatus) (ready : List Strand) (hr : sys.ready ⊆ ready)
      (hw : l.awaiting ≠ []) :
      Stepped l sys .blocked { sys with feeds := feeds, ready := ready }
  /-- It begins to wait for a feed. -/
  | watches (feeds : Table FeedStatus) (ready : List Strand) (hr : sys.ready ⊆ ready)
      (hw : l.awaiting ≠ [])
      (ha : l.alarm = none) (alarm : Alarm) :
      Stepped l sys (.going { l with alarm := some alarm })
        { sys with feeds := feeds, ready := ready }
  /-- A feed is ready. -/
  | passes (feeds : Table FeedStatus) (ready : List Strand) (hr : sys.ready ⊆ ready)
      {ref : FeedRef} {rest : List FeedRef} (hw : l.awaiting = ref :: rest) :
      Stepped l sys (.going { l with awaiting := rest, alarm := none })
        { sys with feeds := feeds, ready := ready }
  /-- A feed has failed. -/
  | refused (feeds : Table FeedStatus) (ready : List Strand) (hr : sys.ready ⊆ ready)
      (hw : l.awaiting ≠ [])
      (e : Error) :
      Stepped l sys (.finished (.error e)) { sys with feeds := feeds, ready := ready }
  /-- No feed is left to wait for. -/
  | reads (hw : l.awaiting = []) :
      Stepped l sys (.finished (sys.read l.layer l.ids).1) (sys.read l.layer l.ids).2

theorem stepped (l : Lookup ι) (sys : System ι α) :
    l.Stepped sys (l.step sys).1 (l.step sys).2 := by
  rcases hw : l.awaiting with _ | ⟨ref, rest⟩
  · rw [step_read hw]
    exact .reads hw
  · have hne : l.awaiting ≠ [] := by simp [hw]
    obtain ⟨feeds, ready, hr, hs⟩ := subscribe_eq sys ref
    obtain ⟨feeds', hu⟩ := unwatch_eq l { sys with feeds := feeds, ready := ready }
    unfold step
    simp only [hw, hs]
    split
    · rw [hu]
      exact .passes _ _ hr hw
    · split
      · exact .stalls _ _ hr hne
      · rename_i halarm
        rw [← hw]
        exact .watches _ _ hr hne halarm _
    · rw [hu]
      exact .refused _ _ hr hne _

end Lookup

/-! ## 3. Walks -/

namespace Walk

/-- The steps of a walk in front of an origin. -/
inductive Stepped (origin : Origin ι α) : Walk ι α → System ι α →
    Progress (Walk ι α) (Except Error (Entries ι (List α))) → System ι α → Prop where
  /-- The layer looked into keeps the walk waiting. -/
  | stalls {lookup : Lookup ι} {rest : List Layer} {frames : List (Frame ι α)}
      {sys sys' : System ι α} (h : lookup.Stepped sys .blocked sys') :
      Stepped origin (.descending lookup rest frames) sys .blocked sys'
  /-- The lookup goes on. -/
  | looks {lookup lookup' : Lookup ι} {rest : List Layer} {frames : List (Frame ι α)}
      {sys sys' : System ι α} (h : lookup.Stepped sys (.going lookup') sys') :
      Stepped origin (.descending lookup rest frames) sys (.going (.descending lookup' rest frames))
        sys'
  /-- The layer cannot be read. -/
  | unread {lookup : Lookup ι} {rest : List Layer} {frames : List (Frame ι α)}
      {sys sys' : System ι α} {e : Error} (h : lookup.Stepped sys (.finished (.error e)) sys') :
      Stepped origin (.descending lookup rest frames) sys (.finished (.error e)) sys'
  /-- The layer misses nothing. -/
  | found {lookup : Lookup ι} {rest : List Layer} {frames : List (Frame ι α)}
      {sys sys' : System ι α} {found : Found ι α}
      (h : lookup.Stepped sys (.finished (.ok found)) sys') (hm : found.misses = []) :
      Stepped origin (.descending lookup rest frames) sys (.going (.returning found.hits frames))
        sys'
  /-- The layer misses something, and what is behind it comes next. -/
  | missed {lookup : Lookup ι} {rest : List Layer} {frames : List (Frame ι α)}
      {sys sys' : System ι α} {found : Found ι α}
      (h : lookup.Stepped sys (.finished (.ok found)) sys') (hm : found.misses ≠ []) :
      Stepped origin (.descending lookup rest frames) sys
        (.going (start rest found.misses (⟨lookup.layer, found.hits, found.misses⟩ :: frames))) sys'
  /-- There is nothing to ask for. -/
  | spared {frames : List (Frame ι α)} {sys : System ι α} :
      Stepped origin (.asking [] frames) sys (.going (.returning .empty frames)) sys
  /-- The origin is asked. -/
  | asked {ids : List ι} {frames : List (Frame ι α)} {sys : System ι α} (hids : ids ≠ []) :
      Stepped origin (.asking ids frames) sys
        (.going (.waiting ((sys.ask origin ids).2.alarm (sys.ask origin ids).1.1)
          (sys.ask origin ids).1.2 frames))
        (sys.ask origin ids).2
  /-- The answer is not there yet. -/
  | waits {alarm : Alarm} {answer : Except Error (Entries ι (List α))}
      {frames : List (Frame ι α)} {sys : System ι α} (hnow : sys.now < alarm.due) :
      Stepped origin (.waiting alarm answer frames) sys .blocked sys
  /-- The origin has failed. -/
  | failed {alarm : Alarm} {e : Error} {frames : List (Frame ι α)} {sys : System ι α}
      (hnow : alarm.due ≤ sys.now) :
      Stepped origin (.waiting alarm (.error e) frames) sys (.finished (.error e)) sys
  /-- The origin has answered. -/
  | answered {alarm : Alarm} {fetched : Entries ι (List α)} {frames : List (Frame ι α)}
      {sys : System ι α} (hnow : alarm.due ≤ sys.now) :
      Stepped origin (.waiting alarm (.ok fetched) frames) sys (.going (.returning fetched frames))
        sys
  /-- The outermost layer is left. -/
  | done {fetched : Entries ι (List α)} {sys : System ι α} :
      Stepped origin (.returning fetched []) sys (.finished (.ok fetched)) sys
  /-- A layer on the way back cannot be written. -/
  | unwritten {fetched : Entries ι (List α)} {frame : Frame ι α} {frames : List (Frame ι α)}
      {sys : System ι α} {e : Error}
      (h : (sys.write frame.layer (writeBack frame fetched)).1 = .error e) :
      Stepped origin (.returning fetched (frame :: frames)) sys (.finished (.error e))
        (sys.write frame.layer (writeBack frame fetched)).2
  /-- A layer on the way back is written. -/
  | written {fetched : Entries ι (List α)} {frame : Frame ι α} {frames : List (Frame ι α)}
      {sys : System ι α} (h : (sys.write frame.layer (writeBack frame fetched)).1 = .ok ()) :
      Stepped origin (.returning fetched (frame :: frames)) sys
        (.going (.returning (frame.hits.insertAll (writeBack frame fetched).pairs) frames))
        (sys.write frame.layer (writeBack frame fetched)).2

theorem stepped (origin : Origin ι α) (walk : Walk ι α) (sys : System ι α) :
    Stepped origin walk sys (walk.step origin sys).1 (walk.step origin sys).2 := by
  cases walk with
  | descending lookup rest frames =>
    have h := lookup.stepped sys
    unfold step
    dsimp only
    split
    · rename_i hl
      rw [hl] at h
      exact .stalls h
    · rename_i hl
      rw [hl] at h
      exact .looks h
    · rename_i hl
      rw [hl] at h
      exact .unread h
    · rename_i hl
      rw [hl] at h
      split
      · rename_i hm
        exact .found h (List.isEmpty_iff.1 hm)
      · rename_i hm
        exact .missed h fun hn => hm (List.isEmpty_iff.2 hn)
  | asking ids frames =>
    unfold step
    dsimp only
    split
    · rename_i hids
      obtain rfl := List.isEmpty_iff.1 hids
      exact .spared
    · rename_i hids
      exact .asked fun hn => hids (List.isEmpty_iff.2 hn)
  | waiting alarm answer frames =>
    unfold step
    dsimp only
    split
    · exact .waits ‹_›
    · rename_i hnow
      cases answer with
      | error e => exact .failed (Nat.le_of_not_lt hnow)
      | ok fetched => exact .answered (Nat.le_of_not_lt hnow)
  | returning fetched frames =>
    cases frames with
    | nil => exact .done
    | cons frame frames =>
      unfold step
      dsimp only
      rcases hw : (sys.write frame.layer (writeBack frame fetched)).1 with e | _
      · rw [show sys.write frame.layer (writeBack frame fetched) = (.error e, _) from
          Prod.ext hw rfl]
        exact .unwritten hw
      · rw [show sys.write frame.layer (writeBack frame fetched) = (.ok (), _) from
          Prod.ext hw rfl]
        exact .written hw

end Walk

/-! ## 4. Resolutions -/

namespace Resolution

/-- The resolution in another phase. -/
def into (r : Resolution ι α) (phase : Phase ι α) : Resolution ι α := { r with phase := phase }

/-- The steps of a resolution. -/
inductive Stepped (r : Resolution ι α) (sys : System ι α) :
    Progress (Resolution ι α) (Except Error (Entries ι (List α))) → System ι α → Prop where
  /-- Others keep it from sharing the lock. -/
  | queues (hp : r.phase = .wantsShared)
      (h : (sys.acquire r.path.lock r.ticket .shared).1 = false) :
      Stepped r sys .blocked (sys.acquire r.path.lock r.ticket .shared).2
  /-- It shares the lock. -/
  | shares (hp : r.phase = .wantsShared) {first : Layer} {rest : List Layer}
      (hl : r.path.layers = first :: rest)
      (h : (sys.acquire r.path.lock r.ticket .shared).1 = true) :
      Stepped r sys (.going (r.into (.peeking (.start first r.ids))))
        (sys.acquire r.path.lock r.ticket .shared).2
  /-- It shares the lock and there is no layer to look into. -/
  | overshoots (hp : r.phase = .wantsShared) (hl : r.path.layers = [])
      (h : (sys.acquire r.path.lock r.ticket .shared).1 = true) :
      Stepped r sys (.going (r.into .wantsExclusive))
        (sys.acquire r.path.lock r.ticket .shared).2
  /-- The first layer keeps it waiting. -/
  | stalls {lookup : Lookup ι} (hp : r.phase = .peeking lookup) {sys' : System ι α}
      (h : lookup.Stepped sys .blocked sys') : Stepped r sys .blocked sys'
  /-- The lookup goes on. -/
  | looks {lookup lookup' : Lookup ι} (hp : r.phase = .peeking lookup) {sys' : System ι α}
      (h : lookup.Stepped sys (.going lookup') sys') :
      Stepped r sys (.going (r.into (.peeking lookup'))) sys'
  /-- The first layer cannot be read. -/
  | unread {lookup : Lookup ι} (hp : r.phase = .peeking lookup) {sys' : System ι α} {e : Error}
      (h : lookup.Stepped sys (.finished (.error e)) sys') :
      Stepped r sys (.finished (.error e)) (sys'.release r.path.lock r.ticket)
  /-- The first layer holds everything. -/
  | found {lookup : Lookup ι} (hp : r.phase = .peeking lookup) {sys' : System ι α}
      {found : Found ι α} (h : lookup.Stepped sys (.finished (.ok found)) sys')
      (hm : found.misses = []) :
      Stepped r sys (.finished (.ok found.hits)) (sys'.release r.path.lock r.ticket)
  /-- The first layer misses something. -/
  | missed {lookup : Lookup ι} (hp : r.phase = .peeking lookup) {sys' : System ι α}
      {found : Found ι α} (h : lookup.Stepped sys (.finished (.ok found)) sys')
      (hm : found.misses ≠ []) :
      Stepped r sys (.going (r.into .wantsExclusive)) (sys'.release r.path.lock r.ticket)
  /-- Others keep it from having the lock for itself. -/
  | lingers (hp : r.phase = .wantsExclusive)
      (h : (sys.acquire r.path.lock r.ticket .exclusive).1 = false) :
      Stepped r sys .blocked (sys.acquire r.path.lock r.ticket .exclusive).2
  /-- It has the lock for itself. -/
  | enters (hp : r.phase = .wantsExclusive)
      (h : (sys.acquire r.path.lock r.ticket .exclusive).1 = true) :
      Stepped r sys (.going (r.into (.walking (.start r.path.layers r.ids []))))
        (sys.acquire r.path.lock r.ticket .exclusive).2
  /-- The walk has to wait. -/
  | rests {walk : Walk ι α} (hp : r.phase = .walking walk) {sys' : System ι α}
      (h : Walk.Stepped r.path.origin walk sys .blocked sys') : Stepped r sys .blocked sys'
  /-- The walk goes on. -/
  | walks {walk walk' : Walk ι α} (hp : r.phase = .walking walk) {sys' : System ι α}
      (h : Walk.Stepped r.path.origin walk sys (.going walk') sys') :
      Stepped r sys (.going (r.into (.walking walk'))) sys'
  /-- The walk is over. -/
  | ends {walk : Walk ι α} (hp : r.phase = .walking walk) {sys' : System ι α}
      {result : Except Error (Entries ι (List α))}
      (h : Walk.Stepped r.path.origin walk sys (.finished result) sys') :
      Stepped r sys (.finished result) (sys'.release r.path.lock r.ticket)

theorem stepped (r : Resolution ι α) (sys : System ι α) :
    r.Stepped sys (r.step sys).1 (r.step sys).2 := by
  unfold step
  split
  · rename_i hp
    split
    · rename_i h
      have hs := Stepped.queues hp (congrArg Prod.fst h)
      rw [h] at hs
      exact hs
    · rename_i h
      split
      · rename_i hl
        have hs := Stepped.overshoots hp hl (congrArg Prod.fst h)
        rw [h] at hs
        exact hs
      · rename_i hl
        have hs := Stepped.shares hp hl (congrArg Prod.fst h)
        rw [h] at hs
        exact hs
  · rename_i lookup hp
    have h := lookup.stepped sys
    split
    · rename_i hl
      rw [hl] at h
      exact .stalls hp h
    · rename_i hl
      rw [hl] at h
      exact .looks hp h
    · rename_i hl
      rw [hl] at h
      exact .unread hp h
    · rename_i hl
      rw [hl] at h
      split
      · rename_i hm
        exact .found hp h (List.isEmpty_iff.1 hm)
      · rename_i hm
        exact .missed hp h fun hn => hm (List.isEmpty_iff.2 hn)
  · rename_i hp
    split
    · rename_i h
      have hs := Stepped.lingers hp (congrArg Prod.fst h)
      rw [h] at hs
      exact hs
    · rename_i h
      have hs := Stepped.enters hp (congrArg Prod.fst h)
      rw [h] at hs
      exact hs
  · rename_i walk hp
    have h := walk.stepped r.path.origin sys
    split
    · rename_i hl
      rw [hl] at h
      exact .rests hp h
    · rename_i hl
      rw [hl] at h
      exact .walks hp h
    · rename_i hl
      rw [hl] at h
      exact .ends hp h

end Resolution

end Collate
