/-
How far a step reaches, and how many steps there are.

A step of a walk or of a resolution reaches the stores of its own layers, the sources' counters, the
feeds, the list of those called and the log; time, turns and tickets stay as they are, and how
stores and sources answer does not change. A measure falls with every step that goes on, so whatever
is run to its budget has ended or waits.
-/
import Mathlib.Logic.Relation
import Collate.Proofs.Steps

set_option autoImplicit false

namespace Collate

variable {ι α : Type}

/-! ## 1. What a step leaves alone -/

namespace System

/-- What is the same after a step that may touch the stores of some layers. Locks are another
matter. -/
structure Advanced (layers : List Layer) (sys sys' : System ι α) : Prop where
  now : sys'.now = sys.now
  strand : sys'.strand = sys.strand
  turn : sys'.turn = sys.turn
  tickets : sys'.tickets = sys.tickets
  ready : sys.ready ⊆ sys'.ready
  replies : ∀ n, (sys'.sources.get n).reply = (sys.sources.get n).reply
  stores : ∀ n, (∀ layer ∈ layers, layer.store ≠ n) → sys'.stores.get n = sys.stores.get n
  faults : ∀ n, (sys'.stores.get n).faults = (sys.stores.get n).faults
  capacity : ∀ n, (sys'.stores.get n).shelf.capacity? = (sys.stores.get n).shelf.capacity?

namespace Advanced

variable {layers : List Layer} {sys sys' sys'' : System ι α}

theorem refl (layers : List Layer) (sys : System ι α) : Advanced layers sys sys :=
  ⟨rfl, rfl, rfl, rfl, fun _ h => h, fun _ => rfl, fun _ _ => rfl, fun _ => rfl, fun _ => rfl⟩

theorem trans (h : Advanced layers sys sys') (h' : Advanced layers sys' sys'') :
    Advanced layers sys sys'' where
  now := h'.now.trans h.now
  strand := h'.strand.trans h.strand
  turn := h'.turn.trans h.turn
  tickets := h'.tickets.trans h.tickets
  ready := fun _ hs => h'.ready (h.ready hs)
  replies := fun n => (h'.replies n).trans (h.replies n)
  stores := fun n hn => (h'.stores n hn).trans (h.stores n hn)
  faults := fun n => (h'.faults n).trans (h.faults n)
  capacity := fun n => (h'.capacity n).trans (h.capacity n)

theorem mono {layers' : List Layer} (h : Advanced layers sys sys') (hl : layers ⊆ layers') :
    Advanced layers' sys sys' :=
  { h with stores := fun n hn => h.stores n fun layer hm => hn layer (hl hm) }

/-- Nothing but the feeds and the list of those called differs. -/
theorem of_feeds (layers : List Layer) (sys : System ι α) (feeds : Table FeedStatus)
    {ready : List Strand} (hr : sys.ready ⊆ ready) :
    Advanced layers sys { sys with feeds := feeds, ready := ready } :=
  ⟨rfl, rfl, rfl, rfl, hr, fun _ => rfl, fun _ _ => rfl, fun _ => rfl, fun _ => rfl⟩

theorem of_called {layer : Layer} (hl : layer ∈ layers) (h : Called layer.store sys sys')
    (hcap : (sys'.stores.get layer.store).shelf.capacity?
      = (sys.stores.get layer.store).shelf.capacity?) : Advanced layers sys sys' := by
  obtain ⟨stores, log, hsys⟩ := h.frame
  have hstores : ∀ n, n ≠ layer.store → sys'.stores.get n = sys.stores.get n := h.others
  refine ⟨by rw [hsys], by rw [hsys], by rw [hsys], by rw [hsys], by rw [hsys]; exact fun _ h => h,
    by rw [hsys]; exact fun _ => rfl, fun n hn => hstores n (Ne.symm (hn layer hl)), fun n => ?_,
    fun n => ?_⟩
  · by_cases hn : n = layer.store
    · rw [hn, h.faults]
    · rw [hstores n hn]
  · by_cases hn : n = layer.store
    · rw [hn, hcap]
    · rw [hstores n hn]

theorem of_release (layers : List Layer) (sys : System ι α) (lock ticket : Nat) :
    Advanced layers sys (sys.release lock ticket) := by
  obtain ⟨ready, hmem, h⟩ := release_eq sys lock ticket
  rw [h]
  exact ⟨rfl, rfl, rfl, rfl, fun s hs => (hmem s).2 (Or.inl hs), fun _ => rfl, fun _ _ => rfl,
    fun _ => rfl, fun _ => rfl⟩

theorem of_acquire (layers : List Layer) (sys : System ι α) (lock ticket : Nat) (hold : Hold) :
    Advanced layers sys (sys.acquire lock ticket hold).2 :=
  ⟨rfl, rfl, rfl, rfl, fun _ h => h, fun _ => rfl, fun _ _ => rfl, fun _ => rfl, fun _ => rfl⟩

end Advanced

variable [DecidableEq ι]

theorem capacity?_read (sys : System ι α) (layer : Layer) (ids : List ι) :
    ((sys.read layer ids).2.stores.get layer.store).shelf.capacity?
      = (sys.stores.get layer.store).shelf.capacity? := by
  rcases read_cases sys layer ids with ⟨_, _, hshelf⟩ | ⟨_, hshelf⟩
  · rw [hshelf]
  · rw [hshelf, Shelf.capacity?_get]

theorem capacity?_write (sys : System ι α) (layer : Layer) (entries : Entries ι (List α)) :
    ((sys.write layer entries).2.stores.get layer.store).shelf.capacity?
      = (sys.stores.get layer.store).shelf.capacity? := by
  rcases write_cases sys layer entries with ⟨_, _, hshelf⟩ | ⟨_, _, _, hshelf⟩
  · rw [hshelf]
  · rw [hshelf, Shelf.capacity?_put]

/-- Reading a layer changes no entry of any store. -/
theorem contents_read (sys : System ι α) (layer : Layer) (ids : List ι) (n : Nat) :
    ((sys.read layer ids).2.stores.get n).shelf.contents = (sys.stores.get n).shelf.contents := by
  by_cases hn : n = layer.store
  · subst hn
    rcases read_cases sys layer ids with ⟨_, _, hshelf⟩ | ⟨_, hshelf⟩
    · rw [hshelf]
    · rw [hshelf, Shelf.contents_get]
  · rw [(read_called sys layer ids).others n hn]

/-- A write that fails changes no entry either. -/
theorem contents_of_unwritten {sys : System ι α} {layer : Layer} {entries : Entries ι (List α)}
    {e : Error} (h : (sys.write layer entries).1 = .error e) (n : Nat) :
    ((sys.write layer entries).2.stores.get n).shelf.contents
      = (sys.stores.get n).shelf.contents := by
  by_cases hn : n = layer.store
  · subst hn
    rcases write_cases sys layer entries with ⟨_, _, hshelf⟩ | ⟨_, _, hok, _⟩
    · rw [hshelf]
    · rw [h] at hok
      cases hok
  · rw [(write_called sys layer entries).others n hn]

/-- A write that does not fail adds what is written, and nothing is lost where there is no bound. -/
theorem get?_contents_write {sys : System ι α} {layer : Layer} {entries : Entries ι (List α)}
    (hcap : (sys.stores.get layer.store).shelf.capacity? = none)
    (hok : (sys.write layer entries).1 = .ok ()) (id : ι) :
    ((sys.write layer entries).2.stores.get layer.store).shelf.contents.get? id
      = (entries.get? id).or ((sys.stores.get layer.store).shelf.contents.get? id) := by
  rcases write_cases sys layer entries with ⟨_, herror, _⟩ | ⟨batch, hperm, _, hshelf⟩
  · rw [hok] at herror
    cases herror
  · rw [hshelf]
    exact Shelf.get?_put_unbounded hcap hperm id

theorem locks_read (sys : System ι α) (layer : Layer) (ids : List ι) :
    (sys.read layer ids).2.locks = sys.locks := by
  obtain ⟨log, h⟩ := read_eq sys layer ids
  rw [h]

theorem locks_write (sys : System ι α) (layer : Layer) (entries : Entries ι (List α)) :
    (sys.write layer entries).2.locks = sys.locks := by
  obtain ⟨log, h⟩ := write_eq sys layer entries
  rw [h]

theorem sources_read (sys : System ι α) (layer : Layer) (ids : List ι) :
    (sys.read layer ids).2.sources = sys.sources := by
  obtain ⟨log, h⟩ := read_eq sys layer ids
  rw [h]

theorem sources_write (sys : System ι α) (layer : Layer) (entries : Entries ι (List α)) :
    (sys.write layer entries).2.sources = sys.sources := by
  obtain ⟨log, h⟩ := write_eq sys layer entries
  rw [h]

/-- Asking an origin changes its counter of calls and the log. -/
theorem ask_eq (sys : System ι α) (origin : Origin ι α) (ids : List ι) :
    ∃ sources log, (∀ n, (sources.get n).reply = (sys.sources.get n).reply)
      ∧ (sys.ask origin ids).2 = { sys with sources := sources, log := log } := by
  cases origin with
  | source source bucket key =>
    refine ⟨_, _, fun n => ?_, rfl⟩
    rw [Table.get_set]
    split
    · rename_i hn
      rw [hn]
    · rfl
  | fallback bucket delay answer => exact ⟨sys.sources, _, fun _ => rfl, rfl⟩

end System

/-! ## 2. Lookups -/

variable [DecidableEq ι]

namespace Lookup

/-- The lookup still has some of its layer's feeds to pass, or none. -/
def Regular (l : Lookup ι) : Prop := l.awaiting <:+ l.layer.feeds

omit [DecidableEq ι] in
theorem regular_start (layer : Layer) (ids : List ι) : (start layer ids).Regular := List.suffix_rfl

omit [DecidableEq ι] in
/-- A lookup in a layer without feeds has none to pass. -/
theorem Regular.awaiting {l : Lookup ι} (h : l.Regular) (hf : l.layer.feeds = []) :
    l.awaiting = [] := by
  rw [Regular, hf] at h
  exact List.suffix_nil.1 h

/-- How many steps are left of a lookup at most. -/
def left (l : Lookup ι) : Nat := 2 * l.awaiting.length - l.alarm.toList.length + 1

variable {l l' : Lookup ι} {sys sys' : System ι α}
  {p : Progress (Lookup ι) (Except Error (Found ι α))}

theorem Stepped.advanced (h : l.Stepped sys p sys') : System.Advanced [l.layer] sys sys' := by
  cases h with
  | stalls feeds ready hr hw | watches feeds ready hr hw | passes feeds ready hr hw
  | refused feeds ready hr hw => exact .of_feeds _ _ _ hr
  | reads hw =>
    exact .of_called (List.mem_singleton_self _) (System.read_called _ _ _)
      (System.capacity?_read _ _ _)

theorem Stepped.locks (h : l.Stepped sys p sys') : sys'.locks = sys.locks := by
  cases h with
  | stalls | watches | passes | refused => rfl
  | reads hw => exact System.locks_read _ _ _

theorem Stepped.contents (h : l.Stepped sys p sys') (n : Nat) :
    (sys'.stores.get n).shelf.contents = (sys.stores.get n).shelf.contents := by
  cases h with
  | stalls | watches | passes | refused => rfl
  | reads hw => exact System.contents_read _ _ _ n

/-- Whoever goes on looks the same ids up in the same layer, and has fewer steps left. -/
theorem Stepped.going (h : l.Stepped sys (.going l') sys') (hl : l.Regular) :
    l'.layer = l.layer ∧ l'.ids = l.ids ∧ l'.Regular ∧ l'.left < l.left := by
  generalize hp : (Progress.going l' : Progress (Lookup ι) (Except Error (Found ι α))) = p at h
  cases h with
  | stalls | refused | reads => cases hp
  | watches feeds ready hr hw ha alarm =>
    cases hp
    refine ⟨rfl, rfl, hl, ?_⟩
    have hlen : 0 < l.awaiting.length := List.length_pos_of_ne_nil hw
    simp only [left, ha, Option.toList_none, Option.toList_some, List.length_nil,
      List.length_singleton]
    omega
  | passes feeds ready hr hw =>
    cases hp
    refine ⟨rfl, rfl, ?_, ?_⟩
    · rw [Regular, hw] at hl
      exact (List.suffix_cons _ _).trans hl
    · have hlen : l.alarm.toList.length ≤ 1 := by cases l.alarm <;> simp
      simp only [left, hw, Option.toList_none, List.length_nil, List.length_cons]
      omega

/-- What was found is what the layer held. -/
theorem Stepped.found {found : Found ι α} (h : l.Stepped sys (.finished (.ok found)) sys') :
    (∀ id, found.hits.get? id
      = if id ∈ l.ids then (sys.stores.get l.layer.store).shelf.contents.get? id else none)
    ∧ found.misses = System.missesOf l.layer l.ids found.hits := by
  generalize hp : (Progress.finished (.ok found)
    : Progress (Lookup ι) (Except Error (Found ι α))) = p at h
  cases h with
  | stalls | watches | passes | refused => cases hp
  | reads hw =>
    have hread : (sys.read l.layer l.ids).1 = .ok found := (Progress.finished.inj hp).symm
    rcases System.read_cases sys l.layer l.ids with ⟨cause, hr, _⟩ | ⟨hr, _⟩
    · rw [hread] at hr
      cases hr
    · rw [hread] at hr
      cases hr
      exact ⟨Shelf.get?_get _ _, rfl⟩

end Lookup

/-! ## 3. Walks -/

namespace Walk

/-- The walk touches no layers but these, and its lookup is regular. -/
def Regular (layers : List Layer) : Walk ι α → Prop
  | .descending lookup rest frames => lookup.Regular ∧ lookup.layer ∈ layers ∧ rest ⊆ layers
    ∧ ∀ frame ∈ frames, frame.layer ∈ layers
  | .asking _ frames => ∀ frame ∈ frames, frame.layer ∈ layers
  | .waiting _ _ frames => ∀ frame ∈ frames, frame.layer ∈ layers
  | .returning _ frames => ∀ frame ∈ frames, frame.layer ∈ layers

/-- How many steps are left of a walk at most. -/
def left : Walk ι α → Nat
  | .descending lookup rest frames =>
    lookup.left + rest.foldr (fun layer n => 2 * layer.feeds.length + 1 + n) 0
      + (frames.length + rest.length + 4)
  | .asking _ frames => frames.length + 3
  | .waiting _ _ frames => frames.length + 2
  | .returning _ frames => frames.length + 1

omit [DecidableEq ι] in
theorem left_pos (walk : Walk ι α) : 0 < walk.left := by
  cases walk <;> simp only [left] <;> omega

omit [DecidableEq ι] in
theorem left_le_budget (walk : Walk ι α) : walk.left ≤ walk.budget := by
  cases walk with
  | descending lookup rest frames =>
    simp only [left, budget, Lookup.left, Lookup.budget, budgetOfReturn]
    omega
  | asking | waiting | returning =>
    simp only [left, budget, budgetOfReturn]
    omega

omit [DecidableEq ι] in
theorem regular_start {layers : List Layer} {rest : List Layer} (ids : List ι)
    {frames : List (Frame ι α)} (hr : rest ⊆ layers) (hf : ∀ frame ∈ frames, frame.layer ∈ layers) :
    (start rest ids frames).Regular layers := by
  cases rest with
  | nil => exact hf
  | cons layer rest =>
    exact ⟨Lookup.regular_start layer ids, hr (List.mem_cons_self ..),
      fun x hx => hr (List.mem_cons_of_mem _ hx), hf⟩

omit [DecidableEq ι] in
theorem left_start (rest : List Layer) (ids : List ι) (frames : List (Frame ι α)) :
    (start rest ids frames).left
      = rest.foldr (fun layer n => 2 * layer.feeds.length + 1 + n) 0
        + (frames.length + rest.length + 3) := by
  cases rest with
  | nil => simp [start, left]
  | cons layer rest =>
    simp only [start, left, Lookup.left, Lookup.start, Option.toList_none, List.length_nil,
      List.foldr_cons, List.length_cons]
    omega

variable {origin : Origin ι α} {layers : List Layer} {walk walk' : Walk ι α}
  {sys sys' : System ι α} {p : Progress (Walk ι α) (Except Error (Entries ι (List α)))}

theorem Stepped.advanced (h : Stepped origin walk sys p sys') (hw : walk.Regular layers) :
    System.Advanced layers sys sys' := by
  cases h with
  | stalls h | looks h | unread h | found h | missed h =>
    exact h.advanced.mono (List.cons_subset.2 ⟨hw.2.1, List.nil_subset _⟩)
  | spared | waits | failed | answered | done => exact .refl _ _
  | asked hids =>
    obtain ⟨sources, log, hreplies, heq⟩ := System.ask_eq sys origin _
    rw [heq]
    exact ⟨rfl, rfl, rfl, rfl, fun _ h => h, hreplies, fun _ _ => rfl, fun _ => rfl, fun _ => rfl⟩
  | unwritten | written =>
    exact .of_called (hw _ (List.mem_cons_self ..)) (System.write_called _ _ _)
      (System.capacity?_write _ _ _)

theorem Stepped.locks (h : Stepped origin walk sys p sys') : sys'.locks = sys.locks := by
  cases h with
  | stalls h | looks h | unread h | found h | missed h => exact h.locks
  | spared | waits | failed | answered | done => rfl
  | asked hids =>
    obtain ⟨sources, log, _, heq⟩ := System.ask_eq sys origin _
    rw [heq]
  | unwritten | written => exact System.locks_write _ _ _

/-- A walk that goes on keeps to its layers and has fewer steps left. -/
theorem Stepped.going (h : Stepped origin walk sys (.going walk') sys') (hw : walk.Regular layers) :
    walk'.Regular layers ∧ walk'.left < walk.left := by
  cases h with
  | looks h =>
    obtain ⟨hlayer, _, hregular, hleft⟩ := h.going hw.1
    refine ⟨⟨hregular, hlayer ▸ hw.2.1, hw.2.2⟩, ?_⟩
    simp only [left]
    omega
  | found h hm =>
    refine ⟨hw.2.2.2, ?_⟩
    simp only [left]
    omega
  | missed h hm =>
    refine ⟨regular_start _ hw.2.2.1 fun frame hf => ?_, ?_⟩
    · rcases List.mem_cons.1 hf with rfl | hf
      · exact hw.2.1
      · exact hw.2.2.2 frame hf
    · rw [left_start]
      simp only [left, Lookup.left, List.length_cons]
      omega
  | spared | asked | answered =>
    refine ⟨hw, ?_⟩
    simp only [left]
    omega
  | written h =>
    refine ⟨fun frame hf => hw frame (List.mem_cons_of_mem _ hf), ?_⟩
    simp only [left, List.length_cons]
    omega

end Walk

/-! ## 4. Resolutions -/

/-- The path has no feeds, so whatever a layer does not hold is looked for behind it. -/
def Path.Unfed (path : Path ι α) : Prop := ∀ layer ∈ path.layers, layer.feeds = []

namespace Resolution

/-- The resolution touches no layers but its own, and has layers if it has to do with the lock. -/
def Regular (r : Resolution ι α) : Prop :=
  match r.phase with
  | .wantsShared => r.path.layers ≠ []
  | .peeking lookup => lookup.Regular ∧ lookup.layer ∈ r.path.layers
  | .wantsExclusive => r.path.layers ≠ []
  | .walking walk => walk.Regular r.path.layers

/-- How many steps are left of a resolution at most. -/
def left (r : Resolution ι α) : Nat :=
  let walk := (Walk.start r.path.layers r.ids ([] : List (Frame ι α))).left
  match r.phase with
  | .wantsShared => walk + walk + 2
  | .peeking lookup => lookup.left + walk + 1
  | .wantsExclusive => walk + 1
  | .walking walk => walk.left

omit [DecidableEq ι] in
theorem left_pos (r : Resolution ι α) : 0 < r.left := by
  unfold left
  cases r.phase with
  | walking walk => exact walk.left_pos
  | wantsShared | peeking | wantsExclusive => exact Nat.succ_pos _

omit [DecidableEq ι] in
theorem left_le_budget (r : Resolution ι α) : r.left ≤ r.budget := by
  have hw := (Walk.start r.path.layers r.ids ([] : List (Frame ι α))).left_le_budget
  unfold left budget
  cases r.phase with
  | wantsShared | wantsExclusive =>
    dsimp only
    omega
  | peeking lookup =>
    simp only [Lookup.left, Lookup.budget]
    omega
  | walking walk => exact walk.left_le_budget

variable {r r' : Resolution ι α} {sys sys' : System ι α}
  {p : Progress (Resolution ι α) (Except Error (Entries ι (List α)))}

theorem Stepped.advanced (h : r.Stepped sys p sys') (hr : r.Regular) :
    System.Advanced r.path.layers sys sys' := by
  cases h with
  | queues | shares | overshoots | lingers | enters => exact .of_acquire _ _ _ _ _
  | stalls hp h | looks hp h =>
    rw [Regular, hp] at hr
    exact h.advanced.mono (List.cons_subset.2 ⟨hr.2, List.nil_subset _⟩)
  | unread hp h | found hp h | missed hp h =>
    rw [Regular, hp] at hr
    exact (h.advanced.mono (List.cons_subset.2 ⟨hr.2, List.nil_subset _⟩)).trans
      (.of_release _ _ _ _)
  | rests hp h | walks hp h =>
    rw [Regular, hp] at hr
    exact h.advanced hr
  | ends hp h =>
    rw [Regular, hp] at hr
    exact (h.advanced hr).trans (.of_release _ _ _ _)

/-- To its lock a step does one of three things: it asks for it, it leaves it alone, or it gives it
back after all else is done. -/
theorem Stepped.locking (h : r.Stepped sys p sys') :
    (∃ hold, sys' = (sys.acquire r.path.lock r.ticket hold).2) ∨ sys'.locks = sys.locks
    ∨ ∃ sys₁ : System ι α, sys₁.locks = sys.locks
      ∧ sys' = sys₁.release r.path.lock r.ticket := by
  cases h with
  | queues | shares | overshoots | lingers | enters => exact Or.inl ⟨_, rfl⟩
  | stalls hp h | looks hp h => exact Or.inr (Or.inl h.locks)
  | unread hp h | found hp h | missed hp h => exact Or.inr (Or.inr ⟨_, h.locks, rfl⟩)
  | rests hp h | walks hp h => exact Or.inr (Or.inl h.locks)
  | ends hp h => exact Or.inr (Or.inr ⟨_, h.locks, rfl⟩)

/-- A resolution that goes on is the same one in another phase, with fewer steps left. -/
theorem Stepped.going (h : r.Stepped sys (.going r') sys') (hr : r.Regular) :
    (∃ phase, r' = r.into phase) ∧ r'.Regular ∧ r'.left < r.left := by
  cases h with
  | shares hp hl h =>
    refine ⟨⟨_, rfl⟩, ⟨Lookup.regular_start _ _, hl ▸ List.mem_cons_self ..⟩, ?_⟩
    simp only [left, into, hp, Walk.left_start, hl, Lookup.left, Lookup.start, Option.toList_none,
      List.length_nil, List.foldr_cons, List.length_cons]
    omega
  | overshoots hp hl h =>
    rw [Regular, hp] at hr
    exact absurd hl hr
  | looks hp h =>
    rw [Regular, hp] at hr
    obtain ⟨hlayer, _, hregular, hleft⟩ := h.going hr.1
    refine ⟨⟨_, rfl⟩, ⟨hregular, hlayer ▸ hr.2⟩, ?_⟩
    simp only [left, into, hp]
    omega
  | missed hp h hm =>
    rw [Regular, hp] at hr
    refine ⟨⟨_, rfl⟩, List.ne_nil_of_mem hr.2, ?_⟩
    simp only [left, into, hp, Lookup.left]
    omega
  | enters hp h =>
    refine ⟨⟨_, rfl⟩, Walk.regular_start _ (fun _ h => h) (by simp), ?_⟩
    simp only [left, into, hp]
    omega
  | walks hp h =>
    rw [Regular, hp] at hr
    obtain ⟨hregular, hleft⟩ := h.going hr
    refine ⟨⟨_, rfl⟩, hregular, ?_⟩
    simp only [left, into, hp]
    exact hleft

omit [DecidableEq ι] in
theorem regular_start (path : Path ι α) (ids : List ι) (sys : System ι α) :
    (start path ids sys).1.Regular := by
  unfold start Regular
  dsimp only
  cases hl : path.layers.isEmpty with
  | false => exact fun hn => by simp [hn] at hl
  | true => exact fun frame hf => absurd hf (by simp)

end Resolution

omit [DecidableEq ι] in
/-- Giving up leaves everything but the feeds, the lock and those called as it is. -/
theorem Resolution.cancel_eq (r : Resolution ι α) (sys : System ι α) :
    ∃ feeds ready, (∀ strand, strand ∈ ready ↔ strand ∈ sys.ready ∨ strand ∈
        (sys.locks.get r.path.lock).admitted ((sys.locks.get r.path.lock).release r.ticket))
      ∧ r.cancel sys = { sys with
        feeds := feeds
        locks := sys.locks.set r.path.lock ((sys.locks.get r.path.lock).release r.ticket)
        ready := ready } := by
  have hrelease : ∀ feeds, ∃ ready, (∀ strand, strand ∈ ready ↔ strand ∈ sys.ready ∨ strand ∈
        (sys.locks.get r.path.lock).admitted ((sys.locks.get r.path.lock).release r.ticket))
      ∧ ({ sys with feeds := feeds } : System ι α).release r.path.lock r.ticket = { sys with
        feeds := feeds
        locks := sys.locks.set r.path.lock ((sys.locks.get r.path.lock).release r.ticket)
        ready := ready } :=
    fun feeds => System.release_eq { sys with feeds := feeds } r.path.lock r.ticket
  have hunwatch : ∀ lookup : Lookup ι, ∃ feeds, lookup.unwatch sys = { sys with feeds := feeds } :=
    fun lookup => Lookup.unwatch_eq lookup sys
  unfold Resolution.cancel
  split
  · rename_i lookup hp
    obtain ⟨feeds, hfeeds⟩ := hunwatch lookup
    rw [hfeeds]
    exact ⟨feeds, hrelease feeds⟩
  · rename_i walk hp
    cases walk with
    | descending lookup rest frames =>
      obtain ⟨feeds, hfeeds⟩ := hunwatch lookup
      rw [Walk.unwatch, hfeeds]
      exact ⟨feeds, hrelease feeds⟩
    | asking | waiting | returning => exact ⟨sys.feeds, hrelease sys.feeds⟩
  · exact ⟨sys.feeds, hrelease sys.feeds⟩

/-! ## 5. Running something to its budget -/

/-- Taking steps that go on. -/
def Leads {σ ρ ω : Type} (step : σ → ω → Progress σ ρ × ω) (a b : σ × ω) : Prop :=
  step a.1 a.2 = (.going b.1, b.2)

/-- Running something with enough fuel means taking steps until one is blocked or the last one. -/
theorem runSteps_ends {σ ρ ω : Type} {step : σ → ω → Progress σ ρ × ω} {left : σ → Nat}
    {regular : σ → Prop} (hpos : ∀ s, 0 < left s)
    (hgoing : ∀ s w s' w', regular s → step s w = (.going s', w') → regular s' ∧ left s' < left s)
    {fuel : Nat} {s : σ} (hs : regular s) (hfuel : left s ≤ fuel) (w : ω) :
    ∃ s' w', Relation.ReflTransGen (Leads step) (s, w) (s', w')
      ∧ ((∃ w'', step s' w' = (.blocked, w'') ∧ runSteps step fuel s w = (.waiting s', w''))
        ∨ ∃ result w'', step s' w' = (.finished result, w'')
          ∧ runSteps step fuel s w = (.finished result, w'')) := by
  induction fuel generalizing s w with
  | zero =>
    have hlt := hpos s
    omega
  | succ fuel ih =>
    rcases hstep : step s w with ⟨_ | s' | result, w'⟩
    · exact ⟨s, w, .refl, Or.inl ⟨w', hstep, by simp only [runSteps, hstep]⟩⟩
    · obtain ⟨hs', hleft⟩ := hgoing s w s' w' hs hstep
      obtain ⟨s₁, w₁, hreach, hend⟩ := ih hs' (by omega) w'
      have hlead : Leads step (s, w) (s', w') := hstep
      refine ⟨s₁, w₁, hreach.head hlead, ?_⟩
      simpa only [runSteps, hstep] using hend
    · exact ⟨s, w, .refl, Or.inr ⟨result, w', hstep, by simp only [runSteps, hstep]⟩⟩

/-- **A resolution that is run ends or waits**: its budget never cuts it short. -/
theorem Resolution.run_ends {r : Resolution ι α} (hr : r.Regular) (sys : System ι α) :
    ∃ r' sys', Relation.ReflTransGen (Leads Resolution.step) (r, sys) (r', sys')
      ∧ ((∃ sys'', r'.step sys' = (.blocked, sys'') ∧ r.run sys = (.waiting r', sys''))
        ∨ ∃ result sys'', r'.step sys' = (.finished result, sys'')
          ∧ r.run sys = (.finished result, sys'')) :=
  runSteps_ends left_pos
    (fun s w s' w' hs hstep => by
      have h := s.stepped w
      rw [hstep] at h
      exact (h.going hs).2)
    hr r.left_le_budget sys

end Collate
