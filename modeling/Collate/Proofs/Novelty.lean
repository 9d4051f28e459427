/-
What a path is asked for that knows all it was asked for before.

Layers that keep everything know an id from the moment it was asked for, whether or not anything has
it. So if only one resolution at a time goes along such a path, its layers know between two of them
just the ids that were seen so far, and a resolution asks for just those that are new: on its way
down every layer misses the same ids, and on its way back every layer is given all of them.
-/
import Collate.Proofs.Exclusion
import Collate.Proofs.Unfailing
import Collate.Proofs.Waiting

set_option autoImplicit false

namespace Collate

variable {ι α : Type} [DecidableEq ι]

/-! ## 1. What a path knows -/

/-- All keys are among these ids. -/
def Entries.KeysIn (ids : List ι) (m : Entries ι (List α)) : Prop :=
  ∀ id v, m.get? id = some v → id ∈ ids

namespace Entries

variable {ids : List ι} {m other : Entries ι (List α)}

theorem KeysIn.insertAll (h : m.KeysIn ids) (ho : other.KeysIn ids) :
    (m.insertAll other.pairs).KeysIn ids := by
  intro id v hid
  rw [get?_insertAll_pairs _ _ (.refl _)] at hid
  rcases Option.or_eq_some_iff.1 hid with hid | ⟨_, hid⟩
  · exact ho id v hid
  · exact h id v hid

theorem KeysIn.fill (h : m.KeysIn ids) {others : List ι} (ho : others ⊆ ids) (v : List α) :
    (m.fill others v).KeysIn ids := by
  intro id w hid
  rw [get?_fill] at hid
  rcases Option.or_eq_some_iff.1 hid with hid | ⟨_, hid⟩
  · exact h id w hid
  · split at hid
    · exact ho ‹_›
    · cases hid

end Entries

/-- A source answers with children of the ids it was asked for. -/
theorem System.keysIn_ask {sys : System ι α} {number bucket : Nat} {key : α → ι} {ids : List ι}
    {grouped : Entries ι (List α)}
    (h : (sys.ask (.source number bucket key) ids).1.2 = .ok grouped) : grouped.KeysIn ids := by
  have ha : (Source.group key ids ((sys.sources.get number).call ids).1.items).mapError Error.source
      = .ok grouped := h
  cases hg : Source.group key ids ((sys.sources.get number).call ids).1.items with
  | error cause =>
    rw [hg] at ha
    cases ha
  | ok all =>
    rw [hg] at ha
    cases ha
    obtain ⟨delivered, hitems⟩ := Source.delivered_of_groupFrom hg
    obtain ⟨all, hall, hget⟩ := Source.groupFrom_ok key ids delivered .empty
    rw [Source.group, hitems, hall] at hg
    cases hg
    intro id v hv
    rw [hget] at hv
    split at hv
    · assumption
    · simp at hv

/-- What is known after a write was known or is written. -/
theorem System.knows_of_write {sys : System ι α} {store : Nat}
    (hcap : (sys.stores.get store).shelf.capacity? = none) {layer : Layer}
    {entries : Entries ι (List α)} {id : ι} (h : (sys.write layer entries).2.Knows store id) :
    sys.Knows store id ∨ entries.contains id = true :=
  ((knows_write_iff hcap layer entries id).1 h).imp_right fun ⟨_, _, hid⟩ => hid

namespace Path

/-- Layers that keep everything and never fail, in front of a source that never fails. -/
structure Plain (path : Path ι α) (sys : System ι α) : Prop where
  unfed : path.Unfed
  unbounded : ∀ layer ∈ path.layers, (sys.stores.get layer.store).shelf.capacity? = none
  faultless : ∀ layer ∈ path.layers, (sys.stores.get layer.store).Faultless
  sourced : ∃ number bucket key, path.origin = .source number bucket key
  unfailing : path.origin.Unfailing sys

/-- Every layer has entries of just these ids. -/
def KnowsJust (path : Path ι α) (sys : System ι α) (known : List ι) : Prop :=
  ∀ layer ∈ path.layers, ∀ id, sys.Knows layer.store id ↔ id ∈ known

/-- Nobody is under way along the path, and every layer has entries of just these ids. -/
structure Settled (path : Path ι α) (sys : System ι α) (known : List ι) : Prop where
  plain : path.Plain sys
  idle : sys.locks.get path.lock = {}
  known : path.KnowsJust sys known

/-- The ids of a window that a path has to ask for when some were seen before: the new ones, or all of
them where there is no layer to know the others. -/
def wanted (path : Path ι α) (seen ids : List ι) : List ι :=
  if path.layers.isEmpty then ids else ids.filter fun id => id ∉ seen

theorem wanted_subset (path : Path ι α) (seen ids : List ι) : path.wanted seen ids ⊆ ids := by
  unfold wanted
  split
  · exact List.Subset.refl _
  · exact List.filter_subset_self _

theorem nodup_wanted (path : Path ι α) (seen : List ι) {ids : List ι} (h : ids.Nodup) :
    (path.wanted seen ids).Nodup := by
  unfold wanted
  split
  · exact h
  · exact h.filter _

/-- There are layers, so only what is new is asked for. -/
theorem wanted_of_mem {path : Path ι α} {layer : Layer} (h : layer ∈ path.layers)
    (seen ids : List ι) : path.wanted seen ids = ids.filter fun id => id ∉ seen := by
  have hne : path.layers.isEmpty = false := by
    rw [List.isEmpty_eq_false_iff]
    exact List.ne_nil_of_mem h
  simp [wanted, hne]

/-- What makes no difference to a path. -/
structure Untouched (path : Path ι α) (sys sys' : System ι α) : Prop where
  lock : sys'.locks.get path.lock = sys.locks.get path.lock
  contents : ∀ layer ∈ path.layers, (sys'.stores.get layer.store).shelf.contents
    = (sys.stores.get layer.store).shelf.contents
  capacity : ∀ layer ∈ path.layers, (sys'.stores.get layer.store).shelf.capacity?
    = (sys.stores.get layer.store).shelf.capacity?
  faults : ∀ layer ∈ path.layers, (sys'.stores.get layer.store).faults
    = (sys.stores.get layer.store).faults
  replies : ∀ n, (sys'.sources.get n).reply = (sys.sources.get n).reply

variable {path : Path ι α} {sys sys' : System ι α} {known : List ι}

omit [DecidableEq ι] in
theorem Plain.congr (h : path.Plain sys)
    (hcapacity : ∀ layer ∈ path.layers, (sys'.stores.get layer.store).shelf.capacity?
      = (sys.stores.get layer.store).shelf.capacity?)
    (hfaults : ∀ layer ∈ path.layers, (sys'.stores.get layer.store).faults
      = (sys.stores.get layer.store).faults)
    (hreplies : ∀ n, (sys'.sources.get n).reply = (sys.sources.get n).reply) :
    path.Plain sys' := by
  refine ⟨h.unfed, fun layer hl => (hcapacity layer hl).trans (h.unbounded layer hl),
    fun layer hl call n => ?_, h.sourced, h.unfailing.of_replies hreplies⟩
  rw [hfaults layer hl]
  exact h.faultless layer hl call n

omit [DecidableEq ι] in
theorem Plain.advanced {layers : List Layer} (h : path.Plain sys)
    (ha : System.Advanced layers sys sys') : path.Plain sys' :=
  h.congr (fun layer _ => ha.capacity layer.store) (fun layer _ => ha.faults layer.store) ha.replies

theorem KnowsJust.congr (h : path.KnowsJust sys known)
    (hcontents : ∀ layer ∈ path.layers, (sys'.stores.get layer.store).shelf.contents
      = (sys.stores.get layer.store).shelf.contents) : path.KnowsJust sys' known := by
  intro layer hl id
  rw [System.Knows, hcontents layer hl]
  exact h layer hl id

theorem Settled.of_mem_iff {known' : List ι} (h : path.Settled sys known)
    (hmem : ∀ id, id ∈ known ↔ id ∈ known') : path.Settled sys known' :=
  ⟨h.plain, h.idle, fun layer hl id => (h.known layer hl id).trans (hmem id)⟩

theorem Settled.untouched (h : path.Settled sys known) (hu : path.Untouched sys sys') :
    path.Settled sys' known :=
  ⟨h.plain.congr hu.capacity hu.faults hu.replies, hu.lock.trans h.idle, h.known.congr hu.contents⟩

end Path

/-! ## 2. A walk for what is new -/

omit [DecidableEq ι] in
/-- One call for all that is wanted, or none where nothing is. -/
def callFor (wanted : List ι) : List (List ι) := if wanted.isEmpty then [] else [wanted]

/-- The layers of some frames each missed what is new among the ids, and held nothing else. -/
structure Passed (seen ids : List ι) (frames : List (Frame ι α)) : Prop where
  misses : ∀ frame ∈ frames, frame.misses = ids.filter fun id => id ∉ seen
  hits : ∀ frame ∈ frames, frame.hits.KeysIn ids

theorem Passed.cons {seen ids : List ι} {frames : List (Frame ι α)} (h : Passed seen ids frames)
    {frame : Frame ι α} (hmisses : frame.misses = ids.filter fun id => id ∉ seen)
    (hhits : frame.hits.KeysIn ids) : Passed seen ids (frame :: frames) :=
  ⟨List.forall_mem_cons.2 ⟨hmisses, h.misses⟩, List.forall_mem_cons.2 ⟨hhits, h.hits⟩⟩

theorem Passed.tail {seen ids : List ι} {frame : Frame ι α} {frames : List (Frame ι α)}
    (h : Passed seen ids (frame :: frames)) : Passed seen ids frames :=
  ⟨fun f hf => h.misses f (List.mem_cons_of_mem _ hf),
    fun f hf => h.hits f (List.mem_cons_of_mem _ hf)⟩

/-- What a layer knows while a walk is on its way back: all that was seen, and nothing but that and
the ids; these it knows as soon as the walk has passed it again. -/
structure Learns (seen ids : List ι) (frames : List (Frame ι α)) (sys : System ι α) (layer : Layer) :
    Prop where
  known : ∀ id, sys.Knows layer.store id → id ∈ seen ∨ id ∈ ids
  seen : ∀ id ∈ seen, sys.Knows layer.store id
  ids : (∃ frame ∈ frames, frame.layer = layer) ∨ ∀ id ∈ ids, sys.Knows layer.store id

/-- At the turn it knows just what was seen. -/
theorem Path.KnowsJust.learns {path : Path ι α} {seen ids : List ι} {frames : List (Frame ι α)}
    {sys : System ι α} {layer : Layer} (h : path.KnowsJust sys seen) (hl : layer ∈ path.layers)
    (hids : (∃ frame ∈ frames, frame.layer = layer) ∨ ∀ id ∈ ids, id ∈ seen) :
    Learns seen ids frames sys layer :=
  ⟨fun id hid => Or.inl ((h layer hl id).1 hid), fun id => (h layer hl id).2,
    hids.imp_right fun hall id hid => (h layer hl id).2 (hall id hid)⟩

theorem Learns.congr {seen ids : List ι} {frames : List (Frame ι α)} {sys sys' : System ι α}
    {layer : Layer} (h : Learns seen ids frames sys layer)
    (hcontents : (sys'.stores.get layer.store).shelf.contents
      = (sys.stores.get layer.store).shelf.contents) : Learns seen ids frames sys' layer := by
  have hknows : sys'.Knows layer.store = sys.Knows layer.store := by
    funext id
    simp only [System.Knows, hcontents]
  obtain ⟨hknown, hseen, hids⟩ := h
  rw [← hknows] at hknown hseen hids
  exact ⟨hknown, hseen, hids⟩

/-- A layer on the way back is given all that is new, and the others are not touched. -/
theorem Learns.write {seen ids : List ι} {frame : Frame ι α} {frames : List (Frame ι α)}
    {fetched : Entries ι (List α)} {sys : System ι α} {layer : Layer}
    (h : Learns seen ids (frame :: frames) sys layer)
    (hcap : (sys.stores.get layer.store).shelf.capacity? = none)
    (hmisses : frame.misses = ids.filter fun id => id ∉ seen)
    (hback : (Walk.writeBack frame fetched).KeysIn ids)
    (hwrite : (sys.write frame.layer (Walk.writeBack frame fetched)).1 = .ok ()) :
    Learns seen ids frames (sys.write frame.layer (Walk.writeBack frame fetched)).2 layer := by
  obtain ⟨hmono, hnew⟩ := System.knows_write hcap frame.layer (Walk.writeBack frame fetched)
  refine ⟨fun id hid => ?_, fun id hid => hmono id (h.seen id hid), ?_⟩
  · rcases System.knows_of_write hcap hid with hid | hid
    · exact h.known id hid
    · obtain ⟨v, hv⟩ := (Entries.contains_eq_true _ _).1 hid
      exact Or.inr (hback id v hv)
  · rcases h.ids with ⟨other, ho, hlayer⟩ | hall
    · rcases List.mem_cons.1 ho with rfl | ho
      · -- This is the layer; what it missed is what is new.
        refine Or.inr fun id hid => ?_
        by_cases hs : id ∈ seen
        · exact hmono id (h.seen id hs)
        · refine hnew (congrArg Layer.store hlayer) hwrite id (contains_writeBack fetched ?_)
          rw [hmisses]
          exact List.mem_filter.2 ⟨hid, by simpa using hs⟩
      · exact Or.inl ⟨other, ho, hlayer⟩
    · exact Or.inr fun id hid => hmono id (hall id hid)

namespace Walk

/-- A walk for `ids` along a path whose layers know just what was seen. On the way down it has passed
layers that miss what is new; it asks for that, and on the way back the layers behind it know all. -/
def Exact (path : Path ι α) (seen ids : List ι) (sys : System ι α) (calls : List (List ι)) :
    Walk ι α → Prop
  | .descending lookup rest frames => calls = [] ∧ path.KnowsJust sys seen ∧ Passed seen ids frames
    ∧ lookup.ids ⊆ ids
    ∧ (lookup.ids.filter fun id => id ∉ seen) = ids.filter (fun id => id ∉ seen)
    ∧ ∀ layer ∈ path.layers, layer ∈ lookup.layer :: rest ∨ ∃ frame ∈ frames, frame.layer = layer
  | .asking inner frames => calls = [] ∧ path.KnowsJust sys seen ∧ Passed seen ids frames
    ∧ inner = path.wanted seen ids ∧ ∀ layer ∈ path.layers, ∃ frame ∈ frames, frame.layer = layer
  | .waiting _ answer frames => calls = callFor (path.wanted seen ids) ∧ path.KnowsJust sys seen
    ∧ Passed seen ids frames ∧ (∃ fetched, answer = .ok fetched ∧ fetched.KeysIn ids)
    ∧ ∀ layer ∈ path.layers, ∃ frame ∈ frames, frame.layer = layer
  | .returning fetched frames => calls = callFor (path.wanted seen ids) ∧ Passed seen ids frames
    ∧ fetched.KeysIn ids ∧ ∀ layer ∈ path.layers, Learns seen ids frames sys layer

variable {path : Path ι α} {seen ids : List ι} {sys sys' : System ι α} {calls : List (List ι)}
  {walk walk' : Walk ι α}

theorem Exact.congr (h : walk.Exact path seen ids sys calls)
    (hcontents : ∀ layer ∈ path.layers, (sys'.stores.get layer.store).shelf.contents
      = (sys.stores.get layer.store).shelf.contents) : walk.Exact path seen ids sys' calls := by
  cases walk with
  | descending lookup rest frames =>
    exact ⟨h.1, h.2.1.congr hcontents, h.2.2⟩
  | asking inner frames => exact ⟨h.1, h.2.1.congr hcontents, h.2.2⟩
  | waiting alarm answer frames => exact ⟨h.1, h.2.1.congr hcontents, h.2.2⟩
  | returning fetched frames =>
    exact ⟨h.1, h.2.1, h.2.2.1, fun layer hl => (h.2.2.2 layer hl).congr (hcontents layer hl)⟩

/-- What a layer misses that knows just what was seen. -/
theorem misses_of_knows {lookup : Lookup ι} {found : Found ι α} (hplain : path.Plain sys)
    (hl : lookup.layer ∈ path.layers) (hknows : path.KnowsJust sys seen)
    (h : lookup.Stepped sys (.finished (.ok found)) sys') :
    found.misses = lookup.ids.filter (fun id => id ∉ seen) ∧ found.hits.KeysIn lookup.ids := by
  obtain ⟨hhits, hmisses⟩ := h.found
  refine ⟨?_, fun id v hv => ?_⟩
  · rw [hmisses, System.missesOf_unfed (hplain.unfed _ hl)]
    refine List.filter_congr fun id hid => ?_
    have hheld : found.hits.contains id = true ↔ id ∈ seen := by
      rw [← hknows _ hl id, System.knows_iff, Entries.contains_eq_true, hhits, if_pos hid]
    by_cases hs : id ∈ seen
    · simp [hs, hheld.2 hs]
    · have hc : found.hits.contains id = false := by simpa [hs] using hheld
      simp [hs, hc]
  · rw [hhits] at hv
    split at hv
    · assumption
    · cases hv

theorem exact_start {rest : List Layer} {inner : List ι} {frames : List (Frame ι α)}
    (hknows : path.KnowsJust sys seen) (hpassed : Passed seen ids frames) (hsub : inner ⊆ ids)
    (hnew : (inner.filter fun id => id ∉ seen) = ids.filter fun id => id ∉ seen)
    (hcover : ∀ layer ∈ path.layers, layer ∈ rest ∨ ∃ frame ∈ frames, frame.layer = layer)
    (hwanted : rest = [] → inner = path.wanted seen ids) :
    (start rest inner frames).Exact path seen ids sys [] := by
  cases rest with
  | nil =>
    exact ⟨rfl, hknows, hpassed, hwanted rfl,
      fun layer hl => (hcover layer hl).resolve_left List.not_mem_nil⟩
  | cons layer rest => exact ⟨rfl, hknows, hpassed, hsub, hnew, hcover⟩

/-- **A step of a walk** keeps it on the way. -/
theorem Stepped.exact (h : Stepped path.origin walk sys (.going walk') sys')
    (hr : walk.Regular path.layers) (hplain : path.Plain sys) (hids : ids.Nodup)
    (hw : walk.Exact path seen ids sys calls) :
    walk'.Exact path seen ids sys' (walk.asks.toList ++ calls) := by
  cases h with
  | looks h =>
    obtain ⟨hlayer, hids', _⟩ := h.going hr.1
    refine Exact.congr ?_ fun layer _ => h.contents layer.store
    rw [Exact, hlayer, hids']
    exact hw
  | found h hm =>
    obtain ⟨rfl, hknows, hpassed, hsub, hnew, _⟩ := hw
    obtain ⟨hmisses, hkeys⟩ := misses_of_knows hplain hr.2.1 hknows h
    -- The layer misses what is new, so if it misses nothing there is nothing new.
    have hnone : ids.filter (fun id => id ∉ seen) = [] := by rw [← hnew, ← hmisses, hm]
    have hall : ∀ id ∈ ids, id ∈ seen := by simpa using List.filter_eq_nil_iff.1 hnone
    refine Exact.congr ?_ fun layer _ => h.contents layer.store
    refine ⟨?_, hpassed, fun id v hv => hsub (hkeys id v hv),
      fun layer hl => hknows.learns hl (Or.inr hall)⟩
    rw [Path.wanted_of_mem hr.2.1, hnone]
    rfl
  | @missed lookup rest frames _ _ found h hm =>
    obtain ⟨rfl, hknows, hpassed, hsub, hnew, hcover⟩ := hw
    obtain ⟨hmisses, hkeys⟩ := misses_of_knows hplain hr.2.1 hknows h
    rw [hnew] at hmisses
    -- The next layer is asked for what is new alone, and knows none of it either.
    refine Exact.congr ?_ fun layer _ => h.contents layer.store
    refine exact_start hknows (hpassed.cons hmisses fun id v hv => hsub (hkeys id v hv))
      (hmisses ▸ List.filter_subset_self _) ?_ (fun layer hl => ?_) fun _ => ?_
    · rw [hmisses, List.filter_filter]
      simp
    · rcases hcover layer hl with hl | ⟨frame, hf, hlayer⟩
      · rcases List.mem_cons.1 hl with rfl | hl
        · exact Or.inr ⟨_, List.mem_cons_self .., rfl⟩
        · exact Or.inl hl
      · exact Or.inr ⟨frame, List.mem_cons_of_mem _ hf, hlayer⟩
    · rw [hmisses, Path.wanted_of_mem hr.2.1]
  | spared =>
    obtain ⟨rfl, hknows, hpassed, hwanted, hcover⟩ := hw
    exact ⟨by rw [← hwanted]; rfl, hpassed, fun id v hv => by simp at hv,
      fun layer hl => hknows.learns hl (Or.inl (hcover layer hl))⟩
  | @asked inner frames _ hne =>
    obtain ⟨rfl, hknows, hpassed, rfl, hcover⟩ := hw
    obtain ⟨sources, log, _, heq⟩ := System.ask_eq sys path.origin (path.wanted seen ids)
    obtain ⟨fetched, hfetched⟩ := hplain.unfailing.ask (path.nodup_wanted seen hids)
    -- Whatever else a source delivers is passed over, so no layer will be given other ids.
    have hkeys : fetched.KeysIn ids := by
      obtain ⟨number, bucket, key, horigin⟩ := hplain.sourced
      rw [horigin] at hfetched
      exact fun id v hv => path.wanted_subset seen ids (System.keysIn_ask hfetched id v hv)
    refine ⟨?_, hknows.congr fun layer _ => by rw [heq], hpassed, ⟨fetched, hfetched, hkeys⟩, hcover⟩
    rw [asks_asking hne, callFor, if_neg fun he => hne (List.isEmpty_iff.1 he)]
    rfl
  | answered hnow =>
    obtain ⟨rfl, hknows, hpassed, ⟨_, hanswer, hkeys⟩, hcover⟩ := hw
    cases hanswer
    exact ⟨rfl, hpassed, hkeys, fun layer hl => hknows.learns hl (Or.inl (hcover layer hl))⟩
  | @written fetched frame frames _ h =>
    obtain ⟨rfl, hpassed, hkeys, hlayers⟩ := hw
    have hmisses := hpassed.misses frame (List.mem_cons_self ..)
    have hback : (writeBack frame fetched).KeysIn ids :=
      hkeys.fill (hmisses ▸ List.filter_subset_self _) []
    exact ⟨rfl, hpassed.tail, (hpassed.hits frame (List.mem_cons_self ..)).insertAll hback,
      fun layer hl => (hlayers layer hl).write (hplain.unbounded layer hl) hmisses hback h⟩

/-- **A walk that ends well** has asked for what was wanted, and every layer knows the ids then. -/
theorem Stepped.exact_done {fetched : Entries ι (List α)}
    (h : Stepped path.origin walk sys (.finished (.ok fetched)) sys')
    (hw : walk.Exact path seen ids sys calls) :
    calls = callFor (path.wanted seen ids) ∧ path.KnowsJust sys' (seen ++ ids) := by
  cases h with
  | done =>
    refine ⟨hw.1, fun layer hl id => ?_⟩
    have hlearns := hw.2.2.2 layer hl
    have hall := hlearns.ids.resolve_left fun ⟨_, hf, _⟩ => List.not_mem_nil hf
    rw [List.mem_append]
    exact ⟨hlearns.known id, fun hid => hid.elim (hlearns.seen id) (hall id)⟩

theorem Exact.assured (hw : walk.Exact path seen ids sys calls) : walk.Assured := by
  cases walk with
  | waiting alarm answer frames =>
    obtain ⟨_, _, _, ⟨fetched, hanswer, _⟩, _⟩ := hw
    exact ⟨fetched, hanswer⟩
  | descending | asking | returning => trivial

end Walk

/-! ## 3. A resolution that has its path to itself -/

omit [DecidableEq ι] in
/-- Whoever asks for an idle lock would give it back idle. -/
theorem System.release_acquire_idle {sys : System ι α} {lock : Nat} (h : sys.locks.get lock = {})
    (ticket : Nat) (hold : Hold) :
    ((sys.acquire lock ticket hold).2.locks.get lock).release ticket = {} := by
  rw [acquire_eq, Table.get_set_self, h]
  cases hold <;> simp [Lock.ensureRequested, Lock.holds, Lock.awaits, Lock.request, Lock.serve,
    Lock.release]

namespace Resolution

/-- A resolution that has its path to itself, along layers that know just what was seen. Where it has
nothing to do with the lock the lock is idle, and where it may hold it the lock is idle without it. -/
def Exact (seen : List ι) (sys : System ι α) (calls : List (List ι)) (r : Resolution ι α) : Prop :=
  match r.phase with
  | .wantsShared => calls = [] ∧ sys.locks.get r.path.lock = {} ∧ r.path.KnowsJust sys seen
  | .peeking lookup => calls = [] ∧ (sys.locks.get r.path.lock).release r.ticket = {}
    ∧ r.path.KnowsJust sys seen ∧ lookup.ids = r.ids
  | .wantsExclusive => calls = [] ∧ sys.locks.get r.path.lock = {} ∧ r.path.KnowsJust sys seen
  | .walking walk => (sys.locks.get r.path.lock).release r.ticket = {}
    ∧ walk.Exact r.path seen r.ids sys calls

variable {r r' : Resolution ι α} {seen ids : List ι} {sys sys' : System ι α}
  {calls : List (List ι)}

theorem exact_start {path : Path ι α} (h : path.Settled sys seen) (ids : List ι)
    (before : System ι α) (tickets : Nat) :
    (start path ids before).1.Exact seen { sys with tickets := tickets } [] := by
  unfold start Exact
  dsimp only
  cases hl : path.layers.isEmpty with
  | false => exact ⟨rfl, h.idle, h.known⟩
  | true =>
    have hnil := List.isEmpty_iff.1 hl
    have hrelease : ({} : Lock).release before.tickets = {} := rfl
    refine ⟨by rw [h.idle]; exact hrelease, rfl, h.known, ⟨by simp, by simp⟩, ?_, ?_⟩
    · simp [Path.wanted, hl]
    · simp [hnil]

theorem Exact.congr (h : r.Exact seen sys calls)
    (hlock : sys'.locks.get r.path.lock = sys.locks.get r.path.lock)
    (hcontents : ∀ layer ∈ r.path.layers, (sys'.stores.get layer.store).shelf.contents
      = (sys.stores.get layer.store).shelf.contents) : r.Exact seen sys' calls := by
  unfold Exact at h ⊢
  cases hp : r.phase <;> rw [hp] at h <;> dsimp only at h ⊢ <;> rw [hlock]
  · exact ⟨h.1, h.2.1, h.2.2.congr hcontents⟩
  · exact ⟨h.1, h.2.1, h.2.2.1.congr hcontents, h.2.2.2⟩
  · exact ⟨h.1, h.2.1, h.2.2.congr hcontents⟩
  · exact ⟨h.1, h.2.congr hcontents⟩

/-- **A step of a resolution** keeps it on its way. -/
theorem Stepped.exact (h : r.Stepped sys (.going r') sys') (hr : r.Regular)
    (hplain : r.path.Plain sys) (hids : r.ids.Nodup) (hg : r.Exact seen sys calls) :
    r'.Exact seen sys' (r.asks.toList ++ calls) := by
  cases h with
  | shares hp hl h =>
    rw [Exact, hp] at hg
    obtain ⟨rfl, hidle, hknown⟩ := hg
    rw [asks, hp]
    exact ⟨rfl, System.release_acquire_idle hidle _ _, hknown, rfl⟩
  | overshoots hp hl h =>
    rw [Regular, hp] at hr
    exact absurd hl hr
  | looks hp h =>
    rw [Exact, hp] at hg
    rw [Regular, hp] at hr
    obtain ⟨rfl, hlock, hknown, hsame⟩ := hg
    rw [asks, hp]
    refine ⟨rfl, ?_, hknown.congr fun layer _ => h.contents layer.store,
      (h.going hr.1).2.1.trans hsame⟩
    rw [h.locks]
    exact hlock
  | missed hp h hm =>
    -- The lock is given back here and asked for again; in between it is idle.
    rw [Exact, hp] at hg
    obtain ⟨rfl, hlock, hknown, _⟩ := hg
    rw [asks, hp]
    refine ⟨rfl, ?_, fun layer hl id => ?_⟩
    · show (System.release _ r.path.lock r.ticket).locks.get r.path.lock = {}
      rw [System.locks_release, Table.get_set_self, h.locks]
      exact hlock
    · rw [knows_release, System.Knows, h.contents]
      exact hknown layer hl id
  | enters hp h =>
    rw [Exact, hp] at hg
    rw [Regular, hp] at hr
    obtain ⟨rfl, hidle, hknown⟩ := hg
    rw [asks, hp]
    refine ⟨System.release_acquire_idle hidle _ _, Walk.exact_start hknown ⟨by simp, by simp⟩
      (List.Subset.refl _) rfl (fun layer hl => Or.inl hl) fun hn => absurd hn hr⟩
  | walks hp h =>
    rw [Exact, hp] at hg
    rw [Regular, hp] at hr
    rw [asks, hp]
    refine ⟨?_, h.exact hr hplain hids hg.2⟩
    rw [h.locks]
    exact hg.1

/-- **A resolution that ends well** has asked for what was wanted and leaves its path as it found it,
but for the ids that its layers know now. -/
theorem Stepped.exact_done {grouped : Entries ι (List α)}
    (h : r.Stepped sys (.finished (.ok grouped)) sys') (hr : r.Regular) (hplain : r.path.Plain sys)
    (hg : r.Exact seen sys calls) :
    calls = callFor (r.path.wanted seen r.ids) ∧ r.path.Settled sys' (seen ++ r.ids) := by
  have hplain' := hplain.advanced (h.advanced hr)
  cases h with
  | found hp h hm =>
    rw [Exact, hp] at hg
    rw [Regular, hp] at hr
    obtain ⟨rfl, hlock, hknown, hsame⟩ := hg
    obtain ⟨hmisses, _⟩ := Walk.misses_of_knows hplain hr.2 hknown h
    rw [hm, hsame] at hmisses
    -- The first layer alone has all the ids, so none of them is new.
    have hold : ∀ id ∈ r.ids, id ∈ seen := by
      simpa using List.filter_eq_nil_iff.1 hmisses.symm
    refine ⟨?_, hplain', ?_, fun layer hl id => ?_⟩
    · rw [Path.wanted_of_mem hr.2, ← hmisses]
      rfl
    · rw [System.locks_release, Table.get_set_self, h.locks]
      exact hlock
    · rw [knows_release, System.Knows, h.contents, List.mem_append]
      exact (hknown layer hl id).trans ⟨Or.inl, fun hid => hid.elim (fun h => h) (hold id)⟩
  | ends hp h =>
    rw [Exact, hp] at hg
    obtain ⟨hcalls, hknown⟩ := h.exact_done hg.2
    refine ⟨hcalls, hplain', ?_, fun layer hl id => ?_⟩
    · rw [System.locks_release, Table.get_set_self, h.locks]
      exact hg.1
    · rw [knows_release]
      exact hknown layer hl id

/-- It does not fail. -/
theorem Stepped.unfailing_of_exact {e : Error} (hr : r.Regular) (hplain : r.path.Plain sys)
    (hg : r.Exact seen sys calls) : ¬r.Stepped sys (.finished (.error e)) sys' := by
  refine Stepped.unfailing_of_assured hr hplain.unfed hplain.faultless fun walk hp => ?_
  rw [Exact, hp] at hg
  exact hg.2.assured

/-- **It waits for nothing but its source's answer.** -/
theorem Stepped.waits_for_answer (h : r.Stepped sys .blocked sys') (hr : r.Regular)
    (hplain : r.path.Plain sys) (hg : r.Exact seen sys calls) :
    sys' = sys ∧ ∃ alarm ∈ r.alarms, sys.now < alarm.due := by
  refine (h.blocked hr hplain.unfed).resolve_left ?_
  rintro ⟨hold, hp, hfalse, _⟩
  -- It would have to want the lock, and then the lock is idle.
  have hidle : sys.locks.get r.path.lock = {} := by
    rcases hp with hp | hp <;> rw [Exact, hp] at hg <;> exact hg.2.1
  rw [System.acquire_of_idle hidle] at hfalse
  cases hfalse

end Resolution

end Collate
