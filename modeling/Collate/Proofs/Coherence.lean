/-
What cache layers hold when a source is consistent per id.

A source is consistent per id if what it delivers for an id never depends on which other ids are
asked together with it. In front of such a source every entry of every layer is the complete list of
its id's children, in every state that resolutions can lead to: whatever they find, miss, evict or
fail to write. The proof follows a walk down the layers and back: on the way down each frame
remembers what it found and what is still wanted, and on the way back each layer is given answers
for all it missed.
-/
import Collate.Rule
import Collate.Proofs.Reach

set_option autoImplicit false

namespace Collate

variable {ι α : Type} [DecidableEq ι]

/-! ## 1. Children by id -/

/-- Every entry is the complete list of children. -/
def Complete (children : ι → List α) (m : Entries ι (List α)) : Prop :=
  ∀ id v, m.get? id = some v → v = children id

/-- The entries are complete, and an id without one has no children. -/
structure Answers (children : ι → List α) (ids : List ι) (m : Entries ι (List α)) : Prop where
  complete : Complete children m
  missing : ∀ id ∈ ids, m.get? id = none → children id = []

theorem complete_empty (children : ι → List α) : Complete children .empty := by
  intro id v h
  simp at h

theorem answers_nil (children : ι → List α) : Answers children [] .empty :=
  ⟨complete_empty children, by simp⟩

theorem Complete.within {children : ι → List α} {m m' : Entries ι (List α)}
    (h : Complete children m') (hm : m.Within m') : Complete children m :=
  fun id v hid => h id v (hm id v hid)

theorem Complete.insertAll {children : ι → List α} {m other : Entries ι (List α)}
    (h : Complete children m) (ho : Complete children other) {batch : List (ι × List α)}
    (hp : batch.Perm other.pairs) : Complete children (m.insertAll batch) := by
  intro id v hid
  rw [Entries.get?_insertAll_pairs m other hp] at hid
  rcases Option.or_eq_some_iff.1 hid with hid | ⟨_, hid⟩
  · exact ho id v hid
  · exact h id v hid

/-- What ids without children get written down is right: that they have none. -/
theorem Answers.fill {children : ι → List α} {ids : List ι} {m : Entries ι (List α)}
    (h : Answers children ids m) : Complete children (m.fill ids []) := by
  intro id v hid
  rw [Entries.get?_fill] at hid
  rcases Option.or_eq_some_iff.1 hid with hid | ⟨hnone, hid⟩
  · exact h.complete id v hid
  · split at hid
    · rename_i hm
      rw [h.missing id hm hnone]
      exact (Option.some.inj hid).symm
    · cases hid

/-! ## 2. Sources -/

namespace Source

/-- Whatever a call delivers completely holds, for every id asked for, just its children. A call that
fails somewhere on the way may have delivered anything. -/
def PerId (children : ι → List α) (key : α → ι) (source : Source ι α) : Prop :=
  ∀ (n : Nat) (ids : List ι) (delivered : List α), ids.Nodup →
    (source.reply n ids).items = delivered.map Except.ok → ∀ id ∈ ids,
      delivered.filter (fun child => key child = id) = children id

/-- Adds to what is there of an id, if there is anything to add. -/
def extended (held : Option (List α)) (more : List α) : Option (List α) :=
  if more = [] then held else some (held.getD [] ++ more)

theorem extended_extended (held : Option (List α)) (xs ys : List α) :
    extended (extended held xs) ys = extended held (xs ++ ys) := by
  unfold extended
  by_cases hx : xs = []
  · simp [hx]
  · by_cases hy : ys = []
    · simp [hy, hx]
    · simp [hx, hy]

theorem get?_addChild (key : α → ι) (requested : List ι) (grouped : Entries ι (List α)) (child : α)
    (id : ι) :
    (addChild key requested grouped child).get? id
      = if id ∈ requested then
          extended (grouped.get? id) (if key child = id then [child] else [])
        else grouped.get? id := by
  unfold addChild
  by_cases hkey : key child = id
  · subst hkey
    by_cases hreq : key child ∈ requested <;> simp [hreq, extended]
  · by_cases hreq : key child ∈ requested <;> by_cases hid : id ∈ requested <;>
      simp [hreq, hkey, hid, extended]

/-- What a delivery without a failure is grouped into. -/
theorem groupFrom_ok (key : α → ι) (requested : List ι) (delivered : List α)
    (grouped : Entries ι (List α)) :
    ∃ all, groupFrom key requested grouped (delivered.map Except.ok) = .ok all
      ∧ ∀ id, all.get? id = if id ∈ requested then
          extended (grouped.get? id) (delivered.filter fun child => key child = id)
        else grouped.get? id := by
  induction delivered generalizing grouped with
  | nil => exact ⟨grouped, rfl, fun id => by simp [extended]⟩
  | cons child rest ih =>
    obtain ⟨all, hall, hget⟩ := ih (addChild key requested grouped child)
    refine ⟨all, hall, fun id => ?_⟩
    rw [hget id, get?_addChild]
    by_cases hreq : id ∈ requested
    · rw [if_pos hreq, if_pos hreq, if_pos hreq, extended_extended]
      by_cases hkey : key child = id <;> simp [hkey]
    · rw [if_neg hreq, if_neg hreq, if_neg hreq]

/-- A source that fails has failed, however many children it has delivered before. -/
theorem groupFrom_of_failure (key : α → ι) (requested : List ι) (children : List α)
    (cause : String) (later : List (Except String α)) (grouped : Entries ι (List α)) :
    groupFrom key requested grouped (children.map .ok ++ .error cause :: later) = .error cause := by
  induction children generalizing grouped with
  | nil => rfl
  | cons child rest ih => exact ih (addChild key requested grouped child)

/-- Only a delivery without a failure is grouped. -/
theorem delivered_of_groupFrom {key : α → ι} {requested : List ι} {grouped all : Entries ι (List α)}
    {items : List (Except String α)} (h : groupFrom key requested grouped items = .ok all) :
    ∃ delivered : List α, items = delivered.map Except.ok := by
  induction items generalizing grouped with
  | nil => exact ⟨[], rfl⟩
  | cons item rest ih =>
    cases item with
    | error cause => cases h
    | ok child =>
      obtain ⟨delivered, hrest⟩ := ih h
      exact ⟨child :: delivered, by rw [hrest, List.map_cons]⟩

/-- **A call that succeeds answers for all ids asked for.** -/
theorem PerId.answers {children : ι → List α} {key : α → ι} {source : Source ι α}
    (h : source.PerId children key) (n : Nat) {ids : List ι} (hids : ids.Nodup)
    {grouped : Entries ι (List α)} (hg : group key ids (source.reply n ids).items = .ok grouped) :
    Answers children ids grouped := by
  obtain ⟨delivered, hitems⟩ := delivered_of_groupFrom hg
  obtain ⟨all, hall, hget⟩ := groupFrom_ok key ids delivered .empty
  rw [group, hitems, hall] at hg
  obtain rfl := Except.ok.inj hg
  have hchildren := h n ids delivered hids hitems
  have hid : ∀ id ∈ ids, all.get? id = extended none (children id) := fun id hid => by
    rw [hget id, if_pos hid, hchildren id hid, Entries.get?_empty]
  refine ⟨fun id v hv => ?_, fun id hm hnone => ?_⟩
  · by_cases hm : id ∈ ids
    · rw [hid id hm] at hv
      unfold extended at hv
      split at hv
      · cases hv
      · simpa using hv.symm
    · rw [hget id, if_neg hm, Entries.get?_empty] at hv
      cases hv
  · rw [hid id hm] at hnone
    unfold extended at hnone
    split at hnone
    · assumption
    · cases hnone

end Source

/-- An origin that always answers alike. -/
def Origin.PerId (children : ι → List α) (sys : System ι α) : Origin ι α → Prop
  | .source number _ key => (sys.sources.get number).PerId children key
  | .fallback _ _ answer => ∀ ids grouped, answer = .ok grouped → Answers children ids grouped

theorem Origin.PerId.answers {children : ι → List α} {sys : System ι α} {origin : Origin ι α}
    (h : origin.PerId children sys) {ids : List ι} (hids : ids.Nodup)
    {grouped : Entries ι (List α)} (ha : (sys.ask origin ids).1.2 = .ok grouped) :
    Answers children ids grouped := by
  cases origin with
  | source number bucket key =>
    have hs : (sys.sources.get number).PerId children key := h
    refine hs.answers ((sys.sources.get number).calls + 1) hids ?_
    have ha' : (Source.group key ids ((sys.sources.get number).call ids).1.items).mapError
        Error.source = .ok grouped := ha
    cases hg : Source.group key ids ((sys.sources.get number).call ids).1.items with
    | error cause =>
      rw [hg] at ha'
      cases ha'
    | ok all =>
      rw [hg] at ha'
      cases ha'
      exact hg
  | fallback bucket delay answer =>
    have hf : ∀ ids grouped, answer = .ok grouped → Answers children ids grouped := h
    exact hf ids grouped ha

theorem Origin.PerId.of_replies {children : ι → List α} {sys sys' : System ι α}
    {origin : Origin ι α} (h : origin.PerId children sys)
    (hr : ∀ n, (sys'.sources.get n).reply = (sys.sources.get n).reply) :
    origin.PerId children sys' := by
  cases origin with
  | source number bucket key =>
    have hs : (sys.sources.get number).PerId children key := h
    intro n ids delivered hids hitems
    rw [hr number] at hitems
    exact hs n ids delivered hids hitems
  | fallback bucket delay answer => exact h

/-! ## 3. Layers -/

/-- Every entry of every layer in front of a consistent origin is complete. -/
structure Path.Coherent (children : ι → List α) (path : Path ι α) (sys : System ι α) : Prop where
  entries : ∀ layer ∈ path.layers,
    Complete children (sys.stores.get layer.store).shelf.contents
  origin : path.origin.PerId children sys

theorem System.complete_write {children : ι → List α} {sys : System ι α} {layer : Layer}
    {entries : Entries ι (List α)} (he : Complete children entries) {n : Nat}
    (h : Complete children (sys.stores.get n).shelf.contents) :
    Complete children ((sys.write layer entries).2.stores.get n).shelf.contents := by
  by_cases hn : n = layer.store
  · subst hn
    rcases System.write_cases sys layer entries with ⟨_, _, hshelf⟩ | ⟨batch, hp, _, hshelf⟩
    · rwa [hshelf]
    · rw [hshelf]
      exact (h.insertAll he hp).within (Shelf.put_within _ _)
  · rwa [(System.write_called sys layer entries).others n hn]

theorem System.missesOf_unfed {layer : Layer} (h : layer.feeds = []) (ids : List ι)
    (hits : Entries ι (List α)) :
    System.missesOf layer ids hits = ids.filter fun id => !hits.contains id := by
  have hauth : layer.isAuthoritative = false := by simp [Layer.isAuthoritative, h]
  rw [System.missesOf, hauth]
  rfl

/-! ## 4. The way down and back -/

/-- The frames of a walk for `ids` behind which `inner` is still wanted: each of them found complete
entries, and wants what the one outside of it wanted and it did not find. -/
inductive Behind (children : ι → List α) (ids : List ι) : List ι → List (Frame ι α) → Prop where
  | outermost : Behind children ids ids []
  | layer {outer : List ι} {frame : Frame ι α} {frames : List (Frame ι α)}
      (h : Behind children ids outer frames) (hits : Complete children frame.hits)
      (covered : ∀ id ∈ outer, id ∈ frame.misses ∨ frame.hits.contains id = true) :
      Behind children ids frame.misses (frame :: frames)

/-- What was found and what was fetched together answer for what the layer outside wanted. -/
theorem answers_outer {children : ι → List α} {outer : List ι} {frame : Frame ι α}
    {fetched : Entries ι (List α)} (hits : Complete children frame.hits)
    (covered : ∀ id ∈ outer, id ∈ frame.misses ∨ frame.hits.contains id = true)
    (h : Answers children frame.misses fetched) :
    Answers children outer (frame.hits.insertAll (Walk.writeBack frame fetched).pairs) := by
  refine ⟨hits.insertAll h.fill (.refl _), fun id hid hnone => ?_⟩
  rw [Entries.get?_insertAll_pairs _ _ (.refl _), Option.or_eq_none_iff, Walk.writeBack,
    Entries.get?_fill, Option.or_eq_none_iff] at hnone
  rcases covered id hid with hm | hc
  · rw [if_pos hm] at hnone
    cases hnone.1.2
  · obtain ⟨v, hv⟩ := (Entries.contains_eq_true _ _).1 hc
    rw [hv] at hnone
    cases hnone.2

namespace Walk

/-- A walk for `ids` knows what it needs to answer for them. -/
def Sound (children : ι → List α) (ids : List ι) : Walk ι α → Prop
  | .descending lookup _ frames => lookup.ids.Nodup ∧ Behind children ids lookup.ids frames
  | .asking inner frames => inner.Nodup ∧ Behind children ids inner frames
  | .waiting _ answer frames => ∃ inner, Behind children ids inner frames
    ∧ ∀ fetched, answer = .ok fetched → Answers children inner fetched
  | .returning fetched frames => ∃ inner, Behind children ids inner frames
    ∧ Answers children inner fetched

variable {children : ι → List α} {ids : List ι}

theorem sound_start {inner : List ι} (rest : List Layer) {frames : List (Frame ι α)}
    (hn : inner.Nodup) (hb : Behind children ids inner frames) :
    (start rest inner frames).Sound children ids := by
  cases rest with
  | nil => exact ⟨hn, hb⟩
  | cons layer rest => exact ⟨hn, hb⟩

variable {path : Path ι α} {walk : Walk ι α} {sys sys' : System ι α}
  {p : Progress (Walk ι α) (Except Error (Entries ι (List α)))}

/-- What a lookup in a coherent layer without feeds finds and misses. -/
theorem found_coherent {lookup : Lookup ι} {found : Found ι α}
    (hc : path.Coherent children sys) (hl : lookup.layer ∈ path.layers)
    (hf : lookup.layer.feeds = []) (h : lookup.Stepped sys (.finished (.ok found)) sys') :
    Complete children found.hits
    ∧ found.misses = lookup.ids.filter (fun id => !found.hits.contains id) := by
  obtain ⟨hhits, hmisses⟩ := h.found
  refine ⟨fun id v hv => ?_, ?_⟩
  · rw [hhits id] at hv
    split at hv
    · exact hc.entries _ hl id v hv
    · cases hv
  · rw [hmisses, System.missesOf_unfed hf]

/-- **A step keeps every layer coherent.** -/
theorem Stepped.coherent (h : Stepped path.origin walk sys p sys') (hw : walk.Sound children ids)
    (hr : walk.Regular path.layers) (hc : path.Coherent children sys) :
    path.Coherent children sys' := by
  have hadv := h.advanced hr
  refine ⟨fun layer hl => ?_, hc.origin.of_replies hadv.replies⟩
  have hentries := hc.entries layer hl
  cases h with
  | stalls h | looks h | unread h | found h | missed h =>
    rw [h.contents layer.store]
    exact hentries
  | spared | waits | failed | answered | done => exact hentries
  | asked hids =>
    obtain ⟨sources, log, _, heq⟩ := System.ask_eq sys path.origin _
    rw [heq]
    exact hentries
  | unwritten | written =>
    -- Only answers are written back, and they are complete.
    obtain ⟨inner, hb, ha⟩ := hw
    cases hb with
    | layer hb hits covered => exact System.complete_write ha.fill hentries

/-- **A step knows afterwards what it needs to answer.** -/
theorem Stepped.sound {walk' : Walk ι α} (h : Stepped path.origin walk sys (.going walk') sys')
    (hw : walk.Sound children ids) (hr : walk.Regular path.layers)
    (hc : path.Coherent children sys) (hu : path.Unfed) : walk'.Sound children ids := by
  cases h with
  | looks h =>
    obtain ⟨_, hids, _, _⟩ := h.going hr.1
    refine ⟨?_, ?_⟩
    · rw [hids]
      exact hw.1
    · rw [hids]
      exact hw.2
  | found h hm =>
    obtain ⟨hhits, hmisses⟩ := found_coherent hc hr.2.1 (hu _ hr.2.1) h
    refine ⟨_, hw.2, hhits, fun id hid hnone => ?_⟩
    rw [hm, eq_comm, List.filter_eq_nil_iff] at hmisses
    have hcontains := hmisses id hid
    rw [Entries.contains_eq_false _ _ |>.2 hnone] at hcontains
    exact absurd rfl hcontains
  | @missed lookup rest frames _ _ found h hm =>
    obtain ⟨hhits, hmisses⟩ := found_coherent hc hr.2.1 (hu _ hr.2.1) h
    refine sound_start _ (hmisses ▸ hw.1.filter _) ?_
    show Behind children ids (Frame.misses ⟨lookup.layer, found.hits, found.misses⟩) _
    refine .layer hw.2 hhits fun id hid => ?_
    cases hcontains : Entries.contains _ id with
    | true => exact Or.inr rfl
    | false =>
      refine Or.inl ?_
      rw [hmisses]
      exact List.mem_filter.2 ⟨hid, by simpa using hcontains⟩
  | spared => exact ⟨[], hw.2, answers_nil children⟩
  | asked hids => exact ⟨_, hw.2, fun fetched hf => hc.origin.answers hw.1 hf⟩
  | answered hnow =>
    obtain ⟨inner, hb, ha⟩ := hw
    exact ⟨inner, hb, ha _ rfl⟩
  | written h =>
    obtain ⟨inner, hb, ha⟩ := hw
    cases hb with
    | layer hb hits covered => exact ⟨_, hb, answers_outer hits covered ha⟩

/-- **A walk that ends well answers for its ids.** -/
theorem Stepped.answers {fetched : Entries ι (List α)}
    (h : Stepped path.origin walk sys (.finished (.ok fetched)) sys')
    (hw : walk.Sound children ids) : Answers children ids fetched := by
  cases h with
  | done =>
    obtain ⟨inner, hb, ha⟩ := hw
    cases hb with
    | outermost => exact ha

end Walk

namespace Resolution

/-- A resolution knows what it needs to answer. -/
def Sound (children : ι → List α) (r : Resolution ι α) : Prop :=
  r.ids.Nodup ∧ match r.phase with
    | .peeking lookup => lookup.ids = r.ids
    | .walking walk => walk.Sound children r.ids
    | _ => True

variable {children : ι → List α} {r r' : Resolution ι α} {sys sys' : System ι α}
  {p : Progress (Resolution ι α) (Except Error (Entries ι (List α)))}

theorem sound_start (path : Path ι α) {ids : List ι} (hids : ids.Nodup) (sys : System ι α) :
    (start path ids sys).1.Sound children := by
  refine ⟨hids, ?_⟩
  unfold start
  dsimp only
  cases path.layers.isEmpty with
  | false => trivial
  | true => exact ⟨hids, .outermost⟩

theorem coherent_release {path : Path ι α} (hc : path.Coherent children sys) (lock ticket : Nat) :
    path.Coherent children (sys.release lock ticket) := by
  obtain ⟨ready, _, h⟩ := System.release_eq sys lock ticket
  rw [h]
  exact ⟨hc.entries, hc.origin.of_replies fun _ => rfl⟩

theorem coherent_acquire {path : Path ι α} (hc : path.Coherent children sys) (lock ticket : Nat)
    (hold : Hold) : path.Coherent children (sys.acquire lock ticket hold).2 :=
  ⟨hc.entries, hc.origin.of_replies fun _ => rfl⟩

theorem coherent_lookup {path : Path ι α} {lookup : Lookup ι} {q : Progress (Lookup ι)
    (Except Error (Found ι α))} (hc : path.Coherent children sys)
    (h : lookup.Stepped sys q sys') : path.Coherent children sys' :=
  ⟨fun layer hl => by rw [h.contents]; exact hc.entries layer hl,
    hc.origin.of_replies h.advanced.replies⟩

/-- **A step of a resolution keeps every layer coherent.** -/
theorem Stepped.coherent (h : r.Stepped sys p sys') (hs : r.Sound children) (hr : r.Regular)
    (hc : r.path.Coherent children sys) : r.path.Coherent children sys' := by
  cases h with
  | queues | shares | overshoots | lingers | enters => exact coherent_acquire hc _ _ _
  | stalls hp h | looks hp h => exact coherent_lookup hc h
  | unread hp h | found hp h | missed hp h => exact coherent_release (coherent_lookup hc h) _ _
  | rests hp h | walks hp h =>
    rw [Sound, hp] at hs
    rw [Regular, hp] at hr
    exact h.coherent hs.2 hr hc
  | ends hp h =>
    rw [Sound, hp] at hs
    rw [Regular, hp] at hr
    exact coherent_release (h.coherent hs.2 hr hc) _ _

theorem Stepped.sound (h : r.Stepped sys (.going r') sys') (hs : r.Sound children)
    (hr : r.Regular) (hc : r.path.Coherent children sys) (hu : r.path.Unfed) :
    r'.Sound children := by
  refine ⟨?_, ?_⟩
  · obtain ⟨⟨phase, rfl⟩, _⟩ := h.going hr
    exact hs.1
  · cases h with
    | shares => rfl
    | overshoots | missed => trivial
    | looks hp h =>
      rw [Sound, hp] at hs
      rw [Regular, hp] at hr
      exact (h.going hr.1).2.1.trans hs.2
    | enters hp h => exact Walk.sound_start _ hs.1 .outermost
    | walks hp h =>
      rw [Sound, hp] at hs
      rw [Regular, hp] at hr
      exact h.sound hs.2 hr hc hu

/-- **A resolution that ends well answers for its ids.** -/
theorem Stepped.answers {fetched : Entries ι (List α)}
    (h : r.Stepped sys (.finished (.ok fetched)) sys') (hs : r.Sound children) (hr : r.Regular)
    (hc : r.path.Coherent children sys) (hu : r.path.Unfed) : Answers children r.ids fetched := by
  cases h with
  | found hp h hm =>
    rw [Sound, hp] at hs
    rw [Regular, hp] at hr
    obtain ⟨hhits, hmisses⟩ := Walk.found_coherent hc hr.2 (hu _ hr.2) h
    refine ⟨hhits, fun id hid hnone => ?_⟩
    rw [hm, eq_comm, List.filter_eq_nil_iff] at hmisses
    have hcontains := hmisses id (hs.2 ▸ hid)
    rw [Entries.contains_eq_false _ _ |>.2 hnone] at hcontains
    exact absurd rfl hcontains
  | ends hp h =>
    rw [Sound, hp] at hs
    exact h.answers hs.2

end Resolution

end Collate
