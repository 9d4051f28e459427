/-
When nothing fails.

If no source and no store ever fails and no layer has a feed, then no resolution fails: a lookup has
nothing to wait for and reads its store, and every answer that is waited for was a good one from the
beginning. Paths may share stores, as long as what they keep there is the same for both.
-/
import Collate.Proofs.Coherence

set_option autoImplicit false

namespace Collate

variable {ι α : Type} [DecidableEq ι]

/-! ## 1. Paths on which nothing fails -/

/-- The origin never fails. -/
def Origin.Unfailing (sys : System ι α) : Origin ι α → Prop
  | .source number _ _ => ∀ n ids, ids.Nodup → ∃ delivered : List α,
    ((sys.sources.get number).reply n ids).items = delivered.map Except.ok
  | .fallback _ _ answer => ∃ grouped, answer = .ok grouped

omit [DecidableEq ι] in
theorem Origin.Unfailing.of_replies {sys sys' : System ι α} {origin : Origin ι α}
    (h : origin.Unfailing sys)
    (hr : ∀ n, (sys'.sources.get n).reply = (sys.sources.get n).reply) :
    origin.Unfailing sys' := by
  cases origin with
  | source number bucket key =>
    intro n ids hids
    rw [hr number]
    exact h n ids hids
  | fallback bucket delay answer => exact h

theorem Origin.Unfailing.ask {sys : System ι α} {origin : Origin ι α} (h : origin.Unfailing sys)
    {ids : List ι} (hids : ids.Nodup) :
    ∃ grouped, (sys.ask origin ids).1.2 = .ok grouped := by
  cases origin with
  | source number bucket key =>
    obtain ⟨delivered, hitems⟩ := h ((sys.sources.get number).calls + 1) ids hids
    obtain ⟨all, hall, _⟩ := Source.groupFrom_ok key ids delivered .empty
    refine ⟨all, ?_⟩
    show (Source.group key ids ((sys.sources.get number).reply _ ids).items).mapError Error.source
      = .ok all
    rw [hitems, Source.group, hall]
    rfl
  | fallback bucket delay answer => exact h

/-- Paths without feeds on which nothing fails, in front of origins that are consistent per id. Where
two of them share a store, their origins know the same children. -/
structure Sturdy (children : Path ι α → ι → List α) (paths : List (Path ι α)) (sys : System ι α) :
    Prop where
  unfed : ∀ path ∈ paths, path.Unfed
  shared : ∀ path ∈ paths, ∀ other ∈ paths, ∀ layer ∈ path.layers, ∀ layer' ∈ other.layers,
    layer.store = layer'.store → children path = children other
  coherent : ∀ path ∈ paths, path.Coherent (children path) sys
  faultless : ∀ path ∈ paths, ∀ layer ∈ path.layers, (sys.stores.get layer.store).Faultless
  unfailing : ∀ path ∈ paths, path.origin.Unfailing sys

namespace Sturdy

variable {children : Path ι α → ι → List α} {paths : List (Path ι α)} {path : Path ι α}
  {sys sys' : System ι α}

/-- What goes on along one path, and keeps that path coherent, does no harm to the others. -/
theorem advanced (h : Sturdy children paths sys) (hp : path ∈ paths)
    (ha : System.Advanced path.layers sys sys') (hc : path.Coherent (children path) sys') :
    Sturdy children paths sys' := by
  refine ⟨h.unfed, h.shared, fun other ho => ⟨fun layer hl => ?_, ?_⟩, fun other ho layer hl => ?_,
    fun other ho => (h.unfailing other ho).of_replies ha.replies⟩
  · by_cases hs : ∃ own ∈ path.layers, own.store = layer.store
    · obtain ⟨own, hown, hstore⟩ := hs
      rw [← hstore, ← h.shared path hp other ho own hown layer hl hstore]
      exact hc.entries own hown
    · rw [ha.stores layer.store fun own hown hstore => hs ⟨own, hown, hstore⟩]
      exact (h.coherent other ho).entries layer hl
  · exact (h.coherent other ho).origin.of_replies ha.replies
  · intro call n
    rw [ha.faults]
    exact h.faultless other ho layer hl call n

/-- Nothing but stores and sources counts. -/
theorem elsewhere (h : Sturdy children paths sys) (hstores : sys'.stores = sys.stores)
    (hsources : sys'.sources = sys.sources) : Sturdy children paths sys' := by
  have hreplies : ∀ n, (sys'.sources.get n).reply = (sys.sources.get n).reply := fun n => by
    rw [hsources]
  refine ⟨h.unfed, h.shared,
    fun path hp => ⟨?_, (h.coherent path hp).origin.of_replies hreplies⟩, ?_,
    fun path hp => (h.unfailing path hp).of_replies hreplies⟩
  · rw [hstores]
    exact (h.coherent path hp).entries
  · rw [hstores]
    exact h.faultless

end Sturdy

/-! ## 2. Resolutions that do not fail -/

/-- A lookup that has no feeds to wait for reads its store, and that does not fail. -/
theorem Lookup.Stepped.unfailing {l : Lookup ι} {sys sys' : System ι α} {e : Error}
    (hl : l.Regular) (hf : l.layer.feeds = [])
    (hs : (sys.stores.get l.layer.store).Faultless) :
    ¬l.Stepped sys (.finished (.error e)) sys' := by
  intro h
  generalize hp : (Progress.finished (.error e)
    : Progress (Lookup ι) (Except Error (Found ι α))) = p at h
  cases h with
  | stalls | watches | passes => cases hp
  | refused feeds ready hready hw => exact hw (hl.awaiting hf)
  | reads hw =>
    obtain ⟨found, hread⟩ := System.read_ok hs l.ids
    rw [hread] at hp
    cases hp

/-- The answer a walk waits for, if it does, is a good one. -/
def Walk.Assured : Walk ι α → Prop
  | .waiting _ answer _ => ∃ fetched, answer = .ok fetched
  | _ => True

omit [DecidableEq ι] in
theorem Walk.assured_start (layers : List Layer) (ids : List ι) (frames : List (Frame ι α)) :
    (Walk.start layers ids frames).Assured := by
  cases layers <;> trivial

/-- A walk that waits for no failure does not fail where no call of a layer does. -/
theorem Walk.Stepped.unfailing {origin : Origin ι α} {walk : Walk ι α} {layers : List Layer}
    {sys sys' : System ι α} {e : Error} (hr : walk.Regular layers) (hassured : walk.Assured)
    (hunfed : ∀ layer ∈ layers, layer.feeds = [])
    (hfaultless : ∀ layer ∈ layers, (sys.stores.get layer.store).Faultless) :
    ¬Walk.Stepped origin walk sys (.finished (.error e)) sys' := by
  intro h
  cases h with
  | unread h => exact h.unfailing hr.1 (hunfed _ hr.2.1) (hfaultless _ hr.2.1)
  | failed =>
    obtain ⟨fetched, hanswer⟩ := hassured
    cases hanswer
  | unwritten h =>
    rw [System.write_ok (hfaultless _ (hr _ (List.mem_cons_self ..)))] at h
    cases h

namespace Resolution

/-- Nor does a resolution. -/
theorem Stepped.unfailing_of_assured {r : Resolution ι α} {sys sys' : System ι α} {e : Error}
    (hr : r.Regular) (hunfed : r.path.Unfed)
    (hfaultless : ∀ layer ∈ r.path.layers, (sys.stores.get layer.store).Faultless)
    (hassured : ∀ walk, r.phase = .walking walk → walk.Assured) :
    ¬r.Stepped sys (.finished (.error e)) sys' := by
  intro h
  cases h with
  | unread hp h =>
    rw [Regular, hp] at hr
    exact h.unfailing hr.1 (hunfed _ hr.2) (hfaultless _ hr.2)
  | ends hp h =>
    rw [Regular, hp] at hr
    exact h.unfailing hr (hassured _ hp) hunfed hfaultless

/-- The resolution goes along one of the paths, knows what it needs, and waits for no failure. -/
structure Fit (children : Path ι α → ι → List α) (paths : List (Path ι α)) (r : Resolution ι α) :
    Prop where
  path : r.path ∈ paths
  regular : r.Regular
  sound : r.Sound (children r.path)
  assured : ∀ walk, r.phase = .walking walk → walk.Assured

variable {children : Path ι α → ι → List α} {paths : List (Path ι α)} {r r' : Resolution ι α}
  {sys sys' : System ι α} {p : Progress (Resolution ι α) (Except Error (Entries ι (List α)))}

theorem fit_start {path : Path ι α} (hp : path ∈ paths) {ids : List ι} (hids : ids.Nodup)
    (sys : System ι α) : (start path ids sys).1.Fit children paths := by
  refine ⟨hp, regular_start path ids sys, sound_start path hids sys, fun walk hw => ?_⟩
  have hphase : (start path ids sys).1.phase
      = if path.layers.isEmpty then .walking (.asking ids []) else .wantsShared := rfl
  rw [hphase] at hw
  split at hw
  · cases hw
    trivial
  · cases hw

theorem Stepped.sturdy (h : r.Stepped sys p sys') (hr : r.Fit children paths)
    (hs : Sturdy children paths sys) : Sturdy children paths sys' :=
  hs.advanced hr.path (h.advanced hr.regular)
    (h.coherent hr.sound hr.regular (hs.coherent r.path hr.path))

/-- A step leads to somebody who waits for no failure either. -/
theorem Stepped.fit (h : r.Stepped sys (.going r') sys') (hr : r.Fit children paths)
    (hs : Sturdy children paths sys) : r'.Fit children paths := by
  have hcoherent := hs.coherent r.path hr.path
  have hsound := h.sound hr.sound hr.regular hcoherent (hs.unfed r.path hr.path)
  have hregular := (h.going hr.regular).2.1
  obtain ⟨⟨phase, rfl⟩, _⟩ := h.going hr.regular
  refine ⟨hr.path, hregular, hsound, fun walk hw => ?_⟩
  obtain rfl : phase = .walking walk := hw
  generalize hq : (Progress.going (r.into (.walking walk))
    : Progress (Resolution ι α) (Except Error (Entries ι (List α)))) = q at h
  cases h with
  | queues | unread | found | lingers | rests | ends | stalls => cases hq
  | shares | overshoots | looks | missed => injection hq with hq; cases congrArg Resolution.phase hq
  | enters hp h =>
    injection hq with hq
    cases congrArg Resolution.phase hq
    exact Walk.assured_start _ _ _
  | walks hp h =>
    injection hq with hq
    cases congrArg Resolution.phase hq
    cases h with
    | looks | spared | answered | written | found => trivial
    | missed => exact Walk.assured_start _ _ _
    | asked hids =>
      have hsnd := hr.sound.2
      rw [hp] at hsnd
      exact (hs.unfailing r.path hr.path).ask hsnd.1

/-- **No resolution fails.** -/
theorem Stepped.unfailing {e : Error} (hr : r.Fit children paths) (hs : Sturdy children paths sys) :
    ¬r.Stepped sys (.finished (.error e)) sys' :=
  unfailing_of_assured hr.regular (hs.unfed r.path hr.path) (hs.faultless r.path hr.path) hr.assured

end Resolution

end Collate
