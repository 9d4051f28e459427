/-
Layers that contain each other.

On the way out a chain is written from the innermost layer outwards. So if everything a layer holds
is held by the layer behind it too, that is so at every moment: when a layer is written, the one
behind it holds what is written already, and when the way out is cut short, by a failure or because
somebody gives up, the layers that are not written yet hold less, never more.

For this the layers must keep everything, or a layer might forget what the one in front of it holds.
Then no entry changes either, since a layer is written only what it missed. And a resolution that
returns something leaves its ids in the first layer, hence in all of them, also in those it did not
look into.

The invariant of a walk says what each frame has found and missed, which stays true because whoever
walks has the lock for itself, and that what was fetched for a frame is what the layer right behind
it holds of the ids.
-/
import Mathlib.Data.List.Chain
import Collate.Proofs.WriteThrough

set_option autoImplicit false

namespace Collate

variable {ι α : Type} [DecidableEq ι]

/-! ## 1. Layers -/

namespace System

/-- What a layer holds, the layer behind it holds too. -/
def Nested (sys : System ι α) (layers : List Layer) : Prop :=
  layers.IsChain fun layer behind => (sys.held layer).Within (sys.held behind)

/-- What some layers hold stays what it was, and there may be more. -/
def Grows (layers : List Layer) (sys sys' : System ι α) : Prop :=
  ∀ layer ∈ layers, (sys.held layer).Within (sys'.held layer)

variable {sys sys' : System ι α} {layer : Layer} {layers passed behind : List Layer}

theorem Grows.of_same (h : ∀ layer ∈ layers, sys'.held layer = sys.held layer) :
    Grows layers sys sys' :=
  fun layer hl => h layer hl ▸ .refl _

theorem Grows.trans {sys'' : System ι α} (h : Grows layers sys sys')
    (h' : Grows layers sys' sys'') : Grows layers sys sys'' :=
  fun layer hl => (h layer hl).trans (h' layer hl)

theorem Grows.knows (h : Grows layers sys sys') (hl : layer ∈ layers) {id : ι}
    (hid : sys.Knows layer.store id) : sys'.Knows layer.store id := by
  obtain ⟨v, hv⟩ := knows_iff.1 hid
  exact knows_iff.2 ⟨v, h layer hl id v hv⟩

theorem Nested.congr (h : sys.Nested layers)
    (hsame : ∀ layer ∈ layers, sys'.held layer = sys.held layer) : sys'.Nested layers := by
  refine List.IsChain.imp_of_mem_imp (fun layer behind hl hb hwithin => ?_) h
  rw [hsame layer hl, hsame behind hb]
  exact hwithin

/-- What the first layer knows all of them know. -/
theorem Nested.knows {first : Layer} (h : sys.Nested (first :: behind)) {id : ι}
    (hid : sys.Knows first.store id) : ∀ layer ∈ first :: behind, sys.Knows layer.store id := by
  induction behind generalizing first with
  | nil =>
    intro layer hl
    obtain rfl := List.mem_singleton.1 hl
    exact hid
  | cons next rest ih =>
    obtain ⟨hwithin, hrest⟩ := List.isChain_cons_cons.1 h
    obtain ⟨v, hv⟩ := knows_iff.1 hid
    have hnext : sys.Knows next.store id := knows_iff.2 ⟨v, hwithin id v hv⟩
    exact List.forall_mem_cons.2 ⟨hid, ih hrest hnext⟩

/-- A layer in between may get entries which the one behind it has. -/
theorem Nested.grow (h : sys.Nested (passed ++ layer :: behind))
    (hothers : ∀ other ∈ passed ++ behind, sys'.held other = sys.held other)
    (hgrows : (sys.held layer).Within (sys'.held layer))
    (hnext : ∀ next ∈ behind.head?, (sys'.held layer).Within (sys.held next)) :
    sys'.Nested (passed ++ layer :: behind) := by
  obtain ⟨hpassed, hlayer, hlast⟩ := List.isChain_append.1 h
  obtain ⟨_, hbehind⟩ := List.isChain_cons.1 hlayer
  have hfront : ∀ other ∈ passed, sys'.held other = sys.held other :=
    fun other ho => hothers other (List.mem_append_left _ ho)
  have hback : ∀ other ∈ behind, sys'.held other = sys.held other :=
    fun other ho => hothers other (List.mem_append_right _ ho)
  refine List.isChain_append.2 ⟨Nested.congr hpassed hfront, ?_, fun last hl other ho => ?_⟩
  · refine List.isChain_cons.2 ⟨fun next hn => ?_, Nested.congr hbehind hback⟩
    rw [hback next (List.mem_of_mem_head? hn)]
    exact hnext next hn
  · cases ho
    rw [hfront last (List.mem_of_mem_getLast? hl)]
    exact (hlast last hl layer rfl).trans hgrows

/-- What the layer holds of some ids. -/
def HoldsOf (sys : System ι α) (layer : Layer) (ids : List ι) (m : Entries ι (List α)) : Prop :=
  ∀ id, m.get? id = if id ∈ ids then (sys.held layer).get? id else none

end System

theorem Lookup.Stepped.held {l : Lookup ι} {sys sys' : System ι α}
    {p : Progress (Lookup ι) (Except Error (Found ι α))} (h : l.Stepped sys p sys')
    (layer : Layer) : sys'.held layer = sys.held layer := h.contents layer.store

/-- Layers that keep everything they are given, over separate stores and without feeds, in front of
a source. -/
structure Path.Roomy (path : Path ι α) (sys : System ι α) : Prop where
  unfed : path.Unfed
  unbounded : ∀ layer ∈ path.layers, (sys.stores.get layer.store).shelf.capacity? = none
  apart : (path.layers.map Layer.store).Nodup
  sourced : ∃ number bucket key, path.origin = .source number bucket key

omit [DecidableEq ι] in
theorem Path.Roomy.congr {path : Path ι α} {sys sys' : System ι α} (h : path.Roomy sys)
    (hcap : ∀ layer ∈ path.layers, (sys'.stores.get layer.store).shelf.capacity?
      = (sys.stores.get layer.store).shelf.capacity?) : path.Roomy sys' :=
  { h with unbounded := fun layer hl => (hcap layer hl).trans (h.unbounded layer hl) }

/-! ## 2. Frames -/

/-- A layer was asked for ids: some it found and the others it missed, and that is still so. -/
structure Frame.Splits (sys : System ι α) (frame : Frame ι α) (asked : List ι) : Prop where
  hits : sys.HoldsOf frame.layer asked frame.hits
  misses : frame.misses = Chain.passedOn sys.held [frame.layer] asked

namespace Frame.Splits

variable {sys sys' : System ι α} {frame : Frame ι α} {asked : List ι}

theorem congr (h : frame.Splits sys asked) (hsame : sys'.held frame.layer = sys.held frame.layer) :
    frame.Splits sys' asked := by
  refine ⟨fun id => by rw [hsame]; exact h.hits id, h.misses.trans ?_⟩
  show asked.filter (fun id => !(sys.held frame.layer).contains id)
    = asked.filter fun id => !(sys'.held frame.layer).contains id
  rw [hsame]

theorem mem_misses (h : frame.Splits sys asked) {id : ι} :
    id ∈ frame.misses ↔ id ∈ asked ∧ (sys.held frame.layer).get? id = none := by
  rw [h.misses]
  exact Chain.mem_passedOn_singleton

end Frame.Splits

/-- A lookup that has come to an end has split its ids. -/
theorem Lookup.Stepped.splits {l : Lookup ι} {sys sys' : System ι α} {found : Found ι α}
    (h : l.Stepped sys (.finished (.ok found)) sys') (hu : l.layer.feeds = []) :
    Frame.Splits sys ⟨l.layer, found.hits, found.misses⟩ l.ids := by
  obtain ⟨hhits, hmisses⟩ := h.found
  exact ⟨hhits, hmisses.trans (Chain.missesOf_exact hu hhits)⟩

namespace Walk

/-- What was fetched for ids behind some frames: if there is a layer, what it holds of the ids, and
that is all of them; or else anything at all about them. -/
def Fetched (sys : System ι α) (behind : List Layer) (ids : List ι) (m : Entries ι (List α)) :
    Prop :=
  match behind with
  | [] => m.KeysIn ids
  | next :: _ => sys.HoldsOf next ids m ∧ ∀ id ∈ ids, sys.Knows next.store id

variable {sys sys' : System ι α} {frame : Frame ι α} {asked ids : List ι}
  {behind layers : List Layer} {fetched : Entries ι (List α)}

theorem Fetched.keysIn (h : Fetched sys behind ids fetched) : fetched.KeysIn ids := by
  cases behind with
  | nil => exact h
  | cons next rest =>
    intro id v hv
    by_contra hid
    rw [h.1 id, if_neg hid] at hv
    cases hv

/-- What is known of all ids by the first layer is known by all. -/
theorem Fetched.known (h : Fetched sys layers ids fetched) (hn : sys.Nested layers) :
    ∀ id ∈ ids, ∀ layer ∈ layers, sys.Knows layer.store id := by
  cases layers with
  | nil => exact fun _ _ _ hl => absurd hl List.not_mem_nil
  | cons first rest => exact fun id hid => hn.knows (h.2 id hid)

/-- A layer that misses nothing holds all of it. -/
theorem Fetched.of_splits (h : frame.Splits sys asked) (hm : frame.misses = []) :
    Fetched sys (frame.layer :: behind) asked frame.hits := by
  refine ⟨h.hits, fun id hid => ?_⟩
  cases hget : (sys.held frame.layer).get? id with
  | some v => exact System.knows_iff.2 ⟨v, hget⟩
  | none =>
    have hmissed := h.mem_misses.2 ⟨hid, hget⟩
    rw [hm] at hmissed
    cases hmissed

/-- **What is written to a layer** is new to it, and the layer behind has it. Afterwards the layer
holds all it was asked for, and that is what was fetched for the next one out. -/
theorem Fetched.write (h : Fetched sys behind frame.misses fetched) (hs : frame.Splits sys asked)
    (hcap : (sys.stores.get frame.layer.store).shelf.capacity? = none)
    (hok : (sys.write frame.layer (writeBack frame fetched)).1 = .ok ())
    (hnext : ∀ next ∈ behind.head?, (sys.held frame.layer).Within (sys.held next))
    (hsys : sys' = (sys.write frame.layer (writeBack frame fetched)).2) :
    (sys.held frame.layer).Within (sys'.held frame.layer)
    ∧ (∀ next ∈ behind.head?, (sys'.held frame.layer).Within (sys.held next))
    ∧ Fetched sys' (frame.layer :: behind) asked
      (frame.hits.insertAll (writeBack frame fetched).pairs) := by
  have hback : ∀ id, (writeBack frame fetched).get? id
      = if id ∈ frame.misses then some ((fetched.get? id).getD []) else none :=
    Chain.get?_writeBack h.keysIn
  have hheld : ∀ id, (sys'.held frame.layer).get? id
      = ((writeBack frame fetched).get? id).or ((sys.held frame.layer).get? id) := fun id => by
    rw [hsys]
    exact System.get?_contents_write hcap hok id
  -- What the layer held is not written again.
  have hold : ∀ id v, (sys.held frame.layer).get? id = some v →
      (sys'.held frame.layer).get? id = some v := fun id v hv => by
    have hnot : id ∉ frame.misses := fun hm => by
      rw [(hs.mem_misses.1 hm).2] at hv
      cases hv
    rw [hheld, hback, if_neg hnot]
    exact hv
  refine ⟨hold, fun next hn id v hv => ?_, fun id => ?_, fun id hid => ?_⟩
  · rw [hheld, hback] at hv
    by_cases hm : id ∈ frame.misses
    · -- The layer behind has been found to hold every id that was missed.
      obtain ⟨rest, rfl⟩ := List.head?_eq_some_iff.1 hn
      obtain ⟨w, hw⟩ := System.knows_iff.1 (h.2 id hm)
      have hfetched : fetched.get? id = some w := (h.1 id).trans ((if_pos hm).trans hw)
      rw [if_pos hm, hfetched] at hv
      exact hw.trans hv
    · rw [if_neg hm] at hv
      exact hnext next hn id v hv
  · rw [Entries.get?_insertAll_pairs _ _ (.refl _), hheld, hback, hs.hits id]
    by_cases hm : id ∈ frame.misses
    · have hid := (hs.mem_misses.1 hm).1
      rw [if_pos hm, if_pos hid, if_pos hid]
    · rw [if_neg hm]
      rfl
  · cases hget : (sys.held frame.layer).get? id with
    | some v => exact System.knows_iff.2 ⟨v, hold id v hget⟩
    | none =>
      refine System.knows_iff.2 ⟨(fetched.get? id).getD [], (hheld id).trans ?_⟩
      rw [hback, if_pos (hs.mem_misses.2 ⟨hid, hget⟩)]
      rfl

/-! ## 3. Walks -/

omit [DecidableEq ι] in
/-- The layers of frames, from the outermost on. -/
def passed (frames : List (Frame ι α)) : List Layer := (frames.map Frame.layer).reverse

omit [DecidableEq ι] in
theorem passed_cons (frame : Frame ι α) (frames : List (Frame ι α)) (behind : List Layer) :
    passed (frame :: frames) ++ behind = passed frames ++ frame.layer :: behind := by
  simp [passed]

/-- Frames of a walk for some ids, behind which others are still wanted: each has passed on what it
missed of what it was asked for. -/
def Awaits (sys : System ι α) (ids : List ι) : List (Frame ι α) → List ι → Prop
  | [], wanted => wanted = ids
  | frame :: frames, wanted => frame.misses = wanted
    ∧ ∃ asked, frame.Splits sys asked ∧ Awaits sys ids frames asked

theorem Awaits.congr {frames : List (Frame ι α)} {wanted : List ι}
    (h : Awaits sys ids frames wanted)
    (hsame : ∀ frame ∈ frames, sys'.held frame.layer = sys.held frame.layer) :
    Awaits sys' ids frames wanted := by
  induction frames generalizing wanted with
  | nil => exact h
  | cons frame frames ih =>
    obtain ⟨hmisses, asked, hsplits, hrest⟩ := h
    obtain ⟨hframe, hframes⟩ := List.forall_mem_cons.1 hsame
    exact ⟨hmisses, asked, hsplits.congr hframe, ih hrest hframes⟩

theorem Fetched.congr (h : Fetched sys behind ids fetched)
    (hsame : ∀ layer ∈ behind, sys'.held layer = sys.held layer) :
    Fetched sys' behind ids fetched := by
  cases behind with
  | nil => exact h
  | cons next rest =>
    have hnext := hsame next (List.mem_cons_self ..)
    refine ⟨fun id => (h.1 id).trans (by rw [hnext]), fun id hid => ?_⟩
    obtain ⟨v, hv⟩ := System.knows_iff.1 (h.2 id hid)
    exact System.knows_iff.2 ⟨v, (congrArg (Entries.get? · id) hnext).trans hv⟩

/-- What is known of a walk for some ids: which layers it has passed and what it has to bring each
of them. -/
def Nests (sys : System ι α) (layers : List Layer) (ids : List ι) : Walk ι α → Prop
  | .descending lookup rest frames => layers = passed frames ++ lookup.layer :: rest
    ∧ Awaits sys ids frames lookup.ids
  | .asking wanted frames => layers = passed frames ∧ Awaits sys ids frames wanted
  | .waiting _ answer frames => layers = passed frames ∧ ∃ wanted, Awaits sys ids frames wanted
    ∧ ∀ m, answer = .ok m → m.KeysIn wanted
  | .returning fetched frames => ∃ behind wanted, layers = passed frames ++ behind
    ∧ Awaits sys ids frames wanted ∧ Fetched sys behind wanted fetched

omit [DecidableEq ι] in
theorem mem_passed {frames : List (Frame ι α)} {layer : Layer} :
    layer ∈ passed frames ↔ ∃ frame ∈ frames, frame.layer = layer := by
  simp [passed]

theorem nests_start {rest : List Layer} {wanted : List ι} {frames : List (Frame ι α)}
    (hlayers : layers = passed frames ++ rest) (h : Awaits sys ids frames wanted) :
    (start rest wanted frames).Nests sys layers ids := by
  cases rest with
  | nil => exact ⟨hlayers.trans (List.append_nil _), h⟩
  | cons layer rest => exact ⟨hlayers, h⟩

/-- It says something about what the walk's layers hold and nothing else. -/
theorem Nests.congr {walk : Walk ι α} (h : walk.Nests sys layers ids)
    (hsame : ∀ layer ∈ layers, sys'.held layer = sys.held layer) : walk.Nests sys' layers ids := by
  have hframes : ∀ {frames : List (Frame ι α)} {behind : List Layer},
      layers = passed frames ++ behind →
        ∀ frame ∈ frames, sys'.held frame.layer = sys.held frame.layer := fun hlayers frame hf => by
    refine hsame _ ?_
    rw [hlayers]
    exact List.mem_append_left _ (mem_passed.2 ⟨frame, hf, rfl⟩)
  cases walk with
  | descending lookup rest frames => exact ⟨h.1, h.2.congr (hframes h.1)⟩
  | asking wanted frames =>
    exact ⟨h.1, h.2.congr (hframes (h.1.trans (List.append_nil _).symm))⟩
  | waiting alarm answer frames =>
    obtain ⟨hlayers, wanted, hawaits, hkeys⟩ := h
    exact ⟨hlayers, wanted, hawaits.congr (hframes (hlayers.trans (List.append_nil _).symm)), hkeys⟩
  | returning fetched frames =>
    obtain ⟨behind, wanted, hlayers, hawaits, hfetched⟩ := h
    exact ⟨behind, wanted, hlayers, hawaits.congr (hframes hlayers),
      hfetched.congr fun layer hl => hsame layer (hlayers ▸ List.mem_append_right _ hl)⟩

/-- What a step of a walk leads to. -/
def Leaves (sys : System ι α) (layers : List Layer) (ids : List ι) (walk : Walk ι α) :
    Progress (Walk ι α) (Except Error (Entries ι (List α))) → Prop
  | .blocked => walk.Nests sys layers ids
  | .going walk' => walk'.Nests sys layers ids
  | .finished (.ok m) => Fetched sys layers ids m
  | .finished (.error _) => True

variable {walk : Walk ι α} {p : Progress (Walk ι α) (Except Error (Entries ι (List α)))}

theorem Leaves.congr (h : walk.Leaves sys layers ids p)
    (hsame : ∀ layer ∈ layers, sys'.held layer = sys.held layer) :
    walk.Leaves sys' layers ids p := by
  cases p with
  | blocked | going => exact Nests.congr h hsame
  | finished result =>
    cases result with
    | ok => exact Fetched.congr h hsame
    | error => trivial

/-- **A layer is written.** -/
theorem Nests.write {frames : List (Frame ι α)}
    (h : (returning fetched (frame :: frames)).Nests sys layers ids) (hn : sys.Nested layers)
    (hcap : ∀ layer ∈ layers, (sys.stores.get layer.store).shelf.capacity? = none)
    (hapart : (layers.map Layer.store).Nodup)
    (hok : (sys.write frame.layer (writeBack frame fetched)).1 = .ok ())
    (hsys : sys' = (sys.write frame.layer (writeBack frame fetched)).2) :
    sys'.Nested layers ∧ System.Grows layers sys sys'
    ∧ (returning (frame.hits.insertAll (writeBack frame fetched).pairs) frames).Nests sys' layers
      ids := by
  obtain ⟨behind, wanted, hlayers, ⟨rfl, asked, hsplits, hawaits⟩, hfetched⟩ := h
  rw [passed_cons] at hlayers
  subst hlayers
  have hothers : ∀ other ∈ passed frames ++ behind, sys'.held other = sys.held other := by
    intro other ho
    rw [List.map_append, List.map_cons, List.nodup_middle, List.nodup_cons, ← List.map_append]
      at hapart
    have hne : other.store ≠ frame.layer.store := fun he =>
      hapart.1 (he ▸ List.mem_map_of_mem ho)
    rw [hsys, System.held, (System.write_called sys frame.layer _).others _ hne]
    rfl
  have hnext := (List.isChain_cons.1 (List.isChain_append.1 hn).2.1).1
  obtain ⟨hgrows, hbehind, hfetched'⟩ :=
    hfetched.write hsplits (hcap _ (by simp)) hok hnext hsys
  refine ⟨hn.grow hothers hgrows hbehind, fun layer hl => ?_, frame.layer :: behind, asked, rfl,
    hawaits.congr fun other ho => ?_, hfetched'⟩
  · rcases List.mem_append.1 hl with hl | hl
    · exact hothers layer (List.mem_append_left _ hl) ▸ .refl _
    · rcases List.mem_cons.1 hl with rfl | hl
      · exact hgrows
      · exact hothers layer (List.mem_append_right _ hl) ▸ .refl _
  · exact hothers _ (List.mem_append_left _ (mem_passed.2 ⟨other, ho, rfl⟩))

/-- **A step of a walk** keeps layers within each other, and all they hold. -/
theorem Stepped.nests {path : Path ι α} (h : Stepped path.origin walk sys p sys')
    (hpath : path.Roomy sys) (hr : walk.Regular path.layers) (hn : sys.Nested path.layers)
    (hw : walk.Nests sys path.layers ids) :
    sys'.Nested path.layers ∧ System.Grows path.layers sys sys'
    ∧ walk.Leaves sys' path.layers ids p := by
  obtain ⟨hunfed, hcap, hapart, number, bucket, key, hsource⟩ := hpath
  rw [hsource] at h
  -- Nothing is written but on the way back.
  have hquiet : (∀ layer, sys'.held layer = sys.held layer) → walk.Leaves sys path.layers ids p →
      sys'.Nested path.layers ∧ System.Grows path.layers sys sys'
        ∧ walk.Leaves sys' path.layers ids p :=
    fun hsame hleaves => ⟨hn.congr fun layer _ => hsame layer, .of_same fun layer _ => hsame layer,
      hleaves.congr fun layer _ => hsame layer⟩
  cases h with
  | stalls h => exact hquiet h.held hw
  | @looks lookup lookup' rest frames _ _ h =>
    obtain ⟨hlayer, hids, _, _⟩ := h.going hr.1
    have hnext : (descending lookup' rest frames).Nests sys path.layers ids := by
      rw [Nests, hlayer, hids]
      exact hw
    exact hquiet h.held hnext
  | unread h => exact hquiet h.held trivial
  | @found lookup rest frames _ _ found h hm =>
    obtain ⟨hlayers, hawaits⟩ := hw
    have hfetched : Fetched sys (lookup.layer :: rest) lookup.ids found.hits :=
      .of_splits (h.splits (hunfed _ hr.2.1)) hm
    exact hquiet h.held ⟨_, _, hlayers, hawaits, hfetched⟩
  | @missed lookup rest frames _ _ found h hm =>
    obtain ⟨hlayers, hawaits⟩ := hw
    let frame : Frame ι α := ⟨lookup.layer, found.hits, found.misses⟩
    have hnext : (start rest found.misses (frame :: frames)).Nests sys path.layers ids :=
      nests_start (hlayers.trans (passed_cons frame frames rest).symm)
        ⟨rfl, lookup.ids, h.splits (hunfed _ hr.2.1), hawaits⟩
    exact hquiet h.held hnext
  | spared =>
    obtain ⟨hlayers, hawaits⟩ := hw
    have hfetched : Fetched sys [] [] (.empty : Entries ι (List α)) := fun id v hv => by cases hv
    exact hquiet (fun _ => rfl) ⟨[], [], hlayers.trans (List.append_nil _).symm, hawaits, hfetched⟩
  | @asked wanted frames _ hids =>
    obtain ⟨hlayers, hawaits⟩ := hw
    refine hquiet (fun layer => ?_) ⟨hlayers, wanted, hawaits, fun m hm => System.keysIn_ask hm⟩
    rw [System.held, System.stores_ask]
    rfl
  | waits => exact hquiet (fun _ => rfl) hw
  | failed => exact hquiet (fun _ => rfl) trivial
  | answered =>
    obtain ⟨hlayers, wanted, hawaits, hkeys⟩ := hw
    exact hquiet (fun _ => rfl) ⟨[], wanted, hlayers.trans (List.append_nil _).symm, hawaits,
      hkeys _ rfl⟩
  | done =>
    obtain ⟨behind, wanted, hlayers, rfl, hfetched⟩ := hw
    have hbehind : path.layers = behind := hlayers
    exact hquiet (fun _ => rfl) (hbehind ▸ hfetched)
  | unwritten h => exact hquiet (fun layer => System.contents_of_unwritten h layer.store) trivial
  | written h => exact hw.write hn hcap hapart h rfl

end Walk

/-! ## 4. Resolutions -/

namespace Resolution

/-- What is known of a resolution: while it shares the lock it looks its ids up in the first layer,
and then it walks for them. -/
def Nests (sys : System ι α) (r : Resolution ι α) : Prop :=
  match r.phase with
  | .peeking lookup => (∃ rest, r.path.layers = lookup.layer :: rest) ∧ lookup.ids = r.ids
  | .walking walk => walk.Nests sys r.path.layers r.ids
  | _ => True

/-- What a step of a resolution leads to. -/
def Leaves (sys : System ι α) (r : Resolution ι α) :
    Progress (Resolution ι α) (Except Error (Entries ι (List α))) → Prop
  | .blocked => r.Nests sys
  | .going r' => r'.Nests sys
  | .finished (.ok m) => Walk.Fetched sys r.path.layers r.ids m
  | .finished (.error _) => True

variable {r : Resolution ι α} {sys sys' : System ι α}
  {p : Progress (Resolution ι α) (Except Error (Entries ι (List α)))}

theorem nests_start (path : Path ι α) (ids : List ι) (sys sys' : System ι α) :
    (start path ids sys).1.Nests sys' := by
  unfold start Nests
  dsimp only
  split
  · rename_i hp
    split at hp <;> cases hp
  · rename_i walk hp
    split at hp
    · rename_i hempty
      cases hp
      exact ⟨List.isEmpty_iff.1 hempty, rfl⟩
    · cases hp
  · trivial

/-- Unless it walks it does not matter what is held. -/
theorem Nests.congr (h : r.Nests sys) (hsame : (∃ walk, r.phase = .walking walk) →
    ∀ layer ∈ r.path.layers, sys'.held layer = sys.held layer) : r.Nests sys' := by
  unfold Nests at h ⊢
  cases hp : r.phase with
  | walking walk =>
    rw [hp] at h
    exact h.congr (hsame ⟨walk, hp⟩)
  | wantsShared | peeking | wantsExclusive =>
    rw [hp] at h
    exact h

/-- **A step of a resolution** does so too. -/
theorem Stepped.nests (h : r.Stepped sys p sys') (hpath : r.path.Roomy sys) (hr : r.Regular)
    (hn : sys.Nested r.path.layers) (hw : r.Nests sys) :
    sys'.Nested r.path.layers ∧ System.Grows r.path.layers sys sys' ∧ r.Leaves sys' p := by
  -- Only a walk changes what is held.
  have hquiet : (∀ walk, r.phase ≠ .walking walk) → r.Leaves sys' p →
      sys'.Nested r.path.layers ∧ System.Grows r.path.layers sys sys' ∧ r.Leaves sys' p :=
    fun hp hleaves => ⟨hn.congr fun layer _ => h.contents hp layer.store,
      .of_same fun layer _ => h.contents hp layer.store, hleaves⟩
  have hwalk : ∀ {walk : Walk ι α}, r.phase = .walking walk → walk.Nests sys r.path.layers r.ids
      ∧ walk.Regular r.path.layers := fun hp => by
    rw [Nests, hp] at hw
    rw [Regular, hp] at hr
    exact ⟨hw, hr⟩
  cases h with
  | queues hp | lingers hp => exact hquiet (by simp [hp]) (by simp [Leaves, Nests, hp])
  | shares hp hl => exact hquiet (by simp [hp]) ⟨⟨_, hl⟩, rfl⟩
  | overshoots hp | missed hp => exact hquiet (by simp [hp]) trivial
  | stalls hp =>
    rw [Nests, hp] at hw
    exact hquiet (by simp [hp]) (by rw [Leaves, Nests, hp]; exact hw)
  | looks hp h =>
    rw [Nests, hp] at hw
    rw [Regular, hp] at hr
    obtain ⟨hlayer, hids, _, _⟩ := h.going hr.1
    refine hquiet (by simp [hp]) ⟨?_, hids.trans hw.2⟩
    rw [hlayer]
    exact hw.1
  | unread hp => exact hquiet (by simp [hp]) trivial
  | @found lookup hp sys₁ found h hm =>
    rw [Nests, hp] at hw
    obtain ⟨⟨rest, hlayers⟩, hids⟩ := hw
    have hall : Walk.Fetched sys (_ :: rest) _ found.hits :=
      .of_splits (h.splits (hpath.unfed _ (hlayers ▸ List.mem_cons_self ..))) hm
    rw [← hlayers, hids] at hall
    refine hquiet (by simp [hp]) (hall.congr fun layer _ => ?_)
    rw [System.held, stores_release]
    exact h.held layer
  | enters hp => exact hquiet (by simp [hp]) (Walk.nests_start rfl rfl)
  | rests hp h =>
    obtain ⟨hnested, hgrows, hleaves⟩ := h.nests hpath (hwalk hp).2 hn (hwalk hp).1
    exact ⟨hnested, hgrows, by rw [Leaves, Nests, hp]; exact hleaves⟩
  | walks hp h => exact h.nests hpath (hwalk hp).2 hn (hwalk hp).1
  | @ends walk hp sys₁ result h =>
    obtain ⟨hnested, hgrows, hleaves⟩ := h.nests hpath (hwalk hp).2 hn (hwalk hp).1
    -- The lock is given back.
    have hsame : ∀ layer, (sys₁.release r.path.lock r.ticket).held layer = sys₁.held layer := by
      intro layer
      rw [System.held, stores_release]
      rfl
    refine ⟨hnested.congr fun layer _ => hsame layer, fun layer hl => ?_, ?_⟩
    · rw [hsame]
      exact hgrows layer hl
    · cases result with
      | error e => trivial
      | ok m => exact Walk.Fetched.congr hleaves fun layer _ => hsame layer

end Resolution

/-! ## 5. Traffic -/

namespace Traffic

variable {path : Path ι α} {admits : List ι → Prop} {store : Nat} {t t' : Traffic ι α}

/-- What is known of traffic along a path. -/
structure Nests (path : Path ι α) (t : Traffic ι α) : Prop where
  roomy : path.Roomy t.system
  nested : t.system.Nested path.layers
  underway : ∀ r ∈ t.underway, r.Nests t.system
  known : ∀ ticket ids m, .returned ticket ids (.ok m) ∈ t.history →
    ∀ id ∈ ids, ∀ layer ∈ path.layers, t.system.Knows layer.store id

theorem nests_start {sys : System ι α} (h : path.Roomy sys) (hn : sys.Nested path.layers) :
    Nests path (start sys) := by
  refine ⟨h, hn, ?_, ?_⟩ <;> simp [start]

theorem Nests.still_known {sys : System ι α} (ht : Nests path t)
    (hgrows : System.Grows path.layers t.system sys) :
    ∀ ticket ids m, .returned ticket ids (.ok m) ∈ t.history →
      ∀ id ∈ ids, ∀ layer ∈ path.layers, sys.Knows layer.store id :=
  fun ticket ids m hm id hid _ hl => hgrows.knows hl (ht.known ticket ids m hm id hid _ hl)

/-- Where nothing that is held changes nothing else matters. -/
theorem Nests.congr {sys : System ι α} (ht : Nests path t) (hg : Regular path t)
    (hcap : ∀ layer ∈ path.layers, (sys.stores.get layer.store).shelf.capacity?
      = (t.system.stores.get layer.store).shelf.capacity?)
    (hsame : ∀ layer ∈ path.layers, sys.held layer = t.system.held layer) :
    Nests path ⟨t.underway, sys, t.history⟩ where
  roomy := ht.roomy.congr hcap
  nested := ht.nested.congr hsame
  underway := fun r hr => (ht.underway r hr).congr fun _ => by
    rw [hg.path r hr]
    exact hsame
  known := ht.still_known (.of_same hsame)

/-- **One resolution takes a step.** Nobody else walks while it does. -/
theorem Nests.stepped (ht : Nests path t) (hg : Guarded path store t) {r : Resolution ι α}
    (hr : r ∈ t.underway) {sys : System ι α}
    {p : Progress (Resolution ι α) (Except Error (Entries ι (List α)))}
    (h : r.Stepped t.system p sys) :
    path.Roomy sys ∧ sys.Nested path.layers ∧ System.Grows path.layers t.system sys
    ∧ r.Leaves sys p ∧ ∀ x ∈ t.underway, x.ticket ≠ r.ticket → x.Nests sys := by
  have hpath : r.path = path := hg.regular.path r hr
  have hregular := hg.regular.regular r hr
  obtain ⟨hnested, hgrows, hleaves⟩ :=
    h.nests (hpath ▸ ht.roomy) hregular (hpath ▸ ht.nested) (ht.underway r hr)
  rw [hpath] at hnested hgrows
  refine ⟨ht.roomy.congr fun layer _ => (h.advanced hregular).capacity layer.store, hnested, hgrows,
    hleaves, fun x hx hne => (ht.underway x hx).congr fun ⟨walk, hwalk⟩ layer _ => ?_⟩
  refine h.contents (fun walk' hwalk' => ?_) layer.store
  exact hne (hg.walker_unique hr hx hwalk' hwalk)

/-- **Every step of traffic** keeps layers within each other, and all they hold. -/
theorem Nests.step (ht : Nests path t) (hg : Guarded path store t)
    (h : Step path admits (Elsewhere path.lock path.layers) t t') :
    Nests path t' ∧ System.Grows path.layers t.system t'.system := by
  cases h with
  | @begins _ ids h =>
    refine ⟨⟨ht.roomy.congr fun _ _ => rfl, ht.nested.congr fun _ _ => rfl, fun r hr => ?_,
      ht.known⟩, .of_same fun _ _ => rfl⟩
    rcases List.mem_append.1 hr with hr | hr
    · exact (ht.underway r hr).congr fun _ _ _ => rfl
    · obtain rfl := List.mem_singleton.1 hr
      exact Resolution.nests_start path ids t.system _
  | @waits before behind r sys sys' history h =>
    have hs := r.stepped sys
    rw [h] at hs
    obtain ⟨hroomy, hnested, hgrows, hleaves, hothers⟩ := ht.stepped hg (by simp) hs
    refine ⟨⟨hroomy, hnested, fun x hx => ?_, ht.still_known hgrows⟩, hgrows⟩
    rcases eq_or_mem_rest hx with rfl | hx'
    · exact hleaves
    · exact hothers x hx (ticket_ne_of_mem_rest hg.regular.distinct hx')
  | @goes before behind r r' sys sys' history h =>
    have hs := r.stepped sys
    rw [h] at hs
    obtain ⟨hroomy, hnested, hgrows, hleaves, hothers⟩ := ht.stepped hg (by simp) hs
    refine ⟨⟨hroomy, hnested, fun x hx => ?_, fun ticket ids m hm => ?_⟩, hgrows⟩
    · rcases eq_or_mem_rest hx with rfl | hx'
      · exact hleaves
      · exact hothers x (mem_of_mem_rest hx') (ticket_ne_of_mem_rest hg.regular.distinct hx')
    · exact ht.still_known hgrows ticket ids m (returned_of_marks hm)
  | @returns before behind r sys sys' history result h =>
    have hs := r.stepped sys
    rw [h] at hs
    obtain ⟨hroomy, hnested, hgrows, hleaves, hothers⟩ := ht.stepped hg (by simp) hs
    refine ⟨⟨hroomy, hnested, fun x hx => ?_, fun ticket ids m hm => ?_⟩, hgrows⟩
    · exact hothers x (mem_of_mem_rest hx) (ticket_ne_of_mem_rest hg.regular.distinct hx)
    · rcases List.mem_cons.1 hm with heq | hm
      · cases heq
        have hfetched : Walk.Fetched sys' r.path.layers r.ids m := hleaves
        rw [hg.regular.path r (by simp)] at hfetched
        exact hfetched.known hnested
      · exact ht.still_known hgrows ticket ids m hm
  | @drops before behind r sys history =>
    obtain ⟨feeds, ready, _, hcancel⟩ := r.cancel_eq sys
    have hsame : ∀ layer, (r.cancel sys).held layer = sys.held layer := fun layer => by
      rw [hcancel]
      rfl
    have hleft := ht.congr hg.regular (fun layer _ => by rw [hcancel]) fun layer _ => hsame layer
    refine ⟨⟨hleft.roomy, hleft.nested, fun x hx => hleft.underway x (mem_of_mem_rest hx),
      fun ticket ids m hm => hleft.known ticket ids m ?_⟩, .of_same fun layer _ => hsame layer⟩
    exact (List.mem_cons.1 hm).resolve_left fun heq => by cases heq
  | @beside _ sys h =>
    exact ⟨ht.congr hg.regular h.capacity h.contents, .of_same h.contents⟩

/-- **Every run** does so. -/
theorem Nests.of_leads {m : Layer} (hm : m ∈ path.layers) (ht : Nests path t)
    (hg : Guarded path m.store t)
    (h : Leads path admits (Elsewhere path.lock path.layers) t t') :
    Nests path t' ∧ Guarded path m.store t' ∧ System.Grows path.layers t.system t'.system := by
  induction h with
  | refl => exact ⟨ht, hg, .of_same fun _ _ => rfl⟩
  | tail _ hstep ih =>
    obtain ⟨hnests, hguarded, hgrows⟩ := ih
    obtain ⟨hnests', hgrows'⟩ := hnests.step hguarded hstep
    -- The guard asks for less of what happens elsewhere.
    have hown : [m] ⊆ path.layers := List.cons_subset.2 ⟨hm, List.nil_subset _⟩
    have hstep' := hstep.mono fun _ _ he => he.mono hown
    exact ⟨hnests', hguarded.step hm hstep', hgrows.trans hgrows'⟩

/-- **Layers stay within each other.** Take any layers without feeds that keep everything, over
separate stores to which nobody else writes, in front of any source, and let each layer's entries be
entries of the layer behind it at first. Any number of resolutions with any ids go along the path,
taking their steps in any order; calls of the source and of the stores may fail, and a resolution
may be dropped wherever it is. Then at every moment each layer's entries, with their children, are
entries of the layer behind it; whatever a layer holds at some moment it holds unchanged at every
later one; and once a resolution has returned something, every layer has entries of all its ids. -/
theorem layers_stay_nested {sys : System ι α} (hpath : path.Roomy sys)
    (hnested : sys.Nested path.layers)
    (h : Leads path admits (Elsewhere path.lock path.layers) (Traffic.start sys) t)
    (h' : Leads path admits (Elsewhere path.lock path.layers) t t') :
    t.system.Nested path.layers
    ∧ System.Grows path.layers t.system t'.system
    ∧ ∀ ticket ids m, .returned ticket ids (.ok m) ∈ t.history →
      ∀ id ∈ ids, ∀ layer ∈ path.layers, t.system.Knows layer.store id := by
  by_cases hlayers : path.layers = []
  · rw [hlayers]
    exact ⟨List.isChain_nil, fun _ hl => absurd hl List.not_mem_nil,
      fun _ _ _ _ _ _ _ hl => absurd hl List.not_mem_nil⟩
  · obtain ⟨m, hm⟩ := List.exists_mem_of_ne_nil _ hlayers
    obtain ⟨hnests, hguarded, _⟩ :=
      (nests_start hpath hnested).of_leads hm (.start (hpath.unbounded m hm)) h
    exact ⟨hnests.nested, (hnests.of_leads hm hguarded h').2.2, hnests.known⟩

/-- A path with two layers, in front of a source that takes its time. -/
def echoTwice : Path Nat Nat := ⟨0, [⟨[], 0⟩, ⟨[], 1⟩], .source 0 0 (· / 10)⟩

/-- Somebody wants two ids and gives up when the inner layer was written and the outer one was
not. -/
def givesUp : List (Move Nat) :=
  .begin [1, 2] :: List.replicate 6 (.step 0) ++ [.passTo 5, .step 0, .step 0, .drop 0]

/-- Somebody else wants one of them and another one. -/
def comesLater : List (Move Nat) :=
  .begin [2, 3] :: List.replicate 6 (.step 0) ++ .passTo 10 :: List.replicate 4 (.step 0)

theorem roomy_echoTwice : echoTwice.Roomy echoSystem := by
  refine ⟨by unfold Path.Unfed; decide, fun layer hl => ?_, by decide, 0, 0, _, rfl⟩
  obtain rfl | rfl : layer = ⟨[], 0⟩ ∨ layer = ⟨[], 1⟩ := by simpa [echoTwice] using hl
  all_goals rfl

/-- The inner layer holds more than the outer one in between, and all that was asked for is in both
of them in the end. -/
theorem layers_stay_nested_given_up :
    ∃ t t' : Traffic Nat Nat, t = (Traffic.start echoSystem).play echoTwice givesUp
    ∧ t' = t.play echoTwice comesLater
    ∧ t.system.Nested echoTwice.layers
    ∧ (t.system.held ⟨[], 1⟩).get? 1 = some [10] ∧ (t.system.held ⟨[], 0⟩).get? 1 = none
    ∧ (t'.system.held ⟨[], 1⟩).get? 1 = some [10]
    ∧ ∀ id ∈ [2, 3], ∀ layer ∈ echoTwice.layers, t'.system.Knows layer.store id := by
  have hnested : echoSystem.Nested echoTwice.layers :=
    List.isChain_cons_cons.2 ⟨.refl _, .singleton _⟩
  have hleads : ∀ (t : Traffic Nat Nat) moves, Leads echoTwice (fun _ => True)
      (Elsewhere echoTwice.lock echoTwice.layers) t (t.play echoTwice moves) :=
    fun t _ => leads_play (elsewhere_passTo _ _) t fun _ _ => trivial
  obtain ⟨hnow, hgrows, -⟩ := layers_stay_nested roomy_echoTwice hnested (hleads _ givesUp)
    (hleads _ comesLater)
  obtain ⟨-, -, hknown⟩ := layers_stay_nested roomy_echoTwice hnested
    ((hleads _ givesUp).trans (hleads _ comesLater)) .refl
  have hinner : (((Traffic.start echoSystem).play echoTwice givesUp).system.held ⟨[], 1⟩).get? 1
      = some [10] := rfl
  have houter : (((Traffic.start echoSystem).play echoTwice givesUp).system.held ⟨[], 0⟩).get? 1
      = none := rfl
  have hreturned : ∃ m, .returned 1 [2, 3] (.ok m) ∈ (((Traffic.start echoSystem).play echoTwice
      givesUp).play echoTwice comesLater).history := ⟨_, List.mem_cons_self ..⟩
  obtain ⟨m, hm⟩ := hreturned
  have hlater := hgrows ⟨[], 1⟩ (by decide) 1 [10] hinner
  exact ⟨_, _, rfl, rfl, hnow, hinner, houter, hlater, hknown 1 [2, 3] m hm⟩

end Traffic

end Collate
