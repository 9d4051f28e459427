/-
What observers write down.

Whatever goes on reaches a store by a call of a layer, one in a step at most, and which call that is
can be told from what goes on before the step (`demand?`). A call that was made is a deed: when it
was made and through which layer, what was asked of the store and what the store answered. A step
changes the stores as its deed says and writes down what the observers of its deed are told, each of
them one line, the innermost first; of a deed that failed nobody is told. That is all a step does to
stores and to observers (`System.Bears`), and it is all that an account of a run needs.
-/
import Collate.Proofs.Observation
import Collate.Proofs.Feed.Status
import Collate.Proofs.Store.Loss

set_option autoImplicit false

namespace Collate

/-! ## 1. Calls of layers -/

/-- The kind of a call. -/
def StoreRequest.kind {κ ν : Type} : StoreRequest κ ν → Call
  | .get _ => .get
  | .put _ => .put
  | .remove _ => .remove
  | .update _ _ => .update

/-- The entries found, if anything was looked up. -/
def BatchReply.hits {κ ν : Type} : BatchReply κ ν → Entries κ ν
  | .found entries => entries
  | .removed _ => .empty
  | .written => .empty

variable {ι α : Type}

/-- A call that is to be made of a layer's store. -/
structure Demand (ι α : Type) where
  layer : Layer
  request : StoreRequest ι (List α)

/-- A call that was made, with the time and the answer. -/
structure Deed (ι α : Type) extends Demand ι α where
  time : Nat
  answer : Except String (BatchReply ι (List α))

namespace Deed

/-- What there is to write down of a call under a name: the hits of a lookup, and what any other
call was given. There is nothing if the call failed. -/
def report? (d : Deed ι α) (name : String) : Option (Occurrence ι α) :=
  match d.answer with
  | .error _ => none
  | .ok reply => some <| match d.request with
    | .get _ => .layerRead name reply.hits
    | .put entries => .layerWritten name entries
    | .remove ids => .layerRemoved name ids
    | .update entries removals => .layerUpdated name entries removals

/-- The line an observer writes of a call. -/
def line? (d : Deed ι α) (observer : Observer) : Option (LogLine ι α) :=
  (d.report? observer.name).map fun occurrence => ⟨observer.bucket, d.time, occurrence⟩

/-- What the observers of a call write. -/
def told (d : Deed ι α) : List (LogLine ι α) := (d.layer.observers d.request.kind).filterMap d.line?

theorem told_of_error {d : Deed ι α} {cause : String} (h : d.answer = .error cause) :
    d.told = [] := by
  refine List.filterMap_eq_nil_iff.2 fun observer _ => ?_
  simp [line?, report?, h]

theorem told_of_report {d : Deed ι α} {occurrence : String → Occurrence ι α}
    (h : ∀ name, d.report? name = some (occurrence name)) :
    d.told = (d.layer.observers d.request.kind).map fun observer =>
      ⟨observer.bucket, d.time, occurrence observer.name⟩ := by
  unfold told
  rw [← List.filterMap_eq_map]
  refine List.filterMap_congr fun observer _ => ?_
  simp [line?, h]

end Deed

namespace System

/-- What observers have written down, the earliest in front. -/
def reports (sys : System ι α) : List (LogLine ι α) :=
  (sys.log.filter fun line => line.occurrence.isReport).reverse

theorem reports_tell (sys : System ι α) (observers : List Observer)
    {occurrence : String → Occurrence ι α} (h : ∀ name, (occurrence name).isReport = true) :
    (sys.tell observers occurrence).reports = sys.reports ++ observers.map fun observer =>
      ⟨observer.bucket, sys.now, occurrence observer.name⟩ := by
  induction observers generalizing sys with
  | nil => simp [tell]
  | cons observer rest ih =>
    have hnote : (sys.note observer.bucket (occurrence observer.name)).reports
        = sys.reports ++ [⟨observer.bucket, sys.now, occurrence observer.name⟩] := by
      simp [reports, note, h]
    show ((sys.note observer.bucket (occurrence observer.name)).tell rest occurrence).reports = _
    rw [ih, hnote, List.append_assoc]
    rfl

variable [DecidableEq ι]

/-- What becomes of a call that is made now. -/
def deed (sys : System ι α) (d : Demand ι α) : Deed ι α :=
  { d with time := sys.now, answer := ((sys.stores.get d.layer.store).serve d.request).1 }

/-- The deed, if there is a call to be made. -/
def deeds (sys : System ι α) (demand? : Option (Demand ι α)) : List (Deed ι α) :=
  (demand?.map sys.deed).toList

/-- The stores after a call, if there is one. -/
def served (sys : System ι α) : Option (Demand ι α) → Table (Store ι (List α))
  | none => sys.stores
  | some d => sys.stores.set d.layer.store ((sys.stores.get d.layer.store).serve d.request).2

/-- Between two states there was a call, or none, and its observers have written it down. -/
structure Bears (demand? : Option (Demand ι α)) (sys sys' : System ι α) : Prop where
  stores : sys'.stores = sys.served demand?
  reports : sys'.reports = sys.reports ++ (sys.deeds demand?).flatMap Deed.told

namespace Bears

variable {sys sys' : System ι α} {demand? : Option (Demand ι α)}

theorem of_same (hstores : sys'.stores = sys.stores) (hreports : sys'.reports = sys.reports) :
    Bears none sys sys' :=
  ⟨hstores, by simp [hreports, deeds]⟩

/-- Giving back a lock behind a call is no other call. -/
theorem release (h : Bears demand? sys sys') (lock ticket : Nat) :
    Bears demand? sys (sys'.release lock ticket) := by
  obtain ⟨ready, _, hrelease⟩ := release_eq sys' lock ticket
  rw [hrelease]
  exact ⟨h.stores, h.reports⟩

/-- Nor is making a lifecycle known. -/
theorem publish (h : Bears demand? sys sys') (feed : Nat) (lifecycle : Lifecycle) :
    Bears demand? sys (sys'.publish feed lifecycle) := by
  obtain ⟨ready, hpublish⟩ := publish_eq sys' feed lifecycle
  rw [hpublish]
  exact ⟨h.stores, h.reports⟩

/-- Asking an origin is written down, but not by an observer. -/
theorem ask (sys : System ι α) (origin : Origin ι α) (ids : List ι) :
    Bears none sys (sys.ask origin ids).2 := by
  cases origin with
  | source number bucket key => exact of_same rfl rfl
  | fallback bucket delay answer => exact of_same rfl rfl

/-! ## 2. Calls -/

/-- Every call of a layer is made like this: the store is called, and if it does not fail the
observers of the call are told what there is to report. -/
theorem of_onStore {ρ : Type} (sys : System ι α) (d : Demand ι α)
    (call : Store ι (List α) → Except String ρ × Store ι (List α))
    {reply : ρ → BatchReply ι (List α)} (occurrence : ρ → String → Occurrence ι α)
    (hserve : ∀ store : Store ι (List α),
      store.serve d.request = ((call store).1.map reply, (call store).2))
    (hreport : ∀ r name time, (⟨d, time, .ok (reply r)⟩ : Deed ι α).report? name
      = some (occurrence r name))
    (hisReport : ∀ r name, (occurrence r name).isReport = true) :
    Bears (some d) sys (match sys.onStore d.layer.store call with
      | (.error _, sys') => sys'
      | (.ok r, sys') => sys'.tell (d.layer.observers d.request.kind) (occurrence r)) := by
  have hanswer : (sys.deed d).answer = (call (sys.stores.get d.layer.store)).1.map reply :=
    congrArg Prod.fst (hserve _)
  have hstores : sys.served (some d)
      = sys.stores.set d.layer.store (call (sys.stores.get d.layer.store)).2 := by
    rw [served, hserve]
  cases h : (call (sys.stores.get d.layer.store)).1 with
  | error cause =>
    rw [h] at hanswer
    rw [onStore_of_error h]
    refine ⟨hstores.symm, ?_⟩
    simp [deeds, Deed.told_of_error hanswer, System.reports]
  | ok r =>
    rw [h] at hanswer
    rw [onStore_of_ok h]
    dsimp only
    have hd : sys.deed d = ⟨d, sys.now, .ok (reply r)⟩ := by
      rw [← show _ = Except.ok (reply r) from hanswer]
      rfl
    refine ⟨?_, ?_⟩
    · obtain ⟨log, htell⟩ := tell_eq { sys with
        stores := sys.stores.set d.layer.store (call (sys.stores.get d.layer.store)).2 }
        (d.layer.observers d.request.kind) (occurrence r)
      rw [htell, hstores]
    · rw [reports_tell _ _ (hisReport r)]
      simp only [deeds, Option.map_some, Option.toList_some, List.flatMap_singleton, hd,
        Deed.told_of_report fun name => hreport r name sys.now]
      rfl

theorem read (sys : System ι α) (layer : Layer) (ids : List ι) :
    Bears (some ⟨layer, .get ids⟩) sys (sys.read layer ids).2 := by
  have h := of_onStore sys ⟨layer, .get ids⟩ (fun s => s.get ids)
    (fun hits name => .layerRead name hits)
    (fun _ => rfl) (fun _ _ _ => rfl) fun _ _ => rfl
  unfold System.read
  dsimp only at h
  generalize sys.onStore layer.store (fun s => s.get ids) = out at h ⊢
  obtain ⟨_ | hits, sys'⟩ := out <;> exact h

theorem write (sys : System ι α) (layer : Layer) (entries : Entries ι (List α)) :
    Bears (some ⟨layer, .put entries⟩) sys (sys.write layer entries).2 := by
  have h := of_onStore sys ⟨layer, .put entries⟩ (fun s => s.put entries)
    (fun _ name => .layerWritten name entries)
    (fun _ => rfl) (fun _ _ _ => rfl) fun _ _ => rfl
  unfold System.write
  dsimp only at h
  generalize sys.onStore layer.store (fun s => s.put entries) = out at h ⊢
  obtain ⟨_ | _, sys'⟩ := out <;> exact h

theorem remove (sys : System ι α) (layer : Layer) (ids : List ι) :
    Bears (some ⟨layer, .remove ids⟩) sys (sys.remove layer ids).2 := by
  have h := of_onStore sys ⟨layer, .remove ids⟩ (fun s => s.remove ids)
    (fun _ name => .layerRemoved name ids)
    (fun _ => rfl) (fun _ _ _ => rfl) fun _ _ => rfl
  unfold System.remove
  dsimp only at h
  generalize sys.onStore layer.store (fun s => s.remove ids) = out at h ⊢
  obtain ⟨_ | _, sys'⟩ := out <;> exact h

theorem update (sys : System ι α) (layer : Layer) (entries : Entries ι (List α))
    (removals : List ι) :
    Bears (some ⟨layer, .update entries removals⟩) sys (sys.update layer entries removals).2 := by
  have h := of_onStore sys ⟨layer, .update entries removals⟩
    (fun s => s.update entries removals) (fun _ name => .layerUpdated name entries removals)
    (fun _ => rfl) (fun _ _ _ => rfl) fun _ _ => rfl
  unfold System.update
  dsimp only at h
  generalize sys.onStore layer.store (fun s => s.update entries removals) = out at h ⊢
  obtain ⟨_ | _, sys'⟩ := out <;> exact h

end Bears

end System

/-! ## 3. Steps -/

/-- The call a lookup makes with its next step. -/
def Lookup.demand? (l : Lookup ι) : Option (Demand ι α) :=
  match l.awaiting with
  | [] => some ⟨l.layer, .get l.ids⟩
  | _ :: _ => none

theorem Lookup.demand?_of_ne_nil {l : Lookup ι} (h : l.awaiting ≠ []) :
    l.demand? = (none : Option (Demand ι α)) := by
  unfold demand?
  split
  · exact absurd ‹_› h
  · rfl

variable [DecidableEq ι]

/-- The call a walk makes with its next step. -/
def Walk.demand? : Walk ι α → Option (Demand ι α)
  | .descending lookup _ _ => lookup.demand?
  | .returning fetched (frame :: _) => some ⟨frame.layer, .put (writeBack frame fetched)⟩
  | _ => none

/-- The call a resolution makes with its next step. -/
def Resolution.demand? (r : Resolution ι α) : Option (Demand ι α) :=
  match r.phase with
  | .peeking lookup => lookup.demand?
  | .walking walk => walk.demand?
  | _ => none

omit [DecidableEq ι] in
/-- The call a consumer makes with its next step. -/
def Consumer.demand? (c : Consumer ι α) : Option (Demand ι α) :=
  match c.stage with
  | .reading lookup _ _ => lookup.demand?
  | .writing updates removals _ => some ⟨c.backing, .update updates removals⟩
  | _ => none

variable {sys sys' : System ι α}

theorem Lookup.Stepped.bears {l : Lookup ι}
    {p : Progress (Lookup ι) (Except Error (Found ι α))} (h : l.Stepped sys p sys') :
    System.Bears l.demand? sys sys' := by
  cases h with
  | stalls _ _ _ hw | watches _ _ _ hw | refused _ _ _ hw =>
    rw [demand?_of_ne_nil hw]
    exact .of_same rfl rfl
  | passes _ _ _ hw =>
    rw [demand?_of_ne_nil (by simp [hw])]
    exact .of_same rfl rfl
  | reads hw =>
    simp only [demand?, hw]
    exact .read sys l.layer l.ids

theorem Walk.Stepped.bears {origin : Origin ι α} {walk : Walk ι α}
    {p : Progress (Walk ι α) (Except Error (Entries ι (List α)))}
    (h : Walk.Stepped origin walk sys p sys') : System.Bears walk.demand? sys sys' := by
  cases h with
  | stalls h | looks h | unread h | found h hm | missed h hm => exact h.bears
  | spared | waits | failed | answered | done => exact .of_same rfl rfl
  | asked hids => exact .ask sys origin _
  | unwritten | written => exact .write _ _ _

theorem Resolution.Stepped.bears {r : Resolution ι α}
    {p : Progress (Resolution ι α) (Except Error (Entries ι (List α)))}
    (h : r.Stepped sys p sys') : System.Bears r.demand? sys sys' := by
  cases h with
  | queues hp | shares hp | overshoots hp | lingers hp | enters hp =>
    simp only [demand?, hp]
    exact .of_same rfl rfl
  | stalls hp h | looks hp h =>
    simp only [demand?, hp]
    exact h.bears
  | unread hp h | found hp h | missed hp h =>
    simp only [demand?, hp]
    exact h.bears.release ..
  | rests hp h | walks hp h =>
    simp only [demand?, hp]
    exact h.bears
  | ends hp h =>
    simp only [demand?, hp]
    exact h.bears.release ..

theorem Consumer.Stepped.bears {c c' : Consumer ι α} {window? : Option (List (FeedItem α))}
    {isApplied : Bool} (h : c.Stepped sys window? isApplied c' sys') :
    System.Bears c.demand? sys sys' := by
  have hlookup : ∀ lookup : Lookup ι, System.Bears lookup.demand? sys (lookup.step sys).2 :=
    fun lookup => (lookup.stepped sys).bears
  have hnone : System.Bears none sys sys := .of_same rfl rfl
  cases h with
  | sleeps hstage | gathers hstage | accepts hstage | rests hstage =>
    simp only [demand?, hstage]
    exact hnone
  | completes hstage =>
    simp only [demand?, hstage]
    exact hnone.publish ..
  | stalls hstage | looks hstage | read hstage =>
    simp only [demand?, hstage]
    exact hlookup _
  | unread hstage =>
    simp only [demand?, hstage]
    exact (hlookup _).publish ..
  | unwritten hstage =>
    simp only [demand?, hstage]
    exact (System.Bears.update ..).publish ..
  | written hstage =>
    simp only [demand?, hstage]
    exact .update ..
  | publishes hstage =>
    simp only [demand?, hstage]
    split
    · exact hnone
    · exact hnone.publish ..

end Collate
