/-
What resolutions do, act by act.

A resolution does three things to the world outside itself: it looks into layers, it writes layers,
and it asks its origin. Each of these is the work of one step and is named here by what it finds, so
that a run can be told as the list of acts of each of its resolutions. Nothing escapes the list:
stores are reached and sources are called by acts alone.

In a run any number of resolutions go along one path, in any interleaving, and anything may happen
to the shared state in between.
-/
import Collate.Proofs.Traffic
import Collate.Proofs.Reports

set_option autoImplicit false

namespace Collate

variable {ι α : Type}

/-! ## 1. Acts -/

/-- What a resolution does to layers and to what is behind them. -/
inductive Act (ι α : Type) where
  /-- A lookup in a layer comes to its end, by a failure or not; `held` is what the layer's store
  holds at that moment. -/
  | looked (layer : Layer) (held : Entries ι (List α)) (failure? : Option Error)
  /-- A layer is to be given entries on the way back. -/
  | wrote (layer : Layer) (entries : Entries ι (List α))
  /-- The origin is asked. -/
  | asked (ids : List ι)

namespace Act

/-- Whether it reaches the store. -/
def Reaches (n : Nat) : Act ι α → Prop
  | .looked layer _ _ => layer.store = n
  | .wrote layer _ => layer.store = n
  | .asked _ => False

/-- Whether it is a look into a layer that failed. -/
def IsFailure (e : Error) : Act ι α → Prop
  | .looked _ _ failure? => failure? = some e
  | _ => False

/-- Whether a layer is written. -/
def IsWrite : Act ι α → Prop
  | .wrote _ _ => True
  | _ => False

end Act

variable [DecidableEq ι]

/-- The act of a lookup's next step, which is one only if it is the last. -/
def Lookup.act? (l : Lookup ι) (sys : System ι α) : Option (Act ι α) :=
  match (l.step sys).1 with
  | .finished (.ok _) =>
    some (.looked l.layer (sys.stores.get l.layer.store).shelf.contents none)
  | .finished (.error e) =>
    some (.looked l.layer (sys.stores.get l.layer.store).shelf.contents (some e))
  | _ => none

/-- The act of a walk's next step. -/
def Walk.act? (walk : Walk ι α) (sys : System ι α) : Option (Act ι α) :=
  match walk with
  | .descending lookup _ _ => lookup.act? sys
  | .asking (id :: rest) _ => some (.asked (id :: rest))
  | .returning fetched (frame :: _) => some (.wrote frame.layer (writeBack frame fetched))
  | _ => none

/-- The act of a resolution's next step. -/
def Resolution.act? (r : Resolution ι α) (sys : System ι α) : Option (Act ι α) :=
  match r.phase with
  | .peeking lookup => lookup.act? sys
  | .walking walk => walk.act? sys
  | _ => none

theorem Lookup.act?_read {l : Lookup ι} (h : l.awaiting = []) (sys : System ι α) :
    ∃ failure?, l.act? sys
      = some (.looked l.layer (sys.stores.get l.layer.store).shelf.contents failure?) := by
  unfold act?
  rw [step_read h]
  cases (sys.read l.layer l.ids).1 with
  | error e => exact ⟨some e, rfl⟩
  | ok found => exact ⟨none, rfl⟩

/-- Whatever call a step makes of a store, it is the work of an act. -/
theorem Lookup.exists_act {l : Lookup ι} {d : Demand ι α} (h : l.demand? = some d)
    (sys : System ι α) : ∃ act ∈ l.act? sys, act.Reaches d.layer.store := by
  unfold demand? at h
  split at h
  · rename_i hw
    cases h
    obtain ⟨failure?, hact⟩ := l.act?_read hw sys
    exact ⟨_, hact, rfl⟩
  · cases h

theorem Walk.exists_act {walk : Walk ι α} {d : Demand ι α} (h : walk.demand? = some d)
    (sys : System ι α) : ∃ act ∈ walk.act? sys, act.Reaches d.layer.store := by
  cases walk with
  | descending lookup => exact lookup.exists_act h sys
  | asking | waiting => cases h
  | returning fetched frames =>
    cases frames with
    | nil => cases h
    | cons frame frames =>
      cases h
      exact ⟨_, rfl, rfl⟩

namespace Resolution

theorem exists_act {r : Resolution ι α} {d : Demand ι α} (h : r.demand? = some d)
    (sys : System ι α) : ∃ act ∈ r.act? sys, act.Reaches d.layer.store := by
  obtain ⟨path, ids, ticket, phase⟩ := r
  cases phase with
  | wantsShared | wantsExclusive => cases h
  | peeking lookup => exact lookup.exists_act h sys
  | walking walk => exact walk.exists_act h sys

/-- **A store is reached by acts alone**: what no act of the step reaches is as it was. -/
theorem stores_step (r : Resolution ι α) (sys : System ι α) {n : Nat}
    (hn : ∀ act ∈ r.act? sys, ¬act.Reaches n) :
    (r.step sys).2.stores.get n = sys.stores.get n := by
  rw [(r.stepped sys).bears.stores]
  cases hd : r.demand? with
  | none => rfl
  | some d =>
    obtain ⟨act, hact, hreaches⟩ := exists_act hd sys
    exact Table.get_set_ne _ _ fun hne => hn act hact (hne ▸ hreaches)

/-- **A source is called by acts alone.** -/
theorem sources_step_of_act (r : Resolution ι α) (sys : System ι α)
    (hr : ∀ ids, r.act? sys ≠ some (.asked ids)) : (r.step sys).2.sources = sys.sources := by
  rw [sources_step]
  cases hasks : r.asks with
  | none => rfl
  | some ids =>
    refine absurd ?_ (hr ids)
    unfold asks at hasks
    split at hasks
    · rename_i walk hp
      unfold Walk.asks at hasks
      split at hasks
      · obtain rfl := Option.some.inj hasks
        simp only [act?, hp, Walk.act?]
      · cases hasks
    · cases hasks

end Resolution

/-! ## 2. Resolutions and what they do -/

/-- A resolution under way and its acts so far, the latest in front. -/
structure Errand (ι α : Type) where
  resolution : Resolution ι α
  acts : List (Act ι α)

/-- Its acts after the next step. -/
def Errand.actsAfter (e : Errand ι α) (sys : System ι α) : List (Act ι α) :=
  (e.resolution.act? sys).toList ++ e.acts

/-- What a resolution that has ended was for, its acts, and how it ended. -/
structure Account (ι α : Type) where
  ids : List ι
  acts : List (Act ι α)
  result : Except Error (Entries ι (List α))

/-- The resolutions under way, the state they share with everything else, and accounts of those that
have ended. -/
structure Errands (ι α : Type) where
  underway : List (Errand ι α)
  system : System ι α
  accounts : List (Account ι α)

namespace Errands

/-- Nobody is under way. -/
def start (sys : System ι α) : Errands ι α := ⟨[], sys, []⟩

/-- What happens next. -/
inductive Move (ι α : Type) where
  | begin (ids : List ι)
  /-- The resolution at this place takes a step. -/
  | step (place : Nat)
  /-- The resolution at this place is dropped. -/
  | drop (place : Nat)
  /-- Something else happens in the shared state, whatever it is. -/
  | beside (change : System ι α → System ι α)

/-- The errands after a move. -/
def after (path : Path ι α) (t : Errands ι α) : Move ι α → Errands ι α
  | .begin ids =>
    let (r, sys) := Resolution.start path ids t.system
    ⟨t.underway ++ [⟨r, []⟩], sys, t.accounts⟩
  | .step place =>
    match t.underway[place]? with
    | none => t
    | some e =>
      let acts := e.actsAfter t.system
      match e.resolution.step t.system with
      | (.blocked, sys) => ⟨t.underway.set place ⟨e.resolution, acts⟩, sys, t.accounts⟩
      | (.going r, sys) => ⟨t.underway.set place ⟨r, acts⟩, sys, t.accounts⟩
      | (.finished result, sys) =>
        ⟨t.underway.eraseIdx place, sys, ⟨e.resolution.ids, acts, result⟩ :: t.accounts⟩
  | .drop place =>
    match t.underway[place]? with
    | none => t
    | some e => ⟨t.underway.eraseIdx place, e.resolution.cancel t.system, t.accounts⟩
  | .beside change => ⟨t.underway, change t.system, t.accounts⟩

/-- The errands after all moves of a run. -/
def play (path : Path ι α) (t : Errands ι α) (moves : List (Move ι α)) : Errands ι α :=
  moves.foldl (after path) t

end Errands

end Collate
