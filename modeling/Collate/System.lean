/-
What everything that goes on shares: the time, the stores, the sources, the locks, what is known of
the feeds, and the log. The calls of a layer are defined here. Each is one indivisible step: the
store's call and what the observers write down about it.

`read`, `write`, `remove` and `update` are `get_all`, `put_all`, `remove_all` and `update_all` of a
`Cache`: a `StoreCache`, every `ObservableCache` around it, and every `AutoCache`, whose wait before
it is read is in `Collate.Lookup`. `Found` is what `get_all` gives.
-/
import Collate.Error
import Collate.Table
import Collate.Lock
import Collate.Store
import Collate.Source
import Collate.Layer
import Collate.Feed.Lifecycle

set_option autoImplicit false

namespace Collate

/-- Something that happened and was written down. -/
inductive Occurrence (ι α : Type) where
  /-- A data source was called. -/
  | sourceCalled (ids : List ι)
  /-- The fallback handed to a single layer was called. -/
  | fallbackCalled (ids : List ι)
  /-- A layer was read; `hits` is what it held. -/
  | layerRead (name : String) (hits : Entries ι (List α))
  /-- Entries were written to a layer. -/
  | layerWritten (name : String) (entries : Entries ι (List α))
  /-- Ids were removed from a layer. -/
  | layerRemoved (name : String) (ids : List ι)
  /-- Entries were written and ids removed as one. -/
  | layerUpdated (name : String) (entries : Entries ι (List α)) (removals : List ι)

/-- One line of the log. -/
structure LogLine (ι α : Type) where
  bucket : Nat
  time : Nat
  occurrence : Occurrence ι α

/-- The shared state. -/
structure System (ι α : Type) where
  /-- The time. -/
  now : Nat := 0
  stores : Table (Store ι (List α)) := .filled .fresh
  sources : Table (Source ι α) := .filled default
  locks : Table Lock := .filled {}
  feeds : Table FeedStatus := .filled {}
  /-- How many tickets were given out. -/
  tickets : Nat := 0
  /-- Whose turn it is. -/
  strand : Strand := .step
  /-- The ticket of the turn. -/
  turn : Nat := 0
  /-- Those who were called and did not go on yet, first come first. -/
  ready : List Strand := []
  /-- What was written down, the latest in front. -/
  log : List (LogLine ι α) := []

/-- What a layer holds of the ids asked for, and what has to be looked for elsewhere. -/
structure Found (ι α : Type) where
  hits : Entries ι (List α)
  misses : List ι

namespace System

variable {ι α : Type}

instance : Inhabited (System ι α) := ⟨{}⟩

/-! ## 1. Log and tickets -/

/-- Writes down what happens now. -/
def note (sys : System ι α) (bucket : Nat) (occurrence : Occurrence ι α) : System ι α :=
  { sys with log := ⟨bucket, sys.now, occurrence⟩ :: sys.log }

/-- Writes the same thing down for several observers, one after the other. -/
def tell (sys : System ι α) (observers : List Observer) (occurrence : String → Occurrence ι α) :
    System ι α :=
  observers.foldl (fun sys observer => sys.note observer.bucket (occurrence observer.name)) sys

/-- Gives out a ticket. -/
def ticket (sys : System ι α) : Nat × System ι α :=
  (sys.tickets, { sys with tickets := sys.tickets + 1 })

/-! ## 2. Turns -/

/-- Gives a strand its turn. -/
def beginTurn (sys : System ι α) (strand : Strand) : System ι α :=
  let (turn, sys) := sys.ticket
  { sys with strand := strand, turn := turn }

/-- An alarm of the strand whose turn it is. -/
def alarm (sys : System ι α) (due : Nat) : Alarm := ⟨due, sys.turn, sys.strand⟩

/-- Calls a strand. One that was called already keeps its place. -/
def rouse (sys : System ι α) (strand : Strand) : System ι α :=
  if strand ∈ sys.ready then sys else { sys with ready := sys.ready ++ [strand] }

@[simp] theorem mem_ready_rouse {sys : System ι α} {strand other : Strand} :
    other ∈ (sys.rouse strand).ready ↔ other ∈ sys.ready ∨ other = strand := by
  unfold rouse
  split
  · rename_i h
    exact ⟨Or.inl, fun ho => ho.elim id fun he => he ▸ h⟩
  · simp

/-- Calls strands, one after the other. -/
def rouseAll (sys : System ι α) (strands : List Strand) : System ι α := strands.foldl rouse sys

/-- Takes a strand off the list of those called. -/
def forget (sys : System ι α) (strand : Strand) : System ι α :=
  { sys with ready := sys.ready.erase strand }

/-- Which of some strands goes on: the one that was called first. It counts as called no more. -/
def takeReady (sys : System ι α) (mine : Strand → Bool) : Option Strand × System ι α :=
  match sys.ready.find? mine with
  | some strand => (some strand, sys.forget strand)
  | none => (none, sys)

/-- Whether the step is to go on, itself or one of its windows. -/
def stepIsCalled (sys : System ι α) : Bool := sys.ready.any fun strand => !strand.isConsumer

/-- Moves on to a time at which alarms ring. -/
def moveTo (sys : System ι α) (time : Nat) (alarms : List Alarm) : System ι α :=
  { sys with now := time }.rouseAll (Alarm.ringing time alarms)

/-! ## 3. Locks and feeds -/

/-- Asks for a lock; says whether the ticket holds it now. -/
def acquire (sys : System ι α) (lock ticket : Nat) (hold : Hold) : Bool × System ι α :=
  let l := (sys.locks.get lock).ensureRequested ⟨ticket, hold, sys.strand⟩
  (l.holds ticket, { sys with locks := sys.locks.set lock l })

/-- Gives a lock back, or stops waiting for it, and calls those who hold it now. -/
def release (sys : System ι α) (lock ticket : Nat) : System ι α :=
  let before := sys.locks.get lock
  let after := before.release ticket
  { sys with locks := sys.locks.set lock after }.rouseAll (before.admitted after)

/-- Subscribes a feed if that did not happen yet, and calls its consumer. -/
def subscribe (sys : System ι α) (ref : FeedRef) : System ι α :=
  match (sys.feeds.get ref.feed).lifecycle with
  | .unstarted =>
    { sys with feeds := sys.feeds.update ref.feed fun f => f.subscribe sys.now ref.initTimeout
      }.rouse (.consumer ref.feed)
  | _ => sys

/-- Makes the lifecycle of a feed known to those who wait for it. -/
def publish (sys : System ι α) (feed : Nat) (lifecycle : Lifecycle) : System ι α :=
  let watchers := (sys.feeds.get feed).watchers
  { sys with
    feeds := sys.feeds.update feed fun f => { f with lifecycle := lifecycle, watchers := [] }
    }.rouseAll watchers

/-- The strand whose turn it is will be called when the lifecycle of a feed changes. -/
def watch (sys : System ι α) (feed : Nat) : System ι α :=
  { sys with feeds := sys.feeds.update feed fun f =>
      if sys.strand ∈ f.watchers then f else { f with watchers := f.watchers ++ [sys.strand] } }

/-- A strand does not wait for a feed any more. The step may have other reasons to, and to call it
once too often does no harm. -/
def unwatch (sys : System ι α) (feed : Nat) (strand : Strand) : System ι α :=
  match strand with
  | .step => sys
  | _ => { sys with feeds := sys.feeds.update feed fun f =>
      { f with watchers := f.watchers.erase strand } }

/-! ## 4. Calls of a store and of a layer -/

/-- Makes a call of a store; a text with which it fails becomes the failure of the layer. -/
def onStore {ρ : Type} (sys : System ι α) (store : Nat)
    (call : Store ι (List α) → Except String ρ × Store ι (List α)) : Except Error ρ × System ι α :=
  let (result, changed) := call (sys.stores.get store)
  (result.mapError .store, { sys with stores := sys.stores.set store changed })

variable [DecidableEq ι]

/-- Reads a layer's store. The misses of a layer with a feed do not exist. -/
def read (sys : System ι α) (layer : Layer) (ids : List ι) :
    Except Error (Found ι α) × System ι α :=
  match sys.onStore layer.store fun s => s.get ids with
  | (.error e, sys) => (.error e, sys)
  | (.ok hits, sys) =>
    -- An id asked for twice and not held is missed twice.
    let misses := if layer.isAuthoritative then [] else ids.filter fun id => !hits.contains id
    (.ok ⟨hits, misses⟩, sys.tell (layer.observers .get) fun name => .layerRead name hits)

/-- Writes entries to a layer. -/
def write (sys : System ι α) (layer : Layer) (entries : Entries ι (List α)) :
    Except Error Unit × System ι α :=
  match sys.onStore layer.store fun s => s.put entries with
  | (.error e, sys) => (.error e, sys)
  | (.ok _, sys) =>
    (.ok (), sys.tell (layer.observers .put) fun name => .layerWritten name entries)

/-- Removes ids from a layer. -/
def remove (sys : System ι α) (layer : Layer) (ids : List ι) : Except Error Unit × System ι α :=
  match sys.onStore layer.store fun s => s.remove ids with
  | (.error e, sys) => (.error e, sys)
  | (.ok _, sys) =>
    (.ok (), sys.tell (layer.observers .remove) fun name => .layerRemoved name ids)

/-- Writes entries to a layer and removes ids from it, as one. -/
def update (sys : System ι α) (layer : Layer) (entries : Entries ι (List α)) (removals : List ι) :
    Except Error Unit × System ι α :=
  match sys.onStore layer.store fun s => s.update entries removals with
  | (.error e, sys) => (.error e, sys)
  | (.ok _, sys) =>
    (.ok (), sys.tell (layer.observers .update) fun name => .layerUpdated name entries removals)

end System

end Collate
