/-
What the calls of a layer and the steps of a lookup do to the shared state.

Reading or writing a layer reaches one store and the log; waiting for feeds reaches what is known of
feeds and the list of those called. All else is the same afterwards. These frames are stated as
equations of the whole state, so that what a reader wants to know of locks, tickets or other stores
follows by looking at the equation.
-/
import Collate.Lookup
import Collate.Proofs.Contents

set_option autoImplicit false

namespace Collate

variable {ι α : Type}

namespace System

/-! ## 1. Telling and calling -/

theorem tell_eq (sys : System ι α) (observers : List Observer)
    (occurrence : String → Occurrence ι α) :
    ∃ log, sys.tell observers occurrence = { sys with log := log } := by
  induction observers generalizing sys with
  | nil => exact ⟨sys.log, rfl⟩
  | cons observer rest ih =>
    obtain ⟨log, hlog⟩ := ih (sys.note observer.bucket (occurrence observer.name))
    exact ⟨log, hlog⟩

theorem rouse_eq (sys : System ι α) (strand : Strand) :
    ∃ ready, (∀ other, other ∈ ready ↔ other ∈ sys.ready ∨ other = strand)
      ∧ sys.rouse strand = { sys with ready := ready } := by
  refine ⟨(sys.rouse strand).ready, fun other => mem_ready_rouse, ?_⟩
  unfold rouse
  split <;> rfl

theorem rouseAll_eq (sys : System ι α) (strands : List Strand) :
    ∃ ready, (∀ other, other ∈ ready ↔ other ∈ sys.ready ∨ other ∈ strands)
      ∧ sys.rouseAll strands = { sys with ready := ready } := by
  induction strands generalizing sys with
  | nil => exact ⟨sys.ready, by simp, rfl⟩
  | cons strand rest ih =>
    obtain ⟨ready, hmem, hready⟩ := rouse_eq sys strand
    obtain ⟨ready', hmem', hready'⟩ := ih { sys with ready := ready }
    refine ⟨ready', fun other => ?_, ?_⟩
    · rw [hmem', hmem, List.mem_cons, or_assoc]
    · rw [show sys.rouseAll (strand :: rest) = (sys.rouse strand).rouseAll rest from rfl, hready,
        hready']

theorem publish_eq (sys : System ι α) (feed : Nat) (lifecycle : Lifecycle) :
    ∃ ready, sys.publish feed lifecycle = { sys with
      feeds := sys.feeds.update feed fun f => { f with lifecycle := lifecycle, watchers := [] }
      ready := ready } := by
  obtain ⟨ready, _, h⟩ := rouseAll_eq { sys with
    feeds := sys.feeds.update feed fun f => { f with lifecycle := lifecycle, watchers := [] } }
    (sys.feeds.get feed).watchers
  exact ⟨ready, h⟩

@[simp] theorem stores_publish (sys : System ι α) (feed : Nat) (lifecycle : Lifecycle) :
    (sys.publish feed lifecycle).stores = sys.stores := by
  obtain ⟨ready, h⟩ := publish_eq sys feed lifecycle
  rw [h]

@[simp] theorem lifecycle_publish (sys : System ι α) (feed : Nat) (lifecycle : Lifecycle) :
    ((sys.publish feed lifecycle).feeds.get feed).lifecycle = lifecycle := by
  obtain ⟨ready, h⟩ := publish_eq sys feed lifecycle
  rw [h]
  simp [Table.update]

/-! ## 2. Calls of a store -/

/-- The states before and after a call of store `n`: the log and that store may differ, and how the
store answers is the same. -/
structure Called (n : Nat) (sys sys' : System ι α) : Prop where
  frame : ∃ stores log, sys' = { sys with stores := stores, log := log }
  others : ∀ m, m ≠ n → sys'.stores.get m = sys.stores.get m
  faults : (sys'.stores.get n).faults = (sys.stores.get n).faults

theorem called_of_set {sys : System ι α} {n : Nat} {store : Store ι (List α)}
    (h : store.faults = (sys.stores.get n).faults) (log : List (LogLine ι α)) :
    Called n sys { sys with stores := sys.stores.set n store, log := log } where
  frame := ⟨_, _, rfl⟩
  others m hm := Table.get_set_ne _ _ hm
  faults := by rw [← h]; simp

variable [DecidableEq ι]

omit [DecidableEq ι] in
theorem onStore_of_error {ρ : Type} {sys : System ι α} {store : Nat}
    {call : Store ι (List α) → Except String ρ × Store ι (List α)} {cause : String}
    (h : (call (sys.stores.get store)).1 = .error cause) :
    sys.onStore store call = (.error (.store cause),
      { sys with stores := sys.stores.set store (call (sys.stores.get store)).2 }) := by
  unfold onStore
  dsimp only
  rw [h]
  rfl

omit [DecidableEq ι] in
theorem onStore_of_ok {ρ : Type} {sys : System ι α} {store : Nat}
    {call : Store ι (List α) → Except String ρ × Store ι (List α)} {answer : ρ}
    (h : (call (sys.stores.get store)).1 = .ok answer) :
    sys.onStore store call = (.ok answer,
      { sys with stores := sys.stores.set store (call (sys.stores.get store)).2 }) := by
  unfold onStore
  dsimp only
  rw [h]
  rfl

theorem read_eq (sys : System ι α) (layer : Layer) (ids : List ι) :
    ∃ log, (sys.read layer ids).2 = { sys with
      stores := sys.stores.set layer.store ((sys.stores.get layer.store).get ids).2, log := log } := by
  unfold read
  cases h : ((sys.stores.get layer.store).get ids).1 with
  | error cause =>
    rw [onStore_of_error h]
    exact ⟨sys.log, rfl⟩
  | ok hits =>
    rw [onStore_of_ok h]
    dsimp only
    exact tell_eq _ _ _

theorem write_eq (sys : System ι α) (layer : Layer) (entries : Entries ι (List α)) :
    ∃ log, (sys.write layer entries).2 = { sys with
      stores := sys.stores.set layer.store ((sys.stores.get layer.store).put entries).2
      log := log } := by
  unfold write
  cases h : ((sys.stores.get layer.store).put entries).1 with
  | error cause =>
    rw [onStore_of_error h]
    exact ⟨sys.log, rfl⟩
  | ok _ =>
    rw [onStore_of_ok h]
    dsimp only
    exact tell_eq _ _ _

theorem update_eq (sys : System ι α) (layer : Layer) (entries : Entries ι (List α))
    (removals : List ι) :
    ∃ log, (sys.update layer entries removals).2 = { sys with
      stores := sys.stores.set layer.store ((sys.stores.get layer.store).update entries removals).2
      log := log } := by
  unfold update
  cases h : ((sys.stores.get layer.store).update entries removals).1 with
  | error cause =>
    rw [onStore_of_error h]
    exact ⟨sys.log, rfl⟩
  | ok _ =>
    rw [onStore_of_ok h]
    dsimp only
    exact tell_eq _ _ _

/-! ## 3. Calls of a layer -/

theorem read_called (sys : System ι α) (layer : Layer) (ids : List ι) :
    Called layer.store sys (sys.read layer ids).2 := by
  obtain ⟨log, h⟩ := read_eq sys layer ids
  rw [h]
  exact called_of_set (Store.faults_attempt _ _ _) log

theorem write_called (sys : System ι α) (layer : Layer) (entries : Entries ι (List α)) :
    Called layer.store sys (sys.write layer entries).2 := by
  obtain ⟨log, h⟩ := write_eq sys layer entries
  rw [h]
  exact called_of_set (Store.faults_attempt _ _ _) log

theorem update_called (sys : System ι α) (layer : Layer) (entries : Entries ι (List α))
    (removals : List ι) : Called layer.store sys (sys.update layer entries removals).2 := by
  obtain ⟨log, h⟩ := update_eq sys layer entries removals
  rw [h]
  exact called_of_set (Store.faults_attempt _ _ _) log

/-- What a layer with these hits has to look for elsewhere. -/
def missesOf (layer : Layer) (ids : List ι) (hits : Entries ι (List α)) : List ι :=
  if layer.isAuthoritative then [] else ids.filter fun id => !hits.contains id

theorem read_fst (sys : System ι α) (layer : Layer) (ids : List ι) :
    (sys.read layer ids).1 = match ((sys.stores.get layer.store).get ids).1 with
      | .error cause => .error (.store cause)
      | .ok hits => .ok ⟨hits, missesOf layer ids hits⟩ := by
  unfold read
  cases h : ((sys.stores.get layer.store).get ids).1 with
  | error cause => rw [onStore_of_error h]
  | ok hits =>
    rw [onStore_of_ok h]
    rfl

theorem write_fst (sys : System ι α) (layer : Layer) (entries : Entries ι (List α)) :
    (sys.write layer entries).1
      = ((sys.stores.get layer.store).put entries).1.mapError Error.store := by
  unfold write
  cases h : ((sys.stores.get layer.store).put entries).1 with
  | error cause =>
    rw [onStore_of_error h]
    rfl
  | ok _ =>
    rw [onStore_of_ok h]
    rfl

theorem update_fst (sys : System ι α) (layer : Layer) (entries : Entries ι (List α))
    (removals : List ι) :
    (sys.update layer entries removals).1
      = ((sys.stores.get layer.store).update entries removals).1.mapError Error.store := by
  unfold update
  cases h : ((sys.stores.get layer.store).update entries removals).1 with
  | error cause =>
    rw [onStore_of_error h]
    rfl
  | ok _ =>
    rw [onStore_of_ok h]
    rfl

/-- A read fails and changes no shelf, or it looks the ids up on the layer's shelf. -/
theorem read_cases (sys : System ι α) (layer : Layer) (ids : List ι) :
    (∃ cause, (sys.read layer ids).1 = .error (.store cause)
      ∧ ((sys.read layer ids).2.stores.get layer.store).shelf
        = (sys.stores.get layer.store).shelf)
    ∨ ((sys.read layer ids).1
        = .ok ⟨((sys.stores.get layer.store).shelf.get ids).1,
            missesOf layer ids ((sys.stores.get layer.store).shelf.get ids).1⟩
      ∧ ((sys.read layer ids).2.stores.get layer.store).shelf
        = ((sys.stores.get layer.store).shelf.get ids).2) := by
  obtain ⟨log, h⟩ := read_eq sys layer ids
  rw [read_fst, h]
  rcases Store.attempt_cases (sys.stores.get layer.store) .get (fun _ shelf => shelf.get ids) with
    ⟨cause, h₁, h₂⟩ | ⟨n, h₁, h₂⟩
  · refine Or.inl ⟨cause, ?_, ?_⟩
    · rw [Store.get, h₁]
    · rw [Store.get, Table.get_set_self, h₂]
  · refine Or.inr ⟨?_, ?_⟩
    · rw [Store.get, h₁]
    · rw [Store.get, Table.get_set_self, h₂]

/-- A write fails and changes no shelf, or it puts the entries on the layer's shelf in some order. -/
theorem write_cases (sys : System ι α) (layer : Layer) (entries : Entries ι (List α)) :
    (∃ cause, (sys.write layer entries).1 = .error (.store cause)
      ∧ ((sys.write layer entries).2.stores.get layer.store).shelf
        = (sys.stores.get layer.store).shelf)
    ∨ ∃ batch, batch.Perm entries.pairs ∧ (sys.write layer entries).1 = .ok ()
      ∧ ((sys.write layer entries).2.stores.get layer.store).shelf
        = (sys.stores.get layer.store).shelf.put batch := by
  obtain ⟨log, h⟩ := write_eq sys layer entries
  rw [write_fst, h]
  rcases Store.attempt_cases (sys.stores.get layer.store) .put (fun n shelf =>
    ((), shelf.put ((sys.stores.get layer.store).order.arrange n entries.pairs))) with
    ⟨cause, h₁, h₂⟩ | ⟨n, h₁, h₂⟩
  · refine Or.inl ⟨cause, ?_, ?_⟩
    · rw [Store.put, h₁]
      rfl
    · rw [Store.put, Table.get_set_self, h₂]
  · refine Or.inr ⟨_, (sys.stores.get layer.store).order.perm n entries.pairs, ?_, ?_⟩
    · rw [Store.put, h₁]
      rfl
    · rw [Store.put, Table.get_set_self, h₂]

/-- An update fails and changes no shelf, or it removes the ids from the layer's shelf and puts the
entries on it in some order. -/
theorem update_cases (sys : System ι α) (layer : Layer) (entries : Entries ι (List α))
    (removals : List ι) :
    (∃ cause, (sys.update layer entries removals).1 = .error (.store cause)
      ∧ ((sys.update layer entries removals).2.stores.get layer.store).shelf
        = (sys.stores.get layer.store).shelf)
    ∨ ∃ batch, batch.Perm entries.pairs ∧ (sys.update layer entries removals).1 = .ok ()
      ∧ ((sys.update layer entries removals).2.stores.get layer.store).shelf
        = (sys.stores.get layer.store).shelf.update batch removals := by
  obtain ⟨log, h⟩ := update_eq sys layer entries removals
  rw [update_fst, h]
  rcases Store.attempt_cases (sys.stores.get layer.store) .update (fun n shelf =>
    ((), shelf.update ((sys.stores.get layer.store).order.arrange n entries.pairs) removals)) with
    ⟨cause, h₁, h₂⟩ | ⟨n, h₁, h₂⟩
  · refine Or.inl ⟨cause, ?_, ?_⟩
    · rw [Store.update, h₁]
      rfl
    · rw [Store.update, Table.get_set_self, h₂]
  · refine Or.inr ⟨_, (sys.stores.get layer.store).order.perm n entries.pairs, ?_, ?_⟩
    · rw [Store.update, h₁]
      rfl
    · rw [Store.update, Table.get_set_self, h₂]

theorem write_ok {sys : System ι α} {layer : Layer}
    (h : (sys.stores.get layer.store).Faultless) (entries : Entries ι (List α)) :
    (sys.write layer entries).1 = .ok () := by
  rw [write_fst, Store.put]
  obtain ⟨n, h₁, _⟩ := Store.attempt_ok h .put (fun n shelf =>
    ((), shelf.put ((sys.stores.get layer.store).order.arrange n entries.pairs)))
  rw [h₁]
  rfl

theorem update_ok {sys : System ι α} {layer : Layer}
    (h : (sys.stores.get layer.store).Faultless) (entries : Entries ι (List α))
    (removals : List ι) : (sys.update layer entries removals).1 = .ok () := by
  rw [update_fst, Store.update]
  obtain ⟨n, h₁, _⟩ := Store.attempt_ok h .update (fun n shelf =>
    ((), shelf.update ((sys.stores.get layer.store).order.arrange n entries.pairs) removals))
  rw [h₁]
  rfl

theorem read_ok {sys : System ι α} {layer : Layer}
    (h : (sys.stores.get layer.store).Faultless) (ids : List ι) :
    ∃ found, (sys.read layer ids).1 = .ok found := by
  obtain ⟨n, h₁, _⟩ := Store.attempt_ok h .get (fun _ shelf => shelf.get ids)
  rw [read_fst, Store.get, h₁]
  exact ⟨_, rfl⟩

end System

/-! ## 4. Steps of a lookup -/

namespace Lookup

/-- Subscribing changes what is known of feeds, and may call somebody. -/
theorem subscribe_eq (sys : System ι α) (ref : FeedRef) :
    ∃ feeds ready, sys.ready ⊆ ready
      ∧ sys.subscribe ref = { sys with feeds := feeds, ready := ready } := by
  unfold System.subscribe
  split
  · obtain ⟨ready, hmem, h⟩ := System.rouse_eq { sys with
      feeds := sys.feeds.update ref.feed fun f => f.subscribe sys.now ref.initTimeout }
      (.consumer ref.feed)
    exact ⟨_, ready, fun strand hs => (hmem strand).2 (Or.inl hs), h⟩
  · exact ⟨sys.feeds, sys.ready, fun _ h => h, rfl⟩

theorem unwatch_eq (l : Lookup ι) (sys : System ι α) :
    ∃ feeds, l.unwatch sys = { sys with feeds := feeds } := by
  unfold Lookup.unwatch
  split
  · unfold System.unwatch
    split
    · exact ⟨sys.feeds, rfl⟩
    · exact ⟨_, rfl⟩
  · exact ⟨sys.feeds, rfl⟩

variable [DecidableEq ι]

/-- A lookup that has passed its feeds reads the store. -/
theorem step_read {l : Lookup ι} (h : l.awaiting = []) (sys : System ι α) :
    l.step sys = (.finished (sys.read l.layer l.ids).1, (sys.read l.layer l.ids).2) := by
  unfold step
  simp only [h]

end Lookup

end Collate
