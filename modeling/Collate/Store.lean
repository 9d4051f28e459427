/-
Stores. A store keeps values by key; it is either unbounded or holds at most a number of keys,
evicting those used least recently. Four calls reach it, each on a whole batch, and each call either
fails and changes nothing or does all of its work. A bounded store evicts after a whole batch, so a
batch may push out the store's older keys, and its own if it is larger than the store.

In which order the pairs of a batch are inserted is not promised. It decides nothing but the recency
of the batch's own keys, so a store carries the order it uses and nobody else looks at it. Whether a
call fails is also the store's own affair: it depends on the call's kind and on how many calls of
that kind came before.

The calls are `get_all`, `put_all`, `remove_all` and `update_all` of a `CacheStore`. An unbounded
shelf is a `MemoryStore`, a bounded one a `BoundedMemoryStore`. Both hold a lock of their own from
the beginning of a call to its end, so a call is one step.
-/
import Collate.Entries
import Collate.Store.Recency

set_option autoImplicit false

namespace Collate

/-- The calls of a store. -/
inductive Call where
  | get
  | put
  | remove
  | update
  deriving DecidableEq, Repr, Inhabited

/-- What a store keeps, and how. -/
inductive Shelf (κ ν : Type) where
  /-- Keeps everything. -/
  | unbounded (entries : Entries κ ν)
  /-- Keeps at most `capacity` keys, those used last. -/
  | bounded (capacity : Nat) (recent : Recency κ ν)

namespace Shelf

variable {κ ν : Type}

/-- An unbounded shelf without entries. -/
def fresh : Shelf κ ν := .unbounded .empty

/-- A bounded shelf without entries. It has room for one key at least. -/
def freshBounded (capacity : Nat) : Shelf κ ν := .bounded (max capacity 1) .empty

/-- The keys and values kept. -/
def contents : Shelf κ ν → Entries κ ν
  | .unbounded entries => entries
  | .bounded _ recent => recent.contents

/-- How many keys are kept. -/
def size : Shelf κ ν → Nat
  | .unbounded entries => entries.size
  | .bounded _ recent => recent.size

/-- How many keys may be kept, if there is a bound. -/
def capacity? : Shelf κ ν → Option Nat
  | .unbounded _ => none
  | .bounded capacity _ => some capacity

/-- How many keys were evicted so far, if there is a bound. -/
def evictions? : Shelf κ ν → Option Nat
  | .unbounded _ => none
  | .bounded _ recent => some recent.evictions

variable [DecidableEq κ]

/-- The entries of the keys asked for, in that order. On a bounded shelf this is their use. -/
def get (shelf : Shelf κ ν) (keys : List κ) : Entries κ ν × Shelf κ ν :=
  match shelf with
  | .unbounded entries => (entries.restrict keys, shelf)
  | .bounded capacity recent =>
    let (found, recent) := recent.getAll keys
    (found, .bounded capacity recent)

/-- Inserts a batch. -/
def put (shelf : Shelf κ ν) (batch : List (κ × ν)) : Shelf κ ν :=
  match shelf with
  | .unbounded entries => .unbounded (entries.insertAll batch)
  | .bounded capacity recent => .bounded capacity ((recent.insertAll batch).evict capacity)

/-- Removes keys and counts those that were there. -/
def remove (shelf : Shelf κ ν) (keys : List κ) : Nat × Shelf κ ν :=
  match shelf with
  | .unbounded entries =>
    let left := entries.eraseAll keys
    (entries.size - left.size, .unbounded left)
  | .bounded capacity recent =>
    let (n, recent) := recent.forgetAll keys
    (n, .bounded capacity recent)

/-- Removes keys, then inserts a batch, as one call. -/
def update (shelf : Shelf κ ν) (batch : List (κ × ν)) (removals : List κ) : Shelf κ ν :=
  -- Nothing is evicted between the removals and the inserts.
  (shelf.remove removals).2.put batch

end Shelf

/-- An order in which the pairs of the `n`-th batch are inserted. It repeats no pair and leaves none
out. -/
structure BatchOrder (κ ν : Type) where
  arrange : Nat → List (κ × ν) → List (κ × ν)
  perm : ∀ n batch, (arrange n batch).Perm batch

/-- The order in which a batch is written down. -/
def BatchOrder.asWritten {κ ν : Type} : BatchOrder κ ν := ⟨fun _ batch => batch, fun _ _ => .refl _⟩

/-- A store: what it keeps, which of its calls fail, and how many calls of each kind it has had. -/
structure Store (κ ν : Type) where
  shelf : Shelf κ ν
  /-- The text with which the `n`-th call of a kind fails, counted from one, if it fails. -/
  faults : Call → Nat → Option String := fun _ _ => none
  /-- The order in which batches are inserted, by number of the call. -/
  order : BatchOrder κ ν := .asWritten
  /-- How many calls of each kind there were. -/
  calls : Call → Nat := fun _ => 0

namespace Store

variable {κ ν : Type}

/-- An unbounded store without entries, whose calls do not fail. -/
def fresh : Store κ ν := { shelf := .fresh }

/-- A bounded store without entries, whose calls do not fail. -/
def freshBounded (capacity : Nat) : Store κ ν := { shelf := .freshBounded capacity }

instance : Inhabited (Store κ ν) := ⟨fresh⟩

/-- Counts a call and does its work on the shelf, unless the call is one that fails. -/
def attempt {ρ : Type} (store : Store κ ν) (call : Call)
    (work : Nat → Shelf κ ν → ρ × Shelf κ ν) : Except String ρ × Store κ ν :=
  -- A call counts whether or not it fails.
  let n := store.calls call + 1
  let counted := { store with calls := fun c => if c = call then n else store.calls c }
  match store.faults call n with
  | some cause => (.error cause, counted)
  | none =>
    let (result, shelf) := work n store.shelf
    (.ok result, { counted with shelf := shelf })

variable [DecidableEq κ]

/-- Looks keys up. -/
def get (store : Store κ ν) (keys : List κ) : Except String (Entries κ ν) × Store κ ν :=
  store.attempt .get fun _ shelf => shelf.get keys

/-- Inserts entries. -/
def put (store : Store κ ν) (entries : Entries κ ν) : Except String Unit × Store κ ν :=
  store.attempt .put fun n shelf => ((), shelf.put (store.order.arrange n entries.pairs))

/-- Removes keys and counts those that were there. -/
def remove (store : Store κ ν) (keys : List κ) : Except String Nat × Store κ ν :=
  store.attempt .remove fun _ shelf => shelf.remove keys

/-- Removes keys, then inserts entries, as one call. -/
def update (store : Store κ ν) (entries : Entries κ ν) (removals : List κ) :
    Except String Unit × Store κ ν :=
  store.attempt .update fun n shelf =>
    ((), shelf.update (store.order.arrange n entries.pairs) removals)

end Store

end Collate
