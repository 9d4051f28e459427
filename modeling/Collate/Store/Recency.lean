/-
Entries in order of use. The values sit in a map; their keys are threaded, most recently used first,
on a doubly linked list whose nodes are numbered slots, and each value knows its slot. A slot given
up is kept on a stack and used again before a new one is made, so the slots stay as few as the
entries that were ever held together. Looking up, inserting and forgetting touch a fixed number of
slots each.

Absent neighbours are `none`. Reading or changing a slot that does not exist leaves the list as it
is; on a list built by these operations that never happens, because a value's slot is one of the
list's.

`Recency` is the `Inner` of a `BoundedMemoryStore`: `get`, `insert`, `forget`, `evict`, `promote`,
`detach` and `pushFront` are its functions of these names, `allocate` is the part of `insert` that
finds a slot, and the batches are the loops of the store's calls.
-/
import Collate.Entries

set_option autoImplicit false

namespace Collate

/-- A node of the list of uses. -/
structure Link (κ : Type) where
  /-- The key whose use this is. -/
  key : κ
  /-- The slot used more recently, if any. -/
  newer : Option Nat
  /-- The slot used less recently, if any. -/
  older : Option Nat

/-- A value and the slot of its key. -/
structure Held (ν : Type) where
  value : ν
  slot : Nat

/-- A map whose keys are ordered by use, and the number of keys evicted from it so far. -/
structure Recency (κ ν : Type) where
  /-- The values and their slots. -/
  entries : Entries κ (Held ν)
  /-- The nodes, by slot. -/
  links : Array (Link κ)
  /-- Slots to be used again, the one given up last in front. -/
  free : List Nat
  /-- The slot of the most recently used key. -/
  newest : Option Nat
  /-- The slot of the least recently used key. -/
  oldest : Option Nat
  /-- How many keys were evicted. What a 64-bit counter shows after so many of them that it overflows
  is out of scope. -/
  evictions : Nat

namespace Recency

variable {κ ν : Type}

/-- No entry, and none evicted yet. -/
def empty : Recency κ ν := ⟨.empty, #[], [], none, none, 0⟩

instance : Inhabited (Recency κ ν) := ⟨empty⟩

/-! ## 1. The list of uses -/

/-- Changes the node of a slot. -/
def setLink (r : Recency κ ν) (slot : Nat) (f : Link κ → Link κ) : Recency κ ν :=
  { r with links := r.links.modify slot f }

/-- Joins the newer side of a gap to what is on its older side. -/
def joinOlder (r : Recency κ ν) (newer older : Option Nat) : Recency κ ν :=
  match newer with
  | none => { r with newest := older }
  | some slot => r.setLink slot fun l => { l with older := older }

/-- Joins the older side of a gap to what is on its newer side. -/
def joinNewer (r : Recency κ ν) (newer older : Option Nat) : Recency κ ν :=
  match older with
  | none => { r with oldest := newer }
  | some slot => r.setLink slot fun l => { l with newer := newer }

/-- Takes a slot out of the list of uses, closing the gap. -/
def detach (r : Recency κ ν) (slot : Nat) : Recency κ ν :=
  match r.links[slot]? with
  | none => r
  | some link =>
    ((r.joinOlder link.newer link.older).joinNewer link.newer link.older).setLink slot
      fun l => { l with newer := none, older := none }

/-- Puts a slot in front of the list of uses. -/
def pushFront (r : Recency κ ν) (slot : Nat) : Recency κ ν :=
  -- The slot that was in front, if there was one, becomes the second.
  let before := r.newest
  let r := r.setLink slot fun l => { l with newer := none, older := before }
  let r := match before with
    | none => r
    | some next => r.setLink next fun l => { l with newer := some slot }
  -- On an empty list the slot is both ends.
  { r with newest := some slot, oldest := r.oldest.or (some slot) }

/-- Makes a slot the most recently used one. -/
def promote (r : Recency κ ν) (slot : Nat) : Recency κ ν := (r.detach slot).pushFront slot

/-- A slot for a new key: the one given up last, or a new one at the end. -/
def allocate (r : Recency κ ν) (key : κ) : Nat × Recency κ ν :=
  match r.free with
  -- The slot still holds the key it was given up with; that key is replaced.
  | slot :: rest => (slot, { r with free := rest }.setLink slot fun _ => ⟨key, none, none⟩)
  | [] => (r.links.size, { r with links := r.links.push ⟨key, none, none⟩ })

/-! ## 2. The map -/

/-- How many keys are held. -/
def size (r : Recency κ ν) : Nat := r.entries.size

variable [DecidableEq κ]

/-- The value of a key, whose use this is. -/
def get (r : Recency κ ν) (key : κ) : Option ν × Recency κ ν :=
  match r.entries.get? key with
  | none => (none, r)
  | some held => (some held.value, r.promote held.slot)

/-- Gives a key a value, whose use this is. -/
def insert (r : Recency κ ν) (key : κ) (value : ν) : Recency κ ν :=
  match r.entries.get? key with
  | some held =>
    { r with entries := r.entries.insert key { held with value := value } }.promote held.slot
  | none =>
    -- The slot is threaded first and the value points to it last.
    let (slot, r) := r.allocate key
    let r := r.pushFront slot
    { r with entries := r.entries.insert key ⟨value, slot⟩ }

/-- Takes a key out and gives its slot up; says whether the key was there. -/
def forget (r : Recency κ ν) (key : κ) : Bool × Recency κ ν :=
  match r.entries.get? key with
  | none => (false, r)
  | some held =>
    -- The slot keeps its old key until it is used again; nobody reaches it meanwhile.
    let r := { r with entries := r.entries.erase key }.detach held.slot
    (true, { r with free := held.slot :: r.free })

/-- One round of eviction: as long as there are more keys than `capacity` and the list of uses has
an end, the key at that end is forgotten and counted. -/
def evictOne (r : Recency κ ν) (capacity : Nat) : Option (Recency κ ν) :=
  if capacity < r.size then
    match r.oldest.bind (r.links[·]?) with
    -- More keys than `capacity` and no end of the list do not go together on a list built by
    -- `insert`.
    | none => none
    | some link =>
      let r := (r.forget link.key).2
      some { r with evictions := r.evictions + 1 }
  else none

/-- At most `rounds` rounds of eviction. -/
def evictRounds (capacity : Nat) : Nat → Recency κ ν → Recency κ ν
  | 0, r => r
  | rounds + 1, r => match r.evictOne capacity with
    | none => r
    | some r => evictRounds capacity rounds r

/-- Evicts until at most `capacity` keys are held. Every round takes one key out, so as many rounds
as there are keys are enough. -/
def evict (r : Recency κ ν) (capacity : Nat) : Recency κ ν := evictRounds capacity r.size r

/-! ## 3. Whole batches -/

/-- Looks keys up one after the other; each one found is used. -/
def getAll (r : Recency κ ν) (keys : List κ) : Entries κ ν × Recency κ ν :=
  keys.foldl (fun (found, r) key => match r.get key with
    | (some value, r) => (found.insert key value, r)
    | (none, r) => (found, r)) (.empty, r)

/-- Inserts pairs one after the other. -/
def insertAll (r : Recency κ ν) (batch : List (κ × ν)) : Recency κ ν :=
  batch.foldl (fun r p => r.insert p.1 p.2) r

/-- Forgets keys one after the other and counts those that were there. -/
def forgetAll (r : Recency κ ν) (keys : List κ) : Nat × Recency κ ν :=
  keys.foldl (fun (n, r) key => match r.forget key with
    | (true, r) => (n + 1, r)
    | (false, r) => (n, r)) (0, r)

/-- The keys and values, without their order of use. -/
def contents (r : Recency κ ν) : Entries κ ν := r.entries.mapValues fun _ held => held.value

end Recency

end Collate
