/-
Data sources. A source is called with ids and delivers children, in any order and possibly of other
ids too, until it is done or fails. What it delivers may depend on which call it is. The children
are grouped by id as they arrive; those of ids nobody asked for are passed over, and the first
failure ends the call with nothing.

`group` is `fetch` of a `KeyedSource`, as far as it reads what the source delivers; that it calls no
source for no ids is in `Walk.step`. `Reply.atOnce` is what a `FutureSource` delivers; a
`StreamSource` may deliver anything.
-/
import Collate.Entries

set_option autoImplicit false

namespace Collate

/-- What a call of a source leads to: a wait, then children one after the other, or a failure among
them. -/
structure Reply (α : Type) where
  /-- How long the call takes before it delivers anything. -/
  delay : Nat := 0
  /-- What it delivers. Nothing after a failure is looked at. -/
  items : List (Except String α) := []

/-- The reply of a source that has all children at once, or fails before it has any. -/
def Reply.atOnce {α : Type} (delay : Nat) (result : Except String (List α)) : Reply α where
  delay := delay
  items := match result with
    | .ok children => children.map .ok
    | .error cause => [.error cause]

/-- A data source and the number of calls it has had. -/
structure Source (ι α : Type) where
  /-- The answer to the `n`-th call, counted from one. -/
  reply : Nat → List ι → Reply α
  calls : Nat := 0

namespace Source

variable {ι α : Type}

instance : Inhabited (Source ι α) := ⟨{ reply := fun _ _ => {} }⟩

/-- Calls the source. -/
def call (source : Source ι α) (ids : List ι) : Reply α × Source ι α :=
  (source.reply (source.calls + 1) ids, { source with calls := source.calls + 1 })

variable [DecidableEq ι]

/-- Adds a child at the end of the entry of its id, if the id was asked for. -/
def addChild (key : α → ι) (requested : List ι) (grouped : Entries ι (List α)) (child : α) :
    Entries ι (List α) :=
  -- A source may deliver more than it was asked for.
  if key child ∈ requested then
    grouped.insert (key child) ((grouped.get? (key child)).getD [] ++ [child])
  else grouped

/-- Adds children in the order they are delivered, until one is a failure. -/
def groupFrom (key : α → ι) (requested : List ι) :
    Entries ι (List α) → List (Except String α) → Except String (Entries ι (List α))
  | grouped, [] => .ok grouped
  | _, .error cause :: _ => .error cause
  | grouped, .ok child :: rest =>
    groupFrom key requested (addChild key requested grouped child) rest

/-- The children of the requested ids, by id and in the order they are delivered. An id without
children has no entry. -/
def group (key : α → ι) (requested : List ι) (items : List (Except String α)) :
    Except String (Entries ι (List α)) :=
  groupFrom key requested .empty items

end Source

end Collate
