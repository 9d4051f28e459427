/-
How the children of a rule are keyed, and how a change of one child changes the entry of its id. An
entry is the list of all children known for an id. A rule that gives one child per id replaces the
entry; a rule that gives many replaces the child that is the same element, wherever in the entry it
stands, or appends. Elements are told apart by a relation of the rule's own, not by equality of
children.

`Merge` is a `CacheContext`, made by `one_to_one` or by `one_to_many`, with its `upsert` and
`remove`; `Change` is a `CacheEvent` and `Change.child` its `item`.
-/
set_option autoImplicit false

namespace Collate

/-- A change of one child. -/
inductive Change (α : Type) where
  /-- The child is new or has new contents. -/
  | updated (child : α)
  /-- The child is gone. -/
  | removed (child : α)
  deriving DecidableEq, Repr

/-- The child that changed. -/
def Change.child {α : Type} : Change α → α
  | .updated child => child
  | .removed child => child

/-- The id a child belongs to and, for rules that give many children per id, which children are
versions of the same element. -/
structure Merge (ι α : Type) where
  /-- The id of a child. -/
  key : α → ι
  /-- Whether two children are versions of one element; absent for rules giving one child per id. -/
  sameElement : Option (α → α → Bool)

namespace Merge

variable {ι α : Type}

/-- Whether an id may have many children. -/
def isOneToMany (m : Merge ι α) : Bool := m.sameElement.isSome

/-- Puts `child` in place of the first child that is the same element, or at the end. -/
def replaceOrAppend (same : α → α → Bool) (child : α) : List α → List α
  | [] => [child]
  | existing :: rest =>
    if same existing child then child :: rest else existing :: replaceOrAppend same child rest

/-- The entry after `child` was created or changed. -/
def upsert (m : Merge ι α) (entry : List α) (child : α) : List α :=
  match m.sameElement with
  | none => [child]
  | some same => replaceOrAppend same child entry

/-- The entry after `child` was removed. -/
def remove (m : Merge ι α) (entry : List α) (child : α) : List α :=
  match m.sameElement with
  | none => []
  -- All children that are the same element go, not only the first.
  | some same => entry.filter fun existing => !same existing child

/-- The entry after a change. -/
def apply (m : Merge ι α) (entry : List α) : Change α → List α
  | .updated child => m.upsert entry child
  | .removed child => m.remove entry child

/-- The entry after a history of changes of its id, oldest first. -/
def applyAll (m : Merge ι α) (entry : List α) (changes : List (Change α)) : List α :=
  changes.foldl m.apply entry

/-- The id of each change of a history and the entry after it. -/
def history (m : Merge ι α) (entry : List α) : List (Change α) → List (ι × List α)
  | [] => []
  | change :: rest =>
    let entry := m.apply entry change
    (m.key change.child, entry) :: history m entry rest

end Merge

end Collate
