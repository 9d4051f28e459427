/-
Rules. A rule resolves ids to field values: it gets each id's children along its path and turns them
into a value. A rule with one child per id takes the first; a rule with many adds them all to a
fresh collection. An id without children gets the rule's default, and so does an id nobody asked
for.

`Shape.one` is `OneToOne`, as `one_to_one` and `optional` make it, and `Shape.many` is `OneToMany`,
as `one_to_many` and `one_to_many_with` do. `Shape.resolved` is what is left of their `resolve` once
the children are there: it gives a `Resolved`.
-/
import Collate.Resolution
import Collate.Merge

set_option autoImplicit false

namespace Collate

/-- Field values by id, and what all other ids have. -/
structure Resolved (ι β : Type) where
  values : Entries ι β
  default : ι → β

namespace Resolved

variable {ι β : Type} [DecidableEq ι]

/-- The value of an id. -/
def get (resolved : Resolved ι β) (id : ι) : β :=
  (resolved.values.get? id).getD (resolved.default id)

end Resolved

/-- How the children of an id become its field value. -/
inductive Shape (ι α β : Type) where
  /-- The first child, converted; `default` where there is none. -/
  | one (convert : α → β) (default : ι → β)
  /-- All children, added to a fresh collection. -/
  | many (fresh : β) (extend : β → List α → β)

namespace Shape

variable {ι α β : Type}

/-- The value of children, if there are any. -/
def value? (shape : Shape ι α β) (children : List α) : Option β :=
  match shape, children with
  -- A list of no children and no list at all mean the same.
  | _, [] => none
  | .one convert _, first :: _ => some (convert first)
  | .many fresh extend, first :: rest => some (extend fresh (first :: rest))

/-- The value of an id without children. -/
def default (shape : Shape ι α β) (id : ι) : β :=
  match shape with
  | .one _ default => default id
  | .many fresh _ => fresh

/-- The pairs of the ids that have a value. -/
def valuesOf (shape : Shape ι α β) : List (ι × List α) → List (ι × β)
  | [] => []
  | (id, children) :: rest =>
    match shape.value? children with
    | some value => (id, value) :: valuesOf shape rest
    | none => valuesOf shape rest

variable [DecidableEq ι]

/-- The field values of children by id. -/
def resolved (shape : Shape ι α β) (grouped : Entries ι (List α)) : Resolved ι β :=
  ⟨.ofList (shape.valuesOf grouped.pairs), shape.default⟩

end Shape

/-- A rule: where its children come from and what becomes of them. -/
structure Rule (ι α β : Type) where
  path : Path ι α
  shape : Shape ι α β

end Collate
