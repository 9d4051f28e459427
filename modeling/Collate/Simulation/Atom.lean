/-
The values of a simulation. Ids, elements, names and contents are atoms, which are equal only if
they look the same: a number is never a text, a list of one thing never that thing. Atoms are
ordered by kind first and then within their kind; the order serves to write down what has no order
of its own.
-/
set_option autoImplicit false

namespace Collate.Simulation

/-- A value that can be an id. -/
inductive Atom where
  | null
  | bool (b : Bool)
  | int (n : Int)
  | text (s : String)
  | list (items : List Atom)
  deriving Inhabited

namespace Atom

mutual

/-- Decides whether two atoms are the same. -/
def decEq : (a b : Atom) → Decidable (a = b)
  | .null, .null => isTrue rfl
  | .bool a, .bool b => if h : a = b then isTrue (by rw [h]) else isFalse (by simpa using h)
  | .int a, .int b => if h : a = b then isTrue (by rw [h]) else isFalse (by simpa using h)
  | .text a, .text b => if h : a = b then isTrue (by rw [h]) else isFalse (by simpa using h)
  | .list a, .list b =>
    match decEqList a b with
    | isTrue h => isTrue (by rw [h])
    | isFalse h => isFalse (by simpa using h)
  | .null, .bool _ => isFalse nofun
  | .null, .int _ => isFalse nofun
  | .null, .text _ => isFalse nofun
  | .null, .list _ => isFalse nofun
  | .bool _, .null => isFalse nofun
  | .bool _, .int _ => isFalse nofun
  | .bool _, .text _ => isFalse nofun
  | .bool _, .list _ => isFalse nofun
  | .int _, .null => isFalse nofun
  | .int _, .bool _ => isFalse nofun
  | .int _, .text _ => isFalse nofun
  | .int _, .list _ => isFalse nofun
  | .text _, .null => isFalse nofun
  | .text _, .bool _ => isFalse nofun
  | .text _, .int _ => isFalse nofun
  | .text _, .list _ => isFalse nofun
  | .list _, .null => isFalse nofun
  | .list _, .bool _ => isFalse nofun
  | .list _, .int _ => isFalse nofun
  | .list _, .text _ => isFalse nofun

/-- Decides whether two lists of atoms are the same. -/
def decEqList : (as bs : List Atom) → Decidable (as = bs)
  | [], [] => isTrue rfl
  | [], _ :: _ => isFalse nofun
  | _ :: _, [] => isFalse nofun
  | a :: as, b :: bs =>
    match decEq a b, decEqList as bs with
    | isTrue h, isTrue hs => isTrue (by rw [h, hs])
    | isFalse h, _ => isFalse fun e => h (List.cons.inj e).1
    | _, isFalse h => isFalse fun e => h (List.cons.inj e).2

end

instance : DecidableEq Atom := decEq

/-- The place of an atom's kind in the order. -/
def rank : Atom → Nat
  | null => 0
  | bool _ => 1
  | int _ => 2
  | text _ => 3
  | list _ => 4

mutual

/-- The order of atoms: by kind, then false before true, numbers by size, texts by their characters,
and lists by their first difference. -/
def order : Atom → Atom → Ordering
  | .bool a, .bool b => compare a b
  | .int a, .int b => compare a b
  | .text a, .text b => compare a b
  | .list a, .list b => orderList a b
  | a, b => compare a.rank b.rank

/-- The order of lists of atoms; a list comes before its continuations. -/
def orderList : List Atom → List Atom → Ordering
  | [], [] => .eq
  | [], _ :: _ => .lt
  | _ :: _, [] => .gt
  | a :: as, b :: bs => (order a b).then (orderList as bs)

end

end Atom

/-- A child: its key, its element and its contents. -/
structure Child where
  key : Atom
  element : Atom
  value : Atom
  deriving DecidableEq, Inhabited

/-- The order of children: by key, then by element, then by contents. -/
def Child.order (a b : Child) : Ordering :=
  ((a.key.order b.key).then (a.element.order b.element)).then (a.value.order b.value)

/-- A parent: its id and its name. -/
structure Parent where
  id : Atom
  name : Atom
  deriving DecidableEq, Inhabited

/-- A list in ascending order; of equals none is lost and none goes in front of another. -/
def ascending {τ : Type} (order : τ → τ → Ordering) (xs : List τ) : List τ :=
  xs.mergeSort fun a b => (order a b).isLE

/-- Adds a value to an ascending list without repetitions, unless it is there. -/
def insertOnce {τ : Type} (order : τ → τ → Ordering) (x : τ) : List τ → List τ
  | [] => [x]
  | y :: rest => match order x y with
    | .lt => x :: y :: rest
    | .eq => y :: rest
    | .gt => y :: insertOnce order x rest

/-! ## Reading ids off children and parents -/

/-- How an id is read off a child. -/
inductive ChildKey where
  | key
  | element
  | value
  /-- The key's remainder by a number, if the key is a number. -/
  | modulo (n : Int)
  /-- The key with its ASCII letters in lower case, if the key is a text. -/
  | lower
  deriving DecidableEq, Repr, Inhabited

/-- The remainder of a number, never negative; anything else stays. -/
def Atom.modulo (n : Int) : Atom → Atom
  | .int k => .int (k % n)
  | a => a

/-- A text with its ASCII letters in lower case; anything else stays. -/
def Atom.lower : Atom → Atom
  | .text s => .text (String.ofList (s.toList.map Char.toLower))
  | a => a

/-- The id of a child. -/
def ChildKey.read (k : ChildKey) (child : Child) : Atom :=
  match k with
  | .key => child.key
  | .element => child.element
  | .value => child.value
  | .modulo n => child.key.modulo n
  | .lower => child.key.lower

/-- How an id is read off a parent. -/
inductive ParentKey where
  | id
  | name
  | modulo (n : Int)
  | lower
  deriving DecidableEq, Repr, Inhabited

/-- The id of a parent. -/
def ParentKey.read (k : ParentKey) (parent : Parent) : Atom :=
  match k with
  | .id => parent.id
  | .name => parent.name
  | .modulo n => parent.id.modulo n
  | .lower => parent.id.lower

end Collate.Simulation
