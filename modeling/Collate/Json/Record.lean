/-
Records in JSON text. A record is written as an object of its fields, in any order, or as an array
of them in order. A field may be given once; what becomes of fields that are not given is for the
record to say. Unknown members of an object are skipped, or refused by records that are strict. A
record is judged as a whole as soon as its last field was read and before the bracket that closes an
array is looked at.

This is one way to read and write records. What is proved of settings as text does not rest on it:
that holds for every coding that keeps to `Coding.Documented`.
-/
import Collate.Json.Numeral

set_option autoImplicit false

namespace Collate.Json

/-! ## 1. Values that are wanted -/

/-- Reads a value that is not of the wanted form, to see whether it is a value at all. Arrays and
objects are not looked into. -/
def refuse {α : Type} (cs : List Char) : Read α :=
  let verdict {β : Type} : Except Fault β → Read α
    | .ok _ => .error .form
    | .error fault => .error fault
  match cs with
  | [] => .error .grammar
  | 'n' :: rest => verdict (skipWord ['u', 'l', 'l'] rest)
  | 't' :: rest => verdict (skipWord ['r', 'u', 'e'] rest)
  | 'f' :: rest => verdict (skipWord ['a', 'l', 's', 'e'] rest)
  | '-' :: rest => verdict (readNumber true rest)
  | '"' :: rest => verdict (readText rest)
  | '[' :: _ => .error .form
  | '\x7b' :: _ => .error .form
  | c :: rest => if c.isDigit then verdict (readNumber false (c :: rest)) else .error .grammar

/-- Reads a whole number that is at most `limit`. -/
def readWord (limit : UInt64) (cs : List Char) : Read UInt64 :=
  let judge : Read Numeral → Read UInt64
    | .ok (.word n, rest) => if n ≤ limit then .ok (n, rest) else .error .form
    | .ok (.other, _) => .error .form
    | .error fault => .error fault
  match skipBlanks cs with
  | [] => .error .early
  | '-' :: rest => judge (readNumber true rest)
  | c :: rest => if c.isDigit then judge (readNumber false (c :: rest)) else refuse (c :: rest)

/-! ## 2. Fields -/

/-- A field of a record that is being read. -/
structure Field (σ : Type) where
  name : String
  /-- Whether the field was given. -/
  given : σ → Bool
  /-- Reads the field's value. -/
  read : σ → List Char → Read σ

/-- Skips the colon behind a name. -/
def skipColon (cs : List Char) : Except Fault (List Char) :=
  match skipBlanks cs with
  | [] => .error .early
  | ':' :: rest => .ok rest
  | _ :: _ => .error .grammar

/-- Reads the value of the member with this name. -/
def readMember {σ : Type} (fields : List (Field σ)) (strict : Bool) (s : σ) (name : List Char)
    (cs : List Char) : Read σ :=
  match fields.find? fun f => f.name.toList = name with
  | some field =>
    -- A field given twice is noticed at its name, before its second value is read.
    if field.given s then .error .form else (skipColon cs).bind fun rest => field.read s rest
  | none =>
    if strict then .error .form
    else (skipColon cs).bind fun rest => (skipValue rest).map fun rest => (s, rest)

/-- Reads members up to the brace that closes their object, at most `fuel` of them. -/
def readMembersIn {σ : Type} (fields : List (Field σ)) (strict : Bool) :
    Nat → (first : Bool) → σ → List Char → Read σ
  | 0, _, _, _ => .error .early
  | fuel + 1, first, s, cs =>
    let member (rest : List Char) : Read σ :=
      (readText rest).bind fun (name, rest) =>
        (readMember fields strict s name rest).bind fun (s, rest) =>
          readMembersIn fields strict fuel false s rest
    match skipBlanks cs with
    | [] => .error .early
    | '\x7d' :: rest => .ok (s, rest)
    | ',' :: rest =>
      if first then .error .grammar
      else match skipBlanks rest with
        | [] => .error .early
        | '"' :: rest => member rest
        | _ :: _ => .error .grammar
    | '"' :: rest => if first then member rest else .error .grammar
    | _ :: _ => .error .grammar

/-- Reads the items of an array as fields in order, and stops at the array's end or behind the last
field. -/
def readItems {σ : Type} : List (Field σ) → (first : Bool) → σ → List Char → Read σ
  | [], _, s, cs => .ok (s, cs)
  | field :: fields, first, s, cs =>
    let item (rest : List Char) : Read σ :=
      (field.read s rest).bind fun (s, rest) => readItems fields false s rest
    match skipBlanks cs with
    | [] => .error .early
    | ']' :: rest => .ok (s, ']' :: rest)
    | ',' :: rest =>
      if first then item (',' :: rest)
      else match skipBlanks rest with
        | [] => .error .early
        -- A comma promises another item.
        | ']' :: _ => .error .grammar
        | rest => item rest
    | c :: rest => if first then item (c :: rest) else .error .grammar

/-- Skips the bracket that closes an array of fields. -/
def skipClosing (cs : List Char) : Except Fault (List Char) :=
  match skipBlanks cs with
  | [] => .error .early
  | ']' :: rest => .ok rest
  | _ :: _ => .error .grammar

/-! ## 3. Records -/

/-- A record that can be read. -/
structure Record (σ α : Type) where
  fields : List (Field σ)
  /-- Whether members of other names are refused. -/
  strict : Bool
  /-- No field given yet. -/
  blank : σ
  /-- The record of the fields that were given. -/
  judge : σ → Except Fault α

namespace Record

variable {σ α : Type}

/-- Reads a record. -/
def read (record : Record σ α) (cs : List Char) : Read α :=
  match skipBlanks cs with
  | [] => .error .early
  | '[' :: rest =>
    -- The record is judged before the array is seen to end.
    (readItems record.fields true record.blank rest).bind fun (s, rest) =>
      (record.judge s).bind fun a => (skipClosing rest).map fun rest => (a, rest)
  | '\x7b' :: rest =>
    (readMembersIn record.fields record.strict (rest.length + 1) true record.blank rest).bind
      fun (s, rest) => (record.judge s).map fun a => (a, rest)
  | c :: rest => refuse (c :: rest)

/-- Reads a text that is one record. -/
def ofText (record : Record σ α) (text : String) : Except Fault α :=
  (record.read text.toList).bind fun (a, rest) =>
    match skipBlanks rest with
    | [] => .ok a
    | _ :: _ => .error .grammar

end Record

/-! ## 4. Writing -/

/-- The decimal digits of a number. -/
def natText (n : Nat) : List Char := Nat.toDigits 10 n

/-- An object of members whose values are written, without blanks. -/
def objectText (members : List (String × List Char)) : List Char :=
  let written := members.map fun (name, value) => '"' :: name.toList ++ '"' :: ':' :: value
  '\x7b' :: List.intercalate [','] written ++ ['\x7d']

end Collate.Json
