/-
The grammar of JSON text.

`Form` names the forms that a text can have, and `IsJson` says which texts have them: values, elements
(values with blanks around them), and one or more elements or members with commas between them. Of an
object whose members matter, `IsObject` says in which ways it can be written: its members stand in this
order, blanks between all tokens, and the characters of a name may be escaped. What the members hold is
kept as it is written, with the blanks around it.
-/
set_option autoImplicit false

namespace Collate.Json

/-! ## 1. Characters -/

/-- The characters that may stand between tokens. -/
def isBlank (c : Char) : Bool := c = ' ' || c = '\n' || c = '\t' || c = '\r'

/-- The value of a hexadecimal digit. -/
def hexValue? (c : Char) : Option Nat :=
  if c.isDigit then some (c.toNat - '0'.toNat)
  else if 'a' ≤ c ∧ c ≤ 'f' then some (c.toNat - 'a'.toNat + 10)
  else if 'A' ≤ c ∧ c ≤ 'F' then some (c.toNat - 'A'.toNat + 10)
  else none

/-- The value of four hexadecimal digits. -/
def hexValue4? (a b c d : Char) : Option Nat := do
  let a ← hexValue? a
  let b ← hexValue? b
  let c ← hexValue? c
  let d ← hexValue? d
  return ((a * 16 + b) * 16 + c) * 16 + d

/-- The characters that follow a backslash and stand for one character. -/
def simpleEscape? : Char → Option Char
  | '"' => some '"'
  | '\\' => some '\\'
  | '/' => some '/'
  | 'b' => some '\x08'
  | 'f' => some '\x0c'
  | 'n' => some '\n'
  | 'r' => some '\r'
  | 't' => some '\t'
  | _ => none

/-- Whether a character may stand in a text as it is. -/
def isPlain (c : Char) : Bool := ' ' ≤ c

/-- The character of a pair of 16-bit units. -/
def ofPair (high low : Nat) : Char :=
  Char.ofNat ((high - 0xD800) * 0x400 + (low - 0xDC00) + 0x10000)

/-! ## 2. Texts of each form -/

/-- Characters that may stand between tokens, and no others. -/
def Blanks (cs : List Char) : Prop := ∀ c ∈ cs, isBlank c = true

/-- One digit or more. -/
def Digits (cs : List Char) : Prop := cs ≠ [] ∧ ∀ c ∈ cs, c.isDigit = true

/-- A whole number without a sign. No other digit follows a zero in front. -/
def Whole (cs : List Char) : Prop := Digits cs ∧ (cs.head? = some '0' → cs = ['0'])

/-- What may follow the whole part of a number. -/
inductive Fraction : List Char → Prop where
  | none : Fraction []
  | point {ds : List Char} (hds : Digits ds) : Fraction ('.' :: ds)

/-- What may end a number. -/
inductive Exponent : List Char → Prop where
  | none : Exponent []
  | plain {e : Char} {ds : List Char} (he : e = 'e' ∨ e = 'E') (hds : Digits ds) : Exponent (e :: ds)
  | signed {e s : Char} {ds : List Char} (he : e = 'e' ∨ e = 'E') (hs : s = '+' ∨ s = '-')
      (hds : Digits ds) : Exponent (e :: s :: ds)

/-- What may stand between the quotes of a text. -/
inductive Quoted : List Char → Prop where
  | nil : Quoted []
  | plain {c : Char} {cs : List Char} (hplain : isPlain c = true) (hquote : c ≠ '"')
      (hescape : c ≠ '\\') (hcs : Quoted cs) : Quoted (c :: cs)
  | escape {e : Char} {cs : List Char} (he : (simpleEscape? e).isSome = true) (hcs : Quoted cs) :
      Quoted ('\\' :: e :: cs)
  | unit {a b c d : Char} {cs : List Char} (hvalue : (hexValue4? a b c d).isSome = true)
      (hcs : Quoted cs) : Quoted ('\\' :: 'u' :: a :: b :: c :: d :: cs)

/-- The forms of a text. -/
inductive Form where
  | value
  /-- A value with blanks around it. -/
  | element
  /-- What stands between the brackets of an array that is not empty. -/
  | elements
  /-- What stands between the braces of an object that is not empty. -/
  | members

/-- The texts of each form. -/
inductive IsJson : Form → List Char → Prop where
  | nullWord : IsJson .value ['n', 'u', 'l', 'l']
  | trueWord : IsJson .value ['t', 'r', 'u', 'e']
  | falseWord : IsJson .value ['f', 'a', 'l', 's', 'e']
  | number {ws fs es : List Char} (hwhole : Whole ws) (hfraction : Fraction fs)
      (hexponent : Exponent es) : IsJson .value (ws ++ (fs ++ es))
  | negative {ws fs es : List Char} (hwhole : Whole ws) (hfraction : Fraction fs)
      (hexponent : Exponent es) : IsJson .value ('-' :: (ws ++ (fs ++ es)))
  | text {cs : List Char} (hcs : Quoted cs) : IsJson .value ('"' :: (cs ++ ['"']))
  | emptyArray {b : List Char} (hb : Blanks b) : IsJson .value ('[' :: (b ++ [']']))
  | array {cs : List Char} (hcs : IsJson .elements cs) : IsJson .value ('[' :: (cs ++ [']']))
  | emptyObject {b : List Char} (hb : Blanks b) : IsJson .value ('\x7b' :: (b ++ ['\x7d']))
  | object {cs : List Char} (hcs : IsJson .members cs) : IsJson .value ('\x7b' :: (cs ++ ['\x7d']))
  | element {b cs b' : List Char} (hb : Blanks b) (hcs : IsJson .value cs) (hb' : Blanks b') :
      IsJson .element (b ++ (cs ++ b'))
  | lastElement {cs : List Char} (hcs : IsJson .element cs) : IsJson .elements cs
  | moreElements {cs more : List Char} (hcs : IsJson .element cs) (hmore : IsJson .elements more) :
      IsJson .elements (cs ++ ',' :: more)
  | lastMember {b name b' cs : List Char} (hb : Blanks b) (hname : Quoted name) (hb' : Blanks b')
      (hcs : IsJson .element cs) : IsJson .members (b ++ '"' :: (name ++ '"' :: (b' ++ ':' :: cs)))
  | moreMembers {b name b' cs more : List Char} (hb : Blanks b) (hname : Quoted name)
      (hb' : Blanks b') (hcs : IsJson .element cs) (hmore : IsJson .members more) :
      IsJson .members (b ++ '"' :: (name ++ '"' :: (b' ++ ':' :: (cs ++ ',' :: more))))

/-! ## 3. Names and words -/

/-- The ways a text can be written between quotes. Escapes that are half of a pair stand for a
character only together. -/
inductive Spells : List Char → List Char → Prop where
  | nil : Spells [] []
  | plain {c : Char} {cs text : List Char} (hplain : isPlain c = true) (hquote : c ≠ '"')
      (hescape : c ≠ '\\') (hcs : Spells cs text) : Spells (c :: cs) (c :: text)
  | escape {e c : Char} {cs text : List Char} (he : simpleEscape? e = some c)
      (hcs : Spells cs text) : Spells ('\\' :: e :: cs) (c :: text)
  | unit {a b c d : Char} {n : Nat} {cs text : List Char} (hvalue : hexValue4? a b c d = some n)
      (hn : n < 0xD800 ∨ 0xDFFF < n) (hcs : Spells cs text) :
      Spells ('\\' :: 'u' :: a :: b :: c :: d :: cs) (Char.ofNat n :: text)
  | pair {a b c d a' b' c' d' : Char} {high low : Nat} {cs text : List Char}
      (hhigh : hexValue4? a b c d = some high) (hin : 0xD800 ≤ high ∧ high ≤ 0xDBFF)
      (hlow : hexValue4? a' b' c' d' = some low) (hin' : 0xDC00 ≤ low ∧ low ≤ 0xDFFF)
      (hcs : Spells cs text) :
      Spells ('\\' :: 'u' :: a :: b :: c :: d :: '\\' :: 'u' :: a' :: b' :: c' :: d' :: cs)
        (ofPair high low :: text)

/-- A word in decimal digits, with blanks around it. -/
inductive IsWord (n : UInt64) : List Char → Prop where
  | mk {b ds b' : List Char} (hb : Blanks b) (hds : Whole ds)
      (hvalue : Nat.ofDigitChars 10 ds 0 = n.toNat) (hb' : Blanks b') : IsWord n (b ++ (ds ++ b'))

/-! ## 4. Objects -/

/-- The texts of these members in this order, with commas between them. The text of a value brings
the blanks around it. -/
inductive IsMembers : List (String × List Char) → List Char → Prop where
  | last {b spelled b' cs : List Char} {name : String} (hb : Blanks b)
      (hname : Spells spelled name.toList) (hb' : Blanks b') :
      IsMembers [(name, cs)] (b ++ '"' :: (spelled ++ '"' :: (b' ++ ':' :: cs)))
  | more {b spelled b' cs more : List Char} {name : String} {members : List (String × List Char)}
      (hb : Blanks b) (hname : Spells spelled name.toList) (hb' : Blanks b')
      (hmore : IsMembers members more) :
      IsMembers ((name, cs) :: members)
        (b ++ '"' :: (spelled ++ '"' :: (b' ++ ':' :: (cs ++ ',' :: more))))

/-- The texts of an object of these members, with blanks around it. -/
inductive IsObject : List (String × List Char) → List Char → Prop where
  | empty {b b' b'' : List Char} (hb : Blanks b) (hb' : Blanks b') (hb'' : Blanks b'') :
      IsObject [] (b ++ '\x7b' :: (b' ++ '\x7d' :: b''))
  | members {b cs b' : List Char} {members : List (String × List Char)} (hb : Blanks b)
      (hcs : IsMembers members cs) (hb' : Blanks b') :
      IsObject members (b ++ '\x7b' :: (cs ++ '\x7d' :: b'))

/-- The texts of an array of two elements, with blanks around it. -/
inductive IsPair (cs cs' : List Char) : List Char → Prop where
  | mk {b b' : List Char} (hb : Blanks b) (hb' : Blanks b') :
      IsPair cs cs' (b ++ '[' :: (cs ++ ',' :: (cs' ++ ']' :: b')))

/-- What an object says of a field: that it has no value, or the one value that it has. -/
inductive Given {α : Type} (name : String) (IsValue : α → List Char → Prop) :
    List (String × List Char) → Option α → Prop where
  | never : Given name IsValue [] none
  | here {a : α} {cs : List Char} {members : List (String × List Char)} (hvalue : IsValue a cs)
      (hmore : Given name IsValue members none) : Given name IsValue ((name, cs) :: members) (some a)
  | there {other : String} {cs : List Char} {members : List (String × List Char)} {value : Option α}
      (hname : other ≠ name) (hmore : Given name IsValue members value) :
      Given name IsValue ((other, cs) :: members) value

namespace Given

variable {α : Type} {name other : String} {IsValue : α → List Char → Prop} {value : Option α}
  {cs : List Char} {members : List (String × List Char)}

theorem nil (h : Given name IsValue [] value) : value = none := by
  cases h
  rfl

/-- A field that no member is named for has no value. -/
theorem of_forall_ne (h : ∀ member ∈ members, member.1 ≠ name) : Given name IsValue members none := by
  induction members with
  | nil => exact .never
  | cons member members ih =>
    obtain ⟨hname, hnames⟩ := List.forall_mem_cons.1 h
    exact .there hname (ih hnames)

theorem head (h : Given name IsValue ((name, cs) :: members) value) :
    ∃ a, value = some a ∧ IsValue a cs ∧ Given name IsValue members none := by
  cases h with
  | here hvalue hmore => exact ⟨_, rfl, hvalue, hmore⟩
  | there hname _ => exact absurd rfl hname

theorem tail (h : Given name IsValue ((other, cs) :: members) value) (hname : other ≠ name) :
    Given name IsValue members value := by
  cases h with
  | here => exact absurd rfl hname
  | there _ hmore => exact hmore

end Given

end Collate.Json
