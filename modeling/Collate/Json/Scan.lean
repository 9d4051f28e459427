/-
Reading JSON text from left to right. Readers take the text that is left and give back what is left
after what they read; the first thing that is wrong ends them. What is wrong is one of three: the
text breaks the grammar, it ends too early, or what it says is not what is wanted. Nothing is read
twice, so the first of several faults is the one reported.

Skipping is less strict than reading: the escapes of a skipped text need not be characters, and a
skipped number may be of any size.

This is one reader of JSON. What is proved of settings as text asks no more of a reader than
`Coding.Documented` does; that this one keeps to the grammar of `Collate.Json.Grammar` is proved in
`Collate.Proofs.Json.Skipping`.
-/
import Collate.Json.Grammar

set_option autoImplicit false

namespace Collate.Json

/-- What is wrong with a text. -/
inductive Fault where
  /-- It is not JSON, or something follows it. -/
  | grammar
  /-- It ends early. -/
  | early
  /-- It is JSON but not of the wanted form. -/
  | form
  deriving DecidableEq, Repr, Inhabited

/-- The outcome of reading: a value and the text that is left, or a fault. -/
abbrev Read (α : Type) := Except Fault (α × List Char)

/-! ## 1. Blanks and words -/

/-- The text behind blanks. -/
def skipBlanks (cs : List Char) : List Char := cs.dropWhile isBlank

/-- Skips the characters of a word. -/
def skipWord : List Char → List Char → Except Fault (List Char)
  | [], cs => .ok cs
  | _ :: _, [] => .error .early
  | w :: word, c :: cs => if c = w then skipWord word cs else .error .grammar

/-! ## 2. Texts -/

/-- What is wrong where four hexadecimal digits should stand: with fewer than four bytes left the
text ends early, otherwise they are no digits. -/
def hexFault (cs : List Char) : Fault :=
  if cs.foldr (fun c n => c.utf8Size + n) 0 < 4 then .early else .grammar

/-- Skips a text whose opening quote was read. -/
def skipText : List Char → Except Fault (List Char)
  | [] => .error .early
  | '"' :: rest => .ok rest
  | ['\\'] => .error .early
  | '\\' :: 'u' :: a :: b :: c :: d :: rest =>
    if (hexValue4? a b c d).isSome then skipText rest
    else .error (hexFault (a :: b :: c :: d :: rest))
  | '\\' :: 'u' :: rest => .error (hexFault rest)
  | '\\' :: e :: rest => if (simpleEscape? e).isSome then skipText rest else .error .grammar
  | c :: rest => if isPlain c then skipText rest else .error .grammar

/-- Puts a character in front of a text that was read. -/
def consRead (c : Char) : Read (List Char) → Read (List Char)
  | .ok (text, rest) => .ok (c :: text, rest)
  | .error fault => .error fault

/-- Reads a text whose opening quote was read. A unit that is half of a pair needs its other half.
-/
def readText : List Char → Read (List Char)
  | [] => .error .early
  | '"' :: rest => .ok ([], rest)
  | ['\\'] => .error .early
  | '\\' :: 'u' :: a :: b :: c :: d :: rest =>
    match hexValue4? a b c d with
    | none => .error (hexFault (a :: b :: c :: d :: rest))
    | some n =>
      -- The low half of a pair cannot come first.
      if 0xDC00 ≤ n ∧ n ≤ 0xDFFF then .error .grammar
      -- A high half must be followed by the escape of a low one.
      else if 0xD800 ≤ n ∧ n ≤ 0xDBFF then
        match rest with
        | [] => .error .early
        | ['\\'] => .error .early
        | '\\' :: 'u' :: a' :: b' :: c' :: d' :: rest' =>
          match hexValue4? a' b' c' d' with
          | none => .error (hexFault (a' :: b' :: c' :: d' :: rest'))
          | some low =>
            if 0xDC00 ≤ low ∧ low ≤ 0xDFFF then consRead (ofPair n low) (readText rest')
            else .error .grammar
        | '\\' :: 'u' :: rest' => .error (hexFault rest')
        | _ :: _ => .error .grammar
      else consRead (Char.ofNat n) (readText rest)
  | '\\' :: 'u' :: rest => .error (hexFault rest)
  | '\\' :: e :: rest =>
    match simpleEscape? e with
    | some c => consRead c (readText rest)
    | none => .error .grammar
  | c :: rest => if isPlain c then consRead c (readText rest) else .error .grammar

/-! ## 3. Skipping numbers -/

/-- The text behind digits. -/
def skipDigits (cs : List Char) : List Char := cs.dropWhile Char.isDigit

/-- Skips digits of which there must be one. -/
def skipSomeDigits : List Char → Except Fault (List Char)
  | [] => .error .grammar
  | c :: cs => if c.isDigit then .ok (skipDigits cs) else .error .grammar

/-- Skips an exponent, if there is one. -/
def skipExponent : List Char → Except Fault (List Char)
  | [] => .ok []
  | c :: cs =>
    if c = 'e' ∨ c = 'E' then
      match cs with
      | [] => .error .grammar
      | s :: cs' => if s = '+' ∨ s = '-' then skipSomeDigits cs' else skipSomeDigits (s :: cs')
    else .ok (c :: cs)

/-- Skips what may follow the whole part of a number. -/
def skipFraction : List Char → Except Fault (List Char)
  | '.' :: cs => (skipSomeDigits cs).bind skipExponent
  | cs => skipExponent cs

/-- Skips a number behind its sign. A zero in front is the whole part. -/
def skipNumber : List Char → Except Fault (List Char)
  | [] => .error .grammar
  -- A zero is the whole part; no digit may follow it.
  | c :: cs =>
    if c = '0' then
      match cs with
      | [] => .ok []
      | d :: _ => if d.isDigit then .error .grammar else skipFraction cs
    else if c.isDigit then skipFraction (skipDigits cs)
    else .error .grammar

/-! ## 4. Skipping values -/

mutual

/-- Skips a value, blanks in front of it included. -/
def skipValueIn : Nat → List Char → Except Fault (List Char)
  | 0, _ => .error .early
  | fuel + 1, cs =>
    match skipBlanks cs with
    | [] => .error .early
    | 'n' :: rest => skipWord ['u', 'l', 'l'] rest
    | 't' :: rest => skipWord ['r', 'u', 'e'] rest
    | 'f' :: rest => skipWord ['a', 'l', 's', 'e'] rest
    | '-' :: rest => skipNumber rest
    | '"' :: rest => skipText rest
    | '[' :: rest =>
      match skipBlanks rest with
      | [] => .error .early
      | ']' :: rest => .ok rest
      | rest => skipItemsIn fuel rest
    | '\x7b' :: rest =>
      match skipBlanks rest with
      | [] => .error .early
      | '\x7d' :: rest => .ok rest
      | rest => skipMembersIn fuel rest
    | c :: rest => if c.isDigit then skipNumber (c :: rest) else .error .grammar

/-- Skips one or more values and the bracket that closes their list. -/
def skipItemsIn : Nat → List Char → Except Fault (List Char)
  | 0, _ => .error .early
  | fuel + 1, cs =>
    match skipValueIn fuel cs with
    | .error fault => .error fault
    | .ok rest =>
      match skipBlanks rest with
      | [] => .error .early
      | ',' :: rest => skipItemsIn fuel rest
      | ']' :: rest => .ok rest
      | _ :: _ => .error .grammar

/-- Skips one or more members and the brace that closes their object. -/
def skipMembersIn : Nat → List Char → Except Fault (List Char)
  | 0, _ => .error .early
  | fuel + 1, cs =>
    match skipBlanks cs with
    | [] => .error .early
    | '"' :: rest =>
      match skipText rest with
      | .error fault => .error fault
      | .ok rest =>
        match skipBlanks rest with
        | [] => .error .early
        | ':' :: rest =>
          match skipValueIn fuel rest with
          | .error fault => .error fault
          | .ok rest =>
            match skipBlanks rest with
            | [] => .error .early
            | ',' :: rest => skipMembersIn fuel rest
            | '\x7d' :: rest => .ok rest
            | _ :: _ => .error .grammar
        | _ :: _ => .error .grammar
    | _ :: _ => .error .grammar

end

/-- Skips a value of any kind. Each value, item or member begins with a character of its own, and an
item or member is looked at twice, so twice the length of the text is enough. -/
def skipValue (cs : List Char) : Except Fault (List Char) := skipValueIn (2 * cs.length + 2) cs

end Collate.Json
