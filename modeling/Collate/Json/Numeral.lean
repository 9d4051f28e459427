/-
Numbers in JSON text. A number without fraction and exponent that fits a 64-bit word is read as that
word; every other number is read only to see where it ends, and whether it is one that binary
floating point can hold: a number beyond the largest double breaks the grammar. Which numbers those
are is decided exactly, on the digits that fit a word and the power of ten behind them.
-/
import Collate.Json.Scan

set_option autoImplicit false

namespace Collate.Json

/-- A number as far as it matters. -/
inductive Numeral where
  /-- A whole number that fits a 64-bit word. -/
  | word (n : UInt64)
  /-- A number that is negative, has a fraction or an exponent, or does not fit. -/
  | other
  deriving DecidableEq, Repr

/-! ## 1. Beyond the largest double -/

/-- The number of 53 significant bits next to `n`; of two equally near the even one. -/
def roundTo53 (n : Nat) : Nat :=
  let excess := n.log2 + 1 - 53
  let unit := Nat.pow 2 excess
  let low := n / unit
  let rest := 2 * (n % unit)
  if rest > unit ∨ (rest = unit ∧ low % 2 = 1) then (low + 1) * unit else low * unit

/-- The smallest number that a double cannot hold, rounding included. -/
def doubleLimit : Nat := Nat.pow 2 1024 - Nat.pow 2 970

/-- Whether `digits · 10 ^ power` is beyond the largest double, each factor being rounded first. -/
def isBeyondDouble (digits : Nat) (power : Int) : Bool :=
  digits ≠ 0 && 0 ≤ power &&
    (308 < power || doubleLimit ≤ roundTo53 digits * roundTo53 (Nat.pow 10 power.toNat))

/-! ## 2. Reading -/

/-- The largest 64-bit word. -/
def wordMax : Nat := UInt64.size - 1

/-- The largest exponent that is still counted. -/
def exponentMax : Nat := 2147483647

/-- The value of a decimal digit. -/
def digitValue (c : Char) : Nat := c.toNat - '0'.toNat

/-- Reads digits for as long as the value stays at most `limit`: the value, how many digits were
read, and the text behind them. -/
def readDigits (limit : Nat) (value count : Nat) : List Char → Nat × Nat × List Char
  | [] => (value, count, [])
  | c :: cs =>
    if c.isDigit && value * 10 + digitValue c ≤ limit then
      readDigits limit (value * 10 + digitValue c) (count + 1) cs
    else (value, count, c :: cs)

/-- Whether a text begins with a digit. -/
def startsWithDigit : List Char → Bool
  | [] => false
  | c :: _ => c.isDigit

/-- Ends a number that is not a word. -/
def endOther (digits : Nat) (power : Int) (cs : List Char) : Read Numeral :=
  if isBeyondDouble digits power then .error .grammar else .ok (.other, cs)

/-- Reads what follows the `e` of an exponent and its sign. -/
def readExponentDigits (digits : Nat) (power : Int) (negative : Bool) (cs : List Char) :
    Read Numeral :=
  match cs with
  | [] => .error .early
  | c :: _ =>
    if !c.isDigit then .error .grammar
    else
      let (exponent, _, rest) := readDigits exponentMax 0 0 cs
      -- An exponent beyond what is counted is too large, unless it only makes a number smaller or
      -- the number is zero.
      if startsWithDigit rest then
        if digits ≠ 0 && !negative then .error .grammar else .ok (.other, skipDigits rest)
      else
        let power := if negative then power - (exponent : Int) else power + (exponent : Int)
        endOther digits power rest

/-- Reads what follows the `e` of an exponent. -/
def readExponent (digits : Nat) (power : Int) : List Char → Read Numeral
  | '+' :: cs => readExponentDigits digits power false cs
  | '-' :: cs => readExponentDigits digits power true cs
  | cs => readExponentDigits digits power false cs

/-- Reads an exponent if there is one, and ends the number. -/
def readEnd (digits : Nat) (power : Int) : List Char → Read Numeral
  | 'e' :: cs => readExponent digits power cs
  | 'E' :: cs => readExponent digits power cs
  | cs => endOther digits power cs

/-- Reads what follows the point of a fraction. Digits that fit no more are passed over. -/
def readFraction (digits : Nat) (power : Int) (cs : List Char) : Read Numeral :=
  let (value, count, rest) := readDigits wordMax digits 0 cs
  -- Digits beyond a word change nothing, so they are skipped and not counted.
  if startsWithDigit rest then readEnd value (power - (count : Int)) (skipDigits rest)
  else if count = 0 then .error (if rest.isEmpty then .early else .grammar)
  else readEnd value (power - (count : Int)) rest

/-- Reads what follows a whole part that fits a word. -/
def readAfterWord (negative : Bool) (digits : Nat) : List Char → Read Numeral
  | '.' :: cs => readFraction digits 0 cs
  | 'e' :: cs => readExponent digits 0 cs
  | 'E' :: cs => readExponent digits 0 cs
  | cs => .ok (if negative then .other else .word (UInt64.ofNat digits), cs)

/-- Reads what follows a whole part of which `power` digits did not fit. -/
def readAfterLong (digits power : Nat) : List Char → Read Numeral
  | '.' :: cs => readFraction digits power cs
  | cs => readEnd digits power cs

/-- Reads a number behind its sign. -/
def readNumber (negative : Bool) : List Char → Read Numeral
  | [] => .error .early
  | c :: cs =>
    if c = '0' then
      if startsWithDigit cs then .error .grammar else readAfterWord negative 0 cs
    else if c.isDigit then
      let (value, _, rest) := readDigits wordMax 0 0 (c :: cs)
      -- The digits that do not fit are not looked at; each stands for a power of ten.
      if startsWithDigit rest then
        let behind := skipDigits rest
        readAfterLong value (rest.length - behind.length) behind
      else readAfterWord negative value rest
    else .error .grammar

end Collate.Json
