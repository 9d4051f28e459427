/-
Settings as JSON text. Settings are declared: their fields in order, each with its name and type, and
the settings whose fields stand in for those that are missing. The rest is derived from this
(`Serialize`, and `Deserialize` with `default`), and text is written and read by a library of JSON
(`to_string`, `from_str`). Neither is part of this library.

So both are a parameter. A `Coding` writes settings and reads them, and goes through the members of an
object one after the other, keeping what was given so far. `Coding.Documented` says what is documented
of that, for one member at a time. What words and durations look like in text is documented too
(`Spelling`): a duration is written as its whole seconds and the nanoseconds beside them.
-/
import Collate.Settings
import Collate.Json.Grammar

set_option autoImplicit false

namespace Collate

open Json

/-! ## 1. What values look like -/

/-- The texts that stand for a value of a type, with blanks around them, and those of them that it may
be written as. -/
structure Spelling (V : Type) where
  IsText : V → List Char → Prop
  IsWritten : V → List Char → Prop
  isText : ∀ {v : V} {cs : List Char}, IsWritten v cs → IsText v cs

/-- A word is a number without sign, fraction and exponent. -/
def Spelling.word : Spelling UInt64 := ⟨IsWord, IsWord, id⟩

namespace Duration

/-- The most nanoseconds that can stand beside the seconds, a 32-bit word. -/
def nanosLimit : UInt64 := 4294967295

/-- Texts of whole seconds and nanoseconds that make up a duration. -/
structure IsParts (d : Duration) (cs cs' : List Char) (seconds nanos : UInt64) : Prop where
  isSeconds : IsWord seconds cs
  isNanos : IsWord nanos cs'
  inRange : nanos ≤ nanosLimit
  sum : d.nanos = seconds.toNat * nanosPerSecond + nanos.toNat

/-- The texts of a duration, with blanks around it. -/
inductive IsDuration (d : Duration) : List Char → Prop where
  | secondsFirst {cs cs' text : List Char} {seconds nanos : UInt64}
      (hparts : d.IsParts cs cs' seconds nanos)
      (htext : IsObject [("secs", cs), ("nanos", cs')] text) : IsDuration d text
  | nanosFirst {cs cs' text : List Char} {seconds nanos : UInt64}
      (hparts : d.IsParts cs cs' seconds nanos)
      (htext : IsObject [("nanos", cs'), ("secs", cs)] text) : IsDuration d text
  | array {cs cs' text : List Char} {seconds nanos : UInt64}
      (hparts : d.IsParts cs cs' seconds nanos) (htext : IsPair cs cs' text) : IsDuration d text

/-- A duration is written as an object of its whole seconds and what is left beside them. -/
def IsWritten (d : Duration) (text : List Char) : Prop :=
  ∃ cs cs', IsWord (UInt64.ofNat d.seconds) cs ∧ IsWord (UInt64.ofNat d.subsecNanos) cs'
    ∧ IsObject [("secs", cs), ("nanos", cs')] text

variable {d : Duration}

theorem toNat_seconds (d : Duration) : (UInt64.ofNat d.seconds).toNat = d.seconds :=
  UInt64.toNat_ofNat_of_lt (Nat.div_lt_of_lt_mul (Nat.mul_comm UInt64.size _ ▸ d.inRange))

theorem subsecNanos_lt (d : Duration) : d.subsecNanos < nanosPerSecond := Nat.mod_lt _ (by decide)

theorem toNat_subsecNanos (d : Duration) : (UInt64.ofNat d.subsecNanos).toNat = d.subsecNanos :=
  UInt64.toNat_ofNat_of_lt (Nat.lt_trans d.subsecNanos_lt (by decide))

/-- Seconds and nanoseconds that are written make up the duration again. -/
theorem isParts_written {cs cs' : List Char} (hseconds : IsWord (UInt64.ofNat d.seconds) cs)
    (hnanos : IsWord (UInt64.ofNat d.subsecNanos) cs') :
    d.IsParts cs cs' (UInt64.ofNat d.seconds) (UInt64.ofNat d.subsecNanos) := by
  refine ⟨hseconds, hnanos, ?_, ?_⟩
  · rw [UInt64.le_iff_toNat_le, toNat_subsecNanos]
    exact Nat.le_of_lt (Nat.lt_trans d.subsecNanos_lt (by decide))
  · rw [toNat_seconds, toNat_subsecNanos]
    exact (Nat.div_add_mod' d.nanos nanosPerSecond).symm

theorem IsWritten.isDuration {text : List Char} (h : d.IsWritten text) : d.IsDuration text := by
  obtain ⟨cs, cs', hseconds, hnanos, htext⟩ := h
  exact .secondsFirst (isParts_written hseconds hnanos) htext

end Duration

/-- A duration is an object or an array of its seconds and nanoseconds. -/
def Spelling.duration : Spelling Duration :=
  ⟨Duration.IsDuration, Duration.IsWritten, Duration.IsWritten.isDuration⟩

/-! ## 2. Declarations -/

/-- A record as it is declared. Names tell fields apart, and fields tell records apart. -/
structure Declaration (α : Type) where
  Field : Type
  /-- All fields in order. -/
  order : List Field
  name : Field → String
  Value : Field → Type
  get : (field : Field) → α → Value field
  spelling : (field : Field) → Spelling (Value field)
  /-- The record whose fields stand in for those that are missing. -/
  default : α
  mem_order : ∀ field, field ∈ order
  nodup_order : order.Nodup
  name_inj : ∀ {field other : Field}, name field = name other → field = other
  ext : ∀ {a b : α}, (∀ field, get field a = get field b) → a = b

/-- Whether a member of an object holds what it should: a value of the field of its name, or any value
if no field has its name. -/
def Declaration.Admits {α : Type} (d : Declaration α) (member : String × List Char) : Prop :=
  (∃ field v, d.name field = member.1 ∧ (d.spelling field).IsText v member.2)
    ∨ (∀ field, d.name field ≠ member.1) ∧ IsJson .element member.2

namespace WindowSettings

/-- The fields of window settings. -/
inductive Field where
  | maxSize
  | maxDelay

/-- Window settings as they are declared. -/
def declaration : Declaration WindowSettings where
  Field := Field
  order := [.maxSize, .maxDelay]
  name
    | .maxSize => "max_size"
    | .maxDelay => "max_delay"
  Value
    | .maxSize => UInt64
    | .maxDelay => Duration
  get
    | .maxSize => WindowSettings.maxSize
    | .maxDelay => WindowSettings.maxDelay
  spelling
    | .maxSize => .word
    | .maxDelay => .duration
  default := {}
  mem_order field := by cases field <;> simp
  nodup_order := by simp
  name_inj {field other} h := by cases field <;> cases other <;> simp_all
  ext {a b} h := by
    obtain ⟨size, delay⟩ := a
    have hsize : size = b.maxSize := h .maxSize
    have hdelay : delay = b.maxDelay := h .maxDelay
    rw [hsize, hdelay]

end WindowSettings

namespace AssembleSettings

/-- The fields of assemble settings. -/
inductive Field where
  | maxConcurrentWindows

/-- Assemble settings as they are declared. -/
def declaration : Declaration AssembleSettings where
  Field := Field
  order := [.maxConcurrentWindows]
  name _ := "max_concurrent_windows"
  Value _ := UInt64
  get _ := AssembleSettings.maxConcurrentWindows
  spelling _ := .word
  default := {}
  mem_order field := by cases field; simp
  nodup_order := by simp
  name_inj {field other} _ := by cases field; cases other; rfl
  ext {a b} h := by
    obtain ⟨windows⟩ := a
    have hwindows : windows = b.maxConcurrentWindows := h .maxConcurrentWindows
    rw [hwindows]

end AssembleSettings

/-! ## 3. Codings -/

/-- What is derived from a declaration: how records are written and read, and how reading goes through
the members of an object. -/
structure Coding (ε : Type) {α : Type} (d : Declaration α) where
  text : α → String
  ofText : String → Except ε α
  /-- The fields that were given so far. -/
  Found : Type
  nothing : Found
  given : Found → (field : d.Field) → Option (d.Value field)
  /-- Takes the next member: its name, and its value as it is written. -/
  visit : Found → (name : String) → (value : List Char) → Except ε Found
  /-- Makes the record at the end of the object. -/
  finish : Found → Except ε α

namespace Coding

variable {ε α : Type} {d : Declaration α}

/-- Takes members one after the other. -/
def visitAll (c : Coding ε d) (found : c.Found) (members : List (String × List Char)) :
    Except ε c.Found :=
  members.foldlM (fun found member => c.visit found member.1 member.2) found

theorem visitAll_cons (c : Coding ε d) (found : c.Found) (name : String) (cs : List Char)
    (members : List (String × List Char)) : c.visitAll found ((name, cs) :: members)
      = (c.visit found name cs).bind fun found => c.visitAll found members := by
  rw [visitAll, List.foldlM_cons]
  rfl

/-- What is documented of a derived coding. -/
structure Documented (c : Coding ε d) : Prop where
  /-- A record is written as an object of its fields, in order. -/
  text : ∀ a, ∃ written : d.Field → List Char,
    (∀ field, (d.spelling field).IsWritten (d.get field a) (written field))
      ∧ IsObject (d.order.map fun field => (d.name field, written field)) (c.text a).toList
  /-- At first no field is given. -/
  nothing : ∀ field, c.given c.nothing field = none
  /-- A field that was not given yet is given the value that stands behind its name. -/
  visit_field : ∀ {found : c.Found} {field : d.Field} {v : d.Value field} {cs : List Char},
    c.given found field = none → (d.spelling field).IsText v cs →
    ∃ found', c.visit found (d.name field) cs = .ok found' ∧ c.given found' field = some v
      ∧ ∀ other, other ≠ field → c.given found' other = c.given found other
  /-- Members that are not known are ignored, whatever value they have. -/
  visit_other : ∀ (found : c.Found) {name : String} {cs : List Char},
    (∀ field, d.name field ≠ name) → IsJson .element cs →
    ∃ found', c.visit found name cs = .ok found' ∧ ∀ field, c.given found' field = c.given found field
  /-- Fields that are missing are filled in from the default. -/
  finish : ∀ found, ∃ a, c.finish found = .ok a
    ∧ ∀ field, d.get field a = (c.given found field).getD (d.get field d.default)
  /-- An object is read by taking its members in order, however it is laid out. -/
  ofText : ∀ {text : String} {members : List (String × List Char)} {found : c.Found} {a : α},
    IsObject members text.toList → (∀ member ∈ members, d.Admits member) →
    c.visitAll c.nothing members = .ok found → c.finish found = .ok a → c.ofText text = .ok a

end Coding

end Collate
