/-
One coding of settings as JSON text. Written, a setting is an object of all its fields in order,
without blanks; read, each field that is not given has its default. Durations are read strictly: both
parts must be given, and no others; nanoseconds beyond a second count as seconds. Settings may also be
given as an array of their fields.

What is proved of settings as text holds for every coding that keeps to `Coding.Documented`; this one
does (`Collate.Proofs.Settings.Text`).
-/
import Collate.Settings.Coding
import Collate.Json.Record

set_option autoImplicit false

namespace Collate

open Json

/-! ## 1. Durations -/

/-- The fields of a duration that were given. -/
structure DurationParts where
  seconds : Option UInt64 := none
  nanos : Option UInt64 := none

/-- The largest 64-bit word. -/
def wordLimit : UInt64 := 18446744073709551615

/-- How a duration is read. -/
def Duration.record : Record DurationParts Duration where
  fields :=
    [{ name := "secs", given := fun p => p.seconds.isSome
       read := fun p cs => (readWord wordLimit cs).map fun (n, rest) =>
         ({ p with seconds := some n }, rest) },
     { name := "nanos", given := fun p => p.nanos.isSome
       read := fun p cs => (readWord Duration.nanosLimit cs).map fun (n, rest) =>
         ({ p with nanos := some n }, rest) }]
  strict := true
  blank := {}
  judge p := match p.seconds, p.nanos with
    | some seconds, some nanos =>
      match Duration.ofParts? seconds.toNat nanos.toNat with
      | some d => .ok d
      | none => .error .form
    | _, _ => .error .form

/-- A duration as text. -/
def Duration.textOf (d : Duration) : List Char :=
  objectText [("secs", natText d.seconds), ("nanos", natText d.subsecNanos)]

/-! ## 2. Codings of records -/

/-- A coding that reads a record and notes in which of its parts the value of a field is kept. -/
def Json.Record.coding {σ α : Type} (record : Record σ α) {d : Declaration α}
    (given : σ → (field : d.Field) → Option (d.Value field)) (text : α → String) :
    Coding Fault d where
  text := text
  ofText := record.ofText
  Found := σ
  nothing := record.blank
  given := given
  visit found name cs :=
    (readMember record.fields record.strict found name.toList (':' :: cs)).map Prod.fst
  finish := record.judge

/-! ## 3. Windows -/

/-- The fields of window settings that were given. -/
structure WindowParts where
  maxSize : Option UInt64 := none
  maxDelay : Option Duration := none

namespace WindowSettings

/-- How window settings are read. -/
def record : Record WindowParts WindowSettings where
  fields :=
    [{ name := "max_size", given := fun p => p.maxSize.isSome
       read := fun p cs => (readWord wordLimit cs).map fun (n, rest) =>
         ({ p with maxSize := some n }, rest) },
     { name := "max_delay", given := fun p => p.maxDelay.isSome
       read := fun p cs => (Duration.record.read cs).map fun (d, rest) =>
         ({ p with maxDelay := some d }, rest) }]
  strict := false
  blank := {}
  judge p :=
    let defaults : WindowSettings := {}
    .ok ⟨p.maxSize.getD defaults.maxSize, p.maxDelay.getD defaults.maxDelay⟩

/-- Window settings as text. -/
def text (s : WindowSettings) : String :=
  String.ofList (objectText
    [("max_size", natText s.maxSize.toNat), ("max_delay", s.maxDelay.textOf)])

/-- The window settings that a text stands for. -/
def ofText (text : String) : Except Fault WindowSettings := record.ofText text

/-- Both together. -/
def coding : Coding Fault declaration :=
  record.coding (fun parts field => match field with
    | .maxSize => parts.maxSize
    | .maxDelay => parts.maxDelay) text

end WindowSettings

/-! ## 4. Assembling -/

namespace AssembleSettings

/-- How assemble settings are read. -/
def record : Record (Option UInt64) AssembleSettings where
  fields :=
    [{ name := "max_concurrent_windows", given := Option.isSome
       read := fun _ cs => (readWord wordLimit cs).map fun (n, rest) => (some n, rest) }]
  strict := false
  blank := none
  judge p :=
    let defaults : AssembleSettings := {}
    .ok ⟨p.getD defaults.maxConcurrentWindows⟩

/-- Assemble settings as text. -/
def text (s : AssembleSettings) : String :=
  String.ofList (objectText [("max_concurrent_windows", natText s.maxConcurrentWindows.toNat)])

/-- The assemble settings that a text stands for. -/
def ofText (text : String) : Except Fault AssembleSettings := record.ofText text

/-- Both together. -/
def coding : Coding Fault declaration := record.coding (fun given _ => given) text

end AssembleSettings

end Collate
