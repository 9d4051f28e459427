/-
The coding that reads records of JSON text is a documented one.

Each field of the declaration is read by a field of the record, which keeps its value apart from the
others (`Follows`). A member that holds what it should is then read in the text of its object just as it
is read by itself, so reading the object is taking its members one after the other.
-/
import Collate.Settings.Text
import Collate.Proofs.Json.Reading

set_option autoImplicit false

namespace Collate

open Json

/-! ## 1. Records that are read as they are declared -/

namespace Json.Record

variable {σ α : Type} {d : Declaration α}

/-- A record is read as it is declared, and `given` tells which values were read. -/
structure Follows (record : Record σ α) (d : Declaration α)
    (given : σ → (field : d.Field) → Option (d.Value field)) : Prop where
  lenient : record.strict = false
  blank : ∀ field, given record.blank field = none
  known : ∀ field, ∃ reader, record.fields.find? (fun f => f.name.toList = (d.name field).toList)
      = some reader
    ∧ (∀ s, reader.given s = (given s field).isSome)
    ∧ ∀ {s : σ} {v : d.Value field} {cs : List Char}, (d.spelling field).IsText v cs →
      ∃ s', Yields (reader.read s) cs s' ∧ given s' field = some v
        ∧ ∀ other, other ≠ field → given s' other = given s other
  unknown : ∀ {name : String}, (∀ field, d.name field ≠ name) →
    record.fields.find? (fun f => f.name.toList = name.toList) = none
  judge : ∀ s, ∃ a, record.judge s = .ok a
    ∧ ∀ field, d.get field a = (given s field).getD (d.get field d.default)

variable {record : Record σ α} {given : σ → (field : d.Field) → Option (d.Value field)}
  {text : α → String} {s s' s'' : σ} {name : String} {cs : List Char}
  {members : List (String × List Char)}

/-- A member is read by itself as it is read in its object. -/
theorem visit_eq (h : Takes record.fields record.strict s [(name, cs)] s') :
    (record.coding given text).visit s name cs = .ok s' := by
  obtain ⟨s₁, hnil, hread⟩ := h.step
  cases hnil
  obtain ⟨b, -, hmember⟩ := hread [] [] .nil (fun _ hc => by cases hc)
  rw [List.append_nil] at hmember
  show (readMember record.fields record.strict s name.toList (':' :: cs)).map Prod.fst = _
  rw [List.nil_append] at hmember
  rw [hmember]
  rfl

/-- A field that was given cannot be given again. -/
theorem visit_given {reader : Json.Field σ}
    (hfind : record.fields.find? (fun f => f.name.toList = name.toList) = some reader)
    (hgiven : reader.given s = true) :
    (record.coding given text).visit s name cs = .error .form := by
  show (readMember record.fields record.strict s name.toList (':' :: cs)).map Prod.fst = _
  simp only [readMember, hfind, hgiven]
  rfl

namespace Follows

/-- What taking a member of a field does. -/
theorem takes_known (h : record.Follows d given) {field : d.Field} {v : d.Value field}
    (hnone : given s field = none) (hcs : (d.spelling field).IsText v cs) :
    ∃ s', Takes record.fields record.strict s [(d.name field, cs)] s' ∧ given s' field = some v
      ∧ ∀ other, other ≠ field → given s' other = given s other := by
  obtain ⟨reader, hfind, hgiven, hread⟩ := h.known field
  obtain ⟨s', hyields, hvalue, hsame⟩ := hread (s := s) hcs
  refine ⟨s', .field hfind ?_ hyields .nil, hvalue, hsame⟩
  rw [hgiven, hnone]
  rfl

theorem takes_unknown (h : record.Follows d given) (hname : ∀ field, d.name field ≠ name)
    (hcs : IsJson .element cs) : Takes record.fields record.strict s [(name, cs)] s :=
  .other (h.unknown hname) h.lenient hcs .nil

/-- A member that holds what it should was taken if it was read by itself. -/
theorem takes_admitted (h : record.Follows d given) (hadmits : d.Admits (name, cs))
    (hvisit : (record.coding given text).visit s name cs = .ok s') :
    Takes record.fields record.strict s [(name, cs)] s' := by
  rcases hadmits with ⟨field, v, rfl, hcs⟩ | ⟨hname, hcs⟩
  · cases hnone : given s field with
    | none =>
      obtain ⟨s₁, htakes, -⟩ := h.takes_known hnone hcs
      rw [visit_eq htakes] at hvisit
      exact Except.ok.inj hvisit ▸ htakes
    | some _ =>
      obtain ⟨reader, hfind, hgiven, -⟩ := h.known field
      rw [visit_given hfind (by rw [hgiven, hnone]; rfl)] at hvisit
      cases hvisit
  · have htakes := h.takes_unknown (s := s) hname hcs
    rw [visit_eq htakes] at hvisit
    exact Except.ok.inj hvisit ▸ htakes

theorem takes_all (h : record.Follows d given) (hadmits : ∀ member ∈ members, d.Admits member)
    (hvisit : (record.coding given text).visitAll s members = .ok s') :
    Takes record.fields record.strict s members s' := by
  induction members generalizing s with
  | nil =>
    cases hvisit
    exact .nil
  | cons member members ih =>
    obtain ⟨name, cs⟩ := member
    obtain ⟨hmember, hmembers⟩ := List.forall_mem_cons.1 hadmits
    have hone := (Coding.visitAll_cons (record.coding given text) s name cs members).symm.trans hvisit
    cases hfirst : (record.coding given text).visit s name cs with
    | error fault =>
      rw [hfirst] at hone
      cases hone
    | ok s₁ =>
      rw [hfirst] at hone
      exact (h.takes_admitted hmember hfirst).cons (ih hmembers hone)

/-- **A record that is read as it is declared has a documented coding**, if it is written as an object of
its fields. -/
theorem documented (h : record.Follows d given) (htext : ∀ a, ∃ written : d.Field → List Char,
      (∀ field, (d.spelling field).IsWritten (d.get field a) (written field))
        ∧ IsObject (d.order.map fun field => (d.name field, written field)) (text a).toList) :
    (record.coding given text).Documented where
  text := htext
  nothing := h.blank
  visit_field hnone hcs := by
    obtain ⟨s', htakes, hvalue, hsame⟩ := h.takes_known hnone hcs
    exact ⟨s', visit_eq htakes, hvalue, hsame⟩
  visit_other _ _ _ hname hcs := ⟨_, visit_eq (h.takes_unknown hname hcs), fun _ => rfl⟩
  finish := h.judge
  ofText htext hadmits hvisit hfinish :=
    ofText_yields (read_object htext (h.takes_all hadmits hvisit) hfinish)

end Follows

end Json.Record

/-! ## 2. Durations -/

variable {cs cs' text : List Char} {members : List (String × List Char)}

theorem le_wordLimit (n : UInt64) : n ≤ wordLimit :=
  UInt64.le_iff_toNat_le.2 (Nat.le_of_lt_succ n.toNat_lt)

namespace Duration

variable {d : Duration} {seconds nanos : UInt64}

theorem ofParts_eq_some {whole part : Nat} (h : d.nanos = whole * nanosPerSecond + part) :
    ofParts? whole part = some d := by
  rw [nanosPerSecond] at h
  simp only [ofParts?, ← h]
  exact dif_pos d.inRange

variable {p s : DurationParts}

/-- Both fields that are given are put together. That is said of any way to do so, since the sum of
two words is not to be computed here. -/
theorem judge_given (parts : Nat → Nat → Option Duration) (hseconds : p.seconds = some seconds)
    (hnanos : p.nanos = some nanos) (h : parts seconds.toNat nanos.toNat = some d) :
    (match p.seconds, p.nanos with
      | some seconds, some nanos =>
        match parts seconds.toNat nanos.toNat with
        | some d => Except.ok d
        | none => .error Fault.form
      | _, _ => .error Fault.form) = .ok d := by
  simp only [hseconds, hnanos, h]

theorem IsParts.judge (h : d.IsParts cs cs' seconds nanos) (hseconds : p.seconds = some seconds)
    (hnanos : p.nanos = some nanos) : record.judge p = .ok d := by
  simp only [record]
  exact judge_given ofParts? hseconds hnanos (ofParts_eq_some h.sum)

theorem read_seconds (hcs : IsWord seconds cs) (p : DurationParts) :
    Yields (fun cs => (readWord wordLimit cs).map fun (n, rest) =>
      ({ p with seconds := some n }, rest)) cs { p with seconds := some seconds } :=
  (readWord_yields hcs (le_wordLimit seconds)).map fun n => { p with seconds := some n }

theorem read_nanos (hcs : IsWord nanos cs) (hin : nanos ≤ nanosLimit) (p : DurationParts) :
    Yields (fun cs => (readWord nanosLimit cs).map fun (n, rest) =>
      ({ p with nanos := some n }, rest)) cs { p with nanos := some nanos } :=
  (readWord_yields hcs hin).map fun n => { p with nanos := some n }

theorem takes_seconds (hcs : IsWord seconds cs) (hp : p.seconds = none)
    (hmore : Takes record.fields record.strict { p with seconds := some seconds } members s) :
    Takes record.fields record.strict p (("secs", cs) :: members) s :=
  .field rfl (congrArg Option.isSome hp) (read_seconds hcs p) hmore

theorem takes_nanos (hcs : IsWord nanos cs) (hin : nanos ≤ nanosLimit) (hp : p.nanos = none)
    (hmore : Takes record.fields record.strict { p with nanos := some nanos } members s) :
    Takes record.fields record.strict p (("nanos", cs) :: members) s :=
  .field rfl (congrArg Option.isSome hp) (read_nanos hcs hin p) hmore

/-- **A duration is read from each of its texts.** -/
theorem read_duration (h : d.IsDuration text) : Yields record.read text d := by
  cases h with
  | secondsFirst h htext =>
    exact read_object htext
      (takes_seconds h.isSeconds rfl (takes_nanos h.isNanos h.inRange rfl .nil)) (h.judge rfl rfl)
  | nanosFirst h htext =>
    exact read_object htext
      (takes_nanos h.isNanos h.inRange rfl (takes_seconds h.isSeconds rfl .nil)) (h.judge rfl rfl)
  | array h htext =>
    exact read_pair rfl htext h.isSeconds h.isNanos (fun _ hcs => read_seconds hcs _)
      (fun _ hcs => read_nanos hcs h.inRange _) (h.judge rfl rfl)

end Duration

/-! ## 3. Settings -/

/-- The names of all fields are written as they are. -/
theorem spells_field {name : String}
    (h : name ∈ ["secs", "nanos", "max_size", "max_delay", "max_concurrent_windows"]) :
    Spells name.toList name.toList := by
  simp only [List.mem_cons, List.not_mem_nil, or_false] at h
  rcases h with rfl | rfl | rfl | rfl | rfl <;> exact spells_plain rfl

/-- What is written of a duration, without blanks. -/
theorem Duration.isWritten_textOf (d : Duration) : d.IsWritten d.textOf := by
  have hseconds := isWord_natText (UInt64.ofNat d.seconds)
  have hnanos := isWord_natText (UInt64.ofNat d.subsecNanos)
  rw [d.toNat_seconds] at hseconds
  rw [d.toNat_subsecNanos] at hnanos
  refine ⟨_, _, hseconds, hnanos, isObject_objectText (by simp) ?_⟩
  exact List.forall_mem_cons.2 ⟨spells_field (by simp),
    List.forall_mem_singleton.2 (spells_field (by simp))⟩

namespace WindowSettings

theorem follows : record.Follows declaration fun parts field => match field with
    | .maxSize => parts.maxSize
    | .maxDelay => parts.maxDelay where
  lenient := rfl
  blank field := by cases field <;> rfl
  known field := by
    cases field with
    | maxSize =>
      refine ⟨_, rfl, fun _ => rfl, fun {s v cs} hcs => ?_⟩
      refine ⟨{ s with maxSize := some v },
        (readWord_yields hcs (le_wordLimit v)).map fun n => { s with maxSize := some n }, rfl, ?_⟩
      intro other hother
      cases other with
      | maxSize => exact absurd rfl hother
      | maxDelay => rfl
    | maxDelay =>
      refine ⟨_, rfl, fun _ => rfl, fun {s v cs} hcs => ?_⟩
      refine ⟨{ s with maxDelay := some v },
        (Duration.read_duration hcs).map fun d => { s with maxDelay := some d }, rfl, ?_⟩
      intro other hother
      cases other with
      | maxSize => rfl
      | maxDelay => exact absurd rfl hother
  unknown hname := find_eq_none (List.forall_mem_cons.2 ⟨Ne.symm (hname .maxSize),
    List.forall_mem_singleton.2 (Ne.symm (hname .maxDelay))⟩)
  judge s := ⟨_, rfl, fun field => by cases field <;> rfl⟩

/-- **Window settings are coded as documented.** -/
theorem coding_documented : coding.Documented :=
  follows.documented fun s => by
    refine ⟨fun field => match field with
      | .maxSize => natText s.maxSize.toNat
      | .maxDelay => s.maxDelay.textOf, fun field => ?_, ?_⟩
    · cases field with
      | maxSize => exact isWord_natText s.maxSize
      | maxDelay => exact s.maxDelay.isWritten_textOf
    · have htext : IsObject [("max_size", natText s.maxSize.toNat), ("max_delay", s.maxDelay.textOf)]
          s.text.toList := by
        rw [text, String.toList_ofList]
        exact isObject_objectText (by simp) (List.forall_mem_cons.2 ⟨spells_field (by simp),
          List.forall_mem_singleton.2 (spells_field (by simp))⟩)
      exact htext

end WindowSettings

namespace AssembleSettings

theorem follows : record.Follows declaration fun given _ => given where
  lenient := rfl
  blank _ := rfl
  known field := by
    cases field with
    | maxConcurrentWindows =>
      refine ⟨_, rfl, fun _ => rfl, fun {s v cs} hcs => ?_⟩
      refine ⟨some v, (readWord_yields hcs (le_wordLimit v)).map some, rfl, ?_⟩
      exact fun other hother => absurd (declaration.name_inj rfl) hother
  unknown hname := find_eq_none
    (List.forall_mem_singleton.2 (Ne.symm (hname .maxConcurrentWindows)))
  judge s := ⟨_, rfl, fun _ => rfl⟩

/-- **Assemble settings are coded as documented.** -/
theorem coding_documented : coding.Documented :=
  follows.documented fun s => by
    refine ⟨fun _ => natText s.maxConcurrentWindows.toNat,
      fun _ => isWord_natText s.maxConcurrentWindows, ?_⟩
    have htext : IsObject [("max_concurrent_windows", natText s.maxConcurrentWindows.toNat)]
        s.text.toList := by
      rw [text, String.toList_ofList]
      exact isObject_objectText (by simp) (List.forall_mem_singleton.2 (spells_field (by simp)))
    exact htext

end AssembleSettings

end Collate
