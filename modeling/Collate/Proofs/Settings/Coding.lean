/-
What follows from a declaration for every documented coding.

What is documented of a coding is about one member of an object at a time. A member gives its field a
value or is ignored, and leaves the other fields as they were (`visit_cons`). So after all members each
field was given what the object says of it, in whichever order the members stand (`visitAll_gives`), and
the record that is read has these values and otherwise those of the default (`ofText_gives`). A text
that was written is one of the texts of the object of all fields, so the same record is read from it
(`ofText_text`).
-/
import Collate.Settings.Coding

set_option autoImplicit false

namespace Collate

open Json

variable {ε α : Type} {d : Declaration α}

/-! ## 1. What an object says -/

/-- What an object says of all fields. Members of other names hold any value. -/
structure Declaration.Gives (d : Declaration α) (members : List (String × List Char))
    (values : (field : d.Field) → Option (d.Value field)) : Prop where
  field : ∀ field, Given (d.name field) (d.spelling field).IsText members (values field)
  other : ∀ member ∈ members, (∀ field, d.name field ≠ member.1) → IsJson .element member.2

namespace Declaration.Gives

variable {members : List (String × List Char)} {values : (field : d.Field) → Option (d.Value field)}
  {name : String} {cs : List Char}

/-- The member in front gives one field its value, and others say nothing more of that field. Or no
field has its name. -/
theorem head (h : d.Gives ((name, cs) :: members) values) :
    (∃ field v, d.name field = name ∧ values field = some v ∧ (d.spelling field).IsText v cs
      ∧ Given (d.name field) (d.spelling field).IsText members none)
    ∨ (∀ field, d.name field ≠ name) ∧ IsJson .element cs := by
  by_cases hname : ∃ field, d.name field = name
  · obtain ⟨field, rfl⟩ := hname
    obtain ⟨v, hv, hcs, hnone⟩ := (h.field field).head
    exact Or.inl ⟨field, v, rfl, hv, hcs, hnone⟩
  · have hother : ∀ field, d.name field ≠ name := fun field hfield => hname ⟨field, hfield⟩
    exact Or.inr ⟨hother, h.other _ List.mem_cons_self hother⟩

/-- What the members behind it say, of the field it is about too. -/
theorem tail (h : d.Gives ((name, cs) :: members) values) :
    ∃ values' : (field : d.Field) → Option (d.Value field), d.Gives members values'
      ∧ ∀ field, values' field = if d.name field = name then none else values field := by
  refine ⟨fun field => if d.name field = name then none else values field, ⟨fun field => ?_, ?_⟩,
    fun _ => rfl⟩
  · split
    · next hname =>
      obtain ⟨_, _, _, hnone⟩ := (hname ▸ h.field field).head
      exact hname ▸ hnone
    · next hname => exact (h.field field).tail (Ne.symm hname)
  · exact fun member hmember => h.other member (List.mem_cons_of_mem _ hmember)

theorem admits (h : d.Gives members values) : ∀ member ∈ members, d.Admits member := by
  induction members generalizing values with
  | nil => exact fun _ hmember => absurd hmember List.not_mem_nil
  | cons member members ih =>
    obtain ⟨_, hrest, -⟩ := h.tail
    refine List.forall_mem_cons.2 ⟨?_, ih hrest⟩
    rcases h.head with ⟨field, v, hname, -, hcs, -⟩ | hother
    · exact Or.inl ⟨field, v, hname, hcs⟩
    · exact Or.inr hother

end Declaration.Gives

/-! ## 2. Going through the members -/

namespace Coding.Documented

variable {c : Coding ε d} {members : List (String × List Char)} {found : c.Found}
  {values : (field : d.Field) → Option (d.Value field)} {name : String} {cs : List Char}

/-- One member. Its field was not given before, and is given its value; all else stays. -/
theorem visit_cons (h : c.Documented) (hgives : d.Gives ((name, cs) :: members) values)
    (hfresh : ∀ field, c.given found field = none ∨ values field = none) :
    ∃ found', c.visit found name cs = .ok found' ∧ ∀ field, c.given found' field
      = if d.name field = name then values field else c.given found field := by
  rcases hgives.head with ⟨field, v, rfl, hv, hcs, -⟩ | ⟨hother, hcs⟩
  · have hnone : c.given found field = none := (hfresh field).resolve_right (by simp [hv])
    obtain ⟨found', hvisit, hgiven, hsame⟩ := h.visit_field hnone hcs
    refine ⟨found', hvisit, fun other => ?_⟩
    split
    · next hname =>
      obtain rfl := d.name_inj hname
      exact hgiven.trans hv.symm
    · next hname => exact hsame other fun hfield => hname (congrArg d.name hfield)
  · obtain ⟨found', hvisit, hsame⟩ := h.visit_other found hother hcs
    exact ⟨found', hvisit, fun field => by rw [if_neg (hother field), hsame field]⟩

/-- **After all members each field was given what they say of it**, or what it was given before. -/
theorem visitAll_gives (h : c.Documented) (found : c.Found) (hgives : d.Gives members values)
    (hfresh : ∀ field, c.given found field = none ∨ values field = none) :
    ∃ found', c.visitAll found members = .ok found'
      ∧ ∀ field, c.given found' field = (values field).or (c.given found field) := by
  induction members generalizing found values with
  | nil =>
    refine ⟨found, rfl, fun field => ?_⟩
    rw [(hgives.field field).nil, Option.none_or]
  | cons member members ih =>
    obtain ⟨name, cs⟩ := member
    obtain ⟨found₁, hvisit, hgiven₁⟩ := h.visit_cons hgives hfresh
    obtain ⟨values', hgives', hvalues'⟩ := hgives.tail
    -- The field that was given now is not given again.
    have hfresh₁ : ∀ field, c.given found₁ field = none ∨ values' field = none := by
      intro field
      rw [hgiven₁, hvalues']
      split
      · exact Or.inr rfl
      · exact hfresh field
    obtain ⟨found', hall, hgiven'⟩ := ih found₁ hgives' hfresh₁
    refine ⟨found', ?_, fun field => ?_⟩
    · rw [visitAll_cons, hvisit]
      exact hall
    · rw [hgiven', hgiven₁, hvalues']
      split
      · next hname =>
        rcases hgives.head with ⟨other, v, hother, hv, -⟩ | ⟨hother, -⟩
        · obtain rfl := d.name_inj (hname.trans hother.symm)
          rw [hv]
          rfl
        · exact absurd hname (hother field)
      · rfl

/-! ## 3. Whole texts -/

/-- **The fields that an object gives stand in the place of their defaults.** -/
theorem ofText_gives {text : String} (h : c.Documented) (htext : IsObject members text.toList)
    (hgives : d.Gives members values) :
    ∃ a, c.ofText text = .ok a
      ∧ ∀ field, d.get field a = (values field).getD (d.get field d.default) := by
  obtain ⟨found, hall, hgiven⟩ :=
    h.visitAll_gives c.nothing hgives fun field => Or.inl (h.nothing field)
  obtain ⟨a, hfinish, hget⟩ := h.finish found
  refine ⟨a, h.ofText htext hgives.admits hall hfinish, fun field => ?_⟩
  rw [hget, hgiven, h.nothing, Option.or_none]

/-- In an object of fields of different names, each says what it holds. -/
theorem given_map {written : d.Field → List Char} {a : α} {order : List d.Field} {field : d.Field}
    (hwritten : (d.spelling field).IsWritten (d.get field a) (written field)) (hnodup : order.Nodup)
    (hfield : field ∈ order) :
    Given (d.name field) (d.spelling field).IsText
      (order.map fun field => (d.name field, written field)) (some (d.get field a)) := by
  induction order with
  | nil => cases hfield
  | cons first order ih =>
    obtain ⟨hfirst, hnodup⟩ := List.nodup_cons.1 hnodup
    rcases List.mem_cons.1 hfield with rfl | hfield
    · refine .here ((d.spelling field).isText hwritten) (.of_forall_ne fun member hmember hname => ?_)
      obtain ⟨other, hother, rfl⟩ := List.mem_map.1 hmember
      exact hfirst (d.name_inj hname ▸ hother)
    · exact .there (fun hname => hfirst (d.name_inj hname ▸ hfield)) (ih hnodup hfield)

/-- **What is written is read.** -/
theorem ofText_text (h : c.Documented) (a : α) : c.ofText (c.text a) = .ok a := by
  obtain ⟨written, hwritten, htext⟩ := h.text a
  have hgives : d.Gives (d.order.map fun field => (d.name field, written field))
      (fun field => some (d.get field a)) := by
    refine ⟨fun field => given_map (hwritten field) d.nodup_order (d.mem_order field), ?_⟩
    intro member hmember hother
    obtain ⟨field, -, rfl⟩ := List.mem_map.1 hmember
    exact absurd rfl (hother field)
  obtain ⟨a', hread, hget⟩ := h.ofText_gives htext hgives
  rw [hread, d.ext hget]

end Coding.Documented

end Collate
