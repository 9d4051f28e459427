/-
Records are read from every layout of their text.

A record's object may be laid out in many ways: its members in any order, blanks between all tokens,
and the characters of a name escaped. Reading yields the same in all of them. A member whose name is a
field's gives that field its value, a member of another name is skipped by the grammar, and what the
fields do to the record is followed member by member (`Takes`).
-/
import Mathlib.Tactic.IntervalCases
import Collate.Json.Record
import Collate.Proofs.Json.Skipping

set_option autoImplicit false

namespace Collate.Json

/-! ## 1. Names -/

variable {b b' cs cs' rest ds spelled name : List Char} {c : Char} {n limit : UInt64}

theorem readText_plain (hplain : isPlain c = true) (hquote : c ≠ '"') (hescape : c ≠ '\\')
    (cs : List Char) : readText (c :: cs) = consRead c (readText cs) := by
  rw [readText]
  · exact if_pos hplain
  all_goals simp [hquote, hescape]

theorem readText_escape {e : Char} (he : simpleEscape? e = some c) (cs : List Char) :
    readText ('\\' :: e :: cs) = consRead c (readText cs) := by
  have hunit : e ≠ 'u' := by
    rintro rfl
    cases he
  rw [readText]
  · simp only [he]
  all_goals simp [hunit]

theorem readText_append (h : Spells cs name) (rest : List Char) :
    readText (cs ++ '"' :: rest) = .ok (name, rest) := by
  induction h with
  | nil => rfl
  | plain hplain hquote hescape _ ih =>
    rw [List.cons_append, readText_plain hplain hquote hescape, ih]
    rfl
  | escape he _ ih =>
    rw [List.cons_append, List.cons_append, readText_escape he, ih]
    rfl
  | unit hvalue hn _ ih =>
    simp only [List.cons_append]
    rw [readText]
    simp only [hvalue]
    rw [if_neg (by omega), if_neg (by omega), ih]
    rfl
  | pair hhigh hin hlow hin' _ ih =>
    simp only [List.cons_append]
    rw [readText]
    simp only [hhigh, hlow]
    rw [if_neg (by omega), if_pos hin, if_pos hin', ih]
    rfl

/-! ## 2. Words -/

/-- What is read from a text is this, whatever stands behind it; blanks there may be left. -/
def Yields {α : Type} (read : List Char → Read α) (cs : List Char) (a : α) : Prop :=
  ∀ rest, Stops rest → ∃ b, Blanks b ∧ read (cs ++ rest) = .ok (a, b ++ rest)

theorem Yields.map {α β : Type} {read : List Char → Read α} {a : α} (h : Yields read cs a)
    (f : α → β) : Yields (fun cs => (read cs).map fun (a, rest) => (f a, rest)) cs (f a) := by
  intro rest hrest
  obtain ⟨b, hb, hread⟩ := h rest hrest
  refine ⟨b, hb, ?_⟩
  dsimp only
  rw [hread]
  rfl

theorem le_ofDigitChars (ds : List Char) (value : Nat) : value ≤ Nat.ofDigitChars 10 ds value := by
  induction ds generalizing value with
  | nil => exact Nat.le_refl value
  | cons d ds ih =>
    rw [Nat.ofDigitChars_cons]
    exact Nat.le_trans (by omega) (ih _)

theorem readDigits_append {most value count : Nat} (hds : ∀ c ∈ ds, c.isDigit = true)
    (hmost : Nat.ofDigitChars 10 ds value ≤ most) (hrest : Stops rest) :
    readDigits most value count (ds ++ rest)
      = (Nat.ofDigitChars 10 ds value, count + ds.length, rest) := by
  induction ds generalizing value count with
  | nil =>
    cases rest with
    | nil => rfl
    | cons c rest =>
      have hc : c.isDigit = false := (hrest c rfl).1
      simp [readDigits, hc]
  | cons d ds ih =>
    obtain ⟨hd, hds⟩ := List.forall_mem_cons.1 hds
    rw [Nat.ofDigitChars_cons, Nat.mul_comm] at hmost ⊢
    have hle : value * 10 + digitValue d ≤ most := Nat.le_trans (le_ofDigitChars ds _) hmost
    rw [List.cons_append, readDigits, if_pos (by simp [hd, hle]), List.length_cons,
      Nat.add_comm ds.length, ← Nat.add_assoc]
    exact ih hds hmost

theorem Stops.startsWithDigit (h : Stops cs) : startsWithDigit cs = false := by
  cases cs with
  | nil => rfl
  | cons c cs => exact (h c rfl).1

theorem readAfterWord_stops (h : Stops rest) (value : Nat) :
    readAfterWord false value rest = .ok (.word (UInt64.ofNat value), rest) := by
  cases rest with
  | nil => rfl
  | cons c rest =>
    obtain ⟨-, hpoint, he, hE⟩ := h c rfl
    rw [readAfterWord]
    · rfl
    all_goals simp [hpoint, he, hE]

theorem readNumber_append (hds : Whole ds) (hvalue : Nat.ofDigitChars 10 ds 0 = n.toNat)
    (hrest : Stops rest) : readNumber false (ds ++ rest) = .ok (.word n, rest) := by
  obtain ⟨hdigits, hzero⟩ := hds
  have hword := readAfterWord_stops hrest n.toNat
  rw [UInt64.ofNat_toNat] at hword
  obtain ⟨d, ds, rfl, hd, -⟩ := hdigits.exists_cons
  rw [List.cons_append, readNumber]
  by_cases hdzero : d = '0'
  · obtain ⟨rfl, rfl⟩ := List.cons_eq_cons.1 (hzero (congrArg some hdzero))
    have hn : n.toNat = 0 := hvalue.symm
    rw [if_pos hdzero, List.nil_append, hrest.startsWithDigit]
    rw [hn] at hword
    exact hword
  · have hmost : Nat.ofDigitChars 10 (d :: ds) 0 ≤ wordMax := by
      rw [hvalue]
      exact Nat.le_sub_one_of_lt n.toNat_lt
    rw [if_neg hdzero, if_pos hd, ← List.cons_append, readDigits_append hdigits.2 hmost hrest]
    simp only [hrest.startsWithDigit, hvalue]
    exact hword

theorem readWord_yields (h : IsWord n cs) (hlimit : n ≤ limit) : Yields (readWord limit) cs n := by
  intro rest hrest
  obtain @⟨b, ds, b', hb, hds, hvalue, hb'⟩ := h
  refine ⟨b', hb', ?_⟩
  have hnumber := readNumber_append hds hvalue (hb'.stops hrest)
  obtain ⟨d, ds, rfl, hd, -⟩ := hds.1.exists_cons
  simp only [List.append_assoc, List.cons_append] at hnumber ⊢
  rw [readWord, skipBlanks_append hb, skipBlanks_cons (isBlank_of_isDigit hd)]
  split
  · next heq => cases heq
  · next heq =>
    obtain rfl := (List.cons.inj heq).1
    cases hd
  · next heq =>
    cases heq
    rw [if_pos hd, hnumber]
    exact if_pos hlimit

/-! ## 3. Objects -/

variable {σ α : Type} {fields : List (Field σ)} {strict first : Bool} {s s' : σ} {lead : List Char}
  {members : List (String × List Char)} {fuel : Nat}

/-- What reading members does to a record: each is the value of a field that was not given yet, or a
value of another name in a record that is not strict. -/
inductive Takes (fields : List (Field σ)) (strict : Bool) :
    σ → List (String × List Char) → σ → Prop where
  | nil {s : σ} : Takes fields strict s [] s
  | field {s s' s'' : σ} {name : String} {cs : List Char} {members : List (String × List Char)}
      {field : Field σ} (hfield : fields.find? (fun f => f.name.toList = name.toList) = some field)
      (hgiven : field.given s = false) (hread : Yields (field.read s) cs s')
      (hmore : Takes fields strict s' members s'') : Takes fields strict s ((name, cs) :: members) s''
  | other {s s' : σ} {name : String} {cs : List Char} {members : List (String × List Char)}
      (hfield : fields.find? (fun f => f.name.toList = name.toList) = none) (hstrict : strict = false)
      (hcs : IsJson .element cs) (hmore : Takes fields strict s members s') :
      Takes fields strict s ((name, cs) :: members) s'

theorem Takes.cons {s'' : σ} {name : String} (h : Takes fields strict s [(name, cs)] s')
    (hmore : Takes fields strict s' members s'') : Takes fields strict s ((name, cs) :: members) s'' := by
  cases h with
  | field hfield hgiven hread hnil =>
    cases hnil
    exact .field hfield hgiven hread hmore
  | other hfield hstrict hcs hnil =>
    cases hnil
    exact .other hfield hstrict hcs hmore

/-- What stands in front of a member: nothing, or a comma if there was another. -/
inductive Leads : Bool → List Char → Prop where
  | first : Leads true []
  | comma {b : List Char} (hb : Blanks b) : Leads false (b ++ [','])

theorem skipColon_append (hb : Blanks b) (cs : List Char) : skipColon (b ++ ':' :: cs) = .ok cs := by
  have hcolon : isBlank ':' = false := rfl
  simp only [skipColon, skipBlanks_append hb, skipBlanks_cons hcolon]

theorem readMembersIn_name (hlead : Leads first lead) (hb : Blanks b) (hname : Spells spelled name)
    (fuel : Nat) (s : σ) (cs : List Char) :
    readMembersIn fields strict (fuel + 1) first s (lead ++ (b ++ '"' :: (spelled ++ '"' :: cs)))
      = (readMember fields strict s name cs).bind fun (s, rest) =>
          readMembersIn fields strict fuel false s rest := by
  have hquote : isBlank '"' = false := rfl
  have hcomma : isBlank ',' = false := rfl
  cases hlead with
  | first =>
    simp only [List.nil_append, readMembersIn, skipBlanks_append hb, skipBlanks_cons hquote,
      readText_append hname]
    rfl
  | comma hb' =>
    simp only [List.append_assoc, List.cons_append, List.nil_append, readMembersIn,
      skipBlanks_append hb', skipBlanks_cons hcomma, skipBlanks_append hb, skipBlanks_cons hquote,
      readText_append hname]
    rfl

theorem readMembersIn_close (hb : Blanks b) (fuel : Nat) (first : Bool) (s : σ) (rest : List Char) :
    readMembersIn fields strict (fuel + 1) first s (b ++ '\x7d' :: rest) = .ok (s, rest) := by
  have hclose : isBlank '\x7d' = false := rfl
  simp only [readMembersIn, skipBlanks_append hb, skipBlanks_cons hclose]

/-- A member, the blanks behind its name included. -/
theorem Takes.step {name : String} (h : Takes fields strict s ((name, cs) :: members) s') :
    ∃ s₁, Takes fields strict s₁ members s' ∧ ∀ b rest, Blanks b → Stops rest →
      ∃ b', Blanks b' ∧ readMember fields strict s name.toList (b ++ ':' :: (cs ++ rest))
        = .ok (s₁, b' ++ rest) := by
  cases h with
  | @field _ s₁ _ _ _ _ field hfield hgiven hread hmore =>
    refine ⟨s₁, hmore, fun b rest hb hrest => ?_⟩
    obtain ⟨b', hb', hvalue⟩ := hread rest hrest
    refine ⟨b', hb', ?_⟩
    simp only [readMember, hfield, hgiven, skipColon_append hb]
    exact hvalue
  | other hfield hstrict hcs hmore =>
    refine ⟨s, hmore, fun b rest hb hrest => ?_⟩
    obtain ⟨b', hb', hvalue⟩ := skipValue_element hcs hrest
    refine ⟨b', hb', ?_⟩
    simp only [readMember, hfield, hstrict, skipColon_append hb, Bool.false_eq_true, if_false]
    show (skipValue (cs ++ rest)).map _ = _
    rw [hvalue]
    rfl

theorem readMembersIn_members (h : IsMembers members cs) (htakes : Takes fields strict s members s')
    (hlead : Leads first lead) (hfuel : members.length < fuel) (rest : List Char) :
    readMembersIn fields strict fuel first s (lead ++ (cs ++ '\x7d' :: rest)) = .ok (s', rest) := by
  -- Behind the first member a comma leads to each other one, and the record has changed.
  induction h generalizing s first lead fuel with
  | @last b spelled b' cs name hb hname hb' =>
    obtain ⟨s₁, hmore, hmember⟩ := htakes.step
    cases hmore
    obtain ⟨b'', hb'', hread⟩ := hmember b' ('\x7d' :: rest) hb' (stops_cons (by decide) rest)
    obtain ⟨fuel, rfl⟩ := Nat.exists_eq_add_of_le' (show 2 ≤ fuel from hfuel)
    simp only [List.append_assoc, List.cons_append]
    rw [readMembersIn_name hlead hb hname, hread]
    exact readMembersIn_close hb'' fuel false s' rest
  | @more b spelled b' cs more name members hb hname hb' _ ih =>
    obtain ⟨s₁, hmore, hmember⟩ := htakes.step
    obtain ⟨b'', hb'', hread⟩ :=
      hmember b' (',' :: (more ++ '\x7d' :: rest)) hb' (stops_cons (by decide) _)
    rw [List.length_cons] at hfuel
    obtain ⟨fuel, rfl⟩ := Nat.exists_eq_add_of_le' (show 1 ≤ fuel by omega)
    simp only [List.append_assoc, List.cons_append]
    rw [readMembersIn_name hlead hb hname, hread]
    have hrest := ih hmore (.comma hb'') (Nat.lt_of_succ_lt_succ hfuel)
    rw [List.append_assoc] at hrest
    exact hrest

theorem IsMembers.length_lt (h : IsMembers members cs) : members.length < cs.length := by
  induction h with
  | last =>
    simp only [List.length_append, List.length_cons, List.length_nil]
    omega
  | more _ _ _ _ ih =>
    simp only [List.length_append, List.length_cons]
    omega

theorem read_brace {record : Record σ α} {a : α} (hb : Blanks b)
    (hread : readMembersIn record.fields record.strict (cs.length + 1) true record.blank cs
      = .ok (s, rest))
    (hjudge : record.judge s = .ok a) : record.read (b ++ '\x7b' :: cs) = .ok (a, rest) := by
  have hopen : isBlank '\x7b' = false := rfl
  simp only [Record.read, skipBlanks_append hb, skipBlanks_cons hopen, hread]
  show (record.judge s).map _ = _
  rw [hjudge]
  rfl

/-- **A record is read from every layout of its members.** -/
theorem read_object {record : Record σ α} {a : α} (h : IsObject members cs)
    (htakes : Takes record.fields record.strict record.blank members s)
    (hjudge : record.judge s = .ok a) : Yields record.read cs a := by
  intro rest _
  cases h with
  | @empty b b' b'' hb hb' hb'' =>
    cases htakes
    refine ⟨b'', hb'', ?_⟩
    simp only [List.append_assoc, List.cons_append]
    exact read_brace hb (readMembersIn_close hb' _ true _ _) hjudge
  | @members b cs b' _ hb hcs hb' =>
    refine ⟨b', hb', ?_⟩
    simp only [List.append_assoc, List.cons_append]
    refine read_brace hb (readMembersIn_members hcs htakes .first ?_ _) hjudge
    -- Every member has characters of its own.
    have hlength := hcs.length_lt
    rw [List.length_append]
    omega

/-- A text that is one record. -/
theorem ofText_yields {record : Record σ α} {a : α} {text : String}
    (h : Yields record.read text.toList a) : record.ofText text = .ok a := by
  obtain ⟨b, hb, hread⟩ := h [] (fun _ hc => by cases hc)
  rw [List.append_nil, List.append_nil] at hread
  have hblanks : skipBlanks b = [] := by
    rw [← List.append_nil b, skipBlanks_append hb]
    rfl
  simp only [Record.ofText, hread, Except.bind, hblanks]

/-! ## 4. Arrays of two fields -/

theorem readItems_word {field : Field σ} (fields : List (Field σ)) (hlead : Leads first lead)
    (hcs : IsWord n cs)
    (hread : ∀ cs, IsWord n cs → Yields (field.read s) cs s') (hrest : Stops rest) :
    ∃ b, Blanks b ∧ readItems (field :: fields) first s (lead ++ (cs ++ rest))
      = readItems fields false s' (b ++ rest) := by
  obtain @⟨b, ds, b', hb, hds, hvalue, hb'⟩ := hcs
  obtain ⟨d, ds, rfl, hd, -⟩ := hds.1.exists_cons
  have hblank := isBlank_of_isDigit hd
  have hcomma : isBlank ',' = false := rfl
  obtain ⟨b'', hb'', hitem⟩ := hread _ (.mk .nil hds hvalue hb') rest hrest
  refine ⟨b'', hb'', ?_⟩
  simp only [List.nil_append, List.append_assoc, List.cons_append] at hitem ⊢
  cases hlead with
  | first =>
    rw [List.nil_append, readItems, skipBlanks_append hb, skipBlanks_cons hblank]
    split
    · next heq => cases heq
    · next heq =>
      obtain rfl := (List.cons.inj heq).1
      cases hd
    · next heq =>
      obtain rfl := (List.cons.inj heq).1
      cases hd
    · next heq =>
      cases heq
      rw [if_pos rfl]
      dsimp only
      rw [hitem]
      rfl
  | comma hb₀ =>
    rw [List.append_assoc, List.cons_append, List.nil_append, readItems, skipBlanks_append hb₀,
      skipBlanks_cons hcomma]
    simp only [skipBlanks_append hb, skipBlanks_cons hblank, Bool.false_eq_true, if_false]
    split
    · next heq => cases heq
    · next heq =>
      obtain rfl := (List.cons.inj heq).1
      cases hd
    · rw [hitem]
      rfl

/-- A record of two words is read from an array of them. -/
theorem read_pair {record : Record σ α} {field field' : Field σ} {s'' : σ} {m : UInt64} {a : α}
    {text : List Char} (hfields : record.fields = [field, field']) (h : IsPair cs cs' text)
    (hcs : IsWord n cs) (hcs' : IsWord m cs')
    (hread : ∀ cs, IsWord n cs → Yields (field.read record.blank) cs s')
    (hread' : ∀ cs, IsWord m cs → Yields (field'.read s') cs s'')
    (hjudge : record.judge s'' = .ok a) : Yields record.read text a := by
  intro rest _
  obtain @⟨b, b', hb, hb'⟩ := h
  have hopen : isBlank '[' = false := rfl
  have hclose : isBlank ']' = false := rfl
  have hcomma : Stops (',' :: (cs' ++ ']' :: (b' ++ rest))) := stops_cons (by decide) _
  have hbracket : Stops (']' :: (b' ++ rest)) := stops_cons (by decide) _
  obtain ⟨b₁, hb₁, hfirst⟩ := readItems_word [field'] .first hcs hread hcomma
  obtain ⟨b₂, hb₂, hsecond⟩ := readItems_word [] (.comma hb₁) hcs' hread' hbracket
  refine ⟨b', hb', ?_⟩
  simp only [List.append_assoc, List.cons_append, List.nil_append] at hfirst hsecond ⊢
  simp only [Record.read, skipBlanks_append hb, skipBlanks_cons hopen, hfields, hfirst, hsecond]
  show ((record.judge s'').bind fun a =>
    (skipClosing (b₂ ++ ']' :: (b' ++ rest))).map fun rest => (a, rest)) = _
  rw [hjudge, skipClosing, skipBlanks_append hb₂, skipBlanks_cons hclose]
  rfl

theorem find_eq_none {σ : Type} {fields : List (Field σ)} {name : String}
    (h : ∀ field ∈ fields, name ≠ field.name) :
    fields.find? (fun f => f.name.toList = name.toList) = none :=
  List.find?_eq_none.2 fun field hfield hname =>
    h field hfield (String.toList_inj.1 (of_decide_eq_true hname)).symm

/-! ## 6. What is written -/

/-- The digits of a number begin with a zero only if it is zero. -/
theorem eq_zero_of_head (n : Nat) (h : (natText n).head? = some '0') : n = 0 := by
  induction n using Nat.strong_induction_on with
  | _ n ih =>
    rw [natText] at h
    by_cases hlt : n < 10
    · rw [Nat.toDigits_of_lt_base hlt] at h
      interval_cases n
      · rfl
      all_goals exact absurd h (by decide)
    · rw [Nat.toDigits_of_base_le (by decide) (Nat.le_of_not_lt hlt), List.head?_append,
        List.head?_eq_some_head Nat.toDigits_ne_nil, Option.some_or,
        ← List.head?_eq_some_head] at h
      have hzero := ih (n / 10) (by omega) h
      omega

theorem isWord_natText (n : UInt64) : IsWord n (natText n.toNat) := by
  have hdigits : Digits (natText n.toNat) :=
    ⟨Nat.toDigits_ne_nil, fun c hc => Nat.isDigit_of_mem_toDigits (by decide) (by decide) hc⟩
  have hwhole : Whole (natText n.toNat) := by
    refine ⟨hdigits, fun hhead => ?_⟩
    rw [eq_zero_of_head _ hhead]
    rfl
  have hword := IsWord.mk .nil hwhole (Nat.ofDigitChars_ten_toDigits (n := n.toNat)) .nil
  rwa [List.nil_append, List.append_nil] at hword

theorem spells_plain (h : name.all (fun c => isPlain c && c != '"' && c != '\\') = true) :
    Spells name name := by
  induction name with
  | nil => exact .nil
  | cons c name ih =>
    simp only [List.all_cons, Bool.and_eq_true, bne_iff_ne] at h
    obtain ⟨⟨⟨hplain, hquote⟩, hescape⟩, hname⟩ := h
    exact .plain hplain hquote hescape (ih hname)

/-- What is written is one of the layouts that are read. -/
theorem isObject_objectText (hne : members ≠ [])
    (h : ∀ member ∈ members, Spells member.1.toList member.1.toList) :
    IsObject members (objectText members) := by
  have hmembers : IsMembers members (List.intercalate [','] (members.map fun member =>
      '"' :: member.1.toList ++ '"' :: ':' :: member.2)) := by
    induction members with
    | nil => exact absurd rfl hne
    | cons member members ih =>
      obtain ⟨hname, hmore⟩ := List.forall_mem_cons.1 h
      cases members with
      | nil =>
        rw [List.map_cons, List.map_nil, List.intercalate_singleton]
        exact .last .nil hname .nil
      | cons next members =>
        rw [List.map_cons, List.map_cons, List.intercalate_cons_cons]
        have hrest := ih (List.cons_ne_nil _ _) hmore
        simp only [List.append_assoc, List.cons_append, List.nil_append]
        exact .more .nil hname .nil hrest
  have hobject := IsObject.members .nil hmembers .nil
  rw [List.nil_append] at hobject
  exact hobject

end Collate.Json
