/-
What the grammar derives is skipped.

Skipping follows the grammar. It stops right behind a value as long as nothing stands there that would
go on with a number, and it has fuel for two answers on each character of the text.
-/
import Collate.Json.Scan

set_option autoImplicit false

namespace Collate.Json

/-! ## 1. Blanks -/

variable {b cs rest : List Char} {c : Char}

theorem skipBlanks_append (hb : Blanks b) (cs : List Char) : skipBlanks (b ++ cs) = skipBlanks cs :=
  List.dropWhile_append_of_pos hb

theorem skipBlanks_cons (hc : isBlank c = false) (cs : List Char) : skipBlanks (c :: cs) = c :: cs :=
  List.dropWhile_cons_of_neg (by simp [hc])

theorem Blanks.nil : Blanks [] := fun _ hc => absurd hc List.not_mem_nil

theorem Blanks.single (hc : isBlank c = true) : Blanks [c] := List.forall_mem_singleton.2 hc

/-! ## 2. Texts -/

theorem skipText_plain (hplain : isPlain c = true) (hquote : c ≠ '"') (hescape : c ≠ '\\')
    (cs : List Char) : skipText (c :: cs) = skipText cs := by
  rw [skipText]
  · exact if_pos hplain
  all_goals simp [hquote, hescape]

theorem skipText_escape {e : Char} (he : (simpleEscape? e).isSome = true) (cs : List Char) :
    skipText ('\\' :: e :: cs) = skipText cs := by
  have hunit : e ≠ 'u' := by
    rintro rfl
    cases he
  rw [skipText]
  · exact if_pos he
  all_goals simp [hunit]

theorem skipText_unit {a b c d : Char} (hvalue : (hexValue4? a b c d).isSome = true)
    (cs : List Char) : skipText ('\\' :: 'u' :: a :: b :: c :: d :: cs) = skipText cs := by
  rw [skipText]
  exact if_pos hvalue

theorem skipText_append (h : Quoted cs) (rest : List Char) :
    skipText (cs ++ '"' :: rest) = .ok rest := by
  induction h with
  | nil => rfl
  | plain hplain hquote hescape _ ih => exact (skipText_plain hplain hquote hescape _).trans ih
  | escape he _ ih => exact (skipText_escape he _).trans ih
  | unit hvalue _ ih => exact (skipText_unit hvalue _).trans ih

/-! ## 3. Numbers -/

theorem Digits.exists_cons {ds : List Char} (h : Digits ds) :
    ∃ d more, ds = d :: more ∧ d.isDigit = true ∧ ∀ c ∈ more, c.isDigit = true := by
  obtain ⟨hne, hall⟩ := h
  obtain ⟨d, more, rfl⟩ := List.exists_cons_of_ne_nil hne
  obtain ⟨hd, hmore⟩ := List.forall_mem_cons.1 hall
  exact ⟨d, more, rfl, hd, hmore⟩

/-- Nothing stands here that would go on with a number. -/
def Stops (cs : List Char) : Prop :=
  ∀ c ∈ cs.head?, c.isDigit = false ∧ c ≠ '.' ∧ c ≠ 'e' ∧ c ≠ 'E'

theorem stops_cons (hc : c.isDigit = false ∧ c ≠ '.' ∧ c ≠ 'e' ∧ c ≠ 'E') (cs : List Char) :
    Stops (c :: cs) := by
  intro c' hc'
  cases hc'
  exact hc

theorem skipDigits_append {ds : List Char} (hds : ∀ c ∈ ds, c.isDigit = true)
    (hrest : ∀ c ∈ rest.head?, c.isDigit = false) : skipDigits (ds ++ rest) = rest := by
  rw [skipDigits, List.dropWhile_append_of_pos hds]
  cases rest with
  | nil => rfl
  | cons c rest => exact List.dropWhile_cons_of_neg (by simp [hrest c rfl])

theorem skipSomeDigits_append {ds : List Char} (hds : Digits ds)
    (hrest : ∀ c ∈ rest.head?, c.isDigit = false) : skipSomeDigits (ds ++ rest) = .ok rest := by
  obtain ⟨d, more, rfl, hd, hmore⟩ := hds.exists_cons
  rw [List.cons_append, skipSomeDigits, if_pos hd, skipDigits_append hmore hrest]

theorem skipExponent_append {es : List Char} (hes : Exponent es) (hrest : Stops rest) :
    skipExponent (es ++ rest) = .ok rest := by
  have hdigit : ∀ c ∈ rest.head?, c.isDigit = false := fun c hc => (hrest c hc).1
  cases hes with
  | none =>
    cases rest with
    | nil => rfl
    | cons c rest =>
      obtain ⟨-, -, he, hE⟩ := hrest c rfl
      simp [skipExponent, he, hE]
  | @plain e ds he hds =>
    obtain ⟨d, more, rfl, hd, -⟩ := hds.exists_cons
    have hsign : ¬(d = '+' ∨ d = '-') := by
      rintro (rfl | rfl)
      · cases hd
      · cases hd
    simp only [List.cons_append, skipExponent]
    rw [if_pos he, if_neg hsign]
    exact skipSomeDigits_append hds hdigit
  | @signed e s ds he hs hds =>
    simp only [List.cons_append, skipExponent]
    rw [if_pos he, if_pos hs]
    exact skipSomeDigits_append hds hdigit

variable {ws fs es : List Char}

theorem Exponent.head (hes : Exponent es) (hrest : Stops rest) :
    ∀ c ∈ (es ++ rest).head?, c.isDigit = false ∧ c ≠ '.' := by
  intro c hc
  cases hes with
  | none => exact ⟨(hrest c hc).1, (hrest c hc).2.1⟩
  | plain he _ =>
    cases hc
    rcases he with rfl | rfl <;> exact ⟨rfl, by decide⟩
  | signed he _ _ =>
    cases hc
    rcases he with rfl | rfl <;> exact ⟨rfl, by decide⟩

theorem skipFraction_append (hfs : Fraction fs) (hes : Exponent es) (hrest : Stops rest) :
    skipFraction (fs ++ (es ++ rest)) = .ok rest := by
  have hhead := hes.head hrest
  cases hfs with
  | none =>
    have hpoint : ∀ more, es ++ rest ≠ '.' :: more := by
      intro more heq
      exact (hhead '.' (by rw [heq, List.head?_cons]; rfl)).2 rfl
    rw [List.nil_append, skipFraction.eq_2 _ hpoint]
    exact skipExponent_append hes hrest
  | point hds =>
    rw [List.cons_append, skipFraction, skipSomeDigits_append hds fun c hc => (hhead c hc).1]
    exact skipExponent_append hes hrest

theorem skipNumber_append (hws : Whole ws) (hfs : Fraction fs) (hes : Exponent es)
    (hrest : Stops rest) : skipNumber (ws ++ (fs ++ (es ++ rest))) = .ok rest := by
  have hhead : ∀ c ∈ (fs ++ (es ++ rest)).head?, c.isDigit = false := by
    intro c hc
    cases hfs with
    | none => exact (hes.head hrest c hc).1
    | point _ =>
      cases hc
      rfl
  have hbehind := skipFraction_append hfs hes hrest
  obtain ⟨hdigits, hzero⟩ := hws
  obtain ⟨d, ds, rfl, hd, hds⟩ := hdigits.exists_cons
  rw [List.cons_append, skipNumber.eq_def]
  dsimp only
  by_cases hdzero : d = '0'
  · obtain ⟨-, rfl⟩ := List.cons_eq_cons.1 (hzero (congrArg some hdzero))
    rw [if_pos hdzero, List.nil_append]
    cases hmore : fs ++ (es ++ rest) with
    | nil =>
      rw [hmore] at hbehind
      exact hbehind
    | cons c more =>
      rw [hmore] at hbehind hhead
      have hc : c.isDigit = false := hhead c rfl
      simp only [hc]
      exact hbehind
  · rw [if_neg hdzero, if_pos hd, skipDigits_append hds hhead]
    exact hbehind

/-! ## 4. Values -/

theorem isBlank_of_isDigit (hc : c.isDigit = true) : isBlank c = false := by
  refine Bool.eq_false_iff.2 fun hblank => ?_
  simp only [isBlank, Bool.or_eq_true, decide_eq_true_eq] at hblank
  rcases hblank with ((rfl | rfl) | rfl) | rfl <;> cases hc

theorem Blanks.stops (hb : Blanks b) (hrest : Stops rest) : Stops (b ++ rest) := by
  cases b with
  | nil => exact hrest
  | cons c b =>
    intro c' hc'
    cases hc'
    have hblank := hb c List.mem_cons_self
    simp only [isBlank, Bool.or_eq_true, decide_eq_true_eq] at hblank
    rcases hblank with ((rfl | rfl) | rfl) | rfl <;> decide

/-- A text begins, blanks aside, with a character that is not this one. -/
def Begins (close : Char) (cs : List Char) : Prop :=
  ∃ b c more, cs = b ++ c :: more ∧ Blanks b ∧ isBlank c = false ∧ c ≠ close

variable {fuel : Nat} {form : Form}

theorem skipValueIn_blanks (hb : Blanks b) (fuel : Nat) (cs : List Char) :
    skipValueIn fuel (b ++ cs) = skipValueIn fuel cs := by
  cases fuel with
  | zero => rfl
  | succ fuel => rw [skipValueIn, skipValueIn, skipBlanks_append hb]

theorem skipValueIn_digit (hc : c.isDigit = true) (fuel : Nat) (cs : List Char) :
    skipValueIn (fuel + 1) (c :: cs) = skipNumber (c :: cs) := by
  rw [skipValueIn, skipBlanks_cons (isBlank_of_isDigit hc)]
  split <;> rename_i heq <;> cases heq
  -- No other value begins with a digit.
  iterate 7 exact absurd hc (by decide)
  exact if_pos hc

theorem skipItemsIn_blanks (hb : Blanks b) (fuel : Nat) (cs : List Char) :
    skipItemsIn fuel (b ++ cs) = skipItemsIn fuel cs := by
  cases fuel with
  | zero => rfl
  | succ fuel => rw [skipItemsIn, skipItemsIn, skipValueIn_blanks hb]

theorem skipMembersIn_blanks (hb : Blanks b) (fuel : Nat) (cs : List Char) :
    skipMembersIn fuel (b ++ cs) = skipMembersIn fuel cs := by
  cases fuel with
  | zero => rfl
  | succ fuel => rw [skipMembersIn, skipMembersIn, skipBlanks_append hb]

theorem skipValueIn_array (h : Begins ']' cs) (fuel : Nat) :
    skipValueIn (fuel + 1) ('[' :: cs) = skipItemsIn fuel cs := by
  obtain ⟨b, c, more, rfl, hb, hc, hclose⟩ := h
  have hopen : isBlank '[' = false := rfl
  rw [skipItemsIn_blanks hb]
  simp only [skipValueIn, skipBlanks_cons hopen, skipBlanks_append hb, skipBlanks_cons hc]
  split
  · next heq => cases heq
  · next heq => exact absurd (List.cons.inj heq).1 hclose
  · rfl

theorem skipValueIn_object (h : Begins '\x7d' cs) (fuel : Nat) :
    skipValueIn (fuel + 1) ('\x7b' :: cs) = skipMembersIn fuel cs := by
  obtain ⟨b, c, more, rfl, hb, hc, hclose⟩ := h
  have hopen : isBlank '\x7b' = false := rfl
  rw [skipMembersIn_blanks hb]
  simp only [skipValueIn, skipBlanks_cons hopen, skipBlanks_append hb, skipBlanks_cons hc]
  split
  · next heq => cases heq
  · next heq => exact absurd (List.cons.inj heq).1 hclose
  · rfl

theorem skipMembersIn_last {name b' b'' : List Char} (hb : Blanks b) (hname : Quoted name)
    (hb' : Blanks b') (hb'' : Blanks b'')
    (hvalue : skipValueIn fuel cs = .ok (b'' ++ '\x7d' :: rest)) :
    skipMembersIn (fuel + 1) (b ++ '"' :: (name ++ '"' :: (b' ++ ':' :: cs))) = .ok rest := by
  have hquote : isBlank '"' = false := rfl
  have hcolon : isBlank ':' = false := rfl
  have hclose : isBlank '\x7d' = false := rfl
  rw [skipMembersIn_blanks hb, skipMembersIn, skipBlanks_cons hquote]
  simp only [skipText_append hname, skipBlanks_append hb', skipBlanks_cons hcolon, hvalue,
    skipBlanks_append hb'', skipBlanks_cons hclose]

theorem skipMembersIn_more {name b' b'' : List Char} (hb : Blanks b) (hname : Quoted name)
    (hb' : Blanks b') (hb'' : Blanks b'')
    (hvalue : skipValueIn fuel cs = .ok (b'' ++ ',' :: rest)) :
    skipMembersIn (fuel + 1) (b ++ '"' :: (name ++ '"' :: (b' ++ ':' :: cs)))
      = skipMembersIn fuel rest := by
  have hquote : isBlank '"' = false := rfl
  have hcolon : isBlank ':' = false := rfl
  have hcomma : isBlank ',' = false := rfl
  rw [skipMembersIn_blanks hb, skipMembersIn, skipBlanks_cons hquote]
  simp only [skipText_append hname, skipBlanks_append hb', skipBlanks_cons hcolon, hvalue,
    skipBlanks_append hb'', skipBlanks_cons hcomma]

/-- What skipping a text of each form leaves. Behind an element, its blanks may be left. -/
def Skips : Form → List Char → Prop
  | .value, cs => ∀ fuel rest, 2 * cs.length ≤ fuel → Stops rest →
      skipValueIn (fuel + 1) (cs ++ rest) = .ok rest
  | .element, cs => ∀ fuel rest, 2 * cs.length ≤ fuel → Stops rest →
      ∃ b, Blanks b ∧ skipValueIn (fuel + 1) (cs ++ rest) = .ok (b ++ rest)
  | .elements, cs => ∀ fuel rest, 2 * cs.length ≤ fuel →
      skipItemsIn (fuel + 2) (cs ++ ']' :: rest) = .ok rest
  | .members, cs => ∀ fuel rest, 2 * cs.length ≤ fuel →
      skipMembersIn (fuel + 2) (cs ++ '\x7d' :: rest) = .ok rest

/-- A value begins with a character that closes nothing. -/
theorem IsJson.value_head (h : IsJson .value cs) :
    ∃ c more, cs = c :: more ∧ isBlank c = false ∧ c ≠ ']' := by
  have hdigit : ∀ {ws fs es : List Char}, Whole ws →
      ∃ c more, ws ++ (fs ++ es) = c :: more ∧ isBlank c = false ∧ c ≠ ']' := by
    intro ws fs es hws
    obtain ⟨d, ds, rfl, hd, -⟩ := hws.1.exists_cons
    refine ⟨d, _, rfl, isBlank_of_isDigit hd, ?_⟩
    rintro rfl
    cases hd
  cases h with
  | number hws => exact hdigit hws
  | nullWord | trueWord | falseWord => exact ⟨_, _, rfl, rfl, by decide⟩
  | negative | text | emptyArray | array | emptyObject | object =>
    exact ⟨_, _, rfl, rfl, by decide⟩

theorem IsJson.elements_begin (h : IsJson .elements cs) (rest : List Char) :
    Begins ']' (cs ++ rest) := by
  have helement : ∀ {cs : List Char}, IsJson .element cs → ∀ rest, Begins ']' (cs ++ rest) := by
    intro cs h rest
    cases h with
    | @element b cs b' hb hcs _ =>
      obtain ⟨c, more, rfl, hc, hclose⟩ := hcs.value_head
      exact ⟨b, c, more ++ (b' ++ rest), by simp, hb, hc, hclose⟩
  cases h with
  | lastElement hcs => exact helement hcs rest
  | moreElements hcs _ =>
    rw [List.append_assoc]
    exact helement hcs _

theorem IsJson.members_begin (h : IsJson .members cs) (rest : List Char) :
    Begins '\x7d' (cs ++ rest) := by
  cases h with
  | lastMember hb => exact ⟨_, '"', _, List.append_assoc _ _ _, hb, rfl, by decide⟩
  | moreMembers hb => exact ⟨_, '"', _, List.append_assoc _ _ _, hb, rfl, by decide⟩

theorem IsJson.skips (h : IsJson form cs) : Skips form cs := by
  -- The fuel is bounded by the length, so what is left of it lasts for every part of the text.
  induction h with
  | nullWord | trueWord | falseWord => exact fun fuel rest _ _ => rfl
  | @number ws fs es hws hfs hes =>
    intro fuel rest _ hrest
    have hnumber := skipNumber_append hws hfs hes hrest
    obtain ⟨d, ds, rfl, hd, -⟩ := hws.1.exists_cons
    simp only [List.append_assoc, List.cons_append] at hnumber ⊢
    rw [skipValueIn_digit hd]
    exact hnumber
  | @negative ws fs es hws hfs hes =>
    intro fuel rest _ hrest
    simp only [List.append_assoc, List.cons_append]
    exact skipNumber_append hws hfs hes hrest
  | @text cs hcs =>
    intro fuel rest _ _
    simp only [List.append_assoc, List.cons_append, List.nil_append]
    exact skipText_append hcs rest
  | @emptyArray b hb =>
    intro fuel rest _ _
    have hopen : isBlank '[' = false := rfl
    have hclose : isBlank ']' = false := rfl
    simp only [List.append_assoc, List.cons_append, List.nil_append, skipValueIn,
      skipBlanks_cons hopen, skipBlanks_append hb, skipBlanks_cons hclose]
  | @emptyObject b hb =>
    intro fuel rest _ _
    have hopen : isBlank '\x7b' = false := rfl
    have hclose : isBlank '\x7d' = false := rfl
    simp only [List.append_assoc, List.cons_append, List.nil_append, skipValueIn,
      skipBlanks_cons hopen, skipBlanks_append hb, skipBlanks_cons hclose]
  | @array cs hcs ih =>
    intro fuel rest hfuel _
    rw [List.length_cons, List.length_append] at hfuel
    obtain ⟨fuel, rfl⟩ := Nat.exists_eq_add_of_le' (show 2 ≤ fuel by omega)
    rw [List.cons_append, List.append_assoc, skipValueIn_array (hcs.elements_begin _)]
    exact ih fuel rest (by omega)
  | @object cs hcs ih =>
    intro fuel rest hfuel _
    rw [List.length_cons, List.length_append] at hfuel
    obtain ⟨fuel, rfl⟩ := Nat.exists_eq_add_of_le' (show 2 ≤ fuel by omega)
    rw [List.cons_append, List.append_assoc, skipValueIn_object (hcs.members_begin _)]
    exact ih fuel rest (by omega)
  | @element b cs b' hb _ hb' ih =>
    intro fuel rest hfuel hrest
    simp only [List.length_append] at hfuel
    refine ⟨b', hb', ?_⟩
    rw [List.append_assoc, List.append_assoc, skipValueIn_blanks hb]
    exact ih fuel (b' ++ rest) (by omega) (hb'.stops hrest)
  | @lastElement cs _ ih =>
    intro fuel rest hfuel
    obtain ⟨b, hb, hskip⟩ := ih fuel (']' :: rest) hfuel (stops_cons (by decide) rest)
    have hclose : isBlank ']' = false := rfl
    rw [skipItemsIn, hskip]
    simp only [skipBlanks_append hb, skipBlanks_cons hclose]
  | @moreElements cs more _ _ ih ihmore =>
    intro fuel rest hfuel
    simp only [List.length_append, List.length_cons] at hfuel
    rw [List.append_assoc, List.cons_append]
    obtain ⟨b, hb, hskip⟩ :=
      ih fuel (',' :: (more ++ ']' :: rest)) (by omega) (stops_cons (by decide) _)
    have hcomma : isBlank ',' = false := rfl
    rw [skipItemsIn, hskip]
    simp only [skipBlanks_append hb, skipBlanks_cons hcomma]
    obtain ⟨fuel, rfl⟩ := Nat.exists_eq_add_of_le' (show 1 ≤ fuel by omega)
    exact ihmore fuel rest (by omega)
  | @lastMember b name b' cs hb hname hb' _ ih =>
    intro fuel rest hfuel
    simp only [List.length_append, List.length_cons] at hfuel
    obtain ⟨b'', hb'', hskip⟩ := ih fuel ('\x7d' :: rest) (by omega) (stops_cons (by decide) rest)
    simp only [List.append_assoc, List.cons_append]
    exact skipMembersIn_last hb hname hb' hb'' hskip
  | @moreMembers b name b' cs more hb hname hb' _ _ ih ihmore =>
    intro fuel rest hfuel
    simp only [List.length_append, List.length_cons] at hfuel
    obtain ⟨b'', hb'', hskip⟩ :=
      ih fuel (',' :: (more ++ '\x7d' :: rest)) (by omega) (stops_cons (by decide) _)
    simp only [List.append_assoc, List.cons_append]
    rw [skipMembersIn_more hb hname hb' hb'' hskip]
    obtain ⟨fuel, rfl⟩ := Nat.exists_eq_add_of_le' (show 1 ≤ fuel by omega)
    exact ihmore fuel rest (by omega)

/-- **What the grammar derives is skipped.** -/
theorem skipValue_element (h : IsJson .element cs) (hrest : Stops rest) :
    ∃ b, Blanks b ∧ skipValue (cs ++ rest) = .ok (b ++ rest) :=
  h.skips (2 * (cs ++ rest).length + 1) rest (by simp only [List.length_append]; omega) hrest

end Collate.Json
