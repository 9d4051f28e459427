/-
Settings survive being written as text, and a text may leave any of them out.

Both are said of every coding that is derived from the declaration of the settings and keeps to what is
documented of that. For the round trip, what is written is one of the texts that stand for the same
settings. For the rest, an object may give any of the fields, each once at most, in any order, among
members of other names, and laid out in any way.
-/
import Collate.Proofs.Settings.Coding
import Collate.Proofs.Settings.Text

set_option autoImplicit false

namespace Collate

open Json

variable {ε : Type} {members : List (String × List Char)} {text : String}

namespace WindowSettings

/-- What members give of window settings. Members of other names hold any value. -/
structure Gives (members : List (String × List Char)) (maxSize : Option UInt64)
    (maxDelay : Option Duration) : Prop where
  maxSize : Given "max_size" IsWord members maxSize
  maxDelay : Given "max_delay" Duration.IsDuration members maxDelay
  other : ∀ member ∈ members, member.1 ≠ "max_size" → member.1 ≠ "max_delay" →
    IsJson .element member.2

variable {maxSize : Option UInt64} {maxDelay : Option Duration}

theorem Gives.declared (h : Gives members maxSize maxDelay) :
    declaration.Gives members fun field => match field with
      | .maxSize => maxSize
      | .maxDelay => maxDelay where
  field field := by
    cases field with
    | maxSize => exact h.maxSize
    | maxDelay => exact h.maxDelay
  other member hmember hname :=
    h.other member hmember (Ne.symm (hname .maxSize)) (Ne.symm (hname .maxDelay))

theorem ofText_eq {c : Coding ε declaration} (hc : c.Documented) (htext : IsObject members text.toList)
    (h : Gives members maxSize maxDelay) : c.ofText text = .ok
      { maxSize := maxSize.getD ({} : WindowSettings).maxSize
        maxDelay := maxDelay.getD ({} : WindowSettings).maxDelay } := by
  obtain ⟨s, hread, hget⟩ := hc.ofText_gives htext h.declared
  rw [hread]
  refine congrArg Except.ok (declaration.ext fun field => ?_)
  cases field with
  | maxSize => exact hget .maxSize
  | maxDelay => exact hget .maxDelay

end WindowSettings

namespace AssembleSettings

/-- What members give of assemble settings. Members of other names hold any value. -/
structure Gives (members : List (String × List Char)) (maxConcurrentWindows : Option UInt64) :
    Prop where
  maxConcurrentWindows : Given "max_concurrent_windows" IsWord members maxConcurrentWindows
  other : ∀ member ∈ members, member.1 ≠ "max_concurrent_windows" → IsJson .element member.2

variable {maxConcurrentWindows : Option UInt64}

theorem Gives.declared (h : Gives members maxConcurrentWindows) :
    declaration.Gives members fun _ => maxConcurrentWindows where
  field _ := h.maxConcurrentWindows
  other member hmember hname := h.other member hmember (Ne.symm (hname .maxConcurrentWindows))

theorem ofText_eq {c : Coding ε declaration} (hc : c.Documented) (htext : IsObject members text.toList)
    (h : Gives members maxConcurrentWindows) : c.ofText text = .ok
      { maxConcurrentWindows :=
          maxConcurrentWindows.getD ({} : AssembleSettings).maxConcurrentWindows } := by
  obtain ⟨s, hread, hget⟩ := hc.ofText_gives htext h.declared
  rw [hread]
  exact congrArg Except.ok (declaration.ext hget)

end AssembleSettings

/-- **Settings as text**, for every coding that does what is documented of it. What a setting is written
as is read as the same setting. And an object that gives any of the fields, in any order and among
members of other names, stands for the defaults with these fields in their place. -/
theorem settings_from_text (window : Coding ε WindowSettings.declaration)
    (assemble : Coding ε AssembleSettings.declaration) (hwindow : window.Documented)
    (hassemble : assemble.Documented) :
    (∀ s : WindowSettings, window.ofText (window.text s) = .ok s)
      ∧ (∀ s : AssembleSettings, assemble.ofText (assemble.text s) = .ok s)
      ∧ (∀ (text : String) (members : List (String × List Char)) (maxSize : Option UInt64)
          (maxDelay : Option Duration), IsObject members text.toList →
          WindowSettings.Gives members maxSize maxDelay →
          window.ofText text = .ok
            { maxSize := maxSize.getD ({} : WindowSettings).maxSize
              maxDelay := maxDelay.getD ({} : WindowSettings).maxDelay })
      ∧ ∀ (text : String) (members : List (String × List Char))
          (maxConcurrentWindows : Option UInt64), IsObject members text.toList →
          AssembleSettings.Gives members maxConcurrentWindows →
          assemble.ofText text = .ok
            { maxConcurrentWindows :=
                maxConcurrentWindows.getD ({} : AssembleSettings).maxConcurrentWindows } :=
  ⟨hwindow.ofText_text, hassemble.ofText_text,
    fun _ _ _ _ htext h => WindowSettings.ofText_eq hwindow htext h,
    fun _ _ _ htext h => AssembleSettings.ofText_eq hassemble htext h⟩

/-- A text with an escaped name, blanks, another member, and nanoseconds that make up a second; and
one with nothing but its field. -/
theorem settings_from_text_mixed :
    WindowSettings.coding.ofText
        "\x7b \"\\u0061\":[null] ,\n\"max_delay\":\x7b\"nanos\":1500000000,\"secs\":2\x7d\x7d"
      = .ok ⟨100, .ofMillis 3500⟩
    ∧ AssembleSettings.coding.ofText "\x7b\"max_concurrent_windows\":3\x7d" = .ok ⟨3⟩ := by
  obtain ⟨-, -, hwindow, hassemble⟩ := settings_from_text WindowSettings.coding AssembleSettings.coding
    WindowSettings.coding_documented AssembleSettings.coding_documented
  constructor
  · have hnull : IsJson .element ['n', 'u', 'l', 'l'] := .element .nil .nullWord .nil
    have hother : IsJson .element ['[', 'n', 'u', 'l', 'l', ']', ' '] :=
      .element .nil (.array (.lastElement hnull)) (.single rfl)
    have hdelay : (Duration.ofMillis 3500).IsDuration
        (objectText [("nanos", natText 1500000000), ("secs", natText 2)]) :=
      .nanosFirst ⟨isWord_natText 2, isWord_natText 1500000000, by decide, by decide⟩
        (isObject_objectText (by simp) (List.forall_mem_cons.2 ⟨spells_field (by simp),
          List.forall_mem_singleton.2 (spells_field (by simp))⟩))
    have hname : Spells ['\\', 'u', '0', '0', '6', '1'] "a".toList :=
      .unit (n := 97) rfl (by decide) .nil
    have hmembers : IsMembers [("a", ['[', 'n', 'u', 'l', 'l', ']', ' ']),
        ("max_delay", objectText [("nanos", natText 1500000000), ("secs", natText 2)])] _ :=
      .more (.single rfl : Blanks [' ']) hname .nil
        (.last (.single rfl : Blanks ['\n']) (spells_field (by simp)) .nil)
    refine hwindow _ _ none _ (.members .nil hmembers .nil)
      ⟨.there (by decide) (.there (by decide) .never), .there (by decide) (.here hdelay .never), ?_⟩
    simpa using hother
  · have hobject : IsObject [("max_concurrent_windows", natText 3)]
        (objectText [("max_concurrent_windows", natText 3)]) :=
      isObject_objectText (by simp) (List.forall_mem_singleton.2 (spells_field (by simp)))
    refine hassemble _ _ (some 3) hobject ⟨.here (isWord_natText 3) .never, ?_⟩
    simp

end Collate
