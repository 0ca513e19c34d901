import ShellLexer.Dump
import ShellLexer.Proofs.Dump.SelfDelimiting

/-!
# What a message tells

A message words the fault, shows the character it is about as it stands in the
text, and ends with the position.  Nothing is lost: the position stands behind
the last space, the character in front of the last quote, and the wordings of
two faults part within their first eighteen characters, in front of the
character shown.

* `Fault.description_injective`: no two faults are worded alike.
* `Diagnostic.message_injective`: a message determines its diagnostic.
-/

namespace ShellLexer

namespace Fault

/-- The same fault about another character, if it is about one. -/
def withChar (c : Char) : Fault → Fault
  | unexpectedChar _ => unexpectedChar c
  | unhandledPunctuation _ => unhandledPunctuation c
  | unhandledInCommand _ => unhandledInCommand c
  | invalidExpansion _ => invalidExpansion c
  | f => f

/-- Every fault once, about a blank if it is about a character. -/
def kinds : List Fault :=
  [unexpectedChar ' ', unhandledPunctuation ' ', unhandledInCommand ' ', unclosedSingleQuote,
   unclosedDoubleQuote, unclosedCommand, unclosedParameter, nestedTooDeeply, missingParameter,
   invalidExpansion ' ', endAfterDollar]

theorem withChar_mem_kinds (f : Fault) : f.withChar ' ' ∈ kinds := by
  cases f <;> simp [withChar, kinds]

theorem withChar_char? (f : Fault) : (f.withChar ' ').withChar (f.char?.getD ' ') = f := by
  cases f <;> rfl

/-- The first characters of a description, up to where the last two faults part, do not depend on
the character that the fault is about. -/
theorem take_description_withChar (f : Fault) (c : Char) :
    (f.withChar c).description.toList.take 18 = f.description.toList.take 18 := by
  have hFront : ∀ (front : String) (d : Char), 18 ≤ front.toList.length →
      (front ++ d.toString ++ "'").toList.take 18 = front.toList.take 18 := by
    intro front d hLength
    rw [String.toList_append, String.toList_append, List.append_assoc,
      List.take_append_of_le_length hLength]
  cases f with
  | unexpectedChar | unhandledPunctuation | unhandledInCommand | invalidExpansion =>
    exact (hFront _ _ (by decide)).trans (hFront _ _ (by decide)).symm
  | unclosedSingleQuote | unclosedDoubleQuote | unclosedCommand | unclosedParameter
  | nestedTooDeeply | missingParameter | endAfterDollar => rfl

/-- The character that a fault is about stands in front of the last quote of its description. -/
theorem char?_eq (f : Fault) :
    f.char? = (f.withChar ' ').char?.bind fun _ => f.description.toList.reverse[1]? := by
  have hShown : ∀ (front : String) (c : Char),
      some c = (front ++ c.toString ++ "'").toList.reverse[1]? := by
    intro front c
    simp
  cases f with
  | unexpectedChar | unhandledPunctuation | unhandledInCommand | invalidExpansion =>
    exact hShown _ _
  | unclosedSingleQuote | unclosedDoubleQuote | unclosedCommand | unclosedParameter
  | nestedTooDeeply | missingParameter | endAfterDollar => rfl

/-- No two faults are worded alike. -/
theorem description_injective : Function.Injective description := by
  have hKinds : ∀ f ∈ kinds, ∀ g ∈ kinds,
      f.description.toList.take 18 = g.description.toList.take 18 → f = g := by decide +kernel
  intro f g h
  have hKind : f.withChar ' ' = g.withChar ' ' := by
    refine hKinds _ f.withChar_mem_kinds _ g.withChar_mem_kinds ?_
    rw [take_description_withChar, take_description_withChar, h]
  have hChar : f.char? = g.char? := by rw [char?_eq f, char?_eq g, hKind, h]
  rw [← withChar_char? f, ← withChar_char? g, hKind, hChar]

end Fault

theorem Diagnostic.toList_message (d : Diagnostic) :
    d.message.toList =
      d.fault.description.toList ++ " at position".toList ++ ' ' :: Nat.toDigits 10 d.position := by
  simp [message]

/-- **A message determines its diagnostic**: the fault, its character and the position. -/
theorem Diagnostic.message_injective : Function.Injective Diagnostic.message := by
  rintro ⟨f, m⟩ ⟨g, n⟩ h
  have hSpace : ∀ n, ' ' ∉ (Nat.toDigits 10 n).reverse := by
    intro n
    rw [List.mem_reverse]
    exact not_mem_toDigits (by decide) (by decide) n
  -- From the back, the position is what stands in front of the first space.
  have hBack := congrArg (fun s : String => s.toList.reverse) h
  simp only [toList_message, List.reverse_append, List.reverse_cons, List.append_assoc,
    List.singleton_append] at hBack
  obtain ⟨hDigits, hFront⟩ := append_cons_inj_of_not_mem (hSpace _) (hSpace _) hBack
  have hPosition : m = n :=
    toDigits_injective (by decide) (by decide) (List.reverse_inj.mp hDigits)
  have hDescription : f.description.toList.reverse = g.description.toList.reverse :=
    List.append_cancel_left hFront
  have hFault : f = g :=
    Fault.description_injective (String.toList_inj.mp (List.reverse_inj.mp hDescription))
  rw [hFault, hPosition]

end ShellLexer
