import ShellLexer.Dump
import ShellLexer.Proofs.Diagnostics.Cause
import ShellLexer.Proofs.Dump.SelfDelimiting

/-!
# The report, line by line

A report writes a line for each diagnostic.  The message of a fault shows the
character it is about as it stands in the text, so where that is a newline the
line breaks in two and the second half does not start with the name of the
program.

* `oneLineEach_iff`: the report of any diagnostics is in order exactly if none of
  them is about a newline.
* `tokenize_oneLineEach_iff`: of those that a scan reports, the ones inside a command
  substitution and behind a `$` can be about a newline.
* `oneLineEach_of_newline_not_mem`: so a text of one line is always reported in order.
-/

namespace ShellLexer

/-- The report is made of lines that each end with a newline and start with the name of the
program, as many as there are diagnostics. -/
def Lexed.OneLineEach (lexed : Lexed) : Prop :=
  ∃ lines : List (List Char), lexed.report.toList = lines.flatMap (· ++ ['\n']) ∧
    lines.length = lexed.diagnostics.length ∧
    ∀ line ∈ lines, '\n' ∉ line ∧ "psh-lexer: ".toList <+: line

/-! ## Newlines in a message -/

theorem newline_not_mem_toString (n : Nat) : '\n' ∉ (toString n).toList := by
  show '\n' ∉ n.repr.toList
  rw [Nat.toList_repr]
  exact not_mem_toDigits (by decide) (by decide) n

/-- A description shows the character it is about, and no newline besides. -/
theorem Fault.newline_mem_description_iff (f : Fault) :
    '\n' ∈ f.description.toList ↔ f.char? = some '\n' := by
  have hQuoted : ∀ (front : String) (c : Char), '\n' ∉ front.toList →
      ('\n' ∈ (front ++ c.toString ++ "'").toList ↔ some c = some '\n') := by
    intro front c hFront
    simp [hFront, eq_comm]
  cases f with
  | unexpectedChar | unhandledPunctuation | unhandledInCommand | invalidExpansion =>
    exact hQuoted _ _ (by decide)
  | unclosedSingleQuote | unclosedDoubleQuote | unclosedCommand | unclosedParameter
  | nestedTooDeeply | missingParameter | endAfterDollar =>
    exact iff_of_false (by decide) nofun

/-- The line of a diagnostic, without the newline at its end. -/
def Diagnostic.line (d : Diagnostic) : List Char := (programName ++ ": " ++ d.message).toList

theorem Diagnostic.newline_mem_line_iff (d : Diagnostic) :
    '\n' ∈ d.line ↔ d.fault.char? = some '\n' := by
  have hFront : '\n' ∉ (programName ++ ": ").toList := by decide
  have hBehind : '\n' ∉ " at position ".toList := by decide
  have hPosition := newline_not_mem_toString d.position
  rw [← Fault.newline_mem_description_iff, line, message]
  simp only [String.toList_append (s := programName ++ ": "), String.toList_append, List.mem_append]
    at hFront ⊢
  simp only [hFront, hBehind, hPosition, false_or, or_false]

theorem Lexed.toList_report (lexed : Lexed) :
    lexed.report.toList = (lexed.diagnostics.map Diagnostic.line).flatMap (· ++ ['\n']) := by
  rw [report, String.toList_join, List.flatMap_map, List.flatMap_map]
  simp only [Diagnostic.line, String.toList_append]
  rfl

/-! ## Lines -/

theorem count_newline_lines (lines : List (List Char)) :
    (lines.flatMap (· ++ ['\n'])).count '\n' = lines.length + lines.flatten.count '\n' := by
  induction lines with
  | nil => rfl
  | cons line lines ih =>
    rw [List.flatMap_cons, List.count_append, List.count_append, ih, List.count_singleton_self,
      List.flatten_cons, List.count_append, List.length_cons]
    omega

/-- There are as many newlines as lines exactly if no line has one inside. -/
theorem count_newline_lines_eq_length_iff (lines : List (List Char)) :
    (lines.flatMap (· ++ ['\n'])).count '\n' = lines.length ↔ ∀ line ∈ lines, '\n' ∉ line := by
  rw [count_newline_lines, Nat.add_eq_left, List.count_eq_zero, List.mem_flatten]
  exact not_exists.trans (forall_congr' fun line => not_and)

/-- **A report has one line for each diagnostic** exactly if none is about a newline. -/
theorem Lexed.oneLineEach_iff (lexed : Lexed) :
    lexed.OneLineEach ↔ ∀ d ∈ lexed.diagnostics, d.fault.char? ≠ some '\n' := by
  have hLines : (∀ d ∈ lexed.diagnostics, d.fault.char? ≠ some '\n') ↔
      ∀ line ∈ lexed.diagnostics.map Diagnostic.line, '\n' ∉ line := by
    rw [List.forall_mem_map]
    exact forall₂_congr fun d _ => not_congr d.newline_mem_line_iff.symm
  rw [hLines]
  constructor
  · rintro ⟨lines, hReport, hLength, hEach⟩
    -- The lines of the definition need not be those of the messages, but they are as many.
    have hCount := (count_newline_lines_eq_length_iff lines).mpr fun line h => (hEach line h).1
    rw [← hReport, toList_report, hLength] at hCount
    refine (count_newline_lines_eq_length_iff _).mp ?_
    rw [hCount, List.length_map]
  · intro hNone
    refine ⟨_, lexed.toList_report, List.length_map _, ?_⟩
    intro line hLine
    refine ⟨hNone line hLine, ?_⟩
    obtain ⟨d, -, rfl⟩ := List.mem_map.mp hLine
    rw [Diagnostic.line, String.toList_append]
    exact List.prefix_append _ _

/-! ## What a scan reports -/

/-- What is reported about a newline stands in a command substitution or behind a `$`. -/
theorem Fault.CausedAt.char?_ne_newline {cs : List Char} {n : Nat} {f : Fault}
    (h : f.CausedAt cs n) (hCommand : f ≠ .unhandledInCommand '\n')
    (hDollar : f ≠ .invalidExpansion '\n') : f.char? ≠ some '\n' := by
  cases f with
  | unexpectedChar c =>
    rintro ⟨⟩
    exact h.2.1 (by decide)
  | unhandledPunctuation c =>
    rintro ⟨⟩
    exact absurd h.2 (by decide)
  | unhandledInCommand c =>
    rintro ⟨⟩
    exact hCommand rfl
  | invalidExpansion c =>
    rintro ⟨⟩
    exact hDollar rfl
  | unclosedSingleQuote | unclosedDoubleQuote | unclosedCommand | unclosedParameter
  | nestedTooDeeply | missingParameter | endAfterDollar => exact nofun

/-- The character that a fault is about stands in the text. -/
theorem Fault.CausedAt.char?_mem {cs : List Char} {n : Nat} {f : Fault} (h : f.CausedAt cs n) :
    ∀ c ∈ f.char?, c ∈ cs := by
  cases f with
  | unexpectedChar | unhandledPunctuation | unhandledInCommand =>
    rintro c ⟨⟩
    exact List.mem_of_getElem? h.1
  | invalidExpansion =>
    rintro c ⟨⟩
    exact List.mem_of_getElem? h.2.1
  | unclosedSingleQuote | unclosedDoubleQuote | unclosedCommand | unclosedParameter
  | nestedTooDeeply | missingParameter | endAfterDollar => exact nofun

/-- A text of one line is reported in order. -/
theorem oneLineEach_of_newline_not_mem {text : String} (h : '\n' ∉ text.toList) :
    (tokenize text).OneLineEach := by
  refine (Lexed.oneLineEach_iff _).mpr fun d hd hNewline => h ?_
  exact (causedAt_of_mem_tokenize hd).char?_mem _ hNewline

/-- **The report of a text has one line for each diagnostic** exactly if no newline is reported
inside a command substitution or behind a `$`. -/
theorem tokenize_oneLineEach_iff (text : String) :
    (tokenize text).OneLineEach ↔ ∀ d ∈ (tokenize text).diagnostics,
      d.fault ≠ .unhandledInCommand '\n' ∧ d.fault ≠ .invalidExpansion '\n' := by
  rw [Lexed.oneLineEach_iff]
  refine forall₂_congr fun d hd => ⟨fun hChar => ⟨?_, ?_⟩, fun hFault => ?_⟩
  · intro hCommand
    exact hChar (by rw [hCommand]; rfl)
  · intro hDollar
    exact hChar (by rw [hDollar]; rfl)
  · exact (causedAt_of_mem_tokenize hd).char?_ne_newline hFault.1 hFault.2

/-- The report about a `$` in front of a newline takes two lines. -/
theorem not_oneLineEach_dollarNewline :
    (tokenize "\"$\n\"").report =
        "psh-lexer: invalid expansion sequence '$\n' at position 1\n" ∧
      (tokenize "\"$\n\"").diagnostics.length = 1 ∧ ¬ (tokenize "\"$\n\"").OneLineEach := by
  have hReported : ⟨.invalidExpansion '\n', 1⟩ ∈ (tokenize "\"$\n\"").diagnostics := by decide
  refine ⟨by decide, by decide, fun hLines => ?_⟩
  exact (Lexed.oneLineEach_iff _).mp hLines _ hReported rfl

end ShellLexer
