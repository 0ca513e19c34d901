import ShellLexer.Proofs.Boundary
import ShellLexer.Proofs.ReadLoop.Calls
import ShellLexer.Proofs.ReadLoop.Output

/-!
# Line by line and all at once

A text can be handed to the read loop, which scans its lines one by one, or to
one scan.  The two agree on a text whose lines close their quotes: what the
scan finds in `l`, a newline and `rest` is what it finds in `l`, the newline,
and what it finds in `rest` (`eventsFrom_line`), and the loop reads the lines
back as they were written (`lines_script`).
-/

namespace ShellLexer

/-- The text of some lines, each with a newline at its end. -/
def script (ls : List String) : String := String.join (ls.map (· ++ "\n"))

theorem toList_script_cons (l : String) (ls : List String) :
    (script (l :: ls)).toList = l.toList ++ '\n' :: (script ls).toList := by
  simp [script]

theorem length_script_cons (l : String) (ls : List String) :
    (script (l :: ls)).length = (script ls).length + (l.length + 1) := by
  rw [← String.length_toList, toList_script_cons, List.length_append, List.length_cons,
    String.length_toList, String.length_toList]
  omega

/-- A line that can be told from the next and that leaves no quote open. -/
structure CompleteLine (l : String) : Prop where
  no_newline : '\n' ∉ l.toList
  no_return : l.toList.getLast? ≠ some '\r'
  closed : ∀ d ∈ (tokenize l).diagnostics,
    d.fault ≠ .unclosedSingleQuote ∧ d.fault ≠ .unclosedDoubleQuote

/-! ## The lines of a script -/

namespace ReadLoop

open Text.Utf8

theorem script_eq_written (ls : List String) :
    script ls = written (ls.map fun l => (l, .newline)) none := by
  simp [script, written, Terminator.text, Function.comp_def]

/-- **The loop reads the lines back** that a script is written from. -/
theorem lines_script {ls : List String} (h : ∀ l ∈ ls, CompleteLine l) :
    lines (encode (script ls).toList) = ls.map .ok := by
  have hLines : ∀ l ∈ ls.map fun l => (l, Terminator.newline), IsLine l.1 := by
    rw [List.forall_mem_map]
    intro l hl
    exact ⟨(h l hl).no_newline, (h l hl).no_return⟩
  rw [script_eq_written, lines_written hLines (by simp)]
  simp

end ReadLoop

/-! ## The scan of a script -/

namespace Scan

/-- A newline is a token of its own at the start of a text. -/
theorem eventsFrom_newline (limit : Option Nat) (cs : List Char) :
    eventsFrom limit (Config.initial : Config (List Char)) ('\n' :: cs) =
      .token .newline ::
        (eventsFrom limit (Config.initial : Config (List Char)) cs).map (Event.shift 1) := by
  show _ :: eventsFrom limit ⟨0 + 1, .plain .nothing⟩ cs = _
  exact congrArg _ (eventsFrom_shift 1 limit (.plain .nothing : State (List Char)) 0 cs)

/-- **A line is scanned apart from the lines behind it.** -/
theorem eventsFrom_line (limit : Option Nat) {as : List Char}
    (hClosed : ∀ position, ∀ e ∈ eventsFrom limit (Config.initial : Config (List Char)) as,
      e ≠ .fault .unclosedSingleQuote position ∧ e ≠ .fault .unclosedDoubleQuote position)
    (bs : List Char) :
    eventsFrom limit (Config.initial : Config (List Char)) (as ++ '\n' :: bs) =
      eventsFrom limit (Config.initial : Config (List Char)) as ++ .token .newline ::
        (eventsFrom limit (Config.initial : Config (List Char)) bs).map
          (Event.shift (as.length + 1)) := by
  rw [eventsFrom_append_of_boundary limit hClosed (tokenBoundary_newline as bs),
    eventsFrom_newline, List.map_cons, List.map_map]
  congr 2
  refine List.map_congr_left fun e _ => ?_
  cases e with
  | token t => rfl
  | diagnostic d =>
    show Event.diagnostic ⟨d.fault, d.position + 1 + as.length⟩ = _
    rw [Nat.add_assoc, Nat.add_comm 1]
    rfl

end Scan

section Lines

variable {l : String} (ls : List String)

theorem events_script_cons (h : CompleteLine l) :
    events (script (l :: ls)) =
      events l ++ .token .newline ::
        (events (script ls)).map (Scan.Event.shift (l.length + 1)) := by
  rw [events_eq, events_eq, events_eq, toList_script_cons, ← String.length_toList]
  refine Scan.eventsFrom_line _ ?_ _
  rw [← events_eq]
  exact forall_events_ne_unclosed h.closed

theorem tokens_script_cons (h : CompleteLine l) :
    (tokenize (script (l :: ls))).tokens =
      (tokenize l).tokens ++ Token.newline :: (tokenize (script ls)).tokens := by
  rw [tokenize_tokens, tokenize_tokens, tokenize_tokens, events_script_cons ls h,
    List.filterMap_append, List.filterMap_cons_some (f := Scan.Event.token?) rfl,
    filterMap_token?_shift]

theorem diagnostics_script_cons (h : CompleteLine l) :
    (tokenize (script (l :: ls))).diagnostics =
      (tokenize l).diagnostics ++
        (tokenize (script ls)).diagnostics.map (Diagnostic.shift (l.length + 1)) := by
  rw [tokenize_diagnostics, tokenize_diagnostics, tokenize_diagnostics, events_script_cons ls h,
    List.filterMap_append, List.filterMap_cons_none (f := Scan.Event.diagnostic?) rfl,
    filterMap_diagnostic?_shift]

end Lines

variable {ls : List String}

theorem dump_script (h : ∀ l ∈ ls, CompleteLine l) :
    (tokenize (script ls)).dump .text =
      String.join (ls.map fun l => (tokenize l).dump .text ++ Token.newline.display) := by
  induction ls with
  | nil => rfl
  | cons l ls ih =>
    obtain ⟨hFirst, hRest⟩ := List.forall_mem_cons.mp h
    rw [List.map_cons, String.join_cons, ← ih hRest]
    show TokenStream.display _ = TokenStream.display _ ++ _ ++ TokenStream.display _
    rw [tokens_script_cons ls hFirst, TokenStream.display_append, String.append_assoc]
    congr 1
    rw [TokenStream.display, List.map_cons, String.join_cons]
    rfl

theorem Diagnostic.shift_shift (m n : Nat) (d : Diagnostic) :
    (d.shift m).shift n = d.shift (m + n) := by
  show Diagnostic.mk d.fault (d.position + m + n) = _
  rw [Nat.add_assoc]
  rfl

theorem diagnostics_script (h : ∀ l ∈ ls, CompleteLine l) :
    (tokenize (script ls)).diagnostics =
      (ls.mapIdx fun i l =>
        (tokenize l).diagnostics.map (Diagnostic.shift (script (ls.take i)).length)).flatten := by
  induction ls with
  | nil => rfl
  | cons l ls ih =>
    obtain ⟨hFirst, hRest⟩ := List.forall_mem_cons.mp h
    -- The offset of a line behind `l` is its offset among the lines behind `l`, and `l` with its
    -- newline in front.
    have hMoved : (ls.mapIdx fun i k => (tokenize k).diagnostics.map
          (Diagnostic.shift (script ((l :: ls).take (i + 1))).length)) =
        (ls.mapIdx fun i k => (tokenize k).diagnostics.map
          (Diagnostic.shift (script (ls.take i)).length)).map
            (List.map (Diagnostic.shift (l.length + 1))) := by
      rw [List.mapIdx_eq_zipIdx_map, List.mapIdx_eq_zipIdx_map, List.map_map]
      refine List.map_congr_left ?_
      rintro ⟨k, i⟩ -
      show (tokenize k).diagnostics.map _ = List.map _ (List.map _ _)
      rw [List.take_succ_cons, length_script_cons, List.map_map]
      exact List.map_congr_left fun d _ => (Diagnostic.shift_shift _ _ d).symm
    have hUnmoved : (tokenize l).diagnostics.map (Diagnostic.shift 0) = (tokenize l).diagnostics :=
      List.map_id _
    rw [diagnostics_script_cons ls hFirst, ih hRest, List.mapIdx_cons, List.flatten_cons,
      List.map_flatten, ← hMoved]
    exact congrArg (· ++ _) hUnmoved.symm

/-- **The read loop and one scan agree.**  On a script whose lines close their quotes the loop
writes the prompt for each line, and behind it the dump of the line and its diagnostics unless
the line is empty.  The dumps, with a newline token behind each, are the dump of the whole
script, and the diagnostics of the script are those of its lines, each moved by what is in front of
its line. -/
theorem run_script (prompt : String) (hLines : ∀ l ∈ ls, CompleteLine l) :
    ReadLoop.run ⟨prompt, .text⟩ (script ls).toUTF8 =
      ⟨String.join (ls.map fun l => prompt ++
          if l = "" then "" else (tokenize l).dump .text ++ "\n" ++ (tokenize l).report) ++
        prompt ++ "\n", none⟩ ∧
    String.join (ls.map fun l =>
        (if l = "" then "" else (tokenize l).dump .text) ++ Token.newline.display) =
      (tokenize (script ls)).dump .text ∧
    (tokenize (script ls)).diagnostics =
      (ls.mapIdx fun i l =>
        (tokenize l).diagnostics.map (Diagnostic.shift (script (ls.take i)).length)).flatten := by
  refine ⟨?_, ?_, diagnostics_script hLines⟩
  · have hRespond := ReadLoop.respond_append ⟨prompt, .text⟩ "" ls []
    rw [List.append_nil, String.empty_append] at hRespond
    rw [ReadLoop.run, Text.Utf8.toList_toUTF8, ReadLoop.lines_script hLines, hRespond]
    rfl
  · rw [dump_script hLines]
    congr 1
    refine List.map_congr_left fun l _ => ?_
    by_cases hEmpty : l = ""
    · subst hEmpty
      rfl
    · rw [if_neg hEmpty]

/-- A line with a fault, an empty line, and a line whose fault moves by the six characters in
front. -/
theorem run_script_sample :
    (ReadLoop.run ⟨"> ", .text⟩ (script ["if ^", "", "'a'@"]).toUTF8).output =
        "> (\"if\" IF)(\" \" WHITESPACE)\n" ++
          "psh-lexer: failed to handle punctuation '^' at position 3\n" ++
          "> > (\"a\" SINGLE_QUOTED_STRING)\n" ++
          "psh-lexer: failed to handle punctuation '@' at position 3\n> \n" ∧
      (tokenize (script ["if ^", "", "'a'@"])).diagnostics =
        [⟨.unhandledPunctuation '^', 3⟩, ⟨.unhandledPunctuation '@', 9⟩] := by
  have hLines : ∀ l ∈ ["if ^", "", "'a'@"], CompleteLine l := by
    simp only [List.forall_mem_cons, List.not_mem_nil, IsEmpty.forall_iff, implies_true, and_true]
    exact ⟨⟨by decide, by decide, by decide +kernel⟩, ⟨by decide, by decide, by decide +kernel⟩,
      ⟨by decide, by decide, by decide +kernel⟩⟩
  obtain ⟨hRun, -, hDiagnostics⟩ := run_script "> " hLines
  constructor
  · rw [hRun]
    decide +kernel
  · rw [hDiagnostics]
    decide +kernel

end ShellLexer
