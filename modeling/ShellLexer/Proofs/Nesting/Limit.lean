import ShellLexer.Proofs.Buffer.Encoded
import ShellLexer.Proofs.Nesting.Flatten

/-!
# Scans with another limit

`tokenizeWithin` is `tokenize` with a limit of one's own, or none at all.  Two
scans that differ in it run in parallel (`Parallel`), one with the state of the
other flattened, until a `${` stands past the limit: the scan without a limit
reads on inside braces there, and the other one does not.

* `flattens_eventsFrom`: where there is no such `${`, both scans agree.
* `tokenize_tokenizeWithin`: so a text without `${` has the same tokens under
  every limit, and the same diagnostics but for those about nesting.
-/

namespace ShellLexer

/-- The tokens and the diagnostics of a text, with expansions nested up to the given limit. -/
def tokenizeWithin (limit : Option Nat) (text : String) : Lexed :=
  let (tokens, diagnostics) := Scan.run Buffer limit (collect Array.push) (#[], #[]) text
  ⟨tokens.toList, diagnostics.toList⟩

/-- The diagnostics that are not about nesting. -/
def Lexed.besidesNesting (lexed : Lexed) : List Diagnostic :=
  lexed.diagnostics.filter fun d => !d.fault.aboutNesting

theorem tokenizeWithin_maxExpansionDepth (text : String) :
    tokenizeWithin (some Scan.maxExpansionDepth) text = tokenize text := by
  rw [tokenizeWithin, tokenize, tokenizeInto]

/-- The scan of a text, with lists of characters for buffers. -/
theorem tokenizeWithin_eq (limit : Option Nat) (text : String) :
    tokenizeWithin limit text =
      ⟨(Scan.eventsFrom limit (Scan.Config.initial : Scan.Config (List Char)) text.toList).filterMap
        Scan.Event.token?,
      (Scan.eventsFrom limit (Scan.Config.initial : Scan.Config (List Char)) text.toList).filterMap
        Scan.Event.diagnostic?⟩ := by
  have hEvents := Scan.events_buffer_eq limit text
  rw [Scan.events, Scan.events] at hEvents
  rw [← hEvents]
  simp [tokenizeWithin, Scan.run_eq_foldl, Scan.events, foldl_collect]

namespace Scan

/-- Every `${` is within the limit: its `$` is not reported as nested too deeply. -/
def BracesWithin (n : Nat) (cs : List Char) : Prop :=
  ∀ front back, cs = front ++ '$' :: '{' :: back →
    .fault .nestedTooDeeply front.length ∉
      eventsFrom (some n) (Config.initial : Config (List Char)) cs

/-- What is found among the first characters of a text is found in the whole. -/
theorem mem_eventsFrom_of_mem_found {limit : Option Nat} {config : Config (List Char)}
    {front cs : List Char} {e : Event} (hPrefix : front <+: cs)
    (he : e ∈ config.found limit front) : e ∈ eventsFrom limit config cs := by
  obtain ⟨back, rfl⟩ := hPrefix
  rw [eventsFrom_append]
  exact List.mem_append_left _ he

/-- The scans with the limit `n` and without one, behind the characters `cs`. -/
structure Parallel (n : Nat) (cs : List Char) : Prop where
  after : (Config.initial : Config (List Char)).after (some n) cs =
    ((Config.initial : Config (List Char)).after none cs).flatten n
  found : Flattens ((Config.initial : Config (List Char)).found (some n) cs)
    ((Config.initial : Config (List Char)).found none cs)
  /-- A `$` past the limit is the last character, and it has been reported. -/
  dollar : DollarPast n ((Config.initial : Config (List Char)).after none cs).state →
    ∃ front, cs = front ++ ['$'] ∧ .fault .nestedTooDeeply front.length ∈
      (Config.initial : Config (List Char)).found (some n) cs

namespace Parallel

variable {n : Nat}

theorem nil : Parallel n [] := ⟨rfl, .nil, nofun⟩

theorem append_singleton (hn : 1 ≤ n) {cs : List Char} (h : Parallel n cs) (c : Char)
    (hBrace : DollarPast n ((Config.initial : Config (List Char)).after none cs).state → c ≠ '{') :
    Parallel n (cs ++ [c]) := by
  have hPosition : ((Config.initial : Config (List Char)).after none cs).position =
      0 + cs.length := Config.after_position _ cs
  have hAfter := h.after
  have hFound := h.found
  generalize hNow : (Config.initial : Config (List Char)).after none cs = now
    at hPosition hAfter hBrace
  obtain ⟨position, s⟩ := now
  obtain rfl : position = cs.length := hPosition.trans (Nat.zero_add _)
  have hStep := s.step_flatten hn cs.length c hBrace
  constructor
  · rw [Config.after_append, Config.after_append, hAfter, hNow]
    exact congrArg (Config.mk (cs.length + 1)) hStep.state
  · rw [Config.found_append, Config.found_append, hAfter, hNow]
    refine hFound.append ?_
    rw [Config.found_cons, Config.found_cons, Config.found_nil, Config.found_nil, List.append_nil,
      List.append_nil]
    exact hStep.events
  · rw [Config.after_append, Config.found_append, hAfter, hNow]
    intro hPast
    obtain ⟨rfl, hMem⟩ := hStep.dollar hPast
    refine ⟨cs, rfl, List.mem_append_right _ ?_⟩
    rw [Config.found_cons, Config.found_nil, List.append_nil]
    exact hMem

/-- The scans run in parallel over all of a text in which every `${` is within the limit. -/
theorem of_prefix (hn : 1 ≤ n) {cs : List Char} (hBraces : BracesWithin n cs) (front : List Char)
    (hPrefix : front <+: cs) : Parallel n front := by
  induction front using List.reverseRecOn with
  | nil => exact .nil
  | append_singleton front c ih =>
    have hFront : front <+: cs := (List.prefix_append front [c]).trans hPrefix
    refine (ih hFront).append_singleton hn c ?_
    -- A brace here would stand directly behind a `$` that has been reported.
    rintro hPast rfl
    obtain ⟨before, rfl, hMem⟩ := (ih hFront).dollar hPast
    obtain ⟨back, rfl⟩ := hPrefix
    exact hBraces before back (by simp) (mem_eventsFrom_of_mem_found hFront hMem)

end Parallel

/-- **Scans agree** with a limit and without one, if every `${` is within the limit. -/
theorem flattens_eventsFrom {n : Nat} (hn : 1 ≤ n) {cs : List Char} (hBraces : BracesWithin n cs) :
    Flattens (eventsFrom (some n) (Config.initial : Config (List Char)) cs)
      (eventsFrom none (Config.initial : Config (List Char)) cs) := by
  have h := Parallel.of_prefix hn hBraces cs List.prefix_rfl
  rw [eventsFrom_eq_found_append_finish, eventsFrom_eq_found_append_finish, h.after]
  exact h.found.append (State.finish_flatten n _)

end Scan

/-- A text without `${` has the same tokens with a limit and without one, and the same diagnostics
that are not about nesting. -/
theorem tokenizeWithin_none {limit : Option Nat} (hLimit : limit ≠ some 0) {text : String}
    (hBrace : ¬ ['$', '{'] <:+: text.toList) :
    (tokenizeWithin limit text).tokens = (tokenizeWithin none text).tokens ∧
      (tokenizeWithin limit text).besidesNesting = (tokenizeWithin none text).besidesNesting := by
  cases limit with
  | none => exact ⟨rfl, rfl⟩
  | some n =>
    have hn : 1 ≤ n := by
      rcases Nat.eq_zero_or_pos n with rfl | hPos
      · exact absurd rfl hLimit
      · exact hPos
    have hBraces : Scan.BracesWithin n text.toList := by
      intro front back hText
      exact absurd ⟨front, back, by simp [hText]⟩ hBrace
    have h := Scan.flattens_eventsFrom hn hBraces
    rw [tokenizeWithin_eq, tokenizeWithin_eq]
    exact ⟨h.tokens, h.diagnostics⟩

/-- **Counting parentheses agrees with nesting.**  A text in which no `$` is directly followed by an
opening brace has the same tokens under every limit but zero, and under none at all; its
diagnostics are the same as well, but for those about nesting. -/
theorem tokenize_tokenizeWithin (limit : Option Nat) (text : String) (hLimit : limit ≠ some 0)
    (hBrace : ¬ ['$', '{'] <:+: text.toList) :
    (tokenize text).tokens = (tokenizeWithin limit text).tokens ∧
      (tokenize text).besidesNesting = (tokenizeWithin limit text).besidesNesting := by
  rw [← tokenizeWithin_maxExpansionDepth]
  have hMax : some Scan.maxExpansionDepth ≠ some 0 := by decide
  obtain ⟨hTokens, hDiagnostics⟩ := tokenizeWithin_none hMax hBrace
  obtain ⟨hTokens', hDiagnostics'⟩ := tokenizeWithin_none hLimit hBrace
  exact ⟨hTokens.trans hTokens'.symm, hDiagnostics.trans hDiagnostics'.symm⟩

/-- Substitutions in substitutions under the limit one, with a group, a fault and a `$` that opens
nothing among them. -/
theorem tokenize_tokenizeWithin_one :
    some 1 ≠ some 0 ∧ ¬ ['$', '{'] <:+: "\"a$(b$((c)$(@$)))".toList ∧
      (tokenize "\"a$(b$((c)$(@$)))").tokens =
        (tokenizeWithin (some 1) "\"a$(b$((c)$(@$)))").tokens ∧
      (tokenize "\"a$(b$((c)$(@$)))").besidesNesting =
        (tokenizeWithin (some 1) "\"a$(b$((c)$(@$)))").besidesNesting := by
  have hBrace : ¬ ['$', '{'] <:+: "\"a$(b$((c)$(@$)))".toList := by decide +kernel
  have hLimit : some 1 ≠ some 0 := by decide
  exact ⟨hLimit, hBrace, tokenize_tokenizeWithin (some 1) _ hLimit hBrace⟩

end ShellLexer
