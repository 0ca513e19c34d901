import ShellLexer.Proofs.Template.ReadBack

/-!
# One parameter expansion

A text in double quotes that is nothing but a parameter expansion, `"${s}"`.
Whatever `s` is, as long as no brace in it closes the expansion, it is split at
its first operator as `Braced.tokens` says.

* `Braced.missing`: the one report there can be.
* `tokenize_braced`: the tokens and the diagnostics of such a text.
-/

namespace ShellLexer

/-- The report about an operator that a text at `position` starts with and that must have a name
in front of it. -/
def Braced.missing (position : Nat) (cs : List Char) : List Diagnostic :=
  if cs.head?.any (· ∈ Grammar.namedOperators) then [⟨.missingParameter, position⟩] else []

namespace Scan

theorem missingName_eq (position : Nat) (cs : List Char) :
    missingName position cs = (Braced.missing position cs).map .diagnostic := by
  cases cs with
  | nil => rfl
  | cons c cs =>
    show (if c ∈ Grammar.namedOperators then _ else _) = _
    unfold Braced.missing
    by_cases hc : c ∈ Grammar.namedOperators
    · rw [if_pos hc, if_pos (by simpa using hc)]
      rfl
    · rw [if_neg hc, if_neg (by simpa using hc)]
      rfl

theorem filterMap_token?_tokens (ts : List Token) :
    (ts.map Event.token).filterMap Event.token? = ts := by
  rw [List.filterMap_map]
  exact List.filterMap_some

theorem filterMap_token?_diagnostics (ds : List Diagnostic) :
    (ds.map Event.diagnostic).filterMap Event.token? = [] := by
  rw [List.filterMap_map, List.filterMap_eq_nil_iff]
  exact fun d _ => rfl

theorem filterMap_diagnostic?_tokens (ts : List Token) :
    (ts.map Event.token).filterMap Event.diagnostic? = [] := by
  rw [List.filterMap_map, List.filterMap_eq_nil_iff]
  exact fun t _ => rfl

theorem filterMap_diagnostic?_diagnostics (ds : List Diagnostic) :
    (ds.map Event.diagnostic).filterMap Event.diagnostic? = ds := by
  rw [List.filterMap_map]
  exact List.filterMap_some

end Scan

/-- The events of an expansion in double quotes: the tokens in front of the operator and behind
it, with the report between them. -/
theorem events_braced {s : String} (hClosed : '}' ∉ s.toList) :
    events ("\"$\x7b" ++ s ++ "\x7d\"") =
      [Token.punctuation .doubleQuote, ⟨.segment, ""⟩, .punctuation .dollar,
          .punctuation .leftBrace].map .token ++
        ((Braced.missing 3 s.toList).map .diagnostic ++
          (Braced.tokens s.toList ++
            [Token.punctuation .rightBrace, .punctuation .doubleQuote]).map .token) := by
  have hText : ("\"$\x7b" ++ s ++ "\x7d\"").toList =
      '"' :: '$' :: '{' :: (s.toList ++ '}' :: ['"']) := by
    simp
  rw [events_eq, hText]
  show Scan.Event.punctuation .doubleQuote :: Scan.eventsFrom (some Scan.maxExpansionDepth)
    ⟨1, .quoted ⟨0, [], [], .nothing⟩⟩ ('$' :: '{' :: (s.toList ++ '}' :: ['"'])) = _
  rw [Scan.eventsFrom_textDollar (by decide), Scan.eventsFrom_dollarBrace,
    Scan.eventsFrom_braced hClosed, Scan.missingName_eq, List.map_append]
  rfl

/-- **A parameter expansion splits at its first operator.**  If no brace in `s` closes it, the text
`"${s}"` has the tokens `Braced.tokens` between those of its quotes, its dollar and its braces.
Only an operator at the very start of `s` can be reported, and it is if it needs a name. -/
theorem tokenize_braced (s : String) (hClosed : '}' ∉ s.toList) :
    tokenize ("\"$\x7b" ++ s ++ "\x7d\"") =
      ⟨[.punctuation .doubleQuote, ⟨.segment, ""⟩, .punctuation .dollar, .punctuation .leftBrace] ++
          (Braced.tokens s.toList ++ [.punctuation .rightBrace, .punctuation .doubleQuote]),
        Braced.missing 3 s.toList⟩ := by
  have hEvents := events_braced hClosed
  have hTokens := tokenize_tokens ("\"$\x7b" ++ s ++ "\x7d\"")
  have hDiagnostics := tokenize_diagnostics ("\"$\x7b" ++ s ++ "\x7d\"")
  rw [hEvents, List.filterMap_append, List.filterMap_append] at hTokens hDiagnostics
  rw [Scan.filterMap_token?_tokens, Scan.filterMap_token?_diagnostics,
    Scan.filterMap_token?_tokens, List.nil_append] at hTokens
  rw [Scan.filterMap_diagnostic?_tokens, Scan.filterMap_diagnostic?_diagnostics,
    Scan.filterMap_diagnostic?_tokens, List.nil_append, List.append_nil] at hDiagnostics
  rw [← hTokens, ← hDiagnostics]

/-- A missing name, a doubled operator behind it, an escaped brace, a quote and a backslash at the
end. -/
theorem tokenize_braced_missing :
    '}' ∉ ":##\\\x7b\"\n\\".toList ∧
      tokenize "\"$\x7b:##\\\x7b\"\n\\\x7d\"" =
        ⟨[.punctuation .doubleQuote, ⟨.segment, ""⟩, .punctuation .dollar, .punctuation .leftBrace,
          .punctuation .colon, ⟨.segment, "##\x7b\"\n\\"⟩, .punctuation .rightBrace,
          .punctuation .doubleQuote], [⟨.missingParameter, 3⟩]⟩ := by
  have hClosed : '}' ∉ ":##\\\x7b\"\n\\".toList := by decide
  refine ⟨hClosed, ?_⟩
  have h := tokenize_braced ":##\\\x7b\"\n\\" hClosed
  exact h.trans (by decide)

end ShellLexer
