import ShellLexer.Lexed

/-!
# One sink for many texts

A sink can be handed on from the scan of one text to the scan of the next
(`tokenizeEachInto`).  It only takes reports: no scan looks at it, so every text
has the tokens it has on its own, and the sink takes the diagnostics of the
texts one after the other, each with its position in its own text.

* `tokenizeEachInto_getElem?`: the tokens of each scan and the sink behind it.
-/

namespace ShellLexer

variable {σ : Type} (report : σ → Diagnostic → σ)

/-- Scans texts in turn, and hands the sink on from each scan to the next. -/
def tokenizeEachInto (sink : σ) : List String → List (TokenStream × σ)
  | [] => []
  | text :: texts =>
    let scan := tokenizeInto report sink text
    scan :: tokenizeEachInto scan.2 texts

/-- The diagnostics of texts, those of the first text first. -/
def diagnosticsOfEach (texts : List String) : List Diagnostic :=
  texts.flatMap fun text => (tokenize text).diagnostics

theorem diagnosticsOfEach_cons (text : String) (texts : List String) :
    diagnosticsOfEach (text :: texts) = (tokenize text).diagnostics ++ diagnosticsOfEach texts :=
  List.flatMap_cons

/-- A scan finds the same tokens whatever the sink, and reports the same to it. -/
theorem tokenizeInto_eq_tokenize (sink : σ) (text : String) :
    tokenizeInto report sink text =
      ((tokenize text).tokens, (tokenize text).diagnostics.foldl report sink) := by
  rw [tokenizeInto_eq, tokenize_tokens, tokenize_diagnostics]

theorem tokenizeEachInto_cons (sink : σ) (text : String) (texts : List String) :
    tokenizeEachInto report sink (text :: texts) =
      ((tokenize text).tokens, (tokenize text).diagnostics.foldl report sink) ::
        tokenizeEachInto report ((tokenize text).diagnostics.foldl report sink) texts := by
  simp only [tokenizeEachInto, tokenizeInto_eq_tokenize]

/-- **The sink does not influence the scans.**  When texts are scanned in turn, the tokens of each
text are those of the text on its own, and the sink behind its scan has taken the diagnostics of
all texts so far, in order. -/
theorem tokenizeEachInto_getElem? (sink : σ) (texts : List String) (i : Nat) :
    (tokenizeEachInto report sink texts)[i]? = texts[i]?.map fun text =>
      ((tokenize text).tokens, (diagnosticsOfEach (texts.take (i + 1))).foldl report sink) := by
  induction texts generalizing sink i with
  | nil => rfl
  | cons text texts ih =>
    rw [tokenizeEachInto_cons, List.take_succ_cons, diagnosticsOfEach_cons, List.foldl_append]
    cases i with
    | zero =>
      rw [List.take_zero]
      rfl
    | succ i => exact ih _ i

end ShellLexer
