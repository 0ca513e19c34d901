import ShellLexer.TokenStream
import ShellLexer.Scan.Run

/-!
# Tokenizing

`tokenize` gives the tokens of a text together with everything that was wrong
with it.  `tokenizeInto` hands each diagnostic to a sink of the caller's choice
instead, which lets one sink collect the diagnostics of many texts.  Both sort
the events of one scan: `tokenize_tokens` and `tokenize_diagnostics`.
-/

namespace ShellLexer

/-- The tokens and the diagnostics of a text. -/
structure Lexed where
  tokens : TokenStream
  diagnostics : List Diagnostic
  deriving DecidableEq

namespace Lexed

/-- Whether nothing was reported. -/
def isClean (lexed : Lexed) : Bool := lexed.diagnostics.isEmpty

/-- The strict view of a scan: its tokens if it is clean, and its first diagnostic otherwise. -/
def strict (lexed : Lexed) : Except Diagnostic TokenStream :=
  match lexed.diagnostics with
  | [] => .ok lexed.tokens
  | d :: _ => .error d

end Lexed

/-- Puts a token after the tokens found so far, and lets the sink take a diagnostic. -/
def collect {σ : Type} (report : σ → Diagnostic → σ) :
    Array Token × σ → Scan.Event → Array Token × σ
  | (tokens, sink), .token t => (tokens.push t, sink)
  | (tokens, sink), .diagnostic d => (tokens, report sink d)

theorem foldl_collect {σ : Type} (report : σ → Diagnostic → σ) (events : List Scan.Event)
    (tokens : Array Token) (sink : σ) :
    events.foldl (collect report) (tokens, sink) =
      (tokens ++ events.filterMap Scan.Event.token?,
        (events.filterMap Scan.Event.diagnostic?).foldl report sink) := by
  induction events generalizing tokens sink with
  | nil => simp
  | cons e es ih =>
    cases e with
    | token t => simp [collect, ih, Scan.Event.token?, Scan.Event.diagnostic?, List.filterMap_cons]
    | diagnostic d =>
      simp [collect, ih, Scan.Event.token?, Scan.Event.diagnostic?, List.filterMap_cons]

/-- The tokens of a text, and the sink after every diagnostic was reported to it in order. -/
def tokenizeInto {σ : Type} (report : σ → Diagnostic → σ) (sink : σ) (text : String) :
    TokenStream × σ :=
  let (tokens, sink) :=
    Scan.run Buffer (some Scan.maxExpansionDepth) (collect report) (#[], sink) text
  (tokens.toList, sink)

/-- Everything that a scan finds in a text. -/
def events (text : String) : List Scan.Event :=
  Scan.events Buffer (some Scan.maxExpansionDepth) text

theorem tokenizeInto_eq {σ : Type} (report : σ → Diagnostic → σ) (sink : σ) (text : String) :
    tokenizeInto report sink text =
      ((events text).filterMap Scan.Event.token?,
        ((events text).filterMap Scan.Event.diagnostic?).foldl report sink) := by
  simp [tokenizeInto, events, Scan.run_eq_foldl, foldl_collect]

/-- The tokens and the diagnostics of a text. -/
def tokenize (text : String) : Lexed :=
  let (tokens, diagnostics) := tokenizeInto Array.push #[] text
  ⟨tokens, diagnostics.toList⟩

theorem tokenize_tokens (text : String) :
    (tokenize text).tokens = (events text).filterMap Scan.Event.token? := by
  simp [tokenize, tokenizeInto_eq]

theorem tokenize_diagnostics (text : String) :
    (tokenize text).diagnostics = (events text).filterMap Scan.Event.diagnostic? := by
  simp [tokenize, tokenizeInto_eq]

end ShellLexer
