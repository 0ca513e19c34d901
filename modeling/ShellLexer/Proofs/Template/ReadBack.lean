import ShellLexer.Proofs.Template.Syntax
import ShellLexer.Proofs.Buffer.Encoded

/-!
# Reading a rendered template back

A scan of a rendered template finds the tokens of the template.  The induction
is on the syntax, with any text behind what is read: each part is read up to its
end and leaves the scan where the part began (`Expansion.eventsFrom_render`,
`Body.eventsFrom_render`).

* `tokenize_quoted`: tokenizing a template in double quotes gives its tokens
  between two double quotes, and no diagnostics.
-/

namespace ShellLexer

namespace Scan

variable {limit : Option Nat} {position start : Nat} {text name cs rest : List Char}
variable {commands outer : List Command}

theorem nameChar_ne {c d : Char} (hc : isNameChar c) (hd : isNameChar d = false) : ¬ (c == d) := by
  intro hEq
  rw [beq_iff_eq.mp hEq, hd] at hc
  contradiction

/-- A name is complete where no name character follows it. -/
theorem eventsFrom_wordEnd (h : Template.startsWithName rest = false) :
    eventsFrom limit ⟨position, .quoted ⟨start, text, commands, .word name⟩⟩ rest =
      .token (wordToken name) ::
        eventsFrom limit ⟨position, .quoted ⟨start, text, commands, .nothing⟩⟩ rest := by
  cases rest with
  | nil => rfl
  | cons c rest =>
    have hc : ¬ isNameChar c := by simpa [Template.startsWithName] using h
    simp only [eventsFrom, Config.step, State.step, Quoted.step]
    rw [if_neg hc]
    rfl

theorem eventsFrom_nameChars (h : ∀ c ∈ cs, isNameChar c) :
    eventsFrom limit ⟨position, .quoted ⟨start, text, commands, .word name⟩⟩ (cs ++ rest) =
      eventsFrom limit
        ⟨position + cs.length, .quoted ⟨start, text, commands, .word (name ++ cs)⟩⟩ rest := by
  induction cs generalizing position name with
  | nil => rw [List.append_nil, List.nil_append, List.length_nil, Nat.add_zero]
  | cons c cs ih =>
    have hc := h c List.mem_cons_self
    have hPosition : position + (c :: cs).length = position + 1 + cs.length := by
      rw [List.length_cons]
      omega
    rw [hPosition, List.append_cons name c cs, ← ih fun d hd => h d (List.mem_cons_of_mem c hd)]
    simp only [List.cons_append, eventsFrom, Config.step, State.step, Quoted.step]
    rw [if_pos hc]
    rfl

/-- A name is read to its end. -/
theorem eventsFrom_wordRest {c : Char} (h : ∀ d ∈ cs, isNameChar d)
    (hRest : Template.startsWithName rest = false) :
    eventsFrom limit ⟨position, .quoted ⟨start, text, commands, .word [c]⟩⟩ (cs ++ rest) =
      .token (wordToken (c :: cs)) :: eventsFrom limit
        ⟨position + cs.length, .quoted ⟨start, text, commands, .nothing⟩⟩ rest := by
  rw [eventsFrom_nameChars h, eventsFrom_wordEnd hRest]
  rfl

/-- A `$` in a command substitution, where expansions may nest one level further. -/
theorem eventsFrom_bodyDollar {n : Nat} {command : Command} (h : outer.length + 1 < n) :
    eventsFrom (some n) ⟨position, .quoted ⟨start, text, command :: outer, .nothing⟩⟩
        ('$' :: cs) =
      .punctuation .dollar :: eventsFrom (some n)
        ⟨position + 1, .quoted ⟨start, text, command :: outer, .dollar position⟩⟩ cs := by
  have hOpen : ¬ Quoted.tooDeep (some n) (outer.length + 1) := by
    simp [Quoted.tooDeep]
    omega
  simp only [eventsFrom, Config.step, State.step, Quoted.step, Quoted.enter, Quoted.readCommand,
    Quoted.dollar, List.length_cons]
  rw [if_pos (by rfl), if_neg hOpen]
  rfl

/-- A `$` in the text of double quotes. -/
theorem eventsFrom_textDollar {n : Nat} (h : 0 < n) :
    eventsFrom (some n) ⟨position, .quoted ⟨start, text, [], .nothing⟩⟩ ('$' :: cs) =
      .segment (String.ofList text) :: .punctuation .dollar :: eventsFrom (some n)
        ⟨position + 1, .quoted ⟨start, ([] : List Char), [], .dollar position⟩⟩ cs := by
  have hOpen : ¬ Quoted.tooDeep (some n) 0 := by
    simp [Quoted.tooDeep]
    omega
  simp only [eventsFrom, Config.step, State.step, Quoted.step, Quoted.enter, Quoted.readText,
    Quoted.dollar, List.length_nil]
  rw [if_neg (by decide), if_neg (by decide), if_pos (by rfl), if_neg hOpen]
  rfl

/-- The first character of a word in a command substitution. -/
theorem eventsFrom_bodyWord {c : Char} {command : Command} (hc : isNameChar c) :
    eventsFrom limit ⟨position, .quoted ⟨start, text, command :: outer, .nothing⟩⟩ (c :: cs) =
      eventsFrom limit ⟨position + 1, .quoted ⟨start, text, command :: outer, .word [c]⟩⟩ cs := by
  simp only [eventsFrom, Config.step, State.step, Quoted.step, Quoted.enter, Quoted.readCommand]
  rw [if_neg (nameChar_ne hc rfl), if_neg (nameChar_ne hc rfl), if_neg (nameChar_ne hc rfl),
    if_pos hc]
  rfl

/-- The first character of a name behind a `$`. -/
theorem eventsFrom_dollarName {c : Char} {dollarStart : Nat} (hc : isNameStart c) :
    eventsFrom limit ⟨position, .quoted ⟨start, text, commands, .dollar dollarStart⟩⟩ (c :: cs) =
      eventsFrom limit ⟨position + 1, .quoted ⟨start, text, commands, .word [c]⟩⟩ cs := by
  have hName := isNameChar_of_isNameStart hc
  simp only [eventsFrom, Config.step, State.step, Quoted.step, Quoted.afterDollar]
  rw [if_neg (nameChar_ne hName rfl), if_neg (nameChar_ne hName rfl), if_pos hc]
  rfl

theorem eventsFrom_dollarBrace {dollarStart : Nat} :
    eventsFrom limit ⟨position, .quoted ⟨start, text, commands, .dollar dollarStart⟩⟩
        ('{' :: cs) =
      .punctuation .leftBrace :: eventsFrom limit ⟨position + 1, .quoted ⟨start, text, commands,
        .parameter (Parameter.opened position [])⟩⟩ cs := rfl

theorem eventsFrom_dollarParen {dollarStart : Nat} :
    eventsFrom limit ⟨position, .quoted ⟨start, text, commands, .dollar dollarStart⟩⟩
        ('(' :: cs) =
      .punctuation .leftParen :: eventsFrom limit
        ⟨position + 1, .quoted ⟨start, text, ⟨position, 0⟩ :: commands, .nothing⟩⟩ cs := rfl

theorem eventsFrom_openParen {commandStart nested : Nat} :
    eventsFrom limit
        ⟨position, .quoted ⟨start, text, ⟨commandStart, nested⟩ :: outer, .nothing⟩⟩ ('(' :: cs) =
      .punctuation .leftParen :: eventsFrom limit
        ⟨position + 1, .quoted ⟨start, text, ⟨commandStart, nested + 1⟩ :: outer, .nothing⟩⟩ cs :=
  rfl

theorem eventsFrom_closeParen {commandStart nested : Nat} :
    eventsFrom limit
        ⟨position, .quoted ⟨start, text, ⟨commandStart, nested + 1⟩ :: outer, .nothing⟩⟩
        (')' :: cs) =
      .punctuation .rightParen :: eventsFrom limit
        ⟨position + 1, .quoted ⟨start, text, ⟨commandStart, nested⟩ :: outer, .nothing⟩⟩ cs := rfl

theorem eventsFrom_closeCommand {commandStart : Nat} :
    eventsFrom limit
        ⟨position, .quoted ⟨start, text, ⟨commandStart, 0⟩ :: outer, .nothing⟩⟩ (')' :: cs) =
      .punctuation .rightParen :: eventsFrom limit
        ⟨position + 1, .quoted ⟨start, text, outer, .nothing⟩⟩ cs := rfl

end Scan

namespace Template

open Scan

theorem Word.token_eq (w : Word) : w.token = wordToken w.chars := rfl

theorem Word.exists_cons (w : Word) :
    ∃ c cs, w.chars = c :: cs ∧ isNameChar c ∧ ∀ d ∈ cs, isNameChar d := by
  obtain ⟨c, cs, hChars⟩ := List.exists_cons_of_ne_nil w.ne_nil
  have hAll := w.nameChars
  rw [hChars] at hAll
  exact ⟨c, cs, hChars, hAll c List.mem_cons_self, fun d hd => hAll d (List.mem_cons_of_mem c hd)⟩

theorem Name.exists_cons (x : Name) :
    ∃ c cs, x.chars = c :: cs ∧ isNameStart c ∧ ∀ d ∈ cs, isNameChar d := by
  obtain ⟨c, cs, hChars, hFirst, hTail⟩ := x.toWord.exists_cons
  have hNoDigit : ¬ isDigit c := x.noDigit c (by rw [hChars]; rfl)
  have hStart : isNameStart c := by simpa [isNameChar, hNoDigit] using hFirst
  exact ⟨c, cs, hChars, hStart, hTail⟩

theorem Name.token_eq (x : Name) : Token.ofName (String.ofList x.chars) = wordToken x.chars := by
  have hNoDigit : x.chars.head?.any Char.isDigit = false := by
    cases hHead : x.chars.head? with
    | none => rfl
    | some c => simpa [isDigit] using x.noDigit c hHead
  show _ = (if x.chars.head?.any Char.isDigit then _ else _)
  rw [hNoDigit]
  rfl

theorem Expansion.depth_pos (e : Expansion) : 0 < e.depth := by
  cases e with
  | name x => exact Nat.one_pos
  | parameter text h => exact Nat.one_pos
  | command body => exact Nat.succ_pos _

/-- No name character follows a part that must not be followed by a word. -/
theorem Body.startsWithName_render {body : Body} (h : body.startsWithWord = false)
    (rest : List Char) : startsWithName (body.render ++ ')' :: rest) = false := by
  cases body with
  | word w body => contradiction
  | done | group inner body | expansion e body => rfl

variable {n : Nat}

mutual

/-- **A scan of an expansion finds its tokens.**  What follows a name must not go on with it. -/
theorem Expansion.eventsFrom_render {position start dollarStart : Nat} {text rest : List Char}
    {commands : List Command} (e : Expansion) (hDepth : e.depth + commands.length ≤ n)
    (hApart : e.apart) (hRest : e.isName → startsWithName rest = false) :
    eventsFrom (some n) ⟨position, .quoted ⟨start, text, commands, .dollar dollarStart⟩⟩
        (e.render ++ rest) =
      e.tokens.map .token ++ eventsFrom (some n)
        ⟨position + e.render.length, .quoted ⟨start, text, commands, .nothing⟩⟩ rest := by
  match e with
  | .name x =>
    obtain ⟨c, cs, hChars, hStart, hTail⟩ := x.exists_cons
    have hPosition : position + 1 + cs.length = position + (c :: cs).length := by
      rw [List.length_cons]
      omega
    simp only [Expansion.render, Expansion.tokens, x.token_eq]
    rw [hChars, List.cons_append, eventsFrom_dollarName hStart,
      eventsFrom_wordRest hTail (hRest rfl), hPosition]
    rfl
  | .parameter inside h =>
    have hPosition : position + 1 + inside.length + 1 =
        position + ('{' :: (inside ++ ['}'])).length := by
      simp only [List.length_cons, List.length_append, List.length_nil]
      omega
    have hMissing : missingName (position + 1) inside = [] := missingName_eq_nil h.named
    have hRender : (Expansion.parameter inside h).render ++ rest =
        '{' :: (inside ++ '}' :: rest) := by
      simp [Expansion.render]
    rw [hRender, eventsFrom_dollarBrace, eventsFrom_braced h.closed, hMissing, hPosition]
    simp [Expansion.tokens, Expansion.render, Event.punctuation]
  | .command body =>
    have hBody : body.depth + (commands.length + 1) ≤ n := by
      rw [Expansion.depth] at hDepth
      omega
    have hPosition : position + 1 + body.render.length + 1 =
        position + ('(' :: (body.render ++ [')'])).length := by
      simp only [List.length_cons, List.length_append, List.length_nil]
      omega
    have hRender : (Expansion.command body).render ++ rest =
        '(' :: (body.render ++ ')' :: rest) := by
      simp [Expansion.render]
    rw [hRender, eventsFrom_dollarParen, Body.eventsFrom_render body hBody hApart,
      eventsFrom_closeCommand, hPosition]
    simp [Expansion.tokens, Expansion.render, Event.punctuation]

theorem Body.eventsFrom_render {position start : Nat} {text rest : List Char} {command : Command}
    {outer : List Command} (body : Body) (hDepth : body.depth + (outer.length + 1) ≤ n)
    (hApart : body.apart) :
    eventsFrom (some n) ⟨position, .quoted ⟨start, text, command :: outer, .nothing⟩⟩
        (body.render ++ ')' :: rest) =
      body.tokens.map .token ++ eventsFrom (some n)
        ⟨position + body.render.length, .quoted ⟨start, text, command :: outer, .nothing⟩⟩
        (')' :: rest) := by
  match body with
  | .done => rfl
  | .word w body =>
    rw [Body.apart, Bool.and_eq_true, Bool.not_eq_true'] at hApart
    rw [Body.depth] at hDepth
    obtain ⟨c, cs, hChars, hFirst, hTail⟩ := w.exists_cons
    have hPosition : position + 1 + cs.length + body.render.length =
        position + (c :: (cs ++ body.render)).length := by
      simp only [List.length_cons, List.length_append]
      omega
    simp only [Body.render, Body.tokens, w.token_eq]
    rw [hChars, List.cons_append, List.cons_append, List.append_assoc, eventsFrom_bodyWord hFirst,
      eventsFrom_wordRest hTail (body.startsWithName_render hApart.1 rest),
      Body.eventsFrom_render body hDepth hApart.2, hPosition]
    rfl
  | .group inner body =>
    rw [Body.apart, Bool.and_eq_true] at hApart
    rw [Body.depth] at hDepth
    have hPosition : position + 1 + inner.render.length + 1 + body.render.length =
        position + ('(' :: (inner.render ++ ')' :: body.render)).length := by
      simp only [List.length_cons, List.length_append]
      omega
    have hRender : (Body.group inner body).render ++ ')' :: rest =
        '(' :: (inner.render ++ ')' :: (body.render ++ ')' :: rest)) := by
      simp [Body.render]
    rw [hRender, eventsFrom_openParen, Body.eventsFrom_render inner (by omega) hApart.1,
      eventsFrom_closeParen, Body.eventsFrom_render body (by omega) hApart.2, hPosition]
    simp [Body.tokens, Body.render, Event.punctuation]
  | .expansion e body =>
    rw [Body.apart, Bool.and_eq_true, Bool.and_eq_true] at hApart
    rw [Body.depth] at hDepth
    obtain ⟨⟨hExpansion, hFollows⟩, hBody⟩ := hApart
    have hDollar : outer.length + 1 < n := by
      have hPositive := e.depth_pos
      omega
    have hName : e.isName → startsWithName (body.render ++ ')' :: rest) = false := by
      intro hName
      refine body.startsWithName_render ?_ rest
      simpa [hName] using hFollows
    have hPosition : position + 1 + e.render.length + body.render.length =
        position + ('$' :: (e.render ++ body.render)).length := by
      simp only [List.length_cons, List.length_append]
      omega
    have hDepthExpansion : e.depth + (command :: outer).length ≤ n := by
      rw [List.length_cons]
      omega
    simp only [Body.render, Body.tokens]
    rw [List.cons_append, List.append_assoc, eventsFrom_bodyDollar hDollar,
      Expansion.eventsFrom_render e hDepthExpansion hExpansion hName,
      Body.eventsFrom_render body (by omega) hBody, hPosition]
    simp [Event.punctuation]

end

/-! ### Texts between expansions -/

theorem escape_cons (c : Char) (text : List Char) :
    escape (c :: text) = (if c ∈ special then ['\\', c] else [c]) ++ escape text := rfl

/-- The characters that a text is made of are collected, without the backslashes in front. -/
theorem eventsFrom_escape {limit : Option Nat} {position start : Nat} {read rest : List Char}
    (cs : List Char) :
    eventsFrom limit ⟨position, .quoted ⟨start, read, [], .nothing⟩⟩ (escape cs ++ rest) =
      eventsFrom limit
        ⟨position + (escape cs).length, .quoted ⟨start, read ++ cs, [], .nothing⟩⟩ rest := by
  induction cs generalizing position read with
  | nil =>
    rw [List.append_nil]
    rfl
  | cons c cs ih =>
    rw [escape_cons]
    by_cases hc : c ∈ special
    · have hPosition : position + (['\\', c] ++ escape cs).length =
          position + 1 + 1 + (escape cs).length := by
        simp only [List.length_append, List.length_cons, List.length_nil]
        omega
      rw [if_pos hc, hPosition, List.append_cons read c cs, ← ih]
      simp only [special, List.mem_cons, List.not_mem_nil, or_false] at hc
      obtain rfl | rfl | rfl | rfl := hc
      all_goals rfl
    · have hPosition : position + ([c] ++ escape cs).length =
          position + 1 + (escape cs).length := by
        simp only [List.length_append, List.length_cons, List.length_nil]
        omega
      rw [if_neg hc, hPosition, List.append_cons read c cs, ← ih]
      simp only [special, List.mem_cons, List.not_mem_nil, or_false, not_or] at hc
      obtain ⟨hDollar, -, hQuote, hBackslash⟩ := hc
      simp only [List.cons_append, List.nil_append, eventsFrom, Config.step, State.step,
        Quoted.step, Quoted.enter, Quoted.readText]
      rw [if_neg (mt beq_iff_eq.mp hQuote), if_neg (mt beq_iff_eq.mp hBackslash),
        if_neg (mt beq_iff_eq.mp hDollar)]
      rfl

theorem startsWithName_escape {text rest : List Char} {d : Char} (hd : isNameChar d = false)
    (h : startsWithName text = false) : startsWithName (escape text ++ d :: rest) = false := by
  cases text with
  | nil => exact hd
  | cons c text =>
    rw [escape_cons]
    by_cases hc : c ∈ special
    · rw [if_pos hc]
      rfl
    · rw [if_neg hc]
      exact h

theorem startsWithName_render {t : Template} (h : startsWithName t.firstText = false)
    (rest : List Char) : startsWithName (t.render ++ '"' :: rest) = false := by
  cases t with
  | last text => exact startsWithName_escape rfl h
  | expansion text e t =>
    rw [render, List.append_assoc]
    exact startsWithName_escape rfl h

/-- **A scan of a template finds its tokens.** -/
theorem eventsFrom_render {position start : Nat} {rest : List Char} (t : Template)
    (hDepth : t.depth ≤ n) (hApart : t.apart) :
    eventsFrom (some n) ⟨position, .quoted ⟨start, ([] : List Char), [], .nothing⟩⟩
        (t.render ++ '"' :: rest) =
      t.tokens.map .token ++ .punctuation .doubleQuote :: eventsFrom (some n)
        ⟨position + t.render.length + 1, .plain (.nothing : Plain (List Char))⟩ rest := by
  induction t generalizing position with
  | last text =>
    rw [render, eventsFrom_escape, tokens]
    cases text with
    | nil => rfl
    | cons c text => rfl
  | expansion text e t ih =>
    rw [apart, Bool.and_eq_true, Bool.and_eq_true] at hApart
    rw [depth] at hDepth
    obtain ⟨⟨hExpansion, hFollows⟩, hTail⟩ := hApart
    have hPositive : 0 < n := by
      have hDepthPos := e.depth_pos
      omega
    have hName : e.isName → startsWithName (t.render ++ '"' :: rest) = false := by
      intro hName
      refine startsWithName_render ?_ rest
      simpa [hName] using hFollows
    have hDepthExpansion : e.depth + ([] : List Command).length ≤ n := by
      rw [List.length_nil]
      omega
    have hPosition : position + (escape text).length + 1 + e.render.length + t.render.length =
        position + (escape text ++ '$' :: (e.render ++ t.render)).length := by
      simp only [List.length_append, List.length_cons]
      omega
    have hRender : (expansion text e t).render ++ '"' :: rest =
        escape text ++ '$' :: (e.render ++ (t.render ++ '"' :: rest)) := by
      simp [render]
    rw [hRender, eventsFrom_escape, List.nil_append, eventsFrom_textDollar hPositive,
      Expansion.eventsFrom_render e hDepthExpansion hExpansion hName,
      ih (by omega) hTail, hPosition]
    simp [tokens, render, Event.punctuation, Event.segment]

end Template

/-- **Tokenizing undoes rendering.**  A template in double quotes, whose
expansions nest at most `Scan.maxExpansionDepth` levels deep and whose names end
where they seem to, is tokenized into two double quotes with the tokens of the
template between them, and nothing is reported. -/
theorem tokenize_quoted (t : Template) (hApart : t.apart)
    (hDepth : t.depth ≤ Scan.maxExpansionDepth) :
    tokenize t.quoted =
      ⟨.punctuation .doubleQuote :: (t.tokens ++ [.punctuation .doubleQuote]), []⟩ := by
  have hEvents : events t.quoted = (Token.punctuation .doubleQuote ::
      (t.tokens ++ [.punctuation .doubleQuote])).map .token := by
    rw [events_eq, Template.quoted, String.toList_ofList]
    show Scan.Event.punctuation .doubleQuote :: Scan.eventsFrom (some Scan.maxExpansionDepth)
      ⟨1, .quoted ⟨0, [], [], .nothing⟩⟩ (t.render ++ ['"']) = _
    rw [t.eventsFrom_render hDepth hApart]
    simp only [List.map_cons, List.map_append, List.map_nil]
    rfl
  have hTokens : (tokenize t.quoted).tokens =
      .punctuation .doubleQuote :: (t.tokens ++ [.punctuation .doubleQuote]) := by
    rw [tokenize_tokens, hEvents, List.filterMap_map]
    exact List.filterMap_some
  have hDiagnostics : (tokenize t.quoted).diagnostics = [] := by
    rw [tokenize_diagnostics, hEvents, List.filterMap_map, List.filterMap_eq_nil_iff]
    exact fun t _ => rfl
  rw [← hTokens, ← hDiagnostics]

/-- Every kind of expansion, with a quote and an empty text between them. -/
def Template.sample : Template :=
  let f1 : Word := ⟨['f', '1'], by decide, List.all_eq_true.mp rfl⟩
  let x : Name := ⟨⟨['x'], by decide, List.all_eq_true.mp rfl⟩, by rintro _ ⟨⟩; decide⟩
  let keyword : Name := ⟨⟨['i', 'f'], by decide, List.all_eq_true.mp rfl⟩, by rintro _ ⟨⟩; decide⟩
  let body : Body := .word f1 (.group (.expansion (.name x) (.group .done .done))
    (.expansion (.parameter ['p', ':', '-', 'q'] ⟨by decide, by rintro _ ⟨⟩; decide⟩) .done))
  .expansion ['a', '"'] (.command body) (.expansion [] (.name keyword) (.last ['.', ' ']))

theorem tokenize_quoted_sample :
    Template.sample.apart ∧ Template.sample.depth ≤ Scan.maxExpansionDepth ∧
      Template.sample.quoted = "\"a\\\"$(f1($x())$\x7bp:-q\x7d)$if. \"" ∧
      tokenize Template.sample.quoted =
        ⟨[.punctuation .doubleQuote, ⟨.segment, "a\""⟩, .punctuation .dollar,
          .punctuation .leftParen, ⟨.name, "f1"⟩, .punctuation .leftParen, .punctuation .dollar,
          ⟨.name, "x"⟩, .punctuation .leftParen, .punctuation .rightParen,
          .punctuation .rightParen, .punctuation .dollar, .punctuation .leftBrace,
          ⟨.segment, "p"⟩, .punctuation .colon, .punctuation .dash, ⟨.segment, "q"⟩,
          .punctuation .rightBrace, .punctuation .rightParen, ⟨.segment, ""⟩,
          .punctuation .dollar, ⟨.reserved .kwIf, "if"⟩, ⟨.segment, ". "⟩,
          .punctuation .doubleQuote], []⟩ := by
  refine ⟨by decide, by decide, by decide, ?_⟩
  rw [tokenize_quoted Template.sample (by decide) (by decide)]
  decide

end ShellLexer
