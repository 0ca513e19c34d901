import ShellLexer.Scan.Inside

/-!
# Scanning a text

A scan is a step for each character and one more for the end of the text.
`events` is the list of everything it finds.  `run` hands each event to a
`record` function as it is found, together with a value that the scan passes on
and never looks at, and `run_eq_foldl` says that this is the same as recording
the list of events from left to right.
-/

namespace ShellLexer.Scan

variable {α β : Type} [TextBuffer β]

/-- How deep expansions nest before a `$` is read on its own. -/
def maxExpansionDepth : Nat := 200

/-- Reads one character, wherever the scan stands. -/
def State.step (limit : Option Nat) (position : Nat) (c : Char) :
    State β → State β × List Event
  | .plain p => p.step position c
  | .quoted q => q.step limit position c

def State.finish : State β → List Event
  | .plain p => p.finish
  | .quoted q => q.finish

def Config.step (limit : Option Nat) (config : Config β) (c : Char) : Config β × List Event :=
  let ⟨position, state⟩ := config
  let (state, events) := state.step limit position c
  (⟨position + 1, state⟩, events)

/-- Reads one character and records what was found. -/
def advance (limit : Option Nat) (record : α → Event → α) (now : Config β × α) (c : Char) :
    Config β × α :=
  let (config, a) := now
  let (config, events) := config.step limit c
  (config, events.foldl record a)

/-- Reads the characters and then the end of the text, from any point of a scan. -/
def runFrom (limit : Option Nat) (record : α → Event → α) (config : Config β) (a : α)
    (cs : List Char) : α :=
  let (config, a) := cs.foldl (advance limit record) (config, a)
  config.state.finish.foldl record a

/-- Scans a text from its start, with buffers of type `β`. -/
def run (β : Type) [TextBuffer β] (limit : Option Nat) (record : α → Event → α) (a : α)
    (text : String) : α :=
  runFrom limit record (Config.initial : Config β) a text.toList

/-- Everything found from any point of a scan on, in order. -/
def eventsFrom (limit : Option Nat) (config : Config β) : List Char → List Event
  | [] => config.state.finish
  | c :: cs => (config.step limit c).2 ++ eventsFrom limit (config.step limit c).1 cs

/-- Everything found in a text, in order. -/
def events (β : Type) [TextBuffer β] (limit : Option Nat) (text : String) : List Event :=
  eventsFrom limit (Config.initial : Config β) text.toList

theorem runFrom_eq_foldl (limit : Option Nat) (record : α → Event → α) (config : Config β) (a : α)
    (cs : List Char) :
    runFrom limit record config a cs = (eventsFrom limit config cs).foldl record a := by
  induction cs generalizing config a with
  | nil => rfl
  | cons c cs ih =>
    rw [eventsFrom, List.foldl_append, ← ih]
    rfl

/-- Recording as the scan goes is recording the list of events from left to right. -/
theorem run_eq_foldl (limit : Option Nat) (record : α → Event → α) (a : α) (text : String) :
    run β limit record a text = (events β limit text).foldl record a :=
  runFrom_eq_foldl limit record Config.initial a text.toList

end ShellLexer.Scan
