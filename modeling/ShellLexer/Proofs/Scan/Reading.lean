import ShellLexer.Scan.Run
import Mathlib.Data.List.Induction

/-!
# Reading part of a text

`eventsFrom` reads a text to its end.  This file stops a scan in the middle:
`Config.after` is the configuration behind some characters and `Config.found`
the list of the events found among them.

* `eventsFrom_append`: the events of a text are those found in its first part
  and those of a scan that goes on with the second part from there.
* `after_found_induction`: what holds at the start and is kept by every step
  holds of every prefix of a text, together with its events.
-/

namespace ShellLexer.Scan

variable {β : Type} [TextBuffer β]

namespace Config

/-- The configuration behind the characters `cs`. -/
def after (limit : Option Nat) (config : Config β) : List Char → Config β
  | [] => config
  | c :: cs => (config.step limit c).1.after limit cs

/-- The events found while the characters `cs` are read. -/
def found (limit : Option Nat) (config : Config β) : List Char → List Event
  | [] => []
  | c :: cs => (config.step limit c).2 ++ (config.step limit c).1.found limit cs

variable {limit : Option Nat}

@[simp] theorem after_nil (config : Config β) : config.after limit [] = config := rfl

@[simp] theorem found_nil (config : Config β) : config.found limit [] = [] := rfl

theorem after_cons (config : Config β) (c : Char) (cs : List Char) :
    config.after limit (c :: cs) = (config.step limit c).1.after limit cs := rfl

theorem found_cons (config : Config β) (c : Char) (cs : List Char) :
    config.found limit (c :: cs) =
      (config.step limit c).2 ++ (config.step limit c).1.found limit cs := rfl

theorem after_append (config : Config β) (cs ds : List Char) :
    config.after limit (cs ++ ds) = (config.after limit cs).after limit ds := by
  induction cs generalizing config with
  | nil => rfl
  | cons c cs ih => rw [List.cons_append, after_cons, after_cons, ih]

theorem found_append (config : Config β) (cs ds : List Char) :
    config.found limit (cs ++ ds) =
      config.found limit cs ++ (config.after limit cs).found limit ds := by
  induction cs generalizing config with
  | nil => rfl
  | cons c cs ih => rw [List.cons_append, found_cons, found_cons, after_cons, ih, List.append_assoc]

@[simp] theorem step_position (config : Config β) (c : Char) :
    (config.step limit c).1.position = config.position + 1 := rfl

theorem after_position (config : Config β) (cs : List Char) :
    (config.after limit cs).position = config.position + cs.length := by
  induction cs generalizing config with
  | nil => rfl
  | cons c cs ih =>
    rw [after_cons, ih, step_position, List.length_cons]
    omega

/-- **What every step keeps holds of every prefix.**  `P` speaks of the
characters read so far, of the configuration behind them and of the events
found among them. -/
theorem after_found_induction {P : List Char → Config β → List Event → Prop}
    {config : Config β} (hStart : P [] config [])
    (hStep : ∀ {cs : List Char} {now : Config β} {es : List Event} (c : Char), P cs now es →
      P (cs ++ [c]) (now.step limit c).1 (es ++ (now.step limit c).2)) (cs : List Char) :
    P cs (config.after limit cs) (config.found limit cs) := by
  induction cs using List.reverseRecOn with
  | nil => exact hStart
  | append_singleton cs c ih =>
    rw [after_append, found_append, after_cons, found_cons, after_nil, found_nil, List.append_nil]
    exact hStep c ih

end Config

variable (limit : Option Nat)

/-- A scan goes on from the middle of a text as from its start. -/
theorem eventsFrom_append (config : Config β) (cs ds : List Char) :
    eventsFrom limit config (cs ++ ds) =
      config.found limit cs ++ eventsFrom limit (config.after limit cs) ds := by
  induction cs generalizing config with
  | nil => rfl
  | cons c cs ih =>
    rw [List.cons_append, eventsFrom, ih, Config.found_cons, Config.after_cons, List.append_assoc]

theorem eventsFrom_eq_found_append_finish (config : Config β) (cs : List Char) :
    eventsFrom limit config cs =
      config.found limit cs ++ (config.after limit cs).state.finish := by
  have h := eventsFrom_append limit config cs []
  rwa [List.append_nil, eventsFrom] at h

end ShellLexer.Scan
