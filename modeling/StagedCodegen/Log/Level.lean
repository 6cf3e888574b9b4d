import StagedCodegen.Text.Numeral

/-!
# Levels of the log

How important an event is, and up to which level events pass. A threshold is spelled as a word, in
letters of either case, or as a number.

Main statement: `Threshold.passes_of_le`, a higher threshold lets through all that a lower one does.
-/

namespace StagedCodegen.Log

/-- How important an event is, the most important first. -/
inductive Level where
  /-- Something failed. -/
  | error
  /-- Something to look at. -/
  | warn
  /-- Something done. -/
  | info
  /-- What only a developer wants to know. -/
  | debug
  /-- What hardly anybody wants to know. -/
  | trace
deriving DecidableEq, Repr

/-- The number of a level. -/
def Level.rank : Level → Nat
  | .error => 1
  | .warn => 2
  | .info => 3
  | .debug => 4
  | .trace => 5

/-- The word for a level. -/
def Level.text : Level → String
  | .error => "ERROR"
  | .warn => "WARN"
  | .info => "INFO"
  | .debug => "DEBUG"
  | .trace => "TRACE"

/-- Up to which level events pass. -/
inductive Threshold where
  /-- None pass. -/
  | off
  /-- Those of this level and of more important ones pass. -/
  | upTo (l : Level)
deriving DecidableEq, Repr

namespace Threshold

/-- The number of the least important level that passes. -/
def rank : Threshold → Nat
  | off => 0
  | upTo l => l.rank

/-- Events of a level pass. -/
def passes (t : Threshold) (l : Level) : Bool := l.rank ≤ t.rank

/-- A higher threshold lets through all that a lower one does. -/
theorem passes_of_le {s t : Threshold} (h : s.rank ≤ t.rank) {l : Level} (hs : s.passes l) :
    t.passes l := by
  simp only [passes, decide_eq_true_eq] at *
  omega

/-- The words for thresholds, in small letters. -/
def words : List (String × Threshold) :=
  [("off", off), ("error", upTo .error), ("warn", upTo .warn), ("info", upTo .info),
    ("debug", upTo .debug), ("trace", upTo .trace), ("", upTo .error)]

/-- The threshold of a number. -/
def ofNat? : Nat → Option Threshold
  | 0 => some off
  | 1 => some (upTo .error)
  | 2 => some (upTo .warn)
  | 3 => some (upTo .info)
  | 4 => some (upTo .debug)
  | 5 => some (upTo .trace)
  | _ => none

theorem ofNat?_rank (t : Threshold) : ofNat? t.rank = some t := by
  rcases t with _ | _ | _ <;> rfl

/-- The threshold that a word or a number spells. A number may have a plus sign. -/
def ofChars? (cs : List Char) : Option Threshold :=
  let digits := if cs.head? == some '+' then cs.drop 1 else cs
  match (Text.Numeral.natural? digits).bind ofNat? with
  | some t => some t
  | none => words.lookup (String.ofList (cs.map Char.toLower))

end Threshold

end StagedCodegen.Log
