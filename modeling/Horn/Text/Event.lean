import Horn.Search.Event
import Horn.Text.Clash
import Horn.Text.Program

/-! # Events as text

    Each event has a level and a message, in which terms are written as they
    stand in the store of that moment. -/

namespace Horn

universe u

/-- How much an event matters. -/
inductive Level where
  | trace
  | debug
  | warn
  deriving DecidableEq, Repr

/-- The name of a level. -/
def Level.text : Level → String
  | .trace => "TRACE"
  | .debug => "DEBUG"
  | .warn => "WARN"

/-- The name of a verdict. -/
def Verdict.text : Verdict → String
  | .failed => "Failed"
  | .exhausted => "Exhausted"
  | .stopped => "Stopped"

/-- The end of an enumeration as a record. -/
def Ending.record : Ending → String
  | .exhausted k => Text.record "Exhausted" [("matches", toString k)]
  | .stopped k => Text.record "Stopped" [("matches", toString k)]

namespace Event

variable {A : Type u} [Symbol A]

/-- Giving up a goal is a warning; the bounds of a search are reported, and its
    steps are traced. -/
def level : Event A → Level
  | .pruned _ _ => .warn
  | .opened _ | .closed _ _ => .debug
  | .added _ | .attempt _ _ | .unified _ | .refuted _ | .exhausted _ | .stopped _ => .trace

/-- What an event says, in the store `s` of its moment; `none` if looking through
    the variables in it takes more than `n` levels. -/
def message (s : Store A) (n : Nat) : Event A → Option String
  | .added f => some ("adding clause for " ++ f.record)
  | .opened goals => some ("enumerating matches for " ++ toString goals ++ " goal(s)")
  | .attempt goal head =>
    match s.compoundText n .quoted goal, s.compoundText n .quoted head with
    | some goal, some head => some ("attempt " ++ goal ++ " against " ++ head)
    | _, _ => none
  | .unified goal => (s.compoundText n .quoted goal).map ("unified " ++ ·)
  | .refuted reason => some ("backtracking: " ++ reason.message .names)
  | .exhausted depth => some ("exhausted alternatives at depth " ++ toString depth)
  | .stopped depth => some ("stopped at depth " ++ toString depth)
  | .pruned goal depth =>
    (s.compoundText n .quoted goal).map fun goal =>
      "pruning " ++ goal ++ ": depth limit " ++ toString depth ++ " exceeded"
  | .closed verdict found =>
    some ("search " ++ verdict.text ++ " after " ++ toString found ++ " match(es)")

/-- An event's level and message on one line. -/
def line (s : Store A) (n : Nat) (e : Event A) : Option String :=
  (e.message s n).map (e.level.text ++ " " ++ ·)

end Event

end Horn
