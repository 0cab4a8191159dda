import Horn.Unify
import Horn.Text.Record
import Horn.Text.Term

/-! # Clashes as text

    What is said of a failed unification: the kind of clash, a message, and the
    clash as a record.  Where all values are constants a clash of names is one
    of values, and is worded so. -/

namespace Horn

universe u

/-- What a clash of two names is taken for. -/
inductive Wording where
  /-- Two values differ: the store holds constants only. -/
  | values
  /-- Two names of terms differ. -/
  | names
  deriving DecidableEq, Repr

namespace Clash

variable {A : Type u} [Symbol A]

/-- The kind of clash. -/
def kind (wording : Wording) : Clash A → String
  | .names _ _ =>
    match wording with
    | .values => "Conflict"
    | .names => "NameMismatch"
  | .arities _ _ => "ArityMismatch"
  | .occurs _ _ => "Occurs"

/-- The texts of the two things that clash. -/
def sides : Clash A → String × String
  | .names f g => (Symbol.quoted f, Symbol.quoted g)
  | .arities m n => (toString m, toString n)
  | .occurs x value => (x.text, value.text .quoted)

/-- What went wrong, as a sentence. -/
def message (wording : Wording) (e : Clash A) : String :=
  let (left, right) := e.sides
  "Unification error: " ++
    match e, wording with
    | .names _ _, .values => "conflicting values " ++ left ++ " and " ++ right
    | .names _ _, .names => "differing names " ++ left ++ " and " ++ right
    | .arities _ _, _ => "differing arity " ++ left ++ " and " ++ right
    | .occurs _ _, _ => left ++ " occurs in " ++ right

/-- The clash as a record of its kind and sides.  Texts in it are quoted. -/
def record (wording : Wording) (e : Clash A) : String :=
  let (left, right) := e.sides
  let text (s : String) := Text.quoted '"' s.toList
  Text.record (e.kind wording) <|
    match e with
    | .names _ _ => [("left", text left), ("right", text right)]
    | .arities _ _ => [("left", left), ("right", right)]
    | .occurs _ _ => [("variable", text left), ("value", text right)]

end Clash

end Horn
