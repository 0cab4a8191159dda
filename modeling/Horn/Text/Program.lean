import Horn.Program
import Horn.Trail
import Horn.Text.Record
import Horn.Text.Term

/-! # Clauses and programs as text

    A clause is written `head :- goal, goal.` and a fact `head.`, looking through
    bound variables.  A program is written for reading, one clause a line, or as
    a record of its groups and options.  Trails and renamings are described by
    their sizes. -/

namespace Horn

universe u

/-- The options as a record. -/
def Options.record (o : Options) : String :=
  Text.record "SolverOptions"
    [("occurs_check", Text.bool o.occursCheck),
     ("max_depth", Text.option (o.maxDepth.map toString))]

/-- A trail, by its length and its occurs check. -/
def Trail.record (t : Trail) : String :=
  Text.record "Trail"
    [("len", toString t.length), ("occurs_check", Text.bool t.occursCheck)]

/-- A renaming, by its size. -/
def Renaming.record (r : Renaming) : String :=
  Text.record "CopyContext" [("renamed", toString r.size)]

variable {A : Type u} [Symbol A]

/-- A signature as a record. -/
def Signature.record (f : Signature A) : String :=
  Text.record "Functor" [("name", Symbol.quoted f.name), ("arity", toString f.arity)]

namespace Store

/-- A clause as it stands in the store. -/
def clauseText (s : Store A) (n : Nat) (style : Style) (c : Clause A) : Option String :=
  match s.compoundText n style c.head, c.body.mapM (s.compoundText n style) with
  | some head, some [] => some (head ++ ".")
  | some head, some body => some (head ++ " :- " ++ ", ".intercalate body ++ ".")
  | _, _ => none

/-- A program as it stands in the store, one clause a line. -/
def programText (s : Store A) (n : Nat) (p : Program A) : Option String :=
  (p.clauses.mapM (s.clauseText n .plain)).map fun lines =>
    String.join (lines.map (· ++ "\n"))

/-- A program as it stands in the store, as a record of its groups and options. -/
def programRecord (s : Store A) (n : Nat) (p : Program A) : Option String :=
  let group (g : Signature A × List (Clause A)) : Option (String × String) :=
    (g.2.mapM (s.clauseText n .quoted)).map fun texts => (g.1.record, Text.list texts)
  (p.groups.mapM group).map fun groups =>
    Text.record "System" [("clauses", Text.dictionary groups), ("options", p.options.record)]

end Store

end Horn
