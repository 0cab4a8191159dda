import Horn.Renaming

/-! # Clauses

    A clause says that its head holds whenever every goal of its body does.  A
    clause with an empty body is a *fact*, any other a *rule*.  The search works
    on copies, so the variables of a stored clause are never bound by it. -/

namespace Horn

universe u

/-- `head` holds whenever every goal of `body` does. -/
structure Clause (A : Type u) where
  head : Compound A
  body : List (Compound A)
  deriving Repr

namespace Clause

variable {A : Type u}

/-- The clause without conditions. -/
def fact (head : Compound A) : Clause A := ⟨head, []⟩

/-- Whether the body is empty. -/
def isFact (c : Clause A) : Bool := c.body.isEmpty

/-- The signature of the head. -/
def signature (c : Clause A) : Signature A := c.head.signature

/-- Copies head and body through `r`. -/
def copy (c : Clause A) (n : Nat) (r : Renaming) (s : Store A) :
    Option (Clause A × Renaming × Store A) :=
  match s.copyCompound n c.head r with
  | none => none
  | some (head, r, s) =>
    match s.copyCompounds n c.body r with
    | none => none
    | some (body, r, s) => some (⟨head, body⟩, r, s)

/-- A copy whose variables are all new. -/
def instantiate (c : Clause A) (n : Nat) (s : Store A) : Option (Clause A × Store A) :=
  (c.copy n .empty s).map fun (c, _, s) => (c, s)

end Clause

end Horn
