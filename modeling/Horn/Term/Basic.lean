/-! # Terms

    The language of the engine.  A *term* is a variable or a name applied to
    arguments; a *compound* is a term that is not a variable, and a compound
    without arguments is a *constant*.  Goals, clause heads and the values of
    variables are compounds.  The names are drawn from any type `A`.

    Equality of terms is decidable by structure; equality that looks through
    bound variables belongs to the store. -/

namespace Horn

universe u

/-- A logic variable, known by its number alone. -/
@[ext] structure Var where
  id : Nat
  deriving DecidableEq, Repr, Inhabited

/-- A variable, or a name applied to arguments. -/
inductive Term (A : Type u) where
  | var (x : Var)
  | app (name : A) (args : List (Term A))
  deriving Repr, Inhabited

/-- A name applied to arguments. -/
structure Compound (A : Type u) where
  name : A
  args : List (Term A)
  deriving Repr

/-- A name and a number of arguments: the key by which clauses are found. -/
structure Signature (A : Type u) where
  name : A
  arity : Nat
  deriving DecidableEq, Repr

variable {A : Type u}

namespace Compound

/-- The compound without arguments. -/
def const (a : A) : Compound A := ⟨a, []⟩

/-- The compound as a term. -/
def toTerm (c : Compound A) : Term A := .app c.name c.args

/-- The number of arguments. -/
def arity (c : Compound A) : Nat := c.args.length

/-- The name together with the number of arguments. -/
def signature (c : Compound A) : Signature A := ⟨c.name, c.arity⟩

end Compound

namespace Term

/-- The compound that the term is, unless it is a variable. -/
def compound? : Term A → Option (Compound A)
  | .var _ => none
  | .app f as => some ⟨f, as⟩

@[simp] theorem compound?_toTerm (c : Compound A) : c.toTerm.compound? = some c := rfl

/-! ## Structural equality -/

section DecidableEq

variable [DecidableEq A]

mutual

/-- Decides whether two terms are built alike. -/
def decEq : (t u : Term A) → Decidable (t = u)
  | .var x, .var y =>
    if h : x = y then isTrue (by rw [h]) else isFalse (fun e => h (Term.var.inj e))
  | .var _, .app _ _ => isFalse (fun e => nomatch e)
  | .app _ _, .var _ => isFalse (fun e => nomatch e)
  | .app f as, .app g bs =>
    if hf : f = g then
      match decEqList as bs with
      | isTrue ha => isTrue (by rw [hf, ha])
      | isFalse ha => isFalse (fun e => ha (Term.app.inj e).2)
    else isFalse (fun e => hf (Term.app.inj e).1)

/-- Decides whether two argument lists are built alike. -/
def decEqList : (ts us : List (Term A)) → Decidable (ts = us)
  | [], [] => isTrue rfl
  | [], _ :: _ => isFalse (fun e => nomatch e)
  | _ :: _, [] => isFalse (fun e => nomatch e)
  | t :: ts, u :: us =>
    match decEq t u with
    | isFalse h => isFalse (fun e => h (List.cons.inj e).1)
    | isTrue h =>
      match decEqList ts us with
      | isTrue hs => isTrue (by rw [h, hs])
      | isFalse hs => isFalse (fun e => hs (List.cons.inj e).2)

end

instance : DecidableEq (Term A) := decEq

end DecidableEq

end Term

instance [DecidableEq A] : DecidableEq (Compound A) := fun c d =>
  decidable_of_iff (c.name = d.name ∧ c.args = d.args) (by cases c; cases d; simp)

end Horn
