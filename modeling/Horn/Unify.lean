import Horn.Store.Walk
import Horn.Trail

/-! # Unification

    Making two terms denote the same by moving variables between classes.

    * Two compounds must agree in name and number of arguments; then their
      arguments are unified from left to right.
    * A variable and a compound: an unbound class takes the compound as its
      value, a bound one unifies its value with it (`resolve`).
    * Two variables: their classes are merged (`bind`).  If both hold values,
      these are unified first and the left one stays.

    Every change is recorded on the trail of the session.  `resolve` and `bind`
    take back what they did when they fail; a failing pair of arguments leaves
    in place what the pairs before it did.

    With the occurs check on, a class is not given a value in which it is met.
    Without it the values may run in circles and unification may go on for
    ever, so every function takes a number of levels it may descend. -/

namespace Horn

universe u

variable {A : Type u}

/-- Why two terms could not be unified. -/
inductive Clash (A : Type u) where
  /-- Two compounds have different names. -/
  | names (left right : A)
  /-- Two compounds of one name have different numbers of arguments. -/
  | arities (left right : Nat)
  /-- The class of an unbound variable is met in the value it was to take, which
      is given as it was then, fully resolved. -/
  | occurs (x : Var) (value : Compound A)
  deriving DecidableEq, Repr

/-- How an attempt at unification ends, and the session it leaves. -/
inductive Outcome (A : Type u) where
  | success (w : Session A)
  | failure (reason : Clash A) (w : Session A)
  /-- The permitted number of levels was too small. -/
  | cutOff

/-- A way to unify two terms in a session. -/
abbrev Unifier (A : Type u) := Term A → Term A → Session A → Outcome A

namespace Outcome

/-- Goes on from a success. -/
def andThen (o : Outcome A) (next : Session A → Outcome A) : Outcome A :=
  match o with
  | success w => next w
  | failure e w => failure e w
  | cutOff => cutOff

/-- Takes back everything since `mark` if the attempt failed. -/
def undoingTo (o : Outcome A) (mark : Nat) : Outcome A :=
  match o with
  | failure e w => failure e (w.undoTo mark)
  | o => o

end Outcome

/-- Unifies pairs of terms in order, up to the first failure. -/
def unifyEach (unify : Unifier A) : List (Term A × Term A) → Session A → Outcome A
  | [], w => .success w
  | (t, u) :: rest, w => (unify t u w).andThen (unifyEach unify rest)

namespace Session

/-- Goes on with `next` unless the occurs check is on and the class of `x` is met
    in `value`. -/
def checkingOccurs (w : Session A) (n : Nat) (x : Var) (value : Compound A)
    (next : Session A → Outcome A) : Outcome A :=
  if w.trail.occursCheck then
    match w.store.contains x n value.toTerm with
    | none => .cutOff
    | some false => next w
    | some true =>
      match w.store.resolvedCompound n value with
      | none => .cutOff
      | some value => .failure (.occurs x value) w
  else next w

/-- Gives the class of `x` the value `c`, by `unify` if it holds one already. -/
def resolveBy (unify : Unifier A) (n : Nat) (x : Var) (c : Compound A) (w : Session A) :
    Outcome A :=
  match w.store.value x with
  | some d =>
    let mark := w.mark
    (unify d.toTerm c.toTerm w).undoingTo mark
  | none => w.checkingOccurs n x c fun w => .success (w.gather [w.store.classOf x] (some c))

/-- Merges the classes of `x` and `y`, unless they are one, into a class that
    holds `value`. -/
def merge (x y : Var) (value : Option (Compound A)) (w : Session A) : Session A :=
  if w.store.aliased x y then w
  else w.gather [w.store.classOf x, w.store.classOf y] value

/-- Makes `x` and `y` belong to one class, unifying their values by `unify` if
    both have one. -/
def bindBy (unify : Unifier A) (n : Nat) (x y : Var) (w : Session A) : Outcome A :=
  if w.store.aliased x y then .success w
  else match w.store.value x, w.store.value y with
    | none, none => .success (w.merge x y none)
    | some c, none => w.checkingOccurs n y c fun w => .success (w.merge x y (some c))
    | none, some c => w.checkingOccurs n x c fun w => .success (w.merge x y (some c))
    | some c, some d =>
      let mark := w.mark
      ((unify c.toTerm d.toTerm w).undoingTo mark).andThen fun w =>
        .success (w.merge x y (some c))

end Session

variable [DecidableEq A]

/-- Unifies two terms, descending at most `n` levels. -/
def unify : Nat → Unifier A
  | 0, _, _, _ => .cutOff
  | n + 1, .var x, .var y, w => w.bindBy (unify n) n x y
  | n + 1, .var x, .app f as, w => w.resolveBy (unify n) n x ⟨f, as⟩
  | n + 1, .app f as, .var x, w => w.resolveBy (unify n) n x ⟨f, as⟩
  | n + 1, .app f as, .app g bs, w =>
    if f ≠ g then .failure (.names f g) w
    else if as.length ≠ bs.length then .failure (.arities as.length bs.length) w
    else unifyEach (unify n) (as.zip bs) w

namespace Session

/-- Gives the class of `x` the value `c`: an unbound class takes it, a bound one
    unifies its value with it. -/
def resolve (n : Nat) (x : Var) (c : Compound A) (w : Session A) : Outcome A :=
  w.resolveBy (unify n) n x c

/-- Makes `x` and `y` belong to one class. -/
def bind (n : Nat) (x y : Var) (w : Session A) : Outcome A := w.bindBy (unify n) n x y

end Session

end Horn
