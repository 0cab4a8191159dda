import Horn.Store.Basic

/-! # Walking through variables

    What a term denotes in a store: every bound variable stands for its value,
    every unbound one for itself.  A value may mention variables in turn, and
    without the occurs check a class can be reached from its own value, so each
    walk takes a number of levels it may descend and answers `none` when that
    number is too small.  A larger number never changes an answer.

    * `resolved`: the term with every bound variable replaced by its value.
    * `same`: whether two terms denote the same.
    * `contains`: whether a variable's class is met on the way.
    * `ground`: whether no unbound variable is met.
    * `freeVars`: the unbound variables, one for each class. -/

namespace Horn.Store

universe u

variable {A : Type u}

/-- The term with every bound variable replaced by its value, all the way down. -/
def resolved (s : Store A) : Nat → Term A → Option (Term A)
  | 0, _ => none
  | n + 1, .app f as => (as.mapM (s.resolved n)).map (.app f)
  | n + 1, .var x =>
    match s.value x with
    | none => some (.var x)
    | some c => (c.args.mapM (s.resolved n)).map (.app c.name)

/-- The compound with every bound variable in it replaced by its value. -/
def resolvedCompound (s : Store A) (n : Nat) (c : Compound A) : Option (Compound A) :=
  (c.args.mapM (s.resolved n)).map (⟨c.name, ·⟩)

/-- Whether two compounds, if there are two, agree in name and number of
    arguments and `eq` holds of the arguments one by one. -/
def alike [DecidableEq A] (eq : Term A → Term A → Option Bool) :
    Option (Compound A) → Option (Compound A) → Option Bool
  | some c, some d =>
    if c.signature = d.signature then (c.args.zip d.args).allM (fun p => eq p.1 p.2)
    else some false
  | _, _ => some false

/-- Whether two terms denote the same: variables of one class do, and so do
    compounds of the same name whose arguments denote the same one by one.  Two
    unbound variables of different classes do not. -/
def same [DecidableEq A] (s : Store A) : Nat → Term A → Term A → Option Bool
  | 0, _, _ => none
  | n + 1, .var x, .var y =>
    if s.aliased x y then some true else alike (s.same n) (s.value x) (s.value y)
  | n + 1, t, u => alike (s.same n) (s.view t) (s.view u)

/-- Whether the class of `x` is met in the term or in the values of variables
    met in it. -/
def contains (s : Store A) (x : Var) : Nat → Term A → Option Bool
  | 0, _ => none
  | n + 1, .app _ as => as.anyM (s.contains x n)
  | n + 1, .var y =>
    if s.aliased y x then some true
    else match s.value y with
      | none => some false
      | some c => c.args.anyM (s.contains x n)

/-- Whether no unbound variable is met. -/
def ground (s : Store A) : Nat → Term A → Option Bool
  | 0, _ => none
  | n + 1, t =>
    match s.view t with
    | none => some false
    | some c => c.args.allM (s.ground n)

/-- Adds the unbound variables of the term to `found`, from left to right; of
    each class only the first one met is kept. -/
def collect (s : Store A) : Nat → List Var → Term A → Option (List Var)
  | 0, _, _ => none
  | n + 1, found, .app _ as => as.foldlM (s.collect n) found
  | n + 1, found, .var x =>
    match s.value x with
    | none => some (if found.any (s.aliased · x) then found else found ++ [x])
    | some c => c.args.foldlM (s.collect n) found

/-- The unbound variables of the term, one for each class, in the order in which
    they are first met. -/
def freeVars (s : Store A) (n : Nat) (t : Term A) : Option (List Var) :=
  s.collect n [] t

end Horn.Store
