import Horn.Search.Basic

/-! # The search as a recursion

    What a depth-first search does, told without trails and choice points.  A store
    is a value that is handed from call to call: each clause of a goal is tried in
    the store the goal was met in, whatever has been tried before.

    To resolve a goal with a clause is to unify it with the head of an instance of the
    clause, whose body then takes its place.  The instance may be taken as a whole first
    (`instanceFirst`), or its body may be left for when it is needed (`headFirst`); the
    recursion is told which.

    What the one who asked answers at a match is given in advance, as a function of
    the number of matches reported before.  The outcome is the list of stores in
    which matches were reported, and whether the last answer was to stop. -/

namespace Horn

universe u

namespace Search

variable {A : Type u}

/-- The stores in which matches were reported, in order, and whether the search was
    stopped at the last of them. -/
structure Report (A : Type u) where
  halted : Bool
  views : List (Store A)

/-- The report of a search without matches. -/
def Report.none : Report A := ⟨false, []⟩

/-- One report after another. -/
def Report.before (r r' : Report A) : Report A := ⟨r'.halted, r.views ++ r'.views⟩

/-- Goes on with `next`, which is told the number of matches before it, unless the
    search has been stopped. -/
def goOn (o : Option (Report A)) (next : Nat → Option (Report A)) (found : Nat) :
    Option (Report A) :=
  match o with
  | .none => .none
  | some r => if r.halted then some r else (next (found + r.views.length)).map r.before

/-- Tries clauses in order, until the search is stopped. -/
def eachClause (attempt : Clause A → Nat → Option (Report A)) :
    List (Clause A) → Nat → Option (Report A)
  | [], _ => some .none
  | c :: cs, found => goOn (attempt c found) (eachClause attempt cs) found

/-- Whether the first of some goals is given up for its depth. -/
def pruned (o : Options) : List (Goal A) → Bool
  | [] => false
  | g :: _ => tooDeep o g.depth

/-- A way to resolve a goal with a clause in a store, within some number of levels, and
    with the occurs check or without: `some none` if the goal and the head of an instance
    of the clause clash; otherwise the body of the instance, and the store in which goal
    and head have been unified.  It is `none` if that takes more levels. -/
abbrev Resolver (A : Type u) :=
  Bool → Nat → Compound A → Clause A → Store A → Option (Option (List (Compound A) × Store A))

variable [DecidableEq A]

/-- Takes the instance of the clause and unifies the goal with its head. -/
def instanceFirst : Resolver A := fun check n goal c s =>
  match c.instantiate n s with
  | none => none
  | some (c, s) =>
    match unify n goal.toTerm c.head.toTerm ⟨s, .start check⟩ with
    | .cutOff => none
    | .failure _ _ => some none
    | .success w => some (some (c.body, w.store))

/-- Takes the head of the instance, unifies the goal with it, and takes the body of the
    instance only then.  Head and body are those of one instance, copied in the store
    that the goal was met in; but where the goal and the head clash, nothing is asked of
    the body, whose instance may have no end. -/
def headFirst : Resolver A := fun check n goal c s =>
  match s.copyCompound n c.head .empty with
  | none => none
  | some (head, r, s) =>
    match unify n goal.toTerm head.toTerm ⟨s, .start check⟩ with
    | .cutOff => none
    | .failure _ _ => some none
    | .success w =>
      match s.copyCompounds n c.body r with
      | none => none
      | some (body, _, s) => some (some (body, { w.store with nextVar := s.nextVar }))

/-- Tries one clause for the goal `g`, which stands before the goals `rest`, and goes on
    with `prove` if it resolves the goal and leads to no goal that lies too deep. -/
def expand (resolve : Resolver A) (src : Source A) (n : Nat)
    (prove : List (Goal A) → Store A → Nat → Option (Report A)) (g : Goal A)
    (rest : List (Goal A)) (s : Store A) (c : Clause A) (found : Nat) : Option (Report A) :=
  match resolve src.options.occursCheck n g.compound c s with
  | none => none
  | some none => some .none
  | some (some (body, s)) =>
    let goals := body.map (⟨·, g.depth + 1⟩) ++ rest
    if pruned src.options goals then some .none else prove goals s found

/-- Reports a match if there are no goals.  Otherwise tries for the first goal every
    clause of its signature, in order, until the search is stopped. -/
def prove (resolve : Resolver A) (src : Source A) (answers : Nat → Signal) :
    Nat → List (Goal A) → Store A → Nat → Option (Report A)
  | 0, _, _, _ => none
  | _ + 1, [], s, found => some ⟨answers found = .halt, [s]⟩
  | n + 1, g :: rest, s, found =>
    eachClause (expand resolve src n (prove resolve src answers n) g rest s)
      (src.clausesFor g.compound.signature) found

end Search

/-- The stores in which the matches of `goals` are reported, in order, and how the
    enumeration ends, if goals are resolved by `resolve` and the answer to the `k`-th match
    is `answers k`. -/
def Program.solutions {A : Type u} [DecidableEq A] (p : Program A)
    (resolve : Search.Resolver A) (answers : Nat → Signal) (n : Nat) (goals : List (Compound A))
    (s : Store A) : Option (Ending × List (Store A)) :=
  (Search.prove resolve ⟨p.clausesFor, p.options⟩ answers n (goals.map (⟨·, 0⟩)) s 0).map fun r =>
    (if r.halted then .stopped r.views.length else .exhausted r.views.length, r.views)

end Horn
