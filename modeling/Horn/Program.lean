import Horn.Clause

/-! # Programs

    A program is a list of clauses, filed under the signature of the head, with
    the options for searching it.  Signatures stand in the order in which they
    were first used, and the clauses of one signature in the order in which they
    were added. -/

namespace Horn

universe u

/-- How a program is searched. -/
structure Options where
  /-- Refuse to bind a variable to a term in which it occurs. -/
  occursCheck : Bool
  /-- Give up proofs that nest more rule expansions than this. -/
  maxDepth : Option Nat
  deriving DecidableEq, Repr

/-- No occurs check and no limit on depth. -/
def Options.default : Options := ⟨false, none⟩

/-- Clauses filed by signature, and the options for searching them. -/
structure Program (A : Type u) where
  groups : List (Signature A × List (Clause A))
  options : Options

namespace Program

variable {A : Type u}

/-- The program without clauses. -/
def empty (options : Options) : Program A := ⟨[], options⟩

/-- Files `c` last in the group of its signature, opening a new group at the end
    if there is none. -/
def file [DecidableEq A] (c : Clause A) :
    List (Signature A × List (Clause A)) → List (Signature A × List (Clause A))
  | [] => [(c.signature, [c])]
  | (f, cs) :: rest =>
    if f = c.signature then (f, cs ++ [c]) :: rest else (f, cs) :: file c rest

/-- Adds a clause after all others of its signature. -/
def add [DecidableEq A] (p : Program A) (c : Clause A) : Program A :=
  { p with groups := file c p.groups }

/-- Adds several clauses in order. -/
def addAll [DecidableEq A] (p : Program A) (cs : List (Clause A)) : Program A :=
  cs.foldl add p

/-- The program that consists of `cs`. -/
def ofList [DecidableEq A] (cs : List (Clause A)) (options : Options) : Program A :=
  (empty options).addAll cs

/-- The clauses whose head has signature `f`, in the order in which they were added. -/
def clausesFor [DecidableEq A] (p : Program A) (f : Signature A) : List (Clause A) :=
  (p.groups.lookup f).getD []

/-- The signatures that have clauses, in the order in which they were first used. -/
def signatures (p : Program A) : List (Signature A) := p.groups.map (·.1)

/-- All clauses, group by group. -/
def clauses (p : Program A) : List (Clause A) := p.groups.flatMap (·.2)

/-- The number of clauses. -/
def size (p : Program A) : Nat := p.groups.foldl (fun n (_, cs) => n + cs.length) 0

/-- Whether there is no clause. -/
def isEmpty (p : Program A) : Bool := p.groups.isEmpty

end Program

end Horn
