import Horn.Roster
import Horn.Table
import Horn.Term.Basic

/-! # The binding store

    Variables are grouped into classes; the members of a class share one value
    or none.  Every variable belongs to exactly one class at a time.  A class is
    either the one a variable is born into, which never holds a value, or a
    *joint* class, made when classes are merged or given a value.  What a joint
    class holds is fixed when it is made: to change what some variables denote,
    a new joint class is made and the variables move to it.  A class that has
    lost all its members stays, so variables can move back.

    Each class has a roster of its members in the order in which they moved in.
    It says the same as the variables' own pointers and is kept beside them so
    that a whole class can move without a search.

    All operations are total: a variable that nobody has touched is alone in the
    class it was born into. -/

namespace Horn

universe u

/-- The identity of a class. -/
inductive ClassId where
  /-- The class that `x` is born into. -/
  | own (x : Var)
  /-- The `k`-th class made by a merge or by giving a value. -/
  | joint (k : Nat)
  deriving DecidableEq, Repr

/-- A class made by a merge or by giving a value. -/
structure Joint (A : Type u) where
  value : Option (Compound A)
  roster : Roster Var

/-- The classes of all variables and what they hold. -/
structure Store (A : Type u) where
  /-- The number of the next new variable. -/
  nextVar : Nat
  /-- The number of the next joint class. -/
  nextJoint : Nat
  /-- The class of each variable. -/
  links : Table ClassId (fun i => .own ⟨i⟩)
  /-- The members of the classes that variables are born into. -/
  homes : Table (Roster Var) (fun i => .single ⟨i⟩)
  /-- The joint classes. -/
  joints : Table (Joint A) (fun _ => ⟨none, .empty⟩)

namespace Store

variable {A : Type u}

/-- The store before any variable or class has been made. -/
def empty : Store A := ⟨0, 0, .empty, .empty, .empty⟩

/-- A new variable. -/
def fresh (s : Store A) : Var × Store A :=
  (⟨s.nextVar⟩, { s with nextVar := s.nextVar + 1 })

/-- `n` new variables, in the order in which they are made. -/
def freshMany : Nat → Store A → List Var × Store A
  | 0, s => ([], s)
  | n + 1, s =>
    let (x, s) := s.fresh
    let (xs, s) := freshMany n s
    (x :: xs, s)

/-! ## Looking up -/

/-- The class that `x` belongs to. -/
def classOf (s : Store A) (x : Var) : ClassId := s.links.get x.id

/-- The value that the members of a class share. -/
def valueOf (s : Store A) : ClassId → Option (Compound A)
  | .own _ => none
  | .joint k => (s.joints.get k).value

/-- The roster of the members of a class. -/
def roster (s : Store A) : ClassId → Roster Var
  | .own x => s.homes.get x.id
  | .joint k => (s.joints.get k).roster

/-- The members of a class, in the order in which they moved in. -/
def members (s : Store A) (c : ClassId) : List Var := (s.roster c).toList

/-- The value of a variable: that of its class. -/
def value (s : Store A) (x : Var) : Option (Compound A) := s.valueOf (s.classOf x)

/-- Whether the class of `x` holds a value. -/
def isBound (s : Store A) (x : Var) : Bool := (s.value x).isSome

/-- Whether `x` and `y` belong to one class. -/
def aliased (s : Store A) (x y : Var) : Bool := s.classOf x = s.classOf y

/-- The compound that a term denotes at its root: itself, or the value of a
    variable. -/
def view (s : Store A) : Term A → Option (Compound A)
  | .var x => s.value x
  | .app f as => some ⟨f, as⟩

/-! ## Moving variables -/

/-- Replaces the roster of a class. -/
def setRoster (s : Store A) (c : ClassId) (r : Roster Var) : Store A :=
  match c with
  | .own x => { s with homes := s.homes.set x.id r }
  | .joint k => { s with joints := s.joints.set k ⟨(s.joints.get k).value, r⟩ }

/-- Lets `x` point to class `c`. -/
def setClass (s : Store A) (x : Var) (c : ClassId) : Store A :=
  { s with links := s.links.set x.id c }

/-- Moves `x` to class `c`: it leaves the roster of the class it was in and comes
    last in that of `c`.  A move to its own class brings it to the end. -/
def move (s : Store A) (x : Var) (c : ClassId) : Store A :=
  let old := s.classOf x
  let s := s.setRoster old ((s.roster old).erase x)
  let s := s.setRoster c ((s.roster c).push x)
  s.setClass x c

/-- A new class without members that holds `value`. -/
def newJoint (s : Store A) (value : Option (Compound A)) : ClassId × Store A :=
  (.joint s.nextJoint,
    { s with
      nextJoint := s.nextJoint + 1
      joints := s.joints.set s.nextJoint ⟨value, .empty⟩ })

/-! ## Snapshots -/

/-- The class a variable belonged to when the snapshot was taken. -/
structure Snapshot where
  target : ClassId
  deriving DecidableEq, Repr

/-- Remembers the class of `x`. -/
def snapshot (s : Store A) (x : Var) : Snapshot := ⟨s.classOf x⟩

/-- Moves `x`, and no other variable, to the class that the snapshot remembers. -/
def restore (s : Store A) (x : Var) (snap : Snapshot) : Store A := s.move x snap.target

end Store

end Horn
