import Horn.Store.Basic

/-! # Trails

    A trail records the moves that unification makes, each with the class the
    variable came from, so that they can be taken back newest first.  It also
    says whether bindings made along it are checked for cycles.

    A *session* is a store together with the trail that is being written.  Moves
    of a session are recorded; `undoTo` brings it back to an earlier mark. -/

namespace Horn

universe u

/-- The moves made so far, oldest first, and whether the occurs check is on. -/
structure Trail where
  moves : Array (Var × ClassId)
  occursCheck : Bool

namespace Trail

/-- A trail without moves. -/
def start (occursCheck : Bool) : Trail := ⟨#[], occursCheck⟩

/-- The number of moves recorded. -/
def length (t : Trail) : Nat := t.moves.size

end Trail

/-- A store and the trail on which its changes are recorded. -/
structure Session (A : Type u) where
  store : Store A
  trail : Trail

namespace Session

variable {A : Type u}

/-- The point to which `undoTo` can return. -/
def mark (w : Session A) : Nat := w.trail.length

/-- Moves `x` to class `c` and records where it was. -/
def move (w : Session A) (x : Var) (c : ClassId) : Session A :=
  let ⟨store, ⟨moves, check⟩⟩ := w
  let old := store.classOf x
  ⟨store.move x c, ⟨moves.push (x, old), check⟩⟩

/-- Moves several variables to class `c`, in order. -/
def moveAll (w : Session A) (xs : List Var) (c : ClassId) : Session A :=
  xs.foldl (fun w x => w.move x c) w

/-- Makes a class that holds `value` and moves the members of `classes` into it. -/
def gather (w : Session A) (classes : List ClassId) (value : Option (Compound A)) : Session A :=
  let ⟨store, trail⟩ := w
  let (c, store) := store.newJoint value
  moveAll ⟨store, trail⟩ (classes.flatMap store.members) c

/-! ## Undoing -/

/-- Takes back the newest `n` moves, the newest first. -/
def undo : Nat → Session A → Session A
  | 0, w => w
  | n + 1, ⟨store, ⟨moves, check⟩⟩ =>
    match moves.back? with
    | none => ⟨store, ⟨moves, check⟩⟩
    | some (x, c) => undo n ⟨store.move x c, ⟨moves.pop, check⟩⟩

/-- Takes back every move made since `mark`; nothing if there are none. -/
def undoTo (w : Session A) (mark : Nat) : Session A := w.undo (w.mark - mark)

end Session

end Horn
