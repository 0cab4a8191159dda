import Horn.Proofs.Unseen

/-! # The number of the next variable

    Unification makes no variables and does not look at the number of the next one:
    with another number it takes the same steps and ends the same way
    (`unify_setNext`).  So it does not matter for the unification of two terms whether
    other terms are copied before it or after it. -/

namespace Horn

universe u

variable {A : Type u}

/-- The store with `m` as the number of the next variable. -/
def Store.setNext (m : Nat) (s : Store A) : Store A := { s with nextVar := m }

/-- The session with `m` as the number of the next variable. -/
def Session.setNext (m : Nat) (w : Session A) : Session A := ⟨w.store.setNext m, w.trail⟩

/-- The outcome with `m` as the number of the next variable. -/
def Outcome.setNext (m : Nat) : Outcome A → Outcome A
  | success w => success (w.setNext m)
  | failure e w => failure e (w.setNext m)
  | cutOff => cutOff

/-! ## Stores -/

namespace Store

variable (m : Nat) (s : Store A)

@[simp] theorem classOf_setNext (x : Var) : (s.setNext m).classOf x = s.classOf x := rfl

@[simp] theorem valueOf_setNext (c : ClassId) : (s.setNext m).valueOf c = s.valueOf c := by
  cases c <;> rfl

@[simp] theorem value_setNext (x : Var) : (s.setNext m).value x = s.value x :=
  valueOf_setNext m s _

@[simp] theorem nextVar_setNext : (s.setNext m).nextVar = m := rfl

theorem roster_setNext (c : ClassId) : (s.setNext m).roster c = s.roster c := by
  cases c <;> rfl

theorem setRoster_setNext (c : ClassId) (r : Roster Var) :
    (s.setNext m).setRoster c r = (s.setRoster c r).setNext m := by
  cases c <;> rfl

theorem move_setNext (x : Var) (c : ClassId) :
    (s.setNext m).move x c = (s.move x c).setNext m := by
  have hold : (s.setNext m).classOf x = s.classOf x := rfl
  simp only [move, hold, roster_setNext, setRoster_setNext]
  rfl

/-- A copy does not look at the number in the store. -/
theorem copyTerm_setNext (n : Nat) : (s.setNext m).copyTerm n = s.copyTerm n := by
  funext t p
  exact copyTerm_congr (classOf_setNext m s) (value_setNext m s) n t p

end Store

/-! ## Sessions -/

namespace Session

variable (m : Nat) (w : Session A)

theorem move_setNext (x : Var) (c : ClassId) :
    (w.setNext m).move x c = (w.move x c).setNext m := by
  show Session.mk ((w.store.setNext m).move x c) _ = _
  rw [Store.move_setNext]
  rfl

theorem moveAll_setNext (xs : List Var) (c : ClassId) :
    (w.setNext m).moveAll xs c = (w.moveAll xs c).setNext m :=
  moveAll_comm (fun w x => w.move_setNext m x c) w xs

theorem gather_setNext (cs : List ClassId) (value : Option (Compound A)) :
    (w.setNext m).gather cs value = (w.gather cs value).setNext m := by
  have hnew : (Session.mk ((w.store.setNext m).newJoint value).2 w.trail : Session A) =
      setNext m ⟨(w.store.newJoint value).2, w.trail⟩ := rfl
  -- the rosters do not look at the number either
  have hmembers : ((w.store.setNext m).newJoint value).2.members =
      (w.store.newJoint value).2.members :=
    funext fun c => congrArg Roster.toList (Store.roster_setNext m (w.store.newJoint value).2 c)
  rw [gather_eq, gather_eq, ← moveAll_setNext, ← hnew, ← hmembers]
  rfl

theorem undo_setNext (n : Nat) : (w.setNext m).undo n = (w.undo n).setNext m := by
  induction n generalizing w with
  | zero => rfl
  | succ n ih =>
    -- one move after the other is taken back on either side
    rcases w.trail_cases with ⟨s, check, rfl⟩ | ⟨s, moves, x, c, check, rfl⟩
    · rw [undo_empty]
      exact undo_empty (n + 1) (s.setNext m) check
    · rw [undo_push, ← ih]
      show undo (n + 1) ⟨s.setNext m, ⟨moves.push (x, c), check⟩⟩ = _
      rw [undo_push, Store.move_setNext]
      rfl

end Session

/-! ## Unification -/

section unify

variable (m : Nat)

theorem Session.unseen_setNext : Unseen (setNext (A := A) m) where
  classOf w := w.store.classOf_setNext m
  value w := w.store.value_setNext m
  check _ := rfl
  gather := gather_setNext m
  undoTo _ w := w.undo_setNext m _

theorem Outcome.map_setNext (o : Outcome A) : o.map (Session.setNext m) = o.setNext m := by
  cases o <;> rfl

/-- Unification does not look at the number of the next variable. -/
theorem unify_setNext [DecidableEq A] (n : Nat) (t u : Term A) (w : Session A) :
    unify n t u (w.setNext m) = (unify n t u w).setNext m := by
  rw [unify_map (Session.unseen_setNext m), Outcome.map_setNext]

end unify

end Horn
