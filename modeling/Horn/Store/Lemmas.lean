import Horn.Store.Basic

/-! # What the operations of a store change

    One equation for each operation and each way to look at a store: the class
    of a variable, the value of a class, the members of a class.

    * A new variable changes none of the three.
    * `move x c` changes the class of `x` alone and the value of no class; it
      takes `x` out of one class and puts it at the end of another.
    * A new joint class changes nothing but itself. -/

namespace Horn.Store

universe u

variable {A : Type u} (s : Store A)

/-! ## A new variable -/

@[simp] theorem classOf_fresh (x : Var) : s.fresh.2.classOf x = s.classOf x := rfl

@[simp] theorem valueOf_fresh (c : ClassId) : s.fresh.2.valueOf c = s.valueOf c := by
  cases c <;> rfl

@[simp] theorem members_fresh (c : ClassId) : s.fresh.2.members c = s.members c := by
  cases c <;> rfl

/-! ## Replacing a roster -/

@[simp] theorem classOf_setRoster (c : ClassId) (r : Roster Var) (x : Var) :
    (s.setRoster c r).classOf x = s.classOf x := by
  cases c <;> rfl

@[simp] theorem valueOf_setRoster (c : ClassId) (r : Roster Var) (d : ClassId) :
    (s.setRoster c r).valueOf d = s.valueOf d := by
  cases c <;> cases d <;> simp only [setRoster, valueOf, Table.get_set]
  split
  · next h => rw [h]
  · rfl

@[simp] theorem roster_setRoster (c : ClassId) (r : Roster Var) (d : ClassId) :
    (s.setRoster c r).roster d = if c = d then r else s.roster d := by
  cases c with
  | own x =>
    cases d with
    | own y =>
      simp only [setRoster, roster, Table.get_set, ClassId.own.injEq, Var.ext_iff]
    | joint l => rfl
  | joint k =>
    cases d with
    | own y => rfl
    | joint l =>
      simp only [setRoster, roster, Table.get_set, ClassId.joint.injEq]
      split <;> rfl

/-! ## Pointing a variable to a class -/

@[simp] theorem classOf_setClass (x : Var) (c : ClassId) (y : Var) :
    (s.setClass x c).classOf y = if x = y then c else s.classOf y := by
  simp only [setClass, classOf, Table.get_set, Var.ext_iff]

@[simp] theorem valueOf_setClass (x : Var) (c d : ClassId) :
    (s.setClass x c).valueOf d = s.valueOf d := by
  cases d <;> rfl

@[simp] theorem roster_setClass (x : Var) (c d : ClassId) :
    (s.setClass x c).roster d = s.roster d := by
  cases d <;> rfl

/-! ## Moving a variable -/

/-- A move changes the class of the variable that is moved, and no other. -/
@[simp] theorem classOf_move (x : Var) (c : ClassId) (y : Var) :
    (s.move x c).classOf y = if x = y then c else s.classOf y := by
  simp [move]

/-- A move changes the value of no class. -/
@[simp] theorem valueOf_move (x : Var) (c d : ClassId) :
    (s.move x c).valueOf d = s.valueOf d := by
  simp [move]

theorem roster_move (x : Var) (c d : ClassId) :
    (s.move x c).roster d =
      let left := if s.classOf x = d then (s.roster d).erase x else s.roster d
      if c = d then left.push x else left := by
  simp only [move, roster_setClass, roster_setRoster]
  by_cases hc : c = d
  · subst hc
    by_cases ho : s.classOf x = c <;> simp [ho]
  · by_cases ho : s.classOf x = d <;> simp [hc, ho]

/-- A move takes the variable out of the class it was in and puts it at the end of
    the class it goes to. -/
theorem members_move (x : Var) (c d : ClassId) (h : (s.members (s.classOf x)).Nodup) :
    (s.move x c).members d =
      let left := if s.classOf x = d then (s.members d).erase x else s.members d
      if c = d then left ++ [x] else left := by
  simp only [members] at h ⊢
  rw [roster_move]
  by_cases ho : s.classOf x = d
  · subst ho
    by_cases hc : c = s.classOf x <;> simp [hc, Roster.toList_erase _ x h]
  · by_cases hc : c = d <;> simp [ho, hc]

/-! ## A new joint class -/

@[simp] theorem classOf_newJoint (value : Option (Compound A)) (x : Var) :
    (s.newJoint value).2.classOf x = s.classOf x := rfl

/-- The new class holds the value it is made with. -/
theorem valueOf_newJoint (value : Option (Compound A)) (d : ClassId) :
    (s.newJoint value).2.valueOf d =
      if .joint s.nextJoint = d then value else s.valueOf d := by
  cases d with
  | own x => rfl
  | joint k =>
    simp only [newJoint, valueOf, Table.get_set, ClassId.joint.injEq]
    split <;> rfl

/-- The new class has no members. -/
theorem members_newJoint (value : Option (Compound A)) (d : ClassId) :
    (s.newJoint value).2.members d =
      if .joint s.nextJoint = d then [] else s.members d := by
  cases d with
  | own x => rfl
  | joint k =>
    simp only [newJoint, members, roster, Table.get_set, ClassId.joint.injEq]
    split <;> rfl

end Horn.Store
