import Horn.Store.Lemmas
import Horn.Trail
import Mathlib.Data.List.Nodup

/-! # Consistent stores

    A store says in two places which variables make up a class: every variable
    points to its class, and every class has a roster.  In a *consistent* store
    the two agree, and no variable points to a class that has not been made yet.
    A session is consistent if its store is and the classes on its trail have
    been made.

    * The empty store is consistent, and every operation keeps a store so.
    * In a consistent session `gather` moves just the members of the classes it
      is given: `classOf_gather`, `valueOf_gather`. -/

namespace Horn

universe u

variable {A : Type u}

/-! ## Stores -/

/-- The class is one of the first `n` joint classes, or one that a variable is
    born into. -/
def ClassId.Made (n : Nat) : ClassId → Prop
  | .own _ => True
  | .joint k => k < n

theorem ClassId.Made.mono {m n : Nat} (h : m ≤ n) {c : ClassId} (hc : c.Made m) : c.Made n := by
  cases c with
  | own x => trivial
  | joint k => exact Nat.lt_of_lt_of_le hc h

theorem ClassId.Made.ne_joint {n : Nat} {c : ClassId} (hc : c.Made n) : c ≠ .joint n := by
  rintro rfl
  exact Nat.lt_irrefl n hc

namespace Store

/-- Rosters and pointers say the same, of classes that have been made. -/
structure Consistent (s : Store A) : Prop where
  /-- No class lists a variable twice. -/
  nodup : ∀ c, (s.members c).Nodup
  /-- A class lists the variables that point to it. -/
  mem_members : ∀ c x, x ∈ s.members c ↔ s.classOf x = c
  /-- Variables point to classes that have been made. -/
  made : ∀ x, (s.classOf x).Made s.nextJoint

theorem consistent_empty : (empty : Store A).Consistent where
  nodup c := by
    cases c with
    | own x => exact List.nodup_singleton _
    | joint k => exact List.nodup_nil
  mem_members c x := by
    have hx : (empty : Store A).classOf x = .own x := Table.get_empty _
    rw [hx]
    cases c with
    | own y =>
      have hm : (empty : Store A).members (.own y) = [y] := rfl
      rw [hm, List.mem_singleton, ClassId.own.injEq]
    | joint k =>
      have hm : (empty : Store A).members (.joint k) = [] := rfl
      simp [hm]
  made x := by
    have hx : (empty : Store A).classOf x = .own x := Table.get_empty _
    rw [hx]
    trivial

theorem Consistent.fresh {s : Store A} (h : s.Consistent) : s.fresh.2.Consistent where
  nodup c := by rw [members_fresh]; exact h.nodup c
  mem_members c x := by rw [members_fresh, classOf_fresh]; exact h.mem_members c x
  made x := h.made x

/-- Counting some variables as made changes neither pointers nor rosters. -/
theorem Consistent.setNextVar {s : Store A} (h : s.Consistent) (n : Nat) :
    { s with nextVar := n }.Consistent where
  nodup c := by
    have hm : Store.members { s with nextVar := n } c = s.members c := by cases c <;> rfl
    rw [hm]
    exact h.nodup c
  mem_members c x := by
    have hm : Store.members { s with nextVar := n } c = s.members c := by cases c <;> rfl
    rw [hm]
    exact h.mem_members c x
  made x := h.made x

/-! ### Moving a variable -/

@[simp] theorem nextVar_setRoster (s : Store A) (c : ClassId) (r : Roster Var) :
    (s.setRoster c r).nextVar = s.nextVar := by
  cases c <;> rfl

@[simp] theorem nextJoint_setRoster (s : Store A) (c : ClassId) (r : Roster Var) :
    (s.setRoster c r).nextJoint = s.nextJoint := by
  cases c <;> rfl

@[simp] theorem nextVar_move (s : Store A) (x : Var) (c : ClassId) :
    (s.move x c).nextVar = s.nextVar := by
  simp [move, setClass]

@[simp] theorem nextJoint_move (s : Store A) (x : Var) (c : ClassId) :
    (s.move x c).nextJoint = s.nextJoint := by
  simp [move, setClass]

/-- A move takes the variable off all lists, and puts it at the end of one. -/
theorem Consistent.members_move {s : Store A} (h : s.Consistent) (x : Var) (c d : ClassId) :
    (s.move x c).members d =
      if c = d then (s.members d).erase x ++ [x] else (s.members d).erase x := by
  rw [Store.members_move s x c d (h.nodup _)]
  by_cases hd : s.classOf x = d
  · simp only [if_pos hd]
  · -- where `x` is not a member there is nothing to be taken off
    have hx : x ∉ s.members d := fun hm => hd ((h.mem_members d x).mp hm)
    simp only [if_neg hd, List.erase_of_not_mem hx]

theorem Consistent.move {s : Store A} (h : s.Consistent) (x : Var) {c : ClassId}
    (hc : c.Made s.nextJoint) : (s.move x c).Consistent where
  nodup d := by
    have hleft : ((s.members d).erase x).Nodup := (h.nodup d).erase x
    rw [h.members_move]
    split
    · rw [← List.concat_eq_append]
      exact hleft.concat (h.nodup d).not_mem_erase
    · exact hleft
  mem_members d y := by
    have hleft : y ∈ (s.members d).erase x ↔ y ≠ x ∧ s.classOf y = d := by
      rw [(h.nodup d).mem_erase_iff, h.mem_members]
    rw [h.members_move, classOf_move]
    -- only the moved variable changes its place
    by_cases hxy : x = y
    · subst hxy
      by_cases hcd : c = d <;> simp [hcd, hleft]
    · by_cases hcd : c = d <;> simp [hcd, hxy, Ne.symm hxy, hleft]
  made y := by
    rw [classOf_move, nextJoint_move]
    split
    · exact hc
    · exact h.made y

/-! ### A new joint class -/

theorem Consistent.newJoint {s : Store A} (h : s.Consistent) (value : Option (Compound A)) :
    (s.newJoint value).2.Consistent where
  nodup d := by
    rw [members_newJoint]
    split
    · exact List.nodup_nil
    · exact h.nodup d
  mem_members d x := by
    rw [members_newJoint, classOf_newJoint]
    split
    · next hd =>
      -- nobody points to a class that has only just been made
      have hx : s.classOf x ≠ d := fun e => (h.made x).ne_joint (e.trans hd.symm)
      simp [hx]
    · exact h.mem_members d x
  made x := (h.made x).mono (Nat.le_succ _)

/-! ### Values and aliases -/

theorem aliased_iff {s : Store A} {x y : Var} :
    s.aliased x y = true ↔ s.classOf x = s.classOf y := by
  simp [aliased]

theorem value_eq_of_classOf_eq {s : Store A} {x y : Var} (h : s.classOf x = s.classOf y) :
    s.value x = s.value y := by
  rw [value, value, h]

end Store

/-! ## Sessions -/

namespace Session

/-- The store is consistent, and the classes on the trail have been made. -/
structure Consistent (w : Session A) : Prop where
  store : w.store.Consistent
  trail : ∀ m ∈ w.trail.moves, m.2.Made w.store.nextJoint

theorem consistent_start {s : Store A} (h : s.Consistent) (check : Bool) :
    Consistent ⟨s, .start check⟩ where
  store := h
  trail m hm := by simp [Trail.start] at hm

@[simp] theorem store_move (w : Session A) (x : Var) (c : ClassId) :
    (w.move x c).store = w.store.move x c := rfl

@[simp] theorem trail_move (w : Session A) (x : Var) (c : ClassId) :
    (w.move x c).trail = ⟨w.trail.moves.push (x, w.store.classOf x), w.trail.occursCheck⟩ := rfl

theorem Consistent.move {w : Session A} (h : w.Consistent) (x : Var) {c : ClassId}
    (hc : c.Made w.store.nextJoint) : (w.move x c).Consistent where
  store := h.store.move x hc
  trail m hm := by
    rw [trail_move, Array.mem_push] at hm
    rw [store_move, Store.nextJoint_move]
    rcases hm with hm | rfl
    · exact h.trail m hm
    · exact h.store.made x

/-! ### Moving many variables -/

/-- What commutes with a move commutes with moves one after the other. -/
theorem moveAll_comm {F : Session A → Session A} {c : ClassId}
    (hF : ∀ w x, (F w).move x c = F (w.move x c)) (w : Session A) (xs : List Var) :
    (F w).moveAll xs c = F (w.moveAll xs c) := by
  induction xs generalizing w with
  | nil => rfl
  | cons x xs ih =>
    show ((F w).move x c).moveAll xs c = F ((w.move x c).moveAll xs c)
    rw [hF]
    exact ih (w.move x c)

/-- A property that every single move keeps is kept by moving several. -/
theorem moveAll_induction {P : Session A → Prop} {c : ClassId} {xs : List Var}
    (step : ∀ w, ∀ x ∈ xs, P w → P (w.move x c)) {w : Session A} (h : P w) :
    P (w.moveAll xs c) := by
  induction xs generalizing w with
  | nil => exact h
  | cons x xs ih =>
    exact ih (fun v y hy hv => step v y (List.mem_cons_of_mem _ hy) hv)
      (step w x (List.mem_cons_self ..) h)

theorem nextJoint_moveAll (w : Session A) (xs : List Var) (c : ClassId) :
    (w.moveAll xs c).store.nextJoint = w.store.nextJoint :=
  moveAll_induction (P := fun v => v.store.nextJoint = w.store.nextJoint)
    (fun _ x _ h => (Store.nextJoint_move _ x c).trans h) rfl

theorem nextVar_moveAll (w : Session A) (xs : List Var) (c : ClassId) :
    (w.moveAll xs c).store.nextVar = w.store.nextVar :=
  moveAll_induction (P := fun v => v.store.nextVar = w.store.nextVar)
    (fun _ x _ h => (Store.nextVar_move _ x c).trans h) rfl

theorem occursCheck_moveAll (w : Session A) (xs : List Var) (c : ClassId) :
    (w.moveAll xs c).trail.occursCheck = w.trail.occursCheck :=
  moveAll_induction (P := fun v => v.trail.occursCheck = w.trail.occursCheck)
    (fun _ _ _ h => h) rfl

theorem valueOf_moveAll (w : Session A) (xs : List Var) (c d : ClassId) :
    (w.moveAll xs c).store.valueOf d = w.store.valueOf d :=
  moveAll_induction (P := fun v => v.store.valueOf d = w.store.valueOf d)
    (fun _ x _ h => (Store.valueOf_move _ x c d).trans h) rfl

theorem classOf_moveAll (w : Session A) (xs : List Var) (c : ClassId) (y : Var) :
    (w.moveAll xs c).store.classOf y = if y ∈ xs then c else w.store.classOf y := by
  induction xs generalizing w with
  | nil => rfl
  | cons x xs ih =>
    have hrest := ih (w.move x c)
    rw [store_move, Store.classOf_move] at hrest
    have hunfold : w.moveAll (x :: xs) c = (w.move x c).moveAll xs c := rfl
    rw [hunfold, hrest]
    by_cases hy : y ∈ xs
    · simp [hy]
    · by_cases hxy : x = y
      · simp [hxy]
      · simp [hy, hxy, Ne.symm hxy]

theorem Consistent.moveAll {w : Session A} (h : w.Consistent) (xs : List Var) {c : ClassId}
    (hc : c.Made w.store.nextJoint) : (w.moveAll xs c).Consistent := by
  have hboth : (w.moveAll xs c).Consistent ∧ c.Made (w.moveAll xs c).store.nextJoint :=
    moveAll_induction (P := fun v => v.Consistent ∧ c.Made v.store.nextJoint)
      (fun v x _ hv => ⟨hv.1.move x hv.2, by simpa using hv.2⟩) ⟨h, hc⟩
  exact hboth.1

/-! ### Gathering classes -/

/-- The session in which a class has been made but no variable moved yet. -/
theorem Consistent.newJoint {w : Session A} (h : w.Consistent) (value : Option (Compound A)) :
    Consistent ⟨(w.store.newJoint value).2, w.trail⟩ where
  store := h.store.newJoint value
  trail m hm := (h.trail m hm).mono (Nat.le_succ _)

theorem gather_eq (w : Session A) (cs : List ClassId) (value : Option (Compound A)) :
    w.gather cs value =
      moveAll ⟨(w.store.newJoint value).2, w.trail⟩
        (cs.flatMap (w.store.newJoint value).2.members) (.joint w.store.nextJoint) := rfl

@[simp] theorem nextVar_gather (w : Session A) (cs : List ClassId) (value : Option (Compound A)) :
    (w.gather cs value).store.nextVar = w.store.nextVar := by
  rw [gather_eq, nextVar_moveAll]
  rfl

@[simp] theorem nextJoint_gather (w : Session A) (cs : List ClassId)
    (value : Option (Compound A)) :
    (w.gather cs value).store.nextJoint = w.store.nextJoint + 1 := by
  rw [gather_eq, nextJoint_moveAll]
  rfl

@[simp] theorem occursCheck_gather (w : Session A) (cs : List ClassId)
    (value : Option (Compound A)) :
    (w.gather cs value).trail.occursCheck = w.trail.occursCheck := by
  rw [gather_eq, occursCheck_moveAll]

theorem Consistent.gather {w : Session A} (h : w.Consistent) (cs : List ClassId)
    (value : Option (Compound A)) : (w.gather cs value).Consistent := by
  rw [gather_eq]
  exact (h.newJoint value).moveAll _ (Nat.lt_succ_self _)

/-- The members of the gathered classes, and no others, are in the new class. -/
theorem classOf_gather {w : Session A} (h : w.store.Consistent) (cs : List ClassId)
    (value : Option (Compound A)) (x : Var) :
    (w.gather cs value).store.classOf x =
      if w.store.classOf x ∈ cs then .joint w.store.nextJoint else w.store.classOf x := by
  -- making the class has moved nobody, so the rosters say what they said
  have hmem : x ∈ cs.flatMap (w.store.newJoint value).2.members ↔ w.store.classOf x ∈ cs := by
    simp only [List.mem_flatMap, (h.newJoint value).mem_members, Store.classOf_newJoint]
    exact ⟨fun ⟨c, hc, hx⟩ => hx ▸ hc, fun hx => ⟨_, hx, rfl⟩⟩
  rw [gather_eq, classOf_moveAll, Store.classOf_newJoint]
  simp only [hmem]

/-- The new class holds the value it is made with, every other one what it held. -/
theorem valueOf_gather (w : Session A) (cs : List ClassId) (value : Option (Compound A))
    (d : ClassId) :
    (w.gather cs value).store.valueOf d =
      if .joint w.store.nextJoint = d then value else w.store.valueOf d := by
  rw [gather_eq, valueOf_moveAll, Store.valueOf_newJoint]

/-- The gathered variables have the new value, all others the one they had. -/
theorem value_gather {w : Session A} (h : w.store.Consistent) (cs : List ClassId)
    (value : Option (Compound A)) (x : Var) :
    (w.gather cs value).store.value x =
      if w.store.classOf x ∈ cs then value else w.store.value x := by
  rw [Store.value, classOf_gather h, valueOf_gather]
  by_cases hx : w.store.classOf x ∈ cs
  · simp [hx]
  · simp only [if_neg hx]
    -- a variable that stays points to a class made before
    rw [if_neg (Ne.symm (h.made x).ne_joint)]
    rfl

/-- After a gathering two variables share a class just if they did before or were
    both gathered. -/
theorem classOf_gather_eq_iff {w : Session A} (h : w.store.Consistent) (cs : List ClassId)
    (value : Option (Compound A)) (x y : Var) :
    (w.gather cs value).store.classOf x = (w.gather cs value).store.classOf y ↔
      (w.store.classOf x ∈ cs ∧ w.store.classOf y ∈ cs) ∨
        w.store.classOf x = w.store.classOf y := by
  rw [classOf_gather h, classOf_gather h]
  -- two variables are together in the new class, or both where they were
  by_cases hx : w.store.classOf x ∈ cs <;> by_cases hy : w.store.classOf y ∈ cs
  · simp [hx, hy]
  · have hne : w.store.classOf x ≠ w.store.classOf y := fun e => hy (e ▸ hx)
    simp [hx, hy, hne, Ne.symm (h.made y).ne_joint]
  · have hne : w.store.classOf x ≠ w.store.classOf y := fun e => hx (e ▸ hy)
    simp [hx, hy, hne, (h.made x).ne_joint]
  · simp [hx, hy]

/-! ### Undoing -/

theorem undo_push (n : Nat) (s : Store A) (moves : Array (Var × ClassId)) (check : Bool)
    (x : Var) (c : ClassId) :
    undo (n + 1) ⟨s, ⟨moves.push (x, c), check⟩⟩ = undo n ⟨s.move x c, ⟨moves, check⟩⟩ := by
  rw [undo, Array.back?_push]
  simp only [Array.pop_push]

theorem undo_empty (n : Nat) (s : Store A) (check : Bool) :
    undo n ⟨s, ⟨#[], check⟩⟩ = ⟨s, ⟨#[], check⟩⟩ := by
  cases n with
  | zero => rfl
  | succ n => rfl

/-- A session has an empty trail or one with a newest move. -/
theorem trail_cases (w : Session A) :
    (∃ s check, w = ⟨s, ⟨#[], check⟩⟩) ∨
      ∃ s, ∃ moves : Array (Var × ClassId), ∃ x c check,
        w = ⟨s, ⟨moves.push (x, c), check⟩⟩ := by
  obtain ⟨s, ⟨moves, check⟩⟩ := w
  cases hb : moves.back? with
  | none =>
    left
    rw [Array.back?_eq_none_iff] at hb
    exact ⟨s, check, by rw [hb]⟩
  | some m =>
    right
    obtain ⟨older, rfl⟩ := Array.back?_eq_some_iff.mp hb
    exact ⟨s, older, m.1, m.2, check, rfl⟩

/-- A property that taking back one move keeps is kept by undoing. -/
theorem undo_induction {P : Session A → Prop}
    (step : ∀ s (moves : Array (Var × ClassId)) x c check, P ⟨s, ⟨moves.push (x, c), check⟩⟩ →
      P ⟨s.move x c, ⟨moves, check⟩⟩)
    (n : Nat) {w : Session A} (h : P w) : P (w.undo n) := by
  induction n generalizing w with
  | zero => exact h
  | succ n ih =>
    rcases w.trail_cases with ⟨s, check, rfl⟩ | ⟨s, moves, x, c, check, rfl⟩
    · rw [undo_empty]
      exact h
    · rw [undo_push]
      exact ih (step s moves x c check h)

theorem Consistent.undo {w : Session A} (h : w.Consistent) (n : Nat) : (w.undo n).Consistent := by
  refine undo_induction ?_ n h
  intro s moves x c check hw
  -- the class to go back to was made when the move was recorded
  have hc : c.Made s.nextJoint := hw.trail (x, c) (Array.mem_push_self ..)
  refine ⟨hw.store.move x hc, fun m hm => ?_⟩
  rw [Store.nextJoint_move]
  exact hw.trail m (Array.mem_push_of_mem _ hm)

theorem Consistent.undoTo {w : Session A} (h : w.Consistent) (mark : Nat) :
    (w.undoTo mark).Consistent := h.undo _

end Session

end Horn
