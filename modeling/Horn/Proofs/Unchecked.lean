import Horn.Proofs.Undo

/-! # Unification without the occurs check

    The occurs check only ever refuses.  A unification that goes through with it, or that
    fails for another reason, takes the same steps without it and ends in the same store,
    with the same moves on the trail.  This holds of a failure as well, which may have
    bound variables before it came to the clash.

    A refusal cannot get lost on the way: whatever it is met inside of fails for it too
    (`Outcome.Unrefused.of_andThen`, `of_undoingTo`).  So nothing has to be known but how
    the whole ends.

    Main statement: `unify_unchecked`. -/

namespace Horn

universe u

variable {A : Type u}

/-- The trail with the occurs check turned off. -/
def Trail.unchecked (t : Trail) : Trail := { t with occursCheck := false }

/-- The session with the occurs check turned off. -/
def Session.unchecked (w : Session A) : Session A := { w with trail := w.trail.unchecked }

/-- The outcome with the occurs check turned off in the session it leaves. -/
def Outcome.unchecked : Outcome A → Outcome A
  | success w => success w.unchecked
  | failure e w => failure e w.unchecked
  | cutOff => cutOff

/-- The attempt comes to an end, and it is not refused by the occurs check. -/
def Outcome.Unrefused : Outcome A → Prop
  | success _ => True
  | failure (.occurs _ _) _ => False
  | failure _ _ => True
  | cutOff => False

instance (o : Outcome A) : Decidable o.Unrefused :=
  match o with
  | .success _ => .isTrue trivial
  | .failure (.occurs _ _) _ => .isFalse id
  | .failure (.names _ _) _ => .isTrue trivial
  | .failure (.arities _ _) _ => .isTrue trivial
  | .cutOff => .isFalse id

theorem Outcome.unrefused_iff {o : Outcome A} :
    o.Unrefused ↔ o ≠ .cutOff ∧ ∀ x c w, o ≠ .failure (.occurs x c) w := by
  cases o with
  | success w => simp [Unrefused]
  | failure e w => cases e <;> simp [Unrefused]
  | cutOff => simp [Unrefused]

/-- Without the check the attempt ends as `o'`: as it did with it, unless it was refused or
    cut off then. -/
def Outcome.Unchecks (o o' : Outcome A) : Prop := o.Unrefused → o' = o.unchecked

/-! ## Sessions -/

namespace Session

variable (w : Session A)

theorem move_unchecked (x : Var) (c : ClassId) : w.unchecked.move x c = (w.move x c).unchecked :=
  rfl

theorem moveAll_unchecked (xs : List Var) (c : ClassId) :
    w.unchecked.moveAll xs c = (w.moveAll xs c).unchecked :=
  moveAll_comm (fun w x => w.move_unchecked x c) w xs

theorem gather_unchecked (cs : List ClassId) (value : Option (Compound A)) :
    w.unchecked.gather cs value = (w.gather cs value).unchecked := by
  rw [gather_eq, gather_eq, ← moveAll_unchecked]
  rfl

theorem merge_unchecked (x y : Var) (value : Option (Compound A)) :
    w.unchecked.merge x y value = (w.merge x y value).unchecked := by
  have haliased : w.unchecked.store.aliased x y = w.store.aliased x y := rfl
  unfold merge
  rw [haliased]
  split
  · rfl
  · exact w.gather_unchecked _ _

theorem undo_unchecked (n : Nat) : w.unchecked.undo n = (w.undo n).unchecked := by
  induction n generalizing w with
  | zero => rfl
  | succ n ih =>
    -- one move after the other is taken back on either side
    rcases w.trail_cases with ⟨s, check, rfl⟩ | ⟨s, moves, x, c, check, rfl⟩
    · rw [undo_empty]
      exact undo_empty (n + 1) s false
    · rw [undo_push, ← ih]
      exact undo_push n s moves false x c

theorem undoTo_unchecked (mark : Nat) : w.unchecked.undoTo mark = (w.undoTo mark).unchecked :=
  w.undo_unchecked _

end Session

/-! ## Refusals are not lost -/

namespace Outcome

variable {o : Outcome A} {next : Session A → Outcome A}

theorem Unrefused.of_andThen (h : (o.andThen next).Unrefused) :
    o.Unrefused ∧ ∀ w, o = .success w → (next w).Unrefused := by
  cases o with
  | success w =>
    refine ⟨trivial, ?_⟩
    rintro _ ⟨⟩
    exact h
  | failure e w => exact ⟨h, nofun⟩
  | cutOff => exact h.elim

theorem Unrefused.of_undoingTo {mark : Nat} (h : (o.undoingTo mark).Unrefused) :
    o.Unrefused := by
  cases o with
  | success w => trivial
  | failure e w => cases e <;> exact h
  | cutOff => exact h

variable {o' : Outcome A} {next' : Session A → Outcome A}

theorem Unchecks.andThen (ho : o.Unchecks o')
    (hnext : ∀ w, (next w).Unchecks (next' w.unchecked)) :
    (o.andThen next).Unchecks (o'.andThen next') := by
  intro h
  obtain ⟨hfirst, hlater⟩ := h.of_andThen
  rw [ho hfirst]
  cases o with
  | success w => exact hnext w (hlater w rfl)
  | failure e w => rfl
  | cutOff => rfl

theorem Unchecks.undoingTo (ho : o.Unchecks o') (mark : Nat) :
    (o.undoingTo mark).Unchecks (o'.undoingTo mark) := by
  intro h
  rw [ho h.of_undoingTo]
  cases o with
  | success w => rfl
  | failure e w => exact congrArg (Outcome.failure e) (w.undoTo_unchecked mark)
  | cutOff => rfl

end Outcome

/-! ## Unification -/

section unify

/-- A check that lets the attempt go on might as well not have been made. -/
theorem Session.checkingOccurs_unchecked (w : Session A) (n : Nat) (x : Var) (c : Compound A)
    {next : Session A → Outcome A} (hnext : (next w).Unchecks (next w.unchecked)) :
    (w.checkingOccurs n x c next).Unchecks (w.unchecked.checkingOccurs n x c next) := by
  have hoff : w.unchecked.checkingOccurs n x c next = next w.unchecked := rfl
  intro h
  rw [hoff]
  unfold checkingOccurs at h ⊢
  by_cases hcheck : w.trail.occursCheck = true
  · rw [if_pos hcheck] at h ⊢
    revert h
    cases w.store.contains x n c.toTerm with
    | none => exact False.elim
    | some met =>
      cases met with
      | false => exact hnext
      | true =>
        -- here the check refuses, or is cut off before it can say so
        simp only
        cases w.store.resolvedCompound n c with
        | none => exact False.elim
        | some d => exact False.elim
  · rw [if_neg hcheck] at h ⊢
    exact hnext h

variable {f : Unifier A}

theorem Session.resolveBy_unchecked (hf : ∀ t u w, (f t u w).Unchecks (f t u w.unchecked))
    (n : Nat) (x : Var) (c : Compound A) (w : Session A) :
    (w.resolveBy f n x c).Unchecks (w.unchecked.resolveBy f n x c) := by
  have hvalue : w.unchecked.store.value x = w.store.value x := rfl
  unfold resolveBy
  rw [hvalue]
  cases w.store.value x with
  | some d => exact (hf d.toTerm c.toTerm w).undoingTo w.mark
  | none =>
    apply checkingOccurs_unchecked
    intro _
    exact congrArg Outcome.success (w.gather_unchecked _ _)

theorem Session.bindBy_unchecked (hf : ∀ t u w, (f t u w).Unchecks (f t u w.unchecked))
    (n : Nat) (x y : Var) (w : Session A) :
    (w.bindBy f n x y).Unchecks (w.unchecked.bindBy f n x y) := by
  have haliased : w.unchecked.store.aliased x y = w.store.aliased x y := rfl
  have hvalue : ∀ z, w.unchecked.store.value z = w.store.value z := fun _ => rfl
  have hmerge : ∀ (v : Session A) (value : Option (Compound A)),
      (Outcome.success (v.merge x y value)).Unchecks (.success (v.unchecked.merge x y value)) :=
    fun v value _ => congrArg Outcome.success (v.merge_unchecked x y value)
  unfold bindBy
  rw [haliased, hvalue, hvalue]
  by_cases hxy : w.store.aliased x y = true
  · rw [if_pos hxy, if_pos hxy]
    intro _
    rfl
  · rw [if_neg hxy, if_neg hxy]
    cases w.store.value x with
    | none =>
      cases w.store.value y with
      | none => exact hmerge w none
      | some c => exact w.checkingOccurs_unchecked n x c (hmerge w (some c))
    | some c =>
      cases w.store.value y with
      | none => exact w.checkingOccurs_unchecked n y c (hmerge w (some c))
      | some d =>
        exact ((hf c.toTerm d.toTerm w).undoingTo w.mark).andThen fun v => hmerge v (some c)

theorem unifyEach_unchecked (hf : ∀ t u w, (f t u w).Unchecks (f t u w.unchecked))
    (ps : List (Term A × Term A)) (w : Session A) :
    (unifyEach f ps w).Unchecks (unifyEach f ps w.unchecked) := by
  induction ps generalizing w with
  | nil =>
    intro _
    rfl
  | cons p ps ih => exact (hf p.1 p.2 w).andThen ih

variable [DecidableEq A]

/-- **A unification that the occurs check does not refuse does the same without it**,
    whether it succeeds or clashes half way. -/
theorem unify_unchecked (n : Nat) (t u : Term A) (w : Session A) :
    (unify n t u w).Unchecks (unify n t u w.unchecked) := by
  induction n generalizing t u w with
  | zero => exact False.elim
  | succ n ih =>
    cases t with
    | var x =>
      cases u with
      | var y => exact Session.bindBy_unchecked ih n x y w
      | app g bs => exact Session.resolveBy_unchecked ih n x ⟨g, bs⟩ w
    | app f as =>
      cases u with
      | var y => exact Session.resolveBy_unchecked ih n y ⟨f, as⟩ w
      | app g bs =>
        rw [unify, unify]
        by_cases hname : f ≠ g
        · rw [if_pos hname, if_pos hname]
          intro _
          rfl
        · rw [if_neg hname, if_neg hname]
          by_cases harity : as.length ≠ bs.length
          · rw [if_pos harity, if_pos harity]
            intro _
            rfl
          · rw [if_neg harity, if_neg harity]
            exact unifyEach_unchecked ih _ w

end unify

end Horn
