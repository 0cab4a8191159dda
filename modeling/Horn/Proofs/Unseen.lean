import Horn.Proofs.Readings
import Horn.Proofs.Undo

/-! # What unification does not see

    Unification reads the classes and the values of variables and asks whether the occurs
    check is on.  It writes by gathering classes and by going back to marks of its own.
    A change of sessions that shows in none of this is *unseen*: from the changed session
    unification takes the same steps, and what it leaves is changed in the same way.

    * `unify_map`: the statement for any unseen change.
    * `unify_onto`: moves that were made before do not matter, since unification undoes
      none of them. -/

namespace Horn

universe u

variable {A : Type u}

/-- A change of sessions that shows neither in what unification reads nor in what it
    does. -/
structure Session.Unseen (F : Session A → Session A) : Prop where
  classOf : ∀ w x, (F w).store.classOf x = w.store.classOf x
  value : ∀ w x, (F w).store.value x = w.store.value x
  check : ∀ w, (F w).trail.occursCheck = w.trail.occursCheck
  gather : ∀ w cs value, (F w).gather cs value = F (w.gather cs value)
  undoTo : ∀ v w, (F w).undoTo (F v).mark = F (w.undoTo v.mark)

/-- The outcome with a change made to the session it leaves. -/
def Outcome.map (F : Session A → Session A) : Outcome A → Outcome A
  | success w => success (F w)
  | failure e w => failure e (F w)
  | cutOff => cutOff

section unseen

variable {F : Session A → Session A}

theorem Outcome.map_andThen {next : Session A → Outcome A}
    (hnext : ∀ w, next (F w) = (next w).map F) (o : Outcome A) :
    (o.map F).andThen next = (o.andThen next).map F := by
  cases o with
  | success w => exact hnext w
  | failure e w => rfl
  | cutOff => rfl

namespace Session.Unseen

theorem undoingTo (hF : Unseen F) (o : Outcome A) (v : Session A) :
    (o.map F).undoingTo (F v).mark = (o.undoingTo v.mark).map F := by
  cases o with
  | success w => rfl
  | failure e w => exact congrArg (Outcome.failure e) (hF.undoTo v w)
  | cutOff => rfl

theorem aliased (hF : Unseen F) (w : Session A) (x y : Var) :
    (F w).store.aliased x y = w.store.aliased x y :=
  Store.aliased_congr (hF.classOf w) x y

theorem merge (hF : Unseen F) (w : Session A) (x y : Var) (value : Option (Compound A)) :
    (F w).merge x y value = F (w.merge x y value) := by
  unfold Session.merge
  rw [hF.aliased, hF.classOf, hF.classOf]
  split
  · rfl
  · exact hF.gather w _ value

theorem checkingOccurs (hF : Unseen F) (w : Session A) (n : Nat) (x : Var) (c : Compound A)
    {next : Session A → Outcome A} (hnext : next (F w) = (next w).map F) :
    (F w).checkingOccurs n x c next = (w.checkingOccurs n x c next).map F := by
  -- the walks of the check read classes and values
  have hcontains : (F w).store.contains x n c.toTerm = w.store.contains x n c.toTerm :=
    Store.contains_congr (hF.classOf w) (hF.value w) x n c.toTerm
  have hresolved : (F w).store.resolvedCompound n c = w.store.resolvedCompound n c := by
    rw [Store.resolvedCompound, Store.resolvedCompound,
      funext (Store.resolved_congr (hF.value w) n)]
  unfold Session.checkingOccurs
  rw [hF.check, hcontains, hresolved]
  split
  · split
    · rfl
    · exact hnext
    · split
      · rfl
      · rfl
  · exact hnext

variable {f : Unifier A}

theorem resolveBy (hF : Unseen F) (hf : ∀ t u w, f t u (F w) = (f t u w).map F) (n : Nat)
    (x : Var) (c : Compound A) (w : Session A) :
    (F w).resolveBy f n x c = (w.resolveBy f n x c).map F := by
  unfold Session.resolveBy
  rw [hF.value]
  cases w.store.value x with
  | some d =>
    simp only [hf]
    exact hF.undoingTo _ w
  | none =>
    apply hF.checkingOccurs
    rw [hF.classOf, hF.gather]
    rfl

theorem bindBy (hF : Unseen F) (hf : ∀ t u w, f t u (F w) = (f t u w).map F) (n : Nat)
    (x y : Var) (w : Session A) : (F w).bindBy f n x y = (w.bindBy f n x y).map F := by
  have hmerge : ∀ (v : Session A) (value : Option (Compound A)),
      Outcome.success ((F v).merge x y value) = (Outcome.success (v.merge x y value)).map F :=
    fun v value => congrArg Outcome.success (hF.merge v x y value)
  unfold Session.bindBy
  rw [hF.aliased, hF.value, hF.value]
  by_cases hxy : w.store.aliased x y = true
  · rw [if_pos hxy, if_pos hxy]
    rfl
  · rw [if_neg hxy, if_neg hxy]
    cases w.store.value x with
    | none =>
      cases w.store.value y with
      | none => exact hmerge w none
      | some c => exact hF.checkingOccurs w n x c (hmerge w (some c))
    | some c =>
      cases w.store.value y with
      | none => exact hF.checkingOccurs w n y c (hmerge w (some c))
      | some d =>
        simp only [hf]
        rw [hF.undoingTo _ w]
        exact Outcome.map_andThen (fun v => hmerge v (some c)) _

end Session.Unseen

theorem unifyEach_map {f : Unifier A} (hf : ∀ t u w, f t u (F w) = (f t u w).map F)
    (ps : List (Term A × Term A)) (w : Session A) :
    unifyEach f ps (F w) = (unifyEach f ps w).map F := by
  induction ps generalizing w with
  | nil => rfl
  | cons p ps ih =>
    rw [unifyEach, unifyEach, hf]
    exact Outcome.map_andThen ih _

variable [DecidableEq A]

/-- From a session with an unseen change unification ends as from the session itself. -/
theorem unify_map (hF : Session.Unseen F) (n : Nat) (t u : Term A) (w : Session A) :
    unify n t u (F w) = (unify n t u w).map F := by
  induction n generalizing t u w with
  | zero => rfl
  | succ n ih =>
    cases t with
    | var x =>
      cases u with
      | var y => exact hF.bindBy ih n x y w
      | app g bs => exact hF.resolveBy ih n x ⟨g, bs⟩ w
    | app f as =>
      cases u with
      | var y => exact hF.resolveBy ih n y ⟨f, as⟩ w
      | app g bs =>
        rw [unify, unify]
        by_cases hname : f ≠ g
        · rw [if_pos hname, if_pos hname]
          rfl
        · rw [if_neg hname, if_neg hname]
          by_cases harity : as.length ≠ bs.length
          · rw [if_pos harity, if_pos harity]
            rfl
          · rw [if_neg harity, if_neg harity]
            exact unifyEach_map ih _ w

end unseen

/-! ## Older moves -/

namespace Session

variable (older : Array (Var × ClassId)) (w : Session A)

/-- The session with older moves on the trail, before those that it has. -/
def onto : Session A := ⟨w.store, ⟨older ++ w.trail.moves, w.trail.occursCheck⟩⟩

theorem mark_onto : (w.onto older).mark = older.size + w.mark := by
  simp [mark, onto, Trail.length]

theorem move_onto (x : Var) (c : ClassId) :
    (w.onto older).move x c = (w.move x c).onto older := by
  show Session.mk _ (Trail.mk ((older ++ w.trail.moves).push _) _) = _
  rw [Array.push_append]
  rfl

theorem moveAll_onto (xs : List Var) (c : ClassId) :
    (w.onto older).moveAll xs c = (w.moveAll xs c).onto older :=
  moveAll_comm (fun w x => w.move_onto older x c) w xs

theorem gather_onto (cs : List ClassId) (value : Option (Compound A)) :
    (w.onto older).gather cs value = (w.gather cs value).onto older := by
  rw [gather_eq, gather_eq, ← moveAll_onto]
  rfl

/-- No more moves are taken back than were made since. -/
theorem undo_onto {n : Nat} (hn : n ≤ w.mark) :
    (w.onto older).undo n = (w.undo n).onto older := by
  induction n generalizing w with
  | zero => rfl
  | succ n ih =>
    rcases w.trail_cases with ⟨s, check, rfl⟩ | ⟨s, moves, x, c, check, rfl⟩
    · exact absurd hn (Nat.not_succ_le_zero n)
    · rw [mark_push] at hn
      have hpush : onto older (⟨s, ⟨moves.push (x, c), check⟩⟩ : Session A) =
          ⟨s, ⟨(older ++ moves).push (x, c), check⟩⟩ := by
        rw [Array.push_append]
        rfl
      rw [hpush, undo_push, undo_push]
      exact ih ⟨s.move x c, ⟨moves, check⟩⟩ (Nat.le_of_succ_le_succ hn)

theorem unseen_onto : Unseen (onto (A := A) older) where
  classOf _ _ := rfl
  value _ _ := rfl
  check _ := rfl
  gather := gather_onto older
  undoTo v w := by
    have hmarks : (w.onto older).mark - (v.onto older).mark = w.mark - v.mark := by
      rw [mark_onto, mark_onto]
      omega
    rw [Session.undoTo, hmarks]
    exact w.undo_onto older (Nat.sub_le _ _)

end Session

section unify

variable [DecidableEq A] {t u : Term A}

/-- Unification from a session with older moves on its trail. -/
theorem unify_onto (older : Array (Var × ClassId)) (n : Nat) (t u : Term A) (w : Session A) :
    unify n t u (w.onto older) = (unify n t u w).map (Session.onto older) :=
  unify_map (Session.unseen_onto older) n t u w

/-- Unification goes on from a trail as it would from one without moves. -/
theorem unify_start (n : Nat) (t u : Term A) (s : Store A) (tr : Trail) :
    unify n t u ⟨s, tr⟩ = (unify n t u ⟨s, .start tr.occursCheck⟩).map (.onto tr.moves) := by
  rw [← unify_onto]
  simp [Session.onto, Trail.start]

/-- A success leaves what it would have left from a trail without moves, and adds the same
    moves. -/
theorem unify_eq_success_iff {n : Nat} {s : Store A} {tr : Trail} {w : Session A} :
    unify n t u ⟨s, tr⟩ = .success w ↔
      ∃ v, unify n t u ⟨s, .start tr.occursCheck⟩ = .success v ∧ w = v.onto tr.moves := by
  rw [unify_start]
  cases unify n t u ⟨s, .start tr.occursCheck⟩ with
  | success v => simp [Outcome.map, eq_comm]
  | failure e v => simp [Outcome.map]
  | cutOff => simp [Outcome.map]

end unify

end Horn
