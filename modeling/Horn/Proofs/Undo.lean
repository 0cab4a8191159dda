import Horn.Proofs.Consistent
import Horn.Proofs.Terms
import Horn.Renaming
import Horn.Unify

/-! # What undoing brings back

    A store *keeps* another if every variable made before is still in its class
    and every class made before still holds its value; there may be new variables
    and new classes.  A session *extends* an earlier one if undoing it to the
    mark of the earlier one brings back that trail and keeps that store.

    * Every recorded move extends, and so does everything made of recorded moves:
      `Extends.move`, `Extends.gather`, `Extends.undoTo`.
    * `unify_ends`: what single changes keep, unification keeps, whether it succeeds
      or fails.
    * A copy changes nothing but the number of the next variable. -/

namespace Horn

universe u

variable {A : Type u}

/-! ## Keeping a store -/

namespace Store

/-- The variable has been made. -/
def Born (s : Store A) (x : Var) : Prop := x.id < s.nextVar

/-- All that was made in `s` is in `s'` as it was: every variable is in its class,
    every class holds its value. -/
structure Kept (s s' : Store A) : Prop where
  nextVar_le : s.nextVar ≤ s'.nextVar
  nextJoint_le : s.nextJoint ≤ s'.nextJoint
  classOf : ∀ x, s.Born x → s'.classOf x = s.classOf x
  valueOf : ∀ c : ClassId, c.Made s.nextJoint → s'.valueOf c = s.valueOf c

theorem Kept.refl (s : Store A) : s.Kept s :=
  ⟨Nat.le_refl _, Nat.le_refl _, fun _ _ => rfl, fun _ _ => rfl⟩

theorem Kept.born {s s' : Store A} (h : s.Kept s') {x : Var} (hx : s.Born x) : s'.Born x :=
  Nat.lt_of_lt_of_le hx h.nextVar_le

theorem Kept.trans {s₁ s₂ s₃ : Store A} (h₁ : s₁.Kept s₂) (h₂ : s₂.Kept s₃) : s₁.Kept s₃ where
  nextVar_le := Nat.le_trans h₁.nextVar_le h₂.nextVar_le
  nextJoint_le := Nat.le_trans h₁.nextJoint_le h₂.nextJoint_le
  classOf x hx := (h₂.classOf x (h₁.born hx)).trans (h₁.classOf x hx)
  valueOf c hc := (h₂.valueOf c (hc.mono h₁.nextJoint_le)).trans (h₁.valueOf c hc)

theorem Kept.value {s s' : Store A} (h : s.Kept s') (hs : s.Consistent) {x : Var}
    (hx : s.Born x) : s'.value x = s.value x := by
  rw [Store.value, h.classOf x hx, h.valueOf _ (hs.made x), Store.value]

/-- Every class has the members it had, as far as they had been made. -/
theorem Kept.mem_members {s s' : Store A} (h : s.Kept s') (hs : s.Consistent)
    (hs' : s'.Consistent) (c : ClassId) {x : Var} (hx : s.Born x) :
    x ∈ s'.members c ↔ x ∈ s.members c := by
  rw [hs'.mem_members, hs.mem_members, h.classOf x hx]

theorem Kept.newJoint (s : Store A) (value : Option (Compound A)) :
    s.Kept (s.newJoint value).2 where
  nextVar_le := Nat.le_refl _
  nextJoint_le := Nat.le_succ _
  classOf _ _ := rfl
  valueOf c hc := by rw [valueOf_newJoint, if_neg (Ne.symm hc.ne_joint)]

theorem Kept.setNextVar (s : Store A) {n : Nat} (h : s.nextVar ≤ n) :
    s.Kept { s with nextVar := n } where
  nextVar_le := h
  nextJoint_le := Nat.le_refl _
  classOf _ _ := rfl
  valueOf c _ := by cases c <;> rfl

/-- Stores in which all agrees keep doing so when one variable is moved in both. -/
theorem Kept.move {s s' : Store A} (h : s.Kept s') (x : Var) (c : ClassId) :
    (s.move x c).Kept (s'.move x c) where
  nextVar_le := by simpa using h.nextVar_le
  nextJoint_le := by simpa using h.nextJoint_le
  classOf y hy := by
    rw [classOf_move, classOf_move, h.classOf y (by simpa [Born] using hy)]
  valueOf d hd := by
    rw [valueOf_move, valueOf_move]
    exact h.valueOf d (by simpa using hd)

/-- Moving a variable and moving it back changes no class. -/
theorem Kept.move_back (s : Store A) (x : Var) (c : ClassId) :
    s.Kept ((s.move x c).move x (s.classOf x)) where
  nextVar_le := by simp
  nextJoint_le := by simp
  classOf y _ := by
    rw [classOf_move, classOf_move]
    by_cases hxy : x = y
    · rw [if_pos hxy, hxy]
    · rw [if_neg hxy, if_neg hxy]
  valueOf d _ := by simp

end Store

namespace Session

/-- The trail is the same, and the store is kept. -/
structure Kept (w w' : Session A) : Prop where
  trail : w'.trail = w.trail
  store : w.store.Kept w'.store

theorem Kept.refl (w : Session A) : w.Kept w := ⟨rfl, .refl _⟩

theorem Kept.trans {w₁ w₂ w₃ : Session A} (h₁ : w₁.Kept w₂) (h₂ : w₂.Kept w₃) : w₁.Kept w₃ :=
  ⟨h₂.trail.trans h₁.trail, h₁.store.trans h₂.store⟩

theorem Kept.mark {w w' : Session A} (h : w.Kept w') : w'.mark = w.mark := by
  rw [Session.mark, h.trail, Session.mark]

/-! ## Undoing in steps -/

theorem mark_push (s : Store A) (moves : Array (Var × ClassId)) (m : Var × ClassId)
    (check : Bool) : mark ⟨s, ⟨moves.push m, check⟩⟩ = moves.size + 1 := by
  simp [mark, Trail.length]

theorem mark_undo (n : Nat) (w : Session A) : (w.undo n).mark = w.mark - n := by
  induction n generalizing w with
  | zero => rfl
  | succ n ih =>
    rcases w.trail_cases with ⟨s, check, rfl⟩ | ⟨s, moves, x, c, check, rfl⟩
    · rw [undo_empty]
      simp [mark, Trail.length]
    · rw [undo_push, ih, mark_push]
      simp [mark, Trail.length]

theorem undo_add (m n : Nat) (w : Session A) : w.undo (m + n) = (w.undo m).undo n := by
  induction m generalizing w with
  | zero => rw [Nat.zero_add]; rfl
  | succ m ih =>
    rw [Nat.add_right_comm]
    rcases w.trail_cases with ⟨s, check, rfl⟩ | ⟨s, moves, x, c, check, rfl⟩
    · rw [undo_empty, undo_empty, undo_empty]
    · rw [undo_push, undo_push, ih]

theorem undoTo_self (w : Session A) : w.undoTo w.mark = w := by
  rw [undoTo, Nat.sub_self]
  rfl

theorem mark_undoTo (w : Session A) (m : Nat) : (w.undoTo m).mark = min w.mark m := by
  rw [undoTo, mark_undo]
  omega

theorem mark_undoTo_of_le (w : Session A) {m : Nat} (h : m ≤ w.mark) : (w.undoTo m).mark = m := by
  rw [mark_undoTo]
  exact Nat.min_eq_right h

/-- Undoing further back makes an undoing in between superfluous. -/
theorem undoTo_undoTo (w : Session A) {a b : Nat} (h : a ≤ b) :
    (w.undoTo b).undoTo a = w.undoTo a := by
  rw [undoTo, mark_undoTo, undoTo, ← undo_add, undoTo]
  -- the moves after `b` and those between `a` and `b` are all those after `a`
  congr 1
  omega

theorem Kept.undo {w w' : Session A} (h : w.Kept w') (n : Nat) : (w.undo n).Kept (w'.undo n) := by
  induction n generalizing w w' with
  | zero => exact h
  | succ n ih =>
    obtain ⟨s', t'⟩ := w'
    have ht : t' = w.trail := h.trail
    subst ht
    -- both sessions have one trail, so the same move is taken back in both
    rcases w.trail_cases with ⟨s, check, rfl⟩ | ⟨s, moves, x, c, check, rfl⟩
    · rw [undo_empty, undo_empty]
      exact h
    · rw [undo_push, undo_push]
      exact ih ⟨rfl, h.store.move x c⟩

theorem Kept.undoTo {w w' : Session A} (h : w.Kept w') (m : Nat) :
    (w.undoTo m).Kept (w'.undoTo m) := by
  rw [Session.undoTo, Session.undoTo, h.mark]
  exact h.undo _

/-! ## Extending a session -/

/-- Undoing `w` to the mark of `w₀` brings back its trail and keeps its store. -/
structure Extends (w₀ w : Session A) : Prop where
  mark_le : w₀.mark ≤ w.mark
  kept : w₀.Kept (w.undoTo w₀.mark)

theorem Extends.of_kept {w w' : Session A} (h : w.Kept w') : w.Extends w' where
  mark_le := Nat.le_of_eq h.mark.symm
  kept := by
    rw [← h.mark, undoTo_self]
    exact h

theorem Extends.refl (w : Session A) : w.Extends w := .of_kept (.refl w)

theorem Extends.trans {w₀ w₁ w₂ : Session A} (h₁ : w₀.Extends w₁) (h₂ : w₁.Extends w₂) :
    w₀.Extends w₂ where
  mark_le := Nat.le_trans h₁.mark_le h₂.mark_le
  kept := by
    -- on the way to the mark of `w₀` undoing comes past the mark of `w₁`
    rw [← undoTo_undoTo w₂ h₁.mark_le]
    exact h₁.kept.trans (h₂.kept.undoTo _)

theorem Extends.move (w : Session A) (x : Var) (c : ClassId) : w.Extends (w.move x c) where
  mark_le := by
    rw [Session.mark, Session.mark, trail_move]
    simp [Trail.length]
  kept := by
    have hone : (w.move x c).mark - w.mark = 1 := by
      rw [Session.mark, Session.mark, trail_move]
      simp [Trail.length]
    have hback : (w.move x c).undoTo w.mark =
        ⟨(w.store.move x c).move x (w.store.classOf x), w.trail⟩ := by
      rw [Session.undoTo, hone]
      exact undo_push 0 _ w.trail.moves w.trail.occursCheck x (w.store.classOf x)
    rw [hback]
    exact ⟨rfl, .move_back _ x c⟩

theorem Extends.moveAll (w : Session A) (xs : List Var) (c : ClassId) :
    w.Extends (w.moveAll xs c) :=
  moveAll_induction (fun v x _ h => h.trans (.move v x c)) (.refl w)

theorem Extends.gather (w : Session A) (cs : List ClassId) (value : Option (Compound A)) :
    w.Extends (w.gather cs value) := by
  have hnew : w.Extends ⟨(w.store.newJoint value).2, w.trail⟩ :=
    .of_kept ⟨rfl, .newJoint w.store value⟩
  -- the class is not recorded on the trail, but making it keeps the store
  rw [gather_eq]
  exact hnew.trans (.moveAll _ _ _)

/-- Undoing no further than the mark of `w₀` still extends it. -/
theorem Extends.undoTo {w₀ w : Session A} (h : w₀.Extends w) {m : Nat} (hm : w₀.mark ≤ m) :
    w₀.Extends (w.undoTo m) where
  mark_le := by
    rw [mark_undoTo]
    exact Nat.le_min.mpr ⟨h.mark_le, hm⟩
  kept := by
    rw [undoTo_undoTo w hm]
    exact h.kept

/-- Undoing to a mark of before brings back what was there, whatever came after. -/
theorem Extends.kept_undoTo {w w' : Session A} (h : w.Extends w') {m : Nat} (hm : m ≤ w.mark) :
    (w.undoTo m).Kept (w'.undoTo m) := by
  rw [← w'.undoTo_undoTo hm]
  exact h.kept.undoTo m

end Session

/-! ## Unification -/

/-- If the attempt comes to an end, the session it leaves has property `P` after a
    success and `Q` after a failure. -/
def Outcome.Ends (P Q : Session A → Prop) : Outcome A → Prop
  | success w => P w
  | failure _ w => Q w
  | cutOff => True

section ends

variable {L : Var → Prop} {P P' Q : Session A → Prop}

theorem Outcome.Ends.imp {Q' : Session A → Prop} {o : Outcome A} (ho : o.Ends P Q)
    (hP : ∀ w, P w → P' w) (hQ : ∀ w, Q w → Q' w) : o.Ends P' Q' := by
  cases o with
  | success w => exact hP w ho
  | failure e w => exact hQ w ho
  | cutOff => trivial

theorem Outcome.Ends.andThen {o : Outcome A} {next : Session A → Outcome A} (ho : o.Ends P Q)
    (hnext : ∀ w, P w → (next w).Ends P' Q) : (o.andThen next).Ends P' Q := by
  cases o with
  | success w => exact hnext w ho
  | failure e w => exact ho
  | cutOff => trivial

theorem Outcome.Ends.undoingTo {o : Outcome A} {mark : Nat} (ho : o.Ends P Q)
    (hundo : ∀ w, Q w → Q (w.undoTo mark)) : (o.undoingTo mark).Ends P Q := by
  cases o with
  | success w => exact ho
  | failure e w => exact hundo w ho
  | cutOff => trivial

/-- Properties of sessions that unification keeps as long as it works on variables
    in `L`: values lead to no others, gathering different classes of theirs keeps `P`,
    and a failure leaves a session with property `Q` after going back to one with
    property `P`. -/
structure Session.Stable (L : Var → Prop) (P Q : Session A → Prop) : Prop where
  values : ∀ w x c, P w → L x → w.store.value x = some c → c.Within L
  gather : ∀ w (xs : List Var) value, P w → (∀ x ∈ xs, L x) → (xs.map w.store.classOf).Nodup →
    (∀ c, value = some c → c.Within L) → P (w.gather (xs.map w.store.classOf) value)
  fails : ∀ w, P w → Q w
  undoTo : ∀ v w, P v → Q w → Q (w.undoTo v.mark)

/-- A property that is kept whatever is gathered and undone. -/
theorem Session.Stable.everywhere (gather : ∀ w cs value, P w → P (w.gather cs value))
    (undoTo : ∀ v w, P v → P w → P (w.undoTo v.mark)) : Stable (fun _ => True) P P where
  values _ _ _ _ _ _ _ _ := trivial
  gather w _ value hw _ _ _ := gather w _ value hw
  fails _ hw := hw
  undoTo := undoTo

/-- Properties of either kind, together. -/
theorem Session.Stable.and {P' Q' : Session A → Prop} (h : Stable L P Q)
    (h' : Stable (fun _ => True) P' Q') :
    Stable L (fun w => P w ∧ P' w) (fun w => Q w ∧ Q' w) where
  values w x c hw := h.values w x c hw.1
  gather w xs value hw hxs hnodup hvalue :=
    ⟨h.gather w xs value hw.1 hxs hnodup hvalue,
      h'.gather w xs value hw.2 (fun _ _ => trivial) hnodup (fun _ _ _ _ => trivial)⟩
  fails w hw := ⟨h.fails w hw.1, h'.fails w hw.2⟩
  undoTo v w hv hw := ⟨h.undoTo v w hv.1 hw.1, h'.undoTo v w hv.2 hw.2⟩

theorem Session.stable_extends (w₀ : Session A) :
    Stable (fun _ => True) w₀.Extends w₀.Extends :=
  .everywhere (fun _ _ _ h => h.trans (.gather _ _ _)) (fun _ _ hv hw => hw.undoTo hv.mark_le)

theorem Session.nextVar_undo (n : Nat) (w : Session A) :
    (w.undo n).store.nextVar = w.store.nextVar :=
  undo_induction (P := fun v => v.store.nextVar = w.store.nextVar)
    (fun s _ x c _ h => (s.nextVar_move x c).trans h) n rfl

/-- No variable that has been made is lost. -/
theorem Session.Extends.nextVar_le {w w' : Session A} (h : w.Extends w') :
    w.store.nextVar ≤ w'.store.nextVar := by
  have hkept := h.kept.store.nextVar_le
  rwa [Session.undoTo, Session.nextVar_undo] at hkept

theorem Session.occursCheck_undo (n : Nat) (w : Session A) :
    (w.undo n).trail.occursCheck = w.trail.occursCheck :=
  undo_induction (P := fun v => v.trail.occursCheck = w.trail.occursCheck)
    (fun _ _ _ _ _ h => h) n rfl

/-- The number of the next variable and the occurs check are the same. -/
structure Session.SameFrame (w₀ w : Session A) : Prop where
  nextVar : w.store.nextVar = w₀.store.nextVar
  check : w.trail.occursCheck = w₀.trail.occursCheck

/-- Unification changes neither the number of the next variable nor the occurs check. -/
theorem Session.stable_sameFrame (w₀ : Session A) :
    Stable (fun _ => True) w₀.SameFrame w₀.SameFrame :=
  .everywhere
    (fun w cs value h => ⟨(nextVar_gather w cs value).trans h.nextVar,
      (occursCheck_gather w cs value).trans h.check⟩)
    (fun _ w _ h => ⟨(nextVar_undo _ w).trans h.nextVar, (occursCheck_undo _ w).trans h.check⟩)

theorem Session.checkingOccurs_ends (hP : Stable L P Q) {w : Session A} (hw : P w) (n : Nat)
    (x : Var) (c : Compound A) {next : Session A → Outcome A} (hnext : (next w).Ends P Q) :
    (w.checkingOccurs n x c next).Ends P Q := by
  unfold checkingOccurs
  split
  · split
    · trivial
    · exact hnext
    · split
      · trivial
      · exact hP.fails w hw
  · exact hnext

variable {unify : Unifier A}

theorem Session.resolveBy_ends (hP : Stable L P Q)
    (hu : ∀ t u w, t.Within L → u.Within L → P w → (unify t u w).Ends P Q) (n : Nat) {x : Var}
    (hx : L x) {c : Compound A} (hc : c.Within L) {w : Session A} (hw : P w) :
    (w.resolveBy unify n x c).Ends P Q := by
  unfold resolveBy
  split
  · next d hd =>
    exact (hu _ _ w (hP.values w x d hw hx hd) hc hw).undoingTo fun v => hP.undoTo w v hw
  · refine checkingOccurs_ends hP hw n x c (hP.gather w [x] _ hw ?_ (List.nodup_singleton _) ?_)
    · intro y hy
      rw [List.mem_singleton.mp hy]
      exact hx
    · intro d hd
      cases hd
      exact hc

theorem Session.merge_keeps (hP : Stable L P Q) {x y : Var} (hx : L x) (hy : L y)
    {value : Option (Compound A)} (hvalue : ∀ c, value = some c → c.Within L) {w : Session A}
    (hw : P w) : P (w.merge x y value) := by
  unfold merge
  split
  · exact hw
  · next hne =>
    refine hP.gather w [x, y] _ hw (fun z hz => ?_) ?_ hvalue
    · rcases List.mem_pair.mp hz with rfl | rfl
      · exact hx
      · exact hy
    · have hclass : w.store.classOf x ≠ w.store.classOf y := fun e => hne (Store.aliased_iff.mpr e)
      simpa using hclass

theorem Session.bindBy_ends (hP : Stable L P Q)
    (hu : ∀ t u w, t.Within L → u.Within L → P w → (unify t u w).Ends P Q) (n : Nat) {x y : Var}
    (hx : L x) (hy : L y) {w : Session A} (hw : P w) : (w.bindBy unify n x y).Ends P Q := by
  -- the value of a variable in `L` leads to no other variable
  have hsome : ∀ {z c}, L z → w.store.value z = some c →
      ∀ d, some c = some d → d.Within L := by
    intro z c hz hc d hd
    cases hd
    exact hP.values w z c hw hz hc
  unfold bindBy
  split
  · exact hw
  · split
    · exact merge_keeps hP hx hy (fun _ (h : none = some _) => nomatch h) hw
    · next hc _ => exact checkingOccurs_ends hP hw n y _ (merge_keeps hP hx hy (hsome hx hc) hw)
    · next hd => exact checkingOccurs_ends hP hw n x _ (merge_keeps hP hx hy (hsome hy hd) hw)
    · next c d hc hd =>
      -- the values are unified first, and then the classes are merged
      have hcd := hu _ _ w (hsome hx hc c rfl) (hsome hy hd d rfl) hw
      exact (hcd.undoingTo fun v => hP.undoTo w v hw).andThen fun v hv =>
        merge_keeps hP hx hy (hsome hx hc) hv

theorem unifyEach_ends (hu : ∀ t u w, t.Within L → u.Within L → P w → (unify t u w).Ends P Q)
    {ps : List (Term A × Term A)} (hps : ∀ p ∈ ps, p.1.Within L ∧ p.2.Within L)
    {w : Session A} (hw : P w) : (unifyEach unify ps w).Ends P Q := by
  induction ps generalizing w with
  | nil => exact hw
  | cons p ps ih =>
    obtain ⟨⟨h₁, h₂⟩, hrest⟩ := List.forall_mem_cons.mp hps
    -- the first pair keeps the property, and the rest goes on with it
    exact (hu p.1 p.2 w h₁ h₂ hw).andThen fun v hv => ih hrest hv

variable [DecidableEq A]

/-- What single changes to variables in `L` keep, unification of terms in `L` keeps. -/
theorem unify_ends (hP : Session.Stable L P Q) (n : Nat) (t u : Term A) (w : Session A)
    (ht : t.Within L) (hu : u.Within L) (hw : P w) : (Horn.unify n t u w).Ends P Q := by
  induction n generalizing t u w with
  | zero => trivial
  | succ n ih =>
    cases t with
    | var x =>
      cases u with
      | var y => exact Session.bindBy_ends hP ih n (Term.within_var ht) (Term.within_var hu) hw
      | app g bs => exact Session.resolveBy_ends hP ih n (c := ⟨g, bs⟩) (Term.within_var ht) hu hw
    | app f as =>
      cases u with
      | var y => exact Session.resolveBy_ends hP ih n (c := ⟨f, as⟩) (Term.within_var hu) ht hw
      | app g bs =>
        rw [Horn.unify]
        split
        · exact hP.fails w hw
        · split
          · exact hP.fails w hw
          · refine unifyEach_ends ih (fun p hp => ?_) hw
            exact ⟨ht.arg (List.of_mem_zip hp).1, hu.arg (List.of_mem_zip hp).2⟩

/-- What is kept whatever is gathered and undone, unification keeps. -/
theorem unify_keeps (hP : Session.Stable (fun _ => True) P P) (n : Nat) (t u : Term A)
    {w : Session A} (hw : P w) : (Horn.unify n t u w).Ends P P :=
  unify_ends hP n t u w (fun _ _ => trivial) (fun _ _ => trivial) hw

end ends

/-! ## Copying -/

theorem Copying.nextVar_rename_le (p : Copying) (c : ClassId) :
    p.nextVar ≤ (p.rename c).2.nextVar := by
  unfold Copying.rename
  split
  · exact Nat.le_refl _
  · exact Nat.le_succ _

section keeps

variable {P : Copying → Prop}

theorem copyEach_keeps {copy : Term A → Copying → Option (Term A × Copying)}
    (hcopy : ∀ t p r, copy t p = some r → P p → P r.2) {ts : List (Term A)} {p : Copying}
    {r : List (Term A) × Copying} (h : copyEach copy ts p = some r) (hp : P p) : P r.2 := by
  induction ts generalizing p r with
  | nil =>
    cases h
    exact hp
  | cons t ts ih =>
    obtain ⟨t', q, ts', q', ht, hts, rfl⟩ := copyEach_cons_eq_some_iff.mp h
    have hrest := ih hts (hcopy t p _ ht hp)
    exact hrest

/-- What is kept whenever a class is given a variable is kept by a copy. -/
theorem Store.copyTerm_keeps (s : Store A) (hP : ∀ p c, P p → P (Copying.rename p c).2) (n : Nat)
    {t : Term A} {p : Copying} {r : Term A × Copying} (h : s.copyTerm n t p = some r)
    (hp : P p) : P r.2 := by
  induction n generalizing t p r with
  | zero => cases h
  | succ n ih =>
    have hn : ∀ t p r, s.copyTerm n t p = some r → P p → P r.2 := fun t p r h hp => ih h hp
    cases t with
    | app f as =>
      obtain ⟨q, hq, rfl⟩ := Option.map_eq_some_iff.mp h
      exact copyEach_keeps hn hq hp
    | var x =>
      rw [copyTerm] at h
      split at h
      · cases h
        exact hP p (s.classOf x) hp
      · obtain ⟨q, hq, rfl⟩ := Option.map_eq_some_iff.mp h
        exact copyEach_keeps hn hq hp

end keeps

theorem copyEach_nextVar_le {copy : Term A → Copying → Option (Term A × Copying)}
    (hcopy : ∀ t p r, copy t p = some r → p.nextVar ≤ r.2.nextVar) {ts : List (Term A)}
    {p : Copying} {r : List (Term A) × Copying} (h : copyEach copy ts p = some r) :
    p.nextVar ≤ r.2.nextVar :=
  copyEach_keeps (P := fun q => p.nextVar ≤ q.nextVar)
    (fun t q r hr hq => Nat.le_trans hq (hcopy t q r hr)) h (Nat.le_refl _)

namespace Store

theorem copyTerm_nextVar_le (s : Store A) (n : Nat) {t : Term A} {p : Copying}
    {r : Term A × Copying} (h : s.copyTerm n t p = some r) : p.nextVar ≤ r.2.nextVar :=
  s.copyTerm_keeps (P := fun q => p.nextVar ≤ q.nextVar)
    (fun q c hq => Nat.le_trans hq (q.nextVar_rename_le c)) n h (Nat.le_refl _)

/-- A copy changes nothing but the number of the next variable. -/
theorem copyCompound_store {s s' : Store A} {n : Nat} {c c' : Compound A} {r r' : Renaming}
    (h : s.copyCompound n c r = some (c', r', s')) :
    ∃ m, s.nextVar ≤ m ∧ s' = { s with nextVar := m } := by
  obtain ⟨⟨_, p⟩, hp, he⟩ := Option.map_eq_some_iff.mp h
  obtain ⟨⟨_, q⟩, hq, hpq⟩ := Option.map_eq_some_iff.mp hp
  obtain rfl : q = p := congrArg Prod.snd hpq
  cases he
  exact ⟨q.nextVar, copyEach_nextVar_le (fun t p r => s.copyTerm_nextVar_le n) hq, rfl⟩

theorem copyCompounds_store {s s' : Store A} {n : Nat} {cs cs' : List (Compound A)}
    {r r' : Renaming} (h : s.copyCompounds n cs r = some (cs', r', s')) :
    ∃ m, s.nextVar ≤ m ∧ s' = { s with nextVar := m } := by
  induction cs generalizing s r cs' r' s' with
  | nil =>
    cases h
    exact ⟨s.nextVar, Nat.le_refl _, rfl⟩
  | cons c cs ih =>
    rw [copyCompounds] at h
    split at h
    · cases h
    · next c₁ r₁ s₁ h₁ =>
      split at h
      · cases h
      · next cs₂ r₂ s₂ h₂ =>
        cases h
        obtain ⟨m₁, hm₁, rfl⟩ := copyCompound_store h₁
        obtain ⟨m₂, hm₂, rfl⟩ := ih h₂
        exact ⟨m₂, Nat.le_trans hm₁ hm₂, rfl⟩

end Store

end Horn
