import Horn.Proofs.InScope
import Horn.Proofs.Refinement

/-! # What an attempt spares

    Let `O` be some of the variables that have been made in store `s₀`.  A session *spares*
    them if it has left each of them in its class, with the value of that class, and no
    other variable that had been made by then has joined one of these classes; and if
    undoing cannot change that either.

    The goals of a search *avoid* `O` if they are over some closed set that is apart from it
    and contains all variables not made yet.  An attempt for such goals spares `O`, whether
    it succeeds or fails, and the goals that it leads to avoid `O` again: the copies of head
    and body are over new variables only, whatever the clause mentions.

    * `Session.Spares.gather`, `Session.stable_spares`: single changes, and unification.
    * `Store.Avoids.kept`: whatever is kept goes on avoiding.
    * `Session.Through`: what a unification goes through, and not only what it leaves.
    * `tryClause_spares`: an attempt. -/

namespace Horn

universe u

variable {A : Type u}

/-! ## Sparing variables -/

/-- In `s₀` it was the class of no variable of `O`. -/
def ClassId.Foreign (s₀ : Store A) (O : Var → Prop) (c : ClassId) : Prop :=
  ∀ x, O x → s₀.classOf x ≠ c

/-- Variables of `O` are in their classes of before, without new company among the variables
    of before, and classes of before hold what they held. -/
structure Store.Spares (s₀ : Store A) (O : Var → Prop) (s : Store A) : Prop where
  classOf : ∀ x, O x → s.classOf x = s₀.classOf x
  others : ∀ y, s₀.Born y → ¬ O y → (s.classOf y).Foreign s₀ O
  valueOf : ∀ c : ClassId, c.Made s₀.nextJoint → s.valueOf c = s₀.valueOf c

/-- So is the store, and undoing moves no variable of `O` and none into its class. -/
structure Session.Spares (s₀ : Store A) (O : Var → Prop) (w : Session A) : Prop where
  store : s₀.Spares O w.store
  trail : ∀ m ∈ w.trail.moves, ¬ O m.1 ∧ m.2.Foreign s₀ O
  nextJoint_le : s₀.nextJoint ≤ w.store.nextJoint

section spares

variable {s₀ s : Store A} {O : Var → Prop} {w : Session A}

theorem Store.Spares.move (h : s₀.Spares O s) {x : Var} (hx : ¬ O x) {c : ClassId}
    (hc : c.Foreign s₀ O) : s₀.Spares O (s.move x c) where
  classOf y hy := by
    have hne : x ≠ y := fun he => hx (he ▸ hy)
    rw [classOf_move, if_neg hne]
    exact h.classOf y hy
  others y hy hO := by
    rw [classOf_move]
    by_cases hxy : x = y
    · rw [if_pos hxy]
      exact hc
    · rw [if_neg hxy]
      exact h.others y hy hO
  valueOf d hd := by
    rw [valueOf_move]
    exact h.valueOf d hd

/-- How many variables there are makes no difference. -/
theorem Store.Spares.setNext (h : s₀.Spares O s) (k : Nat) : s₀.Spares O (s.setNext k) where
  classOf := h.classOf
  others := h.others
  valueOf c hc := by
    rw [valueOf_setNext]
    exact h.valueOf c hc

/-- Variables of `O` denote what they denoted. -/
theorem Store.Spares.value (h : s₀.Spares O s) (hs₀ : s₀.Consistent) {x : Var} (hx : O x) :
    s.value x = s₀.value x := by
  rw [Store.value, h.classOf x hx, h.valueOf _ (hs₀.made x), Store.value]

/-- Variables of `O` are aliased with those variables of before that they were aliased with. -/
theorem Store.Spares.classOf_eq_iff (h : s₀.Spares O s)
    (hO : ∀ x y, O x → s₀.classOf y = s₀.classOf x → O y) {x y : Var} (hx : O x)
    (hy : s₀.Born y) :
    s.classOf x = s.classOf y ↔ s₀.classOf x = s₀.classOf y := by
  rw [h.classOf x hx]
  by_cases hOy : O y
  · rw [h.classOf y hOy]
  · constructor
    · intro he
      exact absurd he (h.others y hy hOy x hx)
    · intro he
      exact absurd (hO x y hx he.symm) hOy

namespace Session

theorem Spares.setNext (h : w.Spares s₀ O) (k : Nat) : (w.setNext k).Spares s₀ O where
  store := h.store.setNext k
  trail := h.trail
  nextJoint_le := h.nextJoint_le

/-- Nothing has been recorded on a new trail. -/
theorem Spares.start (h : s₀.Spares O s₀) (check : Bool) : Spares s₀ O ⟨s₀, .start check⟩ where
  store := h
  trail m hm := by simp [Trail.start] at hm
  nextJoint_le := Nat.le_refl _

/-- A variable that is not in `O` moves from a class to another, neither of them one of `O`. -/
theorem Spares.move (h : w.Spares s₀ O) {x : Var} (hx : ¬ O x)
    (hfrom : (w.store.classOf x).Foreign s₀ O) {c : ClassId} (hto : c.Foreign s₀ O) :
    (w.move x c).Spares s₀ O where
  store := h.store.move hx hto
  trail m hm := by
    rw [trail_move, Array.mem_push] at hm
    rcases hm with hm | rfl
    · exact h.trail m hm
    · exact ⟨hx, hfrom⟩
  nextJoint_le := by
    rw [store_move, Store.nextJoint_move]
    exact h.nextJoint_le

theorem Spares.undo (h : w.Spares s₀ O) (k : Nat) : (w.undo k).Spares s₀ O := by
  refine undo_induction (P := fun v => v.Spares s₀ O) ?_ k h
  intro s moves x c check hw
  obtain ⟨hx, hc⟩ := hw.trail (x, c) (Array.mem_push_self ..)
  refine ⟨hw.store.move hx hc, fun m hm => hw.trail m (Array.mem_push_of_mem _ hm), ?_⟩
  rw [Store.nextJoint_move]
  exact hw.nextJoint_le

theorem Spares.undoTo (h : w.Spares s₀ O) (mark : Nat) : (w.undoTo mark).Spares s₀ O := h.undo _

/-- A search goes on with any store that is left as it was found. -/
theorem Spares.asFound {s s' : Store A} {t : Trail} (h : Spares s₀ O ⟨s, t⟩)
    (hO : ∀ x, O x → s₀.Born x) (hle : s₀.nextVar ≤ s.nextVar) (hs : s.AsFound s') :
    Spares s₀ O ⟨s', t⟩ where
  store := {
    classOf := fun x hx => by
      rw [hs.kept.classOf x (Nat.lt_of_lt_of_le (hO x hx) hle)]
      exact h.store.classOf x hx
    others := fun y hy hOy => by
      rw [hs.kept.classOf y (Nat.lt_of_lt_of_le hy hle)]
      exact h.store.others y hy hOy
    valueOf := fun c hc => by
      rw [hs.kept.valueOf c (hc.mono h.nextJoint_le)]
      exact h.store.valueOf c hc }
  trail := h.trail
  nextJoint_le := Nat.le_trans h.nextJoint_le hs.kept.nextJoint_le

/-- To gather classes without variables of `O` spares these. -/
theorem Spares.gather (h : w.Spares s₀ O) (hs₀ : s₀.Consistent) (hw : w.Consistent)
    {cs : List ClassId} (hcs : ∀ y, w.store.classOf y ∈ cs → ¬ O y)
    (value : Option (Compound A)) : (w.gather cs value).Spares s₀ O := by
  -- the new class has not been made in `s₀`
  have hnew : (ClassId.joint w.store.nextJoint).Foreign s₀ O := fun x _ =>
    ((hs₀.made x).mono h.nextJoint_le).ne_joint
  have hold : ∀ y, w.store.classOf y ∈ cs → (w.store.classOf y).Foreign s₀ O := by
    intro y hy x hx he
    rw [← he, ← h.store.classOf x hx] at hy
    exact hcs x hy hx
  let first : Session A := ⟨(w.store.newJoint value).2, w.trail⟩
  have hmem : ∀ y ∈ cs.flatMap (w.store.newJoint value).2.members, w.store.classOf y ∈ cs := by
    intro y hy
    obtain ⟨c, hc, hyc⟩ := List.mem_flatMap.mp hy
    rw [(hw.store.newJoint value).mem_members, Store.classOf_newJoint] at hyc
    rw [hyc]
    exact hc
  have hfirst : first.Spares s₀ O := by
    refine ⟨⟨h.store.classOf, h.store.others, fun c hc => ?_⟩, h.trail,
      Nat.le_succ_of_le h.nextJoint_le⟩
    rw [Store.valueOf_newJoint, if_neg (hc.mono h.nextJoint_le).ne_joint.symm]
    exact h.store.valueOf c hc
  rw [gather_eq]
  -- those that are still to be moved are in classes without variables of `O`
  refine (moveAll_induction (P := fun v => v.Spares s₀ O ∧
    ∀ y ∈ cs.flatMap (w.store.newJoint value).2.members, (v.store.classOf y).Foreign s₀ O)
    (fun v y hy hv => ⟨?_, ?_⟩) ⟨hfirst, fun y hy => hold y (hmem y hy)⟩).1
  · exact hv.1.move (hcs y (hmem y hy)) (hv.2 y hy) hnew
  · intro z hz
    rw [store_move, Store.classOf_move]
    split
    · exact hnew
    · exact hv.2 z hz

end Session

end spares

/-! ## Avoiding variables -/

/-- The set `L` is closed, it contains all variables not made yet, and none of `O`. -/
structure Store.Avoids (O L : Var → Prop) (s : Store A) : Prop where
  closed : s.Closed L
  later : ∀ x : Var, s.nextVar ≤ x.id → L x
  apart : ∀ x, O x → ¬ L x

/-- The goals are over variables that have been made and avoid `O`. -/
def Search.Avoiding (O : Var → Prop) (s : Store A) (goals : List (Search.Goal A)) : Prop :=
  ∃ L, s.Avoids O L ∧ ∀ g ∈ goals, g.compound.Within fun x => s.Born x ∧ L x

section avoids

variable {s₀ s s' : Store A} {O L : Var → Prop} {w w' : Session A}

/-- In a store that keeps another one there may be more variables in the classes of `L`. -/
theorem Store.Avoids.kept (h : s.Avoids O L) (hO : ∀ x, O x → s.Born x) (hs : s.Consistent)
    (hscope : s.Scoped s.nextVar) (hkept : s.Kept s') (hscope' : s'.Scoped s'.nextVar) :
    ∃ L', s'.Avoids O L' ∧ ∀ x, s.Born x → L x → L' x := by
  refine ⟨fun y => (∃ x, s.Born x ∧ L x ∧ s'.classOf y = s'.classOf x) ∨ s'.nextVar ≤ y.id,
    ⟨⟨?_, ?_⟩, fun x hx => .inr hx, ?_⟩, fun x hx hLx => .inl ⟨x, hx, hLx, rfl⟩⟩
  · rintro y z (⟨x, hx, hLx, hyx⟩ | hy) hzy
    · exact .inl ⟨x, hx, hLx, hzy.trans hyx⟩
    · rw [hscope'.eq_of_classOf_eq hy hzy]
      exact .inr hy
  · rintro y c (⟨x, hx, hLx, hyx⟩ | hy) hc
    · rw [value_eq_of_classOf_eq hyx, hkept.value hs hx] at hc
      intro z hz
      have hborn : s.Born z := hscope.values (s.classOf x) c hc z hz
      exact .inl ⟨z, hborn, h.closed.values x c hLx hc z hz, rfl⟩
    · rw [hscope'.value_unborn hy] at hc
      cases hc
  · rintro o ho (⟨x, hx, hLx, hox⟩ | hlater)
    · rw [hkept.classOf o (hO o ho), hkept.classOf x hx] at hox
      exact h.apart o ho (h.closed.classes x o hLx hox)
    · exact Nat.not_le_of_lt (hkept.born (hO o ho)) hlater

theorem Search.Avoiding.kept {goals : List (Goal A)} (h : Avoiding O s goals)
    (hO : ∀ x, O x → s.Born x) (hs : s.Consistent) (hscope : s.Scoped s.nextVar)
    (hkept : s.Kept s') (hscope' : s'.Scoped s'.nextVar) : Avoiding O s' goals := by
  obtain ⟨L, hL, hgoals⟩ := h
  obtain ⟨L', hL', hold⟩ := hL.kept hO hs hscope hkept hscope'
  refine ⟨L', hL', fun g hg x hx => ?_⟩
  obtain ⟨hborn, hLx⟩ := hgoals g hg x hx
  exact ⟨hkept.born hborn, hold x hborn hLx⟩

/-- Unification of terms that avoid `O` spares it, whether it succeeds or fails. -/
theorem Session.stable_spares (hs₀ : s₀.Consistent) (hL : ∀ x, O x → ¬ L x) (w₀ : Session A) :
    Stable L (fun w => w₀.Confined L w ∧ w.Spares s₀ O) (fun w => w.Spares s₀ O) where
  values _ _ _ hw hx hv := hw.1.closed.values _ _ hx hv
  gather w xs value hw hxs _ hvalue := by
    refine ⟨hw.1.gather hxs hvalue, hw.2.gather hs₀ hw.1.consistent (fun y hy hO => ?_) value⟩
    -- who shares a class with a variable in `L` is in `L`
    obtain ⟨x, hx, hxy⟩ := List.mem_map.mp hy
    exact hL y hO (hw.1.closed.classes x y (hxs x hx) hxy.symm)
  fails _ hw := hw.2
  undoTo v _ _ hw := hw.undoTo v.mark

end avoids

/-! ## Inside a unification -/

section through

variable [DecidableEq A]

/-- Among these are all sessions that the unification of two terms goes through, also if it
    never comes to an end: where it begins, where it ends, what it goes through in the
    values of variables and in arguments, and what is left when some of the newest moves
    have not been made yet or have been taken back. -/
inductive Session.Through : Session A → Term A → Term A → Session A → Prop where
  | start {w : Session A} {t u : Term A} : Through w t u w
  | success {n : Nat} {w v : Session A} {t u : Term A} :
      unify n t u w = .success v → Through w t u v
  | failure {n : Nat} {w v : Session A} {t u : Term A} {e : Clash A} :
      unify n t u w = .failure e v → Through w t u v
  | undo {w v : Session A} {t u : Term A} (k : Nat) :
      Through w t u v → Through w t u (v.undo k)
  | valueLeft {w v : Session A} {x : Var} {c d : Compound A} :
      w.store.value x = some d → Through w d.toTerm c.toTerm v → Through w (.var x) c.toTerm v
  | valueRight {w v : Session A} {x : Var} {c d : Compound A} :
      w.store.value x = some d → Through w d.toTerm c.toTerm v → Through w c.toTerm (.var x) v
  | values {w v : Session A} {x y : Var} {c d : Compound A} :
      w.store.value x = some c → w.store.value y = some d → Through w c.toTerm d.toTerm v →
        Through w (.var x) (.var y) v
  | args {n : Nat} {w w' v : Session A} {f : A} {as bs : List (Term A)}
      {before after : List (Term A × Term A)} {p : Term A × Term A} :
      as.zip bs = before ++ p :: after → unifyEach (unify n) before w = .success w' →
        Through w' p.1 p.2 v → Through w (.app f as) (.app f bs) v

/-- What unification keeps it keeps all the way through. -/
theorem Session.Through.keeps {L : Var → Prop} {P Q : Session A → Prop} (hP : Stable L P Q)
    (hundo : ∀ w k, Q w → Q (w.undo k)) {w v : Session A} {t u : Term A} (h : w.Through t u v)
    (ht : t.Within L) (hu : u.Within L) (hw : P w) : Q v := by
  induction h with
  | start => exact hP.fails _ hw
  | @success n w v t u h =>
    have hends := unify_ends hP n t u w ht hu hw
    rw [h] at hends
    exact hP.fails v hends
  | @failure n w v t u e h =>
    have hends := unify_ends hP n t u w ht hu hw
    rw [h] at hends
    exact hends
  | undo k _ ih => exact hundo _ k (ih ht hu hw)
  | valueLeft hd _ ih => exact ih (hP.values _ _ _ hw (Term.within_var ht) hd) hu hw
  | valueRight hd _ ih => exact ih (hP.values _ _ _ hw (Term.within_var hu) hd) ht hw
  | values hc hd _ ih =>
    exact ih (hP.values _ _ _ hw (Term.within_var ht) hc)
      (hP.values _ _ _ hw (Term.within_var hu) hd) hw
  | @args n w w' v f as bs before after p hzip hbefore _ ih =>
    have hpairs : ∀ q ∈ before ++ p :: after, q.1.Within L ∧ q.2.Within L := by
      intro q hq
      rw [← hzip] at hq
      exact ⟨ht.arg (List.of_mem_zip hq).1, hu.arg (List.of_mem_zip hq).2⟩
    -- the pairs before have been unified
    have hends := unifyEach_ends (unify_ends hP n)
      (fun q hq => hpairs q (List.mem_append_left _ hq)) hw
    rw [hbefore] at hends
    obtain ⟨hp₁, hp₂⟩ := hpairs p (List.mem_append_right _ (List.mem_cons_self ..))
    exact ih hp₁ hp₂ hends

end through

/-! ## Attempts -/

namespace Search

variable [DecidableEq A] {s₀ : Store A} {O L : Var → Prop} {w w' : Session A} {n : Nat}
  {goal : Compound A} {c : Clause A}

omit [DecidableEq A] in
/-- The copy of a head is over new variables. -/
theorem within_of_copyGoal {s : Store A} (hL : s.Avoids O L) {head : Compound A} {p : Copying}
    (h : copyGoal (s.copyTerm n) c.head ⟨.empty, s.nextVar⟩ = some (head, p)) : head.Within L := by
  obtain ⟨hfresh, -⟩ := s.copyGoal_fresh n h (Copying.since_empty s.nextVar)
  exact fun x hx => hL.later x (hfresh x hx).1

/-- Whatever comes of it, an attempt spares `O`, and the body avoids it. -/
theorem tryClause_spares (hs₀ : s₀.Consistent) (hw : w.Consistent) (hspares : w.Spares s₀ O)
    (hL : w.store.Avoids O L) (hgoal : goal.Within L) {r : Option (List (Compound A))}
    (h : tryClause n goal c w = some (w', r)) :
    w'.Spares s₀ O ∧ ∀ body, r = some body →
      w'.store.Avoids O L ∧ ∀ g ∈ body, g.Within L := by
  obtain ⟨head, p, hhead, htried⟩ := tryClause_cases h
  obtain ⟨-, hsince⟩ := w.store.copyGoal_fresh n hhead (Copying.since_empty w.store.nextVar)
  have hu := unify_ends (Session.stable_spares hs₀ hL.apart w) n goal.toTerm head.toTerm w hgoal
    (within_of_copyGoal hL hhead) ⟨.refl hw hL.closed, hspares⟩
  rcases htried with ⟨e, v, ho, rfl, rfl⟩ | ⟨v, body, q, ho, hbody, rfl, rfl⟩
  · rw [ho] at hu
    have hv : v.Spares s₀ O := hu
    exact ⟨hv.setNext _, fun _ he => nomatch he⟩
  · rw [ho] at hu
    obtain ⟨hconfined, hv⟩ := hu
    obtain ⟨hnew, -, hle⟩ := v.store.copyGoals_fresh n hbody hsince
    refine ⟨hv.setNext _, fun _ he => ?_⟩
    cases he
    refine ⟨⟨hconfined.closed.setNext _, fun x hx => hL.later x ?_, hL.apart⟩,
      fun g hg x hx => hL.later x (hnew g hg x hx).1⟩
    exact Nat.le_trans (Nat.le_trans hsince.le hle) hx

end Search

end Horn
