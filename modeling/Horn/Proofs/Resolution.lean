import Horn.Proofs.Attempts
import Horn.Proofs.CopyLooks
import Horn.Proofs.MostGeneral
import Horn.Proofs.Scope

/-! # A step of resolution, under substitutions

    Resolving a goal with a clause replaces the goal by the body of a copy of the
    clause.  What that means is said by the substitutions that solve the stores before
    and after.  A copy under one substitution is the original under another, where the
    variable that stands for a class in the copy is given what the class is given:
    `copyGoals_subst`.

    * A step is *sound* (`headFirst_sound`): a solution of the store after it solves the
      one before it, and makes the goal the head of an instance of the clause, whose
      body is what the new goals become.
    * A step *lifts* (`headFirst_lifts`): if a solution of the store makes the goal the
      head of an instance of the clause, then the step is taken, and the solution
      extends to one of the store after it, which gives the new goals the body of that
      instance. -/

namespace Horn

universe u

variable {A : Type u}

/-! ## Copies under substitutions -/

/-- The substitution `θ'` gives what stands for an unbound class what `θ` gives the
    class. -/
def Copying.Reads (p : Copying) (s : Store A) (θ θ' : Var → Term A) : Prop :=
  ∀ x y, s.value x = none → p.images.image (s.classOf x) = some y → θ' y = θ x

section copies

variable {s : Store A} {θ θ' : Var → Term A} {p p' : Copying}

theorem Copying.Reads.of_grows (h : p'.Reads s θ θ') (hp : p.Grows p') : p.Reads s θ θ' := by
  intro x y hx hy
  exact h x y hx (hp.old _ y hy)

theorem copyEach_subst {copy : Term A → Copying → Option (Term A × Copying)}
    (hcopies : ∀ t p t' p', copy t p = some (t', p') → Copies s [t] [t'] p p')
    (hcopy : ∀ t p t' p', copy t p = some (t', p') → p'.Reads s θ θ' → t'.subst θ' = t.subst θ)
    {ts ts' : List (Term A)} (h : copyEach copy ts p = some (ts', p')) (hread : p'.Reads s θ θ') :
    ts'.map (Term.subst θ') = ts.map (Term.subst θ) := by
  induction ts generalizing p ts' with
  | nil =>
    cases h
    rfl
  | cons t ts ih =>
    obtain ⟨t', q, ts', q', ht, hts, he⟩ := copyEach_cons_eq_some_iff.mp h
    cases he
    -- what stands for a class after the first copy still does after the others
    have hgrows : q.Grows p' := (copyEach_copies hcopies hts).grows
    have hfirst : t'.subst θ' = t.subst θ := hcopy t p t' q ht (hread.of_grows hgrows)
    rw [List.map_cons, List.map_cons, hfirst, ih hts]

/-- A copy under `θ'` is what was copied, under `θ`. -/
theorem copyTerm_subst (hθ : s.Solves θ) (n : Nat) (t : Term A) (p : Copying) (t' : Term A)
    (p' : Copying) (h : s.copyTerm n t p = some (t', p')) (hread : p'.Reads s θ θ') :
    t'.subst θ' = t.subst θ := by
  induction n generalizing t p t' p' with
  | zero => cases h
  | succ n ih =>
    cases t with
    | app f as =>
      obtain ⟨⟨as', q⟩, hq, he⟩ := Option.map_eq_some_iff.mp h
      cases he
      have hargs := copyEach_subst (copyTerm_copies n) ih hq hread
      rw [Term.subst_app, Term.subst_app, hargs]
    | var x =>
      rw [Store.copyTerm] at h
      cases hx : s.value x with
      | none =>
        rw [hx] at h
        cases h
        exact hread x _ hx (p.rename_self (s.classOf x))
      | some c =>
        rw [hx] at h
        obtain ⟨⟨as', q⟩, hq, he⟩ := Option.map_eq_some_iff.mp h
        cases he
        have hargs := copyEach_subst (copyTerm_copies n) ih hq hread
        rw [Term.subst_app, hargs, Term.subst_var, hθ.bound x c hx, Compound.toTerm,
          Term.subst_app]

theorem copyGoal_subst (hθ : s.Solves θ) {n : Nat} {c c' : Compound A}
    (h : copyGoal (s.copyTerm n) c p = some (c', p')) (hread : p'.Reads s θ θ') :
    c'.toTerm.subst θ' = c.toTerm.subst θ :=
  copyTerm_subst hθ (n + 1) _ _ _ _ (Store.copyTerm_of_copyGoal h) hread

theorem copyGoals_subst (hθ : s.Solves θ) {n : Nat} {cs cs' : List (Compound A)}
    (h : copyGoals (s.copyTerm n) cs p = some (cs', p')) (hread : p'.Reads s θ θ') :
    cs'.map (fun c => c.toTerm.subst θ') = cs.map (fun c => c.toTerm.subst θ) := by
  have heach := copyEach_subst (copyTerm_copies (n + 1)) (copyTerm_subst hθ (n + 1))
    (Store.copyEach_of_copyGoals h) hread
  rwa [List.map_map, List.map_map] at heach

/-! ### Reading a copy back, and ahead -/

/-- Whatever the variables of a copy are given, there is a solution that gives it to the
    classes they stand for. -/
theorem Store.Acyclic.exists_reads (hs : s.Acyclic) (p : Copying) (θ' : Var → Term A) :
    ∃ θ, s.Solves θ ∧ p.Reads s θ θ' := by
  let τ (x : Var) : Term A := ((p.images.image (s.classOf x)).map θ').getD (.var ⟨0⟩)
  obtain ⟨θ, hθ, hunbound⟩ := hs.exists_solves_extending τ fun x y hxy => by
    show Option.getD _ _ = Option.getD _ _
    rw [hxy]
  refine ⟨θ, hθ, fun x y hx hy => ?_⟩
  rw [hunbound x hx]
  show θ' y = Option.getD _ _
  rw [hy]
  rfl

/-- What is given to the variables that had been made can be extended to those of a copy,
    so that these are given what a solution gives the classes they stand for. -/
theorem Copying.Since.exists_reads {a : Nat} (hsince : p.Since a) (hproper : p.Proper)
    {θm : Var → Term A} (hθm : s.Solves θm) (θ : Var → Term A) :
    ∃ θ' : Var → Term A, (∀ y : Var, y.id < a → θ' y = θ y) ∧ p.Reads s θm θ' := by
  classical
  let θ' (y : Var) : Term A :=
    if y.id < a then θ y
    else if h : ∃ x, p.images.image (s.classOf x) = some y then θm h.choose else .var ⟨0⟩
  refine ⟨θ', fun y hy => if_pos hy, fun x y _ hy => ?_⟩
  have hold : ¬ y.id < a := Nat.not_lt.mpr (hsince.image _ y hy).1
  have hex : ∃ z, p.images.image (s.classOf z) = some y := ⟨x, hy⟩
  -- no other class has the variable `y`
  have hclass : s.classOf hex.choose = s.classOf x :=
    hproper.injective _ _ y hex.choose_spec hy
  show (if y.id < a then _ else _) = _
  rw [if_neg hold, dif_pos hex]
  exact hθm.joined _ _ hclass

end copies

/-! ## Solutions and variables not made yet -/

theorem Store.solves_setNext {s : Store A} {m : Nat} {θ : Var → Term A} :
    (s.setNext m).Solves θ ↔ s.Solves θ := by
  constructor
  · intro h
    exact ⟨h.joined, fun x c hx => h.bound x c (by rw [Store.value_setNext]; exact hx)⟩
  · intro h
    exact ⟨h.joined, fun x c hx => h.bound x c (by rw [← s.value_setNext m]; exact hx)⟩

theorem Session.Ready.setNext {w : Session A} (h : w.Ready) (m : Nat) : (w.setNext m).Ready where
  consistent := ⟨h.consistent.store.setNextVar m, h.consistent.trail⟩
  acyclic := by
    obtain ⟨θ, hθ⟩ := h.acyclic.exists_solution
    exact (Store.solves_setNext.mpr hθ).acyclic
  check := h.check

/-- What is given to variables not made yet makes no difference to a solution. -/
theorem Store.Scoped.solves_congr {n : Nat} {s : Store A} (hs : s.Scoped n)
    {θ θ' : Var → Term A} (hθ : s.Solves θ) (heq : ∀ x : Var, x.id < n → θ' x = θ x) :
    s.Solves θ' where
  joined x y hxy := by
    by_cases hx : x.id < n
    · by_cases hy : y.id < n
      · rw [heq x hx, heq y hy]
        exact hθ.joined x y hxy
      · rw [hs.eq_of_classOf_eq (Nat.le_of_not_lt hy) hxy]
    · rw [hs.eq_of_classOf_eq (Nat.le_of_not_lt hx) hxy.symm]
  bound x c hx := by
    have hborn : x.id < n := by
      refine Nat.lt_of_not_le fun hle => ?_
      rw [hs.value_unborn hle] at hx
      cases hx
    -- a value mentions only variables that have been made
    have hc : c.toTerm.subst θ' = c.toTerm.subst θ :=
      Term.fold_congr fun y hy => heq y (hs.values _ c hx y hy)
    rw [heq x hborn, hc]
    exact hθ.bound x c hx

namespace Search

/-! ## The step -/

variable [DecidableEq A]

section step

variable {check : Bool} {n : Nat} {goal : Compound A} {c : Clause A} {s s' : Store A}
  {gs : List (Compound A)}

/-- **A step is sound.** -/
theorem headFirst_sound (hs : Session.Ready ⟨s, .start check⟩)
    (h : headFirst check n goal c s = some (some (gs, s'))) :
    Session.Ready ⟨s', .start check⟩ ∧ ∀ θ', s'.Solves θ' → s.Solves θ' ∧ ∃ θ, s.Solves θ ∧
      goal.toTerm.subst θ' = c.head.toTerm.subst θ ∧
      gs.map (fun g => g.toTerm.subst θ') = c.body.map (fun b => b.toTerm.subst θ) := by
  obtain ⟨r, q, w, hr, hu, hq, rfl, rfl⟩ := headFirst_eq_body h
  have hsolved := unify_solved n _ _ _ w hs hu
  refine ⟨?_, fun θ' hθ' => ?_⟩
  · have hw : Session.Ready ⟨w.store, .start check⟩ :=
      ⟨Session.consistent_start hsolved.ready.consistent.store check, hsolved.ready.acyclic,
        hs.check⟩
    exact hw.setNext _
  · obtain ⟨hold, heq⟩ := (hsolved.solves θ').mp (Store.solves_setNext.mp hθ')
    -- the clause is given what its copy has become
    obtain ⟨θ, hθ, hread⟩ := hs.acyclic.exists_reads q.2 θ'
    have hhead := copyGoal_subst hθ hr (hread.of_grows (copyGoals_copies hq).grows)
    exact ⟨hold, θ, hθ, heq.trans hhead, copyGoals_subst hθ hq hread⟩

/-- An attempt that is not cut off finds the unifier that exists. -/
theorem unify_eq_success {k : Nat} {t u : Term A} {w w' : Session A}
    (hn : unify n t u w ≠ .cutOff) (hk : unify k t u w = .success w') :
    unify n t u w = .success w' :=
  (unify_eq_of_ends hn (by rw [hk]; exact nofun)).trans hk

/-- **A step lifts.** -/
theorem headFirst_lifts (hs : Session.Ready ⟨s, .start check⟩) (hscope : s.Scoped s.nextVar)
    (hgoal : goal.Within s.Born) {θ θm : Var → Term A} (hθ : s.Solves θ) (hθm : s.Solves θm)
    (heq : goal.toTerm.subst θ = c.head.toTerm.subst θm)
    {o : Option (List (Compound A) × Store A)} (h : headFirst check n goal c s = some o) :
    ∃ gs s' θ', o = some (gs, s') ∧ s'.Solves θ' ∧ (∀ y, s.Born y → θ' y = θ y) ∧
      gs.map (fun g => g.toTerm.subst θ') = c.body.map (fun b => b.toTerm.subst θm) := by
  obtain ⟨head, p, hr, hcases⟩ := headFirst_cases h
  obtain ⟨-, hsince⟩ := s.copyGoal_fresh n hr (Copying.since_empty s.nextVar)
  have hproper : p.Proper := (copyGoal_copies hr).proper (Copying.proper_empty _)
  -- an extension to the variables of the copy makes the goal equal to the new head
  have hequal : ∀ θ' : Var → Term A, (∀ y, s.Born y → θ' y = θ y) → p.Reads s θm θ' →
      s.Solves θ' ∧ goal.toTerm.subst θ' = head.toTerm.subst θ' := by
    intro θ' hold hread
    refine ⟨hscope.solves_congr hθ hold, ?_⟩
    have hsame : goal.toTerm.subst θ' = goal.toTerm.subst θ :=
      Term.fold_congr fun y hy => hold y (hgoal y hy)
    rw [hsame, heq, copyGoal_subst hθm hr hread]
  obtain ⟨θ₁, hold₁, hread₁⟩ := hsince.exists_reads hproper hθm θ
  obtain ⟨hθ₁, heq₁⟩ := hequal θ₁ hold₁ hread₁
  obtain ⟨k, w, hk⟩ := exists_unify heq₁ _ hs hθ₁
  -- so the unification cannot have failed
  obtain ⟨e, w', hfail, -⟩ | ⟨w, gs, q, hu, hq, rfl⟩ := hcases
  · rw [unify_eq_success (by rw [hfail]; exact nofun) hk] at hfail
    cases hfail
  -- the variables of the body are new as well
  have hgrows : p.Grows q := (copyGoals_copies hq).grows
  obtain ⟨-, hsince', -⟩ := s.copyGoals_fresh n hq hsince
  obtain ⟨θ', hold, hread⟩ := hsince'.exists_reads ((copyGoals_copies hq).proper hproper) hθm θ
  obtain ⟨hθ', heq'⟩ := hequal θ' hold (hread.of_grows hgrows)
  have hsolved := unify_solved n _ _ _ w hs hu
  exact ⟨gs, _, θ', rfl, Store.solves_setNext.mpr ((hsolved.solves θ').mpr ⟨hθ', heq'⟩), hold,
    copyGoals_subst hθm hq hread⟩

end step

end Search

end Horn
