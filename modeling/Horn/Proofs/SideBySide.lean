import Horn.Proofs.EquationOrder
import Horn.Proofs.FailedCalls
import Mathlib.Data.Sym.Sym2

/-! # Two unifications side by side

    Two unifications may take other steps and still come to the same end, because the same
    can be said of what they are about.  One is for the terms `t` and `u`, the other for
    `t'` and `u'`, in another session perhaps; and some substitutions are related.  Every
    solution of one session is related to a solution of the other (`Session.Abreast`), and
    related solutions make of `t` and `u` what they make of `t'` and `u'`, on the same sides
    or on opposite ones (`Session.SidesMatch`).

    Then they succeed together (`Session.Abreast.not_failure`), and what they leave is
    abreast again (`Session.Abreast.of_success`).  If they fail, it is for like reasons:

    * A variable's value becomes what the variable becomes, so a run may go on to values while
      the other stays (`Session.Failing`).
    * Where both have come to compounds, these clash in both runs or in neither, and pairs of
      arguments that succeed leave sessions that are abreast (`like_of_each`).
    * Where one meets an unbound variable so does the other, and both fail at the occurs check.

    Main statement: `Session.Abreast.fail_like`. -/

namespace Horn

universe u

variable {A : Type u}

/-! ## The two sides -/

/-- Clashes of one kind; those of names or arities are between the same two, in some order. -/
def Clash.Like : Clash A → Clash A → Prop
  | .names f g, .names f' g' => s(f, g) = s(f', g')
  | .arities m n, .arities m' n' => s(m, n) = s(m', n')
  | .occurs _ _, .occurs _ _ => True
  | _, _ => False

/-- What the two terms become, whichever is left. -/
def sides (θ : Var → Term A) (t u : Term A) : Sym2 (Term A) := s(t.subst θ, u.subst θ)

/-- Of two unordered pairs that are equal both are of one thing twice, or neither is. -/
theorem eq_iff_eq_of_sym2 {α : Type u} {a b a' b' : α} (h : s(a, b) = s(a', b')) :
    a = b ↔ a' = b' := by
  rw [← Sym2.mk_isDiag_iff, h, Sym2.mk_isDiag_iff]

theorem sides_app {θ θ' : Var → Term A} {f g f' g' : A} {as bs as' bs' : List (Term A)}
    (h : sides θ (.app f as) (.app g bs) = sides θ' (.app f' as') (.app g' bs')) :
    s(f, g) = s(f', g') ∧ s(as.map (Term.subst θ), bs.map (Term.subst θ)) =
      s(as'.map (Term.subst θ'), bs'.map (Term.subst θ')) := by
  simp only [sides, Term.subst_app] at h
  rcases Sym2.eq_iff.mp h with ⟨hleft, hright⟩ | ⟨hleft, hright⟩
  · obtain ⟨rfl, has⟩ := Term.app.inj hleft
    obtain ⟨rfl, hbs⟩ := Term.app.inj hright
    exact ⟨rfl, by rw [has, hbs]⟩
  · obtain ⟨rfl, has⟩ := Term.app.inj hleft
    obtain ⟨rfl, hbs⟩ := Term.app.inj hright
    exact ⟨Sym2.eq_swap, by rw [has, hbs, Sym2.eq_swap]⟩

theorem map_sides (θ : Var → Term A) (as bs : List (Term A)) :
    (as.zip bs).map (fun p => sides θ p.1 p.2) =
      List.zipWith Sym2.mk (as.map (Term.subst θ)) (bs.map (Term.subst θ)) := by
  rw [List.zipWith_map, ← List.map_uncurry_zip_eq_zipWith]
  rfl

/-- Argument lists that become the same with sides changed or not do so pair by pair. -/
theorem map_sides_eq {θ θ' : Var → Term A} {as bs as' bs' : List (Term A)}
    (h : s(as.map (Term.subst θ), bs.map (Term.subst θ)) =
      s(as'.map (Term.subst θ'), bs'.map (Term.subst θ'))) :
    (as.zip bs).map (fun p => sides θ p.1 p.2) =
      (as'.zip bs').map fun p => sides θ' p.1 p.2 := by
  rw [map_sides, map_sides]
  rcases Sym2.eq_iff.mp h with ⟨has, hbs⟩ | ⟨has, hbs⟩
  · rw [has, hbs]
  · rw [has, hbs]
    exact List.zipWith_comm_of_comm fun _ _ => Sym2.eq_swap

/-- Under every solution the two terms become what the other two do, in some order. -/
def Store.SameSides (s : Store A) (t u t' u' : Term A) : Prop :=
  ∀ θ, s.Solves θ → sides θ t u = sides θ t' u'

theorem Store.SameSides.trans {s : Store A} {t u t₁ u₁ t₂ u₂ : Term A}
    (h₁ : s.SameSides t u t₁ u₁) (h₂ : s.SameSides t₁ u₁ t₂ u₂) : s.SameSides t u t₂ u₂ :=
  fun θ hθ => (h₁ θ hθ).trans (h₂ θ hθ)

/-! ## How a failure comes about -/

section unify

variable [DecidableEq A] {n m : Nat} {w w' v v' : Session A} {t u t' u' : Term A}
  {e e' : Clash A}

/-- How two terms fail with one level more than `n`: because the values of variables fail with
    `n` levels, and these become what the variables do; or at the occurs check, where one of
    the terms is an unbound variable; or as two compounds, of which no more is said here. -/
inductive Session.Failing (n : Nat) (w : Session A) : Term A → Term A → Clash A → Prop where
  | values {t u t₁ u₁ : Term A} {e : Clash A} {v : Session A}
      (hsides : w.store.SameSides t₁ u₁ t u) (h : unify n t₁ u₁ w = .failure e v) :
      Failing n w t u e
  | occurs {t u : Term A} {x : Var} {d : Compound A} (hx : w.store.value x = none)
      (hxt : t = .var x ∨ u = .var x) : Failing n w t u (.occurs x d)
  | compounds (f g : A) (as bs : List (Term A)) (e : Clash A) :
      Failing n w (.app f as) (.app g bs) e

theorem Session.failing_of_resolveBy {x : Var} {c : Compound A}
    (h : w.resolveBy (unify n) n x c = .failure e v) :
    Failing n w (.var x) c.toTerm e ∧ Failing n w c.toTerm (.var x) e := by
  unfold resolveBy at h
  split at h
  · next d hd =>
    obtain ⟨v₁, hv₁, -⟩ := Outcome.undoingTo_eq_failure h
    have hsides : w.store.SameSides d.toTerm c.toTerm (.var x) c.toTerm := fun θ hθ => by
      rw [sides, sides, Term.subst_var, hθ.bound x d hd]
    exact ⟨.values hsides hv₁, .values (hsides.trans fun _ _ => Sym2.eq_swap) hv₁⟩
  · next hx =>
    obtain ⟨⟨d, rfl⟩, -⟩ := checkingOccurs_eq_failure h
    exact ⟨.occurs hx (.inl rfl), .occurs hx (.inr rfl)⟩

theorem Session.failing_of_bindBy {x y : Var} (h : w.bindBy (unify n) n x y = .failure e v) :
    Failing n w (.var x) (.var y) e := by
  unfold bindBy at h
  split at h
  · cases h
  · split at h
    · cases h
    · next hy =>
      obtain ⟨⟨d, rfl⟩, -⟩ := checkingOccurs_eq_failure h
      exact .occurs hy (.inr rfl)
    · next hx _ =>
      obtain ⟨⟨d, rfl⟩, -⟩ := checkingOccurs_eq_failure h
      exact .occurs hx (.inl rfl)
    · next c d hx hy =>
      rcases Outcome.andThen_eq_failure h with hvalues | ⟨v₁, -, hmerge⟩
      · obtain ⟨v₁, hv₁, -⟩ := Outcome.undoingTo_eq_failure hvalues
        refine .values (fun θ hθ => ?_) hv₁
        rw [sides, sides, Term.subst_var, Term.subst_var, hθ.bound x c hx, hθ.bound y d hy]
      · cases hmerge

theorem Session.failing_of_unify (h : unify (n + 1) t u w = .failure e v) :
    Failing n w t u e := by
  cases t with
  | var x =>
    cases u with
    | var y => exact failing_of_bindBy h
    | app g bs => exact (failing_of_resolveBy h).1
  | app f as =>
    cases u with
    | var y => exact (failing_of_resolveBy h).2
    | app g bs => exact .compounds f g as bs e

/-! ## Sessions with related solutions -/

variable {R : (Var → Term A) → (Var → Term A) → Prop}

/-- Two ready sessions.  Every solution of one of them is related to one of the other. -/
structure Session.Abreast (R : (Var → Term A) → (Var → Term A) → Prop) (w w' : Session A) :
    Prop where
  left : w.Ready
  right : w'.Ready
  ahead : ∀ θ, w.store.Solves θ → ∃ θ', R θ θ' ∧ w'.store.Solves θ'
  back : ∀ θ', w'.store.Solves θ' → ∃ θ, R θ θ' ∧ w.store.Solves θ

/-- Related solutions make of `t` and `u` what they make of `t'` and `u'`, in some order. -/
def Session.SidesMatch (R : (Var → Term A) → (Var → Term A) → Prop) (w w' : Session A)
    (t u t' u' : Term A) : Prop :=
  ∀ θ θ', R θ θ' → w.store.Solves θ → w'.store.Solves θ' → sides θ t u = sides θ' t' u'

namespace Session

omit [DecidableEq A] in
theorem Abreast.symm (h : Abreast R w w') : Abreast (flip R) w' w :=
  ⟨h.right, h.left, h.back, h.ahead⟩

omit [DecidableEq A] in
theorem SidesMatch.symm (h : SidesMatch R w w' t u t' u') :
    SidesMatch (flip R) w' w t' u' t u := fun θ' θ hR hθ' hθ => (h θ θ' hR hθ hθ').symm

omit [DecidableEq A] in
/-- An unbound variable does not become a compound under every solution. -/
theorem Abreast.not_sidesMatch (h : Abreast R w w') {x : Var} (hx : w.store.value x = none)
    (hxt : t = .var x ∨ u = .var x) {f g : A} {as bs : List (Term A)} :
    ¬ SidesMatch R w w' t u (.app f as) (.app g bs) := by
  intro hsides
  obtain ⟨θ, hθ, hunbound, -⟩ := h.left.acyclic.exists_naming
  obtain ⟨θ', hR, hθ'⟩ := h.ahead θ hθ
  have hmem : θ x ∈ sides θ t u := by
    rcases hxt with rfl | rfl
    · exact Sym2.mem_mk_left _ _
    · exact Sym2.mem_mk_right _ _
  rw [hsides θ θ' hR hθ hθ', hunbound x hx] at hmem
  rcases Sym2.mem_iff.mp hmem with hleft | hright
  · rw [Term.subst_app] at hleft
    cases hleft
  · rw [Term.subst_app] at hright
    cases hright

/-- Successes leave sessions that are abreast again. -/
theorem Abreast.of_success (h : Abreast R w w') (hsides : SidesMatch R w w' t u t' u')
    (hv : unify n t u w = .success v) (hv' : unify m t' u' w' = .success v') :
    Abreast R v v' := by
  have hsolved := unify_solved n t u w v h.left hv
  have hsolved' := unify_solved m t' u' w' v' h.right hv'
  refine ⟨hsolved.ready, hsolved'.ready, fun θ hθ => ?_, fun θ' hθ' => ?_⟩
  · obtain ⟨hold, heq⟩ := (hsolved.solves θ).mp hθ
    obtain ⟨θ', hR, hold'⟩ := h.ahead θ hold
    have heq' := (eq_iff_eq_of_sym2 (hsides θ θ' hR hold hold')).mp heq
    exact ⟨θ', hR, (hsolved'.solves θ').mpr ⟨hold', heq'⟩⟩
  · obtain ⟨hold', heq'⟩ := (hsolved'.solves θ').mp hθ'
    obtain ⟨θ, hR, hold⟩ := h.back θ' hold'
    have heq := (eq_iff_eq_of_sym2 (hsides θ θ' hR hold hold')).mpr heq'
    exact ⟨θ, hR, (hsolved.solves θ).mpr ⟨hold, heq⟩⟩

/-- Where one run succeeds, the other does not fail. -/
theorem Abreast.not_failure (h : Abreast R w w') (hsides : SidesMatch R w w' t u t' u')
    (hv : unify n t u w = .success v) : unify m t' u' w' ≠ .failure e' v' := by
  have hsolved := unify_solved n t u w v h.left hv
  obtain ⟨θ, hθ⟩ := hsolved.ready.acyclic.exists_solution
  obtain ⟨hold, heq⟩ := (hsolved.solves θ).mp hθ
  obtain ⟨θ', hR, hold'⟩ := h.ahead θ hold
  have heq' := (eq_iff_eq_of_sym2 (hsides θ θ' hR hold hold')).mp heq
  exact (h.right.solving_unify t' u').not_failure hold' heq' m e' v'

end Session

/-! ## Failures -/

/-- Runs with `n` and with `m` levels that both fail do so for like reasons. -/
def FailLike (R : (Var → Term A) → (Var → Term A) → Prop) (n m : Nat) : Prop :=
  ∀ {w w' v v' : Session A} {t u t' u' : Term A} {e e' : Clash A}, Session.Abreast R w w' →
    Session.SidesMatch R w w' t u t' u' → unify n t u w = .failure e v →
    unify m t' u' w' = .failure e' v' → e.Like e'

/-- Pairs fail alike one after the other: up to the first failure both runs succeed. -/
theorem like_of_each (hlike : FailLike R n m) {ps qs : List (Term A × Term A)}
    (habreast : Session.Abreast R w w')
    (hsides : ∀ θ θ', R θ θ' → w.store.Solves θ → w'.store.Solves θ' →
      ps.map (fun p => sides θ p.1 p.2) = qs.map fun q => sides θ' q.1 q.2)
    (h : unifyEach (unify n) ps w = .failure e v)
    (h' : unifyEach (unify m) qs w' = .failure e' v') : e.Like e' := by
  induction ps generalizing qs w w' with
  | nil => cases h
  | cons p ps ih =>
    cases qs with
    | nil => cases h'
    | cons q qs =>
      have hfirst : Session.SidesMatch R w w' p.1 p.2 q.1 q.2 := fun θ θ' hR hθ hθ' =>
        (List.cons.inj (hsides θ θ' hR hθ hθ')).1
      rcases Outcome.andThen_eq_failure h with hp | ⟨w₁, hp, hps⟩
      · rcases Outcome.andThen_eq_failure h' with hq | ⟨w₁', hq, -⟩
        · exact hlike habreast hfirst hp hq
        · exact absurd hp (habreast.symm.not_failure hfirst.symm hq)
      · rcases Outcome.andThen_eq_failure h' with hq | ⟨w₁', hq, hqs⟩
        · exact absurd hq (habreast.not_failure hfirst hp)
        · have hsolved := unify_solved n _ _ w w₁ habreast.left hp
          have hsolved' := unify_solved m _ _ w' w₁' habreast.right hq
          refine ih (habreast.of_success hfirst hp hq) (fun θ θ' hR hθ hθ' => ?_) hps hqs
          exact (List.cons.inj (hsides θ θ' hR ((hsolved.solves θ).mp hθ).1
            ((hsolved'.solves θ').mp hθ').1)).2

/-- Compounds clash in both runs or in neither; if in neither, their arguments fail. -/
theorem like_of_compounds (hlike : FailLike R n m) (habreast : Session.Abreast R w w')
    {f g f' g' : A} {as bs as' bs' : List (Term A)}
    (hsides : Session.SidesMatch R w w' (.app f as) (.app g bs) (.app f' as') (.app g' bs'))
    (h : unify (n + 1) (.app f as) (.app g bs) w = .failure e v)
    (h' : unify (m + 1) (.app f' as') (.app g' bs') w' = .failure e' v') : e.Like e' := by
  obtain ⟨θ, hθ⟩ := habreast.left.acyclic.exists_solution
  obtain ⟨θ', hR, hθ'⟩ := habreast.ahead θ hθ
  obtain ⟨hnames, hargs⟩ := sides_app (hsides θ θ' hR hθ hθ')
  have harities : s(as.length, bs.length) = s(as'.length, bs'.length) := by
    simpa using congrArg (Sym2.map List.length) hargs
  have hname := eq_iff_eq_of_sym2 hnames
  have harity := eq_iff_eq_of_sym2 harities
  rw [unify] at h h'
  by_cases hfg : f = g
  · rw [if_neg (not_not.mpr hfg)] at h
    rw [if_neg (not_not.mpr (hname.mp hfg))] at h'
    by_cases hlen : as.length = bs.length
    · rw [if_neg (not_not.mpr hlen)] at h
      rw [if_neg (not_not.mpr (harity.mp hlen))] at h'
      refine like_of_each hlike habreast (fun θ θ' hR hθ hθ' => ?_) h h'
      exact map_sides_eq (sides_app (hsides θ θ' hR hθ hθ')).2
    · rw [if_pos hlen] at h
      rw [if_pos fun e => hlen (harity.mpr e)] at h'
      cases h
      cases h'
      exact harities
  · rw [if_pos hfg] at h
    rw [if_pos fun e => hfg (hname.mpr e)] at h'
    cases h
    cases h'
    exact hnames

/-- **Both runs fail for like reasons.**  The induction is on the levels of the first run and,
    as the second may have values to go on to while the first stays, on those of the second. -/
theorem Session.Abreast.fail_like (n m : Nat) : FailLike R n m := by
  intro w w' v v' t u t' u' e e' habreast hsides h h'
  induction n generalizing m w w' v v' t u t' u' e e' with
  | zero => cases h
  | succ n ih =>
    -- in the first run the values take the place of the terms
    have hleft : ∀ {t₁ u₁ : Term A} {v₁ : Session A}, w.store.SameSides t₁ u₁ t u →
        unify n t₁ u₁ w = .failure e v₁ → e.Like e' := fun hvalues hv₁ =>
      ih _ habreast (fun θ θ' hR hθ hθ' => (hvalues θ hθ).trans (hsides θ θ' hR hθ hθ')) hv₁ h'
    induction m generalizing t' u' v' with
    | zero => cases h'
    | succ m ih' =>
      cases Session.failing_of_unify h' with
      | values hvalues hv =>
        refine ih' (fun θ θ' hR hθ hθ' => ?_) hv
        exact (hsides θ θ' hR hθ hθ').trans (hvalues θ' hθ').symm
      | occurs hx hxt =>
        cases Session.failing_of_unify h with
        | values hvalues hv => exact hleft hvalues hv
        | occurs => trivial
        | compounds => exact absurd hsides.symm (habreast.symm.not_sidesMatch hx hxt)
      | compounds =>
        cases Session.failing_of_unify h with
        | values hvalues hv => exact hleft hvalues hv
        | occurs hx hxt => exact absurd hsides (habreast.not_sidesMatch hx hxt)
        | compounds =>
          exact like_of_compounds (fun ha hs hf hf' => ih m ha hs hf hf') habreast hsides h h'

end unify

end Horn
