import Horn.Proofs.Look
import Horn.Proofs.OccursCheck
import Horn.Proofs.Unchecked

/-! # The occurs check refuses circles and nothing else

    Without the occurs check a unification may bind variables in circles, go on through
    circular values and merge them.  It never takes back what it has bound before it
    fails, so what it ends in still shows the whole way: if the store it leaves has a
    solution, then so had everything on the way, and the check would have let it pass.

    * `Solves.subst_eq_of_looksLike`: in a store with a solution, terms that look the same
      are read alike.
    * `KeepsLooks.solves`: what solves a later store solves the earlier ones.
    * `Ready.exists_checked`: a success without the check that leaves an acyclic store is one
      with the check.

    Main statement: `check_refuses_only_circles`. -/

namespace Horn

universe u

variable {A : Type u}

/-! ## Looks and solutions -/

section looks

variable {s : Store A} {θ : Var → Term A}

/-- A solution reads two terms alike that look the same.  The induction is on the first term
    with the values of its variables, which end as there is a solution. -/
theorem Store.Solves.subst_eq_of_looksLike (hθ : s.Solves θ) {t u : Term A}
    (h : s.LooksLike t u) : t.subst θ = u.subst θ := by
  induction hθ.acyclic.ends t generalizing u with
  | @unbound x hx =>
    obtain ⟨z, rfl, -, hz⟩ := exists_var_of_sight (h.sight_eq.symm.trans (sight_unbound hx))
    exact hθ.joined x z hz.symm
  | @bound x c hx _ ih =>
    rw [Term.subst_var, hθ.bound x c hx]
    exact ih ((looksLike_value hx).symm.trans h)
  | @app f as _ ih =>
    -- the second term is a compound as well, or has one as its value
    have hcompound : ∀ d : Compound A, s.LooksLike (.app f as) d.toTerm →
        (Term.app f as).subst θ = d.toTerm.subst θ := by
      intro d hd
      obtain ⟨hname, hlen⟩ := LooksLike.signature_eq (c := ⟨f, as⟩) hd
      refine (Compound.subst_eq_subst_iff (c := ⟨f, as⟩)).mpr
        ⟨Signature.mk.injEq .. ▸ ⟨hname, hlen⟩, fun p hp => ?_⟩
      obtain ⟨i, hi⟩ := List.mem_iff_getElem?.mp hp
      obtain ⟨hi₁, hi₂⟩ := List.getElem?_zip_eq_some.mp hi
      exact ih p.1 (List.of_mem_zip hp).1 (hd.child hi₁ hi₂)
    cases u with
    | app g bs => exact hcompound ⟨g, bs⟩ h
    | var y =>
      cases hy : s.value y with
      | none =>
        have hsight := h.sight_eq
        rw [sight_unbound hy] at hsight
        cases hsight
      | some d =>
        rw [Term.subst_var, hθ.bound y d hy]
        exact hcompound d (h.trans (looksLike_value hy))

/-- What solves a store solves every earlier one whose looks it has kept. -/
theorem Session.KeepsLooks.solves {w w' : Session A} (h : w.KeepsLooks w')
    (hθ : w'.store.Solves θ) : w.store.Solves θ where
  joined _ _ hxy := hθ.subst_eq_of_looksLike (h _ _ (Store.looksLike_of_classOf_eq hxy))
  bound _ _ hx := hθ.subst_eq_of_looksLike (h _ _ (Store.looksLike_value hx))

end looks

/-! ## Successes without the check -/

section unify

variable [DecidableEq A] {w v : Session A} {t u : Term A}

/-- A success without the check is a success with it, if it leaves an acyclic store. -/
theorem Session.Ready.exists_checked (hw : w.Ready) {n : Nat}
    (h : unify n t u w.unchecked = .success v) (hv : v.store.Acyclic) :
    ∃ m w', unify m t u w = .success w' ∧ v = w'.unchecked := by
  have hlooks := unify_looks n t u w.unchecked ⟨hw.consistent.store, hw.consistent.trail⟩
  rw [h] at hlooks
  obtain ⟨-, hkeeps, hlook⟩ := hlooks
  -- any solution of the store it leaves makes the terms equal in the store it began with
  obtain ⟨θ, hθ⟩ := hv.exists_solution
  have hθw : w.store.Solves θ := hkeeps.solves hθ
  obtain ⟨m, w', hm⟩ := exists_unify (hθ.subst_eq_of_looksLike hlook) w hw hθw
  -- so the check lets it pass, and then it does the same without
  have hm' : unify m t u w.unchecked = .success w'.unchecked := by
    rw [unify_unchecked m t u w (by rw [hm]; trivial), hm]
    rfl
  exact ⟨m, w', hm, Outcome.success.inj (unify_unique h hm' nofun nofun)⟩

/-- **The occurs check refuses circles and nothing else.**  From an acyclic store two terms
    can be unified with the check on just if without it the attempt succeeds and leaves an
    acyclic store.  Then both leave the same store, every variable with the same class and
    value, and have added the same moves to their trails, whatever these held before. -/
theorem check_refuses_only_circles {s : Store A} (hs : s.Consistent) (hacyclic : s.Acyclic)
    {tr tr' : Trail} (hon : tr.occursCheck = true) (hoff : tr'.occursCheck = false)
    (t u : Term A) :
    ((∃ n w, unify n t u ⟨s, tr⟩ = .success w) ↔
      ∃ n v, unify n t u ⟨s, tr'⟩ = .success v ∧ v.store.Acyclic) ∧
    ∀ n m w v, unify n t u ⟨s, tr⟩ = .success w → unify m t u ⟨s, tr'⟩ = .success v →
      v.store = w.store ∧ ∃ moves : Array (Var × ClassId),
        w.trail.moves = tr.moves ++ moves ∧ v.trail.moves = tr'.moves ++ moves := by
  let w₀ : Session A := ⟨s, .start true⟩
  have hready : w₀.Ready := ⟨Session.consistent_start hs true, hacyclic, rfl⟩
  -- what was on the trails before does not matter
  have hchecked : ∀ {n w}, unify n t u ⟨s, tr⟩ = .success w ↔
      ∃ v, unify n t u w₀ = .success v ∧ w = v.onto tr.moves := by
    intro n w
    rw [unify_eq_success_iff, hon]
  have hblind : ∀ {n w}, unify n t u ⟨s, tr'⟩ = .success w ↔
      ∃ v, unify n t u w₀.unchecked = .success v ∧ w = v.onto tr'.moves := by
    intro n w
    rw [unify_eq_success_iff, hoff]
    rfl
  have hsame : ∀ {n w}, unify n t u w₀ = .success w →
      unify n t u w₀.unchecked = .success w.unchecked := by
    intro n w h
    rw [unify_unchecked n t u w₀ (by rw [h]; trivial), h]
    rfl
  refine ⟨⟨?_, ?_⟩, ?_⟩
  · rintro ⟨n, _, h⟩
    obtain ⟨w, hw, -⟩ := hchecked.mp h
    have hsolved := unify_solved n t u w₀ w hready hw
    exact ⟨n, _, hblind.mpr ⟨_, hsame hw, rfl⟩, hsolved.ready.acyclic⟩
  · rintro ⟨n, _, h, hv⟩
    obtain ⟨v, hv', rfl⟩ := hblind.mp h
    obtain ⟨m, w, hw, -⟩ := hready.exists_checked hv' hv
    exact ⟨m, _, hchecked.mpr ⟨w, hw, rfl⟩⟩
  · intro n m _ _ h h'
    obtain ⟨w, hw, rfl⟩ := hchecked.mp h
    obtain ⟨v, hv, rfl⟩ := hblind.mp h'
    -- the two attempts without the check come out alike, whatever their levels
    cases unify_unique (hsame hw) hv nofun nofun
    exact ⟨rfl, w.trail.moves, rfl, rfl⟩

end unify

/-- The variables `X` and `Y` are in one class.  The terms `0(X, Z)` and `0(1(Z), 2)` can be
    unified with the check, and so without it they lead to an acyclic store.  The terms `X` and
    `1(Y)` can be unified without the check only, and that leaves a circle. -/
theorem circle_without_check :
    let t : Term Nat := .app 0 [.var ⟨0⟩, .var ⟨2⟩]
    let u : Term Nat := .app 0 [.app 1 [.var ⟨2⟩], .app 2 []]
    let x : Term Nat := .var ⟨0⟩
    let z : Term Nat := .app 1 [.var ⟨1⟩]
    ∃ w w' v v' : Session Nat, w.store.Consistent ∧ w.store.Acyclic ∧
      w.trail.occursCheck = true ∧ w.trail.moves.size = 2 ∧
      (Trail.start false).occursCheck = false ∧ unify 5 t u w = .success w' ∧
      unify 5 t u ⟨w.store, .start false⟩ = .success v ∧
      v.store.Acyclic ∧ v.store = w'.store ∧
      unify 5 x z w = .failure (.occurs ⟨0⟩ ⟨1, [.var ⟨1⟩]⟩) w ∧
      unify 5 x z ⟨w.store, .start false⟩ = .success v' ∧ ¬ v'.store.Acyclic := by
  intro t u x z
  have hrun : ∃ w w' v v' : Session Nat, Session.perform
      ⟨(Store.empty.freshMany 3).2, .start true⟩ [.bind 5 ⟨0⟩ ⟨1⟩] = some w ∧
      w.trail.moves.size = 2 ∧ unify 5 t u w = .success w' ∧
      unify 5 t u ⟨w.store, .start false⟩ = .success v ∧
      unify 5 x z w = .failure (.occurs ⟨0⟩ ⟨1, [.var ⟨1⟩]⟩) w ∧
      unify 5 x z ⟨w.store, .start false⟩ = .success v' :=
    ⟨_, _, _, _, rfl, rfl, rfl, rfl, rfl, rfl⟩
  obtain ⟨w, w', v, v', hw, hsize, hw', hv, hrefused, hv'⟩ := hrun
  have hready := Session.ready_of_perform 3 hw
  have hoff : (Trail.start false).occursCheck = false := rfl
  have hs := hready.consistent.store
  have htu := check_refuses_only_circles hs hready.acyclic hready.check hoff t u
  have hxz := check_refuses_only_circles hs hready.acyclic hready.check hoff x z
  refine ⟨w, w', v, v', hs, hready.acyclic, hready.check, hsize, hoff, hw', hv, ?_,
    (htu.2 5 5 w' v hw' hv).1, hrefused, hv', ?_⟩
  · obtain ⟨n, v₁, hv₁, hacyclic⟩ := htu.1.mp ⟨5, w', hw'⟩
    cases unify_unique hv₁ hv nofun nofun
    exact hacyclic
  · intro hacyclic
    obtain ⟨n, w₁, hw₁⟩ := hxz.1.mpr ⟨5, v', hv', hacyclic⟩
    cases unify_unique hw₁ hrefused nofun nofun

end Horn
