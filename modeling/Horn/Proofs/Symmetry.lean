import Horn.Proofs.SideBySide

/-! # Unification is symmetric

    Unifying two terms is not done symmetrically: of two values the left one stays, and a
    variable's value stands on the left whatever side the variable was on.  So from the same
    store other classes may be merged, and later pairs meet other compounds.  Yet what comes
    out is the same for `t` and `u` as for `u` and `t`.

    That both succeed or both fail, and what a success leaves, is known from the solutions
    (`Session.Solving.agree`).  What remains is the reason for a failure.  Two runs are
    followed side by side in stores with the same solutions, where every solution is related
    to itself only (`Session.Twins.abreast`).

    Main statement: `unification_symmetric`. -/

namespace Horn

universe u

variable {A : Type u}

/-! ## Two runs in stores with the same solutions -/

/-- Two ready sessions that the same substitutions solve. -/
structure Session.Twins (w w' : Session A) : Prop where
  left : w.Ready
  right : w'.Ready
  solves : ∀ θ, w.store.Solves θ ↔ w'.store.Solves θ

theorem Session.Twins.abreast {w w' : Session A} (h : Twins w w') : Abreast Eq w w' where
  left := h.left
  right := h.right
  ahead θ hθ := ⟨θ, rfl, (h.solves θ).mp hθ⟩
  back θ hθ := ⟨θ, rfl, (h.solves θ).mpr hθ⟩

section unify

variable [DecidableEq A] {w w' v v' : Session A} {t u t' u' : Term A} {e e' : Clash A}

/-- Both runs fail for like reasons. -/
theorem failLike (n m : Nat) (htwins : Session.Twins w w')
    (hsides : w.store.SameSides t u t' u') (h : unify n t u w = .failure e v)
    (h' : unify m t' u' w' = .failure e' v') : e.Like e' := by
  refine Session.Abreast.fail_like n m htwins.abreast (fun θ θ' hR hθ _ => ?_) h h'
  rw [← hR]
  exact hsides θ hθ

/-- **Unification is symmetric.**  In an acyclic store with the occurs check on, unifying `t`
    with `u` comes out as unifying `u` with `t` does: either both succeed, and leave the same
    variables unbound, the same of these in one class, and every term with the same resolved
    form; or both fail, at the occurs check both or with the same two names or arities. -/
theorem unification_symmetric {w : Session A} (hw : w.Consistent) (hs : w.store.Acyclic)
    (hcheck : w.trail.occursCheck = true) (t u : Term A) :
    ∃ o o', ComesOut (fun n => unify n t u w) o ∧ ComesOut (fun n => unify n u t w) o' ∧
      o.Agree Clash.Like o' := by
  have hready : w.Ready := ⟨hw, hs, hcheck⟩
  obtain ⟨o, ho⟩ := hready.unify_comesOut t u
  obtain ⟨o', ho'⟩ := hready.unify_comesOut u t
  refine ⟨o, o', ho, ho', (hready.solving_unify t u).agree (hready.solving_unify u t)
    (fun θ => and_congr_right fun _ => eq_comm) ho ho' fun e v e' v' hfail hfail' => ?_⟩
  obtain ⟨-, n, hn⟩ := ho
  obtain ⟨-, m, hm⟩ := ho'
  exact failLike n m ⟨hready, hready, fun _ => Iff.rfl⟩ (fun _ _ => Sym2.eq_swap)
    ((hn n le_rfl).trans hfail) ((hm m le_rfl).trans hfail')

end unify

/-- Two variables have the values `7(Z)` and `7(8)`, and `U` is unbound.  The terms `9(X, X)` and
    `9(Y, 7(U))` can be unified, and `Z` and `U` come to be `8`: in one class if the value `7(Z)`
    stays, and each for itself if `7(8)` does. -/
theorem bound_aliases_differ :
    let t : Term Nat := .app 9 [.var ⟨0⟩, .var ⟨0⟩]
    let u : Term Nat := .app 9 [.var ⟨1⟩, .app 7 [.var ⟨3⟩]]
    ∃ w v v' : Session Nat, w.Consistent ∧ w.store.Acyclic ∧ w.trail.occursCheck = true ∧
      unify 6 t u w = .success v ∧ unify 6 u t w = .success v' ∧
      v.store.aliased ⟨2⟩ ⟨3⟩ = true ∧ v'.store.aliased ⟨2⟩ ⟨3⟩ = false ∧
      ∃ o o', ComesOut (fun n => unify n t u w) o ∧ ComesOut (fun n => unify n u t w) o' ∧
        o.Agree Clash.Like o' := by
  intro t u
  have hrun : ∃ w v v' : Session Nat, Session.perform ⟨(Store.empty.freshMany 4).2, .start true⟩
      [.resolve 5 ⟨0⟩ ⟨7, [.var ⟨2⟩]⟩, .resolve 5 ⟨1⟩ ⟨7, [.app 8 []]⟩] = some w ∧
      unify 6 t u w = .success v ∧ unify 6 u t w = .success v' ∧
      v.store.aliased ⟨2⟩ ⟨3⟩ = true ∧ v'.store.aliased ⟨2⟩ ⟨3⟩ = false :=
    ⟨_, _, _, rfl, rfl, rfl, rfl, rfl⟩
  obtain ⟨w, v, v', hw, hv, hv', halias, halias'⟩ := hrun
  have hready := Session.ready_of_perform 4 hw
  exact ⟨w, v, v', hready.consistent, hready.acyclic, hready.check, hv, hv', halias, halias',
    unification_symmetric hready.consistent hready.acyclic hready.check t u⟩

end Horn
