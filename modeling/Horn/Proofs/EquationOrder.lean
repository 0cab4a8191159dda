import Horn.Proofs.Termination

/-! # The order of equations does not matter

    Equations between terms can be unified one after the other.  In another order other
    variables are bound first, the same trees are built from other compounds, and the occurs
    check or a clash comes at another moment.  But all succeed in one order just if they do in
    the other, and then everything resolves to the same.

    No single steps are compared for that.  An attempt that adds an equation succeeds just if
    some solution of the store satisfies it, and then the solutions of the store that it
    leaves are known (`Session.Solving`).  What they are decides what a store looks like.

    * `Store.SameForms`: two stores in which all terms have the same resolved forms.
    * `Store.sameForms_of_solves`: stores with the same solutions are such.
    * `Session.Solving.agree`: attempts to add the same come out alike.

    Main statement: `equations_in_any_order`. -/

namespace Horn

universe u

variable {A : Type u}

/-! ## Stores with the same solutions -/

namespace Store

/-- The same variables are unbound in both stores, and of these the same are in one class.
    A term has one resolved form in both, up to which variable of a class stands for it. -/
structure SameForms (s s' : Store A) : Prop where
  unbound : ∀ x, s.value x = none ↔ s'.value x = none
  aliased : ∀ x y, s.value x = none → s.aliased x y = s'.aliased x y
  forms : ∀ t, ∃ u u', s.Resolves t u ∧ s'.Resolves t u' ∧
    u.rename s.className = u'.rename s.className

variable {s s' : Store A}

/-- What is unbound in a store is so in any other that is solved by whatever solves it. -/
theorem Acyclic.unbound_of_solves (hs : s.Acyclic) (h : ∀ θ, s.Solves θ → s'.Solves θ) {x : Var}
    (hx : s.value x = none) : s'.value x = none := by
  obtain ⟨θ, hθ, hunbound, -⟩ := hs.exists_naming
  cases hx' : s'.value x with
  | none => rfl
  | some c =>
    have hbound := (h θ hθ).bound x c hx'
    rw [hunbound x hx, Compound.toTerm, Term.subst_app] at hbound
    cases hbound

/-- **Stores with the same solutions have the same forms.** -/
theorem sameForms_of_solves (hs : s.Acyclic) (hs' : s'.Acyclic)
    (h : ∀ θ, s.Solves θ ↔ s'.Solves θ) : s.SameForms s' where
  unbound x := ⟨hs.unbound_of_solves fun θ => (h θ).mp, hs'.unbound_of_solves fun θ => (h θ).mpr⟩
  aliased x y hx := by
    have hx' := hs.unbound_of_solves (fun θ => (h θ).mp) hx
    rw [Bool.eq_iff_iff, aliased_iff, aliased_iff]
    constructor
    · intro hxy
      exact hs'.classOf_eq_of_solves hx' fun θ hθ => ((h θ).mpr hθ).joined x y hxy
    · intro hxy
      exact hs.classOf_eq_of_solves hx fun θ hθ => ((h θ).mp hθ).joined x y hxy
  forms t := by
    obtain ⟨u, hu⟩ := hs.exists_resolves t
    obtain ⟨u', hu'⟩ := hs'.exists_resolves t
    -- a solution that gives the classes of one store their names reads both forms alike
    obtain ⟨θ, hθ, hunbound, hread⟩ := hs.exists_naming
    have hnamed : u'.rename s.className = u'.subst θ := Term.fold_congr fun x hx =>
      (hunbound x (hs'.unbound_of_solves (fun θ => (h θ).mpr) (hu'.unbound hx))).symm
    exact ⟨u, u', hu, hu', by rw [hread t u hu, hnamed, ((h θ).mp hθ).subst_resolved hu']⟩

end Store

/-! ## Attempts that add the same -/

/-- Two attempts have ended alike: as successes that leave the same forms, or as failures
    that `E` relates. -/
inductive Outcome.Agree (E : Clash A → Clash A → Prop) : Outcome A → Outcome A → Prop where
  | success {w w' : Session A} (h : w.store.SameForms w'.store) :
      Agree E (.success w) (.success w')
  | failure {e e' : Clash A} (w w' : Session A) (h : E e e') :
      Agree E (.failure e w) (.failure e' w')

namespace Session

/-- The attempt comes out as a success just if `P` holds of some solution, and then it adds
    that to what the session says. -/
structure Solving (w : Session A) (P : (Var → Term A) → Prop) (f : Nat → Outcome A) : Prop where
  settles : ∀ n m, n ≤ m → (f n).Settles (f m)
  comesOut : ∃ o, ComesOut f o
  sound : ∀ n w', f n = .success w' → w.Solved P w'
  complete : ∀ θ, w.store.Solves θ → P θ → ∃ n w', f n = .success w'

section solving

variable {w w' : Session A} {P P' : (Var → Term A) → Prop} {f f' : Nat → Outcome A}
  {o o' : Outcome A} {E : Clash A → Clash A → Prop}

theorem Solving.not_failure (h : w.Solving P f) {θ : Var → Term A} (hθ : w.store.Solves θ)
    (hP : P θ) (n : Nat) (e : Clash A) (v : Session A) : f n ≠ .failure e v := by
  intro hn
  obtain ⟨m, w', hm⟩ := h.complete θ hθ hP
  have heq := Outcome.eq_of_settles h.settles (n := n) (m := m) (by rw [hn]; exact nofun)
    (by rw [hm]; exact nofun)
  rw [hn, hm] at heq
  cases heq

theorem Solving.exists_success_iff (h : w.Solving P f) (ho : ComesOut f o) :
    (∃ v, o = .success v) ↔ ∃ θ, w.store.Solves θ ∧ P θ := by
  obtain ⟨hne, n, hn⟩ := ho
  constructor
  · rintro ⟨v, rfl⟩
    have hsolved := h.sound n v (hn n le_rfl)
    obtain ⟨θ, hθ⟩ := hsolved.ready.acyclic.exists_solution
    exact ⟨θ, (hsolved.solves θ).mp hθ⟩
  · rintro ⟨θ, hθ, hP⟩
    cases o with
    | success v => exact ⟨v, rfl⟩
    | failure e v => exact absurd (hn n le_rfl) (h.not_failure hθ hP n e v)
    | cutOff => exact absurd rfl hne

/-- **Attempts that add the same come out alike**, if failures are compared by what any two
    of them satisfy. -/
theorem Solving.agree (h : w.Solving P f) (h' : w'.Solving P' f')
    (hsame : ∀ θ, w.store.Solves θ ∧ P θ ↔ w'.store.Solves θ ∧ P' θ) (ho : ComesOut f o)
    (ho' : ComesOut f' o')
    (hfail : ∀ e v e' v', o = .failure e v → o' = .failure e' v' → E e e') : o.Agree E o' := by
  have hboth : (∃ v, o = .success v) ↔ ∃ v', o' = .success v' := by
    rw [h.exists_success_iff ho, h'.exists_success_iff ho']
    exact exists_congr hsame
  cases o with
  | cutOff => exact absurd rfl ho.1
  | success v =>
    obtain ⟨v', rfl⟩ := hboth.mp ⟨v, rfl⟩
    obtain ⟨-, n, hn⟩ := ho
    obtain ⟨-, n', hn'⟩ := ho'
    have hsolved := h.sound n v (hn n le_rfl)
    have hsolved' := h'.sound n' v' (hn' n' le_rfl)
    refine .success (Store.sameForms_of_solves hsolved.ready.acyclic hsolved'.ready.acyclic ?_)
    intro θ
    rw [hsolved.solves, hsolved'.solves]
    exact hsame θ
  | failure e v =>
    cases o' with
    | cutOff => exact absurd rfl ho'.1
    | success v' => exact absurd (hboth.mpr ⟨v', rfl⟩) nofun
    | failure e' v' => exact .failure v v' (hfail e v e' v' rfl rfl)

end solving

section unify

variable [DecidableEq A] {w : Session A}

/-- To unify two terms adds that they are equal. -/
theorem Ready.solving_unify (hw : w.Ready) (t u : Term A) :
    w.Solving (fun θ => t.subst θ = u.subst θ) fun n => unify n t u w where
  settles _ _ hnm := unify_mono hnm t u w
  comesOut := hw.unify_comesOut t u
  sound n w' h := unify_solved n t u w w' hw h
  complete _ hθ heq := exists_unify heq w hw hθ

/-- To unify pairs one after the other adds all their equations. -/
theorem Ready.solving_unifyEach (hw : w.Ready) (ps : List (Term A × Term A)) :
    w.Solving (fun θ => ∀ p ∈ ps, p.1.subst θ = p.2.subst θ) fun n => unifyEach (unify n) ps w where
  settles _ _ hnm := unifyEach_settles (unify_mono hnm) ps w
  comesOut := hw.unifyEach_comesOut ps
  sound n _ h := unifyEach_solved (unify_solved n) hw h
  complete _ hθ heq := exists_unifyEach (fun p hp => ⟨heq p hp, exists_unify (heq p hp)⟩) hw hθ

end unify

end Session

/-! ## Equations in any order -/

section equations

variable [DecidableEq A]

/-- **The order of equations does not matter.**  In an acyclic store with the occurs check on,
    unifying pairs of terms in two orders comes out alike: either both succeed, and leave the
    same variables unbound, the same of these in one class, and every term with the same
    resolved form; or both fail, for whatever reasons. -/
theorem equations_in_any_order {w : Session A} (hw : w.Consistent) (hs : w.store.Acyclic)
    (hcheck : w.trail.occursCheck = true) {ps qs : List (Term A × Term A)} (hperm : ps.Perm qs) :
    ∃ o o', ComesOut (fun n => unifyEach (unify n) ps w) o ∧
      ComesOut (fun n => unifyEach (unify n) qs w) o' ∧ o.Agree (fun _ _ => True) o' := by
  have hready : w.Ready := ⟨hw, hs, hcheck⟩
  obtain ⟨o, ho⟩ := hready.unifyEach_comesOut ps
  obtain ⟨o', ho'⟩ := hready.unifyEach_comesOut qs
  -- one order says of the solutions what the other does
  have hsame : ∀ θ : Var → Term A, (w.store.Solves θ ∧ ∀ p ∈ ps, p.1.subst θ = p.2.subst θ) ↔
      w.store.Solves θ ∧ ∀ q ∈ qs, q.1.subst θ = q.2.subst θ := by
    intro θ
    simp only [hperm.mem_iff]
  exact ⟨o, o', ho, ho', (hready.solving_unifyEach ps).agree (hready.solving_unifyEach qs) hsame
    ho ho' fun _ _ _ _ _ _ => trivial⟩

end equations

/-- Two of four variables are in one class, and a third is to equal the compound `7(Z)` and the
    two, which are to equal `7(8)`.  In one order the class of that variable comes to hold
    `7(Z)` and in the other `7(8)`, but it resolves to `7(8)` in both. -/
theorem compounds_in_any_order :
    let ps : List (Term Nat × Term Nat) :=
      [(.var ⟨0⟩, .app 7 [.var ⟨3⟩]), (.var ⟨1⟩, .app 7 [.app 8 []]), (.var ⟨0⟩, .var ⟨2⟩)]
    ∃ w v v' : Session Nat, w.Consistent ∧ w.store.Acyclic ∧ w.trail.occursCheck = true ∧
      w.store.aliased ⟨1⟩ ⟨2⟩ = true ∧ ps.Perm ps.reverse ∧
      unifyEach (unify 5) ps w = .success v ∧ unifyEach (unify 5) ps.reverse w = .success v' ∧
      v.store.value ⟨0⟩ = some ⟨7, [.var ⟨3⟩]⟩ ∧ v'.store.value ⟨0⟩ = some ⟨7, [.app 8 []]⟩ ∧
      v.store.resolved 5 (.var ⟨0⟩) = some (.app 7 [.app 8 []]) ∧
      v'.store.resolved 5 (.var ⟨0⟩) = some (.app 7 [.app 8 []]) ∧
      ∃ o o', ComesOut (fun n => unifyEach (unify n) ps w) o ∧
        ComesOut (fun n => unifyEach (unify n) ps.reverse w) o' ∧
        o.Agree (fun _ _ => True) o' := by
  intro ps
  have hrun : ∃ w v v' : Session Nat, Session.perform ⟨(Store.empty.freshMany 4).2, .start true⟩
      [.bind 5 ⟨1⟩ ⟨2⟩] = some w ∧ w.store.aliased ⟨1⟩ ⟨2⟩ = true ∧
      unifyEach (unify 5) ps w = .success v ∧ unifyEach (unify 5) ps.reverse w = .success v' ∧
      v.store.value ⟨0⟩ = some ⟨7, [.var ⟨3⟩]⟩ ∧ v'.store.value ⟨0⟩ = some ⟨7, [.app 8 []]⟩ ∧
      v.store.resolved 5 (.var ⟨0⟩) = some (.app 7 [.app 8 []]) ∧
      v'.store.resolved 5 (.var ⟨0⟩) = some (.app 7 [.app 8 []]) :=
    ⟨_, _, _, rfl, rfl, rfl, rfl, rfl, rfl, rfl, rfl⟩
  obtain ⟨w, v, v', hw, halias, hv, hv', hvalue, hvalue', hform, hform'⟩ := hrun
  have hready := Session.ready_of_perform 4 hw
  have hperm : ps.Perm ps.reverse := ps.reverse_perm.symm
  exact ⟨w, v, v', hready.consistent, hready.acyclic, hready.check, halias, hperm, hv, hv',
    hvalue, hvalue', hform, hform',
    equations_in_any_order hready.consistent hready.acyclic hready.check hperm⟩

end Horn
