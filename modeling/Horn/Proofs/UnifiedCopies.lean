import Horn.Proofs.SideBySide
import Horn.Proofs.Unseen
import Horn.Proofs.Untouched

/-! # Unifying copies

    In copies that are made through one renaming, values have taken the place of bound
    variables, and one new variable that of all variables of an unbound class.  So unifying
    the copies goes down into compounds where unifying the originals merges classes, or finds
    variables in one class already.

    A solution that reads the originals goes with one that reads the copies alike, and the
    other way round (`Store.Copied.abreast`).  So the two unifications come out alike
    (`Session.Abreast.agreeOn`).

    The variables made before the copies are not met when these are unified, for the new
    ones are all unbound at first and alone in their classes (`unify_young`).

    Main statement: `copies_unify_alike`. -/

namespace Horn

universe u

variable {A : Type u}

/-! ## Two copies -/

/-- The terms `t'` and `u'` are copies of `t` and `u`, made one after the other through one
    renaming that was empty, and the store is then `s'`. -/
def Store.CopiedTogether (s : Store A) (t u t' u' : Term A) (s' : Store A) : Prop :=
  ∃ n m r r' s₁, s.copy n t .empty = some (t', r, s₁) ∧ s₁.copy m u r = some (u', r', s')

/-- What there is to say of two such copies, where `p` is how far copying has got. -/
structure Store.Copied (s : Store A) (p : Copying) (t u t' u' : Term A) : Prop where
  since : p.Since s.nextVar
  proper : p.Proper
  /-- The copies are over new variables. -/
  young : t'.Within (fun x => s.nextVar ≤ x.id) ∧ u'.Within fun x => s.nextVar ≤ x.id
  /-- Where a class and the variable that stands for it are read alike, so are originals and
      copies. -/
  reads : ∀ θ θ', s.Solves θ → p.Reads s θ θ' → t'.subst θ' = t.subst θ ∧ u'.subst θ' = u.subst θ

section copies

variable {s s' : Store A} {p : Copying} {t u t' u' : Term A}

theorem Store.CopiedTogether.copied (h : s.CopiedTogether t u t' u' s') :
    ∃ p : Copying, s' = s.setNext p.nextVar ∧ s.Copied p t u t' u' := by
  obtain ⟨n, m, r, r', s₁, hfirst, hsecond⟩ := h
  obtain ⟨⟨_, p₁⟩, ht, he⟩ := Option.map_eq_some_iff.mp hfirst
  cases he
  obtain ⟨⟨_, p⟩, hu, he⟩ := Option.map_eq_some_iff.mp hsecond
  cases he
  -- the first copy has only moved on the number of the next variable
  have hu' : s.copyTerm m u p₁ = some (u', p) := by
    rw [← s.copyTerm_setNext p₁.nextVar]
    exact hu
  obtain ⟨hyoung, hsince₁⟩ := s.copyTerm_fresh n t _ t' p₁ ht (Copying.since_empty s.nextVar)
  obtain ⟨hyoung', hsince⟩ := s.copyTerm_fresh m u p₁ u' p hu' hsince₁
  have hcopies := copyTerm_copies n t _ t' p₁ ht
  have hcopies' := copyTerm_copies m u p₁ u' p hu'
  refine ⟨p, rfl, hsince, hcopies'.proper (hcopies.proper (Copying.proper_empty _)),
    ⟨hyoung.mono fun _ hx => hx.1, hyoung'.mono fun _ hx => hx.1⟩, fun θ θ' hθ hread => ⟨?_, ?_⟩⟩
  · exact copyTerm_subst hθ n t _ t' p₁ ht (hread.of_grows hcopies'.grows)
  · exact copyTerm_subst hθ m u p₁ u' p hu' hread

/-- In an acyclic store any two terms can be copied. -/
theorem Store.Acyclic.exists_copiedTogether (hs : s.Acyclic) (t u : Term A) :
    ∃ t' u' s', s.CopiedTogether t u t' u' s' := by
  obtain ⟨n, ⟨t', p₁⟩, ht⟩ := (hs.ends t).copyTerm ⟨.empty, s.nextVar⟩
  obtain ⟨m, ⟨u', p⟩, hu⟩ := (hs.ends u).copyTerm p₁
  have hu' : (s.setNext p₁.nextVar).copyTerm m u p₁ = some (u', p) := by
    rw [s.copyTerm_setNext]
    exact hu
  exact ⟨t', u', _, n, m, _, _, _, Option.map_eq_some_iff.mpr ⟨_, ht, rfl⟩,
    Option.map_eq_some_iff.mpr ⟨_, hu', rfl⟩⟩

/-- **Originals and copies are read alike** by solutions of the store that go together. -/
theorem Store.Copied.abreast {w : Session A} (h : w.store.Copied p t u t' u') (hw : w.Ready)
    (hscope : w.store.Scoped w.store.nextVar) (m : Nat) :
    Session.Abreast (p.Reads w.store) (w.setNext m) (w.setNext m) where
  left := hw.setNext m
  right := hw.setNext m
  ahead θ hθ := by
    have hold := Store.solves_setNext.mp hθ
    -- only new variables are given something else
    obtain ⟨θ', hsame, hread⟩ := h.since.exists_reads h.proper hold θ
    exact ⟨θ', hread, Store.solves_setNext.mpr (hscope.solves_congr hold hsame)⟩
  back θ' _ := by
    obtain ⟨θ, hθ, hread⟩ := hw.acyclic.exists_reads p θ'
    exact ⟨θ, hread, Store.solves_setNext.mpr hθ⟩

end copies

/-! ## Attempts that come out alike -/

/-- Two attempts have ended alike: as successes after which `ts` and `ts'` have the same
    resolved forms up to a renaming, or as failures for like reasons. -/
inductive Outcome.AgreeOn (ts ts' : List (Term A)) : Outcome A → Outcome A → Prop where
  | success {w w' : Session A} (h : Store.VariantTerms ts w.store ts' w'.store) :
      AgreeOn ts ts' (.success w) (.success w')
  | failure {e e' : Clash A} (w w' : Session A) (h : e.Like e') :
      AgreeOn ts ts' (.failure e w) (.failure e' w')

section unify

variable [DecidableEq A] {w w' : Session A} {t u t' u' : Term A} {o o' : Outcome A}
  {R : (Var → Term A) → (Var → Term A) → Prop}

omit [DecidableEq A] in
/-- Terms that related solutions read alike are variants. -/
theorem Session.Abreast.variantTerms (h : Abreast R w w') {ts ts' : List (Term A)}
    (hreads : ∀ θ θ', R θ θ' → w.store.Solves θ → w'.store.Solves θ' →
      ts'.map (Term.subst θ') = ts.map (Term.subst θ)) :
    Store.VariantTerms ts w.store ts' w'.store := by
  refine h.left.acyclic.variantTerms_of_instances h.right.acyclic fun us => ⟨?_, ?_⟩
  · rintro ⟨θ, hθ, rfl⟩
    obtain ⟨θ', hR, hθ'⟩ := h.ahead θ hθ
    exact ⟨θ', hθ', hreads θ θ' hR hθ hθ'⟩
  · rintro ⟨θ', hθ', rfl⟩
    obtain ⟨θ, hR, hθ⟩ := h.back θ' hθ'
    exact ⟨θ, hθ, (hreads θ θ' hR hθ hθ').symm⟩

/-- **Terms that related solutions read alike are unified alike.** -/
theorem Session.Abreast.agreeOn (h : Abreast R w w')
    (hreads : ∀ θ θ', R θ θ' → w.store.Solves θ → w'.store.Solves θ' →
      t'.subst θ' = t.subst θ ∧ u'.subst θ' = u.subst θ)
    (ho : ComesOut (fun n => unify n t u w) o) (ho' : ComesOut (fun n => unify n t' u' w') o') :
    o.AgreeOn [t, u] [t', u'] o' := by
  have hsides : SidesMatch R w w' t u t' u' := by
    intro θ θ' hR hθ hθ'
    obtain ⟨ht, hu⟩ := hreads θ θ' hR hθ hθ'
    rw [sides, sides, ht, hu]
  obtain ⟨hne, n, hn⟩ := ho
  obtain ⟨hne', m, hm⟩ := ho'
  specialize hn n le_rfl
  specialize hm m le_rfl
  cases o with
  | cutOff => exact absurd rfl hne
  | success v =>
    cases o' with
    | cutOff => exact absurd rfl hne'
    | failure e' v' => exact absurd hm (h.not_failure hsides hn)
    | success v' =>
      have hsolved := unify_solved n t u w v h.left hn
      have hsolved' := unify_solved m t' u' w' v' h.right hm
      refine .success ((h.of_success hsides hn hm).variantTerms fun θ θ' hR hθ hθ' => ?_)
      -- what solves the sessions afterwards solved them before
      obtain ⟨ht, hu⟩ := hreads θ θ' hR ((hsolved.solves θ).mp hθ).1 ((hsolved'.solves θ').mp hθ').1
      simp only [List.map_cons, List.map_nil, ht, hu]
  | failure e v =>
    cases o' with
    | cutOff => exact absurd rfl hne'
    | success v' => exact absurd hn (h.symm.not_failure hsides.symm hm)
    | failure e' v' => exact .failure v v' (h.fail_like n m hsides hn hm)

/-! ## Older variables -/

/-- Unifying terms over variables from number `a` on leaves those below untouched, if values
    mention none of the later ones and these are alone in their classes. -/
theorem unify_young {s : Store A} (hs : s.Consistent) {a : Nat} (hscope : s.Scoped a) (tr : Trail)
    (ht : t.Within fun x => a ≤ x.id) (hu : u.Within fun x => a ≤ x.id) (n : Nat) :
    (unify n t u ⟨s, tr⟩).Ends (fun v => ∀ x : Var, x.id < a → s.Untouched x v.store)
      (fun v => ∀ x : Var, x.id < a → s.Untouched x v.store) := by
  have hclasses : ∀ x y : Var, x.id < a → s.classOf y = s.classOf x → y.id < a := fun _ _ =>
    hscope.lt_of_classOf_eq
  -- on a trail without moves nothing is recorded of the older variables
  let w₀ : Session A := ⟨s, .start tr.occursCheck⟩
  have hends := unify_ends (Session.stable_spares hs (fun x hx => Nat.not_le_of_lt hx) w₀) n t u
    w₀ ht hu ⟨.refl (Session.consistent_start hs _) hscope.closed_young,
      .start (Store.spares_self hclasses) _⟩
  have huntouched : ∀ v : Session A, v.Spares s (fun x : Var => x.id < a) →
      ∀ x : Var, x.id < a → s.Untouched x v.store := fun v hv x hx =>
    hv.store.untouched_of_classes hs hclasses hx
  rw [unify_start]
  revert hends
  cases unify n t u w₀ with
  | success v => exact fun hv => huntouched v hv.2
  | failure e v => exact huntouched v
  | cutOff => exact fun _ => trivial

/-! ## Copies and originals -/

/-- **Copies are unified as the originals are.**  In an acyclic store with the occurs check on
    let two terms be copied through one new renaming.  Then unifying the copies and unifying
    the originals come out alike: either both succeed, and the resolved forms of the copies
    are those of the originals up to a one-to-one renaming of unbound variables; or both
    fail, at the occurs check both or with the same two names or arities.  And whatever comes
    of unifying the copies, every variable that existed before they were made keeps its
    class, its value, and the variables it is aliased with. -/
theorem copies_unify_alike {w : Session A} (hw : w.Consistent)
    (hscope : w.store.Scoped w.store.nextVar) (hs : w.store.Acyclic)
    (hcheck : w.trail.occursCheck = true) (t u : Term A) :
    (∃ t' u' s', w.store.CopiedTogether t u t' u' s') ∧
    ∀ t' u' s', w.store.CopiedTogether t u t' u' s' →
      (∃ o o', ComesOut (fun n => unify n t u ⟨s', w.trail⟩) o ∧
        ComesOut (fun n => unify n t' u' ⟨s', w.trail⟩) o' ∧ o.AgreeOn [t, u] [t', u'] o') ∧
      ∀ n, (unify n t' u' ⟨s', w.trail⟩).Ends
        (fun v => ∀ x, w.store.Born x → s'.Untouched x v.store)
        (fun v => ∀ x, w.store.Born x → s'.Untouched x v.store) := by
  have hready : w.Ready := ⟨hw, hs, hcheck⟩
  refine ⟨hs.exists_copiedTogether t u, fun t' u' s' hcopies => ?_⟩
  obtain ⟨p, rfl, hcopied⟩ := hcopies.copied
  have hready' : (w.setNext p.nextVar).Ready := hready.setNext _
  constructor
  · obtain ⟨o, ho⟩ := hready'.unify_comesOut t u
    obtain ⟨o', ho'⟩ := hready'.unify_comesOut t' u'
    refine ⟨o, o', ho, ho', (hcopied.abreast hready hscope _).agreeOn ?_ ho ho'⟩
    intro θ θ' hread hθ _
    exact hcopied.reads θ θ' (Store.solves_setNext.mp hθ) hread
  · intro n
    exact unify_young hready'.consistent.store (hscope.setNext _) w.trail hcopied.young.1
      hcopied.young.2 n

end unify

/-- The variables `X` and `Y` are in one class, and `U` has the value `7(X)`.  To unify
    `9(U, X)` with `9(7(Y), V)` the value of `U` is compared and `V` joins `X` and `Y`.  In the
    copies `9(7(A), A)` and `9(7(A), B)` there is no bound variable, and `B` joins `A`. -/
theorem values_compared_in_copies :
    let t : Term Nat := .app 9 [.var ⟨2⟩, .var ⟨0⟩]
    let u : Term Nat := .app 9 [.app 7 [.var ⟨1⟩], .var ⟨3⟩]
    let t' : Term Nat := .app 9 [.app 7 [.var ⟨4⟩], .var ⟨4⟩]
    let u' : Term Nat := .app 9 [.app 7 [.var ⟨4⟩], .var ⟨5⟩]
    ∃ (w v v' : Session Nat) (s' : Store Nat), w.Consistent ∧
      w.store.Scoped w.store.nextVar ∧ w.store.Acyclic ∧ w.trail.occursCheck = true ∧
      w.store.nextVar = 4 ∧ w.store.CopiedTogether t u t' u' s' ∧
      unify 4 t u ⟨s', w.trail⟩ = .success v ∧ unify 4 t' u' ⟨s', w.trail⟩ = .success v' ∧
      v.store.aliased ⟨1⟩ ⟨3⟩ = true ∧ v'.store.aliased ⟨1⟩ ⟨3⟩ = false ∧
      v'.store.aliased ⟨4⟩ ⟨5⟩ = true ∧
      Outcome.AgreeOn [t, u] [t', u'] (.success v) (.success v') ∧
      ∀ x : Var, x.id < 4 → s'.Untouched x v'.store := by
  intro t u t' u'
  let calls : List (Call Nat) := [.bind 5 ⟨0⟩ ⟨1⟩, .resolve 5 ⟨2⟩ ⟨7, [.var ⟨0⟩]⟩]
  have hrun : ∃ (w v v' : Session Nat) (r r' : Renaming) (s₁ s' : Store Nat),
      Session.perform ⟨(Store.empty.freshMany 4).2, .start true⟩ calls = some w ∧
      w.store.nextVar = 4 ∧ w.store.copy 4 t .empty = some (t', r, s₁) ∧
      s₁.copy 4 u r = some (u', r', s') ∧ unify 4 t u ⟨s', w.trail⟩ = .success v ∧
      unify 4 t' u' ⟨s', w.trail⟩ = .success v' ∧ v.store.aliased ⟨1⟩ ⟨3⟩ = true ∧
      v'.store.aliased ⟨1⟩ ⟨3⟩ = false ∧ v'.store.aliased ⟨4⟩ ⟨5⟩ = true :=
    ⟨_, _, _, _, _, _, _, rfl, rfl, rfl, rfl, rfl, rfl, rfl, rfl, rfl⟩
  obtain ⟨w, v, v', r, r', s₁, s', hw, hnext, ht, hu, hv, hv', halias, hno, halias'⟩ := hrun
  have hcalls : ∀ c ∈ calls, c.Within fun x => x.id < 4 :=
    List.forall_mem_cons.mpr ⟨⟨by decide, by decide⟩,
      List.forall_mem_singleton.mpr ⟨by decide, Compound.within_of_var (by decide)⟩⟩
  have hready := Session.ready_of_perform 4 hw
  have hscope := (Session.sound_of_perform 4 hcalls hw).inScope.store
  have hcopied : w.store.CopiedTogether t u t' u' s' := ⟨4, 4, r, r', s₁, ht, hu⟩
  obtain ⟨⟨o, o', ho, ho', hagree⟩, huntouched⟩ := (copies_unify_alike hready.consistent hscope
    hready.acyclic hready.check t u).2 t' u' s' hcopied
  rw [unify_eq_of_comesOut ho hv nofun, unify_eq_of_comesOut ho' hv' nofun] at hagree
  have hleft := huntouched 4
  rw [hv'] at hleft
  refine ⟨w, v, v', s', hready.consistent, hscope, hready.acyclic, hready.check, hnext, hcopied,
    hv, hv', halias, hno, halias', hagree, fun x hx => hleft x ?_⟩
  rw [Store.Born, hnext]
  exact hx

end Horn
