import Horn.Proofs.Equations

/-! # Unification computes most general unifiers

    With the occurs check on, a successful attempt to unify two terms in an acyclic
    store adds one equation to what the store says: the substitutions that solve
    the new store are those that solve the old one and make the terms equal
    (`unify_solved`).  Conversely, wherever a solution of the store makes the terms
    equal the attempt succeeds (`exists_unify`).

    The main statement, `unify_most_general`, says both in terms of resolved
    forms. -/

namespace Horn

universe u

variable {A : Type u}

/-! ## What a success tells -/

theorem Outcome.andThen_eq_success {o : Outcome A} {next : Session A → Outcome A}
    {w' : Session A} (h : o.andThen next = .success w') :
    ∃ w, o = .success w ∧ next w = .success w' := by
  cases o with
  | success w => exact ⟨w, rfl, h⟩
  | failure e w => cases h
  | cutOff => cases h

theorem Outcome.undoingTo_eq_success {o : Outcome A} {mark : Nat} {w' : Session A}
    (h : o.undoingTo mark = .success w') : o = .success w' := by
  cases o with
  | success w => exact h
  | failure e w => cases h
  | cutOff => cases h

/-- If the occurs check lets pass, the class is not met in the value. -/
theorem Session.checkingOccurs_eq_success {w w' : Session A} {n : Nat} {x : Var}
    {c : Compound A} {next : Session A → Outcome A} (hcheck : w.trail.occursCheck = true)
    (h : w.checkingOccurs n x c next = .success w') :
    ¬ w.store.Meets (w.store.classOf x) c.toTerm ∧ next w = .success w' := by
  rw [checkingOccurs, if_pos hcheck] at h
  split at h
  · cases h
  · -- the check has said no, and it tells the truth
    next hc => exact ⟨fun hm => Bool.false_ne_true ((Store.contains_iff hc).mpr hm), h⟩
  · split at h
    · cases h
    · cases h

/-! ## A success solves an equation -/

/-- Whenever it succeeds in a ready session, the unifier has made the terms equal and
    done nothing else. -/
def Unifier.Solves (f : Unifier A) : Prop :=
  ∀ t u w w', w.Ready → f t u w = .success w' →
    w.Solved (fun θ => t.subst θ = u.subst θ) w'

section solves

variable {f : Unifier A} {w w' : Session A}

theorem Session.resolveBy_solved (hf : f.Solves) {n : Nat} {x : Var} {c : Compound A}
    (hw : w.Ready) (h : w.resolveBy f n x c = .success w') :
    w.Solved (fun θ => θ x = c.toTerm.subst θ) w' := by
  unfold resolveBy at h
  split at h
  · next d hd =>
    have hdc := hf _ _ w w' hw (Outcome.undoingTo_eq_success h)
    refine hdc.congr fun θ hθ => ?_
    rw [hθ.bound x d hd]
  · next hx =>
    obtain ⟨hmeets, hnext⟩ := checkingOccurs_eq_success hw.check h
    cases hnext
    exact .gather_value hw hx hmeets (List.mem_singleton_self _)
      fun z hz => .inl (List.mem_singleton.mp hz)

/-- Two classes, the first unbound and the second with value `c`. -/
theorem Session.merge_solved_value (hw : w.Ready) {x y : Var} {c : Compound A}
    (hxy : w.store.aliased x y = false) (hx : w.store.value x = none)
    (hy : w.store.value y = some c)
    (hmeets : ¬ w.store.Meets (w.store.classOf x) c.toTerm) :
    w.Solved (fun θ => θ x = θ y) (w.merge x y (some c)) ∧
      w.Solved (fun θ => θ x = θ y) (w.merge y x (some c)) := by
  have hyx : w.store.aliased y x = false := by
    rw [Bool.eq_false_iff, ne_eq, Store.aliased_iff] at hxy ⊢
    exact fun e => hxy e.symm
  have hcs : ∀ z, w.store.classOf z = w.store.classOf x ∨ w.store.classOf z = w.store.classOf y →
      w.store.classOf z = w.store.classOf x ∨ w.store.value z = some c := by
    rintro z (hz | hz)
    · exact .inl hz
    · exact .inr ((Store.value_eq_of_classOf_eq hz).trans hy)
  have heq : ∀ θ, w.store.Solves θ → (θ x = c.toTerm.subst θ ↔ θ x = θ y) := fun θ hθ => by
    rw [hθ.bound y c hy]
  simp only [merge, hxy, hyx, Bool.false_eq_true, if_false]
  constructor
  · refine (Solved.gather_value hw hx hmeets (List.mem_pair.mpr (.inl rfl)) ?_).congr heq
    exact fun z hz => hcs z (List.mem_pair.mp hz)
  · refine (Solved.gather_value hw hx hmeets (List.mem_pair.mpr (.inr rfl)) ?_).congr heq
    exact fun z hz => hcs z (List.mem_pair.mp hz).symm

/-- Two classes whose values have been unified: to merge them says nothing new. -/
theorem Session.merge_solved_bound {x y : Var} {c d : Compound A} (hx : w.store.value x = some c)
    (hy : w.store.value y = some d)
    (hcd : w.Solved (fun θ => c.toTerm.subst θ = d.toTerm.subst θ) w') :
    w'.Solved (fun _ => True) (w'.merge x y (some c)) := by
  have hreads : ∀ θ, w'.store.Solves θ → θ x = c.toTerm.subst θ ∧ θ y = c.toTerm.subst θ := by
    intro θ hθ
    obtain ⟨hθw, heq⟩ := (hcd.solves θ).mp hθ
    exact ⟨hθw.bound x c hx, (hθw.bound y d hy).trans heq.symm⟩
  rw [merge]
  split
  · exact .refl hcd.ready fun _ _ => trivial
  · exact .gather_bound hcd.ready hreads

theorem Session.bindBy_solved (hf : f.Solves) {n : Nat} {x y : Var} (hw : w.Ready)
    (h : w.bindBy f n x y = .success w') : w.Solved (fun θ => θ x = θ y) w' := by
  unfold bindBy at h
  split at h
  · next hxy =>
    cases h
    exact .refl hw fun θ hθ => hθ.joined x y (Store.aliased_iff.mp hxy)
  · next hxy =>
    have hne : w.store.aliased x y = false := Bool.eq_false_iff.mpr hxy
    have hne' : w.store.aliased y x = false := by
      rw [Bool.eq_false_iff, ne_eq, Store.aliased_iff] at hne ⊢
      exact fun e => hne e.symm
    split at h
    · next hx hy =>
      cases h
      rw [merge, if_neg hxy]
      exact .gather_unbound hw hx hy
    · next c hx hy =>
      obtain ⟨hmeets, hnext⟩ := checkingOccurs_eq_success hw.check h
      cases hnext
      exact (merge_solved_value hw hne' hy hx hmeets).2.congr fun _ _ => eq_comm
    · next c hx hy =>
      obtain ⟨hmeets, hnext⟩ := checkingOccurs_eq_success hw.check h
      cases hnext
      exact (merge_solved_value hw hne hx hy hmeets).1
    · next c d hx hy =>
      -- the values have been made equal; the merge then says nothing new
      obtain ⟨w₁, h₁, h₂⟩ := Outcome.andThen_eq_success h
      cases h₂
      have hcd := hf _ _ w w₁ hw (Outcome.undoingTo_eq_success h₁)
      refine (hcd.trans (merge_solved_bound hx hy hcd)).congr fun θ hθ => ?_
      rw [hθ.bound x c hx, hθ.bound y d hy, and_true]

theorem unifyEach_solved (hf : f.Solves) {ps : List (Term A × Term A)} (hw : w.Ready)
    (h : unifyEach f ps w = .success w') :
    w.Solved (fun θ => ∀ p ∈ ps, p.1.subst θ = p.2.subst θ) w' := by
  induction ps generalizing w with
  | nil =>
    cases h
    exact .refl hw fun θ _ p hp => by cases hp
  | cons p ps ih =>
    -- the first pair adds its equation, and the rest adds its own to that
    obtain ⟨w₁, h₁, h₂⟩ := Outcome.andThen_eq_success h
    have hfirst := hf p.1 p.2 w w₁ hw h₁
    refine (hfirst.trans (ih hfirst.ready h₂)).congr fun θ _ => ?_
    rw [List.forall_mem_cons]

variable [DecidableEq A]

/-- A successful attempt makes two terms equal and does nothing else. -/
theorem unify_solved (n : Nat) : (unify n : Unifier A).Solves := by
  induction n with
  | zero =>
    intro t u w w' _ h
    cases h
  | succ n ih =>
    intro t u w w' hw h
    cases t with
    | var x =>
      cases u with
      | var y => exact Session.bindBy_solved ih hw h
      | app g bs => exact Session.resolveBy_solved ih hw h
    | app f as =>
      cases u with
      | var y => exact (Session.resolveBy_solved ih hw h).congr fun _ _ => eq_comm
      | app g bs =>
        rw [unify] at h
        split at h
        · cases h
        · next hname =>
          split at h
          · cases h
          · next hlen =>
            refine (unifyEach_solved ih hw h).congr fun θ _ => ?_
            rw [Term.subst_app, Term.subst_app, Term.app.injEq,
              Decidable.not_not.mp hname, eq_self, true_and]
            exact (map_eq_map_iff_forall_zip (Decidable.not_not.mp hlen)).symm

end solves

/-! ## Equal terms can be unified -/

section unifiable

/-- What is not met in a value passes the occurs check. -/
theorem Session.exists_checkingOccurs {w : Session A} (hw : w.Ready) {x : Var}
    {c : Compound A} (hmeets : ¬ w.store.Meets (w.store.classOf x) c.toTerm) :
    ∃ n, ∀ next, w.checkingOccurs n x c next = next w := by
  obtain ⟨n, b, hn⟩ := (hw.acyclic.ends c.toTerm).contains x
  have hb : b = false := Bool.eq_false_iff.mpr fun e => hmeets ((Store.contains_iff hn).mp e)
  refine ⟨n, fun next => ?_⟩
  rw [checkingOccurs, if_pos hw.check, hn, hb]

variable [DecidableEq A] {θ : Var → Term A}

/-- A pair of terms that can be unified in every ready session that `θ` solves. -/
def Unifiable (θ : Var → Term A) (t u : Term A) : Prop :=
  ∀ w : Session A, w.Ready → w.store.Solves θ → ∃ n w', unify n t u w = .success w'

theorem exists_unifyEach {ps : List (Term A × Term A)}
    (hps : ∀ p ∈ ps, p.1.subst θ = p.2.subst θ ∧ Unifiable θ p.1 p.2) {w : Session A}
    (hw : w.Ready) (hθ : w.store.Solves θ) :
    ∃ n w', unifyEach (unify n) ps w = .success w' := by
  induction ps generalizing w with
  | nil => exact ⟨0, w, rfl⟩
  | cons p ps ih =>
    obtain ⟨⟨heq, hp⟩, hrest⟩ := List.forall_mem_cons.mp hps
    obtain ⟨n, w₁, h₁⟩ := hp w hw hθ
    have hsolved := unify_solved n p.1 p.2 w w₁ hw h₁
    obtain ⟨m, w₂, h₂⟩ := ih hrest hsolved.ready ((hsolved.solves θ).mpr ⟨hθ, heq⟩)
    refine ⟨max n m, w₂, ?_⟩
    rw [unifyEach_cons_of_success h₁ (by rw [h₂]; exact nofun), h₂]

/-- Compounds that become equal can be unified if their arguments can, as far as
    these become equal. -/
theorem unifiable_toTerm {c d : Compound A} (heq : c.toTerm.subst θ = d.toTerm.subst θ)
    (hargs : ∀ a ∈ c.args, ∀ b, a.subst θ = b.subst θ → Unifiable θ a b) :
    Unifiable θ c.toTerm d.toTerm := by
  intro w hw hθ
  -- name and number of arguments agree, and the arguments become the same in pairs
  obtain ⟨hsig, heach⟩ := Compound.subst_eq_subst_iff.mp heq
  obtain ⟨hname, hlen⟩ : c.name = d.name ∧ c.args.length = d.args.length :=
    Signature.mk.inj hsig
  have hpairs : ∀ p ∈ c.args.zip d.args, p.1.subst θ = p.2.subst θ ∧ Unifiable θ p.1 p.2 :=
    fun p hp => ⟨heach p hp, hargs p.1 (List.of_mem_zip hp).1 p.2 (heach p hp)⟩
  obtain ⟨n, w', h⟩ := exists_unifyEach hpairs hw hθ
  refine ⟨n + 1, w', ?_⟩
  rw [Compound.toTerm, Compound.toTerm, unify, if_neg (not_not.mpr hname),
    if_neg (not_not.mpr hlen)]
  exact h

/-- A variable and a compound that become equal can be unified if the compound can be
    with every compound of its size. -/
theorem exists_resolveBy {x : Var} {c : Compound A} (heq : θ x = c.toTerm.subst θ)
    (hc : ∀ d : Compound A, d.toTerm.subst θ = c.toTerm.subst θ → Unifiable θ d.toTerm c.toTerm)
    {w : Session A} (hw : w.Ready) (hθ : w.store.Solves θ) :
    ∃ n w', w.resolveBy (unify n) n x c = .success w' := by
  unfold Session.resolveBy
  split
  · -- a bound variable hands the question on to its value
    next d hd =>
    obtain ⟨n, w', h⟩ := hc d ((hθ.bound x d hd).symm.trans heq) w hw hθ
    exact ⟨n, w', by rw [h]; rfl⟩
  · obtain ⟨n, hn⟩ := Session.exists_checkingOccurs hw (hθ.not_meets heq)
    exact ⟨n, _, hn _⟩

theorem exists_bindBy {x y : Var} (heq : θ x = θ y)
    (hc : ∀ c d : Compound A, c.toTerm.subst θ = θ x → d.toTerm.subst θ = θ x →
      Unifiable θ c.toTerm d.toTerm)
    {w : Session A} (hw : w.Ready) (hθ : w.store.Solves θ) :
    ∃ n w', w.bindBy (unify n) n x y = .success w' := by
  unfold Session.bindBy
  split
  · exact ⟨0, w, rfl⟩
  · split
    · exact ⟨0, _, rfl⟩
    · -- the other variable takes the value `c`, in which it is not met
      next c hx _ =>
      have hyc : θ y = c.toTerm.subst θ := heq.symm.trans (hθ.bound x c hx)
      obtain ⟨n, hn⟩ := Session.exists_checkingOccurs hw (hθ.not_meets hyc)
      exact ⟨n, _, hn _⟩
    · next c _ hy =>
      obtain ⟨n, hn⟩ := Session.exists_checkingOccurs hw
        (hθ.not_meets (heq.trans (hθ.bound y c hy)))
      exact ⟨n, _, hn _⟩
    · next c d hx hy =>
      obtain ⟨n, w', h⟩ := hc c d (hθ.bound x c hx).symm ((hθ.bound y d hy).symm.trans heq.symm)
        w hw hθ
      exact ⟨n, _, by rw [h]; rfl⟩

/-- Terms that a solution makes equal can be unified.  The induction is on the size of
    what they become: two compounds lead to their arguments, which become smaller, and
    a variable leads to its value, which is a compound of the same size. -/
theorem exists_unify {t u : Term A} (heq : t.subst θ = u.subst θ) : Unifiable θ t u := by
  induction hk : sizeOf (t.subst θ) using Nat.strong_induction_on generalizing t u with
  | _ k ih =>
    subst hk
    -- compounds hand the question on to their arguments, which become smaller
    have hcompound : ∀ c d : Compound A, c.toTerm.subst θ = t.subst θ →
        d.toTerm.subst θ = t.subst θ → Unifiable θ c.toTerm d.toTerm := by
      intro c d hc hd
      refine unifiable_toTerm (hc.trans hd.symm) fun a ha b hab => ih _ ?_ hab rfl
      rw [← hc]
      exact Store.sizeOf_subst_arg θ ha
    intro w hw hθ
    cases t with
    | var x =>
      cases u with
      | var y =>
        obtain ⟨n, w', h⟩ := exists_bindBy heq hcompound hw hθ
        exact ⟨n + 1, w', h⟩
      | app g bs =>
        obtain ⟨n, w', h⟩ := exists_resolveBy (c := ⟨g, bs⟩) heq
          (fun d hd => hcompound d _ (hd.trans heq.symm) heq.symm) hw hθ
        exact ⟨n + 1, w', h⟩
    | app f as =>
      cases u with
      | var y =>
        obtain ⟨n, w', h⟩ := exists_resolveBy (c := ⟨f, as⟩) heq.symm
          (fun d hd => hcompound d _ hd rfl) hw hθ
        exact ⟨n + 1, w', h⟩
      | app g bs => exact hcompound ⟨f, as⟩ ⟨g, bs⟩ rfl heq.symm w hw hθ

end unifiable

/-! ## Most general unifiers -/

/-- The assignment `σ` of terms to the unbound classes makes the resolved forms of `t`
    and `u` identical. -/
def Store.Equates (s : Store A) (σ : ClassId → Term A) (t u : Term A) : Prop :=
  ∃ t' u', s.Resolves t t' ∧ s.Resolves u u' ∧ t'.subst (s.assign σ) = u'.subst (s.assign σ)

/-- An assignment equates two terms just if the solution that extends it does. -/
theorem Store.equates_iff {s : Store A} {σ : ClassId → Term A} {θ : Var → Term A}
    (hs : s.Acyclic) (hread : ∀ t u, s.Resolves t u → u.subst (s.assign σ) = t.subst θ)
    (t u : Term A) : s.Equates σ t u ↔ t.subst θ = u.subst θ := by
  constructor
  · rintro ⟨t', u', ht, hu, heq⟩
    rw [← hread t t' ht, ← hread u u' hu]
    exact heq
  · intro heq
    -- in an acyclic store there are resolved forms to speak of
    obtain ⟨t', ht⟩ := hs.exists_resolves t
    obtain ⟨u', hu⟩ := hs.exists_resolves u
    refine ⟨t', u', ht, hu, ?_⟩
    rw [hread t t' ht, hread u u' hu]
    exact heq

/-- A variable for each class. -/
def ClassId.name : ClassId → Var
  | .own x => ⟨2 * x.id⟩
  | .joint k => ⟨2 * k + 1⟩

theorem ClassId.name_injective : Function.Injective ClassId.name := by
  intro c d h
  cases c <;> cases d <;> simp only [ClassId.name, Var.mk.injEq] at h
  · rw [ClassId.own.injEq, Var.ext_iff]
    omega
  · omega
  · omega
  · rw [ClassId.joint.injEq]
    omega

variable [DecidableEq A]

/-- **Unification computes a most general unifier.**  In an acyclic store and with the
    occurs check on, two terms can be unified just if some assignment of terms to the
    unbound classes makes their resolved forms identical.  A success makes the terms
    the same, leaves the store acyclic, and is general: an assignment that equates the
    terms reads every variable afterwards as it did before. -/
theorem unify_most_general (w : Session A) (hw : w.Consistent) (hs : w.store.Acyclic)
    (hcheck : w.trail.occursCheck = true) (t u : Term A) :
    ((∃ n w', unify n t u w = .success w') ↔ ∃ σ, w.store.Equates σ t u) ∧
    ∀ n w', unify n t u w = .success w' →
      (∃ m, w'.store.same m t u = some true) ∧ w'.store.Acyclic ∧
      ∀ σ, w.store.Equates σ t u → ∀ x, ∃ a b,
        w.store.Resolves (.var x) a ∧ w'.store.Resolves (.var x) b ∧
          a.subst (w.store.assign σ) = b.subst (w.store.assign σ) := by
  have hready : w.Ready := ⟨hw, hs, hcheck⟩
  have hsolved : ∀ {n w'}, unify n t u w = .success w' →
      w.Solved (fun θ => t.subst θ = u.subst θ) w' := fun h => unify_solved _ t u w _ hready h
  refine ⟨⟨?_, ?_⟩, ?_⟩
  · rintro ⟨n, w', h⟩
    -- any solution of the new store is made of terms for the old unbound classes
    obtain ⟨θ', hθ', -⟩ := (hsolved h).ready.acyclic.exists_solves fun _ => .var ⟨0⟩
    obtain ⟨hθ, heq⟩ := ((hsolved h).solves θ').mp hθ'
    obtain ⟨σ, hσ⟩ := w.store.exists_assign hθ.joined
    have hread : ∀ t u, w.store.Resolves t u → u.subst (w.store.assign σ) = t.subst θ' := by
      intro t u hu
      rw [hσ]
      exact hθ.subst_resolved hu
    exact ⟨σ, (Store.equates_iff hs hread t u).mpr heq⟩
  · rintro ⟨σ, hσ⟩
    -- an assignment extends to a solution, which makes the terms equal
    obtain ⟨θ, hθ, hread⟩ := hs.exists_solves σ
    exact exists_unify ((Store.equates_iff hs hread t u).mp hσ) w hready hθ
  · intro n w' h
    have hnew := hsolved h
    refine ⟨?_, hnew.ready.acyclic, ?_⟩
    · -- give each unbound class a name of its own: what becomes equal then is the same
      obtain ⟨θ, hθ, hread⟩ := hnew.ready.acyclic.exists_solves fun c => .var c.name
      exact hθ.exists_same (fun x hx => Store.subst_assign_unbound hread hx)
        ClassId.name_injective ((hnew.solves θ).mp hθ).2
    · intro σ hσ x
      obtain ⟨θ, hθ, hread⟩ := hs.exists_solves σ
      have heq := (Store.equates_iff hs hread t u).mp hσ
      have hθ' : w'.store.Solves θ := (hnew.solves θ).mpr ⟨hθ, heq⟩
      obtain ⟨a, ha⟩ := hs.exists_resolves (.var x)
      obtain ⟨b, hb⟩ := hnew.ready.acyclic.exists_resolves (.var x)
      refine ⟨a, b, ha, hb, ?_⟩
      -- the resolved form mentions unbound variables only, of which the solution reads `σ`
      have hafter : b.subst θ = b.subst (w.store.assign σ) :=
        Term.fold_congr fun y hy =>
          Store.subst_assign_unbound hread (hnew.unbound y (hb.unbound hy))
      rw [hread _ a ha, ← hafter, hθ'.subst_resolved hb]

/-- The terms `0(X, Y)` and `0(1(Y), 2)`, for new variables `X` and `Y`, can be unified,
    and are the same afterwards. -/
theorem pairs_unify_most_generally :
    let w : Session Nat := ⟨(Store.empty.freshMany 2).2, .start true⟩
    let t : Term Nat := .app 0 [.var ⟨0⟩, .var ⟨1⟩]
    let u : Term Nat := .app 0 [.app 1 [.var ⟨1⟩], .app 2 []]
    w.Consistent ∧ w.store.Acyclic ∧ w.trail.occursCheck = true ∧
      ∃ n w', unify n t u w = .success w' ∧ ∃ m, w'.store.same m t u = some true := by
  intro w t u
  have hw : w.Consistent := Session.consistent_start Store.consistent_empty.fresh.fresh true
  have hs : w.store.Acyclic := Store.acyclic_of_unbound fun c => by
    cases c with
    | own x => rfl
    | joint k => exact congrArg Joint.value (Table.get_empty k)
  have hall := unify_most_general w hw hs rfl t u
  let σ : ClassId → Term Nat
    | .own ⟨0⟩ => .app 1 [.app 2 []]
    | _ => .app 2 []
  have hσ : w.store.Equates σ t u := ⟨t, u, ⟨3, rfl⟩, ⟨3, rfl⟩, rfl⟩
  obtain ⟨n, w', h⟩ := hall.1.mpr ⟨σ, hσ⟩
  exact ⟨hw, hs, rfl, n, w', h, (hall.2 n w' h).1⟩

end Horn
