import Horn.Proofs.Occurrences

/-! # Resolved forms are normal

    A term that mentions no bound variable is its own resolved form, so what is resolved
    once need not be resolved again.  Printing, groundness and the list of variables look a
    term's variables up on their own ways through the store; what they answer can be told
    from the resolved form, so they answer the same of a term and of its resolved form.
    Comparing and unifying agree on the two since every solution of the store does.

    * `Store.Prints`: the text of a term, resolved first or looked up as it is written.
    * `resolves_self`: what mentions no bound variable resolves to itself.
    * `Ready.exists_success_iff`: terms can be unified just if some solution reads them alike.

    Main statement: `resolved_form_is_normal`. -/

namespace Horn

universe u

variable {A : Type u}

/-! ## Printing -/

namespace Store

section text

variable [Symbol A] {s : Store A} {style : Style}

/-- The text of the term is `txt`, whether the term is resolved and then written down or its
    variables are looked up as they are come to. -/
def Prints (s : Store A) (style : Style) (t : Term A) (txt : String) : Prop :=
  Answers (s.text · style t) txt ∧ Answers (s.printed style · t) txt

theorem Resolves.prints {t u : Term A} (h : s.Resolves t u) : s.Prints style t (u.text style) := by
  obtain ⟨n, hn⟩ := h
  have htext : Answers (s.text · style t) (u.text style) := by
    refine .of_succ (n := n) (fun m txt hm => ?_) ?_
    · obtain ⟨v, hv, rfl⟩ := Option.map_eq_some_iff.mp hm
      exact Option.map_eq_some_iff.mpr ⟨v, s.resolved_succ hv, rfl⟩
    · exact Option.map_eq_some_iff.mpr ⟨u, hn, rfl⟩
  refine ⟨htext, ?_⟩
  simpa only [printed_eq_text] using htext

end text

variable {s : Store A} {t u : Term A}

/-! ## What is resolved already -/

theorem Resolves.answers (h : s.Resolves t u) : Answers (s.resolved · t) u := by
  obtain ⟨n, hn⟩ := h
  exact .of_succ (fun _ _ => s.resolved_succ) hn

/-- A term without bound variables resolves to itself. -/
theorem resolves_self (h : ∀ x, t.Mentions x → s.value x = none) : s.Resolves t t := by
  induction t with
  | var x => exact resolves_unbound (h x .var)
  | app f as ih =>
    obtain ⟨n, hn⟩ := exists_level (P := fun n a => s.resolved n a = some a)
      (fun _ _ => s.resolved_succ) fun a ha => ih a ha fun x hx => h x (.app ha hx)
    refine ⟨n + 1, ?_⟩
    have hargs : as.mapM (s.resolved n) = some as :=
      mapM_eq_some_iff.mpr (List.forall₂_same.mpr hn)
    rw [resolved, hargs]
    rfl

theorem Resolves.self (h : s.Resolves t u) : s.Resolves u u := resolves_self fun _ => h.unbound

/-- In an acyclic store a term is the same as its resolved form. -/
theorem Resolves.equal [DecidableEq A] (h : s.Resolves t u) (hs : s.Acyclic) : s.Equal u t :=
  hs.equal_iff_solves.mpr fun _ hθ => hθ.subst_resolved h

end Store

/-! ## Unification -/

section unify

variable [DecidableEq A] {w : Session A} {t t' : Term A}

/-- Terms can be unified just if some solution of the store reads them alike. -/
theorem Session.Ready.exists_success_iff (hw : w.Ready) (t u : Term A) :
    (∃ n w', unify n t u w = .success w') ↔ ∃ θ, w.store.Solves θ ∧ t.subst θ = u.subst θ := by
  constructor
  · rintro ⟨n, w', hn⟩
    have hsolved := unify_solved n t u w w' hw hn
    obtain ⟨θ, hθ⟩ := hsolved.ready.acyclic.exists_solution
    exact ⟨θ, (hsolved.solves θ).mp hθ⟩
  · rintro ⟨θ, hθ, heq⟩
    exact exists_unify heq w hw hθ

/-- Terms that are read alike can be unified with the same terms, whatever has been written on
    the trail before. -/
theorem exists_success_congr {s : Store A} (hc : s.Consistent) (hs : s.Acyclic) {tr : Trail}
    (hcheck : tr.occursCheck = true) (h : ∀ θ, s.Solves θ → t'.subst θ = t.subst θ) (u : Term A) :
    (∃ n w, unify n t' u ⟨s, tr⟩ = .success w) ↔ ∃ n w, unify n t u ⟨s, tr⟩ = .success w := by
  have hready : Session.Ready ⟨s, .start true⟩ := ⟨Session.consistent_start hc true, hs, rfl⟩
  have hstart : ∀ t, (∃ n w, unify n t u ⟨s, tr⟩ = .success w) ↔
      ∃ θ, s.Solves θ ∧ t.subst θ = u.subst θ := by
    intro t
    rw [← hready.exists_success_iff t u]
    constructor
    · rintro ⟨n, w, hn⟩
      obtain ⟨v, hv, -⟩ := unify_eq_success_iff.mp hn
      rw [hcheck] at hv
      exact ⟨n, v, hv⟩
    · rintro ⟨n, v, hn⟩
      refine ⟨n, _, unify_eq_success_iff.mpr ⟨v, ?_, rfl⟩⟩
      rw [hcheck]
      exact hn
  rw [hstart, hstart]
  refine exists_congr fun θ => and_congr_right fun hθ => ?_
  rw [h θ hθ]

end unify

section normal

variable [DecidableEq A] [Symbol A]

/-- **Resolved forms are normal.**  In an acyclic store every term `t` resolves to some `u`.
    That mentions no bound variable, is the same as `t` and resolves to itself.  It is printed
    as `t` is, in either style, it is ground just if `t` is, and it has the same list of
    variables, one by one.  With the occurs check on it can be unified with the same terms as
    `t`, whatever stands on the trail. -/
theorem resolved_form_is_normal {s : Store A} (hc : s.Consistent) (hs : s.Acyclic) (t : Term A) :
    ∃ u, Answers (s.resolved · t) u ∧ Answers (s.resolved · u) u ∧
      (∀ x, u.Mentions x → s.value x = none) ∧ s.Equal u t ∧
      (∀ style, ∃ txt, s.Prints style t txt ∧ s.Prints style u txt) ∧
      (∃ b, Answers (s.ground · t) b ∧ Answers (s.ground · u) b) ∧
      (∃ xs, Answers (s.freeVars · t) xs ∧ Answers (s.freeVars · u) xs) ∧
      ∀ (tr : Trail) v, tr.occursCheck = true →
        ((∃ n w, unify n u v ⟨s, tr⟩ = .success w) ↔
          ∃ n w, unify n t v ⟨s, tr⟩ = .success w) := by
  obtain ⟨u, hu⟩ := hs.exists_resolves t
  -- all walks can be told from the resolved form, and that of `u` is the one of `t`
  have hself : s.Resolves u u := hu.self
  refine ⟨u, hu.answers, hself.answers, fun x hx => hu.unbound hx, hu.equal hs, ?_, ?_, ?_, ?_⟩
  · intro style
    exact ⟨u.text style, hu.prints, hself.prints⟩
  · exact ⟨_, hu.answers_ground, hself.answers_ground⟩
  · exact ⟨_, hu.answers_freeVars, hself.answers_freeVars⟩
  · intro tr v hcheck
    exact exists_success_congr hc hs hcheck (fun θ hθ => hθ.subst_resolved hu) v

/-- The variables `X` and `Y` are unbound and in one class, and `U` has the value `f(Y)`.  So
    `g(U, X)` resolves to `g(f(Y), X)`.  Both are printed with the two variables by their own
    numbers, and both have `Y` alone in their lists of variables.  Either can be unified with
    `g(f(X), a)`. -/
theorem aliases_stay_in_normal_form :
    let t : Term Char := .app 'g' [.var ⟨2⟩, .var ⟨0⟩]
    let u : Term Char := .app 'g' [.app 'f' [.var ⟨1⟩], .var ⟨0⟩]
    let v : Term Char := .app 'g' [.app 'f' [.var ⟨0⟩], .app 'a' []]
    ∃ s : Store Char, s.Consistent ∧ s.Acyclic ∧ s.aliased ⟨0⟩ ⟨1⟩ = true ∧
      s.value ⟨2⟩ = some ⟨'f', [.var ⟨1⟩]⟩ ∧ s.resolved 3 t = some u ∧ s.Equal u t ∧
      s.Prints .plain t "g(f(_G1), _G0)" ∧ s.Prints .plain u "g(f(_G1), _G0)" ∧
      Answers (s.freeVars · t) [⟨1⟩] ∧ Answers (s.freeVars · u) [⟨1⟩] ∧
      (∃ n w, unify n t v ⟨s, .start true⟩ = .success w) ∧
      ∃ n w, unify n u v ⟨s, .start true⟩ = .success w := by
  intro t u v
  have hrun : ∃ w w' : Session Char, Session.perform ⟨(Store.empty.freshMany 3).2, .start true⟩
      [.bind 3 ⟨0⟩ ⟨1⟩, .resolve 3 ⟨2⟩ ⟨'f', [.var ⟨1⟩]⟩] = some w ∧
      w.store.aliased ⟨0⟩ ⟨1⟩ = true ∧ w.store.value ⟨2⟩ = some ⟨'f', [.var ⟨1⟩]⟩ ∧
      w.store.resolved 3 t = some u ∧ w.store.printed .plain 3 t = some "g(f(_G1), _G0)" ∧
      w.store.freeVars 3 t = some [⟨1⟩] ∧
      unify 4 t v ⟨w.store, .start true⟩ = .success w' :=
    ⟨_, _, rfl, rfl, rfl, rfl, rfl, rfl, rfl⟩
  obtain ⟨w, w', hw, halias, hvalue, hform, hprinted, hvars, hunify⟩ := hrun
  have hready := Session.ready_of_perform 3 hw
  have hc := hready.consistent.store
  obtain ⟨u', hu', -, -, hequal, htext, -, ⟨xs, hxs, hxs'⟩, hsuccess⟩ :=
    resolved_form_is_normal hc hready.acyclic t
  obtain ⟨txt, htxt, htxt'⟩ := htext .plain
  cases hu'.unique hform
  cases hxs.unique hvars
  cases htxt.2.unique hprinted
  have hboth := hsuccess (.start true) v rfl
  exact ⟨w.store, hc, hready.acyclic, halias, hvalue, hform, hequal, htxt, htxt', hxs, hxs',
    ⟨4, w', hunify⟩, hboth.mpr ⟨4, w', hunify⟩⟩

end normal

end Horn
