import Horn.Proofs.Calls
import Horn.Proofs.Refinement
import Horn.Proofs.Solutions

/-! # What a client sees, and what the recursion reports

    A client is called in a store in which a store of the recursion shows.  Terms over
    the variables from before the query read in both alike: for what the classes of one
    are given there is something for the classes of the other that makes no difference
    (`Store.Shows.resolves_reads`), in either direction.

    * `Program.Askable.report_of_call`: wherever a query calls its client, there is a
      report of the recursion with a store that shows there.
    * `Program.Askable.calls_of_return`: if a query returns to a client that always goes
      on, then the report of the recursion shows in all its calls. -/

namespace Horn

universe u v

variable {A : Type u} {σ : Type v}

namespace Store

variable {s : Store A}

/-- If values lead out of a set of variables to no other, neither do resolved forms. -/
theorem Resolves.within {L : Var → Prop} (hL : ∀ x c, L x → s.value x = some c → c.Within L)
    {t u : Term A} (h : s.Resolves t u) (ht : t.Within L) : u.Within L := by
  obtain ⟨n, hn⟩ := h
  induction n generalizing t u with
  | zero => cases hn
  | succ n ih =>
    -- the arguments of a compound resolve within the set, one by one
    have hargs : ∀ {f : A} {as us : List (Term A)}, (∀ a ∈ as, a.Within L) →
        as.mapM (s.resolved n) = some us → (Term.app f us).Within L := by
      intro f as us has hus x hx
      obtain ⟨u, hu, hxu⟩ := Term.mentions_app.mp hx
      have hall : List.Forall₂ (fun a u => s.resolved n a = some u) as us := mapM_eq_some_iff.mp hus
      obtain ⟨a, ha, hau⟩ := exists_of_forall₂ hall hu
      exact ih (has a ha) hau x hxu
    cases t with
    | app f as =>
      obtain ⟨us, hus, rfl⟩ := Option.map_eq_some_iff.mp hn
      exact hargs (fun a ha => ht.arg ha) hus
    | var x =>
      rw [resolved] at hn
      cases hx : s.value x with
      | none =>
        rw [hx] at hn
        cases hn
        exact ht
      | some c =>
        rw [hx] at hn
        obtain ⟨us, hus, rfl⟩ := Option.map_eq_some_iff.mp hn
        exact hargs (fun a ha => (hL x c (Term.within_var ht) hx).arg ha) hus

/-! ## Stores that show -/

section shows

variable {n₀ : Nat} {π : Var → Var} {view st : Store A} {θ : Var → Term A} {τ : ClassId → Term A}

/-- If the unbound classes of `st` are given what a solution gives the variables that
    show there, then old terms read in both alike. -/
theorem Shows.resolves_reads (h : view.Shows n₀ π st) (hn : n₀ ≤ view.nextVar)
    (hθ : view.Solves θ)
    (hread : ∀ x, view.Born x → view.value x = none → θ x = τ (st.classOf (π x))) {t : Term A}
    (ht : t.Within fun x => x.id < n₀) :
    ∃ u, st.Resolves t u ∧ u.subst (st.assign τ) = t.subst θ := by
  obtain ⟨u, hu⟩ := hθ.acyclic.exists_resolves t
  have hborn : t.Within view.Born := ht.mono fun _ hx => Nat.lt_of_lt_of_le hx hn
  have hold : t.rename π = t := by
    have hsame : t.rename π = t.rename id := Term.rename_congr fun x hx => h.old x (ht x hx)
    rw [hsame, Term.rename_id]
  -- the resolved form shows as its renaming
  refine ⟨u.rename π, ?_, ?_⟩
  · obtain ⟨n, hn⟩ := hu
    have hshown := h.embeds.resolved n hborn
    rw [hold, hn] at hshown
    exact ⟨n, hshown⟩
  · have hwithin : u.Within view.Born := hu.within h.embeds.values hborn
    rw [Term.subst_rename, ← hθ.subst_resolved hu]
    exact Term.fold_congr fun x hx => (hread x (hwithin x hx) (hu.unbound hx)).symm

/-- Whatever the unbound classes of `st` are given, there is a solution that reads old
    terms like that. -/
theorem Shows.exists_solution (h : view.Shows n₀ π st) (hn : n₀ ≤ view.nextVar)
    (hview : view.Acyclic) (τ : ClassId → Term A) :
    ∃ θ, view.Solves θ ∧ ∀ t : Term A, t.Within (fun x => x.id < n₀) →
      ∃ u, st.Resolves t u ∧ u.subst (st.assign τ) = t.subst θ := by
  classical
  let ρ (x : Var) : Term A :=
    if hx : ∃ y, view.Born y ∧ view.classOf y = view.classOf x then τ (st.classOf (π hx.choose))
    else .var ⟨0⟩
  obtain ⟨θ, hθ, hunbound⟩ := hview.exists_solves_extending ρ fun x y hxy => by
    show dite _ _ _ = dite _ _ _
    simp only [hxy]
  refine ⟨θ, hθ, fun t ht => h.resolves_reads hn hθ (fun x hx hv => ?_) ht⟩
  -- the variable that has been chosen for the class of `x` shows in the class of `x`
  have hex : ∃ y, view.Born y ∧ view.classOf y = view.classOf x := ⟨x, hx, rfl⟩
  obtain ⟨hborn, hclass⟩ := hex.choose_spec
  have hshown := (h.embeds.classes _ x hborn hx).mpr hclass
  rw [hunbound x hv]
  show dite _ _ _ = _
  rw [dif_pos hex, hshown]

/-- Whatever a solution gives the variables, the unbound classes of `st` can be given, so
    that old terms read alike. -/
theorem Shows.exists_assignment (h : view.Shows n₀ π st) (hn : n₀ ≤ view.nextVar)
    (hθ : view.Solves θ) :
    ∃ τ, ∀ t : Term A, t.Within (fun x => x.id < n₀) →
      ∃ u, st.Resolves t u ∧ u.subst (st.assign τ) = t.subst θ := by
  classical
  let τ (c : ClassId) : Term A :=
    if hc : ∃ y, view.Born y ∧ st.classOf (π y) = c then θ hc.choose else .var ⟨0⟩
  refine ⟨τ, fun t ht => h.resolves_reads hn hθ (fun x hx _ => ?_) ht⟩
  have hex : ∃ y, view.Born y ∧ st.classOf (π y) = st.classOf (π x) := ⟨x, hx, rfl⟩
  obtain ⟨hborn, hclass⟩ := hex.choose_spec
  show θ x = dite _ _ _
  rw [dif_pos hex]
  exact hθ.joined _ _ ((h.embeds.classes _ x hborn hx).mp hclass).symm

end shows

end Store

/-! ## Calls and reports -/

namespace Program.Askable

variable [DecidableEq A] {p : Program A} {goals : List (Compound A)} {s : Store A}
  {client : Client A σ} {n : Nat} {memory : σ}

/-- Wherever a query calls its client, a store of a report of the recursion shows. -/
theorem report_of_call (h : p.Askable goals s) (hc : Faithful client.answer)
    (hscope : InScope s.nextVar client.answer) {st : Store A}
    (hst : st ∈ p.calls client n goals s memory) :
    ∃ answers k ending views,
      p.solutions Search.headFirst answers k goals s = some (ending, views) ∧
        ∃ view ∈ views, Store.SameView s.nextVar view st := by
  obtain ⟨k, hk, rfl⟩ := List.mem_iff_getElem.mp hst
  obtain ⟨j, views, hsol, hviews⟩ := h.solutions_of_calls hc hscope hk
  have hmem : (p.calls client n goals s memory)[k] ∈
      (p.calls client n goals s memory).take (k + 1) :=
    List.mem_take_iff_getElem.mpr ⟨k, by omega, rfl⟩
  obtain ⟨view, hview, hsame⟩ := exists_of_forall₂ hviews hmem
  exact ⟨Search.haltAt k, j, _, views, hsol, view, hview, hsame⟩

/-- If a query returns to a client that always goes on, all stores of the report of the
    recursion show in its calls. -/
theorem calls_of_return (h : p.Askable goals s) (hc : Faithful client.answer)
    (hscope : InScope s.nextVar client.answer)
    (hproceed : ∀ s m r, client.answer s m = some r → r.1 = .proceed)
    {r : Ending × Store A × σ} (hr : p.enumerate client n goals s memory = some r) :
    ∃ k ending views,
      p.solutions Search.headFirst (fun _ => .proceed) k goals s = some (ending, views) ∧
        ∀ view ∈ views,
          ∃ st ∈ p.calls client n goals s memory, Store.SameView s.nextVar view st := by
  obtain ⟨ending, s', memory'⟩ := r
  obtain ⟨log, hend, hcalls⟩ := Search.calls_of_proceeding hproceed hr
  obtain ⟨k, views, hsol, hviews⟩ := h.solutions_of_enumerate hc hscope hend
  refine ⟨k, ending, views, hsol, fun view hview => ?_⟩
  obtain ⟨call, hcall, hsame⟩ := exists_of_forall₂ hviews.flip hview
  refine ⟨call.1, ?_, hsame⟩
  show call.1 ∈ Search.calls p.source client n goals s memory
  rw [hcalls]
  exact List.mem_map_of_mem hcall

end Program.Askable

end Horn
