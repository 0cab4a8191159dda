import Horn.Proofs.CircleFree
import Horn.Proofs.EquationOrder
import Horn.Proofs.Variants
import Horn.Proofs.Walks

/-! # Equality, resolved forms and unification

    Three walks through a store tell whether two terms denote the same.  Comparing them
    stops at variables of one class.  Resolving them puts the values in the place of the
    variables and leaves a tree, in which the variables of one unbound class count as one.
    Unifying them changes the store while it compares: it merges classes that hold values,
    and only if it has to make terms the same that were not does it bind an unbound
    class or join two of these.

    In an acyclic store all three agree, since each agrees with what the solutions make of
    the terms.

    * `Acyclic.equal_iff_solves`: equality and solutions.
    * `Acyclic.sameTree_iff_solves`: resolved forms and solutions.
    * `KeepsLooks.looksLike_of_addsNothing`: a success that adds nothing has made
      nothing the same.

    Main statement: `equality_resolution_unification_agree`. -/

namespace Horn

universe u

variable {A : Type u}

/-! ## Equality -/

namespace Store

/-- Comparing the two terms answers that they are the same. -/
def Equal [DecidableEq A] (s : Store A) (t u : Term A) : Prop := ∃ n, s.same n t u = some true

/-- The resolved forms of the two terms are one tree, where unbound variables count as one
    just if they are in one class. -/
def SameTree (s : Store A) (t u : Term A) : Prop :=
  ∃ a b, s.Resolves t a ∧ s.Resolves u b ∧ a.rename s.className = b.rename s.className

variable {s : Store A} {θ : Var → Term A} {t u : Term A}

section equal

variable [DecidableEq A]

theorem alike_eq_true {eq : Term A → Term A → Option Bool} {o o' : Option (Compound A)}
    (h : alike eq o o' = some true) :
    ∃ c d, o = some c ∧ o' = some d ∧ c.signature = d.signature ∧
      ∀ p ∈ c.args.zip d.args, eq p.1 p.2 = some true := by
  cases o with
  | none => cases h
  | some c =>
    cases o' with
    | none => cases h
    | some d =>
      by_cases hsig : c.signature = d.signature
      · rw [alike, if_pos hsig] at h
        exact ⟨c, d, rfl, rfl, hsig, forall_of_allM h⟩
      · rw [alike, if_neg hsig] at h
        cases h

/-- Every solution reads terms alike that are the same. -/
theorem Solves.subst_eq_of_same (hθ : s.Solves θ) {n : Nat} (h : s.same n t u = some true) :
    t.subst θ = u.subst θ := by
  induction n generalizing t u with
  | zero => cases h
  | succ n ih =>
    rcases s.same_cases t u with ⟨x, y, rfl, rfl, hxy, -⟩ | hsame
    · exact hθ.joined x y (aliased_iff.mp hxy)
    · rw [hsame] at h
      obtain ⟨c, d, hc, hd, hsig, hargs⟩ := alike_eq_true h
      rw [← hθ.subst_view hc, ← hθ.subst_view hd]
      exact Compound.subst_eq_subst_iff.mpr ⟨hsig, fun p hp => ih (hargs p hp)⟩

end equal

/-! ## What the solutions make of terms -/

/-- **Two terms have one resolved form just if all solutions read them alike.** -/
theorem Acyclic.sameTree_iff_solves (hs : s.Acyclic) :
    s.SameTree t u ↔ ∀ θ, s.Solves θ → t.subst θ = u.subst θ := by
  constructor
  · rintro ⟨a, b, ha, hb, hab⟩ η hη
    obtain ⟨α, hα⟩ := hη.exists_subst_names
    rw [← hα t a ha, ← hα u b hb, hab]
  · intro h
    obtain ⟨θ, hθ, -, hread⟩ := hs.exists_naming
    obtain ⟨a, ha⟩ := hs.exists_resolves t
    obtain ⟨b, hb⟩ := hs.exists_resolves u
    exact ⟨a, b, ha, hb, by rw [hread t a ha, hread u b hb, h θ hθ]⟩

/-- **Two terms are the same just if all solutions read them alike.** -/
theorem Acyclic.equal_iff_solves [DecidableEq A] (hs : s.Acyclic) :
    s.Equal t u ↔ ∀ θ, s.Solves θ → t.subst θ = u.subst θ := by
  constructor
  · rintro ⟨n, hn⟩ θ hθ
    exact hθ.subst_eq_of_same hn
  · intro h
    obtain ⟨θ, hθ, hunbound, -⟩ := hs.exists_naming
    exact hθ.exists_same hunbound ClassId.name_injective (h θ hθ)

end Store

/-! ## Successes that add nothing -/

namespace Session

/-- Unbound classes have stayed unbound, and none has been merged with another. -/
structure AddsNothing (w w' : Session A) : Prop where
  unbound : ∀ x, w.store.value x = none → w'.store.value x = none
  apart : ∀ x y, w.store.value x = none → w.store.value y = none →
    w'.store.classOf x = w'.store.classOf y → w.store.classOf x = w.store.classOf y

variable {w w' : Session A} {t u : Term A}

/-- A term that has the look of an unbound variable was one from the start. -/
theorem KeepsLooks.exists_var (h : w.KeepsLooks w') {c : ClassId}
    (ht : w'.store.sight t = .free c) :
    ∃ x, t = .var x ∧ w.store.value x = none ∧ w'.store.classOf x = c := by
  obtain ⟨x, rfl, hx, hc⟩ := Store.exists_var_of_sight ht
  cases hvalue : w.store.value x with
  | none => exact ⟨x, rfl, hvalue, hc⟩
  | some d =>
    -- if it was bound, it still has the look of its value
    have hsight := (h _ _ (Store.looksLike_value hvalue)).sight_eq
    rw [ht] at hsight
    cases hsight

/-- **What adds nothing has made nothing the same**: terms that look the same afterwards did
    so before.  The induction is on the path along which they are looked at. -/
theorem KeepsLooks.looksLike_of_addsNothing (h : w.KeepsLooks w') (hadds : w.AddsNothing w')
    (htu : w'.store.LooksLike t u) : w.store.LooksLike t u := by
  -- an unbound variable looks afterwards like variables that were unbound in its class
  have hvar : ∀ x u, w.store.value x = none → w'.store.LooksLike (.var x) u →
      w.store.LooksLike (.var x) u := by
    intro x u hx hxu
    have hsight := hxu.sight_eq
    rw [Store.sight_unbound (hadds.unbound x hx)] at hsight
    obtain ⟨y, rfl, hy, hxy⟩ := h.exists_var hsight.symm
    exact Store.looksLike_of_classOf_eq (hadds.apart x y hx hy hxy.symm)
  -- every other term looks like a compound all along
  have hview : ∀ t, (∃ x, t = .var x ∧ w.store.value x = none) ∨
      ∃ c : Compound A, w.store.LooksLike t c.toTerm := by
    intro t
    cases t with
    | app f as => exact .inr ⟨⟨f, as⟩, .refl _⟩
    | var x =>
      cases hx : w.store.value x with
      | none => exact .inl ⟨x, rfl, hx⟩
      | some c => exact .inr ⟨c, Store.looksLike_value hx⟩
  -- so along each path it is enough to compare compounds
  have hcompounds : ∀ q, (∀ c d : Compound A, w'.store.LooksLike c.toTerm d.toTerm →
      w.store.look q c.toTerm = w.store.look q d.toTerm) →
        ∀ t u, w'.store.LooksLike t u → w.store.look q t = w.store.look q u := by
    intro q hq t u htu
    rcases hview t with ⟨x, rfl, hx⟩ | ⟨c, hc⟩
    · exact hvar x u hx htu q
    · rcases hview u with ⟨y, rfl, hy⟩ | ⟨d, hd⟩
      · exact (hvar y t hy htu.symm q).symm
      · rw [hc q, hd q]
        exact hq c d (((h _ _ hc).symm.trans htu).trans (h _ _ hd))
  intro q
  induction q generalizing t u with
  | nil => exact hcompounds [] (fun _ _ hcd => congrArg some hcd.sight_eq) t u htu
  | cons i q ih =>
    refine hcompounds (i :: q) (fun c d hcd => ?_) t u htu
    exact bind_getElem?_congr hcd.signature_eq.2 i fun _ _ ha hb => ih (hcd.child ha hb)

section unify

variable [DecidableEq A]

/-- Terms that all solutions read alike are unified without adding anything. -/
theorem Ready.exists_addsNothing (hw : w.Ready)
    (htu : ∀ θ, w.store.Solves θ → t.subst θ = u.subst θ) :
    ∃ n w', unify n t u w = .success w' ∧ w.AddsNothing w' := by
  obtain ⟨θ, hθ⟩ := hw.acyclic.exists_solution
  obtain ⟨n, w', hn⟩ := exists_unify (htu θ hθ) w hw hθ
  have hsolved := unify_solved n t u w w' hw hn
  have hkept : ∀ θ, w.store.Solves θ → w'.store.Solves θ := fun θ hθ =>
    (hsolved.solves θ).mpr ⟨hθ, htu θ hθ⟩
  exact ⟨n, w', hn, {
    unbound := fun _ hx => hw.acyclic.unbound_of_solves hkept hx
    apart := fun x y hx _ hxy => hw.acyclic.classOf_eq_of_solves hx fun θ hθ =>
      (hkept θ hθ).joined x y hxy }⟩

/-- The same with the occurs check off, as the check does not refuse them. -/
theorem exists_addsNothing (hw : w.Consistent) (hs : w.store.Acyclic)
    (htu : ∀ θ, w.store.Solves θ → t.subst θ = u.subst θ) :
    ∃ n w', unify n t u w = .success w' ∧ w.AddsNothing w' := by
  by_cases hcheck : w.trail.occursCheck = true
  · exact Ready.exists_addsNothing ⟨hw, hs, hcheck⟩ htu
  · let w₀ : Session A := ⟨w.store, ⟨w.trail.moves, true⟩⟩
    have hw₀ : w₀.unchecked = w := by
      rw [unchecked, Trail.unchecked, ← Bool.eq_false_iff.mpr hcheck]
    have hready : w₀.Ready := ⟨⟨hw.store, hw.trail⟩, hs, rfl⟩
    obtain ⟨n, w', hn, hadds⟩ := hready.exists_addsNothing htu
    refine ⟨n, w'.unchecked, ?_, hadds.unbound, hadds.apart⟩
    rw [← hw₀, unify_unchecked n t u w₀ (by rw [hn]; trivial), hn]
    rfl

end unify

end Session

/-! ## The three agree -/

section agree

variable [DecidableEq A]

/-- **Equality, resolved forms and unification agree.**  In an acyclic store comparing two
    terms comes to an answer.  They are the same just if their resolved forms are one tree,
    and just if unifying them, with the occurs check or without, succeeds and neither binds
    an unbound class nor joins two of them.  So being the same is an equivalence, and
    terms in which the same is put for the variables are the same. -/
theorem equality_resolution_unification_agree {w : Session A} (hw : w.Consistent)
    (hs : w.store.Acyclic) :
    (∀ t u, (∃ n b, w.store.same n t u = some b) ∧
      (w.store.Equal t u ↔ w.store.SameTree t u) ∧
      (w.store.Equal t u ↔ ∃ n w', unify n t u w = .success w' ∧ w.AddsNothing w')) ∧
    Equivalence w.store.Equal ∧
    ∀ (t : Term A) (σ σ' : Var → Term A), (∀ x, w.store.Equal (σ x) (σ' x)) →
      w.store.Equal (t.subst σ) (t.subst σ') := by
  refine ⟨fun t u => ⟨hs.walksEnd.same t u, ?_, ?_, ?_⟩, ⟨?_, ?_, ?_⟩, ?_⟩
  · rw [hs.equal_iff_solves, hs.sameTree_iff_solves]
  · intro htu
    exact Session.exists_addsNothing hw hs (hs.equal_iff_solves.mp htu)
  · rintro ⟨n, w', hn, hadds⟩
    have hlooks := unify_looks n t u w hw
    rw [hn] at hlooks
    obtain ⟨-, hkeeps, htu⟩ := hlooks
    exact hs.equal_iff_solves.mpr fun θ hθ =>
      hθ.subst_eq_of_looksLike (hkeeps.looksLike_of_addsNothing hadds htu)
  · intro t
    exact hs.equal_iff_solves.mpr fun _ _ => rfl
  · intro t u htu
    exact hs.equal_iff_solves.mpr fun θ hθ => (hs.equal_iff_solves.mp htu θ hθ).symm
  · intro t u v htu huv
    exact hs.equal_iff_solves.mpr fun θ hθ =>
      (hs.equal_iff_solves.mp htu θ hθ).trans (hs.equal_iff_solves.mp huv θ hθ)
  · intro t σ σ' hσ
    refine hs.equal_iff_solves.mpr fun θ hθ => ?_
    rw [Term.subst_subst, Term.subst_subst]
    exact Term.fold_congr fun x _ => hs.equal_iff_solves.mp (hσ x) θ hθ

/-- The variables `X` and `Y` are unbound and in one class, and `U` and `V` have the values
    `7(X)` and `7(Y)`.  So `9(X, U)` and `9(Y, V)` are the same.  Without the occurs check
    they are unified too, which merges the classes of `U` and `V` but adds nothing. -/
theorem bound_classes_merged :
    let t : Term Nat := .app 9 [.var ⟨0⟩, .var ⟨2⟩]
    let u : Term Nat := .app 9 [.var ⟨1⟩, .var ⟨3⟩]
    ∃ w : Session Nat, w.Consistent ∧ w.store.Acyclic ∧ w.trail.occursCheck = false ∧
      w.store.same 4 t u = some true ∧ w.store.aliased ⟨2⟩ ⟨3⟩ = false ∧ w.store.SameTree t u ∧
      ∃ w', unify 4 t u w = .success w' ∧ w'.store.aliased ⟨2⟩ ⟨3⟩ = true ∧ w.AddsNothing w' := by
  intro t u
  have hrun : ∃ v w' : Session Nat, Session.perform ⟨(Store.empty.freshMany 4).2, .start true⟩
      [.bind 5 ⟨0⟩ ⟨1⟩, .resolve 5 ⟨2⟩ ⟨7, [.var ⟨0⟩]⟩, .resolve 5 ⟨3⟩ ⟨7, [.var ⟨1⟩]⟩] = some v ∧
      v.store.same 4 t u = some true ∧ v.store.aliased ⟨2⟩ ⟨3⟩ = false ∧
      unify 4 t u ⟨v.store, .start false⟩ = .success w' ∧ w'.store.aliased ⟨2⟩ ⟨3⟩ = true :=
    ⟨_, _, rfl, rfl, rfl, rfl, rfl⟩
  obtain ⟨v, w', hv, hsame, happart, hw', halias⟩ := hrun
  have hready := Session.ready_of_perform 4 hv
  have hw : Session.Consistent ⟨v.store, .start false⟩ :=
    Session.consistent_start hready.consistent.store false
  obtain ⟨-, htree, hunify⟩ :=
    (equality_resolution_unification_agree hw hready.acyclic).1 t u
  obtain ⟨n, w₁, hn, hadds⟩ := hunify.mp ⟨4, hsame⟩
  cases unify_unique hn hw' nofun nofun
  exact ⟨_, hw, hready.acyclic, rfl, hsame, happart, htree.mp ⟨4, hsame⟩, w', hw', halias, hadds⟩

end agree

end Horn
