import Horn.Proofs.Solutions

/-! # Gathering classes adds equations

    A session with the occurs check on and an acyclic store is *ready*.  Another one
    *has solved* something for it if it is ready too and its solutions are those of
    the first that have a certain property: `Solved`.

    The three ways in which unification gathers classes solve one equation each:

    * two unbound classes: `Solved.gather_unbound`;
    * an unbound class and a value in which it is not met: `Solved.gather_value`;
    * two bound classes whose values are equal already: `Solved.gather_bound`. -/

namespace Horn

universe u

variable {A : Type u}

/-! ## Solutions and gathering -/

/-- The substitution gives all variables of these classes one term, which is what
    `value` becomes, if there is one. -/
structure Store.Joins (s : Store A) (cs : List ClassId) (value : Option (Compound A))
    (θ : Var → Term A) : Prop where
  joined : ∀ x y, s.classOf x ∈ cs → s.classOf y ∈ cs → θ x = θ y
  bound : ∀ x c, s.classOf x ∈ cs → value = some c → θ x = c.toTerm.subst θ

section gather

variable {w : Session A} {cs : List ClassId} {value : Option (Compound A)} {θ : Var → Term A}

theorem Store.Solves.gather (hw : w.store.Consistent) (h : w.store.Solves θ)
    (hjoin : w.store.Joins cs value θ) : (w.gather cs value).store.Solves θ where
  joined x y hxy := by
    rcases (Session.classOf_gather_eq_iff hw cs value x y).mp hxy with ⟨hx, hy⟩ | hxy
    · exact hjoin.joined x y hx hy
    · exact h.joined x y hxy
  bound x c hx := by
    rw [Session.value_gather hw] at hx
    split at hx
    · next hmem => exact hjoin.bound x c hmem hx
    · exact h.bound x c hx

theorem Store.Solves.joins_of_gather (hw : w.store.Consistent)
    (h : (w.gather cs value).store.Solves θ) : w.store.Joins cs value θ where
  joined x y hx hy :=
    h.joined x y ((Session.classOf_gather_eq_iff hw cs value x y).mpr (.inl ⟨hx, hy⟩))
  bound x c hx hv := h.bound x c (by rw [Session.value_gather hw, if_pos hx]; exact hv)

/-- A solution of the new store solves the old one if it respects the values that
    the gathered classes had. -/
theorem Store.Solves.of_gather (hw : w.store.Consistent)
    (h : (w.gather cs value).store.Solves θ)
    (hold : ∀ x d, w.store.classOf x ∈ cs → w.store.value x = some d →
      θ x = d.toTerm.subst θ) : w.store.Solves θ where
  joined x y hxy := h.joined x y ((Session.classOf_gather_eq_iff hw cs value x y).mpr (.inr hxy))
  bound x d hx := by
    -- a class that is not gathered keeps its value
    by_cases hmem : w.store.classOf x ∈ cs
    · exact hold x d hmem hx
    · exact h.bound x d (by rw [Session.value_gather hw, if_neg hmem]; exact hx)

end gather

/-! ## Solving for a property -/

/-- A consistent session with an acyclic store and the occurs check on. -/
structure Session.Ready (w : Session A) : Prop where
  consistent : w.Consistent
  acyclic : w.store.Acyclic
  check : w.trail.occursCheck = true

/-- The session `w'` says what `w` says, and that `P` holds of its solutions. -/
structure Session.Solved (w : Session A) (P : (Var → Term A) → Prop) (w' : Session A) :
    Prop where
  ready : w'.Ready
  unbound : ∀ x, w'.store.value x = none → w.store.value x = none
  solves : ∀ θ, w'.store.Solves θ ↔ w.store.Solves θ ∧ P θ

namespace Session

variable {w w₁ w₂ : Session A} {P Q : (Var → Term A) → Prop}

theorem Solved.refl (h : w.Ready) (hP : ∀ θ, w.store.Solves θ → P θ) : w.Solved P w where
  ready := h
  unbound _ hx := hx
  solves θ := ⟨fun hθ => ⟨hθ, hP θ hθ⟩, fun hθ => hθ.1⟩

theorem Solved.trans (h₁ : w.Solved P w₁) (h₂ : w₁.Solved Q w₂) :
    w.Solved (fun θ => P θ ∧ Q θ) w₂ where
  ready := h₂.ready
  unbound x hx := h₁.unbound x (h₂.unbound x hx)
  solves θ := by rw [h₂.solves, h₁.solves, and_assoc]

theorem Solved.congr (h : w.Solved P w₁) (hPQ : ∀ θ, w.store.Solves θ → (P θ ↔ Q θ)) :
    w.Solved Q w₁ where
  ready := h.ready
  unbound := h.unbound
  solves θ := by
    rw [h.solves]
    exact and_congr_right fun hθ => hPQ θ hθ

/-- Gathering classes adds that they are joined, if some solution joins them and
    none forgets the values they had. -/
theorem Solved.gather (h : w.Ready) {cs : List ClassId} {value : Option (Compound A)}
    (hunbound : ∀ x, w.store.classOf x ∈ cs → value = none → w.store.value x = none)
    (hback : ∀ θ, (w.gather cs value).store.Solves θ → w.store.Solves θ)
    (hex : ∃ θ, w.store.Solves θ ∧ w.store.Joins cs value θ) :
    w.Solved (w.store.Joins cs value) (w.gather cs value) where
  ready := by
    obtain ⟨θ, hθ, hjoin⟩ := hex
    refine ⟨h.consistent.gather cs value, (hθ.gather h.consistent.store hjoin).acyclic, ?_⟩
    rw [occursCheck_gather]
    exact h.check
  unbound x hx := by
    rw [value_gather h.consistent.store] at hx
    split at hx
    · next hmem => exact hunbound x hmem hx
    · exact hx
  solves θ := by
    constructor
    · intro hθ
      exact ⟨hback θ hθ, hθ.joins_of_gather h.consistent.store⟩
    · rintro ⟨hθ, hjoin⟩
      exact hθ.gather h.consistent.store hjoin

/-! ### Unbound classes -/

/-- Gathering two unbound classes. -/
theorem Solved.gather_unbound (h : w.Ready) {x y : Var} (hx : w.store.value x = none)
    (hy : w.store.value y = none) :
    w.Solved (fun θ => θ x = θ y)
      (w.gather [w.store.classOf x, w.store.classOf y] none) := by
  have hnone : ∀ z, w.store.classOf z ∈ [w.store.classOf x, w.store.classOf y] →
      w.store.value z = none := by
    intro z hz
    rcases List.mem_pair.mp hz with hz | hz
    · exact (Store.value_eq_of_classOf_eq hz).trans hx
    · exact (Store.value_eq_of_classOf_eq hz).trans hy
  -- to join the two classes is to make the two variables equal
  have hjoins : ∀ θ, w.store.Solves θ → (w.store.Joins [w.store.classOf x, w.store.classOf y]
      none θ ↔ θ x = θ y) := by
    intro θ hθ
    constructor
    · intro hjoin
      exact hjoin.joined x y (List.mem_pair.mpr (.inl rfl)) (List.mem_pair.mpr (.inr rfl))
    · intro hxy
      have hone : ∀ z, w.store.classOf z ∈ [w.store.classOf x, w.store.classOf y] →
          θ z = θ x := by
        intro z hz
        rcases List.mem_pair.mp hz with hz | hz
        · exact hθ.joined z x hz
        · exact (hθ.joined z y hz).trans hxy.symm
      exact ⟨fun a b ha hb => (hone a ha).trans (hone b hb).symm, fun _ _ _ hv => nomatch hv⟩
  refine (Solved.gather h (fun z hz _ => hnone z hz) ?_ ?_).congr hjoins
  · intro θ hθ
    refine hθ.of_gather h.consistent.store fun z d hz hd => ?_
    rw [hnone z hz] at hd
    cases hd
  · -- one term for all unbound variables makes these two equal as well
    obtain ⟨θ, hθ, hunb⟩ := h.acyclic.exists_solves_extending (fun _ => .var ⟨0⟩) fun _ _ _ => rfl
    refine ⟨θ, hθ, (hjoins θ hθ).mpr ?_⟩
    rw [hunb x hx, hunb y hy]

/-- Gathering an unbound class, perhaps with the classes that hold `c` already, into
    one that holds `c`. -/
theorem Solved.gather_value (h : w.Ready) {cs : List ClassId} {x : Var} {c : Compound A}
    (hx : w.store.value x = none) (hmeets : ¬ w.store.Meets (w.store.classOf x) c.toTerm)
    (hmem : w.store.classOf x ∈ cs)
    (hcs : ∀ z, w.store.classOf z ∈ cs →
      w.store.classOf z = w.store.classOf x ∨ w.store.value z = some c) :
    w.Solved (fun θ => θ x = c.toTerm.subst θ) (w.gather cs (some c)) := by
  -- once `x` becomes what `c` becomes, all that is gathered does
  have hjoins : ∀ θ, w.store.Solves θ →
      (w.store.Joins cs (some c) θ ↔ θ x = c.toTerm.subst θ) := by
    intro θ hθ
    constructor
    · intro hjoin
      exact hjoin.bound x c hmem rfl
    · intro hxc
      have hone : ∀ z, w.store.classOf z ∈ cs → θ z = c.toTerm.subst θ := by
        intro z hz
        rcases hcs z hz with hzx | hzc
        · exact (hθ.joined z x hzx).trans hxc
        · exact hθ.bound z c hzc
      refine ⟨fun a b ha hb => (hone a ha).trans (hone b hb).symm, fun a d ha hd => ?_⟩
      cases hd
      exact hone a ha
  refine (Solved.gather h (fun _ _ (hv : some c = none) => nomatch hv) ?_ ?_).congr hjoins
  · intro θ hθ
    refine hθ.of_gather h.consistent.store fun z d hz hd => ?_
    rcases hcs z hz with hzx | hzc
    · rw [Store.value_eq_of_classOf_eq hzx, hx] at hd
      cases hd
    · rw [hzc] at hd
      cases hd
      exact (hθ.joins_of_gather h.consistent.store).bound z c hz rfl
  · -- there is such a solution, as `x` is not met in `c`
    obtain ⟨θ, hθ, hxc⟩ := h.acyclic.exists_solves_eq hx hmeets
    exact ⟨θ, hθ, (hjoins θ hθ).mpr hxc⟩

/-! ### Bound classes -/

/-- Gathering two bound classes whose values every solution reads as `c`. -/
theorem Solved.gather_bound (h : w.Ready) {x y : Var} {c : Compound A}
    (hc : ∀ θ, w.store.Solves θ → θ x = c.toTerm.subst θ ∧ θ y = c.toTerm.subst θ) :
    w.Solved (fun _ => True)
      (w.gather [w.store.classOf x, w.store.classOf y] (some c)) := by
  -- both classes become what `c` becomes already
  have hjoins : ∀ θ, w.store.Solves θ →
      w.store.Joins [w.store.classOf x, w.store.classOf y] (some c) θ := by
    intro θ hθ
    have hone : ∀ z, w.store.classOf z ∈ [w.store.classOf x, w.store.classOf y] →
        θ z = c.toTerm.subst θ := by
      intro z hz
      rcases List.mem_pair.mp hz with hz | hz
      · exact (hθ.joined z x hz).trans (hc θ hθ).1
      · exact (hθ.joined z y hz).trans (hc θ hθ).2
    refine ⟨fun a b ha hb => (hone a ha).trans (hone b hb).symm, fun a d ha hd => ?_⟩
    cases hd
    exact hone a ha
  refine (Solved.gather h (fun _ _ (hv : some c = none) => nomatch hv) ?_ ?_).congr fun θ hθ =>
    iff_of_true (hjoins θ hθ) trivial
  · -- a solution of the new store is the only one with its terms for the unbound classes,
    -- and the old store has one with these terms too
    intro θ hθ
    obtain ⟨θ', hθ', hunb⟩ := h.acyclic.exists_solves_extending θ fun a b hab =>
      hθ.joined a b ((classOf_gather_eq_iff h.consistent.store _ _ a b).mpr (.inr hab))
    have hnew := hθ'.gather h.consistent.store (hjoins θ' hθ')
    have heq : θ' = θ := by
      funext z
      refine hnew.congr (t := .var z) hθ fun a _ ha => hunb a ?_
      rw [value_gather h.consistent.store] at ha
      split at ha
      · cases ha
      · exact ha
    rw [← heq]
    exact hθ'
  · obtain ⟨θ, hθ⟩ := h.acyclic.exists_solution
    exact ⟨θ, hθ, hjoins θ hθ⟩

end Session

end Horn
