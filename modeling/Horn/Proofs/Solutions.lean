import Horn.Proofs.Reach

/-! # Stores as systems of equations

    A store says of its variables that those of one class are equal and that a
    bound one equals its value.  A substitution *solves* the store if it makes all
    of that true.

    * Terms are finite, so a store that has a solution is acyclic
      (`Solves.acyclic`).  Conversely every choice of terms for the unbound classes
      of an acyclic store extends to a solution (`Acyclic.exists_solves`), and to
      one only (`Solves.congr`).
    * A solution reads a term as it reads the resolved form (`Solves.subst_resolved`).
    * Terms that read alike when the unbound classes are kept apart are the same
      in the store (`Solves.exists_same`). -/

namespace Horn.Store

universe u

variable {A : Type u} {s : Store A} {θ : Var → Term A}

/-! ## Resolved forms -/

/-- The term `u` is the resolved form of `t`. -/
def Resolves (s : Store A) (t u : Term A) : Prop := ∃ n, s.resolved n t = some u

theorem Resolves.unique {t u u' : Term A} (h : s.Resolves t u) (h' : s.Resolves t u') :
    u = u' := by
  obtain ⟨n, hn⟩ := h
  obtain ⟨m, hm⟩ := h'
  have hn' := s.resolved_mono (Nat.le_max_left n m) hn
  have hm' := s.resolved_mono (Nat.le_max_right n m) hm
  exact Option.some.inj (hn'.symm.trans hm')

theorem resolves_unbound {x : Var} (hx : s.value x = none) : s.Resolves (.var x) (.var x) :=
  ⟨1, by rw [resolved, hx]⟩

/-- A bound variable resolves to what its value resolves to. -/
theorem resolves_bound {x : Var} {c : Compound A} (hx : s.value x = some c) {u : Term A} :
    s.Resolves (.var x) u ↔ s.Resolves c.toTerm u := by
  have heq : ∀ n, s.resolved n (.var x) = s.resolved n c.toTerm := by
    intro n
    cases n with
    | zero => rfl
    | succ n => rw [resolved, hx, Compound.toTerm, resolved]
  rw [Resolves, Resolves]
  simp only [heq]

theorem Resolves.args {f : A} {as : List (Term A)} {u : Term A} (h : s.Resolves (.app f as) u) :
    ∃ us, u = .app f us ∧ List.Forall₂ s.Resolves as us := by
  obtain ⟨n, hn⟩ := h
  cases n with
  | zero => cases hn
  | succ n =>
    obtain ⟨us, hus, rfl⟩ := Option.map_eq_some_iff.mp hn
    exact ⟨us, rfl, (mapM_eq_some_iff.mp hus).imp fun _ _ h => ⟨n, h⟩⟩

/-- No bound variable is left in a resolved form. -/
theorem Resolves.unbound {t u : Term A} (h : s.Resolves t u) {x : Var} (hx : u.Mentions x) :
    s.value x = none := by
  obtain ⟨n, hn⟩ := h
  induction n generalizing t u with
  | zero => cases hn
  | succ n ih =>
    -- what is left of the arguments is left of one of them
    have hargs : ∀ {f : A} {as us : List (Term A)}, as.mapM (s.resolved n) = some us →
        (Term.app f us).Mentions x → s.value x = none := by
      intro f as us hus hm
      obtain ⟨u, hu, hxu⟩ := Term.mentions_app.mp hm
      obtain ⟨a, -, ha⟩ := exists_of_forall₂ (mapM_eq_some_iff.mp hus) hu
      exact ih hxu ha
    cases t with
    | app f as =>
      obtain ⟨us, hus, rfl⟩ := Option.map_eq_some_iff.mp hn
      exact hargs hus hx
    | var y =>
      rw [resolved] at hn
      split at hn
      · next hy =>
        cases hn
        rw [Term.mentions_var.mp hx]
        exact hy
      · obtain ⟨us, hus, rfl⟩ := Option.map_eq_some_iff.mp hn
        exact hargs hus hx

/-! ## Solutions -/

/-- Variables of one class are given the same term, and a bound one what its value
    becomes. -/
structure Solves (s : Store A) (θ : Var → Term A) : Prop where
  joined : ∀ x y, s.classOf x = s.classOf y → θ x = θ y
  bound : ∀ x c, s.value x = some c → θ x = c.toTerm.subst θ

/-- Gives every variable what `σ` gives its class. -/
def assign (s : Store A) (σ : ClassId → Term A) (x : Var) : Term A := σ (s.classOf x)

theorem sizeOf_subst_arg (θ : Var → Term A) {f : A} {as : List (Term A)} {a : Term A}
    (ha : a ∈ as) : sizeOf (a.subst θ) < sizeOf ((Term.app f as).subst θ) := by
  have hmem : a.subst θ ∈ as.map (Term.subst θ) := List.mem_map_of_mem ha
  have hlt := List.sizeOf_lt_of_mem hmem
  rw [Term.subst_app, Term.app.sizeOf_spec]
  omega

/-- What is met in a term is no larger than the term. -/
theorem Solves.size_le (h : s.Solves θ) {x : Var} {t : Term A} (hx : s.Meets (s.classOf x) t) :
    sizeOf (θ x) ≤ sizeOf (t.subst θ) := by
  induction hx with
  | here hy => rw [Term.subst_var, h.joined _ _ hy]
  | value hv _ ih => rw [Term.subst_var, h.bound _ _ hv]; exact ih
  | arg ha _ ih => exact Nat.le_of_lt (Nat.lt_of_le_of_lt ih (sizeOf_subst_arg θ ha))

/-- What is met in a compound is smaller than the compound. -/
theorem Solves.size_lt (h : s.Solves θ) {x : Var} {c : Compound A}
    (hx : s.Meets (s.classOf x) c.toTerm) : sizeOf (θ x) < sizeOf (c.toTerm.subst θ) := by
  obtain ⟨a, ha, hxa⟩ := meets_toTerm.mp hx
  exact Nat.lt_of_le_of_lt (h.size_le hxa) (sizeOf_subst_arg θ ha)

/-- A variable that equals a compound is not met in it. -/
theorem Solves.not_meets (h : s.Solves θ) {x : Var} {c : Compound A}
    (hx : θ x = c.toTerm.subst θ) : ¬ s.Meets (s.classOf x) c.toTerm := by
  intro hm
  have hlt := h.size_lt hm
  rw [hx] at hlt
  exact Nat.lt_irrefl _ hlt

/-- A store that has a solution is acyclic. -/
theorem Solves.acyclic (h : s.Solves θ) : s.Acyclic := by
  intro c v hv hm
  obtain ⟨x, rfl⟩ := hm.exists_member
  exact h.not_meets (h.bound x v hv) hm

/-- Only unbound variables have no value. -/
theorem view_eq_none {t : Term A} : s.view t = none ↔ ∃ x, t = .var x ∧ s.value x = none := by
  cases t with
  | var x => simp [view]
  | app f as => simp [view]

/-- A solution reads a term as it reads the value of it. -/
theorem Solves.subst_view (h : s.Solves θ) {t : Term A} {c : Compound A}
    (hc : s.view t = some c) : c.toTerm.subst θ = t.subst θ := by
  cases t with
  | var x => exact (h.bound x c hc).symm
  | app f as =>
    cases hc
    rfl

/-- Solutions that agree on the unbound variables met in a term read it alike. -/
theorem Solves.congr {θ' : Var → Term A} (h : s.Solves θ) (h' : s.Solves θ') {t : Term A}
    (heq : ∀ x, s.Meets (s.classOf x) t → s.value x = none → θ x = θ' x) :
    t.subst θ = t.subst θ' := by
  induction h.acyclic.ends t with
  | unbound hx => exact heq _ (.here rfl) hx
  | bound hv _ ih =>
    rw [Term.subst_var, Term.subst_var, h.bound _ _ hv, h'.bound _ _ hv]
    exact ih fun x hx => heq x (.value hv hx)
  | app _ ih =>
    rw [Term.subst_app, Term.subst_app]
    exact congrArg _ (List.map_congr_left fun a ha => ih a ha fun x hx => heq x (.arg ha hx))

/-- A solution reads the resolved form as it reads the term. -/
theorem Solves.subst_resolved (h : s.Solves θ) {t u : Term A} (hu : s.Resolves t u) :
    u.subst θ = t.subst θ := by
  obtain ⟨n, hn⟩ := hu
  induction n generalizing t u with
  | zero => cases hn
  | succ n ih =>
    -- the arguments are read as their resolved forms are, one by one
    have hargs : ∀ {as us : List (Term A)}, as.mapM (s.resolved n) = some us →
        us.map (Term.subst θ) = as.map (Term.subst θ) := fun hus =>
      map_eq_of_forall₂ (mapM_eq_some_iff.mp hus) fun _ _ _ hab => ih hab
    cases t with
    | app f as =>
      obtain ⟨us, hus, rfl⟩ := Option.map_eq_some_iff.mp hn
      rw [Term.subst_app, Term.subst_app, hargs hus]
    | var x =>
      rw [resolved] at hn
      split at hn
      · cases hn
        rfl
      · next c hx =>
        obtain ⟨us, hus, rfl⟩ := Option.map_eq_some_iff.mp hn
        rw [Term.subst_app, hargs hus, Term.subst_var, h.bound x c hx, Compound.toTerm,
          Term.subst_app]

/-! ## Solutions of acyclic stores -/

theorem Acyclic.exists_resolves (hs : s.Acyclic) (t : Term A) : ∃ u, s.Resolves t u := by
  obtain ⟨n, u, hn⟩ := (hs.ends t).resolved
  exact ⟨u, n, hn⟩

/-- Every choice of terms for the unbound classes of an acyclic store extends to a
    solution: it gives each variable its resolved form with the choice put in. -/
theorem Acyclic.exists_solves (hs : s.Acyclic) (σ : ClassId → Term A) :
    ∃ θ, s.Solves θ ∧ ∀ t u, s.Resolves t u → u.subst (s.assign σ) = t.subst θ := by
  -- the solution is read off the resolved forms of the variables
  choose form hform using fun x => hs.exists_resolves (.var x)
  let θ (x : Var) : Term A := (form x).subst (s.assign σ)
  have hread : ∀ t u, s.Resolves t u → u.subst (s.assign σ) = t.subst θ := by
    intro t
    induction t with
    | var x =>
      intro u hu
      rw [hu.unique (hform x), Term.subst_var]
    | app f as ih =>
      intro u hu
      obtain ⟨us, rfl, hus⟩ := hu.args
      have hargs : us.map (Term.subst (s.assign σ)) = as.map (Term.subst θ) :=
        map_eq_of_forall₂ hus ih
      rw [Term.subst_app, Term.subst_app, hargs]
  -- the variables of a class are all unbound or all have one value
  refine ⟨θ, ⟨fun x y hxy => ?_, fun x c hx => ?_⟩, hread⟩
  · cases hx : s.value x with
    | none =>
      have hy : s.value y = none := (value_eq_of_classOf_eq hxy).symm.trans hx
      show (form x).subst (s.assign σ) = (form y).subst (s.assign σ)
      rw [(hform x).unique (resolves_unbound hx), (hform y).unique (resolves_unbound hy)]
      exact congrArg σ hxy
    | some c =>
      have hy : s.value y = some c := (value_eq_of_classOf_eq hxy).symm.trans hx
      have hxc := (resolves_bound hx).mp (hform x)
      have hyc := (resolves_bound hy).mp (hform y)
      exact congrArg (Term.subst (s.assign σ)) (hxc.unique hyc)
  · exact hread _ _ ((resolves_bound hx).mp (hform x))

/-- Such a solution gives the unbound variables what was chosen. -/
theorem subst_assign_unbound {σ : ClassId → Term A}
    (h : ∀ t u, s.Resolves t u → u.subst (s.assign σ) = t.subst θ) {x : Var}
    (hx : s.value x = none) : θ x = s.assign σ x := (h _ _ (resolves_unbound hx)).symm

theorem Acyclic.exists_solution (hs : s.Acyclic) : ∃ θ, s.Solves θ := by
  obtain ⟨θ, hθ, -⟩ := hs.exists_solves fun _ => .var ⟨0⟩
  exact ⟨θ, hθ⟩

/-- What is the same for the variables of each class can be chosen class by class. -/
theorem exists_assign (s : Store A) {τ : Var → Term A}
    (hτ : ∀ x y, s.classOf x = s.classOf y → τ x = τ y) : ∃ σ, s.assign σ = τ := by
  classical
  let σ (c : ClassId) : Term A := if h : ∃ x, s.classOf x = c then τ h.choose else .var ⟨0⟩
  refine ⟨σ, funext fun x => ?_⟩
  have hex : ∃ y, s.classOf y = s.classOf x := ⟨x, rfl⟩
  have hpos : s.assign σ x = τ hex.choose := dif_pos hex
  rw [hpos]
  exact hτ _ _ hex.choose_spec

/-- The choice may also be given variable by variable. -/
theorem Acyclic.exists_solves_extending (hs : s.Acyclic) (τ : Var → Term A)
    (hτ : ∀ x y, s.classOf x = s.classOf y → τ x = τ y) :
    ∃ θ, s.Solves θ ∧ ∀ x, s.value x = none → θ x = τ x := by
  obtain ⟨σ, rfl⟩ := s.exists_assign hτ
  obtain ⟨θ, hθ, hread⟩ := hs.exists_solves σ
  exact ⟨θ, hθ, fun x hx => subst_assign_unbound hread hx⟩

/-- An unbound variable may be given any compound in which it is not met. -/
theorem Acyclic.exists_solves_eq (hs : s.Acyclic) {x : Var} {c : Compound A}
    (hx : s.value x = none) (hmeets : ¬ s.Meets (s.classOf x) c.toTerm) :
    ∃ θ, s.Solves θ ∧ θ x = c.toTerm.subst θ := by
  -- what `c` becomes does not depend on `x`, so it can be worked out first
  obtain ⟨θ₀, hθ₀, hunb₀⟩ := hs.exists_solves_extending (fun _ => .var ⟨0⟩) fun _ _ _ => rfl
  let τ (y : Var) : Term A := if s.classOf y = s.classOf x then c.toTerm.subst θ₀ else .var ⟨0⟩
  obtain ⟨θ, hθ, hunb⟩ := hs.exists_solves_extending τ fun y z hyz => by
    show (if _ then _ else _) = (if _ then _ else _)
    rw [hyz]
  refine ⟨θ, hθ, ?_⟩
  have hc : c.toTerm.subst θ = c.toTerm.subst θ₀ := by
    refine hθ.congr hθ₀ fun y hm hy => ?_
    have hne : s.classOf y ≠ s.classOf x := fun e => hmeets (e ▸ hm)
    rw [hunb y hy, hunb₀ y hy]
    exact if_neg hne
  rw [hunb x hx, hc]
  exact if_pos rfl

/-! ## Sameness -/

section same

variable [DecidableEq A]

theorem same_app {n : Nat} {f : A} {as : List (Term A)} (u : Term A) :
    s.same (n + 1) (.app f as) u = alike (s.same n) (some ⟨f, as⟩) (s.view u) := by
  cases u <;> rfl

/-- A bound variable is the same as what its value is the same as. -/
theorem same_bound {n : Nat} {x : Var} {c : Compound A} (hx : s.value x = some c) {u : Term A}
    (h : s.same n c.toTerm u = some true) : s.same n (.var x) u = some true := by
  cases n with
  | zero => cases h
  | succ n =>
    rcases s.same_cases (.var x) u with ⟨-, -, -, -, -, hsame⟩ | hsame
    · exact hsame n
    · rw [hsame, view, hx]
      rwa [Compound.toTerm, same_app] at h

/-- Compounds of one signature are the same if their arguments are, place by place. -/
theorem exists_same_of_args {c d : Compound A} (hsig : c.signature = d.signature)
    (hargs : ∀ p ∈ c.args.zip d.args, ∃ n, s.same n p.1 p.2 = some true) {u : Term A}
    (hu : s.view u = some d) : ∃ n, s.same n c.toTerm u = some true := by
  obtain ⟨n, hn⟩ := exists_level (P := fun n (p : Term A × Term A) =>
    s.same n p.1 p.2 = some true) (fun n p hp => s.same_succ hp) hargs
  refine ⟨n + 1, ?_⟩
  rw [Compound.toTerm, same_app, hu, alike, if_pos hsig]
  exact allM_eq_true hn

end same

/-! ## Solutions that keep the unbound classes apart -/

section names

variable {name : ClassId → Var} (hθ : ∀ x, s.value x = none → θ x = .var (name (s.classOf x)))
include hθ

/-- Only terms that have a value become compounds. -/
theorem Solves.exists_view (h : s.Solves θ) {t : Term A} {c : Compound A} {θ' : Var → Term A}
    (heq : t.subst θ = c.toTerm.subst θ') :
    ∃ d, s.view t = some d ∧ d.toTerm.subst θ = c.toTerm.subst θ' := by
  cases hd : s.view t with
  | some d => exact ⟨d, rfl, (h.subst_view hd).trans heq⟩
  | none =>
    obtain ⟨x, rfl, hx⟩ := view_eq_none.mp hd
    rw [Term.subst_var, hθ x hx, Compound.toTerm, Term.subst_app] at heq
    cases heq

/-- Only the variables of its class become what an unbound variable becomes. -/
theorem Solves.exists_aliased (h : s.Solves θ) (hinj : Function.Injective name) {x : Var}
    (hx : s.value x = none) {t : Term A} (heq : θ x = t.subst θ) :
    ∃ y, t = .var y ∧ s.classOf x = s.classOf y := by
  rw [hθ x hx] at heq
  cases hd : s.view t with
  | some d =>
    rw [← h.subst_view hd, Compound.toTerm, Term.subst_app] at heq
    cases heq
  | none =>
    obtain ⟨y, rfl, hy⟩ := view_eq_none.mp hd
    rw [Term.subst_var, hθ y hy] at heq
    exact ⟨y, rfl, hinj (Term.var.inj heq)⟩

/-- Terms that a solution reads alike are the same, if it gives the unbound classes
    different variables. -/
theorem Solves.exists_same [DecidableEq A] (h : s.Solves θ) (hinj : Function.Injective name)
    {t u : Term A} (heq : t.subst θ = u.subst θ) : ∃ n, s.same n t u = some true := by
  induction h.acyclic.ends t generalizing u with
  | unbound hx =>
    obtain ⟨y, rfl, hxy⟩ := h.exists_aliased hθ hinj hx heq
    exact ⟨1, by rw [same, if_pos (aliased_iff.mpr hxy)]⟩
  | @bound x v hx _ ih =>
    rw [Term.subst_var, h.bound x v hx] at heq
    obtain ⟨n, hn⟩ := ih heq
    exact ⟨n, same_bound hx hn⟩
  | @app f as _ ih =>
    -- whatever becomes this compound is seen as one of its signature
    obtain ⟨d, hu, hd⟩ := h.exists_view hθ (c := ⟨f, as⟩) heq.symm
    obtain ⟨hsig, hargs⟩ := Compound.subst_eq_subst_iff.mp hd.symm
    exact exists_same_of_args hsig (fun p hp => ih p.1 (List.of_mem_zip hp).1 (hargs p hp)) hu

end names

end Horn.Store
