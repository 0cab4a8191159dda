import Horn.Proofs.MostGeneral
import Horn.Proofs.Views
import Mathlib.Data.Set.Finite.Lattice
import Mathlib.SetTheory.Cardinal.Arithmetic

/-! # Instances and variants

    Terms that are instances of each other are the same up to a one-to-one renaming of
    their variables (`Term.exists_rename`).

    Terms in a store have as instances what the solutions of the store make of them
    (`Store.Instance`).  So terms with the same instances have the same resolved forms, up
    to a renaming of their unbound classes: `Store.Acyclic.variantTerms_of_instances`.  For
    goals the stores may be those that a client is called in, while the instances are counted
    in the stores of the recursion that show there: `Store.variants_of_instances`. -/

namespace Horn

universe u

variable {A : Type u}

/-! ## Terms that are instances of each other -/

namespace Term

theorem subst_subst (θ η : Var → Term A) (t : Term A) :
    (t.subst θ).subst η = t.subst fun x => (θ x).subst η := by
  induction t with
  | var x => rfl
  | app f as ih =>
    have hargs : (as.map (subst θ)).map (subst η) = as.map (subst fun x => (θ x).subst η) := by
      rw [List.map_map]
      exact List.map_congr_left ih
    rw [subst_app, subst_app, subst_app, hargs]

/-- A substitution that leaves a term as it is leaves each of its variables. -/
theorem eq_var_of_subst_eq_self {θ : Var → Term A} {t : Term A} (h : t.subst θ = t) {x : Var}
    (hx : t.Mentions x) : θ x = .var x := by
  induction t with
  | var y =>
    rw [mentions_var.mp hx]
    exact h
  | app f as ih =>
    obtain ⟨a, ha, hxa⟩ := mentions_app.mp hx
    rw [subst_app] at h
    have hargs : as.map (subst θ) = as.map id := by
      rw [(Term.app.inj h).2, List.map_id]
    exact ih a ha (List.map_inj_left.mp hargs a ha) hxa

theorem finite_mentions (t : Term A) : {x | t.Mentions x}.Finite := by
  induction t with
  | var x =>
    have hvar : {y | (Term.var x : Term A).Mentions y} = {x} := by
      ext y
      simp
    rw [hvar]
    exact Set.finite_singleton x
  | app f as ih =>
    have happ : {y | (Term.app f as).Mentions y} = ⋃ a ∈ {a | a ∈ as}, {y | a.Mentions y} := by
      ext y
      simp
    rw [happ]
    exact Set.Finite.biUnion as.finite_toSet ih

/-- What is one-to-one on the variables of some terms is so for all, with another choice
    for those that the terms do not mention. -/
theorem exists_perm {ts : List (Term A)} {ρ : Var → Var}
    (hρ : Set.InjOn ρ {x | ∃ t ∈ ts, t.Mentions x}) :
    ∃ π : Equiv.Perm Var, ∀ t ∈ ts, ∀ x, t.Mentions x → π x = ρ x := by
  have hfinite : {x | ∃ t ∈ ts, t.Mentions x}.Finite := by
    have hunion : {x | ∃ t ∈ ts, t.Mentions x} = ⋃ t ∈ {t | t ∈ ts}, {x | t.Mentions x} := by
      ext x
      simp
    rw [hunion]
    exact Set.Finite.biUnion ts.finite_toSet fun t _ => t.finite_mentions
  have hinfinite : Infinite Var := .of_injective Var.mk fun i j h => Var.mk.inj h
  have hless : Cardinal.mk {x | ∃ t ∈ ts, t.Mentions x} < Cardinal.mk Var :=
    (Cardinal.lt_aleph0_iff_set_finite.mpr hfinite).trans_le (Cardinal.aleph0_le_mk Var)
  obtain ⟨π, hπ⟩ := Cardinal.extend_function_of_lt
    ⟨fun x : {x | ∃ t ∈ ts, t.Mentions x} => ρ x, hρ.injective⟩ hless ⟨Equiv.refl Var⟩
  exact ⟨π, fun t ht x hx => hπ ⟨x, t, ht, hx⟩⟩

/-- **Instances of each other are variants.**  If substitutions make some terms into others
    and these into the first, then a one-to-one renaming does. -/
theorem exists_rename {ts us : List (Term A)} {θ η : Var → Term A}
    (h : ts.map (subst θ) = us) (h' : us.map (subst η) = ts) :
    ∃ π : Equiv.Perm Var, ts.map (rename π) = us := by
  -- there and back again leaves every variable where it was
  have hback : ∀ t ∈ ts, ∀ x, t.Mentions x → (θ x).subst η = .var x := by
    intro t ht x hx
    have hmap : ts.map (subst η ∘ subst θ) = ts.map id := by
      rw [← List.map_map, h, h', List.map_id]
    have hself : t.subst (fun x => (θ x).subst η) = t := by
      rw [← subst_subst]
      exact List.map_inj_left.mp hmap t ht
    exact eq_var_of_subst_eq_self hself hx
  -- so it has become a variable on the way
  have hvar : ∀ x, ∃ y, (∃ t ∈ ts, t.Mentions x) → θ x = .var y ∧ η y = .var x := by
    intro x
    by_cases hx : ∃ t ∈ ts, t.Mentions x
    · obtain ⟨t, ht, hxt⟩ := hx
      have hreturns := hback t ht x hxt
      cases hθ : θ x with
      | var y =>
        rw [hθ] at hreturns
        exact ⟨y, fun _ => ⟨rfl, hreturns⟩⟩
      | app f as =>
        rw [hθ, subst_app] at hreturns
        cases hreturns
    · exact ⟨x, fun hmentioned => absurd hmentioned hx⟩
  choose ρ hρ using hvar
  have hinj : Set.InjOn ρ {x | ∃ t ∈ ts, t.Mentions x} := by
    intro x hx y hy hxy
    have hη := (hρ x hx).2
    rw [hxy, (hρ y hy).2] at hη
    exact (Term.var.inj hη).symm
  obtain ⟨π, hπ⟩ := exists_perm hinj
  refine ⟨π, ?_⟩
  rw [← h]
  apply List.map_congr_left
  intro t ht
  apply fold_congr
  intro x hx
  rw [hπ t ht x hx]
  exact (hρ x ⟨t, ht, hx⟩).1.symm

end Term

namespace Store

/-! ## Instances in a store -/

/-- Some solution of the store makes `us` of the terms `ts`, of all of them at once. -/
def Instance (s : Store A) (ts us : List (Term A)) : Prop :=
  ∃ θ, s.Solves θ ∧ ts.map (Term.subst θ) = us

/-- The name of the class that the variable is in. -/
def className (s : Store A) (x : Var) : Var := (s.classOf x).name

/-- The resolved forms of the terms `ts` in `s` and of `ts'` in `s'` are the same up to one
    one-to-one renaming of their unbound variables, where aliased variables go by the one
    name of their class. -/
def VariantTerms (ts : List (Term A)) (s : Store A) (ts' : List (Term A)) (s' : Store A) :
    Prop :=
  ∃ π : Equiv.Perm Var, List.Forall₂ (fun t t' => ∃ u u', s.Resolves t u ∧ s'.Resolves t' u' ∧
    u'.rename s'.className = u.rename fun x => π (s.className x)) ts ts'

/-- The same of goals. -/
def Variants (gs : List (Compound A)) (s : Store A) (gs' : List (Compound A)) (s' : Store A) :
    Prop :=
  VariantTerms (gs.map Compound.toTerm) s (gs'.map Compound.toTerm) s'

/-- What is given to the classes can be given to their names. -/
theorem exists_subst_names (s : Store A) (τ : ClassId → Term A) : ∃ α : Var → Term A,
    ∀ t : Term A, (t.rename s.className).subst α = t.subst (s.assign τ) := by
  let α : Var → Term A := Function.extend ClassId.name τ fun _ => .var ⟨0⟩
  have hα : ∀ x, α (s.className x) = s.assign τ x := fun x =>
    ClassId.name_injective.extend_apply τ _ (s.classOf x)
  refine ⟨α, fun t => ?_⟩
  rw [Term.subst_rename]
  exact Term.fold_congr fun x _ => hα x

/-! ## Naming the classes -/

section readings

variable {s s' : Store A} {ts ts' : List (Term A)} {θ θ' α β : Var → Term A}

/-- Terms are variants if substitutions that give every class its name make them instances of
    each other. -/
theorem variantTerms_of_readings
    (hread : ∀ t ∈ ts, ∃ u, s.Resolves t u ∧ u.rename s.className = t.subst θ)
    (hread' : ∀ t ∈ ts', ∃ u, s'.Resolves t u ∧ u.rename s'.className = t.subst θ')
    (hα : (ts.map (Term.subst θ)).map (Term.subst α) = ts'.map (Term.subst θ'))
    (hβ : (ts'.map (Term.subst θ')).map (Term.subst β) = ts.map (Term.subst θ)) :
    VariantTerms ts s ts' s' := by
  obtain ⟨π, hπ⟩ := Term.exists_rename hα hβ
  have hpairs : List.Forall₂ (fun t t' => (t.subst θ).rename π = t'.subst θ') ts ts' := by
    rw [List.map_map, ← List.forall₂_eq_eq_eq] at hπ
    rwa [List.forall₂_map_left_iff, List.forall₂_map_right_iff] at hπ
  rw [List.forall₂_iff_zip] at hpairs
  refine ⟨π, List.forall₂_iff_zip.mpr ⟨hpairs.1, fun {t t'} hmem => ?_⟩⟩
  obtain ⟨ht, ht'⟩ := List.of_mem_zip hmem
  obtain ⟨u, hu, hnamed⟩ := hread t ht
  obtain ⟨u', hu', hnamed'⟩ := hread' t' ht'
  have hrenamed : u.rename (fun x => π (s.className x)) = (u.rename s.className).rename π :=
    (u.rename_rename _ _).symm
  exact ⟨u, u', hu, hu', by rw [hnamed', ← hpairs.2 hmem, ← hnamed, hrenamed]⟩

/-- In an acyclic store some solution gives every unbound class its name. -/
theorem Acyclic.exists_naming (hs : s.Acyclic) :
    ∃ θ, s.Solves θ ∧ (∀ x, s.value x = none → θ x = .var (s.className x)) ∧
      ∀ t u, s.Resolves t u → u.rename s.className = t.subst θ := by
  obtain ⟨θ, hθ, hread⟩ := hs.exists_solves fun c => .var c.name
  exact ⟨θ, hθ, fun x hx => subst_assign_unbound hread hx, hread⟩

/-- Whatever a solution makes of terms can be made of their resolved forms, with the names of
    the classes in these. -/
theorem Solves.exists_subst_names (hθ : s.Solves θ) :
    ∃ α, ∀ t u, s.Resolves t u → (u.rename s.className).subst α = t.subst θ := by
  obtain ⟨τ, hτ⟩ := s.exists_assign hθ.joined
  obtain ⟨α, hα⟩ := s.exists_subst_names τ
  refine ⟨α, fun t u hu => ?_⟩
  rw [hα, hτ, hθ.subst_resolved hu]

/-- That solution is most general: whatever instance terms have is one of what it makes of
    them. -/
theorem Acyclic.exists_general_naming (hs : s.Acyclic) :
    ∃ θ, s.Solves θ ∧ (∀ t, ∃ u, s.Resolves t u ∧ u.rename s.className = t.subst θ) ∧
      ∀ ts us, s.Instance ts us → ∃ α, (ts.map (Term.subst θ)).map (Term.subst α) = us := by
  obtain ⟨θ, hθ, -, hread⟩ := hs.exists_naming
  refine ⟨θ, hθ, fun t => ?_, ?_⟩
  · obtain ⟨u, hu⟩ := hs.exists_resolves t
    exact ⟨u, hu, hread t u hu⟩
  · rintro ts us ⟨η, hη, rfl⟩
    obtain ⟨α, hα⟩ := hη.exists_subst_names
    refine ⟨α, ?_⟩
    rw [List.map_map]
    apply List.map_congr_left
    intro t _
    obtain ⟨u, hu⟩ := hs.exists_resolves t
    rw [Function.comp_apply, ← hread t u hu, hα t u hu]

/-- **Terms with the same instances are variants.** -/
theorem Acyclic.variantTerms_of_instances (hs : s.Acyclic) (hs' : s'.Acyclic)
    (hsame : ∀ us, s.Instance ts us ↔ s'.Instance ts' us) : VariantTerms ts s ts' s' := by
  obtain ⟨θ, hθ, hread, hgeneral⟩ := hs.exists_general_naming
  obtain ⟨θ', hθ', hread', hgeneral'⟩ := hs'.exists_general_naming
  -- what either solution makes of its terms is an instance of what the other does
  obtain ⟨α, hα⟩ := hgeneral ts _ ((hsame _).mpr ⟨θ', hθ', rfl⟩)
  obtain ⟨β, hβ⟩ := hgeneral' ts' _ ((hsame _).mp ⟨θ, hθ, rfl⟩)
  exact variantTerms_of_readings (fun t _ => hread t) (fun t _ => hread' t) hα hβ

end readings

/-! ## Naming the classes of a store that shows in another -/

section shows

variable {n₀ : Nat} {π : Var → Var} {view st : Store A}

/-- There is a solution that gives every class its name.  It is most general: whatever
    instance old goals have is one of what this solution makes of them. -/
theorem Shows.exists_naming (h : view.Shows n₀ π st) (hn : n₀ ≤ view.nextVar)
    (hview : view.Acyclic) :
    ∃ θ, view.Solves θ ∧ (∀ t : Term A, t.Within (fun x => x.id < n₀) →
        ∃ u, st.Resolves t u ∧ u.rename st.className = t.subst θ) ∧
      ∀ ts : List (Term A), (∀ t ∈ ts, t.Within fun x => x.id < n₀) → ∀ us, view.Instance ts us →
        ∃ α, (ts.map (Term.subst θ)).map (Term.subst α) = us := by
  obtain ⟨θ, hθ, hread⟩ := h.exists_solution hn hview fun c => .var c.name
  refine ⟨θ, hθ, hread, ?_⟩
  rintro ts hts us ⟨η, hη, rfl⟩
  -- every name is given what the other solution has for its class
  obtain ⟨τ, hτ⟩ := h.exists_assignment hn hη
  obtain ⟨α, hα⟩ := st.exists_subst_names τ
  refine ⟨α, ?_⟩
  rw [List.map_map]
  apply List.map_congr_left
  intro t ht
  obtain ⟨u, hu, hnamed⟩ := hread t (hts t ht)
  obtain ⟨u', hu', hgiven⟩ := hτ t (hts t ht)
  obtain rfl := hu.unique hu'
  have hrename : u.rename st.className = t.subst θ := hnamed
  rw [Function.comp_apply, ← hrename, hα, hgiven]

end shows

/-- **Goals with the same instances are variants**, in the stores in which those show that
    the instances are counted in. -/
theorem variants_of_instances {n n' : Nat} {view view' st st' : Store A}
    {gs gs' : List (Compound A)} (hshow : view.SameView n st) (hshow' : view'.SameView n' st')
    (hn : n ≤ view.nextVar) (hn' : n' ≤ view'.nextVar) (hview : view.Acyclic)
    (hview' : view'.Acyclic) (hgs : ∀ g ∈ gs, g.Within fun x => x.id < n)
    (hgs' : ∀ g ∈ gs', g.Within fun x => x.id < n')
    (hsame : ∀ us, view.Instance (gs.map Compound.toTerm) us ↔
      view'.Instance (gs'.map Compound.toTerm) us) :
    Variants gs st gs' st' := by
  obtain ⟨_, hshow⟩ := hshow
  obtain ⟨_, hshow'⟩ := hshow'
  obtain ⟨θ, hθ, hread, hgeneral⟩ := hshow.exists_naming hn hview
  obtain ⟨θ', hθ', hread', hgeneral'⟩ := hshow'.exists_naming hn' hview'
  have hterms : ∀ t ∈ gs.map Compound.toTerm, t.Within fun x => x.id < n :=
    List.forall_mem_map.mpr hgs
  have hterms' : ∀ t ∈ gs'.map Compound.toTerm, t.Within fun x => x.id < n' :=
    List.forall_mem_map.mpr hgs'
  -- what either solution makes of its goals is an instance of what the other does
  obtain ⟨α, hα⟩ := hgeneral _ hterms _ ((hsame _).mpr ⟨θ', hθ', rfl⟩)
  obtain ⟨β, hβ⟩ := hgeneral' _ hterms' _ ((hsame _).mp ⟨θ, hθ, rfl⟩)
  exact variantTerms_of_readings (fun t ht => hread t (hterms t ht))
    (fun t ht => hread' t (hterms' t ht)) hα hβ

end Store

end Horn
