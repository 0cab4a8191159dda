import Horn.Term.Basic

/-! # Terms, variable by variable

    What the proofs about stores need to know of terms alone:

    * `Term.ind`: induction with one case for variables and one for names, where
      the hypothesis holds of every argument.
    * `Mentions`: a variable occurs in a term as it is written; `Within`: none but
      these variables do.
    * `fold`: the meaning of a term in any domain, given what its variables mean.
      Substitution and renaming are the folds into terms.
    * `Compound.subst_eq_subst_iff`: when two compounds become equal.

    Main statement: `fold_congr`, a fold reads the variables that the term
    mentions and no others. -/

namespace Horn

universe u v

variable {A : Type u}

/-! ## Induction -/

/-- Induction on terms: every argument may be assumed. -/
@[elab_as_elim, induction_eliminator]
theorem Term.ind {P : Term A → Prop} (var : ∀ x, P (.var x))
    (app : ∀ f as, (∀ a ∈ as, P a) → P (.app f as)) (t : Term A) : P t :=
  @Term.rec A P (fun as => ∀ a ∈ as, P a) var (fun f as ih => app f as ih)
    (fun a ha => by cases ha)
    (fun a as ha has b hb => by
      rcases List.mem_cons.mp hb with rfl | hb
      · exact ha
      · exact has b hb) t

/-! ## The variables of a term -/

/-- The variable `x` occurs in the term as it is written. -/
inductive Term.Mentions (x : Var) : Term A → Prop where
  | var : Mentions x (.var x)
  | app {f : A} {as : List (Term A)} {a : Term A} :
      a ∈ as → Mentions x a → Mentions x (.app f as)

@[simp] theorem Term.mentions_var {x y : Var} :
    Mentions x (.var y : Term A) ↔ x = y := by
  constructor
  · intro h
    cases h
    rfl
  · rintro rfl
    exact .var

@[simp] theorem Term.mentions_app {x : Var} {f : A} {as : List (Term A)} :
    Mentions x (.app f as) ↔ ∃ a ∈ as, Mentions x a := by
  constructor
  · intro h
    cases h with
    | app ha hx => exact ⟨_, ha, hx⟩
  · rintro ⟨a, ha, hx⟩
    exact .app ha hx

/-- The variable `x` occurs in the compound as it is written. -/
def Compound.Mentions (x : Var) (c : Compound A) : Prop := c.toTerm.Mentions x

@[simp] theorem Compound.mentions_toTerm {x : Var} {c : Compound A} :
    c.toTerm.Mentions x ↔ c.Mentions x := Iff.rfl

theorem Compound.mentions_iff {x : Var} {c : Compound A} :
    c.Mentions x ↔ ∃ a ∈ c.args, a.Mentions x := Term.mentions_app

/-- Every variable that occurs in the term is in `L`. -/
def Term.Within (L : Var → Prop) (t : Term A) : Prop := ∀ x, t.Mentions x → L x

/-- Every variable that occurs in the compound is in `L`. -/
def Compound.Within (L : Var → Prop) (c : Compound A) : Prop := c.toTerm.Within L

theorem Term.within_var {L : Var → Prop} {x : Var} (h : (Term.var x : Term A).Within L) : L x :=
  h x .var

theorem Term.Within.arg {L : Var → Prop} {f : A} {as : List (Term A)} {a : Term A}
    (h : (Term.app f as).Within L) (ha : a ∈ as) : a.Within L := fun x hx => h x (.app ha hx)

theorem Compound.Within.arg {L : Var → Prop} {c : Compound A} {a : Term A} (h : c.Within L)
    (ha : a ∈ c.args) : a.Within L := Term.Within.arg h ha

theorem Term.Within.mono {L L' : Var → Prop} (hL : ∀ x, L x → L' x) {t : Term A}
    (h : t.Within L) : t.Within L' := fun x hx => hL x (h x hx)

theorem Compound.Within.mono {L L' : Var → Prop} (hL : ∀ x, L x → L' x) {c : Compound A}
    (h : c.Within L) : c.Within L' := Term.Within.mono hL h

/-- A compound with one variable as its argument is over this variable alone. -/
theorem Compound.within_of_var {L : Var → Prop} {f : A} {x : Var} (hx : L x) :
    (⟨f, [.var x]⟩ : Compound A).Within L := by
  intro y hy
  have hyx : y = x := by simpa [Compound.mentions_iff] using hy
  rw [hyx]
  exact hx

/-! ## Folding -/

section fold

variable {D : Type v} (node : A → List D → D) (ρ : Var → D)

mutual

/-- The meaning of a term in `D`, where `ρ` gives that of its variables. -/
def Term.fold : Term A → D
  | .var x => ρ x
  | .app f as => node f (foldEach as)

/-- The meaning of each term of a list. -/
def Term.foldEach : List (Term A) → List D
  | [] => []
  | t :: ts => t.fold :: foldEach ts

end

theorem Term.foldEach_eq_map (ts : List (Term A)) :
    Term.foldEach node ρ ts = ts.map (Term.fold node ρ) := by
  induction ts with
  | nil => rfl
  | cons t ts ih => rw [Term.foldEach, ih, List.map_cons]

@[simp] theorem Term.fold_var (x : Var) : (Term.var x).fold node ρ = ρ x := rfl

@[simp] theorem Term.fold_app (f : A) (as : List (Term A)) :
    (Term.app f as).fold node ρ = node f (as.map (Term.fold node ρ)) := by
  rw [Term.fold, Term.foldEach_eq_map]

variable {node ρ}

/-- A fold reads the variables that the term mentions and no others. -/
theorem Term.fold_congr {ρ' : Var → D} {t : Term A} (h : ∀ x, t.Mentions x → ρ x = ρ' x) :
    t.fold node ρ = t.fold node ρ' := by
  induction t with
  | var x => exact h x .var
  | app f as ih =>
    have hargs : as.map (Term.fold node ρ) = as.map (Term.fold node ρ') :=
      List.map_congr_left fun a ha => ih a ha fun x hx => h x (.app ha hx)
    rw [Term.fold_app, Term.fold_app, hargs]

end fold

/-! ## Substitution and renaming -/

/-- Puts `θ x` in the place of every variable `x`. -/
def Term.subst (θ : Var → Term A) : Term A → Term A := Term.fold .app θ

@[simp] theorem Term.subst_var (θ : Var → Term A) (x : Var) :
    (Term.var x).subst θ = θ x := rfl

@[simp] theorem Term.subst_app (θ : Var → Term A) (f : A) (as : List (Term A)) :
    (Term.app f as).subst θ = .app f (as.map (Term.subst θ)) := Term.fold_app ..

/-- Two lists of one length have the same images if their pairs have. -/
theorem map_eq_map_iff_forall_zip {α β γ : Type u} {f : α → γ} {g : β → γ} {as : List α}
    {bs : List β} (h : as.length = bs.length) :
    as.map f = bs.map g ↔ ∀ p ∈ as.zip bs, f p.1 = g p.2 := by
  induction as generalizing bs with
  | nil =>
    cases List.length_eq_zero_iff.mp h.symm
    simp
  | cons a as ih =>
    cases bs with
    | nil => cases h
    | cons b bs => simp [ih (Nat.succ.inj h)]

/-- Compounds become equal just if they have one signature and their arguments become equal,
    place by place. -/
theorem Compound.subst_eq_subst_iff {c d : Compound A} {θ θ' : Var → Term A} :
    c.toTerm.subst θ = d.toTerm.subst θ' ↔
      c.signature = d.signature ∧ ∀ p ∈ c.args.zip d.args, p.1.subst θ = p.2.subst θ' := by
  rw [toTerm, toTerm, Term.subst_app, Term.subst_app, Term.app.injEq, signature, signature,
    Signature.mk.injEq, and_assoc]
  refine and_congr_right fun _ => ⟨fun h => ?_, fun ⟨hlen, h⟩ =>
    (map_eq_map_iff_forall_zip hlen).mpr h⟩
  have hlen : c.args.length = d.args.length := by simpa using congrArg List.length h
  exact ⟨hlen, (map_eq_map_iff_forall_zip hlen).mp h⟩

/-- Renames every variable by `π`. -/
def Term.rename (π : Var → Var) : Term A → Term A := Term.subst fun x => .var (π x)

@[simp] theorem Term.rename_var (π : Var → Var) (x : Var) :
    (Term.var x : Term A).rename π = .var (π x) := rfl

@[simp] theorem Term.rename_app (π : Var → Var) (f : A) (as : List (Term A)) :
    (Term.app f as).rename π = .app f (as.map (Term.rename π)) := Term.subst_app ..

theorem Term.rename_congr {π π' : Var → Var} {t : Term A}
    (h : ∀ x, t.Mentions x → π x = π' x) : t.rename π = t.rename π' :=
  Term.fold_congr fun x hx => congrArg Term.var (h x hx)

/-- Renames every variable of a compound by `π`. -/
def Compound.rename (π : Var → Var) (c : Compound A) : Compound A :=
  ⟨c.name, c.args.map (Term.rename π)⟩

@[simp] theorem Compound.toTerm_rename (π : Var → Var) (c : Compound A) :
    (c.rename π).toTerm = c.toTerm.rename π := (Term.rename_app ..).symm

@[simp] theorem Compound.signature_rename (π : Var → Var) (c : Compound A) :
    (c.rename π).signature = c.signature := by
  simp [Compound.signature, Compound.rename, Compound.arity]

@[simp] theorem Term.rename_id (t : Term A) : t.rename id = t := by
  induction t with
  | var x => rfl
  | app f as ih =>
    have hargs : as.map (Term.rename id) = as.map id := List.map_congr_left ih
    rw [Term.rename_app, hargs, List.map_id]

@[simp] theorem Compound.rename_id (c : Compound A) : c.rename id = c := by
  have hargs : c.args.map (Term.rename id) = c.args.map id :=
    List.map_congr_left fun a _ => a.rename_id
  rw [Compound.rename, hargs, List.map_id]

theorem Compound.rename_congr {π π' : Var → Var} {c : Compound A}
    (h : ∀ x, c.Mentions x → π x = π' x) : c.rename π = c.rename π' := by
  have hargs : c.args.map (Term.rename π) = c.args.map (Term.rename π') :=
    List.map_congr_left fun a ha => Term.rename_congr fun x hx => h x (.app ha hx)
  rw [Compound.rename, Compound.rename, hargs]

/-- A renaming that keeps the variables of a compound keeps the compound. -/
theorem Compound.rename_eq_self {π : Var → Var} {c : Compound A}
    (h : ∀ x, c.Mentions x → π x = x) : c.rename π = c := by
  have hid : c.rename π = c.rename id := Compound.rename_congr h
  rw [hid, c.rename_id]

theorem Compound.map_rename_eq_self {π : Var → Var} {cs : List (Compound A)}
    (h : ∀ c ∈ cs, ∀ x, c.Mentions x → π x = x) : cs.map (rename π) = cs := by
  have hid : cs.map (rename π) = cs.map id :=
    List.map_congr_left fun c hc => rename_eq_self (h c hc)
  rw [hid, List.map_id]

/-- Substituting in a renamed term is substituting for the new names. -/
theorem Term.subst_rename (π : Var → Var) (θ : Var → Term A) (t : Term A) :
    (t.rename π).subst θ = t.subst fun x => θ (π x) := by
  induction t with
  | var x => rfl
  | app f as ih =>
    have hargs : (as.map (Term.rename π)).map (Term.subst θ) =
        as.map (Term.subst fun x => θ (π x)) := by
      rw [List.map_map]
      exact List.map_congr_left ih
    rw [Term.rename_app, Term.subst_app, Term.subst_app, hargs]

theorem Term.rename_rename (π ρ : Var → Var) (t : Term A) :
    (t.rename π).rename ρ = t.rename (ρ ∘ π) := Term.subst_rename ..

theorem Compound.rename_rename (π ρ : Var → Var) (c : Compound A) :
    (c.rename π).rename ρ = c.rename (ρ ∘ π) := by
  have hargs : (c.args.map (Term.rename π)).map (Term.rename ρ) =
      c.args.map (Term.rename (ρ ∘ π)) := by
    rw [List.map_map]
    exact List.map_congr_left fun a _ => a.rename_rename π ρ
  rw [Compound.rename, Compound.rename, Compound.rename, hargs]

theorem Term.Within.rename {D D' : Var → Prop} {π : Var → Var} (hπ : ∀ x, D x → D' (π x))
    {t : Term A} (h : t.Within D) : (t.rename π).Within D' := by
  induction t with
  | var x =>
    intro y hy
    rw [Term.mentions_var.mp hy]
    exact hπ x (Term.within_var h)
  | app f as ih =>
    intro y hy
    rw [Term.rename_app] at hy
    obtain ⟨b, hb, hy⟩ := Term.mentions_app.mp hy
    obtain ⟨a, ha, rfl⟩ := List.mem_map.mp hb
    exact ih a ha (h.arg ha) y hy

theorem Compound.Within.rename {D D' : Var → Prop} {π : Var → Var} (hπ : ∀ x, D x → D' (π x))
    {c : Compound A} (h : c.Within D) : (c.rename π).Within D' := by
  have hterm := Term.Within.rename hπ h
  rw [← Compound.toTerm_rename] at hterm
  exact hterm

end Horn
