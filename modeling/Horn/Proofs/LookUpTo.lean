import Horn.Proofs.CopyLooks
import Horn.Proofs.Scope

/-! # Looking the same up to new variables

    Two attempts that make new variables in another order give them other names.  What
    they lead to is compared up to a relation between unbound classes, which says what
    plays the part of what.

    * `LooksUpTo`, `FreshRenaming`: the comparison, and the relations allowed in it.
    * `copiesAgree_of_vars`, `CopiesAgree.of_meets`: copies of a term that are made in
      two stores look the same just if those of the unbound variables met in it do. -/

namespace Horn

universe u

variable {A : Type u}

/-- The same name with the same number of arguments, or unbound classes related by
    `R`. -/
inductive Sight.Related (R : ClassId → ClassId → Prop) : Sight A → Sight A → Prop where
  | node (f : A) (k : Nat) : Related R (.node f k) (.node f k)
  | free {c d : ClassId} : R c d → Related R (.free c) (.free d)

namespace Store

/-- Term `t` looks in `s` like `t'` in `s'`, up to `R`. -/
def LooksUpTo (s s' : Store A) (R : ClassId → ClassId → Prop) (t t' : Term A) : Prop :=
  ∀ q, Option.Rel (Sight.Related R) (s.look q t) (s'.look q t')

/-- The relation renames classes one to one, and keeps those of the variables below
    `b`. -/
structure FreshRenaming (b : Nat) (s s' : Store A) (R : ClassId → ClassId → Prop) : Prop where
  oneToOne : ∀ c d c' d', R c d → R c' d' → (c = c' ↔ d = d')
  keeps : ∀ x : Var, x.id < b → ∀ d, R (s.classOf x) d → d = s'.classOf x
  keeps' : ∀ x : Var, x.id < b → ∀ c, R c (s'.classOf x) → c = s.classOf x

variable {s s' : Store A} {R : ClassId → ClassId → Prop} {t u : Term A}

theorem looksUpTo_setNext (m k : Nat) :
    (s.setNext m).LooksUpTo (s'.setNext k) R = s.LooksUpTo s' R := by
  funext t t'
  simp only [LooksUpTo, look_setNext]

theorem freshRenaming_setNext {b : Nat} (m k : Nat) :
    (s.setNext m).FreshRenaming b (s'.setNext k) R ↔ s.FreshRenaming b s' R :=
  ⟨fun h => ⟨h.oneToOne, h.keeps, h.keeps'⟩, fun h => ⟨h.oneToOne, h.keeps, h.keeps'⟩⟩

/-- A term looks like itself up to `R` if `R` relates what it leads to with itself. -/
theorem looksUpTo_self_iff :
    s.LooksUpTo s R t t ↔ ∀ q c, s.look q t = some (.free c) → R c c := by
  constructor
  · intro h q c hc
    have hq := h q
    rw [hc] at hq
    cases hq with
    | some hr =>
      cases hr with
      | free hr => exact hr
  · intro h q
    cases hq : s.look q t with
    | none => exact .none
    | some v =>
      cases v with
      | node f k => exact .some (.node f k)
      | free c => exact .some (.free (h q c hq))

/-! ## The ends of paths -/

/-- An unbound class is met in a term just if some path leads to it. -/
theorem meets_iff_look {c : ClassId} (hc : s.valueOf c = none) :
    s.Meets c t ↔ ∃ q, s.look q t = some (.free c) := by
  constructor
  · intro h
    induction h with
    | @here x hx =>
      have hnone : s.value x = none := by rw [value, hx, hc]
      exact ⟨[], by rw [look, sight_unbound hnone, hx]⟩
    | @value x v hv _ ih =>
      obtain ⟨q, hq⟩ := ih
      exact ⟨q, (looksLike_value hv q).trans hq⟩
    | @arg f as a ha _ ih =>
      obtain ⟨q, hq⟩ := ih
      obtain ⟨i, hi⟩ := List.mem_iff_getElem?.mp ha
      refine ⟨i :: q, ?_⟩
      rw [look, children, hi]
      exact hq
  · rintro ⟨q, hq⟩
    induction q generalizing t with
    | nil =>
      obtain ⟨z, rfl, -, hz⟩ := exists_var_of_sight (Option.some.inj hq)
      exact .here hz
    | cons i q ih =>
      obtain ⟨t', ht', hq⟩ := Option.bind_eq_some_iff.mp hq
      obtain ⟨v, hv, hmem⟩ := exists_view_of_child ht'
      exact .of_view hv (.arg hmem (ih hq))

/-- In a scoped store the paths of a term that has been made lead to nothing but classes
    that have been. -/
theorem Scoped.below_of_look {n : Nat} (hs : s.Scoped n) (ht : t.Within fun x => x.id < n)
    {q : List Nat} {c : ClassId} (h : s.look q t = some (.free c)) : c.Below n := by
  induction q generalizing t with
  | nil =>
    obtain ⟨z, rfl, -, rfl⟩ := exists_var_of_sight (Option.some.inj h)
    exact hs.below (Term.within_var ht)
  | cons i q ih =>
    obtain ⟨t', ht', hq⟩ := Option.bind_eq_some_iff.mp h
    obtain ⟨v, hv, hmem⟩ := exists_view_of_child ht'
    exact ih ((hs.within_view ht hv).arg hmem) hq

/-- A variable that has not been made is unbound and in its own class. -/
theorem Scoped.look_unborn {n : Nat} (hs : s.Scoped n) {y : Var} (hy : n ≤ y.id) :
    s.look [] (.var y) = some (.free (.own y)) := by
  rw [look, sight_unbound (hs.value_unborn hy), hs.unborn y hy]

theorem Scoped.looksUpTo_unborn {n : Nat} (hs : s.Scoped n) {y z : Var} (hy : n ≤ y.id)
    (hz : n ≤ z.id) (hR : R (.own y) (.own z)) : s.LooksUpTo s R (.var y) (.var z) := by
  intro q
  cases q with
  | nil =>
    rw [hs.look_unborn hy, hs.look_unborn hz]
    exact .some (.free hR)
  | cons i q =>
    rw [look, look, children_unbound (hs.value_unborn hy), children_unbound (hs.value_unborn hz)]
    exact .none

/-! ## The ends of paths in a copy -/

section lookVia

variable {r r' : ClassId → Option Var} {c : ClassId}

/-- Where the term has an unbound class, the copy goes on with the variable for it. -/
theorem lookVia_append {q : List Nat} (h : s.look q t = some (.free c)) (q' : List Nat) :
    s.lookVia s' r (q ++ q') t = (r c).bind fun y => s'.look q' (.var y) := by
  induction q generalizing t with
  | nil => exact lookVia_free (Option.some.inj h) q'
  | cons i q ih =>
    obtain ⟨t', ht', hq⟩ := Option.bind_eq_some_iff.mp h
    cases ht : s.sight t with
    | node f k =>
      rw [List.cons_append, lookVia_cons ht, ht']
      exact ih hq
    | free d =>
      -- an unbound variable has no children
      rw [children_free ht] at ht'
      cases ht'

/-- Only the classes that the paths lead to have to be given variables. -/
theorem lookVia_congr (h : ∀ q c, s.look q t = some (.free c) → r c = r' c) (q : List Nat) :
    s.lookVia s' r q t = s.lookVia s' r' q t := by
  induction q generalizing t with
  | nil =>
    cases ht : s.sight t with
    | node f k => rw [lookVia_nil ht, lookVia_nil ht]
    | free c => rw [lookVia_free ht, lookVia_free ht, h [] c (congrArg some ht)]
  | cons i q ih =>
    cases ht : s.sight t with
    | free c => rw [lookVia_free ht, lookVia_free ht, h [] c (congrArg some ht)]
    | node f k =>
      rw [lookVia_cons ht, lookVia_cons ht]
      refine bind_getElem?_congr rfl i fun t' u' ht' hu' => ?_
      have heq : t' = u' := Option.some.inj (ht'.symm.trans hu')
      rw [← heq]
      exact ih fun q' c hc => h (i :: q') c (by rw [look, ht', Option.bind_some, hc])

/-- If a copy looks like some term everywhere, there is a variable for every class that
    the paths lead to. -/
theorem exists_image_of_lookVia (h : ∀ q, s.lookVia s' r q t = s'.look q u) {q : List Nat}
    (hq : s.look q t = some (.free c)) : ∃ y, r c = some y := by
  induction q generalizing t u with
  | nil =>
    have hroot := h []
    rw [lookVia_free (Option.some.inj hq)] at hroot
    obtain ⟨y, hy, -⟩ := Option.bind_eq_some_iff.mp hroot
    exact ⟨y, hy⟩
  | cons i q ih =>
    obtain ⟨t', ht', hq⟩ := Option.bind_eq_some_iff.mp hq
    cases ht : s.sight t with
    | free d =>
      rw [children_free ht] at ht'
      cases ht'
    | node f k =>
      -- the other term has as many children
      have hroot := h []
      rw [lookVia_nil ht] at hroot
      have hu : s'.sight u = .node f k := (Option.some.inj hroot).symm
      have hlen : (s'.children u).length = (s.children t).length := by
        rw [length_children, length_children, hu, ht]
      obtain ⟨hi, -⟩ := List.getElem?_eq_some_iff.mp ht'
      obtain ⟨u', hu'⟩ : ∃ u', (s'.children u)[i]? = some u' :=
        ⟨_, List.getElem?_eq_getElem (hlen ▸ hi)⟩
      refine ih (u := u') (fun q' => ?_) hq
      have hboth := h (i :: q')
      rw [lookVia_cons ht, look, ht', hu'] at hboth
      exact hboth

/-- What the paths in a copy lead to is in what stands for some class. -/
theorem exists_look_of_lookVia {q : List Nat} {d : ClassId}
    (h : s.lookVia s' r q t = some (.free d)) :
    ∃ c y q', r c = some y ∧ s'.look q' (.var y) = some (.free d) := by
  have hfree : ∀ q t c, s.sight t = .free c → s.lookVia s' r q t = some (.free d) →
      ∃ c y q', r c = some y ∧ s'.look q' (.var y) = some (.free d) := by
    intro q t c hc hq
    rw [lookVia_free hc] at hq
    obtain ⟨y, hy, hq⟩ := Option.bind_eq_some_iff.mp hq
    exact ⟨c, y, q, hy, hq⟩
  induction q generalizing t with
  | nil =>
    cases ht : s.sight t with
    | free c => exact hfree [] t c ht h
    | node f k =>
      rw [lookVia_nil ht] at h
      cases h
  | cons i q ih =>
    cases ht : s.sight t with
    | free c => exact hfree (i :: q) t c ht h
    | node f k =>
      rw [lookVia_cons ht] at h
      obtain ⟨t', -, h⟩ := Option.bind_eq_some_iff.mp h
      exact ih h

end lookVia

/-- Copies of `t` that are made in `s` through `r` and in `s'` through `r'` look the same
    in `z`, up to `R`. -/
def CopiesAgree (z : Store A) (R : ClassId → ClassId → Prop) (s : Store A)
    (r : ClassId → Option Var) (s' : Store A) (r' : ClassId → Option Var) (t : Term A) : Prop :=
  ∀ q, Option.Rel (Sight.Related R) (s.lookVia z r q t) (s'.lookVia z r' q t)

theorem CopiesAgree.of_looksLike {z : Store A} {r r' : ClassId → Option Var}
    (h : z.CopiesAgree R s r s' r' u) (htu : s.LooksLike t u) (htu' : s'.LooksLike t u) :
    z.CopiesAgree R s r s' r' t := by
  intro q
  rw [htu.lookVia q, htu'.lookVia q]
  exact h q

end Store

/-- Two lists that are each compared with a third. -/
theorem forall₂_iff_of_forall₂ {α : Type u} {β : Type u} {γ : Type u} {P : α → β → Prop}
    {Q : α → γ → Prop} {S : β → γ → Prop} {T : α → Prop}
    (h : ∀ a b c, P a b → Q a c → (S b c ↔ T a)) {as : List α} {bs : List β} {cs : List γ}
    (hP : List.Forall₂ P as bs) (hQ : List.Forall₂ Q as cs) :
    List.Forall₂ S bs cs ↔ ∀ a ∈ as, T a := by
  induction hP generalizing cs with
  | nil =>
    cases hQ
    simp
  | cons hab _ ih =>
    cases hQ with
    | cons hac hrest => rw [List.forall₂_cons, List.forall_mem_cons, h _ _ _ hab hac, ih hrest]

/-- Copies look the same up to `R` if they agree on the terms they are made of. -/
theorem Copies.looksUpTo_iff {s s' z : Store A} {ts us us' : List (Term A)} {p p' q q' : Copying}
    {R : ClassId → ClassId → Prop} (h : Copies s ts us p q) (h' : Copies s' ts us' p' q') :
    List.Forall₂ (z.LooksUpTo z R) us us' ↔
      ∀ t ∈ ts, z.CopiesAgree R s q.images.image s' q'.images.image t := by
  refine forall₂_iff_of_forall₂ (fun t u u' hu hu' => ?_) h.looks h'.looks
  refine forall_congr' fun path => ?_
  rw [hu z q path (.refl q), hu' z q' path (.refl q')]

/-! ## New variables for new variables -/

/-- Every class stands for itself, but new variables for one another as `Q` says. -/
inductive Paired (m : Nat) (Q : Var → Var → Prop) : ClassId → ClassId → Prop where
  | same {c : ClassId} : c.Below m → Paired m Q c c
  | new {y z : Var} : Q y z → Paired m Q (.own y) (.own z)

theorem Store.Scoped.freshRenaming_paired {b m : Nat} {s : Store A} (hs : s.Scoped m) (hb : b ≤ m)
    {Q : Var → Var → Prop} (hnew : ∀ y z, Q y z → m ≤ y.id ∧ m ≤ z.id)
    (hone : ∀ y z y' z', Q y z → Q y' z' → (y = y' ↔ z = z')) :
    s.FreshRenaming b s (Paired m Q) := by
  -- a class below `m` is that of no new variable
  have hne : ∀ {c : ClassId} {y : Var}, c.Below m → m ≤ y.id → c ≠ .own y :=
    fun hc hy e => Nat.not_le_of_lt (hc _ e) hy
  have hold : ∀ x y : Var, x.id < b → m ≤ y.id → s.classOf x ≠ .own y :=
    fun x y hx => hne (hs.below (Nat.lt_of_lt_of_le hx hb))
  refine ⟨fun c d c' d' h h' => ?_, fun x hx d h => ?_, fun x hx c h => ?_⟩
  · cases h with
    | same hc =>
      cases h' with
      | same hc' => exact Iff.rfl
      | new h' => exact iff_of_false (hne hc (hnew _ _ h').1) (hne hc (hnew _ _ h').2)
    | new h =>
      cases h' with
      | same hc' =>
        exact iff_of_false (hne hc' (hnew _ _ h).1).symm (hne hc' (hnew _ _ h).2).symm
      | new h' =>
        rw [ClassId.own.injEq, ClassId.own.injEq]
        exact hone _ _ _ _ h h'
  · generalize hc : s.classOf x = c at h
    cases h with
    | same _ => rfl
    | new h => exact absurd hc (hold x _ hx (hnew _ _ h).1)
  · generalize hc : s.classOf x = d at h
    cases h with
    | same _ => rfl
    | new h => exact absurd hc (hold x _ hx (hnew _ _ h).2)

/-! ## After a unification -/

namespace Session

variable {w v : Session A} {x y : Var} {t : Term A}

theorem KeepsLooks.value (h : w.KeepsLooks v) {c : Compound A} (hx : w.store.value x = some c) :
    v.store.LooksLike (.var x) c.toTerm := h _ _ (Store.looksLike_value hx)

/-- Variables of one class stay together as long as they are unbound. -/
theorem KeepsLooks.classOf_eq (h : w.KeepsLooks v) (hxy : w.store.classOf x = w.store.classOf y)
    (hx : v.store.value x = none) (hy : v.store.value y = none) :
    v.store.classOf x = v.store.classOf y := by
  have hsight := (h _ _ (Store.looksLike_of_classOf_eq hxy)).sight_eq
  rw [Store.sight_unbound hx, Store.sight_unbound hy] at hsight
  exact Sight.free.inj hsight

/-- A variable that stays unbound is met where it was. -/
theorem KeepsLooks.meets (h : w.KeepsLooks v) (hx : v.store.value x = none)
    (hm : w.store.Meets (w.store.classOf x) t) : v.store.Meets (v.store.classOf x) t := by
  generalize hc : w.store.classOf x = c at hm
  induction hm with
  | @here z hz =>
    -- `z` has the look of `x`, so it is unbound and in the class of `x`
    have hsight := (h _ _ (Store.looksLike_of_classOf_eq (hz.trans hc.symm))).sight_eq
    rw [Store.sight_unbound hx] at hsight
    obtain ⟨z', hz', -, hclass⟩ := Store.exists_var_of_sight hsight
    cases hz'
    exact .here hclass
  | @value z c hz _ ih =>
    obtain ⟨q, hq⟩ := (Store.meets_iff_look hx).mp ih
    exact (Store.meets_iff_look hx).mpr ⟨q, (h.value hz q).trans hq⟩
  | arg ha _ ih => exact .arg ha ih

variable {z : Store A} {R : ClassId → ClassId → Prop} {r r' : ClassId → Option Var}

/-- Copies made before and after a unification agree on a term if they agree on the
    variables that were unbound before. -/
theorem KeepsLooks.copiesAgree (h : w.KeepsLooks v)
    (hvars : ∀ x, w.store.value x = none → w.store.Meets (w.store.classOf x) t →
      z.CopiesAgree R v.store r w.store r' (.var x)) :
    z.CopiesAgree R v.store r w.store r' t := by
  let Vars (t : Term A) : Prop := ∀ x, w.store.value x = none →
    w.store.Meets (w.store.classOf x) t → z.CopiesAgree R v.store r w.store r' (.var x)
  -- along each path it is enough to look at compounds
  have hcompounds : ∀ q, (∀ c : Compound A, Vars c.toTerm →
      Option.Rel (Sight.Related R) (v.store.lookVia z r q c.toTerm)
        (w.store.lookVia z r' q c.toTerm)) →
      ∀ t, Vars t → Option.Rel (Sight.Related R) (v.store.lookVia z r q t)
        (w.store.lookVia z r' q t) := by
    intro q hq t ht
    cases t with
    | app f as => exact hq ⟨f, as⟩ ht
    | var x =>
      cases hx : w.store.value x with
      | none => exact ht x hx (.here rfl) q
      | some c =>
        rw [(h.value hx).lookVia q, (Store.looksLike_value hx).lookVia q]
        exact hq c fun y hy hm => ht y hy (.value hx hm)
  intro q
  induction q generalizing t with
  | nil => exact hcompounds [] (fun c _ => .some (.node c.name c.args.length)) t hvars
  | cons i q ih =>
    refine hcompounds (i :: q) (fun c hc => ?_) t hvars
    show Option.Rel _ (c.args[i]?.bind _) (c.args[i]?.bind _)
    cases ha : c.args[i]? with
    | none => exact .none
    | some a => exact ih fun y hy hm => hc y hy (.arg (List.mem_of_getElem? ha) hm)

/-- Copies that agree on a term agree on every variable that was met in it before. -/
theorem KeepsLooks.copiesAgree_var (h : w.KeepsLooks v)
    (hm : w.store.Meets (w.store.classOf x) t) (ht : z.CopiesAgree R v.store r w.store r' t) :
    z.CopiesAgree R v.store r w.store r' (.var x) := by
  generalize hc : w.store.classOf x = c at hm
  induction hm with
  | @here y hy =>
    have hlook : w.store.LooksLike (.var x) (.var y) :=
      Store.looksLike_of_classOf_eq (hc.trans hy.symm)
    exact ht.of_looksLike (h _ _ hlook) hlook
  | @value y c hy _ ih =>
    exact ih (ht.of_looksLike (h.value hy).symm (Store.looksLike_value hy).symm)
  | @arg f as a ha _ ih =>
    obtain ⟨i, hi⟩ := List.mem_iff_getElem?.mp ha
    refine ih fun q => ?_
    have hq := ht (i :: q)
    rw [Store.lookVia_cons rfl, Store.lookVia_cons rfl] at hq
    rw [show v.store.children (.app f as) = as from rfl,
      show w.store.children (.app f as) = as from rfl, hi] at hq
    exact hq

/-! ## Classes of before -/

/-- Nobody has come since `w₀` to a class that had been made by then. -/
structure Unjoined (w₀ w : Session A) : Prop where
  consistent : w.Consistent
  le : w₀.store.nextJoint ≤ w.store.nextJoint
  classOf : ∀ x, (w.store.classOf x).Made w₀.store.nextJoint →
    w.store.classOf x = w₀.store.classOf x

/-- Unification moves variables to new classes only. -/
theorem stable_unjoined (w₀ : Session A) :
    Stable (fun _ => True) (Unjoined w₀) (fun _ => True) where
  values _ _ _ _ _ _ _ _ := trivial
  gather w xs value hw _ _ _ := by
    refine ⟨hw.consistent.gather _ _, ?_, fun x hx => ?_⟩
    · rw [nextJoint_gather]
      exact Nat.le_succ_of_le hw.le
    · rw [classOf_gather hw.consistent.store] at hx ⊢
      split at hx
      · exact absurd (hx.mono hw.le) (Nat.lt_irrefl _)
      · next hout => rw [if_neg hout]; exact hw.classOf x hx
  fails _ _ := trivial
  undoTo _ _ _ _ := trivial

end Session

end Horn
