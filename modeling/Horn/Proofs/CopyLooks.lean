import Horn.Proofs.Copies
import Horn.Proofs.Look
import Horn.Proofs.Reach

/-! # What copies look like

    A copy looks like the term it was made of, but where that has an unbound class, the
    copy has the variable that stands for the class: `lookVia`.  The store in which the
    copy is looked at need not be the one in which it was made; what stands for a class
    may have got a value since.

    * `Copies`: what a copy does to a renaming, and what it looks like. -/

namespace Horn

universe u v

variable {A : Type u}

namespace Store

/-- What stands at the end of a path in a copy that is made in store `s` and looked at
    in store `s'`.  The variables that stand for unbound classes are given by `r`. -/
def lookVia (s s' : Store A) (r : ClassId → Option Var) : List Nat → Term A → Option (Sight A)
  | [], t =>
    match s.sight t with
    | .node f k => some (.node f k)
    | .free c => (r c).bind fun y => s'.look [] (.var y)
  | i :: q, t =>
    match s.sight t with
    | .node _ _ => (s.children t)[i]?.bind (lookVia s s' r q)
    | .free c => (r c).bind fun y => s'.look (i :: q) (.var y)

section lookVia

variable {s s' : Store A} {r : ClassId → Option Var} {t u : Term A}

theorem lookVia_free {c : ClassId} (h : s.sight t = .free c) (q : List Nat) :
    s.lookVia s' r q t = (r c).bind fun y => s'.look q (.var y) := by
  cases q with
  | nil => rw [lookVia, h]
  | cons i q => rw [lookVia, h]

theorem lookVia_nil {f : A} {k : Nat} (h : s.sight t = .node f k) :
    s.lookVia s' r [] t = some (.node f k) := by
  rw [lookVia, h]

theorem lookVia_cons {f : A} {k : Nat} (h : s.sight t = .node f k) (i : Nat) (q : List Nat) :
    s.lookVia s' r (i :: q) t = (s.children t)[i]?.bind (s.lookVia s' r q) := by
  rw [lookVia, h]

/-- Copies of terms that look the same do so too. -/
theorem LooksLike.lookVia (h : s.LooksLike t u) (q : List Nat) :
    s.lookVia s' r q t = s.lookVia s' r q u := by
  induction q generalizing t u with
  | nil => rw [Store.lookVia, Store.lookVia, h.sight_eq]
  | cons i q ih =>
    cases ht : s.sight t with
    | free c => rw [lookVia_free ht, lookVia_free (h.sight_eq ▸ ht)]
    | node f k =>
      -- the two have the same name, and children in pairs
      have hlen : (s.children t).length = (s.children u).length := by
        rw [length_children, length_children, h.sight_eq]
      rw [lookVia_cons ht, lookVia_cons (h.sight_eq ▸ ht)]
      exact bind_getElem?_congr hlen i fun _ _ ht hu => ih (h.child ht hu)

end lookVia

end Store

/-! ## Renamings that grow -/

namespace Copying

/-- Different classes have different variables, which have been made. -/
structure Proper (p : Copying) : Prop where
  below : ∀ c y, p.images.image c = some y → y.id < p.nextVar
  injective : ∀ c d y, p.images.image c = some y → p.images.image d = some y → c = d

/-- What stands for a class in `p` does so in `p'`, and what has been added is new. -/
structure Grows (p p' : Copying) : Prop where
  le : p.nextVar ≤ p'.nextVar
  old : ∀ c y, p.images.image c = some y → p'.images.image c = some y
  new : ∀ c y, p'.images.image c = some y → p.images.image c = some y ∨ p.nextVar ≤ y.id

theorem Grows.refl (p : Copying) : p.Grows p := ⟨Nat.le_refl _, fun _ _ h => h, fun _ _ h => .inl h⟩

theorem Grows.trans {p₁ p₂ p₃ : Copying} (h₁ : p₁.Grows p₂) (h₂ : p₂.Grows p₃) : p₁.Grows p₃ where
  le := Nat.le_trans h₁.le h₂.le
  old c y h := h₂.old c y (h₁.old c y h)
  new c y h := by
    rcases h₂.new c y h with h | h
    · exact h₁.new c y h
    · exact .inr (Nat.le_trans h₁.le h)

theorem proper_empty (a : Nat) : Proper ⟨.empty, a⟩ where
  below c y h := by cases h
  injective c d y h _ := by cases h

/-- The class gets a variable, and no other class gets one. -/
theorem rename_image (p : Copying) (c d : ClassId) :
    (p.rename c).2.images.image d =
      (p.images.image d).or (if d = c then some (p.rename c).1 else none) := by
  unfold rename
  split
  · next y hy =>
    by_cases hd : d = c
    · rw [hd, hy]
      rfl
    · rw [if_neg hd, Option.or_none]
  · exact Renaming.image_extend p.images c d _

theorem rename_self (p : Copying) (c : ClassId) :
    (p.rename c).2.images.image c = some (p.rename c).1 := by
  unfold rename
  split
  · next hy => exact hy
  · next hc =>
    rw [Renaming.image_extend, hc, if_pos rfl]
    rfl

theorem grows_rename (p : Copying) (c : ClassId) : p.Grows (p.rename c).2 where
  le := by
    unfold rename
    split
    · exact Nat.le_refl _
    · exact Nat.le_succ _
  old d y h := by rw [rename_image, h]; rfl
  new d y h := by
    unfold rename at h
    split at h
    · exact .inl h
    · rw [Renaming.image_extend, Option.or_eq_some_iff] at h
      rcases h with h | ⟨-, h⟩
      · exact .inl h
      · split at h
        · cases h
          exact .inr (Nat.le_refl _)
        · cases h

theorem Proper.rename {p : Copying} (hp : p.Proper) (c : ClassId) : (p.rename c).2.Proper := by
  unfold Copying.rename
  split
  · exact hp
  · next hc =>
    -- an image is an old one, or the new variable
    have hsplit : ∀ d y, (p.images.extend c ⟨p.nextVar⟩).image d = some y →
        p.images.image d = some y ∨ d = c ∧ y = ⟨p.nextVar⟩ := by
      intro d y h
      rw [Renaming.image_extend, Option.or_eq_some_iff] at h
      rcases h with h | ⟨-, h⟩
      · exact .inl h
      · split at h
        · next hd =>
          cases h
          exact .inr ⟨hd, rfl⟩
        · cases h
    refine ⟨fun d y h => ?_, fun d e y hd he => ?_⟩
    · rcases hsplit d y h with h | ⟨-, rfl⟩
      · exact Nat.lt_succ_of_lt (hp.below d y h)
      · exact Nat.lt_succ_self _
    · rcases hsplit d y hd with hd | ⟨rfl, rfl⟩
      · rcases hsplit e y he with he | ⟨-, rfl⟩
        · exact hp.injective d e y hd he
        · exact absurd (hp.below d _ hd) (Nat.lt_irrefl _)
      · rcases hsplit e _ he with he | ⟨rfl, -⟩
        · exact absurd (hp.below e _ he) (Nat.lt_irrefl _)
        · rfl

end Copying

/-! ## Copies -/

/-- The terms `ts'` are copies of `ts`, made in store `s` one after the other. -/
structure Copies (s : Store A) (ts ts' : List (Term A)) (p p' : Copying) : Prop where
  grows : p.Grows p'
  proper : p.Proper → p'.Proper
  /-- Every unbound class met has got a variable. -/
  met : ∀ c, s.valueOf c = none → (∃ t ∈ ts, s.Meets c t) → ∃ y, p'.images.image c = some y
  /-- No other class has got one. -/
  only : ∀ c y, p'.images.image c = some y →
    p.images.image c = some y ∨ s.valueOf c = none ∧ ∃ t ∈ ts, s.Meets c t
  looks : List.Forall₂ (fun t t' => ∀ (s' : Store A) (p'' : Copying) (q : List Nat), p'.Grows p'' →
    s'.look q t' = s.lookVia s' p''.images.image q t) ts ts'

section copies

variable {s : Store A} {t t' : Term A} {ts ts' : List (Term A)} {p p₁ p₂ : Copying}

theorem Copies.nil (s : Store A) (p : Copying) : Copies s [] [] p p where
  grows := .refl p
  proper h := h
  met := by
    rintro c - ⟨t, ht, -⟩
    cases ht
  only c y h := .inl h
  looks := .nil

theorem Copies.cons (h : Copies s [t] [t'] p p₁) (hs : Copies s ts ts' p₁ p₂) :
    Copies s (t :: ts) (t' :: ts') p p₂ where
  grows := h.grows.trans hs.grows
  proper hp := hs.proper (h.proper hp)
  met := by
    rintro c hc ⟨u, hu, hm⟩
    rcases List.mem_cons.mp hu with rfl | hu
    · obtain ⟨y, hy⟩ := h.met c hc ⟨u, List.mem_singleton_self _, hm⟩
      exact ⟨y, hs.grows.old c y hy⟩
    · exact hs.met c hc ⟨u, hu, hm⟩
  only c y hy := by
    rcases hs.only c y hy with hy | ⟨hc, u, hu, hm⟩
    · rcases h.only c y hy with hy | ⟨hc, u, hu, hm⟩
      · exact .inl hy
      · rw [List.mem_singleton.mp hu] at hm
        exact .inr ⟨hc, t, List.mem_cons_self .., hm⟩
    · exact .inr ⟨hc, u, List.mem_cons_of_mem _ hu, hm⟩
  looks := by
    refine .cons (fun s' p'' q hp => ?_) hs.looks
    cases h.looks with
    | cons hlook _ => exact hlook s' p'' q (hs.grows.trans hp)

/-- A compound whose arguments are copies is a copy of what is seen with these
    arguments. -/
theorem Copies.node {f : A} {as as' : List (Term A)} (h : Copies s as as' p p₁)
    (hsight : s.sight t = .node f as.length) (hchildren : s.children t = as)
    (hmeets : ∀ c, s.valueOf c = none → (s.Meets c t ↔ ∃ a ∈ as, s.Meets c a)) :
    Copies s [t] [.app f as'] p p₁ where
  grows := h.grows
  proper := h.proper
  met := by
    rintro c hc ⟨u, hu, hm⟩
    rw [List.mem_singleton.mp hu] at hm
    exact h.met c hc ((hmeets c hc).mp hm)
  only c y hy := by
    rcases h.only c y hy with hy | ⟨hc, hm⟩
    · exact .inl hy
    · exact .inr ⟨hc, t, List.mem_singleton_self _, (hmeets c hc).mpr hm⟩
  looks := by
    refine .cons (fun s' p'' q hp => ?_) .nil
    cases q with
    | nil =>
      rw [Store.lookVia_nil hsight, h.looks.length_eq]
      rfl
    | cons i q =>
      rw [Store.lookVia_cons hsight, hchildren]
      refine (bind_getElem?_congr h.looks.length_eq i fun a a' ha ha' => ?_).symm
      -- the child is looked at in the copy of the child
      have hmem : (a, a') ∈ as.zip as' :=
        List.mem_of_getElem? (List.getElem?_zip_eq_some.mpr ⟨ha, ha'⟩)
      exact ((List.forall₂_iff_zip.mp h.looks).2 hmem s' p'' q hp).symm

/-- An unbound variable is copied to the one that stands for its class. -/
theorem Copies.unbound {x : Var} (hx : s.value x = none) (p : Copying) :
    Copies s [.var x] [.var (p.rename (s.classOf x)).1] p (p.rename (s.classOf x)).2 where
  grows := p.grows_rename _
  proper hp := hp.rename _
  met := by
    rintro c - ⟨u, hu, hm⟩
    rw [List.mem_singleton.mp hu, Store.meets_var_iff] at hm
    rcases hm with rfl | ⟨v, hv, -⟩
    · refine ⟨(p.rename (s.classOf x)).1, ?_⟩
      rw [Copying.rename_self]
    · rw [hx] at hv
      cases hv
  only c y hy := by
    rw [Copying.rename_image, Option.or_eq_some_iff] at hy
    rcases hy with hy | ⟨-, hy⟩
    · exact .inl hy
    · split at hy
      · next hc => exact .inr ⟨hc ▸ hx, _, List.mem_singleton_self _, .here hc.symm⟩
      · cases hy
  looks := by
    refine .cons (fun s' p'' q hp => ?_) .nil
    rw [Store.lookVia_free (Store.sight_unbound hx), hp.old _ _ (Copying.rename_self p _)]
    rfl

theorem copyEach_copies {copy : Term A → Copying → Option (Term A × Copying)}
    (hcopy : ∀ t p t' p', copy t p = some (t', p') → Copies s [t] [t'] p p')
    (h : copyEach copy ts p = some (ts', p₁)) : Copies s ts ts' p p₁ := by
  induction ts generalizing p ts' with
  | nil =>
    cases h
    exact .nil s _
  | cons t ts ih =>
    obtain ⟨t', q, ts', q', ht, hts, he⟩ := copyEach_cons_eq_some_iff.mp h
    cases he
    exact (hcopy t p t' q ht).cons (ih hts)

/-- What is met in a bound variable is met in its value. -/
theorem Store.meets_bound_iff {x : Var} {v : Compound A} (hx : s.value x = some v) {c : ClassId}
    (hc : s.valueOf c = none) : s.Meets c (.var x) ↔ ∃ a ∈ v.args, s.Meets c a := by
  rw [meets_var_iff, ← meets_toTerm]
  constructor
  · rintro (rfl | ⟨u, hu, hm⟩)
    · rw [Store.value, hc] at hx
      cases hx
    · rw [hx] at hu
      cases hu
      exact hm
  · exact fun hm => .inr ⟨v, hx, hm⟩

theorem copyTerm_copies (n : Nat) (t : Term A) (p : Copying) (t' : Term A) (p' : Copying)
    (h : s.copyTerm n t p = some (t', p')) : Copies s [t] [t'] p p' := by
  induction n generalizing t p t' p' with
  | zero => cases h
  | succ n ih =>
    cases t with
    | app f as =>
      obtain ⟨⟨as', q⟩, hq, he⟩ := Option.map_eq_some_iff.mp h
      cases he
      exact (copyEach_copies ih hq).node rfl rfl fun c _ => Store.meets_app
    | var x =>
      rw [Store.copyTerm] at h
      cases hx : s.value x with
      | none =>
        rw [hx] at h
        cases h
        exact .unbound hx p
      | some v =>
        rw [hx] at h
        obtain ⟨⟨as', q⟩, hq, he⟩ := Option.map_eq_some_iff.mp h
        cases he
        exact (copyEach_copies ih hq).node (Store.sight_bound hx) (Store.children_bound hx)
          fun c hc => Store.meets_bound_iff hx hc

theorem copyGoal_copies {n : Nat} {c c' : Compound A}
    (h : copyGoal (s.copyTerm n) c p = some (c', p₁)) :
    Copies s [c.toTerm] [c'.toTerm] p p₁ :=
  copyTerm_copies (n + 1) _ _ _ _ (Store.copyTerm_of_copyGoal h)

theorem copyGoals_copies {n : Nat} {cs cs' : List (Compound A)}
    (h : copyGoals (s.copyTerm n) cs p = some (cs', p₁)) :
    Copies s (cs.map Compound.toTerm) (cs'.map Compound.toTerm) p p₁ :=
  copyEach_copies (copyTerm_copies (n + 1)) (Store.copyEach_of_copyGoals h)

end copies

/-! ## Copies that come to an end -/

namespace Store

variable {s : Store A}

theorem copyTerm_mono {n m : Nat} (hnm : n ≤ m) {t : Term A} {p : Copying} {r : Term A × Copying}
    (h : s.copyTerm n t p = some r) : s.copyTerm m t p = some r :=
  answer_mono (f := fun n => s.copyTerm n t p) (fun _ _ => s.copyTerm_succ) hnm h

/-- Copies of terms that can be copied, one after the other. -/
theorem exists_copyEach {ts : List (Term A)}
    (h : ∀ t ∈ ts, ∀ p, ∃ n r, s.copyTerm n t p = some r) (p : Copying) :
    ∃ n r, copyEach (s.copyTerm n) ts p = some r := by
  induction ts generalizing p with
  | nil => exact ⟨0, _, rfl⟩
  | cons t ts ih =>
    obtain ⟨n, r, hr⟩ := h t (List.mem_cons_self ..) p
    obtain ⟨m, q, hq⟩ := ih (fun u hu => h u (List.mem_cons_of_mem _ hu)) r.2
    -- one number of levels does for the first copy and for the others
    refine ⟨max n m, (r.1 :: q.1, q.2), ?_⟩
    rw [copyEach_cons, copyTerm_mono (Nat.le_max_left n m) hr, Option.bind_some,
      copyEach_mono (fun _ _ _ => copyTerm_mono (Nat.le_max_right n m)) hq]
    rfl

/-- A term that ends can be copied. -/
theorem Ends.copyTerm {t : Term A} (h : s.Ends t) (p : Copying) :
    ∃ n r, s.copyTerm n t p = some r := by
  induction h generalizing p with
  | unbound hx => exact ⟨1, _, by rw [Store.copyTerm, hx]⟩
  | @bound x v hx _ ih =>
    obtain ⟨n, r, hr⟩ := ih p
    cases n with
    | zero => cases hr
    | succ n =>
      refine ⟨n + 1, r, ?_⟩
      rw [Store.copyTerm, hx]
      exact hr
  | @app f as _ ih =>
    obtain ⟨n, r, hr⟩ := exists_copyEach ih p
    refine ⟨n + 1, (.app f r.1, r.2), ?_⟩
    rw [Store.copyTerm, hr]
    rfl

/-- What holds of all that can be copied holds of terms that could be copied one after the
    other. -/
theorem copyEach_forall {copy : Term A → Copying → Option (Term A × Copying)}
    {P : Term A → Prop} (hcopy : ∀ t p r, copy t p = some r → P t) {ts : List (Term A)}
    {p : Copying} {r : List (Term A) × Copying} (h : copyEach copy ts p = some r) :
    ∀ t ∈ ts, P t := by
  induction ts generalizing p r with
  | nil => exact fun _ ht => nomatch ht
  | cons t ts ih =>
    obtain ⟨t', q, ts', q', ht, hts, -⟩ := copyEach_cons_eq_some_iff.mp h
    exact List.forall_mem_cons.mpr ⟨hcopy t p _ ht, ih hts⟩

/-- A term that can be copied ends. -/
theorem ends_of_copyTerm {n : Nat} {t : Term A} {p : Copying} {r : Term A × Copying}
    (h : s.copyTerm n t p = some r) : s.Ends t := by
  induction n generalizing t p r with
  | zero => cases h
  | succ n ih =>
    -- if the arguments have all been copied, then each of them has
    have hargs : ∀ {as : List (Term A)} {q : List (Term A) × Copying},
        copyEach (s.copyTerm n) as p = some q → ∀ a ∈ as, s.Ends a :=
      copyEach_forall (P := s.Ends) fun _ _ _ => ih
    cases t with
    | app f as =>
      obtain ⟨q, hq, -⟩ := Option.map_eq_some_iff.mp h
      exact .app (hargs hq)
    | var x =>
      rw [Store.copyTerm] at h
      cases hx : s.value x with
      | none => exact .unbound hx
      | some v =>
        rw [hx] at h
        obtain ⟨q, hq, -⟩ := Option.map_eq_some_iff.mp h
        exact .bound hx (.app (hargs hq))

/-- Compounds can be copied just if they end. -/
theorem exists_copyGoals_iff {cs : List (Compound A)} (p : Copying) :
    (∃ n r, copyGoals (s.copyTerm n) cs p = some r) ↔ ∀ c ∈ cs, s.Ends c.toTerm := by
  constructor
  · rintro ⟨n, r, hr⟩ c hc
    exact copyEach_forall (P := s.Ends) (fun _ _ _ => ends_of_copyTerm) (copyEach_of_copyGoals hr)
      c.toTerm (List.mem_map_of_mem hc)
  · intro h
    have hterms : ∀ t ∈ cs.map Compound.toTerm, ∀ p, ∃ n r, s.copyTerm n t p = some r := by
      intro t ht p
      obtain ⟨c, hc, rfl⟩ := List.mem_map.mp ht
      exact (h c hc).copyTerm p
    obtain ⟨n, r, hr⟩ := exists_copyEach hterms p
    -- a compound takes one level more than its arguments
    have hsucc := copyEach_mono (fun _ _ _ => s.copyTerm_succ) hr
    rw [copyEach_toTerm] at hsucc
    obtain ⟨q, hq, -⟩ := Option.map_eq_some_iff.mp hsucc
    exact ⟨n, q, hq⟩

/-- A term ends in every store in which the variables met in it have their values. -/
theorem Ends.of_value {s' : Store A} {t : Term A} (h : s.Ends t)
    (hvalue : ∀ x, s.Meets (s.classOf x) t → s'.value x = s.value x) : s'.Ends t := by
  induction h with
  | unbound hx => exact .unbound ((hvalue _ (.here rfl)).trans hx)
  | bound hx _ ih =>
    exact .bound ((hvalue _ (.here rfl)).trans hx) (ih fun y hy => hvalue y (.value hx hy))
  | app _ ih => exact .app fun a ha => ih a ha fun y hy => hvalue y (.arg ha hy)

/-- If all that is bound in `s` looks in `s'` like its value in `s`, then a term ends in
    `s` if one that it looks like in `s'` ends there. -/
theorem Ends.of_looksLike {s' : Store A}
    (hvalue : ∀ x c, s.value x = some c → s'.LooksLike (.var x) c.toTerm) {t u : Term A}
    (h : s'.Ends u) (htu : s'.LooksLike t u) : s.Ends t := by
  induction h generalizing t with
  | @unbound z hz =>
    obtain ⟨x, rfl, hx, -⟩ := exists_var_of_sight (htu.sight_eq.trans (sight_unbound hz))
    cases hs : s.value x with
    | none => exact .unbound hs
    | some c =>
      have hsight := (hvalue x c hs).sight_eq
      rw [sight_unbound hx] at hsight
      cases hsight
  | bound hz _ ih => exact ih (htu.trans (looksLike_value hz))
  | @app f as _ ih =>
    -- whatever compound looks like this one has arguments that end
    have hcompound : ∀ c : Compound A, s'.LooksLike c.toTerm (.app f as) →
        ∀ a ∈ c.args, s.Ends a := by
      intro c hc a ha
      obtain ⟨i, hi, rfl⟩ := List.mem_iff_getElem.mp ha
      have hlen : c.args.length = as.length := (Sight.node.inj hc.sight_eq).2
      have hi' : i < as.length := hlen ▸ hi
      exact ih as[i] (List.getElem_mem hi')
        (hc.child (List.getElem?_eq_getElem hi) (List.getElem?_eq_getElem hi'))
    cases t with
    | app g bs => exact .app (hcompound ⟨g, bs⟩ htu)
    | var x =>
      cases hs : s.value x with
      | none => exact .unbound hs
      | some c => exact .bound hs (.app (hcompound c ((hvalue x c hs).symm.trans htu)))

end Store

end Horn
