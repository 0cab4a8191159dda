import Horn.Proofs.OccursCheck
import Horn.Proofs.Resolution
import Horn.Proofs.Views
import Mathlib.Data.Set.Card

/-! # A series of copies

    Terms, compounds and clauses are copied one after the other, each through one of several
    renamings that were empty at the start.  What has been copied so far is described by
    what its renamings hold:

    * a renaming has a variable just for those unbound classes that are met in what was
      copied through it, and no two classes have one variable (`Renamed.image_iff`,
      `Copying.Proper`);
    * the variables of all renamings are new and different (`Renamed.apart`);
    * each copy is its original, read as a solution reads it that gives every class the
      variable it has got (`Renamed.reads`).

    `Renamed.snoc` is the step, `renamed_copySeries` the run.

    Main statement: `copies_are_fresh_renamings`. -/

namespace Horn

universe u v

variable {A : Type u}

/-! ## What is copied -/

/-- A term, a compound or a clause, to be copied through a renaming. -/
inductive Original (A : Type u) where
  | term (t : Term A)
  | compound (c : Compound A)
  | clause (c : Clause A)

namespace Original

/-- The copy through `r`. -/
def copy (n : Nat) (r : Renaming) (s : Store A) :
    Original A → Option (Original A × Renaming × Store A)
  | term t => (s.copy n t r).map fun (t, q) => (term t, q)
  | compound c => (s.copyCompound n c r).map fun (c, q) => (compound c, q)
  | clause c => (c.copy n r s).map fun (c, q) => (clause c, q)

/-- The terms it consists of. -/
def terms : Original A → List (Term A)
  | term t => [t]
  | compound c => [c.toTerm]
  | clause c => (c.head :: c.body).map Compound.toTerm

/-- The class is met in one of the terms. -/
def Meets (s : Store A) (c : ClassId) (o : Original A) : Prop := ∃ t ∈ o.terms, s.Meets c t

/-- The variable occurs in one of the terms as it is written. -/
def Mentions (x : Var) (o : Original A) : Prop := ∃ t ∈ o.terms, t.Mentions x

/-- Both are of one kind, and the terms of one are related to those of the other, one by
    one. -/
inductive Matches (R : Term A → Term A → Prop) : Original A → Original A → Prop where
  | term {t t' : Term A} : R t t' → Matches R (.term t) (.term t')
  | compound {c c' : Compound A} : R c.toTerm c'.toTerm → Matches R (.compound c) (.compound c')
  | clause {c c' : Clause A} : R c.head.toTerm c'.head.toTerm →
      List.Forall₂ (fun g g' => R g.toTerm g'.toTerm) c.body c'.body →
        Matches R (.clause c) (.clause c')

theorem Matches.imp {R S : Term A → Term A → Prop} {o o' : Original A} (h : o.Matches R o')
    (hRS : ∀ t t', t ∈ o.terms → R t t' → S t t') : o.Matches S o' := by
  cases h with
  | term h => exact .term (hRS _ _ (List.mem_singleton_self _) h)
  | compound h => exact .compound (hRS _ _ (List.mem_singleton_self _) h)
  | @clause c c' hhead hbody =>
    have hmem : ∀ g ∈ c.body, g.toTerm ∈ (Original.clause c).terms := fun g hg =>
      List.mem_map_of_mem (List.mem_cons_of_mem _ hg)
    refine .clause (hRS _ _ (List.mem_cons_self ..) hhead) ?_
    rw [List.forall₂_iff_zip] at hbody ⊢
    exact ⟨hbody.1, fun hg => hRS _ _ (hmem _ (List.of_mem_zip hg).1) (hbody.2 hg)⟩

/-- Each term of the second matches one of the first. -/
theorem Matches.exists_term {R : Term A → Term A → Prop} {o o' : Original A}
    (h : o.Matches R o') {t' : Term A} (ht' : t' ∈ o'.terms) : ∃ t ∈ o.terms, R t t' := by
  cases h with
  | term h => exact ⟨_, List.mem_singleton_self _, List.mem_singleton.mp ht' ▸ h⟩
  | compound h => exact ⟨_, List.mem_singleton_self _, List.mem_singleton.mp ht' ▸ h⟩
  | clause hhead hbody =>
    obtain ⟨g', hg', rfl⟩ := List.mem_map.mp ht'
    rcases List.mem_cons.mp hg' with rfl | hg'
    · exact ⟨_, List.mem_cons_self .., hhead⟩
    · obtain ⟨g, hg, hgg'⟩ := exists_of_forall₂ hbody hg'
      exact ⟨g.toTerm, List.mem_map_of_mem (List.mem_cons_of_mem _ hg), hgg'⟩

/-- The copy and how far copying has got with it, whatever way terms are copied. -/
def copyBy (copy : Term A → Copying → Option (Term A × Copying)) :
    Original A → Copying → Option (Original A × Copying)
  | term t, p => (copy t p).map fun r => (term r.1, r.2)
  | compound c, p => (copyGoal copy c p).map fun r => (compound r.1, r.2)
  | clause c, p =>
    (copyGoal copy c.head p).bind fun r =>
      (copyGoals copy c.body r.2).map fun q => (clause ⟨r.1, q.1⟩, q.2)

theorem copy_eq (n : Nat) (r : Renaming) (s : Store A) (o : Original A) :
    o.copy n r s = (o.copyBy (s.copyTerm n) ⟨r, s.nextVar⟩).map fun (o, p) =>
      (o, p.images, s.setNext p.nextVar) := by
  cases o with
  | term t =>
    rw [copy, copyBy, Store.copy, Store.copying, Option.map_map, Option.map_map]
    rfl
  | compound c =>
    rw [copy, copyBy, Store.copyCompound_eq, Option.map_map, Option.map_map]
    rfl
  | clause c =>
    rw [copy, copyBy, Clause.copy, Store.copyCompound_eq]
    cases copyGoal (s.copyTerm n) c.head ⟨r, s.nextVar⟩ with
    | none => rfl
    | some q =>
      have hq : (⟨q.2.images, (s.setNext q.2.nextVar).nextVar⟩ : Copying) = q.2 := rfl
      simp only [Option.map_some, Option.bind_some]
      rw [Store.copyCompounds_eq, Store.copyTerm_setNext, hq]
      cases copyGoals (s.copyTerm n) c.body q.2 <;> rfl

/-! ## One copy -/

/-- What one copy does: to the renaming, and as a solution reads it. -/
structure Copied (s : Store A) (o o' : Original A) (p p' : Copying) : Prop where
  copies : Copies s o.terms o'.terms p p'
  reads : ∀ θ θ', s.Solves θ → p'.Reads s θ θ' →
    o.Matches (fun t t' => t'.subst θ' = t.subst θ) o'
  keeps : ∀ P : Copying → Prop, (∀ q c, P q → P (q.rename c).2) → P p → P p'

section copied

variable {s : Store A} {n : Nat} {p p' : Copying}

theorem copyGoal_keeps {P : Copying → Prop} (hP : ∀ q c, P q → P (Copying.rename q c).2)
    {c c' : Compound A} (h : copyGoal (s.copyTerm n) c p = some (c', p')) (hp : P p) : P p' :=
  s.copyTerm_keeps hP (n + 1) (Store.copyTerm_of_copyGoal h) hp

theorem copyGoals_keeps {P : Copying → Prop} (hP : ∀ q c, P q → P (Copying.rename q c).2)
    {cs cs' : List (Compound A)} (h : copyGoals (s.copyTerm n) cs p = some (cs', p'))
    (hp : P p) : P p' :=
  copyEach_keeps (fun _ _ _ => s.copyTerm_keeps hP (n + 1)) (Store.copyEach_of_copyGoals h) hp

theorem copied_of_copyBy {o o' : Original A}
    (h : o.copyBy (s.copyTerm n) p = some (o', p')) : Copied s o o' p p' := by
  cases o with
  | term t =>
    obtain ⟨⟨t', q⟩, hq, he⟩ := Option.map_eq_some_iff.mp h
    cases he
    exact {
      copies := copyTerm_copies n t p t' q hq
      reads := fun θ θ' hθ hread => .term (copyTerm_subst hθ n t p t' q hq hread)
      keeps := fun P hP hp => s.copyTerm_keeps hP n hq hp }
  | compound c =>
    obtain ⟨⟨c', q⟩, hq, he⟩ := Option.map_eq_some_iff.mp h
    cases he
    exact {
      copies := copyGoal_copies hq
      reads := fun θ θ' hθ hread => .compound (copyGoal_subst hθ hq hread)
      keeps := fun P hP hp => copyGoal_keeps hP hq hp }
  | clause c =>
    obtain ⟨⟨head, p₁⟩, hq, h⟩ := Option.bind_eq_some_iff.mp h
    obtain ⟨⟨body, p₂⟩, hq', he⟩ := Option.map_eq_some_iff.mp h
    cases he
    have hbody := copyGoals_copies hq'
    refine ⟨(copyGoal_copies hq).cons hbody, fun θ θ' hθ hread => .clause ?_ ?_,
      fun P hP hp => copyGoals_keeps hP hq' (copyGoal_keeps hP hq hp)⟩
    · exact copyGoal_subst hθ hq (hread.of_grows hbody.grows)
    · have hgoals := copyGoals_subst hθ hq' hread
      rw [eq_comm, ← List.forall₂_eq_eq_eq, List.forall₂_map_left_iff,
        List.forall₂_map_right_iff] at hgoals
      exact hgoals.imp fun _ _ heq => heq.symm

theorem copyBy_mono {m : Nat} (hnm : n ≤ m) {o : Original A} {r : Original A × Copying}
    (h : o.copyBy (s.copyTerm n) p = some r) : o.copyBy (s.copyTerm m) p = some r := by
  have hcopy : ∀ t q r, s.copyTerm n t q = some r → s.copyTerm m t q = some r := fun _ _ _ =>
    Store.copyTerm_mono hnm
  cases o with
  | term t =>
    obtain ⟨q, hq, rfl⟩ := Option.map_eq_some_iff.mp h
    rw [copyBy, hcopy t p q hq]
    rfl
  | compound c =>
    obtain ⟨q, hq, rfl⟩ := Option.map_eq_some_iff.mp h
    rw [copyBy, copyGoal_mono hcopy hq]
    rfl
  | clause c =>
    obtain ⟨q, hq, h⟩ := Option.bind_eq_some_iff.mp h
    obtain ⟨q', hq', rfl⟩ := Option.map_eq_some_iff.mp h
    rw [copyBy, copyGoal_mono hcopy hq, Option.bind_some, copyGoals_mono hcopy hq']
    rfl

/-- In an acyclic store everything can be copied. -/
theorem exists_copyBy (hs : s.Acyclic) (o : Original A) (p : Copying) :
    ∃ n r, o.copyBy (s.copyTerm n) p = some r := by
  have hgoals : ∀ (cs : List (Compound A)) (p : Copying),
      ∃ n r, copyGoals (s.copyTerm n) cs p = some r := fun cs p =>
    (Store.exists_copyGoals_iff p).mpr fun c _ => hs.ends c.toTerm
  cases o with
  | term t =>
    obtain ⟨n, r, hr⟩ := (hs.ends t).copyTerm p
    exact ⟨n, _, by rw [copyBy, hr]; rfl⟩
  | compound c =>
    obtain ⟨n, r, hr⟩ := hgoals [c] p
    obtain ⟨c', q, -, -, hc, -⟩ := copyGoals_cons_eq_some_iff.mp hr
    exact ⟨n, _, by rw [copyBy, hc]; rfl⟩
  | clause c =>
    -- head and body are copied like one list of goals
    obtain ⟨n, r, hr⟩ := hgoals (c.head :: c.body) p
    obtain ⟨head, q, body, q', hhead, hbody, -⟩ := copyGoals_cons_eq_some_iff.mp hr
    exact ⟨n, _, by rw [copyBy, hhead, Option.bind_some, hbody]; rfl⟩

end copied

end Original

/-! ## The classes of a renaming -/

namespace Renaming

/-- The classes that have a variable. -/
def classes (r : Renaming) : List ClassId := r.pairs.map Prod.fst

theorem length_classes (r : Renaming) : r.classes.length = r.size := List.length_map _

theorem mem_classes {r : Renaming} {c : ClassId} : c ∈ r.classes ↔ ∃ y, r.image c = some y := by
  rw [← Option.isSome_iff_exists, image, List.lookup_isSome_iff, classes, List.mem_map]
  constructor
  · rintro ⟨q, hq, rfl⟩
    exact ⟨q, hq, beq_self_eq_true _⟩
  · rintro ⟨q, hq, hc⟩
    exact ⟨q, hq, (eq_of_beq hc).symm⟩

end Renaming

/-- No class is given a variable twice. -/
theorem Copying.nodup_rename {p : Copying} (hp : p.images.classes.Nodup) (c : ClassId) :
    (p.rename c).2.images.classes.Nodup := by
  unfold rename
  split
  · exact hp
  · next hc =>
    have hnew : c ∉ p.images.classes := by
      rw [Renaming.mem_classes, hc]
      simp
    show (List.map Prod.fst (p.images.pairs ++ [(c, ⟨p.nextVar⟩)])).Nodup
    rw [List.map_append, List.map_singleton]
    refine List.nodup_append.mpr ⟨hp, List.nodup_singleton c, fun d hd e he => ?_⟩
    rw [List.mem_singleton.mp he]
    rintro rfl
    exact hnew hd

theorem Copying.Since.later {a m m' : Nat} {r : Renaming} (h : Copying.Since a ⟨r, m⟩)
    (hle : m ≤ m') : Copying.Since a ⟨r, m'⟩ where
  le := Nat.le_trans h.le hle
  image c y hy := (h.image c y hy).imp_right fun hlt => Nat.lt_of_lt_of_le hlt hle

theorem Copying.Proper.later {m m' : Nat} {r : Renaming} (h : Copying.Proper ⟨r, m⟩)
    (hle : m ≤ m') : Copying.Proper ⟨r, m'⟩ where
  below c y hy := Nat.lt_of_lt_of_le (h.below c y hy) hle
  injective := h.injective

/-! ## A series of copies -/

section series

variable {κ : Type v} [DecidableEq κ]

/-- Copies made one after the other, each through the renaming that goes by its key. -/
def copySeries (n : Nat) : List (κ × Original A) → (κ → Renaming) → Store A →
    Option (List (Original A) × (κ → Renaming) × Store A)
  | [], rs, s => some ([], rs, s)
  | (k, o) :: os, rs, s =>
    match o.copy n (rs k) s with
    | none => none
    | some (o', r, s) =>
      match copySeries n os (Function.update rs k r) s with
      | none => none
      | some (os', rs, s) => some (o' :: os', rs, s)

omit [DecidableEq κ] in
/-- The unbound classes that are met in what is copied through the renaming with key `k`. -/
def Store.metThrough (s : Store A) (os : List (κ × Original A)) (k : κ) : Set ClassId :=
  {c | s.valueOf c = none ∧ ∃ o, (k, o) ∈ os ∧ o.Meets s c}

omit [DecidableEq κ] in
theorem Store.mem_metThrough_append {s : Store A} {os : List (κ × Original A)} {j k : κ}
    {o : Original A} {c : ClassId} : c ∈ s.metThrough (os ++ [(k, o)]) j ↔
      c ∈ s.metThrough os j ∨ j = k ∧ s.valueOf c = none ∧ o.Meets s c := by
  constructor
  · rintro ⟨hc, o₁, ho₁, hm⟩
    rcases List.mem_append.mp ho₁ with ho₁ | ho₁
    · exact .inl ⟨hc, o₁, ho₁, hm⟩
    · cases List.mem_singleton.mp ho₁
      exact .inr ⟨rfl, hc, hm⟩
  · rintro (⟨hc, o₁, ho₁, hm⟩ | ⟨rfl, hc, hm⟩)
    · exact ⟨hc, o₁, List.mem_append_left _ ho₁, hm⟩
    · exact ⟨hc, o, List.mem_append_right _ (List.mem_singleton_self _), hm⟩

/-- The series `os` has been copied, and its renamings and the number of the next variable
    are `rs` and `m` by now. -/
structure Renamed (s : Store A) (os : List (κ × Original A)) (os' : List (Original A))
    (rs : κ → Renaming) (m : Nat) : Prop where
  since : ∀ k, Copying.Since s.nextVar ⟨rs k, m⟩
  proper : ∀ k, Copying.Proper ⟨rs k, m⟩
  nodup : ∀ k, (rs k).classes.Nodup
  /-- Two renamings have no variable in common. -/
  apart : ∀ j k c d y, (rs j).image c = some y → (rs k).image d = some y → j = k
  image_iff : ∀ k c, (∃ y, (rs k).image c = some y) ↔ c ∈ s.metThrough os k
  reads : ∀ θ θ' : κ → Var → Term A, (∀ k, s.Solves (θ k)) →
    (∀ k, Copying.Reads ⟨rs k, m⟩ s (θ k) (θ' k)) →
      List.Forall₂ (fun q o' => q.2.Matches (fun t t' => t'.subst (θ' q.1) = t.subst (θ q.1)) o')
        os os'

namespace Renamed

variable {s : Store A} {os : List (κ × Original A)} {os' : List (Original A)}
  {rs : κ → Renaming} {m : Nat}

omit [DecidableEq κ] in
theorem nil (s : Store A) :
    Renamed s ([] : List (κ × Original A)) [] (fun _ => .empty) s.nextVar where
  since _ := Copying.since_empty _
  proper _ := Copying.proper_empty _
  nodup _ := List.nodup_nil
  apart _ _ _ _ _ h _ := nomatch h
  image_iff k c := by
    refine iff_of_false ?_ ?_
    · rintro ⟨y, hy⟩
      cases hy
    · rintro ⟨-, o, ho, -⟩
      cases ho
  reads _ _ _ _ := .nil

/-- **One more copy.**  Its renaming has got new variables, and the others have stayed as they
    were. -/
theorem snoc (h : Renamed s os os' rs m) {k : κ} {o o' : Original A} {p : Copying}
    (hcopy : o.Copied s o' ⟨rs k, m⟩ p) :
    Renamed s (os ++ [(k, o)]) (os' ++ [o']) (Function.update rs k p.images) p.nextVar := by
  have hgrows := hcopy.copies.grows
  -- a variable of this renaming is not one of another, be it old or new
  have hapart : ∀ j, j ≠ k → ∀ c d y, p.images.image c = some y → (rs j).image d ≠ some y := by
    intro j hj c d y hc hd
    rcases hgrows.new c y hc with hold | hnew
    · exact hj (h.apart j k d c y hd hold)
    · exact Nat.not_lt_of_le hnew ((h.since j).image d y hd).2
  constructor
  case since =>
    rw [Function.forall_update_iff rs fun _ r => Copying.Since s.nextVar ⟨r, p.nextVar⟩]
    refine ⟨hcopy.keeps _ (fun q c hq => (hq.rename c).2) (h.since k), fun j _ => ?_⟩
    exact (h.since j).later hgrows.le
  case proper =>
    rw [Function.forall_update_iff rs fun _ r => Copying.Proper ⟨r, p.nextVar⟩]
    exact ⟨hcopy.copies.proper (h.proper k), fun j _ => (h.proper j).later hgrows.le⟩
  case nodup =>
    rw [Function.forall_update_iff rs fun _ r => r.classes.Nodup]
    refine ⟨?_, fun j _ => h.nodup j⟩
    exact hcopy.keeps (fun q => q.images.classes.Nodup) (fun q c hq => Copying.nodup_rename hq c)
      (h.nodup k)
  case apart =>
    intro i j c d y hi hj
    by_cases hik : i = k
    · rw [hik, Function.update_self] at hi
      by_cases hjk : j = k
      · rw [hik, hjk]
      · rw [Function.update_of_ne hjk] at hj
        exact absurd hj (hapart j hjk c d y hi)
    · rw [Function.update_of_ne hik] at hi
      by_cases hjk : j = k
      · rw [hjk, Function.update_self] at hj
        exact absurd hi (hapart i hik d c y hj)
      · rw [Function.update_of_ne hjk] at hj
        exact h.apart i j c d y hi hj
  case image_iff =>
    rw [Function.forall_update_iff rs fun j r => ∀ c, (∃ y, r.image c = some y) ↔
      c ∈ s.metThrough (os ++ [(k, o)]) j]
    refine ⟨fun c => ?_, fun j hj c => ?_⟩
    · rw [Store.mem_metThrough_append, ← h.image_iff]
      constructor
      · rintro ⟨y, hy⟩
        exact (hcopy.copies.only c y hy).imp (fun hold => ⟨y, hold⟩) fun hnew => ⟨rfl, hnew⟩
      · rintro (⟨y, hy⟩ | ⟨-, hc, hm⟩)
        · exact ⟨y, hgrows.old c y hy⟩
        · exact hcopy.copies.met c hc hm
    · rw [Store.mem_metThrough_append, h.image_iff]
      simp [hj]
  case reads =>
    intro θ θ' hθ hread
    rw [Function.forall_update_iff rs fun j r => Copying.Reads ⟨r, p.nextVar⟩ s (θ j) (θ' j)]
      at hread
    obtain ⟨hthis, hothers⟩ := hread
    -- what stood for a class before still does
    have hold : ∀ j, Copying.Reads ⟨rs j, m⟩ s (θ j) (θ' j) := by
      intro j
      by_cases hj : j = k
      · subst hj
        exact hthis.of_grows hgrows
      · exact hothers j hj
    exact List.rel_append (h.reads θ θ' hθ hold)
      (.cons (hcopy.reads (θ k) (θ' k) (hθ k) hthis) .nil)

end Renamed

/-- **The run**: from what has been copied so far a series leads to all of it copied. -/
theorem renamed_copySeries {s s' : Store A} {n : Nat} {done os : List (κ × Original A)}
    {done' os' : List (Original A)} {rs rs' : κ → Renaming} {m : Nat}
    (h : Renamed s done done' rs m)
    (hcopy : copySeries n os rs (s.setNext m) = some (os', rs', s')) :
    s' = s.setNext s'.nextVar ∧ Renamed s (done ++ os) (done' ++ os') rs' s'.nextVar := by
  induction os generalizing done done' os' rs m with
  | nil =>
    cases hcopy
    rw [List.append_nil, List.append_nil]
    exact ⟨rfl, h⟩
  | cons q os ih =>
    obtain ⟨k, o⟩ := q
    rw [copySeries, Original.copy_eq, Store.copyTerm_setNext] at hcopy
    cases hq : o.copyBy (s.copyTerm n) ⟨rs k, m⟩ with
    | none =>
      rw [Store.nextVar_setNext, hq] at hcopy
      cases hcopy
    | some q =>
      rw [Store.nextVar_setNext, hq] at hcopy
      simp only [Option.map_some] at hcopy
      split at hcopy
      · cases hcopy
      · next os₁ rs₁ s₁ hrest =>
        cases hcopy
        have hmore := ih (h.snoc (Original.copied_of_copyBy hq)) hrest
        rw [List.append_assoc, List.append_assoc] at hmore
        exact hmore

/-- A level that is enough for the whole series. -/
theorem exists_copySeries {s : Store A} (hs : s.Acyclic) (os : List (κ × Original A))
    (rs : κ → Renaming) (m : Nat) :
    ∃ n, ∀ n', n ≤ n' → (copySeries n' os rs (s.setNext m)).isSome := by
  induction os generalizing rs m with
  | nil => exact ⟨0, fun _ _ => rfl⟩
  | cons q os ih =>
    obtain ⟨k, o⟩ := q
    obtain ⟨n₁, r, hr⟩ := o.exists_copyBy hs ⟨rs k, m⟩
    obtain ⟨n₂, hn₂⟩ := ih (Function.update rs k r.2.images) r.2.nextVar
    refine ⟨max n₁ n₂, fun n hn => ?_⟩
    have hfirst := Original.copyBy_mono (Nat.le_trans (Nat.le_max_left n₁ n₂) hn) hr
    have hrest := hn₂ n (Nat.le_trans (Nat.le_max_right n₁ n₂) hn)
    rw [copySeries, Original.copy_eq, Store.copyTerm_setNext, Store.nextVar_setNext, hfirst]
    simp only [Option.map_some]
    obtain ⟨q, hq⟩ := Option.isSome_iff_exists.mp hrest
    have hnext : (s.setNext m).setNext r.2.nextVar = s.setNext r.2.nextVar := rfl
    rw [hnext, hq]
    rfl

end series

/-! ## Resolved forms with new variables -/

/-- What is left of a term when it is resolved is met in the term. -/
theorem Store.Resolves.meets {s : Store A} {t u : Term A} (h : s.Resolves t u) {x : Var}
    (hx : u.Mentions x) : s.Meets (s.classOf x) t := by
  refine h.within (L := fun y => s.Meets (s.classOf y) t) (fun y c hy hc z hz => ?_)
    (fun y hy => .of_mentions hy) x hx
  exact hy.trans hc (.of_mentions hz)

section fresh

variable {κ : Type v} {s s' : Store A} {os : List (κ × Original A)} {os' : List (Original A)}
  {rs : κ → Renaming} {m : Nat}

/-- Every copy is the resolved form of its original, with the variable that stands for its
    class in the place of each unbound variable. -/
theorem Renamed.resolved (h : Renamed s os os' rs m) (hs : s.Acyclic) {ρ : κ → ClassId → Var}
    (hρ : ∀ k, ∀ c ∈ s.metThrough os k, (rs k).image c = some (ρ k c)) :
    List.Forall₂ (fun q o' => q.2.Matches (fun t t' => ∃ u, s.Resolves t u ∧
      t' = u.rename fun x => ρ q.1 (s.classOf x)) o') os os' := by
  -- one solution for each renaming gives every class the variable it has got
  choose θ hθ hread using fun k => hs.exists_reads ⟨rs k, m⟩ (.var : Var → Term A)
  have hcopies := List.forall₂_iff_zip.mp (h.reads θ (fun _ => .var) hθ hread)
  refine List.forall₂_iff_zip.mpr ⟨hcopies.1, fun {q o'} hq => ?_⟩
  refine (hcopies.2 hq).imp fun t t' ht htt' => ?_
  obtain ⟨u, hu⟩ := hs.exists_resolves t
  have hself : t'.subst .var = t' := t'.rename_id
  refine ⟨u, hu, ?_⟩
  rw [← hself, htt', ← (hθ q.1).subst_resolved hu]
  refine Term.fold_congr fun x hx => ?_
  have hunbound : s.value x = none := hu.unbound hx
  have hmet : s.classOf x ∈ s.metThrough os q.1 :=
    ⟨hunbound, q.2, (List.of_mem_zip hq).1, t, ht, hu.meets hx⟩
  exact (hread q.1 x _ hunbound (hρ q.1 _ hmet)).symm

/-- In store `s'` the series `os'` are copies of `os`, and `ρ` tells which variable stands for
    which class in the copies made through one renaming. -/
structure FreshCopies (s : Store A) (os : List (κ × Original A)) (ρ : κ → ClassId → Var)
    (os' : List (Original A)) (rs : κ → Renaming) (s' : Store A) : Prop where
  oneToOne : ∀ k, Set.InjOn (ρ k) (s.metThrough os k)
  /-- Variables that stand for classes did not exist before, -/
  new : ∀ k, ∀ c ∈ s.metThrough os k, s.nextVar ≤ (ρ k c).id ∧ (ρ k c).id < s'.nextVar
  /-- they are unbound, -/
  unbound : ∀ k, ∀ c ∈ s.metThrough os k, s'.value (ρ k c) = none
  /-- and each is the only one in its class. -/
  alone : ∀ k, ∀ c ∈ s.metThrough os k, ∀ x, s'.classOf x = s'.classOf (ρ k c) → x = ρ k c
  /-- A copy is the resolved form of its original, with these variables in it. -/
  resolved : List.Forall₂ (fun q o' => q.2.Matches (fun t t' => ∃ u, s.Resolves t u ∧
    t' = u.rename fun x => ρ q.1 (s.classOf x)) o') os os'
  /-- No bound variable remains in a copy. -/
  noBound : ∀ o' ∈ os', ∀ x, o'.Mentions x → s'.value x = none
  /-- A renaming counts the unbound classes that were met. -/
  size : ∀ k, (s.metThrough os k).encard = (rs k).size
  /-- No variable has been moved to another class, or got a value. -/
  classOf : ∀ x, s'.classOf x = s.classOf x
  value : ∀ x, s'.value x = s.value x
  /-- Copies made through different renamings share neither variables nor classes. -/
  apart : ∀ q ∈ os.zip os', ∀ q' ∈ os.zip os', q.1.1 ≠ q'.1.1 →
    ∀ x y, q.2.Mentions x → q'.2.Mentions y → x ≠ y ∧ s'.classOf x ≠ s'.classOf y

/-- The variables of a copy stand for classes met through its renaming. -/
theorem met_of_resolved {ρ : κ → ClassId → Var}
    (h : List.Forall₂ (fun q o' => q.2.Matches (fun t t' => ∃ u, s.Resolves t u ∧
      t' = u.rename fun x => ρ q.1 (s.classOf x)) o') os os') :
    List.Forall₂ (fun q o' => ∀ x, o'.Mentions x → ∃ c ∈ s.metThrough os q.1, x = ρ q.1 c)
      os os' := by
  rw [List.forall₂_iff_zip] at h ⊢
  refine ⟨h.1, fun {q o'} hq => ?_⟩
  rintro x ⟨t', ht', hx⟩
  obtain ⟨t, ht, u, hu, rfl⟩ := (h.2 hq).exists_term ht'
  have hwithin : (u.rename fun x => ρ q.1 (s.classOf x)).Within fun x =>
      ∃ c ∈ s.metThrough os q.1, x = ρ q.1 c := by
    refine Term.Within.rename (fun y hy => ?_) (show u.Within u.Mentions from fun _ hy => hy)
    exact ⟨s.classOf y, ⟨hu.unbound hy, q.2, (List.of_mem_zip hq).1, t, ht, hu.meets hy⟩, rfl⟩
  exact hwithin x hx

/-- A renaming lists the classes met through it, and none twice. -/
theorem Renamed.encard_met (h : Renamed s os os' rs m) (k : κ) :
    (s.metThrough os k).encard = (rs k).size := by
  have hset : s.metThrough os k = ((rs k).classes.toFinset : Set ClassId) := by
    ext c
    rw [Finset.mem_coe, List.mem_toFinset, Renaming.mem_classes, h.image_iff]
  rw [hset, Set.encard_coe_eq_coe_finsetCard, List.toFinset_card_of_nodup (h.nodup k),
    Renaming.length_classes]

/-- What the renamings of a series hold is what its copies are made of. -/
theorem Renamed.freshCopies (h : Renamed s os os' rs m) (hscope : s.Scoped s.nextVar)
    (hs : s.Acyclic) : ∃ ρ, FreshCopies s os ρ os' rs (s.setNext m) := by
  let ρ (k : κ) (c : ClassId) : Var := ((rs k).image c).getD ⟨0⟩
  have hρ : ∀ k, ∀ c ∈ s.metThrough os k, (rs k).image c = some (ρ k c) := by
    intro k c hc
    obtain ⟨y, hy⟩ := (h.image_iff k c).mpr hc
    show _ = some (((rs k).image c).getD ⟨0⟩)
    rw [hy]
    rfl
  have hnew : ∀ k, ∀ c ∈ s.metThrough os k, s.nextVar ≤ (ρ k c).id ∧ (ρ k c).id < m :=
    fun k c hc => (h.since k).image c _ (hρ k c hc)
  have hunbound : ∀ k, ∀ c ∈ s.metThrough os k, (s.setNext m).value (ρ k c) = none := by
    intro k c hc
    rw [s.value_setNext]
    exact hscope.value_unborn (hnew k c hc).1
  have halone : ∀ k, ∀ c ∈ s.metThrough os k, ∀ x, s.classOf x = s.classOf (ρ k c) →
      x = ρ k c := fun k c hc x hx => hscope.eq_of_classOf_eq (hnew k c hc).1 hx
  have hexact := h.resolved hs hρ
  have hmet := met_of_resolved hexact
  refine ⟨ρ, {
    oneToOne := fun k c hc d hd hcd =>
      (h.proper k).injective c d _ (hρ k c hc) (hcd ▸ hρ k d hd)
    new := hnew
    unbound := hunbound
    alone := halone
    resolved := hexact
    noBound := fun o' ho' x hx => ?_
    size := h.encard_met
    classOf := fun _ => rfl
    value := s.value_setNext m
    apart := ?_ }⟩
  · obtain ⟨q, -, hq⟩ := exists_of_forall₂ hmet ho'
    obtain ⟨c, hc, rfl⟩ := hq x hx
    exact hunbound _ c hc
  · rw [List.forall₂_iff_zip] at hmet
    rintro ⟨q, o⟩ hq ⟨q', o'⟩ hq' hne x y hx hy
    obtain ⟨c, hc, rfl⟩ := hmet.2 hq x hx
    obtain ⟨d, hd, rfl⟩ := hmet.2 hq' y hy
    have hxy : ρ q.1 c ≠ ρ q'.1 d := fun heq =>
      hne (h.apart q.1 q'.1 c d _ (hρ q.1 c hc) (heq ▸ hρ q'.1 d hd))
    exact ⟨hxy, fun hclass => hxy (halone q'.1 d hd _ hclass)⟩

/-- **Copies are fresh one-to-one renamings of what they are copied from.**  In an acyclic
    store any series of terms, compounds and clauses can be copied, one after the other,
    through renamings that are empty at first.  Each renaming gives every unbound class that
    is met in what is copied through it a new variable of its own, and counts them; the
    copies are the resolved forms with these variables; the store is as before; and copies
    made through different renamings have nothing in common. -/
theorem copies_are_fresh_renamings [DecidableEq κ] (hscope : s.Scoped s.nextVar) (hs : s.Acyclic)
    (os : List (κ × Original A)) :
    (∃ n r, copySeries n os (fun _ => .empty) s = some r) ∧
    ∀ n os' rs s', copySeries n os (fun _ => .empty) s = some (os', rs, s') →
      ∃ ρ, FreshCopies s os ρ os' rs s' := by
  constructor
  · obtain ⟨n, hn⟩ := exists_copySeries hs os (fun _ => .empty) s.nextVar
    obtain ⟨r, hr⟩ := Option.isSome_iff_exists.mp (hn n le_rfl)
    exact ⟨n, r, hr⟩
  · intro n os' rs s' hcopy
    obtain ⟨hstore, h⟩ := renamed_copySeries (m := s.nextVar) (.nil s) hcopy
    rw [hstore]
    exact h.freshCopies hscope hs

end fresh

/-- The variables `X` and `Y` are in one class, `U` has the value `7(X)` and `V` is unbound.
    The copies of `U` and of the clause `8(Y) :- 6(V, U)` through one renaming share the
    variable for the class of `X` and `Y`, and the copy of `9(X)` through another has one of
    its own. -/
theorem two_renamings_side_by_side :
    let os : List (Bool × Original Nat) :=
      [(true, .term (.var ⟨2⟩)), (false, .compound ⟨9, [.var ⟨0⟩]⟩),
        (true, .clause ⟨⟨8, [.var ⟨1⟩]⟩, [⟨6, [.var ⟨3⟩, .var ⟨2⟩]⟩]⟩)]
    let os' : List (Original Nat) :=
      [.term (.app 7 [.var ⟨4⟩]), .compound ⟨9, [.var ⟨5⟩]⟩,
        .clause ⟨⟨8, [.var ⟨4⟩]⟩, [⟨6, [.var ⟨6⟩, .app 7 [.var ⟨4⟩]]⟩]⟩]
    ∃ (s s' : Store Nat) (rs : Bool → Renaming) (ρ : Bool → ClassId → Var),
      s.Scoped s.nextVar ∧ s.Acyclic ∧ s.nextVar = 4 ∧ s.aliased ⟨0⟩ ⟨1⟩ = true ∧
      copySeries 5 os (fun _ => .empty) s = some (os', rs, s') ∧ FreshCopies s os ρ os' rs s' ∧
      (s.metThrough os true).encard = 2 := by
  intro os os'
  let calls : List (Call Nat) := [.bind 5 ⟨0⟩ ⟨1⟩, .resolve 5 ⟨2⟩ ⟨7, [.var ⟨0⟩]⟩]
  have hrun : ∃ (w : Session Nat) (s' : Store Nat) (rs : Bool → Renaming),
      Session.perform ⟨(Store.empty.freshMany 4).2, .start true⟩ calls = some w ∧
      w.store.nextVar = 4 ∧ w.store.aliased ⟨0⟩ ⟨1⟩ = true ∧
      copySeries 5 os (fun _ => .empty) w.store = some (os', rs, s') ∧ (rs true).size = 2 :=
    ⟨_, _, _, rfl, rfl, rfl, rfl, rfl⟩
  obtain ⟨w, s', rs, hw, hnext, halias, hcopy, hsize⟩ := hrun
  have hcalls : ∀ c ∈ calls, c.Within fun x => x.id < 4 :=
    List.forall_mem_cons.mpr ⟨⟨by decide, by decide⟩,
      List.forall_mem_singleton.mpr ⟨by decide, Compound.within_of_var (by decide)⟩⟩
  have hscope := (Session.sound_of_perform 4 hcalls hw).inScope.store
  have hacyclic := (Session.ready_of_perform 4 hw).acyclic
  obtain ⟨ρ, hfresh⟩ := (copies_are_fresh_renamings hscope hacyclic os).2 5 os' rs s' hcopy
  refine ⟨w.store, s', rs, ρ, hscope, hacyclic, hnext, halias, hcopy, hfresh, ?_⟩
  rw [hfresh.size true, hsize]
  rfl

end Horn
