import Horn.Proofs.Consistent
import Horn.Proofs.Levels
import Horn.Proofs.Terms
import Mathlib.Data.Fintype.EquivFin

/-! # What can be reached through values

    A class is *met* in a term if one of its variables is, in the term itself or
    in the value of a variable met before.  A store is *acyclic* if no class is
    met in its own value.

    * `contains_iff`: the occurs check tells whether a class is met.
    * `Ends`: the values of a term can be followed to the end.  In an acyclic
      store that holds of every term (`Acyclic.ends`), since only finitely many
      classes have values.
    * Of a term that ends every walk comes to an answer: `Ends.contains`,
      `Ends.resolved`. -/

namespace Horn.Store

universe u

variable {A : Type u}

/-! ## Classes met in a term -/

/-- Class `c` is met in the term or in the value of a variable met in it. -/
inductive Meets (s : Store A) (c : ClassId) : Term A → Prop where
  | here {x : Var} : s.classOf x = c → Meets s c (.var x)
  | value {x : Var} {v : Compound A} :
      s.value x = some v → Meets s c v.toTerm → Meets s c (.var x)
  | arg {f : A} {as : List (Term A)} {a : Term A} :
      a ∈ as → Meets s c a → Meets s c (.app f as)

variable {s : Store A}

theorem meets_app {c : ClassId} {f : A} {as : List (Term A)} :
    s.Meets c (.app f as) ↔ ∃ a ∈ as, s.Meets c a := by
  constructor
  · intro h
    cases h with
    | arg ha hm => exact ⟨_, ha, hm⟩
  · rintro ⟨a, ha, hm⟩
    exact .arg ha hm

theorem meets_toTerm {c : ClassId} {v : Compound A} :
    s.Meets c v.toTerm ↔ ∃ a ∈ v.args, s.Meets c a := meets_app

theorem meets_var_iff {c : ClassId} {x : Var} :
    s.Meets c (.var x) ↔
      s.classOf x = c ∨ ∃ v, s.value x = some v ∧ s.Meets c v.toTerm := by
  constructor
  · intro h
    cases h with
    | here hx => exact .inl hx
    | value hv hm => exact .inr ⟨_, hv, hm⟩
  · rintro (hx | ⟨v, hv, hm⟩)
    · exact .here hx
    · exact .value hv hm

/-- The classes of the variables written in a term are met in it. -/
theorem Meets.of_mentions {x : Var} {t : Term A} (h : t.Mentions x) :
    s.Meets (s.classOf x) t := by
  induction h with
  | var => exact .here rfl
  | app ha _ ih => exact .arg ha ih

/-- What is met in the value of a term is met in the term. -/
theorem Meets.of_view {c : ClassId} {t : Term A} {v : Compound A} (hv : s.view t = some v)
    (h : s.Meets c v.toTerm) : s.Meets c t := by
  cases t with
  | var x => exact .value hv h
  | app f as =>
    cases hv
    exact h

/-- What is met in the value of a class is met wherever the class is. -/
theorem Meets.trans {c d : ClassId} {v : Compound A} {t : Term A} (h : s.Meets c t)
    (hv : s.valueOf c = some v) (hd : s.Meets d v.toTerm) : s.Meets d t := by
  induction h with
  | here hx =>
    subst hx
    exact .value hv hd
  | value hu _ ih => exact .value hu ih
  | arg ha _ ih => exact .arg ha ih

/-- Every class met in a term is that of some variable. -/
theorem Meets.exists_member {c : ClassId} {t : Term A} (h : s.Meets c t) :
    ∃ x, s.classOf x = c := by
  induction h with
  | here hx => exact ⟨_, hx⟩
  | value _ _ ih => exact ih
  | arg _ _ ih => exact ih

/-! ## Following values to the end -/

/-- No class is met in its own value. -/
def Acyclic (s : Store A) : Prop := ∀ c v, s.valueOf c = some v → ¬ s.Meets c v.toTerm

theorem acyclic_of_unbound (h : ∀ c, s.valueOf c = none) : s.Acyclic := by
  intro c v hv
  rw [h c] at hv
  cases hv

/-- The values of the variables in a term can be followed to the end. -/
inductive Ends (s : Store A) : Term A → Prop where
  | unbound {x : Var} : s.value x = none → Ends s (.var x)
  | bound {x : Var} {v : Compound A} : s.value x = some v → Ends s v.toTerm → Ends s (.var x)
  | app {f : A} {as : List (Term A)} : (∀ a ∈ as, Ends s a) → Ends s (.app f as)

/-- A term ends if all values of the classes met in it do. -/
theorem ends_of_values {t : Term A}
    (h : ∀ c v, s.Meets c t → s.valueOf c = some v → s.Ends v.toTerm) : s.Ends t := by
  induction t with
  | var x =>
    cases hv : s.value x with
    | none => exact .unbound hv
    | some v => exact .bound hv (h _ v (.here rfl) hv)
  | app f as ih => exact .app fun a ha => ih a ha fun c v hc hv => h c v (.arg ha hc) hv

/-- Only classes that the table of joint classes lists can hold a value. -/
theorem lt_size_of_valueOf {k : Nat} {v : Compound A} (h : s.valueOf (.joint k) = some v) :
    k < s.joints.entries.size := by
  refine Nat.lt_of_not_le fun hle => ?_
  have hbase : s.joints.get k = ⟨none, .empty⟩ := by
    rw [Table.get, Array.getD_eq_getD_getElem?, Array.getElem?_eq_none hle]
    rfl
  rw [valueOf, hbase] at h
  cases h

/-- In an acyclic store every value ends: the classes that hold values are finitely
    many, and being met in the value of another is transitive and irreflexive. -/
theorem Acyclic.ends_value (hs : s.Acyclic) :
    ∀ c v, s.valueOf c = some v → s.Ends v.toTerm := by
  -- being met in the value of another class is an order on the classes that hold one
  let below (i j : Fin s.joints.entries.size) : Prop :=
    ∃ v, s.valueOf (.joint j) = some v ∧ s.Meets (.joint i) v.toTerm
  have : IsTrans _ below := ⟨fun i j k ⟨u, hu, hi⟩ ⟨v, hv, hj⟩ => ⟨v, hv, hj.trans hu hi⟩⟩
  have : Std.Irrefl below := ⟨fun i ⟨v, hv, hi⟩ => hs _ v hv hi⟩
  have hwf : WellFounded below := Finite.wellFounded_of_trans_of_irrefl below
  -- by induction along this order
  have hall : ∀ (j : Fin s.joints.entries.size) v, s.valueOf (.joint j) = some v →
      s.Ends v.toTerm := by
    intro j
    induction j using hwf.induction with
    | _ j ih =>
      intro v hv
      refine ends_of_values fun c u hc hu => ?_
      cases c with
      | own x => cases hu
      | joint i => exact ih ⟨i, lt_size_of_valueOf hu⟩ ⟨v, hv, hc⟩ u hu
  intro c v hv
  cases c with
  | own x => cases hv
  | joint k => exact hall ⟨k, lt_size_of_valueOf hv⟩ v hv

/-- In an acyclic store every term ends. -/
theorem Acyclic.ends (hs : s.Acyclic) (t : Term A) : s.Ends t :=
  ends_of_values fun c v _ hv => hs.ends_value c v hv

/-! ## Walks that come to an answer -/

/-- The occurs check tells whether the class of `x` is met. -/
theorem contains_iff {x : Var} {n : Nat} {t : Term A} {b : Bool}
    (h : s.contains x n t = some b) : b = true ↔ s.Meets (s.classOf x) t := by
  induction n generalizing t b with
  | zero => cases h
  | succ n ih =>
    -- the question asked of the arguments, one after the other
    have hargs : ∀ {as : List (Term A)} {b : Bool}, as.anyM (s.contains x n) = some b →
        (b = true ↔ ∃ a ∈ as, s.Meets (s.classOf x) a) := by
      intro as b hb
      cases b with
      | true =>
        obtain ⟨a, ha, hm⟩ := exists_of_anyM hb
        exact iff_of_true rfl ⟨a, ha, (ih hm).mp rfl⟩
      | false =>
        refine iff_of_false Bool.false_ne_true ?_
        rintro ⟨a, ha, hm⟩
        exact Bool.false_ne_true ((ih (forall_of_anyM hb a ha)).mpr hm)
    cases t with
    | app f as => exact (hargs h).trans meets_app.symm
    | var y =>
      rw [meets_var_iff]
      rw [contains] at h
      split at h
      · next hy =>
        cases h
        exact iff_of_true rfl (.inl (aliased_iff.mp hy))
      · next hy =>
        -- the variable is not in the class, so only its value can lead there
        have hne : s.classOf y ≠ s.classOf x := fun e => hy (aliased_iff.mpr e)
        split at h
        · next hv =>
          cases h
          simp [hne, hv]
        · next c hv =>
          rw [hargs h, ← meets_toTerm]
          simp [hne, hv]

theorem Ends.contains {t : Term A} (h : s.Ends t) (x : Var) :
    ∃ n b, s.contains x n t = some b := by
  have hargs : ∀ {as : List (Term A)}, (∀ a ∈ as, ∃ n b, s.contains x n a = some b) →
      ∃ n b, as.anyM (s.contains x n) = some b := by
    intro as has
    -- one number of levels does for all arguments
    obtain ⟨n, hn⟩ := exists_level (P := fun n a => ∃ b, s.contains x n a = some b)
      (fun n a ⟨b, hb⟩ => ⟨b, s.contains_succ x hb⟩) has
    exact ⟨n, anyM_isSome hn⟩
  induction h with
  | @unbound y hy =>
    refine ⟨1, s.aliased y x, ?_⟩
    rw [Store.contains, hy]
    cases s.aliased y x <;> rfl
  | @bound y v hv _ ih =>
    obtain ⟨n, b, hn⟩ := ih
    cases n with
    | zero => cases hn
    | succ n =>
      refine ⟨n + 1, s.aliased y x || b, ?_⟩
      rw [Store.contains, hv]
      rw [Compound.toTerm, Store.contains] at hn
      cases s.aliased y x with
      | true => rfl
      | false => exact hn
  | app _ ih =>
    obtain ⟨n, b, hn⟩ := hargs ih
    exact ⟨n + 1, b, hn⟩

theorem Ends.resolved {t : Term A} (h : s.Ends t) : ∃ n u, s.resolved n t = some u := by
  induction h with
  | @unbound x hx => exact ⟨1, .var x, by rw [Store.resolved, hx]⟩
  | @bound x v hv _ ih =>
    obtain ⟨n, u, hn⟩ := ih
    cases n with
    | zero => cases hn
    | succ n =>
      rw [Compound.toTerm, Store.resolved] at hn
      exact ⟨n + 1, u, by rw [Store.resolved, hv]; exact hn⟩
  | @app f as _ ih =>
    obtain ⟨n, hn⟩ := exists_level (P := fun n a => ∃ u, s.resolved n a = some u)
      (fun _ _ h => h.imp fun _ => s.resolved_succ) ih
    obtain ⟨us, hus⟩ := mapM_isSome hn
    exact ⟨n + 1, .app f us, by rw [Store.resolved, hus]; rfl⟩

end Horn.Store
