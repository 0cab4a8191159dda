import Horn.Clause
import Horn.Proofs.Embedding
import Horn.Proofs.Levels

/-! # Copies in lockstep

    A copy replaces every unbound class by a new variable, numbered in the order in
    which the classes are met.  So two copies, of terms that one embedding relates,
    number their new variables alike, and the copies are related by `shifting`: the
    embedding on the old variables, and a shift from the first new variable of one
    store to the first new variable of the other.

    * `Embeds.copyTerm`, `Embeds.copyGoals`: copies in lockstep.
    * `copyGoals_fresh`: a copy mentions new variables only.
    * `Embeds.extend`: new variables extend an embedding. -/

namespace Horn

universe u v w w'

variable {A : Type u}

/-! ## Copying compounds -/

/-- Copies a compound, argument by argument. -/
def copyGoal (copy : Term A → Copying → Option (Term A × Copying)) (c : Compound A)
    (p : Copying) : Option (Compound A × Copying) :=
  (copyEach copy c.args p).map fun (as, p) => (⟨c.name, as⟩, p)

/-- Copies compounds one after the other. -/
def copyGoals (copy : Term A → Copying → Option (Term A × Copying)) :
    List (Compound A) → Copying → Option (List (Compound A) × Copying)
  | [], p => some ([], p)
  | c :: cs, p =>
    match copyGoal copy c p with
    | none => none
    | some (c, p) =>
      match copyGoals copy cs p with
      | none => none
      | some (cs, p) => some (c :: cs, p)

section binds

variable (copy : Term A → Copying → Option (Term A × Copying)) (p : Copying)

theorem copyEach_cons (t : Term A) (ts : List (Term A)) :
    copyEach copy (t :: ts) p =
      (copy t p).bind fun r => (copyEach copy ts r.2).map fun q => (r.1 :: q.1, q.2) := by
  rw [copyEach]
  cases copy t p with
  | none => rfl
  | some r =>
    simp only [Option.bind_some]
    cases copyEach copy ts r.2 <;> rfl

theorem copyGoals_cons (c : Compound A) (cs : List (Compound A)) :
    copyGoals copy (c :: cs) p =
      (copyGoal copy c p).bind fun r => (copyGoals copy cs r.2).map fun q => (r.1 :: q.1, q.2) := by
  rw [copyGoals]
  cases copyGoal copy c p with
  | none => rfl
  | some r =>
    simp only [Option.bind_some]
    cases copyGoals copy cs r.2 <;> rfl

variable {copy p}

theorem copyGoals_cons_eq_some_iff {c : Compound A} {cs : List (Compound A)}
    {r : List (Compound A) × Copying} :
    copyGoals copy (c :: cs) p = some r ↔ ∃ c' q cs' q', copyGoal copy c p = some (c', q) ∧
      copyGoals copy cs q = some (cs', q') ∧ (c' :: cs', q') = r := by
  simp only [copyGoals_cons, Option.bind_eq_some_iff, Option.map_eq_some_iff, Prod.exists,
    exists_and_left]

theorem copyEach_length {ts : List (Term A)} {r : List (Term A) × Copying}
    (h : copyEach copy ts p = some r) : r.1.length = ts.length := by
  induction ts generalizing p r with
  | nil =>
    cases h
    rfl
  | cons t ts ih =>
    obtain ⟨t', q, ts', q', -, hts, rfl⟩ := copyEach_cons_eq_some_iff.mp h
    exact congrArg (· + 1) (ih hts)

theorem copyGoal_signature {c : Compound A} {r : Compound A × Copying}
    (h : copyGoal copy c p = some r) : r.1.signature = c.signature := by
  obtain ⟨q, hq, rfl⟩ := Option.map_eq_some_iff.mp h
  simp only [Compound.signature, Compound.arity, copyEach_length hq]

theorem copyGoals_signatures {cs : List (Compound A)} {r : List (Compound A) × Copying}
    (h : copyGoals copy cs p = some r) :
    r.1.map Compound.signature = cs.map Compound.signature := by
  induction cs generalizing p r with
  | nil =>
    cases h
    rfl
  | cons c cs ih =>
    obtain ⟨c', q, cs', q', hc, hcs, rfl⟩ := copyGoals_cons_eq_some_iff.mp h
    rw [List.map_cons, List.map_cons, copyGoal_signature hc, ih hcs]

variable {copy' : Term A → Copying → Option (Term A × Copying)}
  (hcopy : ∀ t p r, copy t p = some r → copy' t p = some r)
include hcopy

theorem copyGoal_mono {c : Compound A} {r : Compound A × Copying}
    (h : copyGoal copy c p = some r) : copyGoal copy' c p = some r := by
  obtain ⟨q, hq, rfl⟩ := Option.map_eq_some_iff.mp h
  rw [copyGoal, copyEach_mono hcopy hq]
  rfl

theorem copyGoals_mono {cs : List (Compound A)} {r : List (Compound A) × Copying}
    (h : copyGoals copy cs p = some r) : copyGoals copy' cs p = some r := by
  induction cs generalizing p r with
  | nil => exact h
  | cons c cs ih =>
    obtain ⟨c', q, cs', q', hc, hcs, rfl⟩ := copyGoals_cons_eq_some_iff.mp h
    exact copyGoals_cons_eq_some_iff.mpr
      ⟨c', q, cs', q', copyGoal_mono hcopy hc, ih hcs, rfl⟩

end binds

namespace Store

/-- Compounds are copied like the terms that they are, one level lower. -/
theorem copyTerm_toTerm (s : Store A) (n : Nat) (c : Compound A) (p : Copying) :
    s.copyTerm (n + 1) c.toTerm p =
      (copyGoal (s.copyTerm n) c p).map fun r => (r.1.toTerm, r.2) := by
  rw [copyGoal, Option.map_map]
  rfl

theorem copyEach_toTerm (s : Store A) (n : Nat) (cs : List (Compound A)) (p : Copying) :
    copyEach (s.copyTerm (n + 1)) (cs.map Compound.toTerm) p =
      (copyGoals (s.copyTerm n) cs p).map fun r => (r.1.map Compound.toTerm, r.2) := by
  induction cs generalizing p with
  | nil => rfl
  | cons c cs ih =>
    rw [List.map_cons, copyEach_cons, copyGoals_cons, copyTerm_toTerm]
    cases copyGoal (s.copyTerm n) c p with
    | none => rfl
    | some r =>
      simp only [Option.map_some, Option.bind_some]
      rw [ih, Option.map_map, Option.map_map]
      rfl

section goals

variable {s : Store A} {n : Nat} {p p' : Copying}

theorem copyTerm_of_copyGoal {c c' : Compound A}
    (h : copyGoal (s.copyTerm n) c p = some (c', p')) :
    s.copyTerm (n + 1) c.toTerm p = some (c'.toTerm, p') := by
  rw [copyTerm_toTerm, h]
  rfl

theorem copyEach_of_copyGoals {cs cs' : List (Compound A)}
    (h : copyGoals (s.copyTerm n) cs p = some (cs', p')) :
    copyEach (s.copyTerm (n + 1)) (cs.map Compound.toTerm) p =
      some (cs'.map Compound.toTerm, p') := by
  rw [copyEach_toTerm, h]
  rfl

end goals

variable (s : Store A) (n : Nat)

theorem copyCompound_eq (c : Compound A) (r : Renaming) :
    s.copyCompound n c r = (copyGoal (s.copyTerm n) c ⟨r, s.nextVar⟩).map fun (c, p) =>
      (c, p.images, s.setNext p.nextVar) := rfl

theorem copyCompounds_eq (cs : List (Compound A)) (r : Renaming) :
    s.copyCompounds n cs r = (copyGoals (s.copyTerm n) cs ⟨r, s.nextVar⟩).map fun (cs, p) =>
      (cs, p.images, s.setNext p.nextVar) := by
  induction cs generalizing s r with
  | nil => rfl
  | cons c cs ih =>
    rw [copyCompounds, copyGoals, copyCompound_eq]
    cases copyGoal (s.copyTerm n) c ⟨r, s.nextVar⟩ with
    | none => rfl
    | some cp =>
      obtain ⟨c', p⟩ := cp
      have hp : (⟨p.images, (s.setNext p.nextVar).nextVar⟩ : Copying) = p := rfl
      simp only [Option.map_some]
      rw [ih, copyTerm_setNext, hp]
      cases copyGoals (s.copyTerm n) cs p with
      | none => rfl
      | some csp => rfl

end Store

/-! ## New variables -/

/-- Every image is one of the variables made since number `a`. -/
structure Copying.Since (a : Nat) (p : Copying) : Prop where
  le : a ≤ p.nextVar
  image : ∀ c y, p.images.image c = some y → a ≤ y.id ∧ y.id < p.nextVar

theorem Renaming.image_extend (r : Renaming) (c d : ClassId) (y : Var) :
    (r.extend c y).image d = (r.image d).or (if d = c then some y else none) := by
  rw [extend, image, image, List.lookup_append]
  by_cases h : d = c
  · subst h
    simp
  · have hbeq : (d == c) = false := beq_eq_false_iff_ne.mpr h
    simp only [List.lookup_cons, List.lookup_nil, hbeq, if_neg h]

theorem Copying.since_empty (a : Nat) : Copying.Since a ⟨.empty, a⟩ where
  le := Nat.le_refl a
  image c y h := by cases h

theorem Copying.Since.rename {a : Nat} {p : Copying} (h : p.Since a) (c : ClassId) :
    (a ≤ (p.rename c).1.id ∧ (p.rename c).1.id < (p.rename c).2.nextVar) ∧
      (p.rename c).2.Since a := by
  unfold Copying.rename
  split
  · next y hy => exact ⟨h.image c y hy, h⟩
  · refine ⟨⟨h.le, Nat.lt_succ_self _⟩, Nat.le_succ_of_le h.le, fun d z hz => ?_⟩
    rw [Renaming.image_extend, Option.or_eq_some_iff] at hz
    rcases hz with hz | ⟨-, hz⟩
    · obtain ⟨h₁, h₂⟩ := h.image d z hz
      exact ⟨h₁, Nat.lt_succ_of_lt h₂⟩
    · split at hz
      · cases hz
        exact ⟨h.le, Nat.lt_succ_self _⟩
      · cases hz

section fresh

variable {a : Nat} {copy : Term A → Copying → Option (Term A × Copying)}

theorem copyEach_fresh (hle : ∀ t p r, copy t p = some r → p.nextVar ≤ r.2.nextVar)
    (hcopy : ∀ t p t' p', copy t p = some (t', p') → p.Since a →
      t'.Within (fun y => a ≤ y.id ∧ y.id < p'.nextVar) ∧ p'.Since a)
    {ts ts' : List (Term A)} {p p' : Copying} (h : copyEach copy ts p = some (ts', p'))
    (hp : p.Since a) :
    (∀ t ∈ ts', t.Within fun y => a ≤ y.id ∧ y.id < p'.nextVar) ∧ p'.Since a := by
  induction ts generalizing p ts' with
  | nil =>
    cases h
    exact ⟨fun _ ht => (nomatch ht), hp⟩
  | cons t ts ih =>
    obtain ⟨t₁, p₁, ts₂, p₂, h₁, h₂, he⟩ := copyEach_cons_eq_some_iff.mp h
    cases he
    obtain ⟨hfirst, hp₁⟩ := hcopy t p t₁ p₁ h₁ hp
    obtain ⟨hrest, hp₂⟩ := ih h₂ hp₁
    -- variables that were new for the first copy are so for the later ones
    have hgrow : p₁.nextVar ≤ p'.nextVar := copyEach_nextVar_le hle h₂
    refine ⟨fun u hu => ?_, hp₂⟩
    rcases List.mem_cons.mp hu with rfl | hu
    · exact hfirst.mono fun y hy => ⟨hy.1, Nat.lt_of_lt_of_le hy.2 hgrow⟩
    · exact hrest u hu

end fresh

namespace Store

/-- A copy mentions new variables only. -/
theorem copyTerm_fresh (s : Store A) (n : Nat) {a : Nat} (t : Term A) (p : Copying)
    (t' : Term A) (p' : Copying) (h : s.copyTerm n t p = some (t', p')) (hp : p.Since a) :
    t'.Within (fun y => a ≤ y.id ∧ y.id < p'.nextVar) ∧ p'.Since a := by
  induction n generalizing t p t' p' with
  | zero => cases h
  | succ n ih =>
    have hargs : ∀ {f : A} {as : List (Term A)} {q : List (Term A) × Copying},
        copyEach (s.copyTerm n) as p = some q →
          (Term.app f q.1).Within (fun y => a ≤ y.id ∧ y.id < q.2.nextVar) ∧ q.2.Since a := by
      intro f as q hq
      obtain ⟨hall, hq'⟩ := copyEach_fresh (fun t p r => s.copyTerm_nextVar_le n) ih hq hp
      refine ⟨fun y hy => ?_, hq'⟩
      obtain ⟨u, hu, hyu⟩ := Term.mentions_app.mp hy
      exact hall u hu y hyu
    cases t with
    | app f as =>
      obtain ⟨q, hq, he⟩ := Option.map_eq_some_iff.mp h
      cases he
      exact hargs hq
    | var x =>
      rw [copyTerm] at h
      split at h
      · cases h
        obtain ⟨hy, hsince⟩ := hp.rename (s.classOf x)
        refine ⟨fun z hz => ?_, hsince⟩
        rw [Term.mentions_var.mp hz]
        exact hy
      · obtain ⟨q, hq, he⟩ := Option.map_eq_some_iff.mp h
        cases he
        exact hargs hq

theorem copyGoal_fresh (s : Store A) (n : Nat) {a : Nat} {c c' : Compound A} {p p' : Copying}
    (h : copyGoal (s.copyTerm n) c p = some (c', p')) (hp : p.Since a) :
    c'.Within (fun y => a ≤ y.id ∧ y.id < p'.nextVar) ∧ p'.Since a :=
  s.copyTerm_fresh (n + 1) c.toTerm p c'.toTerm p' (copyTerm_of_copyGoal h) hp

theorem copyGoals_fresh (s : Store A) (n : Nat) {a : Nat} {cs cs' : List (Compound A)}
    {p p' : Copying} (h : copyGoals (s.copyTerm n) cs p = some (cs', p')) (hp : p.Since a) :
    (∀ c ∈ cs', c.Within fun y => a ≤ y.id ∧ y.id < p'.nextVar) ∧ p'.Since a ∧
      p.nextVar ≤ p'.nextVar := by
  have hle : ∀ t p r, s.copyTerm (n + 1) t p = some r → p.nextVar ≤ r.2.nextVar :=
    fun _ _ _ => s.copyTerm_nextVar_le (n + 1)
  have heach := copyEach_of_copyGoals h
  obtain ⟨hall, hp'⟩ := copyEach_fresh hle (s.copyTerm_fresh (n + 1)) heach hp
  exact ⟨fun c hc => hall c.toTerm (List.mem_map_of_mem hc), hp', copyEach_nextVar_le hle heach⟩

end Store

/-! ## Shifting new variables -/

/-- The renaming `π` below `a`; from `a` on, a shift that starts at `b`. -/
def shifting (a b : Nat) (π : Var → Var) (x : Var) : Var :=
  if x.id < a then π x else ⟨b + (x.id - a)⟩

section shifting

variable {a b : Nat} {π : Var → Var}

theorem shifting_lt {x : Var} (hx : x.id < a) : shifting a b π x = π x := if_pos hx

theorem shifting_ge {x : Var} (hx : a ≤ x.id) : shifting a b π x = ⟨b + (x.id - a)⟩ :=
  if_neg (Nat.not_lt_of_le hx)

theorem shifting_into (hπ : ∀ x : Var, x.id < a → (π x).id < b) {m : Nat} (hm : a ≤ m) {x : Var}
    (hx : x.id < m) : (shifting a b π x).id < b + (m - a) := by
  by_cases hlt : x.id < a
  · rw [shifting_lt hlt]
    have hb := hπ x hlt
    omega
  · rw [shifting_ge (Nat.le_of_not_lt hlt)]
    show b + (x.id - a) < _
    omega

/-- No other variable goes where one from `a` on is shifted to. -/
theorem eq_of_shifting_eq (hπ : ∀ x : Var, x.id < a → (π x).id < b) {x y : Var} (hy : a ≤ y.id)
    (h : shifting a b π x = shifting a b π y) : x = y := by
  rw [shifting_ge hy] at h
  by_cases hx : x.id < a
  · -- what is shifted lies from `b` on, and what is renamed below
    rw [shifting_lt hx] at h
    have hb := hπ x hx
    rw [h] at hb
    exact absurd hb (Nat.not_lt_of_le (Nat.le_add_right b _))
  · rw [shifting_ge (Nat.le_of_not_lt hx), Var.mk.injEq] at h
    ext
    omega

theorem shifting_injective (hπ : ∀ x : Var, x.id < a → (π x).id < b)
    (hinj : ∀ x y : Var, x.id < a → y.id < a → π x = π y → x = y) {x y : Var}
    (h : shifting a b π x = shifting a b π y) : x = y := by
  by_cases hy : y.id < a
  · by_cases hx : x.id < a
    · rw [shifting_lt hx, shifting_lt hy] at h
      exact hinj x y hx hy h
    · exact (eq_of_shifting_eq hπ (Nat.le_of_not_lt hx) h.symm).symm
  · exact eq_of_shifting_eq hπ (Nat.le_of_not_lt hy) h

/-- A shift that goes on with a shift is one shift. -/
theorem shifting_shifting {m : Nat} (hm : a ≤ m) :
    shifting m (b + (m - a)) (shifting a b π) = shifting a b π := by
  funext x
  by_cases hx : x.id < m
  · exact shifting_lt hx
  · have hle : m ≤ x.id := Nat.le_of_not_lt hx
    rw [shifting_ge hle, shifting_ge (Nat.le_trans hm hle), Var.mk.injEq]
    omega

end shifting

/-- New variables extend an embedding of all that were made before. -/
theorem Store.Embeds.extend {a b : Nat} {π : Var → Var} {s s' : Store A}
    (h : s.Embeds (fun x => x.id < a) π s') (hs : s.Scoped a) (hs' : s'.Scoped b)
    (hπ : ∀ x : Var, x.id < a → (π x).id < b) {m : Nat} (hm : a ≤ m) :
    s.Embeds (fun x => x.id < m) (shifting a b π) s' := by
  let ρ := shifting a b π
  have hnew : ∀ y : Var, a ≤ y.id → b ≤ (ρ y).id := by
    intro y hy
    show b ≤ (shifting a b π y).id
    rw [shifting_ge hy]
    exact Nat.le_add_right b _
  -- a new variable shares its class with no other, on either side
  have hself : ∀ x y : Var, a ≤ y.id →
      (s'.classOf (ρ x) = s'.classOf (ρ y) ↔ s.classOf x = s.classOf y) := by
    intro x y hy
    have himage : s'.classOf (ρ x) = s'.classOf (ρ y) ↔ x = y :=
      ⟨fun he => eq_of_shifting_eq hπ hy (hs'.eq_of_classOf_eq (hnew y hy) he), fun he => he ▸ rfl⟩
    have hplain : s.classOf x = s.classOf y ↔ x = y :=
      ⟨hs.eq_of_classOf_eq hy, fun he => he ▸ rfl⟩
    rw [himage, hplain]
  exact {
    classes := fun x y _ _ => by
      by_cases hy : y.id < a
      · by_cases hx : x.id < a
        · rw [shifting_lt hx, shifting_lt hy]
          exact h.classes x y hx hy
        · rw [eq_comm, hself y x (Nat.le_of_not_lt hx), eq_comm]
      · exact hself x y (Nat.le_of_not_lt hy)
    value := fun x _ => by
      by_cases hx : x.id < a
      · rw [shifting_lt hx, h.value x hx]
        cases hc : s.value x with
        | none => rfl
        | some c =>
          have hren : c.rename π = c.rename (shifting a b π) :=
            Compound.rename_congr fun y hy => (shifting_lt (h.values x c hx hc y hy)).symm
          rw [Option.map_some, Option.map_some, hren]
      · rw [hs.value_unborn (Nat.le_of_not_lt hx),
          hs'.value_unborn (hnew x (Nat.le_of_not_lt hx))]
        rfl
    values := fun x c _ hc => by
      have hx : x.id < a := by
        refine Nat.lt_of_not_le fun hle => ?_
        rw [hs.value_unborn hle] at hc
        cases hc
      exact (h.values x c hx hc).mono fun y hy => Nat.lt_of_lt_of_le hy hm }

/-! ## Lockstep -/

section rel

variable {α : Type u} {β : Type v} {γ : Type w} {δ : Type w'} {R : α → β → Prop}
  {S : γ → δ → Prop} {o : Option α} {o' : Option β}

theorem rel_bind {f : α → Option γ} {g : β → Option δ} (h : Option.Rel R o o')
    (hfg : ∀ x y, o = some x → o' = some y → R x y → Option.Rel S (f x) (g y)) :
    Option.Rel S (o.bind f) (o'.bind g) := by
  cases h with
  | some hr => exact hfg _ _ rfl rfl hr
  | none => exact .none

theorem rel_map {f : α → γ} {g : β → δ} (h : Option.Rel R o o')
    (hfg : ∀ x y, o = some x → R x y → S (f x) (g y)) : Option.Rel S (o.map f) (o'.map g) := by
  cases h with
  | some hr => exact .some (hfg _ _ rfl hr)
  | none => exact .none

theorem exists_right_of_rel (h : Option.Rel R o o') {x : α} (hx : o = some x) :
    ∃ y, o' = some y ∧ R x y := by
  cases h with
  | some hr => exact ⟨_, rfl, Option.some.inj hx ▸ hr⟩
  | none => cases hx

theorem exists_left_of_rel (h : Option.Rel R o o') {y : β} (hy : o' = some y) :
    ∃ x, o = some x ∧ R x y := by
  cases h with
  | some hr => exact ⟨_, rfl, Option.some.inj hy ▸ hr⟩
  | none => cases hy

theorem rel_map_left {f : α → γ} {T : γ → β → Prop} (h : Option.Rel R o o')
    (hf : ∀ x y, R x y → T (f x) y) : Option.Rel T (o.map f) o' := by
  cases h with
  | some hr => exact .some (hf _ _ hr)
  | none => exact .none

theorem rel_map_right {g : β → δ} {T : α → δ → Prop} (h : Option.Rel R o o')
    (hg : ∀ x y, R x y → T x (g y)) : Option.Rel T o (o'.map g) := by
  cases h with
  | some hr => exact .some (hg _ _ hr)
  | none => exact .none

end rel

/-- Two copies have got equally far: they have met corresponding classes, and given
    them corresponding variables. -/
structure Copying.Mirrors (D : Var → Prop) (π : Var → Var) (a b : Nat) (s s' : Store A)
    (p p' : Copying) : Prop where
  image : ∀ x, D x → p'.images.image (s'.classOf (π x)) =
    (p.images.image (s.classOf x)).map (shifting a b π)
  le : a ≤ p.nextVar
  next : p'.nextVar = b + (p.nextVar - a)

section lockstep

variable {D : Var → Prop} {π : Var → Var} {a b : Nat} {s s' : Store A} {p p' : Copying}

theorem Copying.Mirrors.start (D : Var → Prop) (π : Var → Var) (s s' : Store A) :
    Copying.Mirrors D π a b s s' ⟨.empty, a⟩ ⟨.empty, b⟩ where
  image _ _ := rfl
  le := Nat.le_refl a
  next := by
    show b = b + (a - a)
    omega

/-- What has been copied corresponds as long as the copied variables are in the same
    classes. -/
theorem Copying.Mirrors.of_classOf (h : p.Mirrors D π a b s s' p') {s'' : Store A}
    (hclass : ∀ x, D x → s''.classOf (π x) = s'.classOf (π x)) :
    p.Mirrors D π a b s s'' p' where
  image x hx := by
    rw [hclass x hx]
    exact h.image x hx
  le := h.le
  next := h.next

theorem Copying.Mirrors.rename (h : s.Embeds D π s') (hp : p.Mirrors D π a b s s' p') {x : Var}
    (hx : D x) :
    (p'.rename (s'.classOf (π x))).1 = shifting a b π (p.rename (s.classOf x)).1 ∧
      (p.rename (s.classOf x)).2.Mirrors D π a b s s' (p'.rename (s'.classOf (π x))).2 := by
  have himage := hp.image x hx
  -- the next variables correspond
  have hshift : shifting a b π ⟨p.nextVar⟩ = ⟨p'.nextVar⟩ := by
    rw [shifting_ge hp.le, hp.next]
  unfold Copying.rename
  cases hc : p.images.image (s.classOf x) with
  | some y =>
    rw [hc] at himage
    rw [himage]
    exact ⟨rfl, hp⟩
  | none =>
    rw [hc, Option.map_none] at himage
    simp only [himage]
    refine ⟨hshift.symm, fun z hz => ?_, Nat.le_succ_of_le hp.le, ?_⟩
    · rw [Renaming.image_extend, Renaming.image_extend, hp.image z hz,
        if_congr (h.classes z x hz hx) rfl rfl]
      -- the new image is that of the class of `x`, and of no other
      by_cases hzx : s.classOf z = s.classOf x
      · rw [if_pos hzx, if_pos hzx, hzx, hc, ← hshift]
        rfl
      · rw [if_neg hzx, if_neg hzx, Option.or_none, Option.or_none]
    · show p'.nextVar + 1 = b + (p.nextVar + 1 - a)
      have hle := hp.le
      rw [hp.next]
      omega

/-- Two copies are both cut off, or `ren` takes the one to the other. -/
abbrev Copying.InStep (D : Var → Prop) (π : Var → Var) (a b : Nat) (s s' : Store A)
    {α : Type u} (ren : α → α) : Option (α × Copying) → Option (α × Copying) → Prop :=
  Option.Rel fun r r' => r'.1 = ren r.1 ∧ r.2.Mirrors D π a b s s' r'.2

theorem copyEach_inStep {copy copy' : Term A → Copying → Option (Term A × Copying)}
    {ts : List (Term A)}
    (hcopy : ∀ t ∈ ts, ∀ p p', p.Mirrors D π a b s s' p' →
      Copying.InStep D π a b s s' (Term.rename (shifting a b π)) (copy t p) (copy' (t.rename π) p'))
    (hp : p.Mirrors D π a b s s' p') :
    Copying.InStep D π a b s s' (List.map (Term.rename (shifting a b π))) (copyEach copy ts p)
      (copyEach copy' (ts.map (Term.rename π)) p') := by
  induction ts generalizing p p' with
  | nil => exact .some ⟨rfl, hp⟩
  | cons t ts ih =>
    rw [List.map_cons, copyEach_cons, copyEach_cons]
    refine rel_bind (hcopy t (List.mem_cons_self ..) p p' hp) fun r r' _ _ hr => ?_
    have hrest := ih (fun u hu => hcopy u (List.mem_cons_of_mem _ hu)) hr.2
    refine rel_map hrest fun q q' _ hq => ⟨?_, hq.2⟩
    show r'.1 :: q'.1 = _
    rw [hr.1, hq.1]
    rfl

/-- Copies of terms whose variables are embedded. -/
theorem Store.Embeds.copyTerm (h : s.Embeds D π s') (n : Nat) {t : Term A} (ht : t.Within D)
    (hp : p.Mirrors D π a b s s' p') :
    Copying.InStep D π a b s s' (Term.rename (shifting a b π)) (s.copyTerm n t p)
      (s'.copyTerm n (t.rename π) p') := by
  induction n generalizing t p p' with
  | zero => exact .none
  | succ n ih =>
    -- the arguments are copied in step, and the name stays
    have hargs : ∀ f : A, ∀ as : List (Term A), (∀ a ∈ as, a.Within D) →
        Copying.InStep D π a b s s' (Term.rename (shifting a b π))
          ((copyEach (s.copyTerm n) as p).map fun (as, p) => (Term.app f as, p))
          ((copyEach (s'.copyTerm n) (as.map (Term.rename π)) p').map fun (as, p) =>
            (Term.app f as, p)) := by
      intro f as has
      have heach := copyEach_inStep (fun u hu p p' hp => ih (has u hu) hp) hp
      refine rel_map heach fun r r' _ hr => ⟨?_, hr.2⟩
      show Term.app f r'.1 = _
      rw [hr.1, Term.rename_app]
    cases t with
    | app f as =>
      rw [Term.rename_app]
      exact hargs f as fun u hu => ht.arg hu
    | var x =>
      have hx : D x := Term.within_var ht
      rw [Term.rename_var, Store.copyTerm, Store.copyTerm, h.value x hx]
      cases hc : s.value x with
      | none =>
        obtain ⟨hy, hp'⟩ := hp.rename h hx
        exact .some ⟨congrArg Term.var hy, hp'⟩
      | some c => exact hargs c.name c.args fun u hu => (h.values x c hx hc).arg hu

theorem Store.Embeds.copyGoal (h : s.Embeds D π s') (n : Nat) {c : Compound A} (hc : c.Within D)
    (hp : p.Mirrors D π a b s s' p') :
    Copying.InStep D π a b s s' (Compound.rename (shifting a b π))
      (Horn.copyGoal (s.copyTerm n) c p) (Horn.copyGoal (s'.copyTerm n) (c.rename π) p') := by
  have heach := copyEach_inStep (fun u hu p p' hp => h.copyTerm n (hc.arg hu) hp) hp
  refine rel_map heach fun r r' _ hr => ⟨?_, hr.2⟩
  show Compound.mk c.name r'.1 = _
  rw [hr.1]
  rfl

theorem Store.Embeds.copyGoals (h : s.Embeds D π s') (n : Nat) {cs : List (Compound A)}
    (hcs : ∀ c ∈ cs, c.Within D) (hp : p.Mirrors D π a b s s' p') :
    Copying.InStep D π a b s s' (List.map (Compound.rename (shifting a b π)))
      (Horn.copyGoals (s.copyTerm n) cs p)
      (Horn.copyGoals (s'.copyTerm n) (cs.map (Compound.rename π)) p') := by
  induction cs generalizing p p' with
  | nil => exact .some ⟨rfl, hp⟩
  | cons c cs ih =>
    rw [List.map_cons, copyGoals_cons, copyGoals_cons]
    refine rel_bind (h.copyGoal n (hcs c (List.mem_cons_self ..)) hp) fun r r' _ _ hr => ?_
    refine rel_map (ih (fun d hd => hcs d (List.mem_cons_of_mem _ hd)) hr.2) fun q q' _ hq =>
      ⟨?_, hq.2⟩
    show r'.1 :: q'.1 = _
    rw [hr.1, hq.1]
    rfl

end lockstep

end Horn
