import Horn.Proofs.Attempts
import Horn.Proofs.LookUpTo

/-! # Attempts and instances

    A search copies the body of a clause after the head has been unified, through the
    renaming that the head was copied through.  The renaming knows the classes of before;
    unification may have moved a variable of the clause to another class or given it a
    value, and then its copy in the body is not the one in the head.

    * `tryInstance`: the attempt that takes an instance of the whole clause first.
    * `Undisturbed`: the head's unification has left the variables of the body to
      themselves.
    * `attemptsAgree_iff`: the two attempts agree in just this case. -/

namespace Horn

universe u

variable {A : Type u}

/-! ## The two attempts -/

namespace Search

variable [DecidableEq A]

/-- What trying an instance of clause `c` for a goal does to the session, and the body
    of the instance if its head could be unified with the goal. -/
def tryInstance (n : Nat) (goal : Compound A) (c : Clause A) (w : Session A) :
    Option (Session A × Option (List (Compound A))) :=
  match c.instantiate n w.store with
  | none => none
  | some (c, s) =>
    match unify n goal.toTerm c.head.toTerm ⟨s, w.trail⟩ with
    | .success v => some (v, some c.body)
    | .failure _ v => some (v, none)
    | .cutOff => none

/-- The head of the clause has been copied, and the goal has been unified with the copy.
    Both attempts begin like this. -/
structure HeadUnified (n : Nat) (goal : Compound A) (c : Clause A) (w : Session A)
    (head : Compound A) (p : Copying) (v : Session A) : Prop where
  copied : copyGoal (w.store.copyTerm n) c.head ⟨.empty, w.store.nextVar⟩ = some (head, p)
  unified : unify n goal.toTerm head.toTerm w = .success v

section success

variable {n m : Nat} {goal head head' : Compound A} {c : Clause A} {w v v' : Session A}
  {p p' : Copying} {body : List (Compound A)}

theorem HeadUnified.mono (h : HeadUnified n goal c w head p v) (hnm : n ≤ m) :
    HeadUnified m goal c w head p v where
  copied := copyGoal_mono (fun _ _ _ => Store.copyTerm_mono hnm) h.copied
  unified := by
    have hsettles := unify_mono hnm goal.toTerm head.toTerm w
    rw [hsettles (by rw [h.unified]; exact nofun), h.unified]

/-- The number of levels does not matter. -/
theorem HeadUnified.unique (h : HeadUnified n goal c w head p v)
    (h' : HeadUnified m goal c w head' p' v') : head = head' ∧ p = p' ∧ v = v' := by
  have hmax := h.mono (Nat.le_max_left n m)
  have hmax' := h'.mono (Nat.le_max_right n m)
  have hcopied := hmax.copied.symm.trans hmax'.copied
  cases hcopied
  have hunified := hmax.unified.symm.trans hmax'.unified
  cases hunified
  exact ⟨rfl, rfl, rfl⟩

/-- The attempt of a search succeeds if the body can be copied afterwards. -/
theorem tryClause_eq_some_iff : tryClause n goal c w = some (v', some body) ↔
    ∃ head p v q, HeadUnified n goal c w head p v ∧
      copyGoals (v.store.copyTerm n) c.body p = some (body, q) ∧ v.setNext q.nextVar = v' := by
  constructor
  · intro h
    obtain ⟨head, p, hhead, ⟨_, _, -, -, he⟩ | ⟨v, body, q, hu, hbody, rfl, he⟩⟩ :=
      tryClause_cases h
    · cases he
    · cases he
      exact ⟨head, p, v, q, ⟨hhead, hu⟩, hbody, rfl⟩
  · rintro ⟨head, p, v, q, h, hbody, rfl⟩
    rw [tryClause, h.copied, Option.bind_some, h.unified]
    simp only [hbody, Option.map_some]

/-- The attempt with an instance succeeds if the body could be copied before. -/
theorem tryInstance_eq_some_iff : tryInstance n goal c w = some (v', some body) ↔
    ∃ head p v q, HeadUnified n goal c w head p v ∧
      copyGoals (w.store.copyTerm n) c.body p = some (body, q) ∧ v.setNext q.nextVar = v' := by
  have hunify : ∀ (k : Nat) (t u : Term A), unify n t u ⟨w.store.setNext k, w.trail⟩ =
      (unify n t u w).setNext k := fun k t u => unify_setNext k n t u w
  rw [tryInstance, Clause.instantiate_eq]
  constructor
  · intro h
    cases hhead : copyGoal (w.store.copyTerm n) c.head ⟨.empty, w.store.nextVar⟩ with
    | none => rw [hhead] at h; cases h
    | some r =>
      cases hbody : copyGoals (w.store.copyTerm n) c.body r.2 with
      | none => simp [hhead, hbody] at h
      | some q =>
        simp only [hhead, hbody, Option.bind_some, Option.map_some, hunify] at h
        cases hu : unify n goal.toTerm r.1.toTerm w with
        | cutOff => rw [hu] at h; cases h
        | failure e v => rw [hu] at h; cases h
        | success v =>
          rw [hu] at h
          cases h
          exact ⟨r.1, r.2, v, q.2, ⟨hhead, hu⟩, hbody, rfl⟩
  · rintro ⟨head, p, v, q, h, hbody, rfl⟩
    simp only [h.copied, hbody, Option.bind_some, Option.map_some, hunify, h.unified]
    rfl

/-- A body can be copied in some store after the head has been unified, at some level,
    just if it comes to an end there. -/
theorem exists_success_iff (s : Session A → Store A) :
    (∃ n v' body head p v q, HeadUnified n goal c w head p v ∧
      copyGoals ((s v).copyTerm n) c.body p = some (body, q) ∧ v.setNext q.nextVar = v') ↔
    ∃ n head p v, HeadUnified n goal c w head p v ∧ ∀ g ∈ c.body, (s v).Ends g.toTerm := by
  constructor
  · rintro ⟨n, v', body, head, p, v, q, hu, hbody, -⟩
    exact ⟨n, head, p, v, hu, (Store.exists_copyGoals_iff p).mp ⟨n, _, hbody⟩⟩
  · rintro ⟨n, head, p, v, hu, hends⟩
    obtain ⟨m, ⟨body, q⟩, hbody⟩ := (Store.exists_copyGoals_iff p).mpr hends
    -- one level for the head and the body
    have hbody' := copyGoals_mono (fun _ _ _ => Store.copyTerm_mono (Nat.le_max_right n m)) hbody
    exact ⟨max n m, _, body, head, p, v, q, hu.mono (Nat.le_max_left n m), hbody', rfl⟩

theorem exists_tryClause_iff : (∃ n v body, tryClause n goal c w = some (v, some body)) ↔
    ∃ n head p v, HeadUnified n goal c w head p v ∧ ∀ g ∈ c.body, v.store.Ends g.toTerm := by
  simp only [tryClause_eq_some_iff]
  exact exists_success_iff fun v => v.store

theorem exists_tryInstance_iff : (∃ n v body, tryInstance n goal c w = some (v, some body)) ↔
    ∃ n head p v, HeadUnified n goal c w head p v ∧ ∀ g ∈ c.body, w.store.Ends g.toTerm := by
  simp only [tryInstance_eq_some_iff]
  exact exists_success_iff fun _ => w.store

end success

/-! ## Agreement -/

/-- The two stores differ in nothing but the names of the variables from number `b` on,
    as far as `goals` and the bodies can tell. -/
def SameEffect (b : Nat) (goals : List (Compound A)) (s s' : Store A)
    (body body' : List (Compound A)) : Prop :=
  ∃ R, s.FreshRenaming b s' R ∧ (∀ g ∈ goals, s.LooksUpTo s' R g.toTerm g.toTerm) ∧
    List.Forall₂ (s.LooksUpTo s' R) (body.map Compound.toTerm) (body'.map Compound.toTerm)

omit [DecidableEq A] in
theorem sameEffect_setNext {b : Nat} {goals : List (Compound A)} {s s' : Store A}
    {body body' : List (Compound A)} (m k : Nat) :
    SameEffect b goals (s.setNext m) (s'.setNext k) body body' ↔
      SameEffect b goals s s' body body' := by
  simp only [SameEffect, Store.freshRenaming_setNext, Store.looksUpTo_setNext]

/-- Trying clause `c` for `goal`, which stands before the goals `rest`, has the effect
    that trying an instance of it has. -/
structure AttemptsAgree (goal : Compound A) (rest : List (Compound A)) (c : Clause A)
    (w : Session A) : Prop where
  succeeds : (∃ n v body, tryClause n goal c w = some (v, some body)) ↔
    ∃ n v body, tryInstance n goal c w = some (v, some body)
  effect : ∀ n v body n' v' body', tryClause n goal c w = some (v, some body) →
    tryInstance n' goal c w = some (v', some body') →
      SameEffect w.store.nextVar (goal :: rest) v.store v'.store body body'

end Search

/-- When the body is copied in store `s`, a variable is made for the class of `x`, or the
    one of the head is taken. -/
def Clause.Opens (c : Clause A) (s : Store A) (x : Var) : Prop :=
  s.value x = none ∧ ∃ g ∈ c.body, s.Meets (s.classOf x) g.toTerm

/-- From `s` to `s'` nothing has happened to the variables of the clause's body that
    copies could tell; `r` is the renaming of the head. -/
structure Clause.Undisturbed (c : Clause A) (s s' : Store A) (r : ClassId → Option Var) :
    Prop where
  /-- A variable that the head shares is still copied to what its copy has become. -/
  shared : ∀ x y, c.Opens s x → r (s.classOf x) = some y →
    ∀ q, s'.lookVia s' r q (.var x) = s'.look q (.var y)
  /-- A variable of the body alone has got no value. -/
  unbound : ∀ x, c.Opens s x → r (s.classOf x) = none → s'.value x = none
  /-- No two of them have been merged. -/
  apart : ∀ x x', c.Opens s x → c.Opens s x' → r (s.classOf x) = none →
    r (s.classOf x') = none → s'.classOf x = s'.classOf x' → s.classOf x = s.classOf x'

/-! ## After the head has been unified -/

/-- What is known once the goal has been unified with a copy of the clause's head. -/
structure AfterHead (goal : Compound A) (c : Clause A) (w : Session A) (head : Compound A)
    (p : Copying) (v : Session A) : Prop where
  copies : Copies w.store [c.head.toTerm] [head.toTerm] ⟨.empty, w.store.nextVar⟩ p
  sound : v.Sound p.nextVar
  keeps : w.KeepsLooks v
  alike : v.store.LooksLike goal.toTerm head.toTerm
  unjoined : w.Unjoined v

theorem Search.HeadUnified.after [DecidableEq A] {n : Nat} {goal head : Compound A} {c : Clause A}
    {w v : Session A} {p : Copying} (h : HeadUnified n goal c w head p v)
    (hw : w.Sound w.store.nextVar) (hgoal : goal.Within fun x => x.id < w.store.nextVar) :
    AfterHead goal c w head p v := by
  obtain ⟨hfresh, hsince⟩ := w.store.copyGoal_fresh n h.copied (Copying.since_empty _)
  have hgoal' : goal.Within fun x => x.id < p.nextVar :=
    hgoal.mono fun _ hx => Nat.lt_of_lt_of_le hx hsince.le
  have hsound := unify_ends (Session.stable_sound p.nextVar) n _ _ w hgoal'
    (Compound.Within.mono (fun _ hx => hx.2) hfresh) (hw.mono hsince.le)
  have hlooks := unify_looks n goal.toTerm head.toTerm w hw.consistent
  have hunjoined := unify_ends (w.stable_unjoined) n goal.toTerm head.toTerm w
    (fun _ _ => trivial) (fun _ _ => trivial) ⟨hw.consistent, Nat.le_refl _, fun _ _ => rfl⟩
  rw [h.unified] at hsound hlooks hunjoined
  exact ⟨copyGoal_copies h.copied, hsound, hlooks.2.1, hlooks.2.2, hunjoined⟩

namespace AfterHead

variable {goal head : Compound A} {c : Clause A} {w v : Session A} {p : Copying}
  {R : ClassId → ClassId → Prop}

theorem le (h : AfterHead goal c w head p v) : w.store.nextVar ≤ p.nextVar := h.copies.grows.le

theorem proper (h : AfterHead goal c w head p v) : p.Proper :=
  h.copies.proper (Copying.proper_empty _)

/-- A variable has been made for the unbound classes of the head only. -/
theorem of_image (h : AfterHead goal c w head p v) {d : ClassId} {y : Var}
    (hd : p.images.image d = some y) :
    w.store.valueOf d = none ∧ w.store.Meets d c.head.toTerm := by
  rcases h.copies.only d y hd with hd | ⟨hnone, t, ht, hm⟩
  · cases hd
  · exact ⟨hnone, List.mem_singleton.mp ht ▸ hm⟩

/-- No variable has been made for the class that a variable of the body alone has moved
    to. -/
theorem image_eq_none (h : AfterHead goal c w head p v) (hw : w.store.Consistent) {x : Var}
    (hx : p.images.image (w.store.classOf x) = none) :
    p.images.image (v.store.classOf x) = none := by
  cases hd : p.images.image (v.store.classOf x) with
  | none => rfl
  | some y =>
    -- such a class was there before, and so `x` has not moved
    obtain ⟨z, hz⟩ := (h.of_image hd).2.exists_member
    have hmade : (v.store.classOf x).Made w.store.nextJoint := hz ▸ hw.made z
    rw [h.unjoined.classOf x hmade, hx] at hd
    cases hd

/-- Whatever relates the goal with itself does so with what the copy of the head leads
    to. -/
theorem related_self (h : AfterHead goal c w head p v)
    (hgoal : v.store.LooksUpTo v.store R goal.toTerm goal.toTerm) {d : ClassId} {y : Var}
    (hd : p.images.image d = some y) {q : List Nat} {e : ClassId}
    (he : v.store.look q (.var y) = some (.free e)) : R e e := by
  obtain ⟨hnone, hm⟩ := h.of_image hd
  obtain ⟨q₀, hq₀⟩ := (Store.meets_iff_look hnone).mp hm
  have hhead : v.store.look (q₀ ++ q) head.toTerm = some (.free e) := by
    cases h.copies.looks with
    | cons hlook _ =>
      rw [hlook v.store p (q₀ ++ q) (.refl p), Store.lookVia_append hq₀, hd]
      exact he
  exact Store.looksUpTo_self_iff.mp hgoal (q₀ ++ q) e ((h.alike _).trans hhead)

/-! ## Both copies of the body -/

section bodies

variable {us us' : List (Term A)} {q q' : Copying}

/-- The instance has a new variable for one of the body alone. -/
theorem exists_image_before (hi : Copies w.store (c.body.map Compound.toTerm) us' p q') {x : Var}
    (hx : c.Opens w.store x) (hnone : p.images.image (w.store.classOf x) = none) :
    ∃ y, q'.images.image (w.store.classOf x) = some y ∧ p.nextVar ≤ y.id := by
  obtain ⟨hvalue, g, hg, hm⟩ := hx
  obtain ⟨y, hy⟩ := hi.met _ hvalue ⟨g.toTerm, List.mem_map_of_mem hg, hm⟩
  refine ⟨y, hy, ?_⟩
  rcases hi.grows.new _ y hy with hold | hnew
  · rw [hnone] at hold
    cases hold
  · exact hnew

/-- So has the search, if the variable has stayed unbound. -/
theorem exists_image_after (h : AfterHead goal c w head p v) (hw : w.store.Consistent)
    (he : Copies v.store (c.body.map Compound.toTerm) us p q) {x : Var}
    (hx : c.Opens w.store x) (hnone : p.images.image (w.store.classOf x) = none)
    (hfree : v.store.value x = none) :
    ∃ y, q.images.image (v.store.classOf x) = some y ∧ p.nextVar ≤ y.id := by
  obtain ⟨-, g, hg, hm⟩ := hx
  obtain ⟨y, hy⟩ := he.met _ hfree ⟨g.toTerm, List.mem_map_of_mem hg, h.keeps.meets hfree hm⟩
  refine ⟨y, hy, ?_⟩
  rcases he.grows.new _ y hy with hold | hnew
  · rw [h.image_eq_none hw hnone] at hold
    cases hold
  · exact hnew

/-! ### Agreement leaves the clause undisturbed -/

variable (h : AfterHead goal c w head p v)
  (he : Copies v.store (c.body.map Compound.toTerm) us p q)
  (hi : Copies w.store (c.body.map Compound.toTerm) us' p q')
  (hR : ∀ d e d' e', R d e → R d' e' → (d = d' ↔ e = e'))
  (hgoal : v.store.LooksUpTo v.store R goal.toTerm goal.toTerm)

include h he hi hR hgoal

omit h he hR hgoal in
/-- The instance has for a variable that the head shares what stands for it in the
    head. -/
theorem related_look {x y : Var}
    (hx : v.store.CopiesAgree R v.store q.images.image w.store q'.images.image (.var x))
    (hfree : w.store.value x = none) (hy : p.images.image (w.store.classOf x) = some y)
    (path : List Nat) : Option.Rel (Sight.Related R)
      (v.store.lookVia v.store q.images.image path (.var x)) (v.store.look path (.var y)) := by
  have hpath := hx path
  rwa [Store.lookVia_free (Store.sight_unbound hfree) path, hi.grows.old _ y hy] at hpath

/-- If the copies of such a variable agree, then the body makes no new variable for what
    it leads to. -/
theorem image_of_copiesAgree {x y : Var}
    (hx : v.store.CopiesAgree R v.store q.images.image w.store q'.images.image (.var x))
    (hfree : w.store.value x = none) (hy : p.images.image (w.store.classOf x) = some y)
    (path : List Nat) (d : ClassId) (hd : v.store.look path (.var x) = some (.free d)) :
    p.images.image d = q.images.image d := by
  cases hq : q.images.image d with
  | none =>
    cases hp : p.images.image d with
    | none => rfl
    | some z =>
      rw [he.grows.old d z hp] at hq
      cases hq
  | some z =>
    rcases he.grows.new d z hq with hp | hnew
    · exact hp
    · exfalso
      have hz := related_look hi hx hfree hy path
      rw [← List.append_nil path, Store.lookVia_append hd, hq, List.append_nil, Option.bind_some,
        h.sound.inScope.store.look_unborn hnew] at hz
      generalize ho : v.store.look path (.var y) = o at hz
      cases hz with
      | some hz =>
        cases hz with
        | @free _ e hz =>
          -- `e` is what the head leads to and stands for itself, so it is not new
          have hself : R e e := h.related_self hgoal hy ho
          have heq : ClassId.own z = e := (hR _ _ _ _ hz hself).mpr rfl
          have hbelow : e.Below p.nextVar := h.sound.inScope.store.below_of_look
            (fun x' hx' => Term.mentions_var.mp hx' ▸ h.proper.below _ y hy) ho
          exact Nat.not_le_of_lt (hbelow z heq.symm) hnew

/-- The search copies the variable to what its copy in the head has become. -/
theorem lookVia_of_copiesAgree {x y : Var}
    (hx : v.store.CopiesAgree R v.store q.images.image w.store q'.images.image (.var x))
    (hfree : w.store.value x = none) (hy : p.images.image (w.store.classOf x) = some y)
    (path : List Nat) :
    v.store.lookVia v.store p.images.image path (.var x) = v.store.look path (.var y) := by
  have hpath := related_look hi hx hfree hy path
  rw [← Store.lookVia_congr (h.image_of_copiesAgree he hi hR hgoal hx hfree hy) path] at hpath
  generalize ho : v.store.lookVia v.store p.images.image path (.var x) = o at hpath ⊢
  generalize v.store.look path (.var y) = o' at hpath ⊢
  cases hpath with
  | none => rfl
  | some hpath =>
    cases hpath with
    | node f k => rfl
    | @free d e hde =>
      obtain ⟨d', y', path', hy', hd⟩ := Store.exists_look_of_lookVia ho
      have hself : R d d := h.related_self hgoal hy' hd
      rw [(hR _ _ _ _ hself hde).mp rfl]

/-- If the bodies look the same, nothing has happened to the clause. -/
theorem undisturbed_of_related (hbody : List.Forall₂ (v.store.LooksUpTo v.store R) us us') :
    c.Undisturbed w.store v.store p.images.image := by
  have hagree : ∀ x, c.Opens w.store x →
      v.store.CopiesAgree R v.store q.images.image w.store q'.images.image (.var x) := by
    rintro x ⟨-, g, hg, hm⟩
    exact h.keeps.copiesAgree_var hm
      ((he.looksUpTo_iff hi).mp hbody _ (List.mem_map_of_mem hg))
  -- the instance has a new variable for one of the body alone
  have hroot : ∀ x, c.Opens w.store x → p.images.image (w.store.classOf x) = none →
      ∃ y, q'.images.image (w.store.classOf x) = some y ∧
        Option.Rel (Sight.Related R) (v.store.lookVia v.store q.images.image [] (.var x))
          (some (.free (.own y))) := by
    intro x hx hnone
    obtain ⟨y, hy, hnew⟩ := exists_image_before hi hx hnone
    refine ⟨y, hy, ?_⟩
    have hpath := hagree x hx []
    rwa [Store.lookVia_free (Store.sight_unbound hx.1), hy, Option.bind_some,
      h.sound.inScope.store.look_unborn hnew] at hpath
  have hunbound : ∀ x, c.Opens w.store x → p.images.image (w.store.classOf x) = none →
      v.store.value x = none := by
    intro x hx hnone
    obtain ⟨y, -, hrel⟩ := hroot x hx hnone
    cases hv : v.store.value x with
    | none => rfl
    | some d =>
      rw [Store.lookVia_nil (Store.sight_bound hv)] at hrel
      cases hrel with
      | some hrel => cases hrel
  refine ⟨fun x y hx hy path => ?_, hunbound, fun x x' hx hx' hnone hnone' hclass => ?_⟩
  · exact h.lookVia_of_copiesAgree he hi hR hgoal (hagree x hx) hx.1 hy path
  · obtain ⟨y, hy, hrel⟩ := hroot x hx hnone
    obtain ⟨y', hy', hrel'⟩ := hroot x' hx' hnone'
    have hsame : v.store.LooksLike (.var x) (.var x') := Store.looksLike_of_classOf_eq hclass
    rw [hsame.lookVia] at hrel
    generalize v.store.lookVia v.store q.images.image [] (.var x') = o at hrel hrel'
    cases hrel with
    | some hrel =>
      cases hrel with
      | free hrel =>
        cases hrel' with
        | some hrel' =>
          cases hrel' with
          | free hrel' =>
            -- one new variable of the search stands for both of the instance
            have hown := (hR _ _ _ _ hrel hrel').mp rfl
            rw [ClassId.own.inj hown] at hy
            exact (hi.proper h.proper).injective _ _ y' hy hy'

end bodies

/-! ### A clause left undisturbed makes for agreement -/

/-- A variable that the head shares is copied to the same term in both orders. -/
theorem copiesAgree_shared (h : AfterHead goal c w head p v) {q q' : Copying} (hq : p.Grows q)
    (hq' : p.Grows q') {Q : Var → Var → Prop} {x y : Var} (hfree : w.store.value x = none)
    (hy : p.images.image (w.store.classOf x) = some y)
    (hlook : ∀ path, v.store.lookVia v.store p.images.image path (.var x) =
      v.store.look path (.var y)) :
    v.store.CopiesAgree (Paired p.nextVar Q) v.store q.images.image w.store q'.images.image
      (.var x) := by
  have hold : ∀ path d, v.store.look path (.var x) = some (.free d) →
      p.images.image d = q.images.image d := by
    intro path d hd
    obtain ⟨z, hz⟩ := Store.exists_image_of_lookVia hlook hd
    rw [hz, hq.old d z hz]
  have hself : v.store.LooksUpTo v.store (Paired p.nextVar Q) (.var y) (.var y) :=
    Store.looksUpTo_self_iff.mpr fun _ _ hd => .same (h.sound.inScope.store.below_of_look
      (fun x' hx' => Term.mentions_var.mp hx' ▸ h.proper.below _ y hy) hd)
  intro path
  rw [← Store.lookVia_congr hold path, hlook path,
    Store.lookVia_free (Store.sight_unbound hfree) path, hq'.old _ y hy]
  exact hself path

theorem sameEffect_of_undisturbed (h : AfterHead goal c w head p v) (hw : w.store.Consistent)
    {body body' : List (Compound A)} {q q' : Copying}
    (he : Copies v.store (c.body.map Compound.toTerm) (body.map Compound.toTerm) p q)
    (hi : Copies w.store (c.body.map Compound.toTerm) (body'.map Compound.toTerm) p q')
    (hun : c.Undisturbed w.store v.store p.images.image) {goals : List (Compound A)}
    (hgoals : ∀ g ∈ goals, g.Within fun x => x.id < w.store.nextVar) :
    Search.SameEffect w.store.nextVar goals v.store v.store body body' := by
  -- the two new variables of one that occurs in the body alone
  let Q (y z : Var) : Prop := ∃ x, c.Opens w.store x ∧
    p.images.image (w.store.classOf x) = none ∧
    q.images.image (v.store.classOf x) = some y ∧ q'.images.image (w.store.classOf x) = some z
  have hnew : ∀ y z, Q y z → p.nextVar ≤ y.id ∧ p.nextVar ≤ z.id := by
    rintro y z ⟨x, hx, hnone, hy, hz⟩
    obtain ⟨y', hy', hyle⟩ := h.exists_image_after hw he hx hnone (hun.unbound x hx hnone)
    obtain ⟨z', hz', hzle⟩ := exists_image_before hi hx hnone
    rw [hy] at hy'
    rw [hz] at hz'
    cases hy'
    cases hz'
    exact ⟨hyle, hzle⟩
  have hone : ∀ y z y' z', Q y z → Q y' z' → (y = y' ↔ z = z') := by
    rintro y z y' z' ⟨x, hx, hnone, hy, hz⟩ ⟨x', hx', hnone', hy', hz'⟩
    constructor
    · rintro rfl
      have hclass := (he.proper h.proper).injective _ _ y hy hy'
      rw [hun.apart x x' hx hx' hnone hnone' hclass, hz'] at hz
      exact (Option.some.inj hz).symm
    · rintro rfl
      have hclass := (hi.proper h.proper).injective _ _ z hz hz'
      rw [h.keeps.classOf_eq hclass (hun.unbound x hx hnone) (hun.unbound x' hx' hnone'), hy'] at hy
      exact (Option.some.inj hy).symm
  refine ⟨Paired p.nextVar Q, h.sound.inScope.store.freshRenaming_paired h.le hnew hone,
    fun g hg => ?_, (he.looksUpTo_iff hi).mpr fun t ht => ?_⟩
  · exact Store.looksUpTo_self_iff.mpr fun _ _ hd => .same (h.sound.inScope.store.below_of_look
      ((hgoals g hg).mono fun _ hx => Nat.lt_of_lt_of_le hx h.le) hd)
  · obtain ⟨g, hg, rfl⟩ := List.mem_map.mp ht
    refine h.keeps.copiesAgree fun x hfree hm => ?_
    have hx : c.Opens w.store x := ⟨hfree, g, hg, hm⟩
    cases hy : p.images.image (w.store.classOf x) with
    | some y => exact h.copiesAgree_shared he.grows hi.grows hfree hy (hun.shared x y hx hy)
    | none =>
      have hfree' : v.store.value x = none := hun.unbound x hx hy
      obtain ⟨y, hy', hyle⟩ := h.exists_image_after hw he hx hy hfree'
      obtain ⟨z, hz', hzle⟩ := exists_image_before hi hx hy
      intro path
      rw [Store.lookVia_free (Store.sight_unbound hfree'), hy',
        Store.lookVia_free (Store.sight_unbound hfree), hz']
      exact h.sound.inScope.store.looksUpTo_unborn hyle hzle (.new ⟨x, hx, hy, hy', hz'⟩) path

end AfterHead

/-! ## When the attempts agree -/

namespace Search

variable [DecidableEq A] {goal : Compound A} {rest : List (Compound A)} {c : Clause A}
  {w : Session A}

section agree

variable (hw : w.Sound w.store.nextVar)
  (hgoals : ∀ g ∈ goal :: rest, g.Within fun x => x.id < w.store.nextVar)

include hw hgoals

theorem AttemptsAgree.undisturbed (h : AttemptsAgree goal rest c w) {n : Nat} {head : Compound A}
    {p : Copying} {v : Session A} (hu : HeadUnified n goal c w head p v)
    (hends : ∀ g ∈ c.body, w.store.Ends g.toTerm) :
    (∀ g ∈ c.body, v.store.Ends g.toTerm) ∧ c.Undisturbed w.store v.store p.images.image := by
  have hafter := hu.after hw (hgoals goal (List.mem_cons_self ..))
  -- the instance can be taken, so both attempts succeed, after one and the same unification
  have hsuccess := exists_tryInstance_iff.mpr ⟨n, head, p, v, hu, hends⟩
  obtain ⟨n₁, v₁, body₁, h₁⟩ := h.succeeds.mpr hsuccess
  obtain ⟨n₂, v₂, body₂, h₂⟩ := hsuccess
  have heffect := h.effect _ _ _ _ _ _ h₁ h₂
  obtain ⟨head₁, p₁, v₁, q₁, hu₁, he, rfl⟩ := tryClause_eq_some_iff.mp h₁
  obtain ⟨head₂, p₂, v₂, q₂, hu₂, hi, rfl⟩ := tryInstance_eq_some_iff.mp h₂
  obtain ⟨-, rfl, rfl⟩ := hu.unique hu₁
  obtain ⟨-, rfl, rfl⟩ := hu.unique hu₂
  obtain ⟨R, hR, hsame, hbody⟩ := (sameEffect_setNext q₁.nextVar q₂.nextVar).mp heffect
  refine ⟨(Store.exists_copyGoals_iff p).mp ⟨n₁, _, he⟩, ?_⟩
  exact hafter.undisturbed_of_related (copyGoals_copies he) (copyGoals_copies hi) hR.oneToOne
    (hsame goal (List.mem_cons_self ..)) hbody

theorem AttemptsAgree.of_undisturbed
    (h : ∀ n head p v, HeadUnified n goal c w head p v → (∀ g ∈ c.body, w.store.Ends g.toTerm) →
      (∀ g ∈ c.body, v.store.Ends g.toTerm) ∧ c.Undisturbed w.store v.store p.images.image) :
    AttemptsAgree goal rest c w where
  succeeds := by
    have hgoal : goal.Within fun x => x.id < w.store.nextVar := hgoals goal (List.mem_cons_self ..)
    rw [exists_tryClause_iff, exists_tryInstance_iff]
    constructor
    · rintro ⟨n, head, p, v, hu, hends⟩
      refine ⟨n, head, p, v, hu, fun g hg => ?_⟩
      -- what comes to an end after the unification did so before
      exact .of_looksLike (fun _ _ => (hu.after hw hgoal).keeps.value) (hends g hg) (.refl _)
    · rintro ⟨n, head, p, v, hu, hends⟩
      exact ⟨n, head, p, v, hu, (h n head p v hu hends).1⟩
  effect n₁ v₁ body₁ n₂ v₂ body₂ h₁ h₂ := by
    obtain ⟨head, p, v, q₁, hu, he, rfl⟩ := tryClause_eq_some_iff.mp h₁
    obtain ⟨head₂, p₂, v₂, q₂, hu₂, hi, rfl⟩ := tryInstance_eq_some_iff.mp h₂
    obtain ⟨-, rfl, rfl⟩ := hu.unique hu₂
    have hends := (Store.exists_copyGoals_iff p).mp ⟨n₂, _, hi⟩
    have hafter := hu.after hw (hgoals goal (List.mem_cons_self ..))
    refine (sameEffect_setNext q₁.nextVar q₂.nextVar).mpr ?_
    exact hafter.sameEffect_of_undisturbed hw.consistent.store (copyGoals_copies he)
      (copyGoals_copies hi) (h n₁ head p v hu hends).2 hgoals

/-- **Attempts agree with instances just on clauses left undisturbed.**  Trying a clause
    has the effect of trying its instance if and only if, whenever the head can be unified
    with the goal and the body can be copied before, the body can be copied afterwards and
    nothing has happened to its variables that the copies could tell. -/
theorem attemptsAgree_iff : AttemptsAgree goal rest c w ↔
    ∀ n head p v, HeadUnified n goal c w head p v → (∀ g ∈ c.body, w.store.Ends g.toTerm) →
      (∀ g ∈ c.body, v.store.Ends g.toTerm) ∧ c.Undisturbed w.store v.store p.images.image := by
  constructor
  · intro h n head p v hu hends
    exact h.undisturbed hw hgoals hu hends
  · intro h
    exact .of_undisturbed hw hgoals h

end agree

/-! ### Clauses that the goal does not reach -/

/-- A clause is left undisturbed if its body meets no variable of a closed set to which
    the goal's belong and all that will be made. -/
theorem HeadUnified.undisturbed_of_apart {L : Var → Prop} {n : Nat} {head : Compound A}
    {p : Copying} {v : Session A} (hu : HeadUnified n goal c w head p v) (hw : w.Consistent)
    (hL : w.store.Closed L) (hlater : ∀ x : Var, w.store.nextVar ≤ x.id → L x)
    (hgoal : goal.Within L)
    (hbody : ∀ x, (∃ g ∈ c.body, w.store.Meets (w.store.classOf x) g.toTerm) → ¬ L x)
    (hends : ∀ g ∈ c.body, w.store.Ends g.toTerm) :
    (∀ g ∈ c.body, v.store.Ends g.toTerm) ∧ c.Undisturbed w.store v.store p.images.image := by
  obtain ⟨hfresh, -⟩ := w.store.copyGoal_fresh n hu.copied (Copying.since_empty _)
  have hconfined := unify_ends (Session.stable_confined L w) n goal.toTerm head.toTerm w hgoal
    (Compound.Within.mono (fun x hx => hlater x hx.1) hfresh) (.refl hw hL)
  rw [hu.unified] at hconfined
  have hclass : ∀ x, c.Opens w.store x → v.store.classOf x = w.store.classOf x :=
    fun x hx => hconfined.classOf x (hbody x hx.2)
  have hvalue : ∀ x, c.Opens w.store x → v.store.value x = none := by
    intro x hx
    rw [hconfined.value x (hbody x hx.2)]
    exact hx.1
  refine ⟨fun g hg => (hends g hg).of_value fun x hm => ?_, fun x y hx hy path => ?_,
    fun x hx _ => hvalue x hx, fun x x' hx hx' _ _ h => ?_⟩
  · exact hconfined.value x (hbody x ⟨g, hg, hm⟩)
  · rw [Store.lookVia_free (Store.sight_unbound (hvalue x hx)), hclass x hx, hy]
    rfl
  · rwa [hclass x hx, hclass x' hx'] at h

/-- Trying a clause has the effect of trying its instance if the goal does not reach the
    variables of the body. -/
theorem attemptsAgree_of_apart {L : Var → Prop} (hw : w.Sound w.store.nextVar)
    (hgoals : ∀ g ∈ goal :: rest, g.Within fun x => x.id < w.store.nextVar)
    (hL : w.store.Closed L) (hlater : ∀ x : Var, w.store.nextVar ≤ x.id → L x)
    (hgoal : goal.Within L)
    (hbody : ∀ x, (∃ g ∈ c.body, w.store.Meets (w.store.classOf x) g.toTerm) → ¬ L x) :
    AttemptsAgree goal rest c w :=
  .of_undisturbed hw hgoals fun _ _ _ _ hu hends =>
    hu.undisturbed_of_apart hw.consistent hL hlater hgoal hbody hends

/-! ### One clause, two goals -/

/-- `3(X) if 0(X).` -/
def threes : Clause Nat := ⟨⟨3, [.var ⟨0⟩]⟩, [⟨0, [.var ⟨0⟩]⟩]⟩

/-- The variables `X` and `Y` have been made, and nothing else has happened. -/
def twoVars : Session Nat := ⟨(Store.empty.freshMany 2).2, .start false⟩

theorem twoVars_sound : twoVars.Sound twoVars.store.nextVar where
  consistent := Session.consistent_start Store.consistent_empty.fresh.fresh false
  inScope := Session.scoped_start ((Store.scoped_empty.mono (Nat.zero_le 2)).setNext 2) false

theorem classOf_twoVars (x : Var) : twoVars.store.classOf x = .own x := Table.get_empty x.id

theorem value_twoVars (x : Var) : twoVars.store.value x = none := by
  rw [Store.value, classOf_twoVars]
  rfl

/-- With the goal `3(Y)` the clause is left undisturbed, and trying it has the effect of
    trying its instance. -/
theorem threes_agree_on_other_variable :
    AttemptsAgree ⟨3, [.var ⟨1⟩]⟩ [⟨0, [.var ⟨0⟩]⟩] threes twoVars := by
  have hgoals : ∀ g ∈ ([⟨3, [.var ⟨1⟩]⟩, ⟨0, [.var ⟨0⟩]⟩] : List (Compound Nat)),
      g.Within fun x => x.id < twoVars.store.nextVar := by
    intro g hg x hx
    have hx2 : x = ⟨0⟩ ∨ x = ⟨1⟩ := by
      rcases List.mem_pair.mp hg with rfl | rfl
      · exact .inr (by simpa [Compound.mentions_iff] using hx)
      · exact .inl (by simpa [Compound.mentions_iff] using hx)
    rcases hx2 with rfl | rfl <;> decide
  refine (attemptsAgree_iff twoVars_sound hgoals).mpr fun n head p v hu hends => ?_
  refine hu.undisturbed_of_apart (L := fun x => x.id ≠ 0) twoVars_sound.consistent
    ⟨fun x y hx hxy => ?_, fun x d _ hd => ?_⟩ (fun x hx h => ?_) (fun x hx => ?_)
    (fun x hx h => ?_) hends
  · rw [classOf_twoVars, classOf_twoVars] at hxy
    cases hxy
    exact hx
  · rw [value_twoVars] at hd
    cases hd
  · rw [h] at hx
    exact absurd hx (by decide)
  · have hx1 : x = ⟨1⟩ := by simpa [Compound.mentions_iff] using hx
    subst hx1
    decide
  · obtain ⟨g, hg, hm⟩ := hx
    rw [List.mem_singleton.mp hg, Store.meets_toTerm] at hm
    obtain ⟨a, ha, hm⟩ := hm
    rw [List.mem_singleton.mp ha, Store.meets_var_iff, value_twoVars, classOf_twoVars,
      classOf_twoVars] at hm
    rcases hm with hm | ⟨d, hd, -⟩
    · cases hm
      exact h rfl
    · cases hd

/-- With the goal `3(X)` the search loses the link between head and body: the instance
    goes on with the variable that `X` has been merged with, the search with another. -/
theorem threes_disagree_on_shared_variable :
    ¬ AttemptsAgree ⟨3, [.var ⟨0⟩]⟩ [] threes twoVars := by
  intro hagree
  let look (w : Session Nat) (t : Term Nat) := w.store.look [0] t
  have hclause : (tryClause 5 ⟨3, [.var ⟨0⟩]⟩ threes twoVars).map (fun r =>
      (r.2, look r.1 (.app 3 [.var ⟨0⟩]), look r.1 (.app 0 [.var ⟨3⟩]))) =
      some (some [⟨0, [.var ⟨3⟩]⟩], some (.free (.joint 0)), some (.free (.own ⟨3⟩))) := rfl
  have hinstance : (tryInstance 5 ⟨3, [.var ⟨0⟩]⟩ threes twoVars).map (fun r =>
      (r.2, look r.1 (.app 3 [.var ⟨0⟩]), look r.1 (.app 0 [.var ⟨2⟩]))) =
      some (some [⟨0, [.var ⟨2⟩]⟩], some (.free (.joint 0)), some (.free (.joint 0))) := rfl
  obtain ⟨⟨v, body⟩, h, he⟩ := Option.map_eq_some_iff.mp hclause
  obtain ⟨⟨v', body'⟩, h', he'⟩ := Option.map_eq_some_iff.mp hinstance
  simp only [Prod.mk.injEq] at he he'
  obtain ⟨rfl, hgoal, hbody⟩ := he
  obtain ⟨rfl, hgoal', hbody'⟩ := he'
  obtain ⟨R, hR, hsame, hbodies⟩ := hagree.effect _ _ _ _ _ _ h h'
  -- `X` stands for itself, so the search's new variable cannot stand for it as well
  have hself : Option.Rel (Sight.Related R) (look v (.app 3 [.var ⟨0⟩]))
      (look v' (.app 3 [.var ⟨0⟩])) := hsame _ (List.mem_singleton_self _) [0]
  rw [hgoal, hgoal'] at hself
  cases hbodies with
  | cons hbodies _ =>
    have hnew : Option.Rel (Sight.Related R) (look v (.app 0 [.var ⟨3⟩]))
        (look v' (.app 0 [.var ⟨2⟩])) := hbodies [0]
    rw [hbody, hbody'] at hnew
    cases hself with
    | some hself =>
      cases hself with
      | free hself =>
        cases hnew with
        | some hnew =>
          cases hnew with
          | free hnew => cases (hR.oneToOne _ _ _ _ hself hnew).mpr rfl

end Search

end Horn
