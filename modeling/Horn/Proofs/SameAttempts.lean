import Horn.Proofs.CopyLooks
import Horn.Proofs.Lockstep

/-! # The same attempt in two stores

    A search in a store and one in a store that shows in it make the same attempts,
    whether or not the goals and the clauses have variables in common.  What could come
    between them is the copy of a clause's body: it is keyed by classes as they were
    when the head was copied, and the unification in between may have moved a variable
    of the clause.

    But a variable moves on both sides or on neither, and it moves to a class that had
    not been made when the head was copied, which therefore no key of the copy is:
    `Session.EmbedsSince`.  So the bodies are copied in step as well, and the two
    attempts lead to bodies of which one is the other renamed: `tryClause_inStep`. -/

namespace Horn

universe u

variable {A : Type u}

/-! ## Where the variables have moved -/

/-- The session `w` embeds in `w'`, and since `w₀` and `w₀'` every variable has stayed
    where it was on both sides, or has moved to a class made since on both. -/
structure Session.EmbedsSince (D : Var → Prop) (π : Var → Var) (w₀ w₀' w w' : Session A) :
    Prop where
  embeds : w.Embeds D π w'
  moved : ∀ x, D x →
    (w.store.classOf x = w₀.store.classOf x ∧
        w'.store.classOf (π x) = w₀'.store.classOf (π x)) ∨
      (¬ (w.store.classOf x).Made w₀.store.nextJoint ∧
        ¬ (w'.store.classOf (π x)).Made w₀'.store.nextJoint)
  left_le : w₀.store.nextJoint ≤ w.store.nextJoint
  right_le : w₀'.store.nextJoint ≤ w'.store.nextJoint

namespace Session

variable {D : Var → Prop} {π : Var → Var} {w₀ w₀' w w' : Session A}

theorem Embeds.since (h : w.Embeds D π w') : EmbedsSince D π w w' w w' :=
  ⟨h, fun _ _ => .inl ⟨rfl, rfl⟩, Nat.le_refl _, Nat.le_refl _⟩

theorem EmbedsSince.gather (h : EmbedsSince D π w₀ w₀' w w') (xs : List Var)
    (value : Option (Compound A)) (hxs : ∀ x ∈ xs, D x)
    (hvalue : ∀ c, value = some c → c.Within D) :
    EmbedsSince D π w₀ w₀' (w.gather (xs.map w.store.classOf) value)
      (w'.gather (xs.map fun x => w'.store.classOf (π x)) (value.map (Compound.rename π))) where
  embeds := h.embeds.gather xs hxs hvalue
  moved x hx := by
    rw [classOf_gather h.embeds.left.store, classOf_gather h.embeds.right.store]
    -- a variable is gathered on both sides or on neither
    have hmem : w'.store.classOf (π x) ∈ xs.map (fun y => w'.store.classOf (π y)) ↔
        w.store.classOf x ∈ xs.map w.store.classOf := by
      simp only [List.mem_map]
      exact exists_congr fun y => and_congr_right fun hy =>
        h.embeds.store.classes y x (hxs y hy) hx
    by_cases hin : w.store.classOf x ∈ xs.map w.store.classOf
    · rw [if_pos hin, if_pos (hmem.mpr hin)]
      exact .inr ⟨Nat.not_lt_of_le h.left_le, Nat.not_lt_of_le h.right_le⟩
    · rw [if_neg hin, if_neg (mt hmem.mp hin)]
      exact h.moved x hx
  left_le := by
    rw [nextJoint_gather]
    exact Nat.le_succ_of_le h.left_le
  right_le := by
    rw [nextJoint_gather]
    exact Nat.le_succ_of_le h.right_le

theorem EmbedsSince.linked (D : Var → Prop) (π : Var → Var) (w₀ w₀' : Session A) :
    Linked D π (EmbedsSince D π w₀ w₀') where
  embeds h := h.embeds
  gather xs value h hxs hvalue := h.gather xs value hxs hvalue

/-- Copies that were in step in the sessions of before go on in step: a variable that has
    moved is one that they have not met. -/
theorem EmbedsSince.mirrors (h : EmbedsSince D π w₀ w₀' w w') {a b : Nat} {p p' : Copying}
    (hp : p.Mirrors D π a b w₀.store w₀'.store p')
    (hkeys : ∀ c y, p.images.image c = some y → c.Made w₀.store.nextJoint)
    (hkeys' : ∀ c y, p'.images.image c = some y → c.Made w₀'.store.nextJoint) :
    p.Mirrors D π a b w.store w'.store p' where
  image x hx := by
    rcases h.moved x hx with ⟨hold, hold'⟩ | ⟨hnew, hnew'⟩
    · rw [hold, hold']
      exact hp.image x hx
    · have hnone : p.images.image (w.store.classOf x) = none :=
        Option.eq_none_iff_forall_ne_some.mpr fun y hy => hnew (hkeys _ y hy)
      have hnone' : p'.images.image (w'.store.classOf (π x)) = none :=
        Option.eq_none_iff_forall_ne_some.mpr fun y hy => hnew' (hkeys' _ y hy)
      rw [hnone, hnone']
      rfl
  le := hp.le
  next := hp.next

end Session

/-- A copy meets classes that have been made. -/
theorem Store.Consistent.made_of_copyGoal {s : Store A} (hs : s.Consistent) {n a : Nat}
    {c c' : Compound A} {p : Copying} (h : copyGoal (s.copyTerm n) c ⟨.empty, a⟩ = some (c', p))
    (d : ClassId) (y : Var) (hd : p.images.image d = some y) : d.Made s.nextJoint := by
  rcases (copyGoal_copies h).only d y hd with hempty | ⟨-, t, -, hmeets⟩
  · cases hempty
  · obtain ⟨x, rfl⟩ := hmeets.exists_member
    exact hs.made x

/-! ## All variables at once -/

/-- An embedding of all that has been made, extended to all variables. -/
theorem Store.Embeds.everywhere {a b : Nat} {π : Var → Var} {s s' : Store A}
    (h : s.Embeds (fun x => x.id < a) π s') (hs : s.Scoped a) (hs' : s'.Scoped b)
    (hπ : ∀ x : Var, x.id < a → (π x).id < b) :
    s.Embeds (fun _ => True) (shifting a b π) s' := by
  -- any two variables lie below some number from `a` on
  have hext : ∀ m, a ≤ m → s.Embeds (fun x => x.id < m) (shifting a b π) s' := fun m hm =>
    h.extend hs hs' hπ hm
  refine ⟨fun x y _ _ => ?_, fun x _ => ?_, fun _ _ _ _ _ _ => trivial⟩
  · have hm := hext (a + x.id + y.id + 1) (by omega)
    exact hm.classes x y (by show x.id < _; omega) (by show y.id < _; omega)
  · exact (hext (a + x.id + 1) (by omega)).value x (by show x.id < _; omega)

/-- An embedding of all variables shows the store that mentions only what is made. -/
theorem Store.Embeds.shows {n₀ : Nat} {ρ : Var → Var} {s s' : Store A}
    (h : s.Embeds (fun _ => True) ρ s') (hs : s.Scoped s.nextVar)
    (hinto : ∀ x : Var, x.id < s.nextVar → (ρ x).id < s'.nextVar)
    (hinj : ∀ x y, ρ x = ρ y → x = y) (hold : ∀ x : Var, x.id < n₀ → ρ x = x) :
    s.Shows n₀ ρ s' where
  embeds := h.mono (fun _ _ => trivial) fun x c _ hc => hs.values (s.classOf x) c hc
  into := hinto
  injective x y _ _ := hinj x y
  old := hold

namespace Search

variable [DecidableEq A]

/-! ## Attempts in step -/

/-- Two attempts come to the same: a clash, or bodies that are the same but for the names
    of new variables, in stores of which the first shows in the second. -/
inductive TriedAlike (n₀ : Nat) (π : Var → Var) (s : Store A) :
    Session A × Option (List (Compound A)) → Session A × Option (List (Compound A)) → Prop where
  | clash {v v' : Session A} : TriedAlike n₀ π s (v, none) (v', none)
  | body {π' : Var → Var} {v v' : Session A} {gs : List (Compound A)} :
      v.store.Shows n₀ π' v'.store → (∀ x : Var, x.id < s.nextVar → π' x = π x) →
      TriedAlike n₀ π s (v, some gs) (v', some (gs.map (Compound.rename π')))

variable {n₀ : Nat} {π : Var → Var} {w w' : Session A}

/-- The clause mentions old variables only. -/
def OldClause (n₀ : Nat) (c : Clause A) : Prop :=
  ∀ h ∈ c.head :: c.body, h.Within fun x => x.id < n₀

/-- **The same attempt in two stores comes to the same**, of whatever goal and clause. -/
theorem tryClause_inStep (hshow : w.store.Shows n₀ π w'.store) (hw : w.Sound w.store.nextVar)
    (hw' : w'.Sound w'.store.nextVar) (hcheck : w'.trail.occursCheck = w.trail.occursCheck)
    (hle : n₀ ≤ w.store.nextVar) {goal : Compound A} (hgoal : goal.Within w.store.Born)
    {c : Clause A} (hc : OldClause n₀ c) (n : Nat) :
    Option.Rel (TriedAlike n₀ π w.store) (tryClause n goal c w)
      (tryClause n (goal.rename π) c w') := by
  let a := w.store.nextVar
  let b := w'.store.nextVar
  let ρ := shifting a b π
  have hold : ∀ x : Var, x.id < a → ρ x = π x := fun x hx => shifting_lt hx
  have hfix : ∀ x : Var, x.id < n₀ → ρ x = x := fun x hx =>
    (hold x (Nat.lt_of_lt_of_le hx hle)).trans (hshow.old x hx)
  have hinto : ∀ k, a ≤ k → ∀ x : Var, x.id < k → (ρ x).id < b + (k - a) := fun k hk x hx =>
    shifting_into hshow.into hk hx
  have hinj : ∀ x y, ρ x = ρ y → x = y := fun x y =>
    shifting_injective hshow.into hshow.injective
  -- shifting once more changes nothing
  have htwice : shifting a b ρ = ρ := by
    have hshift := shifting_shifting (b := b) (π := π) (Nat.le_refl a)
    rwa [Nat.sub_self] at hshift
  have hemb : w.store.Embeds (fun _ => True) ρ w'.store :=
    hshow.embeds.everywhere hw.inScope.store hw'.inScope.store hshow.into
  have hhead : c.head.rename ρ = c.head :=
    Compound.rename_eq_self fun x hx => hfix x (hc _ (List.mem_cons_self ..) x hx)
  have hbody : c.body.map (Compound.rename ρ) = c.body :=
    Compound.map_rename_eq_self fun h hh x hx => hfix x (hc h (List.mem_cons_of_mem _ hh) x hx)
  have hgoal_rename : goal.rename π = goal.rename ρ :=
    Compound.rename_congr fun x hx => (hold x (hgoal x hx)).symm
  -- the heads are copied in step
  have hheads := hemb.copyGoal n (fun _ _ => trivial : c.head.Within fun _ => True)
    (.start (a := a) (b := b) (fun _ => True) ρ w.store w'.store)
  rw [htwice, hhead] at hheads
  -- and whatever the attempt leads to is sound
  have hkeeps : ∀ v r, tryClause n goal c w = some (v, r) → v.Sound v.store.nextVar :=
    fun v r h => (tryClause_keeps hw hgoal h).2.1
  rw [tryClause] at hkeeps ⊢
  rw [tryClause]
  refine rel_bind hheads fun r r' hr hr' hrr' => ?_
  obtain ⟨hcopy, hmirrors⟩ := hrr'
  rw [hr, Option.bind_some] at hkeeps
  have hunify := unify_linked (Session.EmbedsSince.linked (fun _ => True) ρ w w') n goal.toTerm
    r.1.toTerm w w' (fun _ _ => trivial) (fun _ _ => trivial)
    (Session.Embeds.since ⟨hemb, hw.consistent, hw'.consistent, hcheck⟩)
  rw [hgoal_rename, hcopy]
  rw [← Compound.toTerm_rename, ← Compound.toTerm_rename] at hunify
  revert hunify hkeeps
  generalize unify n goal.toTerm r.1.toTerm w = o
  generalize unify n (goal.rename ρ).toTerm (r.1.rename ρ).toTerm w' = o'
  intro hkeeps hunify
  cases hunify with
  | failure => exact .some .clash
  | cutOff => exact .none
  | @success v v' hvv' =>
    -- so are the bodies, though variables of the clause may have moved in between
    have hbodies := hvv'.embeds.store.copyGoals n
      (fun _ _ _ _ => trivial : ∀ h ∈ c.body, h.Within fun _ => True)
      (hvv'.mirrors hmirrors (hw.consistent.store.made_of_copyGoal hr)
        (hw'.consistent.store.made_of_copyGoal hr'))
    rw [htwice, hbody] at hbodies
    refine rel_map hbodies fun q q' hq hqq' => ?_
    obtain ⟨hgoals, hnext⟩ := hqq'
    have hsound : (v.setNext q.2.nextVar).Sound q.2.nextVar := by
      refine hkeeps (v.setNext q.2.nextVar) (some q.1) ?_
      simp only
      rw [hq]
      rfl
    rw [hgoals]
    refine .body ((hvv'.embeds.store.setNext _ _).shows hsound.inScope.store (fun x hx => ?_) hinj
      hfix) hold
    show (ρ x).id < q'.2.nextVar
    rw [hnext.next]
    exact hinto _ hnext.le x hx

end Search

end Horn
