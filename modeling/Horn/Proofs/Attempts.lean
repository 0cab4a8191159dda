import Horn.Proofs.Copies
import Horn.Proofs.Levels
import Horn.Proofs.Queries
import Horn.Search.Recursive

/-! # One attempt, in two orders

    A search copies the head of a clause, unifies it with the goal and copies the body
    afterwards, in the store that unification has left.  The recursion takes head and body
    of the instance in the store of before.  As unification does not look at the number of
    the next variable, both come down to the same steps but for one: the store in which the
    body is copied.

    * `headFirst_eq`, `headFirst_cases`: the attempt of the recursion.
    * `instanceFirst_eq`: the same with the whole instance taken before the unification.
    * `tryClause`, `attempted`, `attempt_eq`: the attempt of a search, without its client,
      and what the search makes of it.
    * `tryClause_cases`, `step_all_of_cons`: all that an attempt and a step can come to.
    * `tryClause_keeps`: what such an attempt leaves as it was. -/

namespace Horn

universe u v

variable {A : Type u} {σ : Type v}

/-- An instance of a clause: head and body are copied one after the other in one store. -/
theorem Clause.instantiate_eq (c : Clause A) (n : Nat) (s : Store A) :
    c.instantiate n s =
      (copyGoal (s.copyTerm n) c.head ⟨.empty, s.nextVar⟩).bind fun r =>
        (copyGoals (s.copyTerm n) c.body r.2).map fun q => (⟨r.1, q.1⟩, s.setNext q.2.nextVar) := by
  rw [Clause.instantiate, Clause.copy, Store.copyCompound_eq]
  cases copyGoal (s.copyTerm n) c.head ⟨.empty, s.nextVar⟩ with
  | none => rfl
  | some r =>
    obtain ⟨head, p⟩ := r
    have hp : (⟨p.images, (s.setNext p.nextVar).nextVar⟩ : Copying) = p := rfl
    simp only [Option.map_some, Option.bind_some]
    rw [Store.copyCompounds_eq, Store.copyTerm_setNext, hp]
    cases copyGoals (s.copyTerm n) c.body p <;> rfl

namespace Search

variable [DecidableEq A]

/-! ## The attempt of the recursion -/

/-- The variables that head and body need may be counted as made after the unification. -/
theorem headFirst_eq (check : Bool) (n : Nat) (goal : Compound A) (c : Clause A) (s : Store A) :
    headFirst check n goal c s =
      (copyGoal (s.copyTerm n) c.head ⟨.empty, s.nextVar⟩).bind fun r =>
        match unify n goal.toTerm r.1.toTerm ⟨s, .start check⟩ with
        | .success w => (copyGoals (s.copyTerm n) c.body r.2).map fun q =>
            some (q.1, w.store.setNext q.2.nextVar)
        | .failure _ _ => some none
        | .cutOff => none := by
  rw [headFirst, Store.copyCompound_eq]
  cases copyGoal (s.copyTerm n) c.head ⟨.empty, s.nextVar⟩ with
  | none => rfl
  | some r =>
    obtain ⟨head, p⟩ := r
    -- unification does not look at the number of the next variable
    have hunify : unify n goal.toTerm head.toTerm ⟨s.setNext p.nextVar, .start check⟩ =
        (unify n goal.toTerm head.toTerm ⟨s, .start check⟩).setNext p.nextVar :=
      unify_setNext p.nextVar n _ _ ⟨s, .start check⟩
    simp only [Option.map_some, Option.bind_some, hunify]
    cases unify n goal.toTerm head.toTerm ⟨s, .start check⟩ with
    | cutOff => rfl
    | failure e w => rfl
    | success w =>
      have hp : (⟨p.images, (s.setNext p.nextVar).nextVar⟩ : Copying) = p := rfl
      simp only [Outcome.setNext]
      rw [Store.copyCompounds_eq, Store.copyTerm_setNext, hp]
      cases copyGoals (s.copyTerm n) c.body p <;> rfl

/-- Where the clause has an instance, it makes no difference when its body is taken. -/
theorem instanceFirst_eq (check : Bool) (n : Nat) (goal : Compound A) (c : Clause A)
    (s : Store A) :
    instanceFirst check n goal c s =
      (c.instantiate n s).bind fun _ => headFirst check n goal c s := by
  have hunify : ∀ (m : Nat) (t u : Term A), unify n t u ⟨s.setNext m, .start check⟩ =
      (unify n t u ⟨s, .start check⟩).setNext m := fun m t u =>
    unify_setNext m n t u ⟨s, .start check⟩
  rw [instanceFirst, headFirst_eq, Clause.instantiate_eq]
  cases copyGoal (s.copyTerm n) c.head ⟨.empty, s.nextVar⟩ with
  | none => rfl
  | some r =>
    simp only [Option.bind_some]
    cases copyGoals (s.copyTerm n) c.body r.2 with
    | none => rfl
    | some q =>
      simp only [Option.map_some, Option.bind_some, hunify]
      cases unify n goal.toTerm r.1.toTerm ⟨s, .start check⟩ <;> rfl

/-- Whatever comes of the instance taken first, the same comes of its body left for later. -/
theorem headFirst_of_instanceFirst {check : Bool} {n : Nat} {goal : Compound A} {c : Clause A}
    {s : Store A} {o : Option (List (Compound A) × Store A)}
    (h : instanceFirst check n goal c s = some o) : headFirst check n goal c s = some o := by
  rw [instanceFirst_eq] at h
  obtain ⟨_, -, hhead⟩ := Option.bind_eq_some_iff.mp h
  exact hhead

section headFirst

variable {check : Bool} {n : Nat} {goal : Compound A} {c : Clause A} {s s' : Store A}
  {gs : List (Compound A)}

/-- All that an attempt of the recursion can have come to. -/
theorem headFirst_cases {o : Option (List (Compound A) × Store A)}
    (h : headFirst check n goal c s = some o) :
    ∃ head p, copyGoal (s.copyTerm n) c.head ⟨.empty, s.nextVar⟩ = some (head, p) ∧
      ((∃ e w, unify n goal.toTerm head.toTerm ⟨s, .start check⟩ = .failure e w ∧ o = none) ∨
        ∃ w gs q, unify n goal.toTerm head.toTerm ⟨s, .start check⟩ = .success w ∧
          copyGoals (s.copyTerm n) c.body p = some (gs, q) ∧
          o = some (gs, w.store.setNext q.nextVar)) := by
  rw [headFirst_eq] at h
  obtain ⟨⟨head, p⟩, hhead, h⟩ := Option.bind_eq_some_iff.mp h
  refine ⟨head, p, hhead, ?_⟩
  cases hu : unify n goal.toTerm head.toTerm ⟨s, .start check⟩ with
  | cutOff =>
    rw [hu] at h
    cases h
  | failure e w =>
    rw [hu] at h
    exact .inl ⟨e, w, rfl, (Option.some.inj h).symm⟩
  | success w =>
    rw [hu] at h
    obtain ⟨⟨gs, q⟩, hbody, rfl⟩ := Option.map_eq_some_iff.mp h
    exact .inr ⟨w, gs, q, rfl, hbody, rfl⟩

/-- What it means that the goal is resolved. -/
theorem headFirst_eq_body (h : headFirst check n goal c s = some (some (gs, s'))) :
    ∃ r q w, copyGoal (s.copyTerm n) c.head ⟨.empty, s.nextVar⟩ = some r ∧
      unify n goal.toTerm r.1.toTerm ⟨s, .start check⟩ = .success w ∧
      copyGoals (s.copyTerm n) c.body r.2 = some q ∧
      gs = q.1 ∧ s' = w.store.setNext q.2.nextVar := by
  obtain ⟨head, p, hhead, ⟨_, _, -, he⟩ | ⟨w, gs, q, hu, hbody, he⟩⟩ := headFirst_cases h
  · cases he
  · cases he
    exact ⟨_, _, w, hhead, hu, hbody, rfl, rfl⟩

theorem headFirst_nextVar_le (h : headFirst check n goal c s = some (some (gs, s'))) :
    s.nextVar ≤ s'.nextVar := by
  obtain ⟨r, q, w, hr, -, hq, -, rfl⟩ := headFirst_eq_body h
  obtain ⟨-, hsince⟩ := s.copyGoal_fresh n hr (Copying.since_empty s.nextVar)
  obtain ⟨-, hsince', -⟩ := s.copyGoals_fresh n hq hsince
  exact hsince'.le

end headFirst

/-! ## The attempt of a search -/

/-- What trying clause `c` for a goal does to the session, and the copy of the body if
    the head could be unified with the goal. -/
def tryClause (n : Nat) (goal : Compound A) (c : Clause A) (w : Session A) :
    Option (Session A × Option (List (Compound A))) :=
  (copyGoal (w.store.copyTerm n) c.head ⟨.empty, w.store.nextVar⟩).bind fun r =>
    match unify n goal.toTerm r.1.toTerm w with
    | .success w' => (copyGoals (w'.store.copyTerm n) c.body r.2).map fun q =>
        (w'.setNext q.2.nextVar, some q.1)
    | .failure _ w' => some (w'.setNext r.2.nextVar, none)
    | .cutOff => none

/-- All that an attempt can have come to: the copy of the head clashes with the goal, or the
    two are unified and the body is copied in the store of then.  Either way the variables
    of the copies are counted as made at the end. -/
theorem tryClause_cases {n : Nat} {goal : Compound A} {c : Clause A} {w w' : Session A}
    {r : Option (List (Compound A))} (h : tryClause n goal c w = some (w', r)) :
    ∃ head p, copyGoal (w.store.copyTerm n) c.head ⟨.empty, w.store.nextVar⟩ = some (head, p) ∧
      ((∃ e v, unify n goal.toTerm head.toTerm w = .failure e v ∧ w' = v.setNext p.nextVar ∧
          r = none) ∨
        ∃ v body q, unify n goal.toTerm head.toTerm w = .success v ∧
          copyGoals (v.store.copyTerm n) c.body p = some (body, q) ∧ w' = v.setNext q.nextVar ∧
          r = some body) := by
  obtain ⟨⟨head, p⟩, hhead, h⟩ := Option.bind_eq_some_iff.mp h
  refine ⟨head, p, hhead, ?_⟩
  cases hu : unify n goal.toTerm head.toTerm w with
  | cutOff =>
    rw [hu] at h
    cases h
  | failure e v =>
    rw [hu] at h
    cases h
    exact .inl ⟨e, v, rfl, rfl, rfl⟩
  | success v =>
    rw [hu] at h
    obtain ⟨⟨body, q⟩, hbody, he⟩ := Option.map_eq_some_iff.mp h
    cases he
    exact .inr ⟨v, body, q, rfl, hbody, rfl, rfl⟩

variable (src : Source A) (client : Client A σ)

/-- Where a search goes from an attempt, by what this has come to: a clash is undone, and a
    body takes the place of the goal. -/
def attempted (point : ChoicePoint A) (points : List (ChoicePoint A)) (found : Nat) (memory : σ) :
    Option (Session A × Option (List (Compound A))) → Step A σ
  | none => .cutOff
  | some (w, none) => .next ⟨w.undoTo point.mark, points, found, memory⟩
  | some (w, some body) => advance src client point.goal.depth
      (body.map (⟨·, point.goal.depth + 1⟩) ++ point.rest) ⟨w, points, found, memory⟩

/-- An attempt is what `tryClause` does, and what the search makes of it.  The client's
    notes keep what they keep in stores like those of the attempt: they are taken in the
    store of before and in that of the outcome, with some number or other of the next
    variable. -/
theorem attempt_noted {P : σ → Prop} {V : Store A → Prop}
    (hnote : ∀ s e m, V s → P m → P (client.note s e m)) (n : Nat) (point : ChoicePoint A)
    (c : Clause A) (w : Session A) (points : List (ChoicePoint A)) (found : Nat) (memory : σ)
    (hm : P memory) (hw : ∀ k, V (w.store.setNext k))
    (htried : ∀ w' r, tryClause n point.goal.compound c w = some (w', r) →
      ∀ k, V (w'.store.setNext k)) :
    ∃ memory', P memory' ∧ attempt src client n point c ⟨w, points, found, memory⟩ =
      attempted src client point points found memory' (tryClause n point.goal.compound c w) := by
  obtain ⟨store, trail⟩ := w
  rw [attempt]
  revert htried
  rw [tryClause]
  simp only
  rw [Store.copyCompound_eq]
  intro htried
  cases hhead : copyGoal (store.copyTerm n) c.head ⟨.empty, store.nextVar⟩ with
  | none => exact ⟨memory, hm, rfl⟩
  | some r =>
    obtain ⟨head, p⟩ := r
    -- the number that the head leaves makes no difference to the unification
    have hunify : unify n point.goal.compound.toTerm head.toTerm ⟨store.setNext p.nextVar, trail⟩ =
        (unify n point.goal.compound.toTerm head.toTerm ⟨store, trail⟩).setNext p.nextVar :=
      unify_setNext p.nextVar n _ _ ⟨store, trail⟩
    simp only [Option.map_some, Option.bind_some, hunify]
    rw [hhead, Option.bind_some] at htried
    -- the notes that are taken on the way keep what they keep
    have hattempted := hnote (store.setNext p.nextVar) (.attempt point.goal.compound head) memory
      (hw p.nextVar) hm
    cases hu : unify n point.goal.compound.toTerm head.toTerm ⟨store, trail⟩ with
    | cutOff => exact ⟨memory, hm, rfl⟩
    | failure e w' =>
      rw [hu] at htried
      exact ⟨_, hnote _ (.refuted e) _ (htried _ _ rfl p.nextVar) hattempted, rfl⟩
    | success w' =>
      rw [hu] at htried
      obtain ⟨store', trail'⟩ := w'
      have hp : (⟨p.images, (store'.setNext p.nextVar).nextVar⟩ : Copying) = p := rfl
      simp only [Outcome.setNext, Session.setNext] at htried ⊢
      rw [Store.copyCompounds_eq, Store.copyTerm_setNext, hp]
      cases hbody : copyGoals (store'.copyTerm n) c.body p with
      | none => exact ⟨memory, hm, rfl⟩
      | some q =>
        rw [hbody] at htried
        exact ⟨_, hnote (store'.setNext p.nextVar) (.unified point.goal.compound) _
          (htried _ _ rfl p.nextVar) hattempted, rfl⟩

/-- The same for notes that keep what they keep in all stores. -/
theorem attempt_eq {P : σ → Prop} (hnote : ∀ s e m, P m → P (client.note s e m)) (n : Nat)
    (point : ChoicePoint A) (c : Clause A) (w : Session A) (points : List (ChoicePoint A))
    (found : Nat) (memory : σ) (hm : P memory) :
    ∃ memory', P memory' ∧ attempt src client n point c ⟨w, points, found, memory⟩ =
      attempted src client point points found memory' (tryClause n point.goal.compound c w) :=
  attempt_noted src client (V := fun _ => True) (fun s e m _ => hnote s e m) n point c w points
    found memory hm (fun _ => trivial) fun _ _ _ _ => trivial

variable {src client}

/-- The clauses of a choice point that have not been tried. -/
def ChoicePoint.untried (point : ChoicePoint A) : List (Clause A) :=
  point.candidates.drop point.next

omit [DecidableEq A] in
theorem ChoicePoint.untried_eq_nil_iff {point : ChoicePoint A} :
    point.untried = [] ↔ point.candidates[point.next]? = none := by
  rw [untried, List.drop_eq_nil_iff, List.getElem?_eq_none_iff]

omit [DecidableEq A] in
/-- The next clause is the first of those that have not been tried; the others are left. -/
theorem ChoicePoint.untried_eq_cons_iff {point : ChoicePoint A} {c : Clause A}
    {cs : List (Clause A)} :
    point.untried = c :: cs ↔
      point.candidates[point.next]? = some c ∧ point.tried.untried = cs := by
  have hleft : point.tried.untried = point.untried.tail := List.tail_drop.symm
  have hfirst : point.untried.head? = point.candidates[point.next]? := List.head?_drop
  rw [hleft, ← hfirst]
  cases point.untried with
  | nil => simp
  | cons d ds => simp

/-- All that a step can come to: the newest choice point is dropped, or its next clause is
    tried, and clashes with the goal or takes its place. -/
theorem step_all_of_cons {P : State A σ → Prop} {n : Nat} {point : ChoicePoint A}
    {w : Session A} {points : List (ChoicePoint A)} {found : Nat} {memory : σ}
    (dropped : ∀ m, P ⟨w.undoTo point.mark, points, found, m⟩)
    (clashed : ∀ c w' m, point.candidates[point.next]? = some c →
      tryClause n point.goal.compound c (w.undoTo point.mark) = some (w', none) →
      P ⟨w'.undoTo point.mark, point.tried :: points, found, m⟩)
    (expanded : ∀ c w' body m, point.candidates[point.next]? = some c →
      tryClause n point.goal.compound c (w.undoTo point.mark) = some (w', some body) →
      (advance src client point.goal.depth
        (body.map (⟨·, point.goal.depth + 1⟩) ++ point.rest)
        ⟨w', point.tried :: points, found, m⟩).All P) :
    (step src client n ⟨w, point :: points, found, memory⟩).All P := by
  unfold step
  simp only
  split
  · exact dropped _
  · next c hcand =>
    obtain ⟨m, -, hattempt⟩ := attempt_eq src client (P := fun _ => True) (fun _ _ _ _ => trivial)
      n point c (w.undoTo point.mark) (point.tried :: points) found memory trivial
    rw [hattempt]
    unfold attempted
    split
    · trivial
    · next w' htry => exact clashed c w' m hcand htry
    · next w' body htry => exact expanded c w' body m hcand htry

/-- Whatever comes of it, an attempt extends the session and keeps it sound, and what
    stands in the body has been made. -/
theorem tryClause_keeps {n : Nat} {goal : Compound A} {c : Clause A} {w w' : Session A}
    {r : Option (List (Compound A))} (hw : w.Sound w.store.nextVar)
    (hgoal : goal.Within fun x => x.id < w.store.nextVar)
    (h : tryClause n goal c w = some (w', r)) :
    w.Extends w' ∧ w'.Sound w'.store.nextVar ∧ w'.trail.occursCheck = w.trail.occursCheck ∧
      ∀ body, r = some body → ∀ g ∈ body, g.Within fun x => x.id < w'.store.nextVar := by
  obtain ⟨head, p, hhead, htried⟩ := tryClause_cases h
  obtain ⟨hfresh, hsince⟩ := w.store.copyGoal_fresh n hhead (Copying.since_empty w.store.nextVar)
  let m := p.nextVar
  have hm : w.store.nextVar ≤ m := hsince.le
  -- unification works on the variables of the goal and of the new head
  have hu : (unify n goal.toTerm head.toTerm w).Ends
      (fun v => (v.Sound m ∧ w.Extends v) ∧ w.SameFrame v)
      (fun v => (v.Sound m ∧ w.Extends v) ∧ w.SameFrame v) :=
    unify_ends (((Session.stable_sound m).and (Session.stable_extends w)).and
        (Session.stable_sameFrame w)) n _ _ _
      (Compound.Within.mono (fun _ hx => Nat.lt_of_lt_of_le hx hm) hgoal)
      (Compound.Within.mono (fun _ hx => hx.2) hfresh)
      ⟨⟨hw.mono hm, .refl w⟩, rfl, rfl⟩
  -- afterwards the number of the next variable is set to some `k`
  have hend : ∀ v : Session A, (v.Sound m ∧ w.Extends v) ∧ w.SameFrame v → ∀ k, m ≤ k →
      w.Extends (v.setNext k) ∧ (v.setNext k).Sound (v.setNext k).store.nextVar ∧
        (v.setNext k).trail.occursCheck = w.trail.occursCheck := by
    rintro v ⟨⟨hsound, hext⟩, hframe⟩ k hk
    have hle : v.store.nextVar ≤ k := by
      rw [hframe.nextVar]
      exact Nat.le_trans hm hk
    exact ⟨hext.trans (.of_kept ⟨rfl, .setNextVar v.store hle⟩), hsound.setNext hk k, hframe.check⟩
  rcases htried with ⟨e, v, ho, rfl, rfl⟩ | ⟨v, body, q, ho, hbody, rfl, rfl⟩
  · rw [ho] at hu
    obtain ⟨hext, hsound, hcheck⟩ := hend v hu m (Nat.le_refl m)
    exact ⟨hext, hsound, hcheck, fun _ hb => nomatch hb⟩
  · rw [ho] at hu
    obtain ⟨hnew, -, hle⟩ := v.store.copyGoals_fresh n hbody hsince
    obtain ⟨hext, hsound, hcheck⟩ := hend v hu _ hle
    refine ⟨hext, hsound, hcheck, fun _ he g hg => ?_⟩
    cases he
    exact Compound.Within.mono (fun _ hx => hx.2) (hnew g hg)

end Search

end Horn
