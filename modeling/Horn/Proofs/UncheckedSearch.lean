import Horn.Proofs.DepthLimit
import Horn.Proofs.SearchLevels
import Horn.Proofs.Unchecked
import Horn.Proofs.Untouched

/-! # Turning the occurs check off

    Where the occurs check is not needed, a search without it is the same search.  States
    are compared as they are, store for store and move for move; only the flag on the trail
    is another one.

    * `step_unchecked`: if the unification that a step begins with comes to an end and is
      not refused, then the step leads to the same state without the check.
    * `Sturdy`: with the check on, that unification does come to an end.  The client may
      have made stores in which walks go in circles, so this is not said of the store of the
      session, but of those of the frames that the choice points show.
    * `run_unchecked`, `exists_run_of_unchecked`: so the two searches come to the same end,
      or to none; and they come to the same states, `comesTo_unchecked_iff`. -/

namespace Horn

universe u v

variable {A : Type u} {σ : Type v}

namespace Search

/-- The source with the occurs check turned off. -/
def Source.unchecked (src : Source A) : Source A :=
  { src with options := { src.options with occursCheck := false } }

/-- The state with the occurs check turned off in its session. -/
def State.unchecked (t : State A σ) : State A σ := { t with session := t.session.unchecked }

/-- The step with the occurs check turned off in the state it leads to. -/
def Step.unchecked : Step A σ → Step A σ
  | next t => next t.unchecked
  | done halted t => done halted t.unchecked
  | cutOff => cutOff

theorem Step.next_ne_cutOff (t : State A σ) : (next t : Step A σ) ≠ cutOff := by
  intro h
  cases h

theorem Step.done_ne_cutOff (halted : Bool) (t : State A σ) :
    (done halted t : Step A σ) ≠ cutOff := by
  intro h
  cases h

/-! ## The unification that a step begins with -/

/-- The next step begins with the same unification, if with any. -/
theorem headUnification_unchecked (n : Nat) (t : State A σ) :
    t.unchecked.headUnification n =
      (t.headUnification n).map fun (goal, head, w) => (goal, head, w.unchecked) := by
  obtain ⟨w, points, found, memory⟩ := t
  cases points with
  | nil => rfl
  | cons point points =>
    simp only [State.headUnification, State.unchecked, Session.undoTo_unchecked]
    cases point.candidates[point.next]? with
    | none => rfl
    | some c =>
      simp only [Option.map_map]
      rfl

theorem headUnification_mono {n m : Nat} (hnm : n ≤ m) {t : State A σ}
    {q : Term A × Term A × Session A} (h : t.headUnification n = some q) :
    t.headUnification m = some q := by
  obtain ⟨w, points, found, memory⟩ := t
  cases points with
  | nil => cases h
  | cons point points =>
    simp only [State.headUnification] at h ⊢
    cases hcand : point.candidates[point.next]? with
    | none =>
      rw [hcand] at h
      cases h
    | some c =>
      rw [hcand] at h
      simp only [Store.copyCompound_eq, Option.map_map] at h ⊢
      obtain ⟨r, hr, he⟩ := Option.map_eq_some_iff.mp h
      rw [copyGoal_mono (fun _ _ _ => Store.copyTerm_mono hnm) hr]
      exact congrArg some he

variable [DecidableEq A]

/-- The unification that the next step begins with is not refused by the occurs check, at
    whatever number of levels. -/
def State.Unrefused (t : State A σ) : Prop :=
  ∀ n goal head w, t.headUnification n = some (goal, head, w) →
    ∀ x c v, unify n goal head w ≠ .failure (.occurs x c) v

/-- With `n` levels the unification that the next step begins with comes to an end. -/
def State.Decides (n : Nat) (t : State A σ) : Prop :=
  ∀ goal head w, t.headUnification n = some (goal, head, w) → unify n goal head w ≠ .cutOff

section steps

variable (src : Source A) (client : Client A σ)

omit [DecidableEq A] in
theorem advance_unchecked (depth : Nat) (goals : List (Goal A)) (t : State A σ) :
    advance src.unchecked client depth goals t.unchecked =
      (advance src client depth goals t).unchecked := by
  obtain ⟨⟨store, trail⟩, points, found, memory⟩ := t
  cases goals with
  | nil =>
    rw [advance_nil, advance_nil]
    show answered client depth _ (client.answer store memory) =
      Step.unchecked (answered client depth _ (client.answer store memory))
    cases client.answer store memory with
    | none => rfl
    | some r =>
      obtain ⟨signal, store', memory'⟩ := r
      cases signal with
      | proceed => rfl
      | halt => rfl
  | cons g rest =>
    have hdeep : tooDeep src.unchecked.options g.depth = tooDeep src.options g.depth := rfl
    unfold advance State.unchecked
    simp only [hdeep]
    by_cases h : tooDeep src.options g.depth = true
    · simp only [h, if_true]
      rfl
    · simp only [h, Bool.false_eq_true, if_false]
      rfl

theorem attempt_unchecked (n : Nat) (point : ChoicePoint A) (c : Clause A) (t : State A σ)
    (h : ∀ head r store, t.session.store.copyCompound n c.head .empty = some (head, r, store) →
      (unify n point.goal.compound.toTerm head.toTerm ⟨store, t.session.trail⟩).Unrefused) :
    attempt src.unchecked client n point c t.unchecked =
      (attempt src client n point c t).unchecked := by
  obtain ⟨⟨store, trail⟩, points, found, memory⟩ := t
  simp only [State.unchecked, Session.unchecked, attempt] at h ⊢
  cases hcopy : store.copyCompound n c.head .empty with
  | none => rfl
  | some q =>
    obtain ⟨head, r, store'⟩ := q
    have hu := unify_unchecked n point.goal.compound.toTerm head.toTerm ⟨store', trail⟩
      (h head r store' hcopy)
    simp only [Session.unchecked] at hu
    simp only [hu]
    cases unify n point.goal.compound.toTerm head.toTerm ⟨store', trail⟩ with
    | cutOff => rfl
    | failure e w =>
      simp only [Outcome.unchecked, Session.undoTo_unchecked]
      rfl
    | success w =>
      obtain ⟨store'', trail'⟩ := w
      simp only [Outcome.unchecked, Session.unchecked]
      cases store''.copyCompounds n c.body r with
      | none => rfl
      | some b => exact advance_unchecked src client _ _ ⟨⟨b.2.2, trail'⟩, points, found, _⟩

/-- **Where the check is not needed for a step, the step is the same without it.** -/
theorem step_unchecked {n : Nat} {t : State A σ} (hfree : t.Unrefused) (hends : t.Decides n) :
    step src.unchecked client n t.unchecked = (step src client n t).unchecked := by
  obtain ⟨w, points, found, memory⟩ := t
  cases points with
  | nil => rfl
  | cons point points =>
    have hfree := hfree n
    simp only [State.Decides, State.headUnification] at hfree hends
    simp only [step, State.unchecked, Session.undoTo_unchecked]
    cases hcand : point.candidates[point.next]? with
    | none => rfl
    | some c =>
      simp only [hcand] at hfree hends
      apply attempt_unchecked src client n point c ⟨w.undoTo point.mark, _, found, memory⟩
      intro head r store hcopy
      apply Outcome.unrefused_iff.mpr
      constructor
      · exact hends _ _ _ (Option.map_eq_some_iff.mpr ⟨_, hcopy, rfl⟩)
      · exact hfree _ _ _ (Option.map_eq_some_iff.mpr ⟨_, hcopy, rfl⟩)

variable {src client}

/-- A step that is not cut off begins with a unification that comes to an end. -/
theorem decides_of_step {n : Nat} {t : State A σ} (h : step src client n t ≠ .cutOff) :
    t.Decides n := by
  obtain ⟨w, points, found, memory⟩ := t
  intro goal head v hhead
  cases points with
  | nil => cases hhead
  | cons point points =>
    simp only [State.headUnification, step] at hhead h
    cases hcand : point.candidates[point.next]? with
    | none =>
      rw [hcand] at hhead
      cases hhead
    | some c =>
      rw [hcand] at hhead h
      obtain ⟨⟨copy, r, store⟩, hcopy, he⟩ := Option.map_eq_some_iff.mp hhead
      cases he
      intro hcut
      apply h
      simp only [attempt, hcopy, hcut]

theorem decides_of_tryClause {n : Nat} {w : Session A} {point : ChoicePoint A} {c : Clause A}
    {r : Session A × Option (List (Compound A))} (hcand : point.candidates[point.next]? = some c)
    (h : tryClause n point.goal.compound c (w.undoTo point.mark) = some r)
    {points : List (ChoicePoint A)} {found : Nat} {m : σ} :
    State.Decides n ⟨w, point :: points, found, m⟩ := by
  intro goal head v hhead
  simp only [State.headUnification, hcand, Store.copyCompound_eq, Option.map_map] at hhead
  obtain ⟨⟨copy, q⟩, hcopy, he⟩ := Option.map_eq_some_iff.mp hhead
  cases he
  -- the attempt unifies before it counts the variables of the copy
  have hunify := unify_setNext q.nextVar n point.goal.compound.toTerm copy.toTerm
    (w.undoTo point.mark)
  intro hcut
  replace hcut := hunify.symm.trans hcut
  rw [tryClause, hcopy, Option.bind_some] at h
  cases hu : unify n point.goal.compound.toTerm copy.toTerm (w.undoTo point.mark) with
  | success v =>
    rw [hu] at hcut
    cases hcut
  | failure e v =>
    rw [hu] at hcut
    cases hcut
  | cutOff =>
    rw [hu] at h
    cases h

variable (src client) in
theorem step_mono {n m : Nat} (hnm : n ≤ m) (t : State A σ) :
    (step src client n t).Settles (step src client m t) := by
  intro h
  induction hnm with
  | refl => rfl
  | @step m _ ih =>
    rw [step_settles src client m t (by rw [ih]; exact h)]
    exact ih

theorem step_of_le {n m : Nat} (hnm : n ≤ m) {t : State A σ} {r : Step A σ}
    (h : step src client n t = r) (hr : r ≠ .cutOff) : step src client m t = r := by
  rw [← h] at hr ⊢
  exact step_mono src client hnm t hr

end steps

/-! ## Every attempt ends -/

/-- The choice points of the search show frames with acyclic stores. -/
structure Sturdy (n₀ : Nat) (o : Options) (t : State A σ) : Prop where
  running : Running o t.session
  stacked : ∃ fs, Stacked n₀ t.session t.points fs ∧ ∀ f ∈ fs, f.store.Acyclic

section sturdy

variable {src : Source A} {client : Client A σ} {n₀ : Nat}

omit [DecidableEq A] in
/-- The client leaves frames as they are. -/
theorem Sturdy.asFound {s s' : Store A} {trail : Trail} {points : List (ChoicePoint A)}
    {found found' : Nat} {m m' : σ} {o : Options}
    (h : Sturdy n₀ o (⟨⟨s, trail⟩, points, found, m⟩ : State A σ)) (hs : s.AsFound s')
    (hscope : s'.Scoped s'.nextVar) :
    Sturdy n₀ o (⟨⟨s', trail⟩, points, found', m'⟩ : State A σ) := by
  obtain ⟨hw, fs, hstack, hfs⟩ := h
  have hext : Session.Extends ⟨s, trail⟩ ⟨s', trail⟩ := .of_kept ⟨rfl, hs.kept⟩
  have hw' := hw.asFound hs hscope
  exact ⟨hw', fs, hstack.extends stacked_lasting hw hw' hext, hfs⟩

omit [DecidableEq A] in
theorem store_of_mem_onward {goals : List (Goal A)} {s : Store A} {f : Frame A}
    (h : f ∈ (onward src goals s).2) : f.store = s := by
  cases goals with
  | nil => cases h
  | cons g rest =>
    unfold onward at h
    by_cases hdeep : tooDeep src.options g.depth = true
    · simp [hdeep] at h
    · simp only [hdeep, Bool.false_eq_true, if_false, List.mem_singleton] at h
      rw [h]
      rfl

/-- A frame with an acyclic store leads to such frames. -/
theorem Frame.step_acyclic (hcheck : src.options.occursCheck = true) {n : Nat} {f : Frame A}
    {view : Option (Store A)} {frames : List (Frame A)} (hf : f.Workable n₀)
    (hacyclic : f.store.Acyclic) (h : f.step src n = some (view, frames)) :
    ∀ f' ∈ frames, f'.store.Acyclic := by
  obtain ⟨g, rest, cs, s⟩ := f
  cases cs with
  | nil =>
    cases h
    exact List.forall_mem_nil _
  | cons c cs =>
    obtain ⟨o, ho, he⟩ := Option.map_eq_some_iff.mp h
    rw [hcheck] at ho
    cases o with
    | none =>
      cases he
      simpa using hacyclic
    | some r =>
      obtain ⟨body, s'⟩ := r
      obtain ⟨-, hacyclic', -⟩ :=
        attemptIn_keeps hf.store hacyclic (hf.made g (List.mem_cons_self ..)) ho
      cases he
      refine List.forall_mem_append.mpr ⟨fun f' hf' => ?_, List.forall_mem_singleton.mpr hacyclic⟩
      rw [store_of_mem_onward hf']
      exact hacyclic'

/-- A step keeps this, whatever the client makes of a match. -/
theorem step_sturdy (hsrc : src.Old n₀) (hcheck : src.options.occursCheck = true)
    (hc : Faithful client.answer) (hscope : InScope n₀ client.answer) (n : Nat) (t : State A σ)
    (ht : Sturdy n₀ src.options t) : (step src client n t).All (Sturdy n₀ src.options) := by
  obtain ⟨w, points, found, memory⟩ := t
  have hsturdy := ht
  obtain ⟨hw, fs, hstack, hfs⟩ := ht
  cases hstack with
  | nil => exact hsturdy
  | @cons _ point points f fs hmark hshown hlater =>
    have hstep := step_explored (P := fun _ : σ => True) (e := client) hsrc
      (fun _ _ _ _ => trivial) hw (.cons hmark hshown hlater) n found trivial (m := memory)
    have hframes := fun view frames (h : f.step src n = some (view, frames)) =>
      Frame.step_acyclic hcheck hshown.1 (hfs f (List.mem_cons_self ..)) h
    revert hstep hframes
    generalize f.step src n = o
    generalize step src client n ⟨w, point :: points, found, memory⟩ = o'
    intro hstep hframes
    have hall : ∀ view frames, o = some (view, frames) → ∀ f' ∈ frames ++ fs, f'.store.Acyclic :=
      fun view frames ho => List.forall_mem_append.mpr
        ⟨hframes view frames ho, fun f' hf' => hfs f' (List.mem_cons_of_mem _ hf')⟩
    cases hstep with
    | cutOff => trivial
    | next hw' hstack' _ => exact ⟨hw', _, hstack', hall _ _ rfl⟩
    | @asked s _ frames w' points' m depth hw' hstack' _ hs hshown =>
      obtain ⟨store, trail⟩ := w'
      have hnow : Sturdy n₀ src.options (⟨⟨store, trail⟩, points', found, m⟩ : State A σ) :=
        ⟨hw', _, hstack', hall _ _ rfl⟩
      have hstore : store.Consistent := hw'.sound.consistent.store
      cases hr : client.answer store m with
      | none => trivial
      | some r =>
        obtain ⟨signal, s', m'⟩ := r
        have hfound : store.AsFound s' := hc _ _ _ _ _ hstore hr
        have hscoped : s'.Scoped s'.nextVar :=
          hscope _ _ _ _ _ (hshown.le hs.le) hstore hw'.sound.inScope.store hr
        cases signal with
        | proceed => exact hnow.asFound hfound hscoped
        | halt => exact hnow.asFound hfound hscoped

/-- In such a state some number of levels is enough for the unification, and so is every
    larger number. -/
theorem Sturdy.exists_decides {o : Options} (hcheck : o.occursCheck = true) {t : State A σ}
    (ht : Sturdy n₀ o t) : ∃ m, ∀ k, m ≤ k → t.Decides k := by
  obtain ⟨w, points, found, memory⟩ := t
  obtain ⟨hw, fs, hstack, hfs⟩ := ht
  cases hstack with
  | nil =>
    refine ⟨0, fun k _ goal head v hhead => ?_⟩
    cases hhead
  | @cons _ point points f fs hmark hshown _ =>
    obtain ⟨hf, π, hshow⟩ := hshown
    obtain ⟨g, rest, cs, s⟩ := f
    have huntried : point.untried = cs := hshow.untried
    have hcompound : point.goal.compound = g.compound.rename π := by
      rw [hshow.goal]
      rfl
    have hback : Running o (w.undoTo point.mark) := hw.undoTo point.mark
    cases cs with
    | nil =>
      have hnone := ChoicePoint.untried_eq_nil_iff.mp huntried
      refine ⟨0, fun k _ goal head v hhead => ?_⟩
      simp only [State.headUnification, hnone] at hhead
      cases hhead
    | cons c cs =>
      obtain ⟨hcand, -⟩ := ChoicePoint.untried_eq_cons_iff.mp huntried
      -- the clause can be tried in the frame, and so it can in the session
      have hborn : g.compound.Within s.Born := hf.made g (List.mem_cons_self ..)
      obtain ⟨m, r, hr⟩ := exists_attemptIn hf.store (hfs _ (List.mem_cons_self ..)) hborn c
      obtain ⟨q, hq, -⟩ := Option.map_eq_some_iff.mp hr
      have hsound : (⟨s, .start true⟩ : Session A).Sound s.nextVar :=
        ⟨Session.consistent_start hf.store.consistent true,
          Session.scoped_start hf.store.inScope true⟩
      have htry := tryClause_inStep (w := ⟨s, .start true⟩) hshow.shown hsound
        hback.sound (hback.check.trans hcheck) hf.store.le hborn
        (hf.old c (List.mem_cons_self ..)) m
      rw [hq, ← hcompound] at htry
      revert htry
      generalize htried : tryClause m point.goal.compound c (w.undoTo point.mark) = o'
      rintro (_ | _)
      refine ⟨m, fun k hk => ?_⟩
      have htried' := answer_mono
        (f := fun n => tryClause n point.goal.compound c (w.undoTo point.mark))
        (fun _ _ => tryClause_succ) hk htried
      exact decides_of_tryClause hcand htried'

/-- So from some number of levels on the unification has one outcome.  If the check does not
    refuse it, it has this outcome without the check. -/
theorem Sturdy.exists_outcome {o : Options} (hcheck : o.occursCheck = true) {t : State A σ}
    (ht : Sturdy n₀ o t) (hfree : t.Unrefused) {n : Nat} {goal head : Term A} {w : Session A}
    (hhead : t.headUnification n = some (goal, head, w)) :
    ∃ m r, r ≠ .cutOff ∧ ∀ k, m ≤ k →
      unify k goal head w = r ∧ unify k goal head w.unchecked = r.unchecked := by
  obtain ⟨m, hm⟩ := ht.exists_decides hcheck
  have hends := hm (max n m) (Nat.le_max_right n m) goal head w
    (headUnification_mono (Nat.le_max_left n m) hhead)
  refine ⟨max n m, _, hends, fun k hk => ?_⟩
  have hself := unify_mono hk goal head w hends
  have hhead' := headUnification_mono (le_trans (Nat.le_max_left n m) hk) hhead
  refine ⟨hself, ?_⟩
  rw [← hself]
  apply unify_unchecked
  apply Outcome.unrefused_iff.mpr
  constructor
  · rw [hself]
    exact hends
  · exact hfree k goal head w hhead'

end sturdy

/-! ## Whole searches -/

section searches

variable {src : Source A} {client : Client A σ} {n₀ : Nat} {t₀ t u : State A σ}

omit [DecidableEq A] in
theorem Step.exists_next_of_unchecked {r : Step A σ} {u' : State A σ}
    (h : r.unchecked = .next u') : ∃ u, r = .next u ∧ u' = u.unchecked := by
  cases r with
  | next u =>
    cases h
    exact ⟨u, rfl, rfl⟩
  | done halted u => cases h
  | cutOff => cases h

omit [DecidableEq A] in
theorem Step.exists_done_of_unchecked {r : Step A σ} {halted : Bool} {u' : State A σ}
    (h : r.unchecked = .done halted u') : ∃ u, r = .done halted u ∧ u' = u.unchecked := by
  cases r with
  | next u => cases h
  | done b u =>
    cases h
    exact ⟨u, rfl, rfl⟩
  | cutOff => cases h

/-- A step that goes through with the check goes through without it. -/
theorem step_unchecked_of_eq (hfree : t.Unrefused) {n : Nat} {r : Step A σ}
    (h : step src client n t = r) (hr : r ≠ .cutOff) :
    step src.unchecked client n t.unchecked = r.unchecked := by
  rw [← h] at hr ⊢
  exact step_unchecked src client hfree (decides_of_step hr)

/-- A step that goes through without the check goes through with it, at some number of
    levels. -/
theorem Sturdy.exists_step (hcheck : src.options.occursCheck = true)
    (ht : Sturdy n₀ src.options t) (hfree : t.Unrefused) {n : Nat} {r : Step A σ}
    (h : step src.unchecked client n t.unchecked = r) (hr : r ≠ .cutOff) :
    ∃ m, (step src client m t).unchecked = r := by
  obtain ⟨m, hm⟩ := ht.exists_decides hcheck
  refine ⟨max n m, ?_⟩
  rw [← step_unchecked src client hfree (hm _ (Nat.le_max_right n m))]
  exact step_of_le (Nat.le_max_left n m) h hr

theorem Sturdy.exists_next (hcheck : src.options.occursCheck = true)
    (ht : Sturdy n₀ src.options t) (hfree : t.Unrefused) {n : Nat} {u' : State A σ}
    (h : step src.unchecked client n t.unchecked = .next u') :
    ∃ m u, step src client m t = .next u ∧ u' = u.unchecked := by
  obtain ⟨m, hm⟩ := ht.exists_step hcheck hfree h (Step.next_ne_cutOff u')
  exact ⟨m, Step.exists_next_of_unchecked hm⟩

theorem Sturdy.exists_done (hcheck : src.options.occursCheck = true)
    (ht : Sturdy n₀ src.options t) (hfree : t.Unrefused) {n : Nat} {halted : Bool}
    {u' : State A σ} (h : step src.unchecked client n t.unchecked = .done halted u') :
    ∃ m u, step src client m t = .done halted u ∧ u' = u.unchecked := by
  obtain ⟨m, hm⟩ := ht.exists_step hcheck hfree h (Step.done_ne_cutOff halted u')
  exact ⟨m, Step.exists_done_of_unchecked hm⟩

variable (hfree : ∀ t, ComesTo src client t₀ t → t.Unrefused)
include hfree

/-- A search that comes to its end comes to the same end without the check. -/
theorem run_unchecked (n : Nat) (ht : ComesTo src client t₀ t) {halted : Bool}
    (h : run src client n t = some (halted, u)) :
    run src.unchecked client n t.unchecked = some (halted, u.unchecked) := by
  induction n generalizing t with
  | zero => cases h
  | succ n ih =>
    rw [run] at h ⊢
    cases hnext : step src client n t with
    | cutOff =>
      rw [hnext] at h
      cases h
    | done b u =>
      rw [hnext] at h
      rw [step_unchecked_of_eq (hfree t ht) hnext (Step.done_ne_cutOff b u)]
      cases h
      rfl
    | next t₁ =>
      rw [hnext] at h
      rw [step_unchecked_of_eq (hfree t ht) hnext (Step.next_ne_cutOff t₁)]
      exact ih (.step ht hnext) h

variable (hsturdy : ∀ t, ComesTo src client t₀ t → Sturdy n₀ src.options t)
  (hcheck : src.options.occursCheck = true)
include hsturdy hcheck

/-- A search that comes to its end without the check does so with it. -/
theorem exists_run_of_unchecked (n : Nat) (ht : ComesTo src client t₀ t) {halted : Bool}
    {u' : State A σ} (h : run src.unchecked client n t.unchecked = some (halted, u')) :
    ∃ m u, run src client m t = some (halted, u) ∧ u' = u.unchecked := by
  induction n generalizing t with
  | zero => cases h
  | succ n ih =>
    rw [run] at h
    cases hnext : step src.unchecked client n t.unchecked with
    | cutOff =>
      rw [hnext] at h
      cases h
    | done b u₁ =>
      rw [hnext] at h
      cases h
      obtain ⟨m, u, hu, rfl⟩ := (hsturdy t ht).exists_done hcheck (hfree t ht) hnext
      refine ⟨m + 1, u, ?_, rfl⟩
      rw [run, hu]
    | next u₁ =>
      rw [hnext] at h
      obtain ⟨m, t₁, ht₁, rfl⟩ := (hsturdy t ht).exists_next hcheck (hfree t ht) hnext
      obtain ⟨k, u, hrun, rfl⟩ := ih (.step ht ht₁) h
      refine ⟨max m k + 1, u, ?_, rfl⟩
      rw [run, step_of_le (Nat.le_max_left m k) ht₁ (Step.next_ne_cutOff t₁)]
      exact run_mono (Nat.le_max_right m k) hrun

/-- The states that a search comes to are those it comes to without the check. -/
theorem comesTo_unchecked_iff {t' : State A σ} :
    ComesTo src.unchecked client t₀.unchecked t' ↔
      ∃ t, ComesTo src client t₀ t ∧ t' = t.unchecked := by
  constructor
  · intro h
    induction h with
    | start => exact ⟨t₀, .start, rfl⟩
    | @step n _ u' _ hnext ih =>
      obtain ⟨t, ht, rfl⟩ := ih
      obtain ⟨m, u, hu, rfl⟩ := (hsturdy t ht).exists_next hcheck (hfree t ht) hnext
      exact ⟨u, .step ht hu, rfl⟩
  · rintro ⟨t, ht, rfl⟩
    induction ht with
    | start => exact .start
    | @step n t u ht hnext ih =>
      exact .step ih (step_unchecked_of_eq (hfree t ht) hnext (Step.next_ne_cutOff u))

end searches

end Search

end Horn
