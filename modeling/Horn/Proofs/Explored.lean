import Horn.Proofs.Calls
import Horn.Proofs.Exploration
import Horn.Proofs.Refinement
import Horn.Proofs.SameAttempts

/-! # A search explores

    Every choice point of a search *shows* a frame of an exploration: undoing the trail to
    the mark of the choice point brings back a store in which the store of the frame
    shows.  Search and exploration make the same attempt at every step, so they go in
    step, with one and the same number of levels, whatever goals and clauses there are:
    `step_explored`, `run_explored`, `enumerate_explored`.

    A match is left to the client on one side and to `onMatch` on the other, which are
    to come to the same (`Client.AnswersLike`).  So the client may ask further queries
    at a match, and the exploration explores them. -/

namespace Horn

universe u v w

variable {A : Type u} {σ : Type v} {τ : Type w}

/-- A store in which a search can go on: it mentions only what has been made, and the
    first `n₀` variables have. -/
structure Store.Workable (n₀ : Nat) (s : Store A) : Prop where
  consistent : s.Consistent
  inScope : s.Scoped s.nextVar
  le : n₀ ≤ s.nextVar

namespace Search

/-! ## Frames that can be worked off -/

/-- A frame over variables that have been made, with clauses over old ones. -/
structure Frame.Workable (n₀ : Nat) (f : Frame A) : Prop where
  store : f.store.Workable n₀
  made : ∀ g ∈ f.goal :: f.rest, g.compound.Within f.store.Born
  old : ∀ c ∈ f.candidates, OldClause n₀ c

/-- The program's clauses mention old variables only. -/
def Source.Old (n₀ : Nat) (src : Source A) : Prop := ∀ f, ∀ c ∈ src.clausesFor f, OldClause n₀ c

theorem Frame.Workable.later {n₀ : Nat} {g : Goal A} {rest : List (Goal A)} {c : Clause A}
    {cs : List (Clause A)} {s : Store A} (h : Frame.Workable n₀ ⟨g, rest, c :: cs, s⟩) :
    Frame.Workable n₀ ⟨g, rest, cs, s⟩ :=
  ⟨h.store, h.made, fun d hd => h.old d (List.mem_cons_of_mem _ hd)⟩

theorem Frame.workable_start {n₀ : Nat} {src : Source A} (hsrc : src.Old n₀) {g : Goal A}
    {rest : List (Goal A)} {s : Store A} (hs : s.Workable n₀)
    (hmade : ∀ g' ∈ g :: rest, g'.compound.Within s.Born) :
    (Frame.start src g rest s).Workable n₀ := ⟨hs, hmade, hsrc _⟩

/-- The choice point is the frame, renamed, and the store of the frame shows in that of
    the session. -/
structure Frame.ShowsIn (n₀ : Nat) (π : Var → Var) (f : Frame A) (point : ChoicePoint A)
    (w : Session A) : Prop where
  shown : f.store.Shows n₀ π w.store
  goal : point.goal = f.goal.rename π
  rest : point.rest = f.rest.map (Goal.rename π)
  untried : point.untried = f.candidates

/-- Every choice point shows its frame, which can be worked off, at its mark. -/
abbrev Stacked (n₀ : Nat) : Session A → List (ChoicePoint A) → List (Frame A) → Prop :=
  AtMarks fun w point f => f.Workable n₀ ∧ ∃ π, f.ShowsIn n₀ π point w

theorem stacked_lasting {n₀ : Nat} {o : Options} :
    Lasting o fun w point (f : Frame A) => f.Workable n₀ ∧ ∃ π, f.ShowsIn n₀ π point w := by
  rintro v v' point f hv - hkept ⟨hf, π, hshow⟩
  exact ⟨hf, π, { hshow with shown := hshow.shown.kept hv.sound.consistent.store hkept.store }⟩

/-! ## Matches -/

/-- Since the log was `log` the client has been called just in stores that look like the
    views of the report. -/
def Logged (n₀ : Nat) (log : List (Store A × Signal)) (r : Report A)
    (log' : List (Store A × Signal)) : Prop :=
  ∃ calls, log' = log ++ calls ∧
    List.Forall₂ (fun view call => n₀ ≤ view.nextVar ∧ Store.SameView n₀ view call.1) r.views calls

theorem Logged.none (n₀ : Nat) (log : List (Store A × Signal)) : Logged n₀ log .none log :=
  ⟨[], (List.append_nil log).symm, .nil⟩

theorem Logged.before {n₀ : Nat} {log log' log'' : List (Store A × Signal)} {r r' : Report A}
    (h : Logged n₀ log r log') (h' : Logged n₀ log' r' log'') :
    Logged n₀ log (r.before r') log'' := by
  obtain ⟨calls, rfl, hcalls⟩ := h
  obtain ⟨calls', rfl, hcalls'⟩ := h'
  exact ⟨calls ++ calls', List.append_assoc .., List.rel_append hcalls hcalls'⟩

theorem Logged.length {n₀ : Nat} {log log' : List (Store A × Signal)} {r : Report A}
    (h : Logged n₀ log r log') : log'.length = log.length + r.views.length := by
  obtain ⟨calls, rfl, hcalls⟩ := h
  rw [List.length_append, hcalls.length_eq]

end Search

/-- The client keeps a log, and at a match it comes to what `onMatch` comes to in a store
    that shows in the one of the match. -/
structure Client.AnswersLike (n₀ : Nat) (d : Client A (σ × List (Store A × Signal)))
    (onMatch : Store A → Nat → Option (Search.Report A)) : Prop where
  note : ∀ s e m, (d.note s e m).2 = m.2
  faithful : Faithful d.answer
  inScope : InScope n₀ d.answer
  answer : ∀ {s s' : Store A} {π : Var → Var} (m : σ × List (Store A × Signal)),
    s.Shows n₀ π s' → s.Workable n₀ → s'.Workable n₀ →
    Option.Rel (fun r q => (q.1 = .halt ↔ r.halted = true) ∧ Search.Logged n₀ m.2 r q.2.2.2)
      (onMatch s m.2.length) (d.answer s' m)

namespace Search

variable [DecidableEq A] {n₀ : Nat} {src : Source A} {d : Client A (σ × List (Store A × Signal))}
  {onMatch : Store A → Nat → Option (Report A)}

/-! ## Steps -/

section steps

variable {P : τ → Prop} {e : Client A τ}

/-- What becomes of the first of some frames, and of the choice point that shows it: both
    steps are cut off, or go on with stacks in step, with or without a match before. -/
inductive StepsLike (n₀ : Nat) (src : Source A) (e : Client A τ) (P : τ → Prop) (found : Nat)
    (fs : List (Frame A)) : Option (Option (Store A) × List (Frame A)) → Step A τ → Prop where
  | cutOff : StepsLike n₀ src e P found fs none .cutOff
  | next {frames : List (Frame A)} {w : Session A} {points : List (ChoicePoint A)} {m : τ} :
      Running src.options w → Stacked n₀ w points (frames ++ fs) → P m →
      StepsLike n₀ src e P found fs (some (none, frames)) (.next ⟨w, points, found, m⟩)
  | asked {s : Store A} {π : Var → Var} {frames : List (Frame A)} {w : Session A}
      {points : List (ChoicePoint A)} {m : τ} (depth : Nat) :
      Running src.options w → Stacked n₀ w points (frames ++ fs) → P m → s.Workable n₀ →
      s.Shows n₀ π w.store →
      StepsLike n₀ src e P found fs (some (some s, frames))
        (answered e depth ⟨w, points, found, m⟩ (e.answer w.store m))

variable (hsrc : src.Old n₀) (hnote : ∀ s ev m, P m → P (e.note s ev m))
include hsrc hnote

omit [DecidableEq A] in
/-- With the next goals in place, the search goes on as the exploration does. -/
theorem advance_explored {w : Session A} {points : List (ChoicePoint A)} {later : List (Frame A)}
    {fs : List (Frame A)} (hw : Running src.options w)
    (hstack : Stacked n₀ w points (later ++ fs)) {s : Store A} {π : Var → Var}
    (hs : s.Workable n₀) (hshow : s.Shows n₀ π w.store) (goals : List (Goal A))
    (hgoals : ∀ g ∈ goals, g.compound.Within s.Born) (depth found : Nat) {m : τ} (hm : P m) :
    StepsLike n₀ src e P found fs
      (some ((onward src goals s).1, (onward src goals s).2 ++ later))
      (advance src e depth (goals.map (Goal.rename π)) ⟨w, points, found, m⟩) := by
  cases goals with
  | nil =>
    rw [List.map_nil, advance_nil]
    exact .asked depth hw hstack hm hs hshow
  | cons g rest =>
    rw [List.map_cons, advance]
    simp only [Goal.rename, onward]
    by_cases hdeep : tooDeep src.options g.depth = true
    · simp only [hdeep, if_true]
      exact .next hw hstack (hnote _ _ _ hm)
    · simp only [hdeep, Bool.false_eq_true, if_false]
      refine .next hw (.open ⟨Frame.workable_start hsrc hs hgoals, π, hshow, rfl, rfl, ?_⟩ rfl
        hstack) hm
      show src.clausesFor (g.compound.rename π).signature = _
      rw [Compound.signature_rename]
      rfl

/-- With a clause tried on both sides, the search goes on as the exploration does. -/
theorem attempt_explored {v : Session A} {π : Var → Var} {point : ChoicePoint A}
    {points : List (ChoicePoint A)} {g : Goal A} {rest : List (Goal A)} {c : Clause A}
    {cs : List (Clause A)} {s : Store A} {fs : List (Frame A)} (hv : Running src.options v)
    (hf : Frame.Workable n₀ ⟨g, rest, c :: cs, s⟩)
    (hshow : Frame.ShowsIn n₀ π ⟨g, rest, c :: cs, s⟩ point v)
    (hleft : point.tried.untried = cs) (hmark : point.mark = v.mark)
    (hlater : Stacked n₀ v points fs) (n found : Nat) {m : τ} (hm : P m) :
    StepsLike n₀ src e P found fs (Frame.step src n ⟨g, rest, c :: cs, s⟩)
      (attempt src e n point c ⟨v, point.tried :: points, found, m⟩) := by
  -- the stacks without the clause, in any session that extends this one
  have hrest : ∀ v', Running src.options v' → v.Extends v' →
      Stacked n₀ v' (point.tried :: points) ([⟨g, rest, cs, s⟩] ++ fs) := fun v' hv' hext =>
    AtMarks.extends stacked_lasting (.open ⟨hf.later, π, hshow.shown, hshow.goal, hshow.rest,
      hleft⟩ hmark hlater) hv hv' hext
  obtain ⟨m', hm', hattempt⟩ := attempt_eq src e hnote n point c v (point.tried :: points) found m
    hm
  rw [hattempt, Frame.step, attemptIn]
  have hcompound : point.goal.compound = g.compound.rename π := by rw [hshow.goal]; rfl
  have hborn : g.compound.Within s.Born := hf.made g (List.mem_cons_self ..)
  have hborn' : (g.compound.rename π).Within v.store.Born :=
    Compound.Within.rename hshow.shown.into hborn
  have hstart : Running src.options ⟨s, .start src.options.occursCheck⟩ :=
    running_start hf.store.consistent hf.store.inScope
  -- both sides try the clause, and what the attempts keep they keep on either side
  have htry := tryClause_inStep (w := ⟨s, .start src.options.occursCheck⟩) hshow.shown
    hstart.sound hv.sound hv.check hf.store.le hborn (hf.old c (List.mem_cons_self ..)) n
  have hleft := fun u r
    (h : tryClause n g.compound c ⟨s, .start src.options.occursCheck⟩ = some (u, r)) =>
      hstart.tryClause hborn h
  have hright := fun u r (h : tryClause n (g.compound.rename π) c v = some (u, r)) =>
    hv.tryClause hborn' h
  rw [hcompound]
  revert htry hleft hright
  generalize tryClause n g.compound c ⟨s, .start src.options.occursCheck⟩ = o
  generalize tryClause n (g.compound.rename π) c v = o'
  intro htry hleft hright
  cases htry with
  | none => exact .cutOff
  | some h =>
    cases h with
    | @clash u u' =>
      obtain ⟨hext, hrun, -⟩ := hright u' none rfl
      have hback := hrun.undoTo point.mark
      exact .next hback (hrest _ hback (hext.undoTo (Nat.le_of_eq hmark.symm))) hm'
    | @body π' u u' gs hbody hold =>
      obtain ⟨hext, hrun, hmade⟩ := hleft u (some gs) rfl
      obtain ⟨hext', hrun', -⟩ := hright u' _ rfl
      have hle : s.nextVar ≤ u.store.nextVar := hext.nextVar_le
      have hs : u.store.Workable n₀ :=
        ⟨hrun.sound.consistent.store, hrun.sound.inScope.store, Nat.le_trans hf.store.le hle⟩
      have hlaterMade : ∀ g' ∈ rest, g'.compound.Within s.Born := fun g' hg' =>
        hf.made g' (List.mem_cons_of_mem _ hg')
      have hgoals : (gs.map (Compound.rename π')).map (Goal.mk · (point.goal.depth + 1)) ++
          point.rest = (gs.map (Goal.mk · (g.depth + 1)) ++ rest).map (Goal.rename π') := by
        rw [hshow.rest, hshow.goal]
        exact map_rename_expanded (fun g' hg' x hx => hold x (hlaterMade g' hg' x hx)) gs _
      have hnext := advance_explored hsrc hnote hrun' (hrest _ hrun' hext') hs hbody _
        (within_expanded hle (hmade gs rfl) hlaterMade (g.depth + 1)) point.goal.depth found hm'
      rw [← hgoals] at hnext
      exact hnext

/-- Whatever has been tried and undone, a step of the search is one of the exploration. -/
theorem step_explored {w : Session A} {point : ChoicePoint A} {points : List (ChoicePoint A)}
    {f : Frame A} {fs : List (Frame A)} (hw : Running src.options w)
    (hstack : Stacked n₀ w (point :: points) (f :: fs)) (n found : Nat) {m : τ} (hm : P m) :
    StepsLike n₀ src e P found fs (f.step src n)
      (step src e n ⟨w, point :: points, found, m⟩) := by
  cases hstack with
  | @cons _ _ _ _ _ hmark hshown hlater =>
    obtain ⟨hf, π, hshow⟩ := hshown
    obtain ⟨g, rest, cs, s⟩ := f
    have hback : Running src.options (w.undoTo point.mark) := hw.undoTo point.mark
    -- the mark of the choice point is that of the session it goes back to
    have hself : point.mark = (w.undoTo point.mark).mark := (w.mark_undoTo_of_le hmark).symm
    have huntried : point.untried = cs := hshow.untried
    rw [step]
    cases cs with
    | nil =>
      simp only [ChoicePoint.untried_eq_nil_iff.mp huntried]
      exact .next hback hlater (hnote _ _ _ hm)
    | cons c cs =>
      obtain ⟨hcand, hleft⟩ := ChoicePoint.untried_eq_cons_iff.mp huntried
      simp only [hcand]
      exact attempt_explored hsrc hnote hback hf hshow hleft hself hlater n found hm

end steps

/-! ## Runs -/

/-- A search has come to the end that a report tells of. -/
def EndsLike (n₀ : Nat) (log : List (Store A × Signal)) (r : Report A)
    (o : Bool × State A (σ × List (Store A × Signal))) : Prop :=
  o.1 = r.halted ∧ Logged n₀ log r o.2.memory.2

/-- Stacks that are in step come to the same in `n` more steps. -/
def RunsLike (n₀ : Nat) (src : Source A) (d : Client A (σ × List (Store A × Signal)))
    (onMatch : Store A → Nat → Option (Report A)) (n : Nat) : Prop :=
  ∀ w points fs found m, Running src.options w → Stacked n₀ w points fs →
    Option.Rel (EndsLike n₀ m.2) (explore src onMatch n fs m.2.length)
      (run src d n ⟨w, points, found, m⟩)

/-- Where a match has been found both searches go on, or both are stopped, if from there
    on they come to the same. -/
theorem answered_explored (hd : d.AnswersLike n₀ onMatch) {n : Nat}
    (hruns : RunsLike n₀ src d onMatch n) {s : Store A} {π : Var → Var} {w : Session A}
    {points : List (ChoicePoint A)} {frames : List (Frame A)} (hw : Running src.options w)
    (hstack : Stacked n₀ w points frames) (hs : s.Workable n₀) (hshow : s.Shows n₀ π w.store)
    (depth found : Nat) (m : σ × List (Store A × Signal)) :
    Option.Rel (EndsLike n₀ m.2)
      (goOn (onMatch s m.2.length) (explore src onMatch n frames) m.2.length)
      ((answered d depth ⟨w, points, found, m⟩ (d.answer w.store m)).run src d n) := by
  obtain ⟨store, trail⟩ := w
  have hstore : store.Workable n₀ :=
    ⟨hw.sound.consistent.store, hw.sound.inScope.store, hshow.le hs.le⟩
  have hanswer := hd.answer m hshow hs hstore
  have hfaithful := hd.faithful store m
  have hscope := hd.inScope store m
  revert hanswer hfaithful hscope
  generalize onMatch s m.2.length = o
  generalize d.answer store m = q
  intro hanswer hfaithful hscope
  cases hanswer with
  | none => exact .none
  | @some r q hrq =>
    obtain ⟨signal, s', m'⟩ := q
    obtain ⟨hhalt, hlog⟩ := hrq
    simp only at hhalt hlog
    cases signal with
    | halt =>
      have hr : r.halted = true := hhalt.mp rfl
      simp only [goOn, hr, if_true]
      refine .some ⟨hr.symm, ?_⟩
      show Logged n₀ m.2 r (d.note s' (.stopped depth) m').2
      rw [hd.note]
      exact hlog
    | proceed =>
      have hr : r.halted = false := by
        cases hr : r.halted with
        | false => rfl
        | true => cases hhalt.mpr hr
      -- the client has left the store as it was, so the stacks are still in step
      have hfound : store.AsFound s' := hfaithful _ _ _ hstore.consistent rfl
      have hscoped : s'.Scoped s'.nextVar :=
        hscope _ _ _ hstore.le hstore.consistent hstore.inScope rfl
      have hw' : Running src.options ⟨s', trail⟩ := hw.asFound hfound hscoped
      have hnext := hruns ⟨s', trail⟩ points frames (found + 1) m' hw'
        (hstack.extends stacked_lasting hw hw' (.of_kept ⟨rfl, hfound.kept⟩))
      rw [hlog.length] at hnext
      simp only [goOn, hr, Bool.false_eq_true, if_false]
      exact rel_map_left hnext fun r' o' hend => ⟨hend.1, hlog.before hend.2⟩

/-- Whatever is tried and undone, a search goes on as the exploration does. -/
theorem run_explored (hsrc : src.Old n₀) (hd : d.AnswersLike n₀ onMatch) (n : Nat) :
    RunsLike n₀ src d onMatch n := by
  induction n with
  | zero =>
    intro w points fs found m _ _
    exact .none
  | succ n ih =>
    intro w points fs found m hw hstack
    rw [run_succ]
    cases hstack with
    | nil => exact .some ⟨rfl, .none n₀ m.2⟩
    | @cons _ point points f fs hmark hshown hlater =>
      have hstep := step_explored (P := fun m' => m'.2 = m.2) hsrc
        (fun s e m' h => (hd.note s e m').trans h) hw (.cons hmark hshown hlater) n found rfl
      rw [explore]
      revert hstep
      generalize f.step src n = o
      generalize step src d n ⟨w, point :: points, found, m⟩ = o'
      intro hstep
      cases hstep with
      | cutOff => exact .none
      | @next frames w' points' m' hw' hstack' hlog =>
        simp only [told, goOn_none]
        rw [← hlog]
        exact ih w' points' _ found m' hw' hstack'
      | @asked s π frames w' points' m' depth hw' hstack' hlog hs hshow =>
        rw [← hlog]
        exact answered_explored hd ih hw' hstack' hs hshow depth found m'

/-! ## Queries -/

omit [DecidableEq A] in
/-- A query begins with stacks in step, in any store in which that of the frame shows. -/
theorem stacked_start (hsrc : src.Old n₀) {g : Compound A} {rest : List (Compound A)}
    (hgoals : ∀ g' ∈ g :: rest, g'.Within fun x => x.id < n₀) {s s' : Store A} {π : Var → Var}
    (hshow : s.Shows n₀ π s') (hs : s.Workable n₀) (check : Bool) :
    Stacked n₀ ⟨s', .start check⟩ [.start src ⟨g, 0⟩ (rest.map (⟨·, 0⟩)) 0]
      [.start src ⟨g, 0⟩ (rest.map (⟨·, 0⟩)) s] := by
  -- the goals are over old variables, which show under their own names
  have hgoal : ∀ g' ∈ g :: rest, g'.rename π = g' := fun g' hg' =>
    Compound.rename_eq_self fun x hx => hshow.old x (hgoals g' hg' x hx)
  have hmade : ∀ g' ∈ g :: rest, g'.Within s.Born := fun g' hg' =>
    (hgoals g' hg').mono fun _ hx => Nat.lt_of_lt_of_le hx hs.le
  refine .open ⟨Frame.workable_start hsrc hs (within_query hmade), π, hshow, ?_, ?_, rfl⟩ rfl .nil
  · show Goal.mk g 0 = ⟨g.rename π, 0⟩
    rw [hgoal g (List.mem_cons_self ..)]
  · refine (List.map_congr_left fun g' hg' => ?_).trans (List.map_map ..).symm
    show Goal.mk g' 0 = ⟨g'.rename π, 0⟩
    rw [hgoal g' (List.mem_cons_of_mem _ hg')]

/-- A query is an exploration of its goals, from any store that shows in the one it is put
    in. -/
theorem enumerate_explored (hsrc : src.Old n₀) (hd : d.AnswersLike n₀ onMatch) (n : Nat)
    {goals : List (Compound A)} (hgoals : ∀ g ∈ goals, g.Within fun x => x.id < n₀)
    {s s' : Store A} {π : Var → Var} (hshow : s.Shows n₀ π s') (hs : s.Workable n₀)
    (hs' : s'.Workable n₀) (m : σ × List (Store A × Signal)) :
    Option.Rel (fun r q => q.1.isStopped = r.halted ∧ Logged n₀ m.2 r q.2.2.2)
      (exploreGoals src onMatch n goals s m.2.length) (enumerate src d n goals s' m) := by
  cases goals with
  | nil =>
    rw [enumerate_nil]
    have hanswer := hd.answer (d.note s' (.opened 0) m) hshow hs hs'
    rw [hd.note] at hanswer
    refine rel_map_right hanswer fun r q hrq => ?_
    obtain ⟨signal, s'', m'⟩ := q
    obtain ⟨hhalt, hlog⟩ := hrq
    refine ⟨?_, ?_⟩
    · rw [isStopped_close]
      exact Bool.eq_iff_iff.mpr (decide_eq_true_iff.trans hhalt)
    · show Logged n₀ m.2 r (d.note s'' _ m').2
      rw [hd.note]
      exact hlog
  | cons g rest =>
    have hrun := run_explored hsrc hd n _ _ _ 0 (d.note s' (.opened (g :: rest).length) m)
      (running_start hs'.consistent hs'.inScope) (stacked_start hsrc hgoals hshow hs _)
    rw [hd.note] at hrun
    rw [enumerate_cons]
    refine rel_map_right hrun fun r q hrq => ?_
    obtain ⟨halted, t⟩ := q
    obtain ⟨hhalt, hlog⟩ := hrq
    refine ⟨?_, ?_⟩
    · rw [isStopped_close]
      exact hhalt
    · show Logged n₀ m.2 r (d.note _ _ t.memory).2
      rw [hd.note]
      exact hlog

end Search

/-- What occurs in the goals, in the clauses and in the store has been made. -/
structure Program.Made (p : Program A) (goals : List (Compound A)) (s : Store A) : Prop where
  consistent : s.Consistent
  inScope : s.Scoped s.nextVar
  goals : ∀ g ∈ goals, g.Within s.Born
  clauses : ∀ c ∈ p.clauses, ∀ h ∈ c.head :: c.body, h.Within s.Born

section made

variable {p : Program A} {goals : List (Compound A)} {s : Store A}

theorem Program.Askable.made (h : p.Askable goals s) : p.Made goals s :=
  ⟨h.consistent, h.inScope, h.madeGoals, h.madeClauses⟩

theorem Program.Made.workable (h : p.Made goals s) : s.Workable s.nextVar :=
  ⟨h.consistent, h.inScope, Nat.le_refl _⟩

theorem Program.Made.old [DecidableEq A] (h : p.Made goals s) : p.source.Old s.nextVar :=
  fun _ c hc => h.clauses c (p.mem_clauses hc)

end made

/-! ## Clients -/

section clients

variable {n₀ : Nat}

theorem Client.following_faithful {c : Client A σ} (hc : Faithful c.answer)
    (answers : Nat → Signal) : Faithful (c.following answers).answer := by
  intro s m b s' m' hs h
  obtain ⟨r, hr, he⟩ := Option.map_eq_some_iff.mp h
  cases he
  exact hc s m.1 r.1 r.2.1 r.2.2 hs hr

theorem Client.following_inScope {c : Client A σ} (hc : InScope n₀ c.answer)
    (answers : Nat → Signal) : InScope n₀ (c.following answers).answer := by
  intro s m b s' m' hle hs hscope h
  obtain ⟨r, hr, he⟩ := Option.map_eq_some_iff.mp h
  cases he
  exact hc s m.1 r.1 r.2.1 r.2.2 hle hs hscope hr

/-- What is explored for a client that follows given answers: a match is reported, and
    the answer to it known. -/
def reporting (answers : Nat → Signal) (s : Store A) (found : Nat) : Option (Search.Report A) :=
  some ⟨answers found = .halt, [s]⟩

theorem Client.following_answersLike {c : Client A σ} (hc : Faithful c.answer)
    (hscope : InScope n₀ c.answer) (htotal : ∀ s m, c.answer s m ≠ none)
    (answers : Nat → Signal) : (c.following answers).AnswersLike n₀ (reporting answers) where
  note _ _ _ := rfl
  faithful := Client.following_faithful hc answers
  inScope := Client.following_inScope hscope answers
  answer {s s' π} m hshow hs _ := by
    simp only [Client.following]
    cases hanswer : c.answer s' m.1 with
    | none => exact absurd hanswer (htotal s' m.1)
    | some r =>
      exact .some ⟨decide_eq_true_iff.symm, [(s', r.1)], rfl, .cons ⟨hs.le, π, hshow⟩ .nil⟩

end clients

end Horn
