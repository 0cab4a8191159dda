import Horn.Proofs.Answers
import Horn.Proofs.Lockstep
import Horn.Proofs.Machine
import Horn.Proofs.Marks

/-! # The search in step with the machine

    The choice points of a search *mirror* the frames of the machine: undoing the
    trail to the mark of a choice point brings back a store in which the store of
    the frame shows.  A step of the search and one of the machine lead to mirrored
    stacks again, whatever the search has bound or undone in between
    (`run_lockstep`), since all it does extends the sessions further down. -/

namespace Horn

universe u v w

variable {A : Type u} {σ : Type v}

namespace Search

/-! ## Mirrored stacks -/

/-- Renames the variables of a goal. -/
def Goal.rename (π : Var → Var) (g : Goal A) : Goal A := ⟨g.compound.rename π, g.depth⟩

/-- Renaming the goals that take the place of the first one: the renaming may have grown,
    but not for the goals that were there. -/
theorem map_rename_expanded {π π' : Var → Var} {rest : List (Goal A)}
    (h : ∀ g ∈ rest, ∀ x, g.compound.Mentions x → π' x = π x) (gs : List (Compound A))
    (depth : Nat) :
    (gs.map (Compound.rename π')).map (Goal.mk · depth) ++ rest.map (Goal.rename π) =
      (gs.map (Goal.mk · depth) ++ rest).map (Goal.rename π') := by
  have hrest : rest.map (Goal.rename π) = rest.map (Goal.rename π') := by
    refine List.map_congr_left fun g hg => ?_
    have hren : g.compound.rename π = g.compound.rename π' :=
      Compound.rename_congr fun x hx => (h g hg x hx).symm
    rw [Goal.rename, hren, Goal.rename]
  rw [hrest, List.map_append, List.map_map, List.map_map]
  rfl

/-- The choice point is the frame, renamed, and the store of the frame shows in that of
    the session. -/
structure Frame.Mirrors (s₀ : Store A) (L K : Var → Prop) (π : Var → Var) (f : Frame A)
    (point : ChoicePoint A) (w : Session A) : Prop where
  shown : f.store.Shows s₀.nextVar π w.store
  tended : Tended s₀ L f.store
  goal : point.goal = f.goal.rename π
  rest : point.rest = f.rest.map (Goal.rename π)
  untried : point.untried = f.candidates
  fitGoal : Fit L f.store f.goal.compound
  fitRest : ∀ g ∈ f.rest, Fit L f.store g.compound
  suits : ∀ c ∈ f.candidates, Suits K c

/-- The choice points mirror the frames, at their marks. -/
abbrev Mirrors (s₀ : Store A) (L K : Var → Prop) :
    Session A → List (ChoicePoint A) → List (Frame A) → Prop :=
  AtMarks fun w point f => ∃ π, f.Mirrors s₀ L K π point w

theorem mirrors_lasting {s₀ : Store A} {L K : Var → Prop} {o : Options} :
    Lasting o fun w point (f : Frame A) => ∃ π, f.Mirrors s₀ L K π point w := by
  rintro v v' point f hv - hkept ⟨π, hf⟩
  exact ⟨π, { hf with shown := hf.shown.kept hv.sound.consistent.store hkept.store }⟩

/-! ## Steps and runs -/

/-- What a run of the search has come to agrees with a report: the same matches have
    been reported since the log was `log`, in stores that look the same. -/
structure Agrees (s₀ : Store A) (log : List (Store A × Signal)) (r : Report A)
    (o : Bool × State A (σ × List (Store A × Signal))) : Prop where
  halted : o.1 = r.halted
  found : o.2.found = log.length + r.views.length
  calls : ∃ calls, o.2.memory.2 = log ++ calls ∧
    List.Forall₂ (fun view call => Store.SameView s₀.nextVar view call.1) r.views calls

/-- The machine and the search are both cut off or agree, unless the client has come
    to no answer. -/
def InStep (s₀ : Store A) (client : Client A σ) (log : List (Store A × Signal))
    (o : Option (Report A)) (o' : Option (Bool × State A (σ × List (Store A × Signal)))) : Prop :=
  Option.Rel (Agrees s₀ log) o o' ∨ o' = none ∧ ∃ s m, client.answer s m = none

/-- A match in stores that look the same goes before what is in step. -/
theorem InStep.report {s₀ view : Store A} {client : Client A σ} {log : List (Store A × Signal)}
    {call : Store A × Signal} (hview : Store.SameView s₀.nextVar view call.1)
    {o : Option (Report A)} {o' : Option (Bool × State A (σ × List (Store A × Signal)))}
    (h : InStep s₀ client (log ++ [call]) o o') :
    InStep s₀ client log (o.map (Report.before ⟨false, [view]⟩)) o' := by
  rcases h with h | h
  · left
    cases h with
    | none => exact .none
    | some h =>
      -- the match comes first in the report, and first in the log
      obtain ⟨calls, hlog, hviews⟩ := h.calls
      refine .some ⟨h.halted, ?_, call :: calls, ?_, .cons hview hviews⟩
      · rw [h.found]
        simp only [Report.before, List.length_append, List.length_singleton]
        omega
      · rw [hlog, List.append_assoc]
        rfl
  · exact .inr h

section ends

variable {s₀ : Store A} {client : Client A σ} {log : List (Store A × Signal)}
  {o : Option (Report A)} {o' : Option (Bool × State A (σ × List (Store A × Signal)))}

theorem InStep.of_search (h : InStep s₀ client log o o')
    {q : Bool × State A (σ × List (Store A × Signal))} (hq : o' = some q) :
    ∃ r, o = some r ∧ Agrees s₀ log r q := by
  rcases h with h | ⟨hnone, -⟩
  · cases h with
    | none => cases hq
    | some h =>
      cases hq
      exact ⟨_, rfl, h⟩
  · rw [hnone] at hq
    cases hq

theorem InStep.of_report (h : InStep s₀ client log o o')
    (hanswers : ∀ s m, client.answer s m ≠ none) {r : Report A} (hr : o = some r) :
    ∃ q, o' = some q ∧ Agrees s₀ log r q := by
  rcases h with h | ⟨-, s, m, hnone⟩
  · cases h with
    | none => cases hr
    | some h =>
      cases hr
      exact ⟨_, rfl, h⟩
  · exact absurd hnone (hanswers s m)

end ends

variable [DecidableEq A]

/-- Goes on running after a step. -/
def Step.run (src : Source A) (client : Client A σ) (n : Nat) :
    Step A σ → Option (Bool × State A σ)
  | .cutOff => none
  | .done halted s => some (halted, s)
  | .next s => Search.run src client n s

theorem run_succ (src : Source A) (client : Client A σ) (n : Nat) (s : State A σ) :
    Search.run src client (n + 1) s = (step src client n s).run src client n := by
  rw [Search.run]
  cases step src client n s <;> rfl

section lockstep

variable {src : Source A} {client : Client A σ} {answers : Nat → Signal} {s₀ : Store A}
  {L K : Var → Prop}

/-- Mirrored stacks run in step for `n` more steps. -/
def RunsInStep (src : Source A) (client : Client A σ) (answers : Nat → Signal) (s₀ : Store A)
    (L K : Var → Prop) (n : Nat) : Prop :=
  ∀ w points fs memory log, Running src.options w → Mirrors s₀ L K w points fs →
    InStep s₀ client log (machine src answers n fs log.length)
      (run src (client.following answers) n ⟨w, points, log.length, memory, log⟩)

/-- With the next goals in place, search and machine go on in step: at a match both
    follow the answer given in advance; otherwise they give up the first goal for its
    depth, or open a choice point and a frame for it. -/
theorem advance_lockstep (hsuits : ∀ f, ∀ c ∈ src.clausesFor f, Suits K c)
    (hc : Faithful client.answer) (hscope : InScope s₀.nextVar client.answer) {n : Nat}
    (ih : RunsInStep src client answers s₀ L K n) {w : Session A} {points : List (ChoicePoint A)}
    {fs : List (Frame A)} (hw : Running src.options w) (hlink : Mirrors s₀ L K w points fs)
    {s : Store A} {π : Var → Var} (hshow : s.Shows s₀.nextVar π w.store) (ht : Tended s₀ L s)
    {goals : List (Goal A)} (hgoals : ∀ g ∈ goals, Fit L s g.compound) (depth : Nat) (memory : σ)
    (log : List (Store A × Signal)) :
    InStep s₀ client log
      (goOn (told (atMatch answers) (onward src goals s).1 log.length)
        (machine src answers n ((onward src goals s).2 ++ fs)) log.length)
      ((advance src (client.following answers) depth (goals.map (Goal.rename π))
        ⟨w, points, log.length, memory, log⟩).run src (client.following answers) n) := by
  cases goals with
  | nil =>
    obtain ⟨store, trail⟩ := w
    rw [List.map_nil, advance]
    simp only [Client.following]
    cases hanswer : client.answer store memory with
    | none => exact .inr ⟨rfl, store, memory, hanswer⟩
    | some r =>
      obtain ⟨signal, s', m'⟩ := r
      have hfound : store.AsFound s' := hc _ _ _ _ _ hw.sound.consistent.store hanswer
      -- the client is asked in a store in which at least the variables of the query are made
      have hborn : s₀.nextVar ≤ store.nextVar := hshow.le ht.le
      have hscoped : s'.Scoped s'.nextVar :=
        hscope _ _ _ _ _ hborn hw.sound.consistent.store hw.sound.inScope.store hanswer
      simp only [onward, told, atMatch]
      cases answers log.length with
      | halt =>
        exact .inl (.some ⟨rfl, rfl, [(store, signal)], rfl, .cons ⟨π, hshow⟩ .nil⟩)
      | proceed =>
        -- the client has left the store as it was, so the stacks are still mirrored
        have hw' : Running src.options ⟨s', trail⟩ := hw.asFound hfound hscoped
        have hlater : Mirrors s₀ L K ⟨s', trail⟩ points fs :=
          hlink.extends mirrors_lasting hw hw' (.of_kept ⟨rfl, hfound.kept⟩)
        have hnext := ih ⟨s', trail⟩ points fs m' (log ++ [(store, signal)]) hw' hlater
        rw [List.length_append, List.length_singleton] at hnext
        exact InStep.report ⟨π, hshow⟩ hnext
  | cons g rest =>
    rw [List.map_cons, advance]
    simp only [Goal.rename, onward]
    by_cases hdeep : tooDeep src.options g.depth = true
    · simp only [hdeep, if_true, told, goOn_none, List.nil_append]
      exact ih w points fs _ log hw hlink
    · simp only [hdeep, Bool.false_eq_true, if_false, told, goOn_none]
      refine ih w _ _ memory log hw
        (.open ⟨π, hshow, ht, rfl, rfl, ?_, ?_, ?_, ?_⟩ rfl hlink)
      · show src.clausesFor (g.compound.rename π).signature = src.clausesFor g.compound.signature
        rw [Compound.signature_rename]
      · exact hgoals g (List.mem_cons_self ..)
      · exact fun g' hg' => hgoals g' (List.mem_cons_of_mem _ hg')
      · exact hsuits _

/-- With a clause tried on both sides, search and machine go on in step. -/
theorem attempt_runsInStep (hd : Division s₀ L K)
    (hsuits : ∀ f, ∀ c ∈ src.clausesFor f, Suits K c) (hc : Faithful client.answer)
    (hscope : InScope s₀.nextVar client.answer) {n : Nat}
    (ih : RunsInStep src client answers s₀ L K n) {v : Session A} {π : Var → Var}
    {point : ChoicePoint A} {points : List (ChoicePoint A)} {g : Goal A} {rest : List (Goal A)}
    {c : Clause A} {cs : List (Clause A)} {s : Store A} {fs : List (Frame A)}
    (hv : Running src.options v) (hf : Frame.Mirrors s₀ L K π ⟨g, rest, c :: cs, s⟩ point v)
    (hleft : point.tried.untried = cs) (hmark : point.mark = v.mark)
    (hlater : Mirrors s₀ L K v points fs) (memory : σ)
    (log : List (Store A × Signal)) :
    InStep s₀ client log (machine src answers (n + 1) (⟨g, rest, c :: cs, s⟩ :: fs) log.length)
      ((attempt src (client.following answers) n point c
        ⟨v, point.tried :: points, log.length, memory, log⟩).run src
          (client.following answers) n) := by
  have hsuit : Suits K c := hf.suits c (List.mem_cons_self ..)
  have hcompound : point.goal.compound = g.compound.rename π := by rw [hf.goal]; rfl
  -- the stacks without the clause, in any session that extends this one
  have hrest : ∀ v', Running src.options v' → v.Extends v' →
      Mirrors s₀ L K v' (point.tried :: points) (⟨g, rest, cs, s⟩ :: fs) := by
    intro v' hv' hext
    refine AtMarks.extends mirrors_lasting (.open ⟨π, ?_⟩ hmark hlater) hv hv' hext
    exact ⟨hf.shown, hf.tended, hf.goal, hf.rest, hleft, hf.fitGoal, hf.fitRest,
      fun c hc => hf.suits c (List.mem_cons_of_mem _ hc)⟩
  obtain ⟨memory', hlog, hattempt⟩ := attempt_eq src (client.following answers)
    (P := fun m => m.2 = log) (fun _ _ _ h => h) n point c v
    (point.tried :: points) log.length (memory, log) rfl
  obtain ⟨memory', log'⟩ := memory'
  have heq : log = log' := hlog.symm
  subst heq
  rw [hattempt, machine_cons]
  have hborn : (g.compound.rename π).Within fun x => x.id < v.store.nextVar :=
    Compound.Within.rename (fun x hx => hf.shown.into x hx.1) hf.fitGoal
  -- both sides try the clause: both clash, or both get a body
  have htry := tryClause_lockstep hd hf.tended hf.shown hv.sound hf.fitGoal hsuit.1
    hsuit.2 hv.check n
  have hkeeps : ∀ v' r, tryClause n (g.compound.rename π) c v = some (v', r) →
      v.Extends v' ∧ Running src.options v' := fun _ _ ht =>
    (hv.tryClause hborn ht).imp_right And.left
  rw [hcompound]
  revert htry hkeeps
  generalize headFirst src.options.occursCheck n g.compound c s = o
  generalize tryClause n (g.compound.rename π) c v = o'
  intro htry hkeeps
  cases htry with
  | none => exact .inl .none
  | some h =>
    cases h with
    | @clash v' =>
      obtain ⟨hext, hrun⟩ := hkeeps v' none rfl
      simp only [Option.bind_some, ledTo, told, goOn_none, List.nil_append]
      have hback := hrun.undoTo point.mark
      exact ih _ _ _ memory' log hback
        (hrest _ hback (hext.undoTo (Nat.le_of_eq hmark.symm)))
    | @body π' s' v' gs hshow hold ht hle hfit =>
      obtain ⟨hext, hrun⟩ := hkeeps v' _ rfl
      have hgoals : (gs.map (Compound.rename π')).map (Goal.mk · (point.goal.depth + 1)) ++
          point.rest = (gs.map (Goal.mk · (g.depth + 1)) ++ rest).map (Goal.rename π') := by
        rw [hf.rest, hf.goal]
        exact map_rename_expanded (fun g' hg' x hx => hold x (hf.fitRest g' hg' x hx).1) gs _
      rw [attempted, hgoals]
      exact advance_lockstep hsuits hc hscope ih hrun (hrest _ hrun hext) hshow ht
        (Fit.expanded hle hfit hf.fitRest _) _ memory' log

/-- **The search and the machine run in step** from mirrored stacks. -/
theorem run_lockstep (hd : Division s₀ L K) (hsuits : ∀ f, ∀ c ∈ src.clausesFor f, Suits K c)
    (hc : Faithful client.answer) (hscope : InScope s₀.nextVar client.answer) (n : Nat) :
    RunsInStep src client answers s₀ L K n := by
  induction n with
  | zero =>
    intro w points fs memory log _ _
    exact .inl .none
  | succ n ih =>
    intro w points fs memory log hw hlink
    rw [run_succ]
    cases hlink with
    | nil => exact .inl (.some ⟨rfl, rfl, [], (List.append_nil log).symm, .nil⟩)
    | @cons _ point points f fs hmark hmirrors hlater =>
      obtain ⟨π, hf⟩ := hmirrors
      obtain ⟨g, rest, cs, s⟩ := f
      have hback : Running src.options (w.undoTo point.mark) := hw.undoTo point.mark
      -- the mark of the choice point is that of the session it goes back to
      have hself : point.mark = (w.undoTo point.mark).mark := (w.mark_undoTo_of_le hmark).symm
      have huntried : point.untried = cs := hf.untried
      rw [step]
      cases cs with
      | nil =>
        simp only [ChoicePoint.untried_eq_nil_iff.mp huntried]
        exact ih _ points fs _ log hback hlater
      | cons c cs =>
        obtain ⟨hcand, hleft⟩ := ChoicePoint.untried_eq_cons_iff.mp huntried
        simp only [hcand]
        exact attempt_runsInStep hd hsuits hc hscope ih hback hf hleft hself hlater memory log

end lockstep

end Search

end Horn
