import Horn.Search.Query

/-! # Answers known in advance

    What a client answers to a match may depend on all that it has been told.  In one
    run, however, its answers are a sequence of signals.  A client that is given this
    sequence beforehand and *follows* it takes the same course (`enumerate_following`).
    So what is proved of following clients holds of every run of every client. -/

namespace Horn

universe u v

variable {A : Type u} {σ : Type v}

/-- The client that does what `c` does but answers to the `k`-th match as `answers`
    says.  It keeps a log of the stores in which it was told of a match, each with
    what `c` itself would have answered. -/
def Client.following (c : Client A σ) (answers : Nat → Signal) :
    Client A (σ × List (Store A × Signal)) where
  note s e m := (c.note s e m.1, m.2)
  answer s m := (c.answer s m.1).map fun (signal, s', m') =>
    (answers m.2.length, s', m', m.2 ++ [(s, signal)])

namespace Search

/-- The step with a log in the client's memory. -/
def Step.logging (log : List (Store A × Signal)) :
    Step A σ → Step A (σ × List (Store A × Signal))
  | .next s => .next ⟨s.session, s.points, s.found, s.memory, log⟩
  | .done halted s => .done halted ⟨s.session, s.points, s.found, s.memory, log⟩
  | .cutOff => .cutOff

/-- If the client has been told of a match, then there is one answer such that following
    it gives the same step, with the match in the log. -/
def Step.Followed (step : Step A σ) (following : (Nat → Signal) → List (Store A × Signal) →
    Step A (σ × List (Store A × Signal))) : Prop :=
  ∃ call : Option (Store A × Signal), ∀ answers log,
    (∀ p, call = some p → answers log.length = p.2) →
    following answers log = step.logging (log ++ call.toList)

/-- Without a match there is nothing to be followed. -/
theorem Step.followed_of_eq {step : Step A σ} {following : (Nat → Signal) →
    List (Store A × Signal) → Step A (σ × List (Store A × Signal))}
    (h : ∀ answers log, following answers log = step.logging log) : step.Followed following := by
  refine ⟨none, fun answers log _ => ?_⟩
  rw [Option.toList_none, List.append_nil]
  exact h answers log

variable (src : Source A) (client : Client A σ)

theorem advance_following (depth : Nat) (goals : List (Goal A)) (w : Session A)
    (points : List (ChoicePoint A)) (found : Nat) (memory : σ) :
    (advance src client depth goals ⟨w, points, found, memory⟩).Followed fun answers log =>
      advance src (client.following answers) depth goals ⟨w, points, found, memory, log⟩ := by
  cases goals with
  | nil =>
    obtain ⟨store, trail⟩ := w
    simp only [advance, Client.following]
    cases client.answer store memory with
    | none => exact Step.followed_of_eq fun _ _ => rfl
    | some r =>
      obtain ⟨signal, s', m'⟩ := r
      -- there is a match: the answer to be followed is the one just given
      refine ⟨some (store, signal), fun answers log h => ?_⟩
      have hfirst : answers log.length = signal := h _ rfl
      subst hfirst
      simp only [Option.map_some]
      cases answers log.length <;> rfl
  | cons g rest =>
    refine Step.followed_of_eq fun answers log => ?_
    unfold advance
    simp only
    split
    · rfl
    · rfl

variable [DecidableEq A]

theorem attempt_following (n : Nat) (point : ChoicePoint A) (c : Clause A) (w : Session A)
    (points : List (ChoicePoint A)) (found : Nat) (memory : σ) :
    (attempt src client n point c ⟨w, points, found, memory⟩).Followed fun answers log =>
      attempt src (client.following answers) n point c ⟨w, points, found, memory, log⟩ := by
  obtain ⟨store, trail⟩ := w
  simp only [attempt]
  cases store.copyCompound n c.head .empty with
  | none => exact Step.followed_of_eq fun _ _ => rfl
  | some h =>
    obtain ⟨head, r, store⟩ := h
    simp only
    cases unify n point.goal.compound.toTerm head.toTerm ⟨store, trail⟩ with
    | cutOff => exact Step.followed_of_eq fun _ _ => rfl
    | failure e w => exact Step.followed_of_eq fun _ _ => rfl
    | success w =>
      simp only
      cases w.store.copyCompounds n c.body r with
      | none => exact Step.followed_of_eq fun _ _ => rfl
      | some b =>
        obtain ⟨body, r', store'⟩ := b
        exact advance_following src client _ _ _ points found _

theorem step_following (n : Nat) (w : Session A) (points : List (ChoicePoint A)) (found : Nat)
    (memory : σ) :
    (step src client n ⟨w, points, found, memory⟩).Followed fun answers log =>
      step src (client.following answers) n ⟨w, points, found, memory, log⟩ := by
  cases points with
  | nil => exact Step.followed_of_eq fun _ _ => rfl
  | cons point points =>
    simp only [step]
    split
    · exact Step.followed_of_eq fun _ _ => rfl
    · exact attempt_following src client n point _ _ _ found memory

/-- The client that follows the answers given in a run takes the same course.  `calls`
    are the matches, each with the answer; the log comes to hold them. -/
theorem run_following (n : Nat) (w : Session A) (points : List (ChoicePoint A)) (found : Nat)
    (memory : σ) {halted : Bool} {s' : State A σ}
    (h : run src client n ⟨w, points, found, memory⟩ = some (halted, s')) :
    ∃ calls : List (Store A × Signal), ∀ answers log,
      (∀ i p, calls[i]? = some p → answers (log.length + i) = p.2) →
      run src (client.following answers) n ⟨w, points, found, memory, log⟩ =
        some (halted, ⟨s'.session, s'.points, s'.found, s'.memory, log ++ calls⟩) := by
  induction n generalizing w points found memory with
  | zero => cases h
  | succ n ih =>
    obtain ⟨call, hcall⟩ := step_following src client n w points found memory
    -- the first step takes its answer from the front of the log
    have hfirst : ∀ answers log (calls : List (Store A × Signal)),
        (∀ i p, (call.toList ++ calls)[i]? = some p → answers (log.length + i) = p.2) →
        step src (client.following answers) n ⟨w, points, found, memory, log⟩ =
          (step src client n ⟨w, points, found, memory⟩).logging (log ++ call.toList) := by
      intro answers log calls h
      refine hcall answers log fun p hp => ?_
      subst hp
      exact h 0 p rfl
    rw [run] at h
    cases hstep : step src client n ⟨w, points, found, memory⟩ with
    | cutOff =>
      rw [hstep] at h
      cases h
    | done halted s =>
      rw [hstep] at h
      cases h
      refine ⟨call.toList, fun answers log hlog => ?_⟩
      rw [run, hfirst answers log [] (by rwa [List.append_nil]), hstep]
      rfl
    | next s =>
      rw [hstep] at h
      -- the rest of the run goes on with the log as the step has left it
      obtain ⟨calls, hcalls⟩ := ih _ _ _ _ h
      refine ⟨call.toList ++ calls, fun answers log hlog => ?_⟩
      rw [run, hfirst answers log calls hlog, hstep]
      show run src (client.following answers) n ⟨_, _, _, _, log ++ call.toList⟩ = _
      rw [hcalls answers (log ++ call.toList) fun i p hp => ?_, List.append_assoc]
      -- the answers after the first are those of the rest of the run
      rw [List.length_append, Nat.add_assoc]
      refine hlog _ p ?_
      rw [List.getElem?_append_right (Nat.le_add_right _ _), Nat.add_sub_cancel_left]
      exact hp

/-- Without goals the client is asked once. -/
theorem enumerate_nil (n : Nat) (s : Store A) (memory : σ) :
    enumerate src client n [] s memory =
      (client.answer s (client.note s (.opened 0) memory)).map fun (signal, s, m) =>
        close client (signal = .halt) 1 s m := by
  unfold enumerate
  simp only [List.length_nil]
  cases client.answer s (client.note s (.opened 0) memory) <;> rfl

/-- With goals there is a run, and then all bindings are taken back. -/
theorem enumerate_cons (n : Nat) (g : Compound A) (rest : List (Compound A)) (s : Store A)
    (memory : σ) :
    enumerate src client n (g :: rest) s memory =
      (run src client n ⟨⟨s, .start src.options.occursCheck⟩,
        [.start src ⟨g, 0⟩ (rest.map (⟨·, 0⟩)) 0], 0,
        client.note s (.opened (g :: rest).length) memory⟩).map fun (halted, s) =>
          close client halted s.found (s.session.undoTo 0).store s.memory := by
  unfold enumerate
  simp only
  split
  · next h => rw [h]; rfl
  · next h => rw [h]; rfl

/-- Every enumeration is that of a client that follows the answers given in it. -/
theorem enumerate_following (n : Nat) (goals : List (Compound A)) (s : Store A) (memory : σ)
    {ending : Ending} {s' : Store A} {memory' : σ}
    (h : enumerate src client n goals s memory = some (ending, s', memory')) :
    ∃ calls : List (Store A × Signal), ∀ answers,
      (∀ i p, calls[i]? = some p → answers i = p.2) →
      enumerate src (client.following answers) n goals s (memory, []) =
        some (ending, s', memory', calls) := by
  cases goals with
  | nil =>
    rw [enumerate_nil] at h
    obtain ⟨⟨signal, s₁, m₁⟩, hanswer, he⟩ := Option.map_eq_some_iff.mp h
    refine ⟨[(s, signal)], fun answers hlog => ?_⟩
    have hfirst : answers 0 = signal := hlog 0 _ rfl
    subst hfirst
    cases he
    rw [enumerate_nil]
    simp only [Client.following, hanswer, Option.map_some]
    rfl
  | cons g rest =>
    rw [enumerate_cons] at h
    obtain ⟨⟨halted, state⟩, hrun, he⟩ := Option.map_eq_some_iff.mp h
    obtain ⟨calls, hcalls⟩ := run_following src client n _ _ _ _ hrun
    refine ⟨calls, fun answers hlog => ?_⟩
    have hlog' : ∀ i p, calls[i]? = some p →
        answers (([] : List (Store A × Signal)).length + i) = p.2 := by
      intro i p hp
      rw [List.length_nil, Nat.zero_add]
      exact hlog i p hp
    have hsame := hcalls answers [] hlog'
    cases he
    rw [enumerate_cons]
    show Option.map _ (run src (client.following answers) n
      ⟨_, _, 0, client.note s (.opened (g :: rest).length) memory, []⟩) = _
    rw [hsame]
    rfl

end Search

end Horn
