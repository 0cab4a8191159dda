import Horn.Proofs.Attempts
import Horn.Proofs.Calls

/-! # How deep goals are nested

    To expand a goal by a clause is to put the body of the clause in its place.  Each goal
    of the body is nested in one expansion more than the goal was, and the goals after it
    are nested as they were.  `Nested` counts that along the goals of the choice points,
    the clauses they have been expanded by, and nothing else: it does not see the depths
    that a search keeps with its goals.

    In every state that a search comes to these depths are the numbers so counted, and
    there is no choice point for a goal that lies too deep: `ComesTo.tallied`. -/

namespace Horn.Search

universe u v

variable {A : Type u} {σ : Type v}

/-! ## Counting expansions -/

/-- The goals of a choice point, the one to be expanded first. -/
def ChoicePoint.goals (p : ChoicePoint A) : List (Goal A) := p.goal :: p.rest

/-- The same without their depths. -/
def ChoicePoint.compounds (p : ChoicePoint A) : List (Compound A) := p.goals.map Goal.compound

/-- From the goals of a query clauses have led to a stack of conjunctions, newest first,
    and the newest consists of these goals, each nested in so many expansions. -/
inductive Nested (src : Source A) (query : List (Compound A)) :
    List (List (Compound A)) → List (Compound A × Nat) → Prop where
  | query : Nested src query [query] (query.map (·, 0))
  | expand {stack : List (List (Compound A))} {g : Compound A} {k : Nat}
      {later : List (Compound A × Nat)} {c : Clause A} {body goals : List (Compound A)} :
      Nested src query stack ((g, k) :: later) → c ∈ src.clausesFor g.signature →
      body.map Compound.signature = c.body.map Compound.signature →
      goals = body ++ later.map Prod.fst →
      Nested src query (goals :: stack) (body.map (·, k + 1) ++ later)

/-- There is one way to count. -/
theorem Nested.unique {src : Source A} {query : List (Compound A)}
    {stack : List (List (Compound A))} {l l' : List (Compound A × Nat)}
    (h : Nested src query stack l) (h' : Nested src query stack l') : l = l' := by
  induction h generalizing l' with
  | query =>
    cases h' with
    | query => rfl
    | expand hstack => cases hstack
  | expand hstack _ _ hgoals ih =>
    cases h' with
    | query => cases hstack
    | expand hstack' _ _ hgoals' =>
      -- the goals that were there before are the same, and so are those of the body
      obtain ⟨hfirst, rfl⟩ := List.cons.inj (ih hstack')
      cases hfirst
      rw [List.append_cancel_right (hgoals.symm.trans hgoals')]

/-! ## Depths are such counts -/

/-- In every choice point of the stack the depths of the goals count the expansions, the
    first goal lies not too deep, and the candidates are clauses of its signature. -/
inductive Tallied (src : Source A) (query : List (Compound A)) : List (ChoicePoint A) → Prop where
  | nil : Tallied src query []
  | cons {p : ChoicePoint A} {points : List (ChoicePoint A)} :
      Nested src query ((p :: points).map ChoicePoint.compounds)
        (p.goals.map fun g => (g.compound, g.depth)) →
      (∀ c ∈ p.candidates, c ∈ src.clausesFor p.goal.compound.signature) →
      tooDeep src.options p.goal.depth = false → Tallied src query points →
      Tallied src query (p :: points)

section tallied

variable {src : Source A} {client : Client A σ} {query : List (Compound A)}

theorem advance_tallied (depth : Nat) {goals : List (Goal A)} {s : State A σ}
    (hs : Tallied src query s.points)
    (hgoals : Nested src query (goals.map Goal.compound :: s.points.map ChoicePoint.compounds)
      (goals.map fun g => (g.compound, g.depth))) :
    (advance src client depth goals s).All fun t => Tallied src query t.points := by
  refine advance_all_of (fun _ _ _ _ _ => hs) (fun _ => hs) fun g rest he hdeep => ?_
  subst he
  exact .cons hgoals (fun _ hc => hc) hdeep hs

variable [DecidableEq A]

/-- What an attempt leaves of the body has the signatures that the clause's body has. -/
theorem tryClause_signatures {n : Nat} {goal : Compound A} {c : Clause A} {w w' : Session A}
    {body : List (Compound A)} (h : tryClause n goal c w = some (w', some body)) :
    body.map Compound.signature = c.body.map Compound.signature := by
  obtain ⟨head, p, -, ⟨_, _, -, -, he⟩ | ⟨v, _, q, -, hbody, -, he⟩⟩ := tryClause_cases h
  · cases he
  · cases he
    exact copyGoals_signatures hbody

theorem step_tallied (n : Nat) (s : State A σ) (hs : Tallied src query s.points) :
    (step src client n s).All fun t => Tallied src query t.points := by
  obtain ⟨w, points, found, memory⟩ := s
  cases hs with
  | nil => exact .nil
  | @cons p points hnested hcands hdeep hpoints =>
    -- that a candidate has been tried makes no difference
    have hlater : Tallied src query (p.tried :: points) := .cons hnested hcands hdeep hpoints
    refine step_all_of_cons (fun _ => hpoints) (fun _ _ _ _ _ => hlater) ?_
    intro c w' body memory' hcand htry
    refine advance_tallied p.goal.depth hlater ?_
    -- the body has taken the place of the goal, one expansion deeper
    have hexpand := Nested.expand hnested (hcands c (List.mem_of_getElem? hcand))
      (tryClause_signatures htry) rfl
    simpa [List.map_append, Function.comp_def, ChoicePoint.compounds, ChoicePoint.goals,
      ChoicePoint.tried] using hexpand

/-! ## All states -/

/-- The states that a search comes to from `s₀`, whatever levels its steps are permitted. -/
inductive ComesTo (src : Source A) (client : Client A σ) (s₀ : State A σ) : State A σ → Prop where
  | start : ComesTo src client s₀ s₀
  | step {n : Nat} {s t : State A σ} :
      ComesTo src client s₀ s → step src client n s = .next t → ComesTo src client s₀ t

/-- What every step keeps holds of every state that a search comes to. -/
theorem ComesTo.all {s₀ s : State A σ} {P : State A σ → Prop}
    (hstep : ∀ n s, P s → (Search.step src client n s).All P) (h : ComesTo src client s₀ s)
    (h₀ : P s₀) : P s := by
  induction h with
  | start => exact h₀
  | @step n s t _ hnext ih =>
    have hall := hstep n s ih
    rwa [hnext] at hall

theorem ComesTo.tallied {g : Compound A} {rest : List (Compound A)} {store : Store A} {memory : σ}
    {s : State A σ} (h : ComesTo src client (Search.start src g rest store memory) s) :
    Tallied src (g :: rest) s.points := by
  refine h.all step_tallied ?_
  have hquery : Nested src (g :: rest) _ _ := .query
  refine .cons ?_ (fun _ hc => hc) (tooDeep_zero src.options) .nil
  simpa [Function.comp_def, ChoicePoint.compounds, ChoicePoint.goals, ChoicePoint.start]
    using hquery

end tallied

end Horn.Search
