import Horn.Proofs.Derivations
import Horn.Proofs.Resolution
import Horn.Proofs.Views

/-! # Answers are sound

    With the occurs check on, whatever a query reports follows from the program: in
    every store in which it calls its client, each goal, fully resolved, has a
    derivation tree.

    Every step of resolution is sound (`headFirst_sound`), so a solution of the store
    that a proof ends in solves the stores it has come through, and turns the steps into
    derivations (`prove_sound`, by induction on the recursion).  What the client sees is
    the end of such a proof. -/

namespace Horn

universe u v

variable {A : Type u} {σ : Type v}

namespace Search

/-- No goal of a query is given up before its first expansion. -/
theorem pruned_start (o : Options) (goals : List (Compound A)) :
    pruned o (goals.map (⟨·, 0⟩)) = false := by
  cases goals with
  | nil => rfl
  | cons g rest => exact tooDeep_zero o

variable [DecidableEq A] {answers : Nat → Signal}

/-- **The recursion is sound.**  A solution of the store of a match solves the store the
    proof began in, and makes each goal one that the program proves. -/
theorem prove_sound (p : Program A) {s₀ : Store A} (n : Nat) {goals : List (Goal A)} {s : Store A}
    {found : Nat} {r : Report A} (hs : Session.Ready ⟨s, .start p.options.occursCheck⟩)
    (hs₀ : ∀ θ, s.Solves θ → s₀.Solves θ) (hpruned : pruned p.options goals = false)
    (h : prove headFirst p.source answers n goals s found = some r) :
    ∀ view ∈ r.views, view.Acyclic ∧ ∀ θ, view.Solves θ →
      s.Solves θ ∧ ∀ g ∈ goals, p.Proves s₀ g.depth (g.compound.toTerm.subst θ) := by
  induction n generalizing goals s found r with
  | zero => cases h
  | succ n ih =>
    intro view hview
    cases goals with
    | nil =>
      -- a match: the store is the one the proof has come to
      cases h
      obtain rfl : view = s := List.mem_singleton.mp hview
      refine ⟨hs.acyclic, fun θ hθ => ⟨hθ, fun g hg => ?_⟩⟩
      cases hg
    | cons g rest =>
      obtain ⟨c, hc, k, r', hexpand, hview'⟩ := exists_clause_of_view h hview
      obtain ⟨gs, s', hres, hpruned', hprove⟩ := exists_step_of_view hexpand hview'
      obtain ⟨hs', hsound⟩ := headFirst_sound hs hres
      obtain ⟨hacyclic, hgoals⟩ :=
        ih hs' (fun θ hθ => hs₀ θ (hsound θ hθ).1) hpruned' hprove view hview'
      refine ⟨hacyclic, fun θ hθ => ?_⟩
      obtain ⟨hθ', hall⟩ := hgoals θ hθ
      obtain ⟨hθs, θc, hθc, hhead, hbody⟩ := hsound θ hθ'
      refine ⟨hθs, fun g' hg' => ?_⟩
      rcases List.mem_cons.mp hg' with rfl | hg'
      · -- the first goal is proved by the clause, whose body is what the new goals become
        refine Program.proves_iff.mpr ⟨hpruned, c, p.mem_clauses hc, θc, hs₀ θc hθc, hhead, ?_⟩
        intro b hb
        have hmem : b.toTerm.subst θc ∈ gs.map fun b' => b'.toTerm.subst θ := by
          rw [hbody]
          exact List.mem_map_of_mem hb
        obtain ⟨b', hb', heq⟩ := List.mem_map.mp hmem
        rw [← heq]
        exact hall ⟨b', g'.depth + 1⟩
          (List.mem_append_left _ (List.mem_map_of_mem hb'))
      · exact hall g' (List.mem_append_right _ hg')

end Search

/-! ## Queries -/

variable [DecidableEq A] {p : Program A} {goals : List (Compound A)} {s : Store A}
  {client : Client A σ}

/-- **Answers are sound.**  Let the goals and the clauses have no class in common, let the
    store be acyclic and the occurs check on, and let the client leave the store as it
    finds it.  In every store in which the client is called, also by a query that never
    returns, each goal has a resolved form.  Whatever is put in for the unbound classes,
    be it a constant for each, the instances of the resolved goals that come about have
    derivation trees, no deeper than the options permit. -/
theorem answers_sound (h : p.Askable goals s) (hs : s.Acyclic)
    (hcheck : p.options.occursCheck = true) (hc : Faithful client.answer)
    (hscope : InScope s.nextVar client.answer) {n : Nat} {memory : σ} {view : Store A}
    (hview : view ∈ p.calls client n goals s memory) (τ : ClassId → Term A) :
    ∀ g ∈ goals, ∃ u, view.Resolves g.toTerm u ∧
      ∃ t : Tree A, t.goal = u.subst (view.assign τ) ∧ t.Proves p s ∧
        ∀ max, p.options.maxDepth = some max → t.height ≤ max := by
  obtain ⟨answers, k, ending, views, hsol, end_, hend, π, hshows⟩ :=
    h.report_of_call hc hscope hview
  have hle := Program.solutions_nextVar_le hsol end_ hend
  obtain ⟨r, hprove, he⟩ := Option.map_eq_some_iff.mp hsol
  cases he
  have hready : Session.Ready ⟨s, .start p.options.occursCheck⟩ :=
    ⟨Session.consistent_start h.consistent _, hs, hcheck⟩
  obtain ⟨hacyclic, hsound⟩ := Search.prove_sound p k hready (fun _ hθ => hθ)
    (Search.pruned_start p.options goals) hprove end_ hend
  -- the choice for the unbound classes of the view reads the end of the proof by a solution
  obtain ⟨θ, hθ, hread⟩ := hshows.exists_solution hle hacyclic τ
  intro g hg
  obtain ⟨u, hu, heq⟩ := hread g.toTerm (h.madeGoals g hg)
  obtain ⟨t, hgoal, hproves, hdepth⟩ := (hsound θ hθ).2 ⟨g, 0⟩ (List.mem_map_of_mem hg)
  refine ⟨u, hu, t, hgoal.trans heq.symm, hproves, fun max hmax => ?_⟩
  have hheight := Search.tooDeep_eq_false_iff.mp hdepth max hmax
  rwa [Nat.zero_add] at hheight

/-! ### A query with two matches -/

/-- The client is called with `3(Y)` proved, by a tree of the permitted height. -/
theorem evens_answered_soundly :
    ∃ view ∈ evens.calls throughout 20 [⟨3, [.var ⟨1⟩]⟩] (Store.empty.freshMany 2).2 (),
      ∃ u, view.Resolves (.app 3 [.var ⟨1⟩]) u ∧
        ∃ t : Tree Nat, t.goal = u.subst (view.assign fun _ => .app 0 []) ∧
          t.Proves evens (Store.empty.freshMany 2).2 ∧ t.height ≤ 2 := by
  have hcalled : (evens.calls throughout 20 [⟨3, [.var ⟨1⟩]⟩]
      (Store.empty.freshMany 2).2 ()).length = 2 := by decide
  obtain ⟨view, hview⟩ :=
    List.exists_mem_of_length_pos (Nat.lt_of_lt_of_eq Nat.zero_lt_two hcalled.symm)
  obtain ⟨u, hu, t, hgoal, ht, hheight⟩ := answers_sound evens_askable evens_acyclic rfl
    throughout_faithful (throughout_inScope 2) hview (fun _ => .app 0 [])
    ⟨3, [.var ⟨1⟩]⟩ (List.mem_singleton_self _)
  exact ⟨view, hview, u, hu, t, hgoal, ht, hheight 2 rfl⟩

end Horn
