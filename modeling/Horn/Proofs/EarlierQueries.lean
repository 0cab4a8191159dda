import Horn.Proofs.Conjunctions

/-! # Queries do not depend on earlier ones

    A query leaves the store as it found it, but not without a trace: numbers of variables
    and classes have been used up, abandoned classes stay behind, and the classes of old
    variables may list these in another order.

    No later query can tell.  After any series of queries, to any programs, what is in the
    store is still *kept* (`Store.Queried.asFound`), so it shows in the store that they
    leave; and a query explores the same from any store in which one and the same store
    shows.

    Main statement: `earlier_queries_make_no_difference`. -/

namespace Horn

universe u v

variable {A : Type u} {σ : Type v} [DecidableEq A]

/-! ## A series of queries -/

/-- The second store is what queries have made of the first, one after the other.  Each is
    put to a program of its own, with goals over what had been made by then, and each has a
    client of its own, which leaves the store as it finds it: it may stop its query at any
    match, or run further queries there. -/
inductive Store.Queried (s : Store A) : Store A → Prop where
  | none : s.Queried s
  | query {s₁ s₂ : Store A} {σ : Type v} {p : Program A} {client : Client A σ} {n : Nat}
      {goals : List (Compound A)} {memory memory' : σ} {ending : Ending} :
      s.Queried s₁ → Faithful client.answer → InScope s₁.nextVar client.answer →
      (∀ g ∈ goals, g.Within s₁.Born) →
      p.enumerate client n goals s₁ memory = some (ending, s₂, memory') → s.Queried s₂

section queried

variable {s s' : Store A}

/-- What a series of queries leaves is as it was found, and all in it has been made. -/
theorem Store.Queried.asFound (h : Store.Queried.{u, v} s s') (hs : s.Consistent)
    (hscope : s.Scoped s.nextVar) : s.AsFound s' ∧ s'.Scoped s'.nextVar := by
  induction h with
  | none => exact ⟨.refl hs, hscope⟩
  | @query s₁ s₂ σ p client n goals memory memory' ending _ hc hclient hgoals hrun ih =>
    obtain ⟨hfound, hscoped⟩ := ih
    have hnext : s₁.AsFound s₂ :=
      p.enumerate_faithful hc n goals s₁ memory ending s₂ memory' hfound.consistent hrun
    have hnextScoped : s₂.Scoped s₂.nextVar :=
      Search.enumerate_inScope hc hclient n hgoals s₁ memory ending s₂ memory' (Nat.le_refl _)
        hfound.consistent hscoped hrun
    exact ⟨hfound.trans hs hnext, hnextScoped⟩

/-- In such a store one can work, and the first store shows in it under the same names. -/
theorem Store.Queried.shows (h : Store.Queried.{u, v} s s') (hs : s.Consistent)
    (hscope : s.Scoped s.nextVar) : s'.Workable s.nextVar ∧ s.Shows s.nextVar id s' := by
  obtain ⟨hfound, hscoped⟩ := h.asFound hs hscope
  have hself : s.Shows s.nextVar id s := hscope.shows s.nextVar
  exact ⟨⟨hfound.consistent, hscoped, hfound.kept.nextVar_le⟩, hself.kept hs hfound.kept⟩

end queried

/-! ## The next query -/

section queries

variable {p : Program A} {goals : List (Compound A)} {s s' : Store A} {client : Client A σ}

/-- **Queries do not depend on earlier ones.**  Let a series of queries have been put since
    store `s`, to any programs, each of them exhausted or stopped, perhaps with further
    queries in between; and let the client of the next query leave the store as it finds it
    and come to an answer at every match.

    When the next query returns, the client has given some sequence of answers, and
    following these is what it did.  Whatever answers it follows, at whatever number of
    levels: the query returns after the earlier ones just if it does without, with the same
    ending; then the client has been called equally often, and each time in stores that
    look the same from all variables made before. -/
theorem earlier_queries_make_no_difference (h : p.Made goals s)
    (hqueried : Store.Queried.{u, v} s s') (hc : Faithful client.answer)
    (hscope : InScope s.nextVar client.answer) (htotal : ∀ s m, client.answer s m ≠ none)
    (memory memory' : σ) :
    (∀ n ending t m, p.enumerate client n goals s' memory' = some (ending, t, m) →
      ∃ calls : List (Store A × Signal), ∀ answers,
        (∀ k call, calls[k]? = some call → answers k = call.2) →
        p.enumerate (client.following answers) n goals s' (memory', []) =
          some (ending, t, m, calls)) ∧
    ∀ answers n, Option.Rel
      (fun q q' => q'.1 = q.1 ∧
        List.Forall₂ (fun call call' => call.1.SameFrom s.nextVar call'.1) q.2.2.2 q'.2.2.2)
      (p.enumerate (client.following answers) n goals s (memory, []))
      (p.enumerate (client.following answers) n goals s' (memory', [])) := by
  obtain ⟨hworkable, hshows⟩ := hqueried.shows h.consistent h.inScope
  refine ⟨fun n ending t m hrun => Search.enumerate_following p.source client n goals s' memory'
    hrun, fun answers n => ?_⟩
  -- one exploration, from the first store, and two queries that go in step with it
  have hlike := Client.following_answersLike hc hscope htotal answers
  have hfirst := Search.enumerate_explored h.old hlike n h.goals (h.inScope.shows s.nextVar)
    h.workable h.workable (memory, [])
  have hsecond := Search.enumerate_explored h.old hlike n h.goals hshows h.workable hworkable
    (memory', [])
  unfold Program.enumerate
  cases hq : Search.enumerate p.source (client.following answers) n goals s (memory, []) with
  | none =>
    cases hq' : Search.enumerate p.source (client.following answers) n goals s' (memory', []) with
    | none => exact .none
    | some q' =>
      obtain ⟨r, hr, -⟩ := exists_left_of_rel hsecond hq'
      obtain ⟨q, hq'', -⟩ := exists_right_of_rel hfirst hr
      rw [hq] at hq''
      cases hq''
  | some q =>
    obtain ⟨r, hr, hlog⟩ := exists_left_of_rel hfirst hq
    obtain ⟨q', hq', hlog'⟩ := exists_right_of_rel hsecond hr
    rw [hq']
    exact .some (Search.sameQuery_of_logged hq hq' hlog hlog')

end queries

/-! ### After a query that was stopped -/

/-- In `0(1).  0(2).  3(X) if 0(X).` a query for `3(Y)` is stopped at its first match, at which
    `0(Y)` has been asked.  The next query for `3(Y)` has two matches, as it would have had
    before. -/
theorem two_matches_after_stopped_query :
    ∃ s', (evens.enumerate (atOnce.asking atOnce evens 20 [⟨0, [.var ⟨1⟩]⟩]) 20
        [⟨3, [.var ⟨1⟩]⟩] (Store.empty.freshMany 2).2 ()).map (·.2.1) = some s' ∧
      ∃ t m calls t' m' calls',
        evens.enumerate (throughout.following fun _ => .proceed) 20 [⟨3, [.var ⟨1⟩]⟩]
            (Store.empty.freshMany 2).2 ((), []) = some (.exhausted 2, t, m, calls) ∧
        evens.enumerate (throughout.following fun _ => .proceed) 20 [⟨3, [.var ⟨1⟩]⟩] s' ((), []) =
            some (.exhausted 2, t', m', calls') ∧
        List.Forall₂ (fun call call' => call.1.SameFrom 2 call'.1) calls calls' := by
  have hstopped : (evens.enumerate (atOnce.asking atOnce evens 20 [⟨0, [.var ⟨1⟩]⟩]) 20
      [⟨3, [.var ⟨1⟩]⟩] (Store.empty.freshMany 2).2 ()).map (·.1) = some (.stopped 1) := by
    decide
  have hplain : (evens.enumerate (throughout.following fun _ => .proceed) 20 [⟨3, [.var ⟨1⟩]⟩]
      (Store.empty.freshMany 2).2 ((), [])).map (·.1) = some (.exhausted 2) := by
    decide
  obtain ⟨⟨_, s', memory⟩, hrun, rfl⟩ := Option.map_eq_some_iff.mp hstopped
  obtain ⟨⟨_, t, m, calls⟩, hfirst, rfl⟩ := Option.map_eq_some_iff.mp hplain
  have hgoal : ∀ g ∈ [(⟨0, [.var ⟨1⟩]⟩ : Compound Nat)], g.Within fun x => x.id < 2 := by
    intro g hg
    rw [List.mem_singleton.mp hg]
    exact Compound.within_of_var Nat.one_lt_two
  have hqueried : Store.Queried.{0, 0} (Store.empty.freshMany 2 : List Var × Store Nat).2 s' := by
    apply Store.Queried.query .none _ _ evens_askable.madeGoals hrun
    · exact (evens.enumerate_faithful atOnce_faithful 20 _).bind fun _ => atOnce_faithful
    · exact Client.asking_inScope (atOnce_inScope 2) atOnce_faithful (atOnce_inScope 2) evens 20
        hgoal
  have hsame := (earlier_queries_make_no_difference evens_askable.made hqueried
    throughout_faithful (throughout_inScope 2) (fun _ _ => nofun) () ()).2 (fun _ => .proceed) 20
  obtain ⟨⟨ending, t', m', calls'⟩, hsecond, rfl, hcalls⟩ := exists_right_of_rel hsame hfirst
  exact ⟨s', by rw [hrun]; rfl, t, m, calls, t', m', calls', hfirst, hsecond, hcalls⟩

end Horn
