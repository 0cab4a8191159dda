import Horn.Proofs.DepthFilter
import Horn.Proofs.SignatureIndex

/-! # Adding clauses only adds answers

    With a further clause a search has more to try, at every goal of its signature and at
    any depth, and comes back to what it would have tried without it.  As an exploration
    has no history but its stack, this can be said of stacks alone:

    * `Frame.Enlarged`: a frame for the same goals in the same store, with the same
      candidates and perhaps others among them.
    * `Frame.step_enlarged`: a step of the larger frame is one of the other, but for frames
      of candidates that the other does not have.
    * `tell_enlarged`: so whatever stands between the frames of a stack, what the stack
      tells is told again, in the same order.

    Main statement: `added_clause_only_adds_matches`. -/

namespace Horn

universe u v w

variable {A : Type u} {σ : Type v} {τ : Type w}

namespace Search

/-! ## More candidates -/

/-- Under every signature `src'` has the clauses that `src` has, in the same order, and
    perhaps others among them.  It is searched with the same options. -/
structure Source.Enlarged (src src' : Source A) : Prop where
  clauses : ∀ f, (src.clausesFor f).Sublist (src'.clausesFor f)
  options : src'.options = src.options

/-- The frames are for the same goals in the same store, and `f'` has the candidates of
    `f`, in the same order, and perhaps others among them. -/
structure Frame.Enlarged (f f' : Frame A) : Prop where
  goal : f'.goal = f.goal
  rest : f'.rest = f.rest
  store : f'.store = f.store
  candidates : f.candidates.Sublist f'.candidates

/-- The frames of `fs` stand in `fs'` in the same order, each perhaps enlarged, and others
    may stand between them. -/
abbrev StackEnlarged (fs fs' : List (Frame A)) : Prop :=
  List.SublistForall₂ Frame.Enlarged fs fs'

section stack

variable {fs fs' gs gs' : List (Frame A)}

/-- Further frames on top make no difference. -/
theorem StackEnlarged.under (h : StackEnlarged fs fs') (opened : List (Frame A)) :
    StackEnlarged fs (opened ++ fs') := by
  induction opened with
  | nil => exact h
  | cons f opened ih => exact .cons_right ih

theorem StackEnlarged.append (h : StackEnlarged fs fs') (h' : StackEnlarged gs gs') :
    StackEnlarged (fs ++ gs) (fs' ++ gs') := by
  induction h with
  | nil => exact h'.under _
  | cons hf _ ih => exact .cons hf ih
  | cons_right _ ih => exact .cons_right ih

end stack

section steps

variable {src src' : Source A} (hsrc : src.Enlarged src')
include hsrc

/-- A frame is opened for the same goal, or on neither side. -/
theorem onward_enlarged (goals : List (Goal A)) (s : Store A) :
    (onward src' goals s).1 = (onward src goals s).1 ∧
      StackEnlarged (onward src goals s).2 (onward src' goals s).2 := by
  cases goals with
  | nil => exact ⟨rfl, .nil⟩
  | cons g rest =>
    unfold onward
    simp only [hsrc.options]
    by_cases hdeep : tooDeep src.options g.depth = true
    · simp only [hdeep, if_true]
      exact ⟨trivial, .nil⟩
    · simp only [hdeep, Bool.false_eq_true, if_false]
      exact ⟨trivial, .cons ⟨rfl, rfl, rfl, hsrc.clauses _⟩ .nil⟩

variable [DecidableEq A]

/-- When the larger frame takes a step, so does the other, to a stack that is enlarged by
    what the larger one leads to; or the clause is not among its candidates, and it is
    still enlarged by what remains. -/
theorem Frame.step_enlarged {n : Nat} {f f' : Frame A} {view : Option (Store A)}
    {frames' : List (Frame A)} (hf : f.Enlarged f') (h : f'.step src' n = some (view, frames')) :
    (∃ frames, f.step src n = some (view, frames) ∧ StackEnlarged frames frames') ∨
      StackEnlarged [f] frames' := by
  obtain ⟨g, rest, cs, s⟩ := f
  obtain ⟨g', rest', cs', s'⟩ := f'
  obtain ⟨hgoal, hrest, hstore, hcands⟩ := hf
  simp only at hgoal hrest hstore hcands
  subst hgoal hrest hstore
  cases hcands with
  | slnil =>
    cases h
    exact .inl ⟨[], rfl, .nil⟩
  | @cons _ cs' c hcands =>
    -- the clause is a new one, and the frame that remains has all the others
    right
    have hremains : StackEnlarged [⟨g', rest', cs, s'⟩] [⟨g', rest', cs', s'⟩] :=
      .cons ⟨rfl, rfl, rfl, hcands⟩ .nil
    obtain ⟨o, -, he⟩ := Option.map_eq_some_iff.mp h
    cases o with
    | none =>
      cases he
      exact hremains
    | some r =>
      cases he
      exact hremains.under _
  | @cons_cons cs cs' c hcands =>
    -- both frames try the same clause
    left
    have hremains : StackEnlarged [⟨g', rest', cs, s'⟩] [⟨g', rest', cs', s'⟩] :=
      .cons ⟨rfl, rfl, rfl, hcands⟩ .nil
    obtain ⟨o, ho, he⟩ := Option.map_eq_some_iff.mp h
    rw [hsrc.options] at ho
    rw [Frame.step, ho]
    cases o with
    | none =>
      cases he
      exact ⟨_, rfl, hremains⟩
    | some r =>
      let goals := r.1.map (Goal.mk · (g'.depth + 1)) ++ rest'
      obtain ⟨hview, hopened⟩ := onward_enlarged hsrc goals r.2
      have heq : ((onward src' goals r.2).1, (onward src' goals r.2).2 ++ [⟨g', rest', cs', s'⟩]) =
          (view, frames') := he
      obtain ⟨rfl, rfl⟩ := Prod.mk.inj heq
      refine ⟨(onward src goals r.2).2 ++ [⟨g', rest', cs, s'⟩], ?_, hopened.append hremains⟩
      rw [hview]
      rfl

/-- **What a stack tells, an enlarged one tells as well**, in the same order.  The induction
    is on the steps of the larger one, above whose further frames the other stands still. -/
theorem tell_enlarged {n : Nat} {fs fs' : List (Frame A)} {l' : List (Store A × Nat)}
    (hfs : StackEnlarged fs fs') (h : tell src' n fs' = some l') :
    ∃ l, tell src n fs = some l ∧ (l.map Prod.fst).Sublist (l'.map Prod.fst) := by
  induction n generalizing fs fs' l' with
  | zero => cases h
  | succ n ih =>
    cases hfs with
    | nil => exact ⟨[], rfl, List.nil_sublist _⟩
    | cons_right hfs =>
      obtain ⟨view, frames', l₁, -, hl₁, rfl⟩ := step_of_tell h
      obtain ⟨l, hl, hsub⟩ := ih (StackEnlarged.under hfs frames') hl₁
      refine ⟨l, tell_succ hl, ?_⟩
      rw [List.map_append]
      exact hsub.trans (List.sublist_append_right ..)
    | @cons f f' fs fs' hf hfs =>
      obtain ⟨view, frames', l₁, hstep', hl₁, rfl⟩ := step_of_tell h
      rcases Frame.step_enlarged hsrc hf hstep' with ⟨frames, hstep, hframes⟩ | hremains
      · obtain ⟨l, hl, hsub⟩ := ih (hframes.append hfs) hl₁
        refine ⟨view.toList.map (·, deepest (frames ++ fs)) ++ l, ?_, ?_⟩
        · rw [tell_cons hstep, hl]
          rfl
        · -- the match is the same, if it is one, though its tag may not be
          rw [List.map_append, List.map_append, List.map_map, List.map_map]
          exact (List.Sublist.refl _).append hsub
      · obtain ⟨l, hl, hsub⟩ := ih (hremains.append hfs) hl₁
        refine ⟨l, tell_succ hl, ?_⟩
        rw [List.map_append]
        exact hsub.trans (List.sublist_append_right ..)

theorem tellGoals_enlarged {n : Nat} {goals : List (Compound A)} {s : Store A}
    {l' : List (Store A × Nat)} (h : tellGoals src' n goals s = some l') :
    ∃ l, tellGoals src n goals s = some l ∧ (l.map Prod.fst).Sublist (l'.map Prod.fst) := by
  cases goals with
  | nil =>
    cases h
    exact ⟨_, rfl, List.Sublist.refl _⟩
  | cons g rest =>
    have hstart : (Frame.start src ⟨g, 0⟩ (rest.map (⟨·, 0⟩)) s).Enlarged
        (.start src' ⟨g, 0⟩ (rest.map (⟨·, 0⟩)) s) := ⟨rfl, rfl, rfl, hsrc.clauses _⟩
    exact tell_enlarged hsrc (.cons hstart .nil) h

end steps

end Search

/-! ## Queries -/

/-- What is related to a part of a list is related to a part of what else is. -/
theorem sublistForall₂_of_common {α β γ : Type*} {R : α → β → Prop} {S : α → γ → Prop}
    {T : β → γ → Prop} (hT : ∀ a b c, R a b → S a c → T b c) {as as' : List α} {bs : List β}
    {cs : List γ} (has : as.Sublist as') (hR : List.Forall₂ R as bs)
    (hS : List.Forall₂ S as' cs) : List.SublistForall₂ T bs cs := by
  induction has generalizing bs cs with
  | slnil =>
    cases hR
    exact .nil
  | cons a _ ih =>
    cases hS with
    | cons _ hrest => exact .cons_right (ih hR hrest)
  | cons_cons a _ ih =>
    cases hR with
    | cons hab hrest =>
      cases hS with
      | cons hac hrest' => exact .cons (hT _ _ _ hab hac) (ih hrest hrest')

section queries

variable [DecidableEq A] {p : Program A} {c : Clause A} {goals : List (Compound A)} {s : Store A}

theorem Program.enlarged_add (p : Program A) (c : Clause A) :
    p.source.Enlarged (p.add c).source where
  clauses f := by
    show (p.clausesFor f).Sublist ((p.add c).clausesFor f)
    rw [Program.clausesFor_add]
    exact List.sublist_append_left ..
  options := rfl

theorem Program.Made.of_add (h : (p.add c).Made goals s) : p.Made goals s where
  consistent := h.consistent
  inScope := h.inScope
  goals := h.goals
  clauses d hd := h.clauses d (Program.mem_flatMap_file.mpr (.inr hd))

theorem Program.Made.add (h : p.Made goals s) (hc : ∀ g ∈ c.head :: c.body, g.Within s.Born) :
    (p.add c).Made goals s where
  consistent := h.consistent
  inScope := h.inScope
  goals := h.goals
  clauses d hd := by
    rcases Program.mem_flatMap_file.mp hd with rfl | hd
    · exact hc
    · exact h.clauses d hd

/-- The stores told of by an exploration look like those in which the query has called its
    client, if that always goes on and the query has returned. -/
theorem Program.Made.calls_told {client : Client A σ} (h : p.Made goals s)
    (hc : Faithful client.answer) (hscope : InScope s.nextVar client.answer)
    (hproceed : ∀ s m r, client.answer s m = some r → r.1 = .proceed) {n : Nat} {memory : σ}
    {r : Ending × Store A × σ} (hrun : p.enumerate client n goals s memory = some r) :
    (∃ l, Search.tellGoals p.source n goals s = some l ∧
      List.Forall₂ (fun view call => s.nextVar ≤ view.nextVar ∧ Store.SameView s.nextVar view call)
        (l.map Prod.fst) (p.calls client n goals s memory)) ∧
    r.1 = .exhausted (p.calls client n goals s memory).length := by
  obtain ⟨⟨l, hl, hcalled⟩, hending⟩ := h.tells hc hscope hproceed hrun
  rw [← p.tagged_map_fst client n goals s memory, List.length_map]
  refine ⟨⟨l, hl, ?_⟩, hending⟩
  rw [List.forall₂_map_left_iff, List.forall₂_map_right_iff]
  exact hcalled.imp fun _ _ hcall => hcall.1

/-- **Adding a clause only adds answers.**  Let the clients always go on and leave the store
    as they find it, and let a query come to its end both before and after a clause has been
    added to the program.

    Then the matches before are among those after, in the same order: each of them is
    reported in a store that looks the same from all variables made before the query.  What
    stands between them has come of the new clause. -/
theorem added_clause_only_adds_matches {client : Client A σ} {client' : Client A τ}
    (h : (p.add c).Made goals s) (hc : Faithful client.answer) (hc' : Faithful client'.answer)
    (hscope : InScope s.nextVar client.answer) (hscope' : InScope s.nextVar client'.answer)
    (hproceed : ∀ s m r, client.answer s m = some r → r.1 = .proceed)
    (hproceed' : ∀ s m r, client'.answer s m = some r → r.1 = .proceed) {n n' : Nat}
    {memory : σ} {memory' : τ} {r : Ending × Store A × σ} {r' : Ending × Store A × τ}
    (hrun : p.enumerate client n goals s memory = some r)
    (hrun' : (p.add c).enumerate client' n' goals s memory' = some r') :
    let before := p.calls client n goals s memory
    let after := (p.add c).calls client' n' goals s memory'
    (r.1 = .exhausted before.length ∧ r'.1 = .exhausted after.length) ∧
    List.SublistForall₂ (Store.SameFrom s.nextVar) before after := by
  intro before after
  obtain ⟨⟨l, hl, hcalls⟩, hending⟩ := h.of_add.calls_told hc hscope hproceed hrun
  obtain ⟨⟨l', hl', hcalls'⟩, hending'⟩ := h.calls_told hc' hscope' hproceed' hrun'
  refine ⟨⟨hending, hending'⟩, ?_⟩
  -- what is told with the clause contains what is told without it, at one number of levels
  obtain ⟨l₁, hl₁, hsub⟩ := Search.tellGoals_enlarged (p.enlarged_add c) hl'
  obtain rfl : l₁ = l := by
    have hboth := Search.tellGoals_mono (Nat.le_max_left n n') hl
    rw [Search.tellGoals_mono (Nat.le_max_right n n') hl₁] at hboth
    exact Option.some.inj hboth
  apply sublistForall₂_of_common _ hsub hcalls hcalls'
  intro view call call' hcall hcall'
  exact hcall.2.sameFrom hcall'.2 hcall.1

end queries

/-! ### Another fact -/

/-- The query `3(Y), 0(X)` has four matches in `0(1).  0(2).  3(X) if 0(X).`, and nine once
    the fact `0(4)` has been added.  The four are among the nine, not all at their beginning. -/
theorem four_matches_among_nine :
    let names (view : Store Nat) := [⟨1⟩, ⟨0⟩].map fun x => (view.value x).map Compound.name
    let goals : List (Compound Nat) := [⟨3, [.var ⟨1⟩]⟩, ⟨0, [.var ⟨0⟩]⟩]
    let before := evens.calls throughout 20 goals (Store.empty.freshMany 2).2 ()
    let after := (evens.add (.fact ⟨0, [.app 4 []]⟩)).calls throughout 30 goals
      (Store.empty.freshMany 2).2 ()
    before.map names = [[some 1, some 1], [some 1, some 2], [some 2, some 1], [some 2, some 2]] ∧
    (after.map names).take 5 = [[some 1, some 1], [some 1, some 2], [some 1, some 4],
      [some 2, some 1], [some 2, some 2]] ∧
    List.SublistForall₂ (Store.SameFrom 2) before after := by
  intro names goals before after
  have hrun : (evens.enumerate throughout 20 goals (Store.empty.freshMany 2).2 ()).map (·.1) =
      some (.exhausted 4) := by decide +kernel
  have hrun' : ((evens.add (.fact ⟨0, [.app 4 []]⟩)).enumerate throughout 30 goals
      (Store.empty.freshMany 2).2 ()).map (·.1) = some (.exhausted 9) := by decide +kernel
  obtain ⟨r, hrun, -⟩ := Option.map_eq_some_iff.mp hrun
  obtain ⟨r', hrun', -⟩ := Option.map_eq_some_iff.mp hrun'
  have hproceed : ∀ s m r, throughout.answer s m = some r → r.1 = .proceed := by
    intro s m r hr
    cases hr
    rfl
  have hmade : evens.Made goals (Store.empty.freshMany 2).2 := by
    refine ⟨evens_askable.consistent, evens_askable.inScope, ?_, evens_askable.madeClauses⟩
    intro g hg
    simp only [goals, List.mem_cons, List.not_mem_nil, or_false] at hg
    rcases hg with rfl | rfl
    · exact Compound.within_of_var Nat.one_lt_two
    · exact Compound.within_of_var Nat.zero_lt_two
  have hfact : ∀ g ∈ (Clause.fact ⟨0, [.app 4 []]⟩ : Clause Nat).head :: [],
      g.Within (Store.empty.freshMany 2 : List Var × Store Nat).2.Born := by
    intro g hg x hx
    simp [List.mem_singleton.mp hg, Clause.fact, Compound.mentions_iff] at hx
  have hall := added_clause_only_adds_matches (hmade.add hfact) throughout_faithful
    throughout_faithful (throughout_inScope 2) (throughout_inScope 2) hproceed hproceed hrun hrun'
  exact ⟨by decide +kernel, by decide +kernel, hall.2⟩

end Horn
