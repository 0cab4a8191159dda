import Horn.Proofs.Conjunctions
import Horn.Proofs.SameInstances
import Horn.Proofs.Untouched

/-! # Copied goals have the same answers

    A copy of some goals has new variables in the place of their unbound classes, and the
    values of bound variables written out.  So a search for the copies unifies other terms:
    it meets compounds where a search for the goals meets bound variables, and binds other
    variables.

    Copies have the instances that the goals have (`sameInstances_of_copies`), so both
    searches come to an end or neither does, and they have the same matches up to the names
    of unbound variables.  The variables of the goals are not reached by the copies
    (`unreached_of_copies`) and are left alone.

    Main statement: `answers_independent_of_variables`. -/

namespace Horn

universe u v w

variable {A : Type u} {σ : Type v} {τ : Type w}

/-! ## Copies of goals -/

/-- The goals `gs'` are copies of `gs`, made through one new renaming in the store `s`;
    making them leads to the store `s'`. -/
structure Store.CopiesTo (s : Store A) (gs gs' : List (Compound A)) (p : Copying)
    (s' : Store A) : Prop where
  copied : ∃ n, copyGoals (s.copyTerm n) gs ⟨.empty, s.nextVar⟩ = some (gs', p)
  store : s' = s.setNext p.nextVar

section copies

variable {s s' : Store A} {gs gs' : List (Compound A)} {p : Copying}

theorem Store.copiesTo_of_copyCompounds {n : Nat} {r : Renaming}
    (h : s.copyCompounds n gs .empty = some (gs', r, s')) : ∃ p, s.CopiesTo gs gs' p s' := by
  rw [copyCompounds_eq] at h
  obtain ⟨⟨gs'', p⟩, hcopy, he⟩ := Option.map_eq_some_iff.mp h
  cases he
  exact ⟨p, ⟨n, hcopy⟩, rfl⟩

/-- In an acyclic store all goals can be copied. -/
theorem Store.Acyclic.exists_copyCompounds (hs : s.Acyclic) (gs : List (Compound A)) :
    ∃ n r, s.copyCompounds n gs .empty = some r := by
  have hends : ∀ g ∈ gs, s.Ends g.toTerm := fun g _ => hs.ends g.toTerm
  obtain ⟨n, r, hr⟩ := (Store.exists_copyGoals_iff ⟨.empty, s.nextVar⟩).mpr hends
  refine ⟨n, (r.1, r.2.images, s.setNext r.2.nextVar), ?_⟩
  rw [copyCompounds_eq, hr]
  rfl

namespace Store.CopiesTo

theorem since (h : s.CopiesTo gs gs' p s') : p.Since s.nextVar := by
  obtain ⟨n, hcopy⟩ := h.copied
  exact (s.copyGoals_fresh n hcopy (Copying.since_empty s.nextVar)).2.1

theorem le (h : s.CopiesTo gs gs' p s') : s.nextVar ≤ s'.nextVar := by
  rw [h.store]
  exact h.since.le

/-- Copies are over variables that have been made for them. -/
theorem fresh (h : s.CopiesTo gs gs' p s') :
    ∀ g ∈ gs', g.Within fun y => s.nextVar ≤ y.id ∧ y.id < s'.nextVar := by
  obtain ⟨n, hcopy⟩ := h.copied
  rw [h.store]
  exact (s.copyGoals_fresh n hcopy (Copying.since_empty s.nextVar)).1

theorem proper (h : s.CopiesTo gs gs' p s') : p.Proper := by
  obtain ⟨n, hcopy⟩ := h.copied
  exact (copyGoals_copies hcopy).proper (Copying.proper_empty _)

theorem inScope (h : s.CopiesTo gs gs' p s') (hscope : s.Scoped s.nextVar) :
    s'.Scoped s.nextVar := by
  rw [h.store]
  exact hscope.setNext _

theorem solves_iff (h : s.CopiesTo gs gs' p s') (θ : Var → Term A) :
    s.Solves θ ↔ s'.Solves θ := by
  rw [h.store]
  exact Store.solves_setNext.symm

/-- Of the variables made before, none is in a class that is met in a copy. -/
theorem exists_of_meets (h : s.CopiesTo gs gs' p s') (hscope : s.Scoped s.nextVar)
    {g : Compound A} (hg : g ∈ gs') {d : ClassId} (hd : s'.Meets d g.toTerm) {x : Var}
    (hx : s'.classOf x = d) : s.nextVar ≤ x.id := by
  have hscope' : s'.Scoped s.nextVar := h.inScope hscope
  -- a variable made for the copies has no value, so nothing else is met in them
  obtain ⟨y, hy, hyd⟩ := hd.exists_within (L := fun y => s.nextVar ≤ y.id)
    (fun y c hy hc => by
      rw [hscope'.value_unborn hy] at hc
      cases hc)
    ((h.fresh g hg).mono fun _ hy => hy.1)
  have hxy : x = y := hscope'.eq_of_classOf_eq hy (hx.trans hyd.symm)
  exact hxy ▸ hy

/-- What has been made before is not reached by the copies. -/
theorem unreached (h : s.CopiesTo gs gs' p s') (hscope : s.Scoped s.nextVar) {x : Var}
    (hx : s.Born x) : s'.Unreached gs' x :=
  ⟨Nat.lt_of_lt_of_le hx h.le, fun _ hg hmeets =>
    Nat.not_le_of_lt hx (h.exists_of_meets hscope hg hmeets rfl)⟩

/-- Copies can be asked wherever the goals can. -/
theorem askable (h : s.CopiesTo gs gs' p s') {prog : Program A} (hgs : prog.Askable gs s) :
    prog.Askable gs' s' where
  consistent := by
    rw [h.store]
    exact hgs.consistent.setNextVar _
  inScope := (h.inScope hgs.inScope).mono h.le
  madeGoals g hg := (h.fresh g hg).mono fun _ hy => hy.2
  madeClauses c hc b hb := (hgs.madeClauses c hc b hb).mono fun _ hx =>
    Nat.lt_of_lt_of_le hx h.le
  apart := by
    intro g hg c hc b hb d hdg hdb
    -- what is met in the clause is the class of a variable made before
    obtain ⟨x, hx, hxd⟩ := hdb.exists_within
      (fun y v _ hv => (h.inScope hgs.inScope).values (s'.classOf y) v hv)
      (hgs.madeClauses c hc b hb)
    exact Nat.not_le_of_lt hx (h.exists_of_meets hgs.inScope hg hdg hxd)

/-- Copies have the instances that the goals have: the variable that stands for a class in
    the copies is given what the class is given, and the other way round. -/
theorem instance_iff (h : s.CopiesTo gs gs' p s') (hscope : s.Scoped s.nextVar)
    (hs : s.Acyclic) (us : List (Term A)) :
    s.Instance (gs.map Compound.toTerm) us ↔ s'.Instance (gs'.map Compound.toTerm) us := by
  obtain ⟨n, hcopy⟩ := h.copied
  constructor
  · rintro ⟨θ, hθ, rfl⟩
    obtain ⟨θ', hold, hread⟩ := h.since.exists_reads h.proper hθ θ
    refine ⟨θ', (h.solves_iff θ').mp (hscope.solves_congr hθ hold), ?_⟩
    rw [List.map_map, List.map_map]
    exact copyGoals_subst hθ hcopy hread
  · rintro ⟨θ', -, rfl⟩
    obtain ⟨θ, hθ, hread⟩ := hs.exists_reads p θ'
    refine ⟨θ, hθ, ?_⟩
    rw [List.map_map, List.map_map]
    exact (copyGoals_subst hθ hcopy hread).symm

theorem sameInstances (h : s.CopiesTo gs gs' p s') {prog : Program A} (hgs : prog.Askable gs s)
    (hs : s.Acyclic) : Search.SameInstances prog ⟨gs, s⟩ ⟨gs', s'⟩ where
  askable := hgs
  askable' := h.askable hgs
  acyclic := hs
  solves := h.solves_iff
  instances := h.instance_iff hgs.inScope hs

end Store.CopiesTo

end copies

/-! ## Queries that are exhausted -/

/-- The client comes to an answer at every match, which is to go on, and leaves the store as
    it finds it and in scope, if the first `n₀` variables have been made. -/
structure Client.GoesOn (client : Client A σ) (n₀ : Nat) : Prop where
  faithful : Faithful client.answer
  inScope : InScope n₀ client.answer
  total : ∀ s m, client.answer s m ≠ none
  proceeds : ∀ s m r, client.answer s m = some r → r.1 = .proceed

theorem Client.GoesOn.mono {client : Client A σ} {n m : Nat} (h : client.GoesOn n) (hnm : n ≤ m) :
    client.GoesOn m :=
  { h with inScope := fun s m b s' m' hle => h.inScope s m b s' m' (Nat.le_trans hnm hle) }

section queries

variable [DecidableEq A] {p : Program A} {goals : List (Compound A)} {s : Store A}
  {client : Client A σ}

/-- What the recursion reports does not depend on the number of levels. -/
theorem Program.solutions_unique {answers : Nat → Signal} {k k' : Nat}
    {r r' : Ending × List (Store A)} (h : p.solutions Search.headFirst answers k goals s = some r)
    (h' : p.solutions Search.headFirst answers k' goals s = some r') : r = r' := by
  obtain ⟨q, hq, rfl⟩ := Option.map_eq_some_iff.mp h
  obtain ⟨q', hq', rfl⟩ := Option.map_eq_some_iff.mp h'
  have hboth := Search.prove_mono Search.headFirst_settles (Nat.le_max_left k k') hq
  rw [Search.prove_mono Search.headFirst_settles (Nat.le_max_right k k') hq'] at hboth
  rw [Option.some.inj hboth]

theorem Program.solutions_exhausted {k : Nat} {ending : Ending} {views : List (Store A)}
    (h : p.solutions Search.headFirst (fun _ => .proceed) k goals s = some (ending, views)) :
    ending = .exhausted views.length := by
  obtain ⟨q, hq, he⟩ := Option.map_eq_some_iff.mp h
  have hgoesOn : q.halted = false := Search.prove_not_halted hq
  cases he
  rw [hgoesOn]
  rfl

/-- If a query returns to a client that goes on, the recursion reports its calls. -/
theorem Program.Askable.solutions_of_return (h : p.Askable goals s)
    (hc : client.GoesOn s.nextVar) {n : Nat} {memory : σ} {r : Ending × Store A × σ}
    (hr : p.enumerate client n goals s memory = some r) :
    ∃ k views, p.solutions Search.headFirst (fun _ => .proceed) k goals s = some (r.1, views) ∧
      List.Forall₂ (Store.SameView s.nextVar) views (p.calls client n goals s memory) := by
  obtain ⟨ending, s', memory'⟩ := r
  obtain ⟨log, hend, hcalls⟩ := Search.calls_of_proceeding hc.proceeds hr
  obtain ⟨k, views, hsol, hviews⟩ := h.solutions_of_enumerate hc.faithful hc.inScope hend
  refine ⟨k, views, hsol, ?_⟩
  rw [Program.calls, hcalls, List.forall₂_map_right_iff]
  exact hviews

/-- If the recursion comes to an end, so does a query with a client that goes on. -/
theorem Program.Askable.exists_return_of_solutions (h : p.Askable goals s)
    (hc : client.GoesOn s.nextVar) (memory : σ) {k : Nat} {r : Ending × List (Store A)}
    (hsol : p.solutions Search.headFirst (fun _ => .proceed) k goals s = some r) :
    ∃ n q, p.enumerate client n goals s memory = some q := by
  obtain ⟨n, s', memory', log, hrun, -⟩ :=
    h.enumerate_of_solutions hc.faithful hc.inScope hc.total memory hsol
  exact ⟨n, Search.exists_enumerate_of_persisting ⟨_, hrun⟩⟩

end queries

/-! ## Questions with the same instances -/

namespace Search.SameInstances

variable [DecidableEq A] {p : Program A} {q q' : Question A} {client : Client A σ}
  {client' : Client A τ}

/-- If the one query returns, so does the other. -/
theorem exists_return (h : SameInstances p q q') (hcheck : p.options.occursCheck = true)
    (hc : client.GoesOn q.store.nextVar) (hc' : client'.GoesOn q'.store.nextVar) {memory : σ}
    (memory' : τ) (hreturns : ∃ n r, p.enumerate client n q.goals q.store memory = some r) :
    ∃ n r, p.enumerate client' n q'.goals q'.store memory' = some r := by
  obtain ⟨n, r, hr⟩ := hreturns
  obtain ⟨k, views, hsol, -⟩ := h.askable.solutions_of_return hc hr
  obtain ⟨k', views', hsol', -⟩ := h.solutions hcheck hsol
  exact h.askable'.exists_return_of_solutions hc' memory' hsol'

/-- If both return, they have the same matches up to the names of unbound variables. -/
theorem variants (h : SameInstances p q q') (hcheck : p.options.occursCheck = true)
    (hc : client.GoesOn q.store.nextVar) (hc' : client'.GoesOn q'.store.nextVar) {n n' : Nat}
    {memory : σ} {memory' : τ} {r : Ending × Store A × σ} {r' : Ending × Store A × τ}
    (hr : p.enumerate client n q.goals q.store memory = some r)
    (hr' : p.enumerate client' n' q'.goals q'.store memory' = some r') :
    (r.1 = .exhausted (p.calls client n q.goals q.store memory).length ∧ r'.1 = r.1) ∧
    List.Forall₂ (fun view view' => Store.Variants q.goals view q'.goals view')
      (p.calls client n q.goals q.store memory)
      (p.calls client' n' q'.goals q'.store memory') := by
  obtain ⟨k, views, hsol, hcalls⟩ := h.askable.solutions_of_return hc hr
  obtain ⟨k', views', hsol', hcalls'⟩ := h.askable'.solutions_of_return hc' hr'
  -- what the recursion reports for one question it reports for the other
  obtain ⟨m, views'', hsol'', hmatched⟩ := h.solutions hcheck hsol
  obtain ⟨hending, rfl⟩ := Prod.mk.inj (Program.solutions_unique hsol' hsol'')
  refine ⟨⟨?_, hending⟩, ?_⟩
  · rw [← hcalls.length_eq]
    exact Program.solutions_exhausted hsol
  · have hthrough : List.Forall₂ (fun view' call => ∃ view, view.SameView q.store.nextVar call ∧
        MatchedAlike p q q' view view') views' (p.calls client n q.goals q.store memory) :=
      forall₂_of_common (fun view _ _ halike hcall => ⟨view, hcall, halike⟩) hmatched hcalls
    apply forall₂_of_common _ hthrough hcalls'
    rintro view' call call' ⟨view, hshow, halike⟩ hshow'
    refine Store.variants_of_instances hshow hshow' halike.left.tended.le halike.right.tended.le
      halike.left.ready.acyclic halike.right.ready.acyclic h.askable.madeGoals
      h.askable'.madeGoals fun us => ?_
    have hinstances := halike.instances us
    simp only [Question.terms, List.map_nil, List.append_nil] at hinstances
    exact hinstances

end Search.SameInstances

/-! ## Independence -/

section independence

variable [DecidableEq A] {p : Program A} {goals : List (Compound A)} {s : Store A}

/-- **Answers do not depend on which variables the goals are written with.**  Let the occurs
    check be on and the store acyclic, and let the goals and the clauses have no class in
    common.  Then the goals can be copied, through one renaming; and whatever copies are
    made, in clients that go on:

    * the query for the copies returns just if the query for the goals does;
    * both then report the same number of matches, and at each of them the resolved forms of
      goals and copies are the same up to one one-to-one renaming of unbound variables;
    * no variable that had been made before the copies is touched by the query for them. -/
theorem answers_independent_of_variables (h : p.Askable goals s) (hs : s.Acyclic)
    (hcheck : p.options.occursCheck = true) {client : Client A σ} {client' : Client A τ}
    (hc : client.GoesOn s.nextVar) (hc' : client'.GoesOn s.nextVar) (memory : σ) (memory' : τ) :
    (∃ j r, s.copyCompounds j goals .empty = some r) ∧
    ∀ j copies images s', s.copyCompounds j goals .empty = some (copies, images, s') →
      ((∃ n r, p.enumerate client' n copies s' memory' = some r) ↔
        ∃ n r, p.enumerate client n goals s memory = some r) ∧
      (∀ n n' r r', p.enumerate client n goals s memory = some r →
        p.enumerate client' n' copies s' memory' = some r' →
          (r.1 = .exhausted (p.calls client n goals s memory).length ∧ r'.1 = r.1) ∧
          List.Forall₂ (fun view view' => Store.Variants goals view copies view')
            (p.calls client n goals s memory) (p.calls client' n' copies s' memory')) ∧
      ∀ x, s.Born x → p.LeavesAlone client' copies s' memory' x := by
  refine ⟨hs.exists_copyCompounds goals, fun j copies images s' hcopy => ?_⟩
  obtain ⟨q, hcopies⟩ := Store.copiesTo_of_copyCompounds hcopy
  have hsame := hcopies.sameInstances h hs
  have hc'' : client'.GoesOn s'.nextVar := hc'.mono hcopies.le
  refine ⟨⟨?_, ?_⟩, ?_, ?_⟩
  · exact hsame.symm.exists_return hcheck hc'' hc memory
  · exact hsame.exists_return hcheck hc hc'' memory'
  · intro n n' r r' hr hr'
    exact hsame.variants hcheck hc hc'' hr hr'
  · intro x hx
    have hasked := hcopies.askable h
    exact p.leavesAlone hasked.consistent hasked.inScope hasked.madeGoals hc''.faithful
      hc''.inScope (hcopies.unreached h.inScope hx) memory'

end independence

/-! ### A goal with a bound variable -/

/-- `8(X, 1(X))`. -/
def pairing : Program Nat := .ofList [.fact ⟨8, [.var ⟨0⟩, .app 1 [.var ⟨0⟩]]⟩] ⟨true, none⟩

/-- After `X` of the clause the variables `Z`, `Y` and `W` have been made, and `Y` has been
    given the value `1(Z)`. -/
def halfBound : Store Nat :=
  match Session.resolve 3 ⟨2⟩ ⟨1, [.var ⟨1⟩]⟩ ⟨(Store.empty.freshMany 4).2, .start true⟩ with
  | .success w => w.store
  | _ => .empty

theorem halfBound_of_run : ∃ t, (Call.resolve 3 ⟨2⟩ ⟨1, [.var ⟨1⟩]⟩).run
    (⟨(Store.empty.freshMany 4).2, .start true⟩ : Session Nat) = some ⟨halfBound, t⟩ := ⟨_, rfl⟩

theorem halfBound_born {x : Var} (hx : x.id < 4) : halfBound.Born x := hx

theorem halfBound_acyclic : halfBound.Acyclic := by
  obtain ⟨t, hrun⟩ := halfBound_of_run
  exact (Call.run_readyThroughout hrun (Session.readyThroughout_freshMany 4)).ready.acyclic

theorem pairing_askable : pairing.Askable [⟨8, [.var ⟨3⟩, .var ⟨2⟩]⟩] halfBound := by
  obtain ⟨t, hrun⟩ := halfBound_of_run
  have hstart : Session.Sound 4 (⟨(Store.empty.freshMany 4).2, .start true⟩ : Session Nat) :=
    ⟨(Session.readyThroughout_freshMany 4).ready.consistent,
      Session.scoped_start ((Store.scoped_empty.mono (Nat.zero_le 4)).setNext 4) true⟩
  have hvalue : (⟨1, [.var ⟨1⟩]⟩ : Compound Nat).Within fun x => x.id < 4 :=
    Compound.within_of_var (by decide)
  obtain ⟨hsound, -⟩ := Call.run_sound hrun ⟨(by decide : 2 < 4), hvalue⟩ hstart
  -- the clause is about `X` alone, which has no value and is not met in the goal
  have hclause : ∀ c ∈ pairing.clauses, ∀ h ∈ c.head :: c.body, h.Within (· = ⟨0⟩) := by
    intro c hc h hh
    have hclauses : pairing.clauses = [.fact ⟨8, [.var ⟨0⟩, .app 1 [.var ⟨0⟩]]⟩] := rfl
    rw [hclauses, List.mem_singleton] at hc
    rw [hc, Clause.fact, List.mem_singleton] at hh
    intro x hx
    simpa [hh, Compound.mentions_iff] using hx
  have hunmet : ¬ halfBound.Meets (halfBound.classOf ⟨0⟩) (.app 8 [.var ⟨3⟩, .var ⟨2⟩]) := by
    intro hmeets
    have hcontains : halfBound.contains ⟨0⟩ 5 (.app 8 [.var ⟨3⟩, .var ⟨2⟩]) = some false := by
      decide
    exact Bool.false_ne_true ((Store.contains_iff hcontains).mpr hmeets)
  refine ⟨hsound.consistent.store, hsound.inScope.store, ?_, ?_, ?_⟩
  · intro g hg x hx
    rw [List.mem_singleton.mp hg] at hx
    have hx' : x = ⟨3⟩ ∨ x = ⟨2⟩ := by simpa [Compound.mentions_iff] using hx
    rcases hx' with rfl | rfl <;> exact halfBound_born (by decide)
  · intro c hc h hh x hx
    rw [hclause c hc h hh x hx]
    exact halfBound_born (by decide)
  · intro g hg c hc h hh d hdg hdh
    obtain ⟨x, rfl, rfl⟩ := hdh.exists_within (fun x v hx hv => by
      rw [hx] at hv
      cases hv) (hclause c hc h hh)
    rw [List.mem_singleton.mp hg] at hdg
    exact hunmet hdg

/-- With `Y` bound to `1(Z)` the goal is `8(W, Y)`, and its copy `8(W', 1(Z'))` for new
    variables.  Both have one match in `8(X, 1(X))`, at which the first argument is aliased
    with the variable below the second one.  The query for the copy leaves `Y` and `W` alone. -/
theorem copied_goal_has_same_match :
    let goal : Compound Nat := ⟨8, [.var ⟨3⟩, .var ⟨2⟩]⟩
    let copied : Compound Nat := ⟨8, [.var ⟨4⟩, .app 1 [.var ⟨5⟩]]⟩
    ∃ images s', halfBound.copyCompounds 4 [goal] .empty = some ([copied], images, s') ∧
      (pairing.calls throughout 20 [goal] halfBound ()).map (fun view =>
        (view.resolved 4 goal.toTerm, view.aliased ⟨3⟩ ⟨1⟩)) =
          [(some (.app 8 [.var ⟨3⟩, .app 1 [.var ⟨1⟩]]), true)] ∧
      (pairing.calls throughout 20 [copied] s' ()).map (fun view =>
        (view.resolved 4 copied.toTerm, view.aliased ⟨4⟩ ⟨5⟩)) =
          [(some (.app 8 [.var ⟨4⟩, .app 1 [.var ⟨5⟩]]), true)] ∧
      List.Forall₂ (fun view view' => Store.Variants [goal] view [copied] view')
        (pairing.calls throughout 20 [goal] halfBound ())
        (pairing.calls throughout 20 [copied] s' ()) ∧
      pairing.LeavesAlone throughout [copied] s' () ⟨2⟩ ∧
      pairing.LeavesAlone throughout [copied] s' () ⟨3⟩ := by
  intro goal copied
  have hgoesOn : throughout.GoesOn 4 :=
    ⟨throughout_faithful, throughout_inScope 4, fun _ _ => nofun, fun s m r h => by
      cases h
      rfl⟩
  obtain ⟨-, hall⟩ := answers_independent_of_variables pairing_askable halfBound_acyclic rfl
    hgoesOn hgoesOn () ()
  have hcopy : ∃ images, halfBound.copyCompounds 4 [goal] .empty =
      some ([copied], images, halfBound.setNext 6) := ⟨_, rfl⟩
  obtain ⟨images, hcopy⟩ := hcopy
  obtain ⟨-, hvariants, hleft⟩ := hall 4 _ _ _ hcopy
  have hrun : (pairing.enumerate throughout 20 [goal] halfBound ()).map (·.1) =
      some (.exhausted 1) := by decide
  have hrun' : (pairing.enumerate throughout 20 [copied] (halfBound.setNext 6) ()).map (·.1) =
      some (.exhausted 1) := by decide
  obtain ⟨r, hr, -⟩ := Option.map_eq_some_iff.mp hrun
  obtain ⟨r', hr', -⟩ := Option.map_eq_some_iff.mp hrun'
  exact ⟨images, _, hcopy, by decide, by decide, (hvariants 20 20 r r' hr hr').2,
    hleft ⟨2⟩ (halfBound_born (by decide)), hleft ⟨3⟩ (halfBound_born (by decide))⟩

end Horn
