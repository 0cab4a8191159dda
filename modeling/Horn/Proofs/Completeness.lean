import Horn.Proofs.Soundness

/-! # Answers are complete

    With the occurs check on, a query that returns to a client that always goes on has
    missed nothing: every instance of the goals that has derivation trees, no deeper
    than the options permit, is an instance of what the goals were at some match.

    A derivation says which clause to take at every step.  The store may have changed
    since the derivation was made, but not for the variables of the clauses, so the
    instance that the derivation uses is still one (`Division.exists_solution`), and the
    step lifts (`Provable.step`).  As the search was never stopped it has tried this
    clause too (`exists_report_of_clause`), and the proof goes on in what that has left
    (`prove_complete`, by induction on the recursion). -/

namespace Horn

universe u v

variable {A : Type u} {σ : Type v}

namespace Search

/-! ## Searches that are not stopped -/

/-- If a search through some clauses was not stopped, each of them was tried, and what
    was reported for it is in the report. -/
theorem exists_report_of_clause {attempt : Clause A → Nat → Option (Report A)}
    {cs : List (Clause A)} {found : Nat} {r : Report A}
    (h : eachClause attempt cs found = some r) (hr : r.halted = false) {c : Clause A}
    (hc : c ∈ cs) :
    ∃ k r', attempt c k = some r' ∧ ∀ view ∈ r'.views, view ∈ r.views := by
  induction cs generalizing found r with
  | nil => cases hc
  | cons d cs ih =>
    obtain ⟨r₁, hd, ⟨hhalted, rfl⟩ | ⟨-, r₂, h₂, rfl⟩⟩ := goOn_eq_some_iff.mp h
    · rw [hr] at hhalted
      cases hhalted
    · rcases List.mem_cons.mp hc with rfl | hc
      · exact ⟨found, r₁, hd, fun view hv => List.mem_append_left _ hv⟩
      · obtain ⟨k, r', hk, hviews⟩ := ih h₂ hr hc
        exact ⟨k, r', hk, fun view hv => List.mem_append_right _ (hviews view hv)⟩

theorem eachClause_not_halted {attempt : Clause A → Nat → Option (Report A)}
    (hattempt : ∀ c k r, attempt c k = some r → r.halted = false) {cs : List (Clause A)}
    {found : Nat} {r : Report A} (h : eachClause attempt cs found = some r) :
    r.halted = false := by
  induction cs generalizing found r with
  | nil =>
    cases h
    rfl
  | cons c cs ih =>
    obtain ⟨r₁, hc, ⟨-, rfl⟩ | ⟨-, r₂, h₂, rfl⟩⟩ := goOn_eq_some_iff.mp h
    · exact hattempt c found r hc
    · show r₂.halted = false
      exact ih h₂

/-- If no goal lies too deep, the goals are not given up. -/
theorem pruned_eq_false {o : Options} {goals : List (Goal A)}
    (h : ∀ g ∈ goals, tooDeep o g.depth = false) : pruned o goals = false := by
  cases goals with
  | nil => rfl
  | cons g rest => exact h g (List.mem_cons_self ..)

section step

variable [DecidableEq A]

/-- A search whose client always goes on is not stopped. -/
theorem prove_not_halted {src : Source A} {n : Nat} {goals : List (Goal A)} {s : Store A}
    {found : Nat} {r : Report A}
    (h : prove headFirst src (fun _ => .proceed) n goals s found = some r) :
    r.halted = false := by
  induction n generalizing goals s found r with
  | zero => cases h
  | succ n ih =>
    cases goals with
    | nil =>
      cases h
      rfl
    | cons g rest =>
      refine eachClause_not_halted (fun c k r' hr' => ?_) h
      rcases expand_cases hr' with rfl | ⟨gs, s', -, -, hprove⟩
      · rfl
      · exact ih hprove

/-! ## The variables of the clauses -/

variable {s₀ s s' : Store A} {L K : Var → Prop} {check : Bool} {n : Nat} {goal : Compound A}
  {c : Clause A} {gs : List (Compound A)}

omit [DecidableEq A] in
/-- What a solution of `s₀` makes of the clauses, some solution makes of them later: the
    variables of the clauses are where they were. -/
theorem Division.exists_solution (hd : Division s₀ L K) (ht : Tended s₀ L s)
    (hclasses : ∀ x, ¬ L x → s.classOf x = s₀.classOf x) (hs : s.Acyclic) {θ : Var → Term A}
    (hθ : s₀.Solves θ) :
    ∃ θm, s.Solves θm ∧ ∀ t : Term A, t.Within K → t.subst θm = t.subst θ := by
  classical
  let τ (x : Var) : Term A :=
    if h : ∃ y, K y ∧ s.classOf y = s.classOf x then θ h.choose else .var ⟨0⟩
  obtain ⟨θm, hθm, hunbound⟩ := hs.exists_solves_extending τ fun x y hxy => by
    show dite _ _ _ = dite _ _ _
    simp only [hxy]
  refine ⟨θm, hθm, fun t ht' => ?_⟩
  induction hs.ends t with
  | @unbound x hx =>
    have hK : K x := Term.within_var ht'
    have hex : ∃ y, K y ∧ s.classOf y = s.classOf x := ⟨x, hK, rfl⟩
    obtain ⟨hy, hyx⟩ := hex.choose_spec
    -- the two were in one class in `s₀` already
    have hyx₀ : s₀.classOf hex.choose = s₀.classOf x :=
      (hclasses _ (hd.apart _ hy)).symm.trans (hyx.trans (hclasses x (hd.apart x hK)))
    rw [Term.subst_var, Term.subst_var, hunbound x hx]
    show dite _ _ _ = _
    rw [dif_pos hex]
    exact hθ.joined _ _ hyx₀
  | @bound x v hv _ ih =>
    have hK : K x := Term.within_var ht'
    have hv₀ : s₀.value x = some v := by
      rw [← ht.outside x (hd.apart x hK)]
      exact hv
    rw [Term.subst_var, Term.subst_var, hθm.bound x v hv, hθ.bound x v hv₀]
    exact ih (hd.values x v hK hv₀)
  | app _ ih =>
    rw [Term.subst_app, Term.subst_app]
    exact congrArg _ (List.map_congr_left fun a ha => ih a ha (ht'.arg ha))

/-! ## Along a derivation -/

/-- The store `s` is one that the search from `s₀` may come to, and under its solution `θ`
    all that is to be proved is proved by the program. -/
structure Provable (p : Program A) (s₀ : Store A) (L : Var → Prop) (s : Store A)
    (goals : List (Goal A)) (θ : Var → Term A) : Prop where
  ready : Session.Ready ⟨s, .start p.options.occursCheck⟩
  tended : Tended s₀ L s
  classes : ∀ x, ¬ L x → s.classOf x = s₀.classOf x
  fit : ∀ g ∈ goals, Fit L s g.compound
  solves : s.Solves θ
  proves : ∀ g ∈ goals, p.Proves s₀ g.depth (g.compound.toTerm.subst θ)

section provable

variable {p : Program A} {g : Goal A} {rest : List (Goal A)} {θ θ' : Var → Term A}

/-- If what stands below the first goal is proved, all is proved that comes after the step. -/
theorem Provable.headFirst (h : Provable p s₀ L s (g :: rest) θ) (hd : Division s₀ L K)
    (hres : Search.headFirst p.options.occursCheck n g.compound c s = some (some (gs, s')))
    (hθ' : s'.Solves θ') (hold : ∀ x, s.Born x → θ' x = θ x)
    (hbelow : ∀ b ∈ gs, p.Proves s₀ (g.depth + 1) (b.toTerm.subst θ')) :
    Provable p s₀ L s' (gs.map (⟨·, g.depth + 1⟩) ++ rest) θ' := by
  obtain ⟨htended, hfit, hclasses⟩ := h.tended.headFirst hd (h.fit g (List.mem_cons_self ..)) hres
  refine ⟨(headFirst_sound h.ready hres).1, htended,
    fun x hx => (hclasses x hx).trans (h.classes x hx), ?_, hθ', ?_⟩
  · exact Fit.expanded (headFirst_nextVar_le hres) hfit
      (fun g' hg' => h.fit g' (List.mem_cons_of_mem _ hg')) _
  · refine List.forall_mem_append.mpr ⟨List.forall_mem_map.mpr hbelow, fun g' hg' => ?_⟩
    -- the other goals are over variables for which nothing has changed
    have hkept : g'.compound.toTerm.subst θ' = g'.compound.toTerm.subst θ :=
      Term.fold_congr fun x hx => hold x (h.fit g' (List.mem_cons_of_mem _ hg') x hx).1
    rw [hkept]
    exact h.proves g' (List.mem_cons_of_mem _ hg')

/-- One of the clauses is such that, once it has been tried, there are goals to go on with
    that are provable again, by a solution that says the same of the variables made so far. -/
theorem Provable.step (h : Provable p s₀ L s (g :: rest) θ) (hp : p.Filed)
    (hd : Division s₀ L K) (hsuits : ∀ f, ∀ c ∈ p.clausesFor f, Suits K c) :
    ∃ c ∈ p.clausesFor g.compound.signature, ∀ n next k r,
      expand Search.headFirst p.source n next g rest s c k = some r →
        ∃ goals s' θ', next goals s' k = some r ∧ Provable p s₀ L s' goals θ' ∧
          s.nextVar ≤ s'.nextVar ∧ ∀ x, s.Born x → θ' x = θ x := by
  -- the derivation says which clause to take, and in which instance
  obtain ⟨-, c, hc, θc, hθc, hhead, hbody⟩ :=
    Program.proves_iff.mp (h.proves g (List.mem_cons_self ..))
  have hsig : c.signature = g.compound.signature := (Compound.subst_eq_subst_iff.mp hhead).1.symm
  have hfiled : c ∈ p.clausesFor g.compound.signature := hp.mem_clausesFor.mpr ⟨hc, hsig⟩
  obtain ⟨hsuit, hsuits_body⟩ := hsuits _ c hfiled
  obtain ⟨θm, hθm, hsame⟩ := hd.exists_solution h.tended h.classes h.ready.acyclic hθc
  refine ⟨c, hfiled, fun n next k r hr => ?_⟩
  unfold expand at hr
  cases hres : Search.headFirst p.source.options.occursCheck n g.compound c s with
  | none =>
    rw [hres] at hr
    cases hr
  | some o =>
    have hborn : g.compound.Within s.Born := fun x hx => (h.fit g (List.mem_cons_self ..) x hx).1
    obtain ⟨gs, s', θ', rfl, hθ', hold, hnew⟩ := headFirst_lifts h.ready h.tended.inScope hborn
      h.solves hθm (hhead.trans (hsame _ hsuit).symm) hres
    -- the new goals are the body of the instance that the derivation uses
    have hbelow : ∀ b ∈ gs, p.Proves s₀ (g.depth + 1) (b.toTerm.subst θ') := by
      intro b hb
      have hmem : b.toTerm.subst θ' ∈ c.body.map fun b => b.toTerm.subst θm := by
        rw [← hnew]
        exact List.mem_map_of_mem hb
      obtain ⟨b', hb', heq⟩ := List.mem_map.mp hmem
      rw [← heq, hsame _ (hsuits_body b' hb')]
      exact hbody b' hb'
    have hnext := h.headFirst hd hres hθ' hold hbelow
    have hpruned : pruned p.source.options (gs.map (⟨·, g.depth + 1⟩) ++ rest) = false :=
      pruned_eq_false fun g' hg' => (hnext.proves g' hg').not_tooDeep
    rw [hres] at hr
    simp only [hpruned, Bool.false_eq_true, if_false] at hr
    exact ⟨_, s', θ', hr, hnext, headFirst_nextVar_le hres, hold⟩

/-- **The recursion is complete.**  If all that is to be proved is provable by a solution
    of the store, then what this solution says of the variables made so far a solution of
    the store of some match says too. -/
theorem prove_complete (hp : p.Filed) (hd : Division s₀ L K)
    (hsuits : ∀ f, ∀ c ∈ p.clausesFor f, Suits K c) (n : Nat) {goals : List (Goal A)}
    {found : Nat} {r : Report A} (h : Provable p s₀ L s goals θ)
    (hr : prove headFirst p.source (fun _ => .proceed) n goals s found = some r) :
    ∃ view ∈ r.views, ∃ θ', view.Solves θ' ∧ ∀ x, s.Born x → θ' x = θ x := by
  induction n generalizing goals s found r θ with
  | zero => cases hr
  | succ n ih =>
    cases goals with
    | nil =>
      cases hr
      exact ⟨s, List.mem_singleton_self s, θ, h.solves, fun _ _ => rfl⟩
    | cons g rest =>
      -- the clause that leads on has been tried, as no search before it was stopped
      obtain ⟨c, hc, hstep⟩ := h.step hp hd hsuits
      obtain ⟨k, r', hr', hviews⟩ := exists_report_of_clause hr (prove_not_halted hr) hc
      obtain ⟨goals, s', θ', hprove, hnext, hle, hold⟩ := hstep n _ k r' hr'
      obtain ⟨view, hview, θ'', hθ'', hagree⟩ := ih hnext hprove
      refine ⟨view, hviews view hview, θ'', hθ'', fun x hx => ?_⟩
      rw [hagree x (Nat.lt_of_lt_of_le hx hle), hold x hx]

end provable

end step

end Search

/-! ## Queries -/

variable [DecidableEq A] {p : Program A} {goals : List (Compound A)} {s : Store A}
  {client : Client A σ}

/-- **Answers are complete.**  Let the goals and the clauses have no class in common, let
    the store be acyclic and the occurs check on, and let a query return to a client that
    always goes on and leaves the store as it finds it.  If terms can be put in for the
    unbound classes so that the resolved goals have derivation trees, no deeper than the
    options permit, then the client has been called in a store of whose resolved goals
    these are an instance, for one choice of terms for its unbound classes. -/
theorem answers_complete (hp : p.Filed) (h : p.Askable goals s) (hs : s.Acyclic)
    (hcheck : p.options.occursCheck = true) (hc : Faithful client.answer)
    (hscope : InScope s.nextVar client.answer)
    (hproceed : ∀ s m r, client.answer s m = some r → r.1 = .proceed) {n : Nat} {memory : σ}
    {r : Ending × Store A × σ} (hr : p.enumerate client n goals s memory = some r)
    (τ : ClassId → Term A)
    (htrees : ∀ g ∈ goals, ∃ u, s.Resolves g.toTerm u ∧
      ∃ t : Tree A, t.goal = u.subst (s.assign τ) ∧ t.Proves p s ∧
        ∀ max, p.options.maxDepth = some max → t.height ≤ max) :
    ∃ view ∈ p.calls client n goals s memory, ∃ τ' : ClassId → Term A,
      ∀ g ∈ goals, ∃ u u', s.Resolves g.toTerm u ∧ view.Resolves g.toTerm u' ∧
        u'.subst (view.assign τ') = u.subst (s.assign τ) := by
  obtain ⟨k, ending, views, hsol, hshown⟩ := h.calls_of_return hc hscope hproceed hr
  obtain ⟨report, hprove, he⟩ := Option.map_eq_some_iff.mp hsol
  cases he
  -- the terms put in make a solution, under which the program proves the goals
  obtain ⟨θ, hθ, hread⟩ := hs.exists_solves τ
  have hprovable : Search.Provable p s (s.OfGoals goals) s (goals.map (⟨·, 0⟩)) θ := by
    refine ⟨⟨Session.consistent_start h.consistent _, hs, hcheck⟩, h.tended, fun _ _ => rfl,
      fun g hg => ?_, hθ, fun g hg => ?_⟩
    · obtain ⟨g, hmem, rfl⟩ := List.mem_map.mp hg
      exact fun x hx => ⟨h.madeGoals g hmem x hx, .inr ⟨g, hmem, .of_mentions hx⟩⟩
    · obtain ⟨g, hmem, rfl⟩ := List.mem_map.mp hg
      obtain ⟨u, hu, t, hgoal, ht, hheight⟩ := htrees g hmem
      refine ⟨t, hgoal.trans (hread _ u hu), ht, ?_⟩
      rw [Search.tooDeep_eq_false_iff, Nat.zero_add]
      exact hheight
  obtain ⟨end_, hend, θ', hθ', hagree⟩ := Search.prove_complete hp h.division
    (fun _ _ => Program.OfClauses.suits s) k hprovable hprove
  have hle := Search.prove_nextVar_le hprove end_ hend
  obtain ⟨view, hview, π, hshows⟩ := hshown end_ hend
  obtain ⟨τ', hτ'⟩ := hshows.exists_assignment hle hθ'
  refine ⟨view, hview, τ', fun g hg => ?_⟩
  obtain ⟨u', hu', heq⟩ := hτ' g.toTerm (h.madeGoals g hg)
  obtain ⟨u, hu⟩ := hs.exists_resolves g.toTerm
  refine ⟨u, u', hu, hu', ?_⟩
  have hsame : g.toTerm.subst θ' = g.toTerm.subst θ :=
    Term.fold_congr fun x hx => hagree x (h.madeGoals g hg x hx)
  rw [heq, hsame, hread _ u hu]

/-! ### A query with two matches -/

/-- `3(1)` has a derivation tree, so at some match `3(Y)` has become a goal of which that
    is an instance. -/
theorem evens_answered_completely :
    ∃ view ∈ evens.calls throughout 20 [⟨3, [.var ⟨1⟩]⟩] (Store.empty.freshMany 2).2 (),
      ∃ τ u, view.Resolves (.app 3 [.var ⟨1⟩]) u ∧
        u.subst (view.assign τ) = .app 3 [.app 1 []] := by
  have hrun : (evens.enumerate throughout 20 [⟨3, [.var ⟨1⟩]⟩]
      (Store.empty.freshMany 2).2 ()).map (·.1) = some (.exhausted 2) := by decide
  obtain ⟨r, hr, -⟩ := Option.map_eq_some_iff.mp hrun
  have hresolved : (Store.empty.freshMany 2 : List Var × Store Nat).2.Resolves
      (.app 3 [.var ⟨1⟩]) (.app 3 [.var ⟨1⟩]) := ⟨2, by decide⟩
  -- no variable has a value, so any choice of terms solves the store
  have hsolves : (Store.empty.freshMany 2 : List Var × Store Nat).2.Solves fun _ => .app 1 [] :=
    ⟨fun _ _ _ => rfl, fun x c hx => by
      have hclass : (Store.empty.freshMany 2 : List Var × Store Nat).2.classOf x = .own x :=
        Table.get_empty x.id
      rw [Store.value, hclass] at hx
      cases hx⟩
  have htree : (Tree.node (.app 3 [.app 1 []]) [.node (.app 0 [.app 1 []]) []]).Proves evens
      (Store.empty.freshMany 2).2 := by
    refine .node (c := ⟨⟨3, [.var ⟨0⟩]⟩, [⟨0, [.var ⟨0⟩]⟩]⟩)
      (Program.mem_clauses_ofList.mpr (by simp)) hsolves rfl fun t ht => ?_
    rw [List.mem_singleton.mp ht]
    exact .node (c := .fact ⟨0, [.app 1 []]⟩) (Program.mem_clauses_ofList.mpr (by simp)) hsolves
      rfl fun _ h => absurd h List.not_mem_nil
  obtain ⟨view, hview, τ, hτ⟩ := answers_complete (Program.filed_ofList _ _) evens_askable
    evens_acyclic rfl throughout_faithful (throughout_inScope 2)
    (fun s m r h => by cases h; rfl) hr (fun _ => .app 1 []) fun g hg => by
      rw [List.mem_singleton.mp hg]
      refine ⟨_, hresolved, _, rfl, htree, fun max hmax => ?_⟩
      cases hmax
      decide
  obtain ⟨u, u', hu, hu', heq⟩ := hτ _ (List.mem_singleton_self _)
  obtain rfl := hu.unique hresolved
  exact ⟨view, hview, τ, u', hu', heq⟩

end Horn
