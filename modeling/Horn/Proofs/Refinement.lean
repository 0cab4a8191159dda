import Horn.Proofs.Calls
import Horn.Proofs.Filing
import Horn.Proofs.InStep
import Horn.Proofs.InstanceFirst
import Horn.Proofs.Reach

/-! # The search refines the recursion

    The recursion is told the answers to the matches in advance, and the client of the
    search follows the same answers.  A query begins with mirrored stacks, so it goes in
    step with the machine (`Program.Askable.run_inStep`), which reports what the recursion
    does.

    The search looks at the body of a clause only after the head has been unified, and so
    does the recursion that it is compared with (`Search.headFirst`).  With the recursion
    that takes whole instances it agrees if the bodies of the clauses end
    (`search_refines_recursion`), but not always (`circular_body_leads_apart`). -/

namespace Horn

universe u v w

variable {A : Type u} {σ : Type v}

/-- A class met in a term over variables whose values lead to no others is that of one
    of these variables. -/
theorem Store.Meets.exists_within {s : Store A} {L : Var → Prop} {d : ClassId} {t : Term A}
    (h : s.Meets d t) (hL : ∀ x c, L x → s.value x = some c → c.Within L) (ht : t.Within L) :
    ∃ x, L x ∧ s.classOf x = d := by
  induction h with
  | @here x hx => exact ⟨x, Term.within_var ht, hx⟩
  | value hv _ ih => exact ih (hL _ _ (Term.within_var ht) hv)
  | arg ha _ ih => exact ih (ht.arg ha)

/-! ## The start of a query -/

/-- The goals can be asked of the program: whatever occurs in them, in the clauses and
    in the store has been made, and no class that is met in a goal is met in a clause. -/
structure Program.Askable (p : Program A) (goals : List (Compound A))
    (s : Store A) : Prop where
  consistent : s.Consistent
  inScope : s.Scoped s.nextVar
  madeGoals : ∀ g ∈ goals, g.Within s.Born
  madeClauses : ∀ c ∈ p.clauses, ∀ h ∈ c.head :: c.body, h.Within s.Born
  apart : ∀ g ∈ goals, ∀ c ∈ p.clauses, ∀ h ∈ c.head :: c.body, ∀ d,
    s.Meets d g.toTerm → ¬ s.Meets d h.toTerm

section queries

variable {p : Program A} {goals : List (Compound A)} {s : Store A}

/-- What the goals may come to mention: what is made later, and what is met in them now. -/
def Store.OfGoals (s : Store A) (goals : List (Compound A)) (x : Var) : Prop :=
  s.nextVar ≤ x.id ∨ ∃ g ∈ goals, s.Meets (s.classOf x) g.toTerm

theorem Store.Scoped.closed_ofGoals (h : s.Scoped s.nextVar) (goals : List (Compound A)) :
    s.Closed (s.OfGoals goals) where
  classes := by
    rintro x y (hlater | ⟨g, hg, hx⟩) hxy
    · exact .inl (h.eq_of_classOf_eq hlater hxy ▸ hlater)
    · exact .inr ⟨g, hg, hxy ▸ hx⟩
  values := by
    rintro x v (hlater | ⟨g, hg, hx⟩) hv y hy
    · rw [h.value_unborn hlater] at hv
      cases hv
    · exact .inr ⟨g, hg, hx.trans hv (.of_mentions hy)⟩

/-- What the clauses mention, with what is met in the values. -/
def Program.OfClauses (p : Program A) (s : Store A) (x : Var) : Prop :=
  ∃ c ∈ p.clauses, ∃ h ∈ c.head :: c.body, s.Meets (s.classOf x) h.toTerm

theorem Program.Askable.division (h : p.Askable goals s) :
    Search.Division s (s.OfGoals goals) (p.OfClauses s) where
  later x hx := .inl hx
  apart := by
    rintro x ⟨c, hc, g, hg, hx⟩ (hlater | ⟨g', hg', hx'⟩)
    · -- a variable not made yet shares its class with none that has been
      obtain ⟨y, hy, hyx⟩ := hx.exists_within
        (fun y v _ hv => h.inScope.values (s.classOf y) v hv) (h.madeClauses c hc g hg)
      exact Nat.not_le_of_lt hy (h.inScope.eq_of_classOf_eq hlater hyx ▸ hlater)
    · exact h.apart g' hg' c hc g hg _ hx' hx
  values := by
    rintro x v ⟨c, hc, g, hg, hx⟩ hv y hy
    exact ⟨c, hc, g, hg, hx.trans hv (.of_mentions hy)⟩

theorem Program.Askable.tended (h : p.Askable goals s) :
    Search.Tended s (s.OfGoals goals) s where
  consistent := h.consistent
  inScope := h.inScope
  le := Nat.le_refl _
  closed := h.inScope.closed_ofGoals goals
  outside _ _ := rfl

/-- Goals can be asked if the variables of the clauses have been kept to the clauses:
    no other variable is in a class of theirs, or has a value that leads to them. -/
theorem Program.askable_of_kept_apart (K : Var → Prop) (hs : s.Consistent)
    (hscope : s.Scoped s.nextVar) (hK : ∀ x c, K x → s.value x = some c → c.Within K)
    (hothers : s.Closed fun x => ¬ K x) (hgoals : ∀ g ∈ goals, g.Within fun x => s.Born x ∧ ¬ K x)
    (hclauses : ∀ c ∈ p.clauses, ∀ h ∈ c.head :: c.body, h.Within fun x => s.Born x ∧ K x) :
    p.Askable goals s where
  consistent := hs
  inScope := hscope
  madeGoals g hg := (hgoals g hg).mono fun _ hx => hx.1
  madeClauses c hc h hh := (hclauses c hc h hh).mono fun _ hx => hx.1
  apart := by
    intro g hg c hc h hh d hdg hdh
    -- a common class would be that of a variable of the goals and of one of the clauses
    obtain ⟨y, hy, hyd⟩ := hdg.exists_within hothers.values ((hgoals g hg).mono fun _ hx => hx.2)
    obtain ⟨x, hx, hxd⟩ := hdh.exists_within hK ((hclauses c hc h hh).mono fun _ hx => hx.2)
    exact hothers.classes y x hy (hxd.trans hyd.symm) hx

/-! ## Refinement -/

variable [DecidableEq A]

theorem Program.OfClauses.suits (s : Store A) {f : Signature A} {c : Clause A}
    (hc : c ∈ p.clausesFor f) : Search.Suits (p.OfClauses s) c :=
  ⟨fun _ hx => ⟨c, p.mem_clauses hc, c.head, List.mem_cons_self .., .of_mentions hx⟩,
    fun b hb _ hx => ⟨c, p.mem_clauses hc, b, List.mem_cons_of_mem _ hb, .of_mentions hx⟩⟩

/-- The first choice point mirrors the first frame. -/
theorem Program.Askable.mirrors {g : Compound A} {rest : List (Compound A)}
    (h : p.Askable (g :: rest) s) :
    Search.Mirrors s (s.OfGoals (g :: rest)) (p.OfClauses s) ⟨s, .start p.options.occursCheck⟩
      [.start p.source ⟨g, 0⟩ (rest.map (⟨·, 0⟩)) 0]
      [⟨⟨g, 0⟩, rest.map (⟨·, 0⟩), p.clausesFor g.signature, s⟩] := by
  have hfit : ∀ g' ∈ g :: rest, Search.Fit (s.OfGoals (g :: rest)) s g' := fun g' hg' x hx =>
    ⟨h.madeGoals g' hg' x hx, .inr ⟨g', hg', .of_mentions hx⟩⟩
  have hid : ∀ g' : Search.Goal A, g'.rename id = g' := fun g' => by
    rw [Search.Goal.rename, Compound.rename_id]
  refine .open ⟨id, h.inScope.shows _, h.tended, (hid _).symm, ?_, rfl, hfit g ?_, ?_, ?_⟩ rfl .nil
  · exact ((List.map_congr_left fun g' _ => hid g').trans (List.map_id _)).symm
  · exact List.mem_cons_self ..
  · intro g' hg'
    obtain ⟨c, hc, rfl⟩ := List.mem_map.mp hg'
    exact hfit c (List.mem_cons_of_mem _ hc)
  · exact fun c hc => Program.OfClauses.suits s hc

section client

variable {client : Client A σ}

/-- The run of a query goes in step with the machine. -/
theorem Program.Askable.run_inStep {g : Compound A} {rest : List (Compound A)}
    (h : p.Askable (g :: rest) s) (hc : Faithful client.answer)
    (hscope : InScope s.nextVar client.answer) (answers : Nat → Signal) (n : Nat) (memory : σ) :
    Search.InStep s client []
      (Search.machine p.source answers n
        [⟨⟨g, 0⟩, rest.map (⟨·, 0⟩), p.clausesFor g.signature, s⟩] 0)
      (Search.run p.source (client.following answers) n
        ⟨⟨s, .start p.options.occursCheck⟩, [.start p.source ⟨g, 0⟩ (rest.map (⟨·, 0⟩)) 0], 0,
          memory, []⟩) := by
  exact Search.run_lockstep h.division (fun _ _ => Program.OfClauses.suits s) hc hscope n _ _ _
    memory [] (Search.running_start h.consistent h.inScope) h.mirrors

/-- If the query of a client that follows given answers returns, so does the recursion. -/
theorem Program.Askable.solutions_of_enumerate (h : p.Askable goals s)
    (hc : Faithful client.answer) (hscope : InScope s.nextVar client.answer)
    {answers : Nat → Signal} {memory : σ} {n : Nat} {ending : Ending} {s' : Store A} {memory' : σ}
    {calls : List (Store A × Signal)}
    (hrun : p.enumerate (client.following answers) n goals s (memory, []) =
      some (ending, s', memory', calls)) :
    ∃ k views, p.solutions Search.headFirst answers k goals s = some (ending, views) ∧
      List.Forall₂ (fun view call => Store.SameView s.nextVar view call.1) views calls := by
  rw [Program.enumerate] at hrun
  cases goals with
  | nil =>
    rw [Search.enumerate_nil] at hrun
    obtain ⟨⟨signal, store, m⟩, hanswer, he⟩ := Option.map_eq_some_iff.mp hrun
    obtain ⟨⟨signal', store', m'⟩, -, hfollow⟩ := Option.map_eq_some_iff.mp hanswer
    cases hfollow
    cases he
    exact ⟨1, [s], rfl, .cons ⟨id, h.inScope.shows _⟩ .nil⟩
  | cons g rest =>
    rw [Search.enumerate_cons] at hrun
    obtain ⟨⟨halted, state⟩, hsearch, he⟩ := Option.map_eq_some_iff.mp hrun
    obtain ⟨r, hr, hagree⟩ := (h.run_inStep hc hscope answers n
      (client.note s (.opened (g :: rest).length) memory)).of_search hsearch
    -- the machine reports what the search does, and the recursion what the machine does
    obtain ⟨k, hk⟩ := Search.prove_of_machine hr
    obtain ⟨calls', hcalls, hviews⟩ := hagree.calls
    have hhalted : halted = r.halted := hagree.halted
    have hfound : state.found = r.views.length := hagree.found.trans (Nat.zero_add _)
    have hlog : state.memory.2 = calls' := hcalls
    cases he
    refine ⟨k, r.views, ?_, hlog ▸ hviews⟩
    show Option.map _ (Search.prove Search.headFirst p.source answers k
      (⟨g, 0⟩ :: rest.map (⟨·, 0⟩)) s 0) = _
    rw [hk, hhalted, hfound]
    rfl

/-- If the recursion returns, so does the query of a client that follows the same
    answers, provided that the client comes to one every time. -/
theorem Program.Askable.enumerate_of_solutions (h : p.Askable goals s)
    (hc : Faithful client.answer) (hscope : InScope s.nextVar client.answer)
    (hanswers : ∀ s m, client.answer s m ≠ none) {answers : Nat → Signal} (memory : σ) {k : Nat}
    {ending : Ending} {views : List (Store A)}
    (hsol : p.solutions Search.headFirst answers k goals s = some (ending, views)) :
    ∃ n s' memory' calls,
      p.enumerate (client.following answers) n goals s (memory, []) =
          some (ending, s', memory', calls) ∧
        List.Forall₂ (fun view call => Store.SameView s.nextVar view call.1) views calls := by
  obtain ⟨r, hr, he⟩ := Option.map_eq_some_iff.mp hsol
  cases he
  cases goals with
  | nil =>
    cases k with
    | zero => cases hr
    | succ k =>
      cases hr
      cases hanswer : client.answer s (client.note s (.opened 0) memory) with
      | none => exact absurd hanswer (hanswers s _)
      | some q =>
        obtain ⟨signal, s', m'⟩ := q
        have hrun : p.enumerate (client.following answers) 0 [] s (memory, []) =
            some (Search.close (client.following answers) (answers 0 = .halt) 1 s'
              (m', [(s, signal)])) := by
          rw [Program.enumerate, Search.enumerate_nil]
          simp only [Client.following, hanswer, Option.map_some]
          rfl
        exact ⟨0, _, _, _, hrun, .cons ⟨id, h.inScope.shows _⟩ .nil⟩
  | cons g rest =>
    -- the machine reports what the recursion does, from some level on
    obtain ⟨N, hN⟩ := Search.machine_of_prove hr
    obtain ⟨⟨halted, state⟩, hq, hagree⟩ := (h.run_inStep hc hscope answers N
      (client.note s (.opened (g :: rest).length) memory)).of_report hanswers (hN N (Nat.le_refl N))
    obtain ⟨calls, hcalls, hviews⟩ := hagree.calls
    have hhalted : halted = r.halted := hagree.halted
    have hfound : state.found = r.views.length := hagree.found.trans (Nat.zero_add _)
    have hlog : state.memory.2 = calls := hcalls
    have hrun : p.enumerate (client.following answers) N (g :: rest) s (memory, []) =
        some (Search.close (client.following answers) halted state.found
          (state.session.undoTo 0).store state.memory) := by
      rw [Program.enumerate, Search.enumerate_cons]
      exact congrArg (Option.map _) hq
    rw [← hhalted, ← hfound]
    exact ⟨N, _, _, _, hrun, hlog ▸ hviews⟩

/-- The recursion loses no variable: those made before the query have been made at every
    match. -/
theorem Program.solutions_nextVar_le {answers : Nat → Signal} {k : Nat} {ending : Ending}
    {views : List (Store A)}
    (h : p.solutions Search.headFirst answers k goals s = some (ending, views)) :
    ∀ view ∈ views, s.nextVar ≤ view.nextVar := by
  obtain ⟨r, hprove, he⟩ := Option.map_eq_some_iff.mp h
  cases he
  exact Search.prove_nextVar_le hprove

/-- What the recursion reports with whole instances it reports if the bodies are left for
    later. -/
theorem Program.solutions_of_instanceFirst {answers : Nat → Signal} {k : Nat}
    {r : Ending × List (Store A)}
    (h : p.solutions Search.instanceFirst answers k goals s = some r) :
    p.solutions Search.headFirst answers k goals s = some r := by
  obtain ⟨report, hprove, he⟩ := Option.map_eq_some_iff.mp h
  exact Option.map_eq_some_iff.mpr ⟨report, Search.prove_of_instanceFirst hprove, he⟩

/-- The bodies of the clauses end in the store: no walk through the values of their
    variables goes on for ever. -/
def Program.BodiesEnd (p : Program A) (s : Store A) : Prop :=
  ∀ c ∈ p.clauses, ∀ b ∈ c.body, s.Ends b.toTerm

omit [DecidableEq A] in
theorem Store.Acyclic.bodiesEnd (hs : s.Acyclic) (p : Program A) : p.BodiesEnd s :=
  fun _ _ b _ => hs.ends b.toTerm

/-- If the bodies of the clauses end, the recursion reports the same with whole instances. -/
theorem Program.Askable.solutions_instanceFirst (h : p.Askable goals s) (hends : p.BodiesEnd s)
    {answers : Nat → Signal} {k : Nat} {r : Ending × List (Store A)}
    (hsol : p.solutions Search.headFirst answers k goals s = some r) :
    ∃ j, p.solutions Search.instanceFirst answers j goals s = some r := by
  obtain ⟨report, hprove, he⟩ := Option.map_eq_some_iff.mp hsol
  have hfit : ∀ g ∈ goals.map (Search.Goal.mk · 0), Search.Fit (s.OfGoals goals) s g.compound := by
    intro g hg x hx
    obtain ⟨c, hc, rfl⟩ := List.mem_map.mp hg
    exact ⟨h.madeGoals c hc x hx, .inr ⟨c, hc, .of_mentions hx⟩⟩
  obtain ⟨j, hj⟩ := Search.exists_prove_instanceFirst h.division
    (fun _ _ => Program.OfClauses.suits s) (fun _ c hc => hends c (p.mem_clauses hc)) h.tended hfit
    hprove
  exact ⟨j, Option.map_eq_some_iff.mpr ⟨report, hj, he⟩⟩

/-- However far a query has come, the recursion reports the matches up to any one on the way
    if it is stopped there. -/
theorem Program.Askable.solutions_of_calls (h : p.Askable goals s) (hc : Faithful client.answer)
    (hscope : InScope s.nextVar client.answer) {n k : Nat} {memory : σ}
    (hk : k < (p.calls client n goals s memory).length) :
    ∃ j views, p.solutions Search.headFirst (Search.haltAt k) j goals s =
        some (.stopped (k + 1), views) ∧
      List.Forall₂ (Store.SameView s.nextVar) views
        ((p.calls client n goals s memory).take (k + 1)) := by
  obtain ⟨found, s', ⟨m', log⟩, hend, hlog⟩ := Search.exists_halted_of_calls hk
  obtain ⟨j, views, hsol, hviews⟩ := h.solutions_of_enumerate (Client.logging_faithful hc)
    (Client.logging_inScope hscope) hend
  have hshown : List.Forall₂ (Store.SameView s.nextVar) views
      ((p.calls client n goals s memory).take (k + 1)) := by
    rw [show (p.calls client n goals s memory).take (k + 1) = log.map Prod.fst from hlog.symm]
    exact List.forall₂_map_right_iff.mpr hviews
  -- as many matches have been counted as there are in the log
  have hfound : found = k + 1 := by
    have hlength : views.length = k + 1 := by
      rw [hshown.length_eq, List.length_take_of_le (Nat.succ_le_of_lt hk)]
    obtain ⟨r, -, he⟩ := Option.map_eq_some_iff.mp hsol
    split at he
    · cases he
      exact hlength
    · cases he
  exact ⟨j, views, hfound ▸ hsol, hshown⟩

/-- **The search refines the recursion.**  Let the goals and the clauses have no class in
    common, and let the client leave the store as it finds it.

    Whenever a query returns, the client has given some sequence of answers.  With these
    answers the recursion returns too: it reports the same number of matches, and ends
    in the same way.  Its matches are, one by one, those that the client has been told
    of, in stores that look the same from all variables made before the query, which have
    been made in the stores of the recursion as well (`Program.solutions_nextVar_le`).  And
    whether a query returns or not: the matches that it has come to are, up to each of them,
    those of the recursion that is stopped there.

    This is the recursion that takes the body of a clause after the head has been unified.
    If the bodies of the clauses end, the one that takes whole instances reports the same.

    Conversely, if either recursion returns with some sequence of answers, so does the
    query of a client that follows them and fails to answer nowhere. -/
theorem search_refines_recursion (h : p.Askable goals s) (hc : Faithful client.answer)
    (hscope : InScope s.nextVar client.answer) (memory : σ) :
    (∀ n ending s' memory', p.enumerate client n goals s memory = some (ending, s', memory') →
      ∃ calls : List (Store A × Signal), ∀ answers,
        (∀ k call, calls[k]? = some call → answers k = call.2) →
          p.enumerate (client.following answers) n goals s (memory, []) =
              some (ending, s', memory', calls) ∧
            ∃ k views, p.solutions Search.headFirst answers k goals s = some (ending, views) ∧
              (p.BodiesEnd s →
                ∃ j, p.solutions Search.instanceFirst answers j goals s = some (ending, views)) ∧
              List.Forall₂ (fun view call => Store.SameView s.nextVar view call.1) views calls) ∧
    (∀ n k, k < (p.calls client n goals s memory).length →
      ∃ j views, p.solutions Search.headFirst (Search.haltAt k) j goals s =
          some (.stopped (k + 1), views) ∧
        (p.BodiesEnd s → ∃ j, p.solutions Search.instanceFirst (Search.haltAt k) j goals s =
          some (.stopped (k + 1), views)) ∧
        List.Forall₂ (Store.SameView s.nextVar) views
          ((p.calls client n goals s memory).take (k + 1))) ∧
    (∀ answers k ending views,
      p.solutions Search.headFirst answers k goals s = some (ending, views) ∨
          p.solutions Search.instanceFirst answers k goals s = some (ending, views) →
        (∀ s m, client.answer s m ≠ none) →
          ∃ n s' memory' calls,
            p.enumerate (client.following answers) n goals s (memory, []) =
                some (ending, s', memory', calls) ∧
              List.Forall₂ (fun view call => Store.SameView s.nextVar view call.1) views
                calls) := by
  refine ⟨?_, ?_, ?_⟩
  · intro n ending s' memory' hrun
    obtain ⟨calls, hcalls⟩ := Search.enumerate_following p.source client n goals s memory hrun
    refine ⟨calls, fun answers hanswers => ?_⟩
    have hfollow : p.enumerate (client.following answers) n goals s (memory, []) =
        some (ending, s', memory', calls) := hcalls answers hanswers
    obtain ⟨k, views, hsol, hviews⟩ := h.solutions_of_enumerate hc hscope hfollow
    exact ⟨hfollow, k, views, hsol, fun hends => h.solutions_instanceFirst hends hsol, hviews⟩
  · intro n k hk
    obtain ⟨j, views, hsol, hviews⟩ := h.solutions_of_calls hc hscope hk
    exact ⟨j, views, hsol, fun hends => h.solutions_instanceFirst hends hsol, hviews⟩
  · intro answers k ending views hsol hanswers
    -- what whole instances report is reported without them as well
    have hhead : p.solutions Search.headFirst answers k goals s = some (ending, views) :=
      hsol.elim id Program.solutions_of_instanceFirst
    exact h.enumerate_of_solutions hc hscope hanswers memory hhead

end client

end queries

/-! ### A query with two matches -/

theorem evens_askable : evens.Askable [⟨3, [.var ⟨1⟩]⟩] (Store.empty.freshMany 2).2 := by
  have hscope : (Store.empty.freshMany 2 : List Var × Store Nat).2.Scoped 2 :=
    (Store.scoped_empty.mono (Nat.zero_le 2)).setNext 2
  have hclass : ∀ x, (Store.empty.freshMany 2 : List Var × Store Nat).2.classOf x = .own x :=
    fun x => Table.get_empty x.id
  have hvalue : ∀ x, (Store.empty.freshMany 2 : List Var × Store Nat).2.value x = none :=
    fun x => by rw [Store.value, hclass]; rfl
  have hnone : ∀ {L : Var → Prop} x c, (Store.empty.freshMany 2 : List Var × Store Nat).2.value x =
      some c → c.Within L := fun x c hc => by rw [hvalue x] at hc; cases hc
  refine Program.askable_of_kept_apart (fun x => x.id = 0) Store.consistent_empty.fresh.fresh hscope
    (fun x c _ hc => hnone x c hc) ⟨fun x y hx hxy => ?_, fun x c _ hc => hnone x c hc⟩
    (fun g hg => ?_) (fun c hc h hh => ?_)
  · rw [hclass, hclass] at hxy
    cases hxy
    exact hx
  · rw [List.mem_singleton.mp hg]
    exact Compound.within_of_var ⟨Nat.one_lt_two, Nat.one_ne_zero⟩
  · have hclauses : evens.clauses = [.fact ⟨0, [.app 1 []]⟩, .fact ⟨0, [.app 2 []]⟩,
        ⟨⟨3, [.var ⟨0⟩]⟩, [⟨0, [.var ⟨0⟩]⟩]⟩] := rfl
    rw [hclauses] at hc
    have hX : ∀ x, h.Mentions x → x = ⟨0⟩ := by
      intro x hx
      simp only [List.mem_cons, List.not_mem_nil, or_false] at hc
      rcases hc with rfl | rfl | rfl
      · simp [Clause.fact] at hh
        simp [hh, Compound.mentions_iff] at hx
      · simp [Clause.fact] at hh
        simp [hh, Compound.mentions_iff] at hx
      · simp only [List.mem_cons, List.not_mem_nil, or_false] at hh
        rcases hh with rfl | rfl
        · simpa [Compound.mentions_iff] using hx
        · simpa [Compound.mentions_iff] using hx
    intro x hx
    rw [hX x hx]
    exact ⟨Nat.zero_lt_two, rfl⟩

/-- Asks for all matches. -/
def throughout : Client Nat Unit := ⟨fun _ _ _ => (), fun s _ => some (.proceed, s, ())⟩

theorem throughout_faithful : Faithful throughout.answer := by
  intro s m b s' m' hs h
  cases h
  exact .refl hs

theorem throughout_inScope (n : Nat) : InScope n throughout.answer := by
  intro s m b s' m' _ _ hscope h
  cases h
  exact hscope

theorem atOnce_faithful : Faithful atOnce.answer := by
  intro s m b s' m' hs h
  cases h
  exact .refl hs

theorem atOnce_inScope (n : Nat) : InScope n atOnce.answer := by
  intro s m b s' m' _ _ hscope h
  cases h
  exact hscope

theorem evens_acyclic : (Store.empty.freshMany 2 : List Var × Store Nat).2.Acyclic := by
  refine Store.acyclic_of_unbound fun c => ?_
  cases c with
  | own x => rfl
  | joint k => exact congrArg Joint.value (Table.get_empty k)

/-- `3(Y)` has two matches in `0(1).  0(2).  3(X) if 0(X).`, and the recursion reports
    two, whether or not it takes whole instances.  At each of them the client asks `0(Y)`
    itself. -/
theorem two_matches_by_recursion :
    ∃ s', evens.enumerate (throughout.asking atOnce evens 20 [⟨0, [.var ⟨1⟩]⟩]) 20
        [⟨3, [.var ⟨1⟩]⟩] (Store.empty.freshMany 2).2 () = some (.exhausted 2, s', ()) ∧
      ∃ answers k j views,
        evens.solutions Search.headFirst answers k [⟨3, [.var ⟨1⟩]⟩]
          (Store.empty.freshMany 2).2 = some (.exhausted 2, views) ∧
        evens.solutions Search.instanceFirst answers j [⟨3, [.var ⟨1⟩]⟩]
          (Store.empty.freshMany 2).2 = some (.exhausted 2, views) := by
  have hrun : (evens.enumerate (throughout.asking atOnce evens 20 [⟨0, [.var ⟨1⟩]⟩]) 20
      [⟨3, [.var ⟨1⟩]⟩] (Store.empty.freshMany 2).2 ()).map (·.1) = some (.exhausted 2) := by
    decide
  obtain ⟨⟨ending, s', m'⟩, h, he⟩ := Option.map_eq_some_iff.mp hrun
  cases he
  have hasIs : ∀ signal : Signal,
      Faithful fun (s : Store Nat) (_ : Unit) => some (signal, s, ()) := by
    intro signal s m b s' m' hs h
    cases h
    exact .refl hs
  have hinScope : ∀ signal : Signal,
      InScope 2 fun (s : Store Nat) (_ : Unit) => some (signal, s, ()) := by
    intro signal s m b s' m' _ _ hscope h
    cases h
    exact hscope
  have hfaithful : Faithful (throughout.asking atOnce evens 20 [⟨0, [.var ⟨1⟩]⟩]).answer :=
    (evens.enumerate_faithful (hasIs .halt) 20 _).bind fun _ => hasIs .proceed
  have hgoals : ∀ g ∈ ([⟨0, [.var ⟨1⟩]⟩] : List (Compound Nat)), g.Within fun x => x.id < 2 := by
    intro g hg x hx
    rw [List.mem_singleton.mp hg] at hx
    have hx1 : x = ⟨1⟩ := by simpa [Compound.mentions_iff] using hx
    subst hx1
    decide
  obtain ⟨calls, hcalls⟩ := (search_refines_recursion evens_askable hfaithful
    (Client.asking_inScope (hinScope .proceed) (hasIs .halt) (hinScope .halt) evens 20 hgoals) ()).1
    20 _ _ _ h
  obtain ⟨-, k, views, hsol, hwhole, -⟩ := hcalls
    (fun k => (calls[k]?.map Prod.snd).getD .proceed) fun k call hcall => by rw [hcall]; rfl
  obtain ⟨j, hj⟩ := hwhole (evens_acyclic.bodiesEnd evens)
  exact ⟨s', h, _, k, j, views, hsol, hj⟩

/-! ### A body without an end -/

/-- The value of `x` leads back to `x`, so there is no end to copying it. -/
theorem Store.copyTerm_of_circle {s : Store A} {x : Var} {f : A}
    (hx : s.value x = some ⟨f, [.var x]⟩) (n : Nat) (p : Copying) :
    s.copyTerm n (.var x) p = none := by
  induction n with
  | zero => rfl
  | succ n ih => simp [copyTerm, hx, copyEach, ih]

/-- `0(1) if 1(X).  0(2).` -/
def twos : Program Nat :=
  .ofList [⟨⟨0, [.app 1 []]⟩, [⟨1, [.var ⟨0⟩]⟩]⟩, .fact ⟨0, [.app 2 []]⟩] ⟨false, none⟩

/-- A session in which `X` has been given the value `3(X)`. -/
def inCircle : Session Nat :=
  Session.gather ⟨(Store.empty.freshMany 1).2, .start false⟩ [.own ⟨0⟩] (some ⟨3, [.var ⟨0⟩]⟩)

theorem inCircle_scoped : inCircle.store.Scoped 1 := by
  have hstart : Session.Scoped 1 (⟨(Store.empty.freshMany 1).2, .start false⟩ : Session Nat) :=
    Session.scoped_start ((Store.scoped_empty.mono (Nat.zero_le 1)).setNext 1) false
  have hmade : ∀ x ∈ [(⟨0⟩ : Var)], x.id < 1 := by simp
  refine (hstart.gather (Session.consistent_start Store.consistent_empty.fresh false) hmade
    fun c hc => ?_).store
  cases hc
  exact Compound.within_of_var Nat.zero_lt_one

/-- `X` alone has been given a value. -/
theorem inCircle_others {x : Var} (hx : x.id ≠ 0) :
    inCircle.store.classOf x = .own x ∧ inCircle.store.value x = none := by
  let w : Session Nat := ⟨(Store.empty.freshMany 1).2, .start false⟩
  have hw : w.store.Consistent := Store.consistent_empty.fresh
  have hclass : ∀ x, w.store.classOf x = .own x := fun x => Table.get_empty x.id
  have hnot : w.store.classOf x ∉ [ClassId.own ⟨0⟩] := by
    rw [hclass, List.mem_singleton]
    rintro ⟨⟩
    exact hx rfl
  constructor
  · exact (Session.classOf_gather hw _ _ x).trans ((if_neg hnot).trans (hclass x))
  · rw [inCircle, Session.value_gather hw, if_neg hnot, Store.value, hclass]
    rfl

/-- The clauses mention `X` and nothing else. -/
theorem twos_within : ∀ c ∈ twos.clauses, ∀ h ∈ c.head :: c.body, h.Within (·.id = 0) := by
  have hclauses : twos.clauses =
      [⟨⟨0, [.app 1 []]⟩, [⟨1, [.var ⟨0⟩]⟩]⟩, .fact ⟨0, [.app 2 []]⟩] := rfl
  intro c hc h hh x hx
  rw [hclauses] at hc
  simp only [List.mem_cons, List.not_mem_nil, or_false] at hc
  rcases hc with rfl | rfl
  · simp only [List.mem_cons, List.not_mem_nil, or_false] at hh
    rcases hh with rfl | rfl
    · simp [Compound.mentions_iff] at hx
    · have hX : x = ⟨0⟩ := by simpa [Compound.mentions_iff] using hx
      rw [hX]
  · simp [Clause.fact] at hh
    simp [hh, Compound.mentions_iff] at hx

theorem twos_askable : twos.Askable [⟨0, [.app 2 []]⟩] inCircle.store := by
  have hstart : Session.Consistent (⟨(Store.empty.freshMany 1).2, .start false⟩ : Session Nat) :=
    Session.consistent_start Store.consistent_empty.fresh false
  refine Program.askable_of_kept_apart (fun x => x.id = 0) (hstart.gather _ _).store
    inCircle_scoped (fun x c hx hc => ?_) ⟨fun x y hx hxy hy => ?_, fun x c hx hc => ?_⟩
    (fun g hg => ?_) (fun c hc h hh x hx => ?_)
  · obtain ⟨i⟩ := x
    obtain rfl : i = 0 := hx
    cases hc
    exact Compound.within_of_var rfl
  · obtain ⟨i⟩ := y
    obtain rfl : i = 0 := hy
    rw [(inCircle_others hx).1] at hxy
    cases hxy
  · rw [(inCircle_others hx).2] at hc
    cases hc
  · rw [List.mem_singleton.mp hg]
    intro x hx
    simp [Compound.mentions_iff] at hx
  · have hX : x.id = 0 := twos_within c hc h hh x hx
    exact ⟨by rw [Store.Born, hX]; exact Nat.zero_lt_one, hX⟩

/-- The goal `0(2)` clashes with the head of the first clause of `twos`, and the query
    returns after one match, with the second.  But `X` has the value `3(X)`, so the body of
    the first clause has no instance, and the recursion that takes whole instances never
    comes to the second. -/
theorem circular_body_leads_apart :
    Session.resolve 1 ⟨0⟩ ⟨3, [.var ⟨0⟩]⟩ ⟨(Store.empty.freshMany 1).2, .start false⟩ =
        .success inCircle ∧
      twos.Askable [⟨0, [.app 2 []]⟩] inCircle.store ∧ Faithful throughout.answer ∧
      InScope inCircle.store.nextVar throughout.answer ∧
      (∃ s', twos.enumerate throughout 20 [⟨0, [.app 2 []]⟩] inCircle.store () =
        some (.exhausted 1, s', ())) ∧
      ∀ answers k, twos.solutions Search.instanceFirst answers k [⟨0, [.app 2 []]⟩]
        inCircle.store = none := by
  have hrun : (twos.enumerate throughout 20 [⟨0, [.app 2 []]⟩] inCircle.store ()).map (·.1) =
      some (.exhausted 1) := by decide
  obtain ⟨⟨ending, s', m'⟩, h, he⟩ := Option.map_eq_some_iff.mp hrun
  cases he
  refine ⟨rfl, twos_askable, throughout_faithful, throughout_inScope _, ⟨s', h⟩,
    fun answers k => ?_⟩
  have hvalue : inCircle.store.value ⟨0⟩ = some ⟨3, [.var ⟨0⟩]⟩ := rfl
  cases k with
  | zero => rfl
  | succ k =>
    -- the first clause has no instance, however many levels there are
    have hnone : Clause.instantiate ⟨⟨0, [.app 1 []]⟩, [⟨1, [.var ⟨0⟩]⟩]⟩ k inCircle.store =
        none := by
      rw [Clause.instantiate_eq]
      cases copyGoal (inCircle.store.copyTerm k) ⟨0, [.app 1 []]⟩ _ with
      | none => rfl
      | some r => simp [copyGoals, copyGoal, copyEach, Store.copyTerm_of_circle hvalue]
    have hclauses : twos.clausesFor ⟨0, 1⟩ =
        [⟨⟨0, [.app 1 []]⟩, [⟨1, [.var ⟨0⟩]⟩]⟩, .fact ⟨0, [.app 2 []]⟩] := rfl
    show Option.map _ (Search.eachClause (Search.expand Search.instanceFirst _ k _ _ _ _)
      (twos.clausesFor ⟨0, 1⟩) 0) = none
    rw [hclauses, Search.eachClause, Search.expand, Search.instanceFirst, hnone]
    rfl

end Horn
