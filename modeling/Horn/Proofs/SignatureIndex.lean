import Horn.Proofs.Conjunctions
import Horn.Proofs.Instances

/-! # The index by signature

    A program files its clauses by signature, and a goal is tried against those of its own
    signature only.  That neither loses a clause nor changes the order of any two that
    matter:

    * `Supplied.clausesFor_eq`: what is found under a signature are the clauses ever supplied
      that have it, in the order in which they were supplied, however they were supplied.
    * `tryClause_of_signature_ne`: a clause of another signature clashes with the goal before
      anything is bound.
    * `explore_indexed`: so an exploration that tries all clauses does what the one with the
      index does, and stutters at the clauses that are not filed there.

    Main statement: `index_loses_and_reorders_nothing`. -/

namespace Horn

universe u v w

variable {A : Type u} [DecidableEq A]

namespace Program

/-! ## Supplying clauses -/

/-- The program has been made by supplying these clauses, in this order. -/
inductive Supplied : Program A → List (Clause A) → Prop where
  | empty (o : Options) : Supplied (.empty o) []
  | ofList (cs : List (Clause A)) (o : Options) : Supplied (.ofList cs o) cs
  | add {p : Program A} {cs : List (Clause A)} (c : Clause A) :
      Supplied p cs → Supplied (p.add c) (cs ++ [c])
  | addAll {p : Program A} {cs : List (Clause A)} (ds : List (Clause A)) :
      Supplied p cs → Supplied (p.addAll ds) (cs ++ ds)
  | addNoting {p : Program A} {cs : List (Clause A)} {μ : Type w} (note : Event A → μ → μ)
      (ds : List (Clause A)) (memory : μ) :
      Supplied p cs → Supplied (Program.addNoting note ds p memory).1 (cs ++ ds)
  | setOptions {p : Program A} {cs : List (Clause A)} (o : Options) :
      Supplied p cs → Supplied { p with options := o } cs

variable {p : Program A} {cs : List (Clause A)}

/-- The clauses of this signature, in their order. -/
def ofSignature (f : Signature A) (cs : List (Clause A)) : List (Clause A) :=
  cs.filter fun c => c.signature = f

@[simp] theorem ofSignature_append (f : Signature A) (cs ds : List (Clause A)) :
    ofSignature f (cs ++ ds) = ofSignature f cs ++ ofSignature f ds := by
  simp [ofSignature]

theorem ofSignature_cons (f : Signature A) (c : Clause A) (cs : List (Clause A)) :
    ofSignature f (c :: cs) = ofSignature f [c] ++ ofSignature f cs :=
  ofSignature_append f [c] cs

/-- To file a clause puts it last among those of its signature, and leaves the others. -/
theorem lookup_file (c : Clause A) (groups : List (Signature A × List (Clause A)))
    (f : Signature A) :
    ((file c groups).lookup f).getD [] = (groups.lookup f).getD [] ++ ofSignature f [c] := by
  induction groups with
  | nil =>
    by_cases hf : f = c.signature
    · simp [file, ofSignature, hf]
    · simp [file, ofSignature, List.lookup_cons, beq_eq_false_iff_ne.mpr hf, Ne.symm hf]
  | cons group groups ih =>
    obtain ⟨f', ds⟩ := group
    unfold file
    by_cases hf' : f' = c.signature
    · rw [if_pos hf']
      by_cases hf : f = f'
      · simp [ofSignature, hf, hf']
      · have hne : c.signature ≠ f := fun he => hf (he.symm.trans hf'.symm)
        simp [ofSignature, List.lookup_cons, beq_eq_false_iff_ne.mpr hf, hne]
    · rw [if_neg hf']
      by_cases hf : f = f'
      · have hne : c.signature ≠ f := fun he => hf' (hf.symm.trans he.symm)
        simp [ofSignature, hf, Ne.symm hf']
      · simpa [List.lookup_cons, beq_eq_false_iff_ne.mpr hf] using ih

theorem clausesFor_add (p : Program A) (c : Clause A) (f : Signature A) :
    (p.add c).clausesFor f = p.clausesFor f ++ ofSignature f [c] := lookup_file c p.groups f

theorem clausesFor_addAll (p : Program A) (ds : List (Clause A)) (f : Signature A) :
    (p.addAll ds).clausesFor f = p.clausesFor f ++ ofSignature f ds := by
  induction ds generalizing p with
  | nil => simp [addAll, ofSignature]
  | cons d ds ih =>
    show ((p.add d).addAll ds).clausesFor f = _
    rw [ih, clausesFor_add, ofSignature_cons f d ds, List.append_assoc]

theorem clausesFor_addNoting {μ : Type w} (note : Event A → μ → μ) (p : Program A)
    (ds : List (Clause A)) (memory : μ) (f : Signature A) :
    (Program.addNoting note ds p memory).1.clausesFor f = p.clausesFor f ++ ofSignature f ds := by
  induction ds generalizing p memory with
  | nil => simp [Program.addNoting, ofSignature]
  | cons d ds ih =>
    show (Program.addNoting note ds (p.add d) _).1.clausesFor f = _
    rw [ih, clausesFor_add, ofSignature_cons f d ds, List.append_assoc]

/-- However the clauses have been supplied, none is lost and their order is kept. -/
theorem Supplied.clausesFor_eq (h : p.Supplied cs) (f : Signature A) :
    p.clausesFor f = ofSignature f cs := by
  have hempty : ∀ o, (Program.empty o : Program A).clausesFor f = [] := fun _ => rfl
  induction h with
  | empty o => exact hempty o
  | ofList cs o =>
    unfold Program.ofList
    rw [clausesFor_addAll, hempty, List.nil_append]
  | add c _ ih => rw [clausesFor_add, ih, ofSignature_append]
  | addAll ds _ ih => rw [clausesFor_addAll, ih, ofSignature_append]
  | addNoting note ds memory _ ih => rw [clausesFor_addNoting, ih, ofSignature_append]
  | setOptions o _ ih => exact ih

/-- What is found under a signature has it. -/
theorem Supplied.signature_eq (h : p.Supplied cs) {f : Signature A} {c : Clause A}
    (hc : c ∈ p.clausesFor f) : c.signature = f := by
  rw [h.clausesFor_eq] at hc
  exact of_decide_eq_true (List.mem_filter.mp hc).2

end Program

namespace Search

/-! ## Clauses of another signature -/

/-- The search that tries all clauses for every goal. -/
def Source.scanning (cs : List (Clause A)) (o : Options) : Source A := ⟨fun _ => cs, o⟩

theorem unify_of_signature_ne {c d : Compound A} (h : c.signature ≠ d.signature) (n : Nat)
    (w w' : Session A) : unify n c.toTerm d.toTerm w ≠ .success w' := by
  intro hu
  cases n with
  | zero => simp [unify] at hu
  | succ n =>
    simp only [Compound.toTerm, unify] at hu
    split at hu
    · cases hu
    · next hname =>
      split at hu
      · cases hu
      · next harity =>
        apply h
        simp only [Compound.signature, Compound.arity, Signature.mk.injEq]
        exact ⟨not_not.mp hname, not_not.mp harity⟩

/-- Such a clause is never used. -/
theorem tryClause_of_signature_ne {n : Nat} {goal : Compound A} {c : Clause A} {w w' : Session A}
    {r : Option (List (Compound A))} (hc : c.signature ≠ goal.signature)
    (h : tryClause n goal c w = some (w', r)) : r = none := by
  cases r with
  | none => rfl
  | some body =>
    obtain ⟨head, p, v, q, hu, -, -⟩ := tryClause_eq_some_iff.mp h
    have hhead : goal.signature ≠ head.signature := by
      rw [copyGoal_signature hu.copied]
      exact fun he => hc he.symm
    exact absurd hu.unified (unify_of_signature_ne hhead n w v)

/-! ## Explorations -/

/-- The frame without the clauses of another signature. -/
def Frame.indexed (f : Frame A) : Frame A :=
  { f with candidates := Program.ofSignature f.goal.compound.signature f.candidates }

section indexed

variable {src src' : Source A} {onMatch : Store A → Nat → Option (Report A)}
  (hclauses : ∀ f, src'.clausesFor f = Program.ofSignature f (src.clausesFor f))
  (hoptions : src'.options = src.options)
include hclauses hoptions

omit hoptions in
theorem Frame.start_indexed (g : Goal A) (rest : List (Goal A)) (s : Store A) :
    Frame.start src' g rest s = (Frame.start src g rest s).indexed := by
  unfold Frame.start Frame.indexed
  rw [hclauses]

theorem onward_indexed (goals : List (Goal A)) (s : Store A) :
    onward src' goals s =
      ((onward src goals s).1, (onward src goals s).2.map Frame.indexed) := by
  cases goals with
  | nil => rfl
  | cons g rest =>
    unfold onward
    simp only [hoptions]
    split
    · rfl
    · simp [Frame.start_indexed hclauses]

/-- With the index a frame takes the same step, or none if its clause is not filed there. -/
theorem Frame.step_indexed {n : Nat} {f : Frame A} {view : Option (Store A)}
    {frames : List (Frame A)} (h : f.step src n = some (view, frames)) :
    f.indexed.step src' n = some (view, frames.map Frame.indexed) ∨
      view = none ∧ frames.map Frame.indexed = [f.indexed] := by
  obtain ⟨g, rest, cs, s⟩ := f
  cases cs with
  | nil =>
    cases h
    exact .inl rfl
  | cons c cs =>
    obtain ⟨o, ho, he⟩ := Option.map_eq_some_iff.mp h
    by_cases hc : c.signature = g.compound.signature
    · left
      have hindexed : Frame.indexed ⟨g, rest, c :: cs, s⟩ =
          ⟨g, rest, c :: Program.ofSignature g.compound.signature cs, s⟩ := by
        simp [Frame.indexed, Program.ofSignature, hc]
      rw [hindexed, Frame.step, hoptions, ho]
      cases o with
      | none =>
        cases he
        rfl
      | some r =>
        cases he
        simp only [Option.map_some, onward_indexed hclauses hoptions, List.map_append]
        rfl
    · right
      obtain ⟨⟨w', body⟩, hq, rfl⟩ := Option.map_eq_some_iff.mp ho
      obtain rfl : body = none := tryClause_of_signature_ne hc hq
      cases he
      simp [Frame.indexed, Program.ofSignature, hc]

/-- If the exploration that tries all these clauses comes to an end, so does the one with
    the index, and reports the same. -/
theorem explore_indexed {n : Nat} {fs : List (Frame A)} {found : Nat} {r : Report A}
    (h : explore src onMatch n fs found = some r) :
    explore src' onMatch n (fs.map Frame.indexed) found = some r := by
  induction n generalizing fs found r with
  | zero => cases h
  | succ n ih =>
    cases fs with
    | nil => exact h
    | cons f fs =>
      obtain ⟨view, frames, hf, h⟩ := step_of_explore h
      rcases Frame.step_indexed hclauses hoptions hf with hstep | ⟨rfl, hstay⟩
      · rw [List.map_cons, explore_cons hstep]
        refine goOn_mono (fun _ hr => hr) (fun k r hr => ?_) h
        rw [← List.map_append]
        exact ih hr
      · -- the clause is not filed under this signature: one step less
        simp only [told, goOn_none] at h
        have hrest := ih h
        rw [List.map_append, hstay] at hrest
        exact (explore_settled _ found).mono (Nat.le_succ n) hrest

theorem exploreGoals_indexed {n : Nat} {goals : List (Compound A)} {s : Store A} {found : Nat}
    {r : Report A} (h : exploreGoals src onMatch n goals s found = some r) :
    exploreGoals src' onMatch n goals s found = some r := by
  cases goals with
  | nil => exact h
  | cons g rest =>
    unfold exploreGoals
    simp only [Frame.start_indexed hclauses]
    exact explore_indexed hclauses hoptions h

end indexed

end Search

/-! ## Queries -/

section queries

variable {p : Program A} {cs : List (Clause A)}

theorem Program.Supplied.scanning_old {goals : List (Compound A)} {s : Store A}
    (hp : p.Supplied cs) (h : p.Made goals s) :
    (Search.Source.scanning cs p.options).Old s.nextVar := by
  intro f c hc
  have hfound : c ∈ p.clausesFor c.signature := by
    rw [hp.clausesFor_eq]
    exact List.mem_filter.mpr ⟨hc, by simp⟩
  exact h.clauses c (p.mem_clauses hfound)

/-- **The index loses and reorders nothing.**  Let a program have been made by supplying
    clauses in this order, in whatever way.  Under every signature one finds the clauses
    that have it, in this order.

    And let the client of a query leave the store as it finds it and come to an answer at
    every match.  Whenever the search that tries all clauses for every goal returns, the
    client has given some sequence of answers, and following these is what it did.  Whatever
    answers it follows: if that search returns, then so does the query, at the same number
    of levels and with the same ending; and the client has been called equally often, each
    time in stores that look the same from all variables made before. -/
theorem index_loses_and_reorders_nothing (hp : Program.Supplied.{u, w} p cs) :
    (∀ f, p.clausesFor f = cs.filter fun c => c.signature = f) ∧
    ∀ (σ : Type v) (client : Client A σ) (goals : List (Compound A)) (s : Store A) (memory : σ),
      p.Made goals s → Faithful client.answer → InScope s.nextVar client.answer →
      (∀ s m, client.answer s m ≠ none) →
      (∀ n ending t m, Search.enumerate (.scanning cs p.options) client n goals s memory =
          some (ending, t, m) →
        ∃ calls : List (Store A × Signal), ∀ answers,
          (∀ k call, calls[k]? = some call → answers k = call.2) →
          Search.enumerate (.scanning cs p.options) (client.following answers) n goals s
            (memory, []) = some (ending, t, m, calls)) ∧
      ∀ answers n ending t m calls,
        Search.enumerate (.scanning cs p.options) (client.following answers) n goals s
            (memory, []) = some (ending, t, m, calls) →
          ∃ t' m' calls', p.enumerate (client.following answers) n goals s (memory, []) =
              some (ending, t', m', calls') ∧
            List.Forall₂ (fun call call' => call.1.SameFrom s.nextVar call'.1) calls calls' := by
  refine ⟨hp.clausesFor_eq, ?_⟩
  intro σ client goals s memory h hc hscope htotal
  refine ⟨fun n ending t m hrun => Search.enumerate_following _ client n goals s memory hrun, ?_⟩
  intro answers n ending t m calls hrun
  have hlike := Client.following_answersLike hc hscope htotal answers
  have hself : s.Shows s.nextVar id s := h.inScope.shows s.nextVar
  have hscan := Search.enumerate_explored (hp.scanning_old h) hlike n h.goals hself h.workable
    h.workable (memory, [])
  have hindex := Search.enumerate_explored h.old hlike n h.goals hself h.workable h.workable
    (memory, [])
  obtain ⟨r, hr, hlog⟩ := exists_left_of_rel hscan hrun
  -- the exploration with the index reports the same
  have hfiled : ∀ f, p.source.clausesFor f =
      Program.ofSignature f ((Search.Source.scanning cs p.options).clausesFor f) :=
    hp.clausesFor_eq
  have hr' := Search.exploreGoals_indexed hfiled rfl hr
  obtain ⟨⟨ending', t', m', calls'⟩, hrun', hlog'⟩ := exists_right_of_rel hindex hr'
  obtain ⟨rfl, hcalls⟩ := Search.sameQuery_of_logged hrun hrun' hlog hlog'
  exact ⟨t', m', calls', hrun', hcalls⟩

end queries

/-! ### Clauses supplied in another order -/

/-- A fact, a rule and a second fact: `0(1).  3(X) if 0(X).  0(2).` -/
def mixed : List (Clause Nat) :=
  [.fact ⟨0, [.app 1 []]⟩, ⟨⟨3, [.var ⟨0⟩]⟩, [⟨0, [.var ⟨0⟩]⟩]⟩, .fact ⟨0, [.app 2 []]⟩]

/-- Supplied one by one or several at a time, they make the program that has both facts
    before the rule.  Trying all three for `3(Y)`, and then all three for `0(X)`, leads to
    the second match as the index does. -/
theorem mixed_clauses_lead_to_second_match :
    (∀ f, evens.clausesFor f = mixed.filter fun c => c.signature = f) ∧
    ∃ t m calls t' m' calls',
      Search.enumerate (.scanning mixed ⟨true, some 2⟩) (throughout.following (Search.haltAt 1)) 20
          [⟨3, [.var ⟨1⟩]⟩] (Store.empty.freshMany 2).2 ((), []) =
        some (.stopped 2, t, m, calls) ∧
      evens.enumerate (throughout.following (Search.haltAt 1)) 20 [⟨3, [.var ⟨1⟩]⟩]
          (Store.empty.freshMany 2).2 ((), []) = some (.stopped 2, t', m', calls') ∧
      List.Forall₂ (fun call call' => call.1.SameFrom 2 call'.1) calls calls' := by
  have hsupplied : Program.Supplied.{0, 0} evens mixed := by
    have hempty := Program.Supplied.empty (A := Nat) (Options.mk false none)
    have hoptions := (hempty.add (.fact ⟨0, [.app 1 []]⟩)).setOptions ⟨true, some 2⟩
    exact hoptions.addAll [⟨⟨3, [.var ⟨0⟩]⟩, [⟨0, [.var ⟨0⟩]⟩]⟩, .fact ⟨0, [.app 2 []]⟩]
  have hall := index_loses_and_reorders_nothing hsupplied
  refine ⟨hall.1, ?_⟩
  have hscan : (Search.enumerate (.scanning mixed ⟨true, some 2⟩)
      (throughout.following (Search.haltAt 1)) 20 [⟨3, [.var ⟨1⟩]⟩] (Store.empty.freshMany 2).2
      ((), [])).map (·.1) = some (.stopped 2) := by
    decide
  obtain ⟨⟨_, t, m, calls⟩, hrun, rfl⟩ := Option.map_eq_some_iff.mp hscan
  obtain ⟨t', m', calls', hrun', hcalls⟩ := (hall.2 Unit throughout _ _ ()
    evens_askable.made throughout_faithful (throughout_inScope 2) (fun _ _ => nofun)).2
      _ _ _ _ _ _ hrun
  exact ⟨t, m, calls, t', m', calls', hrun, hrun', hcalls⟩

end Horn
