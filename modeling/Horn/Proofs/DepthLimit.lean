import Horn.Proofs.Explored
import Horn.Proofs.Instances
import Horn.Proofs.Nesting
import Horn.Proofs.OccursCheck
import Horn.Proofs.Stopping
import Horn.Proofs.UnifyEnds
import Mathlib.Logic.Hydra
import Mathlib.Tactic.Abel

/-! # A depth limit makes every search end

    With the occurs check on, every attempt in an acyclic store ends (`exists_tryClause`)
    and leads to an acyclic store.  With a limit on depth, to expand a goal replaces its
    distance from the limit by finitely many smaller ones.  The multiset of the distances
    of all goals of a frame therefore becomes smaller in the order that permits just that
    (`cutExpand_distances`), and a frame is worked off in the end: by induction along this
    order, and for one choice of goals along the clauses that are left for the first
    (`concludes_frame`).

    A search that takes the answer to be always to go on explores such frames, and one
    that is stopped takes no more steps.

    Main statement: `depth_limit_ends_search`. -/

namespace Horn

universe u v

variable {A : Type u} {σ : Type v}

/-! ## Attempts end -/

/-- A session that begins in an acyclic store is ready. -/
theorem Store.Workable.ready {n₀ : Nat} {s : Store A} (hs : s.Workable n₀)
    (hacyclic : s.Acyclic) : Session.Ready ⟨s, .start true⟩ :=
  ⟨Session.consistent_start hs.consistent true, hacyclic, rfl⟩

namespace Search

section attempts

variable [DecidableEq A] {goal : Compound A} {c : Clause A} {w w' : Session A}

/-- In an acyclic store and with the occurs check on, every clause can be tried. -/
theorem exists_tryClause (hw : w.Ready) (hscope : w.Scoped w.store.nextVar)
    (hgoal : goal.Within w.store.Born) (c : Clause A) : ∃ n r, tryClause n goal c w = some r := by
  obtain ⟨n, q, hq⟩ : ∃ n q, copyGoal (w.store.copyTerm n) c.head ⟨.empty, w.store.nextVar⟩ =
      some q := by
    have hends : ∀ h ∈ [c.head], w.store.Ends h.toTerm := fun h _ => hw.acyclic.ends h.toTerm
    obtain ⟨n, r, hr⟩ := (Store.exists_copyGoals_iff ⟨.empty, w.store.nextVar⟩).mpr hends
    obtain ⟨head, p, -, -, hq, -⟩ := copyGoals_cons_eq_some_iff.mp hr
    exact ⟨n, _, hq⟩
  obtain ⟨head, p⟩ := q
  -- goal and head are over the variables that have been made by then
  obtain ⟨hfresh, hsince⟩ := w.store.copyGoal_fresh n hq (Copying.since_empty w.store.nextVar)
  obtain ⟨m, hm⟩ := hw.decides (hscope.mono hsince.le)
    (Compound.Within.mono (fun _ hx => Nat.lt_of_lt_of_le hx hsince.le) hgoal)
    (Compound.Within.mono (fun _ hx => hx.2) hfresh)
  have hcopied := copyGoal_mono (fun _ _ _ => Store.copyTerm_mono (Nat.le_max_left n m)) hq
  have hunify := unify_mono (Nat.le_max_right n m) goal.toTerm head.toTerm w hm
  cases ho : unify m goal.toTerm head.toTerm w with
  | cutOff => exact absurd ho hm
  | failure e v =>
    refine ⟨max n m, (v.setNext p.nextVar, none), ?_⟩
    rw [tryClause, hcopied, Option.bind_some, hunify, ho]
  | success v =>
    have hv : v.Ready := (unify_solved _ _ _ w v hw ho).ready
    obtain ⟨k, v', body, htry⟩ := exists_tryClause_iff.mpr
      ⟨max n m, head, p, v, ⟨hcopied, hunify.trans ho⟩, fun g _ => hv.acyclic.ends g.toTerm⟩
    exact ⟨k, _, htry⟩

/-- A clause that could be used leaves the store acyclic. -/
theorem tryClause_ready (hw : w.Ready) {n : Nat} {body : List (Compound A)}
    (h : tryClause n goal c w = some (w', some body)) : w'.Ready := by
  obtain ⟨head, p, v, q, hu, -, rfl⟩ := tryClause_eq_some_iff.mp h
  exact (unify_solved n _ _ w v hw hu.unified).ready.setNext _

theorem exists_attemptIn {n₀ : Nat} {s : Store A} (hs : s.Workable n₀) (hacyclic : s.Acyclic)
    (hgoal : goal.Within s.Born) (c : Clause A) : ∃ n o, attemptIn true n goal c s = some o := by
  obtain ⟨n, r, hr⟩ :=
    exists_tryClause (hs.ready hacyclic) (Session.scoped_start hs.inScope true) hgoal c
  refine ⟨n, r.2.map fun gs => (gs, r.1.store), ?_⟩
  rw [attemptIn, hr]
  rfl

/-- What an attempt leaves is a store that can be worked in again, and the body is over
    variables that have been made. -/
theorem attemptIn_keeps {n₀ n : Nat} {s s' : Store A} {body : List (Compound A)}
    (hs : s.Workable n₀) (hacyclic : s.Acyclic) (hgoal : goal.Within s.Born)
    (h : attemptIn true n goal c s = some (some (body, s'))) :
    (s'.Workable n₀ ∧ s.nextVar ≤ s'.nextVar) ∧ s'.Acyclic ∧ ∀ g ∈ body, g.Within s'.Born := by
  have hready := hs.ready hacyclic
  obtain ⟨⟨v, r⟩, htry, he⟩ := Option.map_eq_some_iff.mp h
  obtain ⟨body', rfl, he⟩ := Option.map_eq_some_iff.mp he
  cases he
  obtain ⟨hext, hsound, -, hbody⟩ :=
    tryClause_keeps ⟨hready.consistent, Session.scoped_start hs.inScope true⟩ hgoal htry
  have hle : s.nextVar ≤ v.store.nextVar := hext.nextVar_le
  exact ⟨⟨⟨hsound.consistent.store, hsound.inScope.store, Nat.le_trans hs.le hle⟩, hle⟩,
    (tryClause_ready hready htry).acyclic, hbody body rfl⟩

end attempts

/-! ## Stacks that are worked off -/

section concludes

variable [DecidableEq A] {src : Source A} {onMatch : Store A → Nat → Option (Report A)}

/-- The stack is worked off in the end, however many matches there were before. -/
def Concludes (src : Source A) (onMatch : Store A → Nat → Option (Report A))
    (fs : List (Frame A)) : Prop :=
  ∀ found, ∃ n r, explore src onMatch n fs found = some r

theorem concludes_nil : Concludes src onMatch [] := fun _ => ⟨1, .none, rfl⟩

omit [DecidableEq A] in
theorem exists_goOn_eq_some {o : Option (Report A)} {f : Nat → Nat → Option (Report A)}
    (found : Nat) (ho : ∃ r, o = some r) (hf : ∀ k, ∃ n r, f n k = some r) :
    ∃ n r, goOn o (f n) found = some r := by
  obtain ⟨r, rfl⟩ := ho
  obtain ⟨n, r', hr'⟩ := hf (found + r.views.length)
  refine ⟨n, ?_⟩
  simp only [goOn]
  split
  · exact ⟨r, rfl⟩
  · exact ⟨r.before r', by rw [hr']; rfl⟩

theorem Concludes.append {fs fs' : List (Frame A)} (h : Concludes src onMatch fs)
    (h' : Concludes src onMatch fs') : Concludes src onMatch (fs ++ fs') := by
  intro found
  obtain ⟨n, r, hr⟩ := h found
  obtain ⟨m, r', hr'⟩ := exists_goOn_eq_some found ⟨r, hr⟩ h'
  exact ⟨n + m, r', explore_join hr'⟩

/-- A frame is worked off if it can take a step and what takes its place is worked off. -/
theorem Concludes.of_step (hmatch : ∀ s found, ∃ r, onMatch s found = some r) {n : Nat}
    {f : Frame A} {view : Option (Store A)} {frames : List (Frame A)}
    (hf : f.step src n = some (view, frames)) (h : Concludes src onMatch frames) :
    Concludes src onMatch [f] := by
  intro found
  have htold : ∃ r, told onMatch view found = some r := by
    cases view with
    | none => exact ⟨.none, rfl⟩
    | some s => exact hmatch s found
  obtain ⟨m, r, hr⟩ := exists_goOn_eq_some found htold h
  refine ⟨max n m + 1, r, ?_⟩
  rw [explore_cons (Frame.step_mono (Nat.le_max_left n m) hf), List.append_nil]
  exact goOn_mono (fun _ h => h)
    (fun k r => (explore_settled frames k).mono (Nat.le_max_right n m)) hr

end concludes

/-! ## Distances from the limit -/

/-- How many expansions the goals are away from lying too deep. -/
def distances (max : Nat) (goals : List (Goal A)) : Multiset Nat :=
  (goals.map fun g => max + 1 - g.depth : List Nat)

/-- To expand a goal that does not lie too deep replaces its distance by smaller ones. -/
theorem cutExpand_distances {max : Nat} {g : Goal A} (hg : g.depth ≤ max)
    (body : List (Compound A)) (rest : List (Goal A)) :
    Relation.CutExpand (· < ·) (distances max (body.map (⟨·, g.depth + 1⟩) ++ rest))
      (distances max (g :: rest)) := by
  refine ⟨distances max (body.map (⟨·, g.depth + 1⟩)), max + 1 - g.depth, fun k hk => ?_, ?_⟩
  · obtain ⟨g', hg', rfl⟩ := List.mem_map.mp (Multiset.mem_coe.mp hk)
    obtain ⟨b, -, rfl⟩ := List.mem_map.mp hg'
    show max + 1 - (g.depth + 1) < max + 1 - g.depth
    omega
  · rw [distances, distances, distances, List.map_append, List.map_cons, ← Multiset.coe_add,
      ← Multiset.cons_coe, ← Multiset.singleton_add]
    abel

section limit

variable [DecidableEq A] {src : Source A} {onMatch : Store A → Nat → Option (Report A)}

/-- With a limit on depth, every frame is worked off that has an acyclic store. -/
theorem concludes_frame {n₀ max : Nat} (hcheck : src.options.occursCheck = true)
    (hmax : src.options.maxDepth = some max) (hsrc : src.Old n₀)
    (hmatch : ∀ s found, ∃ r, onMatch s found = some r) {f : Frame A} (hf : f.Workable n₀)
    (hacyclic : f.store.Acyclic) (hdepth : f.goal.depth ≤ max) : Concludes src onMatch [f] := by
  have hwf : WellFounded (Relation.CutExpand (α := Nat) (· < ·)) := wellFounded_lt.cutExpand
  induction hD : distances max (f.goal :: f.rest) using hwf.induction generalizing f with
  | _ D ih =>
    subst hD
    obtain ⟨g, rest, cs, s⟩ := f
    -- for goals at these distances, one clause after the other
    induction cs with
    | nil => exact .of_step hmatch (n := 0) rfl concludes_nil
    | cons c cs ihc =>
      have hgoal : g.compound.Within s.Born := hf.made g (List.mem_cons_self ..)
      have hrest : Concludes src onMatch [⟨g, rest, cs, s⟩] := ihc hf.later hacyclic hdepth ih
      obtain ⟨n, o, ho⟩ := exists_attemptIn hf.store hacyclic hgoal c
      cases o with
      | none =>
        have hstep : Frame.step src n ⟨g, rest, c :: cs, s⟩ = some (none, [⟨g, rest, cs, s⟩]) := by
          rw [Frame.step, hcheck, ho]
          rfl
        exact .of_step hmatch hstep hrest
      | some r =>
        obtain ⟨body, s'⟩ := r
        obtain ⟨⟨hwork, hle⟩, hacyclic', hbody⟩ := attemptIn_keeps hf.store hacyclic hgoal ho
        let goals := body.map (Goal.mk · (g.depth + 1)) ++ rest
        have hstep : Frame.step src n ⟨g, rest, c :: cs, s⟩ =
            some ((onward src goals s').1, (onward src goals s').2 ++ [⟨g, rest, cs, s⟩]) := by
          rw [Frame.step, hcheck, ho]
          rfl
        refine .of_step hmatch hstep (Concludes.append ?_ hrest)
        have hmade : ∀ g' ∈ goals, g'.compound.Within s'.Born :=
          within_expanded hle hbody (fun g' hg' => hf.made g' (List.mem_cons_of_mem _ hg')) _
        have hless : Relation.CutExpand (· < ·) (distances max goals) (distances max (g :: rest)) :=
          cutExpand_distances hdepth body rest
        generalize goals = goals at hmade hless
        cases goals with
        | nil => exact concludes_nil
        | cons g' rest' =>
          unfold onward
          simp only
          split
          · exact concludes_nil
          · next hdeep =>
            -- the goal does not lie too deep, and the new goals are nearer to the limit
            have hdepth' : g'.depth ≤ max :=
              tooDeep_eq_false_iff.mp (Bool.eq_false_iff.mpr hdeep) max hmax
            exact ih _ hless (Frame.workable_start hsrc hwork hmade) hacyclic' hdepth' rfl

theorem exists_exploreGoals {n₀ max : Nat} (hcheck : src.options.occursCheck = true)
    (hmax : src.options.maxDepth = some max) (hsrc : src.Old n₀)
    (hmatch : ∀ s found, ∃ r, onMatch s found = some r) {goals : List (Compound A)} {s : Store A}
    (hs : s.Workable n₀) (hacyclic : s.Acyclic) (hgoals : ∀ g ∈ goals, g.Within s.Born)
    (found : Nat) : ∃ n r, exploreGoals src onMatch n goals s found = some r := by
  cases goals with
  | nil =>
    obtain ⟨r, hr⟩ := hmatch s found
    exact ⟨0, r, hr⟩
  | cons g rest =>
    exact concludes_frame hcheck hmax hsrc hmatch (f := .start src ⟨g, 0⟩ (rest.map (⟨·, 0⟩)) s)
      (Frame.workable_start hsrc hs (within_query hgoals)) hacyclic (Nat.zero_le max) found

/-! ## Queries -/

/-- A query that returns if the client always goes on returns whatever the client does. -/
theorem exists_enumerate_of_persisting {c : Client A σ} {n : Nat} {goals : List (Compound A)}
    {s : Store A} {m : σ} (h : ∃ r, enumerate src c.persisting n goals s (m, []) = some r) :
    ∃ r, enumerate src c n goals s m = some r := by
  have hrecording : ∃ r, enumerate src c.recording n goals s (m, []) = some r := by
    rcases enumerate_recording_cases src c n goals s m with ⟨-, heq⟩ | ⟨_, _, _, _, _, -, -, heq⟩
    · rwa [heq]
    · exact ⟨_, heq⟩
  obtain ⟨r, hr⟩ := hrecording
  exact ⟨_, by rw [enumerate_recording c n goals s m [], hr]; rfl⟩

end limit

end Search

section queries

variable [DecidableEq A] {p : Program A} {goals : List (Compound A)} {s : Store A}
  {client : Client A σ} {max : Nat}

/-- **A depth limit makes every search end.**  Let the occurs check be on, depth be limited,
    and the store be acyclic, and let the client come to an answer at every match and leave
    the store as it finds it.  Then the query returns, whatever the clauses are.

    In all states that the search comes to, the goal of the newest choice point, which is
    the only one that clauses are tried for, is nested in no more expansions than the
    limit permits. -/
theorem depth_limit_ends_search (h : p.Made goals s) (hacyclic : s.Acyclic)
    (hcheck : p.options.occursCheck = true) (hmax : p.options.maxDepth = some max)
    (hc : Faithful client.answer) (hscope : InScope s.nextVar client.answer)
    (htotal : ∀ s m, client.answer s m ≠ none) (memory : σ) :
    (∃ n r, p.enumerate client n goals s memory = some r) ∧
    ∀ g rest t point points, goals = g :: rest →
      Search.ComesTo p.source client
          (Search.start p.source g rest s (client.note s (.opened goals.length) memory)) t →
        t.points = point :: points →
        ∃ k later, k ≤ max ∧ ∀ pending,
          Search.Nested p.source goals (t.points.map Search.ChoicePoint.compounds) pending ↔
            pending = (point.goal.compound, k) :: later := by
  constructor
  · -- with a client that always goes on the query explores frames, which are worked off
    have hlike := Client.following_answersLike hc hscope htotal fun _ => .proceed
    have hreport : ∀ (s : Store A) found, ∃ r, reporting (fun _ => .proceed) s found = some r :=
      fun _ _ => ⟨_, rfl⟩
    obtain ⟨n, r, hr⟩ := Search.exists_exploreGoals (hcheck : p.source.options.occursCheck = true)
      hmax h.old hreport h.workable hacyclic h.goals 0
    obtain ⟨q, hq, -⟩ := exists_right_of_rel (Search.enumerate_explored h.old hlike n h.goals
      (h.inScope.shows _) h.workable h.workable (memory, [])) hr
    exact ⟨n, Search.exists_enumerate_of_persisting ⟨q, hq⟩⟩
  · rintro g rest t point points rfl hcomes hpoints
    have htallied := hcomes.tallied
    rw [hpoints] at htallied
    cases htallied with
    | cons hnested _ hdeep _ =>
      rw [← hpoints] at hnested
      exact ⟨point.goal.depth, _, Search.tooDeep_eq_false_iff.mp hdeep max hmax, fun pending =>
        ⟨fun hpending => hpending.unique hnested, fun heq => heq ▸ hnested⟩⟩

end queries

/-! ### A left-recursive program -/

/-- `0(X) if 1(X), 0(X).  1(X) if 0(X).  0(2).` -/
def circular : Program Nat :=
  .ofList [⟨⟨0, [.var ⟨0⟩]⟩, [⟨1, [.var ⟨0⟩]⟩, ⟨0, [.var ⟨0⟩]⟩]⟩,
    ⟨⟨1, [.var ⟨0⟩]⟩, [⟨0, [.var ⟨0⟩]⟩]⟩, .fact ⟨0, [.app 2 []]⟩] ⟨true, some 3⟩

theorem circular_made : circular.Made [⟨0, [.var ⟨1⟩]⟩] (Store.empty.freshMany 2).2 where
  consistent := Store.consistent_empty.fresh.fresh
  inScope := (Store.scoped_empty.mono (Nat.zero_le 2)).setNext 2
  goals g hg := by
    rw [List.mem_singleton.mp hg]
    exact Compound.within_of_var Nat.one_lt_two
  clauses c hc g hg x hx := by
    have hclauses : circular.clauses = [⟨⟨0, [.var ⟨0⟩]⟩, [⟨1, [.var ⟨0⟩]⟩, ⟨0, [.var ⟨0⟩]⟩]⟩,
        .fact ⟨0, [.app 2 []]⟩, ⟨⟨1, [.var ⟨0⟩]⟩, [⟨0, [.var ⟨0⟩]⟩]⟩] := rfl
    have hx0 : x = ⟨0⟩ := by
      rw [hclauses] at hc
      simp only [List.mem_cons, List.not_mem_nil, or_false] at hc
      rcases hc with rfl | rfl | rfl
      · simp only [List.mem_cons, List.not_mem_nil, or_false] at hg
        rcases hg with rfl | rfl | rfl <;> simpa [Compound.mentions_iff] using hx
      · simp only [Clause.fact, List.mem_singleton] at hg
        simp [hg, Compound.mentions_iff] at hx
      · simp only [List.mem_cons, List.not_mem_nil, or_false] at hg
        rcases hg with rfl | rfl <;> simpa [Compound.mentions_iff] using hx
    subst hx0
    exact Nat.zero_lt_two

/-- The first clause of `0` leads back to `0` in its first goal and in its second.  With at
    most three expansions around a goal the query for `0(Y)` returns. -/
theorem circular_query_returns :
    (∃ n r, circular.enumerate throughout n [⟨0, [.var ⟨1⟩]⟩] (Store.empty.freshMany 2).2 () =
      some r) ∧
    ∀ t point points, Search.ComesTo circular.source throughout
        (Search.start circular.source ⟨0, [.var ⟨1⟩]⟩ [] (Store.empty.freshMany 2).2 ()) t →
      t.points = point :: points →
      ∃ k later, k ≤ 3 ∧ ∀ pending, Search.Nested circular.source [⟨0, [.var ⟨1⟩]⟩]
          (t.points.map Search.ChoicePoint.compounds) pending ↔
        pending = (point.goal.compound, k) :: later := by
  have hacyclic : (Store.empty.freshMany 2 : List Var × Store Nat).2.Acyclic :=
    (Session.readyThroughout_freshMany 2).ready.acyclic
  have hall := depth_limit_ends_search circular_made hacyclic rfl rfl throughout_faithful
    (throughout_inScope 2) (fun _ _ => nofun) ()
  exact ⟨hall.1, fun t point points => hall.2 _ _ t point points rfl⟩

end Horn
