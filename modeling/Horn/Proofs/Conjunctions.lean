import Horn.Proofs.Explored
import Horn.Proofs.Stopping
import Mathlib.Data.Set.Function

/-! # A conjunction is a nested query

    The matches of some goals and others after them are those of a query for the first
    ones that at every match puts a query for the others, in the same order.

    The one query works on both lists of goals with one trail; the nested one begins a
    search of its own at every match of the outer one, and takes back all that this has
    bound before the outer one goes on.  As explorations, though, they differ only in
    when a stack is split: a frame with the further goals after its own leads at a match
    to a frame for these (`Frame.step_before`), which is worked off before the others.

    * `explore_nested`, `explore_flat`: one exploration comes to an end if the other does,
      with the same report.
    * `Client.forEach`: the client that puts a query at every match.

    Main statement: `conjunction_is_nested_query`. -/

namespace Horn

universe u v

variable {A : Type u} {σ : Type v}

/-! ## Stores that look the same -/

/-- The stores look the same from the first `n₀` variables: these, and all that their
    values lead to, have the same aliases and values in both, up to a one-to-one renaming
    that leaves the first `n₀` variables their names. -/
def Store.SameFrom (n₀ : Nat) (s s' : Store A) : Prop :=
  ∃ (D : Var → Prop) (ρ : Var → Var), s.Embeds D ρ s' ∧
    (∀ x : Var, x.id < n₀ → D x ∧ ρ x = x) ∧ ∀ x y, D x → D y → ρ x = ρ y → x = y

/-- Two stores in which one and the same store shows look the same. -/
theorem Store.SameView.sameFrom {n₀ : Nat} {view s s' : Store A} (h : view.SameView n₀ s)
    (h' : view.SameView n₀ s') (hle : n₀ ≤ view.nextVar) : s.SameFrom n₀ s' := by
  obtain ⟨π, hπ⟩ := h
  obtain ⟨π', hπ'⟩ := h'
  -- what shows in the first store is renamed back, and then to what shows in the second
  let made : Set Var := {x | x.id < view.nextVar}
  let back := Function.invFunOn π made
  have hback : ∀ x : Var, x.id < view.nextVar → back (π x) = x := fun x hx =>
    Set.InjOn.leftInvOn_invFunOn (fun x hx y hy => hπ.injective x y hx hy) hx
  refine ⟨fun y => ∃ x : Var, x.id < view.nextVar ∧ π x = y, π' ∘ back,
    ⟨?_, ?_, ?_⟩, fun x hx => ?_, ?_⟩
  · rintro _ _ ⟨x, hx, rfl⟩ ⟨y, hy, rfl⟩
    rw [Function.comp_apply, Function.comp_apply, hback x hx, hback y hy,
      hπ'.embeds.classes x y hx hy, hπ.embeds.classes x y hx hy]
  · rintro _ ⟨x, hx, rfl⟩
    rw [Function.comp_apply, hback x hx, hπ'.embeds.value x hx, hπ.embeds.value x hx]
    cases hc : view.value x with
    | none => rfl
    | some c =>
      -- renaming by `π`, back and on by `π'` is renaming by `π'`
      have hren : (c.rename π).rename (π' ∘ back) = c.rename π' := by
        rw [Compound.rename_rename]
        refine Compound.rename_congr fun y hy => ?_
        rw [Function.comp_apply, Function.comp_apply, hback y (hπ.embeds.values x c hx hc y hy)]
      rw [Option.map_some, Option.map_some, Option.map_some, hren]
  · rintro _ c ⟨x, hx, rfl⟩ hc
    rw [hπ.embeds.value x hx] at hc
    obtain ⟨d, hd, rfl⟩ := Option.map_eq_some_iff.mp hc
    exact Compound.Within.rename (fun y hy => ⟨y, hy, rfl⟩) (hπ.embeds.values x d hx hd)
  · have hx' : x.id < view.nextVar := Nat.lt_of_lt_of_le hx hle
    refine ⟨⟨x, hx', hπ.old x hx⟩, ?_⟩
    have hself := hback x hx'
    rw [hπ.old x hx] at hself
    rw [Function.comp_apply, hself, hπ'.old x hx]
  · rintro _ _ ⟨x, hx, rfl⟩ ⟨y, hy, rfl⟩ hxy
    rw [Function.comp_apply, Function.comp_apply, hback x hx, hback y hy] at hxy
    rw [hπ'.injective x y hx hy hxy]

section same_from

variable {n₀ : Nat} {s s' : Store A}

/-- The first `n₀` variables are aliased alike. -/
theorem Store.SameFrom.aliased (h : s.SameFrom n₀ s') {x y : Var} (hx : x.id < n₀)
    (hy : y.id < n₀) : s'.aliased x y = s.aliased x y := by
  obtain ⟨D, ρ, hemb, hold, -⟩ := h
  have hboth := hemb.aliased (hold x hx).1 (hold y hy).1
  rwa [(hold x hx).2, (hold y hy).2] at hboth

/-- Terms over them denote the same, up to the names of other variables. -/
theorem Store.SameFrom.resolved (h : s.SameFrom n₀ s') :
    ∃ ρ : Var → Var, (∀ x : Var, x.id < n₀ → ρ x = x) ∧
      ∀ (n : Nat) (t : Term A), t.Within (fun x => x.id < n₀) →
        s'.resolved n t = (s.resolved n t).map (Term.rename ρ) := by
  obtain ⟨D, ρ, hemb, hold, -⟩ := h
  refine ⟨ρ, fun x hx => (hold x hx).2, fun n t ht => ?_⟩
  have hren : t.rename ρ = t :=
    (Term.rename_congr fun x hx => (hold x (ht x hx)).2).trans t.rename_id
  have hread := hemb.resolved n (ht.mono fun x hx => (hold x hx).1)
  rwa [hren] at hread

end same_from

namespace Search

/-! ## Goals before others -/

/-- The frame with further goals after its own, as those of a query. -/
def Frame.before (later : List (Compound A)) (f : Frame A) : Frame A :=
  { f with rest := f.rest ++ later.map (⟨·, 0⟩) }

/-- What becomes of further goals: they are up at a match of the goals before them. -/
def resumed (src : Source A) (later : List (Compound A)) :
    Option (Store A) → Option (Store A) × List (Frame A)
  | none => (none, [])
  | some s => onward src (later.map (⟨·, 0⟩)) s

theorem onward_append (src : Source A) (goals : List (Goal A)) (later : List (Compound A))
    (s : Store A) :
    onward src (goals ++ later.map (⟨·, 0⟩)) s =
      ((resumed src later (onward src goals s).1).1,
        (resumed src later (onward src goals s).1).2 ++
          (onward src goals s).2.map (Frame.before later)) := by
  cases goals with
  | nil =>
    simp only [onward, resumed, List.nil_append, List.map_nil, List.append_nil]
  | cons g rest =>
    simp only [onward, List.cons_append]
    split
    · rfl
    · rfl

variable [DecidableEq A] {src : Source A} {later : List (Compound A)}
  {onMatch : Store A → Nat → Option (Report A)}

/-- A frame with further goals takes the step of the frame without; at a match it goes on
    to these goals. -/
theorem Frame.step_before (n : Nat) (f : Frame A) :
    (f.before later).step src n = (f.step src n).map fun (view, frames) =>
      ((resumed src later view).1,
        (resumed src later view).2 ++ frames.map (Frame.before later)) := by
  obtain ⟨g, rest, cs, s⟩ := f
  cases cs with
  | nil => rfl
  | cons c cs =>
    rw [Frame.before, Frame.step, Frame.step, Option.map_map]
    refine Option.map_congr fun o _ => ?_
    cases o with
    | none => rfl
    | some r =>
      simp only [Function.comp_apply]
      rw [← List.append_assoc, onward_append]
      simp only [List.map_append, List.append_assoc]
      rfl

/-- Going on to further goals is exploring them. -/
theorem told_resumed (n : Nat) (view : Option (Store A)) (found : Nat) :
    goOn (told onMatch (resumed src later view).1 found)
        (explore src onMatch (n + 1) (resumed src later view).2) found =
      told (exploreGoals src onMatch (n + 1) later) view found := by
  cases view with
  | none => exact goOn_none _ found
  | some s =>
    cases later with
    | nil => exact goOn_last _ found
    | cons g rest =>
      simp only [resumed, onward, List.map_cons, tooDeep_zero, Bool.false_eq_true, if_false, told]
      exact goOn_none _ found

/-! ## One exploration and the other -/

theorem told_settled (view : Option (Store A)) (found : Nat) :
    Settled fun n => told (exploreGoals src onMatch n later) view found := by
  intro n r h
  cases view with
  | none => exact h
  | some s => exact exploreGoals_settled later s found n r h

/-- If the exploration of all goals comes to an end, so does the nested one. -/
theorem explore_nested {n : Nat} {fs : List (Frame A)} {found : Nat} {r : Report A}
    (h : explore src onMatch n (fs.map (Frame.before later)) found = some r) :
    ∃ k, explore src (exploreGoals src onMatch k later) k fs found = some r := by
  induction n generalizing fs found r with
  | zero => cases h
  | succ n ih =>
    cases fs with
    | nil => exact ⟨1, h⟩
    | cons f fs =>
      rw [List.map_cons] at h
      obtain ⟨view', frames', hf', h⟩ := step_of_explore h
      rw [Frame.step_before] at hf'
      obtain ⟨⟨view, frames⟩, hf, he⟩ := Option.map_eq_some_iff.mp hf'
      cases he
      -- what comes of the further goals is split from the other frames
      have hsplit : goOn (goOn (told onMatch (resumed src later view).1 found)
          (explore src onMatch n (resumed src later view).2) found)
          (explore src onMatch n ((frames ++ fs).map (Frame.before later))) found = some r := by
        rw [goOn_goOn]
        refine goOn_mono (fun _ hr => hr) (fun k r hr => explore_split ?_) h
        rw [List.map_append, ← List.append_assoc]
        exact hr
      have hmore : ∀ r, goOn (told onMatch (resumed src later view).1 found)
          (explore src onMatch n (resumed src later view).2) found = some r →
            ∃ k, told (exploreGoals src onMatch k later) view found = some r := by
        intro r hr
        refine ⟨n + 1, ?_⟩
        rw [← told_resumed]
        exact goOn_mono (fun _ hr => hr) (fun j r => explore_settled _ j n r) hr
      obtain ⟨k, hk⟩ := exists_goOn (told_settled view found)
        (f := fun k => explore src (exploreGoals src onMatch k later) k (frames ++ fs))
        (fun k m r => explore_grows (fun s k => exploreGoals_settled later s k m) (Nat.le_succ m))
        hmore (fun j r hr => ih hr) hsplit
      -- one level is left for the frame itself
      refine ⟨max n k + 1, ?_⟩
      rw [explore_cons (Frame.step_mono (Nat.le_max_left n k) hf)]
      refine goOn_mono (fun r hr => ?_) (fun j r hr => ?_) hk
      · exact (told_settled view found).mono (by omega) hr
      · refine explore_grows (fun s j r hs => ?_) (Nat.le_max_right n k) hr
        exact (exploreGoals_settled later s j).mono (by omega) hs

/-- If the nested exploration comes to an end, so does that of all goals. -/
theorem explore_flat {n k : Nat} {fs : List (Frame A)} {found : Nat} {r : Report A}
    (h : explore src (exploreGoals src onMatch k later) n fs found = some r) :
    ∃ m, explore src onMatch m (fs.map (Frame.before later)) found = some r := by
  induction n generalizing fs found r with
  | zero => cases h
  | succ n ih =>
    cases fs with
    | nil => exact ⟨1, h⟩
    | cons f fs =>
      obtain ⟨view, frames, hf, h⟩ := step_of_explore h
      have hmore : ∀ r, told (exploreGoals src onMatch k later) view found = some r →
          ∃ m, goOn (told onMatch (resumed src later view).1 found)
            (explore src onMatch m (resumed src later view).2) found = some r := by
        intro r hr
        refine ⟨k + 1, ?_⟩
        rw [told_resumed]
        exact told_settled view found k r hr
      obtain ⟨m, hm⟩ := exists_goOn
        (f := fun m => explore src onMatch m ((frames ++ fs).map (Frame.before later)))
        (fun m r => goOn_mono (fun _ hr => hr) fun j r => explore_settled _ j m r)
        (fun j => explore_settled _ j) hmore (fun j r hr => ih hr) h
      -- the two parts are worked off as one stack
      refine ⟨max n (m + m) + 1, ?_⟩
      have hstep : (f.before later).step src (max n (m + m)) = some
          ((resumed src later view).1,
            (resumed src later view).2 ++ frames.map (Frame.before later)) := by
        rw [Frame.step_before, Frame.step_mono (Nat.le_max_left _ _) hf]
        rfl
      rw [List.map_cons, explore_cons hstep, List.append_assoc, ← List.map_append]
      rw [goOn_goOn] at hm
      refine goOn_mono (fun _ hr => hr) (fun j r hr => ?_) hm
      exact (explore_settled _ j).mono (Nat.le_max_right _ _) (explore_join hr)

/-- Exploring goals and others after them comes to an end just if exploring the first
    ones does, with the others explored at every match; and with the same report. -/
theorem exploreGoals_append (goals later : List (Compound A)) (s : Store A) (found : Nat)
    (r : Report A) :
    (∃ n, exploreGoals src onMatch n (goals ++ later) s found = some r) ↔
      ∃ n, exploreGoals src (exploreGoals src onMatch n later) n goals s found = some r := by
  cases goals with
  | nil => exact Iff.rfl
  | cons g rest =>
    -- the first frame of the one is that of the other with further goals
    have hframe : [Frame.start src ⟨g, 0⟩ ((rest ++ later).map (⟨·, 0⟩)) s] =
        [Frame.start src ⟨g, 0⟩ (rest.map (⟨·, 0⟩)) s].map (Frame.before later) := by
      rw [List.map_append]
      rfl
    simp only [exploreGoals, List.cons_append]
    rw [hframe]
    exact ⟨fun ⟨_, h⟩ => explore_nested h, fun ⟨_, h⟩ => explore_flat h⟩

end Search

/-! ## Queries -/

variable [DecidableEq A]

/-- The client that at every match puts a query for further goals, has its matches
    reported to `c`, and stops if `c` has stopped it. -/
def Client.forEach (c : Client A σ) (p : Program A) (n : Nat) (later : List (Compound A)) :
    Client A σ where
  note := c.note
  answer s m := (p.enumerate c n later s m).map fun (ending, s, m) =>
    (if ending.isStopped then .halt else .proceed, s, m)

section queries

variable {p : Program A} {gs hs : List (Compound A)} {s : Store A}

/-- The nested queries of a client explore the further goals. -/
theorem Client.AnswersLike.forEach {n₀ : Nat} {d : Client A (σ × List (Store A × Signal))}
    {onMatch : Store A → Nat → Option (Search.Report A)} (hd : d.AnswersLike n₀ onMatch)
    (hp : p.source.Old n₀) (hhs : ∀ g ∈ hs, g.Within fun x => x.id < n₀) (n : Nat) :
    (d.forEach p n hs).AnswersLike n₀ (Search.exploreGoals p.source onMatch n hs) where
  note := hd.note
  faithful s m b s' m' hs h := by
    obtain ⟨⟨ending, s₁, m₁⟩, h₁, he⟩ := Option.map_eq_some_iff.mp h
    cases he
    exact p.enumerate_faithful hd.faithful n _ s m ending s' m' hs h₁
  inScope s m b s' m' hle hs hscope h := by
    obtain ⟨⟨ending, s₁, m₁⟩, h₁, he⟩ := Option.map_eq_some_iff.mp h
    cases he
    exact Search.enumerate_inScope hd.faithful hd.inScope n hhs s m ending s' m' hle hs hscope h₁
  answer m hshow hs hs' := by
    refine rel_map_right (Search.enumerate_explored hp hd n hhs hshow hs hs' m) fun r q hrq => ?_
    obtain ⟨ending, s₁, m₁⟩ := q
    obtain ⟨hstopped, hlog⟩ := hrq
    refine ⟨?_, hlog⟩
    simp only at hstopped ⊢
    rw [← hstopped]
    cases ending.isStopped <;> simp

/-- What is related to one list is related to what else is. -/
theorem forall₂_of_common {α β γ : Type*} {R : α → β → Prop} {S : α → γ → Prop}
    {T : β → γ → Prop} (hT : ∀ a b c, R a b → S a c → T b c) {as : List α} {bs : List β}
    {cs : List γ} (hR : List.Forall₂ R as bs) (hS : List.Forall₂ S as cs) :
    List.Forall₂ T bs cs := by
  induction hR generalizing cs with
  | nil =>
    cases hS
    exact .nil
  | cons hab _ ih =>
    cases hS with
    | cons hac hrest => exact .cons (hT _ _ _ hab hac) (ih hrest)

omit [DecidableEq A] in
/-- Two queries that explore the same have the same calls. -/
theorem Search.sameCalls_of_logged {n₀ : Nat} {r : Search.Report A}
    {log log' : List (Store A × Signal)} (h : Search.Logged n₀ [] r log)
    (h' : Search.Logged n₀ [] r log') :
    List.Forall₂ (fun call call' => call.1.SameFrom n₀ call'.1) log log' := by
  obtain ⟨calls, rfl, hcalls⟩ := h
  obtain ⟨calls', rfl, hcalls'⟩ := h'
  exact forall₂_of_common (fun _ _ _ hview hview' => hview.2.sameFrom hview'.2 hview.1) hcalls
    hcalls'

/-- An ending says whether the search was stopped, and after how many matches. -/
theorem Ending.eq_of_found {e e' : Ending} (hstopped : e.isStopped = e'.isStopped)
    (hfound : e.found = e'.found) : e = e' := by
  cases e <;> cases e' <;> simp_all [Ending.isStopped, Ending.found]

/-- Two queries with clients that follow answers come to the same if they explore the same. -/
theorem Search.sameQuery_of_logged {src src' : Search.Source A} {c c' : Client A σ} {n n' : Nat}
    {answers : Nat → Signal} {goals : List (Compound A)} {s s' : Store A} {m m' : σ} {n₀ : Nat}
    {r : Search.Report A} {q q' : Ending × Store A × σ × List (Store A × Signal)}
    (hq : Search.enumerate src (c.following answers) n goals s (m, []) = some q)
    (hq' : Search.enumerate src' (c'.following answers) n' goals s' (m', []) = some q')
    (h : q.1.isStopped = r.halted ∧ Search.Logged n₀ [] r q.2.2.2)
    (h' : q'.1.isStopped = r.halted ∧ Search.Logged n₀ [] r q'.2.2.2) :
    q'.1 = q.1 ∧
      List.Forall₂ (fun call call' => call.1.SameFrom n₀ call'.1) q.2.2.2 q'.2.2.2 := by
  refine ⟨Ending.eq_of_found (h'.1.trans h.1.symm) ?_, Search.sameCalls_of_logged h.2 h'.2⟩
  rw [Search.ending_found_of_logs (c.following_logs answers) hq,
    Search.ending_found_of_logs (c'.following_logs answers) hq', h.2.length, h'.2.length]

variable {client : Client A σ}

/-- **A conjunction is a nested query.**  Let the client leave the store as it finds it and
    come to an answer at every match.  The goals `gs` and `hs` may have variables in
    common, with each other and with the clauses, and either list may be empty.

    Whenever the query for `gs` and `hs` returns, the client has given some sequence of
    answers, and following these is what it did.  Whatever answers it follows, to
    proceed or to stop at some match: if the query for both lists returns, so does the
    query for `gs` that at every match puts one for `hs`, at all levels that are large
    enough, and the other way round.  Then both were stopped or neither, and the client
    has been called equally often, and each time in stores that look the same from all
    variables made before. -/
theorem conjunction_is_nested_query (h : p.Made (gs ++ hs) s) (hc : Faithful client.answer)
    (hscope : InScope s.nextVar client.answer) (htotal : ∀ s m, client.answer s m ≠ none)
    (memory : σ) :
    (∀ n ending s' memory', p.enumerate client n (gs ++ hs) s memory = some (ending, s', memory') →
      ∃ calls : List (Store A × Signal), ∀ answers,
        (∀ k call, calls[k]? = some call → answers k = call.2) →
        p.enumerate (client.following answers) n (gs ++ hs) s (memory, []) =
          some (ending, s', memory', calls)) ∧
    (∀ answers n ending s' memory' calls,
      p.enumerate (client.following answers) n (gs ++ hs) s (memory, []) =
          some (ending, s', memory', calls) →
        ∃ k, ∀ i j, k ≤ i → k ≤ j → ∃ ending' s'' memory'' calls',
          p.enumerate ((client.following answers).forEach p j hs) i gs s (memory, []) =
              some (ending', s'', memory'', calls') ∧
            ending'.isStopped = ending.isStopped ∧
            List.Forall₂ (fun call call' => call.1.SameFrom s.nextVar call'.1) calls calls') ∧
    (∀ answers i j ending' s'' memory'' calls',
      p.enumerate ((client.following answers).forEach p j hs) i gs s (memory, []) =
          some (ending', s'', memory'', calls') →
        ∃ n ending s' memory' calls,
          p.enumerate (client.following answers) n (gs ++ hs) s (memory, []) =
              some (ending, s', memory', calls) ∧
            ending'.isStopped = ending.isStopped ∧
            List.Forall₂ (fun call call' => call.1.SameFrom s.nextVar call'.1) calls calls') := by
  have hgs : ∀ g ∈ gs, g.Within s.Born := fun g hg => h.goals g (List.mem_append_left hs hg)
  have hhs : ∀ g ∈ hs, g.Within s.Born := fun g hg => h.goals g (List.mem_append_right gs hg)
  have hself : s.Shows s.nextVar id s := h.inScope.shows _
  -- each query is an exploration
  have hlike := Client.following_answersLike hc hscope htotal
  have hflat := fun answers n => Search.enumerate_explored h.old (hlike answers) n h.goals hself
    h.workable h.workable (memory, [])
  have hnested := fun answers i j => Search.enumerate_explored h.old
    ((hlike answers).forEach h.old hhs j) i hgs hself h.workable h.workable (memory, [])
  refine ⟨fun n ending s' memory' hrun =>
      Search.enumerate_following p.source client n _ s memory hrun,
    fun answers n ending s' memory' calls hrun => ?_,
    fun answers i j ending' s'' memory'' calls' hrun => ?_⟩
  · obtain ⟨r, hr, hstopped, hlog⟩ := exists_left_of_rel (hflat answers n) hrun
    obtain ⟨k, hk⟩ := (Search.exploreGoals_append gs hs s 0 r).mp ⟨n, hr⟩
    refine ⟨k, fun i j hi hj => ?_⟩
    have hr' := Search.exploreGoals_grows
      (fun s found _ => (Search.exploreGoals_settled hs s found).mono hj) hi hk
    obtain ⟨⟨ending', s'', memory'', calls'⟩, hrun', hstopped', hlog'⟩ :=
      exists_right_of_rel (hnested answers i j) hr'
    exact ⟨ending', s'', memory'', calls', hrun', hstopped'.trans hstopped.symm,
      Search.sameCalls_of_logged hlog hlog'⟩
  · obtain ⟨r, hr, hstopped', hlog'⟩ := exists_left_of_rel (hnested answers i j) hrun
    -- one level does for the outer query and for the inner ones
    have hk := Search.exploreGoals_grows
      (fun s found _ => (Search.exploreGoals_settled hs s found).mono (Nat.le_max_right i j))
      (Nat.le_max_left i j) hr
    obtain ⟨n, hn⟩ := (Search.exploreGoals_append gs hs s 0 r).mpr ⟨_, hk⟩
    obtain ⟨⟨ending, s', memory', calls⟩, hrun', hstopped, hlog⟩ :=
      exists_right_of_rel (hflat answers n) hn
    exact ⟨n, ending, s', memory', calls, hrun', hstopped'.trans hstopped.symm,
      Search.sameCalls_of_logged hlog hlog'⟩

end queries

/-! ### A variable of the clauses, and a stop in between -/

/-- Proceeds at the first two matches and stops at the third. -/
def untilThird (k : Nat) : Signal := if k = 2 then .halt else .proceed

/-- In `0(1).  0(2).  3(X) if 0(X).` the goals `3(X)`, with the variable of the clause
    itself, and `0(Y)` have four matches.  Their query is stopped at the third, and so is
    the nested one. -/
theorem stopped_at_third_in_nested_query :
    ∃ s' memory calls,
      evens.enumerate (throughout.following untilThird) 20 ([⟨3, [.var ⟨0⟩]⟩] ++ [⟨0, [.var ⟨1⟩]⟩])
          (Store.empty.freshMany 2).2 ((), []) = some (.stopped 3, s', memory, calls) ∧
        ∃ k, ∀ i j, k ≤ i → k ≤ j → ∃ ending s'' memory' calls',
          evens.enumerate ((throughout.following untilThird).forEach evens j [⟨0, [.var ⟨1⟩]⟩]) i
              [⟨3, [.var ⟨0⟩]⟩] (Store.empty.freshMany 2).2 ((), []) =
                some (ending, s'', memory', calls') ∧
            ending.isStopped = true ∧
            List.Forall₂ (fun call call' => call.1.SameFrom 2 call'.1) calls calls' := by
  have hrun : (evens.enumerate (throughout.following untilThird) 20
      ([⟨3, [.var ⟨0⟩]⟩] ++ [⟨0, [.var ⟨1⟩]⟩]) (Store.empty.freshMany 2).2 ((), [])).map (·.1) =
        some (.stopped 3) := by
    decide
  obtain ⟨⟨ending, s', memory, calls⟩, h, he⟩ := Option.map_eq_some_iff.mp hrun
  cases he
  have hgoals : ∀ g ∈ [⟨3, [.var ⟨0⟩]⟩] ++ [(⟨0, [.var ⟨1⟩]⟩ : Compound Nat)],
      g.Within (Store.empty.freshMany 2 : List Var × Store Nat).2.Born := by
    intro g hg x hx
    have hx2 : x = ⟨0⟩ ∨ x = ⟨1⟩ := by
      rcases List.mem_pair.mp hg with rfl | rfl
      · exact .inl (by simpa [Compound.mentions_iff] using hx)
      · exact .inr (by simpa [Compound.mentions_iff] using hx)
    rcases hx2 with rfl | rfl
    · exact Nat.zero_lt_two
    · exact Nat.one_lt_two
  have hmade : evens.Made ([⟨3, [.var ⟨0⟩]⟩] ++ [⟨0, [.var ⟨1⟩]⟩]) (Store.empty.freshMany 2).2 :=
    ⟨evens_askable.consistent, evens_askable.inScope, hgoals, evens_askable.madeClauses⟩
  exact ⟨s', memory, calls, h, (conjunction_is_nested_query hmade throughout_faithful
    (throughout_inScope 2) (fun s m => nofun) ()).2.1 untilThird 20 _ s' memory calls h⟩

end Horn
