import Horn.Proofs.Machine

/-! # Exploring frames

    A search without its trail: a stack of frames, each with a store of its own, in which
    the next clause of the first frame is tried.  Unlike the recursion, an exploration
    makes the very attempts that a search makes, the body of a clause copied after the
    unification of its head; so it can be compared with a search whatever variables
    goals and clauses have in common.

    What a match leads to is left open: the client of a query may report it, or ask
    other goals at it.

    * `Frame.step`: what becomes of the first frame.  It depends on no other frame.
    * `explore`: works off a stack of frames.
    * `explore_split`, `explore_join`: the frames of a stack are worked off one after the
      other. -/

namespace Horn.Search

universe u v

variable {A : Type u} [DecidableEq A]

/-! ## Explorations -/

/-- Tries clause `c` for a goal in a session that begins with the attempt. -/
def attemptIn (check : Bool) (n : Nat) (goal : Compound A) (c : Clause A) (s : Store A) :
    Option (Option (List (Compound A) × Store A)) :=
  (tryClause n goal c ⟨s, .start check⟩).map fun (w, body) => body.map fun gs => (gs, w.store)

/-- What becomes of a frame: perhaps a match, and the frames that take its place. -/
def Frame.step (src : Source A) (n : Nat) : Frame A → Option (Option (Store A) × List (Frame A))
  | ⟨_, _, [], _⟩ => some (none, [])
  | ⟨g, rest, c :: cs, s⟩ =>
    (attemptIn src.options.occursCheck n g.compound c s).map fun
      | none => (none, [⟨g, rest, cs, s⟩])
      | some (body, s') =>
        let (view, frames) := onward src (body.map (⟨·, g.depth + 1⟩) ++ rest) s'
        (view, frames ++ [⟨g, rest, cs, s⟩])

/-- Works off a stack of frames, the first one first. -/
def explore (src : Source A) (onMatch : Store A → Nat → Option (Report A)) :
    Nat → List (Frame A) → Nat → Option (Report A)
  | 0, _, _ => none
  | _ + 1, [], _ => some .none
  | n + 1, f :: fs, found =>
    match f.step src n with
    | none => none
    | some (view, frames) =>
      goOn (told onMatch view found) (explore src onMatch n (frames ++ fs)) found

/-- Explores goals in a store.  Without goals there is a match. -/
def exploreGoals (src : Source A) (onMatch : Store A → Nat → Option (Report A)) (n : Nat)
    (goals : List (Compound A)) (s : Store A) (found : Nat) : Option (Report A) :=
  match goals with
  | [] => onMatch s found
  | g :: rest => explore src onMatch n [.start src ⟨g, 0⟩ (rest.map (⟨·, 0⟩)) s] found

/-! ## More levels -/

theorem tryClause_succ {n : Nat} {goal : Compound A} {c : Clause A} {w : Session A}
    {r : Session A × Option (List (Compound A))} (h : tryClause n goal c w = some r) :
    tryClause (n + 1) goal c w = some r := by
  have hcopy : ∀ (s : Store A) t p r, s.copyTerm n t p = some r → s.copyTerm (n + 1) t p = some r :=
    fun s _ _ _ => s.copyTerm_succ
  obtain ⟨w', body⟩ := r
  obtain ⟨head, p, hhead, hcases⟩ := tryClause_cases h
  rw [tryClause, copyGoal_mono (hcopy _) hhead, Option.bind_some]
  -- a unification that was not cut off ends as it did
  have hsettles := unify_settles n goal.toTerm head.toTerm w
  obtain ⟨e, v, hu, rfl, rfl⟩ | ⟨v, body, q, hu, hbody, rfl, rfl⟩ := hcases
  · rw [hu] at hsettles
    rw [hsettles (by simp)]
  · rw [hu] at hsettles
    rw [hsettles (by simp)]
    simp only
    rw [copyGoals_mono (hcopy _) hbody]
    rfl

theorem attemptIn_succ {check : Bool} {n : Nat} {goal : Compound A} {c : Clause A} {s : Store A}
    {o : Option (List (Compound A) × Store A)} (h : attemptIn check n goal c s = some o) :
    attemptIn check (n + 1) goal c s = some o := by
  obtain ⟨r, hr, rfl⟩ := Option.map_eq_some_iff.mp h
  rw [attemptIn, tryClause_succ hr]
  rfl

variable {src : Source A} {onMatch : Store A → Nat → Option (Report A)}

theorem Frame.step_succ {n : Nat} {f : Frame A} {r : Option (Store A) × List (Frame A)}
    (h : f.step src n = some r) : f.step src (n + 1) = some r := by
  obtain ⟨g, rest, cs, s⟩ := f
  cases cs with
  | nil => exact h
  | cons c cs =>
    obtain ⟨o, ho, he⟩ := Option.map_eq_some_iff.mp h
    rw [Frame.step, attemptIn_succ ho, ← he]
    rfl

theorem Frame.step_mono {n m : Nat} (hnm : n ≤ m) {f : Frame A}
    {r : Option (Store A) × List (Frame A)} (h : f.step src n = some r) :
    f.step src m = some r :=
  answer_mono (f := fun n => f.step src n) (fun _ _ => Frame.step_succ) hnm h

/-- The first frame, and then what takes its place before the others. -/
theorem explore_cons {n : Nat} {f : Frame A} {view : Option (Store A)} {frames : List (Frame A)}
    (hf : f.step src n = some (view, frames)) (fs : List (Frame A)) (found : Nat) :
    explore src onMatch (n + 1) (f :: fs) found =
      goOn (told onMatch view found) (explore src onMatch n (frames ++ fs)) found := by
  rw [explore, hf]

/-- An exploration that comes to an end takes a step of the first frame, and goes on. -/
theorem step_of_explore {n : Nat} {f : Frame A} {fs : List (Frame A)} {found : Nat} {r : Report A}
    (h : explore src onMatch (n + 1) (f :: fs) found = some r) :
    ∃ view frames, f.step src n = some (view, frames) ∧
      goOn (told onMatch view found) (explore src onMatch n (frames ++ fs)) found = some r := by
  rw [explore] at h
  split at h
  · cases h
  · next view frames hf => exact ⟨view, frames, hf, h⟩

/-- More levels, and more at every match, give the same report. -/
theorem explore_grows {onMatch' : Store A → Nat → Option (Report A)}
    (hmatch : ∀ s k r, onMatch s k = some r → onMatch' s k = some r) {n m : Nat} (hnm : n ≤ m)
    {fs : List (Frame A)} {found : Nat} {r : Report A}
    (h : explore src onMatch n fs found = some r) : explore src onMatch' m fs found = some r := by
  induction n generalizing m fs found r with
  | zero => cases h
  | succ n ih =>
    obtain ⟨m, rfl⟩ : ∃ k, m = k + 1 := ⟨m - 1, by omega⟩
    cases fs with
    | nil => exact h
    | cons f fs =>
      obtain ⟨view, frames, hf, h⟩ := step_of_explore h
      rw [explore_cons (Frame.step_mono (by omega) hf)]
      refine goOn_mono (fun r hr => ?_) (fun k r => ih (by omega)) h
      cases view with
      | none => exact hr
      | some s => exact hmatch s found r hr

theorem explore_settled (fs : List (Frame A)) (found : Nat) :
    Settled fun n => explore src onMatch n fs found := fun n _ =>
  explore_grows (fun _ _ _ h => h) (Nat.le_succ n)

theorem exploreGoals_grows {onMatch' : Store A → Nat → Option (Report A)}
    (hmatch : ∀ s k r, onMatch s k = some r → onMatch' s k = some r) {n m : Nat} (hnm : n ≤ m)
    {goals : List (Compound A)} {s : Store A} {found : Nat} {r : Report A}
    (h : exploreGoals src onMatch n goals s found = some r) :
    exploreGoals src onMatch' m goals s found = some r := by
  cases goals with
  | nil => exact hmatch s found r h
  | cons g rest => exact explore_grows hmatch hnm h

theorem exploreGoals_settled (goals : List (Compound A)) (s : Store A) (found : Nat) :
    Settled fun n => exploreGoals src onMatch n goals s found := fun n _ =>
  exploreGoals_grows (fun _ _ _ h => h) (Nat.le_succ n)

/-! ## One after the other -/

/-- What a stack comes to is what its parts come to, one after the other. -/
theorem explore_split {n : Nat} {fs fs' : List (Frame A)} {found : Nat} {r : Report A}
    (h : explore src onMatch n (fs ++ fs') found = some r) :
    goOn (explore src onMatch n fs found) (explore src onMatch n fs') found = some r := by
  induction n generalizing fs found r with
  | zero => cases h
  | succ n ih =>
    cases fs with
    | nil => exact (goOn_none _ found).trans h
    | cons f fs =>
      have hcons : explore src onMatch (n + 1) (f :: (fs ++ fs')) found = some r := h
      obtain ⟨view, frames, hf, h⟩ := step_of_explore hcons
      rw [explore_cons hf, goOn_goOn]
      refine goOn_mono (fun _ hr => hr) (fun k r hr => ?_) h
      rw [← List.append_assoc] at hr
      exact goOn_mono (fun _ h => h) (fun k r => explore_settled fs' k n r) (ih hr)

/-- If the parts of a stack come to an end, one after the other, so does the stack. -/
theorem explore_join {n m : Nat} {fs fs' : List (Frame A)} {found : Nat} {r : Report A}
    (h : goOn (explore src onMatch n fs found) (explore src onMatch m fs') found = some r) :
    explore src onMatch (n + m) (fs ++ fs') found = some r := by
  induction n generalizing fs found r with
  | zero => cases h
  | succ n ih =>
    cases fs with
    | nil =>
      rw [explore, goOn_none] at h
      exact (explore_settled fs' found).mono (by omega) h
    | cons f fs =>
      cases hf : f.step src n with
      | none =>
        rw [explore, hf] at h
        cases h
      | some q =>
        obtain ⟨view, frames⟩ := q
        rw [explore_cons hf, goOn_goOn] at h
        rw [List.cons_append, Nat.add_right_comm,
          explore_cons (Frame.step_mono (Nat.le_add_right n m) hf)]
        refine goOn_mono (fun _ hr => hr) (fun k r hr => ?_) h
        rw [← List.append_assoc]
        exact ih hr

end Horn.Search
