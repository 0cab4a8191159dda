import Horn.Proofs.UncheckedSearch

/-! # Queries that do not need the occurs check

    A query whose search never needs the occurs check is the same query without it: what it
    comes to, when it calls its client, and what it returns.

    * `reached_prefix_unchecked`, `exists_unchecked_prefix_reached`: whatever calls have been
      made on one side are made on the other, also by searches that have no end.
    * `endsUnrefused`: a search that comes to its end can be run to find out whether it needs
      the check (`ComesTo.unrefused`).

    Main statement: `unneeded_check_changes_nothing`. -/

namespace Horn

universe u v w

variable {A : Type u} {σ : Type v}

namespace Search

variable [DecidableEq A]

/-! ## Calls -/

section calls

variable {β : Type w} {src : Source A} {d : Client A (σ × List β)} {n₀ : Nat}
  {t₀ t : State A (σ × List β)}

/-- With more levels no call is lost. -/
theorem reached_prefix_reached (hd : d.Logs) {n m : Nat} (hnm : n ≤ m)
    (t : State A (σ × List β)) :
    (reached src d n t).memory.2 <+: (reached src d m t).memory.2 := by
  induction n generalizing m t with
  | zero => exact prefix_reached hd m t
  | succ n ih =>
    obtain ⟨m, rfl⟩ : ∃ k, m = k + 1 := ⟨m - 1, by omega⟩
    have hnm : n ≤ m := Nat.le_of_succ_le_succ hnm
    rw [reached]
    cases hnext : step src d n t with
    | cutOff => exact prefix_reached hd (m + 1) t
    | done b u =>
      rw [reached, step_of_le hnm hnext (Step.done_ne_cutOff b u)]
    | next u =>
      rw [reached, step_of_le hnm hnext (Step.next_ne_cutOff u)]
      exact ih hnm u

variable (hfree : ∀ t, ComesTo src d t₀ t → t.Unrefused)
include hfree

/-- What is called with the check is called without it. -/
theorem reached_prefix_unchecked (hd : d.Logs) (n : Nat) (ht : ComesTo src d t₀ t) :
    (reached src d n t).memory.2 <+: (reached src.unchecked d n t.unchecked).memory.2 := by
  induction n generalizing t with
  | zero => exact List.prefix_refl _
  | succ n ih =>
    rw [reached]
    cases hnext : step src d n t with
    | cutOff => exact prefix_reached hd (n + 1) t.unchecked
    | done b u =>
      rw [reached, step_unchecked_of_eq (hfree t ht) hnext (Step.done_ne_cutOff b u)]
      exact List.prefix_refl _
    | next u =>
      rw [reached, step_unchecked_of_eq (hfree t ht) hnext (Step.next_ne_cutOff u)]
      exact ih (.step ht hnext)

variable (hsturdy : ∀ t, ComesTo src d t₀ t → Sturdy n₀ src.options t)
  (hcheck : src.options.occursCheck = true)
include hsturdy hcheck

/-- What is called without the check is called with it, perhaps at more levels. -/
theorem exists_unchecked_prefix_reached (hd : d.Logs) (n : Nat) (ht : ComesTo src d t₀ t) :
    ∃ m, (reached src.unchecked d n t.unchecked).memory.2 <+: (reached src d m t).memory.2 := by
  induction n generalizing t with
  | zero => exact ⟨0, List.prefix_refl _⟩
  | succ n ih =>
    rw [reached]
    cases hnext : step src.unchecked d n t.unchecked with
    | cutOff => exact ⟨0, List.prefix_refl _⟩
    | done b u' =>
      obtain ⟨m, u, hu, rfl⟩ := (hsturdy t ht).exists_done hcheck (hfree t ht) hnext
      refine ⟨m + 1, ?_⟩
      rw [reached, hu]
      exact List.prefix_refl _
    | next u' =>
      obtain ⟨m, u, hu, rfl⟩ := (hsturdy t ht).exists_next hcheck (hfree t ht) hnext
      obtain ⟨k, hk⟩ := ih (.step ht hu)
      refine ⟨max m k + 1, ?_⟩
      rw [reached, step_of_le (Nat.le_max_left m k) hu (Step.next_ne_cutOff u)]
      exact hk.trans (reached_prefix_reached hd (Nat.le_max_right m k) u)

end calls

section logging

variable {src : Source A} {client : Client A σ} {s₀ s : State A σ}
  {t₀ t : State A (σ × List (Store A))}

/-- With a log of its calls the client sees the same run. -/
theorem exists_run_logging (h₀ : s₀.Related (fun m m' => m'.1 = m) t₀) {n : Nat} {halted : Bool}
    (h : run src client n s₀ = some (halted, s)) :
    ∃ t, run src client.logging n t₀ = some (halted, t) ∧ s.Related (fun m m' => m'.1 = m) t := by
  apply run_related _ _ n h₀ h
  · intro s e m m' hm
    exact congrArg (client.note s e) hm
  · intro s m m' r hm hr
    obtain rfl := hm
    exact ⟨(r.2.2, m'.2 ++ [s]), by simp [Client.logging, hr], rfl⟩

/-- With a log of its calls the client sees the same search. -/
theorem ComesTo.of_logging (h₀ : s₀.Related (fun m m' => m'.1 = m) t₀)
    (h : ComesTo src client.logging t₀ t) :
    ∃ s, ComesTo src client s₀ s ∧ s.Related (fun m m' => m'.1 = m) t := by
  induction h with
  | start => exact ⟨s₀, .start, h₀⟩
  | @step n t u _ hnext ih =>
    obtain ⟨s, hs, hst⟩ := ih
    rcases step_related (c := client) (d := client.logging)
      (fun s e _ _ hm => congrArg (client.note s e) hm) src n hst
      with hrel | ⟨depth, s₁, t₁, ⟨hm⟩, hask, hask'⟩
    · rw [hnext] at hrel
      generalize hstep : Search.step src client n s = r at hrel
      cases hrel with
      | next hrel => exact ⟨_, .step hs hstep, hrel⟩
    · -- the search goes on from a match, so the client has answered to it
      rename_i w points found m m'
      subst hm
      rw [hnext] at hask'
      simp only [Client.logging] at hask hask'
      cases hr : client.answer w.store m'.1 with
      | none =>
        rw [hr] at hask'
        cases hask'
      | some r =>
        obtain ⟨signal, s', m''⟩ := r
        rw [hr] at hask hask'
        cases signal with
        | proceed =>
          cases hask'
          exact ⟨_, .step hs hask, .at rfl⟩
        | halt => cases hask'

end logging

omit [DecidableEq A] in
/-- The state in which a query begins is sturdy, if its store is acyclic. -/
theorem sturdy_start {src : Source A} {g : Compound A} {rest : List (Compound A)} {s : Store A}
    (hsrc : src.Old s.nextVar) (hs : s.Workable s.nextVar) (hacyclic : s.Acyclic)
    (hgoals : ∀ g' ∈ g :: rest, g'.Within s.Born) (memory : σ) :
    Sturdy s.nextVar src.options (start src g rest s memory) where
  running := running_start hs.consistent hs.inScope
  stacked := by
    refine ⟨_, stacked_start hsrc hgoals (hs.inScope.shows _) hs _, ?_⟩
    intro f hf
    rw [List.mem_singleton.mp hf]
    exact hacyclic

/-! ## Trying it out -/

section trying

variable {src : Source A} {client : Client A σ} {t : State A σ}

/-- Whether the search comes to its end within `n` steps, and no unification on the way has
    been refused by the occurs check. -/
def endsUnrefused (src : Source A) (client : Client A σ) : Nat → State A σ → Bool
  | 0, _ => false
  | n + 1, t =>
    (t.headUnification n).all (fun (goal, head, w) => (unify n goal head w).Unrefused) &&
    match step src client n t with
    | .cutOff => false
    | .done _ _ => true
    | .next t => endsUnrefused src client n t

theorem step_ne_cutOff_of_endsUnrefused {n : Nat} (h : endsUnrefused src client (n + 1) t = true) :
    step src client n t ≠ .cutOff := by
  intro hcut
  rw [endsUnrefused, hcut, Bool.and_false] at h
  cases h

/-- A step that is not cut off has levels enough to copy the head. -/
theorem headUnification_of_step {n m : Nat} (h : step src client n t ≠ .cutOff)
    {q : Term A × Term A × Session A} (hq : t.headUnification m = some q) :
    t.headUnification n = some q := by
  obtain ⟨q', hq'⟩ : ∃ q', t.headUnification n = some q' := by
    obtain ⟨w, points, found, memory⟩ := t
    cases points with
    | nil => cases hq
    | cons point points =>
      simp only [State.headUnification, step] at hq h ⊢
      cases hcand : point.candidates[point.next]? with
      | none =>
        rw [hcand] at hq
        cases hq
      | some c =>
        rw [hcand] at h
        cases hcopy : (w.undoTo point.mark).store.copyCompound n c.head .empty with
        | none => exact absurd (by simp only [attempt, hcopy]) h
        | some r => exact ⟨_, by simp only [hcopy, Option.map_some]; rfl⟩
  have hboth := headUnification_mono (Nat.le_max_left n m) hq'
  rw [headUnification_mono (Nat.le_max_right n m) hq] at hboth
  rw [hq', ← hboth]

theorem unrefused_of_endsUnrefused {n : Nat} (h : endsUnrefused src client n t = true) :
    t.Unrefused := by
  cases n with
  | zero => cases h
  | succ n =>
    have hstep := step_ne_cutOff_of_endsUnrefused h
    intro m goal head w hhead x c v hrefused
    have hhead' := headUnification_of_step hstep hhead
    rw [endsUnrefused, hhead', Bool.and_eq_true] at h
    obtain ⟨hends, hfree⟩ := Outcome.unrefused_iff.mp (of_decide_eq_true h.1)
    -- whatever the levels, the unification that has an end has this one
    have hself := unify_eq_of_ends (m := m) hends (by rw [hrefused]; exact nofun)
    exact hfree x c v (hself.trans hrefused)

/-- **To know that the check is never needed it is enough to run the search.** -/
theorem ComesTo.unrefused {n : Nat} {t₀ : State A σ} (h : endsUnrefused src client n t₀ = true)
    (ht : ComesTo src client t₀ t) : t.Unrefused := by
  suffices hends : ∃ n, endsUnrefused src client n t = true by
    obtain ⟨n, hn⟩ := hends
    exact unrefused_of_endsUnrefused hn
  induction ht with
  | start => exact ⟨n, h⟩
  | @step m t u _ hnext ih =>
    obtain ⟨k, hk⟩ := ih
    cases k with
    | zero => cases hk
    | succ k =>
      have hstep := step_ne_cutOff_of_endsUnrefused hk
      have hsame : Search.step src client k t = .next u := by
        have hboth := step_mono src client (Nat.le_max_left k m) t hstep
        rw [step_of_le (Nat.le_max_right k m) hnext (Step.next_ne_cutOff u)] at hboth
        exact hboth.symm
      rw [endsUnrefused, hsame, Bool.and_eq_true] at hk
      exact ⟨k, hk.2⟩

end trying

end Search

/-! ## Queries -/

/-- The states that a query comes to, whatever levels its steps are permitted.  Without goals
    there are none. -/
def Program.ComesTo [DecidableEq A] (p : Program A) (client : Client A σ)
    (goals : List (Compound A)) (store : Store A) (memory : σ) (t : Search.State A σ) : Prop :=
  match goals with
  | [] => False
  | g :: rest =>
    let memory := client.note store (.opened goals.length) memory
    Search.ComesTo p.source client (Search.start p.source g rest store memory) t

/-- The program, to be searched without the occurs check. -/
def Program.unchecked (p : Program A) : Program A :=
  { p with options := { p.options with occursCheck := false } }

/-- No unification of a goal with the copy of a clause head that the query begins is refused
    by the occurs check. -/
def Program.Unrefused [DecidableEq A] (p : Program A) (client : Client A σ)
    (goals : List (Compound A)) (store : Store A) (memory : σ) : Prop :=
  ∀ t, p.ComesTo client goals store memory t → t.Unrefused

section queries

variable [DecidableEq A] {p : Program A} {goals : List (Compound A)} {s : Store A}
  {client : Client A σ} {memory : σ}

theorem Program.ComesTo.sturdy (h : p.Made goals s) (hacyclic : s.Acyclic)
    (hcheck : p.options.occursCheck = true) (hc : Faithful client.answer)
    (hscope : InScope s.nextVar client.answer) {t : Search.State A σ}
    (ht : p.ComesTo client goals s memory t) : Search.Sturdy s.nextVar p.source.options t := by
  cases goals with
  | nil => exact ht.elim
  | cons g rest =>
    exact Search.ComesTo.all (Search.step_sturdy h.old hcheck hc hscope) ht
      (Search.sturdy_start h.old h.workable hacyclic h.goals _)

/-- A log of the calls makes no difference to what is refused. -/
theorem Program.Unrefused.logging (h : p.Unrefused client goals s memory) :
    p.Unrefused client.logging goals s (memory, []) := by
  intro t ht
  cases goals with
  | nil => exact ht.elim
  | cons g rest =>
    obtain ⟨t₁, ht₁, ⟨-⟩⟩ := Search.ComesTo.of_logging (.at rfl) ht
    exact h _ ht₁

/-- A query that returns does so without the check, after the same calls. -/
theorem Program.Unrefused.enumerate_unchecked (hfree : p.Unrefused client goals s memory) {n : Nat}
    {r : Ending × Store A × σ} (hr : p.enumerate client n goals s memory = some r) :
    p.unchecked.enumerate client n goals s memory = some r ∧
      p.unchecked.calls client n goals s memory = p.calls client n goals s memory := by
  cases goals with
  | nil => exact ⟨hr, rfl⟩
  | cons g rest =>
    unfold Program.enumerate at hr ⊢
    rw [Search.enumerate_cons] at hr ⊢
    obtain ⟨⟨halted, t⟩, hrun, rfl⟩ := Option.map_eq_some_iff.mp hr
    constructor
    · have hrun' := Search.run_unchecked hfree n .start hrun
      refine Option.map_eq_some_iff.mpr ⟨_, hrun', ?_⟩
      simp only [Search.State.unchecked, Session.undoTo_unchecked]
      rfl
    · let memory₁ := client.note s (.opened (g :: rest).length) memory
      let noCalls : List (Store A) := []
      have hlogs : (Search.start p.source g rest s memory₁).Related (fun m m' => m'.1 = m)
          (Search.start p.source g rest s (memory₁, noCalls)) := .at rfl
      obtain ⟨t₁, hlog, -⟩ := Search.exists_run_logging hlogs hrun
      have hlog' := Search.run_unchecked hfree.logging n .start hlog
      let log (t : Search.State A (σ × List (Store A))) : List (Store A) := t.memory.2
      calc p.unchecked.calls client n (g :: rest) s memory
          = log t₁.unchecked := congrArg log (Search.reached_of_run hlog')
        _ = p.calls client n (g :: rest) s memory :=
            (congrArg log (Search.reached_of_run hlog)).symm

/-- Whatever calls have been made on one side are made on the other. -/
theorem Program.calls_prefix_unchecked (hcheck : p.options.occursCheck = true)
    (hfree : p.Unrefused client.logging goals s (memory, []))
    (hsturdy : ∀ t, p.ComesTo client.logging goals s (memory, []) t →
      Search.Sturdy s.nextVar p.source.options t) (n : Nat) :
    (∃ m, p.calls client n goals s memory <+: p.unchecked.calls client m goals s memory) ∧
      ∃ m, p.unchecked.calls client n goals s memory <+: p.calls client m goals s memory := by
  cases goals with
  | nil => exact ⟨⟨0, List.prefix_refl _⟩, 0, List.prefix_refl _⟩
  | cons g rest =>
    constructor
    · exact ⟨n, Search.reached_prefix_unchecked hfree client.logging_logs n .start⟩
    · exact Search.exists_unchecked_prefix_reached hfree hsturdy hcheck client.logging_logs n .start

section unrefused

variable (hfree : p.Unrefused client goals s memory)
  (hsturdy : ∀ t, p.ComesTo client goals s memory t → Search.Sturdy s.nextVar p.source.options t)
  (hcheck : p.options.occursCheck = true)
include hfree hsturdy hcheck

/-- A query that returns without the check does so with it. -/
theorem Program.exists_enumerate_of_unchecked {n : Nat} {r : Ending × Store A × σ}
    (hr : p.unchecked.enumerate client n goals s memory = some r) :
    ∃ m, p.enumerate client m goals s memory = some r := by
  cases goals with
  | nil => exact ⟨n, hr⟩
  | cons g rest =>
    unfold Program.enumerate at hr ⊢
    rw [Search.enumerate_cons] at hr
    obtain ⟨⟨halted, t'⟩, hrun, rfl⟩ := Option.map_eq_some_iff.mp hr
    obtain ⟨m, t, hrun', rfl⟩ := Search.exists_run_of_unchecked hfree hsturdy hcheck n .start hrun
    refine ⟨m, ?_⟩
    rw [Search.enumerate_cons]
    refine Option.map_eq_some_iff.mpr ⟨_, hrun', ?_⟩
    simp only [Search.State.unchecked, Session.undoTo_unchecked]
    rfl

/-- The states of the two queries are the same. -/
theorem Program.comesTo_unchecked_iff {t' : Search.State A σ} :
    p.unchecked.ComesTo client goals s memory t' ↔
      ∃ t, p.ComesTo client goals s memory t ∧ t' = t.unchecked := by
  cases goals with
  | nil => exact ⟨False.elim, fun ⟨_, ht, _⟩ => ht⟩
  | cons g rest => exact Search.comesTo_unchecked_iff hfree hsturdy hcheck

end unrefused

/-- **Where the occurs check is not needed, turning it off changes nothing.**  Let the store be
    acyclic, let the client leave stores as it finds them, and let no unification of a goal
    with the copy of a clause head be refused by the occurs check, neither as a whole nor for
    what is met inside of it.  Then, with the same client but without the check,

    * the query comes to the same states: their stores, their choice points, the moves on
      their trails, the matches counted and what the client remembers are the same;
    * in each of them the same goal is unified with the same copy of a head in the same
      session, or none on either side; on both sides this comes to an end, and the outcomes
      are the same, the reason of a failure included;
    * the client is called in the same stores, in the same order: whatever calls a query has
      made on one side, it makes on the other, also if it does not return;
    * and the query returns on both sides or on neither.  It returns the same, and has then
      made the same calls. -/
theorem unneeded_check_changes_nothing (h : p.Made goals s) (hacyclic : s.Acyclic)
    (hcheck : p.options.occursCheck = true) (hc : Faithful client.answer)
    (hscope : InScope s.nextVar client.answer) (hfree : p.Unrefused client goals s memory) :
    (∀ t', p.unchecked.ComesTo client goals s memory t' ↔
      ∃ t, p.ComesTo client goals s memory t ∧ t' = t.unchecked) ∧
    (∀ t, p.ComesTo client goals s memory t → ∀ n,
      t.unchecked.headUnification n =
        (t.headUnification n).map (fun (goal, head, w) => (goal, head, w.unchecked)) ∧
      ∀ goal head w, t.headUnification n = some (goal, head, w) →
        ∃ m o, o ≠ .cutOff ∧ ∀ k, m ≤ k →
          unify k goal head w = o ∧ unify k goal head w.unchecked = o.unchecked) ∧
    ((∀ n, ∃ m, p.calls client n goals s memory <+: p.unchecked.calls client m goals s memory) ∧
      ∀ n, ∃ m, p.unchecked.calls client n goals s memory <+: p.calls client m goals s memory) ∧
    (∀ n r, p.enumerate client n goals s memory = some r →
      p.unchecked.enumerate client n goals s memory = some r ∧
      p.unchecked.calls client n goals s memory = p.calls client n goals s memory) ∧
    ∀ n r, p.unchecked.enumerate client n goals s memory = some r →
      ∃ m, p.enumerate client m goals s memory = some r := by
  have hsturdy : ∀ t, p.ComesTo client goals s memory t →
      Search.Sturdy s.nextVar p.source.options t := fun t =>
    Program.ComesTo.sturdy h hacyclic hcheck hc hscope
  have hsturdy' : ∀ t, p.ComesTo client.logging goals s (memory, []) t →
      Search.Sturdy s.nextVar p.source.options t := fun t =>
    Program.ComesTo.sturdy h hacyclic hcheck (Client.logging_faithful hc)
      (Client.logging_inScope hscope)
  have hcalls := Program.calls_prefix_unchecked hcheck hfree.logging hsturdy'
  refine ⟨fun t' => Program.comesTo_unchecked_iff hfree hsturdy hcheck, ?_,
    ⟨fun n => (hcalls n).1, fun n => (hcalls n).2⟩, fun n r => hfree.enumerate_unchecked,
    fun n r => Program.exists_enumerate_of_unchecked hfree hsturdy hcheck⟩
  intro t ht n
  refine ⟨Search.headUnification_unchecked n t, fun goal head w hhead => ?_⟩
  exact (hsturdy t ht).exists_outcome hcheck (hfree t ht) hhead

end queries

/-- The query `3(Y), 0(Y)` in `0(1).  0(2).  3(X) if 0(X).`: half of the attempts at `0(Y)`
    fail, and the check is never needed.  Without it there are the same two matches. -/
theorem check_not_needed :
    let goals : List (Compound Nat) := [⟨3, [.var ⟨1⟩]⟩, ⟨0, [.var ⟨1⟩]⟩]
    let s : Store Nat := (Store.empty.freshMany 2).2
    evens.Unrefused throughout goals s () ∧
    ∃ r, r.1 = .exhausted 2 ∧ evens.enumerate throughout 20 goals s () = some r ∧
      evens.unchecked.enumerate throughout 20 goals s () = some r ∧
      (evens.unchecked.calls throughout 20 goals s ()).map (fun view =>
        (view.value ⟨1⟩).map Compound.name) = [some 1, some 2] := by
  intro goals s
  have hfree : evens.Unrefused throughout goals s () := by
    intro t ht
    exact Search.ComesTo.unrefused (n := 20) (by decide +kernel) ht
  have hrun : (evens.enumerate throughout 20 goals s ()).map (·.1) = some (.exhausted 2) := by
    decide +kernel
  obtain ⟨r, hrun, hending⟩ := Option.map_eq_some_iff.mp hrun
  have hmade : evens.Made goals s := by
    refine ⟨evens_askable.consistent, evens_askable.inScope, ?_, evens_askable.madeClauses⟩
    intro g hg
    simp only [goals, List.mem_cons, List.not_mem_nil, or_false] at hg
    rcases hg with rfl | rfl
    · exact Compound.within_of_var Nat.one_lt_two
    · exact Compound.within_of_var Nat.one_lt_two
  have hacyclic : s.Acyclic := (Session.readyThroughout_freshMany 2).ready.acyclic
  have hall := unneeded_check_changes_nothing hmade hacyclic rfl throughout_faithful
    (throughout_inScope 2) hfree
  obtain ⟨hrun', hcalls⟩ := hall.2.2.2.1 20 r hrun
  refine ⟨hfree, r, hending, hrun, hrun', ?_⟩
  rw [hcalls]
  decide +kernel

end Horn
