import Horn.Proofs.Conjunctions
import Horn.Proofs.DepthLimit

/-! # A limit on depth only filters

    A search with a limit on depth gives up every goal that lies deeper.  So it explores less
    than a search with a larger limit, or with none, and after another history of bindings.
    What it reports can still be told from the other search alone:

    * `Program.tagged`: the calls of a query, each *tagged* with the greatest depth of a goal
      that has been resolved on the path to the match.
    * `tell`: the tagged matches of an exploration.  A search whose client always goes on is
      called in stores that look like these (`run_tells`).
    * `shallow`: what is left of a stack of frames under a smaller limit.  Above the deepest
      frame that is too deep every match has a tag beyond the limit, and the others are the
      same (`tell_shallow`).

    Main statement: `depth_limit_only_filters`. -/

namespace Horn

universe u v

variable {A : Type u} {σ : Type v}

/-- The same clauses, searched with another limit on depth. -/
def Program.withLimit (p : Program A) (limit : Option Nat) : Program A :=
  { p with options := { p.options with maxDepth := limit } }

namespace Search

/-! ## Tags -/

/-- The greatest of some depths, and 0 if there is none. -/
def greatest (depths : List Nat) : Nat := depths.foldr max 0

@[simp] theorem greatest_nil : greatest [] = 0 := rfl

@[simp] theorem greatest_cons (d : Nat) (ds : List Nat) :
    greatest (d :: ds) = max d (greatest ds) :=
  rfl

@[simp] theorem greatest_append (ds ds' : List Nat) :
    greatest (ds ++ ds') = max (greatest ds) (greatest ds') := by
  induction ds with
  | nil => simp
  | cons d ds ih => simp [ih, Nat.max_assoc]

/-- The greatest depth of a goal on the current path.  There is a choice point for each. -/
def State.deepest (s : State A σ) : Nat := greatest (s.points.map fun point => point.goal.depth)

/-- The calls that a step has added to the log, tagged. -/
def newCalls (s t : State A (σ × List (Store A))) : List (Store A × Nat) :=
  (t.memory.2.drop s.memory.2.length).map (·, t.deepest)

/-! ## Stacks under a limit -/

/-- The greatest depth of a goal that there is a frame for. -/
def deepest (fs : List (Frame A)) : Nat := greatest (fs.map fun f => f.goal.depth)

@[simp] theorem deepest_cons (f : Frame A) (fs : List (Frame A)) :
    deepest (f :: fs) = max f.goal.depth (deepest fs) := rfl

@[simp] theorem deepest_append (fs fs' : List (Frame A)) :
    deepest (fs ++ fs') = max (deepest fs) (deepest fs') := by
  simp [deepest]

theorem deepest_eq_of_stacked {n₀ : Nat} {w : Session A} {points : List (ChoicePoint A)}
    {fs : List (Frame A)} (h : Stacked n₀ w points fs) :
    greatest (points.map fun point => point.goal.depth) = deepest fs := by
  induction h with
  | nil => rfl
  | cons _ hshown _ ih =>
    obtain ⟨-, π, hshow⟩ := hshown
    rw [List.map_cons, greatest_cons, ih, hshow.goal]
    rfl

/-- What is left of a stack if no goal is taken up that lies deeper than `k`: the last frame
    that does is missing, with all that stand above it. -/
def shallow (k : Nat) : List (Frame A) → List (Frame A)
  | [] => []
  | f :: fs => if deepest (f :: fs) ≤ k then f :: fs else shallow k fs

section shallow

variable {k : Nat} {fs : List (Frame A)}

theorem shallow_of_le (h : deepest fs ≤ k) : shallow k fs = fs := by
  cases fs with
  | nil => rfl
  | cons f fs =>
    unfold shallow
    rw [if_pos h]

theorem shallow_cons_of_lt {f : Frame A} (h : k < deepest (f :: fs)) :
    shallow k (f :: fs) = shallow k fs := by
  unfold shallow
  rw [if_neg (Nat.not_le_of_lt h)]
  cases fs <;> rfl

/-- Frames that do not lie too deep are left, whatever is of those above them. -/
theorem shallow_append_of_le (h : deepest fs ≤ k) (fs' : List (Frame A)) :
    shallow k (fs' ++ fs) = shallow k fs' ++ fs := by
  induction fs' with
  | nil => exact shallow_of_le h
  | cons f fs' ih =>
    by_cases hdeep : deepest (f :: fs') ≤ k
    · have hall : deepest (f :: fs' ++ fs) ≤ k := by
        rw [deepest_append]
        omega
      rw [shallow_of_le hdeep, shallow_of_le hall]
    · have hall : k < deepest (f :: (fs' ++ fs)) := by
        simp only [deepest_cons, deepest_append] at hdeep ⊢
        omega
      rw [List.cons_append, shallow_cons_of_lt hall, ih,
        shallow_cons_of_lt (Nat.lt_of_not_le hdeep)]

/-- Nothing is left of what stands above a frame that lies too deep. -/
theorem shallow_append_of_lt (h : k < deepest fs) (fs' : List (Frame A)) :
    shallow k (fs' ++ fs) = shallow k fs := by
  induction fs' with
  | nil => rfl
  | cons f fs' ih =>
    have hall : k < deepest (f :: (fs' ++ fs)) := by
      simp only [deepest_cons, deepest_append]
      omega
    rw [List.cons_append, shallow_cons_of_lt hall, ih]

end shallow

variable [DecidableEq A]

/-- The calls of a search within `n` steps, each tagged with the greatest depth of a goal
    that has been resolved on the path to it. -/
def tagged (src : Source A) (client : Client A σ) :
    Nat → State A (σ × List (Store A)) → List (Store A × Nat)
  | 0, _ => []
  | n + 1, s =>
    match step src client.logging n s with
    | .cutOff => []
    | .done _ t => newCalls s t
    | .next t => newCalls s t ++ tagged src client n t

omit [DecidableEq A] in
theorem append_newCalls {s t : State A (σ × List (Store A))} (h : s.memory.2 <+: t.memory.2) :
    s.memory.2 ++ (newCalls s t).map Prod.fst = t.memory.2 := by
  obtain ⟨new, hnew⟩ := h
  simp [newCalls, ← hnew, Function.comp_def]

/-- All calls are tagged, in their order. -/
theorem append_tagged (src : Source A) (client : Client A σ) (n : Nat)
    (s : State A (σ × List (Store A))) :
    s.memory.2 ++ (tagged src client n s).map Prod.fst =
      (reached src client.logging n s).memory.2 := by
  induction n generalizing s with
  | zero => simp [tagged, reached]
  | succ n ih =>
    have hgrows : (step src client.logging n s).All fun t => s.memory.2 <+: t.memory.2 :=
      step_prefix client.logging_logs n (List.prefix_refl _)
    unfold tagged reached
    revert hgrows
    generalize step src client.logging n s = r
    intro hgrows
    cases r with
    | cutOff => simp
    | done halted t => exact append_newCalls hgrows
    | next t =>
      simp only [List.map_append]
      rw [← List.append_assoc, append_newCalls hgrows, ih]

/-! ## Tagged matches of an exploration -/

/-- The matches of an exploration, each with the greatest depth of a goal on the path. -/
def tell (src : Source A) : Nat → List (Frame A) → Option (List (Store A × Nat))
  | 0, _ => none
  | _ + 1, [] => some []
  | n + 1, f :: fs =>
    match f.step src n with
    | none => none
    | some (view, frames) =>
      (tell src n (frames ++ fs)).map (view.toList.map (·, deepest (frames ++ fs)) ++ ·)

variable {src : Source A}

theorem tell_cons {n : Nat} {f : Frame A} {view : Option (Store A)} {frames : List (Frame A)}
    (hf : f.step src n = some (view, frames)) (fs : List (Frame A)) :
    tell src (n + 1) (f :: fs) =
      (tell src n (frames ++ fs)).map (view.toList.map (·, deepest (frames ++ fs)) ++ ·) := by
  rw [tell, hf]

/-- An exploration that comes to an end takes a step of the first frame, and goes on. -/
theorem step_of_tell {n : Nat} {f : Frame A} {fs : List (Frame A)} {l : List (Store A × Nat)}
    (h : tell src (n + 1) (f :: fs) = some l) :
    ∃ view frames l', f.step src n = some (view, frames) ∧ tell src n (frames ++ fs) = some l' ∧
      l = view.toList.map (·, deepest (frames ++ fs)) ++ l' := by
  cases hf : f.step src n with
  | none => simp [tell, hf] at h
  | some r =>
    obtain ⟨view, frames⟩ := r
    rw [tell_cons hf] at h
    obtain ⟨l', hl', rfl⟩ := Option.map_eq_some_iff.mp h
    exact ⟨view, frames, l', rfl, hl', rfl⟩

theorem tell_succ {n : Nat} {fs : List (Frame A)} {l : List (Store A × Nat)}
    (h : tell src n fs = some l) : tell src (n + 1) fs = some l := by
  induction n generalizing fs l with
  | zero => cases h
  | succ n ih =>
    cases fs with
    | nil => exact h
    | cons f fs =>
      obtain ⟨view, frames, l', hf, hl', rfl⟩ := step_of_tell h
      rw [tell_cons (Frame.step_succ hf), ih hl']
      rfl

theorem tell_mono {n m : Nat} (hnm : n ≤ m) {fs : List (Frame A)} {l : List (Store A × Nat)}
    (h : tell src n fs = some l) : tell src m fs = some l :=
  answer_mono (f := fun n => tell src n fs) (fun _ _ => tell_succ) hnm h

/-! ## Searches tell what explorations tell -/

section searches

variable {n₀ : Nat} {client : Client A σ}

/-- A call with the tag of a match, in a store that looks like that of the match. -/
def CalledAt (n₀ : Nat) (told call : Store A × Nat) : Prop :=
  (n₀ ≤ told.1.nextVar ∧ Store.SameView n₀ told.1 call.1) ∧ call.2 = told.2

/-- A search that is not stopped has been called at the matches of an exploration. -/
theorem run_tells (hsrc : src.Old n₀) (hc : Faithful client.answer)
    (hscope : InScope n₀ client.answer) {n : Nat} {w : Session A} {points : List (ChoicePoint A)}
    {fs : List (Frame A)} {found : Nat} {m : σ × List (Store A)}
    {t : State A (σ × List (Store A))} (hw : Running src.options w)
    (hstack : Stacked n₀ w points fs)
    (hrun : run src client.logging n ⟨w, points, found, m⟩ = some (false, t)) :
    ∃ l, tell src n fs = some l ∧
      List.Forall₂ (CalledAt n₀) l (tagged src client n ⟨w, points, found, m⟩) := by
  induction n generalizing w points fs found m with
  | zero => cases hrun
  | succ n ih =>
    rw [run_succ] at hrun
    cases hstack with
    | nil =>
      refine ⟨[], rfl, ?_⟩
      simp [tagged, step, newCalls]
    | @cons _ point points f fs hmark hshown hlater =>
      have hstep := step_explored (P := fun m' : σ × List (Store A) => m'.2 = m.2) hsrc
        (e := client.logging) (fun _ _ _ h => h) hw (.cons hmark hshown hlater) n found rfl
      unfold tell tagged
      revert hstep hrun
      generalize f.step src n = o
      generalize step src client.logging n ⟨w, point :: points, found, m⟩ = o'
      intro hrun hstep
      cases hstep with
      | cutOff => cases hrun
      | @next frames w' points' m' hw' hstack' hlog =>
        obtain ⟨l, hl, hcalls⟩ := ih hw' hstack' hrun
        refine ⟨l, ?_, ?_⟩
        · simp [hl]
        · simpa [newCalls, hlog] using hcalls
      | @asked s π frames w' points' m' depth hw' hstack' hlog hs hshow' =>
        obtain ⟨store, trail⟩ := w'
        obtain ⟨signal, s', m'', hanswer⟩ := client.exists_logging_answer store m'
        simp only [hanswer] at hrun ⊢
        cases signal with
        | halt => cases hrun
        | proceed =>
          have hstore : store.Consistent := hw'.sound.consistent.store
          have hfound : store.AsFound s' :=
            Client.logging_faithful hc _ _ _ _ _ hstore hanswer
          have hscoped : s'.Scoped s'.nextVar := Client.logging_inScope hscope _ _ _ _ _
            (hshow'.le hs.le) hstore hw'.sound.inScope.store hanswer
          have hw'' : Running src.options ⟨s', trail⟩ := hw'.asFound hfound hscoped
          obtain ⟨l, hl, hcalls⟩ := ih hw''
            (hstack'.extends stacked_lasting hw' hw'' (.of_kept ⟨rfl, hfound.kept⟩)) hrun
          refine ⟨(s, deepest (frames ++ fs)) :: l, ?_, ?_⟩
          · simp [hl]
          · have htag := deepest_eq_of_stacked hstack'
            simp only [answered, newCalls, ← hlog, List.drop_left, List.map_cons, List.map_nil,
              List.cons_append, List.nil_append]
            exact .cons ⟨⟨hs.le, π, hshow'⟩, htag⟩ hcalls

end searches

/-! ## Under a smaller limit -/

/-- What takes the place of a frame: new ones, and the frame itself with a clause less. -/
theorem Frame.step_cases {n : Nat} {f : Frame A} {view : Option (Store A)}
    {frames : List (Frame A)} (h : f.step src n = some (view, frames)) :
    view = none ∧ frames = [] ∨
      ∃ opened cs, frames = opened ++ [{ f with candidates := cs }] := by
  obtain ⟨g, rest, cs, s⟩ := f
  cases cs with
  | nil =>
    cases h
    exact .inl ⟨rfl, rfl⟩
  | cons c cs =>
    right
    obtain ⟨o, ho, he⟩ := Option.map_eq_some_iff.mp h
    cases o with
    | none =>
      cases he
      exact ⟨[], cs, rfl⟩
    | some r =>
      cases he
      exact ⟨_, cs, rfl⟩

/-- Above a frame that lies too deep, everything does. -/
theorem Frame.step_deep {n k : Nat} {f : Frame A} {fs : List (Frame A)} {view : Option (Store A)}
    {frames : List (Frame A)} (hdeep : k < deepest (f :: fs))
    (h : f.step src n = some (view, frames)) :
    shallow k (frames ++ fs) = shallow k fs ∧ (view ≠ none → k < deepest (frames ++ fs)) := by
  rcases Frame.step_cases h with ⟨rfl, rfl⟩ | ⟨opened, cs, rfl⟩
  · exact ⟨rfl, fun hview => absurd rfl hview⟩
  · have hlater : k < deepest ({ f with candidates := cs } :: fs) := hdeep
    rw [List.append_assoc, List.singleton_append]
    refine ⟨?_, fun _ => ?_⟩
    · rw [shallow_append_of_lt hlater, shallow_cons_of_lt hlater]
    · rw [deepest_append]
      omega

section limits

variable {src' : Source A} {k : Nat} (hclauses : src'.clausesFor = src.clausesFor)
  (hcheck : src'.options.occursCheck = src.options.occursCheck)
  (hlimit : src'.options.maxDepth = some k) (hwide : ∀ j, src.options.maxDepth = some j → k ≤ j)
include hclauses hlimit hwide

omit [DecidableEq A] in
/-- The smaller limit gives up goals that the other takes up, and none the other way round. -/
theorem onward_shallow (goals : List (Goal A)) (s : Store A) :
    onward src' goals s = ((onward src goals s).1, shallow k (onward src goals s).2) ∧
      ((onward src goals s).1 ≠ none → (onward src goals s).2 = []) := by
  cases goals with
  | nil => exact ⟨rfl, fun _ => rfl⟩
  | cons g rest =>
    have hdeep' : tooDeep src'.options g.depth = decide (k < g.depth) := by
      unfold tooDeep
      rw [hlimit]
    have hstart : Frame.start src' g rest s = Frame.start src g rest s := by
      unfold Frame.start
      rw [hclauses]
    have hdepth : deepest [Frame.start src g rest s] = g.depth := Nat.max_zero _
    unfold onward
    simp only [hdeep', decide_eq_true_eq, hstart]
    by_cases hdeep : tooDeep src.options g.depth = true
    · -- too deep for the larger limit is too deep for the smaller one
      have hk : k < g.depth := by
        by_contra hle
        have hfalse : tooDeep src.options g.depth = false :=
          tooDeep_eq_false_iff.mpr fun j hj => by have := hwide j hj; omega
        rw [hfalse] at hdeep
        cases hdeep
      simp [hdeep, hk, shallow]
    · by_cases hk : k < g.depth
      · have hlt : k < deepest [Frame.start src g rest s] := by omega
        simp [hdeep, hk, shallow_cons_of_lt hlt, shallow]
      · have hle : deepest [Frame.start src g rest s] ≤ k := by omega
        simp [hdeep, hk, shallow_of_le hle]

include hcheck

/-- A frame that does not lie too deep takes the same step, but for a new frame that does. -/
theorem Frame.step_shallow {n : Nat} {f : Frame A} {view : Option (Store A)}
    {frames : List (Frame A)} (hf : f.goal.depth ≤ k) (h : f.step src n = some (view, frames)) :
    f.step src' n = some (view, shallow k frames) ∧ (view ≠ none → deepest frames ≤ k) := by
  obtain ⟨g, rest, cs, s⟩ := f
  cases cs with
  | nil =>
    cases h
    exact ⟨rfl, fun hview => absurd rfl hview⟩
  | cons c cs =>
    have hlater : deepest [(⟨g, rest, cs, s⟩ : Frame A)] ≤ k := by simpa [deepest] using hf
    obtain ⟨o, ho, he⟩ := Option.map_eq_some_iff.mp h
    rw [Frame.step, hcheck, ho]
    cases o with
    | none =>
      cases he
      exact ⟨by rw [shallow_of_le hlater]; rfl, fun hview => absurd rfl hview⟩
    | some r =>
      let goals := r.1.map (Goal.mk · (g.depth + 1)) ++ rest
      have heq : ((onward src goals r.2).1, (onward src goals r.2).2 ++ [⟨g, rest, cs, s⟩]) =
          (view, frames) := he
      obtain ⟨rfl, rfl⟩ := Prod.mk.inj heq
      obtain ⟨honward, hview⟩ := onward_shallow hclauses hlimit hwide goals r.2
      refine ⟨?_, fun hmatch => ?_⟩
      · rw [shallow_append_of_le hlater]
        show some ((onward src' goals r.2).1, (onward src' goals r.2).2 ++ _) = _
        rw [honward]
      · rw [hview hmatch]
        exact hlater

/-- **The smaller limit filters.**  The induction is on the steps with the larger limit.  Those
    above a frame that lies too deep are not taken, and lead to tags beyond the limit. -/
theorem tell_shallow {n : Nat} {fs : List (Frame A)} {l : List (Store A × Nat)}
    (h : tell src n fs = some l) :
    tell src' n (shallow k fs) = some (l.filter fun q => q.2 ≤ k) := by
  induction n generalizing fs l with
  | zero => cases h
  | succ n ih =>
    cases fs with
    | nil =>
      cases h
      rfl
    | cons f fs =>
      obtain ⟨view, frames, l', hf, hl', rfl⟩ := step_of_tell h
      have hrest := ih hl'
      rw [List.filter_append]
      by_cases hdeep : deepest (f :: fs) ≤ k
      · have hfirst : f.goal.depth ≤ k ∧ deepest fs ≤ k := by
          rw [deepest_cons] at hdeep
          omega
        obtain ⟨hstep, hview⟩ := Frame.step_shallow hclauses hcheck hlimit hwide hfirst.1 hf
        rw [shallow_append_of_le hfirst.2] at hrest
        rw [shallow_of_le hdeep, tell_cons hstep, hrest]
        cases view with
        | none => rfl
        | some s =>
          have hframes : deepest frames ≤ k := hview nofun
          simp [shallow_of_le hframes, hframes, hfirst.2]
      · obtain ⟨hstay, hview⟩ := Frame.step_deep (Nat.lt_of_not_le hdeep) hf
        rw [hstay] at hrest
        rw [shallow_cons_of_lt (Nat.lt_of_not_le hdeep), tell_succ hrest]
        cases view with
        | none => rfl
        | some s =>
          have hframes : ¬ deepest (frames ++ fs) ≤ k := Nat.not_le_of_lt (hview nofun)
          simp [-deepest_append, hframes]

end limits

/-! ## Goals -/

/-- The tagged matches of goals in a store.  Without goals there is one, with tag 0. -/
def tellGoals (src : Source A) (n : Nat) (goals : List (Compound A)) (s : Store A) :
    Option (List (Store A × Nat)) :=
  match goals with
  | [] => some [(s, 0)]
  | g :: rest => tell src n [.start src ⟨g, 0⟩ (rest.map (⟨·, 0⟩)) s]

theorem tellGoals_mono {n m : Nat} (hnm : n ≤ m) {goals : List (Compound A)} {s : Store A}
    {l : List (Store A × Nat)} (h : tellGoals src n goals s = some l) :
    tellGoals src m goals s = some l := by
  cases goals with
  | nil => exact h
  | cons g rest => exact tell_mono hnm h

theorem tellGoals_limited {src' : Source A} {k : Nat} (hclauses : src'.clausesFor = src.clausesFor)
    (hcheck : src'.options.occursCheck = src.options.occursCheck)
    (hlimit : src'.options.maxDepth = some k) (hwide : ∀ j, src.options.maxDepth = some j → k ≤ j)
    {n : Nat} {goals : List (Compound A)} {s : Store A} {l : List (Store A × Nat)}
    (h : tellGoals src n goals s = some l) :
    tellGoals src' n goals s = some (l.filter fun q => q.2 ≤ k) := by
  cases goals with
  | nil =>
    cases h
    simp [tellGoals]
  | cons g rest =>
    -- the goals of a query lie under any limit
    have hstart : Frame.start src' ⟨g, 0⟩ (rest.map (⟨·, 0⟩)) s =
        Frame.start src ⟨g, 0⟩ (rest.map (⟨·, 0⟩)) s := by
      unfold Frame.start
      rw [hclauses]
    have hall := tell_shallow hclauses hcheck hlimit hwide h
    rw [shallow_of_le (Nat.zero_le k)] at hall
    unfold tellGoals
    simp only [hstart]
    exact hall

end Search

/-! ## Queries -/

section queries

variable [DecidableEq A] {p : Program A} {goals : List (Compound A)} {s : Store A}
  {client : Client A σ}

/-- The stores in which a query has called its client within `n` steps, each tagged with the
    greatest depth of a goal that has been resolved on the path to the match. -/
def Program.tagged (p : Program A) (client : Client A σ) (n : Nat) (goals : List (Compound A))
    (store : Store A) (memory : σ) : List (Store A × Nat) :=
  match goals with
  | [] => [(store, 0)]
  | g :: rest =>
    let memory := client.note store (.opened goals.length) memory
    Search.tagged p.source client n (Search.start p.source g rest store (memory, []))

/-- All calls are tagged, in their order. -/
theorem Program.tagged_map_fst (p : Program A) (client : Client A σ) (n : Nat)
    (goals : List (Compound A)) (store : Store A) (memory : σ) :
    (p.tagged client n goals store memory).map Prod.fst = p.calls client n goals store memory := by
  cases goals with
  | nil => rfl
  | cons g rest =>
    let first := Search.start p.source g rest store
      (client.note store (.opened (g :: rest).length) memory, ([] : List (Store A)))
    exact Search.append_tagged p.source client n first

/-- A query that comes to its end tells what the exploration of its goals tells. -/
theorem Program.Made.tells (h : p.Made goals s) (hc : Faithful client.answer)
    (hscope : InScope s.nextVar client.answer)
    (hproceed : ∀ s m r, client.answer s m = some r → r.1 = .proceed) {n : Nat} {memory : σ}
    {r : Ending × Store A × σ} (hrun : p.enumerate client n goals s memory = some r) :
    (∃ l, Search.tellGoals p.source n goals s = some l ∧
      List.Forall₂ (Search.CalledAt s.nextVar) l (p.tagged client n goals s memory)) ∧
    r.1 = .exhausted (p.tagged client n goals s memory).length := by
  obtain ⟨ending, s', memory'⟩ := r
  obtain ⟨log, hlog, hcalls⟩ := Search.calls_of_proceeding hproceed hrun
  refine ⟨?_, ?_⟩
  · cases goals with
    | nil =>
      have hself : s.SameView s.nextVar s := ⟨id, h.inScope.shows s.nextVar⟩
      exact ⟨_, rfl, .cons ⟨⟨Nat.le_refl _, hself⟩, rfl⟩ .nil⟩
    | cons g rest =>
      unfold Program.enumerate at hrun
      rw [Search.enumerate_cons] at hrun
      obtain ⟨⟨halted, t⟩, hrun, -⟩ := Option.map_eq_some_iff.mp hrun
      obtain rfl : halted = false := Search.run_not_halted hproceed hrun
      -- the client with the log sees the same run
      have hfirst : (Search.start p.source g rest s
          (client.note s (.opened (g :: rest).length) memory)).Related (fun m m' => m'.1 = m)
          (Search.start p.source g rest s
            (client.note s (.opened (g :: rest).length) memory, ([] : List (Store A)))) := .at rfl
      obtain ⟨t', hlogging, -⟩ := Search.run_related (d := client.logging)
        (R := fun m m' => m'.1 = m) (fun s e _ _ hm => congrArg (client.note s e) hm)
        (fun s m m' r hm hr => by
          obtain rfl := hm
          exact ⟨(r.2.2, m'.2 ++ [s]), by simp [Client.logging, hr], rfl⟩) n hfirst hrun
      exact Search.run_tells h.old hc hscope
        (Search.running_start h.consistent h.inScope)
        (Search.stacked_start h.old h.goals (h.inScope.shows _) h.workable _) hlogging
  · have hlength : (p.tagged client n goals s memory).length = log.length := by
      have hmap := (p.tagged_map_fst client n goals s memory).trans hcalls
      simpa using congrArg List.length hmap
    rw [hlength]
    exact (Search.record_of_persisting hlog).1

/-- **A limit on depth only filters.**  Let the client always go on and leave the store as it
    finds it.  Let the query come to its end under some limit, or without one, and also
    under a limit `k` that is no larger.

    Then the matches under the limit `k` are just those of the other query that have a tag
    of at most `k`, in the same order; and each is reported in a store that looks the same
    from all variables made before.  Tags are made of depths that count expansions: in all
    states that the search comes to, a goal has as its depth the number of expansions that
    it is nested in. -/
theorem depth_limit_only_filters (h : p.Made goals s) (hc : Faithful client.answer)
    (hscope : InScope s.nextVar client.answer)
    (hproceed : ∀ s m r, client.answer s m = some r → r.1 = .proceed) {k : Nat}
    {limit : Option Nat} (hwide : ∀ j, limit = some j → k ≤ j) {n n' : Nat} {memory : σ}
    {r r' : Ending × Store A × σ}
    (hrun : (p.withLimit limit).enumerate client n goals s memory = some r)
    (hrun' : (p.withLimit (some k)).enumerate client n' goals s memory = some r') :
    let wide := (p.withLimit limit).tagged client n goals s memory
    let narrow := (p.withLimit (some k)).tagged client n' goals s memory
    (wide.map Prod.fst = (p.withLimit limit).calls client n goals s memory ∧
      narrow.map Prod.fst = (p.withLimit (some k)).calls client n' goals s memory) ∧
    (r.1 = .exhausted wide.length ∧ r'.1 = .exhausted narrow.length) ∧
    List.Forall₂ (fun match₁ match₂ => match₂.2 = match₁.2 ∧ match₁.1.SameFrom s.nextVar match₂.1)
      (wide.filter fun q => q.2 ≤ k) narrow ∧
    ∀ g rest t, goals = g :: rest →
      Search.ComesTo (p.withLimit limit).source client.logging
          (Search.start (p.withLimit limit).source g rest s
            (client.note s (.opened goals.length) memory, [])) t →
        Search.Tallied (p.withLimit limit).source goals t.points := by
  have hmade : ∀ l, (p.withLimit l).Made goals s := fun l =>
    ⟨h.consistent, h.inScope, h.goals, h.clauses⟩
  obtain ⟨⟨l, hl, hcalled⟩, hending⟩ := (hmade limit).tells hc hscope hproceed hrun
  obtain ⟨⟨l', hl', hcalled'⟩, hending'⟩ := (hmade (some k)).tells hc hscope hproceed hrun'
  have hlimited : Search.tellGoals (p.withLimit (some k)).source n goals s =
      some (l.filter fun q => q.2 ≤ k) := by
    have hclauses : (p.withLimit (some k)).source.clausesFor =
        (p.withLimit limit).source.clausesFor :=
      rfl
    exact Search.tellGoals_limited hclauses rfl rfl hwide hl
  -- at one number of levels for both explorations
  obtain rfl : l' = l.filter fun q => q.2 ≤ k := by
    have hboth := Search.tellGoals_mono (Nat.le_max_left n n') hlimited
    rw [Search.tellGoals_mono (Nat.le_max_right n n') hl'] at hboth
    exact Option.some.inj hboth
  refine ⟨⟨Program.tagged_map_fst .., Program.tagged_map_fst ..⟩, ⟨hending, hending'⟩, ?_, ?_⟩
  · have hfiltered := List.rel_filter (R := Search.CalledAt s.nextVar)
      (p := fun q => decide (q.2 ≤ k)) (q := fun q => decide (q.2 ≤ k))
      (fun q q' hq => by
        show decide (q.2 ≤ k) = true ↔ decide (q'.2 ≤ k) = true
        rw [hq.2]) hcalled
    exact forall₂_of_common (fun _ _ _ hq hq' =>
      ⟨hq'.2.trans hq.2.symm, hq.1.2.sameFrom hq'.1.2 hq.1.1⟩) hfiltered hcalled'
  · rintro g rest t rfl hcomes
    exact hcomes.tallied

end queries

/-! ### The left-recursive program with two limits -/

/-- With at most three expansions around a goal, `0(Y)` has three matches in
    `0(X) if 1(X), 0(X).  1(X) if 0(X).  0(2).`, and the depths on the paths to them are at most
    3, 2 and 0.  With at most two expansions it has the second and the third. -/
theorem circular_matches_within_two :
    ((circular.withLimit (some 3)).tagged throughout 30 [⟨0, [.var ⟨1⟩]⟩]
        (Store.empty.freshMany 2).2 ()).map (·.2) = [3, 2, 0] ∧
    List.Forall₂ (fun match₁ match₂ => match₂.2 = match₁.2 ∧ match₁.1.SameFrom 2 match₂.1)
      (((circular.withLimit (some 3)).tagged throughout 30 [⟨0, [.var ⟨1⟩]⟩]
        (Store.empty.freshMany 2).2 ()).filter fun q => q.2 ≤ 2)
      ((circular.withLimit (some 2)).tagged throughout 30 [⟨0, [.var ⟨1⟩]⟩]
        (Store.empty.freshMany 2).2 ()) := by
  have hwide : ((circular.withLimit (some 3)).enumerate throughout 30 [⟨0, [.var ⟨1⟩]⟩]
      (Store.empty.freshMany 2).2 ()).map (·.1) = some (.exhausted 3) := by
    decide +kernel
  have hnarrow : ((circular.withLimit (some 2)).enumerate throughout 30 [⟨0, [.var ⟨1⟩]⟩]
      (Store.empty.freshMany 2).2 ()).map (·.1) = some (.exhausted 2) := by
    decide +kernel
  obtain ⟨r, hrun, -⟩ := Option.map_eq_some_iff.mp hwide
  obtain ⟨r', hrun', -⟩ := Option.map_eq_some_iff.mp hnarrow
  have hproceed : ∀ s m r, throughout.answer s m = some r → r.1 = .proceed := by
    intro s m r hr
    cases hr
    rfl
  have hall := depth_limit_only_filters circular_made throughout_faithful (throughout_inScope 2)
    hproceed (fun j hj => by cases hj; omega) hrun hrun'
  exact ⟨by decide +kernel, hall.2.2.1⟩

end Horn
