import Horn.Proofs.Attempts

/-! # The recursion as a machine

    Between the recursive search and the one with choice points stands a machine that
    keeps a stack of *frames*: a goal, the goals after it, the clauses not yet tried,
    and the store in which they are to be tried.  It never undoes anything.

    A clause that has been tried leads to a match, to a new frame or to nothing (`ledTo`),
    for the machine as for the recursion: `machine_cons`, `expand_succ`.  So started with
    one frame the machine reports what the recursion reports, and comes to an end just if
    the recursion does: `prove_of_machine`, `machine_of_prove`. -/

namespace Horn.Search

universe u

variable {A : Type u}

/-! ## Going on -/

theorem goOn_none (next : Nat → Option (Report A)) (found : Nat) :
    goOn (some .none) next found = next found := by
  have hid : ∀ o : Option (Report A), o.map (Report.before .none) = o := by
    intro o
    cases o <;> rfl
  exact hid _

/-- Nothing comes after the last report. -/
theorem goOn_last (o : Option (Report A)) (found : Nat) :
    goOn o (fun _ => some .none) found = o := by
  cases o with
  | none => rfl
  | some r =>
    obtain ⟨halted, views⟩ := r
    cases halted with
    | true => rfl
    | false => exact congrArg (fun vs => some (Report.mk false vs)) (List.append_nil views)

/-- Going on twice is going on with what goes on. -/
theorem goOn_goOn (o : Option (Report A)) (f g : Nat → Option (Report A)) (found : Nat) :
    goOn (goOn o f found) g found = goOn o (fun k => goOn (f k) g k) found := by
  cases o with
  | none => rfl
  | some r =>
    obtain ⟨halted, views⟩ := r
    cases halted with
    | true => rfl
    | false =>
      simp only [goOn, Bool.false_eq_true, if_false]
      cases hf : f (found + views.length) with
      | none => rfl
      | some r' =>
        obtain ⟨halted', views'⟩ := r'
        cases halted' with
        | true => rfl
        | false =>
          -- two reports go before the rest as one
          have hassoc : Report.before ⟨false, views ++ views'⟩ =
              Report.before ⟨false, views⟩ ∘ Report.before ⟨false, views'⟩ :=
            funext fun r => congrArg (Report.mk r.halted) (List.append_assoc ..)
          simp only [Option.map_some, Bool.false_eq_true, if_false, Option.map_map]
          rw [← hassoc]
          simp only [Report.before, List.length_append, Nat.add_assoc]
          rfl

/-- Where going on comes to an end, so does what comes first; that has been stopped, or what
    comes next comes to an end as well. -/
theorem goOn_eq_some_iff {o : Option (Report A)} {next : Nat → Option (Report A)} {found : Nat}
    {r : Report A} : goOn o next found = some r ↔ ∃ r₁, o = some r₁ ∧
      (r₁.halted = true ∧ r = r₁ ∨ r₁.halted = false ∧
        ∃ r₂, next (found + r₁.views.length) = some r₂ ∧ r = r₁.before r₂) := by
  constructor
  · intro h
    cases o with
    | none => cases h
    | some r₁ =>
      refine ⟨r₁, rfl, ?_⟩
      simp only [goOn] at h
      split at h
      · next hr => exact .inl ⟨hr, (Option.some.inj h).symm⟩
      · next hr =>
        obtain ⟨r₂, h₂, he⟩ := Option.map_eq_some_iff.mp h
        exact .inr ⟨Bool.eq_false_iff.mpr hr, r₂, h₂, he.symm⟩
  · rintro ⟨r₁, rfl, ⟨hr, rfl⟩ | ⟨hr, r₂, h₂, rfl⟩⟩
    · simp only [goOn, hr, if_true]
    · simp only [goOn, hr, h₂, Bool.false_eq_true, if_false, Option.map_some]

theorem goOn_mono {o o' : Option (Report A)} {f f' : Nat → Option (Report A)} {found : Nat}
    {r : Report A} (ho : ∀ r, o = some r → o' = some r)
    (hf : ∀ k r, f k = some r → f' k = some r) (h : goOn o f found = some r) :
    goOn o' f' found = some r := by
  obtain ⟨r₁, hr₁, h⟩ := goOn_eq_some_iff.mp h
  refine goOn_eq_some_iff.mpr ⟨r₁, ho r₁ hr₁, ?_⟩
  -- a search that has been stopped does not go on on either side
  rcases h with hstopped | ⟨hr, r₂, h₂, he⟩
  · exact .inl hstopped
  · exact .inr ⟨hr, r₂, hf _ _ h₂, he⟩

theorem eachClause_mono {f f' : Clause A → Nat → Option (Report A)}
    (hf : ∀ c k r, f c k = some r → f' c k = some r) {cs : List (Clause A)} {found : Nat}
    {r : Report A} (h : eachClause f cs found = some r) : eachClause f' cs found = some r := by
  induction cs generalizing found r with
  | nil => exact h
  | cons c cs ih => exact goOn_mono (hf c found) (fun _ _ => ih) h

/-- More levels give the same answer. -/
def Settled {α : Type u} (o : Nat → Option α) : Prop := ∀ n a, o n = some a → o (n + 1) = some a

theorem Settled.mono {α : Type u} {o : Nat → Option α} (ho : Settled o) {n m : Nat} (hnm : n ≤ m)
    {a : α} (h : o n = some a) : o m = some a := answer_mono ho hnm h

/-- If a report can be had at some level and so can what comes after it, then both can be
    had at one level. -/
theorem exists_goOn {o : Nat → Option (Report A)} {f : Nat → Nat → Option (Report A)}
    (ho : Settled o) (hf : ∀ k, Settled fun n => f n k) {o₁ : Option (Report A)}
    {f₁ : Nat → Option (Report A)} {found : Nat} {r : Report A}
    (ho₁ : ∀ r, o₁ = some r → ∃ n, o n = some r)
    (hf₁ : ∀ k r, f₁ k = some r → ∃ n, f n k = some r) (h : goOn o₁ f₁ found = some r) :
    ∃ n, goOn (o n) (f n) found = some r := by
  obtain ⟨r₁, hr₁, h⟩ := goOn_eq_some_iff.mp h
  obtain ⟨n, hn⟩ := ho₁ r₁ hr₁
  rcases h with hstopped | ⟨hr, r₂, h₂, he⟩
  · exact ⟨n, goOn_eq_some_iff.mpr ⟨r₁, hn, .inl hstopped⟩⟩
  · obtain ⟨m, hm⟩ := hf₁ _ r₂ h₂
    refine ⟨max n m, goOn_eq_some_iff.mpr ⟨r₁, ho.mono (Nat.le_max_left n m) hn, ?_⟩⟩
    exact .inr ⟨hr, r₂, (hf _).mono (Nat.le_max_right n m) hm, he⟩

/-! ## Frames -/

/-- The clauses left for the first of some goals, and the store to try them in. -/
structure Frame (A : Type u) where
  goal : Goal A
  rest : List (Goal A)
  candidates : List (Clause A)
  store : Store A

/-- The frame for goal `g` before any clause has been tried. -/
def Frame.start (src : Source A) (g : Goal A) (rest : List (Goal A)) (s : Store A) : Frame A :=
  ⟨g, rest, src.clausesFor g.compound.signature, s⟩

/-- What becomes of goals in a store: a match if there are none, nothing if the first one
    lies too deep, and a frame for it otherwise. -/
def onward (src : Source A) (goals : List (Goal A)) (s : Store A) :
    Option (Store A) × List (Frame A) :=
  match goals with
  | [] => (some s, [])
  | g :: rest => if tooDeep src.options g.depth then (none, []) else (none, [.start src g rest s])

/-- The report of what may be a match. -/
def told (onMatch : Store A → Nat → Option (Report A)) : Option (Store A) → Nat → Option (Report A)
  | none, _ => some .none
  | some s, found => onMatch s found

/-- The report of a match, if the answer to it is given in advance. -/
def atMatch (answers : Nat → Signal) (s : Store A) (found : Nat) : Option (Report A) :=
  some ⟨answers found = .halt, [s]⟩

/-- What a clause leads to that has been tried for the first of some goals. -/
def ledTo (src : Source A) (g : Goal A) (rest : List (Goal A)) :
    Option (List (Compound A) × Store A) → Option (Store A) × List (Frame A)
  | none => (none, [])
  | some (body, s) => onward src (body.map (⟨·, g.depth + 1⟩) ++ rest) s

/-! ## Where matches come from -/

/-- A match reported for some clauses is reported for one of them. -/
theorem exists_clause_of_view {attempt : Clause A → Nat → Option (Report A)}
    {cs : List (Clause A)} {found : Nat} {r : Report A}
    (h : eachClause attempt cs found = some r) {view : Store A} (hview : view ∈ r.views) :
    ∃ c ∈ cs, ∃ k r', attempt c k = some r' ∧ view ∈ r'.views := by
  induction cs generalizing found r with
  | nil =>
    cases h
    cases hview
  | cons c cs ih =>
    obtain ⟨r₁, hc, ⟨-, rfl⟩ | ⟨-, r₂, h₂, rfl⟩⟩ := goOn_eq_some_iff.mp h
    · exact ⟨c, List.mem_cons_self .., found, r, hc, hview⟩
    · rcases List.mem_append.mp hview with hv | hv
      · exact ⟨c, List.mem_cons_self .., found, r₁, hc, hv⟩
      · obtain ⟨d, hd, hrest⟩ := ih h₂ hv
        exact ⟨d, List.mem_cons_of_mem _ hd, hrest⟩

section prove

variable {resolve : Resolver A} {src : Source A} {answers : Nat → Signal}

/-- A clause that has been tried has led to nothing, or to goals that have been proved. -/
theorem expand_cases {n : Nat} {prove : List (Goal A) → Store A → Nat → Option (Report A)}
    {g : Goal A} {rest : List (Goal A)} {s : Store A} {c : Clause A} {found : Nat} {r : Report A}
    (h : expand resolve src n prove g rest s c found = some r) :
    r = .none ∨
      ∃ gs s', resolve src.options.occursCheck n g.compound c s = some (some (gs, s')) ∧
        pruned src.options (gs.map (⟨·, g.depth + 1⟩) ++ rest) = false ∧
        prove (gs.map (⟨·, g.depth + 1⟩) ++ rest) s' found = some r := by
  unfold expand at h
  split at h
  · cases h
  · exact .inl (Option.some.inj h).symm
  · next gs s' hres =>
    simp only at h
    split at h
    · exact .inl (Option.some.inj h).symm
    · next hpruned => exact .inr ⟨gs, s', hres, Bool.eq_false_iff.mpr hpruned, h⟩

/-- A match reported for a clause is reported for the goals that it leads to. -/
theorem exists_step_of_view {n : Nat} {prove : List (Goal A) → Store A → Nat → Option (Report A)}
    {g : Goal A} {rest : List (Goal A)} {s : Store A} {c : Clause A} {found : Nat} {r : Report A}
    (h : expand resolve src n prove g rest s c found = some r) {view : Store A}
    (hview : view ∈ r.views) :
    ∃ gs s', resolve src.options.occursCheck n g.compound c s = some (some (gs, s')) ∧
      pruned src.options (gs.map (⟨·, g.depth + 1⟩) ++ rest) = false ∧
      prove (gs.map (⟨·, g.depth + 1⟩) ++ rest) s' found = some r := by
  rcases expand_cases h with rfl | hstep
  · cases hview
  · exact hstep

/-! ## More levels -/

/-- More levels do not change how a goal is resolved. -/
def Resolver.Settles (resolve : Resolver A) : Prop :=
  ∀ check goal c s, Settled fun n => resolve check n goal c s

/-- If what one resolver comes to at a level the other comes to at a later one, the same
    goes for what becomes of a clause. -/
theorem expand_mono {resolve' : Resolver A} {n m : Nat} {g : Goal A} {s : Store A} {c : Clause A}
    (hresolve : ∀ o, resolve src.options.occursCheck n g.compound c s = some o →
      resolve' src.options.occursCheck m g.compound c s = some o)
    {prove prove' : List (Goal A) → Store A → Nat → Option (Report A)}
    (hprove : ∀ goals s k r, prove goals s k = some r → prove' goals s k = some r)
    {rest : List (Goal A)} {found : Nat} {r : Report A}
    (h : expand resolve src n prove g rest s c found = some r) :
    expand resolve' src m prove' g rest s c found = some r := by
  unfold expand at h ⊢
  cases hres : resolve src.options.occursCheck n g.compound c s with
  | none =>
    rw [hres] at h
    cases h
  | some o =>
    rw [hresolve o hres]
    rw [hres] at h
    cases o with
    | none => exact h
    | some q =>
      simp only at h ⊢
      -- whether a goal lies too deep has nothing to do with levels
      split
      · next hp => rw [if_pos hp] at h; exact h
      · next hp => rw [if_neg hp] at h; exact hprove _ _ _ _ h

theorem prove_succ (hr : resolve.Settles) {n : Nat} {goals : List (Goal A)} {s : Store A}
    {found : Nat} {r : Report A} (h : prove resolve src answers n goals s found = some r) :
    prove resolve src answers (n + 1) goals s found = some r := by
  induction n generalizing goals s found r with
  | zero => cases h
  | succ n ih =>
    cases goals with
    | nil => exact h
    | cons g rest =>
      exact eachClause_mono (fun c k r hc =>
        expand_mono (hr _ _ c s n) (fun _ _ _ _ => ih) hc) h

theorem prove_mono (hr : resolve.Settles) {n m : Nat} (hnm : n ≤ m) {goals : List (Goal A)}
    {s : Store A} {found : Nat} {r : Report A}
    (h : prove resolve src answers n goals s found = some r) :
    prove resolve src answers m goals s found = some r :=
  answer_mono (f := fun n => prove resolve src answers n goals s found)
    (fun _ _ => prove_succ hr) hnm h

end prove

variable [DecidableEq A]

/-- No variable is lost on the way to a match. -/
theorem prove_nextVar_le {src : Source A} {answers : Nat → Signal} {n : Nat}
    {goals : List (Goal A)} {s : Store A} {found : Nat} {r : Report A}
    (h : prove headFirst src answers n goals s found = some r) :
    ∀ view ∈ r.views, s.nextVar ≤ view.nextVar := by
  induction n generalizing goals s found r with
  | zero => cases h
  | succ n ih =>
    intro view hview
    cases goals with
    | nil =>
      -- a match: the store is the one the proof has come to
      cases h
      obtain rfl : view = s := List.mem_singleton.mp hview
      exact Nat.le_refl _
    | cons g rest =>
      obtain ⟨c, -, k, r', hexpand, hview'⟩ := exists_clause_of_view h hview
      obtain ⟨gs, s', hres, -, hprove⟩ := exists_step_of_view hexpand hview'
      exact Nat.le_trans (headFirst_nextVar_le hres) (ih hprove view hview')

theorem headFirst_settles : Resolver.Settles (headFirst (A := A)) := by
  intro check goal c s n o h
  have hcopy : ∀ t p r, s.copyTerm n t p = some r → s.copyTerm (n + 1) t p = some r :=
    fun _ _ _ => s.copyTerm_succ
  obtain ⟨head, p, hhead, hcases⟩ := headFirst_cases h
  show headFirst check (n + 1) goal c s = some o
  rw [headFirst_eq, copyGoal_mono hcopy hhead, Option.bind_some]
  -- a unification that was not cut off ends as it did
  have hsettles := unify_settles n goal.toTerm head.toTerm ⟨s, .start check⟩
  obtain ⟨e, w, hu, rfl⟩ | ⟨w, gs, q, hu, hbody, rfl⟩ := hcases
  · rw [hu] at hsettles
    rw [hsettles nofun]
  · rw [hu] at hsettles
    rw [hsettles nofun]
    simp only
    rw [copyGoals_mono hcopy hbody]
    rfl

theorem headFirst_mono {check : Bool} {n m : Nat} (hnm : n ≤ m) {goal : Compound A} {c : Clause A}
    {s : Store A} {o : Option (List (Compound A) × Store A)}
    (h : headFirst check n goal c s = some o) : headFirst check m goal c s = some o :=
  Settled.mono (headFirst_settles check goal c s) hnm h

variable {src : Source A} {answers : Nat → Signal}

/-! ## The machine -/

/-- Works off a stack of frames. -/
def machine (src : Source A) (answers : Nat → Signal) :
    Nat → List (Frame A) → Nat → Option (Report A)
  | 0, _, _ => none
  | _ + 1, [], _ => some .none
  | n + 1, ⟨_, _, [], _⟩ :: fs, found => machine src answers n fs found
  | n + 1, ⟨g, rest, c :: cs, s⟩ :: fs, found =>
    let later := ⟨g, rest, cs, s⟩ :: fs
    match headFirst src.options.occursCheck n g.compound c s with
    | none => none
    | some none => machine src answers n later found
    | some (some (body, s)) =>
      match body.map (⟨·, g.depth + 1⟩) ++ rest with
      | [] =>
        match answers found with
        | .halt => some ⟨true, [s]⟩
        | .proceed => (machine src answers n later (found + 1)).map (Report.before ⟨false, [s]⟩)
      | g' :: rest' =>
        if tooDeep src.options g'.depth then machine src answers n later found
        else machine src answers n
          (⟨g', rest', src.clausesFor g'.compound.signature, s⟩ :: later) found

/-- What the recursion reports for the clauses left in a frame. -/
def Frame.report (src : Source A) (answers : Nat → Signal) (n : Nat) (f : Frame A) (found : Nat) :
    Option (Report A) :=
  eachClause (expand headFirst src n (prove headFirst src answers n) f.goal f.rest f.store)
    f.candidates found

/-- What the recursion reports for a stack of frames, the first one first. -/
def reports (src : Source A) (answers : Nat → Signal) (n : Nat) :
    List (Frame A) → Nat → Option (Report A)
  | [], _ => some .none
  | f :: fs, found => goOn (f.report src answers n found) (reports src answers n fs) found

theorem reports_mono {n m : Nat} (hnm : n ≤ m) {fs : List (Frame A)} {found : Nat} {r : Report A}
    (h : reports src answers n fs found = some r) : reports src answers m fs found = some r := by
  induction fs generalizing found r with
  | nil => exact h
  | cons f fs ih =>
    refine goOn_mono (fun r hr => ?_) (fun _ _ => ih) h
    exact eachClause_mono (fun c k r hc =>
      expand_mono (fun _ => headFirst_mono hnm)
      (fun _ _ _ _ => prove_mono headFirst_settles hnm) hc) hr

theorem reports_settled (fs : List (Frame A)) (found : Nat) :
    Settled fun n => reports src answers n fs found := fun n _ => reports_mono (Nat.le_succ n)

theorem reports_append (n : Nat) (fs fs' : List (Frame A)) (found : Nat) :
    reports src answers n (fs ++ fs') found =
      goOn (reports src answers n fs found) (reports src answers n fs') found := by
  induction fs generalizing found with
  | nil => exact (goOn_none _ found).symm
  | cons f fs ih =>
    rw [List.cons_append, reports, reports, goOn_goOn, funext ih]

theorem reports_singleton (n : Nat) (f : Frame A) (found : Nat) :
    reports src answers n [f] found = f.report src answers n found := goOn_last _ found

/-- The first clause of a frame, and then the others. -/
theorem reports_cons (n : Nat) (g : Goal A) (rest : List (Goal A)) (c : Clause A)
    (cs : List (Clause A)) (s : Store A) (fs : List (Frame A)) (found : Nat) :
    reports src answers n (⟨g, rest, c :: cs, s⟩ :: fs) found =
      goOn (expand headFirst src n (prove headFirst src answers n) g rest s c found)
        (reports src answers n (⟨g, rest, cs, s⟩ :: fs)) found := by
  rw [reports, Frame.report, eachClause, goOn_goOn]
  rfl

/-- Expanding the first goal is reporting a new frame. -/
theorem prove_cons (n : Nat) (g : Goal A) (rest : List (Goal A)) (s : Store A) (found : Nat) :
    prove headFirst src answers (n + 1) (g :: rest) s found =
      Frame.report src answers n ⟨g, rest, src.clausesFor g.compound.signature, s⟩ found := rfl

/-! ## A clause that has been tried -/

variable {g : Goal A} {rest : List (Goal A)} {c : Clause A} {cs : List (Clause A)} {s : Store A}
  {fs : List (Frame A)} {found : Nat}

/-- The machine reports what the clause leads to, and then works off what it leads to before
    it goes back to the other clauses. -/
theorem machine_cons (n : Nat) :
    machine src answers (n + 1) (⟨g, rest, c :: cs, s⟩ :: fs) found =
      (headFirst src.options.occursCheck n g.compound c s).bind fun o =>
        goOn (told (atMatch answers) (ledTo src g rest o).1 found)
          (machine src answers n ((ledTo src g rest o).2 ++ ⟨g, rest, cs, s⟩ :: fs)) found := by
  rw [machine]
  cases headFirst src.options.occursCheck n g.compound c s with
  | none => rfl
  | some o =>
    cases o with
    | none => exact (goOn_none _ found).symm
    | some q =>
      simp only [Option.bind_some, ledTo]
      generalize q.1.map (⟨·, g.depth + 1⟩) ++ rest = goals
      cases goals with
      | nil =>
        simp only [onward, told, atMatch]
        cases answers found <;> rfl
      | cons g' rest' =>
        simp only [onward]
        split
        · exact (goOn_none _ found).symm
        · exact (goOn_none _ found).symm

theorem expand_zero {prove : List (Goal A) → Store A → Nat → Option (Report A)} :
    expand headFirst src 0 prove g rest s c found = none := by
  -- a unification needs a level
  have hnone : headFirst src.options.occursCheck 0 g.compound c s = none := by
    rw [headFirst_eq]
    cases copyGoal (s.copyTerm 0) c.head ⟨.empty, s.nextVar⟩ <;> rfl
  rw [expand, hnone]

/-- The recursion reports what the clause leads to, and then what comes of that one level
    lower. -/
theorem expand_succ (n : Nat) :
    expand headFirst src (n + 1) (prove headFirst src answers (n + 1)) g rest s c found =
      (headFirst src.options.occursCheck (n + 1) g.compound c s).bind fun o =>
        goOn (told (atMatch answers) (ledTo src g rest o).1 found)
          (reports src answers n (ledTo src g rest o).2) found := by
  unfold expand
  cases headFirst src.options.occursCheck (n + 1) g.compound c s with
  | none => rfl
  | some o =>
    cases o with
    | none => rfl
    | some q =>
      simp only [Option.bind_some, ledTo]
      generalize q.1.map (⟨·, g.depth + 1⟩) ++ rest = goals
      cases goals with
      | nil => exact (goOn_last (atMatch answers q.2 found) found).symm
      | cons g' rest' =>
        by_cases hdeep : tooDeep src.options g'.depth = true
        · simp only [pruned, onward, hdeep, if_true]
          rfl
        · simp only [pruned, onward, hdeep, Bool.false_eq_true, if_false]
          have hframe : reports src answers n [.start src g' rest' q.2] found =
              prove headFirst src answers (n + 1) (g' :: rest') q.2 found :=
            reports_singleton n _ found
          exact hframe.symm.trans (goOn_none _ found).symm

/-! ## The machine reports what the recursion reports -/

/-- If the machine comes to an end, so does the recursion, and it reports the same. -/
theorem reports_of_machine {n : Nat} {fs : List (Frame A)} {found : Nat} {r : Report A}
    (h : machine src answers n fs found = some r) :
    ∃ k, reports src answers k fs found = some r := by
  induction n generalizing fs found r with
  | zero => cases h
  | succ n ih =>
    cases fs with
    | nil => exact ⟨0, h⟩
    | cons f fs =>
      obtain ⟨g, rest, cs, s⟩ := f
      cases cs with
      | nil =>
        -- an empty frame reports nothing
        obtain ⟨k, hk⟩ := ih h
        refine ⟨k, ?_⟩
        rw [reports, Frame.report, eachClause, goOn_none]
        exact hk
      | cons c cs =>
        rw [machine_cons] at h
        obtain ⟨o, ho, h⟩ := Option.bind_eq_some_iff.mp h
        have hreport : Settled fun _ => told (atMatch answers) (ledTo src g rest o).1 found :=
          fun _ _ hr => hr
        -- what comes after the report of the clause comes to an end at some level
        have hafter : ∃ k, goOn (told (atMatch answers) (ledTo src g rest o).1 found)
            (reports src answers k ((ledTo src g rest o).2 ++ ⟨g, rest, cs, s⟩ :: fs)) found =
              some r :=
          exists_goOn hreport (reports_settled _) (fun _ hr => ⟨0, hr⟩) (fun _ _ hr => ih hr) h
        obtain ⟨k, hk⟩ := hafter
        have hn : n ≤ max n k + 1 := Nat.le_succ_of_le (Nat.le_max_left n k)
        have hk' : k ≤ max n k := Nat.le_max_right n k
        refine ⟨max n k + 1, ?_⟩
        rw [reports_cons, expand_succ, headFirst_mono hn ho, Option.bind_some, goOn_goOn]
        refine goOn_mono (fun _ hr => hr) (fun j r hr => ?_) hk
        rw [reports_append] at hr
        exact goOn_mono (fun _ => reports_mono hk')
          (fun _ _ => reports_mono (Nat.le_succ_of_le hk')) hr

/-- The machine reports `r` when it is given enough steps. -/
def Reaches (src : Source A) (answers : Nat → Signal) (fs : List (Frame A)) (found : Nat)
    (r : Report A) : Prop := ∃ N, ∀ n, N ≤ n → machine src answers n fs found = some r

/-- One step of the machine, once the level is at least `k`. -/
theorem Reaches.step {fs fs' : List (Frame A)} {found found' : Nat} {r r' : Report A} (k : Nat)
    (h : Reaches src answers fs' found' r')
    (hstep : ∀ n, k ≤ n → machine src answers n fs' found' = some r' →
      machine src answers (n + 1) fs found = some r) : Reaches src answers fs found r := by
  obtain ⟨N, hN⟩ := h
  refine ⟨max k N + 1, fun n hn => ?_⟩
  -- above this level there is a step to take, and `m` levels are left for the others
  obtain ⟨m, rfl⟩ : ∃ m, n = m + 1 := ⟨n - 1, by omega⟩
  exact hstep m (by omega) (hN m (by omega))

theorem reaches_nil (found : Nat) : Reaches src answers [] found .none := by
  refine ⟨1, fun n hn => ?_⟩
  obtain ⟨m, rfl⟩ : ∃ m, n = m + 1 := ⟨n - 1, by omega⟩
  rfl

/-- If what a clause leads to is reported, and what comes after that is reached, then it is
    reached from the frame with the clause. -/
theorem Reaches.of_clause {k : Nat} {o : Option (List (Compound A) × Store A)}
    {next : Nat → Option (Report A)} {r : Report A}
    (hres : headFirst src.options.occursCheck k g.compound c s = some o)
    (hnext : ∀ j r', next j = some r' →
      Reaches src answers ((ledTo src g rest o).2 ++ ⟨g, rest, cs, s⟩ :: fs) j r')
    (h : goOn (told (atMatch answers) (ledTo src g rest o).1 found) next found = some r) :
    Reaches src answers (⟨g, rest, c :: cs, s⟩ :: fs) found r := by
  obtain ⟨r₁, hr₁, hstopped | ⟨hr, r₂, h₂, he⟩⟩ := goOn_eq_some_iff.mp h
  · -- the search is stopped at the match, so nothing has to be reached after it
    refine ⟨k + 1, fun n hn => ?_⟩
    obtain ⟨m, rfl⟩ : ∃ m, n = m + 1 := ⟨n - 1, by omega⟩
    rw [machine_cons, headFirst_mono (by omega) hres, Option.bind_some]
    exact goOn_eq_some_iff.mpr ⟨r₁, hr₁, .inl hstopped⟩
  · refine (hnext _ r₂ h₂).step k fun n hkn hn => ?_
    rw [machine_cons, headFirst_mono hkn hres, Option.bind_some]
    exact goOn_eq_some_iff.mpr ⟨r₁, hr₁, .inr ⟨hr, r₂, hn, he⟩⟩

/-- If the machine does at each clause what the recursion does, then it works off all frames
    that the recursion works off, and what follows.  The induction is on the frames, and on
    the clauses left in the first of them. -/
theorem reaches_of_clauses {k : Nat}
    (hclause : ∀ g rest c cs s fs found next r,
      (∀ j r', next j = some r' → Reaches src answers (⟨g, rest, cs, s⟩ :: fs) j r') →
      goOn (expand headFirst src k (prove headFirst src answers k) g rest s c found) next found =
          some r →
        Reaches src answers (⟨g, rest, c :: cs, s⟩ :: fs) found r)
    {new fs : List (Frame A)} {found : Nat} {next : Nat → Option (Report A)} {r : Report A}
    (hnext : ∀ j r', next j = some r' → Reaches src answers fs j r')
    (h : goOn (reports src answers k new found) next found = some r) :
    Reaches src answers (new ++ fs) found r := by
  induction new generalizing found r with
  | nil =>
    rw [reports, goOn_none] at h
    exact hnext found r h
  | cons f new ih =>
    obtain ⟨g, rest, cs, s⟩ := f
    induction cs generalizing found r with
    | nil =>
      rw [reports, Frame.report, eachClause, goOn_none] at h
      exact (ih h).step 0 fun n _ hn => hn
    | cons c cs ihcs =>
      rw [reports_cons, goOn_goOn] at h
      exact hclause g rest c cs s (new ++ fs) found _ r (fun j r' hr => ihcs hr) h

/-- If the recursion comes to an end on some frames and then on what follows, so does the
    machine.  The induction is on the level of the recursion: what a clause leads to is
    worked off at a smaller one. -/
theorem reaches_of_reports (k : Nat) {new fs : List (Frame A)} {found : Nat}
    {next : Nat → Option (Report A)} {r : Report A}
    (hnext : ∀ j r', next j = some r' → Reaches src answers fs j r')
    (h : goOn (reports src answers k new found) next found = some r) :
    Reaches src answers (new ++ fs) found r := by
  induction k generalizing new fs found next r with
  | zero =>
    refine reaches_of_clauses (fun g rest c cs s fs found next r _ h => ?_) hnext h
    rw [expand_zero] at h
    cases h
  | succ k ih =>
    refine reaches_of_clauses (fun g rest c cs s fs found next r hlater h => ?_) hnext h
    rw [expand_succ] at h
    obtain ⟨r₁, hr₁, -⟩ := goOn_eq_some_iff.mp h
    obtain ⟨o, ho, -⟩ := Option.bind_eq_some_iff.mp hr₁
    rw [ho, Option.bind_some, goOn_goOn] at h
    exact .of_clause ho (fun j r' hr => ih hlater hr) h

/-- If the recursion comes to an end, so does the machine, and it reports the same. -/
theorem machine_of_prove {k : Nat} {g : Goal A} {rest : List (Goal A)} {s : Store A} {r : Report A}
    (h : prove headFirst src answers k (g :: rest) s 0 = some r) :
    Reaches src answers [⟨g, rest, src.clausesFor g.compound.signature, s⟩] 0 r := by
  cases k with
  | zero => cases h
  | succ k =>
    have hend : ∀ j r', some Report.none = some r' → Reaches src answers [] j r' := by
      intro j r' hr
      cases hr
      exact reaches_nil j
    rw [prove_cons, ← reports_singleton, ← goOn_last (reports src answers k _ 0) 0] at h
    exact reaches_of_reports k hend h

/-- If the machine comes to an end, so does the recursion, and it reports the same. -/
theorem prove_of_machine {n : Nat} {g : Goal A} {rest : List (Goal A)} {s : Store A} {r : Report A}
    (h : machine src answers n [⟨g, rest, src.clausesFor g.compound.signature, s⟩] 0 = some r) :
    ∃ k, prove headFirst src answers k (g :: rest) s 0 = some r := by
  obtain ⟨k, hk⟩ := reports_of_machine h
  exact ⟨k + 1, (reports_singleton k _ 0).symm.trans hk⟩

end Horn.Search
