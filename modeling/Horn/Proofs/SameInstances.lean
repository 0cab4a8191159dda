import Horn.Proofs.Completeness
import Horn.Proofs.DepthLimit
import Horn.Proofs.Variants

/-! # Searches that know their goals by their instances

    Two questions may be written with other variables, and one of them with terms where
    the other has bound variables.  Their unifications then take other steps, so that the
    sessions cannot be compared step by step.  What can be compared is what the goals stand
    for: the terms that the solutions of the store make of the goals asked and of those
    left to prove (`Question.terms`).

    If these are the same on both sides, then the same clauses resolve the first goal, and
    the instances are the same again afterwards (`Alike.step`).  In one direction: an
    instance after the step comes of one before it and of an instance of the clause
    (`headFirst_sound`); the other side has the one as well, and the other by the solutions
    that the stores of the questions have in common; so its step is taken, too, with that
    instance (`headFirst_lifts`).

    By induction on the recursion both report alike: `prove_alike`. -/

namespace Horn.Search

universe u

variable {A : Type u}

/-! ## Reports that correspond -/

/-- The reports end in the same way, and their stores are related one by one. -/
def Report.Like (S : Store A → Store A → Prop) (r r' : Report A) : Prop :=
  r'.halted = r.halted ∧ List.Forall₂ S r.views r'.views

section reports

variable {S : Store A → Store A → Prop}

theorem Report.Like.none : Report.Like S .none .none := ⟨rfl, .nil⟩

/-- If every clause leads to like reports, so do all of them, one after the other. -/
theorem eachClause_like {f : Clause A → Nat → Option (Report A)}
    {f' : Nat → Clause A → Nat → Option (Report A)} {cs : List (Clause A)} {found : Nat}
    {r : Report A}
    (hmono : ∀ m m', m ≤ m' → ∀ c k r, f' m c k = some r → f' m' c k = some r)
    (hf : ∀ c ∈ cs, ∀ k r, f c k = some r → ∃ m r', f' m c k = some r' ∧ r.Like S r')
    (h : eachClause f cs found = some r) :
    ∃ m r', eachClause (f' m) cs found = some r' ∧ r.Like S r' := by
  induction cs generalizing found r with
  | nil =>
    cases h
    exact ⟨0, .none, rfl, .none⟩
  | cons c cs ih =>
    obtain ⟨r₁, hc, h⟩ := goOn_eq_some_iff.mp h
    obtain ⟨m, r₁', hc', hhalted, hviews⟩ := hf c (List.mem_cons_self ..) found r₁ hc
    rcases h with ⟨hr₁, rfl⟩ | ⟨hr₁, r₂, h₂, rfl⟩
    · exact ⟨m, r₁', goOn_eq_some_iff.mpr ⟨r₁', hc', .inl ⟨hhalted.trans hr₁, rfl⟩⟩, hhalted,
        hviews⟩
    · obtain ⟨m', r₂', h₂', hhalted₂, hviews₂⟩ :=
        ih (fun c hc => hf c (List.mem_cons_of_mem _ hc)) h₂
      -- one number of levels for the first clause and for the others
      have hfirst := hmono m _ (Nat.le_max_left m m') c found r₁' hc'
      have hothers := eachClause_mono (hmono m' _ (Nat.le_max_right m m')) h₂'
      rw [hviews.length_eq] at hothers
      exact ⟨max m m', r₁'.before r₂',
        goOn_eq_some_iff.mpr ⟨r₁', hfirst, .inr ⟨hhalted.trans hr₁, r₂', hothers, rfl⟩⟩,
        hhalted₂, List.rel_append hviews hviews₂⟩

/-- Whether goals are given up depends on how deep they lie. -/
theorem pruned_congr {o : Options} {todo todo' : List (Goal A)}
    (h : todo'.map Goal.depth = todo.map Goal.depth) : pruned o todo' = pruned o todo := by
  cases todo with
  | nil =>
    rw [List.map_eq_nil_iff.mp h]
  | cons g rest =>
    obtain ⟨g', rest', rfl, hdepth, -⟩ := List.map_eq_cons_iff.mp h
    show tooDeep o g'.depth = tooDeep o g.depth
    rw [hdepth]

end reports

/-! ## Attempts come to an end -/

/-- In an acyclic store and with the occurs check on, the recursion can try every clause. -/
theorem exists_headFirst [DecidableEq A] {s : Store A} {check : Bool} {goal : Compound A}
    (hs : Session.Ready ⟨s, .start check⟩) (hscope : s.Scoped s.nextVar)
    (hgoal : goal.Within s.Born) (c : Clause A) : ∃ n o, headFirst check n goal c s = some o := by
  obtain ⟨n, ⟨w', r⟩, hr⟩ := exists_tryClause hs (Session.scoped_start hscope check) hgoal c
  obtain ⟨head, p, hq, hcases⟩ := tryClause_cases hr
  have hn : unify n goal.toTerm head.toTerm ⟨s, .start check⟩ ≠ .cutOff := by
    obtain ⟨e, v, hu, -⟩ | ⟨v, body, q, hu, -⟩ := hcases
    · rw [hu]
      exact nofun
    · rw [hu]
      exact nofun
  -- the body is copied in the store of before, so it has an end there
  have hends : ∀ g ∈ c.body, s.Ends g.toTerm := fun g _ => hs.acyclic.ends g.toTerm
  obtain ⟨m, b, hb⟩ := (Store.exists_copyGoals_iff p).mpr hends
  have hq' := copyGoal_mono (fun _ _ _ => Store.copyTerm_mono (Nat.le_max_left n m)) hq
  have hb' := copyGoals_mono (fun _ _ _ => Store.copyTerm_mono (Nat.le_max_right n m)) hb
  refine ⟨max n m, ?_⟩
  rw [headFirst_eq, hq', Option.bind_some, unify_mono (Nat.le_max_left n m) _ _ _ hn]
  cases ho : unify n goal.toTerm head.toTerm ⟨s, .start check⟩ with
  | cutOff => exact absurd ho hn
  | failure e w => exact ⟨none, rfl⟩
  | success w =>
    simp only
    rw [hb']
    exact ⟨_, rfl⟩

/-! ## Questions -/

/-- What is asked: goals, in a store. -/
structure Question (A : Type u) where
  goals : List (Compound A)
  store : Store A

/-- The goals asked, and those that are left to prove. -/
def Question.terms (q : Question A) (todo : List (Goal A)) : List (Term A) :=
  q.goals.map Compound.toTerm ++ todo.map fun g => g.compound.toTerm

/-- The search for `q` may come to the store `s`, with the goals `todo` left to prove. -/
structure Pursued (p : Program A) (q : Question A) (s : Store A) (todo : List (Goal A)) :
    Prop where
  ready : Session.Ready ⟨s, .start p.options.occursCheck⟩
  tended : Tended q.store (q.store.OfGoals q.goals) s
  classes : ∀ x, ¬ q.store.OfGoals q.goals x → s.classOf x = q.store.classOf x
  fit : ∀ g ∈ todo, Fit (q.store.OfGoals q.goals) s g.compound
  solves : ∀ θ, s.Solves θ → q.store.Solves θ

/-- Both questions can be asked of the program.  Their stores have the same solutions, and
    these give their goals the same instances. -/
structure SameInstances (p : Program A) (q q' : Question A) : Prop where
  askable : p.Askable q.goals q.store
  askable' : p.Askable q'.goals q'.store
  acyclic : q.store.Acyclic
  solves : ∀ θ, q.store.Solves θ ↔ q'.store.Solves θ
  instances : ∀ us, q.store.Instance (q.goals.map Compound.toTerm) us ↔
    q'.store.Instance (q'.goals.map Compound.toTerm) us

/-- The searches for `q` and `q'` may have come to `s` and `s'`.  As many goals are left to
    prove on both sides, equally deep, and with those asked they have the same instances. -/
structure Alike (p : Program A) (q q' : Question A) (s : Store A) (todo : List (Goal A))
    (s' : Store A) (todo' : List (Goal A)) : Prop where
  left : Pursued p q s todo
  right : Pursued p q' s' todo'
  depths : todo'.map Goal.depth = todo.map Goal.depth
  instances : ∀ us, s.Instance (q.terms todo) us ↔ s'.Instance (q'.terms todo') us

section questions

variable {p : Program A} {q q' : Question A} {s s' : Store A} {todo todo' : List (Goal A)}

theorem SameInstances.acyclic' (h : SameInstances p q q') : q'.store.Acyclic := by
  obtain ⟨θ, hθ⟩ := h.acyclic.exists_solution
  exact ((h.solves θ).mp hθ).acyclic

theorem SameInstances.symm (h : SameInstances p q q') : SameInstances p q' q where
  askable := h.askable'
  askable' := h.askable
  acyclic := h.acyclic'
  solves θ := (h.solves θ).symm
  instances us := (h.instances us).symm

theorem SameInstances.length (h : SameInstances p q q') : q'.goals.length = q.goals.length := by
  obtain ⟨θ, hθ⟩ := h.acyclic.exists_solution
  obtain ⟨θ', -, heq⟩ := (h.instances _).mp ⟨θ, hθ, rfl⟩
  simpa using congrArg List.length heq

/-- The goals asked have been made wherever the search has come to. -/
theorem Pursued.born (h : Pursued p q s todo) (hq : p.Askable q.goals q.store) :
    ∀ g ∈ q.goals, g.Within s.Born := fun g hg x hx =>
  Nat.lt_of_lt_of_le (hq.madeGoals g hg x hx) h.tended.le

/-- What a substitution makes of the goals asked and of those left. -/
theorem Question.map_terms (q : Question A) (todo : List (Goal A)) (θ : Var → Term A) :
    (q.terms todo).map (Term.subst θ) = q.goals.map (fun g => g.toTerm.subst θ) ++
      todo.map fun g => g.compound.toTerm.subst θ := by
  simp only [terms, List.map_append, List.map_map, Function.comp_def]

end questions

/-! ## A step on both sides -/

section step

variable [DecidableEq A] {p : Program A} {q q' : Question A} {s s₁ s' : Store A}
  {g g' : Goal A} {rest rest' : List (Goal A)} {c : Clause A} {gs : List (Compound A)}
  {n m : Nat}

/-- The body of the clause takes the place of the first goal. -/
theorem Pursued.headFirst (h : Pursued p q s (g :: rest)) (hq : p.Askable q.goals q.store)
    (hres : Search.headFirst p.options.occursCheck n g.compound c s = some (some (gs, s₁))) :
    Pursued p q s₁ (gs.map (⟨·, g.depth + 1⟩) ++ rest) := by
  obtain ⟨htended, hfit, hclasses⟩ :=
    h.tended.headFirst hq.division (h.fit g (List.mem_cons_self ..)) hres
  obtain ⟨hready, hsound⟩ := headFirst_sound h.ready hres
  refine ⟨hready, htended, fun x hx => (hclasses x hx).trans (h.classes x hx), ?_,
    fun θ hθ => h.solves θ (hsound θ hθ).1⟩
  exact Fit.expanded (headFirst_nextVar_le hres) hfit
    (fun g' hg' => h.fit g' (List.mem_cons_of_mem _ hg')) _

/-- A step that is taken on the left is taken on the right, and every instance that there is
    on the left afterwards there is on the right. -/
theorem Pursued.instance_headFirst (h : Pursued p q s (g :: rest))
    (h' : Pursued p q' s' (g' :: rest')) (hq : SameInstances p q q')
    (hinstances : ∀ us, s.Instance (q.terms (g :: rest)) us →
      s'.Instance (q'.terms (g' :: rest')) us) {f : Signature A} (hc : c ∈ p.clausesFor f)
    (hres : Search.headFirst p.options.occursCheck n g.compound c s = some (some (gs, s₁)))
    {o : Option (List (Compound A) × Store A)}
    (hres' : Search.headFirst p.options.occursCheck m g'.compound c s' = some o)
    {θ₁ : Var → Term A} (hθ₁ : s₁.Solves θ₁) :
    ∃ gs' s₁', o = some (gs', s₁') ∧ gs'.length = gs.length ∧
      s₁'.Instance (q'.terms (gs'.map (⟨·, g'.depth + 1⟩) ++ rest'))
        ((q.terms (gs.map (⟨·, g.depth + 1⟩) ++ rest)).map (Term.subst θ₁)) := by
  -- before the step this was an instance as well, made with an instance of the clause
  obtain ⟨hθ, θc, hθc, hhead, hbody⟩ := (headFirst_sound h.ready hres).2 θ₁ hθ₁
  obtain ⟨θ', hθ', heq⟩ := hinstances _ ⟨θ₁, hθ, rfl⟩
  rw [Question.map_terms, Question.map_terms] at heq
  obtain ⟨hasked, htodo⟩ := List.append_inj heq (by simp [hq.length])
  obtain ⟨hgoal, hrest⟩ := List.cons.inj htodo
  obtain ⟨θm, hθm, hsame⟩ := hq.askable'.division.exists_solution h'.tended h'.classes
    h'.ready.acyclic ((hq.solves θc).mp (h.solves θc hθc))
  obtain ⟨hsuit, hsuit_body⟩ := Program.OfClauses.suits q'.store hc
  obtain ⟨gs', s₁', θ₁', rfl, hθ₁', hold, hnew⟩ := headFirst_lifts h'.ready h'.tended.inScope
    (fun x hx => (h'.fit g' (List.mem_cons_self ..) x hx).1) hθ' hθm
    (hgoal.trans (hhead.trans (hsame _ hsuit).symm)) hres'
  -- nothing has changed for the goals that were there
  have hkept : ∀ d : Compound A, d.Within s'.Born → d.toTerm.subst θ₁' = d.toTerm.subst θ' :=
    fun d hd => Term.fold_congr fun x hx => hold x (hd x hx)
  have hasked' : q'.goals.map (fun g => g.toTerm.subst θ₁') =
      q.goals.map (fun g => g.toTerm.subst θ₁) := by
    rw [← hasked]
    exact List.map_congr_left fun g hg => hkept g (h'.born hq.askable' g hg)
  have hrest' : rest'.map (fun g => g.compound.toTerm.subst θ₁') =
      rest.map (fun g => g.compound.toTerm.subst θ₁) := by
    rw [← hrest]
    exact List.map_congr_left fun g hg => hkept g.compound fun x hx =>
      (h'.fit g (List.mem_cons_of_mem _ hg) x hx).1
  have hbody' : gs'.map (fun b => b.toTerm.subst θ₁') = gs.map fun b => b.toTerm.subst θ₁ := by
    rw [hnew, hbody]
    exact List.map_congr_left fun b hb => hsame _ (hsuit_body b hb)
  refine ⟨gs', s₁', rfl, by simpa using congrArg List.length hbody', θ₁', hθ₁', ?_⟩
  rw [Question.map_terms, Question.map_terms, hasked', List.map_append, List.map_append, hrest',
    List.map_map, List.map_map]
  exact congrArg (fun l => _ ++ (l ++ _)) hbody'

/-- **A step on both sides.**  A clause that both sides have tried has clashed with the first
    goal on both, or has left goals that are alike again. -/
theorem Alike.step (h : Alike p q q' s (g :: rest) s' (g' :: rest')) (hq : SameInstances p q q')
    {f : Signature A} (hc : c ∈ p.clausesFor f) {o o' : Option (List (Compound A) × Store A)}
    (hres : Search.headFirst p.options.occursCheck n g.compound c s = some o)
    (hres' : Search.headFirst p.options.occursCheck m g'.compound c s' = some o') :
    Option.Rel (fun r r' => Alike p q q' r.2 (r.1.map (⟨·, g.depth + 1⟩) ++ rest)
      r'.2 (r'.1.map (⟨·, g'.depth + 1⟩) ++ rest')) o o' := by
  have hto := fun us => (h.instances us).mp
  have hfrom := fun us => (h.instances us).mpr
  cases o with
  | none =>
    cases o' with
    | none => exact .none
    | some r' =>
      obtain ⟨gs', s₁'⟩ := r'
      obtain ⟨θ, hθ⟩ := (h.right.headFirst hq.askable' hres').ready.acyclic.exists_solution
      obtain ⟨_, _, hnone, -⟩ :=
        h.right.instance_headFirst h.left hq.symm hfrom hc hres' hres hθ
      cases hnone
  | some r =>
    obtain ⟨gs, s₁⟩ := r
    have hleft := h.left.headFirst hq.askable hres
    obtain ⟨θ, hθ⟩ := hleft.ready.acyclic.exists_solution
    obtain ⟨gs', s₁', rfl, hlen, -⟩ :=
      h.left.instance_headFirst h.right hq hto hc hres hres' hθ
    refine .some ⟨hleft, h.right.headFirst hq.askable' hres', ?_, fun us => ⟨?_, ?_⟩⟩
    · obtain ⟨hdepth, hdepths⟩ := List.cons.inj h.depths
      have hbody : gs'.map (fun _ => g.depth + 1) = gs.map fun _ => g.depth + 1 := by
        rw [List.map_const', List.map_const', hlen]
      rw [List.map_append, List.map_append, hdepths, List.map_map, List.map_map, hdepth]
      exact congrArg (· ++ _) hbody
    · rintro ⟨θ, hθ, rfl⟩
      obtain ⟨_, _, he, -, hinstance⟩ :=
        h.left.instance_headFirst h.right hq hto hc hres hres' hθ
      cases he
      exact hinstance
    · rintro ⟨θ, hθ, rfl⟩
      obtain ⟨_, _, he, -, hinstance⟩ :=
        h.right.instance_headFirst h.left hq.symm hfrom hc hres' hres hθ
      cases he
      exact hinstance

omit [DecidableEq A] in
/-- Goals with the same instances have one signature. -/
theorem Alike.signature (h : Alike p q q' s (g :: rest) s' (g' :: rest'))
    (hq : SameInstances p q q') : g'.compound.signature = g.compound.signature := by
  obtain ⟨θ, hθ⟩ := h.left.ready.acyclic.exists_solution
  obtain ⟨θ', -, heq⟩ := (h.instances _).mp ⟨θ, hθ, rfl⟩
  rw [Question.map_terms, Question.map_terms] at heq
  obtain ⟨-, htodo⟩ := List.append_inj heq (by simp [hq.length])
  exact (Compound.subst_eq_subst_iff.mp (List.cons.inj htodo).1).1

end step

/-! ## The recursion on both sides -/

section recursion

variable [DecidableEq A] {p : Program A} {q q' : Question A} {answers : Nat → Signal}

/-- The stores of two matches: nothing is left to prove, and the goals asked have the same
    instances. -/
def MatchedAlike (p : Program A) (q q' : Question A) (s s' : Store A) : Prop :=
  Alike p q q' s [] s' []

/-- If the recursion reports alike from goals that are alike, so it does with a clause tried
    before. -/
theorem expand_alike (hq : SameInstances p q q') {n : Nat}
    (ih : ∀ s s' todo todo' found r, Alike p q q' s todo s' todo' →
      prove headFirst p.source answers n todo s found = some r →
      ∃ m r', prove headFirst p.source answers m todo' s' found = some r' ∧
        r.Like (MatchedAlike p q q') r')
    {s s' : Store A} {g g' : Goal A} {rest rest' : List (Goal A)}
    (h : Alike p q q' s (g :: rest) s' (g' :: rest')) {f : Signature A} {c : Clause A}
    (hc : c ∈ p.clausesFor f) {found : Nat} {r : Report A}
    (hr : expand headFirst p.source n (prove headFirst p.source answers n) g rest s c found =
      some r) :
    ∃ m r', expand headFirst p.source m (prove headFirst p.source answers m) g' rest' s' c found =
        some r' ∧
      r.Like (MatchedAlike p q q') r' := by
  have hgoal : g'.compound.Within s'.Born := fun x hx =>
    (h.right.fit g' (List.mem_cons_self ..) x hx).1
  obtain ⟨m, o', hres'⟩ := exists_headFirst h.right.ready h.right.tended.inScope hgoal c
  unfold expand at hr ⊢
  cases hres : headFirst p.source.options.occursCheck n g.compound c s with
  | none =>
    rw [hres] at hr
    cases hr
  | some o =>
    have hmore : ∀ k, m ≤ k →
        headFirst p.source.options.occursCheck k g'.compound c s' = some o' :=
      fun k hk => headFirst_mono hk hres'
    rw [hres] at hr
    cases h.step hq hc hres hres' with
    | none =>
      -- a clash on both sides
      cases hr
      refine ⟨m, .none, ?_, .none⟩
      rw [hmore m (Nat.le_refl m)]
    | @some t t' hnext =>
      have hpruned := pruned_congr (o := p.source.options) hnext.depths
      simp only at hr
      split at hr
      · next hdeep =>
        cases hr
        refine ⟨m, .none, ?_, .none⟩
        rw [hmore m (Nat.le_refl m)]
        simp only
        rw [if_pos (hpruned.trans hdeep)]
      · next hdeep =>
        obtain ⟨k, r', hr', hlike⟩ := ih _ _ _ _ _ _ hnext hr
        -- one number of levels for the attempt and for what comes after it
        refine ⟨max m k, r', ?_, hlike⟩
        rw [hmore _ (Nat.le_max_left m k)]
        simp only
        rw [if_neg (hpruned ▸ hdeep)]
        exact prove_mono headFirst_settles (Nat.le_max_right m k) hr'

/-- **The recursion reports alike** from goals that are alike.  The induction is on the level
    of the recursion; the clauses for the first goal are the same on both sides. -/
theorem prove_alike (hq : SameInstances p q q') (n : Nat) (s s' : Store A)
    (todo todo' : List (Goal A)) (found : Nat) (r : Report A)
    (h : Alike p q q' s todo s' todo')
    (hr : prove headFirst p.source answers n todo s found = some r) :
    ∃ m r', prove headFirst p.source answers m todo' s' found = some r' ∧
      r.Like (MatchedAlike p q q') r' := by
  induction n generalizing s s' todo todo' found r with
  | zero => cases hr
  | succ n ih =>
    cases todo with
    | nil =>
      obtain rfl : todo' = [] := List.map_eq_nil_iff.mp h.depths
      cases hr
      exact ⟨1, _, rfl, rfl, .cons h .nil⟩
    | cons g rest =>
      obtain ⟨g', rest', rfl, -⟩ := List.map_eq_cons_iff.mp h.depths
      have hmono : ∀ m m', m ≤ m' → ∀ c k r,
          expand headFirst p.source m (prove headFirst p.source answers m) g' rest' s' c k =
              some r →
            expand headFirst p.source m' (prove headFirst p.source answers m') g' rest' s' c k =
              some r :=
        fun m m' hm c k r hr => expand_mono (fun _ => headFirst_mono hm)
          (fun _ _ _ _ => prove_mono headFirst_settles hm) hr
      obtain ⟨m, r', hr', hlike⟩ :=
        eachClause_like hmono (fun c hc k r hr => expand_alike hq ih h hc hr) hr
      refine ⟨m + 1, r', ?_, hlike⟩
      rw [prove, h.signature hq]
      exact hr'

/-! ## Questions on both sides -/

omit [DecidableEq A] in
/-- A search begins with its goals left to prove. -/
theorem Pursued.start {goals : List (Compound A)} {s : Store A} (h : p.Askable goals s)
    (hs : s.Acyclic) (hcheck : p.options.occursCheck = true) :
    Pursued p ⟨goals, s⟩ s (goals.map (⟨·, 0⟩)) where
  ready := ⟨Session.consistent_start h.consistent _, hs, hcheck⟩
  tended := h.tended
  classes _ _ := rfl
  fit g hg := by
    obtain ⟨g, hmem, rfl⟩ := List.mem_map.mp hg
    exact fun x hx => ⟨h.madeGoals g hmem x hx, .inr ⟨g, hmem, .of_mentions hx⟩⟩
  solves _ hθ := hθ

omit [DecidableEq A] in
/-- At the beginning the goals left to prove are the goals asked. -/
theorem Question.map_terms_start (q : Question A) (θ : Var → Term A) :
    (q.terms (q.goals.map (⟨·, 0⟩))).map (Term.subst θ) =
      (q.goals.map Compound.toTerm).map (Term.subst θ) ++
        (q.goals.map Compound.toTerm).map (Term.subst θ) := by
  simp only [terms, List.map_append, List.map_map, Function.comp_def]

omit [DecidableEq A] in
theorem SameInstances.alike (h : SameInstances p q q') (hcheck : p.options.occursCheck = true) :
    Alike p q q' q.store (q.goals.map (⟨·, 0⟩)) q'.store (q'.goals.map (⟨·, 0⟩)) where
  left := .start h.askable h.acyclic hcheck
  right := .start h.askable' h.acyclic' hcheck
  depths := by
    rw [List.map_map, List.map_map]
    show q'.goals.map (fun _ => 0) = q.goals.map fun _ => 0
    rw [List.map_const', List.map_const', h.length]
  instances us := by
    constructor
    · rintro ⟨θ, hθ, rfl⟩
      obtain ⟨θ', hθ', heq⟩ := (h.instances _).mp ⟨θ, hθ, rfl⟩
      refine ⟨θ', hθ', ?_⟩
      rw [q.map_terms_start, q'.map_terms_start, heq]
    · rintro ⟨θ', hθ', rfl⟩
      obtain ⟨θ, hθ, heq⟩ := (h.instances _).mpr ⟨θ', hθ', rfl⟩
      refine ⟨θ, hθ, ?_⟩
      rw [q.map_terms_start, q'.map_terms_start, heq]

/-- **Questions with the same instances have like solutions**: if the recursion comes to an
    end on one it does on the other, in the same way, and its matches are alike. -/
theorem SameInstances.solutions (h : SameInstances p q q')
    (hcheck : p.options.occursCheck = true) {n : Nat} {ending : Ending} {views : List (Store A)}
    (hsol : p.solutions headFirst answers n q.goals q.store = some (ending, views)) :
    ∃ m views', p.solutions headFirst answers m q'.goals q'.store = some (ending, views') ∧
      List.Forall₂ (MatchedAlike p q q') views views' := by
  obtain ⟨r, hr, he⟩ := Option.map_eq_some_iff.mp hsol
  cases he
  obtain ⟨m, r', hr', hhalted, hviews⟩ := prove_alike h n _ _ _ _ 0 r (h.alike hcheck) hr
  refine ⟨m, r'.views, ?_, hviews⟩
  have hprove : prove headFirst ⟨p.clausesFor, p.options⟩ answers m (q'.goals.map (⟨·, 0⟩))
      q'.store 0 = some r' := hr'
  rw [Program.solutions, hprove, Option.map_some, hhalted, hviews.length_eq]

end recursion

end Horn.Search
