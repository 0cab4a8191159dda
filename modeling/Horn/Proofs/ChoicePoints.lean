import Horn.Proofs.ExactUndo
import Horn.Proofs.Nesting
import Horn.Proofs.SignatureIndex

/-! # What holds at choice points

    The trail of a search is cut back at many different places: where a clause clashes,
    where a goal lies too deep, after a match, and when a choice point is dropped.  At every
    moment the choice points stand on top of one another in the same way.  Each has been
    opened in a session, and the sessions climb from the bottom of the stack to the top, and
    from there to the session of the search.

    * `Arrives` keeps the sessions in which the choice points of a state were opened.
    * `Climbs` says what an order of sessions must allow for a search to climb it.  To extend
      an earlier session is such an order; and if the client moves nothing, so is to extend
      it whatever variables are taken as made.
    * `step_opened`, `Arrives.openedIn`: what one step does to the stack, and a whole search.
    * `step_tidy`: which clauses are left to try, and how deep the goals lie.

    Main statement: `choice_points_in_order`. -/

namespace Horn

universe u v w

variable {A : Type u} {σ : Type v}

/-! ## Moving nothing -/

/-- A function that reads a store and returns it leaves every variable in its class, also
    those that had not been made. -/
def MovesNothing {β : Type w} (look : Store A → σ → Option (β × Store A × σ)) : Prop :=
  ∀ s m b s' m', s.Consistent → look s m = some (b, s', m') → ∀ x, s'.classOf x = s.classOf x

theorem MovesNothing.bind {β γ : Type w} {look : Store A → σ → Option (β × Store A × σ)}
    {next : β → Store A → σ → Option (γ × Store A × σ)} (hfaithful : Faithful look)
    (hlook : MovesNothing look) (hnext : ∀ b, MovesNothing (next b)) :
    MovesNothing fun s m => (look s m).bind fun (b, s, m) => next b s m := by
  intro s m c s' m' hs h x
  obtain ⟨⟨b, s₁, m₁⟩, h₁, h₂⟩ := Option.bind_eq_some_iff.mp h
  have hs₁ : s₁.Consistent := (hfaithful s m b s₁ m₁ hs h₁).consistent
  exact (hnext b s₁ m₁ c s' m' hs₁ h₂ x).trans (hlook s m b s₁ m₁ hs h₁ x)

namespace Search

/-! ## Orders that a search climbs -/

/-- An order of sessions that a search climbs with this client: all that it does but for
    undoing leads up, and undoing leads down no further than it says. -/
structure Climbs (client : Client A σ) (R : Session A → Session A → Prop) : Prop where
  refl : ∀ w, R w w
  trans : ∀ {w₀ w₁ w₂}, R w₀ w₁ → R w₁ w₂ → R w₀ w₂
  mark_le : ∀ {w₀ w}, R w₀ w → w₀.mark ≤ w.mark
  undoTo : ∀ {w₀ w mark}, R w₀ w → w₀.mark ≤ mark → R w₀ (w.undoTo mark)
  gather : ∀ w cs value, R w (w.gather cs value)
  setNext : ∀ w k, w.store.nextVar ≤ k → R w (w.setNext k)
  faithful : Faithful client.answer
  answer : ∀ s t m signal s' m', s.Consistent → client.answer s m = some (signal, s', m') →
    R ⟨s, t⟩ ⟨s', t⟩

section climbs

variable {client : Client A σ} {R : Session A → Session A → Prop}

theorem climbs_extends (hc : Faithful client.answer) : Climbs client Session.Extends where
  refl := .refl
  trans := .trans
  mark_le := Session.Extends.mark_le
  undoTo h hmark := h.undoTo hmark
  gather := .gather
  setNext w _ hk := .of_kept ⟨rfl, .setNextVar w.store hk⟩
  faithful := hc
  answer s _ m signal s' m' hs h := .of_kept ⟨rfl, (hc s m signal s' m' hs h).kept⟩

theorem climbs_extendsAll (hc : Faithful client.answer) (hmoves : MovesNothing client.answer) :
    Climbs client Session.ExtendsAll where
  refl _ _ := .refl _
  trans h h' k := (h k).trans (h' k)
  mark_le h := (h 0).mark_le
  undoTo h hmark := h.undoTo hmark
  gather w cs value k := by
    rw [← Session.gather_setNext]
    exact .gather (w.setNext k) cs value
  setNext _ _ _ _ := .refl _
  faithful := hc
  answer s t m signal s' m' hs h k := by
    have hkept : s.Kept s' := (hc s m signal s' m' hs h).kept
    refine .of_kept ⟨rfl, Nat.le_refl k, hkept.nextJoint_le, ?_, ?_⟩
    · exact fun x _ => hmoves s m signal s' m' hs h x
    · intro c hmade
      have hvalue := hkept.valueOf c hmade
      rwa [← Store.valueOf_setNext k, ← Store.valueOf_setNext k s] at hvalue

theorem Climbs.stable (hR : Climbs client R) (w₀ : Session A) :
    Session.Stable (fun _ => True) (R w₀) (R w₀) :=
  .everywhere (fun w cs value h => hR.trans h (hR.gather w cs value))
    (fun _ _ hv hw => hR.undoTo hw (hR.mark_le hv))

variable [DecidableEq A]

/-- Whatever comes of it, an attempt climbs and leaves a consistent session. -/
theorem Climbs.tryClause (hR : Climbs client R) {n : Nat} {goal : Compound A} {c : Clause A}
    {w w' : Session A} {r : Option (List (Compound A))} (hw : w.Consistent)
    (h : tryClause n goal c w = some (w', r)) : R w w' ∧ w'.Consistent := by
  obtain ⟨head, p, hcopied, htried⟩ := tryClause_cases h
  have hhead := (w.store.copyGoal_fresh n hcopied (Copying.since_empty w.store.nextVar)).2
  have hu := unify_keeps (((hR.stable w).and Session.stable_consistent).and
    (Session.stable_sameFrame w)) n goal.toTerm head.toTerm ⟨⟨hR.refl w, hw⟩, rfl, rfl⟩
  -- afterwards the variables of the copies are counted as made
  have hcount : ∀ v : Session A, (R w v ∧ v.Consistent) ∧ w.SameFrame v → ∀ k,
      p.nextVar ≤ k → R w (v.setNext k) ∧ (v.setNext k).Consistent := by
    rintro v ⟨⟨hv, hcons⟩, hframe⟩ k hk
    have hle : v.store.nextVar ≤ k := by
      rw [hframe.nextVar]
      exact Nat.le_trans hhead.le hk
    exact ⟨hR.trans hv (hR.setNext v k hle), hcons.store.setNextVar k, hcons.trail⟩
  rcases htried with ⟨e, v, ho, rfl, -⟩ | ⟨v, body, q, ho, hbody, rfl, -⟩
  · rw [ho] at hu
    exact hcount v hu _ (Nat.le_refl _)
  · rw [ho] at hu
    obtain ⟨-, -, hle⟩ := v.store.copyGoals_fresh n hbody hhead
    exact hcount v hu _ hle

end climbs

/-! ## Where choice points were opened -/

/-- The sessions in which the choice points of a state were opened, newest first, if those
    of the state before it were opened in these.  A step that leads to one choice point more
    has opened it in the session that the step leads to; one that leads to one fewer has
    dropped the newest. -/
def State.openings (t : State A σ) (opened : List (Session A)) : List (Session A) :=
  if opened.length < t.points.length then t.session :: opened
  else opened.drop (opened.length - t.points.length)

/-- The states that a search comes to from `s₀`, with the sessions in which their choice
    points were opened.  In each of them the search turns to its newest choice point, whether
    another one has been dropped, a clause has clashed, a goal has been given up, a match has
    been reported or a choice point has been opened before. -/
inductive Arrives [DecidableEq A] (src : Source A) (client : Client A σ) (s₀ : State A σ) :
    State A σ → List (Session A) → Prop where
  | start : Arrives src client s₀ s₀ (s₀.openings [])
  | step {n : Nat} {s t : State A σ} {opened : List (Session A)} :
      Arrives src client s₀ s opened → step src client n s = .next t →
        Arrives src client s₀ t (t.openings opened)

/-- The choice points were opened in these sessions, one above the other: the sessions climb
    from `base`, in which the search began, to the one of now. -/
inductive Opened (R : Session A → Session A → Prop) (base : Session A) :
    Session A → List (ChoicePoint A) → List (Session A) → Prop where
  | nil {w : Session A} : R base w → Opened R base w [] []
  | cons {w v : Session A} {point : ChoicePoint A} {points : List (ChoicePoint A)}
      {opened : List (Session A)} :
      point.mark = v.mark → v.Consistent → R v w → Opened R base v points opened →
        Opened R base w (point :: points) (v :: opened)

section opened

variable {client : Client A σ} {R : Session A → Session A → Prop} {base w w' v : Session A}
  {point : ChoicePoint A} {points : List (ChoicePoint A)} {opened : List (Session A)}

theorem Opened.length_eq (h : Opened R base w points opened) : points.length = opened.length := by
  induction h with
  | nil => rfl
  | cons _ _ _ _ ih => exact congrArg (· + 1) ih

theorem Opened.climb (hR : Climbs client R) (h : Opened R base w points opened) (hw : R w w') :
    Opened R base w' points opened := by
  cases h with
  | nil hbase => exact .nil (hR.trans hbase hw)
  | cons hmark hcons hv hrest => exact .cons hmark hcons (hR.trans hv hw) hrest

/-- Undoing to the mark of the newest choice point goes down no further than to where it was
    opened. -/
theorem Opened.undoTo (hR : Climbs client R)
    (h : Opened R base w (point :: points) opened) :
    Opened R base (w.undoTo point.mark) (point :: points) opened := by
  cases h with
  | cons hmark hcons hv hrest =>
    exact .cons hmark hcons (hR.undoTo hv (Nat.le_of_eq hmark.symm)) hrest

/-- The search has climbed from where it began. -/
theorem Opened.since_base (hR : Climbs client R) (h : Opened R base w points opened) :
    R base w := by
  induction h with
  | nil hbase => exact hbase
  | cons _ _ hv _ ih => exact hR.trans ih hv

/-- From each choice point one climbs to the session of now. -/
theorem Opened.forall₂ (hR : Climbs client R) (h : Opened R base w points opened) :
    List.Forall₂ (fun point v => point.mark = v.mark ∧ v.Consistent ∧ R v w) points opened := by
  induction h with
  | nil => exact .nil
  | cons hmark hcons hv _ ih =>
    refine .cons ⟨hmark, hcons, hv⟩ (ih.imp ?_)
    rintro point v' ⟨hmark', hcons', hv'⟩
    exact ⟨hmark', hcons', hR.trans hv' hv⟩

/-- No mark lies above the end of the trail. -/
theorem Opened.mark_le (hR : Climbs client R) (h : Opened R base w points opened) :
    ∀ point ∈ points, point.mark ≤ w.mark := by
  induction h with
  | nil => exact fun _ hp => nomatch hp
  | cons hmark _ hv _ ih =>
    have hle := hR.mark_le hv
    intro point hp
    rcases List.mem_cons.mp hp with rfl | hp
    · exact hmark ▸ hle
    · exact Nat.le_trans (ih point hp) hle

/-- A choice point has no smaller mark than those below it. -/
theorem Opened.pairwise_mark (hR : Climbs client R) (h : Opened R base w points opened) :
    points.Pairwise fun newer older => older.mark ≤ newer.mark := by
  induction h with
  | nil => exact .nil
  | cons hmark _ _ hrest ih => exact .cons (fun older hp => hmark ▸ hrest.mark_le hR older hp) ih

/-! ## What a step does to the stack -/

/-- The choice points of the state were opened in these sessions, and its own is consistent. -/
structure State.OpenedIn (R : Session A → Session A → Prop) (base : Session A) (t : State A σ)
    (opened : List (Session A)) : Prop where
  opened : Opened R base t.session t.points opened
  consistent : t.session.Consistent

section openings

variable {t : State A σ}

theorem State.openings_of_length_eq (h : t.points.length = opened.length) :
    t.openings opened = opened := by
  rw [openings, if_neg (by omega), h, Nat.sub_self, List.drop_zero]

theorem State.openings_of_length_succ (h : t.points.length = opened.length + 1) :
    t.openings opened = t.session :: opened := by
  rw [openings, if_pos (by omega)]

theorem State.openings_cons (h : t.points.length = opened.length) :
    t.openings (v :: opened) = opened := by
  have hone : (v :: opened).length - t.points.length = 1 := by
    rw [List.length_cons]
    omega
  rw [openings, if_neg (by rw [List.length_cons]; omega), hone, List.drop_one, List.tail_cons]

end openings

variable {src : Source A}

/-- As many choice points as before were opened where they were. -/
theorem State.OpenedIn.same {t : State A σ} (h : Opened R base t.session t.points opened)
    (hcons : t.session.Consistent) : t.OpenedIn R base (t.openings opened) := by
  rw [State.openings_of_length_eq h.length_eq]
  exact ⟨h, hcons⟩

theorem advance_opened (hR : Climbs client R) (depth : Nat) (goals : List (Goal A))
    {s : State A σ} (hs : s.OpenedIn R base opened) :
    (advance src client depth goals s).All fun t => t.OpenedIn R base (t.openings opened) := by
  obtain ⟨w, points, found, memory⟩ := s
  obtain ⟨hopened, hcons⟩ := hs
  refine advance_all_of (fun signal s' m' hr _ => ?_) (fun _ => .same hopened hcons)
    fun g rest _ _ => ?_
  · have hfound : w.store.AsFound s' := hR.faithful _ _ _ _ _ hcons.store hr
    have hcons' : Session.Consistent ⟨s', w.trail⟩ :=
      ⟨hfound.consistent, fun m hm => (hcons.trail m hm).mono hfound.kept.nextJoint_le⟩
    exact .same (hopened.climb hR (hR.answer _ _ _ _ _ _ hcons.store hr)) hcons'
  · -- a choice point is opened in the session as it is
    show State.OpenedIn R base _ (State.openings _ opened)
    rw [State.openings_of_length_succ (congrArg (· + 1) hopened.length_eq)]
    exact ⟨.cons rfl hcons (hR.refl w) hopened, hcons⟩

variable [DecidableEq A]

theorem step_opened (hR : Climbs client R) (n : Nat) {s : State A σ}
    (hs : s.OpenedIn R base opened) :
    (step src client n s).All fun t => t.OpenedIn R base (t.openings opened) := by
  obtain ⟨w, points, found, memory⟩ := s
  obtain ⟨hopened, hcons⟩ := hs
  cases points with
  | nil => exact .same hopened hcons
  | cons point points =>
    have hback := hopened.undoTo hR
    have hconsBack : (w.undoTo point.mark).Consistent := hcons.undoTo point.mark
    cases hback with
    | @cons _ v _ _ opened hmark hv hclimb hrest =>
      -- an attempt starts from here, and the choice point keeps its mark
      have hlater : ∀ w', R (w.undoTo point.mark) w' →
          Opened R base w' (point.tried :: points) (v :: opened) :=
        fun w' hw' => .cons hmark hv (hR.trans hclimb hw') hrest
      refine step_all_of_cons (fun m => ?_) (fun c w' m _ htry => ?_)
        (fun c w' body m _ htry => ?_)
      · rw [State.openings_cons hrest.length_eq]
        exact ⟨hrest.climb hR hclimb, hconsBack⟩
      · obtain ⟨hw', hcons'⟩ := hR.tryClause hconsBack htry
        exact .same ((hlater w' hw').undoTo hR) (hcons'.undoTo point.mark)
      · obtain ⟨hw', hcons'⟩ := hR.tryClause hconsBack htry
        exact advance_opened hR _ _ ⟨hlater w' hw', hcons'⟩

omit [DecidableEq A] in
theorem openedIn_start (hR : Climbs client R) (g : Compound A) (rest : List (Compound A))
    {s : Store A} (hs : s.Consistent) (memory : σ) :
    (start src g rest s memory).OpenedIn R ⟨s, .start src.options.occursCheck⟩
      [⟨s, .start src.options.occursCheck⟩] where
  opened := .cons rfl (Session.consistent_start hs _) (hR.refl _) (.nil (hR.refl _))
  consistent := Session.consistent_start hs _

theorem Arrives.openedIn (hR : Climbs client R) {g : Compound A} {rest : List (Compound A)}
    {s : Store A} (hs : s.Consistent) {memory : σ} {t : State A σ}
    (h : Arrives src client (Search.start src g rest s memory) t opened) :
    t.OpenedIn R ⟨s, .start src.options.occursCheck⟩ opened := by
  induction h with
  | start => exact openedIn_start hR g rest hs memory
  | @step n s₁ t₁ _ _ hstep ih =>
    have hall : (Search.step src client n s₁).All _ := step_opened hR n ih
    rwa [hstep] at hall

theorem Arrives.comesTo {s₀ t : State A σ} (h : Arrives src client s₀ t opened) :
    ComesTo src client s₀ t := by
  induction h with
  | start => exact .start
  | step _ hstep ih => exact ih.step hstep

/-- A search arrives at every state that it comes to. -/
theorem ComesTo.exists_arrives {s₀ t : State A σ} (h : ComesTo src client s₀ t) :
    ∃ opened, Arrives src client s₀ t opened := by
  induction h with
  | start => exact ⟨_, .start⟩
  | step _ hstep ih =>
    obtain ⟨opened, hs⟩ := ih
    exact ⟨_, hs.step hstep⟩

end opened

/-! ## Candidates and depths -/

/-- The candidates are the clauses of the goal's signature, and no more of them have been
    tried than there are; and the first goal lies deepest, but not too deep. -/
structure ChoicePoint.Tidy (src : Source A) (point : ChoicePoint A) : Prop where
  candidates : point.candidates = src.clausesFor point.goal.compound.signature
  next_le : point.next ≤ point.candidates.length
  depths : point.goals.Pairwise fun g later => later.depth ≤ g.depth
  shallow : tooDeep src.options point.goal.depth = false

section tidy

variable {src : Source A} {client : Client A σ} {point : ChoicePoint A}

theorem ChoicePoint.Tidy.start {g : Goal A} {rest : List (Goal A)} {mark : Nat}
    (hdepths : (g :: rest).Pairwise fun g later => later.depth ≤ g.depth)
    (hshallow : tooDeep src.options g.depth = false) :
    (ChoicePoint.start src g rest mark).Tidy src :=
  ⟨rfl, Nat.zero_le _, hdepths, hshallow⟩

/-- One candidate has been tried. -/
theorem ChoicePoint.Tidy.tried (h : point.Tidy src) {c : Clause A}
    (hcand : point.candidates[point.next]? = some c) : point.tried.Tidy src where
  candidates := h.candidates
  next_le := (List.getElem?_eq_some_iff.mp hcand).1
  depths := h.depths
  shallow := h.shallow

/-- None of the goals lies too deep. -/
theorem ChoicePoint.Tidy.depth_le (h : point.Tidy src) {max : Nat}
    (hmax : src.options.maxDepth = some max) {g : Goal A} (hg : g ∈ point.goals) :
    g.depth ≤ max := by
  have hfirst : point.goal.depth ≤ max := tooDeep_eq_false_iff.mp h.shallow max hmax
  rcases List.mem_cons.mp hg with rfl | hg
  · exact hfirst
  · exact Nat.le_trans (List.rel_of_pairwise_cons h.depths hg) hfirst

/-- The goals of a body take the place of the first goal, one level deeper. -/
theorem pairwise_expanded {g : Goal A} {rest : List (Goal A)}
    (h : (g :: rest).Pairwise fun g later => later.depth ≤ g.depth) (body : List (Compound A)) :
    (body.map (Goal.mk · (g.depth + 1)) ++ rest).Pairwise fun g later => later.depth ≤ g.depth := by
  obtain ⟨hfirst, hrest⟩ := List.pairwise_cons.mp h
  refine List.pairwise_append.mpr ⟨?_, hrest, ?_⟩
  · rw [List.pairwise_map]
    exact List.pairwise_of_forall fun _ _ => Nat.le_refl _
  · intro b hb later hlater
    obtain ⟨c, -, rfl⟩ := List.mem_map.mp hb
    exact Nat.le_succ_of_le (hfirst later hlater)

theorem advance_tidy (depth : Nat) {goals : List (Goal A)} {s : State A σ}
    (hs : ∀ point ∈ s.points, point.Tidy src)
    (hgoals : goals.Pairwise fun g later => later.depth ≤ g.depth) :
    (advance src client depth goals s).All fun t => ∀ point ∈ t.points, point.Tidy src := by
  refine advance_all_of (fun _ _ _ _ _ => hs) (fun _ => hs) fun g rest he hdeep => ?_
  subst he
  have hopen : (ChoicePoint.start src g rest s.session.mark).Tidy src := .start hgoals hdeep
  exact List.forall_mem_cons.mpr ⟨hopen, hs⟩

variable [DecidableEq A]

theorem step_tidy (n : Nat) (s : State A σ) (hs : ∀ point ∈ s.points, point.Tidy src) :
    (step src client n s).All fun t => ∀ point ∈ t.points, point.Tidy src := by
  obtain ⟨w, points, found, memory⟩ := s
  cases points with
  | nil => exact hs
  | cons point points =>
    obtain ⟨hpoint, hpoints⟩ := List.forall_mem_cons.mp hs
    have hlater : ∀ c, point.candidates[point.next]? = some c →
        ∀ q ∈ point.tried :: points, q.Tidy src := fun c hcand =>
      List.forall_mem_cons.mpr ⟨hpoint.tried hcand, hpoints⟩
    refine step_all_of_cons (fun _ => hpoints) (fun c _ _ hcand _ => hlater c hcand) ?_
    intro c w' body m hcand _
    exact advance_tidy _ (hlater c hcand) (pairwise_expanded hpoint.depths body)

theorem ComesTo.tidy {g : Compound A} {rest : List (Compound A)} {store : Store A} {memory : σ}
    {t : State A σ} (h : ComesTo src client (Search.start src g rest store memory) t) :
    ∀ point ∈ t.points, point.Tidy src := by
  refine h.all step_tidy fun point hp => ?_
  rw [List.mem_singleton.mp hp]
  -- all goals of a query have depth 0
  have hzero : ((⟨g, 0⟩ : Goal A) :: rest.map (⟨·, 0⟩)).Pairwise
      fun g later => later.depth ≤ g.depth := by
    rw [← List.map_cons (f := fun g => (⟨g, 0⟩ : Goal A)), List.pairwise_map]
    exact List.pairwise_of_forall fun _ _ => Nat.le_refl 0
  exact ChoicePoint.Tidy.start hzero (tooDeep_zero src.options)

end tidy

/-! ## Queries move nothing -/

section queries

variable [DecidableEq A] {src : Source A} {client : Client A σ}

/-- A query moves no variable in the end if its client moves none. -/
theorem enumerate_movesNothing (hc : Faithful client.answer) (hmoves : MovesNothing client.answer)
    (n : Nat) (goals : List (Compound A)) : MovesNothing (enumerate src client n goals) := by
  intro s m ending s' m' hs h x
  cases goals with
  | nil =>
    rw [enumerate_nil] at h
    obtain ⟨⟨signal, s₁, m₁⟩, hr, he⟩ := Option.map_eq_some_iff.mp h
    rw [close_store he]
    exact hmoves _ _ _ _ _ hs hr x
  | cons g rest =>
    rw [enumerate_cons] at h
    obtain ⟨⟨halted, state⟩, hrun, he⟩ := Option.map_eq_some_iff.mp h
    have hR := climbs_extendsAll hc hmoves
    let base : Session A := ⟨s, .start src.options.occursCheck⟩
    have hstart : ∃ opened, State.OpenedIn Session.ExtendsAll base
        (start src g rest s (client.note s (.opened (g :: rest).length) m)) opened :=
      ⟨_, openedIn_start hR g rest hs _⟩
    obtain ⟨opened, hend⟩ := run_all (P := fun t : State A σ =>
        ∃ opened, t.OpenedIn Session.ExtendsAll base opened)
      (fun n t ⟨_, ht⟩ => Step.All.imp (fun _ ht' => ⟨_, ht'⟩) (step_opened hR n ht))
      n hstart hrun
    rw [close_store he]
    exact (hend.opened.since_base hR).classOf_undoTo x

end queries

end Search

/-- A client that runs a query at every match moves nothing, like the clients that it is
    made of. -/
theorem Client.asking_movesNothing [DecidableEq A] {c inner : Client A σ}
    (hc : MovesNothing c.answer) (hfaithful : Faithful inner.answer)
    (hinner : MovesNothing inner.answer) (p : Program A) (n : Nat) (goals : List (Compound A)) :
    MovesNothing (c.asking inner p n goals).answer :=
  MovesNothing.bind (p.enumerate_faithful hfaithful n goals)
    (Search.enumerate_movesNothing hfaithful hinner n goals) fun _ => hc

/-! ## Sessions that come back -/

namespace Session

variable {v w : Session A}

/-- The trail of `v` is back.  Of all that had been made in `v`, every variable is in its
    class, and every class holds what it held and lists what it listed. -/
structure Returned (v w : Session A) : Prop where
  trail : w.trail = v.trail
  store : v.store.AsFound w.store

/-- The same of all variables, whether they had been made in `v` or not; so whatever can be
    read is read as in `v`. -/
structure ReturnedAll [DecidableEq A] (v w : Session A) : Prop where
  classOf : ∀ x, w.store.classOf x = v.store.classOf x
  members : ∀ c, (w.store.members c).Perm (v.store.members c)
  reads : v.store.ReadsAlike w.store

theorem Extends.returned (h : v.Extends w) (hv : v.Consistent) (hw : w.Consistent) :
    v.Returned (w.undoTo v.mark) where
  trail := h.kept.trail
  store := .of_kept hv.store h.kept.store (hw.undoTo v.mark).store

theorem ExtendsAll.returnedAll [DecidableEq A] (h : v.ExtendsAll w) (hv : v.Consistent)
    (hw : w.Consistent) : v.ReturnedAll (w.undoTo v.mark) where
  classOf := h.classOf_undoTo
  members := hv.store.members_perm (hw.undoTo v.mark).store h.classOf_undoTo
  reads := .of_classes h.classOf_undoTo (h.value_undoTo hv.store)

end Session

/-! ## The invariant -/

/-- The choice points of a search are in order, and were opened in these sessions. -/
structure Search.State.InOrder (src : Source A) (t : State A σ) (opened : List (Session A)) :
    Prop where
  /-- From the bottom of the stack to the top the marks do not decrease. -/
  marks : t.points.Pairwise fun newer older => older.mark ≤ newer.mark
  /-- None of them exceeds the length of the trail. -/
  mark_le : ∀ point ∈ t.points, point.mark ≤ t.session.mark
  /-- Undoing to the mark of a choice point brings back the session in which it was opened,
      and this is where it took the mark. -/
  undone : List.Forall₂ (fun point v => point.mark = v.mark ∧
    v.Returned (t.session.undoTo point.mark)) t.points opened
  /-- The candidates are the clauses of the goal's signature. -/
  candidates : ∀ point ∈ t.points,
    point.candidates = src.clausesFor point.goal.compound.signature
  /-- The index of the next one to try is within them, or just after the last. -/
  next_le : ∀ point ∈ t.points, point.next ≤ point.candidates.length
  /-- All of them, tried or not, do have that signature. -/
  signature : ∀ point ∈ t.points, ∀ c ∈ point.candidates,
    c.signature = point.goal.compound.signature
  /-- From the first goal to the last the depths do not increase. -/
  depths : ∀ point ∈ t.points, point.goals.Pairwise fun g later => later.depth ≤ g.depth
  /-- None of them exceeds the limit. -/
  depth_le : ∀ point ∈ t.points, ∀ g ∈ point.goals, ∀ max,
    src.options.maxDepth = some max → g.depth ≤ max

section invariant

variable [DecidableEq A] {p : Program A} {cs : List (Clause A)} {client : Client A σ} {s : Store A}

/-- **Choice points are in order.**  Let a program have been made in whatever way, and let
    the client leave every store as it finds it.  A search arrives at every state that it
    comes to, and whenever it arrives at one, the choice points there are in order: by their
    marks, by the stores that undoing to these brings back, by the candidates and the index
    into them, and by the depths of their goals.

    The client may have bound variables that it made itself, so what undoing brings back are
    the variables that had been made by the time the choice point was opened.  If the client
    moves nothing at all, these are all variables. -/
theorem choice_points_in_order (hp : Program.Supplied.{u, w} p cs) (hc : Faithful client.answer)
    (hs : s.Consistent) (g : Compound A) (rest : List (Compound A)) (memory : σ) :
    (∀ t, Search.ComesTo p.source client (Search.start p.source g rest s memory) t →
      ∃ opened, Search.Arrives p.source client (Search.start p.source g rest s memory) t opened) ∧
    ∀ t opened,
      Search.Arrives p.source client (Search.start p.source g rest s memory) t opened →
      t.InOrder p.source opened ∧
      (MovesNothing client.answer → List.Forall₂
        (fun point v => v.ReturnedAll (t.session.undoTo point.mark)) t.points opened) := by
  refine ⟨fun t h => h.exists_arrives, fun t opened h => ⟨?_, fun hmoves => ?_⟩⟩
  · have hR := Search.climbs_extends hc
    have ht := h.openedIn hR hs
    have htidy := h.comesTo.tidy
    exact {
      marks := ht.opened.pairwise_mark hR
      mark_le := ht.opened.mark_le hR
      undone := (ht.opened.forall₂ hR).imp fun point v ⟨hmark, hv, hclimb⟩ =>
        ⟨hmark, hmark ▸ hclimb.returned hv ht.consistent⟩
      candidates := fun point hpoint => (htidy point hpoint).candidates
      next_le := fun point hpoint => (htidy point hpoint).next_le
      signature := fun point hpoint c hmem => by
        rw [(htidy point hpoint).candidates] at hmem
        exact hp.signature_eq hmem
      depths := fun point hpoint => (htidy point hpoint).depths
      depth_le := fun point hpoint g hg max hmax => (htidy point hpoint).depth_le hmax hg }
  · have hR := Search.climbs_extendsAll hc hmoves
    have ht := h.openedIn hR hs
    exact (ht.opened.forall₂ hR).imp fun point v ⟨hmark, hv, hclimb⟩ =>
      hmark ▸ hclimb.returnedAll hv ht.consistent

end invariant

/-! ### Two choice points at a match -/

/-- Has all matches reported, and asks `0(Y)` at each of them. -/
def askingEvens : Client Nat Unit := throughout.asking atOnce evens 20 [⟨0, [.var ⟨1⟩]⟩]

theorem askingEvens_faithful : Faithful askingEvens.answer :=
  (evens.enumerate_faithful atOnce_faithful 20 _).bind fun _ => throughout_faithful

theorem askingEvens_movesNothing : MovesNothing askingEvens.answer := by
  have hmoves : ∀ signal : Signal,
      MovesNothing fun (s : Store Nat) (_ : Unit) => some (signal, s, ()) := by
    intro signal s m b s' m' _ h x
    cases h
    rfl
  exact Client.asking_movesNothing (hmoves .proceed) atOnce_faithful (hmoves .halt) evens 20 _

/-- The query for `3(Y)` after its first match.  The rule of `3` has left two moves on the
    trail and a choice point above them, and the first fact of `0` two more. -/
theorem two_points_in_order :
    ∃ t opened, Search.Arrives evens.source askingEvens
        (Search.start evens.source ⟨3, [.var ⟨1⟩]⟩ [] (Store.empty.freshMany 2).2 ()) t opened ∧
      t.found = 1 ∧ t.session.mark = 4 ∧ t.points.map Search.ChoicePoint.mark = [2, 0] ∧
      t.points.map (·.candidates.length) = [2, 1] ∧
      t.points.map Search.ChoicePoint.next = [1, 1] ∧ t.InOrder evens.source opened ∧
      List.Forall₂ (fun point v => v.ReturnedAll (t.session.undoTo point.mark))
        t.points opened := by
  let s₀ := Search.start evens.source ⟨3, [.var ⟨1⟩]⟩ [] (Store.empty.freshMany 2).2 ()
  have h₀ : Search.Arrives evens.source askingEvens s₀ s₀ _ := .start
  have h₁ := h₀.step (n := 20) rfl
  have h₂ := h₁.step (n := 20) rfl
  have hsupplied : Program.Supplied.{0, 0} evens _ := .ofList _ _
  have hconsistent : ((Store.empty : Store Nat).freshMany 2).2.Consistent :=
    Store.consistent_empty.fresh.fresh
  have hall := (choice_points_in_order hsupplied askingEvens_faithful hconsistent ⟨3, [.var ⟨1⟩]⟩
    [] ()).2 _ _ h₂
  refine ⟨_, _, h₂, ?_, ?_, ?_, ?_, ?_, hall.1, hall.2 askingEvens_movesNothing⟩
  · rfl
  · rfl
  · rfl
  · rfl
  · rfl

end Horn
