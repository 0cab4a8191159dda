import Horn.Proofs.Nesting
import Horn.Proofs.Spared

/-! # A search touches only what its goals reach

    The goals of a query reach the variables that occur in them and all that the values of
    these lead to.  The others are left alone at every moment of the search, also if they
    occur in the clauses.

    The invariant is that the session spares these variables and that the goals of every
    choice point avoid them, in the session that undoing to its mark leaves (`Sparing`).
    It is kept by every step (`step_sparing`), whatever the client has made in the meantime.

    The moments at which somebody looks on are those at which the client is called or told of
    an event; they are collected by `Program.moments`.

    Main statement: `search_touches_only_what_goals_reach`. -/

namespace Horn

universe u v

variable {A : Type u} {σ : Type v}

namespace Search

/-! ## Searches that spare variables -/

/-- The goals of the choice point avoid `O`, which had been made by then. -/
def Pending (s₀ : Store A) (O : Var → Prop) (v : Session A) (point : ChoicePoint A) : Prop :=
  s₀.nextVar ≤ v.store.nextVar ∧ Avoiding O v.store (point.goal :: point.rest)

/-- The goals of all choice points avoid `O`, at their marks.  There is no second stack, so
    the choice points stand there themselves. -/
abbrev AllPending (s₀ : Store A) (O : Var → Prop) (w : Session A) (points : List (ChoicePoint A)) :
    Prop := AtMarks (fun v point (_ : ChoicePoint A) => Pending s₀ O v point) w points points

/-- The session spares `O`, the goals of all choice points avoid it, and the client's memory
    has property `P`. -/
structure Sparing (s₀ : Store A) (O : Var → Prop) (o : Options) (P : σ → Prop) (t : State A σ) :
    Prop where
  running : Running o t.session
  spares : t.session.Spares s₀ O
  le : s₀.nextVar ≤ t.session.store.nextVar
  points : AllPending s₀ O t.session t.points
  memory : P t.memory

section sparing

variable {src : Source A} {client : Client A σ} {s₀ : Store A} {O : Var → Prop} {P : σ → Prop}
  {o : Options}

theorem pending_lasting (hO : ∀ x, O x → s₀.Born x) :
    Lasting o fun v point (_ : ChoicePoint A) => Pending s₀ O v point := by
  rintro v v' point - hv hv' hkept ⟨hle, hgoals⟩
  refine ⟨Nat.le_trans hle hkept.store.nextVar_le, ?_⟩
  apply hgoals.kept
  · exact fun x hx => Nat.lt_of_lt_of_le (hO x hx) hle
  · exact hv.sound.consistent.store
  · exact hv.sound.inScope.store
  · exact hkept.store
  · exact hv'.sound.inScope.store

variable (hO : ∀ x, O x → s₀.Born x) (hc : Faithful client.answer)
  (hscope : InScope s₀.nextVar client.answer)
  (hnote : ∀ s e m, s₀.Spares O s → P m → P (client.note s e m))
  (hanswer : ∀ s m r, s₀.Spares O s → P m → client.answer s m = some r → P r.2.2)
include hO hc hscope hnote hanswer

theorem advance_sparing (depth : Nat) {goals : List (Goal A)} {w : Session A}
    {points : List (ChoicePoint A)} {m : σ} (hw : Running src.options w) (hspares : w.Spares s₀ O)
    (hle : s₀.nextVar ≤ w.store.nextVar) (hpoints : AllPending s₀ O w points)
    (hgoals : Avoiding O w.store goals) (hm : P m) (found : Nat) :
    (advance src client depth goals ⟨w, points, found, m⟩).All (Sparing s₀ O src.options P) := by
  cases goals with
  | nil =>
    obtain ⟨store, trail⟩ := w
    rw [advance_nil]
    cases hr : client.answer store m with
    | none => trivial
    | some r =>
      obtain ⟨signal, s', m'⟩ := r
      have hstore : store.Consistent := hw.sound.consistent.store
      have hfound : store.AsFound s' := hc _ _ _ _ _ hstore hr
      have hscoped : s'.Scoped s'.nextVar :=
        hscope _ _ _ _ _ hle hstore hw.sound.inScope.store hr
      -- the client may have made variables, but not for the goals of the choice points
      have hw' : Running src.options ⟨s', trail⟩ := hw.asFound hfound hscoped
      have hspares' : Session.Spares s₀ O ⟨s', trail⟩ := hspares.asFound hO hle hfound
      have hpoints' : AllPending s₀ O ⟨s', trail⟩ points :=
        hpoints.extends (pending_lasting hO) hw hw' (.of_kept ⟨rfl, hfound.kept⟩)
      have hle' : s₀.nextVar ≤ s'.nextVar := Nat.le_trans hle hfound.kept.nextVar_le
      have hm' : P m' := hanswer _ _ _ hspares.store hm hr
      cases signal with
      | proceed => exact ⟨hw', hspares', hle', hpoints', hm'⟩
      | halt => exact ⟨hw', hspares', hle', hpoints', hnote _ _ _ hspares'.store hm'⟩
  | cons g rest =>
    unfold advance
    by_cases hdeep : tooDeep src.options g.depth = true
    · simp only [hdeep, if_true]
      exact ⟨hw, hspares, hle, hpoints, hnote _ _ _ hspares.store hm⟩
    · simp only [hdeep, Bool.false_eq_true, if_false]
      exact ⟨hw, hspares, hle, hpoints.open ⟨hle, hgoals⟩ rfl, hm⟩

variable [DecidableEq A]

theorem attempt_sparing (hs₀ : s₀.Consistent) (n : Nat) {point : ChoicePoint A} (c : Clause A)
    {v : Session A} {points : List (ChoicePoint A)} {m : σ}
    (hv : Running src.options v) (hspares : v.Spares s₀ O) (hpoint : Pending s₀ O v point)
    (hmark : point.mark = v.mark) (hpoints : AllPending s₀ O v points) (hm : P m)
    (found : Nat) :
    (attempt src client n point c ⟨v, point.tried :: points, found, m⟩).All
      (Sparing s₀ O src.options P) := by
  have hpending := hpoint
  obtain ⟨hle, L, hL, hgoals⟩ := hpoint
  have hgoal : point.goal.compound.Within L := fun x hx =>
    (hgoals point.goal (List.mem_cons_self ..) x hx).2
  have hborn : point.goal.compound.Within v.store.Born := fun x hx =>
    (hgoals point.goal (List.mem_cons_self ..) x hx).1
  have hspared := fun w' r (h : tryClause n point.goal.compound c v = some (w', r)) =>
    tryClause_spares hs₀ hv.sound.consistent hspares hL hgoal h
  -- the choice points without the clause, in any session that extends this one
  have hrest : ∀ w', Running src.options w' → v.Extends w' →
      AllPending s₀ O w' (point.tried :: points) := fun w' hw' hext =>
    AtMarks.extends (pending_lasting hO) (.open hpending hmark hpoints) hv hw' hext
  obtain ⟨m', hm', hattempt⟩ := attempt_noted src client hnote n point c v
    (point.tried :: points) found m hm (fun k => hspares.store.setNext k)
    fun w' r h k => (hspared w' r h).1.store.setNext k
  rw [hattempt]
  cases htry : tryClause n point.goal.compound c v with
  | none => trivial
  | some q =>
    obtain ⟨w', r⟩ := q
    obtain ⟨hext, hw', hmade⟩ := hv.tryClause hborn htry
    obtain ⟨hspares', hbody⟩ := hspared w' r htry
    cases r with
    | none =>
      have hback : v.Extends (w'.undoTo point.mark) := hext.undoTo (Nat.le_of_eq hmark.symm)
      have hrun := hw'.undoTo point.mark
      exact ⟨hrun, hspares'.undoTo point.mark, Nat.le_trans hle hback.nextVar_le,
        hrest _ hrun hback, hm'⟩
    | some body =>
      have hgrown : v.store.nextVar ≤ w'.store.nextVar := hext.nextVar_le
      obtain ⟨hL', hbodyL⟩ := hbody body rfl
      apply advance_sparing hO hc hscope hnote hanswer _ hw' hspares' (Nat.le_trans hle hgrown)
        (hrest w' hw' hext) _ hm'
      refine ⟨L, hL', fun g hg x hx => ?_⟩
      rcases List.mem_append.mp hg with hg | hg
      · obtain ⟨b, hb, rfl⟩ := List.mem_map.mp hg
        exact ⟨hmade body rfl b hb x hx, hbodyL b hb x hx⟩
      · obtain ⟨hborn', hLx⟩ := hgoals g (List.mem_cons_of_mem _ hg) x hx
        exact ⟨Nat.lt_of_lt_of_le hborn' hgrown, hLx⟩

/-- A step spares what the search has spared so far. -/
theorem step_sparing (hs₀ : s₀.Consistent) (n : Nat) (t : State A σ)
    (ht : Sparing s₀ O src.options P t) :
    (step src client n t).All (Sparing s₀ O src.options P) := by
  obtain ⟨w, points, found, m⟩ := t
  obtain ⟨hw, hspares, hle, hpoints, hm⟩ := ht
  cases hpoints with
  | nil => exact ⟨hw, hspares, hle, .nil, hm⟩
  | @cons _ point points _ _ hmark hpoint hpoints =>
    have hback : Running src.options (w.undoTo point.mark) := hw.undoTo point.mark
    have hspares' : (w.undoTo point.mark).Spares s₀ O := hspares.undoTo point.mark
    unfold step
    simp only
    split
    · exact ⟨hback, hspares', hpoint.1, hpoints, hnote _ _ _ hspares'.store hm⟩
    · next c _ =>
      have hself : point.mark = (w.undoTo point.mark).mark := (w.mark_undoTo_of_le hmark).symm
      exact attempt_sparing hO hc hscope hnote hanswer hs₀ n c hback hspares' hpoint hself
        hpoints hm found

end sparing

/-! ## Inside a step -/

/-- The goal and the copy of a clause head that the next step begins by unifying, and the
    session in which it does; none if the newest choice point has no clause left or the copy
    takes too many levels. -/
def State.headUnification (n : Nat) (t : State A σ) : Option (Term A × Term A × Session A) :=
  match t.points with
  | [] => none
  | point :: _ =>
    let w := t.session.undoTo point.mark
    match point.candidates[point.next]? with
    | none => none
    | some c =>
      (w.store.copyCompound n c.head .empty).map fun (head, _, store) =>
        (point.goal.compound.toTerm, head.toTerm, ⟨store, w.trail⟩)

/-- Whatever this unification goes through, it spares what the search has spared so far, also
    if it has no end or the step is cut off later on. -/
theorem headUnification_spares [DecidableEq A] {s₀ : Store A} {O : Var → Prop} {P : σ → Prop}
    {o : Options} (hs₀ : s₀.Consistent) {n : Nat} {t : State A σ} (ht : Sparing s₀ O o P t)
    {goal head : Term A} {u v : Session A} (h : t.headUnification n = some (goal, head, u))
    (hv : u.Through goal head v) : v.Spares s₀ O := by
  obtain ⟨w, points, found, m⟩ := t
  obtain ⟨hw, hspares, -, hpoints, -⟩ := ht
  cases hpoints with
  | nil => cases h
  | @cons _ point points _ _ hmark hpoint _ =>
    obtain ⟨-, L, hL, hgoals⟩ := hpoint
    have hback : (w.undoTo point.mark).Consistent := (hw.undoTo point.mark).sound.consistent
    have hgoal : point.goal.compound.Within L := fun x hx =>
      (hgoals point.goal (List.mem_cons_self ..) x hx).2
    simp only [State.headUnification] at h
    cases hcand : point.candidates[point.next]? with
    | none =>
      rw [hcand] at h
      cases h
    | some c =>
      rw [hcand] at h
      simp only [Store.copyCompound_eq, Option.map_map] at h
      obtain ⟨⟨copy, p⟩, hcopy, he⟩ := Option.map_eq_some_iff.mp h
      cases he
      -- the copy of the head has only made variables
      have hu : ((w.undoTo point.mark).setNext p.nextVar).Consistent :=
        ⟨hback.store.setNextVar _, hback.trail⟩
      apply Session.Through.keeps (Session.stable_spares hs₀ hL.apart _) _ hv hgoal
        (within_of_copyGoal hL hcopy)
      · exact ⟨.refl hu (hL.closed.setNext _), (hspares.undoTo point.mark).setNext _⟩
      · exact fun v k hv => hv.undo k

end Search

/-! ## Moments of a query -/

/-- The client that does what `c` does and keeps a log of all stores that it is shown, in
    which it is called or told of an event. -/
def Client.watching (c : Client A σ) : Client A (σ × List (Store A)) :=
  { c.logging with note := fun s e m => (c.note s e m.1, m.2 ++ [s]) }

/-- The stores in which a query has called its client or told it of an event after `n`
    steps.  The last event of a query that returns comes with the store that it returns. -/
def Program.moments [DecidableEq A] (p : Program A) (client : Client A σ) (n : Nat)
    (goals : List (Compound A)) (store : Store A) (memory : σ) : List (Store A) :=
  match goals with
  | [] => [store]
  | g :: rest =>
    let memory := client.note store (.opened goals.length) memory
    (Search.reached p.source client.watching n
      (Search.start p.source g rest store (memory, [store]))).memory.2

/-- What holds of the store of every event and of every call holds of all in the log. -/
theorem Client.watching_keeps {c : Client A σ} {V : Store A → Prop} :
    (∀ s e m, V s → (∀ view ∈ m.2, V view) → ∀ view ∈ (c.watching.note s e m).2, V view) ∧
    ∀ s m r, V s → (∀ view ∈ m.2, V view) → c.watching.answer s m = some r →
      ∀ view ∈ r.2.2.2, V view := by
  have hlog : ∀ s (log : List (Store A)), V s → (∀ view ∈ log, V view) →
      ∀ view ∈ log ++ [s], V view := fun s log hs hm =>
    List.forall_mem_append.mpr ⟨hm, List.forall_mem_singleton.mpr hs⟩
  refine ⟨fun s e m hs hm => hlog s m.2 hs hm, fun s m r hs hm hr => ?_⟩
  obtain ⟨signal, s', m', h⟩ := c.exists_logging_answer s m
  cases h.symm.trans hr
  exact hlog s m.2 hs hm

/-! ## Variables that are not reached -/

/-- The variable has been made, and its class is not met in the goals, neither in the
    variables that occur there nor in what their values lead to. -/
def Store.Unreached (s : Store A) (goals : List (Compound A)) (x : Var) : Prop :=
  s.Born x ∧ ∀ g ∈ goals, ¬ s.Meets (s.classOf x) g.toTerm

/-- In `s'` the variable is in the class it was in, denotes what it denoted, and is aliased
    with those variables of before that it was aliased with. -/
structure Store.Untouched (s : Store A) (x : Var) (s' : Store A) : Prop where
  classOf : s'.classOf x = s.classOf x
  value : s'.value x = s.value x
  aliased : ∀ y, s.Born y → s'.aliased x y = s.aliased x y

section unreached

variable {s s' : Store A} {goals : List (Compound A)} {x : Var}

theorem Store.Unreached.not_ofGoals (h : s.Unreached goals x) : ¬ s.OfGoals goals x := by
  rintro (hlater | ⟨g, hg, hmeets⟩)
  · exact Nat.not_le_of_lt h.1 hlater
  · exact h.2 g hg hmeets

/-- Who is in its class is not reached either. -/
theorem Store.Unreached.of_classOf_eq (h : s.Unreached goals x) (hscope : s.Scoped s.nextVar)
    {y : Var} (hyx : s.classOf y = s.classOf x) : s.Unreached goals y := by
  constructor
  · exact hscope.lt_of_classOf_eq h.1 hyx
  · rw [hyx]
    exact h.2

/-- Whatever spares whole classes leaves each of their variables untouched. -/
theorem Store.Spares.untouched_of_classes {O : Var → Prop} (h : s.Spares O s')
    (hs : s.Consistent) (hO : ∀ x y, O x → s.classOf y = s.classOf x → O y) (hx : O x) :
    s.Untouched x s' where
  classOf := h.classOf x hx
  value := h.value hs hx
  aliased y hy := by
    have hiff := h.classOf_eq_iff hO hx hy
    simp only [Store.aliased, hiff]

/-- Whatever spares the variables that are not reached leaves each of them untouched. -/
theorem Store.Spares.untouched (h : s.Spares (s.Unreached goals) s') (hs : s.Consistent)
    (hscope : s.Scoped s.nextVar) (hx : s.Unreached goals x) : s.Untouched x s' :=
  h.untouched_of_classes hs (fun _ _ hz => hz.of_classOf_eq hscope) hx

/-- Where nothing has happened, whole classes are spared. -/
theorem Store.spares_self {O : Var → Prop}
    (hO : ∀ x y, O x → s.classOf y = s.classOf x → O y) : s.Spares O s where
  classOf _ _ := rfl
  others y _ hy x hx hxy := hy (hO x y hx hxy.symm)
  valueOf _ _ := rfl

/-- Before a query nothing has happened to what its goals do not reach. -/
theorem Store.Scoped.spares_unreached (hscope : s.Scoped s.nextVar) (goals : List (Compound A)) :
    s.Spares (s.Unreached goals) s :=
  Store.spares_self fun _ _ hx => hx.of_classOf_eq hscope

/-- A query begins with goals that avoid what they do not reach. -/
theorem Search.sparing_start {src : Source A} {P : σ → Prop} {g : Compound A}
    {rest : List (Compound A)} (hs : s.Consistent) (hscope : s.Scoped s.nextVar)
    (hgoals : ∀ g' ∈ g :: rest, g'.Within s.Born) {m : σ} (hm : P m) :
    Sparing s (s.Unreached (g :: rest)) src.options P (start src g rest s m) := by
  have havoids : s.Avoids (s.Unreached (g :: rest)) (s.OfGoals (g :: rest)) :=
    ⟨hscope.closed_ofGoals _, fun x hx => .inl hx, fun x hx => hx.not_ofGoals⟩
  have hwithin : ∀ g' ∈ g :: rest, g'.Within fun x => s.Born x ∧ s.OfGoals (g :: rest) x :=
    fun g' hg' x hx => ⟨hgoals g' hg' x hx, .inr ⟨g', hg', .of_mentions hx⟩⟩
  exact ⟨running_start hs hscope, .start (hscope.spares_unreached _) _, Nat.le_refl _,
    .open ⟨Nat.le_refl _, _, havoids, within_query hwithin⟩ rfl .nil, hm⟩

end unreached

/-! ## Queries -/

section queries

variable [DecidableEq A] {p : Program A} {s : Store A} {goals : List (Compound A)}
  {client : Client A σ}

/-- At every moment of a query the variables that its goals do not reach are spared. -/
theorem Program.moments_spared (hs : s.Consistent) (hscope : s.Scoped s.nextVar)
    (hgoals : ∀ g ∈ goals, g.Within s.Born) (hc : Faithful client.answer)
    (hclient : InScope s.nextVar client.answer) {n : Nat} {memory : σ} {view : Store A}
    (hview : view ∈ p.moments client n goals s memory) : s.Spares (s.Unreached goals) view := by
  have hstart : s.Spares (s.Unreached goals) s := hscope.spares_unreached goals
  cases goals with
  | nil =>
    obtain rfl : view = s := List.mem_singleton.mp hview
    exact hstart
  | cons g rest =>
    -- what the log holds is part of the invariant
    let shown (m : σ × List (Store A)) : Prop :=
      ∀ view ∈ m.2, s.Spares (s.Unreached (g :: rest)) view
    have hfirst : shown (client.note s (.opened (g :: rest).length) memory, [s]) := by
      intro view hview
      rw [List.mem_singleton.mp hview]
      exact hstart
    obtain ⟨hnote, hanswer⟩ := client.watching_keeps (V := s.Spares (s.Unreached (g :: rest)))
    have hfaithful : Faithful client.watching.answer := Client.logging_faithful hc
    have hinScope : InScope s.nextVar client.watching.answer := Client.logging_inScope hclient
    have hreached : Search.Sparing s _ p.source.options shown
        (Search.reached p.source client.watching n _) :=
      Search.reached_all (Search.step_sparing (P := shown) (fun _ hy => hy.1) hfaithful hinScope
        hnote hanswer hs) n (Search.sparing_start hs hscope hgoals hfirst)
    exact hreached.memory view hview

/-- So they are in every state that a search comes to. -/
theorem Search.ComesTo.sparing {src : Source A} {g : Compound A} {rest : List (Compound A)}
    (hs : s.Consistent) (hscope : s.Scoped s.nextVar)
    (hgoals : ∀ g' ∈ g :: rest, g'.Within s.Born) (hc : Faithful client.answer)
    (hclient : InScope s.nextVar client.answer) {m : σ} {t : State A σ}
    (h : ComesTo src client (Search.start src g rest s m) t) :
    Sparing s (s.Unreached (g :: rest)) src.options (fun _ => True) t :=
  h.all (step_sparing (fun _ hy => hy.1) hc hclient (fun _ _ _ _ _ => trivial)
    (fun _ _ _ _ _ _ => trivial) hs) (sparing_start hs hscope hgoals trivial)

/-- The variable is left untouched by the query, however far it has come: at every call of
    the client and every event that it is told of; in every state, with any number of its
    moves taken back, and all the way through the unification that is begun there; and when
    the query returns. -/
structure Program.LeavesAlone (p : Program A) (client : Client A σ)
    (goals : List (Compound A)) (s : Store A) (memory : σ) (x : Var) : Prop where
  moments : ∀ n, ∀ view ∈ p.moments client n goals s memory, s.Untouched x view
  states : ∀ g rest t, goals = g :: rest →
    Search.ComesTo p.source client
        (Search.start p.source g rest s (client.note s (.opened goals.length) memory)) t →
      (∀ k, s.Untouched x (t.session.undo k).store) ∧
      ∀ n goal head u v, t.headUnification n = some (goal, head, u) → u.Through goal head v →
        s.Untouched x v.store
  returned : ∀ n r, p.enumerate client n goals s memory = some r → s.Untouched x r.2.1

/-- A query leaves alone what its goals do not reach. -/
theorem Program.leavesAlone {x : Var} (hs : s.Consistent) (hscope : s.Scoped s.nextVar)
    (hgoals : ∀ g ∈ goals, g.Within s.Born) (hc : Faithful client.answer)
    (hclient : InScope s.nextVar client.answer) (hx : s.Unreached goals x) (p : Program A)
    (memory : σ) : p.LeavesAlone client goals s memory x where
  moments n view hview :=
    (p.moments_spared hs hscope hgoals hc hclient hview).untouched hs hscope hx
  states := by
    rintro g rest t rfl hcomes
    have ht := hcomes.sparing hs hscope hgoals hc hclient
    constructor
    · intro k
      exact (ht.spares.undo k).store.untouched hs hscope hx
    · intro n goal head u v hhead hv
      exact (Search.headUnification_spares hs ht hhead hv).store.untouched hs hscope hx
  returned := by
    rintro n ⟨ending, s', memory'⟩ hrun
    have hfound : s.AsFound s' := p.enumerate_faithful hc n goals _ _ _ _ _ hs hrun
    have hstart : Session.Spares s (s.Unreached goals) ⟨s, .start p.options.occursCheck⟩ :=
      .start (hscope.spares_unreached goals) _
    exact (hstart.asFound (fun _ hy => hy.1) (Nat.le_refl _) hfound).store.untouched hs hscope hx

/-- **A search touches only what its goals reach.**  Take any goals over variables that have
    been made, and any clauses, whether or not they mention variables of the goals or others.
    A variable that has been made and that the goals do not reach is left untouched

    * at every call of the client and every event that it is told of, after any number of
      steps,
    * in every state that the search comes to, with any number of its moves taken back, and
      all the way through every unification of a goal with a clause head that is begun
      there, whether or not it comes to an end, and
    * when the query returns.

    All that is asked of the client is that it leaves stores as it finds them, and in scope. -/
theorem search_touches_only_what_goals_reach {x : Var} (hs : s.Consistent)
    (hscope : s.Scoped s.nextVar) (hgoals : ∀ g ∈ goals, g.Within s.Born)
    (hc : Faithful client.answer) (hclient : InScope s.nextVar client.answer)
    (hx : s.Unreached goals x) (p : Program A) (memory : σ) :
    (∀ n, ∀ view ∈ p.moments client n goals s memory, s.Untouched x view) ∧
    (∀ g rest t, goals = g :: rest →
      Search.ComesTo p.source client
          (Search.start p.source g rest s (client.note s (.opened goals.length) memory)) t →
        (∀ k, s.Untouched x (t.session.undo k).store) ∧
        ∀ n goal head u v, t.headUnification n = some (goal, head, u) → u.Through goal head v →
          s.Untouched x v.store) ∧
    ∀ n ending s' memory', p.enumerate client n goals s memory = some (ending, s', memory') →
      s.Untouched x s' := by
  have hleft := p.leavesAlone hs hscope hgoals hc hclient hx memory
  exact ⟨hleft.moments, hleft.states, fun n ending s' memory' h => hleft.returned n _ h⟩

end queries

/-- `3(Y)` in `0(1).  0(2).  3(X) if 0(X).`: at all moments of the query, of which there are
    eleven, the `X` of the stored clause is untouched, while `Y` is bound at some of them. -/
theorem stored_variable_untouched :
    (evens.moments throughout 20 [⟨3, [.var ⟨1⟩]⟩] (Store.empty.freshMany 2).2 ()).length = 11 ∧
    ((evens.moments throughout 20 [⟨3, [.var ⟨1⟩]⟩] (Store.empty.freshMany 2).2 ()).any
      fun view => (view.value ⟨1⟩).isSome) = true ∧
    ∀ view ∈ evens.moments throughout 20 [⟨3, [.var ⟨1⟩]⟩] (Store.empty.freshMany 2).2 (),
      (Store.empty.freshMany 2 : List Var × Store Nat).2.Untouched ⟨0⟩ view := by
  have hX : (Store.empty.freshMany 2 : List Var × Store Nat).2.Unreached [⟨3, [.var ⟨1⟩]⟩] ⟨0⟩ := by
    refine ⟨Nat.zero_lt_two, fun g hg hmeets => ?_⟩
    have hrule : (⟨⟨3, [.var ⟨0⟩]⟩, [⟨0, [.var ⟨0⟩]⟩]⟩ : Clause Nat) ∈ evens.clauses :=
      .tail _ (.tail _ (.head _))
    refine evens_askable.apart g hg _ hrule _ (List.mem_cons_self ..) _ hmeets ?_
    exact .of_mentions (.app (List.mem_singleton_self _) .var)
  refine ⟨by decide, by decide, ?_⟩
  exact (search_touches_only_what_goals_reach evens_askable.consistent evens_askable.inScope
    evens_askable.madeGoals throughout_faithful (throughout_inScope 2) hX evens ()).1 20

end Horn
