import Horn.Proofs.Answers
import Horn.Proofs.Attempts
import Horn.Proofs.Queries

/-! # Queries stay in scope

    Variables come into being by being made.  A client that keeps to that, and leaves
    the store as it found it, may be called by a search at any time: the session stays
    sound (`Running`), and all that stands in the choice points has been made.  A query
    keeps to it in turn, so clients may run queries (`enumerate_inScope`). -/

namespace Horn

universe u v w

variable {A : Type u} {σ : Type v}

/-- A function of the store touches no variable that has not been made, provided that
    the first `n₀` have been. -/
def InScope {β : Type w} (n₀ : Nat) (look : Store A → σ → Option (β × Store A × σ)) : Prop :=
  ∀ s m b s' m', n₀ ≤ s.nextVar → s.Consistent → s.Scoped s.nextVar → look s m = some (b, s', m') →
    s'.Scoped s'.nextVar

theorem InScope.bind {β γ : Type w} {n₀ : Nat} {look : Store A → σ → Option (β × Store A × σ)}
    {next : β → Store A → σ → Option (γ × Store A × σ)} (hf : Faithful look)
    (hlook : InScope n₀ look) (hnext : ∀ b, InScope n₀ (next b)) :
    InScope n₀ fun s m => (look s m).bind fun (b, s, m) => next b s m := by
  intro s m c s' m' hle hs hscope h
  obtain ⟨⟨b, s₁, m₁⟩, h₁, h₂⟩ := Option.bind_eq_some_iff.mp h
  -- the second function is given a store in which no fewer variables have been made
  have hfound : s.AsFound s₁ := hf s m b s₁ m₁ hs h₁
  exact hnext b s₁ m₁ c s' m' (Nat.le_trans hle hfound.kept.nextVar_le) hfound.consistent
    (hlook s m b s₁ m₁ hle hs hscope h₁) h₂

namespace Search

/-- A session in which a search with these options can go on. -/
structure Running (o : Options) (w : Session A) : Prop where
  sound : w.Sound w.store.nextVar
  check : w.trail.occursCheck = o.occursCheck

section running

variable {o : Options}

theorem running_start {s : Store A} (hs : s.Consistent) (hscope : s.Scoped s.nextVar) :
    Running o ⟨s, .start o.occursCheck⟩ where
  sound := ⟨Session.consistent_start hs _, Session.scoped_start hscope _⟩
  check := rfl

theorem Running.undoTo {w : Session A} (h : Running o w) (mark : Nat) :
    Running o (w.undoTo mark) where
  sound := by
    rw [Session.undoTo, Session.nextVar_undo]
    exact h.sound.undoTo mark
  check := (Session.occursCheck_undo _ w).trans h.check

/-- A search goes on with any store that is left as it was found. -/
theorem Running.asFound {s s' : Store A} {t : Trail} (h : Running o ⟨s, t⟩) (hs : s.AsFound s')
    (hscope : s'.Scoped s'.nextVar) : Running o ⟨s', t⟩ where
  sound := {
    consistent := ⟨hs.consistent, fun m hm => (h.sound.consistent.trail m hm).mono
      hs.kept.nextJoint_le⟩
    inScope := ⟨hscope, (h.sound.inScope.mono hs.kept.nextVar_le).trail⟩ }
  check := h.check

theorem Running.tryClause [DecidableEq A] {n : Nat} {goal : Compound A} {c : Clause A}
    {w w' : Session A} {r : Option (List (Compound A))} (hw : Running o w)
    (hgoal : goal.Within w.store.Born) (h : Search.tryClause n goal c w = some (w', r)) :
    w.Extends w' ∧ Running o w' ∧
      ∀ body, r = some body → ∀ g ∈ body, g.Within w'.store.Born := by
  obtain ⟨hext, hsound, hcheck, hbody⟩ := tryClause_keeps hw.sound hgoal h
  exact ⟨hext, ⟨hsound, hcheck.trans hw.check⟩, hbody⟩

end running

/-! ## Steps and queries -/

/-- A search in which all that stands in the choice points has been made, as well as the
    first `n₀` variables. -/
structure Grounded (o : Options) (n₀ : Nat) (s : State A σ) : Prop where
  running : Running o s.session
  le : n₀ ≤ s.session.store.nextVar
  points : ∀ point ∈ s.points, ∀ g ∈ point.goal :: point.rest,
    g.compound.Within s.session.store.Born

theorem within_born_mono {s s' : Store A} (h : s.nextVar ≤ s'.nextVar) {c : Compound A}
    (hc : c.Within s.Born) : c.Within s'.Born := hc.mono fun _ hx => Nat.lt_of_lt_of_le hx h

/-- The goals that take the place of the first one have been made. -/
theorem within_expanded {s s' : Store A} (hle : s.nextVar ≤ s'.nextVar) {body : List (Compound A)}
    {rest : List (Goal A)} (hbody : ∀ g ∈ body, g.Within s'.Born)
    (hrest : ∀ g ∈ rest, g.compound.Within s.Born) (depth : Nat) :
    ∀ g ∈ body.map (Goal.mk · depth) ++ rest, g.compound.Within s'.Born :=
  List.forall_mem_append.mpr
    ⟨List.forall_mem_map.mpr hbody, fun g hg => within_born_mono hle (hrest g hg)⟩

theorem within_query {D : Var → Prop} {g : Compound A} {rest : List (Compound A)}
    (h : ∀ g' ∈ g :: rest, g'.Within D) :
    ∀ g' ∈ (⟨g, 0⟩ : Goal A) :: rest.map (⟨·, 0⟩), g'.compound.Within D := by
  intro g' hg'
  rcases List.mem_cons.mp hg' with rfl | hg'
  · exact h g (List.mem_cons_self ..)
  · obtain ⟨b, hb, rfl⟩ := List.mem_map.mp hg'
    exact h b (List.mem_cons_of_mem _ hb)

section steps

variable {src : Source A} {client : Client A σ} {n₀ : Nat}

theorem advance_grounded (hc : Faithful client.answer) (hscope : InScope n₀ client.answer)
    (depth : Nat) {goals : List (Goal A)} {s : State A σ} (hs : Grounded src.options n₀ s)
    (hgoals : ∀ g ∈ goals, g.compound.Within s.session.store.Born) :
    (advance src client depth goals s).All (Grounded src.options n₀) := by
  obtain ⟨w, points, found, memory⟩ := s
  refine advance_all_of (fun signal s' m' hr m => ?_) (fun m => ⟨hs.running, hs.le, hs.points⟩)
    fun g rest he _ => ⟨hs.running, hs.le, fun point hp g' hg' => ?_⟩
  · -- whatever the client has made, the goals in the choice points were made before
    have hstore : w.store.Consistent := hs.running.sound.consistent.store
    have hfound : w.store.AsFound s' := hc _ _ _ _ _ hstore hr
    have hscoped : s'.Scoped s'.nextVar :=
      hscope _ _ _ _ _ hs.le hstore hs.running.sound.inScope.store hr
    exact ⟨hs.running.asFound hfound hscoped, Nat.le_trans hs.le hfound.kept.nextVar_le,
      fun point hp g hg => within_born_mono hfound.kept.nextVar_le (hs.points point hp g hg)⟩
  · rcases List.mem_cons.mp hp with rfl | hp
    · exact hgoals g' (he ▸ hg')
    · exact hs.points point hp g' hg'

variable [DecidableEq A]

theorem step_grounded (hc : Faithful client.answer) (hscope : InScope n₀ client.answer) (n : Nat)
    (s : State A σ) (hs : Grounded src.options n₀ s) :
    (step src client n s).All (Grounded src.options n₀) := by
  obtain ⟨w, points, found, memory⟩ := s
  cases points with
  | nil => exact hs
  | cons point points =>
    have hnext : (w.undoTo point.mark).store.nextVar = w.store.nextVar := Session.nextVar_undo _ w
    have hle : n₀ ≤ (w.undoTo point.mark).store.nextVar := hnext ▸ hs.le
    have hback : Running src.options (w.undoTo point.mark) := hs.running.undoTo point.mark
    -- undoing takes back bindings, not variables
    have hmade : ∀ p ∈ point :: points, ∀ g ∈ p.goal :: p.rest,
        g.compound.Within (w.undoTo point.mark).store.Born := fun p hp g hg =>
      within_born_mono (Nat.le_of_eq hnext.symm) (hs.points p hp g hg)
    obtain ⟨hpoint, hpoints⟩ := List.forall_mem_cons.mp hmade
    have hgoal := hpoint point.goal (List.mem_cons_self ..)
    have hlater : ∀ w' : Session A, (w.undoTo point.mark).store.nextVar ≤ w'.store.nextVar →
        ∀ p ∈ point.tried :: points, ∀ g ∈ p.goal :: p.rest,
          g.compound.Within w'.store.Born := fun w' hgrown =>
      List.forall_mem_cons.mpr ⟨fun g hg => within_born_mono hgrown (hpoint g hg),
        fun p hp g hg => within_born_mono hgrown (hpoints p hp g hg)⟩
    refine step_all_of_cons (fun m => ?_) (fun c w' m _ htry => ?_)
      (fun c w' body m _ htry => ?_)
    · exact ⟨hback, hle, hpoints⟩
    · obtain ⟨hext, hrun, -⟩ := hback.tryClause hgoal htry
      have hundone : (w'.undoTo point.mark).store.nextVar = w'.store.nextVar :=
        Session.nextVar_undo _ w'
      have hgrown : (w.undoTo point.mark).store.nextVar ≤ (w'.undoTo point.mark).store.nextVar := by
        rw [hundone]
        exact hext.nextVar_le
      exact ⟨hrun.undoTo point.mark, Nat.le_trans hle hgrown, hlater _ hgrown⟩
    · obtain ⟨hext, hrun, hbody⟩ := hback.tryClause hgoal htry
      have hgrown : (w.undoTo point.mark).store.nextVar ≤ w'.store.nextVar := hext.nextVar_le
      refine advance_grounded hc hscope _ ⟨hrun, Nat.le_trans hle hgrown, hlater w' hgrown⟩ ?_
      exact within_expanded hgrown (hbody body rfl)
        (fun g hg => hpoint g (List.mem_cons_of_mem _ hg)) _

/-- A query whose goals have been made touches no variable that has not been made. -/
theorem enumerate_inScope (hc : Faithful client.answer) (hscope : InScope n₀ client.answer)
    (n : Nat) {goals : List (Compound A)} (hgoals : ∀ g ∈ goals, g.Within fun x => x.id < n₀) :
    InScope n₀ (enumerate src client n goals) := by
  intro s m ending s' m' hle hs hscoped h
  cases goals with
  | nil =>
    rw [enumerate_nil] at h
    obtain ⟨⟨signal, s₁, m₁⟩, hanswer, he⟩ := Option.map_eq_some_iff.mp h
    rw [close_store he]
    exact hscope _ _ _ _ _ hle hs hscoped hanswer
  | cons g rest =>
    rw [enumerate_cons] at h
    obtain ⟨⟨halted, state⟩, hrun, he⟩ := Option.map_eq_some_iff.mp h
    have hmade : ∀ g' ∈ g :: rest, g'.Within s.Born := fun g' hg' =>
      (hgoals g' hg').mono fun _ hx => Nat.lt_of_lt_of_le hx hle
    have hend : Grounded src.options n₀ state := by
      refine run_all (step_grounded hc hscope) n
        ⟨running_start hs hscoped, hle, fun p hp => ?_⟩ hrun
      rw [List.mem_singleton.mp hp]
      exact within_query hmade
    rw [close_store he]
    exact (hend.running.undoTo 0).sound.inScope.store

end steps

end Search

/-- A client that runs a query at every match stays in scope, like the clients that it is
    made of. -/
theorem Client.asking_inScope [DecidableEq A] {n₀ : Nat} {c inner : Client A σ}
    (hc : InScope n₀ c.answer) (hfaithful : Faithful inner.answer)
    (hinner : InScope n₀ inner.answer) (p : Program A) (n : Nat) {goals : List (Compound A)}
    (hgoals : ∀ g ∈ goals, g.Within fun x => x.id < n₀) :
    InScope n₀ (c.asking inner p n goals).answer :=
  InScope.bind (p.enumerate_faithful hfaithful n goals)
    (Search.enumerate_inScope hfaithful hinner n hgoals) fun _ => hc

end Horn
