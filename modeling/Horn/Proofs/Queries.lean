import Horn.Proofs.Undo
import Horn.Search.Query

/-! # Queries leave the store as they found it

    A search binds and merges variables at every attempt, and takes its bindings
    back at many different places.  Whatever it did, the session of a running
    search *extends* the one it started from: undoing its trail to the beginning
    brings every variable back to the class it was in.

    * `advance_all_of`: all that going on with the next goals can come to.
    * `step_all`, `run_all`: one step extends the start, and so does a whole run.
    * A function of the store *is faithful* if it leaves every store as it found
      it.  Clients may do what they like as long as they are faithful; then
      queries are faithful in turn, so clients may run queries to any depth. -/

namespace Horn

universe u v w

variable {A : Type u} {σ : Type v}

/-! ## Leaving a store as it was found -/

/-- Every variable made before is in the class it was in; every class made before
    holds what it held and lists the variables it listed. -/
structure Store.AsFound (s s' : Store A) : Prop where
  kept : s.Kept s'
  consistent : s'.Consistent
  mem_members : ∀ c x, s.Born x → (x ∈ s'.members c ↔ x ∈ s.members c)

theorem Store.AsFound.of_kept {s s' : Store A} (hs : s.Consistent) (h : s.Kept s')
    (hs' : s'.Consistent) : s.AsFound s' :=
  ⟨h, hs', fun c _ hx => h.mem_members hs hs' c hx⟩

theorem Store.AsFound.refl {s : Store A} (hs : s.Consistent) : s.AsFound s :=
  .of_kept hs (.refl s) hs

theorem Store.AsFound.trans {s₁ s₂ s₃ : Store A} (hs : s₁.Consistent) (h₁ : s₁.AsFound s₂)
    (h₂ : s₂.AsFound s₃) : s₁.AsFound s₃ :=
  .of_kept hs (h₁.kept.trans h₂.kept) h₂.consistent

/-- A function that reads a store and returns it, perhaps with new variables and
    classes, leaves every store as it found it.  What it does in between is its own
    business. -/
def Faithful {β : Type w} (look : Store A → σ → Option (β × Store A × σ)) : Prop :=
  ∀ s m b s' m', s.Consistent → look s m = some (b, s', m') → s.AsFound s'

/-- One faithful function after another is faithful. -/
theorem Faithful.bind {β γ : Type w} {look : Store A → σ → Option (β × Store A × σ)}
    {next : β → Store A → σ → Option (γ × Store A × σ)} (hlook : Faithful look)
    (hnext : ∀ b, Faithful (next b)) :
    Faithful fun s m => (look s m).bind fun (b, s, m) => next b s m := by
  intro s m c s' m' hs h
  obtain ⟨⟨b, s₁, m₁⟩, h₁, h₂⟩ := Option.bind_eq_some_iff.mp h
  have hfound : s.AsFound s₁ := hlook s m b s₁ m₁ hs h₁
  exact hfound.trans hs (hnext b s₁ m₁ c s' m' hfound.consistent h₂)

namespace Search

/-! ## A search in progress -/

/-- A consistent session that extends `w₀`. -/
structure Underway (w₀ w : Session A) : Prop where
  mark : w₀.mark = 0
  since : w₀.Extends w
  consistent : w.Consistent

variable {w₀ : Session A}

theorem Underway.stable (w₀ : Session A) :
    Session.Stable (fun _ => True) (Underway w₀) (Underway w₀) :=
  .everywhere
    (fun w cs value h =>
      ⟨h.mark, h.since.trans (.gather w cs value), h.consistent.gather cs value⟩)
    (fun v _ hv hw =>
      ⟨hw.mark, hw.since.undoTo hv.since.mark_le, hw.consistent.undoTo v.mark⟩)

theorem Underway.undoTo {w : Session A} (h : Underway w₀ w) (mark : Nat) :
    Underway w₀ (w.undoTo mark) where
  mark := h.mark
  since := h.since.undoTo (by rw [h.mark]; exact Nat.zero_le mark)
  consistent := h.consistent.undoTo mark

/-- A search goes on with any store that is left as it was found. -/
theorem Underway.asFound {s s' : Store A} {t : Trail} (h : Underway w₀ ⟨s, t⟩)
    (hs : s.AsFound s') : Underway w₀ ⟨s', t⟩ where
  mark := h.mark
  since := h.since.trans (.of_kept ⟨rfl, hs.kept⟩)
  consistent := ⟨hs.consistent, fun m hm => (h.consistent.trail m hm).mono hs.kept.nextJoint_le⟩

theorem Underway.setNextVar {s : Store A} {t : Trail} (h : Underway w₀ ⟨s, t⟩) {n : Nat}
    (hn : s.nextVar ≤ n) : Underway w₀ ⟨{ s with nextVar := n }, t⟩ :=
  h.asFound (.of_kept h.consistent.store (.setNextVar s hn) (h.consistent.store.setNextVar n))

/-! ## Steps and runs -/

/-- The state that a step leads to, if it leads to one, has property `P`. -/
def Step.All (P : State A σ → Prop) : Step A σ → Prop
  | .next s => P s
  | .done _ s => P s
  | .cutOff => True

theorem Step.All.imp {P Q : State A σ → Prop} (h : ∀ t, P t → Q t) {r : Step A σ}
    (hr : r.All P) : r.All Q := by
  cases r with
  | next s => exact h s hr
  | done halted s => exact h s hr
  | cutOff => trivial

variable {src : Source A} {client : Client A σ}

/-- All that going on with the next goals can come to: without any the client is told of a
    match, and else the first lies too deep or gets a choice point. -/
theorem advance_all_of {P : State A σ → Prop} {depth : Nat} {goals : List (Goal A)}
    {w : Session A} {points : List (ChoicePoint A)} {found : Nat} {memory : σ}
    (matched : ∀ signal s' m', client.answer w.store memory = some (signal, s', m') →
      ∀ m, P ⟨⟨s', w.trail⟩, points, found + 1, m⟩)
    (pruned : ∀ m, P ⟨w, points, found, m⟩)
    (opened : ∀ g rest, goals = g :: rest → tooDeep src.options g.depth = false →
      P ⟨w, .start src g rest w.mark :: points, found, memory⟩) :
    (advance src client depth goals ⟨w, points, found, memory⟩).All P := by
  obtain ⟨store, trail⟩ := w
  cases goals with
  | nil =>
    unfold advance
    simp only
    split
    · trivial
    · next hr => exact matched _ _ _ hr _
    · next hr => exact matched _ _ _ hr _
  | cons g rest =>
    unfold advance
    simp only
    split
    · exact pruned _
    · next hdeep => exact opened g rest rfl (Bool.eq_false_iff.mpr hdeep)

theorem advance_all (hc : Faithful client.answer) (depth : Nat) (goals : List (Goal A))
    {s : State A σ} (hs : Underway w₀ s.session) :
    (advance src client depth goals s).All fun s => Underway w₀ s.session := by
  refine advance_all_of (fun _ _ _ hr _ => ?_) (fun _ => hs) fun _ _ _ _ => hs
  exact hs.asFound (hc _ _ _ _ _ hs.consistent.store hr)

theorem close_store {halted : Bool} {found : Nat} {s s' : Store A} {m m' : σ} {ending : Ending}
    (h : close client halted found s m = (ending, s', m')) : s' = s := by
  cases h
  rfl

theorem isStopped_close (halted : Bool) (found : Nat) (s : Store A) (m : σ) :
    (close client halted found s m).1.isStopped = halted := by
  cases halted <;> rfl

variable [DecidableEq A]

theorem attempt_all (hc : Faithful client.answer) (n : Nat) (point : ChoicePoint A)
    (c : Clause A) {s : State A σ} (hs : Underway w₀ s.session) :
    (attempt src client n point c s).All fun s => Underway w₀ s.session := by
  obtain ⟨⟨store, trail⟩, points, found, memory⟩ := s
  unfold attempt
  simp only
  split
  · trivial
  · next head r store₁ hhead =>
    -- copying the head does nothing but make variables
    obtain ⟨m, hm, rfl⟩ := Store.copyCompound_store hhead
    have hw := hs.setNextVar hm
    have hu := unify_keeps (Underway.stable w₀) n point.goal.compound.toTerm head.toTerm hw
    split
    · trivial
    · next e w heq =>
      rw [heq] at hu
      -- a clash: the search goes back to the mark of the choice point
      exact Underway.undoTo hu point.mark
    · next w heq =>
      rw [heq] at hu
      split
      · trivial
      · next body r' store₂ hbody =>
        -- nor does copying the body
        obtain ⟨m', hm', rfl⟩ := Store.copyCompounds_store hbody
        exact advance_all hc _ _ (Underway.setNextVar hu hm')

/-- A step of a search extends the session that the search started from. -/
theorem step_all (hc : Faithful client.answer) (n : Nat) {s : State A σ}
    (hs : Underway w₀ s.session) :
    (step src client n s).All fun s => Underway w₀ s.session := by
  obtain ⟨w, points, found, memory⟩ := s
  cases points with
  | nil => exact hs
  | cons point points =>
    -- whatever the step does, it first goes back to the mark of the choice point
    have hundo : Underway w₀ (w.undoTo point.mark) := Underway.undoTo hs point.mark
    unfold step
    simp only
    split
    · exact hundo
    · exact attempt_all hc n point _ hundo

/-- What every step keeps, a whole run keeps. -/
theorem run_all {P : State A σ → Prop} (hstep : ∀ n s, P s → (step src client n s).All P) (n : Nat)
    {s s' : State A σ} {halted : Bool} (hs : P s) (h : run src client n s = some (halted, s')) :
    P s' := by
  induction n generalizing s with
  | zero => cases h
  | succ n ih =>
    -- the first step keeps the property, and the rest of the run goes on with it
    have hnext : (step src client n s).All P := hstep n s hs
    rw [run] at h
    split at h
    · cases h
    · next halted s₁ heq =>
      rw [heq] at hnext
      cases h
      exact hnext
    · next s₁ heq =>
      rw [heq] at hnext
      exact ih hnext h

/-! ## Queries -/

/-- Enumerating the matches of some goals leaves the store as it was found. -/
theorem enumerate_faithful (hc : Faithful client.answer) (n : Nat) (goals : List (Compound A)) :
    Faithful (enumerate src client n goals) := by
  intro s m ending s' m' hs h
  unfold enumerate at h
  simp only at h
  split at h
  · split at h
    · cases h
    · next signal s₁ m₁ heq =>
      rw [close_store (Option.some.inj h)]
      exact hc _ _ _ _ _ hs heq
  · next g rest =>
    split at h
    · cases h
    · next halted w points found m₁ hrun =>
      -- the trail was empty at the start, so the last undoing takes back all there is on it
      let w₀ : Session A := ⟨s, .start src.options.occursCheck⟩
      have hstart : Underway w₀ w₀ := ⟨rfl, .refl w₀, Session.consistent_start hs _⟩
      have hend : Underway w₀ w :=
        run_all (P := fun s => Underway w₀ s.session) (fun n _ => step_all hc n) n hstart hrun
      have hkept : w₀.Kept (w.undoTo w₀.mark) := hend.since.kept
      rw [close_store (Option.some.inj h)]
      exact .of_kept hs hkept.store (hend.consistent.undoTo 0).store

end Search

namespace Program

variable [DecidableEq A] (p : Program A)

theorem enumerate_faithful {client : Client A σ} (hc : Faithful client.answer) (n : Nat)
    (goals : List (Compound A)) : Faithful (p.enumerate client n goals) :=
  Search.enumerate_faithful hc n goals

theorem ask_faithful (note : Store A → Event A → σ → σ) (n : Nat) (goals : List (Compound A)) :
    Faithful (p.ask note n goals) := by
  intro s m b s' m' hs h
  obtain ⟨⟨ending, s₁, m₁⟩, h₁, he⟩ := Option.map_eq_some_iff.mp h
  cases he
  refine p.enumerate_faithful ?_ n goals s m ending s' m' hs h₁
  -- a client that only answers does nothing to the store
  intro s m signal s' m' hs h
  cases h
  exact .refl hs

theorem findAll_faithful {β : Type w} (note : Store A → Event A → σ → σ)
    {extract : Store A → σ → Option (β × Store A × σ)} (hx : Faithful extract) (n : Nat)
    (goals : List (Compound A)) : Faithful (p.findAll note extract n goals) := by
  intro s m found s' m' hs h
  obtain ⟨⟨ending, s₁, m₁, found₁⟩, h₁, he⟩ := Option.map_eq_some_iff.mp h
  cases he
  refine p.enumerate_faithful ?_ n goals s (m, []) ending s' (m', found₁) hs h₁
  -- at each match the client does to the store what `extract` does
  intro s m signal s' m' hs h
  obtain ⟨⟨b, s₂, m₂⟩, h₂, he⟩ := Option.map_eq_some_iff.mp h
  cases he
  exact hx s m.1 b s' m₂ hs h₂

end Program

/-- A client that at every match first has the matches of `goals` in `p` reported to
    `inner`, and then answers as `c` does. -/
def Client.asking [DecidableEq A] (c inner : Client A σ) (p : Program A) (n : Nat)
    (goals : List (Compound A)) : Client A σ where
  note := c.note
  answer s m := (p.enumerate inner n goals s m).bind fun (_, s, m) => c.answer s m

/-- **Queries leave the store as they found it**, with any program, any options and
    any goals.  Whenever `enumerate`, `ask` or `findAll` returns, stopped or not, every
    variable made before the call is in the class it was in, and every class holds
    what it held and lists just those of the old variables that it listed.  What is
    asked of a client is no more than what a query does itself, so clients may run
    queries at every match, to any depth. -/
theorem queries_leave_store_as_found [DecidableEq A] (p : Program A) (n : Nat)
    (goals : List (Compound A)) :
    (∀ client : Client A σ, Faithful client.answer → Faithful (p.enumerate client n goals)) ∧
    (∀ note : Store A → Event A → σ → σ, Faithful (p.ask note n goals)) ∧
    (∀ (β : Type w) (note : Store A → Event A → σ → σ)
        (extract : Store A → σ → Option (β × Store A × σ)),
      Faithful extract → Faithful (p.findAll note extract n goals)) ∧
    (∀ client inner : Client A σ, Faithful client.answer → Faithful inner.answer →
      Faithful (client.asking inner p n goals).answer) := by
  refine ⟨fun client hc => p.enumerate_faithful hc n goals, fun note => p.ask_faithful note n goals,
    fun _ note extract hx => p.findAll_faithful note hx n goals, fun client inner hc hi => ?_⟩
  -- a client that asks leaves the store to the query first, and then to itself
  exact (p.enumerate_faithful hi n goals).bind fun _ => hc

/-! ### A query inside a query -/

/-- `0(1).  0(2).  3(X) if 0(X).` -/
def evens : Program Nat :=
  .ofList [.fact ⟨0, [.app 1 []]⟩, .fact ⟨0, [.app 2 []]⟩,
    ⟨⟨3, [.var ⟨0⟩]⟩, [⟨0, [.var ⟨0⟩]⟩]⟩] ⟨true, some 2⟩

/-- Stops at the first match. -/
def atOnce : Client Nat Unit := ⟨fun _ _ _ => (), fun s _ => some (.halt, s, ())⟩

/-- The outer query for `3(Y)` is stopped at its first match, at which `0(Y)` has been
    asked; afterwards the store is as it was found. -/
theorem nested_query_leaves_store_as_found :
    ∃ s', evens.enumerate (atOnce.asking atOnce evens 20 [⟨0, [.var ⟨1⟩]⟩]) 20
        [⟨3, [.var ⟨1⟩]⟩] (Store.empty.freshMany 2).2 () = some (.stopped 1, s', ()) ∧
      (Store.empty.freshMany 2).2.AsFound s' := by
  -- only the ending can be computed and compared; the store comes with it
  have hrun : (evens.enumerate (atOnce.asking atOnce evens 20 [⟨0, [.var ⟨1⟩]⟩]) 20
      [⟨3, [.var ⟨1⟩]⟩] (Store.empty.freshMany 2).2 ()).map (·.1) = some (.stopped 1) := by
    decide
  obtain ⟨⟨ending, s', m'⟩, h, he⟩ := Option.map_eq_some_iff.mp hrun
  cases he
  have hstart : ((Store.empty : Store Nat).freshMany 2).2.Consistent :=
    Store.consistent_empty.fresh.fresh
  have honce : Faithful atOnce.answer := by
    intro s m b s' m' hs h
    cases h
    exact .refl hs
  have hasking := (queries_leave_store_as_found.{0, 0, 0} evens 20 [⟨0, [.var ⟨1⟩]⟩]).2.2.2
    atOnce atOnce honce honce
  exact ⟨s', h, (queries_leave_store_as_found.{0, 0, 0} evens 20 [⟨3, [.var ⟨1⟩]⟩]).1 _ hasking
    _ _ _ _ _ hstart h⟩

end Horn
