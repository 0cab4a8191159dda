import Horn.Proofs.Answers
import Horn.Proofs.Levels

/-! # More levels change no search

    A step of a search says so when the number of levels was too small for it, and a run
    when that of steps was.  Every other answer they give is also the answer with any
    larger number: a query that returns returns the same at all levels that are large
    enough. -/

namespace Horn

universe u v w

variable {A : Type u} {σ : Type v}

namespace Search

/-- The second step leads where the first does, unless the first was cut off. -/
def Step.Settles (r r' : Step A σ) : Prop := r ≠ .cutOff → r' = r

variable [DecidableEq A] (src : Source A) (client : Client A σ)

theorem attempt_settles (n : Nat) (point : ChoicePoint A) (c : Clause A) (s : State A σ) :
    (attempt src client n point c s).Settles (attempt src client (n + 1) point c s) := by
  obtain ⟨⟨store, trail⟩, points, found, memory⟩ := s
  intro h
  unfold attempt at h ⊢
  simp only at h ⊢
  -- only a copy or a unification that was cut off may end otherwise
  cases hhead : store.copyCompound n c.head .empty with
  | none =>
    rw [hhead] at h
    exact absurd rfl h
  | some q =>
    obtain ⟨head, r, store'⟩ := q
    rw [store.copyCompound_succ hhead]
    rw [hhead] at h
    simp only at h ⊢
    have hsettles := unify_settles n point.goal.compound.toTerm head.toTerm ⟨store', trail⟩
    cases hu : unify n point.goal.compound.toTerm head.toTerm ⟨store', trail⟩ with
    | cutOff =>
      rw [hu] at h
      exact absurd rfl h
    | failure e w => rw [hsettles (by rw [hu]; exact nofun), hu]
    | success w =>
      rw [hsettles (by rw [hu]; exact nofun), hu]
      rw [hu] at h
      simp only at h ⊢
      cases hbody : w.store.copyCompounds n c.body r with
      | none =>
        rw [hbody] at h
        exact absurd rfl h
      | some b => rw [w.store.copyCompounds_succ hbody]

theorem step_settles (n : Nat) (s : State A σ) :
    (step src client n s).Settles (step src client (n + 1) s) := by
  obtain ⟨w, points, found, memory⟩ := s
  cases points with
  | nil => exact fun _ => rfl
  | cons point points =>
    unfold step
    simp only
    split
    · exact fun _ => rfl
    · exact attempt_settles src client n point _ _

variable {src client}

theorem run_one_more {n : Nat} {s : State A σ} {r : Bool × State A σ}
    (h : run src client n s = some r) : run src client (n + 1) s = some r := by
  induction n generalizing s with
  | zero => cases h
  | succ n ih =>
    rw [run] at h ⊢
    have hsettles := step_settles src client n s
    cases hstep : step src client n s with
    | cutOff =>
      rw [hstep] at h
      cases h
    | done halted s' =>
      rw [hstep] at h
      rw [hsettles (by simp [hstep]), hstep]
      exact h
    | next s' =>
      rw [hstep] at h
      rw [hsettles (by simp [hstep]), hstep]
      exact ih h

theorem run_mono {n m : Nat} (hnm : n ≤ m) {s : State A σ} {r : Bool × State A σ}
    (h : run src client n s = some r) : run src client m s = some r :=
  answer_mono (f := fun n => run src client n s) (fun _ _ => run_one_more) hnm h

/-- A query that returns returns the same with more levels. -/
theorem enumerate_mono {n m : Nat} (hnm : n ≤ m) {goals : List (Compound A)} {s : Store A}
    {memory : σ} {r : Ending × Store A × σ}
    (h : enumerate src client n goals s memory = some r) :
    enumerate src client m goals s memory = some r := by
  cases goals with
  | nil => exact h
  | cons g rest =>
    rw [enumerate_cons] at h ⊢
    obtain ⟨q, hq, rfl⟩ := Option.map_eq_some_iff.mp h
    rw [run_mono hnm hq]
    rfl

end Search

variable [DecidableEq A] {p : Program A}

theorem Program.ask_mono {n m : Nat} (hnm : n ≤ m) {note : Store A → Event A → σ → σ}
    {goals : List (Compound A)} {s : Store A} {memory : σ} {r : Bool × Store A × σ}
    (h : p.ask note n goals s memory = some r) : p.ask note m goals s memory = some r := by
  obtain ⟨q, hq, rfl⟩ := Option.map_eq_some_iff.mp h
  exact Option.map_eq_some_iff.mpr ⟨q, Search.enumerate_mono hnm hq, rfl⟩

end Horn
