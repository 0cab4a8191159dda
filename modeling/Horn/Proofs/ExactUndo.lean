import Horn.Proofs.Readings
import Horn.Proofs.World

/-! # Undoing is exact

    However often variables have been moved since a mark, by merges of whole classes, by
    unifications that failed half way and were taken back, and by undoing to later marks,
    undoing to the mark itself brings everything back.

    The session that a run of calls leaves *extends* the one it started from, and that
    for whatever number one takes as the number of variables made at the start.  So also
    the variables that were made on the way are found where they were before they were
    made: alone.

    * `Call.run_extends`, `perform_extends`: one call extends the start, and so does a run.
    * `Session.BackTo`: trail, classes and values are as they were, and so is all that can
      be read.

    Main statement: `undo_exact`. -/

namespace Horn

universe u

variable {A : Type u}

/-! ## Runs -/

/-- The call does not undo anything below `mark`. -/
def Call.Spares (mark : Nat) : Call A → Prop
  | undoTo k => mark ≤ k
  | _ => True

namespace Session

variable {w₀ w : Session A}

/-- `w` extends `w₀`, whatever number of variables one takes as made in `w₀`. -/
def ExtendsAll (w₀ w : Session A) : Prop := ∀ m, (w₀.setNext m).Extends (w.setNext m)

theorem undoTo_setNext (m : Nat) (w : Session A) (mark : Nat) :
    (w.setNext m).undoTo mark = (w.undoTo mark).setNext m :=
  w.undo_setNext m _

theorem ExtendsAll.undoTo (h : w₀.ExtendsAll w) {mark : Nat} (hmark : w₀.mark ≤ mark) :
    w₀.ExtendsAll (w.undoTo mark) := by
  intro m
  rw [← undoTo_setNext]
  exact (h m).undoTo hmark

theorem stable_extendsAll (w₀ : Session A) :
    Stable (fun _ => True) w₀.ExtendsAll w₀.ExtendsAll := by
  refine .everywhere (fun w cs value h m => ?_) (fun v w hv hw => hw.undoTo (hv 0).mark_le)
  rw [← gather_setNext]
  exact (h m).trans (.gather _ cs value)

/-- Whatever is gathered and undone, a session stays consistent. -/
theorem stable_consistent : Stable (fun _ => True) (Consistent (A := A)) Consistent :=
  .everywhere (fun _ cs value hw => hw.gather cs value) fun v _ _ hw => hw.undoTo v.mark

/-- Undoing to the mark of `w₀` brings back its trail and keeps its store, whatever number
    of variables one takes as made in it. -/
theorem ExtendsAll.kept (h : w₀.ExtendsAll w) (m : Nat) :
    (w₀.setNext m).Kept ((w.undoTo w₀.mark).setNext m) := by
  rw [← undoTo_setNext]
  exact (h m).kept

/-- Any variable may be taken as made, so all of them are where they were. -/
theorem ExtendsAll.classOf_undoTo (h : w₀.ExtendsAll w) (x : Var) :
    (w.undoTo w₀.mark).store.classOf x = w₀.store.classOf x :=
  (h.kept (x.id + 1)).store.classOf x (Nat.lt_succ_self x.id)

theorem ExtendsAll.valueOf_undoTo (h : w₀.ExtendsAll w) {c : ClassId}
    (hc : c.Made w₀.store.nextJoint) :
    (w.undoTo w₀.mark).store.valueOf c = w₀.store.valueOf c := by
  have hkept := (h.kept 0).store.valueOf c hc
  rwa [setNext, setNext, Store.valueOf_setNext, Store.valueOf_setNext] at hkept

theorem ExtendsAll.value_undoTo (h : w₀.ExtendsAll w) (hs : w₀.store.Consistent) (x : Var) :
    (w.undoTo w₀.mark).store.value x = w₀.store.value x := by
  rw [Store.value, h.classOf_undoTo, h.valueOf_undoTo (hs.made x)]
  rfl

end Session

/-- Where all variables are in the same classes, these have the same members. -/
theorem Store.Consistent.members_perm {s s' : Store A} (hs : s.Consistent) (hs' : s'.Consistent)
    (hclass : ∀ x, s'.classOf x = s.classOf x) (c : ClassId) :
    (s'.members c).Perm (s.members c) := by
  rw [List.perm_ext_iff_of_nodup (hs'.nodup c) (hs.nodup c)]
  intro x
  rw [hs'.mem_members, hs.mem_members, hclass]

section calls

variable [DecidableEq A]

/-- A call that undoes nothing of before extends the start. -/
theorem Call.run_extends {w₀ w w' : Session A} {c : Call A} (hc : c.Spares w₀.mark)
    (h : c.run w = some w') (hw : w₀.ExtendsAll w) : w₀.ExtendsAll w' := by
  refine run_keeps (Session.stable_extendsAll w₀) (fun v n _ hv m => hv m) c.within_true ?_ h hw
  intro mark hundo v hv
  subst hundo
  exact hv.undoTo hc

/-- A call keeps a session consistent. -/
theorem Call.run_consistent {w w' : Session A} {c : Call A} (h : c.run w = some w')
    (hw : w.Consistent) : w'.Consistent := by
  refine run_keeps Session.stable_consistent (fun v n _ hv => ?_) c.within_true ?_ h hw
  · exact ⟨hv.store.setNextVar n, hv.trail⟩
  · intro mark _ v hv
    exact hv.undoTo mark

namespace Session

variable {w₀ w : Session A}

/-- The session that calls lead to, one after the other; `none` if one of them would
    have to descend too far. -/
def perform (w : Session A) (calls : List (Call A)) : Option (Session A) :=
  calls.foldlM (fun w c => c.run w) w

/-- What every call keeps, a run keeps. -/
theorem perform_keeps {P : Session A → Prop} {calls : List (Call A)}
    (step : ∀ c ∈ calls, ∀ v v', c.run v = some v' → P v → P v') {w w' : Session A}
    (h : w.perform calls = some w') (hw : P w) : P w' := by
  induction calls generalizing w with
  | nil =>
    cases h
    exact hw
  | cons c calls ih =>
    obtain ⟨v, hv, hrest⟩ := Option.bind_eq_some_iff.mp h
    refine ih (fun c' hc' => step c' (List.mem_cons_of_mem _ hc')) hrest ?_
    exact step c (List.mem_cons_self ..) w v hv hw

/-- A run that undoes nothing of before extends the start. -/
theorem perform_extends {calls : List (Call A)} (hcalls : ∀ c ∈ calls, c.Spares w₀.mark)
    (h : w₀.perform calls = some w) : w₀.ExtendsAll w :=
  perform_keeps (fun c hc _ _ hrun hv => Call.run_extends (hcalls c hc) hrun hv) h
    fun _ => .refl _

theorem perform_consistent {calls : List (Call A)} (h : w₀.perform calls = some w)
    (hw : w₀.Consistent) : w.Consistent :=
  perform_keeps (fun _ _ _ _ hrun hv => Call.run_consistent hrun hv) h hw

/-! ## Back at the mark -/

/-- The trail is that of `w₀`, every variable and every class made by then is as it was,
    and the variables made since are as they were born. -/
structure BackTo (w₀ v : Session A) : Prop where
  trail : v.trail = w₀.trail
  classOf : ∀ x, w₀.store.Born x → v.store.classOf x = w₀.store.classOf x
  members : ∀ c, (v.store.members c).Perm (w₀.store.members c)
  valueOf : ∀ c : ClassId, c.Made w₀.store.nextJoint → v.store.valueOf c = w₀.store.valueOf c
  unborn : ∀ x, ¬ w₀.store.Born x →
    v.store.classOf x = .own x ∧ v.store.members (.own x) = [x] ∧ v.store.value x = none
  reads : w₀.store.ReadsAlike v.store

theorem ExtendsAll.backTo (h : w₀.ExtendsAll w) (hw₀ : w₀.Sound w₀.store.nextVar)
    (hw : w.Consistent) : w₀.BackTo (w.undoTo w₀.mark) := by
  have hstore := hw₀.consistent.store
  have hback := (hw.undoTo w₀.mark).store
  have hclass := h.classOf_undoTo
  have hvalue := h.value_undoTo hstore
  refine ⟨(h.kept 0).trail, fun x _ => hclass x, hstore.members_perm hback hclass,
    fun _ hc => h.valueOf_undoTo hc, fun x hx => ?_, .of_classes hclass hvalue⟩
  · have hle : w₀.store.nextVar ≤ x.id := Nat.le_of_not_lt hx
    have hown : w₀.store.classOf x = .own x := hw₀.inScope.store.unborn x hle
    refine ⟨(hclass x).trans hown, ?_, ?_⟩
    · -- nobody else can be in the class of a variable that had not been made
      refine List.perm_singleton.mp ?_
      rw [List.perm_ext_iff_of_nodup (hback.nodup _) (List.nodup_singleton x)]
      intro y
      rw [hback.mem_members, hclass, List.mem_singleton, ← hown]
      exact ⟨fun hy => hw₀.inScope.store.eq_of_classOf_eq hle hy, fun hy => by rw [hy]⟩
    · rw [hvalue]
      exact hw₀.inScope.store.value_unborn hle

end Session

/-- **Undoing is exact.**  Take any sound session, as any store and trail of a reachable
    world are (`World.Reachable.sound`), and let any calls be made in it, on whatever
    variables, that succeed or fail and undo nothing of before.  Undoing to the mark from
    which they started brings the trail and every class back, leaves the variables made
    since alone and without a value, and all that can be asked of the store is answered
    as it was. -/
theorem undo_exact {w₀ w : Session A} (hw₀ : w₀.Sound w₀.store.nextVar) {calls : List (Call A)}
    (hcalls : ∀ c ∈ calls, c.Spares w₀.mark) (hrun : w₀.perform calls = some w) :
    w₀.BackTo (w.undoTo w₀.mark) := by
  have hextends : w₀.ExtendsAll w := Session.perform_extends hcalls hrun
  have hw : w.Consistent := Session.perform_consistent hrun hw₀.consistent
  exact hextends.backTo hw₀ hw

end calls

/-- From a mark at which two variables are bound together, their class is given a value
    over a new variable, and the new variable is given one, which is undone; then a
    unification fails.  All this is undone. -/
theorem bindings_undone :
    ∃ w₀ w : Session Nat, w₀.mark = 2 ∧
      w₀.perform [.create, .resolve 5 ⟨0⟩ ⟨7, [.var ⟨2⟩]⟩, .unify 5 (.var ⟨1⟩) (.app 7 [.app 8 []]),
        .undoTo 4, .unify 5 (.var ⟨1⟩) (.app 9 [])] = some w ∧
      w.mark = 4 ∧ w₀.BackTo (w.undoTo 2) := by
  have h₀ : World.Reachable (.empty : World Nat) := .init
  have h₁ := h₀.step (.openTrail true) trivial rfl
  have h₂ := h₁.step (.call 0 .create) trivial rfl
  have h₃ := h₂.step (.call 0 .create) trivial rfl
  have h₄ := h₃.step (.call 0 (.bind 1 ⟨0⟩ ⟨1⟩)) ⟨Nat.zero_lt_two, Nat.one_lt_two⟩ rfl
  have hsound := h₄.sound.session (List.mem_singleton_self _)
  have hspares : ∀ c ∈ ([.create, .resolve 5 ⟨0⟩ ⟨7, [.var ⟨2⟩]⟩,
      .unify 5 (.var ⟨1⟩) (.app 7 [.app 8 []]), .undoTo 4, .unify 5 (.var ⟨1⟩) (.app 9 [])] :
        List (Call Nat)), c.Spares 2 := by
    simp [Call.Spares]
  have hback := undo_exact hsound hspares rfl
  refine ⟨_, _, ?_, ?_, ?_, hback⟩
  · rfl
  · rfl
  · rfl

end Horn
