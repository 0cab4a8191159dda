import Horn.Proofs.Scope
import Mathlib.Logic.Relation

/-! # Whatever is done to a store

    A program works on one store.  It makes variables, copies terms, and gives values
    and merges classes along one of several trails; it undoes any trail to any mark;
    and it takes snapshots of variables and restores any of them on any variable.

    * `Call`: what is done to a session.  `run_keeps`: what single changes keep, a call
      keeps, whether it succeeds or fails.
    * `World`, `Act`: a store, the trails that are written and the snapshots that have
      been taken; and what is done to them.  `Act.exists_of_run_call` and
      `Act.exists_of_run_restore` tell what that comes to.
    * `Reachable`: the worlds that acts lead to from nothing, each on variables made
      before.
    * `Run`: what acts of some kind lead to from a world.  `Run.keeps`: what each of them
      keeps, a run keeps.

    Main statement: `Reachable.sound`, in a reachable world the store is consistent, and
    it is scoped to the variables made so far with whatever trail is written. -/

namespace Horn

universe u

variable {A : Type u}

/-! ## Calls -/

/-- What is done to a session. -/
inductive Call (A : Type u) where
  | create
  /-- Asks a renaming for the variable that stands for the class of `x`. -/
  | rename (x : Var) (r : Renaming)
  | copy (n : Nat) (t : Term A) (r : Renaming)
  | copyCompound (n : Nat) (c : Compound A) (r : Renaming)
  | resolve (n : Nat) (x : Var) (c : Compound A)
  | bind (n : Nat) (x y : Var)
  | unify (n : Nat) (t u : Term A)
  | undoTo (mark : Nat)

/-- The session that an attempt leaves, be it a success or a failure. -/
def Outcome.session : Outcome A → Option (Session A)
  | success w => some w
  | failure _ w => some w
  | cutOff => none

theorem Outcome.Ends.of_session {P : Session A → Prop} {o : Outcome A} (h : o.Ends P P)
    {w : Session A} (hw : o.session = some w) : P w := by
  cases o with
  | success v =>
    cases hw
    exact h
  | failure e v =>
    cases hw
    exact h
  | cutOff => cases hw

namespace Call

/-- All variables that the call is to change are in `L`. -/
def Within (L : Var → Prop) : Call A → Prop
  | resolve _ x c => L x ∧ c.Within L
  | bind _ x y => L x ∧ L y
  | unify _ t u => t.Within L ∧ u.Within L
  | _ => True

theorem within_true (c : Call A) : c.Within fun _ => True := by
  cases c with
  | resolve => exact ⟨trivial, fun _ _ => trivial⟩
  | bind => exact ⟨trivial, trivial⟩
  | unify => exact ⟨fun _ _ => trivial, fun _ _ => trivial⟩
  | _ => trivial

theorem Within.mono {L L' : Var → Prop} (hL : ∀ x, L x → L' x) {c : Call A} (h : c.Within L) :
    c.Within L' := by
  cases c with
  | resolve => exact ⟨hL _ h.1, h.2.mono hL⟩
  | bind => exact ⟨hL _ h.1, hL _ h.2⟩
  | unify => exact ⟨h.1.mono hL, h.2.mono hL⟩
  | _ => trivial

variable [DecidableEq A]

/-- The session after the call; `none` if that would have to descend too far. -/
def run : Call A → Session A → Option (Session A)
  | create, w => some ⟨w.store.fresh.2, w.trail⟩
  | rename x r, w => some ⟨(w.store.rename x r).2.2, w.trail⟩
  | copy n t r, w => (w.store.copy n t r).map fun (_, _, s) => ⟨s, w.trail⟩
  | copyCompound n c r, w => (w.store.copyCompound n c r).map fun (_, _, s) => ⟨s, w.trail⟩
  | resolve n x c, w => (w.resolve n x c).session
  | bind n x y, w => (w.bind n x y).session
  | unify n t u, w => (Horn.unify n t u w).session
  | undoTo mark, w => some (w.undoTo mark)

/-- What unification of terms in `L`, new variables and undoing keep, calls do. -/
theorem run_keeps_of_unify {L : Var → Prop} {P : Session A → Prop}
    (hunify : ∀ n t u v, t.Within L → u.Within L → P v → (Horn.unify n t u v).Ends P P)
    (hmade : ∀ v n, v.store.nextVar ≤ n → P v → P (v.setNext n)) {c : Call A} (hc : c.Within L)
    (hundo : ∀ mark, c = undoTo mark → ∀ v, P v → P (v.undoTo mark)) {w w' : Session A}
    (h : c.run w = some w') (hw : P w) : P w' := by
  have hvar : ∀ {x : Var}, L x → (Term.var x : Term A).Within L := by
    intro x hx y hy
    rw [Term.mentions_var.mp hy]
    exact hx
  cases c with
  | create =>
    cases h
    exact hmade w _ (Nat.le_succ _) hw
  | rename x r =>
    cases h
    exact hmade w _ (Copying.nextVar_rename_le ⟨r, w.store.nextVar⟩ (w.store.classOf x)) hw
  | copy n t r =>
    obtain ⟨_, hcopy, rfl⟩ := Option.map_eq_some_iff.mp h
    obtain ⟨q, hq, rfl⟩ := Option.map_eq_some_iff.mp hcopy
    exact hmade w _ (w.store.copyTerm_nextVar_le n hq) hw
  | copyCompound n c r =>
    obtain ⟨⟨_, _, s⟩, hcopy, rfl⟩ := Option.map_eq_some_iff.mp h
    obtain ⟨m, hm, rfl⟩ := Store.copyCompound_store hcopy
    exact hmade w m hm hw
  -- to give a variable a value or to bind two is to unify them as terms
  | resolve n x c => exact (hunify (n + 1) (.var x) c.toTerm w (hvar hc.1) hc.2 hw).of_session h
  | bind n x y => exact (hunify (n + 1) (.var x) (.var y) w (hvar hc.1) (hvar hc.2) hw).of_session h
  | unify n t u => exact (hunify n t u w hc.1 hc.2 hw).of_session h
  | undoTo mark =>
    cases h
    exact hundo mark rfl w hw

/-- What single changes to variables in `L`, new variables and undoing keep, calls do. -/
theorem run_keeps {L : Var → Prop} {P : Session A → Prop} (hP : Session.Stable L P P)
    (hmade : ∀ v n, v.store.nextVar ≤ n → P v → P (v.setNext n)) {c : Call A} (hc : c.Within L)
    (hundo : ∀ mark, c = undoTo mark → ∀ v, P v → P (v.undoTo mark)) {w w' : Session A}
    (h : c.run w = some w') (hw : P w) : P w' :=
  run_keeps_of_unify (unify_ends hP) hmade hc hundo h hw

end Call

/-! ## What has been made stays made -/

/-- The class has been made, and if it is one that a variable is born into, so has that
    variable. -/
structure ClassId.Known (s : Store A) (c : ClassId) : Prop where
  made : c.Made s.nextJoint
  below : c.Below s.nextVar

/-- The numbers of the next variable and of the next class have not fallen. -/
structure Store.Grown (s s' : Store A) : Prop where
  nextVar_le : s.nextVar ≤ s'.nextVar
  nextJoint_le : s.nextJoint ≤ s'.nextJoint

namespace Store

variable {s s' : Store A}

theorem Grown.refl (s : Store A) : s.Grown s := ⟨Nat.le_refl _, Nat.le_refl _⟩

theorem Grown.known (h : s.Grown s') {c : ClassId} (hc : c.Known s) : c.Known s' where
  made := hc.made.mono h.nextJoint_le
  below y hy := Nat.lt_of_lt_of_le (hc.below y hy) h.nextVar_le

theorem Grown.move (h : s.Grown s') (x : Var) (c : ClassId) : s.Grown (s'.move x c) where
  nextVar_le := by
    rw [nextVar_move]
    exact h.nextVar_le
  nextJoint_le := by
    rw [nextJoint_move]
    exact h.nextJoint_le

end Store

namespace Session

variable {s : Store A}

theorem grown_undoTo {w : Session A} (h : s.Grown w.store) (mark : Nat) :
    s.Grown (w.undoTo mark).store :=
  undo_induction (P := fun v => s.Grown v.store) (fun _ _ x c _ hv => hv.move x c) _ h

theorem stable_grown (s : Store A) :
    Stable (fun _ => True) (fun w => s.Grown w.store) (fun w => s.Grown w.store) := by
  refine .everywhere (fun w cs value h => ⟨?_, ?_⟩) fun v w _ hw => grown_undoTo hw v.mark
  · rw [nextVar_gather]
    exact h.nextVar_le
  · rw [nextJoint_gather]
    exact Nat.le_succ_of_le h.nextJoint_le

end Session

/-- A call on variables that have been made keeps a session sound. -/
theorem Call.run_sound [DecidableEq A] {w w' : Session A} {c : Call A}
    (h : c.run w = some w') (hc : c.Within w.store.Born) (hw : w.Sound w.store.nextVar) :
    w'.Sound w'.store.nextVar ∧ w.store.Grown w'.store := by
  -- as to the variables made before the call, every change on the way is sound
  have hboth : w'.Sound w.store.nextVar ∧ w.store.Grown w'.store :=
    run_keeps (L := fun x => x.id < w.store.nextVar)
      (P := fun v => v.Sound w.store.nextVar ∧ w.store.Grown v.store)
      ((Session.stable_sound w.store.nextVar).and (Session.stable_grown w.store))
      (fun v n hn hv => ⟨hv.1.setNext (Nat.le_refl _) n,
        ⟨Nat.le_trans hv.2.nextVar_le hn, hv.2.nextJoint_le⟩⟩)
      hc (fun mark _ v hv => ⟨hv.1.undoTo mark, Session.grown_undoTo hv.2 mark⟩) h
      ⟨hw, .refl w.store⟩
  exact ⟨hboth.1.mono hboth.2.nextVar_le, hboth.2⟩

/-! ## Worlds -/

/-- A store, the trails that are written and the snapshots that have been taken. -/
structure World (A : Type u) where
  store : Store A
  trails : List Trail
  snapshots : List Store.Snapshot

/-- What is done to a world. -/
inductive Act (A : Type u) where
  | openTrail (occursCheck : Bool)
  /-- A call that writes the `i`-th trail. -/
  | call (i : Nat) (c : Call A)
  | snapshot (x : Var)
  /-- Restores the `k`-th snapshot on `x`. -/
  | restore (x : Var) (k : Nat)

namespace Act

/-- All variables that the act is about, save those it copies, are in `L`. -/
def Within (L : Var → Prop) : Act A → Prop
  | openTrail _ => True
  | call _ c => c.Within L
  | snapshot x => L x
  | restore x _ => L x

theorem Within.mono {L L' : Var → Prop} (hL : ∀ x, L x → L' x) {a : Act A} (h : a.Within L) :
    a.Within L' := by
  cases a with
  | openTrail check => trivial
  | call i c => exact Call.Within.mono hL h
  | snapshot x => exact hL x h
  | restore x k => exact hL x h

/-- The world after the act; `none` if there is no such trail or snapshot, or a call
    would have to descend too far. -/
def run [DecidableEq A] : Act A → World A → Option (World A)
  | openTrail check, ⟨s, ts, snaps⟩ => some ⟨s, ts ++ [.start check], snaps⟩
  | call i c, ⟨s, ts, snaps⟩ =>
    ts[i]?.bind fun t => (c.run ⟨s, t⟩).map fun w => ⟨w.store, ts.set i w.trail, snaps⟩
  | snapshot x, ⟨s, ts, snaps⟩ => some ⟨s, ts, snaps ++ [s.snapshot x]⟩
  | restore x k, ⟨s, ts, snaps⟩ => snaps[k]?.map fun snap => ⟨s.restore x snap, ts, snaps⟩

end Act

/-! ### What acts do -/

section inversion

variable [DecidableEq A] {d d' : World A}

/-- A call goes on from the store and the trail it writes, and puts both back. -/
theorem Act.exists_of_run_call {i : Nat} {c : Call A} (h : (Act.call i c).run d = some d') :
    ∃ t w, d.trails[i]? = some t ∧ c.run ⟨d.store, t⟩ = some w ∧
      d' = ⟨w.store, d.trails.set i w.trail, d.snapshots⟩ := by
  obtain ⟨t, ht, hcall⟩ := Option.bind_eq_some_iff.mp h
  obtain ⟨w, hw, rfl⟩ := Option.map_eq_some_iff.mp hcall
  exact ⟨t, w, ht, hw, rfl⟩

/-- A restore moves one variable, and nothing is written down. -/
theorem Act.exists_of_run_restore {x : Var} {k : Nat} (h : (Act.restore x k).run d = some d') :
    ∃ snap, d.snapshots[k]? = some snap ∧
      d' = ⟨d.store.move x snap.target, d.trails, d.snapshots⟩ := by
  obtain ⟨snap, hsnap, rfl⟩ := Option.map_eq_some_iff.mp h
  exact ⟨snap, hsnap, rfl⟩

end inversion

namespace World

/-- Nothing has been made. -/
def empty : World A := ⟨.empty, [], []⟩

/-- The worlds that acts on variables made before lead to. -/
inductive Reachable [DecidableEq A] : World A → Prop where
  | init : Reachable .empty
  | step {d d' : World A} (a : Act A) :
      Reachable d → a.Within d.store.Born → a.run d = some d' → Reachable d'

/-- The store is consistent and scoped to the variables made so far, and all that trails
    and snapshots remember is known. -/
structure Sound (d : World A) : Prop where
  consistent : d.store.Consistent
  inScope : d.store.Scoped d.store.nextVar
  trails : ∀ t ∈ d.trails, ∀ m ∈ t.moves, m.1.id < d.store.nextVar ∧ m.2.Known d.store
  snapshots : ∀ snap ∈ d.snapshots, snap.target.Known d.store

theorem sound_empty : (empty : World A).Sound where
  consistent := Store.consistent_empty
  inScope := Store.scoped_empty
  trails t ht := by cases ht
  snapshots snap hs := by cases hs

/-- A sound world is a sound session with any of its trails. -/
theorem Sound.session {d : World A} (h : d.Sound) {t : Trail} (ht : t ∈ d.trails) :
    Session.Sound d.store.nextVar ⟨d.store, t⟩ where
  consistent := ⟨h.consistent, fun m hm => (h.trails t ht m hm).2.made⟩
  inScope := ⟨h.inScope, fun m hm => ⟨(h.trails t ht m hm).1, (h.trails t ht m hm).2.below⟩⟩

variable [DecidableEq A] {d d' : World A}

/-- Every act keeps a world sound. -/
theorem Sound.step (h : d.Sound) {a : Act A} (ha : a.Within d.store.Born)
    (hrun : a.run d = some d') : d'.Sound := by
  cases a with
  | openTrail check =>
    cases hrun
    refine ⟨h.consistent, h.inScope, fun t ht m hm => ?_, h.snapshots⟩
    rcases List.mem_append.mp ht with ht | ht
    · exact h.trails t ht m hm
    · -- nothing has been written on the new trail
      rw [List.mem_singleton.mp ht] at hm
      simp [Trail.start] at hm
  | call i c =>
    obtain ⟨t, w, ht, hw, rfl⟩ := Act.exists_of_run_call hrun
    obtain ⟨hsound, hgrown⟩ := Call.run_sound hw ha (h.session (List.mem_of_getElem? ht))
    refine ⟨hsound.consistent.store, hsound.inScope.store, fun t' ht' m hm => ?_, fun snap hs =>
      hgrown.known (h.snapshots snap hs)⟩
    rcases List.mem_or_eq_of_mem_set ht' with ht' | rfl
    · -- what the other trails remember has not been forgotten
      obtain ⟨hborn, hknown⟩ := h.trails t' ht' m hm
      exact ⟨Nat.lt_of_lt_of_le hborn hgrown.nextVar_le, hgrown.known hknown⟩
    · obtain ⟨hborn, hbelow⟩ := hsound.inScope.trail m hm
      exact ⟨hborn, hsound.consistent.trail m hm, hbelow⟩
  | snapshot x =>
    cases hrun
    refine ⟨h.consistent, h.inScope, h.trails, fun snap hs => ?_⟩
    rcases List.mem_append.mp hs with hs | hs
    · exact h.snapshots snap hs
    · rw [List.mem_singleton.mp hs]
      exact ⟨h.consistent.made x, h.inScope.below ha⟩
  | restore x k =>
    obtain ⟨snap, hsnap, rfl⟩ := Act.exists_of_run_restore hrun
    have hknown : snap.target.Known d.store := h.snapshots snap (List.mem_of_getElem? hsnap)
    have hgrown : d.store.Grown (d.store.move x snap.target) := (Store.Grown.refl _).move x _
    refine ⟨h.consistent.move x hknown.made, ?_, fun t ht m hm => ?_, fun snap' hs => ?_⟩
    · show (d.store.move x snap.target).Scoped (d.store.move x snap.target).nextVar
      rw [Store.nextVar_move]
      exact h.inScope.move ha hknown.below
    · obtain ⟨hborn, hknown'⟩ := h.trails t ht m hm
      exact ⟨Nat.lt_of_lt_of_le hborn hgrown.nextVar_le, hgrown.known hknown'⟩
    · exact hgrown.known (h.snapshots snap' hs)

/-- **Every reachable world is sound.** -/
theorem Reachable.sound (h : d.Reachable) : d.Sound := by
  induction h with
  | init => exact sound_empty
  | step a _ ha hrun ih => exact ih.step ha hrun

/-! ## Runs -/

variable {P : Act A → Prop}

/-- One act that `P` allows, on variables made before. -/
def Step (P : Act A → Prop) (d d' : World A) : Prop :=
  ∃ a, P a ∧ a.Within d.store.Born ∧ a.run d = some d'

/-- Acts that `P` allows, one after the other. -/
def Run (P : Act A → Prop) : World A → World A → Prop := Relation.ReflTransGen (Step P)

theorem Run.refl (d : World A) : Run P d d := Relation.ReflTransGen.refl

theorem Run.reachable (h : Run P d d') (hd : d.Reachable) : d'.Reachable := by
  induction h with
  | refl => exact hd
  | tail _ hstep ih =>
    obtain ⟨a, -, hborn, hrun⟩ := hstep
    exact ih.step a hborn hrun

/-- What every allowed act keeps in a reachable world, a run keeps. -/
theorem Run.keeps {I : World A → Prop} (h : Run P d d') (hd : d.Reachable)
    (step : ∀ d₁ d₂ a, d₁.Reachable → P a → a.Within d₁.store.Born → a.run d₁ = some d₂ → I d₁ →
      I d₂) (hI : I d) : I d' := by
  induction h with
  | refl => exact hI
  | tail hrun hstep ih =>
    obtain ⟨a, ha, hborn, hact⟩ := hstep
    exact step _ _ a (Run.reachable hrun hd) ha hborn hact ih

/-- No variable and no class that has been made is lost. -/
theorem Sound.grown (h : d.Sound) {a : Act A} (ha : a.Within d.store.Born)
    (hrun : a.run d = some d') : d.store.Grown d'.store := by
  cases a with
  | openTrail check =>
    cases hrun
    exact .refl _
  | call i c =>
    obtain ⟨t, w, ht, hw, rfl⟩ := Act.exists_of_run_call hrun
    exact (Call.run_sound hw ha (h.session (List.mem_of_getElem? ht))).2
  | snapshot x =>
    cases hrun
    exact .refl _
  | restore x k =>
    obtain ⟨snap, -, rfl⟩ := Act.exists_of_run_restore hrun
    exact (Store.Grown.refl _).move x snap.target

/-- The world that acts lead to, one after the other. -/
def perform (d : World A) (acts : List (Act A)) : Option (World A) :=
  acts.foldlM (fun d a => a.run d) d

/-- Allowed acts on variables that there are from the start make a run. -/
theorem run_of_perform {acts : List (Act A)} {k : Nat} (hd : d.Reachable)
    (hk : k ≤ d.store.nextVar) (hacts : ∀ a ∈ acts, P a ∧ a.Within fun x => x.id < k)
    (h : d.perform acts = some d') : Run P d d' := by
  induction acts generalizing d with
  | nil =>
    cases h
    exact .refl _
  | cons a acts ih =>
    obtain ⟨d₁, hact, hrest⟩ := Option.bind_eq_some_iff.mp h
    obtain ⟨hP, hwithin⟩ := hacts a (List.mem_cons_self ..)
    have hborn : a.Within d.store.Born := hwithin.mono fun x hx => Nat.lt_of_lt_of_le hx hk
    have hgrown := hd.sound.grown hborn hact
    exact Relation.ReflTransGen.head ⟨a, hP, hborn, hact⟩
      (ih (hd.step a hborn hact) (Nat.le_trans hk hgrown.nextVar_le)
        (fun b hb => hacts b (List.mem_cons_of_mem _ hb)) hrest)

end World

end Horn
