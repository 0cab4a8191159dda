import Horn.Proofs.ExactUndo
import Horn.Proofs.Resolution
import Horn.Proofs.Walks

/-! # The occurs check keeps stores acyclic

    The check is made only where an unbound class takes a value.  Merging classes makes
    none, a unification that fails leaves in place what it did before, and undoing goes
    back to the middle of what a unification did.  That no cycle comes of any of this
    has one reason: the new class that a gathering makes is solved together with the old
    ones, so a solution of the store after it solves every store on the way to it.

    * `Session.ReadyThroughout`: a session is ready, and so is every one that undoing it
      leads to, whether or not the mark is one that was ever asked for.
    * `ReadyThroughout.gather`: one gathering, move by move.
    * `unify_readyThroughout`: a unification, whether it succeeds or fails.
    * `Call.run_readyThroughout`, `perform_readyThroughout`: a call, and a run of calls.

    Main statement: `acyclic_throughout`. -/

namespace Horn

universe u

variable {A : Type u}

/-! ## Ready wherever it is undone to -/

/-- A store is acyclic if another is in which all variables have these classes and
    values. -/
theorem Store.Acyclic.of_classes {s s' : Store A} (h : s.Acyclic)
    (hclass : ∀ x, s'.classOf x = s.classOf x) (hvalue : ∀ x, s'.value x = s.value x) :
    s'.Acyclic := by
  obtain ⟨θ, hθ⟩ := h.exists_solution
  have hθ' : s'.Solves θ :=
    ⟨fun x y hxy => hθ.joined x y (by rw [← hclass, ← hclass]; exact hxy),
      fun x c hx => hθ.bound x c (by rw [← hvalue]; exact hx)⟩
  exact hθ'.acyclic

namespace Session

variable {w w' : Session A}

/-- The session is ready, and ready again wherever it is undone to. -/
def ReadyThroughout (w : Session A) : Prop := ∀ mark, (w.undoTo mark).Ready

theorem undoTo_of_mark_le (w : Session A) {mark : Nat} (h : w.mark ≤ mark) :
    w.undoTo mark = w := by
  rw [undoTo, Nat.sub_eq_zero_of_le h]
  rfl

theorem ReadyThroughout.ready (h : w.ReadyThroughout) : w.Ready := by
  have hself := h w.mark
  rwa [undoTo_self] at hself

theorem readyThroughout_start {s : Store A} {check : Bool} (h : Ready ⟨s, .start check⟩) :
    ReadyThroughout ⟨s, .start check⟩ := by
  intro mark
  rw [undoTo_of_mark_le _ (Nat.zero_le mark)]
  exact h

theorem ReadyThroughout.setNext (h : w.ReadyThroughout) (m : Nat) :
    (w.setNext m).ReadyThroughout := by
  intro mark
  rw [undoTo_setNext]
  exact (h mark).setNext m

theorem ReadyThroughout.undoTo (h : w.ReadyThroughout) (mark : Nat) :
    (w.undoTo mark).ReadyThroughout := by
  intro mark'
  rcases Nat.le_total mark' mark with hle | hle
  · rw [undoTo_undoTo w hle]
    exact h mark'
  · rw [undoTo_of_mark_le _ (by rw [mark_undoTo]; omega)]
    exact h mark

/-- A session is ready if it keeps a ready one, whatever number of variables one takes as
    made in that. -/
theorem Ready.of_kept (h : w.Ready) (hkept : ∀ m, (w.setNext m).Kept (w'.setNext m))
    (hw' : w'.Consistent) : w'.Ready where
  consistent := hw'
  acyclic := by
    refine h.acyclic.of_classes (fun x => ?_) fun x => ?_
    · exact (hkept (x.id + 1)).store.classOf x (Nat.lt_succ_self x.id)
    · have hvalue := (hkept (x.id + 1)).store.value (h.consistent.store.setNextVar _)
        (Nat.lt_succ_self x.id)
      rwa [Session.setNext, Session.setNext, Store.value_setNext, Store.value_setNext] at hvalue
  check := (congrArg Trail.occursCheck (hkept 0).trail).trans h.check

theorem ReadyThroughout.of_kept (h : w.ReadyThroughout)
    (hkept : ∀ m, (w.setNext m).Kept (w'.setNext m)) (hw' : w'.Consistent) :
    w'.ReadyThroughout := by
  intro mark
  refine (h mark).of_kept (fun m => ?_) (hw'.undoTo mark)
  rw [← undoTo_setNext, ← undoTo_setNext]
  exact (hkept m).undoTo mark

/-- One move more: if the store is acyclic after it, undoing leads to that store or to
    one of before. -/
theorem ReadyThroughout.move (h : w.ReadyThroughout) {x : Var} {c : ClassId}
    (hmoved : (w.move x c).Ready) : (w.move x c).ReadyThroughout := by
  have hmove : w.ExtendsAll (w.move x c) := by
    intro m
    rw [← move_setNext]
    exact .move _ x c
  have hback : ((w.move x c).undoTo w.mark).ReadyThroughout :=
    h.of_kept hmove.kept (hmoved.consistent.undoTo w.mark)
  intro mark
  rcases Nat.lt_or_ge w.mark mark with hlt | hle
  · have hone : (w.move x c).mark ≤ mark := by
      have hlt' : w.trail.moves.size < mark := hlt
      rw [Session.mark, trail_move, Trail.length, Array.size_push]
      exact hlt'
    rw [undoTo_of_mark_le _ hone]
    exact hmoved
  · rw [← undoTo_undoTo _ hle]
    exact hback mark

end Session

/-! ## Gathering, move by move -/

/-- The store `v` is on the way from `s` to a gathering: every variable is in its class
    still, or it has come to the new one, which holds `value`. -/
structure Store.Underway (s : Store A) (cs : List ClassId) (value : Option (Compound A))
    (v : Store A) : Prop where
  nextJoint : v.nextJoint = s.nextJoint + 1
  classOf : ∀ x, v.classOf x = s.classOf x ∨
    s.classOf x ∈ cs ∧ v.classOf x = .joint s.nextJoint
  valueOf : ∀ d, v.valueOf d = if .joint s.nextJoint = d then value else s.valueOf d

section gather

variable {s v : Store A} {cs : List ClassId} {value : Option (Compound A)} {θ : Var → Term A}

theorem Store.underway_newJoint (s : Store A) (cs : List ClassId) (value : Option (Compound A)) :
    s.Underway cs value (s.newJoint value).2 where
  nextJoint := rfl
  classOf _ := .inl rfl
  valueOf := s.valueOf_newJoint value

theorem Store.Underway.move (h : s.Underway cs value v) {x : Var} (hx : s.classOf x ∈ cs) :
    s.Underway cs value (v.move x (.joint s.nextJoint)) where
  nextJoint := by rw [nextJoint_move, h.nextJoint]
  classOf y := by
    rw [classOf_move]
    split
    · next hxy => exact .inr ⟨hxy ▸ hx, rfl⟩
    · exact h.classOf y
  valueOf d := by rw [valueOf_move, h.valueOf]

/-- A solution that joins the classes solves the stores on the way. -/
theorem Store.Underway.solves (h : s.Underway cs value v) (hs : s.Consistent)
    (hθ : s.Solves θ) (hjoin : s.Joins cs value θ) : v.Solves θ where
  joined x y hxy := by
    -- two variables of one class are both where they were, or have both arrived
    rcases h.classOf x with hx | ⟨hxcs, hx⟩ <;> rcases h.classOf y with hy | ⟨hycs, hy⟩
    · exact hθ.joined x y (by rw [← hx, ← hy]; exact hxy)
    · exact absurd (hx.symm.trans (hxy.trans hy)) (hs.made x).ne_joint
    · exact absurd (hy.symm.trans (hxy.symm.trans hx)) (hs.made y).ne_joint
    · exact hjoin.joined x y hxcs hycs
  bound x c hx := by
    rw [Store.value] at hx
    rcases h.classOf x with hold | ⟨hcs, hnew⟩
    · rw [hold, h.valueOf, if_neg (Ne.symm (hs.made x).ne_joint)] at hx
      exact hθ.bound x c hx
    · rw [hnew, h.valueOf, if_pos rfl] at hx
      exact hjoin.bound x c hcs hx

namespace Session

variable {w : Session A} {P : (Var → Term A) → Prop}

/-- To gather classes keeps a session ready throughout, if some solution of the store
    before solves the one after. -/
theorem ReadyThroughout.gather (h : w.ReadyThroughout) (hθ : w.store.Solves θ)
    (hθ' : (w.gather cs value).store.Solves θ) : (w.gather cs value).ReadyThroughout := by
  have hw := h.ready.consistent
  have hjoin : w.store.Joins cs value θ := hθ'.joins_of_gather hw.store
  -- the class is made without a move
  have hmade : ReadyThroughout ⟨(w.store.newJoint value).2, w.trail⟩ :=
    h.of_kept (fun m => ⟨rfl, .newJoint (w.store.setNext m) value⟩) (hw.newJoint value)
  rw [gather_eq]
  refine (moveAll_induction
    (P := fun v => v.ReadyThroughout ∧ w.store.Underway cs value v.store) (fun v x hx hv => ?_)
    ⟨hmade, w.store.underway_newJoint cs value⟩).1
  obtain ⟨hv, hway⟩ := hv
  obtain ⟨c, hc, hx⟩ := List.mem_flatMap.mp hx
  have hclass : w.store.classOf x = c := ((hw.newJoint value).store.mem_members c x).mp hx
  have hmem : w.store.classOf x ∈ cs := hclass ▸ hc
  have hmove := hway.move hmem
  have hconsistent : (v.move x (.joint w.store.nextJoint)).Consistent :=
    hv.ready.consistent.move x (by rw [hway.nextJoint]; exact Nat.lt_succ_self _)
  exact ⟨hv.move ⟨hconsistent, (hmove.solves hw.store hθ hjoin).acyclic, hv.ready.check⟩, hmove⟩

theorem ReadyThroughout.gather_solved (h : w.ReadyThroughout)
    (hsolved : w.Solved P (w.gather cs value)) : (w.gather cs value).ReadyThroughout := by
  obtain ⟨θ, hθ⟩ := hsolved.ready.acyclic.exists_solution
  exact h.gather ((hsolved.solves θ).mp hθ).1 hθ

theorem ReadyThroughout.merge_solved (h : w.ReadyThroughout) {x y : Var}
    (hsolved : w.Solved P (w.merge x y value)) : (w.merge x y value).ReadyThroughout := by
  unfold merge at hsolved ⊢
  split
  · exact h
  · next hxy =>
    rw [if_neg hxy] at hsolved
    exact h.gather_solved hsolved

end Session

end gather

/-! ## Unification -/

theorem Outcome.Ends.and_of_success {P Q R : Session A → Prop} {o : Outcome A} (h : o.Ends P Q)
    (hR : ∀ w, o = .success w → R w) : o.Ends (fun w => P w ∧ R w) Q := by
  cases o with
  | success w => exact ⟨h, hR w rfl⟩
  | failure e w => exact h
  | cutOff => trivial

/-- Wherever the attempt ends, the session is ready throughout. -/
def Outcome.EndsReady (o : Outcome A) : Prop :=
  o.Ends Session.ReadyThroughout Session.ReadyThroughout

section unify

variable {f : Unifier A} {w : Session A}

/-- Where the occurs check refuses, nothing has been done. -/
theorem Session.checkingOccurs_endsReady (hw : w.ReadyThroughout) {n : Nat} {x : Var}
    {c : Compound A} {next : Session A → Outcome A}
    (hnext : ¬ w.store.Meets (w.store.classOf x) c.toTerm → (next w).EndsReady) :
    (w.checkingOccurs n x c next).EndsReady := by
  rw [checkingOccurs, if_pos hw.ready.check]
  split
  · trivial
  · next hc => exact hnext fun hm => Bool.false_ne_true ((Store.contains_iff hc).mpr hm)
  · split
    · trivial
    · exact hw

theorem Session.resolveBy_endsReady
    (hf : ∀ t u w, w.ReadyThroughout → (f t u w).EndsReady) {n : Nat} {x : Var} {c : Compound A}
    (hw : w.ReadyThroughout) : (w.resolveBy f n x c).EndsReady := by
  unfold resolveBy
  split
  · exact (hf _ _ w hw).undoingTo fun v hv => hv.undoTo w.mark
  · next hx =>
    refine checkingOccurs_endsReady hw fun hmeets => ?_
    exact hw.gather_solved (.gather_value hw.ready hx hmeets (List.mem_singleton_self _)
      fun z hz => .inl (List.mem_singleton.mp hz))

theorem Session.bindBy_endsReady (hsolves : f.Solves)
    (hf : ∀ t u w, w.ReadyThroughout → (f t u w).EndsReady) {n : Nat} {x y : Var}
    (hw : w.ReadyThroughout) : (w.bindBy f n x y).EndsReady := by
  unfold bindBy
  split
  · exact hw
  · next hxy =>
    have hne : w.store.aliased x y = false := Bool.eq_false_iff.mpr hxy
    have hne' : w.store.aliased y x = false := by
      rw [Bool.eq_false_iff, ne_eq, Store.aliased_iff] at hne ⊢
      exact fun e => hne e.symm
    split
    · next hx hy =>
      have hmerged : w.Solved (fun θ => θ x = θ y) (w.merge x y none) := by
        rw [merge, if_neg hxy]
        exact .gather_unbound hw.ready hx hy
      exact hw.merge_solved hmerged
    · next c hx hy =>
      exact checkingOccurs_endsReady hw fun hmeets =>
        hw.merge_solved (merge_solved_value hw.ready hne' hy hx hmeets).2
    · next c hx hy =>
      exact checkingOccurs_endsReady hw fun hmeets =>
        hw.merge_solved (merge_solved_value hw.ready hne hx hy hmeets).1
    · next c d hx hy =>
      -- no check is made here: what has been solved before is why there is no cycle
      have hcd := (hf c.toTerm d.toTerm w hw).and_of_success fun v hv =>
        hsolves _ _ w v hw.ready hv
      refine (hcd.undoingTo fun v hv => hv.undoTo w.mark).andThen fun v hv => ?_
      exact hv.1.merge_solved (merge_solved_bound hx hy hv.2)

theorem unifyEach_endsReady (hf : ∀ t u w, w.ReadyThroughout → (f t u w).EndsReady)
    {ps : List (Term A × Term A)} (hw : w.ReadyThroughout) : (unifyEach f ps w).EndsReady := by
  induction ps generalizing w with
  | nil => exact hw
  | cons p ps ih => exact (hf p.1 p.2 w hw).andThen fun v hv => ih hv

variable [DecidableEq A]

/-- Unification keeps a session ready throughout, whether it succeeds or fails. -/
theorem unify_endsReady (n : Nat) (t u : Term A) (w : Session A) (hw : w.ReadyThroughout) :
    (unify n t u w).EndsReady := by
  induction n generalizing t u w with
  | zero => trivial
  | succ n ih =>
    cases t with
    | var x =>
      cases u with
      | var y => exact Session.bindBy_endsReady (unify_solved n) ih hw
      | app g bs => exact Session.resolveBy_endsReady ih hw
    | app f as =>
      cases u with
      | var y => exact Session.resolveBy_endsReady ih hw
      | app g bs =>
        rw [unify]
        split
        · exact hw
        · split
          · exact hw
          · exact unifyEach_endsReady ih hw

end unify

/-! ## Runs -/

theorem Store.acyclic_empty : (empty : Store A).Acyclic :=
  acyclic_of_unbound fun c => by
    cases c with
    | own x => rfl
    | joint k => exact congrArg Joint.value (Table.get_empty k)

theorem Store.freshMany_eq (k : Nat) (s : Store A) :
    (s.freshMany k).2 = s.setNext (s.nextVar + k) := by
  induction k generalizing s with
  | zero => rfl
  | succ k ih =>
    show (s.fresh.2.freshMany k).2 = _
    rw [ih]
    show s.setNext (s.nextVar + 1 + k) = _
    rw [Nat.add_right_comm, Nat.add_assoc]

section calls

variable [DecidableEq A] {w w' : Session A}

/-- A call keeps a session ready throughout. -/
theorem Call.run_readyThroughout {c : Call A} (h : c.run w = some w')
    (hw : w.ReadyThroughout) : w'.ReadyThroughout :=
  run_keeps_of_unify (fun n t u v _ _ hv => unify_endsReady n t u v hv)
    (fun _ n _ hv => hv.setNext n) c.within_true (fun mark _ _ hv => hv.undoTo mark) h hw

theorem Session.perform_readyThroughout {calls : List (Call A)} (h : w.perform calls = some w')
    (hw : w.ReadyThroughout) : w'.ReadyThroughout :=
  perform_keeps (fun _ _ _ _ hrun hv => Call.run_readyThroughout hrun hv) h hw

omit [DecidableEq A] in
/-- New variables on an empty trail. -/
theorem Session.readyThroughout_freshMany (k : Nat) :
    ReadyThroughout (⟨(Store.empty.freshMany k).2, .start true⟩ : Session A) := by
  refine readyThroughout_start ?_
  have hempty : Ready (⟨Store.empty, .start true⟩ : Session A) :=
    ⟨consistent_start Store.consistent_empty true, Store.acyclic_empty, rfl⟩
  rw [Store.freshMany_eq]
  exact hempty.setNext _

theorem Session.ready_of_perform (k : Nat) {calls : List (Call A)}
    (h : perform ⟨(Store.empty.freshMany k).2, .start true⟩ calls = some w) : w.Ready :=
  (perform_readyThroughout h (readyThroughout_freshMany k)).ready

/-- The world in which a trail has been opened and some variables have been made. -/
theorem World.reachable_freshMany (k : Nat) (check : Bool) :
    World.Reachable (⟨(Store.empty.freshMany k).2, [.start check], []⟩ : World A) := by
  rw [Store.freshMany_eq]
  induction k with
  | zero => exact World.Reachable.init.step (.openTrail check) trivial rfl
  | succ k ih => exact ih.step (.call 0 .create) trivial rfl

/-- Calls on the variables there were at the start lead to a sound session. -/
theorem Session.sound_of_perform (k : Nat) {calls : List (Call A)}
    (hcalls : ∀ c ∈ calls, c.Within fun x => x.id < k)
    (h : perform ⟨(Store.empty.freshMany k).2, .start true⟩ calls = some w) :
    w.Sound w.store.nextVar := by
  have hstart : Store.nextVar (Store.empty.freshMany k : _ × Store A).2 = k := by
    rw [Store.freshMany_eq]
    exact Nat.zero_add k
  have hkept : w.Sound w.store.nextVar ∧ k ≤ w.store.nextVar := by
    refine perform_keeps (P := fun v => v.Sound v.store.nextVar ∧ k ≤ v.store.nextVar)
      (fun c hc v v' hrun hv => ?_) h ⟨?_, Nat.le_of_eq hstart.symm⟩
    · have hborn : c.Within v.store.Born :=
        (hcalls c hc).mono fun x hx => Nat.lt_of_lt_of_le hx hv.2
      obtain ⟨hsound, hgrown⟩ := Call.run_sound hrun hborn hv.1
      exact ⟨hsound, Nat.le_trans hv.2 hgrown.nextVar_le⟩
    · refine ⟨(readyThroughout_freshMany k).ready.consistent, scoped_start ?_ true⟩
      rw [Store.freshMany_eq]
      exact (Store.scoped_empty.mono (Nat.zero_le _)).setNext _
  exact hkept.1

/-- **The occurs check keeps the store acyclic.**  Start from new variables, with the
    occurs check on, and let any calls be made on one trail, each of which succeeds or
    fails, and any of which may undo to any mark.  In the store that they lead to no class
    is met in its own value, and so every walk through it ends. -/
theorem acyclic_throughout (k : Nat) {calls : List (Call A)} {w : Session A}
    (hrun : Session.perform ⟨(Store.empty.freshMany k).2, .start true⟩ calls = some w) :
    w.store.Acyclic ∧ w.store.WalksEnd := by
  have hready := Session.perform_readyThroughout hrun (Session.readyThroughout_freshMany k)
  exact ⟨hready.ready.acyclic, hready.ready.acyclic.walksEnd⟩

end calls

/-- Of new variables one takes a value over a second, and that is bound to a third.  What
    would close the circle is refused, in the middle of a unification that has given the
    third variable a value by then.  That is undone half way. -/
theorem circle_refused :
    ∃ w : Session Nat,
      Session.perform ⟨(Store.empty.freshMany 3).2, .start true⟩
        [.create, .resolve 5 ⟨0⟩ ⟨7, [.var ⟨1⟩]⟩, .bind 5 ⟨1⟩ ⟨2⟩,
          .unify 9 (.app 8 [.var ⟨2⟩, .var ⟨3⟩]) (.app 8 [.app 7 [.var ⟨3⟩], .var ⟨0⟩]),
          .undoTo 4] = some w ∧ w.store.Acyclic ∧ w.store.WalksEnd := by
  have hrun : ∃ w : Session Nat, Session.perform ⟨(Store.empty.freshMany 3).2, .start true⟩
      [.create, .resolve 5 ⟨0⟩ ⟨7, [.var ⟨1⟩]⟩, .bind 5 ⟨1⟩ ⟨2⟩,
        .unify 9 (.app 8 [.var ⟨2⟩, .var ⟨3⟩]) (.app 8 [.app 7 [.var ⟨3⟩], .var ⟨0⟩]),
        .undoTo 4] = some w := ⟨_, rfl⟩
  obtain ⟨w, hw⟩ := hrun
  exact ⟨w, hw, acyclic_throughout 3 hw⟩

end Horn
