import Horn.Proofs.MostGeneral
import Horn.Proofs.World

/-! # Who belongs to a class

    A store says twice who belongs to a class: each variable points to its class, and
    each class lists its members.  Both are changed piecemeal, by moves, by undoing any
    of several trails, and by snapshots that put a variable back into a class that may
    long have lost all its members.  In every reachable world the two agree.

    Therefore a class that is given a value, or merged, moves as a whole.

    * `Session.Gathered`: all members of some classes, and no other variable, have moved
      to a new class, and the trail has recorded each of them once.
    * `Session.WholeMoves`: nothing has been done but to gather classes.
      `unify_wholeMoves`: that is all that a successful unification does.
    * `resolve_gathers`, `bind_gathers`: which classes the two operations gather.

    Main statement: `membership_exact`. -/

namespace Horn

universe u

variable {A : Type u}

/-- A class lists its members once, and nobody else. -/
theorem Store.Consistent.count_members {s : Store A} (h : s.Consistent) (c : ClassId) (x : Var) :
    (s.members c).count x = if s.classOf x = c then 1 else 0 := by
  by_cases hx : s.classOf x = c
  · rw [if_pos hx]
    exact List.count_eq_one_of_mem (h.nodup c) ((h.mem_members c x).mpr hx)
  · rw [if_neg hx]
    exact List.count_eq_zero_of_not_mem fun hmem => hx ((h.mem_members c x).mp hmem)

namespace Session

/-! ## Moving variables one after the other -/

/-- If no variable moves twice, the trail records each with the class it was in. -/
theorem moves_moveAll (w : Session A) {xs : List Var} (hxs : xs.Nodup) (c : ClassId) :
    (w.moveAll xs c).trail.moves.toList =
      w.trail.moves.toList ++ xs.map fun x => (x, w.store.classOf x) := by
  induction xs generalizing w with
  | nil => exact (List.append_nil _).symm
  | cons x xs ih =>
    obtain ⟨hx, hxs⟩ := List.nodup_cons.mp hxs
    have hfirst : (w.move x c).trail.moves.toList =
        w.trail.moves.toList ++ [(x, w.store.classOf x)] := by
      rw [trail_move, Array.toList_push]
    -- the others are where they were when `x` has moved
    have hothers : xs.map (fun y => (y, (w.move x c).store.classOf y)) =
        xs.map fun y => (y, w.store.classOf y) := by
      refine List.map_congr_left fun y hy => ?_
      have hne : x ≠ y := fun e => hx (e ▸ hy)
      rw [store_move, Store.classOf_move, if_neg hne]
    show ((w.move x c).moveAll xs c).trail.moves.toList = _
    rw [ih (w.move x c) hxs, hfirst, hothers, List.append_assoc]
    rfl

/-- Newcomers come last, in the order in which they move. -/
theorem members_moveAll {w : Session A} (hw : w.store.Consistent) {xs : List Var} (hxs : xs.Nodup)
    {c : ClassId} (hc : c.Made w.store.nextJoint) (hnew : ∀ x ∈ xs, w.store.classOf x ≠ c) :
    (w.moveAll xs c).store.members c = w.store.members c ++ xs := by
  induction xs generalizing w with
  | nil => exact (List.append_nil _).symm
  | cons x xs ih =>
    obtain ⟨hx, hxs⟩ := List.nodup_cons.mp hxs
    have hfirst : (w.move x c).store.members c = w.store.members c ++ [x] := by
      have hold : w.store.classOf x ≠ c := hnew x (List.mem_cons_self ..)
      rw [store_move, Store.members_move _ _ _ _ (hw.nodup _)]
      simp only [if_neg hold, if_true]
    have hnew' : ∀ y ∈ xs, (w.move x c).store.classOf y ≠ c := by
      intro y hy
      have hne : x ≠ y := fun e => hx (e ▸ hy)
      rw [store_move, Store.classOf_move, if_neg hne]
      exact hnew y (List.mem_cons_of_mem _ hy)
    have hmade : c.Made (w.move x c).store.nextJoint := by
      rw [store_move, Store.nextJoint_move]
      exact hc
    show ((w.move x c).moveAll xs c).store.members c = _
    rw [ih (hw.move x hc) hxs hmade hnew', hfirst, List.append_assoc]
    rfl

/-! ## Gathering whole classes -/

/-- All members of the classes `cs`, and no other variable, have moved to a new class. -/
structure Gathered (cs : List ClassId) (w w' : Session A) : Prop where
  /-- Each member has been recorded, with the class it was in. -/
  moves : w'.trail.moves.toList =
    w.trail.moves.toList ++ cs.flatMap fun c => (w.store.members c).map fun x => (x, c)
  /-- None of them has been recorded twice. -/
  once : (cs.flatMap w.store.members).Nodup
  classOf : ∀ x, w'.store.classOf x =
    if w.store.classOf x ∈ cs then .joint w.store.nextJoint else w.store.classOf x
  /-- The new class lists them and nobody else. -/
  members : w'.store.members (.joint w.store.nextJoint) = cs.flatMap w.store.members

section consistent

variable {w : Session A} (hw : w.store.Consistent)
include hw

/-- Different classes have no members in common. -/
theorem nodup_flatMap_members {cs : List ClassId} (hcs : cs.Nodup) :
    (cs.flatMap w.store.members).Nodup := by
  rw [List.nodup_flatMap]
  refine ⟨fun c _ => hw.nodup c, hcs.imp fun {c d} hne => ?_⟩
  intro x hc hd
  exact hne (((hw.mem_members c x).mp hc).symm.trans ((hw.mem_members d x).mp hd))

/-- Whatever is in no class made so far has no members. -/
theorem members_newJoint_eq (value : Option (Compound A)) :
    (w.store.newJoint value).2.members = w.store.members := by
  funext c
  rw [Store.members_newJoint]
  split
  · next hc =>
    refine (List.eq_nil_iff_forall_not_mem.mpr fun x hx => ?_).symm
    exact (hw.made x).ne_joint (((hw.mem_members c x).mp hx).trans hc.symm)
  · rfl

/-- Gathering different classes moves all their members once. -/
theorem gathered_gather {cs : List ClassId} (hcs : cs.Nodup) (value : Option (Compound A)) :
    w.Gathered cs (w.gather cs value) := by
  have hnodup := nodup_flatMap_members hw hcs
  have hsame := members_newJoint_eq hw value
  refine ⟨?_, hnodup, classOf_gather hw cs value, ?_⟩
  · -- a member that moves comes from the class that lists it
    have hfrom : (cs.flatMap w.store.members).map (fun x => (x, w.store.classOf x)) =
        cs.flatMap fun c => (w.store.members c).map fun x => (x, c) := by
      rw [List.map_flatMap]
      refine congrArg (fun f => cs.flatMap f) (funext fun c => ?_)
      exact List.map_congr_left fun x hx => by rw [(hw.mem_members c x).mp hx]
    rw [gather_eq, hsame, moves_moveAll _ hnodup]
    exact congrArg _ hfrom
  · have hempty : (w.store.newJoint value).2.members (.joint w.store.nextJoint) = [] := by
      rw [Store.members_newJoint, if_pos rfl]
    have hnew : ∀ x ∈ cs.flatMap w.store.members,
        (w.store.newJoint value).2.classOf x ≠ .joint w.store.nextJoint :=
      fun x _ => (hw.made x).ne_joint
    rw [gather_eq, hsame]
    have hmade : (ClassId.joint w.store.nextJoint).Made (w.store.newJoint value).2.nextJoint :=
      Nat.lt_succ_self w.store.nextJoint
    have hlast : (moveAll ⟨(w.store.newJoint value).2, w.trail⟩ (cs.flatMap w.store.members)
        (.joint w.store.nextJoint)).store.members (.joint w.store.nextJoint) =
          (w.store.newJoint value).2.members (.joint w.store.nextJoint) ++
            cs.flatMap w.store.members :=
      members_moveAll (hw.newJoint value) hnodup hmade hnew
    rw [hlast, hempty, List.nil_append]

end consistent

/-- What becomes of `w` when classes are gathered, any number of times. -/
inductive WholeMoves (w : Session A) : Session A → Prop where
  | refl : WholeMoves w w
  | gather {v v' : Session A} (cs : List ClassId) :
      WholeMoves w v → v.Gathered cs v' → WholeMoves w v'

/-- A success has done nothing but gather whole classes. -/
theorem stable_wholeMoves (w : Session A) :
    Stable (fun _ => True) (fun v => v.Consistent ∧ w.WholeMoves v) (fun _ => True) where
  values _ _ _ _ _ _ _ _ := trivial
  gather _ _ value hv _ hnodup _ :=
    ⟨hv.1.gather _ value, .gather _ hv.2 (gathered_gather hv.1.store hnodup value)⟩
  fails _ _ := trivial
  undoTo _ _ _ _ := trivial

/-- The classes of `x` and `y` have been gathered, unless they were one. -/
def Merged (w : Session A) (x y : Var) (w' : Session A) : Prop :=
  (w.store.classOf x = w.store.classOf y ∧ w' = w) ∨
    (w.store.classOf x ≠ w.store.classOf y ∧
      w.Gathered [w.store.classOf x, w.store.classOf y] w')

theorem merged_merge {w : Session A} (hw : w.store.Consistent) (x y : Var)
    (value : Option (Compound A)) : w.Merged x y (w.merge x y value) := by
  unfold merge
  by_cases hxy : w.store.classOf x = w.store.classOf y
  · rw [if_pos (Store.aliased_iff.mpr hxy)]
    exact .inl ⟨hxy, rfl⟩
  · rw [if_neg (fun h => hxy (Store.aliased_iff.mp h))]
    exact .inr ⟨hxy, gathered_gather hw (by simpa using hxy) value⟩

theorem next_of_checkingOccurs {w w' : Session A} {n : Nat} {x : Var} {c : Compound A}
    {next : Session A → Outcome A} (h : w.checkingOccurs n x c next = .success w') :
    next w = .success w' := by
  unfold checkingOccurs at h
  split at h
  · split at h
    · cases h
    · exact h
    · split at h
      · cases h
      · cases h
  · exact h

/-! ## What is gathered -/

variable [DecidableEq A]

theorem unify_wholeMoves {w w' : Session A} (hw : w.Consistent) {n : Nat} {t u : Term A}
    (h : Horn.unify n t u w = .success w') : w'.Consistent ∧ w.WholeMoves w' := by
  have hends := unify_ends (stable_wholeMoves w) n t u w (fun _ _ => trivial) (fun _ _ => trivial)
    ⟨hw, .refl⟩
  rw [h] at hends
  exact hends

/-- Giving an unbound class a value gathers that class. -/
theorem resolve_gathers {w w' : Session A} (hw : w.store.Consistent) {n : Nat} {x : Var}
    {c : Compound A} (hx : w.store.value x = none) (h : w.resolve n x c = .success w') :
    w.Gathered [w.store.classOf x] w' := by
  unfold resolve resolveBy at h
  rw [hx] at h
  cases next_of_checkingOccurs h
  exact gathered_gather hw (List.nodup_singleton _) (some c)

/-- A session `v` in which `x` and `y` are ready to be merged: if both have a value,
    these have been unified, and otherwise it is `w`. -/
structure Readied (w : Session A) (n : Nat) (x y : Var) (v : Session A) : Prop where
  unified : ∀ c d, w.store.classOf x ≠ w.store.classOf y → w.store.value x = some c →
    w.store.value y = some d → Horn.unify n c.toTerm d.toTerm w = .success v
  untouched : w.store.classOf x = w.store.classOf y ∨ w.store.value x = none ∨
    w.store.value y = none → v = w
  wholeMoves : w.WholeMoves v

/-- A successful `bind` merges two classes that have been readied. -/
theorem bind_gathers {w w' : Session A} (hw : w.Consistent) {n : Nat} {x y : Var}
    (h : w.bind n x y = .success w') : ∃ v, w.Readied n x y v ∧ v.Merged x y w' := by
  unfold bind bindBy at h
  by_cases hxy : w.store.classOf x = w.store.classOf y
  · rw [if_pos (Store.aliased_iff.mpr hxy)] at h
    cases h
    exact ⟨w, ⟨fun _ _ hne => absurd hxy hne, fun _ => rfl, .refl⟩, .inl ⟨hxy, rfl⟩⟩
  · rw [if_neg (fun ha => hxy (Store.aliased_iff.mp ha))] at h
    -- unless both have a value, nothing is done before the merge
    have hone : ∀ value, (w.store.value x = none ∨ w.store.value y = none) →
        ∃ v, w.Readied n x y v ∧ v.Merged x y (w.merge x y value) := by
      intro value hnone
      refine ⟨w, ⟨fun c d _ hc hd => ?_, fun _ => rfl, .refl⟩, merged_merge hw.store x y value⟩
      rcases hnone with hn | hn
      · cases hn.symm.trans hc
      · cases hn.symm.trans hd
    split at h
    · next hx _ =>
      cases h
      exact hone _ (.inl hx)
    · next _ hy =>
      cases next_of_checkingOccurs h
      exact hone _ (.inr hy)
    · next hx _ =>
      cases next_of_checkingOccurs h
      exact hone _ (.inl hx)
    · next c d hc hd =>
      obtain ⟨v, hv, hmerge⟩ := Outcome.andThen_eq_success h
      cases hmerge
      have hunify := Outcome.undoingTo_eq_success hv
      obtain ⟨hcons, hmoves⟩ := unify_wholeMoves hw hunify
      refine ⟨v, ⟨fun c' d' _ hc' hd' => ?_, fun hor => ?_, hmoves⟩,
        merged_merge hcons.store x y (some c)⟩
      · cases hc.symm.trans hc'
        cases hd.symm.trans hd'
        exact hunify
      · rcases hor with hor | hor | hor
        · exact absurd hor hxy
        · cases hc.symm.trans hor
        · cases hd.symm.trans hor

end Session

variable [DecidableEq A]

/-- **Membership is exact.**  In every reachable world each class lists each variable
    that belongs to it once, and no other.  So when a class without a value is given one
    along some trail, its members move to a new class, each once, and nobody else moves;
    and when two variables are bound together, and their values, if both have one, have
    been unified, the same happens to their two classes unless these have become one. -/
theorem membership_exact {d : World A} (hd : d.Reachable) :
    (∀ c x, (d.store.members c).count x = if d.store.classOf x = c then 1 else 0) ∧
    ∀ t ∈ d.trails, ∀ n w,
      (∀ x c, d.store.value x = none → Session.resolve n x c ⟨d.store, t⟩ = .success w →
        Session.Gathered [d.store.classOf x] ⟨d.store, t⟩ w) ∧
      (∀ x y, Session.bind n x y ⟨d.store, t⟩ = .success w →
        ∃ v, Session.Readied ⟨d.store, t⟩ n x y v ∧ v.Merged x y w) := by
  refine ⟨hd.sound.consistent.count_members, fun t ht n w => ?_⟩
  have hw : Session.Consistent ⟨d.store, t⟩ := (hd.sound.session ht).consistent
  refine ⟨fun x c hx h => ?_, fun x y h => ?_⟩
  · exact Session.resolve_gathers hw.store hx h
  · exact Session.bind_gathers hw h

/-- Two variables are bound together, and one of them is put back to where it was
    before: the class made for both lists the other one only. -/
theorem class_left_by_restore :
    ∃ d : World Nat, d.Reachable ∧ (d.store.members (.joint 0)).count ⟨0⟩ = 0 ∧
      (d.store.members (.joint 0)).count ⟨1⟩ = 1 := by
  have h₀ : World.Reachable (.empty : World Nat) := .init
  have h₁ := h₀.step (.openTrail false) trivial rfl
  have h₂ := h₁.step (.call 0 .create) trivial rfl
  have h₃ := h₂.step (.call 0 .create) trivial rfl
  have h₄ := h₃.step (.snapshot ⟨0⟩) Nat.zero_lt_two rfl
  have h₅ := h₄.step (.call 0 (.bind 1 ⟨0⟩ ⟨1⟩)) ⟨Nat.zero_lt_two, Nat.one_lt_two⟩ rfl
  have h₆ := h₅.step (.restore ⟨0⟩ 0) Nat.zero_lt_two rfl
  obtain ⟨hcount, -⟩ := membership_exact h₆
  exact ⟨_, h₆, (hcount _ _).trans (by decide), (hcount _ _).trans (by decide)⟩

end Horn
