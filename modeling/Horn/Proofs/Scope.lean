import Horn.Proofs.NextVar

/-! # What unification leaves alone

    * Variables that have not been made yet.  A store is *scoped* to the variables
      below a number if all others are as they will be born, alone in their own
      class, and nothing refers to them.  Unifying terms over these variables keeps
      a session scoped, and so does undoing.
    * Variables that are not reached.  A set of variables is *closed* if it is made
      of whole classes and values lead to no variable outside it.  Unifying terms
      over a closed set leaves it closed, and every other variable in its class and
      with its value. -/

namespace Horn

universe u

variable {A : Type u}

/-! ## Variables not made yet -/

/-- Only variables below `n` belong to a class other than their own, have company in
    it, or occur in a value. -/
structure Store.Scoped (n : Nat) (s : Store A) : Prop where
  unborn : ∀ y, n ≤ y.id → s.classOf y = .own y
  alone : ∀ x y, s.classOf x = .own y → x = y ∨ y.id < n
  values : ∀ c v, s.valueOf c = some v → v.Within (·.id < n)

/-- The class is not the own one of a variable from number `n` on. -/
def ClassId.Below (n : Nat) (c : ClassId) : Prop := ∀ y, c = .own y → y.id < n

theorem ClassId.below_joint (n k : Nat) : (ClassId.joint k).Below n := by
  intro y hy
  cases hy

namespace Store

variable {n : Nat} {s : Store A}

theorem Scoped.mono (h : s.Scoped n) {m : Nat} (hm : n ≤ m) : s.Scoped m where
  unborn y hy := h.unborn y (Nat.le_trans hm hy)
  alone x y hx := (h.alone x y hx).imp_right fun hy => Nat.lt_of_lt_of_le hy hm
  values c v hv := (h.values c v hv).mono fun _ hx => Nat.lt_of_lt_of_le hx hm

theorem Scoped.setNext (h : s.Scoped n) (m : Nat) : (s.setNext m).Scoped n where
  unborn := h.unborn
  alone := h.alone
  values c v hv := h.values c v (by rw [← valueOf_setNext m s]; exact hv)

theorem Scoped.value_unborn (h : s.Scoped n) {y : Var} (hy : n ≤ y.id) : s.value y = none := by
  rw [value, h.unborn y hy]
  rfl

/-- The value of a term that has been made mentions only what has been made. -/
theorem Scoped.within_view (h : s.Scoped n) {t : Term A} (ht : t.Within fun x => x.id < n)
    {c : Compound A} (hc : s.view t = some c) : c.Within fun x => x.id < n := by
  cases t with
  | var x => exact h.values _ c hc
  | app f as =>
    cases hc
    exact ht

/-- A variable not made yet shares its class with no other. -/
theorem Scoped.eq_of_classOf_eq (h : s.Scoped n) {x y : Var} (hy : n ≤ y.id)
    (hxy : s.classOf x = s.classOf y) : x = y := by
  rw [h.unborn y hy] at hxy
  rcases h.alone x y hxy with rfl | hlt
  · rfl
  · exact absurd hy (Nat.not_le_of_lt hlt)

/-- Who is in the class of a variable made by then has been made as well. -/
theorem Scoped.lt_of_classOf_eq (h : s.Scoped n) {x y : Var} (hx : x.id < n)
    (hyx : s.classOf y = s.classOf x) : y.id < n := by
  refine Nat.lt_of_not_le fun hy => ?_
  rw [h.eq_of_classOf_eq hy hyx.symm] at hx
  exact Nat.not_le_of_lt hx hy

theorem scoped_empty : (empty : Store A).Scoped 0 where
  unborn y _ := Table.get_empty y.id
  alone x y hx := by
    have hown : (empty : Store A).classOf x = .own x := Table.get_empty x.id
    rw [hown] at hx
    exact .inl (ClassId.own.inj hx)
  values c v hv := by
    cases c with
    | own x => cases hv
    | joint k =>
      have hk : (empty : Store A).valueOf (.joint k) = none :=
        congrArg Joint.value (Table.get_empty k)
      rw [hk] at hv
      cases hv

theorem Scoped.below (h : s.Scoped n) {x : Var} (hx : x.id < n) : (s.classOf x).Below n := by
  intro y hy
  rcases h.alone x y hy with rfl | hlt
  · exact hx
  · exact hlt

theorem Scoped.move (h : s.Scoped n) {x : Var} (hx : x.id < n) {c : ClassId} (hc : c.Below n) :
    (s.move x c).Scoped n where
  unborn y hy := by
    -- the moved variable has been made, so it is not `y`
    have hne : x ≠ y := fun e => Nat.not_le_of_lt hx (e ▸ hy)
    rw [classOf_move, if_neg hne]
    exact h.unborn y hy
  alone z y hz := by
    rw [classOf_move] at hz
    split at hz
    · exact .inr (hc y hz)
    · exact h.alone z y hz
  values d v hv := h.values d v (by rw [← valueOf_move s x c]; exact hv)

theorem Scoped.newJoint (h : s.Scoped n) {value : Option (Compound A)}
    (hvalue : ∀ c, value = some c → c.Within (·.id < n)) : (s.newJoint value).2.Scoped n where
  unborn := h.unborn
  alone := h.alone
  values c v hv := by
    rw [valueOf_newJoint] at hv
    split at hv
    · exact hvalue v hv
    · exact h.values c v hv

end Store

namespace Session

/-- The store is scoped, and so are the moves on the trail. -/
structure Scoped (n : Nat) (w : Session A) : Prop where
  store : w.store.Scoped n
  trail : ∀ m ∈ w.trail.moves, m.1.id < n ∧ m.2.Below n

variable {n : Nat} {w : Session A}

theorem scoped_start {s : Store A} (h : s.Scoped n) (check : Bool) :
    Scoped n ⟨s, .start check⟩ where
  store := h
  trail m hm := by simp [Trail.start] at hm

theorem Scoped.mono (h : w.Scoped n) {m : Nat} (hm : n ≤ m) : w.Scoped m where
  store := h.store.mono hm
  trail p hp := by
    obtain ⟨h₁, h₂⟩ := h.trail p hp
    exact ⟨Nat.lt_of_lt_of_le h₁ hm, fun y hy => Nat.lt_of_lt_of_le (h₂ y hy) hm⟩

theorem Scoped.move (h : w.Scoped n) {x : Var} (hx : x.id < n) {c : ClassId} (hc : c.Below n) :
    (w.move x c).Scoped n where
  store := h.store.move hx hc
  trail m hm := by
    rw [trail_move, Array.mem_push] at hm
    rcases hm with hm | rfl
    · exact h.trail m hm
    · exact ⟨hx, h.store.below hx⟩

theorem Scoped.gather (h : w.Scoped n) (hw : w.Consistent) {xs : List Var}
    (hxs : ∀ x ∈ xs, x.id < n) {value : Option (Compound A)}
    (hvalue : ∀ c, value = some c → c.Within (·.id < n)) :
    (w.gather (xs.map w.store.classOf) value).Scoped n := by
  rw [gather_eq]
  refine moveAll_induction (P := Scoped n) (fun v y hy hv => hv.move ?_ (ClassId.below_joint n _))
    ⟨h.store.newJoint hvalue, h.trail⟩
  -- a variable that moves is in the class of one that has been made
  obtain ⟨c, hc, hyc⟩ := List.mem_flatMap.mp hy
  obtain ⟨x, hx, rfl⟩ := List.mem_map.mp hc
  rw [(hw.store.newJoint value).mem_members, Store.classOf_newJoint] at hyc
  exact h.store.lt_of_classOf_eq (hxs x hx) hyc

theorem Scoped.undo (h : w.Scoped n) (k : Nat) : (w.undo k).Scoped n := by
  refine undo_induction (P := Scoped n) ?_ k h
  intro s moves x c check hw
  obtain ⟨hx, hc⟩ := hw.trail (x, c) (Array.mem_push_self ..)
  exact ⟨hw.store.move hx hc, fun m hm => hw.trail m (Array.mem_push_of_mem _ hm)⟩

/-- A consistent session that is scoped to the variables below `n`. -/
structure Sound (n : Nat) (w : Session A) : Prop where
  consistent : w.Consistent
  inScope : w.Scoped n

theorem Sound.undoTo (h : w.Sound n) (mark : Nat) : (w.undoTo mark).Sound n :=
  ⟨h.consistent.undo _, h.inScope.undo _⟩

theorem Sound.mono (h : w.Sound n) {m : Nat} (hm : n ≤ m) : w.Sound m :=
  ⟨h.consistent, h.inScope.mono hm⟩

theorem Sound.setNext (h : w.Sound n) {m : Nat} (hm : n ≤ m) (k : Nat) :
    (w.setNext k).Sound m where
  consistent := ⟨h.consistent.store.setNextVar k, h.consistent.trail⟩
  inScope := ⟨(h.inScope.store.mono hm).setNext k, (h.inScope.mono hm).trail⟩

/-- Unifying terms over the variables below `n` keeps a session sound. -/
theorem stable_sound (n : Nat) :
    Stable (A := A) (fun x => x.id < n) (Sound n) (Sound n) where
  values w x _ hw _ hv := hw.inScope.store.values (w.store.classOf x) _ hv
  gather _ _ _ hw hxs _ hvalue :=
    ⟨hw.consistent.gather _ _, hw.inScope.gather hw.consistent hxs hvalue⟩
  fails _ hw := hw
  undoTo v _ _ hw := hw.undoTo v.mark

end Session

/-! ## Variables not reached -/

/-- The set is made of whole classes, and values lead to no variable outside it. -/
structure Store.Closed (L : Var → Prop) (s : Store A) : Prop where
  classes : ∀ x y, L x → s.classOf y = s.classOf x → L y
  values : ∀ x c, L x → s.value x = some c → c.Within L

theorem Store.Closed.setNext {L : Var → Prop} {s : Store A} (h : s.Closed L) (m : Nat) :
    (s.setNext m).Closed L where
  classes := h.classes
  values x c hx hc := h.values x c hx (by rw [← s.value_setNext m]; exact hc)

/-- Variables not made yet are unbound, and each is alone in its class. -/
theorem Store.Scoped.closed_young {n : Nat} {s : Store A} (h : s.Scoped n) :
    s.Closed fun x => n ≤ x.id where
  classes x y hx hxy := by
    rw [h.eq_of_classOf_eq hx hxy]
    exact hx
  values x c hx hc := by
    rw [h.value_unborn hx] at hc
    cases hc

/-- Since `w₀` nothing has changed outside the closed set. -/
structure Session.Confined (L : Var → Prop) (w₀ w : Session A) : Prop where
  consistent : w.Consistent
  closed : w.store.Closed L
  classOf : ∀ x, ¬ L x → w.store.classOf x = w₀.store.classOf x
  value : ∀ x, ¬ L x → w.store.value x = w₀.store.value x

namespace Session

variable {L : Var → Prop} {w₀ w : Session A}

theorem Confined.refl (hw : w.Consistent) (hL : w.store.Closed L) : w.Confined L w :=
  ⟨hw, hL, fun _ _ => rfl, fun _ _ => rfl⟩

theorem Confined.gather (h : w₀.Confined L w) {xs : List Var} (hxs : ∀ x ∈ xs, L x)
    {value : Option (Compound A)} (hvalue : ∀ c, value = some c → c.Within L) :
    w₀.Confined L (w.gather (xs.map w.store.classOf) value) := by
  -- who shares a class with a variable in `L` is in `L`
  have hmem : ∀ y, w.store.classOf y ∈ xs.map w.store.classOf → L y := by
    intro y hy
    obtain ⟨x, hx, hxy⟩ := List.mem_map.mp hy
    exact h.closed.classes x y (hxs x hx) hxy.symm
  refine ⟨h.consistent.gather _ _, ⟨fun x y hx hxy => ?_, fun x c hx hc => ?_⟩, ?_, ?_⟩
  · rcases (classOf_gather_eq_iff h.consistent.store _ _ y x).mp hxy with ⟨hy, -⟩ | hyx
    · exact hmem y hy
    · exact h.closed.classes x y hx hyx
  · rw [value_gather h.consistent.store] at hc
    split at hc
    · exact hvalue c hc
    · exact h.closed.values x c hx hc
  · intro x hx
    rw [classOf_gather h.consistent.store, if_neg fun hm => hx (hmem x hm)]
    exact h.classOf x hx
  · intro x hx
    rw [value_gather h.consistent.store, if_neg fun hm => hx (hmem x hm)]
    exact h.value x hx

/-- A success changes nothing outside a closed set that contains the terms. -/
theorem stable_confined (L : Var → Prop) (w₀ : Session A) :
    Stable L (Confined L w₀) (fun _ => True) where
  values _ _ _ hw hx hv := hw.closed.values _ _ hx hv
  gather _ _ _ hw hxs _ hvalue := hw.gather hxs hvalue
  fails _ _ := trivial
  undoTo _ _ _ _ := trivial

end Session

end Horn
