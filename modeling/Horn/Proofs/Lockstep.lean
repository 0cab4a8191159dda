import Horn.Proofs.Attempts

/-! # One attempt in lockstep

    A search works in a store in which earlier attempts have left variables and
    classes behind; the recursion works in one without such remains.  The store of
    the recursion *shows* in that of the search, under a renaming that keeps the
    variables from before the search.

    The clauses' variables are kept apart from all that the goals reach, so that
    unification never touches them.  Therefore it does not matter that the search
    copies the body of a clause after the unification of its head, and an attempt of
    the search goes in lockstep with one of the recursion: `tryClause_lockstep`. -/

namespace Horn

universe u

variable {A : Type u}

/-- All variables of `s` have in `s'`, after a one-to-one renaming, the aliases and the
    values that they have in `s`.  The first `n₀` variables keep their names. -/
structure Store.Shows (n₀ : Nat) (π : Var → Var) (s s' : Store A) : Prop where
  embeds : s.Embeds (fun x => x.id < s.nextVar) π s'
  into : ∀ x : Var, x.id < s.nextVar → (π x).id < s'.nextVar
  injective : ∀ x y : Var, x.id < s.nextVar → y.id < s.nextVar → π x = π y → x = y
  old : ∀ x : Var, x.id < n₀ → π x = x

/-- The stores look the same from the first `n₀` variables, up to the names of the
    others. -/
def Store.SameView (n₀ : Nat) (s s' : Store A) : Prop := ∃ π, s.Shows n₀ π s'

/-- A store shows in itself. -/
theorem Store.Scoped.shows {s : Store A} (hs : s.Scoped s.nextVar) (n : Nat) : s.Shows n id s where
  embeds := .refl s fun x c _ hc => hs.values (s.classOf x) c hc
  into _ hx := hx
  injective _ _ _ _ h := h
  old _ _ := rfl

theorem Store.Shows.le {n₀ : Nat} {π : Var → Var} {s s' : Store A} (h : s.Shows n₀ π s')
    (hn : n₀ ≤ s.nextVar) : n₀ ≤ s'.nextVar := by
  refine Nat.le_of_not_lt fun hlt => ?_
  -- otherwise a variable that is kept would be renamed out of what has been made
  have hlast := h.into ⟨s'.nextVar⟩ (Nat.lt_of_lt_of_le hlt hn)
  rw [h.old _ hlt] at hlast
  exact Nat.lt_irrefl _ hlast

/-- Old variables belong together in both stores or in neither. -/
theorem Store.SameView.aliased {n₀ : Nat} {s s' : Store A} (h : s.SameView n₀ s')
    (hn : n₀ ≤ s.nextVar) {x y : Var} (hx : x.id < n₀) (hy : y.id < n₀) :
    s'.aliased x y = s.aliased x y := by
  obtain ⟨π, hπ⟩ := h
  have hboth := hπ.embeds.aliased (Nat.lt_of_lt_of_le hx hn) (Nat.lt_of_lt_of_le hy hn)
  rwa [hπ.old x hx, hπ.old y hy] at hboth

/-- Terms over old variables denote the same in both stores, up to the names of new
    variables.  The renaming is one for all terms. -/
theorem Store.SameView.resolved {n₀ : Nat} {s s' : Store A} (h : s.SameView n₀ s')
    (hn : n₀ ≤ s.nextVar) :
    ∃ π : Var → Var, (∀ x y : Var, x.id < s.nextVar → y.id < s.nextVar → π x = π y → x = y) ∧
      (∀ x : Var, x.id < n₀ → π x = x) ∧
      ∀ (n : Nat) (t : Term A), t.Within (fun x => x.id < n₀) →
        s'.resolved n t = (s.resolved n t).map (Term.rename π) := by
  obtain ⟨π, hπ⟩ := h
  refine ⟨π, hπ.injective, hπ.old, fun n t ht => ?_⟩
  -- the renaming leaves the term as it is
  have hren : t.rename π = t :=
    (Term.rename_congr fun x hx => hπ.old x (ht x hx)).trans t.rename_id
  have hread := hπ.embeds.resolved n (ht.mono fun _ hx => Nat.lt_of_lt_of_le hx hn)
  rwa [hren] at hread

/-- Whatever is kept still shows. -/
theorem Store.Shows.kept {n₀ : Nat} {π : Var → Var} {s s' s'' : Store A} (h : s.Shows n₀ π s')
    (hs' : s'.Consistent) (hkept : s'.Kept s'') : s.Shows n₀ π s'' where
  embeds := {
    classes := fun x y hx hy => by
      rw [hkept.classOf _ (h.into x hx), hkept.classOf _ (h.into y hy)]
      exact h.embeds.classes x y hx hy
    value := fun x hx => by
      rw [hkept.value hs' (h.into x hx)]
      exact h.embeds.value x hx
    values := h.embeds.values }
  into x hx := Nat.lt_of_lt_of_le (h.into x hx) hkept.nextVar_le
  injective := h.injective
  old := h.old

/-- Where a store shows, what has been made of it since shows as well, with room for more
    variables on both sides. -/
theorem Store.Shows.later {n₀ m m' : Nat} {π : Var → Var} {s s' v v' : Store A}
    (h : s.Shows n₀ π s') (hn : n₀ ≤ s.nextVar) (hm : s.nextVar ≤ m) (hm' : m ≤ m')
    (hemb : v.Embeds (fun x => x.id < m) (shifting s.nextVar s'.nextVar π) v')
    (hv : v.Scoped m) (hv' : v'.Scoped (s'.nextVar + (m - s.nextVar))) :
    (v.setNext m').Shows n₀ (shifting s.nextVar s'.nextVar π)
      (v'.setNext (s'.nextVar + (m' - s.nextVar))) := by
  have hext := hemb.extend hv hv' (fun x hx => shifting_into h.into hm hx) hm'
  rw [shifting_shifting hm] at hext
  exact {
    embeds := hext.setNext _ _
    into := fun x hx => shifting_into h.into (Nat.le_trans hm hm') hx
    injective := fun x y _ _ => shifting_injective h.into h.injective
    old := fun x hx => (shifting_lt (Nat.lt_of_lt_of_le hx hn)).trans (h.old x hx) }

namespace Search

/-! ## The two sorts of variables -/

/-- The variables fall into two sorts: `L` for the goals and for all that is made
    after `s₀`, and `K` for the clauses, with what their values mention. -/
structure Division (s₀ : Store A) (L K : Var → Prop) : Prop where
  later : ∀ x : Var, s₀.nextVar ≤ x.id → L x
  apart : ∀ x, K x → ¬ L x
  values : ∀ x c, K x → s₀.value x = some c → c.Within K

/-- The variables of the clause are of sort `K`. -/
def Suits (K : Var → Prop) (c : Clause A) : Prop :=
  c.head.Within K ∧ ∀ g ∈ c.body, g.Within K

/-- A store of the recursion: in it nothing has happened since `s₀` but to variables of
    sort `L`. -/
structure Tended (s₀ : Store A) (L : Var → Prop) (s : Store A) : Prop where
  consistent : s.Consistent
  inScope : s.Scoped s.nextVar
  le : s₀.nextVar ≤ s.nextVar
  closed : s.Closed L
  outside : ∀ x, ¬ L x → s.value x = s₀.value x

/-- A goal of the recursion: its variables have been made and are of sort `L`. -/
def Fit (L : Var → Prop) (s : Store A) (g : Compound A) : Prop :=
  g.Within fun x => x.id < s.nextVar ∧ L x

theorem Fit.mono {L : Var → Prop} {s s' : Store A} (h : s.nextVar ≤ s'.nextVar) {g : Compound A}
    (hg : Fit L s g) : Fit L s' g :=
  Compound.Within.mono (fun _ hx => ⟨Nat.lt_of_lt_of_le hx.1 h, hx.2⟩) hg

/-- The goals that take the place of the first one are fit again. -/
theorem Fit.expanded {L : Var → Prop} {s s' : Store A} (hle : s.nextVar ≤ s'.nextVar)
    {body : List (Compound A)} {rest : List (Goal A)} (hbody : ∀ b ∈ body, Fit L s' b)
    (hrest : ∀ g ∈ rest, Fit L s g.compound) (depth : Nat) :
    ∀ g ∈ body.map (Goal.mk · depth) ++ rest, Fit L s' g.compound :=
  List.forall_mem_append.mpr ⟨List.forall_mem_map.mpr hbody, fun g hg => (hrest g hg).mono hle⟩

/-- What an attempt of the recursion and one of the search lead to: a clash on both
    sides, or stores and bodies of which one shows in the other. -/
inductive Tried (s₀ : Store A) (L : Var → Prop) (π : Var → Var) (s : Store A) :
    Option (List (Compound A) × Store A) → Session A × Option (List (Compound A)) → Prop where
  | clash {w' : Session A} : Tried s₀ L π s none (w', none)
  | body {π' : Var → Var} {s' : Store A} {w' : Session A} {gs : List (Compound A)} :
      s'.Shows s₀.nextVar π' w'.store → (∀ x : Var, x.id < s.nextVar → π' x = π x) →
      Tended s₀ L s' → s.nextVar ≤ s'.nextVar → (∀ g ∈ gs, Fit L s' g) →
      Tried s₀ L π s (some (gs, s')) (w', some (gs.map (Compound.rename π')))

section lockstep

variable {s₀ s : Store A} {L K : Var → Prop} {π : Var → Var} {w : Session A}

theorem Division.old (hd : Division s₀ L K) {x : Var} (hx : K x) : x.id < s₀.nextVar :=
  Nat.lt_of_not_le fun hle => hd.apart x hx (hd.later x hle)

/-- The variables of the clauses show under their own names, with the values that they
    had in `s₀`. -/
theorem Tended.embeds (hd : Division s₀ L K) (ht : Tended s₀ L s)
    (hshow : s.Shows s₀.nextVar π w.store) : s.Embeds K π w.store :=
  hshow.embeds.mono (fun _ hx => Nat.lt_of_lt_of_le (hd.old hx) ht.le) fun x c hx hc =>
    hd.values x c hx (by rw [← ht.outside x (hd.apart x hx)]; exact hc)

theorem Division.rename_clause (hd : Division s₀ L K) (hshow : s.Shows s₀.nextVar π w.store)
    {c : Compound A} (hc : c.Within K) : c.rename π = c :=
  Compound.rename_eq_self fun x hx => hshow.old x (hd.old (hc x hx))

/-- The variables that share a class with the image of one of sort `L` form a closed
    set, to which no variable of sort `K` belongs. -/
theorem Tended.closed_image (ht : Tended s₀ L s) {m : Nat} {ρ : Var → Var}
    (hemb : s.Embeds (fun x => x.id < m) ρ w.store) :
    w.store.Closed fun y => ∃ x, L x ∧ x.id < m ∧ w.store.classOf y = w.store.classOf (ρ x) where
  classes := by
    rintro y z ⟨x, hx, hm, hyx⟩ hzy
    exact ⟨x, hx, hm, hzy.trans hyx⟩
  values := by
    rintro y c ⟨x, hx, hm, hyx⟩ hc
    -- the value is that of the renamed variable, which is the renamed value
    rw [Store.value_eq_of_classOf_eq hyx, hemb.value x hm] at hc
    obtain ⟨d, hd, rfl⟩ := Option.map_eq_some_iff.mp hc
    have hboth : d.Within fun z => L z ∧ z.id < m := fun z hz =>
      ⟨ht.closed.values x d hx hd z hz, hemb.values x d hm hd z hz⟩
    exact hboth.rename fun z hz => ⟨z, hz.1, hz.2, rfl⟩

variable [DecidableEq A]

/-- In the store of the recursion, unification stays with the variables of sort `L`. -/
theorem Tended.unify_ends (ht : Tended s₀ L s) {m : Nat} (hm : s.nextVar ≤ m) (n : Nat)
    {t u : Term A} (ht_m : t.Within fun x => L x ∧ x.id < m)
    (hu_m : u.Within fun x => L x ∧ x.id < m) (check : Bool) :
    (unify n t u ⟨s, .start check⟩).Ends
      (fun v => v.Sound m ∧ Session.Confined L ⟨s, .start check⟩ v) (fun _ => True) := by
  have hstart : Session.Consistent ⟨s, .start check⟩ :=
    Session.consistent_start ht.consistent check
  have hscoped : Session.Scoped m ⟨s, .start check⟩ :=
    Session.scoped_start (ht.inScope.mono hm) check
  have hsound := Horn.unify_ends (Session.stable_sound m) n t u _ (ht_m.mono fun _ hx => hx.2)
    (hu_m.mono fun _ hx => hx.2) ⟨hstart, hscoped⟩
  have hconfined := Horn.unify_ends (Session.stable_confined L _) n t u _
    (ht_m.mono fun _ hx => hx.1) (hu_m.mono fun _ hx => hx.1) (.refl hstart ht.closed)
  cases ho : unify n t u ⟨s, .start check⟩ with
  | success v =>
    rw [ho] at hsound hconfined
    exact ⟨hsound, hconfined⟩
  | failure e v => trivial
  | cutOff => trivial

/-- In the session of the search, unification of the images of such terms leaves the
    variables of the clauses alone. -/
theorem Tended.unify_image_ends (hd : Division s₀ L K) (ht : Tended s₀ L s) {m : Nat}
    {ρ : Var → Var} (hemb : s.Embeds (fun x => x.id < m) ρ w.store) (hw : w.Consistent)
    (hK : ∀ x, K x → x.id < m ∧ ρ x = x) (n : Nat) {t u : Term A}
    (ht_m : t.Within fun x => L x ∧ x.id < m) (hu_m : u.Within fun x => L x ∧ x.id < m) :
    (unify n (t.rename ρ) (u.rename ρ) w).Ends
      (fun w' => ∀ x, K x →
        w'.store.classOf x = w.store.classOf x ∧ w'.store.value x = w.store.value x)
      (fun _ => True) := by
  -- the images of variables of sort `L`, with all that are in their classes
  let L' (y : Var) : Prop := ∃ x, L x ∧ x.id < m ∧ w.store.classOf y = w.store.classOf (ρ x)
  have himage : ∀ x, L x ∧ x.id < m → L' (ρ x) := fun x hx => ⟨x, hx.1, hx.2, rfl⟩
  have hconfined := Horn.unify_ends (Session.stable_confined L' w) n _ _ w
    (ht_m.rename himage) (hu_m.rename himage) (.refl hw (ht.closed_image hemb))
  -- no variable of a clause is in one of these classes
  have hout : ∀ x, K x → ¬ L' x := by
    rintro x hx ⟨y, hy, hym, hxy⟩
    obtain ⟨hxm, hρx⟩ := hK x hx
    rw [← hρx, hemb.classes x y hxm hym] at hxy
    exact hd.apart x hx (ht.closed.classes y x hy hxy)
  cases ho : unify n (t.rename ρ) (u.rename ρ) w with
  | success w' =>
    rw [ho] at hconfined
    exact fun x hx => ⟨hconfined.classOf x (hout x hx), hconfined.value x (hout x hx)⟩
  | failure e w' => trivial
  | cutOff => trivial

/-- What the unification of goal and head does in lockstep: afterwards the stores show
    as before, and the clauses' variables have not been touched in either. -/
theorem unify_lockstep (hd : Division s₀ L K) (ht : Tended s₀ L s)
    (hshow : s.Shows s₀.nextVar π w.store) (hw : w.Sound w.store.nextVar) {m m' : Nat}
    (hm : s.nextVar ≤ m) (hm' : m' = w.store.nextVar + (m - s.nextVar)) {goal head : Compound A}
    (hgoal : Fit L s goal) (hhead : head.Within fun x => s.nextVar ≤ x.id ∧ x.id < m) {n : Nat}
    {check : Bool} (hcheck : w.trail.occursCheck = check) :
    Outcome.Alike
      (fun v w' =>
        v.store.Embeds (fun x => x.id < m) (shifting s.nextVar w.store.nextVar π) w'.store ∧
        v.Sound m ∧ w'.Sound m' ∧ v.store.Closed L ∧ (∀ x, ¬ L x → v.store.value x = s.value x) ∧
        s.Embeds K π w'.store ∧ ∀ x, K x → w'.store.classOf x = w.store.classOf x)
      (unify n goal.toTerm head.toTerm ⟨s, .start check⟩)
      (unify n (goal.rename π).toTerm
        (head.rename (shifting s.nextVar w.store.nextVar π)).toTerm w) := by
  let ρ := shifting s.nextVar w.store.nextVar π
  -- the variables of the head are new on both sides, and shifted to each other
  have hemb : s.Embeds (fun x => x.id < m) ρ w.store :=
    hshow.embeds.extend ht.inScope hw.inScope.store hshow.into hm
  have hgoal_rename : goal.rename π = goal.rename ρ :=
    Compound.rename_congr fun x hx => (shifting_lt (hgoal x hx).1).symm
  have hgoal_m : goal.toTerm.Within fun x => L x ∧ x.id < m := fun x hx =>
    ⟨(hgoal x hx).2, Nat.lt_of_lt_of_le (hgoal x hx).1 hm⟩
  have hhead_m : head.toTerm.Within fun x => L x ∧ x.id < m := fun x hx =>
    ⟨hd.later x (Nat.le_trans ht.le (hhead x hx).1), (hhead x hx).2⟩
  have hinto : ∀ x : Var, L x ∧ x.id < m → (ρ x).id < m' := fun x hx => by
    rw [hm']
    exact shifting_into hshow.into hm hx.2
  have hfix : ∀ x, K x → x.id < m ∧ ρ x = x := fun x hx =>
    ⟨Nat.lt_of_lt_of_le (hd.old hx) (Nat.le_trans ht.le hm),
      (shifting_lt (Nat.lt_of_lt_of_le (hd.old hx) ht.le)).trans (hshow.old x (hd.old hx))⟩
  -- the two attempts go in lockstep, and each keeps what it keeps on its own
  have hlock := unify_embeds n goal.toTerm head.toTerm ⟨s, .start check⟩ w
    (hgoal_m.mono fun _ hx => hx.2) (hhead_m.mono fun _ hx => hx.2)
    ⟨hemb, Session.consistent_start ht.consistent check, hw.consistent, hcheck⟩
  have hleft := ht.unify_ends hm n hgoal_m hhead_m check
  have hright := Horn.unify_ends (Session.stable_sound m') n _ _ w
    (hgoal_m.rename hinto) (hhead_m.rename hinto) (hw.mono (by omega))
  have hclauses := ht.unify_image_ends hd hemb hw.consistent hfix n hgoal_m hhead_m
  rw [hgoal_rename]
  rw [← Compound.toTerm_rename, ← Compound.toTerm_rename] at hlock hright hclauses
  revert hlock hleft hright hclauses
  generalize unify n goal.toTerm head.toTerm ⟨s, .start check⟩ = o
  generalize unify n (goal.rename ρ).toTerm (head.rename ρ).toTerm w = o'
  intro hlock
  cases hlock with
  | failure => exact fun _ _ _ => .failure
  | cutOff => exact fun _ _ _ => .cutOff
  | @success v w' hvw =>
    rintro ⟨hsound, hconfined⟩ hright hclauses
    -- the variables of the clauses are as they were before, on either side
    have hemb₀ := ht.embeds hd hshow
    have hkeep : ∀ x, K x → π x = x := fun x hx => hshow.old x (hd.old hx)
    refine .success ⟨hvw.store, hsound, hright, hconfined.closed, hconfined.value, ?_,
      fun x hx => (hclauses x hx).1⟩
    refine ⟨fun x y hx hy => ?_, fun x hx => ?_, hemb₀.values⟩
    · rw [hkeep x hx, hkeep y hy, (hclauses x hx).1, (hclauses y hy).1]
      have hxy := hemb₀.classes x y hx hy
      rw [hkeep x hx, hkeep y hy] at hxy
      exact hxy
    · rw [hkeep x hx, (hclauses x hx).2]
      have hxv := hemb₀.value x hx
      rw [hkeep x hx] at hxv
      exact hxv

/-- A step touches variables of sort `L` only, and the new goals are over such. -/
theorem Tended.headFirst (hd : Division s₀ L K) (ht : Tended s₀ L s) {goal : Compound A}
    (hgoal : Fit L s goal) {c : Clause A} {check : Bool} {n : Nat} {gs : List (Compound A)}
    {s' : Store A} (h : headFirst check n goal c s = some (some (gs, s'))) :
    Tended s₀ L s' ∧ (∀ g ∈ gs, Fit L s' g) ∧ ∀ x, ¬ L x → s'.classOf x = s.classOf x := by
  obtain ⟨r, q, w, hr, hu, hq, rfl, rfl⟩ := headFirst_eq_body h
  obtain ⟨hfresh, hsince⟩ := s.copyGoal_fresh n hr (Copying.since_empty s.nextVar)
  obtain ⟨hnew, hsince', hgrow⟩ := s.copyGoals_fresh n hq hsince
  -- what is made for the copy is of sort `L`
  have hlater : ∀ x : Var, s.nextVar ≤ x.id → L x := fun x hx =>
    hd.later x (Nat.le_trans ht.le hx)
  have hends := ht.unify_ends hsince.le n
    (fun x hx => ⟨(hgoal x hx).2, Nat.lt_of_lt_of_le (hgoal x hx).1 hsince.le⟩)
    (fun x hx => ⟨hlater x (hfresh x hx).1, (hfresh x hx).2⟩) check
  rw [hu] at hends
  obtain ⟨hsound, hconfined⟩ := hends
  refine ⟨?_, fun g hg x hx => ⟨(hnew g hg x hx).2, hlater x (hnew g hg x hx).1⟩,
    hconfined.classOf⟩
  exact {
    consistent := hsound.consistent.store.setNextVar _
    inScope := (hsound.inScope.store.mono hgrow).setNext _
    le := Nat.le_trans ht.le hsince'.le
    closed := hconfined.closed.setNext _
    outside := fun x hx => by
      rw [Store.value_setNext, hconfined.value x hx, ht.outside x hx] }

/-- An attempt of the search goes in lockstep with one of the recursion. -/
theorem tryClause_lockstep (hd : Division s₀ L K) (ht : Tended s₀ L s)
    (hshow : s.Shows s₀.nextVar π w.store) (hw : w.Sound w.store.nextVar) {goal : Compound A}
    (hgoal : Fit L s goal) {c : Clause A} (hhead : c.head.Within K)
    (hbody : ∀ g ∈ c.body, g.Within K) {check : Bool} (hcheck : w.trail.occursCheck = check)
    (n : Nat) :
    Option.Rel (Tried s₀ L π s) (headFirst check n goal c s)
      (tryClause n (goal.rename π) c w) := by
  let a := s.nextVar
  let b := w.store.nextVar
  let ρ := shifting a b π
  have hfix : ∀ x, K x → π x = x := fun x hx => hshow.old x (hd.old hx)
  -- the heads are copied in step
  have hheads := (ht.embeds hd hshow).copyGoal n hhead (.start (a := a) (b := b) K π s w.store)
  rw [hd.rename_clause hshow hhead] at hheads
  rw [headFirst_eq, tryClause]
  refine rel_bind hheads fun r r' hr _ hrr' => ?_
  obtain ⟨hcopy, hmirrors⟩ := hrr'
  obtain ⟨hfresh, hsince⟩ := s.copyGoal_fresh n hr (Copying.since_empty a)
  have hunify := unify_lockstep hd ht hshow hw hsince.le hmirrors.next hgoal hfresh (n := n) hcheck
  rw [← hcopy] at hunify
  revert hunify
  generalize unify n goal.toTerm r.1.toTerm ⟨s, .start check⟩ = o
  generalize unify n (goal.rename π).toTerm r'.1.toTerm w = o'
  intro hunify
  cases hunify with
  | failure => exact .some .clash
  | cutOff => exact .none
  | @success v w' h =>
    obtain ⟨hemb, hv, hw', hclosed, hout, hclauses, hclass⟩ := h
    -- the classes of the clauses' variables are those that the head was copied with
    have hmirrors' : Copying.Mirrors K π a b s w'.store r.2 r'.2 :=
      hmirrors.of_classOf fun x hx => by rw [hfix x hx, hclass x hx]
    -- so the bodies are copied in step, though in stores of different times
    have hbodies := hclauses.copyGoals n hbody hmirrors'
    rw [Compound.map_rename_eq_self fun g hg x hx => hfix x (hbody g hg x hx)] at hbodies
    refine rel_map hbodies fun q q' hq hqq' => ?_
    obtain ⟨hgoals, hnext⟩ := hqq'
    obtain ⟨hnew, -, hgrow⟩ := s.copyGoals_fresh n hq hsince
    have hle : s.nextVar ≤ q.2.nextVar := hnext.le
    -- what has been made for head and body is shifted by one shift
    have hshow' : (v.store.setNext q.2.nextVar).Shows s₀.nextVar ρ
        (w'.store.setNext q'.2.nextVar) := by
      rw [hnext.next]
      exact hshow.later ht.le hsince.le hgrow hemb hv.inScope.store
        (hmirrors.next ▸ hw'.inScope.store)
    have htended : Tended s₀ L (v.store.setNext q.2.nextVar) := {
      consistent := hv.consistent.store.setNextVar _
      inScope := (hv.inScope.store.mono hgrow).setNext _
      le := Nat.le_trans ht.le hle
      closed := hclosed.setNext _
      outside := fun x hx => by rw [Store.value_setNext, hout x hx, ht.outside x hx] }
    rw [hgoals]
    exact .body hshow' (fun x hx => shifting_lt hx) htended hle fun g hg x hx =>
      ⟨(hnew g hg x hx).2, hd.later x (Nat.le_trans ht.le (hnew g hg x hx).1)⟩

end lockstep

end Search

end Horn
