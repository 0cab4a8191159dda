import Horn.Proofs.OccursCheck

/-! # Snapshots and trails

    There are two ways back.  A snapshot remembers the class of one variable, and restoring
    it moves that variable alone and writes nothing down.  A trail remembers all moves that
    were made along it, and undoing takes them back in turn.

    Whatever is done, a class holds what it held when it was made.  So a variable that is in
    the class it was in has the value it had, whichever way it came back there.

    * `Remembers`: snapshots and the values of classes are never lost.
    * `perform_restores`: restoring several snapshots, in any order.
    * `undo_classOf_of_restored`: undoing brings a variable to the same class whether or not it
      was restored before, as the last move taken back is the first that was made.

    Main statement: `snapshots_agree_with_trail`. -/

namespace Horn

universe u

variable {A : Type u}

/-! ## Values of classes -/

/-- The classes made in `s` hold in `s'` what they held. -/
structure Store.KeepsValues (s s' : Store A) : Prop where
  nextJoint_le : s.nextJoint ≤ s'.nextJoint
  valueOf : ∀ c : ClassId, c.Made s.nextJoint → s'.valueOf c = s.valueOf c

namespace Store

variable {s s' : Store A}

theorem KeepsValues.refl (s : Store A) : s.KeepsValues s := ⟨Nat.le_refl _, fun _ _ => rfl⟩

theorem KeepsValues.move (h : s.KeepsValues s') (x : Var) (c : ClassId) :
    s.KeepsValues (s'.move x c) where
  nextJoint_le := by
    rw [nextJoint_move]
    exact h.nextJoint_le
  valueOf d hd := by
    rw [valueOf_move]
    exact h.valueOf d hd

/-- A variable that is in the class it was in has the value it had. -/
theorem KeepsValues.value (h : s.KeepsValues s') (hs : s.Consistent) {x : Var}
    (hx : s'.classOf x = s.classOf x) : s'.value x = s.value x := by
  unfold Store.value
  rw [hx]
  exact h.valueOf _ (hs.made x)

end Store

namespace Session

variable {s : Store A}

theorem keepsValues_gather {w : Session A} (h : s.KeepsValues w.store) (cs : List ClassId)
    (value : Option (Compound A)) : s.KeepsValues (w.gather cs value).store where
  nextJoint_le := by
    rw [nextJoint_gather]
    have hle := h.nextJoint_le
    omega
  valueOf c hc := by
    -- the class that is made now is none of those there were
    have hne : ClassId.joint w.store.nextJoint ≠ c := (hc.mono h.nextJoint_le).ne_joint.symm
    rw [valueOf_gather, if_neg hne]
    exact h.valueOf c hc

theorem keepsValues_undoTo {w : Session A} (h : s.KeepsValues w.store) (mark : Nat) :
    s.KeepsValues (w.undoTo mark).store :=
  undo_induction (P := fun v => s.KeepsValues v.store) (fun _ _ x c _ hv => hv.move x c) _ h

theorem stable_keepsValues (s : Store A) :
    Stable (fun _ => True) (fun w => s.KeepsValues w.store) fun w => s.KeepsValues w.store :=
  .everywhere (fun _ cs value h => keepsValues_gather h cs value)
    fun v _ _ hw => keepsValues_undoTo hw v.mark

end Session

section acts

variable [DecidableEq A]

theorem Call.run_keepsValues {s : Store A} {w w' : Session A} {c : Call A}
    (h : c.run w = some w') (hw : s.KeepsValues w.store) : s.KeepsValues w'.store := by
  refine run_keeps (Session.stable_keepsValues s) (fun v n _ hv => ?_) c.within_true ?_ h hw
  · exact ⟨hv.nextJoint_le, fun c hc => (Store.valueOf_setNext n v.store c).trans (hv.valueOf c hc)⟩
  · intro mark _ v hv
    exact Session.keepsValues_undoTo hv mark

/-! ## What a world remembers -/

namespace World

variable {d d' : World A}

/-- Snapshots taken in `d` are there in `d'`, and classes hold what they held. -/
structure Remembers (d d' : World A) : Prop where
  values : d.store.KeepsValues d'.store
  snapshots : d.snapshots <+: d'.snapshots

omit [DecidableEq A] in
theorem Remembers.getElem? (h : d.Remembers d') {k : Nat} {snap : Store.Snapshot}
    (hk : d.snapshots[k]? = some snap) : d'.snapshots[k]? = some snap := by
  obtain ⟨more, hmore⟩ := h.snapshots
  rw [← hmore, List.getElem?_append_left (List.getElem?_eq_some_iff.mp hk).1]
  exact hk

theorem Remembers.step {d₀ : World A} (h : d₀.Remembers d) {a : Act A} (hrun : a.run d = some d') :
    d₀.Remembers d' := by
  cases a with
  | openTrail check =>
    cases hrun
    exact ⟨h.values, h.snapshots⟩
  | call i c =>
    obtain ⟨t, w, -, hw, rfl⟩ := Act.exists_of_run_call hrun
    exact ⟨Call.run_keepsValues hw h.values, h.snapshots⟩
  | snapshot x =>
    cases hrun
    exact ⟨h.values, h.snapshots.trans (List.prefix_append ..)⟩
  | restore x k =>
    obtain ⟨snap, -, rfl⟩ := Act.exists_of_run_restore hrun
    exact ⟨h.values.move x snap.target, h.snapshots⟩

theorem Remembers.perform {d₀ : World A} (h : d₀.Remembers d) {acts : List (Act A)}
    (hrun : d.perform acts = some d') : d₀.Remembers d' := by
  induction acts generalizing d with
  | nil =>
    cases hrun
    exact h
  | cons a acts ih =>
    obtain ⟨d₁, hact, hrest⟩ := Option.bind_eq_some_iff.mp hrun
    exact ih (h.step hact) hrest

theorem Run.remembers {P : Act A → Prop} (hrun : d.Run P d') (hd : d.Reachable) :
    d.Remembers d' :=
  hrun.keeps (I := d.Remembers) hd (fun _ _ _ _ _ _ hact h => h.step hact)
    ⟨.refl _, List.prefix_refl _⟩

/-! ## Restoring -/

/-- Restores each of the variables `xs` from the snapshot that `k` gives it, in this order. -/
def restores (k : Var → Nat) (xs : List Var) : List (Act A) := xs.map fun x => .restore x (k x)

/-- Of the variables those in `xs` are in the class they have in `s`, and the others in the
    class they had in `d`.  The trails are as they were. -/
structure Restored (s : Store A) (xs : List Var) (d d' : World A) : Prop where
  classOf : ∀ x ∈ xs, d'.store.classOf x = s.classOf x
  others : ∀ x, x ∉ xs → d'.store.classOf x = d.store.classOf x
  trails : d'.trails = d.trails

/-- Snapshots of variables in `s` can be restored in any order. -/
theorem perform_restores {s : Store A} {k : Var → Nat} {xs : List Var}
    (hk : ∀ x ∈ xs, d.snapshots[k x]? = some (s.snapshot x)) :
    ∃ d', d.perform (restores k xs) = some d' ∧ Restored s xs d d' := by
  induction xs generalizing d with
  | nil => exact ⟨d, rfl, (fun _ hx => by cases hx), fun _ _ => rfl, rfl⟩
  | cons x xs ih =>
    let d₁ : World A := ⟨d.store.move x (s.classOf x), d.trails, d.snapshots⟩
    have hfirst : (Act.restore x (k x)).run d = some d₁ := by
      show (d.snapshots[k x]?).map _ = _
      rw [hk x (List.mem_cons_self ..)]
      rfl
    obtain ⟨d', hrest, h⟩ := ih (d := d₁) fun y hy => hk y (List.mem_cons_of_mem _ hy)
    refine ⟨d', ?_, fun y hy => ?_, fun y hy => ?_, h.trails⟩
    · show ((Act.restore x (k x)).run d).bind _ = _
      rw [hfirst]
      exact hrest
    · by_cases hmem : y ∈ xs
      · exact h.classOf y hmem
      · -- then it is `x`, which the later restores leave where it is
        obtain rfl | hy := List.mem_cons.mp hy
        · rw [h.others y hmem]
          simp [d₁, Store.classOf_move]
        · exact absurd hy hmem
    · rw [List.mem_cons, not_or] at hy
      rw [h.others y hy.2]
      simp [d₁, Store.classOf_move, Ne.symm hy.1]

end World

end acts

/-! ## Restoring and undoing -/

namespace Session

/-- Let undoing bring `x` to class `c`.  Then it also does so from a store in which `x` is in
    that class already: if no move of `x` is taken back, it stays there, and if some are, the
    last of them decides. -/
theorem undo_classOf_of_restored {n : Nat} {s s' : Store A} {tr : Trail} {x : Var} {c : ClassId}
    (h : ((⟨s, tr⟩ : Session A).undo n).store.classOf x = c)
    (hx : s'.classOf x = s.classOf x ∨ s'.classOf x = c) :
    ((⟨s', tr⟩ : Session A).undo n).store.classOf x = c := by
  induction n generalizing s s' tr with
  | zero =>
    rcases hx with hx | hx
    · exact hx.trans h
    · exact hx
  | succ n ih =>
    rcases (⟨s, tr⟩ : Session A).trail_cases with ⟨v, check, hv⟩ | ⟨v, moves, y, e, check, hv⟩
    · cases hv
      rw [undo_empty] at h ⊢
      rcases hx with hx | hx
      · exact hx.trans h
      · exact hx
    · cases hv
      rw [undo_push] at h ⊢
      refine ih h ?_
      rw [Store.classOf_move, Store.classOf_move]
      by_cases hyx : y = x
      · simp [hyx]
      · simp only [if_neg hyx]
        exact hx

end Session

section along

variable [DecidableEq A]

/-- The act is no restore, calls are made along the `i`-th trail, and none undoes anything
    below `mark`. -/
def Act.Along (i mark : Nat) : Act A → Prop
  | call j c => j = i ∧ c.Spares mark
  | restore _ _ => False
  | _ => True

namespace World

variable {d d' : World A} {i : Nat} {tr : Trail}

/-- Any trail can be undone to any mark. -/
theorem exists_undoTo (htr : d.trails[i]? = some tr) (mark : Nat) :
    ∃ d', (Act.call i (.undoTo mark)).run d = some d' ∧
      d'.store = (Session.undoTo ⟨d.store, tr⟩ mark).store := by
  obtain ⟨s, ts, snaps⟩ := d
  let w : Session A := Session.undoTo ⟨s, tr⟩ mark
  refine ⟨⟨w.store, ts.set i w.trail, snaps⟩, ?_, rfl⟩
  show ts[i]?.bind _ = _
  rw [htr]
  rfl

/-- What is done along one trail extends the session with that trail. -/
theorem Run.extends (hrun : d.Run (Act.Along i tr.length) d') (hd : d.Reachable)
    (htr : d.trails[i]? = some tr) :
    ∃ tr', d'.trails[i]? = some tr' ∧ Session.ExtendsAll ⟨d.store, tr⟩ ⟨d'.store, tr'⟩ := by
  refine hrun.keeps (I := fun d₁ => ∃ tr₁, d₁.trails[i]? = some tr₁ ∧
    Session.ExtendsAll ⟨d.store, tr⟩ ⟨d₁.store, tr₁⟩) hd ?_ ⟨tr, htr, fun _ => .refl _⟩
  rintro d₁ d₂ a - ha - hact ⟨tr₁, htr₁, hextends⟩
  cases a with
  | openTrail check =>
    cases hact
    refine ⟨tr₁, ?_, hextends⟩
    rw [List.getElem?_append_left (List.getElem?_eq_some_iff.mp htr₁).1]
    exact htr₁
  | call j c =>
    obtain ⟨rfl, hspares⟩ := ha
    obtain ⟨t, w, ht, hw, rfl⟩ := Act.exists_of_run_call hact
    cases htr₁.symm.trans ht
    refine ⟨w.trail, ?_, Call.run_extends hspares hw hextends⟩
    exact List.getElem?_set_self (List.getElem?_eq_some_iff.mp ht).1
  | snapshot x =>
    cases hact
    exact ⟨tr₁, htr₁, hextends⟩
  | restore x k => exact ha.elim

end World

/-- **Snapshots and trails lead back to the same store.**  Let snapshots of the variables in
    `W` have been taken in a world that can be reached, and let anything be done then.
    Restoring them, in any order, gives these variables the values they had, those are in one
    class that were, and no other variable is moved.  If since a mark of one trail all has been
    done along that trail, without restores and without undoing below the mark, then the
    restores bring every variable of `W` to the class to which undoing to the mark would bring
    it, and to undo after the restores moves none of them. -/
theorem snapshots_agree_with_trail {d d' : World A} (hd : d.Reachable) {W : Finset Var}
    {k : Var → Nat} (hk : ∀ x ∈ W, d.snapshots[k x]? = some (d.store.snapshot x))
    (hrun : d.Run (fun _ => True) d') {xs : List Var} (hxs : ∀ x, x ∈ xs ↔ x ∈ W) :
    ∃ d'', d'.perform (World.restores k xs) = some d'' ∧
      (∀ x ∈ W, d''.store.value x = d.store.value x) ∧
      (∀ x ∈ W, ∀ y ∈ W, d''.store.aliased x y = d.store.aliased x y) ∧
      (∀ x, x ∉ W → d''.store.classOf x = d'.store.classOf x) ∧
      ∀ i tr, d.trails[i]? = some tr → d.Run (Act.Along i tr.length) d' →
        ∃ u v, (Act.call i (.undoTo tr.length)).run d' = some u ∧
          (Act.call i (.undoTo tr.length)).run d'' = some v ∧
          ∀ x ∈ W, d''.store.classOf x = u.store.classOf x ∧
            v.store.classOf x = d''.store.classOf x := by
  have hremembers := hrun.remembers hd
  obtain ⟨d'', hperform, hrestored⟩ := World.perform_restores (d := d') (s := d.store)
    fun x hx => hremembers.getElem? (hk x ((hxs x).mp hx))
  have hclass : ∀ x ∈ W, d''.store.classOf x = d.store.classOf x := fun x hx =>
    hrestored.classOf x ((hxs x).mpr hx)
  have hvalues := (hremembers.perform hperform).values
  refine ⟨d'', hperform, fun x hx => ?_, fun x hx y hy => ?_, fun x hx => ?_, ?_⟩
  · exact hvalues.value hd.sound.consistent (hclass x hx)
  · simp [Store.aliased, hclass x hx, hclass y hy]
  · exact hrestored.others x fun hmem => hx ((hxs x).mp hmem)
  · intro i tr htr halong
    obtain ⟨tr', htr', hextends⟩ := halong.extends hd htr
    obtain ⟨u, hu, hustore⟩ := World.exists_undoTo htr' tr.length
    obtain ⟨v, hv, hvstore⟩ := World.exists_undoTo (hrestored.trails ▸ htr') tr.length
    refine ⟨u, v, hu, hv, fun x hx => ?_⟩
    -- undoing brings all variables to the classes of the mark, and those in `W` are there
    have hback : (Session.undoTo ⟨d'.store, tr'⟩ tr.length).store.classOf x = d.store.classOf x :=
      hextends.classOf_undoTo x
    have hback' := Session.undo_classOf_of_restored hback (.inr (hclass x hx))
    rw [hustore, hvstore, hback, hclass x hx]
    exact ⟨rfl, hback'⟩

end along

/-- Of four variables `X` and `Y` are bound together, `Z` has the value `7(U)`, and snapshots of
    all four are taken.  Then `U` gets the value `8` by a unification, `X` and `U` are bound
    together, which is undone, and `Y` and `Z` are bound together, so that all but `U` are in
    one class.  The restores, in another order, bring back what there was, as undoing the trail
    does. -/
theorem restored_in_another_order :
    let W : Finset Var := {⟨0⟩, ⟨1⟩, ⟨2⟩, ⟨3⟩}
    ∃ (d d' d'' : World Nat) (tr : Trail), d.Reachable ∧ d.trails[0]? = some tr ∧
      tr.length = 3 ∧ d.Run (Act.Along 0 tr.length) d' ∧
      d.store.aliased ⟨0⟩ ⟨2⟩ = false ∧ d'.store.aliased ⟨0⟩ ⟨2⟩ = true ∧
      d.store.value ⟨3⟩ = none ∧ d'.store.value ⟨3⟩ = some (.const 8) ∧
      d'.perform (World.restores Var.id [⟨2⟩, ⟨0⟩, ⟨3⟩, ⟨1⟩]) = some d'' ∧
      (∀ x ∈ W, d''.store.value x = d.store.value x) ∧
      (∀ x ∈ W, ∀ y ∈ W, d''.store.aliased x y = d.store.aliased x y) ∧
      ∃ u v, (Act.call 0 (.undoTo 3)).run d' = some u ∧
        (Act.call 0 (.undoTo 3)).run d'' = some v ∧
        ∀ x ∈ W, d''.store.classOf x = u.store.classOf x ∧
          v.store.classOf x = d''.store.classOf x := by
  intro W
  let d₀ : World Nat := ⟨(Store.empty.freshMany 4).2, [.start true], []⟩
  let before : List (Act Nat) := [.call 0 (.bind 3 ⟨0⟩ ⟨1⟩),
    .call 0 (.resolve 3 ⟨2⟩ ⟨7, [.var ⟨3⟩]⟩), .snapshot ⟨0⟩, .snapshot ⟨1⟩, .snapshot ⟨2⟩,
    .snapshot ⟨3⟩]
  let after : List (Act Nat) := [.call 0 (.unify 4 (.var ⟨2⟩) (.app 7 [.app 8 []])),
    .call 0 (.bind 3 ⟨0⟩ ⟨3⟩), .call 0 (.undoTo 4), .call 0 (.bind 3 ⟨1⟩ ⟨2⟩)]
  have hrun : ∃ (d d' : World Nat) (tr : Trail), d₀.perform before = some d ∧
      d.store.nextVar = 4 ∧ d.trails[0]? = some tr ∧ tr.length = 3 ∧
      d.snapshots = [⟨0⟩, ⟨1⟩, ⟨2⟩, ⟨3⟩].map d.store.snapshot ∧ d.perform after = some d' ∧
      d.store.aliased ⟨0⟩ ⟨2⟩ = false ∧ d'.store.aliased ⟨0⟩ ⟨2⟩ = true ∧
      d.store.value ⟨3⟩ = none ∧ d'.store.value ⟨3⟩ = some (.const 8) :=
    ⟨_, _, _, rfl, rfl, rfl, rfl, rfl, rfl, rfl, rfl, rfl, rfl⟩
  obtain ⟨d, d', tr, hbefore, hnext, htr, hlength, hsnapshots, hafter, hapart, hjoined, hunbound,
    hbound⟩ := hrun
  have hd₀ : d₀.Reachable := World.reachable_freshMany 4 true
  have hrun₀ : d₀.Run (fun _ => True) d := World.run_of_perform hd₀ (Nat.le_refl 4)
    (by simp [before, Act.Within, Call.Within, Compound.Within, Compound.toTerm, Term.Within])
    hbefore
  have hd : d.Reachable := hrun₀.reachable hd₀
  have halong : d.Run (Act.Along 0 tr.length) d' := World.run_of_perform hd hnext.ge
    (by simp [after, Act.Along, Call.Spares, Act.Within, Call.Within, Term.Within, hlength]) hafter
  have hk : ∀ x ∈ W, d.snapshots[x.id]? = some (d.store.snapshot x) := by
    simp [W, hsnapshots]
  have hany : d.Run (fun _ => True) d' := World.run_of_perform hd hnext.ge
    (by simp [after, Act.Within, Call.Within, Term.Within]) hafter
  have hxs : ∀ x, x ∈ ([⟨2⟩, ⟨0⟩, ⟨3⟩, ⟨1⟩] : List Var) ↔ x ∈ W := by
    intro x
    simp only [W, List.mem_cons, List.not_mem_nil, Finset.mem_insert, Finset.mem_singleton]
    tauto
  obtain ⟨d'', hrestore, hvalue, halias, -, hundo⟩ := snapshots_agree_with_trail hd hk hany hxs
  refine ⟨d, d', d'', tr, hd, htr, hlength, halong, hapart, hjoined, hunbound, hbound, hrestore,
    hvalue, halias, ?_⟩
  have hback := hundo 0 tr htr halong
  rw [hlength] at hback
  exact hback

end Horn
