import Horn.Proofs.ExactUndo

/-! # Calls that fail change nothing

    Giving a variable a value and binding two variables may fail deep inside a unification
    of values that has already merged classes, those of the two variables among them.  All
    of that is taken back, whichever clash it was and whether or not the occurs check is on.

    A call fails in one of two ways: the unification of two values has failed and is undone
    to the mark at which it began, or the occurs check has refused a value before anything
    was done.

    * `Session.Unchanged`: trail, classes, members and values are what they were, and so is
      all that can be read.
    * `unchanged_of_undoing`: a failed unification that is undone.
    * `unchanged_of_checkingOccurs`: a value that is refused.

    Main statement: `failed_call_changes_nothing`. -/

namespace Horn

universe u

variable {A : Type u}

/-! ## How a call fails -/

theorem Outcome.undoingTo_eq_failure {o : Outcome A} {mark : Nat} {e : Clash A} {w' : Session A}
    (h : o.undoingTo mark = .failure e w') :
    ∃ v, o = .failure e v ∧ v.undoTo mark = w' := by
  cases o with
  | success w => cases h
  | failure e v =>
    cases h
    exact ⟨v, rfl, rfl⟩
  | cutOff => cases h

theorem Outcome.andThen_eq_failure {o : Outcome A} {next : Session A → Outcome A} {e : Clash A}
    {w' : Session A} (h : o.andThen next = .failure e w') :
    o = .failure e w' ∨ ∃ v, o = .success v ∧ next v = .failure e w' := by
  cases o with
  | success v => exact .inr ⟨v, rfl, h⟩
  | failure e v => exact .inl h
  | cutOff => cases h

/-- Where the occurs check refuses a value it says so, and nothing has been done. -/
theorem Session.checkingOccurs_eq_failure {w w' : Session A} {n : Nat} {x : Var}
    {c : Compound A} {next : Session A → Session A} {e : Clash A}
    (h : w.checkingOccurs n x c (fun v => .success (next v)) = .failure e w') :
    (∃ d, e = .occurs x d) ∧ w' = w := by
  unfold checkingOccurs at h
  split at h
  · split at h
    · cases h
    · cases h
    · split at h
      · cases h
      · next d _ =>
        cases h
        exact ⟨⟨d, rfl⟩, rfl⟩
  · cases h

/-! ## What has not changed -/

section unchanged

variable [DecidableEq A]

/-- Trail and store are what they were: the trail holds the same moves, every variable is
    in the class it was in, every class has the members it had, in whatever order, and every
    class that had been made holds what it held.  So all that can be asked of the store is
    answered as before. -/
structure Session.Unchanged (w w' : Session A) : Prop where
  trail : w'.trail = w.trail
  nextVar : w'.store.nextVar = w.store.nextVar
  classOf : ∀ x, w'.store.classOf x = w.store.classOf x
  members : ∀ c, (w'.store.members c).Perm (w.store.members c)
  valueOf : ∀ c : ClassId, c.Made w.store.nextJoint → w'.store.valueOf c = w.store.valueOf c
  reads : w.store.ReadsAlike w'.store

namespace Session

variable {w w' : Session A} {n : Nat} {e : Clash A}

theorem Unchanged.refl (w : Session A) : w.Unchanged w where
  trail := rfl
  nextVar := rfl
  classOf _ := rfl
  members _ := .refl _
  valueOf _ _ := rfl
  reads := .of_classes (fun _ => rfl) fun _ => rfl

/-- Undoing whatever extends a session leaves it unchanged, if no variables were made. -/
theorem ExtendsAll.unchanged {v : Session A} (h : w.ExtendsAll v) (hframe : w.SameFrame v)
    (hw : w.Consistent) (hv : v.Consistent) : w.Unchanged (v.undoTo w.mark) where
  trail := (h.kept 0).trail
  nextVar := (nextVar_undo _ v).trans hframe.nextVar
  classOf := h.classOf_undoTo
  members := hw.store.members_perm (hv.undoTo w.mark).store h.classOf_undoTo
  valueOf _ hc := h.valueOf_undoTo hc
  reads := .of_classes h.classOf_undoTo (h.value_undoTo hw.store)

/-- A unification that fails and is undone leaves everything as it was, however much it had
    done. -/
theorem unchanged_of_undoing (hw : w.Consistent) {t u : Term A}
    (h : (unify n t u w).undoingTo w.mark = .failure e w') : w.Unchanged w' := by
  obtain ⟨v, hv, rfl⟩ := Outcome.undoingTo_eq_failure h
  have hstable := (stable_extendsAll w).and (w.stable_sameFrame.and stable_consistent)
  have hends := unify_keeps hstable n t u ⟨fun _ => .refl _, ⟨rfl, rfl⟩, hw⟩
  rw [hv] at hends
  obtain ⟨hextends, hframe, hconsistent⟩ := hends
  exact hextends.unchanged hframe hw hconsistent

theorem unchanged_of_checkingOccurs {x : Var} {c : Compound A} {next : Session A → Session A}
    (h : w.checkingOccurs n x c (fun v => .success (next v)) = .failure e w') :
    w.Unchanged w' := by
  rw [(checkingOccurs_eq_failure h).2]
  exact .refl w

theorem resolve_unchanged (hw : w.Consistent) {x : Var} {c : Compound A}
    (h : w.resolve n x c = .failure e w') : w.Unchanged w' := by
  unfold resolve resolveBy at h
  split at h
  · exact unchanged_of_undoing hw h
  · exact unchanged_of_checkingOccurs h

theorem bind_unchanged (hw : w.Consistent) {x y : Var}
    (h : w.bind n x y = .failure e w') : w.Unchanged w' := by
  unfold bind bindBy at h
  split at h
  · cases h
  · split at h
    · cases h
    · exact unchanged_of_checkingOccurs h
    · exact unchanged_of_checkingOccurs h
    · -- once the values have been unified, the merge does not fail
      rcases Outcome.andThen_eq_failure h with hvalues | ⟨v, -, hmerge⟩
      · exact unchanged_of_undoing hw hvalues
      · cases hmerge

end Session

/-- **Calls that fail change nothing.**  In any consistent session, as any store and trail of
    a reachable world are (`World.Reachable.sound`), whatever value a variable was to be given
    and whatever two variables were to be bound together: if that fails, all is as it was. -/
theorem failed_call_changes_nothing {w w' : Session A} (hw : w.Consistent) {n : Nat}
    {e : Clash A} :
    (∀ x c, w.resolve n x c = .failure e w' → w.Unchanged w') ∧
    ∀ x y, w.bind n x y = .failure e w' → w.Unchanged w' :=
  ⟨fun _ _ h => Session.resolve_unchanged hw h, fun _ _ h => Session.bind_unchanged hw h⟩

end unchanged

/-- Of five variables the first two are given the values `7(Z, 8)` and `7(U, 9)` over the
    next two.  To unify these merges `Z` and `U` before it fails, at the names `8` and `9`;
    binding the first two fails with it, and `Z` and `U` are as they were.  The last variable
    is given a constant, and then another one is refused. -/
theorem values_clash_after_merge :
    ∃ w v : Session Nat, w.Consistent ∧ w.mark = 3 ∧
      unify 4 (.app 7 [.var ⟨2⟩, .app 8 []]) (.app 7 [.var ⟨3⟩, .app 9 []]) w =
        .failure (.names 8 9) v ∧ v.mark = 5 ∧
      (∃ w', w.bind 4 ⟨0⟩ ⟨1⟩ = .failure (.names 8 9) w' ∧ w.Unchanged w') ∧
      ∃ w', w.resolve 4 ⟨4⟩ (.const 6) = .failure (.names 5 6) w' ∧ w.Unchanged w' := by
  have hrun : ∃ w : Session Nat, Session.perform ⟨.empty, .start false⟩
      [.create, .create, .create, .create, .create, .resolve 4 ⟨0⟩ ⟨7, [.var ⟨2⟩, .app 8 []]⟩,
        .resolve 4 ⟨1⟩ ⟨7, [.var ⟨3⟩, .app 9 []]⟩, .resolve 4 ⟨4⟩ (.const 5)] = some w ∧
      w.mark = 3 ∧ (∃ v, unify 4 (.app 7 [.var ⟨2⟩, .app 8 []]) (.app 7 [.var ⟨3⟩, .app 9 []]) w =
        .failure (.names 8 9) v ∧ v.mark = 5) ∧
      (∃ w', w.bind 4 ⟨0⟩ ⟨1⟩ = .failure (.names 8 9) w') ∧
      ∃ w', w.resolve 4 ⟨4⟩ (.const 6) = .failure (.names 5 6) w' :=
    ⟨_, rfl, rfl, ⟨_, rfl, rfl⟩, ⟨_, rfl⟩, _, rfl⟩
  obtain ⟨w, hperform, hmark, ⟨v, hunify, hv⟩, ⟨b, hbind⟩, r, hresolve⟩ := hrun
  have hw : w.Consistent :=
    Session.perform_consistent hperform (Session.consistent_start Store.consistent_empty false)
  exact ⟨w, v, hw, hmark, hunify, hv, ⟨b, hbind, (failed_call_changes_nothing hw).2 _ _ hbind⟩,
    r, hresolve, (failed_call_changes_nothing hw).1 _ _ hresolve⟩

end Horn
