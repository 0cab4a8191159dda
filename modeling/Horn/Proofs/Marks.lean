import Horn.Proofs.InScope

/-! # What holds at the marks

    A choice point speaks of the session that undoing to its mark leaves.  A relation
    between sessions, choice points and the entries of a second stack *holds at the marks*
    of a search if every choice point is so related to that session and to the entry in its
    place.  If it lasts as long as the session is kept, then it still holds at the marks when
    the session is extended (`AtMarks.extends`), whatever has been bound and undone above
    them. -/

namespace Horn.Search

universe u v

variable {A : Type u} {β : Type v}

/-- Every choice point is related to the session that undoing to its mark leaves, and to
    the entry that stands in its place on the second stack. -/
inductive AtMarks (R : Session A → ChoicePoint A → β → Prop) :
    Session A → List (ChoicePoint A) → List β → Prop where
  | nil {w : Session A} : AtMarks R w [] []
  | cons {w : Session A} {point : ChoicePoint A} {points : List (ChoicePoint A)} {b : β}
      {bs : List β} :
      point.mark ≤ w.mark → R (w.undoTo point.mark) point b →
      AtMarks R (w.undoTo point.mark) points bs → AtMarks R w (point :: points) (b :: bs)

/-- What the relation says of a session it says of all that the session is kept in. -/
def Lasting (o : Options) (R : Session A → ChoicePoint A → β → Prop) : Prop :=
  ∀ v v' point b, Running o v → Running o v' → v.Kept v' → R v point b → R v' point b

section marks

variable {o : Options} {R : Session A → ChoicePoint A → β → Prop} {w w' : Session A}
  {point : ChoicePoint A} {points : List (ChoicePoint A)} {b : β} {bs : List β}

/-- Whatever extends the session makes no difference at the marks. -/
theorem AtMarks.extends (hR : Lasting o R) (h : AtMarks R w points bs) (hw : Running o w)
    (hw' : Running o w') (hext : w.Extends w') : AtMarks R w' points bs := by
  induction h generalizing w' with
  | nil => exact .nil
  | @cons w point points b bs hmark hpoint _ ih =>
    have hkept := hext.kept_undoTo hmark
    have hback := hw.undoTo point.mark
    have hback' := hw'.undoTo point.mark
    exact .cons (Nat.le_trans hmark hext.mark_le) (hR _ _ _ _ hback hback' hkept hpoint)
      (ih hback hback' (.of_kept hkept))

/-- A choice point is opened in the session as it is. -/
theorem AtMarks.open (hpoint : R w point b) (hmark : point.mark = w.mark)
    (h : AtMarks R w points bs) : AtMarks R w (point :: points) (b :: bs) := by
  have hself : w.undoTo point.mark = w := by
    rw [hmark, w.undoTo_self]
  apply AtMarks.cons (Nat.le_of_eq hmark)
  · rw [hself]
    exact hpoint
  · rw [hself]
    exact h

end marks

end Horn.Search
