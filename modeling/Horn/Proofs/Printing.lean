import Horn.Text.Term

/-! # Printing through a store

    To print a term its variables are looked up as they are come to, one walk through the
    store with no resolved form in between.  The walk is written down here on its own, and
    comes to the text of the resolved form.

    * `Store.printed`: a term written down while its variables are looked up.
    * `Store.printed_eq_text`: this is its resolved form, written down. -/

namespace Horn

universe u v w

variable {A : Type u}

/-! ## Lists of texts -/

/-- To answer for each element with a function of another answer is to take that function of
    all the other answers. -/
theorem mapM_eq_map_mapM {α : Type u} {β : Type v} {γ : Type w} {f : α → Option β}
    {g : α → Option γ} {k : β → γ} (h : ∀ a, g a = (f a).map k) (as : List α) :
    as.mapM g = (as.mapM f).map (List.map k) := by
  induction as with
  | nil => rfl
  | cons a as ih =>
    rw [List.mapM_cons, List.mapM_cons, h, ih]
    cases f a with
    | none => rfl
    | some b =>
      cases as.mapM f with
      | none => rfl
      | some bs => rfl

section text

variable [Symbol A] {style : Style}

/-- A name, with the texts of its arguments in parentheses if it has any. -/
def Style.applied (style : Style) (f : A) : List String → String
  | [] => style.name f
  | t :: ts => style.name f ++ "(" ++ t ++ ts.foldr (fun t rest => ", " ++ t ++ rest) "" ++ ")"

theorem Term.textMore_eq (as : List (Term A)) :
    Term.textMore style as =
      (as.map (Term.text style)).foldr (fun t rest => ", " ++ t ++ rest) "" := by
  induction as with
  | nil => rfl
  | cons a as ih => rw [Term.textMore, ih, List.map_cons, List.foldr_cons]

theorem Term.text_app (f : A) (as : List (Term A)) :
    (Term.app f as).text style = style.applied f (as.map (Term.text style)) := by
  cases as with
  | nil => rfl
  | cons a as => rw [Term.text, Term.textMore_eq, List.map_cons, Style.applied]

/-! ## The walk -/

namespace Store

variable {s : Store A}

/-- The text of a term, where a bound variable is written as its value when it is come to and
    an unbound one by its own number. -/
def printed (s : Store A) (style : Style) : Nat → Term A → Option String
  | 0, _ => none
  | n + 1, .app f as => (as.mapM (s.printed style n)).map (style.applied f)
  | n + 1, .var x =>
    match s.value x with
    | none => some x.text
    | some c => (c.args.mapM (s.printed style n)).map (style.applied c.name)

/-- To print a term is to write down its resolved form. -/
theorem printed_eq_text (n : Nat) (t : Term A) : s.printed style n t = s.text n style t := by
  induction n generalizing t with
  | zero => rfl
  | succ n ih =>
    have hargs : ∀ (f : A) (as : List (Term A)),
        (as.mapM (s.printed style n)).map (style.applied f) =
          ((as.mapM (s.resolved n)).map (Term.app f)).map (Term.text style) := by
      intro f as
      rw [mapM_eq_map_mapM ih, Option.map_map, Option.map_map]
      congr 1
      funext us
      exact (Term.text_app f us).symm
    cases t with
    | app f as => exact hargs f as
    | var x =>
      rw [printed, text, resolved]
      cases s.value x with
      | none => rfl
      | some c => exact hargs c.name c.args

end Store

end text

end Horn
