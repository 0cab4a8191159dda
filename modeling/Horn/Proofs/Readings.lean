import Horn.Proofs.Printing
import Horn.Renaming

/-! # What is read off a store

    Everything that is asked of a store about variables and terms is answered from the
    classes of the variables and their values.  So two stores in which every variable is
    in the same class and has the same value give the same answers, whatever else is
    different in them: the order of the rosters, classes that nobody belongs to, the
    number of the next variable.

    Main statement: `ReadsAlike.of_classes`. -/

namespace Horn

universe u

variable {A : Type u}

namespace Store

variable {s s' : Store A}

/-! ## One answer after the other -/

theorem aliased_congr (hclass : ∀ x, s'.classOf x = s.classOf x) (x y : Var) :
    s'.aliased x y = s.aliased x y := by
  unfold aliased
  rw [hclass, hclass]

section value

variable (hvalue : ∀ x, s'.value x = s.value x)
include hvalue

theorem view_congr (t : Term A) : s'.view t = s.view t := by
  cases t with
  | var x => exact hvalue x
  | app f as => rfl

theorem resolved_congr (n : Nat) (t : Term A) : s'.resolved n t = s.resolved n t := by
  induction n generalizing t with
  | zero => rfl
  | succ n ih =>
    have hfun : s'.resolved n = s.resolved n := funext ih
    cases t with
    | var x => rw [resolved, resolved, hfun, hvalue]
    | app f as => rw [resolved, resolved, hfun]

theorem printed_congr [Symbol A] (style : Style) (n : Nat) (t : Term A) :
    s'.printed style n t = s.printed style n t := by
  induction n generalizing t with
  | zero => rfl
  | succ n ih =>
    have hfun : s'.printed style n = s.printed style n := funext ih
    cases t with
    | var x => rw [printed, printed, hfun, hvalue]
    | app f as => rw [printed, printed, hfun]

theorem ground_congr (n : Nat) (t : Term A) : s'.ground n t = s.ground n t := by
  induction n generalizing t with
  | zero => rfl
  | succ n ih =>
    have hfun : s'.ground n = s.ground n := funext ih
    rw [ground, ground, hfun, view_congr hvalue]

end value

variable (hclass : ∀ x, s'.classOf x = s.classOf x) (hvalue : ∀ x, s'.value x = s.value x)
include hclass hvalue

theorem contains_congr (x : Var) (n : Nat) (t : Term A) :
    s'.contains x n t = s.contains x n t := by
  induction n generalizing t with
  | zero => rfl
  | succ n ih =>
    have hfun : s'.contains x n = s.contains x n := funext ih
    cases t with
    | var y => rw [contains, contains, hfun, hvalue, aliased_congr hclass]
    | app f as => rw [contains, contains, hfun]

theorem collect_congr (n : Nat) (found : List Var) (t : Term A) :
    s'.collect n found t = s.collect n found t := by
  induction n generalizing found t with
  | zero => rfl
  | succ n ih =>
    have hfun : s'.collect n = s.collect n := funext fun found => funext (ih found)
    have haliased : s'.aliased = s.aliased := funext fun x => funext (aliased_congr hclass x)
    cases t with
    | var x => rw [collect, collect, hfun, hvalue, haliased]
    | app f as => rw [collect, collect, hfun]

/-- A copy looks at nothing else either. -/
theorem copyTerm_congr (n : Nat) (t : Term A) (p : Copying) :
    s'.copyTerm n t p = s.copyTerm n t p := by
  induction n generalizing t p with
  | zero => rfl
  | succ n ih =>
    have hfun : s'.copyTerm n = s.copyTerm n := funext fun t => funext fun p => ih t p
    cases t with
    | var x => rw [copyTerm, copyTerm, hfun, hvalue, hclass]
    | app f as => rw [copyTerm, copyTerm, hfun]

theorem same_congr [DecidableEq A] (n : Nat) (t u : Term A) : s'.same n t u = s.same n t u := by
  induction n generalizing t u with
  | zero => rfl
  | succ n ih =>
    have hfun : s'.same n = s.same n := funext fun t => funext (ih t)
    -- unless both are variables, the compounds that they denote are compared
    have hviews : alike (s'.same n) (s'.view t) (s'.view u) =
        alike (s.same n) (s.view t) (s.view u) := by
      rw [hfun, view_congr hvalue, view_congr hvalue]
    cases t with
    | var x =>
      cases u with
      | var y => rw [same, same, hfun, hvalue, hvalue, aliased_congr hclass]
      | app g bs => exact hviews
    | app f as => exact hviews

omit hclass hvalue

/-! ## All of them -/

/-- Whatever is asked of variables and terms, the two stores give the same answer, or
    neither gives one at that number of levels. -/
structure ReadsAlike [DecidableEq A] (s s' : Store A) : Prop where
  value : ∀ x, s'.value x = s.value x
  aliased : ∀ x y, s'.aliased x y = s.aliased x y
  same : ∀ n t u, s'.same n t u = s.same n t u
  resolved : ∀ n t, s'.resolved n t = s.resolved n t
  contains : ∀ x n t, s'.contains x n t = s.contains x n t
  ground : ∀ n t, s'.ground n t = s.ground n t
  freeVars : ∀ n t, s'.freeVars n t = s.freeVars n t
  printed : ∀ [Symbol A] style n t, s'.printed style n t = s.printed style n t
  text : ∀ [Symbol A] n style t, s'.text n style t = s.text n style t

/-- What is read depends on the classes of the variables and on their values. -/
theorem ReadsAlike.of_classes [DecidableEq A] (hclass : ∀ x, s'.classOf x = s.classOf x)
    (hvalue : ∀ x, s'.value x = s.value x) : s.ReadsAlike s' where
  value := hvalue
  aliased := aliased_congr hclass
  same := same_congr hclass hvalue
  resolved := resolved_congr hvalue
  contains := contains_congr hclass hvalue
  ground := ground_congr hvalue
  freeVars n := collect_congr hclass hvalue n []
  printed := printed_congr hvalue
  text n style t := congrArg (Option.map (Term.text style)) (resolved_congr hvalue n t)

end Store

end Horn
