import Horn.Store.Basic

/-! # Copies with fresh variables

    A copy of a term shares no variable with it: each bound variable is replaced
    by a copy of its value and each unbound one by a new variable.  A *renaming*
    remembers which new variable stands for which class, so that the copies made
    through one renaming share variables just where the terms copied do, and
    copies made through two renamings share none.

    A renaming is keyed by the class an unbound variable is in when it is first
    met.  As values may run in circles, a copy takes a number of levels it may
    descend and is `none` when that number is too small. -/

namespace Horn

universe u

/-- The classes met so far, each with the variable that stands for it, in the
    order in which they were met. -/
structure Renaming where
  pairs : List (ClassId × Var)

namespace Renaming

/-- The renaming that has met no class. -/
def empty : Renaming := ⟨[]⟩

/-- The variable that stands for a class. -/
def image (r : Renaming) (c : ClassId) : Option Var := r.pairs.lookup c

/-- The number of classes met. -/
def size (r : Renaming) : Nat := r.pairs.length

/-- Lets `y` stand for the class `c`. -/
def extend (r : Renaming) (c : ClassId) (y : Var) : Renaming := ⟨r.pairs ++ [(c, y)]⟩

end Renaming

/-- How far a copy has got: the renaming, and the number of the next variable. -/
structure Copying where
  images : Renaming
  nextVar : Nat

/-- The variable that stands for class `c`, a new one if `c` is met first. -/
def Copying.rename (p : Copying) (c : ClassId) : Var × Copying :=
  match p.images.image c with
  | some y => (y, p)
  | none => (⟨p.nextVar⟩, ⟨p.images.extend c ⟨p.nextVar⟩, p.nextVar + 1⟩)

variable {A : Type u}

/-- Copies terms one after the other. -/
def copyEach (copy : Term A → Copying → Option (Term A × Copying)) :
    List (Term A) → Copying → Option (List (Term A) × Copying)
  | [], p => some ([], p)
  | t :: ts, p =>
    match copy t p with
    | none => none
    | some (t, p) =>
      match copyEach copy ts p with
      | none => none
      | some (ts, p) => some (t :: ts, p)

theorem copyEach_cons_eq_some_iff {copy : Term A → Copying → Option (Term A × Copying)}
    {t : Term A} {ts : List (Term A)} {p : Copying} {r : List (Term A) × Copying} :
    copyEach copy (t :: ts) p = some r ↔ ∃ t' q ts' q', copy t p = some (t', q) ∧
      copyEach copy ts q = some (ts', q') ∧ (t' :: ts', q') = r := by
  rw [copyEach]
  constructor
  · intro h
    split at h
    · cases h
    · next t' q ht =>
      split at h
      · cases h
      · next ts' q' hts => exact ⟨t', q, ts', q', ht, hts, Option.some.inj h⟩
  · rintro ⟨t', q, ts', q', ht, hts, rfl⟩
    simp only [ht, hts]

namespace Store

/-- Copies a term as it stands in the store. -/
def copyTerm (s : Store A) : Nat → Term A → Copying → Option (Term A × Copying)
  | 0, _, _ => none
  | n + 1, .app f as, p => (copyEach (s.copyTerm n) as p).map fun (as, p) => (.app f as, p)
  | n + 1, .var x, p =>
    match s.value x with
    | none => let (y, p) := p.rename (s.classOf x); some (.var y, p)
    | some c => (copyEach (s.copyTerm n) c.args p).map fun (as, p) => (.app c.name as, p)

/-- Runs a copy that starts at the store's next variable, and counts the
    variables it makes as made. -/
def copying {β : Type u} (s : Store A) (r : Renaming)
    (copy : Store A → Copying → Option (β × Copying)) : Option (β × Renaming × Store A) :=
  (copy s ⟨r, s.nextVar⟩).map fun (b, p) => (b, p.images, { s with nextVar := p.nextVar })

/-- Copies a term through `r`. -/
def copy (s : Store A) (n : Nat) (t : Term A) (r : Renaming) :
    Option (Term A × Renaming × Store A) :=
  s.copying r fun s => s.copyTerm n t

/-- Copies a compound through `r`. -/
def copyCompound (s : Store A) (n : Nat) (c : Compound A) (r : Renaming) :
    Option (Compound A × Renaming × Store A) :=
  s.copying r fun s p =>
    (copyEach (s.copyTerm n) c.args p).map fun (as, p) => (⟨c.name, as⟩, p)

/-- Copies compounds one after the other through `r`. -/
def copyCompounds (s : Store A) (n : Nat) :
    List (Compound A) → Renaming → Option (List (Compound A) × Renaming × Store A)
  | [], r => some ([], r, s)
  | c :: cs, r =>
    match s.copyCompound n c r with
    | none => none
    | some (c, r, s) =>
      match s.copyCompounds n cs r with
      | none => none
      | some (cs, r, s) => some (c :: cs, r, s)

/-- The variable that stands for the class of `x`, a new one if it is met first. -/
def rename (s : Store A) (x : Var) (r : Renaming) : Var × Renaming × Store A :=
  let (y, p) := Copying.rename ⟨r, s.nextVar⟩ (s.classOf x)
  (y, p.images, { s with nextVar := p.nextVar })

end Store

end Horn
