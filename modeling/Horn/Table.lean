/-! # Tables over the natural numbers

    A table holds a value at every index.  It is written to at finitely many
    of them; at all others it holds the value that `base` gives, so reading
    never fails and a new table needs no memory.

    Main statement: `get_set`, writing at one index changes that index alone. -/

namespace Horn

universe u

/-- A total map from indices to values: the entries written so far, and `base`
    beyond them. -/
structure Table (α : Type u) (base : Nat → α) where
  entries : Array α

namespace Table

variable {α : Type u} {base : Nat → α}

/-- The table that holds `base i` at each index `i`. -/
def empty : Table α base := ⟨#[]⟩

/-- The value at index `i`. -/
def get (t : Table α base) (i : Nat) : α := t.entries.getD i (base i)

/-- Extends the entries by `n` values of `base`. -/
def pad (base : Nat → α) : Nat → Array α → Array α
  | 0, es => es
  | n + 1, es => pad base n (es.push (base es.size))

/-- Writes `a` at index `i`. -/
def set (t : Table α base) (i : Nat) (a : α) : Table α base :=
  if i < t.entries.size then ⟨t.entries.setIfInBounds i a⟩
  else ⟨(pad base (i - t.entries.size) t.entries).push a⟩

/-! ## Reading back -/

@[simp] theorem get_empty (i : Nat) : (empty : Table α base).get i = base i := by
  simp [get, empty]

theorem size_pad (n : Nat) (es : Array α) : (pad base n es).size = es.size + n := by
  induction n generalizing es with
  | zero => rfl
  | succ n ih => rw [pad, ih, Array.size_push]; omega

theorem getD_pad (n : Nat) (es : Array α) (i : Nat) :
    (pad base n es).getD i (base i) = es.getD i (base i) := by
  induction n generalizing es with
  | zero => rfl
  | succ n ih =>
    rw [pad, ih]
    simp only [Array.getD_eq_getD_getElem?, Array.getElem?_push]
    split
    · next h => simp [h]
    · rfl

/-- Writing at one index changes that index alone. -/
@[simp] theorem get_set (t : Table α base) (i : Nat) (a : α) (j : Nat) :
    (t.set i a).get j = if i = j then a else t.get j := by
  unfold set get
  split
  · next h =>
    simp only [Array.getD_eq_getD_getElem?, Array.getElem?_setIfInBounds]
    split
    · simp
    · rfl
  · next h =>
    have hs : (pad base (i - t.entries.size) t.entries).size = i := by
      rw [size_pad]; omega
    have hp : (pad base (i - t.entries.size) t.entries).getD j (base j) =
        t.entries.getD j (base j) := getD_pad _ _ _
    simp only [Array.getD_eq_getD_getElem?, Array.getElem?_push, hs] at hp ⊢
    by_cases hij : i = j
    · subst hij; simp
    · rw [if_neg hij, if_neg (Ne.symm hij), hp]

end Table

end Horn
