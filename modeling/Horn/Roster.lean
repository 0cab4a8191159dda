/-! # Rosters

    A roster lists things in the order in which they came.  It is kept in two
    lists that meet in the middle: a newcomer goes to the head of one, and what
    leaves is mostly the first or the last to have come, at the head of one or
    the other.  So a roster can be emptied from either end in a time that grows
    with its length alone.

    Main statements: `toList_push`, a newcomer comes last; `toList_erase`, a
    thing that leaves a roster without duplicates leaves the others in their
    order. -/

namespace Horn

universe u

/-- Things in the order in which they came. -/
structure Roster (α : Type u) where
  /-- Those that came early, the first of all at the head. -/
  early : List α
  /-- Those that came after them, the last of all at the head. -/
  late : List α

namespace Roster

variable {α : Type u}

/-- The roster of nothing. -/
def empty : Roster α := ⟨[], []⟩

/-- The roster of `x` alone. -/
def single (x : α) : Roster α := ⟨[x], []⟩

/-- All that a roster lists, the first to come at the head. -/
def toList (r : Roster α) : List α := r.early ++ r.late.reverse

/-- Adds `x` as the last to come. -/
def push (r : Roster α) (x : α) : Roster α := ⟨r.early, x :: r.late⟩

/-- Removes `x`.  It is looked for at the two ends first. -/
def erase [DecidableEq α] (r : Roster α) (x : α) : Roster α :=
  if r.early.head? = some x then ⟨r.early.tail, r.late⟩
  else if r.late.head? = some x then ⟨r.early, r.late.tail⟩
  else ⟨r.toList.erase x, []⟩

/-! ## What is listed -/

@[simp] theorem toList_empty : (empty : Roster α).toList = [] := rfl

@[simp] theorem toList_single (x : α) : (single x).toList = [x] := rfl

/-- A newcomer comes last. -/
@[simp] theorem toList_push (r : Roster α) (x : α) : (r.push x).toList = r.toList ++ [x] := by
  simp [toList, push]

variable [DecidableEq α]

/-- The three places where `x` is found: it is the first, it is the last, or it is
    looked for among all. -/
theorem toList_erase_cases (r : Roster α) (x : α) :
    r.toList = x :: (r.erase x).toList ∨ r.toList = (r.erase x).toList ++ [x] ∨
      (r.erase x).toList = r.toList.erase x := by
  obtain ⟨early, late⟩ := r
  unfold erase
  split
  · next h =>
    obtain ⟨ys, rfl⟩ := List.head?_eq_some_iff.1 h
    exact .inl rfl
  · split
    · next h =>
      obtain ⟨ys, rfl⟩ := List.head?_eq_some_iff.1 h
      exact .inr (.inl (by simp [toList]))
    · exact .inr (.inr (List.append_nil _))

/-- A thing that leaves a roster without duplicates leaves the others in their order. -/
theorem toList_erase (r : Roster α) (x : α) (h : r.toList.Nodup) :
    (r.erase x).toList = r.toList.erase x := by
  rcases r.toList_erase_cases x with hr | hr | hr
  · rw [hr, List.erase_cons_head]
  · rw [hr, List.nodup_append] at h
    have hx : x ∉ (r.erase x).toList := fun hm => h.2.2 x hm x (List.mem_singleton_self x) rfl
    rw [hr, List.erase_append_right _ hx, List.erase_cons_head, List.append_nil]
  · exact hr

end Roster

end Horn
