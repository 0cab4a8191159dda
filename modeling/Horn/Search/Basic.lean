import Horn.Search.Event

/-! # Depth-first search

    A conjunction of goals is proved from left to right.  For the first goal the
    clauses of its signature are tried in order: a copy of the clause's head is
    unified with the goal, and on success the copied body takes the goal's place
    in front of the others, one level deeper.  When no goal is left there is a
    match.

    The state of a search keeps one *choice point* for each goal on the current
    path, with the clauses for it, the number of those that have been tried, and
    the trail's mark from before any was.  A step takes the newest choice point,
    undoes the trail to its mark and tries the next clause, or drops the choice
    point when none is left.

    A goal that lies deeper than the limit in the options is not attempted; the limit
    is looked at when the goal becomes the first one. -/

namespace Horn.Search

universe u v

/-- What a search works with: the clauses to try for a goal, by its signature, and
    the options. -/
structure Source (A : Type u) where
  clausesFor : Signature A → List (Clause A)
  options : Options

/-- A compound to be proved, with the number of rule expansions that enclose it. -/
structure Goal (A : Type u) where
  compound : Compound A
  depth : Nat

/-- The alternatives left for the first of some goals. -/
structure ChoicePoint (A : Type u) where
  goal : Goal A
  /-- The goals after it. -/
  rest : List (Goal A)
  /-- The clauses to try for `goal`. -/
  candidates : List (Clause A)
  /-- The index of the next one to try. -/
  next : Nat
  /-- The length of the trail before any clause was tried. -/
  mark : Nat

/-- A search in progress. -/
structure State (A : Type u) (σ : Type v) where
  session : Session A
  /-- The choice points, newest first. -/
  points : List (ChoicePoint A)
  /-- The number of matches reported. -/
  found : Nat
  /-- The client's memory. -/
  memory : σ

/-- What a step of a search leads to. -/
inductive Step (A : Type u) (σ : Type v) where
  | next (s : State A σ)
  /-- The search is over; `halted` if the client stopped it. -/
  | done (halted : Bool) (s : State A σ)
  /-- The permitted number of levels was too small. -/
  | cutOff

variable {A : Type u} {σ : Type v}

/-- Whether goals of this depth are given up. -/
def tooDeep (o : Options) (depth : Nat) : Bool :=
  match o.maxDepth with
  | none => false
  | some max => max < depth

theorem tooDeep_eq_false_iff {o : Options} {d : Nat} :
    tooDeep o d = false ↔ ∀ max, o.maxDepth = some max → d ≤ max := by
  unfold tooDeep
  cases o.maxDepth with
  | none => simp
  | some max => simp

/-- The goals of a query never lie too deep. -/
theorem tooDeep_zero (o : Options) : tooDeep o 0 = false :=
  tooDeep_eq_false_iff.mpr fun max _ => Nat.zero_le max

/-- The choice point for goal `g` before any clause has been tried. -/
def ChoicePoint.start (src : Source A) (g : Goal A) (rest : List (Goal A)) (mark : Nat) :
    ChoicePoint A :=
  ⟨g, rest, src.clausesFor g.compound.signature, 0, mark⟩

/-- The choice point after its next clause has been tried. -/
def ChoicePoint.tried (point : ChoicePoint A) : ChoicePoint A :=
  { point with next := point.next + 1 }

/-- Goes on with `goals`, after a goal of depth `depth` has been replaced by its
    clause's body: reports a match if there are none, gives up if the first one
    lies too deep, and opens a choice point for it otherwise. -/
def advance (src : Source A) (client : Client A σ) (depth : Nat) (goals : List (Goal A)) :
    State A σ → Step A σ
  | ⟨w, points, found, memory⟩ =>
    match goals with
    | [] =>
      let ⟨store, trail⟩ := w
      match client.answer store memory with
      | none => .cutOff
      | some (.proceed, store, memory) => .next ⟨⟨store, trail⟩, points, found + 1, memory⟩
      | some (.halt, store, memory) =>
        let memory := client.note store (.stopped depth) memory
        .done true ⟨⟨store, trail⟩, points, found + 1, memory⟩
    | g :: rest =>
      if tooDeep src.options g.depth then
        let memory := client.note w.store (.pruned g.compound g.depth) memory
        .next ⟨w, points, found, memory⟩
      else
        let mark := w.mark
        .next ⟨w, .start src g rest mark :: points, found, memory⟩

/-- Tries clause `c` for the goal of `point`.  Head and body are copied through
    one renaming, the body only after the head has been unified. -/
def attempt [DecidableEq A] (src : Source A) (client : Client A σ) (n : Nat)
    (point : ChoicePoint A) (c : Clause A) : State A σ → Step A σ
  | ⟨⟨store, trail⟩, points, found, memory⟩ =>
    let goal := point.goal.compound
    match store.copyCompound n c.head .empty with
    | none => .cutOff
    | some (head, r, store) =>
      let memory := client.note store (.attempt goal head) memory
      match unify n goal.toTerm head.toTerm ⟨store, trail⟩ with
      | .cutOff => .cutOff
      | .failure e w =>
        let memory := client.note w.store (.refuted e) memory
        .next ⟨w.undoTo point.mark, points, found, memory⟩
      | .success w =>
        let memory := client.note w.store (.unified goal) memory
        let ⟨store, trail⟩ := w
        match store.copyCompounds n c.body r with
        | none => .cutOff
        | some (body, _, store) =>
          let depth := point.goal.depth
          let goals := body.map (fun g => ⟨g, depth + 1⟩) ++ point.rest
          advance src client depth goals ⟨⟨store, trail⟩, points, found, memory⟩

/-- One step: the newest choice point tries its next clause, or is dropped. -/
def step [DecidableEq A] (src : Source A) (client : Client A σ) (n : Nat) :
    State A σ → Step A σ
  | ⟨w, [], found, memory⟩ => .done false ⟨w, [], found, memory⟩
  | ⟨w, point :: points, found, memory⟩ =>
    let w := w.undoTo point.mark
    match point.candidates[point.next]? with
    | none =>
      let memory := client.note w.store (.exhausted point.goal.depth) memory
      .next ⟨w, points, found, memory⟩
    | some c => attempt src client n point c ⟨w, point.tried :: points, found, memory⟩

/-- Steps until the search is over; `none` if that takes more than `n` steps, or
    one of them more levels than are left. -/
def run [DecidableEq A] (src : Source A) (client : Client A σ) :
    Nat → State A σ → Option (Bool × State A σ)
  | 0, _ => none
  | n + 1, s =>
    match step src client n s with
    | .cutOff => none
    | .done halted s => some (halted, s)
    | .next s => run src client n s

end Horn.Search
