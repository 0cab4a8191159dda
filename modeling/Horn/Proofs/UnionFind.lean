import Horn.Proofs.Copies
import Horn.Proofs.ExactUndo
import Horn.Proofs.Membership
import Mathlib.Data.Finset.Union

/-! # Union-find with values and undo

    On atomic values, which are compounds without arguments, a store does what an abstract
    machine does that knows nothing of classes, rosters and trails.  The machine keeps a
    partition of the variables into blocks, of which each has a value or none; it counts the
    moves that have been recorded, and it has saved what the partition was at every mark
    that has been taken and not undone past.

    * `Blocks`: such a partition, with proofs that it is one.
    * `UnionFind.step`: what the machine does and replies, and by how many moves its count
      grows.
    * `Op.perform`: the same operation on a session.
    * `UnionFind.Simulates`: the session shows the blocks of the machine, and undoing to
      any mark that is left shows those that have been saved at it.

    Every step keeps the two together (`Simulates.step`), and so does a run of any length.

    Main statement: `store_refines_union_find`. -/

namespace Horn

universe u v

variable {A : Type u}

/-! ## Partitions with values -/

/-- The variables in blocks, each of which has at most one value.  A variable that has not
    been made yet stands alone and has none. -/
structure Blocks (A : Type u) where
  /-- The number of variables made. -/
  made : Nat
  /-- The block of each variable. -/
  block : Var → Finset Var
  /-- The value of the block of each variable. -/
  value : Var → Option A
  mem_self : ∀ x, x ∈ block x
  block_of_mem : ∀ {x y}, y ∈ block x → block y = block x
  value_of_mem : ∀ {x y}, y ∈ block x → value y = value x
  alone : ∀ x : Var, made ≤ x.id → block x = {x}
  unbound : ∀ x : Var, made ≤ x.id → value x = none

namespace Blocks

variable (p : Blocks A)

theorem mem_comm {x y : Var} : y ∈ p.block x ↔ x ∈ p.block y := by
  constructor
  · intro h
    rw [p.block_of_mem h]
    exact p.mem_self x
  · intro h
    rw [p.block_of_mem h]
    exact p.mem_self y

theorem mem_congr {x y z : Var} (h : z ∈ p.block y) : z ∈ p.block x ↔ y ∈ p.block x := by
  rw [p.mem_comm, p.block_of_mem h, p.mem_comm]

/-- Blocks of made variables consist of made variables. -/
theorem lt_of_mem {x y : Var} (hx : x.id < p.made) (h : y ∈ p.block x) : y.id < p.made := by
  by_contra hy
  rw [p.mem_comm, p.alone y (Nat.le_of_not_lt hy), Finset.mem_singleton] at h
  exact hy (h ▸ hx)

/-- No variable has been made. -/
def none : Blocks A where
  made := 0
  block x := {x}
  value _ := .none
  mem_self x := Finset.mem_singleton_self x
  block_of_mem h := by rw [Finset.mem_singleton.mp h]
  value_of_mem _ := rfl
  alone _ _ := rfl
  unbound _ _ := rfl

/-- The same blocks, with the first `n` variables made.  Those that had not been are unbound
    singletons. -/
def upTo (n : Nat) : Blocks A :=
  { p with
    made := max p.made n
    alone := fun x hx => p.alone x (Nat.le_trans (Nat.le_max_left ..) hx)
    unbound := fun x hx => p.unbound x (Nat.le_trans (Nat.le_max_left ..) hx) }

/-- The block of `x` takes the value `a`. -/
def give (x : Var) (hx : x.id < p.made) (a : A) : Blocks A :=
  { p with
    value := fun y => if y ∈ p.block x then some a else p.value y
    value_of_mem := fun h => by simp only [p.mem_congr h, p.value_of_mem h]
    unbound := fun y hy => by
      rw [if_neg fun h => Nat.not_lt_of_le hy (p.lt_of_mem hx h), p.unbound y hy] }

/-- The blocks of `x` and `y` become one, which keeps the value that either had. -/
def unite (x y : Var) (hx : x.id < p.made) (hy : y.id < p.made) : Blocks A where
  made := p.made
  block z := if z ∈ p.block x ∪ p.block y then p.block x ∪ p.block y else p.block z
  value z := if z ∈ p.block x ∪ p.block y then (p.value x).or (p.value y) else p.value z
  mem_self z := by
    by_cases hz : z ∈ p.block x ∪ p.block y
    · rw [if_pos hz]
      exact hz
    · rw [if_neg hz]
      exact p.mem_self z
  block_of_mem {z z'} h := by
    by_cases hz : z ∈ p.block x ∪ p.block y
    · rw [if_pos hz] at h ⊢
      rw [if_pos h]
    · rw [if_neg hz] at h ⊢
      rw [Finset.mem_union, ← p.mem_congr h, ← p.mem_congr h, ← Finset.mem_union] at hz
      rw [if_neg hz]
      exact p.block_of_mem h
  value_of_mem {z z'} h := by
    by_cases hz : z ∈ p.block x ∪ p.block y
    · rw [if_pos hz] at h ⊢
      rw [if_pos h]
    · rw [if_neg hz] at h ⊢
      rw [Finset.mem_union, ← p.mem_congr h, ← p.mem_congr h, ← Finset.mem_union] at hz
      rw [if_neg hz]
      exact p.value_of_mem h
  alone z hz := by
    rw [if_neg, p.alone z hz]
    intro h
    rcases Finset.mem_union.mp h with h | h
    · exact Nat.not_lt_of_le hz (p.lt_of_mem hx h)
    · exact Nat.not_lt_of_le hz (p.lt_of_mem hy h)
  unbound z hz := by
    rw [if_neg, p.unbound z hz]
    intro h
    rcases Finset.mem_union.mp h with h | h
    · exact Nat.not_lt_of_le hz (p.lt_of_mem hx h)
    · exact Nat.not_lt_of_le hz (p.lt_of_mem hy h)

end Blocks

/-! ## The abstract machine -/

/-- A partition, the number of moves that have been recorded, and for every mark that has
    been taken and not undone past, oldest first, what both were then. -/
structure UnionFind (A : Type u) where
  blocks : Blocks A
  moves : Nat
  saved : List (Nat × Blocks A)

namespace UnionFind

/-- An operation on atomic values and one trail. -/
inductive Op (A : Type u) where
  /-- Makes a variable. -/
  | new
  /-- Gives the block of a variable a value. -/
  | resolve (x : Var) (a : A)
  /-- Makes one block of two. -/
  | bind (x y : Var)
  /-- Takes a mark. -/
  | mark
  /-- Undoes to mark number `k` of those that are left. -/
  | undoTo (k : Nat)

/-- What an operation comes to. -/
inductive Reply (A : Type u) where
  | done
  /-- One block has a value and was to have another one, or two have different ones. -/
  | conflict (left right : A)
  deriving DecidableEq

/-- The machine before any variable has been made. -/
def start : UnionFind A := ⟨.none, 0, []⟩

/-- The variables of the operation have been made, and the mark that it undoes to is there. -/
def Op.Permitted : Op A → UnionFind A → Prop
  | new, _ => True
  | resolve x _, u => x.id < u.blocks.made
  | bind x y, u => x.id < u.blocks.made ∧ y.id < u.blocks.made
  | mark, _ => True
  | undoTo k, u => k < u.saved.length

variable [DecidableEq A]

/-- One operation; none if it is not permitted. -/
def step : Op A → UnionFind A → Option (Reply A × UnionFind A)
  | .new, u => some (.done, { u with blocks := u.blocks.upTo (u.blocks.made + 1) })
  | .resolve x a, u =>
    if hx : x.id < u.blocks.made then
      match u.blocks.value x with
      | none =>
        let moves := u.moves + (u.blocks.block x).card
        some (.done, { u with blocks := u.blocks.give x hx a, moves := moves })
      | some b => some (if b = a then .done else .conflict b a, u)
    else none
  | .bind x y, u =>
    if h : x.id < u.blocks.made ∧ y.id < u.blocks.made then
      let moves := u.moves + (u.blocks.block x ∪ u.blocks.block y).card
      let united : UnionFind A := { u with blocks := u.blocks.unite x y h.1 h.2, moves := moves }
      if y ∈ u.blocks.block x then some (.done, u)
      else match u.blocks.value x, u.blocks.value y with
        | some a, some b => some (if a = b then (.done, united) else (.conflict a b, u))
        | _, _ => some (.done, united)
    else none
  | .mark, u => some (.done, { u with saved := u.saved ++ [(u.moves, u.blocks)] })
  | .undoTo k, u => u.saved[k]?.map fun (moves, p) =>
      (.done, ⟨p.upTo u.blocks.made, moves, u.saved.filter (·.1 ≤ moves)⟩)

theorem step_eq_none_iff {op : Op A} {u : UnionFind A} : step op u = none ↔ ¬ op.Permitted u := by
  cases op with
  | new => simp [step, Op.Permitted]
  | resolve x a =>
    by_cases hx : x.id < u.blocks.made
    · cases hb : u.blocks.value x <;> simp [step, Op.Permitted, hx, hb]
    · simp [step, Op.Permitted, hx]
  | bind x y =>
    by_cases hxy : x.id < u.blocks.made ∧ y.id < u.blocks.made
    · by_cases hy : y ∈ u.blocks.block x
      · simp [step, Op.Permitted, hxy, hy]
      · cases ha : u.blocks.value x <;> cases hb : u.blocks.value y <;>
          simp [step, Op.Permitted, hxy, hy, ha, hb]
    · simp [step, Op.Permitted, hxy]
  | mark => simp [step, Op.Permitted]
  | undoTo k => simp [step, Op.Permitted]

/-- What `n` levels make of the operation in a session, with the marks that have been taken
    and not undone past.  Only variables that have been made can be used. -/
def Op.perform (n : Nat) : Op A → Session A × List Nat → Option (Reply A × Session A × List Nat)
  | .new, (w, marks) => some (.done, { w with store := w.store.fresh.2 }, marks)
  | .resolve x a, (w, marks) =>
    if x.id < w.store.nextVar then replied marks (w.resolve n x (.const a)) else none
  | .bind x y, (w, marks) =>
    if x.id < w.store.nextVar ∧ y.id < w.store.nextVar then replied marks (w.bind n x y) else none
  | .mark, (w, marks) => some (.done, w, marks ++ [w.mark])
  | .undoTo k, (w, marks) => marks[k]?.map fun mark =>
      (.done, w.undoTo mark, marks.filter (· ≤ mark))
where
  /-- Reads the outcome of a unification of atomic values. -/
  replied (marks : List Nat) : Outcome A → Option (Reply A × Session A × List Nat)
    | .success w => some (.done, w, marks)
    | .failure (.names a b) w => some (.conflict a b, w, marks)
    | .failure _ _ => none
    | .cutOff => none

/-- What a run of operations replies and leaves, step by step. -/
def trace {S : Type v} (step : Op A → S → Option (Reply A × S)) :
    List (Op A) → S → Option (List (Reply A × S))
  | [], _ => some []
  | op :: ops, s => (step op s).bind fun (reply, s) => (trace step ops s).map ((reply, s) :: ·)

/-- All that can be asked of the session is answered as the machine has it, and the trail is
    as long as the machine has counted. -/
structure Agrees (u : UnionFind A) (w : Session A) : Prop where
  made : w.store.nextVar = u.blocks.made
  aliased : ∀ x y, w.store.aliased x y = decide (y ∈ u.blocks.block x)
  isBound : ∀ x, w.store.isBound x = (u.blocks.value x).isSome
  value : ∀ x, w.store.value x = (u.blocks.value x).map .const
  length : w.trail.length = u.moves

end UnionFind

/-! ## Blocks that a store shows -/

/-- The classes of the store are the blocks, and have their values. -/
structure Blocks.Shows (p : Blocks A) (s : Store A) : Prop where
  classes : ∀ x y, s.classOf y = s.classOf x ↔ y ∈ p.block x
  value : ∀ x, s.value x = (p.value x).map .const

namespace Blocks.Shows

variable {p : Blocks A} {s : Store A}

theorem aliased (h : p.Shows s) (x y : Var) : s.aliased x y = decide (y ∈ p.block x) := by
  rw [Store.aliased, decide_eq_decide, ← h.classes]
  exact eq_comm

theorem setNext (h : p.Shows s) (m : Nat) : p.Shows (s.setNext m) where
  classes := h.classes
  value x := (s.value_setNext m x).trans (h.value x)

theorem upTo (h : p.Shows s) (n : Nat) : (p.upTo n).Shows s := ⟨h.classes, h.value⟩

end Blocks.Shows

section gather

variable {p : Blocks A} {w : Session A}

/-- A class that is gathered with a value is a block that takes the value. -/
theorem Blocks.Shows.give (h : p.Shows w.store) (hw : w.Consistent) {x : Var}
    (hx : x.id < p.made) (a : A) :
    (p.give x hx a).Shows (w.gather [w.store.classOf x] (some (.const a))).store where
  classes y z := by
    rw [Session.classOf_gather_eq_iff hw.store, List.mem_singleton, List.mem_singleton]
    show _ ↔ z ∈ p.block y
    rw [← h.classes y z]
    constructor
    · rintro (⟨hz, hy⟩ | hzy)
      · exact hz.trans hy.symm
      · exact hzy
    · exact .inr
  value y := by
    rw [Session.value_gather hw.store]
    simp only [List.mem_singleton, h.classes]
    show _ = Option.map _ (if y ∈ p.block x then some a else p.value y)
    by_cases hy : y ∈ p.block x
    · rw [if_pos hy, if_pos hy]
      rfl
    · rw [if_neg hy, if_neg hy]
      exact h.value y

/-- Two classes that are gathered are two blocks that become one. -/
theorem Blocks.Shows.unite (h : p.Shows w.store) (hw : w.Consistent) {x y : Var}
    (hx : x.id < p.made) (hy : y.id < p.made) :
    (p.unite x y hx hy).Shows (w.gather [w.store.classOf x, w.store.classOf y]
      (((p.value x).or (p.value y)).map .const)).store := by
  have hmem : ∀ z, w.store.classOf z ∈ [w.store.classOf x, w.store.classOf y] ↔
      z ∈ p.block x ∪ p.block y := by
    intro z
    rw [List.mem_pair, h.classes, h.classes, Finset.mem_union]
  constructor
  · intro z z'
    rw [Session.classOf_gather_eq_iff hw.store, hmem, hmem, h.classes]
    show _ ↔ z' ∈ if z ∈ p.block x ∪ p.block y then p.block x ∪ p.block y else p.block z
    by_cases hz : z ∈ p.block x ∪ p.block y
    · rw [if_pos hz]
      constructor
      · rintro (⟨hz', -⟩ | hz')
        · exact hz'
        · rw [Finset.mem_union] at hz ⊢
          rwa [p.mem_congr hz', p.mem_congr hz']
      · intro hz'
        exact .inl ⟨hz', hz⟩
    · rw [if_neg hz]
      exact or_iff_right fun hboth => hz hboth.2
  · intro z
    rw [Session.value_gather hw.store]
    show _ = Option.map _ (if z ∈ p.block x ∪ p.block y then _ else p.value z)
    by_cases hz : z ∈ p.block x ∪ p.block y
    · rw [if_pos ((hmem z).mpr hz), if_pos hz]
    · rw [if_neg (mt (hmem z).mp hz), if_neg hz]
      exact h.value z

/-- Gathering records one move for every member. -/
theorem Session.mark_gather (hw : w.Consistent) {cs : List ClassId} (hcs : cs.Nodup)
    (value : Option (Compound A)) {B : Finset Var} (hB : ∀ x, w.store.classOf x ∈ cs ↔ x ∈ B) :
    (w.gather cs value).mark = w.mark + B.card := by
  have hgathered := gathered_gather hw.store hcs value
  have hmembers : (cs.flatMap w.store.members).toFinset = B := by
    ext x
    rw [List.mem_toFinset, List.mem_flatMap, ← hB]
    simp only [hw.store.mem_members]
    exact ⟨fun ⟨c, hc, hx⟩ => hx ▸ hc, fun hx => ⟨_, hx, rfl⟩⟩
  have hcard : (cs.flatMap w.store.members).length = B.card := by
    rw [← hmembers, List.toFinset_card_of_nodup hgathered.once]
  have hlength := congrArg List.length hgathered.moves
  rw [List.length_append, Array.length_toList, Array.length_toList] at hlength
  show (w.gather cs value).trail.moves.size = w.trail.moves.size + B.card
  rw [hlength, ← hcard]
  simp [List.length_flatMap]

end gather

/-! ## Atomic values

    What holds of every value without arguments: no variable occurs in it, it is its own
    copy, and it unifies with another one just if the two are equal. -/

section atomic

variable {n : Nat} {w : Session A}

/-- No variable occurs in an atomic value. -/
theorem Store.contains_const (hn : 0 < n) (s : Store A) (x : Var) (a : A) :
    s.contains x n (Compound.const a).toTerm = some false := by
  obtain ⟨n, rfl⟩ : ∃ k, n = k + 1 := ⟨n - 1, by omega⟩
  rfl

/-- An atomic value is its own copy, and nothing is renamed for it. -/
theorem Store.copyTerm_const (hn : 0 < n) (s : Store A) (a : A) (p : Copying) :
    s.copyTerm n (Compound.const a).toTerm p = some ((Compound.const a).toTerm, p) := by
  obtain ⟨n, rfl⟩ : ∃ k, n = k + 1 := ⟨n - 1, by omega⟩
  rfl

theorem Session.checkingOccurs_const (hn : 0 < n) (x : Var) (a : A)
    (next : Session A → Outcome A) : w.checkingOccurs n x (.const a) next = next w := by
  unfold checkingOccurs
  rw [Store.contains_const hn]
  split
  · rfl
  · rfl

variable [DecidableEq A]

theorem unify_const (hn : 0 < n) (a b : A) :
    unify n (Compound.const a).toTerm (Compound.const b).toTerm w =
      if a = b then .success w else .failure (.names a b) w := by
  obtain ⟨n, rfl⟩ : ∃ k, n = k + 1 := ⟨n - 1, by omega⟩
  show unify (n + 1) (.app a []) (.app b []) w = _
  rw [unify]
  by_cases hab : a = b
  · rw [if_pos hab, if_neg (not_not_intro hab)]
    rfl
  · rw [if_neg hab, if_pos hab]

/-- Unifying two atomic values moves nothing.  It is done if they are equal, and is else a
    conflict of the two, in this order. -/
theorem UnionFind.replied_unify_const (hn : 0 < n) (a b : A) (marks : List Nat) :
    Op.perform.replied marks (unify n (Compound.const a).toTerm (Compound.const b).toTerm w) =
      some (if a = b then .done else .conflict a b, w, marks) := by
  rw [unify_const hn]
  by_cases hab : a = b
  · rw [if_pos hab, if_pos hab]
    rfl
  · rw [if_neg hab, if_neg hab]
    rfl

end atomic

/-! ## Simulation -/

namespace UnionFind

/-- The session shows the blocks, and with the moves since a mark undone it shows the blocks
    that have been saved at it. -/
structure Simulates (u : UnionFind A) (w : Session A) (marks : List Nat) : Prop where
  consistent : w.Consistent
  made : w.store.nextVar = u.blocks.made
  shows : u.blocks.Shows w.store
  moves : w.mark = u.moves
  marks : marks = u.saved.map Prod.fst
  saved : ∀ q ∈ u.saved, q.1 ≤ u.moves ∧ q.2.made ≤ u.blocks.made ∧
    q.2.Shows (w.undoTo q.1).store

section simulates

variable {u : UnionFind A} {w w' : Session A} {marks : List Nat}

/-- Whatever extends the session shows the same with its moves undone. -/
theorem shows_undoTo_of_extendsAll {p : Blocks A} (h : w.ExtendsAll w') (hw : w.Consistent)
    {mark : Nat} (hmark : mark ≤ w.mark) (hp : p.Shows (w.undoTo mark).store) :
    p.Shows (w'.undoTo mark).store := by
  have hkept : ∀ m, ((w.undoTo mark).setNext m).Kept ((w'.undoTo mark).setNext m) := by
    intro m
    rw [← w'.undoTo_undoTo hmark, ← Session.undoTo_setNext m w,
      ← Session.undoTo_setNext m (w'.undoTo w.mark)]
    exact (h.kept m).undoTo mark
  have hstore := (hw.undoTo mark).store
  -- any variable may be taken as made
  have hclass : ∀ x, (w'.undoTo mark).store.classOf x = (w.undoTo mark).store.classOf x :=
    fun x => (hkept (x.id + 1)).store.classOf x (Nat.lt_succ_self x.id)
  have hvalue : ∀ x, (w'.undoTo mark).store.value x = (w.undoTo mark).store.value x := by
    intro x
    have hx := (hkept (x.id + 1)).store.value (hstore.setNextVar _) (Nat.lt_succ_self x.id)
    rwa [Session.setNext, Session.setNext, Store.value_setNext, Store.value_setNext] at hx
  constructor
  · intro x y
    rw [hclass, hclass]
    exact hp.classes x y
  · intro x
    rw [hvalue]
    exact hp.value x

/-- Gathering the classes of some blocks keeps what has been saved. -/
theorem Simulates.gather (h : u.Simulates w marks) {cs : List ClassId} (hcs : cs.Nodup)
    {B : Finset Var} (hB : ∀ x, w.store.classOf x ∈ cs ↔ x ∈ B) {value : Option (Compound A)}
    {p : Blocks A} (hp : p.Shows (w.gather cs value).store) (hmade : p.made = u.blocks.made) :
    Simulates { u with blocks := p, moves := u.moves + B.card } (w.gather cs value) marks where
  consistent := h.consistent.gather cs value
  made := by
    rw [Session.nextVar_gather, h.made]
    exact hmade.symm
  shows := hp
  moves := by
    rw [Session.mark_gather h.consistent hcs value hB, h.moves]
  marks := h.marks
  saved q hq := by
    obtain ⟨hle, hq', hsaved⟩ := h.saved q hq
    have hext : w.ExtendsAll (w.gather cs value) := by
      intro m
      rw [← Session.gather_setNext]
      exact .gather _ cs value
    refine ⟨Nat.le_trans hle (Nat.le_add_right ..), hmade ▸ hq', ?_⟩
    exact shows_undoTo_of_extendsAll hext h.consistent (h.moves ▸ hle) hsaved

/-- A new variable is an unbound singleton, now and wherever one undoes to. -/
theorem Simulates.new (h : u.Simulates w marks) :
    Simulates { u with blocks := u.blocks.upTo (u.blocks.made + 1) }
      { w with store := w.store.fresh.2 } marks where
  consistent := ⟨h.consistent.store.fresh, h.consistent.trail⟩
  made := by
    show w.store.nextVar + 1 = max u.blocks.made (u.blocks.made + 1)
    rw [h.made]
    omega
  shows := (h.shows.setNext _).upTo _
  moves := h.moves
  marks := h.marks
  saved q hq := by
    obtain ⟨hle, hmade, hsaved⟩ := h.saved q hq
    refine ⟨hle, Nat.le_trans hmade (Nat.le_max_left ..), ?_⟩
    show q.2.Shows ((w.setNext (w.store.nextVar + 1)).undoTo q.1).store
    rw [Session.undoTo_setNext]
    exact hsaved.setNext _

/-- At the mark that is taken undoing changes nothing. -/
theorem Simulates.mark (h : u.Simulates w marks) :
    Simulates { u with saved := u.saved ++ [(u.moves, u.blocks)] } w (marks ++ [w.mark]) where
  consistent := h.consistent
  made := h.made
  shows := h.shows
  moves := h.moves
  marks := by
    rw [List.map_append, h.marks, h.moves]
    rfl
  saved q hq := by
    rcases List.mem_append.mp hq with hq | hq
    · exact h.saved q hq
    · rw [List.mem_singleton.mp hq]
      refine ⟨Nat.le_refl _, Nat.le_refl _, ?_⟩
      rw [← h.moves, Session.undoTo_self]
      exact h.shows

/-- Undoing to a mark shows what has been saved at it, and what has been saved before. -/
theorem Simulates.undoTo (h : u.Simulates w marks) {mark : Nat} {p : Blocks A}
    (hq : (mark, p) ∈ u.saved) :
    Simulates ⟨p.upTo u.blocks.made, mark, u.saved.filter (·.1 ≤ mark)⟩ (w.undoTo mark)
      (marks.filter (· ≤ mark)) := by
  obtain ⟨hle, hmade, hshows⟩ := h.saved _ hq
  constructor
  · exact h.consistent.undoTo mark
  · show (w.undoTo mark).store.nextVar = max p.made u.blocks.made
    rw [Session.undoTo, Session.nextVar_undo, h.made]
    exact (Nat.max_eq_right hmade).symm
  · exact hshows.upTo _
  · rw [Session.mark_undoTo, h.moves]
    exact Nat.min_eq_right hle
  · rw [h.marks, List.filter_map]
    rfl
  · intro q hq'
    obtain ⟨hsaved, hlower⟩ := List.mem_filter.mp hq'
    have hlower : q.1 ≤ mark := of_decide_eq_true hlower
    obtain ⟨-, hmade', hshows'⟩ := h.saved q hsaved
    refine ⟨hlower, Nat.le_trans hmade' (Nat.le_max_right ..), ?_⟩
    rw [Session.undoTo_undoTo w hlower]
    exact hshows'

variable [DecidableEq A] {n : Nat}

/-- An unbound block takes the value, with one move for each member; a bound one clashes or
    has it already. -/
theorem Simulates.resolve (hn : 0 < n) (h : u.Simulates w marks) {x : Var}
    (hx : x.id < u.blocks.made) (a : A) :
    ∃ reply u' w', UnionFind.step (.resolve x a) u = some (reply, u') ∧
      Op.perform.replied marks (w.resolve n x (.const a)) = some (reply, w', marks) ∧
      u'.Simulates w' marks := by
  have hvalue := h.shows.value x
  simp only [UnionFind.step, dif_pos hx, Session.resolve, Session.resolveBy]
  cases hb : u.blocks.value x with
  | none =>
    rw [hb] at hvalue
    simp only [hvalue, Option.map_none, Session.checkingOccurs_const hn]
    refine ⟨_, _, _, rfl, rfl, ?_⟩
    apply h.gather (List.nodup_singleton _) _ (h.shows.give h.consistent hx a) rfl
    intro y
    rw [List.mem_singleton, h.shows.classes]
  | some b =>
    rw [hb] at hvalue
    simp only [hvalue, Option.map_some, unify_const hn]
    by_cases hba : b = a
    · simp only [if_pos hba]
      exact ⟨_, _, _, rfl, rfl, h⟩
    · simp only [if_neg hba, Outcome.undoingTo, Session.undoTo_self]
      exact ⟨_, _, _, rfl, rfl, h⟩

/-- Two blocks become one, with one move for each member of either, unless their values
    clash or they are one. -/
theorem Simulates.bind (hn : 0 < n) (h : u.Simulates w marks) {x y : Var}
    (hx : x.id < u.blocks.made) (hy : y.id < u.blocks.made) :
    ∃ reply u' w', UnionFind.step (.bind x y) u = some (reply, u') ∧
      Op.perform.replied marks (w.bind n x y) = some (reply, w', marks) ∧
      u'.Simulates w' marks := by
  have haliased := h.shows.aliased x y
  simp only [UnionFind.step, dif_pos (And.intro hx hy), Session.bind, Session.bindBy]
  by_cases hxy : y ∈ u.blocks.block x
  · rw [decide_eq_true hxy] at haliased
    simp only [haliased, if_pos hxy, if_true]
    exact ⟨_, _, _, rfl, rfl, h⟩
  · rw [decide_eq_false hxy] at haliased
    simp only [haliased, if_neg hxy, Bool.false_eq_true, if_false]
    have hmerge : ∀ value, w.merge x y value =
        w.gather [w.store.classOf x, w.store.classOf y] value := fun value =>
      if_neg (by rw [haliased]; exact Bool.false_ne_true)
    have hclasses : [w.store.classOf x, w.store.classOf y].Nodup := by
      rw [List.nodup_cons, List.mem_singleton]
      exact ⟨fun e => hxy ((h.shows.classes x y).mp e.symm), List.nodup_singleton _⟩
    -- whatever the values are, this is what becomes of the blocks
    have hunited := h.gather hclasses (B := u.blocks.block x ∪ u.blocks.block y)
      (fun z => by rw [List.mem_pair, h.shows.classes, h.shows.classes, Finset.mem_union])
      (h.shows.unite h.consistent hx hy) rfl
    have hvalue := h.shows.value x
    have hvalue' := h.shows.value y
    revert hunited hvalue hvalue'
    generalize u.blocks.value x = a
    generalize u.blocks.value y = b
    intro hunited hvalue hvalue'
    cases a with
    | none =>
      cases b with
      | none =>
        simp only [hvalue, hvalue', Option.map_none, hmerge]
        exact ⟨_, _, _, rfl, rfl, hunited⟩
      | some b =>
        simp only [hvalue, hvalue', Option.map_none, Option.map_some, hmerge,
          Session.checkingOccurs_const hn]
        exact ⟨_, _, _, rfl, rfl, hunited⟩
    | some a =>
      cases b with
      | none =>
        simp only [hvalue, hvalue', Option.map_none, Option.map_some, hmerge,
          Session.checkingOccurs_const hn]
        exact ⟨_, _, _, rfl, rfl, hunited⟩
      | some b =>
        simp only [hvalue, hvalue', Option.map_some, unify_const hn]
        by_cases hab : a = b
        · simp only [if_pos hab, Outcome.undoingTo, Outcome.andThen, hmerge]
          exact ⟨_, _, _, rfl, rfl, hunited⟩
        · simp only [if_neg hab, Outcome.undoingTo, Outcome.andThen, Session.undoTo_self]
          exact ⟨_, _, _, rfl, rfl, h⟩

/-- **One operation** comes to the same on both sides, and keeps the machine and the session
    together. -/
theorem Simulates.step (hn : 0 < n) (h : u.Simulates w marks) (op : Op A) :
    Option.Rel (fun a c => c.1 = a.1 ∧ a.2.Simulates c.2.1 c.2.2) (UnionFind.step op u)
      (op.perform n (w, marks)) := by
  cases op with
  | new => exact .some ⟨rfl, h.new⟩
  | resolve x a =>
    by_cases hx : x.id < u.blocks.made
    · obtain ⟨reply, u', w', hstep, hperform, hsim⟩ := h.resolve hn hx a
      rw [hstep, Op.perform, h.made, if_pos hx, hperform]
      exact .some ⟨rfl, hsim⟩
    · rw [UnionFind.step, dif_neg hx, Op.perform, h.made, if_neg hx]
      exact .none
  | bind x y =>
    by_cases hxy : x.id < u.blocks.made ∧ y.id < u.blocks.made
    · obtain ⟨reply, u', w', hstep, hperform, hsim⟩ := h.bind hn hxy.1 hxy.2
      rw [hstep, Op.perform, h.made, if_pos hxy, hperform]
      exact .some ⟨rfl, hsim⟩
    · rw [UnionFind.step, dif_neg hxy, Op.perform, h.made, if_neg hxy]
      exact .none
  | mark => exact .some ⟨rfl, h.mark⟩
  | undoTo k =>
    rw [UnionFind.step, Op.perform, h.marks, List.getElem?_map]
    cases hq : u.saved[k]? with
    | none => exact .none
    | some q =>
      rw [← h.marks]
      exact .some ⟨rfl, h.undoTo (List.mem_of_getElem? hq)⟩

/-- A run comes to the same, step by step. -/
theorem Simulates.trace (hn : 0 < n) (h : u.Simulates w marks) (ops : List (Op A)) :
    Option.Rel (List.Forall₂ fun a c => c.1 = a.1 ∧ a.2.Simulates c.2.1 c.2.2)
      (UnionFind.trace UnionFind.step ops u) (UnionFind.trace (Op.perform n) ops (w, marks)) := by
  induction ops generalizing u w marks with
  | nil => exact .some .nil
  | cons op ops ih =>
    have hstep := h.step hn op
    rw [UnionFind.trace, UnionFind.trace]
    revert hstep
    generalize UnionFind.step op u = o
    generalize op.perform n (w, marks) = o'
    intro hstep
    cases hstep with
    | none => exact .none
    | some hac => exact rel_map (ih hac.2) fun _ _ _ hrest => .cons hac hrest

end simulates

theorem simulates_start (check : Bool) :
    (start : UnionFind A).Simulates ⟨.empty, .start check⟩ [] where
  consistent := Session.consistent_start Store.consistent_empty check
  made := rfl
  shows := by
    have hclass : ∀ x, (Store.empty : Store A).classOf x = .own x := fun x => Table.get_empty x.id
    constructor
    · intro x y
      rw [hclass, hclass, ClassId.own.injEq]
      exact Finset.mem_singleton.symm
    · intro x
      rw [Store.value, hclass]
      rfl
  moves := rfl
  marks := rfl
  saved := nofun

theorem Simulates.agrees {u : UnionFind A} {w : Session A} {marks : List Nat}
    (h : u.Simulates w marks) : u.Agrees w where
  made := h.made
  aliased := h.shows.aliased
  isBound x := by
    rw [Store.isBound, h.shows.value, Option.isSome_map]
  value := h.shows.value
  length := h.moves

end UnionFind

/-- **On atomic values a store is union-find with values and undo.**  Take any run of
    operations on one trail, from the empty store, with the occurs check on or off and with
    any positive number of levels.  The session can perform it just if the machine can,
    which is to say if every variable has been made when it is used and every mark that is
    undone to has been taken and not undone past (`UnionFind.step_eq_none_iff`).

    Then every operation comes to the same on both sides, a success or a clash of the same
    two values.  After each of them all variables are aliased, are bound and have values as
    the machine has it, and the trail has grown by as many moves as the machine has counted:
    the size of the block where an unbound block has been given a value, the size of the
    union where two blocks have become one, and none otherwise. -/
theorem store_refines_union_find [DecidableEq A] (check : Bool) (n : Nat)
    (ops : List (UnionFind.Op A)) :
    Option.Rel (List.Forall₂ fun a c => c.1 = a.1 ∧ a.2.Agrees c.2.1)
      (UnionFind.trace UnionFind.step ops .start)
      (UnionFind.trace (UnionFind.Op.perform (n + 1)) ops (⟨.empty, .start check⟩, [])) := by
  have hrun := (UnionFind.simulates_start check).trace (Nat.succ_pos n) ops
  revert hrun
  generalize UnionFind.trace UnionFind.step ops .start = l
  generalize UnionFind.trace (UnionFind.Op.perform (n + 1)) ops (⟨.empty, .start check⟩, []) = l'
  intro hrun
  cases hrun with
  | none => exact .none
  | some hall => exact .some (hall.imp fun _ _ h => ⟨h.1, h.2.agrees⟩)

/-- Two blocks with different values cannot become one; when the value of the first is undone,
    they can.  Two moves are recorded when the first two variables are bound, one and two when
    the blocks take their values, and three for the union. -/
example :
    (UnionFind.trace UnionFind.step [.new, .new, .new, .bind ⟨0⟩ ⟨1⟩, .resolve ⟨2⟩ 7, .mark,
        .resolve ⟨0⟩ 8, .bind ⟨1⟩ ⟨2⟩, .undoTo 0, .bind ⟨1⟩ ⟨2⟩] .start).map
      (List.map fun (reply, u) => (reply, u.moves)) =
    some [(.done, 0), (.done, 0), (.done, 0), (.done, 2), (.done, 3), (.done, 3), (.done, 5),
      (.conflict 8 7, 5), (.done, 3), (.done, 6)] := by
  decide +kernel

end Horn
