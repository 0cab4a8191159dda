import Horn.Proofs.Solutions
import Horn.Search.Recursive

/-! # Derivation trees

    What a program proves, said without any search.  A derivation tree has a goal at
    each node; the goal is the head of an instance of a clause, and below it stand, in
    order, the goals of the body of that instance.  A clause is stored with variables
    that may have values, or share classes, in the store; its instances are what it
    becomes under the substitutions that solve the store.

    * `Tree`, `Tree.Proves`: trees, and what makes one a derivation.
    * `Tree.height`: the number of rule expansions that its deepest node lies below the
      root.
    * `Program.Proves`: there is a derivation that does not go deeper than the options
      of the program permit.

    Main statement: `Program.proves_iff`, what is proved is the head of an instance of a
    clause whose body is proved one level deeper. -/

namespace Horn

universe u

variable {A : Type u}

/-! ## Trees -/

/-- A goal, and the trees of the goals that it has been reduced to. -/
inductive Tree (A : Type u) where
  | node (goal : Term A) (below : List (Tree A))

namespace Tree

instance : Inhabited (Tree A) := ⟨.node (.var ⟨0⟩) []⟩

/-- The goal at the root. -/
def goal : Tree A → Term A
  | .node g _ => g

mutual

/-- The number of expansions that the deepest node lies below the root. -/
def height : Tree A → Nat
  | .node _ ts => heightEach ts

/-- The same of a tree with these ones below its root. -/
def heightEach : List (Tree A) → Nat
  | [] => 0
  | t :: ts => max (t.height + 1) (heightEach ts)

end

theorem heightEach_le {ts : List (Tree A)} {d : Nat} :
    heightEach ts ≤ d ↔ ∀ t ∈ ts, t.height + 1 ≤ d := by
  induction ts with
  | nil => simp [heightEach]
  | cons t ts ih =>
    rw [heightEach, Nat.max_le, ih, List.forall_mem_cons]

/-- Every node of the tree is the head of an instance of a clause of `p`, as it stands in
    the store `s`, and the goals below it are those of the body. -/
inductive Proves (p : Program A) (s : Store A) : Tree A → Prop where
  | node {c : Clause A} {θ : Var → Term A} {ts : List (Tree A)} :
      c ∈ p.clauses → s.Solves θ → ts.map goal = c.body.map (fun b => b.toTerm.subst θ) →
      (∀ t ∈ ts, Proves p s t) → Proves p s (.node (c.head.toTerm.subst θ) ts)

end Tree

/-! ## What is proved within the limit on depth -/

/-- Below a goal that is given up for its depth all are. -/
theorem Search.tooDeep_mono {o : Options} {d e : Nat} (hde : d ≤ e) (he : tooDeep o e = false) :
    tooDeep o d = false := by
  rw [tooDeep_eq_false_iff] at he ⊢
  intro max hmax
  exact Nat.le_trans hde (he max hmax)

/-- There is a derivation of the goal `g` that, if `g` itself lies at depth `d`, does not
    go deeper than permitted. -/
def Program.Proves (p : Program A) (s : Store A) (d : Nat) (g : Term A) : Prop :=
  ∃ t : Tree A, t.goal = g ∧ t.Proves p s ∧ Search.tooDeep p.options (d + t.height) = false

section proves

variable {p : Program A} {s : Store A} {d : Nat} {g : Term A}

theorem Program.Proves.not_tooDeep (h : p.Proves s d g) : Search.tooDeep p.options d = false := by
  obtain ⟨t, -, -, hdepth⟩ := h
  exact Search.tooDeep_mono (Nat.le_add_right d t.height) hdepth

/-- A goal is proved just if it is the head of an instance of a clause, the goals of
    whose body are proved one level deeper. -/
theorem Program.proves_iff :
    p.Proves s d g ↔ Search.tooDeep p.options d = false ∧ ∃ c ∈ p.clauses, ∃ θ, s.Solves θ ∧
      g = c.head.toTerm.subst θ ∧ ∀ b ∈ c.body, p.Proves s (d + 1) (b.toTerm.subst θ) := by
  constructor
  · intro h
    refine ⟨h.not_tooDeep, ?_⟩
    obtain ⟨t, rfl, ht, hdepth⟩ := h
    cases ht with
    | @node c θ ts hc hθ hgoals hts =>
      refine ⟨c, hc, θ, hθ, rfl, fun b hb => ?_⟩
      -- the tree of `b` is one of those below the root
      have hmem : b.toTerm.subst θ ∈ ts.map Tree.goal := by
        rw [hgoals]
        exact List.mem_map_of_mem hb
      obtain ⟨t, ht, hgoal⟩ := List.mem_map.mp hmem
      refine ⟨t, hgoal, hts t ht, Search.tooDeep_mono ?_ hdepth⟩
      have hheight := Tree.heightEach_le.mp (Nat.le_refl (Tree.heightEach ts)) t ht
      rw [Tree.height]
      omega
  · rintro ⟨hdepth, c, hc, θ, hθ, rfl, hbody⟩
    choose! tree hgoal hproves hheight using hbody
    refine ⟨.node (c.head.toTerm.subst θ) (c.body.map tree), rfl, .node hc hθ ?_ ?_, ?_⟩
    · rw [List.map_map]
      exact List.map_congr_left fun b hb => hgoal b hb
    · intro t ht
      obtain ⟨b, hb, rfl⟩ := List.mem_map.mp ht
      exact hproves b hb
    · rw [Search.tooDeep_eq_false_iff] at hdepth ⊢
      intro max hmax
      have hd := hdepth max hmax
      -- what is below the root may take what is left of the permitted depth
      have hbelow : Tree.heightEach (c.body.map tree) ≤ max - d := by
        rw [Tree.heightEach_le]
        intro t ht
        obtain ⟨b, hb, rfl⟩ := List.mem_map.mp ht
        have hb := Search.tooDeep_eq_false_iff.mp (hheight b hb) max hmax
        omega
      rw [Tree.height]
      omega

end proves

end Horn
