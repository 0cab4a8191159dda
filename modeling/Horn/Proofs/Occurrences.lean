import Horn.Proofs.SameTerms

/-! # The variables of a term

    Three walks look for unbound variables.  Collecting lists them, one for each class;
    groundness asks whether there are any; the occurs check asks for those of one class.
    Resolving leaves the unbound variables where they stand, so all three can be told from
    the resolved form: `collect_eq`, `ground_of_resolved`, `contains_of_resolved`.

    * `Answers`: what a walk answers, whatever number of levels it takes.
    * `FirstOfEachClass`: a list keeps the first variable of each class.

    Main statement: `variables_groundness_occurs_agree`. -/

namespace Horn

universe u v

variable {A : Type u}

/-! ## Answers -/

section answers

variable {α : Type v} {walk : Nat → Option α} {a b : α} {n : Nat}

/-- With too few levels the walk gives no answer, and with enough of them this one. -/
def Answers (walk : Nat → Option α) (a : α) : Prop :=
  ∃ n, ∀ m, walk m = if n ≤ m then some a else none

/-- An answer that no further level changes is the only one. -/
theorem Answers.of_succ (hsucc : ∀ n a, walk n = some a → walk (n + 1) = some a)
    (h : walk n = some a) : Answers walk a := by
  -- the first level with an answer is where the answers begin
  have hex : ∃ k, walk k ≠ none := ⟨n, by simp [h]⟩
  have hfirst : walk (Nat.find hex) = some a := by
    obtain ⟨b, hb⟩ := Option.ne_none_iff_exists'.mp (Nat.find_spec hex)
    have hle : Nat.find hex ≤ n := Nat.find_min' hex (by simp [h])
    rw [hb, ← h, answer_mono hsucc hle hb]
  refine ⟨Nat.find hex, fun m => ?_⟩
  by_cases hm : Nat.find hex ≤ m
  · rw [if_pos hm]
    exact answer_mono hsucc hm hfirst
  · rw [if_neg hm]
    exact Decidable.of_not_not (Nat.find_min hex (by omega))

theorem Answers.exists_level (h : Answers walk a) : ∃ n, walk n = some a := by
  obtain ⟨n, hn⟩ := h
  exact ⟨n, by simp [hn]⟩

theorem Answers.unique (h : Answers walk a) (hb : walk n = some b) : b = a := by
  obtain ⟨k, hk⟩ := h
  rw [hk] at hb
  split at hb
  · exact (Option.some.inj hb).symm
  · cases hb

end answers

/-! ## Occurrences -/

/-- The variables of a term from left to right, each as often as it is written. -/
def Term.occurrences (t : Term A) : List Var := t.fold (fun _ => List.flatten) fun x => [x]

@[simp] theorem Term.occurrences_var (x : Var) : (Term.var x : Term A).occurrences = [x] := rfl

@[simp] theorem Term.occurrences_app (f : A) (as : List (Term A)) :
    (Term.app f as).occurrences = as.flatMap Term.occurrences := by
  rw [Term.occurrences, Term.fold_app, List.flatMap_def]
  rfl

theorem Term.mem_occurrences {x : Var} {t : Term A} : x ∈ t.occurrences ↔ t.Mentions x := by
  induction t with
  | var y => simp
  | app f as ih =>
    rw [occurrences_app, List.mem_flatMap, mentions_app]
    exact exists_congr fun a => and_congr_right fun ha => ih a ha

/-! ## The first variable of each class -/

namespace Store

variable {s : Store A}

/-- The variables `xs` are those that stand first among the variables of their class in `ys`,
    and they are in the order in which they stand there. -/
structure FirstOfEachClass (s : Store A) (ys xs : List Var) : Prop where
  mem_iff : ∀ x, x ∈ xs ↔ ys.find? (s.aliased x) = some x
  inOrder : xs.Pairwise fun x x' => ys.idxOf x < ys.idxOf x'

/-- Adds `x` unless a variable of its class is there. -/
def keepFirst (s : Store A) (found : List Var) (x : Var) : List Var :=
  if found.any (s.aliased · x) then found else found ++ [x]

theorem aliased_comm (x y : Var) : s.aliased x y = s.aliased y x := by
  simp [aliased, eq_comm]

theorem aliased_of_aliased {x y : Var} (h : s.aliased x y = true) : s.aliased x = s.aliased y := by
  funext z
  simp [aliased, aliased_iff.mp h]

section first

variable {xs ys : List Var} {y : Var}

/-- Every variable has the one of its class in the list, -/
theorem FirstOfEachClass.exists_mem (h : s.FirstOfEachClass ys xs) (hy : y ∈ ys) :
    ∃ x ∈ xs, s.aliased x y = true := by
  cases hfind : ys.find? (s.aliased y) with
  | none =>
    have hself := List.find?_eq_none.mp hfind y hy
    simp [aliased] at hself
  | some x =>
    have hyx : s.aliased y x = true := List.find?_some hfind
    refine ⟨x, (h.mem_iff x).mpr ?_, by rw [aliased_comm]; exact hyx⟩
    rw [← aliased_of_aliased hyx]
    exact hfind

/-- and no other of its class. -/
theorem FirstOfEachClass.eq_of_aliased (h : s.FirstOfEachClass ys xs) {x x' : Var} (hx : x ∈ xs)
    (hx' : x' ∈ xs) (hxx' : s.aliased x x' = true) : x = x' := by
  have hfirst := (h.mem_iff x).mp hx
  rw [aliased_of_aliased hxx', (h.mem_iff x').mp hx'] at hfirst
  exact (Option.some.inj hfirst).symm

theorem FirstOfEachClass.existsUnique (h : s.FirstOfEachClass ys xs) (hy : y ∈ ys) :
    ∃! x, x ∈ xs ∧ s.aliased x y = true := by
  obtain ⟨x, hx, hxy⟩ := h.exists_mem hy
  refine ⟨x, ⟨hx, hxy⟩, fun x' hx' => ?_⟩
  apply h.eq_of_aliased hx'.1 hx
  rw [aliased_of_aliased hx'.2, aliased_comm]
  exact hxy

theorem FirstOfEachClass.mem (h : s.FirstOfEachClass ys xs) {x : Var} (hx : x ∈ xs) : x ∈ ys :=
  List.mem_of_find?_eq_some ((h.mem_iff x).mp hx)

/-- The first variable of a class is the one added only if it is the first of its class. -/
theorem find?_snoc_eq_some {x : Var} :
    (ys ++ [y]).find? (s.aliased x) = some x ↔
      ys.find? (s.aliased x) = some x ∨ ys.find? (s.aliased x) = none ∧ x = y := by
  rw [List.find?_append]
  cases ys.find? (s.aliased x) with
  | some z => simp
  | none =>
    simp only [List.find?_singleton, Option.none_or, reduceCtorEq, true_and, false_or]
    constructor
    · intro h
      split at h
      · exact (Option.some.inj h).symm
      · cases h
    · rintro rfl
      simp [aliased]

theorem FirstOfEachClass.find?_eq_none_iff (h : s.FirstOfEachClass ys xs) :
    ys.find? (s.aliased y) = none ↔ ¬ xs.any (s.aliased · y) = true := by
  rw [List.find?_eq_none, List.any_eq_true]
  constructor
  · rintro hnone ⟨x, hx, hxy⟩
    exact hnone x (h.mem hx) (by rw [aliased_comm]; exact hxy)
  · intro hnone z hz hyz
    obtain ⟨x, hx, hxz⟩ := h.exists_mem hz
    exact hnone ⟨x, hx, by rw [aliased_of_aliased hxz, aliased_comm]; exact hyz⟩

/-- One more variable is added just if none of its class is there. -/
theorem FirstOfEachClass.snoc (h : s.FirstOfEachClass ys xs) (y : Var) :
    s.FirstOfEachClass (ys ++ [y]) (s.keepFirst xs y) := by
  -- the places of the variables in the list have not changed
  have hidx : ∀ {x}, x ∈ xs → (ys ++ [y]).idxOf x = ys.idxOf x := fun hx =>
    List.idxOf_append_of_mem (h.mem hx)
  have hpairs : xs.Pairwise fun x x' => (ys ++ [y]).idxOf x < (ys ++ [y]).idxOf x' := by
    refine h.inOrder.imp_of_mem fun {x x'} hx hx' hlt => ?_
    rw [hidx hx, hidx hx']
    exact hlt
  have hnone := h.find?_eq_none_iff (y := y)
  unfold keepFirst
  by_cases hany : xs.any (s.aliased · y) = true
  · rw [if_pos hany]
    refine ⟨fun x => ?_, hpairs⟩
    rw [h.mem_iff, find?_snoc_eq_some]
    constructor
    · exact .inl
    · rintro (hx | ⟨hx, rfl⟩)
      · exact hx
      · exact absurd hany (hnone.mp hx)
  · rw [if_neg hany]
    have hy : y ∉ ys := by
      intro hy
      have hself := List.find?_eq_none.mp (hnone.mpr hany) y hy
      simp [aliased] at hself
    refine ⟨fun x => ?_, ?_⟩
    · rw [List.mem_append, List.mem_singleton, h.mem_iff, find?_snoc_eq_some]
      constructor
      · rintro (hx | rfl)
        · exact .inl hx
        · exact .inr ⟨hnone.mpr hany, rfl⟩
      · rintro (hx | ⟨-, rfl⟩)
        · exact .inl hx
        · exact .inr rfl
    · refine List.pairwise_append.mpr ⟨hpairs, List.pairwise_singleton _ _, fun x hx z hz => ?_⟩
      rw [List.mem_singleton.mp hz, hidx hx, List.idxOf_append_of_notMem hy]
      have hlt : ys.idxOf x < ys.length := List.idxOf_lt_length_of_mem (h.mem hx)
      omega

theorem firstOfEachClass_foldl (ys : List Var) :
    s.FirstOfEachClass ys (ys.foldl s.keepFirst []) := by
  induction ys using List.reverseRecOn with
  | nil => exact ⟨fun x => by simp, .nil⟩
  | append_singleton ys y ih =>
    rw [List.foldl_concat]
    exact ih.snoc y

end first

end Store

/-! ## Questions asked of resolved arguments -/

section lists

variable {α β : Type u} {as : List α} {bs : List β}

theorem anyM_eq_any {f : α → Option Bool} {p : β → Bool}
    (h : List.Forall₂ (fun a b => f a = some (p b)) as bs) : as.anyM f = some (bs.any p) := by
  induction h with
  | nil => rfl
  | @cons a b as bs hab _ ih =>
    rw [List.anyM_cons, hab, List.any_cons]
    cases p b with
    | true => rfl
    | false => exact ih

theorem allM_eq_all {f : α → Option Bool} {p : β → Bool}
    (h : List.Forall₂ (fun a b => f a = some (p b)) as bs) : as.allM f = some (bs.all p) := by
  induction h with
  | nil => rfl
  | @cons a b as bs hab _ ih =>
    rw [List.allM_cons, hab, List.all_cons]
    cases p b with
    | true => exact ih
    | false => rfl

/-- To fold over the answers one by one is to fold over all of them. -/
theorem foldlM_eq_map_mapM {γ : Type v} {f : γ → α → Option γ} {g : α → Option β}
    {k : γ → β → γ} (h : ∀ c a, f c a = (g a).map (k c)) (as : List α) (c : γ) :
    as.foldlM f c = (as.mapM g).map fun bs => bs.foldl k c := by
  induction as generalizing c with
  | nil => rfl
  | cons a as ih =>
    rw [List.foldlM_cons, List.mapM_cons, h]
    cases g a with
    | none => rfl
    | some b =>
      show as.foldlM f (k c b) = _
      rw [ih]
      cases as.mapM g with
      | none => rfl
      | some bs => rfl

end lists

/-! ## The three walks -/

namespace Store

variable {s : Store A}

/-- Collecting lists the first variable of each class in the resolved form. -/
theorem collect_eq (n : Nat) (found : List Var) (t : Term A) :
    s.collect n found t = (s.resolved n t).map fun u => u.occurrences.foldl s.keepFirst found := by
  induction n generalizing found t with
  | zero => rfl
  | succ n ih =>
    have hargs : ∀ (f : A) (as : List (Term A)), as.foldlM (s.collect n) found =
        ((as.mapM (s.resolved n)).map (Term.app f)).map fun u =>
          u.occurrences.foldl s.keepFirst found := by
      intro f as
      rw [foldlM_eq_map_mapM ih, Option.map_map]
      congr 1
      funext us
      simp [List.foldl_flatMap]
    cases t with
    | app f as => exact hargs f as
    | var x =>
      rw [collect, resolved]
      split
      · rfl
      · next c _ => exact hargs c.name c.args

/-- A term is ground if no variable is left when it is resolved. -/
theorem ground_of_resolved {n : Nat} {t u : Term A} (h : s.resolved n t = some u) :
    s.ground n t = some u.occurrences.isEmpty := by
  induction n generalizing t u with
  | zero => cases h
  | succ n ih =>
    have hargs : ∀ {f : A} {as us : List (Term A)}, as.mapM (s.resolved n) = some us →
        as.allM (s.ground n) = some (Term.app f us).occurrences.isEmpty := by
      intro f as us hus
      rw [allM_eq_all ((mapM_eq_some_iff.mp hus).imp fun _ _ => ih)]
      congr 1
      rw [Bool.eq_iff_iff]
      simp
    rw [ground]
    cases t with
    | app f as =>
      obtain ⟨us, hus, rfl⟩ := Option.map_eq_some_iff.mp h
      exact hargs hus
    | var x =>
      rw [resolved] at h
      rw [view]
      split at h
      · cases h
        rfl
      · obtain ⟨us, hus, rfl⟩ := Option.map_eq_some_iff.mp h
        exact hargs hus

/-- An unbound class is met just where one of its variables is left when the term is
    resolved. -/
theorem contains_of_resolved {x : Var} (hx : s.value x = none) {n : Nat} {t u : Term A}
    (h : s.resolved n t = some u) :
    s.contains x n t = some (u.occurrences.any (s.aliased · x)) := by
  induction n generalizing t u with
  | zero => cases h
  | succ n ih =>
    have hargs : ∀ {f : A} {as us : List (Term A)}, as.mapM (s.resolved n) = some us →
        as.anyM (s.contains x n) = some ((Term.app f us).occurrences.any (s.aliased · x)) := by
      intro f as us hus
      rw [anyM_eq_any ((mapM_eq_some_iff.mp hus).imp fun _ _ => ih)]
      simp [List.any_flatMap]
    cases t with
    | app f as =>
      obtain ⟨us, hus, rfl⟩ := Option.map_eq_some_iff.mp h
      exact hargs hus
    | var y =>
      rw [contains]
      rw [resolved] at h
      by_cases hyx : s.aliased y x = true
      · -- a variable in the class of `x` is unbound as well
        rw [value_eq_of_classOf_eq (aliased_iff.mp hyx), hx] at h
        cases h
        simp [hyx]
      · rw [if_neg hyx]
        split at h
        · next hy =>
          cases h
          simp [hyx]
        · next c hy =>
          obtain ⟨us, hus, rfl⟩ := Option.map_eq_some_iff.mp h
          exact hargs hus

/-! ## Answers of the walks -/

theorem Resolves.answers_freeVars {t u : Term A} (h : s.Resolves t u) :
    Answers (s.freeVars · t) (u.occurrences.foldl s.keepFirst []) := by
  obtain ⟨n, hn⟩ := h
  refine .of_succ (n := n) (fun _ _ => collect_succ) ?_
  show s.collect n [] t = _
  rw [collect_eq, hn]
  rfl

theorem Resolves.answers_ground {t u : Term A} (h : s.Resolves t u) :
    Answers (s.ground · t) u.occurrences.isEmpty := by
  obtain ⟨n, hn⟩ := h
  exact .of_succ (fun _ _ => ground_succ) (ground_of_resolved hn)

theorem Resolves.answers_contains {t u : Term A} (h : s.Resolves t u) {x : Var}
    (hx : s.value x = none) :
    Answers (s.contains x · t) (u.occurrences.any (s.aliased · x)) := by
  obtain ⟨n, hn⟩ := h
  exact .of_succ (fun _ _ => s.contains_succ x) (contains_of_resolved hx hn)

/-- The occurs check tells of every variable whether its class is met. -/
theorem Ends.answers_contains {t : Term A} (h : s.Ends t) (x : Var) :
    ∃ b, Answers (s.contains x · t) b ∧ (b = true ↔ s.Meets (s.classOf x) t) := by
  obtain ⟨n, b, hn⟩ := h.contains x
  exact ⟨b, .of_succ (fun _ _ => s.contains_succ x) hn, contains_iff hn⟩

namespace FirstOfEachClass

variable {xs ys : List Var}

theorem isEmpty_eq (h : s.FirstOfEachClass ys xs) : ys.isEmpty = xs.isEmpty := by
  cases ys with
  | nil =>
    cases xs with
    | nil => rfl
    | cons x xs => cases h.mem (List.mem_cons_self ..)
  | cons y ys =>
    obtain ⟨x, hx, -⟩ := h.exists_mem (List.mem_cons_self ..)
    cases xs with
    | nil => cases hx
    | cons x xs => rfl

/-- A class that has a variable in the one list has one in the other. -/
theorem any_eq (h : s.FirstOfEachClass ys xs) (x : Var) :
    ys.any (s.aliased · x) = xs.any (s.aliased · x) := by
  rw [Bool.eq_iff_iff, List.any_eq_true, List.any_eq_true]
  constructor
  · rintro ⟨y, hy, hyx⟩
    obtain ⟨z, hz, hzy⟩ := h.exists_mem hy
    exact ⟨z, hz, by rw [aliased_of_aliased hzy]; exact hyx⟩
  · rintro ⟨y, hy, hyx⟩
    exact ⟨y, h.mem hy, hyx⟩

end FirstOfEachClass

end Store

/-! ## The occurs check -/

section resolve

variable [DecidableEq A] {w : Session A}

/-- With the check on, an unbound class is refused just the values in which it is met. -/
theorem Session.resolve_occurs_iff (hs : w.store.Acyclic) (hcheck : w.trail.occursCheck = true)
    {x : Var} (hx : w.store.value x = none) (c : Compound A) :
    (∃ n d v, w.resolve n x c = .failure (.occurs x d) v) ↔
      w.store.Meets (w.store.classOf x) c.toTerm := by
  let next (v : Session A) : Outcome A := .success (v.gather [v.store.classOf x] (some c))
  have hresolve : ∀ n, w.resolve n x c = w.checkingOccurs n x c next := by
    intro n
    unfold resolve resolveBy
    rw [hx]
  constructor
  · rintro ⟨n, d, v, h⟩
    rw [hresolve, checkingOccurs, if_pos hcheck] at h
    cases hb : w.store.contains x n c.toTerm with
    | none =>
      rw [hb] at h
      cases h
    | some b =>
      cases b with
      | false =>
        rw [hb] at h
        cases h
      | true => exact (Store.contains_iff hb).mp rfl
  · intro hmeets
    have hnext : next w ≠ .cutOff := by simp [next]
    obtain ⟨n, hn⟩ := exists_checkingOccurs_ne_cutOff hs x c hnext
    -- as it ends and the class is met, it ends in the refusal
    rw [checkingOccurs, if_pos hcheck] at hn
    cases hb : w.store.contains x n c.toTerm with
    | none =>
      rw [hb] at hn
      exact absurd rfl hn
    | some b =>
      rw [(Store.contains_iff hb).mpr hmeets] at hb
      cases hd : w.store.resolvedCompound n c with
      | none =>
        rw [hb, hd] at hn
        exact absurd rfl hn
      | some d =>
        refine ⟨n, d, w, ?_⟩
        rw [hresolve, checkingOccurs, if_pos hcheck, hb, hd]

/-- **The walks that look for unbound variables agree.**  In an acyclic store a term resolves
    to some form `u`, and collecting its variables lists those that stand first of their class
    in `u`.  All variables there are unbound, and each has exactly one of its class in the
    list.  The term is ground just if the list is empty.  An unbound variable passes the occurs
    check just if none of the list is in its class, and any variable does if its class is not
    met on the way through the values.  So with the check on an unbound variable is refused a
    value just if one of the variables of that is in its class. -/
theorem variables_groundness_occurs_agree {s : Store A} (hs : s.Acyclic) (t : Term A) :
    ∃ u xs, s.Resolves t u ∧ Answers (s.freeVars · t) xs ∧ s.FirstOfEachClass u.occurrences xs ∧
      (∀ y ∈ u.occurrences, s.value y = none ∧ ∃! x, x ∈ xs ∧ s.aliased x y = true) ∧
      Answers (s.ground · t) xs.isEmpty ∧
      (∀ x, s.value x = none → Answers (s.contains x · t) (xs.any (s.aliased · x))) ∧
      (∀ x, ∃ b, Answers (s.contains x · t) b ∧ (b = true ↔ s.Meets (s.classOf x) t)) ∧
      ∀ (tr : Trail) x c, tr.occursCheck = true → s.value x = none → c.toTerm = t →
        ((∃ n d v, Session.resolve n x c ⟨s, tr⟩ = .failure (.occurs x d) v) ↔
          xs.any (s.aliased · x) = true) := by
  obtain ⟨u, hu⟩ := hs.exists_resolves t
  have hfirst := s.firstOfEachClass_foldl u.occurrences
  have hcontains : ∀ x, s.value x = none →
      Answers (s.contains x · t) ((u.occurrences.foldl s.keepFirst []).any (s.aliased · x)) := by
    intro x hx
    rw [← hfirst.any_eq x]
    exact hu.answers_contains hx
  refine ⟨u, _, hu, hu.answers_freeVars, hfirst, fun y hy => ⟨?_, hfirst.existsUnique hy⟩, ?_,
    hcontains, (hs.ends t).answers_contains, fun tr x c hcheck hx hc => ?_⟩
  · exact hu.unbound (Term.mem_occurrences.mp hy)
  · rw [← hfirst.isEmpty_eq]
    exact hu.answers_ground
  · subst hc
    rw [Session.resolve_occurs_iff (w := ⟨s, tr⟩) hs hcheck hx c]
    obtain ⟨b, hb, hmeets⟩ := (hs.ends c.toTerm).answers_contains x
    obtain ⟨n, hn⟩ := hb.exists_level
    rw [← hmeets, (hcontains x hx).unique hn]

end resolve

/-- The variables `X` and `Y` are in one class, `Z` is unbound too, and `U` has the value
    `7(Y, Z)`.  So `9(U, Z, X)` resolves to `9(7(Y, Z), Z, X)`, in which `Y` and `Z` stand first
    of their classes.  It is refused as a value of `X`, which is not in the list itself. -/
theorem aliases_collected_once :
    let c : Compound Nat := ⟨9, [.var ⟨3⟩, .var ⟨2⟩, .var ⟨0⟩]⟩
    ∃ s : Store Nat, s.Acyclic ∧ s.aliased ⟨0⟩ ⟨1⟩ = true ∧ s.value ⟨0⟩ = none ∧
      s.resolved 3 c.toTerm = some (.app 9 [.app 7 [.var ⟨1⟩, .var ⟨2⟩], .var ⟨2⟩, .var ⟨0⟩]) ∧
      s.freeVars 3 c.toTerm = some [⟨1⟩, ⟨2⟩] ∧
      s.FirstOfEachClass [⟨1⟩, ⟨2⟩, ⟨2⟩, ⟨0⟩] [⟨1⟩, ⟨2⟩] ∧
      s.contains ⟨3⟩ 3 c.toTerm = some true ∧ s.Meets (s.classOf ⟨3⟩) c.toTerm ∧
      ∃ n d v, Session.resolve n ⟨0⟩ c ⟨s, .start true⟩ = .failure (.occurs ⟨0⟩ d) v := by
  intro c
  have hrun : ∃ w : Session Nat, Session.perform ⟨(Store.empty.freshMany 4).2, .start true⟩
      [.bind 3 ⟨0⟩ ⟨1⟩, .resolve 3 ⟨3⟩ ⟨7, [.var ⟨1⟩, .var ⟨2⟩]⟩] = some w ∧
      w.store.aliased ⟨0⟩ ⟨1⟩ = true ∧ w.store.value ⟨0⟩ = none ∧
      w.store.resolved 3 c.toTerm =
        some (.app 9 [.app 7 [.var ⟨1⟩, .var ⟨2⟩], .var ⟨2⟩, .var ⟨0⟩]) ∧
      w.store.freeVars 3 c.toTerm = some [⟨1⟩, ⟨2⟩] ∧
      w.store.contains ⟨3⟩ 3 c.toTerm = some true :=
    ⟨_, rfl, rfl, rfl, rfl, rfl, rfl⟩
  obtain ⟨w, hw, halias, hx, hform, hvars, hmet⟩ := hrun
  have hs := (Session.ready_of_perform 4 hw).acyclic
  obtain ⟨u, xs, hu, hxs, hfirst, -, -, -, hmeets, hrefused⟩ :=
    variables_groundness_occurs_agree hs c.toTerm
  cases hu.unique ⟨3, hform⟩
  cases hxs.unique hvars
  obtain ⟨b, hb, hiff⟩ := hmeets ⟨3⟩
  have hany : [(⟨1⟩ : Var), ⟨2⟩].any (w.store.aliased · ⟨0⟩) = true := by
    rw [List.any_cons, Store.aliased_comm, halias]
    rfl
  exact ⟨w.store, hs, halias, hx, hform, hvars, hfirst, hmet, hiff.mp (hb.unique hmet).symm,
    (hrefused (.start true) ⟨0⟩ c rfl hx rfl).mpr hany⟩

end Horn
