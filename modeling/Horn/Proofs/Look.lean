import Horn.Proofs.NextVar

/-! # Looking through variables

    Without the occurs check values may run in circles, and a term then denotes a tree
    without end.  Such a tree can still be looked at along every path: `look` tells what
    stands there, a name with a number of arguments or an unbound class.  Terms that
    look the same along all paths denote the same tree.

    * `gather_keepsLooks`: classes that are gathered under a value like theirs go on looking
      as they did.
    * `unify_looks`: after a successful unification the two terms look the same, and
      whatever looked the same before still does. -/

namespace Horn

universe u v

variable {A : Type u}

/-- Two lists of one length, read at one place. -/
theorem bind_getElem?_congr {α : Type u} {β : Type u} {γ : Type v} {f : α → Option γ}
    {g : β → Option γ} {as : List α} {bs : List β} (hlen : as.length = bs.length) (i : Nat)
    (h : ∀ a b, as[i]? = some a → bs[i]? = some b → f a = g b) :
    as[i]?.bind f = bs[i]?.bind g := by
  by_cases hi : i < as.length
  · have hi' : i < bs.length := hlen ▸ hi
    rw [List.getElem?_eq_getElem hi, List.getElem?_eq_getElem hi']
    exact h _ _ (List.getElem?_eq_getElem hi) (List.getElem?_eq_getElem hi')
  · have hi' : ¬ i < bs.length := hlen ▸ hi
    rw [List.getElem?_eq_none (Nat.le_of_not_lt hi), List.getElem?_eq_none (Nat.le_of_not_lt hi')]
    rfl

/-- What a term is at its root, looking through variables. -/
inductive Sight (A : Type u) where
  /-- A name with this number of arguments. -/
  | node (name : A) (arity : Nat)
  /-- An unbound class. -/
  | free (c : ClassId)

/-- The number of terms below. -/
def Sight.arity : Sight A → Nat
  | node _ n => n
  | free _ => 0

namespace Store

/-- What stands at the root of a term. -/
def sight (s : Store A) : Term A → Sight A
  | .app f as => .node f as.length
  | .var x =>
    match s.value x with
    | some c => .node c.name c.args.length
    | none => .free (s.classOf x)

/-- The terms below the root. -/
def children (s : Store A) : Term A → List (Term A)
  | .app _ as => as
  | .var x =>
    match s.value x with
    | some c => c.args
    | none => []

/-- What stands at the end of a path, if the path leads anywhere. -/
def look (s : Store A) : List Nat → Term A → Option (Sight A)
  | [], t => some (s.sight t)
  | i :: q, t => (s.children t)[i]?.bind (s.look q)

/-- The two terms look the same along all paths. -/
def LooksLike (s : Store A) (t u : Term A) : Prop := ∀ q, s.look q t = s.look q u

section looks

variable {s : Store A} {t u v : Term A} {x y : Var} {c : Compound A}

/-! ## One level at a time -/

theorem sight_bound (h : s.value x = some c) : s.sight (.var x) = .node c.name c.args.length := by
  rw [sight, h]

theorem sight_unbound (h : s.value x = none) : s.sight (.var x) = .free (s.classOf x) := by
  rw [sight, h]

theorem children_bound (h : s.value x = some c) : s.children (.var x) = c.args := by
  rw [children, h]

theorem children_unbound (h : s.value x = none) : s.children (.var x) = [] := by
  rw [children, h]

/-- The number of children can be seen at the root. -/
theorem length_children (t : Term A) : (s.children t).length = (s.sight t).arity := by
  cases t with
  | app f as => rfl
  | var x =>
    cases hx : s.value x with
    | none => rw [children_unbound hx, sight_unbound hx]; rfl
    | some c => rw [children_bound hx, sight_bound hx]; rfl

/-- A child is an argument of the value. -/
theorem exists_view_of_child {i : Nat} {t' : Term A} (h : (s.children t)[i]? = some t') :
    ∃ c, s.view t = some c ∧ t' ∈ c.args := by
  cases t with
  | app f as => exact ⟨⟨f, as⟩, rfl, List.mem_of_getElem? h⟩
  | var x =>
    cases hx : s.value x with
    | none =>
      rw [children_unbound hx] at h
      cases h
    | some c =>
      rw [children_bound hx] at h
      exact ⟨c, hx, List.mem_of_getElem? h⟩

theorem LooksLike.refl (t : Term A) : s.LooksLike t t := fun _ => rfl

theorem LooksLike.symm (h : s.LooksLike t u) : s.LooksLike u t := fun q => (h q).symm

theorem LooksLike.trans (h : s.LooksLike t u) (h' : s.LooksLike u v) : s.LooksLike t v :=
  fun q => (h q).trans (h' q)

theorem LooksLike.sight_eq (h : s.LooksLike t u) : s.sight t = s.sight u := Option.some.inj (h [])

/-- Terms that look the same have children that do, one by one. -/
theorem LooksLike.child (h : s.LooksLike t u) {i : Nat} {t' u' : Term A}
    (ht : (s.children t)[i]? = some t') (hu : (s.children u)[i]? = some u') :
    s.LooksLike t' u' := by
  intro q
  have hq := h (i :: q)
  rw [look, look, ht, hu] at hq
  exact hq

/-- Terms look the same if their roots and their children do. -/
theorem LooksLike.of_children (h : s.sight t = s.sight u)
    (hchildren : ∀ (i : Nat) (t' u' : Term A), (s.children t)[i]? = some t' →
      (s.children u)[i]? = some u' → s.LooksLike t' u') : s.LooksLike t u := by
  intro q
  cases q with
  | nil => exact congrArg some h
  | cons i q =>
    have hlen : (s.children t).length = (s.children u).length := by
      rw [length_children, length_children, h]
    exact bind_getElem?_congr hlen i fun t' u' ht hu => hchildren i t' u' ht hu q

/-- A bound variable looks like its value. -/
theorem looksLike_value (h : s.value x = some c) : s.LooksLike (.var x) c.toTerm := by
  refine .of_children (sight_bound h) fun i t' u' ht hu => ?_
  rw [children_bound h] at ht
  have heq : some t' = some u' := ht.symm.trans hu
  cases heq
  exact .refl t'

/-- Variables of one class look the same. -/
theorem looksLike_of_classOf_eq (h : s.classOf x = s.classOf y) :
    s.LooksLike (.var x) (.var y) := by
  -- one class, one value: the two look like it, or are the unbound class
  have hvalue : s.value x = s.value y := value_eq_of_classOf_eq h
  cases hx : s.value x with
  | some c => exact (looksLike_value hx).trans (looksLike_value (hvalue ▸ hx)).symm
  | none =>
    have hy : s.value y = none := hvalue ▸ hx
    refine .of_children ?_ fun i t' u' ht _ => ?_
    · rw [sight_unbound hx, sight_unbound hy, h]
    · rw [children_unbound hx] at ht
      cases ht

/-- Only unbound variables are seen as such. -/
theorem exists_var_of_sight {d : ClassId} (h : s.sight t = .free d) :
    ∃ z, t = .var z ∧ s.value z = none ∧ s.classOf z = d := by
  cases t with
  | app f as => cases h
  | var z =>
    cases hz : s.value z with
    | some c =>
      rw [sight_bound hz] at h
      cases h
    | none =>
      rw [sight_unbound hz] at h
      cases h
      exact ⟨z, rfl, hz, rfl⟩

theorem children_free {d : ClassId} (h : s.sight t = .free d) : s.children t = [] := by
  obtain ⟨z, rfl, hz, -⟩ := exists_var_of_sight h
  exact children_unbound hz

theorem LooksLike.signature_eq {d : Compound A} (h : s.LooksLike c.toTerm d.toTerm) :
    c.name = d.name ∧ c.args.length = d.args.length := Sight.node.inj h.sight_eq

end looks

/-! ## What looking depends on -/

section congr

variable {s s' : Store A} (hclass : ∀ x, s'.classOf x = s.classOf x)
  (hvalue : ∀ x, s'.value x = s.value x)

include hclass hvalue

theorem sight_congr (t : Term A) : s'.sight t = s.sight t := by
  cases t with
  | app f as => rfl
  | var x => rw [sight, sight, hvalue, hclass]

/-- Where all variables have the classes and the values they had, all terms look as they
    did. -/
theorem look_congr (q : List Nat) (t : Term A) : s'.look q t = s.look q t := by
  induction q generalizing t with
  | nil => exact congrArg some (sight_congr hclass hvalue t)
  | cons i q ih =>
    have hchildren : s'.children t = s.children t := by
      cases t with
      | app f as => rfl
      | var x => rw [children, children, hvalue]
    rw [look, look, hchildren, funext ih]

end congr

theorem look_setNext (m : Nat) (s : Store A) (q : List Nat) (t : Term A) :
    (s.setNext m).look q t = s.look q t := by
  apply look_congr
  · intro x
    rfl
  · exact value_setNext m s

end Store

/-! ## Unification -/

/-- Whatever value the class of `x` holds, `value` is one that looks like it. -/
def Store.HoldsLike (s : Store A) (value : Option (Compound A)) (x : Var) : Prop :=
  ∀ d, s.value x = some d → ∃ c, value = some c ∧ s.LooksLike d.toTerm c.toTerm

theorem Store.HoldsLike.of_unbound {s : Store A} {x : Var} (hx : s.value x = none)
    (value : Option (Compound A)) : s.HoldsLike value x := by
  intro d hd
  rw [hx] at hd
  cases hd

theorem Store.HoldsLike.of_looksLike {s : Store A} {x : Var} {c : Compound A}
    (h : s.LooksLike (.var x) c.toTerm) : s.HoldsLike (some c) x := fun _ hd =>
  ⟨c, rfl, (Store.looksLike_value hd).symm.trans h⟩

namespace Session

/-- What looked the same in `w` looks the same in `w'`. -/
def KeepsLooks (w w' : Session A) : Prop :=
  ∀ t u, w.store.LooksLike t u → w'.store.LooksLike t u

section gather

variable {w : Session A} {xs : List Var} {value : Option (Compound A)}

/-- A term that is not an unbound variable looks like some compound, before classes are
    gathered and afterwards. -/
theorem exists_compound_of_gather (hw : w.store.Consistent)
    (hxs : ∀ x ∈ xs, w.store.HoldsLike value x) {t : Term A} {f : A} {k : Nat}
    (ht : w.store.sight t = .node f k) :
    ∃ d : Compound A, w.store.LooksLike t d.toTerm ∧
      (w.gather (xs.map w.store.classOf) value).store.LooksLike t d.toTerm := by
  cases t with
  | app g as => exact ⟨⟨g, as⟩, .refl _, .refl _⟩
  | var z =>
    cases hz : w.store.value z with
    | none =>
      rw [Store.sight_unbound hz] at ht
      cases ht
    | some d =>
      have hvalue := value_gather hw (xs.map w.store.classOf) value z
      by_cases hmem : w.store.classOf z ∈ xs.map w.store.classOf
      · obtain ⟨x, hx, hxz⟩ := List.mem_map.mp hmem
        obtain ⟨c, rfl, hdc⟩ := hxs x hx d (by rw [Store.value_eq_of_classOf_eq hxz, hz])
        rw [if_pos hmem] at hvalue
        exact ⟨c, (Store.looksLike_value hz).trans hdc, Store.looksLike_value hvalue⟩
      · rw [if_neg hmem, hz] at hvalue
        exact ⟨d, Store.looksLike_value hz, Store.looksLike_value hvalue⟩

/-- What looks like an unbound variable is one of its class, and stays so. -/
theorem looksLike_gather_of_free (hw : w.store.Consistent) {cs : List ClassId} {t u : Term A}
    {d : ClassId} (ht : w.store.sight t = .free d) (h : w.store.LooksLike t u) :
    (w.gather cs value).store.LooksLike t u := by
  obtain ⟨z, rfl, -, hz⟩ := Store.exists_var_of_sight ht
  obtain ⟨z', rfl, -, hz'⟩ := Store.exists_var_of_sight (h.sight_eq.symm.trans ht)
  exact Store.looksLike_of_classOf_eq
    ((classOf_gather_eq_iff hw _ _ z z').mpr (.inr (hz.trans hz'.symm)))

/-- Classes may be gathered under a value that looks like any value they hold. -/
theorem gather_keepsLooks (hw : w.store.Consistent)
    (hxs : ∀ x ∈ xs, w.store.HoldsLike value x) :
    w.KeepsLooks (w.gather (xs.map w.store.classOf) value) := by
  let s' := (w.gather (xs.map w.store.classOf) value).store
  -- along each path it is enough to compare compounds
  have hcompounds : ∀ q, (∀ c d : Compound A, w.store.LooksLike c.toTerm d.toTerm →
      s'.look q c.toTerm = s'.look q d.toTerm) →
        ∀ t u, w.store.LooksLike t u → s'.look q t = s'.look q u := by
    intro q hq t u h
    cases ht : w.store.sight t with
    | free d => exact looksLike_gather_of_free hw ht h q
    | node f k =>
      obtain ⟨c, hc, hc'⟩ := exists_compound_of_gather hw hxs ht
      obtain ⟨d, hd, hd'⟩ := exists_compound_of_gather hw hxs (h.sight_eq ▸ ht)
      rw [hc' q, hd' q]
      exact hq c d ((hc.symm.trans h).trans hd)
  -- compounds with one look have arguments with one look, a level further down
  intro t u h q
  induction q generalizing t u with
  | nil => exact hcompounds [] (fun c d h => congrArg some h.sight_eq) t u h
  | cons i q ih =>
    refine hcompounds (i :: q) (fun c d h => ?_) t u h
    exact bind_getElem?_congr h.signature_eq.2 i fun _ _ hc hd => ih _ _ (h.child hc hd)

/-- Merging two classes under a value that looks like what they hold. -/
theorem merge_looks (hw : w.Consistent) {x y : Var} (hx : w.store.HoldsLike value x)
    (hy : w.store.HoldsLike value y) :
    (w.merge x y value).Consistent ∧ w.KeepsLooks (w.merge x y value) ∧
      (w.merge x y value).store.LooksLike (.var x) (.var y) := by
  unfold merge
  split
  · next h => exact ⟨hw, fun _ _ h => h, Store.looksLike_of_classOf_eq (Store.aliased_iff.mp h)⟩
  · have hboth : ∀ z ∈ [x, y], w.store.HoldsLike value z :=
      List.forall_mem_cons.mpr ⟨hx, List.forall_mem_singleton.mpr hy⟩
    refine ⟨hw.gather _ _, gather_keepsLooks hw.store hboth, ?_⟩
    refine Store.looksLike_of_classOf_eq ((classOf_gather_eq_iff hw.store _ _ x y).mpr (.inl ?_))
    exact ⟨List.mem_cons_self .., List.mem_cons_of_mem _ (List.mem_cons_self ..)⟩

end gather

theorem KeepsLooks.trans {w₁ w₂ w₃ : Session A} (h₁ : w₁.KeepsLooks w₂) (h₂ : w₂.KeepsLooks w₃) :
    w₁.KeepsLooks w₃ := fun t u h => h₂ t u (h₁ t u h)

end Session

section unify

variable {w : Session A} {o : Outcome A} {t u : Term A}

/-- If the attempt succeeds, looks are kept, and the two terms look the same. -/
def Outcome.MakesAlike (w : Session A) (t u : Term A) (o : Outcome A) : Prop :=
  o.Ends (fun w' => w'.Consistent ∧ w.KeepsLooks w' ∧ w'.store.LooksLike t u) (fun _ => True)

theorem Outcome.MakesAlike.symm (h : o.MakesAlike w t u) : o.MakesAlike w u t := by
  cases o with
  | success w' => exact ⟨h.1, h.2.1, h.2.2.symm⟩
  | failure e w' => trivial
  | cutOff => trivial

/-- Terms may be replaced by others that looked the same from the start. -/
theorem Outcome.MakesAlike.of_looksLike {t' u' : Term A} (h : o.MakesAlike w t u)
    (ht : w.store.LooksLike t' t) (hu : w.store.LooksLike u' u) : o.MakesAlike w t' u' := by
  cases o with
  | success w' =>
    exact ⟨h.1, h.2.1, ((h.2.1 _ _ ht).trans h.2.2).trans (h.2.1 _ _ hu).symm⟩
  | failure e w' => trivial
  | cutOff => trivial

theorem Outcome.MakesAlike.undoingTo (h : o.MakesAlike w t u) (m : Nat) :
    (o.undoingTo m).MakesAlike w t u := by
  cases o with
  | success w' => exact h
  | failure e w' => trivial
  | cutOff => trivial

theorem Session.checkingOccurs_makesAlike (n : Nat) (x : Var) (c : Compound A)
    {next : Session A → Outcome A} (hnext : (next w).MakesAlike w t u) :
    (w.checkingOccurs n x c next).MakesAlike w t u := by
  unfold checkingOccurs
  split
  · split
    · trivial
    · exact hnext
    · split
      · trivial
      · trivial
  · exact hnext

variable {f : Unifier A}

theorem Session.resolveBy_makesAlike
    (hf : ∀ t u w, Session.Consistent w → (f t u w).MakesAlike w t u) (n : Nat) (x : Var)
    (c : Compound A) (hw : w.Consistent) :
    (w.resolveBy f n x c).MakesAlike w (.var x) c.toTerm := by
  unfold resolveBy
  split
  · next d hd =>
    have hdc := hf d.toTerm c.toTerm w hw
    exact (hdc.undoingTo _).of_looksLike (Store.looksLike_value hd) (.refl _)
  · next hx =>
    -- an unbound class has no value that could look different
    have hnone : ∀ y ∈ [x], w.store.HoldsLike (some c) y :=
      List.forall_mem_singleton.mpr (.of_unbound hx _)
    refine checkingOccurs_makesAlike n x c ⟨hw.gather _ _, gather_keepsLooks hw.store hnone, ?_⟩
    refine Store.looksLike_value ?_
    rw [value_gather hw.store, if_pos (List.mem_singleton_self _)]

theorem Session.bindBy_makesAlike
    (hf : ∀ t u w, Session.Consistent w → (f t u w).MakesAlike w t u) (n : Nat) (x y : Var)
    (hw : w.Consistent) : (w.bindBy f n x y).MakesAlike w (.var x) (.var y) := by
  unfold bindBy
  split
  · next h => exact ⟨hw, fun _ _ h => h, Store.looksLike_of_classOf_eq (Store.aliased_iff.mp h)⟩
  · cases hx : w.store.value x with
    | none =>
      cases hy : w.store.value y with
      | none => exact merge_looks hw (.of_unbound hx _) (.of_unbound hy _)
      | some d =>
        exact checkingOccurs_makesAlike n x d
          (merge_looks hw (.of_unbound hx _) (.of_looksLike (Store.looksLike_value hy)))
    | some c =>
      cases hy : w.store.value y with
      | none =>
        exact checkingOccurs_makesAlike n y c
          (merge_looks hw (.of_looksLike (Store.looksLike_value hx)) (.of_unbound hy _))
      | some d =>
        simp only
        have hcd := (hf c.toTerm d.toTerm w hw).undoingTo w.mark
        revert hcd
        generalize (f c.toTerm d.toTerm w).undoingTo w.mark = o
        intro hcd
        cases o with
        | failure e v => trivial
        | cutOff => trivial
        | success v =>
          obtain ⟨hv, hkeeps, hlook⟩ := hcd
          -- both variables still look like the values they had
          have hxc : v.store.LooksLike (.var x) c.toTerm := hkeeps _ _ (Store.looksLike_value hx)
          have hyc : v.store.LooksLike (.var y) c.toTerm :=
            (hkeeps _ _ (Store.looksLike_value hy)).trans hlook.symm
          obtain ⟨hmerge, hkeeps', hxy⟩ := merge_looks hv (.of_looksLike hxc) (.of_looksLike hyc)
          exact ⟨hmerge, hkeeps.trans hkeeps', hxy⟩

theorem unifyEach_looks (hf : ∀ t u w, Session.Consistent w → (f t u w).MakesAlike w t u)
    (ps : List (Term A × Term A)) (hw : w.Consistent) :
    (unifyEach f ps w).Ends (fun w' => w'.Consistent ∧ w.KeepsLooks w' ∧
      ∀ p ∈ ps, w'.store.LooksLike p.1 p.2) (fun _ => True) := by
  induction ps generalizing w with
  | nil => exact ⟨hw, fun _ _ h => h, fun _ hp => nomatch hp⟩
  | cons p ps ih =>
    have hfirst := hf p.1 p.2 w hw
    rw [unifyEach]
    cases ho : f p.1 p.2 w with
    | failure e v => trivial
    | cutOff => trivial
    | success v =>
      rw [ho] at hfirst
      obtain ⟨hv, hkeeps, hlook⟩ := hfirst
      -- the rest keeps the look that the first pair has been given
      have hrest := ih hv
      show Outcome.Ends _ _ (unifyEach f ps v)
      cases hr : unifyEach f ps v with
      | failure e v' => trivial
      | cutOff => trivial
      | success v' =>
        rw [hr] at hrest
        obtain ⟨hv', hkeeps', hlooks⟩ := hrest
        refine ⟨hv', hkeeps.trans hkeeps', fun q hq => ?_⟩
        rcases List.mem_cons.mp hq with rfl | hq
        · exact hkeeps' _ _ hlook
        · exact hlooks q hq

variable [DecidableEq A]

/-- Unification makes the two terms look the same, and keeps what looks the same. -/
theorem unify_looks (n : Nat) (t u : Term A) (w : Session A) (hw : w.Consistent) :
    (unify n t u w).MakesAlike w t u := by
  induction n generalizing t u w with
  | zero => trivial
  | succ n ih =>
    cases t with
    | var x =>
      cases u with
      | var y => exact Session.bindBy_makesAlike ih n x y hw
      | app g bs => exact Session.resolveBy_makesAlike ih n x ⟨g, bs⟩ hw
    | app f as =>
      cases u with
      | var y => exact (Session.resolveBy_makesAlike ih n y ⟨f, as⟩ hw).symm
      | app g bs =>
        rw [unify]
        split
        · trivial
        · next hname =>
          split
          · trivial
          · next hlen =>
            have hname : f = g := Decidable.of_not_not hname
            have hlen : as.length = bs.length := Decidable.of_not_not hlen
            have heach := unifyEach_looks ih (as.zip bs) hw
            cases ho : unifyEach (unify n) (as.zip bs) w with
            | failure e v => trivial
            | cutOff => trivial
            | success v =>
              rw [ho] at heach
              refine ⟨heach.1, heach.2.1, .of_children ?_ fun i t' u' ht hu => ?_⟩
              · rw [Store.sight, Store.sight, hname, hlen]
              · exact heach.2.2 (t', u') (List.mem_of_getElem?
                  (List.getElem?_zip_eq_some.mpr ⟨ht, hu⟩))

end unify

end Horn
