import Horn.Proofs.Scope

/-! # Stores inside stores

    A renaming `π` *embeds* a set `D` of variables of one store in another store if
    the renamed variables share classes just where the variables do, and have the
    renamed values.  The other store may hold much besides: more variables, more
    classes, what a search has left behind.

    What is done to embedded variables goes in lockstep on both sides: walks give
    the same answers (`Embeds.contains`, `Embeds.resolved`), and unification ends the
    same way and keeps the embedding (`unify_embeds`), with one and the same number
    of levels.  All that unification ever does is to gather classes, so it keeps
    whatever else corresponding gatherings keep (`unify_linked`). -/

namespace Horn

universe u

variable {A : Type u}

/-! ## Embeddings -/

/-- The variables in `D` have in `s'`, after renaming, the aliases and the values that
    they have in `s`; their values mention variables in `D` only. -/
structure Store.Embeds (D : Var → Prop) (π : Var → Var) (s s' : Store A) : Prop where
  classes : ∀ x y, D x → D y →
    (s'.classOf (π x) = s'.classOf (π y) ↔ s.classOf x = s.classOf y)
  value : ∀ x, D x → s'.value (π x) = (s.value x).map (Compound.rename π)
  values : ∀ x c, D x → s.value x = some c → c.Within D

section lists

variable {α β γ : Type u}

theorem anyM_map {f : α → Option Bool} {g : β → Option Bool} {k : α → β} {as : List α}
    (h : ∀ a ∈ as, g (k a) = f a) : (as.map k).anyM g = as.anyM f := by
  induction as with
  | nil => rfl
  | cons a as ih =>
    rw [List.map_cons, List.anyM_cons, List.anyM_cons, h a (List.mem_cons_self ..),
      ih fun a' ha' => h a' (List.mem_cons_of_mem _ ha')]

theorem mapM_map {f : α → Option β} {g : γ → Option β} {k : α → γ} {l : β → β} {as : List α}
    (h : ∀ a ∈ as, g (k a) = (f a).map l) :
    (as.map k).mapM g = (as.mapM f).map (List.map l) := by
  induction as with
  | nil => rfl
  | cons a as ih =>
    rw [List.map_cons, List.mapM_cons, List.mapM_cons, h a (List.mem_cons_self ..),
      ih fun a' ha' => h a' (List.mem_cons_of_mem _ ha')]
    cases f a with
    | none => rfl
    | some b => cases as.mapM f <;> rfl

end lists

namespace Store

variable {D : Var → Prop} {π : Var → Var} {s s' : Store A}

theorem Embeds.refl (s : Store A) (h : ∀ x c, D x → s.value x = some c → c.Within D) :
    s.Embeds D id s where
  classes _ _ _ _ := Iff.rfl
  value x _ := by
    cases hc : s.value x with
    | none => exact hc
    | some c => rw [Option.map_some, c.rename_id]; exact hc
  values := h

theorem Embeds.mono (h : s.Embeds D π s') {D' : Var → Prop} (hD : ∀ x, D' x → D x)
    (hvalues : ∀ x c, D' x → s.value x = some c → c.Within D') : s.Embeds D' π s' where
  classes x y hx hy := h.classes x y (hD x hx) (hD y hy)
  value x hx := h.value x (hD x hx)
  values := hvalues

/-- The numbers of the next variables do not matter. -/
theorem Embeds.setNext (h : s.Embeds D π s') (m m' : Nat) :
    (s.setNext m).Embeds D π (s'.setNext m') where
  classes := h.classes
  value x hx := by
    rw [value_setNext, value_setNext]
    exact h.value x hx
  values x c hx hc := h.values x c hx (by rw [← s.value_setNext m]; exact hc)

theorem Embeds.aliased (h : s.Embeds D π s') {x y : Var} (hx : D x) (hy : D y) :
    s'.aliased (π x) (π y) = s.aliased x y := by
  rw [Store.aliased, Store.aliased]
  exact decide_eq_decide.mpr (h.classes x y hx hy)

/-! ## Walks in lockstep -/

theorem Embeds.contains (h : s.Embeds D π s') {x : Var} (hx : D x) (n : Nat) {t : Term A}
    (ht : t.Within D) : s'.contains (π x) n (t.rename π) = s.contains x n t := by
  induction n generalizing t with
  | zero => rfl
  | succ n ih =>
    cases t with
    | app f as =>
      rw [Term.rename_app, Store.contains, Store.contains]
      exact anyM_map fun a ha => ih (ht.arg ha)
    | var y =>
      have hy : D y := Term.within_var ht
      rw [Term.rename_var, Store.contains, Store.contains, h.aliased hy hx, h.value y hy]
      cases hc : s.value y with
      | none => rfl
      | some c =>
        -- the renamed value is searched as the value is
        have hargs : (c.args.map (Term.rename π)).anyM (s'.contains (π x) n) =
            c.args.anyM (s.contains x n) :=
          anyM_map fun a ha => ih ((h.values y c hy hc).arg ha)
        simp only [Option.map_some, Compound.rename, hargs]

theorem Embeds.resolved (h : s.Embeds D π s') (n : Nat) {t : Term A} (ht : t.Within D) :
    s'.resolved n (t.rename π) = (s.resolved n t).map (Term.rename π) := by
  induction n generalizing t with
  | zero => rfl
  | succ n ih =>
    -- renaming and resolving the arguments come to the same in either order
    have hargs : ∀ f : A, ∀ as : List (Term A), (∀ a ∈ as, a.Within D) →
        ((as.map (Term.rename π)).mapM (s'.resolved n)).map (Term.app f) =
          ((as.mapM (s.resolved n)).map (Term.app f)).map (Term.rename π) := by
      intro f as has
      rw [mapM_map fun a ha => ih (has a ha), Option.map_map, Option.map_map]
      exact Option.map_congr fun us _ => (Term.rename_app π f us).symm
    cases t with
    | app f as =>
      rw [Term.rename_app, Store.resolved, Store.resolved]
      exact hargs f as fun a ha => ht.arg ha
    | var y =>
      have hy : D y := Term.within_var ht
      rw [Term.rename_var, Store.resolved, Store.resolved, h.value y hy]
      cases hc : s.value y with
      | none => rfl
      | some c => exact hargs c.name c.args fun a ha => (h.values y c hy hc).arg ha

theorem Embeds.resolvedCompound (h : s.Embeds D π s') (n : Nat) {c : Compound A}
    (hc : c.Within D) :
    s'.resolvedCompound n (c.rename π) = (s.resolvedCompound n c).map (Compound.rename π) := by
  have hargs : (c.args.map (Term.rename π)).mapM (s'.resolved n) =
      (c.args.mapM (s.resolved n)).map (List.map (Term.rename π)) :=
    mapM_map fun a ha => h.resolved n (hc.arg ha)
  rw [Store.resolvedCompound, Store.resolvedCompound, Compound.rename, hargs, Option.map_map,
    Option.map_map]
  rfl

end Store

/-! ## Sessions -/

/-- The store of `w` embeds in that of `w'`; both sessions are consistent and check
    alike. -/
structure Session.Embeds (D : Var → Prop) (π : Var → Var) (w w' : Session A) : Prop where
  store : w.store.Embeds D π w'.store
  left : w.Consistent
  right : w'.Consistent
  check : w'.trail.occursCheck = w.trail.occursCheck

/-- Two attempts end the same way; after a success the sessions are related by `R`. -/
inductive Outcome.Alike (R : Session A → Session A → Prop) : Outcome A → Outcome A → Prop where
  | success {w w' : Session A} : R w w' → Alike R (.success w) (.success w')
  | failure {e e' : Clash A} {w w' : Session A} : Alike R (.failure e w) (.failure e' w')
  | cutOff : Alike R .cutOff .cutOff

section lockstep

variable {D : Var → Prop} {π : Var → Var} {w w' : Session A}

theorem Outcome.Alike.andThen {R : Session A → Session A → Prop} {o o' : Outcome A}
    {next next' : Session A → Outcome A} (ho : Alike R o o')
    (hnext : ∀ w w', R w w' → Alike R (next w) (next' w')) :
    Alike R (o.andThen next) (o'.andThen next') := by
  cases ho with
  | success h => exact hnext _ _ h
  | failure => exact .failure
  | cutOff => exact .cutOff

theorem Outcome.Alike.undoingTo {R : Session A → Session A → Prop} {o o' : Outcome A}
    (ho : Alike R o o') (m m' : Nat) : Alike R (o.undoingTo m) (o'.undoingTo m') := by
  cases ho with
  | success h => exact .success h
  | failure => exact .failure
  | cutOff => exact .cutOff

theorem Session.Embeds.gather (h : w.Embeds D π w') (xs : List Var) (hxs : ∀ x ∈ xs, D x)
    {value : Option (Compound A)} (hvalue : ∀ c, value = some c → c.Within D) :
    (w.gather (xs.map w.store.classOf) value).Embeds D π
      (w'.gather (xs.map fun x => w'.store.classOf (π x)) (value.map (Compound.rename π))) := by
  -- a renamed variable is gathered just if the variable is
  have hmem : ∀ y, D y → (w'.store.classOf (π y) ∈ xs.map (fun x => w'.store.classOf (π x)) ↔
      w.store.classOf y ∈ xs.map w.store.classOf) := by
    intro y hy
    simp only [List.mem_map]
    constructor
    · rintro ⟨x, hx, hxy⟩
      exact ⟨x, hx, (h.store.classes x y (hxs x hx) hy).mp hxy⟩
    · rintro ⟨x, hx, hxy⟩
      exact ⟨x, hx, (h.store.classes x y (hxs x hx) hy).mpr hxy⟩
  refine ⟨⟨fun x y hx hy => ?_, fun x hx => ?_, fun x c hx hc => ?_⟩, h.left.gather _ _,
    h.right.gather _ _, ?_⟩
  · rw [classOf_gather_eq_iff h.left.store, classOf_gather_eq_iff h.right.store, hmem x hx,
      hmem y hy, h.store.classes x y hx hy]
  · rw [value_gather h.left.store, value_gather h.right.store, h.store.value x hx]
    simp only [hmem x hx]
    split
    · rfl
    · rfl
  · rw [value_gather h.left.store] at hc
    split at hc
    · exact hvalue c hc
    · exact h.store.values x c hx hc
  · rw [occursCheck_gather, occursCheck_gather]
    exact h.check

/-- A relation between sessions of which the first embeds in the second, kept whenever
    the classes of corresponding variables are gathered on both sides. -/
structure Linked (D : Var → Prop) (π : Var → Var) (R : Session A → Session A → Prop) : Prop where
  embeds : ∀ {w w'}, R w w' → w.Embeds D π w'
  gather : ∀ {w w'} (xs : List Var) (value : Option (Compound A)), R w w' → (∀ x ∈ xs, D x) →
    (∀ c, value = some c → c.Within D) →
    R (w.gather (xs.map w.store.classOf) value)
      (w'.gather (xs.map fun x => w'.store.classOf (π x)) (value.map (Compound.rename π)))

theorem Session.Embeds.linked (D : Var → Prop) (π : Var → Var) :
    Linked (A := A) D π (Session.Embeds D π) where
  embeds h := h
  gather xs _ h hxs hvalue := h.gather xs hxs hvalue

variable {R : Session A → Session A → Prop}

theorem Linked.checkingOccurs (hR : Linked D π R) (h : R w w') (n : Nat) {x : Var} (hx : D x)
    {c : Compound A} (hc : c.Within D) {next next' : Session A → Outcome A}
    (hnext : Outcome.Alike R (next w) (next' w')) :
    Outcome.Alike R (w.checkingOccurs n x c next)
      (w'.checkingOccurs n (π x) (c.rename π) next') := by
  have hemb := hR.embeds h
  unfold Session.checkingOccurs
  rw [hemb.check, Compound.toTerm_rename, hemb.store.contains hx n hc,
    hemb.store.resolvedCompound n hc]
  split
  · cases w.store.contains x n c.toTerm with
    | none => exact .cutOff
    | some b =>
      cases b with
      | false => exact hnext
      | true =>
        cases w.store.resolvedCompound n c with
        | none => exact .cutOff
        | some d => exact .failure
  · exact hnext

theorem Linked.merge (hR : Linked D π R) (h : R w w') {x y : Var} (hx : D x) (hy : D y)
    {value : Option (Compound A)} (hvalue : ∀ c, value = some c → c.Within D) :
    R (w.merge x y value) (w'.merge (π x) (π y) (value.map (Compound.rename π))) := by
  unfold Session.merge
  rw [(hR.embeds h).store.aliased hx hy]
  split
  · exact h
  · refine hR.gather [x, y] value h (fun z hz => ?_) hvalue
    rcases List.mem_pair.mp hz with rfl | rfl
    · exact hx
    · exact hy

variable {f : Unifier A}

/-- The unifier goes in lockstep on embedded terms. -/
def Unifier.Lockstep (D : Var → Prop) (π : Var → Var) (R : Session A → Session A → Prop)
    (f : Unifier A) : Prop :=
  ∀ t u w w', t.Within D → u.Within D → R w w' →
    Outcome.Alike R (f t u w) (f (t.rename π) (u.rename π) w')

theorem Linked.resolveBy (hR : Linked D π R) (hf : f.Lockstep D π R) (h : R w w') (n : Nat)
    {x : Var} (hx : D x) {c : Compound A} (hc : c.Within D) :
    Outcome.Alike R (w.resolveBy f n x c) (w'.resolveBy f n (π x) (c.rename π)) := by
  have hstore := (hR.embeds h).store
  unfold Session.resolveBy
  rw [hstore.value x hx]
  cases hd : w.store.value x with
  | none =>
    refine hR.checkingOccurs h n hx hc (.success (hR.gather [x] (some c) h (fun y hy => ?_) ?_))
    · rw [List.mem_singleton.mp hy]
      exact hx
    · intro d hd
      cases hd
      exact hc
  | some d =>
    have hfd := hf d.toTerm c.toTerm w w' (hstore.values x d hx hd) hc h
    simp only [Option.map_some, Compound.toTerm_rename]
    exact hfd.undoingTo _ _

theorem Linked.bindBy (hR : Linked D π R) (hf : f.Lockstep D π R) (h : R w w') (n : Nat)
    {x y : Var} (hx : D x) (hy : D y) :
    Outcome.Alike R (w.bindBy f n x y) (w'.bindBy f n (π x) (π y)) := by
  have hstore := (hR.embeds h).store
  -- values of embedded variables are embedded
  have hsome : ∀ {z c}, D z → w.store.value z = some c → ∀ d, some c = some d → d.Within D := by
    intro z c hz hc d hd
    cases hd
    exact hstore.values z c hz hc
  unfold Session.bindBy
  rw [hstore.aliased hx hy, hstore.value x hx, hstore.value y hy]
  split
  · exact .success h
  · cases hc : w.store.value x with
    | none =>
      cases hd : w.store.value y with
      | none => exact .success (hR.merge h hx hy (fun _ (he : none = some _) => nomatch he))
      | some d =>
        exact hR.checkingOccurs h n hx (hsome hy hd d rfl)
          (.success (hR.merge h hx hy (hsome hy hd)))
    | some c =>
      cases hd : w.store.value y with
      | none =>
        exact hR.checkingOccurs h n hy (hsome hx hc c rfl)
          (.success (hR.merge h hx hy (hsome hx hc)))
      | some d =>
        -- both are bound: the values are unified on both sides, and then the classes merged
        have hcd := hf c.toTerm d.toTerm w w' (hsome hx hc c rfl) (hsome hy hd d rfl) h
        simp only [Option.map_some, Compound.toTerm_rename]
        exact (hcd.undoingTo _ _).andThen fun v v' hv => .success (hR.merge hv hx hy (hsome hx hc))

theorem unifyEach_lockstep (hf : f.Lockstep D π R) {ps : List (Term A × Term A)}
    (hps : ∀ p ∈ ps, p.1.Within D ∧ p.2.Within D) (h : R w w') :
    Outcome.Alike R (unifyEach f ps w)
      (unifyEach f (ps.map (Prod.map (Term.rename π) (Term.rename π))) w') := by
  induction ps generalizing w w' with
  | nil => exact .success h
  | cons p ps ih =>
    obtain ⟨⟨h₁, h₂⟩, hrest⟩ := List.forall_mem_cons.mp hps
    exact (hf p.1 p.2 w w' h₁ h₂ h).andThen fun v v' hv => ih hrest hv

variable [DecidableEq A]

/-- Unification goes in lockstep on embedded terms, and keeps what corresponding
    gatherings keep. -/
theorem unify_linked (hR : Linked D π R) (n : Nat) : (unify n : Unifier A).Lockstep D π R := by
  induction n with
  | zero =>
    intro t u w w' _ _ _
    exact .cutOff
  | succ n ih =>
    intro t u w w' ht hu h
    cases t with
    | var x =>
      cases u with
      | var y => exact hR.bindBy ih h n (Term.within_var ht) (Term.within_var hu)
      | app g bs =>
        rw [Term.rename_app]
        exact hR.resolveBy ih h n (c := ⟨g, bs⟩) (Term.within_var ht) hu
    | app f as =>
      cases u with
      | var y =>
        rw [Term.rename_app]
        exact hR.resolveBy ih h n (c := ⟨f, as⟩) (Term.within_var hu) ht
      | app g bs =>
        rw [Term.rename_app, Term.rename_app, unify, unify, List.length_map, List.length_map]
        split
        · exact .failure
        · split
          · exact .failure
          · have hps : ∀ p ∈ as.zip bs, p.1.Within D ∧ p.2.Within D := fun p hp =>
              ⟨ht.arg (List.of_mem_zip hp).1, hu.arg (List.of_mem_zip hp).2⟩
            rw [List.zip_map]
            exact unifyEach_lockstep ih hps h

/-- Unification goes in lockstep on embedded terms, and keeps the embedding. -/
theorem unify_embeds (n : Nat) : (unify n : Unifier A).Lockstep D π (Session.Embeds D π) :=
  unify_linked (Session.Embeds.linked D π) n

end lockstep

end Horn
