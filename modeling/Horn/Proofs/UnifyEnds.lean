import Horn.Proofs.MostGeneral
import Horn.Proofs.Scope
import Mathlib.Data.Finset.Prod

/-! # Unification ends

    In an acyclic store and with the occurs check on, every attempt to unify two terms
    comes to an end: `Session.Ready.decides`.

    Nothing that the recursion is handed becomes smaller as it stands: it goes from
    variables into their values, and values grow by what it binds.  Two things do become
    smaller, and the first outweighs the second:

    * the unbound variables, and those pairs of them that are in different classes
      (`Store.loose`).  A success that says anything new binds one of them or joins two.
    * what the two terms become under a solution of the store.  A success that says
      nothing new leaves every solution one. -/

namespace Horn

universe u

variable {A : Type u}

/-! ## What a success can still change -/

namespace Store

/-- Two variables that are unbound, and one and the same or in different classes. -/
structure Loose (s : Store A) (x y : Var) : Prop where
  left : s.value x = none
  right : s.value y = none
  apart : x = y ∨ s.classOf x ≠ s.classOf y

open Classical in
/-- The pairs of loose variables below number `n`. -/
noncomputable def loose (n : Nat) (s : Store A) : Finset (Nat × Nat) :=
  (Finset.range n ×ˢ Finset.range n).filter fun p => s.Loose ⟨p.1⟩ ⟨p.2⟩

open Classical in
theorem mem_loose {n : Nat} {s : Store A} {x y : Var} :
    (x.id, y.id) ∈ s.loose n ↔ (x.id < n ∧ y.id < n) ∧ s.Loose x y := by
  rw [loose, Finset.mem_filter, Finset.mem_product, Finset.mem_range, Finset.mem_range]

/-- An unbound variable and another that no solution tells apart are in one class. -/
theorem Acyclic.classOf_eq_of_solves {s : Store A} (hs : s.Acyclic) {x y : Var}
    (hx : s.value x = none) (heq : ∀ θ, s.Solves θ → θ x = θ y) : s.classOf x = s.classOf y := by
  -- there is a solution that tells the unbound classes apart
  obtain ⟨θ, hθ, hread⟩ := hs.exists_solves fun c => .var c.name
  obtain ⟨z, hz, hxz⟩ := hθ.exists_aliased (fun z hz => subst_assign_unbound hread hz)
    ClassId.name_injective (t := .var y) hx (heq θ hθ)
  rw [hxz, Term.var.inj hz]

end Store

namespace Session.Solved

variable {w w' : Session A} {P : (Var → Term A) → Prop} {n : Nat}

/-- Variables of one class stay together. -/
theorem classOf_eq (h : w.Solved P w') {x y : Var} (hx : w'.store.value x = none)
    (hxy : w.store.classOf x = w.store.classOf y) :
    w'.store.classOf x = w'.store.classOf y :=
  h.ready.acyclic.classOf_eq_of_solves hx fun θ hθ => ((h.solves θ).mp hθ).1.joined x y hxy

/-- No pair becomes loose. -/
theorem loose_subset (h : w.Solved P w') (n : Nat) : w'.store.loose n ⊆ w.store.loose n := by
  rintro ⟨i, j⟩ hij
  obtain ⟨hlt, hloose⟩ := Store.mem_loose (x := ⟨i⟩) (y := ⟨j⟩) |>.mp hij
  refine Store.mem_loose (x := ⟨i⟩) (y := ⟨j⟩) |>.mpr ⟨hlt, ?_⟩
  exact {
    left := h.unbound _ hloose.left
    right := h.unbound _ hloose.right
    apart := hloose.apart.imp_right fun hne e => hne (h.classOf_eq hloose.left e) }

/-- If all pairs have stayed loose, nothing has been said that was not so before. -/
theorem solves_of_loose (h : w.Solved P w') (hs' : w'.store.Scoped n)
    (hloose : w'.store.loose n = w.store.loose n) {θ : Var → Term A} (hθ : w.store.Solves θ) :
    w'.store.Solves θ := by
  have hunbound : ∀ x, w.store.value x = none → w'.store.value x = none := by
    intro x hx
    rcases Nat.lt_or_ge x.id n with hlt | hge
    · have hmem : (x.id, x.id) ∈ w'.store.loose n := by
        rw [hloose]
        exact Store.mem_loose.mpr ⟨⟨hlt, hlt⟩, hx, hx, .inl rfl⟩
      exact (Store.mem_loose.mp hmem).2.left
    · exact hs'.value_unborn hge
  have hclass : ∀ x y, w'.store.value x = none → w'.store.classOf x = w'.store.classOf y →
      w.store.classOf x = w.store.classOf y := by
    intro x y hx hxy
    have hy : w'.store.value y = none := (Store.value_eq_of_classOf_eq hxy).symm.trans hx
    by_contra hne
    -- a variable not made yet is alone, and of two that have been made the pair was loose
    rcases Nat.lt_or_ge y.id n with hyn | hyn
    · rcases Nat.lt_or_ge x.id n with hxn | hxn
      · have hmem : (x.id, y.id) ∈ w'.store.loose n := by
          rw [hloose]
          exact Store.mem_loose.mpr ⟨⟨hxn, hyn⟩, h.unbound x hx, h.unbound y hy, .inr hne⟩
        rcases (Store.mem_loose.mp hmem).2.apart with rfl | hne'
        · exact hne rfl
        · exact hne' hxy
      · exact hne (congrArg _ (hs'.eq_of_classOf_eq hxn hxy.symm).symm)
    · exact hne (congrArg _ (hs'.eq_of_classOf_eq hyn hxy))
  -- a solution of the new store can be had that agrees with this one on the unbound variables
  let τ (x : Var) : Term A := if w'.store.value x = none then θ x else .var ⟨0⟩
  obtain ⟨θ', hθ', hunb⟩ := h.ready.acyclic.exists_solves_extending τ fun x y hxy => by
    show (if _ then _ else _) = (if _ then _ else _)
    rw [Store.value_eq_of_classOf_eq hxy]
    split
    · next hy => exact hθ.joined x y (hclass x y ((Store.value_eq_of_classOf_eq hxy).trans hy) hxy)
    · rfl
  have heq : θ' = θ := by
    funext x
    refine ((h.solves θ').mp hθ').1.congr (t := .var x) hθ fun y _ hy => ?_
    rw [hunb y (hunbound y hy)]
    exact if_pos (hunbound y hy)
  rw [← heq]
  exact hθ'

end Session.Solved

/-! ## Attempts that end -/

section ends

variable [DecidableEq A]

/-- Some number of levels is enough for the attempt. -/
def Session.Decides (w : Session A) (t u : Term A) : Prop := ∃ n, unify n t u w ≠ .cutOff

omit [DecidableEq A] in
theorem Outcome.undoingTo_ne_cutOff {o : Outcome A} (h : o ≠ .cutOff) (mark : Nat) :
    o.undoingTo mark ≠ .cutOff := by
  cases o with
  | success w => exact nofun
  | failure e w => exact nofun
  | cutOff => exact absurd rfl h

omit [DecidableEq A] in
theorem Outcome.andThen_ne_cutOff {o : Outcome A} {next : Session A → Outcome A}
    (h : o ≠ .cutOff) (hnext : ∀ w, next w ≠ .cutOff) : o.andThen next ≠ .cutOff := by
  cases o with
  | success w => exact hnext w
  | failure e w => exact nofun
  | cutOff => exact absurd rfl h

/-- Pairs are decided one after the other, in any sessions with a property that
    successes keep. -/
theorem exists_unifyEach_ne_cutOff {G : Session A → Prop} {ps : List (Term A × Term A)}
    (hps : ∀ p ∈ ps, ∀ w, G w → w.Decides p.1 p.2)
    (hkeep : ∀ p ∈ ps, ∀ n w w', G w → unify n p.1 p.2 w = .success w' → G w') {w : Session A}
    (hw : G w) : ∃ n, unifyEach (unify n) ps w ≠ .cutOff := by
  induction ps generalizing w with
  | nil => exact ⟨0, by simp [unifyEach]⟩
  | cons p ps ih =>
    obtain ⟨n, hn⟩ := hps p (List.mem_cons_self ..) w hw
    cases ho : unify n p.1 p.2 w with
    | cutOff => exact absurd ho hn
    | failure e v =>
      refine ⟨n, ?_⟩
      simp [unifyEach, ho, Outcome.andThen]
    | success v =>
      have hv : G v := hkeep p (List.mem_cons_self ..) n w v hw ho
      obtain ⟨m, hm⟩ := ih (fun q hq => hps q (List.mem_cons_of_mem _ hq))
        (fun q hq => hkeep q (List.mem_cons_of_mem _ hq)) hv
      exact ⟨max n m, by rwa [unifyEach_cons_of_success ho hm]⟩

section compounds

variable {w : Session A}

omit [DecidableEq A] in
/-- The occurs check ends, and so does resolving the value it refuses. -/
theorem Session.exists_checkingOccurs_ne_cutOff (hs : w.store.Acyclic) (x : Var)
    (c : Compound A) {next : Session A → Outcome A} (hnext : next w ≠ .cutOff) :
    ∃ n, w.checkingOccurs n x c next ≠ .cutOff := by
  obtain ⟨n, b, hn⟩ := (hs.ends c.toTerm).contains x
  obtain ⟨m, u, hm⟩ := (hs.ends c.toTerm).resolved
  -- the compound is resolved no deeper than the term
  have hd : ∃ d, w.store.resolvedCompound m c = some d := by
    cases m with
    | zero => cases hm
    | succ m =>
      obtain ⟨as, has, -⟩ := Option.map_eq_some_iff.mp hm
      exact ⟨⟨c.name, as⟩, by
        rw [Store.resolvedCompound, mapM_mono (fun _ _ => w.store.resolved_succ) has]; rfl⟩
  obtain ⟨d, hd⟩ := hd
  refine ⟨max n m, ?_⟩
  rw [checkingOccurs, w.store.contains_mono x (Nat.le_max_left n m) hn,
    w.store.resolvedCompound_mono (Nat.le_max_right n m) hd]
  split
  · cases b with
    | false => exact hnext
    | true => simp
  · exact hnext

/-- Compounds are decided if the pairs of their arguments are, in all sessions that
    deciding some of them leads to. -/
theorem Session.decides_toTerm {G : Session A → Prop} {c d : Compound A}
    (hargs : ∀ a ∈ c.args, ∀ b ∈ d.args, ∀ w, G w → w.Decides a b)
    (hkeep : ∀ a ∈ c.args, ∀ b ∈ d.args, ∀ n w w', G w → unify n a b w = .success w' → G w')
    (hw : G w) : w.Decides c.toTerm d.toTerm := by
  have hpairs : ∀ p ∈ c.args.zip d.args, p.1 ∈ c.args ∧ p.2 ∈ d.args := fun _ hp =>
    List.of_mem_zip hp
  obtain ⟨n, hn⟩ := exists_unifyEach_ne_cutOff
    (fun p hp => hargs p.1 (hpairs p hp).1 p.2 (hpairs p hp).2)
    (fun p hp => hkeep p.1 (hpairs p hp).1 p.2 (hpairs p hp).2) hw
  refine ⟨n + 1, ?_⟩
  rw [Compound.toTerm, Compound.toTerm, unify]
  split
  · simp
  · split
    · simp
    · exact hn

theorem Session.exists_resolveBy_ne_cutOff (hs : w.store.Acyclic) {x : Var} {c : Compound A}
    (hc : ∀ d, w.store.value x = some d → w.Decides d.toTerm c.toTerm) :
    ∃ n, w.resolveBy (unify n) n x c ≠ .cutOff := by
  unfold resolveBy
  split
  · next d hd =>
    obtain ⟨n, hn⟩ := hc d hd
    exact ⟨n, Outcome.undoingTo_ne_cutOff hn _⟩
  · exact exists_checkingOccurs_ne_cutOff hs x c nofun

theorem Session.exists_bindBy_ne_cutOff (hs : w.store.Acyclic) {x y : Var}
    (hcd : ∀ c d, w.store.value x = some c → w.store.value y = some d →
      w.Decides c.toTerm d.toTerm) : ∃ n, w.bindBy (unify n) n x y ≠ .cutOff := by
  unfold bindBy
  split
  · exact ⟨0, nofun⟩
  · split
    · exact ⟨0, nofun⟩
    · exact exists_checkingOccurs_ne_cutOff hs _ _ nofun
    · exact exists_checkingOccurs_ne_cutOff hs _ _ nofun
    · next c d hx hy =>
      obtain ⟨n, hn⟩ := hcd c d hx hy
      exact ⟨n, Outcome.andThen_ne_cutOff (Outcome.undoingTo_ne_cutOff hn _) fun _ => nofun⟩

/-- Two terms are decided if the compounds that they are, or have as values, are.  A
    variable's value stands on the left, whatever side the variable was on. -/
theorem Session.decides_of_view (hs : w.store.Acyclic) {t u : Term A}
    (h : ∀ c d, w.store.view t = some c → w.store.view u = some d →
      w.Decides c.toTerm d.toTerm ∧ w.Decides d.toTerm c.toTerm) : w.Decides t u := by
  cases t with
  | var x =>
    cases u with
    | var y =>
      obtain ⟨n, hn⟩ := exists_bindBy_ne_cutOff hs (x := x) (y := y) fun c d hc hd =>
        (h c d hc hd).1
      exact ⟨n + 1, hn⟩
    | app g bs =>
      obtain ⟨n, hn⟩ := exists_resolveBy_ne_cutOff hs (x := x) (c := ⟨g, bs⟩) fun d hd =>
        (h d _ hd rfl).1
      exact ⟨n + 1, hn⟩
  | app f as =>
    cases u with
    | var y =>
      obtain ⟨n, hn⟩ := exists_resolveBy_ne_cutOff hs (x := y) (c := ⟨f, as⟩) fun d hd =>
        (h _ d rfl hd).2
      exact ⟨n + 1, hn⟩
    | app g bs => exact (h ⟨f, as⟩ ⟨g, bs⟩ rfl rfl).1

end compounds

/-! ## The two measures -/

/-- A ready session over the variables below `n` in which fewer pairs are loose than `T`,
    or just these, and then `θ` solves it. -/
structure Session.Steady (n : Nat) (T : Finset (Nat × Nat)) (θ : Var → Term A) (w : Session A) :
    Prop where
  ready : w.Ready
  inScope : w.Scoped n
  loose : w.store.loose n ⊂ T ∨ w.store.loose n = T ∧ w.store.Solves θ

section measures

variable {n : Nat} {T : Finset (Nat × Nat)} {θ : Var → Term A} {w w' : Session A}

/-- A success either makes a pair no longer loose, or leaves the solution one. -/
theorem Session.Steady.unify (h : Steady n T θ w) {k : Nat} {t u : Term A}
    (ht : t.Within fun x => x.id < n) (hu : u.Within fun x => x.id < n)
    (hunify : Horn.unify k t u w = .success w') : Steady n T θ w' := by
  have hsolved := unify_solved k t u w w' h.ready hunify
  have hscope : w'.Scoped n := by
    have hends := unify_ends (stable_sound n) k t u w ht hu ⟨h.ready.consistent, h.inScope⟩
    rw [hunify] at hends
    exact hends.inScope
  refine ⟨hsolved.ready, hscope, ?_⟩
  rcases h.loose with hless | ⟨rfl, hθ⟩
  · exact .inl (Finset.ssubset_of_subset_of_ssubset (hsolved.loose_subset n) hless)
  · rcases (hsolved.loose_subset n).eq_or_ssubset with heq | hless
    · exact .inr ⟨heq, hsolved.solves_of_loose hscope.store heq hθ⟩
    · exact .inl hless

/-- Terms over the variables below `n` are decided in every steady session, if terms are
    wherever less is loose.  The induction is on the size of what the terms become: they
    lead to compounds of the same size, and these to their arguments. -/
theorem Session.Steady.decides
    (hless : ∀ v : Session A, v.Ready → v.Scoped n → v.store.loose n ⊂ T →
      ∀ t u : Term A, t.Within (fun x => x.id < n) → u.Within (fun x => x.id < n) → v.Decides t u)
    {t u : Term A} (ht : t.Within fun x => x.id < n) (hu : u.Within fun x => x.id < n)
    (hw : Steady n T θ w) : w.Decides t u := by
  induction hk : sizeOf (t.subst θ) + sizeOf (u.subst θ) using Nat.strong_induction_on
    generalizing t u w with
  | _ k ih =>
    subst hk
    rcases hw.loose with hT | ⟨-, hθ⟩
    · exact hless w hw.ready hw.inScope hT t u ht hu
    -- compounds that become as large as the terms hand the question on to their arguments
    have hcompound : ∀ c d : Compound A, c.Within (fun x => x.id < n) →
        d.Within (fun x => x.id < n) →
        sizeOf (c.toTerm.subst θ) + sizeOf (d.toTerm.subst θ) =
          sizeOf (t.subst θ) + sizeOf (u.subst θ) → w.Decides c.toTerm d.toTerm := by
      intro c d hc hd hsize
      refine decides_toTerm (G := Steady n T θ) (fun a ha b hb v hv => ?_)
        (fun a ha b hb k v v' hv hunify => hv.unify (hc.arg ha) (hd.arg hb) hunify) hw
      have ha' : sizeOf (a.subst θ) < sizeOf (c.toTerm.subst θ) := Store.sizeOf_subst_arg θ ha
      have hb' : sizeOf (b.subst θ) < sizeOf (d.toTerm.subst θ) := Store.sizeOf_subst_arg θ hb
      exact ih _ (by omega) (hc.arg ha) (hd.arg hb) hv rfl
    refine decides_of_view hw.ready.acyclic fun c d hc hd => ?_
    have hc' := hw.inScope.store.within_view ht hc
    have hd' := hw.inScope.store.within_view hu hd
    constructor
    · exact hcompound c d hc' hd' (by rw [hθ.subst_view hc, hθ.subst_view hd])
    · exact hcompound d c hd' hc' (by rw [hθ.subst_view hc, hθ.subst_view hd, Nat.add_comm])

/-- **Unification ends.**  In an acyclic store with the occurs check on, some number of
    levels is enough for any two terms. -/
theorem Session.Ready.decides (hw : w.Ready) (hscope : w.Scoped n) {t u : Term A}
    (ht : t.Within fun x => x.id < n) (hu : u.Within fun x => x.id < n) : w.Decides t u := by
  induction hT : w.store.loose n using Finset.strongInduction generalizing w t u with
  | _ T ih =>
    obtain ⟨θ, hθ⟩ := hw.acyclic.exists_solution
    refine Steady.decides (T := T) (θ := θ) (fun v hv hv' hless t u ht hu => ?_) ht hu
      ⟨hw, hscope, .inr ⟨hT, hθ⟩⟩
    exact ih _ hless hv hv' ht hu rfl

end measures

end ends

end Horn
