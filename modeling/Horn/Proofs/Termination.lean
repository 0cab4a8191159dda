import Horn.Proofs.OccursCheck
import Horn.Proofs.UnifyEnds
import Horn.Proofs.Variants

/-! # Attempts come out

    In an acyclic store and with the occurs check on, unification comes to an end, whatever
    terms it is given and however classes are shared and values nested.

    That the attempt ends which is made over the variables below some number has been shown
    (`Session.Ready.decides`), by what becomes smaller on the way.  Here no number is given:

    * a store has been written to at finitely many places, so there is a number
      (`Session.exists_scoped`);
    * an attempt that ends says more than how it ends.  What it has called has ended too,
      so no chain of calls goes on for ever (`Attempt.acc_of_ne_cutOff`).

    Main statement: `unification_terminates`. -/

namespace Horn

universe u

variable {A : Type u}

/-! ## Finitely many variables -/

/-- What `base` satisfies from the start, and every entry at some level, all the table
    satisfies at one level. -/
theorem Table.exists_level {α : Type u} {base : Nat → α} {P : Nat → Nat → α → Prop}
    (mono : ∀ n i a, P n i a → P (n + 1) i a) (hbase : ∀ n i, P n i (base i))
    (t : Table α base) (h : ∀ i, ∃ n, P n i (t.get i)) : ∃ n, ∀ i, P n i (t.get i) := by
  have hentries : ∀ i ∈ List.range t.entries.size, ∃ n, P n i (t.get i) := fun i _ => h i
  obtain ⟨n, hn⟩ := Horn.exists_level (P := fun n i => P n i (t.get i)) (fun n i => mono n i _)
    hentries
  refine ⟨n, fun i => ?_⟩
  rcases Nat.lt_or_ge i t.entries.size with hi | hi
  · exact hn i (List.mem_range.mpr hi)
  · have hget : t.get i = base i := by simp [get, Nat.not_lt.mpr hi]
    rw [hget]
    exact hbase n i

theorem Term.exists_within (t : Term A) : ∃ n, t.Within fun x => x.id < n := by
  obtain ⟨n, hn⟩ := (t.finite_mentions.image Var.id).bddAbove
  exact ⟨n + 1, fun x hx => Nat.lt_succ_of_le (hn ⟨x, hx, rfl⟩)⟩

theorem ClassId.exists_below (c : ClassId) : ∃ n, c.Below n := by
  cases c with
  | own y =>
    refine ⟨y.id + 1, fun z hz => ?_⟩
    cases hz
    exact Nat.lt_succ_self _
  | joint k => exact ⟨0, below_joint 0 k⟩

theorem ClassId.Below.mono {n m : Nat} (hnm : n ≤ m) {c : ClassId} (h : c.Below n) :
    c.Below m := fun y hy => Nat.lt_of_lt_of_le (h y hy) hnm

/-- Every store is scoped to the variables below some number. -/
theorem Store.exists_scoped (s : Store A) : ∃ n, s.Scoped n := by
  obtain ⟨n, hn⟩ := s.links.exists_level
    (P := fun n i c => c = .own ⟨i⟩ ∨ i < n ∧ c.Below n)
    (fun n i c => Or.imp_right fun h => ⟨Nat.lt_succ_of_lt h.1, h.2.mono n.le_succ⟩)
    (fun _ _ => .inl rfl) fun i => by
      obtain ⟨n, hn⟩ := (s.links.get i).exists_below
      exact ⟨max (i + 1) n, .inr ⟨by omega, hn.mono (Nat.le_max_right ..)⟩⟩
  obtain ⟨m, hm⟩ := s.joints.exists_level
    (P := fun n _ j => ∀ c, j.value = some c → c.Within fun x => x.id < n)
    (fun n _ _ h c hc => (h c hc).mono fun _ hx => Nat.lt_succ_of_lt hx)
    (fun _ _ _ hc => nomatch hc) fun i => by
      cases hv : (s.joints.get i).value with
      | none => exact ⟨0, nofun⟩
      | some c =>
        obtain ⟨n, hn⟩ := c.toTerm.exists_within
        exact ⟨n, fun d hd => Option.some.inj hd ▸ hn⟩
  refine ⟨max n m, fun y hy => ?_, fun x y hxy => ?_, fun c v hv => ?_⟩
  · rcases hn y.id with hown | ⟨hlt, -⟩
    · exact hown
    · omega
  · rcases hn x.id with hown | ⟨-, hbelow⟩
    · exact .inl (ClassId.own.inj (hown.symm.trans hxy))
    · exact .inr (Nat.lt_of_lt_of_le (hbelow y hxy) (Nat.le_max_left ..))
  · cases c with
    | own x => cases hv
    | joint k => exact (hm k v hv).mono fun x hx => Nat.lt_of_lt_of_le hx (Nat.le_max_right ..)

theorem Session.exists_scoped (w : Session A) : ∃ n, w.Scoped n := by
  obtain ⟨n, hn⟩ := w.store.exists_scoped
  have hmoves : ∀ p ∈ w.trail.moves.toList, ∃ n, p.1.id < n ∧ p.2.Below n := by
    intro p _
    obtain ⟨n, hn⟩ := p.2.exists_below
    exact ⟨max (p.1.id + 1) n, by omega, hn.mono (Nat.le_max_right ..)⟩
  obtain ⟨m, hm⟩ := exists_level
    (fun n (p : Var × ClassId) h => ⟨Nat.lt_succ_of_lt h.1, h.2.mono n.le_succ⟩) hmoves
  refine ⟨max n m, hn.mono (Nat.le_max_left ..), fun p hp => ?_⟩
  obtain ⟨hlt, hbelow⟩ := hm p (Array.mem_toList_iff.mpr hp)
  exact ⟨Nat.lt_of_lt_of_le hlt (Nat.le_max_right ..), hbelow.mono (Nat.le_max_right ..)⟩

/-! ## Coming out -/

/-- From some number of levels on the attempt ends, and always like this. -/
def ComesOut (attempt : Nat → Outcome A) (o : Outcome A) : Prop :=
  o ≠ .cutOff ∧ ∃ n, ∀ m, n ≤ m → attempt m = o

theorem exists_comesOut {attempt : Nat → Outcome A} (h : ∃ n, attempt n ≠ .cutOff)
    (hmono : ∀ n m, n ≤ m → (attempt n).Settles (attempt m)) : ∃ o, ComesOut attempt o := by
  obtain ⟨n, hn⟩ := h
  exact ⟨attempt n, hn, n, fun m hm => hmono n m hm hn⟩

theorem ComesOut.succ {attempt : Nat → Outcome A} {o : Outcome A} (h : ComesOut attempt o) :
    ComesOut (fun n => attempt (n + 1)) o := by
  obtain ⟨ho, n, hn⟩ := h
  exact ⟨ho, n, fun m hm => hn (m + 1) (Nat.le_succ_of_le hm)⟩

section unify

variable [DecidableEq A]

/-- With levels that are enough a unification ends as it comes out. -/
theorem unify_eq_of_comesOut {n : Nat} {t u : Term A} {w : Session A} {o o' : Outcome A}
    (h : ComesOut (fun n => unify n t u w) o) (hn : unify n t u w = o') (ho' : o' ≠ .cutOff) :
    o = o' := by
  obtain ⟨ho, m, hm⟩ := h
  exact unify_unique (hm m le_rfl) hn ho ho'

namespace Session

variable {w : Session A}

/-- Any two terms are decided in a ready session. -/
theorem Ready.decides_all (hw : w.Ready) (t u : Term A) : w.Decides t u := by
  obtain ⟨n, hn⟩ := w.exists_scoped
  obtain ⟨k, hk⟩ := t.exists_within
  obtain ⟨m, hm⟩ := u.exists_within
  have hmax : n ≤ max n (max k m) ∧ k ≤ max n (max k m) ∧ m ≤ max n (max k m) := by omega
  exact hw.decides (hn.mono hmax.1) (hk.mono fun _ hx => Nat.lt_of_lt_of_le hx hmax.2.1)
    (hm.mono fun _ hx => Nat.lt_of_lt_of_le hx hmax.2.2)

theorem Ready.unify_comesOut (hw : w.Ready) (t u : Term A) :
    ∃ o, ComesOut (fun n => unify n t u w) o :=
  exists_comesOut (hw.decides_all t u) fun _ _ hnm => unify_mono hnm t u w

theorem Ready.unifyEach_comesOut (hw : w.Ready) (ps : List (Term A × Term A)) :
    ∃ o, ComesOut (fun n => unifyEach (unify n) ps w) o := by
  refine exists_comesOut ?_ fun _ _ hnm => unifyEach_settles (unify_mono hnm) ps w
  exact exists_unifyEach_ne_cutOff (G := Ready) (fun p _ v hv => hv.decides_all p.1 p.2)
    (fun p _ n v v' hv h => (unify_solved n p.1 p.2 v v' hv h).ready) hw

end Session

/-! ## Calls of attempts by attempts -/

/-- Two terms that are to be unified, and the session in which they are. -/
structure Attempt (A : Type u) where
  left : Term A
  right : Term A
  session : Session A

/-- The first attempt is called by the second. -/
inductive Attempt.CalledBy : Attempt A → Attempt A → Prop where
  /-- Compounds call for their arguments, each pair once those before it have been unified. -/
  | args {f : A} {as bs : List (Term A)} {before after : List (Term A × Term A)}
      {p : Term A × Term A} {n : Nat} {w v : Session A} (hzip : as.zip bs = before ++ p :: after)
      (hlen : as.length = bs.length) (hbefore : unifyEach (unify n) before w = .success v) :
      CalledBy ⟨p.1, p.2, v⟩ ⟨.app f as, .app f bs, w⟩
  /-- A bound variable calls for its value, which stands on the left. -/
  | left {x : Var} {d : Compound A} {f : A} {as : List (Term A)} {w : Session A}
      (hx : w.store.value x = some d) :
      CalledBy ⟨d.toTerm, .app f as, w⟩ ⟨.var x, .app f as, w⟩
  | right {x : Var} {d : Compound A} {f : A} {as : List (Term A)} {w : Session A}
      (hx : w.store.value x = some d) :
      CalledBy ⟨d.toTerm, .app f as, w⟩ ⟨.app f as, .var x, w⟩
  /-- Two bound variables call for their values, unless they are in one class. -/
  | values {x y : Var} {c d : Compound A} {w : Session A} (hxy : w.store.aliased x y = false)
      (hx : w.store.value x = some c) (hy : w.store.value y = some d) :
      CalledBy ⟨c.toTerm, d.toTerm, w⟩ ⟨.var x, .var y, w⟩

omit [DecidableEq A] in
theorem unifyEach_append (f : Unifier A) (ps qs : List (Term A × Term A)) (w : Session A) :
    unifyEach f (ps ++ qs) w = (unifyEach f ps w).andThen (unifyEach f qs) := by
  induction ps generalizing w with
  | nil => rfl
  | cons p ps ih =>
    rw [List.cons_append, unifyEach, unifyEach]
    cases f p.1 p.2 w with
    | success v => exact ih v
    | failure e v => rfl
    | cutOff => rfl

omit [DecidableEq A] in
theorem Outcome.ne_cutOff_of_undoingTo {o : Outcome A} {mark : Nat}
    (h : o.undoingTo mark ≠ .cutOff) : o ≠ .cutOff := by
  rintro rfl
  exact h rfl

omit [DecidableEq A] in
theorem Outcome.ne_cutOff_of_andThen {o : Outcome A} {next : Session A → Outcome A}
    (h : o.andThen next ≠ .cutOff) : o ≠ .cutOff := by
  rintro rfl
  exact h rfl

/-- If pairs are unified to the end, then so is each of them, when it is its turn. -/
theorem unify_ne_cutOff_of_each {before after : List (Term A × Term A)} {p : Term A × Term A}
    {n m : Nat} {w v : Session A} (h : unifyEach (unify n) (before ++ p :: after) w ≠ .cutOff)
    (hbefore : unifyEach (unify m) before w = .success v) : unify n p.1 p.2 v ≠ .cutOff := by
  rw [unifyEach_append] at h
  have hfirst : unifyEach (unify n) before w ≠ .cutOff := Outcome.ne_cutOff_of_andThen h
  -- the pairs before have been unified alike with either number of levels
  have hsame : unifyEach (unify n) before w = .success v :=
    (unifyEach_eq_of_ends hfirst (by rw [hbefore]; exact nofun)).trans hbefore
  rw [hsame] at h
  exact Outcome.ne_cutOff_of_andThen h

/-- An attempt that ends starts no endless chain of calls: what it calls ends with one level
    less. -/
theorem Attempt.acc_of_ne_cutOff {n : Nat} {t u : Term A} {w : Session A}
    (h : unify n t u w ≠ .cutOff) : Acc CalledBy ⟨t, u, w⟩ := by
  induction n generalizing t u w with
  | zero => exact absurd rfl h
  | succ n ih =>
    refine Acc.intro _ fun part hpart => ?_
    cases hpart with
    | args hzip hlen hbefore =>
      rw [unify, if_neg (not_not.mpr rfl), if_neg (not_not.mpr hlen), hzip] at h
      exact ih (unify_ne_cutOff_of_each h hbefore)
    | left hx =>
      rw [unify, Session.resolveBy, hx] at h
      exact ih (Outcome.ne_cutOff_of_undoingTo h)
    | right hx =>
      rw [unify, Session.resolveBy, hx] at h
      exact ih (Outcome.ne_cutOff_of_undoingTo h)
    | values hxy hx hy =>
      rw [unify, Session.bindBy, hxy, if_neg Bool.false_ne_true, hx, hy] at h
      exact ih (Outcome.ne_cutOff_of_undoingTo (Outcome.ne_cutOff_of_andThen h))

/-- **Unification terminates.**  In an acyclic store with the occurs check on, unifying two
    terms, giving a variable a value and binding two variables come out, however many classes
    are shared and values nested; and no attempt starts an endless chain of calls. -/
theorem unification_terminates {w : Session A} (hw : w.Consistent) (hs : w.store.Acyclic)
    (hcheck : w.trail.occursCheck = true) :
    (∀ t u, ∃ o, ComesOut (fun n => unify n t u w) o) ∧
    (∀ x c, ∃ o, ComesOut (fun n => w.resolve n x c) o) ∧
    (∀ x y, ∃ o, ComesOut (fun n => w.bind n x y) o) ∧
    ∀ t u, Acc Attempt.CalledBy ⟨t, u, w⟩ := by
  have hready : w.Ready := ⟨hw, hs, hcheck⟩
  refine ⟨hready.unify_comesOut, fun x c => ?_, fun x y => ?_, fun t u => ?_⟩
  · -- to give a value and to bind is what one level of unification does
    obtain ⟨o, ho⟩ := hready.unify_comesOut (.var x) c.toTerm
    exact ⟨o, ho.succ⟩
  · obtain ⟨o, ho⟩ := hready.unify_comesOut (.var x) (.var y)
    exact ⟨o, ho.succ⟩
  · obtain ⟨n, hn⟩ := hready.decides_all t u
    exact Attempt.acc_of_ne_cutOff hn

end unify

/-- The first of five variables has the value `7(Z, Z)`, the second `7(U, 8(V))`, where `U` and
    `V` are in one class.  To bind these two is to merge `Z` with that class, and then to give
    it a value over itself.  That attempt comes out, as a failure. -/
theorem shared_circle_comes_out :
    ∃ w : Session Nat, w.Consistent ∧ w.store.Acyclic ∧ w.trail.occursCheck = true ∧
      w.store.aliased ⟨3⟩ ⟨4⟩ = true ∧
      (∃ o, ComesOut (fun n => w.bind n ⟨0⟩ ⟨1⟩) o) ∧
      (∃ v, w.bind 5 ⟨0⟩ ⟨1⟩ = .failure (.occurs ⟨2⟩ ⟨8, [.var ⟨4⟩]⟩) v) ∧
      Acc Attempt.CalledBy ⟨.var ⟨0⟩, .var ⟨1⟩, w⟩ := by
  have hrun : ∃ w : Session Nat, Session.perform ⟨(Store.empty.freshMany 5).2, .start true⟩
      [.resolve 5 ⟨0⟩ ⟨7, [.var ⟨2⟩, .var ⟨2⟩]⟩,
        .resolve 5 ⟨1⟩ ⟨7, [.var ⟨3⟩, .app 8 [.var ⟨4⟩]]⟩, .bind 5 ⟨3⟩ ⟨4⟩] = some w ∧
      w.store.aliased ⟨3⟩ ⟨4⟩ = true ∧
      ∃ v, w.bind 5 ⟨0⟩ ⟨1⟩ = .failure (.occurs ⟨2⟩ ⟨8, [.var ⟨4⟩]⟩) v :=
    ⟨_, rfl, rfl, _, rfl⟩
  obtain ⟨w, hw, halias, hfails⟩ := hrun
  have hready := Session.ready_of_perform 5 hw
  have hall := unification_terminates hready.consistent hready.acyclic hready.check
  exact ⟨w, hready.consistent, hready.acyclic, hready.check, halias, hall.2.2.1 _ _, hfails,
    hall.2.2.2 _ _⟩

end Horn
