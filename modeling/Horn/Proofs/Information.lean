import Horn.Proofs.CircleFree
import Horn.Proofs.FailedCalls
import Horn.Proofs.Occurrences

/-! # Binding only adds information

    A merge throws the value of one of two classes away, and a unification that fails leaves
    behind what its first arguments did.  Still nothing is lost: variables of one class stay
    together, and terms that look the same along all paths keep doing so.  This order of
    stores (`Store.Enriched`) is climbed by every act that does not go back.

    * A success climbs, since the value that goes has been unified with the one that stays:
      `enriched_of_success`.
    * A failure climbs: calls take back what they did, and the arguments before the failing
      one were unified: `enriched_of_failure`.
    * What a richer store still says: `Enriched.exists_value`, `Enriched.equal`,
      `Enriched.resolves`.

    Main statement: `binding_only_adds`. -/

namespace Horn

universe u

variable {A : Type u}

/-! ## Terms without variables -/

namespace Term

theorem Mentions.rename {t : Term A} {x : Var} (h : t.Mentions x) (π : Var → Var) :
    (t.rename π).Mentions (π x) := by
  induction h with
  | var => exact .var
  | app ha _ ih =>
    rw [rename_app]
    exact .app (List.mem_map_of_mem ha) ih

/-- There is nothing to put in a term without variables. -/
theorem subst_eq_self {t : Term A} (ht : ∀ x, ¬ t.Mentions x) (θ : Var → Term A) :
    t.subst θ = t := by
  have hnames : t.subst θ = t.rename id := fold_congr fun x hx => absurd hx (ht x)
  rw [hnames, rename_id]

end Term

/-- A constant is told by its signature. -/
theorem Compound.eq_of_signature_eq {c d : Compound A} (h : d.signature = c.signature)
    (hargs : c.args = []) : d = c := by
  cases c
  cases d
  simp_all [signature, arity]

/-! ## Richer stores -/

namespace Store

/-- The store `s'` says all that `s` does: variables of one class are in one class, and terms
    that looked the same look the same. -/
structure Enriched (s s' : Store A) : Prop where
  joined : ∀ x y, s.classOf x = s.classOf y → s'.classOf x = s'.classOf y
  looks : ∀ t u, s.LooksLike t u → s'.LooksLike t u

variable {s s' s₁ s₂ s₃ : Store A}

theorem Enriched.refl (s : Store A) : s.Enriched s := ⟨fun _ _ h => h, fun _ _ h => h⟩

theorem Enriched.trans (h₁ : s₁.Enriched s₂) (h₂ : s₂.Enriched s₃) : s₁.Enriched s₃ where
  joined x y h := h₂.joined x y (h₁.joined x y h)
  looks t u h := h₂.looks t u (h₁.looks t u h)

theorem Enriched.of_classes (hclass : ∀ x, s'.classOf x = s.classOf x)
    (hvalue : ∀ x, s'.value x = s.value x) : s.Enriched s' where
  joined x y h := by
    rw [hclass, hclass]
    exact h
  looks t u h q := by
    rw [look_congr hclass hvalue, look_congr hclass hvalue]
    exact h q

/-! ### What they still say -/

/-- A bound variable stays bound, to a value of the same name with as many arguments. -/
theorem Enriched.exists_value (h : s.Enriched s') {x : Var} {c : Compound A}
    (hx : s.value x = some c) : ∃ c', s'.value x = some c' ∧ c'.signature = c.signature := by
  have hlook := h.looks _ _ (looksLike_value hx)
  cases hx' : s'.value x with
  | none =>
    have hsight := hlook.sight_eq
    rw [sight_unbound hx'] at hsight
    cases hsight
  | some c' =>
    refine ⟨c', rfl, ?_⟩
    obtain ⟨hname, hlen⟩ := ((looksLike_value hx').symm.trans hlook).signature_eq
    simp [Compound.signature, Compound.arity, hname, hlen]

/-- What solves the richer store solves the other. -/
theorem Enriched.solves (h : s.Enriched s') {θ : Var → Term A} (hθ : s'.Solves θ) : s.Solves θ where
  joined _ _ hxy := hθ.joined _ _ (h.joined _ _ hxy)
  bound _ _ hx := hθ.subst_eq_of_looksLike (h.looks _ _ (looksLike_value hx))

theorem Enriched.acyclic (h : s.Enriched s') (hs' : s'.Acyclic) : s.Acyclic := by
  obtain ⟨θ, hθ⟩ := hs'.exists_solution
  exact (h.solves hθ).acyclic

/-- Terms that are the same stay the same. -/
theorem Enriched.equal [DecidableEq A] (h : s.Enriched s') (hs' : s'.Acyclic) {t u : Term A}
    (htu : s.Equal t u) : s'.Equal t u := by
  have hall := (h.acyclic hs').equal_iff_solves.mp htu
  exact hs'.equal_iff_solves.mpr fun θ hθ => hall θ (h.solves hθ)

/-- A resolved form in which no variable is left stays the resolved form. -/
theorem Enriched.resolves (h : s.Enriched s') (hs' : s'.Acyclic) {t u : Term A}
    (hu : s.Resolves t u) (hclosed : ∀ x, ¬ u.Mentions x) : s'.Resolves t u := by
  obtain ⟨u', hu'⟩ := hs'.exists_resolves t
  obtain ⟨θ, hθ, -, hread⟩ := hs'.exists_naming
  -- the solution that names the classes reads `t` as `u`, which has no variable to name
  have hname : u'.rename s'.className = u := by
    rw [hread t u' hu', ← (h.solves hθ).subst_resolved hu, Term.subst_eq_self hclosed]
  have hclosed' : ∀ x, ¬ u'.Mentions x := by
    intro x hx
    apply hclosed (s'.className x)
    rw [← hname]
    exact hx.rename s'.className
  have heq : u' = u := by
    rw [← hname]
    exact (Term.subst_eq_self hclosed' _).symm
  rw [← heq]
  exact hu'

/-- Of a ground term no variable is left when it is resolved. -/
theorem Resolves.closed {t u : Term A} (h : s.Resolves t u) {n : Nat}
    (hground : s.ground n t = some true) : ∀ x, ¬ u.Mentions x := by
  have hempty := List.isEmpty_iff.mp (h.answers_ground.unique hground).symm
  intro x hx
  rw [← Term.mem_occurrences, hempty] at hx
  cases hx

/-- What resolves to a term without variables is ground. -/
theorem Resolves.ground_of_closed {t u : Term A} (h : s.Resolves t u)
    (hclosed : ∀ x, ¬ u.Mentions x) : ∃ n, s.ground n t = some true := by
  obtain ⟨n, hn⟩ := h.answers_ground.exists_level
  have hempty : u.occurrences = [] :=
    List.eq_nil_iff_forall_not_mem.mpr fun x hx => hclosed x (Term.mem_occurrences.mp hx)
  rw [hempty] at hn
  exact ⟨n, hn⟩

end Store

/-! ## Unification -/

section unify

variable {w w' w₀ : Session A} {e : Clash A} {n : Nat} {t u : Term A}

/-- Variables that were in one class in `w` are in one class in `w'`. -/
def Session.KeepsJoined (w w' : Session A) : Prop :=
  ∀ x y, w.store.classOf x = w.store.classOf y → w'.store.classOf x = w'.store.classOf y

/-- Variables that have been bound together stay together, whatever is gathered. -/
theorem Session.stable_keepsJoined (w₀ : Session A) :
    Stable (fun _ => True) (fun w => w.Consistent ∧ w₀.KeepsJoined w) (fun _ => True) where
  values _ _ _ _ _ _ _ _ := trivial
  gather w xs value hw _ _ _ := by
    refine ⟨hw.1.gather _ value, fun x y hxy => ?_⟩
    rw [classOf_gather_eq_iff hw.1.store]
    exact .inr (hw.2 x y hxy)
  fails _ _ := trivial
  undoTo _ _ _ _ := trivial

variable [DecidableEq A]

theorem enriched_of_success (hw : w.Consistent) (h : unify n t u w = .success w') :
    w'.Consistent ∧ w.store.Enriched w'.store := by
  have hjoined := unify_ends w.stable_keepsJoined n t u w (fun _ _ => trivial) (fun _ _ => trivial)
    ⟨hw, fun _ _ hxy => hxy⟩
  have hlooks := unify_looks n t u w hw
  rw [h] at hjoined hlooks
  exact ⟨hjoined.1, hjoined.2, hlooks.2.1⟩

omit [DecidableEq A] in
/-- Pairs that fail have got as far as some of them succeeded. -/
theorem unifyEach_enriched {f : Unifier A}
    (hsuccess : ∀ t u w w', Session.Consistent w → f t u w = .success w' →
      w'.Consistent ∧ w.store.Enriched w'.store)
    (hfailure : ∀ t u w e w', Session.Consistent w → f t u w = .failure e w' →
      w.store.Enriched w'.store) {ps : List (Term A × Term A)} (hw : w.Consistent)
    (h : unifyEach f ps w = .failure e w') : w.store.Enriched w'.store := by
  induction ps generalizing w with
  | nil => cases h
  | cons p ps ih =>
    rw [unifyEach] at h
    rcases Outcome.andThen_eq_failure h with hfirst | ⟨v, hfirst, hrest⟩
    · exact hfailure p.1 p.2 w e w' hw hfirst
    · obtain ⟨hv, henriched⟩ := hsuccess p.1 p.2 w v hw hfirst
      exact henriched.trans (ih hv hrest)

theorem Session.Unchanged.enriched (h : w.Unchanged w') : w.store.Enriched w'.store :=
  .of_classes h.classOf h.reads.value

theorem enriched_of_failure (hw : w.Consistent) (h : unify n t u w = .failure e w') :
    w.store.Enriched w'.store := by
  induction n generalizing t u w e w' with
  | zero => cases h
  | succ n ih =>
    cases t with
    | var x =>
      cases u with
      | var y => exact (Session.bind_unchanged hw h).enriched
      | app g bs => exact (Session.resolve_unchanged hw h).enriched
    | app f as =>
      cases u with
      | var y => exact (Session.resolve_unchanged hw h).enriched
      | app g bs =>
        rw [unify] at h
        by_cases hname : f = g
        · by_cases hlen : as.length = bs.length
          · simp only [hname, hlen, ne_eq, not_true_eq_false, if_false] at h
            exact unifyEach_enriched (fun _ _ _ _ => enriched_of_success) (fun _ _ _ _ _ => ih) hw h
          · simp only [hname, hlen, ne_eq, not_true_eq_false, not_false_eq_true, if_false,
              if_true] at h
            cases h
            exact .refl _
        · simp only [hname, ne_eq, not_false_eq_true, if_true] at h
          cases h
          exact .refl _

/-- However a unification ends, nothing is lost. -/
theorem unify_enriched (hw : w.Consistent) (n : Nat) (t u : Term A) :
    (unify n t u w).Ends (fun v => v.Consistent ∧ w.store.Enriched v.store)
      (fun v => v.Consistent ∧ w.store.Enriched v.store) := by
  have hconsistent := unify_keeps Session.stable_consistent n t u hw
  cases ho : unify n t u w with
  | success v => exact enriched_of_success hw ho
  | failure e v =>
    rw [ho] at hconsistent
    exact ⟨hconsistent, enriched_of_failure hw ho⟩
  | cutOff => trivial

end unify

/-! ## Runs that do not go back -/

/-- The call is not an undoing. -/
def Call.Onward : Call A → Prop
  | undoTo _ => False
  | _ => True

/-- The act takes nothing back: it neither undoes a trail nor restores a variable. -/
def Act.Onward : Act A → Prop
  | call _ c => c.Onward
  | restore _ _ => False
  | _ => True

section runs

variable [DecidableEq A]

/-- A call that takes nothing back loses nothing, whether it succeeds or fails. -/
theorem Call.run_enriched {w w' : Session A} {c : Call A} (hc : c.Onward)
    (h : c.run w = some w') (hw : w.Consistent) :
    w'.Consistent ∧ w.store.Enriched w'.store := by
  refine run_keeps_of_unify (P := fun v => v.Consistent ∧ w.store.Enriched v.store)
    (fun n t u v _ _ hv => ?_) (fun v n _ hv => ?_) c.within_true ?_ h ⟨hw, .refl _⟩
  · have hlater : ∀ v' : Session A, v'.Consistent ∧ v.store.Enriched v'.store →
        v'.Consistent ∧ w.store.Enriched v'.store := fun v' h => ⟨h.1, hv.2.trans h.2⟩
    exact (unify_enriched hv.1 n t u).imp hlater hlater
  · have hnext : v.store.Enriched (v.setNext n).store :=
      .of_classes (fun _ => rfl) (Store.value_setNext n v.store)
    exact ⟨⟨hv.1.store.setNextVar n, hv.1.trail⟩, hv.2.trans hnext⟩
  · intro mark hundo
    rw [hundo] at hc
    exact hc.elim

namespace World

variable {d d' : World A}

theorem Sound.enriched (h : d.Sound) {a : Act A} (ha : a.Onward) (hrun : a.run d = some d') :
    d.store.Enriched d'.store := by
  cases a with
  | openTrail check =>
    cases hrun
    exact .refl _
  | call i c =>
    obtain ⟨t, w, ht, hw, rfl⟩ := Act.exists_of_run_call hrun
    have hsession := h.session (List.mem_of_getElem? ht)
    exact (Call.run_enriched ha hw hsession.consistent).2
  | snapshot x =>
    cases hrun
    exact .refl _
  | restore x k => exact ha.elim

/-- A run that does not go back loses nothing. -/
theorem Reachable.enriched (hd : d.Reachable) (hrun : d.Run Act.Onward d') :
    d.store.Enriched d'.store :=
  hrun.keeps (I := fun d₁ => d.store.Enriched d₁.store) hd
    (fun _ _ _ hd₁ ha _ hact h => h.trans (hd₁.sound.enriched ha hact)) (.refl _)

end World

/-- **Binding only adds information.**  From any world that can be reached, let variables and
    copies be made, variables be given values and bound together and terms be unified, along
    whatever trails, successfully or not.  Then variables of one class are in one class, and a
    bound variable is bound, to a value of the same name with as many arguments; if it has
    none, to the same value.  If the store is acyclic in the end, it was so from the start,
    terms that were the same are the same, and ground terms are ground and resolve to what they
    did. -/
theorem binding_only_adds {d d' : World A} (hd : d.Reachable) (hrun : d.Run Act.Onward d') :
    (∀ x y, d.store.aliased x y = true → d'.store.aliased x y = true) ∧
    (∀ x c, d.store.value x = some c → ∃ c', d'.store.value x = some c' ∧
      c'.signature = c.signature ∧ (c.args = [] → c' = c)) ∧
    (d'.store.Acyclic → d.store.Acyclic ∧
      (∀ t u, d.store.Equal t u → d'.store.Equal t u) ∧
      ∀ t n, d.store.ground n t = some true →
        ∃ u m, d.store.Resolves t u ∧ d'.store.Resolves t u ∧ d'.store.ground m t = some true) := by
  have henriched := hd.enriched hrun
  refine ⟨fun x y hxy => ?_, fun x c hx => ?_, fun hs' => ?_⟩
  · rw [Store.aliased_iff] at hxy ⊢
    exact henriched.joined x y hxy
  · obtain ⟨c', hx', hsig⟩ := henriched.exists_value hx
    exact ⟨c', hx', hsig, Compound.eq_of_signature_eq hsig⟩
  · have hs := henriched.acyclic hs'
    refine ⟨hs, fun t u htu => henriched.equal hs' htu, fun t n hground => ?_⟩
    obtain ⟨u, hu⟩ := hs.exists_resolves t
    have hclosed := hu.closed hground
    have hu' := henriched.resolves hs' hu hclosed
    obtain ⟨m, hm⟩ := hu'.ground_of_closed hclosed
    exact ⟨u, m, hu, hu', hm⟩

end runs

/-- Of five variables `X` and `Y` are bound together, and `U` and `V` have the values `7(Z)` and
    `7(8)`.  Then a unification fails that has given `Z` the value `8` by then, and `U` and `V`
    are bound together, which throws the value `7(8)` away.  The value of `V` is `7(Z)` now, and
    it resolves to `7(8)` as before. -/
theorem value_thrown_away :
    ∃ d d' : World Nat, d.Reachable ∧ d.Run Act.Onward d' ∧ d'.store.Acyclic ∧
      d.store.aliased ⟨0⟩ ⟨1⟩ = true ∧ d'.store.aliased ⟨0⟩ ⟨1⟩ = true ∧
      d.store.value ⟨4⟩ = some ⟨7, [.app 8 []]⟩ ∧ d'.store.value ⟨4⟩ = some ⟨7, [.var ⟨2⟩]⟩ ∧
      d.store.value ⟨2⟩ = none ∧ d'.store.value ⟨2⟩ = some (.const 8) ∧
      d.store.ground 3 (.var ⟨4⟩) = some true ∧
      ∃ u m, d.store.Resolves (.var ⟨4⟩) u ∧ d'.store.Resolves (.var ⟨4⟩) u ∧
        d'.store.ground m (.var ⟨4⟩) = some true := by
  let d₀ : World Nat := ⟨(Store.empty.freshMany 5).2, [.start true], []⟩
  let before : List (Call Nat) := [.bind 3 ⟨0⟩ ⟨1⟩, .resolve 3 ⟨3⟩ ⟨7, [.var ⟨2⟩]⟩,
    .resolve 3 ⟨4⟩ ⟨7, [.app 8 []]⟩]
  let after : List (Call Nat) := [.unify 3 (.app 9 [.var ⟨2⟩, .app 5 []])
    (.app 9 [.app 8 [], .app 6 []]), .bind 3 ⟨3⟩ ⟨4⟩]
  have hrun : ∃ d d' : World Nat, ∃ w, d₀.perform (before.map (.call 0)) = some d ∧
      d.store.nextVar = 5 ∧ d.perform (after.map (.call 0)) = some d' ∧
      Session.perform ⟨(Store.empty.freshMany 5).2, .start true⟩ (before ++ after) = some w ∧
      w.store = d'.store ∧
      d.store.aliased ⟨0⟩ ⟨1⟩ = true ∧ d.store.value ⟨4⟩ = some ⟨7, [.app 8 []]⟩ ∧
      d'.store.value ⟨4⟩ = some ⟨7, [.var ⟨2⟩]⟩ ∧ d.store.value ⟨2⟩ = none ∧
      d'.store.value ⟨2⟩ = some (.const 8) ∧ d.store.ground 3 (.var ⟨4⟩) = some true :=
    ⟨_, _, _, rfl, rfl, rfl, rfl, rfl, rfl, rfl, rfl, rfl, rfl, rfl⟩
  obtain ⟨d, d', w, hbefore, hnext, hafter, hw, hstore, halias, hvalue, hvalue', hunbound, hbound,
    hground⟩ := hrun
  have hcalls : ∀ c ∈ before ++ after,
      (Act.call 0 c).Onward ∧ (Act.call 0 c).Within fun x => x.id < 5 := by
    simp [before, after, Act.Onward, Call.Onward, Act.Within, Call.Within, Term.Within,
      Compound.Within, Compound.toTerm]
  have hd₀ : d₀.Reachable := World.reachable_freshMany 5 true
  have hrun₀ : d₀.Run Act.Onward d := World.run_of_perform hd₀ (Nat.le_refl 5)
    (List.forall_mem_map.mpr fun c hc => hcalls c (List.mem_append_left _ hc)) hbefore
  have hd : d.Reachable := hrun₀.reachable hd₀
  have hrun : d.Run Act.Onward d' := World.run_of_perform hd hnext.ge
    (List.forall_mem_map.mpr fun c hc => hcalls c (List.mem_append_right _ hc)) hafter
  have hacyclic : d'.store.Acyclic := by
    rw [← hstore]
    exact (Session.ready_of_perform 5 hw).acyclic
  obtain ⟨hjoined, -, hmore⟩ := binding_only_adds hd hrun
  exact ⟨d, d', hd, hrun, hacyclic, halias, hjoined _ _ halias, hvalue, hvalue', hunbound, hbound,
    hground, (hmore hacyclic).2.2 _ _ hground⟩

end Horn
