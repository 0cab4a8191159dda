import Horn.Proofs.CopyLooks
import Horn.Proofs.Lockstep
import Horn.Proofs.Machine

/-! # Instances taken first

    The recursion that takes whole instances asks for the body of every clause that it
    tries, also where the head clashes with the goal, and so it comes to no end if one of
    these bodies has none.  Otherwise it makes no difference when the bodies are taken.

    * What it reports the other recursion reports as well (`prove_of_instanceFirst`).
    * Conversely, let the bodies of the clauses end in the store of the query.  Nothing
      happens to the variables of the clauses, so the bodies end in all stores on the
      way (`Tended.ends`), and what the other recursion reports is reported with whole
      instances too, at some level (`exists_prove_instanceFirst`). -/

namespace Horn

universe u

variable {A : Type u}

/-- A clause whose head can be copied and whose body ends has an instance. -/
theorem Clause.exists_instantiate {c : Clause A} {s : Store A} {n : Nat}
    {r : Compound A × Copying}
    (hhead : copyGoal (s.copyTerm n) c.head ⟨.empty, s.nextVar⟩ = some r)
    (hbody : ∀ b ∈ c.body, s.Ends b.toTerm) : ∃ m, n ≤ m ∧ ∃ i, c.instantiate m s = some i := by
  obtain ⟨m, q, hq⟩ := (Store.exists_copyGoals_iff r.2).mpr hbody
  have hhead' := copyGoal_mono (fun _ _ _ => Store.copyTerm_mono (Nat.le_max_left n m)) hhead
  have hbody' := copyGoals_mono (fun _ _ _ => Store.copyTerm_mono (Nat.le_max_right n m)) hq
  refine ⟨max n m, Nat.le_max_left n m, ?_⟩
  rw [Clause.instantiate_eq, hhead', Option.bind_some, hbody']
  exact ⟨_, rfl⟩

theorem Clause.instantiate_succ {c : Clause A} {n : Nat} {s : Store A} {i : Clause A × Store A}
    (h : c.instantiate n s = some i) : c.instantiate (n + 1) s = some i := by
  have hcopy : ∀ t p r, s.copyTerm n t p = some r → s.copyTerm (n + 1) t p = some r :=
    fun _ _ _ => s.copyTerm_succ
  rw [Clause.instantiate_eq] at h ⊢
  obtain ⟨r, hr, h⟩ := Option.bind_eq_some_iff.mp h
  obtain ⟨q, hq, he⟩ := Option.map_eq_some_iff.mp h
  rw [copyGoal_mono hcopy hr, Option.bind_some, copyGoals_mono hcopy hq]
  exact congrArg some he

namespace Search

/-- If every clause comes to its report at some level, all of them do so at one. -/
theorem exists_eachClause {attempt : Nat → Clause A → Nat → Option (Report A)}
    (hsettled : ∀ c k, Settled fun n => attempt n c k)
    {attempt₁ : Clause A → Nat → Option (Report A)} {cs : List (Clause A)}
    (h : ∀ c ∈ cs, ∀ k r, attempt₁ c k = some r → ∃ n, attempt n c k = some r) {found : Nat}
    {r : Report A} (hr : eachClause attempt₁ cs found = some r) :
    ∃ n, eachClause (attempt n) cs found = some r := by
  induction cs generalizing found r with
  | nil => exact ⟨0, hr⟩
  | cons c cs ih =>
    have hothers : ∀ k, Settled fun n => eachClause (attempt n) cs k := fun _ n _ =>
      eachClause_mono fun c k => hsettled c k n
    exact exists_goOn (hsettled c found) hothers (h c (List.mem_cons_self ..) found)
      (fun _ _ => ih fun d hd => h d (List.mem_cons_of_mem _ hd)) hr

variable [DecidableEq A]

/-! ## One clause -/

section clause

variable {check : Bool} {n : Nat} {goal : Compound A} {c : Clause A} {s : Store A}
  {o : Option (List (Compound A) × Store A)}

theorem instanceFirst_settles : Resolver.Settles (instanceFirst (A := A)) := by
  intro check goal c s n o h
  show instanceFirst check (n + 1) goal c s = some o
  have h : instanceFirst check n goal c s = some o := h
  rw [instanceFirst_eq] at h ⊢
  obtain ⟨i, hi, hhead⟩ := Option.bind_eq_some_iff.mp h
  rw [Clause.instantiate_succ hi, Option.bind_some]
  exact headFirst_settles check goal c s n o hhead

/-- With a body that ends, the whole instance may be taken first. -/
theorem exists_instanceFirst (hbody : ∀ b ∈ c.body, s.Ends b.toTerm)
    (h : headFirst check n goal c s = some o) : ∃ m, instanceFirst check m goal c s = some o := by
  obtain ⟨head, p, hhead, -⟩ := headFirst_cases h
  obtain ⟨m, hnm, i, hi⟩ := Clause.exists_instantiate hhead hbody
  refine ⟨m, ?_⟩
  rw [instanceFirst_eq, hi, Option.bind_some]
  exact headFirst_mono hnm h

end clause

/-! ## The recursion -/

section prove

variable {src : Source A} {answers : Nat → Signal}

/-- What is reported with whole instances is reported if the bodies are left for later. -/
theorem prove_of_instanceFirst {n : Nat} {goals : List (Goal A)} {s : Store A} {found : Nat}
    {r : Report A} (h : prove instanceFirst src answers n goals s found = some r) :
    prove headFirst src answers n goals s found = some r := by
  induction n generalizing goals s found r with
  | zero => cases h
  | succ n ih =>
    cases goals with
    | nil => exact h
    | cons g rest =>
      exact eachClause_mono (fun c k r hc =>
        expand_mono (fun _ => headFirst_of_instanceFirst) (fun _ _ _ _ => ih) hc) h

variable {s₀ : Store A} {L K : Var → Prop}

omit [DecidableEq A] in
/-- What is said with the variables of the clauses ends as it did in `s₀`. -/
theorem Tended.ends (hd : Division s₀ L K) {s : Store A} (ht : Tended s₀ L s) {t : Term A}
    (hK : t.Within K) (h : s₀.Ends t) : s.Ends t := by
  -- a variable of the clauses has the value it had
  have hvalue : ∀ x, K x → s.value x = s₀.value x := fun x hx => ht.outside x (hd.apart x hx)
  induction h with
  | @unbound x hx => exact .unbound ((hvalue x (Term.within_var hK)).trans hx)
  | @bound x v hv _ ih =>
    have hx : K x := Term.within_var hK
    exact .bound ((hvalue x hx).trans hv) (ih (hd.values x v hx hv))
  | app _ ih => exact .app fun a ha => ih a ha (hK.arg ha)

/-- A clause whose body ends leads to the same with its whole instance taken first, if the
    goals that it leads to do. -/
theorem exists_expand_instanceFirst {n : Nat} {g : Goal A} {rest : List (Goal A)} {s : Store A}
    {c : Clause A} {found : Nat} {r : Report A} (hbody : ∀ b ∈ c.body, s.Ends b.toTerm)
    (hnext : ∀ gs s', headFirst src.options.occursCheck n g.compound c s = some (some (gs, s')) →
      ∀ r, prove headFirst src answers n (gs.map (⟨·, g.depth + 1⟩) ++ rest) s' found = some r →
        ∃ m, prove instanceFirst src answers m (gs.map (⟨·, g.depth + 1⟩) ++ rest) s' found =
          some r)
    (h : expand headFirst src n (prove headFirst src answers n) g rest s c found = some r) :
    ∃ m, expand instanceFirst src m (prove instanceFirst src answers m) g rest s c found =
      some r := by
  unfold expand at h ⊢
  cases hres : headFirst src.options.occursCheck n g.compound c s with
  | none =>
    rw [hres] at h
    cases h
  | some o =>
    rw [hres] at h
    obtain ⟨m, hm⟩ := exists_instanceFirst hbody hres
    cases o with
    | none => exact ⟨m, by rw [hm]; exact h⟩
    | some q =>
      obtain ⟨gs, s'⟩ := q
      simp only at h
      split at h
      · next hp => exact ⟨m, by rw [hm]; simp only [hp, if_true]; exact h⟩
      · next hp =>
        -- one level that does for the clause and for the goals it leads to
        obtain ⟨k, hk⟩ := hnext gs s' hres r h
        have hm' := Settled.mono (instanceFirst_settles _ _ c s) (Nat.le_max_left m k) hm
        have hk' := prove_mono instanceFirst_settles (Nat.le_max_right m k) hk
        exact ⟨max m k, by rw [hm']; simp only [hp]; exact hk'⟩

/-- **Where the bodies end, whole instances give the same report.**  The induction is on the
    recursion; the goals stay with the variables of sort `L`, and so the clauses stay as
    they were. -/
theorem exists_prove_instanceFirst (hd : Division s₀ L K)
    (hsuits : ∀ f, ∀ c ∈ src.clausesFor f, Suits K c)
    (hends : ∀ f, ∀ c ∈ src.clausesFor f, ∀ b ∈ c.body, s₀.Ends b.toTerm) {n : Nat}
    {goals : List (Goal A)} {s : Store A} {found : Nat} {r : Report A} (ht : Tended s₀ L s)
    (hgoals : ∀ g ∈ goals, Fit L s g.compound)
    (h : prove headFirst src answers n goals s found = some r) :
    ∃ m, prove instanceFirst src answers m goals s found = some r := by
  induction n generalizing goals s found r with
  | zero => cases h
  | succ n ih =>
    cases goals with
    | nil => exact ⟨1, h⟩
    | cons g rest =>
      have hsettled : ∀ c k, Settled fun m =>
          expand instanceFirst src m (prove instanceFirst src answers m) g rest s c k :=
        fun c k m r => expand_mono (instanceFirst_settles _ _ c s m)
          fun _ _ _ _ => prove_succ instanceFirst_settles
      have hclause : ∀ c ∈ src.clausesFor g.compound.signature, ∀ k r,
          expand headFirst src n (prove headFirst src answers n) g rest s c k = some r →
            ∃ m, expand instanceFirst src m (prove instanceFirst src answers m) g rest s c k =
              some r := by
        intro c hc k r hr
        have hbody : ∀ b ∈ c.body, s.Ends b.toTerm := fun b hb =>
          ht.ends hd ((hsuits _ c hc).2 b hb) (hends _ c hc b hb)
        refine exists_expand_instanceFirst hbody (fun gs s' hres r' hr' => ?_) hr
        obtain ⟨ht', hfit, -⟩ := ht.headFirst hd (hgoals g (List.mem_cons_self ..)) hres
        exact ih ht' (Fit.expanded (headFirst_nextVar_le hres) hfit
          (fun g' hg' => hgoals g' (List.mem_cons_of_mem _ hg')) _) hr'
      obtain ⟨m, hm⟩ := exists_eachClause hsettled hclause h
      exact ⟨m + 1, hm⟩

end prove

end Search

end Horn
