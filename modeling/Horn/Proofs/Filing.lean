import Horn.Program
import Mathlib.Data.List.Nodup

/-! # How clauses are filed

    A goal is tried against one group of clauses only.  No clause is missed by that, as
    a program keeps its clauses *filed*: a group holds clauses of its own signature, and
    no two groups have the same one.  The empty program is filed, and adding a clause
    keeps a program filed (`Filed.add`), so every program that is made by adding clauses
    is (`filed_ofList`).

    Main statement: the clauses found under a signature are all those of the program
    that have it (`Filed.mem_clausesFor`). -/

namespace Horn.Program

universe u

variable {A : Type u}

/-- Every group holds clauses of its signature, and signatures are not repeated. -/
structure Filed (p : Program A) : Prop where
  signature : ∀ f cs, (f, cs) ∈ p.groups → ∀ c ∈ cs, c.signature = f
  nodup : p.signatures.Nodup

theorem filed_empty (o : Options) : (empty o : Program A).Filed where
  signature f cs h := by cases h
  nodup := List.nodup_nil

variable [DecidableEq A]

/-! ## Filing a clause -/

section file

variable {groups : List (Signature A × List (Clause A))} {c : Clause A}

/-- No signature is used for the first time but that of the clause. -/
theorem mem_signatures_file {f : Signature A} :
    f ∈ (file c groups).map Prod.fst ↔ f = c.signature ∨ f ∈ groups.map Prod.fst := by
  induction groups with
  | nil => simp [file]
  | cons g groups ih =>
    obtain ⟨f', cs⟩ := g
    rw [file]
    by_cases hf : f' = c.signature
    · rw [if_pos hf]
      simp only [List.map_cons, List.mem_cons]
      rw [← hf]
      tauto
    · rw [if_neg hf]
      simp only [List.map_cons, List.mem_cons, ih]
      tauto

theorem nodup_file (h : (groups.map Prod.fst).Nodup) : ((file c groups).map Prod.fst).Nodup := by
  induction groups with
  | nil => exact List.nodup_singleton _
  | cons g groups ih =>
    obtain ⟨f', cs⟩ := g
    rw [file]
    by_cases hf : f' = c.signature
    · rw [if_pos hf]
      exact h
    · rw [if_neg hf]
      rw [List.map_cons, List.nodup_cons] at h ⊢
      refine ⟨fun hmem => ?_, ih h.2⟩
      -- the signature of this group is neither that of the clause nor that of another group
      rcases mem_signatures_file.mp hmem with heq | hmem
      · exact hf heq
      · exact h.1 hmem

/-- A clause in a group after filing was in it before, or is the one that was filed. -/
theorem mem_file {f : Signature A} {cs : List (Clause A)} {d : Clause A}
    (h : (f, cs) ∈ file c groups) (hd : d ∈ cs) :
    (d = c ∧ f = c.signature) ∨ ∃ cs', (f, cs') ∈ groups ∧ d ∈ cs' := by
  induction groups with
  | nil =>
    rw [file, List.mem_singleton] at h
    cases h
    exact .inl ⟨List.mem_singleton.mp hd, rfl⟩
  | cons g groups ih =>
    obtain ⟨f', cs'⟩ := g
    rw [file] at h
    split at h
    · next hf =>
      rcases List.mem_cons.mp h with he | h
      · -- this is the group that the clause has been added to
        cases he
        rcases List.mem_append.mp hd with hd | hd
        · exact .inr ⟨cs', List.mem_cons_self .., hd⟩
        · exact .inl ⟨List.mem_singleton.mp hd, hf⟩
      · exact .inr ⟨cs, List.mem_cons_of_mem _ h, hd⟩
    · rcases List.mem_cons.mp h with he | h
      · cases he
        exact .inr ⟨cs, List.mem_cons_self .., hd⟩
      · rcases ih h with hnew | ⟨cs'', hcs, hd⟩
        · exact .inl hnew
        · exact .inr ⟨cs'', List.mem_cons_of_mem _ hcs, hd⟩

/-- Filing a clause loses none. -/
theorem mem_flatMap_file {d : Clause A} :
    d ∈ (file c groups).flatMap Prod.snd ↔ d = c ∨ d ∈ groups.flatMap Prod.snd := by
  induction groups with
  | nil => simp [file]
  | cons g groups ih =>
    obtain ⟨f', cs⟩ := g
    rw [file]
    split
    · simp only [List.flatMap_cons, List.mem_append, List.mem_singleton]
      tauto
    · simp only [List.flatMap_cons, List.mem_append, ih]
      tauto

end file

/-! ## Programs -/

variable {p : Program A}

theorem Filed.add (h : p.Filed) (c : Clause A) : (p.add c).Filed where
  signature f cs hmem d hd := by
    rcases mem_file hmem hd with ⟨rfl, rfl⟩ | ⟨cs', hcs, hd⟩
    · rfl
    · exact h.signature f cs' hcs d hd
  nodup := nodup_file h.nodup

theorem Filed.addAll (h : p.Filed) (cs : List (Clause A)) : (p.addAll cs).Filed := by
  induction cs generalizing p with
  | nil => exact h
  | cons c cs ih => exact ih (h.add c)

/-- A program that is made by adding clauses is filed. -/
theorem filed_ofList (cs : List (Clause A)) (o : Options) : (ofList cs o).Filed :=
  (filed_empty o).addAll cs

theorem mem_clauses_addAll {cs : List (Clause A)} {d : Clause A} :
    d ∈ (p.addAll cs).clauses ↔ d ∈ cs ∨ d ∈ p.clauses := by
  induction cs generalizing p with
  | nil => simp [Program.addAll]
  | cons c cs ih =>
    have hstep : d ∈ (p.add c).clauses ↔ d = c ∨ d ∈ p.clauses := mem_flatMap_file
    have hunfold : p.addAll (c :: cs) = (p.add c).addAll cs := rfl
    rw [hunfold, ih, hstep, List.mem_cons]
    tauto

/-- The clauses of such a program are those that have been added. -/
theorem mem_clauses_ofList {cs : List (Clause A)} {o : Options} {d : Clause A} :
    d ∈ (ofList cs o).clauses ↔ d ∈ cs := by
  rw [ofList, mem_clauses_addAll]
  simp [clauses, empty]

/-- The clauses found under a signature are those of one group. -/
theorem exists_group {f : Signature A} {c : Clause A} (h : c ∈ p.clausesFor f) :
    ∃ cs, (f, cs) ∈ p.groups ∧ c ∈ cs := by
  unfold clausesFor at h
  cases hl : p.groups.lookup f with
  | none =>
    rw [hl] at h
    cases h
  | some cs =>
    rw [hl] at h
    obtain ⟨before, after, hgroups, -⟩ := List.lookup_eq_some_iff.mp hl
    refine ⟨cs, ?_, h⟩
    rw [hgroups]
    exact List.mem_append_right _ (List.mem_cons_self ..)

theorem mem_clauses (p : Program A) {f : Signature A} {c : Clause A} (h : c ∈ p.clausesFor f) :
    c ∈ p.clauses := by
  obtain ⟨cs, hcs, hc⟩ := exists_group h
  exact List.mem_flatMap.mpr ⟨(f, cs), hcs, hc⟩

/-- The clauses found under a signature are those of the program that have it. -/
theorem Filed.mem_clausesFor (h : p.Filed) {f : Signature A} {c : Clause A} :
    c ∈ p.clausesFor f ↔ c ∈ p.clauses ∧ c.signature = f := by
  constructor
  · intro hc
    obtain ⟨cs, hcs, hmem⟩ := exists_group hc
    exact ⟨p.mem_clauses hc, h.signature f cs hcs c hmem⟩
  · rintro ⟨hc, rfl⟩
    obtain ⟨⟨f, cs⟩, hmem, hcs⟩ := List.mem_flatMap.mp hc
    obtain rfl : c.signature = f := h.signature f cs hmem c hcs
    -- no other group has this signature, so the look-up finds this one
    obtain ⟨before, after, hgroups⟩ := List.append_of_mem hmem
    have hnodup := h.nodup
    rw [signatures, hgroups, List.map_append, List.map_cons, List.nodup_append] at hnodup
    have hl : p.groups.lookup c.signature = some cs := by
      refine List.lookup_eq_some_iff.mpr ⟨before, after, hgroups, fun q hq => ?_⟩
      have hne := hnodup.2.2 q.1 (List.mem_map_of_mem hq) c.signature (List.mem_cons_self ..)
      simpa using Ne.symm hne
    rw [clausesFor, hl]
    exact hcs

end Horn.Program
