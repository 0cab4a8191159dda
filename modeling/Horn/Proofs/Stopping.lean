import Horn.Proofs.Calls
import Horn.Proofs.SearchLevels

/-! # Stopping early

    A client may stop a search at any match, for reasons of its own: what it reads in the
    store, what it remembers, what it has asked in between.  It is compared with the one
    that does just the same at every match but always goes on.

    * `Step.Taken`, `step_taken`: what a step can do, as far as its client is concerned.
      From it come the facts about the number of matches.
    * `Program.record`: the matches that the search which always goes on has come to after
      so many steps, each with what the client itself would answer.
    * `run_recording`: up to the first answer to stop the two searches are one.
    * `run_halting_of_collecting`: so are a search that stops at the first match and one
      that collects them all.
    * `exists_visiting_of_collecting`: what is collected is what is read at the matches on
      record, in turn, with the memory of the moment.

    Main statement: `stopping_reports_first_matches`. -/

namespace Horn

universe u v w

variable {A : Type u} {σ : Type v} {τ : Type w}

/-! ## Clients -/

/-- The client that does what `c` does and keeps a log of the stores in which it is
    called, each with its answer. -/
def Client.recording (c : Client A σ) : Client A (σ × List (Store A × Signal)) where
  note s e m := (c.note s e m.1, m.2)
  answer s m := (c.answer s m.1).map fun (signal, s', m') =>
    (signal, s', m', m.2 ++ [(s, signal)])

theorem Client.recording_logs (c : Client A σ) : c.recording.Logs where
  note _ _ _ := rfl
  answer s m r hr := by
    obtain ⟨q, -, rfl⟩ := Option.map_eq_some_iff.mp hr
    exact ⟨_, rfl⟩

/-- The client that does what `c` does at every match, and then goes on.  Its log says
    what `c` would have answered. -/
abbrev Client.persisting (c : Client A σ) : Client A (σ × List (Store A × Signal)) :=
  c.following fun _ => .proceed

/-- The client that stops at the first match. -/
def Client.halting (note : Store A → Event A → σ → σ) : Client A σ :=
  ⟨note, fun store memory => some (.halt, store, memory)⟩

/-- The client that collects what `extract` reads off the store at each match, the last
    first. -/
def Client.collecting {β : Type w} (note : Store A → Event A → σ → σ)
    (extract : Store A → σ → Option (β × Store A × σ)) : Client A (σ × List β) where
  note := fun store e (memory, found) => (note store e memory, found)
  answer := fun store (memory, found) =>
    (extract store memory).map fun (b, store, memory) => (.proceed, store, memory, b :: found)

/-- The client that reads the store at each match in the same way, and keeps nothing of it. -/
def Client.reading {β : Type w} (note : Store A → Event A → σ → σ)
    (extract : Store A → σ → Option (β × Store A × σ)) : Client A σ where
  note := note
  answer := fun store memory =>
    (extract store memory).map fun (_, store, memory) => (.proceed, store, memory)

/-- The client that does what `c` does and keeps a log of the stores in which it is
    called, each with what `c` remembers at that moment. -/
def Client.visiting (c : Client A σ) : Client A (σ × List (Store A × σ)) where
  note s e m := (c.note s e m.1, m.2)
  answer s m := (c.answer s m.1).map fun (signal, s', m') =>
    (signal, s', m', m.2 ++ [(s, m.1)])

/-- The memory `m'` comes of `m` by taking notes. -/
def Client.Noted (c : Client A σ) (m m' : σ) : Prop :=
  ∀ P : σ → Prop, (∀ s e m, P m → P (c.note s e m)) → P m → P m'

theorem Client.Noted.refl (c : Client A σ) (m : σ) : c.Noted m m := fun _ _ hm => hm

theorem Client.Noted.note {c : Client A σ} {m m' : σ} (h : c.Noted m m') (s : Store A)
    (e : Event A) : c.Noted m (c.note s e m') := fun P hnote hm => hnote s e m' (h P hnote hm)

namespace Search

/-! ## What a step can do -/

/-- A step from `s` is cut off, comes to the end, goes on without a match, or asks the
    client. -/
inductive Step.Taken (client : Client A σ) (s : State A σ) : Step A σ → Prop where
  | cutOff : Taken client s .cutOff
  | finished {w : Session A} {m : σ} :
      client.Noted s.memory m → Taken client s (.done false ⟨w, [], s.found, m⟩)
  | next {w : Session A} {points : List (ChoicePoint A)} {m : σ} :
      client.Noted s.memory m → Taken client s (.next ⟨w, points, s.found, m⟩)
  | asked {depth : Nat} {w : Session A} {points : List (ChoicePoint A)} {m : σ} :
      client.Noted s.memory m →
        Taken client s (answered client depth ⟨w, points, s.found, m⟩ (client.answer w.store m))

section taken

variable (src : Source A) (client : Client A σ)

theorem advance_taken (depth : Nat) (goals : List (Goal A)) {s : State A σ} {w : Session A}
    {points : List (ChoicePoint A)} {m : σ} (hm : client.Noted s.memory m) :
    Step.Taken client s (advance src client depth goals ⟨w, points, s.found, m⟩) := by
  cases goals with
  | nil =>
    rw [advance_nil]
    exact .asked hm
  | cons g rest =>
    unfold advance
    simp only
    split
    · exact .next (hm.note _ _)
    · exact .next hm

variable [DecidableEq A]

theorem step_taken (n : Nat) (s : State A σ) : Step.Taken client s (step src client n s) := by
  obtain ⟨w, points, found, memory⟩ := s
  cases points with
  | nil => exact .finished (.refl client memory)
  | cons point points =>
    unfold step
    simp only
    split
    · exact .next (Client.Noted.note (.refl client memory) _ _)
    · -- whatever is noted in an attempt, it ends in one of three ways
      obtain ⟨m, hm, hattempt⟩ := attempt_eq src client (P := client.Noted memory)
        (fun s e _ hm => hm.note s e) n _ _ _ _ found memory (.refl client memory)
      rw [hattempt]
      unfold attempted
      split
      · exact .cutOff
      · exact .next hm
      · exact advance_taken src client _ _ (s := ⟨w, point :: points, found, memory⟩) hm

end taken

section found

variable [DecidableEq A] {src : Source A} {client : Client A σ}

/-- A client that counts the matches it is told of counts what the search counts. -/
theorem step_counted {f : σ → Nat} (hnote : ∀ s e m, f (client.note s e m) = f m)
    (hanswer : ∀ s m r, client.answer s m = some r → f r.2.2 = f m + 1) (n : Nat)
    (s : State A σ) (hs : s.found = f s.memory) :
    (step src client n s).All fun t => t.found = f t.memory := by
  have hnoted : ∀ {m}, client.Noted s.memory m → s.found = f m := fun hm =>
    hm (fun m => s.found = f m) (fun s e m h => h.trans (hnote s e m).symm) hs
  have htaken := step_taken src client n s
  generalize step src client n s = r at htaken
  cases htaken with
  | cutOff => trivial
  | finished hm => exact hnoted hm
  | next hm => exact hnoted hm
  | @asked depth w points m hm =>
    cases hr : client.answer w.store m with
    | none => trivial
    | some r =>
      obtain ⟨signal, store, m'⟩ := r
      have hcount : s.found + 1 = f m' := by rw [hnoted hm, hanswer _ _ _ hr]
      cases signal with
      | proceed => exact hcount
      | halt => exact hcount.trans (hnote _ _ _).symm

theorem run_counted {f : σ → Nat} (hnote : ∀ s e m, f (client.note s e m) = f m)
    (hanswer : ∀ s m r, client.answer s m = some r → f r.2.2 = f m + 1) {n : Nat}
    {s t : State A σ} {halted : Bool} (h : run src client n s = some (halted, t))
    (hs : s.found = f s.memory) : t.found = f t.memory :=
  run_all (P := fun t => t.found = f t.memory) (step_counted hnote hanswer) n hs h

/-- A log that is kept from the beginning has an entry for every match. -/
theorem found_of_logs {β : Type w} {d : Client A (σ × List β)} (hd : d.Logs) {n : Nat}
    {s t : State A (σ × List β)} {halted : Bool} (h : run src d n s = some (halted, t))
    (hs : s.found = s.memory.2.length) : t.found = t.memory.2.length := by
  apply run_counted (f := fun m : σ × List β => m.2.length) _ _ h hs
  · intro st e m
    rw [hd.note]
  · intro st m r hr
    obtain ⟨b, hb⟩ := hd.answer st m r hr
    rw [hb, List.length_append, List.length_singleton]

/-- A client that always goes on stops no search. -/
theorem run_not_halted (hclient : ∀ s m r, client.answer s m = some r → r.1 = .proceed) {n : Nat}
    {s t : State A σ} {halted : Bool} (h : run src client n s = some (halted, t)) :
    halted = false := by
  induction n generalizing s with
  | zero => cases h
  | succ n ih =>
    rw [run] at h
    have htaken := step_taken src client n s
    generalize step src client n s = r at htaken h
    cases htaken with
    | cutOff => cases h
    | finished hm =>
      cases h
      rfl
    | next hm => exact ih h
    | @asked depth w points m hm =>
      cases hr : client.answer w.store m with
      | none =>
        rw [hr] at h
        cases h
      | some r =>
        obtain ⟨signal, store, m'⟩ := r
        obtain rfl : signal = .proceed := hclient _ _ _ hr
        rw [hr] at h
        exact ih h

end found

/-! ## Queries with two clients -/

section queries

variable [DecidableEq A] {src : Source A} {c : Client A σ} {d : Client A τ} {R : σ → τ → Prop}

/-- If the second client notes and answers whatever the first one does, then it sees every
    query of the first come to the same end. -/
theorem enumerate_related (hnote : ∀ s e m m', R m m' → R (c.note s e m) (d.note s e m'))
    (hanswer : ∀ s m m' r, R m m' → c.answer s m = some r →
      ∃ m'', d.answer s m' = some (r.1, r.2.1, m'') ∧ R r.2.2 m'')
    {n : Nat} {goals : List (Compound A)} {s s' : Store A} {m m₁ : σ} {q : τ} {ending : Ending}
    (hm : R m q) (h : enumerate src c n goals s m = some (ending, s', m₁)) :
    ∃ m₂, enumerate src d n goals s q = some (ending, s', m₂) ∧ R m₁ m₂ := by
  cases goals with
  | nil =>
    rw [enumerate_nil] at h ⊢
    obtain ⟨⟨signal, s₁, r⟩, hr, he⟩ := Option.map_eq_some_iff.mp h
    obtain ⟨r', hr', hrel⟩ := hanswer _ _ _ _ (hnote s (.opened 0) m q hm) hr
    cases he
    rw [hr']
    exact ⟨_, rfl, hnote _ _ _ _ hrel⟩
  | cons g rest =>
    rw [enumerate_cons] at h ⊢
    obtain ⟨⟨halted, t⟩, hrun, he⟩ := Option.map_eq_some_iff.mp h
    have hstart := hnote s (.opened (g :: rest).length) m q hm
    have hfirst : State.Related R (start src g rest s (c.note s (.opened (g :: rest).length) m))
        (start src g rest s (d.note s (.opened (g :: rest).length) q)) := .at hstart
    obtain ⟨t', hrun', ht⟩ := run_related hnote hanswer n hfirst hrun
    obtain @⟨w, points, found, r, r', hrel⟩ := ht
    cases he
    show ∃ m₂, Option.map _ (run src d n (start src g rest s _)) = _ ∧ _
    rw [hrun']
    exact ⟨_, rfl, hnote _ _ _ _ hrel⟩

/-- The log of a query has an entry for every match that the query counts. -/
theorem ending_found_of_logs {β : Type w} {d : Client A (σ × List β)} (hd : d.Logs) {n : Nat}
    {goals : List (Compound A)} {s s' : Store A} {m : σ} {q : σ × List β} {ending : Ending}
    (h : enumerate src d n goals s (m, []) = some (ending, s', q)) :
    ending.found = q.2.length := by
  have hclose : ∀ halted found st m₁, close d halted found st m₁ = (ending, s', q) →
      found = m₁.2.length → ending.found = q.2.length := by
    intro halted found st m₁ he hfound
    cases he
    rw [hd.note, ← hfound]
    cases halted <;> rfl
  cases goals with
  | nil =>
    rw [enumerate_nil] at h
    obtain ⟨r, hr, he⟩ := Option.map_eq_some_iff.mp h
    obtain ⟨b, hb⟩ := hd.answer _ _ _ hr
    apply hclose _ _ _ _ he
    rw [hb, hd.note]
    rfl
  | cons g rest =>
    rw [enumerate_cons] at h
    obtain ⟨r, hrun, he⟩ := Option.map_eq_some_iff.mp h
    apply hclose _ _ _ _ he
    apply found_of_logs hd hrun
    show 0 = (d.note s _ (m, [])).2.length
    rw [hd.note]
    rfl

/-- The client that keeps a log is told the same and answers the same. -/
theorem enumerate_recording (c : Client A σ) (n : Nat) (goals : List (Compound A)) (s : Store A)
    (m : σ) (log : List (Store A × Signal)) :
    enumerate src c n goals s m = (enumerate src c.recording n goals s (m, log)).map
      fun (ending, s', m') => (ending, s', m'.1) := by
  cases h : enumerate src c n goals s m with
  | some r =>
    obtain ⟨ending, s', m'⟩ := r
    obtain ⟨_, hrec, rfl⟩ := enumerate_related (d := c.recording) (R := fun m m' => m'.1 = m)
      (fun s e _ _ hm => congrArg (c.note s e) hm) (fun s m m' r hm hr => by
        obtain rfl := hm
        refine ⟨(r.2.2, m'.2 ++ [(s, r.1)]), ?_, rfl⟩
        simp only [Client.recording, hr, Option.map_some]) (q := (m, log)) rfl h
    rw [hrec]
    rfl
  | none =>
    cases hrec : enumerate src c.recording n goals s (m, log) with
    | none => rfl
    | some r =>
      obtain ⟨ending, s', m'⟩ := r
      obtain ⟨_, hback, -⟩ := enumerate_related (d := c) (R := fun m m' => m' = m.1)
        (fun s e _ _ hm => congrArg (c.note s e) hm) (fun s m m' r hm hr => by
          obtain ⟨q, hq, rfl⟩ := Option.map_eq_some_iff.mp hr
          exact ⟨q.2.2, by rw [hm]; exact hq, rfl⟩) (q := m) rfl hrec
      rw [h] at hback
      cases hback

end queries

/-! ## Up to the first answer to stop -/

section record

variable [DecidableEq A]

theorem prefix_reached_persisting (src : Source A) (c : Client A σ) (n : Nat)
    (s : State A (σ × List (Store A × Signal))) :
    s.memory.2 <+: (reached src c.persisting n s).memory.2 :=
  prefix_reached (c.following_logs _) n s

/-- How the search of a client comes out beside the one that always goes on, which comes
    out as `o'` and has come to the matches `new`. -/
inductive UpToStop (log : List (Store A × Signal))
    (o' : Option (Bool × State A (σ × List (Store A × Signal)))) :
    List (Store A × Signal) → Option (Bool × State A (σ × List (Store A × Signal))) → Prop where
  /-- The client would not have stopped at any of them. -/
  | never {new : List (Store A × Signal)} :
      (∀ q ∈ new, q.2 = .proceed) → UpToStop log o' new o'
  /-- The client stops at `view` and has been told of the matches up to there. -/
  | at (pre post : List (Store A × Signal)) {view : Store A}
      {t : State A (σ × List (Store A × Signal))} :
      (∀ q ∈ pre, q.2 = .proceed) → t.memory.2 = log ++ pre ++ [(view, .halt)] →
        UpToStop log o' (pre ++ (view, .halt) :: post) (some (true, t))

omit [DecidableEq A] in
theorem UpToStop.cons {log new : List (Store A × Signal)} {view : Store A}
    {o o' : Option (Bool × State A (σ × List (Store A × Signal)))}
    (h : UpToStop (log ++ [(view, .proceed)]) o' new o) :
    UpToStop log o' ((view, .proceed) :: new) o := by
  cases h with
  | never hnew => exact .never (List.forall_mem_cons.mpr ⟨rfl, hnew⟩)
  | «at» pre post hpre hlog =>
    refine .at ((view, .proceed) :: pre) post (List.forall_mem_cons.mpr ⟨rfl, hpre⟩) ?_
    rw [hlog]
    simp

/-- Up to the first answer to stop, the search of a client is the one that always goes on. -/
theorem run_recording (src : Source A) (c : Client A σ) (n : Nat)
    (s : State A (σ × List (Store A × Signal))) :
    ∃ new, (reached src c.persisting n s).memory.2 = s.memory.2 ++ new ∧
      UpToStop s.memory.2 (run src c.persisting n s) new (run src c.recording n s) := by
  -- a search that goes no further comes to no match
  have hnone : ∀ {o : Option (Bool × State A (σ × List (Store A × Signal)))} {l log},
      l = log → ∃ new, l = log ++ new ∧ UpToStop log o new o := fun {o l log} hl =>
    ⟨[], by rw [hl, List.append_nil], .never fun _ hq => nomatch hq⟩
  induction n generalizing s with
  | zero => exact hnone rfl
  | succ n ih =>
    rw [reached, run, run]
    have hself : s.Related (fun m m' => m' = m ∧ m.2 = s.memory.2) s := .at ⟨rfl, rfl⟩
    rcases step_related (c := c.recording) (d := c.persisting)
      (fun st e m m' h => ⟨congrArg (c.recording.note st e) h.1, h.2⟩) src n hself
      with hrel | ⟨depth, s₁, t₁, h₁, hs, ht⟩
    · generalize step src c.recording n s = r at hrel
      generalize step src c.persisting n s = r' at hrel
      cases hrel with
      | cutOff => exact hnone rfl
      | done hst =>
        obtain ⟨rfl, hlog⟩ := hst
        exact hnone hlog
      | next hst =>
        obtain ⟨rfl, hlog⟩ := hst
        rw [← hlog]
        exact ih _
    · -- a match: both clients answer, and the same but for the signal
      obtain @⟨⟨store, trail⟩, points, found, _, m, rfl, hlog⟩ := h₁
      have hrecording : c.recording.answer store m =
          (c.answer store m.1).map fun r => (r.1, r.2.1, r.2.2, m.2 ++ [(store, r.1)]) := rfl
      have hpersisting : c.persisting.answer store m =
          (c.answer store m.1).map fun r => (.proceed, r.2.1, r.2.2, m.2 ++ [(store, r.1)]) := rfl
      rw [hs, ht]
      simp only [hrecording, hpersisting]
      cases c.answer store m.1 with
      | none => exact hnone rfl
      | some r =>
        obtain ⟨signal, s', q⟩ := r
        cases signal with
        | proceed =>
          obtain ⟨new, hnew, h⟩ :=
            ih ⟨⟨s', trail⟩, points, found + 1, q, m.2 ++ [(store, .proceed)]⟩
          refine ⟨(store, .proceed) :: new, ?_, UpToStop.cons (hlog ▸ h)⟩
          rw [← hlog, List.append_cons]
          exact hnew
        | halt =>
          -- the one that goes on may come to further matches, but not to fewer
          obtain ⟨post, hpost⟩ := prefix_reached_persisting src c n
            ⟨⟨s', trail⟩, points, found + 1, q, m.2 ++ [(store, .halt)]⟩
          refine ⟨(store, .halt) :: post, ?_, .at [] post (fun _ hq => nomatch hq) ?_⟩
          · rw [← hlog, List.append_cons]
            exact hpost.symm
          · rw [← hlog, List.append_nil]
            rfl

/-! ## The record of a query -/

/-- The matches that a query has come to after `n` steps if its client goes on at each of
    them, and what the client itself would answer. -/
def record (src : Source A) (c : Client A σ) (n : Nat) (goals : List (Compound A))
    (store : Store A) (memory : σ) : List (Store A × Signal) :=
  match goals with
  | [] => (c.answer store (c.note store (.opened 0) memory)).toList.map fun r => (store, r.1)
  | g :: rest =>
    let memory := c.note store (.opened goals.length) memory
    (reached src c.persisting n (start src g rest store (memory, []))).memory.2

variable {c : Client A σ} {n : Nat} {goals : List (Compound A)} {s s' : Store A} {m m' : σ}

/-- Either the client would go on at all matches on record, and has the same query as the
    one that does; or it is stopped at the first one at which it would not. -/
theorem enumerate_recording_cases (src : Source A) (c : Client A σ) (n : Nat)
    (goals : List (Compound A)) (s : Store A) (m : σ) :
    (∀ q ∈ record src c n goals s m, q.2 = .proceed) ∧
        enumerate src c.recording n goals s (m, []) =
          enumerate src c.persisting n goals s (m, []) ∨
      ∃ pre view post s' m', record src c n goals s m = pre ++ (view, .halt) :: post ∧
        (∀ q ∈ pre, q.2 = .proceed) ∧ enumerate src c.recording n goals s (m, []) =
          some (.stopped (pre.length + 1), s', m', pre ++ [(view, .halt)]) := by
  cases goals with
  | nil =>
    have hrecording : enumerate src c.recording n [] s (m, []) =
        (c.answer s (c.note s (.opened 0) m)).map fun r =>
          close c.recording (r.1 = .halt) 1 r.2.1 (r.2.2, [(s, r.1)]) := by
      rw [enumerate_nil]
      exact Option.map_map ..
    have hpersisting : enumerate src c.persisting n [] s (m, []) =
        (c.answer s (c.note s (.opened 0) m)).map fun r =>
          close c.persisting false 1 r.2.1 (r.2.2, [(s, r.1)]) := by
      rw [enumerate_nil]
      exact Option.map_map ..
    rw [record, hrecording, hpersisting]
    cases c.answer s (c.note s (.opened 0) m) with
    | none => exact .inl ⟨fun _ hq => (nomatch hq), rfl⟩
    | some r =>
      obtain ⟨signal, s₁, m₁⟩ := r
      cases signal with
      | proceed => exact .inl ⟨fun q hq => by rw [List.mem_singleton.mp hq], rfl⟩
      | halt => exact .inr ⟨[], s, [], _, _, rfl, fun _ hq => (nomatch hq), rfl⟩
  | cons g rest =>
    let first : State A (σ × List (Store A × Signal)) :=
      start src g rest s (c.note s (.opened (g :: rest).length) m, [])
    obtain ⟨new, hnew, hup⟩ := run_recording src c n first
    have hrecord : record src c n (g :: rest) s m = new := hnew
    rw [hrecord, enumerate_cons, enumerate_cons]
    show _ ∧ Option.map _ (run src c.recording n first) =
        Option.map _ (run src c.persisting n first) ∨ ∃ pre view post s' m', _ ∧ _ ∧
      Option.map _ (run src c.recording n first) = _
    generalize hrun : run src c.recording n first = o at hup
    cases hup with
    | never h => exact .inl ⟨h, rfl⟩
    | @«at» pre post view t hpre hlog =>
      -- the search counts the matches that its client does
      have hfound : t.found = t.memory.2.length := found_of_logs c.recording_logs hrun rfl
      have hlog' : t.memory.2 = pre ++ [(view, .halt)] := hlog
      rw [hlog', List.length_append, List.length_singleton] at hfound
      let s' := (t.session.undoTo 0).store
      refine .inr ⟨pre, view, post, s',
        c.note s' (.closed (verdict true t.found) t.found) t.memory.1, rfl, hpre, ?_⟩
      rw [← hlog', ← hfound]
      rfl

variable {src : Source A} {c : Client A σ} {n : Nat} {goals : List (Compound A)} {s s' : Store A}
  {m m' : σ}

/-- If the query that always goes on returns, then after its last match, and its matches are
    on record. -/
theorem record_of_persisting {ending : Ending} {log : List (Store A × Signal)}
    (h : enumerate src c.persisting n goals s (m, []) = some (ending, s', m', log)) :
    ending = .exhausted log.length ∧ record src c n goals s m = log := by
  cases goals with
  | nil =>
    rw [enumerate_nil] at h
    obtain ⟨⟨signal, s₁, m₁⟩, hr, he⟩ := Option.map_eq_some_iff.mp h
    obtain ⟨q, hq, hq'⟩ := Option.map_eq_some_iff.mp hr
    cases hq'
    cases he
    refine ⟨rfl, ?_⟩
    rw [record]
    show (c.answer s (c.note s (.opened 0) m)).toList.map _ = _
    have hq' : c.answer s (c.note s (.opened 0) m) = some q := hq
    rw [hq']
    rfl
  | cons g rest =>
    rw [enumerate_cons] at h
    obtain ⟨⟨halted, t⟩, hrun, he⟩ := Option.map_eq_some_iff.mp h
    obtain rfl : halted = false := run_not_halted (fun s m r hr => by
      obtain ⟨q, -, rfl⟩ := Option.map_eq_some_iff.mp hr
      rfl) hrun
    have hfound : t.found = t.memory.2.length := found_of_logs (c.following_logs _) hrun rfl
    have hlog : t.memory.2 = log := congrArg (fun r => r.2.2.2) he
    have hending : Ending.exhausted t.found = ending := congrArg Prod.fst he
    refine ⟨?_, ?_⟩
    · rw [← hending, hfound, hlog]
    · rw [← hlog, ← reached_of_run hrun]
      rfl

/-- With more steps there are more matches on record, after those that were. -/
theorem record_mono {k : Nat} (hnk : n ≤ k) :
    record src c n goals s m <+: record src c k goals s m := by
  have hone : ∀ n (t : State A (σ × List (Store A × Signal))),
      (reached src c.persisting n t).memory.2 <+:
        (reached src c.persisting (n + 1) t).memory.2 := by
    intro n
    induction n with
    | zero => exact fun t => prefix_reached_persisting src c 1 t
    | succ n ih =>
      intro t
      have hsettles := step_settles src c.persisting n t
      cases hstep : step src c.persisting n t with
      | cutOff =>
        have hstay : reached src c.persisting (n + 1) t = t := by rw [reached, hstep]
        rw [hstay]
        exact prefix_reached_persisting src c _ t
      | done halted t' =>
        have hsame : reached src c.persisting (n + 2) t = reached src c.persisting (n + 1) t := by
          rw [reached, reached, hsettles (by simp [hstep]), hstep]
        exact ⟨[], by rw [List.append_nil, hsame]⟩
      | next t' =>
        rw [reached, reached, hsettles (by simp [hstep]), hstep]
        exact ih t'
  cases goals with
  | nil => exact List.prefix_refl _
  | cons g rest =>
    induction hnk with
    | refl => exact List.prefix_refl _
    | step _ ih => exact ih.trans (hone _ _)

omit [DecidableEq A] in
/-- The first entry at which the client would stop can be told from the others. -/
theorem eq_of_first_halt {pre pre' post post' : List (Store A × Signal)} {view view' : Store A}
    (h : pre ++ (view, .halt) :: post = pre' ++ (view', .halt) :: post')
    (hpre : ∀ q ∈ pre, q.2 = .proceed) (hpre' : ∀ q ∈ pre', q.2 = .proceed) :
    pre = pre' ∧ view = view' := by
  induction pre generalizing pre' with
  | nil =>
    cases pre' with
    | nil =>
      cases h
      exact ⟨rfl, rfl⟩
    | cons q pre' =>
      cases h
      cases hpre' _ (List.mem_cons_self ..)
  | cons q pre ih =>
    cases pre' with
    | nil =>
      cases h
      cases hpre _ (List.mem_cons_self ..)
    | cons q' pre' =>
      obtain ⟨rfl, hrest⟩ := List.cons.inj h
      obtain ⟨rfl, rfl⟩ := ih hrest (fun a ha => hpre a (List.mem_cons_of_mem _ ha))
        fun a ha => hpre' a (List.mem_cons_of_mem _ ha)
      exact ⟨rfl, rfl⟩

end record

/-! ## The first match, and all of them -/

section collecting

variable [DecidableEq A] {src : Source A} {β : Type w} {note : Store A → Event A → σ → σ}
  {extract : Store A → σ → Option (β × Store A × σ)}

omit [DecidableEq A] in
theorem collecting_answer {s : Store A} {m : σ × List β} {r : Signal × Store A × σ × List β}
    (h : (Client.collecting note extract).answer s m = some r) :
    ∃ b s' m', extract s m.1 = some (b, s', m') ∧ r = (.proceed, s', m', b :: m.2) := by
  obtain ⟨q, hq, rfl⟩ := Option.map_eq_some_iff.mp h
  exact ⟨q.1, q.2.1, q.2.2, hq, rfl⟩

omit [DecidableEq A] in
theorem collecting_answer_of_extract {s s' : Store A} {m : σ × List β} {m' : σ} {b : β}
    (h : extract s m.1 = some (b, s', m')) :
    (Client.collecting note extract).answer s m = some (.proceed, s', m', b :: m.2) := by
  simp only [Client.collecting, h, Option.map_some]

omit [DecidableEq A] in
theorem visiting_answer {s : Store A} {m : σ × List (Store A × σ)}
    {r : Signal × Store A × σ × List (Store A × σ)}
    (h : (Client.reading note extract).visiting.answer s m = some r) :
    ∃ b s' m', extract s m.1 = some (b, s', m') ∧
      r = (.proceed, s', m', m.2 ++ [(s, m.1)]) := by
  obtain ⟨q, hq, rfl⟩ := Option.map_eq_some_iff.mp h
  obtain ⟨e, he, rfl⟩ := Option.map_eq_some_iff.mp hq
  exact ⟨e.1, e.2.1, e.2.2, he, rfl⟩

omit [DecidableEq A] in
theorem visiting_answer_of_extract {s s' : Store A} {m : σ × List (Store A × σ)} {m' : σ} {b : β}
    (h : extract s m.1 = some (b, s', m')) :
    (Client.reading note extract).visiting.answer s m =
      some (.proceed, s', m', m.2 ++ [(s, m.1)]) := by
  simp only [Client.visiting, Client.reading, h, Option.map_some]

/-- A search that stops at the first match is stopped if the one that collects all of them
    collects any. -/
theorem run_halting_of_collecting {n : Nat} {s s' : State A (σ × List β)} {t : State A σ}
    (h : s.Related (fun m m' => m.1 = m' ∧ m.2 = []) t) (hs : s.found = 0) {halted : Bool}
    (hrun : run src (Client.collecting note extract) n s = some (halted, s')) :
    ∃ t', run src (Client.halting note) n t = some (decide (s'.memory.2 ≠ []), t') ∧
      (0 < t'.found ↔ s'.memory.2 ≠ []) := by
  have hfound : s'.found = s'.memory.2.length := by
    refine run_counted (f := fun m : σ × List β => m.2.length) (fun _ _ _ => rfl)
      (fun s m r hr => ?_) hrun ?_
    · obtain ⟨b, s', m', -, rfl⟩ := collecting_answer hr
      rfl
    · obtain ⟨-, hnil⟩ := h
      rw [hs, hnil]
      rfl
  obtain rfl : halted = false := run_not_halted (fun s m r hr => by
    obtain ⟨b, s', m', -, rfl⟩ := collecting_answer hr
    rfl) hrun
  clear hs
  induction n generalizing s t with
  | zero => cases hrun
  | succ n ih =>
    rw [run] at hrun ⊢
    rcases step_related (c := Client.collecting note extract) (d := Client.halting note)
      (fun st e m m' h => ⟨congrArg (note st e) h.1, h.2⟩) src n h
      with hrel | ⟨depth, s₁, t₁, h₁, hs, ht⟩
    · generalize step src (Client.collecting note extract) n s = r at hrel hrun
      generalize step src (Client.halting note) n t = r' at hrel
      cases hrel with
      | cutOff => cases hrun
      | next hst => exact ih hst hrun
      | done hst =>
        cases hrun
        obtain @⟨w, points, found, m, m', -, hnil⟩ := hst
        have hzero : found = 0 := hfound.trans (congrArg List.length hnil)
        simp [hnil, hzero]
    · -- a match: one search is over, and the other will not lose it any more
      obtain @⟨⟨store, trail⟩, points, found, m, m', rfl, hnil⟩ := h₁
      rw [hs] at hrun
      rw [ht]
      simp only at hrun
      cases hr : (Client.collecting note extract).answer store m with
      | none =>
        rw [hr] at hrun
        cases hrun
      | some r =>
        obtain ⟨b, st, q, -, rfl⟩ := collecting_answer hr
        rw [hr] at hrun
        have hsome : s'.memory.2 ≠ [] := by
          refine run_all (P := fun s : State A (σ × List β) => s.memory.2 ≠ [])
            (fun n s hs => step_keeps (P := fun m : σ × List β => m.2 ≠ []) (fun _ _ _ hm => hm)
              (fun s m r _ hr => ?_) n hs) n (List.cons_ne_nil b m.2) hrun
          obtain ⟨b, s', m', -, rfl⟩ := collecting_answer hr
          exact List.cons_ne_nil b m.2
        exact ⟨_, by rw [decide_eq_true hsome]; rfl, iff_of_true (Nat.succ_pos _) hsome⟩

theorem enumerate_halting_of_collecting {n : Nat} {goals : List (Compound A)} {s s' : Store A}
    {m m' : σ} {ending : Ending} {found : List β}
    (h : enumerate src (Client.collecting note extract) n goals s (m, []) =
      some (ending, s', m', found)) :
    ∃ ending' s'' m'', enumerate src (Client.halting note) n goals s m =
      some (ending', s'', m'') ∧ (0 < ending'.found ↔ found ≠ []) := by
  cases goals with
  | nil =>
    rw [enumerate_nil] at h ⊢
    obtain ⟨r, hr, he⟩ := Option.map_eq_some_iff.mp h
    obtain ⟨b, st, q, -, rfl⟩ := collecting_answer hr
    cases he
    exact ⟨_, _, _, rfl, iff_of_true Nat.one_pos (List.cons_ne_nil _ _)⟩
  | cons g rest =>
    rw [enumerate_cons] at h ⊢
    obtain ⟨⟨halted, t⟩, hrun, he⟩ := Option.map_eq_some_iff.mp h
    let m₁ := note s (.opened (g :: rest).length) m
    have hfirst : (start src g rest s (m₁, ([] : List β))).Related
        (fun m m' => m.1 = m' ∧ m.2 = []) (start src g rest s m₁) := .at ⟨rfl, rfl⟩
    obtain ⟨t', hrun', hfound⟩ := run_halting_of_collecting hfirst rfl hrun
    have hsame : t.memory.2 = found := congrArg (fun r => r.2.2.2) he
    rw [hsame] at hrun' hfound
    refine ⟨_, _, _, congrArg (Option.map _) hrun', ?_⟩
    show 0 < (if _ then Ending.stopped t'.found else Ending.exhausted t'.found).found ↔ _
    split <;> exact hfound

/-- If the query of the client that only reads returns, so does that of the one that
    collects. -/
theorem exists_collecting_of_visiting {n : Nat} {goals : List (Compound A)} {s s' : Store A}
    {m m' : σ} {ending : Ending} {visits : List (Store A × σ)}
    (h : enumerate src (Client.reading note extract).visiting n goals s (m, []) =
      some (ending, s', m', visits)) :
    ∃ found, enumerate src (Client.collecting note extract) n goals s (m, []) =
      some (ending, s', m', found) := by
  let c : Client A (σ × List (Store A × σ)) := (Client.reading note extract).visiting
  let d : Client A (σ × List β) := .collecting note extract
  have hanswer : ∀ s (m : σ × List (Store A × σ)) (m' : σ × List β) r, m'.1 = m.1 →
      c.answer s m = some r →
        ∃ m'', d.answer s m' = some (r.1, r.2.1, m'') ∧ m''.1 = r.2.2.1 := by
    intro s m m' r hm hr
    obtain ⟨b, s', q, hb, rfl⟩ := visiting_answer hr
    exact ⟨(q, b :: m'.2), collecting_answer_of_extract (hm ▸ hb), rfl⟩
  obtain ⟨⟨_, found⟩, hcollect, rfl⟩ := enumerate_related (c := c) (d := d) (q := (m, []))
    (fun s e _ _ hm => congrArg (note s e) hm) hanswer rfl h
  exact ⟨found, hcollect⟩

/-- To collect is to go on, so the query that collects is the one that always goes on, and
    its matches are on record. -/
theorem persisting_of_collecting {n : Nat} {goals : List (Compound A)} {s s' : Store A}
    {m m' : σ} {ending : Ending} {found : List β}
    (h : enumerate src (Client.collecting note extract) n goals s (m, []) =
      some (ending, s', m', found)) :
    ∃ log, enumerate src (Client.collecting note extract).persisting n goals s ((m, []), []) =
        some (.exhausted log.length, s', (m', found), log) ∧
      record src (Client.collecting note extract) n goals s (m, []) = log := by
  let c : Client A (σ × List β) := .collecting note extract
  have hanswer : ∀ s m (m' : (σ × List β) × List (Store A × Signal)) r, m'.1 = m →
      c.answer s m = some r →
        ∃ m'', c.persisting.answer s m' = some (r.1, r.2.1, m'') ∧ m''.1 = r.2.2 := by
    intro s m m' r hm hr
    obtain rfl := hm
    obtain ⟨b, s', q, hb, rfl⟩ := collecting_answer hr
    refine ⟨((q, b :: m'.1.2), m'.2 ++ [(s, .proceed)]), ?_, rfl⟩
    show Option.map _ (c.answer s m'.1) = _
    rw [hr]
    rfl
  obtain ⟨⟨_, log⟩, hpersisting, rfl⟩ := enumerate_related (d := c.persisting)
    (q := ((m, []), [])) (fun s e _ _ hm => congrArg (c.note s e) hm) hanswer rfl h
  obtain ⟨rfl, hrecord⟩ := record_of_persisting hpersisting
  exact ⟨log, hpersisting, hrecord⟩

/-- One client has collected things and keeps a log of its matches, another one a log of its
    visits: they have the same memory and have been told of the same matches, and each thing
    is what `extract` reads at a visit. -/
structure CollectedAt (extract : Store A → σ → Option (β × Store A × σ))
    (q : (σ × List β) × List (Store A × Signal)) (q' : σ × List (Store A × σ)) : Prop where
  memory : q'.1 = q.1.1
  views : q'.2.map Prod.fst = q.2.map Prod.fst
  read : List.Forall₂ (fun visit b => ∃ s' m', extract visit.1 visit.2 = some (b, s', m'))
    q'.2 q.1.2.reverse

omit [DecidableEq A] in
/-- At every match there is one more of each. -/
theorem CollectedAt.answer {q : (σ × List β) × List (Store A × Signal)}
    {q' : σ × List (Store A × σ)} (h : CollectedAt extract q q') (s : Store A)
    {r : Signal × Store A × (σ × List β) × List (Store A × Signal)}
    (hr : (Client.collecting note extract).persisting.answer s q = some r) :
    ∃ q'', (Client.reading note extract).visiting.answer s q' = some (r.1, r.2.1, q'') ∧
      CollectedAt extract r.2.2 q'' := by
  obtain ⟨a, ha, rfl⟩ := Option.map_eq_some_iff.mp hr
  obtain ⟨b, s', m₁, hb, rfl⟩ := collecting_answer ha
  rw [← h.memory] at hb
  refine ⟨(m₁, q'.2 ++ [(s, q'.1)]), visiting_answer_of_extract hb, rfl, ?_, ?_⟩
  · show (q'.2 ++ _).map _ = (q.2 ++ _).map _
    rw [List.map_append, List.map_append, h.views]
    rfl
  · show List.Forall₂ _ _ (b :: q.1.2).reverse
    rw [List.reverse_cons]
    exact List.rel_append h.read (.cons ⟨_, _, hb⟩ .nil)

/-- What is collected is what `extract` reads at the matches on record, one after the other,
    each time with the memory that the client has come to. -/
theorem exists_visiting_of_collecting {n : Nat} {goals : List (Compound A)} {s s' : Store A}
    {m m' : σ} {ending : Ending} {found : List β}
    (h : enumerate src (Client.collecting note extract) n goals s (m, []) =
      some (ending, s', m', found)) :
    ∃ visits,
      enumerate src (Client.reading note extract).visiting n goals s (m, []) =
          some (.exhausted found.length, s', m', visits) ∧
        visits.map Prod.fst =
          (record src (Client.collecting note extract) n goals s (m, [])).map Prod.fst ∧
        List.Forall₂ (fun visit b => ∃ s' m', extract visit.1 visit.2 = some (b, s', m'))
          visits found.reverse := by
  obtain ⟨log, hpersisting, hrecord⟩ := persisting_of_collecting h
  obtain ⟨⟨_, visits⟩, hvisiting, rfl, hviews, hread⟩ := enumerate_related
    (R := CollectedAt extract) (q := (m, []))
    (fun s e _ _ hq => ⟨congrArg (note s e) hq.memory, hq.views, hq.read⟩)
    (fun s _ _ _ hq hr => hq.answer s hr) ⟨rfl, rfl, .nil⟩ hpersisting
  have hviews : visits.map Prod.fst = log.map Prod.fst := hviews
  have hread : List.Forall₂ _ visits found.reverse := hread
  -- so there are as many matches as there are things read
  have hlength : log.length = found.length := by
    have hmatches := congrArg List.length hviews
    rw [List.length_map, List.length_map, hread.length_eq, List.length_reverse] at hmatches
    exact hmatches.symm
  rw [hlength] at hvisiting
  exact ⟨visits, hvisiting, hrecord ▸ hviews, hread⟩

end collecting

end Search

/-! ## Queries -/

section program

variable [DecidableEq A] (p : Program A) (n : Nat) (goals : List (Compound A)) (s : Store A)

/-- The matches that a query has come to after `n` steps if its client goes on at each of
    them, and what the client itself would answer. -/
def Program.record (c : Client A σ) (m : σ) : List (Store A × Signal) :=
  Search.record p.source c n goals s m

/-- **Stopping early gives a prefix.**  Let `record` be the matches that the query reports to
    a client which does what `c` does but always goes on, each with what `c` answers there;
    there may be no end to them.

    If `c` answers to stop at one of them, and at none before, its own query is told of just
    the matches up to there, and returns that it has been stopped after so many.  If it
    stops at none, its own query is the one that goes on; and when that returns, then
    after all matches, of which it gives the number.

    `findAll` returns just if the query does that reads the store in the same way and always
    goes on.  It finds what is read at each of the matches of that query, in their order and
    with what is remembered there, and `ask` says whether it finds any. -/
theorem stopping_reports_first_matches (c : Client A σ) (m : σ) :
    (∀ pre view post, p.record n goals s c m = pre ++ (view, .halt) :: post →
      (∀ q ∈ pre, q.2 = .proceed) → ∃ s' m', p.enumerate c.recording n goals s (m, []) =
        some (.stopped (pre.length + 1), s', m', pre ++ [(view, .halt)])) ∧
    ((∀ q ∈ p.record n goals s c m, q.2 = .proceed) →
      p.enumerate c.recording n goals s (m, []) = p.enumerate c.persisting n goals s (m, [])) ∧
    (∀ ending s' m' log,
      p.enumerate c.persisting n goals s (m, []) = some (ending, s', m', log) →
      ending = .exhausted log.length ∧ p.record n goals s c m = log) ∧
    (∀ k, n ≤ k → p.record n goals s c m <+: p.record k goals s c m) ∧
    p.enumerate c n goals s m = (p.enumerate c.recording n goals s (m, [])).map
      (fun (ending, s', m') => (ending, s', m'.1)) ∧
    ∀ (β : Type w) (note : Store A → Event A → σ → σ)
      (extract : Store A → σ → Option (β × Store A × σ)),
      (∀ ending s' m' visits,
        p.enumerate (Client.reading note extract).visiting n goals s (m, []) =
            some (ending, s', m', visits) →
          ∃ found, p.findAll note extract n goals s m = some (found, s', m')) ∧
      ∀ found s' m', p.findAll note extract n goals s m = some (found, s', m') →
        (∃ s' m', p.ask note n goals s m = some (decide (found ≠ []), s', m')) ∧
        (∀ k b s' m', p.ask note k goals s m = some (b, s', m') → b = decide (found ≠ [])) ∧
        ∃ visits,
          p.enumerate (Client.reading note extract).visiting n goals s (m, []) =
              some (.exhausted found.length, s', m', visits) ∧
            visits.map Prod.fst =
              (p.record n goals s (.collecting note extract) (m, [])).map Prod.fst ∧
            List.Forall₂ (fun visit b => ∃ s' m', extract visit.1 visit.2 = some (b, s', m'))
              visits found := by
  refine ⟨fun pre view post hrecord hpre => ?_, fun hall => ?_, fun _ _ _ _ h =>
    Search.record_of_persisting h, fun _ hk => Search.record_mono hk,
    Search.enumerate_recording c n goals s m [], fun β note extract =>
    ⟨fun ending s' m' visits h => ?_, fun found s' m' h => ?_⟩⟩
  · rcases Search.enumerate_recording_cases p.source c n goals s m with ⟨hall, -⟩ |
      ⟨pre', view', post', s', m', hrecord', hpre', h⟩
    · have hmem : (view, Signal.halt) ∈ Search.record p.source c n goals s m := by
        rw [show Search.record p.source c n goals s m = _ from hrecord]
        exact List.mem_append_right _ (List.mem_cons_self ..)
      cases hall _ hmem
    · obtain ⟨rfl, rfl⟩ := Search.eq_of_first_halt (hrecord.symm.trans hrecord') hpre hpre'
      exact ⟨s', m', h⟩
  · rcases Search.enumerate_recording_cases p.source c n goals s m with ⟨-, h⟩ |
      ⟨pre, view, post, s', m', hrecord, -, -⟩
    · exact h
    · have hmem : (view, Signal.halt) ∈ p.record n goals s c m := by
        rw [show p.record n goals s c m = _ from hrecord]
        exact List.mem_append_right _ (List.mem_cons_self ..)
      cases hall _ hmem
  · obtain ⟨found, hcollect⟩ := Search.exists_collecting_of_visiting h
    exact ⟨found.reverse, Option.map_eq_some_iff.mpr ⟨_, hcollect, rfl⟩⟩
  · obtain ⟨⟨ending, s₁, m₁, found'⟩, hcollect, he⟩ := Option.map_eq_some_iff.mp h
    cases he
    obtain ⟨ending', s₂, m₂, hask, hfound⟩ := Search.enumerate_halting_of_collecting hcollect
    have hsome : decide (0 < ending'.found) = decide (found'.reverse ≠ []) :=
      decide_eq_decide.mpr (hfound.trans (not_congr List.reverse_eq_nil_iff.symm))
    have hn : p.ask note n goals s m = some (decide (found'.reverse ≠ []), s₂, m₂) := by
      rw [← hsome]
      exact Option.map_eq_some_iff.mpr ⟨_, hask, rfl⟩
    have hvisits := Search.exists_visiting_of_collecting hcollect
    rw [← List.length_reverse] at hvisits
    refine ⟨⟨s₂, m₂, hn⟩, fun k b s' m' hk => ?_, hvisits⟩
    -- with as many levels as either has, both answers are the same
    have hleft := Program.ask_mono (Nat.le_max_left n k) hn
    have hright := Program.ask_mono (Nat.le_max_right n k) hk
    rw [hleft] at hright
    cases hright
    rfl

end program

/-- Counts the matches it is told of, and stops at the second. -/
def untilSecond : Client Nat Nat where
  note _ _ m := m
  answer s m := some (if m = 1 then .halt else .proceed, s, m + 1)

/-- Reads how many matches there have been before. -/
def countOff : Store Nat → Nat → Option (Nat × Store Nat × Nat) :=
  fun s m => some (m, s, m + 1)

/-- The query for `0(X), 0(Y)` has four matches; a client that would stop at the second is
    told of two.  `findAll` reads at each of them how many there have been before, with what
    is remembered at that moment, and so `ask` says that there are some. -/
theorem second_of_four_matches :
    (evens.record 20 [⟨0, [.var ⟨0⟩]⟩, ⟨0, [.var ⟨1⟩]⟩] (Store.empty.freshMany 2).2
        untilSecond 0).map Prod.snd = [.proceed, .halt, .proceed, .proceed] ∧
      (∃ s' m' log, evens.enumerate untilSecond.recording 20
          [⟨0, [.var ⟨0⟩]⟩, ⟨0, [.var ⟨1⟩]⟩] (Store.empty.freshMany 2).2 (0, []) =
        some (.stopped 2, s', m', log) ∧ log.length = 2) ∧
      (∃ s', evens.findAll (fun _ _ m => m) countOff 20 [⟨0, [.var ⟨0⟩]⟩, ⟨0, [.var ⟨1⟩]⟩]
        (Store.empty.freshMany 2).2 0 = some ([0, 1, 2, 3], s', 4)) ∧
      (∃ visits : List (Store Nat × Nat), visits.map Prod.snd = [0, 1, 2, 3] ∧
        visits.map Prod.fst = (evens.record 20 [⟨0, [.var ⟨0⟩]⟩, ⟨0, [.var ⟨1⟩]⟩]
          (Store.empty.freshMany 2).2 (.collecting (fun _ _ m => m) countOff)
            (0, [])).map Prod.fst) ∧
      ∃ s' m', evens.ask (fun _ _ m => m) 20 [⟨0, [.var ⟨0⟩]⟩, ⟨0, [.var ⟨1⟩]⟩]
        (Store.empty.freshMany 2).2 0 = some (true, s', m') := by
  have hsignals : (evens.record 20 [⟨0, [.var ⟨0⟩]⟩, ⟨0, [.var ⟨1⟩]⟩] (Store.empty.freshMany 2).2
      untilSecond 0).map Prod.snd = [.proceed, .halt, .proceed, .proceed] := by
    decide
  have hfindAll : (evens.findAll (fun _ _ m => m) countOff 20
      [⟨0, [.var ⟨0⟩]⟩, ⟨0, [.var ⟨1⟩]⟩] (Store.empty.freshMany 2).2 0).map
        (fun r => (r.1, r.2.2)) = some ([0, 1, 2, 3], 4) := by
    decide
  refine ⟨hsignals, ?_, ?_⟩
  · -- what is on record can be told from the answers
    obtain ⟨first, rest, hrecord, hfirst, hrest⟩ := List.map_eq_cons_iff.mp hsignals
    obtain ⟨⟨view, signal⟩, more, rfl, hsecond, -⟩ := List.map_eq_cons_iff.mp hrest
    obtain rfl : signal = .halt := hsecond
    obtain ⟨s', m', h⟩ := (stopping_reports_first_matches.{0, 0, 0} evens 20 _ _ untilSecond 0).1
      [first] view more hrecord fun q hq => by rw [List.mem_singleton.mp hq, hfirst]
    exact ⟨s', m', _, h, rfl⟩
  · obtain ⟨⟨found, s', m'⟩, hfound, he⟩ := Option.map_eq_some_iff.mp hfindAll
    cases he
    obtain ⟨-, -, -, -, -, hcollect⟩ :=
      stopping_reports_first_matches.{0, 0, 0} evens 20 _ _ untilSecond 0
    obtain ⟨⟨s₁, m₁, hask⟩, -, visits, -, hviews, hread⟩ :=
      (hcollect Nat (fun _ _ m => m) countOff).2 _ _ _ hfound
    refine ⟨⟨s', hfound⟩, ⟨visits, ?_, hviews⟩, s₁, m₁, hask⟩
    -- `countOff` reads the memory
    have hmemory : List.Forall₂ (· = ·) (visits.map Prod.snd) [0, 1, 2, 3] :=
      List.forall₂_map_left_iff.mpr (hread.imp fun visit b ⟨_, _, hb⟩ => by cases hb; rfl)
    exact List.forall₂_eq_eq_eq ▸ hmemory

end Horn
