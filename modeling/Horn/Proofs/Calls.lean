import Horn.Proofs.Answers
import Horn.Proofs.InScope

/-! # Where a client is called

    A client is called at every match, also by a query that never returns.  The stores
    in which it has been called are read off as many steps as one likes:

    * `Client.logging` keeps a log of the stores in which a client is called;
    * `Search.reached` is the state that a search has come to, over or not;
    * `Program.calls` is the log of a query at that moment.

    Two clients that note the same take a search through the same steps up to its next
    question (`step_related`).  So the query may be compared with one that is stopped at
    the match in question (`exists_halted_of_calls`), or, if all answers are
    to go on, with one that follows these answers (`calls_of_proceeding`). -/

namespace Horn

universe u v w

variable {A : Type u} {σ : Type v} {τ : Type w}

/-- The client that does what `c` does and keeps a log of the stores in which it is
    called.  Where `c` comes to no answer nobody is called any more: the search is
    stopped. -/
def Client.logging (c : Client A σ) : Client A (σ × List (Store A)) where
  note s e m := (c.note s e m.1, m.2)
  answer s m :=
    match c.answer s m.1 with
    | none => some (.halt, s, m.1, m.2 ++ [s])
    | some (signal, s', m') => some (signal, s', m', m.2 ++ [s])

/-- There always is an answer, and the log has grown by the store it was called for in. -/
theorem Client.exists_logging_answer (c : Client A σ) (s : Store A) (m : σ × List (Store A)) :
    ∃ signal s' m', c.logging.answer s m = some (signal, s', m', m.2 ++ [s]) := by
  simp only [logging]
  cases c.answer s m.1 with
  | none => exact ⟨_, _, _, rfl⟩
  | some r => exact ⟨_, _, _, rfl⟩

/-- The log is kept in memory, so the store is left as `c` leaves it. -/
theorem Client.logging_faithful {c : Client A σ} (hc : Faithful c.answer) :
    Faithful c.logging.answer := by
  intro s m b s' m' hs h
  simp only [logging] at h
  split at h
  · cases h
    exact .refl hs
  · next h' =>
    cases h
    exact hc _ _ _ _ _ hs h'

theorem Client.logging_inScope {n₀ : Nat} {c : Client A σ} (hc : InScope n₀ c.answer) :
    InScope n₀ c.logging.answer := by
  intro s m b s' m' hle hs hscope h
  simp only [logging] at h
  split at h
  · cases h
    exact hscope
  · next h' =>
    cases h
    exact hc _ _ _ _ _ hle hs hscope h'

/-- The client keeps a log, which grows by an entry at every match. -/
structure Client.Logs {β : Type w} (d : Client A (σ × List β)) : Prop where
  note : ∀ s e m, (d.note s e m).2 = m.2
  answer : ∀ s m r, d.answer s m = some r → ∃ b, r.2.2.2 = m.2 ++ [b]

theorem Client.logging_logs (c : Client A σ) : c.logging.Logs where
  note _ _ _ := rfl
  answer s m r hr := by
    obtain ⟨signal, s', m', hlog⟩ := c.exists_logging_answer s m
    rw [hlog] at hr
    cases hr
    exact ⟨s, rfl⟩

theorem Client.following_logs (c : Client A σ) (answers : Nat → Signal) :
    (c.following answers).Logs where
  note _ _ _ := rfl
  answer s m r hr := by
    obtain ⟨q, -, rfl⟩ := Option.map_eq_some_iff.mp hr
    exact ⟨_, rfl⟩

namespace Search

/-! ## Searches with two clients -/

/-- The searches are at the same point, and what their clients remember is related. -/
inductive State.Related (R : σ → τ → Prop) : State A σ → State A τ → Prop where
  | at {w : Session A} {points : List (ChoicePoint A)} {found : Nat} {m : σ} {m' : τ} :
      R m m' → Related R ⟨w, points, found, m⟩ ⟨w, points, found, m'⟩

/-- The steps lead to the same point, or are both cut off. -/
inductive Step.Related (R : σ → τ → Prop) : Step A σ → Step A τ → Prop where
  | next {s : State A σ} {t : State A τ} : s.Related R t → Related R (.next s) (.next t)
  | done {halted : Bool} {s : State A σ} {t : State A τ} :
      s.Related R t → Related R (.done halted s) (.done halted t)
  | cutOff : Related R .cutOff .cutOff

/-- Where a search goes from a match, by the answer of its client. -/
def answered (client : Client A σ) (depth : Nat) (s : State A σ) :
    Option (Signal × Store A × σ) → Step A σ
  | none => .cutOff
  | some (.proceed, store, memory) =>
    .next ⟨⟨store, s.session.trail⟩, s.points, s.found + 1, memory⟩
  | some (.halt, store, memory) =>
    .done true ⟨⟨store, s.session.trail⟩, s.points, s.found + 1,
      client.note store (.stopped depth) memory⟩

theorem advance_nil (src : Source A) (client : Client A σ) (depth : Nat) (s : State A σ) :
    advance src client depth [] s =
      answered client depth s (client.answer s.session.store s.memory) := by
  obtain ⟨⟨store, trail⟩, points, found, memory⟩ := s
  rfl

section related

variable {src : Source A} {c : Client A σ} {d : Client A τ} {R : σ → τ → Prop}

/-- The steps are related, or come to one question at the same point. -/
def Step.RelatedOrAsk (c : Client A σ) (d : Client A τ) (R : σ → τ → Prop) (step : Step A σ)
    (step' : Step A τ) : Prop :=
  Step.Related R step step' ∨
    ∃ (depth : Nat) (s : State A σ) (t : State A τ), s.Related R t ∧
      step = answered c depth s (c.answer s.session.store s.memory) ∧
      step' = answered d depth t (d.answer t.session.store t.memory)

variable (hnote : ∀ s e m m', R m m' → R (c.note s e m) (d.note s e m'))
include hnote

theorem advance_related (depth : Nat) (goals : List (Goal A)) {s : State A σ} {t : State A τ}
    (h : s.Related R t) :
    Step.RelatedOrAsk c d R (advance src c depth goals s) (advance src d depth goals t) := by
  cases goals with
  | nil => exact .inr ⟨depth, s, t, h, advance_nil src c depth s, advance_nil src d depth t⟩
  | cons g rest =>
    left
    obtain ⟨hm⟩ := h
    -- without a question the clients are at most told of a goal that is given up
    unfold advance
    by_cases hdeep : tooDeep src.options g.depth = true
    · simp only [hdeep, if_true]
      exact .next (.at (hnote _ _ _ _ hm))
    · simp only [hdeep, Bool.false_eq_true, if_false]
      exact .next (.at hm)

variable [DecidableEq A]

theorem attempt_related (n : Nat) (point : ChoicePoint A) (cl : Clause A) {s : State A σ}
    {t : State A τ} (h : s.Related R t) :
    Step.RelatedOrAsk c d R (attempt src c n point cl s) (attempt src d n point cl t) := by
  obtain ⟨hm⟩ := h
  unfold attempt
  simp only
  split
  · exact .inl .cutOff
  · -- either client is told of the attempt, and then how it went
    split
    · exact .inl .cutOff
    · exact .inl (.next (.at (hnote _ _ _ _ (hnote _ _ _ _ hm))))
    · split
      · exact .inl .cutOff
      · exact advance_related hnote _ _ (.at (hnote _ _ _ _ (hnote _ _ _ _ hm)))

/-- Clients that note the same see a search take the same step, up to a question. -/
theorem step_related (src : Source A) (n : Nat) {s : State A σ} {t : State A τ}
    (h : s.Related R t) :
    Step.RelatedOrAsk c d R (step src c n s) (step src d n t) := by
  obtain @⟨w, points, found, m, m', hm⟩ := h
  cases points with
  | nil => exact .inl (.done (.at hm))
  | cons point points =>
    unfold step
    simp only
    split
    · exact .inl (.next (.at (hnote _ _ _ _ hm)))
    · exact attempt_related hnote n point _ (.at hm)

/-- If moreover the second client answers whatever the first one does, then it sees
    every run of the first come to the same end. -/
theorem run_related
    (hanswer : ∀ s m m' r, R m m' → c.answer s m = some r →
      ∃ m'', d.answer s m' = some (r.1, r.2.1, m'') ∧ R r.2.2 m'')
    (n : Nat) {s s' : State A σ} {t : State A τ} (h : s.Related R t) {halted : Bool}
    (hrun : run src c n s = some (halted, s')) :
    ∃ t', run src d n t = some (halted, t') ∧ s'.Related R t' := by
  induction n generalizing s t with
  | zero => cases hrun
  | succ n ih =>
    -- after an answer as before it the two searches are at the same point
    have hstep : Step.Related R (step src c n s) (step src d n t) ∨
        step src c n s = .cutOff := by
      rcases step_related hnote src n h with hrel | ⟨depth, s₁, t₁, ⟨hm⟩, hs, ht⟩
      · exact .inl hrel
      · rw [hs, ht]
        simp only
        cases hc : c.answer _ _ with
        | none => exact .inr rfl
        | some r =>
          obtain ⟨signal, store, m₁⟩ := r
          obtain ⟨m₂, hd, hm₂⟩ := hanswer _ _ _ _ hm hc
          left
          rw [hd]
          cases signal with
          | proceed => exact .next (.at hm₂)
          | halt => exact .done (.at (hnote _ _ _ _ hm₂))
    rw [run] at hrun ⊢
    generalize step src c n s = r at hrun hstep
    generalize step src d n t = r' at hstep ⊢
    rcases hstep with hrel | rfl
    · cases hrel with
      | next hst => exact ih hst hrun
      | done hst =>
        cases hrun
        exact ⟨_, rfl, hst⟩
      | cutOff => cases hrun
    · cases hrun

end related

section keeps

variable [DecidableEq A] {src : Source A} {client : Client A σ} {P : σ → Prop}

/-- What the notes and answers of a client keep of its memory, a step keeps. -/
theorem step_keeps (hnote : ∀ s e m, P m → P (client.note s e m))
    (hanswer : ∀ s m r, P m → client.answer s m = some r → P r.2.2) (n : Nat) {s : State A σ}
    (hs : P s.memory) : (step src client n s).All fun s => P s.memory := by
  -- the client is compared with itself
  have hsame : s.Related (fun m m' => m' = m ∧ P m) s := .at ⟨rfl, hs⟩
  rcases step_related (c := client) (d := client)
    (fun s e m m' h => ⟨congrArg _ h.1, hnote s e m h.2⟩) src n hsame
    with hrel | ⟨_, s₁, t₁, h, heq, -⟩
  · generalize step src client n s = r at hrel
    cases hrel with
    | next h => obtain ⟨-, hm⟩ := h; exact hm
    | done h => obtain ⟨-, hm⟩ := h; exact hm
    | cutOff => trivial
  · obtain ⟨-, hm⟩ := h
    rw [heq]
    simp only
    cases hr : client.answer _ _ with
    | none => trivial
    | some r =>
      obtain ⟨signal, store, m'⟩ := r
      cases signal with
      | proceed => exact hanswer _ _ _ hm hr
      | halt => exact hnote _ _ _ (hanswer _ _ _ hm hr)

/-- A log that goes on from `log` still does after a step. -/
theorem step_prefix {β : Type w} {d : Client A (σ × List β)} (hd : d.Logs) {log : List β} (n : Nat)
    {s : State A (σ × List β)} (hs : log <+: s.memory.2) :
    (step src d n s).All fun t => log <+: t.memory.2 := by
  apply step_keeps (P := fun m : σ × List β => log <+: m.2)
  · intro st e m hm
    rw [hd.note]
    exact hm
  · intro st m r hm hr
    obtain ⟨b, hb⟩ := hd.answer st m r hr
    rw [hb]
    exact hm.trans (List.prefix_append _ _)
  · exact hs

end keeps

/-! ## What a search has come to -/

section reached

variable [DecidableEq A]

/-- The state after `n` steps, or that in which the search is over or a step takes more
    levels than are left. -/
def reached (src : Source A) (client : Client A σ) : Nat → State A σ → State A σ
  | 0, s => s
  | n + 1, s =>
    match step src client n s with
    | .cutOff => s
    | .done _ s => s
    | .next s => reached src client n s

variable {src : Source A} {client : Client A σ}

/-- What every step keeps holds of every state that is reached. -/
theorem reached_all {P : State A σ → Prop} (hstep : ∀ n s, P s → (step src client n s).All P)
    (n : Nat) {s : State A σ} (hs : P s) : P (reached src client n s) := by
  induction n generalizing s with
  | zero => exact hs
  | succ n ih =>
    have hnext : (step src client n s).All P := hstep n s hs
    rw [reached]
    generalize step src client n s = r at hnext
    cases r with
    | cutOff => exact hs
    | done halted s₁ => exact hnext
    | next s₁ => exact ih hnext

/-- A run that is over has reached the state it ends in. -/
theorem reached_of_run {n : Nat} {s s' : State A σ} {halted : Bool}
    (h : run src client n s = some (halted, s')) : reached src client n s = s' := by
  induction n generalizing s with
  | zero => cases h
  | succ n ih =>
    rw [run] at h
    rw [reached]
    generalize step src client n s = r at h
    cases r with
    | cutOff => cases h
    | done halted s₁ =>
      cases h
      rfl
    | next s₁ => exact ih h

/-- A log that is kept in memory only grows. -/
theorem prefix_reached {β : Type w} {d : Client A (σ × List β)} (hd : d.Logs) (n : Nat)
    (s : State A (σ × List β)) : s.memory.2 <+: (reached src d n s).memory.2 := by
  apply reached_all (P := fun t : State A (σ × List β) => s.memory.2 <+: t.memory.2)
  · intro n t ht
    apply step_prefix hd n ht
  · exact List.prefix_refl _

omit [DecidableEq A] in
/-- A log with one entry more is what a longer one has up to there. -/
theorem log_eq_take {log longer : List (Store A)} {store : Store A}
    (h : log ++ [store] <+: longer) : log ++ [store] = longer.take (log.length + 1) := by
  have htake := List.prefix_iff_eq_take.mp h
  rwa [List.length_append] at htake

/-- The answers that stop a search at match number `k`. -/
def haltAt (k i : Nat) : Signal := if i = k then .halt else .proceed

theorem haltAt_self (k : Nat) : haltAt k k = .halt := if_pos rfl

theorem haltAt_of_lt {k i : Nat} (h : i < k) : haltAt k i = .proceed := if_neg (Nat.ne_of_lt h)

/-- A client with a log, and one that follows answers and does so with a log of its own,
    both of which are `log`. -/
def BothLog (log : List (Store A)) (m : σ × List (Store A))
    (m' : (σ × List (Store A)) × List (Store A × Signal)) : Prop :=
  m'.1 = m ∧ m.2 = log ∧ m'.2.map Prod.fst = log

/-- Whatever a search has come to, it would have come to an end if it had been stopped at
    one of the matches on the way, and the log would be that of then. -/
theorem run_of_reached (n : Nat) (log : List (Store A)) {s : State A (σ × List (Store A))}
    {t : State A ((σ × List (Store A)) × List (Store A × Signal))}
    (h : s.Related (BothLog log) t) {k : Nat} (hk : log.length ≤ k)
    (hlen : k < (reached src client.logging n s).memory.2.length) :
    ∃ t', run src (client.logging.following (haltAt k)) n t = some (true, t') ∧
      t'.memory.2.map Prod.fst = (reached src client.logging n s).memory.2.take (k + 1) := by
  -- the induction is on the steps; a log that is no longer than `k` is not at match `k` yet
  induction n generalizing log s t with
  | zero =>
    obtain ⟨-, rfl, -⟩ := h
    exact absurd hlen (Nat.not_lt.mpr hk)
  | succ n ih =>
    rw [reached] at hlen ⊢
    rw [run]
    rcases step_related (c := client.logging) (d := client.logging.following (haltAt k))
      (fun s e _ _ hm => ⟨congrArg (client.logging.note s e) hm.1, hm.2⟩) src n h
      with hrel | ⟨depth, s₁, t₁, h₁, hs, ht⟩
    · generalize step src client.logging n s = r at hrel hlen ⊢
      generalize step src (client.logging.following (haltAt k)) n t = r' at hrel
      cases hrel with
      | next hst => exact ih log hst hk hlen
      | done hst =>
        obtain ⟨-, rfl, -⟩ := hst
        exact absurd hlen (Nat.not_lt.mpr hk)
      | cutOff =>
        obtain ⟨-, rfl, -⟩ := h
        exact absurd hlen (Nat.not_lt.mpr hk)
    · -- the client is called in `store`, with this log before it
      obtain @⟨⟨store, trail⟩, points, found, m, ⟨m', calls⟩, rfl, rfl, hlog⟩ := h₁
      obtain ⟨signal, s', m'', hr⟩ := client.exists_logging_answer store m'
      have hcalls : m'.2.length = calls.length := by
        simpa using (congrArg List.length hlog).symm
      have hmore : (calls ++ [(store, signal)]).map Prod.fst = m'.2 ++ [store] := by
        rw [List.map_append, hlog]
        rfl
      simp only at hk
      rw [hs] at hlen ⊢
      rw [ht]
      simp only [hr, Client.following, Option.map_some] at hlen ⊢
      rw [← hcalls]
      rcases Nat.lt_or_eq_of_le hk with hlt | rfl
      · -- this is not match `k`, so the answer to follow is to proceed
        have hshort : (m'.2 ++ [store]).length ≤ k := by
          rw [List.length_append]
          exact hlt
        rw [haltAt_of_lt hlt]
        cases signal with
        | proceed => exact ih (m'.2 ++ [store]) (.at ⟨rfl, rfl, hmore⟩) hshort hlen
        | halt => exact absurd hlen (Nat.not_lt.mpr hshort)
      · -- this is match `k`; whatever comes after it, the log goes on from here
        rw [haltAt_self]
        refine ⟨_, rfl, hmore.trans (log_eq_take ?_)⟩
        cases signal with
        | proceed =>
          exact prefix_reached client.logging_logs n
            ⟨⟨s', trail⟩, points, found + 1, m'', m'.2 ++ [store]⟩
        | halt => exact List.prefix_refl _

/-! ## The calls of a query -/

/-- The state in which a query begins. -/
def start (src : Source A) (g : Compound A) (rest : List (Compound A)) (store : Store A)
    (memory : σ) : State A σ :=
  ⟨⟨store, .start src.options.occursCheck⟩, [.start src ⟨g, 0⟩ (rest.map (⟨·, 0⟩)) 0], 0, memory⟩

/-- The stores in which a query has called its client after `n` steps. -/
def calls (src : Source A) (client : Client A σ) (n : Nat) (goals : List (Compound A))
    (store : Store A) (memory : σ) : List (Store A) :=
  match goals with
  | [] => [store]
  | g :: rest =>
    let memory := client.note store (.opened goals.length) memory
    (reached src client.logging n (start src g rest store (memory, []))).memory.2

/-- However far a query has come, one that is stopped at a match on the way comes to an end,
    and has called its client just up to there. -/
theorem exists_halted_of_calls {n k : Nat} {goals : List (Compound A)} {s : Store A} {memory : σ}
    (hk : k < (calls src client n goals s memory).length) :
    ∃ found s' memory', enumerate src (client.logging.following (haltAt k)) n goals s
        ((memory, []), []) = some (.stopped found, s', memory') ∧
      memory'.2.map Prod.fst = (calls src client n goals s memory).take (k + 1) := by
  cases goals with
  | nil =>
    obtain rfl : k = 0 := Nat.lt_one_iff.mp hk
    obtain ⟨signal, s', m', hr⟩ :=
      client.exists_logging_answer s (client.note s (.opened 0) memory, [])
    let stopped := client.logging.following (haltAt 0)
    have hcall : stopped.answer s (stopped.note s (.opened 0) ((memory, []), [])) =
        some (.halt, s', (m', [s]), [(s, signal)]) := by
      show Option.map _ (client.logging.answer s (client.note s (.opened 0) memory, [])) = _
      rw [hr]
      rfl
    have hend : enumerate src stopped n [] s ((memory, []), []) =
        some (close stopped true 1 s' ((m', [s]), [(s, signal)])) := by
      rw [enumerate_nil, hcall]
      rfl
    exact ⟨1, _, _, hend, rfl⟩
  | cons g rest =>
    -- the query that is stopped at this match
    let memory₁ := client.note s (.opened (g :: rest).length) memory
    let noCalls : List (Store A) := []
    have hstart : (start src g rest s (memory₁, noCalls)).Related (BothLog noCalls)
        (start src g rest s ((memory₁, noCalls), [])) := .at ⟨rfl, rfl, rfl⟩
    obtain ⟨t', hrun, hlog⟩ := run_of_reached n [] hstart (Nat.zero_le k) hk
    let stopped := client.logging.following (haltAt k)
    have hend : enumerate src stopped n (g :: rest) s ((memory, []), []) =
        some (close stopped true t'.found (t'.session.undoTo 0).store t'.memory) := by
      rw [enumerate_cons]
      exact congrArg (Option.map _) hrun
    exact ⟨t'.found, _, _, hend, hlog⟩

section proceeding

omit [DecidableEq A]

variable (hclient : ∀ s m r, client.answer s m = some r → r.1 = .proceed)
include hclient

theorem following_proceeding {s : Store A} {m : σ} {r : Signal × Store A × σ}
    (h : client.answer s m = some r) (log : List (Store A × Signal)) :
    (client.following fun _ => .proceed).answer s (m, log) =
      some (r.1, r.2.1, r.2.2, log ++ [(s, r.1)]) := by
  simp only [Client.following, h, Option.map_some]
  rw [hclient s m r h]

/-- What a client answers that follows such answers, the one with the log answers too. -/
theorem logging_proceeding {s : Store A} {m : σ × List (Store A × Signal)}
    {r : Signal × Store A × σ × List (Store A × Signal)}
    (h : (client.following fun _ => .proceed).answer s m = some r) :
    client.logging.answer s (m.1, m.2.map Prod.fst) =
      some (r.1, r.2.1, r.2.2.1, r.2.2.2.map Prod.fst) := by
  obtain ⟨q, hq, rfl⟩ := Option.map_eq_some_iff.mp h
  simp only [Client.logging, hq, hclient s m.1 q hq, List.map_append]
  rfl

variable [DecidableEq A]

/-- A query that returns to a client that always goes on has called it just where it
    calls one that follows these answers. -/
theorem calls_of_proceeding {n : Nat} {goals : List (Compound A)} {s s' : Store A}
    {memory memory' : σ} {ending : Ending}
    (h : enumerate src client n goals s memory = some (ending, s', memory')) :
    ∃ log, enumerate src (client.following fun _ => .proceed) n goals s (memory, []) =
        some (ending, s', memory', log) ∧
      calls src client n goals s memory = log.map Prod.fst := by
  cases goals with
  | nil =>
    rw [enumerate_nil] at h
    obtain ⟨r, hr, he⟩ := Option.map_eq_some_iff.mp h
    refine ⟨[(s, r.1)], ?_, rfl⟩
    rw [enumerate_nil]
    show Option.map _ ((client.following fun _ => .proceed).answer s
      (client.note s (.opened 0) memory, [])) = _
    rw [following_proceeding hclient hr]
    cases he
    rfl
  | cons g rest =>
    rw [enumerate_cons] at h
    obtain ⟨⟨halted, state⟩, hrun, he⟩ := Option.map_eq_some_iff.mp h
    cases he
    let memory₁ := client.note s (.opened (g :: rest).length) memory
    -- first the client that follows the answers is put in, and then the one with the log
    have hfirst : (start src g rest s memory₁).Related (fun m m' => m'.1 = m)
        (start src g rest s (memory₁, ([] : List (Store A × Signal)))) := .at rfl
    obtain ⟨_, hfollowing, hst⟩ := run_related (d := client.following fun _ => .proceed)
      (R := fun m m' => m'.1 = m) (fun s e _ _ hm => congrArg (client.note s e) hm)
      (fun s m m' r hm hr => by
        obtain ⟨m', log⟩ := m'
        obtain rfl : m' = m := hm
        exact ⟨_, following_proceeding hclient hr log, rfl⟩)
      n hfirst hrun
    obtain @⟨w, points, found, _, ⟨m, log⟩, rfl⟩ := hst
    have hsecond : (start src g rest s (memory₁, ([] : List (Store A × Signal)))).Related
        (fun m m' => m' = (m.1, m.2.map Prod.fst)) (start src g rest s (memory₁, [])) := .at rfl
    obtain ⟨_, hlogging, htu⟩ := run_related (c := client.following fun _ => .proceed)
      (d := client.logging) (R := fun m m' => m' = (m.1, m.2.map Prod.fst))
      (fun s e m m' hm => by rw [hm]; rfl)
      (fun s m m' r hm hr => by
        rw [hm]
        exact ⟨_, logging_proceeding hclient hr, rfl⟩)
      n hsecond hfollowing
    obtain ⟨rfl⟩ := htu
    refine ⟨log, ?_, ?_⟩
    · rw [enumerate_cons]
      exact congrArg (Option.map _) hfollowing
    · show (reached src client.logging n _).memory.2 = _
      rw [reached_of_run hlogging]

end proceeding

end reached

end Search

/-- The stores in which a query has called its client after `n` steps. -/
def Program.calls [DecidableEq A] (p : Program A) (client : Client A σ) (n : Nat)
    (goals : List (Compound A)) (store : Store A) (memory : σ) : List (Store A) :=
  Search.calls p.source client n goals store memory

end Horn
