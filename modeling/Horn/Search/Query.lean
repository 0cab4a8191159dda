import Horn.Search.Basic

/-! # Queries

    A query asks a program for the matches of a conjunction of goals.  While a
    match is being reported, the variables of the goals have the values that
    make them hold; when the query returns, all bindings that the search made
    have been taken back.

    * `enumerate` reports every match to a client, which may stop the search.
    * `ask` tells whether there is a match, and stops at the first.
    * `findAll` collects what is read off the store at each match. -/

namespace Horn

universe u v w

variable {A : Type u} {σ : Type v}

namespace Search

/-- Sums up a search. -/
def verdict (halted : Bool) (found : Nat) : Verdict :=
  if halted then .stopped else if found = 0 then .failed else .exhausted

/-- Ends an enumeration: tells the client, and says how it ended. -/
def close (client : Client A σ) (halted : Bool) (found : Nat) (store : Store A) (memory : σ) :
    Ending × Store A × σ :=
  let memory := client.note store (.closed (verdict halted found) found) memory
  (if halted then .stopped found else .exhausted found, store, memory)

/-- Reports every match of `goals` to the client, in order.  Without goals there
    is one match.  `n` bounds the steps of the search and is large enough when
    the answer is not `none`. -/
def enumerate [DecidableEq A] (src : Source A) (client : Client A σ) (n : Nat)
    (goals : List (Compound A)) (store : Store A) (memory : σ) :
    Option (Ending × Store A × σ) :=
  let memory := client.note store (.opened goals.length) memory
  match goals with
  | [] =>
    match client.answer store memory with
    | none => none
    | some (signal, store, memory) => some (close client (signal = .halt) 1 store memory)
  | g :: rest =>
    let point := .start src ⟨g, 0⟩ (rest.map (⟨·, 0⟩)) 0
    let start := ⟨⟨store, .start src.options.occursCheck⟩, [point], 0, memory⟩
    match run src client n start with
    | none => none
    | some (halted, ⟨w, _, found, memory⟩) =>
      let w := w.undoTo 0
      some (close client halted found w.store memory)

end Search

namespace Program

variable [DecidableEq A]

/-- A program as the source of a search: a goal is tried against the clauses of
    its signature. -/
def source (p : Program A) : Search.Source A := ⟨p.clausesFor, p.options⟩

/-- Reports every match of `goals` in the program to the client, in order. -/
def enumerate (p : Program A) (client : Client A σ) (n : Nat) (goals : List (Compound A))
    (store : Store A) (memory : σ) : Option (Ending × Store A × σ) :=
  Search.enumerate p.source client n goals store memory

/-- Whether `goals` have a match.  The search stops at the first. -/
def ask (p : Program A) (note : Store A → Event A → σ → σ) (n : Nat)
    (goals : List (Compound A)) (store : Store A) (memory : σ) : Option (Bool × Store A × σ) :=
  let client : Client A σ := ⟨note, fun store memory => some (.halt, store, memory)⟩
  (p.enumerate client n goals store memory).map fun (ending, store, memory) =>
    (decide (0 < ending.found), store, memory)

/-- What `extract` reads off the store at each match of `goals`, in order. -/
def findAll {β : Type w} (p : Program A) (note : Store A → Event A → σ → σ)
    (extract : Store A → σ → Option (β × Store A × σ)) (n : Nat) (goals : List (Compound A))
    (store : Store A) (memory : σ) : Option (List β × Store A × σ) :=
  let client : Client A (σ × List β) :=
    { note := fun store e (memory, found) => (note store e memory, found)
      answer := fun store (memory, found) =>
        (extract store memory).map fun (b, store, memory) =>
          (.proceed, store, memory, b :: found) }
  (p.enumerate client n goals store (memory, [])).map fun (_, store, memory, found) =>
    (found.reverse, store, memory)

end Program

end Horn
