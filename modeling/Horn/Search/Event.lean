import Horn.Program
import Horn.Unify

/-! # What a search tells

    A search reports its matches to a client, which answers whether to go on,
    and tells it of every event on the way.  Both come with the store of that
    moment, in which the client reads what the variables denote.  A client keeps
    a memory of its own; the search hands it on and never looks into it.

    An event never changes the course of a search.  A match may: the client can
    stop the search, and it returns the store, with which it may have run
    further searches. -/

namespace Horn

universe u v

/-- How a search came to its end. -/
inductive Verdict where
  /-- No alternative led to a match. -/
  | failed
  /-- Every alternative was tried, and there were matches. -/
  | exhausted
  /-- The client asked to stop. -/
  | stopped
  deriving DecidableEq, Repr

/-- How an enumeration of matches ended, with the number of matches reported. -/
inductive Ending where
  | exhausted (found : Nat)
  | stopped (found : Nat)
  deriving DecidableEq, Repr

/-- The number of matches reported. -/
def Ending.found : Ending → Nat
  | .exhausted k => k
  | .stopped k => k

/-- Whether the client cut the enumeration short. -/
def Ending.isStopped : Ending → Bool
  | .exhausted _ => false
  | .stopped _ => true

/-- Something that happens to a program or in the course of a search. -/
inductive Event (A : Type u) where
  /-- A clause is added under this signature. -/
  | added (f : Signature A)
  /-- A search for this number of goals begins. -/
  | opened (goals : Nat)
  /-- A goal is about to be unified with the copy of a clause head. -/
  | attempt (goal head : Compound A)
  /-- The goal has been unified with the head. -/
  | unified (goal : Compound A)
  /-- The goal and the head clash. -/
  | refuted (reason : Clash A)
  /-- No clause is left for a goal of this depth. -/
  | exhausted (depth : Nat)
  /-- The client stopped the search at a match of a goal of this depth. -/
  | stopped (depth : Nat)
  /-- A goal is given up because it lies too deep. -/
  | pruned (goal : Compound A) (depth : Nat)
  /-- The search has ended after this number of matches. -/
  | closed (verdict : Verdict) (found : Nat)

/-- Adds clauses in order, telling `note` of each. -/
def Program.addNoting {A : Type u} {σ : Type v} [DecidableEq A] (note : Event A → σ → σ) :
    List (Clause A) → Program A → σ → Program A × σ
  | [], p, memory => (p, memory)
  | c :: cs, p, memory => addNoting note cs (p.add c) (note (.added c.signature) memory)

/-- What a client answers to a match. -/
inductive Signal where
  | proceed
  | halt
  deriving DecidableEq, Repr

/-- The one that asked for the search, with a memory of type `σ`. -/
structure Client (A : Type u) (σ : Type v) where
  /-- Takes note of an event. -/
  note : Store A → Event A → σ → σ
  /-- Answers to a match; `none` if it comes to no answer. -/
  answer : Store A → σ → Option (Signal × Store A × σ)

end Horn
