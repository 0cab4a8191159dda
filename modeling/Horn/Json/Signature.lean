import Horn.Json.Record
import Horn.Json.Writer
import Horn.Term.Basic

/-! # Signatures as JSON

    A signature is an object with the fields `name` and `arity`, both required.
    The name is a string, a string of one character, or an integer of 64 bits,
    by the type of names. -/

namespace Horn

/-- A type of names that are written and read as JSON values. -/
class Json.Name (A : Type) where
  write : A → String
  read : Json.Reader A

namespace Json.Name

instance : Json.Name String := ⟨writeString, string⟩

instance : Json.Name Char := ⟨fun c => writeString c.toString, char⟩

instance : Json.Name Int := ⟨toString, integer (-(Int.pow 2 63)) (Int.pow 2 63 - 1)⟩

end Json.Name

namespace Signature

variable {A : Type}

/-- A signature of which some may not have been read yet. -/
structure Draft (A : Type) where
  name : Option A
  arity : Option Nat

variable [Json.Name A]

/-- The two fields, both of which are required. -/
def shape : Json.Shape (Draft A) (Signature A) where
  start := ⟨none, none⟩
  fields :=
    [ { name := "name"
        present := fun d => d.name.isSome
        read := fun d cs =>
          (Json.Name.read (A := A) cs).map fun (a, cs) => ({ d with name := some a }, cs) },
      { name := "arity"
        present := fun d => d.arity.isSome
        read := fun d cs => (Json.nat cs).map fun (n, cs) => ({ d with arity := some n }, cs) } ]
  finish := fun d =>
    match d.name, d.arity with
    | some a, some n => some ⟨a, n⟩
    | _, _ => none

/-- Reads a signature from a JSON text. -/
def ofJson (text : String) : Except Json.Fault (Signature A) :=
  Json.whole (Json.record shape) text

/-- Writes a signature as a JSON text. -/
def toJson (f : Signature A) : String :=
  Json.writeObject [("name", Json.Name.write f.name), ("arity", toString f.arity)]

end Signature

end Horn
