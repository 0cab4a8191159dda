import Horn.Json.Record
import Horn.Json.Writer
import Horn.Program

/-! # Options as JSON

    Options are an object with the fields `occurs_check` and `max_depth`.  A
    field that is missing has its default. -/

namespace Horn.Options

/-- Options of which some may not have been read yet. -/
structure Draft where
  occursCheck : Option Bool
  maxDepth : Option (Option Nat)

/-- The two fields, neither of which is required. -/
def shape : Json.Shape Draft Options where
  start := ⟨none, none⟩
  fields :=
    [ { name := "occurs_check"
        present := fun d => d.occursCheck.isSome
        read := fun d cs =>
          (Json.bool cs).map fun (b, cs) => ({ d with occursCheck := some b }, cs) },
      { name := "max_depth"
        present := fun d => d.maxDepth.isSome
        read := fun d cs =>
          (Json.optional Json.nat cs).map fun (m, cs) => ({ d with maxDepth := some m }, cs) } ]
  finish := fun d =>
    some ⟨d.occursCheck.getD Options.default.occursCheck,
      d.maxDepth.getD Options.default.maxDepth⟩

/-- Reads options from a JSON text. -/
def ofJson (text : String) : Except Json.Fault Options := Json.whole (Json.record shape) text

/-- Writes options as a JSON text. -/
def toJson (o : Options) : String :=
  Json.writeObject
    [("occurs_check", Json.writeBool o.occursCheck),
     ("max_depth", Json.writeOption (o.maxDepth.map toString))]

end Horn.Options
