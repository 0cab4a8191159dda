import Horn.Text.Quoted

/-! # How names are written

    A name has a plain text, for reading, and a text for telling names apart,
    in which strings and characters are quoted. -/

namespace Horn

universe u

/-- A type of names that can be written. -/
class Symbol (A : Type u) where
  plain : A → String
  quoted : A → String

namespace Symbol

instance : Symbol String := ⟨id, fun s => Text.quoted '"' s.toList⟩

instance : Symbol Char := ⟨Char.toString, fun c => Text.quoted '\'' [c]⟩

instance : Symbol Int := ⟨toString, toString⟩

instance : Symbol Bool := ⟨toString, toString⟩

instance : Symbol Unit := ⟨fun _ => "()", fun _ => "()"⟩

end Symbol

/-- One of the two texts of a name. -/
inductive Style where
  | plain
  | quoted
  deriving DecidableEq, Repr

/-- The text of a name in the given style. -/
def Style.name {A : Type u} [Symbol A] : Style → A → String
  | .plain => Symbol.plain
  | .quoted => Symbol.quoted

end Horn
