import Horn.Store.Walk
import Horn.Text.Symbol

/-! # Terms as text

    `Term.text` writes a term as it is built: a name, then its arguments in
    parentheses; a variable is written by its number.  `Store.text` writes what
    the term denotes in a store, looking through bound variables. -/

namespace Horn

universe u

variable {A : Type u} [Symbol A]

/-- A variable, by its number. -/
def Var.text (x : Var) : String := "_G" ++ toString x.id

mutual

/-- A term as it is built, with its names in the given style. -/
def Term.text (style : Style) : Term A → String
  | .var x => x.text
  | .app f [] => style.name f
  | .app f (a :: as) => style.name f ++ "(" ++ a.text style ++ Term.textMore style as ++ ")"

/-- The arguments after the first. -/
def Term.textMore (style : Style) : List (Term A) → String
  | [] => ""
  | a :: as => ", " ++ a.text style ++ Term.textMore style as

end

/-- A compound as it is built. -/
def Compound.text (style : Style) (c : Compound A) : String := c.toTerm.text style

/-- A signature for reading: name and number of arguments. -/
def Signature.text (f : Signature A) : String :=
  Symbol.plain f.name ++ "/" ++ toString f.arity

namespace Store

/-- What a term denotes in the store; `none` if looking through its variables
    takes more than `n` levels. -/
def text (s : Store A) (n : Nat) (style : Style) (t : Term A) : Option String :=
  (s.resolved n t).map (·.text style)

/-- What a compound denotes in the store. -/
def compoundText (s : Store A) (n : Nat) (style : Style) (c : Compound A) : Option String :=
  (s.resolvedCompound n c).map (·.text style)

end Store

end Horn
