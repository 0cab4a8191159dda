/-! # Records as text

    The text of a value as its constructor with named fields,
    `Name ⟨ field: text, … ⟩` with braces, and of a list and a dictionary. -/

namespace Horn.Text

/-- A constructor with named fields, each given with its text. -/
def record (name : String) (fields : List (String × String)) : String :=
  name ++ " \x7b " ++ ", ".intercalate (fields.map fun (f, text) => f ++ ": " ++ text) ++ " \x7d"

/-- A constructor with one unnamed field. -/
def tuple (name text : String) : String := name ++ "(" ++ text ++ ")"

/-- The text of an optional value, given the text of the value. -/
def option : Option String → String
  | none => "None"
  | some text => tuple "Some" text

/-- A list, given the texts of its elements. -/
def list (texts : List String) : String := "[" ++ ", ".intercalate texts ++ "]"

/-- A dictionary, given the texts of its keys and values. -/
def dictionary (entries : List (String × String)) : String :=
  "\x7b" ++ ", ".intercalate (entries.map fun (key, text) => key ++ ": " ++ text) ++ "\x7d"

/-- A truth value. -/
def bool : Bool → String
  | true => "true"
  | false => "false"

end Horn.Text
