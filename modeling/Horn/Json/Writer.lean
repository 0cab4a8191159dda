/-! # Writing JSON

    Texts of scalars and objects, without blanks. -/

namespace Horn.Json

/-- A hexadecimal digit with a small letter. -/
def hexDigit (n : Nat) : Char := Nat.digitChar n

/-- How a character is written in a string.  Controls without an escape of one
    letter are written by their number; all other characters stand as they are. -/
def escapeChar (c : Char) : String :=
  if c = '"' then "\\\""
  else if c = '\\' then "\\\\"
  else if c = '\x08' then "\\b"
  else if c = '\x0c' then "\\f"
  else if c = '\n' then "\\n"
  else if c = '\r' then "\\r"
  else if c = '\t' then "\\t"
  else if c < ' ' then
    "\\u00" ++ (hexDigit (c.toNat / 16)).toString ++ (hexDigit (c.toNat % 16)).toString
  else c.toString

/-- A string. -/
def writeString (s : String) : String :=
  "\"" ++ String.join (s.toList.map escapeChar) ++ "\""

/-- A truth value. -/
def writeBool : Bool → String
  | true => "true"
  | false => "false"

/-- An optional value, given the text of the value. -/
def writeOption : Option String → String
  | none => "null"
  | some text => text

/-- An object, given the texts of its values. -/
def writeObject (fields : List (String × String)) : String :=
  "\x7b" ++
    ",".intercalate (fields.map fun (name, text) => writeString name ++ ":" ++ text) ++ "\x7d"

end Horn.Json
