import Horn.Text.Unprintable

/-! # Quoted text

    A text between quotes, written so that it stays on one line and can be told
    apart from any other: the quote, the backslash and the common controls are
    written with a backslash, and all other characters without a glyph by their
    number. -/

namespace Horn.Text

/-- A number in hexadecimal with small letters. -/
def hexadecimal (n : Nat) : String := String.ofList (Nat.toDigits 16 n)

/-- How `c` is written between quotes `quote`. -/
def escaped (quote c : Char) : String :=
  if c = '\x00' then "\\0"
  else if c = '\t' then "\\t"
  else if c = '\n' then "\\n"
  else if c = '\r' then "\\r"
  else if c = '\\' || c = quote then "\\" ++ c.toString
  else if isUnprintable c then "\\u\x7b" ++ hexadecimal c.toNat ++ "\x7d"
  else c.toString

/-- `cs` between quotes. -/
def quoted (quote : Char) (cs : List Char) : String :=
  quote.toString ++ String.join (cs.map (escaped quote)) ++ quote.toString

end Horn.Text
