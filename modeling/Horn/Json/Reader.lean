import Horn.Json.Decimal

/-! # Reading JSON

    Values are read from the front of a text, one after the other.  What is
    wrong with a text is told in three kinds, and of several things wrong the
    first one met decides:

    * *malformed*: no JSON text goes on like this;
    * *unfinished*: the text ends too early;
    * *mistyped*: the value is not of the kind asked for.

    A value of the wrong kind is read as far as its kind is known, so a scalar
    that is not even well-formed counts as malformed or unfinished, while an
    array or object counts as mistyped at once.

    Skipping a value that nobody asks for is more lenient about strings, where a
    half of a surrogate pair may stand alone, and stricter about numbers, which
    are malformed also when the text ends within them. -/

namespace Horn.Json

universe u

/-- What is wrong with a text. -/
inductive Fault where
  | malformed
  | unfinished
  | mistyped
  deriving DecidableEq, Repr

/-- Reads a value from the front of a text and returns the rest. -/
abbrev Reader (α : Type u) := List Char → Except Fault (α × List Char)

/-! ## Characters -/

/-- The blanks that may stand between tokens. -/
def isBlank (c : Char) : Bool := c = ' ' || c = '\n' || c = '\t' || c = '\r'

/-- The text after its leading blanks. -/
def dropBlanks (cs : List Char) : List Char := cs.dropWhile isBlank

/-- Reads the rest of a literal of which the first letter has been seen. -/
def expect : List Char → List Char → Except Fault (List Char)
  | [], cs => .ok cs
  | _ :: _, [] => .error .unfinished
  | e :: es, c :: cs => if c = e then expect es cs else .error .malformed

/-- The value of a decimal digit. -/
def digit? (c : Char) : Option Nat :=
  if '0' ≤ c ∧ c ≤ '9' then some (c.toNat - '0'.toNat) else none

/-- The value of a hexadecimal digit of either case. -/
def hexDigit? (c : Char) : Option Nat :=
  if 'a' ≤ c ∧ c ≤ 'f' then some (c.toNat - 'a'.toNat + 10)
  else if 'A' ≤ c ∧ c ≤ 'F' then some (c.toNat - 'A'.toNat + 10)
  else digit? c

/-! ## Strings -/

/-- Reads four hexadecimal digits.  They take four bytes: a text with fewer left
    is unfinished, whatever they are. -/
def fourHex (cs : List Char) : Except Fault (Nat × List Char) :=
  if (cs.take 4).foldl (fun size c => size + c.utf8Size) 0 < 4 then .error .unfinished
  else match (cs.take 4).mapM hexDigit? with
    | some [a, b, c, d] => .ok (((a * 16 + b) * 16 + c) * 16 + d, cs.drop 4)
    | _ => .error .malformed

/-- The character that an escape of one letter stands for. -/
def simpleEscape? : Char → Option Char
  | '"' => some '"'
  | '\\' => some '\\'
  | '/' => some '/'
  | 'b' => some '\x08'
  | 'f' => some '\x0c'
  | 'n' => some '\n'
  | 'r' => some '\r'
  | 't' => some '\t'
  | _ => none

/-- Whether a code unit is the first half of a surrogate pair. -/
def isHighHalf (n : Nat) : Bool := 0xD800 ≤ n && n ≤ 0xDBFF

/-- Whether a code unit is the second half of a surrogate pair. -/
def isLowHalf (n : Nat) : Bool := 0xDC00 ≤ n && n ≤ 0xDFFF

/-- Reads the second half of a surrogate pair, with its backslash, and joins it
    to the first half. -/
def lowHalf (high : Nat) : Reader Char
  | [] => .error .unfinished
  | '\\' :: [] => .error .unfinished
  | '\\' :: 'u' :: cs => do
    let (low, cs) ← fourHex cs
    if isLowHalf low then
      .ok (Char.ofNat ((high - 0xD800) * 0x400 + (low - 0xDC00) + 0x10000), cs)
    else .error .malformed
  | _ => .error .malformed

/-- Reads an escape after its backslash. -/
def escape : Reader Char
  | [] => .error .unfinished
  | 'u' :: cs => do
    let (n, cs) ← fourHex cs
    if isLowHalf n then .error .malformed
    else if isHighHalf n then lowHalf n cs
    else .ok (Char.ofNat n, cs)
  | c :: cs =>
    match simpleEscape? c with
    | some c => .ok (c, cs)
    | none => .error .malformed

/-- Skips an escape after its backslash. -/
def skipEscape (cs : List Char) : Except Fault (List Char) :=
  match cs with
  | [] => .error .unfinished
  | 'u' :: cs => (fourHex cs).map (·.2)
  | c :: cs => if (simpleEscape? c).isSome then .ok cs else .error .malformed

/-- Reads a string after its opening quote, of at most `n` characters. -/
def stringBody : Nat → Reader (List Char)
  | 0, _ => .error .unfinished
  | _ + 1, [] => .error .unfinished
  | _ + 1, '"' :: cs => .ok ([], cs)
  | n + 1, '\\' :: cs => do
    let (c, cs) ← escape cs
    let (rest, cs) ← stringBody n cs
    .ok (c :: rest, cs)
  | n + 1, c :: cs =>
    if c < ' ' then .error .malformed
    else do
      let (rest, cs) ← stringBody n cs
      .ok (c :: rest, cs)

/-- Skips a string after its opening quote, of at most `n` characters. -/
def skipStringBody : Nat → List Char → Except Fault (List Char)
  | 0, _ => .error .unfinished
  | _ + 1, [] => .error .unfinished
  | _ + 1, '"' :: cs => .ok cs
  | n + 1, '\\' :: cs => skipEscape cs >>= skipStringBody n
  | n + 1, c :: cs => if c < ' ' then .error .malformed else skipStringBody n cs

/-- Reads a string after its opening quote. -/
def stringRest : Reader String := fun cs =>
  (stringBody (cs.length + 1) cs).map fun (text, cs) => (String.ofList text, cs)

/-- Skips a string after its opening quote. -/
def skipString (cs : List Char) : Except Fault (List Char) :=
  skipStringBody (cs.length + 1) cs

/-! ## Numbers -/

/-- What a number is good for. -/
inductive Number where
  | integer (n : Int)
  /-- A number with a fraction or exponent, one outside 64 bits, or minus zero. -/
  | real
  deriving DecidableEq, Repr

/-- The digits at the front of a text and what follows them. -/
def digits (cs : List Char) : List Nat × List Char :=
  let (ds, rest) := cs.span fun c => (digit? c).isSome
  (ds.filterMap digit?, rest)

/-- The number that a row of digits denotes. -/
def ofDigits (ds : List Nat) : Nat := ds.foldl (fun n d => 10 * n + d) 0

/-- A real number, unless it is too large. -/
def real (x : Decimal) (cs : List Char) : Except Fault (Number × List Char) :=
  if x.isFinite then .ok (.real, cs) else .error .malformed

/-- Reads the exponent of `x` after its letter. -/
def exponent (x : Decimal) (cs : List Char) : Except Fault (Number × List Char) :=
  let (negative, cs) :=
    match cs with
    | '+' :: cs => (false, cs)
    | '-' :: cs => (true, cs)
    | cs => (false, cs)
  match digits cs, cs with
  | _, [] => .error .unfinished
  | ([], _), _ => .error .malformed
  | (ds, cs), _ =>
    let e : Int := ofDigits ds
    real (x.scale (if negative then -e else e)) cs

/-- Reads the fraction of `x` after its point, and an exponent if one follows. -/
def fraction (x : Decimal) (cs : List Char) : Except Fault (Number × List Char) :=
  match digits cs, cs with
  | _, [] => .error .unfinished
  | ([], _), _ => .error .malformed
  | (ds, cs), _ =>
    let x := x.withFraction ds
    match cs with
    | 'e' :: cs | 'E' :: cs => exponent x cs
    | cs => real x cs

/-- The number `m` or `-m` if it has 64 bits.  Minus zero is no integer. -/
def integer? (negative : Bool) (m : Nat) : Option Int :=
  if negative then if 0 < m ∧ m ≤ Nat.pow 2 63 then some (-m) else none
  else if m < Nat.pow 2 64 then some m else none

/-- Reads a number after its sign. -/
def number (negative : Bool) (cs : List Char) : Except Fault (Number × List Char) :=
  match digits cs, cs with
  | _, [] => .error .unfinished
  | ([], _), _ => .error .malformed
  | (0 :: _ :: _, _), _ => .error .malformed
  | (ds, cs), _ =>
    let x := Decimal.ofDigits ds
    match cs with
    | '.' :: cs => fraction x cs
    | 'e' :: cs | 'E' :: cs => exponent x cs
    | cs =>
      match integer? negative (ofDigits ds) with
      | some n => .ok (.integer n, cs)
      | none => real x cs

/-- Skips an exponent after its letter. -/
def skipExponent (cs : List Char) : Except Fault (List Char) :=
  let cs :=
    match cs with
    | '+' :: cs | '-' :: cs => cs
    | cs => cs
  match digits cs with
  | ([], _) => .error .malformed
  | (_, cs) => .ok cs

/-- Skips an exponent if there is one. -/
def skipExponentIfAny (cs : List Char) : Except Fault (List Char) :=
  match cs with
  | 'e' :: cs | 'E' :: cs => skipExponent cs
  | cs => .ok cs

/-- Skips a number after its sign. -/
def skipNumber (cs : List Char) : Except Fault (List Char) :=
  match digits cs with
  | ([], _) | (0 :: _ :: _, _) => .error .malformed
  | (_, '.' :: cs) =>
    match digits cs with
    | ([], _) => .error .malformed
    | (_, cs) => skipExponentIfAny cs
  | (_, cs) => skipExponentIfAny cs

/-! ## Values that are skipped -/

/-- Skips the colon between a key and its value. -/
def skipColon (cs : List Char) : Except Fault (List Char) :=
  match dropBlanks cs with
  | [] => .error .unfinished
  | ':' :: cs => .ok cs
  | _ => .error .malformed

mutual

/-- Skips a value; `n` bounds the number of values and levels in it. -/
def skipValueWithin : Nat → List Char → Except Fault (List Char)
  | 0, _ => .error .unfinished
  | n + 1, cs =>
    match dropBlanks cs with
    | [] => .error .unfinished
    | '[' :: cs =>
      match dropBlanks cs with
      | ']' :: cs => .ok cs
      | cs => skipElements n cs
    | '{' :: cs =>
      match dropBlanks cs with
      | '}' :: cs => .ok cs
      | cs => skipMembers n cs
    | '"' :: cs => skipString cs
    | '-' :: cs => skipNumber cs
    | 'n' :: cs => expect ['u', 'l', 'l'] cs
    | 't' :: cs => expect ['r', 'u', 'e'] cs
    | 'f' :: cs => expect ['a', 'l', 's', 'e'] cs
    | c :: cs => if (digit? c).isSome then skipNumber (c :: cs) else .error .malformed

/-- Skips the elements of an array and its closing bracket. -/
def skipElements : Nat → List Char → Except Fault (List Char)
  | 0, _ => .error .unfinished
  | n + 1, cs => do
    let cs ← skipValueWithin n cs
    match dropBlanks cs with
    | [] => .error .unfinished
    | ',' :: cs => skipElements n cs
    | ']' :: cs => .ok cs
    | _ => .error .malformed

/-- Skips the members of an object and its closing brace. -/
def skipMembers : Nat → List Char → Except Fault (List Char)
  | 0, _ => .error .unfinished
  | n + 1, cs =>
    match dropBlanks cs with
    | [] => .error .unfinished
    | '"' :: cs => do
      let cs ← skipString cs
      let cs ← skipColon cs
      let cs ← skipValueWithin n cs
      match dropBlanks cs with
      | [] => .error .unfinished
      | ',' :: cs => skipMembers n cs
      | '}' :: cs => .ok cs
      | _ => .error .malformed
    | _ => .error .malformed

end

/-- Skips a value of any kind. -/
def skipValue (cs : List Char) : Except Fault (List Char) :=
  skipValueWithin (2 * cs.length + 2) cs

/-! ## Values that are asked for -/

/-- What is wrong with a value of another kind than asked for. -/
def mismatch : List Char → Fault
  | '"' :: cs => faultOf (stringRest cs)
  | '-' :: cs => faultOf (number true cs)
  | 'n' :: cs => faultOf (expect ['u', 'l', 'l'] cs)
  | 't' :: cs => faultOf (expect ['r', 'u', 'e'] cs)
  | 'f' :: cs => faultOf (expect ['a', 'l', 's', 'e'] cs)
  | '[' :: _ | '{' :: _ => .mistyped
  | c :: cs => if (digit? c).isSome then faultOf (number false (c :: cs)) else .malformed
  | [] => .unfinished
where
  /-- A value that can be read is of the wrong kind. -/
  faultOf {α : Type} : Except Fault α → Fault
    | .error e => e
    | .ok _ => .mistyped

/-- Reads a truth value. -/
def bool : Reader Bool := fun cs =>
  match dropBlanks cs with
  | 't' :: cs => (expect ['r', 'u', 'e'] cs).map (true, ·)
  | 'f' :: cs => (expect ['a', 'l', 's', 'e'] cs).map (false, ·)
  | cs => .error (mismatch cs)

/-- Reads a string. -/
def string : Reader String := fun cs =>
  match dropBlanks cs with
  | '"' :: cs => stringRest cs
  | cs => .error (mismatch cs)

/-- Reads a string of one character. -/
def char : Reader Char := fun cs => do
  let (text, cs) ← string cs
  match text.toList with
  | [c] => .ok (c, cs)
  | _ => .error .mistyped

/-- Reads an integer from `low` to `high`. -/
def integer (low high : Int) : Reader Int := fun cs => do
  let (n, cs) ←
    match dropBlanks cs with
    | '-' :: cs => number true cs
    | c :: cs => if (digit? c).isSome then number false (c :: cs) else .error (mismatch (c :: cs))
    | [] => .error .unfinished
  match n with
  | .integer n => if low ≤ n ∧ n ≤ high then .ok (n, cs) else .error .mistyped
  | .real => .error .mistyped

/-- Reads a natural number of 64 bits. -/
def nat : Reader Nat := fun cs =>
  (integer 0 (Int.pow 2 64 - 1) cs).map fun (n, cs) => (n.toNat, cs)

/-- Reads `null` as no value, and anything else by `read`. -/
def optional {α : Type} (read : Reader α) : Reader (Option α) := fun cs =>
  match dropBlanks cs with
  | 'n' :: cs => (expect ['u', 'l', 'l'] cs).map (none, ·)
  | cs => (read cs).map fun (a, cs) => (some a, cs)

/-- Reads a whole text that consists of one value. -/
def whole {α : Type u} (read : Reader α) (text : String) : Except Fault α := do
  let (a, cs) ← read text.toList
  if (dropBlanks cs).isEmpty then .ok a else .error .malformed

end Horn.Json
