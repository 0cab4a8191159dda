import Horn.Json.Reader

/-! # Reading records

    A record with known fields is read from an object, in which the fields may
    come in any order but none twice and fields of other names are skipped, or
    from an array that holds the fields in their order.

    The fields are read into a draft, which knows what is still missing; whether
    a draft may stay incomplete is for `finish` to say. -/

namespace Horn.Json

/-- A field of a record that is read into a draft of type `δ`. -/
structure Field (δ : Type) where
  name : String
  /-- Whether the draft has a value for the field. -/
  present : δ → Bool
  /-- Reads the field's value into the draft. -/
  read : δ → Reader δ

/-- How a record of type `ρ` is read. -/
structure Shape (δ ρ : Type) where
  /-- The draft before any field has been read. -/
  start : δ
  /-- The fields in the order in which an array holds them. -/
  fields : List (Field δ)
  /-- The record, unless a field is missing that must not be. -/
  finish : δ → Option ρ

variable {δ ρ : Type}

/-- The record of a draft to which nothing will be added. -/
def Shape.complete (shape : Shape δ ρ) (draft : δ) : Except Fault ρ :=
  match shape.finish draft with
  | some r => .ok r
  | none => .error .mistyped

/-! ## From an array -/

/-- Moves to the next element of an array, behind the comma unless it is the
    first; `none` at the closing bracket, which is left in place. -/
def nextElement (first : Bool) (cs : List Char) : Except Fault (Option (List Char)) :=
  match dropBlanks cs with
  | [] => .error .unfinished
  | ']' :: _ => .ok none
  | c :: cs =>
    if first then .ok (some (c :: cs))
    else if c = ',' then
      match dropBlanks cs with
      | [] => .error .unfinished
      | ']' :: _ => .error .malformed
      | cs => .ok (some cs)
    else .error .malformed

/-- Reads fields from the elements of an array, as far as there are elements. -/
def elements (first : Bool) : List (Field δ) → δ → Reader δ
  | [], draft, cs => .ok (draft, cs)
  | f :: fs, draft, cs => do
    match ← nextElement first cs with
    | none => .ok (draft, cs)
    | some cs =>
      let (draft, cs) ← f.read draft cs
      elements false fs draft cs

/-- Reads the closing bracket.  A further element is malformed. -/
def closeArray (cs : List Char) : Except Fault (List Char) :=
  match dropBlanks cs with
  | [] => .error .unfinished
  | ']' :: cs => .ok cs
  | _ => .error .malformed

/-! ## From an object -/

/-- Looks for the next key of an object, behind the comma unless it is the first:
    `true` with the text behind its opening quote, or `false` with the text
    behind the closing brace. -/
def nextKey (first : Bool) (cs : List Char) : Except Fault (Bool × List Char) :=
  match dropBlanks cs with
  | [] => .error .unfinished
  | '}' :: cs => .ok (false, cs)
  | c :: cs =>
    if first then
      if c = '"' then .ok (true, cs) else .error .malformed
    else if c = ',' then
      match dropBlanks cs with
      | [] => .error .unfinished
      | '"' :: cs => .ok (true, cs)
      | _ => .error .malformed
    else .error .malformed

/-- Reads the members of an object, at most `n`, and the closing brace.  A field
    that comes again is mistyped as soon as its key has been read. -/
def members (fields : List (Field δ)) : Nat → Bool → δ → Reader δ
  | 0, _, _, _ => .error .unfinished
  | n + 1, first, draft, cs => do
    match ← nextKey first cs with
    | (false, cs) => .ok (draft, cs)
    | (true, cs) =>
      let (key, cs) ← stringRest cs
      match fields.find? (·.name = key) with
      | none =>
        let cs ← skipColon cs >>= skipValue
        members fields n false draft cs
      | some f =>
        if f.present draft then .error .mistyped
        else do
          let cs ← skipColon cs
          let (draft, cs) ← f.read draft cs
          members fields n false draft cs

/-- Reads a record from an object or an array. -/
def record (shape : Shape δ ρ) : Reader ρ := fun cs =>
  match dropBlanks cs with
  | '[' :: cs => do
    let (draft, cs) ← elements true shape.fields shape.start cs
    let r ← shape.complete draft
    let cs ← closeArray cs
    .ok (r, cs)
  | '{' :: cs => do
    let (draft, cs) ← members shape.fields (cs.length + 1) true shape.start cs
    let r ← shape.complete draft
    .ok (r, cs)
  | cs => .error (mismatch cs)

end Horn.Json
