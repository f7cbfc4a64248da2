import VideoSync.Json.Value

/-
  JSON text. `Json.parse?` reads exactly one value with blanks around it, `Json.render` writes one
  without any. Every nested value and every item takes at least one character, so the length of a
  text bounds how deep and how far reading can go.
-/

namespace VideoSync.Json

/-- The characters between tokens. -/
def isBlank (c : Char) : Bool := c == ' ' || c == '\t' || c == '\n' || c == '\r'

/-- The text from its first character on that is not blank. -/
def skip (cs : List Char) : List Char := cs.dropWhile isBlank

/-- The inside of a string up to its closing quote, after the part that was read. -/
def stringBody (read : List Char) : List Char → Option (String × List Char)
  | '"' :: rest => some (String.ofList read.reverse, rest)
  | '\\' :: 'u' :: a :: b :: c :: d :: rest =>
    if (unit? a b c d).isSome then stringBody (d :: c :: b :: a :: 'u' :: '\\' :: read) rest
    else none
  | '\\' :: e :: rest =>
    if (shortEscape? e).isSome then stringBody (e :: '\\' :: read) rest else none
  | c :: rest => if c < ' ' ∨ c = '\\' then none else stringBody (c :: read) rest
  | [] => none

/-- A non-empty run of digits. -/
def digitRun (cs : List Char) : Option (List Char × List Char) :=
  let digits := cs.takeWhile Char.isDigit
  if digits.isEmpty then none else some (digits, cs.dropWhile Char.isDigit)

/-- The digits before the point, which start with zero only when they are zero. -/
def wholePart : List Char → Option (List Char × List Char)
  | '0' :: rest => if (rest.head?.any Char.isDigit) then none else some (['0'], rest)
  | cs => digitRun cs

/-- The point and the digits after it, if there are any. -/
def fractionPart : List Char → Option (List Char × List Char)
  | '.' :: rest => (digitRun rest).map fun (digits, rest) => ('.' :: digits, rest)
  | cs => some ([], cs)

/-- The exponent, if there is one. -/
def exponentPart : List Char → Option (List Char × List Char)
  | c :: rest =>
    if c = 'e' ∨ c = 'E' then
      match rest with
      | s :: rest' =>
        if s = '+' ∨ s = '-' then
          (digitRun rest').map fun (digits, rest) => (c :: s :: digits, rest)
        else (digitRun rest).map fun (digits, rest) => (c :: digits, rest)
      | [] => none
    else some ([], c :: rest)
  | [] => some ([], [])

/-- A number as it is written. -/
def numberText (cs : List Char) : Option (String × List Char) := do
  let (sign, cs) := match cs with
    | '-' :: rest => (['-'], rest)
    | _ => ([], cs)
  let (whole, cs) ← wholePart cs
  let (fraction, cs) ← fractionPart cs
  let (exponent, cs) ← exponentPart cs
  return (String.ofList (sign ++ whole ++ fraction ++ exponent), cs)

/-- A way to read a value off the front of a text. -/
abbrev Reader := List Char → Option (Json × List Char)

/-- The items of an array after its opening bracket or a comma. -/
def itemsWith (value : Reader) : (fuel : Nat) → (read : List Json) → Reader
  | 0, _, _ => none
  | fuel + 1, read, cs => do
    let (item, cs) ← value cs
    match skip cs with
    | ',' :: rest => itemsWith value fuel (item :: read) rest
    | ']' :: rest => some (.array (item :: read).reverse, rest)
    | _ => none

/-- The fields of an object after its opening brace or a comma. -/
def fieldsWith (value : Reader) : (fuel : Nat) → (read : List (String × Json)) → Reader
  | 0, _, _ => none
  | fuel + 1, read, cs =>
    match skip cs with
    | '"' :: rest => do
      let (name, cs) ← stringBody [] rest
      match skip cs with
      | ':' :: rest =>
        let (item, cs) ← value rest
        match skip cs with
        | ',' :: rest => fieldsWith value fuel ((name, item) :: read) rest
        | '\x7d' :: rest => some (.object ((name, item) :: read).reverse, rest)
        | _ => none
      | _ => none
    | _ => none

/-- A fixed word. -/
def word (w : List Char) (value : Json) (cs : List Char) : Option (Json × List Char) :=
  if w.isPrefixOf cs then some (value, cs.drop w.length) else none

/-- One value, at most `depth` levels deep and with at most as many items in a row. -/
def value : (depth : Nat) → Reader
  | 0, _ => none
  | depth + 1, cs =>
    match skip cs with
    | 'n' :: rest => word "null".toList .null ('n' :: rest)
    | 't' :: rest => word "true".toList (.bool true) ('t' :: rest)
    | 'f' :: rest => word "false".toList (.bool false) ('f' :: rest)
    | '"' :: rest => (stringBody [] rest).map fun (s, rest) => (.string s, rest)
    | '[' :: rest =>
      match skip rest with
      | ']' :: rest => some (.array [], rest)
      | _ => itemsWith (value depth) (depth + 1) [] rest
    | '\x7b' :: rest =>
      match skip rest with
      | '\x7d' :: rest => some (.object [], rest)
      | _ => fieldsWith (value depth) (depth + 1) [] rest
    | cs => (numberText cs).map fun (n, rest) => (.number n, rest)

/-- The value that a text writes. -/
def parse? (text : String) : Option Json := do
  let cs := text.toList
  let (v, rest) ← value (cs.length + 1) cs
  if (skip rest).isEmpty then some v else none

mutual

/-- The text of a value, after the text before it. -/
def renderTo (out : String) : Json → String
  | .null => out ++ "null"
  | .bool b => out ++ (if b then "true" else "false")
  | .number n => out ++ n
  | .string s => out ++ "\"" ++ s ++ "\""
  | .array items => renderItems (out ++ "[") true items ++ "]"
  | .object fields => renderFields (out ++ "\x7b") true fields ++ "\x7d"

/-- The items of an array with commas between them. -/
def renderItems (out : String) (first : Bool) : List Json → String
  | [] => out
  | item :: rest =>
    renderItems (renderTo (if first then out else out ++ ",") item) false rest

/-- The fields of an object with commas between them. -/
def renderFields (out : String) (first : Bool) : List (String × Json) → String
  | [] => out
  | (name, item) :: rest =>
    let out := if first then out else out ++ ","
    renderFields (renderTo (out ++ "\"" ++ name ++ "\":") item) false rest

end

/-- The text of a value. -/
def render (v : Json) : String := renderTo "" v

end VideoSync.Json
