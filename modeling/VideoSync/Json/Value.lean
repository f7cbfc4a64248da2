/-
  JSON values. Strings and numbers are kept as they are written between their delimiters; what they
  say is read when it is asked for, so that a value nobody looks at may be out of range.
-/

namespace VideoSync

/-- A JSON value. -/
inductive Json where
  | null
  | bool (b : Bool)
  | number (written : String)
  | string (written : String)
  | array (items : List Json)
  | object (fields : List (String × Json))
  deriving Inhabited

namespace Json

/-- The value of a hexadecimal digit. -/
def hexValue? (c : Char) : Option Nat :=
  if c.isDigit then some (c.toNat - '0'.toNat)
  else if 'a' ≤ c ∧ c ≤ 'f' then some (c.toNat - 'a'.toNat + 10)
  else if 'A' ≤ c ∧ c ≤ 'F' then some (c.toNat - 'A'.toNat + 10)
  else none

/-- The code unit that four hexadecimal digits write. -/
def unit? (a b c d : Char) : Option Nat := do
  return (((← hexValue? a) * 16 + (← hexValue? b)) * 16 + (← hexValue? c)) * 16 + (← hexValue? d)

/-- The character that a one-letter escape stands for. -/
def shortEscape? : Char → Option Char
  | '"' => some '"'
  | '\\' => some '\\'
  | '/' => some '/'
  | 'b' => some '\x08'
  | 'f' => some '\x0C'
  | 'n' => some '\n'
  | 'r' => some '\r'
  | 't' => some '\t'
  | _ => none

/-- Whether a code unit is the first half of a character. -/
def isHigh (u : Nat) : Bool := decide (0xD800 ≤ u ∧ u ≤ 0xDBFF)

/-- Whether a code unit is the second half of a character. -/
def isLow (u : Nat) : Bool := decide (0xDC00 ≤ u ∧ u ≤ 0xDFFF)

/-- The text that the inside of a string stands for, put before what was read; half a character
stands for nothing. -/
def unescape (read : List Char) : List Char → Option (List Char)
  | [] => some read.reverse
  | '\\' :: 'u' :: a :: b :: c :: d :: '\\' :: 'u' :: e :: f :: g :: h :: rest => do
    let u ← unit? a b c d
    let v ← unit? e f g h
    if isHigh u then
      if isLow v then
        unescape (Char.ofNat (0x10000 + (u - 0xD800) * 0x400 + (v - 0xDC00)) :: read) rest
      else none
    else if isLow u then none
    else unescape (Char.ofNat u :: read) ('\\' :: 'u' :: e :: f :: g :: h :: rest)
  | '\\' :: 'u' :: a :: b :: c :: d :: rest => do
    let u ← unit? a b c d
    if isHigh u || isLow u then none else unescape (Char.ofNat u :: read) rest
  | '\\' :: e :: rest => do unescape ((← shortEscape? e) :: read) rest
  | c :: rest => unescape (c :: read) rest

/-- Lower-case hexadecimal digits of a number, at least `width` of them. -/
def hexText (width n : Nat) : String :=
  let digits := Nat.toDigits 16 n
  String.ofList (List.replicate (width - digits.length) '0' ++ digits)

/-- A character as it is written inside a string. -/
def escapeChar (c : Char) : String :=
  match c with
  | '"' => "\\\""
  | '\\' => "\\\\"
  | '\n' => "\\n"
  | '\r' => "\\r"
  | '\t' => "\\t"
  | c => if c < ' ' then "\\u" ++ hexText 4 c.toNat else c.toString

/-- The string value of a text. -/
def ofText (text : String) : Json := .string (text.foldl (fun out c => out ++ escapeChar c) "")

/-- The number value of an integer. -/
def ofInt (n : Int) : Json := .number (toString n)

/-- The text of a string value. -/
def text? : Json → Option String
  | .string written => (unescape [] written.toList).map String.ofList
  | _ => none

/-- The fields of an object, if their names can be read. -/
def fields? : Json → Option (List (String × Json))
  | .object fields => fields.mapM fun (name, value) =>
    (unescape [] name.toList).map fun name => (String.ofList name, value)
  | _ => none

end Json
end VideoSync
