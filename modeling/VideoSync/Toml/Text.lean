import VideoSync.Json.Value

/-
  TOML strings: basic ones with escapes and literal ones without, each on one line or on several.
  All readers start after the opening quotes and give the text and what follows the closing quotes.
-/

namespace VideoSync.Toml

/-- Blanks within a line. -/
def isBlank (c : Char) : Bool := c == ' ' || c == '\t'

/-- Whether a character may stand in text and comments: no control character but the tab. -/
def isTextChar (c : Char) : Bool := (' ' ≤ c || c == '\t') && c != '\x7F'

/-- The text after a line break, if one comes first. -/
def lineBreak? : List Char → Option (List Char)
  | '\n' :: rest => some rest
  | '\r' :: '\n' :: rest => some rest
  | _ => none

/-- The number that `n` hexadecimal digits write, after a number before them. -/
def hex? : (n value : Nat) → List Char → Option (Nat × List Char)
  | 0, value, cs => some (value, cs)
  | _ + 1, _, [] => none
  | n + 1, value, c :: cs => do hex? n (16 * value + (← Json.hexValue? c)) cs

/-- The character of a code point, which has to be one. -/
def character? (code : Nat) : Option Char :=
  if code < 0xD800 ∨ (0xDFFF < code ∧ code < 0x110000) then some (Char.ofNat code) else none

/-- The character after a backslash stands for one, with what follows it. -/
def escape? : List Char → Option (Char × List Char)
  | 'b' :: rest => some ('\x08', rest)
  | 't' :: rest => some ('\t', rest)
  | 'n' :: rest => some ('\n', rest)
  | 'f' :: rest => some ('\x0C', rest)
  | 'r' :: rest => some ('\r', rest)
  | 'e' :: rest => some ('\x1B', rest)
  | '"' :: rest => some ('"', rest)
  | '\\' :: rest => some ('\\', rest)
  | 'x' :: rest => coded 2 rest
  | 'u' :: rest => coded 4 rest
  | 'U' :: rest => coded 8 rest
  | _ => none
where
  /-- A character by the digits of its code point. -/
  coded (n : Nat) (cs : List Char) : Option (Char × List Char) :=
    match hex? n 0 cs with
    | some (code, rest) => (character? code).map (·, rest)
    | none => none

/-- The rest of the lines after a backslash at the end of a line: all blanks and line breaks go. -/
def joinLines (cs : List Char) : Option (List Char) :=
  (lineBreak? (cs.dropWhile isBlank)).map
    (·.dropWhile fun c => isBlank c || c == '\n' || c == '\r')

/-- The inside of a string on one line. -/
def line? (escapes : Bool) (quote : Char) : (fuel : Nat) → (read : List Char) → List Char →
    Option (String × List Char)
  | 0, _, _ => none
  | _ + 1, _, [] => none
  | fuel + 1, read, c :: rest =>
    if c = quote then some (String.ofList read.reverse, rest)
    else if escapes ∧ c = '\\' then
      match escape? rest with
      | some (e, rest) => line? escapes quote fuel (e :: read) rest
      | none => none
    else if isTextChar c then line? escapes quote fuel (c :: read) rest
    else none

/-- Where three quotes close a string, up to two more before them belong to it. -/
def closing? (quote : Char) (read : List Char) : List Char → Option (List Char × List Char)
  | a :: b :: c :: rest =>
    if a = quote ∧ b = quote ∧ c = quote then
      let more := (rest.take 2).takeWhile (· == quote)
      some (more ++ read, rest.drop more.length)
    else none
  | _ => none

/-- The inside of a string on several lines. -/
def lines? (escapes : Bool) (quote : Char) : (fuel : Nat) → (read : List Char) → List Char →
    Option (String × List Char)
  | 0, _, _ => none
  | _ + 1, _, [] => none
  | fuel + 1, read, c :: rest =>
    match closing? quote read (c :: rest) with
    | some (read, rest) => some (String.ofList read.reverse, rest)
    | none =>
      if escapes ∧ c = '\\' then
        match escape? rest with
        | some (e, rest) => lines? escapes quote fuel (e :: read) rest
        | none => (joinLines rest).bind (lines? escapes quote fuel read)
      else match lineBreak? (c :: rest) with
        | some rest => lines? escapes quote fuel ('\n' :: read) rest
        | none => if isTextChar c then lines? escapes quote fuel (c :: read) rest else none

/-- A string on one line from its opening quote on. -/
def quoted? : List Char → Option (String × List Char)
  | '"' :: rest => line? true '"' (rest.length + 1) [] rest
  | '\'' :: rest => line? false '\'' (rest.length + 1) [] rest
  | _ => none

/-- Any string from its opening quotes on; a line break right after three quotes is left out. -/
def string? : List Char → Option (String × List Char)
  | '"' :: '"' :: '"' :: rest =>
    lines? true '"' (rest.length + 1) [] ((lineBreak? rest).getD rest)
  | '\'' :: '\'' :: '\'' :: rest =>
    lines? false '\'' (rest.length + 1) [] ((lineBreak? rest).getD rest)
  | cs => quoted? cs

end VideoSync.Toml
