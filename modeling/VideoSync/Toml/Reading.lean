import VideoSync.Toml.Document
import VideoSync.Toml.Scalar
import VideoSync.Toml.Text

/-
  Documents read from text. Every reader works on the characters still to come and gives those that
  it leaves; what it took is kept as it was written. Collections nest to a fixed depth.
-/

namespace VideoSync.Toml

/-- A way to read something off the front of a text. -/
abbrev Reader (α : Type) := List Char → Option (α × List Char)

/-- What a reader took: the text without the text it left. -/
def taken (cs rest : List Char) : String := String.ofList (cs.take (cs.length - rest.length))

/-- The text after blanks. -/
def skipBlanks (cs : List Char) : List Char := cs.dropWhile isBlank

/-- The text after a comment, if one comes first. -/
def skipComment : List Char → List Char
  | '#' :: rest => rest.dropWhile isTextChar
  | cs => cs

/-- The text after blanks, line breaks and comments. -/
def skipTrivia : (fuel : Nat) → List Char → List Char
  | 0, cs => cs
  | fuel + 1, cs =>
    match skipBlanks cs with
    | '#' :: rest => skipTrivia fuel (skipComment ('#' :: rest))
    | rest => match lineBreak? rest with
      | some rest => skipTrivia fuel rest
      | none => rest

/-- The text after all blanks, line breaks and comments that come first. -/
def trivia (cs : List Char) : List Char := skipTrivia (cs.length + 1) cs

/-- Skips blanks and a comment at the end of a line, and the line break itself. -/
def lineEnd? (cs : List Char) : Option (String × List Char) :=
  let rest := skipComment (skipBlanks cs)
  match rest with
  | [] => some (taken cs rest, [])
  | _ => (lineBreak? rest).map (taken cs rest, ·)

/-! ## Keys -/

/-- Characters of keys without quotes. -/
def isBareChar (c : Char) : Bool := c.isAlphanum || c == '-' || c == '_'

/-- One key, quoted or not. -/
def name? : Reader String
  | '"' :: rest => quoted? ('"' :: rest)
  | '\'' :: rest => quoted? ('\'' :: rest)
  | cs =>
    let bare := cs.takeWhile isBareChar
    if bare.isEmpty then none else some (String.ofList bare, cs.dropWhile isBareChar)

/-- Keys with dots between them, and the blanks around each. -/
def keys? : (fuel : Nat) → Reader (List Key)
  | 0, _ => none
  | fuel + 1, cs => do
    let start := skipBlanks cs
    let (name, rest) ← name? start
    let after := skipBlanks rest
    let key : Key :=
      { name, written := taken start rest
        dotBefore := taken cs start, dotAfter := taken rest after }
    match after with
    | '.' :: cs =>
      let (more, cs) ← keys? fuel cs
      return (key :: more, cs)
    | cs => return ([key], cs)

/-- Gives the last key the blanks before the first one and after itself. -/
def arrange (leading : String) : List Key → List Key
  | [] => []
  | first :: rest =>
    let leaf := fun k : Key =>
      { k with before := leading ++ first.dotBefore, after := k.dotAfter, dotAfter := "" }
    match rest.reverse with
    | [] => [{ leaf first with dotBefore := "" }]
    | last :: middle => { first with dotBefore := "" } :: (leaf last :: middle).reverse

/-- A dotted key: the keys that lead to it and the last one. -/
def dottedKey? (leading : String) : Reader (List Key × Key) := fun cs => do
  let (keys, cs) ← keys? (cs.length + 1) cs
  let keys := arrange leading keys
  return ((keys.dropLast, ← keys.getLast?), cs)

/-! ## Values -/

/-- How deep collections nest. -/
def deepest : Nat := 80

/-- The items of an array after its opening bracket or a comma. -/
def itemsWith (value? : Reader Value) : (fuel : Nat) → (read : List Value) → Reader Value
  | 0, _, _ => none
  | fuel + 1, read, cs =>
    match trivia cs with
    | ']' :: rest => some (.array read.reverse, rest)
    | cs => do
      let (v, cs) ← value? cs
      match trivia cs with
      | ',' :: rest => itemsWith value? fuel (v :: read) rest
      | ']' :: rest => return (.array (v :: read).reverse, rest)
      | _ => none

/-- The entries of a table in braces after its opening brace or a comma. -/
def entriesWith (value? : Reader Value) : (fuel : Nat) → (read : Entries) → Reader Value
  | 0, _, _ => none
  | fuel + 1, read, cs =>
    match trivia cs with
    | '\x7d' :: rest => some (.table (Item.entriesToValues read), rest)
    | cs => do
      let ((path, key), cs) ← dottedKey? "" cs
      let cs ← expect? '=' cs
      let (v, cs) ← value? (skipBlanks cs)
      let read ← Entries.addDotted key (.value "" "" "" v) none path read
      match trivia cs with
      | ',' :: rest => entriesWith value? fuel read rest
      | '\x7d' :: rest => return (.table (Item.entriesToValues read), rest)
      | _ => none

/-- Whether a character ends an unquoted value. -/
def endsWord (c : Char) : Bool := " \t\r\n#,]\x7d".toList.contains c

/-- An unquoted value; a blank may stand between a date and a time. -/
def word? : Reader Value := fun cs =>
  let word := cs.takeWhile fun c => !endsWord c
  let rest := cs.dropWhile fun c => !endsWord c
  match date? word, rest with
  | some [], ' ' :: c :: more =>
    if c.isDigit then
      let time := (c :: more).takeWhile fun c => !endsWord c
      (scalar? (word ++ ' ' :: time)).map (·, (c :: more).dropWhile fun c => !endsWord c)
    else (scalar? word).map (·, rest)
  | _, _ => (scalar? word).map (·, rest)

/-- A value with collections at most `depth` deep. -/
def value? : (depth : Nat) → Reader Value
  | _, '"' :: rest => (string? ('"' :: rest)).map fun (s, rest) => (.string s, rest)
  | _, '\'' :: rest => (string? ('\'' :: rest)).map fun (s, rest) => (.string s, rest)
  | depth, '[' :: rest =>
    match depth with
    | 0 => none
    | depth + 1 => itemsWith (value? depth) (rest.length + 1) [] rest
  | depth, '\x7b' :: rest =>
    match depth with
    | 0 => none
    | depth + 1 => entriesWith (value? depth) (rest.length + 1) [] rest
  | _, cs => word? cs

/-! ## Documents -/

/-- The tables read so far, the path of the header that is open, and how many headers there were. -/
structure Progress where
  entries : Entries := []
  path : List Key := []
  headers : Nat := 0

namespace Progress

/-- Adds a value to the open table. -/
def add (p : Progress) (path : List Key) (key : Key) (item : Item) : Option Progress :=
  (Entries.descend (Entries.addDotted key item none path) p.path p.entries).map
    fun entries => { p with entries }

/-- Opens a table, of an array or on its own. -/
def enter (p : Progress) (element : Bool) (path : List Key) (key : Key) (before after : String) :
    Option Progress :=
  let head : Head :=
    { place := some (p.headers + 1), before := some before, after := some after }
  let opening := if element then Entries.openElement key head else Entries.openTable key head
  (Entries.descend opening path p.entries).map
    fun entries => ⟨entries, path ++ [key], p.headers + 1⟩

/-- Reads the rest of a header after its opening brackets. -/
def header? (p : Progress) (element : Bool) (leading : String) (cs : List Char) :
    Option (Progress × List Char) := do
  let ((path, key), cs) ← dottedKey? "" cs
  let cs ← expect? ']' cs
  let cs ← if element then expect? ']' cs else some cs
  let (after, cs) ← lineEnd? cs
  return (← p.enter element path key leading after, cs)

/-- Reads a key with its value. -/
def keyValue? (p : Progress) (leading : String) (cs : List Char) :
    Option (Progress × List Char) := do
  let ((path, key), cs) ← dottedKey? leading cs
  let cs ← expect? '=' cs
  let start := skipBlanks cs
  let (v, rest) ← value? deepest start
  let (after, next) ← lineEnd? rest
  return (← p.add path key (.value (taken cs start) (taken start rest) after v), next)

end Progress

namespace Document

/-- Reads headers and values until the text ends. -/
def readFrom : (fuel : Nat) → Progress → List Char → Option Document
  | 0, _, _ => none
  | fuel + 1, p, cs =>
    let rest := trivia cs
    let leading := taken cs rest
    match rest with
    | [] => some ⟨p.entries, leading⟩
    | '[' :: '[' :: rest => do
      let (p, rest) ← p.header? true leading rest
      readFrom fuel p rest
    | '[' :: rest => do
      let (p, rest) ← p.header? false leading rest
      readFrom fuel p rest
    | rest => do
      let (p, rest) ← p.keyValue? leading rest
      readFrom fuel p rest

/-- The text without the mark that tells its byte order. -/
def withoutMark : List Char → List Char
  | '\uFEFF' :: rest => rest
  | cs => cs

/-- The document that a text writes. -/
def parse? (text : String) : Option Document :=
  let cs := withoutMark text.toList
  readFrom (cs.length + 1) {} cs

end Document
end VideoSync.Toml
