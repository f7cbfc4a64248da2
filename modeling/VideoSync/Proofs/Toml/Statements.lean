import VideoSync.Toml.Reading

/-
  A document as a sequence of statements: headers, and values with their keys. Reading a text splits
  into two halves that know nothing of each other. The first cuts the text into statements and never
  asks what was read before; the second takes the statements one by one and builds the tables.
  `readFrom_eq` says that together they are the reader.
-/

namespace VideoSync.Toml

/-- A value under a key that may be dotted, with the text around it. -/
structure Line where
  path : List Key
  key : Key
  before : String
  written : String
  after : String
  value : Value

/-- The value as it stands in a table. -/
def Line.item (l : Line) : Item := .value l.before l.written l.after l.value

/-- A header or a value with its key. -/
inductive Statement where
  | header (element : Bool) (path : List Key) (key : Key) (before after : String)
  | assign (line : Line)

/-! ## Cutting a text -/

namespace Statement

/-- The rest of a header after its opening brackets. -/
def header? (element : Bool) (leading : String) : Reader Statement := fun cs => do
  let ((path, key), cs) ← dottedKey? "" cs
  let cs ← expect? ']' cs
  let cs ← if element then expect? ']' cs else some cs
  let (after, cs) ← lineEnd? cs
  return (.header element path key leading after, cs)

/-- A key with its value. -/
def assign? (leading : String) : Reader Statement := fun cs => do
  let ((path, key), cs) ← dottedKey? leading cs
  let cs ← expect? '=' cs
  let start := skipBlanks cs
  let (v, rest) ← value? deepest start
  let (after, next) ← lineEnd? rest
  return (.assign ⟨path, key, taken cs start, taken start rest, after, v⟩, next)

/-- A statement from its first character on. -/
def read? (leading : String) : Reader Statement
  | '[' :: '[' :: rest => header? true leading rest
  | '[' :: rest => header? false leading rest
  | cs => assign? leading cs

end Statement

/-- The statements of a text and the blanks and comments after the last of them. -/
def statementsFrom : (fuel : Nat) → List Char → Option (List Statement × String)
  | 0, _ => none
  | fuel + 1, cs =>
    let rest := trivia cs
    let leading := taken cs rest
    if rest = [] then some ([], leading)
    else do
      let (s, rest) ← Statement.read? leading rest
      let (more, trailing) ← statementsFrom fuel rest
      return (s :: more, trailing)

/-- The statements of a whole text. -/
def statements? (text : String) : Option (List Statement × String) :=
  let cs := Document.withoutMark text.toList
  statementsFrom (cs.length + 1) cs

/-! ## Building the tables -/

/-- A last step that cannot fail, as a step of the chain. -/
theorem map_eq_bind_some {α β : Type} (f : α → β) (x : Option α) :
    x.map f = x.bind fun a => some (f a) := Option.map_eq_bind

namespace Progress

/-- Takes one statement. -/
def take (p : Progress) : Statement → Option Progress
  | .header element path key before after => p.enter element path key before after
  | .assign l => p.add l.path l.key l.item

/-- Takes statements in order. -/
def takeAll (p : Progress) (statements : List Statement) : Option Progress :=
  statements.foldlM take p

@[simp] theorem takeAll_nil (p : Progress) : p.takeAll [] = some p := rfl

@[simp] theorem takeAll_cons (p : Progress) (s : Statement) (rest : List Statement) :
    p.takeAll (s :: rest) = (p.take s).bind fun p => p.takeAll rest := List.foldlM_cons ..

theorem header?_eq (p : Progress) (element : Bool) (leading : String) (cs : List Char) :
    p.header? element leading cs =
      (Statement.header? element leading cs).bind fun (s, rest) => (p.take s).map (·, rest) := by
  cases element <;>
  simp [header?, Statement.header?, take, Option.bind_assoc, map_eq_bind_some]

theorem keyValue?_eq (p : Progress) (leading : String) (cs : List Char) :
    p.keyValue? leading cs =
      (Statement.assign? leading cs).bind fun (s, rest) => (p.take s).map (·, rest) := by
  simp [keyValue?, Statement.assign?, take, Line.item, Option.bind_assoc, map_eq_bind_some]

end Progress

namespace Document

/-- Reading is cutting the text and then building the tables. -/
theorem readFrom_eq (fuel : Nat) (p : Progress) (cs : List Char) :
    readFrom fuel p cs = (statementsFrom fuel cs).bind fun (ss, trailing) =>
      (p.takeAll ss).map fun p => ⟨p.entries, trailing⟩ := by
  induction fuel generalizing p cs with
  | zero => rfl
  | succ fuel ih =>
    have hstep (leading : String) (rest : List Char) :
        (Statement.read? leading rest).bind (fun (s, rest) => (p.take s).bind fun p =>
            readFrom fuel p rest) =
          ((Statement.read? leading rest).bind fun (s, rest) => (statementsFrom fuel rest).bind
            fun (more, trailing) => some (s :: more, trailing)).bind
              fun (ss, trailing) => (p.takeAll ss).map fun p => ⟨p.entries, trailing⟩ := by
      simp only [ih, Option.bind_assoc, map_eq_bind_some, Progress.takeAll_cons, Option.bind_some]
      congr 1
      funext (s, rest)
      exact Option.bind_comm ..
    specialize hstep (taken cs (trivia cs)) (trivia cs)
    simp only [readFrom, statementsFrom]
    by_cases hend : trivia cs = []
    · simp [hend]
    · rw [if_neg hend]
      refine Eq.trans ?_ hstep
      clear hstep
      simp only [Progress.header?_eq, Progress.keyValue?_eq]
      unfold Statement.read?
      split <;>
        simp_all [Option.bind_assoc, map_eq_bind_some]

/-- A document is read by cutting its text and building the tables. -/
theorem parse?_eq (text : String) :
    parse? text = (statements? text).bind fun (ss, trailing) =>
      (Progress.takeAll {} ss).map fun p => ⟨p.entries, trailing⟩ :=
  readFrom_eq ..

end Document

/-! ## Strict reading

A dotted key is meant to lead through tables that dotted keys made, and `addDotted` is laxer than
that: it also goes on below the parents of tables with headers and below tables of arrays. -/

namespace Entries

/-- Whether a dotted key leads only through tables that dotted keys made. -/
def alongDotted : List Key → Entries → Bool
  | [], _ => true
  | first :: rest, entries =>
    match find? entries first.name with
    | none => true
    | some (.table head sub) => head.origin == .dotted && alongDotted rest sub
    | some _ => false

/-- Adds a value under a dotted key that leads only through tables that dotted keys made. -/
def addStrictly (key : Key) (item : Item) (path : List Key) (entries : Entries) : Option Entries :=
  if alongDotted path entries then addDotted key item none path entries else none

end Entries

namespace Progress

/-- Takes one statement, a dotted key only as it is meant. -/
def takeStrictly (p : Progress) : Statement → Option Progress
  | .header element path key before after => p.enter element path key before after
  | .assign l =>
    (Entries.descend (Entries.addStrictly l.key l.item l.path) p.path p.entries).map
      fun entries => { p with entries }

/-- Takes statements in order. -/
def takeAllStrictly (p : Progress) (statements : List Statement) : Option Progress :=
  statements.foldlM takeStrictly p

@[simp] theorem takeAllStrictly_nil (p : Progress) : p.takeAllStrictly [] = some p := rfl

@[simp] theorem takeAllStrictly_cons (p : Progress) (s : Statement) (rest : List Statement) :
    p.takeAllStrictly (s :: rest) = (p.takeStrictly s).bind fun p => p.takeAllStrictly rest :=
  List.foldlM_cons ..

end Progress
end VideoSync.Toml
