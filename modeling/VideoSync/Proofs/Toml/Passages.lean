import VideoSync.Proofs.Toml.Statements

/-
  A document in passages: the lines before the first header, and then each header with the lines
  under it. What a statement does to the tables depends on the header before it, while what a
  passage does depends on nothing but itself. `takeAllStrictly_eq` says that to take the statements
  is to apply their passages one after the other.
-/

namespace VideoSync.Toml

/-- A header with the lines under it. -/
structure Passage where
  element : Bool
  path : List Key
  key : Key
  head : Head
  lines : List Line

/-! ## Applying a passage -/

/-- Adds a line to the entries of a table. -/
def Line.add (l : Line) : Entries → Option Entries := Entries.addStrictly l.key l.item l.path

/-- Adds lines to the table at the end of a path. -/
def addUnder (path : List Key) (lines : List Line) (entries : Entries) : Option Entries :=
  lines.foldlM (fun entries l => Entries.descend l.add path entries) entries

namespace Passage

/-- Opens a table below the last key's parent, of an array or on its own. -/
def opening (p : Passage) : Entries → Option Entries :=
  if p.element then Entries.openElement p.key p.head else Entries.openTable p.key p.head

/-- Opens the table of the header and adds the lines. -/
def apply (p : Passage) (entries : Entries) : Option Entries :=
  (Entries.descend p.opening p.path entries).bind (addUnder (p.path ++ [p.key]) p.lines)

end Passage

/-- Applies passages in order. -/
def applyAll (passages : List Passage) (entries : Entries) : Option Entries :=
  passages.foldlM (fun entries p => p.apply entries) entries

@[simp] theorem addUnder_nil (path : List Key) (entries : Entries) :
    addUnder path [] entries = some entries := rfl

@[simp] theorem addUnder_cons (path : List Key) (l : Line) (rest : List Line) (entries : Entries) :
    addUnder path (l :: rest) entries =
      (Entries.descend l.add path entries).bind (addUnder path rest) := List.foldlM_cons ..

@[simp] theorem applyAll_nil (entries : Entries) : applyAll [] entries = some entries := rfl

@[simp] theorem applyAll_cons (p : Passage) (rest : List Passage) (entries : Entries) :
    applyAll (p :: rest) entries = (p.apply entries).bind (applyAll rest) := List.foldlM_cons ..

/-! ## The passages of statements -/

/-- The lines before the first header of some statements, and the passages from there on, numbered
from `headers + 1`. -/
def outline : (headers : Nat) → List Statement → List Line × List Passage
  | _, [] => ([], [])
  | headers, .assign l :: rest =>
    let (lines, passages) := outline headers rest
    (l :: lines, passages)
  | headers, .header element path key before after :: rest =>
    let (lines, passages) := outline (headers + 1) rest
    let head : Head :=
      { place := some (headers + 1), before := some before, after := some after }
    ([], ⟨element, path, key, head, lines⟩ :: passages)

/-- Statements build what their passages build. -/
theorem takeAllStrictly_eq (p : Progress) (ss : List Statement) :
    (p.takeAllStrictly ss).map (·.entries) =
      (addUnder p.path (outline p.headers ss).1 p.entries).bind
        (applyAll (outline p.headers ss).2) := by
  induction ss generalizing p with
  | nil => rfl
  | cons s rest ih =>
    rw [Progress.takeAllStrictly_cons]
    cases s with
    | assign l =>
      rw [Progress.takeStrictly, outline, addUnder_cons, Line.add]
      cases Entries.descend _ p.path p.entries with
      | none => rfl
      | some entries => exact ih { p with entries }
    | header element path key before after =>
      rw [Progress.takeStrictly, Progress.enter, outline, addUnder_nil, Option.bind_some,
        applyAll_cons, Passage.apply, Passage.opening]
      cases Entries.descend _ path p.entries with
      | none => rfl
      | some entries =>
        rw [Option.bind_some]
        exact ih ⟨entries, path ++ [key], p.headers + 1⟩

end VideoSync.Toml
