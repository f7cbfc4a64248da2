import VideoSync.Proofs.Toml.Blocks
import VideoSync.Proofs.Toml.Gaps

/-
  What is written. A written document is the text of statements: the lines of the root, and then the
  header and the lines of each table in the order of their places.
-/

namespace VideoSync.Toml

open Item Entries Document

/-! ## The text of statements -/

/-- A line as it is written. -/
def Line.text (l : Line) : String :=
  keyText (l.path ++ [l.key]) ++ "=" ++ l.before ++ l.written ++ l.after ++ "\n"

/-- A statement as it is written. -/
def Statement.text : Statement → String
  | .header element path key before after =>
    let key := keyText (path ++ [key])
    before ++ (if element then "[[" ++ key ++ "]]" else "[" ++ key ++ "]") ++ after ++ "\n"
  | .assign l => l.text

/-- Statements one after the other. -/
def textOf : List Statement → String
  | [] => ""
  | s :: rest => s.text ++ textOf rest

theorem textOf_append (first second : List Statement) :
    textOf (first ++ second) = textOf first ++ textOf second := by
  induction first with
  | nil => simp [textOf]
  | cons s rest ih => rw [List.cons_append, textOf, textOf, ih, String.append_assoc]

namespace Document

mutual

theorem valueLines_eq : ∀ (entries : List (Key × Item)) (path : List Key),
    valueLines path entries = textOf ((entryLines path entries).map .assign)
  | [], _ => rfl
  | (key, item) :: rest, path => by
    rw [valueLines, entryLines, List.map_append, textOf_append, itemLines_eq key item path,
      valueLines_eq rest path]

theorem itemLines_eq (key : Key) : ∀ (item : Item) (path : List Key),
    itemLines (path ++ [key]) item = textOf ((Item.itemLines path key item).map .assign)
  | .value before written after v, path => by
    simp [itemLines, Item.itemLines, textOf, Statement.text, Line.text]
  | .table head entries, path => by
    rw [itemLines, Item.itemLines]
    split
    · exact valueLines_eq entries (path ++ [key])
    · rfl
  | .tables _, _ => rfl

end

/-- The header and the lines of a table; a header without a text before it has an empty line there
unless it comes first. -/
def Block.statements (b : Block) (first : Bool) : List Statement :=
  .header b.element b.passage.path b.passage.key
      (b.head.before.getD (if first then "" else "\n")) (b.head.after.getD "") ::
    b.passage.lines.map .assign

/-- The statements of tables one after the other. -/
def blocksStatements (first : Bool) : List Block → List Statement
  | [] => []
  | b :: rest =>
    if b.hasHeader then b.statements first ++ blocksStatements false rest
    else blocksStatements first rest

theorem Block.text_eq {b : Block} (h : b.Sound) (first : Bool) :
    b.text first = if b.hasHeader then some (textOf (b.statements first)) else none := by
  have hpath : b.passage.path ++ [b.passage.key] = b.path := by
    have := List.dropLast_append_getLast h.path
    rw [passage, List.getLast?_eq_some_getLast h.path, Option.getD_some, this]
  rw [text]
  cases hheader : b.hasHeader with
  | false =>
    have horigin : b.head.origin = .parent := by simp_all [hasHeader]
    have hlines : valueLines [] b.entries = "" := by
      rw [valueLines_eq, (h.lineFree hheader).entryLines_eq_nil]
      rfl
    rw [if_pos ⟨horigin, hlines⟩, if_neg (by simp)]
  | true =>
    rw [if_neg (by simp [h.header hheader]), if_pos rfl, statements, textOf, Statement.text, hpath,
      valueLines_eq]
    rfl

theorem blocksText_eq {bs : List Block} (h : ∀ b ∈ bs, b.Sound) (first : Bool) :
    blocksText first bs = textOf (blocksStatements first bs) := by
  induction bs generalizing first with
  | nil => rfl
  | cons b rest ih =>
    obtain ⟨hb, hrest⟩ := List.forall_mem_cons.mp h
    rw [blocksText, b.text_eq hb, blocksStatements]
    cases hheader : b.hasHeader with
    | false => exact ih hrest first
    | true => simp only [if_true, textOf_append, ih hrest]

/-- The tables of a document in the order of their places. -/
def sortedBlocks (entries : Entries) : List Block :=
  (blocks 0 [] entries).2.mergeSort fun a b => a.place ≤ b.place

/-- The statements that are written for a document. -/
def statements (d : Document) : List Statement :=
  (entryLines [] d.entries).map .assign ++
    blocksStatements (valueLines [] d.entries == "") (sortedBlocks d.entries)

theorem render_eq {d : Document} (h : ∀ b ∈ sortedBlocks d.entries, b.Sound) :
    d.render = String.ofList (clean (textOf d.statements ++ d.trailing).toList) := by
  rw [render, ← sortedBlocks, blocksText_eq h, statements, textOf_append, ← valueLines_eq]
  rfl

end Document

end VideoSync.Toml
