import VideoSync.Proofs.Toml.Entries
import VideoSync.Proofs.Toml.Passages

/-
  Documents up to spelling. A respelling changes how keys are written and what is known of headers,
  but neither names nor how tables came about, and it drops how values are written. It goes past
  everything that builds tables: to build respelled tables is to build the tables and respell them.
-/

namespace VideoSync.Toml

/-- A change of keys that keeps their names, and of heads that keeps how tables came about. -/
structure Respelling where
  key : Key → Key
  head : Head → Head
  name_key : ∀ k, (key k).name = k.name
  origin_head : ∀ h, (head h).origin = h.origin
  head_fresh : ∀ origin, head { origin } = { origin }

namespace Respelling

attribute [simp] name_key origin_head head_fresh

/-- Keys in their plainest form. -/
def plainKeys : Respelling where
  key k := .plain k.name
  head h := h
  name_key _ := rfl
  origin_head _ := rfl
  head_fresh _ := rfl

/-- Keys in their plainest form, and nothing known of a table but how it came about. -/
def bare : Respelling where
  key k := .plain k.name
  head h := { origin := h.origin }
  name_key _ := rfl
  origin_head _ := rfl
  head_fresh _ := rfl

end Respelling

namespace Item

mutual

/-- An item in another spelling. -/
def respell (r : Respelling) : Item → Item
  | value _ _ _ v => value "" "" "" v
  | table head entries => table (r.head head) (respellEntries r entries)
  | tables elements => tables (respellElements r elements)

/-- Entries in another spelling. -/
def respellEntries (r : Respelling) : List (Key × Item) → List (Key × Item)
  | [] => []
  | (key, item) :: rest => (r.key key, item.respell r) :: respellEntries r rest

/-- The tables of an array in another spelling. -/
def respellElements (r : Respelling) :
    List (Head × List (Key × Item)) → List (Head × List (Key × Item))
  | [] => []
  | (head, entries) :: rest => (r.head head, respellEntries r entries) :: respellElements r rest

end

end Item

namespace Entries

variable (r : Respelling) {entries : Entries}

/-- Entries in another spelling. -/
def respell (entries : Entries) : Entries :=
  entries.map fun (key, item) => (r.key key, item.respell r)

theorem respellEntries_eq (entries : Entries) :
    Item.respellEntries r entries = respell r entries := by
  induction entries with
  | nil => rfl
  | cons e rest ih => rw [Item.respellEntries, ih]; rfl

theorem respellElements_eq (elements : List (Head × Entries)) :
    Item.respellElements r elements = elements.map fun (head, entries) =>
      (r.head head, respell r entries) := by
  induction elements with
  | nil => rfl
  | cons e rest ih => rw [Item.respellElements, ih, respellEntries_eq]; rfl

@[simp] theorem respell_nil : respell r [] = [] := rfl

@[simp] theorem respell_value (before written after : String) (v : Value) :
    (Item.value before written after v).respell r = .value "" "" "" v := rfl

@[simp] theorem respell_table (head : Head) (entries : Entries) :
    (Item.table head entries).respell r = .table (r.head head) (respell r entries) := by
  rw [Item.respell, respellEntries_eq]

@[simp] theorem respell_tables (elements : List (Head × Entries)) :
    (Item.tables elements).respell r = .tables (elements.map fun (head, entries) =>
      (r.head head, respell r entries)) := by
  rw [Item.respell, respellElements_eq]

@[simp] theorem respell_append (first second : Entries) :
    respell r (first ++ second) = respell r first ++ respell r second := List.map_append

theorem respell_cons (key : Key) (item : Item) (rest : Entries) :
    respell r ((key, item) :: rest) = (r.key key, item.respell r) :: respell r rest := rfl

@[simp] theorem respell_singleton (key : Key) (item : Item) :
    respell r [(key, item)] = [(r.key key, item.respell r)] := rfl

theorem map_name_respell : (respell r entries).map (·.1.name) = entries.map (·.1.name) := by
  unfold respell
  rw [List.map_map]
  exact List.map_congr_left fun e _ => r.name_key e.1

/-! ## Building respelled tables -/

@[simp] theorem find?_respell (name : String) :
    find? (respell r entries) name = (find? entries name).map (Item.respell r) := by
  unfold find? respell
  rw [List.find?_map, Option.map_map, Option.map_map]
  simp [Function.comp_def]

theorem set_respell (name : String) (item : Item) :
    set (respell r entries) name (item.respell r) = respell r (set entries name item) := by
  unfold set respell
  rw [List.map_map, List.map_map]
  refine List.map_congr_left fun e _ => ?_
  by_cases h : e.1.name = name <;> simp [h]

theorem erase_respell (name : String) :
    erase (respell r entries) name = respell r (erase entries name) := by
  unfold erase respell
  rw [List.filter_map]
  congr 2
  funext e
  simp

variable {r} {f g : Entries → Option Entries}

theorem inLast_respell
    (h : ∀ entries, f (respell r entries) = (g entries).map (respell r))
    (elements : List (Head × Entries)) :
    inLast f (elements.map fun (head, entries) => (r.head head, respell r entries)) =
      (inLast g elements).map (List.map fun (head, entries) =>
        (r.head head, respell r entries)) := by
  rcases List.eq_nil_or_concat elements with rfl | ⟨before, ⟨head, entries⟩, rfl⟩
  · rfl
  · rw [List.concat_eq_append, List.map_append, List.map_singleton, inLast_concat, inLast_concat,
      h, Option.map_map, Option.map_map]
    congr 1
    funext entries
    simp

theorem descend_respell (h : ∀ entries, f (respell r entries) = (g entries).map (respell r))
    (path : List Key) (entries : Entries) :
    descend f (path.map r.key) (respell r entries) = (descend g path entries).map (respell r) := by
  induction path generalizing entries with
  | nil => simpa using h entries
  | cons key rest ih =>
    rw [List.map_cons, descend, descend, find?_respell, r.name_key]
    cases find? entries key.name with
    | none =>
      have ih := ih []
      rw [respell_nil] at ih
      simp [ih, Function.comp_def]
    | some item =>
      cases item with
      | value => rfl
      | table head sub => simp [ih, Function.comp_def, ← set_respell]
      | tables elements =>
        simp [inLast_respell ih, Function.comp_def, ← set_respell]

theorem openTable_respell (key : Key) (head : Head) (entries : Entries) :
    openTable (r.key key) (r.head head) (respell r entries) =
      (openTable key head entries).map (respell r) := by
  cases hfind : find? entries key.name with
  | none => simp [openTable, hfind]
  | some item =>
    cases item with
    | value => simp [openTable, hfind]
    | tables => simp [openTable, hfind]
    | table old sub =>
      have hfind' : find? (respell r entries) (r.key key).name =
          some (.table (r.head old) (respell r sub)) := by simp [hfind]
      rw [openTable_of_table hfind, openTable_of_table hfind', r.origin_head, r.name_key,
        erase_respell]
      split <;> simp

theorem openElement_respell (key : Key) (head : Head) (entries : Entries) :
    openElement (r.key key) (r.head head) (respell r entries) =
      (openElement key head entries).map (respell r) := by
  rw [openElement, openElement, find?_respell, r.name_key]
  rcases find? entries key.name with _ | (_ | _ | elements)
  · simp
  · rfl
  · simp
  · simp [← set_respell]

theorem alongDotted_respell (path : List Key) (entries : Entries) :
    alongDotted (path.map r.key) (respell r entries) = alongDotted path entries := by
  induction path generalizing entries with
  | nil => rfl
  | cons first rest ih =>
    rw [List.map_cons, alongDotted, alongDotted, find?_respell, r.name_key]
    rcases find? entries first.name with _ | (_ | _ | _) <;> simp [ih]

theorem addDotted_respell (key : Key) (item : Item) (origin : Option Origin) (path : List Key)
    (entries : Entries) :
    addDotted (r.key key) (item.respell r) origin (path.map r.key) (respell r entries) =
      (addDotted key item origin path entries).map (respell r) := by
  induction path generalizing origin entries with
  | nil =>
    rw [List.map_nil, addDotted, addDotted]
    split
    · rw [add, add, find?_respell, r.name_key, Option.isSome_map]
      split <;> simp
    · rfl
  | cons first rest ih =>
    rw [List.map_cons, addDotted, addDotted, find?_respell, r.name_key]
    rcases find? entries first.name with _ | (_ | ⟨head, sub⟩ | elements)
    · have ih := ih (some .dotted) []
      rw [respell_nil] at ih
      simp [ih, Function.comp_def]
    · rfl
    · simp only [Option.map_some, respell_table, r.origin_head]
      split
      · rfl
      · simp [ih, Function.comp_def, ← set_respell]
    · simp [inLast_respell (ih _), Function.comp_def, ← set_respell]

end Entries

/-! ## Respelled lines and passages -/

open Entries

/-- A line in another spelling. -/
def Line.respell (r : Respelling) (l : Line) : Line :=
  ⟨l.path.map r.key, r.key l.key, "", "", "", l.value⟩

/-- A passage in another spelling. -/
def Passage.respell (r : Respelling) (p : Passage) : Passage :=
  { element := p.element
    path := p.path.map r.key
    key := r.key p.key
    head := r.head p.head
    lines := p.lines.map (Line.respell r) }

variable (r : Respelling)

theorem Line.add_respell (l : Line) (entries : Entries) :
    (l.respell r).add (entries.respell r) = (l.add entries).map (Entries.respell r) := by
  have hitem : (l.respell r).item = l.item.respell r := rfl
  rw [add, add, addStrictly, addStrictly, hitem, Line.respell, alongDotted_respell,
    addDotted_respell]
  split <;> rfl

theorem addUnder_respell (path : List Key) (lines : List Line) (entries : Entries) :
    addUnder (path.map r.key) (lines.map (Line.respell r)) (entries.respell r) =
      (addUnder path lines entries).map (Entries.respell r) := by
  induction lines generalizing entries with
  | nil => rfl
  | cons l lines ih =>
    rw [List.map_cons, addUnder_cons, addUnder_cons, descend_respell (l.add_respell r)]
    cases descend l.add path entries with
    | none => rfl
    | some entries => exact ih entries

theorem Passage.apply_respell (p : Passage) (entries : Entries) :
    (p.respell r).apply (entries.respell r) = (p.apply entries).map (Entries.respell r) := by
  have hopening (entries : Entries) : (p.respell r).opening (entries.respell r) =
      (p.opening entries).map (Entries.respell r) := by
    rw [opening, opening]
    cases helement : p.element <;>
      simp [respell, helement, openTable_respell, openElement_respell]
  rw [apply, apply]
  rw [show (p.respell r).path = p.path.map r.key from rfl, descend_respell hopening]
  cases descend p.opening p.path entries with
  | none => rfl
  | some entries =>
    rw [Option.bind_some, ← addUnder_respell, List.map_append]
    rfl

theorem applyAll_respell (passages : List Passage) (entries : Entries) :
    applyAll (passages.map (Passage.respell r)) (entries.respell r) =
      (applyAll passages entries).map (Entries.respell r) := by
  induction passages generalizing entries with
  | nil => rfl
  | cons p passages ih =>
    rw [List.map_cons, applyAll_cons, applyAll_cons, p.apply_respell]
    cases p.apply entries with
    | none => rfl
    | some entries => exact ih entries

/-! ## Plain keys and bare tables -/

mutual

theorem Item.respell_bare : ∀ item : Item,
    (item.respell .plainKeys).respell .bare = item.respell .bare
  | .value .. => rfl
  | .table head entries => by
    rw [respell_table, respell_table, respell_table, Entries.respell_bare entries]
    rfl
  | .tables elements => by
    rw [respell_tables, respell_tables, respell_tables, List.map_map]
    exact congrArg Item.tables (Item.respellElements_bare elements)

theorem Entries.respell_bare : ∀ entries : List (Key × Item),
    Entries.respell .bare (Entries.respell .plainKeys entries) = Entries.respell .bare entries
  | [] => rfl
  | (key, item) :: rest => by
    rw [respell_cons, respell_cons, respell_cons, item.respell_bare, Entries.respell_bare rest]
    rfl

theorem Item.respellElements_bare : ∀ elements : List (Head × List (Key × Item)),
    elements.map ((fun (head, entries) =>
        (Respelling.bare.head head, Entries.respell .bare entries)) ∘ fun (head, entries) =>
        (Respelling.plainKeys.head head, Entries.respell .plainKeys entries)) =
      elements.map fun (head, entries) =>
        (Respelling.bare.head head, Entries.respell .bare entries)
  | [] => rfl
  | (head, entries) :: rest => by
    rw [List.map_cons, List.map_cons, Item.respellElements_bare rest]
    exact congrArg (· :: _) (Prod.ext rfl (Entries.respell_bare entries))

end

theorem Line.respell_bare (l : Line) :
    (l.respell .plainKeys).respell .bare = l.respell .bare := by
  simp [Line.respell, Respelling.bare, Respelling.plainKeys, Key.plain]

theorem Passage.respell_bare (p : Passage) :
    (p.respell .plainKeys).respell .bare = p.respell .bare := by
  have hlines : (p.lines.map (Line.respell .plainKeys)).map (Line.respell .bare) =
      p.lines.map (Line.respell .bare) := by simp [Line.respell_bare]
  rw [Passage.respell, Passage.respell, Passage.respell, hlines]
  simp [Respelling.bare, Respelling.plainKeys, Key.plain]

/-- Building goes past a respelling. -/
theorem build_respell (lines : List Line) (passages : List Passage) :
    (addUnder [] (lines.map (Line.respell r)) []).bind
        (applyAll (passages.map (Passage.respell r))) =
      ((addUnder [] lines []).bind (applyAll passages)).map (Entries.respell r) := by
  have h := addUnder_respell r [] lines []
  rw [List.map_nil, respell_nil] at h
  rw [h]
  cases addUnder [] lines [] with
  | none => rfl
  | some entries => exact applyAll_respell r passages entries

end VideoSync.Toml
