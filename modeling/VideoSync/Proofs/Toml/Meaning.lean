import VideoSync.Proofs.Toml.Projection
import VideoSync.Proofs.Toml.Respelling
import VideoSync.Toml.Document

/-
  What documents mean. The spelling of a table says nothing, and a document says of a name what its
  entries of that name say; so two documents agree on a name as soon as their entries of that name
  are the same up to spelling.
-/

namespace VideoSync.Toml

open Item Entries

/-! ## Spelling says nothing -/

mutual

theorem Item.toValue_respell (r : Respelling) :
    ∀ item : Item, (item.respell r).toValue = item.toValue
  | .value .. => rfl
  | .table head entries => by
    rw [respell_table, toValue, toValue, Entries.toValues_respell r entries]
  | .tables elements => by
    rw [respell_tables, toValue, toValue, Item.elementsToValues_respell r elements]

theorem Entries.toValues_respell (r : Respelling) : ∀ entries : List (Key × Item),
    entriesToValues (Entries.respell r entries) = entriesToValues entries
  | [] => rfl
  | (key, item) :: rest => by
    rw [respell_cons, entriesToValues, entriesToValues, r.name_key, item.toValue_respell r,
      Entries.toValues_respell r rest]

theorem Item.elementsToValues_respell (r : Respelling) :
    ∀ elements : List (Head × List (Key × Item)),
      elementsToValues
          (elements.map fun (head, entries) => (r.head head, Entries.respell r entries)) =
        elementsToValues elements
  | [] => rfl
  | (head, entries) :: rest => by
    rw [List.map_cons, elementsToValues, elementsToValues, Entries.toValues_respell r entries,
      Item.elementsToValues_respell r rest]

end

theorem entriesToValues_eq (entries : Entries) :
    entriesToValues entries = entries.map fun e => (e.1.name, e.2.toValue) := by
  induction entries with
  | nil => rfl
  | cons e rest ih => rw [entriesToValues, ih, List.map_cons]

theorem Value.entriesToData_eq (entries : List (String × Value)) :
    entriesToData entries = entries.map fun e => (e.1, e.2.toDatum) := by
  induction entries with
  | nil => rfl
  | cons e rest ih => rw [entriesToData, ih, List.map_cons]

/-! ## What stands under a name -/

namespace Document

/-- The values that a document has under a top-level name. -/
def under (d : Document) (name : String) : List Value :=
  (restrict name d.entries).map (·.2.toValue)

theorem under_respell (r : Respelling) (d : Document) (name : String) :
    d.under name = (restrict name (Entries.respell r d.entries)).map (·.2.toValue) := by
  rw [under, restrict, restrict, Entries.respell, List.filter_map, List.map_map]
  simp [Function.comp_def, toValue_respell]

/-- Entries that are the same up to spelling say the same. -/
theorem under_eq {d d' : Document} {name : String} {r : Respelling}
    (h : restrict name (Entries.respell r d'.entries) =
      restrict name (Entries.respell r d.entries)) :
    d'.under name = d.under name := by
  rw [under_respell r, under_respell r, h]

/-- A table that stands alone under a name, in any spelling. -/
theorem under_eq_table {d : Document} {name : String} {r : Respelling} {key : Key} {head : Head}
    {tree : Entries} (h : restrict name (Entries.respell r d.entries) =
      [(key, .table head (Entries.respell r tree))]) :
    d.under name = [.table (entriesToValues tree)] := by
  rw [under_respell r, h, List.map_singleton, Item.toValue, Entries.toValues_respell]

theorem find?_toValue (d : Document) (name : String) :
    (find? d.entries name).map Item.toValue = (d.under name).head? := by
  rw [under, restrict, Entries.find?, List.head?_map, List.head?_filter, Option.map_map]
  rfl

/-- What a document says, name by name. -/
def data (d : Document) : List (String × Datum) := Value.entriesToData (entriesToValues d.entries)

theorem toDatum_eq (d : Document) : d.toDatum = .fields d.data := rfl

theorem data_eq (d : Document) :
    d.data = d.entries.map fun e => (e.1.name, e.2.toValue.toDatum) := by
  rw [data, Value.entriesToData_eq, entriesToValues_eq, List.map_map]
  rfl

theorem data_filter (d : Document) (name : String) :
    (d.data.filter (·.1 == name)).map (·.2) = (d.under name).map Value.toDatum := by
  rw [data_eq, under, restrict, List.filter_map, List.map_map, List.map_map]
  rfl

theorem mem_data {d : Document} {name : String} {datum : Datum} :
    (name, datum) ∈ d.data ↔ datum ∈ (d.under name).map Value.toDatum := by
  rw [← data_filter, List.mem_map]
  constructor
  · intro h
    exact ⟨_, List.mem_filter.mpr ⟨h, by simp⟩, rfl⟩
  · rintro ⟨⟨other, datum⟩, hfilter, rfl⟩
    obtain ⟨hmem, hname⟩ := List.mem_filter.mp hfilter
    obtain rfl : other = name := by simpa using hname
    exact hmem

end Document

end VideoSync.Toml
