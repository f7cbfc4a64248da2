/-
  Which elements of a plot may ask for a seek. A table keeps the bindings whose element the plot
  has, one for each element.
-/

namespace VideoSync.Sync

/-- What is done with the events of a plot element. -/
inductive Handler where
  | seekVideo
  deriving DecidableEq, Repr

/-- A plot element and its handler. -/
structure Binding where
  element : String
  handler : Handler := .seekVideo
  deriving DecidableEq, Repr

/-- Bindings that hold, at most one for an element. -/
structure BindingTable where
  bindings : List Binding := []
  deriving DecidableEq, Repr

namespace BindingTable

/-- The bindings of the dashboard's plots. -/
def defaults : List Binding := [⟨"travel", .seekVideo⟩, ⟨"velocity", .seekVideo⟩]

/-- Adds a binding in place of an older one for the same element. -/
def insert (t : BindingTable) (b : Binding) : BindingTable :=
  ⟨t.bindings.filter (·.element != b.element) ++ [b]⟩

/-- Keeps the bindings whose element the plot has; a later binding of an element wins. -/
def resolve (hasElement : String → Bool) (bindings : List Binding) : BindingTable :=
  (bindings.filter (hasElement ·.element)).foldl insert {}

/-- The handler of an element. -/
def handler? (t : BindingTable) (element : String) : Option Handler :=
  (t.bindings.find? (·.element == element)).map (·.handler)

/-- How many elements are bound. -/
def size (t : BindingTable) : Nat := t.bindings.length

/-- Whether no element is bound. -/
def isEmpty (t : BindingTable) : Bool := t.bindings.isEmpty

end BindingTable
end VideoSync.Sync
