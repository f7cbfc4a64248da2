import Mathlib.Data.Finset.Card
import Mathlib.Data.Finset.Union
import VideoSync.Sync.Binding

/-
  What a resolved table binds. All bindings have the same handler, so a table shows nothing but the
  set of its elements: an element has a handler if it is in the set (`handler?_eq`), and, since
  inserting never leaves two bindings of one element (`Distinct`), the size is that of the set
  (`Distinct.size_eq`). Resolving a list gives the set of the elements that it names and the plot
  has (`elements_resolve`), whatever their order and however often they are named:
  `resolve_collects`.
-/

namespace VideoSync.Sync.BindingTable

/-- An element is bound. -/
def Binds (t : BindingTable) (element : String) : Prop := ∃ b ∈ t.bindings, b.element = element

instance (t : BindingTable) (element : String) : Decidable (t.Binds element) :=
  inferInstanceAs (Decidable (∃ b ∈ t.bindings, b.element = element))

/-- No element is bound twice. -/
def Distinct (t : BindingTable) : Prop := (t.bindings.map (·.element)).Nodup

/-- The elements that are bound. -/
def elements (t : BindingTable) : Finset String := (t.bindings.map (·.element)).toFinset

/-- The elements that bindings name and a plot has. -/
def named (hasElement : String → Bool) (bindings : List Binding) : Finset String :=
  (bindings.map (·.element)).toFinset.filter (hasElement ·)

/-! ## Handlers -/

theorem handler?_eq (t : BindingTable) (element : String) :
    t.handler? element = if t.Binds element then some .seekVideo else none := by
  unfold handler?
  cases hfind : t.bindings.find? (·.element == element) with
  | none =>
    rw [if_neg]
    · rfl
    · rintro ⟨b, hb, rfl⟩
      have hnot := List.find?_eq_none.mp hfind b hb
      exact hnot (beq_self_eq_true _)
  | some b =>
    have hb : b.element = element := by simpa using List.find?_some hfind
    rw [if_pos ⟨b, List.mem_of_find?_eq_some hfind, hb⟩]
    rfl

theorem mem_elements {t : BindingTable} {element : String} :
    element ∈ t.elements ↔ t.Binds element := by
  rw [elements, List.mem_toFinset, List.mem_map]
  rfl

/-! ## Insertion -/

theorem binds_insert (t : BindingTable) (b : Binding) (element : String) :
    (t.insert b).Binds element ↔ b.element = element ∨ t.Binds element := by
  constructor
  · rintro ⟨x, hx, rfl⟩
    rcases List.mem_append.mp hx with hx | hx
    · exact .inr ⟨x, (List.mem_filter.mp hx).1, rfl⟩
    · exact .inl (by rw [List.mem_singleton.mp hx])
  · rintro (rfl | ⟨x, hx, rfl⟩)
    · exact ⟨b, List.mem_append_right _ (List.mem_singleton_self b), rfl⟩
    · by_cases hsame : x.element = b.element
      · exact ⟨b, List.mem_append_right _ (List.mem_singleton_self b), hsame.symm⟩
      · exact ⟨x, List.mem_append_left _ (List.mem_filter.mpr ⟨hx, bne_iff_ne.mpr hsame⟩), rfl⟩

theorem binds_foldl_insert (bindings : List Binding) (t : BindingTable) (element : String) :
    (bindings.foldl insert t).Binds element ↔
      (∃ b ∈ bindings, b.element = element) ∨ t.Binds element := by
  induction bindings generalizing t with
  | nil => simp
  | cons b bindings ih =>
    rw [List.foldl_cons, ih, binds_insert]
    simp only [List.mem_cons, exists_eq_or_imp, or_assoc, or_left_comm]

/-- The older binding of an element goes before the new one comes. -/
theorem Distinct.insert {t : BindingTable} (h : t.Distinct) (b : Binding) :
    (t.insert b).Distinct := by
  have hkept : ((t.bindings.filter (·.element != b.element)).map (·.element)).Nodup :=
    h.sublist (List.filter_sublist.map _)
  have hnew : b.element ∉ (t.bindings.filter (·.element != b.element)).map (·.element) := by
    intro hmem
    obtain ⟨x, hx, hsame⟩ := List.mem_map.mp hmem
    exact bne_iff_ne.mp (List.mem_filter.mp hx).2 hsame
  rw [Distinct, BindingTable.insert, List.map_append]
  exact hkept.append (List.nodup_singleton b.element) (List.disjoint_singleton.mpr hnew)

theorem Distinct.foldl_insert {t : BindingTable} (h : t.Distinct) (bindings : List Binding) :
    (bindings.foldl BindingTable.insert t).Distinct := by
  induction bindings generalizing t with
  | nil => exact h
  | cons b bindings ih => exact ih (h.insert b)

/-- A table without repetitions has one binding for each of its elements. -/
theorem Distinct.size_eq {t : BindingTable} (h : t.Distinct) : t.size = t.elements.card := by
  rw [elements, List.toFinset_card_of_nodup h, List.length_map]
  rfl

/-! ## Resolution -/

theorem distinct_resolve (hasElement : String → Bool) (bindings : List Binding) :
    (resolve hasElement bindings).Distinct := by
  have hempty : ({} : BindingTable).Distinct := List.nodup_nil
  exact hempty.foldl_insert _

/-- A resolved table binds the elements that the plot has and that there is a binding for. -/
theorem binds_resolve (hasElement : String → Bool) (bindings : List Binding) (element : String) :
    (resolve hasElement bindings).Binds element ↔
      hasElement element ∧ ∃ b ∈ bindings, b.element = element := by
  have hempty : ¬ ({} : BindingTable).Binds element := fun ⟨_, hb, _⟩ => List.not_mem_nil hb
  rw [resolve, binds_foldl_insert, or_iff_left hempty]
  constructor
  · rintro ⟨b, hb, rfl⟩
    obtain ⟨hmem, hhas⟩ := List.mem_filter.mp hb
    exact ⟨hhas, b, hmem, rfl⟩
  · rintro ⟨hhas, b, hmem, rfl⟩
    exact ⟨b, List.mem_filter.mpr ⟨hmem, hhas⟩, rfl⟩

theorem elements_resolve (hasElement : String → Bool) (bindings : List Binding) :
    (resolve hasElement bindings).elements = named hasElement bindings := by
  ext element
  rw [mem_elements, binds_resolve, named, Finset.mem_filter, List.mem_toFinset, List.mem_map,
    and_comm]

theorem size_resolve (hasElement : String → Bool) (bindings : List Binding) :
    (resolve hasElement bindings).size = (named hasElement bindings).card := by
  rw [(distinct_resolve hasElement bindings).size_eq, elements_resolve]

theorem handler?_resolve (hasElement : String → Bool) (bindings : List Binding)
    (element : String) :
    (resolve hasElement bindings).handler? element =
      if element ∈ named hasElement bindings then some .seekVideo else none := by
  rw [handler?_eq]
  exact if_congr (by rw [← elements_resolve, mem_elements]) rfl rfl

theorem named_append (hasElement : String → Bool) (bindings more : List Binding) :
    named hasElement (bindings ++ more) = named hasElement bindings ∪ named hasElement more := by
  rw [named, List.map_append, List.toFinset_append, Finset.filter_union]
  rfl

/-- Lists with the same members name the same elements. -/
theorem named_congr (hasElement : String → Bool) {bindings others : List Binding}
    (h : ∀ b, b ∈ others ↔ b ∈ bindings) :
    named hasElement others = named hasElement bindings := by
  ext element
  simp only [named, Finset.mem_filter, List.mem_toFinset, List.mem_map, h]

/-- A resolved table is the set of the elements that the bindings name and the plot has: it has a
handler for these elements, as many as there are, and is empty if there are none. Lists with the
same bindings, in any order and with any repetitions, give tables that show the same, and bindings
that are put together give the union of what they give alone. -/
theorem resolve_collects (hasElement : String → Bool) (bindings : List Binding) :
    (∀ element, ((resolve hasElement bindings).handler? element).isSome ↔
      (∃ b ∈ bindings, b.element = element) ∧ hasElement element) ∧
    (resolve hasElement bindings).size = (named hasElement bindings).card ∧
    ((resolve hasElement bindings).isEmpty ↔
      ¬ ∃ element, (∃ b ∈ bindings, b.element = element) ∧ hasElement element) ∧
    (∀ others, (∀ b, b ∈ others ↔ b ∈ bindings) →
      (∀ element, (resolve hasElement others).handler? element =
        (resolve hasElement bindings).handler? element) ∧
      (resolve hasElement others).size = (resolve hasElement bindings).size) ∧
    ∀ more,
      (∀ element, (resolve hasElement (bindings ++ more)).handler? element =
        ((resolve hasElement bindings).handler? element).or
          ((resolve hasElement more).handler? element)) ∧
      (resolve hasElement (bindings ++ more)).size =
        ((resolve hasElement bindings).elements ∪ (resolve hasElement more).elements).card := by
  have hmem (element : String) : element ∈ named hasElement bindings ↔
      (∃ b ∈ bindings, b.element = element) ∧ hasElement element := by
    rw [← elements_resolve, mem_elements, binds_resolve, and_comm]
  refine ⟨fun element => ?_, size_resolve hasElement bindings, ?_, fun others h => ?_,
    fun more => ⟨fun element => ?_, ?_⟩⟩
  · rw [handler?_resolve, ← hmem]
    by_cases hnamed : element ∈ named hasElement bindings <;> simp [hnamed]
  · have hsize : (resolve hasElement bindings).isEmpty ↔
        (resolve hasElement bindings).size = 0 := by
      rw [isEmpty, List.isEmpty_iff, size, List.length_eq_zero_iff]
    rw [hsize, size_resolve, Finset.card_eq_zero, Finset.eq_empty_iff_forall_notMem, not_exists]
    exact forall_congr' fun element => not_congr (hmem element)
  · rw [size_resolve, size_resolve, named_congr hasElement h]
    refine ⟨fun element => ?_, rfl⟩
    rw [handler?_resolve, handler?_resolve, named_congr hasElement h]
  · rw [handler?_resolve, handler?_resolve, handler?_resolve, named_append]
    by_cases hnamed : element ∈ named hasElement bindings <;> simp [hnamed]
  · rw [size_resolve, elements_resolve, elements_resolve, named_append]

/-- The plot has one of two elements. Named twice each and in another order, they give a table that
shows the same. -/
theorem resolve_collects_repeated :
    let hasElement := (· == "travel")
    let others : List Binding :=
      [⟨"velocity", .seekVideo⟩, ⟨"travel", .seekVideo⟩, ⟨"velocity", .seekVideo⟩,
        ⟨"travel", .seekVideo⟩]
    (∀ b, b ∈ others ↔ b ∈ defaults) ∧
      (resolve hasElement others).size = (resolve hasElement defaults).size ∧
      (resolve hasElement defaults).size = 1 ∧
      ((resolve hasElement others).handler? "velocity").isNone := by
  have hsame : ∀ b : Binding,
      b ∈ [⟨"velocity", .seekVideo⟩, ⟨"travel", .seekVideo⟩, ⟨"velocity", .seekVideo⟩,
        (⟨"travel", .seekVideo⟩ : Binding)] ↔ b ∈ defaults := by
    intro b
    simp only [defaults, List.mem_cons, List.not_mem_nil, or_false]
    tauto
  obtain ⟨-, -, -, halike, -⟩ := resolve_collects (· == "travel") defaults
  exact ⟨hsame, (halike _ hsame).2, by decide, by decide⟩

end VideoSync.Sync.BindingTable
