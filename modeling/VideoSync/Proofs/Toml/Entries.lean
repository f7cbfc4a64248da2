import VideoSync.Toml.Table

/-
  How looking up, replacing and taking out entries go together, and that two changes below one path
  are one change. Nothing here asks what the entries are.
-/

namespace VideoSync.Toml.Entries

variable {entries pre post : Entries} {name other : String} {key : Key} {item item' : Item}

/-! ## Looking up -/

@[simp] theorem find?_nil : find? [] name = none := rfl

@[simp] theorem find?_singleton_self : find? [(key, item)] key.name = some item := by
  simp [find?]

theorem find?_singleton_of_ne (h : key.name ≠ name) : find? [(key, item)] name = none := by
  simp [find?, h]

theorem find?_append (first second : Entries) (name : String) :
    find? (first ++ second) name = (find? first name).or (find? second name) := by
  unfold find?
  rw [List.find?_append, Option.map_or]

theorem find?_eq_none : find? entries name = none ↔ ∀ e ∈ entries, e.1.name ≠ name := by
  simp [find?]

theorem isSome_find? : (find? entries name).isSome = true ↔ name ∈ entries.map (·.1.name) := by
  rw [Option.isSome_iff_ne_none, ne_eq, find?_eq_none, List.mem_map]
  simp

/-- An entry that is found has entries of other names before it. -/
theorem exists_of_find? (h : find? entries name = some item) :
    ∃ pre key post, entries = pre ++ (key, item) :: post ∧ key.name = name ∧
      find? pre name = none := by
  unfold find? at h
  obtain ⟨⟨key, found⟩, hfind, rfl⟩ := Option.map_eq_some_iff.mp h
  obtain ⟨hname, pre, post, rfl, hpre⟩ := List.find?_eq_some_iff_append.mp hfind
  refine ⟨pre, key, post, rfl, by simpa using hname, find?_eq_none.mpr fun e he => ?_⟩
  simpa using hpre e he

theorem find?_split (hpre : find? pre key.name = none) :
    find? (pre ++ (key, item) :: post) key.name = some item := by
  rw [find?_append, hpre, Option.none_or, ← List.singleton_append, find?_append,
    find?_singleton_self, Option.some_or]

/-! ## Replacing and taking out -/

theorem set_append (first second : Entries) (name : String) (item : Item) :
    set (first ++ second) name item = set first name item ++ set second name item :=
  List.map_append

theorem set_of_find?_eq_none (h : find? entries name = none) : set entries name item = entries := by
  unfold set
  refine (List.map_congr_left fun e he => ?_).trans (List.map_id entries)
  rw [if_neg (find?_eq_none.mp h e he), id]

@[simp] theorem set_singleton_self : set [(key, item)] key.name item' = [(key, item')] := by
  simp [set]

theorem set_split (hpre : find? pre key.name = none) (hpost : find? post key.name = none) :
    set (pre ++ (key, item) :: post) key.name item' = pre ++ (key, item') :: post := by
  rw [← List.singleton_append, set_append, set_append, set_of_find?_eq_none hpre,
    set_of_find?_eq_none hpost, set_singleton_self, List.singleton_append]

theorem set_singleton_of_ne (h : key.name ≠ name) :
    set [(key, item)] name item' = [(key, item)] := by simp [set, h]

@[simp] theorem set_set : set (set entries name item) name item' = set entries name item' := by
  unfold set
  rw [List.map_map]
  refine List.map_congr_left fun e _ => ?_
  by_cases h : e.1.name = name <;> simp [h]

theorem find?_set_eq_none (name : String) (item : Item) (other : String) :
    find? (set entries name item) other = none ↔ find? entries other = none := by
  rw [find?_eq_none, find?_eq_none, set, List.forall_mem_map]
  refine forall₂_congr fun e _ => ?_
  split <;> rfl

theorem find?_set_self (h : find? entries name = some item) :
    find? (set entries name item') name = some item' := by
  obtain ⟨pre, key, post, rfl, rfl, hpre⟩ := exists_of_find? h
  rw [← List.singleton_append, set_append, set_append, set_of_find?_eq_none hpre,
    set_singleton_self, find?_append, find?_append, hpre, find?_singleton_self]
  rfl

theorem erase_split (hpre : find? pre key.name = none) (hpost : find? post key.name = none) :
    erase (pre ++ (key, item) :: post) key.name = pre ++ post := by
  unfold erase
  rw [List.filter_append, List.filter_cons_of_neg (by simp),
    List.filter_eq_self.mpr fun e he => by simpa using find?_eq_none.mp hpre e he,
    List.filter_eq_self.mpr fun e he => by simpa using find?_eq_none.mp hpost e he]

theorem find?_erase_self : find? (erase entries name) name = none :=
  find?_eq_none.mpr fun e he => by simpa using (List.mem_filter.mp he).2

/-! ## Changes below a path -/

variable {f g : Entries → Option Entries} {path : List Key}

@[simp] theorem inLast_nil : inLast f [] = none := rfl

@[simp] theorem inLast_concat (before : List (Head × Entries)) (head : Head) (entries : Entries) :
    inLast f (before ++ [(head, entries)]) =
      (f entries).map fun entries => before ++ [(head, entries)] := by
  induction before with
  | nil => rfl
  | cons e rest ih =>
    rw [List.cons_append, inLast, ih, Option.map_map]
    · rfl
    · simp

theorem inLast_bind (elements : List (Head × Entries)) :
    (inLast f elements).bind (inLast g) = inLast (fun entries => (f entries).bind g) elements := by
  rcases List.eq_nil_or_concat elements with rfl | ⟨before, ⟨head, entries⟩, rfl⟩
  · rfl
  · cases h : f entries <;> simp [h]

theorem inLast_mono (hfg : ∀ {entries entries'}, f entries = some entries' →
      g entries = some entries') {elements elements' : List (Head × Entries)}
    (h : inLast f elements = some elements') : inLast g elements = some elements' := by
  rcases List.eq_nil_or_concat elements with rfl | ⟨before, ⟨head, entries⟩, rfl⟩
  · simp at h
  · rw [List.concat_eq_append, inLast_concat] at h ⊢
    obtain ⟨entries', hf, rfl⟩ := Option.map_eq_some_iff.mp h
    rw [hfg hf, Option.map_some]

@[simp] theorem descend_nil : descend f [] = f := by
  funext entries
  rw [descend]

theorem descend_append (f : Entries → Option Entries) (path more : List Key) :
    descend f (path ++ more) = descend (descend f more) path := by
  induction path with
  | nil => rw [List.nil_append, descend_nil]
  | cons key rest ih =>
    funext entries
    rw [List.cons_append, descend, descend, ih]

/-- Two changes below one path are one change. -/
theorem descend_bind (f g : Entries → Option Entries) (path : List Key) (entries : Entries) :
    (descend f path entries).bind (descend g path) =
      descend (fun entries => (f entries).bind g) path entries := by
  induction path generalizing entries with
  | nil => simp
  | cons key rest ih =>
    rw [descend, descend]
    cases hfind : find? entries key.name with
    | none =>
      dsimp only
      rw [← ih]
      cases descend f rest [] with
      | none => rfl
      | some sub =>
        have hnew : find? (entries ++ [(key, .table { origin := .parent } sub)]) key.name =
            some (.table { origin := .parent } sub) := find?_split hfind
        rw [Option.map_some, Option.bind_some, descend, hnew, Option.bind_some]
        dsimp only
        congr 1
        funext sub'
        exact set_split hfind find?_nil
    | some item =>
      cases item with
      | value => rfl
      | table head sub =>
        dsimp only
        rw [← ih]
        cases descend f rest sub with
        | none => rfl
        | some sub =>
          rw [Option.map_some, Option.bind_some, descend, find?_set_self hfind, Option.bind_some]
          simp only [set_set]
      | tables elements =>
        dsimp only
        have hrest : (fun entries => (descend f rest entries).bind (descend g rest)) =
            descend (fun entries => (f entries).bind g) rest := funext ih
        rw [← hrest, ← inLast_bind]
        cases inLast (descend f rest) elements with
        | none => rfl
        | some elements =>
          rw [Option.map_some, Option.bind_some, descend, find?_set_self hfind, Option.bind_some]
          simp only [set_set]

theorem descend_mono (hfg : ∀ {entries entries'}, f entries = some entries' →
      g entries = some entries') {entries' : Entries}
    (h : descend f path entries = some entries') : descend g path entries = some entries' := by
  induction path generalizing entries entries' with
  | nil => exact hfg h
  | cons key rest ih =>
    rw [descend] at h ⊢
    split at h
    · obtain ⟨sub, hsub, rfl⟩ := Option.map_eq_some_iff.mp h
      rw [ih hsub, Option.map_some]
    · contradiction
    · obtain ⟨sub, hsub, rfl⟩ := Option.map_eq_some_iff.mp h
      rw [ih hsub, Option.map_some]
    · obtain ⟨elements, hel, rfl⟩ := Option.map_eq_some_iff.mp h
      rw [inLast_mono ih hel, Option.map_some]

/-! ## Opening tables -/

theorem openTable_of_table {head old : Head} {sub : Entries}
    (h : find? entries key.name = some (.table old sub)) :
    openTable key head entries = if old.origin = .parent then
      some (erase entries key.name ++ [(key, .table head sub)]) else none := by
  rw [openTable, h]
  obtain ⟨origin, _, _, _⟩ := old
  cases origin <;> rfl

end VideoSync.Toml.Entries
