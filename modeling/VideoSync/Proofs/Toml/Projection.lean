import VideoSync.Proofs.Toml.Entries
import VideoSync.Proofs.Toml.Passages

/-
  A document one top-level name at a time. A line and a passage each concern one top-level name:
  they leave all entries of other names as they are, and on the entries of their own name they do
  what they would do if there were no others. So lines and passages of different names may be put in
  any order; `runAll_restrict` and `runAll_of_restrict` say what a document comes to.
-/

namespace VideoSync.Toml

namespace Entries

variable {entries entries' : Entries} {name other : String} {key : Key} {item : Item}

/-- The entries of one name. -/
def restrict (name : String) (entries : Entries) : Entries :=
  entries.filter fun e => e.1.name == name

theorem restrict_append (name : String) (first second : Entries) :
    restrict name (first ++ second) = restrict name first ++ restrict name second :=
  List.filter_append ..

@[simp] theorem restrict_nil : restrict name [] = [] := rfl

theorem restrict_cons_self (rest : Entries) :
    restrict key.name ((key, item) :: rest) = (key, item) :: restrict key.name rest :=
  List.filter_cons_of_pos (by simp)

theorem restrict_cons_of_ne (h : key.name ≠ name) (rest : Entries) :
    restrict name ((key, item) :: rest) = restrict name rest :=
  List.filter_cons_of_neg (by simpa using h)

@[simp] theorem restrict_singleton_self : restrict key.name [(key, item)] = [(key, item)] := by
  simp [restrict]

theorem restrict_singleton_of_ne (h : key.name ≠ name) : restrict name [(key, item)] = [] := by
  simp [restrict, h]

@[simp] theorem find?_restrict_self : find? (restrict name entries) name = find? entries name := by
  unfold find? restrict
  rw [List.find?_filter]
  refine congrArg _ (congrArg (List.find? · entries) (funext fun e => ?_))
  by_cases h : e.1.name = name <;> simp [h]

theorem restrict_set_self :
    restrict name (set entries name item) = set (restrict name entries) name item := by
  unfold restrict set
  rw [List.filter_map]
  congr 2
  funext e
  by_cases h : e.1.name = name <;> simp [h]

theorem restrict_set_of_ne (h : other ≠ name) :
    restrict other (set entries name item) = restrict other entries := by
  unfold restrict set
  induction entries with
  | nil => rfl
  | cons e rest ih =>
    by_cases hname : e.1.name = name
    · simp [hname, h.symm, ih]
    · simp [hname, List.filter_cons, ih]

theorem restrict_erase_of_ne (h : other ≠ name) :
    restrict other (erase entries name) = restrict other entries := by
  unfold restrict erase
  rw [List.filter_filter]
  refine List.filter_congr fun e _ => ?_
  by_cases hname : e.1.name = other <;> simp [hname, h]

theorem erase_restrict_self : erase (restrict name entries) name = [] := by
  simp [restrict, erase]

theorem restrict_erase_self : restrict name (erase entries name) = [] := by
  simp [restrict, erase]

end Entries

open Entries

/-- A change concerns one name: it leaves the entries of other names, and the entries of this name
become what they would become alone. -/
structure Concerns (name : String) (f : Entries → Option Entries) : Prop where
  within : ∀ entries, f (restrict name entries) = (f entries).map (restrict name)
  elsewhere : ∀ {entries entries'}, f entries = some entries' → ∀ {other}, other ≠ name →
    restrict other entries' = restrict other entries

namespace Concerns

variable {name : String} {f g : Entries → Option Entries}

theorem bind (hf : Concerns name f) (hg : Concerns name g) :
    Concerns name fun entries => (f entries).bind g where
  within entries := by
    rw [hf.within]
    cases f entries with
    | none => rfl
    | some entries => exact hg.within entries
  elsewhere h other hother := by
    obtain ⟨middle, hmiddle, h⟩ := Option.bind_eq_some_iff.mp h
    rw [hg.elsewhere h hother, hf.elsewhere hmiddle hother]

/-- What the change does is decided by the item that is found: it adds an entry at the end, puts
another item in the place, or moves the entry to the end, or it fails. -/
theorem of_find? {key : Key} (fresh : Option Item) (change : Item → Option (Bool × Item))
    (hnone : ∀ {entries}, find? entries key.name = none →
      f entries = fresh.map fun item => entries ++ [(key, item)])
    (hsome : ∀ {entries old}, find? entries key.name = some old →
      f entries = (change old).map fun (moves, item) =>
        if moves then erase entries key.name ++ [(key, item)] else set entries key.name item) :
    Concerns key.name f where
  within entries := by
    cases hfind : find? entries key.name with
    | none =>
      rw [hnone hfind, hnone (find?_restrict_self.trans hfind)]
      cases fresh <;> simp [restrict_append]
    | some old =>
      rw [hsome hfind, hsome (find?_restrict_self.trans hfind)]
      cases change old with
      | none => rfl
      | some found =>
        obtain ⟨moves, item⟩ := found
        cases moves <;>
          simp [restrict_append, restrict_set_self, erase_restrict_self, restrict_erase_self]
  elsewhere {entries entries'} h {other} hother := by
    cases hfind : find? entries key.name with
    | none =>
      rw [hnone hfind] at h
      obtain ⟨item, -, rfl⟩ := Option.map_eq_some_iff.mp h
      rw [restrict_append, restrict_singleton_of_ne hother.symm, List.append_nil]
    | some old =>
      rw [hsome hfind] at h
      obtain ⟨⟨moves, item⟩, -, rfl⟩ := Option.map_eq_some_iff.mp h
      cases moves
      · exact restrict_set_of_ne hother
      · dsimp only
        rw [if_pos rfl, restrict_append, restrict_singleton_of_ne hother.symm, List.append_nil,
          restrict_erase_of_ne hother]

/-- A parent becomes a table with a header and moves to the end. -/
def reopened (head : Head) : Item → Option (Bool × Item)
  | .table { origin := .parent, .. } sub => some (true, .table head sub)
  | _ => none

theorem openTable (key : Key) (head : Head) : Concerns key.name (Entries.openTable key head) := by
  refine of_find? (some (.table head [])) (reopened head)
    (fun {entries} h => by rw [Entries.openTable, h]; rfl) (fun {entries old} h => ?_)
  rw [Entries.openTable, h]
  rcases old with _ | ⟨⟨origin, _, _, _⟩, _⟩ | _
  · rfl
  · cases origin <;> rfl
  · rfl

/-- An array gets one more table. -/
def lengthened (head : Head) : Item → Option (Bool × Item)
  | .tables elements => some (false, .tables (elements ++ [(head, [])]))
  | _ => none

theorem openElement (key : Key) (head : Head) :
    Concerns key.name (Entries.openElement key head) := by
  refine of_find? (some (.tables [(head, [])])) (lengthened head)
    (fun {entries} h => by rw [Entries.openElement, h]; rfl) (fun {entries old} h => ?_)
  rw [Entries.openElement, h]
  cases old <;> rfl

/-- A table, or the last table of an array, is changed at the end of a path. -/
def changedBelow (f : Entries → Option Entries) (path : List Key) : Item → Option (Bool × Item)
  | .value .. => none
  | .table head sub => (Entries.descend f path sub).map fun sub => (false, .table head sub)
  | .tables elements =>
    (inLast (Entries.descend f path) elements).map fun elements => (false, .tables elements)

theorem descend (f : Entries → Option Entries) (key : Key) (rest : List Key) :
    Concerns key.name (Entries.descend f (key :: rest)) := by
  refine of_find? ((Entries.descend f rest []).map fun sub => .table { origin := .parent } sub)
    (changedBelow f rest)
    (fun {entries} h => by rw [Entries.descend, h, Option.map_map]; rfl)
    (fun {entries old} h => ?_)
  rw [Entries.descend, h]
  cases old with
  | value => rfl
  | table =>
    simp only [changedBelow, Option.map_map]
    rfl
  | tables =>
    simp only [changedBelow, Option.map_map]
    rfl

end Concerns

/-- The first key of a dotted key. -/
def topName (path : List Key) (key : Key) : String := (path.head?.getD key).name

/-- A table that dotted keys made gets a value under a dotted key. -/
def Concerns.extended (key : Key) (item : Item) (path : List Key) : Item → Option (Bool × Item)
  | .table head sub =>
    if head.origin == .dotted && alongDotted path sub then
      (addDotted key item (some head.origin) path sub).map fun sub => (false, .table head sub)
    else none
  | _ => none

theorem Concerns.addStrictly (path : List Key) (key : Key) (item : Item) :
    Concerns (topName path key) (Entries.addStrictly key item path) := by
  cases path with
  | nil =>
    change Concerns key.name _
    refine of_find? (some item) (fun _ => none)
      (fun {entries} h => ?_) (fun {entries old} h => ?_)
    · simp [Entries.addStrictly, alongDotted, addDotted, add, h]
    · simp [Entries.addStrictly, alongDotted, addDotted, add, h]
  | cons first rest =>
    change Concerns first.name _
    refine of_find? ((addDotted key item (some .dotted) rest []).map fun sub =>
        .table { origin := .dotted } sub)
      (extended key item rest)
      (fun {entries} h => ?_) (fun {entries old} h => ?_)
    · rw [Entries.addStrictly, alongDotted, addDotted, h, Option.map_map]
      rfl
    · rw [Entries.addStrictly, alongDotted, addDotted, h]
      cases old with
      | value => rfl
      | tables => rfl
      | table head sub =>
        dsimp only [extended]
        split
        · next hstrict =>
          have horigin : head.origin = .dotted := by simp_all
          rw [horigin, if_neg (by simp), Option.map_map]
          rfl
        · rfl

/-! ## Lines and passages -/

theorem Line.concerns (l : Line) : Concerns (topName l.path l.key) l.add := .addStrictly ..

theorem addUnder_concerns (key : Key) (rest : List Key) (lines : List Line) :
    Concerns key.name (addUnder (key :: rest) lines) := by
  induction lines with
  | nil => exact ⟨fun _ => rfl, fun h => by cases h; exact fun _ => rfl⟩
  | cons l lines ih =>
    have h : addUnder (key :: rest) (l :: lines) =
        fun entries => (descend l.add (key :: rest) entries).bind (addUnder (key :: rest) lines) :=
      funext fun _ => addUnder_cons ..
    rw [h]
    exact (Concerns.descend ..).bind ih

theorem Passage.concerns (p : Passage) : Concerns (topName p.path p.key) p.apply := by
  have hopening : Concerns (topName p.path p.key) (descend p.opening p.path) := by
    cases hpath : p.path with
    | nil =>
      rw [descend_nil, opening]
      split
      · exact .openElement ..
      · exact .openTable ..
    | cons first rest => exact .descend ..
  refine hopening.bind ?_
  cases hpath : p.path with
  | nil => exact addUnder_concerns ..
  | cons first rest => exact addUnder_concerns ..

/-! ## Whole documents -/

/-- A line or a passage, as the name that it concerns and what it does. -/
structure Step where
  name : String
  change : Entries → Option Entries

/-- A line before the first header as a step. -/
def Line.step (l : Line) : Step := ⟨topName l.path l.key, l.add⟩

/-- A passage as a step. -/
def Passage.step (p : Passage) : Step := ⟨topName p.path p.key, p.apply⟩

/-- Takes steps in order. -/
def runAll (steps : List Step) (entries : Entries) : Option Entries :=
  steps.foldlM (fun entries s => s.change entries) entries

@[simp] theorem runAll_nil (entries : Entries) : runAll [] entries = some entries := rfl

@[simp] theorem runAll_cons (s : Step) (rest : List Step) (entries : Entries) :
    runAll (s :: rest) entries = (s.change entries).bind (runAll rest) := List.foldlM_cons ..

theorem runAll_append (steps rest : List Step) (entries : Entries) :
    runAll (steps ++ rest) entries = (runAll steps entries).bind (runAll rest) :=
  List.foldlM_append ..

/-- The lines and passages of a document as steps. -/
def documentSteps (lines : List Line) (passages : List Passage) : List Step :=
  lines.map Line.step ++ passages.map Passage.step

theorem runAll_documentSteps (lines : List Line) (passages : List Passage) (entries : Entries) :
    runAll (documentSteps lines passages) entries =
      (addUnder [] lines entries).bind (applyAll passages) := by
  have hlines : runAll (lines.map Line.step) = addUnder [] lines := by
    funext entries
    rw [runAll, List.foldlM_map, addUnder]
    simp only [descend_nil]
    rfl
  have hpassages : runAll (passages.map Passage.step) = applyAll passages := by
    funext entries
    rw [runAll, List.foldlM_map]
    rfl
  rw [documentSteps, runAll_append, hlines, hpassages]

/-- Each step concerns its name. -/
theorem concerns_of_mem {lines : List Line} {passages : List Passage} {s : Step}
    (h : s ∈ documentSteps lines passages) : Concerns s.name s.change := by
  rcases List.mem_append.mp h with h | h
  · obtain ⟨l, -, rfl⟩ := List.mem_map.mp h
    exact l.concerns
  · obtain ⟨p, -, rfl⟩ := List.mem_map.mp h
    exact p.concerns

/-- The steps of one name make the entries of that name. -/
theorem runAll_restrict {steps : List Step} (hsteps : ∀ s ∈ steps, Concerns s.name s.change)
    {entries entries' : Entries} (h : runAll steps entries = some entries') (name : String) :
    runAll (steps.filter (·.name == name)) (restrict name entries) =
      some (restrict name entries') := by
  induction steps generalizing entries with
  | nil => cases h; rfl
  | cons s rest ih =>
    obtain ⟨hs, hrest⟩ := List.forall_mem_cons.mp hsteps
    rw [runAll_cons] at h
    obtain ⟨middle, hmiddle, h⟩ := Option.bind_eq_some_iff.mp h
    by_cases hname : s.name = name
    · subst hname
      rw [List.filter_cons_of_pos (by simp), runAll_cons, hs.within, hmiddle]
      exact ih hrest h
    · rw [List.filter_cons_of_neg (by simpa using hname), ← hs.elsewhere hmiddle (Ne.symm hname)]
      exact ih hrest h

/-- Steps succeed when for every name its steps do. -/
theorem runAll_of_restrict {steps : List Step} (hsteps : ∀ s ∈ steps, Concerns s.name s.change)
    {entries : Entries}
    (h : ∀ name, ∃ entries', runAll (steps.filter (·.name == name)) (restrict name entries) =
      some entries') : ∃ entries', runAll steps entries = some entries' := by
  induction steps generalizing entries with
  | nil => exact ⟨entries, rfl⟩
  | cons s rest ih =>
    obtain ⟨hs, hrest⟩ := List.forall_mem_cons.mp hsteps
    obtain ⟨last, hown⟩ := h s.name
    rw [List.filter_cons_of_pos (by simp), runAll_cons, hs.within] at hown
    obtain ⟨alone, halone, hown⟩ := Option.bind_eq_some_iff.mp hown
    obtain ⟨middle, hmiddle, rfl⟩ := Option.map_eq_some_iff.mp halone
    rw [runAll_cons, hmiddle, Option.bind_some]
    refine ih hrest fun name => ?_
    by_cases hname : s.name = name
    · subst hname
      exact ⟨last, hown⟩
    · obtain ⟨entries', h⟩ := h name
      rw [List.filter_cons_of_neg (by simpa using hname)] at h
      rw [hs.elsewhere hmiddle (Ne.symm hname)]
      exact ⟨entries', h⟩

end VideoSync.Toml
