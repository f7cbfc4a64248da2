import VideoSync.Proofs.Toml.Projection
import VideoSync.Proofs.Toml.Replay
import VideoSync.Toml.Document

/-
  Tables ready to be written. `blocks` finds the tables of a document, and they are the passages
  that `entryPassages` reads off. Both go on as they are in another spelling, and what belongs to
  one top-level name is found among the entries of that name.
-/

namespace VideoSync.Toml

open Item Entries

/-! ## In another spelling -/

section Respelling

variable (r : Respelling)

mutual

theorem entryLines_respell (path : List Key) : ∀ entries : List (Key × Item),
    (entryLines path entries).map (Line.respell r) =
      entryLines (path.map r.key) (Entries.respell r entries)
  | [] => rfl
  | (key, item) :: rest => by
    rw [entryLines, List.map_append, itemLines_respell path key item,
      entryLines_respell path rest]
    rfl

theorem itemLines_respell (path : List Key) (key : Key) : ∀ item : Item,
    (itemLines path key item).map (Line.respell r) =
      itemLines (path.map r.key) (r.key key) (item.respell r)
  | .value .. => rfl
  | .table head entries => by
    rw [respell_table, itemLines, itemLines, r.origin_head]
    split
    · rw [entryLines_respell (path ++ [key]) entries, List.map_append]
      rfl
    · rfl
  | .tables _ => by rw [respell_tables]; rfl

end

mutual

theorem entryPassages_respell (path : List Key) : ∀ entries : List (Key × Item),
    (entryPassages path entries).map (Passage.respell r) =
      entryPassages (path.map r.key) (Entries.respell r entries)
  | [] => rfl
  | (key, item) :: rest => by
    rw [entryPassages, List.map_append, itemPassages_respell path key item,
      entryPassages_respell path rest]
    rfl

theorem itemPassages_respell (path : List Key) (key : Key) : ∀ item : Item,
    (itemPassages path key item).map (Passage.respell r) =
      itemPassages (path.map r.key) (r.key key) (item.respell r)
  | .value .. => rfl
  | .table head entries => by
    rw [respell_table, itemPassages, itemPassages, List.map_append,
      entryPassages_respell (path ++ [key]) entries, List.map_append, r.origin_head]
    congr 1
    split
    · rw [List.map_singleton, Passage.respell, entryLines_respell]
      rfl
    · rfl
  | .tables elements => by
    rw [respell_tables, itemPassages, itemPassages, elementPassages_respell path key elements]

theorem elementPassages_respell (path : List Key) (key : Key) :
    ∀ elements : List (Head × List (Key × Item)),
    (elementPassages path key elements).map (Passage.respell r) =
      elementPassages (path.map r.key) (r.key key)
        (elements.map fun (head, entries) => (r.head head, Entries.respell r entries))
  | [] => rfl
  | (head, entries) :: rest => by
    rw [elementPassages, List.map_cons, List.map_append,
      entryPassages_respell (path ++ [key]) entries, elementPassages_respell path key rest,
      List.map_append, List.map_cons, Passage.respell, entryLines_respell]
    rfl

end

end Respelling

/-! ## Under one name -/

theorem topName_of_append {path more : List Key} {key first : Key}
    (h : path ++ [key] = first :: more) : topName path key = first.name := by
  cases path with
  | nil => cases h; rfl
  | cons k rest => cases h; rfl

mutual

theorem exists_of_mem_entryLines (first : Key) (path : List Key) :
    ∀ (entries : List (Key × Item)) {l : Line}, l ∈ entryLines (first :: path) entries →
      ∃ more, l.path ++ [l.key] = first :: more
  | [], _, h => by simp at h
  | (key, item) :: rest, l, h => by
    rcases List.mem_append.mp h with h | h
    · exact exists_of_mem_itemLines (first :: path) key item rfl h
    · exact exists_of_mem_entryLines first path rest h

theorem exists_of_mem_itemLines {first : Key} {more : List Key} (path : List Key) (key : Key) :
    ∀ (item : Item) {l : Line}, path ++ [key] = first :: more → l ∈ itemLines path key item →
      ∃ more, l.path ++ [l.key] = first :: more
  | .value .., l, hpath, h => by
    obtain rfl := List.mem_singleton.mp h
    exact ⟨more, hpath⟩
  | .table head entries, l, hpath, h => by
    rw [itemLines] at h
    split at h
    · rw [hpath] at h
      exact exists_of_mem_entryLines first more entries h
    · simp at h
  | .tables _, l, _, h => by simp [itemLines] at h

end

mutual

theorem exists_of_mem_entryPassages (first : Key) (path : List Key) :
    ∀ (entries : List (Key × Item)) {p : Passage}, p ∈ entryPassages (first :: path) entries →
      ∃ more, p.path ++ [p.key] = first :: more
  | [], _, h => by simp at h
  | (key, item) :: rest, p, h => by
    rcases List.mem_append.mp h with h | h
    · exact exists_of_mem_itemPassages (first :: path) key item rfl h
    · exact exists_of_mem_entryPassages first path rest h

theorem exists_of_mem_itemPassages {first : Key} {more : List Key} (path : List Key) (key : Key) :
    ∀ (item : Item) {p : Passage}, path ++ [key] = first :: more →
      p ∈ itemPassages path key item → ∃ more, p.path ++ [p.key] = first :: more
  | .value .., p, _, h => by simp [itemPassages] at h
  | .table head entries, p, hpath, h => by
    rcases List.mem_append.mp h with h | h
    · split at h
      · obtain rfl := List.mem_singleton.mp h
        exact ⟨more, hpath⟩
      · simp at h
    · rw [hpath] at h
      exact exists_of_mem_entryPassages first more entries h
  | .tables elements, p, hpath, h => exists_of_mem_elementPassages path key elements hpath h

theorem exists_of_mem_elementPassages {first : Key} {more : List Key} (path : List Key)
    (key : Key) :
    ∀ (elements : List (Head × List (Key × Item))) {p : Passage}, path ++ [key] = first :: more →
      p ∈ elementPassages path key elements → ∃ more, p.path ++ [p.key] = first :: more
  | [], p, _, h => by simp [elementPassages] at h
  | (head, entries) :: rest, p, hpath, h => by
    rw [elementPassages] at h
    rcases List.mem_cons.mp h with rfl | h
    · exact ⟨more, hpath⟩
    · rcases List.mem_append.mp h with h | h
      · rw [hpath] at h
        exact exists_of_mem_entryPassages first more entries h
      · exact exists_of_mem_elementPassages path key rest hpath h

end

/-- The lines of one name. -/
theorem filter_entryLines (name : String) (entries : Entries) :
    (entryLines [] entries).filter (fun l => topName l.path l.key == name) =
      entryLines [] (restrict name entries) := by
  induction entries with
  | nil => rfl
  | cons e rest ih =>
    obtain ⟨key, item⟩ := e
    have htop (l : Line) (hl : l ∈ itemLines [] key item) : topName l.path l.key = key.name :=
      (exists_of_mem_itemLines [] key item rfl hl).elim fun _ => topName_of_append
    rw [entryLines, List.filter_append, ih]
    by_cases hname : key.name = name
    · subst hname
      rw [List.filter_eq_self.mpr fun l hl => by simp [htop l hl], restrict_cons_self, entryLines]
    · rw [List.filter_eq_nil_iff.mpr fun l hl => by simp [htop l hl, hname],
        restrict_cons_of_ne hname, List.nil_append]

/-- The passages of one name. -/
theorem filter_entryPassages (name : String) (entries : Entries) :
    (entryPassages [] entries).filter (fun p => topName p.path p.key == name) =
      entryPassages [] (restrict name entries) := by
  induction entries with
  | nil => rfl
  | cons e rest ih =>
    obtain ⟨key, item⟩ := e
    have htop (p : Passage) (hp : p ∈ itemPassages [] key item) :
        topName p.path p.key = key.name :=
      (exists_of_mem_itemPassages [] key item rfl hp).elim fun _ => topName_of_append
    rw [entryPassages, List.filter_append, ih]
    by_cases hname : key.name = name
    · subst hname
      rw [List.filter_eq_self.mpr fun p hp => by simp [htop p hp], restrict_cons_self,
        entryPassages]
    · rw [List.filter_eq_nil_iff.mpr fun p hp => by simp [htop p hp, hname],
        restrict_cons_of_ne hname, List.nil_append]

/-! ## Tables ready to be written -/

namespace Document

/-- Whether a table has a header of its own. -/
def Block.hasHeader (b : Block) : Bool := b.element || b.head.origin != .parent

/-- The passage of a table. -/
def Block.passage (b : Block) : Passage :=
  ⟨b.element, b.path.dropLast, b.path.getLast?.getD (.plain ""), b.head, entryLines [] b.entries⟩

/-- A table in another spelling. -/
def Block.respell (r : Respelling) (b : Block) : Block :=
  { b with
    path := b.path.map r.key
    head := r.head b.head
    entries := Entries.respell r b.entries }

mutual

theorem blocks_passages (path : List Key) : ∀ (entries : List (Key × Item)) (last : Nat),
    ((blocks last path entries).2.filter Block.hasHeader).map Block.passage =
      entryPassages path entries
  | [], _ => rfl
  | (key, item) :: rest, last => by
    rw [entryPassages, ← itemBlocks_passages path key item last,
      ← blocks_passages path rest (itemBlocks last (path ++ [key]) item).1, ← List.map_append,
      ← List.filter_append]
    rfl

theorem itemBlocks_passages (path : List Key) (key : Key) : ∀ (item : Item) (last : Nat),
    ((itemBlocks last (path ++ [key]) item).2.filter Block.hasHeader).map Block.passage =
      itemPassages path key item
  | .value .., _ => rfl
  | .table head entries, last => by
    rw [itemPassages, ← blocks_passages (path ++ [key]) entries (head.place.getD last), itemBlocks]
    obtain ⟨origin, _, _, _⟩ := head
    cases origin <;> simp [Block.hasHeader, Block.passage]
  | .tables elements, last => elementBlocks_passages path key elements last

theorem elementBlocks_passages (path : List Key) (key : Key) :
    ∀ (elements : List (Head × List (Key × Item))) (last : Nat),
    ((elementBlocks last (path ++ [key]) elements).2.filter Block.hasHeader).map Block.passage =
      elementPassages path key elements
  | [], _ => rfl
  | (head, entries) :: rest, last => by
    rw [elementPassages, ← blocks_passages (path ++ [key]) entries (head.place.getD last),
      ← elementBlocks_passages path key rest
        (blocks (head.place.getD last) (path ++ [key]) entries).1, elementBlocks]
    simp [Block.hasHeader, Block.passage]

end

mutual

/-- A table that has a place is written there. -/
theorem place_of_mem_blocks : ∀ (entries : List (Key × Item)) {last : Nat} {path : List Key}
    {b : Block}, b ∈ (blocks last path entries).2 → ∀ {n}, b.head.place = some n → b.place = n
  | [], last, path, b, h, n, _ => by simp [blocks] at h
  | (key, item) :: rest, last, path, b, h, n, hn => by
    rcases List.mem_append.mp h with h | h
    · exact place_of_mem_itemBlocks item h hn
    · exact place_of_mem_blocks rest h hn

theorem place_of_mem_itemBlocks : ∀ (item : Item) {last : Nat} {path : List Key} {b : Block},
    b ∈ (itemBlocks last path item).2 → ∀ {n}, b.head.place = some n → b.place = n
  | .value .., last, path, b, h, n, _ => by simp [itemBlocks] at h
  | .table head entries, last, path, b, h, n, hn => by
    rw [itemBlocks] at h
    dsimp only at h
    split at h
    · exact place_of_mem_blocks entries h hn
    · rcases List.mem_cons.mp h with rfl | h
      · simp only at hn
        rw [hn, Option.getD_some]
      · exact place_of_mem_blocks entries h hn
  | .tables elements, last, path, b, h, n, hn => place_of_mem_elementBlocks elements h hn

theorem place_of_mem_elementBlocks : ∀ (elements : List (Head × List (Key × Item))) {last : Nat}
    {path : List Key} {b : Block}, b ∈ (elementBlocks last path elements).2 →
      ∀ {n}, b.head.place = some n → b.place = n
  | [], last, path, b, h, n, _ => by simp [elementBlocks] at h
  | (head, entries) :: rest, last, path, b, h, n, hn => by
    rw [elementBlocks] at h
    rcases List.mem_append.mp h with h | h
    · rcases List.mem_cons.mp h with rfl | h
      · simp only at hn
        rw [hn, Option.getD_some]
      · exact place_of_mem_blocks entries h hn
    · exact place_of_mem_elementBlocks rest h hn

end

mutual

theorem blocks_respell (r : Respelling) (hr : ∀ h, (r.head h).place = h.place) :
    ∀ (entries : List (Key × Item)) (last : Nat) (path : List Key),
    blocks last (path.map r.key) (Entries.respell r entries) =
      ((blocks last path entries).1, (blocks last path entries).2.map (Block.respell r))
  | [], _, _ => rfl
  | (key, item) :: rest, last, path => by
    have hitem := itemBlocks_respell r hr item last (path ++ [key])
    rw [List.map_append, List.map_singleton] at hitem
    change blocks last (path.map r.key) ((r.key key, item.respell r) :: Entries.respell r rest) = _
    rw [blocks, blocks, hitem]
    dsimp only
    rw [blocks_respell r hr rest _ path, List.map_append]

theorem itemBlocks_respell (r : Respelling) (hr : ∀ h, (r.head h).place = h.place) :
    ∀ (item : Item) (last : Nat) (path : List Key),
    itemBlocks last (path.map r.key) (item.respell r) =
      ((itemBlocks last path item).1, (itemBlocks last path item).2.map (Block.respell r))
  | .value .., _, _ => rfl
  | .table head entries, last, path => by
    rw [respell_table, itemBlocks, itemBlocks, hr, r.origin_head,
      blocks_respell r hr entries (head.place.getD last) path]
    dsimp only
    split <;> rfl
  | .tables elements, last, path => by
    rw [respell_tables]
    exact elementBlocks_respell r hr elements last path

theorem elementBlocks_respell (r : Respelling) (hr : ∀ h, (r.head h).place = h.place) :
    ∀ (elements : List (Head × List (Key × Item))) (last : Nat) (path : List Key),
    elementBlocks last (path.map r.key)
        (elements.map fun (head, entries) => (r.head head, Entries.respell r entries)) =
      ((elementBlocks last path elements).1,
        (elementBlocks last path elements).2.map (Block.respell r))
  | [], _, _ => rfl
  | (head, entries) :: rest, last, path => by
    rw [List.map_cons, elementBlocks, elementBlocks, hr,
      blocks_respell r hr entries (head.place.getD last) path]
    dsimp only
    rw [elementBlocks_respell r hr rest _ path, List.map_append]
    rfl

end

/-- A table is written with its header, and one that lacks a header has nothing on lines. -/
structure Block.Sound (b : Block) : Prop where
  header : b.hasHeader = true → b.head.origin = .header
  lineFree : b.hasHeader = false → b.entries.LineFree
  path : b.path ≠ []

mutual

theorem blocks_sound : ∀ (entries : List (Key × Item)) {last : Nat} {path : List Key},
    (∀ e ∈ entries, e.2.WellMade) → ∀ b ∈ (blocks last path entries).2, b.Sound
  | [], last, path, _, b, h => by simp [blocks] at h
  | (key, item) :: rest, last, path, hwell, b, h => by
    obtain ⟨hitem, hrest⟩ := List.forall_mem_cons.mp hwell
    rcases List.mem_append.mp h with h | h
    · exact itemBlocks_sound item (by simp) hitem b h
    · exact blocks_sound rest hrest b h

theorem itemBlocks_sound : ∀ (item : Item) {last : Nat} {path : List Key}, path ≠ [] →
    item.WellMade → ∀ b ∈ (itemBlocks last path item).2, b.Sound
  | .value .., last, path, _, _, b, h => by simp [itemBlocks] at h
  | .table head entries, last, path, hpath, hwell, b, h => by
    rw [wellMade_table] at hwell
    rw [itemBlocks] at h
    dsimp only at h
    split at h
    · exact blocks_sound entries hwell.2.items b h
    · next horigin =>
      rcases List.mem_cons.mp h with rfl | h
      · refine ⟨fun hheader => ?_, fun hnone => ?_, hpath⟩
        · cases hhead : head.origin <;> simp_all [Block.hasHeader]
        · exact hwell.1 (by simpa [Block.hasHeader] using hnone)
      · exact blocks_sound entries hwell.2.items b h
  | .tables elements, last, path, hpath, hwell, b, h =>
    elementBlocks_sound elements hpath (by rwa [wellMade_tables] at hwell) b h

theorem elementBlocks_sound : ∀ (elements : List (Head × List (Key × Item))) {last : Nat}
    {path : List Key}, path ≠ [] →
      (∀ e ∈ elements, e.1.origin = .header ∧ Entries.WellMade e.2) →
      ∀ b ∈ (elementBlocks last path elements).2, b.Sound
  | [], last, path, _, _, b, h => by simp [elementBlocks] at h
  | (head, entries) :: rest, last, path, hpath, hwell, b, h => by
    obtain ⟨⟨horigin, hentries⟩, hrest⟩ := List.forall_mem_cons.mp hwell
    rw [elementBlocks] at h
    rcases List.mem_append.mp h with h | h
    · rcases List.mem_cons.mp h with rfl | h
      · exact ⟨fun _ => horigin, by simp [Block.hasHeader], hpath⟩
      · exact blocks_sound entries hentries.items b h
    · exact elementBlocks_sound rest hpath hrest b h

end

end Document
end VideoSync.Toml
