import VideoSync.Proofs.Text.Utf8
import VideoSync.Storage.Disk

/-
  Replacing a file. If the replacement succeeds, then the path leads to a file with the new content:
  `Disk.resolve_of_replace`. The temporary file that is moved there is no directory, and neither is
  what it takes the place of, so the directories on the way are those that there were before.
-/

namespace VideoSync.Storage

@[simp] theorem mapError_ok {α ε ε' : Type} (f : ε → ε') (x : α) :
    (Except.ok x).mapError f = .ok x := rfl

@[simp] theorem mapError_error {α ε ε' : Type} (f : ε → ε') (e : ε) :
    (Except.error e : Except ε α).mapError f = .error (f e) := rfl

namespace Tree

variable {t t' t'' : Tree} {path : String} {place source other : Location} {bytes : Bytes}
  {e : Entry}

/-! ## What stands where -/

theorem find?_put_self (h : place.isPrefixOf t.cwd = false) :
    (t.put place e).find? place = some e := by
  have hnone : (t.entries.filter (·.1 != place)).find? (·.1 == place) = none := by
    rw [List.find?_eq_none]
    intro x hx
    simpa using (List.mem_filter.mp hx).2
  simp [find?, put, erase, h, hnone]

theorem find?_erase_self (h : place.isPrefixOf t.cwd = false) :
    (t.erase place).find? place = none := by
  have hnone : (t.entries.filter (·.1 != place)).find? (·.1 == place) = none := by
    rw [List.find?_eq_none]
    intro x hx
    simpa using (List.mem_filter.mp hx).2
  simp [find?, erase, h, hnone]

theorem find?_erase_of_ne (h : other ≠ place) : (t.erase place).find? other = t.find? other := by
  have hfilter : (t.entries.filter (·.1 != place)).find? (·.1 == other) =
      t.entries.find? (·.1 == other) := by
    rw [List.find?_filter]
    congr 1
    funext x
    by_cases hx : x.1 = other <;> simp [hx, h]
  simp only [find?, erase, hfilter]

theorem find?_put_of_ne (h : other ≠ place) : (t.put place e).find? other = t.find? other := by
  have herase := find?_erase_of_ne (t := t) h
  have hlast : [(place, e)].find? (·.1 == other) = none := by simp [h.symm]
  simp only [find?, put, erase, List.find?_append, hlast, Option.or_none] at herase ⊢
  exact herase

/-! ## The same directories -/

/-- All directories of one tree are directories of another, seen from the same place. -/
structure KeepsDirectories (t t' : Tree) : Prop where
  cwd : t'.cwd = t.cwd
  directories : ∀ place, t.find? place = some .directory → t'.find? place = some .directory

theorem KeepsDirectories.refl (t : Tree) : KeepsDirectories t t := ⟨rfl, fun _ h => h⟩

theorem KeepsDirectories.trans (h : KeepsDirectories t t') (h' : KeepsDirectories t' t'') :
    KeepsDirectories t t'' where
  cwd := h'.cwd.trans h.cwd
  directories place hplace := h'.directories place (h.directories place hplace)

/-- Putting something where no directory is keeps all directories. -/
theorem keepsDirectories_put (hplace : t.find? place ≠ some .directory) :
    KeepsDirectories t (t.put place e) where
  cwd := rfl
  directories other hother := by
    rw [find?_put_of_ne, hother]
    rintro rfl
    exact hplace hother

theorem KeepsDirectories.child? (h : KeepsDirectories t t') {parent : Location} {name : String}
    (hchild : t.child? parent name = .ok (some .directory)) :
    t'.child? parent name = .ok (some .directory) := by
  unfold Tree.child? at hchild ⊢
  split at hchild
  · contradiction
  · next hlength =>
    rw [if_neg hlength, h.directories _ (Except.ok.inj hchild)]

theorem KeepsDirectories.walk (h : KeepsDirectories t t') {place place' : Location}
    {segments : List (List Char)} (hwalk : t.walk place segments = .ok place') :
    t'.walk place segments = .ok place' := by
  induction segments generalizing place with
  | nil => exact hwalk
  | cons s rest ih =>
    rw [Tree.walk] at hwalk ⊢
    split at hwalk
    · next hidle => rw [if_pos hidle, ih hwalk]
    · next hidle =>
      rw [if_neg hidle]
      split at hwalk
      · next hup => rw [if_pos hup, ih hwalk]
      · next hup =>
        rw [if_neg hup]
        split at hwalk
        · contradiction
        · contradiction
        · contradiction
        · next hchild => rw [h.child? hchild]; exact ih hwalk

theorem KeepsDirectories.target (h : KeepsDirectories t t') {path : String} {target : Target}
    (htarget : t.target path = .ok target) : t'.target path = .ok target := by
  unfold Tree.target at htarget ⊢
  simp only [bind, Except.bind, pure, Except.pure, throw, throwThe, MonadExceptOf.throw]
    at htarget ⊢
  split at htarget
  · contradiction
  next hzero =>
  split at htarget
  · contradiction
  next hempty =>
  split at htarget
  · contradiction
  next hlong =>
  rw [if_neg hzero, if_neg hempty, if_neg hlong]
  split at htarget
  · exact htarget
  · next s before _ =>
    rw [h.cwd]
    cases hwalk : t.walk (if Path.isAbsolute path = true then [] else t.cwd) before.reverse with
    | error e => simp [hwalk] at htarget
    | ok place =>
      simp only [hwalk, mapError_ok] at htarget
      simp only [h.walk hwalk, mapError_ok]
      exact htarget

/-! ## Paths that lead to files -/

/-- A path leads to a file if it ends in a name, which is not too long, and the file is there. -/
theorem resolve_eq_file_iff : t.resolve path = .ok (.file bytes) ↔
    ∃ parent name, t.target path = .ok ⟨parent, .name name, false⟩ ∧
      ¬ longestName < name.utf8ByteSize ∧ t.find? (parent ++ [name]) = some (.file bytes) := by
  unfold resolve
  simp only [bind, Except.bind, pure, Except.pure, throw, throwThe, MonadExceptOf.throw]
  constructor
  · intro h
    split at h
    · contradiction
    next target htarget =>
    obtain ⟨parent, last, slash⟩ := target
    dsimp only at h
    split at h
    case h_2 => cases h
    next name =>
    unfold child? at h
    by_cases hlong : longestName < name.utf8ByteSize
    · simp [hlong] at h
    · simp only [if_neg hlong, mapError_ok] at h
      split at h
      · contradiction
      · next found hfound =>
        split at h
        · contradiction
        next hslash =>
        cases h
        rw [Bool.not_eq_true] at hslash
        subst hslash
        exact ⟨parent, name, htarget, hlong, hfound⟩
      · cases h
  · intro h
    obtain ⟨parent, name, htarget, hlong, hfile⟩ := h
    simp [htarget, child?, hlong, hfile]

/-- A file can be written where a path ends in a name, which is not too long, and no directory is
there. -/
theorem writable_eq_ok (h : t.writable path = .ok place) :
    ∃ parent name, t.target path = .ok ⟨parent, .name name, false⟩ ∧
      ¬ longestName < name.utf8ByteSize ∧ place = parent ++ [name] ∧
      t.find? place ≠ some .directory := by
  unfold writable at h
  simp only [bind, Except.bind, pure, Except.pure, throw, throwThe, MonadExceptOf.throw] at h
  split at h
  · contradiction
  next target htarget =>
  obtain ⟨parent, last, slash⟩ := target
  dsimp only at h
  split at h
  case h_2 => contradiction
  next name =>
  unfold child? at h
  by_cases hlong : longestName < name.utf8ByteSize
  · simp [hlong] at h
  · simp only [if_neg hlong, mapError_ok] at h
    split at h
    · contradiction
    next hslash =>
    obtain rfl := Except.ok.inj h
    rw [Bool.or_eq_true, not_or, Bool.not_eq_true] at hslash
    obtain ⟨rfl, hfree⟩ := hslash
    exact ⟨parent, name, htarget, hlong, rfl, by simpa using hfree⟩

/-- A file is moved to where a path ends in a name, which is not too long, and no directory is
there. -/
theorem renameTo_eq_ok (h : t.renameTo source path = .ok t') :
    ∃ parent name entry, t.target path = .ok ⟨parent, .name name, false⟩ ∧
      ¬ longestName < name.utf8ByteSize ∧ t.find? source = some entry ∧
      t.find? (parent ++ [name]) ≠ some .directory ∧
      t' = (t.erase source).put (parent ++ [name]) entry := by
  unfold renameTo at h
  simp only [bind, Except.bind, pure, Except.pure, throw, throwThe, MonadExceptOf.throw] at h
  split at h
  · contradiction
  next target htarget =>
  obtain ⟨parent, last, slash⟩ := target
  dsimp only at h
  split at h
  case h_2 => contradiction
  next name =>
  unfold child? at h
  by_cases hlong : longestName < name.utf8ByteSize
  · simp [hlong] at h
  · simp only [if_neg hlong, mapError_ok] at h
    split at h
    · contradiction
    next hslash =>
    rw [Bool.not_eq_true] at hslash
    subst hslash
    split at h
    · contradiction
    next hfree =>
    split at h
    · next entry hentry =>
      obtain rfl := Except.ok.inj h
      exact ⟨parent, name, entry, htarget, hlong, hentry, by simpa using hfree, rfl⟩
    · contradiction

theorem exists_of_writable (h : t.writable path = .ok place) : t.find? place ≠ some .directory := by
  obtain ⟨parent, name, -, -, -, hfree⟩ := writable_eq_ok h
  exact hfree

theorem isPrefixOf_cwd (h : t.find? place ≠ some .directory) : place.isPrefixOf t.cwd = false := by
  cases hprefix : place.isPrefixOf t.cwd with
  | false => rfl
  | true => exact absurd (by rw [find?, if_pos hprefix]) h

/-- Where a file is moved to, the path leads to it. -/
theorem resolve_of_renameTo (hsource : t.find? source = some (.file bytes))
    (h : t.renameTo source path = .ok t') : t'.resolve path = .ok (.file bytes) := by
  obtain ⟨parent, name, entry, htarget, hlong, hentry, hfree, rfl⟩ := renameTo_eq_ok h
  obtain rfl := Option.some.inj (hentry.symm.trans hsource)
  have hkeeps : KeepsDirectories t ((t.erase source).put (parent ++ [name]) (.file bytes)) := by
    refine ⟨rfl, fun place hdirectory => ?_⟩
    have hne : place ≠ parent ++ [name] := by
      rintro rfl
      exact hfree hdirectory
    have hne' : place ≠ source := by
      rintro rfl
      simp [hsource] at hdirectory
    rw [find?_put_of_ne hne, find?_erase_of_ne hne', hdirectory]
  exact resolve_eq_file_iff.mpr ⟨parent, name, hkeeps.target htarget, hlong,
    find?_put_self (t := t.erase source) (isPrefixOf_cwd (t := t) hfree)⟩

end Tree

namespace Disk

variable {d d' : Disk} {path : String} {bytes : Bytes}

theorem resolve_of_writeAndRename (h : d.writeAndRename path bytes = (d', none)) :
    d'.tree.resolve path = .ok (.file bytes) := by
  unfold writeAndRename at h
  split at h
  · cases h
  · next place hplace =>
    have hfree := Tree.isPrefixOf_cwd (Tree.exists_of_writable hplace)
    split at h
    · cases h
    · next written hwrite =>
      have htree : written.tree = d.tree.put place (.file bytes) := by
        unfold writeFile at hwrite
        split at hwrite <;> cases hwrite
        rfl
      split at h
      · cases h
      · next tree htree' =>
        cases h
        refine Tree.resolve_of_renameTo ?_ htree'
        rw [htree]
        exact Tree.find?_put_self hfree

/-- A path whose file was replaced leads to the new content. -/
theorem resolve_of_replace (h : d.replace path bytes = (d', none)) :
    d'.tree.resolve path = .ok (.file bytes) := by
  unfold replace at h
  split at h
  · exact resolve_of_writeAndRename h
  · split at h
    · cases h
    · exact resolve_of_writeAndRename h

/-- Text that replaced a file is read back. -/
theorem readText_of_replace {text : String} (h : d.replace path (Text.encode text) = (d', none)) :
    d'.tree.exists? path = true ∧ d'.tree.readText path = .ok text := by
  have hresolve := resolve_of_replace h
  refine ⟨by rw [Tree.exists?, hresolve]; rfl, ?_⟩
  simp only [Tree.readText, hresolve, Text.decode?_encode]

end Disk
end VideoSync.Storage
