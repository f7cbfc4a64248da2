import VideoSync.Proofs.Storage.Replacing
import VideoSync.Proofs.Storage.Temporary

/-
  Replacing a file is all or nothing. Directories above the file may be created first (`Makes`);
  then the temporary file is written and moved (`Written`). However far this gets, nothing stands
  elsewhere than before but the file, its temporary file and directories above it (`Spares`). If it
  fails, then the file is what it was (`KeepsFile`); if it succeeds, then there is no temporary file
  left.
-/

namespace VideoSync.Storage

namespace Tree

variable {t t' t'' : Tree} {path : String} {paths : List String} {place source : Location}
  {bytes : Bytes} {e : Entry}

/-! ## Places that paths lead to -/

/-- A path leads to the same place if all directories are still there. -/
theorem KeepsDirectories.place? (h : KeepsDirectories t t') (hplace : t.place? path = some place) :
    t'.place? path = some place := by
  obtain ⟨parent, name, slash, htarget, heq⟩ := place?_eq_some_iff.mp hplace
  exact place?_eq_some_iff.mpr ⟨parent, name, slash, h.target htarget, heq⟩

/-! ## Directories above a file -/

/-- The paths above a file that a directory may have to be created for. -/
def above (path : String) : List String :=
  match Path.parent? path with
  | none => []
  | some parent => ancestors parent (parent.length + 1)

/-- A directory that was not there before and that one of the paths leads to. -/
def Created (paths : List String) (t t' : Tree) (place : Location) : Prop :=
  t.find? place = none ∧ t'.find? place = some .directory ∧ ∃ p ∈ paths, t'.place? p = some place

/-- Some directories are created that the paths lead to, and all else stays. -/
structure Makes (paths : List String) (t t' : Tree) : Prop where
  keeps : KeepsDirectories t t'
  places : ∀ place, t'.find? place = t.find? place ∨ Created paths t t' place

theorem Makes.refl (paths : List String) (t : Tree) : Makes paths t t :=
  ⟨.refl t, fun _ => .inl rfl⟩

theorem Makes.mono {paths' : List String} (h : Makes paths t t') (hsub : ∀ p ∈ paths, p ∈ paths') :
    Makes paths' t t' where
  keeps := h.keeps
  places place := by
    refine (h.places place).imp id fun hcreated => ?_
    obtain ⟨hnone, hdirectory, p, hp, hplace⟩ := hcreated
    exact ⟨hnone, hdirectory, p, hsub p hp, hplace⟩

theorem Makes.trans (h : Makes paths t t') (h' : Makes paths t' t'') : Makes paths t t'' where
  keeps := h.keeps.trans h'.keeps
  places place := by
    rcases h.places place with hsame | ⟨hnone, hdirectory, p, hp, hplace⟩
    · rcases h'.places place with hsame' | ⟨hnone, hcreated⟩
      · exact .inl (hsame'.trans hsame)
      · exact .inr ⟨hsame.symm.trans hnone, hcreated⟩
    · exact .inr ⟨hnone, h'.keeps.directories place hdirectory, p, hp, h'.keeps.place? hplace⟩

theorem makes_of_makeDirectory (h : t.makeDirectory path = .ok t') : Makes [path] t t' := by
  unfold makeDirectory at h
  simp only [bind, Except.bind, pure, Except.pure, throw, throwThe, MonadExceptOf.throw] at h
  split at h
  · contradiction
  next target htarget =>
  split at h
  case h_2 => contradiction
  next name hlast =>
  cases hchild : t.child? target.parent name with
  | error e => simp [hchild] at h
  | ok found =>
    simp only [hchild, mapError_ok] at h
    split at h
    · contradiction
    obtain rfl := Except.ok.inj h
    have hnone : t.find? (target.parent ++ [name]) = none := by
      unfold Tree.child? at hchild
      split at hchild
      · contradiction
      · exact Except.ok.inj hchild
    have hfree : t.find? (target.parent ++ [name]) ≠ some .directory := by
      rw [hnone]
      nofun
    have hkeeps : KeepsDirectories t (t.put (target.parent ++ [name]) .directory) :=
      keepsDirectories_put hfree
    refine ⟨hkeeps, fun place => ?_⟩
    by_cases hplace : place = target.parent ++ [name]
    · subst hplace
      refine .inr ⟨hnone, find?_put_self (isPrefixOf_cwd hfree), path,
        List.mem_singleton_self path, ?_⟩
      refine hkeeps.place? (place?_eq_some_iff.mpr ⟨_, name, target.slash, ?_, rfl⟩)
      rw [htarget, ← hlast]
    · exact .inl (find?_put_of_ne hplace)

theorem makes_of_climb {passed missing : List String}
    (h : t.climb paths passed = .ok (t', missing)) :
    Makes paths t t' ∧ ∀ p ∈ missing, p ∈ passed ∨ p ∈ paths := by
  induction paths generalizing passed with
  | nil =>
    cases h
    exact ⟨.refl _ _, fun p hp => .inl hp⟩
  | cons path above ih =>
    unfold climb at h
    split at h
    · next made hmade =>
      cases h
      exact ⟨(makes_of_makeDirectory hmade).mono (by simp), fun p hp => .inl hp⟩
    · split at h
      · obtain ⟨hmakes, hmissing⟩ := ih h
        refine ⟨hmakes.mono fun p hp => List.mem_cons_of_mem path hp, fun p hp => ?_⟩
        rcases hmissing p hp with hpassed | habove
        · rcases List.mem_cons.mp hpassed with rfl | hpassed
          · exact .inr List.mem_cons_self
          · exact .inl hpassed
        · exact .inr (List.mem_cons_of_mem path habove)
      · split at h
        · cases h
          exact ⟨.refl _ _, fun p hp => .inl hp⟩
        · contradiction

theorem makes_descend (t : Tree) (paths : List String) : Makes paths t (t.descend paths).1 := by
  induction paths generalizing t with
  | nil => exact .refl _ _
  | cons path below ih =>
    have hbelow (t : Tree) : Makes (path :: below) t (t.descend below).1 :=
      (ih t).mono fun p hp => List.mem_cons_of_mem path hp
    unfold descend
    split
    · next made hmade => exact ((makes_of_makeDirectory hmade).mono (by simp)).trans (hbelow made)
    · split
      · exact hbelow t
      · exact .refl _ _

/-- Creating directories creates directories, whether or not it gets to the end. -/
theorem makes_makeDirectories (t : Tree) (path : String) :
    Makes (ancestors path (path.length + 1)) t (t.makeDirectories path).1 := by
  unfold makeDirectories
  split
  · exact .refl _ _
  · next made missing hclimb =>
    obtain ⟨hmakes, hmissing⟩ := makes_of_climb hclimb
    exact hmakes.trans ((makes_descend made missing).mono fun p hp =>
      (hmissing p hp).resolve_left List.not_mem_nil)

/-! ## Files -/

/-- Where a file could be written and there is none, the path leads to nothing. -/
theorem resolve_of_writable (h : t.writable path = .ok place) (hkeeps : KeepsDirectories t t')
    (hnone : t'.find? place = none) : t'.resolve path = .error SystemFailure.noEntry.failure := by
  obtain ⟨parent, name, htarget, hlong, rfl, -⟩ := writable_eq_ok h
  unfold resolve
  simp [bind, Except.bind, hkeeps.target htarget, child?, hlong, hnone, throw,
    throwThe, MonadExceptOf.throw]

/-! ## Writing and moving -/

/-- What writing a temporary file for a path and moving it can leave behind: nothing, some content
in the temporary file, or the content where the path leads. -/
inductive Written (t : Tree) (path : String) (bytes : Bytes) : Tree → Option Failure → Prop
  | unplaced (e : Failure) : Written t path bytes t (some e)
  | unfinished {temporary : Location} {content : Bytes}
      (htemporary : t.writable (Disk.temporaryPath path) = .ok temporary) (e : Failure) :
      Written t path bytes (t.put temporary (.file content)) (some e)
  | moved {temporary place : Location}
      (htemporary : t.writable (Disk.temporaryPath path) = .ok temporary)
      (hplace : t.place? path = some place) (hfree : t.find? place ≠ some .directory) :
      Written t path bytes
        (((t.put temporary (.file bytes)).erase temporary).put place (.file bytes)) none

/-- Nothing stands elsewhere than before but what a path leads to, its temporary file, and
directories above it, which are new. -/
def Spares (path : String) (t t' : Tree) : Prop :=
  ∀ place, t'.find? place = t.find? place ∨ Created (above path) t t' place ∨
    t'.place? path = some place ∨ t'.place? (Disk.temporaryPath path) = some place

/-- The file that a path leads to has the bytes that it had, or there still is none. A path that
led nowhere because of a missing directory may lead somewhere now; then what is there is a file
with some bytes exactly if it was one before. -/
structure KeepsFile (path : String) (t t' : Tree) : Prop where
  place : ∀ place, t.place? path = some place → t'.place? path = some place
  file : ∀ place, t'.place? path = some place → ∀ bytes,
    t'.find? place = some (.file bytes) ↔ t.find? place = some (.file bytes)
  resolve : ∀ bytes, t.resolve path = .ok (.file bytes) → t'.resolve path = .ok (.file bytes)

theorem KeepsFile.refl (path : String) (t : Tree) : KeepsFile path t t :=
  ⟨fun _ h => h, fun _ _ _ => .rfl, fun _ h => h⟩

theorem Spares.refl (path : String) (t : Tree) : Spares path t t := fun _ => .inl rfl

/-- A file is kept where all directories are and what stands at its place is the same. -/
theorem keepsFile_of_keeps (hkeeps : KeepsDirectories t t')
    (hfile : ∀ place, t'.place? path = some place → ∀ bytes,
      t'.find? place = some (.file bytes) ↔ t.find? place = some (.file bytes)) :
    KeepsFile path t t' := by
  refine ⟨fun place hplace => hkeeps.place? hplace, hfile, fun bytes hresolve => ?_⟩
  obtain ⟨parent, name, htarget, hlong, hbytes⟩ := resolve_eq_file_iff.mp hresolve
  have hplace : t'.place? path = some (parent ++ [name]) :=
    place?_eq_some_iff.mpr ⟨parent, name, false, hkeeps.target htarget, rfl⟩
  exact resolve_eq_file_iff.mpr
    ⟨parent, name, hkeeps.target htarget, hlong, (hfile _ hplace bytes).mpr hbytes⟩

/-- Where only directories are created, no file comes or goes. -/
theorem Makes.file_iff (h : Makes paths t t') (place : Location) (bytes : Bytes) :
    t'.find? place = some (.file bytes) ↔ t.find? place = some (.file bytes) := by
  rcases h.places place with hsame | ⟨hnone, hdirectory, -⟩
  · rw [hsame]
  · rw [hnone, hdirectory]
    exact iff_of_false nofun nofun

/-- Where only directories are created, each file is what it was. -/
theorem Makes.keepsFile (h : Makes paths t t') (path : String) : KeepsFile path t t' :=
  keepsFile_of_keeps h.keeps fun place _ bytes => h.file_iff place bytes

theorem place?_of_writable (h : t.writable path = .ok place) :
    t.place? path = some place ∧ t.find? place ≠ some .directory := by
  obtain ⟨parent, name, htarget, -, heq, hfree⟩ := writable_eq_ok h
  exact ⟨place?_eq_some_iff.mpr ⟨parent, name, false, htarget, heq⟩, hfree⟩

/-- Putting a file somewhere makes no directory. -/
theorem keepsDirectories_of_put_file : KeepsDirectories (t.put place (.file bytes)) t where
  cwd := rfl
  directories other hother := by
    by_cases hplace : other = place
    · subst hplace
      cases hprefix : other.isPrefixOf t.cwd with
      | true => rw [find?, if_pos hprefix]
      | false =>
        rw [find?_put_self hprefix] at hother
        cases hother
    · rw [find?_put_of_ne hplace] at hother
      exact hother

/-- What stands where after a temporary file has been moved. -/
theorem find?_moved {temporary other : Location} (hfree : t.find? place ≠ some .directory)
    (htemporary : t.find? temporary ≠ some .directory) (hne : place ≠ temporary) :
    (((t.put temporary (.file bytes)).erase temporary).put place (.file bytes)).find? other =
      if other = place then some (.file bytes)
      else if other = temporary then none else t.find? other := by
  by_cases hplace : other = place
  · subst hplace
    have hprefix := isPrefixOf_cwd hfree
    rw [if_pos rfl]
    exact find?_put_self hprefix
  · rw [if_neg hplace, find?_put_of_ne hplace]
    by_cases hother : other = temporary
    · subst hother
      have hprefix := isPrefixOf_cwd htemporary
      rw [if_pos rfl]
      exact find?_erase_self hprefix
    · rw [if_neg hother, find?_erase_of_ne hother, find?_put_of_ne hother]

namespace Written

variable {failure : Option Failure}

/-- Writing and moving a file keeps all directories. -/
theorem keeps (h : Written t path bytes t' failure) : KeepsDirectories t t' := by
  cases h with
  | unplaced => exact .refl t
  | unfinished htemporary => exact keepsDirectories_put (place?_of_writable htemporary).2
  | @moved temporary place htemporary hplace hfree =>
    obtain ⟨htemporary, hfree'⟩ := place?_of_writable htemporary
    have hne := place?_temporaryPath_ne hplace htemporary
    refine ⟨rfl, fun other hother => ?_⟩
    rw [find?_moved hfree hfree' hne, if_neg, if_neg, hother]
    · rintro rfl
      exact hfree' hother
    · rintro rfl
      exact hfree hother

/-- It touches the two files only. -/
theorem places (h : Written t path bytes t' failure) (other : Location) :
    t'.find? other = t.find? other ∨ t'.place? path = some other ∨
      t'.place? (Disk.temporaryPath path) = some other := by
  have hkeeps := h.keeps
  cases h with
  | unplaced => exact .inl rfl
  | @unfinished temporary content htemporary e =>
    by_cases hother : other = temporary
    · subst hother
      exact .inr (.inr (hkeeps.place? (place?_of_writable htemporary).1))
    · exact .inl (find?_put_of_ne hother)
  | @moved temporary place htemporary hplace hfree =>
    obtain ⟨htemporary, hfree'⟩ := place?_of_writable htemporary
    have hne := place?_temporaryPath_ne hplace htemporary
    rw [find?_moved hfree hfree' hne]
    by_cases hother : other = place
    · subst hother
      exact .inr (.inl (hkeeps.place? hplace))
    · rw [if_neg hother]
      by_cases hother' : other = temporary
      · subst hother'
        exact .inr (.inr (hkeeps.place? htemporary))
      · exact .inl (if_neg hother')

/-- If it fails, the file that the path leads to is the same. -/
theorem file_eq {e : Failure} (h : Written t path bytes t' (some e))
    (hplace : t'.place? path = some place) : t'.find? place = t.find? place := by
  cases h with
  | unplaced => rfl
  | unfinished htemporary =>
    exact find?_put_of_ne (place?_temporaryPath_ne hplace (place?_of_writable htemporary).1)

/-- If it succeeds, there is no temporary file. -/
theorem temporary_gone (h : Written t path bytes t' none) :
    t'.resolve (Disk.temporaryPath path) = .error SystemFailure.noEntry.failure := by
  have hkeeps := h.keeps
  cases h with
  | @moved temporary place htemporary hplace hfree =>
    obtain ⟨hplace', hfree'⟩ := place?_of_writable htemporary
    have hne := place?_temporaryPath_ne hplace hplace'
    refine resolve_of_writable htemporary hkeeps ?_
    rw [find?_moved hfree hfree' hne, if_neg hne.symm, if_pos rfl]

/-- With the directories that were created before, nothing else is touched. -/
theorem spares (h : Written t' path bytes t'' failure) (hmakes : Makes (above path) t t') :
    Spares path t t'' := by
  intro place
  rcases h.places place with hsame | hfiles
  · rw [hsame]
    refine (hmakes.places place).imp id fun hcreated => .inl ?_
    obtain ⟨hnone, hdirectory, p, hp, hplace⟩ := hcreated
    exact ⟨hnone, hsame.trans hdirectory, p, hp, h.keeps.place? hplace⟩
  · exact .inr (.inr hfiles)

/-- If it fails, then with the directories that were created before the file is kept. -/
theorem keepsFile {e : Failure} (h : Written t' path bytes t'' (some e))
    (hmakes : Makes (above path) t t') : KeepsFile path t t'' := by
  refine keepsFile_of_keeps (hmakes.keeps.trans h.keeps) fun place hplace bytes => ?_
  rw [h.file_eq hplace]
  exact hmakes.file_iff place bytes

end Written

end Tree

namespace Disk

variable {d : Disk} {path : String} {bytes : Bytes}

theorem exists_writeFile (d : Disk) (place : Location) (bytes : Bytes) :
    ∃ content, (d.writeFile place bytes).1.tree = d.tree.put place (.file content) ∧
      ((d.writeFile place bytes).2 = none → content = bytes) := by
  unfold writeFile
  split
  · exact ⟨_, rfl, nofun⟩
  · exact ⟨_, rfl, nofun⟩
  · exact ⟨_, rfl, fun _ => rfl⟩

/-- Writing a temporary file and moving it does one of the things that it can do. -/
theorem written_writeAndRename (d : Disk) (path : String) (bytes : Bytes) :
    Tree.Written d.tree path bytes (d.writeAndRename path bytes).1.tree
      (d.writeAndRename path bytes).2 := by
  unfold writeAndRename
  split
  · exact .unplaced _
  · next temporary htemporary =>
    obtain ⟨content, htree, hcontent⟩ := exists_writeFile d temporary bytes
    split
    · next written e hwrite =>
      rw [hwrite] at htree
      dsimp only at htree ⊢
      rw [htree]
      exact .unfinished htemporary e
    · next written hwrite =>
      rw [hwrite] at htree hcontent
      obtain rfl := hcontent rfl
      dsimp only at htree
      split
      · next e hmove =>
        dsimp only
        rw [htree]
        exact .unfinished htemporary e
      · next moved hmove =>
        rw [htree] at hmove
        obtain ⟨parent, name, entry, htarget, -, hentry, hfree, rfl⟩ := Tree.renameTo_eq_ok hmove
        obtain ⟨hplace', hfree'⟩ := Tree.place?_of_writable htemporary
        rw [Tree.find?_put_self (Tree.isPrefixOf_cwd hfree')] at hentry
        obtain rfl := Option.some.inj hentry
        have hplace := Tree.place?_eq_some_iff.mpr ⟨parent, name, false, htarget, rfl⟩
        have hne := Tree.place?_temporaryPath_ne hplace hplace'
        rw [Tree.find?_put_of_ne hne] at hfree
        exact .moved htemporary (Tree.keepsDirectories_of_put_file.place? hplace) hfree

/-- Replacing a file creates directories above it, and then the file is written and moved. -/
theorem exists_makes_replace (d : Disk) (path : String) (bytes : Bytes) :
    ∃ t, Tree.Makes (Tree.above path) d.tree t ∧
      Tree.Written t path bytes (d.replace path bytes).1.tree (d.replace path bytes).2 := by
  unfold replace Tree.above
  cases Path.parent? path with
  | none => exact ⟨d.tree, .refl _ _, written_writeAndRename d path bytes⟩
  | some parent =>
    have hmakes := Tree.makes_makeDirectories d.tree parent
    dsimp only
    rcases hmade : d.tree.makeDirectories parent with ⟨made, _ | e⟩ <;> rw [hmade] at hmakes
    · exact ⟨made, hmakes, written_writeAndRename (d.withTree made) path bytes⟩
    · exact ⟨made, hmakes, .unplaced e⟩

/-- Replacing a file touches nothing but the file, its temporary file and directories above it. -/
theorem spares_replace (d : Disk) (path : String) (bytes : Bytes) :
    Tree.Spares path d.tree (d.replace path bytes).1.tree := by
  obtain ⟨t, hmakes, hwritten⟩ := d.exists_makes_replace path bytes
  exact hwritten.spares hmakes

/-- A file that could not be replaced is what it was. -/
theorem keepsFile_replace {e : Failure} (h : (d.replace path bytes).2 = some e) :
    Tree.KeepsFile path d.tree (d.replace path bytes).1.tree := by
  obtain ⟨t, hmakes, hwritten⟩ := d.exists_makes_replace path bytes
  rw [h] at hwritten
  exact hwritten.keepsFile hmakes

/-- A file that was replaced has the new content, and its temporary file is gone. -/
theorem replaced_of_replace (h : (d.replace path bytes).2 = none) :
    (d.replace path bytes).1.tree.resolve path = .ok (.file bytes) ∧
      (d.replace path bytes).1.tree.resolve (temporaryPath path) =
        .error SystemFailure.noEntry.failure := by
  obtain ⟨t, hmakes, hwritten⟩ := d.exists_makes_replace path bytes
  rw [h] at hwritten
  exact ⟨resolve_of_replace (Prod.ext rfl h), hwritten.temporary_gone⟩

end Disk
end VideoSync.Storage
