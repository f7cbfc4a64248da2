import VideoSync.Proofs.Settings.Normalizing
import VideoSync.Proofs.Settings.Writing

/-
  What is left behind when an operation of a store fails. The temporary file is what it was until it
  is opened; from then on it has what was written, and nothing takes it away: `run_leftover`. The
  settings in memory are what they were, unless a store that loads or creates its file fails to
  write it: then they are the settings that it was about to write, `settings_of_failure`.
-/

namespace VideoSync

open VideoSync.Storage (Disk Tree SystemFailure)

/-! ## The temporary file -/

namespace Storage.Tree

variable {t : Tree} {path : String} {place : Location} {bytes : Bytes}

/-- A path for which a file was written leads to this file. -/
theorem resolve_of_put (h : t.writable path = .ok place) :
    (t.put place (.file bytes)).resolve path = .ok (.file bytes) := by
  obtain ⟨parent, name, htarget, hlong, rfl, hfree⟩ := writable_eq_ok h
  have hkeeps : KeepsDirectories t (t.put (parent ++ [name]) (.file bytes)) :=
    keepsDirectories_put hfree
  exact resolve_eq_file_iff.mpr
    ⟨parent, name, hkeeps.target htarget, hlong, find?_put_self (isPrefixOf_cwd hfree)⟩

end Storage.Tree

namespace Storage.Disk

variable {d : Disk} {path : String} {bytes : Bytes} {e : Failure}

/-- What is written of some bytes: all of them, unless the disk fails before. -/
def landed (d : Disk) (bytes : Bytes) : Bytes :=
  match d.writeFault with
  | some (count, _) => bytes.extract 0 count
  | none => bytes

/-- What a replacement that fails leaves in the temporary file, if it comes to open it: all
directories are there then, and nothing keeps a file from being written. -/
def leftover? (d : Disk) (path : String) (bytes : Bytes) : Option Bytes :=
  match d.directoriesTo path with
  | (_, some _) => none
  | (tree, none) =>
    match tree.writable (temporaryPath path) with
    | .error _ => none
    | .ok _ => some (d.landed bytes)

theorem tree_writeFile (d : Disk) (place : Location) (bytes : Bytes) :
    (d.writeFile place bytes).1.tree = d.tree.put place (.file (d.landed bytes)) := by
  unfold writeFile landed
  split
  · next hfault => rw [hfault]; rfl
  · next hfault _ => rw [hfault]; rfl
  · next hfault _ => rw [hfault]; rfl

/-- A temporary file that cannot be moved stays. -/
theorem tree_of_writeAndRename {place : Location}
    (hplace : d.tree.writable (temporaryPath path) = .ok place)
    (h : (d.writeAndRename path bytes).2 = some e) :
    (d.writeAndRename path bytes).1.tree = d.tree.put place (.file (d.landed bytes)) := by
  have htree := d.tree_writeFile place bytes
  unfold writeAndRename at h ⊢
  rw [hplace] at h ⊢
  rcases hwrite : d.writeFile place bytes with ⟨written, _ | failure⟩
  · rw [hwrite] at htree
    cases hmove : written.tree.renameTo place path with
    | error failure =>
      simp only [hwrite, hmove]
      exact htree
    | ok moved => simp [hwrite, hmove] at h
  · rw [hwrite] at htree
    simp only [hwrite]
    exact htree

/-- The directories to a file are all that is created for it before the temporary file. -/
theorem makes_directoriesTo (d : Disk) (path : String) :
    Tree.Makes (Tree.above path) d.tree (d.directoriesTo path).1 := by
  unfold directoriesTo Tree.above
  cases Path.parent? path with
  | none => exact .refl _ _
  | some parent => exact Tree.makes_makeDirectories d.tree parent

/-- A replacement that fails leaves the temporary file as it was if it does not come to open it, and
otherwise with what was written. -/
theorem leftover_of_replace (h : (d.replace path bytes).2 = some e) :
    match d.leftover? path bytes with
    | none => Tree.KeepsFile (temporaryPath path) d.tree (d.replace path bytes).1.tree
    | some left =>
      (d.replace path bytes).1.tree.resolve (temporaryPath path) = .ok (.file left) := by
  have hmakes := d.makes_directoriesTo path
  rw [replace_eq] at h ⊢
  unfold leftover?
  rcases hmade : d.directoriesTo path with ⟨tree, _ | failure⟩ <;> rw [hmade] at hmakes h
  · dsimp only at hmakes h ⊢
    cases hplace : tree.writable (temporaryPath path) with
    | error failure =>
      have hfails : (d.withTree tree).writeAndRename path bytes =
          (d.withTree tree, some failure) := by
        unfold writeAndRename
        rw [withTree, hplace]
      rw [hfails]
      exact hmakes.keepsFile _
    | ok place =>
      have htree := tree_of_writeAndRename (d := d.withTree tree) hplace h
      dsimp only
      rw [htree]
      exact Tree.resolve_of_put hplace
  · exact hmakes.keepsFile _

end Storage.Disk

namespace Operation

/-- A disk with a directory in place of the settings file. -/
def directoryDisk : Disk where
  tree := { cwd := ["home"], entries := [(["home", "v.toml"], .directory)] }

/-- A disk with a settings file that cannot be edited. -/
def brokenDisk : Disk where
  tree := { cwd := ["home"], entries := [(["home", "v.toml"], .file (Text.encode "["))] }

/-- What an operation that fails leaves in the temporary file, if it comes to open it. -/
def leftover? (op : Operation) (s : Store) (d : Disk) : Option Bytes :=
  (op.content? s d).bind fun text => d.leftover? s.path (Text.encode text)

/-- An operation that fails before it opens the temporary file leaves this file as it was: there is
none that was not there before, and one that was there has its bytes. An operation that fails later
leaves a temporary file with what was written of the new text. -/
theorem run_leftover {op : Operation} {s : Store} {d : Disk} {e : StoreError}
    (h : (op.run s d).error = some e) :
    (op.leftover? s d = none →
      Tree.KeepsFile (Disk.temporaryPath s.path) d.tree (op.run s d).disk.tree) ∧
    ∀ bytes, op.leftover? s d = some bytes →
      (op.run s d).disk.tree.resolve (Disk.temporaryPath s.path) = .ok (.file bytes) := by
  unfold leftover?
  rcases op.run_cases s d with ⟨hnone, hdisk⟩ | ⟨text, hcontent, hdisk, herror⟩
  · rw [hnone, hdisk]
    exact ⟨fun _ => .refl _ _, nofun⟩
  · rw [h] at herror
    obtain ⟨failure, hfailure, -⟩ := Option.map_eq_some_iff.mp herror.symm
    have hleft := Disk.leftover_of_replace hfailure
    rw [hcontent, hdisk, Option.bind_some]
    refine ⟨fun hnone => ?_, fun bytes hsome => ?_⟩
    · rw [hnone] at hleft
      exact hleft
    · rw [hsome] at hleft
      exact hleft

/-- On the full disk three bytes are left behind. An update of a file that cannot be edited fails
before it writes, and there still is no temporary file. -/
theorem run_leftover_fullDisk :
    (save.run ⟨"v.toml", {}⟩ fullDisk).disk.tree.resolve (Disk.temporaryPath "v.toml") =
        .ok (.file #[35, 32, 86]) ∧
      Tree.KeepsFile (Disk.temporaryPath "v.toml") brokenDisk.tree
        ((updateSection .sync).run ⟨"v.toml", {}⟩ brokenDisk).disk.tree := by
  have hfails : (save.run ⟨"v.toml", {}⟩ fullDisk).error.isSome := by decide +kernel
  have hleft : save.leftover? ⟨"v.toml", {}⟩ fullDisk = some #[35, 32, 86] := by decide +kernel
  have hbroken : ((updateSection .sync).run ⟨"v.toml", {}⟩ brokenDisk).error =
      some .notEditable := by
    decide +kernel
  have hnone : (updateSection .sync).leftover? ⟨"v.toml", {}⟩ brokenDisk = none := by
    decide +kernel
  obtain ⟨e, he⟩ := Option.isSome_iff_exists.mp hfails
  exact ⟨(run_leftover he).2 _ hleft, (run_leftover hbroken).1 hnone⟩

/-- Where a directory stands in place of the settings file, the temporary file is written but cannot
be moved, and it stays. -/
theorem not_keepsFile_directoryDisk :
    ¬ ∀ (op : Operation) (s : Store) (d : Disk) (e : StoreError), (op.run s d).error = some e →
      Tree.KeepsFile (Disk.temporaryPath s.path) d.tree (op.run s d).disk.tree := by
  intro hkeeps
  have herror : (save.run ⟨"v.toml", {}⟩ directoryDisk).error =
      some (.file SystemFailure.isDirectory.failure) := by
    decide +kernel
  have hplace : (save.run ⟨"v.toml", {}⟩ directoryDisk).disk.tree.place?
      (Disk.temporaryPath "v.toml") = some ["home", "v.toml.tmp"] := by
    decide +kernel
  have hfile : ((save.run ⟨"v.toml", {}⟩ directoryDisk).disk.tree.find?
      ["home", "v.toml.tmp"]).any (· != .directory) := by
    decide +kernel
  have hbefore : directoryDisk.tree.find? ["home", "v.toml.tmp"] = none := by decide +kernel
  obtain ⟨entry, hentry, hne⟩ := (Option.any_eq_true _ _).mp hfile
  cases entry with
  | directory => contradiction
  | file left =>
    have hsame := ((hkeeps save ⟨"v.toml", {}⟩ directoryDisk _ herror).file _ hplace left).mp hentry
    rw [hbefore] at hsame
    contradiction

end Operation

/-! ## The settings in memory -/

namespace Store

variable {s : Store} {d : Disk} {e : StoreError}

/-- The settings that a store takes before it writes them: the defaults where there is no file, and
those of a file that is not as it should be. -/
def taken? (s : Store) (d : Disk) : Option Settings :=
  if !d.tree.exists? s.path then some {}
  else match (d.tree.readText s.path).toOption.map understand with
    | some (.ok (settings, false)) => some settings
    | _ => none

/-- A store that only loads its file keeps its settings unless it gets all of the new ones. -/
theorem load_of_error (h : (s.load d).error = some e) :
    s.load d = { store := s, disk := d, error := some e } := by
  unfold load at h ⊢
  split
  · next hfile =>
    rw [if_pos hfile] at h
    rw [← h]
  · next hfile =>
    rw [if_neg hfile] at h
    split
    · next hread =>
      rw [hread] at h
      rw [← h]
    · next text hread =>
      rw [hread] at h
      dsimp only at h
      split
      · next hsettings =>
        rw [hsettings] at h
        rw [← h]
      · next settings hsettings =>
        rw [hsettings] at h
        contradiction

/-- How a store that loads or creates its file can fail: with the settings that it had, or in
writing those that it took. -/
theorem loadOrCreate_of_error (h : (s.loadOrCreate d).error = some e) :
    (s.taken? d = none ∧ s.loadOrCreate d = { store := s, disk := d, error := some e }) ∨
      ∃ settings, s.taken? d = some settings ∧
        s.loadOrCreate d = (s.withSettings settings).save d := by
  unfold loadOrCreate at h ⊢
  unfold taken?
  cases hfile : d.tree.exists? s.path with
  | false => exact .inr ⟨{}, rfl, rfl⟩
  | true =>
    rw [hfile] at h
    cases hread : d.tree.readText s.path with
    | error failure =>
      rw [hread] at h
      exact .inl ⟨rfl, congrArg (Attempt.mk s d) h⟩
    | ok text =>
      rw [hread] at h
      rcases hunderstand : understand text with failure | ⟨settings, _ | _⟩
      · simp only [hunderstand] at h
        refine .inl ⟨by simp [Except.toOption, hunderstand], ?_⟩
        simp only [hunderstand]
        exact congrArg (Attempt.mk s d) h
      · refine .inr ⟨settings, by simp [Except.toOption, hunderstand], ?_⟩
        simp only [hunderstand]
        rfl
      · simp only [hunderstand] at h
        contradiction

/-- The settings that a store takes from a file are those that every store loads from it. -/
theorem load_of_taken (hfile : d.tree.exists? s.path = true) {settings : Settings}
    (h : s.taken? d = some settings) (held : Settings) :
    load ⟨s.path, held⟩ d = { store := ⟨s.path, settings⟩, disk := d } := by
  unfold taken? at h
  rw [hfile] at h
  cases hread : d.tree.readText s.path with
  | error failure =>
    rw [hread] at h
    contradiction
  | ok text =>
    rcases hunderstand : understand text with failure | ⟨found, _ | _⟩
    all_goals simp [hread, Except.toOption, hunderstand] at h
    subst h
    obtain ⟨document, hparse, -, hgives, -⟩ := understand_eq_ok hunderstand
    exact Reads.load ⟨hfile, ⟨text, hread, hparse⟩, hgives⟩ held

end Store

/-- A store that fails to load its file keeps its settings. One that loads or creates the file keeps
them too if it fails before it writes. If it fails in writing, it has the settings that it was about
to write: those that the file gives to every store, or the defaults where there is no file. -/
theorem settings_of_failure (s : Store) (d : Disk) :
    (∀ e, (s.load d).error = some e → (s.load d).store = s) ∧
    ∀ e, (s.loadOrCreate d).error = some e →
      (s.taken? d = none → (s.loadOrCreate d).store = s) ∧
      ∀ settings, s.taken? d = some settings →
        (s.loadOrCreate d).store = s.withSettings settings ∧
        (d.replace s.path (Text.encode settings.fileText)).2.map .file = some e ∧
        if d.tree.exists? s.path = true then
          ∀ held, Store.load ⟨s.path, held⟩ d = { store := ⟨s.path, settings⟩, disk := d }
        else settings = {} := by
  refine ⟨fun e he => ?_, fun e he => ?_⟩
  · rw [Store.load_of_error he]
  · rcases Store.loadOrCreate_of_error he with ⟨hnone, heq⟩ | ⟨settings, htaken, heq⟩
    · rw [hnone, heq]
      exact ⟨fun _ => rfl, nofun⟩
    · rw [heq] at he ⊢
      rw [htaken]
      refine ⟨nofun, ?_⟩
      rintro _ ⟨⟩
      refine ⟨rfl, he, ?_⟩
      split
      · next hfile => exact fun held => Store.load_of_taken hfile htaken held
      · next hfile =>
        rw [Store.taken?, if_pos (by simpa using hfile)] at htaken
        exact (Option.some.inj htaken).symm

/-- Settings other than the defaults. -/
def tracing : Settings where
  logging := { level := .trace }

/-- A store without a file fails to load and keeps its settings. On the full disk, one with an empty
file takes the defaults from it and fails to write them. -/
theorem settings_of_failure_fullDisk :
    (Store.load ⟨"w.toml", tracing⟩ Operation.fullDisk).store = ⟨"w.toml", tracing⟩ ∧
      (Store.loadOrCreate ⟨"v.toml", tracing⟩ Operation.fullDisk).store = ⟨"v.toml", {}⟩ := by
  have hload : (Store.load ⟨"w.toml", tracing⟩ Operation.fullDisk).error =
      some (.notFound "w.toml") := by
    decide +kernel
  have hfails : (Store.loadOrCreate ⟨"v.toml", tracing⟩ Operation.fullDisk).error.isSome := by
    decide +kernel
  have htaken : Store.taken? ⟨"v.toml", tracing⟩ Operation.fullDisk = some {} := by decide +kernel
  obtain ⟨e, he⟩ := Option.isSome_iff_exists.mp hfails
  exact ⟨(settings_of_failure _ _).1 _ hload, (((settings_of_failure _ _).2 e he).2 {} htaken).1⟩

/-- A disk with a file in place of the directory of the settings file. -/
def blockedDisk : Disk where
  tree := { cwd := ["home"], entries := [(["home", "a"], .file #[])] }

/-- A store that cannot create its file has the defaults, whatever it had before. -/
theorem settings_lost_blockedDisk :
    ¬ ∀ (s : Store) (d : Disk) (e : StoreError),
      ((s.load d).error = some e → (s.load d).store.settings = s.settings) ∧
      ((s.loadOrCreate d).error = some e → (s.loadOrCreate d).store.settings = s.settings) := by
  intro hkeeps
  have herror : (Store.loadOrCreate ⟨"a/v.toml", tracing⟩ blockedDisk).error =
      some (.file SystemFailure.fileExists.failure) := by
    decide +kernel
  have hlost : (Store.loadOrCreate ⟨"a/v.toml", tracing⟩ blockedDisk).store.settings ≠ tracing := by
    decide +kernel
  exact hlost ((hkeeps ⟨"a/v.toml", tracing⟩ blockedDisk _).2 herror)

end VideoSync
