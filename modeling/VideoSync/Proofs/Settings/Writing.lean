import VideoSync.Proofs.Storage.Atomicity
import VideoSync.Settings.Store

/-
  Writing settings is all or nothing. Three operations of a store write its file; each of them may
  give up before, and what it then would put there is its `content?`. However an operation ends and
  on whatever tree and disk, the file is what it was or has all of the new content, and nothing
  else is touched but the temporary file and directories above the file (`run_atomic`).
-/

namespace VideoSync

open VideoSync.Storage (Disk Tree SystemFailure)

/-- The operations of a store that may write its file. -/
inductive Operation where
  | save
  | updateSection (sec : Section)
  | loadOrCreate
  deriving DecidableEq

namespace Operation

/-- What an operation does. -/
def run : Operation → Store → Disk → Attempt
  | save, s, d => s.save d
  | updateSection sec, s, d => s.updateSection sec d
  | loadOrCreate, s, d => s.loadOrCreate d

/-- The text that an operation writes, if it gets so far and there is something to be written:
the settings in memory, the document in the file with one section of them, the defaults where there
is no file, or the settings of a file that is not as it should be. -/
def content? : Operation → Store → Disk → Option String
  | save, s, _ => some s.settings.fileText
  | updateSection sec, s, d =>
    match s.current d, Settings.editable? (s.settings.sectionText sec) with
    | .ok document, some table => some (Settings.putSection document sec table.entries).render
    | _, _ => none
  | loadOrCreate, s, d =>
    if !d.tree.exists? s.path then some ({} : Settings).fileText
    else match (d.tree.readText s.path).toOption.map Store.understand with
      | some (.ok (settings, false)) => some settings.fileText
      | _ => none

/-- How an operation leaves the disk: untouched if there is nothing to be written, and otherwise as
replacing the file leaves it, whose failure is its error. -/
theorem run_cases (op : Operation) (s : Store) (d : Disk) :
    (op.content? s d = none ∧ (op.run s d).disk = d) ∨
      ∃ text, op.content? s d = some text ∧
        (op.run s d).disk = (d.replace s.path (Text.encode text)).1 ∧
        (op.run s d).error = (d.replace s.path (Text.encode text)).2.map .file := by
  cases op with
  | save => exact .inr ⟨_, rfl, rfl, rfl⟩
  | updateSection sec =>
    unfold content? run Store.updateSection
    dsimp only
    cases s.current d with
    | error e => exact .inl ⟨rfl, rfl⟩
    | ok document =>
      cases Settings.editable? (s.settings.sectionText sec) with
      | none => exact .inl ⟨rfl, rfl⟩
      | some table => exact .inr ⟨_, rfl, rfl, rfl⟩
  | loadOrCreate =>
    unfold content? run Store.loadOrCreate
    dsimp only
    cases d.tree.exists? s.path with
    | false => exact .inr ⟨_, rfl, rfl, rfl⟩
    | true =>
      cases d.tree.readText s.path with
      | error e => exact .inl ⟨rfl, rfl⟩
      | ok text =>
        rcases hunderstand : Store.understand text with e | ⟨settings, normal⟩
        · refine .inl ⟨?_, ?_⟩ <;> simp [hunderstand, Except.toOption]
        · cases normal with
          | true => refine .inl ⟨?_, ?_⟩ <;> simp [hunderstand, Except.toOption]
          | false =>
            refine .inr ⟨settings.fileText, ?_, ?_, ?_⟩
            · simp [hunderstand, Except.toOption]
            · simp [hunderstand]
              rfl
            · simp [hunderstand]
              rfl

/-- An operation that fails leaves the file as it was. One that succeeds leaves the whole disk as it
was if there is nothing to be written, and otherwise the file has all of the new content and there
is no temporary file. In any case nothing else is touched but the temporary file and directories
above the file. -/
theorem run_atomic (op : Operation) (s : Store) (d : Disk) :
    (∀ e, (op.run s d).error = some e → Tree.KeepsFile s.path d.tree (op.run s d).disk.tree) ∧
    (op.content? s d = none → (op.run s d).disk = d) ∧
    (∀ text, op.content? s d = some text → (op.run s d).error = none →
      (op.run s d).disk.tree.resolve s.path = .ok (.file (Text.encode text)) ∧
        (op.run s d).disk.tree.resolve (Disk.temporaryPath s.path) =
          .error SystemFailure.noEntry.failure) ∧
    Tree.Spares s.path d.tree (op.run s d).disk.tree := by
  rcases op.run_cases s d with ⟨hnone, hdisk⟩ | ⟨text, hcontent, hdisk, herror⟩
  · rw [hnone, hdisk]
    exact ⟨fun _ _ => .refl _ _, fun _ => rfl, nofun, .refl _ _⟩
  · rw [hcontent, hdisk, herror]
    refine ⟨fun e he => ?_, nofun, ?_, d.spares_replace s.path _⟩
    · obtain ⟨failure, hfailure, -⟩ := Option.map_eq_some_iff.mp he
      exact Disk.keepsFile_replace hfailure
    · rintro _ ⟨⟩ hok
      exact Disk.replaced_of_replace (Option.map_eq_none_iff.mp hok)

/-- A disk that is full after three bytes, with an empty settings file. -/
def fullDisk : Disk where
  tree := { cwd := ["home"], entries := [(["home", "v.toml"], .file #[])] }
  writeFault := some (3, ⟨.other, "No space left on device (os error 28)"⟩)

/-- On the full disk the three bytes are in the temporary file, and the settings file is still
empty. With room for more it has all of them, and the temporary file is gone. -/
theorem save_fullDisk :
    ((save.run ⟨"v.toml", {}⟩ fullDisk).disk.tree.find? ["home", "v.toml.tmp"] =
        some (.file #[35, 32, 86]) ∧
      Tree.KeepsFile "v.toml" fullDisk.tree (save.run ⟨"v.toml", {}⟩ fullDisk).disk.tree) ∧
    (save.run ⟨"v.toml", {}⟩ { fullDisk with writeFault := none }).disk.tree.resolve "v.toml" =
      .ok (.file (Text.encode ({} : Settings).fileText)) := by
  have htemporary : (save.run ⟨"v.toml", {}⟩ fullDisk).disk.tree.find? ["home", "v.toml.tmp"] =
      some (.file #[35, 32, 86]) := by
    decide +kernel
  have hfails : (save.run ⟨"v.toml", {}⟩ fullDisk).error.isSome := by decide +kernel
  have hsucceeds : (save.run ⟨"v.toml", {}⟩ { fullDisk with writeFault := none }).error = none := by
    decide +kernel
  obtain ⟨e, he⟩ := Option.isSome_iff_exists.mp hfails
  exact ⟨⟨htemporary, (run_atomic save _ _).1 e he⟩,
    ((run_atomic save _ _).2.2.1 _ rfl hsucceeds).1⟩

end Operation
end VideoSync
