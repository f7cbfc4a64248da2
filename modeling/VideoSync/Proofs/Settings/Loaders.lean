import VideoSync.Proofs.Settings.Failures

/-
  The two ways of loading settings from a file, side by side. A store that only loads asks no more
  of a text than that it gives settings. One that may write the file anew also asks that all numbers
  in it have 64 bits, those under unknown names too, and so it refuses files that the other accepts:
  `loaders_agree`, `loaders_disagree_longTimeout`. Where it accepts a file, the settings are the
  same. Writing the file anew does not come in between: whether it succeeds does not depend on what
  is written, `Disk.replace_eq_none_of_replace`.
-/

namespace VideoSync

open VideoSync.Storage (Disk Tree)
open VideoSync.Toml (Document Value)

/-! ## Numbers in a document -/

namespace Toml.Value

/-- A value holds itself and what its items and entries hold. -/
inductive Holds : Value → Value → Prop
  | self (v : Value) : Holds v v
  | item {items : List Value} {v w : Value} (hitem : v ∈ items) (h : Holds v w) :
      Holds (.array items) w
  | entry {entries : List (String × Value)} {e : String × Value} {w : Value} (he : e ∈ entries)
      (h : Holds e.2 w) : Holds (.table entries) w

/-- A number in the usual range, which is 64 bits with a sign for an integer. All other values count
as such. -/
def InRange : Value → Prop
  | integer n => -2 ^ 63 ≤ n ∧ n < 2 ^ 63
  | overflow => False
  | _ => True

theorem inRange_of_fits {v : Value} (h : v.fits = true) : v.InRange := by
  cases v with
  | integer n =>
    rw [fits, Width.signed, decide_eq_true_iff] at h
    exact h
  | overflow => contradiction
  | _ => trivial

theorem Holds.fits {v w : Value} (h : v.Holds w) (hfits : v.fits = true) : w.fits = true := by
  induction h with
  | self => exact hfits
  | item hitem _ ih =>
    rw [Value.fits, allFit_iff] at hfits
    exact ih (hfits _ hitem)
  | entry he _ ih =>
    rw [Value.fits, entriesFit_iff] at hfits
    exact ih (hfits _ he)

theorem fits_of_inRange (v : Value) (h : ∀ w, v.Holds w → w.InRange) : v.fits = true := by
  match v with
  | integer n =>
    rw [fits, Width.signed, decide_eq_true_iff]
    exact h _ (.self _)
  | overflow => exact (h _ (.self _)).elim
  | array items =>
    rw [fits, allFit_iff]
    intro item hitem
    exact fits_of_inRange item fun w hw => h w (.item hitem hw)
  | table entries =>
    rw [fits, entriesFit_iff]
    intro e he
    exact fits_of_inRange e.2 fun w hw => h w (.entry he hw)
  | string _ | float _ | boolean _ | datetime _ => rfl
termination_by sizeOf v
decreasing_by
  · have hlt := List.sizeOf_lt_of_mem hitem
    simp only [array.sizeOf_spec]
    omega
  · obtain ⟨name, v⟩ := e
    have hlt := List.sizeOf_lt_of_mem he
    simp only [table.sizeOf_spec, Prod.mk.sizeOf_spec] at hlt ⊢
    omega

/-- A value fits if every number that it holds is in range. -/
theorem fits_iff {v : Value} : v.fits = true ↔ ∀ w, v.Holds w → w.InRange :=
  ⟨fun h _ hw => inRange_of_fits (hw.fits h), fits_of_inRange v⟩

end Toml.Value

/-- Every number in a document is in range. -/
def Toml.Document.NumbersInRange (d : Document) : Prop := ∀ v, d.toValue.Holds v → v.InRange

theorem Toml.Document.editable_iff {d : Document} : d.editable = true ↔ d.NumbersInRange :=
  Value.fits_iff

/-! ## Replacing a file, whatever its content -/

namespace Storage

variable {t moved : Tree} {d written : Disk} {place source : Location} {path : String}
  {bytes other : Bytes}

/-- A file can be moved where the path ends in a name, which is not too long, and no directory is
there. -/
theorem Tree.exists_renameTo {parent : Location} {name : String} {e : Entry}
    (htarget : t.target path = .ok ⟨parent, .name name, false⟩)
    (hlong : ¬ longestName < name.utf8ByteSize) (hsource : t.find? source = some e)
    (hfree : t.find? (parent ++ [name]) ≠ some .directory) :
    ∃ moved, t.renameTo source path = .ok moved := by
  refine ⟨(t.erase source).put (parent ++ [name]) e, ?_⟩
  unfold renameTo
  simp only [bind, Except.bind, pure, Except.pure, throw, throwThe, MonadExceptOf.throw, htarget,
    child?, if_neg hlong, mapError_ok, hsource]
  rw [if_neg (by simp), if_neg (by simpa using hfree)]

/-- Whether a file that was written can be moved does not depend on its bytes. -/
theorem Tree.renameTo_put (hplace : t.find? place ≠ some .directory)
    (h : (t.put place (.file bytes)).renameTo place path = .ok moved) :
    ∃ moved, (t.put place (.file other)).renameTo place path = .ok moved := by
  obtain ⟨parent, name, e, htarget, hlong, hsource, hfree, -⟩ := Tree.renameTo_eq_ok h
  have hkeeps : Tree.KeepsDirectories (t.put place (.file bytes)) (t.put place (.file other)) :=
    keepsDirectories_of_put_file.trans (keepsDirectories_put hplace)
  have hback : Tree.KeepsDirectories (t.put place (.file other)) (t.put place (.file bytes)) :=
    keepsDirectories_of_put_file.trans (keepsDirectories_put hplace)
  exact Tree.exists_renameTo (hkeeps.target htarget) hlong (find?_put_self (isPrefixOf_cwd hplace))
    fun hdirectory => hfree (hback.directories _ hdirectory)

namespace Disk

theorem writeFile_eq_none (h : d.writeFile place bytes = (written, none)) (other : Bytes) :
    written = d.withTree (d.tree.put place (.file bytes)) ∧
      d.writeFile place other = (d.withTree (d.tree.put place (.file other)), none) := by
  unfold writeFile at h ⊢
  split at h
  · cases h
  · cases h
  · cases h
    exact ⟨rfl, rfl⟩

/-- Whether a file can be replaced does not depend on what is written. -/
theorem replace_eq_none_of_replace (h : (d.replace path bytes).2 = none) (other : Bytes) :
    (d.replace path other).2 = none := by
  obtain ⟨tree, place, written, moved, hmade, hplace, hwrite, hmove⟩ := replace_eq_none_iff.mp h
  obtain ⟨rfl, hwrite'⟩ := writeFile_eq_none hwrite other
  obtain ⟨moved', hmove'⟩ := Tree.renameTo_put (Tree.exists_of_writable hplace) hmove
  exact replace_eq_none_iff.mpr ⟨tree, place, _, moved', hmade, hplace, hwrite', hmove'⟩

end Disk

/-- Where a text is read there is a file. -/
theorem Tree.exists_of_readText {text : String} (h : t.readText path = .ok text) :
    t.exists? path = true := by
  unfold readText at h
  unfold exists?
  split at h
  · contradiction
  · next hresolve =>
    rw [hresolve]
    rfl
  · next hresolve =>
    rw [hresolve]
    rfl

end Storage

/-! ## Both loaders -/

variable {s : Store} {d : Disk} {path text : String} {document : Document} {settings : Settings}

/-- A store that loads its file does so from a document that gives settings. -/
theorem reads_of_load (h : (s.load d).error = none) :
    ∃ document settings, Reads s.path d document settings := by
  unfold Store.load at h
  split at h
  · contradiction
  · next hfile =>
    split at h
    · contradiction
    · next text hread =>
      split at h
      · contradiction
      · next settings hsettings =>
        obtain ⟨document, hparse, hgives⟩ := Option.bind_eq_some_iff.mp hsettings
        exact ⟨document, settings, by simpa using hfile, ⟨text, hread, hparse⟩, hgives⟩

/-- A store that loads or creates its file accepts every file that can be edited and gives settings,
if writing succeeds. -/
theorem Reads.loadOrCreate_of_editable (h : Reads path d document settings)
    (heditable : document.editable = true) {bytes : Bytes}
    (hwrite : (d.replace path bytes).2 = none) (held : Settings) :
    (Store.loadOrCreate ⟨path, held⟩ d).error = none ∧
      (Store.loadOrCreate ⟨path, held⟩ d).store = ⟨path, settings⟩ := by
  rw [h.loadOrCreate_eq heditable]
  split
  · exact ⟨rfl, rfl⟩
  · refine ⟨Option.map_eq_none_iff.mpr ?_, rfl⟩
    exact Disk.replace_eq_none_of_replace hwrite _

/-- Of a file in a directory where writing succeeds, the two loaders give the same settings whenever
the one that may write it anew accepts it. It does so exactly if the other accepts it and every
number in it is in range, and otherwise keeps the settings that it had. -/
theorem loaders_agree {bytes : Bytes} (hread : d.tree.readText path = .ok text)
    (hwrite : (d.replace path bytes).2 = none) (held held' : Settings) :
    ((Store.loadOrCreate ⟨path, held⟩ d).error = none ↔
      (Store.load ⟨path, held'⟩ d).error = none ∧
        ∃ document, Document.parse? text = some document ∧ document.NumbersInRange) ∧
    ((Store.loadOrCreate ⟨path, held⟩ d).error = none →
      (Store.loadOrCreate ⟨path, held⟩ d).store = (Store.load ⟨path, held'⟩ d).store) ∧
    ∀ document, (Store.load ⟨path, held'⟩ d).error = none →
      Document.parse? text = some document → ¬ document.NumbersInRange →
        Store.loadOrCreate ⟨path, held⟩ d =
          { store := ⟨path, held⟩, disk := d, error := some .notEditable } := by
  have hfile := Tree.exists_of_readText hread
  have hdocument {document : Document} {settings : Settings} (h : Reads path d document settings) :
      Document.parse? text = some document := by
    obtain ⟨text', hread', hparse⟩ := h.read
    rwa [Except.ok.inj (hread.symm.trans hread')]
  have haccepts (h : (Store.loadOrCreate ⟨path, held⟩ d).error = none) :
      ∃ document settings, Reads path d document settings ∧ document.editable = true := by
    rcases loadOrCreate_cases h with ⟨hnone, -⟩ | ⟨document, settings, hreads, heditable, -⟩
    · rw [hfile] at hnone
      contradiction
    · exact ⟨document, settings, hreads, heditable⟩
  refine ⟨⟨fun h => ?_, fun h => ?_⟩, fun h => ?_, fun document h hparse hrange => ?_⟩
  · obtain ⟨document, settings, hreads, heditable⟩ := haccepts h
    refine ⟨?_, document, hdocument hreads, Document.editable_iff.mp heditable⟩
    rw [hreads.load held']
  · obtain ⟨hload, document, hparse, hrange⟩ := h
    obtain ⟨document', settings, hreads⟩ := reads_of_load hload
    obtain rfl := Option.some.inj (hparse.symm.trans (hdocument hreads))
    exact (hreads.loadOrCreate_of_editable (Document.editable_iff.mpr hrange) hwrite held).1
  · obtain ⟨document, settings, hreads, heditable⟩ := haccepts h
    rw [(hreads.loadOrCreate_of_editable heditable hwrite held).2, hreads.load held']
  · obtain ⟨document', settings, hreads⟩ := reads_of_load h
    obtain rfl := Option.some.inj (hparse.symm.trans (hdocument hreads))
    exact hreads.loadOrCreate_of_not_editable (mt Document.editable_iff.mp hrange) held

/-- A section as a plain value and another key make no difference between the loaders. -/
theorem loaders_agree_oldFile :
    (Store.load ⟨"v.toml", {}⟩ oldDisk).error = none ∧
      (Store.loadOrCreate ⟨"v.toml", tracing⟩ oldDisk).store =
        (Store.load ⟨"v.toml", {}⟩ oldDisk).store := by
  have hread : oldDisk.tree.readText "v.toml" =
      .ok "sync = \x7b overlap_policy = \"warn\" \x7d\nx = 1\n" := by
    decide +kernel
  have hwrite : (oldDisk.replace "v.toml" #[]).2 = none := by decide +kernel
  have hmade : (Store.loadOrCreate ⟨"v.toml", tracing⟩ oldDisk).error = none := by decide +kernel
  have hagree := loaders_agree hread hwrite tracing {}
  exact ⟨(hagree.1.mp hmade).1, hagree.2.1 hmade⟩

/-- A disk with a settings file whose timeout is the shortest that is no number with a sign. -/
def longDisk : Disk where
  tree := { cwd := ["home"], entries := [(["home", "v.toml"], .file (Text.encode
    "[sync]\nmetadata_timeout_ms = 9223372036854775808\n"))] }

/-- The loaders disagree about a timeout that is no number with a sign. -/
theorem loaders_disagree_longTimeout :
    ¬ ∀ (path text : String) (bytes : Bytes) (d : Disk) (held : Settings),
      d.tree.readText path = .ok text → (d.replace path bytes).2 = none →
        ((Store.load ⟨path, held⟩ d).error = none ↔
          (Store.loadOrCreate ⟨path, held⟩ d).error = none) ∧
        ((Store.load ⟨path, held⟩ d).error = none →
          (Store.load ⟨path, held⟩ d).store = (Store.loadOrCreate ⟨path, held⟩ d).store) := by
  intro hagree
  have hread : longDisk.tree.readText "v.toml" =
      .ok "[sync]\nmetadata_timeout_ms = 9223372036854775808\n" := by
    decide +kernel
  have hwrite : (longDisk.replace "v.toml" #[]).2 = none := by decide +kernel
  have hload : (Store.load ⟨"v.toml", {}⟩ longDisk).error = none := by decide +kernel
  have hrefused : (Store.loadOrCreate ⟨"v.toml", {}⟩ longDisk).error = some .notEditable := by
    decide +kernel
  have hmade := (hagree _ _ _ longDisk {} hread hwrite).1.mp hload
  rw [hrefused] at hmade
  contradiction

end VideoSync
