import VideoSync.Cli.Command
import VideoSync.Proofs.Container.Durations
import VideoSync.Proofs.Sync.Steady

/-
  The command line and the controller on one video. Both read its container, take a duration and
  align the video with the session, but only the controller asks whether the duration is one. What a
  probe prints is what a load comes to if the duration is finite and not negative, as it is whenever
  it comes from the container; otherwise the probe prints an alignment all the same and the load
  fails (`probe_and_load`).
-/

namespace VideoSync

open VideoSync.Storage (Disk)
open VideoSync.Container (Metadata)
open VideoSync.Timeline (Session align)
open VideoSync.Sync

namespace Cli

/-- A text has the lines on the offset of an alignment and on whether it overlaps. -/
def Prints (text : String) (a : Timeline.Alignment) : Prop :=
  ∃ before after, text = before ++ line "offset:" (Decimal.plain a.offset ++ "s") ++
    line "overlaps:" (if a.overlaps then "true" else "false") ++ after

theorem prints_sessionLines (before : String) (m : Metadata) (seconds : Float) (session : Session) :
    Prints (before ++ sessionLines m seconds session) (align m.creation seconds session) := by
  let a := align m.creation seconds session
  refine ⟨before ++ line "session:" (Calendar.renderOrSeconds session.start ++ " .. " ++
      Calendar.renderOrSeconds session.stop),
    line "start at:" (Decimal.fixed 3 (a.initialPosition seconds) ++ "s into the video"), ?_⟩
  unfold sessionLines
  simp only [String.append_assoc]
  rfl

/-- What a probe that succeeds in printing about a session has gone by. -/
structure Probed (result : Result) (file : String) (session : Session) (given : Option Float)
    (m : Metadata) (seconds : Float) : Prop where
  metadata : (AssetSource.file file).metadata result.disk.tree = .ok m
  duration : given.or m.duration = some seconds
  lasts : 0 ≤ session.duration
  ordered : Width.signed 64 (session.stop - session.start) → session.start ≤ session.stop
  prints : Prints result.stdout (align m.creation seconds session)

/-- A probe reads the container as a load does. -/
theorem probe_eq (disk : Disk) (file : String) (start stop : Int) (given : Option Float) :
    probe disk file (some (start, stop)) given =
      match (AssetSource.file file).metadata disk.tree with
      | .error e => { code := 1, stderr := Report.text ⟨"reading " ++ file, causes e⟩, disk }
      | .ok m =>
        match probeSession m ⟨start, stop⟩ given with
        | .error report => { code := 1, stdout := fileLines file m, stderr := report.text, disk }
        | .ok more => { code := 0, stdout := fileLines file m ++ more, disk } := by
  rw [AssetSource.metadata]
  unfold probe
  cases disk.tree.openSource file <;> rfl

theorem probed_of_probe {disk : Disk} {file : String} {start stop : Int} {given : Option Float}
    (h : (probe disk file (some (start, stop)) given).code = 0) :
    ∃ m seconds, Probed (probe disk file (some (start, stop)) given) file ⟨start, stop⟩ given m
      seconds := by
  rw [probe_eq] at h ⊢
  cases hread : (AssetSource.file file).metadata disk.tree with
  | error e =>
    rw [hread] at h
    contradiction
  | ok m =>
    rw [hread] at h
    dsimp only at h ⊢
    unfold probeSession at h ⊢
    by_cases hnegative : Session.duration ⟨start, stop⟩ < 0
    · rw [if_pos hnegative] at h
      contradiction
    · rw [if_neg hnegative] at h ⊢
      cases hduration : given.or m.duration with
      | none =>
        rw [hduration] at h
        contradiction
      | some seconds =>
        have hlasts : 0 ≤ Session.duration ⟨start, stop⟩ := Int.not_lt.mp hnegative
        refine ⟨m, seconds, hread, hduration, hlasts, fun h64 => ?_, prints_sessionLines _ _ _ _⟩
        rw [Session.duration_eq h64] at hlasts
        exact Int.sub_nonneg.mp hlasts

/-- A run that is asked for a probe and succeeds has probed. -/
theorem probed_of_run {disk : Disk} {args : List String} {config : String}
    {level : Option LogLevel} {file : String} {start stop : Int} {given : Option Float}
    (hparse : parse args = .ok (.run config level (.probe file (some (start, stop)) given)))
    (h : (run disk args).code = 0) :
    ∃ m seconds, Probed (run disk args) file ⟨start, stop⟩ given m seconds := by
  have hrun : run disk args = execute disk config (.probe file (some (start, stop)) given) := by
    unfold run
    rw [hparse]
  rw [hrun] at h ⊢
  unfold execute at h ⊢
  dsimp only at h ⊢
  split at h
  · contradiction
  · exact probed_of_probe h

end Cli

/-! ## The verdict of the controller -/

/-- A duration is valid if it has a value that is not negative. -/
theorem usable_of_value? {seconds : Float} {a : ℚ} (h : Double.value? seconds = some a)
    (ha : 0 ≤ a) : unusable seconds = false := by
  have hzero : Double.value? (Float.ofInt 0) = some ((0 : ℤ) : ℚ) :=
    Double.value?_ofInt (by decide)
  have hsign : ¬ seconds < 0.0 := by
    rw [Double.zero_eq, Double.lt_iff h hzero, Int.cast_zero]
    exact ha.not_gt
  rw [unusable_eq, Double.isFinite_of_value? h, decide_eq_false hsign]
  rfl

/-- The duration that a container gives is valid. -/
theorem usable_of_metadata {source : AssetSource} {files : Storage.Tree} {m : Metadata}
    {seconds : Float} (h : source.metadata files = .ok m) (hduration : m.duration = some seconds) :
    unusable seconds = false := by
  have hread : ∃ s, Container.readMetadata s = .ok m := by
    unfold AssetSource.metadata at h
    split at h
    · exact ⟨_, h⟩
    · split at h
      · contradiction
      · exact ⟨_, h⟩
  obtain ⟨s, hs⟩ := hread
  obtain ⟨a, hvalue, hpos⟩ := Container.duration_of_readMetadata hs hduration
  exact usable_of_value? hvalue hpos

/-- What a load that rejects videos without an overlap comes to. -/
theorem reference_of_reject {settings : SyncSettings} {asset : Asset} {x : Answers}
    {creation : Int} {seconds : Float} (hpolicy : settings.overlapPolicy = .reject)
    (hplayable : x.playable) (hcreated : x.created = .ok creation)
    (hknown : x.known = some seconds) :
    reference settings asset x =
      if unusable seconds then .failed (.invalidDuration seconds)
      else if (align creation seconds x.session).overlaps then
        .ready (align creation seconds x.session)
      else .failed (.ofAlignment (align creation seconds x.session) x.session) := by
  simp only [reference, hplayable, hcreated, hknown, verdict, hpolicy, if_true]

/-- A probe that prints how a video lies to a session, by a duration that it was given or found in
the file, and a load of this file by a controller that knows the same duration, shows the same
session and rejects videos without an overlap. If the duration is finite and not negative, the load
ends as the probe has printed: ready with the offset if the video overlaps, and else failed for the
lack of an overlap. Otherwise it fails because of the duration, which then was given. -/
theorem probe_and_load {disk : Disk} {args : List String} {config : String}
    {level : Option LogLevel} {file : String} {start stop : Int} {given : Option Float}
    (hparse : Cli.parse args = .ok (.run config level (.probe file (some (start, stop)) given)))
    (hcode : (Cli.run disk args).code = 0) :
    ∃ m seconds, Cli.Probed (Cli.run disk args) file ⟨start, stop⟩ given m seconds ∧
      (given = none → unusable seconds = false) ∧
      ∀ (run : Run) (r : Reaction) (asset : Asset) (path : String), Steady r →
        run.Prepared asset seconds ⟨start, stop⟩ → asset.source = .file path →
        run.files.openSource path = (Cli.run disk args).disk.tree.openSource file →
        run.world.settings.overlapPolicy = .reject →
        let a := align m.creation seconds ⟨start, stop⟩
        let o : Outcome :=
          if unusable seconds then .failed (.invalidDuration seconds)
          else if a.overlaps then .ready a
          else .failed (.noOverlap a.mediaStart a.mediaStop ⟨start, stop⟩)
        (run.load r asset).ended = run.ended ++ [(run.begun, o)] ∧
          (run.load r asset).world.state = { o.store (run.world.state.beginLoad asset.name) with
            seeking := (run.load r asset).world.state.seeking } := by
  obtain ⟨m, seconds, hprobed⟩ := Cli.probed_of_run hparse hcode
  refine ⟨m, seconds, hprobed, fun hnone => ?_, ?_⟩
  · have hduration := hprobed.duration
    rw [hnone] at hduration
    exact usable_of_metadata hprobed.metadata hduration
  intro run r asset path hr hprepared hsource hfile hpolicy
  have hcreated : (run.answers asset).created = .ok m.creation := by
    have hmetadata : (AssetSource.file path).metadata run.files = .ok m := by
      rw [← hprobed.metadata]
      unfold AssetSource.metadata
      dsimp only
      rw [hfile]
    show (asset.source.metadata run.files).map _ = _
    rw [hsource, hmetadata]
    rfl
  have hknown : (run.answers asset).known = some seconds := by
    show run.world.hosts.duration.or none = _
    rw [hprepared.duration]
    rfl
  have hloaded := hprepared.loaded hr
  rw [reference_of_reject hpolicy rfl hcreated hknown] at hloaded
  have hsession : (run.answers asset).session = ⟨start, stop⟩ := hprepared.session
  rw [hsession] at hloaded
  exact hloaded

/-- The bytes of a video of one minute from 1970 on. -/
def rideBytes : Bytes :=
  #[0, 0, 0, 36, 0x6D, 0x6F, 0x6F, 0x76, 0, 0, 0, 28, 0x6D, 0x76, 0x68, 0x64, 0, 0, 0, 0,
    0x7C, 0x25, 0xB0, 0x80, 0, 0, 0, 0, 0, 0, 2, 0x58, 0, 0, 0x8C, 0xA0]

/-- A disk with this video. -/
def videoDisk : Disk where
  tree := { cwd := ["home"], entries := [(["home", "ride.mp4"], .file rideBytes)] }

/-- A controller that rejects videos without an overlap, on the files of a disk. -/
def onlooker (disk : Disk) (seconds : Float) (session : Session) : Run where
  world := { hosts := { duration := some seconds, session } }
  files := disk.tree

theorem prepared_onlooker (disk : Disk) (seconds : Float) (session : Session) :
    (onlooker disk seconds session).Prepared (.ofPath "ride.mp4" "video/mp4") seconds session where
  reachable := .start _ _ _ _ _ _
  harmless := nofun
  playable := List.mem_cons_self
  duration := rfl
  session := rfl

/-- A probe of half an overlap, and the load. -/
def rideArguments : List String :=
  ["--config", "v.toml", "probe", "ride.mp4", "--session-start=30", "--session-end=60"]

theorem probe_and_load_ride :
    ∃ m, Cli.Probed (Cli.run videoDisk rideArguments) "ride.mp4" ⟨30, 60⟩ none m 60.0 ∧
      ((onlooker (Cli.run videoDisk rideArguments).disk 60.0 ⟨30, 60⟩).load World.reaction
        (.ofPath "ride.mp4" "video/mp4")).ended = [(0, .ready (align 0 60.0 ⟨30, 60⟩))] := by
  have hparse : Cli.parse rideArguments =
      .ok (.run "v.toml" none (.probe "ride.mp4" (some (30, 60)) none)) := by
    decide +kernel
  have hcode : (Cli.run videoDisk rideArguments).code = 0 := by decide +kernel
  have hmetadata : (AssetSource.file "ride.mp4").metadata
      (Cli.run videoDisk rideArguments).disk.tree = .ok ⟨0, some 60.0⟩ := by
    decide +kernel
  obtain ⟨m, seconds, hprobed, husable, hload⟩ := probe_and_load hparse hcode
  obtain rfl : ⟨0, some 60.0⟩ = m := Except.ok.inj (hmetadata.symm.trans hprobed.metadata)
  obtain rfl : 60.0 = seconds := Option.some.inj hprobed.duration
  obtain ⟨hended, -⟩ := hload _ World.reaction (.ofPath "ride.mp4" "video/mp4") "ride.mp4"
    steady_reaction (prepared_onlooker _ _ _) rfl rfl rfl
  have hoverlaps : (align 0 60.0 ⟨30, 60⟩).overlaps = true := by decide +kernel
  refine ⟨_, hprobed, hended.trans ?_⟩
  dsimp only
  rw [husable rfl, hoverlaps]
  rfl

/-- A probe with a negative duration. -/
def negativeArguments : List String :=
  ["--config", "v.toml", "probe", "ride.mp4", "--session-start=-30", "--session-end=60",
    "--duration=-5"]

/-- A probe prints an overlap of a video whose duration it is told to be negative, and the load
fails. -/
theorem probe_disagrees_negativeDuration :
    ¬ ∀ (disk : Disk) (args : List String) (config : String) (level : Option LogLevel)
      (file : String) (start stop : Int) (given : Option Float) (m : Metadata) (seconds : Float),
      Cli.parse args = .ok (.run config level (.probe file (some (start, stop)) given)) →
      (Cli.run disk args).code = 0 →
      Cli.Probed (Cli.run disk args) file ⟨start, stop⟩ given m seconds →
      ∀ (run : Run) (r : Reaction) (asset : Asset) (path : String), Steady r →
        run.Prepared asset seconds ⟨start, stop⟩ → asset.source = .file path →
        run.files.openSource path = (Cli.run disk args).disk.tree.openSource file →
        run.world.settings.overlapPolicy = .reject →
        let a := align m.creation seconds ⟨start, stop⟩
        (run.load r asset).ended = run.ended ++ [(run.begun,
          if a.overlaps then .ready a
          else .failed (.noOverlap a.mediaStart a.mediaStop ⟨start, stop⟩))] := by
  intro hagree
  have hparse : Cli.parse negativeArguments =
      .ok (.run "v.toml" none (.probe "ride.mp4" (some (-30, 60)) (some (-5.0)))) := by
    decide +kernel
  have hcode : (Cli.run videoDisk negativeArguments).code = 0 := by decide +kernel
  have hfails : ((onlooker (Cli.run videoDisk negativeArguments).disk (-5.0) ⟨-30, 60⟩).load
      World.reaction (.ofPath "ride.mp4" "video/mp4")).ended ≠
        [(0, .ready (align 0 (-5.0) ⟨-30, 60⟩))] := by
    decide +kernel
  have hmetadata : (AssetSource.file "ride.mp4").metadata
      (Cli.run videoDisk negativeArguments).disk.tree = .ok ⟨0, some 60.0⟩ := by
    decide +kernel
  obtain ⟨m, seconds, hprobed⟩ := Cli.probed_of_run hparse hcode
  obtain rfl : ⟨0, some 60.0⟩ = m := Except.ok.inj (hmetadata.symm.trans hprobed.metadata)
  obtain rfl : -5.0 = seconds := Option.some.inj hprobed.duration
  have hready := hagree _ _ _ _ _ _ _ _ _ _ hparse hcode hprobed _ World.reaction
    (.ofPath "ride.mp4" "video/mp4") "ride.mp4" steady_reaction (prepared_onlooker _ _ _)
    rfl rfl rfl
  have hoverlaps : (align 0 (-5.0) ⟨-30, 60⟩).overlaps = true := by decide +kernel
  refine hfails (hready.trans ?_)
  dsimp only
  rw [hoverlaps]
  rfl

end VideoSync
