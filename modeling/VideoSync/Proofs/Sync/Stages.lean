import VideoSync.Proofs.Sync.Frame
import VideoSync.Proofs.Sync.Log
import VideoSync.Sync.Load

/-
  What the stages of a load do. `Proceeds g w w' o` says that a stage of the load with generation
  `g` led from `w` to `w'` with the outcome `o`, or with none while the load goes on: the rule of
  the log was kept, no other load did anything, and the deeds of this load were queries followed by
  the closing of its outcome (`Closing`). A superseded load has an empty closing and an old
  generation.
-/

namespace VideoSync.Sync

/-- A call that stores nothing and moves nothing, or a return. -/
def Deed.Quiet (d : Deed) : Prop :=
  d.stage = .pending ∧ match d.what with
    | .called (.asked _) | .called (.load _) | .returned _ _ => True
    | _ => False

/-- Telling a host something, and its return. -/
def told (stage : Stage) (c : Call) : List Deed :=
  [⟨stage, .called c⟩, ⟨stage, .returned c.method .done⟩]

/-- How a load fails. -/
def failure (e : Error) : List Deed :=
  ⟨.failed, .failed e⟩ :: (told .failed .unload ++ told .failed (.report e.message))

/-- How a load reports a warning. -/
def warning (e? : Option Error) : List Deed :=
  match e? with
  | some e => told .ready (.report e.message)
  | none => []

/-- How a load moves media and cursor to the start of the session. -/
def positioning (settings : SyncSettings) (a : Timeline.Alignment) (duration : Float) :
    List Deed :=
  if settings.seekToSessionStart then
    told .ready (.setCurrentTime (a.initialPosition duration)) ++
      told .ready (.setCursor (a.telemetryTime (a.initialPosition duration)))
  else []

/-- How a load becomes ready. -/
def success (settings : SyncSettings) (a : Timeline.Alignment) (duration : Float)
    (e? : Option Error) : List Deed :=
  ⟨.ready, .ready a.offset e?⟩ :: (warning e? ++ positioning settings a duration)

/-- What a load does last, given its outcome. -/
inductive Closing (settings : SyncSettings) : Option Outcome → List Deed → Prop
  | underway : Closing settings none []
  | superseded : Closing settings (some .superseded) []
  | failed (e : Error) : Closing settings (some (.failed e)) (failure e)
  | ready {a : Timeline.Alignment} (duration : Float) (h : a.overlaps) :
      Closing settings (some (.ready a)) (success settings a duration none)
  | readyWithoutOverlap {a : Timeline.Alignment} (duration : Float) (session : Timeline.Session)
      (h : ¬ a.overlaps) :
      Closing settings (some (.readyWithoutOverlap a))
        (success settings a duration (some (.ofAlignment a session)))

/-- A host is told something, or returns from that. -/
def Deed.Telling (d : Deed) : Prop :=
  match d.what with
  | .called _ | .returned _ .done => True
  | _ => False

theorem telling_of_mem_told {stage : Stage} {c : Call} {d : Deed} (hd : d ∈ told stage c) :
    d.Telling := by
  simp only [told, List.mem_cons, List.not_mem_nil, or_false] at hd
  rcases hd with rfl | rfl <;> exact trivial

theorem telling_of_mem_success {settings : SyncSettings} {a : Timeline.Alignment} {duration : Float}
    {e? : Option Error} {d : Deed} (hd : d ∈ warning e? ++ positioning settings a duration) :
    d.Telling := by
  rcases List.mem_append.mp hd with hd | hd
  · cases e? with
    | some e => exact telling_of_mem_told hd
    | none => exact absurd hd List.not_mem_nil
  · unfold positioning at hd
    split at hd
    · exact (List.mem_append.mp hd).elim telling_of_mem_told telling_of_mem_told
    · exact absurd hd List.not_mem_nil

/-- After its first deed a closing only tells hosts what to do. -/
theorem Closing.telling {settings : SyncSettings} {o : Option Outcome} {d : Deed} {ds : List Deed}
    (h : Closing settings o (d :: ds)) {d' : Deed} (hd : d' ∈ ds) : d'.Telling := by
  cases h with
  | failed e => exact (List.mem_append.mp hd).elim telling_of_mem_told telling_of_mem_told
  | ready => exact telling_of_mem_success hd
  | readyWithoutOverlap => exact telling_of_mem_success hd

/-- A stage of the load with generation `g` leads from one world to another. -/
structure Proceeds (g : Nat) (w w' : World) (o : Option Outcome) : Prop where
  calm : w'.Calm
  frame : Frame (some g) w w'
  deeds : ∃ quiet closing, deedsIn g w'.log = deedsIn g w.log ++ quiet ++ closing ∧
    (∀ d ∈ quiet, d.Quiet) ∧ Closing w.settings o closing
  stale : o = some .superseded → w'.state.generation ≠ g

namespace Proceeds

variable {g : Nat} {u v w : World} {o : Option Outcome}

/-- Nothing is done, since the load is stale. -/
theorem superseded (hw : w.Calm) (hg : w.isCurrent g = false) :
    Proceeds g w w (some .superseded) where
  calm := hw
  frame := .refl _ w
  deeds := ⟨[], [], by simp, nofun, .superseded⟩
  stale _ hgen := by simp [World.isCurrent, hgen] at hg

/-- The load goes on, having done nothing yet. -/
theorem refl (g : Nat) (hw : w.Calm) : Proceeds g w w none where
  calm := hw
  frame := .refl _ w
  deeds := ⟨[], [], by simp, nofun, .underway⟩
  stale := nofun

theorem trans (h₁ : Proceeds g u v none) (h₂ : Proceeds g v w o) : Proceeds g u w o := by
  obtain ⟨quiet₁, _, hd₁, hq₁, ⟨⟩⟩ := h₁.deeds
  obtain ⟨quiet₂, closing, hd₂, hq₂, hc⟩ := h₂.deeds
  refine ⟨h₂.calm, h₁.frame.trans h₂.frame, ⟨quiet₁ ++ quiet₂, closing, ?_, ?_, ?_⟩, h₂.stale⟩
  · rw [hd₂, hd₁]
    simp
  · intro d hd
    exact (List.mem_append.mp hd).elim (hq₁ d) (hq₂ d)
  · rw [← h₁.frame.settings]
    exact hc

end Proceeds

namespace World

variable {r : Reaction} {g : Nat} {w : World}

theorem generation_of_isCurrent (h : w.isCurrent g = true) : w.state.generation = g := by
  simpa [isCurrent] using h

/-- A load asks a host something that the rule lets it ask. -/
theorem proceeds_ask (hr : Lawful r) (hw : w.Consistent) {m : Method} {reply : Hosts → Reply}
    (hp : Permitted w.state (.load g .pending) (.called (.asked m)))
    (hd : w.due = (Happening.called (.asked m)).followUp? (.load g .pending))
    (hend : (w.ask r (.load g .pending) m reply).due = none) :
    Proceeds g w (w.ask r (.load g .pending) m reply) none where
  calm := ⟨hw.callHost (calm_lawful hr) hp hd reply, hend⟩
  frame := frame_callHost (frame_lawful hr) (.load g .pending) _ _ w
  deeds := by
    refine ⟨[⟨.pending, .called (.asked m)⟩,
      ⟨.pending, .returned m (reply (w.ask r (.load g .pending) m reply).hosts)⟩], [], ?_, ?_,
      .underway⟩
    · rw [List.append_nil]
      exact deedsIn_callHost (frame_lawful hr) g .pending (.asked m) reply w
    · intro d hd
      simp only [List.mem_cons, List.not_mem_nil, or_false] at hd
      rcases hd with rfl | rfl <;> exact ⟨rfl, trivial⟩
  stale := nofun

/-- A failing load stores its error, has the media dropped and reports the error. -/
theorem proceeds_fail (hr : Lawful r) (hw : w.Calm) (e : Error) :
    Proceeds g w (w.fail r g e).1 (some (w.fail r g e).2) := by
  unfold fail
  split
  · next hg =>
    obtain rfl := generation_of_isCurrent hg
    have hfailed : (w.become (.load w.state.generation .failed) (.failed e)
        (w.state.failed e)).Consistent := hw.toConsistent.become rfl rfl hw.due
    have hunload := hfailed.tell (c := .unload) (calm_lawful hr) rfl (due_become _ _ _ _)
    have hreport := hunload.tell (c := .report e.message) (calm_lawful hr) rfl (due_tell _ _ _ _)
    have hframe : Frame (some w.state.generation) w
        (w.become (.load w.state.generation .failed) (.failed e) (w.state.failed e)) :=
      frame_become (.load w.state.generation .failed) (Nat.le_refl _) fun _ => rfl
    constructor
    · exact ⟨hreport, due_tell _ _ _ _⟩
    · have htell := frame_tell (frame_lawful hr) (.load w.state.generation .failed)
      exact (hframe.trans (htell _ _)).trans (htell _ _)
    · refine ⟨[], failure e, ?_, nofun, .failed e⟩
      dsimp only
      rw [deedsIn_tell (frame_lawful hr), deedsIn_tell (frame_lawful hr), deedsIn_become]
      simp [failure, told, Call.method]
    · nofun
  · next hg => exact .superseded hw (by simpa using hg)

theorem frame_warn (hr : Lawful r) (stage : Stage) (e? : Option Error) (w : World) :
    Frame (some g) w (w.warn r (.load g stage) e?) := by
  cases e? with
  | some e => exact frame_tell (frame_lawful hr) (.load g stage) _ w
  | none => exact .refl _ w

theorem deedsIn_warn (hr : Lawful r) (e? : Option Error) (w : World) :
    deedsIn g (w.warn r (.load g .ready) e?).log = deedsIn g w.log ++ warning e? := by
  cases e? with
  | some e => exact deedsIn_tell (frame_lawful hr) g .ready _ w
  | none => exact (List.append_nil _).symm

/-- After the warning, if there is one, nothing is due but the start position. -/
theorem consistent_warn (hr : Lawful r) (hw : w.Consistent) {e? : Option Error} {offset : Float}
    (hd : w.due = (due? w.settings (.load g .ready) (.ready offset e?)).map (.load g .ready, ·)) :
    (w.warn r (.load g .ready) e?).Consistent ∧ (w.warn r (.load g .ready) e?).due =
      if (w.warn r (.load g .ready) e?).settings.seekToSessionStart then
        some (.load g .ready, .setCurrentTime)
      else none := by
  cases e? with
  | some e =>
    refine ⟨hw.tell (c := .report e.message) (calm_lawful hr) rfl hd, ?_⟩
    exact (due_tell r (.load g .ready) (.report e.message) w).trans
      (apply_ite (Option.map (Actor.load g .ready, ·)) _ _ _)
  | none => exact ⟨hw, hd.trans (apply_ite (Option.map (Actor.load g .ready, ·)) _ _ _)⟩

theorem frame_seekToStart (hr : Lawful r) (stage : Stage) (a : Timeline.Alignment)
    (duration : Float) (w : World) :
    Frame (some g) w (w.seekToStart r (.load g stage) a duration) := by
  unfold seekToStart
  split
  · exact (frame_setCurrentTime (frame_lawful hr) (.load g stage) _ w).trans
      (frame_tell (frame_lawful hr) (.load g stage) _ _)
  · exact .refl _ w

theorem deedsIn_seekToStart (hr : Lawful r) (a : Timeline.Alignment) (duration : Float)
    (w : World) :
    deedsIn g (w.seekToStart r (.load g .ready) a duration).log =
      deedsIn g w.log ++ positioning w.settings a duration := by
  unfold seekToStart positioning
  split
  · dsimp only
    rw [deedsIn_tell (frame_lawful hr), setCurrentTime, deedsIn_tell (frame_lawful hr),
      List.append_assoc]
    rfl
  · exact (List.append_nil _).symm

theorem calm_seekToStart (hr : Lawful r) (hw : w.Consistent) (a : Timeline.Alignment)
    (duration : Float)
    (hd : w.due = if w.settings.seekToSessionStart then some (.load g .ready, .setCurrentTime)
      else none) :
    (w.seekToStart r (.load g .ready) a duration).Calm := by
  unfold seekToStart
  split
  · next hseek =>
    rw [if_pos hseek] at hd
    have hmoved := (hw.withHosts { w.hosts with time := a.initialPosition duration }).tell
      (c := .setCurrentTime (a.initialPosition duration)) (calm_lawful hr) rfl hd
    exact ⟨hmoved.tell (calm_lawful hr) rfl (due_tell _ _ _ _), due_tell _ _ _ _⟩
  · next hseek =>
    rw [if_neg hseek] at hd
    exact ⟨hw, hd⟩

/-- A load that becomes ready stores its offset before it reports or moves anything. -/
theorem proceeds_enterReady (hr : Lawful r) (hw : w.Calm) {a : Timeline.Alignment}
    {duration : Float} {e? : Option Error} {o : Outcome}
    (hc : Closing w.settings (some o) (success w.settings a duration e?))
    (ho : o = if a.overlaps then .ready a else .readyWithoutOverlap a) :
    Proceeds g w (w.enterReady r g a duration e?).1 (some (w.enterReady r g a duration e?).2) := by
  unfold enterReady
  split
  · next hg =>
    obtain rfl := generation_of_isCurrent hg
    dsimp only
    rw [← ho]
    have hready : (w.become (.load w.state.generation .ready) (.ready a.offset e?)
        (w.state.ready a.offset)).Consistent := hw.toConsistent.become rfl rfl hw.due
    have hframe : Frame (some w.state.generation) w (w.become (.load w.state.generation .ready)
        (.ready a.offset e?) (w.state.ready a.offset)) :=
      frame_become (.load w.state.generation .ready) (Nat.le_refl _) fun _ => rfl
    have hwarned := hframe.trans (frame_warn hr .ready e? _)
    obtain ⟨hconsistent, hdue⟩ := consistent_warn hr hready (due_become _ _ _ _)
    constructor
    · exact calm_seekToStart hr hconsistent a duration hdue
    · exact hwarned.trans (frame_seekToStart hr .ready a duration _)
    · refine ⟨[], success w.settings a duration e?, ?_, nofun, hc⟩
      rw [deedsIn_seekToStart hr, hwarned.settings, deedsIn_warn hr, deedsIn_become]
      simp [success]
    · rw [ho]
      split <;> nofun
  · next hg => exact .superseded hw (by simpa using hg)

/-- The last stage. -/
theorem proceeds_finish (hr : Lawful r) (hw : w.Calm) (creation : Int)
    (duration : Except Error Float) :
    Proceeds g w (w.finish r g creation duration).1
      (some (w.finish r g creation duration).2) := by
  unfold finish
  split
  · next hg => exact .superseded hw (by simpa using hg)
  · next hg =>
    obtain rfl := generation_of_isCurrent (by simpa using hg)
    cases duration with
    | error e => exact proceeds_fail hr hw e
    | ok duration =>
      have hasked : Proceeds w.state.generation w
          (w.ask r (.load w.state.generation .pending) .sessionTimeline
            fun h => .session h.session) none :=
        proceeds_ask hr hw.toConsistent rfl hw.due (due_callHost _ _ _ _ _)
      refine hasked.trans ?_
      dsimp only
      split
      · next hov => exact proceeds_enterReady hr hasked.calm (.ready duration hov) (if_pos hov).symm
      · next hov =>
        split
        · exact proceeds_fail hr hasked.calm _
        · exact proceeds_enterReady hr hasked.calm
            (.readyWithoutOverlap duration _ hov) (if_neg hov).symm

/-- The first stage, right after a load has begun. -/
theorem proceeds_openMedia (hr : Lawful r) (hw : w.Consistent) (asset : Asset)
    (hd : w.due = some (.load g .pending, .canPlayType)) :
    Proceeds g w (w.openMedia r g asset).1 (w.openMedia r g asset).2 := by
  have hdue := due_callHost r (.load g .pending) (.asked .canPlayType)
    (fun h => .playable (h.playable.contains asset.mime)) w
  unfold openMedia
  dsimp only
  split
  · next hplayable =>
    simp only [ask] at hplayable
    rw [hplayable] at hdue
    have hasked := hw.callHost (c := .asked .canPlayType) (calm_lawful hr) rfl hd
      (fun h => .playable (h.playable.contains asset.mime))
    have hframe := frame_callHost (frame_lawful hr) (.load g .pending) (.asked .canPlayType)
      (fun h => .playable (h.playable.contains asset.mime)) w
    constructor
    · exact ⟨hasked.tell (calm_lawful hr) rfl hdue, due_tell _ _ _ _⟩
    · exact hframe.trans (frame_tell (frame_lawful hr) (.load g .pending) _ _)
    · refine ⟨[⟨.pending, .called (.asked .canPlayType)⟩,
        ⟨.pending, .returned .canPlayType (.playable true)⟩, ⟨.pending, .called (.load asset.name)⟩,
        ⟨.pending, .returned .load .done⟩], [], ?_, ?_, .underway⟩
      · dsimp only
        rw [deedsIn_tell (frame_lawful hr), ask, deedsIn_callHost (frame_lawful hr), hplayable]
        simp [Call.method]
      · intro d hd
        simp only [List.mem_cons, List.not_mem_nil, or_false] at hd
        rcases hd with rfl | rfl | rfl | rfl <;> exact ⟨rfl, trivial⟩
    · intro hsup
      contradiction
  · next hplayable =>
    simp only [ask, Bool.not_eq_true] at hplayable
    rw [hplayable] at hdue
    have hasked : Proceeds g w (w.ask r (.load g .pending) .canPlayType
        fun h => .playable (h.playable.contains asset.mime)) none :=
      proceeds_ask hr hw rfl hd hdue
    exact hasked.trans (proceeds_fail hr hasked.calm _)

/-- The second stage. -/
theorem proceeds_containerRead (hr : Lawful r) (hw : w.Calm)
    (result : Except Container.Error Container.Metadata) :
    Proceeds g w (w.containerRead r g result).1
      (match (w.containerRead r g result).2 with
        | .ended o => some o
        | .waiting _ => none) := by
  unfold containerRead
  split
  · next hg => exact .superseded hw (by simpa using hg)
  · next hg =>
    obtain rfl := generation_of_isCurrent (by simpa using hg)
    cases result with
    | error e => exact proceeds_fail hr hw _
    | ok metadata =>
      have hasked : Proceeds w.state.generation w
          (w.ask r (.load w.state.generation .pending) .duration fun h => .duration h.duration)
          none :=
        proceeds_ask hr hw.toConsistent rfl hw.due (due_callHost _ _ _ _ _)
      dsimp only
      split
      · exact hasked.trans (proceeds_finish hr hasked.calm _ _)
      · exact hasked

/-- A load that waits for the duration looks again. -/
theorem proceeds_lookAgain (hr : Lawful r) (hw : w.Calm) (creation : Int) (waited : Nat) :
    Proceeds g w (w.lookAgain r g creation waited).1 (w.lookAgain r g creation waited).2 := by
  unfold lookAgain
  split
  · exact proceeds_finish hr hw _ _
  · dsimp only
    split
    · exact proceeds_finish hr hw creation
        (.error (.durationUnavailable w.settings.metadataTimeout))
    · exact .refl g hw

end World
end VideoSync.Sync
