import VideoSync.Proofs.Double.Values
import VideoSync.Proofs.Sync.Bindings
import VideoSync.Proofs.Sync.Cursor
import VideoSync.Proofs.Sync.Origin

/-
  Requests to seek. A request is honoured exactly if the controller is ready, nobody scrubs and the
  media says that it is paused; then the media is moved once, and otherwise nobody is told anything.
  Either way the state stays and no cursor is pushed, and requests of a plot element are the same if
  the element is bound and nothing at all if not. Later events of the media push the cursor back to
  where the request came from, up to rounding: `seek_of_reachable`.

  What a single request does to the log is read off the calls it makes (`requestSeek_cases`), which
  change nothing as long as the hosts leave the controller alone (`Visits.tells`).
-/

namespace VideoSync.Sync

open VideoSync.Double (value?)

/-! ## Calls that change nothing -/

/-- What the hosts are told to do in a log. -/
def commandsIn (log : List Entry) : List Call :=
  (log.filterMap (·.what.call?)).filter (·.isCommand)

/-- The times that the media tells in a log. -/
def timesIn (log : List Entry) : List Float := log.filterMap (·.what.told?)

theorem commandsIn_append (log more : List Entry) :
    commandsIn (log ++ more) = commandsIn log ++ commandsIn more := by
  rw [commandsIn, List.filterMap_append, List.filter_append]
  rfl

theorem timesIn_append (log more : List Entry) :
    timesIn (log ++ more) = timesIn log ++ timesIn more := List.filterMap_append

section Visit

variable {who : Actor} {c : Call} {reply : Reply} {s s' : State} {inner : List Entry}

theorem Idle.commandsIn_visit (h : Idle inner) :
    commandsIn (visit who c reply s inner s') = [c].filter (·.isCommand) := by
  have hinner : commandsIn inner = [] := by
    refine List.filter_eq_nil_iff.mpr fun c hc => ?_
    obtain ⟨e, he, hcall⟩ := List.mem_filterMap.mp hc
    obtain ⟨m, result, hwhat⟩ := h e he
    rw [hwhat] at hcall
    obtain rfl := Option.some.inj hcall
    exact Bool.false_ne_true
  rw [visit, ← List.singleton_append, commandsIn_append, commandsIn_append, hinner]
  exact List.append_nil _

theorem Idle.timesIn_visit (h : Idle inner) :
    timesIn (visit who c reply s inner s') = (Happening.returned c.method reply).told?.toList := by
  have hinner : timesIn inner = [] := by
    refine List.filterMap_eq_nil_iff.mpr fun e he => ?_
    obtain ⟨m, result, hwhat⟩ := h e he
    rw [hwhat]
    rfl
  rw [visit, ← List.singleton_append, timesIn_append, timesIn_append, hinner]
  cases reply <;> rfl

end Visit

/-- Reactions alone lead nowhere. -/
theorem Course.idle {settings : SyncSettings} {s s' : State} {log : List Entry}
    (h : Course settings s log s') (hidle : Idle log) : s' = s ∧ ∀ e ∈ log, e.state = s := by
  have hfirst {e : Entry} {rest : List Entry} (h : Idle (e :: rest)) :
      ∃ m result, e.what = .reacted m result := h e List.mem_cons_self
  induction h with
  | nil => exact ⟨rfl, fun _ he => absurd he List.not_mem_nil⟩
  | append _ _ ih₁ ih₂ =>
    obtain ⟨hlog, hmore⟩ := List.forall_mem_append.mp hidle
    obtain ⟨rfl, hstates₁⟩ := ih₁ hlog
    obtain ⟨rfl, hstates₂⟩ := ih₂ hmore
    exact ⟨rfl, List.forall_mem_append.mpr ⟨hstates₁, hstates₂⟩⟩
  | entry s who h =>
    obtain ⟨m, result, hwhat⟩ := hfirst hidle
    dsimp only at hwhat
    rw [hwhat]
    exact ⟨rfl, List.forall_mem_singleton.mpr rfl⟩
  | call => exact absurd (hfirst hidle) nofun
  | missed => exact absurd (hfirst hidle) nofun
  | passed => exact absurd (hfirst hidle) nofun
  | ready => exact absurd (hfirst hidle) nofun
  | positioned => exact absurd (hfirst hidle) nofun

/-- In a stretch of a log the state stays as it is, the hosts are told some things and no cursor is
pushed. -/
structure Tells (s : State) (commands : List Call) (more : List Entry) : Prop where
  states : ∀ e ∈ more, e.state = s
  commands : commandsIn more = commands
  cursors : cursorsIn more = []

theorem Tells.nil (s : State) : Tells s [] [] :=
  ⟨fun _ he => absurd he List.not_mem_nil, rfl, rfl⟩

theorem Tells.append {s : State} {commands commands' : List Call} {log more : List Entry}
    (h : Tells s commands log) (h' : Tells s commands' more) :
    Tells s (commands ++ commands') (log ++ more) where
  states := List.forall_mem_append.mpr ⟨h.states, h'.states⟩
  commands := by rw [commandsIn_append, h.commands, h'.commands]
  cursors := by rw [cursorsIn_append, h.cursors, h'.cursors]; rfl

/-- A call that is left alone changes nothing. -/
theorem Visits.tells {who : Actor} {c : Call} {reply : Reply} {v w : World}
    (h : Visits who c reply v w) (hc : ∀ x, c ≠ .setCursor x) :
    ∃ more, w.log = v.log ++ more ∧
      (Undisturbed more → w.state = v.state ∧ Tells v.state ([c].filter (·.isCommand)) more) := by
  obtain ⟨-, inner, hlog, hcourse⟩ := h
  refine ⟨_, hlog, fun hcalm => ?_⟩
  have hidle := hcalm.visit hcourse.calls
  obtain ⟨hstate, hstates⟩ := hcourse.idle hidle
  refine ⟨hstate, ?_, ?_, ?_⟩
  · refine List.forall_mem_cons.mpr ⟨rfl, List.forall_mem_append.mpr ⟨hstates, ?_⟩⟩
    exact List.forall_mem_singleton.mpr hstate
  · exact hidle.commandsIn_visit
  · rw [hidle.cursorsIn_visit]
    cases c with
    | setCursor x => exact absurd rfl (hc x)
    | _ => rfl

/-! ## One request -/

namespace World

variable {r : Reaction}

/-- The media is asked whether it is paused. -/
def askPaused (r : Reaction) (w : World) : World :=
  w.ask r .outside .paused fun h => .paused h.paused

/-- What the media says to that. -/
def reportsPaused (r : Reaction) (w : World) : Bool := (w.askPaused r).hosts.paused

theorem requestSeek_of_live {w : World} {offset : Float} (h : w.state.liveOffset = some offset)
    (t : Float) :
    w.requestSeek r t =
      if w.reportsPaused r then ((w.askPaused r).setCurrentTime r .outside (t + offset), true)
      else (w.askPaused r, false) := by
  unfold requestSeek
  rw [h]
  rfl

theorem requestSeek_of_not_live {w : World} (h : w.state.liveOffset = none) (t : Float) :
    w.requestSeek r t = (w, false) := by
  unfold requestSeek
  rw [h]

theorem visits_askPaused (hr : ∀ m v, Continues v (r m v)) (w : World) :
    Visits .outside (.asked .paused) (.paused (w.reportsPaused r)) w (w.askPaused r) :=
  visits_callHost hr .outside (.asked .paused) (fun h => .paused h.paused) w

end World

/-- The states in which a controller is live. -/
theorem State.WellFormed.liveOffset_eq {s : State} (h : s.WellFormed) :
    (s.phase = .ready ∧ s.seeking = false ∧ s.liveOffset = s.offset ∧ s.offset.isSome) ∨
      (¬ (s.phase = .ready ∧ s.seeking = false) ∧ s.liveOffset = none) := by
  by_cases hlive : s.phase = .ready ∧ s.seeking = false
  · refine .inl ⟨hlive.1, hlive.2, ?_, h.offset.mpr hlive.1⟩
    rw [State.liveOffset, State.isLive, hlive.1, hlive.2]
    rfl
  · refine .inr ⟨hlive, if_neg fun hs => hlive ?_⟩
    simpa [State.isLive] using hs

/-- What a request does while the hosts leave the controller alone: nothing is told to them, or the
media is moved by the offset of the controller. -/
inductive Moves (s : State) (t : Float) : Bool → List Entry → Prop
  | refused {more : List Entry} (h : Tells s [] more) : Moves s t false more
  | honoured {more : List Entry} {offset : Float} (hready : s.phase = .ready)
      (hoffset : s.offset = some offset)
      (h : Tells s [.setCurrentTime (t + offset)] more) : Moves s t true more

/-- A request is honoured by a controller that is ready while nobody scrubs, if the media says that
it is paused. -/
theorem World.requestSeek_cases {r : Reaction} (hr : Lawful r) {w : World}
    (hwf : w.state.WellFormed) (t : Float) :
    ∃ w₁ honoured more, w.requestSeek r t = (w₁, honoured) ∧ w₁.log = w.log ++ more ∧
      (honoured = true ↔
        w.state.phase = .ready ∧ w.state.seeking = false ∧ w.reportsPaused r = true) ∧
      (Undisturbed more → w₁.state = w.state ∧ Moves w.state t honoured more) := by
  rcases hwf.liveOffset_eq with ⟨hready, hseeking, hlive, hsome⟩ | ⟨hnot, hlive⟩
  · obtain ⟨offset, hoffset⟩ := Option.isSome_iff_exists.mp hsome
    rw [hoffset] at hlive
    obtain ⟨asked, hlog₁, htells₁⟩ := (visits_askPaused (continues_lawful hr) w).tells nofun
    rw [requestSeek_of_live hlive]
    by_cases hpaused : w.reportsPaused r
    · obtain ⟨moved, hlog₂, htells₂⟩ := (visits_setCurrentTime (continues_lawful hr) .outside
        (t + offset) (w.askPaused r)).tells nofun
      rw [if_pos hpaused]
      refine ⟨_, _, asked ++ moved, rfl, ?_, iff_of_true rfl ⟨hready, hseeking, hpaused⟩,
        fun hcalm => ?_⟩
      · rw [← List.append_assoc, ← hlog₁]
        exact hlog₂
      · obtain ⟨hcalm₁, hcalm₂⟩ := hcalm.of_append
        obtain ⟨hstate₁, htells₁⟩ := htells₁ hcalm₁
        obtain ⟨hstate₂, htells₂⟩ := htells₂ hcalm₂
        rw [hstate₁] at hstate₂ htells₂
        exact ⟨hstate₂, .honoured hready hoffset (htells₁.append htells₂)⟩
    · rw [if_neg hpaused]
      exact ⟨_, _, asked, rfl, hlog₁, iff_of_false Bool.false_ne_true fun h => hpaused h.2.2,
        fun hcalm => (htells₁ hcalm).imp_right .refused⟩
  · rw [requestSeek_of_not_live hlive]
    refine ⟨_, _, [], rfl, (List.append_nil _).symm, iff_of_false Bool.false_ne_true ?_,
      fun _ => ⟨rfl, .refused (.nil _)⟩⟩
    rintro ⟨hready, hseeking, -⟩
    exact hnot ⟨hready, hseeking⟩

/-! ## The cursor afterwards -/

/-- From now on, as long as the same video is loaded and nobody scrubs, the controller is live with
an offset; and whenever it is live with this offset, an event of time that passes moves the cursor
to a time minus the offset, if the media tells this time and the hosts leave the controller
alone. -/
def Run.HoldsCursor (run : Run) (time offset : Float) : Prop :=
  ∀ {run' : Run}, run.Reaches run' →
    (run'.world.state.generation = run.world.state.generation →
      run'.world.state.seeking = false → run'.world.state.liveOffset = some offset) ∧
    (run'.world.state.liveOffset = some offset → ∀ {r : Reaction}, Lawful r →
      ∃ more, (run'.act r (.media .timeProgressed)).1.world.log = run'.world.log ++ more ∧
        (Undisturbed more → (∀ told ∈ timesIn more, told = time) →
          cursorsIn more = [time - offset]))

theorem Run.Reachable.reaches {run run' : Run} (h : run.Reachable) (hrun' : run.Reaches run') :
    run'.Reachable := by
  induction hrun' with
  | refl => exact h
  | files _ files ih => exact ih.files files
  | move _ hr m ih => exact ih.move hr m

/-- What a ready controller knows of its video stays until a load begins or it is detached. -/
theorem Run.Reachable.sameVideo {run run' : Run} (h : run.Reachable) (hrun' : run.Reaches run')
    (hready : run.world.state.phase = .ready)
    (hsame : run'.world.state.generation = run.world.state.generation) :
    run.world.state.SameVideo run'.world.state := by
  obtain ⟨mid, hmid⟩ := hrun'.log
  obtain ⟨horderly, hcalm⟩ := (h.reaches hrun').orderly
  have hlog : run'.world.log = run.world.log ++ mid ++ [] := by rw [List.append_nil, hmid]
  have hstate : run.world.state = stateAfter run.world.log := h.orderly.2.state
  have hstate' : run'.world.state = stateAfter (run.world.log ++ mid) := by
    rw [hmid]
    exact hcalm.state
  rw [hstate, hstate'] at hsame ⊢
  rw [hstate] at hready
  exact horderly.ready_append hcalm.sound hlog hready
    (hcalm.sound.not_interrupts hlog hsame)

/-- An event of a live controller pushes one cursor, to where the media tells that it is. -/
theorem World.timeProgressed_of_live {r : Reaction} (hr : Lawful r) {w : World} {offset : Float}
    (hlive : w.state.liveOffset = some offset) :
    ∃ more, (w.mediaEvent r .timeProgressed).log = w.log ++ more ∧
      (Undisturbed more → ∃ time, timesIn more = [time] ∧ cursorsIn more = [time - offset]) := by
  obtain ⟨time, w₁, ⟨-, inner₁, hlog₁, hcourse₁⟩, -, inner₂, hlog₂, hcourse₂⟩ :=
    visits_pushCursor (w := w.note .outside (.event .timeProgressed)) (continues_lawful hr) hlive
  refine ⟨⟨.outside, .event .timeProgressed, w.state⟩ ::
    pushed time offset w.state inner₁ w₁.state inner₂ (w.mediaEvent r .timeProgressed).state,
    ?_, fun hcalm => ⟨time, ?_⟩⟩
  · refine hlog₂.trans ?_
    rw [hlog₁]
    simp [World.note, pushed, World.mediaEvent]
  · obtain ⟨hcalm₁, hcalm₂⟩ := hcalm.of_cons.of_append
    have hidle₁ := hcalm₁.visit hcourse₁.calls
    have hidle₂ := hcalm₂.visit hcourse₂.calls
    rw [← List.singleton_append, timesIn_append, cursorsIn_append, pushed, timesIn_append,
      cursorsIn_append, hidle₁.timesIn_visit, hidle₂.timesIn_visit, hidle₁.cursorsIn_visit,
      hidle₂.cursorsIn_visit]
    exact ⟨rfl, rfl⟩

/-- A ready controller holds the cursor at the time of the media minus its offset. -/
theorem Run.Reachable.holdsCursor {run : Run} (h : run.Reachable) {offset : Float}
    (hready : run.world.state.phase = .ready) (hoffset : run.world.state.offset = some offset)
    (time : Float) : run.HoldsCursor time offset := by
  intro run' hrun'
  constructor
  · intro hgeneration hseeking
    have hvideo := h.sameVideo hrun' hready hgeneration
    rw [State.liveOffset, State.isLive, hvideo.phase, hready, hseeking, hvideo.offset, hoffset]
    rfl
  · intro hlive r hr
    obtain ⟨more, hlog, hcursor⟩ := World.timeProgressed_of_live hr hlive
    refine ⟨more, hlog, fun hcalm htold => ?_⟩
    obtain ⟨told, htimes, hcursors⟩ := hcursor hcalm
    rw [htimes, List.forall_mem_singleton] at htold
    rw [hcursors, htold]

/-! ## Elements of the plot -/

theorem World.plotEvent_eq (r : Reaction) (element : String) (t : Float) (w : World) :
    w.plotEvent r element t =
      if w.bindings.Binds element then w.requestSeek r t else (w, false) := by
  unfold plotEvent
  rw [BindingTable.handler?_eq]
  by_cases hbinds : w.bindings.Binds element
  · rw [if_pos hbinds, if_pos hbinds]
  · rw [if_neg hbinds, if_neg hbinds]

/-! ## Requests in a run -/

/-- What a request does in any run. It is honoured exactly if the controller is ready, nobody scrubs
and the media says that it is paused. While the hosts leave the controller alone, the state stays,
no cursor is pushed, and the media is moved if the request is honoured; the cursor then comes back
to where the request asked for, if adding the offset was exact. A request of a plot element is the
same if the element is bound, and otherwise nothing. -/
theorem seek_of_reachable {run : Run} (h : run.Reachable) {r : Reaction} (hr : Lawful r)
    (t : Float) :
    ∃ run₁ honoured more, run.act r (.seek t) = (run₁, some honoured) ∧
      run₁.world.log = run.world.log ++ more ∧
      (honoured = true ↔ run.world.state.phase = .ready ∧ run.world.state.seeking = false ∧
        run.world.reportsPaused r = true) ∧
      (∀ element, run.act r (.plot element t) =
        if run.world.bindings.Binds element then (run₁, some honoured) else (run, some false)) ∧
      (Undisturbed more → run₁.world.state = run.world.state ∧
        ((honoured = false ∧ Tells run.world.state [] more) ∨
          ∃ offset, honoured = true ∧ run.world.state.offset = some offset ∧
            Tells run.world.state [.setCurrentTime (t + offset)] more ∧
            run₁.HoldsCursor (t + offset) offset ∧
            ∀ a b, value? t = some a → value? offset = some b →
              value? (t + offset) = some (a + b) → (t + offset - offset == t) = true)) := by
  obtain ⟨horderly, hcalm⟩ := h.orderly
  have hwf : run.world.state.WellFormed := by
    rw [hcalm.state]
    exact horderly.wellFormed hcalm.sound (List.append_nil _).symm
  obtain ⟨w₁, honoured, more, hseek, hlog, hgate, hmoves⟩ :=
    World.requestSeek_cases hr hwf t
  have hact : run.act r (.seek t) = (run.withWorld w₁, some honoured) := by
    change (run.withWorld (run.world.requestSeek r t).1, some (run.world.requestSeek r t).2) = _
    rw [hseek]
  have hplot (element : String) : run.act r (.plot element t) =
      if run.world.bindings.Binds element then run.act r (.seek t) else (run, some false) := by
    change (run.withWorld (run.world.plotEvent r element t).1,
      some (run.world.plotEvent r element t).2) = _
    rw [World.plotEvent_eq]
    split
    · rfl
    · rfl
  have hafter : (run.act r (.seek t)).1.Reachable := h.move hr (.act (.seek t))
  rw [hact] at hplot hafter
  refine ⟨_, honoured, more, hact, hlog, hgate, hplot, fun hundisturbed => ?_⟩
  obtain ⟨hstate, hcase⟩ := hmoves hundisturbed
  refine ⟨hstate, ?_⟩
  cases hcase with
  | refused htells => exact .inl ⟨rfl, htells⟩
  | @honoured _ offset hready hoffset htells =>
    refine .inr ⟨offset, rfl, hoffset, htells, hafter.holdsCursor ?_ ?_ _,
      fun a b ht hb hexact => ?_⟩
    · exact (congrArg State.phase hstate).trans hready
    · exact (congrArg State.offset hstate).trans hoffset
    · exact (Double.beq_iff (Double.value?_add_sub_cancel ht hb hexact) ht).mpr rfl

/-- A video is ready, thirty seconds before the session, and paused; the plot has one of the two
elements that may ask for a seek. -/
def parked : Run :=
  Run.play World.reaction
    { world :=
        { bindings := .resolve (· == "travel") BindingTable.defaults
          hosts := { session := ⟨30, 60⟩, duration := some 60.0 } } }
    [.begin ride, .read 0]

/-- The element that the plot has moves the video, and the cursor comes to where it asked for. -/
theorem seek_of_parked :
    parked.Reachable ∧
      parked.act World.reaction (.plot "velocity" 10.0) = (parked, some false) ∧
      ∃ run₁ more, parked.act World.reaction (.plot "travel" 10.0) = (run₁, some true) ∧
        run₁.world.log = parked.world.log ++ more ∧
        Tells parked.world.state [.setCurrentTime 40.0] more ∧ run₁.HoldsCursor 40.0 30.0 ∧
        (40.0 - 30.0 : Float) = 10.0 := by
  have hreach : parked.Reachable := (Run.Reachable.start _ _ _ _ _ _).play lawful_reaction _
  obtain ⟨run₁, honoured, more, hact, hlog, hgate, hplot, heffect⟩ :=
    seek_of_reachable hreach lawful_reaction 10.0
  have hready : parked.world.state.phase = .ready ∧ parked.world.state.seeking = false ∧
      parked.world.reportsPaused World.reaction = true := by decide +kernel
  obtain rfl : honoured = true := hgate.mpr hready
  have hcalm : Undisturbed more := by
    have hmore : (parked.act World.reaction (.seek 10.0)).1.world.log.drop
        parked.world.log.length = more := by
      rw [hact, hlog, List.drop_left]
    rw [← hmore]
    decide +kernel
  have hoffset : parked.world.state.offset = some 30.0 := by decide +kernel
  have htarget : (10.0 + 30.0 : Float) = 40.0 := by decide +kernel
  have hcursor : (40.0 - 30.0 : Float) = 10.0 := by decide +kernel
  obtain ⟨-, ⟨hrefused, -⟩ | ⟨offset, -, hknown, htells, hholds, -⟩⟩ := heffect hcalm
  · contradiction
  obtain rfl : offset = 30.0 := Option.some.inj (hknown.symm.trans hoffset)
  rw [htarget] at htells hholds
  refine ⟨hreach, (hplot "velocity").trans (if_neg (by decide +kernel)), run₁, more,
    (hplot "travel").trans (if_pos (by decide +kernel)), hlog, htells, hholds, hcursor⟩

end VideoSync.Sync
