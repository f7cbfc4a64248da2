import VideoSync.Proofs.Sync.Answers

/-
  Loads among steady hosts. Hosts are steady if, while a load calls them, they neither detach the
  controller nor change what they answer (`Steady`); they may scrub, seek and move the media as they
  like. The hosts that run what is armed are steady as long as only such actions are armed
  (`steady_reaction`). Among steady hosts a load ends, and it ends as the reference says of what
  they answer and what the container says: `Run.Prepared.loaded`.
-/

namespace VideoSync.Sync

open VideoSync.Timeline (Session align)

/-! ## Steady hosts -/

/-- Whether an action neither makes a load stale nor changes what it is told. -/
def Action.harmless : Action → Bool
  | detach | setDuration _ | setPlayable _ | setSession _ => false
  | arm _ action => action.harmless
  | media _ | seek _ | plot _ _ | setPaused _ | setTime _ => true

/-- Only harmless actions are armed. -/
def World.Harmless (w : World) : Prop := ∀ a ∈ w.armed, a.action.harmless

/-- A load finds in the second world what it finds in the first one: no load has ended in between,
the state is the same but for scrubbing, and so is what the hosts tell a load. -/
structure Unmoved (v w : World) : Prop where
  ended : w.log.filterMap (·.what.ended?) = v.log.filterMap (·.what.ended?)
  state : w.state = { v.state with seeking := w.state.seeking }
  playable : w.hosts.playable = v.hosts.playable
  duration : w.hosts.duration = v.hosts.duration
  session : w.hosts.session = v.hosts.session
  harmless : v.Harmless → w.Harmless

/-- While only harmless actions are armed, a load notices nothing of what hosts do in its calls. -/
structure Steady (r : Reaction) : Prop where
  lawful : Lawful r
  unmoved : ∀ m w, w.Harmless → Unmoved w (r m w)

theorem World.ended_become {what : Happening} (h : what.ended? = none) (w : World) (who : Actor)
    (s : State) :
    (w.become who what s).log.filterMap (·.what.ended?) = w.log.filterMap (·.what.ended?) := by
  show (w.log ++ [(⟨who, what, s⟩ : Entry)]).filterMap (·.what.ended?) = _
  simp [h]

namespace Unmoved

variable {u v w : World}

theorem refl (w : World) : Unmoved w w := ⟨rfl, rfl, rfl, rfl, rfl, id⟩

theorem trans (h₁ : Unmoved u v) (h₂ : Unmoved v w) : Unmoved u w where
  ended := h₂.ended.trans h₁.ended
  state := by rw [h₂.state, h₁.state]
  playable := h₂.playable.trans h₁.playable
  duration := h₂.duration.trans h₁.duration
  session := h₂.session.trans h₁.session
  harmless hu := h₂.harmless (h₁.harmless hu)

theorem become {who : Actor} {what : Happening} {s : State} (hended : what.ended? = none)
    (hs : s = { w.state with seeking := s.seeking }) : Unmoved w (w.become who what s) where
  ended := w.ended_become hended who s
  state := hs
  playable := rfl
  duration := rfl
  session := rfl
  harmless := id

theorem note {who : Actor} {what : Happening} (hended : what.ended? = none) (w : World) :
    Unmoved w (w.note who what) := become hended rfl

end Unmoved

namespace World

variable {r : Reaction} {w : World}

theorem unmoved_callHost (hr : ∀ m v, v.Harmless → Unmoved v (r m v)) (hw : w.Harmless)
    (who : Actor) (c : Call) (reply : Hosts → Reply) : Unmoved w (w.callHost r who c reply) :=
  ((Unmoved.note rfl w).trans (hr c.method _ hw)).trans (.note rfl _)

theorem unmoved_ask (hr : ∀ m v, v.Harmless → Unmoved v (r m v)) (hw : w.Harmless) (who : Actor)
    (m : Method) (reply : Hosts → Reply) : Unmoved w (w.ask r who m reply) :=
  unmoved_callHost hr hw who (.asked m) reply

theorem unmoved_tell (hr : ∀ m v, v.Harmless → Unmoved v (r m v)) (hw : w.Harmless) (who : Actor)
    (c : Call) : Unmoved w (w.tell r who c) := unmoved_callHost hr hw who c _

theorem unmoved_setCurrentTime (hr : ∀ m v, v.Harmless → Unmoved v (r m v)) (hw : w.Harmless)
    (who : Actor) (seconds : Float) : Unmoved w (w.setCurrentTime r who seconds) := by
  have hmoved : Unmoved w (w.withHosts { w.hosts with time := seconds }) :=
    ⟨rfl, rfl, rfl, rfl, rfl, id⟩
  exact hmoved.trans (unmoved_tell hr (hmoved.harmless hw) who _)

theorem unmoved_pushCursor (hr : ∀ m v, v.Harmless → Unmoved v (r m v)) (hw : w.Harmless) :
    Unmoved w (w.pushCursor r) := by
  unfold pushCursor
  split
  · exact .refl w
  · have hasked := unmoved_ask hr hw .outside .currentTime fun h => .time h.time
    exact hasked.trans (unmoved_tell hr (hasked.harmless hw) .outside _)

theorem unmoved_mediaEvent (hr : ∀ m v, v.Harmless → Unmoved v (r m v)) (hw : w.Harmless)
    (e : MediaEvent) : Unmoved w (w.mediaEvent r e) := by
  cases e with
  | seekingStart =>
    refine .become rfl ?_
    unfold State.seekStarted
    split <;> rfl
  | seekingEnd =>
    have hend : Unmoved w (w.become .outside (.event .seekingEnd) w.state.seekEnded) := by
      refine .become rfl ?_
      unfold State.seekEnded
      split <;> rfl
    unfold mediaEvent
    dsimp only
    split
    · exact hend.trans (unmoved_pushCursor hr (hend.harmless hw))
    · exact hend
  | timeProgressed =>
    have hnoted : Unmoved w (w.note .outside (.event .timeProgressed)) := .note rfl w
    exact hnoted.trans (unmoved_pushCursor hr (hnoted.harmless hw))

theorem unmoved_requestSeek (hr : ∀ m v, v.Harmless → Unmoved v (r m v)) (hw : w.Harmless)
    (seconds : Float) : Unmoved w (w.requestSeek r seconds).1 := by
  unfold requestSeek
  split
  · exact .refl w
  · have hasked := unmoved_ask hr hw .outside .paused fun h => .paused h.paused
    dsimp only
    split
    · exact hasked.trans (unmoved_setCurrentTime hr (hasked.harmless hw) .outside _)
    · exact hasked

/-- A load notices nothing of a harmless action. -/
theorem unmoved_apply (hr : ∀ m v, v.Harmless → Unmoved v (r m v)) (hw : w.Harmless) {a : Action}
    (ha : a.harmless) : Unmoved w (w.apply r a).1 := by
  cases a with
  | media e => exact unmoved_mediaEvent hr hw e
  | seek seconds => exact unmoved_requestSeek hr hw seconds
  | plot element seconds =>
    show Unmoved w (w.plotEvent r element seconds).1
    unfold plotEvent
    split
    · exact unmoved_requestSeek hr hw seconds
    · exact .refl w
  | setPaused | setTime => exact ⟨rfl, rfl, rfl, rfl, rfl, id⟩
  | arm on action =>
    refine ⟨rfl, rfl, rfl, rfl, rfl, fun _ => List.forall_mem_append.mpr ⟨hw, ?_⟩⟩
    exact List.forall_mem_singleton.mpr ha
  | detach | setDuration | setPlayable | setSession => contradiction

/-- What is taken from the armed actions was armed, and so are those that are left. -/
theorem mem_of_takeArmed {m : Method} {armed rest : List Armed} {action : Action}
    (h : takeArmed m armed = some (action, rest)) :
    (∃ a ∈ armed, a.action = action) ∧ ∀ a ∈ rest, a ∈ armed := by
  induction armed generalizing rest with
  | nil => contradiction
  | cons a armed ih =>
    unfold takeArmed at h
    split at h
    · cases h
      exact ⟨⟨a, List.mem_cons_self, rfl⟩, fun b hb => List.mem_cons_of_mem a hb⟩
    · obtain ⟨⟨taken, others⟩, htaken, heq⟩ := Option.map_eq_some_iff.mp h
      cases heq
      obtain ⟨⟨b, hb, hbaction⟩, hothers⟩ := ih htaken
      refine ⟨⟨b, List.mem_cons_of_mem a hb, hbaction⟩, fun c hc => ?_⟩
      rcases List.mem_cons.mp hc with rfl | hc
      · exact List.mem_cons_self
      · exact List.mem_cons_of_mem a (hothers c hc)

theorem unmoved_react (depth : Nat) : ∀ m w, w.Harmless → Unmoved w (react depth m w) := by
  induction depth with
  | zero => exact fun _ w _ => .refl w
  | succ depth ih =>
    intro m w hw
    unfold react
    split
    · exact .refl w
    · next action rest htaken =>
      obtain ⟨⟨a, ha, rfl⟩, hrest⟩ := mem_of_takeArmed htaken
      have hleft : (w.withArmed rest).Harmless := fun b hb => hw b (hrest b hb)
      have htook : Unmoved w (w.withArmed rest) := ⟨rfl, rfl, rfl, rfl, rfl, fun _ => hleft⟩
      exact (htook.trans (unmoved_apply ih hleft (hw a ha))).trans (.note rfl _)

end World

/-- Running what is armed is steady. -/
theorem steady_reaction : Steady World.reaction where
  lawful := lawful_reaction
  unmoved m w hw := World.unmoved_react w.depth m w hw

/-! ## The stages of a load -/

/-- The state once a load has stored how it ends. -/
def Outcome.store : Outcome → State → State
  | ready a, s | readyWithoutOverlap a, s => s.ready a.offset
  | failed e, s => s.failed e
  | superseded, s => s

/-- A load has stored how it ends; no load has ended in between, and afterwards the state may differ
by scrubbing. -/
structure Stored (w w' : World) (o : Outcome) : Prop where
  ended : w'.log.filterMap (·.what.ended?) = w.log.filterMap (·.what.ended?)
  state : w'.state = { o.store w.state with seeking := w'.state.seeking }

theorem Unmoved.stored {u w w' : World} {o : Outcome} (h : Unmoved u w) (hs : Stored w w' o) :
    Stored u w' o where
  ended := hs.ended.trans h.ended
  state := by
    rw [hs.state, h.state]
    cases o <;> rfl

namespace World

variable {r : Reaction} {w : World} {g : Nat}

theorem stored_of_become {w' : World} {who : Actor} {what : Happening} {o : Outcome}
    (hended : what.ended? = none) (h : Unmoved (w.become who what (o.store w.state)) w') :
    Stored w w' o where
  ended := h.ended.trans (w.ended_become hended who _)
  state := h.state

theorem stored_fail (hr : Steady r) (hw : w.Harmless) (hg : w.isCurrent g) (e : Error) :
    Stored w (w.fail r g e).1 (.failed e) := by
  unfold fail
  rw [if_pos hg]
  have hunload := unmoved_tell (w := w.become (.load g .failed) (.failed e) (w.state.failed e))
    hr.unmoved hw (.load g .failed) .unload
  exact stored_of_become (rfl : (Happening.failed e).ended? = none)
    (hunload.trans (unmoved_tell hr.unmoved (hunload.harmless hw) (.load g .failed) _))

theorem stored_enterReady (hr : Steady r) (hw : w.Harmless) (hg : w.isCurrent g)
    {a : Timeline.Alignment} {o : Outcome} (ho : o.store w.state = w.state.ready a.offset)
    (duration : Float) (warning : Option Error) :
    Stored w (w.enterReady r g a duration warning).1 o := by
  unfold enterReady
  rw [if_pos hg, ← ho]
  let ready := w.become (.load g .ready) (.ready a.offset warning) (o.store w.state)
  have hwarned : Unmoved ready (ready.warn r (.load g .ready) warning) := by
    cases warning with
    | none => exact .refl _
    | some e => exact unmoved_tell (w := ready) hr.unmoved hw (.load g .ready) _
  have hended : (Happening.ready a.offset warning).ended? = none := rfl
  refine stored_of_become hended (hwarned.trans ?_)
  have hharmless := hwarned.harmless hw
  dsimp only
  unfold seekToStart
  split
  · have hmoved := unmoved_setCurrentTime hr.unmoved hharmless (.load g .ready)
      (a.initialPosition duration)
    exact hmoved.trans (unmoved_tell hr.unmoved (hmoved.harmless hharmless) (.load g .ready) _)
  · exact .refl _

theorem stored_judge (hr : Steady r) (hw : w.Harmless) (hg : w.isCurrent g)
    (a : Timeline.Alignment) (seconds : Float) (session : Session) :
    Stored w (w.judge r g a seconds session).1 (verdict w.settings.overlapPolicy a session) := by
  unfold judge verdict
  by_cases hov : a.overlaps
  · rw [if_pos hov, if_pos hov]
    exact stored_enterReady hr hw hg rfl seconds none
  · rw [if_neg hov, if_neg hov]
    cases w.settings.overlapPolicy with
    | reject => exact stored_fail hr hw hg _
    | warn => exact stored_enterReady hr hw hg rfl seconds _

theorem isCurrent_of_unmoved {v : World} (h : Unmoved v w) (hg : v.isCurrent g) :
    w.isCurrent g := by
  rw [isCurrent, h.state]
  exact hg

/-- The answers of hosts to a load whose duration they know, with what its container says. -/
def answers (w : World) (created : Except Container.Error Int) : Answers where
  playable := true
  created := created
  duration := w.hosts.duration
  later := none
  session := w.hosts.session

/-- A load that knows its duration asks for the session and ends. -/
theorem finish_of_steady (hr : Steady r) (hw : w.Harmless) (hg : w.isCurrent g) (asset : Asset)
    (creation : Int) {seconds : Float} (hduration : w.hosts.duration = some seconds) :
    (w.finish r g creation (validDuration seconds)).2 =
        reference w.settings asset (w.answers (.ok creation)) ∧
      Stored w (w.finish r g creation (validDuration seconds)).1
        (reference w.settings asset (w.answers (.ok creation))) := by
  have href : reference w.settings asset (w.answers (.ok creation)) =
      if unusable seconds then .failed (.invalidDuration seconds)
      else verdict w.settings.overlapPolicy (align creation seconds w.hosts.session)
        w.hosts.session := by
    simp [reference, answers, Answers.known, hduration]
  rw [href, validDuration_eq]
  cases unusable seconds with
  | true =>
    rw [if_pos rfl, if_pos rfl, finish_error hg]
    exact ⟨(fail_of_isCurrent hr.lawful hg _).1, stored_fail hr hw hg _⟩
  | false =>
    rw [if_neg Bool.false_ne_true, if_neg Bool.false_ne_true, finish_ok hg creation seconds rfl]
    have hasked := unmoved_ask hr.unmoved hw (.load g .pending) .sessionTimeline
      fun h => .session h.session
    have hsettings := settings_ask (g := g) hr.lawful .sessionTimeline
      (fun h => .session h.session) w
    rw [← hsettings, ← hasked.session]
    have hg' := isCurrent_of_unmoved hasked hg
    exact ⟨(judge_of_isCurrent hr.lawful hg' _ _ _).1,
      hasked.stored (stored_judge hr (hasked.harmless hw) hg' _ _ _)⟩

/-- A load whose container was read ends if the hosts know the duration. -/
theorem containerRead_of_steady (hr : Steady r) (hw : w.Harmless) (hg : w.isCurrent g)
    (asset : Asset) (result : Except Container.Error Container.Metadata) {seconds : Float}
    (hduration : w.hosts.duration = some seconds) :
    (w.containerRead r g result).2 =
        .ended (reference w.settings asset (w.answers (result.map (·.creation)))) ∧
      Stored w (w.containerRead r g result).1
        (reference w.settings asset (w.answers (result.map (·.creation)))) := by
  unfold containerRead
  rw [hg, if_neg (by decide)]
  cases result with
  | error e =>
    exact ⟨congrArg Progress.ended (fail_of_isCurrent hr.lawful hg _).1, stored_fail hr hw hg _⟩
  | ok metadata =>
    have hasked := unmoved_ask hr.unmoved hw (.load g .pending) .duration
      fun h => .duration h.duration
    have hsettings := settings_ask (g := g) hr.lawful .duration (fun h => .duration h.duration) w
    have hduration' := hasked.duration.trans hduration
    have hfinish := finish_of_steady hr (hasked.harmless hw) (isCurrent_of_unmoved hasked hg) asset
      metadata.creation hduration'
    have hanswers (created : Except Container.Error Int) :
        (w.ask r (.load g .pending) .duration fun h => .duration h.duration).answers created =
          w.answers created := by
      unfold answers
      rw [hasked.duration, hasked.session]
    rw [hsettings, hanswers] at hfinish
    dsimp only
    rw [hduration']
    exact ⟨congrArg Progress.ended hfinish.1, hasked.stored hfinish.2⟩

/-- A load whose type can be played gives the media its video and goes on. -/
theorem openMedia_of_steady (hr : Steady r) (hw : w.Harmless) {asset : Asset}
    (hplayable : asset.mime ∈ w.hosts.playable) :
    (w.openMedia r g asset).2 = none ∧ Unmoved w (w.openMedia r g asset).1 := by
  have hasked := unmoved_ask hr.unmoved hw (.load g .pending) .canPlayType
    fun h => .playable (h.playable.contains asset.mime)
  have hcan : (w.ask r (.load g .pending) .canPlayType
      fun h => .playable (h.playable.contains asset.mime)).hosts.playable.contains asset.mime := by
    rw [hasked.playable]
    exact List.contains_iff_mem.mpr hplayable
  unfold openMedia
  dsimp only
  rw [if_pos hcan]
  exact ⟨rfl, hasked.trans (unmoved_tell hr.unmoved (hasked.harmless hw) (.load g .pending) _)⟩

end World

/-! ## The whole load -/

namespace Run

variable {run : Run} {r : Reaction} {asset : Asset} {seconds : Float} {session : Session}

/-- A load begins, and its container is read right away. -/
def load (r : Reaction) (asset : Asset) (run : Run) : Run := (run.begin r asset).read r run.begun

/-- The hosts are set for a load: they can play its video, know the duration and show a session, and
what they are told to do in between is harmless. -/
structure Prepared (run : Run) (asset : Asset) (seconds : Float) (session : Session) : Prop where
  reachable : run.Reachable
  harmless : run.world.Harmless
  playable : asset.mime ∈ run.world.hosts.playable
  duration : run.world.hosts.duration = some seconds
  session : run.world.hosts.session = session

/-- What a load of a prepared run goes by. -/
def answers (run : Run) (asset : Asset) : Answers :=
  run.world.answers ((asset.source.metadata run.files).map (·.creation))

/-- What a prepared load of a run has become when its container is to be read: it is in flight and
current, and the hosts still are set for it. -/
structure Begun (run begun : Run) (asset : Asset) : Prop where
  found : begun.find? run.begun =
    some ⟨run.begun, run.world.state.generation + 1, .container asset.source⟩
  files : begun.files = run.files
  settings : begun.world.settings = run.world.settings
  unmoved : Unmoved (run.world.become (.load (run.world.state.generation + 1) .pending)
    (.began asset) (run.world.state.beginLoad asset.name)) begun.world

theorem Prepared.begin (h : run.Prepared asset seconds session) (hr : Steady r) :
    run.Begun (run.begin r asset) asset := by
  have horderly := (h.reachable.move hr.lawful (.begin asset)).orderly.1
  obtain ⟨hsettings, -⟩ := continues_move hr.lawful run (.begin asset)
  obtain ⟨hnone, hunmoved⟩ := World.openMedia_of_steady
    (w := run.world.become (.load (run.world.state.generation + 1) .pending) (.began asset)
      (run.world.state.beginLoad asset.name))
    (g := run.world.state.generation + 1) hr h.harmless h.playable
  have hbegin : run.begin r asset = { run with
      world := ((run.world.become (.load (run.world.state.generation + 1) .pending)
        (.began asset) (run.world.state.beginLoad asset.name)).openMedia r
          (run.world.state.generation + 1) asset).1
      begun := run.begun + 1
      inFlight := run.inFlight ++
        [⟨run.begun, run.world.state.generation + 1, .container asset.source⟩] } := by
    unfold Run.begin
    dsimp only [State.beginLoad] at hnone ⊢
    rw [hnone]
    rfl
  have hmem : ⟨run.begun, run.world.state.generation + 1, .container asset.source⟩ ∈
      (run.begin r asset).inFlight := by
    rw [hbegin]
    exact List.mem_append_right _ (List.mem_singleton_self _)
  refine ⟨horderly.find?_eq hmem, ?_, hsettings, ?_⟩
  · rw [hbegin]
  · rw [hbegin]
    exact hunmoved

theorem ended_conclude (run : Run) (l : InFlight) (o : Outcome) :
    (run.conclude l o).ended = run.ended ++ [(l.number, o)] := List.filterMap_append

/-- Among steady hosts a prepared load ends as the reference says of their answers, no other load
ends meanwhile, and the state is that of the outcome. -/
theorem Prepared.loaded (h : run.Prepared asset seconds session) (hr : Steady r) :
    (run.load r asset).ended =
        run.ended ++ [(run.begun, reference run.world.settings asset (run.answers asset))] ∧
      (run.load r asset).world.state =
        { (reference run.world.settings asset (run.answers asset)).store
            (run.world.state.beginLoad asset.name) with
          seeking := (run.load r asset).world.state.seeking } := by
  obtain ⟨hfound, hfiles, hsettings, hunmoved⟩ := h.begin hr
  have hcurrent : (run.begin r asset).world.isCurrent (run.world.state.generation + 1) := by
    rw [World.isCurrent, hunmoved.state]
    exact beq_self_eq_true _
  have hanswers (created : Except Container.Error Int) :
      (run.begin r asset).world.answers created = run.world.answers created := by
    unfold World.answers
    rw [hunmoved.duration, hunmoved.session]
    rfl
  obtain ⟨hended, hstored⟩ := World.containerRead_of_steady hr (hunmoved.harmless h.harmless)
    hcurrent asset (asset.source.metadata run.files) (hunmoved.duration.trans h.duration)
  rw [hanswers, hsettings] at hended hstored
  have hload : run.load r asset =
      ((run.begin r asset).withWorld ((run.begin r asset).world.containerRead r
        (run.world.state.generation + 1) (asset.source.metadata run.files)).1).conclude
          ⟨run.begun, run.world.state.generation + 1, .container asset.source⟩
          (reference run.world.settings asset (run.answers asset)) := by
    unfold Run.load Run.read
    rw [hfound]
    dsimp only
    rw [hfiles, hended]
    rfl
  have hall := hunmoved.stored hstored
  rw [hload]
  refine ⟨?_, hall.state⟩
  rw [ended_conclude]
  exact congrArg (· ++ [_]) (hall.ended.trans (World.ended_become rfl run.world _ _))

end Run
end VideoSync.Sync
