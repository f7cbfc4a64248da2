import VideoSync.Proofs.Sync.Runs

/-
  What the log of a run is made of. `Course settings s log s'` is a grammar of the stretches of a
  log that lead from the state `s` to the state `s'`: entries that stand alone, calls of hosts with
  what happens before they return (`visit`), and the three pieces in which a cursor is pushed, or
  could be. A scrub that ends or time that passes is followed by a cursor while the controller is
  live and by nothing otherwise; a load that becomes ready is followed by the start position if the
  settings say so. The values that are passed on inside these pieces are part of the grammar.

  The log of every reachable run is a course (`Run.Reachable.course`). The rule of the log says
  which entry may stand after which other one; a course also says which one must.
-/

namespace VideoSync.Sync

/-- A call of a host, what happens before it returns, and its return. -/
def visit (who : Actor) (c : Call) (reply : Reply) (s : State) (inner : List Entry) (s' : State) :
    List Entry :=
  ⟨who, .called c, s⟩ :: (inner ++ [⟨who, .returned c.method reply, s'⟩])

/-- Neither a part of a call nor something that a cursor may follow. -/
def Happening.isLone : Happening → Bool
  | called _ | returned _ _ | ready _ _ | event .seekingEnd | event .timeProgressed => false
  | _ => true

/-- What is pushed after an event of the media in a state with an offset, if the media says that it
is at a time. -/
def pushed (time offset : Float) (s : State) (inner₁ : List Entry) (s₁ : State)
    (inner₂ : List Entry) (s₂ : State) : List Entry :=
  visit .outside (.asked .currentTime) (.time time) s inner₁ s₁ ++
    visit .outside (.setCursor (time - offset)) .done s₁ inner₂ s₂

/-- The stretches of a log that lead from one state to another. -/
inductive Course (settings : SyncSettings) : State → List Entry → State → Prop
  | nil (s : State) : Course settings s [] s
  | append {s s₁ s₂ : State} {log more : List Entry} (h₁ : Course settings s log s₁)
      (h₂ : Course settings s₁ more s₂) : Course settings s (log ++ more) s₂
  | entry (s : State) (who : Actor) {what : Happening} (h : what.isLone) :
      Course settings s [⟨who, what, what.after s⟩] (what.after s)
  | call {s s' : State} {inner : List Entry} (who : Actor) {c : Call} (reply : Reply)
      (hc : ∀ x, c ≠ .setCursor x) (h : Course settings s inner s') :
      Course settings s (visit who c reply s inner s') s'
  /-- An event that the controller does not pass on. -/
  | missed {s : State} {e : MediaEvent} (he : e ≠ .seekingStart)
      (h : ((Happening.event e).after s).liveOffset = none) :
      Course settings s [⟨.outside, .event e, (Happening.event e).after s⟩]
        ((Happening.event e).after s)
  /-- An event that is passed on to the plot. -/
  | passed {s s' s₁ s₂ : State} {e : MediaEvent} {inner₁ inner₂ : List Entry} {offset : Float}
      (time : Float) (he : e ≠ .seekingStart) (hs' : s' = (Happening.event e).after s)
      (h : s'.liveOffset = some offset) (h₁ : Course settings s' inner₁ s₁)
      (h₂ : Course settings s₁ inner₂ s₂) :
      Course settings s
        (⟨.outside, .event e, s'⟩ :: pushed time offset s' inner₁ s₁ inner₂ s₂) s₂
  /-- A load becomes ready and leaves media and cursor where they are. -/
  | ready (s : State) (who : Actor) (offset : Float) (warning : Option Error)
      (hseek : settings.seekToSessionStart = false) :
      Course settings s [⟨who, .ready offset warning, s.ready offset⟩] (s.ready offset)
  /-- A load becomes ready, reports a warning if there is one, and moves media and cursor. -/
  | positioned {s s₁ s₂ s₃ : State} (who : Actor) {offset : Float} (warning : Option Error)
      {report inner₀ inner₁ inner₂ : List Entry} (position : Float)
      (hseek : settings.seekToSessionStart = true)
      (h₀ : Course settings (s.ready offset) inner₀ s₁)
      (hreport : (∃ text, report = visit who (.report text) .done (s.ready offset) inner₀ s₁) ∨
        (report = [] ∧ s₁ = s.ready offset))
      (h₁ : Course settings s₁ inner₁ s₂) (h₂ : Course settings s₂ inner₂ s₃) :
      Course settings s
        (⟨who, .ready offset warning, s.ready offset⟩ :: (report ++
          visit who (.setCurrentTime position) .done s₁ inner₁ s₂ ++
          visit who (.setCursor (position - offset)) .done s₂ inner₂ s₃)) s₃

theorem openCalls_visit {inner : List Entry} (h : openCalls 0 inner = some 0) (who : Actor)
    (c : Call) (reply : Reply) (s s' : State) :
    openCalls 0 (visit who c reply s inner s') = some 0 := by
  have hcalled : Entry.count ⟨who, .called c, s⟩ 0 = some 1 := rfl
  have hopen : openCalls 1 inner = some 1 := openCalls_add h 1
  rw [visit, openCalls_cons, hcalled, Option.bind_some, openCalls_append, hopen]
  rfl

theorem count_of_isLone {e : Entry} (h : e.what.isLone) (k : Nat) : e.count k = some k := by
  obtain ⟨who, what, s⟩ := e
  cases what with
  | called => contradiction
  | returned => contradiction
  | _ => rfl

/-- Every call that is made in a course returns in it. -/
theorem Course.calls {settings : SyncSettings} {s s' : State} {log : List Entry}
    (h : Course settings s log s') : openCalls 0 log = some 0 := by
  have happend {log more : List Entry} (hlog : openCalls 0 log = some 0)
      (hmore : openCalls 0 more = some 0) : openCalls 0 (log ++ more) = some 0 := by
    rw [openCalls_append, hlog]
    exact hmore
  have hcons {e : Entry} {more : List Entry} (he : ∀ k, e.count k = some k)
      (hmore : openCalls 0 more = some 0) : openCalls 0 (e :: more) = some 0 := by
    rw [openCalls_cons, he]
    exact hmore
  induction h with
  | nil => rfl
  | append _ _ ih₁ ih₂ => exact happend ih₁ ih₂
  | entry s who h => exact hcons (count_of_isLone h) rfl
  | call who reply hc _ ih => exact openCalls_visit ih _ _ _ _ _
  | missed => rfl
  | passed time _ _ _ _ _ ih₁ ih₂ =>
    exact hcons (fun _ => rfl)
      (happend (openCalls_visit ih₁ _ _ _ _ _) (openCalls_visit ih₂ _ _ _ _ _))
  | ready => rfl
  | positioned who warning position _ _ hreport _ _ ih₀ ih₁ ih₂ =>
    refine hcons (fun _ => rfl) (happend (happend ?_ (openCalls_visit ih₁ _ _ _ _ _))
      (openCalls_visit ih₂ _ _ _ _ _))
    rcases hreport with ⟨text, rfl⟩ | ⟨rfl, -⟩
    · exact openCalls_visit ih₀ _ _ _ _ _
    · rfl

/-- One world comes after another by a course. -/
structure Continues (v w : World) : Prop where
  settings : w.settings = v.settings
  course : ∃ more, w.log = v.log ++ more ∧ Course v.settings v.state more w.state

/-- One world comes after another by a call of a host. -/
structure Visits (who : Actor) (c : Call) (reply : Reply) (v w : World) : Prop where
  settings : w.settings = v.settings
  course : ∃ inner, w.log = v.log ++ visit who c reply v.state inner w.state ∧
    Course v.settings v.state inner w.state

namespace Continues

variable {u v w : World}

theorem refl (w : World) : Continues w w := ⟨rfl, [], (List.append_nil _).symm, .nil _⟩

theorem trans (h₁ : Continues u v) (h₂ : Continues v w) : Continues u w := by
  obtain ⟨more₁, hlog₁, hcourse₁⟩ := h₁.course
  obtain ⟨more₂, hlog₂, hcourse₂⟩ := h₂.course
  rw [h₁.settings] at hcourse₂
  refine ⟨h₂.settings.trans h₁.settings, more₁ ++ more₂, ?_, hcourse₁.append hcourse₂⟩
  rw [hlog₂, hlog₁, List.append_assoc]

end Continues

theorem Visits.continues {who : Actor} {c : Call} {reply : Reply} {v w : World}
    (h : Visits who c reply v w) (hc : ∀ x, c ≠ .setCursor x) : Continues v w := by
  obtain ⟨hsettings, inner, hlog, hcourse⟩ := h
  exact ⟨hsettings, _, hlog, .call who reply hc hcourse⟩

namespace World

variable {r : Reaction}

theorem continues_withHosts (w : World) (h : Hosts) : Continues w (w.withHosts h) :=
  ⟨rfl, [], (List.append_nil _).symm, .nil _⟩

theorem continues_become (who : Actor) {what : Happening} (w : World) {s : State}
    (hs : s = what.after w.state) (h : what.isLone) : Continues w (w.become who what s) :=
  ⟨rfl, [⟨who, what, s⟩], rfl, hs ▸ .entry w.state who h⟩

theorem continues_note (who : Actor) {what : Happening} (w : World)
    (hs : what.after w.state = w.state) (h : what.isLone) : Continues w (w.note who what) :=
  continues_become who w hs.symm h

theorem visits_callHost (hr : ∀ m v, Continues v (r m v)) (who : Actor) (c : Call)
    (reply : Hosts → Reply) (w : World) :
    Visits who c (reply (w.callHost r who c reply).hosts) w (w.callHost r who c reply) := by
  obtain ⟨hsettings, inner, hlog, hcourse⟩ := hr c.method (w.note who (.called c))
  refine ⟨hsettings, inner, ?_, hcourse⟩
  show (r c.method (w.note who (.called c))).log ++ [_] = _
  rw [hlog]
  simp [visit, World.note, World.callHost]

theorem visits_tell (hr : ∀ m v, Continues v (r m v)) (who : Actor) (c : Call) (w : World) :
    Visits who c .done w (w.tell r who c) := visits_callHost hr who c (fun _ => .done) w

theorem continues_ask (hr : ∀ m v, Continues v (r m v)) (who : Actor) (m : Method)
    (reply : Hosts → Reply) (w : World) : Continues w (w.ask r who m reply) :=
  (visits_callHost hr who (.asked m) reply w).continues nofun

/-! ## What hosts may do -/

/-- While the controller is live the cursor follows the media. -/
theorem visits_pushCursor (hr : ∀ m v, Continues v (r m v)) {w : World} {offset : Float}
    (hlive : w.state.liveOffset = some offset) :
    ∃ time w₁, Visits .outside (.asked .currentTime) (.time time) w w₁ ∧
      Visits .outside (.setCursor (time - offset)) .done w₁ (w.pushCursor r) := by
  unfold pushCursor
  rw [hlive]
  exact ⟨_, _, visits_callHost hr .outside (.asked .currentTime) (fun h => .time h.time) w,
    visits_tell hr .outside _ _⟩

theorem pushCursor_of_not_live {w : World} (hlive : w.state.liveOffset = none) :
    w.pushCursor r = w := by
  unfold pushCursor
  rw [hlive]

/-- After the entry of an event the cursor is pushed exactly if the controller is live then. -/
theorem log_pushCursor (hr : ∀ m v, Continues v (r m v)) {e : MediaEvent} (he : e ≠ .seekingStart)
    {w w' : World} (hw : w' = w.become .outside (.event e) ((Happening.event e).after w.state)) :
    (w'.pushCursor r).settings = w.settings ∧ ∃ more,
      (w'.pushCursor r).log = w.log ++ ⟨.outside, .event e, w'.state⟩ :: more ∧
      Course w.settings w.state (⟨.outside, .event e, w'.state⟩ :: more) (w'.pushCursor r).state ∧
      (more = [] ∨ ∃ time offset inner₁ s₁ inner₂,
        more = pushed time offset w'.state inner₁ s₁ inner₂ (w'.pushCursor r).state ∧
        openCalls 0 inner₁ = some 0 ∧ openCalls 0 inner₂ = some 0) := by
  have hlog : w'.log = w.log ++ [⟨.outside, .event e, w'.state⟩] := by rw [hw]; rfl
  have hstate : w'.state = (Happening.event e).after w.state := by rw [hw]; rfl
  have hsettings : w'.settings = w.settings := by rw [hw]; rfl
  cases hlive : w'.state.liveOffset with
  | none =>
    rw [pushCursor_of_not_live hlive]
    rw [hstate] at hlive
    refine ⟨hsettings, [], hlog, ?_, .inl rfl⟩
    rw [hstate]
    exact .missed he hlive
  | some offset =>
    obtain ⟨time, w₁, ⟨hsettings₁, inner₁, hlog₁, hcourse₁⟩, hsettings₂, inner₂, hlog₂, hcourse₂⟩ :=
      visits_pushCursor hr hlive
    rw [hsettings] at hsettings₁ hcourse₁
    rw [hsettings₁] at hsettings₂ hcourse₂
    refine ⟨hsettings₂, pushed time offset w'.state inner₁ w₁.state inner₂ (w'.pushCursor r).state,
      ?_, .passed time he hstate hlive hcourse₁ hcourse₂,
      .inr ⟨_, _, _, _, _, rfl, hcourse₁.calls, hcourse₂.calls⟩⟩
    rw [hlog₂, hlog₁, hlog, pushed]
    simp

theorem mediaEvent_eq (e : MediaEvent) (he : e ≠ .seekingStart) (w : World) :
    w.mediaEvent r e =
      (w.become .outside (.event e) ((Happening.event e).after w.state)).pushCursor r := by
  cases e with
  | seekingStart => exact absurd rfl he
  | seekingEnd =>
    unfold mediaEvent
    dsimp only
    split
    · rfl
    · next hphase =>
      refine (pushCursor_of_not_live ?_).symm
      simp [State.liveOffset, State.isLive, hphase]
  | timeProgressed => rfl

theorem continues_mediaEvent (hr : ∀ m v, Continues v (r m v)) (e : MediaEvent) (w : World) :
    Continues w (w.mediaEvent r e) := by
  by_cases he : e = .seekingStart
  · rw [he]
    exact continues_become .outside w rfl rfl
  · rw [mediaEvent_eq e he]
    obtain ⟨hsettings, more, hlog, hcourse, -⟩ := log_pushCursor (w := w) hr he rfl
    exact ⟨hsettings, _, hlog, hcourse⟩

theorem visits_setCurrentTime (hr : ∀ m v, Continues v (r m v)) (who : Actor) (seconds : Float)
    (w : World) : Visits who (.setCurrentTime seconds) .done w (w.setCurrentTime r who seconds) :=
  have htold := visits_tell hr who (.setCurrentTime seconds)
    (w.withHosts { w.hosts with time := seconds })
  ⟨htold.settings, htold.course⟩

theorem continues_requestSeek (hr : ∀ m v, Continues v (r m v)) (seconds : Float) (w : World) :
    Continues w (w.requestSeek r seconds).1 := by
  unfold requestSeek
  split
  · exact .refl w
  · have hasked := continues_ask hr .outside .paused (fun h => .paused h.paused) w
    dsimp only
    split
    · exact hasked.trans ((visits_setCurrentTime hr .outside _ _).continues nofun)
    · exact hasked

theorem continues_invariance : Invariance Continues where
  refl := .refl
  trans := .trans
  hosts := continues_withHosts
  armed _ _ := ⟨rfl, [], (List.append_nil _).symm, .nil _⟩
  reacted w _ _ := continues_note .outside w rfl rfl
  event := continues_mediaEvent
  seek := continues_requestSeek
  detach w := continues_become .outside w rfl rfl

theorem continues_lawful (hr : Lawful r) (m : Method) (v : World) : Continues v (r m v) :=
  continues_invariance.lawful hr m v

/-! ## Loads -/

theorem continues_fail (hr : Lawful r) (g : Nat) (e : Error) (w : World) :
    Continues w (w.fail r g e).1 := by
  unfold fail
  split
  · have hstored : Continues w (w.become (.load g .failed) (.failed e) (w.state.failed e)) :=
      continues_become (.load g .failed) w rfl rfl
    have hunload := visits_tell (continues_lawful hr) (.load g .failed) .unload
      (w.become (.load g .failed) (.failed e) (w.state.failed e))
    have hreport := visits_tell (continues_lawful hr) (.load g .failed) (.report e.message)
      ((w.become (.load g .failed) (.failed e) (w.state.failed e)).tell r (.load g .failed) .unload)
    exact (hstored.trans (hunload.continues nofun)).trans (hreport.continues nofun)
  · exact .refl w

/-- A warning is one call, no warning is none. -/
theorem visits_warn (hr : Lawful r) (who : Actor) (warning : Option Error) (w : World) :
    (∃ text, Visits who (.report text) .done w (w.warn r who warning)) ∨
      w.warn r who warning = w := by
  cases warning with
  | some e => exact .inl ⟨e.message, visits_tell (continues_lawful hr) who _ w⟩
  | none => exact .inr rfl

/-- Media and cursor are moved one after the other. -/
theorem visits_seekToStart (hr : Lawful r) (who : Actor) (a : Timeline.Alignment) (duration : Float)
    {w : World} (hseek : w.settings.seekToSessionStart = true) :
    ∃ position w₁, Visits who (.setCurrentTime position) .done w w₁ ∧
      Visits who (.setCursor (position - a.offset)) .done w₁ (w.seekToStart r who a duration) := by
  unfold seekToStart
  rw [if_pos hseek]
  exact ⟨_, _, visits_setCurrentTime (continues_lawful hr) who _ w,
    visits_tell (continues_lawful hr) who _ _⟩

theorem seekToStart_of_not_seek (who : Actor) (a : Timeline.Alignment) (duration : Float)
    {w : World} (hseek : w.settings.seekToSessionStart = false) :
    w.seekToStart r who a duration = w := by
  unfold seekToStart
  rw [hseek]
  rfl

/-- After a commit and its warning, the load moves media and cursor if the settings say so. -/
theorem continues_ready (hr : Lawful r) (who : Actor) (a : Timeline.Alignment) (duration : Float)
    (warning : Option Error) {w w₁ : World}
    (hw₁ : w₁ = w.become who (.ready a.offset warning) (w.state.ready a.offset)) :
    Continues w ((w₁.warn r who warning).seekToStart r who a duration) := by
  have hlog₁ : w₁.log = w.log ++ [⟨who, .ready a.offset warning, w.state.ready a.offset⟩] := by
    rw [hw₁]
    rfl
  have hstate₁ : w₁.state = w.state.ready a.offset := by
    rw [hw₁]
    rfl
  have hsettings₁ : w₁.settings = w.settings := by
    rw [hw₁]
    rfl
  have hwarn := visits_warn hr who warning w₁
  generalize w₁.warn r who warning = w₂ at hwarn ⊢
  have hsettings₂ : w₂.settings = w.settings := by
    rcases hwarn with ⟨text, hreport⟩ | rfl
    · exact hreport.settings.trans hsettings₁
    · exact hsettings₁
  cases hseek : w.settings.seekToSessionStart with
  | false =>
    rw [seekToStart_of_not_seek who a duration (hsettings₂ ▸ hseek)]
    have hready : Continues w w₁ := by
      refine ⟨hsettings₁, _, hlog₁, ?_⟩
      rw [hstate₁]
      exact .ready w.state who a.offset warning hseek
    rcases hwarn with ⟨text, hreport⟩ | rfl
    · exact hready.trans (hreport.continues nofun)
    · exact hready
  | true =>
    obtain ⟨position, w₃, hmoved, hpushed⟩ :=
      visits_seekToStart hr who a duration (hsettings₂ ▸ hseek)
    obtain ⟨hsettings₃, inner₁, hlog₃, hcourse₁⟩ := hmoved
    obtain ⟨hsettings₄, inner₂, hlog₄, hcourse₂⟩ := hpushed
    rw [hsettings₂] at hsettings₃ hcourse₁
    rw [hsettings₃] at hsettings₄ hcourse₂
    rcases hwarn with ⟨text, -, inner₀, hlog₂, hcourse₀⟩ | rfl
    · rw [hsettings₁, hstate₁] at hcourse₀
      refine ⟨hsettings₄, _, ?_,
        .positioned who warning position hseek hcourse₀ (.inl ⟨text, rfl⟩) hcourse₁ hcourse₂⟩
      rw [hlog₄, hlog₃, hlog₂, hlog₁, hstate₁]
      simp
    · rw [hstate₁] at hcourse₁
      refine ⟨hsettings₄, _, ?_,
        .positioned who warning position hseek (.nil _) (.inr ⟨rfl, rfl⟩) hcourse₁ hcourse₂⟩
      rw [hlog₄, hlog₃, hlog₁, hstate₁]
      simp

theorem continues_enterReady (hr : Lawful r) (g : Nat) (a : Timeline.Alignment) (duration : Float)
    (warning : Option Error) (w : World) : Continues w (w.enterReady r g a duration warning).1 := by
  unfold enterReady
  split
  · exact continues_ready hr (.load g .ready) a duration warning rfl
  · exact .refl w

theorem continues_finish (hr : Lawful r) (g : Nat) (creation : Int)
    (duration : Except Error Float) (w : World) :
    Continues w (w.finish r g creation duration).1 := by
  unfold finish
  split
  · exact .refl w
  · cases duration with
    | error e => exact continues_fail hr g e w
    | ok duration =>
      refine (continues_ask (continues_lawful hr) (.load g .pending) .sessionTimeline
        (fun h => .session h.session) w).trans ?_
      dsimp only
      split
      · exact continues_enterReady hr g _ duration none _
      · split
        · exact continues_fail hr g _ _
        · exact continues_enterReady hr g _ duration _ _

theorem continues_openMedia (hr : Lawful r) (g : Nat) (asset : Asset) (w : World) :
    Continues w (w.openMedia r g asset).1 := by
  have hasked := continues_ask (continues_lawful hr) (.load g .pending) .canPlayType
    (fun h => .playable (h.playable.contains asset.mime)) w
  unfold openMedia
  dsimp only
  split
  · exact hasked.trans ((visits_tell (continues_lawful hr) (.load g .pending) _ _).continues nofun)
  · exact hasked.trans (continues_fail hr g _ _)

theorem continues_containerRead (hr : Lawful r) (g : Nat)
    (result : Except Container.Error Container.Metadata) (w : World) :
    Continues w (w.containerRead r g result).1 := by
  unfold containerRead
  split
  · exact .refl w
  · cases result with
    | error e => exact continues_fail hr g _ w
    | ok metadata =>
      have hasked := continues_ask (continues_lawful hr) (.load g .pending) .duration
        (fun h => .duration h.duration) w
      dsimp only
      split
      · exact hasked.trans (continues_finish hr g _ _ _)
      · exact hasked

theorem continues_lookAgain (hr : Lawful r) (g : Nat) (creation : Int) (waited : Nat) (w : World) :
    Continues w (w.lookAgain r g creation waited).1 := by
  unfold lookAgain
  split
  · exact continues_finish hr g creation _ w
  · dsimp only
    split
    · exact continues_finish hr g creation (.error _) w
    · exact .refl w

end World

/-! ## Runs -/

namespace Run

variable {r : Reaction}

theorem continues_settle (run : Run) (l : InFlight) (o : Option Outcome) :
    Continues run.world (run.settle l o).world := by
  cases o with
  | none => exact .refl run.world
  | some o => exact World.continues_note (.load l.generation .pending) run.world rfl rfl

theorem continues_begin (hr : Lawful r) (asset : Asset) (run : Run) :
    Continues run.world (run.begin r asset).world := by
  have hbegan : Continues run.world (run.world.become
      (.load (run.world.state.generation + 1) .pending) (.began asset)
      (run.world.state.beginLoad asset.name)) := World.continues_become _ run.world rfl rfl
  have hopened := hbegan.trans
    (World.continues_openMedia hr (run.world.state.generation + 1) asset _)
  exact hopened.trans (continues_settle
    ⟨_, run.files, run.clock, run.begun + 1, run.inFlight ++ [_]⟩ _ _)

theorem continues_look (hr : Lawful r) (number : Nat) (run : Run) :
    Continues run.world (run.look r number).world := by
  unfold Run.look
  split
  · next l generation creation since _ =>
    have hlooked := World.continues_lookAgain hr generation creation (run.clock - since) run.world
    exact hlooked.trans (continues_settle (run.withWorld _) _ _)
  · exact .refl run.world

theorem continues_read (hr : Lawful r) (number : Nat) (run : Run) :
    Continues run.world (run.read r number).world := by
  unfold Run.read
  split
  · next l generation source _ =>
    have hread := World.continues_containerRead hr generation (source.metadata run.files) run.world
    dsimp only
    split
    · next o _ => exact hread.trans (continues_settle (run.withWorld _) _ (some o))
    · exact hread.trans (continues_look hr number ((run.withWorld _).setWait number _))
  · exact .refl run.world

theorem continues_move (hr : Lawful r) (run : Run) (m : Move) :
    Continues run.world (run.move r m).world := by
  cases m with
  | begin asset => exact continues_begin hr asset run
  | read number => exact continues_read hr number run
  | look number => exact continues_look hr number run
  | advance => exact .refl run.world
  | act a => exact World.continues_invariance.apply (World.continues_lawful hr) a run.world

/-- The log of a reachable run is a course. -/
theorem Reachable.course {run : Run} (h : run.Reachable) :
    Course run.world.settings {} run.world.log run.world.state := by
  induction h with
  | start => exact .nil _
  | files _ _ ih => exact ih
  | move _ hr m ih =>
    obtain ⟨hsettings, more, hlog, hcourse⟩ := continues_move hr _ m
    rw [hsettings, hlog]
    exact ih.append hcourse

end Run
end VideoSync.Sync
