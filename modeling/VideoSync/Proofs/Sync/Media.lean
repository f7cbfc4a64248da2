import VideoSync.Proofs.Sync.Origin

/-
  What the media holds. The controller tells the media to load a video or to unload, outside of its
  own lock and with several loads in flight. Nevertheless the two agree between moves
  (`media_agrees`): in a ready controller the last of these commands was to load the video that the
  state names, after an error it was to unload, and no load gives such a command once a newer one
  has begun.

  `Aside v w` says that nothing of this kind happened on the way from `v` to `w`, and that the state
  has kept what it says of its video unless the controller was detached. Hosts keep aside, and so
  does a load apart from two calls. The invariant of runs (`Agreement`) is about the load in flight
  that has the generation of the state: the media holds its video.
-/

namespace VideoSync.Sync

/-- What the media holds from now on, if this changes: a video by its name, or none. -/
def Happening.holds? : Happening → Option (Option String)
  | called (.load name) => some (some name)
  | called .unload => some none
  | _ => none

/-- What the media was told last to hold, if it ever was told. -/
def held (log : List Entry) : Option (Option String) := (log.filterMap (·.what.holds?)).getLast?

/-- A load begins, or the media is told what to hold. -/
def Happening.claims (what : Happening) : Bool := what.isBegin || what.holds?.isSome

/-- If one begins a load and the other one tells the media what to hold, then the latter is not the
older load. -/
def Entry.Yields (b e : Entry) : Prop :=
  b.what.isBegin → e.what.holds?.isSome → ∃ g g', b.isBy g ∧ e.isBy g' ∧ g ≤ g'

/-- The media holds the video that the state names. -/
def World.Holds (w : World) : Prop :=
  ∃ name, w.state.assetName = some name ∧ held w.log = some (some name)

/-- The way from one world to another on which no load begins, the media is told nothing of what to
hold, and the state keeps its phase and its video unless the controller is detached. -/
structure Aside (v w : World) : Prop where
  log : ∃ more, w.log = v.log ++ more ∧ ∀ e ∈ more, e.what.claims = false
  generation : v.state.generation ≤ w.state.generation
  same : w.state.generation = v.state.generation →
    w.state.phase = v.state.phase ∧ w.state.assetName = v.state.assetName
  idle : v.state.generation < w.state.generation → w.state.phase = .idle

/-! ## What keeps aside -/

namespace Aside

variable {u v w : World}

theorem of_eq (hlog : w.log = v.log) (hstate : w.state = v.state) : Aside v w where
  log := ⟨[], by rw [hlog, List.append_nil], fun _ he => absurd he List.not_mem_nil⟩
  generation := Nat.le_of_eq (congrArg State.generation hstate.symm)
  same _ := ⟨congrArg State.phase hstate, congrArg State.assetName hstate⟩
  idle h := absurd (congrArg State.generation hstate) (Nat.ne_of_gt h)

theorem refl (w : World) : Aside w w := of_eq rfl rfl

theorem trans (h₁ : Aside u v) (h₂ : Aside v w) : Aside u w := by
  obtain ⟨more₁, hlog₁, hmore₁⟩ := h₁.log
  obtain ⟨more₂, hlog₂, hmore₂⟩ := h₂.log
  have hle₁ := h₁.generation
  have hle₂ := h₂.generation
  refine ⟨⟨more₁ ++ more₂, ?_, List.forall_mem_append.mpr ⟨hmore₁, hmore₂⟩⟩,
    Nat.le_trans hle₁ hle₂, ?_, ?_⟩
  · rw [hlog₂, hlog₁, List.append_assoc]
  · intro hg
    obtain ⟨hphase₁, hname₁⟩ := h₁.same (by omega)
    obtain ⟨hphase₂, hname₂⟩ := h₂.same (by omega)
    exact ⟨hphase₂.trans hphase₁, hname₂.trans hname₁⟩
  · intro hg
    rcases Nat.lt_or_eq_of_le hle₂ with hlt | heq
    · exact h₂.idle hlt
    · rw [(h₂.same heq.symm).1]
      exact h₁.idle (by omega)

/-- An entry in a state with the same video. -/
theorem of_become {who : Actor} {what : Happening} {s : State} (hc : what.claims = false)
    (hs : w.state.SameVideo s) : Aside w (w.become who what s) where
  log := ⟨[⟨who, what, s⟩], rfl, List.forall_mem_singleton.mpr hc⟩
  generation := Nat.le_of_eq hs.generation.symm
  same _ := ⟨hs.phase, hs.name⟩
  idle h := absurd hs.generation (Nat.ne_of_gt h)

theorem note {who : Actor} {what : Happening} (hc : what.claims = false) (w : World) :
    Aside w (w.note who what) := of_become hc (.refl _)

end Aside

namespace World

variable {r : Reaction}

/-- A call that does not tell the media what to hold. -/
theorem aside_callHost (hr : ∀ m v, Aside v (r m v)) (who : Actor) {c : Call}
    (hc : (Happening.called c).claims = false) (reply : Hosts → Reply) (w : World) :
    Aside w (w.callHost r who c reply) :=
  ((Aside.note hc w).trans (hr c.method _)).trans (.note rfl _)

theorem aside_tell (hr : ∀ m v, Aside v (r m v)) (who : Actor) {c : Call}
    (hc : (Happening.called c).claims = false) (w : World) : Aside w (w.tell r who c) :=
  aside_callHost hr who hc _ w

theorem aside_ask (hr : ∀ m v, Aside v (r m v)) (who : Actor) {m : Method}
    (hc : (Happening.called (.asked m)).claims = false) (reply : Hosts → Reply) (w : World) :
    Aside w (w.ask r who m reply) :=
  aside_callHost hr who hc reply w

theorem aside_pushCursor (hr : ∀ m v, Aside v (r m v)) (w : World) : Aside w (w.pushCursor r) := by
  unfold pushCursor
  split
  · exact .refl w
  · exact (aside_ask hr .outside rfl _ w).trans (aside_tell hr .outside rfl _)

theorem aside_mediaEvent (hr : ∀ m v, Aside v (r m v)) (e : MediaEvent) (w : World) :
    Aside w (w.mediaEvent r e) := by
  cases e with
  | seekingStart => exact .of_become rfl w.state.sameVideo_seekStarted
  | seekingEnd =>
    have hend : Aside w (w.become .outside (.event .seekingEnd) w.state.seekEnded) :=
      .of_become rfl w.state.sameVideo_seekEnded
    unfold mediaEvent
    dsimp only
    split
    · exact hend.trans (aside_pushCursor hr _)
    · exact hend
  | timeProgressed => exact (Aside.note rfl w).trans (aside_pushCursor hr _)

theorem aside_setCurrentTime (hr : ∀ m v, Aside v (r m v)) (who : Actor) (seconds : Float)
    (w : World) : Aside w (w.setCurrentTime r who seconds) :=
  have htold := aside_tell hr who (c := .setCurrentTime seconds) rfl
    (w.withHosts { w.hosts with time := seconds })
  ⟨htold.log, htold.generation, htold.same, htold.idle⟩

theorem aside_requestSeek (hr : ∀ m v, Aside v (r m v)) (seconds : Float) (w : World) :
    Aside w (w.requestSeek r seconds).1 := by
  unfold requestSeek
  split
  · exact .refl w
  · have hasked := aside_ask hr .outside (m := .paused) rfl (.paused ·.paused) w
    dsimp only
    split
    · exact hasked.trans (aside_setCurrentTime hr .outside _ _)
    · exact hasked

/-- Whatever hosts do during a call keeps aside. -/
theorem aside_invariance : Invariance Aside where
  refl := .refl
  trans := .trans
  hosts _ _ := .of_eq rfl rfl
  armed _ _ := .of_eq rfl rfl
  reacted w _ _ := .note rfl w
  event := aside_mediaEvent
  seek := aside_requestSeek
  detach _ := ⟨⟨_, rfl, List.forall_mem_singleton.mpr rfl⟩, Nat.le_succ _,
    fun h => absurd h (Nat.succ_ne_self _), fun _ => rfl⟩

theorem aside_lawful (hr : Lawful r) (m : Method) (v : World) : Aside v (r m v) :=
  aside_invariance.lawful hr m v

/-- What a load does after it became ready. -/
theorem aside_positioning (hr : Lawful r) (who : Actor) (warning : Option Error)
    (a : Timeline.Alignment) (duration : Float) (w : World) :
    Aside w ((w.warn r who warning).seekToStart r who a duration) := by
  have hwarn : Aside w (w.warn r who warning) := by
    cases warning with
    | some e => exact aside_tell (aside_lawful hr) who rfl w
    | none => exact .refl w
  refine hwarn.trans ?_
  unfold seekToStart
  split
  · exact (aside_setCurrentTime (aside_lawful hr) who _ _).trans
      (aside_tell (aside_lawful hr) who rfl _)
  · exact .refl _

end World

/-! ## Commands to hold something -/

theorem held_append_of_not_claims {log more : List Entry} (h : ∀ e ∈ more, e.what.claims = false) :
    held (log ++ more) = held log := by
  have hnone : more.filterMap (·.what.holds?) = [] := by
    refine List.filterMap_eq_nil_iff.mpr fun e he => ?_
    have hclaims := h e he
    rw [Happening.claims, Bool.or_eq_false_iff, Option.isSome_eq_false_iff] at hclaims
    exact Option.isNone_iff_eq_none.mp hclaims.2
  rw [held, held, List.filterMap_append, hnone, List.append_nil]

theorem held_concat {log : List Entry} {e : Entry} {video : Option String}
    (h : e.what.holds? = some video) : held (log ++ [e]) = some video := by
  simp [held, h]

theorem Entry.yields_of_not_claims {b e : Entry}
    (h : b.what.claims = false ∨ e.what.claims = false) : b.Yields e := by
  intro hbegin hholds
  rcases h with h | h
  · rw [Happening.claims, hbegin] at h
    contradiction
  · rw [Happening.claims, hholds, Bool.or_true] at h
    contradiction

theorem pairwise_append_of_not_claims {log more : List Entry} (hlog : log.Pairwise Entry.Yields)
    (h : ∀ e ∈ more, e.what.claims = false) : (log ++ more).Pairwise Entry.Yields := by
  refine List.pairwise_append.mpr ⟨hlog, ?_, ?_⟩
  · exact List.pairwise_of_forall_mem_list fun b hb e _ =>
      Entry.yields_of_not_claims (.inl (h b hb))
  · exact fun b _ e he => Entry.yields_of_not_claims (.inr (h e he))

theorem mem_of_isBegin {log more : List Entry} (h : ∀ e ∈ more, e.what.claims = false) {b : Entry}
    (hb : b ∈ log ++ more) (hbegin : b.what.isBegin) : b ∈ log := by
  refine (List.mem_append.mp hb).resolve_right fun hmem => ?_
  have hclaims := h b hmem
  rw [Happening.claims, hbegin] at hclaims
  contradiction

/-- The media agrees with the state, and the commands of what to hold are in order. -/
structure World.Agrees (w : World) : Prop where
  ready : w.state.phase = .ready → w.Holds
  error : w.state.phase = .error → held w.log = some none
  newest : w.log.Pairwise Entry.Yields
  begun : ∀ b ∈ w.log, b.what.isBegin → ∃ g ≤ w.state.generation, b.isBy g

namespace Aside

variable {v w : World}

theorem held (h : Aside v w) : held w.log = held v.log := by
  obtain ⟨more, hlog, hmore⟩ := h.log
  rw [hlog]
  exact held_append_of_not_claims hmore

/-- The media holds the video of the state as long as the controller is not detached. -/
theorem holds (h : Aside v w) (hg : w.state.generation = v.state.generation) (hv : v.Holds) :
    w.Holds := by
  obtain ⟨name, hname, hheld⟩ := hv
  exact ⟨name, (h.same hg).2.trans hname, h.held.trans hheld⟩

/-- A phase that is not idle was there before. -/
theorem of_phase (h : Aside v w) (hphase : w.state.phase ≠ .idle) :
    w.state.generation = v.state.generation ∧ w.state.phase = v.state.phase := by
  rcases Nat.lt_or_eq_of_le h.generation with hlt | heq
  · exact absurd (h.idle hlt) hphase
  · exact ⟨heq.symm, (h.same heq.symm).1⟩

theorem newest (h : Aside v w) (hv : v.log.Pairwise Entry.Yields) :
    w.log.Pairwise Entry.Yields := by
  obtain ⟨more, hlog, hmore⟩ := h.log
  rw [hlog]
  exact pairwise_append_of_not_claims hv hmore

theorem begun (h : Aside v w) {g : Nat}
    (hv : ∀ b ∈ v.log, b.what.isBegin → ∃ g' ≤ g, b.isBy g') :
    ∀ b ∈ w.log, b.what.isBegin → ∃ g' ≤ g, b.isBy g' := by
  obtain ⟨more, hlog, hmore⟩ := h.log
  intro b hb hbegin
  rw [hlog] at hb
  exact hv b (mem_of_isBegin hmore hb hbegin) hbegin

theorem agrees (h : Aside v w) (hv : v.Agrees) : w.Agrees where
  ready hphase := by
    obtain ⟨hg, hsame⟩ := h.of_phase (by rw [hphase]; nofun)
    exact h.holds hg (hv.ready (hsame ▸ hphase))
  error hphase := by
    obtain ⟨-, hsame⟩ := h.of_phase (by rw [hphase]; nofun)
    exact h.held.trans (hv.error (hsame ▸ hphase))
  newest := h.newest hv.newest
  begun b hb hbegin := by
    obtain ⟨g, hg, hby⟩ := h.begun hv.begun b hb hbegin
    exact ⟨g, Nat.le_trans hg h.generation, hby⟩

end Aside

namespace World

variable {r : Reaction} {w : World} {g : Nat}

/-- A command to hold something is in order if no load newer than its maker has begun. -/
theorem newest_note {who : Actor} {c : Call} (hw : w.log.Pairwise Entry.Yields)
    (hwho : who.generation? = some g)
    (hg : ∀ b ∈ w.log, b.what.isBegin → ∃ g' ≤ g, b.isBy g') :
    (w.note who (.called c)).log.Pairwise Entry.Yields := by
  refine List.pairwise_append.mpr ⟨hw, List.pairwise_singleton _ _, ?_⟩
  intro b hb e he hbegin _
  obtain rfl := List.mem_singleton.mp he
  obtain ⟨g', hle, hby⟩ := hg b hb hbegin
  refine ⟨g', g, hby, ?_, hle⟩
  rw [Entry.isBy, hwho]
  exact beq_self_eq_true _

/-- A load that fails leaves the media without a video, unless it is stale. -/
theorem agrees_fail (hr : Lawful r) (hw : w.Agrees) (e : Error) : (w.fail r g e).1.Agrees := by
  unfold fail
  split
  · next hg =>
    obtain rfl := generation_of_isCurrent hg
    let who : Actor := .load w.state.generation .failed
    have hquiet : ∀ e' ∈ [(⟨who, .failed e, w.state.failed e⟩ : Entry)],
        e'.what.claims = false := List.forall_mem_singleton.mpr rfl
    have hcall : ∀ e' ∈ [(⟨who, .called .unload, w.state.failed e⟩ : Entry)],
        e'.what.isBegin = false := List.forall_mem_singleton.mpr rfl
    have hbegun : ∀ b ∈ (w.become who (.failed e) (w.state.failed e)).log, b.what.isBegin →
        ∃ g' ≤ w.state.generation, b.isBy g' :=
      fun b hb hbegin => hw.begun b (mem_of_isBegin hquiet hb hbegin) hbegin
    have hunloading :
        ((w.become who (.failed e) (w.state.failed e)).note who (.called .unload)).Agrees := by
      refine ⟨nofun, fun _ => held_concat rfl,
        newest_note (pairwise_append_of_not_claims hw.newest hquiet) rfl hbegun, ?_⟩
      intro b hb hbegin
      rcases List.mem_append.mp hb with hb | hb
      · exact hbegun b hb hbegin
      · rw [hcall b hb] at hbegin
        contradiction
    have hunloaded : Aside _ ((w.become who (.failed e) (w.state.failed e)).tell r who .unload) :=
      (aside_lawful hr .unload _).trans (.note rfl _)
    have hreported : Aside _ (((w.become who (.failed e) (w.state.failed e)).tell r who
        .unload).tell r who (.report e.message)) :=
      aside_tell (aside_lawful hr) who rfl _
    exact (hunloaded.trans hreported).agrees hunloading
  · exact hw

/-- A load that becomes ready has its video in the media. -/
theorem agrees_enterReady (hr : Lawful r) (hw : w.Agrees)
    (hholds : w.state.generation = g → w.Holds) (a : Timeline.Alignment) (duration : Float)
    (warning : Option Error) : (w.enterReady r g a duration warning).1.Agrees := by
  unfold enterReady
  split
  · next hg =>
    obtain ⟨name, hname, hheld⟩ := hholds (generation_of_isCurrent hg)
    refine (aside_positioning hr (.load g .ready) warning a duration _).agrees ?_
    have hquiet : ∀ e ∈ [(⟨.load g .ready, .ready a.offset warning, w.state.ready a.offset⟩ :
        Entry)], e.what.claims = false := List.forall_mem_singleton.mpr rfl
    exact ⟨fun _ => ⟨name, hname, (held_append_of_not_claims hquiet).trans hheld⟩, nofun,
      pairwise_append_of_not_claims hw.newest hquiet,
      fun b hb hbegin => hw.begun b (mem_of_isBegin hquiet hb hbegin) hbegin⟩
  · exact hw

/-- The last stage of a load whose video the media holds while it is the newest. -/
theorem agrees_finish (hr : Lawful r) (hw : w.Agrees) (hholds : w.state.generation = g → w.Holds)
    (creation : Int) (duration : Except Error Float) :
    (w.finish r g creation duration).1.Agrees := by
  unfold finish
  split
  · exact hw
  · next hg =>
    obtain rfl := generation_of_isCurrent (by simpa using hg)
    cases duration with
    | error e => exact agrees_fail hr hw e
    | ok seconds =>
      have hasked := aside_ask (aside_lawful hr) (.load w.state.generation .pending)
        (m := .sessionTimeline) rfl (fun h => .session h.session) w
      have hagrees := hasked.agrees hw
      have hstill := fun hg => hasked.holds hg (hholds rfl)
      dsimp only
      split
      · exact agrees_enterReady hr hagrees hstill _ _ _
      · split
        · exact agrees_fail hr hagrees _
        · exact agrees_enterReady hr hagrees hstill _ _ _

/-- A load that is not the newest does nothing to the media. -/
theorem aside_finish_of_stale (hg : w.state.generation ≠ g) (creation : Int)
    (duration : Except Error Float) : Aside w (w.finish r g creation duration).1 := by
  have hstale : w.isCurrent g = false := beq_eq_false_iff_ne.mpr hg
  unfold finish
  rw [hstale]
  exact .refl w

/-- What a stage of a load does to the media: nothing at all, unless the load is the newest one and
ends. -/
structure Minds (g : Nat) (w w' : World) (o : Option Outcome) : Prop where
  agrees : w'.Agrees
  stale : w.state.generation ≠ g → Aside w w'
  onward : o = none → Aside w w'

theorem minds_lookAgain (hr : Lawful r) (hw : w.Agrees) (hholds : w.state.generation = g → w.Holds)
    (creation : Int) (waited : Nat) :
    Minds g w (w.lookAgain r g creation waited).1 (w.lookAgain r g creation waited).2 := by
  have hfinish (duration : Except Error Float) : Minds g w (w.finish r g creation duration).1
      ((w.finish r g creation duration).map id some).2 :=
    ⟨agrees_finish hr hw hholds creation duration,
      fun hg => aside_finish_of_stale hg creation duration, nofun⟩
  unfold lookAgain
  split
  · exact hfinish _
  · dsimp only
    split
    · exact hfinish (.error (.durationUnavailable w.settings.metadataTimeout))
    · exact ⟨hw, fun _ => .refl w, fun _ => .refl w⟩

theorem minds_containerRead (hr : Lawful r) (hw : w.Agrees)
    (hholds : w.state.generation = g → w.Holds)
    (result : Except Container.Error Container.Metadata) :
    Minds g w (w.containerRead r g result).1
      (match (w.containerRead r g result).2 with
        | .ended o => some o
        | .waiting _ => none) := by
  unfold containerRead
  split
  · exact ⟨hw, fun _ => .refl w, fun _ => .refl w⟩
  · next hg =>
    obtain rfl := generation_of_isCurrent (by simpa using hg)
    have hstale {P : Prop} (h : w.state.generation ≠ w.state.generation) : P := absurd rfl h
    cases result with
    | error e => exact ⟨agrees_fail hr hw _, hstale, nofun⟩
    | ok metadata =>
      have hasked := aside_ask (aside_lawful hr) (.load w.state.generation .pending)
        (m := .duration) rfl (fun h => .duration h.duration) w
      have hagrees := hasked.agrees hw
      dsimp only
      split
      · exact ⟨agrees_finish hr hagrees (fun hg => hasked.holds hg (hholds rfl)) _ _, hstale, nofun⟩
      · exact ⟨hagrees, hstale, fun _ => hasked⟩

/-- The media is given a video by the newest load, while no other video is in use. -/
theorem agrees_load (hr : Lawful r) {name : String} (hw : w.Agrees)
    (hready : w.state.phase ≠ .ready) (herror : w.state.phase ≠ .error)
    (hbegun : ∀ b ∈ w.log, b.what.isBegin → ∃ g' ≤ g, b.isBy g')
    (hname : w.state.generation = g → w.state.assetName = some name) :
    (w.tell r (.load g .pending) (.load name)).Agrees ∧
      ((w.tell r (.load g .pending) (.load name)).state.generation = w.state.generation →
        w.state.generation = g → (w.tell r (.load g .pending) (.load name)).Holds) := by
  have htelling : (w.note (.load g .pending) (.called (.load name))).Agrees := by
    refine ⟨fun h => absurd h hready, fun h => absurd h herror, newest_note hw.newest rfl hbegun,
      fun b hb hbegin => ?_⟩
    rcases List.mem_append.mp hb with hb | hb
    · exact hw.begun b hb hbegin
    · rw [List.mem_singleton.mp hb] at hbegin
      contradiction
  have htold : Aside (w.note (.load g .pending) (.called (.load name)))
      (w.tell r (.load g .pending) (.load name)) := (aside_lawful hr .load _).trans (.note rfl _)
  exact ⟨htold.agrees htelling, fun hsame hg => htold.holds hsame ⟨name, hname hg, held_concat rfl⟩⟩

/-- A load has just begun: it gives the media its video, or fails. -/
theorem agrees_openMedia (hr : Lawful r) {asset : Asset} {s : State} (hw : w.Agrees)
    (hstate : w.state = s.beginLoad asset.name) (hg : w.state.generation = g) :
    (w.openMedia r g asset).1.Agrees ∧ ((w.openMedia r g asset).2 = none →
      (w.openMedia r g asset).1.state.generation = g → (w.openMedia r g asset).1.Holds) := by
  have hasked := aside_ask (aside_lawful hr) (.load g .pending) (m := .canPlayType) rfl
    (fun h => .playable (h.playable.contains asset.mime)) w
  have hphase (p : Phase) (hidle : p ≠ .idle) (hloading : p ≠ .loading) :
      (w.ask r (.load g .pending) .canPlayType
        (fun h => .playable (h.playable.contains asset.mime))).state.phase ≠ p := by
    intro h
    have hsame := (hasked.of_phase (h ▸ hidle)).2
    rw [h, hstate] at hsame
    exact hloading hsame
  unfold openMedia
  dsimp only
  split
  · generalize w.ask r (.load g .pending) .canPlayType
      (fun h => .playable (h.playable.contains asset.mime)) = v at hasked hphase ⊢
    have hname : v.state.generation = g → v.state.assetName = some asset.name := by
      intro hv
      rw [(hasked.same (hv.trans hg.symm)).2, hstate]
      rfl
    obtain ⟨hagrees, hholds⟩ := agrees_load hr (hasked.agrees hw) (hphase .ready nofun nofun)
      (hphase .error nofun nofun) (hasked.begun (hg ▸ hw.begun)) hname
    refine ⟨hagrees, fun _ hlast => ?_⟩
    change (v.tell r (.load g .pending) (.load asset.name)).state.generation = g at hlast
    have hle := hasked.generation
    have hle' := (frame_tell (frame_lawful hr) (.load g .pending) (.load asset.name) v).generation
    exact hholds (by omega) (by omega)
  · exact ⟨agrees_fail hr (hasked.agrees hw) _, nofun⟩

end World

/-! ## Runs -/

namespace Run

/-- The media agrees with the state, and holds the video of the newest load while it is in flight.
-/
structure Agreement (run : Run) : Prop where
  agrees : run.world.Agrees
  current : ∀ l ∈ run.inFlight, l.generation = run.world.state.generation → run.world.Holds

namespace Agreement

variable {run : Run} {w : World} {l : InFlight}

/-- What keeps aside. -/
theorem aside (h : run.Agreement) (ho : run.Orderly) (hw : Aside run.world w) :
    (run.withWorld w).Agreement where
  agrees := hw.agrees h.agrees
  current l hl hg := by
    change l.generation = w.state.generation at hg
    have hle := (ho.inFlight l hl).1
    have hle' := hw.generation
    exact hw.holds (by omega) (h.current l hl (by omega))

/-- A stage of a load in flight. -/
theorem settle (h : run.Agreement) (ho : run.Orderly) (hl : l ∈ run.inFlight) {o : Option Outcome}
    (hf : Frame (some l.generation) run.world w) (hm : World.Minds l.generation run.world w o) :
    ((run.withWorld w).settle l o).Agreement := by
  cases o with
  | none => exact h.aside ho (hm.onward rfl)
  | some o =>
    have hended : Aside w ((run.withWorld w).conclude l o).world := .note rfl w
    refine ⟨hended.agrees hm.agrees, fun l' hl' hg => ?_⟩
    obtain ⟨hmem, hne⟩ := (ho.mem_filter_iff hl).mp hl'
    change l'.generation = w.state.generation at hg
    have hle := (ho.inFlight l' hmem).1
    have hle' := hf.generation
    have haside := hm.stale (by omega)
    exact (haside.trans hended).holds (by show w.state.generation = _; omega)
      (h.current l' hmem (by omega))

theorem look (h : run.Agreement) (ho : run.Orderly) (hcalm : run.world.Calm) {r : Reaction}
    (hr : Lawful r) (number : Nat) : (run.look r number).Agreement := by
  unfold Run.look
  split
  · next hf =>
    have hl := Orderly.mem_of_find? hf
    exact h.settle ho hl (World.proceeds_lookAgain hr hcalm _ _).frame
      (World.minds_lookAgain hr h.agrees (fun hg => h.current _ hl hg.symm) _ _)
  · exact h

theorem setWait (h : run.Agreement) (number : Nat) (wait : Wait) :
    (run.setWait number wait).Agreement := by
  refine ⟨h.agrees, fun l' hl' hg => ?_⟩
  obtain ⟨l, hl, rfl⟩ := List.mem_map.mp hl'
  refine h.current l hl (Eq.trans ?_ hg)
  split <;> rfl

theorem read (h : run.Agreement) (ho : run.Orderly) (hcalm : run.world.Calm) {r : Reaction}
    (hr : Lawful r) (number : Nat) : (run.read r number).Agreement := by
  unfold Run.read
  split
  · next l generation source hf =>
    have hl := Orderly.mem_of_find? hf
    have hp := World.proceeds_containerRead (g := generation) hr hcalm (source.metadata run.files)
    have hm := World.minds_containerRead (g := generation) hr h.agrees
      (fun hg => h.current _ hl hg.symm) (source.metadata run.files)
    dsimp only
    split
    · next o ho' =>
      rw [ho'] at hp hm
      exact h.settle ho hl hp.frame hm
    · next creation hwaits =>
      rw [hwaits] at hp hm
      exact ((h.settle ho hl hp.frame hm).setWait _ _).look ((ho.stays hl hp).setWait _ _) hp.calm
        hr number
  · exact h

theorem begin (h : run.Agreement) (ho : run.Orderly) (hcalm : run.world.Calm) {r : Reaction}
    (hr : Lawful r) (asset : Asset) : (run.begin r asset).Agreement := by
  obtain ⟨hw, hdue, -, -⟩ := ho.began hcalm asset rfl rfl
  let l : InFlight := ⟨run.begun, run.world.state.generation + 1, .container asset.source⟩
  let who : Actor := .load l.generation .pending
  let begun := run.world.become who (.began asset) (run.world.state.beginLoad asset.name)
  have hbegun : begun.Agrees := by
    refine ⟨nofun, nofun, ?_, fun b hb hbegin => ?_⟩
    · refine List.pairwise_append.mpr ⟨h.agrees.newest, List.pairwise_singleton _ _, ?_⟩
      intro b _ e he _ hholds
      rw [List.mem_singleton.mp he] at hholds
      contradiction
    · rcases List.mem_append.mp hb with hb | hb
      · obtain ⟨g, hle, hby⟩ := h.agrees.begun b hb hbegin
        exact ⟨g, Nat.le_succ_of_le hle, hby⟩
      · rw [List.mem_singleton.mp hb]
        exact ⟨l.generation, Nat.le_refl _, beq_self_eq_true _⟩
  obtain ⟨hagrees, hholds⟩ := World.agrees_openMedia hr hbegun rfl (g := l.generation) rfl
  have hframe := (World.proceeds_openMedia hr hw asset hdue).frame
  have hnew : l.generation ≤ (begun.openMedia r l.generation asset).1.state.generation :=
    hframe.generation
  have hold (l' : InFlight) (hl' : l' ∈ run.inFlight) :
      l'.generation ≠ (begun.openMedia r l.generation asset).1.state.generation := by
    have hle := (ho.inFlight l' hl').1
    have hlt : run.world.state.generation < l.generation := Nat.lt_succ_self _
    omega
  let joined : Run :=
    { run with
      world := (begun.openMedia r l.generation asset).1
      begun := run.begun + 1
      inFlight := run.inFlight ++ [l] }
  show (joined.settle l (begun.openMedia r l.generation asset).2).Agreement
  cases houtcome : (begun.openMedia r l.generation asset).2 with
  | none =>
    refine ⟨hagrees, fun l' hl' hg => ?_⟩
    rcases List.mem_append.mp hl' with hl' | hl'
    · exact absurd hg (hold l' hl')
    · rw [List.mem_singleton.mp hl'] at hg
      exact hholds houtcome hg.symm
  | some o =>
    have hended : Aside joined.world (joined.conclude l o).world := .note rfl _
    refine ⟨hended.agrees hagrees, fun l' hl' hg => ?_⟩
    obtain ⟨hmem, hnumber⟩ := List.mem_filter.mp hl'
    rcases List.mem_append.mp hmem with hmem | hmem
    · exact absurd hg (hold l' hmem)
    · rw [List.mem_singleton.mp hmem, bne_self_eq_false] at hnumber
      contradiction

end Agreement

/-- Every reachable run agrees with its media. -/
theorem Reachable.agreement {run : Run} (h : run.Reachable) : run.Agreement := by
  induction h with
  | start =>
    refine ⟨⟨nofun, nofun, List.Pairwise.nil, ?_⟩, ?_⟩
    · exact fun _ hb => absurd hb List.not_mem_nil
    · exact fun _ hl => absurd hl List.not_mem_nil
  | files _ _ ih => exact ⟨ih.agrees, ih.current⟩
  | move hreach hr m ih =>
    obtain ⟨ho, hcalm⟩ := hreach.orderly
    cases m with
    | begin asset => exact ih.begin ho hcalm hr asset
    | read number => exact ih.read ho hcalm hr number
    | look number => exact ih.look ho hcalm hr number
    | advance => exact ⟨ih.agrees, ih.current⟩
    | act a => exact ih.aside ho (World.aside_invariance.apply (World.aside_lawful hr) a _)

end Run

/-- Between moves the media and the controller agree. When the controller is ready, the media was
told last to load the video that the state names; after an error it was told to unload. While the
newest load is in flight the media holds its video. No load tells the media what to hold after a
newer one has begun. -/
theorem media_agrees {run : Run} (h : run.Reachable) :
    (run.world.state.phase = .ready → ∃ name, run.world.state.assetName = some name ∧
      held run.world.log = some (some name)) ∧
      (run.world.state.phase = .error → held run.world.log = some none) ∧
      (∀ l ∈ run.inFlight, l.generation = run.world.state.generation →
        ∃ name, run.world.state.assetName = some name ∧ held run.world.log = some (some name)) ∧
      ∀ before e after, run.world.log = before ++ e :: after → e.what.holds?.isSome →
        ∀ b ∈ before, b.what.isBegin → ∃ g g', b.isBy g ∧ e.isBy g' ∧ g ≤ g' := by
  obtain ⟨hagrees, hcurrent⟩ := h.agreement
  refine ⟨hagrees.ready, hagrees.error, hcurrent, ?_⟩
  intro before e after hlog hholds b hb hbegin
  have hnewest := hagrees.newest
  rw [hlog] at hnewest
  exact (List.pairwise_append.mp hnewest).2.2 b hb e List.mem_cons_self hbegin hholds

/-- A video without a container fails to load. It is loaded again, but another video is loaded after
it and becomes ready before its container is read. -/
def loadedOver : Run :=
  Run.play World.reaction
    { world := { hosts := { session := ⟨30, 60⟩, duration := some 60.0 } } }
    [.begin clip, .read 0, .begin clip, .begin ride, .read 2, .read 1]

/-- The failure of the first load unloads the media; that of the second one leaves it alone. -/
theorem holds_of_loadedOver :
    loadedOver.Reachable ∧ loadedOver.world.state.phase = .ready ∧
      loadedOver.world.log.countP (·.what == .called .unload) = 1 ∧
      held loadedOver.world.log = some (some "ride.mp4") := by
  have hreach : loadedOver.Reachable := (Run.Reachable.start _ _ _ _ _ _).play lawful_reaction _
  have hready : loadedOver.world.state.phase = .ready := by decide +kernel
  have hname : loadedOver.world.state.assetName = some "ride.mp4" := by decide +kernel
  obtain ⟨name, hname', hheld⟩ := (media_agrees hreach).1 hready
  rw [hname] at hname'
  obtain rfl := Option.some.inj hname'
  exact ⟨hreach, hready, by decide +kernel, hheld⟩

end VideoSync.Sync
