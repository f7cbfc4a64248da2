import Mathlib.Data.List.Induction
import VideoSync.Proofs.Sync.Reaction

/-
  What a log can look like. `Rule` says which entry may stand after which others: the state moves
  as the entry says (`Happening.after`), its maker is allowed to do it in the state before
  (`Permitted`), and a call that belongs to something already under way is made exactly when the
  entry before it calls for it (`due?`). A log is `Sound` when every entry obeys the rule.

  A world is `Consistent` when its log is sound and leads to its state, and `Calm` when moreover
  nobody is in the middle of something. Everything that hosts may do keeps a world calm
  (`calm_invariance`). The rule is the one account of the controller on which the theorems about
  runs are built; they do not open its operations again.
-/

namespace VideoSync.Sync

/-! ## The rule -/

/-- What a happening makes of the state. -/
def Happening.after : Happening → State → State
  | began asset, s => s.beginLoad asset.name
  | failed e, s => s.failed e
  | ready offset _, s => s.ready offset
  | event .seekingStart, s => s.seekStarted
  | event .seekingEnd, s => s.seekEnded
  | detached, s => s.reset
  | _, s => s

/-- A host is told to do something. -/
def Call.isCommand : Call → Bool
  | load _ | unload | setCurrentTime _ | setCursor _ | report _ => true
  | asked _ | reaction _ _ => false

/-- Whether a call is made without another look at the state: by something that was already under
way, or by a load that has just begun. -/
def Call.followsUp (c : Call) : Bool := c.isCommand || c = .asked .canPlayType

/-- The call that somebody makes right after something, whatever the state is then. -/
def due? (settings : SyncSettings) : Actor → Happening → Option Method
  | .load _ .pending, .began _ => some .canPlayType
  | .load _ .pending, .returned .canPlayType (.playable true) => some .load
  | .load _ .failed, .failed _ => some .unload
  | .load _ .failed, .returned .unload _ => some .report
  | .load _ .ready, .ready _ (some _) => some .report
  | .load _ .ready, .ready _ none =>
    if settings.seekToSessionStart then some .setCurrentTime else none
  | .load _ .ready, .returned .report _ =>
    if settings.seekToSessionStart then some .setCurrentTime else none
  | .load _ .ready, .returned .setCurrentTime _ => some .setCursor
  | .outside, .returned .currentTime _ => some .setCursor
  | .outside, .returned .paused (.paused true) => some .setCurrentTime
  | _, _ => none

/-- Who has to make which call right after an entry. -/
def Entry.due? (settings : SyncSettings) (e : Entry) : Option (Actor × Method) :=
  (Sync.due? settings e.actor e.what).map (e.actor, ·)

/-- The call that an entry makes as a part of something already under way. -/
def Happening.followUp? (who : Actor) : Happening → Option (Actor × Method)
  | called c => if c.followsUp then some (who, c.method) else none
  | _ => none

/-- Who may do what in which state. -/
def Permitted (s : State) (who : Actor) : Happening → Prop
  | .began _ => who = .load (s.generation + 1) .pending
  | .failed _ => who = .load s.generation .failed
  | .ready _ _ => who = .load s.generation .ready
  | .event _ | .detached | .reacted _ _ => who = .outside
  | .called (.asked .duration) | .called (.asked .sessionTimeline) =>
    who = .load s.generation .pending
  | .called (.asked .currentTime) | .called (.asked .paused) => who = .outside ∧ s.isLive
  | .called c => c.followsUp
  | .returned _ _ => True
  | .ended _ outcome =>
    ∃ g, who = .load g .pending ∧ (outcome = .superseded → s.generation ≠ g)

/-- The state that a log leads to. -/
def stateAfter (log : List Entry) : State := (log.getLast?.map (·.state)).getD {}

/-- Who has to make which call right after a log. -/
def dueAfter (settings : SyncSettings) (log : List Entry) : Option (Actor × Method) :=
  log.getLast?.bind (·.due? settings)

/-- An entry may stand after a log. -/
structure Rule (settings : SyncSettings) (before : List Entry) (e : Entry) : Prop where
  state : e.state = e.what.after (stateAfter before)
  permitted : Permitted (stateAfter before) e.actor e.what
  due : dueAfter settings before = e.what.followUp? e.actor

/-- Every entry of a log may stand where it stands. -/
def Sound (settings : SyncSettings) (log : List Entry) : Prop :=
  ∀ before e after, log = before ++ e :: after → Rule settings before e

theorem due?_called (settings : SyncSettings) (who : Actor) (c : Call) :
    due? settings who (.called c) = none := by
  cases who with
  | outside => rfl
  | load g stage => cases stage <;> rfl

theorem stateAfter_concat (log : List Entry) (e : Entry) : stateAfter (log ++ [e]) = e.state := by
  simp [stateAfter]

theorem dueAfter_concat (settings : SyncSettings) (log : List Entry) (e : Entry) :
    dueAfter settings (log ++ [e]) = e.due? settings := by
  simp [dueAfter]

theorem sound_nil (settings : SyncSettings) : Sound settings [] := by
  intro before e after h
  simp at h

theorem sound_concat {settings : SyncSettings} {log : List Entry} {e : Entry}
    (h : Sound settings log) (he : Rule settings log e) : Sound settings (log ++ [e]) := by
  intro before x after hx
  rcases List.eq_nil_or_concat after with rfl | ⟨rest, y, rfl⟩
  · obtain ⟨rfl, hxe⟩ := List.append_inj' hx rfl
    simp only [List.cons.injEq, and_true] at hxe
    exact hxe ▸ he
  · have hsplit : log ++ [e] = (before ++ x :: rest) ++ [y] := by simpa using hx
    exact h before x rest (List.append_inj' hsplit rfl).1

/-- What every entry keeps, a stretch of a sound log keeps. -/
@[elab_as_elim]
theorem Sound.along {settings : SyncSettings} {log before mid after : List Entry}
    (h : Sound settings log) (hlog : log = before ++ mid ++ after) {P : List Entry → Prop}
    (hnil : P []) (hstep : ∀ mid e after, log = before ++ mid ++ e :: after →
      Rule settings (before ++ mid) e → P mid → P (mid ++ [e])) : P mid := by
  induction mid using List.reverseRecOn generalizing after with
  | nil => exact hnil
  | append_singleton mid e ih =>
    have hsplit : log = before ++ mid ++ e :: after := by
      rw [hlog]
      simp
    exact hstep mid e after hsplit (h _ e after hsplit) (ih hsplit)

/-- What every entry keeps holds from the beginning of a sound log on. -/
@[elab_as_elim]
theorem Sound.upTo {settings : SyncSettings} {log before after : List Entry}
    (h : Sound settings log) (hlog : log = before ++ after) {P : List Entry → Prop} (hnil : P [])
    (hstep : ∀ before e after, log = before ++ e :: after → Rule settings before e → P before →
      P (before ++ [e])) : P before := by
  have hsplit : log = [] ++ before ++ after := hlog
  exact h.along hsplit hnil hstep

/-! ## Worlds that keep the rule -/

namespace World

/-- Who has to make which call now. -/
def due (w : World) : Option (Actor × Method) := dueAfter w.settings w.log

/-- The log is sound and leads to the state. -/
structure Consistent (w : World) : Prop where
  sound : Sound w.settings w.log
  state : w.state = stateAfter w.log

/-- A consistent world in which nobody is in the middle of something. -/
structure Calm (w : World) : Prop extends Consistent w where
  due : w.due = none

variable {r : Reaction} {w : World} {who : Actor}

theorem due_become (w : World) (who : Actor) (what : Happening) (s : State) :
    (w.become who what s).due = (due? w.settings who what).map (who, ·) :=
  dueAfter_concat _ _ _

theorem due_note (w : World) (who : Actor) (what : Happening) :
    (w.note who what).due = (due? w.settings who what).map (who, ·) :=
  dueAfter_concat _ _ _

theorem due_callHost (r : Reaction) (who : Actor) (c : Call) (reply : Hosts → Reply) (w : World) :
    (w.callHost r who c reply).due =
      (due? (w.callHost r who c reply).settings who
        (.returned c.method (reply (w.callHost r who c reply).hosts))).map (who, ·) :=
  dueAfter_concat _ _ _

theorem due_tell (r : Reaction) (who : Actor) (c : Call) (w : World) :
    (w.tell r who c).due =
      (due? (w.tell r who c).settings who (.returned c.method .done)).map (who, ·) :=
  due_callHost r who c _ w

theorem Consistent.become {what : Happening} {s : State} (h : w.Consistent)
    (hs : s = what.after w.state) (hp : Permitted w.state who what)
    (hd : w.due = what.followUp? who) : (w.become who what s).Consistent where
  sound := sound_concat h.sound
    { state := by rw [← h.state]; exact hs
      permitted := by rw [← h.state]; exact hp
      due := hd }
  state := (stateAfter_concat w.log ⟨who, what, s⟩).symm

theorem Consistent.note {what : Happening} (h : w.Consistent) (hs : what.after w.state = w.state)
    (hp : Permitted w.state who what) (hd : w.due = what.followUp? who) :
    (w.note who what).Consistent :=
  h.become hs.symm hp hd

theorem Calm.become {what : Happening} {s : State} (h : w.Calm) (hs : s = what.after w.state)
    (hp : Permitted w.state who what) (hf : what.followUp? who = none)
    (hd : due? w.settings who what = none) : (w.become who what s).Calm where
  toConsistent := h.toConsistent.become hs hp (h.due.trans hf.symm)
  due := by rw [due_become, hd]; rfl

theorem Calm.note {what : Happening} (h : w.Calm) (hs : what.after w.state = w.state)
    (hp : Permitted w.state who what) (hf : what.followUp? who = none)
    (hd : due? w.settings who what = none) : (w.note who what).Calm :=
  h.become hs.symm hp hf hd

theorem Consistent.withHosts (h : w.Consistent) (hosts : Hosts) : (w.withHosts hosts).Consistent :=
  ⟨h.sound, h.state⟩

/-- A call of a host: the hosts take over in a calm world, and their answer is the next entry. -/
theorem Consistent.callHost {c : Call} (hr : ∀ m v, v.Calm → (r m v).Calm) (h : w.Consistent)
    (hp : Permitted w.state who (.called c)) (hd : w.due = (Happening.called c).followUp? who)
    (reply : Hosts → Reply) : (w.callHost r who c reply).Consistent := by
  have hcalled : (w.note who (.called c)).Calm :=
    { toConsistent := h.note rfl hp hd
      due := by rw [due_note, due?_called]; rfl }
  have hafter := hr c.method _ hcalled
  exact hafter.toConsistent.note rfl trivial hafter.due

theorem Consistent.tell {c : Call} (hr : ∀ m v, v.Calm → (r m v).Calm) (h : w.Consistent)
    (hc : c.followsUp) (hd : w.due = some (who, c.method)) : (w.tell r who c).Consistent := by
  refine h.callHost hr ?_ ?_ _
  · cases c with
    | asked m =>
      obtain rfl : m = .canPlayType := by simpa [Call.followsUp, Call.isCommand] using hc
      rfl
    | _ => exact hc
  · rw [hd]; simp [Happening.followUp?, hc]

/-! ## What hosts may do -/

theorem Calm.pushCursor (hr : ∀ m v, v.Calm → (r m v).Calm) (h : w.Calm) :
    (w.pushCursor r).Calm := by
  unfold World.pushCursor
  split
  · exact h
  · next offset hlive =>
    have hl : w.state.isLive := State.isLive_of_liveOffset hlive
    have hasked := h.callHost (c := .asked .currentTime) hr ⟨rfl, hl⟩ h.due (.time ·.time)
    have hdue := due_callHost r .outside (.asked .currentTime) (.time ·.time) w
    exact
      { toConsistent := hasked.tell hr rfl hdue
        due := due_tell _ _ _ _ }

theorem Calm.mediaEvent (hr : ∀ m v, v.Calm → (r m v).Calm) (h : w.Calm) (e : MediaEvent) :
    (w.mediaEvent r e).Calm := by
  cases e with
  | seekingStart => exact h.become rfl rfl rfl rfl
  | seekingEnd =>
    have hend : (w.become .outside (.event .seekingEnd) w.state.seekEnded).Calm :=
      h.become rfl rfl rfl rfl
    unfold World.mediaEvent
    dsimp only
    split
    · exact hend.pushCursor hr
    · exact hend
  | timeProgressed =>
    have hnoted : (w.note .outside (.event .timeProgressed)).Calm :=
      h.note rfl rfl rfl rfl
    exact hnoted.pushCursor hr

theorem Calm.requestSeek (hr : ∀ m v, v.Calm → (r m v).Calm) (h : w.Calm) (seconds : Float) :
    (w.requestSeek r seconds).1.Calm := by
  unfold World.requestSeek
  split
  · exact h
  · next offset hlive =>
    have hl : w.state.isLive := State.isLive_of_liveOffset hlive
    have hasked := h.callHost (c := .asked .paused) hr ⟨rfl, hl⟩ h.due (.paused ·.paused)
    have hdue := due_callHost r .outside (.asked .paused) (.paused ·.paused) w
    dsimp only
    split
    · next hpaused =>
      simp only [World.ask] at hpaused
      rw [hpaused] at hdue
      exact
        { toConsistent := (hasked.withHosts _).tell hr rfl hdue
          due := due_tell _ _ _ _ }
    · next hplaying =>
      simp only [World.ask, Bool.not_eq_true] at hplaying
      rw [hplaying] at hdue
      exact
        { toConsistent := hasked
          due := hdue }

/-- Whatever hosts do during a call, they leave a calm world calm. -/
theorem calm_invariance : Invariance fun v w => v.Calm → w.Calm where
  refl _ h := h
  trans h₁ h₂ h := h₂ (h₁ h)
  hosts _ _ h := ⟨⟨h.sound, h.state⟩, h.due⟩
  armed _ _ h := ⟨⟨h.sound, h.state⟩, h.due⟩
  reacted _ _ _ h := h.note rfl rfl rfl rfl
  event hr e _ h := h.mediaEvent hr e
  seek hr seconds _ h := h.requestSeek hr seconds
  detach _ h := h.become rfl rfl rfl rfl

theorem calm_lawful (hr : Lawful r) (m : Method) (v : World) (h : v.Calm) : (r m v).Calm :=
  calm_invariance.lawful hr m v h

end World
end VideoSync.Sync
