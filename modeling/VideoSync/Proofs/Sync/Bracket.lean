import VideoSync.Proofs.Sync.Course
import VideoSync.Proofs.Sync.Shape

/-
  Scrubs, and the cursors pushed while one is under way. A scrub is open after a log when it was
  started in a ready controller and neither its end nor a new load nor a detach came since
  (`BracketOpen`); the state says so in its field `seeking` (`Run.Orderly.seeking_append`).

  A cursor is pushed by somebody who has looked at the state before: at an event of the media in a
  live controller, or when a load became ready. In both cases no scrub was open then, but the calls
  of hosts that come between the look and the push give the user time to start one. So the cursor
  is pushed inside a scrub exactly if a scrub was started during these calls and is still open
  (`seeking_at_cursor_iff`).
-/

namespace VideoSync.Sync

/-- The user starts to scrub while the controller is ready. -/
def Entry.opensBracket (e : Entry) : Bool :=
  e.what == .event .seekingStart && e.state.phase == .ready

/-- The user stops scrubbing, or there is another video or none. -/
def Entry.closesBracket (e : Entry) : Bool := e.what == .event .seekingEnd || e.what.interrupts

/-- A scrub was started and is not over. -/
def BracketOpen (log : List Entry) : Prop :=
  ∃ before start after, log = before ++ start :: after ∧ start.opensBracket ∧
    ∀ e ∈ after, e.closesBracket = false

/-- Somebody calls the methods of hosts one after another; before a call returns anything may
happen. -/
inductive Calls (who : Actor) : List Method → List Entry → Prop
  | nil : Calls who [] []
  | cons {c : Call} {reply : Reply} {s s' : State} {inner more : List Entry} {ms : List Method}
      (hinner : openCalls 0 inner = some 0) (hmore : Calls who ms more) :
      Calls who (c.method :: ms) (visit who c reply s inner s' ++ more)

/-- A look at the state that allows somebody to push a cursor, and what happens from then on up to
the push. -/
structure Leads (who : Actor) (look : Entry) (window : List Entry) : Prop where
  actor : look.actor = who
  live : look.state.isLive
  calls : ((∃ e, look.what = .event e) ∧ Calls who [.currentTime] window) ∨
    ∃ offset warning, look.what = .ready offset warning ∧
      (Calls who [.setCurrentTime] window ∨ Calls who [.report, .setCurrentTime] window)

theorem seeking_of_isLive {s : State} (h : s.isLive) : s.seeking = false := by
  simp only [State.isLive, Bool.and_eq_true, Bool.not_eq_true'] at h
  exact h.2

/-! ## Open scrubs -/

theorem not_bracketOpen_nil : ¬ BracketOpen [] := by
  rintro ⟨before, start, after, h, -⟩
  simp at h

theorem bracketOpen_concat (log : List Entry) (e : Entry) :
    BracketOpen (log ++ [e]) ↔
      e.opensBracket ∨ (BracketOpen log ∧ e.closesBracket = false) := by
  constructor
  · rintro ⟨before, start, after, hlog, hstart, hafter⟩
    rcases List.eq_nil_or_concat after with rfl | ⟨rest, y, rfl⟩
    · obtain ⟨-, heq⟩ := List.append_inj' hlog rfl
      obtain rfl : e = start := by simpa using heq
      exact .inl hstart
    · have hsplit : log ++ [e] = (before ++ start :: rest) ++ [y] := by simpa using hlog
      obtain ⟨rfl, heq⟩ := List.append_inj' hsplit rfl
      obtain rfl : e = y := by simpa using heq
      refine .inr ⟨⟨before, start, rest, rfl, hstart, fun x hx => hafter x (by simp [hx])⟩, ?_⟩
      exact hafter e (by simp)
  · rintro (hstart | ⟨⟨before, start, after, rfl, hstart, hafter⟩, he⟩)
    · exact ⟨log, e, [], rfl, hstart, fun _ hx => absurd hx List.not_mem_nil⟩
    · refine ⟨before, start, after ++ [e], by simp, hstart, fun x hx => ?_⟩
      rcases List.mem_append.mp hx with hx | hx
      · exact hafter x hx
      · rw [List.mem_singleton.mp hx]
        exact he

/-- Only the start of a scrub makes the controller seek, and only what closes a scrub stops it. A
load becomes ready in a state that is not seeking. -/
theorem seeking_after {e : Entry} {s : State} (hs : s.WellFormed) (he : e.state = e.what.after s)
    (hready : e.what.isCommit → s.seeking = false) :
    e.state.seeking ↔ e.opensBracket ∨ (s.seeking ∧ e.closesBracket = false) := by
  obtain ⟨who, what, s'⟩ := e
  obtain rfl : s' = what.after s := he
  cases what with
  | event e =>
    cases e with
    | seekingStart =>
      by_cases hphase : s.phase = .ready
      · simp [Entry.opensBracket, Happening.after, State.seekStarted, hphase]
      · have hstill : s.seeking = false := by
          rw [← Bool.not_eq_true]
          exact fun h => hphase (hs.seeking h)
        simp [Entry.opensBracket, Happening.after, State.seekStarted, hphase, hstill]
    | seekingEnd =>
      by_cases hphase : s.phase = .ready
      · simp [Entry.opensBracket, Entry.closesBracket, Happening.after, State.seekEnded, hphase]
      · have hstill : s.seeking = false := by
          rw [← Bool.not_eq_true]
          exact fun h => hphase (hs.seeking h)
        simp [Entry.opensBracket, Happening.after, State.seekEnded, hphase, hstill]
    | timeProgressed =>
      simp [Entry.opensBracket, Entry.closesBracket, Happening.after, Happening.interrupts]
  | ready offset warning =>
    simp [Entry.opensBracket, Happening.after, State.ready, hready rfl]
  | began asset =>
    simp [Entry.opensBracket, Entry.closesBracket, Happening.after, State.beginLoad,
      Happening.interrupts]
  | detached =>
    simp [Entry.opensBracket, Entry.closesBracket, Happening.after, State.reset,
      Happening.interrupts]
  | _ =>
    simp [Entry.opensBracket, Entry.closesBracket, Happening.after, Happening.interrupts,
      State.failed]

/-- The state after a stretch of the log says whether a scrub is open: one that was started in the
stretch, or one that was open before it and was not closed in it. -/
theorem Run.Orderly.seeking_append {run : Run} (h : run.Orderly)
    (hsound : Sound run.world.settings run.world.log) {before window after : List Entry}
    (hlog : run.world.log = before ++ window ++ after) :
    (stateAfter (before ++ window)).seeking ↔ BracketOpen window ∨
      ((stateAfter before).seeking ∧ ∀ e ∈ window, e.closesBracket = false) := by
  refine hsound.along hlog ?_ ?_
  · simp [not_bracketOpen_nil]
  · intro window e after hlog hrule hold
    have hcommit : e.what.isCommit → (stateAfter (before ++ window)).seeking = false := by
      intro hcommit
      obtain ⟨asset, earlier, b, mid, -, -, -, hs⟩ := h.state_at_commit hsound hlog hcommit
      rw [hs]
      rfl
    have hnew := seeking_after (h.wellFormed hsound hlog) hrule.state hcommit
    rw [← List.append_assoc, stateAfter_concat, hnew, hold, bracketOpen_concat,
      List.forall_mem_append, List.forall_mem_singleton, or_and_right, and_assoc, or_assoc]

/-! ## Pushes -/

/-- The entry pushes a cursor. -/
def Entry.isPush (e : Entry) : Bool :=
  match e.what with
  | .called (.setCursor _) => true
  | _ => false

/-- Whoever pushes a cursor in a log has looked at the state in the same log. -/
def Led (log : List Entry) : Prop :=
  ∀ before e after, log = before ++ e :: after → e.isPush →
    ∃ earlier look window, before = earlier ++ look :: window ∧ Leads e.actor look window

theorem led_of_not_isPush {log : List Entry} (h : ∀ e ∈ log, e.isPush = false) : Led log := by
  rintro before e after rfl hpush
  rw [h e (by simp)] at hpush
  contradiction

theorem led_single {e : Entry} (h : e.isPush = false) : Led [e] := by
  refine led_of_not_isPush fun x hx => ?_
  rw [List.mem_singleton.mp hx]
  exact h

/-- What stands in two logs one after another stands in the first or in the second one. -/
theorem append_eq_append_cons {log more before after : List Entry} {e : Entry}
    (h : log ++ more = before ++ e :: after) :
    (∃ rest, log = before ++ e :: rest) ∨
      ∃ mid, before = log ++ mid ∧ more = mid ++ e :: after := by
  rcases List.append_eq_append_iff.mp h with ⟨mid, hbefore, hmore⟩ | ⟨rest, hlog, hrest⟩
  · exact .inr ⟨mid, hbefore, hmore⟩
  · rcases List.cons_eq_append_iff.mp hrest with ⟨rfl, hmore⟩ | ⟨rest, rfl, -⟩
    · exact .inr ⟨[], by rw [hlog, List.append_nil, List.append_nil], hmore⟩
    · exact .inl ⟨rest, hlog⟩

theorem Led.append {log more : List Entry} (hlog : Led log) (hmore : Led more) :
    Led (log ++ more) := by
  intro before e after heq hpush
  rcases append_eq_append_cons heq with ⟨rest, hsplit⟩ | ⟨mid, rfl, hsplit⟩
  · exact hlog before e rest hsplit hpush
  · obtain ⟨earlier, look, window, rfl, hleads⟩ := hmore mid e after hsplit hpush
    exact ⟨log ++ earlier, look, window, by simp, hleads⟩

theorem Led.cons {e : Entry} {log : List Entry} (he : e.isPush = false) (h : Led log) :
    Led (e :: log) := (led_single he).append h

theorem Led.visit {inner : List Entry} (h : Led inner) (who : Actor) {c : Call} (reply : Reply)
    (s s' : State) (hc : ∀ x, c ≠ .setCursor x) : Led (visit who c reply s inner s') := by
  refine Led.cons ?_ (h.append (led_single rfl))
  cases c with
  | setCursor x => exact absurd rfl (hc x)
  | _ => rfl

/-- A push that was led to. -/
theorem Led.push {who : Actor} {look : Entry} {window inner : List Entry}
    (h : Led (look :: window)) (hleads : Leads who look window) (hinner : Led inner) (x : Float)
    (reply : Reply) (s s' : State) :
    Led (look :: (window ++ Sync.visit who (.setCursor x) reply s inner s')) := by
  have hpush : Led (look :: window ++ [⟨who, .called (.setCursor x), s⟩]) := by
    intro before e after heq hpush
    rcases append_eq_append_cons heq with ⟨rest, hsplit⟩ | ⟨mid, rfl, hsplit⟩
    · exact h before e rest hsplit hpush
    · obtain ⟨rfl, rfl⟩ : mid = [] ∧ e = ⟨who, .called (.setCursor x), s⟩ := by
        cases mid <;> simp_all
      exact ⟨[], look, window, by simp, hleads⟩
  have hreturn : Led [⟨who, .returned .setCursor reply, s'⟩] := led_single rfl
  have hall := hpush.append (hinner.append hreturn)
  rw [List.append_assoc] at hall
  exact hall

theorem calls_visit {who : Actor} {c : Call} {reply : Reply} {s s' : State} {inner : List Entry}
    (h : openCalls 0 inner = some 0) : Calls who [c.method] (visit who c reply s inner s') := by
  have hcalls : Calls who [c.method] (visit who c reply s inner s' ++ []) := .cons h .nil
  rwa [List.append_nil] at hcalls

/-- In a course every push was led to. -/
theorem Course.led {settings : SyncSettings} {s s' : State} {log : List Entry}
    (h : Course settings s log s') : Led log := by
  induction h with
  | nil => exact led_of_not_isPush fun _ hx => absurd hx List.not_mem_nil
  | append _ _ ih₁ ih₂ => exact ih₁.append ih₂
  | @entry s who what h =>
    refine led_single ?_
    cases what with
    | called => contradiction
    | _ => rfl
  | call who reply hc _ ih => exact ih.visit who reply _ _ hc
  | missed => exact led_single rfl
  | @passed s s' s₁ s₂ e inner₁ inner₂ offset time he hs' hlive h₁ h₂ ih₁ ih₂ =>
    have hasked : Led (visit .outside (.asked .currentTime) (.time time) s' inner₁ s₁) :=
      ih₁.visit _ _ _ _ nofun
    refine Led.push (.cons rfl hasked)
      ⟨rfl, State.isLive_of_liveOffset hlive, .inl ⟨⟨e, rfl⟩, ?_⟩⟩ ih₂ _ _ _ _
    exact calls_visit (c := .asked .currentTime) h₁.calls
  | ready => exact led_single rfl
  | @positioned s s₁ s₂ s₃ who offset warning report inner₀ inner₁ inner₂ position hseek h₀ hreport
      h₁ h₂ ih₀ ih₁ ih₂ =>
    have hmoved : Led (visit who (.setCurrentTime position) .done s₁ inner₁ s₂) :=
      ih₁.visit _ _ _ _ nofun
    have hcalls : Calls who [.setCurrentTime]
        (visit who (.setCurrentTime position) .done s₁ inner₁ s₂) :=
      calls_visit (c := .setCurrentTime position) h₁.calls
    rcases hreport with ⟨text, rfl⟩ | ⟨rfl, rfl⟩
    · have hreported : Led (visit who (.report text) .done (s.ready offset) inner₀ s₁) :=
        ih₀.visit _ _ _ _ nofun
      refine Led.push (.cons rfl (hreported.append hmoved))
        ⟨rfl, rfl, .inr ⟨offset, warning, rfl, .inr ?_⟩⟩ ih₂ _ _ _ _
      exact .cons (c := .report text) h₀.calls hcalls
    · exact Led.push (.cons rfl hmoved) ⟨rfl, rfl, .inr ⟨offset, warning, rfl, .inl hcalls⟩⟩
        ih₂ _ _ _ _

/-- A cursor is pushed inside a scrub exactly if a scrub was started during the calls that its
maker made since a look at the state, and is still open. These calls are the one that asks for the
time after an event of the media, and the report and the move of a load that became ready. -/
theorem seeking_at_cursor_iff {run : Run} (h : run.Reachable) {before after : List Entry}
    {e : Entry} {x : Float} (hlog : run.world.log = before ++ e :: after)
    (he : e.what = .called (.setCursor x)) :
    ∃ earlier look window, before = earlier ++ look :: window ∧ Leads e.actor look window ∧
      (e.state.seeking ↔ BracketOpen window) := by
  obtain ⟨horderly, hcalm⟩ := h.orderly
  have hpush : e.isPush := by
    rw [Entry.isPush, he]
  obtain ⟨earlier, look, window, rfl, hleads⟩ := h.course.led before e after hlog hpush
  refine ⟨earlier, look, window, rfl, hleads, ?_⟩
  have hlook : (stateAfter (earlier ++ [look])).seeking = false := by
    rw [stateAfter_concat]
    exact seeking_of_isLive hleads.live
  have hsplit : run.world.log = (earlier ++ [look]) ++ window ++ e :: after := by
    rw [hlog]
    simp
  have hstate : e.state = stateAfter ((earlier ++ [look]) ++ window) := by
    rw [(hcalm.sound _ e after hsplit).state, he]
    rfl
  rw [hstate, horderly.seeking_append hcalm.sound hsplit, hlook]
  simp

/-- A video becomes ready, and the user starts to scrub while it is moved to the session start. -/
def scrubbedAtStart : Run :=
  Run.play World.reaction
    { world :=
        { hosts := { session := ⟨30, 60⟩, duration := some 60.0 }
          armed := [⟨.setCurrentTime, .media .seekingStart⟩] } }
    [.begin ride, .read 0]

/-- The entry that pushes the cursor of the session start. -/
def pushInScrub : Entry where
  actor := .load 1 .ready
  what := .called (.setCursor 0.0)
  state :=
    { phase := .ready, offset := some 30.0, seeking := true, generation := 1,
      assetName := some "ride.mp4" }

theorem log_scrubbedAtStart :
    scrubbedAtStart.world.log =
      scrubbedAtStart.world.log.take 14 ++ pushInScrub :: scrubbedAtStart.world.log.drop 15 := by
  decide +kernel

/-- The scrub was started during a call that the load made since it became ready. -/
theorem bracketOpen_of_scrubbedAtStart :
    scrubbedAtStart.Reachable ∧ ∃ earlier look window,
      scrubbedAtStart.world.log.take 14 = earlier ++ look :: window ∧
      Leads (.load 1 .ready) look window ∧ BracketOpen window := by
  have hreach : scrubbedAtStart.Reachable :=
    (Run.Reachable.start _ _ _ _ _ _).play lawful_reaction _
  obtain ⟨earlier, look, window, hbefore, hleads, hseeking⟩ :=
    seeking_at_cursor_iff hreach log_scrubbedAtStart rfl
  exact ⟨hreach, earlier, look, window, hbefore, hleads, hseeking.mp rfl⟩

/-- The cursor is pushed although the user scrubs. -/
theorem seeking_at_cursor_of_scrubbedAtStart :
    scrubbedAtStart.Reachable ∧ ∃ e ∈ scrubbedAtStart.world.log,
      e.what = .called (.setCursor 0.0) ∧ e.state.seeking = true := by
  refine ⟨(Run.Reachable.start _ _ _ _ _ _).play lawful_reaction _, pushInScrub, ?_, rfl, rfl⟩
  rw [log_scrubbedAtStart]
  simp

end VideoSync.Sync
