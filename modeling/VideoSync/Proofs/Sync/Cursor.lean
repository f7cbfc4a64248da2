import Mathlib.Data.List.Chain
import VideoSync.Proofs.Sync.Bracket

/-
  Which cursors are pushed while hosts leave the controller alone. A log is `Undisturbed` when
  between a call of a host and its return there is nothing but reactions that did nothing to the
  controller. In such a run the cursors are exactly those that `cursorLaw` reads off the log: one
  for each scrub that ends in a ready controller, one for each time that passes in a ready
  controller outside of a scrub, and one for each load that becomes ready if the settings move the
  video to the session start (`cursors_of_undisturbed`). Each is the time that the media tells when
  it is asked next, or the position that it is moved to next, minus the offset of that moment.
-/

namespace VideoSync.Sync

/-- The cursor that an entry pushes. -/
def Happening.cursor? : Happening → Option Float
  | called (.setCursor x) => some x
  | _ => none

/-- The time that the media tells. -/
def Happening.told? : Happening → Option Float
  | returned _ (.time t) => some t
  | _ => none

/-- The position that the media is moved to. -/
def Happening.moved? : Happening → Option Float
  | called (.setCurrentTime t) => some t
  | _ => none

/-- The cursors pushed in a log, the first one first. -/
def cursorsIn (log : List Entry) : List Float := log.filterMap (·.what.cursor?)

theorem cursorsIn_append (log more : List Entry) :
    cursorsIn (log ++ more) = cursorsIn log ++ cursorsIn more := List.filterMap_append

/-- The media's next answer to the question for its time, minus the offset of an entry. -/
def Entry.followed (e : Entry) (rest : List Entry) : Option Float :=
  match rest.findSome? (·.what.told?), e.state.offset with
  | some t, some offset => some (t - offset)
  | _, _ => none

/-- The cursors that an entry calls for, given what comes after it. -/
def Entry.owed (settings : SyncSettings) (e : Entry) (rest : List Entry) : List (Option Float) :=
  match e.what with
  | .event .seekingEnd => if e.state.phase = .ready then [e.followed rest] else []
  | .event .timeProgressed =>
    if e.state.phase = .ready ∧ e.state.seeking = false then [e.followed rest] else []
  | .ready offset _ =>
    if settings.seekToSessionStart then [(rest.findSome? (·.what.moved?)).map (· - offset)] else []
  | _ => []

/-- The cursors that the entries of a log call for. -/
def cursorLaw (settings : SyncSettings) : List Entry → List (Option Float)
  | [] => []
  | e :: rest => e.owed settings rest ++ cursorLaw settings rest

/-- After it a call of a host is open. -/
def Happening.isInside : Happening → Bool
  | called _ | reacted _ _ => true
  | _ => false

/-- A host reacts without doing anything, or returns. -/
def Happening.isOfHost : Happening → Bool
  | reacted _ _ | returned _ _ => true
  | _ => false

/-- From the call of a host to its return nobody does anything to the controller. -/
def Undisturbed (log : List Entry) : Prop :=
  log.IsChain fun x y => x.what.isInside → y.what.isOfHost

instance (log : List Entry) : Decidable (Undisturbed log) :=
  inferInstanceAs (Decidable (log.IsChain fun x y => x.what.isInside → y.what.isOfHost))

/-! ## Calls without disturbance -/

/-- Only reactions, which are neither calls nor changes. -/
def Idle (log : List Entry) : Prop := ∀ e ∈ log, ∃ m result, e.what = .reacted m result

theorem Undisturbed.of_append {log more : List Entry} (h : Undisturbed (log ++ more)) :
    Undisturbed log ∧ Undisturbed more := ⟨h.left_of_append, h.right_of_append⟩

theorem Undisturbed.of_cons {e : Entry} {log : List Entry} (h : Undisturbed (e :: log)) :
    Undisturbed log := (List.isChain_cons.mp h).2

/-- Inside an undisturbed call there are only reactions. -/
theorem Undisturbed.idle {x : Entry} {inner rest : List Entry} (hx : x.what.isInside)
    (h : Undisturbed (x :: (inner ++ rest))) (hinner : openCalls 0 inner = some 0) :
    Idle inner := by
  induction inner generalizing x with
  | nil => exact fun _ he => absurd he List.not_mem_nil
  | cons y inner ih =>
    rw [List.cons_append] at h
    obtain ⟨hstep, hrest⟩ := List.isChain_cons_cons.mp h
    have hhost := hstep hx
    rw [openCalls_cons, Option.bind_eq_some_iff] at hinner
    obtain ⟨k, hcount, hinner⟩ := hinner
    obtain ⟨who, what, s⟩ := y
    cases what with
    | reacted m result =>
      obtain rfl : 0 = k := Option.some.inj hcount
      exact List.forall_mem_cons.mpr ⟨⟨m, result, rfl⟩, ih rfl hrest hinner⟩
    | returned m reply => contradiction
    | _ => contradiction

section Visit

variable {who : Actor} {c : Call} {reply : Reply} {s s' : State} {inner : List Entry}

theorem Undisturbed.visit (h : Undisturbed (visit who c reply s inner s'))
    (hinner : openCalls 0 inner = some 0) : Idle inner := h.idle rfl hinner

/-- An undisturbed call is the only one that is made in it. -/
theorem Idle.called_visit {x : Entry} {c' : Call} (h : Idle inner)
    (hx : x ∈ visit who c reply s inner s') (hc : x.what = .called c') : c' = c := by
  rcases List.mem_cons.mp hx with rfl | hx
  · exact (Happening.called.inj hc).symm
  · rcases List.mem_append.mp hx with hx | hx
    · obtain ⟨m, result, hwhat⟩ := h x hx
      rw [hc] at hwhat
      contradiction
    · rw [List.mem_singleton.mp hx] at hc
      contradiction

/-- A search through an undisturbed call sees the call and its return. -/
theorem Idle.findSome?_visit {β : Type} {f : Happening → Option β} (h : Idle inner)
    (hf : ∀ m result, f (.reacted m result) = none) :
    (visit who c reply s inner s').findSome? (f ·.what) =
      (f (.called c)).or (f (.returned c.method reply)) := by
  have hinner : inner.findSome? (f ·.what) = none := by
    refine List.findSome?_eq_none_iff.mpr fun e he => ?_
    obtain ⟨m, result, hwhat⟩ := h e he
    rw [hwhat]
    exact hf m result
  rw [visit, List.findSome?_cons, List.findSome?_append, hinner, List.findSome?_singleton]
  cases f (.called c) <;> rfl

theorem Idle.cursorsIn_visit (h : Idle inner) :
    cursorsIn (visit who c reply s inner s') = (Happening.called c).cursor?.toList := by
  have hinner : cursorsIn inner = [] := by
    refine List.filterMap_eq_nil_iff.mpr fun e he => ?_
    obtain ⟨m, result, hwhat⟩ := h e he
    rw [hwhat]
    rfl
  have happend : cursorsIn (inner ++ [⟨who, .returned c.method reply, s'⟩]) = [] := by
    rw [cursorsIn_append, hinner]
    rfl
  unfold cursorsIn at happend ⊢
  rw [visit, List.filterMap_cons, happend]
  cases (Happening.called c).cursor? <;> rfl

end Visit

/-! ## The law -/

section Law

variable {settings : SyncSettings}

/-- The entry calls for no cursor, whatever comes after it. -/
def Entry.Quiet (settings : SyncSettings) (e : Entry) : Prop := ∀ rest, e.owed settings rest = []

/-- The cursors of a stretch are those that its entries call for, whatever comes after it. -/
structure Balanced (settings : SyncSettings) (log : List Entry) : Prop where
  append : ∀ more,
    cursorLaw settings (log ++ more) = cursorLaw settings log ++ cursorLaw settings more
  cursors : (cursorsIn log).map some = cursorLaw settings log

theorem cursorLaw_append_of_quiet {log : List Entry} (h : ∀ e ∈ log, e.Quiet settings)
    (more : List Entry) : cursorLaw settings (log ++ more) = cursorLaw settings more := by
  induction log with
  | nil => rfl
  | cons e log ih =>
    obtain ⟨he, hlog⟩ := List.forall_mem_cons.mp h
    rw [List.cons_append, cursorLaw, he, List.nil_append]
    exact ih hlog

theorem cursorLaw_of_quiet {log : List Entry} (h : ∀ e ∈ log, e.Quiet settings) :
    cursorLaw settings log = [] := by
  have hlaw := cursorLaw_append_of_quiet h []
  rwa [List.append_nil] at hlaw

theorem balanced_of_quiet {log : List Entry} (h : ∀ e ∈ log, e.Quiet settings)
    (hcursors : cursorsIn log = []) : Balanced settings log where
  append more := by rw [cursorLaw_append_of_quiet h, cursorLaw_of_quiet h, List.nil_append]
  cursors := by rw [hcursors, cursorLaw_of_quiet h, List.map_nil]

/-- An entry that calls for a cursor, and the cursor. -/
theorem balanced_cons {e : Entry} {rest : List Entry} {x : Float}
    (hrest : ∀ y ∈ rest, y.Quiet settings)
    (howed : ∀ more, e.owed settings (rest ++ more) = [some x])
    (hcursors : cursorsIn (e :: rest) = [x]) : Balanced settings (e :: rest) := by
  have hlaw : cursorLaw settings (e :: rest) = [some x] := by
    have hone := howed []
    rw [List.append_nil] at hone
    rw [cursorLaw, hone, cursorLaw_of_quiet hrest, List.append_nil]
  constructor
  · intro more
    rw [hlaw, List.cons_append, cursorLaw, howed, cursorLaw_append_of_quiet hrest]
  · rw [hlaw, hcursors]
    rfl

theorem Balanced.concat {log more : List Entry} (h₁ : Balanced settings log)
    (h₂ : Balanced settings more) : Balanced settings (log ++ more) where
  append rest := by
    rw [List.append_assoc, h₁.append, h₂.append, h₁.append, List.append_assoc]
  cursors := by
    rw [h₁.append, ← h₁.cursors, ← h₂.cursors, ← List.map_append, cursorsIn_append]

theorem quiet_of_reacted {e : Entry} {m : Method} {result : Option Bool}
    (h : e.what = .reacted m result) : e.Quiet settings := by
  intro rest
  rw [Entry.owed, h]

theorem Idle.quiet_visit {who : Actor} {c : Call} {reply : Reply} {s s' : State}
    {inner : List Entry} (h : Idle inner) :
    ∀ e ∈ visit who c reply s inner s', e.Quiet settings := by
  refine List.forall_mem_cons.mpr ⟨fun _ => rfl, List.forall_mem_append.mpr ⟨?_, ?_⟩⟩
  · intro e he
    obtain ⟨m, result, hwhat⟩ := h e he
    exact quiet_of_reacted hwhat
  · exact List.forall_mem_singleton.mpr fun _ => rfl

/-- A live controller passes the time on, and a ready one after a scrub is live. -/
theorem owed_of_liveOffset {e : MediaEvent} {who : Actor} {s : State} {offset : Float}
    (he : e ≠ .seekingStart) (hlive : s.liveOffset = some offset) (rest : List Entry) :
    Entry.owed settings ⟨who, .event e, s⟩ rest = [Entry.followed ⟨who, .event e, s⟩ rest] := by
  have hs := State.isLive_of_liveOffset hlive
  simp only [State.isLive, Bool.and_eq_true, beq_iff_eq, Bool.not_eq_true'] at hs
  cases e with
  | seekingStart => exact absurd rfl he
  | seekingEnd => exact if_pos hs.1
  | timeProgressed => exact if_pos hs

/-- An event that is not passed on calls for nothing. -/
theorem quiet_of_not_live {e : MediaEvent} {who : Actor} {s s' : State} (hwf : s'.WellFormed)
    (hs' : s' = (Happening.event e).after s) (hlive : s'.liveOffset = none) :
    Entry.Quiet settings ⟨who, .event e, s'⟩ := by
  have hnot (hphase : s'.phase = .ready) (hseeking : s'.seeking = false) : False := by
    have hoffset := hwf.offset.mpr hphase
    rw [State.liveOffset, State.isLive, hphase, hseeking] at hlive
    change s'.offset = none at hlive
    rw [hlive] at hoffset
    contradiction
  intro rest
  cases e with
  | seekingStart => rfl
  | seekingEnd =>
    refine if_neg fun hphase => hnot hphase ?_
    by_cases hready : s.phase = .ready
    · rw [hs', Happening.after, State.seekEnded, if_pos hready]
    · rw [hs', Happening.after, State.seekEnded, if_neg hready] at hphase
      exact absurd hphase hready
  | timeProgressed => exact if_neg fun h => hnot h.1 h.2

/-- The cursor that is pushed at an event is the one that the event calls for. -/
theorem balanced_passed {e : MediaEvent} {s' s₁ s₂ : State} {inner₁ inner₂ : List Entry}
    {time offset : Float} (he : e ≠ .seekingStart) (hlive : s'.liveOffset = some offset)
    (h₁ : Idle inner₁) (h₂ : Idle inner₂) :
    Balanced settings (⟨.outside, .event e, s'⟩ :: pushed time offset s' inner₁ s₁ inner₂ s₂) := by
  have hoffset : s'.offset = some offset := by
    rw [← hlive, State.liveOffset, if_pos (State.isLive_of_liveOffset hlive)]
  refine balanced_cons (x := time - offset)
    (List.forall_mem_append.mpr ⟨h₁.quiet_visit, h₂.quiet_visit⟩) ?_ ?_
  · intro more
    have htold : (pushed time offset s' inner₁ s₁ inner₂ s₂ ++ more).findSome? (·.what.told?) =
        some time := by
      rw [pushed, List.append_assoc, List.findSome?_append,
        h₁.findSome?_visit (f := Happening.told?) fun _ _ => rfl]
      rfl
    rw [owed_of_liveOffset he hlive, Entry.followed, htold]
    dsimp only
    rw [hoffset]
  · have h : cursorsIn (pushed time offset s' inner₁ s₁ inner₂ s₂) = [time - offset] := by
      rw [pushed, cursorsIn_append, h₁.cursorsIn_visit, h₂.cursorsIn_visit]
      rfl
    rw [cursorsIn, List.filterMap_cons]
    exact h

/-- The cursor that is pushed when a load becomes ready is the one that this calls for. -/
theorem balanced_positioned {who : Actor} {warning : Option Error} {offset position : Float}
    {s s₁ s₂ s₃ : State} {report inner₁ inner₂ : List Entry}
    (hseek : settings.seekToSessionStart = true)
    (hquiet : ∀ e ∈ report, e.Quiet settings)
    (hreport : cursorsIn report = [] ∧ report.findSome? (·.what.moved?) = none)
    (h₁ : Idle inner₁) (h₂ : Idle inner₂) :
    Balanced settings (⟨who, .ready offset warning, s⟩ :: (report ++
      visit who (.setCurrentTime position) .done s₁ inner₁ s₂ ++
      visit who (.setCursor (position - offset)) .done s₂ inner₂ s₃)) := by
  refine balanced_cons (x := position - offset) (List.forall_mem_append.mpr
    ⟨List.forall_mem_append.mpr ⟨hquiet, h₁.quiet_visit⟩, h₂.quiet_visit⟩) ?_ ?_
  · intro more
    rw [Entry.owed]
    dsimp only
    rw [if_pos hseek, List.append_assoc, List.append_assoc, List.findSome?_append, hreport.2,
      List.findSome?_append, h₁.findSome?_visit (f := Happening.moved?) fun _ _ => rfl]
    rfl
  · have h : cursorsIn (report ++ visit who (.setCurrentTime position) .done s₁ inner₁ s₂ ++
        visit who (.setCursor (position - offset)) .done s₂ inner₂ s₃) = [position - offset] := by
      rw [cursorsIn_append, cursorsIn_append, hreport.1, h₁.cursorsIn_visit, h₂.cursorsIn_visit]
      rfl
    rw [cursorsIn, List.filterMap_cons]
    exact h

/-- Along an undisturbed course through well-formed states every cursor that is called for is
pushed, and no other one. -/
theorem Course.balanced {s s' : State} {log : List Entry} (h : Course settings s log s')
    (hcalm : Undisturbed log) (hwf : ∀ e ∈ log, e.state.WellFormed) : Balanced settings log := by
  induction h with
  | nil => exact balanced_of_quiet (fun _ he => absurd he List.not_mem_nil) rfl
  | append _ _ ih₁ ih₂ =>
    obtain ⟨hlog, hmore⟩ := hcalm.of_append
    obtain ⟨hwf₁, hwf₂⟩ := List.forall_mem_append.mp hwf
    exact (ih₁ hlog hwf₁).concat (ih₂ hmore hwf₂)
  | @entry s who what h =>
    cases what with
    | called => contradiction
    | returned => contradiction
    | ready => contradiction
    | event e =>
      cases e with
      | seekingStart => exact balanced_of_quiet (List.forall_mem_singleton.mpr fun _ => rfl) rfl
      | _ => contradiction
    | _ => exact balanced_of_quiet (List.forall_mem_singleton.mpr fun _ => rfl) rfl
  | @call _ _ _ _ c reply hc h _ =>
    have hidle := hcalm.visit h.calls
    refine balanced_of_quiet hidle.quiet_visit ?_
    rw [hidle.cursorsIn_visit]
    cases c with
    | setCursor x => exact absurd rfl (hc x)
    | _ => rfl
  | missed he hlive =>
    refine balanced_of_quiet (List.forall_mem_singleton.mpr ?_) rfl
    exact quiet_of_not_live (hwf _ (List.mem_singleton_self _)) rfl hlive
  | passed time he _ hlive h₁ h₂ =>
    obtain ⟨hcalm₁, hcalm₂⟩ := hcalm.of_cons.of_append
    exact balanced_passed he hlive (hcalm₁.visit h₁.calls) (hcalm₂.visit h₂.calls)
  | ready s who offset warning hseek =>
    refine balanced_of_quiet (List.forall_mem_singleton.mpr fun rest => ?_) rfl
    rw [Entry.owed, hseek]
    rfl
  | positioned who warning position hseek h₀ hreport h₁ h₂ =>
    obtain ⟨hcalm₁, hcalm₂⟩ := hcalm.of_cons.of_append
    obtain ⟨hcalm₀, hcalm₁⟩ := hcalm₁.of_append
    have hidle₁ := hcalm₁.visit h₁.calls
    have hidle₂ := hcalm₂.visit h₂.calls
    rcases hreport with ⟨text, rfl⟩ | ⟨rfl, -⟩
    · have hidle₀ := hcalm₀.visit h₀.calls
      refine balanced_positioned hseek hidle₀.quiet_visit ⟨hidle₀.cursorsIn_visit, ?_⟩ hidle₁ hidle₂
      exact hidle₀.findSome?_visit (f := Happening.moved?) fun _ _ => rfl
    · exact balanced_positioned hseek (fun _ he => absurd he List.not_mem_nil) ⟨rfl, rfl⟩
        hidle₁ hidle₂

end Law

/-! ## Runs without disturbance -/

/-- What an undisturbed event of the media leads to moves no video. -/
theorem no_move_of_mediaEvent {r : Reaction} (hr : Lawful r) (e : MediaEvent) {w : World}
    (hcalm : Undisturbed (w.mediaEvent r e).log) :
    ∃ more, (w.mediaEvent r e).log = w.log ++ more ∧
      ∀ x ∈ more, ∀ t, x.what ≠ .called (.setCurrentTime t) := by
  by_cases he : e = .seekingStart
  · rw [he]
    refine ⟨_, rfl, fun x hx t => ?_⟩
    rw [List.mem_singleton.mp hx]
    nofun
  · rw [World.mediaEvent_eq e he] at hcalm ⊢
    obtain ⟨-, more, hlog, -, hmore⟩ :=
      World.log_pushCursor (w := w) (World.continues_lawful hr) he rfl
    rw [hlog] at hcalm
    refine ⟨_, hlog, fun x hx t ht => ?_⟩
    rcases List.mem_cons.mp hx with rfl | hx
    · contradiction
    rcases hmore with rfl | ⟨time, offset, inner₁, s₁, inner₂, rfl, h₁, h₂⟩
    · exact absurd hx List.not_mem_nil
    obtain ⟨hcalm₁, hcalm₂⟩ := hcalm.of_append.2.of_cons.of_append
    rcases List.mem_append.mp hx with hx | hx
    · exact absurd ((hcalm₁.visit h₁).called_visit hx ht) nofun
    · exact absurd ((hcalm₂.visit h₂).called_visit hx ht) nofun

/-- While hosts do nothing, an event moves the cursor to where the media is, if the controller is
live after it. -/
theorem cursorsIn_mediaEvent {e : MediaEvent} (he : e ≠ .seekingStart) (w : World) :
    cursorsIn (w.mediaEvent (fun _ v => v) e).log = cursorsIn w.log ++
      (((Happening.event e).after w.state).liveOffset.map (w.hosts.time - ·)).toList := by
  have hbecome : cursorsIn (w.become .outside (.event e) ((Happening.event e).after w.state)).log =
      cursorsIn w.log := (cursorsIn_append _ _).trans (List.append_nil _)
  rw [World.mediaEvent_eq e he]
  cases hlive : ((Happening.event e).after w.state).liveOffset with
  | none =>
    rw [World.pushCursor_of_not_live hlive]
    exact hbecome.trans (List.append_nil _).symm
  | some offset =>
    have hpush (v : World) (hv : v.state.liveOffset = some offset) :
        cursorsIn (v.pushCursor fun _ v => v).log = cursorsIn v.log ++ [v.hosts.time - offset] := by
      unfold World.pushCursor
      rw [hv]
      simp [World.ask, World.tell, World.callHost, World.note, cursorsIn, Happening.cursor?]
    exact (hpush _ hlive).trans (congrArg (· ++ _) hbecome)

/-- In an undisturbed run the cursors that are pushed are those that the log calls for, in this
order; the state says at every moment whether a scrub is open; and an event of the media moves no
video, undisturbed as it is, but the cursor to the time of the media. -/
theorem cursors_of_undisturbed {run : Run} (h : run.Reachable)
    (hcalm : Undisturbed run.world.log) :
    (cursorsIn run.world.log).map some = cursorLaw run.world.settings run.world.log ∧
      (∀ before after, run.world.log = before ++ after →
        ((stateAfter before).seeking ↔ BracketOpen before)) ∧
      (∀ {r : Reaction}, Lawful r → ∀ e, Undisturbed (run.act r (.media e)).1.world.log →
        ∃ more, (run.act r (.media e)).1.world.log = run.world.log ++ more ∧
          ∀ x ∈ more, ∀ t, x.what ≠ .called (.setCurrentTime t)) ∧
      ∀ e, e ≠ .seekingStart →
        cursorsIn (run.act (fun _ w => w) (.media e)).1.world.log = cursorsIn run.world.log ++
          (((Happening.event e).after run.world.state).liveOffset.map
            (run.world.hosts.time - ·)).toList := by
  obtain ⟨horderly, hcons⟩ := h.orderly
  have hwf {before after : List Entry} (hlog : run.world.log = before ++ after) :
      (stateAfter before).WellFormed := horderly.wellFormed hcons.sound hlog
  refine ⟨(h.course.balanced hcalm fun e he => ?_).cursors, fun before after hlog => ?_,
    fun hr e hcalm' => no_move_of_mediaEvent hr e hcalm', fun e he => cursorsIn_mediaEvent he _⟩
  · obtain ⟨before, after, hlog⟩ := List.append_of_mem he
    rw [← List.singleton_append, ← List.append_assoc] at hlog
    have hat := hwf hlog
    rwa [stateAfter_concat] at hat
  · have hsplit : run.world.log = [] ++ before ++ after := hlog
    have hopen := horderly.seeking_append hcons.sound hsplit
    rw [List.nil_append] at hopen
    rw [hopen]
    exact or_iff_left fun hseeking => absurd hseeking.1 (by decide)

/-- A video becomes ready and plays; the user scrubs, and detaches amid another scrub. -/
def scrubbedTwice : Run :=
  Run.play World.reaction
    { world := { hosts := { session := ⟨30, 60⟩, duration := some 60.0 } } }
    [.begin ride, .read 0, .act (.setTime 40.0), .act (.media .timeProgressed),
      .act (.media .seekingStart), .act (.setTime 45.0), .act (.media .timeProgressed),
      .act (.media .seekingEnd), .act (.media .seekingStart), .act .detach,
      .act (.media .seekingEnd)]

/-- One cursor at the session start, one while the video plays and one after the first scrub. -/
theorem cursors_of_scrubbedTwice :
    scrubbedTwice.Reachable ∧ Undisturbed scrubbedTwice.world.log ∧
      cursorLaw scrubbedTwice.world.settings scrubbedTwice.world.log =
        [some 0.0, some 10.0, some 15.0] ∧
      ¬ BracketOpen scrubbedTwice.world.log ∧
      ∃ more, (scrubbedTwice.act World.reaction (.media .timeProgressed)).1.world.log =
        scrubbedTwice.world.log ++ more ∧
        ∀ x ∈ more, ∀ t, x.what ≠ .called (.setCurrentTime t) := by
  have hreach : scrubbedTwice.Reachable :=
    (Run.Reachable.start _ _ _ _ _ _).play lawful_reaction _
  have hcalm : Undisturbed scrubbedTwice.world.log := by decide +kernel
  obtain ⟨hlaw, hopen, hmove, -⟩ := cursors_of_undisturbed hreach hcalm
  refine ⟨hreach, hcalm, ?_, ?_, hmove lawful_reaction .timeProgressed (by decide +kernel)⟩
  · rw [← hlaw]
    decide +kernel
  · rw [← hopen scrubbedTwice.world.log [] (List.append_nil _).symm]
    decide +kernel

end VideoSync.Sync
