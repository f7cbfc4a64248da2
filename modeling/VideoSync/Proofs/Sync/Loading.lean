import VideoSync.Proofs.Sync.Media
import VideoSync.Proofs.Sync.Reports

/-
  No controller is stuck while it loads. The phase is loading exactly as long as a load is in flight
  that has the generation of the state (`loading_iff`): a loading state was made by the begin of
  such a load, which has stored nothing yet, and the state that a load makes stays as it is until it
  stores something or becomes stale. A load that waits for the duration began to wait when its
  container was read (`WaitsSince`); once the timeout has passed it ends as soon as it looks again
  (`Run.Reachable.expires`).
-/

namespace VideoSync.Sync

open VideoSync.Timeline (Session align)

/-! ## The load of a loading state -/

namespace Sound

variable {settings : SyncSettings} {log before after : List Entry}

/-- No load has stored anything with a generation that is still to come. -/
theorem not_commit_of_lt (h : Sound settings log) {g : Nat}
    (hg : (stateAfter log).generation < g) : ∀ d ∈ deedsIn g log, d.what.isCommit = false := by
  intro d hd
  rw [← Bool.not_eq_true]
  intro hcommit
  obtain ⟨x, hx, hxd⟩ := List.mem_filterMap.mp hd
  obtain ⟨hby, hwhat⟩ := isBy_of_deed? hxd
  obtain ⟨before, after, rfl⟩ := List.append_of_mem hx
  have hgen := h.generation_of_isCommit rfl hby (hwhat ▸ hcommit)
  have hlog : before ++ x :: after = before ++ (x :: after) ++ [] := by simp
  have hcount := h.generation_append hlog
  omega

/-- A load that was superseded is older than the state. -/
theorem lt_of_superseded (h : Sound settings log) {g number : Nat} {asked : List Deed}
    (hasked : Underway asked)
    (hdeeds : deedsIn g log = asked ++ [⟨.pending, .ended number .superseded⟩]) :
    g < (stateAfter log).generation := by
  obtain ⟨before, x, after, rfl, hbefore, hx, hend, -⟩ := exists_entry hdeeds
  obtain ⟨asset, quiet, rfl, -⟩ := hasked
  rw [← List.nil_append (⟨.pending, .began asset⟩ :: quiet)] at hbefore
  obtain ⟨earlier, b, mid, rfl, -, hb, hbegan, -⟩ := exists_entry hbefore
  have hsound := h.of_append
  have hbegin := hsound.generation_of_isBegin rfl hb (by rw [hbegan]; rfl)
  rw [stateAfter_concat] at hbegin
  have hle := hsound.generation_le (e := b) (by simp)
  have hne := h.generation_of_superseded rfl hx hend
  have hcount := h.generation_append (List.append_nil _).symm
  omega

/-- A state is loading because the load of its generation has begun and stored nothing yet. -/
theorem pending_of_loading (h : Sound settings log) (hlog : log = before ++ after)
    (hloading : (stateAfter before).phase = .loading) :
    (∃ d ∈ deedsIn (stateAfter before).generation before, d.what.isBegin) ∧
      ∀ d ∈ deedsIn (stateAfter before).generation before, d.what.isCommit = false := by
  revert hloading
  refine h.upTo hlog ?_ ?_
  · nofun
  · intro before e after hsplit hrule ih hloading
    have hsound : Sound settings before := (hsplit ▸ h).of_append
    rw [stateAfter_concat] at hloading ⊢
    have hnew (g : Nat) : deedsIn g (before ++ [e]) =
        deedsIn g before ++ (e.actor.deed? g e.what).toList := by
      rw [deedsIn_append]
      cases hd : e.actor.deed? g e.what <;> simp [deedsIn, hd]
    by_cases hi : e.what.interrupts
    · obtain ⟨actor, what, s⟩ := e
      cases what with
      | began asset =>
        obtain rfl : actor = .load _ .pending := hrule.permitted
        obtain rfl : s = (stateAfter before).beginLoad asset.name := hrule.state
        have hdeeds := hnew ((stateAfter before).generation + 1)
        rw [deed?_load] at hdeeds
        refine ⟨⟨_, hdeeds ▸ List.mem_append_right _ (List.mem_singleton_self _), rfl⟩, ?_⟩
        intro d hd
        rcases List.mem_append.mp (hdeeds ▸ hd) with hd | hd
        · exact hsound.not_commit_of_lt (Nat.lt_succ_self _) d hd
        · rw [List.mem_singleton.mp hd]
          rfl
      | detached =>
        obtain rfl : s = (stateAfter before).reset := hrule.state
        contradiction
      | _ => contradiction
    rw [Bool.not_eq_true] at hi
    by_cases hc : e.what.isCommit
    · rw [hrule.state] at hloading
      cases hwhat : e.what <;> rw [hwhat] at hc hloading <;> contradiction
    rw [Bool.not_eq_true] at hc
    have hsame := sameVideo_after (stateAfter before) hi hc
    rw [← hrule.state] at hsame
    rw [hsame.phase] at hloading
    rw [hsame.generation]
    obtain ⟨⟨d, hd, hbegin⟩, hpending⟩ := ih hloading
    refine ⟨⟨d, hnew _ ▸ List.mem_append_left _ hd, hbegin⟩, ?_⟩
    intro d hd
    rcases List.mem_append.mp (hnew _ ▸ hd) with hd | hd
    · exact hpending d hd
    · obtain ⟨-, hwhat⟩ := isBy_of_deed? (Option.mem_toList.mp hd)
      exact hwhat ▸ hc

end Sound

namespace Run.Orderly

variable {run : Run}

/-- A load that has begun is in flight exactly until it ends. -/
theorem inFlight_iff (h : run.Orderly) {g : Nat} (hbegun : deedsIn g run.world.log ≠ []) :
    (∃ l ∈ run.inFlight, l.generation = g) ↔ ∀ o, (g, o) ∉ endings run.world.log := by
  constructor
  · rintro ⟨l, hl, rfl⟩ o ho
    obtain ⟨⟨g, d⟩, hd, hended⟩ := List.mem_filterMap.mp ho
    obtain ⟨x, hx, hpair⟩ := Option.map_eq_some_iff.mp hended
    obtain ⟨rfl, -⟩ := Prod.mk.inj hpair
    have hnone := ended?_eq_none ((h.inFlight l hl).2.not_settlement (mem_ledger_iff.mp hd))
    rw [hnone] at hx
    contradiction
  · intro hnot
    rcases h.loads g with hnone | hflight | ⟨number, o, before, closing, -, -, heq⟩
    · exact absurd hnone hbegun
    · exact hflight
    · have hend : ⟨.pending, .ended number o⟩ ∈ deedsIn g run.world.log := by
        rw [heq]
        exact List.mem_append_right _ (List.mem_singleton_self _)
      have hmem : (g, o) ∈ endings run.world.log :=
        List.mem_filterMap.mpr ⟨_, mem_ledger_iff.mpr hend, rfl⟩
      exact absurd hmem (hnot o)

/-- While a load with the generation of the state is in flight, the state is the one that it made.
-/
theorem loading_of_inFlight (h : run.Orderly) (hcalm : run.world.Calm) {l : InFlight}
    (hl : l ∈ run.inFlight) (hg : l.generation = run.world.state.generation) :
    run.world.state.phase = .loading := by
  have hasked := (h.inFlight l hl).2
  rw [hg, hcalm.state] at hasked
  obtain ⟨asset, earlier, -, -, -, -, -, hstate⟩ :=
    hcalm.sound.state_of_underway (List.append_nil _).symm rfl hasked
  rw [hcalm.state, hstate]
  rfl

/-- A loading state has its load in flight. -/
theorem inFlight_of_loading (h : run.Orderly) (hcalm : run.world.Calm)
    (hloading : run.world.state.phase = .loading) :
    ∃ l ∈ run.inFlight, l.generation = run.world.state.generation := by
  have hsound := hcalm.sound
  rw [hcalm.state] at hloading ⊢
  obtain ⟨⟨b, hb, hbegin⟩, hpending⟩ :=
    hsound.pending_of_loading (List.append_nil _).symm hloading
  rcases h.loads (stateAfter run.world.log).generation with hnone | hflight |
    ⟨number, o, before, closing, hunderway, hclosing, heq⟩
  · rw [hnone] at hb
    exact absurd hb List.not_mem_nil
  · exact hflight
  · rcases hclosing.commits with ⟨rfl, rfl⟩ | ⟨-, d, ds, rfl, hcommit⟩
    · rw [List.append_nil] at heq
      exact absurd (hsound.lt_of_superseded hunderway heq) (Nat.lt_irrefl _)
    · have hnot := hpending d (by rw [heq]; simp)
      rw [hcommit] at hnot
      contradiction

/-- The phase is loading exactly while one load in flight has the generation of the state. -/
theorem loading_iff (h : run.Orderly) (hcalm : run.world.Calm) :
    run.world.state.phase = .loading ↔
      ∃ l, run.inFlight.filter (·.generation == run.world.state.generation) = [l] := by
  constructor
  · intro hloading
    obtain ⟨l, hl, hg⟩ := h.inFlight_of_loading hcalm hloading
    refine ⟨l, List.perm_singleton.mp ?_⟩
    refine (List.perm_ext_iff_of_nodup (h.tokens.of_map.filter _) (List.nodup_singleton l)).mpr ?_
    intro l'
    rw [List.mem_filter, List.mem_singleton, beq_iff_eq]
    refine ⟨fun ⟨hl', hg'⟩ => h.eq_of_generation hl hl' (hg'.trans hg.symm), ?_⟩
    rintro rfl
    exact ⟨hl, hg⟩
  · rintro ⟨l, hl⟩
    have hmem : l ∈ run.inFlight.filter (·.generation == run.world.state.generation) := by
      rw [hl]
      exact List.mem_singleton_self l
    obtain ⟨hflight, hg⟩ := List.mem_filter.mp hmem
    exact h.loading_of_inFlight hcalm hflight (beq_iff_eq.mp hg)

end Run.Orderly

/-! ## Since when a load waits -/

namespace Run

variable {run : Run} {r : Reaction} {l : InFlight} {number : Nat}

theorem mem_of_mem_settle {l' : InFlight} {o : Option Outcome}
    (h : l ∈ (run.settle l' o).inFlight) : l ∈ run.inFlight := by
  cases o with
  | none => exact h
  | some o => exact (List.mem_filter.mp h).1

theorem mem_of_mem_look (h : l ∈ (run.look r number).inFlight) : l ∈ run.inFlight := by
  unfold look at h
  split at h
  · have hmem : l ∈ (run.withWorld _).inFlight := mem_of_mem_settle h
    exact hmem
  · exact h

theorem mem_of_mem_begin {asset : Asset} (h : l ∈ (run.begin r asset).inFlight) :
    l ∈ run.inFlight ∨ l.wait = .container asset.source := by
  have hmem := mem_of_mem_settle h
  rcases List.mem_append.mp hmem with hmem | hmem
  · exact .inl hmem
  · rw [List.mem_singleton.mp hmem]
    exact .inr rfl

/-- A load that waits for something else. -/
theorem Orderly.mem_setWait (ho : run.Orderly) {old : InFlight} (hold : old ∈ run.inFlight)
    {wait : Wait} (h : l ∈ (run.setWait old.number wait).inFlight) :
    l ∈ run.inFlight ∨ l = { old with wait } := by
  obtain ⟨l', hl', rfl⟩ := List.mem_map.mp h
  by_cases hn : l'.number = old.number
  · rw [if_pos hn, ho.eq_of_number hold hl' hn]
    exact .inr rfl
  · rw [if_neg hn]
    exact .inl hl'

/-- A load begins to wait for the duration when its container has been read. -/
theorem metadata_of_waiting (hr : Lawful r) {g : Nat} {w : World}
    {result : Except Container.Error Container.Metadata} {creation : Int}
    (h : (w.containerRead r g result).2 = .waiting creation) :
    ∃ metadata, result = .ok metadata ∧ metadata.creation = creation := by
  cases result with
  | error e =>
    obtain ⟨o, hended, -⟩ := World.alignment?_containerRead (r := r) (g := g) e w
    rw [hended] at h
    contradiction
  | ok metadata =>
    exact ⟨metadata, rfl, ((World.aligns_containerRead hr metadata w).2 creation h).symm⟩

/-- A load that waits after a container was read was waiting before, or it is the load whose
container was read. -/
theorem Orderly.mem_of_mem_read (ho : run.Orderly) (hr : Lawful r)
    (h : l ∈ (run.read r number).inFlight) :
    l ∈ run.inFlight ∨ ∃ source metadata,
      run.find? l.number = some ⟨l.number, l.generation, .container source⟩ ∧
        l.number = number ∧ source.metadata run.files = .ok metadata ∧
        l.wait = .duration metadata.creation run.clock := by
  unfold Run.read at h
  split at h
  · next n generation source hf =>
    have hn : n = number := by simpa using List.find?_some hf
    subst hn
    dsimp only at h
    split at h
    · exact .inl (List.mem_filter.mp h).1
    · next creation hwaits =>
      obtain ⟨metadata, hmetadata, rfl⟩ := metadata_of_waiting hr hwaits
      let old : InFlight := ⟨n, generation, .container source⟩
      let w := (run.world.containerRead r generation (source.metadata run.files)).1
      let waiting : Run := (run.withWorld w).setWait n (.duration metadata.creation run.clock)
      have hlook : l ∈ (waiting.look r n).inFlight := h
      have hwaiting : l ∈ waiting.inFlight := mem_of_mem_look hlook
      have hmem : l ∈ (run.setWait old.number (.duration metadata.creation run.clock)).inFlight :=
        hwaiting
      rcases ho.mem_setWait (Orderly.mem_of_find? hf) hmem with hmem | rfl
      · exact .inl hmem
      · exact .inr ⟨source, metadata, hf, rfl, hmetadata, rfl⟩
  · exact .inl h

/-- A load waits for the duration since its container was read, on the way to the run. -/
def WaitsSince (run : Run) (l : InFlight) (creation : Int) (since : Nat) : Prop :=
  ∃ (earlier : Run) (r : Reaction) (source : AssetSource) (metadata : Container.Metadata),
    earlier.Reachable ∧ Lawful r ∧
      earlier.find? l.number = some ⟨l.number, l.generation, .container source⟩ ∧
      source.metadata earlier.files = .ok metadata ∧ metadata.creation = creation ∧
      earlier.clock = since ∧ (earlier.read r l.number).Reaches run

theorem WaitsSince.onward {run run' : Run} {creation : Int} {since : Nat}
    (h : run.WaitsSince l creation since) (hstep : ∀ {u : Run}, u.Reaches run → u.Reaches run') :
    run'.WaitsSince l creation since := by
  obtain ⟨earlier, r, source, metadata, hreach, hr, hf, hok, hcreation, hclock, hreaches⟩ := h
  exact ⟨earlier, r, source, metadata, hreach, hr, hf, hok, hcreation, hclock, hstep hreaches⟩

theorem clock_settle (run : Run) (l : InFlight) (o : Option Outcome) :
    (run.settle l o).clock = run.clock := by
  cases o <;> rfl

theorem clock_look (r : Reaction) (number : Nat) (run : Run) :
    (run.look r number).clock = run.clock := by
  unfold look
  split
  · exact clock_settle (run.withWorld _) _ _
  · rfl

theorem clock_begin (r : Reaction) (asset : Asset) (run : Run) :
    (run.begin r asset).clock = run.clock := by
  unfold Run.begin
  exact clock_settle _ _ _

theorem clock_read (r : Reaction) (number : Nat) (run : Run) :
    (run.read r number).clock = run.clock := by
  unfold Run.read
  split
  · dsimp only
    split
    · rfl
    · exact clock_look r number ((run.withWorld _).setWait _ _)
  · rfl

/-- The clock does not go back. -/
theorem Reaches.clock {run run' : Run} (h : run.Reaches run') : run.clock ≤ run'.clock := by
  induction h with
  | refl => exact Nat.le_refl _
  | files _ _ ih => exact ih
  | @move run' _ r _ m ih =>
    refine Nat.le_trans ih ?_
    cases m with
    | begin asset => exact Nat.le_of_eq (clock_begin r asset run').symm
    | read number => exact Nat.le_of_eq (clock_read r number run').symm
    | look number => exact Nat.le_of_eq (clock_look r number run').symm
    | advance milliseconds => exact Nat.le_add_right _ _
    | act a => exact Nat.le_refl _

theorem Reachable.waitsSince (h : run.Reachable) {creation : Int} {since : Nat}
    (hl : l ∈ run.inFlight) (hwait : l.wait = .duration creation since) :
    run.WaitsSince l creation since := by
  induction h with
  | start => exact absurd hl List.not_mem_nil
  | files _ files ih => exact (ih hl).onward (·.files files)
  | @move run hreach r hr m ih =>
    have hold (hmem : l ∈ run.inFlight) : (run.move r m).WaitsSince l creation since :=
      (ih hmem).onward (·.move hr m)
    cases m with
    | begin asset =>
      rcases mem_of_mem_begin hl with hmem | hcontainer
      · exact hold hmem
      · rw [hwait] at hcontainer
        contradiction
    | read number =>
      rcases hreach.orderly.1.mem_of_mem_read hr hl with hmem |
        ⟨source, metadata, hf, rfl, hmetadata, hnow⟩
      · exact hold hmem
      · obtain ⟨rfl, rfl⟩ := Wait.duration.inj (hwait.symm.trans hnow)
        exact ⟨run, r, source, metadata, hreach, hr, hf, hmetadata, rfl, rfl, .refl⟩
    | look number => exact hold (mem_of_mem_look hl)
    | advance => exact hold hl
    | act a => exact hold hl

end Run

/-! ## When the time is over -/

namespace World

variable {r : Reaction} {g : Nat} {w : World}

/-- What a load goes by that looks again when its time is over: the duration if the media knows it,
and otherwise that it does not. -/
def lastWord (w : World) : Except Error Float :=
  match w.hosts.duration with
  | some seconds => validDuration seconds
  | none => .error (.durationUnavailable w.settings.metadataTimeout)

theorem lookAgain_of_expired {waited : Nat} (h : w.settings.metadataTimeout.toNat ≤ waited)
    (creation : Int) :
    w.lookAgain r g creation waited = (w.finish r g creation w.lastWord).map id some := by
  unfold lookAgain lastWord
  cases w.hosts.duration with
  | some seconds => rfl
  | none => exact if_pos h

/-- Whatever hosts do during a call, the phase stays as it is unless they detach the controller. -/
theorem phase_tell (hr : Lawful r) (who : Actor) (c : Call) (w : World) :
    w.state.generation ≤ (w.tell r who c).state.generation ∧
      ((w.tell r who c).state.generation = w.state.generation →
        (w.tell r who c).state.phase = w.state.phase) := by
  have haside := aside_lawful hr c.method (w.note who (.called c))
  exact ⟨haside.generation, fun hg => (haside.same hg).1⟩

theorem phase_tell_tell (hr : Lawful r) (who : Actor) (c c' : Call) {w : World}
    (hsame : ((w.tell r who c).tell r who c').state.generation = w.state.generation) :
    ((w.tell r who c).tell r who c').state.phase = w.state.phase := by
  obtain ⟨hle, hphase⟩ := phase_tell hr who c w
  obtain ⟨hle', hphase'⟩ := phase_tell hr who c' (w.tell r who c)
  rw [hphase' (by omega), hphase (by omega)]

theorem phase_fail (hr : Lawful r) (hg : w.isCurrent g) (e : Error)
    (hsame : (w.fail r g e).1.state.generation = g) : (w.fail r g e).1.state.phase = .error := by
  obtain rfl := generation_of_isCurrent hg
  unfold fail at hsame ⊢
  rw [if_pos hg] at hsame ⊢
  exact phase_tell_tell hr _ .unload (.report e.message) hsame

theorem enterReady_ne_failed (a : Timeline.Alignment) (duration : Float) (warning : Option Error)
    (w : World) (e : Error) : (w.enterReady r g a duration warning).2 ≠ .failed e := by
  unfold enterReady
  split
  · dsimp only
    split <;> nofun
  · nofun

/-- A load that knows the session fails only by a video that misses it. -/
theorem eq_fail_of_judge {a : Timeline.Alignment} {seconds : Float} {session : Session} {e : Error}
    (h : (w.judge r g a seconds session).2 = .failed e) :
    w.isCurrent g ∧ w.judge r g a seconds session = w.fail r g (.ofAlignment a session) := by
  cases hg : w.isCurrent g with
  | false =>
    rw [judge_of_stale hg] at h
    contradiction
  | true =>
    refine ⟨rfl, ?_⟩
    unfold judge at h ⊢
    split at h
    · exact absurd h (enterReady_ne_failed _ _ _ _ _)
    · next hov =>
      rw [if_neg hov]
      split at h
      · rfl
      · exact absurd h (enterReady_ne_failed _ _ _ _ _)

/-- A load that fails in its last stage leaves an error, unless the controller is detached. -/
theorem phase_finish (hr : Lawful r) {creation : Int} {duration : Except Error Float} {e : Error}
    (h : (w.finish r g creation duration).2 = .failed e)
    (hsame : (w.finish r g creation duration).1.state.generation = g) :
    (w.finish r g creation duration).1.state.phase = .error := by
  cases hg : w.isCurrent g with
  | false =>
    rw [finish_of_stale hg] at h
    contradiction
  | true =>
    cases duration with
    | error e' =>
      rw [finish_error hg] at hsame ⊢
      exact phase_fail hr hg e' hsame
    | ok seconds =>
      rw [finish_ok hg creation seconds rfl] at h hsame ⊢
      obtain ⟨hg', hfail⟩ := eq_fail_of_judge h
      rw [hfail] at hsame ⊢
      exact phase_fail hr hg' _ hsame

end World

/-- What a load does in its last stage does not end it yet. -/
theorem Ends.ending? {settings : SyncSettings} {o : Outcome} {ds : List Deed} (g : Nat)
    (h : Ends settings o ds) : (ds.map (g, ·)).filterMap ending? = [] := by
  obtain ⟨asked, seconds, session, rfl, hasked, -⟩ := h
  rw [List.map_append, List.filterMap_append, ending?_of_quiet g hasked, ending?_closing]
  rfl

/-- What a load does last is not told any session. -/
theorem sessionsTold_closing (settings : SyncSettings) (seconds : Float) (session : Session)
    (o : Outcome) : sessionsTold (closing settings seconds session o) = [] := by
  have hready (a : Timeline.Alignment) (e? : Option Error) :
      sessionsTold (success settings a seconds e?) = [] :=
    (sessionsTold_cons rfl).trans (sessionsTold_of_telling fun _ => telling_of_mem_success)
  cases o with
  | ready a => exact hready a none
  | readyWithoutOverlap a => exact hready a _
  | superseded => rfl
  | failed e => rfl

theorem Finishes.failed_of_error {settings : SyncSettings} {creation : Int} {e : Error}
    {o : Outcome} {ds : List Deed} (h : Finishes settings creation (.error e) true o ds) :
    o = .failed e := by
  cases h
  rfl

/-- A load that knows its duration is told one session and ends by the verdict on it, unless it has
become stale. -/
theorem Finishes.verdict_of_ok {settings : SyncSettings} {creation : Int} {seconds : Float}
    {o : Outcome} {ds : List Deed} (h : Finishes settings creation (.ok seconds) true o ds) :
    ∃ session, sessionsTold ds = [session] ∧
      (o = verdict settings.overlapPolicy (align creation seconds session) session ∨
        o = .superseded) := by
  cases h with
  | overtaken _ session => exact ⟨session, rfl, .inr rfl⟩
  | settled _ session ho =>
    refine ⟨session, ?_, .inl ho⟩
    rw [sessionsTold_append, sessionsTold_closing]
    rfl

/-- How a load ends that looks again when its time is over. -/
structure Expires (run run' : Run) (l : InFlight) (creation : Int) (o : Outcome) : Prop where
  ended : endings run'.world.log = endings run.world.log ++ [(l.generation, o)]
  gone : run'.inFlight = run.inFlight.filter (·.number != l.number)
  /-- A stale load does nothing more. -/
  stale : l.generation ≠ run.world.state.generation → o = .superseded ∧
    run'.world = run.world.note (.load l.generation .pending) (.ended l.number .superseded)
  /-- The media knows a duration that media cannot have. -/
  invalid : l.generation = run.world.state.generation → ∀ {seconds e},
    run.world.hosts.duration = some seconds → validDuration seconds = .error e → o = .failed e
  /-- The media knows its duration; hosts may detach the controller when the load asks for the
  session. -/
  known : l.generation = run.world.state.generation → ∀ {seconds valid},
    run.world.hosts.duration = some seconds → validDuration seconds = .ok valid →
      ∃ session, sessionsTold (deedsIn l.generation run'.world.log) = [session] ∧
        (o = verdict run.world.settings.overlapPolicy (align creation valid session) session ∨
          o = .superseded)
  unknown : l.generation = run.world.state.generation → run.world.hosts.duration = none →
    o = .failed (.durationUnavailable run.world.settings.metadataTimeout)
  superseded : o = .superseded → run'.world.state.generation ≠ l.generation
  error : ∀ {e}, o = .failed e → run'.world.state.generation = l.generation →
    run'.world.state.phase = .error

namespace Run

variable {run : Run} {r : Reaction} {l : InFlight}

theorem Orderly.find?_eq (ho : run.Orderly) (hl : l ∈ run.inFlight) :
    run.find? l.number = some l := by
  cases hf : run.find? l.number with
  | none =>
    have hnone := List.find?_eq_none.mp hf l hl
    exact absurd (beq_self_eq_true l.number) hnone
  | some l' =>
    have hn : l'.number = l.number := by simpa using List.find?_some hf
    rw [ho.eq_of_number hl (mem_of_find? hf) hn]

/-- A load whose time is over goes through its last stage and ends. -/
theorem Orderly.look_of_expired (ho : run.Orderly) {number g since : Nat} {creation : Int}
    (hl : ⟨number, g, .duration creation since⟩ ∈ run.inFlight)
    (htime : since + run.world.settings.metadataTimeout.toNat ≤ run.clock) :
    run.look r number =
      (run.withWorld (run.world.finish r g creation run.world.lastWord).1).conclude
        ⟨number, g, .duration creation since⟩
        (run.world.finish r g creation run.world.lastWord).2 := by
  have hf : run.find? number = some ⟨number, g, .duration creation since⟩ := ho.find?_eq hl
  have hover : run.world.settings.metadataTimeout.toNat ≤ run.clock - since := by omega
  unfold Run.look
  rw [hf]
  dsimp only
  rw [World.lookAgain_of_expired hover]
  rfl

theorem endings_conclude (run : Run) (l : InFlight) (o : Outcome) :
    endings (run.conclude l o).world.log = endings run.world.log ++ [(l.generation, o)] := by
  have hledger : ledger (run.conclude l o).world.log =
      ledger run.world.log ++ [(l.generation, ⟨.pending, .ended l.number o⟩)] := ledger_append _ _
  rw [endings, hledger, List.filterMap_append]
  rfl

/-- A load that looks again when its time is over ends. -/
theorem Reachable.expires (h : run.Reachable) (hr : Lawful r) {creation : Int} {since : Nat}
    (hl : l ∈ run.inFlight) (hwait : l.wait = .duration creation since)
    (htime : since + run.world.settings.metadataTimeout.toNat ≤ run.clock) :
    ∃ o, Expires run (run.look r l.number) l creation o := by
  obtain ⟨ho, hcalm⟩ := h.orderly
  obtain ⟨number, g, wait⟩ := l
  obtain rfl : wait = .duration creation since := hwait
  have htold := (h.traced.inFlight _ hl).told
  let v := run.world.finish r g creation run.world.lastWord
  have hp : Proceeds g run.world v.1 (some v.2) := World.proceeds_finish hr hcalm creation _
  obtain ⟨-, more, hlog, -⟩ := World.continues_finish hr g creation run.world.lastWord run.world
  obtain ⟨ds, hfinishes, hds⟩ : ∃ ds, Finishes run.world.settings creation run.world.lastWord
      (run.world.isCurrent g) v.2 ds ∧ deedsIn g v.1.log = deedsIn g run.world.log ++ ds :=
    World.finishes_finish hr creation run.world.lastWord run.world
  have hledger := ledger_of_frame (hlog ▸ List.prefix_append _ _) hp.frame hds
  have hlook : run.look r number = (run.withWorld v.1).conclude ⟨number, g, _⟩ v.2 :=
    ho.look_of_expired hl htime
  have hdeeds : deedsIn g (run.look r number).world.log =
      deedsIn g run.world.log ++ ds ++ [⟨.pending, .ended number v.2⟩] := by
    rw [hlook, ← hds]
    exact (World.deedsIn_note v.1 _ _ g).trans (by rw [deed?_load]; rfl)
  have hcurrent (hg : g = run.world.state.generation) : run.world.isCurrent g := by
    rw [hg]
    exact beq_self_eq_true _
  refine ⟨v.2, { ended := ?_, gone := ?_, stale := ?_, invalid := ?_, known := ?_, unknown := ?_,
                 superseded := ?_, error := ?_ }⟩
  · rw [hlook, endings_conclude]
    have hquiet : endings v.1.log = endings run.world.log := by
      rw [endings, hledger, List.filterMap_append, hfinishes.ends.ending? g]
      exact List.append_nil _
    exact congrArg (· ++ [(g, v.2)]) hquiet
  · rw [hlook]
    rfl
  · intro hg
    have hstale : run.world.isCurrent g = false := by
      rw [World.isCurrent, beq_eq_false_iff_ne]
      exact fun heq => hg heq.symm
    have hv : v = (run.world, .superseded) := World.finish_of_stale hstale creation _
    rw [hlook, hv]
    exact ⟨rfl, rfl⟩
  · intro hg seconds e hduration hvalid
    have hlast : run.world.lastWord = .error e := by rw [World.lastWord, hduration, ← hvalid]
    rw [hlast, hcurrent hg] at hfinishes
    exact hfinishes.failed_of_error
  · intro hg seconds valid hduration hvalid
    have hlast : run.world.lastWord = .ok valid := by rw [World.lastWord, hduration, ← hvalid]
    rw [hlast, hcurrent hg] at hfinishes
    obtain ⟨session, hsession, ho⟩ := hfinishes.verdict_of_ok
    refine ⟨session, ?_, ho⟩
    rw [hdeeds, sessionsTold_append, sessionsTold_append, htold, hsession]
    rfl
  · intro hg hduration
    have hlast : run.world.lastWord =
        .error (.durationUnavailable run.world.settings.metadataTimeout) := by
      rw [World.lastWord, hduration]
    rw [hlast, hcurrent hg] at hfinishes
    exact hfinishes.failed_of_error
  · intro hsuperseded
    rw [hlook]
    exact hp.stale (congrArg some hsuperseded)
  · intro e he hsame
    rw [hlook] at hsame ⊢
    exact World.phase_finish hr he hsame

end Run

/-- In every reachable run the phase is loading exactly while one load in flight has the generation
of the state. A load is in flight from its begin to its end; one that waits for the duration has
waited since its container was read, and if it looks again after the timeout it ends. -/
theorem loading_ends {run : Run} (h : run.Reachable) :
    (run.world.state.phase = .loading ↔
        ∃ l, run.inFlight.filter (·.generation == run.world.state.generation) = [l]) ∧
      (∀ b ∈ run.world.log, b.what.isBegin → ∀ g, b.isBy g →
        ((∃ l ∈ run.inFlight, l.generation = g) ↔ ∀ o, (g, o) ∉ endings run.world.log)) ∧
      ∀ l ∈ run.inFlight, ∀ creation since, l.wait = .duration creation since →
        run.WaitsSince l creation since ∧ since ≤ run.clock ∧
          (since + run.world.settings.metadataTimeout.toNat ≤ run.clock →
            ∀ r, Lawful r → ∃ o, Expires run (run.look r l.number) l creation o) := by
  obtain ⟨ho, hcalm⟩ := h.orderly
  refine ⟨ho.loading_iff hcalm, ?_, ?_⟩
  · intro b hb _ g hg
    obtain ⟨d, hd, -⟩ := mem_deedsIn hb hg
    exact ho.inFlight_iff (List.ne_nil_of_mem hd)
  · intro l hl creation since hwait
    have hwaits := h.waitsSince hl hwait
    refine ⟨hwaits, ?_, fun htime r hr => h.expires hr hl hwait htime⟩
    obtain ⟨earlier, r, -, -, -, -, -, -, -, rfl, hreaches⟩ := hwaits
    exact Run.clock_read r l.number earlier ▸ hreaches.clock

/-- A video waits for a duration that does not come while the clock passes the timeout. -/
def waitedTooLong : Run :=
  Run.play World.reaction { world := { hosts := { session := ⟨30, 60⟩ } }, clock := 70 }
    [.begin ride, .read 0, .advance 5000]

/-- When it looks again it fails. -/
theorem expires_of_waitedTooLong :
    waitedTooLong.Reachable ∧ waitedTooLong.world.state.phase = .loading ∧
      ∃ o, Expires waitedTooLong (waitedTooLong.look World.reaction 0) ⟨0, 1, .duration 0 70⟩ 0 o ∧
        o = .failed (.malformedContainer "media duration unavailable after 5000 ms") := by
  have hreach : waitedTooLong.Reachable :=
    (Run.Reachable.start _ _ _ _ _ _).play lawful_reaction _
  obtain ⟨hloading, -, hwaits⟩ := loading_ends hreach
  have hl : ⟨0, 1, .duration 0 70⟩ ∈ waitedTooLong.inFlight := by decide +kernel
  obtain ⟨-, -, hexpires⟩ := hwaits _ hl 0 70 rfl
  obtain ⟨o, ho⟩ := hexpires (by decide +kernel) World.reaction lawful_reaction
  have hloads : waitedTooLong.inFlight.filter
      (·.generation == waitedTooLong.world.state.generation) = [⟨0, 1, .duration 0 70⟩] := by
    decide +kernel
  have hunknown := ho.unknown (by decide +kernel) (by decide +kernel)
  exact ⟨hreach, hloading.mpr ⟨_, hloads⟩, o, ho, hunknown.trans (by decide +kernel)⟩

end VideoSync.Sync
