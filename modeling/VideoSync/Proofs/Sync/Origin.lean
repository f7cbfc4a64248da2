import VideoSync.Proofs.Sync.Trace

/-
  Where the offset of a ready controller comes from. A ready state goes back to the entry with which
  a load became ready (`Sound.exists_ready`), and this load has held on to what it got. So the
  offset is the difference between a session start and a creation time that belong to one load, the
  one whose generation the state has, and it stays until a load begins or the controller is detached
  (`offset_of_ready`).
-/

namespace VideoSync.Sync

/-- Whoever becomes ready does so with the offset of an alignment. -/
theorem Closing.alignment? {settings : SyncSettings} {o : Outcome} {d : Deed} {ds : List Deed}
    {offset : Float} {warning : Option Error} (h : Closing settings (some o) (d :: ds))
    (hd : d.what = .ready offset warning) : ∃ a, o.alignment? = some a ∧ a.offset = offset := by
  cases h with
  | failed e => contradiction
  | ready => exact ⟨_, rfl, (Happening.ready.inj hd).1⟩
  | readyWithoutOverlap => exact ⟨_, rfl, (Happening.ready.inj hd).1⟩

/-- Two states know the same about the video. -/
structure State.SameVideo (s s' : State) : Prop where
  phase : s'.phase = s.phase
  offset : s'.offset = s.offset
  name : s'.assetName = s.assetName
  generation : s'.generation = s.generation

theorem State.SameVideo.refl (s : State) : s.SameVideo s := ⟨rfl, rfl, rfl, rfl⟩

theorem State.SameVideo.trans {s₁ s₂ s₃ : State} (h₁ : s₁.SameVideo s₂) (h₂ : s₂.SameVideo s₃) :
    s₁.SameVideo s₃ :=
  ⟨h₂.phase.trans h₁.phase, h₂.offset.trans h₁.offset, h₂.name.trans h₁.name,
    h₂.generation.trans h₁.generation⟩

theorem State.sameVideo_seekStarted (s : State) : s.SameVideo s.seekStarted := by
  unfold seekStarted
  split <;> exact ⟨rfl, rfl, rfl, rfl⟩

theorem State.sameVideo_seekEnded (s : State) : s.SameVideo s.seekEnded := by
  unfold seekEnded
  split <;> exact ⟨rfl, rfl, rfl, rfl⟩

/-- Only loads and detaches change what is known about a video. -/
theorem sameVideo_after {what : Happening} (s : State) (hi : what.interrupts = false)
    (hc : what.isCommit = false) : s.SameVideo (what.after s) := by
  cases what with
  | began => contradiction
  | detached => contradiction
  | failed => contradiction
  | ready => contradiction
  | event e =>
    cases e with
    | seekingStart => exact s.sameVideo_seekStarted
    | seekingEnd => exact s.sameVideo_seekEnded
    | timeProgressed => exact ⟨rfl, rfl, rfl, rfl⟩
  | _ => exact ⟨rfl, rfl, rfl, rfl⟩

/-- What a ready state knows about its video goes back to the load that became ready. -/
theorem Sound.exists_ready {settings : SyncSettings} {log before after : List Entry}
    (h : Sound settings log) (hlog : log = before ++ after)
    (hready : (stateAfter before).phase = .ready) :
    ∃ earlier x mid offset warning, before = earlier ++ x :: mid ∧
      x.what = .ready offset warning ∧ x.state.SameVideo (stateAfter before) := by
  revert hready
  refine h.upTo hlog ?_ ?_
  · nofun
  · intro before e after _ hrule ih hready
    rw [stateAfter_concat] at hready ⊢
    rw [hrule.state] at hready
    by_cases hi : e.what.interrupts
    · cases hwhat : e.what <;> rw [hwhat] at hi hready <;> contradiction
    rw [Bool.not_eq_true] at hi
    by_cases hc : e.what.isCommit
    · cases hwhat : e.what with
      | ready offset warning =>
        exact ⟨before, e, [], offset, warning, rfl, hwhat, .refl _⟩
      | failed error =>
        rw [hwhat] at hready
        contradiction
      | _ =>
        rw [hwhat] at hc
        contradiction
    · rw [Bool.not_eq_true] at hc
      have hsame := sameVideo_after (stateAfter before) hi hc
      obtain ⟨earlier, x, mid, offset, warning, rfl, hx, hold⟩ := ih (hsame.phase ▸ hready)
      refine ⟨earlier, x, mid ++ [e], offset, warning, by simp, hx, ?_⟩
      rw [hrule.state]
      exact hold.trans hsame

/-- A ready state stays ready with its offset and its video until a load begins or the controller is
detached. -/
theorem Run.Orderly.ready_append {run : Run} (h : run.Orderly)
    (hsound : Sound run.world.settings run.world.log) {before mid after : List Entry}
    (hlog : run.world.log = before ++ mid ++ after) (hready : (stateAfter before).phase = .ready)
    (hmid : ∀ e ∈ mid, e.what.interrupts = false) :
    (stateAfter before).SameVideo (stateAfter (before ++ mid)) := by
  revert hmid
  refine hsound.along hlog ?_ ?_
  · intro _
    rw [List.append_nil]
    exact .refl _
  · intro mid e after hlog hrule ih hmid
    obtain ⟨hmid, he⟩ := List.forall_mem_append.mp hmid
    have hold := ih hmid
    have hc : e.what.isCommit = false := by
      rw [← Bool.not_eq_true]
      intro hcommit
      obtain ⟨asset, earlier, b, mid', -, -, -, hs⟩ := h.state_at_commit hsound hlog hcommit
      have hphase := hold.phase.trans hready
      rw [hs] at hphase
      contradiction
    rw [← List.append_assoc, stateAfter_concat, hrule.state]
    exact hold.trans (sameVideo_after _ (he e (List.mem_singleton_self e)) hc)

/-- Two entries with which the same load begins are the same. -/
theorem Sound.eq_of_isBegin {settings : SyncSettings} {log : List Entry} (h : Sound settings log)
    {x y : Entry} {g : Nat} (hx : x ∈ log) (hy : y ∈ log) (hxg : x.isBy g) (hyg : y.isBy g)
    (hxb : x.what.isBegin) (hyb : y.what.isBegin) : x = y :=
  List.inj_on_of_nodup_map h.nodup_tokens (List.mem_filter.mpr ⟨hx, hxb⟩)
    (List.mem_filter.mpr ⟨hy, hyb⟩) ((beq_iff_eq.mp hxg).trans (beq_iff_eq.mp hyg).symm)

/-- The container of a load that has stored its result was read before that. -/
theorem Run.ReadFrom.log_prefix {earlier run : Run} {g : Nat} {source : AssetSource}
    {creation : Int} {before after : List Entry} {x : Entry}
    (h : ReadFrom earlier run g source creation) (hlog : run.world.log = before ++ after)
    (hx : x ∈ before) (hg : x.isBy g) (hcommit : x.what.isCommit) :
    earlier.world.log <+: before := by
  obtain ⟨hreach, -, r, number, hr, hf, hreaches⟩ := h
  have hearlier : earlier.world.log <+: run.world.log :=
    (Run.Reaches.refl.move hr (.read number)).log.trans hreaches.log
  have hbefore : before <+: run.world.log := hlog ▸ List.prefix_append before after
  rcases List.prefix_or_prefix_of_prefix hearlier hbefore with hinit | hinit
  · exact hinit
  · obtain ⟨d, hd, hwhat⟩ := mem_deedsIn (hinit.subset hx) hg
    have hasked := (hreach.orderly.1.inFlight _ (Run.Orderly.mem_of_find? hf)).2
    have hnot := isSettlement_false_isCommit (hasked.not_settlement hd)
    rw [hwhat, hcommit] at hnot
    contradiction

/-- After a load has stored its result it is not told any session. -/
theorem Closing.sessionsTold {settings : SyncSettings} {o : Outcome} {d : Deed} {ds : List Deed}
    (h : Closing settings (some o) (d :: ds)) (number : Nat) :
    Sync.sessionsTold (ds ++ [⟨.pending, .ended number o⟩]) = [] := by
  rw [sessionsTold_append, sessionsTold_of_telling fun _ => h.telling]
  rfl

/-- What a load has got when it stores an offset: its video when it began, the creation time from
the container of this video, and one session. It is told no other session later. -/
theorem Run.Reachable.origin {run : Run} (h : run.Reachable) {before after : List Entry} {x : Entry}
    {offset : Float} {warning : Option Error} {g : Nat}
    (hlog : run.world.log = before ++ x :: after) (hx : x.what = .ready offset warning)
    (hg : (stateAfter before).generation = g) :
    x.isBy g ∧ ∃ asset creation session b, b ∈ before ∧ b.isBy g ∧ b.what = .began asset ∧
      run.WasRead g asset.source creation ∧
      sessionsTold (deedsIn g before) = [session] ∧ sessionsTold (deedsIn g after) = [] ∧
      offset = Float.ofInt (Width.wrapped 64 (session.start - creation)) ∧
      (stateAfter before).assetName = some asset.name := by
  obtain ⟨ho, hcalm⟩ := h.orderly
  have hsound := hcalm.sound
  have hcommit : x.what.isCommit := by
    rw [hx]
    rfl
  obtain ⟨hwho, -, stage, number, o, closing, hdeeds, hclosing, hafter⟩ :=
    ho.deeds_of_isCommit hsound hlog hcommit hg
  obtain ⟨a, ha, rfl⟩ := hclosing.alignment? hx
  have hended : ⟨.pending, .ended number o⟩ ∈ deedsIn g run.world.log := by
    rw [hdeeds, hafter]
    simp
  have hlater : sessionsTold (deedsIn g after) = [] := by
    rw [hafter]
    exact hclosing.sessionsTold number
  obtain ⟨asset', creation, seconds, session, hasset, hread, htold, rfl⟩ := h.traced.ended hended ha
  obtain ⟨asset, first, b, between, hbefore, hb, hbwhat, hs⟩ :=
    ho.state_at_commit hsound hlog hcommit
  rw [hg] at hb
  have hmem : b ∈ before := by
    rw [hbefore]
    simp
  -- The load began once, so this is the video whose container it has read.
  obtain rfl : asset' = asset := by
    obtain ⟨e, he, hed⟩ := List.mem_filterMap.mp hasset
    obtain ⟨heg, hewhat⟩ := isBy_of_deed? hed
    have hsame := hsound.eq_of_isBegin he (hlog ▸ List.mem_append_left _ hmem) heg hb
      (by rw [hewhat]; rfl) (by rw [hbwhat]; rfl)
    rw [hsame, hbwhat] at hewhat
    exact (Happening.began.inj hewhat).symm
  refine ⟨hwho, asset', creation, session, b, hmem, hb, hbwhat, hread, ?_, hlater, rfl, ?_⟩
  · rw [hdeeds, sessionsTold_append, sessionsTold_cons (by rw [hx]; rfl), hlater,
      List.append_nil] at htold
    exact htold
  · rw [hs]
    rfl

/-- In a ready state the offset is the session start that the load with the state's generation was
told, minus the creation time that was read from the container of the same load, in 64 bits, so that
it is exactly this difference wherever the difference has 64 bits; the name is that of the load's
video. This stays so until a load begins or the controller is detached. -/
theorem offset_of_ready {run : Run} (h : run.Reachable) {before after : List Entry}
    (hlog : run.world.log = before ++ after) (hready : (stateAfter before).phase = .ready) :
    (∃ asset creation session earlier b, b ∈ before ∧
      b.isBy (stateAfter before).generation ∧ b.what = .began asset ∧
      Run.ReadFrom earlier run (stateAfter before).generation asset.source creation ∧
      earlier.world.log <+: before ∧
      sessionsTold (deedsIn (stateAfter before).generation before) = [session] ∧
      (stateAfter before).offset =
        some (Float.ofInt (Width.wrapped 64 (session.start - creation))) ∧
      (Width.signed 64 (session.start - creation) →
        (stateAfter before).offset = some (Float.ofInt (session.start - creation))) ∧
      (stateAfter before).assetName = some asset.name) ∧
    ∀ mid rest, after = mid ++ rest → (∀ e ∈ mid, e.what.interrupts = false) →
      (stateAfter before).SameVideo (stateAfter (before ++ mid)) := by
  obtain ⟨ho, hcalm⟩ := h.orderly
  have hsound := hcalm.sound
  constructor
  · obtain ⟨earlier, x, mid, offset, warning, rfl, hx, hsame⟩ := hsound.exists_ready hlog hready
    have hlog' : run.world.log = earlier ++ x :: (mid ++ after) := by
      rw [hlog]
      simp
    have hstate : x.state = (stateAfter earlier).ready offset := by
      rw [(hsound earlier x _ hlog').state, hx]
      rfl
    have hgeneration : (stateAfter (earlier ++ x :: mid)).generation =
        (stateAfter earlier).generation := by
      rw [hsame.generation, hstate]
      rfl
    obtain ⟨hwho, asset, creation, session, b, hmem, hb, hbwhat, ⟨source, hread⟩, htold, hlater,
      rfl, hname⟩ := h.origin hlog' hx rfl
    rw [hgeneration, hsame.offset, hsame.name, hstate]
    refine ⟨asset, creation, session, source, b, List.mem_append_left _ hmem, hb, hbwhat, hread,
      hread.log_prefix hlog (by simp) hwho (by rw [hx]; rfl), ?_, rfl, fun h64 => ?_, hname⟩
    · obtain ⟨stage, hd⟩ := isBy_iff.mp hwho
      rw [deedsIn_append, sessionsTold_append, List.append_eq_nil_iff] at hlater
      rw [deedsIn_append_cons hd, sessionsTold_append, htold, sessionsTold_cons (by rw [hx]; rfl),
        hlater.1]
      rfl
    · rw [Width.wrapped_of_signed h64]
      rfl
  · intro mid rest hafter hmid
    have hsplit : run.world.log = before ++ mid ++ rest := by
      rw [hlog, hafter, List.append_assoc]
    exact ho.ready_append hsound hsplit hready hmid

/-- A video gives way to another one, which becomes ready once its duration is known. The hosts
change the session before that, and session, duration and time after it. -/
def retimed : Run :=
  Run.play World.reaction { world := { hosts := { session := ⟨30, 60⟩ } } }
    [.begin clip, .begin ride, .read 1, .read 0, .act (.setSession ⟨10, 60⟩),
      .act (.setDuration (some 60.0)), .look 1, .act (.setSession ⟨50, 60⟩),
      .act (.setDuration (some 5.0)), .act (.setTime 20.0), .act (.media .timeProgressed)]

/-- The offset is that of the second video and the second session, and it stays. -/
theorem offset_of_retimed :
    retimed.Reachable ∧ (stateAfter (retimed.world.log.take 16)).phase = .ready ∧
      (∃ (asset : Asset) (creation : Int) (session : Timeline.Session) (earlier : Run),
        asset.name = "ride.mp4" ∧ Run.ReadFrom earlier retimed 2 asset.source creation ∧
        sessionsTold (deedsIn 2 (retimed.world.log.take 16)) = [session] ∧
        Float.ofInt (Width.wrapped 64 (session.start - creation)) = 10.0) ∧
      (stateAfter retimed.world.log).offset = some 10.0 := by
  have hreach : retimed.Reachable := (Run.Reachable.start _ _ _ _ _ _).play lawful_reaction _
  have hlog : retimed.world.log = retimed.world.log.take 16 ++ retimed.world.log.drop 16 :=
    (List.take_append_drop 16 _).symm
  have hready : (stateAfter (retimed.world.log.take 16)).phase = .ready := by decide +kernel
  have hstate : (stateAfter (retimed.world.log.take 16)).generation = 2 ∧
      (stateAfter (retimed.world.log.take 16)).offset = some 10.0 ∧
      (stateAfter (retimed.world.log.take 16)).assetName = some "ride.mp4" := by decide +kernel
  obtain ⟨horigin, hstays⟩ := offset_of_ready hreach hlog hready
  obtain ⟨asset, creation, session, earlier, b, -, -, -, hread, -, htold, hoffset, -, hname⟩ :=
    horigin
  have hsame := hstays (retimed.world.log.drop 16) [] (List.append_nil _).symm (by decide +kernel)
  rw [← hlog] at hsame
  rw [hstate.1] at hread htold
  rw [hstate.2.1] at hoffset
  rw [hstate.2.2] at hname
  exact ⟨hreach, hready, ⟨asset, creation, session, earlier, (Option.some.inj hname).symm, hread,
    htold, (Option.some.inj hoffset).symm⟩, hsame.offset.trans hstate.2.1⟩

end VideoSync.Sync
