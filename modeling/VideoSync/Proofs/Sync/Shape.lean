import VideoSync.Proofs.Sync.Staleness

/-
  The shape of the state. Whatever happens, the fields of a controller's state go together
  (`State.WellFormed`), its generation is the number of loads begun and detaches so far, and no two
  loads have the same generation (`states_wellFormed`). A state is one that a log leads to from its
  beginning up to some entry; the states that hosts see from inside their calls are among them.

  A load that stores its result writes only some of the fields. That is enough since the state is
  then still the one that the load made when it began (`Run.Orderly.state_at_commit`): the load has
  done nothing but ask, and nobody else could have changed a loading state without making the load
  stale.
-/

namespace VideoSync.Sync

/-- Which fields of a state go together. -/
structure State.WellFormed (s : State) : Prop where
  offset : s.offset.isSome ↔ s.phase = .ready
  error : s.lastError.isSome ↔ s.phase = .error
  name : s.assetName = none ↔ s.phase = .idle
  seeking : s.seeking → s.phase = .ready

namespace State

variable {s : State}

theorem wellFormed_start : ({} : State).WellFormed := by
  constructor <;> decide

theorem wellFormed_beginLoad (s : State) (name : String) : (s.beginLoad name).WellFormed := by
  constructor <;> simp [beginLoad]

theorem wellFormed_reset (s : State) : s.reset.WellFormed := by
  constructor <;> simp [reset]

theorem wellFormed_failed (s : State) (name : String) (e : Error) :
    ((s.beginLoad name).failed e).WellFormed := by
  constructor <;> simp [beginLoad, failed]

theorem wellFormed_ready (s : State) (name : String) (offset : Float) :
    ((s.beginLoad name).ready offset).WellFormed := by
  constructor <;> simp [beginLoad, ready]

theorem WellFormed.seekStarted (h : s.WellFormed) : s.seekStarted.WellFormed := by
  unfold State.seekStarted
  split
  · next hready => exact ⟨h.offset, h.error, h.name, fun _ => hready⟩
  · exact h

theorem WellFormed.seekEnded (h : s.WellFormed) : s.seekEnded.WellFormed := by
  unfold State.seekEnded
  split
  · exact ⟨h.offset, h.error, h.name, nofun⟩
  · exact h

end State

/-! ## The state in which a load stores its result -/

theorem Deed.Telling.isCommit {d : Deed} (h : d.Telling) : d.what.isCommit = false := by
  obtain ⟨stage, what⟩ := d
  cases what <;> first | rfl | contradiction

theorem isSettlement_false_isCommit {what : Happening} (h : what.isSettlement = false) :
    what.isCommit = false := by
  cases what <;> first | rfl | contradiction

theorem deedsIn_append_cons {g : Nat} {e : Entry} {d : Deed} (h : e.actor.deed? g e.what = some d)
    (before after : List Entry) :
    deedsIn g (before ++ e :: after) = deedsIn g before ++ d :: deedsIn g after := by
  rw [deedsIn_append]
  exact congrArg (deedsIn g before ++ ·) (List.filterMap_cons_some h)

/-- Before a load stores its result it has only asked; storing it is the first deed of its closing,
and the load ends after that. -/
theorem Run.Orderly.closing_of_isCommit {run : Run} (h : run.Orderly) {g : Nat} {d : Deed}
    {ds₁ ds₂ : List Deed} (hds : deedsIn g run.world.log = ds₁ ++ d :: ds₂) (hd : d.what.isCommit) :
    Underway ds₁ ∧ ∃ number o closing, Closing run.world.settings (some o) (d :: closing) ∧
      ds₂ = closing ++ [⟨.pending, .ended number o⟩] := by
  have hmem : d ∈ deedsIn g run.world.log := by
    rw [hds]
    simp
  have hnot {ds : List Deed} (hds : ∀ x ∈ ds, x.what.isCommit = false) : d ∉ ds := by
    intro hin
    rw [hds d hin] at hd
    contradiction
  have hasked {ds : List Deed} (hds : Underway ds) : d ∉ ds :=
    hnot fun x hx => isSettlement_false_isCommit (hds.not_settlement hx)
  have hend (number : Nat) (o : Outcome) : d ∉ [⟨.pending, .ended number o⟩] := by
    refine hnot fun x hx => ?_
    rw [List.mem_singleton.mp hx]
    rfl
  rcases h.loads g with hnone | ⟨l, hl, rfl⟩ | ⟨number, o, before, closing, hbefore, hclosing, heq⟩
  · rw [hnone] at hmem
    exact absurd hmem List.not_mem_nil
  · exact absurd hmem (hasked (h.inFlight l hl).2)
  · cases closing with
    | nil =>
      rw [heq, List.append_nil] at hmem
      exact absurd hmem (List.not_mem_append (hasked hbefore) (hend number o))
    | cons d' closing =>
      have hlater : d ∉ closing ++ [⟨.pending, .ended number o⟩] :=
        List.not_mem_append (hnot fun x hx => (hclosing.telling hx).isCommit) (hend number o)
      rw [hds, List.append_assoc, List.cons_append, eq_comm,
        List.append_cons_inj_of_notMem (hasked hbefore) hlater] at heq
      obtain ⟨rfl, rfl, rfl⟩ := heq
      exact ⟨hbefore, number, o, closing, hclosing, rfl⟩

/-- A loading state stays as it is unless a load begins or stores its result, or the controller is
detached. -/
theorem after_of_loading {what : Happening} {s : State} (hs : s.phase = .loading)
    (hi : what.interrupts = false) (hc : what.isCommit = false) : what.after s = s := by
  have hphase : s.phase ≠ .ready := by
    rw [hs]
    nofun
  cases what with
  | began => contradiction
  | detached => contradiction
  | failed => contradiction
  | ready => contradiction
  | event e =>
    cases e with
    | seekingStart => exact if_neg hphase
    | seekingEnd => exact if_neg hphase
    | timeProgressed => rfl
  | _ => rfl

theorem isBy_of_isCommit {s : State} {e : Entry} (hp : Permitted s e.actor e.what)
    (h : e.what.isCommit) : e.isBy s.generation := by
  rw [Entry.isBy, generation?_of_isCommit hp h]
  exact beq_self_eq_true _

namespace Sound

variable {settings : SyncSettings} {log before mid after : List Entry}

/-- Nothing interrupts a load as long as the generation is the same. -/
theorem not_interrupts (h : Sound settings log) (hlog : log = before ++ mid ++ after)
    (hg : (stateAfter (before ++ mid)).generation = (stateAfter before).generation) :
    ∀ e ∈ mid, e.what.interrupts = false := by
  have hcount := h.generation_append hlog
  have hzero : mid.countP (·.what.interrupts) = 0 := by omega
  simpa using List.countP_eq_zero.mp hzero

/-- The state that a load made stays as it is while nothing interrupts the load and it stores no
result. Others cannot store theirs, since the state has not got their generation. -/
theorem stateAfter_of_loading (h : Sound settings log) (hlog : log = before ++ mid ++ after)
    (hs : (stateAfter before).phase = .loading) (hcalm : ∀ e ∈ mid, e.what.interrupts = false)
    (hpending : ∀ e ∈ mid, e.isBy (stateAfter before).generation → e.what.isCommit = false) :
    stateAfter (before ++ mid) = stateAfter before := by
  revert hcalm hpending
  refine h.along hlog ?_ ?_
  · exact fun _ _ => congrArg stateAfter (List.append_nil before)
  · intro mid e after _ hrule ih hcalm hpending
    obtain ⟨hcalm, hi⟩ := List.forall_mem_append.mp hcalm
    obtain ⟨hpending, hnot⟩ := List.forall_mem_append.mp hpending
    have hsame := ih hcalm hpending
    have hc : e.what.isCommit = false := by
      rw [← Bool.not_eq_true]
      intro hcommit
      have hby := isBy_of_isCommit (hsame ▸ hrule.permitted) hcommit
      rw [hnot e (List.mem_singleton_self e) hby] at hcommit
      contradiction
    rw [← List.append_assoc, stateAfter_concat, hrule.state, hsame]
    exact after_of_loading hs (hi e (List.mem_singleton_self e)) hc

end Sound

/-- The deeds before and after the entry with which a load stores its result. -/
theorem Run.Orderly.deeds_of_isCommit {run : Run} (h : run.Orderly)
    (hsound : Sound run.world.settings run.world.log) {before after : List Entry} {x : Entry}
    (hlog : run.world.log = before ++ x :: after) (hx : x.what.isCommit) {g : Nat}
    (hg : (stateAfter before).generation = g) :
    x.isBy g ∧ Underway (deedsIn g before) ∧ ∃ stage number o closing,
      deedsIn g run.world.log = deedsIn g before ++ ⟨stage, x.what⟩ :: deedsIn g after ∧
      Closing run.world.settings (some o) (⟨stage, x.what⟩ :: closing) ∧
      deedsIn g after = closing ++ [⟨.pending, .ended number o⟩] := by
  have hby : x.isBy g := hg ▸ isBy_of_isCommit (hsound before x after hlog).permitted hx
  obtain ⟨stage, hd⟩ := isBy_iff.mp hby
  have hdeeds : deedsIn g run.world.log =
      deedsIn g before ++ ⟨stage, x.what⟩ :: deedsIn g after := by
    rw [hlog]
    exact deedsIn_append_cons hd before after
  obtain ⟨hunderway, number, o, closing, hclosing⟩ := h.closing_of_isCommit hdeeds hx
  exact ⟨hby, hunderway, stage, number, o, closing, hdeeds, hclosing⟩

/-- While a load that has only asked has the generation of the state, the state is still the one
that the load made when it began. -/
theorem Sound.state_of_underway {settings : SyncSettings} {log before after : List Entry}
    (h : Sound settings log) (hlog : log = before ++ after) {g : Nat}
    (hg : (stateAfter before).generation = g) (hasked : Underway (deedsIn g before)) :
    ∃ asset earlier b mid, before = earlier ++ b :: mid ∧ b.isBy g ∧ b.what = .began asset ∧
      stateAfter before = (stateAfter earlier).beginLoad asset.name := by
  obtain ⟨asset, quiet, hbefore, hquiet⟩ := hasked
  rw [← List.nil_append (⟨.pending, .began asset⟩ :: quiet)] at hbefore
  obtain ⟨earlier, b, mid, rfl, -, hb, hbwhat, hmid⟩ := exists_entry hbefore
  have hfirst : log = earlier ++ b :: (mid ++ after) := by
    rw [hlog]
    simp
  have hsplit : log = (earlier ++ [b]) ++ mid ++ after := by
    rw [hlog]
    simp
  have hmade : stateAfter (earlier ++ [b]) = (stateAfter earlier).beginLoad asset.name := by
    rw [stateAfter_concat, (h earlier b _ hfirst).state, hbwhat]
    rfl
  have hloading : (stateAfter (earlier ++ [b])).phase = .loading := by
    rw [hmade]
    rfl
  have hstart : (stateAfter (earlier ++ [b])).generation = g :=
    h.generation_of_isBegin hfirst hb (by rw [hbwhat]; rfl)
  have hcalm : ∀ e ∈ mid, e.what.interrupts = false := by
    refine h.not_interrupts hsplit ?_
    rw [hstart, ← hg]
    simp
  have hpending : ∀ e ∈ mid, e.isBy (stateAfter (earlier ++ [b])).generation →
      e.what.isCommit = false := by
    intro e he heg
    rw [hstart] at heg
    obtain ⟨d, hd, hwhat⟩ := mem_deedsIn he heg
    rw [hmid] at hd
    rw [← hwhat]
    exact isSettlement_false_isCommit (hquiet d hd).not_settlement
  have hsame := h.stateAfter_of_loading hsplit hloading hcalm hpending
  refine ⟨asset, earlier, b, mid, rfl, hb, hbwhat, ?_⟩
  rw [← hmade, ← hsame, List.append_assoc, List.singleton_append]

/-- When a load stores its result the state is still the one that it made when it began. -/
theorem Run.Orderly.state_at_commit {run : Run} (h : run.Orderly)
    (hsound : Sound run.world.settings run.world.log) {before after : List Entry} {x : Entry}
    (hlog : run.world.log = before ++ x :: after) (hx : x.what.isCommit) :
    ∃ asset earlier b mid, before = earlier ++ b :: mid ∧
      b.isBy (stateAfter before).generation ∧ b.what = .began asset ∧
      stateAfter before = (stateAfter earlier).beginLoad asset.name := by
  obtain ⟨-, hasked, -⟩ := h.deeds_of_isCommit hsound hlog hx rfl
  exact hsound.state_of_underway hlog rfl hasked

/-! ## All states -/

/-- What happens in a log keeps its states well-formed. -/
theorem Run.Orderly.wellFormed {run : Run} (h : run.Orderly)
    (hsound : Sound run.world.settings run.world.log) {before after : List Entry}
    (hlog : run.world.log = before ++ after) : (stateAfter before).WellFormed := by
  refine hsound.upTo hlog ?_ ?_
  · exact State.wellFormed_start
  · intro before e after hlog hrule hold
    rw [stateAfter_concat, hrule.state]
    cases hwhat : e.what with
    | began asset => exact State.wellFormed_beginLoad _ _
    | failed error =>
      obtain ⟨asset, earlier, b, mid, -, -, -, hs⟩ :=
        h.state_at_commit hsound hlog (by rw [hwhat]; rfl)
      rw [hs]
      exact State.wellFormed_failed _ _ _
    | ready offset warning =>
      obtain ⟨asset, earlier, b, mid, -, -, -, hs⟩ :=
        h.state_at_commit hsound hlog (by rw [hwhat]; rfl)
      rw [hs]
      exact State.wellFormed_ready _ _ _
    | event event =>
      cases event with
      | seekingStart => exact hold.seekStarted
      | seekingEnd => exact hold.seekEnded
      | timeProgressed => exact hold
    | detached => exact State.wellFormed_reset _
    | _ => exact hold

/-- Later states have later generations. -/
theorem Sound.generation_le {settings : SyncSettings} {log : List Entry} (h : Sound settings log)
    {e : Entry} (he : e ∈ log) : e.state.generation ≤ (stateAfter log).generation := by
  obtain ⟨before, after, rfl⟩ := List.append_of_mem he
  have hlog : before ++ e :: after = (before ++ [e]) ++ after ++ [] := by simp
  have hcount := h.generation_append hlog
  rw [stateAfter_concat, List.append_assoc, List.singleton_append] at hcount
  omega

theorem countP_interrupts (log : List Entry) :
    log.countP (·.what.interrupts) =
      log.countP (·.what.isBegin) + log.countP (·.what == .detached) := by
  induction log with
  | nil => rfl
  | cons e log ih =>
    have hone : (if e.what.interrupts then 1 else 0) =
        (if e.what.isBegin then 1 else 0) + if e.what == .detached then 1 else 0 := by
      cases e.what <;> rfl
    rw [List.countP_cons, List.countP_cons, List.countP_cons, ih, hone]
    omega

/-- Generations never go back. -/
theorem Sound.pairwise_generation {settings : SyncSettings} {log : List Entry}
    (h : Sound settings log) : (log.map (·.state.generation)).Pairwise (· ≤ ·) := by
  rw [List.pairwise_map]
  induction log using List.reverseRecOn with
  | nil => exact .nil
  | append_singleton log e ih =>
    refine List.pairwise_append.mpr ⟨ih h.of_append, List.pairwise_singleton _ _, ?_⟩
    intro a ha b hb
    obtain rfl := List.mem_singleton.mp hb
    have hle := h.generation_le (List.mem_append_left [b] ha)
    rwa [stateAfter_concat] at hle

/-- A load begins with a generation that no load had before. -/
theorem Sound.nodup_tokens {settings : SyncSettings} {log : List Entry} (h : Sound settings log) :
    ((log.filter (·.what.isBegin)).map (·.actor.generation?)).Nodup := by
  induction log using List.reverseRecOn with
  | nil => exact List.nodup_nil
  | append_singleton log e ih =>
    have hold := ih h.of_append
    rw [List.filter_append, List.map_append]
    by_cases he : e.what.isBegin
    · have hone : [e].filter (·.what.isBegin) = [e] := by simp [he]
      rw [hone]
      refine hold.append (List.nodup_singleton _) ?_
      intro token hlog htoken
      obtain ⟨a, ha, rfl⟩ := List.mem_map.mp hlog
      obtain ⟨ha, habegin⟩ := List.mem_filter.mp ha
      rw [List.map_singleton, List.mem_singleton] at htoken
      have hnew : e.actor.generation? = some ((stateAfter log).generation + 1) := by
        have hrule := (h log e [] rfl).permitted
        obtain ⟨actor, what, s⟩ := e
        cases what <;> try contradiction
        obtain rfl : actor = .load _ .pending := hrule
        rfl
      obtain ⟨before, after, rfl⟩ := List.append_of_mem ha
      have hby : a.isBy ((stateAfter (before ++ a :: after)).generation + 1) := by
        rw [Entry.isBy, htoken, hnew]
        exact beq_self_eq_true _
      have hgen := h.of_append.generation_of_isBegin rfl hby habegin
      have hle := h.of_append.generation_le ha
      rw [stateAfter_concat] at hgen
      omega
    · have hnone : [e].filter (·.what.isBegin) = [] := by simp [he]
      rw [hnone, List.map_nil, List.append_nil]
      exact hold

/-- In every reachable run all states are well-formed, and the generation of a state is the number
of loads begun and detaches before it; so it never goes back, and loads have different tokens. -/
theorem states_wellFormed {run : Run} (h : run.Reachable) :
    run.world.state = stateAfter run.world.log ∧
      (∀ before after, run.world.log = before ++ after →
        (stateAfter before).WellFormed ∧ (stateAfter before).generation =
          before.countP (·.what.isBegin) + before.countP (·.what == .detached)) ∧
      (run.world.log.map (·.state.generation)).Pairwise (· ≤ ·) ∧
      ((run.world.log.filter (·.what.isBegin)).map (·.actor.generation?)).Nodup := by
  obtain ⟨horderly, hcalm⟩ := h.orderly
  have hsound := hcalm.sound
  refine ⟨hcalm.state, ?_, hsound.pairwise_generation, hsound.nodup_tokens⟩
  intro before after hlog
  refine ⟨horderly.wellFormed hsound hlog, ?_⟩
  rw [hlog] at hsound
  rw [generation_eq_countP hsound.of_append, countP_interrupts]

/-- A video of one minute from 1970 on. -/
def ride : Asset where
  name := "ride.mp4"
  mime := "video/mp4"
  source := .memory (#[0, 0, 0, 36, 0x6D, 0x6F, 0x6F, 0x76, 0, 0, 0, 28, 0x6D, 0x76, 0x68, 0x64,
    0, 0, 0, 0, 0x7C, 0x25, 0xB0, 0x80, 0, 0, 0, 0, 0, 0, 2, 0x58, 0, 0, 0x8C, 0xA0])

/-- A video becomes ready and the user scrubs; another video without any bytes fails to load; the
controller is detached. -/
def loadedTwice : Run :=
  Run.play World.reaction
    { world := { hosts := { session := ⟨30, 60⟩, duration := some 60.0 } } }
    [.begin ride, .read 0, .act (.media .seekingStart), .begin clip, .read 1, .act .detach]

/-- Its states go through all phases. -/
theorem wellFormed_of_loadedTwice :
    loadedTwice.Reachable ∧
      (∀ p ∈ Phase.all, ∃ e ∈ loadedTwice.world.log, e.state.phase = p) ∧
      (∀ e ∈ loadedTwice.world.log, e.state.WellFormed) ∧
      loadedTwice.world.state.generation = 3 := by
  have hreach : loadedTwice.Reachable := (Run.Reachable.start _ _ _ _ _ _).play lawful_reaction _
  obtain ⟨-, hshape, -⟩ := states_wellFormed hreach
  refine ⟨hreach, by decide +kernel, ?_, by decide +kernel⟩
  intro e he
  obtain ⟨before, after, hlog⟩ := List.append_of_mem he
  rw [← List.singleton_append, ← List.append_assoc] at hlog
  have hwf := (hshape (before ++ [e]) after hlog).1
  rwa [stateAfter_concat] at hwf

end VideoSync.Sync
