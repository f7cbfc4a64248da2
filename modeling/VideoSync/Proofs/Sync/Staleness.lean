import Mathlib.Data.List.Induction
import VideoSync.Proofs.Sync.Runs

/-
  Stale loads are inert. `attempt g log` is what happens from the beginning of the load with
  generation `g` up to the moment when it stores its result, or up to its end if it stores nothing.

  In every reachable run a load ends superseded exactly if its attempt contains the beginning of
  another load or a detach (`superseded_iff_interrupted`). Such a load has not changed the state
  since it began, and the only calls it made are queries and the one that gives the media its
  video.

  The proof counts: the generation of a sound log is the number of loads begun and detaches in it,
  a load begins with the next generation, and it stores its result only in a state that still has
  it.
-/

namespace VideoSync.Sync

/-- Makes older loads stale. -/
def Happening.interrupts : Happening → Bool
  | began _ | detached => true
  | _ => false

/-- A load begins. -/
def Happening.isBegin : Happening → Bool
  | began _ => true
  | _ => false

/-- A load stores its result, or it ends. -/
def Happening.isSettlement : Happening → Bool
  | failed _ | ready _ _ | ended _ _ => true
  | _ => false

/-- A load stores its result. -/
def Happening.isCommit : Happening → Bool
  | failed _ | ready _ _ => true
  | _ => false

/-- The load with a generation makes the entry. -/
def Entry.isBy (e : Entry) (g : Nat) : Bool := e.actor.generation? == some g

/-- What happens from the beginning of a load up to its commit, or up to its end if there is none.
-/
def attempt (g : Nat) (log : List Entry) : List Entry :=
  ((log.dropWhile fun e => !(e.isBy g && e.what.isBegin)).drop 1).takeWhile
    fun e => !(e.isBy g && e.what.isSettlement)

theorem attempt_eq {g : Nat} {before mid after : List Entry} {b x : Entry}
    (hbefore : ∀ e ∈ before, e.isBy g = false) (hb : b.isBy g && b.what.isBegin)
    (hmid : ∀ e ∈ mid, (e.isBy g && e.what.isSettlement) = false)
    (hx : x.isBy g && x.what.isSettlement) :
    attempt g (before ++ b :: (mid ++ x :: after)) = mid := by
  have hskip : ∀ e ∈ before, (!(e.isBy g && e.what.isBegin)) = true := by
    intro e he
    rw [hbefore e he]
    rfl
  have hkeep : ∀ e ∈ mid, (!(e.isBy g && e.what.isSettlement)) = true := by
    intro e he
    rw [hmid e he]
    rfl
  unfold attempt
  rw [List.dropWhile_append_of_pos hskip, List.dropWhile_cons_of_neg (by rw [hb]; decide),
    List.drop_one, List.tail_cons, List.takeWhile_append_of_pos hkeep,
    List.takeWhile_cons_of_neg (by rw [hx]; decide), List.append_nil]

/-! ## Generations count interruptions -/

theorem Sound.of_append {settings : SyncSettings} {log more : List Entry}
    (h : Sound settings (log ++ more)) : Sound settings log := by
  intro before e after heq
  refine h before e (after ++ more) ?_
  rw [heq]
  simp

theorem generation_after (what : Happening) (s : State) :
    (what.after s).generation = s.generation + if what.interrupts then 1 else 0 := by
  cases what with
  | event e =>
    cases e with
    | seekingStart => exact World.seekStarted_generation s
    | seekingEnd => exact World.seekEnded_generation s
    | timeProgressed => rfl
  | _ => rfl

/-- The generation is the number of loads begun and detaches. -/
theorem generation_eq_countP {settings : SyncSettings} {log : List Entry}
    (h : Sound settings log) :
    (stateAfter log).generation = log.countP (·.what.interrupts) := by
  induction log using List.reverseRecOn with
  | nil => rfl
  | append_singleton log e ih =>
    have hrule := h log e [] rfl
    rw [stateAfter_concat, hrule.state, generation_after, ih h.of_append, List.countP_append,
      List.countP_singleton]

/-! ## The course of a load that ended -/

theorem isBy_iff {e : Entry} {g : Nat} :
    e.isBy g ↔ ∃ stage, e.actor.deed? g e.what = some ⟨stage, e.what⟩ := by
  obtain ⟨actor, what, s⟩ := e
  cases actor with
  | load g' stage =>
    by_cases hg : g' = g <;> simp [Entry.isBy, Actor.generation?, Actor.deed?, hg]
  | outside => simp [Entry.isBy, Actor.generation?, Actor.deed?]

theorem isBy_of_deed? {e : Entry} {g : Nat} {d : Deed} (h : e.actor.deed? g e.what = some d) :
    e.isBy g ∧ e.what = d.what := by
  obtain ⟨actor, what, s⟩ := e
  cases actor with
  | load g' stage =>
    by_cases hg : g' = g
    · subst hg
      rw [deed?_load] at h
      obtain rfl := Option.some.inj h
      exact ⟨by simp [Entry.isBy, Actor.generation?], rfl⟩
    · simp [Actor.deed?, hg] at h
  | outside => simp [Actor.deed?] at h

theorem mem_deedsIn {log : List Entry} {e : Entry} {g : Nat} (he : e ∈ log) (hg : e.isBy g) :
    ∃ d ∈ deedsIn g log, d.what = e.what := by
  obtain ⟨stage, hd⟩ := isBy_iff.mp hg
  exact ⟨⟨stage, e.what⟩, List.mem_filterMap.mpr ⟨e, he, hd⟩, rfl⟩

theorem isBy_false_of_deedsIn_eq_nil {log : List Entry} {g : Nat} (h : deedsIn g log = []) :
    ∀ e ∈ log, e.isBy g = false := by
  intro e he
  rw [← Bool.not_eq_true]
  intro hg
  obtain ⟨d, hd, -⟩ := mem_deedsIn he hg
  rw [h] at hd
  exact List.not_mem_nil hd

/-- The entry of a deed, and what stands before and after it. -/
theorem exists_entry {log : List Entry} {g : Nat} {d : Deed} {ds₁ ds₂ : List Deed}
    (h : deedsIn g log = ds₁ ++ d :: ds₂) :
    ∃ before e after, log = before ++ e :: after ∧ deedsIn g before = ds₁ ∧ e.isBy g ∧
      e.what = d.what ∧ deedsIn g after = ds₂ := by
  obtain ⟨log₁, log₂, rfl, h₁, h₂⟩ := List.filterMap_eq_append_iff.mp h
  obtain ⟨skipped, e, after, rfl, hskip, he, hafter⟩ := List.filterMap_eq_cons_iff.mp h₂
  obtain ⟨hby, hwhat⟩ := isBy_of_deed? he
  refine ⟨log₁ ++ skipped, e, after, by simp, ?_, hby, hwhat, hafter⟩
  have hnone : deedsIn g skipped = [] := List.filterMap_eq_nil_iff.mpr hskip
  rw [deedsIn_append, hnone, List.append_nil]
  exact h₁

theorem ended?_eq_none {what : Happening} (h : what.isSettlement = false) :
    what.ended? = none := by
  cases what <;> first | rfl | contradiction

theorem Deed.Quiet.not_settlement {d : Deed} (h : d.Quiet) : d.what.isSettlement = false := by
  obtain ⟨stage, what⟩ := d
  obtain ⟨-, hwhat⟩ := h
  cases what <;> first | rfl | exact hwhat.elim

/-- What is quiet leaves the state alone, and the only command in it gives the media its video. -/
theorem Deed.Quiet.inert {d : Deed} (h : d.Quiet) :
    (∀ s, d.what.after s = s) ∧ ∀ c, d.what = .called c → c.isCommand → ∃ name, c = .load name := by
  obtain ⟨stage, what⟩ := d
  obtain ⟨-, hwhat⟩ := h
  cases what with
  | called c =>
    refine ⟨fun _ => rfl, ?_⟩
    intro c' heq hc
    obtain rfl : c = c' := Happening.called.inj heq
    cases c with
    | load name => exact ⟨name, rfl⟩
    | asked => contradiction
    | _ => exact hwhat.elim
  | returned => exact ⟨fun _ => rfl, nofun⟩
  | _ => exact hwhat.elim

/-- An underway load has stored nothing and has not ended. -/
theorem Underway.not_settlement {ds : List Deed} (h : Underway ds) {d : Deed} (hd : d ∈ ds) :
    d.what.isSettlement = false := by
  obtain ⟨asset, quiet, rfl, hq⟩ := h
  rcases List.mem_cons.mp hd with rfl | hd
  · rfl
  · exact (hq d hd).not_settlement

/-- A load that is not superseded begins its closing by storing its result. -/
theorem Closing.commits {settings : SyncSettings} {o : Outcome} {closing : List Deed}
    (h : Closing settings (some o) closing) :
    (o = .superseded ∧ closing = []) ∨
      (o ≠ .superseded ∧ ∃ d ds, closing = d :: ds ∧ d.what.isCommit) := by
  cases h with
  | superseded => exact .inl ⟨rfl, rfl⟩
  | failed e => exact .inr ⟨nofun, _, _, rfl, rfl⟩
  | ready duration h => exact .inr ⟨nofun, _, _, rfl, rfl⟩
  | readyWithoutOverlap duration session h => exact .inr ⟨nofun, _, _, rfl, rfl⟩

theorem ended?_of_isCommit {what : Happening} (h : what.isCommit) : what.ended? = none := by
  cases what <;> first | rfl | contradiction

/-- What closes a load is not yet its end. -/
theorem Closing.ended? {settings : SyncSettings} {o : Outcome} {closing : List Deed}
    (h : Closing settings (some o) closing) {d : Deed} (hd : d ∈ closing) :
    d.what.ended? = none := by
  rcases h.commits with ⟨-, rfl⟩ | ⟨-, first, rest, rfl, hcommit⟩
  · exact absurd hd List.not_mem_nil
  · rcases List.mem_cons.mp hd with rfl | hd
    · exact ended?_of_isCommit hcommit
    · have htelling := h.telling hd
      obtain ⟨stage, what⟩ := d
      cases what <;> first | rfl | contradiction

/-- A load whose end is in the log has done what its outcome says. -/
theorem Run.Orderly.over_of_ended {run : Run} (h : run.Orderly) {e : Entry}
    (he : e ∈ run.world.log) {g number : Nat} {o : Outcome} (hg : e.isBy g)
    (ho : e.what = .ended number o) :
    Over run.world.settings number o (deedsIn g run.world.log) := by
  obtain ⟨d, hd, hwhat⟩ := mem_deedsIn he hg
  rw [ho] at hwhat
  have hend : d.what.ended? = some (number, o) := by rw [hwhat]; rfl
  rcases h.loads g with hnone | ⟨l, hl, rfl⟩ | ⟨number', o', hover⟩
  · rw [hnone] at hd
    exact absurd hd List.not_mem_nil
  · have hnot := ended?_eq_none ((h.inFlight l hl).2.not_settlement hd)
    rw [hend] at hnot
    contradiction
  · obtain ⟨before, closing, hbefore, hclosing, heq⟩ := id hover
    rw [heq, List.mem_append, List.mem_append, List.mem_singleton] at hd
    rcases hd with (hd | hd) | rfl
    · rw [ended?_eq_none (hbefore.not_settlement hd)] at hend
      contradiction
    · rw [hclosing.ended? hd] at hend
      contradiction
    · obtain ⟨rfl, rfl⟩ : number' = number ∧ o' = o := by simpa using hwhat
      exact hover

/-- Where the deeds of a load before its settlement are quiet, its attempt stops right there. -/
theorem exists_attempt {log : List Entry} {g : Nat} {asset : Asset} {quiet ds : List Deed}
    {d : Deed} (hd : d.what.isSettlement) (hq : ∀ q ∈ quiet, q.Quiet)
    (h : deedsIn g log = ⟨.pending, .began asset⟩ :: (quiet ++ d :: ds)) :
    ∃ before b x after, log = before ++ b :: (attempt g log ++ x :: after) ∧
      b.isBy g ∧ b.what.isBegin ∧ x.isBy g ∧ x.what = d.what := by
  have hhead : deedsIn g log = [] ++ ⟨.pending, .began asset⟩ :: (quiet ++ d :: ds) := h
  obtain ⟨before, b, rest, rfl, hbefore, hb, hbwhat, hrest⟩ := exists_entry hhead
  obtain ⟨mid, x, after, rfl, hmid, hx, hxwhat, -⟩ := exists_entry hrest
  have hbegin : b.what.isBegin := by rw [hbwhat]; rfl
  have hquiet : ∀ e ∈ mid, (e.isBy g && e.what.isSettlement) = false := by
    intro e he
    by_cases hg : e.isBy g
    · obtain ⟨q, hqmem, hqwhat⟩ := mem_deedsIn he hg
      rw [hmid] at hqmem
      rw [← hqwhat, (hq q hqmem).not_settlement, Bool.and_false]
    · rw [Bool.not_eq_true] at hg
      rw [hg, Bool.false_and]
  have hattempt : attempt g (before ++ b :: (mid ++ x :: after)) = mid :=
    attempt_eq (isBy_false_of_deedsIn_eq_nil hbefore) (by rw [hb, hbegin]; rfl) hquiet
      (by rw [hx, hxwhat, hd]; rfl)
  exact ⟨before, b, x, after, by rw [hattempt], hb, hbegin, hx, hxwhat⟩

theorem isSettlement_of_isCommit {what : Happening} (h : what.isCommit) : what.isSettlement := by
  cases what <;> first | rfl | contradiction

/-- The log around the attempt of a load that ended: it is followed by the end of a superseded load,
and by the commit of any other one. -/
theorem Over.exists_attempt {settings : SyncSettings} {log : List Entry} {g number : Nat}
    {o : Outcome} (h : Over settings number o (deedsIn g log)) :
    ∃ before b x after, log = before ++ b :: (attempt g log ++ x :: after) ∧
      b.isBy g ∧ b.what.isBegin ∧ x.isBy g ∧
      ((o = .superseded ∧ x.what = .ended number o) ∨ (o ≠ .superseded ∧ x.what.isCommit)) := by
  obtain ⟨_, closing, ⟨asset, quiet, rfl, hq⟩, hclosing, heq⟩ := h
  rcases hclosing.commits with ⟨hsup, rfl⟩ | ⟨hne, d, ds, rfl, hcommit⟩
  · rw [List.append_nil] at heq
    obtain ⟨before, b, x, after, hlog, hb, hbegin, hx, hwhat⟩ :=
      Sync.exists_attempt (d := ⟨.pending, .ended number o⟩) rfl hq heq
    exact ⟨before, b, x, after, hlog, hb, hbegin, hx, .inl ⟨hsup, hwhat⟩⟩
  · rw [List.append_assoc, List.cons_append] at heq
    obtain ⟨before, b, x, after, hlog, hb, hbegin, hx, hwhat⟩ :=
      Sync.exists_attempt (isSettlement_of_isCommit hcommit) hq heq
    exact ⟨before, b, x, after, hlog, hb, hbegin, hx, .inr ⟨hne, hwhat ▸ hcommit⟩⟩

/-- Who stores a result has the generation of the state. -/
theorem generation?_of_isCommit {s : State} {who : Actor} {what : Happening}
    (hp : Permitted s who what) (h : what.isCommit) : who.generation? = some s.generation := by
  cases what with
  | failed e =>
    obtain rfl : who = .load s.generation .failed := hp
    rfl
  | ready offset e =>
    obtain rfl : who = .load s.generation .ready := hp
    rfl
  | _ => contradiction

namespace Sound

variable {settings : SyncSettings} {log before after : List Entry} {x : Entry} {g : Nat}

/-- A load begins with the generation that counts itself. -/
theorem generation_of_isBegin (h : Sound settings log) (hlog : log = before ++ x :: after)
    (hx : x.isBy g) (hbegin : x.what.isBegin) : (stateAfter (before ++ [x])).generation = g := by
  have hrule := h before x after hlog
  rw [stateAfter_concat, hrule.state]
  obtain ⟨actor, what, s⟩ := x
  cases what <;> try contradiction
  obtain rfl : actor = .load _ .pending := hrule.permitted
  have hgen : (stateAfter before).generation + 1 = g := by
    simpa [Entry.isBy, Actor.generation?] using hx
  exact hgen

/-- A load stores its result in a state of its own generation. -/
theorem generation_of_isCommit (h : Sound settings log) (hlog : log = before ++ x :: after)
    (hx : x.isBy g) (hcommit : x.what.isCommit) : (stateAfter before).generation = g := by
  have hrule := (h before x after hlog).permitted
  obtain ⟨actor, what, s⟩ := x
  cases what <;> try contradiction
  · obtain rfl : actor = .load _ .failed := hrule
    simpa [Entry.isBy, Actor.generation?] using hx
  · obtain rfl : actor = .load _ .ready := hrule
    simpa [Entry.isBy, Actor.generation?] using hx

/-- A load ends superseded in a state of another generation. -/
theorem generation_of_superseded {number : Nat} (h : Sound settings log)
    (hlog : log = before ++ x :: after) (hx : x.isBy g)
    (hend : x.what = .ended number .superseded) : (stateAfter before).generation ≠ g := by
  have hrule := (h before x after hlog).permitted
  rw [hend] at hrule
  obtain ⟨g', hactor, hne⟩ := hrule
  rw [Entry.isBy, hactor, Actor.generation?, beq_iff_eq, Option.some.injEq] at hx
  exact hx ▸ hne rfl

/-- The generation moves on by the interruptions in between. -/
theorem generation_append {more : List Entry} (h : Sound settings log)
    (hlog : log = before ++ more ++ after) :
    (stateAfter (before ++ more)).generation =
      (stateAfter before).generation + more.countP (·.what.interrupts) := by
  rw [hlog] at h
  rw [generation_eq_countP h.of_append, generation_eq_countP h.of_append.of_append,
    List.countP_append]

end Sound

/-- A superseded load has done nothing but begin, ask, give the media its video, and end. -/
theorem Over.quiet_of_superseded {settings : SyncSettings} {log : List Entry} {g number : Nat}
    (h : Over settings number .superseded (deedsIn g log)) {d : Deed} (hd : d ∈ deedsIn g log) :
    d.what.isBegin ∨ d.Quiet ∨ d.what = .ended number .superseded := by
  obtain ⟨_, closing, ⟨asset, quiet, rfl, hq⟩, hclosing, heq⟩ := h
  cases hclosing
  rw [List.append_nil] at heq
  rw [heq] at hd
  simp only [List.cons_append, List.mem_cons, List.mem_append, List.not_mem_nil, or_false] at hd
  rcases hd with rfl | hd | rfl
  · exact .inl rfl
  · exact .inr (.inl (hq d hd))
  · exact .inr (.inr rfl)

/-- A load ends superseded exactly if another load began or the controller was detached after it
began and before it stored its result. In that case it has not changed the state since it began, and
the only command that it may have given is the one that loads its video into the media. -/
theorem superseded_iff_interrupted {run : Run} (h : run.Reachable) {e : Entry}
    (he : e ∈ run.world.log) {g number : Nat} {o : Outcome} (hg : e.isBy g)
    (ho : e.what = .ended number o) :
    (o = .superseded ↔ ∃ x ∈ attempt g run.world.log, x.what.interrupts) ∧
      (o = .superseded → ∀ before x after, run.world.log = before ++ x :: after → x.isBy g →
        x.what.isBegin ∨ x.state = stateAfter before ∧
          ∀ c, x.what = .called c → c.isCommand → ∃ name, c = .load name) := by
  obtain ⟨horderly, hcalm⟩ := h.orderly
  have hover := horderly.over_of_ended he hg ho
  have hsound := hcalm.sound
  constructor
  · obtain ⟨before, b, x, after, hlog, hb, hbegin, hx, hx'⟩ := hover.exists_attempt
    generalize attempt g run.world.log = mid at hlog ⊢
    have hstart : (stateAfter (before ++ [b])).generation = g :=
      hsound.generation_of_isBegin hlog hb hbegin
    rw [List.append_cons, ← List.append_assoc] at hlog
    have hcount := hsound.generation_append hlog
    rw [hstart] at hcount
    rw [← List.countP_pos_iff]
    constructor
    · rintro rfl
      obtain ⟨-, hend⟩ | ⟨hne, -⟩ := hx'
      · have hold := hsound.generation_of_superseded hlog hx hend
        omega
      · exact absurd rfl hne
    · intro hpos
      obtain ⟨hsup, -⟩ | ⟨-, hcommit⟩ := hx'
      · exact hsup
      · have hcurrent := hsound.generation_of_isCommit hlog hx hcommit
        omega
  · rintro rfl before x after hlog hx
    have hrule := hsound before x after hlog
    have hmem : x ∈ run.world.log := by
      rw [hlog]
      simp
    obtain ⟨d, hd, hwhat⟩ := mem_deedsIn hmem hx
    rcases hover.quiet_of_superseded hd with hbegin | hquiet | hend
    · exact .inl (hwhat ▸ hbegin)
    · obtain ⟨hstate, hcalls⟩ := hquiet.inert
      rw [hwhat] at hstate hcalls
      exact .inr ⟨hrule.state.trans (hstate _), hcalls⟩
    · rw [hwhat] at hend
      have hstate : x.state = stateAfter before := by
        rw [hrule.state, hend]
        rfl
      refine .inr ⟨hstate, ?_⟩
      intro c hc
      rw [hend] at hc
      contradiction

/-- A video whose type the hosts can play. -/
def clip : Asset := { name := "clip.mp4", mime := "video/mp4", source := .memory .empty }

/-- The controller is detached while it gives the media a video; then the container is read. -/
def detachedWhileOpening : Run :=
  Run.play World.reaction
    { world := { hosts := { session := ⟨0, 60⟩ }, armed := [⟨.load, .detach⟩] } }
    [.begin clip, .read 0]

theorem interrupted_of_detachedWhileOpening :
    detachedWhileOpening.Reachable ∧
      (∃ e ∈ detachedWhileOpening.world.log, e.isBy 1 ∧ e.what = .ended 0 .superseded) ∧
      ∃ x ∈ attempt 1 detachedWhileOpening.world.log, x.what.interrupts := by
  have hreach : detachedWhileOpening.Reachable :=
    (Run.Reachable.start _ _ _ _ _ _).play lawful_reaction _
  have hend : ⟨.load 1 .pending, .ended 0 .superseded, { generation := 2 }⟩ ∈
      detachedWhileOpening.world.log := List.mem_of_getElem? (i := 7) rfl
  exact ⟨hreach, ⟨_, hend, rfl, rfl⟩, (superseded_iff_interrupted hreach hend rfl rfl).1.mp rfl⟩

end VideoSync.Sync
