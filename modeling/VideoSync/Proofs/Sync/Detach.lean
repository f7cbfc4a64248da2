import VideoSync.Proofs.Sync.Staleness

/-
  What a controller does after a detach. Until the next load begins its state stays blank, whatever
  happens. It may still give commands: a host call that was open at the detach returns into an
  operation that looks at the state no more and goes on with its next call. The theorem
  `commands_after_detach` says that this is the only way: there is a command exactly if one of the
  calls open at the detach returns where the rule of the log makes another call due. A detach from
  outside any host call is followed by none.

  The reason is that nobody holds the generation of a blank state: loads begun before have an older
  one, and queries apart from those of a load need a live controller.
-/

namespace VideoSync.Sync

/-- A state that knows nothing. -/
def State.Blank (s : State) : Prop := s = { generation := s.generation }

/-- The returns of calls that were open before, in a log that starts with `k` other open calls. -/
def overdue (k : Nat) : List Entry → List Entry
  | [] => []
  | e :: log =>
    match e.count k with
    | some k' => overdue k' log
    | none => e :: overdue k log

/-! ## Open calls -/

theorem count_eq_none {e : Entry} {k : Nat} (h : e.count k = none) :
    k = 0 ∧ ∃ m reply, e.what = .returned m reply := by
  obtain ⟨actor, what, s⟩ := e
  cases what with
  | returned m reply =>
    cases k with
    | zero => exact ⟨rfl, m, reply, rfl⟩
    | succ k => contradiction
  | _ => contradiction

theorem count_le_of_not_called {e : Entry} {k k' : Nat} (h : ∀ c, e.what ≠ .called c)
    (hk : e.count k = some k') : k' ≤ k := by
  obtain ⟨actor, what, s⟩ := e
  cases what with
  | called c => exact absurd rfl (h c)
  | returned m reply =>
    cases k with
    | zero => contradiction
    | succ k =>
      obtain rfl : k = k' := Option.some.inj hk
      exact Nat.le_succ k
  | _ => exact Nat.le_of_eq (Option.some.inj hk).symm

theorem count_returned {e : Entry} {m : Method} {reply : Reply} (h : e.what = .returned m reply)
    (k : Nat) : e.count 0 = none ∧ e.count (k + 1) = some k := by
  obtain ⟨actor, what, s⟩ := e
  obtain rfl : what = .returned m reply := h
  exact ⟨rfl, rfl⟩

/-- No more calls are overdue than are open. -/
theorem length_overdue_le {log : List Entry} {n k m : Nat} (h : openCalls (n + k) log = some m) :
    (overdue k log).length ≤ n := by
  induction log generalizing n k with
  | nil => exact Nat.zero_le n
  | cons e log ih =>
    rw [openCalls_cons] at h
    unfold overdue
    cases hk : e.count k with
    | some k' =>
      rw [count_add hk n] at h
      exact ih h
    | none =>
      obtain ⟨rfl, r, reply, hwhat⟩ := count_eq_none hk
      cases n with
      | zero =>
        rw [Nat.zero_add, hk] at h
        contradiction
      | succ n =>
        rw [Nat.add_zero, (count_returned hwhat n).2] at h
        exact Nat.succ_le_succ (ih h)

theorem mem_of_mem_overdue {log : List Entry} {k : Nat} {e : Entry} (h : e ∈ overdue k log) :
    e ∈ log ∧ ∃ m reply, e.what = .returned m reply := by
  induction log generalizing k with
  | nil => exact absurd h List.not_mem_nil
  | cons x log ih =>
    unfold overdue at h
    cases hk : x.count k with
    | some k' =>
      rw [hk] at h
      exact ⟨List.mem_cons_of_mem x (ih h).1, (ih h).2⟩
    | none =>
      rw [hk] at h
      rcases List.mem_cons.mp h with rfl | h
      · exact ⟨List.mem_cons_self, (count_eq_none hk).2⟩
      · exact ⟨List.mem_cons_of_mem x (ih h).1, (ih h).2⟩

/-- Where no call is made every return is overdue. -/
theorem mem_overdue {before after : List Entry} {e : Entry} {m : Method} {reply : Reply}
    (h : ∀ x ∈ before, ∀ c, x.what ≠ .called c) (he : e.what = .returned m reply) :
    e ∈ overdue 0 (before ++ e :: after) := by
  induction before with
  | nil =>
    rw [List.nil_append, overdue, (count_returned he 0).1]
    exact List.mem_cons_self
  | cons x before ih =>
    have hrest := ih fun y hy => h y (List.mem_cons_of_mem x hy)
    rw [List.cons_append, overdue]
    cases hk : x.count 0 with
    | none => exact List.mem_cons_of_mem x hrest
    | some k =>
      obtain rfl : k = 0 := Nat.le_zero.mp (count_le_of_not_called (h x List.mem_cons_self) hk)
      exact hrest

theorem mem_overdue_append {log : List Entry} {k : Nat} {e : Entry} (h : e ∈ overdue k log)
    (more : List Entry) : e ∈ overdue k (log ++ more) := by
  induction log generalizing k with
  | nil => exact absurd h List.not_mem_nil
  | cons x log ih =>
    rw [overdue] at h
    rw [List.cons_append, overdue]
    cases hk : x.count k with
    | some k' =>
      rw [hk] at h
      exact ih h
    | none =>
      rw [hk] at h
      rcases List.mem_cons.mp h with rfl | h
      · exact List.mem_cons_self
      · exact List.mem_cons_of_mem x (ih h)

/-! ## Blank states -/

theorem blank_reset (s : State) : s.reset.Blank := rfl

theorem State.Blank.isLive {s : State} (h : s.Blank) : s.isLive = false := by
  rw [State.Blank] at h
  rw [h]
  rfl

/-- A blank state stays blank unless a load begins or somebody has its generation. -/
theorem State.Blank.after {s : State} (h : s.Blank) {who : Actor} {what : Happening}
    (hb : what.isBegin = false) (hp : Permitted s who what)
    (hwho : who.generation? ≠ some s.generation) : (what.after s).Blank := by
  cases what with
  | began asset => contradiction
  | failed e =>
    obtain rfl : who = .load s.generation .failed := hp
    exact absurd rfl hwho
  | ready offset e =>
    obtain rfl : who = .load s.generation .ready := hp
    exact absurd rfl hwho
  | event e =>
    have hphase : s.phase ≠ .ready := by
      rw [h]
      nofun
    cases e with
    | seekingStart =>
      rw [Happening.after, State.seekStarted, if_neg hphase]
      exact h
    | seekingEnd =>
      rw [Happening.after, State.seekEnded, if_neg hphase]
      exact h
    | timeProgressed => exact h
  | detached => exact blank_reset s
  | _ => exact h

/-- In a blank state whose generation nobody has, the only calls made are those that are due. -/
theorem State.Blank.followsUp {s : State} (h : s.Blank) {who : Actor} {c : Call}
    (hp : Permitted s who (.called c)) (hwho : who.generation? ≠ some s.generation) :
    c.followsUp := by
  have hdead : ¬ s.isLive := by
    rw [h.isLive]
    exact Bool.false_ne_true
  cases c with
  | asked m =>
    cases m with
    | duration =>
      obtain rfl : who = .load s.generation .pending := hp
      exact absurd rfl hwho
    | sessionTimeline =>
      obtain rfl : who = .load s.generation .pending := hp
      exact absurd rfl hwho
    | currentTime => exact absurd hp.2 hdead
    | paused => exact absurd hp.2 hdead
    | _ => exact hp
  | _ => exact hp

/-! ## What makes a call due -/

theorem Entry.what_of_due? {settings : SyncSettings} {e : Entry} {p : Actor × Method}
    (h : e.due? settings = some p) :
    e.what.isBegin ∨ e.what.isCommit ∨ ∃ m reply, e.what = .returned m reply := by
  obtain ⟨who, what, s⟩ := e
  cases what with
  | began asset => exact .inl rfl
  | failed e => exact .inr (.inl rfl)
  | ready offset e => exact .inr (.inl rfl)
  | returned m reply => exact .inr (.inr ⟨m, reply, rfl⟩)
  | _ => rcases who with ⟨g, _ | _ | _⟩ | _ <;> contradiction

/-- No return of a call leads to the first question of a load. -/
theorem due?_ne_canPlayType {settings : SyncSettings} {who : Actor} {e : Entry} {m : Method}
    {reply : Reply} (he : e.what = .returned m reply) :
    e.due? settings ≠ some (who, .canPlayType) := by
  rw [Entry.due?, he]
  unfold due?
  split
  · contradiction
  all_goals simp

theorem called_of_followUp? {who : Actor} {what : Happening} {p : Actor × Method}
    (h : what.followUp? who = some p) :
    ∃ c, what = .called c ∧ c.followsUp ∧ p = (who, c.method) := by
  cases what with
  | called c =>
    rw [Happening.followUp?] at h
    split at h
    · next hc => exact ⟨c, rfl, hc, (Option.some.inj h).symm⟩
    · contradiction
  | _ => contradiction

/-! ## The generation of a blank state -/

/-- A load has begun before it does anything else. -/
theorem Run.Orderly.begun_before {run : Run} (h : run.Orderly) {before after : List Entry}
    {e : Entry} (hlog : run.world.log = before ++ e :: after) {g : Nat} (hg : e.isBy g) :
    e.what.isBegin ∨ ∃ b ∈ before, b.isBy g ∧ b.what.isBegin := by
  have hhead : ∃ asset ds, deedsIn g run.world.log = [] ++ ⟨.pending, .began asset⟩ :: ds := by
    rcases h.loads g with hnone | ⟨l, hl, rfl⟩ | ⟨number, o, hover⟩
    · have he := isBy_false_of_deedsIn_eq_nil hnone e (by rw [hlog]; simp)
      rw [hg] at he
      contradiction
    · obtain ⟨asset, quiet, heq, -⟩ := (h.inFlight l hl).2
      exact ⟨asset, quiet, heq⟩
    · obtain ⟨_, closing, ⟨asset, quiet, rfl, -⟩, -, heq⟩ := hover
      exact ⟨asset, _, heq⟩
  obtain ⟨asset, ds, hds⟩ := hhead
  obtain ⟨first, b, later, hsplit, hfirst, hb, hwhat, -⟩ := exists_entry hds
  have hbegin : b.what.isBegin := by
    rw [hwhat]
    rfl
  rw [hlog] at hsplit
  rcases List.append_eq_append_iff.mp hsplit with ⟨more, rfl, hrest⟩ | ⟨more, rfl, hrest⟩
  · cases more with
    | nil =>
      obtain ⟨rfl, -⟩ := List.cons.inj hrest
      exact .inl hbegin
    | cons x more =>
      obtain ⟨rfl, -⟩ := List.cons.inj hrest
      have he := isBy_false_of_deedsIn_eq_nil hfirst e (by simp)
      rw [hg] at he
      contradiction
  · cases more with
    | nil =>
      obtain ⟨rfl, -⟩ := List.cons.inj hrest
      exact .inl hbegin
    | cons x more =>
      obtain ⟨rfl, -⟩ := List.cons.inj hrest
      exact .inr ⟨b, by simp, hb, hbegin⟩

section AfterDetach

variable {run : Run} {pre post rest : List Entry} {d : Entry}

/-- Nobody has the generation of the state after a detach until another load begins. -/
theorem Run.Orderly.generation?_ne (h : run.Orderly)
    (hsound : Sound run.world.settings run.world.log) {mid after : List Entry} {e : Entry}
    (hlog : run.world.log = pre ++ d :: (mid ++ e :: after)) (hd : d.what = .detached)
    (hmid : ∀ x ∈ mid, x.what.isBegin = false) (he : e.what.isBegin = false) :
    e.actor.generation? ≠ some (stateAfter (pre ++ d :: mid)).generation := by
  intro hg
  have hsplit : run.world.log = (pre ++ d :: mid) ++ e :: after := by
    rw [hlog, List.append_assoc, List.cons_append]
  have hby : e.isBy (stateAfter (pre ++ d :: mid)).generation := by
    rw [Entry.isBy, hg]
    exact beq_self_eq_true _
  rcases h.begun_before hsplit hby with hbegin | ⟨b, hb, hbby, hbegin⟩
  · rw [he] at hbegin
    contradiction
  have hbpre : b ∈ pre := by
    rcases List.mem_append.mp hb with hb | hb
    · exact hb
    · rcases List.mem_cons.mp hb with rfl | hb
      · rw [hd] at hbegin
        contradiction
      · rw [hmid b hb] at hbegin
        contradiction
  obtain ⟨pre₁, pre₂, rfl⟩ := List.append_of_mem hbpre
  have hbegun : run.world.log = pre₁ ++ b :: (pre₂ ++ d :: (mid ++ e :: after)) := by
    rw [hlog, List.append_assoc, List.cons_append]
  have hstart := hsound.generation_of_isBegin hbegun hbby hbegin
  have hpassed : run.world.log = (pre₁ ++ [b]) ++ (pre₂ ++ d :: mid) ++ e :: after := by
    rw [hbegun]
    simp
  have hcount := hsound.generation_append hpassed
  have hpos : 0 < (pre₂ ++ d :: mid).countP (·.what.interrupts) :=
    List.countP_pos_iff.mpr ⟨d, by simp, by rw [hd]; rfl⟩
  have hsame : (pre₁ ++ [b]) ++ (pre₂ ++ d :: mid) = (pre₁ ++ b :: pre₂) ++ d :: mid := by simp
  rw [hsame, hstart] at hcount
  omega

/-- The state stays blank until another load begins. -/
theorem Run.Orderly.blank (h : run.Orderly) (hsound : Sound run.world.settings run.world.log)
    {mid after : List Entry} (hlog : run.world.log = pre ++ d :: (mid ++ after))
    (hd : d.what = .detached) (hmid : ∀ x ∈ mid, x.what.isBegin = false) :
    (stateAfter (pre ++ d :: mid)).Blank := by
  induction mid using List.reverseRecOn generalizing after with
  | nil =>
    have hrule := hsound pre d after hlog
    rw [stateAfter_concat, hrule.state, hd]
    exact blank_reset _
  | append_singleton mid e ih =>
    have hbefore : ∀ x ∈ mid, x.what.isBegin = false :=
      fun x hx => hmid x (List.mem_append_left _ hx)
    have he : e.what.isBegin = false := hmid e (by simp)
    rw [List.append_assoc, List.singleton_append] at hlog
    have hrule := hsound (pre ++ d :: mid) e after (by rw [hlog]; simp)
    have hstate : stateAfter (pre ++ d :: (mid ++ [e])) = e.state := by
      rw [← List.cons_append, ← List.append_assoc, stateAfter_concat]
    rw [hstate, hrule.state]
    exact (ih hlog hbefore).after he hrule.permitted (h.generation?_ne hsound hlog hd hbefore he)

/-- Until another load begins only returns of host calls make calls due. -/
theorem Run.Orderly.returned_of_due (h : run.Orderly)
    (hsound : Sound run.world.settings run.world.log) {mid after : List Entry} {e : Entry}
    (hlog : run.world.log = pre ++ d :: (mid ++ e :: after)) (hd : d.what = .detached)
    (hmid : ∀ x ∈ mid, x.what.isBegin = false) (he : e.what.isBegin = false)
    {p : Actor × Method} (hdue : e.due? run.world.settings = some p) :
    ∃ m reply, e.what = .returned m reply := by
  rcases e.what_of_due? hdue with hbegin | hcommit | hreturned
  · rw [he] at hbegin
    contradiction
  · have hrule := hsound (pre ++ d :: mid) e after (by rw [hlog]; simp)
    exact absurd (generation?_of_isCommit hrule.permitted hcommit)
      (h.generation?_ne hsound hlog hd hmid he)
  · exact hreturned

/-- If no overdue call has a consequence, none is made until another load begins. -/
theorem Run.Orderly.not_called (h : run.Orderly)
    (hsound : Sound run.world.settings run.world.log) {mid after : List Entry}
    (hlog : run.world.log = pre ++ d :: (mid ++ after)) (hd : d.what = .detached)
    (hmid : ∀ x ∈ mid, x.what.isBegin = false)
    (howed : ∀ e ∈ overdue 0 mid, e.due? run.world.settings = none) :
    ∀ e ∈ mid, ∀ c, e.what ≠ .called c := by
  induction mid using List.reverseRecOn generalizing after with
  | nil => exact fun _ he => absurd he List.not_mem_nil
  | append_singleton mid e ih =>
    have hbefore : ∀ x ∈ mid, x.what.isBegin = false :=
      fun x hx => hmid x (List.mem_append_left _ hx)
    have howed' : ∀ y ∈ overdue 0 mid, y.due? run.world.settings = none :=
      fun y hy => howed y (mem_overdue_append hy [e])
    rw [List.append_assoc, List.singleton_append] at hlog
    have hnone := ih hlog hbefore howed'
    intro x hx c hc
    rcases List.mem_append.mp hx with hx | hx
    · exact hnone x hx c hc
    obtain rfl : x = e := List.mem_singleton.mp hx
    have hx' : x.what.isBegin = false := hmid x (by simp)
    have hrule := hsound (pre ++ d :: mid) x after (by rw [hlog]; simp)
    have hpermitted := hrule.permitted
    rw [hc] at hpermitted
    have hfollows := (h.blank hsound hlog hd hbefore).followsUp hpermitted
      (h.generation?_ne hsound hlog hd hbefore hx')
    have hdue := hrule.due
    rw [hc, Happening.followUp?, if_pos hfollows] at hdue
    -- The entry before the call owes it.
    rcases List.eq_nil_or_concat mid with rfl | ⟨earlier, y, rfl⟩
    · rw [dueAfter_concat] at hdue
      rcases Entry.what_of_due? hdue with hbegin | hcommit | ⟨m, reply, hreturned⟩
      · rw [hd] at hbegin
        contradiction
      · rw [hd] at hcommit
        contradiction
      · rw [hd] at hreturned
        contradiction
    · rw [List.concat_eq_append] at hdue hbefore hnone hlog howed'
      rw [← List.cons_append, ← List.append_assoc, dueAfter_concat] at hdue
      have hy : y.what.isBegin = false := hbefore y (by simp)
      have hrest : run.world.log = pre ++ d :: (earlier ++ y :: (x :: after)) := by
        rw [hlog]
        simp
      obtain ⟨m, reply, hreturned⟩ := h.returned_of_due hsound hrest hd
        (fun z hz => hbefore z (by simp [hz])) hy hdue
      have hover : y ∈ overdue 0 (earlier ++ [y]) :=
        mem_overdue (fun z hz => hnone z (by simp [hz])) hreturned
      rw [howed' y hover] at hdue
      contradiction

/-- What the return of a call makes due is a command, and it is given. -/
theorem exists_command (hcalm : run.world.Calm) {before after : List Entry} {e : Entry}
    {m : Method} {reply : Reply} (hlog : run.world.log = before ++ e :: after)
    (he : e.what = .returned m reply) {p : Actor × Method}
    (hdue : e.due? run.world.settings = some p) :
    ∃ x more c, after = x :: more ∧ x.what = .called c ∧ c.isCommand := by
  cases after with
  | nil =>
    have hnone : dueAfter run.world.settings run.world.log = none := hcalm.due
    rw [hlog, dueAfter_concat, hdue] at hnone
    contradiction
  | cons x more =>
    have hrule := (hcalm.sound (before ++ [e]) x more (by rw [hlog]; simp)).due
    rw [dueAfter_concat, hdue] at hrule
    obtain ⟨c, hc, hfollows, rfl⟩ := called_of_followUp? hrule.symm
    rcases Bool.or_eq_true_iff.mp hfollows with hcommand | hasked
    · exact ⟨x, more, c, rfl, hc, hcommand⟩
    · rw [decide_eq_true_eq] at hasked
      rw [hasked, Call.method] at hdue
      exact absurd hdue (due?_ne_canPlayType he)

/-- What a controller does from a detach until another load begins. Its state stays blank. It gives
commands exactly if the return of a call that was open at the detach makes another call due; there
are no more such returns than calls that were open. -/
theorem commands_after_detach (h : run.Reachable)
    (hlog : run.world.log = pre ++ d :: (post ++ rest)) (hd : d.what = .detached)
    (hpost : ∀ e ∈ post, e.what.isBegin = false) (hrest : ∀ b ∈ rest.head?, b.what.isBegin) :
    (∀ e ∈ d :: post, e.state.Blank) ∧
      ((∀ e ∈ post, ∀ c, e.what = .called c → ¬ c.isCommand) ↔
        ∀ e ∈ overdue 0 post, e.due? run.world.settings = none) ∧
      ∃ n, openCalls 0 pre = some n ∧ (overdue 0 post).length ≤ n := by
  obtain ⟨horderly, hcalm⟩ := h.orderly
  have hsound := hcalm.sound
  refine ⟨?_, ⟨?_, ?_⟩, ?_⟩
  · intro e he
    rcases List.mem_cons.mp he with rfl | he
    · have hfirst : run.world.log = pre ++ e :: ([] ++ (post ++ rest)) := hlog
      have hblank := horderly.blank hsound hfirst hd fun _ hx => absurd hx List.not_mem_nil
      rw [stateAfter_concat] at hblank
      exact hblank
    · obtain ⟨before, after, rfl⟩ := List.append_of_mem he
      have hsplit : run.world.log = pre ++ d :: ((before ++ [e]) ++ (after ++ rest)) := by
        rw [hlog]
        simp
      have hblank := horderly.blank hsound hsplit hd fun x hx => hpost x (by simp at hx ⊢; tauto)
      rw [← List.cons_append, ← List.append_assoc, stateAfter_concat] at hblank
      exact hblank
  · intro hnone e he
    obtain ⟨hmem, m, reply, hreturned⟩ := mem_of_mem_overdue he
    obtain ⟨before, after, rfl⟩ := List.append_of_mem hmem
    cases hdue : e.due? run.world.settings with
    | none => rfl
    | some p =>
      have hsplit : run.world.log = (pre ++ d :: before) ++ e :: (after ++ rest) := by
        rw [hlog]
        simp
      obtain ⟨x, more, c, hafter, hc, hcommand⟩ := exists_command hcalm hsplit hreturned hdue
      rcases List.append_eq_cons_iff.mp hafter with ⟨rfl, hrest'⟩ | ⟨after', rfl, -⟩
      · have hbegin := hrest x (by rw [hrest']; rfl)
        rw [hc] at hbegin
        contradiction
      · exact absurd hcommand (hnone x (by simp) c hc)
  · intro howed e he c hc _
    exact horderly.not_called hsound hlog hd hpost howed e he c hc
  · have hcalls := horderly.calls
    rw [hlog, openCalls_append, Option.bind_eq_some_iff] at hcalls
    obtain ⟨n, hn, hcalls⟩ := hcalls
    have hcount : d.count n = some n := by
      unfold Entry.count
      rw [hd]
    rw [openCalls_cons, hcount, Option.bind_some, openCalls_append, Option.bind_eq_some_iff]
      at hcalls
    obtain ⟨k, hk, -⟩ := hcalls
    exact ⟨n, hn, length_overdue_le hk⟩

end AfterDetach

/-- A detach from inside the call that gives the media its video is not followed by a command: the
load looks at the state again before its next call. -/
theorem silent_after_detachedWhileOpening :
    detachedWhileOpening.Reachable ∧ ∃ pre d post,
      detachedWhileOpening.world.log = pre ++ d :: post ∧ d.what = .detached ∧
      (∀ e ∈ post, e.what.isBegin = false) ∧ overdue 0 post ≠ [] ∧
      ∀ e ∈ post, ∀ c, e.what = .called c → ¬ c.isCommand := by
  have hreach : detachedWhileOpening.Reachable :=
    (Run.Reachable.start _ _ _ _ _ _).play lawful_reaction _
  have hlog : detachedWhileOpening.world.log = detachedWhileOpening.world.log.take 4 ++
      ⟨.outside, .detached, { generation := 2 }⟩ ::
        (detachedWhileOpening.world.log.drop 5 ++ []) := rfl
  have hpost : ∀ e ∈ detachedWhileOpening.world.log.drop 5, e.what.isBegin = false := by decide
  have hafter := commands_after_detach hreach hlog rfl hpost (by simp)
  refine ⟨hreach, _, _, _, by rw [List.append_nil] at hlog; exact hlog, rfl, hpost,
    List.cons_ne_nil _ _, ?_⟩
  exact hafter.2.1.mpr (by decide)

/-- The controller is detached while it asks whether the type of a video can be played. -/
def detachedWhileAsking : Run :=
  Run.play World.reaction
    { world := { hosts := { session := ⟨0, 60⟩ }, armed := [⟨.canPlayType, .detach⟩] } }
    [.begin clip]

/-- It gives the media the video nevertheless. -/
theorem load_after_detachedWhileAsking :
    detachedWhileAsking.Reachable ∧ ∃ pre d post,
      detachedWhileAsking.world.log = pre ++ d :: post ∧ d.what = .detached ∧
      (∀ e ∈ post, e.what.isBegin = false) ∧
      ∃ e ∈ post, e.what = .called (.load clip.name) := by
  have hreach : detachedWhileAsking.Reachable :=
    (Run.Reachable.start _ _ _ _ _ _).play lawful_reaction _
  have hlog : detachedWhileAsking.world.log = detachedWhileAsking.world.log.take 2 ++
      ⟨.outside, .detached, { generation := 2 }⟩ :: detachedWhileAsking.world.log.drop 3 := rfl
  exact ⟨hreach, _, _, _, hlog, rfl, by decide, _, List.mem_of_getElem? (i := 2) rfl, rfl⟩

end VideoSync.Sync
