import VideoSync.Proofs.Sync.Reaction

/-
  What an operation leaves alone. `Frame mine v w` holds when the settings and bindings of `w` are
  those of `v`, the generation has not gone back, every host call that was made has returned, and
  no load but `mine` has done anything. Hosts keep it with `mine` being nobody
  (`frame_invariance`): from inside a call they cannot act for a load.

  `deeds` are the entries of one load. A load's operation adds deeds that the lemmas here name one
  by one, whatever the hosts do in between.
-/

namespace VideoSync.Sync

/-- The load that somebody is. -/
def Actor.generation? : Actor → Option Nat
  | load g _ => some g
  | outside => none

/-- Something that a load does, and how far it is then. -/
structure Deed where
  stage : Stage
  what : Happening
  deriving DecidableEq

/-- What the load of a generation does when somebody does something. -/
def Actor.deed? (who : Actor) (g : Nat) (what : Happening) : Option Deed :=
  match who with
  | load g' stage => if g' = g then some ⟨stage, what⟩ else none
  | outside => none

/-- All that the load of a generation does in a log. -/
def deedsIn (g : Nat) (log : List Entry) : List Deed :=
  log.filterMap fun e => e.actor.deed? g e.what

theorem deedsIn_append (g : Nat) (log more : List Entry) :
    deedsIn g (log ++ more) = deedsIn g log ++ deedsIn g more := List.filterMap_append

/-- How many host calls are open after an entry, if so many were open before it. -/
def Entry.count (e : Entry) (k : Nat) : Option Nat :=
  match e.what, k with
  | .called _, k => some (k + 1)
  | .returned _ _, 0 => none
  | .returned _ _, k + 1 => some k
  | _, k => some k

/-- How many host calls are open after a log, if so many were open before it; none where more calls
return than are open. -/
def openCalls (k : Nat) (log : List Entry) : Option Nat := log.foldlM (fun k e => e.count k) k

theorem openCalls_append (k : Nat) (log more : List Entry) :
    openCalls k (log ++ more) = (openCalls k log).bind (openCalls · more) := by
  simp [openCalls, List.foldlM_append]

theorem openCalls_cons (k : Nat) (e : Entry) (log : List Entry) :
    openCalls k (e :: log) = (e.count k).bind (openCalls · log) := by
  simp [openCalls]

theorem count_add {e : Entry} {k k' : Nat} (h : e.count k = some k') (n : Nat) :
    e.count (n + k) = some (n + k') := by
  obtain ⟨actor, what, s⟩ := e
  cases what with
  | called c =>
    obtain rfl : k + 1 = k' := Option.some.inj h
    rfl
  | returned m reply =>
    cases k with
    | zero => contradiction
    | succ k =>
      obtain rfl : k = k' := Option.some.inj h
      rfl
  | _ =>
    obtain rfl : k = k' := Option.some.inj h
    rfl

/-- Calls that are open already change nothing. -/
theorem openCalls_add {log : List Entry} {k m : Nat} (h : openCalls k log = some m) (n : Nat) :
    openCalls (n + k) log = some (n + m) := by
  induction log generalizing k with
  | nil =>
    obtain rfl : k = m := Option.some.inj h
    rfl
  | cons e log ih =>
    rw [openCalls_cons, Option.bind_eq_some_iff] at h
    obtain ⟨k', hk, hrest⟩ := h
    rw [openCalls_cons, count_add hk n]
    exact ih hrest

theorem deed?_of_ne {who : Actor} {g : Nat} (h : who.generation? ≠ some g) (what : Happening) :
    who.deed? g what = none := by
  cases who with
  | load g' stage =>
    have hne : g' ≠ g := fun heq => h (congrArg some heq)
    simp [Actor.deed?, hne]
  | outside => rfl

@[simp] theorem deed?_load (g : Nat) (stage : Stage) (what : Happening) :
    (Actor.load g stage).deed? g what = some ⟨stage, what⟩ := if_pos rfl

/-- One world comes after another, and apart from `mine` no load has done anything in between. -/
structure Frame (mine : Option Nat) (v w : World) : Prop where
  settings : w.settings = v.settings
  bindings : w.bindings = v.bindings
  generation : v.state.generation ≤ w.state.generation
  deeds : ∀ g, mine ≠ some g → deedsIn g w.log = deedsIn g v.log
  calls : ∀ k, openCalls 0 v.log = some k → openCalls 0 w.log = some k

namespace Frame

variable {mine : Option Nat} {u v w : World}

theorem refl (mine : Option Nat) (w : World) : Frame mine w w :=
  ⟨rfl, rfl, Nat.le_refl _, fun _ _ => rfl, fun _ hk => hk⟩

theorem trans (h₁ : Frame mine u v) (h₂ : Frame mine v w) : Frame mine u w where
  settings := h₂.settings.trans h₁.settings
  bindings := h₂.bindings.trans h₁.bindings
  generation := Nat.le_trans h₁.generation h₂.generation
  deeds g hg := (h₂.deeds g hg).trans (h₁.deeds g hg)
  calls k hk := h₂.calls k (h₁.calls k hk)

theorem deeds_of_ne {g g' : Nat} (h : Frame (some g) v w) (hne : g' ≠ g) :
    deedsIn g' w.log = deedsIn g' v.log := by
  refine h.deeds g' ?_
  intro heq
  exact hne (Option.some.inj heq).symm

end Frame

namespace World

variable {r : Reaction}

theorem deedsIn_become (w : World) (who : Actor) (what : Happening) (s : State) (g : Nat) :
    deedsIn g (w.become who what s).log = deedsIn g w.log ++ (who.deed? g what).toList := by
  show deedsIn g (w.log ++ [⟨who, what, s⟩]) = _
  cases h : who.deed? g what <;> simp [deedsIn, h]

theorem deedsIn_note (w : World) (who : Actor) (what : Happening) (g : Nat) :
    deedsIn g (w.note who what).log = deedsIn g w.log ++ (who.deed? g what).toList :=
  deedsIn_become w who what w.state g

theorem openCalls_become (w : World) (who : Actor) (what : Happening) (s : State) (k : Nat) :
    openCalls k (w.become who what s).log =
      (openCalls k w.log).bind (Entry.count ⟨who, what, s⟩) := by
  show openCalls k (w.log ++ [⟨who, what, s⟩]) = _
  rw [openCalls_append]
  simp [openCalls]

/-- An entry that is neither a call nor its return, in a state that is not older. -/
theorem frame_become {w : World} (who : Actor) {what : Happening} {s : State}
    (hg : w.state.generation ≤ s.generation) (hc : ∀ k, Entry.count ⟨who, what, s⟩ k = some k) :
    Frame who.generation? w (w.become who what s) where
  settings := rfl
  bindings := rfl
  generation := hg
  deeds g hne := by rw [deedsIn_become, deed?_of_ne hne]; simp
  calls k hk := by rw [openCalls_become, hk]; exact hc k

theorem frame_note {w : World} (who : Actor) {what : Happening}
    (hc : ∀ k, Entry.count ⟨who, what, w.state⟩ k = some k) :
    Frame who.generation? w (w.note who what) :=
  frame_become who (Nat.le_refl _) hc

theorem frame_callHost (hr : ∀ m v, Frame none v (r m v)) (who : Actor) (c : Call)
    (reply : Hosts → Reply) (w : World) : Frame who.generation? w (w.callHost r who c reply) := by
  have hin := hr c.method (w.note who (.called c))
  constructor
  · exact hin.settings
  · exact hin.bindings
  · exact hin.generation
  · intro g hne
    refine (deedsIn_note (r c.method (w.note who (.called c))) who _ g).trans ?_
    rw [hin.deeds g nofun, deedsIn_note, deed?_of_ne hne, deed?_of_ne hne]
    simp
  · intro k hk
    have hcalled : openCalls 0 (w.note who (.called c)).log = some (k + 1) := by
      refine (openCalls_become w who (.called c) w.state 0).trans ?_
      rw [hk]
      rfl
    refine (openCalls_become (r c.method (w.note who (.called c))) who _ _ 0).trans ?_
    rw [hin.calls _ hcalled]
    rfl

theorem frame_tell (hr : ∀ m v, Frame none v (r m v)) (who : Actor) (c : Call) (w : World) :
    Frame who.generation? w (w.tell r who c) := frame_callHost hr who c _ w

theorem frame_withHosts (mine : Option Nat) (w : World) (h : Hosts) :
    Frame mine w (w.withHosts h) := ⟨rfl, rfl, Nat.le_refl _, fun _ _ => rfl, fun _ hk => hk⟩

theorem frame_setCurrentTime (hr : ∀ m v, Frame none v (r m v)) (who : Actor) (seconds : Float)
    (w : World) : Frame who.generation? w (w.setCurrentTime r who seconds) :=
  (frame_withHosts _ w _).trans (frame_tell hr who _ _)

/-- A call that a load makes, and the return of that call, are deeds of the load. Nothing that the
hosts do in between is. -/
theorem deedsIn_callHost (hr : ∀ m v, Frame none v (r m v)) (g : Nat) (stage : Stage) (c : Call)
    (reply : Hosts → Reply) (w : World) :
    deedsIn g (w.callHost r (.load g stage) c reply).log =
      deedsIn g w.log ++ [⟨stage, .called c⟩,
        ⟨stage, .returned c.method (reply (w.callHost r (.load g stage) c reply).hosts)⟩] := by
  have hin := (hr c.method (w.note (.load g stage) (.called c))).deeds g nofun
  refine (deedsIn_note (r c.method (w.note (.load g stage) (.called c))) _ _ g).trans ?_
  rw [hin, deedsIn_note, deed?_load, deed?_load, Option.toList_some, Option.toList_some,
    List.append_assoc]
  rfl

theorem deedsIn_tell (hr : ∀ m v, Frame none v (r m v)) (g : Nat) (stage : Stage) (c : Call)
    (w : World) :
    deedsIn g (w.tell r (.load g stage) c).log =
      deedsIn g w.log ++ [⟨stage, .called c⟩, ⟨stage, .returned c.method .done⟩] :=
  deedsIn_callHost hr g stage c _ w

/-! ## What hosts may do -/

theorem frame_pushCursor (hr : ∀ m v, Frame none v (r m v)) (w : World) :
    Frame none w (w.pushCursor r) := by
  unfold World.pushCursor
  split
  · exact .refl none w
  · exact (frame_callHost hr .outside _ _ w).trans (frame_tell hr .outside _ _)

theorem seekStarted_generation (s : State) : s.seekStarted.generation = s.generation := by
  unfold State.seekStarted
  split <;> rfl

theorem seekEnded_generation (s : State) : s.seekEnded.generation = s.generation := by
  unfold State.seekEnded
  split <;> rfl

theorem frame_mediaEvent (hr : ∀ m v, Frame none v (r m v)) (e : MediaEvent) (w : World) :
    Frame none w (w.mediaEvent r e) := by
  cases e with
  | seekingStart =>
    exact frame_become .outside (Nat.le_of_eq (seekStarted_generation w.state).symm)
      fun _ => rfl
  | seekingEnd =>
    have hend : Frame none w (w.become .outside (.event .seekingEnd) w.state.seekEnded) :=
      frame_become .outside (Nat.le_of_eq (seekEnded_generation w.state).symm) fun _ => rfl
    unfold World.mediaEvent
    dsimp only
    split
    · exact hend.trans (frame_pushCursor hr _)
    · exact hend
  | timeProgressed =>
    exact (frame_note .outside fun _ => rfl).trans (frame_pushCursor hr _)

theorem frame_requestSeek (hr : ∀ m v, Frame none v (r m v)) (seconds : Float) (w : World) :
    Frame none w (w.requestSeek r seconds).1 := by
  unfold World.requestSeek
  split
  · exact .refl none w
  · have hasked := frame_callHost hr .outside (.asked .paused) (.paused ·.paused) w
    dsimp only
    split
    · exact hasked.trans (frame_setCurrentTime hr .outside _ _)
    · exact hasked

/-- Whatever hosts do during a call, no load acts, and each call that they cause returns. -/
theorem frame_invariance : Invariance (Frame none) where
  refl := .refl none
  trans := .trans
  hosts := frame_withHosts none
  armed _ _ := ⟨rfl, rfl, Nat.le_refl _, fun _ _ => rfl, fun _ hk => hk⟩
  reacted _ _ _ := frame_note .outside fun _ => rfl
  event hr e w := frame_mediaEvent hr e w
  seek hr seconds w := frame_requestSeek hr seconds w
  detach _ := frame_become .outside (Nat.le_succ _) fun _ => rfl

theorem frame_lawful (hr : Lawful r) (m : Method) (v : World) : Frame none v (r m v) :=
  frame_invariance.lawful hr m v

end World
end VideoSync.Sync
