import VideoSync.Proofs.Sync.Course
import VideoSync.Proofs.Sync.Shape

/-
  What loads hold on to. A load gets what it needs at different moments, with other loads in
  between: its video when it begins, the creation time when its container is read, and the session
  when its last stage asks for it. `Aligns` says what a stage of a load does with them, and `Traced`
  says of all loads of a run that they have kept what they got: a load in flight has not been told
  any session, and waits for its own container or knows the creation time from it; a load that ended
  in sync did so with the alignment of this creation time and the one session that it was told.

  What it means that a container was read is a parameter of `Traced`, since moves only pass it on.
  Reachable runs are traced with `Run.WasRead`, which names the run in which the container was read
  (`Run.Reachable.traced`).
-/

namespace VideoSync.Sync

open VideoSync.Timeline (Session align)

/-- The session that a host names. -/
def Happening.session? : Happening → Option Session
  | returned _ (.session session) => some session
  | _ => none

/-- The sessions that a load was told, given its deeds. -/
def sessionsTold (ds : List Deed) : List Session := ds.filterMap (·.what.session?)

/-- How a video lies that a load has synced. -/
def Outcome.alignment? : Outcome → Option Timeline.Alignment
  | ready a | readyWithoutOverlap a => some a
  | superseded | failed _ => none

theorem sessionsTold_append (ds more : List Deed) :
    sessionsTold (ds ++ more) = sessionsTold ds ++ sessionsTold more := List.filterMap_append

theorem sessionsTold_cons {d : Deed} {ds : List Deed} (h : d.what.session? = none) :
    sessionsTold (d :: ds) = sessionsTold ds := List.filterMap_cons_none h

/-- Who tells hosts what to do is not told any session. -/
theorem sessionsTold_of_telling {ds : List Deed} (h : ∀ d ∈ ds, d.Telling) :
    sessionsTold ds = [] := by
  refine List.filterMap_eq_nil_iff.mpr fun d hd => ?_
  have htelling := h d hd
  obtain ⟨stage, what⟩ := d
  cases what with
  | returned m reply => cases reply <;> first | rfl | contradiction
  | _ => rfl

/-! ## Stages -/

/-- A stage of a load whose video was created at some time. If the load ends in sync, it does so
with the alignment of the session that it was told in this stage, and it is told none if it goes
on. -/
structure Aligns (g : Nat) (creation : Int) (w w' : World) (o : Option Outcome) : Prop where
  onward : o = none →
    sessionsTold (deedsIn g w'.log) = sessionsTold (deedsIn g w.log)
  aligned : ∀ {o' a}, o = some o' → o'.alignment? = some a →
    ∃ seconds session, a = align creation seconds session ∧
      sessionsTold (deedsIn g w'.log) = sessionsTold (deedsIn g w.log) ++ [session]

namespace Aligns

variable {g : Nat} {creation : Int} {u v w : World} {o : Option Outcome}

/-- A stage in which the load does not end in sync, nor is told any session if it goes on. -/
theorem of_not_aligned (hsame : o = none →
      sessionsTold (deedsIn g w.log) = sessionsTold (deedsIn g v.log))
    (hnone : ∀ o', o = some o' → o'.alignment? = none) : Aligns g creation v w o where
  onward := hsame
  aligned ho ha := by
    rw [hnone _ ho] at ha
    contradiction

/-- Before a stage the load is told no session. -/
theorem of_told (hsame : sessionsTold (deedsIn g v.log) = sessionsTold (deedsIn g u.log))
    (h : Aligns g creation v w o) : Aligns g creation u w o where
  onward ho := (h.onward ho).trans hsame
  aligned ho ha := hsame ▸ h.aligned ho ha

end Aligns

namespace World

variable {r : Reaction} {g : Nat}

theorem sessionsTold_ask (hr : Lawful r) (m : Method) (reply : Hosts → Reply) (w : World) :
    sessionsTold (deedsIn g (w.ask r (.load g .pending) m reply).log) =
      sessionsTold (deedsIn g w.log) ++ (Happening.returned m
        (reply (w.ask r (.load g .pending) m reply).hosts)).session?.toList := by
  have hcalled : (Happening.called (.asked m)).session? = none := rfl
  have hreturned (what : Happening) : sessionsTold
      [⟨.pending, .called (.asked m)⟩, ⟨.pending, what⟩] = what.session?.toList := by
    cases h : what.session? <;> simp [sessionsTold, hcalled, h]
  unfold ask
  rw [deedsIn_callHost (frame_lawful hr), sessionsTold_append, hreturned]
  rfl

/-- A question for something else than the session. -/
theorem sessionsTold_query (hr : Lawful r) (m : Method) (reply : Hosts → Reply)
    (hreply : ∀ h, (Happening.returned m (reply h)).session? = none) (w : World) :
    sessionsTold (deedsIn g (w.ask r (.load g .pending) m reply).log) =
      sessionsTold (deedsIn g w.log) := by
  rw [sessionsTold_ask hr, hreply]
  exact List.append_nil _

theorem sessionsTold_tell (hr : Lawful r) (stage : Stage) (c : Call) (w : World) :
    sessionsTold (deedsIn g (w.tell r (.load g stage) c).log) = sessionsTold (deedsIn g w.log) := by
  rw [deedsIn_tell (frame_lawful hr), sessionsTold_append]
  exact (congrArg _ (sessionsTold_of_telling fun _ => telling_of_mem_told)).trans
    (List.append_nil _)

theorem alignment?_fail (e : Error) (w : World) : (w.fail r g e).2.alignment? = none := by
  unfold fail
  split <;> rfl

theorem sessionsTold_enterReady (hr : Lawful r) (a : Timeline.Alignment) (duration : Float)
    (warning : Option Error) (w : World) :
    sessionsTold (deedsIn g (w.enterReady r g a duration warning).1.log) =
      sessionsTold (deedsIn g w.log) := by
  unfold enterReady
  split
  · dsimp only
    rw [deedsIn_seekToStart hr, deedsIn_warn hr, deedsIn_become, List.append_assoc,
      List.append_assoc, sessionsTold_append, sessionsTold_append,
      sessionsTold_of_telling fun _ => telling_of_mem_success]
    simp [sessionsTold, Happening.session?]
  · rfl

theorem alignment?_enterReady {a b : Timeline.Alignment} {duration : Float}
    {warning : Option Error} {w : World}
    (h : (w.enterReady r g a duration warning).2.alignment? = some b) : b = a := by
  unfold enterReady at h
  split at h
  · dsimp only at h
    split at h <;> exact (Option.some.inj h).symm
  · contradiction

/-- The last stage asks for the session once. -/
theorem aligns_finish (hr : Lawful r) (creation : Int) (duration : Except Error Float) (w : World) :
    Aligns g creation w (w.finish r g creation duration).1
      (some (w.finish r g creation duration).2) := by
  refine ⟨nofun, ?_⟩
  rintro _ a ⟨⟩ ha
  unfold finish at ha ⊢
  split at ha
  · contradiction
  · next hg =>
    rw [if_neg hg]
    cases duration with
    | error e =>
      dsimp only at ha
      rw [alignment?_fail] at ha
      contradiction
    | ok seconds =>
      have htold := sessionsTold_ask (g := g) hr .sessionTimeline (fun h => .session h.session) w
      dsimp only at ha ⊢
      generalize w.ask r (.load g .pending) .sessionTimeline (fun h => .session h.session) = w'
        at ha htold ⊢
      split at ha
      · next hoverlaps =>
        rw [if_pos hoverlaps, sessionsTold_enterReady hr, htold]
        exact ⟨seconds, w'.hosts.session, alignment?_enterReady ha, rfl⟩
      · next hoverlaps =>
        rw [if_neg hoverlaps]
        split at ha
        · rw [alignment?_fail] at ha
          contradiction
        · rw [sessionsTold_enterReady hr, htold]
          exact ⟨seconds, w'.hosts.session, alignment?_enterReady ha, rfl⟩

theorem aligns_lookAgain (hr : Lawful r) (creation : Int) (waited : Nat) (w : World) :
    Aligns g creation w (w.lookAgain r g creation waited).1
      (w.lookAgain r g creation waited).2 := by
  unfold lookAgain
  split
  · exact aligns_finish hr creation _ w
  · dsimp only
    split
    · exact aligns_finish hr creation (.error (.durationUnavailable w.settings.metadataTimeout)) w
    · exact .of_not_aligned (fun _ => rfl) nofun

/-- The metadata of a container that was read fix the creation time, also for a load that waits on.
-/
theorem aligns_containerRead (hr : Lawful r) (metadata : Container.Metadata) (w : World) :
    Aligns g metadata.creation w (w.containerRead r g (.ok metadata)).1
        (match (w.containerRead r g (.ok metadata)).2 with
          | .ended o => some o
          | .waiting _ => none) ∧
      ∀ creation, (w.containerRead r g (.ok metadata)).2 = .waiting creation →
        creation = metadata.creation := by
  unfold containerRead
  by_cases hg : w.isCurrent g
  · have htold := sessionsTold_query (g := g) hr .duration
      (fun h => .duration h.duration) (fun _ => rfl) w
    rw [hg, if_neg (by decide)]
    dsimp only
    generalize w.ask r (.load g .pending) .duration (fun h => .duration h.duration) = w' at htold ⊢
    cases hduration : w'.hosts.duration with
    | some seconds =>
      exact ⟨.of_told htold (aligns_finish hr metadata.creation _ w'), nofun⟩
    | none =>
      exact ⟨.of_not_aligned (fun _ => htold) nofun, fun _ h => (Progress.waiting.inj h).symm⟩
  · rw [Bool.not_eq_true] at hg
    rw [hg, if_pos (by decide)]
    refine ⟨.of_not_aligned nofun ?_, nofun⟩
    rintro _ ⟨⟩
    rfl

/-- Without metadata a load does not end in sync. -/
theorem alignment?_containerRead (e : Container.Error) (w : World) :
    ∃ o, (w.containerRead r g (.error e)).2 = .ended o ∧ o.alignment? = none := by
  unfold containerRead
  split
  · exact ⟨.superseded, rfl, rfl⟩
  · exact ⟨_, rfl, alignment?_fail _ w⟩

theorem alignment?_openMedia {asset : Asset} {w : World} {o : Outcome}
    (h : (w.openMedia r g asset).2 = some o) : o.alignment? = none := by
  unfold openMedia at h
  dsimp only at h
  split at h
  · contradiction
  · obtain rfl := Option.some.inj h
    exact alignment?_fail _ _

/-- The first stage does not end in sync, and no session is told. -/
theorem aligns_openMedia (hr : Lawful r) (creation : Int) (asset : Asset) (w : World) :
    Aligns g creation w (w.openMedia r g asset).1 (w.openMedia r g asset).2 := by
  have htold := sessionsTold_query (g := g) hr .canPlayType
    (fun h => .playable (h.playable.contains asset.mime)) (fun _ => rfl) w
  unfold openMedia
  dsimp only
  generalize w.ask r (.load g .pending) .canPlayType
    (fun h => .playable (h.playable.contains asset.mime)) = w' at htold ⊢
  split
  · exact .of_not_aligned (fun _ => (sessionsTold_tell hr .pending _ w').trans htold) nofun
  · refine .of_not_aligned nofun ?_
    rintro _ ⟨⟩
    exact alignment?_fail _ w'

end World

/-! ## Loads hold on to what they got -/

/-- The stage of a load keeps its earlier deeds. -/
theorem Proceeds.mem_deedsIn {g : Nat} {w w' : World} {o : Option Outcome}
    (h : Proceeds g w w' o) {d : Deed} (hd : d ∈ deedsIn g w.log) : d ∈ deedsIn g w'.log := by
  obtain ⟨quiet, closing, heq, -, -⟩ := h.deeds
  rw [heq, List.append_assoc]
  exact List.mem_append_left _ hd

/-- No load has ended before its end is noted. -/
theorem Proceeds.ended? {g : Nat} {w w' : World} {o : Option Outcome}
    (h : Proceeds g w w' o) (hg : Underway (deedsIn g w.log)) {d : Deed}
    (hd : d ∈ deedsIn g w'.log) : d.what.ended? = none := by
  obtain ⟨quiet, closing, heq, hquiet, hclosing⟩ := h.deeds
  rw [heq] at hd
  rcases List.mem_append.mp hd with hd | hd
  · exact ended?_eq_none ((hg.append hquiet).not_settlement hd)
  · cases o with
    | some o => exact hclosing.ended? hd
    | none =>
      cases hclosing
      exact absurd hd List.not_mem_nil

section Traced

variable (R : Nat → AssetSource → Int → Prop)

/-- What a load waits for has to do with its own video. -/
def Wait.Follows (g : Nat) (source : AssetSource) : Wait → Prop
  | .container source' => source' = source
  | .duration creation _ => R g source creation

/-- A load in flight has not been told any session, and waits for its own video. -/
structure Awaits (l : InFlight) (ds : List Deed) : Prop where
  told : sessionsTold ds = []
  wait : ∃ asset, ⟨.pending, .began asset⟩ ∈ ds ∧ l.wait.Follows R l.generation asset.source

/-- A load has aligned its own video with the session that it was told. -/
def Aligned (g : Nat) (ds : List Deed) (a : Timeline.Alignment) : Prop :=
  ∃ asset creation seconds session, ⟨.pending, .began asset⟩ ∈ ds ∧ R g asset.source creation ∧
    sessionsTold ds = [session] ∧ a = align creation seconds session

/-- All loads of a run have held on to what they got. -/
structure Traced (run : Run) : Prop where
  inFlight : ∀ l ∈ run.inFlight, Awaits R l (deedsIn l.generation run.world.log)
  ended : ∀ {g number o a}, ⟨.pending, .ended number o⟩ ∈ deedsIn g run.world.log →
    o.alignment? = some a → Aligned R g (deedsIn g run.world.log) a

end Traced

namespace Traced

variable {R R' : Nat → AssetSource → Int → Prop} {run : Run} {w : World} {l : InFlight}

theorem follows_mono {g : Nat} {source : AssetSource} {wait : Wait}
    (hR : ∀ g source creation, R g source creation → R' g source creation)
    (h : wait.Follows R g source) : wait.Follows R' g source := by
  cases wait with
  | container => exact h
  | duration => exact hR _ _ _ h

theorem mono (hR : ∀ g source creation, R g source creation → R' g source creation)
    (h : Traced R run) : Traced R' run where
  inFlight l hl := by
    obtain ⟨htold, asset, hasset, hwait⟩ := h.inFlight l hl
    exact ⟨htold, asset, hasset, follows_mono hR hwait⟩
  ended hd ha := by
    obtain ⟨asset, creation, seconds, session, hasset, hread, hrest⟩ := h.ended hd ha
    exact ⟨asset, creation, seconds, session, hasset, hR _ _ _ hread, hrest⟩

/-- What happens without any load. -/
theorem withWorld (h : Traced R run) (hf : Frame none run.world w) :
    Traced R (run.withWorld w) where
  inFlight l hl := by
    show Awaits R l (deedsIn l.generation w.log)
    rw [hf.deeds _ nofun]
    exact h.inFlight l hl
  ended {g _ _ a} hd ha := by
    have hsame := hf.deeds g nofun
    show Aligned R g (deedsIn g w.log) a
    rw [hsame]
    exact h.ended (hsame ▸ hd) ha

/-- A stage of a load in flight that leaves it in flight. -/
theorem stays (h : Traced R run) (ho : run.Orderly) (hl : l ∈ run.inFlight)
    (hp : Proceeds l.generation run.world w none)
    (hsame : sessionsTold (deedsIn l.generation w.log) =
      sessionsTold (deedsIn l.generation run.world.log)) : Traced R (run.withWorld w) where
  inFlight l' hl' := by
    show Awaits R l' (deedsIn l'.generation w.log)
    by_cases hg : l'.generation = l.generation
    · obtain rfl := ho.eq_of_generation hl hl' hg
      obtain ⟨htold, asset, hasset, hwait⟩ := h.inFlight l' hl'
      exact ⟨hsame.trans htold, asset, hp.mem_deedsIn hasset, hwait⟩
    · rw [hp.frame.deeds_of_ne hg]
      exact h.inFlight l' hl'
  ended {g number o a} hd ha := by
    by_cases hg : g = l.generation
    · subst hg
      have hnot := hp.ended? (ho.inFlight l hl).2 hd
      contradiction
    · have hother := hp.frame.deeds_of_ne hg
      show Aligned R g (deedsIn g w.log) a
      rw [hother]
      exact h.ended (hother ▸ hd) ha

/-- A stage of a load in flight that ends it. -/
theorem ends (h : Traced R run) (ho : run.Orderly) (hl : l ∈ run.inFlight) {o : Outcome}
    (hp : Proceeds l.generation run.world w (some o))
    (haligned : ∀ a, o.alignment? = some a →
      Aligned R l.generation (deedsIn l.generation w.log) a) :
    Traced R ((run.withWorld w).conclude l o) := by
  have hnoted (g : Nat) : deedsIn g ((run.withWorld w).conclude l o).world.log =
      deedsIn g w.log ++ ((Actor.load l.generation .pending).deed? g (.ended l.number o)).toList :=
    World.deedsIn_note w _ _ g
  have hother {g : Nat} (hg : g ≠ l.generation) :
      deedsIn g ((run.withWorld w).conclude l o).world.log = deedsIn g run.world.log := by
    have hne : (Actor.load l.generation .pending).generation? ≠ some g :=
      fun heq => hg (Option.some.inj heq).symm
    rw [hnoted, deed?_of_ne hne, hp.frame.deeds_of_ne hg]
    exact List.append_nil _
  constructor
  · intro l' hl'
    obtain ⟨hmem, hg⟩ := (ho.mem_filter_iff hl).mp hl'
    rw [hother hg]
    exact h.inFlight l' hmem
  · intro g number o' a hd ha
    by_cases hg : g = l.generation
    · subst hg
      rw [hnoted, deed?_load] at hd ⊢
      rcases List.mem_append.mp hd with hd | hd
      · have hnot := hp.ended? (ho.inFlight l hl).2 hd
        contradiction
      · obtain ⟨-, -, rfl⟩ : True ∧ number = l.number ∧ o' = o := by simpa using hd
        obtain ⟨asset, creation, seconds, session, hasset, hread, htold, hsame⟩ := haligned a ha
        refine ⟨asset, creation, seconds, session, List.mem_append_left _ hasset, hread, ?_, hsame⟩
        rw [sessionsTold_append, htold]
        rfl
    · rw [hother hg] at hd ⊢
      exact h.ended hd ha

/-- A stage of a load in flight. If the load can end in sync then its container was read. -/
theorem settle (h : Traced R run) (ho : run.Orderly) (hl : l ∈ run.inFlight) {o : Option Outcome}
    (hp : Proceeds l.generation run.world w o) {creation : Int}
    (ha : Aligns l.generation creation run.world w o)
    (hR : (∀ o', o = some o' → o'.alignment? = none) ∨
      ∃ asset, ⟨.pending, .began asset⟩ ∈ deedsIn l.generation run.world.log ∧
        R l.generation asset.source creation) : Traced R ((run.withWorld w).settle l o) := by
  cases o with
  | none => exact h.stays ho hl hp (ha.onward rfl)
  | some o =>
    refine h.ends ho hl hp fun a hsome => ?_
    rcases hR with hnone | ⟨asset, hasset, hread⟩
    · rw [hnone o rfl] at hsome
      contradiction
    · obtain ⟨seconds, session, hsame, htold⟩ := ha.aligned rfl hsome
      rw [(h.inFlight l hl).told] at htold
      exact ⟨asset, creation, seconds, session, hp.mem_deedsIn hasset, hread, htold, hsame⟩

/-- A load waits for something else that has to do with its own video. -/
theorem setWait (h : Traced R run) (ho : run.Orderly) (hl : l ∈ run.inFlight) {wait : Wait}
    (hwait : ∀ source, l.wait.Follows R l.generation source →
      wait.Follows R l.generation source) : Traced R (run.setWait l.number wait) where
  inFlight l' hl' := by
    obtain ⟨old, hold, rfl⟩ := List.mem_map.mp hl'
    by_cases hn : old.number = l.number
    · obtain rfl := ho.eq_of_number hl hold hn
      obtain ⟨htold, asset, hasset, hfollows⟩ := h.inFlight old hold
      rw [if_pos rfl]
      exact ⟨htold, asset, hasset, hwait _ hfollows⟩
    · rw [if_neg hn]
      exact h.inFlight old hold
  ended hd ha := h.ended hd ha

/-- A load that has just begun joins the others. -/
theorem joins (h : Traced R run) (ho : run.Orderly)
    (hf : Frame (some l.generation) run.world w) {asset : Asset}
    (hg : l.generation = run.world.state.generation + 1) (hwait : l.wait = .container asset.source)
    (hdeeds : deedsIn l.generation w.log = [⟨.pending, .began asset⟩]) (begun : Nat) :
    Traced R { run with world := w, begun, inFlight := run.inFlight ++ [l] } where
  inFlight l' hl' := by
    show Awaits R l' (deedsIn l'.generation w.log)
    rcases List.mem_append.mp hl' with hl' | hl'
    · have hle := (ho.inFlight l' hl').1
      rw [hf.deeds_of_ne (by omega)]
      exact h.inFlight l' hl'
    · obtain rfl := List.mem_singleton.mp hl'
      rw [hdeeds]
      refine ⟨rfl, asset, List.mem_singleton_self _, ?_⟩
      rw [hwait]
      rfl
  ended {g number o a} hd ha := by
    show Aligned R g (deedsIn g w.log) a
    have hd' : ⟨.pending, .ended number o⟩ ∈ deedsIn g w.log := hd
    by_cases hsame : g = l.generation
    · rw [hsame, hdeeds, List.mem_singleton] at hd'
      exact absurd hd' nofun
    · rw [hf.deeds_of_ne hsame] at hd' ⊢
      exact h.ended hd' ha

theorem begin (h : Traced R run) (ho : run.Orderly) (hcalm : run.world.Calm) {r : Reaction}
    (hr : Lawful r) (asset : Asset) : Traced R (run.begin r asset) := by
  obtain ⟨hw, hdue, hframe, hdeeds⟩ := ho.began hcalm asset rfl rfl
  let l : InFlight := ⟨run.begun, run.world.state.generation + 1, .container asset.source⟩
  have hbegun := ho.joins (l := l) hframe rfl rfl rfl ⟨asset, [], hdeeds, nofun⟩
  have htraced := h.joins (l := l) ho hframe rfl rfl hdeeds (run.begun + 1)
  have hl : l ∈ run.inFlight ++ [l] := List.mem_append_right _ (List.mem_singleton_self l)
  refine htraced.settle hbegun hl (World.proceeds_openMedia hr hw asset hdue)
    (World.aligns_openMedia hr 0 asset _) (.inl fun o' ho' => ?_)
  exact World.alignment?_openMedia ho'

theorem look (h : Traced R run) (ho : run.Orderly) (hcalm : run.world.Calm) {r : Reaction}
    (hr : Lawful r) (number : Nat) : Traced R (run.look r number) := by
  unfold Run.look
  split
  · next n generation creation since hf =>
    have hl := Run.Orderly.mem_of_find? hf
    obtain ⟨-, asset, hasset, hread⟩ := h.inFlight _ hl
    exact h.settle ho hl (World.proceeds_lookAgain hr hcalm _ _)
      (World.aligns_lookAgain hr creation _ _) (.inr ⟨asset, hasset, hread⟩)
  · exact h

/-- If reading a container counts for `R`, then so does the container that is read. -/
theorem read (h : Traced R run) (ho : run.Orderly) (hcalm : run.world.Calm) {r : Reaction}
    (hr : Lawful r) (number : Nat)
    (hR : ∀ g source metadata, run.find? number = some ⟨number, g, .container source⟩ →
      source.metadata run.files = .ok metadata → R g source metadata.creation) :
    Traced R (run.read r number) := by
  unfold Run.read
  split
  · next n generation source hf =>
    have hn : n = number := by simpa using List.find?_some hf
    subst hn
    have hl := Run.Orderly.mem_of_find? hf
    obtain ⟨-, asset, hasset, rfl⟩ := h.inFlight _ hl
    have hp := World.proceeds_containerRead (g := generation) hr hcalm
      (asset.source.metadata run.files)
    cases hresult : asset.source.metadata run.files with
    | error e =>
      rw [hresult] at hp
      obtain ⟨o, hended, hnone⟩ :=
        World.alignment?_containerRead (r := r) (g := generation) e run.world
      rw [hended] at hp
      dsimp only
      rw [hended]
      exact h.ends ho hl hp fun a ha => absurd (hnone.symm.trans ha) nofun
    | ok metadata =>
      rw [hresult] at hp
      have hread := hR generation asset.source metadata hf hresult
      obtain ⟨haligns, hcreation⟩ :=
        World.aligns_containerRead (g := generation) hr metadata run.world
      dsimp only
      split
      · next o hended =>
        rw [hended] at hp haligns
        exact h.settle ho hl hp haligns (.inr ⟨asset, hasset, hread⟩)
      · next creation hwaits =>
        rw [hwaits] at hp haligns
        obtain rfl := hcreation creation hwaits
        have hstays := h.stays ho hl hp (haligns.onward rfl)
        have hordered := ho.stays hl hp
        refine (hstays.setWait hordered hl fun source hsource => ?_).look
          (hordered.setWait _ _) hp.calm hr n
        obtain rfl : asset.source = source := hsource
        exact hread
  · exact h

end Traced

/-! ## Runs -/

namespace Run

/-- A run can go on to another one. -/
inductive Reaches (run : Run) : Run → Prop
  | refl : Reaches run run
  | files {run' : Run} (h : Reaches run run') (files : Storage.Tree) :
      Reaches run { run' with files }
  | move {run' : Run} (h : Reaches run run') {r : Reaction} (hr : Lawful r) (m : Move) :
      Reaches run (run'.move r m)

/-- What is in the log stays there. -/
theorem Reaches.log {run run' : Run} (h : run.Reaches run') :
    run.world.log <+: run'.world.log := by
  induction h with
  | refl => exact List.prefix_rfl
  | files _ _ ih => exact ih
  | move _ hr m ih =>
    obtain ⟨-, more, hlog, -⟩ := continues_move hr _ m
    rw [hlog]
    exact ih.trans (List.prefix_append _ _)

/-- The container of a load was read in the run `earlier`, on the way to another run, and the video
was created when it says. -/
structure ReadFrom (earlier run : Run) (g : Nat) (source : AssetSource) (creation : Int) :
    Prop where
  reachable : earlier.Reachable
  metadata : ∃ m, source.metadata earlier.files = .ok m ∧ m.creation = creation
  reaches : ∃ r number, Lawful r ∧
    earlier.find? number = some ⟨number, g, .container source⟩ ∧
    (earlier.read r number).Reaches run

theorem ReadFrom.onward {earlier run run' : Run} {g : Nat} {source : AssetSource} {creation : Int}
    (h : ReadFrom earlier run g source creation)
    (hstep : ∀ {u : Run}, u.Reaches run → u.Reaches run') :
    ReadFrom earlier run' g source creation := by
  obtain ⟨hreach, hmetadata, r, number, hr, hf, hreaches⟩ := h
  exact ⟨hreach, hmetadata, r, number, hr, hf, hstep hreaches⟩

/-- The container of a load was read on the way to the run. -/
def WasRead (run : Run) (g : Nat) (source : AssetSource) (creation : Int) : Prop :=
  ∃ earlier, ReadFrom earlier run g source creation

theorem WasRead.onward {run run' : Run} {g : Nat} {source : AssetSource} {creation : Int}
    (h : run.WasRead g source creation) (hstep : ∀ {u : Run}, u.Reaches run → u.Reaches run') :
    run'.WasRead g source creation := by
  obtain ⟨earlier, hread⟩ := h
  exact ⟨earlier, hread.onward hstep⟩

/-- Reachable runs are traced to the runs in which containers were read. -/
theorem Reachable.traced {run : Run} (h : run.Reachable) : Traced run.WasRead run := by
  induction h with
  | start => exact ⟨fun _ hl => absurd hl List.not_mem_nil, fun hd => absurd hd List.not_mem_nil⟩
  | @files run _ files ih =>
    have hfiles : Traced ({ run with files } : Run).WasRead run :=
      ih.mono fun _ _ _ hread => hread.onward (·.files files)
    exact ⟨hfiles.inFlight, hfiles.ended⟩
  | @move run hreachable r hr m ih =>
    obtain ⟨ho, hcalm⟩ := hreachable.orderly
    have hmoved : Traced (run.move r m).WasRead run :=
      ih.mono fun _ _ _ hread => hread.onward (·.move hr m)
    cases m with
    | begin asset => exact hmoved.begin ho hcalm hr asset
    | read number =>
      refine hmoved.read ho hcalm hr number fun g source metadata hf hmetadata => ?_
      exact ⟨run, hreachable, ⟨metadata, hmetadata, rfl⟩, r, number, hr, hf, .refl⟩
    | look number => exact hmoved.look ho hcalm hr number
    | advance => exact ⟨hmoved.inFlight, hmoved.ended⟩
    | act a => exact hmoved.withWorld (World.frame_invariance.apply (World.frame_lawful hr) a _)

end Run

end VideoSync.Sync
