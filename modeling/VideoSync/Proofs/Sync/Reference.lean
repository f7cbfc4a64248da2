import VideoSync.Proofs.Sync.Answers

/-
  One load from its begin to its end, whatever happens in between. A load in flight has done exactly
  what it takes to wait for what it waits for (`Run.Standing`), and one move ends it
  (`Run.Reachable.exists_ending`). So the stages of a load meet: unless it is superseded it ends as
  the reference says of its answers, it has done what the account says and nothing else, and each
  answer was given on its way (`ended_eq_reference`).
-/

namespace VideoSync.Sync

open VideoSync.Timeline (align)

/-! ## Loads in flight -/

/-- What a load in flight has done. -/
def InFlight.Stands (l : InFlight) (ds : List Deed) : Prop :=
  match l.wait with
  | .container source => ∃ asset : Asset, asset.source = source ∧ ds = opening asset
  | .duration _ _ => ∃ asset, ds = opening asset ++ asking .duration (.duration none)

namespace Run

variable {run : Run} {w : World} {l : InFlight} {r : Reaction} {g number : Nat} {o : Outcome}

/-- A load looks again if it waits for the duration, and else nothing happens. -/
theorem look_cases (r : Reaction) (number : Nat) (run : Run) :
    run.look r number = run ∨ ∃ g creation since,
      run.find? number = some ⟨number, g, .duration creation since⟩ ∧
      run.look r number =
        (run.withWorld (run.world.lookAgain r g creation (run.clock - since)).1).settle
          ⟨number, g, .duration creation since⟩
          (run.world.lookAgain r g creation (run.clock - since)).2 := by
  unfold Run.look
  split
  · next n g creation since hf =>
    obtain rfl : n = number := by simpa using List.find?_some hf
    exact .inr ⟨g, creation, since, hf, rfl⟩
  · exact .inl rfl

/-- The container of a load is read if the load waits for it, and else nothing happens. Then the
load ends, or it looks for the first time whether the duration is known. -/
theorem read_cases (r : Reaction) (number : Nat) (run : Run) :
    run.read r number = run ∨ ∃ g source,
      run.find? number = some ⟨number, g, .container source⟩ ∧
      ((∃ o, (run.world.containerRead r g (source.metadata run.files)).2 = .ended o ∧
          run.read r number =
            (run.withWorld (run.world.containerRead r g (source.metadata run.files)).1).settle
              ⟨number, g, .container source⟩ (some o)) ∨
        ∃ creation, (run.world.containerRead r g (source.metadata run.files)).2 =
            .waiting creation ∧
          run.read r number =
            ((run.withWorld (run.world.containerRead r g (source.metadata run.files)).1).setWait
              number (.duration creation run.clock)).look r number) := by
  unfold Run.read
  split
  · next n g source hf =>
    obtain rfl : n = number := by simpa using List.find?_some hf
    refine .inr ⟨g, source, hf, ?_⟩
    dsimp only
    cases hprogress : (run.world.containerRead r g (source.metadata run.files)).2 with
    | ended o => exact .inl ⟨o, rfl, rfl⟩
    | waiting creation => exact .inr ⟨creation, rfl, rfl⟩
  · exact .inl rfl

/-- All loads in flight have done what it takes to wait. -/
def Standing (run : Run) : Prop :=
  ∀ l ∈ run.inFlight, l.Stands (deedsIn l.generation run.world.log)

namespace Orderly

/-- A stage of one load; what the others have done is left alone. -/
theorem standing_settle (h : run.Orderly) (hl : l ∈ run.inFlight)
    (hothers : ∀ l' ∈ run.inFlight, l'.generation ≠ l.generation →
      l'.Stands (deedsIn l'.generation run.world.log)) {o : Option Outcome}
    (hf : Frame (some l.generation) run.world w)
    (hstands : o = none → l.Stands (deedsIn l.generation w.log)) :
    ((run.withWorld w).settle l o).Standing := by
  intro l' hl'
  cases o with
  | none =>
    show l'.Stands (deedsIn l'.generation w.log)
    by_cases hg : l'.generation = l.generation
    · obtain rfl := h.eq_of_generation hl hl' hg
      exact hstands rfl
    · rw [hf.deeds_of_ne hg]
      exact hothers l' hl' hg
  | some o =>
    obtain ⟨hmem, hg⟩ := (h.mem_filter_iff hl).mp hl'
    have hended : Frame (some l.generation) w
        (w.note (.load l.generation .pending) (.ended l.number o)) :=
      World.frame_note (.load l.generation .pending) fun _ => rfl
    show l'.Stands (deedsIn l'.generation (w.note _ _).log)
    rw [(hf.trans hended).deeds_of_ne hg]
    exact hothers l' hmem hg

theorem standing_begin (h : run.Orderly) (hcalm : run.world.Calm) (hr : Lawful r)
    (hstanding : run.Standing) (asset : Asset) : (run.begin r asset).Standing := by
  obtain ⟨hw, hdue, hframe, hdeeds⟩ := h.began hcalm asset rfl rfl
  let l : InFlight := ⟨run.begun, run.world.state.generation + 1, .container asset.source⟩
  let begun := run.world.become (.load l.generation .pending) (.began asset)
    (run.world.state.beginLoad asset.name)
  have hbegun := h.joins (l := l) hframe rfl rfl rfl ⟨asset, [], hdeeds, nofun⟩
  have hl : l ∈ run.inFlight ++ [l] := List.mem_append_right _ (List.mem_singleton_self l)
  have hothers : ∀ l' ∈ run.inFlight ++ [l], l'.generation ≠ l.generation →
      l'.Stands (deedsIn l'.generation begun.log) := by
    intro l' hl' hne
    rcases List.mem_append.mp hl' with hl' | hl'
    · rw [hframe.deeds_of_ne hne]
      exact hstanding l' hl'
    · rw [List.mem_singleton.mp hl'] at hne
      contradiction
  have hstands : (begun.openMedia r l.generation asset).2 = none →
      l.Stands (deedsIn l.generation (begun.openMedia r l.generation asset).1.log) := by
    intro hnone
    rcases World.openMedia_cases (g := l.generation) hr asset begun with ⟨-, hds⟩ | ⟨o, hsome, -⟩
    · exact ⟨asset, rfl, by rw [hds, hdeeds]; rfl⟩
    · rw [hsome] at hnone
      contradiction
  exact hbegun.standing_settle hl hothers (World.proceeds_openMedia hr hw asset hdue).frame hstands

theorem standing_look (h : run.Orderly) (hcalm : run.world.Calm) (hr : Lawful r)
    (hstanding : run.Standing) (number : Nat) : (run.look r number).Standing := by
  rcases look_cases r number run with hsame | ⟨g, creation, since, hf, heq⟩
  · rw [hsame]
    exact hstanding
  · have hl := mem_of_find? hf
    obtain ⟨asset, hds⟩ := hstanding _ hl
    rw [heq]
    refine h.standing_settle hl (fun l' hl' _ => hstanding l' hl')
      (World.proceeds_lookAgain hr hcalm _ _).frame fun hnone => ?_
    rcases World.lookAgain_cases (g := g) hr asset creation (run.clock - since) run.world
      with hsame | ⟨o, hsome, -⟩
    · rw [hsame]
      exact ⟨asset, hds⟩
    · rw [hsome] at hnone
      contradiction

/-- A load begins to wait for something else. -/
theorem standing_setWait (h : run.Orderly) (hl : l ∈ run.inFlight)
    (hothers : ∀ l' ∈ run.inFlight, l'.generation ≠ l.generation →
      l'.Stands (deedsIn l'.generation run.world.log)) {wait : Wait}
    (hstands : InFlight.Stands { l with wait } (deedsIn l.generation run.world.log)) :
    (run.setWait l.number wait).Standing := by
  intro l' hl'
  obtain ⟨old, hold, rfl⟩ := List.mem_map.mp hl'
  by_cases hn : old.number = l.number
  · obtain rfl := h.eq_of_number hl hold hn
    rw [if_pos rfl]
    exact hstands
  · rw [if_neg hn]
    refine hothers old hold fun hg => hn ?_
    rw [h.eq_of_generation hl hold hg]

theorem standing_read (h : run.Orderly) (hcalm : run.world.Calm) (hr : Lawful r)
    (hstanding : run.Standing) (number : Nat) : (run.read r number).Standing := by
  rcases read_cases r number run with hsame | ⟨g, source, hf, hread⟩
  · rw [hsame]
    exact hstanding
  · have hl := mem_of_find? hf
    have hp := World.proceeds_containerRead (g := g) hr hcalm (source.metadata run.files)
    obtain ⟨asset, -, hopening⟩ := hstanding _ hl
    rcases hread with ⟨o, hended, heq⟩ | ⟨creation, hwaits, heq⟩
    · rw [hended] at hp
      rw [heq]
      exact h.standing_settle hl (fun l' hl' _ => hstanding l' hl') hp.frame nofun
    · rw [hwaits] at hp
      have hstays := h.stays hl hp
      rw [heq]
      refine (hstays.setWait number _).standing_look hp.calm hr
        (hstays.standing_setWait hl ?_ ?_) number
      · intro l' hl' hne
        show l'.Stands (deedsIn l'.generation (World.containerRead r g _ _).1.log)
        rw [hp.frame.deeds_of_ne hne]
        exact hstanding l' hl'
      · rcases World.containerRead_cases (g := g) hr asset (source.metadata run.files) run.world
          with ⟨metadata, -, -, -, hds⟩ | ⟨o, hended, -⟩
        · refine ⟨asset, ?_⟩
          rw [← hopening]
          exact hds
        · rw [hwaits] at hended
          contradiction

end Orderly

/-- In every reachable run the loads in flight have done what it takes to wait. -/
theorem Reachable.standing (h : run.Reachable) : run.Standing := by
  induction h with
  | start => exact fun l hl => absurd hl List.not_mem_nil
  | files _ _ ih => exact ih
  | @move run hreach r hr m ih =>
    obtain ⟨ho, hcalm⟩ := hreach.orderly
    cases m with
    | begin asset => exact ho.standing_begin hcalm hr ih asset
    | read number => exact ho.standing_read hcalm hr ih number
    | look number => exact ho.standing_look hcalm hr ih number
    | advance => exact ih
    | act a =>
      have hframe := World.frame_invariance.apply (World.frame_lawful hr) a run.world
      intro l hl
      show l.Stands (deedsIn l.generation (run.world.apply r a).1.log)
      rw [hframe.deeds _ nofun]
      exact ih l hl

/-! ## The move that ends a load -/

theorem Reaches.trans {u v w : Run} (h₁ : u.Reaches v) (h₂ : v.Reaches w) : u.Reaches w := by
  induction h₂ with
  | refl => exact h₁
  | files _ files ih => exact ih.files files
  | move _ hr m ih => exact ih.move hr m

theorem Reaches.settings {run' : Run} (h : run.Reaches run') :
    run'.world.settings = run.world.settings := by
  induction h with
  | refl => rfl
  | files _ _ ih => exact ih
  | move _ hr m ih =>
    obtain ⟨hsettings, -⟩ := continues_move hr _ m
    exact hsettings.trans ih

theorem Reaches.deeds {run' : Run} (h : run.Reaches run') (g : Nat) :
    deedsIn g run.world.log <+: deedsIn g run'.world.log := h.log.filterMap _

/-- A load that has ended did so in one move of the run. -/
theorem Reachable.exists_ending (h : run.Reachable)
    (hd : ⟨.pending, .ended number o⟩ ∈ deedsIn g run.world.log) :
    ∃ (last : Run) (r : Reaction) (m : Move), last.Reachable ∧ Lawful r ∧
      (last.move r m).Reaches run ∧
      ⟨.pending, .ended number o⟩ ∉ deedsIn g last.world.log ∧
      ⟨.pending, .ended number o⟩ ∈ deedsIn g (last.move r m).world.log := by
  induction h with
  | start => exact absurd hd List.not_mem_nil
  | files _ files ih =>
    obtain ⟨last, r, m, hreach, hr, hreaches, hnew⟩ := ih hd
    exact ⟨last, r, m, hreach, hr, hreaches.files files, hnew⟩
  | @move run hreach r hr m ih =>
    by_cases hold : ⟨.pending, .ended number o⟩ ∈ deedsIn g run.world.log
    · obtain ⟨last, r', m', hlast, hr', hreaches, hnew⟩ := ih hold
      exact ⟨last, r', m', hlast, hr', hreaches.move hr m, hnew⟩
    · exact ⟨run, r, m, hreach, hr, .refl, hold, hd⟩

theorem Orderly.over_of_mem (h : run.Orderly)
    (hd : ⟨.pending, .ended number o⟩ ∈ deedsIn g run.world.log) :
    Over run.world.settings number o (deedsIn g run.world.log) := by
  obtain ⟨e, he, hed⟩ := List.mem_filterMap.mp hd
  obtain ⟨hby, hwhat⟩ := isBy_of_deed? hed
  exact h.over_of_ended he hby hwhat

/-- A load does nothing after its end. -/
theorem Reaches.deeds_eq {run' : Run} (h : run.Reaches run') (ho : run'.Orderly)
    (hd : ⟨.pending, .ended number o⟩ ∈ deedsIn g run.world.log) :
    deedsIn g run'.world.log = deedsIn g run.world.log := by
  have hkept := h.deeds g
  obtain ⟨before, closing, hbefore, hclosing, heq⟩ := ho.over_of_mem (hkept.subset hd)
  obtain ⟨more, hmore⟩ := hkept
  rcases List.eq_nil_or_concat more with rfl | ⟨rest, d, rfl⟩
  · rw [← hmore, List.append_nil]
  · -- Before the last deed of a load there is no end of it.
    rw [heq, List.concat_eq_append, ← List.append_assoc] at hmore
    obtain ⟨hinit, -⟩ := List.append_inj' hmore rfl
    have hin : ⟨.pending, .ended number o⟩ ∈ before ++ closing := by
      rw [← hinit]
      exact List.mem_append_left _ hd
    rcases List.mem_append.mp hin with hin | hin
    · have hnot := ended?_eq_none (hbefore.not_settlement hin)
      contradiction
    · have hnot := hclosing.ended? hin
      contradiction

/-- A stage of a load in flight in which some load ends: it is this load, and its end is noted. -/
theorem Orderly.ended_of_settle (h : run.Orderly) (hl : l ∈ run.inFlight) {o? : Option Outcome}
    (hp : Proceeds l.generation run.world w o?)
    (hnew : ⟨.pending, .ended number o⟩ ∉ deedsIn g run.world.log)
    (hd : ⟨.pending, .ended number o⟩ ∈ deedsIn g ((run.withWorld w).settle l o?).world.log) :
    l.number = number ∧ l.generation = g ∧ o? = some o ∧
      deedsIn g ((run.withWorld w).settle l o?).world.log =
        deedsIn g w.log ++ [⟨.pending, .ended number o⟩] := by
  have hstage : ⟨.pending, .ended number o⟩ ∉ deedsIn g w.log := by
    by_cases hg : g = l.generation
    · subst hg
      intro hin
      have hnot := hp.ended? (h.inFlight l hl).2 hin
      contradiction
    · rw [hp.frame.deeds_of_ne hg]
      exact hnew
  cases o? with
  | none => exact absurd hd hstage
  | some o' =>
    have hnoted : deedsIn g ((run.withWorld w).settle l (some o')).world.log = deedsIn g w.log ++
        ((Actor.load l.generation .pending).deed? g (.ended l.number o')).toList :=
      World.deedsIn_note w _ _ g
    rw [hnoted] at hd ⊢
    by_cases hg : l.generation = g
    · subst hg
      rw [deed?_load] at hd ⊢
      rcases List.mem_append.mp hd with hd | hd
      · exact absurd hd hstage
      · obtain ⟨rfl, rfl⟩ : number = l.number ∧ o = o' := by simpa using hd
        exact ⟨rfl, rfl, rfl, rfl⟩
    · have hne : (Actor.load l.generation .pending).generation? ≠ some g :=
        fun heq => hg (Option.some.inj heq)
      rw [deed?_of_ne hne] at hd
      exact absurd (List.mem_append.mp hd) (by simp [hstage])

end Run

/-! ## Where the answers come from -/

theorem Answers.Concludes.account_eq {x : Answers} {settings : SyncSettings} {asset : Asset}
    {creation : Int} {o : Outcome} {ds : List Deed} (h : x.Concludes settings asset creation o ds)
    (number : Nat) : account settings asset number x =
      opening asset ++ asking .duration (.duration x.duration) ++ ds ++
        [⟨.pending, .ended number o⟩] := by
  unfold account Answers.asked
  rw [h.playable, if_pos rfl, h.created, ← h.outcome, h.deeds]
  simp only [List.append_assoc]

/-- The container of a load was read in the run `earlier`, on the way to another run. By then the
load had given the media its video and nothing else. -/
structure Run.Opened (earlier run : Run) (number g : Nat) (asset : Asset)
    (created : Except Container.Error Int) : Prop where
  reachable : earlier.Reachable
  waits : earlier.find? number = some ⟨number, g, .container asset.source⟩
  deeds : deedsIn g earlier.world.log = opening asset
  created : (asset.source.metadata earlier.files).map (·.creation) = created
  reaches : ∃ r, Lawful r ∧ (earlier.read r number).Reaches run

/-- How long a load has waited for a duration since its container was read in the run `earlier`, and
which one it was told. -/
inductive Run.Waited (earlier run : Run) (number g : Nat) (creation : Int) : Option Float → Prop
  /-- There is no time to wait. -/
  | instantly (htimeout : run.world.settings.metadataTimeout.toNat = 0) :
      Waited earlier run number g creation none
  /-- In the run `last` it looks for the last time whether the duration is known. -/
  | looked {last : Run} {r : Reaction} (hreach : last.Reachable) (hr : Lawful r)
      (hwaits : last.find? number = some ⟨number, g, .duration creation earlier.clock⟩)
      (hread : ∃ r, Lawful r ∧ (earlier.read r number).Reaches last)
      (htimeout : last.world.hosts.duration = none →
        earlier.clock + run.world.settings.metadataTimeout.toNat ≤ last.clock)
      (hreaches : (last.look r number).Reaches run) :
      Waited earlier run number g creation last.world.hosts.duration

/-- What a load was told came from its own video and from the hosts. -/
structure Run.Answered (run : Run) (number g : Nat) (asset : Asset) (x : Answers) : Prop where
  /-- A load whose video cannot be played is never in flight, so that its container is not read. -/
  unread : x.playable = false → ∀ earlier : Run, earlier.Reachable → earlier.Reaches run →
    ∀ l ∈ earlier.inFlight, l.generation ≠ g
  read : x.playable → ∃ earlier : Run, earlier.Opened run number g asset x.created ∧
    ∀ creation, x.created = .ok creation → x.duration = none →
      earlier.Waited run number g creation x.later

namespace Run

variable {run : Run} {r : Reaction} {g number n : Nat} {o : Outcome}

/-- A load that ends when it looks again has been told a duration, or its time is over. -/
theorem Orderly.look_ended (h : run.Orderly) (hcalm : run.world.Calm) (hr : Lawful r)
    (hnew : ⟨.pending, .ended number o⟩ ∉ deedsIn g run.world.log)
    (hd : ⟨.pending, .ended number o⟩ ∈ deedsIn g (run.look r n).world.log)
    (ho : o ≠ .superseded) :
    ∃ creation since, n = number ∧
      run.find? number = some ⟨number, g, .duration creation since⟩ ∧
      ∀ asset, deedsIn g run.world.log = opening asset ++ asking .duration (.duration none) →
        ∃ x : Answers, x.playable ∧ x.created = .ok creation ∧ x.duration = none ∧
          x.later = run.world.hosts.duration ∧
          (x.later = none → run.world.settings.metadataTimeout.toNat ≤ run.clock - since) ∧
          o = reference run.world.settings asset x ∧
          deedsIn g (run.look r n).world.log = account run.world.settings asset number x := by
  rcases look_cases r n run with hsame | ⟨g', creation, since, hf, heq⟩
  · rw [hsame] at hd
    contradiction
  · rw [heq] at hd ⊢
    have hp := World.proceeds_lookAgain (g := g') hr hcalm creation (run.clock - since)
    obtain ⟨rfl, rfl, hended, hdeeds⟩ := h.ended_of_settle (mem_of_find? hf) hp hnew hd
    refine ⟨creation, since, rfl, hf, fun asset hstands => ?_⟩
    rcases World.lookAgain_cases (g := g') hr asset creation (run.clock - since) run.world
      with hsame | ⟨o', hsome, hconcludes⟩
    · rw [hsame] at hended
      contradiction
    · obtain rfl : o' = o := Option.some.inj (hsome.symm.trans hended)
      obtain ⟨x, ds, hx, hduration, hlater, htimeout, hds⟩ := hconcludes ho
      refine ⟨x, hx.playable, hx.created, hduration, hlater, htimeout, hx.outcome, ?_⟩
      rw [hdeeds, hds, hx.account_eq, hduration, hstands]

/-- A load has ended when its container was read: the container has no creation time, or the media
told the duration at once, or there was no time to wait for it. -/
structure EndsReading (run run' : Run) (number g : Nat) (asset : Asset) (x : Answers)
    (o : Outcome) : Prop where
  waits : run.find? number = some ⟨number, g, .container asset.source⟩
  deeds : deedsIn g run.world.log = opening asset
  playable : x.playable
  created : (asset.source.metadata run.files).map (·.creation) = x.created
  instantly : ∀ creation, x.created = .ok creation → x.duration = none →
    x.later = none ∧ run.world.settings.metadataTimeout.toNat = 0
  outcome : o = reference run.world.settings asset x
  account : deedsIn g run'.world.log = account run.world.settings asset number x

/-- The load ends before it waits for the duration. -/
theorem Orderly.endsReading_of_ended (h : run.Orderly) (hcalm : run.world.Calm) (hr : Lawful r)
    {asset : Asset} {g' : Nat} (hf : run.find? n = some ⟨n, g', .container asset.source⟩)
    (hopening : deedsIn g' run.world.log = opening asset) {o' : Outcome}
    (hended : (run.world.containerRead r g' (asset.source.metadata run.files)).2 = .ended o')
    {run' : Run} (heq : run' =
      (run.withWorld (run.world.containerRead r g' (asset.source.metadata run.files)).1).settle
        ⟨n, g', .container asset.source⟩ (some o'))
    (hnew : ⟨.pending, .ended number o⟩ ∉ deedsIn g run.world.log)
    (hd : ⟨.pending, .ended number o⟩ ∈ deedsIn g run'.world.log) (ho : o ≠ .superseded) :
    n = number ∧ ∃ x, EndsReading run run' number g asset x o := by
  have hp := World.proceeds_containerRead (g := g') hr hcalm (asset.source.metadata run.files)
  rw [hended] at hp
  subst heq
  obtain ⟨rfl, rfl, hsome, hdeeds⟩ := h.ended_of_settle (mem_of_find? hf) hp hnew hd
  obtain rfl : o' = o := Option.some.inj hsome
  refine ⟨rfl, ?_⟩
  rcases World.containerRead_cases (g := g') hr asset (asset.source.metadata run.files) run.world
    with ⟨metadata, -, hwaits, -⟩ | ⟨o, hended', hcases⟩
  · rw [hwaits] at hended
    contradiction
  obtain rfl : o = o' := Progress.ended.inj (hended'.symm.trans hended)
  rcases hcases ho with ⟨e, hresult, rfl, hds⟩ | ⟨metadata, x, ds, hresult, hx, hknown, hds⟩
  · refine ⟨⟨true, .error e, none, none, ⟨0, 0⟩⟩, hf, hopening, rfl, ?_, nofun, rfl, ?_⟩
    · rw [hresult]
      rfl
    · rw [hdeeds, hds, hopening]
      rfl
  · refine ⟨x, hf, hopening, hx.playable, ?_, ?_, hx.outcome, ?_⟩
    · rw [hresult, hx.created]
      rfl
    · intro creation _ hnone
      exact absurd hnone hknown
    · rw [hdeeds, hds, hx.account_eq, hopening]
      simp only [List.append_assoc]

/-- The load begins to wait for the duration, and its time is over at once. -/
theorem Orderly.endsReading_of_waiting (h : run.Orderly) (hcalm : run.world.Calm) (hr : Lawful r)
    {asset : Asset} {g' : Nat} (hf : run.find? n = some ⟨n, g', .container asset.source⟩)
    (hopening : deedsIn g' run.world.log = opening asset) {creation : Int}
    (hwaits : (run.world.containerRead r g' (asset.source.metadata run.files)).2 =
      .waiting creation)
    {waiting : Run} (hw : waiting =
      (run.withWorld (run.world.containerRead r g' (asset.source.metadata run.files)).1).setWait n
        (.duration creation run.clock))
    (hnew : ⟨.pending, .ended number o⟩ ∉ deedsIn g run.world.log)
    (hd : ⟨.pending, .ended number o⟩ ∈ deedsIn g (waiting.look r n).world.log)
    (ho : o ≠ .superseded) :
    n = number ∧ ∃ x, EndsReading run (waiting.look r n) number g asset x o := by
  have hl := mem_of_find? hf
  have hp := World.proceeds_containerRead (g := g') hr hcalm (asset.source.metadata run.files)
  obtain ⟨metadata, hresult, hwaits', hnone, hds⟩ | ⟨o, hended, -⟩ :=
    World.containerRead_cases (g := g') hr asset (asset.source.metadata run.files) run.world
  · obtain rfl : metadata.creation = creation := Progress.waiting.inj (hwaits'.symm.trans hwaits)
    rw [hwaits] at hp
    subst hw
    have hwaiting := (h.stays hl hp).setWait n (.duration metadata.creation run.clock)
    have hpending : ⟨.pending, .ended number o⟩ ∉ deedsIn g
        (run.world.containerRead r g' (asset.source.metadata run.files)).1.log :=
      fun hin => nomatch (h.ended_of_settle hl hp hnew hin).2.2.1
    obtain ⟨creation, since, rfl, hf', hlook⟩ := hwaiting.look_ended hp.calm hr hpending hd ho
    -- It is this load that looks, and it has waited since now.
    obtain ⟨-, rfl, hwait⟩ := InFlight.mk.inj (hwaiting.eq_of_number
      (List.mem_map.mpr ⟨_, hl, if_pos rfl⟩) (mem_of_find? hf') rfl)
    obtain ⟨rfl, rfl⟩ := Wait.duration.inj hwait
    obtain ⟨x, hplayable, hcreated, -, hlater, htimeout, href, haccount⟩ :=
      hlook asset (hds.trans (congrArg (· ++ _) hopening))
    have hlater' : x.later = none := hlater.trans hnone
    have hsettings := hp.frame.settings
    have hover := Nat.le_trans (htimeout hlater') (Nat.le_of_eq (Nat.sub_self run.clock))
    refine ⟨rfl, x, hf, hopening, hplayable, ?_, ?_, hsettings ▸ href, hsettings ▸ haccount⟩
    · rw [hresult, hcreated]
      rfl
    · intro _ _ _
      rw [← hsettings]
      exact ⟨hlater', Nat.le_zero.mp hover⟩
  · rw [hwaits] at hended
    contradiction

theorem Orderly.read_ended (h : run.Orderly) (hcalm : run.world.Calm) (hr : Lawful r)
    (hstanding : run.Standing) (hnew : ⟨.pending, .ended number o⟩ ∉ deedsIn g run.world.log)
    (hd : ⟨.pending, .ended number o⟩ ∈ deedsIn g (run.read r n).world.log)
    (ho : o ≠ .superseded) :
    n = number ∧ ∃ asset x, EndsReading run (run.read r n) number g asset x o := by
  rcases read_cases r n run with hsame | ⟨g', source, hf, hread⟩
  · rw [hsame] at hd
    contradiction
  · obtain ⟨asset, rfl, hopening⟩ := hstanding _ (mem_of_find? hf)
    rcases hread with ⟨o', hended, heq⟩ | ⟨creation, hwaits, heq⟩
    · obtain ⟨hn, x, hx⟩ := h.endsReading_of_ended hcalm hr hf hopening hended heq hnew hd ho
      exact ⟨hn, asset, x, hx⟩
    · rw [heq] at hd ⊢
      obtain ⟨hn, x, hx⟩ := h.endsReading_of_waiting hcalm hr hf hopening hwaits rfl hnew hd ho
      exact ⟨hn, asset, x, hx⟩

/-- A load that ends when it begins has a video that the media cannot play. -/
theorem Orderly.begin_ended (h : run.Orderly) (hcalm : run.world.Calm) (hr : Lawful r)
    {asset : Asset} (hnew : ⟨.pending, .ended number o⟩ ∉ deedsIn g run.world.log)
    (hd : ⟨.pending, .ended number o⟩ ∈ deedsIn g (run.begin r asset).world.log)
    (ho : o ≠ .superseded) :
    ∃ x : Answers, x.playable = false ∧ o = reference run.world.settings asset x ∧
      deedsIn g (run.begin r asset).world.log = account run.world.settings asset number x := by
  obtain ⟨hw, hdue, hframe, hdeeds⟩ := h.began hcalm asset rfl rfl
  let l : InFlight := ⟨run.begun, run.world.state.generation + 1, .container asset.source⟩
  let world := run.world.become (.load l.generation .pending) (.began asset)
    (run.world.state.beginLoad asset.name)
  let begun : Run := { run with
    world, begun := run.begun + 1, inFlight := run.inFlight ++ [l] }
  have hbegun : begun.Orderly := h.joins (l := l) hframe rfl rfl rfl ⟨asset, [], hdeeds, nofun⟩
  have hl : l ∈ begun.inFlight := List.mem_append_right _ (List.mem_singleton_self l)
  have hp : Proceeds l.generation begun.world (world.openMedia r l.generation asset).1
      (world.openMedia r l.generation asset).2 := World.proceeds_openMedia hr hw asset hdue
  have hpending : ⟨.pending, .ended number o⟩ ∉ deedsIn g begun.world.log := by
    intro hin
    by_cases hg : g = l.generation
    · rw [hg] at hin
      rw [hdeeds] at hin
      exact absurd (List.mem_singleton.mp hin) nofun
    · rw [hframe.deeds_of_ne hg] at hin
      contradiction
  have heq : run.begin r asset = (begun.withWorld (world.openMedia r l.generation asset).1).settle l
      (world.openMedia r l.generation asset).2 := rfl
  rw [heq] at hd ⊢
  obtain ⟨rfl, rfl, hended, hafter⟩ := hbegun.ended_of_settle hl hp hpending hd
  refine ⟨⟨false, .error .metadataNotFound, none, none, ⟨0, 0⟩⟩, rfl, ?_⟩
  rcases World.openMedia_cases (g := l.generation) hr asset world with ⟨hnone, -⟩ |
    ⟨o', hsome, hfailed⟩
  · rw [hnone] at hended
    contradiction
  · obtain rfl : o' = o := Option.some.inj (hsome.symm.trans hended)
    obtain ⟨rfl, hds⟩ := hfailed ho
    refine ⟨rfl, ?_⟩
    rw [hafter, hds, hdeeds]
    rfl

/-! ## The whole load -/

theorem opening_of_stands {l : InFlight} {ds : List Deed} (h : l.Stands ds) :
    ∃ asset, opening asset <+: ds := by
  obtain ⟨number, g, wait⟩ := l
  cases wait with
  | container source =>
    obtain ⟨asset, -, rfl⟩ := h
    exact ⟨asset, List.prefix_rfl⟩
  | duration creation since =>
    obtain ⟨asset, rfl⟩ := h
    exact ⟨asset, List.prefix_append _ _⟩

/-- A load begins with one video. -/
theorem eq_of_opening {asset asset' : Asset} {ds : List Deed}
    (h : opening asset <+: opening asset' ++ ds) : asset = asset' := by
  obtain ⟨more, hmore⟩ := h
  exact Happening.began.inj (congrArg Deed.what (List.cons.inj hmore).1)

/-- A load whose video cannot be played has never been in flight. -/
theorem Reaches.generation_ne {earlier : Run} (h : earlier.Reaches run)
    (hearlier : earlier.Reachable) {settings : SyncSettings} {asset : Asset} {x : Answers}
    (haccount : deedsIn g run.world.log = account settings asset number x)
    (hplayable : x.playable = false) {l : InFlight} (hl : l ∈ earlier.inFlight) :
    l.generation ≠ g := by
  rintro rfl
  obtain ⟨asset', hopening⟩ := opening_of_stands (hearlier.standing l hl)
  obtain ⟨more, hmore⟩ := hopening.trans (h.deeds l.generation)
  rw [haccount, account, Answers.asked, hplayable, if_neg Bool.false_ne_true] at hmore
  simp [opening, asking] at hmore

theorem Opened.trans {earlier later : Run} {asset : Asset} {created : Except Container.Error Int}
    (h : earlier.Opened run number g asset created) (hreach : run.Reaches later) :
    earlier.Opened later number g asset created := by
  obtain ⟨r, hr, hread⟩ := h.reaches
  exact { h with reaches := ⟨r, hr, hread.trans hreach⟩ }

theorem Opened.clock_le {earlier : Run} {asset : Asset} {created : Except Container.Error Int}
    (h : earlier.Opened run number g asset created) : earlier.clock ≤ run.clock := by
  obtain ⟨r, -, hread⟩ := h.reaches
  rw [← clock_read r number earlier]
  exact hread.clock

/-- The container of a load that waits for the duration was read when it began to wait. -/
theorem Reachable.opened_of_waits (h : run.Reachable) {creation : Int} {since : Nat}
    (hf : run.find? number = some ⟨number, g, .duration creation since⟩) :
    ∃ (earlier : Run) (asset : Asset), earlier.Opened run number g asset (.ok creation) ∧
      deedsIn g run.world.log = opening asset ++ asking .duration (.duration none) ∧
      earlier.clock = since ∧ ∃ r, Lawful r ∧ (earlier.read r number).Reaches run := by
  have hl := Orderly.mem_of_find? hf
  obtain ⟨earlier, r, source, metadata, hearlier, hr, hf', hresult, hcreation, hclock, hread⟩ :=
    h.waitsSince hl rfl
  obtain ⟨asset, rfl, hopening⟩ := hearlier.standing _ (Orderly.mem_of_find? hf')
  obtain ⟨asset', hstands⟩ := h.standing _ hl
  -- The load has begun once, so that it is the same video.
  have hkept := ((Reaches.refl.move hr (.read number)).trans hread).deeds g
  rw [hopening, hstands] at hkept
  obtain rfl := eq_of_opening hkept
  have hcreated : (asset.source.metadata earlier.files).map (·.creation) = .ok creation := by
    rw [hresult, ← hcreation]
    rfl
  exact ⟨earlier, asset, ⟨hearlier, hf', hopening, hcreated, r, hr, hread⟩, hstands, hclock, r, hr,
    hread⟩

/-- How a load that is not superseded ends is settled by what it was told. -/
theorem Reachable.accounted (h : run.Reachable)
    (hd : ⟨.pending, .ended number o⟩ ∈ deedsIn g run.world.log) (ho : o ≠ .superseded) :
    ∃ asset x, o = reference run.world.settings asset x ∧
      deedsIn g run.world.log = account run.world.settings asset number x ∧
      run.Answered number g asset x := by
  obtain ⟨last, r, m, hlast, hr, hreaches, hnew, hnow⟩ := h.exists_ending hd
  obtain ⟨horderly, hcalm⟩ := hlast.orderly
  have hfrom : last.Reaches run := (Reaches.refl.move hr m).trans hreaches
  rw [hreaches.deeds_eq h.orderly.1 hnow, hfrom.settings]
  cases m with
  | begin asset =>
    obtain ⟨x, hplayable, href, haccount⟩ := horderly.begin_ended hcalm hr hnew hnow ho
    refine ⟨asset, x, href, haccount, fun _ earlier hearlier hreach l hl => ?_, fun hp => ?_⟩
    · exact hreach.generation_ne hearlier
        ((hreaches.deeds_eq h.orderly.1 hnow).trans haccount) hplayable hl
    · rw [hplayable] at hp
      contradiction
  | read n =>
    obtain ⟨rfl, asset, x, hx⟩ := horderly.read_ended hcalm hr hlast.standing hnew hnow ho
    refine ⟨asset, x, hx.outcome, hx.account, fun hp => ?_, fun _ => ⟨last,
      ⟨hlast, hx.waits, hx.deeds, hx.created, r, hr, hreaches⟩, fun creation hcreated hnone => ?_⟩⟩
    · rw [hx.playable] at hp
      contradiction
    · obtain ⟨hlater, htimeout⟩ := hx.instantly creation hcreated hnone
      rw [hlater]
      exact .instantly (hfrom.settings ▸ htimeout)
  | look n =>
    obtain ⟨creation, since, rfl, hf, hlook⟩ := horderly.look_ended hcalm hr hnew hnow ho
    obtain ⟨earlier, asset, hopened, hstands, rfl, hread⟩ := hlast.opened_of_waits hf
    obtain ⟨x, hplayable, hcreated, hnone, hlater, htimeout, href, haccount⟩ := hlook asset hstands
    have hclock := hopened.clock_le
    refine ⟨asset, x, href, haccount, fun hp => ?_, fun _ => ⟨earlier,
      hcreated ▸ hopened.trans hfrom, fun creation' hcreated' _ => ?_⟩⟩
    · rw [hplayable] at hp
      contradiction
    · obtain rfl : creation = creation' := Except.ok.inj (hcreated.symm.trans hcreated')
      rw [hlater]
      refine .looked hlast hr hf hread (fun hunknown => ?_) hreaches
      have hover := htimeout (hlater.trans hunknown)
      rw [hfrom.settings]
      omega
  | advance => contradiction
  | act a =>
    have hframe := World.frame_invariance.apply (World.frame_lawful hr) a last.world
    have hsame : deedsIn g (last.move r (.act a)).world.log = deedsIn g last.world.log :=
      hframe.deeds g nofun
    rw [hsame] at hnow
    contradiction

end Run

/-- The state that a load leaves when it stores how it ends. -/
inductive Stores (g : Nat) (name : String) : Outcome → State → Prop
  | failed (e : Error) : Stores g name (.failed e)
      { phase := .error, generation := g, assetName := some name, lastError := some e }
  | ready (a : Timeline.Alignment) : Stores g name (.ready a)
      { phase := .ready, offset := some a.offset, generation := g, assetName := some name }
  | readyWithoutOverlap (a : Timeline.Alignment) : Stores g name (.readyWithoutOverlap a)
      { phase := .ready, offset := some a.offset, generation := g, assetName := some name }

/-- The first deed of a closing stores the outcome in the state that the load has made. -/
theorem Closing.stores {settings : SyncSettings} {o : Outcome} {d : Deed} {ds : List Deed}
    (h : Closing settings (some o) (d :: ds)) (s : State) (name : String) :
    Stores (s.generation + 1) name o (d.what.after (s.beginLoad name)) := by
  cases h with
  | failed e => exact .failed e
  | ready => exact .ready _
  | readyWithoutOverlap => exact .readyWithoutOverlap _

/-- A load that is not superseded stores how it ends. -/
theorem Run.Reachable.stores {run : Run} (h : run.Reachable) {g number : Nat} {o : Outcome}
    (hd : ⟨.pending, .ended number o⟩ ∈ deedsIn g run.world.log) (ho : o ≠ .superseded)
    {asset : Asset} (hbegan : ⟨.pending, .began asset⟩ ∈ deedsIn g run.world.log) :
    ∃ before e after, run.world.log = before ++ e :: after ∧ e.isBy g ∧ e.what.isCommit ∧
      Stores g asset.name o e.state := by
  obtain ⟨horderly, hcalm⟩ := h.orderly
  have hsound := hcalm.sound
  obtain ⟨asked, closing, -, hclosing, heq⟩ := horderly.over_of_mem hd
  rcases hclosing.commits with ⟨hsuperseded, -⟩ | ⟨-, d, ds, rfl, hcommit⟩
  · contradiction
  · rw [List.append_assoc, List.cons_append] at heq
    obtain ⟨before, e, after, hlog, -, hby, hwhat, -⟩ := exists_entry heq
    have he : e.what.isCommit := hwhat ▸ hcommit
    obtain ⟨asset', earlier, b, mid, hbefore, hb, hbwhat, hmade⟩ :=
      horderly.state_at_commit hsound hlog he
    have hg := hsound.generation_of_isCommit hlog hby he
    obtain rfl : asset = asset' := by
      obtain ⟨b', hb', hbd⟩ := List.mem_filterMap.mp hbegan
      obtain ⟨hbg, hbegin⟩ := isBy_of_deed? hbd
      have hin : b ∈ run.world.log := by simp [hlog, hbefore]
      have hsame := hsound.eq_of_isBegin hb' hin hbg (hg ▸ hb) (by rw [hbegin]; rfl)
        (by rw [hbwhat]; rfl)
      rw [hsame, hbwhat] at hbegin
      exact (Happening.began.inj hbegin).symm
    refine ⟨before, e, after, hlog, hby, he, ?_⟩
    rw [(hsound before e after hlog).state, hmade, hwhat, ← hg, hmade]
    exact hclosing.stores _ _

/-- A load that is not superseded ends as the reference says of its answers, whatever other loads
and the hosts do in between. It has done what the account says, call by call; in particular the
media was told once to load its video, or not at all if it cannot play it. Each answer was given on
its way, and the state in which it stores its outcome is the one of this outcome. -/
theorem ended_eq_reference {run : Run} (h : run.Reachable) {g number : Nat} {o : Outcome}
    (hd : ⟨.pending, .ended number o⟩ ∈ deedsIn g run.world.log) (ho : o ≠ .superseded) :
    ∃ (asset : Asset) (x : Answers), o = reference run.world.settings asset x ∧
      deedsIn g run.world.log = account run.world.settings asset number x ∧
      (deedsIn g run.world.log).filterMap Deed.given? =
        (if x.playable then [asset.name] else []) ∧
      run.Answered number g asset x ∧
      ∃ before e after, run.world.log = before ++ e :: after ∧ e.isBy g ∧ e.what.isCommit ∧
        Stores g asset.name o e.state := by
  obtain ⟨asset, x, href, haccount, hanswered⟩ := h.accounted hd ho
  have hbegan : ⟨.pending, .began asset⟩ ∈ deedsIn g run.world.log := by
    rw [haccount]
    unfold account Answers.asked
    split
    · split <;> simp [opening]
    · simp
  refine ⟨asset, x, href, haccount, ?_, hanswered, h.stores hd ho hbegan⟩
  rw [haccount, given?_account]

/-- An asset that the hosts cannot play. -/
def sketch : Asset := { ride with name := "sketch.png", mime := "image/png" }

/-- Four loads one after the other: the media cannot play the first video, the second one has no
container, the duration of the third one does not come, and the fourth one becomes ready. -/
def loadedInTurn : Run :=
  Run.play World.reaction { world := { hosts := { session := ⟨30, 60⟩ } } }
    [.begin sketch, .begin clip, .read 1, .begin ride, .read 2, .advance 5000, .look 2,
      .act (.setDuration (some 60.0)), .begin ride, .read 3]

/-- The third load has waited for its time, and the fourth one is told its duration at once. -/
theorem reference_of_loadedInTurn :
    loadedInTurn.Reachable ∧
      (∃ asset x, Outcome.failed (.durationUnavailable 5000) = reference {} asset x ∧
        loadedInTurn.Answered 2 3 asset x) ∧
      ∃ asset x, Outcome.ready (align 0 60.0 ⟨30, 60⟩) = reference {} asset x ∧
        loadedInTurn.Answered 3 4 asset x := by
  have hreach : loadedInTurn.Reachable := (Run.Reachable.start _ _ _ _ _ _).play lawful_reaction _
  have hsettings : loadedInTurn.world.settings = {} := by decide +kernel
  have hthird : ⟨.pending, .ended 2 (.failed (.durationUnavailable 5000))⟩ ∈
      deedsIn 3 loadedInTurn.world.log := by decide +kernel
  have hfourth : ⟨.pending, .ended 3 (.ready (align 0 60.0 ⟨30, 60⟩))⟩ ∈
      deedsIn 4 loadedInTurn.world.log := by decide +kernel
  obtain ⟨asset, x, href, -, -, hanswered, -⟩ := ended_eq_reference hreach hthird nofun
  obtain ⟨asset', x', href', -, -, hanswered', -⟩ := ended_eq_reference hreach hfourth nofun
  rw [hsettings] at href href'
  exact ⟨hreach, ⟨asset, x, href, hanswered⟩, asset', x', href', hanswered'⟩

end VideoSync.Sync
