import VideoSync.Proofs.Sync.Origin

/-
  The turns of loads. From one suspension to the next a load acts alone: hosts may do what they like
  inside its calls, but no other load does anything. So the deeds of all loads, in the order of the
  log (`ledger`), are turns of single loads one after the other (`Run.Reachable.turns`), and there
  are few kinds of them (`Turn`): a load begins and gives the media its video, waits on, or ends,
  possibly after asking for the duration and for the session. How it ends is fixed by what it was
  told (`Finishes`).
-/

namespace VideoSync.Sync

open VideoSync.Timeline (Session align)

/-! ## The last stage -/

/-- A question of a load and its answer. -/
def asking (m : Method) (reply : Reply) : List Deed :=
  [⟨.pending, .called (.asked m)⟩, ⟨.pending, .returned m reply⟩]

/-- How a load ends whose video lies to the session like this. -/
def verdict (policy : OverlapPolicy) (a : Timeline.Alignment) (session : Session) : Outcome :=
  if a.overlaps then .ready a
  else match policy with
    | .reject => .failed (.ofAlignment a session)
    | .warn => .readyWithoutOverlap a

/-- What a load does last that ends so, given the duration of its video and the session. -/
def closing (settings : SyncSettings) (seconds : Float) (session : Session) :
    Outcome → List Deed
  | .ready a => success settings a seconds none
  | .readyWithoutOverlap a => success settings a seconds (some (.ofAlignment a session))
  | .superseded => []
  | .failed e => failure e

/-- How the last stage of a load ends, and the deeds of the load in it, given the creation time and
the duration of its video and whether it is current when the stage begins. -/
inductive Finishes (settings : SyncSettings) (creation : Int) :
    Except Error Float → (current : Bool) → Outcome → List Deed → Prop
  | stale (duration : Except Error Float) : Finishes settings creation duration false .superseded []
  | failed (e : Error) : Finishes settings creation (.error e) true (.failed e) (failure e)
  /-- It has become stale while it asked for the session. -/
  | overtaken (seconds : Float) (session : Session) :
      Finishes settings creation (.ok seconds) true .superseded
        (asking .sessionTimeline (.session session))
  | settled (seconds : Float) (session : Session) {o : Outcome}
      (ho : o = verdict settings.overlapPolicy (align creation seconds session) session) :
      Finishes settings creation (.ok seconds) true o
        (asking .sessionTimeline (.session session) ++ closing settings seconds session o)

namespace World

variable {r : Reaction} {g : Nat} {w : World}

theorem deedsIn_ask (hr : Lawful r) (m : Method) (reply : Hosts → Reply) (w : World) :
    deedsIn g (w.ask r (.load g .pending) m reply).log =
      deedsIn g w.log ++ asking m (reply (w.ask r (.load g .pending) m reply).hosts) :=
  deedsIn_callHost (frame_lawful hr) g .pending (.asked m) reply w

theorem settings_ask (hr : Lawful r) (m : Method) (reply : Hosts → Reply) (w : World) :
    (w.ask r (.load g .pending) m reply).settings = w.settings :=
  (frame_callHost (frame_lawful hr) (.load g .pending) (.asked m) reply w).settings

theorem fail_of_isCurrent (hr : Lawful r) (hg : w.isCurrent g) (e : Error) :
    (w.fail r g e).2 = .failed e ∧
      deedsIn g (w.fail r g e).1.log = deedsIn g w.log ++ failure e := by
  unfold fail
  rw [if_pos hg]
  refine ⟨rfl, ?_⟩
  dsimp only
  rw [deedsIn_tell (frame_lawful hr), deedsIn_tell (frame_lawful hr), deedsIn_become]
  simp [failure, told, Call.method]

theorem fail_of_stale (hg : w.isCurrent g = false) (e : Error) :
    w.fail r g e = (w, .superseded) := by
  unfold fail
  rw [hg]
  rfl

theorem enterReady_of_isCurrent (hr : Lawful r) (hg : w.isCurrent g) (a : Timeline.Alignment)
    (duration : Float) (warning : Option Error) :
    (w.enterReady r g a duration warning).2 =
        (if a.overlaps then .ready a else .readyWithoutOverlap a) ∧
      deedsIn g (w.enterReady r g a duration warning).1.log =
        deedsIn g w.log ++ success w.settings a duration warning := by
  unfold enterReady
  rw [if_pos hg]
  refine ⟨rfl, ?_⟩
  dsimp only
  rw [deedsIn_seekToStart hr, (frame_warn (g := g) hr .ready warning _).settings, deedsIn_warn hr,
    deedsIn_become]
  simp [success, become, note]

theorem enterReady_of_stale (hg : w.isCurrent g = false) (a : Timeline.Alignment)
    (duration : Float) (warning : Option Error) :
    w.enterReady r g a duration warning = (w, .superseded) := by
  unfold enterReady
  rw [hg]
  rfl

/-- A load that knows how its video lies to the session ends by the verdict, unless it has become
stale. -/
def judge (r : Reaction) (g : Nat) (a : Timeline.Alignment) (seconds : Float)
    (session : Session) (v : World) : World × Outcome :=
  if a.overlaps then v.enterReady r g a seconds none
  else match v.settings.overlapPolicy with
    | .reject => v.fail r g (.ofAlignment a session)
    | .warn => v.enterReady r g a seconds (some (.ofAlignment a session))

theorem judge_of_isCurrent (hr : Lawful r) (hg : w.isCurrent g) (a : Timeline.Alignment)
    (seconds : Float) (session : Session) :
    (w.judge r g a seconds session).2 = verdict w.settings.overlapPolicy a session ∧
      deedsIn g (w.judge r g a seconds session).1.log = deedsIn g w.log ++
        closing w.settings seconds session (verdict w.settings.overlapPolicy a session) := by
  have hready := enterReady_of_isCurrent hr hg a seconds
  have hfail := fail_of_isCurrent hr hg (.ofAlignment a session)
  unfold judge verdict
  by_cases hov : a.overlaps
  · simp only [if_pos hov] at hready ⊢
    exact hready none
  · simp only [if_neg hov] at hready ⊢
    cases w.settings.overlapPolicy with
    | reject => exact hfail
    | warn => exact hready _

theorem judge_of_stale (hg : w.isCurrent g = false) (a : Timeline.Alignment) (seconds : Float)
    (session : Session) : w.judge r g a seconds session = (w, .superseded) := by
  unfold judge
  split
  · exact enterReady_of_stale hg a seconds none
  · split
    · exact fail_of_stale hg _
    · exact enterReady_of_stale hg a seconds _

theorem finish_of_stale (hg : w.isCurrent g = false) (creation : Int)
    (duration : Except Error Float) : w.finish r g creation duration = (w, .superseded) := by
  unfold finish
  rw [hg]
  rfl

theorem finish_error (hg : w.isCurrent g) (creation : Int) (e : Error) :
    w.finish r g creation (.error e) = w.fail r g e := by
  unfold finish
  rw [hg]
  rfl

theorem finish_ok (hg : w.isCurrent g) (creation : Int) (seconds : Float) {v : World}
    (hv : v = w.ask r (.load g .pending) .sessionTimeline fun h => .session h.session) :
    w.finish r g creation (.ok seconds) =
      v.judge r g (align creation seconds v.hosts.session) seconds v.hosts.session := by
  unfold finish
  rw [hg, hv]
  rfl

/-- What the last stage of a load comes to. -/
theorem finishes_finish (hr : Lawful r) (creation : Int) (duration : Except Error Float)
    (w : World) : ∃ ds, Finishes w.settings creation duration (w.isCurrent g)
      (w.finish r g creation duration).2 ds ∧
    deedsIn g (w.finish r g creation duration).1.log = deedsIn g w.log ++ ds := by
  cases hg : w.isCurrent g with
  | false =>
    rw [finish_of_stale hg]
    exact ⟨[], .stale duration, (List.append_nil _).symm⟩
  | true =>
    cases duration with
    | error e =>
      rw [finish_error hg]
      obtain ⟨ho, hds⟩ := fail_of_isCurrent hr hg e
      exact ⟨failure e, ho ▸ .failed e, hds⟩
    | ok seconds =>
      have hasked := deedsIn_ask (g := g) hr .sessionTimeline (fun h => .session h.session) w
      have hsettings := settings_ask (g := g) hr .sessionTimeline (fun h => .session h.session) w
      rw [finish_ok hg creation seconds rfl]
      generalize w.ask r (.load g .pending) .sessionTimeline (fun h => .session h.session) = v
        at hasked hsettings ⊢
      cases hg' : v.isCurrent g with
      | false =>
        rw [judge_of_stale hg']
        exact ⟨_, .overtaken seconds v.hosts.session, hasked⟩
      | true =>
        obtain ⟨ho, hds⟩ := judge_of_isCurrent hr hg'
          (align creation seconds v.hosts.session) seconds v.hosts.session
        rw [hsettings] at ho hds
        refine ⟨_, .settled seconds v.hosts.session ho, ?_⟩
        rw [hds, hasked, ho, List.append_assoc]

end World

/-! ## Stages -/

/-- A load ends: it has asked something, and does last what its outcome says. A load that is ready
without an overlap warns of the session that it was told, which the settings have to allow. -/
def Ends (settings : SyncSettings) (o : Outcome) (ds : List Deed) : Prop :=
  ∃ asked seconds session, ds = asked ++ closing settings seconds session o ∧
    (∀ d ∈ asked, d.Quiet) ∧ ∀ a, o = .readyWithoutOverlap a →
      settings.overlapPolicy = .warn ∧
        ⟨.pending, .returned .sessionTimeline (.session session)⟩ ∈ asked

/-- The deeds of a load in a stage with an outcome, or with none while it goes on. -/
def Passes (settings : SyncSettings) (o : Option Outcome) (ds : List Deed) : Prop :=
  match o with
  | none => ∀ d ∈ ds, d.Quiet
  | some o => Ends settings o ds

theorem quiet_asking (m : Method) (reply : Reply) : ∀ d ∈ asking m reply, d.Quiet := by
  intro d hd
  simp only [asking, List.mem_cons, List.not_mem_nil, or_false] at hd
  rcases hd with rfl | rfl <;> exact ⟨rfl, trivial⟩

theorem ends_superseded (settings : SyncSettings) : Ends settings .superseded [] :=
  ⟨[], 0.0, ⟨0, 0⟩, rfl, fun _ hd => absurd hd List.not_mem_nil, nofun⟩

theorem ends_failed (settings : SyncSettings) (e : Error) :
    Ends settings (.failed e) (failure e) :=
  ⟨[], 0.0, ⟨0, 0⟩, rfl, fun _ hd => absurd hd List.not_mem_nil, nofun⟩

theorem policy_of_verdict {policy : OverlapPolicy} {a b : Timeline.Alignment} {session : Session}
    (h : verdict policy a session = .readyWithoutOverlap b) : policy = .warn := by
  unfold verdict at h
  split at h
  · contradiction
  · cases policy with
    | reject => contradiction
    | warn => rfl

theorem Finishes.ends {settings : SyncSettings} {creation : Int} {duration : Except Error Float}
    {current : Bool} {o : Outcome} {ds : List Deed}
    (h : Finishes settings creation duration current o ds) : Ends settings o ds := by
  cases h with
  | stale => exact ends_superseded settings
  | failed e => exact ends_failed settings e
  | overtaken seconds session =>
    exact ⟨_, seconds, session, (List.append_nil _).symm, quiet_asking _ _, nofun⟩
  | settled seconds session ho =>
    refine ⟨_, seconds, session, rfl, quiet_asking _ _, fun a ha => ?_⟩
    exact ⟨policy_of_verdict (ho.symm.trans ha), by simp [asking]⟩

theorem Passes.prepend {settings : SyncSettings} {o : Option Outcome} {quiet ds : List Deed}
    (hq : ∀ d ∈ quiet, d.Quiet) (h : Passes settings o ds) : Passes settings o (quiet ++ ds) := by
  cases o with
  | none => exact List.forall_mem_append.mpr ⟨hq, h⟩
  | some o =>
    obtain ⟨asked, seconds, session, rfl, hasked, hwarned⟩ := h
    refine ⟨quiet ++ asked, seconds, session, (List.append_assoc _ _ _).symm,
      List.forall_mem_append.mpr ⟨hq, hasked⟩, fun a ha => ?_⟩
    exact ⟨(hwarned a ha).1, List.mem_append_right _ (hwarned a ha).2⟩

namespace World

variable {r : Reaction} {g : Nat} {w : World}

theorem ends_fail (hr : Lawful r) (e : Error) (w : World) :
    ∃ ds, Ends w.settings (w.fail r g e).2 ds ∧
      deedsIn g (w.fail r g e).1.log = deedsIn g w.log ++ ds := by
  cases hg : w.isCurrent g with
  | false =>
    rw [fail_of_stale hg]
    exact ⟨[], ends_superseded _, (List.append_nil _).symm⟩
  | true =>
    obtain ⟨ho, hds⟩ := fail_of_isCurrent hr hg e
    rw [ho]
    exact ⟨failure e, ends_failed _ e, hds⟩

theorem passes_openMedia (hr : Lawful r) (asset : Asset) (w : World) :
    ∃ ds, Passes w.settings (w.openMedia r g asset).2 ds ∧
      deedsIn g (w.openMedia r g asset).1.log = deedsIn g w.log ++ ds := by
  have hasked := deedsIn_ask (g := g) hr .canPlayType
    (fun h => .playable (h.playable.contains asset.mime)) w
  have hsettings := settings_ask (g := g) hr .canPlayType
    (fun h => .playable (h.playable.contains asset.mime)) w
  unfold openMedia
  dsimp only
  generalize w.ask r (.load g .pending) .canPlayType
    (fun h => .playable (h.playable.contains asset.mime)) = v at hasked hsettings ⊢
  split
  · refine ⟨asking .canPlayType (.playable (v.hosts.playable.contains asset.mime)) ++
      told .pending (.load asset.name), ?_, ?_⟩
    · refine List.forall_mem_append.mpr ⟨quiet_asking _ _, fun d hd => ?_⟩
      simp only [told, List.mem_cons, List.not_mem_nil, or_false] at hd
      rcases hd with rfl | rfl <;> exact ⟨rfl, trivial⟩
    · dsimp only
      rw [deedsIn_tell (frame_lawful hr), hasked, List.append_assoc]
      rfl
  · obtain ⟨ds, hends, hds⟩ := ends_fail (g := g) hr (.unsupportedMediaType asset.mime) v
    rw [hsettings] at hends
    refine ⟨asking .canPlayType (.playable (v.hosts.playable.contains asset.mime)) ++ ds,
      Passes.prepend (quiet_asking _ _) hends, ?_⟩
    rw [← List.append_assoc, ← hasked]
    exact hds

theorem passes_containerRead (hr : Lawful r)
    (result : Except Container.Error Container.Metadata) (w : World) :
    ∃ ds, Passes w.settings (match (w.containerRead r g result).2 with
        | .ended o => some o
        | .waiting _ => none) ds ∧
      deedsIn g (w.containerRead r g result).1.log = deedsIn g w.log ++ ds := by
  unfold containerRead
  cases hg : w.isCurrent g with
  | false => exact ⟨[], ends_superseded _, (List.append_nil _).symm⟩
  | true =>
    cases result with
    | error e => exact ends_fail hr _ w
    | ok metadata =>
      have hasked := deedsIn_ask (g := g) hr .duration (fun h => .duration h.duration) w
      have hsettings := settings_ask (g := g) hr .duration (fun h => .duration h.duration) w
      dsimp only
      generalize w.ask r (.load g .pending) .duration (fun h => .duration h.duration) = v
        at hasked hsettings ⊢
      cases hduration : v.hosts.duration with
      | some seconds =>
        obtain ⟨ds, hfinishes, hds⟩ :=
          finishes_finish (g := g) hr metadata.creation (validDuration seconds) v
        have hends := hfinishes.ends
        rw [hsettings] at hends
        have hpasses : Passes w.settings (some _) _ := hends
        rw [hduration] at hasked
        refine ⟨asking .duration (.duration (some seconds)) ++ ds,
          hpasses.prepend (quiet_asking _ _), hds.trans ?_⟩
        rw [hasked, List.append_assoc]
      | none => exact ⟨_, quiet_asking _ _, hasked⟩

theorem passes_lookAgain (hr : Lawful r) (creation : Int) (waited : Nat) (w : World) :
    ∃ ds, Passes w.settings (w.lookAgain r g creation waited).2 ds ∧
      deedsIn g (w.lookAgain r g creation waited).1.log = deedsIn g w.log ++ ds := by
  unfold lookAgain
  split
  · next seconds _ =>
    obtain ⟨ds, hfinishes, hds⟩ := finishes_finish (g := g) hr creation (validDuration seconds) w
    exact ⟨ds, hfinishes.ends, hds⟩
  · dsimp only
    split
    · obtain ⟨ds, hfinishes, hds⟩ := finishes_finish (g := g) hr creation
        (.error (.durationUnavailable w.settings.metadataTimeout)) w
      exact ⟨ds, hfinishes.ends, hds⟩
    · exact ⟨[], fun _ hd => absurd hd List.not_mem_nil, (List.append_nil _).symm⟩

end World

/-! ## The ledger of all loads -/

/-- The deed of a load in an entry, with the generation of the load. -/
def Entry.loadDeed? (e : Entry) : Option (Nat × Deed) :=
  match e.actor with
  | .load g stage => some (g, ⟨stage, e.what⟩)
  | .outside => none

/-- What loads do in a log, each deed with the generation of its load. -/
def ledger (log : List Entry) : List (Nat × Deed) := log.filterMap Entry.loadDeed?

theorem ledger_append (log more : List Entry) : ledger (log ++ more) = ledger log ++ ledger more :=
  List.filterMap_append

theorem loadDeed?_eq_some {e : Entry} {g : Nat} {d : Deed} :
    e.loadDeed? = some (g, d) ↔ e.actor.deed? g e.what = some d := by
  obtain ⟨actor, what, s⟩ := e
  cases actor with
  | outside => exact ⟨nofun, nofun⟩
  | load g' stage =>
    by_cases hg : g' = g
    · subst hg
      simp [Entry.loadDeed?]
    · have hne : (Actor.load g' stage).generation? ≠ some g := fun heq => hg (Option.some.inj heq)
      have hnone := deed?_of_ne hne what
      simp [Entry.loadDeed?, hnone, hg]

theorem mem_ledger_iff {log : List Entry} {g : Nat} {d : Deed} :
    (g, d) ∈ ledger log ↔ d ∈ deedsIn g log := by
  simp only [ledger, deedsIn, List.mem_filterMap, loadDeed?_eq_some]

/-- Where only one load acts, the ledger holds its deeds. -/
theorem ledger_eq_map {log : List Entry} {g : Nat} (h : ∀ g', g' ≠ g → deedsIn g' log = []) :
    ledger log = (deedsIn g log).map (g, ·) := by
  induction log with
  | nil => rfl
  | cons e log ih =>
    have hrest : ∀ g', g' ≠ g → deedsIn g' log = [] := by
      intro g' hg'
      have hnone := List.filterMap_eq_nil_iff.mp (h g' hg')
      exact List.filterMap_eq_nil_iff.mpr fun x hx => hnone x (List.mem_cons_of_mem e hx)
    have hhead (g' : Nat) (hg' : g' ≠ g) : e.actor.deed? g' e.what = none :=
      List.filterMap_eq_nil_iff.mp (h g' hg') e List.mem_cons_self
    obtain ⟨who, what, s⟩ := e
    cases who with
    | outside => exact ih hrest
    | load g' stage =>
      by_cases hg : g' = g
      · subst hg
        have hledger : ledger (⟨.load g' stage, what, s⟩ :: log) =
            (g', ⟨stage, what⟩) :: ledger log := rfl
        have hdeeds : deedsIn g' (⟨.load g' stage, what, s⟩ :: log) =
            ⟨stage, what⟩ :: deedsIn g' log :=
          List.filterMap_cons_some (deed?_load g' stage what)
        rw [hledger, hdeeds, ih hrest, List.map_cons]
      · have hnone := hhead g' hg
        rw [deed?_load] at hnone
        contradiction

/-- What a load does while no other load acts is added to the ledger. -/
theorem ledger_of_frame {g : Nat} {w w' : World} {ds : List Deed} (hlog : w.log <+: w'.log)
    (hf : Frame (some g) w w') (hds : deedsIn g w'.log = deedsIn g w.log ++ ds) :
    ledger w'.log = ledger w.log ++ ds.map (g, ·) := by
  obtain ⟨more, hmore⟩ := hlog
  rw [← hmore, deedsIn_append, List.append_cancel_left_eq] at hds
  have halone (g' : Nat) (hg' : g' ≠ g) : deedsIn g' more = [] := by
    have hsame := hf.deeds_of_ne hg'
    rw [← hmore, deedsIn_append] at hsame
    exact List.append_right_eq_self.mp hsame
  rw [← hmore, ledger_append, ledger_eq_map halone, hds]

/-- What hosts do on their own does not show in the ledger. -/
theorem ledger_of_frame_none {w w' : World} (hlog : w.log <+: w'.log) (hf : Frame none w w') :
    ledger w'.log = ledger w.log := by
  have hf' : Frame (some 0) w w' :=
    ⟨hf.settings, hf.bindings, hf.generation, fun g _ => hf.deeds g nofun, hf.calls⟩
  have hds : deedsIn 0 w'.log = deedsIn 0 w.log ++ [] := by
    rw [hf.deeds 0 nofun, List.append_nil]
  rw [ledger_of_frame hlog hf' hds]
  exact List.append_nil _

/-- What a load does from one suspension to the next. -/
inductive Turn (settings : SyncSettings) : List Deed → Prop
  | begins (asset : Asset) : Turn settings [⟨.pending, .began asset⟩]
  | onward {ds : List Deed} (h : ∀ d ∈ ds, d.Quiet) : Turn settings ds
  | ends {o : Outcome} {ds : List Deed} (number : Nat) (h : Ends settings o ds) :
      Turn settings (ds ++ [⟨.pending, .ended number o⟩])

/-- Turns of loads, one after the other. -/
inductive Turns (settings : SyncSettings) : List (Nat × Deed) → Prop
  | nil : Turns settings []
  | turn {deeds : List (Nat × Deed)} (h : Turns settings deeds) (g : Nat) {ds : List Deed}
      (hds : Turn settings ds) : Turns settings (deeds ++ ds.map (g, ·))

namespace Run

variable {run : Run} {w : World} {r : Reaction}

/-- A stage of a load in flight, and its end if it comes to it. -/
theorem turns_settle (h : Turns run.world.settings (ledger run.world.log)) (l : InFlight)
    {o : Option Outcome} {ds : List Deed} (hc : Continues run.world w)
    (hf : Frame (some l.generation) run.world w) (hp : Passes run.world.settings o ds)
    (hds : deedsIn l.generation w.log = deedsIn l.generation run.world.log ++ ds) :
    Turns run.world.settings (ledger ((run.withWorld w).settle l o).world.log) := by
  obtain ⟨-, more, hlog, -⟩ := hc
  have hledger := ledger_of_frame (hlog ▸ List.prefix_append _ _) hf hds
  cases o with
  | none =>
    show Turns _ (ledger w.log)
    rw [hledger]
    exact h.turn _ (.onward hp)
  | some o =>
    have hended : ledger ((run.withWorld w).conclude l o).world.log =
        ledger w.log ++ [(l.generation, ⟨.pending, .ended l.number o⟩)] := ledger_append _ _
    show Turns _ (ledger ((run.withWorld w).conclude l o).world.log)
    rw [hended, hledger, List.append_assoc]
    have hturn := h.turn l.generation (.ends l.number hp)
    rwa [List.map_append] at hturn

theorem turns_look (h : Turns run.world.settings (ledger run.world.log))
    (hcalm : run.world.Calm) (hr : Lawful r) (number : Nat) :
    Turns run.world.settings (ledger (run.look r number).world.log) := by
  unfold Run.look
  split
  · next n generation creation since _ =>
    obtain ⟨ds, hp, hds⟩ := World.passes_lookAgain (g := generation) hr creation
      (run.clock - since) run.world
    exact turns_settle h _ (World.continues_lookAgain hr _ _ _ _)
      (World.proceeds_lookAgain hr hcalm _ _).frame hp hds
  · exact h

theorem turns_read (h : Turns run.world.settings (ledger run.world.log))
    (hcalm : run.world.Calm) (hr : Lawful r) (number : Nat) :
    Turns run.world.settings (ledger (run.read r number).world.log) := by
  unfold Run.read
  split
  · next n generation source _ =>
    have hproceeds := World.proceeds_containerRead (g := generation) hr hcalm
      (source.metadata run.files)
    have hcontinues := World.continues_containerRead hr generation (source.metadata run.files)
      run.world
    obtain ⟨ds, hp, hds⟩ := World.passes_containerRead (g := generation) hr
      (source.metadata run.files) run.world
    dsimp only
    split
    · next o ho =>
      rw [ho] at hp
      exact turns_settle h ⟨n, generation, .container source⟩ hcontinues hproceeds.frame hp hds
    · next creation hwaits =>
      rw [hwaits] at hp
      have hread := turns_settle h ⟨n, generation, .container source⟩ hcontinues
        hproceeds.frame hp hds
      rw [← hproceeds.frame.settings] at hread ⊢
      let w := (run.world.containerRead r generation (source.metadata run.files)).1
      let waiting : Run := (run.withWorld w).setWait number (.duration creation run.clock)
      have hwaiting : Turns waiting.world.settings (ledger waiting.world.log) := hread
      exact turns_look hwaiting hproceeds.calm hr number
  · exact h

theorem turns_begin (h : Turns run.world.settings (ledger run.world.log)) (ho : run.Orderly)
    (hcalm : run.world.Calm) (hr : Lawful r) (asset : Asset) :
    Turns run.world.settings (ledger (run.begin r asset).world.log) := by
  obtain ⟨hw, hdue, -, -⟩ := ho.began hcalm asset rfl rfl
  let l : InFlight := ⟨run.begun, run.world.state.generation + 1, .container asset.source⟩
  let begun : Run :=
    { run with
      world := run.world.become (.load l.generation .pending) (.began asset)
        (run.world.state.beginLoad asset.name)
      begun := run.begun + 1
      inFlight := run.inFlight ++ [l] }
  have hbegun : Turns begun.world.settings (ledger begun.world.log) := by
    have hledger : ledger begun.world.log = ledger run.world.log ++
        [(⟨.pending, .began asset⟩ : Deed)].map (l.generation, ·) := ledger_append _ _
    rw [hledger]
    exact h.turn _ (.begins asset)
  obtain ⟨ds, hp, hds⟩ := World.passes_openMedia (g := l.generation) hr asset begun.world
  exact turns_settle hbegun l (World.continues_openMedia hr _ _ _)
    (World.proceeds_openMedia hr hw asset hdue).frame hp hds

/-- In every reachable run loads act in turns. -/
theorem Reachable.turns (h : run.Reachable) :
    Turns run.world.settings (ledger run.world.log) := by
  induction h with
  | start => exact .nil
  | files _ _ ih => exact ih
  | @move run hreach r hr m ih =>
    obtain ⟨ho, hcalm⟩ := hreach.orderly
    obtain ⟨hsettings, more, hlog, -⟩ := continues_move hr run m
    rw [hsettings]
    cases m with
    | begin asset => exact turns_begin ih ho hcalm hr asset
    | read number => exact turns_read ih hcalm hr number
    | look number => exact turns_look ih hcalm hr number
    | advance => exact ih
    | act a =>
      have hsame := ledger_of_frame_none (hlog ▸ List.prefix_append _ _)
        (World.frame_invariance.apply (World.frame_lawful hr) a run.world)
      show Turns _ (ledger (run.world.apply r a).1.log)
      rw [hsame]
      exact ih

end Run
end VideoSync.Sync
