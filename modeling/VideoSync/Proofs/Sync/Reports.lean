import VideoSync.Proofs.Sync.Turns

/-
  What is reported. A load that fails has the media dropped and its error reported; a load that is
  ready although its video misses the session has that reported as a warning; nothing else is
  reported. The ledger of a run is read entry by entry here: what a function picks out of it
  (`Picks`) is fixed by how the loads ended and by the sessions that they were told
  (`Turns.picked`), and this gives the reports, the stored results and the number of unloads.
-/

namespace VideoSync.Sync

open VideoSync.Timeline (Session)

/-! ## Reading the ledger -/

/-- The text that a call reports. -/
def Happening.report? : Happening → Option String
  | called (.report text) => some text
  | _ => none

/-- The load that a deed ends, by its generation, with its outcome. -/
def ending? (x : Nat × Deed) : Option (Nat × Outcome) := x.2.what.ended?.map fun (_, o) => (x.1, o)

/-- What a deed stores in the state, with the generation of its load. -/
def stored? (x : Nat × Deed) : Option (Nat × Happening) :=
  if x.2.what.isCommit then some (x.1, x.2.what) else none

/-- Whether the media is dropped. -/
def Happening.unload? : Happening → Option Unit
  | called .unload => some ()
  | _ => none

theorem isSome_unload? (what : Happening) :
    what.unload?.isSome = decide (what = .called .unload) := by
  cases what with
  | called c => cases c <;> rfl
  | _ => rfl

/-- The loads that ended, each with its outcome, in the order in which they did. -/
def endings (log : List Entry) : List (Nat × Outcome) := (ledger log).filterMap ending?

/-- The error of a load that has failed. -/
def Outcome.error? : Outcome → Option Error
  | failed e => some e
  | _ => none

/-- What a load complains of that ended so, given the session that it was told: its error, or that
its video misses the session. -/
def Outcome.complaint? (session : Option Session) : Outcome → Option Error
  | failed e => some e
  | readyWithoutOverlap a => session.map (.ofAlignment a ·)
  | ready _ | superseded => none

/-- What a load stores that ends so. -/
def Outcome.stored? (session : Option Session) : Outcome → Option Happening
  | failed e => some (.failed e)
  | ready a => some (.ready a.offset none)
  | readyWithoutOverlap a => session.map fun s => .ready a.offset (some (.ofAlignment a s))
  | superseded => none

/-- The session that the load of a generation was told. -/
def sessionOf (log : List Entry) (g : Nat) : Option Session :=
  (sessionsTold (deedsIn g log)).head?

/-- A function of deeds picks out nothing before the closing of a load, and of the closing what `k`
says for the outcome and the session. -/
structure Picks {β : Type} (f : Nat × Deed → Option β)
    (k : Nat → Option Session → Outcome → Option β) : Prop where
  quiet : ∀ g d, d.Quiet → f (g, d) = none
  began : ∀ g asset, f (g, ⟨.pending, .began asset⟩) = none
  ended : ∀ g number o, f (g, ⟨.pending, .ended number o⟩) = none
  closing : ∀ g settings seconds session o,
    ((closing settings seconds session o).map (g, ·)).filterMap f = (k g (some session) o).toList
  /-- The session matters for warnings only. -/
  session : ∀ g o, (∀ a, o ≠ .readyWithoutOverlap a) → ∀ s s', k g s o = k g s' o

theorem Deed.Telling.ended? {d : Deed} (h : d.Telling) : d.what.ended? = none := by
  obtain ⟨stage, what⟩ := d
  cases what <;> first | rfl | contradiction

section Picks

variable {β : Type} {f : Nat × Deed → Option β} {k : Nat → Option Session → Outcome → Option β}
  {settings : SyncSettings} {g : Nat} {ds : List Deed}

theorem Picks.of_quiet (h : Picks f k) (hq : ∀ d ∈ ds, d.Quiet) :
    (ds.map (g, ·)).filterMap f = [] := by
  refine List.filterMap_eq_nil_iff.mpr fun x hx => ?_
  obtain ⟨d, hd, rfl⟩ := List.mem_map.mp hx
  exact h.quiet g d (hq d hd)

/-- What closes a load does not end it yet. -/
theorem ending?_closing (g : Nat) (settings : SyncSettings) (seconds : Float) (session : Session)
    (o : Outcome) : ((closing settings seconds session o).map (g, ·)).filterMap ending? = [] := by
  have hnone (d : Deed) (hd : d ∈ closing settings seconds session o) : d.what.ended? = none := by
    have hlater {e? : Option Error} {a : Timeline.Alignment}
        (hd : d ∈ success settings a seconds e?) : d.what.ended? = none := by
      rcases List.mem_cons.mp hd with rfl | hd
      · rfl
      · exact (telling_of_mem_success hd).ended?
    cases o with
    | superseded => exact absurd hd List.not_mem_nil
    | failed e => exact (Closing.failed e : Closing settings _ _).ended? hd
    | ready a => exact hlater hd
    | readyWithoutOverlap a => exact hlater hd
  refine List.filterMap_eq_nil_iff.mpr fun x hx => ?_
  obtain ⟨d, hd, rfl⟩ := List.mem_map.mp hx
  simp [ending?, hnone d hd]

theorem ending?_of_quiet (g : Nat) (hq : ∀ d ∈ ds, d.Quiet) :
    (ds.map (g, ·)).filterMap ending? = [] := by
  refine List.filterMap_eq_nil_iff.mpr fun x hx => ?_
  obtain ⟨d, hd, rfl⟩ := List.mem_map.mp hx
  have hnone := ended?_eq_none (hq d hd).not_settlement
  simp [ending?, hnone]

/-- What is picked out of a turn is what the end of the load in it says, if it has one. -/
theorem Turn.picked (h : Turn settings ds) (hf : Picks f k) (g : Nat) {session? : Option Session}
    (htold : ∀ number a session, ⟨.pending, .ended number (.readyWithoutOverlap a)⟩ ∈ ds →
      ⟨.pending, .returned .sessionTimeline (.session session)⟩ ∈ ds → session? = some session) :
    (ds.map (g, ·)).filterMap f =
      ((ds.map (g, ·)).filterMap ending?).filterMap fun (g, o) => k g session? o := by
  cases h with
  | begins asset => simp [hf.began, ending?, Happening.ended?]
  | onward hq => rw [hf.of_quiet hq, ending?_of_quiet g hq, List.filterMap_nil]
  | @ends o ds number h =>
    obtain ⟨asked, seconds, session, rfl, hasked, hwarned⟩ := h
    have hsession : k g (some session) o = k g session? o := by
      by_cases ho : ∃ a, o = .readyWithoutOverlap a
      · obtain ⟨a, rfl⟩ := ho
        obtain ⟨-, hmem⟩ := hwarned a rfl
        rw [htold number a session (by simp) (by simp [hmem])]
      · exact hf.session g o (fun a ha => ho ⟨a, ha⟩) _ _
    have hends : ((asked ++ closing settings seconds session o ++
        [(⟨.pending, .ended number o⟩ : Deed)]).map (g, ·)).filterMap ending? = [(g, o)] := by
      rw [List.map_append, List.filterMap_append, List.map_append, List.filterMap_append,
        ending?_of_quiet g hasked, ending?_closing]
      rfl
    have hpicks : ((asked ++ closing settings seconds session o ++
        [(⟨.pending, .ended number o⟩ : Deed)]).map (g, ·)).filterMap f =
        (k g session? o).toList := by
      rw [List.map_append, List.filterMap_append, List.map_append, List.filterMap_append,
        hf.of_quiet hasked, hf.closing, hsession, List.map_singleton,
        List.filterMap_cons_none (hf.ended g number o)]
      exact List.append_nil _
    rw [hends, hpicks]
    cases hk : k g session? o <;> simp [hk]

/-- A load that is ready without an overlap was told the session, and the settings only warn. -/
theorem Turn.warned (h : Turn settings ds) {stage : Stage} {number : Nat} {a : Timeline.Alignment}
    (hend : ⟨stage, .ended number (.readyWithoutOverlap a)⟩ ∈ ds) :
    stage = .pending ∧ settings.overlapPolicy = .warn ∧ ∃ session : Session,
      ⟨.pending, .returned .sessionTimeline (.session session)⟩ ∈ ds := by
  have hpicked {ds : List Deed} (hd : ⟨stage, .ended number (.readyWithoutOverlap a)⟩ ∈ ds) :
      (0, .readyWithoutOverlap a) ∈ (ds.map (0, ·)).filterMap ending? :=
    List.mem_filterMap.mpr ⟨_, List.mem_map_of_mem hd, rfl⟩
  cases h with
  | begins asset => exact absurd (List.mem_singleton.mp hend) nofun
  | onward hq =>
    have hmem := hpicked hend
    rw [ending?_of_quiet 0 hq] at hmem
    exact absurd hmem List.not_mem_nil
  | @ends o ds number' h =>
    obtain ⟨asked, seconds, session, rfl, hasked, hwarned⟩ := h
    rcases List.mem_append.mp hend with hend | hend
    · rcases List.mem_append.mp hend with hend | hend
      · have hmem := hpicked hend
        rw [ending?_of_quiet 0 hasked] at hmem
        exact absurd hmem List.not_mem_nil
      · have hmem := hpicked hend
        rw [ending?_closing] at hmem
        exact absurd hmem List.not_mem_nil
    · obtain ⟨rfl, -, rfl⟩ : stage = .pending ∧ number = number' ∧ .readyWithoutOverlap a = o := by
        simpa using hend
      obtain ⟨hpolicy, hsession⟩ := hwarned a rfl
      exact ⟨rfl, hpolicy, session, by simp [hsession]⟩

/-- What is picked out of all turns is what the ends of the loads say. -/
theorem Turns.picked {deeds : List (Nat × Deed)} (h : Turns settings deeds) (hf : Picks f k)
    {told : Nat → Option Session}
    (htold : ∀ g number a session,
      (g, ⟨.pending, .ended number (.readyWithoutOverlap a)⟩) ∈ deeds →
      (g, ⟨.pending, .returned .sessionTimeline (.session session)⟩) ∈ deeds →
        told g = some session) :
    deeds.filterMap f = (deeds.filterMap ending?).filterMap fun (g, o) => k g (told g) o := by
  induction h with
  | nil => rfl
  | @turn deeds h g ds hds ih =>
    have hbefore := ih fun g number a session hend hsession =>
      htold g number a session (List.mem_append_left _ hend) (List.mem_append_left _ hsession)
    have hturn : (ds.map (g, ·)).filterMap f = ((ds.map (g, ·)).filterMap ending?).filterMap
        fun (g', o) => k g' (told g) o :=
      hds.picked hf g fun number a session hend hsession =>
        htold g number a session (List.mem_append_right _ (List.mem_map_of_mem hend))
          (List.mem_append_right _ (List.mem_map_of_mem hsession))
    rw [List.filterMap_append, List.filterMap_append, List.filterMap_append, hbefore, hturn]
    congr 1
    refine List.filterMap_congr fun x hx => ?_
    obtain ⟨y, hy, hxy⟩ := List.mem_filterMap.mp hx
    obtain ⟨d, -, rfl⟩ := List.mem_map.mp hy
    obtain ⟨z, -, rfl⟩ := Option.map_eq_some_iff.mp hxy
    rfl

end Picks

/-! ## Reports, results and unloads -/

section Closing

variable (settings : SyncSettings) (seconds : Float) (session : Session) (a : Timeline.Alignment)

/-- A load that becomes ready may move media and cursor or not. -/
theorem positioning_cases :
    positioning settings a seconds = [] ∨ positioning settings a seconds =
      told .ready (.setCurrentTime (a.initialPosition seconds)) ++
        told .ready (.setCursor (a.telemetryTime (a.initialPosition seconds))) := by
  unfold positioning
  split
  · exact .inr rfl
  · exact .inl rfl

theorem closing_ready : closing settings seconds session (.ready a) =
    ⟨.ready, .ready a.offset none⟩ :: positioning settings a seconds := rfl

theorem closing_readyWithoutOverlap : closing settings seconds session (.readyWithoutOverlap a) =
    ⟨.ready, .ready a.offset (some (.ofAlignment a session))⟩ ::
      (told .ready (.report (Error.ofAlignment a session).message) ++
        positioning settings a seconds) := rfl

end Closing

/-- What loads report. -/
theorem picks_report :
    Picks (fun x => x.2.what.report?) fun _ s o => (o.complaint? s).map Error.message where
  quiet g d hd := by
    obtain ⟨stage, what⟩ := d
    cases what with
    | called c => cases c <;> first | rfl | exact hd.2.elim
    | _ => rfl
  began _ _ := rfl
  ended _ _ _ := rfl
  closing g settings seconds session o := by
    cases o with
    | superseded => rfl
    | failed e => rfl
    | ready a =>
      rw [closing_ready]
      rcases positioning_cases settings seconds a with h | h <;> rw [h] <;> rfl
    | readyWithoutOverlap a =>
      rw [closing_readyWithoutOverlap]
      rcases positioning_cases settings seconds a with h | h <;> rw [h] <;> rfl
  session g o ho s s' := by
    cases o with
    | readyWithoutOverlap a => exact absurd rfl (ho a)
    | _ => rfl

/-- What loads store. -/
theorem picks_stored :
    Picks stored? fun g s o => (o.stored? s).map (g, ·) where
  quiet g d hd := by
    have hnone := isSettlement_false_isCommit hd.not_settlement
    simp [stored?, hnone]
  began _ _ := rfl
  ended _ _ _ := rfl
  closing g settings seconds session o := by
    cases o with
    | superseded => rfl
    | failed e => rfl
    | ready a =>
      rw [closing_ready]
      rcases positioning_cases settings seconds a with h | h <;> rw [h] <;> rfl
    | readyWithoutOverlap a =>
      rw [closing_readyWithoutOverlap]
      rcases positioning_cases settings seconds a with h | h <;> rw [h] <;> rfl
  session g o ho s s' := by
    cases o with
    | readyWithoutOverlap a => exact absurd rfl (ho a)
    | _ => rfl

/-- What loads have dropped. -/
theorem picks_unload :
    Picks (fun x => x.2.what.unload?) fun _ _ o => o.error?.map fun _ => () where
  quiet g d hd := by
    obtain ⟨stage, what⟩ := d
    cases what with
    | called c => cases c <;> first | rfl | exact hd.2.elim
    | _ => rfl
  began _ _ := rfl
  ended _ _ _ := rfl
  closing g settings seconds session o := by
    cases o with
    | superseded => rfl
    | failed e => rfl
    | ready a =>
      rw [closing_ready]
      rcases positioning_cases settings seconds a with h | h <;> rw [h] <;> rfl
    | readyWithoutOverlap a =>
      rw [closing_readyWithoutOverlap]
      rcases positioning_cases settings seconds a with h | h <;> rw [h] <;> rfl
  session _ _ _ _ _ := rfl

/-! ## What nobody else does -/

/-- Who sends events and requests has to make no call but those that move media and cursor. -/
theorem method_of_due_outside {settings : SyncSettings} {what : Happening} {m : Method}
    (h : due? settings .outside what = some m) : m = .setCursor ∨ m = .setCurrentTime := by
  unfold due? at h
  split at h <;> simp_all

/-- What an entry from outside cannot be. -/
theorem Rule.of_outside {settings : SyncSettings} {before : List Entry} {e : Entry}
    (h : Rule settings before e) (ho : e.actor = .outside) :
    e.what.report? = none ∧ e.what.unload? = none := by
  have hcommand (c : Call) (hc : c.followsUp) (hwhat : e.what = .called c) :
      c.method = .setCursor ∨ c.method = .setCurrentTime := by
    have hdue := h.due
    rw [hwhat, Happening.followUp?, if_pos hc] at hdue
    obtain ⟨x, -, hx⟩ := Option.bind_eq_some_iff.mp hdue
    obtain ⟨m, hm, hpair⟩ := Option.map_eq_some_iff.mp hx
    obtain ⟨hactor, rfl⟩ := Prod.mk.inj hpair
    rw [hactor, ho] at hm
    exact method_of_due_outside hm
  constructor
  · cases hwhat : e.what with
    | called c =>
      cases c with
      | report text =>
        have hmethod := hcommand _ rfl hwhat
        rcases hmethod with hm | hm <;> contradiction
      | _ => rfl
    | _ => rfl
  · cases hwhat : e.what with
    | called c =>
      cases c with
      | unload =>
        have hmethod := hcommand _ rfl hwhat
        rcases hmethod with hm | hm <;> contradiction
      | _ => rfl
    | _ => rfl

/-- Reading a log off its ledger, where entries from outside give nothing. -/
theorem Sound.filterMap_eq {settings : SyncSettings} {log : List Entry} (h : Sound settings log)
    {β : Type} {F : Entry → Option β} {f : Nat × Deed → Option β}
    (hload : ∀ g stage what s, F ⟨.load g stage, what, s⟩ = f (g, ⟨stage, what⟩))
    (houtside : ∀ before e, Rule settings before e → e.actor = .outside → F e = none) :
    log.filterMap F = (ledger log).filterMap f := by
  have hsplit : log = log ++ [] := (List.append_nil log).symm
  refine h.upTo (P := fun before => before.filterMap F = (ledger before).filterMap f) hsplit rfl ?_
  intro before e _ _ hrule ih
  rw [List.filterMap_append, ledger_append, List.filterMap_append, ih]
  congr 1
  obtain ⟨actor, what, s⟩ := e
  cases actor with
  | outside =>
    have hnone := houtside before _ hrule rfl
    simp [hnone, ledger, Entry.loadDeed?]
  | load g stage =>
    have hsome := hload g stage what s
    cases hf : f (g, ⟨stage, what⟩) <;> simp [ledger, Entry.loadDeed?, hsome, hf]

/-! ## Around an unload -/

theorem eq_failed_of_error? {o : Outcome} {e : Error} (h : o.error? = some e) : o = .failed e := by
  cases o with
  | failed e' => exact congrArg Outcome.failed (Option.some.inj h)
  | _ => contradiction

theorem unload_not_mem_of_quiet {ds : List Deed} {d : Deed} (hq : ∀ x ∈ ds, x.Quiet)
    (hd : d.what = .called .unload) : d ∉ ds := by
  intro hmem
  have hquiet := (hq d hmem).2
  rw [hd] at hquiet
  exact hquiet

/-- A load that has not failed does not have the media dropped. -/
theorem unload_not_mem_closing {settings : SyncSettings} {seconds : Float} {session : Session}
    {o : Outcome} {d : Deed} (hd : d.what = .called .unload)
    (hmem : d ∈ closing settings seconds session o) : ∃ e, o = .failed e := by
  have hpicked : () ∈ ((closing settings seconds session o).map (0, ·)).filterMap
      (·.2.what.unload?) :=
    List.mem_filterMap.mpr ⟨(0, d), List.mem_map_of_mem hmem, by rw [hd]; rfl⟩
  rw [picks_unload.closing, Option.mem_toList] at hpicked
  obtain ⟨e, he, -⟩ := Option.map_eq_some_iff.mp hpicked
  exact ⟨e, eq_failed_of_error? he⟩

/-- Around the call with which a load has the media dropped stand its error and the report. -/
theorem Turn.around_unload {settings : SyncSettings} {ds before after : List Deed} {d : Deed}
    (h : Turn settings ds) (hds : ds = before ++ d :: after) (hd : d.what = .called .unload) :
    ∃ e earlier rest, before = earlier ++ [⟨.failed, .failed e⟩] ∧ d.stage = .failed ∧
      after = ⟨.failed, .returned .unload .done⟩ :: ⟨.failed, .called (.report e.message)⟩ ::
        rest := by
  have hmem : d ∈ ds := by
    rw [hds]
    simp
  cases h with
  | begins asset =>
    obtain rfl := List.mem_singleton.mp hmem
    contradiction
  | onward hq => exact absurd hmem (unload_not_mem_of_quiet hq hd)
  | @ends o ds number h =>
    obtain ⟨asked, seconds, session, rfl, hasked, -⟩ := h
    have hclosing : d ∈ closing settings seconds session o := by
      rcases List.mem_append.mp hmem with hmem | hmem
      · exact (List.mem_append.mp hmem).resolve_left (unload_not_mem_of_quiet hasked hd)
      · obtain rfl := List.mem_singleton.mp hmem
        contradiction
    obtain ⟨e, rfl⟩ := unload_not_mem_closing hd hclosing
    have hfailure : asked ++ closing settings seconds session (.failed e) ++
        [(⟨.pending, .ended number (.failed e)⟩ : Deed)] =
        (asked ++ [⟨.failed, .failed e⟩]) ++ ⟨.failed, .called .unload⟩ ::
          [⟨.failed, .returned .unload .done⟩, ⟨.failed, .called (.report e.message)⟩,
            ⟨.failed, .returned .report .done⟩, ⟨.pending, .ended number (.failed e)⟩] := by
      simp [closing, failure, told, Call.method]
    have hbefore : d ∉ asked ++ [⟨.failed, .failed e⟩] := by
      refine List.not_mem_append (unload_not_mem_of_quiet hasked hd) ?_
      intro hmem
      obtain rfl := List.mem_singleton.mp hmem
      contradiction
    have hafter : d ∉ [(⟨.failed, .returned .unload .done⟩ : Deed),
        ⟨.failed, .called (.report e.message)⟩, ⟨.failed, .returned .report .done⟩,
        ⟨.pending, .ended number (.failed e)⟩] := by
      intro hmem
      simp only [List.mem_cons, List.not_mem_nil, or_false] at hmem
      rcases hmem with rfl | rfl | rfl | rfl <;> simp at hd
    rw [hfailure, List.append_cons_inj_of_notMem hbefore hafter] at hds
    obtain ⟨rfl, rfl, rfl⟩ := hds
    exact ⟨e, asked, _, rfl, rfl, rfl⟩

theorem Turns.around_unload {settings : SyncSettings} {deeds before after : List (Nat × Deed)}
    {x : Nat × Deed} (h : Turns settings deeds) (hdeeds : deeds = before ++ x :: after)
    (hx : x.2.what = .called .unload) :
    ∃ e earlier rest, before = earlier ++ [(x.1, ⟨.failed, .failed e⟩)] ∧ x.2.stage = .failed ∧
      after = (x.1, ⟨.failed, .returned .unload .done⟩) ::
        (x.1, ⟨.failed, .called (.report e.message)⟩) :: rest := by
  induction h generalizing after with
  | nil => simp at hdeeds
  | @turn deeds h g ds hds ih =>
    have inTurn {mid : List (Nat × Deed)} (hmid : ds.map (g, ·) = mid ++ x :: after) :
        ∃ e earlier rest, deeds ++ mid = earlier ++ [(x.1, ⟨.failed, .failed e⟩)] ∧
          x.2.stage = .failed ∧ after = (x.1, ⟨.failed, .returned .unload .done⟩) ::
            (x.1, ⟨.failed, .called (.report e.message)⟩) :: rest := by
      obtain ⟨ds₁, ds₂, rfl, rfl, hds₂⟩ := List.map_eq_append_iff.mp hmid
      obtain ⟨d, ds₃, rfl, rfl, rfl⟩ := List.map_eq_cons_iff.mp hds₂
      obtain ⟨e, earlier, rest, rfl, hstage, rfl⟩ := hds.around_unload rfl hx
      exact ⟨e, deeds ++ earlier.map (g, ·), rest.map (g, ·), by simp, hstage, rfl⟩
    rcases List.append_eq_append_iff.mp hdeeds with ⟨mid, rfl, hmid⟩ | ⟨rest, hbefore, hrest⟩
    · exact inTurn hmid
    · rcases List.cons_eq_append_iff.mp hrest with ⟨rfl, hmid⟩ | ⟨rest, rfl, rfl⟩
      · rw [List.append_nil] at hbefore
        rw [← hbefore, ← List.append_nil deeds]
        exact inTurn hmid
      · obtain ⟨e, earlier, rest', hearlier, hstage, rfl⟩ := ih hbefore
        exact ⟨e, earlier, rest' ++ ds.map (g, ·), hearlier, hstage, rfl⟩

/-- A load has the media dropped right after it stored its error, and reports the error right after
that. Only what hosts do during the call comes in between. -/
structure Dropping (before : List Entry) (u : Entry) (after : List Entry) (g : Nat) (e : Error) :
    Prop where
  actor : u.actor = .load g .failed
  stored : ∃ earlier s, before = earlier ++ [⟨.load g .failed, .failed e, s⟩] ∧
    s.phase = .error ∧ s.lastError = some e
  reported : ∃ inside s s' rest, after = inside ++ ⟨.load g .failed, .returned .unload .done, s⟩ ::
    ⟨.load g .failed, .called (.report e.message), s'⟩ :: rest ∧ ∀ x ∈ inside, x.actor = .outside

theorem actor_of_loadDeed? {e : Entry} {g : Nat} {stage : Stage} {what : Happening}
    (h : e.loadDeed? = some (g, ⟨stage, what⟩)) : e = ⟨.load g stage, what, e.state⟩ := by
  obtain ⟨actor, what', s⟩ := e
  cases actor with
  | outside => contradiction
  | load g' stage' =>
    obtain ⟨rfl, rfl, rfl⟩ : g' = g ∧ stage' = stage ∧ what' = what := by
      simpa [Entry.loadDeed?] using h
    rfl

theorem outside_of_loadDeed? {e : Entry} (h : e.loadDeed? = none) : e.actor = .outside := by
  obtain ⟨actor, what, s⟩ := e
  cases actor with
  | outside => rfl
  | load => contradiction

/-- The call that is due after an entry is the next entry. -/
theorem Sound.eq_of_due {settings : SyncSettings} {before after : List Entry} {e x : Entry}
    (h : Sound settings (before ++ e :: x :: after)) {m : Method}
    (hdue : due? settings e.actor e.what = some m) :
    x.actor = e.actor ∧ ∃ c, x.what = .called c ∧ c.method = m := by
  have hsplit : before ++ e :: x :: after = (before ++ [e]) ++ x :: after := by simp
  have hrule := (h _ _ _ hsplit).due
  rw [dueAfter_concat, Entry.due?, hdue, Option.map_some] at hrule
  cases hwhat : x.what with
  | called c =>
    rw [hwhat, Happening.followUp?] at hrule
    split at hrule
    · obtain ⟨hactor, hm⟩ := Prod.mk.inj (Option.some.inj hrule)
      exact ⟨hactor.symm, c, rfl, hm.symm⟩
    · contradiction
  | _ =>
    rw [hwhat] at hrule
    contradiction

/-- What a load stored is the entry before a call that is due. -/
theorem Sound.stored_of_due {settings : SyncSettings} {log before after : List Entry} {u : Entry}
    (h : Sound settings log) (hlog : log = before ++ u :: after) {g : Nat} {stage : Stage}
    {m : Method} (hdue : dueAfter settings before = some (.load g stage, m))
    {earlier : List (Nat × Deed)} {e : Error}
    (hledger : ledger before = earlier ++ [(g, ⟨.failed, .failed e⟩)]) :
    ∃ earlier s, before = earlier ++ [⟨.load g .failed, .failed e, s⟩] ∧
      s.phase = .error ∧ s.lastError = some e := by
  obtain ⟨x, hx, hxdue⟩ := Option.bind_eq_some_iff.mp hdue
  obtain ⟨first, rfl⟩ := List.getLast?_eq_some_iff.mp hx
  obtain ⟨m', -, hpair⟩ := Option.map_eq_some_iff.mp hxdue
  have hdeed : x.loadDeed? = some (g, ⟨stage, x.what⟩) := by
    simp [Entry.loadDeed?, (Prod.mk.inj hpair).1]
  have hlast : ledger [x] = [(g, ⟨stage, x.what⟩)] := List.filterMap_cons_some hdeed
  rw [ledger_append, hlast] at hledger
  have hsame := (List.append_inj' hledger rfl).2
  obtain ⟨rfl, hwhat⟩ : stage = .failed ∧ x.what = .failed e := by simpa using hsame
  have hstate := (h first x (u :: after) (by rw [hlog]; simp)).state
  rw [hwhat] at hdeed hstate
  refine ⟨first, x.state, by rw [← actor_of_loadDeed? hdeed], ?_, ?_⟩ <;> rw [hstate] <;> rfl

/-- When the ledger goes on with the return of an unload and a report, then so does the log, apart
from what hosts do before the return. -/
theorem Sound.reported_of_ledger {settings : SyncSettings} {log before after : List Entry}
    {u : Entry} (h : Sound settings log) (hlog : log = before ++ u :: after) {g : Nat}
    {text : String} {rest : List (Nat × Deed)}
    (hledger : ledger after = (g, ⟨.failed, .returned .unload .done⟩) ::
      (g, ⟨.failed, .called (.report text)⟩) :: rest) :
    ∃ inside s s' rest, after = inside ++ ⟨.load g .failed, .returned .unload .done, s⟩ ::
      ⟨.load g .failed, .called (.report text), s'⟩ :: rest ∧ ∀ x ∈ inside, x.actor = .outside := by
  obtain ⟨inside, ret, later, rfl, hinside, hret, hlater⟩ := List.filterMap_eq_cons_iff.mp hledger
  have hretEntry := actor_of_loadDeed? hret
  cases later with
  | nil => contradiction
  | cons y later =>
    have hsplit : log = (before ++ u :: inside) ++ ret :: y :: later := by
      rw [hlog]
      simp
    have hdue : due? settings ret.actor ret.what = some .report := by rw [hretEntry]; rfl
    obtain ⟨hactor, c, hc, -⟩ := (hsplit ▸ h).eq_of_due hdue
    rw [hretEntry] at hactor
    have hy : y.loadDeed? = some (g, ⟨.failed, y.what⟩) := by simp [Entry.loadDeed?, hactor]
    rw [List.filterMap_cons_some hy] at hlater
    have hwhat : y.what = .called (.report text) := by
      have hhead := (List.cons.inj hlater).1
      simpa using hhead
    rw [hwhat] at hy
    refine ⟨inside, ret.state, y.state, later, ?_, fun x hx => outside_of_loadDeed? (hinside x hx)⟩
    rw [← hretEntry, ← actor_of_loadDeed? hy]

theorem Sound.dropping {settings : SyncSettings} {log before after : List Entry} {u : Entry}
    (h : Sound settings log) (hturns : Turns settings (ledger log))
    (hlog : log = before ++ u :: after) (hu : u.what = .called .unload) :
    ∃ g e, Dropping before u after g e := by
  have hrule := h before u after hlog
  cases hactor : u.actor with
  | outside =>
    have hnone := (hrule.of_outside hactor).2
    rw [hu] at hnone
    contradiction
  | load g stage =>
    have hdeed : u.loadDeed? = some (g, ⟨stage, .called .unload⟩) := by
      simp [Entry.loadDeed?, hactor, hu]
    have hledger : ledger log = ledger before ++ (g, ⟨stage, .called .unload⟩) :: ledger after := by
      rw [hlog, ledger_append, ledger, ledger, ledger, List.filterMap_cons_some hdeed]
    obtain ⟨e, earlier, rest, hbefore, rfl, hafter⟩ := hturns.around_unload hledger rfl
    have hdue : dueAfter settings before = some (.load g .failed, .unload) := by
      rw [hrule.due, hu, hactor]
      rfl
    exact ⟨g, e, hactor, h.stored_of_due hlog hdue hbefore, h.reported_of_ledger hlog hafter⟩

/-! ## Runs -/

/-- A load that is ready without an overlap was told one session. -/
theorem Run.Reachable.sessionOf_eq {run : Run} (h : run.Reachable) {g number : Nat}
    {a : Timeline.Alignment} {session : Session}
    (hend : (g, ⟨.pending, .ended number (.readyWithoutOverlap a)⟩) ∈ ledger run.world.log)
    (htold : (g, ⟨.pending, .returned .sessionTimeline (.session session)⟩) ∈
      ledger run.world.log) : sessionOf run.world.log g = some session := by
  obtain ⟨-, -, -, session', -, -, hsessions, -⟩ := h.traced.ended (mem_ledger_iff.mp hend) rfl
  have hmem : session ∈ sessionsTold (deedsIn g run.world.log) :=
    List.mem_filterMap.mpr ⟨_, mem_ledger_iff.mp htold, rfl⟩
  rw [hsessions] at hmem
  rw [sessionOf, hsessions, List.mem_singleton.mp hmem]
  rfl

theorem Turns.warned {settings : SyncSettings} {deeds : List (Nat × Deed)}
    (h : Turns settings deeds) {g number : Nat} {stage : Stage} {a : Timeline.Alignment}
    (hend : (g, ⟨stage, .ended number (.readyWithoutOverlap a)⟩) ∈ deeds) :
    stage = .pending ∧ settings.overlapPolicy = .warn ∧ ∃ session : Session,
      (g, ⟨.pending, .returned .sessionTimeline (.session session)⟩) ∈ deeds := by
  induction h with
  | nil => exact absurd hend List.not_mem_nil
  | @turn deeds h g' ds hds ih =>
    rcases List.mem_append.mp hend with hend | hend
    · obtain ⟨hstage, hpolicy, session, hsession⟩ := ih hend
      exact ⟨hstage, hpolicy, session, List.mem_append_left _ hsession⟩
    · obtain ⟨d, hd, hpair⟩ := List.mem_map.mp hend
      obtain ⟨rfl, rfl⟩ := Prod.mk.inj hpair
      obtain ⟨hstage, hpolicy, session, hsession⟩ := hds.warned hd
      exact ⟨hstage, hpolicy, session, List.mem_append_right _ (List.mem_map_of_mem hsession)⟩

/-- What loads store, in the order in which they do. -/
def commits (log : List Entry) : List (Nat × Happening) := (ledger log).filterMap stored?

/-- The entry with which a load stores its error. -/
theorem Sound.lastError_of_commit {settings : SyncSettings} {log : List Entry}
    (h : Sound settings log) {g : Nat} {e : Error} (he : (g, .failed e) ∈ commits log) :
    ∃ s, ⟨.load g .failed, .failed e, s⟩ ∈ log ∧ s.lastError = some e := by
  obtain ⟨⟨g', stage, what⟩, hd, hstored⟩ := List.mem_filterMap.mp he
  unfold stored? at hstored
  split at hstored
  · obtain ⟨rfl, rfl⟩ := Prod.mk.inj (Option.some.inj hstored)
    obtain ⟨x, hx, hxd⟩ := List.mem_filterMap.mp hd
    rw [actor_of_loadDeed? hxd] at hx
    obtain ⟨before, after, hlog⟩ := List.append_of_mem hx
    have hrule := h before _ after hlog
    obtain ⟨-, rfl⟩ := Actor.load.inj hrule.permitted
    refine ⟨x.state, hx, ?_⟩
    have hstate := hrule.state
    dsimp only at hstate
    rw [hstate]
    rfl
  · contradiction

theorem eq_ended_of_ended? {what : Happening} {number : Nat} {o : Outcome}
    (h : what.ended? = some (number, o)) : what = .ended number o := by
  cases what with
  | ended number' o' =>
    obtain ⟨rfl, rfl⟩ := Prod.mk.inj (Option.some.inj h)
    rfl
  | _ => contradiction

/-- In every reachable run the reports are those of the loads that have failed or are ready without
an overlap, one for each, in the order in which the loads stored their results and returned; every
load that has failed had the media dropped once, between its error and the report of it. -/
theorem reports_of_outcomes {run : Run} (h : run.Reachable) :
    run.world.log.filterMap (·.what.report?) =
        (endings run.world.log).filterMap (fun (g, o) =>
          (o.complaint? (sessionOf run.world.log g)).map Error.message) ∧
      commits run.world.log = (endings run.world.log).filterMap (fun (g, o) =>
        (o.stored? (sessionOf run.world.log g)).map (g, ·)) ∧
      (∀ g a, (g, .readyWithoutOverlap a) ∈ endings run.world.log →
        run.world.settings.overlapPolicy = .warn ∧
          ∃ session, sessionOf run.world.log g = some session) ∧
      run.world.log.countP (·.what = .called .unload) =
        (endings run.world.log).countP (·.2.error?.isSome) ∧
      (∀ before u after, run.world.log = before ++ u :: after → u.what = .called .unload →
        ∃ g e, Dropping before u after g e) ∧
      (∀ g e, (g, .failed e) ∈ endings run.world.log →
        ∃ s, ⟨.load g .failed, .failed e, s⟩ ∈ run.world.log ∧ s.lastError = some e) := by
  have hsound := h.orderly.2.sound
  have hturns := h.turns
  have htold (g number : Nat) (a : Timeline.Alignment) (session : Session)
      (hend : (g, ⟨.pending, .ended number (.readyWithoutOverlap a)⟩) ∈ ledger run.world.log) :
      (g, ⟨.pending, .returned .sessionTimeline (.session session)⟩) ∈ ledger run.world.log →
        sessionOf run.world.log g = some session :=
    h.sessionOf_eq hend
  have hcommits : commits run.world.log = (endings run.world.log).filterMap fun (g, o) =>
      (o.stored? (sessionOf run.world.log g)).map (g, ·) := hturns.picked picks_stored htold
  refine ⟨?_, hcommits, ?_, ?_, ?_, ?_⟩
  · rw [hsound.filterMap_eq (f := fun x => x.2.what.report?) (fun _ _ _ _ => rfl)
      fun before e hrule ho => (hrule.of_outside ho).1]
    exact hturns.picked picks_report htold
  · intro g a ha
    obtain ⟨⟨g', stage, what⟩, hx, hend⟩ := List.mem_filterMap.mp ha
    obtain ⟨⟨number, o⟩, hended, hpair⟩ := Option.map_eq_some_iff.mp hend
    obtain ⟨rfl, rfl⟩ := Prod.mk.inj hpair
    obtain rfl := eq_ended_of_ended? hended
    obtain ⟨rfl, hpolicy, session, hsession⟩ := hturns.warned hx
    exact ⟨hpolicy, session, h.sessionOf_eq hx hsession⟩
  · have hunloads := hsound.filterMap_eq (F := (·.what.unload?)) (f := fun x => x.2.what.unload?)
      (fun _ _ _ _ => rfl) fun before e hrule ho => (hrule.of_outside ho).2
    rw [hturns.picked picks_unload htold] at hunloads
    have hcount := congrArg List.length hunloads
    rw [List.length_filterMap_eq_countP, List.length_filterMap_eq_countP] at hcount
    simpa [isSome_unload?, endings] using hcount
  · exact fun before u after hlog hu => hsound.dropping hturns hlog hu
  · intro g e he
    refine hsound.lastError_of_commit ?_
    rw [hcommits]
    exact List.mem_filterMap.mpr ⟨_, he, rfl⟩

/-- A video without a container fails to load, and the controller is detached while the media is
dropped; then a video becomes ready that misses the session. -/
def loadedWithWarning : Run :=
  Run.play World.reaction
    { world := { settings := { overlapPolicy := .warn }
                 hosts := { session := ⟨100, 160⟩, duration := some 60.0 }
                 armed := [⟨.unload, .detach⟩] } }
    [.begin clip, .read 0, .begin ride, .read 1]

/-- Both complain, the first one of its error. -/
theorem reports_of_loadedWithWarning :
    loadedWithWarning.Reachable ∧
      loadedWithWarning.world.log.filterMap (·.what.report?) =
        ["Video creation time not found",
          "Video and session do not overlap (video 0..60, session 100..160)"] ∧
      loadedWithWarning.world.log.countP (·.what = .called .unload) = 1 ∧
      ∃ s, ⟨.load 1 .failed, .failed .metadataNotFound, s⟩ ∈ loadedWithWarning.world.log ∧
        s.lastError = some .metadataNotFound := by
  have hreach : loadedWithWarning.Reachable :=
    (Run.Reachable.start _ _ _ _ _ _).play lawful_reaction _
  have hfailed : (1, .failed .metadataNotFound) ∈ endings loadedWithWarning.world.log := by
    decide +kernel
  obtain ⟨hreports, -, -, hunloads, -, hstored⟩ := reports_of_outcomes hreach
  refine ⟨hreach, hreports.trans ?_, hunloads.trans ?_, hstored 1 _ hfailed⟩ <;> decide +kernel

end VideoSync.Sync
