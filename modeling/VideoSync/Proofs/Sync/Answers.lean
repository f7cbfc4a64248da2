import VideoSync.Proofs.Sync.Loading

/-
  What a load is told fixes how it ends. `Answers` are the answers that one load gets from the
  media, from the container of its video and from the session; `reference` says how the load ends
  with them, the first stage that fails deciding, and `account` says what it does on its way, call
  by call. The stages of a load are compared with them one at a time: a stage that the load does not
  survive ends it as the reference says, and one that it survives asks what the account says.
-/

namespace VideoSync.Sync

open VideoSync.Timeline (Session align)

/-- A number that is no duration. -/
def unusable (seconds : Float) : Bool := seconds.isNaN || seconds.isInf || decide (seconds < 0.0)

/-- What a load is told on its way. -/
structure Answers where
  /-- Whether the type of the video can be played. -/
  playable : Bool
  /-- When the video was created, if the container says so. -/
  created : Except Container.Error Int
  /-- The duration, when the load asks for it. -/
  duration : Option Float
  /-- The duration that the load has waited for; there is none if it did not come in time. -/
  later : Option Float
  session : Session

/-- The duration that a load goes by. -/
def Answers.known (x : Answers) : Option Float := x.duration.or x.later

/-- How a load ends that is not superseded. -/
def reference (settings : SyncSettings) (asset : Asset) (x : Answers) : Outcome :=
  if x.playable then
    match x.created with
    | .error e => .failed (.ofContainer e)
    | .ok creation =>
      match x.known with
      | none => .failed (.durationUnavailable settings.metadataTimeout)
      | some seconds =>
        if unusable seconds then .failed (.invalidDuration seconds)
        else verdict settings.overlapPolicy (align creation seconds x.session) x.session
  else .failed (.unsupportedMediaType asset.mime)

/-! ## What a load does on its way -/

/-- A load whose type can be played gives the media its video. -/
def opening (asset : Asset) : List Deed :=
  ⟨.pending, .began asset⟩ ::
    (asking .canPlayType (.playable true) ++ told .pending (.load asset.name))

/-- What a load asks about the session; it does so only if it knows a duration. -/
def Answers.sessionAsked (x : Answers) : List Deed :=
  if x.known.any (!unusable ·) then asking .sessionTimeline (.session x.session) else []

/-- All that a load asks and tells before it stores anything. -/
def Answers.asked (asset : Asset) (x : Answers) : List Deed :=
  if x.playable then
    match x.created with
    | .error _ => opening asset
    | .ok _ => opening asset ++ asking .duration (.duration x.duration) ++ x.sessionAsked
  else ⟨.pending, .began asset⟩ :: asking .canPlayType (.playable false)

/-- All that a load does that is not superseded, until it returns. -/
def account (settings : SyncSettings) (asset : Asset) (number : Nat) (x : Answers) : List Deed :=
  let o := reference settings asset x
  x.asked asset ++ closing settings (x.known.getD 0.0) x.session o ++
    [⟨.pending, .ended number o⟩]

/-- The video that the media is told to load. -/
def Deed.given? (d : Deed) : Option String :=
  match d.what with
  | .called (.load name) => some name
  | _ => none

theorem given?_closing (settings : SyncSettings) (seconds : Float) (session : Session)
    (o : Outcome) : (closing settings seconds session o).filterMap Deed.given? = [] := by
  have hsuccess (a : Timeline.Alignment) (e? : Option Error) :
      (success settings a seconds e?).filterMap Deed.given? = [] := by
    unfold success positioning
    cases e? <;> split <;> rfl
  cases o with
  | ready a => exact hsuccess a none
  | readyWithoutOverlap a => exact hsuccess a _
  | superseded => rfl
  | failed e => rfl

/-- The media is told once to load the video if it can play it, and else not at all. -/
theorem given?_account (settings : SyncSettings) (asset : Asset) (number : Nat) (x : Answers) :
    (account settings asset number x).filterMap Deed.given? =
      if x.playable then [asset.name] else [] := by
  have hopening : (opening asset).filterMap Deed.given? = [asset.name] := rfl
  have hsession : x.sessionAsked.filterMap Deed.given? = [] := by
    unfold Answers.sessionAsked
    split <;> rfl
  unfold account Answers.asked
  rw [List.filterMap_append, List.filterMap_append, given?_closing]
  cases x.playable with
  | false => rfl
  | true =>
    cases x.created with
    | error e => rw [if_pos rfl, hopening]; rfl
    | ok creation =>
      rw [if_pos rfl]
      dsimp only
      rw [List.filterMap_append, List.filterMap_append, hopening, hsession]
      rfl

/-! ## The last stage -/

theorem isFinite_eq (seconds : Float) :
    seconds.isFinite = !(seconds.isNaN || seconds.isInf) := by
  obtain ⟨m⟩ := seconds
  show m.unpack.isFinite = !(m.unpack.isNaN || m.unpack.isInf)
  cases m.unpack <;> rfl

theorem unusable_eq (seconds : Float) :
    unusable seconds = (!seconds.isFinite || decide (seconds < 0.0)) := by
  rw [isFinite_eq, Bool.not_not]
  rfl

/-- A duration is valid unless it is NaN, infinite or negative. -/
theorem validDuration_eq (seconds : Float) :
    validDuration seconds =
      if unusable seconds then .error (.invalidDuration seconds) else .ok seconds := by
  rw [unusable_eq]
  rfl

/-- What a load goes by in its last stage. -/
def judged (settings : SyncSettings) : Option Float → Except Error Float
  | some seconds => validDuration seconds
  | none => .error (.durationUnavailable settings.metadataTimeout)

/-- The last stage of a load with these answers, which has its creation time from the container,
ends it by the reference. -/
structure Answers.Concludes (x : Answers) (settings : SyncSettings) (asset : Asset) (creation : Int)
    (o : Outcome) (ds : List Deed) : Prop where
  playable : x.playable
  created : x.created = .ok creation
  outcome : o = reference settings asset x
  deeds : ds = x.sessionAsked ++ closing settings (x.known.getD 0.0) x.session o

theorem Finishes.concludes {settings : SyncSettings} {creation : Int} {goesBy : Except Error Float}
    {current : Bool} {o : Outcome} {ds : List Deed}
    (h : Finishes settings creation goesBy current o ds) {duration later : Option Float}
    (hgoesBy : goesBy = judged settings (duration.or later)) (ho : o ≠ .superseded)
    (asset : Asset) :
    ∃ x : Answers, x.Concludes settings asset creation o ds ∧ x.duration = duration ∧
      x.later = later := by
  subst hgoesBy
  -- Only a load that goes by a duration is told a session.
  have hsilent (e : Error) (hjudged : judged settings (duration.or later) = .error e)
      (hunasked : (duration.or later).any (!unusable ·) = false)
      (href : Outcome.failed e =
        reference settings asset ⟨true, .ok creation, duration, later, ⟨0, 0⟩⟩) :
      ∃ x : Answers, x.Concludes settings asset creation o ds ∧ x.duration = duration ∧
        x.later = later := by
    rw [hjudged] at h
    cases h with
    | stale => contradiction
    | failed e =>
      refine ⟨_, ⟨rfl, rfl, href, ?_⟩, rfl, rfl⟩
      rw [Answers.sessionAsked, Answers.known, hunasked]
      rfl
  cases hknown : duration.or later with
  | none =>
    rw [hknown] at hsilent
    refine hsilent _ rfl rfl ?_
    simp [reference, Answers.known, hknown]
  | some seconds =>
    cases hu : unusable seconds with
    | true =>
      rw [hknown] at hsilent
      refine hsilent (.invalidDuration seconds) ?_ ?_ ?_
      · rw [judged, validDuration_eq, hu, if_pos rfl]
      · rw [Option.any_some, hu]
        rfl
      · simp [reference, Answers.known, hknown, hu]
    | false =>
      rw [hknown, judged, validDuration_eq, hu, if_neg Bool.false_ne_true] at h
      cases h with
      | stale => contradiction
      | overtaken => contradiction
      | settled _ session hverdict =>
        refine ⟨⟨true, .ok creation, duration, later, session⟩, ⟨rfl, rfl, ?_, ?_⟩, rfl, rfl⟩
        · simp [reference, Answers.known, hknown, hu, hverdict]
        · simp [Answers.sessionAsked, Answers.known, hknown, hu]

namespace World

variable {r : Reaction} {g : Nat}

/-- A load that fails, unless it is superseded. -/
theorem failed_of_ne (hr : Lawful r) {e : Error} {w : World}
    (ho : (w.fail r g e).2 ≠ .superseded) :
    (w.fail r g e).2 = .failed e ∧
      deedsIn g (w.fail r g e).1.log = deedsIn g w.log ++ failure e := by
  cases hg : w.isCurrent g with
  | true => exact fail_of_isCurrent hr hg e
  | false =>
    rw [fail_of_stale hg] at ho
    contradiction

/-- The first stage: a load goes on exactly after it has given the media its video. -/
theorem openMedia_cases (hr : Lawful r) (asset : Asset) (w : World) :
    ((w.openMedia r g asset).2 = none ∧
        deedsIn g (w.openMedia r g asset).1.log = deedsIn g w.log ++
          (asking .canPlayType (.playable true) ++ told .pending (.load asset.name))) ∨
      ∃ o, (w.openMedia r g asset).2 = some o ∧ (o ≠ .superseded →
        o = .failed (.unsupportedMediaType asset.mime) ∧
        deedsIn g (w.openMedia r g asset).1.log = deedsIn g w.log ++
          (asking .canPlayType (.playable false) ++
            failure (.unsupportedMediaType asset.mime))) := by
  have hasked := deedsIn_ask (g := g) hr .canPlayType
    (fun h => .playable (h.playable.contains asset.mime)) w
  unfold openMedia
  dsimp only
  generalize w.ask r (.load g .pending) .canPlayType
    (fun h => .playable (h.playable.contains asset.mime)) = u at hasked ⊢
  cases hplayable : u.hosts.playable.contains asset.mime with
  | true =>
    rw [hplayable] at hasked
    rw [if_pos rfl]
    refine .inl ⟨rfl, ?_⟩
    rw [deedsIn_tell (frame_lawful hr), hasked, List.append_assoc]
    rfl
  | false =>
    rw [hplayable] at hasked
    rw [if_neg Bool.false_ne_true]
    refine .inr ⟨(u.fail r g (.unsupportedMediaType asset.mime)).2, rfl, fun ho => ?_⟩
    obtain ⟨hfailed, hds⟩ := failed_of_ne hr ho
    refine ⟨hfailed, hds.trans ?_⟩
    rw [hasked, List.append_assoc]

/-- A load that looks again goes on without doing anything, or it ends by the reference. -/
theorem lookAgain_cases (hr : Lawful r) (asset : Asset) (creation : Int) (waited : Nat)
    (w : World) :
    w.lookAgain r g creation waited = (w, none) ∨
      ∃ o, (w.lookAgain r g creation waited).2 = some o ∧ (o ≠ .superseded →
        ∃ (x : Answers) (ds : List Deed), x.Concludes w.settings asset creation o ds ∧
          x.duration = none ∧ x.later = w.hosts.duration ∧
          (x.later = none → w.settings.metadataTimeout.toNat ≤ waited) ∧
          deedsIn g (w.lookAgain r g creation waited).1.log = deedsIn g w.log ++ ds) := by
  have hfinish {goesBy : Except Error Float}
      (hgoesBy : goesBy = judged w.settings w.hosts.duration)
      (ho : (w.finish r g creation goesBy).2 ≠ .superseded) :
      ∃ (x : Answers) (ds : List Deed),
        x.Concludes w.settings asset creation (w.finish r g creation goesBy).2 ds ∧
          x.duration = none ∧ x.later = w.hosts.duration ∧
          deedsIn g (w.finish r g creation goesBy).1.log = deedsIn g w.log ++ ds := by
    rw [← Option.none_or (o := w.hosts.duration)] at hgoesBy
    obtain ⟨ds, hfinishes, hds⟩ := finishes_finish (g := g) hr creation goesBy w
    obtain ⟨x, hx, hduration, hlater⟩ := hfinishes.concludes hgoesBy ho asset
    exact ⟨x, ds, hx, hduration, hlater, hds⟩
  unfold lookAgain
  cases hduration : w.hosts.duration with
  | some seconds =>
    refine .inr ⟨(w.finish r g creation (validDuration seconds)).2, rfl, fun ho => ?_⟩
    obtain ⟨x, ds, hx, hnone, hlater, hds⟩ := hfinish (by rw [hduration]; rfl) ho
    rw [hduration] at hlater
    refine ⟨x, ds, hx, hnone, hlater, fun hnot => ?_, hds⟩
    rw [hlater] at hnot
    contradiction
  | none =>
    dsimp only
    by_cases hover : w.settings.metadataTimeout.toNat ≤ waited
    · rw [if_pos hover]
      let unavailable := Error.durationUnavailable w.settings.metadataTimeout
      refine .inr ⟨(w.finish r g creation (.error unavailable)).2, rfl, fun ho => ?_⟩
      obtain ⟨x, ds, hx, hnone, hlater, hds⟩ := hfinish (by rw [hduration]; rfl) ho
      exact ⟨x, ds, hx, hnone, hlater.trans hduration, fun _ => hover, hds⟩
    · rw [if_neg hover]
      exact .inl rfl

/-- A load whose container was read waits for the duration, or it ends by the reference. -/
theorem containerRead_cases (hr : Lawful r) (asset : Asset)
    (result : Except Container.Error Container.Metadata) (w : World) :
    (∃ metadata, result = .ok metadata ∧
        (w.containerRead r g result).2 = .waiting metadata.creation ∧
        (w.containerRead r g result).1.hosts.duration = none ∧
        deedsIn g (w.containerRead r g result).1.log =
          deedsIn g w.log ++ asking .duration (.duration none)) ∨
      ∃ o, (w.containerRead r g result).2 = .ended o ∧ (o ≠ .superseded →
        (∃ e, result = .error e ∧ o = .failed (.ofContainer e) ∧
          deedsIn g (w.containerRead r g result).1.log =
            deedsIn g w.log ++ failure (.ofContainer e)) ∨
        ∃ (metadata : Container.Metadata) (x : Answers) (ds : List Deed), result = .ok metadata ∧
          x.Concludes w.settings asset metadata.creation o ds ∧ x.duration ≠ none ∧
          deedsIn g (w.containerRead r g result).1.log =
            deedsIn g w.log ++ (asking .duration (.duration x.duration) ++ ds)) := by
  unfold containerRead
  cases hg : w.isCurrent g with
  | false => exact .inr ⟨.superseded, rfl, fun ho => absurd rfl ho⟩
  | true =>
    rw [if_neg (by decide)]
    cases result with
    | error e =>
      refine .inr ⟨(w.fail r g (.ofContainer e)).2, rfl, fun ho => .inl ?_⟩
      obtain ⟨hfailed, hds⟩ := failed_of_ne hr ho
      exact ⟨e, rfl, hfailed, hds⟩
    | ok metadata =>
      have hasked := deedsIn_ask (g := g) hr .duration (fun h => .duration h.duration) w
      have hsettings := settings_ask (g := g) hr .duration (fun h => .duration h.duration) w
      dsimp only
      generalize w.ask r (.load g .pending) .duration (fun h => .duration h.duration) = u
        at hasked hsettings ⊢
      cases hduration : u.hosts.duration with
      | none =>
        rw [hduration] at hasked
        exact .inl ⟨metadata, rfl, rfl, hduration, hasked⟩
      | some seconds =>
        rw [hduration] at hasked
        let ending := u.finish r g metadata.creation (validDuration seconds)
        refine .inr ⟨ending.2, rfl, fun ho => .inr ?_⟩
        obtain ⟨ds, hfinishes, hds⟩ :=
          finishes_finish (g := g) hr metadata.creation (validDuration seconds) u
        have hgoesBy : validDuration seconds = judged u.settings ((some seconds).or none) := rfl
        obtain ⟨x, hx, hsome, -⟩ := hfinishes.concludes hgoesBy ho asset
        rw [hsettings] at hx
        refine ⟨metadata, x, ds, rfl, hx, hsome ▸ nofun, ?_⟩
        rw [hsome, ← List.append_assoc, ← hasked]
        exact hds

end World
end VideoSync.Sync
