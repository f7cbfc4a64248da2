import Mathlib.Data.List.Nodup
import VideoSync.Proofs.Sync.Stages
import VideoSync.Sync.Run

/-
  All runs of a controller. A run is `Reachable` when it starts with a fresh controller and goes on
  by moves in any order, the hosts reacting to the calls of each move in any lawful way; the files
  may change between moves.

  Every reachable run is `Orderly`: each load in flight has done nothing but begin and ask, each
  load that ended has done what its outcome says, tokens and numbers of loads in flight differ, and
  no host call is open. Its world is calm. Both follow move by move from what the stages of a load
  do.
-/

namespace VideoSync.Sync

open VideoSync.Storage (Tree)

/-- The load began and has only asked since. -/
def Underway (ds : List Deed) : Prop :=
  ∃ asset quiet, ds = ⟨.pending, .began asset⟩ :: quiet ∧ ∀ d ∈ quiet, d.Quiet

/-- The load began, asked, did what its outcome says, and returned. -/
def Over (settings : SyncSettings) (number : Nat) (o : Outcome) (ds : List Deed) : Prop :=
  ∃ before closing, Underway before ∧ Closing settings (some o) closing ∧
    ds = before ++ closing ++ [⟨.pending, .ended number o⟩]

theorem Underway.append {ds quiet : List Deed} (h : Underway ds) (hq : ∀ d ∈ quiet, d.Quiet) :
    Underway (ds ++ quiet) := by
  obtain ⟨asset, before, rfl, hb⟩ := h
  exact ⟨asset, before ++ quiet, rfl, fun d hd => (List.mem_append.mp hd).elim (hb d) (hq d)⟩

namespace Run

/-- The runs that a fresh controller can come to. -/
inductive Reachable : Run → Prop
  | start (settings : SyncSettings) (bindings : BindingTable) (hosts : Hosts) (armed : List Armed)
      (files : Tree) (clock : Nat) :
      Reachable { world := { settings, bindings, hosts, armed }, files, clock }
  | files {run : Run} (h : Reachable run) (files : Tree) : Reachable { run with files }
  | move {run : Run} (h : Reachable run) {r : Reaction} (hr : Lawful r) (m : Move) :
      Reachable (run.move r m)

/-- Moves one after another. -/
def play (r : Reaction) (run : Run) (moves : List Move) : Run := moves.foldl (·.move r) run

theorem Reachable.play {run : Run} {r : Reaction} (h : Reachable run) (hr : Lawful r)
    (moves : List Move) : Reachable (run.play r moves) := by
  induction moves generalizing run with
  | nil => exact h
  | cons m moves ih => exact ih (h.move hr m)

/-- What the log says about the loads of a run. -/
structure Orderly (run : Run) : Prop where
  calls : openCalls 0 run.world.log = some 0
  inFlight : ∀ l ∈ run.inFlight, l.generation ≤ run.world.state.generation ∧
    Underway (deedsIn l.generation run.world.log)
  loads : ∀ g, deedsIn g run.world.log = [] ∨ (∃ l ∈ run.inFlight, l.generation = g) ∨
    ∃ number o, Over run.world.settings number o (deedsIn g run.world.log)
  unborn : ∀ g, run.world.state.generation < g → deedsIn g run.world.log = []
  tokens : (run.inFlight.map (·.generation)).Nodup
  numbers : (run.inFlight.map (·.number)).Nodup
  begun : ∀ l ∈ run.inFlight, l.number < run.begun

namespace Orderly

variable {run : Run} {w : World} {l : InFlight}

theorem eq_of_generation (h : run.Orderly) {l' : InFlight} (hl : l ∈ run.inFlight)
    (hl' : l' ∈ run.inFlight) (hg : l'.generation = l.generation) : l' = l :=
  List.inj_on_of_nodup_map h.tokens hl' hl hg

theorem eq_of_number (h : run.Orderly) {l' : InFlight} (hl : l ∈ run.inFlight)
    (hl' : l' ∈ run.inFlight) (hn : l'.number = l.number) : l' = l :=
  List.inj_on_of_nodup_map h.numbers hl' hl hn

/-- What happens without any load keeps a run orderly. -/
theorem withWorld (h : run.Orderly) (hf : Frame none run.world w) : (run.withWorld w).Orderly where
  calls := hf.calls 0 h.calls
  inFlight l hl := by
    refine ⟨Nat.le_trans (h.inFlight l hl).1 hf.generation, ?_⟩
    show Underway (deedsIn l.generation w.log)
    rw [hf.deeds _ nofun]
    exact (h.inFlight l hl).2
  loads g := by
    show deedsIn g w.log = [] ∨ _ ∨ ∃ number o, Over w.settings number o (deedsIn g w.log)
    rw [hf.deeds g nofun, hf.settings]
    exact h.loads g
  unborn g hg := (hf.deeds g nofun).trans (h.unborn g (Nat.lt_of_le_of_lt hf.generation hg))
  tokens := h.tokens
  numbers := h.numbers
  begun := h.begun

/-- Deeds of loads that are still to begin are not caused by a load in flight. -/
theorem unborn_of_frame (h : run.Orderly) (hl : l ∈ run.inFlight)
    (hf : Frame (some l.generation) run.world w) {g : Nat} (hg : w.state.generation < g) :
    deedsIn g w.log = [] := by
  have hborn : run.world.state.generation < g := Nat.lt_of_le_of_lt hf.generation hg
  have hold := (h.inFlight l hl).1
  rw [hf.deeds_of_ne (by omega)]
  exact h.unborn g hborn

/-- A stage of a load in flight that leaves it in flight. -/
theorem stays (h : run.Orderly) (hl : l ∈ run.inFlight)
    (hp : Proceeds l.generation run.world w none) : (run.withWorld w).Orderly := by
  obtain ⟨quiet, _, hd, hq, ⟨⟩⟩ := hp.deeds
  rw [List.append_nil] at hd
  refine ⟨hp.frame.calls 0 h.calls, ?_, ?_, fun g => h.unborn_of_frame hl hp.frame, h.tokens,
    h.numbers, h.begun⟩
  · intro l' hl'
    refine ⟨Nat.le_trans (h.inFlight l' hl').1 hp.frame.generation, ?_⟩
    show Underway (deedsIn l'.generation w.log)
    by_cases hg : l'.generation = l.generation
    · rw [hg, hd]
      exact (h.inFlight l hl).2.append hq
    · rw [hp.frame.deeds_of_ne hg]
      exact (h.inFlight l' hl').2
  · intro g
    show deedsIn g w.log = [] ∨ _ ∨ ∃ number o, Over w.settings number o (deedsIn g w.log)
    by_cases hg : g = l.generation
    · exact .inr (.inl ⟨l, hl, hg.symm⟩)
    · rw [hp.frame.deeds_of_ne hg, hp.frame.settings]
      exact h.loads g

/-- The loads that are left when one ends are those with other generations. -/
theorem mem_filter_iff (h : run.Orderly) (hl : l ∈ run.inFlight) {l' : InFlight} :
    l' ∈ run.inFlight.filter (·.number != l.number) ↔
      l' ∈ run.inFlight ∧ l'.generation ≠ l.generation := by
  rw [List.mem_filter, bne_iff_ne]
  refine and_congr_right fun hl' => not_congr ⟨fun hn => ?_, fun hg => ?_⟩
  · rw [h.eq_of_number hl hl' hn]
  · rw [h.eq_of_generation hl hl' hg]

/-- A stage of a load in flight that ends it. -/
theorem ends (h : run.Orderly) (hl : l ∈ run.inFlight) {o : Outcome}
    (hp : Proceeds l.generation run.world w (some o)) :
    ((run.withWorld w).conclude l o).Orderly := by
  obtain ⟨quiet, closing, hd, hq, hc⟩ := hp.deeds
  have hended : Frame (some l.generation) w
      (w.note (.load l.generation .pending) (.ended l.number o)) :=
    World.frame_note (.load l.generation .pending) fun _ => rfl
  have hframe := hp.frame.trans hended
  have hsub : (run.inFlight.filter (·.number != l.number)).Sublist run.inFlight :=
    List.filter_sublist
  refine ⟨hframe.calls 0 h.calls, ?_, ?_, fun g => h.unborn_of_frame hl hframe,
    h.tokens.sublist (hsub.map _), h.numbers.sublist (hsub.map _),
    fun l' hl' => h.begun l' (hsub.subset hl')⟩
  · intro l' hl'
    obtain ⟨hmem, hg⟩ := (h.mem_filter_iff hl).mp hl'
    refine ⟨Nat.le_trans (h.inFlight l' hmem).1 hframe.generation, ?_⟩
    exact hframe.deeds_of_ne hg ▸ (h.inFlight l' hmem).2
  · intro g
    by_cases hg : g = l.generation
    · subst hg
      refine .inr (.inr ⟨l.number, o, _, closing, (h.inFlight l hl).2.append hq, ?_, ?_⟩)
      · show Closing w.settings (some o) closing
        rw [hp.frame.settings]
        exact hc
      · refine (World.deedsIn_note w _ _ _).trans ?_
        rw [hd, deed?_load]
        rfl
    · show deedsIn g (w.note _ _).log = [] ∨ _ ∨
        ∃ number o, Over (w.note _ _).settings number o (deedsIn g (w.note _ _).log)
      rw [hframe.deeds_of_ne hg, hframe.settings]
      rcases h.loads g with hnone | ⟨l', hl', hl'g⟩ | hover
      · exact .inl hnone
      · exact .inr (.inl ⟨l', (h.mem_filter_iff hl).mpr ⟨hl', hl'g ▸ hg⟩, hl'g⟩)
      · exact .inr (.inr hover)

/-- A stage of a load in flight, with a calm world after it. -/
theorem settle (h : run.Orderly) (hl : l ∈ run.inFlight) {o : Option Outcome}
    (hp : Proceeds l.generation run.world w o) :
    ((run.withWorld w).settle l o).Orderly ∧ ((run.withWorld w).settle l o).world.Calm := by
  cases o with
  | none => exact ⟨h.stays hl hp, hp.calm⟩
  | some o =>
    refine ⟨h.ends hl hp, hp.calm.note rfl ⟨l.generation, rfl, fun ho => ?_⟩ rfl rfl⟩
    exact hp.stale (congrArg some ho)

/-- Waiting for something else. -/
theorem setWait (h : run.Orderly) (number : Nat) (wait : Wait) :
    (run.setWait number wait).Orderly := by
  have hkeep : ∀ l : InFlight, (if l.number = number then { l with wait } else l).generation =
      l.generation ∧ (if l.number = number then { l with wait } else l).number = l.number := by
    intro l
    split <;> exact ⟨rfl, rfl⟩
  have htokens : (run.setWait number wait).inFlight.map (·.generation) =
      run.inFlight.map (·.generation) := by
    show (run.inFlight.map _).map _ = _
    rw [List.map_map]
    exact List.map_congr_left fun l _ => (hkeep l).1
  have hnumbers : (run.setWait number wait).inFlight.map (·.number) =
      run.inFlight.map (·.number) := by
    show (run.inFlight.map _).map _ = _
    rw [List.map_map]
    exact List.map_congr_left fun l _ => (hkeep l).2
  refine ⟨h.calls, ?_, ?_, h.unborn, htokens ▸ h.tokens, hnumbers ▸ h.numbers, ?_⟩
  · intro l' hl'
    obtain ⟨l, hl, rfl⟩ := List.mem_map.mp hl'
    rw [(hkeep l).1]
    exact h.inFlight l hl
  · intro g
    rcases h.loads g with hnone | ⟨l, hl, hlg⟩ | hover
    · exact .inl hnone
    · exact .inr (.inl ⟨_, List.mem_map_of_mem hl, ((hkeep l).1).trans hlg⟩)
    · exact .inr (.inr hover)
  · intro l' hl'
    obtain ⟨l, hl, rfl⟩ := List.mem_map.mp hl'
    rw [(hkeep l).2]
    exact h.begun l hl

/-- A load that has just begun joins the others. -/
theorem joins (h : run.Orderly) (hf : Frame (some l.generation) run.world w)
    (hold : l.generation = run.world.state.generation + 1)
    (hnew : w.state.generation = l.generation) (hnumber : l.number = run.begun)
    (hl : Underway (deedsIn l.generation w.log)) :
    Orderly { run with
      world := w, begun := run.begun + 1, inFlight := run.inFlight ++ [l] } := by
  have hother : ∀ l' ∈ run.inFlight, l'.generation ≠ l.generation := by
    intro l' hl'
    have hle := (h.inFlight l' hl').1
    omega
  refine ⟨hf.calls 0 h.calls, ?_, ?_, ?_, ?_, ?_, ?_⟩
  · intro l' hl'
    rcases List.mem_append.mp hl' with hl' | hl'
    · refine ⟨Nat.le_trans (h.inFlight l' hl').1 hf.generation, ?_⟩
      exact hf.deeds_of_ne (hother l' hl') ▸ (h.inFlight l' hl').2
    · obtain rfl := List.mem_singleton.mp hl'
      exact ⟨Nat.le_of_eq hnew.symm, hl⟩
  · intro g
    by_cases hg : g = l.generation
    · exact .inr (.inl ⟨l, by simp, hg.symm⟩)
    · rcases h.loads g with hnone | ⟨l', hl', hl'g⟩ | hover
      · exact .inl ((hf.deeds_of_ne hg).trans hnone)
      · exact .inr (.inl ⟨l', List.mem_append_left _ hl', hl'g⟩)
      · refine .inr (.inr ?_)
        rw [hf.deeds_of_ne hg, hf.settings]
        exact hover
  · intro g hg
    have hlater : l.generation < g := hnew ▸ hg
    exact (hf.deeds_of_ne (Nat.ne_of_gt hlater)).trans (h.unborn g (by omega))
  · simp only [List.map_append, List.map_cons, List.map_nil]
    refine h.tokens.append (List.nodup_singleton _) ?_
    intro g hg hg'
    obtain ⟨l', hl', rfl⟩ := List.mem_map.mp hg
    exact hother l' hl' (List.mem_singleton.mp hg')
  · simp only [List.map_append, List.map_cons, List.map_nil]
    refine h.numbers.append (List.nodup_singleton _) ?_
    intro n hn hn'
    obtain ⟨l', hl', rfl⟩ := List.mem_map.mp hn
    have hlt := h.begun l' hl'
    rw [List.mem_singleton.mp hn', hnumber] at hlt
    exact Nat.lt_irrefl _ hlt
  · intro l' hl'
    rcases List.mem_append.mp hl' with hl' | hl'
    · exact Nat.lt_succ_of_lt (h.begun l' hl')
    · obtain rfl := List.mem_singleton.mp hl'
      exact hnumber ▸ Nat.lt_succ_self _

/-- A load has just begun: it has done nothing else, and asks next whether its type is playable. -/
theorem began (h : run.Orderly) (hcalm : run.world.Calm) (asset : Asset) {g : Nat}
    (hg : g = run.world.state.generation + 1)
    (hw : w = run.world.become (.load g .pending) (.began asset)
      (run.world.state.beginLoad asset.name)) :
    w.Consistent ∧ w.due = some (.load g .pending, .canPlayType) ∧ Frame (some g) run.world w ∧
      deedsIn g w.log = [⟨.pending, .began asset⟩] := by
  subst hg hw
  refine ⟨hcalm.toConsistent.become rfl rfl hcalm.due, World.due_become _ _ _ _,
    World.frame_become (.load _ .pending) (Nat.le_succ _) fun _ => rfl, ?_⟩
  rw [World.deedsIn_become, h.unborn _ (Nat.lt_succ_self _), deed?_load]
  rfl

/-- A load begins, and its first stage runs. -/
theorem begin (h : run.Orderly) (hcalm : run.world.Calm) {r : Reaction} (hr : Lawful r)
    (asset : Asset) : (run.begin r asset).Orderly ∧ (run.begin r asset).world.Calm := by
  obtain ⟨hw, hdue, hframe, hdeeds⟩ := h.began hcalm asset rfl rfl
  let l : InFlight := ⟨run.begun, run.world.state.generation + 1, .container asset.source⟩
  have hbegun := h.joins (l := l) hframe rfl rfl rfl ⟨asset, [], hdeeds, nofun⟩
  have hl : l ∈ run.inFlight ++ [l] := List.mem_append_right _ (List.mem_singleton_self l)
  exact hbegun.settle hl (World.proceeds_openMedia hr hw asset hdue)

theorem mem_of_find? {number : Nat} (hf : run.find? number = some l) : l ∈ run.inFlight :=
  List.mem_of_find?_eq_some hf

/-- A waiting load looks again. -/
theorem look (h : run.Orderly) (hcalm : run.world.Calm) {r : Reaction} (hr : Lawful r)
    (number : Nat) : (run.look r number).Orderly ∧ (run.look r number).world.Calm := by
  unfold Run.look
  split
  · next hf =>
    exact h.settle (mem_of_find? hf) (World.proceeds_lookAgain hr hcalm _ _)
  · exact ⟨h, hcalm⟩

/-- The container of a load is read. -/
theorem read (h : run.Orderly) (hcalm : run.world.Calm) {r : Reaction} (hr : Lawful r)
    (number : Nat) : (run.read r number).Orderly ∧ (run.read r number).world.Calm := by
  unfold Run.read
  split
  · next l generation source hf =>
    have hp := World.proceeds_containerRead (g := generation) hr hcalm (source.metadata run.files)
    dsimp only
    split
    · next o ho =>
      rw [ho] at hp
      exact h.settle (mem_of_find? hf) hp
    · next creation hwaits =>
      rw [hwaits] at hp
      exact ((h.stays (mem_of_find? hf) hp).setWait _ _).look hp.calm hr number
  · exact ⟨h, hcalm⟩

theorem act (h : run.Orderly) (hcalm : run.world.Calm) {r : Reaction} (hr : Lawful r)
    (a : Action) : (run.act r a).1.Orderly ∧ (run.act r a).1.world.Calm :=
  ⟨h.withWorld (World.frame_invariance.apply (World.frame_lawful hr) a run.world),
    World.calm_invariance.apply (World.calm_lawful hr) a run.world hcalm⟩

end Orderly

/-- A fresh controller has an empty log. -/
theorem orderly_of_empty {run : Run} (hlog : run.world.log = []) (hl : run.inFlight = []) :
    run.Orderly := by
  constructor <;> simp [hlog, hl, openCalls, deedsIn]

theorem Reachable.orderly {run : Run} (h : Reachable run) : run.Orderly ∧ run.world.Calm := by
  induction h with
  | start => exact ⟨orderly_of_empty rfl rfl, ⟨sound_nil _, rfl⟩, rfl⟩
  | files _ _ ih => exact ⟨⟨ih.1.calls, ih.1.inFlight, ih.1.loads, ih.1.unborn, ih.1.tokens,
      ih.1.numbers, ih.1.begun⟩, ih.2⟩
  | move _ hr m ih =>
    cases m with
    | begin asset => exact ih.1.begin ih.2 hr asset
    | read number => exact ih.1.read ih.2 hr number
    | look number => exact ih.1.look ih.2 hr number
    | advance => exact ⟨⟨ih.1.calls, ih.1.inFlight, ih.1.loads, ih.1.unborn, ih.1.tokens,
        ih.1.numbers, ih.1.begun⟩, ih.2⟩
    | act a => exact ih.1.act ih.2 hr a

end Run
end VideoSync.Sync
