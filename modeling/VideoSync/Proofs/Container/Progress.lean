import Mathlib.Data.List.Chain
import VideoSync.Proofs.Container.Extents
import VideoSync.Proofs.Container.Visits

/-
  How far a scan gets with each box. `turn` is what a scan does at one position, and `Loop` repeats
  it without asking whether it moves forward. It always does: a box that is passed stands in the
  source and ends behind its header, or where offsets end (`advances_of_turn`), and there nothing
  can be read. So the loop ends with what the scan finds, after at most one turn for eight bytes and
  one more: `scan_progress`.
-/

namespace VideoSync.Container

open VideoSync.Storage (Source)

/-- What a scan does at a position: it ends with a result, or it goes on behind a box. -/
inductive Turn where
  | stopped (result : Except Error (Option Header))
  | onward (h : Header) (next : Nat)
  deriving DecidableEq

/-- One turn of a scan. -/
def turn (s : Source) (stop? : Option Nat) (tag : Tag) (pos : Nat) : Turn :=
  if stop?.any (· ≤ pos) then .stopped (.ok none)
  else match nextHeader s stop? pos with
    | .error e => .stopped (.error e)
    | .ok none => .stopped (.ok none)
    | .ok (some h) =>
      if h.tag = tag then .stopped (.ok (some h))
      else match h.stop? with
        | none => .stopped (.ok none)
        | some next => .onward h next

/-- Turns are taken one after the other, at the visited positions, until one ends with the
result. -/
inductive Loop (s : Source) (stop? : Option Nat) (tag : Tag) :
    Nat → List Nat → Except Error (Option Header) → Prop
  | stopped {pos : Nat} {result : Except Error (Option Header)}
      (h : turn s stop? tag pos = .stopped result) : Loop s stop? tag pos [pos] result
  | onward {pos next : Nat} {box : Header} {visits : List Nat}
      {result : Except Error (Option Header)} (h : turn s stop? tag pos = .onward box next)
      (more : Loop s stop? tag next visits result) : Loop s stop? tag pos (pos :: visits) result

/-- The box at a position leads on, by the length of its header at least or to the greatest
offset. -/
def Advances (s : Source) (pos next : Nat) : Prop :=
  ∃ h, readHeader s pos = .ok (some h) ∧
    (h.length = compactLength ∨ h.length = extendedLength) ∧ pos < next ∧
    (pos + h.length ≤ next ∨ next = maxOffset)

variable {s : Source} {stop? : Option Nat} {tag : Tag} {pos next : Nat} {h : Header}
  {visits : List Nat} {result : Except Error (Option Header)}

/-! ## One turn -/

theorem turn_eq_onward_iff :
    turn s stop? tag pos = .onward h next ↔
      ¬ stop?.any (· ≤ pos) ∧ nextHeader s stop? pos = .ok (some h) ∧ h.tag ≠ tag ∧
        h.stop? = some next := by
  constructor
  · intro heq
    unfold turn at heq
    split at heq
    · contradiction
    · next hany =>
      split at heq
      · contradiction
      · contradiction
      · next h' hnext =>
        split at heq
        · contradiction
        · next htag =>
          split at heq
          · contradiction
          · next stop hstop =>
            obtain ⟨rfl, rfl⟩ := Turn.onward.inj heq
            exact ⟨hany, hnext, htag, hstop⟩
  · rintro ⟨hany, hnext, htag, hstop⟩
    rw [turn, if_neg hany, hnext]
    dsimp only
    rw [if_neg htag, hstop]

/-- A turn that goes on comes from a box that is all there, and leads to where it ends. -/
theorem advances_of_turn (hs : s.bytes.size ≤ maxOffset)
    (hturn : turn s stop? tag pos = .onward h next) :
    Advances s pos next ∧ pos + compactLength ≤ s.bytes.size ∧
      (pos + compactLength ≤ next ∨ next = maxOffset) := by
  obtain ⟨-, hnext, -, hstop⟩ := turn_eq_onward_iff.mp hturn
  have hread := (nextHeader_eq_some_iff.mp hnext).1
  have hstands := standsAt_of_readHeader hread
  have hle := hstands.le_stop hstop
  have hwithin := hstands.within
  have hlength : compactLength ≤ h.length ∧ 0 < compactLength := by
    rcases hstands.length with heq | heq <;> rw [heq] <;> decide
  exact ⟨⟨h, hread, hstands.length, by omega, hle⟩, by omega, by omega⟩

/-- Where offsets end nothing can be read, and a scan that has come there ends. -/
theorem exists_turn_maxOffset (hs : s.bytes.size ≤ maxOffset) (stop? : Option Nat) (tag : Tag) :
    ∃ result, turn s stop? tag maxOffset = .stopped result := by
  cases hturn : turn s stop? tag maxOffset with
  | stopped result => exact ⟨result, rfl⟩
  | onward h next =>
    have hwithin := (advances_of_turn hs hturn).2.1
    have hpos : 0 < compactLength := by decide
    omega

/-! ## All turns -/

/-- There is only one way to take the turns. -/
theorem Loop.unique (h : Loop s stop? tag pos visits result) {visits' : List Nat}
    {result' : Except Error (Option Header)} (h' : Loop s stop? tag pos visits' result') :
    visits' = visits ∧ result' = result := by
  induction h generalizing visits' with
  | stopped hturn =>
    cases h' with
    | stopped hturn' => exact ⟨rfl, Turn.stopped.inj (hturn'.symm.trans hturn)⟩
    | onward hturn' => cases hturn'.symm.trans hturn
  | onward hturn _ ih =>
    cases h' with
    | stopped hturn' => cases hturn'.symm.trans hturn
    | onward hturn' more' =>
      obtain ⟨rfl, rfl⟩ := Turn.onward.inj (hturn'.symm.trans hturn)
      obtain ⟨rfl, rfl⟩ := ih more'
      exact ⟨rfl, rfl⟩

/-- The scan finds what its turns end with: asking whether it moves forward makes no difference. -/
theorem exists_loop (hs : s.bytes.size ≤ maxOffset) (stop? : Option Nat) (tag : Tag) (pos : Nat) :
    ∃ visits, Loop s stop? tag pos visits (findFrom s stop? tag pos) := by
  fun_induction findFrom s stop? tag pos with
  | case1 pos hany => exact ⟨[pos], .stopped (by rw [turn, if_pos hany])⟩
  | case2 pos hany e hnext => exact ⟨[pos], .stopped (by rw [turn, if_neg hany, hnext])⟩
  | case3 pos hany hnext => exact ⟨[pos], .stopped (by rw [turn, if_neg hany, hnext])⟩
  | case4 pos hany h hnext htag =>
    exact ⟨[pos], .stopped (by rw [turn, if_neg hany, hnext]; exact if_pos htag)⟩
  | case5 pos hany h hnext htag hstop =>
    refine ⟨[pos], .stopped ?_⟩
    rw [turn, if_neg hany, hnext]
    dsimp only
    rw [if_neg htag, hstop]
  | case6 pos hany h hnext htag next hstop _ ih =>
    obtain ⟨visits, hmore⟩ := ih
    exact ⟨pos :: visits, .onward (turn_eq_onward_iff.mpr ⟨hany, hnext, htag, hstop⟩) hmore⟩
  | case7 pos hany h hnext htag next hstop hstands =>
    have hturn := turn_eq_onward_iff.mpr ⟨hany, hnext, htag, hstop⟩
    obtain ⟨⟨-, -, -, hlt, -⟩, -⟩ := advances_of_turn hs hturn
    exact absurd hlt hstands

theorem Loop.head?_eq (h : Loop s stop? tag pos visits result) : visits.head? = some pos := by
  cases h <;> rfl

theorem Loop.isChain (hs : s.bytes.size ≤ maxOffset) (h : Loop s stop? tag pos visits result) :
    visits.IsChain (Advances s) := by
  induction h with
  | stopped => exact .singleton _
  | onward hturn more ih =>
    refine List.isChain_cons.mpr ⟨fun p hp => ?_, ih⟩
    rw [more.head?_eq] at hp
    obtain rfl := Option.some.inj hp
    exact (advances_of_turn hs hturn).1

/-- A turn that goes on uses up eight bytes, or all of them. -/
theorem Loop.length_le (hs : s.bytes.size ≤ maxOffset) (h : Loop s stop? tag pos visits result) :
    visits.length ≤ (s.bytes.size - pos) / compactLength + 1 := by
  unfold compactLength
  induction h with
  | stopped => exact Nat.le_add_left 1 _
  | onward hturn _ ih =>
    obtain ⟨-, hwithin, hnext⟩ := advances_of_turn hs hturn
    unfold compactLength at hwithin hnext
    rw [List.length_cons]
    omega

/-- The headers of a scan are read at the positions that its turns visit; only at the last one there
may be none to read. -/
theorem Loop.visited_prefix (h : Loop s stop? tag pos visits result) :
    visited s stop? tag pos <+: visits := by
  fun_induction visited s stop? tag pos generalizing visits with
  | case1 pos hany => exact List.nil_prefix
  | case2 pos =>
    have hhead := h.head?_eq
    cases h with
    | stopped => exact List.prefix_rfl
    | onward => exact (List.prefix_append [pos] _)
  | case3 pos hany next hnext ih =>
    obtain ⟨h', hread, htag, hstop, -⟩ := onward?_eq_some_iff.mp hnext
    have hturn := turn_eq_onward_iff.mpr ⟨hany, hread, htag, hstop⟩
    cases h with
    | stopped hturn' => cases hturn'.symm.trans hturn
    | onward hturn' more =>
      obtain ⟨rfl, rfl⟩ := Turn.onward.inj (hturn'.symm.trans hturn)
      exact List.cons_prefix_cons.mpr ⟨rfl, ih more⟩

/-- A scan takes its turns at greater and greater offsets, from one to the next by the length of a
header at least or to the greatest offset, where it ends. It comes to an end, with what it finds,
after at most one turn for eight bytes from where it began and one more, and so reads no more
headers than that. No source has more bytes than there are offsets. -/
theorem scan_progress (hs : s.bytes.size ≤ maxOffset) (stop? : Option Nat) (tag : Tag)
    (start : Nat) :
    ∃ visits, Loop s stop? tag start visits (findFrom s stop? tag start) ∧
      (∀ visits' result, Loop s stop? tag start visits' result →
        visits' = visits ∧ result = findFrom s stop? tag start) ∧
      visits.Pairwise (· < ·) ∧ visits.IsChain (Advances s) ∧
      (∃ result, turn s stop? tag maxOffset = .stopped result) ∧
      visited s stop? tag start <+: visits ∧
      visits.length ≤ (s.bytes.size - start) / 8 + 1 := by
  obtain ⟨visits, hloop⟩ := exists_loop hs stop? tag start
  have hchain := hloop.isChain hs
  have hforward : visits.IsChain (· < ·) := by
    refine hchain.imp ?_
    rintro p next ⟨-, -, -, hlt, -⟩
    exact hlt
  exact ⟨visits, hloop, fun _ _ h => hloop.unique h, hforward.pairwise, hchain,
    exists_turn_maxOffset hs stop? tag, hloop.visited_prefix, hloop.length_le hs⟩

/-- An empty box, and one with a 64-bit size that leads past all offsets. -/
def hugeBox : List UInt8 :=
  [0x00, 0x00, 0x00, 0x08, 0x66, 0x72, 0x65, 0x65, 0x00, 0x00, 0x00, 0x01, 0x66, 0x72, 0x65, 0x65,
    0xFF, 0xFF, 0xFF, 0xFF, 0xFF, 0xFF, 0xFF, 0xFF]

/-- A scan of them comes to the greatest offset and ends there. -/
theorem scan_progress_hugeBox :
    (Source.memory hugeBox.toArray).bytes.size ≤ maxOffset ∧
      findFrom (.memory hugeBox.toArray) none .moov 0 = .ok none ∧
      Loop (.memory hugeBox.toArray) none .moov 0 [0, 8, maxOffset] (.ok none) ∧
      [0, 8, maxOffset].IsChain (Advances (.memory hugeBox.toArray)) := by
  have hsize : (Source.memory hugeBox.toArray).bytes.size ≤ maxOffset := by decide +kernel
  have hfirst : turn (.memory hugeBox.toArray) none .moov 0 =
      .onward ⟨⟨0x66, 0x72, 0x65, 0x65⟩, 0, compactLength, some 8⟩ 8 := by decide +kernel
  have hsecond : turn (.memory hugeBox.toArray) none .moov 8 =
      .onward ⟨⟨0x66, 0x72, 0x65, 0x65⟩, 8, extendedLength, some maxOffset⟩ maxOffset := by
    decide +kernel
  have hturns : Loop (.memory hugeBox.toArray) none .moov 0 [0, 8, maxOffset] (.ok none) :=
    .onward hfirst (.onward hsecond (.stopped (by decide +kernel)))
  obtain ⟨visits, -, hunique, -, hchain, -⟩ := scan_progress hsize none .moov 0
  obtain ⟨hvisits, hresult⟩ := hunique _ _ hturns
  rw [← hvisits] at hchain
  exact ⟨hsize, hresult.symm, hturns, hchain⟩

end VideoSync.Container
