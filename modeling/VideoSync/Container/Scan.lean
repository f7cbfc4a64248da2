import VideoSync.Container.Error
import VideoSync.Storage.Source

/-
  Box headers read from a source, and the scan for the first box with a tag. The scan visits the
  boxes of a scope in order and never looks into a body; each step moves it forward.
-/

namespace VideoSync.Container

open VideoSync.Storage (Source)

/-- A header whose size covers at least the header itself. -/
def Header.checked (h : Header) : Except Error Header :=
  match h.size with
  | some size =>
    if size < h.length then .error (.malformed h.start (.undersized h.tag size h.length))
    else .ok h
  | none => .ok h

/-- The header that starts with eight given bytes; a size of one means a 64-bit size follows. -/
def readSized (s : Source) (pos : Nat) (bytes : List UInt8) : Except Error Header :=
  match bytes with
  | [a, b, c, d, t0, t1, t2, t3] =>
    let tag : Tag := ⟨t0, t1, t2, t3⟩
    match bigEndian [a, b, c, d] with
    | 0 => .ok ⟨tag, pos, compactLength, none⟩
    | 1 =>
      match s.exactly (pos + compactLength) 8 with
      | .error e => .error (.ofRead (pos + compactLength) .extendedSize e)
      | .ok ext => Header.checked ⟨tag, pos, extendedLength, some (bigEndian ext)⟩
    | size => Header.checked ⟨tag, pos, compactLength, some size⟩
  | _ => .error (.malformed pos (.shortHeader bytes.length))

/-- The header at a position, or nothing where the source ends. -/
def readHeader (s : Source) (pos : Nat) : Except Error (Option Header) :=
  match s.seek pos with
  | .error e => .error (.io e)
  | .ok () =>
    match s.fill pos compactLength with
    | .error e => .error (.io e)
    | .ok [] => .ok none
    | .ok bytes => (readSized s pos bytes).map some

/-- The next header of a scope, which has to end within it. -/
def nextHeader (s : Source) (stop? : Option Nat) (pos : Nat) : Except Error (Option Header) :=
  match readHeader s pos with
  | .error e => .error e
  | .ok none => if stop?.isSome then .error (.malformed pos .endsInsideParent) else .ok none
  | .ok (some h) =>
    match stop?, h.stop? with
    | some scopeEnd, some boxEnd =>
      if scopeEnd < boxEnd then .error (.malformed pos (.overrunsParent h.tag)) else .ok (some h)
    | _, _ => .ok (some h)

theorem stop?_le_maxOffset {h : Header} {stop : Nat} (hs : h.stop? = some stop) :
    stop ≤ maxOffset := by
  unfold Header.stop? at hs
  cases hz : h.size with
  | none => simp [hz] at hs
  | some size => simp only [hz, Option.map_some, Option.some.injEq] at hs; omega

/-- The first box tagged `tag` from `pos` on. A box without size ends the scan, and so does one
that would not move it forward. -/
def findFrom (s : Source) (stop? : Option Nat) (tag : Tag) (pos : Nat) :
    Except Error (Option Header) :=
  if stop?.any (· ≤ pos) then .ok none
  else match nextHeader s stop? pos with
    | .error e => .error e
    | .ok none => .ok none
    | .ok (some h) =>
      if h.tag = tag then .ok (some h)
      else match _ : h.stop? with
        | none => .ok none
        | some next => if pos < next then findFrom s stop? tag next else .ok none
termination_by maxOffset - pos
decreasing_by
  have := stop?_le_maxOffset ‹h.stop? = some next›
  omega

/-- The first box of a scope tagged `tag`. -/
def find (s : Source) (scope : Scope) (tag : Tag) : Except Error (Option Header) :=
  findFrom s scope.stop? tag scope.start

end VideoSync.Container
