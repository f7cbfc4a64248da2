import VideoSync.Container.Scan
import VideoSync.Proofs.Storage.Faults

/-
  Where a scan reads. `visited` lists the positions at which a scan reads a header, and nothing but
  the headers there decides what the scan finds. So a scan of a source that may fail finds the same
  as a scan without failures when no header at a visited position fails, and otherwise it fails:
  `findFrom_cases`.
-/

namespace VideoSync.Container

open VideoSync.Storage (Source UnlessFailed)

/-! ## One position after the other -/

/-- Where a scan goes on after what it read at a position: at the end of a box with another tag. -/
def onward? (tag : Tag) (pos : Nat) : Except Error (Option Header) → Option Nat
  | .ok (some h) => if h.tag = tag then none else h.stop?.filter (pos < ·)
  | _ => none

/-- What a scan finds that does not go on after what it read. -/
def settled (tag : Tag) : Except Error (Option Header) → Except Error (Option Header)
  | .ok (some h) => .ok (if h.tag = tag then some h else none)
  | read => read

variable {s t : Source} {stop? : Option Nat} {tag : Tag} {pos next : Nat} {e : Error}

theorem onward?_eq_some_iff {read : Except Error (Option Header)} :
    onward? tag pos read = some next ↔
      ∃ h, read = .ok (some h) ∧ h.tag ≠ tag ∧ h.stop? = some next ∧ pos < next := by
  rcases read with e | _ | h
  · simp [onward?]
  · simp [onward?]
  · by_cases htag : h.tag = tag <;> simp [onward?, htag, Option.filter_eq_some_iff]

theorem le_maxOffset_of_onward? {read : Except Error (Option Header)}
    (h : onward? tag pos read = some next) : pos < next ∧ next ≤ maxOffset := by
  obtain ⟨_, -, -, hstop, hlt⟩ := onward?_eq_some_iff.mp h
  exact ⟨hlt, stop?_le_maxOffset hstop⟩

/-- A scan that has not left its scope reads a header and settles there, or goes on. -/
theorem findFrom_eq (hstop : ¬ stop?.any (· ≤ pos)) :
    findFrom s stop? tag pos = match onward? tag pos (nextHeader s stop? pos) with
      | none => settled tag (nextHeader s stop? pos)
      | some next => findFrom s stop? tag next := by
  rw [findFrom, if_neg hstop]
  rcases nextHeader s stop? pos with e | _ | h
  · rfl
  · rfl
  · dsimp only [onward?, settled]
    by_cases htag : h.tag = tag
    · rw [if_pos htag, if_pos htag, if_pos htag]
    · rw [if_neg htag, if_neg htag, if_neg htag]
      cases h.stop? with
      | none => rfl
      | some next =>
        by_cases hlt : pos < next
        · simp [Option.filter, hlt]
        · simp [Option.filter, hlt]

/-- The positions at which a scan reads a header, in order. -/
def visited (s : Source) (stop? : Option Nat) (tag : Tag) (pos : Nat) : List Nat :=
  if stop?.any (· ≤ pos) then []
  else match _ : onward? tag pos (nextHeader s stop? pos) with
    | none => [pos]
    | some next => pos :: visited s stop? tag next
termination_by maxOffset - pos
decreasing_by
  have := le_maxOffset_of_onward? ‹onward? tag pos _ = some next›
  omega

/-! ## Scans that may fail -/

theorem nextHeader_cases (h : UnlessFailed e (readHeader s pos) (readHeader t pos))
    (stop? : Option Nat) :
    (readHeader s pos = .error e ∧ nextHeader s stop? pos = .error e) ∨
      (readHeader s pos = readHeader t pos ∧ nextHeader s stop? pos = nextHeader t stop? pos) := by
  rcases h with hfails | hsame
  · exact .inl ⟨hfails, by rw [nextHeader, hfails]⟩
  · exact .inr ⟨hsame, by rw [nextHeader, nextHeader, hsame]⟩

/-- A scan of a source that may fail fails at a position that it visits, or reads the same headers
and finds the same box as without failures. -/
theorem findFrom_cases (h : ∀ p, UnlessFailed e (readHeader s p) (readHeader t p))
    (stop? : Option Nat) (tag : Tag) (pos : Nat) :
    ((∃ p ∈ visited t stop? tag pos, readHeader s p = .error e) ∧
        findFrom s stop? tag pos = .error e) ∨
      ((∀ p ∈ visited t stop? tag pos, readHeader s p = readHeader t p) ∧
        findFrom s stop? tag pos = findFrom t stop? tag pos) := by
  fun_induction visited t stop? tag pos with
  | case1 pos hstop =>
    exact .inr ⟨nofun, by rw [findFrom, findFrom, if_pos hstop, if_pos hstop]⟩
  | case2 pos hstop hnone =>
    rw [findFrom_eq hstop, findFrom_eq hstop, hnone]
    rcases nextHeader_cases (h pos) stop? with ⟨hread, hfails⟩ | ⟨hread, hsame⟩
    · exact .inl ⟨⟨pos, List.mem_singleton_self pos, hread⟩, by rw [hfails]; rfl⟩
    · exact .inr ⟨List.forall_mem_singleton.mpr hread, by rw [hsame, hnone]⟩
  | case3 pos hstop next hnext ih =>
    rw [findFrom_eq hstop, findFrom_eq hstop, hnext]
    rcases nextHeader_cases (h pos) stop? with ⟨hread, hfails⟩ | ⟨hread, hsame⟩
    · exact .inl ⟨⟨pos, List.mem_cons_self, hread⟩, by rw [hfails]; rfl⟩
    · rw [hsame, hnext]
      refine ih.imp ?_ ?_
      · rintro ⟨⟨p, hp, hfails⟩, hfind⟩
        exact ⟨⟨p, List.mem_cons_of_mem pos hp, hfails⟩, hfind⟩
      · rintro ⟨hall, hfind⟩
        exact ⟨List.forall_mem_cons.mpr ⟨hread, hall⟩, hfind⟩

end VideoSync.Container
