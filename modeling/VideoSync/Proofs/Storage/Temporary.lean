import VideoSync.Storage.Disk

/-
  The temporary file beside a file. Its name is the name of the file up to the last dot and another
  extension, and that extension has a dot in it. So it is never the name of the file itself: a path
  and its temporary path lead to two places, in whatever trees these are looked for
  (`Tree.place?_temporaryPath_ne`).
-/

namespace VideoSync.Storage

namespace Path

variable {path : String} {s : List Char}

/-! ## Segments -/

theorem segments_eq_splitOn (cs : List Char) : segments cs = cs.splitOn '/' := by
  induction cs with
  | nil => rfl
  | cons c cs ih =>
    rw [segments, List.splitOn_cons_eq_if_modifyHead, ih]
    by_cases hslash : c = '/'
    · rw [if_pos hslash, if_pos (beq_iff_eq.mpr hslash)]
    · rw [if_neg hslash, if_neg (by simpa using hslash)]
      cases hsplit : cs.splitOn '/' with
      | nil => exact absurd hsplit (List.splitOn_ne_nil '/' cs)
      | cons first rest => rfl

theorem join_eq_intercalate (ss : List (List Char)) : join ss = ['/'].intercalate ss := by
  induction ss with
  | nil => rfl
  | cons s ss ih =>
    cases ss with
    | nil => simp [join, List.intercalate]
    | cons s' ss =>
      rw [List.intercalate_cons_cons, ← ih, List.append_assoc]
      rfl

/-- Segments without slashes are found again between slashes. -/
theorem segments_join {ss : List (List Char)} (hne : ss ≠ []) (h : ∀ s ∈ ss, '/' ∉ s) :
    segments (join ss) = ss := by
  rw [segments_eq_splitOn, join_eq_intercalate]
  exact List.splitOn_intercalate '/' h hne

theorem slash_not_mem {cs : List Char} (h : s ∈ segments cs) : '/' ∉ s := by
  induction cs generalizing s with
  | nil =>
    obtain rfl := List.mem_singleton.mp h
    exact List.not_mem_nil
  | cons c cs ih =>
    rw [segments] at h
    split at h
    · rcases List.mem_cons.mp h with rfl | h
      · exact List.not_mem_nil
      · exact ih h
    · next hslash =>
      split at h
      · obtain rfl := List.mem_singleton.mp h
        simpa using Ne.symm hslash
      · next first rest hsegments =>
        rw [hsegments] at ih
        rcases List.mem_cons.mp h with rfl | h
        · rw [List.mem_cons, not_or]
          exact ⟨Ne.symm hslash, ih List.mem_cons_self⟩
        · exact ih (List.mem_cons_of_mem first h)

/-! ## The last segment -/

/-- The last segment of a path that is not empty. -/
def lastSegment? (path : String) : Option (List Char) :=
  ((segments path.toList).reverse.dropWhile (· == [])).head?

/-- The last segment that is not empty is the last one that stands for a step, if it does. -/
theorem dropWhile_isIdle {ss before : List (List Char)}
    (h : ss.dropWhile (· == []) = s :: before) (hs : isIdle s = false) :
    ss.dropWhile isIdle = s :: before := by
  induction ss with
  | nil => contradiction
  | cons x ss ih =>
    rw [List.dropWhile_cons] at h
    split at h
    · next hempty =>
      have hidle : isIdle x = true := by
        rw [isIdle, hempty, Bool.true_or]
      rw [List.dropWhile_cons, if_pos hidle, ih h]
    · obtain ⟨rfl, rfl⟩ := List.cons.inj h
      rw [List.dropWhile_cons, hs]
      rfl

/-- A name with another extension, after what is left of it without the old one. -/
theorem lastSegment?_join {before : List (List Char)} (hs : s ≠ []) (hslash : '/' ∉ s)
    (hbefore : ∀ x ∈ before, '/' ∉ x) :
    lastSegment? (String.ofList (join (s :: before).reverse)) = some s := by
  have hall : ∀ x ∈ (s :: before).reverse, '/' ∉ x := by
    intro x hx
    rcases List.mem_cons.mp (List.mem_reverse.mp hx) with rfl | hx
    · exact hslash
    · exact hbefore x hx
  have hne : (s == []) = false := by simpa using hs
  rw [lastSegment?, String.toList_ofList, segments_join (by simp) hall, List.reverse_reverse,
    List.dropWhile_cons, hne]
  rfl

theorem mem_of_mem_splitExtension {c : Char} (h : c ∈ (splitExtension s).1) : c ∈ s := by
  unfold splitExtension at h
  dsimp only at h
  split at h
  · exact h
  · exact List.mem_of_mem_take h

/-- The last segment of a temporary path leads up, or it is a name with the temporary extension. -/
theorem lastSegment?_temporaryPath (h : lastSegment? path = some s) (hup : s ≠ up)
    (hidle : isIdle s = false) :
    lastSegment? (Disk.temporaryPath path) = some up ∨
      lastSegment? (Disk.temporaryPath path) =
        some ((splitExtension s).1 ++ '.' :: Disk.temporaryExtension.toList) := by
  unfold lastSegment? at h
  rw [List.head?_eq_some_iff] at h
  obtain ⟨before, hbefore⟩ := h
  have hsegments : ∀ x ∈ s :: before, '/' ∉ x := by
    intro x hx
    rw [← hbefore] at hx
    exact slash_not_mem (List.mem_reverse.mp ((List.dropWhile_sublist _).subset hx))
  have hs := hsegments s List.mem_cons_self
  have hrest : ∀ x ∈ before, '/' ∉ x := fun x hx => hsegments x (List.mem_cons_of_mem s hx)
  have hname : '/' ∉ (splitExtension s).1 ++ '.' :: Disk.temporaryExtension.toList := by
    rw [List.mem_append, not_or]
    exact ⟨fun h => hs (mem_of_mem_splitExtension h), by decide⟩
  unfold Disk.temporaryPath withExtension
  dsimp only
  rw [dropWhile_isIdle hbefore hidle]
  dsimp only
  rw [if_neg hup]
  split
  · exact .inl (lastSegment?_join (by decide) (by decide) hrest)
  · exact .inr (lastSegment?_join (by simp) hname hrest)

/-- No name is what is left of it without its extension and then the temporary extension: that has
a dot in it, and an extension has none. -/
theorem temporaryName_ne (s : List Char) :
    (splitExtension s).1 ++ '.' :: Disk.temporaryExtension.toList ≠ s := by
  intro heq
  have hlength := congrArg List.length heq
  have hlast : (s.reverse.takeWhile (· != '.')).reverse = "tmp".toList := by
    rw [← heq, List.reverse_append]
    rfl
  rw [List.length_append] at hlength
  change (splitExtension s).1.length + 9 = s.length at hlength
  unfold splitExtension at hlength
  dsimp only at hlength
  rw [hlast] at hlength
  split at hlength
  · dsimp only at hlength
    omega
  · rw [List.length_take] at hlength
    change min (s.length - 3 - 1) s.length + 9 = s.length at hlength
    omega

end Path

namespace Tree

variable {t t' : Tree} {path name : String} {place other : Location} {target : Target}

/-- The place of the file or directory that a path names, whether or not anything is there. -/
def place? (t : Tree) (path : String) : Option Location :=
  match t.target path with
  | .ok ⟨parent, .name name, _⟩ => some (parent ++ [name])
  | _ => none

theorem place?_eq_some_iff : t.place? path = some place ↔
    ∃ parent name slash, t.target path = .ok ⟨parent, .name name, slash⟩ ∧
      place = parent ++ [name] := by
  unfold place?
  constructor
  · intro h
    split at h
    · next parent name slash htarget =>
      exact ⟨parent, name, slash, htarget, (Option.some.inj h).symm⟩
    · contradiction
  · intro h
    obtain ⟨parent, name, slash, htarget, rfl⟩ := h
    rw [htarget]

/-- A name that a path ends in is its last segment. -/
theorem lastSegment?_of_target (htarget : t.target path = .ok target)
    (hlast : target.last = .name name) :
    ∃ s, Path.lastSegment? path = some s ∧ s ≠ Path.up ∧ Path.isIdle s = false ∧
      name = String.ofList s := by
  unfold Tree.target at htarget
  simp only [bind, Except.bind, pure, Except.pure, throw, throwThe, MonadExceptOf.throw] at htarget
  split at htarget
  · contradiction
  split at htarget
  · contradiction
  split at htarget
  · contradiction
  split at htarget
  · cases htarget
    contradiction
  · next s before hbefore =>
    split at htarget
    · contradiction
    · cases htarget
      dsimp only at hlast
      split at hlast
      · contradiction
      next hup =>
      split at hlast
      · contradiction
      next hdot =>
      have hempty := List.head?_dropWhile_not (· == []) (Path.segments path.toList).reverse
      rw [hbefore] at hempty
      have hidle : Path.isIdle s = false := by
        rw [Path.isIdle, Bool.or_eq_false_iff]
        exact ⟨hempty, by simpa using hdot⟩
      refine ⟨s, ?_, hup, hidle, (LastStep.name.inj hlast).symm⟩
      rw [Path.lastSegment?, hbefore]
      rfl

theorem lastSegment?_of_place? (h : t.place? path = some place) :
    ∃ s, Path.lastSegment? path = some s ∧ s ≠ Path.up ∧ Path.isIdle s = false ∧
      place.getLast? = some (String.ofList s) := by
  obtain ⟨parent, name, slash, htarget, rfl⟩ := place?_eq_some_iff.mp h
  obtain ⟨s, hs, hup, hidle, rfl⟩ := lastSegment?_of_target htarget rfl
  exact ⟨s, hs, hup, hidle, List.getLast?_concat⟩

/-- A file and its temporary file are two files. -/
theorem place?_temporaryPath_ne (h : t.place? path = some place)
    (h' : t'.place? (Disk.temporaryPath path) = some other) : place ≠ other := by
  obtain ⟨s, hs, hup, hidle, hlast⟩ := lastSegment?_of_place? h
  obtain ⟨s', hs', hup', -, hlast'⟩ := lastSegment?_of_place? h'
  rintro rfl
  rw [hlast] at hlast'
  obtain rfl := String.ofList_injective (Option.some.inj hlast')
  rcases Path.lastSegment?_temporaryPath hs hup hidle with htemporary | htemporary
  · rw [hs'] at htemporary
    exact hup' (Option.some.inj htemporary)
  · rw [hs'] at htemporary
    exact Path.temporaryName_ne s (Option.some.inj htemporary).symm

end Tree
end VideoSync.Storage
