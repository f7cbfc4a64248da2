import Mathlib.Data.List.TakeWhile
import VideoSync.Toml.Reading

/-
  What stands between tokens: blanks, line breaks and comments. `Gap next` are the texts that
  `trivia` skips before the character `next`, once carriage returns are taken out. Whatever `trivia`
  skips is such a text (`Skips.of_trivia`), and it skips such a text before any other continuation
  of the same kind (`Gap.trivia_append`).
-/

namespace VideoSync.Toml

/-- A text without carriage returns. -/
def clean (cs : List Char) : List Char := cs.filter (· != '\r')

@[simp] theorem clean_nil : clean [] = [] := rfl

@[simp] theorem clean_append (first second : List Char) :
    clean (first ++ second) = clean first ++ clean second := List.filter_append ..

theorem clean_cons_of_ne {c : Char} (h : c ≠ '\r') (cs : List Char) :
    clean (c :: cs) = c :: clean cs := List.filter_cons_of_pos (by simpa using h)

theorem clean_eq_self {cs : List Char} (h : '\r' ∉ cs) : clean cs = cs :=
  List.filter_eq_self.mpr fun c hc => by
    rw [bne_iff_ne]
    rintro rfl
    exact h hc

theorem not_mem_clean (cs : List Char) : '\r' ∉ clean cs := by simp [clean]

/-- What was taken is what stands before the rest. -/
@[simp] theorem taken_append (w rest : List Char) : taken (w ++ rest) rest = String.ofList w := by
  simp [taken]

theorem exists_append_dropWhile (p : Char → Bool) (cs : List Char) :
    ∃ w, cs = w ++ cs.dropWhile p ∧ ∀ c ∈ w, p c = true :=
  ⟨cs.takeWhile p, List.takeWhile_append_dropWhile.symm, fun _ hc => List.mem_takeWhile_imp hc⟩

/-- Where dropping stops, it has nothing more to drop. -/
theorem dropWhile_append {p : Char → Bool} {w rest : List Char} (hw : ∀ c ∈ w, p c = true)
    (hrest : ∀ c, rest.head? = some c → p c = false) : (w ++ rest).dropWhile p = rest := by
  rw [List.dropWhile_append_of_pos hw]
  cases rest with
  | nil => rfl
  | cons c rest => exact List.dropWhile_cons_of_neg (by simp [hrest c rfl])

theorem takeWhile_append {p : Char → Bool} {w rest : List Char} (hw : ∀ c ∈ w, p c = true)
    (hrest : ∀ c, rest.head? = some c → p c = false) : (w ++ rest).takeWhile p = w := by
  rw [List.takeWhile_append_of_pos hw]
  cases rest with
  | nil => simp
  | cons c rest => rw [List.takeWhile_cons_of_neg (by simp [hrest c rfl]), List.append_nil]

theorem head_dropWhile {p : Char → Bool} {cs : List Char} {c : Char}
    (h : (cs.dropWhile p).head? = some c) : p c = false := by
  have := List.head?_dropWhile_not p cs
  rw [h] at this
  simpa using this

/-! ## Skipping -/

theorem length_lineBreak {cs rest : List Char} (h : lineBreak? cs = some rest) :
    rest.length < cs.length := by
  unfold lineBreak? at h
  split at h <;> cases h <;> grind

theorem skipTrivia_eq {fuel fuel' : Nat} {cs : List Char} (h : cs.length < fuel)
    (h' : cs.length < fuel') : skipTrivia fuel cs = skipTrivia fuel' cs := by
  induction fuel generalizing fuel' cs with
  | zero => omega
  | succ fuel ih =>
    obtain ⟨fuel', rfl⟩ : ∃ n, fuel' = n + 1 := ⟨fuel' - 1, by omega⟩
    have hblanks : (skipBlanks cs).length ≤ cs.length := List.length_dropWhile_le ..
    rw [skipTrivia, skipTrivia]
    split
    · next rest hrest =>
      have hcomment : (skipComment ('#' :: rest)).length ≤ rest.length :=
        List.length_dropWhile_le ..
      rw [hrest, List.length_cons] at hblanks
      exact ih (by omega) (by omega)
    · split
      · next rest hbreak =>
        have := length_lineBreak hbreak
        exact ih (by omega) (by omega)
      · rfl

theorem trivia_blank {c : Char} (h : isBlank c = true) (cs : List Char) :
    trivia (c :: cs) = trivia cs := by
  have hblanks : skipBlanks (c :: cs) = skipBlanks cs := List.dropWhile_cons_of_pos h
  have : skipTrivia ((c :: cs).length + 1) (c :: cs) = skipTrivia ((c :: cs).length + 1) cs := by
    rw [skipTrivia, skipTrivia, hblanks]
  rw [trivia, this]
  exact skipTrivia_eq (by rw [List.length_cons]; omega) (by omega)

theorem trivia_comment (cs : List Char) :
    trivia ('#' :: cs) = trivia (cs.dropWhile isTextChar) := by
  have hblanks : skipBlanks ('#' :: cs) = '#' :: cs := rfl
  have hlength : (cs.dropWhile isTextChar).length ≤ cs.length := List.length_dropWhile_le ..
  rw [trivia, skipTrivia, hblanks]
  exact skipTrivia_eq (by simp only [skipComment, List.length_cons]; omega) (by simp [skipComment])

theorem trivia_lineBreak {cs rest : List Char} (h : lineBreak? cs = some rest) :
    trivia cs = trivia rest := by
  have hlength := length_lineBreak h
  have hblanks : skipBlanks cs = cs := by
    unfold lineBreak? at h
    split at h <;> first | rfl | contradiction
  have hhash : ∀ rest, cs ≠ '#' :: rest := by
    rintro rest rfl
    simp [lineBreak?] at h
  rw [trivia, skipTrivia, hblanks]
  split
  · exact absurd rfl (hhash _)
  · rw [h]
    exact skipTrivia_eq hlength (by omega)

/-- Whether `trivia` may skip a character. -/
def startsGap (c : Char) : Bool := isBlank c || c == '#' || c == '\n' || c == '\r'

theorem trivia_eq_self {c : Char} {cs : List Char} (hblank : isBlank c = false) (hhash : c ≠ '#')
    (hbreak : lineBreak? (c :: cs) = none) : trivia (c :: cs) = c :: cs := by
  have hblanks : skipBlanks (c :: cs) = c :: cs := List.dropWhile_cons_of_neg (by simp [hblank])
  rw [trivia, skipTrivia, hblanks]
  split
  · simp_all
  · rw [hbreak]

theorem trivia_of_solid {cs : List Char} (h : ∀ c, cs.head? = some c → startsGap c = false) :
    trivia cs = cs := by
  cases cs with
  | nil => rfl
  | cons c cs =>
    obtain ⟨⟨⟨hblank, hhash⟩, hnewline⟩, hreturn⟩ :
        ((isBlank c = false ∧ c ≠ '#') ∧ c ≠ '\n') ∧ c ≠ '\r' := by
      simpa [startsGap] using h c rfl
    refine trivia_eq_self hblank hhash ?_
    unfold lineBreak?
    split <;> simp_all

/-! ## Gaps -/

/-- Blanks, line breaks and comments before a character, or before the end. A comment ends with its
line, or with the text, or where no text may go on. -/
inductive Gap (next : Option Char) : List Char → Prop
  | nil : Gap next []
  | blank {c : Char} {g : List Char} (hc : isBlank c = true) (h : Gap next g) : Gap next (c :: g)
  | newline {g : List Char} (h : Gap next g) : Gap next ('\n' :: g)
  | comment {w g : List Char} (hw : ∀ c ∈ w, isTextChar c = true) (h : Gap next g) :
      Gap next ('#' :: (w ++ '\n' :: g))
  | lastComment {w : List Char} (hw : ∀ c ∈ w, isTextChar c = true)
      (hnext : ∀ c, next = some c → isTextChar c = false) : Gap next ('#' :: w)

namespace Gap

variable {next : Option Char} {g : List Char}

/-- A gap is skipped. -/
theorem trivia_append (h : Gap next g) {rest : List Char} (hrest : rest.head? = next)
    (hnext : ∀ c, next = some c → startsGap c = false) : trivia (g ++ rest) = rest := by
  induction h with
  | nil => exact trivia_of_solid fun c hc => hnext c (hrest ▸ hc)
  | blank hc _ ih => rw [List.cons_append, trivia_blank hc, ih]
  | newline _ ih => rw [List.cons_append, trivia_lineBreak rfl, ih]
  | comment hw _ ih =>
    rw [List.cons_append, trivia_comment, List.append_assoc, dropWhile_append hw, List.cons_append,
      trivia_lineBreak rfl, ih]
    rintro c hc
    cases hc
    decide
  | lastComment hw hend =>
    rw [List.cons_append, trivia_comment, dropWhile_append hw fun c hc => hend c (hrest ▸ hc)]
    exact trivia_of_solid fun c hc => hnext c (hrest ▸ hc)

theorem trivia_cons {c : Char} (h : Gap (some c) g) (hc : startsGap c = false) (rest : List Char) :
    trivia (g ++ c :: rest) = c :: rest :=
  h.trivia_append rfl (by rintro d ⟨⟩; exact hc)

/-- Before a character that may stand in a comment all comments have ended. -/
theorem of_text {c : Char} (h : Gap (some c) g) (hc : isTextChar c = true) (next : Option Char) :
    Gap next g := by
  induction h with
  | nil => exact .nil
  | blank hblank _ ih => exact .blank hblank ih
  | newline _ ih => exact .newline ih
  | comment hw _ ih => exact .comment hw ih
  | lastComment _ hend => simp [hend c rfl] at hc

theorem of_blanks (h : ∀ c ∈ g, isBlank c = true) : Gap next g := by
  induction g with
  | nil => exact .nil
  | cons c g ih =>
    obtain ⟨hc, hg⟩ := List.forall_mem_cons.mp h
    exact .blank hc (ih hg)

end Gap

theorem ne_return_of_isBlank {c : Char} (h : isBlank c = true) : c ≠ '\r' := by
  rintro rfl
  simp [isBlank] at h

theorem ne_return_of_isTextChar {c : Char} (h : isTextChar c = true) : c ≠ '\r' := by
  rintro rfl
  revert h
  decide

theorem isTextChar_of_isBlank {c : Char} (h : isBlank c = true) : isTextChar c = true := by
  rcases (by simpa [isBlank] using h : c = ' ' ∨ c = '\t') with rfl | rfl <;> decide

theorem exists_of_lineBreak {cs rest : List Char} (h : lineBreak? cs = some rest) :
    ∃ first, cs = first ++ rest ∧ clean first = ['\n'] := by
  unfold lineBreak? at h
  split at h <;> cases h
  · exact ⟨['\n'], rfl, rfl⟩
  · exact ⟨['\r', '\n'], rfl, rfl⟩

theorem mem_of_clean_eq {first : List Char} (h : clean first = ['\n']) : '\n' ∈ first :=
  (List.mem_filter.mp (show '\n' ∈ clean first by simp [h])).1

theorem ne_newline_of_lineBreak {c : Char} {cs : List Char} (h : lineBreak? (c :: cs) = none) :
    c ≠ '\n' := by
  rintro rfl
  simp [lineBreak?] at h

/-- What stands before the rest is a gap with carriage returns only in its line breaks, and nothing
more could be skipped. -/
def Skips (cs rest : List Char) : Prop :=
  ∃ g, cs = g ++ rest ∧ Gap rest.head? (clean g) ∧ ('\r' ∈ g → '\n' ∈ g) ∧
    ∀ c, rest.head? = some c → c = '\r' ∨ startsGap c = false

/-- What starts neither a blank nor a comment nor a line break. A carriage return may, if no newline
comes after it. -/
theorem startsGap_of_lineBreak {c : Char} {cs : List Char} (hblank : isBlank c = false)
    (hhash : c ≠ '#') (hbreak : lineBreak? (c :: cs) = none) : c = '\r' ∨ startsGap c = false := by
  by_cases hreturn : c = '\r'
  · exact .inl hreturn
  · exact .inr (by simp [startsGap, hblank, hhash, hreturn, ne_newline_of_lineBreak hbreak])

/-- Nothing that may not stand in a comment starts a blank or a comment. -/
theorem not_starts_of_not_isTextChar {c : Char} (h : isTextChar c = false) :
    isBlank c = false ∧ c ≠ '#' := by
  refine ⟨?_, ?_⟩
  · by_contra hblank
    simp [isTextChar_of_isBlank (by simpa using hblank)] at h
  · rintro rfl
    revert h
    decide

theorem clean_comment {w : List Char} (hw : ∀ c ∈ w, isTextChar c = true) :
    '\r' ∉ '#' :: w ∧ clean ('#' :: w) = '#' :: w := by
  have hnone : '\r' ∉ '#' :: w := fun hmem => by
    rcases List.mem_cons.mp hmem with heq | hmem
    · exact absurd heq (by decide)
    · exact ne_return_of_isTextChar (hw _ hmem) rfl
  exact ⟨hnone, clean_eq_self hnone⟩

namespace Skips

variable {c : Char} {w cs after rest : List Char}

theorem nothing (h : ∀ c, cs.head? = some c → c = '\r' ∨ startsGap c = false) : Skips cs cs :=
  ⟨[], rfl, .nil, by simp, h⟩

theorem blank (hc : isBlank c = true) (h : Skips cs rest) : Skips (c :: cs) rest := by
  obtain ⟨g, hg, hgap, hreturn, hsolid⟩ := h
  have hne := ne_return_of_isBlank hc
  refine ⟨c :: g, congrArg (c :: ·) hg, ?_, ?_, hsolid⟩
  · rw [clean_cons_of_ne hne]
    exact .blank hc hgap
  · simpa [hne.symm] using fun hmem => Or.inr (hreturn hmem)

theorem lineBreak (hbreak : lineBreak? cs = some after) (h : Skips after rest) : Skips cs rest := by
  obtain ⟨g, hg, hgap, -, hsolid⟩ := h
  obtain ⟨first, hfirst, hnewline⟩ := exists_of_lineBreak hbreak
  refine ⟨first ++ g, by rw [hfirst, List.append_assoc, ← hg], ?_,
    fun _ => by simp [mem_of_clean_eq hnewline], hsolid⟩
  rw [clean_append, hnewline]
  exact .newline hgap

theorem comment (hw : ∀ c ∈ w, isTextChar c = true) (hbreak : lineBreak? cs = some after)
    (h : Skips after rest) : Skips ('#' :: (w ++ cs)) rest := by
  obtain ⟨g, hg, hgap, -, hsolid⟩ := h
  obtain ⟨first, hfirst, hnewline⟩ := exists_of_lineBreak hbreak
  refine ⟨'#' :: w ++ first ++ g, ?_, ?_, fun _ => by simp [mem_of_clean_eq hnewline], hsolid⟩
  · rw [hfirst, List.append_assoc, ← hg]
    simp
  · rw [clean_append, clean_append, (clean_comment hw).2, hnewline]
    simpa using Gap.comment hw hgap

/-- After a comment without a line break nothing more is skipped. -/
theorem lastComment (hw : ∀ c ∈ w, isTextChar c = true)
    (hend : ∀ c, rest.head? = some c → isTextChar c = false) (hbreak : lineBreak? rest = none) :
    trivia rest = rest ∧ Skips ('#' :: (w ++ rest)) rest := by
  obtain ⟨hnone, hclean⟩ := clean_comment hw
  refine ⟨?_, '#' :: w, rfl, ?_, fun hmem => absurd hmem hnone, fun c hc => ?_⟩
  · cases rest with
    | nil => rfl
    | cons x rest =>
      obtain ⟨hblank, hhash⟩ := not_starts_of_not_isTextChar (hend x rfl)
      exact trivia_eq_self hblank hhash hbreak
  · rw [hclean]
    exact .lastComment hw hend
  · obtain ⟨hblank, hhash⟩ := not_starts_of_not_isTextChar (hend c hc)
    obtain ⟨rest, rfl⟩ := List.head?_eq_some_iff.mp hc
    exact startsGap_of_lineBreak hblank hhash hbreak

/-- What `trivia` skips is skipped in this sense. The induction is on the length, since a comment is
skipped to the end of its line at once. -/
theorem of_trivia (cs : List Char) : Skips cs (trivia cs) := by
  induction hlength : cs.length using Nat.strongRecOn generalizing cs with
  | ind n ih =>
    subst hlength
    cases cs with
    | nil => exact nothing (by simp)
    | cons c cs =>
      by_cases hblank : isBlank c = true
      · rw [trivia_blank hblank]
        exact (ih cs.length (by simp) cs rfl).blank hblank
      rw [Bool.not_eq_true] at hblank
      by_cases hhash : c = '#'
      · subst hhash
        rw [trivia_comment]
        obtain ⟨w, hw, htext⟩ := exists_append_dropWhile isTextChar cs
        have hend : ∀ c, (cs.dropWhile isTextChar).head? = some c → isTextChar c = false :=
          fun c hc => head_dropWhile hc
        generalize cs.dropWhile isTextChar = rest at hw hend ⊢
        subst hw
        cases hbreak : lineBreak? rest with
        | some after =>
          have hshort := length_lineBreak hbreak
          rw [trivia_lineBreak hbreak]
          exact (ih after.length (by simp; omega) after rfl).comment htext hbreak
        | none =>
          obtain ⟨hself, hskips⟩ := lastComment htext hend hbreak
          rwa [hself]
      cases hbreak : lineBreak? (c :: cs) with
      | some rest =>
        rw [trivia_lineBreak hbreak]
        exact (ih rest.length (length_lineBreak hbreak) rest rfl).lineBreak hbreak
      | none =>
        rw [trivia_eq_self hblank hhash hbreak]
        refine nothing fun d hd => ?_
        cases hd
        exact startsGap_of_lineBreak hblank hhash hbreak

end Skips

/-- Before a character that is no carriage return a gap comes first, and the same gap without its
carriage returns may come there. -/
theorem exists_gap_of_trivia {cs rest : List Char} {c : Char} (h : trivia cs = c :: rest)
    (hc : c ≠ '\r') :
    startsGap c = false ∧ ∃ g, cs = g ++ c :: rest ∧ Gap (some c) (clean g) := by
  obtain ⟨g, hg, hgap, -, hsolid⟩ := Skips.of_trivia cs
  rw [h] at hg hgap hsolid
  exact ⟨(hsolid c rfl).resolve_left hc, g, hg, hgap⟩

end VideoSync.Toml
