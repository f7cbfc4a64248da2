import Mathlib.Tactic.IntervalCases
import VideoSync.Proofs.Decimal.Numerals
import VideoSync.Proofs.Toml.Values
import VideoSync.Toml.Writing

/-
  Values that are written and read again: truth values, whole numbers and texts in quotes that need
  no escapes. These are all that settings are made of.
-/

namespace VideoSync.Toml

/-! ## Words -/

/-- A word that has a meaning writes it. -/
theorem writes_word {w : List Char} {v : Value} (hv : scalar? w = some v)
    (hall : w.all (!endsWord ·) = true)
    (hfirst : ∀ c, w.head? = some c → ¬ IsQuote c ∧ c ≠ '[' ∧ c ≠ '\x7b') : Writes v w := by
  obtain ⟨c, more, rfl⟩ : ∃ c more, w = c :: more := List.exists_cons_of_ne_nil fun hnil => by
    rw [hnil, scalar?_nil] at hv
    cases hv
  have hw : ∀ d ∈ c :: more, endsWord d = false := by simpa using hall
  have hreturn : '\r' ∉ c :: more := fun hmem => ne_return_of_not_endsWord (hw _ hmem) rfl
  refine ⟨⟨c, more, rfl, hw c (by simp)⟩, fun {rest} hrest => ?_⟩
  rw [clean_eq_self hreturn, value?_word, word?_plain hw hrest.ends fun _ => hrest.noTime, hv]
  · rfl
  · rintro d ⟨⟩
    exact hfirst c rfl

theorem writes_boolean (b : Bool) :
    Writes (.boolean b) (if b then "true" else "false").toList := by
  have hfirst {w : List Char} (h : w.head? = some 't' ∨ w.head? = some 'f') :
      ∀ c, w.head? = some c → ¬ IsQuote c ∧ c ≠ '[' ∧ c ≠ '\x7b' := by
    intro c hc
    rcases h with h | h <;> rw [h] at hc <;> cases hc <;> simp [IsQuote]
  cases b
  · refine writes_word ?_ (by decide) (hfirst (.inr rfl))
    rw [scalar?, if_neg (by decide), if_pos (by decide)]
  · refine writes_word ?_ (by decide) (hfirst (.inl rfl))
    rw [if_pos rfl, scalar?, if_pos rfl]

/-! ## Whole numbers -/

theorem plainDigits?_eq {digits : List Char} (hne : digits ≠ [])
    (h : ∀ c ∈ digits, c.isDigit = true) : plainDigits? Char.isDigit digits = some digits := by
  induction digits with
  | nil => contradiction
  | cons c rest ih =>
    obtain ⟨hc, hrest⟩ := List.forall_mem_cons.mp h
    cases rest with
    | nil => rw [plainDigits?, if_pos hc]
    | cons d rest =>
      have hd : d ≠ '_' := by
        rintro rfl
        exact absurd (hrest '_' (by simp)) (by decide)
      rw [plainDigits?, if_pos hc, ih (by simp) hrest]
      · rfl
      · simp
      · rintro tail heq
        exact hd (List.cons.inj heq).1

/-- A number starts with zero only when it is zero. -/
theorem toDigits_cases (n : Nat) : Nat.toDigits 10 n = ['0'] ∨
    ∃ c more, Nat.toDigits 10 n = c :: more ∧ c ≠ '0' := by
  induction n using Nat.strongRecOn with
  | ind n ih =>
    by_cases hn : n < 10
    · rw [Nat.toDigits_of_lt_base hn]
      interval_cases n
      · exact .inl rfl
      all_goals exact .inr ⟨_, [], rfl, by decide⟩
    · rw [Nat.toDigits_of_base_le (by omega) (by omega)]
      right
      rcases ih (n / 10) (by omega) with hzero | ⟨c, more, hcons, hc⟩
      · have hvalue := Decimal.natOfDigits_toDigits (n / 10)
        rw [hzero] at hvalue
        have : n / 10 = 0 := hvalue.symm
        omega
      · exact ⟨c, _, by rw [hcons, List.cons_append], hc⟩

theorem integer?_toDigits (n : Nat) : integer? (Nat.toDigits 10 n) = some (n : Int) := by
  have hall : ∀ c ∈ Nat.toDigits 10 n, c.isDigit = true := fun c hc =>
    Nat.isDigit_of_mem_toDigits (by omega) (by omega) hc
  have hplain := plainDigits?_eq Nat.toDigits_ne_nil hall
  have hvalue := Decimal.natOfDigits_toDigits n
  have hdecimal : decimalDigits? (Nat.toDigits 10 n) = some (Nat.toDigits 10 n) := by
    rw [decimalDigits?, hplain]
    rcases toDigits_cases n with hzero | ⟨c, more, hcons, hc⟩
    · rw [hzero]
      rfl
    · rw [hcons]
      split <;> simp_all
  have hbase (c d : Char) (rest : List Char) (hd : d.isDigit = false) :
      Nat.toDigits 10 n ≠ c :: d :: rest := fun heq => by
    simp [hall d (by simp [heq])] at hd
  rw [integer?]
  · simp [Decimal.takeSign_toDigits, hdecimal, hvalue]
  · exact fun rest => hbase _ _ rest (by decide)
  · exact fun rest => hbase _ _ rest (by decide)
  · exact fun rest => hbase _ _ rest (by decide)

theorem toList_intText (n : Nat) : (Decimal.intText n).toList = Nat.toDigits 10 n := by
  rw [Decimal.intText, if_neg (by omega), Decimal.natText]
  simp

theorem writes_integer (n : Nat) : Writes (.integer n) (Decimal.intText n).toList := by
  have hall : ∀ c ∈ Nat.toDigits 10 n, c.isDigit = true := fun c hc =>
    Nat.isDigit_of_mem_toDigits (by omega) (by omega) hc
  have hne (c : Char) (hc : c.isDigit = false) {w : List Char} (hw : w.head? = some c) :
      Nat.toDigits 10 n ≠ w := by
    rintro rfl
    simp [hall c (List.mem_of_head? hw)] at hc
  rw [toList_intText]
  refine writes_word ?_ (List.all_eq_true.mpr fun c hc => ?_) fun c hc => ?_
  · rw [scalar?, if_neg (hne 't' (by decide) rfl), if_neg (hne 'f' (by decide) rfl),
      integer?_toDigits]
  · by_contra hends
    have := isDigit_of_endsWord (by simpa using hends)
    simp [hall c hc] at this
  · have hdigit := hall c (List.mem_of_head? hc)
    refine ⟨?_, ?_, ?_⟩
    · rintro (rfl | rfl) <;> exact absurd hdigit (by decide)
    · rintro rfl
      exact absurd hdigit (by decide)
    · rintro rfl
      exact absurd hdigit (by decide)

/-! ## Texts in quotes -/

/-- A text that needs no escapes, read up to the quote after it. -/
theorem line?_text {quote : Char} {w : List Char}
    (hw : ∀ c ∈ w, isTextChar c = true ∧ c ≠ quote ∧ c ≠ '\\') {fuel : Nat}
    (hfuel : w.length < fuel) (escapes : Bool) (read rest : List Char) :
    line? escapes quote fuel read (w ++ quote :: rest) =
      some (String.ofList (read.reverse ++ w), rest) := by
  induction w generalizing fuel read with
  | nil =>
    obtain ⟨fuel, rfl⟩ : ∃ n, fuel = n + 1 := ⟨fuel - 1, by omega⟩
    rw [List.nil_append, line?, if_pos rfl, List.append_nil]
  | cons c w ih =>
    obtain ⟨fuel, rfl⟩ : ∃ n, fuel = n + 1 := ⟨fuel - 1, by omega⟩
    obtain ⟨⟨htext, hquote, hescape⟩, hw⟩ := List.forall_mem_cons.mp hw
    rw [List.cons_append, line?, if_neg hquote, if_neg (by simp [hescape]), if_pos htext,
      ih hw (by simpa using hfuel)]
    simp

/-- Whether a character stands for itself between quotes. -/
def isQuotable (c : Char) : Bool := isTextChar c && c != '"' && c != '\\'

theorem isQuotable_iff {c : Char} :
    isQuotable c = true ↔ isTextChar c = true ∧ c ≠ '"' ∧ c ≠ '\\' := by
  simp [isQuotable, and_assoc]

/-- A text without quotes and escapes in quotes writes itself. -/
theorem writes_quoted {s : String} (hne : s.toList ≠ []) (hall : s.toList.all isQuotable = true) :
    Writes (.string s) (quotedText s).toList := by
  have hs : ∀ c ∈ s.toList, isTextChar c = true ∧ c ≠ '"' ∧ c ≠ '\\' := fun c hc =>
    isQuotable_iff.mp (List.all_eq_true.mp hall c hc)
  have htext : (quotedText s).toList = '"' :: (s.toList ++ ['"']) := by simp [quotedText]
  have hreturn : '\r' ∉ (quotedText s).toList := by
    rw [htext]
    have : '\r' ∉ s.toList := fun hmem => ne_return_of_isTextChar (hs _ hmem).1 rfl
    simpa using this
  refine ⟨⟨'"', _, htext, by decide⟩, fun {rest} _ => ?_⟩
  obtain ⟨c, more, hcons⟩ := List.exists_cons_of_ne_nil hne
  have hc := (hs c (by simp [hcons])).2.1
  rw [clean_eq_self hreturn, htext, List.cons_append, List.append_assoc, List.singleton_append,
    value?_quoted (.inl rfl)]
  have hstring : string? ('"' :: (s.toList ++ '"' :: rest)) =
      quoted? ('"' :: (s.toList ++ '"' :: rest)) := by
    rw [string?]
    · rintro tail heq
      rw [hcons] at heq
      exact hc (List.cons.inj (List.cons.inj heq).2).1
    · rintro tail heq
      cases heq
  rw [hstring, quoted?, line?_text hs (by rw [List.length_append]; omega)]
  simp

end VideoSync.Toml
