import VideoSync.Proofs.Toml.Gaps

/-
  Strings depend on nothing that follows them. If a reader takes `w` off the front of a text, then
  it takes `w` without its carriage returns off the front of any other text, with the same result: a
  carriage return is read only at the end of a line, and there it says nothing. Only quotes may not
  follow, since quotes that come at once would belong to the string.
-/

namespace VideoSync.Toml

variable {cs rest : List Char}

/-! ## Escapes -/

theorem hex?_local {n value code : Nat} (h : hex? n value cs = some (code, rest)) :
    ∃ w, cs = w ++ rest ∧ '\r' ∉ w ∧ ∀ rest', hex? n value (w ++ rest') = some (code, rest') := by
  induction n generalizing value cs with
  | zero =>
    cases h
    exact ⟨[], rfl, by simp, fun _ => rfl⟩
  | succ n ih =>
    cases cs with
    | nil => contradiction
    | cons c cs =>
      rw [hex?] at h
      obtain ⟨digit, hdigit, h⟩ := Option.bind_eq_some_iff.mp h
      obtain ⟨w, rfl, hw, hlocal⟩ := ih h
      refine ⟨c :: w, rfl, ?_, fun rest' => ?_⟩
      · rintro (_ | ⟨_, hmem⟩)
        · have hnone : Json.hexValue? '\r' = none := by decide
          simp [hnone] at hdigit
        · exact hw hmem
      · rw [List.cons_append, hex?, hdigit]
        exact hlocal rest'

theorem escape?_local {e : Char} (h : escape? cs = some (e, rest)) :
    ∃ w, cs = w ++ rest ∧ '\r' ∉ w ∧ ∀ rest', escape? (w ++ rest') = some (e, rest') := by
  have hcoded {n : Nat} {c : Char} {after : List Char} (hc : c ≠ '\r')
      (hescape : ∀ cs, escape? (c :: cs) = escape?.coded n cs)
      (h : escape?.coded n after = some (e, rest)) :
      ∃ w, c :: after = w ++ rest ∧ '\r' ∉ w ∧ ∀ rest', escape? (w ++ rest') = some (e, rest') := by
    rw [escape?.coded] at h
    split at h
    · next code rest hhex =>
      obtain ⟨character, hcharacter, heq⟩ := Option.map_eq_some_iff.mp h
      cases heq
      obtain ⟨w, rfl, hw, hlocal⟩ := hex?_local hhex
      refine ⟨c :: w, rfl, by simp [hw, hc.symm], fun rest' => ?_⟩
      rw [List.cons_append, hescape, escape?.coded, hlocal]
      simp [hcharacter]
    · contradiction
  unfold escape? at h
  split at h
  case h_9 => exact hcoded (by decide) (fun _ => rfl) h
  case h_10 => exact hcoded (by decide) (fun _ => rfl) h
  case h_11 => exact hcoded (by decide) (fun _ => rfl) h
  case h_12 => contradiction
  all_goals
    cases h
    exact ⟨[_], rfl, by decide, fun _ => rfl⟩

/-! ## Strings on one line -/

theorem line?_local {escapes : Bool} {quote : Char} (hquote : quote ≠ '\r') {fuel : Nat}
    {read : List Char} {s : String} (h : line? escapes quote fuel read cs = some (s, rest)) :
    ∃ w, cs = w ++ rest ∧ '\r' ∉ w ∧ w ≠ [] ∧ (w.head? = some quote → w = [quote]) ∧
      ∀ rest' fuel', w.length ≤ fuel' →
        line? escapes quote fuel' read (w ++ rest') = some (s, rest') := by
  induction fuel generalizing read cs with
  | zero => contradiction
  | succ fuel ih =>
    cases cs with
    | nil => contradiction
    | cons c cs =>
      rw [line?] at h
      split at h
      · next hc =>
        subst hc
        cases h
        refine ⟨[c], rfl, by simpa using hquote.symm, by simp, fun _ => rfl,
          fun rest' fuel' hfuel => ?_⟩
        obtain ⟨fuel', rfl⟩ : ∃ n, fuel' = n + 1 := ⟨fuel' - 1, by simp at hfuel; omega⟩
        simp [line?]
      · next hc =>
        have hne : c :: cs ≠ [] := by simp
        split at h
        · next hescapes =>
          split at h
          · next e after hescape =>
            obtain ⟨w, rfl, hw, hlocal⟩ := escape?_local hescape
            obtain ⟨more, rfl, hmore, -, -, hread⟩ := ih h
            refine ⟨c :: (w ++ more), by simp, ?_, by simp, fun hhead => ?_,
              fun rest' fuel' hfuel => ?_⟩
            · simp [hw, hmore, hescapes.2]
            · exact absurd (by simpa using hhead) hc
            · obtain ⟨fuel', rfl⟩ : ∃ n, fuel' = n + 1 := ⟨fuel' - 1, by simp at hfuel; omega⟩
              simp only [List.length_cons, List.length_append] at hfuel
              rw [List.cons_append, line?, if_neg hc, if_pos hescapes, List.append_assoc, hlocal]
              exact hread rest' fuel' (by omega)
          · contradiction
        · next hescapes =>
          split at h
          · next htext =>
            obtain ⟨more, rfl, hmore, -, -, hread⟩ := ih h
            refine ⟨c :: more, rfl, ?_, by simp, fun hhead => ?_, fun rest' fuel' hfuel => ?_⟩
            · simp [hmore, (ne_return_of_isTextChar htext).symm]
            · exact absurd (by simpa using hhead) hc
            · obtain ⟨fuel', rfl⟩ : ∃ n, fuel' = n + 1 := ⟨fuel' - 1, by simp at hfuel; omega⟩
              simp only [List.length_cons] at hfuel
              rw [List.cons_append, line?, if_neg hc, if_neg hescapes, if_pos htext]
              exact hread rest' fuel' (by omega)
          · contradiction

/-! ## Strings on several lines -/

section Closing

variable {quote : Char} {read read' : List Char}

variable (read) in
/-- Quotes that close a string, with up to two more before them. -/
theorem closing?_replicate {more : Nat} (hmore : more ≤ 2) (hrest : rest.head? ≠ some quote) :
    closing? quote read (List.replicate (3 + more) quote ++ rest) =
      some (List.replicate more quote ++ read, rest) := by
  have hstop : (rest.take 2).takeWhile (· == quote) = [] := by
    cases rest with
    | nil => rfl
    | cons c rest => simpa using hrest
  have hstop' : (rest.take 1).takeWhile (· == quote) = [] := by
    cases rest with
    | nil => rfl
    | cons c rest => simpa using hrest
  obtain rfl | rfl | rfl : more = 0 ∨ more = 1 ∨ more = 2 := by omega
  · simp [closing?, List.replicate, hstop]
  · simp [closing?, List.replicate, hstop']
  · simp [closing?, List.replicate]

theorem exists_of_closing? (h : closing? quote read cs = some (read', rest)) :
    ∃ more ≤ 2, cs = List.replicate (3 + more) quote ++ rest ∧
      read' = List.replicate more quote ++ read := by
  unfold closing? at h
  split at h
  · next a b c after =>
    split at h
    · next hquotes =>
      obtain ⟨rfl, rfl, rfl⟩ := hquotes
      dsimp only at h
      cases h
      have hall := fun x (hx : x ∈ (after.take 2).takeWhile (· == c)) => List.mem_takeWhile_imp hx
      generalize hmore : (after.take 2).takeWhile (· == c) = more at hall
      have hlength : more.length ≤ 2 := by
        rw [← hmore]
        exact (List.takeWhile_prefix _).length_le.trans (List.length_take_le ..)
      have hprefix : more <+: after := hmore ▸ (List.takeWhile_prefix _).trans (List.take_prefix ..)
      obtain ⟨tail, rfl⟩ := hprefix
      have hreplicate : more = List.replicate more.length c :=
        List.eq_replicate_of_mem fun x hx => by simpa using hall x hx
      refine ⟨more.length, hlength, ?_, by rw [← hreplicate]⟩
      rw [List.drop_left, ← List.replicate_append_replicate, ← hreplicate]
      rfl
    · contradiction
  · contradiction

theorem closing?_eq_none_iff :
    closing? quote read cs = none ↔ (cs.takeWhile (· == quote)).length < 3 := by
  unfold closing?
  split
  · next a b c after =>
    by_cases ha : a = quote
    · by_cases hb : b = quote
      · by_cases hc : c = quote <;> simp [ha, hb, hc]
      · simp [ha, hb]
    · simp [ha]
  · next hshort =>
    simp only [true_iff]
    refine Nat.lt_of_le_of_lt (List.takeWhile_prefix _).length_le ?_
    rcases cs with _ | ⟨a, _ | ⟨b, _ | ⟨c, after⟩⟩⟩
    · simp
    · simp
    · simp
    · exact absurd rfl (hshort a b c after)

end Closing

/-- Whether a backslash at the end of a line takes a character with it. -/
def joins (c : Char) : Bool := isBlank c || c == '\n' || c == '\r'

theorem joinLines_local (h : joinLines cs = some rest) :
    ∃ w, cs = w ++ rest ∧ (∃ c more, clean w = c :: more ∧ joins c = true) ∧
      (∀ c, rest.head? = some c → joins c = false) ∧
      ∀ rest', (∀ c, rest'.head? = some c → joins c = false) →
        joinLines (clean w ++ rest') = some rest' := by
  rw [joinLines] at h
  obtain ⟨after, hbreak, hafter⟩ := Option.map_eq_some_iff.mp h
  obtain ⟨blanks, hblanks, hall⟩ := exists_append_dropWhile isBlank cs
  obtain ⟨first, hfirst, hnewline⟩ := exists_of_lineBreak hbreak
  obtain ⟨more, hmore, hjoins⟩ := exists_append_dropWhile joins after
  have hrest : after.dropWhile joins = rest := hafter
  have hclean : clean blanks = blanks := clean_eq_self fun hmem =>
    ne_return_of_isBlank (hall _ hmem) rfl
  have hjoins' : ∀ c ∈ clean more, joins c = true := fun c hc =>
    hjoins c (List.mem_filter.mp hc).1
  refine ⟨blanks ++ first ++ more, ?_, ?_, fun c hc => ?_, fun rest' hrest' => ?_⟩
  · rw [hblanks, hfirst, List.append_assoc, List.append_assoc, ← hrest, ← hmore]
  · rw [clean_append, clean_append, hclean, hnewline]
    cases blanks with
    | nil => exact ⟨'\n', clean more, rfl, rfl⟩
    | cons c blanks =>
      exact ⟨c, _, rfl, by simp [joins, hall c (by simp)]⟩
  · rw [← hrest] at hc
    exact head_dropWhile hc
  · rw [clean_append, clean_append, hclean, hnewline, List.append_assoc, List.append_assoc,
      joinLines, dropWhile_append hall (by rintro c hc; cases hc; decide)]
    exact congrArg some (dropWhile_append (p := joins) hjoins' hrest')

theorem escape?_of_joins {c : Char} (h : joins c = true) (cs : List Char) :
    escape? (c :: cs) = none := by
  rcases (by simpa [joins, isBlank, or_assoc] using h :
    c = ' ' ∨ c = '\t' ∨ c = '\n' ∨ c = '\r') with rfl | rfl | rfl | rfl <;> rfl

theorem length_takeWhile_le_append (p : Char → Bool) (w rest : List Char) :
    (w.takeWhile p).length ≤ ((w ++ rest).takeWhile p).length := by
  induction w with
  | nil => simp
  | cons c w ih =>
    by_cases h : p c
    · simpa [h] using ih
    · simp [h]

/-- What a reader took of a string on several lines, and that it takes it again. Before the string
has ended there are as many quotes in a row without carriage returns as with them. -/
structure LinesTaken (escapes : Bool) (quote : Char) (read : List Char) (s : String)
    (cs rest w : List Char) : Prop where
  split : cs = w ++ rest
  ne_nil : w ≠ []
  lineBreak : w.head? = some '\r' → ∃ after, lineBreak? cs = some after
  quotes : ∀ rest', rest'.head? ≠ some quote →
    (clean w ++ rest').takeWhile (· == quote) = w.takeWhile (· == quote)
  again : ∀ rest' fuel', rest'.head? ≠ some quote → (clean w).length ≤ fuel' →
    lines? escapes quote fuel' read (clean w ++ rest') = some (s, rest')

namespace LinesTaken

variable {escapes : Bool} {quote : Char} {read : List Char} {s : String} {w : List Char}

/-- The closing quotes. -/
theorem close {more : Nat} (hmore : more ≤ 2) (hreturn : quote ≠ '\r') :
    LinesTaken escapes quote read
      (String.ofList (List.replicate more quote ++ read).reverse)
      (List.replicate (3 + more) quote ++ rest) rest (List.replicate (3 + more) quote) := by
  have hclean : clean (List.replicate (3 + more) quote) = List.replicate (3 + more) quote :=
    clean_eq_self fun hmem => hreturn (List.eq_of_mem_replicate hmem).symm
  have hcons : List.replicate (3 + more) quote = quote :: List.replicate (2 + more) quote := by
    rw [← List.replicate_succ]
    congr 1
    omega
  refine ⟨rfl, by simp, fun hhead => ?_, fun rest' hrest' => ?_, fun rest' fuel' hrest' hfuel => ?_⟩
  · rw [hcons] at hhead
    exact absurd (by simpa using hhead) hreturn
  · rw [hclean, takeWhile_append (by simp) fun c hc => ?_]
    · simp
    · simpa using fun heq => hrest' (by rw [hc, heq])
  · rw [hclean] at hfuel ⊢
    obtain ⟨fuel', rfl⟩ : ∃ n, fuel' = n + 1 := ⟨fuel' - 1, by simp at hfuel; omega⟩
    have hclosing := closing?_replicate read hmore hrest'
    rw [hcons, List.cons_append] at hclosing ⊢
    rw [lines?, hclosing]

/-- One step that starts with no quote. -/
theorem prepend {read' front cfront tail : List Char} {c : Char}
    (h : LinesTaken escapes quote read' s tail rest w) (hclean : clean front = c :: cfront)
    (hc : c ≠ quote) (hfirst : front.head? ≠ some quote)
    (hbreak : front.head? = some '\r' → ∃ after, lineBreak? (front ++ tail) = some after)
    (hstep : ∀ rest' fuel, closing? quote read (c :: (cfront ++ (clean w ++ rest'))) = none →
      lines? escapes quote (fuel + 1) read (c :: (cfront ++ (clean w ++ rest'))) =
        lines? escapes quote fuel read' (clean w ++ rest')) :
    LinesTaken escapes quote read s (front ++ tail) rest (front ++ w) := by
  have hne : front ≠ [] := by
    rintro rfl
    simp at hclean
  obtain ⟨first, front, rfl⟩ := List.exists_cons_of_ne_nil hne
  refine ⟨by rw [h.split, List.append_assoc], by simp, hbreak, fun rest' _ => ?_,
    fun rest' fuel' hrest' hfuel => ?_⟩
  · have hfirst : first ≠ quote := by simpa using hfirst
    rw [clean_append, hclean]
    simp [hc, hfirst]
  · rw [clean_append, hclean] at hfuel ⊢
    simp only [List.cons_append, List.length_cons, List.length_append] at hfuel
    obtain ⟨fuel', rfl⟩ : ∃ n, fuel' = n + 1 := ⟨fuel' - 1, by omega⟩
    rw [List.cons_append, List.cons_append, List.append_assoc, hstep]
    · exact h.again rest' fuel' hrest' (by omega)
    · exact closing?_eq_none_iff.mpr (by simp [hc])

/-- A character that stands for itself. -/
theorem char {c : Char} {tail : List Char} (h : LinesTaken escapes quote (c :: read) s tail rest w)
    (hclosing : closing? quote read (c :: tail) = none) (hescapes : ¬(escapes ∧ c = '\\'))
    (hbreak : lineBreak? (c :: tail) = none) (htext : isTextChar c = true) :
    LinesTaken escapes quote read s (c :: tail) rest (c :: w) := by
  have hreturn := ne_return_of_isTextChar htext
  have hquotes (rest' : List Char) (hrest' : rest'.head? ≠ some quote) :
      (clean (c :: w) ++ rest').takeWhile (· == quote) = (c :: w).takeWhile (· == quote) := by
    rw [clean_cons_of_ne hreturn, List.cons_append, List.takeWhile_cons, List.takeWhile_cons,
      h.quotes rest' hrest']
  refine ⟨by rw [h.split]; rfl, by simp, fun hhead => ?_, hquotes,
    fun rest' fuel' hrest' hfuel => ?_⟩
  · exact absurd (by simpa using hhead) hreturn
  · have hnone : closing? quote read (c :: (clean w ++ rest')) = none := by
      have hlength := length_takeWhile_le_append (· == quote) (c :: w) rest
      rw [List.cons_append, ← h.split] at hlength
      have hsame := hquotes rest' hrest'
      rw [clean_cons_of_ne hreturn, List.cons_append] at hsame
      rw [closing?_eq_none_iff] at hclosing ⊢
      rw [hsame]
      omega
    have hbreak' : lineBreak? (c :: (clean w ++ rest')) = none := by
      have := ne_newline_of_lineBreak hbreak
      unfold lineBreak?
      split <;> simp_all
    rw [clean_cons_of_ne hreturn] at hfuel ⊢
    simp only [List.length_cons] at hfuel
    obtain ⟨fuel', rfl⟩ : ∃ n, fuel' = n + 1 := ⟨fuel' - 1, by omega⟩
    rw [List.cons_append, lines?, hnone]
    dsimp only
    rw [if_neg hescapes, hbreak']
    dsimp only
    rw [if_pos htext]
    exact h.again rest' fuel' hrest' (by omega)

/-- An escaped character. -/
theorem escaped {e : Char} {tail after : List Char} (hslash : quote ≠ '\\')
    (hescape : escape? tail = some (e, after))
    (h : LinesTaken true quote (e :: read) s after rest w) :
    ∃ w, LinesTaken true quote read s ('\\' :: tail) rest w := by
  obtain ⟨front, rfl, hfront, hlocal⟩ := escape?_local hescape
  have hclean : clean ('\\' :: front) = '\\' :: front := clean_eq_self (by simp [hfront])
  refine ⟨_, h.prepend hclean hslash.symm (by simpa using hslash.symm) (by simp)
    fun rest' fuel hnone => ?_⟩
  rw [lines?, hnone]
  simp only [hlocal, and_self, if_true]

/-- A backslash that joins lines. The next character of the string is no blank and no line break, so
that as many are left out again. -/
theorem joined {tail after : List Char} (hslash : quote ≠ '\\')
    (hjoin : joinLines tail = some after) (h : LinesTaken true quote read s after rest w) :
    ∃ w, LinesTaken true quote read s ('\\' :: tail) rest w := by
  obtain ⟨front, rfl, ⟨d, cfront, hclean, hd⟩, hend, hlocal⟩ := joinLines_local hjoin
  have hslashes : clean ('\\' :: front) = '\\' :: clean front := clean_cons_of_ne (by decide) _
  refine ⟨_, h.prepend hslashes hslash.symm (by simpa using hslash.symm) (by simp)
    fun rest' fuel hnone => ?_⟩
  have hnoescape : escape? (clean front ++ (clean w ++ rest')) = none := by
    rw [hclean]
    exact escape?_of_joins hd _
  have hagain : joinLines (clean front ++ (clean w ++ rest')) = some (clean w ++ rest') :=
    hlocal _ fun x hx => by
      obtain ⟨y, w, rfl⟩ := List.exists_cons_of_ne_nil h.ne_nil
      have hy := hend y (by rw [h.split]; rfl)
      have hne : y ≠ '\r' := by
        rintro rfl
        simp [joins] at hy
      rw [clean_cons_of_ne hne] at hx
      cases hx
      exact hy
  rw [lines?, hnone]
  simp only [hnoescape, hagain, and_self, if_true, Option.bind_some]

/-- A line break, with a carriage return or without. -/
theorem newline {tail after : List Char} (hnewline : quote ≠ '\n') (hreturn : quote ≠ '\r')
    (hbreak : lineBreak? tail = some after)
    (h : LinesTaken escapes quote ('\n' :: read) s after rest w) :
    ∃ w, LinesTaken escapes quote read s tail rest w := by
  obtain ⟨front, hfront, hclean⟩ := exists_of_lineBreak hbreak
  rw [hfront] at hbreak ⊢
  refine ⟨_, h.prepend hclean hnewline.symm (fun hhead => ?_) (fun _ => ⟨after, hbreak⟩)
    fun rest' fuel hnone => ?_⟩
  · obtain ⟨more, rfl⟩ := List.head?_eq_some_iff.mp hhead
    rw [clean_cons_of_ne hreturn] at hclean
    exact hnewline (List.cons.inj hclean).1
  · rw [lines?, hnone]
    simp [lineBreak?]

end LinesTaken

/-- What a reader takes of a string on several lines it takes again, whatever follows it. -/
theorem lines?_local {escapes : Bool} {quote : Char} (hquote : quote = '"' ∨ quote = '\'')
    {fuel : Nat} {read : List Char} {s : String}
    (h : lines? escapes quote fuel read cs = some (s, rest)) :
    ∃ w, LinesTaken escapes quote read s cs rest w := by
  have hreturn : quote ≠ '\r' := by rcases hquote with rfl | rfl <;> decide
  have hnewline : quote ≠ '\n' := by rcases hquote with rfl | rfl <;> decide
  have hslash : quote ≠ '\\' := by rcases hquote with rfl | rfl <;> decide
  induction fuel generalizing read cs with
  | zero => contradiction
  | succ fuel ih =>
    cases cs with
    | nil => contradiction
    | cons c cs =>
      rw [lines?] at h
      split at h
      · next read' after hclosing =>
        cases h
        obtain ⟨more, hmore, hsplit, rfl⟩ := exists_of_closing? hclosing
        rw [hsplit]
        exact ⟨_, .close hmore hreturn⟩
      next hclosing =>
      split at h
      · next hescapes =>
        obtain ⟨rfl, rfl⟩ := hescapes
        split at h
        · next e after hescape =>
          obtain ⟨w, hw⟩ := ih h
          exact hw.escaped hslash hescape
        · next hescape =>
          obtain ⟨after, hjoin, hmore⟩ := Option.bind_eq_some_iff.mp h
          obtain ⟨w, hw⟩ := ih hmore
          exact hw.joined hslash hjoin
      next hescapes =>
      split at h
      · next after hbreak =>
        obtain ⟨w, hw⟩ := ih h
        exact hw.newline hnewline hreturn hbreak
      next hbreak =>
      split at h
      · next htext =>
        obtain ⟨w, hw⟩ := ih h
        exact ⟨_, hw.char hclosing hescapes hbreak htext⟩
      · contradiction

/-! ## Strings of any kind -/

/-- A character that strings start with. -/
def IsQuote (c : Char) : Prop := c = '"' ∨ c = '\''

theorem quoted?_local {s : String} (h : quoted? cs = some (s, rest)) :
    ∃ quote w, IsQuote quote ∧ cs = quote :: w ++ rest ∧ '\r' ∉ w ∧
      (w.head? = some quote → w = [quote]) ∧
      ∀ rest', quoted? (quote :: w ++ rest') = some (s, rest') := by
  unfold quoted? at h
  split at h
  · obtain ⟨w, rfl, hreturn, -, hhead, hread⟩ := line?_local (by decide) h
    exact ⟨'"', w, .inl rfl, rfl, hreturn, hhead, fun rest' => hread rest' _ (by simp; omega)⟩
  · obtain ⟨w, rfl, hreturn, -, hhead, hread⟩ := line?_local (by decide) h
    exact ⟨'\'', w, .inr rfl, rfl, hreturn, hhead, fun rest' => hread rest' _ (by simp; omega)⟩
  · contradiction

/-- After three quotes a line break is left out, with a carriage return or without. -/
theorem lines?_local_of_tripled {escapes : Bool} {quote : Char} (hquote : IsQuote quote)
    {fuel : Nat} {s : String}
    (h : lines? escapes quote fuel [] ((lineBreak? cs).getD cs) = some (s, rest)) :
    ∃ w, cs = w ++ rest ∧ ∀ rest' fuel', rest'.head? ≠ some quote → (clean w).length ≤ fuel' →
      lines? escapes quote fuel' []
        ((lineBreak? (clean w ++ rest')).getD (clean w ++ rest')) = some (s, rest') := by
  obtain ⟨w, hw⟩ := lines?_local hquote h
  cases hbreak : lineBreak? cs with
  | some after =>
    rw [hbreak, Option.getD_some] at hw
    obtain ⟨front, hfront, hclean⟩ := exists_of_lineBreak hbreak
    refine ⟨front ++ w, by rw [hfront, hw.split, List.append_assoc],
      fun rest' fuel' hrest' hfuel => ?_⟩
    rw [clean_append, hclean] at hfuel ⊢
    exact hw.again rest' fuel' hrest' (by simp at hfuel; omega)
  | none =>
    rw [hbreak, Option.getD_none] at hw
    refine ⟨w, hw.split, fun rest' fuel' hrest' hfuel => ?_⟩
    have hnone : lineBreak? (clean w ++ rest') = none := by
      obtain ⟨c, w, rfl⟩ := List.exists_cons_of_ne_nil hw.ne_nil
      have hreturn : c ≠ '\r' := by
        rintro rfl
        obtain ⟨after, hafter⟩ := hw.lineBreak rfl
        simp [hbreak] at hafter
      have hnewline : c ≠ '\n' := ne_newline_of_lineBreak (by rw [hw.split] at hbreak; exact hbreak)
      rw [clean_cons_of_ne hreturn, List.cons_append]
      unfold lineBreak?
      split <;> simp_all
    rw [hnone, Option.getD_none]
    exact hw.again rest' fuel' hrest' hfuel

theorem string?_local {s : String} (h : string? cs = some (s, rest)) :
    ∃ quote w, IsQuote quote ∧ cs = quote :: w ++ rest ∧
      ∀ rest', rest'.head? ≠ some quote →
        string? (quote :: clean w ++ rest') = some (s, rest') := by
  unfold string? at h
  split at h
  · obtain ⟨w, rfl, hread⟩ := lines?_local_of_tripled (.inl rfl) h
    exact ⟨'"', '"' :: '"' :: w, .inl rfl, rfl, fun rest' hrest' =>
      hread rest' _ hrest' (by simp [clean]; omega)⟩
  · obtain ⟨w, rfl, hread⟩ := lines?_local_of_tripled (.inr rfl) h
    exact ⟨'\'', '\'' :: '\'' :: w, .inr rfl, rfl, fun rest' hrest' =>
      hread rest' _ hrest' (by simp [clean]; omega)⟩
  · obtain ⟨quote, w, hquote, rfl, hreturn, hhead, hread⟩ := quoted?_local h
    refine ⟨quote, w, hquote, rfl, fun rest' hrest' => ?_⟩
    rw [clean_eq_self hreturn, ← hread rest']
    -- after an empty string no quote follows, so that there never are three
    have hfew : ∀ tail, quote :: w ++ rest' ≠ quote :: quote :: quote :: tail := by
      intro tail heq
      have heq : w ++ rest' = quote :: quote :: tail := (List.cons.inj heq).2
      cases w with
      | nil => exact hrest' (congrArg List.head? heq)
      | cons c w =>
        obtain ⟨rfl, heq⟩ := List.cons.inj heq
        cases hhead rfl
        exact hrest' (congrArg List.head? heq)
    unfold string?
    split
    · next tail heq => exact absurd heq (by rcases hquote with rfl | rfl <;> simp_all)
    · next tail heq => exact absurd heq (by rcases hquote with rfl | rfl <;> simp_all)
    · rfl

end VideoSync.Toml
