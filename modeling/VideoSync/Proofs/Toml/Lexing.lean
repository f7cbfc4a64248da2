import VideoSync.Proofs.Toml.Rendering
import VideoSync.Proofs.Toml.Values

/-
  Cutting what is written. A statement is `Spelled` when all its texts are of the kind that belongs
  in their places: blanks, gaps, keys and values that write what they stand for. Statements that are
  read are spelled, and spelled statements that are written one after the other are cut again at the
  same places: `statements?_textOf`. What is read again keeps names and values, and the text before
  a key is the old one without its carriage returns.
-/

namespace VideoSync.Toml

open Document (keyText)

/-! ## Spelled statements -/

/-- A gap that may stand before anything: its comments end with their lines. -/
def ClosedGap (g : List Char) : Prop := ∀ next, Gap next g

/-- A text before a statement: without its carriage returns it is a gap, and these are in its line
breaks. -/
structure Leading (g : List Char) : Prop where
  gap : ClosedGap (clean g)
  returns : '\r' ∈ g → '\n' ∈ g

/-- A key that may stand in a header or lead to another key. -/
structure Key.Within (k : Key) : Prop where
  spelled : k.Spelled
  before : Blanks k.before.toList

/-- The texts of a line in their places. -/
structure Line.Spelled (l : Line) : Prop where
  path : ∀ k ∈ l.path, k.Within
  key : l.key.Spelled
  leading : Leading l.key.before.toList
  before : Blanks l.before.toList
  written : Writes l.value l.written.toList
  after : LineEnd l.after.toList

namespace Statement

/-- The texts of a statement in their places. -/
def Spelled : Statement → Prop
  | header _ path key before after =>
    (∀ k ∈ path ++ [key], k.Within) ∧ Leading before.toList ∧ LineEnd after.toList
  | assign l => l.Spelled

/-- The same statement read another time. -/
inductive Again : Statement → Statement → Prop
  | header {element : Bool} {path path' : List Key} {key key' : Key}
      {before before' after after' : String}
      (names : (path' ++ [key']).map (·.name) = (path ++ [key]).map (·.name)) :
      Again (header element path key before after) (header element path' key' before' after')
  | assign {l l' : Line} (names : (l'.path ++ [l'.key]).map (·.name) =
        (l.path ++ [l.key]).map (·.name))
      (before : l'.key.before.toList = clean l.key.before.toList) (value : l'.value = l.value) :
      Again (assign l) (assign l')

end Statement

theorem Line.Spelled.keys {l : Line} (h : l.Spelled) : ∀ k ∈ l.path ++ [l.key], k.Spelled := by
  intro k hk
  rcases List.mem_append.mp hk with hk | hk
  · exact (h.path k hk).spelled
  · rw [List.mem_singleton.mp hk]
    exact h.key

/-! ## What is read is spelled -/

theorem blanks_empty : Blanks "".toList := by simp [Blanks]

theorem Arranged.within {leading before : String} {keys path : List Key} {key : Key}
    (h : Arranged leading before keys path key) : ∀ k ∈ path, k.Within := fun k hk =>
  ⟨h.spelled k (by simp [hk]), by rw [h.before_path k hk]; exact blanks_empty⟩

theorem Gap.append_blanks {next : Option Char} {g w : List Char} (h : Gap next g) (hw : Blanks w) :
    Gap next (g ++ w) := by
  induction h with
  | nil => exact .of_blanks hw
  | blank hc _ ih => exact .blank hc ih
  | newline _ ih => exact .newline ih
  | comment hall _ ih =>
    have := Gap.comment hall ih
    simpa using this
  | lastComment hall hnext =>
    refine .lastComment (fun c hc => ?_) hnext
    rcases List.mem_append.mp hc with hc | hc
    · exact hall c hc
    · exact isTextChar_of_isBlank (hw c hc)

theorem Leading.append_blanks {g w : List Char} (h : Leading g) (hw : Blanks w) :
    Leading (g ++ w) where
  gap next := by
    rw [clean_append, clean_eq_self hw.noReturn]
    exact (h.gap next).append_blanks hw
  returns hmem := by
    rcases List.mem_append.mp hmem with hmem | hmem
    · exact List.mem_append_left _ (h.returns hmem)
    · exact absurd hmem hw.noReturn

/-- What is skipped before a character of text is a gap that may stand before anything. -/
theorem leading_of_trivia {cs rest : List Char} {c : Char} (h : trivia cs = c :: rest)
    (hc : isTextChar c = true) : Leading (taken cs (trivia cs)).toList := by
  obtain ⟨g, hg, hgap, hreturns, -⟩ := Skips.of_trivia cs
  rw [taken_toList hg]
  rw [h] at hgap
  exact ⟨fun next => hgap.of_text hc next, hreturns⟩

namespace Statement

/-- A header in one chain: the key, the closing brackets and the end of the line. -/
theorem header?_eq (element : Bool) (leading : String) (cs : List Char) :
    header? element leading cs =
      (dottedKey? "" cs).bind fun ((path, key), cs) => (expect? ']' cs).bind fun cs =>
        (if element then expect? ']' cs else some cs).bind fun cs =>
          (lineEnd? cs).map fun (after, cs) => (header element path key leading after, cs) := by
  cases element <;> simp [header?, map_eq_bind_some]

theorem header?_spelled {element : Bool} {leading : String} {cs rest : List Char} {s : Statement}
    (hleading : Leading leading.toList)
    (h : header? element leading cs = some (s, rest)) : s.Spelled := by
  rw [header?_eq] at h
  obtain ⟨⟨⟨path, key⟩, tail⟩, hkeys, h⟩ := Option.bind_eq_some_iff.mp h
  obtain ⟨_, -, h⟩ := Option.bind_eq_some_iff.mp h
  obtain ⟨_, -, h⟩ := Option.bind_eq_some_iff.mp h
  obtain ⟨⟨after, _⟩, hafter, heq⟩ := Option.map_eq_some_iff.mp h
  cases heq
  obtain ⟨before, w, -, htaken⟩ := dottedKey?_local hkeys
  refine ⟨fun k hk => ?_, hleading, lineEnd?_local hafter⟩
  rcases List.mem_append.mp hk with hk | hk
  · exact htaken.arranged.within k hk
  · obtain rfl := List.mem_singleton.mp hk
    refine ⟨htaken.arranged.spelled k (by simp), ?_⟩
    rw [htaken.arranged.before_key]
    simpa using htaken.blanks

theorem assign?_spelled {leading : String} {cs rest : List Char} {s : Statement}
    (hleading : ∀ c, cs.head? = some c → isTextChar c = true → Leading leading.toList)
    (h : assign? leading cs = some (s, rest)) : s.Spelled := by
  rw [assign?] at h
  obtain ⟨⟨⟨path, key⟩, tail⟩, hkeys, h⟩ := Option.bind_eq_some_iff.mp h
  obtain ⟨tail', -, h⟩ := Option.bind_eq_some_iff.mp h
  obtain ⟨⟨v, tail''⟩, hv, h⟩ := Option.bind_eq_some_iff.mp h
  obtain ⟨⟨after, _⟩, hafter, h⟩ := Option.bind_eq_some_iff.mp h
  cases h
  obtain ⟨before, w, rfl, htaken⟩ := dottedKey?_local hkeys
  obtain ⟨blanks, hsplit, hblanks⟩ := exists_blanks tail'
  obtain ⟨w', hw', hfirst, hagain⟩ := value?_local deepest (isBlank_of_head_skipBlanks _) hv
  have hleading : Leading leading.toList := by
    obtain ⟨c, more, rfl, hc⟩ := htaken.first
    cases hbefore : before.toList with
    | nil => exact hleading c (by simp [hbefore]) (isTextChar_of_startsKey hc)
    | cons b _ =>
      exact hleading b (by simp [hbefore])
        (isTextChar_of_isBlank (htaken.blanks b (by simp [hbefore])))
  refine ⟨htaken.arranged.within, htaken.arranged.spelled _ (by simp), ?_, ?_, ?_,
    lineEnd?_local hafter⟩
  · rw [htaken.arranged.before_key, String.toList_append]
    exact hleading.append_blanks htaken.blanks
  · dsimp only
    rw [taken_toList hsplit]
    exact hblanks
  · dsimp only
    rw [taken_toList hw']
    exact ⟨hfirst, hagain⟩

theorem read?_spelled {cs cs' rest : List Char} {s : Statement} (hcs : trivia cs = cs')
    (h : read? (taken cs cs') cs' = some (s, rest)) : s.Spelled := by
  subst hcs
  have hbracket {tail : List Char} (htail : trivia cs = '[' :: tail) :
      Leading (taken cs (trivia cs)).toList := leading_of_trivia htail (by decide)
  unfold read? at h
  split at h
  · next htail => exact header?_spelled (hbracket htail) h
  · next htail => exact header?_spelled (hbracket htail) h
  · refine assign?_spelled (fun c hc htext => ?_) h
    obtain ⟨tail, htail⟩ := List.head?_eq_some_iff.mp hc
    exact leading_of_trivia htail htext

end Statement

/-- Statements that are read are spelled, and a gap comes after them. -/
theorem statementsFrom_spelled {fuel : Nat} {cs : List Char} {ss : List Statement}
    {trailing : String} (h : statementsFrom fuel cs = some (ss, trailing)) :
    (∀ s ∈ ss, s.Spelled) ∧ Gap none (clean trailing.toList) := by
  induction fuel generalizing cs ss with
  | zero => contradiction
  | succ fuel ih =>
    rw [statementsFrom] at h
    dsimp only at h
    split at h
    · next hend =>
      cases h
      obtain ⟨g, hg, hgap, -⟩ := Skips.of_trivia cs
      rw [taken_toList hg]
      rw [hend] at hgap
      exact ⟨by simp, hgap⟩
    · obtain ⟨⟨s, rest⟩, hs, h⟩ := Option.bind_eq_some_iff.mp h
      obtain ⟨⟨more, trailing⟩, hmore, heq⟩ := Option.bind_eq_some_iff.mp h
      cases heq
      obtain ⟨hall, hgap⟩ := ih hmore
      exact ⟨List.forall_mem_cons.mpr ⟨Statement.read?_spelled rfl hs, hall⟩, hgap⟩

/-! ## What is spelled is read again -/

theorem toList_keyText {path : List Key} {key : Key} :
    (keyText (path ++ [key])).toList =
      key.before.toList ++ ((keyText.between (path ++ [key])).toList ++ key.after.toList) := by
  rw [keyText, List.getLast?_concat]
  simp

namespace Statement

/-- The end of a line before the line break. -/
theorem lineEnd?_again {after : String} (h : LineEnd after.toList) (rest : List Char) :
    lineEnd? (after.toList ++ '\n' :: rest) = some (after, rest) := by
  rw [h.read, String.ofList_toList]

/-- A key that may be dotted, and what it was read with. -/
theorem dottedKey?_again (leading : String) {path : List Key} {key : Key}
    (hkeys : ∀ k ∈ path ++ [key], k.Spelled) {before : String} (hbefore : Blanks before.toList)
    {rest : List Char} (hrest : EndsKeys rest) :
    ∃ path' key', (path' ++ [key']).map (·.name) = (path ++ [key]).map (·.name) ∧
      key'.before = leading ++ before ∧
      dottedKey? leading (before.toList ++ ((keyText.between (path ++ [key])).toList ++
        (key.after.toList ++ rest))) = some ((path', key'), rest) := by
  obtain ⟨path', key', -, harranged, hread⟩ := dottedKey?_chain leading (by simp)
    hkeys hbefore (hkeys key (by simp)).after hrest
  exact ⟨path', key', harranged.names, harranged.before_key, hread⟩

/-- The keys of a header after its opening brackets, and the rest of it. -/
theorem header?_again {element : Bool} {path : List Key} {key : Key} {before after : String}
    (h : (header element path key before after).Spelled) (leading : String) (rest : List Char) :
    ∃ path' key', (path' ++ [key']).map (·.name) = (path ++ [key]).map (·.name) ∧
      header? element leading ((keyText (path ++ [key])).toList ++
          ((if element then "]]" else "]").toList ++ (after.toList ++ '\n' :: rest))) =
        some (header element path' key' leading after, rest) := by
  obtain ⟨hwithin, -, hafter⟩ := h
  have hkeys : ∀ k ∈ path ++ [key], k.Spelled := fun k hk => (hwithin k hk).spelled
  have hbefore := (hwithin key (by simp)).before
  have hends (more : List Char) : EndsKeys (']' :: more) := endsKeys_of_ne (by decide) more
  cases element with
  | false =>
    obtain ⟨path', key', hnames, -, hread⟩ := dottedKey?_again "" hkeys hbefore
      (hends (after.toList ++ '\n' :: rest))
    refine ⟨path', key', hnames, ?_⟩
    rw [header?_eq, toList_keyText, List.append_assoc, List.append_assoc]
    change (dottedKey? "" (_ ++ (_ ++ (_ ++ ']' :: (after.toList ++ '\n' :: rest))))).bind _ = _
    rw [hread]
    simp only [Option.bind_some, expect?_cons, Bool.false_eq_true, if_false,
      lineEnd?_again hafter, Option.map_some]
  | true =>
    obtain ⟨path', key', hnames, -, hread⟩ := dottedKey?_again "" hkeys hbefore
      (hends (']' :: (after.toList ++ '\n' :: rest)))
    refine ⟨path', key', hnames, ?_⟩
    rw [header?_eq, toList_keyText, List.append_assoc, List.append_assoc]
    change (dottedKey? "" (_ ++ (_ ++ (_ ++ ']' :: (']' :: (after.toList ++ '\n' :: rest)))))).bind
      _ = _
    rw [hread]
    simp only [Option.bind_some, expect?_cons, if_true, lineEnd?_again hafter, Option.map_some]

theorem assign?_again {l : Line} (h : l.Spelled) (rest : List Char) :
    ∃ s', Again (assign l) s' ∧
      assign? (String.ofList (clean l.key.before.toList))
          ((keyText.between (l.path ++ [l.key])).toList ++ (l.key.after.toList ++
            '=' :: (l.before.toList ++ (clean l.written.toList ++
              (l.after.toList ++ '\n' :: rest))))) =
        some (s', rest) := by
  obtain ⟨c, more, hcons, hc⟩ := h.written.first
  have hblank : ∀ d, (clean l.written.toList ++ (l.after.toList ++ '\n' :: rest)).head? = some d →
      isBlank d = false := by
    rw [clean_cons_append hcons (ne_return_of_not_endsWord hc)]
    rintro d ⟨⟩
    exact isBlank_of_not_startsGap (startsGap_of_not_endsWord hc)
  obtain ⟨path', key', hnames, hbefore, hread⟩ := dottedKey?_again
    (String.ofList (clean l.key.before.toList)) h.keys blanks_empty
    (endsKeys_of_ne (c := '=') (by decide)
      (l.before.toList ++ (clean l.written.toList ++ (l.after.toList ++ '\n' :: rest))))
  rw [String.toList_empty, List.nil_append] at hread
  obtain ⟨before', written', hassign⟩ : ∃ before' written',
      assign? (String.ofList (clean l.key.before.toList))
          ((keyText.between (l.path ++ [l.key])).toList ++ (l.key.after.toList ++
            '=' :: (l.before.toList ++ (clean l.written.toList ++
              (l.after.toList ++ '\n' :: rest))))) =
        some (assign ⟨path', key', before', written', l.after, l.value⟩, rest) := by
    rw [assign?, hread]
    simp only [Option.bind_eq_bind, Option.bind_some, expect?_cons,
      skipBlanks_append h.before hblank, h.written.read (h.after.endsValue rest),
      lineEnd?_again h.after, Option.pure_def]
    exact ⟨_, _, rfl⟩
  refine ⟨assign ⟨path', key', before', written', l.after, l.value⟩, .assign hnames ?_ rfl, hassign⟩
  rw [hbefore]
  simp

theorem read?_bracket {leading : String} {cs : List Char} (h : cs.head? ≠ some '[') :
    read? leading ('[' :: cs) = header? false leading cs := by
  rw [read?]
  rintro tail rfl
  exact h rfl

theorem read?_key {leading : String} {cs : List Char} (h : cs.head? ≠ some '[') :
    read? leading cs = assign? leading cs := by
  unfold read?
  split
  · exact absurd rfl h
  · exact absurd rfl h
  · rfl

theorem head_keyText {path : List Key} {key : Key} (hkeys : ∀ k ∈ path ++ [key], k.Spelled)
    (hbefore : Blanks key.before.toList) (rest : List Char) :
    ((keyText (path ++ [key])).toList ++ rest).head? ≠ some '[' := by
  obtain ⟨c, more, hcons, hc⟩ := between_first (by simp) hkeys
  rw [toList_keyText, hcons]
  cases hblanks : key.before.toList with
  | nil => simpa using ne_of_startsKey hc (by decide)
  | cons b blanks =>
    have hb := hbefore b (by simp [hblanks])
    rintro ⟨⟩
    exact absurd hb (by decide)

theorem keyText_noReturn {path : List Key} {key : Key} (hkeys : ∀ k ∈ path ++ [key], k.Spelled)
    (hbefore : Blanks key.before.toList) : '\r' ∉ (keyText (path ++ [key])).toList := by
  rw [toList_keyText]
  simpa using ⟨hbefore.noReturn, between_noReturn hkeys, (hkeys key (by simp)).after.noReturn⟩

/-- A gap before a statement is cut off. -/
theorem taken_gap {g : List Char} (hgap : ClosedGap g) {c : Char} (hc : startsGap c = false)
    (rest : List Char) :
    trivia (g ++ c :: rest) = c :: rest ∧
      taken (g ++ c :: rest) (trivia (g ++ c :: rest)) = String.ofList g := by
  have h : trivia (g ++ c :: rest) = c :: rest := (hgap (some c)).trivia_cons hc rest
  exact ⟨h, by rw [h, taken_append]⟩

/-- A statement that is written is read again, whatever follows it. -/
theorem read?_text {s : Statement} (h : s.Spelled) (rest : List Char) :
    ∃ s' leading c cs, Again s s' ∧ trivia (clean s.text.toList ++ rest) = c :: cs ∧
      taken (clean s.text.toList ++ rest) (c :: cs) = leading ∧
      read? leading (c :: cs) = some (s', rest) := by
  cases s with
  | header element path key before after =>
    obtain ⟨path', key', hnames, hread⟩ :=
      header?_again h (String.ofList (clean before.toList)) rest
    obtain ⟨hwithin, hleading, hafter⟩ := h
    have hkeys : ∀ k ∈ path ++ [key], k.Spelled := fun k hk => (hwithin k hk).spelled
    have hbefore := (hwithin key (by simp)).before
    have hkey := clean_eq_self (keyText_noReturn hkeys hbefore)
    have hend := clean_eq_self hafter.noReturn
    replace hleading := hleading.gap
    cases element with
    | false =>
      have htext : clean (text (header false path key before after)).toList ++ rest =
          clean before.toList ++ '[' :: ((keyText (path ++ [key])).toList ++
            ("]".toList ++ (after.toList ++ '\n' :: rest))) := by
        simp [text, hkey, hend, clean_cons_of_ne]
      obtain ⟨htrivia, htaken⟩ := taken_gap hleading (c := '[') (by decide)
        ((keyText (path ++ [key])).toList ++ ("]".toList ++ (after.toList ++ '\n' :: rest)))
      rw [← htext] at htrivia htaken
      rw [htrivia] at htaken
      refine ⟨header false path' key' (String.ofList (clean before.toList)) after, _, _, _,
        .header hnames, htrivia, htaken, ?_⟩
      rw [read?_bracket (head_keyText hkeys hbefore _)]
      exact hread
    | true =>
      have htext : clean (text (header true path key before after)).toList ++ rest =
          clean before.toList ++ '[' :: ('[' :: ((keyText (path ++ [key])).toList ++
            ("]]".toList ++ (after.toList ++ '\n' :: rest)))) := by
        simp [text, hkey, hend, clean_cons_of_ne]
      obtain ⟨htrivia, htaken⟩ := taken_gap hleading (c := '[') (by decide)
        ('[' :: ((keyText (path ++ [key])).toList ++
          ("]]".toList ++ (after.toList ++ '\n' :: rest))))
      rw [← htext] at htrivia htaken
      rw [htrivia] at htaken
      exact ⟨_, _, _, _, .header hnames, htrivia, htaken, hread⟩
  | assign l =>
    obtain ⟨s', hagain, hread⟩ := assign?_again h rest
    obtain ⟨c, more, hcons, hc⟩ := between_first (by simp) h.keys
    have htext : clean (text (assign l)).toList ++ rest =
        clean l.key.before.toList ++ ((keyText.between (l.path ++ [l.key])).toList ++
          (l.key.after.toList ++ '=' :: (l.before.toList ++ (clean l.written.toList ++
              (l.after.toList ++ '\n' :: rest))))) := by
      have hafter := h.key.after.noReturn
      simp [text, Line.text, toList_keyText, clean_eq_self (between_noReturn h.keys),
        clean_eq_self hafter, clean_eq_self h.before.noReturn, clean_eq_self h.after.noReturn,
        clean_cons_of_ne]
    rw [hcons, List.cons_append] at htext hread
    obtain ⟨htrivia, htaken⟩ := taken_gap h.leading.gap (startsGap_of_startsKey hc)
      (more ++ (l.key.after.toList ++ '=' :: (l.before.toList ++ (clean l.written.toList ++
        (l.after.toList ++ '\n' :: rest)))))
    rw [← htext] at htrivia htaken
    rw [htrivia] at htaken
    refine ⟨s', _, _, _, hagain, htrivia, htaken, ?_⟩
    rw [read?_key]
    · exact hread
    · simpa using ne_of_startsKey hc (by decide)

end Statement

theorem length_text (s : Statement) : 0 < (clean s.text.toList).length := by
  have hmem : '\n' ∈ clean s.text.toList := by
    cases s <;> simp [Statement.text, Line.text, clean]
  exact List.length_pos_of_mem hmem

/-- Statements that are written are cut again. -/
theorem statementsFrom_textOf {ss : List Statement} (h : ∀ s ∈ ss, s.Spelled) (trailing : List Char)
    (htrailing : Gap none trailing) {fuel : Nat}
    (hfuel : (clean (textOf ss).toList ++ trailing).length < fuel) :
    ∃ ss', List.Forall₂ Statement.Again ss ss' ∧
      statementsFrom fuel (clean (textOf ss).toList ++ trailing) =
        some (ss', String.ofList trailing) := by
  induction ss generalizing fuel with
  | nil =>
    obtain ⟨fuel, rfl⟩ : ∃ n, fuel = n + 1 := ⟨fuel - 1, by omega⟩
    have hend : trivia trailing = [] := by
      have h : trivia (trailing ++ []) = [] := htrailing.trivia_append rfl (by simp)
      rwa [List.append_nil] at h
    have htaken : taken trailing [] = String.ofList trailing := by
      simpa using taken_append trailing []
    refine ⟨[], .nil, ?_⟩
    rw [textOf, String.toList_empty, clean_nil, List.nil_append, statementsFrom]
    simp only [hend, htaken, if_true]
  | cons s ss ih =>
    obtain ⟨fuel, rfl⟩ : ∃ n, fuel = n + 1 := ⟨fuel - 1, by omega⟩
    obtain ⟨hs, hss⟩ := List.forall_mem_cons.mp h
    have hlength := length_text s
    rw [textOf, String.toList_append, clean_append, List.append_assoc] at hfuel ⊢
    have hfuel_rest : (clean (textOf ss).toList ++ trailing).length < fuel := by
      rw [List.length_append] at hfuel
      omega
    obtain ⟨ss', hagain, hmore⟩ := ih hss hfuel_rest
    obtain ⟨s', leading, c, cs, hs', htrivia, htaken, hread⟩ :=
      Statement.read?_text hs (clean (textOf ss).toList ++ trailing)
    refine ⟨s' :: ss', .cons hs' hagain, ?_⟩
    rw [statementsFrom]
    simp only [htrivia, htaken, hread, hmore, List.cons_ne_nil, if_false, Option.bind_eq_bind,
      Option.bind_some, Option.pure_def]

/-! ## Whole texts -/

/-- No statement starts with the mark that tells the byte order. -/
theorem statementsFrom_mark (fuel : Nat) (cs : List Char) :
    statementsFrom fuel ('\uFEFF' :: cs) = none := by
  cases fuel with
  | zero => rfl
  | succ fuel =>
    have htrivia : trivia ('\uFEFF' :: cs) = '\uFEFF' :: cs :=
      trivia_of_solid (by rintro c ⟨⟩; decide)
    have hkeys (fuel : Nat) : keys? fuel ('\uFEFF' :: cs) = none := by
      cases fuel with
      | zero => rfl
      | succ fuel =>
        have hskip : skipBlanks ('\uFEFF' :: cs) = '\uFEFF' :: cs :=
          List.dropWhile_cons_of_neg (by decide)
        have hname : name? ('\uFEFF' :: cs) = none := by
          rw [name?, List.takeWhile_cons_of_neg (by decide)]
          · rfl
          · rintro tail ⟨⟩
          · rintro tail ⟨⟩
        rw [keys?, hskip, hname]
        rfl
    rw [statementsFrom]
    simp only [htrivia, List.cons_ne_nil, if_false]
    rw [Statement.read?_key (by simp), Statement.assign?, dottedKey?, hkeys]
    rfl

theorem withoutMark_eq {cs : List Char} (h : cs.head? ≠ some '\uFEFF') :
    Document.withoutMark cs = cs := by
  unfold Document.withoutMark
  split
  · exact absurd rfl h
  · rfl

theorem statements?_spelled {text : String} {ss : List Statement} {trailing : String}
    (h : statements? text = some (ss, trailing)) :
    (∀ s ∈ ss, s.Spelled) ∧ Gap none (clean trailing.toList) :=
  statementsFrom_spelled h

/-- Spelled statements with a gap after them are read again from what is written. -/
theorem statements?_textOf {ss : List Statement} (h : ∀ s ∈ ss, s.Spelled) (trailing : String)
    (htrailing : Gap none (clean trailing.toList)) :
    ∃ ss', List.Forall₂ Statement.Again ss ss' ∧
      statements? (String.ofList (clean (textOf ss ++ trailing).toList)) =
        some (ss', String.ofList (clean trailing.toList)) := by
  rw [statements?, String.toList_ofList, String.toList_append, clean_append]
  obtain ⟨ss', hagain, hread⟩ := statementsFrom_textOf h _ htrailing (Nat.lt_succ_self _)
  refine ⟨ss', hagain, ?_⟩
  have hhead : (clean (textOf ss).toList ++ clean trailing.toList).head? ≠ some '\uFEFF' := by
    intro hmark
    obtain ⟨tail, htail⟩ := List.head?_eq_some_iff.mp hmark
    rw [htail, statementsFrom_mark] at hread
    contradiction
  rw [withoutMark_eq hhead]
  exact hread

end VideoSync.Toml
