import VideoSync.Proofs.Toml.Keys

/-
  Values depend on nothing that follows them. `Writes v w` says that `w`, without its carriage
  returns, is read as the value `v` before anything that ends a value, and by `value?_local` what is
  taken for a value writes it. A value in a collection is followed by a gap and a comma or a
  bracket, and these end a value wherever they stand.
-/

namespace VideoSync.Toml

/-! ## What follows a value -/

/-- What ends a value. A blank before a digit could go on with a time of day. -/
structure EndsValue (rest : List Char) : Prop where
  ends : ∀ c, rest.head? = some c → endsWord c = true
  noTime : ∀ c more, rest = ' ' :: c :: more → c.isDigit = false

theorem endsWord_cases {c : Char} (h : endsWord c = true) :
    c = ' ' ∨ c = '\t' ∨ c = '\r' ∨ c = '\n' ∨ c = '#' ∨ c = ',' ∨ c = ']' ∨ c = '\x7d' := by
  simpa [endsWord] using h

theorem isDigit_of_endsWord {c : Char} (h : endsWord c = true) : c.isDigit = false := by
  rcases endsWord_cases h with rfl | rfl | rfl | rfl | rfl | rfl | rfl | rfl <;> rfl

theorem endsWord_of_startsGap {c : Char} (h : startsGap c = true) : endsWord c = true := by
  rcases (by simpa [startsGap, isBlank, or_assoc] using h :
    c = ' ' ∨ c = '\t' ∨ c = '#' ∨ c = '\n' ∨ c = '\r') with rfl | rfl | rfl | rfl | rfl <;> decide

theorem startsGap_of_not_endsWord {c : Char} (h : endsWord c = false) : startsGap c = false := by
  rw [← Bool.not_eq_true] at h ⊢
  exact mt endsWord_of_startsGap h

theorem ne_return_of_not_endsWord {c : Char} (h : endsWord c = false) : c ≠ '\r' := by
  rintro rfl
  simp [endsWord] at h

theorem isBlank_of_not_startsGap {c : Char} (h : startsGap c = false) : isBlank c = false := by
  simp only [startsGap, Bool.or_eq_false_iff] at h
  exact h.1.1.1

namespace EndsValue

theorem nil : EndsValue [] := ⟨by simp, by simp⟩

theorem cons_of_ne {c : Char} (hc : endsWord c = true) (hblank : c ≠ ' ') (rest : List Char) :
    EndsValue (c :: rest) where
  ends := by
    rintro d ⟨⟩
    exact hc
  noTime d more h := absurd (List.cons.inj h).1 hblank

theorem blank {rest : List Char} (h : EndsValue rest) : EndsValue (' ' :: rest) where
  ends := by
    rintro d ⟨⟩
    decide
  noTime c more hcons := by
    obtain ⟨-, rfl⟩ := List.cons.inj hcons
    exact isDigit_of_endsWord (h.ends c rfl)

theorem blanks_append {w rest : List Char} (hw : Blanks w) (h : EndsValue rest) :
    EndsValue (w ++ rest) := by
  induction w with
  | nil => exact h
  | cons c w ih =>
    obtain ⟨hc, hw⟩ : isBlank c = true ∧ Blanks w := List.forall_mem_cons.mp hw
    have htail := ih hw
    rcases (by simpa [isBlank] using hc : c = ' ' ∨ c = '\t') with rfl | rfl
    · exact htail.blank
    · exact .cons_of_ne (by decide) (by decide) _

end EndsValue

/-- A gap before what ends a value ends it too. -/
theorem Gap.endsValue {next : Option Char} {g rest : List Char} (h : Gap next g)
    (hrest : EndsValue rest) : EndsValue (g ++ rest) := by
  induction h with
  | nil => exact hrest
  | blank hc _ ih => exact .blanks_append (w := [_]) (by simpa [Blanks] using hc) ih
  | newline => exact .cons_of_ne (by decide) (by decide) _
  | comment => exact .cons_of_ne (by decide) (by decide) _
  | lastComment => exact .cons_of_ne (by decide) (by decide) _

/-! ## Words -/

theorem scalar?_nil : scalar? [] = none := by decide +kernel

section Words

variable {word time rest : List Char}

/-- What ends a word where no time of day goes on. -/
theorem word?_plain (hword : ∀ c ∈ word, endsWord c = false)
    (hrest : ∀ c, rest.head? = some c → endsWord c = true)
    (htime : date? word = some [] → ∀ c more, rest = ' ' :: c :: more → c.isDigit = false) :
    word? (word ++ rest) = (scalar? word).map (·, rest) := by
  have htake : (word ++ rest).takeWhile (fun c => !endsWord c) = word :=
    takeWhile_append (fun c hc => by simp [hword c hc]) fun c hc => by simp [hrest c hc]
  have hdrop : (word ++ rest).dropWhile (fun c => !endsWord c) = rest :=
    dropWhile_append (fun c hc => by simp [hword c hc]) fun c hc => by simp [hrest c hc]
  rw [word?]
  simp only [htake, hdrop]
  split
  · next c more hdate => rw [if_neg (by simp [htime hdate c more rfl])]
  · rfl

/-- A time of day after a date. -/
theorem word?_timed {c : Char} (hword : ∀ c ∈ word, endsWord c = false)
    (hdate : date? word = some []) (hdigit : c.isDigit = true)
    (htime : ∀ d ∈ c :: time, endsWord d = false)
    (hrest : ∀ c, rest.head? = some c → endsWord c = true) :
    word? (word ++ ' ' :: c :: (time ++ rest)) =
      (scalar? (word ++ ' ' :: c :: time)).map (·, rest) := by
  have hblank : ∀ d, (' ' :: c :: (time ++ rest)).head? = some d → (!endsWord d) = false := by
    rintro d ⟨⟩
    decide
  have htake : (word ++ ' ' :: c :: (time ++ rest)).takeWhile (fun c => !endsWord c) = word :=
    takeWhile_append (fun c hc => by simp [hword c hc]) hblank
  have hdrop : (word ++ ' ' :: c :: (time ++ rest)).dropWhile (fun c => !endsWord c) =
      ' ' :: c :: (time ++ rest) := dropWhile_append (fun c hc => by simp [hword c hc]) hblank
  have htake' : (c :: (time ++ rest)).takeWhile (fun c => !endsWord c) = c :: time :=
    takeWhile_append (w := c :: time) (fun c hc => by simp [htime c hc])
      fun c hc => by simp [hrest c hc]
  have hdrop' : (c :: (time ++ rest)).dropWhile (fun c => !endsWord c) = rest :=
    dropWhile_append (w := c :: time) (fun c hc => by simp [htime c hc])
      fun c hc => by simp [hrest c hc]
  rw [word?]
  simp only [htake, hdrop, hdate, htake', hdrop', if_pos hdigit]

end Words

/-- The text up to what ends a word. -/
theorem exists_word (cs : List Char) : ∃ word rest, cs = word ++ rest ∧
    (∀ c ∈ word, endsWord c = false) ∧ ∀ c, rest.head? = some c → endsWord c = true := by
  obtain ⟨word, hsplit, hword⟩ := exists_append_dropWhile (fun c => !endsWord c) cs
  exact ⟨word, _, hsplit, fun c hc => by simpa using hword c hc,
    fun c hc => by simpa using head_dropWhile hc⟩

theorem word?_local {cs rest : List Char} {v : Value} (h : word? cs = some (v, rest)) :
    ∃ w, cs = w ++ rest ∧ '\r' ∉ w ∧ (∃ c more, w = c :: more ∧ endsWord c = false) ∧
      ∀ {rest'}, EndsValue rest' → word? (w ++ rest') = some (v, rest') := by
  have hfirst {word : List Char} (hword : ∀ c ∈ word, endsWord c = false) (hne : word ≠ []) :
      ∃ c more, word = c :: more ∧ endsWord c = false := by
    obtain ⟨c, more, rfl⟩ := List.exists_cons_of_ne_nil hne
    exact ⟨c, more, rfl, hword c (by simp)⟩
  have hreturn {word : List Char} (hword : ∀ c ∈ word, endsWord c = false) : '\r' ∉ word :=
    fun hmem => ne_return_of_not_endsWord (hword _ hmem) rfl
  obtain ⟨word, tail, rfl, hword, htail⟩ := exists_word cs
  by_cases htimed : date? word = some [] ∧ ∃ c more, tail = ' ' :: c :: more ∧ c.isDigit = true
  · obtain ⟨hdate, c, more, rfl, hdigit⟩ := htimed
    obtain ⟨time, tail, hmore, htime, hend⟩ := exists_word (c :: more)
    obtain ⟨d, time, rfl⟩ : ∃ d more, time = d :: more := by
      refine List.exists_cons_of_ne_nil fun hnil => ?_
      rw [hnil, List.nil_append] at hmore
      simp [isDigit_of_endsWord (hend c (by rw [← hmore]; rfl))] at hdigit
    obtain ⟨rfl, rfl⟩ : c = d ∧ more = time ++ tail := List.cons.inj hmore
    rw [word?_timed hword hdate hdigit htime hend] at h
    obtain ⟨v, hv, heq⟩ := Option.map_eq_some_iff.mp h
    cases heq
    have hne : word ≠ [] := by
      rintro rfl
      exact absurd hdate (by decide)
    obtain ⟨first, more, hcons, hsolid⟩ := hfirst hword hne
    refine ⟨word ++ ' ' :: c :: time, by simp, ?_,
      ⟨first, more ++ ' ' :: c :: time, by rw [hcons, List.cons_append], hsolid⟩,
      fun {rest'} hrest' => ?_⟩
    · simpa [hreturn hword] using hreturn htime
    · have := word?_timed hword hdate hdigit htime hrest'.ends
      rw [hv] at this
      simpa using this
  · have hplain : date? word = some [] → ∀ c more, tail = ' ' :: c :: more → c.isDigit = false :=
      fun hdate c more htail => by simpa using fun hdigit => htimed ⟨hdate, c, more, htail, hdigit⟩
    rw [word?_plain hword htail hplain] at h
    obtain ⟨v, hv, heq⟩ := Option.map_eq_some_iff.mp h
    cases heq
    have hne : word ≠ [] := by
      rintro rfl
      rw [scalar?_nil] at hv
      cases hv
    refine ⟨word, rfl, hreturn hword, hfirst hword hne, fun {rest'} hrest' => ?_⟩
    rw [word?_plain hword hrest'.ends fun _ => hrest'.noTime, hv]
    rfl

/-! ## Collections

Arrays and tables in braces are read in the same way: elements with commas between them, a gap
before each element and before each comma, and a bracket after the last of them. -/

/-- Whatever a reader takes, it takes again from its text without carriage returns, before anything
that ends a value. What it takes starts with no blank. -/
def Local {α : Type} (read? : Reader α) : Prop :=
  ∀ {cs a rest}, (∀ c, cs.head? = some c → isBlank c = false) → read? cs = some (a, rest) →
    ∃ w, cs = w ++ rest ∧ (∃ c more, w = c :: more ∧ endsWord c = false) ∧
      ∀ {rest'}, EndsValue rest' → read? (clean w ++ rest') = some (a, rest')

/-- Elements with commas between them up to a bracket, each added to those before it. -/
def collect {α β : Type} (element? : Reader α) (close : Char) (add : α → β → Option β) :
    (fuel : Nat) → (read : β) → Reader β
  | 0, _, _ => none
  | fuel + 1, read, cs =>
    if (trivia cs).head? = some close then some (read, (trivia cs).tail)
    else (element? (trivia cs)).bind fun (a, cs) => (add a read).bind fun read =>
      if (trivia cs).head? = some ',' then collect element? close add fuel read (trivia cs).tail
      else if (trivia cs).head? = some close then some (read, (trivia cs).tail) else none

/-- A key with its value in a table in braces. -/
def binding? (value? : Reader Value) : Reader (List Key × Key × Value) := fun cs => do
  let ((path, key), cs) ← dottedKey? "" cs
  let cs ← expect? '=' cs
  let (v, cs) ← value? (skipBlanks cs)
  return ((path, key, v), cs)

section Collections

variable {value? : Reader Value} {fuel : Nat} {cs rest : List Char}

theorem head?_ne_of_forall {c : Char} (h : ∀ rest, cs = c :: rest → False) : cs.head? ≠ some c :=
  fun hc => by
    obtain ⟨rest, hrest⟩ := List.head?_eq_some_iff.mp hc
    exact h rest hrest

/-- An array is a collection of values. -/
theorem itemsWith_eq (value? : Reader Value) (fuel : Nat) (read : List Value) (cs : List Char) :
    itemsWith value? fuel read cs =
      (collect value? ']' (fun v read => some (v :: read)) fuel read cs).map fun (read, rest) =>
        (.array read.reverse, rest) := by
  induction fuel generalizing read cs with
  | zero => rfl
  | succ fuel ih =>
    rw [itemsWith, collect]
    split
    · next rest hrest => rw [hrest, List.head?_cons, if_pos rfl]; rfl
    · next hclose =>
      rw [if_neg (head?_ne_of_forall hclose)]
      cases value? (trivia cs) with
      | none => rfl
      | some result =>
        obtain ⟨v, cs⟩ := result
        simp only [Option.bind_eq_bind, Option.bind_some]
        split
        · next rest hrest => rw [hrest, List.head?_cons, if_pos rfl]; exact ih ..
        · next rest hrest =>
          rw [hrest, List.head?_cons, if_neg (by decide), if_pos rfl]; rfl
        · next hcomma hclose =>
          rw [if_neg (head?_ne_of_forall hcomma), if_neg (head?_ne_of_forall hclose)]
          rfl

/-- A table in braces is a collection of keys with their values. -/
theorem entriesWith_eq (value? : Reader Value) (fuel : Nat) (read : Entries) (cs : List Char) :
    entriesWith value? fuel read cs =
      (collect (binding? value?) '\x7d' (fun (path, key, v) =>
        Entries.addDotted key (.value "" "" "" v) none path) fuel read cs).map fun (read, rest) =>
          (.table (Item.entriesToValues read), rest) := by
  induction fuel generalizing read cs with
  | zero => rfl
  | succ fuel ih =>
    rw [entriesWith, collect]
    split
    · next rest hrest => rw [hrest, List.head?_cons, if_pos rfl]; rfl
    · next hclose =>
      rw [if_neg (head?_ne_of_forall hclose), binding?]
      rcases dottedKey? "" (trivia cs) with _ | ⟨⟨path, key⟩, cs⟩
      · rfl
      simp only [Option.bind_eq_bind, Option.bind_some]
      rcases expect? '=' cs with _ | cs
      · rfl
      simp only [Option.bind_some]
      rcases value? (skipBlanks cs) with _ | ⟨v, cs⟩
      · rfl
      simp only [Option.pure_def, Option.bind_some]
      rcases Entries.addDotted key (.value "" "" "" v) none path read with _ | read
      · rfl
      simp only [Option.bind_some]
      split
      · next rest hrest => rw [hrest, List.head?_cons, if_pos rfl]; exact ih ..
      · next rest hrest =>
        rw [hrest, List.head?_cons, if_neg (by decide), if_pos rfl]; rfl
      · next hcomma hclose =>
        rw [if_neg (head?_ne_of_forall hcomma), if_neg (head?_ne_of_forall hclose)]
        rfl

theorem clean_cons_append {w : List Char} {c : Char} {more : List Char} (h : w = c :: more)
    (hc : c ≠ '\r') (rest : List Char) : clean w ++ rest = c :: (clean more ++ rest) := by
  rw [h, clean_cons_of_ne hc, List.cons_append]

theorem isBlank_of_head_trivia (cs : List Char) :
    ∀ c, (trivia cs).head? = some c → isBlank c = false := by
  obtain ⟨-, -, -, -, hsolid⟩ := Skips.of_trivia cs
  intro c hc
  rcases hsolid c hc with rfl | h
  · decide
  · exact isBlank_of_not_startsGap h

theorem isBlank_of_head_skipBlanks (cs : List Char) :
    ∀ c, (skipBlanks cs).head? = some c → isBlank c = false := fun _ hc => head_dropWhile hc

section Collect

variable {α β : Type} {element? : Reader α} {close : Char} {add : α → β → Option β}

/-- A gap with the character after it. -/
theorem exists_gap_of_head {c : Char} (h : (trivia cs).head? = some c) (hc : c ≠ '\r') :
    startsGap c = false ∧ ∃ g, cs = g ++ c :: (trivia cs).tail ∧ Gap (some c) (clean g) := by
  obtain ⟨rest, hrest⟩ := List.head?_eq_some_iff.mp h
  rw [hrest]
  exact exists_gap_of_trivia hrest hc

/-- An element with the gap before it. The element is read again from its text without carriage
returns. -/
theorem Local.exists_element {a : α} {tail : List Char} (helement : Local element?)
    (ha : element? (trivia cs) = some (a, tail)) :
    ∃ g w c more, cs = g ++ (w ++ tail) ∧ (trivia cs).head? = some c ∧ endsWord c = false ∧
      clean w = c :: more ∧ Gap (some c) (clean g) ∧
      ∀ {rest'}, EndsValue rest' → element? (clean w ++ rest') = some (a, rest') := by
  obtain ⟨w, hw, ⟨c, more, hcons, hc⟩, hagain⟩ := helement (isBlank_of_head_trivia cs) ha
  have hreturn := ne_return_of_not_endsWord hc
  have hhead : (trivia cs).head? = some c := by rw [hw, hcons]; rfl
  obtain ⟨-, g, hg, hgap⟩ := exists_gap_of_head hhead hreturn
  have htail : c :: (trivia cs).tail = w ++ tail := by rw [hw, hcons]; rfl
  refine ⟨g, w, c, clean more, by rw [hg, htail], hhead, hc, ?_, hgap, hagain⟩
  rw [hcons, clean_cons_of_ne hreturn]

/-- After a gap the bracket ends a collection. -/
theorem collect_close {g : List Char} (hgap : Gap (some close) g) (hclose : startsGap close = false)
    (read : β) (rest : List Char) :
    collect element? close add (fuel + 1) read (g ++ close :: rest) = some (read, rest) := by
  rw [collect, hgap.trivia_cons hclose, if_pos (by simp)]
  rfl

/-- An element between gaps, with what ends it. -/
theorem collect_element {a : α} {read read' : β} {g w more g' : List Char} {c d : Char}
    (hgap : Gap (some c) g) (hw : w = c :: more) (hc : endsWord c = false) (hne : c ≠ close)
    (ha : ∀ {rest'}, EndsValue rest' → element? (w ++ rest') = some (a, rest'))
    (hadd : add a read = some read') (hgap' : Gap (some d) g') (hd : endsWord d = true)
    (hdsolid : startsGap d = false) (fuel : Nat) (rest : List Char) :
    collect element? close add (fuel + 1) read (g ++ (w ++ (g' ++ d :: rest))) =
      if d = ',' then collect element? close add fuel read' rest
      else if d = close then some (read', rest) else none := by
  have hdblank : d ≠ ' ' := by
    rintro rfl
    simp [startsGap, isBlank] at hdsolid
  have hfirst : trivia (g ++ (w ++ (g' ++ d :: rest))) = w ++ (g' ++ d :: rest) := by
    rw [hw]
    exact hgap.trivia_cons (startsGap_of_not_endsWord hc) _
  have hhead : (w ++ (g' ++ d :: rest)).head? ≠ some close := by
    rw [hw]
    simpa using hne
  rw [collect, hfirst, if_neg hhead, ha (hgap'.endsValue (.cons_of_ne hd hdblank _)),
    Option.bind_some]
  dsimp only
  rw [hadd, Option.bind_some, hgap'.trivia_cons hdsolid]
  simp

/-- A collection is read again, whatever follows its bracket. -/
theorem collect_local (helement : Local element?) (hclose : endsWord close = true)
    (hsolid : startsGap close = false) {read : β} {result : β}
    (h : collect element? close add fuel read cs = some (result, rest)) :
    ∃ w, cs = w ++ rest ∧ ∀ {rest' : List Char} {fuel' : Nat}, (clean w).length < fuel' →
      collect element? close add fuel' read (clean w ++ rest') = some (result, rest') := by
  have hreturn : close ≠ '\r' := by
    rintro rfl
    simp [startsGap] at hsolid
  have hbracket : clean [close] = [close] := clean_cons_of_ne hreturn []
  induction fuel generalizing read cs with
  | zero => contradiction
  | succ fuel ih =>
    rw [collect] at h
    split at h
    · next hhead =>
      cases h
      obtain ⟨-, g, hg, hgap⟩ := exists_gap_of_head hhead hreturn
      refine ⟨g ++ [close], by simpa using hg, fun {rest' fuel'} hfuel => ?_⟩
      obtain ⟨fuel', rfl⟩ : ∃ n, fuel' = n + 1 := ⟨fuel' - 1, by omega⟩
      simp only [clean_append, hbracket, List.append_assoc, List.singleton_append]
      exact collect_close hgap hsolid _ rest'
    next hopen =>
    obtain ⟨⟨a, tail⟩, ha, hmore⟩ := Option.bind_eq_some_iff.mp h
    obtain ⟨read', hread', hmore⟩ := Option.bind_eq_some_iff.mp hmore
    obtain ⟨g, w, c, more, rfl, hhead, hc, hw, hgap, hagain⟩ := helement.exists_element ha
    have hne : c ≠ close := fun heq => hopen (heq ▸ hhead)
    have hstep {g' : List Char} {d : Char} (hgap' : Gap (some d) g') (hd : endsWord d = true)
        (hdsolid : startsGap d = false) :=
      collect_element hgap hw hc hne hagain hread' hgap' hd hdsolid
    split at hmore
    · next hhead' =>
      obtain ⟨-, g', hg', hgap'⟩ := exists_gap_of_head hhead' (by decide)
      obtain ⟨w', hw', hlocal⟩ := ih hmore
      have hcomma : clean (',' :: w') = ',' :: clean w' := clean_cons_of_ne (by decide) _
      refine ⟨g ++ (w ++ (g' ++ ',' :: w')), ?_, fun {rest' fuel'} hfuel => ?_⟩
      · rw [hg', hw']
        simp
      · obtain ⟨fuel', rfl⟩ : ∃ n, fuel' = n + 1 := ⟨fuel' - 1, by omega⟩
        simp only [clean_append, hcomma, List.length_append, List.length_cons] at hfuel
        simp only [clean_append, hcomma, List.append_assoc, List.cons_append]
        rw [hstep hgap' (by decide) (by decide), if_pos rfl]
        exact hlocal (by omega)
    next hcomma =>
    split at hmore
    · next hhead' =>
      cases hmore
      obtain ⟨-, g', hg', hgap'⟩ := exists_gap_of_head hhead' hreturn
      have hne' : close ≠ ',' := fun heq => hcomma (heq ▸ hhead')
      refine ⟨g ++ (w ++ (g' ++ [close])), by simpa using hg', fun {rest' fuel'} hfuel => ?_⟩
      obtain ⟨fuel', rfl⟩ : ∃ n, fuel' = n + 1 := ⟨fuel' - 1, by omega⟩
      simp only [clean_append, hbracket, List.append_assoc, List.singleton_append]
      rw [hstep hgap' hclose hsolid, if_neg hne', if_pos rfl]
    · contradiction

end Collect

theorem endsWord_of_startsKey {c : Char} (h : startsKey c = true) : endsWord c = false := by
  by_contra hends
  rw [Bool.not_eq_false] at hends
  rcases endsWord_cases hends with rfl | rfl | rfl | rfl | rfl | rfl | rfl | rfl <;>
    exact absurd h (by decide)

theorem eq_cons_of_expect {c : Char} (h : expect? c cs = some rest) : cs = c :: rest := by
  unfold expect? at h
  split at h
  · split at h
    · next heq =>
      cases h
      rw [heq]
    · contradiction
  · contradiction

theorem expect?_cons (c : Char) (rest : List Char) : expect? c (c :: rest) = some rest := by
  rw [expect?, if_pos rfl]

theorem endsKeys_of_ne {c : Char} (h : isBlank c = false ∧ isBareChar c = false ∧ c ≠ '.')
    (rest : List Char) : EndsKeys (c :: rest) := by
  rintro d ⟨⟩
  exact h

/-- Values that are read again make keys with values that are read again. -/
theorem Local.binding (hvalue : Local value?) : Local (binding? value?) := by
  rintro cs ⟨path, key, v⟩ rest hblank h
  rw [binding?] at h
  obtain ⟨⟨⟨path, key⟩, tail⟩, hkeys, h⟩ := Option.bind_eq_some_iff.mp h
  obtain ⟨tail', hequals, h⟩ := Option.bind_eq_some_iff.mp h
  obtain ⟨⟨v, tail''⟩, hv, heq⟩ := Option.bind_eq_some_iff.mp h
  cases heq
  obtain ⟨before, w, rfl, htaken⟩ := dottedKey?_local hkeys
  obtain ⟨blanks, hsplit, hblanks⟩ := exists_blanks tail'
  obtain rfl := eq_cons_of_expect hequals
  obtain ⟨w', hw', ⟨c', more', hcons', hc'⟩, hagain⟩ :=
    hvalue (isBlank_of_head_skipBlanks _) hv
  rw [hw'] at hsplit
  subst hsplit
  obtain ⟨c, more, hcons, hc⟩ := htaken.first
  have hnone : before.toList = [] := by
    cases hbefore : before.toList with
    | nil => rfl
    | cons b _ =>
      have := hblank b (by rw [hbefore]; rfl)
      rw [htaken.blanks b (by simp [hbefore])] at this
      contradiction
  have hread {rest' : List Char} (hrest' : EndsKeys rest') :
      dottedKey? "" (w ++ rest') = some ((path, key), rest') := by
    simpa [hnone] using htaken.again hrest'
  refine ⟨w ++ '=' :: (blanks ++ w'), by simp [hnone], ⟨c, more ++ '=' :: (blanks ++ w'), ?_,
    endsWord_of_startsKey hc⟩, fun {rest'} hrest' => ?_⟩
  · rw [hcons, List.cons_append]
  · have htext : clean (w ++ '=' :: (blanks ++ w')) ++ rest' =
        w ++ '=' :: (blanks ++ (clean w' ++ rest')) := by
      rw [clean_append, clean_eq_self htaken.noReturn, clean_cons_of_ne (by decide), clean_append,
        clean_eq_self hblanks.noReturn]
      simp
    have hskip : skipBlanks (blanks ++ (clean w' ++ rest')) = clean w' ++ rest' := by
      refine skipBlanks_append hblanks ?_
      rw [clean_cons_append hcons' (ne_return_of_not_endsWord hc')]
      rintro d ⟨⟩
      exact isBlank_of_not_startsGap (startsGap_of_not_endsWord hc')
    rw [htext, binding?, hread (endsKeys_of_ne (by decide) _)]
    simp only [Option.bind_eq_bind, Option.bind_some, expect?_cons, hskip, hagain hrest']
    rfl

end Collections

/-! ## Values -/

section Values

variable {depth : Nat} {cs rest : List Char} {v : Value}

theorem value?_quoted {quote : Char} (hquote : IsQuote quote) (cs : List Char) :
    value? depth (quote :: cs) =
      (string? (quote :: cs)).map fun (s, rest) => (.string s, rest) := by
  rcases hquote with rfl | rfl <;> rw [value?]

theorem value?_word (h : ∀ c, cs.head? = some c → ¬ IsQuote c ∧ c ≠ '[' ∧ c ≠ '\x7b') :
    value? depth cs = word? cs := by
  unfold value?
  split
  · exact absurd (.inl rfl) (h _ rfl).1
  · exact absurd (.inr rfl) (h _ rfl).1
  · exact absurd rfl (h _ rfl).2.1
  · exact absurd rfl (h _ rfl).2.2
  · rfl

theorem value?_array (depth : Nat) (cs : List Char) :
    value? (depth + 1) ('[' :: cs) =
      (collect (value? depth) ']' (fun v read => some (v :: read)) (cs.length + 1) [] cs).map
        fun (read, rest) => (.array read.reverse, rest) := by
  rw [value?]
  exact itemsWith_eq ..

theorem value?_table (depth : Nat) (cs : List Char) :
    value? (depth + 1) ('\x7b' :: cs) =
      (collect (binding? (value? depth)) '\x7d' (fun (path, key, v) =>
        Entries.addDotted key (.value "" "" "" v) none path) (cs.length + 1) [] cs).map
          fun (read, rest) => (.table (Item.entriesToValues read), rest) := by
  rw [value?]
  exact entriesWith_eq ..

/-- A collection with its opening bracket is read again. -/
theorem collection_local {α β : Type} {element? : Reader α} {close opening : Char}
    {add : α → β → Option β} {f : β → Value} {start : β} {depth' : Nat}
    (helement : Local element?) (hclose : endsWord close = true)
    (hsolid : startsGap close = false) (hopening : endsWord opening = false)
    (heq : ∀ cs, value? depth' (opening :: cs) =
      (collect element? close add (cs.length + 1) start cs).map fun (read, rest) =>
        (f read, rest))
    (h : value? depth' (opening :: cs) = some (v, rest)) :
    ∃ w, opening :: cs = w ++ rest ∧ (∃ c more, w = c :: more ∧ endsWord c = false) ∧
      ∀ {rest'}, EndsValue rest' → value? depth' (clean w ++ rest') = some (v, rest') := by
  rw [heq] at h
  obtain ⟨⟨result, tail⟩, hcollect, hfinish⟩ := Option.map_eq_some_iff.mp h
  cases hfinish
  obtain ⟨w, rfl, hagain⟩ := collect_local helement hclose hsolid hcollect
  refine ⟨opening :: w, rfl, ⟨opening, w, rfl, hopening⟩, fun {rest'} _ => ?_⟩
  rw [clean_cons_append rfl (ne_return_of_not_endsWord hopening), heq,
    hagain (by rw [List.length_append]; omega)]
  rfl

/-- Values are read again if the values below them are. -/
theorem value?_local_of (hbelow : ∀ d, depth = d + 1 → Local (value? d)) :
    Local (value? depth) := by
  intro cs v rest _ h
  by_cases hquote : ∃ quote tail, IsQuote quote ∧ cs = quote :: tail
  · obtain ⟨quote, tail, hquote, rfl⟩ := hquote
    rw [value?_quoted hquote] at h
    obtain ⟨⟨s, tail'⟩, hs, heq⟩ := Option.map_eq_some_iff.mp h
    cases heq
    obtain ⟨quote', w, hquote', hcs, hagain⟩ := string?_local hs
    have hfirst : endsWord quote' = false := by rcases hquote' with rfl | rfl <;> decide
    refine ⟨quote' :: w, hcs, ⟨quote', w, rfl, hfirst⟩, fun {rest'} hrest' => ?_⟩
    rw [clean_cons_append rfl (ne_return_of_not_endsWord hfirst), value?_quoted hquote']
    have hend : rest'.head? ≠ some quote' := fun hhead => by
      simp [hrest'.ends quote' hhead] at hfirst
    rw [← List.cons_append, hagain rest' hend]
    rfl
  by_cases harray : ∃ tail, cs = '[' :: tail
  · obtain ⟨tail, rfl⟩ := harray
    cases depth with
    | zero => contradiction
    | succ depth =>
      have hclose : endsWord ']' = true ∧ startsGap ']' = false := by decide
      exact collection_local (f := fun read : List Value => .array read.reverse)
        (hbelow depth rfl) hclose.1 hclose.2 (by decide) (value?_array depth) h
  by_cases htable : ∃ tail, cs = '\x7b' :: tail
  · obtain ⟨tail, rfl⟩ := htable
    cases depth with
    | zero => contradiction
    | succ depth =>
      have hbinding : Local (binding? (value? depth)) := Local.binding (hbelow depth rfl)
      have hclose : endsWord '\x7d' = true ∧ startsGap '\x7d' = false := by decide
      exact collection_local (f := fun read => .table (Item.entriesToValues read)) hbinding hclose.1
        hclose.2 (by decide) (value?_table depth) h
  have hword (c : Char) (hc : cs.head? = some c) : ¬ IsQuote c ∧ c ≠ '[' ∧ c ≠ '\x7b' := by
    obtain ⟨tail, rfl⟩ := List.head?_eq_some_iff.mp hc
    refine ⟨fun h => hquote ⟨c, tail, h, rfl⟩, ?_, ?_⟩
    · rintro rfl
      exact harray ⟨tail, rfl⟩
    · rintro rfl
      exact htable ⟨tail, rfl⟩
  rw [value?_word hword] at h
  obtain ⟨w, rfl, hreturn, ⟨c, more, rfl, hc⟩, hagain⟩ := word?_local h
  refine ⟨c :: more, rfl, ⟨c, more, rfl, hc⟩, fun {rest'} hrest' => ?_⟩
  rw [clean_eq_self hreturn, value?_word, hagain hrest']
  rintro d ⟨⟩
  exact hword c rfl

/-- Values are read again from their text. -/
theorem value?_local (depth : Nat) : Local (value? depth) := by
  induction depth with
  | zero => exact value?_local_of fun d h => absurd h (by omega)
  | succ depth ih =>
    refine value?_local_of fun d h => ?_
    obtain rfl : depth = d := by omega
    exact ih

end Values

/-- A text writes a value, before anything that ends a value. -/
structure Writes (v : Value) (w : List Char) : Prop where
  first : ∃ c more, w = c :: more ∧ endsWord c = false
  read : ∀ {rest}, EndsValue rest → value? deepest (clean w ++ rest) = some (v, rest)

/-! ## Ends of lines -/

/-- Blanks and a comment, as they may stand at the end of a line. -/
structure LineEnd (w : List Char) : Prop where
  noReturn : '\r' ∉ w
  endsValue : ∀ rest, EndsValue (w ++ '\n' :: rest)
  read : ∀ rest, lineEnd? (w ++ '\n' :: rest) = some (String.ofList w, rest)

theorem skipComment_eq (w : List Char) (hw : ∀ c ∈ w, isTextChar c = true) {rest : List Char}
    (hrest : ∀ c, rest.head? = some c → isTextChar c = false) :
    skipComment ('#' :: (w ++ rest)) = rest := dropWhile_append hw hrest

theorem LineEnd.of_blanks {w : List Char} (hw : Blanks w) : LineEnd w where
  noReturn := hw.noReturn
  endsValue rest := .blanks_append hw (.cons_of_ne (by decide) (by decide) rest)
  read rest := by
    have hskip : skipBlanks (w ++ '\n' :: rest) = '\n' :: rest :=
      skipBlanks_append hw (by rintro c ⟨⟩; decide)
    have hcomment : skipComment ('\n' :: rest) = '\n' :: rest := rfl
    rw [lineEnd?, hskip, hcomment]
    simp only [lineBreak?, taken_append, Option.map_some]

theorem LineEnd.of_comment {w text : List Char} (hw : Blanks w)
    (htext : ∀ c ∈ text, isTextChar c = true) : LineEnd (w ++ '#' :: text) where
  noReturn := by
    have htext : '\r' ∉ text := fun hmem => ne_return_of_isTextChar (htext _ hmem) rfl
    simpa [hw.noReturn] using htext
  endsValue rest := by
    rw [List.append_assoc]
    exact .blanks_append hw (.cons_of_ne (by decide) (by decide) _)
  read rest := by
    have hskip : skipBlanks (w ++ '#' :: text ++ '\n' :: rest) =
        '#' :: (text ++ '\n' :: rest) := by
      rw [List.append_assoc]
      exact skipBlanks_append hw (by rintro c ⟨⟩; decide)
    have hcomment : skipComment ('#' :: (text ++ '\n' :: rest)) = '\n' :: rest :=
      skipComment_eq text htext (by rintro c ⟨⟩; decide)
    rw [lineEnd?, hskip, hcomment]
    simp only [lineBreak?, taken_append, Option.map_some]

/-- What is taken for the end of a line is one. -/
theorem lineEnd?_local {cs rest : List Char} {after : String}
    (h : lineEnd? cs = some (after, rest)) : LineEnd after.toList := by
  obtain ⟨blanks, hcs, hblanks⟩ := exists_blanks cs
  have hafter : after = taken cs (skipComment (skipBlanks cs)) := by
    rw [lineEnd?] at h
    split at h
    · exact (congrArg Prod.fst (Option.some.inj h)).symm
    · obtain ⟨_, -, heq⟩ := Option.map_eq_some_iff.mp h
      exact (congrArg Prod.fst heq).symm
  subst hafter
  by_cases hcomment : ∃ tail, skipBlanks cs = '#' :: tail
  · obtain ⟨tail, htail⟩ := hcomment
    obtain ⟨text, htext, hall⟩ := exists_append_dropWhile isTextChar tail
    have hrest : skipComment (skipBlanks cs) = tail.dropWhile isTextChar := by rw [htail]; rfl
    rw [htail, htext] at hcs
    have hsplit : cs = (blanks ++ '#' :: text) ++ tail.dropWhile isTextChar := by
      rw [hcs]
      simp
    rw [hrest, taken_toList hsplit]
    exact .of_comment hblanks hall
  · have hrest : skipComment (skipBlanks cs) = skipBlanks cs := by
      unfold skipComment
      split
      · next tail htail => exact absurd ⟨tail, htail⟩ hcomment
      · rfl
    rw [hrest, taken_toList hcs]
    exact .of_blanks hblanks

end VideoSync.Toml
