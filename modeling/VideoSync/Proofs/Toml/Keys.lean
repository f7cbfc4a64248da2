import VideoSync.Proofs.Toml.Strings
import VideoSync.Toml.Document

/-
  Keys as they are written. `Spells name w` says that `w` is a way to write a name, whatever
  follows, and a key is `Spelled` when its own text is one and there are only blanks around it. Keys
  that are read are spelled, and spelled keys that are written with dots between them are read
  again, by the same names and with the same blanks: `dottedKey?_chain`.
-/

namespace VideoSync.Toml

open Document (keyText)

/-! ## One key -/

/-- A character that names start with. -/
def startsKey (c : Char) : Bool := isBareChar c || c == '"' || c == '\''

/-- A text of blanks. -/
def Blanks (w : List Char) : Prop := ∀ c ∈ w, isBlank c = true

/-- A name is not followed by more of it. -/
def EndsName (rest : List Char) : Prop := ∀ c, rest.head? = some c → isBareChar c = false

/-- A text writes a name, before anything that is not more of the name. -/
structure Spells (name : String) (w : List Char) : Prop where
  noReturn : '\r' ∉ w
  first : ∃ c more, w = c :: more ∧ startsKey c = true
  read : ∀ {rest}, EndsName rest → name? (w ++ rest) = some (name, rest)

theorem isTextChar_of_startsKey {c : Char} (h : startsKey c = true) : isTextChar c = true := by
  rw [startsKey, Bool.or_eq_true, Bool.or_eq_true, beq_iff_eq, beq_iff_eq] at h
  rcases h with (h | rfl) | rfl
  · have hcode : 32 < c.toNat ∧ c.toNat < 127 := by
      rw [isBareChar, Bool.or_eq_true, Bool.or_eq_true, beq_iff_eq, beq_iff_eq] at h
      rcases h with (h | rfl) | rfl
      · change ((decide ('A'.val ≤ c.val ∧ c.val ≤ 'Z'.val) ||
          decide ('a'.val ≤ c.val) && decide (c.val ≤ 'z'.val)) ||
          decide ('0'.val ≤ c.val) && decide (c.val ≤ '9'.val)) = true at h
        simp only [Bool.or_eq_true, Bool.and_eq_true, decide_eq_true_eq,
          UInt32.le_iff_toNat_le] at h
        simp at h
        omega
      · decide
      · decide
    have hspace : ' ' ≤ c := by
      rw [Char.le_def, UInt32.le_iff_toNat_le]
      exact Nat.le_of_lt hcode.1
    have hdelete : c ≠ '\x7F' := by
      rintro rfl
      exact absurd hcode.2 (by decide)
    simp [isTextChar, hspace, hdelete]
  · decide
  · decide

/-- A key starts with no character that starts none. -/
theorem ne_of_startsKey {c d : Char} (h : startsKey c = true) (hd : startsKey d = false) :
    c ≠ d := by
  rintro rfl
  simp [h] at hd

theorem startsGap_of_startsKey {c : Char} (h : startsKey c = true) : startsGap c = false := by
  simp [startsGap, isBlank, ne_of_startsKey h (show startsKey ' ' = false by decide),
    ne_of_startsKey h (show startsKey '\t' = false by decide),
    ne_of_startsKey h (show startsKey '#' = false by decide),
    ne_of_startsKey h (show startsKey '\n' = false by decide),
    ne_of_startsKey h (show startsKey '\r' = false by decide)]

theorem isBlank_of_startsKey {c : Char} (h : startsKey c = true) : isBlank c = false := by
  have := startsGap_of_startsKey h
  simp only [startsGap, Bool.or_eq_false_iff] at this
  exact this.1.1.1

theorem Blanks.endsName_append {w rest : List Char} (hw : Blanks w) (h : EndsName rest) :
    EndsName (w ++ rest) := by
  cases w with
  | nil => exact h
  | cons c w =>
    intro d hd
    cases hd
    rcases (by simpa [isBlank] using hw c (by simp) : c = ' ' ∨ c = '\t') with rfl | rfl <;> decide

/-- A name that is read is spelled by what is taken. -/
theorem name?_local {cs rest : List Char} {name : String} (h : name? cs = some (name, rest)) :
    ∃ w, cs = w ++ rest ∧ Spells name w := by
  have hquoted {cs : List Char} (hname : ∀ tail, ∀ quote, IsQuote quote →
      name? (quote :: tail) = quoted? (quote :: tail))
      (h : quoted? cs = some (name, rest)) : ∃ w, cs = w ++ rest ∧ Spells name w := by
    obtain ⟨quote, w, hquote, rfl, hreturn, -, hread⟩ := quoted?_local h
    refine ⟨quote :: w, rfl, ?_, ⟨quote, w, rfl, ?_⟩, fun {rest'} _ => ?_⟩
    · rcases hquote with rfl | rfl <;> simp [hreturn]
    · rcases hquote with rfl | rfl <;> decide
    · rw [List.cons_append, hname _ _ hquote]
      exact hread rest'
  have hname (tail : List Char) (quote : Char) (hquote : IsQuote quote) :
      name? (quote :: tail) = quoted? (quote :: tail) := by rcases hquote with rfl | rfl <;> rfl
  unfold name? at h
  split at h
  · exact hquoted hname h
  · exact hquoted hname h
  · next hdouble hsingle =>
    dsimp only at h
    split at h
    · contradiction
    · next hne =>
      cases h
      have hall : ∀ c ∈ cs.takeWhile isBareChar, isBareChar c = true := fun _ hc =>
        List.mem_takeWhile_imp hc
      generalize hw : cs.takeWhile isBareChar = w at hne hall ⊢
      obtain ⟨c, more, rfl⟩ := List.exists_cons_of_ne_nil (l := w) (by simpa using hne)
      have hc : startsKey c = true := by simp [startsKey, hall c (by simp)]
      refine ⟨c :: more, by rw [← hw, List.takeWhile_append_dropWhile], fun hmem => ?_,
        ⟨c, more, rfl, hc⟩, fun {rest'} hrest' => ?_⟩
      · exact absurd (hall _ hmem) (by decide)
      · have hc' : isBareChar c = true := hall c (by simp)
        rw [name?]
        · rw [takeWhile_append hall hrest', dropWhile_append hall hrest', if_neg (by simp)]
        · rintro tail heq
          cases heq
          exact absurd hc' (by decide)
        · rintro tail heq
          cases heq
          exact absurd hc' (by decide)

/-! ## Keys with dots between them -/

/-- A key whose own text writes its name, with blanks around it. -/
structure Key.Spelled (k : Key) : Prop where
  written : Spells k.name k.written.toList
  dotBefore : Blanks k.dotBefore.toList
  dotAfter : Blanks k.dotAfter.toList
  after : Blanks k.after.toList

/-- What may follow keys: no blank, no dot and no more of the last name. -/
def EndsKeys (rest : List Char) : Prop :=
  ∀ c, rest.head? = some c → isBlank c = false ∧ isBareChar c = false ∧ c ≠ '.'

/-- The keys that are read from a chain of keys with blanks before and after it. -/
def chain (before after : String) : List Key → List Key
  | [] => []
  | [k] => [{ name := k.name, written := k.written, dotBefore := before, dotAfter := after }]
  | k :: next :: rest =>
    { name := k.name, written := k.written, dotBefore := before, dotAfter := k.dotAfter } ::
      chain next.dotBefore after (next :: rest)

theorem skipBlanks_append {w rest : List Char} (hw : Blanks w)
    (hrest : ∀ c, rest.head? = some c → isBlank c = false) : skipBlanks (w ++ rest) = rest :=
  dropWhile_append hw hrest

theorem Spells.head_not_blank {name : String} {w : List Char} (h : Spells name w)
    (rest : List Char) : ∀ c, (w ++ rest).head? = some c → isBlank c = false := by
  obtain ⟨c, more, rfl, hc⟩ := h.first
  rintro d ⟨⟩
  exact isBlank_of_startsKey hc

section Step

variable {name : String} {w before after : List Char}

/-- A key with a dot after it. -/
theorem keys?_dot (hw : Spells name w) (hbefore : Blanks before) (hafter : Blanks after)
    (fuel : Nat) (cs : List Char) :
    keys? (fuel + 1) (before ++ (w ++ (after ++ '.' :: cs))) =
      (keys? fuel cs).map fun (more, cs) =>
        ({ name, written := String.ofList w
           dotBefore := String.ofList before, dotAfter := String.ofList after } :: more, cs) := by
  have hname : EndsName ('.' :: cs) := by
    rintro c ⟨⟩
    decide
  have hblank : ∀ c, ('.' :: cs).head? = some c → isBlank c = false := by
    rintro c ⟨⟩
    decide
  rw [keys?, skipBlanks_append hbefore (hw.head_not_blank _),
    hw.read (hafter.endsName_append hname)]
  simp only [Option.bind_eq_bind, Option.bind_some, skipBlanks_append hafter hblank, taken_append]
  cases keys? fuel cs <;> rfl

/-- The last key. -/
theorem keys?_last (hw : Spells name w) (hbefore : Blanks before) (hafter : Blanks after)
    (fuel : Nat) {rest : List Char} (hrest : EndsKeys rest) :
    keys? (fuel + 1) (before ++ (w ++ (after ++ rest))) =
      some ([{ name, written := String.ofList w
               dotBefore := String.ofList before, dotAfter := String.ofList after }], rest) := by
  have hname : EndsName rest := fun c hc => (hrest c hc).2.1
  rw [keys?, skipBlanks_append hbefore (hw.head_not_blank _),
    hw.read (hafter.endsName_append hname)]
  simp only [Option.bind_eq_bind, Option.bind_some,
    skipBlanks_append hafter fun c hc => (hrest c hc).1, taken_append]
  split
  · next cs => exact absurd rfl (hrest '.' rfl).2.2
  · rfl

end Step

theorem keys?_chain {path : List Key} (hne : path ≠ []) (hpath : ∀ k ∈ path, k.Spelled)
    {before after : String} (hbefore : Blanks before.toList) (hafter : Blanks after.toList)
    {rest : List Char} (hrest : EndsKeys rest) {fuel : Nat} (hfuel : path.length ≤ fuel) :
    keys? fuel (before.toList ++ ((keyText.between path).toList ++ (after.toList ++ rest))) =
      some (chain before after path, rest) := by
  induction path generalizing before fuel with
  | nil => contradiction
  | cons k path ih =>
    obtain ⟨fuel, rfl⟩ : ∃ n, fuel = n + 1 := ⟨fuel - 1, by simp at hfuel; omega⟩
    obtain ⟨hk, hmore⟩ := List.forall_mem_cons.mp hpath
    cases path with
    | nil =>
      rw [keyText.between, keys?_last hk.written hbefore hafter fuel hrest]
      simp only [String.ofList_toList, chain]
    | cons next path =>
      have htext : (keyText.between (k :: next :: path)).toList ++ (after.toList ++ rest) =
          k.written.toList ++ (k.dotAfter.toList ++ '.' :: (next.dotBefore.toList ++
            ((keyText.between (next :: path)).toList ++ (after.toList ++ rest)))) := by
        simp [keyText.between]
      rw [htext, keys?_dot hk.written hbefore hk.dotAfter,
        ih (by simp) hmore (hmore next (by simp)).dotBefore (by simpa using hfuel)]
      simp only [String.ofList_toList, chain, Option.map_some]

theorem taken_toList {cs rest w : List Char} (h : cs = w ++ rest) : (taken cs rest).toList = w := by
  rw [h, taken_append, String.toList_ofList]

theorem exists_blanks (cs : List Char) : ∃ w, cs = w ++ skipBlanks cs ∧ Blanks w :=
  exists_append_dropWhile isBlank cs

/-- Keys that are read are a chain of spelled keys. -/
theorem keys?_local {fuel : Nat} {cs rest : List Char} {keys : List Key}
    (h : keys? fuel cs = some (keys, rest)) :
    ∃ before after : String, Blanks before.toList ∧ Blanks after.toList ∧ keys ≠ [] ∧
      (∀ k ∈ keys, k.Spelled) ∧ keys = chain before after keys ∧
      cs = before.toList ++ ((keyText.between keys).toList ++ (after.toList ++ rest)) := by
  induction fuel generalizing cs keys with
  | zero => contradiction
  | succ fuel ih =>
    rw [keys?] at h
    obtain ⟨⟨name, tail⟩, hname, h⟩ := Option.bind_eq_some_iff.mp h
    obtain ⟨w, hw, hspells⟩ := name?_local hname
    obtain ⟨before, hbefore, hbeforeBlank⟩ := exists_blanks cs
    obtain ⟨after, hafter, hafterBlank⟩ := exists_blanks tail
    dsimp only at h hw hafter
    set first : Key :=
      { name, written := taken (skipBlanks cs) tail
        dotBefore := taken cs (skipBlanks cs), dotAfter := taken tail (skipBlanks tail) }
      with hfirst
    have hwrittenText : first.written.toList = w := taken_toList hw
    have hbeforeText : first.dotBefore.toList = before := taken_toList hbefore
    have hafterText : first.dotAfter.toList = after := taken_toList hafter
    have hspelled : first.Spelled := by
      refine ⟨by rwa [hwrittenText], by rwa [hbeforeText], by rwa [hafterText], ?_⟩
      simp [hfirst, Blanks]
    have htext : cs = first.dotBefore.toList ++
        (first.written.toList ++ (first.dotAfter.toList ++ skipBlanks tail)) := by
      rw [hwrittenText, hbeforeText, hafterText, ← hafter, ← hw]
      exact hbefore
    split at h
    · next dotted hdotted =>
      obtain ⟨⟨more, tail'⟩, hmore, h⟩ := Option.bind_eq_some_iff.mp h
      cases h
      obtain ⟨before', after', hbefore', hafter', hne, hall, hchain, htext'⟩ := ih hmore
      obtain ⟨next, rest, rfl⟩ := List.exists_cons_of_ne_nil hne
      have hnext : next.dotBefore = before' := by
        cases rest with
        | nil => exact congrArg Key.dotBefore (List.cons.inj hchain).1
        | cons => exact congrArg Key.dotBefore (List.cons.inj hchain).1
      refine ⟨first.dotBefore, after', hspelled.dotBefore, hafter', by simp,
        List.forall_mem_cons.mpr ⟨hspelled, hall⟩, ?_, ?_⟩
      · rw [chain, hnext, ← hchain]
      · rw [htext, hdotted, htext', keyText.between, hnext]
        simp
    · next hdotted =>
      cases h
      exact ⟨first.dotBefore, first.dotAfter, hspelled.dotBefore, hspelled.dotAfter, by simp,
        List.forall_mem_singleton.mpr hspelled, rfl, htext⟩

/-! ## Keys before a value or in a header -/

/-- The keys that lead to a key and the key, read with a text before them. Only the key itself has
that text. -/
structure Arranged (leading before : String) (keys path : List Key) (key : Key) : Prop where
  names : (path ++ [key]).map (·.name) = keys.map (·.name)
  spelled : ∀ k ∈ path ++ [key], k.Spelled
  before_key : key.before = leading ++ before
  before_path : ∀ k ∈ path, k.before = ""

theorem chain_eq_cons (before after : String) {path : List Key} (hne : path ≠ []) :
    ∃ first rest, chain before after path = first :: rest ∧ first.dotBefore = before := by
  rcases path with _ | ⟨k, _ | ⟨next, rest⟩⟩
  · contradiction
  · exact ⟨_, _, rfl, rfl⟩
  · exact ⟨_, _, rfl, rfl⟩

theorem map_name_chain (before after : String) (path : List Key) :
    (chain before after path).map (·.name) = path.map (·.name) := by
  induction path generalizing before with
  | nil => rfl
  | cons k path ih =>
    cases path with
    | nil => rfl
    | cons next rest => rw [chain, List.map_cons, ih, List.map_cons (a := k)]

theorem chain_spelled {before after : String} {path : List Key} (hpath : ∀ k ∈ path, k.Spelled)
    (hbefore : Blanks before.toList) (hafter : Blanks after.toList) :
    ∀ k ∈ chain before after path, k.Spelled ∧ k.before = "" := by
  have hnone : Blanks "".toList := by simp [Blanks]
  induction path generalizing before with
  | nil => simp [chain]
  | cons k path ih =>
    obtain ⟨hk, hmore⟩ := List.forall_mem_cons.mp hpath
    cases path with
    | nil => simpa [chain] using ⟨hk.written, hbefore, hafter, hnone⟩
    | cons next rest =>
      rw [chain, List.forall_mem_cons]
      exact ⟨⟨⟨hk.written, hbefore, hk.dotAfter, hnone⟩, rfl⟩,
        ih hmore (hmore next (by simp)).dotBefore⟩

theorem exists_arranged (leading : String) {before after : String} {keys : List Key}
    (hne : keys ≠ []) (hkeys : ∀ k ∈ keys, k.Spelled) (hbefore : Blanks before.toList)
    (hafter : Blanks after.toList) :
    ∃ path key, arrange leading (chain before after keys) = path ++ [key] ∧
      Arranged leading before keys path key := by
  have hall := chain_spelled hkeys hbefore hafter
  have hnames := map_name_chain before after keys
  obtain ⟨first, rest, hchain, hfirst⟩ := chain_eq_cons before after hne
  have hnone : Blanks "".toList := by simp [Blanks]
  rw [hchain] at hall hnames ⊢
  obtain ⟨⟨hspelled, hplain⟩, hrest⟩ := List.forall_mem_cons.mp hall
  rcases List.eq_nil_or_concat rest with rfl | ⟨middle, last, rfl⟩
  · refine ⟨[], _, rfl, hnames, ?_, by rw [hfirst], by simp⟩
    simpa using ⟨hspelled.written, hnone, hnone, hspelled.dotAfter⟩
  · rw [List.concat_eq_append] at hrest hnames ⊢
    refine ⟨{ first with dotBefore := "" } :: middle,
      { last with
        before := leading ++ first.dotBefore, after := last.dotAfter, dotAfter := "" }, ?_, ?_, ?_,
      by rw [hfirst], ?_⟩
    · simp [arrange]
    · simpa using hnames
    · intro k hk
      rcases List.mem_append.mp hk with hk | hk
      · rcases List.mem_cons.mp hk with rfl | hk
        · exact ⟨hspelled.written, hnone, hspelled.dotAfter, hspelled.after⟩
        · exact (hrest k (by simp [hk])).1
      · obtain rfl := List.mem_singleton.mp hk
        have hlast := (hrest last (by simp)).1
        exact ⟨hlast.written, hlast.dotBefore, hnone, hlast.dotAfter⟩
    · intro k hk
      rcases List.mem_cons.mp hk with rfl | hk
      · exact hplain
      · exact (hrest k (by simp [hk])).2

theorem Spells.length_pos {name : String} {w : List Char} (h : Spells name w) : 0 < w.length := by
  obtain ⟨c, more, rfl, -⟩ := h.first
  simp

theorem length_le_between {path : List Key} (hpath : ∀ k ∈ path, k.Spelled) :
    path.length ≤ (keyText.between path).toList.length := by
  induction path with
  | nil => simp
  | cons k path ih =>
    obtain ⟨hk, hmore⟩ := List.forall_mem_cons.mp hpath
    have hlength := hk.written.length_pos
    cases path with
    | nil => exact hlength
    | cons next rest =>
      have := ih hmore
      simp only [keyText.between, String.toList_append, List.length_append, List.length_cons]
        at this ⊢
      omega

/-- A chain of spelled keys is read as the keys that lead to the last and the last. -/
theorem dottedKey?_chain (leading : String) {before after : String} {keys : List Key}
    (hne : keys ≠ []) (hkeys : ∀ k ∈ keys, k.Spelled) (hbefore : Blanks before.toList)
    (hafter : Blanks after.toList) {rest : List Char} (hrest : EndsKeys rest) :
    ∃ path key, arrange leading (chain before after keys) = path ++ [key] ∧
      Arranged leading before keys path key ∧
      dottedKey? leading
          (before.toList ++ ((keyText.between keys).toList ++ (after.toList ++ rest))) =
        some ((path, key), rest) := by
  obtain ⟨path, key, harrange, harranged⟩ := exists_arranged leading hne hkeys hbefore hafter
  refine ⟨path, key, harrange, harranged, ?_⟩
  have hlength := length_le_between hkeys
  rw [dottedKey?, keys?_chain hne hkeys hbefore hafter hrest (by simp; omega)]
  simp [harrange]

theorem Blanks.noReturn {w : List Char} (h : Blanks w) : '\r' ∉ w := fun hmem =>
  ne_return_of_isBlank (h _ hmem) rfl

theorem between_noReturn {path : List Key} (hpath : ∀ k ∈ path, k.Spelled) :
    '\r' ∉ (keyText.between path).toList := by
  induction path with
  | nil => simp [keyText.between]
  | cons k path ih =>
    obtain ⟨hk, hmore⟩ := List.forall_mem_cons.mp hpath
    cases path with
    | nil => exact hk.written.noReturn
    | cons next rest =>
      have hnext := (hmore next (by simp)).dotBefore.noReturn
      simpa [keyText.between] using
        ⟨hk.written.noReturn, hk.dotAfter.noReturn, hnext, ih hmore⟩

theorem between_first {path : List Key} (hne : path ≠ []) (hpath : ∀ k ∈ path, k.Spelled) :
    ∃ c more, (keyText.between path).toList = c :: more ∧ startsKey c = true := by
  rcases path with _ | ⟨k, _ | ⟨next, rest⟩⟩
  · contradiction
  · exact (hpath k (by simp)).written.first
  · obtain ⟨c, more, hw, hc⟩ := (hpath k (by simp)).written.first
    refine ⟨c, more ++ (k.dotAfter ++ "." ++ next.dotBefore ++
      keyText.between (next :: rest)).toList, ?_, hc⟩
    simp [keyText.between, hw]

/-- A dotted key that is read, with blanks before it: it is read again from the same text. -/
structure KeysTaken (leading before : String) (w : List Char) (path : List Key) (key : Key) :
    Prop where
  blanks : Blanks before.toList
  noReturn : '\r' ∉ w
  first : ∃ c more, w = c :: more ∧ startsKey c = true
  arranged : Arranged leading before (path ++ [key]) path key
  again : ∀ {rest}, EndsKeys rest →
    dottedKey? leading (before.toList ++ w ++ rest) = some ((path, key), rest)

theorem dottedKey?_local {leading : String} {cs rest : List Char} {path : List Key} {key : Key}
    (h : dottedKey? leading cs = some ((path, key), rest)) :
    ∃ before w, cs = before.toList ++ w ++ rest ∧ KeysTaken leading before w path key := by
  rw [dottedKey?] at h
  obtain ⟨⟨keys, tail⟩, hkeys, hsplit⟩ := Option.bind_eq_some_iff.mp h
  clear h
  obtain ⟨before, after, hbefore, hafter, hne, hall, hchain, rfl⟩ := keys?_local hkeys
  obtain ⟨path', key', harrange, harranged⟩ := exists_arranged leading hne hall hbefore hafter
  rw [← hchain] at harrange
  simp only [harrange, List.dropLast_concat, List.getLast?_concat] at hsplit
  cases hsplit
  refine ⟨before, (keyText.between keys).toList ++ after.toList, by simp, hbefore, ?_, ?_,
    ⟨rfl, harranged.spelled, harranged.before_key, harranged.before_path⟩, fun {rest'} hrest' => ?_⟩
  · simpa using ⟨between_noReturn hall, hafter.noReturn⟩
  · obtain ⟨c, more, hw, hc⟩ := between_first hne hall
    exact ⟨c, _, by rw [hw, List.cons_append], hc⟩
  · obtain ⟨path, key, harrange', -, hread⟩ := dottedKey?_chain leading hne hall hbefore hafter
      hrest'
    rw [← hchain, harrange] at harrange'
    obtain ⟨rfl, heq⟩ := List.append_inj' harrange' rfl
    cases heq
    simpa using hread

end VideoSync.Toml
