import Mathlib.Algebra.Order.Floor.Ring
import Mathlib.Data.Rat.Floor
import VideoSync.Calendar.Timestamp
import VideoSync.Proofs.Calendar.Dates
import VideoSync.Proofs.Decimal.Numerals

/-
  Timestamps in the form of RFC 3339. A `Stamp` is what such a text says: a date, a time of day with
  any number of digits after its seconds, and how far the clock is from UTC. `parse` gives the
  second in which the instant of a stamp lies (`parse_text`), and a second is rendered as the text
  of a stamp of it (`exists_stamp_of_render?`).
-/

namespace VideoSync.Calendar

open Decimal (numeral)

/-! ## What a text says -/

/-- How far a clock is from UTC. -/
inductive Zone where
  | utc (letter : Char) (h : letter = 'Z' ∨ letter = 'z')
  | ahead (hours : Fin 24) (minutes : Fin 60)
  | behind (hours : Fin 24) (minutes : Fin 60)

def Zone.chars : Zone → List Char
  | utc letter _ => [letter]
  | ahead hours minutes => '+' :: (numeral 2 hours ++ ':' :: numeral 2 minutes)
  | behind hours minutes => '-' :: (numeral 2 hours ++ ':' :: numeral 2 minutes)

/-- The seconds that a clock is ahead of UTC. -/
def Zone.offset : Zone → Int
  | utc _ _ => 0
  | ahead hours minutes => hours.val * 3600 + minutes.val * 60
  | behind hours minutes => -(hours.val * 3600 + minutes.val * 60)

/-- A timestamp that has a text: the year has four digits and there is no leap second. -/
structure Stamp where
  date : Date
  separator : Char
  hour : Fin 24
  minute : Fin 60
  second : Fin 60
  /-- The digits after the point; without any there is no point. -/
  fraction : List (Fin 10)
  zone : Zone
  valid : date.Valid
  year_nonneg : 0 ≤ date.year
  year_le : date.year ≤ 9999
  separator_eq : separator = 'T' ∨ separator = 't' ∨ separator = ' '

def Date.chars (d : Date) : List Char :=
  numeral 4 d.year.toNat ++ '-' :: (numeral 2 d.month ++ '-' :: numeral 2 d.day)

/-- A fraction of a second behind its point. -/
def fractionChars : List (Fin 10) → List Char
  | [] => []
  | d :: ds => '.' :: (d :: ds).map fun d => Nat.digitChar d.val

namespace Stamp

def clockChars (x : Stamp) : List Char :=
  numeral 2 x.hour ++ ':' :: (numeral 2 x.minute ++ ':' :: (numeral 2 x.second ++
    fractionChars x.fraction))

def text (x : Stamp) : String :=
  String.ofList (x.date.chars ++ x.separator :: (x.clockChars ++ x.zone.chars))

end Stamp

/-- What digits after a point are worth. -/
def fractionValue : List (Fin 10) → ℚ
  | [] => 0
  | d :: ds => (d.val + fractionValue ds) / 10

/-- The instant of a stamp in seconds since 1970, counted in UTC and without leap seconds. -/
def Stamp.instant (x : Stamp) : ℚ :=
  x.date.counted * 86400 + x.hour.val * 3600 + x.minute.val * 60 + x.second.val +
    fractionValue x.fraction - x.zone.offset

/-! ## The second of an instant -/

theorem fractionValue_mem (ds : List (Fin 10)) :
    0 ≤ fractionValue ds ∧ fractionValue ds < 1 := by
  induction ds with
  | nil => exact ⟨le_rfl, one_pos⟩
  | cons d ds ih =>
    have hd : (d.val : ℚ) ≤ 9 := by exact_mod_cast Nat.le_of_lt_succ d.isLt
    have hd0 : (0 : ℚ) ≤ d.val := Nat.cast_nonneg _
    unfold fractionValue
    constructor <;> linarith

/-- The second of the day that a stamp's clock shows. -/
def Stamp.clock (x : Stamp) : Nat := x.hour * 3600 + x.minute * 60 + x.second

/-- The instant of a stamp to the second. -/
def Stamp.seconds (x : Stamp) : Int := x.date.toDays * daySeconds + x.clock - x.zone.offset

theorem Stamp.instant_eq (x : Stamp) : x.instant = x.seconds + fractionValue x.fraction := by
  rw [instant, counted_eq x.valid, seconds, clock, daySeconds]
  push_cast
  ring

theorem Stamp.floor_instant (x : Stamp) : ⌊x.instant⌋ = x.seconds := by
  rw [x.instant_eq, Int.floor_intCast_add, Int.floor_eq_zero_iff.mpr (fractionValue_mem _),
    Int.add_zero]

/-! ## Reading -/

theorem digits_numeral (places n value : Nat) (rest : List Char) :
    digits places value (numeral places n ++ rest) =
      .ok (10 ^ places * value + n % 10 ^ places, rest) := by
  induction places generalizing value with
  | zero => simp [numeral, digits, Nat.mod_one]
  | succ places ih =>
    have hlt : n / 10 ^ places % 10 < 10 := Nat.mod_lt _ (by decide)
    rw [numeral, List.cons_append, digits, if_pos (Decimal.isDigit_digitChar _ hlt), ih,
      Decimal.digitValue_digitChar _ hlt, Nat.mod_pow_succ]
    congr 2
    ring

theorem digits_of_lt {places n : Nat} (h : n < 10 ^ places) (rest : List Char) :
    digits places 0 (numeral places n ++ rest) = .ok (n, rest) := by
  rw [digits_numeral, Nat.mod_eq_of_lt h, Nat.mul_zero, Nat.zero_add]

theorem mark_cons {p : Char → Bool} {c : Char} (h : p c = true) (rest : List Char) :
    mark p (c :: rest) = .ok ((), rest) := if_pos h

theorem mark_beq (c : Char) (rest : List Char) : mark (· == c) (c :: rest) = .ok ((), rest) :=
  mark_cons (beq_self_eq_true c) rest

theorem Date.Valid.lt_hundred {d : Date} (h : d.Valid) : d.month < 100 ∧ d.day < 100 := by
  have hlength : daysInMonth d.year d.month ≤ 31 := by
    unfold daysInMonth
    grind
  obtain ⟨-, hmonth, -, hday⟩ := h
  omega

theorem readDate_chars {d : Date} (hvalid : d.Valid) (hyear : 0 ≤ d.year ∧ d.year ≤ 9999)
    (rest : List Char) : readDate (d.chars ++ rest) = .ok (d, rest) := by
  obtain ⟨hmonth, hday⟩ := hvalid.lt_hundred
  have hback : (d.year.toNat : Int) = d.year := Int.toNat_of_nonneg hyear.1
  unfold readDate Date.chars
  simp only [List.append_assoc, List.cons_append, digits_of_lt (by omega : d.year.toNat < 10 ^ 4),
    @digits_of_lt 2 _ hmonth, @digits_of_lt 2 _ hday, mark_beq, hback, bind, Except.bind]
  exact if_pos hvalid

/-- A fraction ends where its digits end. -/
theorem skipFraction_chars (ds : List (Fin 10)) {rest : List Char}
    (hrest : ∀ c ∈ rest.head?, c.isDigit = false ∧ c ≠ '.') :
    skipFraction (fractionChars ds ++ rest) = .ok rest := by
  have hend : rest.dropWhile Char.isDigit = rest := by
    cases rest with
    | nil => rfl
    | cons c rest => rw [List.dropWhile_cons_of_neg (by simp [(hrest c rfl).1])]
  have hdigit (d : Fin 10) : (Nat.digitChar d).isDigit = true := Decimal.isDigit_digitChar d d.isLt
  cases ds with
  | nil =>
    rw [fractionChars, List.nil_append]
    unfold skipFraction
    split
    · exact absurd rfl (hrest '.' rfl).2
    · exact absurd rfl (hrest '.' rfl).2
    · rfl
  | cons d ds =>
    have hall : ∀ c ∈ ds.map fun d => Nat.digitChar d.val, c.isDigit = true := by
      intro c hc
      obtain ⟨d, -, rfl⟩ := List.mem_map.mp hc
      exact hdigit d
    rw [fractionChars, List.map_cons, List.cons_append, List.cons_append, skipFraction,
      if_pos (hdigit d), List.dropWhile_append_of_pos hall, hend]

theorem readClock_chars (x : Stamp) {rest : List Char}
    (hrest : ∀ c ∈ rest.head?, c.isDigit = false ∧ c ≠ '.') :
    readClock (x.clockChars ++ rest) = .ok (x.clock, rest) := by
  have hleap : ¬ x.second.val = 60 := by omega
  have hclock : x.hour.val < 24 ∧ x.minute.val < 60 ∧ x.second.val < 60 := by omega
  unfold readClock Stamp.clockChars
  simp only [List.append_assoc, List.cons_append, digits_of_lt (by omega : x.hour.val < 10 ^ 2),
    digits_of_lt (by omega : x.minute.val < 10 ^ 2),
    digits_of_lt (by omega : x.second.val < 10 ^ 2), mark_beq, skipFraction_chars _ hrest,
    if_neg hleap, bind, Except.bind]
  exact if_pos hclock

theorem length_le_byteLength (cs : List Char) : cs.length ≤ byteLength cs := by
  unfold byteLength
  induction cs with
  | nil => exact Nat.zero_le _
  | cons c cs ih =>
    have hc := c.utf8Size_pos
    rw [String.ofList_cons, String.utf8ByteSize_append, String.utf8ByteSize_singleton,
      List.length_cons]
    omega

theorem readPair_numeral (minutes : Bool) {n : Nat} (h : n < if minutes then 60 else 100)
    (rest : List Char) : readPair minutes (numeral 2 n ++ rest) = .ok (n, rest) := by
  have hhundred : n < 100 := h.trans_le (by split <;> omega)
  have htens := Decimal.isDigit_digitChar (n / 10) (by omega)
  have hones := Decimal.isDigit_digitChar (n % 10) (by omega)
  have hsmall : ∀ d < 6, ¬ '5' < Nat.digitChar d := by decide
  have hlate : (minutes && '5' < Nat.digitChar (n / 10)) = false := by
    cases minutes with
    | false => rfl
    | true => simp [hsmall (n / 10) (by simp at h; omega)]
  have hpair : numeral 2 n ++ rest =
      Nat.digitChar (n / 10) :: Nat.digitChar (n % 10) :: rest := by
    have htens : n / 10 % 10 = n / 10 := Nat.mod_eq_of_lt (by omega)
    simp [numeral, htens]
  have hlength : ¬ byteLength (numeral 2 n ++ rest) < 2 :=
    not_lt.mpr (le_trans (by simp [hpair]) (length_le_byteLength _))
  unfold readPair
  rw [if_neg hlength, hpair]
  simp only [htens, hones, hlate, Decimal.digitValue_digitChar _ (by omega : n / 10 < 10),
    Decimal.digitValue_digitChar _ (by omega : n % 10 < 10), Nat.div_add_mod]
  rfl

theorem readOffset_chars (z : Zone) : readOffset z.chars = .ok (z.offset, []) := by
  have hpair (hours : Fin 24) (minutes : Fin 60) :
      readPair false (numeral 2 hours ++ ':' :: numeral 2 minutes) =
          .ok (hours.val, ':' :: numeral 2 minutes) ∧
        readPair true (numeral 2 minutes) = .ok (minutes.val, []) := by
    refine ⟨readPair_numeral false (by simp; omega) _, ?_⟩
    simpa using readPair_numeral true (n := minutes.val) (by simp) []
  cases z with
  | utc letter h => exact if_pos h
  | ahead hours minutes =>
    simp [Zone.chars, readOffset, hpair hours minutes, mark_beq, bind, Except.bind, Zone.offset]
  | behind hours minutes =>
    simp [Zone.chars, readOffset, hpair hours minutes, mark_beq, bind, Except.bind, Zone.offset]

theorem Zone.offset_lt (z : Zone) : -daySeconds < z.offset ∧ z.offset < daySeconds := by
  unfold daySeconds
  cases z <;> simp only [Zone.offset] <;> omega

theorem Zone.ends (z : Zone) : ∀ c ∈ z.chars.head?, c.isDigit = false ∧ c ≠ '.' := by
  rintro c hc
  cases z with
  | utc letter h => rcases h with rfl | rfl <;> cases hc <;> decide
  | ahead | behind => cases hc; decide

theorem Stamp.shortest_le (x : Stamp) : shortestTimestamp ≤ byteLength x.text.toList := by
  refine le_trans ?_ (length_le_byteLength _)
  simp [text, Date.chars, clockChars, numeral, shortestTimestamp]

theorem Stamp.mark_separator (x : Stamp) (rest : List Char) :
    mark (fun c => c == 'T' || c == 't' || c == ' ') (x.separator :: rest) = .ok ((), rest) := by
  refine mark_cons ?_ rest
  rcases x.separator_eq with h | h | h <;> rw [h] <;> rfl

/-- The text of a stamp is read as the second in which its instant lies. -/
theorem parse_text (x : Stamp) : parse x.text = .ok ⌊x.instant⌋ := by
  have hoffset := x.zone.offset_lt
  have hnear : ¬ (daySeconds ≤ x.zone.offset ∨ x.zone.offset ≤ -daySeconds) := by omega
  unfold parse
  rw [if_neg (not_lt.mpr x.shortest_le), Stamp.text, String.toList_ofList]
  simp only [readDate_chars x.valid ⟨x.year_nonneg, x.year_le⟩, x.mark_separator,
    readClock_chars x x.zone.ends, readOffset_chars, if_neg hnear, x.floor_instant, bind,
    Except.bind, pure, Except.pure]
  rfl

/-! ## Writing -/

theorem twoDigits_eq {n : Nat} (h : n < 100) : twoDigits n = String.ofList (numeral 2 n) := by
  rw [twoDigits, Decimal.natText, ← String.ofList_append, ← Decimal.zeros_append_toDigits h]

theorem yearText_eq {year : Int} (h0 : 0 ≤ year) (h1 : year ≤ 9999) :
    yearText year = String.ofList (numeral 4 year.toNat) := by
  have habs : year.natAbs = year.toNat := by omega
  have hlt : year.toNat < 10 ^ 4 := by omega
  rw [yearText, if_neg (by omega), if_neg (by omega), habs, ← Decimal.zeros_append_toDigits hlt]

/-- The stamp of a second of a day in UTC. -/
def Stamp.utc (date : Date) (valid : date.Valid) (hyear : 0 ≤ date.year ∧ date.year ≤ 9999)
    (second : Fin 86400) : Stamp where
  date := date
  separator := 'T'
  hour := ⟨second / 3600, by omega⟩
  minute := ⟨second / 60 % 60, by omega⟩
  second := ⟨second % 60, by omega⟩
  fraction := []
  zone := .ahead 0 0
  valid := valid
  year_nonneg := hyear.1
  year_le := hyear.2
  separator_eq := .inl rfl

section
variable {date : Date} (hvalid : date.Valid) (hyear : 0 ≤ date.year ∧ date.year ≤ 9999)
include hvalid hyear

theorem Stamp.text_utc (second : Fin 86400) : (utc date hvalid hyear second).text =
    date.render ++ "T" ++ clockText second ++ "+00:00" := by
  obtain ⟨hmonth, hday⟩ := hvalid.lt_hundred
  have hzone : numeral 2 0 = ['0', '0'] := rfl
  rw [clockText, Date.render, yearText_eq hyear.1 hyear.2, twoDigits_eq hmonth, twoDigits_eq hday,
    twoDigits_eq (by omega : second.val / 3600 < 100),
    twoDigits_eq (by omega : second.val / 60 % 60 < 100),
    twoDigits_eq (by omega : second.val % 60 < 100)]
  apply String.toList_inj.mp
  simp [text, utc, Date.chars, clockChars, Zone.chars, fractionChars, hzone]

theorem Stamp.floor_instant_utc (second : Fin 86400) :
    ⌊(utc date hvalid hyear second).instant⌋ = date.toDays * daySeconds + second := by
  have hclock : (utc date hvalid hyear second).clock = second := by
    simp only [clock, utc]
    omega
  rw [floor_instant, seconds, hclock]
  exact Int.sub_zero _

/-- A second whose day lies in a year of four digits is rendered as a stamp of that second. -/
theorem exists_stamp_of_render? {seconds : Int} (hday : date.counted = seconds / daySeconds) :
    ∃ x : Stamp, render? seconds = some x.text ∧ ⌊x.instant⌋ = seconds := by
  have hdate : Date.ofDays (seconds / daySeconds) = date := ofDays_eq_iff.mpr ⟨hvalid, hday⟩
  have hrange : firstYear ≤ date.year ∧ date.year ≤ lastYear := by
    unfold firstYear lastYear
    omega
  obtain ⟨second, hsecond⟩ : ∃ second : Nat, seconds % daySeconds = second :=
    Int.eq_ofNat_of_zero_le (Int.emod_nonneg _ (by decide))
  have hlt : second < 86400 := by
    have := Int.emod_lt_of_pos seconds (by decide : 0 < daySeconds)
    unfold daySeconds at *
    omega
  refine ⟨.utc date hvalid hyear ⟨second, hlt⟩, ?_, ?_⟩
  · rw [render?, hdate, if_pos hrange, hsecond, Stamp.text_utc, Int.toNat_natCast]
  · rw [Stamp.floor_instant_utc, ← counted_eq hvalid, hday]
    exact hsecond ▸ Int.ediv_mul_add_emod seconds daySeconds

end

end VideoSync.Calendar
