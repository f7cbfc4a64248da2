import Mathlib.Algebra.BigOperators.Group.Finset.Basic
import Mathlib.Tactic.IntervalCases
import VideoSync.Calendar.Date

/-
  Dates and the numbers of their days. `Date.counted` counts a date's day out, one year after the
  other and one month after the other; `toDays` gives the same number (`counted_eq`). Every number
  is that of one valid date, and `ofDays` gives that date (`ofDays_eq_iff`).

  All this is seen in years that begin in March (`Date.ofMarch`), where a leap day comes last. Four
  centuries of such years are cut up into centuries, four years, years and days
  (`yearOfCycle_parts`), which are numbers that do not carry.
-/

namespace VideoSync.Calendar

open Finset (range sum_range_succ)

/-- How many days a year has. -/
def yearLength (year : Int) : Nat := if isLeap year then 366 else 365

/-- The days from the first of January of the year 0 to that of another year, counted year by year;
years before the year 0 count back. -/
def daysToYear (year : Int) : Int :=
  (∑ k ∈ range year.toNat, yearLength k : Nat) -
    (∑ k ∈ range (-year).toNat, yearLength (-k - 1) : Nat)

/-- The number of a date's day, counted out in years, months and days, the first of January 1970
being day 0. -/
def Date.counted (d : Date) : Int :=
  daysToYear d.year - daysToYear 1970 +
    (∑ month ∈ range (d.month - 1), daysInMonth d.year (month + 1) : Nat) + (d.day - 1)

theorem isLeap_iff {year : Int} :
    isLeap year ↔ year % 4 = 0 ∧ (year % 100 ≠ 0 ∨ year % 400 = 0) := by
  simp [isLeap, bne_iff_ne]

/-- Four centuries later a year is as long. -/
theorem isLeap_congr {year other : Int} (h : year % 400 = other % 400) :
    isLeap year = isLeap other := by
  rw [Bool.eq_iff_iff, isLeap_iff, isLeap_iff]
  omega

/-! ## Years from March on -/

/-- The date in a year that begins in March, March being month 0. -/
def Date.ofMarch (year : Int) (month day : Nat) : Date :=
  if month < 10 then ⟨year, month + 3, day⟩ else ⟨year + 1, month - 9, day⟩

theorem exists_ofMarch {d : Date} (h : 1 ≤ d.month ∧ d.month ≤ 12) :
    ∃ year month, month < 12 ∧ d = .ofMarch year month d.day := by
  obtain ⟨year, month, day⟩ := d
  dsimp only at h
  by_cases hm : month ≤ 2
  · refine ⟨year - 1, month + 9, by omega, ?_⟩
    rw [Date.ofMarch, if_neg (by omega), Nat.add_sub_cancel, Int.sub_add_cancel]
  · refine ⟨year, month - 3, by omega, ?_⟩
    rw [Date.ofMarch, if_pos (by omega), Nat.sub_add_cancel (by omega)]

theorem toDays_ofMarch (year : Int) {month : Nat} (hmonth : month < 12) (day : Nat) :
    (Date.ofMarch year month day).toDays =
      year / 400 * cycleDays + daysBeforeYear (year % 400) + daysBeforeMonth month + day - 1
        - epochShift := by
  unfold Date.ofMarch Date.toDays
  by_cases hlt : month < 10
  · have hlate : ¬ month + 3 ≤ 2 := by omega
    have hback : ((month + 3 : Nat) : Int) - 3 = month := by omega
    simp only [if_pos hlt, if_neg hlate, hback]
  · have hearly : month - 9 ≤ 2 := by omega
    have hback : ((month - 9 : Nat) : Int) + 9 = month := by omega
    simp only [if_neg hlt, if_pos hearly, hback, Int.add_sub_cancel]

/-- A date exists if its day comes before the next month and, the leap day apart, among the first
365 days of the year from March on. -/
theorem valid_ofMarch_iff {year : Int} {month day : Nat} (hmonth : month < 12) :
    (Date.ofMarch year month day).Valid ↔
      1 ≤ day ∧ daysBeforeMonth month + day ≤ daysBeforeMonth (month + 1) ∧
        (daysBeforeMonth month + day < 366 ∨
          daysBeforeMonth month + day = 366 ∧ isLeap (year + 1)) := by
  unfold Date.ofMarch Date.Valid daysInMonth daysBeforeMonth
  -- the twelve months have their lengths one by one
  interval_cases month <;> simp <;> grind

/-! ## Four centuries -/

/-- A year of a four-century cycle has a day of that number, counted from March on. -/
structure InYear (year day : Int) : Prop where
  year_nonneg : 0 ≤ year
  year_lt : year < 400
  day_nonneg : 0 ≤ day
  day_lt : day < 365 ∨ day = 365 ∧ isLeap (year + 1)

/-- Centuries, four years, years and days of a cycle; the last century and the last of four years
have a day more, unless the four years end a century that is not the last. -/
structure Parts (c q y d : Int) : Prop where
  centuries : 0 ≤ c ∧ c ≤ 3
  fours : 0 ≤ q ∧ q ≤ 24
  years : 0 ≤ y ∧ y ≤ 3
  days : 0 ≤ d ∧ d ≤ 365
  leap : d = 365 → y = 3 ∧ (q ≠ 24 ∨ c = 3)

theorem yearOfCycle_parts {c q y d : Int} (h : Parts c q y d) :
    yearOfCycle (36524 * c + 1461 * q + 365 * y + d) = 100 * c + 4 * q + y := by
  obtain ⟨hc, hq, hy, hd, hleap⟩ := h
  unfold yearOfCycle
  generalize hday : 36524 * c + 1461 * q + 365 * y + d = day
  have hcenturies : (day / 36524 = c ∧ day / 146096 = 0) ∨
      (day / 36524 = 4 ∧ day / 146096 = 1 ∧ day = 146096) := by omega
  have hfours : (day / 1460 = 25 * c + q ∧ 24 * c + q + 365 * y + d < 1460) ∨
      (day / 1460 = 25 * c + q + 1 ∧ 1460 ≤ 24 * c + q + 365 * y + d) := by omega
  have hyears : 100 * c + 4 * q + y =
      (day - day / 1460 + day / 36524 - day / 146096) / 365 := by
    rcases hcenturies with ⟨hcentury, hlast⟩ | ⟨hcentury, hlast, rfl⟩ <;>
      rcases hfours with ⟨hfour, hrest⟩ | ⟨hfour, hrest⟩ <;> omega
  exact hyears.symm

theorem daysBeforeYear_parts {c q y : Int} (hq : 0 ≤ q ∧ q ≤ 24) (hy : 0 ≤ y ∧ y ≤ 3) :
    daysBeforeYear (100 * c + 4 * q + y) = 36524 * c + 1461 * q + 365 * y := by
  unfold daysBeforeYear
  omega

theorem yearOfCycle_add {y d : Int} (h : InYear y d) : yearOfCycle (daysBeforeYear y + d) = y := by
  obtain ⟨hy0, hy1, hd0, hd1⟩ := h
  rw [isLeap_iff] at hd1
  have hy : y = 100 * (y / 100) + 4 * (y % 100 / 4) + y % 4 := by omega
  rw [hy, daysBeforeYear_parts (by omega) (by omega)]
  exact yearOfCycle_parts ⟨by omega, by omega, by omega, by omega, by omega⟩

theorem exists_inYear {day : Int} (h0 : 0 ≤ day) (h1 : day < cycleDays) :
    ∃ y d, InYear y d ∧ day = daysBeforeYear y + d := by
  unfold cycleDays at h1
  obtain ⟨c, inCentury, hc, hcentury, hlt⟩ : ∃ c inCentury : Int, (0 ≤ c ∧ c ≤ 3) ∧
      day = 36524 * c + inCentury ∧
      (0 ≤ inCentury ∧ (inCentury < 36524 ∨ c = 3 ∧ inCentury = 36524)) :=
    ⟨min 3 (day / 36524), day - 36524 * min 3 (day / 36524), by omega, by omega, by omega⟩
  obtain ⟨y, d, hy, hyear, hd⟩ : ∃ y d : Int, (0 ≤ y ∧ y ≤ 3) ∧
      inCentury % 1461 = 365 * y + d ∧ (0 ≤ d ∧ (d < 365 ∨ y = 3 ∧ d = 365)) :=
    ⟨min 3 (inCentury % 1461 / 365), inCentury % 1461 - 365 * min 3 (inCentury % 1461 / 365),
      by omega, by omega, by omega⟩
  refine ⟨100 * c + 4 * (inCentury / 1461) + y, d, ⟨by omega, by omega, hd.1, ?_⟩, ?_⟩
  · rw [isLeap_iff]
    omega
  · rw [daysBeforeYear_parts (by omega) hy]
    omega

theorem InYear.lt_cycleDays {y d : Int} (h : InYear y d) :
    0 ≤ daysBeforeYear y + d ∧ daysBeforeYear y + d < cycleDays := by
  obtain ⟨hy0, hy1, hd0, hd1⟩ := h
  rw [isLeap_iff] at hd1
  unfold daysBeforeYear cycleDays
  omega

/-! ## Days and dates -/

/-- The month of a day of a year from March on. -/
theorem month_eq {month day : Nat} (hday : 1 ≤ day)
    (hmonth : daysBeforeMonth month + day ≤ daysBeforeMonth (month + 1)) :
    (5 * (daysBeforeMonth month + day - 1) + 2) / 153 = month := by
  unfold daysBeforeMonth at *
  omega

theorem ofDays_ofMarch {cycle y : Int} {month day : Nat} (hday : 1 ≤ day)
    (hmonth : daysBeforeMonth month + day ≤ daysBeforeMonth (month + 1))
    (hyear : InYear y (daysBeforeMonth month + day - 1)) :
    Date.ofDays (cycle * cycleDays + daysBeforeYear y + daysBeforeMonth month + day - 1
      - epochShift) = .ofMarch (cycle * 400 + y) month day := by
  have hlt := hyear.lt_cycleDays
  have hyearOf := yearOfCycle_add hyear
  have hmonthOf := month_eq hday hmonth
  generalize hd : daysBeforeMonth month + day - 1 = d at *
  have hshift : cycle * cycleDays + daysBeforeYear y + daysBeforeMonth month + day - 1
      - epochShift + epochShift = daysBeforeYear y + d + cycle * cycleDays := by omega
  have hcycle : (daysBeforeYear y + d + cycle * cycleDays) / cycleDays = cycle := by
    unfold cycleDays at *
    omega
  have hinCycle :
      (daysBeforeYear y + d + cycle * cycleDays) % cycleDays = daysBeforeYear y + d := by
    unfold cycleDays at *
    omega
  have hinYear : daysBeforeYear y + d - daysBeforeYear y = d := by omega
  have hdayOf : (d - daysBeforeMonth month + 1).toNat = day := by omega
  unfold Date.ofDays
  simp only [hshift, hcycle, hinCycle, hyearOf, hinYear, hmonthOf, hdayOf, decide_eq_true_eq]
  unfold Date.ofMarch
  by_cases hlate : month < 10
  · have hnot : ¬ (10 : Int) ≤ month := by omega
    rw [if_pos hlate, if_neg hnot, if_neg hnot, Int.add_zero]
    exact congrArg (Date.mk _ · day) (Int.toNat_natCast (month + 3))
  · have hten : (10 : Int) ≤ month := by omega
    have hback : ((month : Int) - 9).toNat = month - 9 := by omega
    rw [if_neg hlate, if_pos hten, if_pos hten, hback]

/-- The date of a date's day is the date. -/
theorem ofDays_toDays {d : Date} (h : d.Valid) : Date.ofDays d.toDays = d := by
  obtain ⟨year, month, hlt, hd⟩ := exists_ofMarch ⟨h.1, h.2.1⟩
  rw [hd] at h ⊢
  obtain ⟨hday, hmonth, hinYear⟩ := (valid_ofMarch_iff hlt).mp h
  have hyear : InYear (year % 400) (daysBeforeMonth month + d.day - 1) := by
    refine ⟨by omega, by omega, ?_, ?_⟩
    · unfold daysBeforeMonth
      omega
    · have hleap : isLeap (year % 400 + 1) = isLeap (year + 1) := isLeap_congr (by omega)
      rw [hleap]
      exact hinYear.imp (by omega) fun ⟨hlast, hleap⟩ => ⟨by omega, hleap⟩
  rw [toDays_ofMarch year hlt, ofDays_ofMarch hday hmonth hyear, Int.ediv_mul_add_emod]

/-- Every number is that of a day. -/
theorem exists_valid_toDays (n : Int) : ∃ d : Date, d.Valid ∧ d.toDays = n := by
  have hpos : 0 ≤ (n + epochShift) % cycleDays := Int.emod_nonneg _ (by decide)
  have hlt : (n + epochShift) % cycleDays < cycleDays := Int.emod_lt_of_pos _ (by decide)
  obtain ⟨y, d, hyear, hday⟩ := exists_inYear hpos hlt
  obtain ⟨hy0, hy1, hd0, hd1⟩ := hyear
  obtain ⟨month, hmonth⟩ : ∃ month : Nat, (5 * d + 2) / 153 = month :=
    Int.eq_ofNat_of_zero_le (by omega)
  obtain ⟨day, hdayOf⟩ : ∃ day : Nat, d - daysBeforeMonth month + 1 = day := by
    refine Int.eq_ofNat_of_zero_le ?_
    unfold daysBeforeMonth
    omega
  have htwelve : month < 12 := by omega
  have hcycle : ((n + epochShift) / cycleDays * 400 + y) / 400 = (n + epochShift) / cycleDays := by
    omega
  have hinCycle : ((n + epochShift) / cycleDays * 400 + y) % 400 = y := by omega
  refine ⟨.ofMarch ((n + epochShift) / cycleDays * 400 + y) month day,
    (valid_ofMarch_iff htwelve).mpr ⟨?_, ?_, ?_⟩, ?_⟩
  · unfold daysBeforeMonth at hdayOf
    omega
  · unfold daysBeforeMonth at hdayOf ⊢
    omega
  · have hleap : isLeap ((n + epochShift) / cycleDays * 400 + y + 1) = isLeap (y + 1) :=
      isLeap_congr (by omega)
    rw [hleap]
    exact hd1.imp (by omega) fun ⟨hlast, hleap⟩ => ⟨by omega, hleap⟩
  · rw [toDays_ofMarch _ htwelve, hcycle, hinCycle]
    have hsplit := Int.ediv_mul_add_emod (n + epochShift) cycleDays
    omega

theorem valid_ofDays (n : Int) : (Date.ofDays n).Valid := by
  obtain ⟨d, hd, rfl⟩ := exists_valid_toDays n
  rw [ofDays_toDays hd]
  exact hd

theorem toDays_ofDays (n : Int) : (Date.ofDays n).toDays = n := by
  obtain ⟨d, hd, rfl⟩ := exists_valid_toDays n
  rw [ofDays_toDays hd]

/-! ## Days counted out -/

theorem sum_yearLength (n : Nat) : ∑ year ∈ range n, yearLength year =
    365 * n + (n + 3) / 4 - (n + 99) / 100 + (n + 399) / 400 := by
  induction n with
  | zero => rfl
  | succ n ih =>
    rw [sum_range_succ, ih]
    unfold yearLength
    simp only [isLeap_iff]
    split <;> omega

theorem sum_yearLength_back (n : Nat) : ∑ k ∈ range n, yearLength (-k - 1) =
    365 * n + n / 4 - n / 100 + n / 400 := by
  induction n with
  | zero => rfl
  | succ n ih =>
    rw [sum_range_succ, ih]
    unfold yearLength
    simp only [isLeap_iff]
    split <;> omega

theorem daysToYear_eq (year : Int) :
    daysToYear year = 365 * year + (year + 3) / 4 - (year + 99) / 100 + (year + 399) / 400 := by
  unfold daysToYear
  rw [sum_yearLength, sum_yearLength_back]
  omega

/-- The days of a year before a month. January comes 306 days after the first of March, and March
after the days of January and February. -/
theorem sum_daysInMonth (year : Int) {month : Nat} (h : 1 ≤ month ∧ month ≤ 12) :
    (∑ m ∈ range (month - 1), daysInMonth year (m + 1) : Nat) =
      if month ≤ 2 then daysBeforeMonth (month + 9) - 306
      else daysBeforeMonth (month - 3) + (if isLeap year then 60 else 59) := by
  obtain ⟨h1, h12⟩ := h
  unfold daysInMonth daysBeforeMonth
  interval_cases month <;> simp [sum_range_succ] <;> grind

/-- Days counted out have the number `toDays` gives. -/
theorem counted_eq {d : Date} (hvalid : d.Valid) : d.counted = d.toDays := by
  obtain ⟨h1, h12, -⟩ := hvalid
  unfold Date.counted Date.toDays
  rw [sum_daysInMonth _ ⟨h1, h12⟩, daysToYear_eq, daysToYear_eq]
  unfold daysBeforeYear cycleDays epochShift
  simp only [isLeap_iff]
  -- the month's own days are the same on both sides
  split <;> [skip; split] <;> (generalize daysBeforeMonth _ = m; omega)

/-- The date of a number is the one valid date whose day, counted out, has that number. -/
theorem ofDays_eq_iff {d : Date} {n : Int} : Date.ofDays n = d ↔ d.Valid ∧ d.counted = n := by
  constructor
  · rintro rfl
    exact ⟨valid_ofDays n, (counted_eq (valid_ofDays n)).trans (toDays_ofDays n)⟩
  · rintro ⟨hvalid, rfl⟩
    rw [counted_eq hvalid, ofDays_toDays hvalid]

end VideoSync.Calendar
