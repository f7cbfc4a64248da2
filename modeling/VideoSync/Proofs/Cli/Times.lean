import VideoSync.Cli.Arguments
import VideoSync.Proofs.Calendar.Stamps

/-
  Times on the command line. A time may be typed in as its number of seconds or as any timestamp of
  it, and the text in which a time is shown can be typed in again (`timestamp_reads`).
-/

namespace VideoSync.Cli

open Calendar (Date Stamp daySeconds firstYear lastYear renderOrSeconds)

theorem timestamp_intText {seconds : Int} (h : Width.signed 64 seconds = true) :
    timestamp (Decimal.intText seconds) = .ok seconds := by
  rw [timestamp, Decimal.int64?_intText h]

/-- A stamp is no number: its year is followed by a dash. -/
theorem int64?_text (x : Stamp) : Decimal.int64? x.text.toList = none := by
  rw [Stamp.text, String.toList_ofList]
  refine Decimal.int64?_eq_none (c := '-') ?_ ?_ (by decide)
  · rintro c ⟨⟩
    exact Decimal.isDigit_digitChar _ (Nat.mod_lt _ (by decide))
  · simp [Date.chars]

theorem timestamp_text (x : Stamp) : timestamp x.text = .ok ⌊x.instant⌋ := by
  rw [timestamp, int64?_text, Calendar.parse_text]
  rfl

theorem timestamp_render {seconds : Int} {date : Date} (hvalid : date.Valid)
    (hday : date.counted = seconds / daySeconds) (hyear : 0 ≤ date.year ∧ date.year ≤ 9999) :
    timestamp (renderOrSeconds seconds) = .ok seconds := by
  obtain ⟨x, htext, hinstant⟩ := Calendar.exists_stamp_of_render? hvalid hyear hday
  rw [renderOrSeconds, htext, Option.getD_some, timestamp_text, hinstant]

theorem timestamp_seconds {seconds : Int} (h : Width.signed 64 seconds = true) {date : Date}
    (hvalid : date.Valid) (hday : date.counted = seconds / daySeconds)
    (hyear : date.year < firstYear ∨ lastYear < date.year) :
    timestamp (renderOrSeconds seconds) = .ok seconds := by
  have hdate : Date.ofDays (seconds / daySeconds) = date :=
    Calendar.ofDays_eq_iff.mpr ⟨hvalid, hday⟩
  rw [renderOrSeconds, Calendar.render?, hdate, if_neg (by omega), Option.getD_none,
    timestamp_intText h]

/-- A second that is shown as a date of four-digit year, or as a number because its year has no
text, can be typed in again. A timestamp stands for the second in which its instant lies, so two
timestamps of one instant are one time. -/
theorem timestamp_reads :
    (∀ (seconds : Int) (date : Date), Width.signed 64 seconds = true → date.Valid →
      date.counted = seconds / daySeconds →
      (0 ≤ date.year ∧ date.year ≤ 9999) ∨ date.year < firstYear ∨ lastYear < date.year →
      timestamp (renderOrSeconds seconds) = .ok seconds) ∧
    (∀ x : Stamp, timestamp x.text = .ok ⌊x.instant⌋) ∧
    ∀ x y : Stamp, x.instant = y.instant → timestamp x.text = timestamp y.text := by
  refine ⟨fun seconds date h64 hvalid hday hyear => ?_, timestamp_text, fun x y h => ?_⟩
  · exact hyear.elim (timestamp_render hvalid hday) (timestamp_seconds h64 hvalid hday)
  · rw [timestamp_text, timestamp_text, h]

/-- Half a second before the year 1970 began in UTC, on a clock that is an hour and a half ahead. -/
def halfBefore1970 : Stamp where
  date := ⟨1970, 1, 1⟩
  separator := 't'
  hour := ⟨1, by decide⟩
  minute := ⟨29, by decide⟩
  second := ⟨59, by decide⟩
  fraction := [⟨5, by decide⟩]
  zone := .ahead ⟨1, by decide⟩ ⟨30, by decide⟩
  valid := by decide
  year_nonneg := by decide
  year_le := by decide
  separator_eq := .inr (.inl rfl)

/-- The same instant on a clock that shows UTC. -/
def halfBefore1970Utc : Stamp where
  date := ⟨1969, 12, 31⟩
  separator := ' '
  hour := ⟨23, by decide⟩
  minute := ⟨59, by decide⟩
  second := ⟨59, by decide⟩
  fraction := [⟨5, by decide⟩, ⟨0, by decide⟩]
  zone := .utc 'z' (.inr rfl)
  valid := by decide
  year_nonneg := by decide
  year_le := by decide
  separator_eq := .inr (.inr rfl)

theorem instant_halfBefore1970 : halfBefore1970.instant = halfBefore1970Utc.instant := by
  have hseconds : halfBefore1970.seconds = halfBefore1970Utc.seconds := by decide
  have hfraction : Calendar.fractionValue [5] = Calendar.fractionValue [5, 0] := by
    simp [Calendar.fractionValue]
  rw [Stamp.instant_eq, Stamp.instant_eq, hseconds]
  exact congrArg _ hfraction

/-- The last second of a leap day, the first second of 64 bits, whose year has no text, and the two
stamps of half a second before 1970. -/
theorem timestamp_reads_before1970 :
    timestamp (renderOrSeconds (-62162035201)) = .ok (-62162035201) ∧
    timestamp (renderOrSeconds (-9223372036854775808)) = .ok (-9223372036854775808) ∧
    timestamp "1970-01-01t01:29:59.5+01:30" = .ok (-1) ∧
    timestamp "1970-01-01t01:29:59.5+01:30" = timestamp "1969-12-31 23:59:59.50z" := by
  have htext : halfBefore1970.text = "1970-01-01t01:29:59.5+01:30" := by decide
  have htextUtc : halfBefore1970Utc.text = "1969-12-31 23:59:59.50z" := by decide
  have hfloor : ⌊halfBefore1970.instant⌋ = -1 := by
    rw [Stamp.floor_instant]
    decide
  refine ⟨timestamp_reads.1 _ ⟨0, 2, 29⟩ (by decide) (by decide) ?_ (by decide),
    timestamp_reads.1 _ ⟨-292277022657, 1, 27⟩ (by decide) (by decide) ?_ (by decide), ?_, ?_⟩
  · exact (Calendar.counted_eq (by decide)).trans (by decide)
  · exact (Calendar.counted_eq (by decide)).trans (by decide)
  · rw [← htext, timestamp_reads.2.1, hfloor]
  · rw [← htext, ← htextUtc]
    exact timestamp_reads.2.2 _ _ instant_halfBefore1970

end VideoSync.Cli
