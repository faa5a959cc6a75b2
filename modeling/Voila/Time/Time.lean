import Voila.Http.ClientSound
import Voila.Lib.Layout

/-!
# Voila.Time.Time

`time.voi`: the calendar, the constructors of a `DateTime`, its RFC 3339 text and the parser of such
texts.

The divisors are positive, so that `/` and `%` are the floor division and the floor modulus of the
source. An `int` does not overflow here: where it would, the source aborts.
-/

open List

namespace Voila.Time

open Voila.Rt (Bytes printNat)
open Voila.Rt.Json (ch)
open Voila.Http (Fail errf lit intText)

def secondsPerDay : Int := 86400
def nsPerSecond : Int := 1000000000

structure DateTime where
  year : Int
  month : Int
  day : Int
  hour : Int
  minute : Int
  second : Int
  nanosecond : Int
  offset : Int
  deriving DecidableEq

/-! ### The calendar -/

/-- `is_leap_year`. -/
def isLeapYear (y : Int) : Bool :=
  if y % 4 ≠ 0 then false
  else if y % 100 ≠ 0 then true
  else y % 400 == 0

/-- `days_in_month`. -/
def daysInMonth (y m : Int) : Int :=
  if m = 2 then
    if isLeapYear y then 29 else 28
  else if m = 4 ∨ m = 6 ∨ m = 9 ∨ m = 11 then 30
  else 31

/-- The year of an era that its day `doe` is in. -/
def yearOfEra (doe : Int) : Int := (doe - doe / 1460 + doe / 36524 - doe / 146096) / 365

/-- `civil_from_days`. -/
def civilFromDays (z0 : Int) : Int × Int × Int :=
  let z := z0 + 719468
  let era := z / 146097
  let doe := z - era * 146097
  let yoe := yearOfEra doe
  let y := yoe + era * 400
  let doy := doe - (365 * yoe + yoe / 4 - yoe / 100)
  let mp := (5 * doy + 2) / 153
  let d := doy - (153 * mp + 2) / 5 + 1
  let m := if 10 ≤ mp then mp - 9 else mp + 3
  if m ≤ 2 then (y + 1, m, d) else (y, m, d)

/-! ### Constructors -/

/-- An `int` with leading zeros, as `%0wd` prints it. -/
def padInt (width : Nat) (v : Int) : Bytes :=
  let s := intText v
  if width ≤ s.length then s
  else
    let zeros := List.replicate (width - s.length) (ch '0')
    if v < 0 then ch '-' :: (zeros ++ printNat v.natAbs) else zeros ++ s

/-- A check of `date`: the field is in its range. -/
def inRange (v lo hi : Int) (msg : Bytes) : Except Fail Unit :=
  if v < lo ∨ v > hi then errf msg else .ok ()

/-- `date`. -/
def date (year month day hour minute second nanosecond offset : Int) : Except Fail DateTime := do
  inRange month 1 12 (lit "month " ++ intText month ++ lit " out of range (1..12)")
  let dim := daysInMonth year month
  inRange day 1 dim (lit "day " ++ intText day ++ lit " out of range (1.." ++ intText dim ++ lit ") for " ++
    (padInt 4 year ++ [ch '-'] ++ padInt 2 month))
  inRange hour 0 23 (lit "hour " ++ intText hour ++ lit " out of range (0..23)")
  inRange minute 0 59 (lit "minute " ++ intText minute ++ lit " out of range (0..59)")
  inRange second 0 59 (lit "second " ++ intText second ++
    lit " out of range (0..59); leap seconds are not represented")
  inRange nanosecond 0 999999999 (lit "nanosecond " ++ intText nanosecond ++
    lit " out of range (0..999999999)")
  if offset ≤ 0 - secondsPerDay ∨ offset ≥ secondsPerDay then
    errf (lit "offset " ++ intText offset ++ lit "s out of range (must be within one day of UTC)")
  else .ok ⟨year, month, day, hour, minute, second, nanosecond, offset⟩

/-- `from_unix_seconds_at`. -/
def fromUnixSecondsAt (secs nanosecond offset : Int) : DateTime :=
  let local_ := secs + offset
  let days := local_ / secondsPerDay
  let sod := local_ - days * secondsPerDay
  let (y, m, d) := civilFromDays days
  { year := y, month := m, day := d, hour := sod / 3600, minute := sod / 60 % 60, second := sod % 60,
    nanosecond, offset }

/-- `from_unix_nanos_at`. -/
def fromUnixNanosAt (nanos offset : Int) : DateTime :=
  fromUnixSecondsAt (nanos / nsPerSecond) (nanos % nsPerSecond) offset

/-- What the constructors build: `date`, and `from_unix_seconds_at`, which all others go through. -/
inductive Built : DateTime → Prop
  | date {year month day hour minute second nanosecond offset : Int} {d : DateTime} :
      date year month day hour minute second nanosecond offset = .ok d → Built d
  | unix (secs nanosecond offset : Int) : Built (fromUnixSecondsAt secs nanosecond offset)

/-! ### Formatting -/

/-- `fraction_text`. -/
def fractionText (ns : Int) : Bytes :=
  if ns = 0 then []
  else if ns % 1000000 = 0 then ch '.' :: padInt 3 (ns / 1000000)
  else if ns % 1000 = 0 then ch '.' :: padInt 6 (ns / 1000)
  else ch '.' :: padInt 9 ns

/-- `offset_text`. -/
def offsetText (off : Int) : Bytes :=
  if off = 0 then [ch 'Z']
  else
    let sign := if off < 0 then ch '-' else ch '+'
    let a := if off < 0 then 0 - off else off
    sign :: (padInt 2 (a / 3600) ++ ch ':' :: padInt 2 (a % 3600 / 60))

/-- `DateTime.rfc3339`. -/
def DateTime.rfc3339 (d : DateTime) : Bytes :=
  padInt 4 d.year ++ ch '-' :: (padInt 2 d.month ++ ch '-' :: (padInt 2 d.day ++ ch 'T' ::
    (padInt 2 d.hour ++ ch ':' :: (padInt 2 d.minute ++ ch ':' :: (padInt 2 d.second ++
      (fractionText d.nanosecond ++ offsetText d.offset))))))

/-! ### Parsing -/

def isDigit (c : UInt8) : Bool := ch '0' ≤ c ∧ c ≤ ch '9'

/-- The loop of `digits_at` over its digits. -/
def digitsLoop (v : Int) : Bytes → Option Int
  | [] => some v
  | c :: s => if isDigit c then digitsLoop (v * 10 + (c.toNat - 48)) s else none

/-- `digits_at`. -/
def digitsAt (s : Bytes) (pos n : Nat) (what : Bytes) : Except Fail Int :=
  if pos + n > s.length then errf (lit "`" ++ s ++ lit "` ends before its " ++ what)
  else
    match digitsLoop 0 ((s.drop pos).take n) with
    | some v => .ok v
    | none =>
      errf (lit "expected " ++ intText n ++ lit " digits for the " ++ what ++ lit " at offset " ++
        intText pos ++ lit " of `" ++ s ++ lit "`")

/-- `literal_at`. -/
def literalAt (s : Bytes) (pos : Nat) (c : UInt8) (shown : Bytes) : Except Fail Unit :=
  if s[pos]? ≠ some c then
    errf (lit "expected `" ++ shown ++ lit "` at offset " ++ intText pos ++ lit " of `" ++ s ++ lit "`")
  else .ok ()

/-- The loop over a fraction, with what is left: the nanoseconds, and whether a digit was seen. -/
def fractionLoop (scale ns : Int) (seen : Bool) : Bytes → Int × Bool × Bytes
  | [] => (ns, seen, [])
  | c :: s =>
    if isDigit c then
      if scale > 0 then fractionLoop (scale / 10) (ns + (c.toNat - 48) * scale) true s
      else fractionLoop scale ns true s
    else (ns, seen, c :: s)

/-- The fraction, if there is one, and what is left of the text. -/
def parseFraction (s rest : Bytes) : Except Fail (Int × Bytes) :=
  if rest.head? = some (ch '.') then
    match fractionLoop 100000000 0 false rest.tail with
    | (ns, true, rest) => .ok (ns, rest)
    | (_, false, rest') =>
      errf (lit "`.` at offset " ++ intText (s.length - rest'.length - 1 : Nat) ++ lit " of `" ++ s ++
        lit "` is not followed by a fraction")
  else .ok (0, rest)

/-- The time zone from position `i` on, and the position behind it. -/
def parseZone (s : Bytes) (i : Nat) : Except Fail (Int × Nat) :=
  match s[i]? with
  | none => errf (lit "`" ++ s ++ lit "` has no time zone; RFC 3339 requires `Z` or ±HH:MM")
  | some z =>
    if z = ch 'Z' ∨ z = ch 'z' then .ok (0, i + 1)
    else if z = ch '+' ∨ z = ch '-' then
      if i + 6 > s.length then errf (lit "truncated time zone in `" ++ s ++ lit "` (want ±HH:MM)")
      else do
        let oh ← digitsAt s (i + 1) 2 (lit "offset hour")
        literalAt s (i + 3) (ch ':') (lit ":")
        let om ← digitsAt s (i + 4) 2 (lit "offset minute")
        if oh > 23 then
          errf (lit "time zone hour " ++ intText oh ++ lit " out of range (0..23) in `" ++ s ++ lit "`")
        else if om > 59 then
          errf (lit "time zone minute " ++ intText om ++ lit " out of range (0..59) in `" ++ s ++ lit "`")
        else
          let offset := oh * 3600 + om * 60
          .ok (if z = ch '-' then 0 - offset else offset, i + 6)
    else errf (lit "expected `Z` or ±HH:MM at offset " ++ intText i ++ lit " of `" ++ s ++ lit "`")

/-- The end of `parse_rfc3339`: what `date` says of the fields. -/
def checked (s : Bytes) (r : Except Fail DateTime) : Except Fail DateTime :=
  match r with
  | .error (.err msg) => errf (lit "`" ++ s ++ lit "`: " ++ msg)
  | r => r

/-- `parse_rfc3339`. -/
def parseRfc3339 (s : Bytes) : Except Fail DateTime :=
  if s.length < 19 then
    errf (lit "`" ++ s ++ lit "` is too short for an RFC 3339 timestamp (want at least YYYY-MM-DDTHH:MM:SSZ)")
  else do
    let year ← digitsAt s 0 4 (lit "year")
    literalAt s 4 (ch '-') (lit "-")
    let month ← digitsAt s 5 2 (lit "month")
    literalAt s 7 (ch '-') (lit "-")
    let day ← digitsAt s 8 2 (lit "day")
    if s[10]? ≠ some (ch 'T') ∧ s[10]? ≠ some (ch 't') ∧ s[10]? ≠ some (ch ' ') then
      errf (lit "expected `T` between the date and the time at offset 10 of `" ++ s ++ lit "`")
    else do
      let hour ← digitsAt s 11 2 (lit "hour")
      literalAt s 13 (ch ':') (lit ":")
      let minute ← digitsAt s 14 2 (lit "minute")
      literalAt s 16 (ch ':') (lit ":")
      let second ← digitsAt s 17 2 (lit "second")
      let (nanosecond, rest) ← parseFraction s (s.drop 19)
      let (offset, i) ← parseZone s (s.length - rest.length)
      if i ≠ s.length then
        errf (lit "trailing text `" ++ s.drop i ++ lit "` after the timestamp in `" ++ s ++ lit "`")
      else checked s (date year month day hour minute second nanosecond offset)

end Voila.Time

/-!
A `DateTime` that was built is a day of the calendar with a time of that day (`Built.valid`). What is parsed
are the texts of a grammar (`Stamp`); another text is refused with an error value unless a `%` in it stands
alone (`parses_iff`). So the text of a `DateTime` is read back as what it is, unless its nanoseconds are out of
their range (`rfc3339_parses_iff`): `from_unix_seconds_at` takes them as they come.

The day within an era falls into a century, a cycle of four years and a year in turn
(`yearOfEra_cycle`), which is what the closed form of `civil_from_days` comes down to.
-/

namespace Voila.Time

open Voila.Rt (Bytes printNat readNat)
open Voila.Rt.Json (ch)
open Voila.Http (Fail errf lit intText bind_of bind_eq_ok errf_bind errf_ne_ok Plain plain_append plain_cons intText_plain
  Plain.safe_append Plain.sprintf Safe safe_of_plain safe_append_iff safe_append_lit safe_append_end sprintf
  lit_plain)
open Voila.Lib (drop_field drop_succ take_field get_field field_fits)

/-! ### The calendar -/

/-- The year of a day by its century `q`, its cycle `k` of four years in it and its day `t` in that. -/
theorem yearOfEra_cycle (doe : Int) {q k t : Int} (hq : 0 ≤ q ∧ q ≤ 3) (hk : 0 ≤ k ∧ k ≤ 24)
    (ht : 0 ≤ t ∧ t ≤ 1460) (short : k = 24 → t ≤ 1459) (hdoe : doe = 36524 * q + 1461 * k + t) :
    yearOfEra doe = 100 * q + 4 * k + (if t = 1460 then 3 else t / 365) := by
  have century : doe / 36524 = q := by omega
  have era : doe / 146096 = 0 := by omega
  have cycle : doe / 1460 = 25 * q + k + (k + t + 24 * q) / 1460 := by omega
  unfold yearOfEra
  rw [century, era, cycle]
  split
  · omega
  · omega

/-- The day of the year is one of it, and the last day of a leap year is the last of them. -/
theorem yearOfEra_spec (doe : Int) (h0 : 0 ≤ doe) (h1 : doe ≤ 146096) :
    let y := yearOfEra doe
    let doy := doe - (365 * y + y / 4 - y / 100)
    0 ≤ y ∧ y ≤ 399 ∧ 0 ≤ doy ∧ doy ≤ 365 ∧
      (doy = 365 → (y + 1) % 4 = 0 ∧ ((y + 1) % 100 ≠ 0 ∨ y = 399)) := by
  by_cases last : doe = 146096
  · subst last
    decide
  · obtain ⟨q, hq⟩ : ∃ q, q = doe / 36524 := ⟨_, rfl⟩
    obtain ⟨k, hk⟩ : ∃ k, k = (doe - 36524 * q) / 1461 := ⟨_, rfl⟩
    obtain ⟨t, ht⟩ : ∃ t, t = doe - 36524 * q - 1461 * k := ⟨_, rfl⟩
    have hq' : 0 ≤ q ∧ q ≤ 3 := by omega
    have hk' : 0 ≤ k ∧ k ≤ 24 := by omega
    have ht' : 0 ≤ t ∧ t ≤ 1460 := by omega
    have short : k = 24 → t ≤ 1459 := by omega
    have year := yearOfEra_cycle doe hq' hk' ht' short (by omega)
    -- the year of the cycle, and its day
    obtain ⟨j, hj⟩ : ∃ j, j = if t = 1460 then 3 else t / 365 := ⟨_, rfl⟩
    have hj' : 0 ≤ j ∧ j ≤ 3 ∧ 365 * j ≤ t ∧ t ≤ 365 * j + 365 ∧ (t = 365 * j + 365 → j = 3 ∧ t = 1460) := by
      split at hj
      · omega
      · omega
    rw [← hj] at year
    have quarter : yearOfEra doe / 4 = 25 * q + k := by omega
    have hundred : yearOfEra doe / 100 = q := by omega
    dsimp only
    rw [quarter, hundred, year]
    refine ⟨by omega, by omega, by omega, by omega, fun longest => ?_⟩
    have hj3 := hj'.2.2.2.2 (by omega)
    exact ⟨by omega, Or.inl (by omega)⟩

/-- A day number by its era, the day of that, the year of the era and the day of the year. -/
theorem exists_day (z : Int) : ∃ era doe yoe doy : Int, era = (z + 719468) / 146097 ∧
    doe = z + 719468 - era * 146097 ∧ yoe = yearOfEra doe ∧ doy = doe - (365 * yoe + yoe / 4 - yoe / 100) ∧
    0 ≤ yoe ∧ yoe ≤ 399 ∧ 0 ≤ doy ∧ doy ≤ 365 ∧
    (doy = 365 → (yoe + 1) % 4 = 0 ∧ ((yoe + 1) % 100 ≠ 0 ∨ yoe = 399)) :=
  ⟨_, _, _, _, rfl, rfl, rfl, rfl, yearOfEra_spec _ (by omega) (by omega)⟩

/-- A day of a month. -/
structure IsDate (y m d : Int) : Prop where
  month : 1 ≤ m ∧ m ≤ 12
  day : 1 ≤ d ∧ d ≤ daysInMonth y m

variable {y v ns off : Int} {d : DateTime} {c : UInt8} {what shown z f p : Bytes} {pos w : Nat}

theorem isLeapYear_of (h : y % 4 = 0) (h' : y % 100 ≠ 0 ∨ y % 400 = 0) : isLeapYear y = true := by
  unfold isLeapYear
  rw [if_neg (fun other => other h)]
  by_cases century : y % 100 = 0
  · rw [if_neg (fun other => other century), beq_iff_eq]
    exact h'.resolve_left fun other => other century
  · rw [if_pos century]

theorem daysInMonth_ge (y m : Int) : 28 ≤ daysInMonth y m := by
  unfold daysInMonth
  split
  · split
    · decide
    · decide
  · split
    · decide
    · decide

theorem daysInMonth_le (y m : Int) : daysInMonth y m ≤ 31 := by
  unfold daysInMonth
  split
  · split
    · decide
    · decide
  · split
    · decide
    · decide

theorem daysInMonth_long {y m : Int} (h2 : m ≠ 2) : 30 ≤ daysInMonth y m := by
  unfold daysInMonth
  rw [if_neg h2]
  split
  · decide
  · decide

theorem daysInMonth_longest {y m : Int} (h2 : m ≠ 2) (h : ¬ (m = 4 ∨ m = 6 ∨ m = 9 ∨ m = 11)) :
    daysInMonth y m = 31 := by
  unfold daysInMonth
  rw [if_neg h2, if_neg h]

theorem daysInMonth_leap (h : isLeapYear y = true) : daysInMonth y 2 = 29 := by
  unfold daysInMonth
  rw [if_pos rfl, if_pos h]

/-- The month of a day counted from the first of March, and its day in that month. -/
theorem month_isDate {y doy : Int} (h0 : 0 ≤ doy) (h1 : doy ≤ 365)
    (leap : doy = 365 → isLeapYear (y + 1) = true) :
    let mp := (5 * doy + 2) / 153
    let d := doy - (153 * mp + 2) / 5 + 1
    let m := if 10 ≤ mp then mp - 9 else mp + 3
    IsDate (if m ≤ 2 then y + 1 else y) m d := by
  obtain ⟨mp, hmp⟩ : ∃ mp, mp = (5 * doy + 2) / 153 := ⟨_, rfl⟩
  have inYear : 0 ≤ mp ∧ mp ≤ 11 := by omega
  obtain ⟨d, hd⟩ : ∃ d, d = doy - (153 * mp + 2) / 5 + 1 := ⟨_, rfl⟩
  have long : 1 ≤ d ∧ d ≤ 31 := by omega
  have short : mp = 1 ∨ mp = 3 ∨ mp = 6 ∨ mp = 8 → d ≤ 30 := by omega
  have february : mp = 11 → d ≤ 29 ∧ (d = 29 → doy = 365) := by omega
  dsimp only
  rw [← hmp, ← hd]
  by_cases next : 10 ≤ mp
  · rw [if_pos next, if_pos (by omega)]
    refine ⟨by omega, long.1, ?_⟩
    by_cases two : mp = 11
    · have hm : mp - 9 = 2 := by omega
      rw [hm]
      by_cases last : d = 29
      · rw [daysInMonth_leap (leap ((february two).2 last))]
        omega
      · have := daysInMonth_ge (y + 1) 2
        have := february two
        omega
    · rw [daysInMonth_longest (by omega) (by omega)]
      omega
  · rw [if_neg next, if_neg (by omega)]
    refine ⟨by omega, long.1, ?_⟩
    by_cases thirty : mp = 1 ∨ mp = 3 ∨ mp = 6 ∨ mp = 8
    · have := daysInMonth_long (y := y) (m := mp + 3) (by omega)
      have := short thirty
      omega
    · rw [daysInMonth_longest (by omega) (by omega)]
      omega

/-- `civil_from_days` gives a day of the calendar. -/
theorem civilFromDays_isDate (z : Int) :
    IsDate (civilFromDays z).1 (civilFromDays z).2.1 (civilFromDays z).2.2 := by
  obtain ⟨era, doe, yoe, doy, hera, hdoe, hyoe, hdoy, y0, y1, d0, d1, longest⟩ := exists_day z
  have leap : doy = 365 → isLeapYear (yoe + era * 400 + 1) = true := by
    intro last
    obtain ⟨four, century⟩ := longest last
    exact isLeapYear_of (by omega) (by omega)
  have day := month_isDate d0 d1 leap
  unfold civilFromDays
  dsimp only at day ⊢
  rw [← hera, ← hdoe, ← hyoe, ← hdoy]
  generalize (if 10 ≤ (5 * doy + 2) / 153 then (5 * doy + 2) / 153 - 9 else (5 * doy + 2) / 153 + 3) = m at day ⊢
  split
  · next early =>
      rw [if_pos early] at day
      exact day
  · next late =>
      rw [if_neg late] at day
      exact day

/-! ### What is built -/

/-- A day of the calendar with a time of that day. -/
structure DateTime.Valid (d : DateTime) : Prop where
  isDate : IsDate d.year d.month d.day
  hour : 0 ≤ d.hour ∧ d.hour ≤ 23
  minute : 0 ≤ d.minute ∧ d.minute ≤ 59
  second : 0 ≤ d.second ∧ d.second ≤ 59

theorem inRange_ok_iff (v lo hi : Int) (msg : Bytes) :
    inRange v lo hi msg = .ok () ↔ lo ≤ v ∧ v ≤ hi := by
  unfold inRange
  by_cases out : v < lo ∨ v > hi
  · rw [if_pos out]
    exact ⟨fun ok => absurd ok (errf_ne_ok msg ()), fun within => by omega⟩
  · rw [if_neg out]
    exact ⟨fun _ => by omega, fun _ => rfl⟩

theorem bind_unit_ok_iff {α : Type} (x : Except Fail Unit) (y : Except Fail α) (a : α) :
    (x >>= fun _ => y) = .ok a ↔ x = .ok () ∧ y = .ok a := by
  cases x with
  | error e => exact ⟨fun ok => (nomatch ok), fun ok => (nomatch ok.1)⟩
  | ok u => exact ⟨fun ok => ⟨rfl, ok⟩, fun ok => ok.2⟩

/-- What `date` checks. -/
theorem date_ok_iff (year month day hour minute second nanosecond offset : Int) (d : DateTime) :
    date year month day hour minute second nanosecond offset = .ok d ↔
      d = ⟨year, month, day, hour, minute, second, nanosecond, offset⟩ ∧ d.Valid ∧
        (0 ≤ d.nanosecond ∧ d.nanosecond ≤ 999999999) ∧ -86400 < d.offset ∧ d.offset < 86400 := by
  unfold date
  simp only [bind_unit_ok_iff, inRange_ok_iff]
  by_cases out : offset ≤ 0 - secondsPerDay ∨ offset ≥ secondsPerDay
  · rw [if_pos out]
    refine ⟨fun ok => absurd ok.2.2.2.2.2.2 (errf_ne_ok _ _), fun ok => ?_⟩
    obtain ⟨rfl, -, -, above, below⟩ := ok
    unfold secondsPerDay at out
    dsimp only at above below
    omega
  · rw [if_neg out]
    unfold secondsPerDay at out
    constructor
    · intro ok
      obtain ⟨month, day, hour, minute, second, nanosecond, built⟩ := ok
      cases built
      exact ⟨rfl, ⟨⟨month, day⟩, hour, minute, second⟩, nanosecond, by dsimp only; omega, by dsimp only; omega⟩
    · intro ok
      obtain ⟨rfl, valid, nanosecond, -⟩ := ok
      exact ⟨valid.isDate.month, valid.isDate.day, valid.hour, valid.minute, valid.second, nanosecond, rfl⟩

theorem fromUnixSecondsAt_valid (secs nanosecond offset : Int) :
    (fromUnixSecondsAt secs nanosecond offset).Valid := by
  unfold fromUnixSecondsAt secondsPerDay
  dsimp only
  refine ⟨civilFromDays_isDate _, ?_, ?_, ?_⟩
  · dsimp only
    omega
  · dsimp only
    omega
  · dsimp only
    omega

theorem Built.valid (h : Built d) : d.Valid := by
  cases h with
  | date ok => exact ((date_ok_iff _ _ _ _ _ _ _ _ _).mp ok).2.1
  | unix secs nanosecond offset => exact fromUnixSecondsAt_valid secs nanosecond offset

/-! ### Numbers -/

/-- Digits to a width, with the number they say. -/
structure Number (width : Nat) (v : Int) (p : Bytes) : Prop where
  length : p.length = width
  digits : p.all Voila.Rt.isDigit = true
  value : (readNat p : Int) = v

theorem isDigit_eq (c : UInt8) : isDigit c = Voila.Rt.isDigit c := by
  unfold isDigit Voila.Rt.isDigit
  rw [Bool.decide_and]
  rfl

theorem isDigit_le (h : isDigit c = true) : 48 ≤ c.toNat := (of_decide_eq_true h).1

/-- The loop reads digits as the number they say. -/
theorem digitsLoop_iff (n : Nat) (p : Bytes) (v : Int) : digitsLoop n p = some v ↔
    p.all Voila.Rt.isDigit = true ∧ ((p.foldl (fun n b => 10 * n + (b.toNat - 48)) n : Nat) : Int) = v := by
  induction p generalizing n with
  | nil => simp [digitsLoop]
  | cons c p ih =>
    rw [digitsLoop, all_cons, ← isDigit_eq, foldl_cons]
    by_cases digit : isDigit c = true
    · have next : (n : Int) * 10 + (c.toNat - 48) = ((10 * n + (c.toNat - 48) : Nat) : Int) := by
        have := isDigit_le digit
        omega
      rw [if_pos digit, next, ih, digit, Bool.true_and]
    · rw [if_neg digit, Bool.eq_false_iff.mpr digit, Bool.false_and]
      exact iff_of_false nofun (fun h => nomatch h.1)

theorem zeros_isDigit (k : Nat) : (List.replicate k (ch '0')).all Voila.Rt.isDigit = true := by
  rw [all_eq_true]
  intro c hc
  rw [(mem_replicate.mp hc).2]
  decide

theorem zeros_value (k : Nat) :
    (List.replicate k (ch '0')).foldl (fun n b => 10 * n + (b.toNat - 48)) 0 = 0 := by
  induction k with
  | zero => rfl
  | succ k ih =>
    rw [replicate_succ, foldl_cons]
    exact ih

/-- An `int` that fits is padded with zeros. -/
theorem padInt_of (width n : Nat) :
    padInt width n = List.replicate (width - (printNat n).length) (ch '0') ++ printNat n := by
  unfold padInt
  dsimp only
  rw [Voila.Http.intText_nat]
  by_cases full : width ≤ (printNat n).length
  · rw [if_pos full, Nat.sub_eq_zero_of_le full]
    rfl
  · rw [if_neg full, if_neg (by omega)]

theorem padInt_number (width : Nat) (pos : 0 < width) (h0 : 0 ≤ v) (h1 : v < 10 ^ width) :
    Number width v (padInt width v) := by
  obtain ⟨n, rfl⟩ : ∃ n : Nat, v = n := ⟨v.toNat, (Int.toNat_of_nonneg h0).symm⟩
  have fits : n < 10 ^ width := by exact_mod_cast h1
  obtain ⟨digits, -, value⟩ := Voila.Rt.printNat_digits n
  have short : (printNat n).length ≤ width := by
    unfold printNat
    split
    · exact pos
    · rw [length_map, length_reverse]
      exact (Nat.digits_length_le_iff (by norm_num) n).mpr fits
  rw [padInt_of]
  refine ⟨by rw [length_append, length_replicate]; omega, by rw [all_append, zeros_isDigit, digits]; rfl, ?_⟩
  rw [readNat, foldl_append, zeros_value]
  exact congrArg Nat.cast value

/-! ### Reading at a position -/

/-- A number is read at its position. -/
theorem digitsAt_of {s p post : Bytes} {pos n : Nat} (digits : 0 < n)
    (number : Number n v p) (h : s.drop pos = p ++ post) : digitsAt s pos n what = .ok v := by
  have fits := field_fits h
  rw [number.length] at fits
  unfold digitsAt
  rw [if_neg (by omega), take_field h number.length, show digitsLoop 0 p = some v from (digitsLoop_iff 0 p v).mpr ⟨number.digits, number.value⟩]

theorem digitsAt_ok {s : Bytes} {pos n : Nat} (h : digitsAt s pos n what = .ok v) :
    ∃ p, Number n v p ∧ s.drop pos = p ++ s.drop (pos + n) := by
  unfold digitsAt at h
  split at h
  · exact absurd h (errf_ne_ok _ _)
  · split at h
    · next fits v' reads =>
      cases h
      obtain ⟨digits, value⟩ := (digitsLoop_iff 0 _ v).mp reads
      refine ⟨_, ⟨?_, digits, value⟩, ?_⟩
      · rw [length_take, length_drop]
        omega
      · rw [← drop_drop, take_append_drop]
    · exact absurd h (errf_ne_ok _ _)

theorem literalAt_of {s post : Bytes}
    (h : s.drop pos = c :: post) : literalAt s pos c shown = .ok () := by
  unfold literalAt
  rw [if_neg (fun other => other (get_field h))]

theorem drop_of_get {s : Bytes} (h : s[pos]? = some c) : s.drop pos = c :: s.drop (pos + 1) := by
  obtain ⟨fits, rfl⟩ := List.getElem?_eq_some_iff.mp h
  exact drop_eq_getElem_cons fits

theorem literalAt_ok {s : Bytes} {u : Unit}
    (h : literalAt s pos c shown = .ok u) : s.drop pos = c :: s.drop (pos + 1) := by
  unfold literalAt at h
  split at h
  · exact absurd h (errf_ne_ok _ _)
  · next here => exact drop_of_get (not_not.mp here)

/-! ### The grammar -/

/-- A fraction of a second, of which nine digits count. -/
inductive Fraction : Int → Bytes → Prop
  | none : Fraction 0 []
  | digits {p : Bytes} (some_ : p ≠ []) (digits : p.all Voila.Rt.isDigit = true) :
      Fraction (readNat (p.take 9) * 10 ^ (9 - p.length)) (ch '.' :: p)

/-- A time zone, with its offset. -/
inductive Zone : Int → Bytes → Prop
  | zulu {z : UInt8} (hz : z = ch 'Z' ∨ z = ch 'z') : Zone 0 [z]
  | clock {z : UInt8} {oh om : Int} {h m : Bytes} (hz : z = ch '+' ∨ z = ch '-') (hour : Number 2 oh h)
      (minute : Number 2 om m) (hours : oh ≤ 23) (minutes : om ≤ 59) :
      Zone (if z = ch '-' then 0 - (oh * 3600 + om * 60) else oh * 3600 + om * 60) (z :: (h ++ ch ':' :: m))

/-- A day of the calendar with a time of that day, as it is written. -/
inductive Stamp : DateTime → Bytes → Prop
  | mk {d : DateTime} {y mo da h mi se f z : Bytes} {t : UInt8} (year : Number 4 d.year y)
      (month : Number 2 d.month mo) (day : Number 2 d.day da) (sep : t = ch 'T' ∨ t = ch 't' ∨ t = ch ' ')
      (hour : Number 2 d.hour h) (minute : Number 2 d.minute mi) (second : Number 2 d.second se)
      (fraction : Fraction d.nanosecond f) (zone : Zone d.offset z) (valid : d.Valid) :
      Stamp d (y ++ ch '-' :: (mo ++ ch '-' :: (da ++ t :: (h ++ ch ':' :: (mi ++ ch ':' :: (se ++ (f ++ z)))))))

/-! ### The fraction -/

theorem readFrom (n : Nat) (p : Bytes) :
    p.foldl (fun n b => 10 * n + (b.toNat - 48)) n = n * 10 ^ p.length + readNat p := by
  induction p generalizing n with
  | nil => simp [readNat]
  | cons c p ih =>
    rw [readNat, foldl_cons, foldl_cons, ih, ih (10 * 0 + _), length_cons, pow_succ]
    ring

theorem readNat_cons (c : UInt8) (p : Bytes) : readNat (c :: p) = (c.toNat - 48) * 10 ^ p.length + readNat p := by
  rw [readNat, foldl_cons, readFrom, mul_zero, zero_add]

/-- The loop over a fraction adds its digits, each a tenth of the one before, as long as they count. -/
theorem fractionLoop_digits {p rest : Bytes} (stop : ∀ c, rest.head? = some c → isDigit c = false)
    (digits : p.all Voila.Rt.isDigit = true) (k : Nat) (ns : Int) (seen : Bool) :
    fractionLoop (10 ^ k / 10) ns seen (p ++ rest) =
      (ns + readNat (p.take k) * 10 ^ (k - p.length), seen || !p.isEmpty, rest) := by
  induction p generalizing k ns seen with
  | nil =>
    rw [nil_append, take_nil, isEmpty_nil, Bool.not_true, Bool.or_false]
    have zero : ns + ((readNat [] : Nat) : Int) * 10 ^ (k - 0) = ns := by simp [readNat]
    rw [length_nil, zero]
    cases rest with
    | nil => rfl
    | cons c rest =>
      rw [fractionLoop, stop c rfl]
      rfl
  | cons c p ih =>
    rw [all_cons, Bool.and_eq_true, ← isDigit_eq] at digits
    obtain ⟨digit, digits⟩ := digits
    rw [cons_append, fractionLoop, if_pos digit, isEmpty_cons, Bool.not_false, Bool.or_true]
    cases k with
    | zero =>
      have none_ : ¬ (10 : Int) ^ 0 / 10 > 0 := by decide
      rw [if_neg none_, ih digits 0 ns true, take_zero, take_zero, Nat.zero_sub, Nat.zero_sub, Bool.true_or]
    | succ k =>
      have scale : (10 : Int) ^ (k + 1) / 10 = 10 ^ k := by
        rw [pow_succ, Int.mul_ediv_cancel _ (by norm_num)]
      have positive : (10 : Int) ^ k > 0 := by positivity
      have low := isDigit_le digit
      have split : (10 : Int) ^ k = 10 ^ (p.take k).length * 10 ^ (k - p.length) := by
        rw [← pow_add, length_take]
        congr 1
        omega
      rw [scale, if_pos positive, ih digits k, take_succ_cons, readNat_cons, length_cons,
        show k + 1 - (p.length + 1) = k - p.length from by omega]
      refine Prod.ext ?_ (Prod.ext rfl rfl)
      dsimp only
      push_cast [low]
      rw [split]
      ring

/-- A fraction is read up to what is no part of it. -/
theorem parseFraction_of {s f rest : Bytes} (fraction : Fraction ns f)
    (stop : ∀ c, rest.head? = some c → isDigit c = false ∧ c ≠ ch '.') :
    parseFraction s (f ++ rest) = .ok (ns, rest) := by
  unfold parseFraction
  cases fraction with
  | none => exact if_neg fun point => (stop _ point).2 rfl
  | @digits p some_ digits =>
    have loop := fractionLoop_digits (fun c hc => (stop c hc).1) digits 9 0 false
    have notEmpty : p.isEmpty = false := by simpa using some_
    rw [show (10 : Int) ^ 9 / 10 = 100000000 from rfl, notEmpty, zero_add] at loop
    rw [cons_append, head?_cons, if_pos rfl, tail_cons, loop]
    rfl

theorem parseFraction_ok {s rest rest' : Bytes} (h : parseFraction s rest = .ok (ns, rest')) :
    ∃ f, Fraction ns f ∧ rest = f ++ rest' := by
  unfold parseFraction at h
  split at h
  · next point =>
    obtain ⟨rest, rfl⟩ : ∃ r, rest = ch '.' :: r := by
      cases rest with
      | nil => cases point
      | cons c r => exact ⟨r, by rw [Option.some.inj point]⟩
    have digits : (rest.takeWhile Voila.Rt.isDigit).all Voila.Rt.isDigit = true := all_takeWhile
    have stop : ∀ c, (rest.dropWhile Voila.Rt.isDigit).head? = some c → isDigit c = false := by
      intro c hc
      rw [isDigit_eq]
      exact Bool.eq_false_iff.mpr fun digit => by
        have := head?_dropWhile_not Voila.Rt.isDigit rest
        rw [hc] at this
        simp [digit] at this
    have loop := fractionLoop_digits stop digits 9 0 false
    rw [takeWhile_append_dropWhile, show (10 : Int) ^ 9 / 10 = 100000000 from rfl, zero_add, Bool.false_or] at loop
    rw [tail_cons, loop] at h
    cases empty : (rest.takeWhile Voila.Rt.isDigit).isEmpty with
    | true =>
      rw [empty] at h
      exact absurd h (errf_ne_ok _ _)
    | false =>
      rw [empty] at h
      cases h
      exact ⟨_, .digits (by simpa using empty) digits, by rw [cons_append, takeWhile_append_dropWhile]⟩
  · cases h
    exact ⟨[], .none, rfl⟩

/-! ### The offset -/

theorem hours_number {a : Int} (h0 : 0 ≤ a) (h1 : a < 86400) : Number 2 (a / 3600) (padInt 2 (a / 3600)) :=
  padInt_number _ (by decide) (by omega) (by omega)

theorem minutes_number (a : Int) : Number 2 (a % 3600 / 60) (padInt 2 (a % 3600 / 60)) :=
  padInt_number _ (by decide) (by omega) (by omega)

/-- The first byte of an offset is neither a digit nor a point. -/
theorem Zone.head (zone : Zone off z) (c : UInt8) (h : z.head? = some c) :
    isDigit c = false ∧ c ≠ ch '.' := by
  cases zone with
  | zulu hz =>
    cases h
    rcases hz with rfl | rfl <;> decide
  | clock hz =>
    cases h
    rcases hz with rfl | rfl <;> decide

theorem Zone.length_pos (zone : Zone off z) : 0 < z.length := by
  cases zone with
  | zulu | clock => exact Nat.zero_lt_succ _

theorem offsetText_zone (minutes : off % 60 = 0) (h0 : -86400 < off) (h1 : off < 86400) :
    Zone off (offsetText off) := by
  unfold offsetText
  by_cases zulu : off = 0
  · rw [if_pos zulu, zulu]
    exact .zulu (.inl rfl)
  · rw [if_neg zulu]
    dsimp only
    have clock {a : Int} {z : UInt8} (hz : z = ch '+' ∨ z = ch '-') (h0 : 0 ≤ a) (h1 : a < 86400)
        (minutes : a % 60 = 0) (is : off = if z = ch '-' then 0 - a else a) :
        Zone off (z :: (padInt 2 (a / 3600) ++ ch ':' :: padInt 2 (a % 3600 / 60))) := by
      have zone := Zone.clock hz (hours_number h0 h1) (minutes_number a) (by omega) (by omega)
      rwa [show a / 3600 * 3600 + a % 3600 / 60 * 60 = a from by omega, ← is] at zone
    by_cases negative : off < 0
    · rw [if_pos negative, if_pos negative]
      exact clock (.inr rfl) (by omega) (by omega) (by omega) (by rw [if_pos rfl]; omega)
    · rw [if_neg negative, if_neg negative]
      exact clock (.inl rfl) (by omega) (by omega) (by omega) (if_neg (by decide)).symm

/-- A time zone at the end of a text is read. -/
theorem parseZone_of {s z : Bytes} {i : Nat} (zone : Zone off z) (h : s.drop i = z) :
    parseZone s i = .ok (off, s.length) := by
  have length := congrArg List.length h
  rw [length_drop] at length
  unfold parseZone
  cases zone with
  | zulu hz =>
    rw [length_singleton] at length
    rw [get_field h]
    dsimp only
    rw [if_pos hz, show i + 1 = s.length from by omega]
  | @clock z oh om h' m hz hour minute hours minutes =>
    have notZulu : ¬ (z = ch 'Z' ∨ z = ch 'z') := by
      rcases hz with rfl | rfl <;> decide
    have hourAt := drop_succ h
    have colonAt := drop_field hourAt
    rw [hour.length] at colonAt
    have minuteAt : s.drop (i + 4) = m ++ [] := by
      rw [append_nil]
      exact drop_succ colonAt
    rw [length_cons, length_append, length_cons, hour.length, minute.length] at length
    rw [get_field h]
    dsimp only
    rw [if_neg notZulu, if_pos hz, if_neg (by omega)]
    refine bind_of (digitsAt_of (by decide) hour hourAt) (bind_of (literalAt_of colonAt)
      (bind_of (digitsAt_of (by decide) minute minuteAt) ?_))
    rw [if_neg (by omega), if_neg (by omega), show i + 6 = s.length from by omega]

theorem parseZone_ok {s : Bytes} {i j : Nat} (h : parseZone s i = .ok (off, j)) :
    ∃ z, Zone off z ∧ s.drop i = z ++ s.drop j := by
  unfold parseZone at h
  split at h
  · exact absurd h (errf_ne_ok _ _)
  · next z here =>
    have at_ := drop_of_get here
    split at h
    · next zulu =>
      cases h
      exact ⟨[z], .zulu zulu, at_⟩
    · split at h
      · next sign =>
        split at h
        · exact absurd h (errf_ne_ok _ _)
        · obtain ⟨oh, hour, h⟩ := bind_eq_ok h
          obtain ⟨u, colon, h⟩ := bind_eq_ok h
          obtain ⟨om, minute, h⟩ := bind_eq_ok h
          obtain ⟨hp, hour, hourAt⟩ := digitsAt_ok hour
          obtain ⟨mp, minute, minuteAt⟩ := digitsAt_ok minute
          split at h
          · exact absurd h (errf_ne_ok _ _)
          · split at h
            · exact absurd h (errf_ne_ok _ _)
            · cases h
              refine ⟨_, .clock sign hour minute (by omega) (by omega), ?_⟩
              rw [at_, hourAt, literalAt_ok colon, minuteAt]
              simp
      · exact absurd h (errf_ne_ok _ _)

/-! ### The texts that are parsed -/

theorem readNat_lt (p : Bytes) (digits : p.all Voila.Rt.isDigit = true) : readNat p < 10 ^ p.length := by
  induction p with
  | nil => decide
  | cons c p ih =>
    rw [all_cons, Bool.and_eq_true] at digits
    have high : c.toNat ≤ 57 := by
      have digit := digits.1
      unfold Voila.Rt.isDigit at digit
      rw [Bool.and_eq_true, decide_eq_true_eq, decide_eq_true_eq] at digit
      exact digit.2
    have more := ih digits.2
    have first : (c.toNat - 48) * 10 ^ p.length ≤ 9 * 10 ^ p.length := Nat.mul_le_mul_right _ (by omega)
    rw [readNat_cons, length_cons, pow_succ]
    omega

theorem checked_ok_iff (s : Bytes) (r : Except Fail DateTime) (d : DateTime) :
    checked s r = .ok d ↔ r = .ok d := by
  unfold checked
  split
  · next msg =>
      exact ⟨fun ok => absurd ok (errf_ne_ok _ d), fun ok => (nomatch ok)⟩
  · exact Iff.rfl

theorem Fraction.range (h : Fraction ns f) : 0 ≤ ns ∧ ns ≤ 999999999 := by
  cases h with
  | none => decide
  | @digits p some_ digits =>
    have most := readNat_lt (p.take 9) (all_eq_true.mpr fun c hc => all_eq_true.mp digits c (mem_of_mem_take hc))
    have scaled : readNat (p.take 9) * 10 ^ (9 - p.length) < 10 ^ (p.take 9).length * 10 ^ (9 - p.length) :=
      Nat.mul_lt_mul_of_pos_right most (by positivity)
    rw [← pow_add, length_take, show min 9 p.length + (9 - p.length) = 9 from by omega] at scaled
    refine ⟨by positivity, ?_⟩
    have whole : ((readNat (p.take 9) * 10 ^ (9 - p.length) : Nat) : Int) < ((10 ^ 9 : Nat) : Int) := Int.ofNat_lt.mpr scaled
    push_cast at whole
    omega

theorem Zone.range (h : Zone off z) : -86400 < off ∧ off < 86400 := by
  cases h with
  | zulu => decide
  | clock hz hour minute hours minutes =>
    have := hour.value
    have := minute.value
    split <;> omega

/-- A text of the grammar is parsed. -/
theorem parseRfc3339_of {s : Bytes} (h : Stamp d s) : parseRfc3339 s = .ok d := by
  obtain ⟨t, ht⟩ : ∃ t, t = s := ⟨s, rfl⟩
  cases h with
  | @mk y mo da h mi se f z sep year month day seps hour minute second fraction zone valid =>
    rw [← ht]
    -- what follows each position of the text
    have at0 : t.drop 0 = _ := ht
    have at4 := drop_field at0
    rw [year.length] at at4
    have at5 := drop_succ at4
    have at7 := drop_field at5
    rw [month.length] at at7
    have at8 := drop_succ at7
    have at10 := drop_field at8
    rw [day.length] at at10
    have at11 := drop_succ at10
    have at13 := drop_field at11
    rw [hour.length] at at13
    have at14 := drop_succ at13
    have at16 := drop_field at14
    rw [minute.length] at at16
    have at17 := drop_succ at16
    have at19 := drop_field at17
    rw [second.length] at at19
    have zoneAt := drop_field at19
    have fits := field_fits at19
    have some_ := zone.length_pos
    have position : t.length - z.length = 19 + f.length := by omega
    have built := (date_ok_iff d.year d.month d.day d.hour d.minute d.second d.nanosecond d.offset d).mpr
      ⟨rfl, valid, fraction.range, zone.range⟩
    have sepAt := get_field at10
    unfold parseRfc3339
    rw [if_neg (by omega), at19]
    refine bind_of (digitsAt_of (by decide) year at0) (bind_of (literalAt_of at4)
      (bind_of (digitsAt_of (by decide) month at5) (bind_of (literalAt_of at7)
        (bind_of (digitsAt_of (by decide) day at8) ?_))))
    rw [if_neg (by rw [sepAt]; simpa [and_assoc, imp_iff_not_or] using seps)]
    refine bind_of (digitsAt_of (by decide) hour at11) (bind_of (literalAt_of at13)
      (bind_of (digitsAt_of (by decide) minute at14) (bind_of (literalAt_of at16)
        (bind_of (digitsAt_of (by decide) second at17) (bind_of (parseFraction_of fraction zone.head) ?_)))))
    dsimp only
    rw [position]
    refine bind_of (parseZone_of zone zoneAt) ?_
    dsimp only
    rw [if_neg (fun trailing => trailing rfl), checked_ok_iff]
    exact built

/-- What is parsed is a text of the grammar. -/
theorem parseRfc3339_ok {s : Bytes} (h : parseRfc3339 s = .ok d) : Stamp d s := by
  unfold parseRfc3339 at h
  split at h
  · exact absurd h (errf_ne_ok _ d)
  · next long =>
    obtain ⟨year, hyear, h⟩ := bind_eq_ok h
    obtain ⟨_, at4, h⟩ := bind_eq_ok h
    obtain ⟨month, hmonth, h⟩ := bind_eq_ok h
    obtain ⟨_, at7, h⟩ := bind_eq_ok h
    obtain ⟨day, hday, h⟩ := bind_eq_ok h
    split at h
    · exact absurd h (errf_ne_ok _ d)
    · next sep =>
      obtain ⟨hour, hhour, h⟩ := bind_eq_ok h
      obtain ⟨_, at13, h⟩ := bind_eq_ok h
      obtain ⟨minute, hminute, h⟩ := bind_eq_ok h
      obtain ⟨_, at16, h⟩ := bind_eq_ok h
      obtain ⟨second, hsecond, h⟩ := bind_eq_ok h
      obtain ⟨⟨nanosecond, rest⟩, hfraction, h⟩ := bind_eq_ok h
      obtain ⟨⟨offset, i⟩, hzone, h⟩ := bind_eq_ok h
      dsimp only at h hzone
      split at h
      · exact absurd h (errf_ne_ok _ d)
      · next whole =>
        obtain ⟨rfl, valid, -⟩ := (date_ok_iff _ _ _ _ _ _ _ _ _).mp ((checked_ok_iff s _ d).mp h)
        obtain ⟨y, hyear, at0⟩ := digitsAt_ok hyear
        obtain ⟨mo, hmonth, at5⟩ := digitsAt_ok hmonth
        obtain ⟨da, hday, at8⟩ := digitsAt_ok hday
        obtain ⟨ho, hhour, at11⟩ := digitsAt_ok hhour
        obtain ⟨mi, hminute, at14⟩ := digitsAt_ok hminute
        obtain ⟨se, hsecond, at17⟩ := digitsAt_ok hsecond
        obtain ⟨f, hfraction, at19⟩ := parseFraction_ok hfraction
        obtain ⟨z, hzone, atZone⟩ := parseZone_ok hzone
        obtain ⟨t, at10⟩ : ∃ t, s[10]? = some t := ⟨_, List.getElem?_eq_getElem (by omega)⟩
        have seps : t = ch 'T' ∨ t = ch 't' ∨ t = ch ' ' := by
          rw [at10] at sep
          simpa [and_assoc, imp_iff_not_or] using sep
        have zone : rest = z := by
          have fits := field_fits at19
          rw [not_not.mp whole, drop_length, append_nil,
            show s.length - rest.length = 19 + f.length from by omega, drop_field at19] at atZone
          exact atZone
        have text : s = y ++ ch '-' :: (mo ++ ch '-' :: (da ++ t :: (ho ++ ch ':' :: (mi ++ ch ':' ::
            (se ++ (f ++ z)))))) := by
          rw [← zone, ← at19, ← at17, ← literalAt_ok at16, ← at14, ← literalAt_ok at13, ← at11, ← drop_of_get at10, ← at8,
            ← literalAt_ok at7, ← at5, ← literalAt_ok at4, ← at0]
          rfl
        rw [text]
        exact .mk hyear hmonth hday seps hhour hminute hsecond hfraction hzone valid

/-! ### The round trip -/

theorem fraction_of_number (number : Number w v p) (some_ : 0 < w) (most : w ≤ 9) :
    Fraction (v * 10 ^ (9 - w)) (ch '.' :: p) := by
  have length := number.length
  have fraction := Fraction.digits (p := p) (fun empty => by rw [empty] at length; simp at length; omega) number.digits
  rwa [take_of_length_le (by omega), number.value, length] at fraction

theorem fractionText_fraction (h0 : 0 ≤ ns) (h1 : ns ≤ 999999999) : Fraction ns (fractionText ns) := by
  unfold fractionText
  split
  · next zero => exact zero ▸ .none
  · split
    · next millis =>
      have fraction := fraction_of_number (padInt_number 3 (v := ns / 1000000) (by decide) (by omega) (by omega))
        (by decide) (by decide)
      rwa [show ns / 1000000 * 10 ^ (9 - 3) = ns from by norm_num; omega] at fraction
    · split
      · next micros =>
        have fraction := fraction_of_number (padInt_number 6 (v := ns / 1000) (by decide) (by omega) (by omega))
          (by decide) (by decide)
        rwa [show ns / 1000 * 10 ^ (9 - 6) = ns from by norm_num; omega] at fraction
      · have fraction := fraction_of_number (padInt_number 9 (v := ns) (by decide) h0 (by omega)) (by decide) (by decide)
        rwa [show ns * 10 ^ (9 - 9) = ns from by norm_num] at fraction

/-- A day with a time of it is written as the grammar has it. -/
theorem rfc3339_stamp (valid : d.Valid) (year : 0 ≤ d.year ∧ d.year ≤ 9999)
    (nanosecond : 0 ≤ d.nanosecond ∧ d.nanosecond ≤ 999999999) (minutes : d.offset % 60 = 0)
    (h0 : -86400 < d.offset) (h1 : d.offset < 86400) : Stamp d d.rfc3339 := by
  have two : ∀ {v : Int}, 0 ≤ v → v < 100 → Number 2 v (padInt 2 v) := fun h h' => padInt_number _ (by decide) h h'
  have month := valid.isDate.month
  have day := valid.isDate.day
  have longest := daysInMonth_le d.year d.month
  have hour := valid.hour
  have minute := valid.minute
  have second := valid.second
  exact .mk (padInt_number _ (by decide) year.1 (by omega)) (two (by omega) (by omega)) (two (by omega) (by omega))
    (.inl rfl) (two hour.1 (by omega)) (two minute.1 (by omega)) (two second.1 (by omega))
    (fractionText_fraction nanosecond.1 nanosecond.2) (offsetText_zone minutes h0 h1) valid

theorem Stamp.nanosecond {s : Bytes} (h : Stamp d s) : 0 ≤ d.nanosecond ∧ d.nanosecond ≤ 999999999 := by
  cases h with
  | mk _ _ _ _ _ _ _ fraction => exact fraction.range

/-- A built `DateTime` of four year digits and a whole number of minutes off UTC is parsed from its text
exactly if its nanoseconds are those of a second. -/
theorem rfc3339_parses_iff {d : DateTime} (built : Built d) (year : 0 ≤ d.year ∧ d.year ≤ 9999)
    (minutes : d.offset % 60 = 0) (day : -86400 < d.offset ∧ d.offset < 86400) :
    parseRfc3339 d.rfc3339 = .ok d ↔ 0 ≤ d.nanosecond ∧ d.nanosecond ≤ 999999999 :=
  ⟨fun parsed => (parseRfc3339_ok parsed).nanosecond, fun nanosecond =>
    parseRfc3339_of (rfc3339_stamp built.valid year nanosecond minutes day.1 day.2)⟩

/-- The last half second of 1969 in UTC, written half an hour to the west of it. -/
theorem rfc3339_parses_west :
    parseRfc3339 (fromUnixNanosAt (-500000000) (-1800)).rfc3339 =
      .ok ⟨1969, 12, 31, 23, 29, 59, 500000000, -1800⟩ :=
  (rfc3339_parses_iff (Built.unix (-1) 500000000 (-1800)) (by decide) (by decide) (by decide)).mpr (by decide)

/-- A second of nanoseconds is written as one tenth of it. -/
theorem wholeSecond_not_parsed :
    Built (fromUnixSecondsAt 0 1000000000 0) ∧ (fromUnixSecondsAt 0 1000000000 0).year = 1970 ∧
      (fromUnixSecondsAt 0 1000000000 0).offset = 0 ∧
      parseRfc3339 (fromUnixSecondsAt 0 1000000000 0).rfc3339 ≠ .ok (fromUnixSecondsAt 0 1000000000 0) := by
  refine ⟨Built.unix 0 1000000000 0, by decide, by decide, fun parsed => ?_⟩
  have within := (parseRfc3339_ok parsed).nanosecond.2
  revert within
  decide

/-! ### The texts that are refused -/

theorem Number.plain (h : Number w v p) : Plain p := by
  rintro b member rfl
  exact absurd (all_eq_true.mp h.digits _ member) (by decide)

theorem padInt_plain (width : Nat) (v : Int) : Plain (padInt width v) := by
  have zeros (n : Nat) : Plain (List.replicate n (ch '0')) := fun b member => by
    rw [eq_of_mem_replicate member]
    decide
  have digits := intText_plain v.natAbs
  rw [Voila.Http.intText_nat] at digits
  unfold padInt
  dsimp only
  split_ifs
  · exact intText_plain v
  · exact plain_cons.mpr ⟨by decide, plain_append.mpr ⟨zeros _, digits⟩⟩
  · exact plain_append.mpr ⟨zeros _, intText_plain v⟩

theorem Zone.plain (h : Zone off z) : Plain z := by
  cases h with
  | zulu hz =>
    rcases hz with rfl | rfl <;> exact plain_cons.mpr ⟨by decide, nofun⟩
  | clock hz hour minute =>
    refine plain_cons.mpr ⟨?_, plain_append.mpr ⟨hour.plain, plain_cons.mpr ⟨by decide, minute.plain⟩⟩⟩
    rcases hz with rfl | rfl <;> decide

theorem Fraction.plain (h : Fraction ns f) : Plain f := by
  cases h with
  | none => exact nofun
  | digits _ digits =>
    refine plain_cons.mpr ⟨by decide, ?_⟩
    rintro b member rfl
    exact absurd (all_eq_true.mp digits _ member) (by decide)

theorem Stamp.plain {s : Bytes} (h : Stamp d s) : Plain s := by
  cases h with
  | mk year month day sep hour minute second fraction zone =>
    simp only [plain_append, plain_cons]
    refine ⟨year.plain, by decide, month.plain, by decide, day.plain, ?_, hour.plain, by decide, minute.plain,
      by decide, second.plain, fraction.plain, zone.plain⟩
    rcases sep with rfl | rfl | rfl <;> decide

attribute [local simp] plain_append intText_plain padInt_plain lit_plain

/-- A result, or an error whose format has the verbs of the text. -/
def Tells {α : Type} (s : Bytes) (r : Except Fail α) : Prop :=
  (∃ a, r = .ok a) ∨ ∃ fmt, r = errf fmt ∧ (Safe fmt ↔ Safe s)

section

variable {α β : Type} {s pre post : Bytes}

theorem Tells.ok (a : α) : Tells s (.ok a : Except Fail α) := .inl ⟨a, rfl⟩

theorem Tells.bind {x : Except Fail α} {f : α → Except Fail β} (first : Tells s x)
    (next : ∀ a, x = .ok a → Tells s (f a)) : Tells s (x >>= f) := by
  rcases first with ⟨a, rfl⟩ | ⟨fmt, rfl, same⟩
  · exact next a rfl
  · exact .inr ⟨fmt, errf_bind fmt f, same⟩

/-- The text stands between texts without verbs. -/
theorem Tells.errf (hpre : Plain pre) (hpost : Plain post) (some_ : post ≠ []) :
    Tells s (errf (pre ++ s ++ post) : Except Fail α) := .inr ⟨_, rfl, Http.safe_between hpre hpost some_⟩

/-- The text stands in front of a message without verbs. -/
theorem Tells.message {m : Bytes} (hpre : Plain pre) (hpost : Plain post) (hm : Plain m) (some_ : post ≠ []) :
    Tells s (Http.errf (pre ++ s ++ post ++ m) : Except Fail α) := by
  rw [append_assoc]
  exact .errf hpre (plain_append.mpr ⟨hpost, hm⟩) (append_ne_nil_of_left_ne_nil some_ m)

theorem digitsAt_tells (s : Bytes) (pos n : Nat) {what : Bytes} (h : Plain what) : Tells s (digitsAt s pos n what) := by
  unfold digitsAt
  split
  · exact .message (by simp) (by simp) h (by decide)
  · split
    · exact .ok _
    · exact .errf (by simp [h]) (by simp) (by decide)

theorem literalAt_tells (s : Bytes) (pos : Nat) (c : UInt8) {shown : Bytes} (h : Plain shown) :
    Tells s (literalAt s pos c shown) := by
  unfold literalAt
  split
  · exact .errf (by simp [h]) (by simp) (by decide)
  · exact .ok _

theorem parseFraction_tells (s rest : Bytes) : Tells s (parseFraction s rest) := by
  unfold parseFraction
  split
  · split
    · exact .ok _
    · exact .errf (by simp) (by simp) (by decide)
  · exact .ok _

theorem parseZone_tells (s : Bytes) (i : Nat) : Tells s (parseZone s i) := by
  unfold parseZone
  split
  · exact .errf (by simp) (by simp) (by decide)
  · split
    · exact .ok _
    · split
      · split
        · exact .errf (by simp) (by simp) (by decide)
        · refine (digitsAt_tells s _ 2 (by simp)).bind fun oh _ => (literalAt_tells s _ _ (by simp)).bind fun _ _ =>
            (digitsAt_tells s _ 2 (by simp)).bind fun om _ => ?_
          split
          · exact .errf (by simp) (by simp) (by decide)
          · split
            · exact .errf (by simp) (by simp) (by decide)
            · exact .ok _
      · exact .errf (by simp) (by simp) (by decide)

/-- A result, or an error value without verbs. -/
def Told (r : Except Fail α) : Prop := (∃ a, r = .ok a) ∨ ∃ msg, r = .error (.err msg) ∧ Plain msg

variable {msg : Bytes}

theorem Told.errf (h : Plain msg) : Told (Http.errf msg : Except Fail α) := by
  refine .inr ⟨msg, ?_, h⟩
  rw [Http.errf, h.sprintf]

theorem inRange_told (v lo hi : Int) (h : Plain msg) {y : Except Fail α} (next : Told y) :
    Told (inRange v lo hi msg >>= fun _ => y) := by
  unfold inRange
  split
  · rw [errf_bind]
    exact .errf h
  · exact next

theorem date_told (year month day hour minute second nanosecond offset : Int) :
    Told (date year month day hour minute second nanosecond offset) := by
  unfold date
  refine inRange_told _ _ _ (by simp) (inRange_told _ _ _ (by simp [plain_cons, ch]) (inRange_told _ _ _ (by simp)
    (inRange_told _ _ _ (by simp) (inRange_told _ _ _ (by simp) (inRange_told _ _ _ (by simp) ?_)))))
  split
  · exact .errf (by simp)
  · exact .inl ⟨_, rfl⟩

theorem checked_tells (s : Bytes) {r : Except Fail DateTime} (h : Told r) : Tells s (checked s r) := by
  rcases h with ⟨d, rfl⟩ | ⟨msg, rfl, plain⟩
  · exact .ok d
  · exact .message (by simp) (by simp) plain (by decide)

end

/-- What trails a text that reads as a date and a time has the verbs of the text. -/
theorem trailing_safe {s : Bytes} {i j : Nat} (h : parseZone s i = .ok (off, j)) (safe : Safe s) :
    Safe (s.drop j) := by
  obtain ⟨z, zone, at_⟩ := parseZone_ok h
  obtain ⟨z, c, rfl⟩ := (eq_nil_or_concat' z).resolve_left (ne_nil_of_length_pos zone.length_pos)
  have last := (plain_append.mp zone.plain).2 c (mem_singleton_self c)
  rw [← take_append_drop i s, at_, append_assoc, ← append_assoc, singleton_append,
    safe_append_iff last] at safe
  exact safe.2

/-- A text is parsed, or the verbs of the error's format are those of the text. -/
theorem parseRfc3339_tells (s : Bytes) : Tells s (parseRfc3339 s) := by
  unfold parseRfc3339
  split
  · exact .errf (by simp) (by simp) (by decide)
  · refine (digitsAt_tells s 0 4 (by simp)).bind fun year _ => (literalAt_tells s 4 _ (by simp)).bind fun _ _ =>
      (digitsAt_tells s 5 2 (by simp)).bind fun month _ => (literalAt_tells s 7 _ (by simp)).bind fun _ _ =>
        (digitsAt_tells s 8 2 (by simp)).bind fun day _ => ?_
    split
    · exact .errf (by simp) (by simp) (by decide)
    · refine (digitsAt_tells s 11 2 (by simp)).bind fun hour _ => (literalAt_tells s 13 _ (by simp)).bind fun _ _ =>
        (digitsAt_tells s 14 2 (by simp)).bind fun minute _ => (literalAt_tells s 16 _ (by simp)).bind fun _ _ =>
          (digitsAt_tells s 17 2 (by simp)).bind fun second _ => (parseFraction_tells s _).bind fun (ns, rest) _ =>
            (parseZone_tells s _).bind fun (offset, i) zone => ?_
      dsimp only
      split
      · refine .inr ⟨_, rfl, ?_⟩
        rw [append_assoc, append_assoc, append_assoc, Plain.safe_append (by simp),
          safe_append_lit (by decide) (by decide), safe_append_end (by decide) (by decide)]
        exact and_iff_right_of_imp (trailing_safe zone)
      · exact checked_tells s (date_told ..)

/-- What is asked of `parse_rfc3339` for a text. -/
structure Parses (s : Bytes) : Prop where
  accepts : ∀ d, parseRfc3339 s = .ok d ↔ Stamp d s
  calm : (∃ d, parseRfc3339 s = .ok d) ∨ ∃ msg, parseRfc3339 s = .error (.err msg)

/-- The texts of the grammar are parsed, and no others, always; another text is refused with an error value exactly if
no `%` in it stands alone. -/
theorem parses_iff (s : Bytes) : Parses s ↔ Safe s := by
  have accepts : ∀ d, parseRfc3339 s = .ok d ↔ Stamp d s := fun d => ⟨parseRfc3339_ok, parseRfc3339_of⟩
  rcases parseRfc3339_tells s with ⟨d, ok⟩ | ⟨fmt, refused, same⟩
  · exact iff_of_true ⟨accepts, .inl ⟨d, ok⟩⟩ (safe_of_plain (parseRfc3339_ok ok).plain)
  · rw [← same]
    constructor
    · rintro ⟨-, ⟨d, ok⟩ | ⟨msg, err⟩⟩
      · exact absurd (refused.symm.trans ok) (errf_ne_ok fmt d)
      · cases printed : sprintf fmt with
        | none => simp [refused, errf, printed] at err
        | some msg => rw [Safe, printed]; rfl
    · intro safe
      obtain ⟨msg, printed⟩ := Option.isSome_iff_exists.mp safe
      exact ⟨accepts, .inr ⟨msg, by rw [refused, errf, printed]⟩⟩

/-- A lone `%` is thrown. -/
theorem percent_thrown : ¬ Parses (lit "%") := fun h => absurd ((parses_iff _).mp h) (by decide)

end Voila.Time
