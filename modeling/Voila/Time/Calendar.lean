import Voila.Rt.Dur
import Voila.Time.Time

/-!
# Voila.Time.Calendar

`time.voi`: day numbers, Unix seconds and the addition of a duration.

The functions of the first half compute with integers. Those in `Checked` are the same with each sum,
difference and product an `int`: a result out of range aborts, which is `none` here. The quotients and
remainders are by positive constants and stay in range.
-/

namespace Voila.Time

open Voila.Rt (FitsInt64)

/-- `days_from_civil`. -/
def daysFromCivil (y0 m d : Int) : Int :=
  let y := if m ≤ 2 then y0 - 1 else y0
  let era := y / 400
  let yoe := y - era * 400
  let mp := if m ≤ 2 then m + 9 else m - 3
  let doy := (153 * mp + 2) / 5 + d - 1
  let doe := yoe * 365 + yoe / 4 - yoe / 100 + doy
  era * 146097 + doe - 719468

/-- `DateTime.unix`. -/
def DateTime.unix (t : DateTime) : Int :=
  let days := daysFromCivil t.year t.month t.day
  days * secondsPerDay + t.hour * 3600 + t.minute * 60 + t.second - t.offset

/-- `DateTime.unix_nanos`. -/
def DateTime.unixNanos (t : DateTime) : Int := t.unix * nsPerSecond + t.nanosecond

/-- `DateTime.add`, of a duration of `n` nanoseconds. -/
def DateTime.add (t : DateTime) (n : Int) : DateTime :=
  let ds := n / nsPerSecond
  let ns := t.nanosecond + n % nsPerSecond
  if nsPerSecond ≤ ns then fromUnixSecondsAt (t.unix + ds + 1) (ns - nsPerSecond) t.offset
  else fromUnixSecondsAt (t.unix + ds) ns t.offset

/-! ### With a check of each result -/

/-- A result as an `int`. -/
def int (n : Int) : Option Int := if FitsInt64 n then some n else none

namespace Checked

/-- `days_from_civil`. -/
def daysFromCivil (y0 m d : Int) : Option Int := do
  let y ← (if m ≤ 2 then int (y0 - 1) else some y0)
  let era := y / 400
  let first ← int (era * 400)
  let yoe ← int (y - first)
  let late ← int (m - 3)
  let mp ← (if m ≤ 2 then int (m + 9) else some late)
  let a ← int (153 * mp)
  let a ← int (a + 2)
  let a ← int (a / 5 + d)
  let doy ← int (a - 1)
  let b ← int (yoe * 365)
  let b ← int (b + yoe / 4)
  let b ← int (b - yoe / 100)
  let doe ← int (b + doy)
  let c ← int (era * 146097)
  let c ← int (c + doe)
  int (c - 719468)

/-- `civil_from_days`. -/
def civilFromDays (z0 : Int) : Option (Int × Int × Int) := do
  let z ← int (z0 + 719468)
  let era := z / 146097
  let first ← int (era * 146097)
  let doe ← int (z - first)
  let a ← int (doe - doe / 1460)
  let a ← int (a + doe / 36524)
  let a ← int (a - doe / 146096)
  let yoe := a / 365
  let b ← int (era * 400)
  let y ← int (yoe + b)
  let c ← int (365 * yoe)
  let c ← int (c + yoe / 4)
  let c ← int (c - yoe / 100)
  let doy ← int (doe - c)
  let e ← int (5 * doy)
  let e ← int (e + 2)
  let mp := e / 153
  let f ← int (153 * mp)
  let f ← int (f + 2)
  let f ← int (doy - f / 5)
  let d ← int (f + 1)
  let early ← int (mp + 3)
  let m ← (if 10 ≤ mp then int (mp - 9) else some early)
  if m ≤ 2 then do
    let y ← int (y + 1)
    some (y, m, d)
  else some (y, m, d)

/-- `from_unix_seconds_at`. -/
def fromUnixSecondsAt (secs nanosecond offset : Int) : Option DateTime := do
  let local_ ← int (secs + offset)
  let days := local_ / secondsPerDay
  let first ← int (days * secondsPerDay)
  let sod ← int (local_ - first)
  let (y, m, d) ← civilFromDays days
  some { year := y, month := m, day := d, hour := sod / 3600, minute := sod / 60 % 60, second := sod % 60,
         nanosecond, offset }

/-- `DateTime.unix`. -/
def unix (t : DateTime) : Option Int := do
  let days ← daysFromCivil t.year t.month t.day
  let s ← int (days * secondsPerDay)
  let h ← int (t.hour * 3600)
  let s ← int (s + h)
  let m ← int (t.minute * 60)
  let s ← int (s + m)
  let s ← int (s + t.second)
  int (s - t.offset)

/-- `DateTime.add`, of a duration of `n` nanoseconds. -/
def add (t : DateTime) (n : Int) : Option DateTime := do
  let ds := n / nsPerSecond
  let ns ← int (t.nanosecond + n % nsPerSecond)
  let carry : Int := if nsPerSecond ≤ ns then 1 else 0
  let ns ← (if nsPerSecond ≤ ns then int (ns - nsPerSecond) else some ns)
  let s ← unix t
  let s ← int (s + ds)
  let s ← int (s + carry)
  fromUnixSecondsAt s ns t.offset

end Checked

end Voila.Time

/-!
Day numbers and dates are mutually inverse and in the same order, a moment read at an offset is the
moment of that reading, and durations add up (`calendar_laws`).

The months are cells of the line of days, each as long as `days_in_month` says (`monthStart_succ`), so
that the number of a day grows with its date; what `civil_from_days` inverts is then the only date of a
number. With a check of each result the functions return just these values, as long as the start of the
era or of the day is an `int` (`Checked.civilFromDays_eq_some_iff`, `Checked.unix_eq_some_iff`).
-/

namespace Voila.Time

open Voila.Rt (FitsInt64)

/-! ### Months as cells of the line of days -/

/-- The first day of a year that begins in March, from the first day of year 0. -/
def yearStart (y : Int) : Int := 365 * y + y / 4 - y / 100 + y / 400

/-- The first day of a month, the months counted from March of year 0. -/
def monthStart (k : Int) : Int := yearStart (k / 12) + (153 * (k % 12) + 2) / 5

/-- The month of a date, counted from March of year 0. -/
def monthIndex (y m : Int) : Int := 12 * y + m - 3

variable {m y n : Int} {t : DateTime} {α : Type}

theorem monthIndex_div (h : 1 ≤ m ∧ m ≤ 12) : monthIndex y m / 12 = if m ≤ 2 then y - 1 else y := by
  unfold monthIndex
  split <;> omega

theorem monthIndex_mod (h : 1 ≤ m ∧ m ≤ 12) :
    monthIndex y m % 12 = if m ≤ 2 then m + 9 else m - 3 := by
  unfold monthIndex
  split <;> omega

/-- The eras of `days_from_civil` are years in a row. -/
theorem era_eq (y : Int) :
    y / 400 * 146097 + ((y - y / 400 * 400) * 365 + (y - y / 400 * 400) / 4 - (y - y / 400 * 400) / 100) =
      yearStart y := by
  unfold yearStart
  omega

theorem daysFromCivil_eq (d : Int) (h : 1 ≤ m ∧ m ≤ 12) :
    daysFromCivil y m d = monthStart (monthIndex y m) + d - 719469 := by
  have era := era_eq (if m ≤ 2 then y - 1 else y)
  unfold daysFromCivil monthStart
  rw [monthIndex_div h, monthIndex_mod h]
  dsimp only
  omega

theorem isLeapYear_iff (y : Int) : isLeapYear y = true ↔ y % 4 = 0 ∧ (y % 100 ≠ 0 ∨ y % 400 = 0) := by
  constructor
  · intro leap
    unfold isLeapYear at leap
    split at leap
    · cases leap
    · next four =>
        split at leap
        · next century => exact ⟨not_not.mp four, Or.inl century⟩
        · exact ⟨not_not.mp four, Or.inr (beq_iff_eq.mp leap)⟩
  · intro h
    exact isLeapYear_of h.1 h.2

/-- The leap day is the last day of a year that begins in March. -/
theorem yearStart_succ (y : Int) :
    yearStart (y + 1) = yearStart y + 337 + daysInMonth (y + 1) 2 := by
  unfold daysInMonth yearStart
  rw [if_pos rfl]
  by_cases leap : isLeapYear (y + 1) = true
  · rw [if_pos leap]
    rw [isLeapYear_iff] at leap
    omega
  · rw [if_neg leap]
    rw [isLeapYear_iff] at leap
    omega

/-- The months from March to December, as the quotient of `days_from_civil` spaces them. -/
theorem monthDays (h : 3 ≤ m ∧ m ≤ 12) :
    (153 * (m - 3 + 1) + 2) / 5 =
      (153 * (m - 3) + 2) / 5 + if m = 4 ∨ m = 6 ∨ m = 9 ∨ m = 11 then 30 else 31 := by
  obtain ⟨march, december⟩ := h
  interval_cases m <;> rfl

/-- A month ends where the next one starts. -/
theorem monthStart_succ (h : 1 ≤ m ∧ m ≤ 12) :
    monthStart (monthIndex y m + 1) = monthStart (monthIndex y m) + daysInMonth y m := by
  have months := monthIndex_mod (y := y) h
  have years := monthIndex_div (y := y) h
  by_cases february : m = 2
  · -- the next month begins a year
    have year := yearStart_succ (y - 1)
    have next : (monthIndex y m + 1) / 12 = y - 1 + 1 := by unfold monthIndex; omega
    have first : (monthIndex y m + 1) % 12 = 0 := by unfold monthIndex; omega
    unfold monthStart
    rw [next, first, months, years, if_pos (by omega), if_pos (by omega), year, february, sub_add_cancel]
    omega
  · have next : (monthIndex y m + 1) / 12 = monthIndex y m / 12 := by unfold monthIndex; omega
    have later : (monthIndex y m + 1) % 12 = monthIndex y m % 12 + 1 := by unfold monthIndex; omega
    have days : (153 * (monthIndex y m % 12 + 1) + 2) / 5 =
        (153 * (monthIndex y m % 12) + 2) / 5 + daysInMonth y m := by
      unfold daysInMonth
      rw [months, if_neg february]
      by_cases january : m ≤ 2
      · rw [if_pos january, if_neg (by omega)]
        omega
      · rw [if_neg january]
        exact monthDays (by omega)
    unfold monthStart
    rw [next, later, days, add_assoc]

theorem monthStart_le_succ (k : Int) : monthStart k ≤ monthStart (k + 1) := by
  have h : 1 ≤ (k + 2) % 12 + 1 ∧ (k + 2) % 12 + 1 ≤ 12 := by omega
  have step := monthStart_succ (y := (k + 2) / 12) h
  have index : monthIndex ((k + 2) / 12) ((k + 2) % 12 + 1) = k := by unfold monthIndex; omega
  have := daysInMonth_ge ((k + 2) / 12) ((k + 2) % 12 + 1)
  rw [index] at step
  omega

theorem monthStart_mono : Monotone monthStart := monotone_int_of_le_succ monthStart_le_succ

/-! ### Dates and day numbers -/

/-- A date is before another one. -/
def Before (a b : Int × Int × Int) : Prop :=
  a.1 < b.1 ∨ a.1 = b.1 ∧ (a.2.1 < b.2.1 ∨ a.2.1 = b.2.1 ∧ a.2.2 < b.2.2)

theorem before_total (a b : Int × Int × Int) : Before a b ∨ a = b ∨ Before b a := by
  obtain ⟨y, m, d⟩ := a
  obtain ⟨y', m', d'⟩ := b
  unfold Before
  rw [Prod.mk.injEq, Prod.mk.injEq]
  dsimp only
  omega

theorem daysFromCivil_lt {y m d y' m' d' : Int} (date : IsDate y m d) (date' : IsDate y' m' d')
    (h : Before (y, m, d) (y', m', d')) : daysFromCivil y m d < daysFromCivil y' m' d' := by
  rw [daysFromCivil_eq d date.month, daysFromCivil_eq d' date'.month]
  have within := date.day
  have within' := date'.day
  by_cases same : y = y' ∧ m = m'
  · obtain ⟨rfl, rfl⟩ := same
    unfold Before at h
    dsimp only at h
    omega
  · -- the earlier month ends before the later one starts
    have ends := monthStart_succ (y := y) date.month
    have apart : monthIndex y m + 1 ≤ monthIndex y' m' := by
      have := date.month
      have := date'.month
      unfold Before at h
      unfold monthIndex
      dsimp only at h
      omega
    have starts := monthStart_mono apart
    omega

theorem daysFromCivil_civilFromDays (z : Int) :
    daysFromCivil (civilFromDays z).1 (civilFromDays z).2.1 (civilFromDays z).2.2 = z := by
  obtain ⟨era, doe, yoe, doy, hera, hdoe, hyoe, hdoy, y0, y1, d0, d1, -⟩ := exists_day z
  obtain ⟨mp, hmp⟩ : ∃ mp, mp = (5 * doy + 2) / 153 := ⟨_, rfl⟩
  have inYear : 0 ≤ mp ∧ mp ≤ 11 := by omega
  have century : (yoe + era * 400) / 400 = era := by omega
  unfold civilFromDays
  dsimp only
  rw [← hera, ← hdoe, ← hyoe, ← hdoy, ← hmp]
  by_cases next : 10 ≤ mp
  · rw [if_pos next, if_pos (by omega)]
    unfold daysFromCivil
    dsimp only
    rw [if_pos (by omega), if_pos (by omega), add_sub_cancel_right, century, add_sub_cancel_right,
      sub_add_cancel]
    omega
  · rw [if_neg next, if_neg (by omega)]
    unfold daysFromCivil
    dsimp only
    rw [if_neg (by omega), if_neg (by omega), century, add_sub_cancel_right, add_sub_cancel_right]
    omega

theorem civilFromDays_daysFromCivil {y m d : Int} (date : IsDate y m d) :
    civilFromDays (daysFromCivil y m d) = (y, m, d) := by
  have same := daysFromCivil_civilFromDays (daysFromCivil y m d)
  have valid := civilFromDays_isDate (daysFromCivil y m d)
  obtain earlier | eq | later := before_total (civilFromDays (daysFromCivil y m d)) (y, m, d)
  · have := daysFromCivil_lt valid date earlier
    omega
  · exact eq
  · have := daysFromCivil_lt date valid later
    omega

theorem civilFromDays_before {z z' : Int} (h : z < z') : Before (civilFromDays z) (civilFromDays z') := by
  have number := daysFromCivil_civilFromDays z
  have number' := daysFromCivil_civilFromDays z'
  obtain before | eq | after := before_total (civilFromDays z) (civilFromDays z')
  · exact before
  · rw [eq, number'] at number
    omega
  · have := daysFromCivil_lt (civilFromDays_isDate z') (civilFromDays_isDate z) after
    omega

/-! ### Moments -/

/-- A day with a time of it down to the nanosecond. -/
structure DateTime.Normal (t : DateTime) : Prop where
  valid : t.Valid
  nanosecond : 0 ≤ t.nanosecond ∧ t.nanosecond ≤ 999999999

/-- A reading is of the second that was read. -/
theorem unix_fromUnixSecondsAt (secs nanosecond offset : Int) :
    (fromUnixSecondsAt secs nanosecond offset).unix = secs := by
  have day := daysFromCivil_civilFromDays ((secs + offset) / secondsPerDay)
  unfold DateTime.unix fromUnixSecondsAt
  dsimp only
  rw [day]
  unfold secondsPerDay
  omega

theorem fromUnixSecondsAt_unix (valid : t.Valid) :
    fromUnixSecondsAt t.unix t.nanosecond t.offset = t := by
  have hour := valid.hour
  have minute := valid.minute
  have second := valid.second
  have date := civilFromDays_daysFromCivil valid.isDate
  obtain ⟨days, hdays⟩ : ∃ days, days = daysFromCivil t.year t.month t.day := ⟨_, rfl⟩
  rw [← hdays] at date
  have time : t.unix + t.offset = days * 86400 + (t.hour * 3600 + t.minute * 60 + t.second) := by
    unfold DateTime.unix secondsPerDay
    dsimp only
    omega
  have day : (t.unix + t.offset) / 86400 = days := by omega
  have sod : t.unix + t.offset - days * 86400 = t.hour * 3600 + t.minute * 60 + t.second := by omega
  unfold fromUnixSecondsAt secondsPerDay
  dsimp only
  rw [day, date, sod]
  obtain ⟨year, month, d, h, mi, s, ns, off⟩ := t
  dsimp only at hour minute second ⊢
  have hours : (h * 3600 + mi * 60 + s) / 3600 = h := by omega
  have minutes : (h * 3600 + mi * 60 + s) / 60 % 60 = mi := by omega
  have seconds : (h * 3600 + mi * 60 + s) % 60 = s := by omega
  rw [hours, minutes, seconds]

theorem unixNanos_fromUnixNanosAt (nanos offset : Int) : (fromUnixNanosAt nanos offset).unixNanos = nanos := by
  unfold DateTime.unixNanos fromUnixNanosAt
  rw [unix_fromUnixSecondsAt]
  exact Int.ediv_mul_add_emod nanos nsPerSecond

/-- A duration moves the count of nanoseconds. -/
theorem add_eq (h : 0 ≤ t.nanosecond ∧ t.nanosecond ≤ 999999999) (n : Int) :
    t.add n = fromUnixNanosAt (t.unixNanos + n) t.offset := by
  unfold DateTime.add fromUnixNanosAt DateTime.unixNanos nsPerSecond
  dsimp only
  split
  · congr 1 <;> omega
  · congr 1 <;> omega

theorem add_add (h : 0 ≤ t.nanosecond ∧ t.nanosecond ≤ 999999999) (x y : Int) :
    (t.add x).add y = t.add (x + y) := by
  have first := add_eq h x
  have fraction : 0 ≤ (t.add x).nanosecond ∧ (t.add x).nanosecond ≤ 999999999 := by
    rw [first]
    show 0 ≤ (t.unixNanos + x) % nsPerSecond ∧ (t.unixNanos + x) % nsPerSecond ≤ 999999999
    unfold nsPerSecond
    omega
  rw [add_eq fraction, first, unixNanos_fromUnixNanosAt, add_eq h, add_assoc]
  rfl

/-! ### With a check of each result -/

theorem int_bind {f : Int → Option α} (h : FitsInt64 n) : (int n >>= f) = f n := by
  unfold int
  rw [if_pos h]
  rfl

theorem int_bind_eq_some_iff {f : Int → Option α} {a : α} :
    (int n >>= f) = some a ↔ FitsInt64 n ∧ f n = some a := by
  by_cases fits : FitsInt64 n
  · rw [int_bind fits]
    exact ⟨fun h => ⟨fits, h⟩, fun h => h.2⟩
  · unfold int
    rw [if_neg fits]
    exact ⟨fun h => (nomatch h), fun h => absurd h.1 fits⟩

theorem int_eq_some_iff (n a : Int) : int n = some a ↔ FitsInt64 n ∧ a = n := by
  unfold int
  by_cases fits : FitsInt64 n
  · rw [if_pos fits, Option.some.injEq]
    exact ⟨fun eq => ⟨fits, eq.symm⟩, fun h => h.2.symm⟩
  · rw [if_neg fits]
    exact ⟨fun none => (nomatch none), fun h => absurd h.1 fits⟩

theorem ite_bind_eq_some_iff {c : Prop} [Decidable c] {n e : Int} {f : Int → Option α} {a : α} :
    ((if c then int n else some e) >>= f) = some a ↔ (c → FitsInt64 n) ∧ f (if c then n else e) = some a := by
  by_cases h : c
  · rw [if_pos h, if_pos h, int_bind_eq_some_iff]
    exact ⟨fun both => ⟨fun _ => both.1, both.2⟩, fun both => ⟨both.1 h, both.2⟩⟩
  · rw [if_neg h, if_neg h]
    exact ⟨fun value => ⟨fun yes => absurd yes h, value⟩, fun both => both.2⟩

/-- The day numbers that have a date: all but the last ones that an `int` holds. -/
def Supported (z : Int) : Prop := FitsInt64 z ∧ FitsInt64 (z + 719468)

/-- The seconds of an offset's clock that are read: an `int`, and so is the second its day begins with. -/
def Readable (s : Int) : Prop := FitsInt64 s ∧ FitsInt64 (s / 86400 * 86400)

namespace Checked

variable {z n : Int} {t : DateTime}

theorem civilFromDays_of (h : Supported z) :
    Checked.civilFromDays z = some (Time.civilFromDays z) := by
  obtain ⟨⟨low, -⟩, -, high⟩ := h
  obtain ⟨era, doe, yoe, doy, hera, hdoe, hyoe, hdoy, y0, y1, d0, d1, -⟩ := exists_day z
  obtain ⟨mp, hmp⟩ : ∃ mp, mp = (5 * doy + 2) / 153 := ⟨_, rfl⟩
  unfold Checked.civilFromDays
  rw [int_bind ⟨by omega, high⟩]
  dsimp only
  have year : (doe - doe / 1460 + doe / 36524 - doe / 146096) / 365 = yoe := hyoe.symm
  rw [← hera, int_bind, int_bind, ← hdoe, int_bind, int_bind, int_bind, year, int_bind, int_bind, int_bind,
    int_bind, int_bind, int_bind, ← hdoy, int_bind, int_bind, ← hmp, int_bind, int_bind, int_bind, int_bind,
    int_bind]
  · unfold Time.civilFromDays
    dsimp only
    rw [← hera, ← hdoe, ← hyoe, ← hdoy, ← hmp]
    by_cases next : 10 ≤ mp
    · rw [if_pos next, if_pos next, int_bind ⟨by omega, by omega⟩, if_pos (by omega), if_pos (by omega),
        int_bind ⟨by omega, by omega⟩]
    · rw [if_neg next, if_neg next]
      show (if mp + 3 ≤ 2 then _ else _) = _
      rw [if_neg (by omega), if_neg (by omega)]
  -- the sum of each check
  all_goals constructor <;> omega

theorem civilFromDays_eq_some_iff (int : FitsInt64 z) (date : Int × Int × Int) :
    Checked.civilFromDays z = some date ↔ Supported z ∧ date = Time.civilFromDays z := by
  constructor
  · intro h
    have supported : Supported z := ⟨int, (int_bind_eq_some_iff.mp h).1⟩
    rw [civilFromDays_of supported] at h
    exact ⟨supported, (Option.some.inj h).symm⟩
  · intro h
    rw [civilFromDays_of h.1, h.2]

theorem daysFromCivil_eq_some_iff {y m d : Int} (date : IsDate y m d) (z : Int) :
    Checked.daysFromCivil y m d = some z ↔ Supported z ∧ z = Time.daysFromCivil y m d := by
  have month := date.month
  have day : 1 ≤ d ∧ d ≤ 31 := ⟨date.day.1, le_trans date.day.2 (daysInMonth_le y m)⟩
  obtain ⟨Y, hY⟩ : ∃ Y, Y = if m ≤ 2 then y - 1 else y := ⟨_, rfl⟩
  obtain ⟨mp, hmp⟩ : ∃ mp, mp = if m ≤ 2 then m + 9 else m - 3 := ⟨_, rfl⟩
  have inYear : 0 ≤ mp ∧ mp ≤ 11 := by omega
  obtain ⟨era, hera⟩ : ∃ era, era = Y / 400 := ⟨_, rfl⟩
  obtain ⟨yoe, hyoe⟩ : ∃ yoe, yoe = Y - era * 400 := ⟨_, rfl⟩
  obtain ⟨doy, hdoy⟩ : ∃ doy, doy = (153 * mp + 2) / 5 + d - 1 := ⟨_, rfl⟩
  have inEra : 0 ≤ yoe ∧ yoe ≤ 399 := by omega
  unfold Supported Time.daysFromCivil Checked.daysFromCivil
  dsimp only
  simp only [int_bind_eq_some_iff, ite_bind_eq_some_iff, int_eq_some_iff]
  rw [← hY, ← hmp, ← hera, ← hyoe, ← hdoy]
  constructor
  · intro h
    obtain ⟨-, -, -, -, -, -, -, -, -, -, -, -, -, -, day, number, rfl⟩ := h
    rw [sub_add_cancel]
    exact ⟨⟨number, day⟩, rfl⟩
  · intro h
    obtain ⟨⟨number, day⟩, rfl⟩ := h
    rw [sub_add_cancel] at day
    refine ⟨fun _ => ?_, ?_, ?_, ?_, fun _ => ?_, ?_, ?_, ?_, ?_, ?_, ?_, ?_, ?_, ?_, day, number, rfl⟩
    all_goals
      unfold FitsInt64 at *
      omega

theorem fromUnixSecondsAt_eq_some_iff (secs nanosecond offset : Int) (t : DateTime) :
    Checked.fromUnixSecondsAt secs nanosecond offset = some t ↔
      Readable (secs + offset) ∧ t = Time.fromUnixSecondsAt secs nanosecond offset := by
  unfold Checked.fromUnixSecondsAt
  simp only [int_bind_eq_some_iff]
  constructor
  · intro h
    obtain ⟨seconds, first, sod, value⟩ := h
    unfold secondsPerDay at first sod value
    rw [civilFromDays_of] at value
    · exact ⟨⟨seconds, first⟩, (Option.some.inj value).symm⟩
    · unfold Supported FitsInt64 at *
      omega
  · intro h
    obtain ⟨⟨seconds, first⟩, rfl⟩ := h
    unfold secondsPerDay
    rw [civilFromDays_of]
    · refine ⟨seconds, first, ?_, rfl⟩
      unfold FitsInt64 at *
      omega
    · unfold Supported FitsInt64 at *
      omega

theorem unix_eq_some_iff (valid : t.Valid) (s : Int) :
    Checked.unix t = some s ↔ FitsInt64 s ∧ Readable (s + t.offset) ∧ s = t.unix := by
  have hour := valid.hour
  have minute := valid.minute
  have second := valid.second
  obtain ⟨days, hdays⟩ : ∃ days, days = Time.daysFromCivil t.year t.month t.day := ⟨_, rfl⟩
  unfold Checked.unix DateTime.unix Readable secondsPerDay
  dsimp only
  rw [← hdays]
  constructor
  · intro h
    obtain ⟨n, number, h⟩ := Option.bind_eq_some_iff.mp h
    obtain ⟨-, rfl⟩ := (daysFromCivil_eq_some_iff valid.isDate n).mp number
    rw [← hdays] at h
    simp only [int_bind_eq_some_iff, int_eq_some_iff] at h
    obtain ⟨first, -, -, -, -, seconds, fits, rfl⟩ := h
    rw [sub_add_cancel]
    refine ⟨fits, ⟨seconds, ?_⟩, rfl⟩
    have day : (days * 86400 + t.hour * 3600 + t.minute * 60 + t.second) / 86400 = days := by omega
    rw [day]
    exact first
  · intro h
    obtain ⟨fits, ⟨seconds, first⟩, rfl⟩ := h
    rw [sub_add_cancel] at seconds first
    have day : (days * 86400 + t.hour * 3600 + t.minute * 60 + t.second) / 86400 = days := by omega
    rw [day] at first
    have supported : Supported days := by
      unfold Supported FitsInt64 at *
      omega
    refine Option.bind_eq_some_iff.mpr ⟨days, (daysFromCivil_eq_some_iff valid.isDate days).mpr ⟨supported, hdays⟩, ?_⟩
    simp only [int_bind_eq_some_iff, int_eq_some_iff]
    refine ⟨first, ?_, ?_, ?_, ?_, seconds, fits, trivial⟩
    all_goals
      unfold FitsInt64 at *
      omega

/-- What is added without an overflow is the sum. -/
theorem add_of_some {t t' : DateTime} (valid : t.Valid) (h : Checked.add t n = some t') :
    t' = t.add n := by
  unfold Checked.add at h
  dsimp only at h
  simp only [int_bind_eq_some_iff, ite_bind_eq_some_iff] at h
  obtain ⟨-, -, h⟩ := h
  obtain ⟨s, hs, h⟩ := Option.bind_eq_some_iff.mp h
  obtain ⟨-, -, rfl⟩ := (unix_eq_some_iff valid s).mp hs
  simp only [int_bind_eq_some_iff, fromUnixSecondsAt_eq_some_iff] at h
  obtain ⟨-, -, -, rfl⟩ := h
  unfold DateTime.add
  dsimp only
  split
  · rfl
  · rw [add_zero]

/-- The number of a date by its year alone. -/
theorem daysFromCivil_near {y m d : Int} (date : IsDate y m d) :
    146097 * (y - 2) ≤ 400 * (Time.daysFromCivil y m d + 719468) ∧
      400 * (Time.daysFromCivil y m d + 719468) ≤ 146097 * (y + 2) := by
  have month := date.month
  have day : 1 ≤ d ∧ d ≤ 31 := ⟨date.day.1, le_trans date.day.2 (daysInMonth_le y m)⟩
  obtain ⟨Y, hY⟩ : ∃ Y, Y = monthIndex y m / 12 := ⟨_, rfl⟩
  obtain ⟨mp, hmp⟩ : ∃ mp, mp = monthIndex y m % 12 := ⟨_, rfl⟩
  have year : y - 1 ≤ Y ∧ Y ≤ y := by
    rw [monthIndex_div month] at hY
    omega
  have inYear : 0 ≤ mp ∧ mp ≤ 11 := by omega
  rw [daysFromCivil_eq d month]
  unfold monthStart yearStart
  rw [← hY, ← hmp]
  constructor
  · omega
  · omega

theorem unix_near (valid : t.Valid) (year : -292000000000 ≤ t.year ∧ t.year ≤ 292000000000) :
    -9220000000000000000 ≤ t.unix + t.offset ∧ t.unix + t.offset ≤ 9220000000000000000 := by
  have near := daysFromCivil_near valid.isDate
  have hour := valid.hour
  have minute := valid.minute
  have second := valid.second
  unfold DateTime.unix secondsPerDay
  dsimp only
  constructor
  · omega
  · omega

theorem unix_of (valid : t.Valid) (year : -292000000000 ≤ t.year ∧ t.year ≤ 292000000000)
    (offset : -86400 < t.offset ∧ t.offset < 86400) : Checked.unix t = some t.unix := by
  have near := unix_near valid year
  refine (unix_eq_some_iff valid _).mpr ⟨?_, ⟨?_, ?_⟩, rfl⟩
  all_goals
    unfold FitsInt64
    omega

theorem add_of (normal : t.Normal) (year : -292000000000 ≤ t.year ∧ t.year ≤ 292000000000)
    (offset : -86400 < t.offset ∧ t.offset < 86400) (duration : FitsInt64 n) :
    Checked.add t n = some (t.add n) := by
  have near := unix_near normal.valid year
  have fraction := normal.nanosecond
  unfold FitsInt64 at duration
  have sums : ∀ carry, carry = 0 ∨ carry = 1 → ∀ ns, (do
      let s ← int (t.unix + n / 1000000000)
      let s ← int (s + carry)
      Checked.fromUnixSecondsAt s ns t.offset) =
        some (Time.fromUnixSecondsAt (t.unix + n / 1000000000 + carry) ns t.offset) := by
    intro carry small ns
    rw [int_bind, int_bind]
    · refine (fromUnixSecondsAt_eq_some_iff _ ns t.offset _).mpr ⟨⟨?_, ?_⟩, rfl⟩
      all_goals
        unfold FitsInt64
        omega
    all_goals
      unfold FitsInt64
      omega
  unfold Checked.add DateTime.add nsPerSecond
  dsimp only
  rw [int_bind ⟨by omega, by omega⟩, unix_of normal.valid year offset]
  by_cases carries : 1000000000 ≤ t.nanosecond + n % 1000000000
  · rw [if_pos carries, if_pos carries, if_pos carries, int_bind ⟨by omega, by omega⟩]
    exact sums 1 (Or.inr rfl) _
  · rw [if_neg carries, if_neg carries, if_neg carries]
    have sum := sums 0 (Or.inl rfl) (t.nanosecond + n % 1000000000)
    rw [add_zero] at sum
    exact sum

end Checked

/-! ### The laws -/

/-- What dates, day numbers and moments owe to each other, with every result checked. -/
structure CalendarLaws : Prop where
  /-- Over the integers, without a bound. -/
  integers : (∀ z, daysFromCivil (civilFromDays z).1 (civilFromDays z).2.1 (civilFromDays z).2.2 = z) ∧
    ∀ y m d, IsDate y m d → civilFromDays (daysFromCivil y m d) = (y, m, d)
  dated : ∀ z, Supported z → ∃ y m d, IsDate y m d ∧ Checked.civilFromDays z = some (y, m, d)
  numbered : ∀ y m d, IsDate y m d → -25000000000000000 ≤ y → y ≤ 25000000000000000 →
    ∃ z, Supported z ∧ Checked.daysFromCivil y m d = some z
  inverse : ∀ y m d z, IsDate y m d → FitsInt64 z →
    (Checked.civilFromDays z = some (y, m, d) ↔ Checked.daysFromCivil y m d = some z)
  dates_increase : ∀ z z' a b, FitsInt64 z → FitsInt64 z' → Checked.civilFromDays z = some a →
    Checked.civilFromDays z' = some b → z < z' → Before a b
  numbers_increase : ∀ y m d y' m' d' z z', IsDate y m d → IsDate y' m' d' →
    Checked.daysFromCivil y m d = some z → Checked.daysFromCivil y' m' d' = some z' →
    Before (y, m, d) (y', m', d') → z < z'
  /-- A moment read at its own offset is itself. -/
  reread : ∀ t : DateTime, t.Normal → ∀ s, Checked.unix t = some s →
    Checked.fromUnixSecondsAt s t.nanosecond t.offset = some t
  moments : ∀ t : DateTime, t.Normal → -292000000000 ≤ t.year ∧ t.year ≤ 292000000000 →
    -86400 < t.offset ∧ t.offset < 86400 → ∃ s, Checked.unix t = some s
  /-- Each second that is read has its fields in their ranges, and which seconds those are. -/
  ranges : ∀ secs nanosecond offset,
    (∀ t, Checked.fromUnixSecondsAt secs nanosecond offset = some t →
      t.Valid ∧ t.nanosecond = nanosecond ∧ t.offset = offset) ∧
    ((∃ t, Checked.fromUnixSecondsAt secs nanosecond offset = some t) ↔ Readable (secs + offset))
  adds : ∀ t : DateTime, t.Normal → ∀ x y a b c, Checked.add t x = some a → Checked.add a y = some b →
    Checked.add t (x + y) = some c → b = c
  sums : ∀ t : DateTime, t.Normal → -292000000000 ≤ t.year ∧ t.year ≤ 292000000000 →
    -86400 < t.offset ∧ t.offset < 86400 → ∀ x, FitsInt64 x → ∃ a, Checked.add t x = some a

theorem calendar_laws : CalendarLaws where
  integers := ⟨daysFromCivil_civilFromDays, fun _ _ _ => civilFromDays_daysFromCivil⟩
  dated z supported := ⟨_, _, _, civilFromDays_isDate z, Checked.civilFromDays_of supported⟩
  numbered y m d date low high := by
    have near := Checked.daysFromCivil_near date
    have supported : Supported (daysFromCivil y m d) := by
      unfold Supported FitsInt64
      omega
    exact ⟨_, supported, (Checked.daysFromCivil_eq_some_iff date _).mpr ⟨supported, rfl⟩⟩
  inverse y m d z date fits := by
    rw [Checked.civilFromDays_eq_some_iff fits, Checked.daysFromCivil_eq_some_iff date]
    refine and_congr_right fun _ => ⟨fun eq => ?_, fun eq => ?_⟩
    · have number := daysFromCivil_civilFromDays z
      rw [← eq] at number
      exact number.symm
    · rw [eq, civilFromDays_daysFromCivil date]
  dates_increase z z' a b fits fits' first second earlier := by
    rw [((Checked.civilFromDays_eq_some_iff fits a).mp first).2,
      ((Checked.civilFromDays_eq_some_iff fits' b).mp second).2]
    exact civilFromDays_before earlier
  numbers_increase y m d y' m' d' z z' date date' first second earlier := by
    rw [((Checked.daysFromCivil_eq_some_iff date z).mp first).2,
      ((Checked.daysFromCivil_eq_some_iff date' z').mp second).2]
    exact daysFromCivil_lt date date' earlier
  reread t normal s unix := by
    obtain ⟨-, readable, rfl⟩ := (Checked.unix_eq_some_iff normal.valid s).mp unix
    exact (Checked.fromUnixSecondsAt_eq_some_iff _ _ _ t).mpr
      ⟨readable, (fromUnixSecondsAt_unix normal.valid).symm⟩
  moments t normal year offset := ⟨_, Checked.unix_of normal.valid year offset⟩
  ranges secs nanosecond offset := by
    constructor
    · intro t read
      obtain ⟨-, rfl⟩ := (Checked.fromUnixSecondsAt_eq_some_iff _ _ _ t).mp read
      exact ⟨fromUnixSecondsAt_valid secs nanosecond offset, rfl, rfl⟩
    · constructor
      · intro read
        obtain ⟨t, read⟩ := read
        exact ((Checked.fromUnixSecondsAt_eq_some_iff _ _ _ t).mp read).1
      · intro readable
        exact ⟨_, (Checked.fromUnixSecondsAt_eq_some_iff _ _ _ _).mpr ⟨readable, rfl⟩⟩
  adds t normal x y a b c first second both := by
    have ha := Checked.add_of_some normal.valid first
    have valid : a.Valid := by
      rw [ha, add_eq normal.nanosecond]
      exact fromUnixSecondsAt_valid _ _ _
    rw [Checked.add_of_some valid second, Checked.add_of_some normal.valid both, ha,
      add_add normal.nanosecond]
  sums t normal year offset x duration := ⟨_, Checked.add_of normal year offset duration⟩

/-- The last half second of 1969 in UTC, half an hour to the west of it. -/
theorem reread_west : Checked.fromUnixSecondsAt (-1) 500000000 (-1800) =
    some ⟨1969, 12, 31, 23, 29, 59, 500000000, -1800⟩ :=
  calendar_laws.reread ⟨1969, 12, 31, 23, 29, 59, 500000000, -1800⟩
    ⟨⟨⟨by decide, by decide⟩, by decide, by decide, by decide⟩, by decide⟩ (-1) (by decide)

end Voila.Time
