/-
Adding months to a timestamp and truncating it (`runtime/DateRuntime.cpp`).
Months are numbered from January of year 0. The conversions between days and
dates are those of a library, which is assumed to follow the calendar
(`DateLibrary`): a day that the month does not have is taken to be as many days
behind the first. The number of months is narrowed to an `int`, which is no
loss: a timestamp spans less than 600 years.

`dateTrunc` puts a timestamp together from those of its parts that are kept.
That is the boundary before it (`dateTrunc_greatest`), also before 1970, since
the conversions round down (`civil_spec`).
-/
import Mathlib.Data.Int.ConditionallyCompleteOrder
import Mathlib.Data.Int.SuccPred
import GengoDB.Datatypes

namespace GengoDB.Dates

/-! ## The calendar -/

/-- Days before a year that starts in March. -/
def yearStart (year : ℤ) : ℤ := 365 * year + year / 4 - year / 100 + year / 400

/-- Days from 1970-01-01 to the first day of a month. -/
def firstOfMonth (month : ℤ) : ℤ := yearStart ((month - 2) / 12) + (153 * ((month - 2) % 12) + 2) / 5 - 719468

def monthLength (month : ℤ) : ℤ := firstOfMonth (month + 1) - firstOfMonth month

/-- The days up to a date, counted on from the first of the month. -/
def toDays (month day : ℤ) : ℤ := firstOfMonth month + (day - 1)

/-- The month of a day, and which day of it that is. -/
def civil (days : ℤ) : ℤ × ℤ :=
  let z := days + 719468
  let dayOfEra := z % 146097
  let yearOfEra := (dayOfEra - dayOfEra / 1460 + dayOfEra / 36524 - dayOfEra / 146096) / 365
  let dayOfYear := dayOfEra - (365 * yearOfEra + yearOfEra / 4 - yearOfEra / 100)
  let month := (5 * dayOfYear + 2) / 153
  (12 * (yearOfEra + z / 146097 * 400) + month + 2, dayOfYear - (153 * month + 2) / 5 + 1)

/-- `sys_days` of a date and `year_month_day` of a day (`date`, `std::chrono`).
They are assumed to follow the calendar, for 200000 days before and after 1970
and for dates of the years 0 to 9999. -/
structure DateLibrary where
  sysDays : ℤ → ℤ → ℤ
  yearMonthDay : ℤ → ℤ × ℤ
  sysDays_eq (month day : ℤ) : 0 ≤ month → month < 120000 → 1 ≤ day → day ≤ 31 →
    sysDays month day = toDays month day
  yearMonthDay_eq (days : ℤ) : days.natAbs ≤ 200000 → yearMonthDay days = civil days

/-- A library that follows the calendar everywhere. -/
def gregorian : DateLibrary := ⟨toDays, civil, fun _ _ _ _ _ _ => rfl, fun _ _ => rfl⟩

/-! ## Months -/

/-- Nanoseconds of a day. -/
def dayNanos : ℤ := 86400000000000

section
variable (lib : DateLibrary)

/-- `DateRuntime::addMonths`; the helper takes the months as an `int`. -/
def addMonths (nanos months : ℤ) : ℤ :=
  let (month, day) := lib.yearMonthDay (nanos / dayNanos)
  lib.sysDays (month + months.bmod (2 ^ 32)) day * dayNanos + nanos % dayNanos

def subtractMonths (nanos months : ℤ) : ℤ := addMonths lib nanos (-months)

end

/-- The same time of the same day so many months later, or of the last day of
that month if it is shorter. -/
def monthsLater (nanos months : ℤ) : ℤ :=
  let (month, day) := civil (nanos / dayNanos)
  toDays (month + months) (min day (monthLength (month + months))) * dayNanos + nanos % dayNanos

/-- A timestamp has 64 bits. -/
def Representable (nanos : ℤ) : Prop := -2 ^ 63 ≤ nanos ∧ nanos < 2 ^ 63

theorem civil_bounds {days : ℤ} (h : days.natAbs ≤ 200000) :
    (0 ≤ (civil days).1 ∧ (civil days).1 ≤ 50000) ∧ 1 ≤ (civil days).2 ∧ (civil days).2 ≤ 31 := by
  simp only [civil]
  omega

theorem firstOfMonth_bounds (month : ℤ) :
    firstOfMonth month ≤ firstOfMonth (month + 1) ∧ (30 * month - 800000 ≤ firstOfMonth month ∨ month < 0) ∧
      (firstOfMonth month ≤ 30 * month - 700000 ∨ 0 ≤ month) := by
  unfold firstOfMonth yearStart
  omega

theorem natAbs_days {nanos : ℤ} (h : Representable nanos) : (nanos / dayNanos).natAbs ≤ 200000 := by
  obtain ⟨hlo, hhi⟩ := h
  unfold dayNanos
  omega

/-- Timestamps span less than 600 years. -/
theorem months_bounds {nanos months : ℤ} (h : Representable nanos) (h' : Representable (monthsLater nanos months)) :
    months.bmod (2 ^ 32) = months ∧ 0 ≤ (civil (nanos / dayNanos)).1 + months ∧
      (civil (nanos / dayNanos)).1 + months < 120000 := by
  have hcivil := civil_bounds (natAbs_days h)
  have hfirst := firstOfMonth_bounds ((civil (nanos / dayNanos)).1 + months)
  unfold Representable monthsLater toDays monthLength dayNanos at h'
  unfold dayNanos at hcivil hfirst ⊢
  dsimp only at h'
  exact ⟨Int.bmod_eq_of_le (by omega) (by omega), by omega, by omega⟩

section
variable (lib : DateLibrary)

theorem addMonths_eq_iff {nanos months : ℤ} (h : Representable nanos)
    (h' : Representable (monthsLater nanos months)) : addMonths lib nanos months = monthsLater nanos months ↔
      (civil (nanos / dayNanos)).2 ≤ monthLength ((civil (nanos / dayNanos)).1 + months) := by
  obtain ⟨-, hday⟩ := civil_bounds (natAbs_days h)
  obtain ⟨hbmod, hmonth⟩ := months_bounds h h'
  unfold addMonths monthsLater
  rw [lib.yearMonthDay_eq _ (natAbs_days h)]
  dsimp only
  rw [hbmod, lib.sysDays_eq _ _ hmonth.1 hmonth.2 hday.1 hday.2]
  unfold toDays dayNanos
  omega

/-- **Adding and subtracting months** gives the day asked for just if the month
reached has such a day. -/
theorem months_eq_iff (nanos months : ℤ) (h : Representable nanos) :
    (Representable (monthsLater nanos months) → (addMonths lib nanos months = monthsLater nanos months ↔
      (civil (nanos / dayNanos)).2 ≤ monthLength ((civil (nanos / dayNanos)).1 + months))) ∧
    (Representable (monthsLater nanos (-months)) → (subtractMonths lib nanos months = monthsLater nanos (-months) ↔
      (civil (nanos / dayNanos)).2 ≤ monthLength ((civil (nanos / dayNanos)).1 + -months))) :=
  ⟨addMonths_eq_iff lib h, addMonths_eq_iff lib h⟩

end

/-- From 1970-01-28 to the end of February. -/
theorem months_eq_february : addMonths gregorian (27 * dayNanos) 1 = monthsLater (27 * dayNanos) 1 :=
  ((months_eq_iff gregorian (27 * dayNanos) 1 (by constructor <;> decide)).1 (by constructor <;> decide)).2 (by decide)

/-- From 1970-01-31 on, a month later is March 3. -/
theorem addMonths_january : civil (addMonths gregorian (30 * dayNanos) 1 / dayNanos) = (23642, 3) ∧
    civil (monthsLater (30 * dayNanos) 1 / dayNanos) = (23641, 28) := by
  decide

/-! ## Days and their months -/

theorem yearStart_era (year era : ℤ) : yearStart (year + era * 400) = yearStart year + era * 146097 := by
  unfold yearStart
  omega

/-- The year of a day of an era of 400 years. -/
theorem yearOfEra {d y : ℤ} (hlo : 0 ≤ d) (hhi : d < 146097) (hy : y = (d - d / 1460 + d / 36524 - d / 146096) / 365) :
    d - (365 * y + y / 4 - y / 100) = d - yearStart y ∧ yearStart y ≤ d ∧ d < yearStart (y + 1) := by
  unfold yearStart
  have h4 : y / 4 ≤ d / 1460 ∧ (d / 1460 ≤ y / 4 ∨ y % 4 = 3 ∧ d / 1460 = y / 4 + 1) := by omega
  have h100 : d / 36524 = y / 100 ∨ d = 146096 := by omega
  have hnext : ((y + 1) / 100 = y / 100 ∨ y % 100 = 99) ∧ y / 4 ≤ (y + 1) / 4 := by omega
  omega

/-- A day lies in its month. -/
theorem civil_spec (days : ℤ) : toDays (civil days).1 (civil days).2 = days ∧ firstOfMonth (civil days).1 ≤ days ∧
    days < firstOfMonth ((civil days).1 + 1) := by
  obtain ⟨hday, hyear⟩ := yearOfEra (d := (days + 719468) % 146097) (by omega) (by omega) rfl
  simp only [civil, hday]
  generalize ((days + 719468) % 146097 - (days + 719468) % 146097 / 1460 + (days + 719468) % 146097 / 36524 -
    (days + 719468) % 146097 / 146096) / 365 = y at hyear ⊢
  have hnext : yearStart (y + 1) ≤ yearStart y + 366 := by unfold yearStart; omega
  have hera := yearStart_era y ((days + 719468) / 146097)
  have hera' := yearStart_era (y + 1) ((days + 719468) / 146097)
  obtain ⟨n, hn⟩ : ∃ n, n = (days + 719468) % 146097 - yearStart y := ⟨_, rfl⟩
  obtain ⟨m, hm⟩ : ∃ m, m = (5 * n + 2) / 153 := ⟨_, rfl⟩
  rw [← hn, ← hm, toDays, firstOfMonth, firstOfMonth]
  have hthis k : (12 * k + m + 2 - 2) / 12 = k ∧ (12 * k + m + 2 - 2) % 12 = m := by omega
  have hlast k : m = 11 → (12 * k + m + 2 + 1 - 2) / 12 = k + 1 ∧ (12 * k + m + 2 + 1 - 2) % 12 = 0 := by omega
  have hlater k : m < 11 → (12 * k + m + 2 + 1 - 2) / 12 = k ∧ (12 * k + m + 2 + 1 - 2) % 12 = m + 1 := by omega
  rw [(hthis _).1, (hthis _).2, hera]
  refine ⟨by omega, by omega, ?_⟩
  rcases (show m = 11 ∨ m < 11 by omega) with h | h
  · rw [(hlast _ h).1, (hlast _ h).2, Int.add_right_comm, hera']
    omega
  · rw [(hlater _ h).1, (hlater _ h).2, hera]
    omega

theorem firstOfMonth_mono : Monotone firstOfMonth :=
  monotone_int_of_le_succ fun month => (firstOfMonth_bounds month).1

/-! ## Truncation -/

section
variable (lib : DateLibrary)

def extractYear (date : ℤ) : ℤ := (lib.yearMonthDay (date / dayNanos)).1 / 12

def extractMonth (date : ℤ) : ℤ := (lib.yearMonthDay (date / dayNanos)).1 % 12 + 1

def extractDay (date : ℤ) : ℤ := (lib.yearMonthDay (date / dayNanos)).2

def extractHour (date : ℤ) : ℤ := date % dayNanos / 3600000000000

def extractMinute (date : ℤ) : ℤ := date % dayNanos / 60000000000 % 60

def extractSecond (date : ℤ) : ℤ := date % dayNanos / 1000000000 % 60

def toEpochNs (year month day hour minute second : ℤ) : ℤ :=
  ((lib.sysDays (12 * year + (month - 1)) day * 86400 + hour * 3600 + minute * 60 + second) * 1000000000).bmod (2 ^ 64)

/-- `none` is the exception for other parts. -/
def dateTrunc (part : Bytes) (date : ℤ) : Option ℤ :=
  let year := extractYear lib date
  if part = ascii "year" then some (toEpochNs lib year 1 1 0 0 0) else
  let month := extractMonth lib date
  if part = ascii "month" then some (toEpochNs lib year month 1 0 0 0) else
  let day := extractDay lib date
  if part = ascii "day" then some (toEpochNs lib year month day 0 0 0) else
  let hour := extractHour date
  if part = ascii "hour" then some (toEpochNs lib year month day hour 0 0) else
  let minute := extractMinute date
  if part = ascii "minute" then some (toEpochNs lib year month day hour minute 0) else
  let second := extractSecond date
  if part = ascii "second" then some (toEpochNs lib year month day hour minute second) else none

end

/-- The units, from coarse to fine. -/
inductive Part
  | year | month | day | hour | minute | second

namespace Part

def name : Part → Bytes
  | year => ascii "year"
  | month => ascii "month"
  | day => ascii "day"
  | hour => ascii "hour"
  | minute => ascii "minute"
  | second => ascii "second"

/-- The length of a unit; of years and months, that of their days. -/
def nanos : Part → ℤ
  | hour => 3600000000000
  | minute => 60000000000
  | second => 1000000000
  | _ => dayNanos

/-- Where the `k`-th of these units begins. -/
def start : Part → ℤ → ℤ
  | year, k => firstOfMonth (12 * k) * dayNanos
  | month, k => firstOfMonth k * dayNanos
  | p, k => k * p.nanos

/-- The unit a timestamp lies in. -/
def index : Part → ℤ → ℤ
  | year, d => (civil (d / dayNanos)).1 / 12
  | month, d => (civil (d / dayNanos)).1
  | p, d => d / p.nanos

variable {p : Part} {d : ℤ}

theorem start_mono (p : Part) : Monotone p.start := by
  intro k l h
  have hmonth := firstOfMonth_mono h
  have hyear := @firstOfMonth_mono (12 * k) (12 * l) (by omega)
  cases p <;> simp only [start, nanos, dayNanos] <;> omega

theorem index_spec (p : Part) (d : ℤ) : p.start (p.index d) ≤ d ∧ d < p.start (p.index d + 1) := by
  have hday := civil_spec (d / dayNanos)
  have hlo := @firstOfMonth_mono (12 * ((civil (d / dayNanos)).1 / 12)) (civil (d / dayNanos)).1 (by omega)
  have hhi := @firstOfMonth_mono ((civil (d / dayNanos)).1 + 1) (12 * ((civil (d / dayNanos)).1 / 12 + 1)) (by omega)
  cases p <;> simp only [start, index, nanos] <;> simp only [dayNanos] at * <;> omega

theorem isGreatest_start (p : Part) (d : ℤ) : IsGreatest {t | t ∈ Set.range p.start ∧ t ≤ d} (p.start (p.index d)) := by
  obtain ⟨hle, hlt⟩ := index_spec p d
  refine ⟨⟨⟨_, rfl⟩, hle⟩, ?_⟩
  rintro _ ⟨⟨k, rfl⟩, hk⟩
  exact start_mono p (Int.lt_add_one_iff.1 ((start_mono p).reflect_lt (hk.trans_lt hlt)))

/-- The boundaries of a unit are boundaries of the finer ones. -/
theorem start_mem {q : Part} (h : p.ctorIdx ≤ q.ctorIdx) (k : ℤ) : p.start k ∈ Set.range q.start := by
  have hmul (hq : ∀ l, q.start l = l * q.nanos) (hdvd : p.start k / q.nanos * q.nanos = p.start k) :
      p.start k ∈ Set.range q.start := ⟨_, (hq _).trans hdvd⟩
  cases q with
  | year =>
    cases p with
    | year => exact ⟨k, rfl⟩
    | _ => exact absurd h (by decide)
  | month =>
    cases p with
    | year => exact ⟨12 * k, rfl⟩
    | month => exact ⟨k, rfl⟩
    | _ => exact absurd h (by decide)
  | day | hour | minute | second =>
    refine hmul (fun _ => rfl) ?_
    cases p <;> first | exact absurd h (by decide) | simp only [start, nanos, dayNanos]; omega

variable (lib : DateLibrary)

/-- What is put together from the parts is the boundary. -/
theorem dateTrunc_name (hd : Representable d) (h : Representable (p.start (p.index d))) :
    dateTrunc lib p.name d = some (p.start (p.index d)) := by
  have hdays := natAbs_days hd
  obtain ⟨⟨hlo, hhi⟩, hfirst⟩ := civil_bounds hdays
  have hsys day (h1 : 1 ≤ day) (h31 : day ≤ 31) := lib.sysDays_eq (civil (d / dayNanos)).1 day hlo (by omega) h1 h31
  have hyear := lib.sysDays_eq (12 * ((civil (d / dayNanos)).1 / 12)) 1 (by omega) (by omega) (by decide) (by decide)
  have hday := (civil_spec (d / dayNanos)).1
  have hmod (x : ℤ) (hx : x = p.start (p.index d)) : x.bmod (2 ^ 64) = p.start (p.index d) := by
    rw [hx]
    exact Int.bmod_eq_of_le (by have := h.1; omega) (by have := h.2; omega)
  have hmonth : 12 * ((civil (d / dayNanos)).1 / 12) + ((civil (d / dayNanos)).1 % 12 + 1 - 1) =
      (civil (d / dayNanos)).1 := by omega
  cases p with
  | year | month | day | hour | minute | second =>
    refine congrArg some (hmod _ ?_)
    simp only [start, index, nanos, extractYear, extractMonth, extractDay, extractHour, extractMinute, extractSecond,
      lib.yearMonthDay_eq _ hdays, hmonth, Int.sub_self, Int.add_zero, hyear, hsys 1 (by decide) (by decide),
      hsys _ hfirst.1 hfirst.2, hday]
    simp only [toDays, dayNanos]
    omega

/-- A timestamp between the boundary and `d` has the same boundary. -/
theorem dateTrunc_between {x : ℤ} (hd : Representable d) (h : Representable (p.start (p.index d))) (hlo : p.start (p.index d) ≤ x)
    (hhi : x ≤ d) : dateTrunc lib p.name x = some (p.start (p.index d)) := by
  have hgreatest := isGreatest_start p d
  have hx : IsGreatest {t | t ∈ Set.range p.start ∧ t ≤ x} (p.start (p.index d)) :=
    ⟨⟨⟨_, rfl⟩, hlo⟩, fun t ht => hgreatest.2 ⟨ht.1, ht.2.trans hhi⟩⟩
  have hrep : Representable x := ⟨h.1.trans hlo, hhi.trans_lt hd.2⟩
  rw [hx.unique (isGreatest_start p x)] at h ⊢
  exact dateTrunc_name lib hrep h

end Part

/-- **`dateTrunc` gives the greatest boundary** of the unit that is not after
the timestamp. So it changes no boundary, keeps the order, and may be preceded
by one to a finer unit. -/
theorem dateTrunc_greatest (lib : DateLibrary) (p : Part) (d : ℤ) (h : Representable d) :
    ∃ b, IsGreatest {t | t ∈ Set.range p.start ∧ t ≤ d} b ∧ (Representable b →
      dateTrunc lib p.name d = some b ∧ dateTrunc lib p.name b = some b ∧
      (∀ d', d ≤ d' → Representable d' → ∃ b', dateTrunc lib p.name d' = some b' ∧ b ≤ b') ∧
      ∀ q : Part, p.ctorIdx ≤ q.ctorIdx → ∃ f, dateTrunc lib q.name d = some f ∧ dateTrunc lib p.name f = some b) := by
  have hgreatest := p.isGreatest_start d
  refine ⟨_, hgreatest, fun hb => ⟨Part.dateTrunc_name lib h hb, Part.dateTrunc_between lib h hb le_rfl hgreatest.1.2, ?_, ?_⟩⟩
  · intro d' hd hd'
    have hle := (p.isGreatest_start d').2 ⟨⟨_, rfl⟩, hgreatest.1.2.trans hd⟩
    exact ⟨_, Part.dateTrunc_name lib hd' ⟨hb.1.trans hle, (p.isGreatest_start d').1.2.trans_lt hd'.2⟩, hle⟩
  · intro q hq
    have hfine := (q.isGreatest_start d).1.2
    have hle := (q.isGreatest_start d).2 ⟨Part.start_mem hq _, hgreatest.1.2⟩
    exact ⟨_, Part.dateTrunc_name lib h ⟨hb.1.trans hle, hfine.trans_lt h.2⟩, Part.dateTrunc_between lib h hb hle hfine⟩

/-- The last nanosecond of 1969. -/
theorem dateTrunc_before_epoch : Representable (-1) ∧ dateTrunc gregorian (ascii "year") (-1) = some (-365 * dayNanos) := by
  have hrep : Representable (-1) := by constructor <;> decide
  obtain ⟨b, hb, htrunc⟩ := dateTrunc_greatest gregorian .year (-1) hrep
  have hyear : Part.year.start (Part.year.index (-1)) = -365 * dayNanos := by decide
  rw [hb.unique (Part.year.isGreatest_start (-1)), hyear] at htrunc
  exact ⟨hrep, (htrunc (by constructor <;> decide)).1⟩

end GengoDB.Dates
