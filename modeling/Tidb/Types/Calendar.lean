import Tidb.Lib.Word64
import Tidb.Types.Time

/-!
# Day numbers (`types/core_time.go`)

`calcDaynr` counts the days from the beginning of the year 0, which has 365 of them for it, and `getDateFromDaynr`
goes back from a day number to its date.
-/

namespace Tidb.Types

open GoLang

def isLeapYear (year : ℤ) : Bool := year % 4 = 0 ∧ year % 100 ≠ 0 ∨ year % 400 = 0

def calcDaynr (year month day : ℤ) : ℤ :=
  if year = 0 ∧ month = 0 then 0
  else
    let delsum := 365 * year + 31 * (month - 1) + day
    let (year, delsum) := if month ≤ 2 then (year - 1, delsum) else (year, delsum - (month * 4 + 23).tdiv 10)
    let temp := ((year.tdiv 100 + 1) * 3).tdiv 4
    delsum + year.tdiv 4 - temp

def calcDaysInYear (year : ℤ) : ℤ :=
  if year % 4 = 0 ∧ (year % 100 ≠ 0 ∨ year % 400 = 0 ∧ year ≠ 0) then 366 else 365

theorem calcDaysInYear_cases (year : ℤ) : calcDaysInYear year = 365 ∨ calcDaysInYear year = 366 := by
  unfold calcDaysInYear
  split <;> simp

structure Date where
  year : ℤ
  month : ℤ
  day : ℤ
  deriving DecidableEq

def CoreTime.date (t : CoreTime) : Date := ⟨t.year, t.month, t.day⟩

def Date.daynr (t : Date) : ℤ := calcDaynr t.year t.month t.day

def dateDiff (startTime endTime : CoreTime) : ℤ := startTime.date.daynr - endTime.date.daynr

def yearLoop (year dayOfYear : ℤ) : ℤ × ℤ :=
  if calcDaysInYear year < dayOfYear then yearLoop (year + 1) (dayOfYear - calcDaysInYear year)
  else (year, dayOfYear)
termination_by dayOfYear.toNat
decreasing_by
  have := calcDaysInYear_cases year
  omega

def daysInMonth : List ℤ := [31, 28, 31, 30, 31, 30, 31, 31, 30, 31, 30, 31]

def monthLoop : List ℤ → ℤ → ℤ → ℤ × ℤ
  | [], month, dayOfYear => (month, dayOfYear)
  | days :: rest, month, dayOfYear =>
    if dayOfYear ≤ days then (month, dayOfYear) else monthLoop rest (month + 1) (dayOfYear - days)

def monthAndDay (daysInYear dayOfYear : ℤ) : ℤ × ℤ :=
  let (dayOfYear, leapDay) :=
    if daysInYear = 366 ∧ 31 + 28 < dayOfYear then (dayOfYear - 1, if dayOfYear - 1 = 31 + 28 then 1 else 0)
    else (dayOfYear, 0)
  let (month, dayOfYear) := monthLoop daysInMonth 1 dayOfYear
  (month, dayOfYear + leapDay)

def getDateFromDaynr (daynr : ℤ) : Date :=
  if daynr ≤ 365 ∨ 3652500 ≤ daynr then ⟨0, 0, 0⟩
  else
    let year := uint64 (daynr * 100) / 36525
    let temp := (uint64 (year - 1) / 100 + 1) * 3 / 4
    let dayOfYear := uint64 (daynr - year * 365 - uint64 (year - 1) / 4 + temp)
    let (year, dayOfYear) := yearLoop year dayOfYear
    let (month, day) := monthAndDay (calcDaysInYear year) dayOfYear
    ⟨year, month, day⟩

/-! ## The calendar -/

def lastDay (leap : Bool) (month : ℤ) : ℤ :=
  if month = 2 then (if leap then 29 else 28)
  else if month = 4 ∨ month = 6 ∨ month = 9 ∨ month = 11 then 30 else 31

theorem lastDay_range (leap : Bool) (month : ℤ) : 1 ≤ lastDay leap month ∧ lastDay leap month ≤ 31 := by
  unfold lastDay
  split_ifs <;> decide

namespace Date

def Valid (t : Date) : Prop :=
  1 ≤ t.month ∧ t.month ≤ 12 ∧ 1 ≤ t.day ∧ t.day ≤ lastDay (isLeapYear t.year) t.month

def next (t : Date) : Date :=
  if t.day < lastDay (isLeapYear t.year) t.month then ⟨t.year, t.month, t.day + 1⟩
  else if t.month < 12 then ⟨t.year, t.month + 1, 1⟩ else ⟨t.year + 1, 1, 1⟩

end Date

def leapDay (leap : Bool) : ℤ := if leap then 1 else 0

def yearBase (year : ℤ) : ℤ := 365 * year + (year - 1) / 4 - ((year - 1) / 100 + 1) * 3 / 4

def dayOfYear (leap : Bool) (month day : ℤ) : ℤ :=
  31 * (month - 1) - (if month ≤ 2 then 0 else (month * 4 + 23) / 10 - leapDay leap) + day

theorem leapDay_isLeapYear (year : ℤ) : leapDay (isLeapYear year) =
    if year % 4 = 0 ∧ year % 100 ≠ 0 ∨ year % 400 = 0 then 1 else 0 := by
  simp [leapDay, isLeapYear]

theorem yearBase_succ (year : ℤ) : yearBase (year + 1) = yearBase year + 365 + leapDay (isLeapYear year) := by
  have h4 : year / 4 = (year - 1) / 4 + if year % 4 = 0 then 1 else 0 := by split <;> omega
  rw [leapDay_isLeapYear, yearBase, yearBase, add_sub_cancel_right, h4]
  by_cases hc : year % 100 = 0
  · have hcentury : year / 100 = (year - 1) / 100 + 1 := by omega
    have h400 : year % 400 = 0 ↔ ((year - 1) / 100 + 1) % 4 = 0 := by omega
    have hmod : year % 4 = 0 := by omega
    simp only [hcentury, h400, hmod, hc, ne_eq, not_true_eq_false, and_false, false_or, if_true]
    generalize (year - 1) / 100 = century
    -- the place of the century in its four hundred years
    obtain h | h | h | h : century % 4 = 0 ∨ century % 4 = 1 ∨ century % 4 = 2 ∨ century % 4 = 3 := by omega
    all_goals split <;> omega
  · have hcentury : year / 100 = (year - 1) / 100 := by omega
    have h400 : year % 400 ≠ 0 := by omega
    simp only [hcentury, h400, hc, ne_eq, not_false_eq_true, and_true, or_false]
    ring

theorem calcDaysInYear_eq {year : ℤ} (hy : 1 ≤ year) : calcDaysInYear year = yearBase (year + 1) - yearBase year := by
  rw [yearBase_succ, leapDay_isLeapYear, calcDaysInYear]
  split <;> split <;> omega

theorem yearBase_mono : Monotone yearBase := by
  refine monotone_int_of_le_succ fun year => ?_
  rw [yearBase_succ, leapDay]
  split <;> omega

theorem monthAndDay_dayOfYear : ∀ (leap : Bool) (m : Fin 13) (d : Fin 32), 1 ≤ m.val → 1 ≤ d.val → (d.val : ℤ) ≤ lastDay
    leap m.val → 1 ≤ dayOfYear leap m.val d.val ∧ dayOfYear leap m.val d.val ≤ 365 + leapDay leap ∧ monthAndDay (365 +
    leapDay leap) (dayOfYear leap m.val d.val) = ((m.val : ℤ), (d.val : ℤ)) := by
  decide +kernel

namespace Date

variable {t : Date}

/-- The number of a day when all days are counted. -/
def ordinal (t : Date) : ℤ := yearBase t.year + dayOfYear (isLeapYear t.year) t.month t.day

/-- A day before the end of the first February, which the day numbers leave out. -/
def Early (t : Date) : Prop := t.year = 0 ∧ t.month ≤ 2

theorem daynr_of_early (h : t.Early) (hm : 1 ≤ t.month) : t.daynr = t.ordinal + 1 := by
  obtain ⟨hy, hle⟩ := h
  rw [daynr, calcDaynr, if_neg (by omega)]
  simp [ordinal, dayOfYear, hle, hy, yearBase]

theorem daynr_eq_ordinal (h : ¬t.Early) (hy : 0 ≤ t.year) (hm : 1 ≤ t.month) : t.daynr = t.ordinal := by
  have hsucc := yearBase_succ t.year
  unfold Early at h
  rw [daynr, ordinal, calcDaynr, dayOfYear]
  unfold yearBase at *
  by_cases hle : t.month ≤ 2
  · simp (disch := omega) only [if_pos hle, Int.tdiv_eq_ediv_of_nonneg]
    omega
  · simp (disch := omega) only [if_neg hle, Int.tdiv_eq_ediv_of_nonneg]
    omega

theorem not_early (hy : 1 ≤ t.year) : ¬t.Early := fun h => absurd h.1 (by omega)

theorem ordinal_next (h : t.Valid) : t.next.ordinal = t.ordinal + 1 := by
  obtain ⟨hm1, hm2, hd1, hd2⟩ := h
  have hsucc := yearBase_succ t.year
  unfold next ordinal
  split
  · dsimp only
    rw [dayOfYear, dayOfYear]
    omega
  split
  · generalize isLeapYear t.year = leap at *
    generalize t.month = month at *
    unfold lastDay dayOfYear leapDay at *
    interval_cases month <;> cases leap <;> simp at * <;> omega
  · simp [dayOfYear, lastDay] at *
    omega

theorem valid_next (h : t.Valid) (hy : 1 ≤ t.year) : t.next.Valid ∧ 1 ≤ t.next.year := by
  have hlast := fun leap => lastDay_range leap (t.month + 1)
  have hlast' := fun leap => lastDay_range leap 1
  unfold next Valid at *
  grind

theorem daynr_next (h : t.Valid) (hy : 1 ≤ t.year) : t.next.daynr = t.daynr + 1 := by
  obtain ⟨hnext, hy'⟩ := valid_next h hy
  rw [daynr_eq_ordinal (not_early hy) (by omega) h.1, ← ordinal_next h]
  exact daynr_eq_ordinal (not_early hy') (by omega) hnext.1

theorem daynr_iterate (h : t.Valid) (hy : 1 ≤ t.year) (k : ℕ) :
    ((next^[k] t).Valid ∧ 1 ≤ (next^[k] t).year) ∧ (next^[k] t).daynr = t.daynr + k := by
  induction k with
  | zero => exact ⟨⟨h, hy⟩, (add_zero _).symm⟩
  | succ k ih =>
    rw [Function.iterate_succ_apply']
    refine ⟨valid_next ih.1.1 ih.1.2, ?_⟩
    rw [daynr_next ih.1.1 ih.1.2, ih.2]
    push_cast
    ring

theorem exists_daynr {n : ℤ} (hn : 365 < n) : ∃ t : Date, t.Valid ∧ 1 ≤ t.year ∧ t.daynr = n := by
  obtain ⟨⟨h, hy⟩, heq⟩ := @daynr_iterate ⟨1, 1, 1⟩ ⟨le_rfl, by decide, le_rfl, by decide⟩ le_rfl (n - 366).toNat
  refine ⟨_, h, hy, heq.trans ?_⟩
  rw [show daynr ⟨1, 1, 1⟩ = 366 by decide]
  omega

theorem dayOfYear_spec (h : t.Valid) : 1 ≤ dayOfYear (isLeapYear t.year) t.month t.day ∧ dayOfYear (isLeapYear t.year)
    t.month t.day ≤ 365 + leapDay (isLeapYear t.year) ∧ monthAndDay (365 + leapDay (isLeapYear t.year)) (dayOfYear
    (isLeapYear t.year) t.month t.day) = (t.month, t.day) := by
  obtain ⟨hm1, hm2, hd1, hd2⟩ := h
  have hlast := lastDay_range (isLeapYear t.year) t.month
  have hspec := monthAndDay_dayOfYear (isLeapYear t.year) ⟨t.month.toNat, by omega⟩ ⟨t.day.toNat, by omega⟩
    (show 1 ≤ t.month.toNat by omega) (show 1 ≤ t.day.toNat by omega)
  rw [Int.toNat_of_nonneg (by omega), Int.toNat_of_nonneg (by omega)] at hspec
  exact hspec hd2

end Date

theorem yearLoop_eq {year n : ℤ} (hlt : yearBase year < n) (hle : n ≤ yearBase (year + 1)) (k : ℕ)
    (hk : 1 ≤ year - k) : yearLoop (year - k) (n - yearBase (year - k)) = (year, n - yearBase year) := by
  induction k with
  | zero =>
    have hdays := calcDaysInYear_eq (show 1 ≤ year by omega)
    rw [yearLoop, if_neg (by simp; omega)]
    simp
  | succ k ih =>
    have hdays := calcDaysInYear_eq hk
    have hmono := @yearBase_mono (year - (k + 1 : ℕ) + 1) year (by omega)
    rw [yearLoop, if_pos (by omega), hdays, sub_sub, add_sub_cancel, ← ih (by omega)]
    push_cast
    rw [show year - (k + 1) + 1 = year - k by ring]

theorem getDateFromDaynr_daynr {t : Date} (h : t.Valid) (hy : 1 ≤ t.year) (hlt : t.daynr < 3652500) :
    365 < t.daynr ∧ getDateFromDaynr t.daynr = t := by
  obtain ⟨h1, h2, hdate⟩ := Date.dayOfYear_spec h
  have hsucc := yearBase_succ t.year
  have hn : t.daynr = yearBase t.year + _ := 
    Date.daynr_eq_ordinal (Date.not_early hy) (by omega) h.1
  have hfirst := yearBase_mono hy
  have hone : yearBase 1 = 365 := by decide
  generalize t.daynr = n at *
  refine ⟨by omega, ?_⟩
  have hup : n ≤ yearBase (t.year + 1) := by omega
  have hguess : 1 ≤ n * 100 / 36525 ∧ n * 100 / 36525 ≤ t.year ∧ n * 100 / 36525 < 10000 := by
    unfold yearBase at hup
    omega
  have hmono := yearBase_mono hguess.2.1
  obtain ⟨k, hk⟩ := Int.eq_ofNat_of_zero_le (show 0 ≤ t.year - n * 100 / 36525 by omega)
  have hloop := @yearLoop_eq t.year n (by omega) hup k (by omega)
  rw [show t.year - (k : ℤ) = n * 100 / 36525 by omega] at hloop
  rw [getDateFromDaynr, if_neg (by omega), uint64_of_nonneg (by omega) (by unfold GoLang.maxUint64; omega)]
  dsimp only
  generalize n * 100 / 36525 = guess at *
  have hbase : uint64 (n - guess * 365 - uint64 (guess - 1) / 4 + (uint64 (guess - 1) / 100 + 1) * 3 / 4) =
      n - yearBase guess := by
    rw [uint64_of_nonneg (x := guess - 1) (by omega) (by unfold GoLang.maxUint64; omega)]
    unfold yearBase at *
    rw [uint64_of_nonneg (by omega) (by unfold GoLang.maxUint64; omega)]
    ring
  rw [hbase, hloop]
  rw [calcDaysInYear_eq hy, hsucc, show n - yearBase t.year = dayOfYear (isLeapYear t.year) t.month t.day by omega,
    add_assoc, add_sub_cancel_left, hdate]

theorem Date.eq_of_daynr {t t' : Date} (h : t.Valid) (hy : 1 ≤ t.year) (h' : t'.Valid) (hy' : 1 ≤ t'.year)
    (hlt : t.daynr < 3652500) (heq : t'.daynr = t.daynr) : t' = t := by
  rw [← (getDateFromDaynr_daynr h hy hlt).2, ← (getDateFromDaynr_daynr h' hy' (heq.trans_lt hlt)).2, heq]

theorem Date.le_year {t : Date} (h : t.Valid) (hy : 1 ≤ t.year) (k : ℤ) : k ≤ t.year ↔ yearBase k < t.daynr := by
  obtain ⟨h1, h2, -⟩ := dayOfYear_spec h
  have hsucc := yearBase_succ t.year
  rw [daynr_eq_ordinal (not_early hy) (by omega) h.1, ordinal]
  refine ⟨fun hle => ?_, fun hlt => ?_⟩
  · have := yearBase_mono hle
    omega
  · by_contra hgt
    have := @yearBase_mono (t.year + 1) k (by omega)
    omega

theorem Date.daynr_lt {t : Date} (h : t.Valid) (hy : 1 ≤ t.year) (hle : t.year ≤ 9999) : t.daynr < 3652500 := by
  have hnot := mt (le_year h hy 10000).mpr (by omega)
  rw [show yearBase 10000 = 3652424 by decide] at hnot
  omega

/-- The dates from 0001-01-01 to 9999-12-31. -/
def Date.Gregorian (t : Date) : Prop := t.Valid ∧ 1 ≤ t.year ∧ t.year ≤ 9999

theorem Date.Gregorian.eq_iterate {t t' : Date} (h : t.Gregorian) (h' : t'.Gregorian) {k : ℕ}
    (heq : t.daynr + k = t'.daynr) : Date.next^[k] t = t' := by
  obtain ⟨⟨hvalid, hyear⟩, hdaynr⟩ := Date.daynr_iterate h.1 h.2.1 k
  exact Date.eq_of_daynr h'.1 h'.2.1 hvalid hyear (Date.daynr_lt h'.1 h'.2.1 h'.2.2) (hdaynr.trans heq)

theorem dateDiff_eq_iff {a b : CoreTime} (ha : a.date.Gregorian) (hb : b.date.Gregorian) (k : ℤ) :
    dateDiff b a = k ↔ Date.next^[k.toNat] a.date = Date.next^[(-k).toNat] b.date := by
  unfold dateDiff
  constructor
  · rintro rfl
    rcases le_total a.date.daynr b.date.daynr with hle | hle
    · rw [show (-(b.date.daynr - a.date.daynr)).toNat = 0 by omega]
      exact ha.eq_iterate hb (by omega)
    · rw [show (b.date.daynr - a.date.daynr).toNat = 0 by omega]
      exact (hb.eq_iterate ha (by omega)).symm
  · intro hnext
    have hday := congrArg Date.daynr hnext
    rw [(Date.daynr_iterate ha.1 ha.2.1 _).2, (Date.daynr_iterate hb.1 hb.2.1 _).2] at hday
    omega

/-- The day numbers of the dates from 0001-01-01 on are consecutive, and those up to 10000-03-15 are turned back into
their dates.  The difference of two dates is the number of days from the one to the other, in either direction. -/
theorem daynr_spec :
    (∀ t : Date, t.Valid → 1 ≤ t.year →
      t.next.daynr = t.daynr + 1 ∧ (t.year ≤ 9999 → t.daynr < 3652500)) ∧
    (∀ n t, 365 < n → n < 3652500 →
      (getDateFromDaynr n = t ↔ t.Valid ∧ 1 ≤ t.year ∧ t.daynr = n)) ∧
    (∀ n, n ≤ 365 ∨ 3652500 ≤ n → getDateFromDaynr n = ⟨0, 0, 0⟩) ∧
    ∀ a b : CoreTime, a.date.Gregorian → b.date.Gregorian → ∀ k : ℤ,
      dateDiff b a = k ↔ Date.next^[k.toNat] a.date = Date.next^[(-k).toNat] b.date := by
  refine ⟨fun t h hy => ⟨Date.daynr_next h hy, Date.daynr_lt h hy⟩, fun n t hlo hhi => ⟨?_, ?_⟩, fun n hn => if_pos hn,
    fun a b ha hb k => dateDiff_eq_iff ha hb k⟩
  · rintro rfl
    obtain ⟨t, h, hy, rfl⟩ := Date.exists_daynr hlo
    rw [(getDateFromDaynr_daynr h hy hhi).2]
    exact ⟨h, hy, rfl⟩
  · rintro ⟨h, hy, rfl⟩
    exact (getDateFromDaynr_daynr h hy hhi).2

/-- The first day after 9999-12-31 has a date. -/
theorem getDateFromDaynr_after_last : getDateFromDaynr 3652425 = ⟨10000, 1, 1⟩ ∧
    ∀ t : Date, t.Valid → 1 ≤ t.year → t.year ≤ 9999 → t.daynr ≠ 3652425 := by
  have hvalid : Date.Valid ⟨10000, 1, 1⟩ := ⟨le_rfl, by decide, le_rfl, by decide⟩
  have hdaynr : Date.daynr ⟨10000, 1, 1⟩ = 3652425 := by decide
  refine ⟨hdaynr ▸ (getDateFromDaynr_daynr hvalid (by decide) (by decide)).2, fun t h hy hle heq => ?_⟩
  have := Date.eq_of_daynr hvalid (by decide) h hy (by decide) (heq.trans hdaynr.symm)
  rw [this] at hle
  exact absurd hle (by decide)

end Tidb.Types
