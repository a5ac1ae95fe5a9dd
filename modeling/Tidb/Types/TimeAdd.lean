import Tidb.Types.Datum
import Tidb.Types.TimestampDiff

/-!
# Times and durations (`types/time.go`)

`Add` goes through the day number of the sum.  A day number before 0001-01-01 has no date, so the sum gets the zero
date, and the check that follows takes the zero date for a valid one.
-/

namespace Tidb.Types

open GoLang CoreTime Outcome

/-! ## Checks -/

/-- What `check` reads of a statement context. -/
structure DateContext where
  ignoreZeroInDate : Bool
  allowInvalidDate : Bool
  timeZone : TimeZone

def maxDatetime : CoreTime := fromDate ⟨9999, 12, 31, 23, 59, 59, 999999⟩

def minTimestamp : CoreTime := fromDate ⟨1970, 1, 1, 0, 0, 1, 0⟩

def maxTimestamp : CoreTime := fromDate ⟨2038, 1, 19, 3, 14, 7, 999999⟩

def maxDaysInMonth : List ℤ := [31, 29, 31, 30, 31, 30, 31, 31, 30, 31, 30, 31]

def wrongDate (format : String) (year month day : ℤ) : Err :=
  .errWrongValue [.text "datetime", .text format, .nums [year, month, day]]

def CoreTime.wrongTime (t : CoreTime) : Err :=
  let f := t.fields
  .errWrongValue [.text "time", .nums [f.year, f.month, f.day, f.hour, f.minute, f.second, f.microsecond]]

def checkMonthDay (year month day : ℤ) (allowInvalidDate : Bool) : Res Unit :=
  if month < 0 ∨ 12 < month then .error (wrongDate "%d-%d-%d" year month day)
  else
    let maxDay :=
      if allowInvalidDate then 31
      else if month = 2 ∧ !isLeapYear year then 28
      else if 0 < month then maxDaysInMonth.getD (month - 1).toNat 31 else 31
    if day < 0 ∨ maxDay < day then .error (wrongDate "%d-%d-%d" year month day) else .ok ()

def checkDateRange (t : CoreTime) : Res Unit :=
  if compareTime t maxDatetime = .gt then .error t.wrongTime else .ok ()

def checkDateType (t : CoreTime) (allowZeroInDate allowInvalidDate : Bool) : Res Unit :=
  let f := t.fields
  if f.year = 0 ∧ f.month = 0 ∧ f.day = 0 then .ok ()
  else if !allowZeroInDate ∧ (f.month = 0 ∨ f.day = 0) then .error (wrongDate "%04d-%02d-%02d" f.year f.month f.day)
  else do
    checkDateRange t
    checkMonthDay f.year f.month f.day allowInvalidDate

def checkDatetimeType (t : CoreTime) (allowZeroInDate allowInvalidDate : Bool) : Res Unit := do
  checkDateType t allowZeroInDate allowInvalidDate
  let f := t.fields
  if 24 ≤ f.hour then .error (.errWrongValue [.text "time", .num f.hour])
  else if 60 ≤ f.minute then .error (.errWrongValue [.text "time", .num f.minute])
  else if 60 ≤ f.second then .error (.errWrongValue [.text "time", .num f.second])
  else .ok ()

/-- The precision has three bits. -/
def newTime (coreTime : CoreTime) (tp : MysqlType) (fsp : ℤ) : Time :=
  if tp = .date then ⟨coreTime, fspTtForDate⟩
  else ⟨coreTime, bitField 4 (2 * (if fsp = -1 then 0 else fsp) + if tp = .timestamp then 1 else 0)⟩

def checkTimestampType (utc : Location) (sc : Option DateContext) (t : CoreTime) : Res Unit :=
  if compareTime t zeroCoreTime = .eq then .ok ()
  else
    match sc with
    | none => .error (.new "statementContext is required during checkTimestampType")
    | some sc => do
      let checkTime ← match sc.timeZone with
        | .utc => .ok (newTime t .timestamp 0)
        | .loc l => (newTime t .timestamp 0).convertTimeZone l utc
      if compareTime checkTime.coreTime maxTimestamp = .gt ∨ compareTime checkTime.coreTime minTimestamp = .lt then
        .error t.wrongTime
      else do
        let _ ← t.goTime (match sc.timeZone with | .utc => utc | .loc l => l)
        return ()

namespace Time

def fsp (t : Time) : ℤ := if t.fspTt = fspTtForDate then 0 else t.fspTt.val / 2

def check (utc : Location) (sc : Option DateContext) (t : Time) : Res Unit :=
  match t.type with
  | .timestamp => checkTimestampType utc sc t.coreTime
  | .datetime | .date => checkDatetimeType t.coreTime (sc.any (·.ignoreZeroInDate)) (sc.any (·.allowInvalidDate))
  | _ => .ok ()

end Time

/-! ## Sums and differences -/

def splitDuration (t : ℤ) : ℤ × ℤ × ℤ × ℤ × ℤ :=
  let (sign, t) := if t < 0 then (-1, int64 (-t)) else (1, t)
  let minute := t.tmod 3600000000000
  let second := minute.tmod 60000000000
  (sign, t.tdiv 3600000000000, minute.tdiv 60000000000, second.tdiv 1000000000, (second.tmod 1000000000).tdiv 1000)

def calcTimeDurationDiff (t : CoreTime) (d : Duration) : ℤ × ℤ × Bool :=
  let (sign, hh, mm, ss, micro) := splitDuration d.duration.toInt
  calcTimeDiffInternal t 0 0 0 hh mm ss micro (-sign)

def calcTimeFromSec (tm : CoreTime) (seconds microseconds : ℤ) : CoreTime :=
  { tm with
    hour := bitField 5 (seconds.tdiv 3600)
    minute := bitField 6 ((seconds.tmod 3600).tdiv 60)
    second := bitField 6 ((seconds.tmod 3600).tmod 60)
    microsecond := bitField 20 microseconds }

namespace Time

/-- `location` is `sc.TimeZone`; the errors of `GoTime` are only logged, and a difference of instants is cut to the
limits of a `time.Duration`. -/
def sub (location : Location) (t t1 : Time) : Duration :=
  let duration :=
    if t.type = .timestamp ∧ t1.type = .timestamp then
      max (-2 ^ 63) (min (2 ^ 63 - 1) (1000 * (location.date t.coreTime.fields - location.date t1.coreTime.fields)))
    else
      let (seconds, microseconds, neg) := calcTimeTimeDiff t.coreTime t1.coreTime 1
      let duration := int64 (seconds * 1000000000 + microseconds * 1000)
      if neg then -duration else duration
  ⟨Int64.ofInt duration, max t.fsp t1.fsp⟩

def add (utc : Location) (sc : Option DateContext) (t : Time) (d : Duration) : Time × Res Unit :=
  let (seconds, microseconds, _) := calcTimeDurationDiff t.coreTime d
  let date := getDateFromDaynr (uint64 (seconds.tdiv secondsIn24Hour))
  let tm := calcTimeFromSec (fromDate ⟨date.year, date.month, date.day, 0, 0, 0, 0⟩) (seconds.tmod secondsIn24Hour)
    microseconds
  let tm := if t.type = .date then { tm with hour := 0, minute := 0, second := 0, microsecond := 0 } else tm
  let ret := newTime tm t.type (max t.fsp d.fsp)
  (ret, ret.check utc sc)

end Time

def maxDuration : ℤ := 3020399999999

def firstDatetime : CoreTime := ⟨1, 1, 1, 0, 0, 0, 0⟩

/-- The sum, if it is a time of the years 1 to 9999, and an error otherwise. -/
def AddSpec (utc : Location) (sc : Option DateContext) (t : Time) (d : Duration) (u : ℤ) : Prop :=
  if firstDatetime.instant ≤ t.coreTime.instant + u ∧ t.coreTime.instant + u ≤ maxDatetime.instant then
    ∃ r, t.add utc sc d = (r, .ok ()) ∧ r.type = .datetime ∧ r.coreTime.Valid ∧
      r.coreTime.instant = t.coreTime.instant + u
  else ∃ e, (t.add utc sc d).2 = .error e

theorem firstDatetime_instant : firstDatetime.instant = 366 * 86400000000 := by decide

theorem maxDatetime_instant : maxDatetime.instant = 3652425 * 86400000000 - 1 := by decide

theorem splitMicros_eq (x : ℤ) : splitMicros x = (|x| / 1000000, |x| % 1000000, decide (x < 0)) := by
  obtain h | h := lt_or_ge x 0
  · rw [splitMicros, if_pos h, abs_of_neg h, decide_eq_true h]
    simp (disch := omega) only [Int.tdiv_eq_ediv_of_nonneg, Int.tmod_eq_emod_of_nonneg]
  · rw [splitMicros, if_neg h.not_gt, abs_of_nonneg h, decide_eq_false h.not_gt]
    simp (disch := omega) only [Int.tdiv_eq_ediv_of_nonneg, Int.tmod_eq_emod_of_nonneg]

theorem bitField_of_lt {w : ℕ} {x : ℤ} (h0 : 0 ≤ x) (h : x < 2 ^ w) : ((bitField w x).val : ℤ) = x := by
  show (((x % 2 ^ w).toNat : ℕ) : ℤ) = x
  rw [Int.emod_eq_of_lt h0 h, Int.toNat_of_nonneg h0]

theorem calcTimeDurationDiff_eq (t : CoreTime) {d : Duration} {u : ℤ} (hd : d.duration.toInt = 1000 * u)
    (hu : |u| ≤ maxDuration) : calcTimeDurationDiff t d = splitMicros (t.stamp + u) := by
  rw [abs_le, maxDuration] at hu
  have hneg : int64 (-(1000 * u)) = -(1000 * u) := int64_of_isInt64 ⟨by omega, by omega⟩
  unfold calcTimeDurationDiff splitDuration
  rw [hd, hneg]
  by_cases hlt : 1000 * u < 0 <;> simp only [hlt, if_true, if_false]
  all_goals
    refine congrArg splitMicros ?_
    simp (disch := omega) only [Int.tdiv_eq_ediv_of_nonneg, Int.tmod_eq_emod_of_nonneg]
    unfold stamp clock daySeconds Date.daynr date fields secondsIn24Hour
    rw [show calcDaynr 0 0 0 = 0 from rfl]
    dsimp only
    omega

def ofMicros (date : Date) (x : ℤ) : CoreTime :=
  calcTimeFromSec (fromDate ⟨date.year, date.month, date.day, 0, 0, 0, 0⟩) (x / 1000000 % 86400) (x % 1000000)

theorem ofMicros_spec {D : Date} (hy : 0 ≤ D.year ∧ D.year < 2 ^ 14) (hm : 0 ≤ D.month ∧ D.month < 2 ^ 4)
    (hd : 0 ≤ D.day ∧ D.day < 2 ^ 5) (x : ℤ) : (ofMicros D x).date = D ∧ (ofMicros D x).fields.hour < 24 ∧
      (ofMicros D x).fields.minute < 60 ∧ (ofMicros D x).fields.second < 60 ∧
        (ofMicros D x).fields.microsecond < 1000000 ∧ (ofMicros D x).clock = x % 86400000000 := by
  unfold ofMicros calcTimeFromSec fromDate clock daySeconds date fields
  simp (disch := omega) only [Int.tdiv_eq_ediv_of_nonneg, Int.tmod_eq_emod_of_nonneg, bitField_of_lt]
  exact ⟨trivial, by omega⟩

theorem type_newTime (c : CoreTime) {fsp : ℤ} (h0 : 0 ≤ fsp) (h6 : fsp ≤ 6) :
    (newTime c .datetime fsp).type = .datetime := by
  have hval : ((bitField 4 (2 * fsp + 0)).val : ℤ) = 2 * fsp + 0 := bitField_of_lt (by omega) (by omega)
  rw [newTime, if_neg (by decide), if_neg (by omega), if_neg (by decide), Time.type]
  dsimp only
  rw [if_neg, if_neg (by omega)]
  intro h
  rw [h, show (fspTtForDate.val : ℤ) = 14 from rfl] at hval
  omega

section

variable {c : CoreTime} (h : c.Valid)
include h

theorem compareTime_maxDatetime : compareTime c maxDatetime = .gt ↔ 9999 < c.date.year := by
  have hlast := lastDay_range (isLeapYear c.date.year) c.date.month
  obtain ⟨⟨hm1, hm2, hd1, hd2⟩, hh, hmi, hs, hu⟩ := h
  rw [compareTime, show datetimeToUint64 maxDatetime = 99991231235959 by decide,
    show maxDatetime.microsecond.val = 999999 by decide, Ordering.then_eq_gt, Nat.compare_eq_gt, Nat.compare_eq_eq,
    Nat.compare_eq_gt]
  unfold datetimeToUint64 date fields at *
  dsimp only at *
  omega

theorem checkMonthDay_of_valid (allowInvalid : Bool) :
    checkMonthDay c.fields.year c.fields.month c.fields.day allowInvalid = .ok () := by
  obtain ⟨⟨hm1, hm2, hd1, hd2⟩, -⟩ := h
  unfold checkMonthDay date fields at *
  dsimp only at *
  generalize isLeapYear c.year.val = leap at *
  generalize (c.month.val : ℤ) = month at *
  rw [if_neg (by omega), if_neg]
  unfold lastDay at hd2
  interval_cases month <;> cases leap <;> cases allowInvalid <;> simp [maxDaysInMonth] at * <;> omega

theorem checkDatetimeType_of_valid (hy : 1 ≤ c.date.year) (allowZero allowInvalid : Bool) :
    checkDatetimeType c allowZero allowInvalid = if c.date.year ≤ 9999 then .ok () else .error c.wrongTime := by
  have hrange := compareTime_maxDatetime h
  have hday := checkMonthDay_of_valid h allowInvalid
  obtain ⟨⟨hm1, -, hd1, -⟩, hh, hmi, hs, -⟩ := h
  unfold checkDatetimeType checkDateType checkDateRange
  unfold date at *
  unfold fields at *
  dsimp only at *
  rw [if_neg (by omega), if_neg (by omega), hday]
  by_cases hle : (c.year.val : ℤ) ≤ 9999
  · rw [if_neg (mt hrange.mp (by omega)), if_pos hle, ok_bind, ok_bind, if_neg (by omega), if_neg (by omega),
      if_neg (by omega)]
  · rw [if_pos (hrange.mpr (by omega)), if_neg hle]
    rfl

end

theorem CoreTime.eq_of_instant {a b : CoreTime} (ha : a.Valid) (hb : b.Valid) (h : a.instant = b.instant) : a = b := by
  have hmoved := moved_eq ha hb h
  unfold CoreTime.Valid Date.Valid date fields at ha hb
  unfold moved clock daySeconds date fields at hmoved
  simp only [EmbeddingLike.apply_eq_iff_eq, Prod.mk.injEq] at hmoved
  dsimp only at *
  cases a
  cases b
  simp only [CoreTime.mk.injEq, Fin.ext_iff] at *
  omega

/-! ## What the sum is -/

namespace Time

structure IsDatetime (t : Time) : Prop where
  type : t.type = .datetime
  valid : t.coreTime.Valid
  year_pos : 1 ≤ t.coreTime.date.year
  year_le : t.coreTime.date.year ≤ 9999

variable {t : Time}

theorem fsp_range (h : t.type = .datetime) : 0 ≤ t.fsp ∧ t.fsp ≤ 6 := by
  unfold Time.type at h
  split_ifs at h with hne
  have hval : t.fspTt.val ≠ 14 := fun heq => hne (Fin.ext heq)
  rw [fsp, if_neg hne]
  omega

theorem IsDatetime.instant_range (h : t.IsDatetime) : t.coreTime.stamp = t.coreTime.instant ∧
    firstDatetime.instant ≤ t.coreTime.instant ∧ t.coreTime.instant ≤ maxDatetime.instant := by
  have hclock := clock_range h.valid
  have hy := h.year_pos
  have hle := (Date.le_year h.valid.1 hy 1).mp hy
  have hlt := mt (Date.le_year h.valid.1 hy 10000).mpr (by have := h.year_le; omega)
  rw [show yearBase 1 = 365 by decide] at hle
  rw [show yearBase 10000 = 3652424 by decide] at hlt
  rw [firstDatetime_instant, maxDatetime_instant, stamp, instant,
    ← Date.daynr_eq_ordinal (Date.not_early hy) (by omega) h.valid.1.1]
  exact ⟨rfl, by omega, by omega⟩

variable {d : Duration} {u : ℤ} (utc : Location) (sc : Option DateContext) (h : t.IsDatetime) (hfsp : d.fsp ≤ 6)
  (hd : d.duration.toInt = 1000 * u) (hu : |u| ≤ maxDuration)
include h hfsp hd hu

theorem add_eq {x : ℤ} (hx : t.coreTime.instant + u = x) : ∃ r : Time, r.type = .datetime ∧
    r.coreTime = ofMicros (getDateFromDaynr (x / 86400000000)) x ∧ t.add utc sc d =
      (r, checkDatetimeType r.coreTime (sc.any (·.ignoreZeroInDate)) (sc.any (·.allowInvalidDate))) := by
  obtain ⟨hstamp, hlo, hhi⟩ := h.instant_range
  rw [firstDatetime_instant] at hlo
  rw [maxDatetime_instant] at hhi
  have hfsp' := fsp_range h.type
  have hrange := abs_le.mp hu
  unfold maxDuration at hrange
  have htype := type_newTime (ofMicros (getDateFromDaynr (x / 86400000000)) x) (le_max_of_le_left hfsp'.1)
    (max_le hfsp'.2 hfsp)
  refine ⟨_, htype, rfl, ?_⟩
  have hday : uint64 ((x / 1000000).tdiv secondsIn24Hour) = x / 86400000000 := by
    rw [secondsIn24Hour, Int.tdiv_eq_ediv_of_nonneg (by omega), uint64_of_nonneg (by omega)
      (by unfold GoLang.maxUint64; omega)]
    omega
  rw [add, calcTimeDurationDiff_eq _ hd hu, hstamp, hx, splitMicros_eq, abs_of_nonneg (by omega)]
  dsimp only
  rw [hday, h.type, if_neg (by decide), secondsIn24Hour, Int.tmod_eq_emod_of_nonneg (by omega), ← ofMicros,
    check, htype]

theorem addSpec_iff : AddSpec utc sc t d u ↔ firstDatetime.instant ≤ t.coreTime.instant + u := by
  obtain ⟨x, hx⟩ : ∃ x, t.coreTime.instant + u = x := ⟨_, rfl⟩
  obtain ⟨r, htype, hr, hadd⟩ := add_eq utc sc h hfsp hd hu hx
  obtain ⟨-, hlo, hhi⟩ := h.instant_range
  have hrange := abs_le.mp hu
  unfold maxDuration at hrange
  rw [AddSpec, hadd, hx]
  rw [firstDatetime_instant, maxDatetime_instant] at *
  by_cases hfirst : 366 * 86400000000 ≤ x
  · obtain ⟨D, hD, hy, hn⟩ := Date.exists_daynr (show 365 < x / 86400000000 by omega)
    have hyear := Date.le_year hD hy 10000
    have hyear' := mt (Date.le_year hD hy 10001).mp
    have hlast := lastDay_range (isLeapYear D.year) D.month
    rw [show yearBase 10000 = 3652424 by decide] at hyear
    rw [show yearBase 10001 = 3652790 by decide] at hyear'
    obtain ⟨hm1, hm2, hd1, hd2⟩ := id hD
    obtain ⟨hdate, hh, hmi, hs, hus, hclock⟩ := @ofMicros_spec D ⟨by omega, by omega⟩ ⟨by omega, by omega⟩
      ⟨by omega, by omega⟩ x
    rw [← hn, (getDateFromDaynr_daynr hD hy (by omega)).2] at hr
    rw [← hr] at hdate hh hmi hs hus hclock
    have hvalid : r.coreTime.Valid := ⟨hdate ▸ hD, hh, hmi, hs, hus⟩
    have hinst : r.coreTime.instant = x := by
      rw [instant, hdate, hclock, ← Date.daynr_eq_ordinal (Date.not_early hy) (by omega) hm1]
      omega
    rw [checkDatetimeType_of_valid hvalid (hdate ▸ hy), hdate]
    refine iff_of_true ?_ hfirst
    by_cases hle : D.year ≤ 9999
    · rw [if_pos ⟨hfirst, by omega⟩, if_pos hle]
      exact ⟨r, rfl, htype, hvalid, hinst⟩
    · rw [if_neg (by omega), if_neg hle]
      exact ⟨_, rfl⟩
  · -- the date is the zero date, which passes the check
    refine iff_of_false ?_ hfirst
    rw [if_neg (by omega)]
    rintro ⟨e, he⟩
    rw [show getDateFromDaynr (x / 86400000000) = ⟨0, 0, 0⟩ from if_pos (.inl (by omega))] at hr
    obtain ⟨hdate, hh, hmi, hs, -⟩ := @ofMicros_spec ⟨0, 0, 0⟩ (by decide) (by decide) (by decide) x
    rw [hr, checkDatetimeType, checkDateType, if_pos (by simpa [date, fields] using hdate), ok_bind,
      if_neg (not_le.mpr hh), if_neg (not_le.mpr hmi), if_neg (not_le.mpr hs)] at he
    cases he

omit hfsp hd hu in
theorem toInt_sub {t1 : Time} (h1 : t1.IsDatetime)
    (hu : |t.coreTime.instant - t1.coreTime.instant| ≤ maxDuration) (location : Location) :
    (t.sub location t1).duration.toInt = 1000 * (t.coreTime.instant - t1.coreTime.instant) := by
  rw [sub, if_neg (by rw [h.type]; rintro ⟨⟨⟩, -⟩), calcTimeTimeDiff_eq, h.instant_range.1, h1.instant_range.1,
    splitMicros_eq]
  unfold maxDuration at hu
  have hpos := abs_nonneg (t.coreTime.instant - t1.coreTime.instant)
  dsimp only
  rw [int64_of_isInt64 ⟨by omega, by omega⟩, Int64.toInt_ofInt_of_le (by split <;> omega) (by split <;> omega)]
  obtain ⟨habs, hneg⟩ | ⟨habs, hneg⟩ := abs_cases (t.coreTime.instant - t1.coreTime.instant)
  · rw [if_neg (by simpa using hneg)]
    omega
  · rw [if_pos (by simpa using hneg)]
    omega

end Time

/-- A sum is right unless it is before 0001-01-01, and the sum with a difference always is. -/
theorem add_iff (utc : Location) (sc : Option DateContext) {t : Time} (h : t.IsDatetime) :
    (∀ (d : Duration) (u : ℤ), d.fsp ≤ 6 → d.duration.toInt = 1000 * u → |u| ≤ maxDuration →
      (AddSpec utc sc t d u ↔ firstDatetime.instant ≤ t.coreTime.instant + u)) ∧
    ∀ (location : Location) (t1 : Time), t1.IsDatetime → |t.coreTime.instant - t1.coreTime.instant| ≤ maxDuration →
      ∃ r, t1.add utc sc (t.sub location t1) = (r, .ok ()) ∧ r.coreTime = t.coreTime := by
  refine ⟨fun d u => Time.addSpec_iff utc sc h, fun location t1 h1 hu => ?_⟩
  obtain ⟨-, hrange⟩ := h.instant_range
  have hspec := (Time.addSpec_iff utc sc h1 (max_le (Time.fsp_range h.type).2 (Time.fsp_range h1.type).2)
    (Time.toInt_sub h h1 hu location) hu).mpr
  rw [AddSpec, add_sub_cancel, if_pos hrange] at hspec
  obtain ⟨r, hadd, -, hvalid, hinst⟩ := hspec hrange.1
  exact ⟨r, hadd, eq_of_instant hvalid h.valid hinst⟩

theorem add_one_hour : AddSpec fixedZone none ⟨⟨2000, 1, 1, 0, 0, 0, 0⟩, 0⟩ ⟨3600000000000, 0⟩ 3600000000 :=
  ((add_iff fixedZone none (t := ⟨⟨2000, 1, 1, 0, 0, 0, 0⟩, 0⟩)
    ⟨rfl, by unfold CoreTime.Valid Date.Valid; decide, by decide, by decide⟩).1 _ _ (by decide) (by decide)
      (by decide)).mpr (by decide)

/-- One hour before 0001-01-01. -/
theorem add_before_first : Time.IsDatetime ⟨firstDatetime, 0⟩ ∧
    Time.add fixedZone none ⟨firstDatetime, 0⟩ ⟨-3600000000000, 0⟩ = (⟨⟨0, 0, 0, 23, 0, 0, 0⟩, 0⟩, .ok ()) :=
  ⟨⟨rfl, by unfold CoreTime.Valid Date.Valid; decide, by decide, by decide⟩, by decide⟩

end Tidb.Types
