import Tidb.Errors
import Tidb.Lib.Cells

/-!
# Dates and times (`types/time.go`, `types/core_time.go`)

A `CoreTime` is a word of bit fields in the source and a record of bounded fields here; a `Time` adds the four bits of
the fractional-second precision and the type.  A `Location` is what Go's `time` does with it: the instant of a date and
a clock, and the fields of an instant.
-/

namespace Tidb.Types

open GoLang ByteNum

inductive MysqlType where
  | unspecified | tiny | short | long | float | double | null | timestamp | longlong | int24 | date
  | duration | datetime | year | newDate | varchar | bit | json | newDecimal | enum | set | tinyBlob
  | mediumBlob | longBlob | blob | varString | string | geometry
  deriving DecidableEq, Repr

structure CoreTime where
  year : Fin (2 ^ 14)
  month : Fin (2 ^ 4)
  day : Fin (2 ^ 5)
  hour : Fin (2 ^ 5)
  minute : Fin (2 ^ 6)
  second : Fin (2 ^ 6)
  microsecond : Fin (2 ^ 20)
  deriving DecidableEq, Repr

-- the widths of the fields
instance neZero4 : NeZero (2 ^ 4) := ⟨by decide⟩
instance neZero5 : NeZero (2 ^ 5) := ⟨by decide⟩
instance neZero6 : NeZero (2 ^ 6) := ⟨by decide⟩
instance neZero14 : NeZero (2 ^ 14) := ⟨by decide⟩
instance neZero20 : NeZero (2 ^ 20) := ⟨by decide⟩

def zeroCoreTime : CoreTime := ⟨0, 0, 0, 0, 0, 0, 0⟩

def bitField (w : Nat) (x : Int) : Fin (2 ^ w) :=
  ⟨(x % 2 ^ w).toNat, by
    have hpos : (0 : Int) < 2 ^ w := by positivity
    have hlt := Int.emod_lt_of_pos x hpos
    have hcast : ((2 ^ w : Nat) : Int) = 2 ^ w := by push_cast; rfl
    omega⟩

structure DateFields where
  year : Int
  month : Int
  day : Int
  hour : Int
  minute : Int
  second : Int
  microsecond : Int
  deriving DecidableEq, Repr

def fromDate (f : DateFields) : CoreTime :=
  ⟨bitField 14 f.year, bitField 4 f.month, bitField 5 f.day, bitField 5 f.hour,
    bitField 6 f.minute, bitField 6 f.second, bitField 20 f.microsecond⟩

def CoreTime.fields (t : CoreTime) : DateFields :=
  ⟨t.year.val, t.month.val, t.day.val, t.hour.val, t.minute.val, t.second.val, t.microsecond.val⟩

structure Time where
  coreTime : CoreTime
  fspTt : Fin 16
  deriving DecidableEq, Repr

def fspTtForDate : Fin 16 := 0b1110

namespace Time

def type (t : Time) : MysqlType :=
  if t.fspTt = fspTtForDate then .date
  else if t.fspTt.val % 2 = 1 then .timestamp
  else .datetime

end Time

def datetimeToUint64 (t : CoreTime) : Nat :=
  t.year.val * 10 ^ 10 + t.month.val * 10 ^ 8 + t.day.val * 10 ^ 6 + t.hour.val * 10 ^ 4 +
    t.minute.val * 10 ^ 2 + t.second.val

def compareTime (a b : CoreTime) : Ordering :=
  (compare (datetimeToUint64 a) (datetimeToUint64 b)).then
    (compare a.microsecond.val b.microsecond.val)

def Time.isZero (t : Time) : Bool := compareTime t.coreTime zeroCoreTime == .eq

/-- `date` is the instant, in microseconds, that `time.Date` gives for a date and a clock in the zone, and `fields` are
the date and the clock of an instant, whose month is one of the twelve. -/
structure Location where
  date : DateFields → Int
  fields : Int → DateFields
  month_range : ∀ i, 1 ≤ (fields i).month ∧ (fields i).month ≤ 12

def fixedZone : Location := ⟨fun _ => 0, fun _ => ⟨1970, 1, 1, 0, 0, 0, 0⟩, fun _ => by decide⟩

/-- `GoTime`: the instant, unless the zone does not have this date and clock. -/
def CoreTime.goTime (t : CoreTime) (loc : Location) : Res Int :=
  let tm := loc.date t.fields
  if loc.fields tm = t.fields then .ok tm
  else .error (.errWrongValue [.text "time", .nums [t.year.val, t.month.val, t.day.val, t.hour.val,
    t.minute.val, t.second.val, t.microsecond.val]])

def Time.convertTimeZone (t : Time) (src dst : Location) : Res Time :=
  if t.isZero then .ok t
  else do
    let raw ← t.coreTime.goTime src
    return { t with coreTime := fromDate (dst.fields raw) }

def Time.toPackedUint (t : Time) : UInt64 :=
  if t.isZero then 0
  else
    let c := t.coreTime
    let ymd := (c.year.val * 13 + c.month.val) <<< 5 ||| c.day.val
    let hms := c.hour.val <<< 12 ||| c.minute.val <<< 6 ||| c.second.val
    UInt64.ofNat ((ymd <<< 17 ||| hms) <<< 24 ||| c.microsecond.val)

/-! ## Fields -/

theorem Time.convertTimeZone_month {t u : Time} {src dst : Location}
    (h : t.convertTimeZone src dst = .ok u) (ht : t.coreTime.month.val ≤ 12) : u.coreTime.month.val ≤ 12 := by
  rw [convertTimeZone] at h
  split at h
  · cases h
    exact ht
  · rw [Outcome.bind_eq_ok] at h
    obtain ⟨raw, -, hu⟩ := h
    cases hu
    have hr := dst.month_range raw
    simp only [fromDate, bitField]
    omega

/-! ## Packed times -/

def packed (c : CoreTime) : Nat :=
  (((c.year.val * 13 + c.month.val) * 2 ^ 5 + c.day.val) * 2 ^ 17 +
    (c.hour.val * 2 ^ 12 + c.minute.val * 2 ^ 6 + c.second.val)) * 2 ^ 24 + c.microsecond.val

theorem shiftLeft_or {a b n : Nat} (h : b < 2 ^ n) : a <<< n ||| b = a * 2 ^ n + b := by
  rw [← Nat.shiftLeft_add_eq_or_of_lt h, Nat.shiftLeft_eq]

theorem packed_lt (c : CoreTime) : packed c < 2 ^ 64 := by
  simp only [packed]
  omega

/-- `compareTime` compares field by field, which for valid months is the order of packed times. -/
theorem compareTime_eq_compare_packed {a b : CoreTime} (ha : a.month.val ≤ 12)
    (hb : b.month.val ≤ 12) : compareTime a b = compare (packed a) (packed b) := by
  obtain ⟨⟨y', hy'⟩, ⟨m', hm'⟩, ⟨d', hd'⟩, ⟨h', hh'⟩, ⟨mi', hmi'⟩, ⟨s', hs'⟩, ⟨us', hus'⟩⟩ := b
  simp only at ha hb
  have hdec : ∀ y m d h mi s : Nat, y * 10 ^ 10 + m * 10 ^ 8 + d * 10 ^ 6 + h * 10 ^ 4 +
      mi * 10 ^ 2 + s = ((((y * 100 + m) * 100 + d) * 100 + h) * 100 + mi) * 100 + s := by
    intros
    ring
  have hbin : ∀ y m d h mi s us : Nat, ((((y * 13 + m) * 2 ^ 5 + d) * 2 ^ 17 + (h * 2 ^ 12 + mi * 2 ^ 6 + s)) * 2 ^ 24 +
      us : Nat) = (((((y * 13 + m) * 32 + d) * 32 + h) * 64 + mi) * 64 + s) * 2 ^ 24 + us := by
    intros
    ring
  -- both sides are the lexicographic comparison of the fields
  simp only [compareTime, datetimeToUint64, packed, hdec, hbin]
  simp (disch := omega) only [compare_add_mul]

theorem isZero_iff (t : Time) : t.isZero = true ↔ t.coreTime = zeroCoreTime := by
  constructor
  · intro h
    rw [Time.isZero, beq_iff_eq, compareTime, Ordering.then_eq_eq, Nat.compare_eq_eq, Nat.compare_eq_eq] at h
    obtain ⟨c, fsp⟩ := t
    obtain ⟨⟨y, hy⟩, ⟨m, hm⟩, ⟨d, hd⟩, ⟨h', hh⟩, ⟨mi, hmi⟩, ⟨s, hs⟩, ⟨us, hus⟩⟩ := c
    have hzero : datetimeToUint64 zeroCoreTime = 0 := rfl
    rw [hzero] at h
    simp only [datetimeToUint64] at h
    have hus0 : us = 0 := h.2
    obtain ⟨rfl, rfl, rfl, rfl, rfl, rfl⟩ : y = 0 ∧ m = 0 ∧ d = 0 ∧ h' = 0 ∧ mi = 0 ∧ s = 0 := by omega
    subst hus0
    rfl
  · intro h
    rw [Time.isZero, h]
    decide

theorem toNat_toPackedUint (t : Time) : t.toPackedUint.toNat = packed t.coreTime := by
  by_cases hz : t.isZero = true
  · rw [Time.toPackedUint, if_pos hz, (isZero_iff t).mp hz]
    rfl
  · have hlt := packed_lt t.coreTime
    have hhms : t.coreTime.hour.val <<< 12 ||| t.coreTime.minute.val <<< 6 |||
        t.coreTime.second.val = t.coreTime.hour.val * 2 ^ 12 + t.coreTime.minute.val * 2 ^ 6 +
          t.coreTime.second.val := by
      have hs := t.coreTime.second.isLt
      rw [Nat.or_assoc, shiftLeft_or hs, shiftLeft_or (by omega)]
      omega
    rw [Time.toPackedUint, if_neg hz]
    simp only [hhms]
    rw [shiftLeft_or t.coreTime.day.isLt, shiftLeft_or (by omega), shiftLeft_or (by omega),
      UInt64.toNat_ofNat_of_lt' (by rw [packed] at hlt; exact hlt), packed]

theorem compare_toPackedUint {t u : Time} (ht : t.coreTime.month.val ≤ 12) (hu : u.coreTime.month.val ≤ 12) :
    compare t.toPackedUint.toNat u.toPackedUint.toNat = compareTime t.coreTime u.coreTime := by
  rw [toNat_toPackedUint, toNat_toPackedUint, compareTime_eq_compare_packed ht hu]

end Tidb.Types
