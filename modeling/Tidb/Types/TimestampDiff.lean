import Tidb.Types.Calendar

/-!
# Differences of times (`types/core_time.go`)

`timestampDiff` counts months by the fields of the two times and the shorter units by their day numbers, which leave
out the last day of the February of the year 0.
-/

namespace Tidb.Types

open GoLang CoreTime Prod.Lex

def secondsIn24Hour : ℤ := 86400

def splitMicros (tmp : ℤ) : ℤ × ℤ × Bool :=
  let (tmp, neg) := if tmp < 0 then (-tmp, true) else (tmp, false)
  (tmp.tdiv 1000000, tmp.tmod 1000000, neg)

/-- No sum leaves the 64 bits. -/
def calcTimeDiffInternal (t1 : CoreTime) (year month day hour minute second microsecond sign : ℤ) : ℤ × ℤ × Bool :=
  let f := t1.fields
  let days := calcDaynr f.year f.month f.day - sign * calcDaynr year month day
  splitMicros ((days * secondsIn24Hour + f.hour * 3600 + f.minute * 60 + f.second -
    sign * (hour * 3600 + minute * 60 + second)) * 1000000 + f.microsecond - sign * microsecond)

def calcTimeTimeDiff (t1 t2 : CoreTime) (sign : ℤ) : ℤ × ℤ × Bool :=
  let f := t2.fields
  calcTimeDiffInternal t1 f.year f.month f.day f.hour f.minute f.second f.microsecond sign

inductive Interval where
  | year | quarter | month | week | day | hour | minute | second | microsecond

def CoreTime.daySeconds (t : CoreTime) : ℤ := t.fields.hour * 3600 + t.fields.minute * 60 + t.fields.second

def monthsBetween (tBeg tEnd : CoreTime) : ℤ :=
  let b := tBeg.fields
  let e := tEnd.fields
  let borrow : Bool := e.month < b.month ∨ e.month = b.month ∧ e.day < b.day
  let years := e.year - b.year - if borrow then 1 else 0
  let months := 12 * years + if borrow then 12 - (b.month - e.month) else e.month - b.month
  uint64 <|
    if e.day < b.day then months - 1
    else if e.day = b.day ∧ (tEnd.daySeconds < tBeg.daySeconds ∨
        tEnd.daySeconds = tBeg.daySeconds ∧ e.microsecond < b.microsecond) then months - 1
    else months

def timestampDiff (intervalType : Interval) (t1 t2 : CoreTime) : ℤ :=
  let (seconds, microseconds, neg) := calcTimeTimeDiff t2 t1 1
  let months := int64 (if neg then monthsBetween t2 t1 else monthsBetween t1 t2)
  let negV := if neg then -1 else 1
  match intervalType with
  | .year => months.tdiv 12 * negV
  | .quarter => months.tdiv 3 * negV
  | .month => months * negV
  | .week => (seconds.tdiv secondsIn24Hour).tdiv 7 * negV
  | .day => seconds.tdiv secondsIn24Hour * negV
  | .hour => seconds.tdiv 3600 * negV
  | .minute => seconds.tdiv 60 * negV
  | .second => seconds * negV
  | .microsecond => (seconds * 1000000 + microseconds) * negV

/-! ## Times in order -/

def monthUnits : List (Interval × ℤ) := [(.year, 12), (.quarter, 3), (.month, 1)]

def exactUnits : List (Interval × ℤ) :=
  [(.day, 86400000000), (.hour, 3600000000), (.minute, 60000000), (.second, 1000000)]

namespace CoreTime

def Valid (t : CoreTime) : Prop :=
  t.date.Valid ∧ t.fields.hour < 24 ∧ t.fields.minute < 60 ∧ t.fields.second < 60 ∧ t.fields.microsecond < 1000000

def clock (t : CoreTime) : ℤ := t.daySeconds * 1000000 + t.fields.microsecond

def moved (t : CoreTime) (n : ℤ) : ℤ ×ₗ ℤ ×ₗ ℤ :=
  toLex (12 * t.date.year + t.date.month + n, toLex (t.date.day, t.clock))

def instant (t : CoreTime) : ℤ := t.date.ordinal * 86400000000 + t.clock

def stamp (t : CoreTime) : ℤ := t.date.daynr * 86400000000 + t.clock

end CoreTime

structure DiffSpec (t1 t2 : CoreTime) : Prop where
  months : t1.moved 0 ≤ t2.moved 0 → ∃ n, IsGreatest {n | t1.moved n ≤ t2.moved 0} n ∧
    ∀ p ∈ monthUnits, timestampDiff p.1 t1 t2 = n.tdiv p.2
  exact : ∀ p ∈ exactUnits, timestampDiff p.1 t1 t2 = (t2.instant - t1.instant).tdiv p.2
  antisymm : ∀ u, timestampDiff u t2 t1 = -timestampDiff u t1 t2

theorem Date.ordinal_lt {a b : Date} (ha : a.Valid) (hb : b.Valid)
    (h : toLex (12 * a.year + a.month, a.day) < toLex (12 * b.year + b.month, b.day)) : a.ordinal < b.ordinal := by
  have months : ∀ (leap : Bool) (m m' : Fin 13), 1 ≤ m.val → m < m' →
      dayOfYear leap m.val (lastDay leap m.val) < dayOfYear leap m'.val 1 := by decide +kernel
  obtain ⟨-, ha2, -⟩ := dayOfYear_spec ha
  obtain ⟨hb1, -, -⟩ := dayOfYear_spec hb
  obtain ⟨ham, ham', -, had⟩ := ha
  obtain ⟨hbm, hbm', hbd, -⟩ := hb
  rw [toLex_lt_toLex] at h
  dsimp only at h
  unfold ordinal
  obtain hy | hy : a.year < b.year ∨ a.year = b.year := by omega
  · have hmono := @yearBase_mono (a.year + 1) b.year hy
    rw [yearBase_succ] at hmono
    omega
  rw [hy] at had ⊢
  obtain hm | hm : a.month < b.month ∨ a.month = b.month := by omega
  · have hlt := months (isLeapYear b.year) ⟨a.month.toNat, by omega⟩ ⟨b.month.toNat, by omega⟩
      (show 1 ≤ a.month.toNat by omega) (show a.month.toNat < b.month.toNat by omega)
    dsimp only at hlt
    rw [Int.toNat_of_nonneg (by omega), Int.toNat_of_nonneg (by omega)] at hlt
    unfold dayOfYear at *
    omega
  · rw [hm]
    unfold dayOfYear
    omega

section

variable {t1 t2 : CoreTime}

theorem calcTimeTimeDiff_eq (t1 t2 : CoreTime) : calcTimeTimeDiff t2 t1 1 = splitMicros (t2.stamp - t1.stamp) := by
  refine congrArg splitMicros ?_
  unfold stamp clock daySeconds Date.daynr date fields secondsIn24Hour
  ring

theorem timestampDiff_of_le (h : t1.stamp ≤ t2.stamp) : (∀ p ∈ exactUnits, timestampDiff p.1 t1 t2 = (t2.stamp -
    t1.stamp).tdiv p.2) ∧ ∀ p ∈ monthUnits, timestampDiff p.1 t1 t2 = (int64 (monthsBetween t1 t2)).tdiv p.2 := by
  have hneg : ¬t2.stamp - t1.stamp < 0 := by omega
  simp [exactUnits, monthUnits, timestampDiff, calcTimeTimeDiff_eq, splitMicros, hneg, secondsIn24Hour]
  generalize t2.stamp - t1.stamp = d at *
  simp (disch := omega) only [Int.tdiv_eq_ediv_of_nonneg]
  omega

theorem timestampDiff_of_lt (h : t2.stamp < t1.stamp) (u : Interval) :
    timestampDiff u t1 t2 = -timestampDiff u t2 t1 := by
  have hneg : t2.stamp - t1.stamp < 0 := by omega
  have hpos : ¬t1.stamp - t2.stamp < 0 := by omega
  cases u <;> simp [timestampDiff, calcTimeTimeDiff_eq, splitMicros, hneg, hpos]

theorem timestampDiff_exact : ∀ p ∈ exactUnits, timestampDiff p.1 t1 t2 = (t2.stamp - t1.stamp).tdiv p.2 := by
  intro p hp
  obtain h | h := le_or_gt t1.stamp t2.stamp
  · exact (timestampDiff_of_le h).1 p hp
  · rw [timestampDiff_of_lt h, (timestampDiff_of_le h.le).1 p hp, ← Int.neg_tdiv, neg_sub]

theorem isGreatest_monthsBetween (h1 : t1.Valid) (h2 : t2.Valid) :
    IsGreatest {n | t1.moved n ≤ t2.moved 0} (int64 (monthsBetween t1 t2)) := by
  have hword : ∀ x, -2 ^ 20 < x → x < 2 ^ 20 → int64 (uint64 x) = x := by
    unfold int64 uint64
    omega
  have hu1 : (t1.microsecond.val : ℤ) < 1000000 := h1.2.2.2.2
  have hu2 : (t2.microsecond.val : ℤ) < 1000000 := h2.2.2.2.2
  unfold monthsBetween moved clock date fields
  simp only [toLex_le_toLex, decide_eq_true_eq]
  rw [hword _ (by split_ifs <;> omega) (by split_ifs <;> omega)]
  constructor
  · rw [Set.mem_ofPred_eq]
    split_ifs <;> omega
  · intro n hn
    rw [Set.mem_ofPred_eq] at hn
    split_ifs <;> omega

theorem CoreTime.clock_range (h : t1.Valid) : 0 ≤ t1.clock ∧ t1.clock < 86400000000 := by
  obtain ⟨-, hh, hm, hs, hu⟩ := h
  unfold clock daySeconds fields at *
  dsimp only at *
  omega

theorem CoreTime.instant_le (h1 : t1.Valid) (h2 : t2.Valid) (h : t1.moved 0 ≤ t2.moved 0) :
    t1.instant ≤ t2.instant ∧ (t1.instant = t2.instant → t1.moved 0 = t2.moved 0) := by
  have hc1 := clock_range h1
  have hc2 := clock_range h2
  have hlt := @Date.ordinal_lt t1.date t2.date h1.1 h2.1
  obtain ⟨⟨hm1, hm1', -⟩, -⟩ := h1
  obtain ⟨⟨hm2, hm2', -⟩, -⟩ := h2
  simp only [moved, toLex_le_toLex, toLex_lt_toLex, add_zero] at h hlt
  unfold instant moved
  by_cases hdate : t1.date = t2.date
  · rw [hdate] at h ⊢
    exact ⟨by omega, fun heq => by rw [show t1.clock = t2.clock by omega]⟩
  · have := hlt (by rw [date, date, Date.mk.injEq] at hdate; unfold date at *; dsimp only at *; omega)
    exact ⟨by omega, fun heq => by omega⟩

theorem CoreTime.moved_eq (h1 : t1.Valid) (h2 : t2.Valid) (h : t1.instant = t2.instant) : t1.moved 0 = t2.moved 0 := by
  obtain hle | hle := le_total (t1.moved 0) (t2.moved 0)
  · exact (instant_le h1 h2 hle).2 h
  · exact ((instant_le h2 h1 hle).2 h.symm).symm

theorem CoreTime.stamp_cases (h : t1.Valid) :
    t1.date.Early ∧ t1.stamp = t1.instant + 86400000000 ∨ ¬t1.date.Early ∧ t1.stamp = t1.instant := by
  rw [stamp, instant]
  by_cases he : t1.date.Early
  · rw [Date.daynr_of_early he h.1.1]
    exact .inl ⟨he, by ring⟩
  · rw [Date.daynr_eq_ordinal he (Int.natCast_nonneg _) h.1.1]
    exact .inr ⟨he, rfl⟩

theorem int64_monthsBetween_self (h1 : t1.Valid) (h2 : t2.Valid) (h : t1.moved 0 = t2.moved 0) :
    int64 (monthsBetween t1 t2) = 0 := by
  refine (isGreatest_monthsBetween h1 h2).unique ⟨h.le, fun n hn => ?_⟩
  rw [Set.mem_ofPred_eq, ← h, moved, moved, toLex_le_toLex] at hn
  dsimp only at hn
  omega

/-- The differences are right for two times on the same side of the end of the first February. -/
theorem timestampDiff_iff (h1 : t1.Valid) (h2 : t2.Valid) : DiffSpec t1 t2 ↔ (t1.date.Early ↔ t2.date.Early) := by
  have hc1 := stamp_cases h1
  have hc2 := stamp_cases h2
  constructor
  · intro h
    have hmem : (Interval.second, (1000000 : ℤ)) ∈ exactUnits := by simp [exactUnits]
    have hsec := h.exact _ hmem
    rw [timestampDiff_exact _ hmem, Int.tdiv_eq_ediv, Int.tdiv_eq_ediv, show Int.sign 1000000 = 1 from rfl] at hsec
    dsimp only at hsec
    by_contra hne
    have hday : t2.stamp - t1.stamp = t2.instant - t1.instant + 86400000000 ∨
        t2.stamp - t1.stamp = t2.instant - t1.instant - 86400000000 := by grind
    split_ifs at hsec <;> omega
  intro h
  have hsub : t2.stamp - t1.stamp = t2.instant - t1.instant := by grind
  refine ⟨fun hle => ⟨_, isGreatest_monthsBetween h1 h2, (timestampDiff_of_le ?_).2⟩, hsub ▸ timestampDiff_exact,
    fun u => ?_⟩
  · have := (instant_le h1 h2 hle).1
    omega
  · obtain hlt | heq | hlt := lt_trichotomy t1.stamp t2.stamp
    · exact timestampDiff_of_lt hlt u
    · have hmoved := moved_eq h1 h2 (by omega)
      cases u <;> simp [timestampDiff, calcTimeTimeDiff_eq, splitMicros, heq, int64_monthsBetween_self h1 h2 hmoved,
        int64_monthsBetween_self h2 h1 hmoved.symm]
    · rw [timestampDiff_of_lt hlt u, neg_neg]

end

/-- From 1970-01-31 to 2000-03-01. -/
theorem timestampDiff_since_epoch : DiffSpec ⟨1970, 1, 31, 0, 0, 0, 0⟩ ⟨2000, 3, 1, 12, 0, 0, 0⟩ :=
  (timestampDiff_iff (by unfold CoreTime.Valid Date.Valid; decide) (by unfold CoreTime.Valid Date.Valid; decide)).mpr
    (iff_of_false (fun h => absurd h.1 (by decide)) (fun h => absurd h.1 (by decide)))

/-- 0000-02-29 12:00:00 and 0000-03-01 11:00:00 have one day number, so they are taken for times in the wrong order. -/
theorem timestampDiff_over_february :
    let a : CoreTime := ⟨0, 2, 29, 12, 0, 0, 0⟩
    let b : CoreTime := ⟨0, 3, 1, 11, 0, 0, 0⟩
    a.Valid ∧ b.Valid ∧ timestampDiff .month a b = 1 ∧ a.moved 0 < b.moved 0 ∧ ¬ a.moved 1 ≤ b.moved 0 := by
  unfold CoreTime.Valid Date.Valid moved
  dsimp only
  rw [toLex_lt_toLex, toLex_le_toLex]
  decide

end Tidb.Types
