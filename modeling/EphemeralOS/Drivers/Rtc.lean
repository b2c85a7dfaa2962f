import Mathlib.Data.List.Lex
import Mathlib.Tactic.IntervalCases
import EphemeralOS.Lib.Calendar

/-!
# The clock

The computation of `rtc_get_unix_timestamp` (`drivers/rtc.c`) on the fields that
`rtc_get_time` fills in. An index outside `days_in_month` gives `none`. For dates
that exist, from 1970 to 2105, no sum exceeds 32 bits and the result counts the
seconds since 1970 (`unixTimestamp_date`).
-/

namespace EphemeralOS

open Calendar (Date dayNumber yearStart)

/-- `rtc_time_t`, but for the weekday. -/
@[ext] structure RtcTime where
  second : UInt8
  minute : UInt8
  hour : UInt8
  day : UInt8
  month : UInt8
  year : UInt16

namespace RtcTime

def leapYear (y : UInt16) : Bool := (y % 4 = 0 ∧ y % 100 ≠ 0) ∨ y % 400 = 0

/-- The loop over the years, for at most `rounds` rounds. -/
def yearLoop (year : UInt16) : Nat → UInt16 → UInt32 → UInt32
  | 0, _, days => days
  | rounds + 1, y, days =>
    if y < year then yearLoop year rounds (y + 1) (if leapYear y then days + 366 else days + 365)
    else days

def daysInMonth (year : UInt16) : List UInt8 :=
  [31, if leapYear year then 29 else 28, 31, 30, 31, 30, 31, 31, 30, 31, 30, 31]

/-- The loop over the months, for at most `rounds` rounds; the comparison is one of `int`s. -/
def monthLoop (table : List UInt8) (month : UInt8) : Nat → UInt8 → UInt32 → Option UInt32
  | 0, _, days => some days
  | rounds + 1, m, days =>
    if (m.toNat : Int) < (month.toNat : Int) - 1 then
      match table[m.toNat]? with
      | some d => monthLoop table month rounds (m + 1) (days + d.toUInt32)
      | none => none
    else some days

/-- `days` in the end. A year has at most 65535 years before it and a month at most 255 months. -/
def days (t : RtcTime) : Option UInt32 :=
  (monthLoop (daysInMonth t.year) t.month 255 0 (yearLoop t.year 65535 1970 0)).map fun days =>
    days + (t.day.toUInt32 - 1)

/-- `rtc_get_unix_timestamp`, once the time is read. -/
def unixTimestamp (t : RtcTime) : Option UInt32 :=
  t.days.map fun days =>
    days * 86400 + t.hour.toUInt32 * 3600 + t.minute.toUInt32 * 60 + t.second.toUInt32

def date (t : RtcTime) : Date := ⟨t.year.toNat, t.month.toNat, t.day.toNat⟩

def secondOfDay (t : RtcTime) : Nat := t.hour.toNat * 3600 + t.minute.toNat * 60 + t.second.toNat

/-- The date exists, and so does the time of day. -/
structure Valid (t : RtcTime) : Prop where
  date : t.date.Valid
  hour : t.hour < 24
  minute : t.minute < 60
  second : t.second < 60

def fields (t : RtcTime) : List Nat :=
  [t.year.toNat, t.month.toNat, t.day.toNat, t.hour.toNat, t.minute.toNat, t.second.toNat]

/-! ## The loops -/

theorem leapYear_eq (y : UInt16) : leapYear y = Calendar.leap y.toNat := by
  have hmod : ∀ n : Nat, n < 65536 → (y % UInt16.ofNat n = 0 ↔ y.toNat % n = 0) := by
    intro n hn
    rw [← UInt16.toNat_inj, UInt16.toNat_mod, UInt16.toNat_ofNat', Nat.mod_eq_of_lt hn]
    rfl
  have h4 := hmod 4 (by decide)
  have h100 := hmod 100 (by decide)
  have h400 := hmod 400 (by decide)
  rw [leapYear, Calendar.leap, decide_eq_decide, ← h4, ← h400, ne_eq, ne_eq, ← h100]
  rfl

/-- Adding up, a loop keeps the sum of the years before `y`. -/
theorem yearLoop_spec (year y : UInt16) (rounds : Nat) (hstart : 1970 ≤ y.toNat)
    (hy : y.toNat ≤ year.toNat) (hrounds : year.toNat - y.toNat ≤ rounds) :
    yearLoop year rounds y (UInt32.ofNat (Calendar.daysInYears 1970 (y.toNat - 1970))) =
      UInt32.ofNat (Calendar.daysInYears 1970 (year.toNat - 1970)) := by
  induction rounds generalizing y with
  | zero =>
    have heq : y.toNat = year.toNat := by omega
    rw [yearLoop, heq]
  | succ rounds ih =>
    rw [yearLoop]
    split
    · next hlt =>
      have hnat : y.toNat < year.toNat := UInt16.lt_iff_toNat_lt.mp hlt
      have hyear := year.toNat_lt
      have hnext : (y + 1).toNat = y.toNat + 1 := by
        rw [UInt16.toNat_add, Nat.mod_eq_of_lt]
        · rfl
        · change y.toNat + 1 < 2 ^ 16
          omega
      have hsucc : (y + 1).toNat - 1970 = (y.toNat - 1970) + 1 := by omega
      have hsum : Calendar.daysInYears 1970 ((y + 1).toNat - 1970) =
          Calendar.daysInYears 1970 (y.toNat - 1970) + Calendar.daysInYear y.toNat := by
        rw [hsucc, Calendar.daysInYears, Nat.add_sub_cancel' hstart]
      have hdays : (if leapYear y then
            UInt32.ofNat (Calendar.daysInYears 1970 (y.toNat - 1970)) + 366
          else UInt32.ofNat (Calendar.daysInYears 1970 (y.toNat - 1970)) + 365) =
          UInt32.ofNat (Calendar.daysInYears 1970 ((y + 1).toNat - 1970)) := by
        rw [hsum, UInt32.ofNat_add, Calendar.daysInYear, leapYear_eq]
        cases Calendar.leap y.toNat <;> rfl
      rw [hdays]
      exact ih (y + 1) (by omega) (by omega) (by omega)
    · next hge =>
      have heq : y.toNat = year.toNat := by
        have := mt UInt16.lt_iff_toNat_lt.mpr hge
        omega
      rw [heq]

theorem daysInMonth_getElem (year : UInt16) {m : Nat} (h : m < 12) :
    (daysInMonth year)[m]? =
      some (UInt8.ofNat (Calendar.daysInMonth year.toNat (m + 1))) := by
  rw [daysInMonth, leapYear_eq]
  simp only [Calendar.daysInMonth]
  cases Calendar.leap year.toNat <;> interval_cases m <;> rfl

/-- Adding up, a loop keeps the sum of the months before `m`. -/
theorem monthLoop_spec (year : UInt16) {month : UInt8} (m : UInt8) (rounds : Nat) (start : UInt32)
    (hmonth : month.toNat ≤ 12) (hm : m.toNat ≤ month.toNat - 1)
    (hrounds : month.toNat - 1 - m.toNat ≤ rounds) :
    monthLoop (daysInMonth year) month rounds m
        (start + UInt32.ofNat (Calendar.daysInMonths year.toNat m.toNat)) =
      some (start + UInt32.ofNat (Calendar.daysInMonths year.toNat (month.toNat - 1))) := by
  induction rounds generalizing m with
  | zero =>
    have heq : m.toNat = month.toNat - 1 := by omega
    rw [monthLoop, heq]
  | succ rounds ih =>
    rw [monthLoop]
    split
    · next hlt =>
      have hnext : (m + 1).toNat = m.toNat + 1 := by
        rw [UInt8.toNat_add, Nat.mod_eq_of_lt]
        · rfl
        · change m.toNat + 1 < 2 ^ 8
          omega
      have hlength : Calendar.daysInMonth year.toNat (m.toNat + 1) < UInt8.size :=
        Nat.lt_of_le_of_lt (Calendar.daysInMonth_le _ _) (by decide)
      have hdays : start + UInt32.ofNat (Calendar.daysInMonths year.toNat m.toNat) +
            (UInt8.ofNat (Calendar.daysInMonth year.toNat (m.toNat + 1))).toUInt32 =
          start + UInt32.ofNat (Calendar.daysInMonths year.toNat (m + 1).toNat) := by
        rw [UInt8.toUInt32_ofNat' hlength, UInt32.add_assoc, ← UInt32.ofNat_add, hnext,
          Calendar.daysInMonths]
      rw [daysInMonth_getElem year (by omega : m.toNat < 12)]
      simp only
      rw [hdays]
      exact ih (m + 1) (by omega) (by omega)
    · next hge =>
      have heq : m.toNat = month.toNat - 1 := by omega
      rw [heq]

/-! ## The result -/

section Result

variable {t : RtcTime} (h : t.Valid) (hyear : 1970 ≤ t.year.toNat)

include h hyear

/-- The sum of the loops is the number of the day. -/
theorem days_eq : t.days = some (UInt32.ofNat (dayNumber 1970 t.date)) := by
  have hmonth : t.month.toNat ≤ 12 := h.date.1.2
  have hlt := t.year.toNat_lt
  have hyears := yearLoop_spec t.year 1970 65535 (Nat.le_refl _) hyear
    (by change _ - 1970 ≤ _; omega)
  have hmonths := monthLoop_spec t.year 0 255
    (UInt32.ofNat (Calendar.daysInYears 1970 (t.year.toNat - 1970))) hmonth (Nat.zero_le _)
    (by change _ - 0 ≤ _; omega)
  have hzero : ∀ x : UInt32, x + UInt32.ofNat (Calendar.daysInMonths t.year.toNat 0) = x :=
    fun x => UInt32.add_zero x
  have hdayNat : t.day.toUInt32 - 1 = UInt32.ofNat (t.date.day - 1) := by
    rw [UInt32.ofNat_sub h.date.2.1]
    change _ = UInt32.ofNat t.day.toNat - _
    rw [UInt32.ofNat_uInt8ToNat]
    rfl
  have hstart : yearLoop t.year 65535 1970 0 =
      UInt32.ofNat (Calendar.daysInYears 1970 (t.year.toNat - 1970)) := hyears
  change monthLoop _ _ _ _ (_ + UInt32.ofNat (Calendar.daysInMonths t.year.toNat 0)) = _ at hmonths
  rw [hzero] at hmonths
  rw [days, hstart, hmonths, Option.map_some, hdayNat, dayNumber, UInt32.ofNat_add,
    UInt32.ofNat_add]
  rfl

theorem unixTimestamp_eq : t.unixTimestamp =
    some (UInt32.ofNat (dayNumber 1970 t.date * 86400 + t.secondOfDay)) := by
  rw [unixTimestamp, days_eq h hyear, Option.map_some, secondOfDay, UInt32.ofNat_add,
    UInt32.ofNat_add, UInt32.ofNat_add, UInt32.ofNat_mul, UInt32.ofNat_mul, UInt32.ofNat_mul,
    UInt32.ofNat_uInt8ToNat, UInt32.ofNat_uInt8ToNat, UInt32.ofNat_uInt8ToNat, UInt32.add_assoc,
    UInt32.add_assoc, UInt32.add_assoc]
  rfl

end Result

theorem secondOfDay_lt {t : RtcTime} (h : t.Valid) : t.secondOfDay < 86400 := by
  have hhour := UInt8.lt_iff_toNat_lt.mp h.hour
  have hminute := UInt8.lt_iff_toNat_lt.mp h.minute
  have hsecond := UInt8.lt_iff_toNat_lt.mp h.second
  change _ < 24 at hhour
  change _ < 60 at hminute
  change _ < 60 at hsecond
  rw [secondOfDay]
  omega

theorem dayNumber_le {t : RtcTime} (h : t.Valid) (hyear : 1970 ≤ t.year.toNat)
    (hyear' : t.year.toNat ≤ 2105) : dayNumber 1970 t.date ≤ 49672 := by
  have hlt := Calendar.dayNumber_lt_nextYear 1970 h.date
  have hdate : t.date.year = t.year.toNat := rfl
  have hadd : 1970 + (t.year.toNat - 1970) = t.year.toNat := by omega
  have hmono := Calendar.daysInYears_mono 1970 (by omega : t.year.toNat - 1970 + 1 ≤ 136)
  have hall : Calendar.daysInYears 1970 136 = 49673 := by decide +kernel
  rw [Calendar.daysInYears, hadd, hall] at hmono
  rw [hdate] at hlt
  omega

theorem unixTimestamp_lt {t : RtcTime} (h : t.Valid) (hyear : 1970 ≤ t.year.toNat)
    (hyear' : t.year.toNat ≤ 2105) :
    dayNumber 1970 t.date * 86400 + t.secondOfDay < 2 ^ 32 := by
  have hday := dayNumber_le h hyear hyear'
  have hsecond := secondOfDay_lt h
  omega

/-- The fields in order are the date and then the time of day. -/
theorem fields_lt_iff {t u : RtcTime} : t.fields < u.fields ↔ t.date.Before u.date ∨
    t.date = u.date ∧ [t.hour.toNat, t.minute.toNat, t.second.toNat] <
      [u.hour.toNat, u.minute.toNat, u.second.toNat] := by
  simp only [fields, List.cons_lt_cons_iff, Date.Before, date, Date.mk.injEq]
  tauto

theorem seconds_lt {t u : RtcTime} (ht : t.Valid) (hyear : 1970 ≤ t.year.toNat)
    (h : t.fields < u.fields) : dayNumber 1970 t.date * 86400 + t.secondOfDay <
      dayNumber 1970 u.date * 86400 + u.secondOfDay := by
  rcases fields_lt_iff.mp h with hbefore | ⟨hdate, htime⟩
  · have hlt := Calendar.dayNumber_lt ht.date hyear hbefore
    have hsecond := secondOfDay_lt ht
    omega
  · have hminute := UInt8.lt_iff_toNat_lt.mp ht.minute
    have hsecond := UInt8.lt_iff_toNat_lt.mp ht.second
    change _ < 60 at hminute
    change _ < 60 at hsecond
    simp only [List.cons_lt_cons_iff, List.not_lt_nil, and_false, or_false] at htime
    rw [hdate, secondOfDay, secondOfDay]
    omega

theorem fields_inj {t u : RtcTime} (h : t.fields = u.fields) : t = u := by
  simp only [fields, List.cons.injEq, UInt8.toNat_inj, UInt16.toNat_inj, and_true] at h
  obtain ⟨hyear, hmonth, hday, hhour, hminute, hsecond⟩ := h
  exact RtcTime.ext hsecond hminute hhour hday hmonth hyear

theorem seconds_lt_iff {t u : RtcTime} (ht : t.Valid) (hyear : 1970 ≤ t.year.toNat) (hu : u.Valid)
    (huyear : 1970 ≤ u.year.toNat) : dayNumber 1970 t.date * 86400 + t.secondOfDay <
      dayNumber 1970 u.date * 86400 + u.secondOfDay ↔ t.fields < u.fields := by
  refine ⟨fun hlt => ?_, seconds_lt ht hyear⟩
  rcases lt_trichotomy t.fields u.fields with hfields | heq | hfields
  · exact hfields
  · rw [fields_inj heq] at hlt
    exact absurd hlt (Nat.lt_irrefl _)
  · exact absurd hlt (Nat.lt_asymm (seconds_lt hu huyear hfields))

theorem seconds_inj {t u : RtcTime} (ht : t.Valid) (hyear : 1970 ≤ t.year.toNat) (hu : u.Valid)
    (huyear : 1970 ≤ u.year.toNat) (h : dayNumber 1970 t.date * 86400 + t.secondOfDay =
      dayNumber 1970 u.date * 86400 + u.secondOfDay) : t = u := by
  rcases lt_trichotomy t.fields u.fields with hlt | heq | hgt
  · exact absurd h (seconds_lt ht hyear hlt).ne
  · exact fields_inj heq
  · exact absurd h (seconds_lt hu huyear hgt).ne'

/-- The result is the exact sum. -/
theorem unixTimestamp_toNat {t : RtcTime} (h : t.Valid) (hyear : 1970 ≤ t.year.toNat)
    (hyear' : t.year.toNat ≤ 2105) {stamp : UInt32} (hstamp : t.unixTimestamp = some stamp) :
    stamp.toNat = dayNumber 1970 t.date * 86400 + t.secondOfDay := by
  rw [unixTimestamp_eq h hyear, Option.some_inj] at hstamp
  rw [← hstamp, UInt32.toNat_ofNat', Nat.mod_eq_of_lt (unixTimestamp_lt h hyear hyear')]

/-- **The result counts the seconds since 1970, without overflow, and is ordered as the fields.** -/
theorem unixTimestamp_date {t : RtcTime} (h : t.Valid) (hyear : 1970 ≤ t.year.toNat)
    (hyear' : t.year.toNat ≤ 2105) :
    (∃ n days stamp, Date.next^[n] ⟨1970, 1, 1⟩ = t.date ∧ t.days = some days ∧ days.toNat = n ∧
      86400 * n + t.secondOfDay < 2 ^ 32 ∧ t.unixTimestamp = some stamp ∧
      stamp.toNat = 86400 * n + t.secondOfDay) ∧
    ∀ u : RtcTime, u.Valid → 1970 ≤ u.year.toNat → u.year.toNat ≤ 2105 →
      (t.unixTimestamp = u.unixTimestamp → t = u) ∧
      ∀ stamp stamp', t.unixTimestamp = some stamp → u.unixTimestamp = some stamp' →
        (stamp < stamp' ↔ t.fields < u.fields) := by
  have hlt := unixTimestamp_lt h hyear hyear'
  refine ⟨⟨dayNumber 1970 t.date, _, _, Calendar.iterate_dayNumber h.date hyear, days_eq h hyear,
    ?_, ?_, unixTimestamp_eq h hyear, ?_⟩, fun u hu huyear huyear' => ?_⟩
  · rw [UInt32.toNat_ofNat', Nat.mod_eq_of_lt]
    omega
  · rw [Nat.mul_comm]
    exact hlt
  · rw [unixTimestamp_toNat h hyear hyear' (unixTimestamp_eq h hyear), Nat.mul_comm]
  · constructor
    · intro heq
      have hu' := unixTimestamp_toNat hu huyear huyear' (heq.symm.trans (unixTimestamp_eq h hyear))
      exact seconds_inj h hyear hu huyear
        ((unixTimestamp_toNat h hyear hyear' (unixTimestamp_eq h hyear)).symm.trans hu')
    · intro stamp stamp' hs hs'
      rw [UInt32.lt_iff_toNat_lt, unixTimestamp_toNat h hyear hyear' hs,
        unixTimestamp_toNat hu huyear huyear' hs']
      exact seconds_lt_iff h hyear hu huyear

/-- The second before March 2100. -/
def sampleTime : RtcTime := ⟨59, 59, 23, 28, 2, 2100⟩

theorem sampleTime_valid : sampleTime.Valid := ⟨by decide, by decide, by decide, by decide⟩

/-- The year 2100 has no leap day. -/
theorem sampleTime_date :
    (∃ n days stamp, Date.next^[n] ⟨1970, 1, 1⟩ = sampleTime.date ∧
      sampleTime.days = some days ∧ days.toNat = n ∧
      86400 * n + sampleTime.secondOfDay < 2 ^ 32 ∧ sampleTime.unixTimestamp = some stamp ∧
      stamp.toNat = 86400 * n + sampleTime.secondOfDay) ∧
    ∀ u : RtcTime, u.Valid → 1970 ≤ u.year.toNat → u.year.toNat ≤ 2105 →
      (sampleTime.unixTimestamp = u.unixTimestamp → sampleTime = u) ∧
      ∀ stamp stamp', sampleTime.unixTimestamp = some stamp → u.unixTimestamp = some stamp' →
        (stamp < stamp' ↔ sampleTime.fields < u.fields) :=
  unixTimestamp_date sampleTime_valid (by decide) (by decide)

end RtcTime

end EphemeralOS
