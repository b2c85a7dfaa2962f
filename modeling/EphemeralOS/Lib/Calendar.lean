import Mathlib.Logic.Function.Iterate
import Mathlib.Data.Nat.Init
import Mathlib.Order.Nat

/-!
# The Gregorian calendar

The day after a date is `next`. The number of a day is how often `next` leads to
it from the first day of the epoch's year (`iterate_dayNumber`), and is computed
from the lengths of the years and months before it (`dayNumber`). Later dates
have greater numbers (`dayNumber_lt`).
-/

namespace Calendar

/-- The 4/100/400 rule. -/
def leap (year : Nat) : Bool := (year % 4 = 0 ∧ year % 100 ≠ 0) ∨ year % 400 = 0

def daysInMonth (year month : Nat) : Nat :=
  if month = 2 then (if leap year then 29 else 28)
  else if month = 4 ∨ month = 6 ∨ month = 9 ∨ month = 11 then 30 else 31

def daysInYear (year : Nat) : Nat := if leap year then 366 else 365

@[ext] structure Date where
  year : Nat
  month : Nat
  day : Nat
  deriving DecidableEq

namespace Date

def Valid (d : Date) : Prop :=
  (1 ≤ d.month ∧ d.month ≤ 12) ∧ 1 ≤ d.day ∧ d.day ≤ daysInMonth d.year d.month

instance (d : Date) : Decidable d.Valid := inferInstanceAs (Decidable (_ ∧ _))

def next (d : Date) : Date :=
  if d.day < daysInMonth d.year d.month then { d with day := d.day + 1 }
  else if d.month < 12 then ⟨d.year, d.month + 1, 1⟩
  else ⟨d.year + 1, 1, 1⟩

def Before (d e : Date) : Prop :=
  d.year < e.year ∨ d.year = e.year ∧ (d.month < e.month ∨ d.month = e.month ∧ d.day < e.day)

end Date

/-! ## Counting days -/

/-- The days of the first `n` months of a year. -/
def daysInMonths (year : Nat) : Nat → Nat
  | 0 => 0
  | n + 1 => daysInMonths year n + daysInMonth year (n + 1)

/-- The days of `n` years from `epoch` on. -/
def daysInYears (epoch : Nat) : Nat → Nat
  | 0 => 0
  | n + 1 => daysInYears epoch n + daysInYear (epoch + n)

/-- The days before a date since the beginning of `epoch`. -/
def dayNumber (epoch : Nat) (d : Date) : Nat :=
  daysInYears epoch (d.year - epoch) + daysInMonths d.year (d.month - 1) + (d.day - 1)

theorem one_le_daysInMonth (year month : Nat) : 28 ≤ daysInMonth year month := by
  rw [daysInMonth]
  split
  · split <;> omega
  · split <;> omega

theorem daysInMonth_le (year month : Nat) : daysInMonth year month ≤ 31 := by
  rw [daysInMonth]
  split
  · split <;> omega
  · split <;> omega

theorem daysInMonths_twelve (year : Nat) : daysInMonths year 12 = daysInYear year := by
  simp only [daysInMonths, daysInMonth, daysInYear]
  cases leap year <;> rfl

theorem daysInMonths_mono (year : Nat) {m n : Nat} (h : m ≤ n) :
    daysInMonths year m ≤ daysInMonths year n := by
  induction h with
  | refl => exact Nat.le_refl _
  | step _ ih => exact Nat.le_add_right_of_le ih

theorem daysInYears_mono (epoch : Nat) {m n : Nat} (h : m ≤ n) :
    daysInYears epoch m ≤ daysInYears epoch n := by
  induction h with
  | refl => exact Nat.le_refl _
  | step _ ih => exact Nat.le_add_right_of_le ih

variable {epoch : Nat} {d e : Date}

theorem Date.Valid.next (h : d.Valid) : d.next.Valid := by
  obtain ⟨⟨hmonth, hmonth'⟩, hday, hday'⟩ := h
  rw [Date.next]
  split
  · next hlt => exact ⟨⟨hmonth, hmonth'⟩, Nat.le_add_left 1 _, hlt⟩
  · split
    · next hlt =>
      have := one_le_daysInMonth d.year (d.month + 1)
      exact ⟨⟨Nat.le_add_left 1 _, hlt⟩, Nat.le_refl 1, by simp only; omega⟩
    · have := one_le_daysInMonth (d.year + 1) 1
      exact ⟨⟨Nat.le_refl 1, (by decide : 1 ≤ 12)⟩, Nat.le_refl 1, by simp only; omega⟩

/-- **The next day has the next number.** -/
theorem dayNumber_next (h : d.Valid) (hepoch : epoch ≤ d.year) :
    dayNumber epoch d.next = dayNumber epoch d + 1 := by
  obtain ⟨⟨hmonth, hmonth'⟩, hday, hday'⟩ := h
  rw [Date.next]
  split
  · simp only [dayNumber]
    omega
  · next hlast =>
    have hday'' : d.day = daysInMonth d.year d.month := by omega
    -- the last day of a month: with it, the month is complete
    have hcomplete : daysInMonths d.year d.month =
        daysInMonths d.year (d.month - 1) + d.day := by
      obtain ⟨m, hm⟩ := Nat.exists_eq_add_of_le' hmonth
      rw [hday'', hm]
      rfl
    split
    · simp only [dayNumber, Nat.add_sub_cancel]
      omega
    · have htwelve : d.month = 12 := by omega
      have hyears : d.year + 1 - epoch = (d.year - epoch) + 1 := by omega
      have hyear : epoch + (d.year - epoch) = d.year := by omega
      have hmonths := daysInMonths_twelve d.year
      rw [← htwelve] at hmonths
      simp only [dayNumber, hyears, daysInYears, hyear, Nat.sub_self, daysInMonths]
      omega

def yearStart (year : Nat) : Date := ⟨year, 1, 1⟩

theorem yearStart_valid (year : Nat) : (yearStart year).Valid := by
  have := one_le_daysInMonth year 1
  exact ⟨⟨Nat.le_refl 1, (by decide : 1 ≤ 12)⟩, Nat.le_refl 1, by simp only [yearStart]; omega⟩

theorem dayNumber_yearStart (epoch : Nat) : dayNumber epoch (yearStart epoch) = 0 := by
  simp only [dayNumber, yearStart, Nat.sub_self, daysInYears, daysInMonths]

theorem next_year_le (d : Date) : d.year ≤ d.next.year := by
  rw [Date.next]
  split
  · exact Nat.le_refl _
  · split
    · exact Nat.le_refl _
    · exact Nat.le_succ _

/-- The `n`th day after the beginning of `epoch` has the number `n`. -/
theorem dayNumber_iterate (epoch n : Nat) :
    ((Date.next)^[n] (yearStart epoch)).Valid ∧ epoch ≤ ((Date.next)^[n] (yearStart epoch)).year ∧
      dayNumber epoch ((Date.next)^[n] (yearStart epoch)) = n := by
  induction n with
  | zero => exact ⟨yearStart_valid epoch, Nat.le_refl _, dayNumber_yearStart epoch⟩
  | succ n ih =>
    obtain ⟨hvalid, hepoch, hnumber⟩ := ih
    rw [Function.iterate_succ_apply']
    exact ⟨hvalid.next, hepoch.trans (next_year_le _),
      (dayNumber_next hvalid hepoch).trans (congrArg (· + 1) hnumber)⟩

/-- Some number of days after the beginning of `epoch`. -/
def Reached (epoch : Nat) (d : Date) : Prop := ∃ n, (Date.next)^[n] (yearStart epoch) = d

theorem Reached.next (h : Reached epoch d) : Reached epoch d.next := by
  obtain ⟨n, rfl⟩ := h
  exact ⟨n + 1, Function.iterate_succ_apply' _ _ _⟩

/-- The other days of a month whose first day is reached. -/
theorem Reached.day {year month : Nat} (h : Reached epoch ⟨year, month, 1⟩) {day : Nat}
    (hday : 1 ≤ day) (hday' : day ≤ daysInMonth year month) : Reached epoch ⟨year, month, day⟩ := by
  induction day, hday using Nat.le_induction with
  | base => exact h
  | succ day hday ih =>
    have hlt : day < daysInMonth year month := hday'
    have hnext := (ih hlt.le).next
    rwa [Date.next, if_pos hlt] at hnext

theorem Reached.nextMonth {year month : Nat} (h : Reached epoch ⟨year, month, 1⟩)
    (hmonth : month < 12) : Reached epoch ⟨year, month + 1, 1⟩ := by
  have hlast := (h.day ((by decide : 1 ≤ 28).trans (one_le_daysInMonth year month))
    (Nat.le_refl _)).next
  rwa [Date.next, if_neg (Nat.lt_irrefl _), if_pos hmonth] at hlast

theorem Reached.month {year : Nat} (h : Reached epoch (yearStart year)) {month : Nat}
    (hmonth : 1 ≤ month) (hmonth' : month ≤ 12) : Reached epoch ⟨year, month, 1⟩ := by
  induction month, hmonth using Nat.le_induction with
  | base => exact h
  | succ month _ ih => exact (ih (Nat.le_of_succ_le hmonth')).nextMonth hmonth'

theorem reached_yearStart {year : Nat} (h : epoch ≤ year) : Reached epoch (yearStart year) := by
  induction year, h using Nat.le_induction with
  | base => exact ⟨0, rfl⟩
  | succ year _ ih =>
    have hlast := ((ih.month (by decide : 1 ≤ 12) (Nat.le_refl _)).day (by decide : 1 ≤ 31)
      (Nat.le_refl 31)).next
    have hdec : (⟨year, 12, 31⟩ : Date).next = yearStart (year + 1) := rfl
    rwa [hdec] at hlast

/-- **The number of a date is how many days after the beginning of `epoch` it is.** -/
theorem iterate_dayNumber (h : d.Valid) (hepoch : epoch ≤ d.year) :
    (Date.next)^[dayNumber epoch d] (yearStart epoch) = d := by
  obtain ⟨n, hn⟩ := ((reached_yearStart hepoch).month h.1.1 h.1.2).day h.2.1 h.2.2
  have hnumber := (dayNumber_iterate epoch n).2.2
  rw [hn] at hnumber
  rw [hnumber, hn]

theorem dayNumber_lt_nextYear (epoch : Nat) (h : d.Valid) :
    dayNumber epoch d < daysInYears epoch (d.year - epoch) + daysInYear d.year := by
  obtain ⟨⟨hmonth, hmonth'⟩, hday, hday'⟩ := h
  obtain ⟨m, hm⟩ := Nat.exists_eq_add_of_le' hmonth
  have hcomplete : daysInMonths d.year (m + 1) =
      daysInMonths d.year m + daysInMonth d.year (m + 1) := rfl
  have hle := daysInMonths_mono d.year (hm ▸ hmonth' : m + 1 ≤ 12)
  rw [daysInMonths_twelve] at hle
  rw [hm] at hday'
  rw [dayNumber, hm, Nat.add_sub_cancel]
  omega

/-- **Later dates have greater numbers.** -/
theorem dayNumber_lt (hd : d.Valid) (hepoch : epoch ≤ d.year) (h : d.Before e) :
    dayNumber epoch d < dayNumber epoch e := by
  rcases h with hyear | ⟨hyear, hmonth | ⟨hmonth, hday⟩⟩
  · have hmono := daysInYears_mono epoch (by omega : d.year - epoch + 1 ≤ e.year - epoch)
    have hlt := dayNumber_lt_nextYear epoch hd
    have hyear' : epoch + (d.year - epoch) = d.year := by omega
    rw [daysInYears, hyear'] at hmono
    rw [dayNumber] at hlt ⊢
    rw [dayNumber]
    omega
  · obtain ⟨m, hm⟩ := Nat.exists_eq_add_of_le' hd.1.1
    have hmono := daysInMonths_mono d.year (by omega : m + 1 ≤ e.month - 1)
    have hday := hd.2.2
    have hday' := hd.2.1
    rw [daysInMonths] at hmono
    rw [hm] at hday
    rw [dayNumber, dayNumber, ← hyear, hm, Nat.add_sub_cancel]
    omega
  · have hday' := hd.2.1
    rw [dayNumber, dayNumber, ← hyear, ← hmonth]
    omega

end Calendar
