import BeagleCache.DiskCache

/-! The C library's calendar, as HashCache uses it with the local time zone UTC: `gmtime` and `asctime` to print a date,
`mktime` for the date it reads back. -/

namespace BeagleCache

/-- The fields of a `struct tm` that `parseDate` sets and `mktime` reads, and `tm_isdst`, which `mktime` reads and `parseDate` does not
set. -/
structure Tm where
  tm_mday : Int
  tm_mon : Int
  tm_year : Int
  tm_hour : Int
  tm_min : Int
  tm_sec : Int
  tm_isdst : Int
  deriving DecidableEq

def isLeap (year : Int) : Prop := year % 4 = 0 ∧ (year % 100 ≠ 0 ∨ year % 400 = 0)

instance (year : Int) : Decidable (isLeap year) := inferInstanceAs (Decidable (_ ∧ _))

def yearLength (year : Int) : Int := if isLeap year then 366 else 365

def monthLengths (year : Int) : List Int := [31, if isLeap year then 29 else 28, 31, 30, 31, 30, 31, 31, 30, 31, 30, 31]

/-- The days from 1970 to the start of a year. -/
def daysBeforeYear (year : Int) : Int := 365 * (year - 1970) + (year - 1969) / 4 - (year - 1901) / 100 + (year - 1601) / 400

/-- The days from the start of a year to the start of a month. -/
def daysBeforeMonth (year : Int) (month : Nat) : Int := ((monthLengths year).take month).sum

/-- The headers with a date. -/
inductive DateHeader
  | date
  | expires
  | lastModified
  deriving DecidableEq

/-- What neither the code nor the calendar decides. `tm_isdst` is the one of `parseDate`'s `presentTM` when the date of a header is read:
nothing sets it, so it is what the stack holds there. `moved` is what `mktime` makes of a time for which it is positive: UTC has no
daylight saving time, and the C library ignores the field or moves the time, by less than a day. -/
class Daylight where
  tm_isdst : DateHeader → Int
  moved : Int → Int
  moved_near : ∀ seconds, moved seconds = -1 ∨ |moved seconds - seconds| < 86400

section Mktime

variable [Daylight]

/-- `mktime` where `time_t` has 32 bits. The month is one that `months` returns, all other fields may be out of their range. -/
def mktime (tm : Tm) : Int :=
  let year := tm.tm_year + 1900
  let days := daysBeforeYear year + daysBeforeMonth year tm.tm_mon.toNat + (tm.tm_mday - 1)
  let seconds := days * 86400 + tm.tm_hour * 3600 + tm.tm_min * 60 + tm.tm_sec
  if 0 < tm.tm_isdst then Daylight.moved seconds
  else if -2 ^ 31 ≤ seconds ∧ seconds < 2 ^ 31 then seconds else -1

end Mktime

/-- The year of a day that is counted from the start of `year`, and the day in it. -/
def splitYear : Nat → Int → Int → Int × Int
  | 0, year, day => (year, day)
  | fuel + 1, year, day => if day < yearLength year then (year, day) else splitYear fuel (year + 1) (day - yearLength year)

/-- The month of a day of the year, and the day in it. -/
def splitMonth : List Int → Nat → Int → Nat × Int
  | [], month, day => (month, day)
  | length :: lengths, month, day => if day < length then (month, day) else splitMonth lengths (month + 1) (day - length)

/-- `gmtime`: the fields, and the day of the week. -/
def gmtime (t : Int) : Tm × Nat :=
  let days := t / 86400
  let seconds := t % 86400
  let year := splitYear days.toNat 1970 days
  let month := splitMonth (monthLengths year.1) 0 year.2
  (⟨month.2 + 1, month.1, year.1 - 1900, seconds / 3600, seconds % 3600 / 60, seconds % 60, 0⟩, ((days + 4) % 7).toNat)

def dayNames : List Bytes := [ascii "Sun", ascii "Mon", ascii "Tue", ascii "Wed", ascii "Thu", ascii "Fri", ascii "Sat"]

def monthNames : List Bytes :=
  [ascii "Jan", ascii "Feb", ascii "Mar", ascii "Apr", ascii "May", ascii "Jun", ascii "Jul", ascii "Aug", ascii "Sep",
    ascii "Oct", ascii "Nov", ascii "Dec"]

/-- A number with `%.2d`. -/
def twoDigits (n : Nat) : Bytes := if n < 10 then 48 :: ascii (toString n) else ascii (toString n)

/-- A number with `%3d`. -/
def threeWide (n : Nat) : Bytes := List.replicate (3 - (ascii (toString n)).length) 32 ++ ascii (toString n)

/-- `asctime` up to the newline. -/
def asctime (tm : Tm × Nat) : Bytes :=
  dayNames.getD tm.2 [] ++ [32] ++ monthNames.getD tm.1.tm_mon.toNat [] ++ threeWide tm.1.tm_mday.toNat ++ [32] ++
    twoDigits tm.1.tm_hour.toNat ++ [58] ++ twoDigits tm.1.tm_min.toNat ++ [58] ++ twoDigits tm.1.tm_sec.toNat ++ [32] ++
    ascii (toString (tm.1.tm_year + 1900).toNat)

/-! ## A date is read back -/

theorem daysBeforeYear_succ (year : Int) : daysBeforeYear (year + 1) = daysBeforeYear year + yearLength year := by
  rw [daysBeforeYear, daysBeforeYear, yearLength]
  split
  · rename_i hleap
    rw [isLeap] at hleap
    omega
  · rename_i hleap
    rw [isLeap] at hleap
    omega

theorem yearLength_pos (year : Int) : 0 < yearLength year := by
  rw [yearLength]
  split <;> decide

theorem splitYear_spec {fuel : Nat} {year day : Int} (hday : 0 ≤ day) (hfuel : day ≤ fuel) :
    daysBeforeYear (splitYear fuel year day).1 + (splitYear fuel year day).2 = daysBeforeYear year + day ∧
    0 ≤ (splitYear fuel year day).2 ∧ (splitYear fuel year day).2 < yearLength (splitYear fuel year day).1 ∧
    year ≤ (splitYear fuel year day).1 := by
  induction fuel generalizing year day with
  | zero =>
      have hpos := yearLength_pos year
      rw [splitYear]
      refine ⟨rfl, hday, ?_, le_rfl⟩
      have hzero : day = 0 := by omega
      rw [hzero]
      exact hpos
  | succ fuel ih =>
      rw [splitYear]
      split
      · rename_i hlt
        exact ⟨rfl, hday, hlt, le_rfl⟩
      · have hpos := yearLength_pos year
        obtain ⟨hsum, hlow, hhigh, hyear⟩ := @ih (year + 1) (day - yearLength year) (by omega) (by omega)
        have hnext := daysBeforeYear_succ year
        exact ⟨by omega, hlow, hhigh, by omega⟩

/-- The day of the year is `lengths` before the month and the day in it. -/
theorem splitMonth_spec {lengths : List Int} {month : Nat} {day : Int} (hday : 0 ≤ day) (hsum : day < lengths.sum) :
    ∃ k, k < lengths.length ∧ (splitMonth lengths month day).1 = month + k ∧ 0 ≤ (splitMonth lengths month day).2 ∧
      (lengths.take k).sum + (splitMonth lengths month day).2 = day ∧
      ∀ length, lengths[k]? = some length → (splitMonth lengths month day).2 < length := by
  induction lengths generalizing month day with
  | nil => simp at hsum; omega
  | cons length lengths ih =>
      rw [splitMonth]
      rw [List.sum_cons] at hsum
      split
      · rename_i hlt
        refine ⟨0, Nat.succ_pos _, rfl, hday, by simp, ?_⟩
        intro length' heq
        cases heq
        exact hlt
      · obtain ⟨k, hk, hmonth, hlow, htake, hlt⟩ := @ih (month + 1) (day - length) (by omega) (by omega)
        refine ⟨k + 1, Nat.succ_lt_succ hk, by omega, hlow, ?_, ?_⟩
        · rw [List.take_succ_cons, List.sum_cons]
          omega
        · intro length' heq
          exact hlt length' heq

theorem sum_monthLengths (year : Int) : (monthLengths year).sum = yearLength year := by
  rw [monthLengths, yearLength]
  split <;> rfl

/-- The fields of a printed date, and the day they stand for. -/
structure DateOf (t : Int) (tm : Tm) (month : Nat) : Prop where
  mon : tm.tm_mon = month
  mon_lt : month < 12
  mday : 1 ≤ tm.tm_mday ∧ tm.tm_mday ≤ 31
  year : 1970 ≤ tm.tm_year + 1900
  hour : 0 ≤ tm.tm_hour ∧ tm.tm_hour < 24
  min : 0 ≤ tm.tm_min ∧ tm.tm_min < 60
  sec : 0 ≤ tm.tm_sec ∧ tm.tm_sec < 60
  days : daysBeforeYear (tm.tm_year + 1900) + daysBeforeMonth (tm.tm_year + 1900) month + (tm.tm_mday - 1) = t / 86400
  seconds : tm.tm_hour * 3600 + tm.tm_min * 60 + tm.tm_sec = t % 86400

theorem monthLengths_le {year length : Int} {k : Nat} (h : (monthLengths year)[k]? = some length) : length ≤ 31 := by
  have hmem := List.mem_of_getElem? h
  simp only [monthLengths, List.mem_cons, List.not_mem_nil, or_false] at hmem
  split at hmem <;> omega

theorem gmtime_date {t : Int} (ht : 0 ≤ t) : ∃ month, DateOf t (gmtime t).1 month := by
  have hdays : 0 ≤ t / 86400 := Int.ediv_nonneg ht (by decide)
  obtain ⟨hyear, hlow, hhigh, hle⟩ := @splitYear_spec (t / 86400).toNat 1970 (t / 86400) hdays (by omega)
  generalize hsplit : splitYear (t / 86400).toNat 1970 (t / 86400) = split at hyear hlow hhigh hle
  have hlt : split.2 < (monthLengths split.1).sum := by
    rw [sum_monthLengths]
    exact hhigh
  obtain ⟨k, hk, hmonth, hday, hsum, hshort⟩ := @splitMonth_spec (monthLengths split.1) 0 split.2 hlow hlt
  have hlength : (monthLengths split.1).length = 12 := rfl
  have hget : (monthLengths split.1)[k]? = some ((monthLengths split.1)[k]) := List.getElem?_eq_getElem hk
  have hle31 := monthLengths_le hget
  have hshort31 := hshort _ hget
  have hzero : daysBeforeYear 1970 = 0 := by decide
  refine ⟨k, ?_, by omega, ?_, ?_, ?_, ?_, ?_, ?_, ?_⟩
  · simp only [gmtime, hsplit, hmonth]
    omega
  · simp only [gmtime, hsplit]
    omega
  · simp only [gmtime, hsplit]
    omega
  · simp only [gmtime]
    omega
  · simp only [gmtime]
    omega
  · simp only [gmtime]
    omega
  · have hcancel : split.1 - 1900 + 1900 = split.1 := by omega
    simp only [gmtime, hsplit, hcancel, daysBeforeMonth]
    omega
  · simp only [gmtime]
    omega

/-- A date read back with another month is off by the days between the months, and moved where `tm_isdst` is positive. -/
theorem DateOf.mktime_month [Daylight] {t : Int} {tm : Tm} {month month' : Nat} (isdst : Int) (h : DateOf t tm month) (ht : 0 ≤ t)
    (hmax : t < 2 ^ 31)
    (hle : daysBeforeMonth (tm.tm_year + 1900) month' ≤ daysBeforeMonth (tm.tm_year + 1900) month)
    (hlow : daysBeforeMonth (tm.tm_year + 1900) month ≤ daysBeforeMonth (tm.tm_year + 1900) month' + 366) :
    mktime { tm with tm_mon := month', tm_isdst := isdst } =
      if 0 < isdst then
        Daylight.moved (t - (daysBeforeMonth (tm.tm_year + 1900) month - daysBeforeMonth (tm.tm_year + 1900) month') * 86400)
      else t - (daysBeforeMonth (tm.tm_year + 1900) month - daysBeforeMonth (tm.tm_year + 1900) month') * 86400 := by
  have hdays := h.days
  have hseconds := h.seconds
  have hsum : (daysBeforeYear (tm.tm_year + 1900) + daysBeforeMonth (tm.tm_year + 1900) month' + (tm.tm_mday - 1)) * 86400 +
      tm.tm_hour * 3600 + tm.tm_min * 60 + tm.tm_sec =
      t - (daysBeforeMonth (tm.tm_year + 1900) month - daysBeforeMonth (tm.tm_year + 1900) month') * 86400 := by
    omega
  simp only [mktime, Int.toNat_natCast]
  rw [hsum]
  split
  · rfl
  · rw [if_pos]
    omega

end BeagleCache
