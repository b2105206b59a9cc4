import Mathlib.Tactic.Common
import Mathlib.Tactic.IntervalCases
import Ticketing.Base.Digits

/-!
# Dates and their ISO texts

The dates of the proleptic Gregorian calendar from year 1 to year 9999, as Python has them: their order, their
number counted from the first day of year 1, and the texts that `isoformat` writes.  `fromisoformat` reads
what `datetime.fromisoformat` does since Python 3.11: a date with or without dashes or a week date, and behind
any separator a time with or without colons, a fraction and an offset.  A moment is read as microseconds since
the first day of year 1 on its own clock.
-/

namespace Calendar

/-! ### Dates -/

def isLeap (year : Int) : Bool := year % 4 = 0 && (year % 100 ≠ 0 || year % 400 = 0)

def daysInMonth (year month : Int) : Int :=
  if month = 2 then if isLeap year then 29 else 28
  else if month = 4 ∨ month = 6 ∨ month = 9 ∨ month = 11 then 30 else 31

theorem daysInMonth_le (year month : Int) : daysInMonth year month ≤ 31 := by
  unfold daysInMonth
  split
  · split <;> omega
  · split <;> omega

theorem one_le_daysInMonth (year month : Int) : 1 ≤ daysInMonth year month := by
  unfold daysInMonth
  split
  · split <;> omega
  · split <;> omega

structure Date where
  year : Int
  month : Int
  day : Int
  year_range : 1 ≤ year ∧ year ≤ 9999
  month_range : 1 ≤ month ∧ month ≤ 12
  day_range : 1 ≤ day ∧ day ≤ daysInMonth year month
deriving DecidableEq

/-- `date(year, month, day)`; `none` is a `ValueError`. -/
def date? (year month day : Int) : Option Date :=
  if h : (1 ≤ year ∧ year ≤ 9999) ∧ (1 ≤ month ∧ month ≤ 12) ∧ (1 ≤ day ∧ day ≤ daysInMonth year month) then
    some ⟨year, month, day, h.1, h.2.1, h.2.2⟩
  else none

/-- How many days lie before a month of the year. -/
def daysBeforeMonth (year month : Int) : Int :=
  [0, 31, 59, 90, 120, 151, 181, 212, 243, 273, 304, 334].getD (month.toNat - 1) 0 + if 2 < month ∧
    isLeap year then 1 else 0

/-- How many days lie before a year. -/
def daysBeforeYear (year : Int) : Int := (year - 1) * 365 + (year - 1) / 4 - (year - 1) / 100 + (year - 1) / 400

/-- A date with dashes. -/
def dateText (year month day : Nat) : List Char := Digits.pad 4 year ++ '-' ::
    (Digits.pad 2 month ++ '-' :: Digits.pad 2 day)

/-- The number of the last day of year 9999. -/
def maxOrdinal : Int := 3652059

namespace Date

/-- The number of the day, counted from 1. -/
def toOrdinal (d : Date) : Int := daysBeforeYear d.year + daysBeforeMonth d.year d.month + d.day

instance : LT Date where
  lt d e := d.year < e.year ∨ d.year = e.year ∧ (d.month < e.month ∨ d.month = e.month ∧ d.day < e.day)

instance : LE Date where
  le d e := d = e ∨ d < e

theorem lt_iff {d e : Date} : d < e ↔ d.year < e.year ∨ d.year = e.year ∧
    (d.month < e.month ∨ d.month = e.month ∧ d.day < e.day) := Iff.rfl

theorem ext_iff {d e : Date} : d = e ↔ d.year = e.year ∧ d.month = e.month ∧ d.day = e.day := by
  cases d
  cases e
  simp

theorem le_iff {d e : Date} : d ≤ e ↔ d.year < e.year ∨ d.year = e.year ∧
    (d.month < e.month ∨ d.month = e.month ∧ d.day ≤ e.day) := by
  have hle : d ≤ e ↔ d = e ∨ d < e := Iff.rfl
  rw [hle, ext_iff, lt_iff]
  omega

instance (d e : Date) : Decidable (d < e) := decidable_of_iff _ lt_iff.symm

instance (d e : Date) : Decidable (d ≤ e) := decidable_of_iff _ le_iff.symm

/-- `d.isoformat()` -/
def isoformat (d : Date) : List Char := dateText d.year.toNat d.month.toNat d.day.toNat

theorem day_le (d : Date) : d.day ≤ 31 := d.day_range.2.trans (daysInMonth_le ..)

theorem isoformat_injective : Function.Injective isoformat := by
  intro d e h
  have hyear : ∀ x : Date, (Digits.pad 4 x.year.toNat).length = 4 := by
    intro x
    have := x.year_range
    exact Digits.length_pad (by omega) (by omega)
  have hmonth : ∀ x : Date, (Digits.pad 2 x.month.toNat).length = 2 := by
    intro x
    have := x.month_range
    exact Digits.length_pad (by omega) (by omega)
  obtain ⟨hy, hrest⟩ := List.append_inj h ((hyear d).trans (hyear e).symm)
  obtain ⟨hm, hrest⟩ := List.append_inj (List.cons.inj hrest).2 ((hmonth d).trans (hmonth e).symm)
  have hd := (List.cons.inj hrest).2
  have hy := Digits.pad_injective 4 hy
  have hm := Digits.pad_injective 2 hm
  have hd := Digits.pad_injective 2 hd
  have := d.year_range
  have := d.month_range
  have := d.day_range
  have := e.year_range
  have := e.month_range
  have := e.day_range
  rw [ext_iff]
  omega

/-- A year has no more days than its kind of year. -/
private theorem dayOfYear_range (d : Date) : 1 ≤ daysBeforeMonth d.year d.month + d.day ∧
    daysBeforeMonth d.year d.month + d.day ≤ if isLeap d.year then 366 else 365 := by
  obtain ⟨year, month, day, hyear, hmonth, hday⟩ := d
  obtain ⟨h₁, h₁₂⟩ := hmonth
  simp only
  interval_cases month <;> cases hleap : isLeap year <;> simp
    [daysInMonth, daysBeforeMonth, hleap] at hday ⊢ <;> omega

theorem toOrdinal_range (d : Date) : 1 ≤ d.toOrdinal ∧ d.toOrdinal ≤ maxOrdinal := by
  obtain ⟨hlo, hhi⟩ := d.dayOfYear_range
  obtain ⟨h₁, h₉⟩ := d.year_range
  unfold toOrdinal daysBeforeYear maxOrdinal
  have hlast : d.year = 9999 → isLeap d.year = false := by
    intro hyear
    rw [hyear]
    rfl
  split at hhi
  · rename_i hleap
    have hne : d.year ≠ 9999 := by
      intro hyear
      rw [hlast hyear] at hleap
      cases hleap
    constructor <;> omega
  · constructor <;> omega

end Date

/-! ### Reading -/

/-- A day in microseconds. -/
def dayLength : Int := 86400 * 1000000

/-- A `datetime`: microseconds on its own clock, and `utcoffset()` in microseconds unless it is naive. -/
structure Moment where
  wall : Int
  offset : Option Int
  inRange : 0 ≤ wall ∧ wall < maxOrdinal * dayLength
deriving DecidableEq

/-- The number of a day of an ISO week; `none` is a `ValueError`. -/
def isoWeekOrdinal (year week day : Int) : Option Int :=
  let first := daysBeforeYear year + 1
  -- years that begin on a Thursday, and leap years that begin on a Wednesday, have 53 weeks
  let weeks : Int := if first % 7 = 4 ∨ first % 7 = 3 ∧ isLeap year then 53 else 52
  let weekday := (first + 6) % 7
  let monday := if 3 < weekday then first - weekday + 7 else first - weekday
  if (1 ≤ year ∧ year ≤ 9999) ∧ (1 ≤ week ∧ week ≤ weeks) ∧ (1 ≤ day ∧ day ≤ 7)
    then some (monday + (week - 1) * 7 + (day - 1)) else none

/-- Where the date of a text ends, which has more than 7 characters unless it is only a date. -/
def dateEnd (cs : List Char) : Option Nat :=
  if cs.length = 7 then some 7
  else if cs[4]? = some '-' then
    if cs[5]? = some 'W' then
      if cs[8]? = some '-' then
        -- `YYYY-Www-D`, or `YYYY-Www` with a dash as the separator
        if cs.length = 9 then none else if cs[10]?.any Char.isDigit then some 8 else some 10
      else some 8
    else some 10
  else if cs[4]? = some 'W' then
    let stop := 7 + ((cs.drop 7).takeWhile Char.isDigit).length
    if stop < 9 then some stop else if stop % 2 = 0 then some 7 else some 8
  else some 8

/-- The text after a separator, if there is to be one. -/
def skipSeparator (sep : Char) (expected : Bool) (cs : List Char) : Option (List Char) :=
  if (cs.head? = some sep) = expected then some (if expected then cs.tail else cs) else none

/-- The number of the day of a date text. -/
def readDate (cs : List Char) : Option Int := do
  let (year, cs) ← Digits.read 4 cs
  let dashes := cs.head? = some '-'
  let cs := if dashes then cs.tail else cs
  if cs.head? = some 'W' then
    let (week, cs) ← Digits.read 2 cs.tail
    if cs = [] then isoWeekOrdinal year week 1
    else
      let cs ← skipSeparator '-' dashes cs
      let (day, _) ← Digits.read 1 cs
      isoWeekOrdinal year week day
  else
    let (month, cs) ← Digits.read 2 cs
    let cs ← skipSeparator '-' dashes cs
    let (day, _) ← Digits.read 2 cs
    (date? year month day).map Date.toOrdinal

/-- The microseconds of a fraction of a second; further digits are dropped. -/
def readFraction : List Char → Option Nat
  | [] => some 0
  | mark :: digits =>
    if (mark = '.' ∨ mark = ',') ∧ digits ≠ [] ∧ digits.all Char.isDigit then
      some (Nat.ofDigitChars 10 (digits.take 6) 0 * 10 ^ (6 - (digits.take 6).length))
    else none

/-- Hours, minutes, seconds and microseconds; what is missing at the end is zero. -/
def readClock (cs : List Char) : Option (Nat × Nat × Nat × Nat) := do
  let (hour, cs) ← Digits.read 2 cs
  if cs = [] then return (hour, 0, 0, 0)
  let colons := cs.head? = some ':'
  let (minute, cs) ← Digits.read 2 (if colons then cs.tail else cs)
  if cs = [] then return (hour, minute, 0, 0)
  let cs ← if colons then skipSeparator ':' true cs else some cs
  let (second, cs) ← Digits.read 2 cs
  let micro ← readFraction cs
  return (hour, minute, second, micro)

/-- The microseconds of a clock text that is a time of day. -/
def readTimeOfDay (cs : List Char) : Option Int := do
  let (hour, minute, second, micro) ← readClock cs
  if hour < 24 ∧ minute < 60 ∧ second < 60 then
    return ((hour * 60 + minute) * 60 + second : Nat) * 1000000 + (micro : Nat)
  else none

/-- The offset at the end of a text; nothing is a naive time. -/
def readOffset : List Char → Option (Option Int)
  | [] => some none
  | 'Z' :: cs => if cs = [] then some (some 0) else none
  | sign :: cs => (readTimeOfDay cs).map fun offset => some (if sign = '-' then -offset else offset)

/-- Whether a character does not begin an offset. -/
def isClock (c : Char) : Bool := c ≠ '+' ∧ c ≠ '-' ∧ c ≠ 'Z'

/-- The time of day and the offset. -/
def readTime (cs : List Char) : Option (Int × Option Int) := do
  let timeOfDay ← readTimeOfDay (cs.takeWhile isClock)
  let offset ← readOffset (cs.dropWhile isClock)
  return (timeOfDay, offset)

/-- `datetime.fromisoformat`; `none` is a `ValueError`. -/
def fromisoformat (cs : List Char) : Option Moment := do
  if cs.length < 7 then none
  let stop ← dateEnd cs
  let ordinal ← readDate (cs.take stop)
  let (timeOfDay, offset) ← if cs.length ≤ stop then some (0, none) else readTime (cs.drop (stop + 1))
  let wall := (ordinal - 1) * dayLength + timeOfDay
  if h : 0 ≤ wall ∧ wall < maxOrdinal * dayLength then return ⟨wall, offset, h⟩ else none

/-! ### What is read back -/

theorem date?_eq (d : Date) : date? d.year d.month d.day = some d := by
  rw [date?, dif_pos ⟨d.year_range, d.month_range, d.day_range⟩]

/-- The first day of every month of a year that dates have. -/
theorem date?_first {year month : Int} (hyear : 1 ≤ year ∧ year ≤ 9999) (hmonth : 1 ≤ month ∧ month ≤ 12) :
    ∃ d, date? year month 1 = some d ∧ d.year = year ∧ d.month = month ∧ d.day = 1 := by
  have hday := one_le_daysInMonth year month
  refine ⟨⟨year, month, 1, hyear, hmonth, by omega, hday⟩, ?_, rfl, rfl, rfl⟩
  rw [date?, dif_pos ⟨hyear, hmonth, by omega, hday⟩]

theorem length_dateText {year month day : Nat} (hyear : year < 10 ^ 4) (hmonth : month < 10 ^ 2)
    (hday : day < 10 ^ 2) :
    (dateText year month day).length = 10 := by
  have hyear := Digits.length_pad (by omega) hyear
  have hmonth := Digits.length_pad (by omega) hmonth
  have hday := Digits.length_pad (by omega) hday
  simp [dateText, hyear, hmonth, hday]

theorem read_two {n : Nat} (h : n < 100) (rest : List Char) :
    Digits.read 2 (Digits.pad 2 n ++ rest) = some (n, rest) :=
  Digits.read_pad (by omega) (by omega) rest

theorem read_two_nil {n : Nat} (h : n < 100) : Digits.read 2 (Digits.pad 2 n) = some (n, []) := by
  have hread := read_two h []
  rwa [List.append_nil] at hread

theorem readDate_isoformat (d : Date) : readDate d.isoformat = some d.toOrdinal := by
  have := d.year_range
  have := d.month_range
  have := d.day_range
  have := d.day_le
  have hday := @read_two_nil d.day.toNat (by omega)
  have hmonth := @read_two d.month.toNat (by omega) ('-' :: Digits.pad 2 d.day.toNat)
  have hweek := Digits.head?_pad_append 2 d.month.toNat (c := 'W') (by decide) ('-' :: Digits.pad 2 d.day.toNat)
  obtain ⟨rest, hrest⟩ : ∃ rest, rest = Digits.pad 2 d.month.toNat ++ '-' :: Digits.pad 2 d.day.toNat := ⟨_, rfl⟩
  have hyear := @Digits.read_pad 4 d.year.toNat (by omega) (by omega) ('-' :: rest)
  rw [← hrest] at hmonth hweek
  have hy : (d.year.toNat : Int) = d.year := by omega
  have hm : (d.month.toNat : Int) = d.month := by omega
  have hd : (d.day.toNat : Int) = d.day := by omega
  simp [readDate, Date.isoformat, dateText, ← hrest, hyear, hweek, hmonth, skipSeparator, hday, hy, hm, hd, date?_eq]

theorem dateEnd_dateText {year month day : Nat} (hyear : year < 10 ^ 4) (hmonth : month < 10 ^ 2)
    (hday : day < 10 ^ 2) (rest : List Char) :
    dateEnd (dateText year month day ++ rest) = some 10 := by
  have hlength := length_dateText hyear hmonth hday
  have hfour : (Digits.pad 4 year).length = 4 := Digits.length_pad (by omega) hyear
  have hweek := Digits.head?_pad_append 2 month (c := 'W') (by decide) ('-' :: Digits.pad 2 day ++ rest)
  have hlong : ¬(dateText year month day ++ rest).length = 7 := by
    rw [List.length_append]
    omega
  have h₄ : (dateText year month day ++ rest)[4]? = some '-' := by
    rw [dateText, List.append_assoc, List.getElem?_append_right (by omega), hfour]
    rfl
  have h₅ : (dateText year month day ++ rest)[5]? ≠ some 'W' := by
    rw [dateText, List.append_assoc, List.getElem?_append_right (by omega), hfour]
    simpa [List.head?_eq_getElem?] using hweek
  rw [dateEnd, if_neg hlong, if_pos h₄, if_neg h₅]

/-- A date and the time behind a separator are read one by one. -/
theorem fromisoformat_append {year month day : Nat} (hyear : year < 10 ^ 4) (hmonth : month < 10 ^ 2)
    (hday : day < 10 ^ 2) (sep : Char) (time : List Char) :
    fromisoformat (dateText year month day ++ sep :: time) =
      (readDate (dateText year month day)).bind fun ordinal => (readTime time).bind fun t =>
      if h : 0 ≤ (ordinal - 1) * dayLength + t.1 ∧ (ordinal - 1) * dayLength + t.1 < maxOrdinal * dayLength then
        some ⟨(ordinal - 1) * dayLength + t.1, t.2, h⟩
      else none := by
  have hlength := length_dateText hyear hmonth hday
  have hlong : ¬(dateText year month day ++ sep :: time).length < 7 := by
    rw [List.length_append]
    omega
  have htake : (dateText year month day ++ sep :: time).take 10 = dateText year month day := List.take_left' hlength
  have hdrop : (dateText year month day ++ sep :: time).drop (10 + 1) = time := by
    rw [← hlength, List.drop_append]
    simp
  have hrest : ¬(dateText year month day ++ sep :: time).length ≤ 10 := by
    rw [List.length_append, List.length_cons]
    omega
  rw [fromisoformat, if_neg hlong, dateEnd_dateText hyear hmonth hday]
  simp only [Option.bind_eq_bind, Option.bind_some, htake, hdrop, if_neg hrest]
  rfl

/-- A year of five or six digits is not read. -/
theorem fromisoformat_far {digits : List Char} (hlength : digits.length = 5 ∨ digits.length = 6)
    (hdigit : ∀ c ∈ digits, c.isDigit = true)
    (c₁ c₂ : Char) (rest : List Char) : fromisoformat (digits ++ '-' :: c₁ :: c₂ :: rest) = none := by
  have hne : ∀ c : Char, c.isDigit = true → c ≠ '-' ∧ c ≠ 'W' := by
    intro c hc
    constructor <;> intro heq <;> rw [heq] at hc <;> exact absurd hc (by decide)
  rcases digits with _ | ⟨d₁, _ | ⟨d₂, _ | ⟨d₃, _ | ⟨d₄, _ | ⟨d₅, digits⟩⟩⟩⟩⟩ <;>
    simp only [List.length_cons, List.length_nil] at hlength <;> try omega
  obtain ⟨hdash, hweek⟩ := hne d₅ (hdigit d₅ (by simp))
  have hyear : ∀ cs, Digits.read 4 (d₁ :: d₂ :: d₃ :: d₄ :: cs) = some
      (Nat.ofDigitChars 10 [d₁, d₂, d₃, d₄] 0, cs) := by
    intro cs
    apply @Digits.read_append [d₁, d₂, d₃, d₄]
    intro c hc
    exact hdigit c (List.mem_append_left (d₅ :: digits) hc)
  rcases digits with _ | ⟨d₆, _ | ⟨d₇, digits⟩⟩ <;> simp only
    [List.length_cons, List.length_nil] at hlength <;> try omega
  · -- the dash stands where the month should
    have hstop : dateEnd (d₁ :: d₂ :: d₃ :: d₄ :: d₅ :: '-' :: c₁ :: c₂ :: rest) = some 8 := by
      simp [dateEnd, hdash, hweek]
    have hmonth : Digits.read 2 [d₅, '-', c₁, c₂] = none := by simp [Digits.read]
    have hdate : readDate [d₁, d₂, d₃, d₄, d₅, '-', c₁, c₂] = none := by simp [readDate, hyear, hdash, hweek, hmonth]
    simp [fromisoformat, hstop, hdate]
  · -- the dash stands behind the month of a text without dashes
    have hstop : dateEnd (d₁ :: d₂ :: d₃ :: d₄ :: d₅ :: d₆ :: '-' :: c₁ :: c₂ :: rest) = some 8 := by
      simp [dateEnd, hdash, hweek]
    have hmonth : Digits.read 2 [d₅, d₆, '-', c₁] = some (Nat.ofDigitChars 10 [d₅, d₆] 0, ['-', c₁]) := by
      apply @Digits.read_append [d₅, d₆]
      intro c hc
      exact hdigit c (List.mem_append_right [d₁, d₂, d₃, d₄] hc)
    have hdate : readDate [d₁, d₂, d₃, d₄, d₅, d₆, '-', c₁] = none := by
      simp [readDate, hyear, hdash, hweek, hmonth, skipSeparator]
    simp [fromisoformat, hstop, hdate]

/-! ### Clock texts -/

theorem readClock_hour {hour : Nat} (h : hour < 100) : readClock (Digits.pad 2 hour) = some (hour, 0, 0, 0) := by
  simp [readClock, read_two_nil h]

theorem readClock_minute {hour minute : Nat} (h : hour < 100) (h' : minute < 100) :
    readClock (Digits.pad 2 hour ++ ':' :: Digits.pad 2 minute) = some (hour, minute, 0, 0) := by
  simp [readClock, read_two h, read_two_nil h']

theorem readClock_second {hour minute second : Nat} (h : hour < 100) (h' : minute < 100) (h'' : second < 100)
    (rest : List Char) :
    readClock (Digits.pad 2 hour ++ ':' :: (Digits.pad 2 minute ++ ':' :: (Digits.pad 2 second ++ rest))) =
      (readFraction rest).map fun micro => (hour, minute, second, micro) := by
  simp [readClock, read_two h, read_two h', read_two h'', skipSeparator, Option.map_eq_bind]

end Calendar
