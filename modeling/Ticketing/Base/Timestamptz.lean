import Mathlib.Data.List.DropRight
import Ticketing.Base.Calendar

/-!
# Timestamps as Postgres writes them

The text of a `timestamp with time zone` in the ISO style: date, time, the fraction without its trailing
zeros, the offset of the session's zone, and the era of years before the first.  `fromisoformat_text` says
what `datetime.fromisoformat` makes of such a text: the years 1 to 9999 are read as they stand and other years
not at all.
-/

namespace Calendar

/-- The fraction of a second, without its trailing zeros. -/
def fractionText (micro : Nat) : List Char := if micro = 0 then [] else '.' ::
    (Digits.pad 6 micro).rdropWhile (· = '0')

/-- The hours of an offset in seconds, and its minutes and seconds where it has such. -/
def offsetDigits (seconds : Nat) : List Char :=
  if seconds % 60 ≠ 0 then
    Digits.pad 2 (seconds / 3600) ++ ':' :: (Digits.pad 2 (seconds / 60 % 60) ++ ':' :: Digits.pad 2 (seconds % 60))
  else if seconds / 60 % 60 ≠ 0 then Digits.pad 2 (seconds / 3600) ++ ':' :: Digits.pad 2 (seconds / 60 % 60)
  else Digits.pad 2 (seconds / 3600)

def offsetText (offset : Int) : List Char := (if 0 ≤ offset then '+' else '-') :: offsetDigits offset.natAbs

/-- A `timestamptz` on the clock of a session; the year 0 is 1 BC, and the offset is in seconds. -/
structure Timestamptz where
  year : Int
  month : Int
  day : Int
  hour : Nat
  minute : Nat
  second : Nat
  micro : Nat
  offset : Int
  year_range : -4712 ≤ year ∧ year ≤ 294276
  month_range : 1 ≤ month ∧ month ≤ 12
  day_range : 1 ≤ day ∧ day ≤ daysInMonth year month
  clock_range : hour < 24 ∧ minute < 60 ∧ second < 60 ∧ micro < 10 ^ 6
  offset_range : offset.natAbs < 86400

namespace Timestamptz

variable (t : Timestamptz)

def timeText : List Char :=
  Digits.pad 2 t.hour ++ ':' :: (Digits.pad 2 t.minute ++ ':' :: (Digits.pad 2 t.second ++ fractionText t.micro))

def text : List Char :=
  if 1 ≤ t.year then dateText t.year.toNat t.month.toNat t.day.toNat ++ ' ' ::
    (t.timeText ++ (offsetText t.offset ++ []))
  else dateText (1 - t.year).toNat t.month.toNat t.day.toNat ++ ' ' ::
    (t.timeText ++ (offsetText t.offset ++ [' ', 'B', 'C']))

/-- The microseconds of the time of day. -/
def timeOfDay : Int := ((t.hour * 60 + t.minute) * 60 + t.second : Nat) * 1000000 + (t.micro : Nat)

/-- The microseconds since the first day of year 1, on the session's clock. -/
def wall : Int := (daysBeforeYear t.year + daysBeforeMonth t.year t.month + t.day - 1) * dayLength + t.timeOfDay

/-- The same in UTC: what timestamps are compared by. -/
def instant : Int := t.wall - t.offset * 1000000

/-- Midnight of a date, which is what a date is read as, on a clock with the offset. -/
def midnight (d : Date) (offset : Int) (h : offset.natAbs < 86400) : Timestamptz where
  year := d.year
  month := d.month
  day := d.day
  hour := 0
  minute := 0
  second := 0
  micro := 0
  offset
  year_range := by
    have := d.year_range
    omega
  month_range := d.month_range
  day_range := d.day_range
  clock_range := by omega
  offset_range := h

end Timestamptz

/-! ### Reading the parts -/

theorem readFraction_fractionText {micro : Nat} (h : micro < 10 ^ 6) :
    readFraction (fractionText micro) = some micro := by
  rw [fractionText]
  split
  · rename_i hzero
    rw [hzero]
    rfl
  · rename_i hzero
    obtain ⟨digits, hdigits⟩ : ∃ digits, digits = (Digits.pad 6 micro).rdropWhile (· = '0') := ⟨_, rfl⟩
    have hsplit : digits ++ (Digits.pad 6 micro).rtakeWhile (· = '0') = Digits.pad 6 micro := by
      rw [hdigits]
      exact List.rdropWhile_append_rtakeWhile
    have hzeros : (Digits.pad 6 micro).rtakeWhile (· = '0') = List.replicate (6 - digits.length) '0' := by
      apply List.eq_replicate_iff.2
      constructor
      · have hlength := congrArg List.length hsplit
        rw [List.length_append, Digits.length_pad (by omega) h] at hlength
        omega
      · intro c hc
        simpa using List.mem_rtakeWhile_imp hc
    rw [hzeros] at hsplit
    -- the zeros that are cut off are the power of ten that the reader puts back
    have hvalue : Nat.ofDigitChars 10 digits 0 * 10 ^ (6 - digits.length) = micro := by
      have hpad := Digits.ofDigitChars_pad 6 micro
      rw [← hsplit, Nat.ofDigitChars_append, Nat.ofDigitChars_replicate_zero] at hpad
      rw [Nat.mul_comm]
      exact hpad
    have hne : digits ≠ [] := by
      intro hnil
      rw [hnil] at hvalue
      simp at hvalue
      omega
    have hall : digits.all Char.isDigit = true := by
      rw [List.all_eq_true]
      intro c hc
      apply @Digits.isDigit_of_mem_pad 6 micro
      rw [← hsplit]
      exact List.mem_append_left _ hc
    have hshort : digits.take 6 = digits := by
      apply List.take_of_length_le
      have hlength := congrArg List.length hsplit
      rw [List.length_append, Digits.length_pad (by omega) h] at hlength
      omega
    rw [← hdigits, readFraction, if_pos ⟨Or.inl rfl, hne, hall⟩, hshort, hvalue]

theorem mem_fractionText {micro : Nat} {c : Char} (h : c ∈ fractionText micro) : c.isDigit = true ∨
    c = ':' ∨ c = '.' := by
  rw [fractionText] at h
  split at h
  · simp at h
  · rcases List.mem_cons.1 h with h | h
    · exact Or.inr (Or.inr h)
    · exact Or.inl (Digits.isDigit_of_mem_pad ((List.rdropWhile_prefix _ _).mem h))

theorem mem_offsetDigits {seconds : Nat} {c : Char} (h : c ∈ offsetDigits seconds) : c.isDigit = true ∨ c = ':' := by
  rw [offsetDigits] at h
  split at h
  · simp only [List.mem_append, List.mem_cons] at h
    rcases h with h | h | h | h | h
    · exact Or.inl (Digits.isDigit_of_mem_pad h)
    · exact Or.inr h
    · exact Or.inl (Digits.isDigit_of_mem_pad h)
    · exact Or.inr h
    · exact Or.inl (Digits.isDigit_of_mem_pad h)
  · split at h
    · simp only [List.mem_append, List.mem_cons] at h
      rcases h with h | h | h
      · exact Or.inl (Digits.isDigit_of_mem_pad h)
      · exact Or.inr h
      · exact Or.inl (Digits.isDigit_of_mem_pad h)
    · exact Or.inl (Digits.isDigit_of_mem_pad h)

theorem readTimeOfDay_of_readClock {cs : List Char} {hour minute second micro : Nat}
    (h : readClock cs = some (hour, minute, second, micro)) (hclock : hour < 24 ∧ minute < 60 ∧ second < 60) :
    readTimeOfDay cs = some ((((hour * 60 + minute) * 60 + second : Nat) : Int) * 1000000 + (micro : Int)) := by
  simp only [readTimeOfDay, h, Option.bind_eq_bind, Option.bind_some, if_pos hclock]
  rfl

theorem readTimeOfDay_offsetDigits {seconds : Nat} (h : seconds < 86400) :
    readTimeOfDay (offsetDigits seconds) = some (seconds * 1000000 : Int) := by
  rw [offsetDigits]
  split
  · have hclock := @readClock_second (seconds / 3600) (seconds / 60 % 60) (seconds % 60) (by omega)
      (by omega) (by omega) []
    rw [List.append_nil] at hclock
    rw [readTimeOfDay_of_readClock hclock (by omega), Option.some.injEq]
    omega
  · split
    · have hclock := @readClock_minute (seconds / 3600) (seconds / 60 % 60) (by omega) (by omega)
      rw [readTimeOfDay_of_readClock hclock (by omega), Option.some.injEq]
      omega
    · have hclock := @readClock_hour (seconds / 3600) (by omega)
      rw [readTimeOfDay_of_readClock hclock (by omega), Option.some.injEq]
      omega

/-- An era behind the offset makes the text unreadable. -/
theorem readTimeOfDay_era {seconds : Nat} (h : seconds < 86400) (era : List Char) :
    readTimeOfDay (offsetDigits seconds ++ ' ' :: era) = none := by
  have hblank : Digits.read 2 (' ' :: era) = none := by simp [Digits.read]
  have hclock : readClock (offsetDigits seconds ++ ' ' :: era) = none := by
    rw [offsetDigits]
    split
    · have hsecond := @readClock_second (seconds / 3600) (seconds / 60 % 60) (seconds % 60) (by omega)
        (by omega) (by omega) (' ' :: era)
      simpa [readFraction] using hsecond
    · split
      · have hhour : seconds / 3600 < 100 := by omega
        have hminute : seconds / 60 % 60 < 100 := by omega
        simp [readClock, read_two hhour, read_two hminute, skipSeparator]
      · have hhour : seconds / 3600 < 100 := by omega
        simp [readClock, read_two hhour, hblank]
  rw [readTimeOfDay, hclock]
  rfl

theorem readOffset_offsetText {offset : Int} (h : offset.natAbs < 86400) :
    readOffset (offsetText offset) = some (some (offset * 1000000)) := by
  have hdigits := readTimeOfDay_offsetDigits h
  rw [offsetText]
  split
  · have hvalue : (offset.natAbs : Int) = offset := by omega
    simp [readOffset, hdigits, hvalue]
  · have hvalue : (offset.natAbs : Int) = -offset := by omega
    simp [readOffset, hdigits, hvalue]

theorem readOffset_era {offset : Int} (h : offset.natAbs < 86400) (era : List Char) :
    readOffset (offsetText offset ++ ' ' :: era) = none := by
  have hdigits := readTimeOfDay_era h era
  rw [offsetText]
  split <;> simp [readOffset, hdigits]

namespace Timestamptz

variable (t : Timestamptz)

theorem readTimeOfDay_timeText : readTimeOfDay t.timeText = some t.timeOfDay := by
  obtain ⟨hhour, hminute, hsecond, hmicro⟩ := t.clock_range
  have hclock := @readClock_second t.hour t.minute t.second (by omega) (by omega) (by omega) (fractionText t.micro)
  rw [readFraction_fractionText hmicro, Option.map_some] at hclock
  exact readTimeOfDay_of_readClock hclock ⟨hhour, hminute, hsecond⟩

theorem mem_timeText {c : Char} (hc : c ∈ t.timeText) : c.isDigit = true ∨ c = ':' ∨ c = '.' := by
  simp only [timeText, List.mem_append, List.mem_cons] at hc
  rcases hc with h | h | h | h | h | h
  · exact Or.inl (Digits.isDigit_of_mem_pad h)
  · exact Or.inr (Or.inl h)
  · exact Or.inl (Digits.isDigit_of_mem_pad h)
  · exact Or.inr (Or.inl h)
  · exact Or.inl (Digits.isDigit_of_mem_pad h)
  · exact mem_fractionText h

/-- Nothing in the time of day looks like the beginning of an offset. -/
theorem isClock_of_mem_timeText {c : Char} (hc : c ∈ t.timeText) : isClock c = true := by
  have hdigit : ∀ c : Char, c.isDigit = true → isClock c = true := by
    intro c hdigit
    apply decide_eq_true
    refine ⟨?_, ?_, ?_⟩ <;> intro heq <;> rw [heq] at hdigit <;> exact absurd hdigit (by decide)
  rcases mem_timeText t hc with h | rfl | rfl
  · exact hdigit c h
  · decide
  · decide

/-- The time of day ends where the offset begins. -/
theorem readTime_timeText (offset : Int) (rest : List Char) :
    readTime (t.timeText ++ (offsetText offset ++ rest)) =
      (readOffset (offsetText offset ++ rest)).map fun o => (t.timeOfDay, o) := by
  have hclock : ∀ c ∈ t.timeText, isClock c = true := fun c hc => t.isClock_of_mem_timeText hc
  obtain ⟨sign, cs, htext, hsign⟩ : ∃ sign cs, offsetText offset ++ rest = sign :: cs ∧ ¬isClock sign = true := by
    rw [offsetText]
    split
    · exact ⟨_, _, rfl, by decide⟩
    · exact ⟨_, _, rfl, by decide⟩
  have htake : (t.timeText ++ sign :: cs).takeWhile isClock = t.timeText := by
    rw [List.takeWhile_append_of_pos hclock, List.takeWhile_cons_of_neg hsign, List.append_nil]
  have hdrop : (t.timeText ++ sign :: cs).dropWhile isClock = sign :: cs := by
    rw [List.dropWhile_append_of_pos hclock, List.dropWhile_cons_of_neg hsign]
  simp only [htext, readTime, htake, hdrop, readTimeOfDay_timeText, Option.bind_eq_bind, Option.bind_some,
    Option.map_eq_bind]
  rfl

/-- The characters that a text can have besides digits. -/
def marks : List Char := [':', '.', '-', '+', ' ', 'B', 'C']

theorem mem_text {c : Char} (hc : c ∈ t.text) : c.isDigit = true ∨ c ∈ marks := by
  have hdate : ∀ {year month day : Nat}, c ∈ dateText year month day → c.isDigit = true ∨ c ∈ marks := by
    intro year month day h
    simp only [dateText, List.mem_append, List.mem_cons] at h
    rcases h with h | rfl | h | rfl | h
    · exact Or.inl (Digits.isDigit_of_mem_pad h)
    · exact Or.inr (by decide)
    · exact Or.inl (Digits.isDigit_of_mem_pad h)
    · exact Or.inr (by decide)
    · exact Or.inl (Digits.isDigit_of_mem_pad h)
  have htime : ∀ {rest : List Char}, c ∈ ' ' :: (t.timeText ++ (offsetText t.offset ++ rest)) →
      (c.isDigit = true ∨ c ∈ marks) ∨ c ∈ rest := by
    intro rest h
    simp only [offsetText, List.mem_append, List.mem_cons] at h
    rcases h with rfl | h | (h | h) | h
    · exact Or.inl (Or.inr (by decide))
    · rcases t.mem_timeText h with h | rfl | rfl
      · exact Or.inl (Or.inl h)
      · exact Or.inl (Or.inr (by decide))
      · exact Or.inl (Or.inr (by decide))
    · split at h <;> rw [h] <;> exact Or.inl (Or.inr (by decide))
    · rcases mem_offsetDigits h with h | rfl
      · exact Or.inl (Or.inl h)
      · exact Or.inl (Or.inr (by decide))
    · exact Or.inr h
  rw [text] at hc
  split at hc
  · rcases List.mem_append.1 hc with h | h
    · exact hdate h
    · rcases htime h with h | h
      · exact h
      · cases h
  · rcases List.mem_append.1 hc with h | h
    · exact hdate h
    · rcases htime h with h | h
      · exact h
      · right
        simp only [List.mem_cons, List.not_mem_nil, or_false] at h
        rcases h with rfl | rfl | rfl <;> decide

theorem timeOfDay_range : 0 ≤ t.timeOfDay ∧ t.timeOfDay < dayLength := by
  obtain ⟨hhour, hminute, hsecond, hmicro⟩ := t.clock_range
  unfold timeOfDay dayLength
  constructor <;> omega

theorem day_le : t.day ≤ 31 := t.day_range.2.trans (daysInMonth_le ..)

/-- A year that a `datetime` has is read as it stands. -/
theorem fromisoformat_of_year (hfirst : 1 ≤ t.year) (hlast : t.year ≤ 9999) :
    (fromisoformat t.text).map (fun m => (m.wall, m.offset)) = some (t.wall, some (t.offset * 1000000)) := by
  obtain ⟨d, hd⟩ : ∃ d : Date, d.year = t.year ∧ d.month = t.month ∧ d.day = t.day :=
    ⟨⟨t.year, t.month, t.day, ⟨hfirst, hlast⟩, t.month_range, t.day_range⟩, rfl, rfl, rfl⟩
  have hmonth := t.month_range
  have hday := t.day_range
  have hday' := t.day_le
  have hdate : dateText t.year.toNat t.month.toNat t.day.toNat = d.isoformat := by
    rw [Date.isoformat, hd.1, hd.2.1, hd.2.2]
  have hoffset := readOffset_offsetText t.offset_range
  have hrange := d.toOrdinal_range
  have htime := t.timeOfDay_range
  have hwall : (d.toOrdinal - 1) * dayLength + t.timeOfDay = t.wall := by
    rw [wall, Date.toOrdinal, hd.1, hd.2.1, hd.2.2]
  have hin : 0 ≤ (d.toOrdinal - 1) * dayLength + t.timeOfDay ∧
      (d.toOrdinal - 1) * dayLength + t.timeOfDay < maxOrdinal * dayLength := by
    unfold dayLength at htime ⊢
    constructor <;> omega
  rw [text, if_pos hfirst, fromisoformat_append (by omega) (by omega) (by omega), hdate, readDate_isoformat,
    Option.bind_some,
    readTime_timeText, List.append_nil, hoffset, Option.map_some, Option.bind_some, dif_pos hin,
    Option.map_some, ← hwall]

theorem fromisoformat_of_far_year (hfar : 9999 < t.year) : fromisoformat t.text = none := by
  have hyear := t.year_range
  have hmonth := t.month_range
  have hfive : ¬(Nat.toDigits 10 t.year.toNat).length ≤ 4 := by
    rw [Nat.length_toDigits_le_iff (by omega) (by omega)]
    omega
  have hsix : (Nat.toDigits 10 t.year.toNat).length ≤ 6 := by
    rw [Nat.length_toDigits_le_iff (by omega) (by omega)]
    omega
  have hdigit : ∀ c ∈ Nat.toDigits 10 t.year.toNat, c.isDigit = true := by
    intro c hc
    exact Nat.isDigit_of_mem_toDigits (by omega) (by omega) hc
  obtain ⟨c₁, c₂, hpad⟩ := List.length_eq_two.1 (@Digits.length_pad 2 t.month.toNat (by omega) (by omega))
  rw [text, if_pos (by omega), dateText, Digits.pad_of_le (by omega), hpad, List.append_assoc]
  exact fromisoformat_far (by omega) hdigit c₁ c₂ _

/-- Only the years that a `datetime` has are read, and these exactly. -/
theorem fromisoformat_text : (fromisoformat t.text).map (fun m => (m.wall, m.offset)) =
    if 1 ≤ t.year ∧ t.year ≤ 9999 then some (t.wall, some (t.offset * 1000000)) else none := by
  have hyear := t.year_range
  have hmonth := t.month_range
  have hday := t.day_range
  have hday' := t.day_le
  by_cases hfirst : 1 ≤ t.year
  · by_cases hlast : t.year ≤ 9999
    · rw [if_pos ⟨hfirst, hlast⟩, t.fromisoformat_of_year hfirst hlast]
    · rw [if_neg (by omega), t.fromisoformat_of_far_year (by omega), Option.map_none]
  · -- the era is left over behind the offset
    have htime := readTime_timeText t t.offset [' ', 'B', 'C']
    rw [readOffset_era t.offset_range, Option.map_none] at htime
    rw [text, if_neg hfirst, if_neg (by omega), fromisoformat_append (by omega) (by omega) (by omega), htime]
    simp

end Timestamptz

end Calendar
