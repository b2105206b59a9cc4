import Ticketing.Base.Text
import Ticketing.Base.Timestamptz
import Ticketing.EventPatch

/-!
# The bounds of a partition

`_add_months` and `_month_range`, by which the partitions of `audit_logs` are made, and
`_partition_upper_bound`, by which they are dropped.  The text of a bound may be any text at all.  Where it is
one that Postgres writes for a range (`rangeText`), what is read from it is the upper bound itself, or nothing
when no `datetime` says it (`partitionUpperBound_rangeText`).
-/

namespace Ticketing

open Calendar

/-! ### Months -/

/-- The first day of a month and of the month after it; `none` is a `ValueError`. -/
def monthDates (year month : Int) : Option (Date × Date) := do
  let start ← date? year month 1
  let stop ← if month = 12 then date? (year + 1) 1 1 else date? year (month + 1) 1
  return (start, stop)

def monthRange (year month : Int) : Option (String × String) :=
  (monthDates year month).map fun dates => (String.ofList dates.1.isoformat, String.ofList dates.2.isoformat)

/-- `divmod` rounds down, so that offsets may be negative. -/
def addMonths (anchor : Date) (offset : Int) : Int × Int :=
  let months := anchor.month - 1 + offset
  (anchor.year + months / 12, months % 12 + 1)

/-- Whether a day is in the range of two texts. -/
def InRange (range : String × String) (x : Date) : Prop :=
  ∃ start stop : Date, range = (String.ofList start.isoformat, String.ofList stop.isoformat) ∧ start ≤ x ∧ x < stop

/-- The months counted from year 0. -/
def monthNumber (d : Date) : Int := d.year * 12 + (d.month - 1)

theorem inRange_iff {start stop x : Date} :
    InRange (String.ofList start.isoformat, String.ofList stop.isoformat) x ↔ start ≤ x ∧ x < stop := by
  constructor
  · intro ⟨start', stop', htexts, hstart, hstop⟩
    rw [Prod.mk.injEq, String.ofList_inj, String.ofList_inj] at htexts
    rw [Date.isoformat_injective htexts.1, Date.isoformat_injective htexts.2]
    exact ⟨hstart, hstop⟩
  · intro hx
    exact ⟨start, stop, rfl, hx⟩

/-- There is one first day of a month. -/
theorem eq_of_monthNumber {d e : Date} (hd : d.day = 1) (he : e.day = 1)
    (h : monthNumber d = monthNumber e) : d = e := by
  have := d.month_range
  have := e.month_range
  unfold monthNumber at h
  rw [Date.ext_iff]
  omega

/-- The days from the first of a month to the first of the next are those of the month. -/
theorem between_iff {start stop x : Date} (hstart : start.day = 1) (hstop : stop.day = 1)
    (h : monthNumber stop = monthNumber start + 1) :
    start ≤ x ∧ x < stop ↔ monthNumber x = monthNumber start := by
  have := x.month_range
  have := x.day_range
  have := start.month_range
  have := stop.month_range
  unfold monthNumber at *
  rw [Date.le_iff, Date.lt_iff]
  omega

theorem addMonths_spec (d : Date) (i : Int) :
    (1 ≤ (addMonths d i).2 ∧ (addMonths d i).2 ≤ 12) ∧
      (addMonths d i).1 * 12 + ((addMonths d i).2 - 1) = monthNumber d + i := by
  simp only [addMonths, monthNumber]
  omega

/-- Every month before December 9999 has its range. -/
theorem monthDates_spec {year month : Int} (hyear : 1 ≤ year) (hmonth : 1 ≤ month ∧ month ≤ 12)
    (hlast : year * 12 + (month - 1) < 9999 * 12 + 11) :
    ∃ start stop, monthDates year month = some (start, stop) ∧ start.day = 1 ∧ stop.day = 1 ∧
      monthNumber start = year * 12 + (month - 1) ∧ monthNumber stop = year * 12 + (month - 1) + 1 := by
  obtain ⟨start, hstart, hy, hm, hd⟩ := @date?_first year month (by omega) hmonth
  have hnumber : monthNumber start = year * 12 + (month - 1) := by rw [monthNumber, hy, hm]
  by_cases hdecember : month = 12
  · obtain ⟨stop, hstop, hy', hm', hd'⟩ := @date?_first (year + 1) 1 (by omega) (by omega)
    have hnext : monthNumber stop = year * 12 + (month - 1) + 1 := by
      rw [monthNumber, hy', hm']
      omega
    refine ⟨start, stop, ?_, hd, hd', hnumber, hnext⟩
    rw [monthDates, hstart]
    simp [hdecember, hstop]
  · obtain ⟨stop, hstop, hy', hm', hd'⟩ := @date?_first year (month + 1) (by omega) (by omega)
    have hnext : monthNumber stop = year * 12 + (month - 1) + 1 := by
      rw [monthNumber, hy', hm']
      omega
    refine ⟨start, stop, ?_, hd, hd', hnumber, hnext⟩
    rw [monthDates, hstart]
    simp [hdecember, hstop]

/-- The range of the month `i` months after a day. -/
theorem monthRange_addMonths (d : Date) {i : Nat} (hlast : monthNumber d + i < 9999 * 12 + 11) :
    ∃ start stop : Date,
      monthRange (addMonths d i).1 (addMonths d i).2 = some
        (String.ofList start.isoformat, String.ofList stop.isoformat) ∧
      start.day = 1 ∧ stop.day = 1 ∧ monthNumber start = monthNumber d + i ∧
      monthNumber stop = monthNumber d + i + 1 := by
  obtain ⟨hmonth, hnumber⟩ := addMonths_spec d i
  have hyear : 1 ≤ (addMonths d i).1 := by
    have := d.year_range
    have := d.month_range
    unfold monthNumber at hnumber
    omega
  obtain ⟨start, stop, hdates, hstart, hstop, hfirst, hnext⟩ := monthDates_spec hyear hmonth (by omega)
  rw [hnumber] at hfirst hnext
  refine ⟨start, stop, ?_, hstart, hstop, hfirst, hnext⟩
  rw [monthRange, hdates]
  rfl

/-- The ranges of a month and the months after it follow one another without gap or overlap. -/
theorem monthRanges_tile (d : Date) (k : Nat) (hlast : monthNumber d + k < 9999 * 12 + 11) :
    ∃ ranges : Nat → String × String,
      (∀ i ≤ k, monthRange (addMonths d i).1 (addMonths d i).2 = some (ranges i)) ∧
      (∀ i < k, (ranges i).2 = (ranges (i + 1)).1) ∧
      (∀ i ≤ k, ∀ j ≤ k, i ≠ j → ∀ x, ¬(InRange (ranges i) x ∧ InRange (ranges j) x)) ∧
      (∀ i ≤ k, ∀ x, InRange (ranges i) x ↔ monthNumber x = monthNumber d + i) ∧
      InRange (ranges 0) d := by
  have : Nonempty Date := ⟨d⟩
  have hmonths : ∀ i : Nat, i ≤ k → ∃ start stop : Date,
      monthRange (addMonths d i).1 (addMonths d i).2 = some
      (String.ofList start.isoformat, String.ofList stop.isoformat) ∧
        start.day = 1 ∧ stop.day = 1 ∧ monthNumber start = monthNumber d + i ∧
        monthNumber stop = monthNumber d + i + 1 := by
    intro i hi
    exact monthRange_addMonths d (by omega)
  choose! start stop hrange hstart hstop hfirst hnext using hmonths
  have hcovers : ∀ i ≤ k, ∀ x, InRange (String.ofList (start i).isoformat, String.ofList (stop i).isoformat) x ↔
      monthNumber x = monthNumber d + i := by
    intro i hi x
    rw [inRange_iff, between_iff (hstart i hi) (hstop i hi) (by rw [hfirst i hi, hnext i hi]), hfirst i hi]
  refine ⟨fun i => (String.ofList (start i).isoformat, String.ofList (stop i).isoformat), hrange, ?_, ?_, hcovers, ?_⟩
  · intro i hi
    have hsame : stop i = start (i + 1) := by
      apply eq_of_monthNumber (hstop i (by omega)) (hstart (i + 1) (by omega))
      rw [hnext i (by omega), hfirst (i + 1) (by omega)]
      push_cast
      omega
    exact congrArg (fun e : Date => String.ofList e.isoformat) hsame
  · intro i hi j hj hij x hx
    have hxi := (hcovers i hi x).1 hx.1
    have hxj := (hcovers j hj x).1 hx.2
    omega
  · rw [hcovers 0 (by omega)]
    simp

/-! ### Bounds -/

def quote : Char := '\x27'

/-- A naive moment is taken as UTC. -/
def aware (parsed : Moment) : Datetime where
  wall := parsed.wall
  offset := parsed.offset.getD 0
  inRange := parsed.inRange

def partitionUpperBound (bounds : String) : Option Datetime := do
  let marker := "TO (".toList
  let start ← Text.find marker bounds.toList
  let inner := (Text.strip (String.ofList (bounds.toList.drop (start + marker.length)))).toList
  if inner.head? ≠ some quote then none
  -- the second quote, counted from behind the first
  let stop ← Text.find [quote] inner.tail
  (fromisoformat (inner.tail.take stop)).map aware

/-- One side of a range. -/
inductive RangeBound where
  | minvalue
  | maxvalue
  | negInfinity
  | infinity
  | moment (t : Timestamptz)

namespace RangeBound

def text : RangeBound → String
  | minvalue => "MINVALUE"
  | maxvalue => "MAXVALUE"
  | negInfinity => "'-infinity'"
  | infinity => "'infinity'"
  | moment t => String.ofList (quote :: t.text ++ [quote])

/-- Whether a moment is before the bound. -/
def After (t : Int) : RangeBound → Prop
  | minvalue | negInfinity => False
  | maxvalue | infinity => True
  | moment bound => t < bound.instant

instance (t : Int) (bound : RangeBound) : Decidable (bound.After t) := by
  cases bound <;> unfold After <;> infer_instance

/-- The bound, where a `datetime` can say it. -/
def instant? : RangeBound → Option Int
  | moment t => if 1 ≤ t.year ∧ t.year ≤ 9999 then some t.instant else none
  | _ => none

theorem instant?_midnight (d : Date) (offset : Int) (h : offset.natAbs < 86400) :
    (moment (.midnight d offset h)).instant? = some (Timestamptz.midnight d offset h).instant := if_pos d.year_range

theorem lt_of_after {t i : Int} {bound : RangeBound} (h : bound.After t) (hi : bound.instant? = some i) : t < i := by
  cases bound with
  | moment b =>
    rw [instant?] at hi
    split at hi
    · rw [← Option.some.inj hi]
      exact h
    · cases hi
  | _ => cases hi

end RangeBound

/-- `pg_get_expr` of the bounds of a range partition. -/
def rangeText (lower upper : RangeBound) : String :=
  "FOR VALUES FROM (" ++ lower.text ++ ") TO (" ++ upper.text ++ ")"

/-- No character of a bound is the one that the search begins with. -/
theorem RangeBound.not_mem_text (bound : RangeBound) : 'T' ∉ bound.text.toList := by
  cases bound with
  | moment t =>
    have htext : 'T' ∉ t.text := by
      intro h
      rcases t.mem_text h with h | h
      · exact absurd h (by decide)
      · exact absurd h (by decide)
    simp [text, quote, htext]
  | _ => simp [text]

theorem toList_rangeText (lower upper : RangeBound) : (rangeText lower upper).toList =
    "FOR VALUES FROM (".toList ++ (lower.text.toList ++ [')', ' ']) ++
      ("TO (".toList ++ (upper.text.toList ++ [')'])) := by
  have hmiddle : ") TO (".toList = [')', ' '] ++ "TO (".toList := rfl
  have hlast : ")".toList = [')'] := rfl
  unfold rangeText
  generalize lower.text = lower
  generalize upper.text = upper
  rw [String.toList_append, String.toList_append, String.toList_append, String.toList_append, hmiddle, hlast]
  simp only [List.append_assoc]

/-- What is read of the text behind the first marker. -/
theorem partitionUpperBound_marker {bounds : String} {front inner : List Char} {c d : Char} (hfront : 'T' ∉ front)
    (hc : Text.isSpace c = false) (hd : Text.isSpace d = false)
    (h : bounds.toList = front ++ ("TO (".toList ++ (c :: inner ++ [d]))) :
    partitionUpperBound bounds =
      if c = quote then (Text.find [quote] (inner ++ [d])).bind fun stop =>
        (fromisoformat ((inner ++ [d]).take stop)).map aware
      else none := by
  have hfind : Text.find "TO (".toList bounds.toList = some front.length := by
    rw [h]
    exact Text.find_append ['O', ' ', '('] _ hfront
  have hinner : bounds.toList.drop (front.length + "TO (".toList.length) = c :: inner ++ [d] := by
    rw [h, ← List.drop_drop, List.drop_left, List.drop_left]
  have hstrip : (Text.strip (String.ofList (c :: inner ++ [d]))).toList = c :: inner ++ [d] := by
    rw [Text.strip_eq_self String.toList_ofList hc hd, String.toList_ofList]
  simp only [partitionUpperBound, hfind, hinner, hstrip, Option.bind_eq_bind, Option.bind_some]
  by_cases hquote : c = quote
  · rw [if_pos hquote]
    simp [hquote]
  · rw [if_neg hquote]
    simp [hquote]

/-- A quoted bound is cut at its second quote. -/
theorem partitionUpperBound_quoted {bounds : String} {front body : List Char} (hfront : 'T' ∉ front)
    (hbody : quote ∉ body)
    (h : bounds.toList = front ++ ("TO (".toList ++ (quote :: body ++ [quote] ++ [')']))) :
    partitionUpperBound bounds = (fromisoformat body).map aware := by
  have hend := Text.find_append [] [')'] hbody
  have htake : (body ++ ([quote] ++ [')'])).take body.length = body := List.take_left
  rw [@partitionUpperBound_marker _ _ (body ++ [quote]) _ _ hfront (by decide) (by decide) h, if_pos rfl,
    List.append_assoc, hend, Option.bind_some, htake]

/-- The bound itself is read, where a `datetime` can say it, and otherwise nothing. -/
theorem partitionUpperBound_rangeText (lower upper : RangeBound) :
    (partitionUpperBound (rangeText lower upper)).map Datetime.instant = upper.instant? := by
  have hfront : 'T' ∉ "FOR VALUES FROM (".toList ++ (lower.text.toList ++ [')', ' ']) := by
    have hlower := lower.not_mem_text
    simp [hlower]
  have htext := toList_rangeText lower upper
  cases upper with
  | minvalue =>
    have hunquoted := @partitionUpperBound_marker _ _ "INVALUE".toList 'M' ')' hfront (by decide) (by decide) htext
    rw [hunquoted, if_neg (by decide)]
    rfl
  | maxvalue =>
    have hunquoted := @partitionUpperBound_marker _ _ "AXVALUE".toList 'M' ')' hfront (by decide) (by decide) htext
    rw [hunquoted, if_neg (by decide)]
    rfl
  | negInfinity =>
    rw [@partitionUpperBound_quoted _ _ "-infinity".toList hfront (by decide) htext]
    rfl
  | infinity =>
    rw [@partitionUpperBound_quoted _ _ "infinity".toList hfront (by decide) htext]
    rfl
  | moment t =>
    have hbody : quote ∉ t.text := by
      intro h
      rcases t.mem_text h with h | h
      · exact absurd h (by decide)
      · exact absurd h (by decide)
    have hquoted : (RangeBound.moment t).text.toList = quote :: t.text ++ [quote] := by
      rw [RangeBound.text, String.toList_ofList]
    rw [hquoted] at htext
    rw [partitionUpperBound_quoted hfront hbody htext]
    have hinstant : Datetime.instant ∘ aware = (fun p : Int × Option Int => p.1 - p.2.getD 0) ∘ fun m =>
      (m.wall, m.offset) := rfl
    rw [Option.map_map, hinstant, ← Option.map_map, t.fromisoformat_text, RangeBound.instant?]
    split
    · rfl
    · rfl

end Ticketing
