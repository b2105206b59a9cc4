import Mathlib.Data.List.DropRight

/-!
# Python texts

`strip`, `split`, `rsplit`, `join` and `find` of Python strings.  Blanks are the characters for which
`str.isspace` holds.  A text joined from parts without the separator splits into these parts, and whatever
stands before a separator only adds parts at the front.
-/

namespace Text

/-- `c.isspace()` -/
def isSpace (c : Char) : Bool :=
  let n := c.toNat
  (9 ≤ n && n ≤ 13) || (28 ≤ n && n ≤ 32) || n == 0x85 || n == 0xa0 || n == 0x1680 || (0x2000 ≤ n && n ≤ 0x200a) ||
    n == 0x2028 || n == 0x2029 || n == 0x202f || n == 0x205f || n == 0x3000

/-- `s.strip()` -/
def strip (s : String) : String := String.ofList ((s.toList.dropWhile isSpace).rdropWhile isSpace)

/-- `s.split(sep)` -/
def split (sep : Char) (s : String) : List String := (s.toList.splitOn sep).map String.ofList

/-- `sep.join(parts)` -/
def join (sep : Char) (parts : List String) : String := (String.singleton sep).intercalate parts

/-- `s.rsplit(sep, 1)` when the separator occurs. -/
def rsplit (sep : Char) (s : String) : Option (String × String) :=
  if sep ∈ s.toList then
    some (String.ofList (s.toList.rdropWhile (· != sep)).dropLast, String.ofList (s.toList.rtakeWhile (· != sep)))
  else none

variable {sep : Char}

theorem split_append (s t : String) : split sep (s ++ String.singleton sep ++ t) = split sep s ++ split sep t := by
  have htext : (s ++ String.singleton sep ++ t).toList = s.toList ++ sep :: t.toList := by simp
  rw [split, htext, List.splitOn_append_cons_self, List.map_append]
  rfl

theorem split_join {parts : List String} (hne : parts ≠ []) (h : ∀ p ∈ parts, sep ∉ p.toList) :
    split sep (join sep parts) = parts := by
  have htext : (join sep parts).toList = [sep].intercalate (parts.map String.toList) := by simp [join]
  rw [split, htext, List.splitOn_intercalate]
  · simp [Function.comp_def]
  · simpa using h
  · simpa using hne

theorem join_cons {p : String} {parts : List String} (hne : parts ≠ []) :
    join sep (p :: parts) = p ++ String.singleton sep ++ join sep parts :=
  String.intercalate_cons_of_ne_nil hne

/-- Only the last separator counts. -/
theorem rsplit_append (s : String) {t : String} (h : sep ∉ t.toList) :
    rsplit sep (s ++ String.singleton sep ++ t) = some (s, t) := by
  have htext : (s ++ String.singleton sep ++ t).toList = (s.toList ++ [sep]) ++ t.toList := by simp
  have hkeep : ∀ l : List Char, (∀ c ∈ l, c ≠ sep) → ((s.toList ++ [sep]) ++ l).rdropWhile
    (· != sep) = s.toList ++ [sep] ∧
      ((s.toList ++ [sep]) ++ l).rtakeWhile (· != sep) = l := by
    intro l hl
    induction l using List.reverseRecOn with
    | nil => simp
    | append_singleton l c ih =>
      have hc : (c != sep) = true := by simpa using hl c (by simp)
      obtain ⟨hdrop, htake⟩ := ih fun d hd => hl d (List.mem_append_left _ hd)
      rw [← List.append_assoc, List.rdropWhile_concat, List.rtakeWhile_concat, if_pos hc, if_pos hc, hdrop, htake]
      exact ⟨rfl, rfl⟩
  obtain ⟨hdrop, htake⟩ := hkeep t.toList fun c hc heq => h (heq ▸ hc)
  have hmem : sep ∈ s.toList ++ [sep] ++ t.toList := by simp
  rw [rsplit, htext, if_pos hmem, hdrop, htake, List.dropLast_concat, String.ofList_toList, String.ofList_toList]

/-- `s.find(sub)`: where `sub` first occurs; `none` is `-1`. -/
def find (sub : List Char) : List Char → Option Nat
  | [] => if sub = [] then some 0 else none
  | c :: s => if sub <+: c :: s then some 0 else (find sub s).map (· + 1)

/-- A text is found behind characters it does not begin with. -/
theorem find_append {c : Char} {front : List Char} (sub rest : List Char) (h : c ∉ front) :
    find (c :: sub) (front ++ (c :: sub ++ rest)) = some front.length := by
  induction front with
  | nil =>
    have hprefix : c :: sub <+: c :: (sub ++ rest) := ⟨rest, rfl⟩
    simp [find, hprefix]
  | cons d front ih =>
    rw [List.mem_cons, not_or] at h
    have hprefix : ¬c :: sub <+: d :: (front ++ (c :: sub ++ rest)) := by
      intro hprefix
      exact h.1 (List.cons_prefix_cons.1 hprefix).1
    rw [List.cons_append, find, if_neg hprefix, ih h.2]
    rfl

/-- Only blanks are stripped. -/
theorem strip_eq_self {s : String} {c d : Char} {cs : List Char} (h : s.toList = c :: cs ++ [d])
    (hc : isSpace c = false) (hd : isSpace d = false) :
    strip s = s := by
  rw [strip, h, List.cons_append, List.dropWhile_cons_of_neg (by simp [hc]), ← List.cons_append,
    List.rdropWhile_concat_neg _ _ _ (by simp [hd]), ← h, String.ofList_toList]

end Text
