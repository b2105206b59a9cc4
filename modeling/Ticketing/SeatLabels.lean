import Mathlib.Algebra.GroupWithZero.Nat
import Mathlib.Data.List.SplitLengths
import Mathlib.Data.List.Nodup
import Ticketing.Base.Digits

/-!
# Seat labels

The labellers of `app/scripts/seed_venue.py`.  A labeller is given the sizes of the blocks of a row and
returns the labels of each block.  Every one of them cuts one sequence of labels into pieces of these sizes,
and a label is the decimal text of a number, so that all comes down to the numbers: consecutive ones, odd ones
down to the middle of the row and even ones up from there, or those that are not skipped.

The loop of `skipping_labels` that passes over the skipped numbers need not end for every `skip`, so it is
given a bound for its turns (`skipOver`).  For `is_superstitious` it does end: a power of ten is not
superstitious, and there is one behind every number.
-/

namespace Ticketing

/-- Any number with a 4 in it, and 13. -/
def isSuperstitious (number : Nat) : Bool := (toString number).toList.contains '4' || number == 13

/-- The labels of the blocks when the counter stands at `next`. -/
def countLabels (next : Nat) : List Nat → List (List String)
  | [] => []
  | size :: blocks => (List.range' next size).map toString :: countLabels (next + size) blocks

def sequentialLabels (blocks : List Nat) : List (List String) := countLabels 1 blocks

/-- `while skip(number): number += 1`, with fewer than `fuel` turns. -/
def skipOver (skip : Nat → Bool) : Nat → Nat → Option Nat
  | 0, _ => none
  | fuel + 1, number => if skip number then skipOver skip fuel (number + 1) else some number

/-- The labels of a block that still lacks `left` of them, and the number after the last one. -/
def blockLabels (skip : Nat → Bool) (fuel : Nat) : Nat → Nat → Option (List String × Nat)
  | 0, number => some ([], number)
  | left + 1, number => do
    let number ← skipOver skip fuel number
    let (labels, next) ← blockLabels skip fuel left (number + 1)
    return (toString number :: labels, next)

/-- The labels of the blocks when the next number to look at is `number`. -/
def rowLabels (skip : Nat → Bool) (fuel : Nat) : List Nat → Nat → Option (List (List String))
  | [], _ => some []
  | size :: blocks, number => do
    let (labels, number) ← blockLabels skip fuel size number
    let out ← rowLabels skip fuel blocks number
    return labels :: out

def skippingLabels (skip : Nat → Bool) (fuel : Nat) (blocks : List Nat) : Option (List (List String)) :=
  rowLabels skip fuel blocks 1

/-- The slices of the blocks, the first of which begins at `start`. -/
def slices (numbers : List String) (start : Nat) : List Nat → List (List String)
  | [] => []
  | size :: blocks => (numbers.drop start).take size :: slices numbers (start + size) blocks

/-- The number of the seat at `pos` of a row whose middle is at `mid`. -/
def oddEvenNumber (mid pos : Nat) : Nat := if pos < mid then 2 * (mid - pos) - 1 else 2 * (pos - mid) + 2

def oddEvenLabels (blocks : List Nat) : List (List String) :=
  slices ((List.range blocks.sum).map fun pos => toString (oddEvenNumber (blocks.sum / 2) pos)) 0 blocks

/-! ### Labels and numbers -/

/-- What a labeller owes to the sizes of the blocks. -/
structure Labels (blocks : List Nat) (numbers : List Nat) (groups : List (List String)) : Prop where
  sizes : groups.map List.length = blocks
  labels : groups.flatten = numbers.map toString

theorem Labels.length_eq {blocks numbers : List Nat} {groups : List (List String)}
    (h : Labels blocks numbers groups) :
    numbers.length = blocks.sum := by
  have hlength := congrArg List.length h.labels
  rw [List.length_flatten, h.sizes, List.length_map] at hlength
  exact hlength.symm

theorem Labels.nodup {blocks numbers : List Nat} {groups : List (List String)}
    (h : Labels blocks numbers groups) (hnumbers : numbers.Nodup) :
    groups.flatten.Nodup := by
  rw [h.labels]
  exact hnumbers.map Digits.toString_injective

theorem countLabels_labels (next : Nat) (blocks : List Nat) : Labels blocks (List.range' next blocks.sum)
    (countLabels next blocks) := by
  induction blocks generalizing next with
  | nil => exact ⟨rfl, rfl⟩
  | cons size blocks ih =>
    have hrest := ih (next + size)
    constructor
    · simp [countLabels, hrest.sizes]
    · rw [countLabels, List.flatten_cons, hrest.labels, ← List.map_append, List.sum_cons]
      congr 1
      exact List.range'_append_1

theorem slices_eq_splitLengths (numbers : List String) (start : Nat) (blocks : List Nat) :
    slices numbers start blocks = blocks.splitLengths (numbers.drop start) := by
  induction blocks generalizing start with
  | nil => rfl
  | cons size blocks ih => rw [slices, ih, List.splitLengths_cons, List.drop_drop]

/-- Odd numbers down to 1 and even numbers from 2 on. -/
def oddEvenNumbers (mid total : Nat) : List Nat :=
  ((List.range mid).map fun i => 2 * i + 1).reverse ++ (List.range (total - mid)).map fun i => 2 * i + 2

theorem map_oddEvenNumber {mid total : Nat} (h : mid ≤ total) : (List.range total).map
    (oddEvenNumber mid) = oddEvenNumbers mid total := by
  have hleft : (List.range mid).map (oddEvenNumber mid) = ((List.range mid).map fun i => 2 * i + 1).reverse := by
    apply List.ext_getElem
    · simp
    · intro pos h₁ h₂
      simp only [List.length_map, List.length_range] at h₁
      simp only [List.getElem_map, List.getElem_range, List.getElem_reverse, List.length_map,
        List.length_range, oddEvenNumber, if_pos h₁]
      omega
  have hright : ((List.range (total - mid)).map (mid + ·)).map (oddEvenNumber mid) =
      (List.range (total - mid)).map fun i => 2 * i + 2 := by
    rw [List.map_map]
    apply List.map_congr_left
    intro i _
    simp [oddEvenNumber]
  obtain ⟨rest, rfl⟩ := Nat.exists_eq_add_of_le h
  rw [Nat.add_sub_cancel_left] at hright
  rw [oddEvenNumbers, Nat.add_sub_cancel_left, List.range_add, List.map_append, hleft, hright]

theorem oddEvenNumbers_nodup (mid total : Nat) : (oddEvenNumbers mid total).Nodup := by
  unfold oddEvenNumbers
  rw [List.nodup_append]
  refine ⟨?_, ?_, ?_⟩
  · rw [List.nodup_reverse]
    apply List.nodup_range.map
    intro i j hij
    simp only at hij
    omega
  · apply List.nodup_range.map
    intro i j hij
    simp only at hij
    omega
  · intro a ha b hb
    simp only [List.mem_reverse, List.mem_map, List.mem_range] at ha hb
    obtain ⟨i, -, rfl⟩ := ha
    obtain ⟨j, -, rfl⟩ := hb
    omega

theorem oddEvenLabels_labels (blocks : List Nat) : Labels blocks (oddEvenNumbers (blocks.sum / 2) blocks.sum)
    (oddEvenLabels blocks) := by
  have hlength : ((List.range blocks.sum).map fun pos => toString
    (oddEvenNumber (blocks.sum / 2) pos)).length = blocks.sum := by simp
  rw [oddEvenLabels, slices_eq_splitLengths, List.drop_zero]
  constructor
  · exact List.map_splitLengths_length _ _ (by omega)
  · rw [List.flatten_splitLengths _ _ (by omega), ← map_oddEvenNumber (Nat.div_le_self ..), List.map_map]
    rfl

/-! ### Skipped numbers -/

section Skipping

variable {skip : Nat → Bool} {fuel fuel' number : Nat}

theorem skipOver_mono {m : Nat} (h : skipOver skip fuel number = some m) (hle : fuel ≤ fuel') :
    skipOver skip fuel' number = some m := by
  induction fuel generalizing number fuel' with
  | zero => cases h
  | succ fuel ih =>
    obtain ⟨fuel', rfl⟩ : ∃ k, fuel' = k + 1 := ⟨fuel' - 1, by omega⟩
    rw [skipOver] at h ⊢
    split
    · rename_i hskip
      rw [if_pos hskip] at h
      exact ih h (by omega)
    · rename_i hskip
      rwa [if_neg hskip] at h

theorem skipOver_spec {m : Nat} (h : skipOver skip fuel number = some m) :
    number ≤ m ∧ skip m = false ∧ ∀ k, number ≤ k → k < m → skip k = true := by
  induction fuel generalizing number with
  | zero => cases h
  | succ fuel ih =>
    rw [skipOver] at h
    split at h
    · rename_i hskip
      obtain ⟨hle, hm, hbetween⟩ := ih h
      refine ⟨by omega, hm, ?_⟩
      intro k hk hkm
      by_cases heq : k = number
      · rw [heq]
        exact hskip
      · exact hbetween k (by omega) hkm
    · rename_i hskip
      obtain rfl := Option.some.inj h
      refine ⟨le_refl _, by simpa using hskip, ?_⟩
      intro k hk hkm
      omega

theorem exists_skipOver {m : Nat} (hle : number ≤ m) (hm : skip m = false) : ∃ fuel next,
    skipOver skip fuel number = some next := by
  -- the induction is on the numbers left before `m`
  induction hd : m - number generalizing number with
  | zero =>
    obtain rfl : number = m := by omega
    exact ⟨1, number, by simp [skipOver, hm]⟩
  | succ d ih =>
    obtain ⟨fuel, next, hnext⟩ := @ih (number + 1) (by omega) (by omega)
    by_cases hskip : skip number = true
    · exact ⟨fuel + 1, next, by rw [skipOver, if_pos hskip, hnext]⟩
    · exact ⟨1, number, by simp [skipOver, hskip]⟩

/-- The numbers before `stop` that get a label. -/
def unskipped (skip : Nat → Bool) (stop : Nat) : List Nat := (List.range stop).filter fun n => 0 < n && !skip n

theorem unskipped_nodup (skip : Nat → Bool) (stop : Nat) : (unskipped skip stop).Nodup := List.nodup_range.filter _

/-- The loop passes over the skipped numbers only. -/
theorem unskipped_skipOver {m : Nat} (hpos : 0 < number) (h : skipOver skip fuel number = some m) :
    unskipped skip (m + 1) = unskipped skip number ++ [m] := by
  obtain ⟨hle, hm, hbetween⟩ := skipOver_spec h
  have hsame : unskipped skip m = unskipped skip number := by
    obtain ⟨d, rfl⟩ := Nat.exists_eq_add_of_le hle
    rw [unskipped, List.range_add, List.filter_append]
    have hnone : ((List.range d).map (number + ·)).filter (fun n => 0 < n && !skip n) = [] := by
      rw [List.filter_eq_nil_iff]
      intro k hk
      simp only [List.mem_map, List.mem_range] at hk
      obtain ⟨i, hi, rfl⟩ := hk
      have hskip := hbetween (number + i) (by omega) (by omega)
      simp [hskip]
    rw [hnone, List.append_nil]
    rfl
  have hkept : [m].filter (fun n => 0 < n && !skip n) = [m] := by
    have hm' : 0 < m := by omega
    simp [hm, hm']
  rw [← hsame, unskipped, List.range_succ, List.filter_append, hkept]
  rfl

theorem blockLabels_mono {left : Nat} {out : List String × Nat}
    (h : blockLabels skip fuel left number = some out) (hle : fuel ≤ fuel') :
    blockLabels skip fuel' left number = some out := by
  induction left generalizing number out with
  | zero => exact h
  | succ left ih =>
    simp only [blockLabels, Option.bind_eq_bind, Option.bind_eq_some_iff] at h ⊢
    obtain ⟨m, hm, rest, hrest, hout⟩ := h
    exact ⟨m, skipOver_mono hm hle, rest, ih hrest, hout⟩

/-- The labels of a block continue the numbers before it. -/
theorem blockLabels_spec {left next : Nat} {labels : List String} (hpos : 0 < number)
    (h : blockLabels skip fuel left number = some (labels, next)) :
    labels.length = left ∧ number ≤ next ∧
      ∃ numbers : List Nat, labels = numbers.map toString ∧
        unskipped skip next = unskipped skip number ++ numbers := by
  induction left generalizing number labels next with
  | zero =>
    obtain ⟨rfl, rfl⟩ := Prod.mk.inj (Option.some.inj h)
    exact ⟨rfl, le_refl _, [], rfl, by simp⟩
  | succ left ih =>
    simp only [blockLabels, Option.bind_eq_bind, Option.bind_eq_some_iff] at h
    obtain ⟨m, hm, ⟨labels', next'⟩, hrest, hout⟩ := h
    obtain ⟨rfl, rfl⟩ := Prod.mk.inj (Option.some.inj hout)
    have hle := (skipOver_spec hm).1
    obtain ⟨hlength, hnext, numbers, rfl, hnumbers⟩ := ih (Nat.succ_pos m) hrest
    refine ⟨by simpa using hlength, by omega, m :: numbers, by simp, ?_⟩
    rw [hnumbers, unskipped_skipOver hpos hm, List.append_assoc, List.singleton_append]

theorem exists_blockLabels (hskip : ∀ n, ∃ m, n ≤ m ∧ skip m = false) (left number : Nat) :
    ∃ fuel out, blockLabels skip fuel left number = some out := by
  induction left generalizing number with
  | zero => exact ⟨0, _, rfl⟩
  | succ left ih =>
    obtain ⟨m, hle, hm⟩ := hskip number
    obtain ⟨fuel₁, next, hnext⟩ := exists_skipOver hle hm
    obtain ⟨fuel₂, out, hout⟩ := ih (next + 1)
    refine ⟨max fuel₁ fuel₂, (toString next :: out.1, out.2), ?_⟩
    rw [blockLabels, skipOver_mono hnext (le_max_left ..), Option.bind_eq_bind, Option.bind_some,
      blockLabels_mono hout (le_max_right ..)]
    rfl

theorem rowLabels_mono {blocks : List Nat} {out : List (List String)}
    (h : rowLabels skip fuel blocks number = some out) (hle : fuel ≤ fuel') :
    rowLabels skip fuel' blocks number = some out := by
  induction blocks generalizing number out with
  | nil => exact h
  | cons size blocks ih =>
    simp only [rowLabels, Option.bind_eq_bind, Option.bind_eq_some_iff] at h ⊢
    obtain ⟨block, hblock, rest, hrest, hout⟩ := h
    exact ⟨block, blockLabels_mono hblock hle, rest, ih hrest, hout⟩

theorem rowLabels_spec {blocks : List Nat} {groups : List (List String)} (hpos : 0 < number)
    (h : rowLabels skip fuel blocks number = some groups) :
    ∃ stop numbers, Labels blocks numbers groups ∧ unskipped skip stop = unskipped skip number ++ numbers := by
  induction blocks generalizing number groups with
  | nil =>
    obtain rfl := Option.some.inj h
    exact ⟨number, [], ⟨rfl, rfl⟩, by simp⟩
  | cons size blocks ih =>
    simp only [rowLabels, Option.bind_eq_bind, Option.bind_eq_some_iff] at h
    obtain ⟨⟨labels, next⟩, hblock, rest, hrest, hout⟩ := h
    obtain rfl := Option.some.inj hout
    obtain ⟨hlength, hle, numbers, rfl, hnumbers⟩ := blockLabels_spec hpos hblock
    obtain ⟨stop, numbers', hlabels, hstop⟩ := ih (by omega) hrest
    refine ⟨stop, numbers ++ numbers', ⟨?_, ?_⟩, ?_⟩
    · rw [List.map_cons, hlength, hlabels.sizes]
    · rw [List.flatten_cons, hlabels.labels, List.map_append]
    · rw [hstop, hnumbers, List.append_assoc]

theorem exists_rowLabels (hskip : ∀ n, ∃ m, n ≤ m ∧ skip m = false) (blocks : List Nat) (number : Nat) :
    ∃ fuel out, rowLabels skip fuel blocks number = some out := by
  induction blocks generalizing number with
  | nil => exact ⟨0, [], rfl⟩
  | cons size blocks ih =>
    obtain ⟨fuel₁, ⟨labels, next⟩, hblock⟩ := exists_blockLabels hskip size number
    obtain ⟨fuel₂, rest, hrest⟩ := ih next
    refine ⟨max fuel₁ fuel₂, labels :: rest, ?_⟩
    simp only [rowLabels, blockLabels_mono hblock (le_max_left ..), Option.bind_eq_bind, Option.bind_some]
    rw [rowLabels_mono hrest (le_max_right ..)]
    rfl

end Skipping

theorem isSuperstitious_pow (k : Nat) : isSuperstitious (10 ^ k) = false := by
  have hdigits : '4' ∉ (toString (10 ^ k)).toList := by
    rw [Nat.toString_eq_repr, Nat.toList_repr, Digits.toDigits_pow, List.mem_cons, List.mem_replicate]
    simp
  have hne : 10 ^ k ≠ 13 := by
    cases k with
    | zero => simp
    | succ k =>
      rw [Nat.pow_succ]
      omega
  rw [isSuperstitious, Bool.or_eq_false_iff]
  constructor
  · simpa using hdigits
  · simpa using hne

/-- The numbers that are not superstitious have no end. -/
theorem exists_not_isSuperstitious (n : Nat) : ∃ m, n ≤ m ∧ isSuperstitious m = false :=
  ⟨10 ^ n, Nat.le_of_lt (Nat.lt_pow_self (by omega)), isSuperstitious_pow n⟩

/-- For every row the three labellers return as many labels for each block as it has seats, and no label
twice.  The labels are, from the left: 1, 2, 3 and so on; odd numbers down to 1 in the left half and even
numbers from 2 on in the right half; and the first positive numbers that are not superstitious, in their
order, whatever the bound for the turns of the inner loop once it is large enough. -/
theorem seat_labels (blocks : List Nat) :
    ((sequentialLabels blocks).map List.length = blocks ∧ (sequentialLabels blocks).flatten.Nodup ∧
      (sequentialLabels blocks).flatten = (List.range' 1 blocks.sum).map toString) ∧
    ((oddEvenLabels blocks).map List.length = blocks ∧ (oddEvenLabels blocks).flatten.Nodup ∧
      (oddEvenLabels blocks).flatten = (oddEvenNumbers (blocks.sum / 2) blocks.sum).map toString) ∧
    ∃ groups bound stop, (∀ fuel, bound ≤ fuel → skippingLabels isSuperstitious fuel blocks = some groups) ∧
      groups.map List.length = blocks ∧ groups.flatten.Nodup ∧
      groups.flatten = (unskipped isSuperstitious stop).map toString ∧
      (unskipped isSuperstitious stop).length = blocks.sum := by
  have hsequential := countLabels_labels 1 blocks
  have hoddEven := oddEvenLabels_labels blocks
  refine ⟨⟨hsequential.sizes, hsequential.nodup List.nodup_range', hsequential.labels⟩,
    ⟨hoddEven.sizes, hoddEven.nodup (oddEvenNumbers_nodup ..), hoddEven.labels⟩, ?_⟩
  obtain ⟨bound, groups, hgroups⟩ := exists_rowLabels exists_not_isSuperstitious blocks 1
  obtain ⟨stop, numbers, hlabels, hstop⟩ := rowLabels_spec (by omega) hgroups
  have hnumbers : numbers = unskipped isSuperstitious stop := by
    rw [hstop]
    simp [unskipped]
  rw [hnumbers] at hlabels
  refine ⟨groups, bound, stop, ?_, hlabels.sizes, hlabels.nodup (unskipped_nodup ..), hlabels.labels, ?_⟩
  · intro fuel hfuel
    exact rowLabels_mono hgroups hfuel
  · exact hlabels.length_eq

example : oddEvenLabels [4, 4] = [["7", "5", "3", "1"], ["2", "4", "6", "8"]] := by decide +kernel

example : skippingLabels isSuperstitious 2 [6] = some [["1", "2", "3", "5", "6", "7"]] := by decide +kernel

end Ticketing
