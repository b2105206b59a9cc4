import Mathlib.Algebra.Group.Nat.Defs
import Mathlib.Tactic.Common

/-!
# Decimal texts

Decimal numbers as texts, on top of `Nat.toDigits` and `Nat.ofDigitChars`: numbers with leading zeros, and the
reading of a given number of digits, which gives such a number back (`read_pad`).
-/

namespace Digits

theorem toDigits_injective : Function.Injective (Nat.toDigits 10) := by
  intro m n h
  have hvalue := congrArg (fun digits => Nat.ofDigitChars 10 digits 0) h
  simpa using hvalue

theorem toString_injective : Function.Injective (toString : Nat → String) := by
  intro m n h
  have hdigits := congrArg String.toList h
  simp only [Nat.toString_eq_repr, Nat.toList_repr] at hdigits
  exact toDigits_injective hdigits

/-- The digits of a power of ten. -/
theorem toDigits_pow (k : Nat) : Nat.toDigits 10 (10 ^ k) = '1' :: List.replicate k '0' := by
  induction k with
  | zero => rfl
  | succ k ih =>
    have hpos : 0 < 10 ^ k := Nat.pow_pos (by omega)
    have hstep := Nat.toDigits_append_toDigits (d := 0) (by omega) hpos (by omega : 0 < 10)
    rw [Nat.pow_succ, Nat.mul_comm, ← Nat.add_zero (10 * 10 ^ k), ← hstep, ih, List.replicate_succ', List.cons_append]
    rfl

/-- The number with leading zeros, `width` digits at least. -/
def pad (width n : Nat) : List Char := List.replicate (width - (Nat.toDigits 10 n).length) '0' ++ Nat.toDigits 10 n

/-- The first `width` characters as a number, all of which must be digits, and the rest. -/
def read (width : Nat) (cs : List Char) : Option (Nat × List Char) :=
  if width ≤ cs.length ∧ (cs.take width).all Char.isDigit then some
    (Nat.ofDigitChars 10 (cs.take width) 0, cs.drop width) else none

theorem isDigit_of_mem_pad {width n : Nat} {c : Char} (h : c ∈ pad width n) : c.isDigit = true := by
  rw [pad, List.mem_append, List.mem_replicate] at h
  rcases h with ⟨-, rfl⟩ | h
  · rfl
  · exact Nat.isDigit_of_mem_toDigits (by omega) (by omega) h

theorem length_pad {width n : Nat} (hpos : 0 < width) (h : n < 10 ^ width) : (pad width n).length = width := by
  have hle : (Nat.toDigits 10 n).length ≤ width := (Nat.length_toDigits_le_iff (by omega) hpos).2 h
  rw [pad, List.length_append, List.length_replicate]
  omega

/-- A number that is long enough stays as it is. -/
theorem pad_of_le {width n : Nat} (h : width ≤ (Nat.toDigits 10 n).length) : pad width n = Nat.toDigits 10 n := by
  rw [pad, Nat.sub_eq_zero_of_le h, List.replicate_zero, List.nil_append]

theorem ofDigitChars_pad (width n : Nat) : Nat.ofDigitChars 10 (pad width n) 0 = n := by
  rw [pad, Nat.ofDigitChars_append, Nat.ofDigitChars_replicate_zero, Nat.mul_zero, Nat.ofDigitChars_ten_toDigits]

theorem pad_injective (width : Nat) : Function.Injective (pad width) := by
  intro m n h
  rw [← ofDigitChars_pad width m, h, ofDigitChars_pad]

theorem read_append {digits : List Char} (h : ∀ c ∈ digits, c.isDigit = true) (rest : List Char) :
    read digits.length (digits ++ rest) = some (Nat.ofDigitChars 10 digits 0, rest) := by
  have hlong : digits.length ≤ (digits ++ rest).length := by
    rw [List.length_append]
    omega
  rw [read, List.take_left, List.drop_left, if_pos ⟨hlong, List.all_eq_true.2 h⟩]

theorem read_pad {width n : Nat} (hpos : 0 < width) (h : n < 10 ^ width) (rest : List Char) :
    read width (pad width n ++ rest) = some (n, rest) := by
  have hread := read_append (fun c (hc : c ∈ pad width n) => isDigit_of_mem_pad hc) rest
  rwa [length_pad hpos h, ofDigitChars_pad] at hread

/-- A padded number begins with a digit. -/
theorem head?_pad_append (width n : Nat) {c : Char} (hc : c.isDigit = false) (rest : List Char) :
    (pad width n ++ rest).head? ≠ some c := by
  intro hhead
  obtain ⟨d, text, htext⟩ : ∃ d text, pad width n = d :: text := by
    apply List.exists_cons_of_ne_nil
    intro hnil
    have hempty := (List.append_eq_nil_iff.1 hnil).2
    exact Nat.toDigits_ne_nil hempty
  have hdigit : d.isDigit = true := @isDigit_of_mem_pad width n d (by simp [htext])
  rw [htext, List.cons_append, List.head?_cons, Option.some.injEq] at hhead
  rw [hhead, hc] at hdigit
  cases hdigit

end Digits
