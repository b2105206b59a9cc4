import Mathlib.Algebra.BigOperators.Group.List.Basic
import Mathlib.Algebra.Order.BigOperators.Group.List
import Mathlib.Algebra.Order.Group.Int
import Mathlib.Algebra.Ring.Int.Defs
import Mathlib.Algebra.Ring.Nat
import Mathlib.Data.List.Nodup

/-!
# Conditional totals of a list

The sum of an integer amount over the rows of a list that satisfy a condition, and how it moves when rows are added,
rewritten, or when one row stops satisfying the condition.  Rows are told apart by a key that does not repeat.
-/

namespace Tally

variable {α β κ : Type*}

/-- The sum of `q` over the rows of `l` that satisfy `p`. -/
def tally (p : α → Bool) (q : α → Int) (l : List α) : Int := ((l.filter p).map q).sum

@[simp] theorem tally_nil (p : α → Bool) (q : α → Int) : tally p q [] = 0 := rfl

theorem tally_cons (p : α → Bool) (q : α → Int) (a : α) (l : List α) :
    tally p q (a :: l) = (if p a then q a else 0) + tally p q l := by
  unfold tally
  by_cases h : p a <;> simp [h]

theorem tally_append (p : α → Bool) (q : α → Int) (l l' : List α) :
    tally p q (l ++ l') = tally p q l + tally p q l' := by
  simp [tally]

theorem tally_concat (p : α → Bool) (q : α → Int) (l : List α) (a : α) :
    tally p q (l ++ [a]) = tally p q l + if p a then q a else 0 := by
  rw [tally_append, tally_cons, tally_nil, Int.add_zero]

theorem tally_congr {p p' : α → Bool} {q : α → Int} {l : List α} (h : ∀ a ∈ l, p a = p' a) :
    tally p q l = tally p' q l := by
  unfold tally
  rw [List.filter_congr h]

/-- Rewriting the rows without changing what is counted. -/
theorem tally_map {p : α → Bool} {p' : β → Bool} {q : α → Int} {q' : β → Int} {l : List α} {f : α → β}
    (hp : ∀ a ∈ l, p' (f a) = p a) (hq : ∀ a ∈ l, q' (f a) = q a) : tally p' q' (l.map f) = tally p q l := by
  induction l with
  | nil => rfl
  | cons a l ih =>
    rw [List.map_cons, tally_cons, tally_cons, hp a (List.mem_cons_self ..), hq a (List.mem_cons_self ..),
      ih (fun b hb => hp b (List.mem_cons_of_mem _ hb)) (fun b hb => hq b (List.mem_cons_of_mem _ hb))]

/-- One row stops being counted, if it was. -/
theorem tally_drop {p p' : α → Bool} {q : α → Int} {key : α → κ} {l : List α} (hl : (l.map key).Nodup) {a : α}
    (ha : a ∈ l) (hp' : p' a = false) (hother : ∀ b ∈ l, key b ≠ key a → p' b = p b) :
    tally p' q l = tally p q l - if p a then q a else 0 := by
  induction l with
  | nil => cases ha
  | cons b l ih =>
    rw [List.map_cons, List.nodup_cons] at hl
    rw [tally_cons, tally_cons]
    rcases List.mem_cons.1 ha with rfl | ha
    · have hrest : tally p' q l = tally p q l := by
        refine tally_congr fun c hc => hother c (List.mem_cons_of_mem _ hc) fun hk => ?_
        exact hl.1 (List.mem_map.2 ⟨c, hc, hk⟩)
      rw [hrest, hp', if_neg (by simp)]
      omega
    · have hne : key b ≠ key a := fun hk => hl.1 (List.mem_map.2 ⟨a, ha, hk.symm⟩)
      rw [hother b (List.mem_cons_self ..) hne,
        ih hl.2 ha fun c hc => hother c (List.mem_cons_of_mem _ hc)]
      omega

/-- Rows counted for one of two reasons that exclude each other. -/
theorem tally_or {p p₁ p₂ : α → Bool} {q : α → Int} {l : List α} (h : ∀ a ∈ l, p a = (p₁ a || p₂ a))
    (hex : ∀ a ∈ l, ¬ (p₁ a = true ∧ p₂ a = true)) : tally p q l = tally p₁ q l + tally p₂ q l := by
  induction l with
  | nil => rfl
  | cons a l ih =>
    have ha := h a (List.mem_cons_self ..)
    have hx := hex a (List.mem_cons_self ..)
    rw [tally_cons, tally_cons, tally_cons,
      ih (fun b hb => h b (List.mem_cons_of_mem _ hb)) fun b hb => hex b (List.mem_cons_of_mem _ hb), ha]
    cases h₁ : p₁ a <;> cases h₂ : p₂ a <;> simp_all <;> omega

theorem tally_nonneg {p : α → Bool} {q : α → Int} {l : List α} (h : ∀ a ∈ l, p a = true → 0 ≤ q a) :
    0 ≤ tally p q l := by
  refine List.sum_nonneg fun x hx => ?_
  obtain ⟨a, ha, rfl⟩ := List.mem_map.1 hx
  obtain ⟨hal, hpa⟩ := List.mem_filter.1 ha
  exact h a hal hpa

theorem tally_eq_zero {p : α → Bool} {q : α → Int} {l : List α} (h : ∀ a ∈ l, p a = false) : tally p q l = 0 := by
  unfold tally
  rw [List.filter_eq_nil_iff.2 fun a ha => by simp [h a ha]]
  rfl

/-- Counting fewer rows of non-negative amounts. -/
theorem tally_mono {p p' : α → Bool} {q : α → Int} {l : List α} (h : ∀ a ∈ l, p a = true → p' a = true)
    (hq : ∀ a ∈ l, 0 ≤ q a) : tally p q l ≤ tally p' q l := by
  induction l with
  | nil => exact le_refl _
  | cons a l ih =>
    have ha := h a (List.mem_cons_self ..)
    have hqa := hq a (List.mem_cons_self ..)
    have := ih (fun b hb => h b (List.mem_cons_of_mem _ hb)) fun b hb => hq b (List.mem_cons_of_mem _ hb)
    rw [tally_cons, tally_cons]
    by_cases h₁ : p a = true
    · rw [if_pos h₁, if_pos (ha h₁)]
      omega
    · rw [if_neg h₁]
      split <;> omega

/-- Rows of two lists that belong together: what is counted over the second list is counted over the rows of the first
that some counted row belongs to. -/
theorem tally_link {p : β → Bool} {p₁ : β → Bool} {p₂ : α → Bool} {q : β → Int} {q' : α → Int}
    {l : List α} {m : List β}
    {key : α → κ} {key' : β → κ} [DecidableEq κ] (hl : (l.map key).Nodup) (hm : (m.map key').Nodup)
    (hmatch : ∀ b ∈ m, ∃ a ∈ l, key a = key' b ∧ q' a = q b ∧ p₂ a = p₁ b) :
    tally (fun b => p₁ b && p b) q m = tally (fun a => p₂ a && m.any fun b => key' b = key a && p b) q' l := by
  induction m with
  | nil => rw [tally_nil, tally_eq_zero]; simp
  | cons b m ih =>
    rw [List.map_cons, List.nodup_cons] at hm
    obtain ⟨a, ha, hkey, hq, hp⟩ := hmatch b (List.mem_cons_self ..)
    have hrest := ih hm.2 fun c hc => hmatch c (List.mem_cons_of_mem _ hc)
    -- the row that `b` belongs to is counted because of `b` alone
    have hnone : (m.any fun c => decide (key' c = key a) && p c) = false := by
      rw [List.any_eq_false]
      intro c hc hcp
      simp only [Bool.and_eq_true, decide_eq_true_eq] at hcp
      exact hm.1 (List.mem_map.2 ⟨c, hc, hcp.1.trans hkey⟩)
    have hdrop : tally (fun a => p₂ a && m.any fun c => key' c = key a && p c) q' l =
        tally (fun a => p₂ a && (b :: m).any fun c => key' c = key a && p c) q' l -
          if (p₂ a && (b :: m).any fun c => key' c = key a && p c) = true then q' a else 0 := by
      refine tally_drop hl ha (by simp [hnone]) fun c _ hne => ?_
      have hb : ¬ key' b = key c := fun h => hne (h.symm.trans hkey.symm)
      simp [hb]
    have hone : (p₂ a && (b :: m).any fun c => key' c = key a && p c) = (p₁ b && p b) := by
      rw [List.any_cons, hnone, hp, decide_eq_true hkey.symm, Bool.true_and, Bool.or_false]
    rw [tally_cons, hrest, hdrop]
    simp only [hone, hq]
    omega

/-! ### Counting -/

/-- What is counted is counted by one of two other conditions. -/
theorem countP_le_add {p q r : α → Bool} {l : List α} (h : ∀ x ∈ l, p x = true → q x = true ∨ r x = true) :
    l.countP p ≤ l.countP q + l.countP r := by
  induction l with
  | nil => simp
  | cons x l ih =>
    have hl := ih fun y hy => h y (List.mem_cons_of_mem _ hy)
    have hx := h x (List.mem_cons_self ..)
    simp only [List.countP_cons]
    by_cases hp : p x = true
    · rcases hx hp with hq | hr
      · simp only [hp, hq, if_true]
        omega
      · simp only [hp, hr, if_true]
        omega
    · simp only [hp, Bool.false_eq_true, if_false]
      omega

/-- One row is rewritten. -/
theorem countP_set_add {p : α → Bool} {l : List α} {i : Nat} {x : α} (hi : l[i]? = some x) (y : α) :
    (l.set i y).countP p + (if p x then 1 else 0) = l.countP p + if p y then 1 else 0 := by
  induction l generalizing i with
  | nil => cases hi
  | cons z l ih =>
    cases i with
    | zero =>
      obtain rfl := Option.some.inj hi
      simp only [List.set_cons_zero, List.countP_cons]
      omega
    | succ i =>
      have hrest := ih hi
      simp only [List.set_cons_succ, List.countP_cons]
      omega

/-- Counting the pairs of a relation by rows of the one list or of the other. -/
theorem sum_countP_comm (r : α → β → Bool) (l : List α) (m : List β) :
    (l.map fun a => m.countP (r a)).sum = (m.map fun b => l.countP fun a => r a b).sum := by
  induction l with
  | nil => simp
  | cons a l ih =>
    have hcons : (m.map fun b => (a :: l).countP fun a => r a b).sum =
        (m.map fun b => l.countP fun a => r a b).sum + m.countP (r a) := by
      clear ih
      induction m with
      | nil => rfl
      | cons b m ihm =>
        rw [List.map_cons, List.sum_cons, ihm, List.map_cons, List.sum_cons, List.countP_cons, List.countP_cons]
        omega
    rw [List.map_cons, List.sum_cons, ih, hcons]
    omega

/-- Rows that all weigh at least `k` among those counted. -/
theorem countP_mul_le_sum {p : α → Bool} {f : α → Nat} {k : Nat} {l : List α} (h : ∀ a ∈ l, p a = true → k ≤ f a) :
    l.countP p * k ≤ (l.map f).sum := by
  induction l with
  | nil => simp
  | cons a l ih =>
    have hl := ih fun b hb => h b (List.mem_cons_of_mem _ hb)
    rw [List.countP_cons, List.map_cons, List.sum_cons, Nat.add_mul]
    by_cases ha : p a = true
    · have hk := h a (List.mem_cons_self ..) ha
      rw [if_pos ha]
      omega
    · rw [if_neg ha]
      omega

end Tally
