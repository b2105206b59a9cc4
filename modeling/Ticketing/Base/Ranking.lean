import Mathlib.Data.List.Count
import Mathlib.Data.List.Nodup
import Mathlib.Data.List.Perm.Lattice
import Mathlib.Data.List.Range
import Mathlib.Data.List.Perm.Subperm

/-!
# Ranks in a list

A Boolean relation `before` orders the elements of a list.  The rank of an element is the number of elements
before it.  When the relation is a strict total order on a list without repetitions, the ranks are the numbers
below the length, each taken once (`ranks_perm`), so that counting elements by rank is counting numbers
(`countP_rank`).  Ranks do not depend on how the list is arranged (`rank_perm`).
-/

namespace Ranking

variable {α : Type*} {before : α → α → Bool} {l l' : List α}

def rank (before : α → α → Bool) (l : List α) (a : α) : Nat := l.countP fun b => before b a

/-- The relation is a strict total order on the elements of the list. -/
structure StrictOn (before : α → α → Bool) (l : List α) : Prop where
  irrefl : ∀ a ∈ l, before a a = false
  trans : ∀ a ∈ l, ∀ b ∈ l, ∀ c ∈ l, before a b = true → before b c = true → before a c = true
  total : ∀ a ∈ l, ∀ b ∈ l, a ≠ b → before a b = true ∨ before b a = true

theorem rank_perm (h : l.Perm l') (a : α) : rank before l a = rank before l' a := h.countP_eq _

theorem rank_lt_length (h : StrictOn before l) {a : α} (ha : a ∈ l) : rank before l a < l.length :=
  List.countP_lt_length_iff.2 ⟨a, ha, by simp [h.irrefl a ha]⟩

theorem rank_lt_rank (h : StrictOn before l) {a b : α} (ha : a ∈ l) (hb : b ∈ l) (hab : before a b = true) :
    rank before l a < rank before l b := by
  have hle : ∀ c ∈ l, before c a = true → before c b = true := fun c hc hca => h.trans c hc a ha b hb hca hab
  have hsub : ((l.filter fun c => before c b).filter fun c => before c a) = l.filter fun c => before c a := by
    rw [List.filter_filter]
    refine List.filter_congr fun c hc => ?_
    cases hca : before c a with
    | false => rfl
    | true => rw [hle c hc hca]; rfl
  -- the element itself is before `b` and not before itself
  rw [rank, rank, List.countP_eq_length_filter, List.countP_eq_length_filter, ← hsub, ← List.countP_eq_length_filter]
  exact List.countP_lt_length_iff.2 ⟨a, List.mem_filter.2 ⟨ha, hab⟩, by simp [h.irrefl a ha]⟩

theorem rank_inj (h : StrictOn before l) {a b : α} (ha : a ∈ l) (hb : b ∈ l)
    (heq : rank before l a = rank before l b) : a = b := by
  by_contra hne
  rcases h.total a ha b hb hne with hab | hba
  · exact (rank_lt_rank h ha hb hab).ne heq
  · exact (rank_lt_rank h hb ha hba).ne heq.symm

/-- The ranks are the numbers below the length. -/
theorem ranks_perm (h : StrictOn before l) (hl : l.Nodup) : (l.map (rank before l)).Perm (List.range l.length) := by
  have hnodup : (l.map (rank before l)).Nodup := hl.map_on fun a ha b hb heq => rank_inj h ha hb heq
  have hsub : l.map (rank before l) ⊆ List.range l.length := by
    intro n hn
    obtain ⟨a, ha, rfl⟩ := List.mem_map.1 hn
    exact List.mem_range.2 (rank_lt_length h ha)
  exact (hnodup.subperm hsub).perm_of_length_le (by simp)

/-- Elements are counted by their ranks. -/
theorem countP_rank (h : StrictOn before l) (hl : l.Nodup) (p : Nat → Bool) :
    l.countP (fun a => p (rank before l a)) = (List.range l.length).countP p := by
  rw [← (ranks_perm h hl).countP_eq, List.countP_map]
  rfl

theorem countP_range_lt (n k : Nat) : ((List.range n).countP fun r => decide (r < k)) = min k n := by
  induction n with
  | zero => simp
  | succ n ih =>
    rw [List.range_succ, List.countP_append, ih, List.countP_singleton]
    by_cases hk : n < k
    · simp only [hk, decide_true, if_true]
      omega
    · simp only [hk, decide_false, Bool.false_eq_true, if_false]
      omega

theorem countP_range_between {n k m : Nat} (hm : m ≤ n) :
    ((List.range n).countP fun r => decide (k ≤ r ∧ r < m)) = m - k := by
  induction n generalizing m with
  | zero =>
    obtain rfl : m = 0 := by omega
    simp
  | succ n ih =>
    rw [List.range_succ, List.countP_append, List.countP_singleton]
    rcases Nat.lt_or_ge n m with hnm | hnm
    · obtain rfl : m = n + 1 := by omega
      have hsame : ((List.range n).countP fun r => decide (k ≤ r ∧ r < n + 1)) =
          (List.range n).countP fun r => decide (k ≤ r ∧ r < n) := by
        refine List.countP_congr fun r hr => ?_
        have hlt := List.mem_range.1 hr
        simp only [decide_eq_true_eq]
        omega
      rw [hsame, ih (le_refl n)]
      by_cases hk : k ≤ n
      · rw [if_pos (by simpa using hk)]
        omega
      · rw [if_neg (by simpa using hk)]
        omega
    · rw [ih hnm, if_neg (by simp only [decide_eq_true_eq]; omega)]
      rfl

end Ranking
