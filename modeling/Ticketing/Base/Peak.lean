import Mathlib.Data.Int.Init
import Mathlib.Algebra.Order.Group.Unbundled.Int

/-!
# Functions on the integers with one peak

A function that rises up to a point and falls from there on is largest at that point.  On an interval that
need not contain the peak it is largest at the point of the interval closest to it (`Peak.le_clamp`), so one
evaluation replaces a search.
-/

variable {α : Type*}

/-- `f` rises up to `p` and falls from `p` on. -/
structure Peak [Preorder α] (f : Int → α) (p : Int) : Prop where
  rises : ∀ s, s < p → f s ≤ f (s + 1)
  falls : ∀ s, p ≤ s → f (s + 1) ≤ f s

namespace Peak

variable [Preorder α] {f : Int → α} {p : Int}

theorem le_of_le_peak (h : Peak f p) {x y : Int} (hxy : x ≤ y) (hy : y ≤ p) : f x ≤ f y := by
  induction y, hxy using Int.leInduction with
  | base => exact le_rfl
  | succ n hxn ih =>
    have hn : n < p := by omega
    exact (ih hn.le).trans (h.rises n hn)

theorem le_of_peak_le (h : Peak f p) {x y : Int} (hx : p ≤ x) (hxy : x ≤ y) : f y ≤ f x := by
  induction y, hxy using Int.leInduction with
  | base => exact le_rfl
  | succ n hxn ih => exact (h.falls n (by omega)).trans ih

/-- On an interval the function is largest at the peak, clamped to the interval. -/
theorem le_clamp (h : Peak f p) {lo hi x : Int} (hlo : lo ≤ x) (hhi : x ≤ hi) : f x ≤ f (min (max p lo) hi) := by
  rcases le_total p lo with hp | hp
  · -- the peak lies left of the interval: its left end is best
    rw [max_eq_right hp, min_eq_left (hlo.trans hhi)]
    exact h.le_of_peak_le hp hlo
  · rw [max_eq_left hp]
    rcases le_total p hi with hp' | hp'
    · rw [min_eq_left hp']
      rcases le_total x p with hx | hx
      · exact h.le_of_le_peak hx le_rfl
      · exact h.le_of_peak_le le_rfl hx
    · rw [min_eq_right hp']
      exact h.le_of_le_peak hhi hp'

end Peak

/-- Two lists have the same maximum when one is part of the other and bounds all of it. -/
theorem List.max?_eq_of_bounds [LinearOrder α] {l l' : List α} (hsub : ∀ a ∈ l, a ∈ l')
    (hle : ∀ b ∈ l', ∃ a ∈ l, b ≤ a) : l.max? = l'.max? := by
  cases hmax : l.max? with
  | none =>
    rw [List.max?_eq_none_iff] at hmax
    subst hmax
    symm
    rw [List.max?_eq_none_iff, List.eq_nil_iff_forall_not_mem]
    intro b hb
    obtain ⟨a, ha, -⟩ := hle b hb
    cases ha
  | some m =>
    obtain ⟨hm, hm'⟩ := List.max?_eq_some_iff.1 hmax
    symm
    refine List.max?_eq_some_iff.2 ⟨hsub m hm, fun b hb => ?_⟩
    obtain ⟨a, ha, hba⟩ := hle b hb
    exact hba.trans (hm' a ha)
