import Mathlib.Data.List.Basic

/-!
# Maps over a list that may fail

A function that may fail, applied to the elements of a list one after the other: where it succeeds on each of them the
whole succeeds, and what comes out is what came out of the elements, in their order.
-/

namespace Traverse

variable {α β γ : Type}

theorem mapM_eq_some {f : α → Option β} {g : α → β} {l : List α} (h : ∀ x ∈ l, f x = some (g x)) :
    l.mapM f = some (l.map g) := by
  induction l with
  | nil => rfl
  | cons a l ih =>
    rw [List.mapM_cons, h a (List.mem_cons_self ..), ih fun x hx => h x (List.mem_cons_of_mem _ hx)]
    rfl

theorem mapM_cons_eq_some {f : α → Option β} {a : α} {l : List α} {out : List β} :
    (a :: l).mapM f = some out ↔ ∃ b bs, f a = some b ∧ l.mapM f = some bs ∧ out = b :: bs := by
  simp only [List.mapM_cons, Option.pure_def, Option.bind_eq_bind, Option.bind_eq_some_iff, Option.some.injEq]
  constructor
  · rintro ⟨b, hb, bs, hbs, rfl⟩
    exact ⟨b, bs, hb, hbs, rfl⟩
  · rintro ⟨b, bs, hb, hbs, rfl⟩
    exact ⟨b, hb, bs, hbs, rfl⟩

/-- What comes out came from an element. -/
theorem exists_of_mem_mapM {f : α → Option β} {l : List α} {out : List β} (h : l.mapM f = some out) {y : β}
    (hy : y ∈ out) :
    ∃ x ∈ l, f x = some y := by
  induction l generalizing out with
  | nil =>
    obtain rfl : [] = out := by simpa using h
    cases hy
  | cons a l ih =>
    obtain ⟨b, bs, hb, hbs, rfl⟩ := mapM_cons_eq_some.1 h
    rcases List.mem_cons.1 hy with rfl | hy
    · exact ⟨a, List.mem_cons_self .., hb⟩
    · obtain ⟨x, hx, hfx⟩ := ih hbs hy
      exact ⟨x, List.mem_cons_of_mem _ hx, hfx⟩

/-- What each element keeps, the list keeps. -/
theorem map_of_mapM {f : α → Option β} {g : α → γ} {g' : β → γ} (hfg : ∀ x y, f x = some y → g' y = g x) {l : List α}
    {out : List β} (h : l.mapM f = some out) : out.map g' = l.map g := by
  induction l generalizing out with
  | nil =>
    obtain rfl : [] = out := by simpa using h
    rfl
  | cons a l ih =>
    obtain ⟨b, bs, hb, hbs, rfl⟩ := mapM_cons_eq_some.1 h
    rw [List.map_cons, List.map_cons, hfg a b hb, ih hbs]

theorem filterM_eq_some {f : α → Option Bool} {g : α → Bool} {l : List α} (h : ∀ x ∈ l, f x = some (g x)) :
    l.filterM f = some (l.filter g) := by
  have haux : ∀ acc, l.filterAuxM f acc = some ((l.filter g).reverse ++ acc) := by
    induction l with
    | nil => exact fun acc => rfl
    | cons a l ih =>
      intro acc
      rw [List.filterAuxM, h a (List.mem_cons_self ..)]
      show l.filterAuxM f _ = _
      rw [ih fun x hx => h x (List.mem_cons_of_mem _ hx), List.filter_cons]
      cases g a <;> simp
  show (l.filterAuxM f []).bind (fun as => some as.reverse) = _
  rw [haux []]
  simp

end Traverse
