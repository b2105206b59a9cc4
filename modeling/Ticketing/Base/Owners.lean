import Mathlib.Logic.Basic

/-!
# Places with at most one owner

Owners of type `ω` own places of type `π`.  A step of a system either takes ownership away, or hands a set of places
over from one owner to another; both keep the ownership exclusive.
-/

namespace Owners

variable {ω π : Type*} {own own' : ω → π → Prop}

/-- No place has two owners. -/
def OneOwner (own : ω → π → Prop) : Prop := ∀ o o' x, own o x → own o' x → o = o'

theorem OneOwner.shrink (h : OneOwner own) (hsub : ∀ o x, own' o x → own o x) : OneOwner own' :=
  fun o o' x hx hx' => h o o' x (hsub o x hx) (hsub o' x hx')

/-- The places `S` of the owner `old` go to the owner `new`; nobody else gains a place. -/
theorem OneOwner.transfer (h : OneOwner own) (old new : ω) (S : π → Prop) (hS : ∀ x, S x → own old x)
    (hown : ∀ o x, own' o x → (o = new ∧ S x) ∨ (own o x ∧ ¬ (o = old ∧ S x))) : OneOwner own' := by
  -- a place of `S` stays with nobody: its one owner was `old`
  have hgone : ∀ o x, S x → own o x → ¬ (o = old ∧ S x) → False :=
    fun o x hx ho hn => hn ⟨h o old x ho (hS x hx), hx⟩
  intro o o' x ho ho'
  rcases hown o x ho with ⟨rfl, hx⟩ | ⟨hox, hn⟩ <;> rcases hown o' x ho' with ⟨rfl, hx'⟩ | ⟨hox', hn'⟩
  · rfl
  · exact (hgone o' x hx hox' hn').elim
  · exact (hgone o x hx' hox hn).elim
  · exact h o o' x hox hox'

/-- One owner gets a new set of places, which nobody else owns. -/
theorem OneOwner.replace (h : OneOwner own) (new : ω) (hown : ∀ o x, o ≠ new → own' o x → own o x)
    (hnew : ∀ o x, own' new x → own' o x → o = new) : OneOwner own' := by
  intro o o' x ho ho'
  by_cases hn : o = new
  · subst hn
    exact (hnew o' x ho ho').symm
  · by_cases hn' : o' = new
    · subst hn'
      exact hnew o x ho' ho
    · exact h o o' x (hown o x hn ho) (hown o' x hn' ho')

end Owners
