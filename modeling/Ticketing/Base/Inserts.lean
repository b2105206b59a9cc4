import Mathlib.Data.List.Pairwise
import Mathlib.Data.Option.Basic

/-!
# Rows written one after the other

A table with a check on each row and a relation that any two rows must be in (a unique constraint: they do not
clash).  A row that breaks one of them ends the transaction.
-/

namespace Inserts

variable {α : Type*} {check : α → Prop} {agree : α → α → Prop}

section Insert

variable (check agree) [DecidablePred check] [DecidableRel agree]

/-- One row, written at the end. -/
def insertRow (x : α) (table : List α) : Option (List α) :=
  if check x ∧ ∀ y ∈ table, agree y x then some (table ++ [x]) else none

/-- The rows in their order. -/
def insertRows : List α → List α → Option (List α)
  | [], table => some table
  | x :: rows, table => (insertRow check agree x table).bind (insertRows rows)

end Insert

variable [DecidablePred check] [DecidableRel agree]

/-- Rows are written exactly when each passes the check and they agree with each other and with those there are. -/
theorem insertRows_eq_some_iff {rows table table' : List α} :
    insertRows check agree rows table = some table' ↔
      ((∀ x ∈ rows, check x) ∧ rows.Pairwise agree ∧ ∀ y ∈ table, ∀ x ∈ rows, agree y x) ∧
      table' = table ++ rows := by
  induction rows generalizing table with
  | nil => simp [insertRows, eq_comm]
  | cons x rows ih =>
    rw [insertRows, insertRow]
    by_cases hx : check x ∧ ∀ y ∈ table, agree y x
    · rw [if_pos hx, Option.bind_some, ih, List.append_assoc, List.singleton_append, List.pairwise_cons]
      refine and_congr_left fun _ => ⟨?_, ?_⟩
      · intro h
        obtain ⟨hcheck, hrows, htable⟩ := h
        refine ⟨fun y hy => ?_, ⟨fun y hy => htable x (by simp) y hy, hrows⟩, fun y hy z hz => ?_⟩
        · rcases List.mem_cons.1 hy with rfl | hy
          · exact hx.1
          · exact hcheck y hy
        · rcases List.mem_cons.1 hz with rfl | hz
          · exact hx.2 y hy
          · exact htable y (List.mem_append_left _ hy) z hz
      · intro h
        obtain ⟨hcheck, ⟨hfirst, hrows⟩, htable⟩ := h
        refine ⟨fun y hy => hcheck y (List.mem_cons_of_mem _ hy), hrows, fun y hy z hz => ?_⟩
        rcases List.mem_append.1 hy with hy | hy
        · exact htable y hy z (List.mem_cons_of_mem _ hz)
        · obtain rfl := List.mem_singleton.1 hy
          exact hfirst z hz
    · rw [if_neg hx]
      refine iff_of_false (by simp) fun h => hx ⟨h.1.1 x (List.mem_cons_self ..), fun y hy => ?_⟩
      exact h.1.2.2 y hy x (List.mem_cons_self ..)

end Inserts
