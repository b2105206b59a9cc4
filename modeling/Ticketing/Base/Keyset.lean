import Mathlib.Data.List.Sort

/-!
# Pages by key

Rows with distinct keys are listed in decreasing order, and continued below the key of a row already listed.
The rest of the listing is the listing of the rest (`descending_below`).
-/

namespace Keyset

variable {α κ : Type*} [LinearOrder κ] (key : α → κ)

/-- The rows in decreasing order of their keys. -/
def descending (rows : List α) : List α := rows.insertionSort fun a b => key b ≤ key a

/-- The rows below the cursor, if there is one. -/
def below (cursor : Option κ) (rows : List α) : List α := rows.filter fun a => cursor.all fun c => decide (key a < c)

variable {key} {rows : List α}

theorem perm_descending (rows : List α) : (descending key rows).Perm rows := List.perm_insertionSort _ _

theorem below_none (rows : List α) : below key none rows = rows := by simp [below]

theorem mem_below {c : κ} {a : α} : a ∈ below key (some c) rows ↔ a ∈ rows ∧ key a < c := by simp [below]

theorem pairwise_descending (hrows : (rows.map key).Nodup) : (descending key rows).Pairwise fun a b =>
    key b < key a := by
  have hle : (descending key rows).Pairwise fun a b => key b ≤ key a := by
    have : Std.Total fun a b : α => key b ≤ key a := ⟨fun a b => le_total _ _⟩
    have : IsTrans α fun a b => key b ≤ key a := ⟨fun a b c hab hbc => hbc.trans hab⟩
    exact List.pairwise_insertionSort _ rows
  have hne : (descending key rows).Pairwise fun a b => key a ≠ key b :=
    List.pairwise_map.1 (((perm_descending rows).map key).nodup_iff.2 hrows)
  exact hle.imp₂ (fun a b hab hne => lt_of_le_of_ne hab hne.symm) hne

/-- There is one decreasing order. -/
theorem descending_eq {l : List α} (hl : l.Pairwise fun a b => key b < key a) (hperm : l.Perm rows) :
    descending key rows = l := by
  have hnodup : (l.map key).Nodup := List.pairwise_map.2 (hl.imp fun hab => hab.ne')
  have hrows : (rows.map key).Nodup := (hperm.map key).nodup_iff.1 hnodup
  refine List.Perm.eq_of_pairwise (fun a b _ _ hab hba => absurd hab hba.asymm) (pairwise_descending hrows) hl ?_
  exact (perm_descending rows).trans hperm.symm

/-- What is listed after a row is the listing of what is below it. -/
theorem descending_below (hrows : (rows.map key).Nodup) {cursor : Option κ} {init rest : List α} {a : α}
    (h : descending key (below key cursor rows) = init ++ a :: rest) :
    descending key (below key (some (key a)) rows) = rest := by
  have hsub : ((below key cursor rows).map key).Nodup := hrows.sublist (List.filter_sublist.map key)
  have hsorted := pairwise_descending hsub
  have hperm : (descending key (below key cursor rows)).Perm _ := perm_descending _
  rw [h] at hsorted hperm
  obtain ⟨-, hrest, hinit⟩ := List.pairwise_append.1 hsorted
  obtain ⟨hlt, hrest⟩ := List.pairwise_cons.1 hrest
  refine descending_eq hrest ?_
  -- of the listing, exactly `rest` is below `a`
  have hfilter : (init ++ a :: rest).filter (fun b => decide (key b < key a)) = rest := by
    have h₁ : init.filter (fun b => decide (key b < key a)) = [] := by
      refine List.filter_eq_nil_iff.2 fun b hb => ?_
      simpa using (hinit b hb a (List.mem_cons_self ..)).le
    have h₂ : rest.filter (fun b => decide (key b < key a)) = rest :=
      List.filter_eq_self.2 fun b hb => decide_eq_true (hlt b hb)
    rw [List.filter_append, h₁, List.filter_cons, if_neg (by simp), h₂, List.nil_append]
  have hmem : a ∈ below key cursor rows := hperm.mem_iff.1 (by simp)
  have hbelow : (below key cursor rows).filter (fun b => decide (key b < key a)) = below key (some (key a)) rows := by
    rw [below, List.filter_filter]
    refine List.filter_congr fun b _ => ?_
    cases cursor with
    | none => simp
    | some c =>
      have hac : key a < c := (mem_below.1 hmem).2
      simp only [Option.all_some, ← Bool.decide_and]
      exact decide_eq_decide.2 ⟨And.left, fun hba => ⟨hba, hba.trans hac⟩⟩
  rw [← hbelow, ← hfilter]
  exact hperm.filter _

end Keyset
