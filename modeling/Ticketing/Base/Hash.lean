import Mathlib.Data.List.AList
import Mathlib.Algebra.Order.Group.Int
import Mathlib.Algebra.Ring.Int.Defs
import Mathlib.Algebra.BigOperators.Group.List.Basic

/-!
# Finite hashes with integer totals

A hash is a finite map from fields to values, as an association list without repeated fields (`AList`); the order
of the entries carries no meaning.  Beside the lookup equations this file follows the total of the values through
insertions and deletions, and builds a hash from a list of assignments.
-/

/-- A finite map from fields to values. -/
abbrev Hash (κ ν : Type*) := AList (fun _ : κ => ν)

namespace Hash

variable {κ ν : Type*} [DecidableEq κ]

theorem lookup_insert_ite (h : Hash κ ν) (k k' : κ) (v : ν) :
    AList.lookup k' (AList.insert k v h) = if k' = k then some v else AList.lookup k' h := by
  by_cases hk : k' = k
  · subst hk; simp
  · simp [AList.lookup_insert_ne hk, hk]

theorem lookup_erase_ite (h : Hash κ ν) (k k' : κ) :
    AList.lookup k' (AList.erase k h) = if k' = k then none else AList.lookup k' h := by
  by_cases hk : k' = k
  · subst hk; simp
  · simp [AList.lookup_erase_ne hk, hk]

theorem mem_entries_iff {h : Hash κ ν} {k : κ} {v : ν} : ⟨k, v⟩ ∈ h.entries ↔ AList.lookup k h = some v :=
  AList.mem_lookup_iff.symm

/-- Adding an integer to a field; a missing field counts as zero. -/
def incr (h : Hash κ Int) (k : κ) (n : Int) : Hash κ Int := AList.insert k ((AList.lookup k h).getD 0 + n) h

theorem lookup_incr (h : Hash κ Int) (k k' : κ) (n : Int) :
    AList.lookup k' (incr h k n) = if k' = k then some ((AList.lookup k h).getD 0 + n) else AList.lookup k' h :=
  lookup_insert_ite ..

/-- The sum of all values. -/
def total (h : Hash κ Int) : Int := (h.entries.map Sigma.snd).sum

theorem entries_perm_of_lookup {h : Hash κ ν} {k : κ} {v : ν} (hk : AList.lookup k h = some v) :
    h.entries.Perm (⟨k, v⟩ :: (AList.erase k h).entries) := by
  obtain ⟨v', l₁, l₂, -, hl, he⟩ :=
    List.exists_of_kerase (AList.mem_keys.1 (AList.lookup_isSome.1 (by rw [hk]; rfl)))
  have hv : AList.lookup k h = some v' :=
    mem_entries_iff.1 (by rw [hl]; exact List.mem_append_right _ (List.mem_cons_self ..))
  obtain rfl : v' = v := by simpa [hv] using hk
  rw [hl, show (AList.erase k h).entries = l₁ ++ l₂ from he]
  exact List.perm_middle

theorem total_erase {h : Hash κ Int} {k : κ} {v : Int} (hk : AList.lookup k h = some v) :
    total (AList.erase k h) = total h - v := by
  have hp := ((entries_perm_of_lookup hk).map Sigma.snd).sum_eq
  simp only [List.map_cons, List.sum_cons] at hp
  unfold total
  omega

theorem total_insert {h : Hash κ Int} {k : κ} (v : Int) (hk : AList.lookup k h = none) :
    total (AList.insert k v h) = total h + v := by
  unfold total
  rw [AList.entries_insert_of_notMem (AList.lookup_eq_none.1 hk)]
  simp [Int.add_comm]

/-- The hash a list of assignments writes, a later assignment to a field replacing an earlier one. -/
def ofList (l : List (κ × ν)) : Hash κ ν := l.foldl (fun h kv => AList.insert kv.1 kv.2 h) ∅

theorem lookup_foldl_insert (l : List (κ × ν)) (h : Hash κ ν) (hl : (l.map Prod.fst).Nodup) (k : κ) (v : ν) :
    AList.lookup k (l.foldl (fun h kv => AList.insert kv.1 kv.2 h) h) = some v ↔
      (k, v) ∈ l ∨ k ∉ l.map Prod.fst ∧ AList.lookup k h = some v := by
  induction l generalizing h with
  | nil => simp
  | cons kv l ih =>
    obtain ⟨k₀, v₀⟩ := kv
    rw [List.map_cons, List.nodup_cons] at hl
    rw [List.foldl_cons, ih _ hl.2, lookup_insert_ite]
    by_cases hk : k = k₀
    · subst hk
      have hnot : ∀ x, (k, x) ∉ l := fun x hx => hl.1 (List.mem_map.2 ⟨_, hx, rfl⟩)
      simp only [List.mem_cons, Prod.mk.injEq, true_and, hnot, or_false, false_or, if_true, Option.some.injEq,
        List.map_cons, not_true_eq_false, false_and, hl.1, not_false_eq_true]
      exact eq_comm
    · simp [hk]

theorem lookup_ofList {l : List (κ × ν)} (hl : (l.map Prod.fst).Nodup) (k : κ) (v : ν) :
    AList.lookup k (ofList l) = some v ↔ (k, v) ∈ l := by
  simp [ofList, lookup_foldl_insert l ∅ hl]

theorem total_foldl_insert (l : List (κ × Int)) (h : Hash κ Int) (hl : (l.map Prod.fst).Nodup)
    (hh : ∀ k ∈ l.map Prod.fst, AList.lookup k h = none) :
    total (l.foldl (fun h kv => AList.insert kv.1 kv.2 h) h) = total h + (l.map Prod.snd).sum := by
  induction l generalizing h with
  | nil => simp
  | cons kv l ih =>
    rw [List.map_cons, List.nodup_cons] at hl
    rw [List.foldl_cons, ih _ hl.2, total_insert _ (hh _ (by simp)), List.map_cons, List.sum_cons, Int.add_assoc]
    intro k hk
    rw [lookup_insert_ite]
    have hne : k ≠ kv.1 := fun h => hl.1 (h ▸ hk)
    simp [hne, hh k (by simp [hk])]

theorem total_ofList {l : List (κ × Int)} (hl : (l.map Prod.fst).Nodup) :
    total (ofList l) = (l.map Prod.snd).sum := by
  rw [ofList, total_foldl_insert l ∅ hl (by simp)]
  simp [total]

/-! ### Equality and recoding -/

/-- The two hashes hold the same values in the same fields. -/
def Same (h h' : Hash κ ν) : Prop := h.entries.Perm h'.entries

instance [DecidableEq ν] (h h' : Hash κ ν) : Decidable (Same h h') :=
  inferInstanceAs (Decidable (h.entries.Perm h'.entries))

theorem same_iff {h h' : Hash κ ν} : Same h h' ↔ ∀ k v, AList.lookup k h = some v ↔ AList.lookup k h' = some v := by
  unfold Same
  rw [List.perm_ext_iff_of_nodup h.nodupKeys.nodup h'.nodupKeys.nodup]
  simp only [← mem_entries_iff]
  exact ⟨fun hs k v => hs ⟨k, v⟩, fun hs e => hs e.1 e.2⟩

section Recode

variable {κ' ν' : Type*} {f : κ → κ'} (hf : Function.Injective f) (g : ν → ν')

/-- The hash with its fields and values written in another way. -/
def recode (h : Hash κ ν) : Hash κ' ν' where
  entries := h.entries.map fun e => ⟨f e.1, g e.2⟩
  nodupKeys := by
    have hkeys := List.Nodup.map hf h.nodupKeys
    rw [List.keys, List.map_map] at hkeys
    rwa [List.NodupKeys, List.keys, List.map_map]

theorem lookup_recode [DecidableEq κ'] (h : Hash κ ν) (k : κ') (v : ν') :
    AList.lookup k (recode hf g h) = some v ↔ ∃ k₀ v₀, AList.lookup k₀ h = some v₀ ∧ f k₀ = k ∧ g v₀ = v := by
  rw [← mem_entries_iff, recode, List.mem_map]
  simp only [Sigma.mk.injEq, heq_eq_eq]
  constructor
  · rintro ⟨⟨k₀, v₀⟩, he, hk, hv⟩
    exact ⟨k₀, v₀, mem_entries_iff.1 he, hk, hv⟩
  · rintro ⟨k₀, v₀, he, hk, hv⟩
    exact ⟨⟨k₀, v₀⟩, mem_entries_iff.2 he, hk, hv⟩

/-- A recoded hash is the recoded list of assignments exactly if the hash holds the assignments of the list. -/
theorem same_recode_ofList [DecidableEq κ'] (hg : Function.Injective g) {h : Hash κ ν} {l : List (κ × ν)}
    (hl : (l.map Prod.fst).Nodup) :
    Same (recode hf g h) (ofList (l.map fun e => (f e.1, g e.2))) ↔ ∀ k v, AList.lookup k h = some v ↔
      (k, v) ∈ l := by
  have hkeys : ((l.map fun e => (f e.1, g e.2)).map Prod.fst).Nodup := by
    have hmap := List.Nodup.map hf hl
    rw [List.map_map] at hmap
    rwa [List.map_map]
  rw [same_iff]
  simp only [lookup_recode, lookup_ofList hkeys, List.mem_map, Prod.mk.injEq]
  constructor
  · intro hs k v
    constructor
    · intro hk
      obtain ⟨⟨k', v'⟩, he, hk', hv'⟩ := (hs (f k) (g v)).1 ⟨k, v, hk, rfl, rfl⟩
      rwa [← hf hk', ← hg hv']
    · intro he
      obtain ⟨k', v', hk, hk', hv'⟩ := (hs (f k) (g v)).2 ⟨(k, v), he, rfl, rfl⟩
      rwa [← hf hk', ← hg hv']
  · intro hs k v
    constructor
    · rintro ⟨k₀, v₀, hk, rfl, rfl⟩
      exact ⟨(k₀, v₀), (hs k₀ v₀).1 hk, rfl, rfl⟩
    · rintro ⟨⟨k₀, v₀⟩, he, rfl, rfl⟩
      exact ⟨k₀, v₀, (hs k₀ v₀).2 he, rfl, rfl⟩

end Recode

end Hash
