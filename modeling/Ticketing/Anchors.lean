import Ticketing.Base.Traverse
import Ticketing.Seating

/-!
# Legal anchors and feasible quantities

The screen asks `feasible_quantities` which quantities can be bought, the allocator asks `legal_anchors` for
the placements, and the claim asks the snapshot for the run that hosts a placement.  All three rest on
`candidates`, and this module says what they agree on: a candidate lies in its run (`mem_candidates`), so
every anchor has a host (`find_host`); and a quantity is feasible exactly when it has an anchor
(`mem_feasibleQuantities`).

`allocate` keeps a running maximum where `legal_anchors` sorts.  The key they compare tells any two candidates
of one quantity apart (`Placement.eq_of_before`), so the first is the head of the second, in whatever order
the runs are given (`allocate_is_head`).
-/

namespace Ticketing

open Traverse

/-! ### Candidates -/

section Candidates

variable {run : Run} {quantity : Int} {geo : BlockGeometry} {policy : Policy} {p : Placement}

private theorem placementAt_insideOf {offset : Int} (h₀ : 0 ≤ offset) (h₁ : offset + quantity ≤ run.length) :
    (placementAt run offset quantity geo policy).insideOf run := by
  refine ⟨rfl, ?_, ?_⟩
  · show run.start ≤ run.start + offset
    omega
  · show run.start + offset + quantity ≤ run.start + run.length
    omega

/-- A candidate is a cut of `quantity` seats out of its run. -/
theorem mem_candidates (h : p ∈ candidates run quantity geo policy) :
    p.insideOf run ∧ p.length = quantity ∧ 1 ≤ quantity := by
  unfold candidates at h
  simp only at h
  split at h
  · cases h
  · rename_i hq
    have hmid : 2 ≤ policy.midLo := le_max_left ..
    rcases List.mem_append.1 h with h | h
    · split at h
      · rcases List.mem_cons.1 h with rfl | h
        · exact ⟨placementAt_insideOf (by omega) (by omega), rfl, by omega⟩
        · split at h
          · rw [List.mem_singleton.1 h]
            exact ⟨placementAt_insideOf (by omega) (by omega), rfl, by omega⟩
          · cases h
      · cases h
    · split at h
      · rename_i hcut
        rw [List.mem_singleton.1 h]
        exact ⟨placementAt_insideOf (by omega) (by omega), rfl, by omega⟩
      · cases h

end Candidates

/-! ### Anchors -/

section Anchors

variable {runs : List Run} {quantity : Int} {geometry : BlockId → Option BlockGeometry} {policy : Policy}
  {anchors : List Placement} {p : Placement}

theorem exists_of_mem_legalAnchors (h : legalAnchors runs quantity geometry policy = some anchors)
    (hp : p ∈ anchors) : ∃ run ∈ runs, ∃ geo, geometry run.block = some geo ∧
    p ∈ candidates run quantity geo policy := by
  obtain ⟨cands, hcands, rfl⟩ := Option.map_eq_some_iff.1 h
  obtain ⟨lists, hlists, rfl⟩ := Option.map_eq_some_iff.1 hcands
  rw [List.mem_insertionSort, List.mem_flatten] at hp
  obtain ⟨l, hl, hp⟩ := hp
  obtain ⟨run, hrun, heq⟩ := exists_of_mem_mapM hlists hl
  obtain ⟨geo, hgeo, rfl⟩ := Option.map_eq_some_iff.1 heq
  exact ⟨run, hrun, geo, hgeo, hp⟩

/-- Every placement of `legal_anchors` has the asked length, which is at least one. -/
theorem length_of_mem_legalAnchors (h : legalAnchors runs quantity geometry policy = some anchors)
    (hp : p ∈ anchors) :
    p.length = quantity ∧ 1 ≤ quantity := by
  obtain ⟨run, -, geo, -, hcand⟩ := exists_of_mem_legalAnchors h hp
  exact (mem_candidates hcand).2

/-- The host lookup of the claim loop finds a run of the snapshot around every anchor. -/
theorem find_host (h : legalAnchors runs quantity geometry policy = some anchors) (hp : p ∈ anchors) :
    ∃ host, (runs.find? fun run => p.insideOf run) = some host ∧ host ∈ runs ∧ p.insideOf host := by
  obtain ⟨run, hrun, geo, -, hcand⟩ := exists_of_mem_legalAnchors h hp
  cases hfind : runs.find? fun run => p.insideOf run with
  | none => exact absurd (mem_candidates hcand).1 (by simpa using List.find?_eq_none.1 hfind run hrun)
  | some host => exact ⟨host, rfl, List.mem_of_find?_eq_some hfind, by simpa using List.find?_some hfind⟩

end Anchors

/-! ### Feasible quantities -/

/-- Every run lies in a block whose geometry is known. -/
def Charted (runs : List Run) (geometry : BlockId → Option BlockGeometry) : Prop :=
  ∀ run ∈ runs, (geometry run.block).isSome = true

section Feasible

variable {runs : List Run} {quantity : Int} {geometry : BlockId → Option BlockGeometry} {policy : Policy}

/-- The candidates of a run, none where its block is not known. -/
private def candidatesOf (quantity : Int) (geometry : BlockId → Option BlockGeometry) (policy : Policy) (run : Run) :
    List Placement :=
  ((geometry run.block).map fun geo => candidates run quantity geo policy).getD []

private theorem candidatesOf_eq {run : Run} (h : (geometry run.block).isSome = true) :
    ((geometry run.block).map fun geo => candidates run quantity geo policy) =
      some (candidatesOf quantity geometry policy run) := by
  obtain ⟨geo, hgeo⟩ := Option.isSome_iff_exists.1 h
  rw [candidatesOf, hgeo]
  rfl

/-- No `KeyError` on charted runs. -/
private theorem allCandidates_eq (h : Charted runs geometry) :
    allCandidates runs quantity geometry policy = some (runs.flatMap (candidatesOf quantity geometry policy)) := by
  rw [allCandidates, mapM_eq_some fun run hrun => candidatesOf_eq (h run hrun)]
  rfl

/-- `legal_anchors` sorts all the candidates of charted runs. -/
private theorem legalAnchors_eq (h : Charted runs geometry) :
    legalAnchors runs quantity geometry policy =
      some ((runs.flatMap (candidatesOf quantity geometry policy)).insertionSort Placement.before) := by
  rw [legalAnchors, allCandidates_eq h]
  rfl

private theorem someRunServes_eq (h : Charted runs geometry) :
    someRunServes geometry policy quantity runs =
      some (!(runs.flatMap (candidatesOf quantity geometry policy)).isEmpty) := by
  induction runs with
  | nil => rfl
  | cons run runs ih =>
    obtain ⟨geo, hgeo⟩ := Option.isSome_iff_exists.1 (h run (List.mem_cons_self ..))
    have hcand : candidatesOf quantity geometry policy run = candidates run quantity geo policy := by
      rw [candidatesOf, hgeo]
      rfl
    rw [someRunServes, hgeo, List.flatMap_cons, hcand]
    show (if (candidates run quantity geo policy).isEmpty = true then _ else _) = _
    split
    · rename_i hempty
      rw [ih fun r hr => h r (List.mem_cons_of_mem _ hr), List.isEmpty_iff.1 hempty, List.nil_append]
    · rename_i hne
      cases hc : candidates run quantity geo policy with
      | nil => exact absurd (by rw [hc]; rfl) hne
      | cons p ps => rfl

theorem mem_quantities {n maxOrder : Nat} : n ∈ (List.range maxOrder).map (· + 1) ↔ 1 ≤ n ∧ n ≤ maxOrder := by
  rw [List.mem_map]
  constructor
  · rintro ⟨k, hk, rfl⟩
    have := List.mem_range.1 hk
    omega
  · rintro ⟨h₁, h₂⟩
    exact ⟨n - 1, List.mem_range.2 (by omega), by omega⟩

/-- A quantity is feasible exactly when it is within the maximum and has a legal anchor. -/
theorem mem_feasibleQuantities (policy : Policy) (h : Charted runs geometry) (maxOrder n : Nat) :
    ∃ feasible, feasibleQuantities runs geometry maxOrder policy = some feasible ∧
      (n ∈ feasible ↔ (1 ≤ n ∧ n ≤ maxOrder) ∧
        ∃ anchors, legalAnchors runs n geometry policy = some anchors ∧ anchors ≠ []) := by
  refine ⟨_, filterM_eq_some fun m _ => someRunServes_eq h, ?_⟩
  rw [List.mem_filter, legalAnchors_eq h]
  have hempty : ∀ l : List Placement, l.insertionSort Placement.before ≠ [] ↔ l ≠ [] := by
    intro l
    rw [Ne, Ne, ← List.length_eq_zero_iff, ← List.length_eq_zero_iff, List.length_insertionSort]
  rw [mem_quantities]
  simp only [Option.some.injEq, exists_eq_left', hempty, Bool.not_eq_true', List.isEmpty_eq_false_iff]

end Feasible

/-! ### The best anchor -/

namespace Placement

variable {p q r : Placement}

theorem before_total (p q : Placement) : p.before q ∨ q.before p := by
  rcases lt_trichotomy p.score q.score with h | h | h
  · exact .inr (.inl h)
  · rcases Nat.lt_trichotomy p.blockId q.blockId with hb | hb | hb
    · exact .inl (.inr ⟨h, .inl hb⟩)
    · rcases le_total p.start q.start with hs | hs
      · exact .inl (.inr ⟨h, .inr ⟨hb, hs⟩⟩)
      · exact .inr (.inr ⟨h.symm, .inr ⟨hb.symm, hs⟩⟩)
    · exact .inr (.inr ⟨h.symm, .inl hb⟩)
  · exact .inl (.inl h)

theorem before_trans (hpq : p.before q) (hqr : q.before r) : p.before r := by
  rcases hpq with h₁ | ⟨h₁, hk₁⟩
  · rcases hqr with h₂ | ⟨h₂, -⟩
    · exact .inl (h₂.trans h₁)
    · exact .inl (h₂ ▸ h₁)
  · rcases hqr with h₂ | ⟨h₂, hk₂⟩
    · exact .inl (h₁ ▸ h₂)
    · refine .inr ⟨h₁.trans h₂, ?_⟩
      rcases hk₁ with hb₁ | ⟨hb₁, hs₁⟩
      · rcases hk₂ with hb₂ | ⟨hb₂, -⟩
        · exact .inl (hb₁.trans hb₂)
        · exact .inl (hb₂ ▸ hb₁)
      · rcases hk₂ with hb₂ | ⟨hb₂, hs₂⟩
        · exact .inl (hb₁ ▸ hb₂)
        · exact .inr ⟨hb₁.trans hb₂, hs₁.trans hs₂⟩

/-- Score, block and start tell two placements of one quantity apart. -/
theorem eq_of_before (hlen : p.length = q.length) (hpq : p.before q) (hqp : q.before p) : p = q := by
  obtain ⟨hscore, hblock, hstart⟩ : p.score = q.score ∧ p.blockId = q.blockId ∧ p.start = q.start := by
    rcases hpq with h₁ | ⟨h₁, hk₁⟩
    · rcases hqp with h₂ | ⟨h₂, -⟩
      · exact absurd h₂ h₁.asymm
      · exact absurd h₂ h₁.ne
    · rcases hqp with h₂ | ⟨-, hk₂⟩
      · exact absurd h₁ h₂.ne
      · rcases hk₁ with hb₁ | ⟨hb₁, hs₁⟩
        · rcases hk₂ with hb₂ | ⟨hb₂, -⟩
          · exact absurd hb₂ hb₁.asymm
          · exact absurd hb₂ hb₁.ne'
        · rcases hk₂ with hb₂ | ⟨-, hs₂⟩
          · exact absurd hb₁ hb₂.ne'
          · exact ⟨h₁, hb₁, le_antisymm hs₁ hs₂⟩
  cases p
  cases q
  simp only [mk.injEq] at *
  exact ⟨hblock, hstart, hlen, hscore⟩

theorem before_of_better (h : p.better q) : p.before q := by
  rcases h with h | ⟨h, hb | ⟨hb, hs⟩⟩
  · exact .inl h
  · exact .inr ⟨h, .inl hb⟩
  · exact .inr ⟨h, .inr ⟨hb, hs.le⟩⟩

theorem better_of_not_before (h : ¬p.before q) : q.better p := by
  unfold before better at *
  rcases lt_trichotomy p.score q.score with hs | hs | hs
  · exact .inl hs
  · refine .inr ⟨hs.symm, ?_⟩
    rcases Nat.lt_trichotomy p.blockId q.blockId with hb | hb | hb
    · exact absurd (.inr ⟨hs, .inl hb⟩) h
    · refine .inr ⟨hb.symm, ?_⟩
      by_contra hlt
      exact h (.inr ⟨hs, .inr ⟨hb, not_lt.1 hlt⟩⟩)
    · exact .inl hb
  · exact absurd (.inl hs) h

end Placement

section Best

variable {runs runs' : List Run} {quantity : Int} {geometry : BlockId → Option BlockGeometry} {policy : Policy}
  {cands : List Placement}

/-- One round of the loop of `allocate`. -/
private def keepBetter (best : Option Placement) (cand : Placement) : Option Placement :=
  some (best.elim cand fun b => if cand.better b then cand else b)

private theorem allocate_eq :
    allocate runs quantity geometry policy =
      (allCandidates runs quantity geometry policy).map fun cands => cands.foldl keepBetter none := by
  unfold allocate
  congr
  funext cands
  congr
  funext best cand
  cases best with
  | none => rfl
  | some b =>
    simp only [keepBetter, Option.elim_some]
    split <;> rfl

/-- The running maximum is one of the candidates seen and comes before all of them. -/
private theorem foldl_keepBetter (cands : List Placement) (b : Placement) :
    ∃ best, cands.foldl keepBetter (some b) = some best ∧ best ∈ b :: cands ∧ ∀ p ∈ b :: cands, best.before p := by
  induction cands generalizing b with
  | nil =>
    refine ⟨b, rfl, List.mem_cons_self .., fun p hp => ?_⟩
    rw [List.mem_singleton.1 hp]
    exact (Placement.before_total b b).elim id id
  | cons cand cands ih =>
    rw [List.foldl_cons]
    simp only [keepBetter, Option.elim_some]
    split
    · rename_i hbetter
      obtain ⟨best, hbest, hmem, hbefore⟩ := ih cand
      refine ⟨best, hbest, List.mem_cons_of_mem _ hmem, fun p hp => ?_⟩
      rcases List.mem_cons.1 hp with rfl | hp
      · exact Placement.before_trans (hbefore cand (List.mem_cons_self ..)) (Placement.before_of_better hbetter)
      · exact hbefore p hp
    · rename_i hworse
      obtain ⟨best, hbest, hmem, hbefore⟩ := ih b
      have hcand : b.before cand := by
        by_contra hnot
        exact hworse (Placement.better_of_not_before hnot)
      refine ⟨best, hbest, ?_, fun p hp => ?_⟩
      · rcases List.mem_cons.1 hmem with rfl | hmem
        · exact List.mem_cons_self ..
        · exact List.mem_cons_of_mem _ (List.mem_cons_of_mem _ hmem)
      · rcases List.mem_cons.1 hp with rfl | hp
        · exact hbefore p (List.mem_cons_self ..)
        · rcases List.mem_cons.1 hp with rfl | hp
          · exact Placement.before_trans (hbefore b (List.mem_cons_self ..)) hcand
          · exact hbefore p (List.mem_cons_of_mem _ hp)

private theorem pairwise_insertionSort_before (cands : List Placement) :
    (cands.insertionSort Placement.before).Pairwise Placement.before := by
  have htotal : Std.Total Placement.before := ⟨Placement.before_total⟩
  have htrans : IsTrans Placement Placement.before := ⟨fun _ _ _ => Placement.before_trans⟩
  exact List.pairwise_insertionSort _ _

/-- Sorting puts the running maximum first. -/
private theorem head?_insertionSort (hlen : ∀ p ∈ cands, p.length = quantity) :
    (cands.insertionSort Placement.before).head? = cands.foldl keepBetter none := by
  cases cands with
  | nil => rfl
  | cons b cands =>
    obtain ⟨best, hbest, hmem, hbefore⟩ := foldl_keepBetter cands b
    rw [List.foldl_cons, show keepBetter none b = some b from rfl, hbest]
    have hsorted := pairwise_insertionSort_before (b :: cands)
    have hperm := List.perm_insertionSort Placement.before (b :: cands)
    cases hs : (b :: cands).insertionSort Placement.before with
    | nil =>
      rw [hs] at hperm
      exact absurd hperm.symm.eq_nil (by simp)
    | cons first rest =>
      rw [hs] at hsorted hperm
      have hfirst : first ∈ b :: cands := hperm.mem_iff.1 (List.mem_cons_self ..)
      -- each of the two comes before the other
      have hle : first.before best := by
        rcases List.mem_cons.1 (hperm.mem_iff.2 hmem) with rfl | hrest
        · exact hbefore best hmem
        · exact (List.pairwise_cons.1 hsorted).1 best hrest
      have heq := Placement.eq_of_before ((hlen first hfirst).trans (hlen best hmem).symm) hle (hbefore first hfirst)
      rw [List.head?_cons, heq]

/-- The candidates sorted are the same whatever the order they were found in. -/
private theorem insertionSort_eq_of_perm {cands' : List Placement} (hperm : cands.Perm cands')
    (hlen : ∀ p ∈ cands, p.length = quantity) :
    cands'.insertionSort Placement.before = cands.insertionSort Placement.before := by
  have hsorts := (List.perm_insertionSort Placement.before cands').trans
    (hperm.symm.trans (List.perm_insertionSort Placement.before cands).symm)
  refine hsorts.eq_of_pairwise (fun p q hp hq hpq hqp => ?_) (pairwise_insertionSort_before _)
    (pairwise_insertionSort_before _)
  rw [List.mem_insertionSort] at hp hq
  exact Placement.eq_of_before ((hlen p (hperm.mem_iff.2 hp)).trans (hlen q hq).symm) hpq hqp

private theorem length_of_mem_candidatesOf (h : Charted runs geometry) {p : Placement}
    (hp : p ∈ runs.flatMap (candidatesOf quantity geometry policy)) : p.length = quantity := by
  obtain ⟨run, hrun, hp⟩ := List.mem_flatMap.1 hp
  obtain ⟨geo, hgeo⟩ := Option.isSome_iff_exists.1 (h run hrun)
  rw [candidatesOf, hgeo] at hp
  exact (mem_candidates hp).2.1

/-- For every list of runs in known blocks, in any order: `allocate` returns the first of `legal_anchors`, and
nothing exactly when there is none. -/
theorem allocate_is_head (h : Charted runs geometry) (quantity : Int) (policy : Policy) :
    ∃ anchors, legalAnchors runs quantity geometry policy = some anchors ∧
      (allocate runs quantity geometry policy = some none ↔ anchors = []) ∧
      ∀ runs', runs.Perm runs' → legalAnchors runs' quantity geometry policy = some anchors ∧
        allocate runs' quantity geometry policy = some anchors.head? := by
  have hany : ∀ runs', runs.Perm runs' →
      legalAnchors runs' quantity geometry policy =
          some ((runs.flatMap (candidatesOf quantity geometry policy)).insertionSort Placement.before) ∧
        allocate runs' quantity geometry policy =
          some ((runs.flatMap (candidatesOf quantity geometry policy)).insertionSort Placement.before).head? := by
    intro runs' hperm
    have h' : Charted runs' geometry := fun run hrun => h run (hperm.mem_iff.2 hrun)
    have hcands := insertionSort_eq_of_perm (hperm.flatMap_right (candidatesOf quantity geometry policy))
      fun p hp => length_of_mem_candidatesOf h hp
    constructor
    · rw [legalAnchors_eq h', hcands]
    · rw [allocate_eq, allCandidates_eq h', Option.map_some, ← hcands,
        head?_insertionSort fun p hp => length_of_mem_candidatesOf h' hp]
  obtain ⟨hanchors, hbest⟩ := hany runs (List.Perm.refl _)
  refine ⟨_, hanchors, ?_, hany⟩
  rw [hbest, Option.some.injEq, List.head?_eq_none_iff]

/-- Two free blocks of four seats, given in either order: the lower block is preferred. -/
theorem allocate_is_head_two_blocks :
    allocate [⟨2, 0, 4⟩, ⟨1, 0, 4⟩] 2 (fun block => some ⟨block, 4, 1, 0, by decide, le_rfl⟩) =
      some (some ⟨1, 0, 2, 2⟩) := by
  have hchart : Charted [⟨1, 0, 4⟩, ⟨2, 0, 4⟩] fun block => some ⟨block, 4, 1, 0, by decide, le_rfl⟩ := fun _ _ => rfl
  obtain ⟨anchors, hanchors, -, hperm⟩ := allocate_is_head hchart 2 normalPolicy
  have hfirst : allocate [⟨1, 0, 4⟩, ⟨2, 0, 4⟩] 2 (fun block => some ⟨block, 4, 1, 0, by decide, le_rfl⟩) =
      some (some ⟨1, 0, 2, 2⟩) := by decide +kernel
  rw [(hperm _ (List.Perm.swap ..)).2, ← (hperm _ (List.Perm.refl _)).2]
  exact hfirst

end Best

end Ticketing
