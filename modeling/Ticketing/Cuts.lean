import Mathlib.Tactic.Linarith
import Mathlib.Tactic.Ring
import Ticketing.Base.Peak
import Ticketing.Anchors

/-!
# Legal cuts and the best of them

`candidates` never enumerates the offsets at which a party may be cut out of a run.  It yields the two end
cuts and, where the policy allows a cut in the middle, the offset of the middle window that is closest to the
ideal one.  This module compares it with the enumeration (`legalOffsets`, the brute force oracle of the
tests): both are empty together and their best scores agree (`max_candidates_eq_max_legalOffsets`), because
the quality of a window of seats has its peak at `ideal_start` (`windowQuality_peak`) and the cost of a cut is
the same all over the middle window (`cutCost_mid`).

A run serves a quantity exactly when `Policy.Serves` says so, and the feasible quantities are those that some
run serves (`candidates_and_feasible_exact`).
-/

namespace Ticketing

open Traverse

/-! ### The quality of a window of seats -/

namespace BlockGeometry

variable (geo : BlockGeometry)

/-- Moving a window by one seat drops its first seat and adds the one behind its last. -/
private theorem windowQuality_succ (start : Int) (n : Nat) :
    geo.windowQuality (start + 1) n - geo.windowQuality start n =
      geo.seatQuality (start + n) - geo.seatQuality start := by
  have hcons : geo.windowQuality start (n + 1 : Nat) = geo.seatQuality start + geo.windowQuality (start + 1) n := by
    simp only [windowQuality, Int.toNat_natCast, List.range_succ_eq_map, List.map_cons, List.map_map, List.sum_cons]
    congr 1
    · simp
    · congr 1
      refine List.map_congr_left fun i _ => ?_
      simp only [Function.comp_apply, Nat.succ_eq_add_one]
      congr 1
      push_cast
      ring
  have hconcat : geo.windowQuality start (n + 1 : Nat) = geo.windowQuality start n + geo.seatQuality (start + n) := by
    simp [windowQuality, List.range_succ]
  linarith

/-- A seat farther from the centre is no better. -/
theorem seatQuality_le_of_far {pos pos' : Int} (hfar : |(pos : ℚ) - geo.center| ≤ |(pos' : ℚ) - geo.center|) :
    geo.seatQuality pos' ≤ geo.seatQuality pos := by
  have hlost := mul_le_mul_of_nonneg_left hfar geo.decay_nonneg
  unfold seatQuality
  linarith

/-- The window rises while its middle lies left of the centre. -/
private theorem seatQuality_le_of_le (start : Int) (n : Nat) (h : (start : ℚ) ≤ geo.center - n / 2) :
    geo.seatQuality start ≤ geo.seatQuality (start + n) := by
  have hn : (0 : ℚ) ≤ n := Nat.cast_nonneg n
  apply geo.seatQuality_le_of_far
  rw [abs_of_nonpos (show (start : ℚ) - geo.center ≤ 0 by linarith), abs_le]
  push_cast
  constructor <;> linarith

/-- The window falls once its middle lies right of the centre. -/
private theorem seatQuality_le_of_ge (start : Int) (n : Nat) (h : geo.center - n / 2 ≤ (start : ℚ)) :
    geo.seatQuality (start + n) ≤ geo.seatQuality start := by
  have hn : (0 : ℚ) ≤ n := Nat.cast_nonneg n
  apply geo.seatQuality_le_of_far
  push_cast
  rw [abs_of_nonneg (show (0 : ℚ) ≤ (start : ℚ) + n - geo.center by linarith), abs_le]
  constructor <;> linarith

/-- Rounding moves a number by at most one half. -/
private theorem abs_sub_roundHalfEven_le (x : ℚ) : |x - roundHalfEven x| ≤ 1 / 2 := by
  have h₀ := Int.floor_le x
  have h₁ := Int.lt_floor_add_one x
  unfold roundHalfEven
  simp only
  rw [abs_le]
  split
  · constructor <;> linarith
  · split
    · push_cast
      constructor <;> linarith
    · split
      · constructor <;> linarith
      · push_cast
        constructor <;> linarith

/-- The quality of a window of `n` seats is best at `ideal_start` and gets worse on both sides. -/
theorem windowQuality_peak (n : Nat) : Peak (fun start => geo.windowQuality start n) (geo.idealStart n) := by
  obtain ⟨hlo, hhi⟩ := abs_le.1 (abs_sub_roundHalfEven_le (geo.center - ((n : Int) - 1 : ℚ) / 2))
  have hideal : (geo.idealStart n : ℚ) = roundHalfEven (geo.center - ((n : Int) - 1 : ℚ) / 2) := rfl
  rw [← hideal] at hlo hhi
  push_cast at hlo hhi
  constructor
  · intro start hstart
    -- the ideal start is at most half a seat right of the symmetric one, so the window moves towards the centre
    have hcast : (start : ℚ) + 1 ≤ geo.idealStart n := by exact_mod_cast hstart
    have := geo.seatQuality_le_of_le start n (by linarith)
    have := geo.windowQuality_succ start n
    linarith
  · intro start hstart
    have hcast : (geo.idealStart n : ℚ) ≤ start := by exact_mod_cast hstart
    have := geo.seatQuality_le_of_ge start n (by linarith)
    have := geo.windowQuality_succ start n
    linarith

end BlockGeometry

/-! ### All legal offsets -/

section Cuts

variable {run : Run} {quantity offset : Int} {geo : BlockGeometry} {policy : Policy} {p : Placement}

theorem Policy.two_le_midLo (policy : Policy) : 2 ≤ policy.midLo := le_max_left ..

/-- Every offset at which the policy lets `quantity` seats be cut out of `run`. -/
def legalOffsets (run : Run) (quantity : Int) (policy : Policy) : List Int :=
  let tail := run.length - quantity
  if quantity < 1 ∨ tail < 0 then []
  else
    (if tail = 0 ∨ policy.minRun ≤ tail then [0, tail] else []) ++
      if policy.allowMidCut then
        (List.range (tail - policy.midLo + 1 - policy.midLo).toNat).map fun (k : Nat) => policy.midLo + k
      else []

/-- The cut at either end leaves nothing or a run that is long enough. -/
def EndCut (run : Run) (quantity : Int) (policy : Policy) (offset : Int) : Prop :=
  (run.length = quantity ∨ policy.minRun ≤ run.length - quantity) ∧ (offset = 0 ∨ offset = run.length - quantity)

theorem mem_legalOffsets :
    offset ∈ legalOffsets run quantity policy ↔ (1 ≤ quantity ∧ quantity ≤ run.length) ∧
      (EndCut run quantity policy offset ∨
        policy.allowMidCut = true ∧ policy.midLo ≤ offset ∧ offset ≤ run.length - quantity - policy.midLo) := by
  have hmid : policy.midLo ≤ offset ∧ offset ≤ run.length - quantity - policy.midLo ↔
      ∃ k ∈ List.range (run.length - quantity - policy.midLo + 1 - policy.midLo).toNat,
      policy.midLo + (k : Int) = offset := by
    constructor
    · rintro ⟨h₁, h₂⟩
      exact ⟨(offset - policy.midLo).toNat, List.mem_range.2 (by omega), by omega⟩
    · rintro ⟨k, hk, rfl⟩
      have := List.mem_range.1 hk
      omega
  have hend : run.length - quantity = 0 ↔ run.length = quantity := by omega
  unfold legalOffsets EndCut
  simp only [hmid, hend]
  by_cases hbad : quantity < 1 ∨ run.length - quantity < 0
  · rw [if_pos hbad]
    constructor
    · intro h
      cases h
    · rintro ⟨h, -⟩
      omega
  · rw [if_neg hbad, List.mem_append, and_iff_right (show 1 ≤ quantity ∧ quantity ≤ run.length by omega)]
    apply or_congr
    · split <;> simp_all
    · split <;> simp_all

/-- The candidates are the two end cuts and the one cut in the middle that is closest to the ideal start. -/
theorem mem_candidates_iff :
    p ∈ candidates run quantity geo policy ↔ (1 ≤ quantity ∧ quantity ≤ run.length) ∧
      ((∃ offset, EndCut run quantity policy offset ∧ p = placementAt run offset quantity geo policy) ∨
        (policy.allowMidCut = true ∧ policy.midLo ≤ run.length - quantity - policy.midLo) ∧
          p = placementAt run (min (max (geo.idealStart quantity - run.start) policy.midLo)
            (run.length - quantity - policy.midLo)) quantity geo policy) := by
  have hend : run.length - quantity = 0 ↔ run.length = quantity := by omega
  unfold candidates EndCut
  simp only [hend]
  by_cases hbad : quantity < 1 ∨ run.length - quantity < 0
  · rw [if_pos hbad]
    constructor
    · intro h
      cases h
    · rintro ⟨h, -⟩
      omega
  · rw [if_neg hbad, List.mem_append, and_iff_right (show 1 ≤ quantity ∧ quantity ≤ run.length by omega)]
    apply or_congr
    · split
      · rename_i hlegal
        constructor
        · intro h
          rcases List.mem_cons.1 h with rfl | h
          · exact ⟨0, ⟨hlegal, .inl rfl⟩, rfl⟩
          · split at h
            · exact ⟨_, ⟨hlegal, .inr rfl⟩, List.mem_singleton.1 h⟩
            · cases h
        · rintro ⟨o, ⟨-, rfl | rfl⟩, rfl⟩
          · exact List.mem_cons_self ..
          · -- where nothing is left the two end cuts are one
            split
            · simp
            · have htail : run.length - quantity = 0 := by omega
              rw [htail]
              exact List.mem_cons_self ..
      · rename_i hlegal
        constructor
        · intro h
          cases h
        · rintro ⟨o, ⟨h, -⟩, -⟩
          exact absurd h hlegal
    · split <;> simp_all

/-! ### The clamp finds the best offset -/

/-- All over the middle window a cut costs the same: what it leaves on either side is no orphan. -/
private theorem cutCost_mid (hlo : policy.midLo ≤ offset) (hhi : offset ≤ run.length - quantity - policy.midLo) :
    cutCost policy run.length offset (run.length - quantity - offset) quantity =
      policy.phi run.length - (run.length - quantity) - quantity := by
  have h2 := policy.two_le_midLo
  have hphi : ∀ n : Int, 2 ≤ n → policy.phi n = n := by
    intro n hn
    rw [Policy.phi, if_neg (by omega), if_neg (by omega)]
  rw [cutCost, hphi offset (by omega), hphi (run.length - quantity - offset) (by omega)]
  push_cast
  ring

/-- No offset of the middle window scores better than the one closest to the ideal start. -/
private theorem score_le_clamp (hq : 1 ≤ quantity) (hlo : policy.midLo ≤ offset)
    (hhi : offset ≤ run.length - quantity - policy.midLo) :
    (placementAt run offset quantity geo policy).score ≤
      (placementAt run (min (max (geo.idealStart quantity - run.start) policy.midLo)
        (run.length - quantity - policy.midLo)) quantity geo policy).score := by
  obtain ⟨n, rfl⟩ := Int.eq_ofNat_of_zero_le (show 0 ≤ quantity by omega)
  set ideal := geo.idealStart (n : Int) - run.start with hideal
  -- seen from the start of the run, the quality has its peak at the ideal offset
  have hpeak : Peak (fun o => geo.windowQuality (run.start + o) n) ideal := by
    constructor
    · intro s hs
      have := (geo.windowQuality_peak n).rises (run.start + s) (by omega)
      rwa [add_assoc] at this
    · intro s hs
      have := (geo.windowQuality_peak n).falls (run.start + s) (by omega)
      rwa [add_assoc] at this
  have hbest := hpeak.le_clamp hlo hhi
  simp only [placementAt]
  rw [cutCost_mid hlo hhi, cutCost_mid (by omega) (by omega)]
  exact sub_le_sub_right hbest _

/-- The best candidate scores as high as the best legal offset, and there is no candidate exactly when no
offset is legal. -/
theorem max_candidates_eq_max_legalOffsets (geo : BlockGeometry) (run : Run) (quantity : Int) (policy : Policy) :
    ((candidates run quantity geo policy).map Placement.score).max? =
        ((legalOffsets run quantity policy).map fun offset =>
          (placementAt run offset quantity geo policy).score).max? ∧
      (candidates run quantity geo policy = [] ↔ legalOffsets run quantity policy = []) := by
  -- the candidates lie at legal offsets, and no legal offset scores better than all of them
  have hlegal : ∀ p ∈ candidates run quantity geo policy,
      ∃ offset ∈ legalOffsets run quantity policy, p = placementAt run offset quantity geo policy := by
    intro p hp
    obtain ⟨hq, ⟨offset, hcut, rfl⟩ | ⟨⟨hmid, hwin⟩, rfl⟩⟩ := mem_candidates_iff.1 hp
    · exact ⟨offset, mem_legalOffsets.2 ⟨hq, .inl hcut⟩, rfl⟩
    · exact ⟨_, mem_legalOffsets.2 ⟨hq, .inr ⟨hmid, by omega, by omega⟩⟩, rfl⟩
  have hbest : ∀ offset ∈ legalOffsets run quantity policy, ∃ p ∈ candidates run quantity geo policy,
      (placementAt run offset quantity geo policy).score ≤ p.score := by
    intro offset hoff
    obtain ⟨hq, hcut | ⟨hmid, hlo, hhi⟩⟩ := mem_legalOffsets.1 hoff
    · exact ⟨_, mem_candidates_iff.2 ⟨hq, .inl ⟨offset, hcut, rfl⟩⟩, le_rfl⟩
    · exact ⟨_, mem_candidates_iff.2 ⟨hq, .inr ⟨⟨hmid, hlo.trans hhi⟩, rfl⟩⟩, score_le_clamp hq.1 hlo hhi⟩
  constructor
  · apply List.max?_eq_of_bounds
    · intro score hscore
      obtain ⟨p, hp, rfl⟩ := List.mem_map.1 hscore
      obtain ⟨offset, hoff, rfl⟩ := hlegal p hp
      exact List.mem_map.2 ⟨offset, hoff, rfl⟩
    · intro score hscore
      obtain ⟨offset, hoff, rfl⟩ := List.mem_map.1 hscore
      obtain ⟨p, hp, hle⟩ := hbest offset hoff
      exact ⟨p.score, List.mem_map.2 ⟨p, hp, rfl⟩, hle⟩
  · rw [List.eq_nil_iff_forall_not_mem, List.eq_nil_iff_forall_not_mem]
    constructor
    · intro h offset hoff
      obtain ⟨p, hp, -⟩ := hbest offset hoff
      exact h p hp
    · intro h p hp
      obtain ⟨offset, hoff, -⟩ := hlegal p hp
      exact h offset hoff

/-! ### Which quantities a run serves -/

/-- `quantity` seats can be cut out of a free stretch of this length. -/
def Policy.Serves (policy : Policy) (length quantity : Int) : Prop :=
  quantity = length ∨ policy.minRun ≤ length - quantity ∨
    policy.allowMidCut = true ∧ 2 * policy.midLo ≤ length - quantity

theorem candidates_ne_nil_iff (geo : BlockGeometry) (hq : 1 ≤ quantity) :
    candidates run quantity geo policy ≠ [] ↔ policy.Serves run.length quantity := by
  have hrun := policy.minRun_pos
  have hmidLo := policy.two_le_midLo
  constructor
  · intro hne
    obtain ⟨p, hp⟩ := List.exists_mem_of_ne_nil _ hne
    obtain ⟨-, ⟨offset, ⟨hend, -⟩, -⟩ | ⟨⟨hmid, hwin⟩, -⟩⟩ := mem_candidates_iff.1 hp
    · exact hend.imp Eq.symm .inl
    · exact .inr (.inr ⟨hmid, by omega⟩)
  · rintro (h | h | ⟨hmid, h⟩)
    · exact List.ne_nil_of_mem (mem_candidates_iff.2 ⟨⟨hq, by omega⟩, .inl ⟨0, ⟨.inl h.symm, .inl rfl⟩, rfl⟩⟩)
    · exact List.ne_nil_of_mem (mem_candidates_iff.2 ⟨⟨hq, by omega⟩, .inl ⟨0, ⟨.inr h, .inl rfl⟩, rfl⟩⟩)
    · exact List.ne_nil_of_mem (mem_candidates_iff.2 ⟨⟨hq, by omega⟩, .inr ⟨⟨hmid, by omega⟩, rfl⟩⟩)

/-- What a cut leaves of the run on the left and on the right. -/
def Placement.residuals (p : Placement) (run : Run) : Int × Int := (p.start - run.start, run.stop - p.stop)

/-- An end cut leaves one side whole or long enough, a cut in the middle leaves both sides long enough. -/
def LeavesLegal (policy : Policy) (left right : Int) : Prop :=
  (left = 0 ∧ (right = 0 ∨ policy.minRun ≤ right)) ∨ (right = 0 ∧ (left = 0 ∨ policy.minRun ≤ left)) ∨
    (policy.midLo ≤ left ∧ policy.midLo ≤ right)

theorem residuals_of_mem_candidates (hp : p ∈ candidates run quantity geo policy) :
    LeavesLegal policy (p.residuals run).1 (p.residuals run).2 := by
  have hres : ∀ offset, (placementAt run offset quantity geo policy).residuals run =
      (offset, run.length - quantity - offset) := by
    intro offset
    simp only [Placement.residuals, Placement.stop, Span.stop, placementAt, Prod.mk.injEq]
    omega
  obtain ⟨-, ⟨offset, ⟨hend, rfl | rfl⟩, rfl⟩ | ⟨⟨hmid, hwin⟩, rfl⟩⟩ := mem_candidates_iff.1 hp
  · rw [hres]
    exact .inl ⟨rfl, by omega⟩
  · rw [hres]
    exact .inr (.inl ⟨by omega, by omega⟩)
  · rw [hres]
    exact .inr (.inr ⟨by omega, by omega⟩)

end Cuts

/-! ### Feasible quantities -/

section Feasible

variable {runs : List Run} {geometry : BlockId → Option BlockGeometry} {policy : Policy}

private theorem someRunServes_spec {quantity : Int} (hq : 1 ≤ quantity) {b : Bool}
    (h : someRunServes geometry policy quantity runs = some b) :
    b = true ↔ ∃ run ∈ runs, policy.Serves run.length quantity := by
  induction runs with
  | nil =>
    obtain rfl : false = b := by simpa [someRunServes] using h
    simp
  | cons run runs ih =>
    rw [someRunServes] at h
    split at h
    · cases h
    · rename_i geo _
      rw [List.exists_mem_cons_iff, ← candidates_ne_nil_iff geo hq]
      split at h
      · rename_i hempty
        rw [ih h, List.isEmpty_iff.1 hempty]
        simp
      · rename_i hne
        obtain rfl : true = b := by simpa using h
        simp only [List.isEmpty_iff] at hne
        simp [hne]

private theorem isSome_of_filterM {α : Type} {f : α → Option Bool} {l out : List α}
    (h : l.filterM f = some out) {x : α} (hx : x ∈ l) : (f x).isSome = true := by
  have haux : ∀ acc out, l.filterAuxM f acc = some out → (f x).isSome = true := by
    clear h
    induction l with
    | nil => cases hx
    | cons a l ih =>
      intro acc out h
      rw [List.filterAuxM] at h
      obtain ⟨b, hb, h⟩ := Option.bind_eq_some_iff.1 h
      rcases List.mem_cons.1 hx with rfl | hx
      · rw [hb]
        rfl
      · exact ih hx _ _ h
  obtain ⟨out', hout', -⟩ := Option.bind_eq_some_iff.1 h
  exact haux [] out' hout'

/-- The feasible quantities in increasing order, whenever no block without geometry is met. -/
private theorem feasibleQuantities_spec {m : Nat} {out : List Nat}
    (h : feasibleQuantities runs geometry m policy = some out) :
    out.Pairwise (· < ·) ∧
      ∀ n : Nat, n ∈ out ↔ (1 ≤ n ∧ n ≤ m) ∧ ∃ run ∈ runs, policy.Serves run.length n := by
  have hsome : ∀ n : Nat, n ∈ (List.range m).map (· + 1) → someRunServes geometry policy (n : Int) runs =
      some ((someRunServes geometry policy (n : Int) runs).getD false) := by
    intro n hn
    obtain ⟨b, hb⟩ := Option.isSome_iff_exists.1 (isSome_of_filterM h hn)
    rw [hb]
    rfl
  rw [feasibleQuantities, filterM_eq_some hsome, Option.some.injEq] at h
  subst h
  constructor
  · refine List.Pairwise.filter _ (List.pairwise_map.2 (List.pairwise_lt_range.imp ?_))
    intro a b hab
    exact Nat.succ_lt_succ hab
  · intro n
    rw [List.mem_filter, mem_quantities]
    refine and_congr_right fun hn => ?_
    exact someRunServes_spec (by omega) (hsome n (mem_quantities.2 hn))

/-- A run has a candidate exactly for the quantities it serves, which are all but one below its length in
normal times and all of them at the end of a sale; each candidate lies inside the run and leaves legal pieces;
and the feasible quantities are, in increasing order, those that some run serves. -/
theorem candidates_and_feasible_exact (policy : Policy) (geo : BlockGeometry) (run : Run) :
    (∀ n, 1 ≤ n → (candidates run n geo policy ≠ [] ↔ policy.Serves run.length n)) ∧
      (∀ n, normalPolicy.Serves run.length n ↔ n = run.length ∨ n ≤ run.length - 2) ∧
      (∀ n, endgamePolicy.Serves run.length n ↔ n ≤ run.length) ∧
      (∀ n, ∀ p ∈ candidates run n geo policy, (p.insideOf run ∧ p.length = n) ∧
        LeavesLegal policy (p.residuals run).1 (p.residuals run).2 ∧ 2 ≤ policy.midLo) ∧
      ∀ (runs : List Run) (geometry : BlockId → Option BlockGeometry) (m : Nat),
        (Charted runs geometry → (feasibleQuantities runs geometry m policy).isSome = true) ∧
          ∀ out, feasibleQuantities runs geometry m policy = some out →
            out.Pairwise (· < ·) ∧
              ∀ n : Nat, n ∈ out ↔ (1 ≤ n ∧ n ≤ m) ∧ ∃ run ∈ runs, policy.Serves run.length n := by
  refine ⟨fun n hn => candidates_ne_nil_iff geo hn, fun n => ?_, fun n => ?_, fun n p hp => ?_,
    fun runs geometry m => ⟨?_, ?_⟩⟩
  · simp only [Policy.Serves, normalPolicy, Bool.false_eq_true, false_and, or_false]
    omega
  · simp only [Policy.Serves, endgamePolicy, Bool.false_eq_true, false_and, or_false]
    omega
  · obtain ⟨hin, hlen, -⟩ := mem_candidates hp
    exact ⟨⟨hin, hlen⟩, residuals_of_mem_candidates hp, policy.two_le_midLo⟩
  · intro hchart
    obtain ⟨feasible, hfeasible, -⟩ := mem_feasibleQuantities policy hchart m 0
    rw [hfeasible]
    rfl
  · exact fun out hout => feasibleQuantities_spec hout

end Feasible

end Ticketing
