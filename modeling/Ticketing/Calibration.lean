import Mathlib.Tactic.Linarith
import Mathlib.Tactic.FieldSimp
import Ticketing.Cuts
import Ticketing.Rebuild

/-!
# Calibrated geometries

`BlockGeometry.calibrated` and the seat qualities it leads to.  The centre of a block with an even number of
seats lies between two of them, so what counts is how many seats a position is away from the nearest middle
seat (`offCentre`): the quality is `base` less `decay` for each of them (`seatQuality_of_calibrated`), and the
outermost seats are as far away as `calibrated` divides by.

`calibrated_geometry` collects what follows for every block.  The geometries a rebuild writes are calibrated
ones, and their qualities lie between 0 and 1 (`parseGeometry_rebuilt`).
-/

namespace Ticketing

namespace BlockGeometry

/-- How many seats a position is away from the nearest of the one or two middle seats. -/
def offCentre (capacity pos : Int) : Int := max ((capacity - 1) / 2 - pos) (pos - capacity / 2)

theorem offCentre_symm (capacity pos : Int) : offCentre capacity (capacity - 1 - pos) = offCentre capacity pos := by
  unfold offCentre
  omega

theorem offCentre_nonneg (capacity pos : Int) : 0 ≤ offCentre capacity pos := by
  unfold offCentre
  omega

theorem offCentre_le {capacity pos : Int} (h₀ : 0 ≤ pos) (h₁ : pos < capacity) :
    offCentre capacity pos ≤ (capacity - 1) / 2 := by
  unfold offCentre
  omega

theorem offCentre_eq_zero {capacity pos : Int} (h : pos = (capacity - 1) / 2 ∨ pos = capacity / 2) :
    offCentre capacity pos = 0 := by
  unfold offCentre
  omega

theorem offCentre_edge {capacity pos : Int} (hcap : 1 ≤ capacity) (h : pos = 0 ∨ pos = capacity - 1) :
    offCentre capacity pos = (capacity - 1) / 2 := by
  unfold offCentre
  omega

private theorem floor_center (capacity : Int) : ⌊((capacity : ℚ) - 1) / 2⌋ = (capacity - 1) / 2 := by
  have hdiv : 2 * ((capacity - 1) / 2) + (capacity - 1) % 2 = capacity - 1 := Int.mul_ediv_add_emod ..
  have hlo : 0 ≤ (capacity - 1) % 2 := by omega
  have hhi : (capacity - 1) % 2 < 2 := by omega
  have hdiv' : 2 * (((capacity - 1) / 2 : Int) : ℚ) + (((capacity - 1) % 2 : Int) : ℚ) = capacity - 1 := by
    exact_mod_cast hdiv
  have hlo' : (0 : ℚ) ≤ ((capacity - 1) % 2 : Int) := by exact_mod_cast hlo
  have hhi' : (((capacity - 1) % 2 : Int) : ℚ) < 2 := by exact_mod_cast hhi
  rw [Int.floor_eq_iff]
  constructor <;> linarith

/-- The distance from the centre, counted from the middle seats on. -/
private theorem abs_sub_center (capacity pos : Int) :
    |(pos : ℚ) - (capacity - 1) / 2| =
      ((capacity - 1) / 2 - ((capacity - 1) / 2 : Int)) + offCentre capacity pos := by
  have hhalf : capacity - 1 = 2 * ((capacity - 1) / 2) ∧ capacity / 2 = (capacity - 1) / 2 ∨
      capacity - 1 = 2 * ((capacity - 1) / 2) + 1 ∧ capacity / 2 = (capacity - 1) / 2 + 1 := by omega
  have hcap : (capacity : ℚ) - 1 = ((capacity - 1 : Int) : ℚ) := by push_cast; ring
  unfold offCentre
  generalize (capacity - 1) / 2 = half at hhalf ⊢
  rw [hcap]
  rcases hhalf with ⟨hodd, hmid⟩ | ⟨heven, hmid⟩
  · rw [hodd, hmid]
    push_cast
    rw [abs_eq_max_neg, max_comm]
    ring_nf
  · rw [heven, hmid]
    rcases lt_or_ge half pos with hright | hleft
    · have hmax : max (half - pos) (pos - (half + 1)) = pos - (half + 1) := by omega
      have hpos : (half : ℚ) + 1 ≤ pos := by exact_mod_cast hright
      rw [hmax, abs_of_nonneg (by push_cast; linarith)]
      push_cast
      ring
    · have hmax : max (half - pos) (pos - (half + 1)) = half - pos := by omega
      have hpos : (pos : ℚ) ≤ half := by exact_mod_cast hleft
      rw [hmax, abs_of_nonpos (by push_cast; linarith)]
      push_cast
      ring

/-- What a seat loses for each seat it is away from the middle. -/
def calibratedDecay (capacity : Int) (base edge : ℚ) : ℚ :=
  if (capacity - 1) / 2 = 0 then 0 else (base - edge) / ((capacity - 1) / 2 : Int)

variable {blockId : BlockId} {capacity : Int} {base edge : ℚ} {geo : BlockGeometry}

private theorem calibratedDecay_nonneg_iff (hcap : 1 ≤ capacity) :
    0 ≤ calibratedDecay capacity base edge ↔ 3 ≤ capacity → edge ≤ base := by
  unfold calibratedDecay
  split
  · have hsmall : ¬3 ≤ capacity := by omega
    simp [hsmall]
  · have hlarge : 3 ≤ capacity := by omega
    have hhalf : (0 : ℚ) < ((capacity - 1) / 2 : Int) := by
      have hpos : 0 < (capacity - 1) / 2 := by omega
      exact_mod_cast hpos
    rw [le_div_iff₀ hhalf, zero_mul, sub_nonneg]
    simp [hlarge]

/-- Between the middle seats and the outermost ones lies the difference of `base` and `edge`. -/
private theorem calibratedDecay_mul_half (hcap : 3 ≤ capacity) :
    calibratedDecay capacity base edge * ((capacity - 1) / 2 : Int) = base - edge := by
  have hhalf : (capacity - 1) / 2 ≠ 0 := by omega
  have hhalf' : (((capacity - 1) / 2 : Int) : ℚ) ≠ 0 := by exact_mod_cast hhalf
  rw [calibratedDecay, if_neg hhalf, div_mul_cancel₀ _ hhalf']

/-- `calibrated` divides by the distance of the outermost seats from the middle ones. -/
private theorem calibrated_eq (blockId : BlockId) (capacity : Int) (base edge : ℚ) :
    calibrated blockId capacity base edge =
    if hcap : 1 ≤ capacity then
      if hdec : 0 ≤ calibratedDecay capacity base edge then
        some {
          blockId, capacity
          base := base + calibratedDecay capacity base edge * ((capacity - 1) / 2 - ((capacity - 1) / 2 : Int))
          decay := calibratedDecay capacity base edge
          capacity_pos := hcap
          decay_nonneg := hdec }
      else none
    else none := by
  have hdecay : (if ((capacity - 1) / 2 - ((capacity - 1) / 2 - (((capacity - 1) / 2 : Int) : ℚ)) : ℚ) = 0
    then (0 : ℚ)
      else (base - edge) / ((capacity - 1) / 2 - ((capacity - 1) / 2 - (((capacity - 1) / 2 : Int) : ℚ)))) =
      calibratedDecay capacity base edge := by
    rw [sub_sub_cancel, calibratedDecay]
    congr 1
    rw [Int.cast_eq_zero]
  unfold calibrated
  simp only [floor_center, hdecay]

/-- The constructor refuses a block without seats, and one whose outermost seats would be better than its
middle ones. -/
theorem calibrated_eq_none_iff : calibrated blockId capacity base edge = none ↔ capacity < 1 ∨ 3 ≤ capacity ∧
    base < edge := by
  rw [calibrated_eq]
  split
  · rename_i hcap
    have hiff := @calibratedDecay_nonneg_iff capacity base edge hcap
    split
    · rename_i hdec
      have hle := hiff.1 hdec
      simp only [reduceCtorEq, false_iff, not_or, not_and, not_lt]
      exact ⟨hcap, hle⟩
    · rename_i hdec
      have hlt : 3 ≤ capacity ∧ base < edge := by
        rw [hiff] at hdec
        simpa using hdec
      simp [hlt]
  · rename_i hcap
    simp only [true_iff]
    omega

theorem exists_calibrated (blockId : BlockId) (hcap : 1 ≤ capacity) (hle : edge ≤ base) :
    ∃ geo, calibrated blockId capacity base edge = some geo := by
  apply Option.ne_none_iff_exists'.1
  rw [Ne, calibrated_eq_none_iff]
  rintro (hnone | ⟨-, hlt⟩)
  · omega
  · exact absurd hle (not_le.2 hlt)

theorem of_calibrated (h : calibrated blockId capacity base edge = some geo) :
    geo.blockId = blockId ∧ geo.capacity = capacity ∧ geo.decay = calibratedDecay capacity base edge ∧
      geo.base = base + calibratedDecay capacity base edge * ((capacity - 1) / 2 - ((capacity - 1) / 2 : Int)) := by
  rw [calibrated_eq] at h
  split at h
  · split at h
    · obtain rfl := Option.some.inj h
      exact ⟨rfl, rfl, rfl, rfl⟩
    · cases h
  · cases h

theorem seatQuality_of_calibrated (h : calibrated blockId capacity base edge = some geo) (pos : Int) :
    geo.seatQuality pos = base - calibratedDecay capacity base edge * offCentre capacity pos := by
  obtain ⟨-, hcap, hdecay, hbase⟩ := of_calibrated h
  rw [seatQuality, center, hcap, hdecay, hbase, abs_sub_center]
  ring

private theorem seatQuality_mem (hcap : 1 ≤ capacity) (hle : edge ≤ base)
    (h : calibrated blockId capacity base edge = some geo) {pos : Int}
    (h₀ : 0 ≤ pos) (h₁ : pos < capacity) : edge ≤ geo.seatQuality pos ∧ geo.seatQuality pos ≤ base := by
  have hdecay : 0 ≤ calibratedDecay capacity base edge := (calibratedDecay_nonneg_iff hcap).2 fun _ => hle
  have hoff : (0 : ℚ) ≤ offCentre capacity pos := by exact_mod_cast offCentre_nonneg capacity pos
  rw [seatQuality_of_calibrated h]
  constructor
  · rcases le_or_gt 3 capacity with hlarge | hsmall
    · have hfar : (offCentre capacity pos : ℚ) ≤ ((capacity - 1) / 2 : Int) := by exact_mod_cast offCentre_le h₀ h₁
      have hlost := mul_le_mul_of_nonneg_left hfar hdecay
      rw [calibratedDecay_mul_half hlarge] at hlost
      linarith
    · have hzero : calibratedDecay capacity base edge = 0 := if_pos (by omega)
      rw [hzero, zero_mul, sub_zero]
      exact hle
  · have hlost := mul_nonneg hdecay hoff
    linarith

/-- A block with at least one seat, whose middle seats are at least as good as its outermost ones, has a
calibrated geometry.  Its qualities lie between `edge` and `base`, are the same on both sides of the centre
and do not rise away from it; the one or two middle seats have quality `base`; and the two outermost ones have
quality `edge`, unless all seats are middle ones. -/
theorem calibrated_geometry (blockId : BlockId) (capacity : Int) (base edge : ℚ) (hcap : 1 ≤ capacity)
    (hle : edge ≤ base) :
    ∃ geo, calibrated blockId capacity base edge = some geo ∧ 0 ≤ geo.decay ∧
      (∀ pos, 0 ≤ pos → pos < capacity → edge ≤ geo.seatQuality pos ∧ geo.seatQuality pos ≤ base) ∧
      (∀ pos, geo.seatQuality (capacity - 1 - pos) = geo.seatQuality pos) ∧
      (∀ pos pos' : Int, |(pos : ℚ) - (capacity - 1) / 2| ≤ |(pos' : ℚ) - (capacity - 1) / 2| →
        geo.seatQuality pos' ≤ geo.seatQuality pos) ∧
      geo.seatQuality ((capacity - 1) / 2) = base ∧ geo.seatQuality (capacity / 2) = base ∧
      (3 ≤ capacity → geo.seatQuality 0 = edge ∧ geo.seatQuality (capacity - 1) = edge) ∧
      (capacity ≤ 2 → ∀ pos, 0 ≤ pos → pos < capacity → geo.seatQuality pos = base) := by
  obtain ⟨geo, hgeo⟩ := exists_calibrated blockId hcap hle
  have hquality := seatQuality_of_calibrated hgeo
  have hmiddle : ∀ pos, pos = (capacity - 1) / 2 ∨ pos = capacity / 2 → geo.seatQuality pos = base := by
    intro pos hpos
    rw [hquality, offCentre_eq_zero hpos]
    simp
  have hedge : 3 ≤ capacity → ∀ pos, pos = 0 ∨ pos = capacity - 1 → geo.seatQuality pos = edge := by
    intro hlarge pos hpos
    rw [hquality, offCentre_edge hcap hpos, calibratedDecay_mul_half hlarge]
    ring
  have hcenter : geo.center = (capacity - 1) / 2 := by
    rw [center, (of_calibrated hgeo).2.1]
  refine ⟨geo, hgeo, geo.decay_nonneg, fun pos => seatQuality_mem hcap hle hgeo, ?_, ?_,
    hmiddle _ (.inl rfl), hmiddle _ (.inr rfl), ?_, ?_⟩
  · intro pos
    rw [hquality, hquality, offCentre_symm]
  · intro pos pos' hfar
    apply geo.seatQuality_le_of_far
    rw [hcenter]
    exact hfar
  · intro hlarge
    exact ⟨hedge hlarge 0 (.inl rfl), hedge hlarge _ (.inr rfl)⟩
  · intro hsmall pos h₀ h₁
    apply hmiddle
    omega

theorem calibrated_geometry_four :
    ∃ geo, calibrated 1 4 (4 / 5) (2 / 5) = some geo ∧ geo.seatQuality 0 = 2 / 5 ∧ geo.seatQuality 1 = 4 / 5 ∧
    geo.seatQuality 2 = 4 / 5 ∧ geo.seatQuality 3 = 2 / 5 := by
  obtain ⟨geo, hgeo, -, -, -, -, hleft, hright, hedges, -⟩ := calibrated_geometry 1 4 (4 / 5) (2 / 5)
    (by decide) (by norm_num)
  obtain ⟨hfirst, hlast⟩ := hedges (by decide)
  exact ⟨geo, hgeo, hfirst, hleft, hright, hlast⟩

end BlockGeometry

/-- The geometry that a zone has for a block after a rebuild. -/
theorem parseGeometry_rebuilt (z : ZoneKeys) {blocks : List SeatBlock} {held : List SeatHold}
    (hr : Rebuildable blocks held) {b : SeatBlock}
    (hb : b ∈ blocks) : ∃ geo, (z.rebuilt blocks held).parseGeometry b.id = some geo ∧
      ∀ pos, 0 ≤ pos → pos < b.capacity → 0 ≤ geo.seatQuality pos ∧ geo.seatQuality pos ≤ 1 := by
  obtain ⟨hedge, hle, hone⟩ := b.quality_range
  have hcap : 1 ≤ b.capacity := b.capacity_pos
  obtain ⟨geo, hgeo⟩ := BlockGeometry.exists_calibrated b.id hcap hle
  refine ⟨geo, ?_, ?_⟩
  · rw [ZoneKeys.parseGeometry, lookup_geom_rebuilt z hr hb, Option.bind_some]
    exact hgeo
  · intro pos h₀ h₁
    obtain ⟨hlo, hhi⟩ := BlockGeometry.seatQuality_mem hcap hle hgeo h₀ h₁
    constructor <;> linarith

end Ticketing
