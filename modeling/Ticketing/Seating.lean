import Mathlib.Data.Rat.Floor
import Mathlib.Data.List.Sort
import Mathlib.Tactic.NormNum
import Ticketing.Base.Span

/-!
# The seating oracle

The pure placement functions of `app/services/seating.py`, from the policy and the block geometry to `occupy` and
`release`.  Qualities and scores are exact rationals where the source computes with floats.  A value the source
refuses to build (`__post_init__`) cannot be built here either: the checks are fields of `Policy` and
`BlockGeometry`.  A raised `ValueError` is an `Except.error` that carries the data of the message.
-/

namespace Ticketing

abbrev BlockId := Nat

/-- A maximal stretch of free seats of one block. -/
abbrev Run := Span BlockId

/-! ### Policy and geometry -/

/-- How an order may be cut out of a free run. -/
structure Policy where
  minRun : Int := 2
  allowMidCut : Bool := false
  midCutGuard : Int := 4
  orphanValue : ℚ := 3 / 10
  fragmentationWeight : ℚ := 3 / 2
  minRun_pos : 1 ≤ minRun := by norm_num
  midCutGuard_pos : 1 ≤ midCutGuard := by norm_num
  orphanValue_mem : 0 ≤ orphanValue ∧ orphanValue ≤ 1 := by norm_num
  fragmentationWeight_nonneg : 0 ≤ fragmentationWeight := by norm_num

def normalPolicy : Policy := {}

/-- The end of a sale: an end cut may leave an orphan. -/
def endgamePolicy : Policy := { minRun := 1 }

/-- The lower bound of both sides of a mid cut. -/
def Policy.midLo (policy : Policy) : Int := max 2 policy.midCutGuard

/-- How many seats of a free stretch of this length are expected to sell; only an orphan is discounted. -/
def Policy.phi (policy : Policy) (length : Int) : ℚ :=
  if length = 0 then 0 else if length = 1 then policy.orphanValue else length

/-- The seat qualities of one block: `base` at the centre, `decay` less for every seat away from it. -/
structure BlockGeometry where
  blockId : BlockId
  capacity : Int
  base : ℚ := 1
  decay : ℚ := 0
  capacity_pos : 1 ≤ capacity
  decay_nonneg : 0 ≤ decay

namespace BlockGeometry

/-- The geometry whose middle seats have quality `base` and whose outermost seats have quality `edge`; `none` is
the `ValueError` of the constructor. -/
def calibrated (blockId : BlockId) (capacity : Int) (base edge : ℚ) : Option BlockGeometry :=
  let center : ℚ := (capacity - 1) / 2
  let nearest : ℚ := center - ⌊center⌋
  let span : ℚ := center - nearest
  let decay : ℚ := if span = 0 then 0 else (base - edge) / span
  if hcap : 1 ≤ capacity then
    if hdec : 0 ≤ decay then
      some { blockId, capacity, base := base + decay * nearest, decay, capacity_pos := hcap, decay_nonneg := hdec }
    else none
  else none

def center (geo : BlockGeometry) : ℚ := (geo.capacity - 1) / 2

def seatQuality (geo : BlockGeometry) (pos : Int) : ℚ := geo.base - geo.decay * |(pos : ℚ) - geo.center|

/-- The quality of the seats `start, …, start + length - 1` together. -/
def windowQuality (geo : BlockGeometry) (start length : Int) : ℚ :=
  ((List.range length.toNat).map fun (i : Nat) => geo.seatQuality (start + i)).sum

/-- Rounding to the nearest integer, halves to the even neighbour. -/
def roundHalfEven (x : ℚ) : Int :=
  let f := ⌊x⌋
  if x - f < 1 / 2 then f else if 1 / 2 < x - f then f + 1 else if f % 2 = 0 then f else f + 1

/-- Where `length` seats start when they lie symmetrically over the centre. -/
def idealStart (geo : BlockGeometry) (length : Int) : Int := roundHalfEven (geo.center - (length - 1) / 2)

end BlockGeometry

/-! ### Candidates -/

/-- `length` consecutive seats from `start` on, with the score of this choice. -/
structure Placement where
  blockId : BlockId
  start : Int
  length : Int
  score : ℚ
deriving DecidableEq

def Placement.span (p : Placement) : Run := ⟨p.blockId, p.start, p.length⟩

def Placement.stop (p : Placement) : Int := p.start + p.length

/-- What a cut loses beyond the seats it sells. -/
def cutCost (policy : Policy) (runLength left right taken : Int) : ℚ :=
  policy.phi runLength - policy.phi left - policy.phi right - taken

/-- The placement of `quantity` seats at `offset` inside `run`; whether the cut is legal is not checked here. -/
def placementAt (run : Run) (offset quantity : Int) (geo : BlockGeometry) (policy : Policy) : Placement where
  blockId := run.block
  start := run.start + offset
  length := quantity
  score := geo.windowQuality (run.start + offset) quantity -
    policy.fragmentationWeight * cutCost policy run.length offset (run.length - quantity - offset) quantity

/-- The legal cuts of `quantity` seats out of `run`: at both ends, and one in the middle where the policy allows
it. -/
def candidates (run : Run) (quantity : Int) (geo : BlockGeometry) (policy : Policy) : List Placement :=
  let tail := run.length - quantity
  if quantity < 1 ∨ tail < 0 then []
  else
    let ends :=
      if tail = 0 ∨ policy.minRun ≤ tail then
        placementAt run 0 quantity geo policy ::
          if 0 < tail then [placementAt run tail quantity geo policy] else []
      else []
    let lo := policy.midLo
    let hi := tail - policy.midLo
    let mid :=
      if policy.allowMidCut ∧ lo ≤ hi then
        [placementAt run (min (max (geo.idealStart quantity - run.start) lo) hi) quantity geo policy]
      else []
    ends ++ mid

/-- All candidates of all runs, in the order of the runs; `none` is the `KeyError` of a block without geometry. -/
def allCandidates (runs : List Run) (quantity : Int) (geometry : BlockId → Option BlockGeometry)
    (policy : Policy) : Option (List Placement) :=
  (runs.mapM fun run => (geometry run.block).map fun geo => candidates run quantity geo policy).map List.flatten

/-- The order of suggestion: higher score first, then lower block, then lower start. -/
def Placement.before (p q : Placement) : Prop :=
  q.score < p.score ∨
    p.score = q.score ∧ (p.blockId < q.blockId ∨ p.blockId = q.blockId ∧ p.start ≤ q.start)

instance : DecidableRel Placement.before := fun p q => by unfold Placement.before; infer_instance

/-- All legal placements, best first. -/
def legalAnchors (runs : List Run) (quantity : Int) (geometry : BlockId → Option BlockGeometry)
    (policy : Policy := normalPolicy) : Option (List Placement) :=
  (allCandidates runs quantity geometry policy).map (List.insertionSort Placement.before)

/-- The comparison `key > best_key` of `allocate`. -/
def Placement.better (p q : Placement) : Prop :=
  q.score < p.score ∨
    p.score = q.score ∧ (p.blockId < q.blockId ∨ p.blockId = q.blockId ∧ p.start < q.start)

instance : DecidableRel Placement.better := fun p q => by unfold Placement.better; infer_instance

/-- The legal placement with the highest score. -/
def allocate (runs : List Run) (quantity : Int) (geometry : BlockId → Option BlockGeometry)
    (policy : Policy := normalPolicy) : Option (Option Placement) :=
  (allCandidates runs quantity geometry policy).map fun cands =>
    cands.foldl (fun best cand =>
      match best with
      | none => some cand
      | some b => if cand.better b then some cand else some b) none

/-! ### Taking and giving back seats -/

/-- The order `(block_id, start)` in which run lists are returned. -/
def runOrder (a b : Run) : Prop := a.block < b.block ∨ a.block = b.block ∧ a.start ≤ b.start

instance : DecidableRel runOrder := fun a b => by unfold runOrder; infer_instance

inductive SeatingError where
  | notInsideOneRun (placement : Placement)
  | lengthNotPositive
  | outOfCapacity (start stop : Int) (block : BlockId) (capacity : Option Int)
  | overlapsFreeRun (lo hi : Int) (run : Run)
deriving DecidableEq

/-- The placement lies inside the run. -/
def Placement.insideOf (p : Placement) (run : Run) : Prop :=
  run.block = p.blockId ∧ run.start ≤ p.start ∧ p.stop ≤ run.stop

instance (p : Placement) (run : Run) : Decidable (p.insideOf run) := by unfold Placement.insideOf; infer_instance

/-- What is left of one run: the run itself, or up to two pieces around the placement. -/
def occupyOne (placement : Placement) (run : Run) : List Run :=
  if placement.insideOf run then
    (if run.start < placement.start then [⟨run.block, run.start, placement.start - run.start⟩] else []) ++
      if placement.stop < run.stop then [⟨run.block, placement.stop, run.stop - placement.stop⟩] else []
  else [run]

/-- The free runs after a placement is taken. -/
def occupy (runs : List Run) (placement : Placement) : Except SeatingError (List Run) :=
  if runs.any fun run => placement.insideOf run then
    .ok ((runs.flatMap (occupyOne placement)).insertionSort runOrder)
  else .error (.notInsideOneRun placement)

/-- The loop of `release`: `lo` and `hi` grow over the runs that touch the interval, the others are kept. -/
def releaseLoop (block : BlockId) (lo hi : Int) (out : List Run) :
    List Run → Except SeatingError (Int × Int × List Run)
  | [] => .ok (lo, hi, out)
  | run :: runs =>
    if run.block ≠ block then releaseLoop block lo hi (out ++ [run]) runs
    else if run.stop < lo ∨ hi < run.start then releaseLoop block lo hi (out ++ [run]) runs
    else if run.start < hi ∧ lo < run.stop then .error (.overlapsFreeRun lo hi run)
    else releaseLoop block (min lo run.start) (max hi run.stop) out runs

/-- The free runs after `[start, start + length)` is given back. -/
def release (runs : List Run) (block : BlockId) (start length : Int) (capacity : Option Int := none) :
    Except SeatingError (List Run) :=
  if length < 1 then .error .lengthNotPositive
  else if start < 0 ∨ capacity.any (· < start + length) then
    .error (.outOfCapacity start (start + length) block capacity)
  else
    match releaseLoop block start (start + length) [] runs with
    | .error e => .error e
    | .ok (lo, hi, out) => .ok ((out ++ [(⟨block, lo, hi - lo⟩ : Run)]).insertionSort runOrder)

/-- Some run has a candidate for `quantity` seats; `none` is the `KeyError` of a block without geometry, met only when
no run before it serves. -/
def someRunServes (geometry : BlockId → Option BlockGeometry) (policy : Policy) (quantity : Int) :
    List Run → Option Bool
  | [] => some false
  | run :: runs =>
    match geometry run.block with
    | none => none
    | some geo =>
      if (candidates run quantity geo policy).isEmpty then someRunServes geometry policy quantity runs else some true

/-- The quantities `1, …, maxOrder` that some run can serve right now. -/
def feasibleQuantities (runs : List Run) (geometry : BlockId → Option BlockGeometry) (maxOrder : Nat)
    (policy : Policy := normalPolicy) : Option (List Nat) :=
  ((List.range maxOrder).map (· + 1)).filterM fun n => someRunServes geometry policy n runs

end Ticketing
