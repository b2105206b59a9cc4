import Ticketing.Database
import Ticketing.ZoneRuns

/-!
# Rebuilding a zone from the database

`rebuild_zone_runs` of `app/services/seat_runs.py`: what it reads, the sweep over the holds of each block, and the
keys its `MULTI` writes.  The sweep leaves exactly the positions of a block that no hold covers, as maximal runs, so
the zone it writes satisfies the zone invariant.
-/

namespace Ticketing

open Span

/-- The order of `sorted` on pairs `(lo, hi)`. -/
def pairOrder (a b : Int × Int) : Prop := a.1 < b.1 ∨ a.1 = b.1 ∧ a.2 ≤ b.2

instance : DecidableRel pairOrder := fun a b => by unfold pairOrder; infer_instance

/-- The loop over the sorted intervals of one block, and the run after the last of them. -/
def sweep (block : BlockId) (capacity : Int) : Int → List (Int × Int) → List Run
  | cursor, [] => if cursor < capacity then [⟨block, cursor, capacity - cursor⟩] else []
  | cursor, (lo, hi) :: occupied =>
    (if cursor < lo then [⟨block, cursor, lo - cursor⟩] else []) ++ sweep block capacity (max cursor hi) occupied

/-- `occupied[block_id]`. -/
def occupied (held : List SeatHold) (block : BlockId) : List (Int × Int) :=
  (held.filter fun h => h.block = block).map fun h => (h.startPos, h.startPos + h.length)

def blockRuns (held : List SeatHold) (block : SeatBlock) : List Run :=
  sweep block.id block.capacity 0 ((occupied held block.id).insertionSort pairOrder)

/-- The free runs computed from the blocks of the zone and the holds on them. -/
def rebuiltRuns (blocks : List SeatBlock) (held : List SeatHold) : List Run := blocks.flatMap (blockRuns held)

/-- The keys after the `MULTI` of a rebuild; the two keys of the strict-miss ratchet stay as they are. -/
def ZoneKeys.rebuilt (z : ZoneKeys) (blocks : List SeatBlock) (held : List SeatHold) : ZoneKeys :=
  let runs := rebuiltRuns blocks held
  { z with
    runs := Hash.ofList (runs.map fun r => ((⟨r.block, r.start⟩ : Field), r.length))
    ends := Hash.ofList (runs.map fun r => ((⟨r.block, r.stop⟩ : Field), r.start))
    geom := Hash.ofList (blocks.map fun b => (b.id, ⟨b.capacity, b.qualityBase, b.qualityEdge⟩))
    available := some (runs.map Span.length).sum }

/-- The blocks a rebuild of a zone reads. -/
def Db.zoneBlocks (db : Db) (zone : ZoneId) : List SeatBlock := db.seatBlocks.filter fun b => b.zone = zone

/-- The holds a rebuild reads: those of the event on the given blocks. -/
def Db.heldOn (db : Db) (event : EventId) (blocks : List SeatBlock) : List SeatHold :=
  db.seatHolds.filter fun h => h.event = event ∧ h.block ∈ blocks.map SeatBlock.id

/-! ### The sweep -/

section Sweep

variable {block : BlockId} {capacity : Int}

/-- The intervals of a block lie inside it and none is empty. -/
private def Fits (capacity : Int) (occ : List (Int × Int)) : Prop := ∀ p ∈ occ, p.1 < p.2 ∧ p.2 ≤ capacity

private theorem sweep_inside {occ : List (Int × Int)} (hfit : Fits capacity occ) (cursor : Int) :
    ∀ run ∈ sweep block capacity cursor occ,
      run.block = block ∧ 0 < run.length ∧ cursor ≤ run.start ∧ run.stop ≤ capacity := by
  induction occ generalizing cursor with
  | nil =>
    intro run hr
    unfold sweep at hr
    split at hr
    · rw [List.mem_singleton.1 hr]
      refine ⟨rfl, ?_, le_refl _, ?_⟩ <;> simp only [stop] <;> omega
    · cases hr
  | cons p occ ih =>
    obtain ⟨lo, hi⟩ := p
    have hp := hfit (lo, hi) (List.mem_cons_self ..)
    intro run hr
    unfold sweep at hr
    rcases List.mem_append.1 hr with hr | hr
    · split at hr
      · rw [List.mem_singleton.1 hr]
        refine ⟨rfl, ?_, le_refl _, ?_⟩ <;> simp only [stop] at * <;> omega
      · cases hr
    · obtain ⟨hb, hl, hc, hs⟩ := ih (fun q hq => hfit q (List.mem_cons_of_mem _ hq)) _ run hr
      exact ⟨hb, hl, (le_max_left _ _).trans hc, hs⟩

private theorem sweep_apart {occ : List (Int × Int)} (hfit : Fits capacity occ) (cursor : Int) :
    (sweep block capacity cursor occ).Pairwise Apart := by
  induction occ generalizing cursor with
  | nil =>
    unfold sweep
    split
    · exact List.pairwise_singleton _ _
    · exact List.Pairwise.nil
  | cons p occ ih =>
    obtain ⟨lo, hi⟩ := p
    have hp := hfit (lo, hi) (List.mem_cons_self ..)
    have hrest : Fits capacity occ := fun q hq => hfit q (List.mem_cons_of_mem _ hq)
    unfold sweep
    refine List.pairwise_append.2 ⟨?_, ih hrest _, ?_⟩
    · split
      · exact List.pairwise_singleton _ _
      · exact List.Pairwise.nil
    · -- the next run starts at `hi` or later, and `lo < hi`
      intro s hs t ht _
      split at hs
      · obtain ⟨-, -, hc, -⟩ := sweep_inside hrest _ t ht
        have hmax := le_max_right cursor hi
        rw [List.mem_singleton.1 hs]
        left
        simp only [stop] at *
        omega
      · cases hs

/-- Every position from the cursor on is in a run or in one of the intervals, never in both. -/
private theorem free_sweep {occ : List (Int × Int)} (hfit : Fits capacity occ)
    (hsort : occ.Pairwise pairOrder) (cursor : Int) (b : BlockId) (x : Int) :
    Free (sweep block capacity cursor occ) b x ↔
      b = block ∧ cursor ≤ x ∧ x < capacity ∧ ∀ p ∈ occ, ¬ (p.1 ≤ x ∧ x < p.2) := by
  induction occ generalizing cursor with
  | nil =>
    unfold sweep
    split
    · rw [free_singleton]
      simp only [Covers, stop, List.not_mem_nil, false_implies, implies_true, and_true]
      constructor
      · rintro ⟨rfl, h1, h2⟩; exact ⟨rfl, h1, by omega⟩
      · rintro ⟨rfl, h1, h2⟩; exact ⟨rfl, h1, by omega⟩
    · constructor
      · rintro ⟨_, h, _⟩; cases h
      · rintro ⟨-, h1, h2, -⟩; omega
  | cons p occ ih =>
    obtain ⟨lo, hi⟩ := p
    obtain ⟨hlt, hcap⟩ := hfit (lo, hi) (List.mem_cons_self ..)
    rw [List.pairwise_cons] at hsort
    unfold sweep
    rw [free_append, ih (fun q hq => hfit q (List.mem_cons_of_mem _ hq)) hsort.2]
    have hhead : Free (if cursor < lo then [(⟨block, cursor, lo - cursor⟩ : Run)] else []) b x ↔
        b = block ∧ cursor ≤ x ∧ x < lo := by
      split
      · rw [free_singleton]
        simp only [Covers, stop]
        constructor
        · rintro ⟨rfl, h1, h2⟩; exact ⟨rfl, h1, by omega⟩
        · rintro ⟨rfl, h1, h2⟩; exact ⟨rfl, h1, by omega⟩
      · constructor
        · rintro ⟨_, h, _⟩; cases h
        · rintro ⟨-, h1, h2⟩; omega
    rw [hhead]
    simp only at hlt hcap
    constructor
    · rintro (⟨rfl, h1, h2⟩ | ⟨rfl, h1, h2, h3⟩)
      · refine ⟨rfl, h1, by omega, ?_⟩
        intro q hq
        rcases List.mem_cons.1 hq with rfl | hq
        · simp only; omega
        · have := hsort.1 q hq
          unfold pairOrder at this
          omega
      · refine ⟨rfl, (le_max_left _ _).trans h1, h2, ?_⟩
        intro q hq
        rcases List.mem_cons.1 hq with rfl | hq
        · have := (le_max_right cursor hi).trans h1
          simp only; omega
        · exact h3 q hq
    · rintro ⟨rfl, h1, h2, h3⟩
      have hp := h3 (lo, hi) (List.mem_cons_self ..)
      simp only at hp
      by_cases hx : x < lo
      · exact .inl ⟨rfl, h1, hx⟩
      · exact .inr ⟨rfl, max_le h1 (by omega), h2, fun q hq => h3 q (List.mem_cons_of_mem _ hq)⟩

end Sweep

/-! ### The written zone -/

/-- What a rebuild reads: distinct blocks, and holds that lie inside their blocks. -/
structure Rebuildable (blocks : List SeatBlock) (held : List SeatHold) : Prop where
  ids : (blocks.map SeatBlock.id).Nodup
  fits : ∀ b ∈ blocks, ∀ h ∈ held, h.block = b.id → 0 < h.length ∧ 0 ≤ h.startPos ∧ h.span.stop ≤ b.capacity

section Written

variable {blocks : List SeatBlock} {held : List SeatHold}

private theorem mem_occupied {block : BlockId} {p : Int × Int} :
    p ∈ occupied held block ↔ ∃ h ∈ held, h.block = block ∧ p = (h.startPos, h.startPos + h.length) := by
  simp only [occupied, List.mem_map, List.mem_filter, decide_eq_true_eq]
  constructor
  · rintro ⟨h, ⟨hh, hb⟩, rfl⟩; exact ⟨h, hh, hb, rfl⟩
  · rintro ⟨h, hh, hb, rfl⟩; exact ⟨h, ⟨hh, hb⟩, rfl⟩

private theorem pairwise_insertionSort_pairOrder (l : List (Int × Int)) :
    (l.insertionSort pairOrder).Pairwise pairOrder := by
  have htotal : Std.Total pairOrder := ⟨fun a b => by unfold pairOrder; omega⟩
  have htrans : IsTrans (Int × Int) pairOrder := ⟨fun a b c => by unfold pairOrder; omega⟩
  exact List.pairwise_insertionSort _ _

private theorem fits_sorted (hr : Rebuildable blocks held) {b : SeatBlock} (hb : b ∈ blocks) :
    Fits b.capacity ((occupied held b.id).insertionSort pairOrder) := by
  intro p hp
  rw [List.mem_insertionSort, mem_occupied] at hp
  obtain ⟨h, hh, hbl, rfl⟩ := hp
  obtain ⟨hl, -, hs⟩ := hr.fits b hb h hh hbl
  simp only [SeatHold.span, stop] at hs
  exact ⟨by simp only; omega, hs⟩

private theorem free_blockRuns (hr : Rebuildable blocks held) {b : SeatBlock} (hb : b ∈ blocks) (c : BlockId)
    (x : Int) :
    Free (blockRuns held b) c x ↔ c = b.id ∧ 0 ≤ x ∧ x < b.capacity ∧ ∀ h ∈ held, ¬ h.span.Covers c x := by
  unfold blockRuns
  rw [free_sweep (fits_sorted hr hb) (pairwise_insertionSort_pairOrder _)]
  refine and_congr_right fun hc => and_congr_right fun _ => and_congr_right fun _ => ?_
  subst hc
  constructor
  · rintro hall h hh ⟨hbl, h1, h2⟩
    refine hall (h.startPos, h.startPos + h.length) ?_ ⟨h1, h2⟩
    exact (List.mem_insertionSort _).2 (mem_occupied.2 ⟨h, hh, hbl, rfl⟩)
  · intro hall p hp hx
    rw [List.mem_insertionSort, mem_occupied] at hp
    obtain ⟨h, hh, hbl, rfl⟩ := hp
    exact hall h hh ⟨hbl, hx.1, hx.2⟩

private theorem blockRuns_inside (hr : Rebuildable blocks held) {b : SeatBlock} (hb : b ∈ blocks) {run : Run}
    (hrun : run ∈ blockRuns held b) : run.block = b.id ∧ 0 < run.length ∧ 0 ≤ run.start ∧ run.stop ≤ b.capacity :=
  sweep_inside (fits_sorted hr hb) 0 run hrun

theorem maximalList_rebuiltRuns (hr : Rebuildable blocks held) : MaximalList (rebuiltRuns blocks held) where
  pos := by
    intro run hrun
    obtain ⟨b, hb, hrun⟩ := List.mem_flatMap.1 hrun
    exact (blockRuns_inside hr hb hrun).2.1
  apart := by
    refine List.pairwise_flatMap.2 ⟨fun b hb => sweep_apart (fits_sorted hr hb) 0, ?_⟩
    -- runs of different blocks are apart
    have hne : blocks.Pairwise fun b b' => b.id ≠ b'.id := List.pairwise_map.1 hr.ids
    refine hne.imp_of_mem fun {b b'} hb hb' hids s hs t ht hst => ?_
    rw [(blockRuns_inside hr hb hs).1, (blockRuns_inside hr hb' ht).1] at hst
    exact absurd hst hids

/-- The runs of a rebuild are the positions of the blocks that no hold covers. -/
theorem free_rebuiltRuns (hr : Rebuildable blocks held) (c : BlockId) (x : Int) :
    Free (rebuiltRuns blocks held) c x ↔
      (∃ b ∈ blocks, c = b.id ∧ 0 ≤ x ∧ x < b.capacity) ∧ ∀ h ∈ held, ¬ h.span.Covers c x := by
  unfold rebuiltRuns
  rw [free_flatMap]
  constructor
  · rintro ⟨b, hb, hfree⟩
    obtain ⟨hc, h0, hcap, hno⟩ := (free_blockRuns hr hb c x).1 hfree
    exact ⟨⟨b, hb, hc, h0, hcap⟩, hno⟩
  · rintro ⟨⟨b, hb, hc, h0, hcap⟩, hno⟩
    exact ⟨b, hb, (free_blockRuns hr hb c x).2 ⟨hc, h0, hcap, hno⟩⟩

/-- In a maximal list the start, and likewise the stop, of a run determines it. -/
theorem nodup_fields {l : List Run} (hl : MaximalList l) :
    (l.map fun r => (⟨r.block, r.start⟩ : Field)).Nodup ∧ (l.map fun r => (⟨r.block, r.stop⟩ : Field)).Nodup := by
  constructor <;> refine List.pairwise_map.2 (hl.apart.imp_of_mem fun {s t} hs ht hst hEq => ?_) <;>
    (simp only [Field.mk.injEq] at hEq
     have h1 := hl.pos s hs
     have h2 := hl.pos t ht
     rcases hst hEq.1 with h | h <;> simp only [stop] at * <;> omega)

variable (z : ZoneKeys)

theorem mem_parseRuns_rebuilt (hr : Rebuildable blocks held) (run : Run) :
    run ∈ (z.rebuilt blocks held).parseRuns ↔ run ∈ rebuiltRuns blocks held := by
  rw [ZoneKeys.mem_parseRuns]
  show AList.lookup _ (Hash.ofList _) = _ ↔ _
  rw [Hash.lookup_ofList (by simpa [Function.comp_def] using (nodup_fields (maximalList_rebuiltRuns hr)).1)]
  simp only [List.mem_map, Prod.mk.injEq, Field.mk.injEq]
  constructor
  · rintro ⟨r, hrun, ⟨hb, hs⟩, hl⟩
    obtain rfl : r = run := by cases r; cases run; simp only [Span.mk.injEq] at *; exact ⟨hb, hs, hl⟩
    exact hrun
  · exact fun h => ⟨run, h, ⟨rfl, rfl⟩, rfl⟩

theorem lookup_geom_rebuilt_iff (hr : Rebuildable blocks held) {c : BlockId} {g : PackedGeometry} :
    (z.rebuilt blocks held).geom.lookup c = some g ↔
      ∃ b ∈ blocks, b.id = c ∧ g = ⟨b.capacity, b.qualityBase, b.qualityEdge⟩ := by
  show AList.lookup _ (Hash.ofList _) = _ ↔ _
  rw [Hash.lookup_ofList (by simpa [Function.comp_def] using hr.ids), List.mem_map]
  simp only [Prod.mk.injEq]
  exact exists_congr fun b => and_congr_right fun _ => and_congr_right fun _ => eq_comm

theorem lookup_geom_rebuilt (hr : Rebuildable blocks held) {b : SeatBlock} (hb : b ∈ blocks) :
    (z.rebuilt blocks held).geom.lookup b.id = some ⟨b.capacity, b.qualityBase, b.qualityEdge⟩ :=
  (lookup_geom_rebuilt_iff z hr).2 ⟨b, hb, rfl, rfl⟩

/-- A rebuild writes a zone that satisfies the zone invariant. -/
theorem zoneInv_rebuilt (hr : Rebuildable blocks held) : ZoneInv (z.rebuilt blocks held) where
  maximal := by
    have hmem : ∀ run, run ∈ (z.rebuilt blocks held).parseRuns ↔ run ∈ rebuiltRuns blocks held :=
      mem_parseRuns_rebuilt z hr
    have hmax := (maximalList_rebuiltRuns hr).maximal
    refine Maximal.maximalList ⟨fun s hs => hmax.pos s ((hmem s).1 hs), ?_⟩ (ZoneKeys.nodup_parseRuns _)
    exact fun s t hs ht => hmax.apart s t ((hmem s).1 hs) ((hmem t).1 ht)
  inside := by
    intro run hrun
    obtain ⟨b, hb, hrun⟩ := List.mem_flatMap.1 ((mem_parseRuns_rebuilt z hr run).1 hrun)
    obtain ⟨hbl, -, h0, hcap⟩ := blockRuns_inside hr hb hrun
    exact ⟨_, hbl ▸ lookup_geom_rebuilt z hr hb, h0, hcap⟩
  ends := by
    intro block stop start
    show AList.lookup _ (Hash.ofList _) = _ ↔ _
    rw [Hash.lookup_ofList (by simpa [Function.comp_def] using (nodup_fields (maximalList_rebuiltRuns hr)).2)]
    simp only [List.mem_map, Prod.mk.injEq, Field.mk.injEq, mem_parseRuns_rebuilt z hr, and_assoc]
  counter := by
    rw [ZoneKeys.remaining_eq_total]
    show (some ((rebuiltRuns blocks held).map Span.length).sum).getD 0 = Hash.total (Hash.ofList _)
    rw [Hash.total_ofList (by simpa [Function.comp_def] using (nodup_fields (maximalList_rebuiltRuns hr)).1)]
    simp [Function.comp_def]

theorem free_rebuilt (hr : Rebuildable blocks held) (c : BlockId) (x : Int) :
    Free (z.rebuilt blocks held).parseRuns c x ↔
      (∃ b ∈ blocks, c = b.id ∧ 0 ≤ x ∧ x < b.capacity) ∧ ∀ h ∈ held, ¬ h.span.Covers c x := by
  rw [← free_rebuiltRuns hr]
  constructor
  · rintro ⟨r, hr', hc⟩; exact ⟨r, (mem_parseRuns_rebuilt z hr r).1 hr', hc⟩
  · rintro ⟨r, hr', hc⟩; exact ⟨r, (mem_parseRuns_rebuilt z hr r).2 hr', hc⟩

end Written

end Ticketing
