import Mathlib.Data.List.Basic
import Mathlib.Data.Rat.Defs
import Mathlib.Algebra.Order.Ring.Rat
import Mathlib.Tactic.NormNum
import Mathlib.Tactic.Positivity
import Mathlib.Tactic.Linarith
import Ticketing.Base.Inserts
import Ticketing.Base.Traverse
import Ticketing.SeatLabels

/-!
# Building a seat map

`seed_venue` of `app/scripts/seed_venue.py` writes the zones, blocks and seats of a venue from a declarative
description.  The constraints of the tables (`app/models/seating.py`) end the transaction, and so do a venue
name that is taken, a labeller whose groups do not match the blocks, and a value that does not fit its column.
Ids are drawn from sequences, which are taken to be endless.

Everything behind it (the free runs, the holds, the printed tickets) relies on `pos` being dense: the seats of
a block are the positions `0, …, capacity - 1`.  No constraint says so; the seeder makes it so.
-/

namespace Ticketing

open Inserts Traverse

/-! ### The description -/

/-- `RowSpec`: the sizes of the blocks that the aisles cut the row into. -/
structure RowSpec where
  label : String
  blocks : List Nat
deriving DecidableEq, Repr

/-- `Labeller`; `none` is a call that raises. -/
abbrev Labeller := List Nat → Option (List (List String))

structure ZoneSpec where
  name : String
  displayOrder : Int
  rows : List RowSpec
  qualityFront : ℚ := 1
  qualityBack : ℚ := 3 / 5
  sidePenalty : ℚ := 1 / 5
  labeller : Labeller := fun blocks => some (sequentialLabels blocks)

structure VenueSpec where
  name : String
  zones : List ZoneSpec

def VenueSpec.totalSeats (spec : VenueSpec) : Nat :=
  (spec.zones.map fun zone => (zone.rows.map fun row => row.blocks.sum).sum).sum

/-- `EDGE_RATIO`. -/
def edgeRatio : ℚ := 1 / 2

/-- `quality_base`: how far back the row is, times how far from its centre the block is. -/
def qualityBase (zone : ZoneSpec) (rowIndex blockIndex : Nat) (blocks : List Nat) : ℚ :=
  let rows : ℚ := max 1 ((zone.rows.length : ℚ) - 1)
  let depth := zone.qualityFront + (zone.qualityBack - zone.qualityFront) * (rowIndex / rows)
  let rowCenter : ℚ := ((blocks.sum : ℚ) - 1) / 2
  let blockCenter : ℚ := (blocks.take blockIndex).sum + (((blocks[blockIndex]?).getD 0 : ℚ) - 1) / 2
  let offset := |blockCenter - rowCenter| / max rowCenter (1 / 1000000000)
  min 1 (max (1 / 20) (depth * (1 - zone.sidePenalty * min 1 offset)))

/-! ### The tables -/

structure VenueRow where
  id : Nat
  name : String
deriving DecidableEq, Repr

structure ZoneRow where
  id : Nat
  venue : Nat
  name : String
  displayOrder : Int
deriving DecidableEq, Repr

structure BlockRow where
  id : Nat
  zone : Nat
  rowLabel : String
  blockIndex : Nat
  capacity : Nat
  qualityBase : ℚ
  qualityEdge : ℚ
deriving DecidableEq

structure Seat where
  block : Nat
  pos : Nat
  label : String
deriving DecidableEq, Repr

/-- `uq_zones_venue_name`. -/
def ZoneRow.Agree (z z' : ZoneRow) : Prop := ¬(z.venue = z'.venue ∧ z.name = z'.name)

/-- `ck_seat_blocks_capacity_pos` and `ck_seat_blocks_quality_range`. -/
def BlockRow.Checked (b : BlockRow) : Prop :=
  0 < b.capacity ∧ 0 ≤ b.qualityEdge ∧ b.qualityEdge ≤ b.qualityBase ∧ b.qualityBase ≤ 1

/-- `uq_seat_blocks_pos`. -/
def BlockRow.Agree (b b' : BlockRow) : Prop :=
  ¬(b.zone = b'.zone ∧ b.rowLabel = b'.rowLabel ∧ b.blockIndex = b'.blockIndex)

/-- `uq_seats_block_pos` and `uq_seats_block_label`. -/
def Seat.Agree (s s' : Seat) : Prop := ¬(s.block = s'.block ∧ (s.pos = s'.pos ∨ s.label = s'.label))

instance : DecidableRel ZoneRow.Agree := fun z z' => by unfold ZoneRow.Agree; infer_instance
instance : DecidablePred BlockRow.Checked := fun b => by unfold BlockRow.Checked; infer_instance
instance : DecidableRel BlockRow.Agree := fun b b' => by unfold BlockRow.Agree; infer_instance
instance : DecidableRel Seat.Agree := fun s s' => by unfold Seat.Agree; infer_instance

instance : Std.Symm ZoneRow.Agree := ⟨fun _ _ h hclash => h ⟨hclash.1.symm, hclash.2.symm⟩⟩
instance : Std.Symm BlockRow.Agree := ⟨fun _ _ h hclash => h ⟨hclash.1.symm, hclash.2.1.symm, hclash.2.2.symm⟩⟩

structure SeatTables where
  venues : List VenueRow := []
  zones : List ZoneRow := []
  blocks : List BlockRow := []
  seats : List Seat := []
  venueSeq : Nat := 0
  zoneSeq : Nat := 0
  blockSeq : Nat := 0

/-! ### Columns -/

/-- What a `VARCHAR(n)` stores of a text.  Characters beyond `n` are an error unless they are blanks, which
are cut, and no text holds a NUL. -/
def varchar (n : Nat) (text : String) : Option String :=
  if (text.toList.drop n).all (· = ' ') ∧ Char.ofNat 0 ∉ text.toList then some
    (String.ofList (text.toList.take n)) else none

/-- The largest `INTEGER`. -/
def maxInteger : Nat := 2147483647

/-- What `row_label`, `block_index` and `capacity` store of a row that has blocks. -/
def RowSpec.stored (row : RowSpec) : Option RowSpec :=
  if row.blocks = [] then some row
  else if row.blocks.length ≤ maxInteger + 1 ∧ ∀ size ∈ row.blocks, size ≤ maxInteger then
    (varchar 8 row.label).map fun label => { row with label }
  else none

/-- What `label` and `pos` store of the labels. -/
def Labeller.stored (labeller : Labeller) : Labeller := fun blocks =>
  (labeller blocks).bind fun groups =>
    if ∀ labels ∈ groups, labels.length ≤ maxInteger + 1 then groups.mapM fun labels =>
      labels.mapM (varchar 16) else none

def ZoneSpec.stored (zone : ZoneSpec) : Option ZoneSpec :=
  if -(maxInteger + 1 : Int) ≤ zone.displayOrder ∧ zone.displayOrder ≤ maxInteger then
    (varchar 64 zone.name).bind fun name =>
    (zone.rows.mapM RowSpec.stored).map fun rows => { zone with name, rows, labeller := zone.labeller.stored }
  else none

/-- The description as its columns store it.  A value that does not fit is refused when its row is inserted,
which rolls everything back, so it is as if it were refused at once. -/
def VenueSpec.stored (spec : VenueSpec) : Option VenueSpec :=
  (varchar 255 spec.name).bind fun name => (spec.zones.mapM ZoneSpec.stored).map fun zones => { name, zones }

/-! ### The seeder -/

/-- An entry of `pending`: a block and its labels. -/
structure PendingBlock where
  rowLabel : String
  blockIndex : Nat
  size : Nat
  quality : ℚ
  labels : List String
deriving DecidableEq

/-- The blocks of a row, in the order of `enumerate(zip(row.blocks, label_groups, strict=True))`. -/
def ZoneSpec.rowBlocks (zone : ZoneSpec) (rowIndex : Nat) (row : RowSpec) : Option (List PendingBlock) :=
  (zone.labeller row.blocks).bind fun groups =>
    if groups.length = row.blocks.length then
      some ((row.blocks.zip groups).zipIdx.map fun x =>
        ⟨row.label, x.2, x.1.1, Ticketing.qualityBase zone rowIndex x.2 row.blocks, x.1.2⟩)
    else none

/-- The blocks of the rows from the given index on. -/
def ZoneSpec.rowsFrom (zone : ZoneSpec) : Nat → List RowSpec → Option (List PendingBlock)
  | _, [] => some []
  | rowIndex, row :: rows => (zone.rowBlocks rowIndex row).bind fun here =>
    (zone.rowsFrom (rowIndex + 1) rows).map fun rest => here ++ rest

/-- The rows of `seat_blocks`, with the ids from `first` on. -/
def blockRows (zone first : Nat) (pending : List PendingBlock) : List BlockRow :=
  (pending.zipIdx first).map fun x =>
    ⟨x.2, zone, x.1.rowLabel, x.1.blockIndex, x.1.size, x.1.quality, x.1.quality * edgeRatio⟩

/-- The rows of `seats` of one block, in the order of `enumerate(labels)`. -/
def labelSeats (block : Nat) (labels : List String) : List Seat := labels.zipIdx.map fun x => ⟨block, x.2, x.1⟩

def seatRows (first : Nat) (pending : List PendingBlock) : List Seat :=
  (pending.zipIdx first).flatMap fun x => labelSeats x.2 x.1.labels

/-- One turn of the loop over the zones. -/
def seedZone (venue : Nat) (t : SeatTables) (zone : ZoneSpec) : Option SeatTables :=
  (zone.rowsFrom 0 zone.rows).bind fun pending =>
  (insertRows (fun _ => True) ZoneRow.Agree
    [⟨t.zoneSeq, venue, zone.name, zone.displayOrder⟩] t.zones).bind fun zones =>
  (insertRows BlockRow.Checked BlockRow.Agree (blockRows t.zoneSeq t.blockSeq pending) t.blocks).bind fun blocks =>
  (insertRows (fun _ => True) Seat.Agree (seatRows t.blockSeq pending) t.seats).map fun seats =>
    { t with zones, blocks, seats, zoneSeq := t.zoneSeq + 1, blockSeq := t.blockSeq + pending.length }

/-- The zones of a venue, one after the other. -/
def seedZones (venue : Nat) (t : SeatTables) : List ZoneSpec → Option SeatTables
  | [] => some t
  | zone :: zones => (seedZone venue t zone).bind fun t => seedZones venue t zones

/-- The inserts of `seed_venue`; the first of them breaks the unique constraint where the name is taken. -/
def insertVenue (t : SeatTables) (spec : VenueSpec) : Option SeatTables :=
  if t.venues.any fun v => v.name = spec.name then none
  else seedZones t.venueSeq
    { t with venues := t.venues ++ [⟨t.venueSeq, spec.name⟩], venueSeq := t.venueSeq + 1 } spec.zones

/-- `seed_venue`; `none` is a rollback. -/
def seedVenue (t : SeatTables) (spec : VenueSpec) : Option SeatTables :=
  -- the name is looked up as it is given
  if t.venues.any fun v => v.name = spec.name then none else spec.stored.bind (insertVenue t)

/-- The labels of a row fit: each block has as many as it has seats, and none twice. -/
def Labeller.Fits (labeller : Labeller) (blocks : List Nat) : Prop :=
  ∃ groups, labeller blocks = some groups ∧ groups.map List.length = blocks ∧ ∀ labels ∈ groups, labels.Nodup

instance (labeller : Labeller) (blocks : List Nat) : Decidable (labeller.Fits blocks) :=
  match h : labeller blocks with
  | none => .isFalse (by simp [Labeller.Fits, h])
  | some groups =>
      decidable_of_iff (groups.map List.length = blocks ∧ ∀ labels ∈ groups, labels.Nodup)
      (by simp [Labeller.Fits, h])

/-! ### The blocks of a row -/

theorem qualityBase_range (zone : ZoneSpec) (rowIndex blockIndex : Nat) (blocks : List Nat) :
    0 ≤ qualityBase zone rowIndex blockIndex blocks ∧ qualityBase zone rowIndex blockIndex blocks ≤ 1 := by
  unfold qualityBase
  refine ⟨le_min (by norm_num) (le_trans (by norm_num) (le_max_left ..)), min_le_left ..⟩

/-- Two blocks of a zone that the unique constraint lets stand together. -/
def PendingBlock.Agree (p q : PendingBlock) : Prop := ¬(p.rowLabel = q.rowLabel ∧ p.blockIndex = q.blockIndex)

/-- What the labels and the quality of a block have. -/
structure PendingBlock.Fine (p : PendingBlock) : Prop where
  length : p.labels.length = p.size
  nodup : p.labels.Nodup
  quality : 0 ≤ p.quality ∧ p.quality ≤ 1

/-- What the blocks of a row are. -/
structure RowBlocks (row : RowSpec) (pending : List PendingBlock) : Prop where
  label : ∀ p ∈ pending, p.rowLabel = row.label
  index : pending.map PendingBlock.blockIndex = List.range row.blocks.length
  size : pending.map PendingBlock.size = row.blocks
  fine : ∀ p ∈ pending, p.Fine

theorem rowBlocks_of_fits {zone : ZoneSpec} {row : RowSpec} (hfits : zone.labeller.Fits row.blocks) (rowIndex : Nat) :
    ∃ pending, zone.rowBlocks rowIndex row = some pending ∧ RowBlocks row pending := by
  obtain ⟨groups, hgroups, hsizes, hnodup⟩ := hfits
  have hlength : groups.length = row.blocks.length := by rw [← hsizes, List.length_map]
  refine ⟨_, by rw [ZoneSpec.rowBlocks, hgroups, Option.bind_some, if_pos hlength], ?_⟩
  constructor
  · intro p hp
    obtain ⟨x, -, rfl⟩ := List.mem_map.1 hp
    rfl
  · rw [List.map_map]
    have hzip : ((row.blocks.zip groups).zipIdx.map Prod.snd) = List.range row.blocks.length := by
      rw [List.zipIdx_map_snd, List.length_zip, hlength, Nat.min_self, List.range_eq_range']
    exact hzip
  · rw [List.map_map]
    have hzip : ((row.blocks.zip groups).zipIdx.map fun x => x.1.1) = row.blocks := by
      rw [show (fun x : (Nat × List String) × Nat => x.1.1) = Prod.fst ∘ Prod.fst from rfl, ← List.map_map,
        List.zipIdx_map_fst, List.map_fst_zip (by omega)]
    exact hzip
  · intro p hp
    obtain ⟨x, hx, rfl⟩ := List.mem_map.1 hp
    have hmem : x.1 ∈ row.blocks.zip groups := by
      rw [← List.zipIdx_map_fst 0 (row.blocks.zip groups)]
      exact List.mem_map_of_mem hx
    obtain ⟨i, hi, hget⟩ := List.getElem_of_mem hmem
    rw [List.length_zip] at hi
    have hi' : i < groups.length := by omega
    have hsize : groups[i].length = x.1.1 := by
      have hb : row.blocks[i] = x.1.1 := by simpa using congrArg Prod.fst hget
      rw [← hb]
      simp only [← hsizes, List.getElem_map]
    have hlabels : groups[i] = x.1.2 := by simpa using congrArg Prod.snd hget
    exact ⟨hlabels ▸ hsize, hlabels ▸ hnodup _ (List.getElem_mem hi'), qualityBase_range ..⟩

/-! ### The blocks of a zone -/

/-- No two rows that have blocks share their label. -/
def ZoneSpec.RowsDistinct (rows : List RowSpec) : Prop :=
  ((rows.filter fun row => row.blocks ≠ []).map RowSpec.label).Nodup

/-- What the blocks of the rows are. -/
structure ZoneBlocks (rows : List RowSpec) (pending : List PendingBlock) : Prop where
  row : ∀ p ∈ pending, ∃ row ∈ rows, row.blocks ≠ [] ∧ p.rowLabel = row.label
  first : ∀ row ∈ rows, row.blocks ≠ [] → ∃ p ∈ pending, p.rowLabel = row.label ∧ p.blockIndex = 0
  size : pending.map PendingBlock.size = rows.flatMap RowSpec.blocks
  fine : ∀ p ∈ pending, p.Fine
  agree : pending.Pairwise PendingBlock.Agree ↔ ZoneSpec.RowsDistinct rows

private theorem RowBlocks.agree {row : RowSpec} {pending : List PendingBlock} (h : RowBlocks row pending) :
    pending.Pairwise PendingBlock.Agree := by
  have hnodup : (pending.map PendingBlock.blockIndex).Nodup := h.index ▸ List.nodup_range
  refine (List.pairwise_map.1 hnodup).imp ?_
  intro p q hne hpq
  exact hne hpq.2

private theorem RowBlocks.exists_first {row : RowSpec} {pending : List PendingBlock} (h : RowBlocks row pending)
    (hrow : row.blocks ≠ []) : ∃ p ∈ pending, p.rowLabel = row.label ∧ p.blockIndex = 0 := by
  have hpos : 0 < row.blocks.length := List.length_pos_of_ne_nil hrow
  have hmem : 0 ∈ pending.map PendingBlock.blockIndex := by
    rw [h.index]
    exact List.mem_range.2 hpos
  obtain ⟨p, hp, hindex⟩ := List.mem_map.1 hmem
  exact ⟨p, hp, h.label p hp, hindex⟩

theorem zoneBlocks_of_fits {zone : ZoneSpec} {rows : List RowSpec}
    (hfits : ∀ row ∈ rows, zone.labeller.Fits row.blocks) (rowIndex : Nat) :
    ∃ pending, zone.rowsFrom rowIndex rows = some pending ∧ ZoneBlocks rows pending := by
  induction rows generalizing rowIndex with
  | nil => exact ⟨[], rfl, by constructor <;> simp [ZoneSpec.RowsDistinct]⟩
  | cons row rows ih =>
    obtain ⟨here, hhere, hr⟩ := rowBlocks_of_fits (hfits row (List.mem_cons_self ..)) rowIndex
    obtain ⟨rest, hrest, hz⟩ := ih (fun r hr => hfits r (List.mem_cons_of_mem _ hr)) (rowIndex + 1)
    have hblocks : ∀ p ∈ here, row.blocks ≠ [] := by
      intro p hp hnil
      have hlength := congrArg List.length hr.size
      rw [hnil, List.length_map, List.length_nil] at hlength
      rw [List.eq_nil_of_length_eq_zero hlength] at hp
      cases hp
    refine ⟨here ++ rest, by rw [ZoneSpec.rowsFrom, hhere, Option.bind_some, hrest, Option.map_some], ?_⟩
    constructor
    · intro p hp
      rcases List.mem_append.1 hp with hp | hp
      · exact ⟨row, List.mem_cons_self .., hblocks p hp, hr.label p hp⟩
      · obtain ⟨r, hmem, hne, hlabel⟩ := hz.row p hp
        exact ⟨r, List.mem_cons_of_mem _ hmem, hne, hlabel⟩
    · intro r hmem hne
      rcases List.mem_cons.1 hmem with rfl | hmem
      · obtain ⟨p, hp, hlabel, hindex⟩ := hr.exists_first hne
        exact ⟨p, List.mem_append_left _ hp, hlabel, hindex⟩
      · obtain ⟨p, hp, hlabel, hindex⟩ := hz.first r hmem hne
        exact ⟨p, List.mem_append_right _ hp, hlabel, hindex⟩
    · rw [List.map_append, hr.size, hz.size, List.flatMap_cons]
    · intro p hp
      rcases List.mem_append.1 hp with hp | hp
      · exact hr.fine p hp
      · exact hz.fine p hp
    · rw [List.pairwise_append, hz.agree]
      by_cases hrow : row.blocks = []
      · have hnil : here = [] := by
          have hlength := congrArg List.length hr.size
          rw [hrow, List.length_map, List.length_nil] at hlength
          exact List.eq_nil_of_length_eq_zero hlength
        simp [hnil, ZoneSpec.RowsDistinct, hrow]
      · have hcons : ZoneSpec.RowsDistinct (row :: rows) ↔
            (∀ r ∈ rows, r.blocks ≠ [] → r.label ≠ row.label) ∧ ZoneSpec.RowsDistinct rows := by
          simp [ZoneSpec.RowsDistinct, hrow]
        rw [hcons]
        refine ⟨fun h => ⟨fun r hmem hne hlabel => ?_, h.2.1⟩, fun h => ⟨hr.agree, h.2, fun p hp q hq hpq => ?_⟩⟩
        · -- the first blocks of the two rows clash
          obtain ⟨p, hp, hpl, hpi⟩ := hr.exists_first hrow
          obtain ⟨q, hq, hql, hqi⟩ := hz.first r hmem hne
          exact h.2.2 p hp q hq ⟨hpl.trans (hlabel.symm.trans hql.symm), hpi.trans hqi.symm⟩
        · obtain ⟨r, hmem, hne, hlabel⟩ := hz.row q hq
          exact h.1 r hmem hne (hlabel.symm.trans (hpq.1.symm.trans (hr.label p hp)))

/-! ### The rows that are written -/

private theorem pairwise_zipIdx {α : Type*} {R : α → α → Prop} (l : List α) (n : Nat) :
    ((l.zipIdx n).Pairwise fun x y => R x.1 y.1) ↔ l.Pairwise R := by
  conv => rhs; rw [← List.zipIdx_map_fst n l, List.pairwise_map]

private theorem nodup_snd_zipIdx {α : Type*} (l : List α) (n : Nat) : (l.zipIdx n).Pairwise fun x y => x.2 ≠ y.2 := by
  have hnodup : ((l.zipIdx n).map Prod.snd).Nodup := List.zipIdx_map_snd n l ▸ List.nodup_range'
  exact List.pairwise_map.1 hnodup

/-- The ids drawn for the rows. -/
private theorem snd_mem_zipIdx {α : Type*} {l : List α} {n : Nat} {x : α × Nat} (hx : x ∈ l.zipIdx n) :
    n ≤ x.2 ∧ x.2 < n + l.length ∧ x.1 ∈ l := by
  obtain ⟨i, hi, hget⟩ := List.getElem_of_mem hx
  rw [List.length_zipIdx] at hi
  rw [List.getElem_zipIdx] at hget
  rw [← hget]
  exact ⟨by omega, by omega, List.getElem_mem hi⟩

theorem pairwise_blockRows {zone first : Nat} {pending : List PendingBlock} :
    (blockRows zone first pending).Pairwise BlockRow.Agree ↔ pending.Pairwise PendingBlock.Agree := by
  rw [blockRows, List.pairwise_map, ← pairwise_zipIdx pending first]
  refine List.Pairwise.iff fun x y => ?_
  simp [BlockRow.Agree, PendingBlock.Agree]

theorem checked_blockRows {zone first : Nat} {pending : List PendingBlock} (hfine : ∀ p ∈ pending, p.Fine) :
    (∀ b ∈ blockRows zone first pending, b.Checked) ↔ ∀ size ∈ pending.map PendingBlock.size, 0 < size := by
  have hquality : ∀ p ∈ pending, 0 ≤ p.quality * edgeRatio ∧ p.quality * edgeRatio ≤ p.quality ∧ p.quality ≤ 1 := by
    intro p hp
    obtain ⟨hlow, hhigh⟩ := (hfine p hp).quality
    unfold edgeRatio
    refine ⟨by positivity, by linarith, hhigh⟩
  constructor
  · intro h size hsize
    obtain ⟨p, hp, rfl⟩ := List.mem_map.1 hsize
    have hmem : p ∈ (pending.zipIdx first).map Prod.fst := by rwa [List.zipIdx_map_fst]
    obtain ⟨x, hx, rfl⟩ := List.mem_map.1 hmem
    exact (h _ (List.mem_map_of_mem hx)).1
  · intro h b hb
    obtain ⟨x, hx, rfl⟩ := List.mem_map.1 hb
    have hp := (snd_mem_zipIdx hx).2.2
    exact ⟨h _ (List.mem_map_of_mem hp), hquality x.1 hp⟩

theorem block_labelSeats {block : Nat} {labels : List String} {s : Seat} (hs : s ∈ labelSeats block labels) :
    s.block = block := by
  obtain ⟨x, -, rfl⟩ := List.mem_map.1 hs
  rfl

theorem pairwise_labelSeats {block : Nat} {labels : List String} (hnodup : labels.Nodup) :
    (labelSeats block labels).Pairwise Seat.Agree := by
  rw [labelSeats, List.pairwise_map]
  have hlabels : labels.zipIdx.Pairwise fun x y => x.1 ≠ y.1 := (pairwise_zipIdx labels 0).2 hnodup
  refine (hlabels.and (nodup_snd_zipIdx labels 0)).imp ?_
  intro x y hne hclash
  rcases hclash.2 with hpos | hlabel
  · exact hne.2 hpos
  · exact hne.1 hlabel

theorem pairwise_seatRows {first : Nat} {pending : List PendingBlock} (hfine : ∀ p ∈ pending, p.Fine) :
    (seatRows first pending).Pairwise Seat.Agree := by
  rw [seatRows, List.pairwise_flatMap]
  refine ⟨fun x hx => pairwise_labelSeats (hfine x.1 (snd_mem_zipIdx hx).2.2).nodup, ?_⟩
  refine (nodup_snd_zipIdx pending first).imp ?_
  intro x y hne s hs s' hs' hclash
  rw [block_labelSeats hs, block_labelSeats hs'] at hclash
  exact hne hclash.1

theorem block_seatRows {first : Nat} {pending : List PendingBlock} {s : Seat} (hs : s ∈ seatRows first pending) :
    first ≤ s.block ∧ s.block < first + pending.length := by
  obtain ⟨x, hx, hs⟩ := List.mem_flatMap.1 hs
  rw [block_labelSeats hs]
  exact ⟨(snd_mem_zipIdx hx).1, (snd_mem_zipIdx hx).2.1⟩

/-- The seats of one of the blocks that are written. -/
theorem filter_seatRows {first : Nat} {pending : List PendingBlock} {x : PendingBlock × Nat}
    (hx : x ∈ pending.zipIdx first) :
    ((seatRows first pending).filter fun s => s.block = x.2) = labelSeats x.2 x.1.labels := by
  unfold seatRows
  have hids := nodup_snd_zipIdx pending first
  generalize pending.zipIdx first = rows at hx hids
  induction rows with
  | nil => cases hx
  | cons y rows ih =>
    rw [List.pairwise_cons] at hids
    rw [List.flatMap_cons, List.filter_append]
    rcases List.mem_cons.1 hx with rfl | hx
    · have hhere : ((labelSeats x.2 x.1.labels).filter fun s => s.block = x.2) = labelSeats x.2 x.1.labels :=
        List.filter_eq_self.2 fun s hs => by simpa using block_labelSeats hs
      have hrest : ((rows.flatMap fun x => labelSeats x.2 x.1.labels).filter fun s => s.block = x.2) = [] := by
        rw [List.filter_eq_nil_iff]
        intro s hs hblock
        obtain ⟨z, hz, hs⟩ := List.mem_flatMap.1 hs
        rw [block_labelSeats hs, decide_eq_true_eq] at hblock
        exact hids.1 z hz hblock.symm
      rw [hhere, hrest, List.append_nil]
    · have hhere : ((labelSeats y.2 y.1.labels).filter fun s => s.block = x.2) = [] := by
        rw [List.filter_eq_nil_iff]
        intro s hs hblock
        rw [block_labelSeats hs, decide_eq_true_eq] at hblock
        exact hids.1 x hx hblock
      rw [hhere, List.nil_append, ih hx hids.2]

/-! ### What the tables hold -/

/-- A seat map that only the seeder has written: the constraints hold, ids are behind their sequences, and the
seats of a block are its positions, each with a label of its own. -/
structure SeatTables.Sound (t : SeatTables) : Prop where
  venueIds : ∀ v ∈ t.venues, v.id < t.venueSeq
  zoneIds : ∀ z ∈ t.zones, z.id < t.zoneSeq
  zoneVenues : ∀ z ∈ t.zones, z.venue < t.venueSeq
  blockIds : ∀ b ∈ t.blocks, b.id < t.blockSeq
  seatBlocks : ∀ s ∈ t.seats, s.block < t.blockSeq
  zoneNodup : (t.zones.map ZoneRow.id).Nodup
  blockNodup : (t.blocks.map BlockRow.id).Nodup
  blockZones : ∀ b ∈ t.blocks, ∃ z ∈ t.zones, z.id = b.zone
  zones : t.zones.Pairwise ZoneRow.Agree
  blocks : t.blocks.Pairwise BlockRow.Agree
  seats : t.seats.Pairwise Seat.Agree
  checked : ∀ b ∈ t.blocks, b.Checked
  dense : ∀ b ∈ t.blocks, ∃ labels, labels.length = b.capacity ∧ labels.Nodup ∧
    (t.seats.filter fun s => s.block = b.id) = labelSeats b.id labels

theorem SeatTables.Sound.empty : ({} : SeatTables).Sound := by
  constructor <;> simp

/-! ### One zone -/

/-- The rows of a zone can be written: each block has a seat, and no two rows that have blocks share their label. -/
def ZoneSpec.Regular (zone : ZoneSpec) : Prop :=
  ZoneSpec.RowsDistinct zone.rows ∧ ∀ row ∈ zone.rows, ∀ size ∈ row.blocks, 0 < size

/-- The tables with a zone and its blocks and seats. -/
def SeatTables.withZone (t : SeatTables) (venue : Nat) (zone : ZoneSpec) (pending : List PendingBlock) : SeatTables :=
  { t with
    zones := t.zones ++ [⟨t.zoneSeq, venue, zone.name, zone.displayOrder⟩]
    blocks := t.blocks ++ blockRows t.zoneSeq t.blockSeq pending
    seats := t.seats ++ seatRows t.blockSeq pending
    zoneSeq := t.zoneSeq + 1
    blockSeq := t.blockSeq + pending.length }

/-- The seats of a zone. -/
def ZoneSpec.seats (zone : ZoneSpec) : Nat := (zone.rows.map fun row => row.blocks.sum).sum

section Zone

variable {t : SeatTables} {venue : Nat} {zone : ZoneSpec} {pending : List PendingBlock}

theorem seedZone_iff (ht : t.Sound) (hpending : zone.rowsFrom 0 zone.rows = some pending)
    (hb : ZoneBlocks zone.rows pending) {t' : SeatTables} :
    seedZone venue t zone = some t' ↔
      ((∀ z ∈ t.zones, ¬(z.venue = venue ∧ z.name = zone.name)) ∧ zone.Regular) ∧
      t' = t.withZone venue zone pending := by
  have hzones : (∀ x ∈ [(⟨t.zoneSeq, venue, zone.name, zone.displayOrder⟩ : ZoneRow)], True) ∧
      [(⟨t.zoneSeq, venue, zone.name, zone.displayOrder⟩ : ZoneRow)].Pairwise ZoneRow.Agree ∧
      (∀ z ∈ t.zones, ∀ x ∈ [(⟨t.zoneSeq, venue, zone.name, zone.displayOrder⟩ : ZoneRow)], z.Agree x) ↔
      ∀ z ∈ t.zones, ¬(z.venue = venue ∧ z.name = zone.name) := by
    simp [ZoneRow.Agree]
  have hsizes : (∀ size ∈ pending.map PendingBlock.size, 0 < size) ↔ ∀ row ∈ zone.rows,
      ∀ size ∈ row.blocks, 0 < size := by
    rw [hb.size]
    simp only [List.mem_flatMap]
    exact ⟨fun h row hrow size hsize => h size ⟨row, hrow, hsize⟩, fun h size hmem => by
      obtain ⟨row, hrow, hsize⟩ := hmem
      exact h row hrow size hsize⟩
  -- the blocks there are belong to zones with smaller ids, the seats there are to blocks with smaller ids
  have hold : ∀ b ∈ t.blocks, ∀ b' ∈ blockRows t.zoneSeq t.blockSeq pending, b.Agree b' := by
    intro b hmem b' hmem' hclash
    obtain ⟨x, -, rfl⟩ := List.mem_map.1 hmem'
    obtain ⟨z, hz, hid⟩ := ht.blockZones b hmem
    have hlt := ht.zoneIds z hz
    have hzone : b.zone = t.zoneSeq := hclash.1
    omega
  have hseats : ∀ s ∈ t.seats, ∀ s' ∈ seatRows t.blockSeq pending, s.Agree s' := by
    intro s hs s' hs' hclash
    have hlt := ht.seatBlocks s hs
    have hge := (block_seatRows hs').1
    have hblock := hclash.1
    omega
  have hcheck : (∀ b ∈ blockRows t.zoneSeq t.blockSeq pending, b.Checked) ↔
      ∀ size ∈ pending.map PendingBlock.size, 0 < size :=
    checked_blockRows hb.fine
  have hpair : (blockRows t.zoneSeq t.blockSeq pending).Pairwise BlockRow.Agree ↔
      pending.Pairwise PendingBlock.Agree :=
    pairwise_blockRows
  simp only [seedZone, hpending, Option.bind_some, Option.bind_eq_some_iff, Option.map_eq_some_iff,
    insertRows_eq_some_iff, hzones, hcheck, hsizes, hpair, hb.agree, ZoneSpec.Regular]
  constructor
  · intro h
    obtain ⟨zones, ⟨hname, rfl⟩, blocks, ⟨⟨hpos, hrows, -⟩, rfl⟩, seats, ⟨-, rfl⟩, rfl⟩ := h
    exact ⟨⟨hname, hrows, hpos⟩, rfl⟩
  · intro h
    obtain ⟨⟨hname, hrows, hpos⟩, rfl⟩ := h
    exact ⟨_, ⟨hname, rfl⟩, _, ⟨⟨hpos, hrows, hold⟩, rfl⟩, _,
      ⟨⟨fun _ _ => trivial, pairwise_seatRows hb.fine, hseats⟩, rfl⟩, rfl⟩

theorem SeatTables.Sound.withZone (ht : t.Sound) (hvenue : venue < t.venueSeq) (hb : ZoneBlocks zone.rows pending)
    (hname : ∀ z ∈ t.zones, ¬(z.venue = venue ∧ z.name = zone.name)) (hreg : zone.Regular) :
    (t.withZone venue zone pending).Sound where
  venueIds := ht.venueIds
  zoneIds z hz := by
    rcases List.mem_append.1 hz with hz | hz
    · exact (ht.zoneIds z hz).trans (Nat.lt_succ_self _)
    · rw [List.mem_singleton.1 hz]
      exact Nat.lt_succ_self _
  zoneVenues z hz := by
    rcases List.mem_append.1 hz with hz | hz
    · exact ht.zoneVenues z hz
    · rw [List.mem_singleton.1 hz]
      exact hvenue
  blockIds b hmem := by
    rcases List.mem_append.1 hmem with hmem | hmem
    · exact (ht.blockIds b hmem).trans_le (Nat.le_add_right ..)
    · obtain ⟨x, hx, rfl⟩ := List.mem_map.1 hmem
      exact (snd_mem_zipIdx hx).2.1
  seatBlocks s hs := by
    rcases List.mem_append.1 hs with hs | hs
    · exact (ht.seatBlocks s hs).trans_le (Nat.le_add_right ..)
    · exact (block_seatRows hs).2
  zoneNodup := by
    unfold SeatTables.withZone
    rw [List.map_append, List.nodup_append]
    refine ⟨ht.zoneNodup, by simp, ?_⟩
    intro i hi j hj hij
    obtain ⟨z, hz, rfl⟩ := List.mem_map.1 hi
    have hlt := ht.zoneIds z hz
    have hlast : j = t.zoneSeq := by simpa using hj
    omega
  blockNodup := by
    unfold SeatTables.withZone
    rw [List.map_append, List.nodup_append]
    have hids : (blockRows t.zoneSeq t.blockSeq pending).map BlockRow.id = List.range' t.blockSeq pending.length := by
      rw [blockRows, List.map_map, ← List.zipIdx_map_snd t.blockSeq pending]
      rfl
    refine ⟨ht.blockNodup, hids ▸ List.nodup_range', ?_⟩
    intro i hi j hj hij
    obtain ⟨b, hmem, rfl⟩ := List.mem_map.1 hi
    have hlt := ht.blockIds b hmem
    rw [hids, List.mem_range'_1] at hj
    omega
  blockZones b hmem := by
    rcases List.mem_append.1 hmem with hmem | hmem
    · obtain ⟨z, hz, hid⟩ := ht.blockZones b hmem
      exact ⟨z, List.mem_append_left _ hz, hid⟩
    · obtain ⟨x, -, rfl⟩ := List.mem_map.1 hmem
      exact ⟨_, List.mem_append_right _ (List.mem_singleton_self _), rfl⟩
  zones := by
    refine List.pairwise_append.2 ⟨ht.zones, List.pairwise_singleton .., fun z hz z' hz' => ?_⟩
    rw [List.mem_singleton.1 hz']
    exact hname z hz
  blocks := by
    refine List.pairwise_append.2
      ⟨ht.blocks, pairwise_blockRows.2 (hb.agree.2 hreg.1), fun b hmem b' hmem' hclash => ?_⟩
    obtain ⟨x, -, rfl⟩ := List.mem_map.1 hmem'
    obtain ⟨z, hz, hid⟩ := ht.blockZones b hmem
    have hlt := ht.zoneIds z hz
    have hzone : b.zone = t.zoneSeq := hclash.1
    omega
  seats := by
    refine List.pairwise_append.2 ⟨ht.seats, pairwise_seatRows hb.fine, fun s hs s' hs' hclash => ?_⟩
    have hlt := ht.seatBlocks s hs
    have hge := (block_seatRows hs').1
    have hblock := hclash.1
    omega
  checked := by
    have hsizes : ∀ size ∈ pending.map PendingBlock.size, 0 < size := by
      intro size hsize
      rw [hb.size] at hsize
      obtain ⟨row, hrow, hsize⟩ := List.mem_flatMap.1 hsize
      exact hreg.2 row hrow size hsize
    intro b hmem
    rcases List.mem_append.1 hmem with hmem | hmem
    · exact ht.checked b hmem
    · exact (checked_blockRows hb.fine).2 hsizes b hmem
  dense b hmem := by
    have hsplit : (t.withZone venue zone pending).seats = t.seats ++ seatRows t.blockSeq pending := rfl
    rw [hsplit, List.filter_append]
    rcases List.mem_append.1 hmem with hmem | hmem
    · obtain ⟨labels, hlength, hnodup, hfilter⟩ := ht.dense b hmem
      have hnew : ((seatRows t.blockSeq pending).filter fun s => s.block = b.id) = [] := by
        rw [List.filter_eq_nil_iff]
        intro s hs hblock
        have hge := (block_seatRows hs).1
        have hlt := ht.blockIds b hmem
        rw [decide_eq_true_eq] at hblock
        omega
      exact ⟨labels, hlength, hnodup, by rw [hnew, List.append_nil, hfilter]⟩
    · obtain ⟨x, hx, rfl⟩ := List.mem_map.1 hmem
      have hfine := hb.fine x.1 (snd_mem_zipIdx hx).2.2
      have hold : (t.seats.filter fun s => s.block = x.2) = [] := by
        rw [List.filter_eq_nil_iff]
        intro s hs hblock
        have hlt := ht.seatBlocks s hs
        have hge := (snd_mem_zipIdx hx).1
        rw [decide_eq_true_eq] at hblock
        omega
      exact ⟨x.1.labels, hfine.length, hfine.nodup, by rw [hold, List.nil_append, filter_seatRows hx]⟩

private theorem length_seatRows {rows : List RowSpec} {first : Nat} (hb : ZoneBlocks rows pending) :
    (seatRows first pending).length = (rows.map fun row => row.blocks.sum).sum := by
  have hsum : (seatRows first pending).length = (pending.map PendingBlock.size).sum := by
    have hfine := hb.fine
    clear hb
    unfold seatRows
    induction pending generalizing first with
    | nil => rfl
    | cons p pending ih =>
      have hlabels : (labelSeats first p.labels).length = p.size := by
        rw [labelSeats, List.length_map, List.length_zipIdx, (hfine p (List.mem_cons_self ..)).length]
      rw [List.zipIdx_cons, List.flatMap_cons, List.length_append, List.map_cons, List.sum_cons, hlabels,
        ih fun q hq => hfine q (List.mem_cons_of_mem _ hq)]
  rw [hsum, hb.size]
  clear hsum hb
  induction rows with
  | nil => rfl
  | cons row rows ih => rw [List.flatMap_cons, List.sum_append, List.map_cons, List.sum_cons, ih]

end Zone

/-! ### A whole venue -/

/-- The labels of every row fit. -/
def VenueSpec.Fits (zones : List ZoneSpec) : Prop := ∀ zone ∈ zones, ∀ row ∈ zone.rows, zone.labeller.Fits row.blocks

section Venues

variable {t t' : SeatTables} {venue : Nat} {zones : List ZoneSpec}

/-- The zones of a venue are written exactly when their names are new to it and differ, and each is regular. -/
theorem exists_seedZones_iff (ht : t.Sound) (hvenue : venue < t.venueSeq) (hfits : VenueSpec.Fits zones) :
    (∃ t', seedZones venue t zones = some t') ↔
      (∀ z ∈ t.zones, z.venue = venue → ∀ zone ∈ zones, z.name ≠ zone.name) ∧ (zones.map ZoneSpec.name).Nodup ∧
        ∀ zone ∈ zones, zone.Regular := by
  induction zones generalizing t with
  | nil => simp [seedZones]
  | cons zone zones ih =>
    obtain ⟨pending, hpending, hb⟩ := zoneBlocks_of_fits (hfits zone (List.mem_cons_self ..)) 0
    have hone : ∀ t', seedZone venue t zone = some t' ↔
        ((∀ z ∈ t.zones, ¬(z.venue = venue ∧ z.name = zone.name)) ∧ zone.Regular) ∧
        t' = t.withZone venue zone pending :=
      fun t' => seedZone_iff ht hpending hb
    have hrest : VenueSpec.Fits zones := fun z hz => hfits z (List.mem_cons_of_mem _ hz)
    by_cases hok : (∀ z ∈ t.zones, ¬(z.venue = venue ∧ z.name = zone.name)) ∧ zone.Regular
    · have hsound := ht.withZone hvenue hb hok.1 hok.2
      have hnext : seedZones venue t (zone :: zones) = seedZones venue (t.withZone venue zone pending) zones := by
        rw [seedZones, (hone _).2 ⟨hok, rfl⟩, Option.bind_some]
      rw [hnext, ih hsound hvenue hrest]
      have hzones : ∀ z, z ∈ (t.withZone venue zone pending).zones ↔
          z ∈ t.zones ∨ z = ⟨t.zoneSeq, venue, zone.name, zone.displayOrder⟩ := by
        intro z
        simp [SeatTables.withZone]
      simp only [hzones, List.map_cons, List.nodup_cons, List.mem_cons, List.mem_map]
      constructor
      · intro h
        obtain ⟨hnames, hnodup, hreg⟩ := h
        refine ⟨fun z hz hv y hy => ?_, ⟨fun hmem => ?_, hnodup⟩, fun y hy => ?_⟩
        · rcases hy with rfl | hy
          · exact fun hname => hok.1 z hz ⟨hv, hname⟩
          · exact hnames z (.inl hz) hv y hy
        · obtain ⟨y, hy, hname⟩ := hmem
          exact hnames _ (.inr rfl) rfl y hy hname.symm
        · rcases hy with rfl | hy
          · exact hok.2
          · exact hreg y hy
      · intro h
        obtain ⟨hnames, ⟨hnew, hnodup⟩, hreg⟩ := h
        refine ⟨fun z hz hv y hy => ?_, hnodup, fun y hy => hreg y (.inr hy)⟩
        rcases hz with hz | rfl
        · exact hnames z hz hv y (.inr hy)
        · exact fun hname => hnew ⟨y, hy, hname.symm⟩
    · have hnone : seedZone venue t zone = none := by
        by_contra hsome
        obtain ⟨u, hu⟩ := Option.ne_none_iff_exists'.1 hsome
        exact hok ((hone u).1 hu).1
      have hstop : seedZones venue t (zone :: zones) = none := by rw [seedZones, hnone, Option.bind_none]
      rw [hstop]
      refine iff_of_false (by simp) fun h => hok ⟨fun z hz hclash => ?_, h.2.2 zone (List.mem_cons_self ..)⟩
      exact h.1 z hz hclash.1 zone (List.mem_cons_self ..) hclash.2

/-- What the zones of a venue leave. -/
theorem seedZones_sound (ht : t.Sound) (hvenue : venue < t.venueSeq) (hfits : VenueSpec.Fits zones)
    (h : seedZones venue t zones = some t') :
    t'.Sound ∧ t.blocks <+: t'.blocks ∧ t.seats <+: t'.seats ∧
      t'.seats.length = t.seats.length + (zones.map ZoneSpec.seats).sum := by
  induction zones generalizing t with
  | nil =>
    obtain rfl := Option.some.inj h
    exact ⟨ht, List.prefix_rfl, List.prefix_rfl, by simp⟩
  | cons zone zones ih =>
    obtain ⟨pending, hpending, hb⟩ := zoneBlocks_of_fits (hfits zone (List.mem_cons_self ..)) 0
    obtain ⟨u, hu, h⟩ := Option.bind_eq_some_iff.1 h
    obtain ⟨⟨hname, hreg⟩, rfl⟩ := (seedZone_iff ht hpending hb).1 hu
    obtain ⟨hsound, hblocks, hseats, hlength⟩ :=
      ih (ht.withZone hvenue hb hname hreg) hvenue (fun z hz => hfits z (List.mem_cons_of_mem _ hz)) h
    have hhere : (seatRows t.blockSeq pending).length = zone.seats := length_seatRows hb
    have hnew : (t.withZone venue zone pending).seats.length = t.seats.length + zone.seats := by
      rw [SeatTables.withZone, List.length_append, hhere]
    refine ⟨hsound, (List.prefix_append ..).trans hblocks, (List.prefix_append ..).trans hseats, ?_⟩
    rw [hlength, hnew, List.map_cons, List.sum_cons]
    omega

end Venues

/-- The inserts succeed exactly for a new venue name, zones of different names, rows of different labels
within a zone, and no empty block; what they leave is dense. -/
theorem insertVenue_exact {t : SeatTables} {spec : VenueSpec} (ht : t.Sound) (hfits : VenueSpec.Fits spec.zones) :
    ((∃ t', insertVenue t spec = some t') ↔
      (∀ v ∈ t.venues, v.name ≠ spec.name) ∧ (spec.zones.map ZoneSpec.name).Nodup ∧ ∀ zone ∈ spec.zones,
        zone.Regular) ∧
    ∀ t', insertVenue t spec = some t' → t'.Sound ∧ t.blocks <+: t'.blocks ∧ t.seats <+: t'.seats ∧
      t'.seats.length = t.seats.length + spec.totalSeats := by
  -- the tables after the venue row
  have hvenue : ({ t with venues := t.venues ++ [⟨t.venueSeq, spec.name⟩], venueSeq := t.venueSeq + 1 } :
      SeatTables).Sound :=
    { ht with
      venueIds := fun v hv => by
        rcases List.mem_append.1 hv with hv | hv
        · exact (ht.venueIds v hv).trans (Nat.lt_succ_self _)
        · rw [List.mem_singleton.1 hv]
          exact Nat.lt_succ_self _
      zoneVenues := fun z hz => (ht.zoneVenues z hz).trans (Nat.lt_succ_self _) }
  have hnew : ∀ z ∈ t.zones, z.venue = t.venueSeq → ∀ zone ∈ spec.zones, z.name ≠ zone.name := by
    intro z hz hv
    have hlt := ht.zoneVenues z hz
    omega
  have hzones := exists_seedZones_iff hvenue (Nat.lt_succ_self t.venueSeq) hfits
  unfold insertVenue
  by_cases hname : (t.venues.any fun v => v.name = spec.name) = true
  · rw [if_pos hname]
    obtain ⟨v, hv, hvname⟩ := List.any_eq_true.1 hname
    refine ⟨iff_of_false (by simp) fun h => h.1 v hv (by simpa using hvname), by simp⟩
  · rw [if_neg hname, hzones]
    have hfresh : ∀ v ∈ t.venues, v.name ≠ spec.name := by
      intro v hv heq
      exact hname (List.any_eq_true.2 ⟨v, hv, by simpa using heq⟩)
    refine ⟨⟨fun h => ⟨hfresh, h.2⟩, fun h => ⟨hnew, h.2⟩⟩, fun t' h => ?_⟩
    have hsound := seedZones_sound hvenue (Nat.lt_succ_self t.venueSeq) hfits h
    exact hsound

/-! ### What the columns store -/

/-- A text that fits is stored as it is. -/
theorem varchar_of_le {n : Nat} {text : String} (hlength : text.length ≤ n) (hnul : Char.ofNat 0 ∉ text.toList) :
    varchar n text = some text := by
  have hle : text.toList.length ≤ n := by rwa [String.length_toList]
  unfold varchar
  rw [List.drop_of_length_le hle, List.take_of_length_le hle, if_pos ⟨rfl, hnul⟩, String.ofList_toList]

/-- A zone whose texts and numbers fit is stored with them; its labels are stored one by one. -/
theorem ZoneSpec.stored_of_fits {zone : ZoneSpec} (hname : varchar 64 zone.name = some zone.name)
    (horder : -(maxInteger + 1 : Int) ≤ zone.displayOrder ∧ zone.displayOrder ≤ maxInteger)
    (hrows : zone.rows.mapM RowSpec.stored = some zone.rows) :
    zone.stored = some { zone with labeller := zone.labeller.stored } := by
  rw [ZoneSpec.stored, if_pos horder, hname, Option.bind_some, hrows, Option.map_some]

/-- What is stored is not longer than the column. -/
theorem length_of_varchar {n : Nat} {text stored : String} (h : varchar n text = some stored) :
    stored.length ≤ n := by
  unfold varchar at h
  split at h
  · obtain rfl := Option.some.inj h
    simp
  · cases h

/-- The blocks are stored as described. -/
theorem VenueSpec.totalSeats_stored {spec stored : VenueSpec} (h : spec.stored = some stored) :
    stored.totalSeats = spec.totalSeats := by
  obtain ⟨name, -, h⟩ := Option.bind_eq_some_iff.1 h
  obtain ⟨zones, hzones, rfl⟩ := Option.map_eq_some_iff.1 h
  have hrow : ∀ row row' : RowSpec, row.stored = some row' → row'.blocks.sum = row.blocks.sum := by
    intro row row' hrow
    unfold RowSpec.stored at hrow
    split at hrow
    · rw [Option.some.inj hrow]
    · split at hrow
      · obtain ⟨label, -, rfl⟩ := Option.map_eq_some_iff.1 hrow
        rfl
      · cases hrow
  have hzone : ∀ zone zone' : ZoneSpec, zone.stored = some zone' →
      (zone'.rows.map fun row => row.blocks.sum).sum = (zone.rows.map fun row => row.blocks.sum).sum := by
    intro zone zone' hzone
    unfold ZoneSpec.stored at hzone
    split at hzone
    · obtain ⟨name, -, hzone⟩ := Option.bind_eq_some_iff.1 hzone
      obtain ⟨rows, hrows, rfl⟩ := Option.map_eq_some_iff.1 hzone
      exact congrArg List.sum (map_of_mapM hrow hrows)
    · cases hzone
  exact congrArg List.sum (map_of_mapM hzone hzones)

/-- The seeder accepts exactly the descriptions that fit their columns and are, as stored, of a new venue
name, zones of different names, rows of different labels within a zone, and no empty block; and what it leaves
is dense: the seats of every block are its positions, each with a label of its own, as many as described, and
the rows there were are as they were. -/
theorem seedVenue_exact {t : SeatTables} {spec : VenueSpec} (ht : t.Sound)
    (hfits : ∀ s ∈ spec.stored, VenueSpec.Fits s.zones) :
    ((∃ t', seedVenue t spec = some t') ↔
      ∃ s, spec.stored = some s ∧ (∀ v ∈ t.venues, v.name ≠ spec.name ∧ v.name ≠ s.name) ∧
        (s.zones.map ZoneSpec.name).Nodup ∧ ∀ zone ∈ s.zones, zone.Regular) ∧
    ∀ t', seedVenue t spec = some t' → t'.Sound ∧ t.blocks <+: t'.blocks ∧ t.seats <+: t'.seats ∧
      t'.seats.length = t.seats.length + spec.totalSeats := by
  unfold seedVenue
  by_cases hname : (t.venues.any fun v => v.name = spec.name) = true
  · obtain ⟨v, hv, hvname⟩ := List.any_eq_true.1 hname
    rw [if_pos hname]
    refine ⟨iff_of_false (by simp) ?_, by simp⟩
    rintro ⟨s, -, hnew, -⟩
    exact (hnew v hv).1 (by simpa using hvname)
  · have hfresh : ∀ v ∈ t.venues, v.name ≠ spec.name := by
      intro v hv heq
      exact hname (List.any_eq_true.2 ⟨v, hv, by simpa using heq⟩)
    rw [if_neg hname]
    cases hstored : spec.stored with
    | none => exact ⟨iff_of_false (by simp) (by simp), by simp⟩
    | some s =>
      obtain ⟨hiff, hleaves⟩ := insertVenue_exact ht (hfits s hstored)
      rw [Option.bind_some, hiff, ← VenueSpec.totalSeats_stored hstored]
      refine ⟨⟨fun h => ⟨s, rfl, fun v hv => ⟨hfresh v hv, h.1 v hv⟩, h.2⟩, ?_⟩, hleaves⟩
      rintro ⟨s', hs', hnew, hrest⟩
      obtain rfl := Option.some.inj hs'
      exact ⟨fun v hv => (hnew v hv).2, hrest⟩

/-! ### The labellers and the demo venue -/

private theorem Labels.fits {labeller : Labeller} {blocks numbers : List Nat} {groups : List (List String)}
    (hgroups : labeller blocks = some groups) (h : Labels blocks numbers groups) (hnumbers : numbers.Nodup) :
    labeller.Fits blocks :=
  ⟨groups, hgroups, h.sizes, (List.nodup_flatten.1 (h.nodup hnumbers)).1⟩

theorem sequential_fits (blocks : List Nat) : Labeller.Fits (fun blocks => some (sequentialLabels blocks)) blocks :=
  Labels.fits rfl (countLabels_labels 1 blocks) List.nodup_range'

theorem oddEven_fits (blocks : List Nat) : Labeller.Fits (fun blocks => some (oddEvenLabels blocks)) blocks :=
  Labels.fits rfl (oddEvenLabels_labels blocks) (oddEvenNumbers_nodup ..)

theorem skipping_fits (blocks : List Nat) :
    ∃ bound, ∀ fuel, bound ≤ fuel → Labeller.Fits (skippingLabels isSuperstitious fuel) blocks := by
  obtain ⟨bound, groups, hgroups⟩ := exists_rowLabels exists_not_isSuperstitious blocks 1
  obtain ⟨stop, numbers, hlabels, hstop⟩ := rowLabels_spec (by omega) hgroups
  have hnumbers : numbers = unskipped isSuperstitious stop := by
    rw [hstop]
    simp [unskipped]
  refine ⟨bound, fun fuel hfuel => Labels.fits (rowLabels_mono hgroups hfuel) hlabels ?_⟩
  rw [hnumbers]
  exact unskipped_nodup ..

/-- Labels that fit their column are stored as they are. -/
theorem Labeller.Fits.stored {labeller : Labeller} {blocks : List Nat} (h : labeller.Fits blocks)
    (hblocks : ∀ size ∈ blocks, size ≤ maxInteger + 1)
    (hshort : ∀ groups ∈ labeller blocks, ∀ labels ∈ groups, ∀ label ∈ labels, varchar 16 label = some label) :
    labeller.stored.Fits blocks := by
  obtain ⟨groups, hgroups, hsizes, hnodup⟩ := h
  have hlengths : ∀ labels ∈ groups, labels.length ≤ maxInteger + 1 :=
    fun labels hlabels => hblocks _ (hsizes ▸ List.mem_map_of_mem hlabels)
  have hkept : ∀ labels ∈ groups, labels.mapM (varchar 16) = some labels := by
    intro labels hlabels
    have hsame := mapM_eq_some (g := id) (hshort groups hgroups labels hlabels)
    rwa [List.map_id] at hsame
  have hall := mapM_eq_some (g := id) hkept
  rw [List.map_id] at hall
  refine ⟨groups, ?_, hsizes, hnodup⟩
  rw [Labeller.stored, hgroups, Option.bind_some, if_pos hlengths, hall]

/-- `_rows`. -/
def specRows (pre : String) (count : Nat) (blocks : List Nat) : List RowSpec :=
  (List.range count).map fun i => ⟨pre ++ toString (i + 1), blocks⟩

/-- `DEMO_ARENA`. -/
def demoArena (fuel : Nat) : VenueSpec where
  name := "Demo Arena"
  zones := [
    { name := "搖滾區", displayOrder := 0, rows := specRows "R" 10 [6, 12, 6], qualityFront := 1, qualityBack := 17 / 20
      labeller := fun blocks => some (oddEvenLabels blocks) },
    { name := "看台A", displayOrder := 1, rows := specRows "A" 15 [8, 16, 8]
      qualityFront := 4 / 5, qualityBack := 11 / 20
      labeller := skippingLabels isSuperstitious fuel },
    { name := "看台B", displayOrder := 2, rows := specRows "B" 20 [10, 20, 10]
      qualityFront := 1 / 2, qualityBack := 1 / 4 }]

/-- The demo venue as it is stored. -/
private theorem stored_demoArena : (demoArena 64).stored = some { demoArena 64 with
    zones := (demoArena 64).zones.map fun zone => { zone with labeller := zone.labeller.stored } } := by
  have hzones : ∀ zone ∈ (demoArena 64).zones, zone.stored = some { zone with labeller := zone.labeller.stored } := by
    intro zone hzone
    simp only [demoArena, List.mem_cons, List.not_mem_nil, or_false] at hzone
    rcases hzone with rfl | rfl | rfl <;>
      exact ZoneSpec.stored_of_fits (varchar_of_le (by decide) (by decide)) (by decide) (by decide +kernel)
  have hname : varchar 255 (demoArena 64).name = some (demoArena 64).name := varchar_of_le (by decide) (by decide)
  rw [VenueSpec.stored, hname, Option.bind_some, mapM_eq_some hzones, Option.map_some]

/-- The demo venue is written into empty tables, with its 1520 seats. -/
theorem seedVenue_exact_demo : ∃ t', seedVenue {} (demoArena 64) = some t' ∧ t'.Sound ∧ t'.seats.length = 1520 := by
  have hrows : ∀ (pre : String) (count : Nat) (blocks : List Nat), ∀ row ∈ specRows pre count blocks,
      row.blocks = blocks := by
    intro pre count blocks row hrow
    obtain ⟨i, -, rfl⟩ := List.mem_map.1 hrow
    rfl
  have hfits : ∀ s ∈ (demoArena 64).stored, VenueSpec.Fits s.zones := by
    intro s hs stored hstored row hrow
    rw [stored_demoArena] at hs
    obtain rfl := Option.some.inj hs
    obtain ⟨zone, hzone, rfl⟩ := List.mem_map.1 hstored
    simp only [demoArena, List.mem_cons, List.not_mem_nil, or_false] at hzone
    rcases hzone with rfl | rfl | rfl
    · rw [hrows _ _ _ row hrow]
      exact (oddEven_fits _).stored (by decide) (by decide +kernel)
    · rw [hrows _ _ _ row hrow]
      have hskipping : Labeller.Fits (skippingLabels isSuperstitious 64) [8, 16, 8] := by decide +kernel
      exact hskipping.stored (by decide) (by decide +kernel)
    · rw [hrows _ _ _ row hrow]
      exact (sequential_fits _).stored (by decide) (by decide +kernel)
  have hregular : ∀ zone ∈ (demoArena 64).zones, zone.Regular := by
    intro zone hzone
    simp only [demoArena, List.mem_cons, List.not_mem_nil, or_false] at hzone
    rcases hzone with rfl | rfl | rfl
    · have hdistinct : ZoneSpec.RowsDistinct (specRows "R" 10 [6, 12, 6]) := by
        unfold ZoneSpec.RowsDistinct; decide +kernel
      exact ⟨hdistinct, fun row hrow => by rw [hrows _ _ _ row hrow]; decide⟩
    · have hdistinct : ZoneSpec.RowsDistinct (specRows "A" 15 [8, 16, 8]) := by
        unfold ZoneSpec.RowsDistinct; decide +kernel
      exact ⟨hdistinct, fun row hrow => by rw [hrows _ _ _ row hrow]; decide⟩
    · have hdistinct : ZoneSpec.RowsDistinct (specRows "B" 20 [10, 20, 10]) := by
        unfold ZoneSpec.RowsDistinct; decide +kernel
      exact ⟨hdistinct, fun row hrow => by rw [hrows _ _ _ row hrow]; decide⟩
  obtain ⟨hiff, hleaves⟩ := seedVenue_exact SeatTables.Sound.empty hfits
  have hnames : ["搖滾區", "看台A", "看台B"].Nodup := by decide
  obtain ⟨t', ht'⟩ := hiff.2 ⟨_, stored_demoArena, by simp, hnames, fun stored hstored => by
    obtain ⟨zone, hzone, rfl⟩ := List.mem_map.1 hstored
    exact hregular zone hzone⟩
  obtain ⟨hsound, -, -, hlength⟩ := hleaves t' ht'
  have htotal : (demoArena 64).totalSeats = 1520 := by
    simp [demoArena, VenueSpec.totalSeats, specRows, Function.comp_def]
  exact ⟨t', ht', hsound, by rw [hlength, htotal, List.length_nil]⟩

end Ticketing
