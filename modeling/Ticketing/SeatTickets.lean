import Mathlib.Data.List.Sort
import Ticketing.OrderPolling
import Ticketing.SeatOwnership
import Ticketing.SeedVenue

/-!
# The seats on a ticket

`get_order_seats` (`app/api/v1/orders.py`) reads the order and, when it is confirmed, its hold
(`describe_order_seats`); the labels come from the seats of the block at the positions of the hold
(`seat_labels`).  The two reads are two moments of a run.

A ticket names chairs by zone, row, block and label.  The holds of an event are disjoint, the seat map is
dense and its constraints hold, so a ticket names as many chairs as were bought, its chairs never change, and
no chair is on two tickets.  The seat map is fixed; a `PATCH` of a zone changes its name, and a ticket shows
the name that is there when it is asked for.  Two tickets are compared under one state of the zone names.
-/

namespace Ticketing

open Exec

/-! ### The endpoint -/

structure SeatedOrderDetail where
  zoneName : String
  rowLabel : String
  blockIndex : Nat
  labels : List String
deriving DecidableEq, Repr

/-- `seat_labels`. -/
def SeatTables.seatLabels (t : SeatTables) (block : BlockId) (startPos length : Int) : List String :=
  ((t.seats.filter fun s => s.block = block ∧ startPos ≤ s.pos ∧ s.pos < startPos + length).insertionSort
    fun s s' => s.pos ≤ s'.pos).map Seat.label

/-- `describe_order_seats`; `none` is `SeatsNotAssigned`. -/
def describeOrderSeats (t : SeatTables) (db : Db) (id : OrderId) : Option SeatedOrderDetail :=
  (db.holdOf id).bind fun hold =>
    (t.blocks.find? fun b => b.id = hold.block).bind fun block =>
      (t.zones.find? fun z => z.id = block.zone).map fun zone =>
        ⟨zone.name, block.rowLabel, block.blockIndex, t.seatLabels hold.block hold.startPos hold.length⟩

/-- The answers of `get_order_seats`: 200, `OrderNotFound`, the 404 of an order without a seat map, and
`SeatsNotAssigned` (409). -/
inductive SeatsReply where
  | detail (d : SeatedOrderDetail)
  | orderNotFound
  | noSeatMap
  | notAssigned
deriving DecidableEq, Repr

/-- `get_order_seats`, which reads the order in the first state and the hold in the second. -/
def getOrderSeats (t : SeatTables) (w w' : World) (user : UserId) (id : OrderId) : SeatsReply :=
  match w.db.orderById id with
  | none => .orderNotFound
  | some o =>
    if o.user ≠ user then .orderNotFound
    else if o.zone = none then .noSeatMap
    else if o.status ≠ .confirmed then .notAssigned
    else
      match describeOrderSeats t w'.db id with
      | none => .notAssigned
      | some d => .detail d

/-- The same seat map under other zone names. -/
structure SeatTables.Renamed (t t' : SeatTables) : Prop where
  blocks : t'.blocks = t.blocks
  seats : t'.seats = t.seats
  zones : t'.zones.map ZoneRow.id = t.zones.map ZoneRow.id

/-! ### The labels of an interval -/

/-- The entries whose positions lie in a range. -/
private theorem slice_zipIdx (labels : List String) (a b k : Nat) :
    ((labels.zipIdx k).filter fun x => a ≤ x.2 ∧ x.2 < b).map Prod.fst = (labels.drop (a - k)).take
      (b - max a k) := by
  induction labels generalizing k with
  | nil => simp
  | cons label labels ih =>
    rw [List.zipIdx_cons, List.filter_cons]
    by_cases hk : a ≤ k ∧ k < b
    · have htake : b - max a k = (b - max a (k + 1)) + 1 := by omega
      have hdrop : a - k = 0 := by omega
      have hdrop' : a - (k + 1) = 0 := by omega
      rw [if_pos (by simpa using hk), List.map_cons, ih, htake, hdrop, hdrop', List.drop_zero, List.drop_zero,
        List.take_succ_cons]
    · rw [if_neg (by simpa using hk), ih]
      by_cases hlow : k < a
      · have hdrop : a - k = (a - (k + 1)) + 1 := by omega
        have htake : max a k = max a (k + 1) := by omega
        rw [hdrop, List.drop_succ_cons, htake]
      · have hzero : b - max a k = 0 := by omega
        have hzero' : b - max a (k + 1) = 0 := by omega
        rw [hzero, hzero', List.take_zero, List.take_zero]

/-- Slices at ranges that do not meet share no label. -/
private theorem slices_disjoint {labels : List String} (hnodup : labels.Nodup) {a n b m : Nat}
    (h : a + n ≤ b ∨ b + m ≤ a)
    {label : String} (hmem : label ∈ (labels.drop a).take n) : label ∉ (labels.drop b).take m := by
  intro hmem'
  obtain ⟨i, hi, hget⟩ := List.getElem_of_mem hmem
  obtain ⟨j, hj, hget'⟩ := List.getElem_of_mem hmem'
  rw [List.length_take, List.length_drop] at hi hj
  rw [List.getElem_take, List.getElem_drop] at hget hget'
  have hij : a + i = b + j := (hnodup.getElem_inj_iff).1 (hget.trans hget'.symm)
  omega

namespace SeatTables.Sound

variable {t : SeatTables}

/-- The labels of an interval of a block are a slice of the labels of the block. -/
theorem seatLabels_eq (ht : t.Sound) {b : BlockRow} (hb : b ∈ t.blocks) :
    ∃ labels : List String, labels.length = b.capacity ∧ labels.Nodup ∧ ∀ start length : Int, 0 ≤ start →
      t.seatLabels b.id start length = (labels.drop start.toNat).take length.toNat := by
  obtain ⟨labels, hlength, hnodup, hfilter⟩ := ht.dense b hb
  refine ⟨labels, hlength, hnodup, fun start length hstart => ?_⟩
  have hrows : (t.seats.filter fun s => s.block = b.id ∧ start ≤ s.pos ∧ s.pos < start + length) =
      (labelSeats b.id labels).filter fun s => start ≤ s.pos ∧ s.pos < start + length := by
    rw [← hfilter, List.filter_filter]
    refine List.filter_congr fun s _ => ?_
    by_cases hs : s.block = b.id <;> simp [hs]
  have hsorted : ((labelSeats b.id labels).filter fun s => start ≤ s.pos ∧ s.pos < start + length).Pairwise
      fun s s' => s.pos ≤ s'.pos := by
    refine List.Pairwise.sublist List.filter_sublist ?_
    rw [labelSeats, List.pairwise_map]
    have hpos : (labels.zipIdx.map Prod.snd).Pairwise (· < ·) :=
      List.zipIdx_map_snd 0 labels ▸ List.pairwise_lt_range'
    refine (List.pairwise_map.1 hpos).imp ?_
    intro x y hlt
    exact le_of_lt hlt
  rw [SeatTables.seatLabels, hrows, hsorted.insertionSort_eq, labelSeats, List.filter_map, List.map_map]
  have hslice := slice_zipIdx labels start.toNat (start.toNat + length.toNat) 0
  have hcond : ∀ x ∈ labels.zipIdx, (decide (start ≤ (x.2 : Int) ∧ (x.2 : Int) < start + length)) =
      decide (start.toNat ≤ x.2 ∧ x.2 < start.toNat + length.toNat) := by
    intro x _
    refine decide_eq_decide.2 ?_
    omega
  rw [show start.toNat + length.toNat - max start.toNat 0 = length.toNat by omega, Nat.sub_zero] at hslice
  rw [← hslice, ← List.filter_congr hcond]
  rfl

end SeatTables.Sound

/-! ### The holds in a run -/

/-- What the constraints keep of the hold rows: each lies inside its block, those of one event are disjoint,
and a held order with a zone has its row. -/
structure Db.Seatable (db : Db) : Prop where
  fits : ∀ h ∈ db.seatHolds, 0 < h.length ∧ 0 ≤ h.startPos ∧
    ∃ b ∈ db.seatBlocks, b.id = h.block ∧ b.zone = h.zone ∧ h.startPos + h.length ≤ b.capacity
  apart : ∀ h ∈ db.seatHolds, ∀ h' ∈ db.seatHolds, h.order ≠ h'.order → h.event = h'.event → h.span.Disjoint h'.span
  held : ∀ o ∈ db.orders, o.zone ≠ none → o.status.held = true → ∃ h ∈ db.seatHolds, h.order = o.id

namespace Db.Seatable

variable {cfg : Settings} {w w' : World}

theorem start {db : Db} (h : db.Unsold) : db.Seatable := by
  constructor <;> simp [h.orders, h.seatHolds]

/-- The hold rows afterwards are among those before, up to their deadlines. -/
private theorem shrink {db db' : Db} (hs : db.Seatable) (hblocks : db'.seatBlocks = db.seatBlocks)
    (hholds : ∀ h' ∈ db'.seatHolds, ∃ h ∈ db.seatHolds, h'.order = h.order ∧ h'.event = h.event ∧ h'.zone = h.zone ∧
      h'.span = h.span)
    (hheld : ∀ o ∈ db'.orders, o.zone ≠ none → o.status.held = true → ∃ h ∈ db'.seatHolds, h.order = o.id) :
    db'.Seatable where
  fits h' hh' := by
    obtain ⟨h, hh, -, -, hzone, hspan⟩ := hholds h' hh'
    simp only [SeatHold.span, Span.mk.injEq] at hspan
    rw [hblocks, hspan.1, hspan.2.1, hspan.2.2, hzone]
    exact hs.fits h hh
  apart h' hh' k' hk' hne hev := by
    obtain ⟨h, hh, hord, hevent, -, hspan⟩ := hholds h' hh'
    obtain ⟨k, hk, hord', hevent', -, hspan'⟩ := hholds k' hk'
    rw [hspan, hspan']
    refine hs.apart h hh k hk ?_ ?_
    · rwa [← hord, ← hord']
    · rwa [← hevent, ← hevent']
  held := hheld

private theorem commit {db db' : Db} {i : Intent} {id : OrderId} {fk : Bool} (hs : db.Seatable)
    (hconsistent : i.consistent = true) (h : db.insertIntent i id fk = some db') : db'.Seatable := by
  obtain ⟨-, hhold, rfl⟩ := insertIntent_eq_some h
  have hnew : ∀ k ∈ (i.hold id).toList, db.AcceptsHold k := fun k hk => hhold k (Option.mem_toList.1 hk)
  refine ⟨fun k hk => ?_, fun k hk k' hk' hne hev => ?_, fun o ho hzone hheld => ?_⟩
  · rcases List.mem_append.1 hk with hk | hk
    · exact hs.fits k hk
    · obtain ⟨hpos, hstart, -, hblock, -⟩ := hnew k hk
      exact ⟨hpos, hstart, hblock⟩
  · rcases List.mem_append.1 hk with hk | hk
    · rcases List.mem_append.1 hk' with hk' | hk'
      · exact hs.apart k hk k' hk' hne hev
      · exact (hnew k' hk').2.2.2.2 k hk hev
    · rcases List.mem_append.1 hk' with hk' | hk'
      · have hdisjoint := (hnew k hk).2.2.2.2 k' hk' hev.symm
        exact fun hb => (hdisjoint hb.symm).symm
      · have heq : k = k' := Option.some.inj ((Option.mem_toList.1 hk).symm.trans (Option.mem_toList.1 hk'))
        exact absurd (congrArg SeatHold.order heq) hne
  · rcases List.mem_append.1 ho with ho | ho
    · obtain ⟨k, hk, hord⟩ := hs.held o ho hzone hheld
      exact ⟨k, List.mem_append_left _ hk, hord⟩
    · rw [List.mem_singleton.1 ho] at hzone ⊢
      -- a consistent intent with a zone has its seats
      cases hz : i.zone with
      | none => exact absurd hz hzone
      | some zone =>
        have hseat : i.seat.isSome = true := by
          simpa [Intent.consistent, hz] using hconsistent
        obtain ⟨seat, hseat⟩ := Option.isSome_iff_exists.1 hseat
        have hrow : i.hold id = some ⟨i.event, zone, seat.block, id, seat.startPos, i.quantity, none⟩ := by
          rw [Intent.hold, hz, hseat]
          rfl
        exact ⟨_, List.mem_append_right _ (Option.mem_toList.2 hrow), rfl⟩

private theorem transition {db db' : Db} {id : OrderId} {new : OrderStatus} {now : Time} (hs : db.Seatable)
    (hl : db.Linked) (h : db.transition id new now = some db') : db'.Seatable := by
  have hback : ∀ k ∈ db.seatHolds, ∃ k' ∈ db'.seatHolds, k'.order = k.order := by
    obtain ⟨o₀, -, -, rfl⟩ := transition_eq_some h
    intro k hk
    dsimp only
    split
    · refine ⟨_, List.mem_map_of_mem hk, ?_⟩
      split <;> rfl
    · exact ⟨k, hk, rfl⟩
  have hblocks : db'.seatBlocks = db.seatBlocks := by
    obtain ⟨o₀, -, -, rfl⟩ := transition_eq_some h
    rfl
  refine hs.shrink hblocks (fun k hk => Db.of_mem_seatHolds_transition h hk) fun o' ho' hzone hheld => ?_
  obtain ⟨o, ho, hsame, hmoved⟩ := Db.of_mem_orders_transition h ho'
  have hwas : o.status.held = true := by
    rcases hmoved with rfl | ⟨hid, -⟩
    · exact hheld
    · exact (hl.held_of_transition h ho hid).1
  obtain ⟨k, hk, hord⟩ := hs.held o ho (hsame.zone ▸ hzone) hwas
  obtain ⟨k', hk', hord'⟩ := hback k hk
  exact ⟨k', hk', hord'.trans (hord.trans hsame.id.symm)⟩

theorem step {a : Act} (hs : w.db.Seatable) (hl : w.Linked) (h : Ticketing.step cfg w a = some w') :
    w'.db.Seatable := by
  cases a with
  | settle a =>
    rcases stepSettle_cases h with ⟨n, x, id, fk, db, rfl, -, -, hconsistent, hdb, rfl⟩ | ⟨n, x, w₁, -, -, hw₁, rfl⟩ |
      ⟨redis, handlers, -, -, rfl⟩
    · exact hs.commit hconsistent hdb
    · rcases World.refund_cases hw₁ with ⟨-, -, rfl⟩ | ⟨seat, zone, -, -, -, rfl⟩ | rfl <;> exact hs
    · exact hs
  | transition id new now =>
    obtain ⟨db, hdb, rfl⟩ := Option.map_eq_some_iff.1 h
    exact hs.transition hl.db hdb
  | release a =>
    rcases stepRelease_cases h with ⟨n, x, hold, hx, -, rfl⟩ | ⟨n, x, -, -, -, -, rfl⟩ |
      ⟨n, x, hold, zone, -, -, -, -, rfl⟩ | ⟨outbox, releases, -, -, rfl⟩
    · refine hs.shrink rfl (fun k hk => ⟨k, (List.mem_filter.1 hk).1, rfl, rfl, rfl, rfl⟩) fun o ho hzone hheld => ?_
      obtain ⟨k, hk, hord⟩ := hs.held o ho hzone hheld
      refine ⟨k, List.mem_filter.2 ⟨hk, ?_⟩, hord⟩
      rw [decide_eq_true_eq]
      intro hdel
      -- the hold of a terminal order is deleted, and this one is held
      obtain ⟨o₁, ho₁, hsame, hterm⟩ := hl.release n x hx
      rw [hl.db.order_unique ho₁ ho (by rw [hsame.id, ← hdel, hord]), hheld] at hterm
      cases hterm
    · exact hs
    · exact hs
    · exact ⟨hs.fits, hs.apart, hs.held⟩
  | _ =>
    have hkept := tablesKept_step h
    have hrecords := recordsKept_step h
    refine hs.shrink hrecords.seatBlocks ?_ ?_
    · rw [hrecords.seatHolds (by simp) (by simp) (by simp)]
      exact fun k hk => ⟨k, hk, rfl, rfl, rfl, rfl⟩
    · rw [hkept.orders (by simp) (by simp), hrecords.seatHolds (by simp) (by simp) (by simp)]
      exact hs.held

end Db.Seatable

/-! ### What a ticket is read from -/

/-- The blocks of the pipeline are blocks of the seat map. -/
def SeatTables.Covers (t : SeatTables) (blocks : List SeatBlock) : Prop :=
  ∀ b ∈ blocks, ∃ r ∈ t.blocks, r.id = b.id ∧ r.zone = b.zone ∧ (r.capacity : Int) = b.capacity

/-- What every state of a run has. -/
structure World.Ticketed (blocks : List SeatBlock) (w : World) : Prop where
  traceable : w.Traceable
  rows : w.db.Seatable
  blocks : w.db.seatBlocks = blocks

section Tickets

variable {cfg : Settings} {w w' : World} {t : SeatTables} {blocks : List SeatBlock}

theorem World.Ticketed.exec {acts : List Act} (hw : w.Ticketed blocks)
    (h : Exec.exec (Ticketing.step cfg) w acts = some w') : w'.Ticketed blocks := by
  refine exec_invariant (C := fun _ _ => True) (fun v a v' _ hs hv => ?_) hw (Along.of_forall fun _ _ _ => trivial) h
  exact ⟨hv.traceable.step hs, hv.rows.step hv.traceable.linked hs, (recordsKept_step hs).seatBlocks.trans hv.blocks⟩

/-- A confirmed order is never touched again. -/
theorem confirmed_step {a : Act} (hl : w.Linked) (h : step cfg w a = some w') {o : Order} (ho : o ∈ w.db.orders)
    (hst : o.status = .confirmed) : o ∈ w'.db.orders := by
  cases a with
  | settle a =>
    rcases stepSettle_cases h with ⟨n, x, id, fk, db, rfl, -, -, -, hdb, rfl⟩ | ⟨n, x, w₁, -, -, hw₁, rfl⟩ |
      ⟨redis, handlers, -, -, rfl⟩
    · obtain ⟨-, -, rfl⟩ := insertIntent_eq_some hdb
      exact List.mem_append_left _ ho
    · rcases World.refund_cases hw₁ with ⟨-, -, rfl⟩ | ⟨seat, zone, -, -, -, rfl⟩ | rfl <;> exact ho
    · exact ho
  | transition id new now =>
    obtain ⟨db, hdb, rfl⟩ := Option.map_eq_some_iff.1 h
    have hother : o.id ≠ id := by
      intro hid
      have hvalid := (hl.db.held_of_transition hdb ho hid).2
      rw [hst] at hvalid
      cases hvalid
    obtain ⟨o₀, -, -, rfl⟩ := transition_eq_some hdb
    exact List.mem_map.2 ⟨o, ho, if_neg hother⟩
  | _ =>
    rw [(tablesKept_step h).orders (by simp) (by simp)]
    exact ho

theorem confirmed_exec {acts : List Act} (hw : w.Traceable) (h : exec (step cfg) w acts = some w') {o : Order}
    (ho : o ∈ w.db.orders) (hst : o.status = .confirmed) : o ∈ w'.db.orders := by
  have hkept : w'.Traceable ∧ o ∈ w'.db.orders :=
    exec_invariant (C := fun _ _ => True) (I := fun v : World => v.Traceable ∧ o ∈ v.db.orders)
      (fun _ _ _ _ hs hv => ⟨hv.1.step hs, confirmed_step hv.1.linked hs hv.2 hst⟩) ⟨hw, ho⟩
      (Along.of_forall fun _ _ _ => trivial) h
  exact hkept.2

/-- The hold of an order has the same interval at all times. -/
theorem World.Extends.span_eq (he : w.Extends w') (hw : w.Traceable) (hw' : w'.Traceable) {k k' : SeatHold}
    (hk : k ∈ w.db.seatHolds) (hk' : k' ∈ w'.db.seatHolds) (h : k.order = k'.order) : k.span = k'.span := by
  obtain ⟨i, hi, o, ho, hid, hkey, hspan⟩ := hw.originated.hold k hk
  obtain ⟨i', hi', o', ho', hid', hkey', hspan'⟩ := hw'.originated.hold k' hk'
  obtain ⟨o₁, ho₁, hsame⟩ := he.orders o ho
  obtain rfl : o₁ = o' := hw'.linked.db.order_unique ho₁ ho' (by rw [hsame.id, hid, h, hid'])
  obtain rfl : i = i' := hw'.linked.intent_unique (he.log i hi) hi' (by rw [hkey, hkey', hsame.key])
  exact Option.some.inj (hspan.symm.trans hspan')

private theorem find?_key {α : Type*} {l : List α} {key : α → Nat} (hl : (l.map key).Nodup) {a : α}
    (ha : a ∈ l) {k : Nat} (hk : key a = k) : (l.find? fun b => key b = k) = some a := by
  cases hf : l.find? fun b => key b = k with
  | none =>
    have hnone := List.find?_eq_none.1 hf a ha
    exact absurd (by simpa using hk) hnone
  | some b =>
    have hb : key b = k := by simpa using List.find?_some hf
    rw [List.inj_on_of_nodup_map hl (List.mem_of_find?_eq_some hf) ha (hb.trans hk.symm)]

/-- What the ticket of a confirmed order with a zone is read from. -/
structure Printed (t : SeatTables) (w : World) (o : Order) (d : SeatedOrderDetail) (k : SeatHold)
    (b : BlockRow) (z : ZoneRow) :
    Prop where
  hold : k ∈ w.db.seatHolds
  order : k.order = o.id
  event : k.event = o.event
  length : k.length = o.quantity
  block : b ∈ t.blocks
  blockId : b.id = k.block
  inside : 0 < k.length ∧ 0 ≤ k.startPos ∧ k.startPos + k.length ≤ b.capacity
  zone : z ∈ t.zones
  zoneId : z.id = b.zone
  bought : o.zone = some z.id
  detail : d = ⟨z.name, b.rowLabel, b.blockIndex, t.seatLabels b.id k.startPos k.length⟩
  described : describeOrderSeats t w.db o.id = some d

theorem exists_printed (ht : t.Sound) (hmap : t.Covers blocks) (hw : w.Ticketed blocks) {o : Order}
    (ho : o ∈ w.db.orders)
    (hzone : o.zone ≠ none) (hst : o.status = .confirmed) : ∃ d k b z, Printed t w o d k b z := by
  obtain ⟨k, hk, hord⟩ := hw.rows.held o ho hzone (by rw [hst]; rfl)
  obtain ⟨hpos, hstart, c, hc, hcid, hczone, hend⟩ := hw.rows.fits k hk
  obtain ⟨b, hb, hbid, hbzone, hcap⟩ := hmap c (hw.blocks ▸ hc)
  obtain ⟨z, hz, hzid⟩ := ht.blockZones b hb
  obtain ⟨o₁, ho₁, hmatch⟩ := hw.traceable.linked.db.hold k hk
  obtain rfl : o₁ = o := hw.traceable.linked.db.order_unique ho₁ ho (hmatch.order.symm.trans hord)
  have hblock : b.id = k.block := hbid.trans hcid
  have hhold : w.db.holdOf o₁.id = some k := find?_key hw.traceable.linked.db.holds hk hord
  refine ⟨_, k, b, z, hk, hord, hmatch.event, hmatch.length, hb, hblock, ⟨hpos, hstart, hcap ▸ hend⟩, hz,
    hzid, ?_, rfl, ?_⟩
  · rw [hmatch.zone, hzid, hbzone, hczone]
  · rw [describeOrderSeats, hhold, Option.bind_some, find?_key ht.blockNodup hb hblock, Option.bind_some,
      find?_key ht.zoneNodup hz hzid, Option.map_some, hblock]

/-- The labels on a ticket. -/
theorem Printed.labels {o : Order} {d : SeatedOrderDetail} {k : SeatHold} {b : BlockRow} {z : ZoneRow} (ht : t.Sound)
    (h : Printed t w o d k b z) : (d.labels.length : Int) = o.quantity ∧ d.labels.Nodup := by
  obtain ⟨labels, hlength, hnodup, hslice⟩ := ht.seatLabels_eq h.block
  obtain ⟨hpos, hstart, hend⟩ := h.inside
  have hlen := h.length
  rw [h.detail]
  simp only [hslice k.startPos k.length hstart]
  refine ⟨?_, (hnodup.sublist (List.drop_sublist ..)).sublist (List.take_sublist ..)⟩
  rw [List.length_take, List.length_drop, hlength]
  omega

/-- What an answer of the endpoint says. -/
theorem getOrderSeats_detail {user : UserId} {id : OrderId} {d : SeatedOrderDetail}
    (h : getOrderSeats t w w' user id = .detail d) :
    ∃ o ∈ w.db.orders, o.id = id ∧ o.user = user ∧ o.zone ≠ none ∧ o.status = .confirmed ∧
      describeOrderSeats t w'.db id = some d := by
  unfold getOrderSeats at h
  cases ho : w.db.orderById id with
  | none => simp [ho] at h
  | some o =>
    obtain ⟨hmem, hid⟩ := orderById_eq_some ho
    simp only [ho] at h
    split at h
    · cases h
    · rename_i huser
      split at h
      · cases h
      · rename_i hzone
        split at h
        · cases h
        · rename_i hst
          split at h
          · cases h
          · rename_i d' hd'
            obtain rfl : d' = d := by simpa using h
            exact ⟨o, hmem, hid, by simpa using huser, hzone, by simpa using hst, hd'⟩

/-- The answer about an order that is confirmed. -/
theorem getOrderSeats_of_confirmed (hw : w.Traceable) {o : Order} (ho : o ∈ w.db.orders) (hzone : o.zone ≠ none)
    (hst : o.status = .confirmed) {d : SeatedOrderDetail} (hd : describeOrderSeats t w'.db o.id = some d) :
    getOrderSeats t w w' o.user o.id = .detail d := by
  have hfind : w.db.orderById o.id = some o := find?_key hw.linked.db.ids ho rfl
  simp [getOrderSeats, hfind, hzone, hst, hd]

/-- The ticket of a confirmed order is the same at all later times. -/
theorem describe_later (ht : t.Sound) (hmap : t.Covers blocks) (hw : w.Ticketed blocks) {acts : List Act}
    (h : exec (step cfg) w acts = some w') {o : Order} (ho : o ∈ w.db.orders) (hzone : o.zone ≠ none)
    (hst : o.status = .confirmed) {d : SeatedOrderDetail} (hd : describeOrderSeats t w.db o.id = some d) :
    describeOrderSeats t w'.db o.id = some d := by
  obtain ⟨d₁, k, b, z, hp⟩ := exists_printed ht hmap hw ho hzone hst
  obtain rfl : d₁ = d := Option.some.inj (hp.described.symm.trans hd)
  have hw' := hw.exec h
  obtain ⟨d', k', b', z', hp'⟩ := exists_printed ht hmap hw' (confirmed_exec hw.traceable h ho hst) hzone hst
  have hspan : k.span = k'.span :=
    (hw.traceable.extends h).span_eq hw.traceable hw'.traceable hp.hold hp'.hold (hp.order.trans hp'.order.symm)
  simp only [SeatHold.span, Span.mk.injEq] at hspan
  obtain rfl : b = b' :=
    List.inj_on_of_nodup_map ht.blockNodup hp.block hp'.block (hp.blockId.trans (hspan.1.trans hp'.blockId.symm))
  obtain rfl : z = z' := List.inj_on_of_nodup_map ht.zoneNodup hp.zone hp'.zone (hp.zoneId.trans hp'.zoneId.symm)
  rw [hp'.described, hp'.detail, hp.detail, hspan.2.1, hspan.2.2]

/-- Under other zone names a ticket shows the same chairs. -/
theorem describe_renamed {t' : SeatTables} (hrenamed : t.Renamed t') {o : Order} {d : SeatedOrderDetail}
    {k : SeatHold} {b : BlockRow}
    {z : ZoneRow} (ht : t.Sound) (hw : w.Ticketed blocks) (hp : Printed t w o d k b z) :
    ∃ z' ∈ t'.zones, z'.id = z.id ∧ describeOrderSeats t' w.db o.id = some { d with zoneName := z'.name } := by
  have hmem : z.id ∈ t'.zones.map ZoneRow.id := hrenamed.zones ▸ List.mem_map_of_mem hp.zone
  obtain ⟨z', hz', hid⟩ := List.mem_map.1 hmem
  have hnodup : (t'.zones.map ZoneRow.id).Nodup := hrenamed.zones ▸ ht.zoneNodup
  have hhold : w.db.holdOf o.id = some k := find?_key hw.traceable.linked.db.holds hp.hold hp.order
  have hblock : (t'.blocks.find? fun b => b.id = k.block) = some b := by
    rw [hrenamed.blocks]
    exact find?_key ht.blockNodup hp.block hp.blockId
  have hlabels : t'.seatLabels k.block k.startPos k.length = t.seatLabels b.id k.startPos k.length := by
    rw [hp.blockId, SeatTables.seatLabels, hrenamed.seats, SeatTables.seatLabels]
  refine ⟨z', hz', hid, ?_⟩
  rw [describeOrderSeats, hhold, Option.bind_some, hblock, Option.bind_some, find?_key hnodup hz'
    (hid.trans hp.zoneId), Option.map_some, hlabels, hp.detail]

theorem World.Ticketed.start (h : w.Start) (hunsold : w.db.Unsold) : w.Ticketed w.db.seatBlocks :=
  ⟨.start h hunsold, .start hunsold, rfl⟩

/-- An order whose ticket was answered, at any later time. -/
private theorem printed_later (ht : t.Sound) (hmap : t.Covers blocks) (hw : w.Ticketed blocks) {w₁ w₂ : World}
    {first rest : List Act} (h₁ : exec (step cfg) w first = some w₁) (h₂ : exec (step cfg) w₁ rest = some w₂)
    {user : UserId} {id : OrderId} {d : SeatedOrderDetail} (hd : getOrderSeats t w w₁ user id = .detail d) :
    ∃ o ∈ w₂.db.orders, o.id = id ∧ o.user = user ∧ o.zone ≠ none ∧ o.status = .confirmed ∧
      ∃ k b z, Printed t w₂ o d k b z := by
  obtain ⟨o, ho, rfl, huser, hzone, hst, hdescribed⟩ := getOrderSeats_detail hd
  have hw₁ := hw.exec h₁
  have ho₁ := confirmed_exec hw.traceable h₁ ho hst
  have ho₂ := confirmed_exec hw₁.traceable h₂ ho₁ hst
  obtain ⟨d', k, b, z, hp⟩ := exists_printed ht hmap (hw₁.exec h₂) ho₂ hzone hst
  have hlater := describe_later ht hmap hw₁ h₂ ho₁ hzone hst hdescribed
  obtain rfl : d' = d := Option.some.inj (hp.described.symm.trans hlater)
  exact ⟨o, ho₂, rfl, huser, hzone, hst, k, b, z, hp⟩

end Tickets

/-- A ticket is final.  Of two calls of `get_order_seats` for an order, the second started after the first was
answered, with any steps of the system in between and between their reads, and with other zone names perhaps:
when the first shows the seats, there are as many labels as tickets in the order, none twice, and the second
shows the same chairs under the name that their zone has by then; a 404 for want of a seat map stays; and a
409 is answered only while the order is not confirmed. -/
theorem ticket_is_final {t t' : SeatTables} {cfg : Settings} {w₀ w₁ w₂ w₃ w₄ : World}
    {before first pause second : List Act}
    (hstart : w₀.Start) (hunsold : w₀.db.Unsold) (ht : t.Sound) (hmap : t.Covers w₀.db.seatBlocks)
    (h₁ : exec (step cfg) w₀ before = some w₁) (h₂ : exec (step cfg) w₁ first = some w₂)
    (h₃ : exec (step cfg) w₂ pause = some w₃) (h₄ : exec (step cfg) w₃ second = some w₄) (hrenamed : t.Renamed t')
    (user : UserId) (id : OrderId) :
    (∀ d, getOrderSeats t w₁ w₂ user id = .detail d → d.labels.Nodup ∧
      ∃ o ∈ w₁.db.orders, o.id = id ∧ o.user = user ∧ (d.labels.length : Int) = o.quantity ∧
        ∃ z ∈ t.zones, ∃ z' ∈ t'.zones, o.zone = some z.id ∧ z'.id = z.id ∧ d.zoneName = z.name ∧
          getOrderSeats t' w₃ w₄ user id = .detail { d with zoneName := z'.name }) ∧
    (getOrderSeats t w₁ w₂ user id = .noSeatMap → getOrderSeats t' w₃ w₄ user id = .noSeatMap) ∧
    (getOrderSeats t w₁ w₂ user id = .notAssigned →
      ∃ o ∈ w₁.db.orders, o.id = id ∧ o.user = user ∧ o.zone ≠ none ∧ o.status ≠ .confirmed) := by
  have hw₁ := (World.Ticketed.start hstart hunsold).exec h₁
  have hw₂ := hw₁.exec h₂
  have hw₃ := hw₂.exec h₃
  refine ⟨fun d hd => ?_, fun hno => ?_, fun hno => ?_⟩
  · obtain ⟨o, ho, rfl, rfl, hzone, hst, hdescribed⟩ := getOrderSeats_detail hd
    have ho₂ := confirmed_exec hw₁.traceable h₂ ho hst
    have ho₃ := confirmed_exec hw₂.traceable h₃ ho₂ hst
    obtain ⟨d', k, b, z, hp⟩ := exists_printed ht hmap hw₂ ho₂ hzone hst
    obtain rfl : d' = d := Option.some.inj (hp.described.symm.trans hdescribed)
    have hlater : describeOrderSeats t w₄.db o.id = some d' :=
      describe_later ht hmap hw₃ h₄ ho₃ hzone hst (describe_later ht hmap hw₂ h₃ ho₂ hzone hst hdescribed)
    have hw₄ := hw₃.exec h₄
    obtain ⟨d'', k', b', z', hp'⟩ := exists_printed ht hmap hw₄ (confirmed_exec hw₃.traceable h₄ ho₃ hst) hzone hst
    obtain rfl : d'' = d' := Option.some.inj (hp'.described.symm.trans hlater)
    obtain ⟨y, hy, hid, hrename⟩ := describe_renamed hrenamed ht hw₄ hp'
    obtain ⟨hlength, hnodup⟩ := hp.labels ht
    refine ⟨hnodup, o, ho, rfl, rfl, hlength, z', hp'.zone, y, hy, hp'.bought, hid, ?_, ?_⟩
    · rw [hp'.detail]
    · exact getOrderSeats_of_confirmed hw₃.traceable ho₃ hzone hst hrename
  · -- the zone of an order is never changed
    unfold getOrderSeats at hno
    cases ho : w₁.db.orderById id with
    | none => simp [ho] at hno
    | some o =>
      obtain ⟨hmem, rfl⟩ := orderById_eq_some ho
      simp only [ho] at hno
      split at hno
      · cases hno
      · rename_i huser
        split at hno
        · rename_i hzone
          obtain ⟨o₂, ho₂, hs₂⟩ := (hw₁.traceable.extends h₂).orders o hmem
          obtain ⟨o₃, ho₃, hs₃⟩ := (hw₂.traceable.extends h₃).orders o₂ ho₂
          have hs := hs₃.trans hs₂
          have hfind : w₃.db.orderById o.id = some o₃ := find?_key hw₃.traceable.linked.db.ids ho₃ hs.id
          have huser₃ : o₃.user = user := hs.user.trans (by simpa using huser)
          simp [getOrderSeats, hfind, huser₃, hs.zone.trans hzone]
        · split at hno
          · cases hno
          · split at hno <;> cases hno
  · unfold getOrderSeats at hno
    cases ho : w₁.db.orderById id with
    | none => simp [ho] at hno
    | some o =>
      obtain ⟨hmem, rfl⟩ := orderById_eq_some ho
      simp only [ho] at hno
      split at hno
      · cases hno
      · rename_i huser
        split at hno
        · cases hno
        · rename_i hzone
          refine ⟨o, hmem, rfl, by simpa using huser, hzone, fun hst => ?_⟩
          -- the hold of a confirmed order is there
          obtain ⟨d, k, b, z, hp⟩ := exists_printed ht hmap hw₂ (confirmed_exec hw₁.traceable h₂ hmem hst) hzone hst
          rw [if_neg (by simp [hst]), hp.described] at hno
          cases hno

/-- No chair is on two tickets.  Two orders of one event, each answered with its seats at some time of a run:
no label is on both tickets under one zone, row and block, with the zones named as they are in `t`.  The zones
of the event's orders are of one venue: `create_event` and `load_zone_prices` see to it. -/
theorem tickets_exclusive {t : SeatTables} {cfg : Settings} {w₀ w₁ w₂ w₃ w₄ w : World} {event : EventId} {venue : Nat}
    {before first rest before' second rest' : List Act} (hstart : w₀.Start) (hunsold : w₀.db.Unsold) (ht : t.Sound)
    (hmap : t.Covers w₀.db.seatBlocks) (h₁ : exec (step cfg) w₀ before = some w₁)
    (h₂ : exec (step cfg) w₁ first = some w₂)
    (h : exec (step cfg) w₂ rest = some w) (h₃ : exec (step cfg) w₀ before' = some w₃)
    (h₄ : exec (step cfg) w₃ second = some w₄) (h' : exec (step cfg) w₄ rest' = some w)
    (hvenue : ∀ o ∈ w.db.orders, o.event = event → ∀ z ∈ t.zones, o.zone = some z.id → z.venue = venue)
    {user user' : UserId} {id id' : OrderId} (hne : id ≠ id')
    (hevent : ∀ o ∈ w.db.orders, o.id = id ∨ o.id = id' → o.event = event)
    {d d' : SeatedOrderDetail} (hd : getOrderSeats t w₁ w₂ user id = .detail d)
    (hd' : getOrderSeats t w₃ w₄ user' id' = .detail d')
    (hsame : d.zoneName = d'.zoneName ∧ d.rowLabel = d'.rowLabel ∧ d.blockIndex = d'.blockIndex) :
    d.labels.Disjoint d'.labels := by
  intro label hl hl'
  have hw₀ := World.Ticketed.start hstart hunsold
  have hw := ((hw₀.exec h₁).exec h₂).exec h
  obtain ⟨o, ho, hid, -, -, -, k, b, z, hp⟩ := printed_later ht hmap (hw₀.exec h₁) h₂ h hd
  obtain ⟨o', ho', hid', -, -, -, k', b', z', hp'⟩ := printed_later ht hmap (hw₀.exec h₃) h₄ h' hd'
  have hev := hevent o ho (.inl hid)
  have hev' := hevent o' ho' (.inr hid')
  rw [hp.detail, hp'.detail] at hsame
  -- one venue has one zone of a name, one zone one block of a row and index
  have hz : z = z' := by
    by_contra hdiffer
    refine ht.zones.forall hp.zone hp'.zone hdiffer ?_
    exact ⟨(hvenue o ho hev z hp.zone hp.bought).trans (hvenue o' ho' hev' z' hp'.zone hp'.bought).symm, hsame.1⟩
  have hb : b = b' := by
    by_contra hdiffer
    refine ht.blocks.forall hp.block hp'.block hdiffer ?_
    exact ⟨hp.zoneId.symm.trans (hz ▸ hp'.zoneId), hsame.2⟩
  subst hb
  have horders : k.order ≠ k'.order := by rw [hp.order, hp'.order, hid, hid']; exact hne
  have hapart := hw.rows.apart k hp.hold k' hp'.hold horders (by rw [hp.event, hp'.event, hev, hev'])
    (hp.blockId.symm.trans hp'.blockId)
  obtain ⟨labels, -, hnodup, hslice⟩ := ht.seatLabels_eq hp.block
  obtain ⟨hpos, hlow, -⟩ := hp.inside
  obtain ⟨hpos', hlow', -⟩ := hp'.inside
  rw [hp.detail] at hl
  rw [hp'.detail] at hl'
  simp only [hslice _ _ hlow] at hl
  simp only [hslice _ _ hlow'] at hl'
  simp only [Span.stop, SeatHold.span] at hapart
  refine slices_disjoint hnodup ?_ hl hl'
  omega

/-! ### A sample -/

/-- The seat map of the sample event. -/
def sampleTables : SeatTables where
  venues := [⟨0, "Hall"⟩]
  zones := [⟨1, 0, "A", 0⟩]
  blocks := [⟨1, 1, "R1", 0, 10, 1, 1 / 2⟩]
  seats := labelSeats 1 ["1", "2", "3", "5", "6", "7", "8", "9", "10", "11"]
  venueSeq := 1
  zoneSeq := 2
  blockSeq := 2

theorem sampleTables_sound : sampleTables.Sound where
  venueIds := by decide
  zoneIds := by decide
  zoneVenues := by decide
  blockIds := by decide
  seatBlocks := by decide
  zoneNodup := by decide
  blockNodup := by decide
  blockZones := by decide
  zones := by decide
  blocks := by decide
  seats := by decide +kernel
  checked := by
    intro b hb
    obtain rfl := List.mem_singleton.1 hb
    norm_num [BlockRow.Checked]
  dense := by
    intro b hb
    obtain rfl := List.mem_singleton.1 hb
    exact ⟨["1", "2", "3", "5", "6", "7", "8", "9", "10", "11"], rfl, by decide, by decide +kernel⟩

theorem sampleTables_covers : sampleTables.Covers seatedStart.db.seatBlocks := by
  intro b hb
  obtain rfl := List.mem_singleton.1 hb
  exact ⟨_, List.mem_singleton_self _, rfl, rfl, rfl⟩

/-- Two requests for two seats each, both committed, paid and confirmed. -/
def twoTickets : List Act :=
  seatRequest ++ promptConsumer ++
    [.intake (.call 1 1 1 2 2 100 2), .intake (.read 1), .intake (.claim 1 0), .intake (.forget 1),
      .settle (.deliver 0 2),
      .settle (.persist 0 8 true), .settle (.ack 0), .transition 7 .paid 0, .transition 7 .confirmed 0,
      .transition 8 .paid 0, .transition 8 .confirmed 0]

/-- The zone is renamed between the two calls. -/
theorem ticket_is_final_sample : ∃ w, exec (step {}) seatedStart twoTickets = some w ∧
    getOrderSeats sampleTables w w 1 7 = .detail ⟨"A", "R1", 0, ["1", "2"]⟩ ∧
    getOrderSeats { sampleTables with zones := [⟨1, 0, "Stalls", 0⟩] } w w 1 7 =
      .detail ⟨"Stalls", "R1", 0, ["1", "2"]⟩ ∧
    ["1", "2"].Nodup := by
  obtain ⟨w, hw, hp⟩ := exec_any (step {}) seatedStart twoTickets
    (fun w => getOrderSeats sampleTables w w 1 7 = .detail ⟨"A", "R1", 0, ["1", "2"]⟩) (by decide +kernel)
  rw [decide_eq_true_eq] at hp
  have hstay : exec (step {}) w [] = some w := rfl
  have hrenamed : sampleTables.Renamed { sampleTables with zones := [⟨1, 0, "Stalls", 0⟩] } := ⟨rfl, rfl, rfl⟩
  have hfinal := ticket_is_final seatedStart_built.start
    ⟨rfl, rfl, rfl⟩ sampleTables_sound sampleTables_covers hw hstay hstay
    hstay hrenamed 1 7
  obtain ⟨hnodup, o, -, -, -, -, z, -, z', hz', -, -, -, hlater⟩ := hfinal.1 _ hp
  obtain rfl := List.mem_singleton.1 hz'
  exact ⟨w, hw, hp, hlater, hnodup⟩

theorem tickets_exclusive_sample : ∃ w, exec (step {}) seatedStart twoTickets = some w ∧
    getOrderSeats sampleTables w w 1 7 = .detail ⟨"A", "R1", 0, ["1", "2"]⟩ ∧
    getOrderSeats sampleTables w w 2 8 = .detail ⟨"A", "R1", 0, ["3", "5"]⟩ ∧
    List.Disjoint ["1", "2"] ["3", "5"] := by
  obtain ⟨w, hw, hp⟩ := exec_any (step {}) seatedStart twoTickets
    (fun w => getOrderSeats sampleTables w w 1 7 = .detail ⟨"A", "R1", 0, ["1", "2"]⟩ ∧
      getOrderSeats sampleTables w w 2 8 = .detail ⟨"A", "R1", 0, ["3", "5"]⟩ ∧ ∀ o ∈ w.db.orders, o.event = 1)
    (by decide +kernel)
  rw [decide_eq_true_eq] at hp
  obtain ⟨hd, hd', hevent⟩ := hp
  have hstay : exec (step {}) w [] = some w := rfl
  have hvenue : ∀ o ∈ w.db.orders, o.event = 1 → ∀ z ∈ sampleTables.zones, o.zone = some z.id → z.venue = 0 := by
    intro o _ _ z hz _
    rw [List.mem_singleton.1 hz]
  exact ⟨w, hw, hd, hd', tickets_exclusive seatedStart_built.start
    ⟨rfl, rfl, rfl⟩ sampleTables_sound sampleTables_covers
    hw hstay hstay hw hstay hstay hvenue (by decide) (fun o ho _ => hevent o ho) hd hd' ⟨rfl, rfl, rfl⟩⟩

end Ticketing
