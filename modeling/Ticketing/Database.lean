import Ticketing.Redis

/-!
# The database rows

The tables behind the order pipeline (`app/models/order.py`, `seating.py`, `outbox.py`) and the transactions that
change them: `_persist_intent` of the worker, the status transitions of `app/services/orders.py`, and the row
operations of `release_order_seat` and of the outbox relay.  A transaction is a function to the database after its
commit; `none` is a rollback.

The seats of a block are the positions `0, …, capacity - 1`.  Foreign keys to tables that no step changes (users,
event zone prices) enter as one flag of the insertion.
-/

namespace Ticketing

/-- A wall-clock time. -/
abbrev Time := Nat
abbrev OutboxId := Nat

/-! ### Orders -/

inductive OrderStatus where
  | pending
  | paid
  | confirmed
  | expired
  | cancelled
deriving DecidableEq, Repr

namespace OrderStatus

/-- `_VALID_TRANSITIONS`. -/
def validTransitions : OrderStatus → List OrderStatus
  | pending => [paid, expired, cancelled]
  | paid => [confirmed]
  | confirmed => []
  | expired => []
  | cancelled => []

/-- The statuses whose orders count as sold. -/
def held : OrderStatus → Bool
  | pending | paid | confirmed => true
  | expired | cancelled => false

end OrderStatus

structure Order where
  id : OrderId
  user : UserId
  event : EventId
  zone : Option ZoneId
  quantity : Int
  totalPriceCents : Int
  key : Key
  status : OrderStatus := .pending
  paidAt : Option Time := none
  confirmedAt : Option Time := none
  expiredAt : Option Time := none
  cancelledAt : Option Time := none
deriving DecidableEq, Repr

/-- The columns the conditional update of `transition_order_status` writes: the status and, by `_STATUS_TIMESTAMP`,
its time stamp. -/
def Order.stamp (o : Order) (status : OrderStatus) (now : Time) : Order :=
  match status with
  | .pending => { o with status }
  | .paid => { o with status, paidAt := some now }
  | .confirmed => { o with status, confirmedAt := some now }
  | .expired => { o with status, expiredAt := some now }
  | .cancelled => { o with status, cancelledAt := some now }

section Stamp

variable (o : Order) (status : OrderStatus) (now : Time)

@[simp] theorem Order.stamp_status : (o.stamp status now).status = status := by cases status <;> rfl
@[simp] theorem Order.stamp_id : (o.stamp status now).id = o.id := by cases status <;> rfl
@[simp] theorem Order.stamp_user : (o.stamp status now).user = o.user := by cases status <;> rfl
@[simp] theorem Order.stamp_event : (o.stamp status now).event = o.event := by cases status <;> rfl
@[simp] theorem Order.stamp_zone : (o.stamp status now).zone = o.zone := by cases status <;> rfl
@[simp] theorem Order.stamp_quantity : (o.stamp status now).quantity = o.quantity := by cases status <;> rfl
@[simp] theorem Order.stamp_totalPriceCents : (o.stamp status now).totalPriceCents = o.totalPriceCents := by
  cases status <;> rfl
@[simp] theorem Order.stamp_key : (o.stamp status now).key = o.key := by cases status <;> rfl

end Stamp

/-! ### Holds, outbox rows, blocks and events -/

structure SeatHold where
  event : EventId
  zone : ZoneId
  block : BlockId
  order : OrderId
  startPos : Int
  length : Int
  confirmedAt : Option Time := none
deriving DecidableEq, Repr

/-- The interval `[start_pos, start_pos + length)`. -/
def SeatHold.span (h : SeatHold) : Run := ⟨h.block, h.startPos, h.length⟩

/-- An outbox row of type `seat.release`; `processed` is `processed_at IS NOT NULL`. -/
structure OutboxEntry where
  id : OutboxId
  order : OrderId
  attempts : Nat := 0
  processed : Bool := false
deriving DecidableEq, Repr

structure SeatBlock where
  id : BlockId
  zone : ZoneId
  capacity : Int
  qualityBase : ℚ := 1
  qualityEdge : ℚ := 1 / 2
  capacity_pos : 0 < capacity
  quality_range : 0 ≤ qualityEdge ∧ qualityEdge ≤ qualityBase ∧ qualityBase ≤ 1 := by norm_num
deriving DecidableEq

theorem SeatBlock.default_quality_range : (0 : ℚ) ≤ 1 / 2 ∧ (1 / 2 : ℚ) ≤ 1 ∧ (1 : ℚ) ≤ 1 := by norm_num

/-- What the pipeline reads of an event row; `seated` is `venue_id IS NOT NULL`. -/
structure EventRow where
  totalSeats : Int
  seated : Bool
deriving DecidableEq

structure Db where
  orders : List Order
  seatHolds : List SeatHold
  outbox : List OutboxEntry
  seatBlocks : List SeatBlock
  events : EventId → Option EventRow

namespace Db

/-- `get_order_by_id`. -/
def orderById (db : Db) (id : OrderId) : Option Order := db.orders.find? fun o => o.id = id

/-- `get_order_by_idempotency_key` finds a row. -/
def hasKey (db : Db) (key : Key) : Bool := db.orders.any fun o => o.key = key

/-- The hold row of an order. -/
def holdOf (db : Db) (id : OrderId) : Option SeatHold := db.seatHolds.find? fun h => h.order = id

/-! ### Inserting an order -/

/-- The constraints of `seat_holds`: the checks, one hold for an order, the block in its zone, the last seat inside
the block, and no overlap with a hold of the same event (`ex_seat_holds_no_overlap`). -/
def AcceptsHold (db : Db) (h : SeatHold) : Prop :=
  0 < h.length ∧ 0 ≤ h.startPos ∧ (∀ h' ∈ db.seatHolds, h'.order ≠ h.order) ∧
    (∃ b ∈ db.seatBlocks, b.id = h.block ∧ b.zone = h.zone ∧ h.startPos + h.length ≤ b.capacity) ∧
    ∀ h' ∈ db.seatHolds, h'.event = h.event → h'.span.Disjoint h.span

instance (s t : Run) : Decidable (s.Disjoint t) := by unfold Span.Disjoint; infer_instance

instance (db : Db) (h : SeatHold) : Decidable (db.AcceptsHold h) := by unfold AcceptsHold; infer_instance

/-- The constraints of `orders`: the keys are unique and the two checks hold. -/
def AcceptsOrder (db : Db) (o : Order) : Prop :=
  (∀ o' ∈ db.orders, o'.id ≠ o.id) ∧ (∀ o' ∈ db.orders, o'.key ≠ o.key) ∧ 0 < o.quantity ∧ 0 ≤ o.totalPriceCents

instance (db : Db) (o : Order) : Decidable (db.AcceptsOrder o) := by unfold AcceptsOrder; infer_instance

end Db

/-- `bool(zone_id) == bool(block_id)`. -/
def Intent.consistent (i : Intent) : Bool := i.zone.isSome == i.seat.isSome

/-- The order row an intent becomes. -/
def Intent.order (i : Intent) (id : OrderId) : Order where
  id
  user := i.user
  event := i.event
  zone := i.zone
  quantity := i.quantity
  totalPriceCents := i.totalPriceCents
  key := i.key

/-- The hold row of a seated intent. -/
def Intent.hold (i : Intent) (id : OrderId) : Option SeatHold :=
  i.zone.bind fun zone => i.seat.map fun seat =>
    { event := i.event, zone, block := seat.block, order := id, startPos := seat.startPos, length := i.quantity }

/-- The interval of a seated intent. -/
def Intent.span (i : Intent) : Option Run := i.seat.map fun seat => ⟨seat.block, seat.startPos, i.quantity⟩

/-- The insertions of `_persist_intent` with their commit: the order and, for a seated intent, its hold.  `fk` says
whether the foreign keys hold; `none` is the rollback after an `IntegrityError`. -/
def Db.insertIntent (db : Db) (i : Intent) (id : OrderId) (fk : Bool) : Option Db :=
  if fk = true ∧ db.AcceptsOrder (i.order id) ∧ ∀ h ∈ i.hold id, db.AcceptsHold h then
    some { db with orders := db.orders ++ [i.order id], seatHolds := db.seatHolds ++ (i.hold id).toList }
  else none

/-! ### Transitions, releases and the outbox -/

namespace Db

/-- A committed transition: the compare-and-swap of `transition_order_status`, with the outbox row of
`_transition_owing_release` or the hold freeze of `mark_confirmed`.  `none` is a transition that is not legal from
the committed status or that lost its race, where nothing is written. -/
def transition (db : Db) (id : OrderId) (new : OrderStatus) (now : Time) : Option Db :=
  (db.orderById id).bind fun o =>
    if new ∈ o.status.validTransitions then
      some { db with
        orders := db.orders.map fun o' => if o'.id = id then o'.stamp new now else o'
        outbox := if new.held then db.outbox else db.outbox ++ [{ id := db.outbox.length, order := id }]
        seatHolds :=
          if new = .confirmed ∧ o.zone.isSome then
            db.seatHolds.map fun h =>
              if h.order = id ∧ h.confirmedAt = none then { h with confirmedAt := some now } else h
          else db.seatHolds }
    else none

/-- `db.delete(hold)` and its commit. -/
def deleteHold (db : Db) (id : OrderId) : Db :=
  { db with seatHolds := db.seatHolds.filter fun h => h.order ≠ id }

/-- `_OUTBOX_CLAIM_SQL` on one row. -/
def claimOutbox (db : Db) (row : OutboxId) : Db :=
  { db with outbox := db.outbox.map fun e => if e.id = row then { e with attempts := e.attempts + 1 } else e }

/-- The attempts of a row set back by hand. -/
def redriveOutbox (db : Db) (row : OutboxId) : Db :=
  { db with outbox := db.outbox.map fun e => if e.id = row then { e with attempts := 0 } else e }

def markProcessed (db : Db) (row : OutboxId) : Db :=
  { db with outbox := db.outbox.map fun e => if e.id = row then { e with processed := true } else e }

/-- The sum of `quantity` over the held orders of an event. -/
def sold (db : Db) (event : EventId) : Int :=
  ((db.orders.filter fun o => o.event = event ∧ o.status.held).map Order.quantity).sum

/-- The sum of `quantity` over the held orders of an event, by user. -/
def soldByUser (db : Db) (event : EventId) : Hash UserId Int :=
  (db.orders.filter fun o => o.event = event ∧ o.status.held).foldl (fun h o => Hash.incr h o.user o.quantity) ∅

end Db

end Ticketing
