import Ticketing.Pipeline

/-!
# Transactions on one order, statement by statement

The writers of an order's status: the cancel endpoint, the two expiry crons (T1 `expire_pending_orders`, T2
`expire_abandoned_payments`), the mock payment endpoint and the Stripe webhook (`app/api/v1/webhook.py`).
Each is a session with a program counter.  A session reads the order, decides on what it read, writes with a
compare-and-swap and commits; between two of its statements any other session may run, so what it read may be
stale.  The writes of an open transaction are kept apart until its commit.

Postgres under READ COMMITTED: a conditional update of a row that another open transaction has written waits
for that transaction and then looks at the committed row again, and the insertion of a key that another open
transaction has inserted waits in the same way.  A step that would have to wait is not enabled.  A session may
stop at any point: an open transaction is rolled back, and what was still to be done after a commit is not
done.

Two components record what happened and are not read by any step: `history`, the statuses written by committed
transactions, and `decided` and `handled`, the payment events whose handler committed a refund decision or ran
to its end.  The Redis half of a release is part of the pipeline and not of this system.
-/

namespace Ticketing

abbrev PaymentIntentId := Nat
abbrev StripeEventId := Nat

/-! ### Row writes -/

/-- A row write of an open transaction. -/
inductive Write where
  /-- The conditional update of `orders`. -/
  | status (order : OrderId) (new : OrderStatus) (now : Time)
  /-- The new `seat.release` row. -/
  | outbox (order : OrderId)
  /-- The update of `seat_holds` that freezes the seats of an order. -/
  | freeze (order : OrderId) (now : Time)
deriving DecidableEq

def Write.apply (db : Db) : Write → Db
  | .status id new now => { db with orders := db.orders.map fun o => if o.id = id then o.stamp new now else o }
  | .outbox id => { db with outbox := db.outbox ++ [{ id := db.outbox.length, order := id }] }
  | .freeze id now =>
    { db with seatHolds := db.seatHolds.map fun h =>
        if h.order = id ∧ h.confirmedAt = none then { h with confirmedAt := some now } else h }

/-- The rows an open transaction sees, and the rows after its commit. -/
def Db.written (db : Db) (ws : List Write) : Db := ws.foldl Write.apply db

/-- The status a write gives to an order. -/
def Write.visited : Write → Option (OrderId × OrderStatus)
  | .status id new _ => some (id, new)
  | .outbox _ => none
  | .freeze _ _ => none

/-- The statuses of one order among the statuses written, in order. -/
def visits (history : List (OrderId × OrderStatus)) (id : OrderId) : List OrderStatus :=
  (history.filter fun p => p.1 = id).map Prod.snd

/-! ### The order service -/

/-- The check constraints of `orders`. -/
def Order.Checks (o : Order) : Prop :=
  0 < o.quantity ∧ 0 ≤ o.totalPriceCents ∧ (o.status = .paid → o.paidAt.isSome) ∧
    (o.status = .confirmed → o.confirmedAt.isSome) ∧ (o.status = .expired → o.expiredAt.isSome) ∧
    (o.status = .cancelled → o.cancelledAt.isSome) ∧ (o.expiredAt = none ∨ o.cancelledAt = none) ∧
    (o.confirmedAt.isSome → o.paidAt.isSome) ∧ ∀ confirmed ∈ o.confirmedAt, ∀ paid ∈ o.paidAt, paid ≤ confirmed

instance (o : Order) : Decidable o.Checks := by unfold Order.Checks; infer_instance

/-- The outcome of `transition_order_status`. -/
inductive Swap where
  /-- `InvalidOrderTransition` is raised. -/
  | invalid (order : OrderId) (source target : OrderStatus)
  /-- `False`: the row has left the status that was read. -/
  | lost
  /-- `IntegrityError`: the updated row fails a check. -/
  | rejected
  /-- `True`, with the writes of this call. -/
  | applied (ws : List Write)
deriving DecidableEq

/-- The further writes of a caller that got `True`. -/
def Swap.andThen (swap : Swap) (more : List Write) : Swap :=
  match swap with
  | .applied ws => .applied (ws ++ more)
  | swap => swap

/-- The update is conditional on the status of `order`, which was read before and may be stale. -/
def transitionOrderStatus (view : Db) (order : Order) (new : OrderStatus) (now : Time) : Swap :=
  if new ∈ order.status.validTransitions then
    match (view.orderById order.id).filter fun row => row.status = order.status with
    | none => .lost
    | some row => if (row.stamp new now).Checks then .applied [.status order.id new now] else .rejected
  else .invalid order.id order.status new

def markPaid (view : Db) (order : Order) (now : Time) : Swap := transitionOrderStatus view order .paid now

def markConfirmed (view : Db) (order : Order) (now : Time) : Swap :=
  (transitionOrderStatus view order .confirmed now).andThen (if order.zone.isSome then [.freeze order.id now] else [])

def transitionOwingRelease (view : Db) (order : Order) (new : OrderStatus) (now : Time) : Swap :=
  (transitionOrderStatus view order new now).andThen [.outbox order.id]

def cancelOrder (view : Db) (order : Order) (now : Time) : Swap := transitionOwingRelease view order .cancelled now

def expireOrder (view : Db) (order : Order) (now : Time) : Swap := transitionOwingRelease view order .expired now

/-- `db.refresh(order)`. -/
def Order.refresh (order : Order) (view : Db) : Order := (view.orderById order.id).getD order

/-! ### Payment events -/

/-- The fields of a payment intent that the webhook reads; `orderId` is `_order_id`. -/
structure PaymentIntent where
  id : PaymentIntentId
  orderId : Option OrderId
  amountReceived : Option Int := none
  amount : Option Int := none
deriving DecidableEq

/-- `intent.get("amount_received") or intent.get("amount")`. -/
def PaymentIntent.captured (intent : PaymentIntent) : Option Int :=
  match intent.amountReceived with
  | some received => if received = 0 then intent.amount else some received
  | none => intent.amount

inductive EventType where
  | succeeded
  | paymentFailed
  | canceled
  | other
deriving DecidableEq

structure StripeEvent where
  id : StripeEventId
  type : EventType
  intent : PaymentIntent
deriving DecidableEq

/-- `_RefundNeeded`. -/
structure RefundNeeded where
  paymentIntent : PaymentIntentId
  reason : String
deriving DecidableEq

def OrderStatus.value : OrderStatus → String
  | pending => "pending"
  | paid => "paid"
  | confirmed => "confirmed"
  | expired => "expired"
  | cancelled => "cancelled"

inductive Alert where
  | paymentRefunded (refund : RefundNeeded)
  | refundFailed (paymentIntent : PaymentIntentId)
deriving DecidableEq

/-- What is left to do after a commit. -/
inductive After where
  | nothing
  | release (order : Order)
  | refund (refund : RefundNeeded)
deriving DecidableEq

/-- What a session does with the order it read. -/
inductive Decision where
  /-- It ends without a commit. -/
  | quit
  /-- It commits without a write to the order. -/
  | finish (after : After)
  /-- Its compare-and-swap comes next. -/
  | swap (order : Order)
deriving DecidableEq

def refundReasonAmount (captured : Option Int) (total : Int) : String :=
  "amount " ++ (captured.map toString).getD "None" ++ " != order total " ++ toString total

def refundReasonStatus (order : OrderId) (status : OrderStatus) : String :=
  "order " ++ toString order ++ " is " ++ status.value

def refundReasonLost (order : OrderId) : String := "order " ++ toString order ++ " left PENDING mid-payment"

/-- `_handle_payment_succeeded` up to its compare-and-swap. -/
def handlePaymentSucceeded (intent : PaymentIntent) (order : Option Order) : Decision :=
  match order with
  | none => .finish .nothing
  | some o =>
    if intent.captured ≠ some o.totalPriceCents then
      .finish (.refund ⟨intent.id, refundReasonAmount intent.captured o.totalPriceCents⟩)
    else if o.status = .paid ∨ o.status = .confirmed then .finish .nothing
    else if o.status ≠ .pending then .finish (.refund ⟨intent.id, refundReasonStatus o.id o.status⟩)
    else .swap o

/-- `_handle_payment_aborted` up to its compare-and-swap. -/
def handlePaymentAborted (order : Option Order) : Decision :=
  match order with
  | none => .finish .nothing
  | some o => if o.status ≠ .pending then .finish .nothing else .swap o

/-! ### Sessions -/

/-- What a session runs. -/
inductive Task where
  /-- `POST /orders/{id}/cancel`. -/
  | cancel (order : OrderId) (user : UserId)
  /-- T1 on an order it has listed. -/
  | expirePending (order : OrderId)
  /-- T2 on an order it has listed and whose intent Stripe reports as canceled. -/
  | expireAbandoned (order : OrderId)
  /-- `POST /orders/{id}/pay`. -/
  | pay (order : OrderId) (user : UserId)
  | webhook (event : StripeEvent)
  /-- The outbox relay on a row it has claimed. -/
  | relay (row : OutboxId)
deriving DecidableEq

namespace Task

/-- The order a session reads. -/
def order : Task → Option OrderId
  | cancel id _ | expirePending id | expireAbandoned id | pay id _ => some id
  | webhook event => event.intent.orderId
  | relay _ => none

/-- The event a session claims. -/
def event : Task → Option StripeEvent
  | webhook event => some event
  | _ => none

/-- `RequestTimeoutMiddleware` guards the session. -/
def isRequest : Task → Bool
  | cancel _ _ | pay _ _ | webhook _ => true
  | expirePending _ | expireAbandoned _ | relay _ => false

/-- The branch on the order that was read. -/
def decide (task : Task) (order : Option Order) : Decision :=
  match task with
  | cancel _ user | pay _ user =>
    match order with
    | none => .quit
    | some o => if o.user ≠ user then .quit else .swap o
  | expirePending _ | expireAbandoned _ =>
    match order with
    | none => .quit
    | some o => if o.status ≠ .pending then .quit else .swap o
  | webhook event =>
    match event.type with
    | .succeeded => handlePaymentSucceeded event.intent order
    | .canceled => handlePaymentAborted order
    | .paymentFailed => .finish .nothing
    | .other => .finish .nothing
  | relay _ => .quit

/-- The session pays the order, else it gives the order up. -/
def pays : Task → Bool
  | pay _ _ => true
  | webhook event => event.type = .succeeded
  | _ => false

/-- The first compare-and-swap of the session. -/
def swap (task : Task) (view : Db) (order : Order) (now : Time) : Swap :=
  match task with
  | cancel _ _ => cancelOrder view order now
  | pay _ _ => markPaid view order now
  | webhook event => if event.type = .succeeded then markPaid view order now else expireOrder view order now
  | _ => expireOrder view order now

/-- After a lost race the endpoints raise and the crons go on to the next order; the webhook commits its claim. -/
def onLost (task : Task) (order : Order) : Decision :=
  match task with
  | webhook event =>
    if event.type = .succeeded then .finish (.refund ⟨event.intent.id, refundReasonLost order.id⟩)
    else .finish .nothing
  | _ => .quit

end Task

inductive Point where
  /-- Before `claim_event`. -/
  | claim
  /-- Before the read of the order. -/
  | load
  | swap (order : Order)
  /-- Paid in the open transaction, before `mark_confirmed`. -/
  | confirm (order : Order)
  | commit (after : After)
  /-- In `release_order_seat`, for the fast path or for an outbox row. -/
  | release (order : Order) (row : Option OutboxId)
  /-- The hold was read and is deleted next. -/
  | drop (order : Order) (row : Option OutboxId)
  /-- Before the outbox row is marked as processed. -/
  | finish (row : OutboxId)
  /-- Committed, before the refund is announced. -/
  | refund (refund : RefundNeeded)
  /-- In `create_refund`; `accepted` says that Stripe has taken the refund. -/
  | refunding (refund : RefundNeeded) (accepted : Bool)
deriving DecidableEq

structure Session where
  task : Task
  point : Point
  writes : List Write := []
  /-- Milliseconds since the session began, and since its present call began. -/
  elapsed : Nat := 0
  waited : Nat := 0
deriving DecidableEq

/-- The timeouts of `Settings`, in milliseconds; `0` is no limit (`STRIPE_TIMEOUT_SECONDS` is positive). -/
structure Timeouts where
  request : Nat := 15000
  dbStatement : Nat := 0
  stripe : Nat := 10000

/-- `_guard_inner_timeouts_are_shorter`. -/
def Timeouts.guardInnerTimeoutsAreShorter (t : Timeouts) : Bool :=
  t.request = 0 ∨ t.dbStatement < t.request ∧ t.stripe < t.request

/-- The limit of the call a session is in. -/
def Timeouts.limit (t : Timeouts) : Point → Nat
  | .refunding .. => t.stripe
  | _ => t.dbStatement

structure Backend where
  db : Db
  /-- The committed rows of `stripe_events`. -/
  stripeEvents : List StripeEventId := []
  /-- The session whose open transaction has written the order row. -/
  rowLocks : OrderId → Option Nat := fun _ => none
  /-- The session whose open transaction has inserted the event row. -/
  eventLocks : StripeEventId → Option Nat := fun _ => none
  sessions : Nat → Option Session := fun _ => none
  /-- The refunds that Stripe has accepted. -/
  refunds : List PaymentIntentId := []
  alerts : List Alert := []
  history : List (OrderId × OrderStatus) := []
  /-- The events whose claim was committed together with a refund decision. -/
  decided : List (StripeEvent × RefundNeeded) := []
  /-- The events whose handler ran to its end: committed with no refund to make, or with its refund accepted. -/
  handled : List StripeEvent := []

namespace Backend

def set (s : Backend) (n : Nat) (x : Session) : Backend :=
  { s with sessions := Function.update s.sessions n (some x) }

/-- The session goes on to its next call. -/
def goto (s : Backend) (n : Nat) (x : Session) (point : Point) : Backend := s.set n { x with point, waited := 0 }

/-- The locks of session `n` are given back. -/
def unlock (s : Backend) (n : Nat) : Backend :=
  { s with
    rowLocks := fun id => if s.rowLocks id = some n then none else s.rowLocks id
    eventLocks := fun id => if s.eventLocks id = some n then none else s.eventLocks id }

/-- The session ends; an open transaction is rolled back. -/
def close (s : Backend) (n : Nat) : Backend := { s.unlock n with sessions := Function.update s.sessions n none }

/-- The statuses an order has been given by committed transactions. -/
def historyOf (s : Backend) (id : OrderId) : List OrderStatus := visits s.history id

/-! ### Statements -/

/-- `claim_event`. -/
def claimEvent (s : Backend) (n : Nat) (x : Session) (event : StripeEvent) : Option Backend :=
  if event.id ∈ s.stripeEvents then some (s.close n)
  else if s.eventLocks event.id = none then
    some { s.goto n x .load with eventLocks := Function.update s.eventLocks event.id (some n) }
  else none

/-- The session goes where its decision says. -/
def follow (s : Backend) (n : Nat) (x : Session) : Decision → Backend
  | .quit => s.close n
  | .finish after => s.goto n x (.commit after)
  | .swap order => s.goto n x (.swap order)

/-- The first compare-and-swap.  It waits while another open transaction has written a row that it would update. -/
def compareAndSwap (s : Backend) (n : Nat) (x : Session) (order : Order) (now : Time) : Option Backend :=
  match x.task.swap s.db order now with
  | .invalid _ _ _ => some (s.close n)
  | .rejected => some (s.close n)
  | .lost => some (s.follow n x (x.task.onLost order))
  | .applied ws =>
    if s.rowLocks order.id = none then
      let fresh := order.refresh (s.db.written ws)
      let point := if x.task.pays then .confirm fresh else .commit (.release fresh)
      some { s.goto n { x with writes := ws } point with
        rowLocks := Function.update s.rowLocks order.id (some n) }
    else none

/-- `mark_confirmed` in the transaction that wrote PAID; its callers do not look at its answer. -/
def confirm (s : Backend) (n : Nat) (x : Session) (order : Order) (now : Time) : Backend :=
  match markConfirmed (s.db.written x.writes) order now with
  | .invalid _ _ _ => s.close n
  | .rejected => s.close n
  | .lost => s.goto n x (.commit .nothing)
  | .applied ws => s.goto n { x with writes := x.writes ++ ws } (.commit .nothing)

/-- The rows after the commit of a session, with the records of it. -/
def publish (s : Backend) (n : Nat) (x : Session) (after : After) : Backend :=
  { s.unlock n with
    db := s.db.written x.writes
    stripeEvents := s.stripeEvents ++ (x.task.event.map StripeEvent.id).toList
    history := s.history ++ x.writes.filterMap Write.visited
    decided :=
      match x.task.event, after with
      | some event, .refund refund => s.decided ++ [(event, refund)]
      | _, _ => s.decided
    handled :=
      match x.task.event, after with
      | some _, .refund _ => s.handled
      | some event, _ => s.handled ++ [event]
      | none, _ => s.handled }

/-- `db.commit()` and the branch on what is left to do. -/
def commit (s : Backend) (n : Nat) (x : Session) (after : After) : Backend :=
  let s := s.publish n x after
  let x := { x with writes := [] }
  match after with
  | .nothing => s.close n
  | .release order => s.goto n x (.release order none)
  | .refund refund => s.goto n x (.refund refund)

/-- The end of `release_order_seat`. -/
def released (s : Backend) (n : Nat) (x : Session) : Option OutboxId → Backend
  | none => s.close n
  | some row => s.goto n x (.finish row)

/-- `release_order_seat` up to the deletion of the hold. -/
def readHold (s : Backend) (n : Nat) (x : Session) (order : Order) (row : Option OutboxId) : Backend :=
  if order.zone.isSome ∧ (s.db.holdOf order.id).isSome then s.goto n x (.drop order row) else s.released n x row

/-- The next statement of a session. -/
def run (s : Backend) (n : Nat) (x : Session) (now : Time) : Option Backend :=
  match x.point with
  | .claim =>
    match x.task.event with
    | some event => s.claimEvent n x event
    | none => none
  | .load => some (s.follow n x (x.task.decide (x.task.order.bind s.db.orderById)))
  | .swap order => s.compareAndSwap n x order now
  | .confirm order => some (s.confirm n x order now)
  | .commit after => some (s.commit n x after)
  | .release order row => some (s.readHold n x order row)
  | .drop order row => some ({ s with db := s.db.deleteHold order.id }.released n x row)
  | .finish row => some ({ s with db := s.db.markProcessed row }.close n)
  | .refund refund =>
    some { s.goto n x (.refunding refund false) with alerts := s.alerts ++ [.paymentRefunded refund] }
  | .refunding _ accepted =>
    -- the answer of Stripe arrives
    if accepted then some { s.close n with handled := s.handled ++ x.task.event.toList } else none

/-- Stripe takes the refund; the answer is still on its way. -/
def acceptRefund (s : Backend) (n : Nat) (x : Session) : Option Backend :=
  match x.point with
  | .refunding refund false =>
    some { s.goto n x (.refunding refund true) with refunds := s.refunds ++ [refund.paymentIntent] }
  | _ => none

/-- `create_refund` raises an `Exception`. -/
def failRefund (s : Backend) (n : Nat) (x : Session) : Option Backend :=
  match x.point with
  | .refunding refund _ => some { s.close n with alerts := s.alerts ++ [.refundFailed refund.paymentIntent] }
  | _ => none

end Backend

/-! ### The system -/

inductive TxAct where
  /-- The worker persists an intent. -/
  | persist (intent : Intent) (id : OrderId) (fk : Bool)
  | start (n : Nat) (task : Task)
  | run (n : Nat) (now : Time)
  | acceptRefund (n : Nat)
  | failRefund (n : Nat)
  /-- Time passes in the present call of a session. -/
  | wait (n ms : Nat)
  /-- The process dies, or an exception ends the session. -/
  | crash (n : Nat)
  /-- `RequestTimeoutMiddleware` cancels the request. -/
  | timeOut (n : Nat)
deriving DecidableEq

/-- A new session. -/
def Backend.start (s : Backend) (n : Nat) (task : Task) : Option Backend :=
  if (s.sessions n).isSome then none
  else
    match task with
    | .webhook _ => some (s.set n { task, point := .claim })
    | .relay row =>
      (s.db.outbox.find? fun e => e.id = row).bind fun e =>
        if e.processed = false ∧ e.attempts < outboxMaxAttempts then
          let s := { s with db := s.db.claimOutbox row }
          match s.db.orderById e.order with
          | none => some (s.set n { task, point := .finish row })
          | some order => some (s.set n { task, point := .release order (some row) })
        else none
    | task => some (s.set n { task, point := .load })

def Backend.step (t : Timeouts) (s : Backend) : TxAct → Option Backend
  | .persist intent id fk =>
    if intent.consistent then
      (s.db.insertIntent intent id fk).map fun db => { s with db, history := s.history ++ [(id, .pending)] }
    else none
  | .start n task => s.start n task
  | .run n now => (s.sessions n).bind fun x => s.run n x now
  | .acceptRefund n => (s.sessions n).bind fun x => s.acceptRefund n x
  | .failRefund n => (s.sessions n).bind fun x => s.failRefund n x
  | .wait n ms =>
    (s.sessions n).bind fun x =>
      if t.limit x.point = 0 ∨ x.waited + ms ≤ t.limit x.point then
        some (s.set n { x with elapsed := x.elapsed + ms, waited := x.waited + ms })
      else none
  | .crash n => some (s.close n)
  | .timeOut n =>
    (s.sessions n).bind fun x =>
      if x.task.isRequest ∧ 0 < t.request ∧ t.request ≤ x.elapsed then some (s.close n) else none

/-- Empty tables and no session. -/
structure Backend.Start (s : Backend) : Prop where
  orders : s.db.orders = []
  seatHolds : s.db.seatHolds = []
  outbox : s.db.outbox = []
  stripeEvents : s.stripeEvents = []
  rowLocks : ∀ id, s.rowLocks id = none
  eventLocks : ∀ id, s.eventLocks id = none
  sessions : ∀ n, s.sessions n = none
  refunds : s.refunds = []
  alerts : s.alerts = []
  history : s.history = []
  decided : s.decided = []
  handled : s.handled = []

end Ticketing
