import Ticketing.Base.Exec
import Ticketing.Rebuild

/-!
# The order pipeline as one system

The processes that share the Redis keyspace and the database: requests that reserve (`submit_order`), handlers of
stream entries (`_consume_batch`, `reclaim_stale_order_intents`, `_dead_letter_intent`), order transitions, the two
callers of `release_order_seat` (fast path and outbox relay), `reconcile_inventory` and `rebuild_zone_runs`.  Every
Redis script, Redis command and database transaction is one step; between two steps of one process any other
process may run, and a process may stop for good (a crash, a raised exception) at any point.

A process of each kind is an entry of a table, and its phase is the point its code has reached.  Two components of
the state are not read by any step and record what happened: `log`, the intents the scripts accepted, and
`returned`, the releases the scripts carried out.  Keys with a time to live do not expire here.
-/

namespace Ticketing

/-- The settings that the pipeline reads. -/
structure Settings where
  maxTicketsPerUserPerEvent : Nat := 4
  orderMaxDeliveries : Nat := 5

def topK : Nat := 16
def maxCasAttempts : Nat := 5
def strictMissThreshold : Int := 3
def outboxMaxAttempts : Nat := 8

/-! ### Processes -/

/-- `ZoneState`: the snapshot a seat request decides on. -/
structure ZoneState where
  runs : List Run
  geometry : BlockId → Option BlockGeometry

def ZoneState.remaining (s : ZoneState) : Int := (s.runs.map Span.length).sum

/-- `_parse_state`; `none` is the `ValueError` of a geometry that cannot be built. -/
def ZoneKeys.parseState (z : ZoneKeys) : Option ZoneState :=
  if z.geom.entries.all fun e => (z.parseGeometry e.1).isSome then
    some { runs := z.parseRuns, geometry := z.parseGeometry }
  else none

inductive CallPhase where
  /-- About to read a snapshot. -/
  | ready
  | snapshot (state : ZoneState)
  /-- Its strict miss reached the threshold. -/
  | stuck
  /-- The zone is relaxed, the miss counter not yet deleted. -/
  | relaxing
  /-- The claim was accepted, the miss counter not yet deleted. -/
  | won

/-- A running `reserve_seats_and_enqueue`. -/
structure SeatCall where
  event : EventId
  zone : ZoneId
  user : UserId
  quantity : Int
  totalPriceCents : Int
  key : Key
  relaxed : Bool
  attempt : Nat := 1
  phase : CallPhase := .ready

namespace SeatCall

def policy (call : SeatCall) : Policy := if call.relaxed then endgamePolicy else normalPolicy

/-- The next pass of the loop, or `SeatContention` after the last. -/
def nextAttempt (call : SeatCall) : Option SeatCall :=
  if call.attempt < maxCasAttempts then some { call with attempt := call.attempt + 1, phase := .ready } else none

/-- The arguments of the claim script for a placement cut out of the run `host`. -/
def claimArgs (call : SeatCall) (host : Run) (pick : Placement) (limit : Int) : ClaimArgs where
  event := call.event
  zone := call.zone
  block := pick.blockId
  runStart := host.start
  runLength := host.length
  start := pick.start
  length := pick.length
  user := call.user
  totalPriceCents := call.totalPriceCents
  key := call.key
  limit := limit

end SeatCall

inductive HandlerPhase where
  /-- Listed by `XPENDING` with this delivery count, not yet claimed. -/
  | listed (timesDelivered : Nat)
  /-- About to run `_persist_intent`. -/
  | delivered
  /-- The insertion was rolled back; the key is looked up next. -/
  | rejected
  /-- About to run `_dead_letter_intent`. -/
  | exhausted
  /-- The existence check of the dead-letter path has answered. -/
  | checked (alreadyPersisted : Bool)
  /-- Added to the dead-letter stream. -/
  | parked (alreadyPersisted : Bool)
  /-- The refund has been made or is not needed. -/
  | refunded
  /-- About to acknowledge and delete the entry. -/
  | settled
deriving DecidableEq

/-- A process that works on one stream entry: the consumer on an entry of its batch, or a reclaim pass. -/
structure Handler where
  entry : StreamId
  intent : Intent
  phase : HandlerPhase
deriving DecidableEq

inductive ReleasePhase where
  | begun
  | holdRead (hold : SeatHold)
  | holdDeleted (hold : SeatHold)
  | finished
deriving DecidableEq

/-- A running `release_order_seat`, called by the fast path (`row = none`) or for an outbox row by the relay. -/
structure Release where
  order : Order
  row : Option OutboxId
  phase : ReleasePhase
deriving DecidableEq

/-- A release that a script carried out. -/
inductive Returned where
  | quantity (a : ReleaseArgs)
  | seats (a : ReleaseSeatsArgs)
deriving DecidableEq

inductive ReconcilePhase where
  | checked
  /-- `owing` records the orders that the sum left out although their release had not run. -/
  | read (remaining : Int) (owing : List OrderId)
  | written
  | quotasRead (rows : Hash UserId Int)

/-- A running `reconcile_inventory` with `force=False`. -/
structure Reconcile where
  event : EventId
  phase : ReconcilePhase

inductive RebuildPhase where
  | checked
  | read (blocks : List SeatBlock) (held : List SeatHold)

/-- A running `rebuild_zone_runs` with `force=False`. -/
structure Rebuild where
  event : EventId
  zone : ZoneId
  phase : RebuildPhase

structure World where
  redis : Redis
  db : Db
  log : List Intent := []
  returned : List Returned := []
  calls : Nat → Option SeatCall := fun _ => none
  handlers : Nat → Option Handler := fun _ => none
  releases : Nat → Option Release := fun _ => none
  reconciles : Nat → Option Reconcile := fun _ => none
  rebuilds : Nat → Option Rebuild := fun _ => none

namespace World

def setCall (w : World) (c : Nat) (call : Option SeatCall) : World :=
  { w with calls := Function.update w.calls c call }

def setHandler (w : World) (h : Nat) (handler : Option Handler) : World :=
  { w with handlers := Function.update w.handlers h handler }

def setRelease (w : World) (n : Nat) (release : Option Release) : World :=
  { w with releases := Function.update w.releases n release }

def setReconcile (w : World) (n : Nat) (job : Option Reconcile) : World :=
  { w with reconciles := Function.update w.reconciles n job }

def setRebuild (w : World) (n : Nat) (job : Option Rebuild) : World :=
  { w with rebuilds := Function.update w.rebuilds n job }

end World

/-! ### Requests -/

inductive IntakeAct where
  | reserve (a : ReserveArgs)
  | call (c : Nat) (event : EventId) (zone : ZoneId) (user : UserId) (quantity totalPriceCents : Int) (key : Key)
  | read (c : Nat)
  /-- The request picks the `i`-th of its best anchors and runs the claim script. -/
  | claim (c i : Nat)
  | miss (c : Nat)
  | relax (c : Nat)
  | forget (c : Nat)
  | drop (c : Nat)
deriving DecidableEq

/-- `submit_order` for an event without a seat map: `reserve_and_enqueue`. -/
def World.reserve (cfg : Settings) (w : World) (a : ReserveArgs) : Option World :=
  if (w.db.events a.event).any (fun e => !e.seated) ∧ 1 ≤ a.quantity ∧ a.limit = cfg.maxTicketsPerUserPerEvent then
    let out := reserveAndEnqueue w.redis a
    match out.1 with
    | .ok _ _ => some { w with redis := out.2, log := w.log ++ [a.intent] }
    | _ => some { w with redis := out.2 }
  else none

/-- One pass of the loop from its snapshot on: the anchors, the pick, its host run and the claim script. -/
def World.claim (cfg : Settings) (w : World) (c : Nat) (call : SeatCall) (state : ZoneState) (i : Nat) :
    Option World :=
  match legalAnchors state.runs call.quantity state.geometry call.policy with
  | none => some (w.setCall c none)
  | some anchors =>
    (anchors.take topK)[i]?.bind fun pick =>
      match state.runs.find? fun run => pick.insideOf run with
      | none => some (w.setCall c none)
      | some host =>
        let a := call.claimArgs host pick cfg.maxTicketsPerUserPerEvent
        let out := claimSeats w.redis a
        match out.1 with
        | .ok _ _ =>
          some { w.setCall c (some { call with phase := .won }) with redis := out.2, log := w.log ++ [a.intent] }
        | .retry => some { w.setCall c call.nextAttempt with redis := out.2 }
        | _ => some { w.setCall c none with redis := out.2 }

/-- No anchor: sold out, not feasible, or a strict miss. -/
def World.miss (w : World) (c : Nat) (call : SeatCall) (state : ZoneState) : Option World :=
  if legalAnchors state.runs call.quantity state.geometry call.policy = some [] then
    if state.remaining < call.quantity ∨ call.relaxed then some (w.setCall c none)
    else
      let z := w.redis.zones (call.event, call.zone)
      let misses := z.strictMisses.getD 0 + 1
      let redis := w.redis.setZone call.event call.zone { z with strictMisses := some misses }
      if misses < strictMissThreshold then some { w.setCall c none with redis }
      else some { w.setCall c (some { call with phase := .stuck }) with redis }
  else none

/-- The miss counter is deleted, after a switch of policy or after an accepted claim. -/
def World.forget (w : World) (c : Nat) (call : SeatCall) : Option World :=
  let z := w.redis.zones (call.event, call.zone)
  let redis := w.redis.setZone call.event call.zone { z with strictMisses := none }
  match call.phase with
  | .relaxing => some { w.setCall c ({ call with relaxed := true }).nextAttempt with redis }
  | .won => some { w.setCall c none with redis }
  | _ => none

def stepIntake (cfg : Settings) (w : World) : IntakeAct → Option World
  | .reserve a => w.reserve cfg a
  | .call c event zone user quantity totalPriceCents key =>
    if (w.calls c).isNone ∧ (w.db.events event).any (fun e => e.seated) ∧ 1 ≤ quantity then
      let relaxed := (w.redis.zones (event, zone)).relaxed
      some (w.setCall c (some { event, zone, user, quantity, totalPriceCents, key, relaxed }))
    else none
  | .read c =>
    (w.calls c).bind fun call =>
      match call.phase with
      | .ready =>
        match (w.redis.zones (call.event, call.zone)).parseState with
        | none => some (w.setCall c none)
        | some state => some (w.setCall c (some { call with phase := .snapshot state }))
      | _ => none
  | .claim c i =>
    (w.calls c).bind fun call =>
      match call.phase with
      | .snapshot state => w.claim cfg c call state i
      | _ => none
  | .miss c =>
    (w.calls c).bind fun call =>
      match call.phase with
      | .snapshot state => w.miss c call state
      | _ => none
  | .relax c =>
    (w.calls c).bind fun call =>
      match call.phase with
      | .stuck =>
        let z := w.redis.zones (call.event, call.zone)
        let redis := w.redis.setZone call.event call.zone { z with relaxed := true }
        some { w.setCall c (some { call with phase := .relaxing }) with redis }
      | _ => none
  | .forget c => (w.calls c).bind fun call => w.forget c call
  | .drop c => some (w.setCall c none)

/-! ### Stream entries -/

namespace Redis

/-- A delivery (`XREADGROUP` or `XCLAIM`) of an entry: its delivery count goes up. -/
def deliver (r : Redis) (id : StreamId) : Redis :=
  { r with stream := r.stream.map fun e => if e.id = id then { e with delivered := e.delivered + 1 } else e }

/-- `_ack_and_remove`. -/
def ackAndRemove (r : Redis) (id : StreamId) : Redis := { r with stream := r.stream.filter fun e => e.id ≠ id }

/-- `XADD orders:stream:dead`. -/
def addDead (r : Redis) (intent : Intent) (originalId : StreamId) : Redis :=
  { r with dead := r.dead ++ [⟨intent, originalId⟩] }

/-- The entry of this id. -/
def entry (r : Redis) (id : StreamId) : Option StreamEntry := r.stream.find? fun e => e.id = id

end Redis

inductive SettleAct where
  /-- The consumer is delivered a new entry. -/
  | deliver (h : Nat) (entry : StreamId)
  /-- A reclaim pass lists a pending entry. -/
  | list (h : Nat) (entry : StreamId)
  | claim (h : Nat)
  /-- The transaction of `_persist_intent`, with the order id it draws and whether its foreign keys hold. -/
  | persist (h : Nat) (id : OrderId) (fk : Bool)
  | lookUp (h : Nat)
  | check (h : Nat)
  | park (h : Nat)
  | refund (h : Nat)
  | markFailed (h : Nat)
  | ack (h : Nat)
  | stop (h : Nat)
deriving DecidableEq

/-- The script call of a general-admission refund. -/
def Intent.releaseArgs (i : Intent) : ReleaseArgs where
  event := i.event
  user := i.user
  quantity := i.quantity
  marker := .deadLetter i.key

/-- The script call of a seated refund. -/
def Intent.releaseSeatsArgs (i : Intent) (zone : ZoneId) (seat : SeatField) : ReleaseSeatsArgs where
  event := i.event
  zone := zone
  user := i.user
  block := seat.block
  start := seat.startPos
  length := i.quantity
  marker := .deadLetter i.key

/-- `release` of the inventory service, recorded when the script carried it out. -/
def World.releaseQuantity (w : World) (a : ReleaseArgs) : World :=
  let out := Ticketing.releaseQuantity w.redis a
  match out.1 with
  | .ok _ => { w with redis := out.2, returned := w.returned ++ [.quantity a] }
  | .dup => { w with redis := out.2 }

/-- `release_seats`, recorded when the script carried it out; `none` is the raised `SeatReleaseOverlap`. -/
def World.releaseSeats (w : World) (a : ReleaseSeatsArgs) : Option World :=
  let out := Ticketing.releaseSeats w.redis a
  match out.1 with
  | .ok .. => some { w with redis := out.2, returned := w.returned ++ [.seats a] }
  | .dup => some { w with redis := out.2 }
  | .overlap .. => none
  | .oob .. => none

/-- The refund of `_dead_letter_intent`, which skips a seated intent without a zone. -/
def World.refund (w : World) (i : Intent) : Option World :=
  match i.seat, i.zone with
  | none, _ => some (w.releaseQuantity i.releaseArgs)
  | some _, none => some w
  | some seat, some zone => w.releaseSeats (i.releaseSeatsArgs zone seat)

/-- One step of the handler `x` in slot `h` that is not a delivery. -/
def World.handle (cfg : Settings) (w : World) (h : Nat) (x : Handler) : SettleAct → Option World
  | .claim _ =>
    match x.phase with
    | .listed times =>
      match w.redis.entry x.entry with
      | none => some (w.setHandler h none)
      | some _ =>
        let phase := if cfg.orderMaxDeliveries ≤ times then .exhausted else .delivered
        some { w.setHandler h (some { x with phase }) with redis := w.redis.deliver x.entry }
    | _ => none
  | .persist _ id fk =>
    match x.phase with
    | .delivered =>
      if x.intent.consistent then
        match w.db.insertIntent x.intent id fk with
        | some db => some { w.setHandler h (some { x with phase := .settled }) with db }
        | none => some (w.setHandler h (some { x with phase := .rejected }))
      else some (w.setHandler h none)
    | _ => none
  | .lookUp _ =>
    match x.phase with
    | .rejected =>
      some (w.setHandler h (if w.db.hasKey x.intent.key then some { x with phase := .settled } else none))
    | _ => none
  | .check _ =>
    match x.phase with
    | .exhausted => some (w.setHandler h (some { x with phase := .checked (w.db.hasKey x.intent.key) }))
    | _ => none
  | .park _ =>
    match x.phase with
    | .checked already =>
      some { w.setHandler h (some { x with phase := .parked already }) with
        redis := w.redis.addDead x.intent x.entry }
    | _ => none
  | .refund _ =>
    match x.phase with
    | .parked true => some (w.setHandler h (some { x with phase := .refunded }))
    | .parked false =>
      match w.refund x.intent with
      | some w => some (w.setHandler h (some { x with phase := .refunded }))
      | none => some (w.setHandler h none)
    | _ => none
  | .markFailed _ =>
    match x.phase with
    | .refunded =>
      some { w.setHandler h (some { x with phase := .settled }) with redis := w.redis.setClaim x.intent.key .failed }
    | _ => none
  | .ack _ =>
    match x.phase with
    | .settled => some { w.setHandler h none with redis := w.redis.ackAndRemove x.entry }
    | _ => none
  | .stop _ => some (w.setHandler h none)
  | .deliver _ _ => none
  | .list _ _ => none

/-- The slot an action is about. -/
def SettleAct.slot : SettleAct → Nat
  | deliver h _ | list h _ | claim h | persist h _ _ | lookUp h | check h | park h | refund h | markFailed h | ack h
  | stop h => h

def stepSettle (cfg : Settings) (w : World) : SettleAct → Option World
  | .deliver h id =>
    (w.redis.entry id).bind fun e =>
      if (w.handlers h).isNone ∧ e.delivered = 0 then
        some { w.setHandler h (some ⟨id, e.intent, .delivered⟩) with redis := w.redis.deliver id }
      else none
  | .list h id =>
    (w.redis.entry id).bind fun e =>
      if (w.handlers h).isNone ∧ 1 ≤ e.delivered then
        some (w.setHandler h (some ⟨id, e.intent, .listed e.delivered⟩))
      else none
  | a => (w.handlers a.slot).bind fun x => w.handle cfg a.slot x a

/-! ### Orders and their releases -/

inductive ReleaseAct where
  /-- The fast path after a committed transition. -/
  | start (n : Nat) (order : OrderId)
  /-- The relay claims an outbox row. -/
  | claimRow (n : Nat) (row : OutboxId)
  | redrive (row : OutboxId)
  | releaseQuantity (n : Nat)
  | readHold (n : Nat)
  | deleteHold (n : Nat)
  | releaseSeats (n : Nat)
  | markProcessed (n : Nat)
  | stop (n : Nat)
deriving DecidableEq

/-- The script call for an order without a zone. -/
def Order.releaseArgs (o : Order) : ReleaseArgs where
  event := o.event
  user := o.user
  quantity := o.quantity
  marker := .order o.id

/-- The script call for the interval of the order's hold. -/
def Order.releaseSeatsArgs (o : Order) (zone : ZoneId) (hold : SeatHold) : ReleaseSeatsArgs where
  event := o.event
  zone := zone
  user := o.user
  block := hold.block
  start := hold.startPos
  length := hold.length
  marker := .order o.id

def stepRelease (w : World) : ReleaseAct → Option World
  | .start n id =>
    (w.db.orderById id).bind fun o =>
      if (w.releases n).isNone ∧ o.status.held = false then some (w.setRelease n (some ⟨o, none, .begun⟩)) else none
  | .claimRow n row =>
    (w.db.outbox.find? fun e => e.id = row).bind fun e =>
      if (w.releases n).isNone ∧ e.processed = false ∧ e.attempts < outboxMaxAttempts then
        match w.db.orderById e.order with
        -- a row without its order is only marked
        | none => some { w with db := (w.db.claimOutbox row).markProcessed row }
        | some o => some { w.setRelease n (some ⟨o, some row, .begun⟩) with db := w.db.claimOutbox row }
      else none
  | .redrive row => some { w with db := w.db.redriveOutbox row }
  | .releaseQuantity n =>
    (w.releases n).bind fun x =>
      if x.phase = .begun ∧ x.order.zone = none then
        some ((w.releaseQuantity x.order.releaseArgs).setRelease n (some { x with phase := .finished }))
      else none
  | .readHold n =>
    (w.releases n).bind fun x =>
      if x.phase = .begun ∧ x.order.zone ≠ none then
        match w.db.holdOf x.order.id with
        | none => some (w.setRelease n (some { x with phase := .finished }))
        | some hold => some (w.setRelease n (some { x with phase := .holdRead hold }))
      else none
  | .deleteHold n =>
    (w.releases n).bind fun x =>
      match x.phase with
      | .holdRead hold =>
        some { w.setRelease n (some { x with phase := .holdDeleted hold }) with db := w.db.deleteHold x.order.id }
      | _ => none
  | .releaseSeats n =>
    (w.releases n).bind fun x =>
      match x.phase, x.order.zone with
      | .holdDeleted hold, some zone =>
        match w.releaseSeats (x.order.releaseSeatsArgs zone hold) with
        | some w => some (w.setRelease n (some { x with phase := .finished }))
        | none => some (w.setRelease n none)
      | _, _ => none
  | .markProcessed n =>
    (w.releases n).bind fun x =>
      match x.phase, x.row with
      | .finished, some row => some { w.setRelease n none with db := w.db.markProcessed row }
      | _, _ => none
  | .stop n => some (w.setRelease n none)

/-! ### Rebuilding from the database -/

inductive ReconcileAct where
  | check (n : Nat) (event : EventId)
  | read (n : Nat)
  | write (n : Nat)
  | readQuotas (n : Nat)
  | writeQuotas (n : Nat)
  | stop (n : Nat)
deriving DecidableEq

/-- The orders of an event that are terminal and whose release has not run. -/
def World.owing (w : World) (event : EventId) : List OrderId :=
  (w.db.orders.filter fun o =>
    o.event = event ∧ o.status.held = false ∧ w.redis.released (.order o.id) = false).map Order.id

def stepReconcile (w : World) : ReconcileAct → Option World
  | .check n event =>
    if (w.reconciles n).isNone ∧ w.redis.queueDepth.1 = 0 then some (w.setReconcile n (some ⟨event, .checked⟩))
    else none
  | .read n =>
    (w.reconciles n).bind fun job =>
      match job.phase, w.db.events job.event with
      | .checked, some e =>
        some (w.setReconcile n (some { job with
          phase := .read (e.totalSeats - w.db.sold job.event) (w.owing job.event) }))
      | .checked, none => some (w.setReconcile n none)
      | _, _ => none
  | .write n =>
    (w.reconciles n).bind fun job =>
      match job.phase with
      | .read remaining _ =>
        some { w.setReconcile n (some { job with phase := .written }) with
          redis := { w.redis with available := Function.update w.redis.available job.event (some remaining) } }
      | _ => none
  | .readQuotas n =>
    (w.reconciles n).bind fun job =>
      match job.phase with
      | .written => some (w.setReconcile n (some { job with phase := .quotasRead (w.db.soldByUser job.event) }))
      | _ => none
  | .writeQuotas n =>
    (w.reconciles n).bind fun job =>
      match job.phase with
      | .quotasRead rows =>
        some { w.setReconcile n none with
          redis := { w.redis with purchased := Function.update w.redis.purchased job.event rows } }
      | _ => none
  | .stop n => some (w.setReconcile n none)

inductive RebuildAct where
  | check (n : Nat) (event : EventId) (zone : ZoneId)
  | read (n : Nat)
  | write (n : Nat)
  | stop (n : Nat)
deriving DecidableEq

def stepRebuild (w : World) : RebuildAct → Option World
  | .check n event zone =>
    if (w.rebuilds n).isNone ∧ w.redis.queueDepth.1 = 0 then some (w.setRebuild n (some ⟨event, zone, .checked⟩))
    else none
  | .read n =>
    (w.rebuilds n).bind fun job =>
      match job.phase with
      | .checked =>
        let blocks := w.db.zoneBlocks job.zone
        if blocks.isEmpty then some (w.setRebuild n none)
        else some (w.setRebuild n (some { job with phase := .read blocks (w.db.heldOn job.event blocks) }))
      | _ => none
  | .write n =>
    (w.rebuilds n).bind fun job =>
      match job.phase with
      | .read blocks held =>
        some { w.setRebuild n none with
          redis := w.redis.setZone job.event job.zone ((w.redis.zones (job.event, job.zone)).rebuilt blocks held) }
      | _ => none
  | .stop n => some (w.setRebuild n none)

/-! ### The system -/

inductive Act where
  | intake (a : IntakeAct)
  | settle (a : SettleAct)
  /-- A committed status transition. -/
  | transition (order : OrderId) (new : OrderStatus) (now : Time)
  | release (a : ReleaseAct)
  | reconcile (a : ReconcileAct)
  | rebuild (a : RebuildAct)
  /-- Redis loses the stock key of an event. -/
  | lose (event : EventId)
deriving DecidableEq

def step (cfg : Settings) (w : World) : Act → Option World
  | .intake a => stepIntake cfg w a
  | .settle a => stepSettle cfg w a
  | .transition id new now => (w.db.transition id new now).map fun db => { w with db }
  | .release a => stepRelease w a
  | .reconcile a => stepReconcile w a
  | .rebuild a => stepRebuild w a
  | .lose event =>
    some { w with redis := { w.redis with available := Function.update w.redis.available event none } }

/-- The system before the first request of a run: no process runs, no intent is queued, and Redis holds no claim and
no released marker. -/
structure World.Start (w : World) : Prop where
  log : w.log = []
  returned : w.returned = []
  calls : ∀ n, w.calls n = none
  handlers : ∀ n, w.handlers n = none
  releases : ∀ n, w.releases n = none
  reconciles : ∀ n, w.reconciles n = none
  rebuilds : ∀ n, w.rebuilds n = none
  stream : w.redis.stream = []
  claims : ∀ k, w.redis.claims k = none
  released : ∀ m, w.redis.released m = false

end Ticketing
