import Mathlib.Logic.Function.Basic
import Ticketing.Base.Hash
import Ticketing.Seating

/-!
# The Redis keyspace and its scripts

The keys that `app/services/inventory.py` and `app/services/seat_runs.py` share, and the four Lua scripts that
change them.  A script runs atomically, so it is a function from the keyspace to a reply and a new keyspace, with
the checks and the writes in the order of the script.

A hash field `"{block}:{pos}"` is the pair of the two numbers it prints, a packed geometry `"cap:base:edge"` the
three numbers, and a marker or claim key the value it is built from.  Numbers are exact.
-/

namespace Ticketing

abbrev EventId := Nat
abbrev ZoneId := Nat
abbrev UserId := Nat
abbrev OrderId := Nat
/-- An `Idempotency-Key` (a UUID). -/
abbrev Key := Nat
abbrev StreamId := Nat

/-- The hash field `"{block}:{pos}"`. -/
structure Field where
  block : BlockId
  pos : Int
deriving DecidableEq, Repr

/-- The value `"cap:base:edge"` of the `geom` hash. -/
structure PackedGeometry where
  capacity : Int
  base : ℚ
  edge : ℚ
deriving DecidableEq

/-- The keys `event:{e}:zone:{z}:*` of one zone. -/
structure ZoneKeys where
  runs : Hash Field Int := ∅
  ends : Hash Field Int := ∅
  geom : Hash BlockId PackedGeometry := ∅
  available : Option Int := none
  strictMisses : Option Int := none
  relaxed : Bool := false

/-- The value of `idempotency:{key}`. -/
inductive ClaimState where
  | pending
  | failed
deriving DecidableEq, Repr

/-- What `released:{marker}` stands for: `"order:{id}"` or `"dl:{idempotency_key}"`. -/
inductive Marker where
  | order (id : OrderId)
  | deadLetter (key : Key)
deriving DecidableEq, Repr

/-- The seat fields of an intent, `block_id` and `start_pos`. -/
structure SeatField where
  block : BlockId
  startPos : Int
deriving DecidableEq, Repr

/-- The fields of an order intent.  An empty `zone_id` is `none`; `block_id` and `start_pos` are written together or
not at all. -/
structure Intent where
  user : UserId
  event : EventId
  quantity : Int
  totalPriceCents : Int
  key : Key
  zone : Option ZoneId
  seat : Option SeatField
deriving DecidableEq, Repr

/-- An entry of `orders:stream` with its delivery count in the consumer group (`0`: not yet delivered). -/
structure StreamEntry where
  id : StreamId
  intent : Intent
  delivered : Nat
deriving DecidableEq, Repr

structure DeadLetter where
  intent : Intent
  originalId : StreamId
deriving DecidableEq, Repr

/-- Claims and release markers live for a day in Redis; here they stay, so that a run of the pipeline is one
in which none expires. -/
structure Redis where
  available : EventId → Option Int
  purchased : EventId → Hash UserId Int
  claims : Key → Option ClaimState
  released : Marker → Bool
  zones : EventId × ZoneId → ZoneKeys
  stream : List StreamEntry
  lastId : StreamId
  dead : List DeadLetter

/-- `INCRBY` and `DECRBY`: a missing counter counts as zero. -/
def incrBy (counter : Option Int) (n : Int) : Option Int := some (counter.getD 0 + n)

namespace Redis

/-- The quota a user has used for an event, zero when the field is missing. -/
def held (r : Redis) (event : EventId) (user : UserId) : Int := ((r.purchased event).lookup user).getD 0

/-- `queue_depth`: the lengths of the order stream and of the dead-letter stream. -/
def queueDepth (r : Redis) : Nat × Nat := (r.stream.length, r.dead.length)

def addAvailable (r : Redis) (event : EventId) (n : Int) : Redis :=
  { r with available := Function.update r.available event (incrBy (r.available event) n) }

/-- `HINCRBY` on the purchase hash. -/
def chargeQuota (r : Redis) (event : EventId) (user : UserId) (n : Int) : Redis :=
  { r with purchased := Function.update r.purchased event (Hash.incr (r.purchased event) user n) }

/-- The quota return of both release scripts: `HINCRBY` by `-n`, then `HDEL` when nothing is left. -/
def returnQuota (r : Redis) (event : EventId) (user : UserId) (n : Int) : Redis :=
  let h := Hash.incr (r.purchased event) user (-n)
  let left := r.held event user - n
  { r with purchased := Function.update r.purchased event (if left ≤ 0 then h.erase user else h) }

def setReleased (r : Redis) (marker : Marker) : Redis :=
  { r with released := Function.update r.released marker true }

def setClaim (r : Redis) (key : Key) (state : ClaimState) : Redis :=
  { r with claims := Function.update r.claims key (some state) }

def setZone (r : Redis) (event : EventId) (zone : ZoneId) (keys : ZoneKeys) : Redis :=
  { r with zones := Function.update r.zones (event, zone) keys }

/-- `XADD orders:stream *`. -/
def enqueue (r : Redis) (intent : Intent) : Redis :=
  { r with stream := r.stream ++ [⟨r.lastId + 1, intent, 0⟩], lastId := r.lastId + 1 }

end Redis

/-! ### General admission: `_RESERVE_AND_ENQUEUE_LUA` and `_RELEASE_LUA` -/

structure ReserveArgs where
  event : EventId
  user : UserId
  quantity : Int
  totalPriceCents : Int
  key : Key
  zone : Option ZoneId := none
  limit : Int
deriving DecidableEq

def ReserveArgs.intent (a : ReserveArgs) : Intent where
  user := a.user
  event := a.event
  quantity := a.quantity
  totalPriceCents := a.totalPriceCents
  key := a.key
  zone := a.zone
  seat := none

inductive ReserveReply where
  | dup
  | soldOut (remaining : Int)
  | overLimit (already limit : Int)
  | ok (id : StreamId) (remaining : Int)
deriving DecidableEq

/-- Steps 4 to 6 of the script: stock and quota move together, the intent is queued, the claim written. -/
def Redis.reserve (r : Redis) (a : ReserveArgs) : Redis :=
  (((r.addAvailable a.event (-a.quantity)).chargeQuota a.event a.user a.quantity).enqueue a.intent).setClaim
    a.key .pending

def reserveAndEnqueue (r : Redis) (a : ReserveArgs) : ReserveReply × Redis :=
  if (r.claims a.key).isSome then (.dup, r)
  else
    match r.available a.event with
    | none => (.soldOut 0, r)
    | some avail =>
      if avail < a.quantity then (.soldOut avail, r)
      else if a.limit < r.held a.event a.user + a.quantity then (.overLimit (r.held a.event a.user) a.limit, r)
      else (.ok (r.lastId + 1) (avail - a.quantity), r.reserve a)

structure ReleaseArgs where
  event : EventId
  user : UserId
  quantity : Int
  marker : Marker
deriving DecidableEq

inductive ReleaseReply where
  | dup
  | ok (available : Int)
deriving DecidableEq

/-- The marker is set, the quota returned and the stock put back. -/
def Redis.putBack (r : Redis) (a : ReleaseArgs) : Redis :=
  ((r.setReleased a.marker).returnQuota a.event a.user a.quantity).addAvailable a.event a.quantity

def releaseQuantity (r : Redis) (a : ReleaseArgs) : ReleaseReply × Redis :=
  if r.released a.marker then (.dup, r)
  else (.ok ((r.available a.event).getD 0 + a.quantity), r.putBack a)

/-! ### Seated zones: `_CLAIM_SEATS_LUA` and `_RELEASE_SEATS_LUA` -/

namespace ZoneKeys

/-- `_parse_state`: the runs read out of the `runs` hash, in its order. -/
def parseRuns (z : ZoneKeys) : List Run := z.runs.entries.map fun e => ⟨e.1.block, e.1.pos, e.2⟩

/-- `_parse_state`: the geometry of a block of the `geom` hash. -/
def parseGeometry (z : ZoneKeys) (block : BlockId) : Option BlockGeometry :=
  (z.geom.lookup block).bind fun g => BlockGeometry.calibrated block g.capacity g.base g.edge

def remaining (z : ZoneKeys) : Int := (z.parseRuns.map Span.length).sum

/-- Step 3 of the claim script: the run `[runStart, runStart + runLength)` of `block` is removed and what is left
of it on both sides of `[start, start + length)` written back. -/
def cut (z : ZoneKeys) (block : BlockId) (runStart runLength start length : Int) : ZoneKeys :=
  let runEnd := runStart + runLength
  let left := start - runStart
  let right := runEnd - (start + length)
  let runs := z.runs.erase ⟨block, runStart⟩
  let ends := z.ends.erase ⟨block, runEnd⟩
  let runs := if 0 < left then runs.insert ⟨block, runStart⟩ left else runs
  let ends := if 0 < left then ends.insert ⟨block, start⟩ runStart else ends
  let runs := if 0 < right then runs.insert ⟨block, start + length⟩ right else runs
  let ends := if 0 < right then ends.insert ⟨block, runEnd⟩ (start + length) else ends
  { z with runs, ends }

/-- The last step of the release script: `[lo, hi)` of `block` is merged with the runs that touch it, found by the
`ends` hash on the left and by the `runs` hash on the right.  Returns the ends of the merged run and the zone. -/
def giveBack (z : ZoneKeys) (block : BlockId) (lo hi : Int) : Int × Int × ZoneKeys :=
  let leftStart : Option Int := z.ends.lookup ⟨block, lo⟩
  let runs : Hash Field Int := leftStart.elim z.runs fun s => z.runs.erase ⟨block, s⟩
  let ends : Hash Field Int := leftStart.elim z.ends fun _ => z.ends.erase ⟨block, lo⟩
  let lo := leftStart.getD lo
  let rightLen : Option Int := runs.lookup ⟨block, hi⟩
  let runs : Hash Field Int := rightLen.elim runs fun _ => runs.erase ⟨block, hi⟩
  let ends : Hash Field Int := rightLen.elim ends fun n => ends.erase ⟨block, hi + n⟩
  let hi := rightLen.elim hi fun n => hi + n
  (lo, hi, { z with runs := runs.insert ⟨block, lo⟩ (hi - lo), ends := ends.insert ⟨block, hi⟩ lo })

/-- The first run of `block`, in the order of the hash, that meets `[lo, hi)`. -/
def overlapping (z : ZoneKeys) (block : BlockId) (lo hi : Int) : Option Run :=
  z.parseRuns.find? fun run => run.block = block ∧ run.start < hi ∧ lo < run.stop

def addAvailable (z : ZoneKeys) (n : Int) : ZoneKeys := { z with available := incrBy z.available n }

end ZoneKeys

structure ClaimArgs where
  event : EventId
  zone : ZoneId
  block : BlockId
  runStart : Int
  runLength : Int
  start : Int
  length : Int
  user : UserId
  totalPriceCents : Int
  key : Key
  limit : Int
deriving DecidableEq

def ClaimArgs.intent (a : ClaimArgs) : Intent where
  user := a.user
  event := a.event
  quantity := a.length
  totalPriceCents := a.totalPriceCents
  key := a.key
  zone := some a.zone
  seat := some ⟨a.block, a.start⟩

/-- The placement a claim asks for. -/
def ClaimArgs.placement (a : ClaimArgs) (score : ℚ := 0) : Placement := ⟨a.block, a.start, a.length, score⟩

inductive ClaimReply where
  | dup
  | overLimit (held limit : Int)
  | retry
  | bounds
  | ok (id : StreamId) (zoneRemaining : Int)
deriving DecidableEq

/-- Steps 3 to 5 of the script: the run is cut, the three counters move, the intent is queued, the claim written. -/
def Redis.claim (r : Redis) (a : ClaimArgs) : Redis :=
  let z := r.zones (a.event, a.zone)
  let z := (z.cut a.block a.runStart a.runLength a.start a.length).addAvailable (-a.length)
  ((((r.setZone a.event a.zone z).addAvailable a.event (-a.length)).chargeQuota a.event a.user a.length).enqueue
    a.intent).setClaim a.key .pending

def claimSeats (r : Redis) (a : ClaimArgs) : ClaimReply × Redis :=
  if (r.claims a.key).isSome then (.dup, r)
  else if a.limit < r.held a.event a.user + a.length then (.overLimit (r.held a.event a.user) a.limit, r)
  else
    let z := r.zones (a.event, a.zone)
    if z.runs.lookup ⟨a.block, a.runStart⟩ ≠ some a.runLength then (.retry, r)
    else if a.start < a.runStart ∨ a.runStart + a.runLength < a.start + a.length then (.bounds, r)
    else (.ok (r.lastId + 1) (z.available.getD 0 - a.length), r.claim a)

structure ReleaseSeatsArgs where
  event : EventId
  zone : ZoneId
  user : UserId
  block : BlockId
  start : Int
  length : Int
  marker : Marker
deriving DecidableEq

def ReleaseSeatsArgs.span (a : ReleaseSeatsArgs) : Run := ⟨a.block, a.start, a.length⟩

inductive ReleaseSeatsReply where
  | dup
  | overlap (runStart runLength : Int)
  | oob (capacity : Int)
  | ok (mergedStart mergedLength zoneRemaining : Int)
deriving DecidableEq

def ReleaseSeatsReply.isOk : ReleaseSeatsReply → Bool
  | .ok .. => true
  | _ => false

/-- The bounds check 2a of the release script, made only when the block has a geometry. -/
def ZoneKeys.outOfBounds (z : ZoneKeys) (block : BlockId) (lo hi : Int) : Option Int :=
  (z.geom.lookup block).bind fun g => if lo < 0 ∨ g.capacity < hi then some g.capacity else none

/-- Steps 3 and after of the script: the marker is set, the quota returned, the interval merged into the free runs
and both counters moved. -/
def Redis.giveBackSeats (r : Redis) (a : ReleaseSeatsArgs) : Redis :=
  let z := ((r.zones (a.event, a.zone)).giveBack a.block a.start (a.start + a.length)).2.2
  (((r.setReleased a.marker).returnQuota a.event a.user a.length).setZone a.event a.zone
    (z.addAvailable a.length)).addAvailable a.event a.length

def releaseSeats (r : Redis) (a : ReleaseSeatsArgs) : ReleaseSeatsReply × Redis :=
  if r.released a.marker then (.dup, r)
  else
    let z := r.zones (a.event, a.zone)
    match z.outOfBounds a.block a.start (a.start + a.length) with
    | some capacity => (.oob capacity, r)
    | none =>
      match z.overlapping a.block a.start (a.start + a.length) with
      | some run => (.overlap run.start run.length, r)
      | none =>
        let merged := z.giveBack a.block a.start (a.start + a.length)
        (.ok merged.1 (merged.2.1 - merged.1) (z.available.getD 0 + a.length), r.giveBackSeats a)

end Ticketing
