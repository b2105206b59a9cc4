import Ticketing.Base.Optimistic
import Ticketing.WaitingRoom

/-!
# Edits by administrators

`PATCH` of an event, of a zone and of the zone prices of an event.  The client sends back the version it has
read (of each row, for the prices), `require_version` compares it with the row that the request loads, and the
flush repeats the comparison in the `UPDATE`, row by row.  Between these steps anything may happen, and the
transaction may fail at any point.

`no_lost_update` says that nothing is lost: the writes to a row carried its successive versions, the rows are
what the committed batches make of the first ones, a committed batch is all that the request asked for on top
of the state that its client had read, and the other requests changed nothing.  One that ends as a no-op asked
for nothing that this state did not have; one that would have been accepted with the right versions ends in
`ConcurrentModification`.
-/

namespace Ticketing

open Exec Optimistic

/-! ### Rows and requests -/

/-- A column value as a request or a row has it. -/
inductive FieldValue where
  | null
  | text (s : String)
  | number (n : Int)
  | moment (t : Int)
deriving DecidableEq

/-- The columns of an event that may be edited. -/
inductive EventField where
  | name
  | venue
  | startsAt
  | endsAt
  | saleStartsAt
  | saleEndsAt
  | priceCents
  | queueOpensAt
  | queueClosesAt
deriving DecidableEq

structure EventRecord where
  fields : EventField → FieldValue
  status : EventStatus
  venueId : Option Nat := none

inductive ZoneField where
  | name
  | displayOrder
deriving DecidableEq

structure ZoneRecord where
  fields : ZoneField → FieldValue

inductive AdminRow where
  | event (row : EventRecord)
  | zone (row : ZoneRecord)
  | price (cents : Int)

inductive RowKey where
  | event (id : EventId)
  | zone (id : ZoneId)
  | price (event : EventId) (zone : ZoneId)
deriving DecidableEq

abbrev AdminRows := Rows RowKey AdminRow

abbrev RowWrite := Optimistic.Write RowKey AdminRow

/-- The fields that the client has set, an explicit null included; a body has a field once. -/
structure EventUpdate where
  version : Nat
  changes : List (EventField × FieldValue)
  nodup : (changes.map Prod.fst).Nodup

structure ZoneUpdate where
  version : Nat
  changes : List (ZoneField × FieldValue)
  nodup : (changes.map Prod.fst).Nodup

structure ZonePriceUpdate where
  zone : ZoneId
  priceCents : Int
  version : Nat
deriving DecidableEq

/-- At least one row, and no zone twice. -/
structure ZonePricesUpdate where
  prices : List ZonePriceUpdate
  nonempty : prices ≠ []
  nodup : (prices.map ZonePriceUpdate.zone).Nodup

inductive AdminRequest where
  | event (id : EventId) (data : EventUpdate)
  | zone (id : ZoneId) (data : ZoneUpdate)
  | zonePrices (event : EventId) (data : ZonePricesUpdate)

/-- Why `InvalidEventUpdate` is raised. -/
inductive UpdateRule where
  /-- The price of a seated event is set by zone. -/
  | pricedByZone
  /-- `starts_at` has to be before `ends_at`. -/
  | showWindow
  /-- `sale_starts_at` has to be before `sale_ends_at`. -/
  | saleWindow
  /-- The effective registration window is the wrong way round. -/
  | queueWindow
deriving DecidableEq

inductive AdminError where
  | eventNotFound (id : EventId)
  | zoneNotFound (id : ZoneId)
  | concurrentModification (resource : String) (id : Nat) (expected current : Option Nat)
  | eventCancelled (id : EventId)
  | invalidEventUpdate (id : EventId) (rule : UpdateRule)
  /-- "no price row for this event" -/
  | zoneNotForEvent (event : EventId) (zone : ZoneId)
  /-- A comparison with a null. -/
  | typeError
  /-- A constraint of the table. -/
  | integrityError
  /-- The unique index on zone names, a deadlock, a timeout, a lost connection. -/
  | interrupted
deriving DecidableEq

def AdminError.isConflict : AdminError → Bool
  | concurrentModification .. => true
  | _ => false

/-! ### Loading rows -/

namespace AdminRows

def getEvent (rows : AdminRows) (id : EventId) : Option (Row EventRecord) :=
  match rows (.event id) with
  | some ⟨.event row, version⟩ => some ⟨row, version⟩
  | _ => none

def getZone (rows : AdminRows) (id : ZoneId) : Option (Row ZoneRecord) :=
  match rows (.zone id) with
  | some ⟨.zone row, version⟩ => some ⟨row, version⟩
  | _ => none

def getPrice (rows : AdminRows) (event : EventId) (zone : ZoneId) : Option (Row Int) :=
  match rows (.price event zone) with
  | some ⟨.price cents, version⟩ => some ⟨cents, version⟩
  | _ => none

end AdminRows

/-! ### Constraints of the tables -/

def FieldValue.before : FieldValue → FieldValue → Bool
  | moment a, moment b => a < b
  | _, _ => false

def EventRecord.constraints (row : EventRecord) : Bool :=
  row.fields .name ≠ .null && row.fields .venue ≠ .null &&
  (match row.fields .priceCents with | .number n => 0 ≤ n | _ => true) &&
  (row.venueId.isNone == decide (row.fields .priceCents ≠ .null)) &&
  (row.fields .startsAt).before (row.fields .endsAt) && (row.fields .saleStartsAt).before (row.fields .saleEndsAt) &&
  (row.fields .queueOpensAt = .null || row.fields .queueClosesAt = .null ||
    (row.fields .queueOpensAt).before (row.fields .queueClosesAt))

def AdminRow.constraints : AdminRow → Bool
  | event row => row.constraints
  | zone row => row.fields .name ≠ .null && row.fields .displayOrder ≠ .null
  | price cents => 0 ≤ cents

/-! ### Checks and edits -/

def requireVersion (resource : String) (id current expected : Nat) : Except AdminError Unit :=
  if current ≠ expected then .error (.concurrentModification resource id (some expected) (some current)) else .ok ()

/-- A field with its value before and after. -/
structure FieldChange (φ : Type) where
  field : φ
  old : FieldValue
  new : FieldValue

/-- The loop over the changes: a field is set where its value differs. -/
def applyChanges {φ : Type} [DecidableEq φ] (fields : φ → FieldValue) :
    List (φ × FieldValue) → (φ → FieldValue) × List (FieldChange φ)
  | [] => (fields, [])
  | (field, value) :: rest =>
    if fields field = value then applyChanges fields rest
    else
      let (fields', diff) := applyChanges (Function.update fields field value) rest
      (fields', ⟨field, fields field, value⟩ :: diff)

namespace FieldValue

/-- `a >= b` on two datetimes; a null raises. -/
def ge : FieldValue → FieldValue → Except AdminError Bool
  | moment a, moment b => .ok (b ≤ a)
  | _, _ => .error .typeError

def moment? : FieldValue → Option Int
  | moment t => some t
  | _ => none

end FieldValue

namespace EventUpdate

/-- `changes.get(field, getattr(event, field))` -/
def merged (changes : List (EventField × FieldValue)) (row : EventRecord) (field : EventField) : FieldValue :=
  (changes.lookup field).getD (row.fields field)

/-- The rules on the merged windows. -/
def checkWindows (cfg : QueueSettings) (id : EventId) (merged : EventField → FieldValue) :
    Except AdminError Unit := do
  if ← (merged .startsAt).ge (merged .endsAt) then throw (.invalidEventUpdate id .showWindow)
  if ← (merged .saleStartsAt).ge (merged .saleEndsAt) then throw (.invalidEventUpdate id .saleWindow)
  let window := cfg.effectiveWindow
    ⟨(merged .saleStartsAt).moment?.getD 0, (merged .queueOpensAt).moment?, (merged .queueClosesAt).moment?⟩
  if window.1 ≥ window.2 then throw (.invalidEventUpdate id .queueWindow)

/-- `apply_event_update` once the version is right. -/
def edit (cfg : QueueSettings) (id : EventId) (row : EventRecord) (changes : List (EventField × FieldValue)) :
    Except AdminError (EventRecord × List (FieldChange EventField)) := do
  if row.status = .cancelled then throw (.eventCancelled id)
  if changes.isEmpty then return (row, [])
  if (changes.lookup .priceCents).isSome ∧ row.venueId.isSome then throw (.invalidEventUpdate id .pricedByZone)
  checkWindows cfg id (merged changes row)
  return ({ row with fields := (applyChanges row.fields changes).1 }, (applyChanges row.fields changes).2)

end EventUpdate

def applyEventUpdate (cfg : QueueSettings) (id : EventId) (row : Row EventRecord) (data : EventUpdate) :
    Except AdminError (EventRecord × List (FieldChange EventField)) := do
  requireVersion "event" id row.version data.version
  EventUpdate.edit cfg id row.value data.changes

def applyZoneUpdate (id : ZoneId) (row : Row ZoneRecord) (data : ZoneUpdate) :
    Except AdminError (ZoneRecord × List (FieldChange ZoneField)) := do
  requireVersion "zone" id row.version data.version
  return (⟨(applyChanges row.value.fields data.changes).1⟩, (applyChanges row.value.fields data.changes).2)

namespace ZonePricesUpdate

/-- The first loop of `update_zone_prices`: every row is there and has the version sent. -/
def check (rows : AdminRows) (event : EventId) : List ZonePriceUpdate → Except AdminError Unit
  | [] => .ok ()
  | item :: rest =>
    match rows.getPrice event item.zone with
    | none => .error (.zoneNotForEvent event item.zone)
    | some row => do
      requireVersion "event_zone_price" item.zone row.version item.version
      check rows event rest

/-- The second loop: the prices that differ are set. -/
def writes (rows : AdminRows) (event : EventId) (prices : List ZonePriceUpdate) : List RowWrite :=
  prices.filterMap fun item => (rows.getPrice event item.zone).bind fun row =>
    if row.value ≠ item.priceCents then some ⟨.price event item.zone, row.version, .price item.priceCents⟩ else none

end ZonePricesUpdate

/-- `update_zone_prices` looks at the status of the event before it loads the prices. -/
def loadPricedEvent (rows : AdminRows) (event : EventId) : Except AdminError Unit :=
  match rows.getEvent event with
  | none => .error (.eventNotFound event)
  | some row => if row.value.status = .cancelled then .error (.eventCancelled event) else .ok ()

/-! ### Requests as transactions -/

inductive AdminOutcome where
  | committed
  | noop
  | failed (error : AdminError)

/-- The point a request has reached; `flushed` are the rows it has written and locked, `todo` those still to
be written. -/
inductive AdminPhase where
  | received
  /-- A request for zone prices that has loaded its event. -/
  | eventLoaded
  | flushing (flushed todo : List RowWrite)
  | ended (outcome : AdminOutcome)

structure AdminCall where
  request : AdminRequest
  phase : AdminPhase := .received

namespace AdminPhase

/-- Without a change the endpoint returns at once. -/
def ofWrites (writes : List RowWrite) : AdminPhase := if writes.isEmpty then ended .noop else flushing [] writes

/-- The writes of a transaction that is not over. -/
def flushed : AdminPhase → List RowWrite
  | flushing flushed _ => flushed
  | _ => []

end AdminPhase

namespace AdminRequest

/-- The rows to write: what the request makes of the rows it loads. -/
def plan (cfg : QueueSettings) (rows : AdminRows) : AdminRequest → Except AdminError (List RowWrite)
  | event id data =>
    match rows.getEvent id with
    | none => .error (.eventNotFound id)
    | some row => do
      let (value, diff) ← applyEventUpdate cfg id row data
      return if diff.isEmpty then [] else [⟨.event id, row.version, .event value⟩]
  | zone id data =>
    match rows.getZone id with
    | none => .error (.zoneNotFound id)
    | some row => do
      let (value, diff) ← applyZoneUpdate id row data
      return if diff.isEmpty then [] else [⟨.zone id, row.version, .zone value⟩]
  | zonePrices id data => do
    ZonePricesUpdate.check rows id data.prices
    return ZonePricesUpdate.writes rows id data.prices

/-- What `stale_data_as_conflict` raises. -/
def conflict : AdminRequest → AdminError
  | event id data => .concurrentModification "event" id (some data.version) none
  | zone id data => .concurrentModification "zone" id (some data.version) none
  | zonePrices id _ => .concurrentModification "event_zone_prices" id none none

end AdminRequest

namespace AdminCall

/-- The next load of a request and the checks on what it loads. -/
def load (cfg : QueueSettings) (rows : AdminRows) (call : AdminCall) : Option (Except AdminError AdminPhase) :=
  match call.phase, call.request with
  | .received, .zonePrices event _ => some ((loadPricedEvent rows event).map fun _ => .eventLoaded)
  | .received, request | .eventLoaded, request => some ((request.plan cfg rows).map .ofWrites)
  | _, _ => none

end AdminCall

structure AdminWorld where
  store : Store RowKey AdminRow
  calls : List AdminCall := []

inductive AdminAct where
  | receive (request : AdminRequest)
  | load (i : Nat)
  /-- The next `UPDATE` of the flush. -/
  | flush (i : Nat)
  | commit (i : Nat)
  | fail (i : Nat)

namespace AdminWorld

def setCall (w : AdminWorld) (i : Nat) (call : AdminCall) (phase : AdminPhase) : AdminWorld :=
  { w with calls := w.calls.set i { call with phase := phase } }

/-- The transaction is rolled back. -/
def abort (w : AdminWorld) (i : Nat) (call : AdminCall) (error : AdminError) : AdminWorld :=
  { w.setCall i call (.ended (.failed error)) with store := w.store.release i }

/-- A load that raises ends the request. -/
def load (w : AdminWorld) (cfg : QueueSettings) (i : Nat) (call : AdminCall) : Option AdminWorld :=
  (call.load cfg w.store.rows).map fun
    | .error e => w.abort i call e
    | .ok phase => w.setCall i call phase

/-- One `UPDATE`: it finds no row of that version, or waits for the lock of the row. -/
def flush (w : AdminWorld) (i : Nat) (call : AdminCall) : Option AdminWorld :=
  match call.phase with
  | .flushing flushed (write :: todo) =>
    if ¬w.store.rows.Matches write then some (w.abort i call call.request.conflict)
    else if ¬w.store.Free i write.key then none
    else if write.value.constraints then
      some { w.setCall i call (.flushing (flushed ++ [write]) todo) with store := w.store.lock i write.key }
    else some (w.abort i call .integrityError)
  | _ => none

def commit (w : AdminWorld) (i : Nat) (call : AdminCall) : Option AdminWorld :=
  match call.phase with
  | .flushing flushed [] => some { w.setCall i call (.ended .committed) with store := w.store.commit i flushed }
  | _ => none

def fail (w : AdminWorld) (i : Nat) (call : AdminCall) : Option AdminWorld :=
  match call.phase with
  | .ended _ => none
  | _ => some (w.abort i call .interrupted)

def step (cfg : QueueSettings) (w : AdminWorld) : AdminAct → Option AdminWorld
  | .receive request => some { w with calls := w.calls ++ [{ request := request }] }
  | .load i => w.calls[i]?.bind (w.load cfg i)
  | .flush i => w.calls[i]?.bind (w.flush i)
  | .commit i => w.calls[i]?.bind (w.commit i)
  | .fail i => w.calls[i]?.bind (w.fail i)

/-- Nobody has written anything. -/
def start (rows : AdminRows) : AdminWorld where
  store := { rows := rows }

end AdminWorld

/-! ### What is promised -/

/-- The columns after some changes: the values that were asked for, and all others as they were. -/
structure Changed {φ : Type} (changes : List (φ × FieldValue)) (old new : φ → FieldValue) : Prop where
  asked : ∀ c ∈ changes, new c.1 = c.2
  kept : ∀ field, field ∉ changes.map Prod.fst → new field = old field

namespace AdminRequest

/-- The same request with the versions that the rows have now. -/
def withVersions (rows : AdminRows) : AdminRequest → AdminRequest
  | event id data => event id { data with version := (rows.getEvent id).elim data.version Row.version }
  | zone id data => zone id { data with version := (rows.getZone id).elim data.version Row.version }
  | zonePrices id data =>
    let update (item : ZonePriceUpdate) : ZonePriceUpdate :=
      { item with version := (rows.getPrice id item.zone).elim item.version Row.version }
    zonePrices id
      { prices := data.prices.map update
        nonempty := by simpa using data.nonempty
        nodup := by simpa [update, List.map_map, Function.comp_def] using data.nodup }

/-- The writes are what the request asks for on top of a state its client has read: the fields that were set
have the values sent and the others are as they were, with the version the client sent, and something is
different from before. -/
def AppliedBy (cfg : QueueSettings) (rows₀ : AdminRows) (written writes : List RowWrite) : AdminRequest → Prop
  | event id data => ∃ row value, Recorded rows₀ written (.event id) ⟨.event row, data.version⟩ ∧
      writes = [⟨.event id, data.version, .event value⟩] ∧ Changed data.changes row.fields value.fields ∧
      value.status = row.status ∧ value.venueId = row.venueId ∧ (∃ c ∈ data.changes, row.fields c.1 ≠ c.2) ∧
      ∃ diff, EventUpdate.edit cfg id row data.changes = .ok (value, diff)
  | zone id data => ∃ row value, Recorded rows₀ written (.zone id) ⟨.zone row, data.version⟩ ∧
      writes = [⟨.zone id, data.version, .zone value⟩] ∧ Changed data.changes row.fields value.fields ∧
      ∃ c ∈ data.changes, row.fields c.1 ≠ c.2
  | zonePrices id data => writes ≠ [] ∧
      (∀ w ∈ writes, ∃ item ∈ data.prices, w = ⟨.price id item.zone, item.version, .price item.priceCents⟩) ∧
      ∀ item ∈ data.prices, ⟨.price id item.zone, item.version, .price item.priceCents⟩ ∈ writes ∨
        Recorded rows₀ written (.price id item.zone) ⟨.price item.priceCents, item.version⟩

/-- The state that the client had read, with the versions it sent, has all that the request asks for. -/
def Fulfilled (rows₀ : AdminRows) (written : List RowWrite) : AdminRequest → Prop
  | event id data => ∃ row, Recorded rows₀ written (.event id) ⟨.event row, data.version⟩ ∧
      ∀ c ∈ data.changes, row.fields c.1 = c.2
  | zone id data => ∃ row, Recorded rows₀ written (.zone id) ⟨.zone row, data.version⟩ ∧
      ∀ c ∈ data.changes, row.fields c.1 = c.2
  | zonePrices id data => ∀ item ∈ data.prices,
      Recorded rows₀ written (.price id item.zone) ⟨.price item.priceCents, item.version⟩

end AdminRequest

namespace AdminWorld

/-- Nothing but a version can be wrong with the next step of the request: with the versions that the rows have
now its checks pass, and the row it is about to write meets the constraints of its table. -/
def Faultless (w : AdminWorld) (cfg : QueueSettings) (call : AdminCall) : Prop :=
  (∀ result ∈ { call with request := call.request.withVersions w.store.rows }.load cfg w.store.rows,
    ∃ phase, result = .ok phase) ∧
  ∀ flushed write todo, call.phase = .flushing flushed (write :: todo) → write.value.constraints = true

/-- The account of all that was committed. -/
structure Accounted (cfg : QueueSettings) (rows₀ : AdminRows) (w : AdminWorld) : Prop where
  chained : ∀ key, Chained rows₀ w.store.rows w.store.written key
  replayed : w.store.rows = w.store.written.foldl Rows.apply rows₀
  once : (w.store.history.map Batch.owner).Nodup
  applied : ∀ batch ∈ w.store.history, ∃ call, w.calls[batch.owner]? = some call ∧ call.phase = .ended .committed ∧
    call.request.AppliedBy cfg rows₀ w.store.written batch.writes
  committed : ∀ (i : Nat) (call : AdminCall), w.calls[i]? = some call → call.phase = .ended .committed →
    i ∈ w.store.history.map Batch.owner
  noop : ∀ (i : Nat) (call : AdminCall), w.calls[i]? = some call → call.phase = .ended .noop →
    call.request.Fulfilled rows₀ w.store.written

end AdminWorld

/-! ### What a plan is made of -/

namespace AdminRows

variable {rows : AdminRows}

private theorem eq_of_getEvent {id : EventId} {row : Row EventRecord} (h : rows.getEvent id = some row) :
    rows (.event id) = some ⟨.event row.value, row.version⟩ := by
  unfold getEvent at h
  split at h
  next r v hr =>
    obtain rfl := Option.some.inj h
    exact hr
  next => cases h

private theorem eq_of_getZone {id : ZoneId} {row : Row ZoneRecord} (h : rows.getZone id = some row) :
    rows (.zone id) = some ⟨.zone row.value, row.version⟩ := by
  unfold getZone at h
  split at h
  next r v hr =>
    obtain rfl := Option.some.inj h
    exact hr
  next => cases h

private theorem eq_of_getPrice {event : EventId} {zone : ZoneId} {row : Row Int}
    (h : rows.getPrice event zone = some row) :
    rows (.price event zone) = some ⟨.price row.value, row.version⟩ := by
  unfold getPrice at h
  split at h
  next r v hr =>
    obtain rfl := Option.some.inj h
    exact hr
  next => cases h

end AdminRows

private theorem requireVersion_eq_ok {resource : String} {id current expected : Nat} {u : Unit}
    (h : requireVersion resource id current expected = .ok u) : current = expected := by
  by_contra hne
  rw [requireVersion, if_pos hne] at h
  cases h

private theorem Except.bind_eq_ok {ε α β : Type} {x : Except ε α} {f : α → Except ε β} {b : β} (h : x >>= f = .ok b) :
    ∃ a, x = .ok a ∧ f a = .ok b := by
  cases x with
  | error e => cases h
  | ok a => exact ⟨a, rfl, h⟩

private theorem Except.map_eq_ok {ε α β : Type} {x : Except ε α} {f : α → β} {b : β} (h : x.map f = .ok b) :
    ∃ a, x = .ok a ∧ f a = b := by
  cases x with
  | error e => cases h
  | ok a => exact ⟨a, rfl, Except.ok.inj h⟩

section ApplyChanges

variable {φ : Type} [DecidableEq φ] {changes : List (φ × FieldValue)}

private theorem applyChanges_of_not_mem {field : φ} (fields : φ → FieldValue) (h : field ∉ changes.map Prod.fst) :
    (applyChanges fields changes).1 field = fields field := by
  induction changes generalizing fields with
  | nil => rfl
  | cons c rest ih =>
    obtain ⟨hne, hrest⟩ : field ≠ c.1 ∧ field ∉ rest.map Prod.fst := by simpa using h
    rw [applyChanges]
    split
    · exact ih fields hrest
    · exact (ih _ hrest).trans (Function.update_of_ne hne ..)

/-- Every field of the body has its value afterwards; no other field is touched. -/
theorem applyChanges_changed (fields : φ → FieldValue) (hnd : (changes.map Prod.fst).Nodup) :
    Changed changes fields (applyChanges fields changes).1 := by
  refine ⟨?_, fun field h => applyChanges_of_not_mem fields h⟩
  induction changes generalizing fields with
  | nil => exact fun c hc => absurd hc List.not_mem_nil
  | cons c rest ih =>
    obtain ⟨hhead, hrest⟩ := List.nodup_cons.1 hnd
    intro d hd
    rw [applyChanges]
    split
    case isTrue hsame =>
      rcases List.mem_cons.1 hd with rfl | hd
      · exact (applyChanges_of_not_mem fields hhead).trans hsame
      · exact ih fields hrest d hd
    case isFalse =>
      rcases List.mem_cons.1 hd with rfl | hd
      · exact (applyChanges_of_not_mem _ hhead).trans (Function.update_self ..)
      · exact ih _ hrest d hd

/-- The difference is empty exactly when every field of the body already has its value. -/
theorem applyChanges_diff_eq_nil_iff (fields : φ → FieldValue) :
    (applyChanges fields changes).2 = [] ↔ ∀ c ∈ changes, fields c.1 = c.2 := by
  induction changes with
  | nil => simp [applyChanges]
  | cons c rest ih =>
    rw [applyChanges, List.forall_mem_cons]
    split
    case isTrue hsame => exact ih.trans ⟨fun h => ⟨hsame, h⟩, fun h => h.2⟩
    case isFalse hdiffers => exact ⟨fun h => absurd h (List.cons_ne_nil _ _), fun h => absurd h.1 hdiffers⟩

end ApplyChanges

/-- An accepted edit sets the fields of the body and nothing else. -/
theorem EventUpdate.edit_eq_ok {cfg : QueueSettings} {id : EventId} {row value : EventRecord}
    {changes : List (EventField × FieldValue)} {diff : List (FieldChange EventField)}
    (h : edit cfg id row changes = .ok (value, diff)) :
    value = { row with fields := (applyChanges row.fields changes).1 } ∧
    diff = (applyChanges row.fields changes).2 := by
  unfold edit at h
  by_cases hcancelled : row.status = .cancelled
  · rw [if_pos hcancelled] at h
    cases h
  · rw [if_neg hcancelled] at h
    by_cases hnone : changes.isEmpty
    · rw [if_pos hnone] at h
      obtain ⟨rfl, rfl⟩ := Prod.mk.inj (Except.ok.inj h)
      rw [List.isEmpty_iff.1 hnone]
      exact ⟨rfl, rfl⟩
    · rw [if_neg hnone] at h
      by_cases hpriced : (changes.lookup .priceCents).isSome ∧ row.venueId.isSome
      · rw [if_pos hpriced] at h
        cases h
      · rw [if_neg hpriced] at h
        obtain ⟨_, -, h⟩ := Except.bind_eq_ok h
        obtain ⟨rfl, rfl⟩ := Prod.mk.inj (Except.ok.inj h)
        exact ⟨rfl, rfl⟩

namespace ZonePricesUpdate

variable {rows : AdminRows} {event : EventId} {prices : List ZonePriceUpdate}

private theorem check_eq_ok {u : Unit} (h : check rows event prices = .ok u) :
    ∀ item ∈ prices, ∃ row, rows.getPrice event item.zone = some row ∧ row.version = item.version := by
  induction prices with
  | nil => exact fun _ hitem => absurd hitem List.not_mem_nil
  | cons item rest ih =>
    rw [check] at h
    split at h
    case h_1 => cases h
    case h_2 row hrow =>
      obtain ⟨_, hversion, hrest⟩ := Except.bind_eq_ok h
      intro other hother
      rcases List.mem_cons.1 hother with rfl | hmem
      · exact ⟨row, hrow, requireVersion_eq_ok hversion⟩
      · exact ih hrest other hmem

private theorem mem_writes {w : RowWrite} (hcheck : ∀ item ∈ prices, ∃ row, rows.getPrice event item.zone = some row ∧
    row.version = item.version) (hw : w ∈ writes rows event prices) :
    ∃ item ∈ prices, w = ⟨.price event item.zone, item.version, .price item.priceCents⟩ := by
  obtain ⟨item, hitem, hsome⟩ := List.mem_filterMap.1 hw
  obtain ⟨row, hrow, hversion⟩ := hcheck item hitem
  refine ⟨item, hitem, ?_⟩
  rw [hrow, Option.bind_some] at hsome
  split at hsome
  · rw [← hversion]
    exact (Option.some.inj hsome).symm
  · cases hsome

/-- A price that is not written is the one that the row has. -/
private theorem written_or_same {item : ZonePriceUpdate} {row : Row Int} (hitem : item ∈ prices)
    (hrow : rows.getPrice event item.zone = some row) (hversion : row.version = item.version) :
    ⟨.price event item.zone, item.version, .price item.priceCents⟩ ∈ writes rows event prices ∨
    row.value = item.priceCents := by
  by_cases hsame : row.value = item.priceCents
  · exact .inr hsame
  · refine .inl (List.mem_filterMap.2 ⟨item, hitem, ?_⟩)
    rw [hrow, Option.bind_some, if_pos hsame, hversion]

private theorem nodup_writes (hnd : (prices.map ZonePriceUpdate.zone).Nodup) :
    ((writes rows event prices).map Optimistic.Write.key).Nodup := by
  have hkey : ∀ (item : ZonePriceUpdate) (w : RowWrite), ((rows.getPrice event item.zone).bind fun row =>
      if row.value ≠ item.priceCents then some
        (⟨.price event item.zone, row.version, .price item.priceCents⟩ : RowWrite)
      else none) = some w → w.key = .price event item.zone := by
    intro item w hw
    obtain ⟨row, -, hsome⟩ := Option.bind_eq_some_iff.1 hw
    split at hsome
    · rw [← Option.some.inj hsome]
    · cases hsome
  rw [List.Nodup, List.pairwise_map] at hnd ⊢
  rw [writes, List.pairwise_filterMap]
  refine hnd.imp fun {a b} hne v hv v' hv' heq => hne ?_
  rw [hkey a v hv, hkey b v' hv'] at heq
  exact (RowKey.price.inj heq).2

end ZonePricesUpdate

namespace AdminRequest

variable {cfg : QueueSettings} {rows₀ rows : AdminRows} {written writes : List RowWrite} {request : AdminRequest}

private theorem AppliedBy.append {more : List RowWrite} (h : request.AppliedBy cfg rows₀ written writes) :
    request.AppliedBy cfg rows₀ (written ++ more) writes := by
  cases request with
  | event id data =>
    obtain ⟨row, value, hrec, hrest⟩ := h
    exact ⟨row, value, hrec.append, hrest⟩
  | zone id data =>
    obtain ⟨row, value, hrec, hrest⟩ := h
    exact ⟨row, value, hrec.append, hrest⟩
  | zonePrices id data =>
    obtain ⟨hne, hfrom, hall⟩ := h
    exact ⟨hne, hfrom, fun item hitem => (hall item hitem).imp_right fun hrec => hrec.append⟩

private theorem Fulfilled.append {more : List RowWrite} (h : request.Fulfilled rows₀ written) :
    request.Fulfilled rows₀ (written ++ more) := by
  cases request with
  | event id data =>
    obtain ⟨row, hrec, hrest⟩ := h
    exact ⟨row, hrec.append, hrest⟩
  | zone id data =>
    obtain ⟨row, hrec, hrest⟩ := h
    exact ⟨row, hrec.append, hrest⟩
  | zonePrices id data => exact fun item hitem => (h item hitem).append

private theorem exists_unfulfilled {φ : Type} [DecidableEq φ] {fields : φ → FieldValue}
    {changes : List (φ × FieldValue)}
    (h : (applyChanges fields changes).2 ≠ []) : ∃ c ∈ changes, fields c.1 ≠ c.2 := by
  by_contra hno
  refine h ((applyChanges_diff_eq_nil_iff fields).2 fun c hc => ?_)
  by_contra hne
  exact hno ⟨c, hc, hne⟩

/-- The plan of a request: nothing where the rows have all it asks for, what it asks for otherwise, and every
row at most once. -/
private theorem plan_spec (h : request.plan cfg rows = .ok writes)
    (hrec : ∀ key row, rows key = some row → Recorded rows₀ written key row) :
    (writes = [] → request.Fulfilled rows₀ written) ∧ (writes ≠ [] → request.AppliedBy cfg rows₀ written writes) ∧
      (writes.map Optimistic.Write.key).Nodup := by
  cases request with
  | event id data =>
    simp only [plan] at h
    split at h
    case h_1 => cases h
    case h_2 row hrow =>
      obtain ⟨⟨value, diff⟩, happly, hwrites⟩ := Except.bind_eq_ok h
      obtain ⟨_, hversion, hedit⟩ := Except.bind_eq_ok happly
      have hv := requireVersion_eq_ok hversion
      have hread : Recorded rows₀ written (.event id) ⟨.event row.value, data.version⟩ := by
        rw [← hv]
        exact hrec _ _ (AdminRows.eq_of_getEvent hrow)
      obtain ⟨hvalue, hdiff⟩ := EventUpdate.edit_eq_ok hedit
      have hw := Except.ok.inj hwrites
      by_cases hnone : diff.isEmpty
      · rw [if_pos hnone] at hw
        have hsame : (applyChanges row.value.fields data.changes).2 = [] := hdiff ▸ List.isEmpty_iff.1 hnone
        subst hw
        exact ⟨fun _ => ⟨row.value, hread, (applyChanges_diff_eq_nil_iff _).1 hsame⟩, fun hne =>
          absurd rfl hne, by simp⟩
      · rw [if_neg hnone, hv] at hw
        have hne : (applyChanges row.value.fields data.changes).2 ≠ [] := fun h =>
          hnone (List.isEmpty_iff.2 (hdiff.trans h))
        subst hw
        refine ⟨fun hnil => absurd hnil (List.cons_ne_nil _ _), fun _ => ?_, by simp⟩
        refine ⟨row.value, value, hread, rfl, ?_, ?_, ?_, exists_unfulfilled hne, diff, hedit⟩
        · rw [hvalue]
          exact applyChanges_changed _ data.nodup
        · rw [hvalue]
        · rw [hvalue]
  | zone id data =>
    simp only [plan] at h
    split at h
    case h_1 => cases h
    case h_2 row hrow =>
      obtain ⟨⟨value, diff⟩, happly, hwrites⟩ := Except.bind_eq_ok h
      obtain ⟨_, hversion, hedit⟩ := Except.bind_eq_ok happly
      obtain ⟨rfl, rfl⟩ := Prod.mk.inj (Except.ok.inj hedit)
      have hv := requireVersion_eq_ok hversion
      have hread : Recorded rows₀ written (.zone id) ⟨.zone row.value, data.version⟩ := by
        rw [← hv]
        exact hrec _ _ (AdminRows.eq_of_getZone hrow)
      have hw := Except.ok.inj hwrites
      by_cases hnone : (applyChanges row.value.fields data.changes).2.isEmpty
      · rw [if_pos hnone] at hw
        subst hw
        exact ⟨fun _ => ⟨row.value, hread, (applyChanges_diff_eq_nil_iff _).1 (List.isEmpty_iff.1 hnone)⟩,
          fun hne => absurd rfl hne, by simp⟩
      · rw [if_neg hnone, hv] at hw
        subst hw
        refine ⟨fun hnil => absurd hnil (List.cons_ne_nil _ _), fun _ => ?_, by simp⟩
        exact ⟨row.value, _, hread, rfl, applyChanges_changed _ data.nodup,
          exists_unfulfilled fun h => hnone (List.isEmpty_iff.2 h)⟩
  | zonePrices id data =>
    obtain ⟨_, hcheck, hw⟩ := Except.bind_eq_ok h
    obtain rfl := Except.ok.inj hw
    have hall := ZonePricesUpdate.check_eq_ok hcheck
    -- a price is written, or the row read has it
    have hitems : ∀ item ∈ data.prices, (⟨.price id item.zone, item.version, .price item.priceCents⟩ : RowWrite) ∈
        ZonePricesUpdate.writes rows id data.prices ∨
        Recorded rows₀ written (.price id item.zone) ⟨.price item.priceCents, item.version⟩ := by
      intro item hitem
      obtain ⟨row, hrow, hv⟩ := hall item hitem
      refine (ZonePricesUpdate.written_or_same hitem hrow hv).imp_right fun hsame => ?_
      rw [← hsame, ← hv]
      exact hrec _ _ (AdminRows.eq_of_getPrice hrow)
    refine ⟨fun hnil item hitem => (hitems item hitem).resolve_left fun hmem => ?_,
      fun hne => ⟨hne, fun w hmem => ZonePricesUpdate.mem_writes hall hmem, hitems⟩,
      ZonePricesUpdate.nodup_writes data.nodup⟩
    rw [hnil] at hmem
    exact List.not_mem_nil hmem

end AdminRequest

/-! ### One step -/

namespace AdminWorld

variable {cfg : QueueSettings} {rows₀ : AdminRows} {w w' : AdminWorld} {i : Nat} {call : AdminCall}

/-- The account, and what the open transactions hold. -/
structure Sound (cfg : QueueSettings) (rows₀ : AdminRows) (w : AdminWorld) : Prop extends Accounted cfg rows₀ w where
  flushing : ∀ (i : Nat) (call : AdminCall) (flushed todo : List RowWrite), w.calls[i]? = some call →
    call.phase = .flushing flushed todo → w.store.Holds i flushed ∧
    ((flushed ++ todo).map Optimistic.Write.key).Nodup ∧
      call.request.AppliedBy cfg rows₀ w.store.written (flushed ++ todo)

private theorem Sound.recorded (h : Sound cfg rows₀ w) {key : RowKey} {row : Row AdminRow}
    (hrow : w.store.rows key = some row) :
    Recorded rows₀ w.store.written key row := by
  rw [h.replayed] at hrow
  exact recorded_of_replay hrow

/-- A request that has not committed moves on without a commit. -/
private theorem Sound.move (h : Sound cfg rows₀ w) (hcall : w.calls[i]? = some call)
    (hopen : call.phase ≠ .ended .committed)
    {phase : AdminPhase} {store : Store RowKey AdminRow} (hrows : store.rows = w.store.rows)
    (hhistory : store.history = w.store.history) (hphase : phase ≠ .ended .committed)
    (hothers : ∀ j ≠ i, ∀ flushed, w.store.Holds j flushed → store.Holds j flushed)
    (hnoop : phase = .ended .noop → call.request.Fulfilled rows₀ w.store.written)
    (hown : ∀ flushed todo, phase = .flushing flushed todo → store.Holds i flushed ∧
      ((flushed ++ todo).map Optimistic.Write.key).Nodup ∧ call.request.AppliedBy cfg rows₀ w.store.written
        (flushed ++ todo)) :
    Sound cfg rows₀ { w.setCall i call phase with store := store } := by
  have hwritten : store.written = w.store.written := by rw [Store.written, hhistory, Store.written]
  have hi : i < w.calls.length := (List.getElem?_eq_some_iff.1 hcall).1
  refine ⟨⟨fun key => ?_, ?_, ?_, fun batch hb => ?_, fun j c hj hc => ?_, fun j c hj hc => ?_⟩,
    fun j c flushed todo hj hc => ?_⟩
  · simpa only [hrows, hwritten] using h.chained key
  · simpa only [hrows, hwritten] using h.replayed
  · simpa only [hhistory] using h.once
  · -- the owner of a batch is a request that has committed, so another one
    obtain ⟨c, hc, hphase', happ⟩ := h.applied batch (by simpa only [hhistory] using hb)
    refine ⟨c, ?_, hphase', by simpa only [hwritten] using happ⟩
    have hne : i ≠ batch.owner := by
      intro he
      rw [← he, hcall] at hc
      exact hopen (Option.some.inj hc ▸ hphase')
    simpa only [setCall, List.getElem?_set_ne hne] using hc
  · by_cases hij : i = j
    · subst hij
      simp only [setCall, List.getElem?_set_self hi, Option.some.injEq] at hj
      subst hj
      exact absurd hc hphase
    · simp only [setCall, List.getElem?_set_ne hij] at hj
      simpa only [hhistory] using h.committed j c hj hc
  · by_cases hij : i = j
    · subst hij
      simp only [setCall, List.getElem?_set_self hi, Option.some.injEq] at hj
      subst hj
      simpa only [hwritten] using hnoop hc
    · simp only [setCall, List.getElem?_set_ne hij] at hj
      simpa only [hwritten] using h.noop j c hj hc
  · by_cases hij : i = j
    · subst hij
      simp only [setCall, List.getElem?_set_self hi, Option.some.injEq] at hj
      subst hj
      simpa only [hwritten] using hown flushed todo hc
    · simp only [setCall, List.getElem?_set_ne hij] at hj
      obtain ⟨hholds, hrest⟩ := h.flushing j c flushed todo hj hc
      exact ⟨hothers j (Ne.symm hij) flushed hholds, by simpa only [hwritten] using hrest⟩

private theorem Sound.abort (h : Sound cfg rows₀ w) (hcall : w.calls[i]? = some call)
    (hopen : call.phase ≠ .ended .committed) (e : AdminError) : Sound cfg rows₀ (w.abort i call e) :=
  h.move hcall hopen rfl rfl (by simp) (fun _ hj _ hholds => hholds.release_other hj) (by simp) (by simp)

private theorem Sound.load (h : Sound cfg rows₀ w) (hcall : w.calls[i]? = some call)
    (hw : w.load cfg i call = some w') :
    Sound cfg rows₀ w' := by
  obtain ⟨result, hload, hresult⟩ := Option.map_eq_some_iff.1 hw
  have hopen : call.phase ≠ .ended .committed := by
    intro hp
    simp [AdminCall.load, hp] at hload
  cases result with
  | error e =>
    subst hresult
    exact h.abort hcall hopen e
  | ok phase =>
    subst hresult
    have hcase : phase = .eventLoaded ∨ ∃ writes, call.request.plan cfg w.store.rows = .ok writes ∧
        phase = .ofWrites writes := by
      unfold AdminCall.load at hload
      split at hload
      · obtain ⟨_, _, rfl⟩ := Except.map_eq_ok (Option.some.inj hload)
        exact .inl rfl
      all_goals first
        | cases hload
        | obtain ⟨writes, hplan, rfl⟩ := Except.map_eq_ok (Option.some.inj hload)
          exact .inr ⟨writes, hplan, rfl⟩
    rcases hcase with rfl | ⟨writes, hplan, rfl⟩
    · exact h.move hcall hopen rfl rfl (by simp) (fun _ _ _ hholds => hholds) (by simp) (by simp)
    · obtain ⟨hnone, happ, hnd⟩ := AdminRequest.plan_spec hplan fun key row hrow => h.recorded hrow
      refine h.move hcall hopen rfl rfl ?_ (fun _ _ _ hholds => hholds) (fun hp => ?_) fun flushed todo hp => ?_
      · rw [AdminPhase.ofWrites]
        split <;> simp
      · rw [AdminPhase.ofWrites] at hp
        split at hp
        case isTrue hempty => exact hnone (List.isEmpty_iff.1 hempty)
        case isFalse => cases hp
      · rw [AdminPhase.ofWrites] at hp
        split at hp
        case isTrue => cases hp
        case isFalse hne =>
          obtain ⟨rfl, rfl⟩ := AdminPhase.flushing.inj hp
          exact ⟨Store.holds_nil, hnd, happ fun hnil => hne (List.isEmpty_iff.2 hnil)⟩

private theorem Sound.flush (h : Sound cfg rows₀ w) (hcall : w.calls[i]? = some call)
    (hw : w.flush i call = some w') :
    Sound cfg rows₀ w' := by
  unfold AdminWorld.flush at hw
  split at hw
  case h_2 => cases hw
  case h_1 flushed write todo hp =>
    have hopen : call.phase ≠ .ended .committed := by simp [hp]
    obtain ⟨hholds, hnd, happ⟩ := h.flushing i call flushed (write :: todo) hcall hp
    split_ifs at hw with hmatch hfree hok
    · obtain rfl := Option.some.inj hw
      have hfresh : write.key ∉ flushed.map Optimistic.Write.key := by
        intro hmem
        rw [List.map_append, List.nodup_append] at hnd
        exact hnd.2.2 _ hmem _ (by simp) rfl
      refine h.move hcall hopen rfl rfl (by simp) (fun j hj _ hj' => hj'.lock_other hj hfree)
        (by simp) fun flushed' todo' hp' => ?_
      obtain ⟨rfl, rfl⟩ := AdminPhase.flushing.inj hp'
      refine ⟨hholds.lock hmatch hfresh, ?_, ?_⟩
      · simpa using hnd
      · simpa using happ
    · obtain rfl := Option.some.inj hw
      exact h.abort hcall hopen _
    · obtain rfl := Option.some.inj hw
      exact h.abort hcall hopen _

private theorem Sound.commit (h : Sound cfg rows₀ w) (hcall : w.calls[i]? = some call)
    (hw : w.commit i call = some w') :
    Sound cfg rows₀ w' := by
  unfold AdminWorld.commit at hw
  split at hw
  case h_2 => cases hw
  case h_1 flushed hp =>
    obtain rfl := Option.some.inj hw
    obtain ⟨hholds, hnd, happ⟩ := h.flushing i call flushed [] hcall hp
    rw [List.append_nil] at happ
    have hi : i < w.calls.length := (List.getElem?_eq_some_iff.1 hcall).1
    have hnew : i ∉ w.store.history.map Batch.owner := by
      intro hmem
      obtain ⟨batch, hb, rfl⟩ := List.mem_map.1 hmem
      obtain ⟨c, hc, hc', -⟩ := h.applied batch hb
      rw [hcall] at hc
      rw [← Option.some.inj hc, hp] at hc'
      cases hc'
    have hother : ∀ {j : Nat}, i ≠ j → (w.calls.set i { call with phase := .ended .committed })[j]? = w.calls[j]? :=
      fun hij => List.getElem?_set_ne hij
    have hhistory : (w.store.commit i flushed).history = w.store.history ++ [⟨i, flushed⟩] := rfl
    refine ⟨⟨fun key => hholds.chained (h.chained key), ?_, ?_, fun batch hb => ?_, fun j c hj hc => ?_,
      fun j c hj hc => ?_⟩, fun j c flushed' todo' hj hc => ?_⟩
    · simp only [Store.written_commit, List.foldl_append, ← h.replayed]
      rfl
    · simp only [hhistory, List.map_append, List.map_singleton]
      rw [← List.concat_eq_append]
      exact h.once.concat hnew
    · simp only [hhistory, List.mem_append, List.mem_singleton] at hb
      simp only [Store.written_commit]
      rcases hb with hb | rfl
      · obtain ⟨c, hc, hc', happ'⟩ := h.applied batch hb
        refine ⟨c, ?_, hc', happ'.append⟩
        have hne : i ≠ batch.owner := fun he => hnew (List.mem_map.2 ⟨batch, hb, he.symm⟩)
        exact (hother hne).trans hc
      · exact ⟨_, List.getElem?_set_self hi, rfl, happ.append⟩
    · by_cases hij : i = j
      · subst hij
        exact List.mem_map.2 ⟨⟨i, flushed⟩, by simp [hhistory], rfl⟩
      · have hold := h.committed j c ((hother hij).symm.trans hj) hc
        simp only [hhistory, List.map_append, List.mem_append]
        exact .inl hold
    · by_cases hij : i = j
      · subst hij
        simp only [setCall, List.getElem?_set_self hi, Option.some.injEq] at hj
        subst hj
        cases hc
      · simp only [Store.written_commit]
        exact (h.noop j c ((hother hij).symm.trans hj) hc).append
    · by_cases hij : i = j
      · subst hij
        simp only [setCall, List.getElem?_set_self hi, Option.some.injEq] at hj
        subst hj
        cases hc
      · obtain ⟨hholds', hnd', happ'⟩ := h.flushing j c flushed' todo' ((hother hij).symm.trans hj) hc
        refine ⟨hholds'.commit_other (Ne.symm hij) hholds, hnd', ?_⟩
        simp only [Store.written_commit]
        exact happ'.append

private theorem Sound.receive (h : Sound cfg rows₀ w) (request : AdminRequest) :
    Sound cfg rows₀ { w with calls := w.calls ++ [{ request := request }] } := by
  have hold : ∀ {j : Nat} {c : AdminCall}, (w.calls ++ [{ request := request }])[j]? = some c →
      w.calls[j]? = some c ∨ c.phase = .received := by
    intro j c hj
    rw [List.getElem?_append] at hj
    split at hj
    · exact .inl hj
    · obtain rfl := List.mem_singleton.1 (List.mem_of_getElem? hj)
      exact .inr rfl
  refine ⟨⟨h.chained, h.replayed, h.once, fun batch hb => ?_, fun j c hj hc => ?_, fun j c hj hc => ?_⟩,
    fun j c flushed todo hj hc => ?_⟩
  · obtain ⟨c, hc, hrest⟩ := h.applied batch hb
    exact ⟨c, List.getElem?_append_left (List.getElem?_eq_some_iff.1 hc).1 ▸ hc, hrest⟩
  · rcases hold hj with hj | hr
    · exact h.committed j c hj hc
    · rw [hr] at hc
      cases hc
  · rcases hold hj with hj | hr
    · exact h.noop j c hj hc
    · rw [hr] at hc
      cases hc
  · rcases hold hj with hj | hr
    · exact h.flushing j c flushed todo hj hc
    · rw [hr] at hc
      cases hc

/-- Every step keeps the account. -/
theorem sound_step {a : AdminAct} (hw : step cfg w a = some w') (h : Sound cfg rows₀ w) : Sound cfg rows₀ w' := by
  cases a with
  | receive request =>
    obtain rfl := Option.some.inj hw
    exact h.receive request
  | load i =>
    obtain ⟨call, hcall, hload⟩ := Option.bind_eq_some_iff.1 hw
    exact h.load hcall hload
  | flush i =>
    obtain ⟨call, hcall, hflush⟩ := Option.bind_eq_some_iff.1 hw
    exact h.flush hcall hflush
  | commit i =>
    obtain ⟨call, hcall, hcommit⟩ := Option.bind_eq_some_iff.1 hw
    exact h.commit hcall hcommit
  | fail i =>
    obtain ⟨call, hcall, hfail⟩ := Option.bind_eq_some_iff.1 hw
    unfold AdminWorld.fail at hfail
    split at hfail
    case h_1 => cases hfail
    case h_2 hopen =>
      obtain rfl := Option.some.inj hfail
      exact h.abort hcall (fun hp => hopen _ hp) _

private theorem sound_start (cfg : QueueSettings) (rows₀ : AdminRows) : Sound cfg rows₀ (start rows₀) where
  chained key := .start rows₀ key
  replayed := rfl
  once := List.nodup_nil
  applied _ hb := absurd hb List.not_mem_nil
  committed _ _ hj := absurd hj (by simp [start])
  noop _ _ hj := absurd hj (by simp [start])
  flushing _ _ _ _ hj := absurd hj (by simp [start])

/-! ### Only the version was wrong -/

private theorem requireVersion_error {resource : String} {id current expected : Nat} {e : AdminError}
    (h : requireVersion resource id current expected = .error e) : e.isConflict = true := by
  rw [requireVersion] at h
  split at h
  · rw [← Except.error.inj h]
    rfl
  · cases h

private theorem requireVersion_self {resource : String} {id current : Nat} :
    requireVersion resource id current current = .ok () := by
  rw [requireVersion, if_neg (not_not.2 rfl)]

private theorem check_error {rows : AdminRows} {event : EventId} {prices : List ZonePriceUpdate} {e : AdminError}
    (hrows : ∀ item ∈ prices, (rows.getPrice event item.zone).isSome)
    (h : ZonePricesUpdate.check rows event prices = .error e) :
    e.isConflict = true := by
  induction prices with
  | nil => cases h
  | cons item rest ih =>
    rw [ZonePricesUpdate.check] at h
    split at h
    case h_1 hnone =>
      have hsome := hrows item List.mem_cons_self
      rw [hnone] at hsome
      cases hsome
    case h_2 row hrow =>
      cases hversion : requireVersion "event_zone_price" item.zone row.version item.version with
      | error e' =>
        rw [hversion] at h
        rw [← Except.error.inj h]
        exact requireVersion_error hversion
      | ok u =>
        rw [hversion] at h
        exact ih (fun other hother => hrows other (List.mem_cons_of_mem _ hother)) h

/-- A request whose checks pass with the versions that the rows have now can only fail on a version. -/
private theorem plan_error {rows : AdminRows} {request : AdminRequest} {writes : List RowWrite} {e : AdminError}
    (hok : (request.withVersions rows).plan cfg rows = .ok writes) (h : request.plan cfg rows = .error e) :
    e.isConflict = true := by
  cases request with
  | event id data =>
    simp only [AdminRequest.plan, AdminRequest.withVersions] at hok h
    cases hrow : rows.getEvent id with
    | none => simp [hrow] at hok
    | some row =>
      simp only [hrow, Option.elim_some, applyEventUpdate, requireVersion_self] at hok h
      cases hversion : requireVersion "event" id row.version data.version with
      | error e' =>
        rw [hversion] at h
        rw [← Except.error.inj h]
        exact requireVersion_error hversion
      | ok u =>
        rw [hversion] at h
        cases hok.symm.trans h
  | zone id data =>
    simp only [AdminRequest.plan, AdminRequest.withVersions] at hok h
    cases hrow : rows.getZone id with
    | none => simp [hrow] at hok
    | some row =>
      simp only [hrow, Option.elim_some, applyZoneUpdate, requireVersion_self] at hok h
      cases hversion : requireVersion "zone" id row.version data.version with
      | error e' =>
        rw [hversion] at h
        rw [← Except.error.inj h]
        exact requireVersion_error hversion
      | ok u =>
        rw [hversion] at h
        cases hok.symm.trans h
  | zonePrices id data =>
    obtain ⟨_, hcheck, -⟩ := Except.bind_eq_ok hok
    have hrows : ∀ item ∈ data.prices, (rows.getPrice id item.zone).isSome := by
      intro item hitem
      obtain ⟨row, hrow, -⟩ := ZonePricesUpdate.check_eq_ok hcheck _ (List.mem_map_of_mem hitem)
      exact Option.isSome_of_eq_some hrow
    cases hc : ZonePricesUpdate.check rows id data.prices with
    | error e' =>
      simp only [AdminRequest.plan, hc] at h
      rw [← Except.error.inj h]
      exact check_error hrows hc
    | ok u =>
      simp only [AdminRequest.plan, hc] at h
      cases h

private theorem load_error {rows : AdminRows} {e : AdminError}
    (hok : ∀ result ∈ { call with request := call.request.withVersions rows }.load cfg rows, ∃ phase,
      result = .ok phase)
    (h : call.load cfg rows = some (.error e)) : e.isConflict = true := by
  obtain ⟨request, phase⟩ := call
  have hplan : ∀ {e : AdminError},
    (∀ result ∈ some (((request.withVersions rows).plan cfg rows).map AdminPhase.ofWrites),
      ∃ phase, result = .ok phase) → (request.plan cfg rows).map AdminPhase.ofWrites = .error e →
        e.isConflict = true := by
    intro e hok h
    obtain ⟨phase, hphase⟩ := hok _ rfl
    obtain ⟨writes, hwrites, -⟩ := Except.map_eq_ok hphase
    cases hp : request.plan cfg rows with
    | error e' =>
      rw [hp] at h
      rw [← Except.error.inj h]
      exact plan_error hwrites hp
    | ok writes' =>
      rw [hp] at h
      cases h
  cases phase with
  | received =>
    cases request with
    | event id data => exact hplan hok (Option.some.inj h)
    | zone id data => exact hplan hok (Option.some.inj h)
    | zonePrices id data =>
      obtain ⟨phase, hphase⟩ := hok _ rfl
      cases hphase.symm.trans (Option.some.inj h)
  | eventLoaded => exact hplan hok (Option.some.inj h)
  | flushing flushed todo => cases h
  | ended outcome => cases h

private theorem conflict_isConflict (request : AdminRequest) : request.conflict.isConflict = true := by
  cases request <;> rfl

/-- A step by another request leaves this one where it is. -/
private theorem getElem?_setCall_ne {j : Nat} {c : AdminCall} {phase : AdminPhase} (hij : j ≠ i) :
    (w.setCall j c phase).calls[i]? = w.calls[i]? :=
  List.getElem?_set_ne hij

private theorem phase_setCall {phase phase' : AdminPhase} (hcall : w.calls[i]? = some call)
    (h : (w.setCall i call phase).calls[i]? = some { call with phase := phase' }) : phase = phase' := by
  have hi : i < w.calls.length := (List.getElem?_eq_some_iff.1 hcall).1
  rw [setCall, List.getElem?_set_self hi, Option.some.injEq] at h
  exact congrArg AdminCall.phase h

private theorem load_isConflict {e : AdminError} (hcall : w.calls[i]? = some call) (hw : w.load cfg i call = some w')
    (hend : w'.calls[i]? = some { call with phase := .ended (.failed e) }) (hok : w.Faultless cfg call) :
    e.isConflict = true := by
  obtain ⟨result, hload, hresult⟩ := Option.map_eq_some_iff.1 hw
  cases result with
  | error e' =>
    subst hresult
    cases phase_setCall hcall hend
    exact load_error hok.1 hload
  | ok phase =>
    -- a load that succeeds does not end in an error
    subst hresult
    obtain rfl := phase_setCall hcall hend
    unfold AdminCall.load at hload
    split at hload
    · obtain ⟨_, _, hp⟩ := Except.map_eq_ok (Option.some.inj hload)
      cases hp
    all_goals first
      | cases hload
      | obtain ⟨writes, _, hp⟩ := Except.map_eq_ok (Option.some.inj hload)
        rw [AdminPhase.ofWrites] at hp
        split at hp <;> cases hp

private theorem flush_isConflict {e : AdminError} (hcall : w.calls[i]? = some call) (hw : w.flush i call = some w')
    (hend : w'.calls[i]? = some { call with phase := .ended (.failed e) }) (hok : w.Faultless cfg call) :
    e.isConflict = true := by
  unfold AdminWorld.flush at hw
  split at hw
  case h_2 => cases hw
  case h_1 flushed write todo hp =>
    split_ifs at hw with hmatch hfree hvalid
    · obtain rfl := Option.some.inj hw
      cases phase_setCall hcall hend
    · exact absurd (hok.2 flushed write todo hp) hvalid
    · obtain rfl := Option.some.inj hw
      cases phase_setCall hcall hend
      exact conflict_isConflict call.request

/-- A request that a step ends in an error, where nothing but a version could be wrong, ends in a conflict. -/
private theorem ends_in_conflict {a : AdminAct} {e : AdminError} (hcall : w.calls[i]? = some call)
    (hopen : call.phase ≠ .ended (.failed e)) (hw : step cfg w a = some w')
    (hend : w'.calls[i]? = some { call with phase := .ended (.failed e) }) (hfail : a ≠ .fail i)
    (hok : w.Faultless cfg call) :
    e.isConflict = true := by
  -- the step has to be one of this request
  have hsame : w'.calls[i]? = w.calls[i]? → e.isConflict = true := by
    intro heq
    rw [heq, hcall, Option.some.injEq] at hend
    exact absurd (congrArg AdminCall.phase hend) hopen
  cases a with
  | receive request =>
    obtain rfl := Option.some.inj hw
    exact hsame (List.getElem?_append_left (List.getElem?_eq_some_iff.1 hcall).1)
  | load j =>
    obtain ⟨c, hc, hload⟩ := Option.bind_eq_some_iff.1 hw
    by_cases hij : j = i
    · subst hij
      obtain rfl := Option.some.inj (hc.symm.trans hcall)
      exact load_isConflict hcall hload hend hok
    · obtain ⟨result, -, rfl⟩ := Option.map_eq_some_iff.1 hload
      cases result <;> exact hsame (getElem?_setCall_ne hij)
  | flush j =>
    obtain ⟨c, hc, hflush⟩ := Option.bind_eq_some_iff.1 hw
    by_cases hij : j = i
    · subst hij
      obtain rfl := Option.some.inj (hc.symm.trans hcall)
      exact flush_isConflict hcall hflush hend hok
    · unfold AdminWorld.flush at hflush
      split at hflush
      · split_ifs at hflush <;> obtain rfl := Option.some.inj hflush <;> exact hsame (getElem?_setCall_ne hij)
      · cases hflush
  | commit j =>
    obtain ⟨c, hc, hcommit⟩ := Option.bind_eq_some_iff.1 hw
    unfold AdminWorld.commit at hcommit
    split at hcommit
    · obtain rfl := Option.some.inj hcommit
      by_cases hij : j = i
      · subst hij
        obtain rfl := Option.some.inj (hc.symm.trans hcall)
        cases phase_setCall hcall hend
      · exact hsame (getElem?_setCall_ne hij)
    · cases hcommit
  | fail j =>
    obtain ⟨c, hc, hj⟩ := Option.bind_eq_some_iff.1 hw
    have hij : j ≠ i := fun he => hfail (he ▸ rfl)
    unfold AdminWorld.fail at hj
    split at hj
    · cases hj
    · obtain rfl := Option.some.inj hj
      exact hsame (getElem?_setCall_ne hij)

/-! ### Every run -/

/-- In every run the account is right: the writes to a row form a chain of versions, the rows are what the
committed batches make of the first ones, each batch is a request that has committed, in full, and no other
request has written anything.  A request that ends as a no-op asked for what the rows it had read already had;
one that ends in an error though nothing but a version could be wrong with it ends in
`ConcurrentModification`. -/
theorem no_lost_update (cfg : QueueSettings) (rows₀ : AdminRows) {acts : List AdminAct} {w : AdminWorld}
    (h : exec (step cfg) (start rows₀) acts = some w) :
    Accounted cfg rows₀ w ∧
    ∀ (a : AdminAct) (w' : AdminWorld), step cfg w a = some w' → ∀ (i : Nat) (call : AdminCall) (e : AdminError),
      w.calls[i]? = some call → call.phase ≠ .ended (.failed e) →
      w'.calls[i]? = some { call with phase := .ended (.failed e) } → a ≠ .fail i → w.Faultless cfg call →
      e.isConflict = true := by
  have hsound : Sound cfg rows₀ w := exec_invariant (C := fun _ _ => True) (fun _ _ _ _ hs hI => sound_step hs hI)
    (sound_start cfg rows₀) (.of_forall fun _ _ _ => trivial) h
  refine ⟨hsound.toAccounted, fun a w' hw i call e hcall hopen hend hfail hok => ?_⟩
  exact ends_in_conflict hcall hopen hw hend hfail hok

/-- Zones 1 and 2 of event 1 cost 100 and 200. -/
private def twoZones : AdminRows
  | .event 1 => some ⟨.event { fields := fun _ => .null, status := .published, venueId := some 1 }, 1⟩
  | .price 1 1 => some ⟨.price 100, 1⟩
  | .price 1 2 => some ⟨.price 200, 1⟩
  | _ => none

/-- Two batches for the same two zones, both read at version 1: one is applied to both rows, the other to none. -/
theorem zone_prices_not_mixed :
    ∃ w, exec (step {}) (start twoZones)
        [.receive (.zonePrices 1 ⟨[⟨1, 110, 1⟩, ⟨2, 210, 1⟩], by decide, by decide⟩),
          .receive (.zonePrices 1 ⟨[⟨2, 220, 1⟩, ⟨1, 120, 1⟩], by decide, by decide⟩),
          .load 0, .load 1, .load 0, .load 1, .flush 0, .flush 0, .commit 0, .flush 1] = some w ∧
      (AdminRows.getPrice w.store.rows 1 1 = some ⟨110, 2⟩ ∧ AdminRows.getPrice w.store.rows 1 2 = some ⟨210, 2⟩ ∧
        w.store.history.map Batch.owner = [0]) ∧
      Accounted {} twoZones w := by
  obtain ⟨w, hw, hp⟩ := exec_any (step {}) (start twoZones)
    [.receive (.zonePrices 1 ⟨[⟨1, 110, 1⟩, ⟨2, 210, 1⟩], by decide, by decide⟩),
      .receive (.zonePrices 1 ⟨[⟨2, 220, 1⟩, ⟨1, 120, 1⟩], by decide, by decide⟩),
      .load 0, .load 1, .load 0, .load 1, .flush 0, .flush 0, .commit 0, .flush 1]
    (fun w => AdminRows.getPrice w.store.rows 1 1 = some ⟨110, 2⟩ ∧
      AdminRows.getPrice w.store.rows 1 2 = some ⟨210, 2⟩ ∧
      w.store.history.map Batch.owner = [0]) (by decide +kernel)
  rw [decide_eq_true_eq] at hp
  exact ⟨w, hw, hp, (no_lost_update {} twoZones hw).1⟩

end AdminWorld

end Ticketing
