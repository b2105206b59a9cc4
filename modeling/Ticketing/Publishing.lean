import Ticketing.Base.Tally
import Ticketing.Ledger
import Ticketing.Settlement
import Ticketing.Submission

/-!
# Publishing an event

`publish_event_endpoint` for an event with a seat map: the event is loaded and checked, the flush writes
`PUBLISHED` under the version that was loaded and locks the row, and only then Redis gets the stock of the
event (`SET NX`) and, zone by zone, the free runs, by a rebuild that skips the backlog guard.  The transaction
may be rolled back at any point.  Other publications, `PATCH` requests, submissions and the consumer run in
between; a submission for the event needs the committed status.  Claims and markers do not expire in these
runs.

The rebuild skips the guard because nothing can be in flight for an event that is not published.
`publish_keeps_seats` says that this is so: whenever such a rebuild writes, the event has no intent and no
hold, and once a publication has committed, the stock together with the seats taken is the size of the event,
and the stock is the sum of the zone counters.
-/

namespace Ticketing

open Exec Tally

/-! ### The system -/

/-- What a publication reads of the event's venue and prices, which no step changes. -/
structure SeatMap where
  event : EventId
  /-- The zones of the venue. -/
  zones : List ZoneId
  nodup : zones.Nodup
  /-- The zones with a price row for the event. -/
  priced : List ZoneId

/-- The columns of the event row that matter here. -/
structure PublishRow where
  status : EventStatus
  version : Nat
deriving DecidableEq

/-- The point a request has reached: a publication, or a `PATCH` of the event. -/
inductive PublishPhase where
  | requested
  | loaded (row : PublishRow)
  /-- All checks passed; about to flush. -/
  | checked (version : Nat)
  /-- The row is written and locked; about to set the stock. -/
  | flushed
  /-- About to read the blocks and holds of the next zone. -/
  | rebuilding (todo : List ZoneId)
  /-- About to write the zone. -/
  | rebuildRead (zone : ZoneId) (blocks : List SeatBlock) (held : List SeatHold) (todo : List ZoneId)
  /-- About to fix the salt, clear the cached meta and commit. -/
  | closing
  | patching
  | patchLoaded (version : Nat)
  | patchFlushed
  | ended

structure PublishWorld where
  world : World
  /-- The committed row of the event. -/
  row : PublishRow
  /-- The transaction that has written the row and is still open. -/
  lock : Option Nat := none
  calls : List PublishPhase := []

inductive PublishAct where
  | publish
  | patch
  /-- The next step of a request. -/
  | advance (i : Nat)
  | rollback (i : Nat)
  | submit (a : IntakeAct)
  /-- The consumer and the reclaim passes, short of the dead-letter path. -/
  | consume (a : SettleAct)

/-- The event of a submission that begins. -/
def IntakeAct.begins : IntakeAct → Option EventId
  | .call _ event .. => some event
  | _ => none

/-- The first step of `_dead_letter_intent`. -/
def SettleAct.deadLetters : SettleAct → Bool
  | .check _ => true
  | _ => false

namespace SeatMap

/-- The capacity that the blocks of the venue add up to. -/
def capacity (m : SeatMap) (db : Db) : Int := tally (fun b => b.zone ∈ m.zones) SeatBlock.capacity db.seatBlocks

/-- The size that the event row gives. -/
def totalSeats (m : SeatMap) (db : Db) : Int := (db.events m.event).elim 0 EventRow.totalSeats

/-- The checks of `publish_event`. -/
def mayPublish (m : SeatMap) (db : Db) (row : PublishRow) : Bool :=
  row.status = .draft && m.capacity db = m.totalSeats db && m.zones.all fun z => z ∈ m.priced

end SeatMap

namespace PublishWorld

def setCall (w : PublishWorld) (i : Nat) (phase : PublishPhase) : PublishWorld :=
  { w with calls := w.calls.set i phase }

/-- The transaction ends without a trace in the database. -/
def abort (w : PublishWorld) (i : Nat) : PublishWorld :=
  { w.setCall i .ended with lock := if w.lock = some i then none else w.lock }

/-- A commit gives the row its next version. -/
def commit (w : PublishWorld) (i : Nat) (status : EventStatus) : PublishWorld :=
  { w.setCall i .ended with row := ⟨status, w.row.version + 1⟩, lock := none }

/-- `UPDATE … WHERE version`: no row, a row to wait for, or the lock of the row. -/
def flush (w : PublishWorld) (i version : Nat) (next : PublishPhase) : Option PublishWorld :=
  if w.row.version ≠ version then some (w.abort i)
  else if w.lock = none then some { w.setCall i next with lock := some i }
  else none

/-- `set_initial_stock` -/
def setInitialStock (w : PublishWorld) (m : SeatMap) : Redis :=
  let stock := (w.world.redis.available m.event).or (some (m.totalSeats w.world.db))
  { w.world.redis with available := Function.update w.world.redis.available m.event stock }

/-- The next step of a request. -/
def advance (m : SeatMap) (w : PublishWorld) (i : Nat) : PublishPhase → Option PublishWorld
  | .requested => some (w.setCall i (.loaded w.row))
  | .loaded row => if m.mayPublish w.world.db row then some (w.setCall i (.checked row.version)) else some (w.abort i)
  | .checked version => w.flush i version .flushed
  | .flushed => some { w.setCall i (.rebuilding m.zones) with world := { w.world with redis := w.setInitialStock m } }
  | .rebuilding [] => some (w.setCall i .closing)
  | .rebuilding (zone :: todo) =>
    let blocks := w.world.db.zoneBlocks zone
    if blocks.isEmpty then some (w.setCall i (.rebuilding todo))
    else some (w.setCall i (.rebuildRead zone blocks (w.world.db.heldOn m.event blocks) todo))
  | .rebuildRead zone blocks held todo =>
    let keys := (w.world.redis.zones (m.event, zone)).rebuilt blocks held
    some { w.setCall i (.rebuilding todo) with
      world := { w.world with redis := w.world.redis.setZone m.event zone keys } }
  | .closing => some (w.commit i .published)
  | .patching => some (w.setCall i (.patchLoaded w.row.version))
  | .patchLoaded version => w.flush i version .patchFlushed
  | .patchFlushed => some (w.commit i w.row.status)
  | .ended => none

def step (cfg : Settings) (m : SeatMap) (w : PublishWorld) : PublishAct → Option PublishWorld
  | .publish => some { w with calls := w.calls ++ [.requested] }
  | .patch => some { w with calls := w.calls ++ [.patching] }
  | .advance i => w.calls[i]?.bind (w.advance m i)
  | .rollback i => w.calls[i]?.map fun _ => w.abort i
  | .submit a =>
    -- `submit_order` asks for a published event before it begins
    if a.begins = some m.event ∧ w.row.status ≠ .published then none
    else (stepIntake cfg w.world a).map fun world => { w with world := world }
  | .consume a =>
    if a.deadLetters then none else (stepSettle cfg w.world a).map fun world => { w with world := world }

end PublishWorld

/-! ### What is promised -/

namespace World

/-- The event has no accepted intent, none in the stream, and no hold. -/
structure Untouched (w : World) (event : EventId) : Prop where
  log : ∀ i ∈ w.log, i.event ≠ event
  stream : ∀ e ∈ w.redis.stream, e.intent.event ≠ event
  holds : ∀ h ∈ w.db.seatHolds, h.event ≠ event

/-- The seats of the intents that are not persisted, and those of the holds. -/
def seatsTaken (w : World) (event : EventId) : Int :=
  tally (fun i => i.event = event && !w.db.hasKey i.key) Intent.quantity w.log +
    tally (fun h => h.event = event) SeatHold.length w.db.seatHolds

/-- The sum of the zone counters. -/
def zoneStock (w : World) (m : SeatMap) : Int :=
  (m.zones.map fun z => (w.redis.zones (m.event, z)).available.getD 0).sum

/-- The stock and the seats taken add up to the event, and the zones to the stock. -/
structure Balanced (w : World) (m : SeatMap) : Prop where
  total : ∃ available, w.redis.available m.event = some available ∧
    available + w.seatsTaken m.event = m.totalSeats w.db
  zones : w.redis.available m.event = some (w.zoneStock m)

end World

/-- A draft with a seat map for which nothing has happened. -/
structure Drafted (m : SeatMap) (w : PublishWorld) : Prop where
  start : w.world.Start
  unsold : w.world.db.Unsold
  seated : (w.world.db.events m.event).any (fun e => e.seated) = true
  status : w.row.status = .draft
  lock : w.lock = none
  calls : w.calls = []
  available : w.world.redis.available m.event = none
  zones : ∀ zone, w.world.redis.zones (m.event, zone) = {}

/-! ### What submissions and the consumer do to one event -/

section Pipeline

variable {cfg : Settings} {w w' : World} {event : EventId}

private theorem event_nextAttempt {old new : SeatCall} (h : new ∈ old.nextAttempt) : new.event = old.event := by
  unfold SeatCall.nextAttempt at h
  split at h
  · rw [Option.mem_def, Option.some.injEq] at h
    rw [← h]
  · cases h

/-- A step that writes one slot with a call for the same event, or empties it. -/
private theorem calls_of_update {n c : Nat} {old call : SeatCall} {new : Option SeatCall}
    (hold : w.calls n = some old)
    (hw : w'.calls = Function.update w.calls n new) (hnew : ∀ x ∈ new, x.event = old.event)
    (hc : w'.calls c = some call) :
    ∃ call₀, w.calls c = some call₀ ∧ call.event = call₀.event := by
  rw [hw] at hc
  by_cases hcn : c = n
  · subst hcn
    rw [Function.update_self] at hc
    exact ⟨old, hold, hnew call hc⟩
  · rw [Function.update_of_ne hcn] at hc
    exact ⟨call, hc, rfl⟩

/-- Every call after a step of a submission was there before, for the same event, or begins in this step. -/
private theorem calls_stepIntake {a : IntakeAct} (h : stepIntake cfg w a = some w') {c : Nat} {call : SeatCall}
    (hc : w'.calls c = some call) : (∃ call₀, w.calls c = some call₀ ∧ call.event = call₀.event) ∨
    a.begins = some call.event := by
  cases a with
  | reserve b =>
    simp only [stepIntake, World.reserve] at h
    split at h
    · split at h <;> obtain rfl := Option.some.inj h <;> exact .inl ⟨call, hc, rfl⟩
    · cases h
  | call n e zone user quantity price key =>
    simp only [stepIntake] at h
    split at h
    · obtain rfl := Option.some.inj h
      by_cases hcn : c = n
      · subst hcn
        simp only [World.setCall, Function.update_self, Option.some.injEq] at hc
        rw [← hc]
        exact .inr rfl
      · simp only [World.setCall, Function.update_of_ne hcn] at hc
        exact .inl ⟨call, hc, rfl⟩
    · cases h
  | read n =>
    obtain ⟨old, hold, h⟩ := Option.bind_eq_some_iff.1 h
    split at h
    · split at h <;> obtain rfl := Option.some.inj h
      · exact .inl (calls_of_update hold rfl (by simp) hc)
      · exact .inl (calls_of_update hold rfl (by simp) hc)
    · cases h
  | claim n i =>
    obtain ⟨old, hold, h⟩ := Option.bind_eq_some_iff.1 h
    split at h
    · unfold World.claim at h
      split at h
      · obtain rfl := Option.some.inj h
        exact .inl (calls_of_update hold rfl (by simp) hc)
      · obtain ⟨pick, -, h⟩ := Option.bind_eq_some_iff.1 h
        split at h
        · obtain rfl := Option.some.inj h
          exact .inl (calls_of_update hold rfl (by simp) hc)
        · simp only at h
          split at h <;> obtain rfl := Option.some.inj h
          · exact .inl (calls_of_update hold rfl (by simp) hc)
          · exact .inl (calls_of_update hold rfl (fun x hx => event_nextAttempt hx) hc)
          · exact .inl (calls_of_update hold rfl (by simp) hc)
    · cases h
  | miss n =>
    obtain ⟨old, hold, h⟩ := Option.bind_eq_some_iff.1 h
    split at h
    · unfold World.miss at h
      split at h
      · split at h
        · obtain rfl := Option.some.inj h
          exact .inl (calls_of_update hold rfl (by simp) hc)
        · simp only at h
          split at h <;> obtain rfl := Option.some.inj h
          · exact .inl (calls_of_update hold rfl (by simp) hc)
          · exact .inl (calls_of_update hold rfl (by simp) hc)
      · cases h
    · cases h
  | relax n =>
    obtain ⟨old, hold, h⟩ := Option.bind_eq_some_iff.1 h
    split at h
    · obtain rfl := Option.some.inj h
      exact .inl (calls_of_update hold rfl (by simp) hc)
    · cases h
  | forget n =>
    obtain ⟨old, hold, h⟩ := Option.bind_eq_some_iff.1 h
    unfold World.forget at h
    simp only at h
    split at h
    · obtain rfl := Option.some.inj h
      refine .inl (calls_of_update hold rfl (fun x hx => ?_) hc)
      have hevent := event_nextAttempt hx
      exact hevent
    · obtain rfl := Option.some.inj h
      exact .inl (calls_of_update hold rfl (by simp) hc)
    · cases h
  | drop n =>
    obtain rfl := Option.some.inj h
    by_cases hcn : c = n
    · subst hcn
      simp [World.setCall] at hc
    · simp only [World.setCall, Function.update_of_ne hcn] at hc
      exact .inl ⟨call, hc, rfl⟩

/-- The quantity of all accepted intents of the event. -/
def World.accepted (w : World) (event : EventId) : Int := tally (fun i => i.event = event) Intent.quantity w.log

/-- Nothing moves for the event. -/
structure World.Still (event : EventId) (w w' : World) : Prop where
  available : w'.redis.available event = w.redis.available event
  zones : ∀ zone, (w.redis.zones (event, zone)).SameSeats (w'.redis.zones (event, zone))
  log : ∀ i ∈ w'.log, i.event = event → i ∈ w.log
  accepted : w'.accepted event = w.accepted event

/-- `n` seats of a zone that has free runs are sold. -/
structure World.Sells (event : EventId) (w w' : World) (zone : ZoneId) (n : Int) : Prop where
  host : ∃ field length, (w.redis.zones (event, zone)).runs.lookup field = some length
  available : w'.redis.available event = incrBy (w.redis.available event) (-n)
  counter : (w'.redis.zones (event, zone)).available = incrBy (w.redis.zones (event, zone)).available (-n)
  others : ∀ z ≠ zone, w'.redis.zones (event, z) = w.redis.zones (event, z)
  accepted : w'.accepted event = w.accepted event + n

/-- A reservation by counter is for an event without a seat map. -/
private theorem event_ne_of_reserveOk {b : ReserveArgs} (hseated : (w.db.events event).any (fun e => e.seated) = true)
    (hok : ReserveOk cfg w b) : b.event ≠ event := by
  rintro rfl
  have hun := hok.unseated
  rw [Option.any_eq_true] at hun hseated
  obtain ⟨e, he, hno⟩ := hun
  obtain ⟨e', he', hyes⟩ := hseated
  rw [he, Option.some.injEq] at he'
  rw [he', hyes] at hno
  cases hno

/-- A submission sells seats of its own event, or moves nothing. -/
private theorem intake_effect {a : IntakeAct} (hseated : (w.db.events event).any (fun e => e.seated) = true)
    (h : stepIntake cfg w a = some w') :
    World.Still event w w' ∨
      ∃ c call zone n, w.calls c = some call ∧ call.event = event ∧ World.Sells event w w' zone n := by
  rcases stepIntake_cases h with ⟨b, hok, rfl⟩ | ⟨c, call, b, hc, hok, rfl⟩ | ⟨zones, calls, hsame, -, rfl⟩
  · have hother : b.event ≠ event := event_ne_of_reserveOk hseated hok
    refine .inl ⟨Function.update_of_ne (Ne.symm hother) .., fun zone => .refl _, fun i hi he => ?_, ?_⟩
    · rcases List.mem_append.1 hi with hi | hi
      · exact hi
      · rw [List.mem_singleton.1 hi] at he
        exact absurd he hother
    · simp [World.accepted, tally_concat, ReserveArgs.intent, hother]
  · by_cases he : b.event = event
    · refine .inr ⟨c, call, b.zone, b.length, hc, hok.event ▸ he, ?_⟩
      subst he
      refine ⟨⟨_, _, hok.cut.host⟩, ?_, ?_, fun z hz => ?_, ?_⟩
      · exact Function.update_self ..
      · simp [Redis.claim, Redis.setClaim, Redis.enqueue, Redis.chargeQuota, Redis.addAvailable, Redis.setZone,
          ZoneKeys.addAvailable, ZoneKeys.cut]
      · exact Function.update_of_ne (by simpa using hz) ..
      · simp [World.accepted, tally_concat, ClaimArgs.intent]
    · have hother : b.intent.event ≠ event := he
      refine .inl ⟨Function.update_of_ne (Ne.symm he) .., fun zone => ?_, fun i hi hie => ?_, ?_⟩
      · have hz : (w.redis.claim b).zones (event, zone) = w.redis.zones (event, zone) :=
          Function.update_of_ne (by simpa using fun h => absurd h.symm he) ..
        show ZoneKeys.SameSeats _ ((w.redis.claim b).zones (event, zone))
        rw [hz]
        exact .refl _
      · rcases List.mem_append.1 hi with hi | hi
        · exact hi
        · rw [List.mem_singleton.1 hi] at hie
          exact absurd hie hother
      · simp [World.accepted, tally_concat, hother]
  · exact .inl ⟨rfl, fun zone => hsame _, fun i hi _ => hi, rfl⟩

/-- Short of the dead-letter path the consumer moves no stock and no seat in Redis. -/
private theorem consume_effect {a : SettleAct} (hu : Unrefunded w) (h : stepSettle cfg w a = some w') :
    World.Still event w w' ∧ w'.calls = w.calls ∧ w'.db.seatBlocks = w.db.seatBlocks ∧
    w'.db.events = w.db.events := by
  rcases stepSettle_cases h with ⟨n, x, id, fk, db, -, -, -, -, hdb, rfl⟩ | ⟨n, x, w₁, hx, hp, -, -⟩ |
    ⟨redis, handlers, hq, -, rfl⟩
  · obtain ⟨-, -, rfl⟩ := insertIntent_eq_some hdb
    exact ⟨⟨rfl, fun _ => .refl _, fun _ hi _ => hi, rfl⟩, rfl, rfl, rfl⟩
  · have hdoom := hu.doomed n x hx
    rw [hp] at hdoom
    cases hdoom
  · exact ⟨⟨congrFun hq.available _, fun _ => hq.zones _, fun _ hi _ => hi, rfl⟩, rfl, rfl, rfl⟩

/-- Every accepted intent of the event asks for seats, and is not persisted or has its hold. -/
structure World.Backed (event : EventId) (w : World) : Prop where
  seats : ∀ i ∈ w.log, i.event = event → i.zone.isSome = true ∧ i.seat.isSome = true
  taken : w.seatsTaken event = w.accepted event

private theorem World.Backed.accept {i : Intent} (hb : World.Backed event w) (hl : w.Linked) (ho : w.Originated)
    (hfresh : w.redis.claims i.key = none) (hi : i.event = event → i.zone.isSome = true ∧ i.seat.isSome = true)
    (hdb : w'.db = w.db) (hlog : w'.log = w.log ++ [i]) : World.Backed event w' := by
  have hkey : w.db.hasKey i.key = false := by
    simp only [Db.hasKey, List.any_eq_false, decide_eq_true_eq]
    intro o hom hk
    obtain ⟨j, hj, hs⟩ := ho.order o hom
    have hjk : j.key = i.key := hs.key.trans hk
    have hclaimed := hl.claimed j hj
    rw [hjk, hfresh] at hclaimed
    cases hclaimed
  constructor
  · intro j hj
    rw [hlog] at hj
    rcases List.mem_append.1 hj with hj | hj
    · exact hb.seats j hj
    · rw [List.mem_singleton.1 hj]
      exact hi
  · have htaken := hb.taken
    simp only [World.seatsTaken, World.accepted, hdb, hlog, tally_concat, hkey, Bool.not_false,
      Bool.and_true] at htaken ⊢
    omega

/-- The intent leaves those that are not persisted, and its hold takes its seats. -/
private theorem World.Backed.persist {n : Nat} {x : Handler} {id : OrderId} {fk : Bool} {db : Db} {p : HandlerPhase}
    (hb : World.Backed event w) (hl : w.Linked) (hx : w.handlers n = some x)
    (hdb : w.db.insertIntent x.intent id fk = some db) :
    World.Backed event { w.setHandler n (some { x with phase := p }) with db := db } := by
  refine ⟨hb.seats, ?_⟩
  obtain ⟨hacc, -, heq⟩ := insertIntent_eq_some hdb
  have hno := hasKey_of_accepts hacc
  have hun : tally (fun i => decide (i.event = event) && !db.hasKey i.key) Intent.quantity w.log =
      tally (fun i => decide (i.event = event) && !w.db.hasKey i.key) Intent.quantity w.log -
        if x.intent.event = event then x.intent.quantity else 0 := by
    rw [tally_drop (p := fun i => decide (i.event = event) && !w.db.hasKey i.key) hl.keys (hl.handled n x hx)]
    · simp [hno]
    · simp [hasKey_insertIntent hdb]
    · intro j _ hk
      simp only [hasKey_insertIntent hdb, decide_eq_false (Ne.symm hk), Bool.or_false]
  have hhold : tally (fun h => decide (h.event = event)) SeatHold.length db.seatHolds =
      tally (fun h => decide (h.event = event)) SeatHold.length w.db.seatHolds +
        if x.intent.event = event then x.intent.quantity else 0 := by
    rw [heq]
    simp only [tally_append]
    by_cases he : x.intent.event = event
    · obtain ⟨hzone, hseat⟩ := hb.seats x.intent (hl.handled n x hx) he
      obtain ⟨zone, hz⟩ := Option.isSome_iff_exists.1 hzone
      obtain ⟨seat, hs⟩ := Option.isSome_iff_exists.1 hseat
      simp [Intent.hold, hz, hs, tally_cons, he]
    · cases hh : x.intent.hold id with
      | none => simp [he]
      | some hold =>
        obtain ⟨zone, -, hmap⟩ := Option.bind_eq_some_iff.1 hh
        obtain ⟨seat, -, rfl⟩ := Option.map_eq_some_iff.1 hmap
        simp [tally_cons, he]
  have htaken := hb.taken
  simp only [World.seatsTaken] at htaken ⊢
  show tally (fun i => decide (i.event = event) && !db.hasKey i.key) Intent.quantity w.log +
    tally (fun h => decide (h.event = event)) SeatHold.length db.seatHolds = w.accepted event
  rw [hun, hhold]
  omega

end Pipeline

/-! ### What a rebuild of an untouched zone writes -/

/-- The seats of a zone. -/
def Db.zoneCapacity (db : Db) (zone : ZoneId) : Int := ((db.zoneBlocks zone).map SeatBlock.capacity).sum

private theorem sum_zoneCapacity (db : Db) {zones : List ZoneId} (hnd : zones.Nodup) :
    (zones.map db.zoneCapacity).sum = tally (fun b => b.zone ∈ zones) SeatBlock.capacity db.seatBlocks := by
  induction zones with
  | nil => exact (tally_eq_zero (by simp)).symm
  | cons zone zones ih =>
    rw [List.nodup_cons] at hnd
    rw [List.map_cons, List.sum_cons, ih hnd.2]
    refine (tally_or (fun b _ => ?_) fun b _ => ?_).symm
    · simp
    · rintro ⟨h₁, h₂⟩
      simp only [decide_eq_true_eq] at h₁ h₂
      exact hnd.1 (h₁ ▸ h₂)

private theorem sum_rebuiltRuns_nil (blocks : List SeatBlock) :
    ((rebuiltRuns blocks []).map Span.length).sum = (blocks.map SeatBlock.capacity).sum := by
  induction blocks with
  | nil => rfl
  | cons b blocks ih =>
    have hb : blockRuns [] b = [⟨b.id, 0, b.capacity⟩] := by
      simp [blockRuns, occupied, sweep, b.capacity_pos]
    rw [rebuiltRuns, List.flatMap_cons, hb, List.map_append, List.sum_append]
    rw [rebuiltRuns] at ih
    rw [ih]
    simp

namespace PublishPhase

/-- The request has written the row and holds its lock. -/
def writes : PublishPhase → Bool
  | flushed | rebuilding _ | rebuildRead .. | closing | patchFlushed => true
  | _ => false

end PublishPhase

namespace PublishWorld

variable {cfg : Settings} {m : SeatMap} {w w' : PublishWorld} {i : Nat} {phase : PublishPhase}

/-- A publication past its flush: the event is still a draft for everybody else, and its checks have passed. -/
structure Writing (m : SeatMap) (w : PublishWorld) (i : Nat) : Prop where
  lock : w.lock = some i
  status : w.row.status = .draft
  capacity : m.capacity w.world.db = m.totalSeats w.world.db

/-- The stock is set, and the zones that are not to do are full. -/
structure Stocked (m : SeatMap) (w : PublishWorld) (todo : List ZoneId) : Prop where
  available : w.world.redis.available m.event = some (m.totalSeats w.world.db)
  subset : todo ⊆ m.zones
  full : ∀ zone ∈ m.zones, zone ∉ todo →
    (w.world.redis.zones (m.event, zone)).available.getD 0 = w.world.db.zoneCapacity zone

/-- What a request may rely on. -/
def Ok (m : SeatMap) (w : PublishWorld) (i : Nat) : PublishPhase → Prop
  | .loaded row => row.version ≤ w.row.version ∧ (row.version = w.row.version → row.status = w.row.status)
  | .checked version => version ≤ w.row.version ∧ (version = w.row.version → w.row.status = .draft) ∧
      m.capacity w.world.db = m.totalSeats w.world.db
  | .flushed => Writing m w i
  | .rebuilding todo => Writing m w i ∧ Stocked m w todo
  | .rebuildRead zone blocks held todo => Writing m w i ∧ Stocked m w (zone :: todo) ∧
      blocks = w.world.db.zoneBlocks zone ∧ blocks ≠ [] ∧ held = []
  | .closing => Writing m w i ∧ Stocked m w []
  | .patchFlushed => w.lock = some i
  | _ => True

private theorem Ok.lock (h : w.Ok m i phase) (hw : phase.writes = true) : w.lock = some i := by
  cases phase with
  | flushed => exact h.lock
  | rebuilding todo => exact h.1.lock
  | rebuildRead zone blocks held todo => exact h.1.lock
  | closing => exact h.1.lock
  | patchFlushed => exact h
  | _ => cases hw

/-- What the requests rely on of the database. -/
structure SameTables (w w' : PublishWorld) : Prop where
  seatBlocks : w'.world.db.seatBlocks = w.world.db.seatBlocks
  events : w'.world.db.events = w.world.db.events

private theorem SameTables.capacity (h : SameTables w w') : m.capacity w'.world.db = m.capacity w.world.db := by
  simp only [SeatMap.capacity, h.seatBlocks]

private theorem SameTables.totalSeats (h : SameTables w w') : m.totalSeats w'.world.db = m.totalSeats w.world.db := by
  simp only [SeatMap.totalSeats, h.events]

private theorem SameTables.zoneBlocks (h : SameTables w w') (zone : ZoneId) :
    w'.world.db.zoneBlocks zone = w.world.db.zoneBlocks zone := by
  simp only [Db.zoneBlocks, h.seatBlocks]

private theorem SameTables.zoneCapacity (h : SameTables w w') (zone : ZoneId) :
    w'.world.db.zoneCapacity zone = w.world.db.zoneCapacity zone := by
  simp only [Db.zoneCapacity, h.zoneBlocks]

private theorem Stocked.keep {todo : List ZoneId} (h : Stocked m w todo) (ht : SameTables w w')
    (ha : w'.world.redis.available m.event = w.world.redis.available m.event)
    (hz : ∀ zone, (w'.world.redis.zones (m.event, zone)).available =
      (w.world.redis.zones (m.event, zone)).available) :
    Stocked m w' todo where
  available := by rw [ha, h.available, ht.totalSeats]
  subset := h.subset
  full zone hzone hdone := by rw [hz, h.full zone hzone hdone, ht.zoneCapacity]

/-- Row and own lock stay, and the counters of the event stay while it is a draft. -/
private theorem Ok.keep (h : w.Ok m i phase) (ht : SameTables w w') (hrow : w'.row = w.row)
    (hlock : w.lock = some i → w'.lock = some i)
    (hdraft : w.row.status = .draft → w'.world.redis.available m.event = w.world.redis.available m.event ∧
      ∀ zone, (w'.world.redis.zones (m.event, zone)).available = (w.world.redis.zones (m.event, zone)).available) :
    w'.Ok m i phase := by
  have hwriting : Writing m w i → Writing m w' i := fun hw =>
    ⟨hlock hw.lock, hrow ▸ hw.status, by rw [ht.capacity, ht.totalSeats]; exact hw.capacity⟩
  have hstocked : ∀ {todo : List ZoneId}, Writing m w i → Stocked m w todo → Stocked m w' todo :=
    fun hw hs => hs.keep ht (hdraft hw.status).1 (hdraft hw.status).2
  cases phase with
  | loaded row =>
    simp only [Ok, hrow]
    exact h
  | checked version =>
    simp only [Ok, hrow, ht.capacity, ht.totalSeats]
    exact h
  | flushed => exact hwriting h
  | rebuilding todo => exact ⟨hwriting h.1, hstocked h.1 h.2⟩
  | rebuildRead zone blocks held todo =>
    obtain ⟨hw, hs, hb, hrest⟩ := h
    exact ⟨hwriting hw, hstocked hw hs, hb.trans (ht.zoneBlocks zone).symm, hrest⟩
  | closing => exact ⟨hwriting h.1, hstocked h.1 h.2⟩
  | patchFlushed => exact hlock h
  | _ => trivial

/-- A request that has not written relies on the version it has read only. -/
private theorem Ok.reader (h : w.Ok m i phase) (ht : SameTables w w') (hw : phase.writes = false)
    (hrow : w'.row = w.row ∨ w'.row.version = w.row.version + 1) : w'.Ok m i phase := by
  cases phase with
  | loaded row =>
    rcases hrow with hrow | hrow
    · simp only [Ok, hrow]
      exact h
    · have hle := h.1
      refine ⟨by omega, fun heq => ?_⟩
      omega
  | checked version =>
    simp only [Ok, ht.capacity, ht.totalSeats]
    rcases hrow with hrow | hrow
    · rw [hrow]
      exact h
    · have hle := h.1
      refine ⟨by omega, fun heq => ?_, h.2.2⟩
      omega
  | flushed => cases hw
  | rebuilding todo => cases hw
  | rebuildRead zone blocks held todo => cases hw
  | closing => cases hw
  | patchFlushed => cases hw
  | _ => trivial

/-! ### The invariant -/

/-- What is true of the pipeline whether or not the event is published. -/
structure Grounded (m : SeatMap) (w : World) : Prop where
  linked : w.Linked
  originated : w.Originated
  unrefunded : Unrefunded w
  seated : (w.db.events m.event).any (fun e => e.seated) = true
  backed : World.Backed m.event w
  outside : ∀ zone, zone ∉ m.zones → ∀ field, (w.redis.zones (m.event, zone)).runs.lookup field = none

/-- A draft: nothing is sold or being sold, and Redis holds at most what publications that were rolled back
have left there. -/
structure Unsold (m : SeatMap) (w : World) : Prop where
  log : ∀ i ∈ w.log, i.event ≠ m.event
  holds : ∀ h ∈ w.db.seatHolds, h.event ≠ m.event
  calls : ∀ c call, w.calls c = some call → call.event ≠ m.event
  stock : w.redis.available m.event = none ∨ w.redis.available m.event = some (m.totalSeats w.db)
  blank : ∀ zone, w.db.zoneBlocks zone = [] → (w.redis.zones (m.event, zone)).available = none

/-- A published event: what is accepted is what the stock has lost, and the zones add up to the stock. -/
def OnSale (m : SeatMap) (w : World) : Prop :=
  ∃ available, w.redis.available m.event = some available ∧ available + w.accepted m.event = m.totalSeats w.db ∧
    available = w.zoneStock m

structure Orderly (m : SeatMap) (w : PublishWorld) : Prop where
  grounded : Grounded m w.world
  draft : w.row.status ≠ .published → Unsold m w.world
  sold : w.row.status = .published → OnSale m w.world
  ok : ∀ (i : Nat) (phase : PublishPhase), w.calls[i]? = some phase → w.Ok m i phase

section World

variable {u u' : World}

private theorem db_stepIntake {a : IntakeAct} (hstep : stepIntake cfg u a = some u') : u'.db = u.db := by
  rcases stepIntake_cases hstep with ⟨b, -, rfl⟩ | ⟨c, call, b, -, -, rfl⟩ | ⟨zones, calls, -, -, rfl⟩ <;> rfl

private theorem Grounded.intake {a : IntakeAct} (h : Grounded m u) (hstep : stepIntake cfg u a = some u') :
    Grounded m u' := by
  have hdb : u'.db = u.db := db_stepIntake hstep
  refine ⟨h.linked.step (a := .intake a) hstep, h.originated.step (a := .intake a) h.linked hstep,
    h.unrefunded.step (a := .intake a) (by simp [NoDeadLetter]) hstep, hdb ▸ h.seated, ?_, ?_⟩
  · rcases stepIntake_cases hstep with ⟨b, hok, rfl⟩ | ⟨c, call, b, -, hok, rfl⟩ | ⟨zones, calls, -, -, rfl⟩
    · exact h.backed.accept h.linked h.originated hok.fresh
        (fun he => absurd he (event_ne_of_reserveOk h.seated hok)) rfl rfl
    · exact h.backed.accept h.linked h.originated hok.fresh (fun _ => ⟨rfl, rfl⟩) rfl rfl
    · exact ⟨h.backed.seats, h.backed.taken⟩
  · intro zone hzone field
    rcases intake_effect h.seated hstep with hstill | ⟨c, call, z, n, -, -, hsell⟩
    · rw [(hstill.zones zone).runs]
      exact h.outside zone hzone field
    · have hne : zone ≠ z := by
        rintro rfl
        obtain ⟨f, l, hhost⟩ := hsell.host
        rw [h.outside zone hzone f] at hhost
        cases hhost
      rw [hsell.others zone hne]
      exact h.outside zone hzone field

private theorem Grounded.consume {a : SettleAct} (h : Grounded m u) (ha : a.deadLetters = false)
    (hstep : stepSettle cfg u a = some u') : Grounded m u' := by
  have hno : NoDeadLetter u (.settle a) := by
    intro n hn
    rw [Act.settle.inj hn] at ha
    cases ha
  have heffect : World.Still m.event u u' ∧ _ := consume_effect h.unrefunded hstep
  obtain ⟨hstill, -, -, hevents⟩ := heffect
  refine ⟨h.linked.step (a := .settle a) hstep, h.originated.step (a := .settle a) h.linked hstep,
    h.unrefunded.step hno hstep, hevents ▸ h.seated, ?_, fun zone hzone field => ?_⟩
  · rcases stepSettle_cases hstep with ⟨n, x, id, fk, db, -, hx, -, -, hdb, rfl⟩ | ⟨n, x, w₁, hx, hp, -, -⟩ |
      ⟨redis, handlers, hq, -, rfl⟩
    · exact h.backed.persist h.linked hx hdb
    · have hdoom := h.unrefunded.doomed n x hx
      rw [hp] at hdoom
      cases hdoom
    · exact ⟨h.backed.seats, h.backed.taken⟩
  · rw [(hstill.zones zone).runs]
    exact h.outside zone hzone field

/-- Only the stock and the zones of the event change. -/
private theorem Grounded.redis {redis : Redis} (h : Grounded m u) (hclaims : redis.claims = u.redis.claims)
    (hreleased : redis.released = u.redis.released) (hstream : redis.stream = u.redis.stream)
    (hzones : ∀ zone, zone ∉ m.zones → redis.zones (m.event, zone) = u.redis.zones (m.event, zone)) :
    Grounded m { u with redis := redis } where
  linked := h.linked.frame rfl rfl (fun k hk => by rw [hclaims]; exact hk) (by rw [hstream]; exact h.linked.queued)
    (fun id => by rw [hreleased]) h.linked.handled rfl
  originated := ⟨h.originated.order, h.originated.hold, fun k hk => h.originated.marker k
    (by rw [← hreleased]; exact hk)⟩
  unrefunded := ⟨fun k => by rw [hreleased]; exact h.unrefunded.released k, h.unrefunded.doomed⟩
  seated := h.seated
  backed := ⟨h.backed.seats, h.backed.taken⟩
  outside zone hzone := by
    rw [hzones zone hzone]
    exact h.outside zone hzone

private theorem Unsold.still (h : Unsold m u) (hstill : World.Still m.event u u')
    (hblocks : u'.db.seatBlocks = u.db.seatBlocks) (hevents : u'.db.events = u.db.events)
    (hholds : ∀ hold ∈ u'.db.seatHolds, hold.event ≠ m.event)
    (hcalls : ∀ c call, u'.calls c = some call → call.event ≠ m.event) : Unsold m u' where
  log i hi he := h.log i (hstill.log i hi he) he
  holds := hholds
  calls := hcalls
  stock := by
    rw [hstill.available, SeatMap.totalSeats, hevents]
    exact h.stock
  blank zone hz := by
    rw [(hstill.zones zone).available]
    exact h.blank zone (by rwa [Db.zoneBlocks, ← hblocks])

/-- While the event is a draft, the submissions are for others. -/
private theorem Unsold.intake {a : IntakeAct} (h : Unsold m u) (hg : Grounded m u) (ha : a.begins ≠ some m.event)
    (hstep : stepIntake cfg u a = some u') : World.Still m.event u u' ∧ Unsold m u' := by
  have hstill : World.Still m.event u u' := by
    rcases intake_effect hg.seated hstep with hstill | ⟨c, call, z, n, hc, he, -⟩
    · exact hstill
    · exact absurd he (h.calls c call hc)
  have hdb : u'.db = u.db := db_stepIntake hstep
  refine ⟨hstill, h.still hstill (by rw [hdb]) (by rw [hdb]) (by rw [hdb]; exact h.holds) fun c call hc he => ?_⟩
  rcases calls_stepIntake hstep hc with ⟨call₀, hc₀, he₀⟩ | hbegins
  · exact h.calls c call₀ hc₀ (he₀.symm.trans he)
  · exact ha (he ▸ hbegins)

private theorem Unsold.consume {a : SettleAct} (h : Unsold m u) (hg : Grounded m u)
    (hstep : stepSettle cfg u a = some u') :
    Unsold m u' := by
  have heffect : World.Still m.event u u' ∧ _ := consume_effect hg.unrefunded hstep
  obtain ⟨hstill, hcalls, hblocks, hevents⟩ := heffect
  refine h.still hstill hblocks hevents (fun hold hh => ?_) (by rw [hcalls]; exact h.calls)
  rcases stepSettle_cases hstep with ⟨n, x, id, fk, db, -, hx, -, -, hdb, rfl⟩ | ⟨n, x, w₁, hx, hp, -, -⟩ |
    ⟨redis, handlers, hq, -, rfl⟩
  · obtain ⟨-, -, rfl⟩ := insertIntent_eq_some hdb
    rcases List.mem_append.1 hh with hh | hh
    · exact h.holds hold hh
    · -- the new hold is for the event of its intent
      obtain ⟨zone, -, hmap⟩ := Option.bind_eq_some_iff.1 (Option.mem_toList.1 hh)
      obtain ⟨seat, -, rfl⟩ := Option.map_eq_some_iff.1 hmap
      exact h.log x.intent (hg.linked.handled n x hx)
  · have hdoom := hg.unrefunded.doomed n x hx
    rw [hp] at hdoom
    cases hdoom
  · exact h.holds hold hh

private theorem zoneStock_still (hstill : World.Still m.event u u') : u'.zoneStock m = u.zoneStock m := by
  unfold World.zoneStock
  congr 1
  refine List.map_congr_left fun zone _ => ?_
  rw [(hstill.zones zone).available]

private theorem OnSale.still (h : OnSale m u) (hstill : World.Still m.event u u')
    (hevents : u'.db.events = u.db.events) :
    OnSale m u' := by
  obtain ⟨available, ha, htotal, hzones⟩ := h
  refine ⟨available, hstill.available.trans ha, ?_, ?_⟩
  · rw [hstill.accepted, SeatMap.totalSeats, hevents]
    exact htotal
  · rw [zoneStock_still hstill]
    exact hzones

/-- The sum over the zones moves with the one zone that does. -/
private theorem sum_map_move {zones : List ZoneId} {f g : ZoneId → Int} {zone : ZoneId} {n : Int} (hnd : zones.Nodup)
    (hmem : zone ∈ zones) (hzone : g zone = f zone - n) (hothers : ∀ z ≠ zone, g z = f z) :
    (zones.map g).sum = (zones.map f).sum - n := by
  induction zones with
  | nil => cases hmem
  | cons z zones ih =>
    rw [List.nodup_cons] at hnd
    simp only [List.map_cons, List.sum_cons]
    rcases List.mem_cons.1 hmem with rfl | hmem
    · have hrest : zones.map g = zones.map f :=
        List.map_congr_left fun z hz => hothers z fun he => hnd.1 (he ▸ hz)
      rw [hzone, hrest]
      omega
    · rw [hothers z fun he => hnd.1 (he ▸ hmem), ih hnd.2 hmem]
      omega

private theorem OnSale.intake {a : IntakeAct} (h : OnSale m u) (hg : Grounded m u)
    (hstep : stepIntake cfg u a = some u') :
    OnSale m u' := by
  have hdb : u'.db = u.db := db_stepIntake hstep
  rcases intake_effect hg.seated hstep with hstill | ⟨c, call, zone, n, -, -, hsell⟩
  · exact h.still hstill (by rw [hdb])
  · obtain ⟨available, ha, htotal, hzones⟩ := h
    have hmem : zone ∈ m.zones := by
      by_contra hout
      obtain ⟨f, l, hhost⟩ := hsell.host
      rw [hg.outside zone hout f] at hhost
      cases hhost
    refine ⟨available - n, ?_, ?_, ?_⟩
    · rw [hsell.available, ha]
      simp [incrBy, Int.sub_eq_add_neg]
    · rw [hsell.accepted, hdb]
      omega
    · have hstock : u'.zoneStock m = u.zoneStock m - n := by
        refine sum_map_move m.nodup hmem ?_ fun z hz => ?_
        · rw [hsell.counter]
          simp [incrBy, Int.sub_eq_add_neg]
        · rw [hsell.others z hz]
      omega

end World

/-! ### One step -/

/-- The call `j` after a step that sets the call `i`. -/
private theorem getElem?_set_cases {calls : List PublishPhase} {next : PublishPhase} {j : Nat} {p : PublishPhase}
    (h : (calls.set i next)[j]? = some p) : (j = i ∧ p = next) ∨ (j ≠ i ∧ calls[j]? = some p) := by
  by_cases hij : j = i
  · subst hij
    rw [List.getElem?_set] at h
    split at h
    · split at h
      · exact .inl ⟨rfl, (Option.some.inj h).symm⟩
      · cases h
    · cases ‹¬j = j› rfl
  · rw [List.getElem?_set_ne (Ne.symm hij)] at h
    exact .inr ⟨hij, h⟩

/-- A request goes on without a change to the row, to Redis or to the database. -/
private theorem Orderly.move {next : PublishPhase} (h : Orderly m w) (hnext : w.Ok m i next) :
    Orderly m (w.setCall i next) := by
  refine ⟨h.grounded, h.draft, h.sold, fun j p hj => ?_⟩
  have htables : SameTables w (w.setCall i next) := ⟨rfl, rfl⟩
  rcases getElem?_set_cases hj with ⟨rfl, rfl⟩ | ⟨-, hold⟩
  · exact hnext.keep htables rfl id fun _ => ⟨rfl, fun _ => rfl⟩
  · exact (h.ok j p hold).keep htables rfl id fun _ => ⟨rfl, fun _ => rfl⟩

private theorem Orderly.abort (h : Orderly m w) : Orderly m (w.abort i) := by
  refine ⟨h.grounded, h.draft, h.sold, fun j p hj => ?_⟩
  rcases getElem?_set_cases hj with ⟨rfl, rfl⟩ | ⟨hne, hold⟩
  · trivial
  · refine (h.ok j p hold).keep ⟨rfl, rfl⟩ rfl (fun hlock => ?_) fun _ => ⟨rfl, fun _ => rfl⟩
    have hother : ¬some j = some i := by simpa using hne
    simp only [PublishWorld.abort, hlock, if_neg hother]

/-- A request that is not the holder of the lock has not written. -/
private theorem Orderly.writes_eq_false {j : Nat} {p : PublishPhase} (h : Orderly m w) (hj : w.calls[j]? = some p)
    (hlock : w.lock ≠ some j) : p.writes = false := by
  by_contra hw
  exact hlock ((h.ok j p hj).lock (by simpa using hw))

private theorem Orderly.flush {version : Nat} {next : PublishPhase} (h : Orderly m w)
    (hnext : w.row.version = version → w.lock = none → { w.setCall i next with lock := some i }.Ok m i next)
    (hw : w.flush i version next = some w') : Orderly m w' := by
  unfold PublishWorld.flush at hw
  split at hw
  · obtain rfl := Option.some.inj hw
    exact h.abort
  case isFalse hversion =>
    split at hw
    case isFalse => cases hw
    case isTrue hlock =>
      obtain rfl := Option.some.inj hw
      refine ⟨h.grounded, h.draft, h.sold, fun j p hj => ?_⟩
      rcases getElem?_set_cases hj with ⟨rfl, rfl⟩ | ⟨-, hold⟩
      · exact hnext (not_not.1 hversion) hlock
      · exact (h.ok j p hold).reader ⟨rfl, rfl⟩ (h.writes_eq_false hold (by simp [hlock])) (.inl rfl)

/-- The holder of the lock commits. -/
private theorem Orderly.commit {status : EventStatus} (h : Orderly m w) (hlock : w.lock = some i)
    (hdraft : status ≠ .published → Unsold m w.world) (hsold : status = .published → OnSale m w.world) :
    Orderly m (w.commit i status) := by
  refine ⟨h.grounded, hdraft, hsold, fun j p hj => ?_⟩
  rcases getElem?_set_cases hj with ⟨rfl, rfl⟩ | ⟨hne, hold⟩
  · trivial
  · have hother : w.lock ≠ some j := by simpa [hlock] using Ne.symm hne
    exact (h.ok j p hold).reader ⟨rfl, rfl⟩ (h.writes_eq_false hold hother) (.inr rfl)

/-- A publication past its flush writes to Redis. -/
private theorem Orderly.write {redis : Redis} {next : PublishPhase} (h : Orderly m w) (hwriting : Writing m w i)
    (hg : Grounded m { w.world with redis := redis }) (hu : Unsold m { w.world with redis := redis })
    (hnext : { w.setCall i next with world := { w.world with redis := redis } }.Ok m i next) :
    Orderly m { w.setCall i next with world := { w.world with redis := redis } } := by
  refine ⟨hg, fun _ => hu, fun hpub => ?_, fun j p hj => ?_⟩
  · cases hwriting.status.symm.trans hpub
  · rcases getElem?_set_cases hj with ⟨rfl, rfl⟩ | ⟨hne, hold⟩
    · exact hnext
    · have hother : w.lock ≠ some j := by simpa [hwriting.lock] using Ne.symm hne
      exact (h.ok j p hold).reader ⟨rfl, rfl⟩ (h.writes_eq_false hold hother) (.inl rfl)

private theorem Orderly.unsold (h : Orderly m w) (hwriting : Writing m w i) : Unsold m w.world :=
  h.draft (by simp [hwriting.status])

private theorem Orderly.setStock (h : Orderly m w) (hwriting : Writing m w i) :
    Orderly m { w.setCall i (.rebuilding m.zones) with world := { w.world with redis := w.setInitialStock m } } := by
  have hu := h.unsold hwriting
  have hstock : (w.setInitialStock m).available m.event = some (m.totalSeats w.world.db) := by
    simp only [setInitialStock, Function.update_self]
    rcases hu.stock with hnone | hsome
    · rw [hnone, Option.none_or]
    · rw [hsome, Option.some_or]
  refine h.write hwriting (h.grounded.redis rfl rfl rfl fun _ _ => rfl)
    ⟨hu.log, hu.holds, hu.calls, .inr hstock, hu.blank⟩ ?_
  refine ⟨⟨hwriting.lock, hwriting.status, hwriting.capacity⟩, hstock, List.Subset.refl _, fun zone hzone hnot => ?_⟩
  exact absurd hzone hnot

private theorem Orderly.writeZone {zone : ZoneId} {blocks : List SeatBlock} {todo : List ZoneId} (h : Orderly m w)
    (hwriting : Writing m w i) (hs : Stocked m w (zone :: todo)) (hb : blocks = w.world.db.zoneBlocks zone)
    (hne : blocks ≠ []) :
    Orderly m { w.setCall i (.rebuilding todo) with world := { w.world with
      redis := w.world.redis.setZone m.event zone ((w.world.redis.zones (m.event, zone)).rebuilt blocks []) } } := by
  have hu := h.unsold hwriting
  have hother : ∀ z, z ≠ zone → (w.world.redis.setZone m.event zone
      ((w.world.redis.zones (m.event, zone)).rebuilt blocks [])).zones (m.event, z) = w.world.redis.zones
        (m.event, z) :=
    fun z hz => Function.update_of_ne (by simpa using hz) ..
  have hmem : zone ∈ m.zones := hs.subset List.mem_cons_self
  refine h.write hwriting (h.grounded.redis rfl rfl rfl fun z hz => hother z fun he => hz (he ▸ hmem))
    ⟨hu.log, hu.holds, hu.calls, hu.stock, fun z hz => ?_⟩ ?_
  · -- a zone without blocks is never written
    rw [hother z fun he => hne (hb.trans (he ▸ hz))]
    exact hu.blank z hz
  · refine ⟨⟨hwriting.lock, hwriting.status, hwriting.capacity⟩, hs.available,
      fun z hz => hs.subset (List.mem_cons_of_mem _ hz), fun z hz hdone => ?_⟩
    by_cases hzz : z = zone
    · subst hzz
      simp only [Redis.setZone, Function.update_self, ZoneKeys.rebuilt, Option.getD_some, sum_rebuiltRuns_nil, hb]
      rfl
    · rw [hother z hzz]
      exact hs.full z hz (by simp [hzz, hdone])

private theorem Orderly.advance (h : Orderly m w) (hi : w.calls[i]? = some phase)
    (hw : w.advance m i phase = some w') :
    Orderly m w' := by
  have hok := h.ok i phase hi
  cases phase with
  | requested =>
    obtain rfl := Option.some.inj hw
    exact h.move ⟨le_rfl, fun _ => rfl⟩
  | loaded row =>
    simp only [PublishWorld.advance] at hw
    split at hw
    case isFalse =>
      obtain rfl := Option.some.inj hw
      exact h.abort
    case isTrue hmay =>
      obtain rfl := Option.some.inj hw
      simp only [SeatMap.mayPublish, Bool.and_eq_true, decide_eq_true_eq] at hmay
      exact h.move ⟨hok.1, fun heq => (hok.2 heq).symm.trans hmay.1.1, hmay.1.2⟩
  | checked version =>
    refine h.flush (fun hv _ => ?_) hw
    exact ⟨rfl, hok.2.1 hv.symm, hok.2.2⟩
  | flushed =>
    obtain rfl := Option.some.inj hw
    exact h.setStock hok
  | rebuilding todo =>
    cases todo with
    | nil =>
      obtain rfl := Option.some.inj hw
      exact h.move hok
    | cons zone todo =>
      have hu := h.unsold hok.1
      simp only [PublishWorld.advance] at hw
      split at hw <;> obtain rfl := Option.some.inj hw
      case isTrue hempty =>
        rw [List.isEmpty_iff] at hempty
        refine h.move ⟨hok.1, hok.2.available, fun z hz => hok.2.subset (List.mem_cons_of_mem _ hz),
          fun z hz hdone => ?_⟩
        by_cases hzz : z = zone
        · subst hzz
          simp [hu.blank z hempty, Db.zoneCapacity, hempty]
        · exact hok.2.full z hz (by simp [hzz, hdone])
      case isFalse hempty =>
        refine h.move ⟨hok.1, hok.2, rfl, by simpa using hempty, ?_⟩
        rw [Db.heldOn, List.filter_eq_nil_iff]
        intro hold hh
        simp [hu.holds hold hh]
  | rebuildRead zone blocks held todo =>
    obtain ⟨hwriting, hs, hb, hne, rfl⟩ := hok
    obtain rfl := Option.some.inj hw
    exact h.writeZone hwriting hs hb hne
  | closing =>
    obtain rfl := Option.some.inj hw
    obtain ⟨hwriting, hs⟩ := hok
    refine h.commit hwriting.lock (fun hne => absurd rfl hne) fun _ => ?_
    have hu := h.unsold hwriting
    have hzero : w.world.accepted m.event = 0 := tally_eq_zero fun i hi => by simpa using hu.log i hi
    refine ⟨_, hs.available, by omega, ?_⟩
    have hsum : w.world.zoneStock m = (m.zones.map w.world.db.zoneCapacity).sum := by
      unfold World.zoneStock
      congr 1
      exact List.map_congr_left fun z hz => hs.full z hz List.not_mem_nil
    rw [hsum, sum_zoneCapacity w.world.db m.nodup]
    exact hwriting.capacity.symm
  | patching =>
    obtain rfl := Option.some.inj hw
    exact h.move trivial
  | patchLoaded version =>
    refine h.flush (fun _ _ => ?_) hw
    rfl
  | patchFlushed =>
    obtain rfl := Option.some.inj hw
    exact h.commit hok h.draft h.sold
  | ended => cases hw

private theorem Orderly.submit {a : IntakeAct} {u : World} (h : Orderly m w)
    (ha : ¬(a.begins = some m.event ∧ w.row.status ≠ .published)) (hstep : stepIntake cfg w.world a = some u) :
    Orderly m { w with world := u } := by
  have hdb : u.db = w.world.db := db_stepIntake hstep
  by_cases hpub : w.row.status = .published
  · refine ⟨h.grounded.intake hstep, fun hne => absurd hpub hne, fun _ =>
      (h.sold hpub).intake h.grounded hstep, fun j p hj => ?_⟩
    refine (h.ok j p hj).keep ⟨by rw [hdb], by rw [hdb]⟩ rfl id fun hdraft => ?_
    cases hpub.symm.trans hdraft
  · have hu := (h.draft hpub).intake h.grounded (fun he => ha ⟨he, hpub⟩) hstep
    refine ⟨h.grounded.intake hstep, fun _ => hu.2, fun hp => absurd hp hpub, fun j p hj => ?_⟩
    exact (h.ok j p hj).keep ⟨by rw [hdb], by rw [hdb]⟩ rfl id fun _ =>
      ⟨hu.1.available, fun zone => (hu.1.zones zone).available⟩

private theorem Orderly.consume {a : SettleAct} {u : World} (h : Orderly m w) (ha : a.deadLetters = false)
    (hstep : stepSettle cfg w.world a = some u) : Orderly m { w with world := u } := by
  have heffect : World.Still m.event w.world u ∧ _ := consume_effect h.grounded.unrefunded hstep
  obtain ⟨hstill, -, hblocks, hevents⟩ := heffect
  refine ⟨h.grounded.consume ha hstep, fun hne => (h.draft hne).consume h.grounded hstep,
    fun hpub => (h.sold hpub).still hstill hevents, fun j p hj => ?_⟩
  exact (h.ok j p hj).keep ⟨hblocks, hevents⟩ rfl id fun _ =>
    ⟨hstill.available, fun zone => (hstill.zones zone).available⟩

private theorem Orderly.begin (h : Orderly m w) {next : PublishPhase} (hnext : w.Ok m w.calls.length next) :
    Orderly m { w with calls := w.calls ++ [next] } := by
  refine ⟨h.grounded, h.draft, h.sold, fun j p hj => ?_⟩
  rw [List.getElem?_append] at hj
  split at hj
  · exact (h.ok j p hj).keep ⟨rfl, rfl⟩ rfl id fun _ => ⟨rfl, fun _ => rfl⟩
  case isFalse hlen =>
    rw [List.getElem?_singleton] at hj
    split at hj
    case isTrue hz =>
      obtain rfl := Option.some.inj hj
      have hjl : j = w.calls.length := by omega
      rw [hjl]
      exact hnext.keep ⟨rfl, rfl⟩ rfl id fun _ => ⟨rfl, fun _ => rfl⟩
    case isFalse => cases hj

/-- Every step keeps the order. -/
theorem orderly_step {a : PublishAct} (hw : step cfg m w a = some w') (h : Orderly m w) : Orderly m w' := by
  cases a with
  | publish =>
    obtain rfl := Option.some.inj hw
    exact h.begin trivial
  | patch =>
    obtain rfl := Option.some.inj hw
    exact h.begin trivial
  | advance i =>
    obtain ⟨phase, hi, hadv⟩ := Option.bind_eq_some_iff.1 hw
    exact h.advance hi hadv
  | rollback i =>
    obtain ⟨phase, -, rfl⟩ := Option.map_eq_some_iff.1 hw
    exact h.abort
  | submit a =>
    simp only [step] at hw
    split at hw
    case isTrue => cases hw
    case isFalse hmay =>
      obtain ⟨u, hu, rfl⟩ := Option.map_eq_some_iff.1 hw
      exact h.submit hmay hu
  | consume a =>
    simp only [step] at hw
    split at hw
    case isTrue => cases hw
    case isFalse hno =>
      obtain ⟨u, hu, rfl⟩ := Option.map_eq_some_iff.1 hw
      exact h.consume (by simpa using hno) hu

private theorem orderly_start (h : Drafted m w) : Orderly m w where
  grounded :=
    { linked := .start h.start h.unsold.linked
      originated := .start h.start h.unsold
      unrefunded := ⟨fun _ => h.start.released _, fun n x hx => by rw [h.start.handlers n] at hx; cases hx⟩
      seated := h.seated
      backed := ⟨by simp [h.start.log], by simp [World.seatsTaken, World.accepted, h.start.log, h.unsold.seatHolds]⟩
      outside := fun zone _ field => by rw [h.zones zone]; rfl }
  draft _ :=
    { log := by simp [h.start.log]
      holds := by simp [h.unsold.seatHolds]
      calls := fun c call hc => by rw [h.start.calls c] at hc; cases hc
      stock := .inl h.available
      blank := fun zone _ => by rw [h.zones zone] }
  sold hpub := by cases h.status.symm.trans hpub
  ok i phase hi := by simp [h.calls] at hi

/-! ### Every run -/

/-- In every run, whenever a forced rebuild writes, the event has no intent and no hold and the rebuild has
seen none; and once a publication has committed, the stock and the seats taken add up to the event and the
zones to the stock. -/
theorem publish_keeps_seats {cfg : Settings} {m : SeatMap} {w₀ w : PublishWorld} {acts : List PublishAct}
    (hdraft : Drafted m w₀) (h : exec (step cfg m) w₀ acts = some w) :
    (∀ (i : Nat) zone blocks held todo, w.calls[i]? = some (.rebuildRead zone blocks held todo) →
      w.world.Untouched m.event ∧ held = []) ∧
    (w.row.status = .published → w.world.Balanced m) := by
  have hinv : Orderly m w := exec_invariant (C := fun _ _ => True) (fun _ _ _ _ hs hI => orderly_step hs hI)
    (orderly_start hdraft) (.of_forall fun _ _ _ => trivial) h
  refine ⟨fun i zone blocks held todo hi => ?_, fun hpub => ?_⟩
  · obtain ⟨hwriting, -, -, -, hheld⟩ := hinv.ok i _ hi
    have hu := hinv.unsold hwriting
    exact ⟨⟨hu.log, fun e he => hu.log _ (hinv.grounded.linked.queued e he), hu.holds⟩, hheld⟩
  · obtain ⟨available, ha, htotal, hzones⟩ := hinv.sold hpub
    refine ⟨⟨available, ha, ?_⟩, by rw [ha, hzones]⟩
    rw [hinv.grounded.backed.taken]
    exact htotal

/-- Five seats in one zone of event 1, which is still a draft. -/
private def hall : SeatMap where
  event := 1
  zones := [1]
  nodup := by decide
  priced := [1]

private def hallBlock : SeatBlock where
  id := 1
  zone := 1
  capacity := 5
  capacity_pos := by decide
  quality_range := SeatBlock.default_quality_range

private def hallDraft : PublishWorld where
  world :=
    { redis :=
        { available := fun _ => none
          purchased := fun _ => ∅
          claims := fun _ => none
          released := fun _ => false
          zones := fun _ => {}
          stream := []
          lastId := 0
          dead := [] }
      db :=
        { orders := []
          seatHolds := []
          outbox := []
          seatBlocks := [hallBlock]
          events := fun _ => some ⟨5, true⟩ } }
  row := ⟨.draft, 1⟩

private theorem hallDraft_drafted : Drafted hall hallDraft := by
  refine ⟨?_, ⟨rfl, rfl, rfl⟩, rfl, rfl, rfl, rfl, rfl, fun _ => rfl⟩
  constructor <;> intros <;> rfl

/-- A publication and its first `n` steps. -/
private def published (i n : Nat) : List PublishAct := .publish :: List.replicate n (.advance i)

private def soldTwo : List PublishAct := [.submit (.call 0 1 1 1 2 100 1), .submit (.read 0), .submit (.claim 0 0)]

/-- A publication is rolled back after it has set the stock, a second one commits, and two seats are sold. -/
private def republished : List PublishAct := published 0 4 ++ .rollback 0 :: published 1 8 ++ soldTwo

theorem publish_keeps_seats_after_rollback :
    ∃ w, exec (step {} hall) hallDraft republished = some w ∧
      (w.world.redis.available 1 = some 3 ∧ w.row = ⟨.published, 2⟩) ∧ w.world.Balanced hall := by
  obtain ⟨w, hw, hp⟩ := exec_any (step {} hall) hallDraft republished
    (fun w => w.world.redis.available 1 = some 3 ∧ w.row = ⟨.published, 2⟩) (by decide +kernel)
  rw [decide_eq_true_eq] at hp
  exact ⟨w, hw, hp, (publish_keeps_seats hallDraft_drafted hw).2 (by rw [hp.2])⟩

end PublishWorld

end Ticketing
