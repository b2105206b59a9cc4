import Ticketing.SeatBalance

/-!
# The drift detectors beside the pipeline

`detect_inventory_drift` and `detect_seat_structure_drift` of `app/worker.py` as processes that read the
backlog, the database and Redis in separate steps, with the order pipeline running in between.  Both read the
backlog once, before everything else, and take an empty backlog for the rest of the pass.  A reservation
accepted after that read, or a terminal order whose release has not run, makes two healthy stores disagree,
and the detector raises an alarm.

Without that the detectors are right: when nothing of the event is in flight at the database read and no
ticket of the event moves before the matching Redis read, they report nothing
(`Watched.no_alarm_when_undisturbed`).
-/

namespace Ticketing

open Exec Tally

/-- What the detectors report about an event. -/
inductive Alarm where
  /-- The stock key is missing. -/
  | lost (event : EventId) (expected : Int)
  | inventory (event : EventId) (expected actual : Int)
  /-- The users whose quotas disagree. -/
  | quota (event : EventId) (users : List UserId)
  | seats (event : EventId) (drifts : List Drift)
deriving DecidableEq

def Alarm.event : Alarm → EventId
  | lost e _ | inventory e _ _ | quota e _ | seats e _ => e

/-! ### The two detectors -/

/-- `compute_expected_available`; `none` is `EventNotFound`. -/
def Db.computeExpectedAvailable (db : Db) (event : EventId) : Option Int :=
  (db.events event).map fun e => e.totalSeats - db.sold event

/-- The comparison of the stock. -/
def compareStock (event : EventId) (expected : Int) (actual : Option Int) : List Alarm :=
  actual.elim [.lost event expected] fun n => if expected = n then [] else [.inventory event expected n]

/-- The users in one of the two hashes whose values differ, a missing value counting as 0. -/
def mismatched (expected actual : Hash UserId Int) : List UserId :=
  (expected.keys ∪ actual.keys).filter fun u => (actual.lookup u).getD 0 ≠ (expected.lookup u).getD 0

def compareQuotas (event : EventId) (expected actual : Hash UserId Int) : List Alarm :=
  if mismatched expected actual = [] then [] else [.quota event (mismatched expected actual)]

/-- The point a pass of `detect_inventory_drift` has reached, with the events still to check. -/
inductive InventoryPhase where
  | idle
  | drained (todo : List EventId)
  | summed (event : EventId) (expected : Int) (todo : List EventId)
  | compared (event : EventId) (todo : List EventId)
  | quotasRead (event : EventId) (expected : Hash UserId Int) (todo : List EventId)

/-- The point a pass of `detect_seat_structure_drift` has reached. -/
inductive SeatPhase where
  | idle
  | counted (backlog : Nat) (todo : List EventId)
  | loaded (event : EventId) (backlog : Nat) (blocks : List SeatBlock) (held : List SeatHold) (todo : List EventId)

/-- The pipeline with one pass of each detector. -/
structure Watched where
  world : World
  inventory : InventoryPhase := .idle
  seats : SeatPhase := .idle
  alarms : List Alarm := []

inductive WatchAct where
  /-- A step of the pipeline. -/
  | run (a : Act)
  /-- The backlog is read, and the published events are selected when it is empty. -/
  | depth (events : List EventId)
  | sum
  | counter
  /-- The quotas of the event are not audited in this pass. -/
  | skip
  | quotas
  | held
  | leave
  /-- The backlog is read and the published events with a seat map are selected. -/
  | seatDepth (events : List EventId)
  /-- The short session: blocks, zones and holds. -/
  | seatLoad
  /-- The pipeline of reads in Redis, and the checks. -/
  | seatSnapshot
  | seatLeave
deriving DecidableEq

namespace Watched

/-- A step of the inventory detector. -/
def stepInventory (s : Watched) : WatchAct → Option Watched
  | .depth events =>
    match s.inventory with
    | .idle => some { s with inventory := if s.world.redis.queueDepth.1 = 0 then .drained events else .idle }
    | _ => none
  | .sum =>
    match s.inventory with
    | .drained (event :: todo) =>
      -- `EventNotFound` ends the pass
      some { s with
        inventory := (s.world.db.computeExpectedAvailable event).elim .idle fun n => .summed event n todo }
    | _ => none
  | .counter =>
    match s.inventory with
    | .summed event expected todo =>
      some { s with
        inventory := .compared event todo
        alarms := s.alarms ++ compareStock event expected (s.world.redis.available event) }
    | _ => none
  | .skip =>
    match s.inventory with
    | .compared _ todo => some { s with inventory := .drained todo }
    | _ => none
  | .quotas =>
    match s.inventory with
    | .compared event todo => some { s with inventory := .quotasRead event (s.world.db.soldByUser event) todo }
    | _ => none
  | .held =>
    match s.inventory with
    | .quotasRead event expected todo =>
      some { s with
        inventory := .drained todo
        alarms := s.alarms ++ compareQuotas event expected (s.world.redis.purchased event) }
    | _ => none
  | .leave => some { s with inventory := .idle }
  | _ => none

/-- A step of the seat structure detector; `venue` gives the zones of the venue of an event. -/
def stepSeats (venue : EventId → List ZoneId) (s : Watched) : WatchAct → Option Watched
  | .seatDepth events =>
    match s.seats with
    | .idle =>
      if events.all fun e => (s.world.db.events e).any fun row => row.seated then
        some { s with seats := .counted s.world.redis.queueDepth.1 events }
      else none
    | _ => none
  | .seatLoad =>
    match s.seats with
    | .counted backlog (event :: todo) =>
      let blocks := s.world.db.seatBlocks.filter fun b => b.zone ∈ venue event
      some { s with seats := .loaded event backlog blocks (s.world.db.eventHolds event) todo }
    | _ => none
  | .seatSnapshot =>
    match s.seats with
    | .loaded event backlog blocks held todo =>
      let texts := fun zone => (s.world.redis.zones (event, zone)).raw
      let found := detectSeatStructureDrift backlog event (venue event) blocks held texts
        ((s.world.redis.available event).map Int.repr)
      -- a text that is no number ends the pass
      some (found.elim { s with seats := .idle } fun drifts =>
        { s with
          seats := .counted backlog todo
          alarms := s.alarms ++ if drifts = [] then [] else [.seats event drifts] })
    | _ => none
  | .seatLeave => some { s with seats := .idle }
  | _ => none

def step (cfg : Settings) (venue : EventId → List ZoneId) (s : Watched) : WatchAct → Option Watched
  | .run a => (Ticketing.step cfg s.world a).map fun world => { s with world }
  | .seatDepth events => s.stepSeats venue (.seatDepth events)
  | .seatLoad => s.stepSeats venue .seatLoad
  | .seatSnapshot => s.stepSeats venue .seatSnapshot
  | .seatLeave => s.stepSeats venue .seatLeave
  | a => s.stepInventory a

/-! ### Healthy and undisturbed runs -/

/-- No update is lost or corrupted: no intent is committed after its refund, nothing rewrites the counters or
the runs from the database, and no key is lost. -/
def Healthy (s : Watched) : WatchAct → Prop
  | .run a => CommitSafe s.world a ∧ NoReconcile s.world a ∧ NoRebuild s.world a
  | _ => True

end Watched

namespace World

/-- Every accepted intent of the event is persisted or refunded. -/
def Drained (w : World) (event : EventId) : Prop := ∀ i ∈ w.log, i.event = event → w.unsettled i = false

/-- Every expired or cancelled order of the event is released. -/
def AllReleased (w : World) (event : EventId) : Prop :=
  ∀ o ∈ w.db.orders, o.event = event → o.status.held = false → w.redis.released (.order o.id) = true

/-- Every expired or cancelled order of the event that is not released has its hold row. -/
def HoldsKept (w : World) (event : EventId) : Prop :=
  ∀ o ∈ w.db.orders, o.event = event → o.status.held = false → w.redis.released (.order o.id) = false →
    ∃ h ∈ w.db.seatHolds, h.order = o.id

/-- The step neither takes nor returns a ticket of the event. -/
def Steady (cfg : Settings) (event : EventId) (w : World) (a : Act) : Prop :=
  ∀ w', step cfg w a = some w' → w'.redis.available event = w.redis.available event

end World

namespace Watched

/-- A detector has read the database for the event and not yet Redis. -/
def Comparing (s : Watched) (event : EventId) : Prop :=
  (∃ expected todo, s.inventory = .summed event expected todo) ∨
    (∃ expected todo, s.inventory = .quotasRead event expected todo) ∨
    ∃ blocks held todo, s.seats = .loaded event 0 blocks held todo

/-- The steps that keep a detector from comparing two moments of the event, or a moment with something in flight. -/
def Undisturbed (cfg : Settings) (event : EventId) (s : Watched) : WatchAct → Prop
  | .run a => s.Comparing event → s.world.Steady cfg event a
  | .sum => (∃ todo, s.inventory = .drained (event :: todo)) → s.world.Drained event ∧ s.world.AllReleased event
  | .quotas => (∃ todo, s.inventory = .compared event todo) → s.world.Drained event ∧ s.world.AllReleased event
  | .seatLoad => (∃ todo, s.seats = .counted 0 (event :: todo)) → s.world.Drained event ∧ s.world.HoldsKept event
  | _ => True

end Watched

/-! ### The comparisons -/

theorem compareStock_eq_nil (event : EventId) (expected : Int) : compareStock event expected
    (some expected) = [] := by
  simp [compareStock]

theorem compareQuotas_eq_nil {event : EventId} {expected actual : Hash UserId Int}
    (h : ∀ u, (actual.lookup u).getD 0 = (expected.lookup u).getD 0) : compareQuotas event expected actual = [] := by
  have hnone : mismatched expected actual = [] := List.filter_eq_nil_iff.2 fun u _ => by simp [h u]
  rw [compareQuotas, if_pos hnone]

theorem event_of_mem_compareStock {event : EventId} {expected : Int} {actual : Option Int} {a : Alarm}
    (h : a ∈ compareStock event expected actual) : a.event = event := by
  cases actual with
  | none => rw [List.mem_singleton.1 h]; rfl
  | some n =>
    rw [compareStock, Option.elim_some] at h
    split at h
    · cases h
    · rw [List.mem_singleton.1 h]; rfl

theorem event_of_mem_compareQuotas {event : EventId} {expected actual : Hash UserId Int} {a : Alarm}
    (h : a ∈ compareQuotas event expected actual) : a.event = event := by
  rw [compareQuotas] at h
  split at h
  · cases h
  · rw [List.mem_singleton.1 h]; rfl

/-! ### Sound stores -/

/-- The stores of an event, with a seat map or without, on which no update was lost. -/
structure Sound (event : EventId) (zones : List ZoneId) (row : EventRow) (w : World) : Prop where
  balanced : Balanced event row.totalSeats w
  stored : w.db.events event = some row
  seated : row.seated = true → SeatBalance event zones row.totalSeats w

namespace Sound

variable {cfg : Settings} {event : EventId} {zones : List ZoneId} {row : EventRow} {w w' : World}

theorem step {a : Act} (hi : Sound event zones row w) (hC : CommitSafe w a) (hq : NoReconcile w a)
    (hno : NoRebuild w a) (h : Ticketing.step cfg w a = some w') : Sound event zones row w' where
  balanced := hi.balanced.step hC hq h
  stored := by rw [(tablesKept_step h).events, hi.stored]
  seated hseated := (hi.seated hseated).step hC hq hno h

/-- With nothing in flight the database owes what Redis has taken. -/
theorem owed_eq_heldSum (hdrained : w.Drained event) (hreleased : w.AllReleased event) {S : Scope}
    (hS : ∀ e u, S e u = true → e = event) : w.owed S = w.heldSum S := by
  have hun : w.unsettledSum S = 0 := by
    refine tally_eq_zero fun i hi => ?_
    cases hSi : S i.event i.user with
    | false => rfl
    | true => rw [hdrained i hi (hS _ _ hSi), Bool.and_false]
  have howing : w.owingSum S = 0 := by
    refine tally_eq_zero fun o ho => ?_
    cases hSo : S o.event o.user with
    | false => rfl
    | true =>
      cases hst : o.status.held with
      | true => rfl
      | false => rw [hreleased o ho (hS _ _ hSo) hst]; rfl
  rw [World.owed, hun, howing]
  omega

/-- What the inventory detector computes from the database is the stock. -/
theorem expected (hi : Sound event zones row w) (hdrained : w.Drained event)
    (hreleased : w.AllReleased event) {n : Int}
    (h : w.db.computeExpectedAvailable event = some n) : w.redis.available event = some n := by
  rw [Db.computeExpectedAvailable, hi.stored, Option.map_some, Option.some.injEq, w.sold_eq_heldSum] at h
  rw [hi.balanced.available, owed_eq_heldSum hdrained hreleased (by simp [ofEvent]), h]

/-- What it computes by user are the quotas. -/
theorem expectedQuotas (hi : Sound event zones row w) (hdrained : w.Drained event)
    (hreleased : w.AllReleased event) (u : UserId) :
    w.redis.held event u = ((w.db.soldByUser event).lookup u).getD 0 := by
  rw [hi.balanced.quota, owed_eq_heldSum hdrained hreleased (by simp [ofUser]), w.lookup_soldByUser]

/-- A step that moves no ticket of the event leaves its quotas. -/
theorem held_of_steady {a : Act} (hi : Sound event zones row w) (hC : CommitSafe w a) (hq : NoReconcile w a)
    (h : Ticketing.step cfg w a = some w') (hsteady : w'.redis.available event = w.redis.available event)
    (u : UserId) :
    w'.redis.held event u = w.redis.held event u := by
  have hown := hi.balanced
  have hown' := hown.step hC hq h
  have hsame : w'.owed (ofEvent event) = w.owed (ofEvent event) := by
    have heq := hsteady
    rw [hown'.available, hown.available, Option.some.injEq] at heq
    omega
  -- what is owed moves for one user of one event, which is then another event
  have hother : ∀ (e : EventId) (v : UserId) (n : Int), n ≠ 0 →
    (∀ S : Scope, w'.owed S = w.owed S + if S e v then n else 0) →
      w'.owed (ofUser event u) = w.owed (ofUser event u) := by
    intro e v n hn howed
    have hne : e ≠ event := by
      rintro rfl
      rw [howed] at hsame
      simp only [ofEvent, decide_true, if_true] at hsame
      omega
    rw [howed]
    simp [ofUser, hne]
  rw [hown'.quota, hown.quota]
  rcases stockEffect_step hown.linked hown.originated hown.settled hC hq h with
    ⟨howed, -, -⟩ | ⟨e, v, n, hpos, howed, -⟩ | ⟨e, v, n, hpos, howed, -⟩
  · exact howed _
  · exact hother e v n (by omega) howed
  · refine hother e v (-n) (by omega) fun S => ?_
    rw [howed S]
    split <;> omega

/-- A step that moves no ticket of the event leaves its runs. -/
theorem parseRuns_of_steady {a : Act} (hi : SeatBalance event zones row.totalSeats w) (hq : NoReconcile w a)
    (hno : NoRebuild w a) (h : Ticketing.step cfg w a = some w')
    (hsteady : w'.redis.available event = w.redis.available event) (zone : ZoneId) :
    (w'.redis.zones (event, zone)).parseRuns = (w.redis.zones (event, zone)).parseRuns := by
  rcases seatEffect_step hi.seats hi.seated hi.balanced.originated hq hno h with ⟨hsame, -⟩ |
    ⟨zone', n, hne, -, hav, -⟩
  · exact (hsame zone).parseRuns
  · rw [hsteady, hi.counter, incrBy, Option.getD_some, Option.some.injEq] at hav
    omega

end Sound

/-! ### What the detectors have read -/

/-- What the inventory detector has read of the event is what Redis holds. -/
def InventoryPhase.Agrees (event : EventId) (w : World) : InventoryPhase → Prop
  | .summed e expected _ => e = event → w.redis.available event = some expected
  | .quotasRead e expected _ => e = event → ∀ u, w.redis.held event u = (expected.lookup u).getD 0
  | _ => True

/-- The seat structure detector checks events with a seat map, and with an empty backlog the runs are the
complement of the holds it has read. -/
def SeatPhase.Agrees (event : EventId) (zones : List ZoneId) (row : EventRow) (w : World) : SeatPhase → Prop
  | .idle => True
  | .counted _ todo => event ∈ todo → row.seated = true
  | .loaded e backlog blocks held todo => (event ∈ e :: todo → row.seated = true) ∧
      (e = event → (∀ zone ∈ zones, Rebuildable (blocks.filter fun b => b.zone = zone) held) ∧
        (backlog = 0 → ∀ zone ∈ zones, ∀ run,
          run ∈ (w.redis.zones (event, zone)).parseRuns ↔ run ∈ rebuiltRuns
          (blocks.filter fun b => b.zone = zone) held))

namespace Watched

/-- The stores of the event are sound, what the detectors have read of it is still right, and no alarm is about it. -/
structure Trusted (venue : EventId → List ZoneId) (event : EventId) (row : EventRow) (s : Watched) : Prop where
  sound : Sound event (venue event) row s.world
  inventory : s.inventory.Agrees event s.world
  seats : s.seats.Agrees event (venue event) row s.world
  alarms : ∀ a ∈ s.alarms, a.event ≠ event

namespace Trusted

variable {cfg : Settings} {venue : EventId → List ZoneId} {event : EventId} {row : EventRow} {s s' : Watched}

/-- A step of the pipeline. -/
private theorem run {a : Act} (hi : Trusted venue event row s) (hH : Healthy s (.run a))
    (hU : Undisturbed cfg event s (.run a))
    (h : s.step cfg venue (.run a) = some s') : Trusted venue event row s' := by
  obtain ⟨w', hw, rfl⟩ := Option.map_eq_some_iff.1 h
  obtain ⟨hC, hq, hno⟩ := hH
  refine ⟨hi.sound.step hC hq hno hw, ?_, ?_, hi.alarms⟩
  · have hold := hi.inventory
    cases hp : s.inventory with
    | summed e expected todo =>
      rintro rfl
      rw [hp] at hold
      exact (hU (.inl ⟨expected, todo, hp⟩) w' hw).trans (hold rfl)
    | quotasRead e expected todo =>
      rintro rfl u
      rw [hp] at hold
      exact (hi.sound.held_of_steady hC hq hw (hU (.inr (.inl ⟨expected, todo, hp⟩)) w' hw) u).trans (hold rfl u)
    | _ => trivial
  · have hold := hi.seats
    cases hp : s.seats with
    | idle => trivial
    | counted backlog todo =>
      rw [hp] at hold
      exact hold
    | loaded e backlog blocks held todo =>
      rw [hp] at hold
      refine ⟨hold.1, ?_⟩
      rintro rfl
      refine ⟨(hold.2 rfl).1, ?_⟩
      rintro rfl zone hzone run
      have hbal := hi.sound.seated (hold.1 (List.mem_cons_self ..))
      show run ∈ (w'.redis.zones (e, zone)).parseRuns ↔ _
      rw [Sound.parseRuns_of_steady hbal hq hno hw (hU (.inr (.inr ⟨blocks, held, todo, hp⟩)) w' hw) zone]
      exact (hold.2 rfl).2 rfl zone hzone run

/-- New alarms are about other events. -/
private theorem alarms_append (hi : Trusted venue event row s) {found : List Alarm}
    (hfound : ∀ a ∈ found, a.event ≠ event) :
    ∀ a ∈ s.alarms ++ found, a.event ≠ event := by
  intro a ha
  rcases List.mem_append.1 ha with ha | ha
  · exact hi.alarms a ha
  · exact hfound a ha

/-- A step of the inventory detector. -/
private theorem stepInventory {a : WatchAct} (hi : Trusted venue event row s) (hU : Undisturbed cfg event s a)
    (h : s.stepInventory a = some s') : Trusted venue event row s' := by
  have hold := hi.inventory
  cases a with
  | depth events =>
    simp only [Watched.stepInventory] at h
    split at h
    · obtain rfl := Option.some.inj h
      refine ⟨hi.sound, ?_, hi.seats, hi.alarms⟩
      dsimp only
      split <;> trivial
    · cases h
  | sum =>
    simp only [Watched.stepInventory] at h
    split at h
    · rename_i e todo hp
      obtain rfl := Option.some.inj h
      refine ⟨hi.sound, ?_, hi.seats, hi.alarms⟩
      cases hn : s.world.db.computeExpectedAvailable e with
      | none => simp [InventoryPhase.Agrees]
      | some n =>
        rintro rfl
        obtain ⟨hdrained, hreleased⟩ := hU ⟨todo, hp⟩
        exact hi.sound.expected hdrained hreleased hn
    · cases h
  | counter =>
    simp only [Watched.stepInventory] at h
    split at h
    · rename_i e expected todo hp
      obtain rfl := Option.some.inj h
      refine ⟨hi.sound, trivial, hi.seats, hi.alarms_append fun a ha => ?_⟩
      rw [event_of_mem_compareStock ha]
      rintro rfl
      rw [hp] at hold
      rw [hold rfl, compareStock_eq_nil] at ha
      cases ha
    · cases h
  | skip =>
    simp only [Watched.stepInventory] at h
    split at h
    · obtain rfl := Option.some.inj h
      exact ⟨hi.sound, trivial, hi.seats, hi.alarms⟩
    · cases h
  | quotas =>
    simp only [Watched.stepInventory] at h
    split at h
    · rename_i e todo hp
      obtain rfl := Option.some.inj h
      refine ⟨hi.sound, ?_, hi.seats, hi.alarms⟩
      rintro rfl
      obtain ⟨hdrained, hreleased⟩ := hU ⟨todo, hp⟩
      exact hi.sound.expectedQuotas hdrained hreleased
    · cases h
  | held =>
    simp only [Watched.stepInventory] at h
    split at h
    · rename_i e expected todo hp
      obtain rfl := Option.some.inj h
      refine ⟨hi.sound, trivial, hi.seats, hi.alarms_append fun a ha => ?_⟩
      rw [event_of_mem_compareQuotas ha]
      rintro rfl
      rw [hp] at hold
      rw [compareQuotas_eq_nil (hold rfl)] at ha
      cases ha
    · cases h
  | leave =>
    obtain rfl := Option.some.inj h
    exact ⟨hi.sound, trivial, hi.seats, hi.alarms⟩
  | _ => cases h

/-- A step of the seat structure detector. -/
private theorem stepSeats {a : WatchAct} (hi : Trusted venue event row s) (hU : Undisturbed cfg event s a)
    (h : s.stepSeats venue a = some s') : Trusted venue event row s' := by
  have hold := hi.seats
  cases a with
  | seatDepth events =>
    simp only [Watched.stepSeats] at h
    split at h
    · split at h
      · rename_i hall
        obtain rfl := Option.some.inj h
        refine ⟨hi.sound, hi.inventory, fun hmem => ?_, hi.alarms⟩
        have hrow := List.all_eq_true.1 hall event hmem
        rwa [hi.sound.stored] at hrow
      · cases h
    · cases h
  | seatLoad =>
    simp only [Watched.stepSeats] at h
    split at h
    · rename_i backlog e todo hp
      obtain rfl := Option.some.inj h
      rw [hp] at hold
      refine ⟨hi.sound, hi.inventory, ⟨hold, ?_⟩, hi.alarms⟩
      rintro rfl
      have hbal := hi.sound.seated (hold (List.mem_cons_self ..))
      have hblocks : (s.world.db.seatBlocks.filter fun b => b.zone ∈ venue e) = s.world.db.seatBlocks :=
        List.filter_eq_self.2 fun b hb => by simpa using hbal.venue.mem b hb
      rw [hblocks]
      refine ⟨fun zone _ => hbal.rebuildable zone, ?_⟩
      rintro rfl zone - run
      obtain ⟨hdrained, hkept⟩ := hU ⟨todo, hp⟩
      exact hbal.mem_parseRuns_iff hdrained hkept zone run
    · cases h
  | seatSnapshot =>
    simp only [Watched.stepSeats] at h
    split at h
    · rename_i e backlog blocks held todo hp
      rw [hp] at hold
      rw [Option.some.injEq] at h
      by_cases he : e = event
      · -- nothing is found
        subst he
        have hbal := hi.sound.seated (hold.1 (List.mem_cons_self ..))
        have hnil := detectSeatStructureDrift_eq_nil e (fun zone => s.world.redis.zones (e, zone))
          (fun zone _ => hbal.seats.layout.zone zone) (hold.2 rfl).2 (hold.2 rfl).1
        rw [hbal.counter] at h
        rw [World.zoneSum, hnil] at h
        subst h
        refine ⟨hi.sound, hi.inventory, fun hmem => hold.1 (List.mem_cons_of_mem _ hmem), ?_⟩
        simpa using hi.alarms
      · cases hd : detectSeatStructureDrift backlog e (venue e) blocks held
          (fun zone => (s.world.redis.zones (e, zone)).raw)
            ((s.world.redis.available e).map Int.repr) with
        | none =>
          rw [hd] at h
          subst h
          exact ⟨hi.sound, hi.inventory, trivial, hi.alarms⟩
        | some drifts =>
          rw [hd] at h
          subst h
          refine ⟨hi.sound, hi.inventory, fun hmem => hold.1 (List.mem_cons_of_mem _ hmem),
            hi.alarms_append fun a ha => ?_⟩
          split at ha
          · cases ha
          · rw [List.mem_singleton.1 ha]
            exact he
    · cases h
  | seatLeave =>
    obtain rfl := Option.some.inj h
    exact ⟨hi.sound, hi.inventory, trivial, hi.alarms⟩
  | _ => cases h

theorem step {a : WatchAct} (hi : Trusted venue event row s) (hH : Healthy s a) (hU : Undisturbed cfg event s a)
    (h : s.step cfg venue a = some s') : Trusted venue event row s' := by
  cases a with
  | run a => exact hi.run hH hU h
  | seatDepth events => exact hi.stepSeats hU h
  | seatLoad => exact hi.stepSeats hU h
  | seatSnapshot => exact hi.stepSeats hU h
  | seatLeave => exact hi.stepSeats hU h
  | depth events => exact hi.stepInventory hU h
  | sum => exact hi.stepInventory hU h
  | counter => exact hi.stepInventory hU h
  | skip => exact hi.stepInventory hU h
  | quotas => exact hi.stepInventory hU h
  | held => exact hi.stepInventory hU h
  | leave => exact hi.stepInventory hU h

end Trusted

/-! ### No false alarm -/

/-- An event that has just gone on sale: nothing is sold, Redis holds its whole stock and, with a seat map,
its zones were just built. -/
structure Opened (zones : List ZoneId) (event : EventId) (row : EventRow) (w : World) : Prop where
  start : w.Start
  unsold : w.db.Unsold
  stored : w.db.events event = some row
  available : w.redis.available event = some row.totalSeats
  purchased : w.redis.purchased event = ∅
  built : row.seated = true → Built event w ∧ Venue zones row.totalSeats w.db

theorem Opened.sound {zones : List ZoneId} {event : EventId} {row : EventRow} {w : World}
    (h : Opened zones event row w) :
    Sound event zones row w where
  balanced := .start h.start h.unsold h.available h.purchased
  stored := h.stored
  seated hseated := by
    obtain ⟨hbuilt, hvenue⟩ := h.built hseated
    obtain ⟨total, seated⟩ := row
    obtain rfl : seated = true := hseated
    exact .start hbuilt h.unsold h.stored hvenue h.available h.purchased

section Runs

variable {cfg : Settings} {venue : EventId → List ZoneId}

/-- A run of the pipeline alone. -/
theorem along_run {C : World → Act → Prop} {D : Watched → WatchAct → Prop} (hCD : ∀ s a, C s.world a → D s (.run a))
    {s : Watched} {acts : List Act} (h : Along (Ticketing.step cfg) C s.world acts) :
    Along (step cfg venue) D s (acts.map .run) := by
  induction acts generalizing s with
  | nil => trivial
  | cons a acts ih =>
    refine ⟨hCD s a h.1, fun s' hs' => ?_⟩
    obtain ⟨w', hw', rfl⟩ := Option.map_eq_some_iff.1 hs'
    exact ih (h.2 w' hw')

/-- While both detectors are idle nothing disturbs them. -/
theorem undisturbed_of_idle {event : EventId} {s : Watched} (hinv : s.inventory = .idle) (hseats : s.seats = .idle)
    (acts : List Act) : Along (step cfg venue) (Undisturbed cfg event) s (acts.map .run) := by
  have hrun : Along (step cfg venue) (fun _ a => ∃ b, a = .run b) s (acts.map .run) :=
    Along.of_forall fun a ha _ => by obtain ⟨b, -, rfl⟩ := List.mem_map.1 ha; exact ⟨b, rfl⟩
  refine Along.of_invariant (I := fun s => s.inventory = .idle ∧ s.seats = .idle) ?_ ?_ ⟨hinv, hseats⟩ hrun
  · rintro s a s' ⟨b, rfl⟩ h hidle
    obtain ⟨w', -, rfl⟩ := Option.map_eq_some_iff.1 h
    exact hidle
  · rintro s a ⟨hidle, hidle'⟩ ⟨b, rfl⟩ (⟨_, _, h⟩ | ⟨_, _, h⟩ | ⟨_, _, _, h⟩)
    · rw [hidle] at h; cases h
    · rw [hidle] at h; cases h
    · rw [hidle'] at h; cases h

/-- The detectors do not touch the stores. -/
theorem world_of_not_run {s s' : Watched} {a : WatchAct} (ha : ∀ b, a ≠ .run b) (h : s.step cfg venue a = some s') :
    s'.world = s.world := by
  cases a with
  | run a => exact (ha a rfl).elim
  | seatSnapshot =>
    simp only [Watched.step, Watched.stepSeats] at h
    split at h
    · obtain rfl := Option.some.inj h
      cases detectSeatStructureDrift _ _ _ _ _ _ _ <;> rfl
    · cases h
  | _ =>
    simp only [Watched.step, Watched.stepSeats, Watched.stepInventory] at h
    repeat' split at h
    all_goals first | cases h; done | (obtain rfl := Option.some.inj h; rfl)

/-- A pass over stores with nothing in flight is not disturbed. -/
theorem undisturbed_of_settled {event : EventId} {s : Watched} (hdrained : s.world.Drained event)
    (hreleased : s.world.AllReleased event) {acts : List WatchAct} (hacts : ∀ a ∈ acts, ∀ b, a ≠ .run b) :
    Along (step cfg venue) (Undisturbed cfg event) s acts := by
  have hpass : Along (step cfg venue) (fun _ a => ∀ b, a ≠ .run b) s acts := Along.of_forall fun a ha _ => hacts a ha
  refine Along.of_invariant (I := fun t => t.world = s.world) ?_ ?_ rfl hpass
  · intro t a t' ha h ht
    rw [world_of_not_run ha h, ht]
  · intro t a ht ha
    have hkept : t.world.HoldsKept event := by
      intro o ho hev hst hrel
      rw [ht] at ho hrel
      rw [hreleased o ho hev hst] at hrel
      cases hrel
    cases a with
    | run b => exact (ha b rfl).elim
    | sum => exact fun _ => ht ▸ ⟨hdrained, hreleased⟩
    | quotas => exact fun _ => ht ▸ ⟨hdrained, hreleased⟩
    | seatLoad => exact fun _ => ⟨ht ▸ hdrained, hkept⟩
    | _ => trivial

end Runs

theorem seatedStart_opened : Opened [1] 1 ⟨10, true⟩ seatedStart where
  start := seatedStart_built.start
  unsold := ⟨rfl, rfl, rfl⟩
  stored := rfl
  available := rfl
  purchased := rfl
  built _ := ⟨seatedStart_built, ⟨by decide, by decide, by decide⟩⟩

/-- A request for two seats is accepted after both detectors have found the backlog empty. -/
def lateRequest : List WatchAct :=
  [.depth [1], .seatDepth [1]] ++ seatRequest.map .run ++ [.sum, .counter, .quotas, .held, .seatLoad, .seatSnapshot]

/-- The stock, the quota and the runs are reported, although no update was lost. -/
theorem alarm_on_request_behind_the_guard :
    Opened [1] 1 ⟨10, true⟩ seatedStart ∧ Along (step {} fun _ => [1]) Healthy { world := seatedStart } lateRequest ∧
      ∃ s, exec (step {} fun _ => [1]) { world := seatedStart } lateRequest = some s ∧
        s.alarms = [.inventory 1 10 8, .quota 1 [1], .seats 1 [⟨.complement, 1, some 1, none⟩]] := by
  refine ⟨seatedStart_opened, Along.of_forall ?_, ?_⟩
  · simp [lateRequest, seatRequest, Healthy, CommitSafe, NoReconcile, NoRebuild]
  · obtain ⟨s, hs, hp⟩ := exec_any (step {} fun _ => [1]) { world := seatedStart } lateRequest
      (fun s => s.alarms = [.inventory 1 10 8, .quota 1 [1], .seats 1 [⟨.complement, 1, some 1, none⟩]])
      (by decide +kernel)
    rw [decide_eq_true_eq] at hp
    exact ⟨s, hs, hp⟩

/-- The detectors raise no false alarm about an event while nothing of the event is in flight when they read
the database and no ticket of the event moves before they have read Redis: in every run from a fresh event on
which no update is lost, whatever the detectors and the pipeline do besides, no alarm is about the event. -/
theorem no_alarm_when_undisturbed {cfg : Settings} {venue : EventId → List ZoneId} {event : EventId}
    {row : EventRow} {w₀ : World}
    {acts : List WatchAct} {s : Watched} (hopen : Opened (venue event) event row w₀)
    (hhealthy : Along (step cfg venue) Healthy { world := w₀ } acts)
    (hquiet : Along (step cfg venue) (Undisturbed cfg event) { world := w₀ } acts)
    (h : exec (step cfg venue) { world := w₀ } acts = some s) : ∀ a ∈ s.alarms, a.event ≠ event := by
  have htrusted : Trusted venue event row { world := w₀ } := ⟨hopen.sound, trivial, trivial, by simp⟩
  have hend : Trusted venue event row s :=
    exec_invariant (fun _ _ _ hC hs hi => hi.step hC.1 hC.2 hs) htrusted (hhealthy.and hquiet) h
  exact hend.alarms

/-- Two seats are sold and their order committed; then both detectors make a full pass. -/
def promptPass : List WatchAct :=
  (seatRequest ++ promptConsumer).map .run ++
    [.depth [1], .sum, .counter, .quotas, .held, .seatDepth [1], .seatLoad, .seatSnapshot]

theorem no_alarm_when_undisturbed_sold :
    ∃ s, exec (step {} fun _ => [1]) { world := seatedStart } promptPass = some s ∧
      (⟨1, 1, 1, 7, 0, 2, none⟩ : SeatHold) ∈ s.world.db.seatHolds ∧ s.world.redis.available 1 = some 8 ∧
      ∀ a ∈ s.alarms, a.event ≠ 1 := by
  obtain ⟨s, hs, hp⟩ := exec_any (step {} fun _ => [1]) { world := seatedStart } promptPass
    (fun s => (⟨1, 1, 1, 7, 0, 2, none⟩ : SeatHold) ∈ s.world.db.seatHolds ∧ s.world.redis.available 1 = some 8)
    (by decide +kernel)
  rw [decide_eq_true_eq] at hp
  have hhealthy : Along (step {} fun _ => [1]) Healthy { world := seatedStart } promptPass := by
    have hsafe : Along (Ticketing.step {}) CommitSafe seatedStart (seatRequest ++ promptConsumer) :=
      commitSafe_of_noDeadLetter seatedStart_built.start
        (Along.of_forall (by simp [seatRequest, promptConsumer, NoDeadLetter]))
    have hplain : Along (Ticketing.step {}) (fun w a => NoReconcile w a ∧ NoRebuild w a) seatedStart
        (seatRequest ++ promptConsumer) :=
      Along.of_forall (by simp [seatRequest, promptConsumer, NoReconcile, NoRebuild])
    exact (along_run (fun _ _ h => h) (hsafe.and hplain)).append fun t _ => Along.of_forall (by simp [Healthy])
  have hquiet : Along (step {} fun _ => [1]) (Undisturbed {} 1) { world := seatedStart } promptPass := by
    refine (undisturbed_of_idle rfl rfl _).append fun t ht => ?_
    have hsettled := exec_test (fun t : Watched => (∀ i ∈ t.world.log, i.event = 1 → t.world.unsettled i = false) ∧
      ∀ o ∈ t.world.db.orders, o.event = 1 → o.status.held = false → t.world.redis.released (.order o.id) = true) ht
      (by decide +kernel)
    rw [decide_eq_true_eq] at hsettled
    exact undisturbed_of_settled hsettled.1 hsettled.2 (by simp)
  exact ⟨s, hs, hp.1, hp.2, no_alarm_when_undisturbed seatedStart_opened hhealthy hquiet hs⟩

end Watched

end Ticketing
