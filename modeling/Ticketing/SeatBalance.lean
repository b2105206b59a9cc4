import Ticketing.SeatDrift
import Ticketing.SeatOwnership

/-!
# The stores of a seated event agree up to what is in flight

While no rebuild and no reconcile runs, every step of the pipeline moves the counter of a seated event and the
counter of one of its zones by the same amount (`SeatEffect`), so the event counter stays the sum of the zone
counters.  The seats that are neither free nor held are those of unsettled intents and of terminal orders
whose hold is gone and whose release has not run.  When there are none of either, counting shows that the free
seats are the complement of the holds (`SeatBalance.free_iff`).
-/

namespace Ticketing

open Span Exec Owners Tally

/-! ### Sums over the zones of a venue -/

section ZoneSums

variable {zones : List ZoneId}

/-- One term of a sum moves. -/
private theorem sum_map_move (f f' : ZoneId → Int) {zone : ZoneId} (n : Int) (hz : zones.Nodup) (hmem : zone ∈ zones)
    (hat : f' zone = f zone + n) (hother : ∀ zone', zone' ≠ zone → f' zone' = f zone') :
    (zones.map f').sum = (zones.map f).sum + n := by
  induction zones with
  | nil => cases hmem
  | cons z zs ih =>
    rw [List.nodup_cons] at hz
    rw [List.map_cons, List.map_cons, List.sum_cons, List.sum_cons]
    by_cases hzone : z = zone
    · subst hzone
      have hrest : zs.map f' = zs.map f := List.map_congr_left fun z' hz' => hother z' (by rintro rfl; exact hz.1 hz')
      rw [hrest, hat]
      omega
    · have hin : zone ∈ zs := (List.mem_cons.1 hmem).resolve_left (Ne.symm hzone)
      rw [ih hz.2 hin, hother z hzone]
      omega

/-- The blocks counted by zone. -/
private theorem sum_zone_capacity (hz : zones.Nodup) {blocks : List SeatBlock} (hall : ∀ b ∈ blocks, b.zone ∈ zones) :
    (zones.map fun zone => ((blocks.filter fun b => b.zone = zone).map SeatBlock.capacity).sum).sum =
      (blocks.map SeatBlock.capacity).sum := by
  induction blocks with
  | nil => simp
  | cons b blocks ih =>
    rw [sum_map_move _ _ b.capacity hz (hall b (List.mem_cons_self ..)),
      ih fun b' hb' => hall b' (List.mem_cons_of_mem _ hb'), List.map_cons, List.sum_cons, add_comm]
    · rw [List.filter_cons_of_pos (by simp), List.map_cons, List.sum_cons, add_comm]
    · intro zone hzone
      rw [List.filter_cons_of_neg (by simpa using Ne.symm hzone)]

end ZoneSums

/-! ### What a step does to the counters -/

/-- What a step does to the free seats of an event and to its counters. -/
inductive SeatEffect (event : EventId) (w w' : World) : Prop where
  /-- Nothing moves. -/
  | still (seats : ∀ zone, (w.redis.zones (event, zone)).SameSeats (w'.redis.zones (event, zone)))
      (available : w'.redis.available event = w.redis.available event)
  /-- The counters of the event and of one of its zones move by `n`. -/
  | move (zone : ZoneId) (n : Int) (ne : n ≠ 0) (known : ∃ blk ∈ w.db.seatBlocks, blk.zone = zone)
      (available : w'.redis.available event = incrBy (w.redis.available event) n)
      (counter : (w'.redis.zones (event, zone)).available = incrBy (w.redis.zones (event, zone)).available n)
      (others : ∀ zone', zone' ≠ zone → w'.redis.zones (event, zone') = w.redis.zones (event, zone'))

/-- The event has a seat map: its intents name their seats, and its held orders have their hold rows. -/
structure Seated (event : EventId) (w : World) : Prop where
  row : (w.db.events event).any (fun e => !e.seated) = false
  intent : ∀ i ∈ w.log, i.event = event → i.zone.isSome = true ∧ i.seat.isSome = true
  hold : ∀ o ∈ w.db.orders, o.event = event → o.status.held = true → ∃ h ∈ w.db.seatHolds, h.order = o.id

section Effect

variable {cfg : Settings} {event : EventId} {w w' : World}

private theorem SeatEffect.of_eq (hz : w'.redis.zones = w.redis.zones) (ha : w'.redis.available = w.redis.available) :
    SeatEffect event w w' :=
  .still (fun zone => by rw [hz]; exact .refl _) (by rw [ha])

/-- The seats and the stock of another event are written. -/
private theorem SeatEffect.of_other {e : EventId} {zone : ZoneId} {z : ZoneKeys} {n : Option Int} (he : e ≠ event)
    (hz : w'.redis.zones = Function.update w.redis.zones (e, zone) z)
    (ha : w'.redis.available = Function.update w.redis.available e n) : SeatEffect event w w' := by
  refine .still (fun zone' => ?_) ?_
  · rw [hz]
    exact sameSeats_update_event he zone'
  · rw [ha, Function.update_of_ne he.symm]

/-- The stock of another event is written. -/
private theorem SeatEffect.of_stock {e : EventId} {n : Option Int} (he : e ≠ event)
    (hz : w'.redis.zones = w.redis.zones)
    (ha : w'.redis.available = Function.update w.redis.available e n) : SeatEffect event w w' :=
  .still (fun zone => by rw [hz]; exact .refl _) (by rw [ha, Function.update_of_ne he.symm])

/-- A zone is written together with the stock of its event. -/
private theorem SeatEffect.of_zone (e : EventId) (zone : ZoneId) {z : ZoneKeys} (n : Int) (hn : n ≠ 0)
    (hknown : e = event → ∃ blk ∈ w.db.seatBlocks, blk.zone = zone)
    (hz : w'.redis.zones = Function.update w.redis.zones (e, zone) z)
    (hcounter : z.available = incrBy (w.redis.zones (e, zone)).available n)
    (ha : w'.redis.available = Function.update w.redis.available e (incrBy (w.redis.available e) n)) :
    SeatEffect event w w' := by
  by_cases he : e = event
  · subst he
    refine .move zone n hn (hknown rfl) ?_ ?_ fun zone' hne => ?_
    · rw [ha, Function.update_self]
    · rw [hz, Function.update_self, hcounter]
    · rw [hz, Function.update_of_ne (by simpa using hne)]
  · exact .of_other he hz ha

/-- The zone of an order of a seated event is known. -/
private theorem Seated.zone_of_order (hs : Seated event w) (ho : w.Originated) {o : Order} (hom : o ∈ w.db.orders)
    (hev : o.event = event) : o.zone.isSome = true := by
  obtain ⟨i, hi, hsame⟩ := ho.order o hom
  rw [← hsame.zone]
  exact (hs.intent i hi (hsame.event.trans hev)).1

theorem seatEffect_step {a : Act} (hi : SeatInv event w) (hs : Seated event w) (ho : w.Originated)
    (hq : NoReconcile w a) (hno : NoRebuild w a) (h : step cfg w a = some w') : SeatEffect event w w' := by
  have hknown : ∀ zone s, w.db.Fits zone s → ∃ blk ∈ w.db.seatBlocks, blk.zone = zone := by
    rintro zone s ⟨blk, hblk, -, hzone, -⟩
    exact ⟨blk, hblk, hzone⟩
  cases a with
  | intake a =>
    rcases stepIntake_cases h with ⟨b, hok, rfl⟩ | ⟨c, call, b, -, hok, rfl⟩ | ⟨zones, calls, hz, -, rfl⟩
    · refine .of_stock (e := b.event) ?_ rfl rfl
      rintro rfl
      have hrow := hs.row
      rw [hok.unseated] at hrow
      cases hrow
    · refine .of_zone b.event b.zone (-b.length) (by have := hok.pos; omega) ?_ rfl rfl rfl
      rintro rfl
      have hhost : (⟨b.block, b.runStart, b.runLength⟩ : Run) ∈ (w.redis.zones (b.event, b.zone)).parseRuns :=
        ZoneKeys.mem_parseRuns.2 hok.cut.host
      obtain ⟨g, hg, -⟩ := (hi.layout.zone b.zone).inside _ hhost
      obtain ⟨blk, hblk, -, hzone, -⟩ := hi.layout.geom b.zone b.block g hg
      exact ⟨blk, hblk, hzone⟩
    · exact .still (fun zone => hz _) rfl
  | settle a =>
    rcases stepSettle_cases h with ⟨n, x, id, fk, db, rfl, -, -, -, -, rfl⟩ | ⟨n, x, w₁, hx, -, hw₁, rfl⟩ |
      ⟨redis, handlers, hquiet, -, rfl⟩
    · exact .of_eq rfl rfl
    · have hmem := hi.linked.handled n x hx
      rcases World.refund_cases hw₁ with ⟨hseat, -, rfl⟩ | ⟨seat, zone, hseat, hzone, -, rfl⟩ | rfl
      · refine .of_stock (e := x.intent.event) (fun hev => ?_) rfl rfl
        have hsome := (hs.intent _ hmem hev).2
        rw [hseat] at hsome
        cases hsome
      · refine .of_zone x.intent.event zone x.intent.quantity ?_ (fun hev => ?_) rfl rfl rfl
        · have := hi.linked.pos _ hmem
          omega
        · have hspan : x.intent.span = some ⟨seat.block, seat.startPos, x.intent.quantity⟩ := by
            rw [Intent.span, hseat]
            rfl
          obtain ⟨zone', hz', hfit⟩ := hi.fitting.intent x.intent hmem hev _ hspan
          rw [hzone, Option.some.injEq] at hz'
          exact hknown _ _ (hz' ▸ hfit)
      · exact .of_eq rfl rfl
    · exact .still (fun zone => hquiet.zones _) (congrFun hquiet.available event)
  | transition id new now =>
    obtain ⟨db, -, rfl⟩ := Option.map_eq_some_iff.1 h
    exact .of_eq rfl rfl
  | release a =>
    rcases stepRelease_cases h with ⟨n, x, hold, -, -, rfl⟩ | ⟨n, x, hx, -, hzone, -, rfl⟩ |
      ⟨n, x, hold, zone, hx, hp, hzone, -, rfl⟩ | ⟨outbox, releases, -, -, rfl⟩
    · exact .of_eq rfl rfl
    · refine .of_stock (e := x.order.event) (fun hev => ?_) rfl rfl
      obtain ⟨o, hom, hsame, -⟩ := hi.linked.release n x hx
      have hsome := hs.zone_of_order ho hom (hsame.event.trans hev)
      rw [hsame.zone, hzone] at hsome
      cases hsome
    · have hmatch := hi.linked.carried n x hold hx (.inr hp)
      refine .of_zone x.order.event zone hold.length ?_ (fun hev => ?_) rfl rfl rfl
      · obtain ⟨o, hom, hsame, -⟩ := hi.linked.release n x hx
        have := ho.quantity_pos hi.linked hom
        rw [hmatch.length, ← hsame.quantity]
        omega
      · obtain rfl : hold.zone = zone := Option.some.inj (hmatch.zone.symm.trans hzone)
        exact hknown _ _ (hi.fitting.carried n x hold hx (.inr hp) (hmatch.event.trans hev))
    · exact .of_eq rfl rfl
  | reconcile a => exact hq.elim
  | rebuild a => exact (hno a rfl).elim
  | lose e => exact hq.elim

/-- A transition keeps the hold rows, if with another deadline. -/
private theorem Db.seatHolds_of_transition {db db' : Db} {id : OrderId} {new : OrderStatus} {now : Time}
    (h : db.transition id new now = some db') {hold : SeatHold} (hh : hold ∈ db.seatHolds) :
    ∃ hold' ∈ db'.seatHolds, hold'.order = hold.order := by
  obtain ⟨o₀, -, -, rfl⟩ := transition_eq_some h
  dsimp only
  split
  · refine ⟨_, List.mem_map_of_mem hh, ?_⟩
    split <;> rfl
  · exact ⟨hold, hh, rfl⟩

namespace Seated

/-- A new intent of the event comes from a seat claim. -/
private theorem intent_intake {a : IntakeAct} (hs : Seated event w) (h : Ticketing.step cfg w (.intake a) = some w') :
    ∀ i ∈ w'.log, i.event = event → i.zone.isSome = true ∧ i.seat.isSome = true := by
  rcases stepIntake_cases h with ⟨b, hok, rfl⟩ | ⟨c, call, b, -, -, rfl⟩ | ⟨zones, calls, -, -, rfl⟩
  · intro i hi hev
    rcases List.mem_append.1 hi with hi | hi
    · exact hs.intent i hi hev
    · have hrow := hs.row
      rw [← hev, List.mem_singleton.1 hi, show b.intent.event = b.event from rfl, hok.unseated] at hrow
      cases hrow
  · intro i hi hev
    rcases List.mem_append.1 hi with hi | hi
    · exact hs.intent i hi hev
    · rw [List.mem_singleton.1 hi]
      exact ⟨rfl, rfl⟩
  · exact hs.intent

/-- A new order of the event comes with its hold row. -/
private theorem hold_settle {a : SettleAct} (hs : Seated event w) (hl : w.Linked)
    (h : Ticketing.step cfg w (.settle a) = some w') :
    ∀ o ∈ w'.db.orders, o.event = event → o.status.held = true → ∃ hold ∈ w'.db.seatHolds, hold.order = o.id := by
  rcases stepSettle_cases h with ⟨n, x, id, fk, db, rfl, hx, -, -, hdb, rfl⟩ | ⟨n, x, w₁, -, -, hw₁, rfl⟩ |
    ⟨redis, handlers, -, -, rfl⟩
  · obtain ⟨-, -, rfl⟩ := insertIntent_eq_some hdb
    intro o hom hev hheld
    rcases List.mem_append.1 hom with hom | hom
    · obtain ⟨hold, hh, hord⟩ := hs.hold o hom hev hheld
      exact ⟨hold, List.mem_append_left _ hh, hord⟩
    · rw [List.mem_singleton.1 hom] at hev ⊢
      obtain ⟨hzone, hseat⟩ := hs.intent x.intent (hl.handled n x hx) hev
      obtain ⟨zone, hzone⟩ := Option.isSome_iff_exists.1 hzone
      obtain ⟨seat, hseat⟩ := Option.isSome_iff_exists.1 hseat
      have hrow : x.intent.hold id = some
          ⟨x.intent.event, zone, seat.block, id, seat.startPos, x.intent.quantity, none⟩ := by
        rw [Intent.hold, hzone, hseat]
        rfl
      exact ⟨_, List.mem_append_right _ (Option.mem_toList.2 hrow), rfl⟩
  · rcases World.refund_cases hw₁ with ⟨-, -, rfl⟩ | ⟨seat, zone, -, -, -, rfl⟩ | rfl <;> exact hs.hold
  · exact hs.hold

/-- An order that is held after a transition was held before. -/
private theorem hold_transition {id : OrderId} {new : OrderStatus} {now : Time} (hs : Seated event w) (hl : w.Linked)
    (h : Ticketing.step cfg w (.transition id new now) = some w') :
    ∀ o ∈ w'.db.orders, o.event = event → o.status.held = true → ∃ hold ∈ w'.db.seatHolds, hold.order = o.id := by
  obtain ⟨db, hdb, rfl⟩ := Option.map_eq_some_iff.1 h
  intro o hom hev hheld
  rw [show ({ w with db } : World).db = db from rfl, orders_transition hdb] at hom
  obtain ⟨o₁, ho₁, rfl⟩ := List.mem_map.1 hom
  have hheld₁ : o₁.status.held = true := by
    by_cases hid : o₁.id = id
    · exact (hl.db.held_of_transition hdb ho₁ hid).1
    · rwa [if_neg hid] at hheld
  have hsame : (if o₁.id = id then o₁.stamp new now else o₁).event = o₁.event ∧
      (if o₁.id = id then o₁.stamp new now else o₁).id = o₁.id := by
    split <;> simp
  obtain ⟨hold, hh, hord⟩ := hs.hold o₁ ho₁ (hsame.1.symm.trans hev) hheld₁
  obtain ⟨hold', hh', hord'⟩ := Db.seatHolds_of_transition hdb hh
  exact ⟨hold', hh', hord'.trans (hord.trans hsame.2.symm)⟩

/-- Only the release of a terminal order deletes its hold row. -/
private theorem hold_release {a : ReleaseAct} (hs : Seated event w) (hl : w.Linked)
    (h : Ticketing.step cfg w (.release a) = some w') :
    ∀ o ∈ w'.db.orders, o.event = event → o.status.held = true → ∃ hold ∈ w'.db.seatHolds, hold.order = o.id := by
  rcases stepRelease_cases h with ⟨n, x, hold, hx, -, rfl⟩ | ⟨n, x, -, -, -, -, rfl⟩ |
    ⟨n, x, hold, zone, -, -, -, -, rfl⟩ | ⟨outbox, releases, -, -, rfl⟩
  · intro o hom hev hheld
    obtain ⟨hold', hh', hord⟩ := hs.hold o hom hev hheld
    refine ⟨hold', List.mem_filter.2 ⟨hh', ?_⟩, hord⟩
    rw [decide_eq_true_eq]
    intro hdel
    obtain ⟨o₁, ho₁, hsame, hterm⟩ := hl.release n x hx
    rw [hl.db.order_unique ho₁ hom (by rw [hsame.id, ← hdel, hord]), hheld] at hterm
    cases hterm
  · exact hs.hold
  · exact hs.hold
  · exact hs.hold

theorem step {a : Act} (hs : Seated event w) (hl : w.Linked) (h : Ticketing.step cfg w a = some w') :
    Seated event w' := by
  have hkept := tablesKept_step h
  have hrecords := recordsKept_step h
  refine ⟨by rw [hkept.events]; exact hs.row, ?_, ?_⟩
  · cases a with
    | intake a => exact hs.intent_intake h
    | _ =>
      rw [hrecords.log (by simp)]
      exact hs.intent
  · cases a with
    | settle a => exact hs.hold_settle hl h
    | transition id new now => exact hs.hold_transition hl h
    | release a => exact hs.hold_release hl h
    | _ =>
      rw [hkept.orders (by simp) (by simp), hrecords.seatHolds (by simp) (by simp) (by simp)]
      exact hs.hold

end Seated

end Effect

/-! ### The balance -/

/-- The zones of the venue of a seated event, and their blocks. -/
structure Venue (zones : List ZoneId) (total : Int) (db : Db) : Prop where
  nodup : zones.Nodup
  mem : ∀ b ∈ db.seatBlocks, b.zone ∈ zones
  capacity : (db.seatBlocks.map SeatBlock.capacity).sum = total

def World.zoneSum (w : World) (event : EventId) (zones : List ZoneId) : Int :=
  (zones.map fun zone => (w.redis.zones (event, zone)).available.getD 0).sum

/-- A seated event on which no update was lost. -/
structure SeatBalance (event : EventId) (zones : List ZoneId) (total : Int) (w : World) : Prop where
  balanced : Balanced event total w
  seats : SeatInv event w
  seated : Seated event w
  noRebuilds : ∀ m, w.rebuilds m = none
  venue : Venue zones total w.db
  counter : w.redis.available event = some (w.zoneSum event zones)

namespace SeatBalance

variable {cfg : Settings} {event : EventId} {zones : List ZoneId} {total : Int} {w w' : World}

/-- A seated event that has just gone on sale. -/
theorem start (hbuilt : Built event w) (hunsold : w.db.Unsold) (hrow : w.db.events event = some ⟨total, true⟩)
    (hvenue : Venue zones total w.db) (hstock : w.redis.available event = some total)
    (hquota : w.redis.purchased event = ∅) : SeatBalance event zones total w := by
  refine ⟨.start hbuilt.start hunsold hstock hquota, hbuilt.seatInv, ⟨by simp [hrow], ?_, ?_⟩,
    hbuilt.start.rebuilds, hvenue, ?_⟩
  · simp [hbuilt.start.log]
  · simp [hunsold.orders]
  · have hzone : ∀ zone, (w.redis.zones (event, zone)).available.getD 0 =
      ((w.db.zoneBlocks zone).map SeatBlock.capacity).sum := by
      intro zone
      have hheld : w.db.heldOn event (w.db.zoneBlocks zone) = [] := by
        rw [Db.heldOn, hunsold.seatHolds]
        rfl
      rcases hbuilt.zones zone with ⟨z, hz⟩ | ⟨hnil, hz⟩
      · have hsum := sum_rebuiltRuns (hbuilt.rebuildable zone) (by rw [hheld]; simp)
        rw [hheld] at hsum hz
        rw [hz]
        refine hsum.trans ?_
        simp [positions]
      · rw [hz, hnil]
        rfl
    rw [hstock, World.zoneSum, ← hvenue.capacity, ← sum_zone_capacity hvenue.nodup hvenue.mem]
    simp only [hzone]
    rfl

theorem step {a : Act} (hi : SeatBalance event zones total w) (hC : CommitSafe w a) (hq : NoReconcile w a)
    (hno : NoRebuild w a) (h : Ticketing.step cfg w a = some w') : SeatBalance event zones total w' := by
  have hseats' := hi.seats.step hC (.of_noRebuild hi.noRebuilds hno) h
  have hblocks := (recordsKept_step h).seatBlocks
  refine ⟨hi.balanced.step hC hq h, hseats', hi.seated.step hi.seats.linked h, ?_, ?_, ?_⟩
  · rw [(tablesKept_step h).rebuilds hno]
    exact hi.noRebuilds
  · exact ⟨hi.venue.nodup, hblocks ▸ hi.venue.mem, hblocks ▸ hi.venue.capacity⟩
  · rcases seatEffect_step hi.seats hi.seated hi.balanced.originated hq hno h with
      ⟨hsame, hav⟩ | ⟨zone, n, -, ⟨blk, hblk, rfl⟩, hav, hcount, hother⟩
    · rw [hav, hi.counter]
      unfold World.zoneSum
      simp only [(hsame _).available]
    · rw [hav, hi.counter]
      unfold World.zoneSum
      rw [sum_map_move (fun zone => (w.redis.zones (event, zone)).available.getD 0)
        (fun zone => (w'.redis.zones (event, zone)).available.getD 0) n hi.venue.nodup (hi.venue.mem blk hblk)]
      · rfl
      · rw [hcount]
        rfl
      · intro zone' hne
        rw [hother zone' hne]

/-! ### When nothing is in flight -/

/-- The free runs of all zones of the venue. -/
private def freeRuns (w : World) (event : EventId) (zones : List ZoneId) : List Run :=
  zones.flatMap fun zone => (w.redis.zones (event, zone)).parseRuns

private theorem cover_freeRuns (hi : SeatBalance event zones total w) {b : BlockId} {p : Int} :
    Cover (· ∈ freeRuns w event zones) b p ↔ w.Own event .free (b, p) := by
  constructor
  · rintro ⟨run, hrun, hc⟩
    obtain ⟨zone, -, hrun⟩ := List.mem_flatMap.1 hrun
    exact ⟨zone, run, hrun, hc⟩
  · rintro ⟨zone, hfree⟩
    obtain ⟨blk, hblk, -, rfl, -⟩ := hi.seats.layout.of_free hfree
    obtain ⟨run, hrun, hc⟩ := hfree
    exact ⟨run, List.mem_flatMap.2 ⟨blk.zone, hi.venue.mem blk hblk, hrun⟩, hc⟩

private theorem sum_freeRuns (hi : SeatBalance event zones total w) :
    ((freeRuns w event zones).map Span.length).sum = w.zoneSum event zones := by
  rw [freeRuns, List.map_flatMap, List.flatMap_def, List.sum_flatten, List.map_map, World.zoneSum]
  refine congrArg List.sum (List.map_congr_left fun zone _ => ?_)
  exact (hi.seats.layout.zone zone).counter.symm

private theorem freeRuns_pos (hi : SeatBalance event zones total w) {run : Run}
    (hrun : run ∈ freeRuns w event zones) :
    0 < run.length := by
  obtain ⟨zone, -, hrun⟩ := List.mem_flatMap.1 hrun
  exact (hi.seats.layout.zone zone).maximal.pos run hrun

private theorem freeRuns_disjoint (hi : SeatBalance event zones total w) :
    (freeRuns w event zones).Pairwise Disjoint := by
  have hzone : ∀ zone, ∀ run ∈ (w.redis.zones (event, zone)).parseRuns,
      ∃ blk ∈ w.db.seatBlocks, blk.id = run.block ∧ blk.zone = zone := by
    intro zone run hrun
    obtain ⟨g, hg, -⟩ := (hi.seats.layout.zone zone).inside run hrun
    obtain ⟨blk, hblk, hid, hz, -⟩ := hi.seats.layout.geom zone run.block g hg
    exact ⟨blk, hblk, hid, hz⟩
  refine List.pairwise_flatMap.2
    ⟨fun zone _ => ?_, hi.venue.nodup.imp fun {zone zone'} hne run hrun run' hrun' hb => ?_⟩
  · exact (hi.seats.layout.zone zone).maximal.apart.imp Apart.disjoint
  · -- a block is in one zone
    obtain ⟨blk, hblk, hid, rfl⟩ := hzone zone run hrun
    obtain ⟨blk', hblk', hid', rfl⟩ := hzone zone' run' hrun'
    exact absurd (congrArg SeatBlock.zone (hi.seats.layout.zone_unique hblk hblk' (by rw [hid, hid', hb]))) hne

/-- The orders that still count cover as many seats as they have tickets. -/
private theorem outstanding_seats (hi : SeatBalance event zones total w)
    (hrows : ∀ o ∈ w.db.orders, o.event = event → o.status.held = false → w.redis.released (.order o.id) = false →
      ∃ h ∈ w.db.seatHolds, h.order = o.id) :
    ∃ spans : List Run, (∀ s ∈ spans, 0 < s.length) ∧ spans.Pairwise Disjoint ∧
      (∀ s ∈ spans, ∃ h ∈ w.db.eventHolds event, h.span = s) ∧
      (spans.map Span.length).sum = w.heldSum (ofEvent event) + w.owingSum (ofEvent event) := by
  have hl := hi.seats.linked
  set orders := w.db.orders.filter fun o => ofEvent event o.event o.user && w.outstanding o with horders
  have hmem : ∀ o ∈ orders, o ∈ w.db.orders ∧ o.event = event ∧ w.outstanding o = true := by
    intro o ho
    rw [horders, List.mem_filter, Bool.and_eq_true, ofEvent, decide_eq_true_eq] at ho
    exact ho
  have hrow : ∀ o ∈ orders, ∃ h ∈ w.db.seatHolds, h.Matches o := by
    intro o ho
    obtain ⟨hom, hev, hout⟩ := hmem o ho
    obtain ⟨h, hh, hord⟩ : ∃ h ∈ w.db.seatHolds, h.order = o.id := by
      cases hst : o.status.held with
      | true => exact hi.seated.hold o hom hev hst
      | false =>
        refine hrows o hom hev hst ?_
        rwa [World.outstanding, hst, Bool.false_or, Bool.not_eq_true'] at hout
    obtain ⟨o', ho', hmatch⟩ := hl.db.hold h hh
    obtain rfl := hl.db.order_unique ho' hom (hmatch.order.symm.trans hord)
    exact ⟨h, hh, hmatch⟩
  have : Nonempty SeatHold := ⟨⟨0, 0, 0, 0, 0, 0, none⟩⟩
  choose! row hrowmem hmatch using hrow
  have hpos : ∀ o ∈ orders, 0 < (row o).span.length := by
    intro o ho
    have hq := hi.balanced.originated.quantity_pos hl (hmem o ho).1
    rw [show (row o).span.length = (row o).length from rfl, (hmatch o ho).length]
    omega
  have hevent : ∀ o ∈ orders, (row o).event = event := fun o ho => (hmatch o ho).event.trans (hmem o ho).2.1
  refine ⟨orders.map fun o => (row o).span, ?_, ?_, ?_, ?_⟩
  · intro s hs
    obtain ⟨o, ho, rfl⟩ := List.mem_map.1 hs
    exact hpos o ho
  · have hids : orders.Pairwise fun o o' => o.id ≠ o'.id :=
      List.pairwise_map.1 ((List.filter_sublist.map Order.id).nodup hl.db.ids)
    rw [List.pairwise_map]
    refine hids.imp_of_mem fun {o o'} ho ho' hne => disjoint_of_not_covers (hpos o ho)
      (hpos o' ho') fun b p hc hc' => hne ?_
    -- the two holds belong to different orders, and a seat has one owner
    have hown : ∀ o ∈ orders, (row o).span.Covers b p → w.Own event (.order o.id) (b, p) := fun o ho hc =>
      .inl ⟨row o, hrowmem o ho, hevent o ho, (hmatch o ho).order, hc⟩
    exact Owner.order.inj (hi.seats.owners _ _ _ (hown o ho hc) (hown o' ho' hc'))
  · intro s hs
    obtain ⟨o, ho, rfl⟩ := List.mem_map.1 hs
    exact ⟨row o, List.mem_filter.2 ⟨hrowmem o ho, by simpa using hevent o ho⟩, rfl⟩
  · rw [World.heldSum_add_owingSum, tally, ← horders, List.map_map]
    exact congrArg List.sum (List.map_congr_left fun o ho => (hmatch o ho).length)

/-- The free seats are the seats of the blocks that no hold covers, once no intent is unsettled and every
terminal order that still has to be released has its hold row. -/
theorem free_iff (hi : SeatBalance event zones total w)
    (hsettled : ∀ i ∈ w.log, i.event = event → w.unsettled i = false)
    (hrows : ∀ o ∈ w.db.orders, o.event = event → o.status.held = false → w.redis.released (.order o.id) = false →
      ∃ h ∈ w.db.seatHolds, h.order = o.id) (zone : ZoneId) (b : BlockId) (p : Int) :
    Free (w.redis.zones (event, zone)).parseRuns b p ↔ FreeSeat (w.db.zoneBlocks zone)
    (w.db.eventHolds event) b p := by
  have hlay := hi.seats.layout
  have hheld : ∀ h ∈ w.db.eventHolds event, h ∈ w.db.seatHolds ∧ h.event = event := by
    intro h hh
    simpa [Db.eventHolds] using hh
  have hmemBlocks : ∀ blk, blk ∈ w.db.zoneBlocks zone ↔ blk ∈ w.db.seatBlocks ∧ blk.zone = zone := by
    intro blk
    rw [Db.zoneBlocks, List.mem_filter, decide_eq_true_eq]
  have howner : ∀ {c q}, w.Own event .free (c, q) → ∀ h ∈ w.db.eventHolds event, ¬ h.span.Covers c q := by
    intro c q hfree h hh hc
    obtain ⟨hh, hev⟩ := hheld h hh
    have hown : w.Own event (.order h.order) (c, q) := .inl ⟨h, hh, hev, rfl, hc⟩
    cases hi.seats.owners _ _ _ hfree hown
  constructor
  · intro hfree
    obtain ⟨blk, hblk, hid, hz, h0, hcap⟩ := hlay.of_free hfree
    exact ⟨⟨blk, (hmemBlocks blk).2 ⟨hblk, hz⟩, hid.symm, h0, hcap⟩, howner ⟨zone, hfree⟩⟩
  · rintro ⟨⟨blk, hblk, rfl, h0, hcap⟩, hclear⟩
    obtain ⟨hblk, hz⟩ := (hmemBlocks blk).1 hblk
    obtain ⟨spans, hpos, hdisj, hspans, hsum⟩ := hi.outstanding_seats hrows
    set whole := w.db.seatBlocks.map fun blk => (⟨blk.id, 0, blk.capacity⟩ : Run) with hwhole
    have hcover : ∀ blk ∈ w.db.seatBlocks, ∀ q, 0 ≤ q → q < blk.capacity → Cover (· ∈ whole) blk.id q := by
      intro blk hblk q hlo hhi
      exact ⟨_, List.mem_map_of_mem hblk, rfl, hlo, by simpa [stop] using hhi⟩
    -- the free seats and the seats of the outstanding orders are as many as there are
    have hcount : (whole.map Span.length).sum ≤ ((freeRuns w event zones).map Span.length).sum +
        (spans.map Span.length).sum := by
      have hunsettled : w.unsettledSum (ofEvent event) = 0 := tally_eq_zero fun i him => by
        by_cases hev : i.event = event
        · rw [hsettled i him hev, Bool.and_false]
        · simp [ofEvent, hev]
      have hstock := hi.balanced.available
      rw [hi.counter, Option.some.injEq] at hstock
      rw [hi.sum_freeRuns, hsum, hwhole, List.map_map,
        show (Span.length ∘ fun blk : SeatBlock => (⟨blk.id, 0, blk.capacity⟩ : Run)) =
        SeatBlock.capacity from rfl, hi.venue.capacity, hstock, World.owed, hunsettled]
      omega
    have hin : ∀ c q, Cover (· ∈ freeRuns w event zones) c q → Cover (· ∈ whole) c q := by
      intro c q hc
      obtain ⟨zone', hfree⟩ := hi.cover_freeRuns.1 hc
      obtain ⟨blk', hblk', rfl, -, hlo, hhi⟩ := hlay.of_free hfree
      exact hcover blk' hblk' q hlo hhi
    have hin' : ∀ c q, Cover (· ∈ spans) c q → Cover (· ∈ whole) c q := by
      rintro c q ⟨s, hs, hc⟩
      obtain ⟨h, hh, rfl⟩ := hspans s hs
      obtain ⟨hh, hev⟩ := hheld h hh
      obtain ⟨blk', hblk', hid, -, -, hlo, hhi⟩ := hi.seats.fitting.hold h hh hev
      obtain ⟨hb, h1, h2⟩ := hc
      rw [← hb, ← hid]
      exact hcover blk' hblk' q (by omega) (by omega)
    have hno : ∀ c q, Cover (· ∈ freeRuns w event zones) c q → ¬ Cover (· ∈ spans) c q := by
      rintro c q hfree ⟨s, hs, hc⟩
      obtain ⟨h, hh, rfl⟩ := hspans s hs
      exact howner (hi.cover_freeRuns.1 hfree) h hh hc
    have hwpos : ∀ s ∈ whole, 0 ≤ s.length := by
      intro s hs
      obtain ⟨blk', -, rfl⟩ := List.mem_map.1 hs
      exact blk'.capacity_pos.le
    have hor := covers_of_sum_le (fun s hs => (hi.freeRuns_pos hs).le) hi.freeRuns_disjoint
      (fun s hs => (hpos s hs).le) hdisj hwpos
      (blocks_disjoint hlay.blocks) hin hin' hno hcount blk.id p (hcover blk hblk p h0 hcap)
    rcases hor with hfree | ⟨s, hs, hc⟩
    · obtain ⟨zone', hfree⟩ := hi.cover_freeRuns.1 hfree
      obtain ⟨blk', hblk', hid', hz', -⟩ := hlay.of_free hfree
      obtain rfl := hlay.zone_unique hblk hblk' hid'.symm
      rw [← hz, hz']
      exact hfree
    · obtain ⟨h, hh, rfl⟩ := hspans s hs
      exact absurd hc (hclear h hh)

theorem rebuildable (hi : SeatBalance event zones total w) (zone : ZoneId) :
    Rebuildable (w.db.zoneBlocks zone) (w.db.eventHolds event) where
  ids := (List.filter_sublist.map _).nodup hi.seats.layout.blocks
  fits b hb h hh hblock := by
    simp only [Db.eventHolds, List.mem_filter, decide_eq_true_eq] at hh
    obtain ⟨blk, hblk, hid, -, hlen, h0, hcap⟩ := hi.seats.fitting.hold h hh.1 hh.2
    rw [hi.seats.layout.zone_unique hblk (List.mem_filter.1 hb).1 (hid.trans hblock)] at hcap
    exact ⟨hlen, h0, hcap⟩

/-- Then the runs of a zone are those a rebuild would write. -/
theorem mem_parseRuns_iff (hi : SeatBalance event zones total w)
    (hsettled : ∀ i ∈ w.log, i.event = event → w.unsettled i = false)
    (hrows : ∀ o ∈ w.db.orders, o.event = event → o.status.held = false → w.redis.released (.order o.id) = false →
      ∃ h ∈ w.db.seatHolds, h.order = o.id) (zone : ZoneId) (run : Run) :
    run ∈ (w.redis.zones (event, zone)).parseRuns ↔ run ∈ rebuiltRuns (w.db.zoneBlocks zone)
    (w.db.eventHolds event) := by
  rw [mem_rebuiltRuns_iff (hi.rebuildable zone)]
  exact (hi.seats.layout.zone zone).maximal.mem_iff_component (hi.free_iff hsettled hrows zone) run

end SeatBalance

end Ticketing
