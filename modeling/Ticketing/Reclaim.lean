import Ticketing.Base.Exec
import Ticketing.SeatDrift

/-!
# The reclaim pass

`reclaim_stale_order_intents` lists the stale entries of the pending list and handles them one after the
other.  An entry that has been delivered too often goes to `_dead_letter_intent` and is acknowledged, any
other is persisted again.  Only the second branch catches what is raised.  Whatever the first raises ends the
pass: the entries behind it have to wait, and the entry itself, which by then may already stand in the
dead-letter stream, stays in the pending list and comes back in the next pass.

The fields of an entry are texts.  `Faults` says for one entry which of the calls made for it raise, and the
other processes move between two entries.
-/

namespace Ticketing

open Exec

/-! ### Entries -/

structure PendingEntry where
  id : StreamId
  fields : Hash String String
  delivered : Nat

/-- The calls that raise while one entry is handled; `integrity` is the `IntegrityError` that
`_persist_intent` catches. -/
structure Faults where
  xclaim : Bool := false
  insert : Bool := false
  integrity : Bool := false
  existing : Bool := false
  xadd : Bool := false
  refund : Bool := false
  markFailed : Bool := false
  ack : Bool := false
deriving DecidableEq

/-- A row of `XPENDING`. -/
structure Listed where
  id : StreamId
  timesDelivered : Nat
deriving DecidableEq

/-- `fields.get(name) or None`. -/
def textField (fields : Hash String String) (name : String) : Option String := (fields.lookup name).filter (· ≠ "")

/-- `int(fields[name])`. -/
def intField (fields : Hash String String) (name : String) : Option Int := (fields.lookup name).bind readInt

/-- `UUID` and the bounds of a pass. -/
structure ReclaimSettings where
  uuid : String → Option Key
  maxDeliveries : Nat := 5
  count : Nat := 500

def ReclaimSettings.keyOf (cfg : ReclaimSettings) (fields : Hash String String) : Option Key :=
  (fields.lookup "idempotency_key").bind cfg.uuid

/-! ### Persisting an entry again -/

inductive PersistAnswer where
  | ok
  | duplicate
  | failed
deriving DecidableEq

/-- `_persist_intent` on the keys that have an order: its answer and the keys after it; `none` raises. -/
def persistIntent (cfg : ReclaimSettings) (fields : Hash String String) (persisted : List Key) (f : Faults) :
    Option (PersistAnswer × List Key) :=
  let block := textField fields "block_id"
  if (textField fields "zone_id").isSome ≠ block.isSome then some (.failed, persisted)
  else
    let seat := if block.isSome then ["zone_id", "block_id", "start_pos"] else []
    ((["user_id", "event_id", "quantity", "total_price_cents"] ++ seat).mapM (intField fields)).bind fun _ =>
      (cfg.keyOf fields).bind fun key =>
        if f.insert then none
        else if key ∈ persisted then some (.duplicate, persisted)
        else if f.integrity then some (.failed, persisted)
        else some (.ok, key :: persisted)

/-! ### Dead letters -/

/-- What the dead-letter path gives back. -/
inductive Refund where
  /-- A block without a zone: nothing can be given back. -/
  | noZone
  /-- A field that is missing or no number: raises. -/
  | malformed
  | seats (a : ReleaseSeatsArgs)
  | quantity (a : ReleaseArgs)

def refundOf (fields : Hash String String) (key : Key) : Refund :=
  (textField fields "block_id").elim
    (Option.getD (do
      let event ← intField fields "event_id"
      let user ← intField fields "user_id"
      let quantity ← intField fields "quantity"
      pure (.quantity ⟨event.toNat, user.toNat, quantity, .deadLetter key⟩)) .malformed)
    fun block => (textField fields "zone_id").elim .noZone fun zone =>
      Option.getD (do
        let event ← intField fields "event_id"
        let zone ← readInt zone
        let user ← intField fields "user_id"
        let block ← readInt block
        let start ← intField fields "start_pos"
        let quantity ← intField fields "quantity"
        pure (.seats ⟨event.toNat, zone.toNat, user.toNat, block.toNat, start, quantity, .deadLetter key⟩)) .malformed

/-- The replies that `release_seats` turns into `SeatReleaseOverlap`. -/
def ReleaseSeatsReply.raises : ReleaseSeatsReply → Bool
  | .overlap .. => true
  | .oob _ => true
  | _ => false

/-- The refund on Redis; `none` raises, for a seated one also on `OVERLAP` and `OOB`. -/
def Refund.run (f : Faults) (r : Redis) : Refund → Option Redis
  | .noZone => some r
  | .malformed => none
  | .seats a => if f.refund = false ∧ (releaseSeats r a).1.raises = false then some (releaseSeats r a).2 else none
  | .quantity a => if f.refund = false then some (releaseQuantity r a).2 else none

/-- How a pass is through with an entry. -/
inductive Handling where
  /-- `XCLAIM` raised. -/
  | claimError
  /-- `XCLAIM` gave nothing. -/
  | unclaimed
  /-- Persisted again, whatever came of it. -/
  | retried
  | deadLettered
  /-- The dead-letter path or its acknowledgement raised. -/
  | raised
deriving DecidableEq

/-- The state of a pass and of what it works on.  `persisted` are the keys that have an order, `dead` the
entries added to the dead-letter stream; `listing` and `handled` tell what the pass was given and how far it
came, and are not read. -/
structure Reclaimer where
  redis : Redis
  pending : List PendingEntry
  lastId : StreamId
  persisted : List Key := []
  dead : List StreamId := []
  todo : List Listed := []
  listing : List Listed := []
  handled : List (Listed × Handling) := []

namespace Reclaimer

def entry (s : Reclaimer) (id : StreamId) : Option PendingEntry := s.pending.find? fun e => e.id = id

/-- `XCLAIM` counts a delivery. -/
def redeliver (s : Reclaimer) (id : StreamId) : Reclaimer :=
  { s with pending := s.pending.map fun e => if e.id = id then { e with delivered := e.delivered + 1 } else e }

/-- `_ack_and_remove`. -/
def ackAndRemove (s : Reclaimer) (id : StreamId) : Reclaimer :=
  { s with pending := s.pending.filter fun e => e.id ≠ id }

/-- The pass goes on to its next entry. -/
def done (s : Reclaimer) (p : Listed) (h : Handling) : Reclaimer :=
  { s with todo := s.todo.tail, handled := s.handled ++ [(p, h)] }

/-- The exception leaves the loop. -/
def abort (s : Reclaimer) (p : Listed) (h : Handling) : Reclaimer :=
  { s with todo := [], handled := s.handled ++ [(p, h)] }

/-- `_dead_letter_intent`: the state it leaves, and whether it returns. -/
def deadLetter (cfg : ReclaimSettings) (s : Reclaimer) (e : PendingEntry) (f : Faults) : Reclaimer × Bool :=
  (cfg.keyOf e.fields).elim (s, false) fun key =>
    if f.existing ∨ f.xadd then (s, false)
    else
      let parked := { s with dead := s.dead ++ [e.id] }
      let refunded := if key ∈ s.persisted then some s.redis else (refundOf e.fields key).run f s.redis
      refunded.elim (parked, false) fun r =>
        if f.markFailed then ({ parked with redis := r }, false)
        else ({ parked with redis := r.setClaim key .failed }, true)

/-- One entry of the loop; `idle` tells whether it is still stale when it is claimed. -/
def handle (cfg : ReclaimSettings) (s : Reclaimer) (p : Listed) (idle : Bool) (f : Faults) : Reclaimer :=
  if f.xclaim then s.abort p .claimError
  else
    ((s.entry p.id).filter fun _ => idle).elim (s.done p .unclaimed) fun e =>
      let claimed := s.redeliver p.id
      if cfg.maxDeliveries ≤ p.timesDelivered then
        let out := claimed.deadLetter cfg e f
        if out.2 ∧ f.ack = false then (out.1.ackAndRemove p.id).done p .deadLettered else out.1.abort p .raised
      else
        -- whatever is raised here is caught
        (persistIntent cfg e.fields s.persisted f).elim (claimed.done p .retried) fun out =>
          let stored := { claimed with persisted := out.2 }
          if out.1 ≠ .failed ∧ f.ack = false then (stored.ackAndRemove p.id).done p .retried
            else stored.done p .retried

end Reclaimer

inductive ReclaimAct where
  /-- A pass begins: `XPENDING` lists the entries that are stale. -/
  | list (stale : List StreamId)
  /-- The pass handles its next entry. -/
  | entry (idle : Bool) (f : Faults)
  /-- An intent is delivered for the first time. -/
  | arrive (fields : Hash String String)
  /-- Another process claims an entry, or is through with it. -/
  | redeliver (id : StreamId)
  | remove (id : StreamId)
  /-- Other processes have written to Redis or inserted orders. -/
  | others (redis : Redis) (persisted : List Key)

/-- The step handles an entry. -/
def ReclaimAct.handles : ReclaimAct → Option (Bool × Faults)
  | .entry idle f => some (idle, f)
  | _ => none

def Reclaimer.step (cfg : ReclaimSettings) (s : Reclaimer) : ReclaimAct → Option Reclaimer
  | .list stale =>
    if s.todo = [] then
      let listing := ((s.pending.filter fun e => e.id ∈ stale).take cfg.count).map fun e => ⟨e.id, e.delivered⟩
      some { s with todo := listing, listing := listing, handled := [] }
    else none
  | .entry idle f => s.todo.head?.map fun p => s.handle cfg p idle f
  | .arrive fields => some { s with pending := s.pending ++ [⟨s.lastId + 1, fields, 1⟩], lastId := s.lastId + 1 }
  | .redeliver id => some (s.redeliver id)
  | .remove id => some (s.ackAndRemove id)
  | .others redis persisted => some { s with redis := redis, persisted := persisted }

/-! ### What a pass promises -/

/-- The seats or the quantity can be given back: the fields are there, and the interval of a seated refund
lies in its block and meets no free run, unless it has been given back before. -/
def Refund.Accepted (f : Faults) (r : Redis) : Refund → Prop
  | .noZone => True
  | .malformed => False
  | .seats a => f.refund = false ∧ (r.released a.marker = true ∨
    (r.zones (a.event, a.zone)).outOfBounds a.block a.start (a.start + a.length) = none ∧
      (r.zones (a.event, a.zone)).overlapping a.block a.start (a.start + a.length) = none)
  | .quantity _ => f.refund = false

instance (f : Faults) (r : Redis) : (refund : Refund) → Decidable (refund.Accepted f r)
  | .noZone => isTrue trivial
  | .malformed => isFalse id
  | .seats _ => inferInstanceAs (Decidable (_ ∧ (_ ∨ _ ∧ _)))
  | .quantity _ => inferInstanceAs (Decidable (_ = _))

theorem ReleaseSeatsReply.raises_releaseSeats (r : Redis) (a : ReleaseSeatsArgs) :
    (releaseSeats r a).1.raises = false ↔ r.released a.marker = true ∨
      (r.zones (a.event, a.zone)).outOfBounds a.block a.start (a.start + a.length) = none ∧
        (r.zones (a.event, a.zone)).overlapping a.block a.start (a.start + a.length) = none := by
  unfold releaseSeats
  cases r.released a.marker with
  | true => simp [ReleaseSeatsReply.raises]
  | false =>
    simp only [Bool.false_eq_true, if_false, false_or]
    cases (r.zones (a.event, a.zone)).outOfBounds a.block a.start (a.start + a.length) with
    | some capacity => simp [ReleaseSeatsReply.raises]
    | none =>
      cases (r.zones (a.event, a.zone)).overlapping a.block a.start (a.start + a.length) with
      | some run => simp [ReleaseSeatsReply.raises]
      | none => simp [ReleaseSeatsReply.raises]

theorem Refund.run_isSome_iff (f : Faults) (r : Redis) (refund : Refund) : (refund.run f r).isSome ↔
    refund.Accepted f r := by
  cases refund with
  | noZone => simp [Refund.run, Refund.Accepted]
  | malformed => simp [Refund.run, Refund.Accepted]
  | seats a =>
    rw [Refund.run, Refund.Accepted, ← ReleaseSeatsReply.raises_releaseSeats]
    split <;> simp [*]
  | quantity a =>
    rw [Refund.run, Refund.Accepted]
    split <;> simp [*]

namespace Reclaimer

variable {cfg : ReclaimSettings} {s s' : Reclaimer} {p : Listed} {idle : Bool} {f : Faults}

/-- The dead-letter path runs to its end: its calls answer, the key can be read, and what is to be given back
can be given back. -/
def Settles (cfg : ReclaimSettings) (s : Reclaimer) (e : PendingEntry) (f : Faults) : Prop :=
  f.existing = false ∧ f.xadd = false ∧ f.markFailed = false ∧ f.ack = false ∧
    ∃ key ∈ cfg.keyOf e.fields, key ∈ s.persisted ∨ (refundOf e.fields key).Accepted f s.redis

instance (cfg : ReclaimSettings) (s : Reclaimer) (e : PendingEntry) (f : Faults) : Decidable (Settles cfg s e f) :=
  inferInstanceAs (Decidable (_ ∧ _ ∧ _ ∧ _ ∧ ∃ key ∈ cfg.keyOf e.fields, _))

/-- The step raises nothing that stops the pass before its end or keeps an exhausted entry: `XCLAIM` raises at
most for the last entry, and the dead-letter path of an entry runs to its end. -/
def Smooth (cfg : ReclaimSettings) (s : Reclaimer) (a : ReclaimAct) : Prop :=
  ∀ x ∈ a.handles, ∀ p ∈ s.todo.head?,
    (x.2.xclaim = true → s.todo.tail = []) ∧
      (x.2.xclaim = false → x.1 = true → cfg.maxDeliveries ≤ p.timesDelivered → ∀ e ∈ s.entry p.id,
        Settles cfg s e x.2)

instance (cfg : ReclaimSettings) (s : Reclaimer) (a : ReclaimAct) : Decidable (Smooth cfg s a) :=
  inferInstanceAs (Decidable (∀ x ∈ a.handles, _))

/-- A pass that is over has come to every entry it listed; an exhausted entry it could claim has left the
pending list; and no entry has been added twice to the dead-letter stream. -/
structure Unblocked (cfg : ReclaimSettings) (s : Reclaimer) : Prop where
  reached : s.todo = [] → ∀ p ∈ s.listing, ∃ h, (p, h) ∈ s.handled
  settled : ∀ p h, (p, h) ∈ s.handled → h = .raised ∨ cfg.maxDeliveries ≤ p.timesDelivered →
    h = .unclaimed ∨ h = .claimError ∨ (h = .deadLettered ∧ p.id ∈ s.dead ∧ ∀ e ∈ s.pending, e.id ≠ p.id)
  once : s.dead.Nodup

/-! ### One entry -/

/-- What of the state the promise is about. -/
structure View where
  ids : List StreamId
  lastId : StreamId
  dead : List StreamId
  todo : List Listed
  listing : List Listed
  handled : List (Listed × Handling)

def view (s : Reclaimer) : View := ⟨s.pending.map PendingEntry.id, s.lastId, s.dead, s.todo, s.listing, s.handled⟩

theorem view_redeliver (s : Reclaimer) (id : StreamId) : (s.redeliver id).view = s.view := by
  have hids : (s.redeliver id).pending.map PendingEntry.id = s.pending.map PendingEntry.id := by
    unfold redeliver
    rw [List.map_map]
    refine List.map_congr_left fun e _ => ?_
    simp only [Function.comp_apply]
    split <;> rfl
  unfold view
  rw [hids]
  rfl

theorem view_done (s : Reclaimer) (p : Listed) (h : Handling) :
    (s.done p h).view = { s.view with todo := s.view.todo.tail, handled := s.view.handled ++ [(p, h)] } := rfl

theorem view_ackAndRemove (s : Reclaimer) (id : StreamId) :
    (s.ackAndRemove id).view = { s.view with ids := s.view.ids.filter fun i => i ≠ id } := by
  unfold view ackAndRemove
  rw [List.filter_map]
  rfl

private theorem deadLetter_of_key {e : PendingEntry} {key : Key} (hkey : cfg.keyOf e.fields = some key) :
    s.deadLetter cfg e f =
      if f.existing ∨ f.xadd then (s, false)
      else (if key ∈ s.persisted then some s.redis else (refundOf e.fields key).run f s.redis).elim
        ({ s with dead := s.dead ++ [e.id] }, false) fun r =>
          if f.markFailed then ({ s with dead := s.dead ++ [e.id], redis := r }, false)
          else ({ s with dead := s.dead ++ [e.id], redis := r.setClaim key .failed }, true) := by
  rw [deadLetter, hkey]
  rfl

/-- The dead-letter path returns exactly if it settles, and then it has added the entry. -/
private theorem deadLetter_cases (cfg : ReclaimSettings) (s : Reclaimer) (e : PendingEntry) (f : Faults) :
    ((s.deadLetter cfg e f).2 = true ∧ f.ack = false ↔ Settles cfg s e f) ∧
      ((s.deadLetter cfg e f).2 = true → (s.deadLetter cfg e f).1.view =
        { s.view with dead := s.dead ++ [e.id] }) := by
  unfold Settles
  cases hkey : cfg.keyOf e.fields with
  | none =>
    have hnone : s.deadLetter cfg e f = (s, false) := by rw [deadLetter, hkey]; rfl
    rw [hnone]
    simp
  | some key =>
    rw [deadLetter_of_key hkey]
    by_cases hcalls : f.existing = true ∨ f.xadd = true
    · rw [if_pos hcalls]
      refine ⟨⟨fun h => (by cases h.1), ?_⟩, fun h => (by cases h)⟩
      rintro ⟨he, hx, -⟩
      rcases hcalls with h | h
      · rw [he] at h; cases h
      · rw [hx] at h; cases h
    · rw [if_neg hcalls]
      rw [not_or, Bool.not_eq_true, Bool.not_eq_true] at hcalls
      have hrefund : (if key ∈ s.persisted then some s.redis else (refundOf e.fields key).run f s.redis).isSome ↔
          key ∈ s.persisted ∨ (refundOf e.fields key).Accepted f s.redis := by
        rw [← Refund.run_isSome_iff]
        split <;> simp [*]
      cases hr : (if key ∈ s.persisted then some s.redis else (refundOf e.fields key).run f s.redis) with
      | none =>
        rw [hr] at hrefund
        refine ⟨⟨fun h => (by cases h.1), ?_⟩, fun h => (by cases h)⟩
        rintro ⟨-, -, -, -, key', hkey', hok⟩
        obtain rfl := Option.some.inj hkey'
        exact absurd (hrefund.2 hok) (by simp)
      | some r =>
        rw [hr] at hrefund
        rw [Option.elim_some]
        cases hmark : f.markFailed with
        | true =>
          refine ⟨⟨fun h => (by cases h.1), ?_⟩, fun h => (by cases h)⟩
          rintro ⟨-, -, h, -⟩
          cases h
        | false =>
          refine ⟨⟨fun h => ?_, fun h => ⟨rfl, h.2.2.2.1⟩⟩, fun _ => rfl⟩
          exact ⟨hcalls.1, hcalls.2, rfl, h.2, key, rfl, hrefund.1 rfl⟩

/-- What becomes of an entry. -/
theorem handle_cases (cfg : ReclaimSettings) (s : Reclaimer) (p : Listed) (idle : Bool) (f : Faults) :
    (f.xclaim = true ∧ (s.handle cfg p idle f).view = (s.abort p .claimError).view) ∨
    (f.xclaim = false ∧ (idle = true → s.entry p.id = none) ∧
      (s.handle cfg p idle f).view = (s.done p .unclaimed).view) ∨
    (f.xclaim = false ∧ idle = true ∧ ∃ e, s.entry p.id = some e ∧
      ((cfg.maxDeliveries ≤ p.timesDelivered ∧ Settles cfg s e f ∧
          (s.handle cfg p idle f).view =
            { (s.done p .deadLettered).view with
              ids := s.view.ids.filter (fun i => i ≠ p.id), dead := s.dead ++ [p.id] }) ∨
        (cfg.maxDeliveries ≤ p.timesDelivered ∧ ¬ Settles cfg s e f ∧
          (s.handle cfg p idle f).todo = [] ∧ (p, .raised) ∈ (s.handle cfg p idle f).handled) ∨
        (p.timesDelivered < cfg.maxDeliveries ∧
          ((s.handle cfg p idle f).view = (s.done p .retried).view ∨
            (s.handle cfg p idle f).view =
              { (s.done p .retried).view with ids := s.view.ids.filter fun i => i ≠ p.id })))) := by
  cases hx : f.xclaim with
  | true =>
    refine .inl ⟨rfl, ?_⟩
    rw [handle, if_pos hx]
  | false =>
    rw [handle, if_neg (by simp [hx])]
    cases hentry : (s.entry p.id).filter fun _ => idle with
    | none =>
      refine .inr (.inl ⟨rfl, fun hidle => ?_, rfl⟩)
      cases he : s.entry p.id with
      | none => rfl
      | some e => simp [he, hidle] at hentry
    | some e =>
      obtain ⟨hentry, hidle⟩ := Option.filter_eq_some_iff.1 hentry
      refine .inr (.inr ⟨rfl, hidle, e, hentry, ?_⟩)
      have hid : e.id = p.id := by simpa using List.find?_some hentry
      have hview := s.view_redeliver p.id
      rw [Option.elim_some]
      by_cases hmax : cfg.maxDeliveries ≤ p.timesDelivered
      · obtain ⟨hiff, hparked⟩ := deadLetter_cases cfg (s.redeliver p.id) e f
        simp only [if_pos hmax]
        by_cases hok : ((s.redeliver p.id).deadLetter cfg e f).2 = true ∧ f.ack = false
        · refine .inl ⟨hmax, hiff.1 hok, ?_⟩
          rw [if_pos hok]
          have hpark := hparked hok.1
          rw [hid, hview] at hpark
          rw [view_done, view_ackAndRemove, hpark]
          rfl
        · refine .inr (.inl ⟨hmax, fun hs => hok (hiff.2 hs), ?_⟩)
          rw [if_neg hok]
          exact ⟨rfl, List.mem_append_right _ (List.mem_singleton.2 rfl)⟩
      · refine .inr (.inr ⟨not_le.1 hmax, ?_⟩)
        simp only [if_neg hmax]
        cases persistIntent cfg e.fields s.persisted f with
        | none =>
          refine .inl ?_
          rw [Option.elim_none, view_done, hview]
          rfl
        | some out =>
          have hstored : ({ s.redeliver p.id with persisted := out.2 } : Reclaimer).view = s.view := hview
          rw [Option.elim_some]
          split
          · refine .inr ?_
            rw [view_done, view_ackAndRemove, hstored]
            rfl
          · refine .inl ?_
            rw [view_done, hstored]
            rfl

/-! ### Runs of passes -/

/-- What every step keeps as long as nothing stops a pass. -/
structure Inv (cfg : ReclaimSettings) (v : View) : Prop where
  ids : v.ids.Nodup
  bound : ∀ i ∈ v.ids, i ≤ v.lastId
  deadBound : ∀ i ∈ v.dead, i ≤ v.lastId
  apart : ∀ i ∈ v.dead, i ∉ v.ids
  once : v.dead.Nodup
  listing : v.listing = v.handled.map Prod.fst ++ v.todo
  distinct : v.listing.Nodup
  settled : ∀ x ∈ v.handled, x.2 ≠ .raised ∧ (cfg.maxDeliveries ≤ x.1.timesDelivered →
    x.2 = .unclaimed ∨ x.2 = .claimError ∨ x.2 = .deadLettered ∧ x.1.id ∈ v.dead)

variable {v : View}

theorem Inv.unblocked (h : Inv cfg s.view) : Unblocked cfg s where
  reached := by
    intro htodo p hp
    have hlisting : s.listing = s.handled.map Prod.fst ++ s.todo := h.listing
    rw [hlisting, htodo, List.append_nil] at hp
    obtain ⟨⟨p', hd⟩, hx, rfl⟩ := List.mem_map.1 hp
    exact ⟨hd, hx⟩
  settled := by
    intro p hd hx hwhen
    obtain ⟨hraised, hsettled⟩ := h.settled (p, hd) hx
    rcases hsettled (hwhen.resolve_left hraised) with hu | hc | ⟨hdl, hdead⟩
    · exact .inl hu
    · exact .inr (.inl hc)
    · refine .inr (.inr ⟨hdl, hdead, fun e he heq => h.apart p.id hdead ?_⟩)
      exact heq ▸ List.mem_map_of_mem he
  once := h.once

/-- Entries leave the pending list. -/
private theorem Inv.filter_ids (h : Inv cfg v) (q : StreamId → Bool) : Inv cfg { v with ids := v.ids.filter q } :=
  { h with
    ids := h.ids.filter q
    bound := fun i hi => h.bound i (List.mem_of_mem_filter hi)
    apart := fun i hi hmem => h.apart i hi (List.mem_of_mem_filter hmem) }

/-- The pass is through with its next entry. -/
private theorem Inv.next {rest : List Listed} (h : Inv cfg v) (hd : Handling) (htodo : v.todo = p :: rest)
    (hraised : hd ≠ .raised)
    (hset : cfg.maxDeliveries ≤ p.timesDelivered → hd = .unclaimed ∨ hd = .claimError ∨ hd = .deadLettered ∧
      p.id ∈ v.dead) :
    Inv cfg { v with todo := rest, handled := v.handled ++ [(p, hd)] } :=
  { h with
    listing := by
      show v.listing = (v.handled ++ [(p, hd)]).map Prod.fst ++ rest
      rw [h.listing, htodo, List.map_append, List.append_assoc]
      rfl
    settled := by
      intro x hx
      rcases List.mem_append.1 hx with hx | hx
      · exact h.settled x hx
      · obtain rfl := List.mem_singleton.1 hx
        exact ⟨hraised, hset⟩ }

/-- The entry is added to the dead-letter stream as it leaves the pending list. -/
private theorem Inv.park {id : StreamId} (h : Inv cfg v) (hid : id ∈ v.ids) :
    Inv cfg { v with ids := v.ids.filter (fun i => i ≠ id), dead := v.dead ++ [id] } :=
  { h.filter_ids fun i => i ≠ id with
    deadBound := by
      intro i hi
      rcases List.mem_append.1 hi with hi | hi
      · exact h.deadBound i hi
      · exact List.mem_singleton.1 hi ▸ h.bound id hid
    apart := by
      intro i hi hmem
      have hmem := List.mem_filter.1 hmem
      rcases List.mem_append.1 hi with hi | hi
      · exact h.apart i hi hmem.1
      · exact of_decide_eq_true hmem.2 (List.mem_singleton.1 hi)
    once := by
      refine List.nodup_append'.2 ⟨h.once, List.nodup_singleton id, fun i hi hi' => ?_⟩
      exact h.apart i hi (List.mem_singleton.1 hi' ▸ hid)
    settled := fun x hx => ⟨(h.settled x hx).1, fun hmax => ((h.settled x hx).2 hmax).imp_right
      fun h => h.imp_right fun h => ⟨h.1, List.mem_append_left _ h.2⟩⟩ }

private theorem mem_ids_of_entry {id : StreamId} {e : PendingEntry} (h : s.entry id = some e) : id ∈ s.view.ids := by
  have hid : e.id = id := by simpa using List.find?_some h
  exact hid ▸ List.mem_map_of_mem (List.mem_of_find?_eq_some h)

private theorem Inv.handle {rest : List Listed} (h : Inv cfg s.view) (htodo : s.todo = p :: rest)
    (hsmooth : Smooth cfg s (.entry idle f)) : Inv cfg (s.handle cfg p idle f).view := by
  obtain ⟨hlast, hsettles⟩ := hsmooth (idle, f) rfl p (by rw [htodo]; rfl)
  rcases handle_cases cfg s p idle f with ⟨hx, hv⟩ | ⟨-, -, hv⟩ | ⟨hx, hidle, e, he, hcase⟩
  · -- only the last entry may fail to be claimed
    obtain rfl : rest = [] := by simpa [htodo] using hlast hx
    rw [hv]
    exact h.next .claimError htodo (by simp) fun _ => .inr (.inl rfl)
  · rw [hv, view_done]
    have hnext := h.next .unclaimed htodo (by simp) fun _ => .inl rfl
    rwa [show s.view.todo.tail = rest from by rw [show s.view.todo = s.todo from rfl, htodo, List.tail_cons]]
  · have htail : s.view.todo.tail = rest := by rw [show s.view.todo = s.todo from rfl, htodo, List.tail_cons]
    rcases hcase with ⟨hmax, -, hv⟩ | ⟨hmax, hnot, -⟩ | ⟨hlt, hv⟩
    · rw [hv]
      have hnext := (h.park (mem_ids_of_entry he)).next .deadLettered htodo (by simp)
        fun _ => .inr (.inr ⟨rfl, List.mem_append_right _ (List.mem_singleton.2 rfl)⟩)
      rw [view_done, htail]
      exact hnext
    · exact absurd (hsettles hx hidle hmax e he) hnot
    · have hnext := h.next .retried htodo (by simp) fun hmax => absurd hmax (not_le.2 hlt)
      rcases hv with hv | hv
      · rw [hv, view_done, htail]
        exact hnext
      · rw [hv, view_done, htail]
        exact hnext.filter_ids _

theorem Inv.step {a : ReclaimAct} (h : Inv cfg s.view) (hsmooth : Smooth cfg s a) (hstep : s.step cfg a = some s') :
    Inv cfg s'.view := by
  cases a with
  | list stale =>
    simp only [Reclaimer.step] at hstep
    split at hstep
    case isFalse => cases hstep
    case isTrue =>
      obtain rfl := Option.some.inj hstep
      refine { h with listing := rfl, distinct := ?_, settled := fun x hx => by cases hx }
      -- two rows of the listing have different ids
      have hids : (s.pending.map PendingEntry.id).Nodup := h.ids
      have hpend : s.pending.Pairwise fun e e' => e.id ≠ e'.id := List.pairwise_map.1 hids
      refine List.pairwise_map.2 (((hpend.filter _).take).imp fun {e e'} hne heq => hne ?_)
      exact congrArg Listed.id heq
  | entry idle f =>
    obtain ⟨p, hp, rfl⟩ := Option.map_eq_some_iff.1 hstep
    obtain ⟨rest, htodo⟩ := List.head?_eq_some_iff.1 hp
    exact h.handle htodo hsmooth
  | arrive fields =>
    obtain rfl := Option.some.inj hstep
    have hview : ∀ i, i ∈ (s.pending ++ [(⟨s.lastId + 1, fields, 1⟩ : PendingEntry)]).map PendingEntry.id →
        i ∈ s.view.ids ∨ i = s.lastId + 1 := by
      intro i hi
      rw [List.map_append, List.mem_append] at hi
      exact hi.imp_right List.mem_singleton.1
    have hfresh : s.lastId + 1 ∉ s.view.ids := fun hmem => absurd (h.bound _ hmem) (Nat.not_succ_le_self _)
    refine { h with
      ids := ?_, bound := ?_, deadBound := fun i hi => (h.deadBound i hi).trans (Nat.le_succ _), apart := ?_ }
    · show ((s.pending ++ [(⟨s.lastId + 1, fields, 1⟩ : PendingEntry)]).map PendingEntry.id).Nodup
      rw [List.map_append]
      refine List.nodup_append'.2 ⟨h.ids, List.nodup_singleton _, fun i hi hi' => ?_⟩
      obtain rfl : i = s.lastId + 1 := List.mem_singleton.1 hi'
      exact hfresh hi
    · intro i hi
      rcases hview i hi with hi | rfl
      · exact (h.bound i hi).trans (Nat.le_succ _)
      · exact le_refl _
    · intro i hi hmem
      rcases hview i hmem with hmem | rfl
      · exact h.apart i hi hmem
      · exact absurd (h.deadBound _ hi) (Nat.not_succ_le_self _)
  | redeliver id =>
    obtain rfl := Option.some.inj hstep
    rwa [view_redeliver]
  | remove id =>
    obtain rfl := Option.some.inj hstep
    rw [view_ackAndRemove]
    exact h.filter_ids _
  | others redis persisted =>
    obtain rfl := Option.some.inj hstep
    exact h

/-- A step that is not smooth leaves entries behind, or an exhausted entry in the pending list. -/
theorem Inv.blocked {a : ReclaimAct} (h : Inv cfg s.view) (hsmooth : ¬ Smooth cfg s a)
    (hstep : s.step cfg a = some s') :
    ¬ Unblocked cfg s' := by
  cases a with
  | entry idle f =>
    obtain ⟨p, hp, rfl⟩ := Option.map_eq_some_iff.1 hstep
    obtain ⟨rest, htodo⟩ := List.head?_eq_some_iff.1 hp
    intro hun
    refine hsmooth fun x hx p' hp' => ?_
    obtain rfl := Option.some.inj hx
    obtain rfl := Option.some.inj (hp.symm.trans hp')
    rcases handle_cases cfg s p idle f with ⟨hx, hv⟩ | ⟨hx, hnone, -⟩ | ⟨hx, -, e, he, hcase⟩
    · refine ⟨fun _ => ?_, fun hx' => absurd (hx.symm.trans hx') (by decide)⟩
      -- the pass is over, and it has not come to the entries behind
      have htodo'' : (s.handle cfg p idle f).todo = [] := congrArg View.todo hv
      have hlisting : (s.handle cfg p idle f).listing = s.listing := congrArg View.listing hv
      have hhandled : (s.handle cfg p idle f).handled = s.handled ++ [(p, .claimError)] := congrArg View.handled hv
      have hsplit : s.listing = s.handled.map Prod.fst ++ p :: rest := htodo ▸ h.listing
      rw [htodo, List.tail_cons]
      refine List.eq_nil_iff_forall_not_mem.2 fun q hq => ?_
      obtain ⟨hd, hmem⟩ := hun.reached htodo'' q (by rw [hlisting, hsplit]; simp [hq])
      have hdistinct : s.listing.Nodup := h.distinct
      rw [hsplit, List.nodup_append'] at hdistinct
      rw [hhandled, List.mem_append, List.mem_singleton] at hmem
      rcases hmem with hmem | hmem
      · exact hdistinct.2.2 (List.mem_map_of_mem (f := Prod.fst) hmem) (List.mem_cons_of_mem _ hq)
      · obtain ⟨rfl, -⟩ := Prod.mk.inj hmem
        exact (List.nodup_cons.1 hdistinct.2.1).1 hq
    · refine ⟨fun hx' => absurd (hx.symm.trans hx') (by decide), fun _ hidle _ e he => ?_⟩
      cases (hnone hidle).symm.trans he
    · refine ⟨fun hx' => absurd (hx.symm.trans hx') (by decide), fun _ _ hmax e' he' => ?_⟩
      obtain rfl := Option.some.inj (he.symm.trans he')
      rcases hcase with ⟨-, hsettles, -⟩ | ⟨-, -, -, hraised⟩ | ⟨hlt, -⟩
      · exact hsettles
      · -- the entry that raised is exhausted
        rcases hun.settled p .raised hraised (.inl rfl) with h | h | ⟨h, -⟩ <;> cases h
      · exact absurd hmax (not_le.2 hlt)
  | _ => exact absurd (fun x hx => by cases hx) hsmooth

/-- A step is smooth exactly if it leads to no blocked state. -/
private theorem Inv.smooth_iff {a : ReclaimAct} (h : Inv cfg s.view) :
    Smooth cfg s a ↔ ∀ s', s.step cfg a = some s' → Unblocked cfg s' := by
  constructor
  · exact fun hsmooth s' hstep => (h.step hsmooth hstep).unblocked
  · intro hun
    by_contra hsmooth
    cases hstep : s.step cfg a with
    | some s' => exact h.blocked hsmooth hstep (hun s' hstep)
    | none =>
      cases a with
      | entry idle f =>
        refine hsmooth fun x _ p hp => ?_
        rw [Reclaimer.step, hp] at hstep
        cases hstep
      | _ => exact hsmooth fun x hx => by cases hx

/-- No pass is running, and nothing has been added to the dead-letter stream yet. -/
def start (redis : Redis) (pending : List PendingEntry) (lastId : StreamId) (persisted : List Key) : Reclaimer where
  redis := redis
  pending := pending
  lastId := lastId
  persisted := persisted

section Runs

variable {redis : Redis} {pending : List PendingEntry} {lastId : StreamId} {persisted : List Key}
  {acts : List ReclaimAct}

/-- Whatever raises for one entry, the passes come to every other entry they list and clear every exhausted
entry they can claim, once: this holds in every state of a run exactly if each of its steps is smooth. -/
theorem reclaim_unblocked_iff_smooth (hids : (pending.map PendingEntry.id).Nodup)
    (hlast : ∀ e ∈ pending, e.id ≤ lastId) :
    Along (Reclaimer.step cfg) (Smooth cfg) (start redis pending lastId persisted) acts ↔
      Along (Reclaimer.step cfg) (fun s a => ∀ s', s.step cfg a = some s' → Unblocked cfg s')
        (start redis pending lastId persisted) acts := by
  have hstart : Inv cfg (start redis pending lastId persisted).view := by
    refine ⟨hids, fun i hi => ?_, by simp [view, start], by simp [view, start], List.nodup_nil, rfl, List.nodup_nil,
      fun x hx => by cases hx⟩
    obtain ⟨e, he, rfl⟩ := List.mem_map.1 hi
    exact hlast e he
  constructor
  · exact Along.of_invariant (I := fun s => Inv cfg s.view) (fun _ _ _ hsmooth hstep h => h.step hsmooth hstep)
      (fun _ _ h => h.smooth_iff.1) hstart
  · exact Along.of_invariant (I := fun s => Inv cfg s.view)
      (fun _ _ _ hun hstep h => h.step (h.smooth_iff.2 hun) hstep)
      (fun _ _ h => h.smooth_iff.2) hstart

end Runs

/-! ### Samples -/

/-- `UUID` on 32 hexadecimal digits, with or without hyphens. -/
private def hexUuid (text : String) : Option Key :=
  let hex := text.toList.filter fun c => c ≠ '-'
  let digits := "0123456789abcdef".toList
  if hex.length = 32 ∧ hex.all (· ∈ digits) then some (hex.foldl (fun n c => 16 * n + digits.idxOf c) 0) else none

private def sampleCfg : ReclaimSettings := { uuid := hexUuid }

private def generalIntent (key : String) : Hash String String :=
  Hash.ofList [("user_id", "8"), ("event_id", "1"), ("quantity", "2"), ("total_price_cents", "100"),
    ("idempotency_key", key)]

private def seatedIntent (key : String) : Hash String String :=
  Hash.ofList [("user_id", "8"), ("event_id", "1"), ("quantity", "2"), ("total_price_cents", "100"),
    ("idempotency_key", key), ("zone_id", "1"), ("block_id", "1"), ("start_pos", "1")]

private def firstKey : String := "00000000-0000-0000-0000-000000000001"
private def secondKey : String := "00000000-0000-0000-0000-000000000002"

/-- A pass over an entry whose fields cannot be read, an exhausted one and a good one: the first is tried and
kept, the second goes to the dead-letter stream, the third is persisted. -/
theorem reclaim_unblocked_iff_smooth_three_entries :
    ∃ s, exec (Reclaimer.step sampleCfg)
        (start sampleRedis [⟨1, ∅, 1⟩, ⟨2, generalIntent firstKey, 5⟩, ⟨3, generalIntent secondKey, 1⟩] 3 [])
        [.list [1, 2, 3], .entry true {}, .entry true {}, .entry true {}] = some s ∧
      s.dead = [2] ∧ s.pending.map PendingEntry.id = [1] ∧ Unblocked sampleCfg s := by
  obtain ⟨s, hs, hp⟩ := exec_any (Reclaimer.step sampleCfg)
    (start sampleRedis [⟨1, ∅, 1⟩, ⟨2, generalIntent firstKey, 5⟩, ⟨3, generalIntent secondKey, 1⟩] 3 [])
    ([.list [1, 2, 3], .entry true {}, .entry true {}] ++ [.entry true {}])
    (fun s => s.dead = [2] ∧ s.pending.map PendingEntry.id = [1]) (by decide +kernel)
  rw [decide_eq_true_eq] at hp
  have halong := (@reclaim_unblocked_iff_smooth sampleCfg sampleRedis
    [⟨1, ∅, 1⟩, ⟨2, generalIntent firstKey, 5⟩, ⟨3, generalIntent secondKey, 1⟩] 3 []
    ([.list [1, 2, 3], .entry true {}, .entry true {}] ++ [.entry true {}]) (by decide) (by decide)).1
      (.of_check (by decide +kernel))
  obtain ⟨t, ht, hlast⟩ := exec_concat.1 hs
  exact ⟨s, hs, hp.1, hp.2, (halong.of_append ht).1 s hlast⟩

/-- The seats of the exhausted first entry meet a free run.  Its refund raises after it has been added to the
dead-letter stream, in every pass again; the second entry is never tried. -/
theorem reclaim_blocked_by_overlap :
    ∃ s, exec (Reclaimer.step sampleCfg)
    (start sampleRedis [⟨1, seatedIntent firstKey, 5⟩, ⟨2, generalIntent secondKey, 1⟩] 2 [])
        [.list [1, 2], .entry true {}, .list [1, 2], .entry true {}] = some s ∧
      s.todo = [] ∧ s.dead = [1, 1] ∧ s.handled = [(⟨1, 6⟩, .raised)] ∧ s.pending.map PendingEntry.id = [1, 2] ∧
      ¬ Unblocked sampleCfg s := by
  obtain ⟨s, hs, hp⟩ := exec_any (Reclaimer.step sampleCfg)
    (start sampleRedis [⟨1, seatedIntent firstKey, 5⟩, ⟨2, generalIntent secondKey, 1⟩] 2 [])
    [.list [1, 2], .entry true {}, .list [1, 2], .entry true {}]
    (fun s => s.todo = [] ∧ s.dead = [1, 1] ∧ s.handled = [(⟨1, 6⟩, .raised)] ∧
      s.pending.map PendingEntry.id = [1, 2])
    (by decide +kernel)
  rw [decide_eq_true_eq] at hp
  refine ⟨s, hs, hp.1, hp.2.1, hp.2.2.1, hp.2.2.2, fun hun => ?_⟩
  have honce := hun.once
  rw [hp.2.1] at honce
  exact absurd honce (by decide)

end Reclaimer

end Ticketing
