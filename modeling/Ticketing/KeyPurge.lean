import Mathlib.Data.List.Sort
import Ticketing.Base.Digits
import Ticketing.Base.Exec
import Ticketing.Base.Text
import Ticketing.Redis

/-!
# The purge of the keys of finished events

`purge_finished_event_keys`.  A pass reads the clock, then the events that ended between 30 and 7 days before
with the zones of their venues, makes up the texts of their keys, and deletes them in batches.  Keys come and
go and events are changed between any two of its commands, and a pass may die before any of them.

The second part of every key is the id of its event (`event_of_mem_keysOf`), so a pass deletes keys of the
events it has read and of no others.
-/

namespace Ticketing

open Exec Text

/-! ### The texts of the keys -/

/-- `_key` of the inventory service. -/
def eventAvailableKey (event : EventId) : String := join ':' ["event", toString event, "available"]

def purchasedKey (event : EventId) : String := join ':' ["event", toString event, "purchased"]

def saltKey (event : EventId) : String := join ':' ["queue", toString event, "salt"]

def drawKey (event : EventId) : String := join ':' ["queue", toString event, "draw"]

/-- A key of a zone. -/
def zoneKey (name : String) (event : EventId) (zone : ZoneId) : String :=
  join ':' ["event", toString event, "zone", toString zone, name]

def runsKey : EventId → ZoneId → String := zoneKey "runs"

def endsKey : EventId → ZoneId → String := zoneKey "ends"

def geomKey : EventId → ZoneId → String := zoneKey "geom"

def zoneAvailableKey : EventId → ZoneId → String := zoneKey "available"

def relaxedKey : EventId → ZoneId → String := zoneKey "relaxed"

/-- The keys that one row of the join adds. -/
def keysOf (event : EventId) (zone : Option ZoneId) : List String :=
  [eventAvailableKey event, purchasedKey event, saltKey event, drawKey event] ++
    zone.elim [] fun z => [runsKey event z, endsKey event z, geomKey event z, zoneAvailableKey event z,
      relaxedKey event z]

private theorem colon_notMem_toString (n : Nat) : ':' ∉ (toString n).toList := by
  intro hmem
  have htext : (toString n).toList = Nat.toDigits 10 n := by simp [toString, Nat.repr]
  rw [htext] at hmem
  have hdigit := Nat.isDigit_of_mem_toDigits (by decide) (by decide) hmem
  exact absurd hdigit (by decide)

/-- The second part of a key is the id of its event. -/
private theorem second_part {family : String} {event : EventId} {rest : List String} (hfamily : ':' ∉ family.toList)
    (hrest : ∀ p ∈ rest, ':' ∉ p.toList) :
    (split ':' (join ':' (family :: toString event :: rest)))[1]? = some (toString event) := by
  rw [split_join (by simp) fun p hp => ?_]
  · rfl
  · rcases List.mem_cons.1 hp with rfl | hp
    · exact hfamily
    rcases List.mem_cons.1 hp with rfl | hp
    · exact colon_notMem_toString event
    · exact hrest p hp

private theorem second_part_zoneKey {name : String} (hname : ':' ∉ name.toList) (event : EventId) (zone : ZoneId) :
    (split ':' (zoneKey name event zone))[1]? = some (toString event) := by
  refine second_part (by decide) fun p hp => ?_
  rcases List.mem_cons.1 hp with rfl | hp
  · decide
  rcases List.mem_cons.1 hp with rfl | hp
  · exact colon_notMem_toString zone
  · exact List.mem_singleton.1 hp ▸ hname

/-- A key tells its event. -/
theorem event_of_mem_keysOf {event : EventId} {zone : Option ZoneId} {key : String} (h : key ∈ keysOf event zone) :
    (split ':' key)[1]? = some (toString event) := by
  rcases List.mem_append.1 h with h | h
  · simp only [List.mem_cons, List.not_mem_nil, or_false] at h
    rcases h with rfl | rfl | rfl | rfl
    · exact second_part (by decide) (by decide)
    · exact second_part (by decide) (by decide)
    · exact second_part (by decide) (by decide)
    · exact second_part (by decide) (by decide)
  · cases zone with
    | none => cases h
    | some z =>
      simp only [Option.elim_some, List.mem_cons, List.not_mem_nil, or_false] at h
      rcases h with rfl | rfl | rfl | rfl | rfl
      · exact second_part_zoneKey (by decide) event z
      · exact second_part_zoneKey (by decide) event z
      · exact second_part_zoneKey (by decide) event z
      · exact second_part_zoneKey (by decide) event z
      · exact second_part_zoneKey (by decide) event z

theorem event_eq_of_mem_keysOf {event event' : EventId} {zone zone' : Option ZoneId} {key : String}
    (h : key ∈ keysOf event zone) (h' : key ∈ keysOf event' zone') : event = event' :=
  Digits.toString_injective (Option.some.inj ((event_of_mem_keysOf h).symm.trans (event_of_mem_keysOf h')))

/-! ### The passes -/

/-- A day in microseconds. -/
def oneDay : Int := 86400 * 1000000

/-- `EVENT_KEY_RETENTION_DAYS` -/
def keyRetention : Int := 7 * oneDay

/-- `EVENT_KEY_PURGE_WINDOW_DAYS` -/
def purgeWindow : Int := 30 * oneDay

/-- What the purge reads of an event. -/
structure EventEnd where
  id : EventId
  venue : Option Nat
  endsAt : Int
deriving DecidableEq

/-- A pass that is deleting. -/
structure KeyPass where
  start : Int
  /-- The keys of the batches to come. -/
  left : List String

inductive KeyPhase where
  | idle
  /-- The clock has been read. -/
  | begun (start : Int)
  | deleting (pass : KeyPass)

structure Keyspace where
  events : List EventEnd
  /-- The zones, each with its venue. -/
  zones : List (ZoneId × Nat)
  /-- The keys that exist. -/
  keys : List String
  now : Int
  phase : KeyPhase := .idle
  /-- When the passes began that have returned. -/
  passes : List Int := []

inductive KeyAct where
  /-- A key is written, by anyone. -/
  | write (key : String)
  /-- A key is deleted by someone else, or expires. -/
  | drop (key : String)
  | addEvent (ev : EventEnd)
  | addZone (zone : ZoneId) (venue : Nat)
  | patch (event : EventId) (endsAt : Int)
  | tick (micros : Nat)
  | begin
  | select
  /-- The next `DEL`, or the return where there is none. -/
  | delete
  | die
deriving DecidableEq

/-- The `WHERE` of the pass. -/
def EventEnd.finished (start : Int) (ev : EventEnd) : Bool :=
  ev.endsAt < start - keyRetention && start - purgeWindow ≤ ev.endsAt

namespace Keyspace

/-- The `OUTER JOIN`: the zones of the venue, or none. -/
def zonesOf (w : Keyspace) (ev : EventEnd) : List (Option ZoneId) :=
  let found := (w.zones.filter fun z => ev.venue == some z.2).map fun z => some z.1
  if found = [] then [none] else found

/-- `sorted(set(keys))` -/
def uniqueKeys (w : Keyspace) (start : Int) : List String :=
  (((w.events.filter (EventEnd.finished start)).flatMap fun ev =>
    (w.zonesOf ev).flatMap (keysOf ev.id)).dedup).insertionSort (· ≤ ·)

def batchSize : Nat := 500

def step (w : Keyspace) : KeyAct → Option Keyspace
  | .write key => some { w with keys := w.keys.insert key }
  | .drop key => some { w with keys := w.keys.filter (· ≠ key) }
  | .addEvent ev => if ∀ ev' ∈ w.events, ev'.id ≠ ev.id then some { w with events := w.events ++ [ev] } else none
  | .addZone zone venue => some { w with zones := w.zones ++ [(zone, venue)] }
  | .patch event endsAt =>
      some { w with events := w.events.map fun ev => if ev.id = event then { ev with endsAt } else ev }
  | .tick micros => some { w with now := w.now + micros }
  | .begin =>
    match w.phase with
    | .idle => some { w with phase := .begun w.now }
    | _ => none
  | .select =>
    match w.phase with
    | .begun start => some { w with phase := .deleting { start, left := w.uniqueKeys start } }
    | _ => none
  | .delete =>
    match w.phase with
    | .deleting pass =>
      if pass.left = [] then some { w with phase := .idle, passes := w.passes ++ [pass.start] }
      else
        some { w with
          keys := w.keys.filter (· ∉ pass.left.take batchSize)
          phase := .deleting { pass with left := pass.left.drop batchSize } }
    | _ => none
  | .die => some { w with phase := .idle }

/-- What a step can do. -/
inductive Move (w : Keyspace) : KeyAct → Keyspace → Prop
  | write (key : String) : Move w (.write key) { w with keys := w.keys.insert key }
  | drop (key : String) : Move w (.drop key) { w with keys := w.keys.filter (· ≠ key) }
  | addEvent {ev : EventEnd} (hnew : ∀ ev' ∈ w.events, ev'.id ≠ ev.id) :
      Move w (.addEvent ev) { w with events := w.events ++ [ev] }
  | addZone (zone : ZoneId) (venue : Nat) : Move w (.addZone zone venue)
      { w with zones := w.zones ++ [(zone, venue)] }
  | patch (event : EventId) (endsAt : Int) :
      Move w (.patch event endsAt)
        { w with events := w.events.map fun ev => if ev.id = event then { ev with endsAt } else ev }
  | tick (micros : Nat) : Move w (.tick micros) { w with now := w.now + micros }
  | begin (hp : w.phase = .idle) : Move w .begin { w with phase := .begun w.now }
  | select {start : Int} (hp : w.phase = .begun start) :
      Move w .select { w with phase := .deleting { start, left := w.uniqueKeys start } }
  | finish {pass : KeyPass} (hp : w.phase = .deleting pass) (hleft : pass.left = []) :
      Move w .delete { w with phase := .idle, passes := w.passes ++ [pass.start] }
  | batch {pass : KeyPass} (hp : w.phase = .deleting pass) :
      Move w .delete { w with
        keys := w.keys.filter (· ∉ pass.left.take batchSize)
        phase := .deleting { pass with left := pass.left.drop batchSize } }
  | die : Move w .die { w with phase := .idle }

variable {w w' : Keyspace} {act : KeyAct} {acts : List KeyAct} {ev : EventEnd} {key : String}

theorem step_move (hstep : w.step act = some w') : Move w act w' := by
  cases act with
  | write key =>
    obtain rfl := Option.some.inj hstep
    exact .write key
  | drop key =>
    obtain rfl := Option.some.inj hstep
    exact .drop key
  | addEvent ev =>
    simp only [step] at hstep
    split at hstep
    · rename_i hnew
      obtain rfl := Option.some.inj hstep
      exact .addEvent hnew
    · cases hstep
  | addZone zone venue =>
    obtain rfl := Option.some.inj hstep
    exact .addZone zone venue
  | patch event endsAt =>
    obtain rfl := Option.some.inj hstep
    exact .patch event endsAt
  | tick micros =>
    obtain rfl := Option.some.inj hstep
    exact .tick micros
  | begin =>
    simp only [step] at hstep
    split at hstep
    · rename_i hp
      obtain rfl := Option.some.inj hstep
      exact .begin hp
    · cases hstep
  | select =>
    simp only [step] at hstep
    split at hstep
    · rename_i hp
      obtain rfl := Option.some.inj hstep
      exact .select hp
    · cases hstep
  | delete =>
    simp only [step] at hstep
    split at hstep
    · rename_i hp
      split at hstep
      · rename_i hleft
        obtain rfl := Option.some.inj hstep
        exact .finish hp hleft
      · obtain rfl := Option.some.inj hstep
        exact .batch hp
    · cases hstep
  | die =>
    obtain rfl := Option.some.inj hstep
    exact .die

theorem mem_uniqueKeys {start : Int} :
    key ∈ w.uniqueKeys start ↔ ∃ ev ∈ w.events, ev.finished start = true ∧ ∃ zone ∈ w.zonesOf ev,
      key ∈ keysOf ev.id zone := by
  simp [uniqueKeys, List.mem_insertionSort, List.mem_dedup, and_assoc]

theorem finished_iff {start : Int} :
    ev.finished start = true ↔ ev.endsAt + keyRetention < start ∧ start ≤ ev.endsAt + purgeWindow := by
  simp only [EventEnd.finished, Bool.and_eq_true, decide_eq_true_eq]
  omega

/-! ### No pass touches the keys of a live event -/

/-- When the pass in progress read the clock. -/
def start? : KeyPhase → Option Int
  | .idle => none
  | .begun start => some start
  | .deleting pass => some pass.start

/-- The row of an event that nobody changes, and a pass that began in the past. -/
structure Known (ev : EventEnd) (w : Keyspace) : Prop where
  here : ev ∈ w.events
  only : ∀ ev' ∈ w.events, ev'.id = ev.id → ev' = ev
  begun : ∀ start, start? w.phase = some start → start ≤ w.now

theorem Known.move (h : Known ev w) (hsame : ∀ endsAt, act ≠ .patch ev.id endsAt) (hmove : Move w act w') :
    Known ev w' := by
  cases hmove with
  | write key => exact ⟨h.here, h.only, h.begun⟩
  | drop key => exact ⟨h.here, h.only, h.begun⟩
  | addEvent hnew =>
    refine ⟨List.mem_append_left _ h.here, fun ev' hev' hid => ?_, h.begun⟩
    rcases List.mem_append.1 hev' with hev' | hev'
    · exact h.only ev' hev' hid
    · rw [List.mem_singleton.1 hev'] at hid
      exact absurd hid.symm (hnew ev h.here)
  | addZone zone venue => exact ⟨h.here, h.only, h.begun⟩
  | patch event endsAt =>
    have hne : ev.id ≠ event := fun heq => hsame endsAt (heq ▸ rfl)
    refine ⟨List.mem_map.2 ⟨ev, h.here, if_neg hne⟩, fun ev' hev' hid => ?_, h.begun⟩
    obtain ⟨old, hold, rfl⟩ := List.mem_map.1 hev'
    by_cases hevent : old.id = event
    · rw [if_pos hevent] at hid
      exact absurd (hid.symm.trans hevent) hne
    · rw [if_neg hevent] at hid ⊢
      exact h.only old hold hid
  | tick micros =>
    refine ⟨h.here, h.only, fun start hstart => ?_⟩
    have hle := h.begun start hstart
    show start ≤ w.now + micros
    omega
  | begin hp => exact ⟨h.here, h.only, fun start hstart => (Option.some.inj hstart).ge⟩
  | select hp => exact ⟨h.here, h.only, fun start hstart => h.begun start (by rw [hp]; exact hstart)⟩
  | finish hp hleft => exact ⟨h.here, h.only, fun start hstart => by cases hstart⟩
  | batch hp => exact ⟨h.here, h.only, fun start hstart => h.begun start (by rw [hp]; exact hstart)⟩
  | die => exact ⟨h.here, h.only, fun start hstart => by cases hstart⟩

/-- The keys that a pass is about to delete are not those of an event that had not ended long enough before
the pass. -/
def Spares (ev : EventEnd) (w : Keyspace) : Prop :=
  ∀ pass, w.phase = .deleting pass → ∀ key ∈ pass.left, ∀ zone, key ∈ keysOf ev.id zone →
    ev.endsAt + keyRetention < pass.start

private theorem Spares.of_phase (h : Spares ev w) (hphase : w'.phase = w.phase) : Spares ev w' := by
  rw [Spares, hphase]
  exact h

private theorem Spares.of_no_pass (hphase : ∀ pass, w'.phase ≠ .deleting pass) : Spares ev w' :=
  fun pass hpass => absurd hpass (hphase pass)

theorem Spares.move (h : Spares ev w) (hknown : Known ev w) (hmove : Move w act w') : Spares ev w' := by
  cases hmove with
  | write key => exact h.of_phase rfl
  | drop key => exact h.of_phase rfl
  | addEvent hnew => exact h.of_phase rfl
  | addZone zone venue => exact h.of_phase rfl
  | patch event endsAt => exact h.of_phase rfl
  | tick micros => exact h.of_phase rfl
  | begin hp => exact Spares.of_no_pass fun pass => by simp
  | select hp =>
    intro pass hpass key hkey zone hzone
    obtain rfl := KeyPhase.deleting.inj hpass
    obtain ⟨ev', hev', hfinished, zone', -, hkey'⟩ := mem_uniqueKeys.1 hkey
    obtain rfl := hknown.only ev' hev' (event_eq_of_mem_keysOf hkey' hzone)
    exact (finished_iff.1 hfinished).1
  | finish hp hleft => exact Spares.of_no_pass fun pass => by simp
  | batch hp =>
    rename_i before
    intro pass hpass key hkey zone hzone
    obtain rfl := KeyPhase.deleting.inj hpass
    exact h before hp key (List.mem_of_mem_drop hkey) zone hzone
  | die => exact Spares.of_no_pass fun pass => by simp

/-- A key of an event stays until a week after the end of the event. -/
private theorem kept_move {zone : Option ZoneId} (hknown : Known ev w) (hspares : Spares ev w)
    (hkey : key ∈ keysOf ev.id zone)
    (hdrop : act ≠ .drop key) (hmove : Move w act w') (hkept : w.now ≤ ev.endsAt + keyRetention → key ∈ w.keys)
    (hlive : w'.now ≤ ev.endsAt + keyRetention) : key ∈ w'.keys := by
  cases hmove with
  | write key' => exact List.mem_insert_of_mem (hkept hlive)
  | drop key' =>
    have hne : key ≠ key' := fun heq => hdrop (heq ▸ rfl)
    exact List.mem_filter.2 ⟨hkept hlive, decide_eq_true hne⟩
  | addEvent hnew => exact hkept hlive
  | addZone zone venue => exact hkept hlive
  | patch event endsAt => exact hkept hlive
  | tick micros =>
    refine hkept ?_
    have hle : w.now + micros ≤ ev.endsAt + keyRetention := hlive
    omega
  | begin hp => exact hkept hlive
  | select hp => exact hkept hlive
  | finish hp hleft => exact hkept hlive
  | batch hp =>
    refine List.mem_filter.2 ⟨hkept hlive, decide_eq_true fun htake => ?_⟩
    have hlate := hspares _ hp key (List.mem_of_mem_take htake) zone hkey
    have hbegun := hknown.begun _ (by rw [hp]; rfl)
    have hnow : w.now ≤ ev.endsAt + keyRetention := hlive
    omega
  | die => exact hkept hlive

/-! ### Every finished event is reached -/

/-- A key that a pass makes up for the event. -/
def Owns (ev : EventEnd) (key : String) (w : Keyspace) : Prop := ∃ zone ∈ w.zonesOf ev, key ∈ keysOf ev.id zone

private theorem mem_zonesOf {zone : ZoneId} : some zone ∈ w.zonesOf ev ↔ ∃ venue, (zone, venue) ∈ w.zones ∧
    ev.venue = some venue := by
  rw [zonesOf]
  split
  · rename_i hnone
    simp only [List.map_eq_nil_iff, List.filter_eq_nil_iff, beq_iff_eq] at hnone
    refine ⟨fun h => by simp at h, fun ⟨venue, hmem, hvenue⟩ => absurd hvenue (hnone _ hmem)⟩
  · simp [Prod.exists]

private theorem Owns.addZone (h : Owns ev key w) (zone : ZoneId) (venue : Nat) :
    Owns ev key { w with zones := w.zones ++ [(zone, venue)] } := by
  obtain ⟨old, hold, hkey⟩ := h
  cases old with
  | some z =>
    obtain ⟨v, hv, hvenue⟩ := mem_zonesOf.1 hold
    exact ⟨some z, mem_zonesOf.2 ⟨v, List.mem_append_left _ hv, hvenue⟩, hkey⟩
  | none =>
    -- the keys without a zone are made up with every zone
    obtain ⟨zone', hzone'⟩ : ∃ zone', zone' ∈ zonesOf { w with zones := w.zones ++ [(zone, venue)] } ev := by
      rw [zonesOf]
      split
      · exact ⟨none, List.mem_singleton_self _⟩
      · rename_i hne
        exact List.exists_mem_of_ne_nil _ hne
    refine ⟨zone', hzone', List.mem_append_left _ ?_⟩
    simpa [keysOf] using hkey

/-- A pass that begins now takes the event. -/
def Due (ev : EventEnd) (start : Int) : Prop := ev.endsAt + keyRetention < start ∧ start ≤ ev.endsAt + purgeWindow

/-- The passes that took the event, the first `n` apart, have deleted the key or are about to. -/
structure Reached (ev : EventEnd) (key : String) (n : Nat) (w : Keyspace) : Prop where
  owns : Owns ev key w
  pass : ∀ pass, w.phase = .deleting pass → Due ev pass.start → key ∈ pass.left ∨ key ∉ w.keys
  passes : ∀ start ∈ w.passes.drop n, start ≤ w.now ∧ (Due ev start → key ∉ w.keys)

private theorem Reached.no_pass {n : Nat} (h : Reached ev key n w) (phase : KeyPhase)
    (hphase : ∀ pass, phase ≠ .deleting pass) :
    Reached ev key n { w with phase } :=
  ⟨h.owns, fun pass hpass => absurd hpass (hphase pass), h.passes⟩

private theorem Reached.fewer {n : Nat} (h : Reached ev key n w) {keys : List String} (hkeys : keys ⊆ w.keys) :
    Reached ev key n { w with keys } := by
  refine ⟨h.owns, fun pass hpass hdue => ?_, fun start hstart => ⟨(h.passes start hstart).1, fun hdue hmem => ?_⟩⟩
  · exact (h.pass pass hpass hdue).imp_right fun hgone hmem => hgone (hkeys hmem)
  · exact (h.passes start hstart).2 hdue (hkeys hmem)

theorem Reached.move {n : Nat} (h : Reached ev key n w) (hknown : Known ev w)
    (hsame : ∀ endsAt, act ≠ .patch ev.id endsAt)
    (hquiet : act = .write key → w.now ≤ ev.endsAt + keyRetention) (hmove : Move w act w') : Reached ev key n w' := by
  cases hmove with
  | write key' =>
    by_cases heq : key' = key
    · -- no pass that takes the event has begun yet
      have hlive := hquiet (heq ▸ rfl)
      refine ⟨h.owns, fun pass hpass hdue => ?_, fun start hstart => ⟨(h.passes start hstart).1, fun hdue => ?_⟩⟩
      · have hbegun := hknown.begun pass.start (by rw [show w.phase = _ from hpass]; rfl)
        have hlate := hdue.1
        omega
      · have hbegun := (h.passes start hstart).1
        have hlate := hdue.1
        omega
    · have hmem : key ∈ w.keys.insert key' ↔ key ∈ w.keys := by
        rw [List.mem_insert_iff]
        exact or_iff_right fun hkey => heq hkey.symm
      refine ⟨h.owns, fun pass hpass hdue => ?_, fun start hstart => ⟨(h.passes start hstart).1, fun hdue => ?_⟩⟩
      · exact (h.pass pass hpass hdue).imp_right fun hgone => mt hmem.1 hgone
      · exact mt hmem.1 ((h.passes start hstart).2 hdue)
  | drop key' => exact h.fewer List.filter_sublist.subset
  | addEvent hnew => exact ⟨h.owns, h.pass, h.passes⟩
  | addZone zone venue => exact ⟨h.owns.addZone zone venue, h.pass, h.passes⟩
  | patch event endsAt => exact ⟨h.owns, h.pass, h.passes⟩
  | tick micros =>
    refine ⟨h.owns, h.pass, fun start hstart => ⟨?_, (h.passes start hstart).2⟩⟩
    have hle := (h.passes start hstart).1
    show start ≤ w.now + micros
    omega
  | begin hp => exact h.no_pass _ fun pass => by simp
  | select hp =>
    refine ⟨h.owns, fun pass hpass hdue => .inl ?_, h.passes⟩
    obtain rfl := KeyPhase.deleting.inj hpass
    exact mem_uniqueKeys.2 ⟨ev, hknown.here, finished_iff.2 hdue, h.owns⟩
  | finish hp hleft =>
    rename_i pass
    refine ⟨h.owns, fun pass hpass => (by cases hpass), fun start hstart => ?_⟩
    rcases List.mem_append.1 (List.drop_append ▸ hstart) with hstart | hstart
    · exact h.passes start hstart
    · have hlast := List.mem_singleton.1 (List.mem_of_mem_drop hstart)
      rw [hlast]
      refine ⟨hknown.begun _ (by rw [hp]; rfl), fun hdue => (h.pass pass hp hdue).resolve_left ?_⟩
      rw [hleft]
      exact List.not_mem_nil
  | batch hp =>
    rename_i before
    have hfewer : Reached ev key n { w with keys := w.keys.filter (· ∉ before.left.take batchSize) } :=
      h.fewer List.filter_sublist.subset
    refine ⟨h.owns, fun pass hpass hdue => ?_, hfewer.passes⟩
    obtain rfl := KeyPhase.deleting.inj hpass
    rcases h.pass before hp hdue with hleft | hgone
    · rw [← List.take_append_drop batchSize before.left] at hleft
      rcases List.mem_append.1 hleft with htake | hdrop
      · exact .inr fun hmem => absurd htake (of_decide_eq_true (List.mem_filter.1 hmem).2)
      · exact .inl hdrop
    · exact .inr fun hmem => hgone (List.mem_filter.1 hmem).1
  | die => exact h.no_pass _ fun pass => by simp

/-- A walk in short steps does not jump over a gap that is longer. -/
private theorem exists_between {gap lo : Int} {a b : Int} {mid : List Int}
    (hsteps : List.IsChain (fun x y => y ≤ x + gap) (a :: mid ++ [b]))
    (ha : a ≤ lo) (hb : lo + gap < b) : ∃ x ∈ mid, lo < x ∧ x ≤ lo + gap := by
  induction mid generalizing a with
  | nil =>
    have hstep : b ≤ a + gap := by simpa using hsteps
    omega
  | cons c mid ih =>
    rw [List.cons_append, List.cons_append, List.isChain_cons_cons] at hsteps
    obtain ⟨hstep, hrest⟩ := hsteps
    rcases le_or_gt c lo with hle | hgt
    · obtain ⟨x, hx, hbetween⟩ := ih hrest hle
      exact ⟨x, List.mem_cons_of_mem _ hx, hbetween⟩
    · exact ⟨c, List.mem_cons_self, hgt, by omega⟩

/-! ### The purge -/

private theorem only_of_nodup (hids : (w.events.map EventEnd.id).Nodup) (hev : ev ∈ w.events) :
    ∀ ev' ∈ w.events, ev'.id = ev.id → ev' = ev := fun _ hev' hid => List.inj_on_of_nodup_map hids hev' hev hid

private theorem Known.start (hidle : w.phase = .idle) (hids : (w.events.map EventEnd.id).Nodup)
    (hev : ev ∈ w.events) : Known ev w :=
  ⟨hev, only_of_nodup hids hev, fun start hstart => by rw [hidle] at hstart; cases hstart⟩

/-- Whatever happens, a key of an event whose end nobody moves is still there a week after the end, unless
someone else deleted it: no pass takes it for a key of another event, for it is not the text of one. -/
theorem purge_spares_live (w₀ w : Keyspace) (acts : List KeyAct) (hidle : w₀.phase = .idle)
    (hids : (w₀.events.map EventEnd.id).Nodup)
    (hrun : exec step w₀ acts = some w) (ev : EventEnd) (hev : ev ∈ w₀.events)
    (hsame : ∀ endsAt, .patch ev.id endsAt ∉ acts)
    (zone : Option ZoneId) (key : String) (hkey : key ∈ keysOf ev.id zone) (hhere : key ∈ w₀.keys)
    (hdrop : .drop key ∉ acts) (hlive : w.now ≤ ev.endsAt + keyRetention) :
    key ∈ w.keys ∧ ∀ (event' : EventId) (zone' : Option ZoneId), key ∈ keysOf event' zone' → event' = ev.id := by
  have hstart : Known ev w₀ ∧ Spares ev w₀ ∧ (w₀.now ≤ ev.endsAt + keyRetention → key ∈ w₀.keys) :=
    ⟨.start hidle hids hev, Spares.of_no_pass fun pass => by simp [hidle], fun _ => hhere⟩
  refine ⟨?_, fun event' zone' hkey' => event_eq_of_mem_keysOf hkey' hkey⟩
  refine (exec_invariant (C := fun _ act => (∀ endsAt, act ≠ .patch ev.id endsAt) ∧ act ≠ .drop key)
    (I := fun v => Known ev v ∧ Spares ev v ∧ (v.now ≤ ev.endsAt + keyRetention → key ∈ v.keys))
    (fun v act v' hact hstep hv => ?_) hstart (Along.of_forall fun act hact _ => ?_) hrun).2.2 hlive
  · have hmove := step_move hstep
    exact ⟨hv.1.move hact.1 hmove, hv.2.1.move hv.1 hmove, kept_move hv.1 hv.2.1 hkey hact.2 hmove hv.2.2⟩
  · exact ⟨fun endsAt heq => by rw [heq] at hact; exact hsame endsAt hact, fun heq => by
      rw [heq] at hact; exact hdrop hact⟩

/-- Where the run begins at most a week after the end of an event, nobody moves that end, and the passes that
return begin at most 23 days after one another, no key of the event is left a month after its end, unless it
was written later than a week after the end. -/
theorem purge_reaches_finished (w₀ w : Keyspace) (acts : List KeyAct) (hidle : w₀.phase = .idle)
    (hids : (w₀.events.map EventEnd.id).Nodup) (hrun : exec step w₀ acts = some w) (ev : EventEnd)
    (hev : ev ∈ w₀.events)
    (hsame : ∀ endsAt, .patch ev.id endsAt ∉ acts) (key : String) (howns : Owns ev key w₀)
    (hquiet : Along step (fun v act => act = .write key → v.now ≤ ev.endsAt + keyRetention) w₀ acts)
    (hregular : List.IsChain (fun t t' => t' ≤ t + (purgeWindow - keyRetention))
      (w₀.now :: w.passes.drop w₀.passes.length ++ [w.now]))
    (hnew : w₀.now ≤ ev.endsAt + keyRetention) (hover : ev.endsAt + purgeWindow < w.now) : key ∉ w.keys := by
  have hstart : Known ev w₀ ∧ Reached ev key w₀.passes.length w₀ := by
    refine ⟨.start hidle hids hev, howns, fun pass hpass => ?_, fun start hpast => ?_⟩
    · rw [hidle] at hpass
      cases hpass
    · rw [List.drop_length] at hpast
      cases hpast
  have hactions : Along step (fun _ act => ∀ endsAt, act ≠ .patch ev.id endsAt) w₀ acts :=
    Along.of_forall fun act hact _ endsAt heq => by rw [heq] at hact; exact hsame endsAt hact
  have hreached := (exec_invariant (I := fun v => Known ev v ∧ Reached ev key w₀.passes.length v)
    (fun v act v' hact hstep hv =>
      ⟨hv.1.move hact.2 (step_move hstep), hv.2.move hv.1 hact.2 hact.1 (step_move hstep)⟩)
    hstart (hquiet.and hactions) hrun).2
  obtain ⟨start, hmem, hlate, hsoon⟩ := exists_between hregular hnew (by omega)
  exact (hreached.passes start hmem).2 ⟨hlate, by omega⟩

/-- An event that ended eight days ago, and another whose id begins with the same digit. -/
private def twoEvents : Keyspace where
  events := [⟨1, some 5, 0⟩, ⟨11, none, 2 * oneDay⟩]
  zones := [(3, 5)]
  keys := [eventAvailableKey 1, runsKey 1 3, eventAvailableKey 11]
  now := 8 * oneDay

theorem purge_spares_live_other : ∃ w, exec step twoEvents [.begin, .select, .delete, .delete] = some w ∧
    w.keys = [eventAvailableKey 11] ∧ eventAvailableKey 11 ∈ w.keys := by
  obtain ⟨w, hrun, hp⟩ := exec_any step twoEvents [.begin, .select, .delete, .delete]
    (fun w => w.keys = [eventAvailableKey 11] ∧ w.now = 8 * oneDay) (by decide +kernel)
  simp only [decide_eq_true_eq] at hp
  refine ⟨w, hrun, hp.1, ?_⟩
  have hlive : w.now ≤ 2 * oneDay + keyRetention := by
    rw [hp.2]
    decide
  have hspared := purge_spares_live twoEvents w _ rfl (by decide) hrun ⟨11, none, 2 * oneDay⟩
    (by decide) (by simp) none
    (eventAvailableKey 11) (by decide +kernel) (by decide +kernel) (by decide) hlive
  exact hspared.1

/-- A pass eight days after the end, and three weeks without one. -/
private def monthly : List KeyAct :=
  [.tick (8 * 86400 * 1000000), .begin, .select, .delete, .delete, .tick (23 * 86400 * 1000000)]

theorem purge_reaches_finished_month : ∃ w, exec step { twoEvents with now := 0 } monthly = some w ∧
    runsKey 1 3 ∉ w.keys := by
  obtain ⟨w, hrun, hp⟩ := exec_any step { twoEvents with now := 0 } monthly
    (fun w => w.passes = [8 * oneDay] ∧ w.now = 31 * oneDay) (by decide +kernel)
  simp only [decide_eq_true_eq] at hp
  refine ⟨w, hrun, ?_⟩
  refine purge_reaches_finished { twoEvents with now := 0 } w monthly rfl (by decide) hrun ⟨1, some 5, 0⟩
    (by decide) (by simp [monthly]) _
    ⟨some 3, by decide +kernel, by decide +kernel⟩ (Along.of_forall fun act hact v heq => ?_) ?_ (by decide) ?_
  · rw [heq] at hact
    exact absurd hact (by simp [monthly])
  · rw [hp.1, hp.2]
    decide
  · rw [hp.2]
    decide

end Keyspace

end Ticketing
