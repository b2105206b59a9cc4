import Mathlib.Data.Finset.Basic
import Mathlib.Algebra.Order.Ring.Rat
import Ticketing.Base.Exec
import Ticketing.Base.Hash
import Ticketing.WaitingRoom

/-!
# Server-sent events and pokes

Every `queue_stream` generator registers a one-slot mailbox with the process, reads the state of its user, and
then waits for a poke, the deadline of the user or the heartbeat before it reads again.  Pokes reach the
mailboxes of one event or all of them, at any point of the generators; a poke that finds the slot full is
dropped.

A poke that a stream has not read past sits in its slot or finds the stream on its way to the next read, so a
stream never sleeps on an empty mailbox with a poke unheard (`no_missed_wake`).
-/

namespace Ticketing

open Exec

/-! ### Mailboxes -/

/-- `asyncio.Queue(maxsize=1)`: how many pokes it holds. -/
structure Mailbox where
  pending : Nat
  bound : pending ≤ 1
deriving DecidableEq

namespace Mailbox

def empty : Mailbox := ⟨0, Nat.zero_le _⟩

/-- `none` is `QueueFull`. -/
def putNowait (m : Mailbox) : Option Mailbox := if h : m.pending < 1 then some ⟨m.pending + 1, h⟩ else none

/-- `_nudge` -/
def nudge (m : Mailbox) : Mailbox := m.putNowait.getD m

/-- `none` is `QueueEmpty`. -/
def getNowait (m : Mailbox) : Option Mailbox :=
  if 0 < m.pending then some ⟨m.pending - 1, (Nat.sub_le ..).trans m.bound⟩ else none

theorem nudge_pending (m : Mailbox) : 0 < m.nudge.pending := by
  unfold nudge putNowait
  split
  · exact Nat.succ_pos _
  · simp only [Option.getD_none]
    omega

end Mailbox

/-- `_mailboxes`: the mailboxes of the streams on each event. -/
abbrev Mailboxes := Hash EventId (Finset Nat)

namespace Mailboxes

def bucket (r : Mailboxes) (event : EventId) : Finset Nat := (AList.lookup event r).getD ∅

def register (r : Mailboxes) (event : EventId) (mailbox : Nat) : Mailboxes :=
  AList.insert event (insert mailbox (r.bucket event)) r

def unregister (r : Mailboxes) (event : EventId) (mailbox : Nat) : Mailboxes :=
  (AList.lookup event r).elim r fun bucket =>
    if bucket.erase mailbox = ∅ then AList.erase event r else AList.insert event (bucket.erase mailbox) r

/-- No bucket is kept once it is empty. -/
def Tidy (r : Mailboxes) : Prop := ∀ event bucket, AList.lookup event r = some bucket → bucket ≠ ∅

variable {r : Mailboxes} {event event' : EventId} {mailbox mailbox' : Nat}

theorem bucket_eq {bucket : Finset Nat} (h : AList.lookup event r = some bucket) : r.bucket event = bucket := by
  rw [Mailboxes.bucket, h]
  rfl

theorem mem_bucket_register :
    mailbox' ∈ (r.register event mailbox).bucket event' ↔ mailbox' ∈ r.bucket event' ∨ event' = event ∧
    mailbox' = mailbox := by
  by_cases he : event' = event
  · subst he
    simp [register, bucket, or_comm]
  · simp [register, bucket, AList.lookup_insert_ne he, he]

theorem mem_bucket_unregister :
    mailbox' ∈ (r.unregister event mailbox).bucket event' ↔
      mailbox' ∈ r.bucket event' ∧ ¬(event' = event ∧ mailbox' = mailbox) := by
  unfold unregister
  cases hl : AList.lookup event r with
  | none =>
    rw [Option.elim_none]
    refine ⟨fun h => ⟨h, ?_⟩, And.left⟩
    rintro ⟨rfl, -⟩
    simp [bucket, hl] at h
  | some b =>
    rw [Option.elim_some]
    by_cases he : event' = event
    · subst he
      have hempty : b.erase mailbox = ∅ → (mailbox' ∈ b → mailbox' = mailbox) := by
        intro h hm
        by_contra hne
        exact Finset.notMem_empty mailbox' (h ▸ Finset.mem_erase.2 ⟨hne, hm⟩)
      split
      · rename_i h0
        rw [bucket_eq hl]
        simpa [bucket] using hempty h0
      · rw [bucket_eq hl]
        simp [bucket, and_comm]
    · split
      · simp [bucket, AList.lookup_erase_ne he, he]
      · simp [bucket, AList.lookup_insert_ne he, he]

theorem Tidy.register (h : r.Tidy) : (r.register event mailbox).Tidy := by
  intro event' b hb
  rw [Mailboxes.register, Hash.lookup_insert_ite] at hb
  split at hb
  · obtain rfl := Option.some.inj hb
    exact Finset.insert_ne_empty _ _
  · exact h event' b hb

theorem Tidy.unregister (h : r.Tidy) : (r.unregister event mailbox).Tidy := by
  unfold Mailboxes.unregister
  cases hl : AList.lookup event r with
  | none => exact h
  | some bucket =>
    rw [Option.elim_some]
    intro event' b hb
    split at hb
    · rw [Hash.lookup_erase_ite] at hb
      split at hb
      · cases hb
      · exact h event' b hb
    · rename_i hne
      rw [Hash.lookup_insert_ite] at hb
      split at hb
      · obtain rfl := Option.some.inj hb
        exact hne
      · exact h event' b hb

/-- A tidy registry without a mailbox has no entry. -/
theorem Tidy.eq_empty (h : r.Tidy) (hnone : ∀ event mailbox, mailbox ∉ r.bucket event) : r = ∅ := by
  have hlookup : ∀ event, AList.lookup event r = none := by
    intro event
    cases hl : AList.lookup event r with
    | none => rfl
    | some b =>
      obtain ⟨mailbox, hm⟩ := Finset.nonempty_of_ne_empty (h event b hl)
      exact absurd (bucket_eq hl ▸ hm) (hnone event mailbox)
  apply AList.ext
  rw [show (∅ : Mailboxes).entries = [] from rfl]
  refine List.eq_nil_iff_forall_not_mem.2 fun kv hkv => ?_
  have := Hash.mem_entries_iff.1 (show (⟨kv.1, kv.2⟩ : Sigma fun _ => Finset Nat) ∈ r.entries from hkv)
  rw [hlookup] at this
  cases this

end Mailboxes

/-! ### Streams -/

/-- `_SSE_HEARTBEAT_SECONDS` -/
def heartbeatSeconds : ℚ := 20

/-- `_SSE_MAX_SECONDS` -/
def maxSeconds : ℚ := 300

/-- How long the next wait of a stream may take. -/
def waitTimeout (admitAt : Option ℚ) (now : ℚ) : ℚ :=
  admitAt.elim heartbeatSeconds fun deadline => if 0 < deadline - now then min heartbeatSeconds
    (deadline - now) else heartbeatSeconds

theorem waitTimeout_le (admitAt : Option ℚ) (now : ℚ) : waitTimeout admitAt now ≤ heartbeatSeconds := by
  cases admitAt with
  | none => exact le_rfl
  | some deadline =>
    simp only [waitTimeout, Option.elim_some]
    split
    · exact min_le_left ..
    · exact le_rfl

/-- The point a `gen` has reached. -/
inductive StreamPhase where
  /-- About to call `queue_status`. -/
  | due
  | reading
  /-- The frame of the state is handed over and `gen` not yet resumed. -/
  | framed (state : QueueState)
  /-- Waiting for `admit_deadline`. -/
  | computing
  /-- `wait_for(mailbox.get(), …)`, up to the given loop time. -/
  | waiting (until_ : ℚ)
  /-- Waiting for `is_disconnected`. -/
  | woken
  /-- About to unregister, in the `finally`. -/
  | leaving
  | ended
deriving DecidableEq

namespace StreamPhase

/-- The stream reads before it waits again, or never waits again. -/
def settled : StreamPhase → Bool
  | due | woken | leaving | ended => true
  | _ => false

def isWaiting : StreamPhase → Bool
  | waiting _ => true
  | _ => false

end StreamPhase

/-- A message of the subscriber to the mailboxes of one event or, without an event, to all; `time` counts the
steps before it. -/
structure Poke where
  time : Nat
  target : Option EventId
deriving DecidableEq

/-- The poke is meant for the streams on the event. -/
def Poke.Hits (p : Poke) (event : EventId) : Prop := p.target = none ∨ p.target = some event

/-- One `gen`.  `since` and `lastRead` are the steps of its registration and of the start of its most recent
`queue_status`. -/
structure Stream where
  event : EventId
  started : ℚ
  since : Nat
  mailbox : Mailbox := .empty
  phase : StreamPhase := .due
  lastRead : Option Nat := none
deriving DecidableEq

/-- What a `gen` does between two suspensions, up to its `finally`. -/
inductive StreamAct where
  | startRead
  | answer (state : QueueState)
  | resume
  /-- `admit_deadline` has answered; `now` is the wall clock. -/
  | compute (admitAt : Option ℚ) (now : ℚ)
  | receive
  | timeout
  | check (disconnected : Bool)
  /-- An exception out of any of the awaits, or the end of the generator from outside. -/
  | cancel
deriving DecidableEq

namespace Stream

def nudge (s : Stream) : Stream := { s with mailbox := s.mailbox.nudge }

/-- The next step of `gen`, at the loop time and as the given step of the run. -/
def step (time : ℚ) (clock : Nat) (s : Stream) (a : StreamAct) : Option Stream :=
  match a, s.phase with
  | .startRead, .due => some { s with phase := .reading, lastRead := some clock }
  | .answer state, .reading => some { s with phase := .framed state }
  | .resume, .framed state =>
    some { s with phase := if state.admitted || state.soldOut then .leaving
                           else if time - s.started < maxSeconds then .computing else .leaving }
  | .compute admitAt now, .computing => some { s with phase := .waiting (time + waitTimeout admitAt now) }
  | .receive, .waiting _ => s.mailbox.getNowait.map fun mailbox => { s with mailbox, phase := .woken }
  | .timeout, .waiting until_ => if until_ ≤ time then some { s with phase := .woken } else none
  | .check disconnected, .woken => some { s with phase := if disconnected then .leaving else .due }
  | .cancel, phase => if phase = .leaving ∨ phase = .ended then none else some { s with phase := .leaving }
  | _, _ => none

/-- What a stream waits for ends at the latest one heartbeat from now. -/
def Soon (time : ℚ) (s : Stream) : Prop := ∀ until_, s.phase = .waiting until_ → until_ ≤ time + heartbeatSeconds

/-- Every poke for the stream came before the start of its most recent read. -/
def CaughtUp (pokes : List Poke) (s : Stream) : Prop :=
  ∀ p ∈ pokes, p.Hits s.event → s.since ≤ p.time → ∃ r, s.lastRead = some r ∧ p.time < r

/-- The stream is up to date, or something will make it read before it sleeps. -/
def Heard (pokes : List Poke) (s : Stream) : Prop := s.phase.settled = true ∨ 0 < s.mailbox.pending ∨ s.CaughtUp pokes

variable {time : ℚ} {clock : Nat} {s s' : Stream} {a : StreamAct} {pokes : List Poke}

/-- What a step of `gen` can be: the start of a read, a move that does not leave a settled phase for one that
is not, or the end of a wait that empties the mailbox. -/
theorem step_cases (hs : s.step time clock a = some s') :
    (s.phase = .due ∧ s' = { s with phase := .reading, lastRead := some clock }) ∨
    (∃ phase, s' = { s with phase } ∧ s.phase ≠ .ended ∧ phase ≠ .ended ∧
      (phase.settled = true ∨ s.phase.settled = false) ∧
      ∀ until_, phase = .waiting until_ → ∃ admitAt now, until_ = time + waitTimeout admitAt now) ∨
    ∃ mailbox, s' = { s with mailbox, phase := .woken } ∧ s.phase ≠ .ended := by
  unfold step at hs
  split at hs
  · rename_i hp
    exact .inl ⟨hp, (Option.some.inj hs).symm⟩
  · rename_i state hp
    exact .inr (.inl ⟨.framed state, (Option.some.inj hs).symm, by simp [hp], by simp,
      .inr (by rw [hp]; rfl), by simp⟩)
  · rename_i state hp
    refine .inr (.inl ⟨_, (Option.some.inj hs).symm, by simp [hp], ?_, .inr (by rw [hp]; rfl), ?_⟩)
    · repeat' split
      all_goals simp
    · repeat' split
      all_goals simp
  · rename_i admitAt now hp
    refine .inr (.inl ⟨_, (Option.some.inj hs).symm, by simp [hp], by simp, .inr (by rw [hp]; rfl), ?_⟩)
    rintro until_ ⟨⟩
    exact ⟨admitAt, now, rfl⟩
  · rename_i until_ hp
    obtain ⟨mailbox, -, rfl⟩ := Option.map_eq_some_iff.1 hs
    exact .inr (.inr ⟨mailbox, rfl, by simp [hp]⟩)
  · rename_i until_ hp
    split at hs
    · exact .inr (.inl ⟨.woken, (Option.some.inj hs).symm, by simp [hp], by simp, .inl rfl, by simp⟩)
    · cases hs
  · rename_i disconnected hp
    cases disconnected with
    | true => exact .inr (.inl ⟨.leaving, (Option.some.inj hs).symm, by simp [hp], by simp, .inl rfl, by simp⟩)
    | false => exact .inr (.inl ⟨.due, (Option.some.inj hs).symm, by simp [hp], by simp, .inl rfl, by simp⟩)
  · split at hs
    · cases hs
    · rename_i hlive
      exact .inr (.inl ⟨.leaving, (Option.some.inj hs).symm, fun h => hlive (.inr h), by simp, .inl rfl, by simp⟩)
  · cases hs

/-- A stream that takes a step of its own stays on its event and in the registry. -/
theorem step_frame (hs : s.step time clock a = some s') :
    s'.event = s.event ∧ s.phase ≠ .ended ∧ s'.phase ≠ .ended := by
  rcases step_cases hs with ⟨hp, rfl⟩ | ⟨phase, rfl, hlive, hlive', -, -⟩ | ⟨mailbox, rfl, hlive⟩
  · exact ⟨rfl, by simp [hp], by simp⟩
  · exact ⟨rfl, hlive, hlive'⟩
  · exact ⟨rfl, hlive, by simp⟩

theorem Heard.step (h : s.Heard pokes) (hclock : ∀ p ∈ pokes, p.time < clock) (hs : s.step time clock a = some s') :
    s'.Heard pokes := by
  rcases step_cases hs with ⟨-, rfl⟩ | ⟨phase, rfl, -, -, hsettled | hsettled, -⟩ | ⟨mailbox, rfl, -⟩
  · -- the read that starts now comes after every poke so far
    exact .inr (.inr fun p hp _ _ => ⟨clock, rfl, hclock p hp⟩)
  · exact .inl hsettled
  · rcases h with h | h | h
    · rw [hsettled] at h
      cases h
    · exact .inr (.inl h)
    · exact .inr (.inr h)
  · exact .inl rfl

theorem Soon.step (hs : s.step time clock a = some s') : s'.Soon time := by
  rcases step_cases hs with ⟨-, rfl⟩ | ⟨phase, rfl, -, -, -, huntil⟩ | ⟨mailbox, rfl, -⟩
  · rintro until_ ⟨⟩
  · intro until_ hp
    obtain ⟨admitAt, now, rfl⟩ := huntil until_ hp
    exact add_le_add_right (waitTimeout_le admitAt now) time
  · rintro until_ ⟨⟩

/-- A poke that is not for the stream changes nothing; one that is fills the slot. -/
theorem Heard.poke (h : s.Heard pokes) (p : Poke) (hmiss : ¬p.Hits s.event) : s.Heard (pokes ++ [p]) := by
  refine h.imp_right (Or.imp_right fun h q hq hhits hsince => ?_)
  rcases List.mem_append.1 hq with hq | hq
  · exact h q hq hhits hsince
  · exact absurd (List.mem_singleton.1 hq ▸ hhits) hmiss

theorem Heard.of_nudge (pokes : List Poke) (s : Stream) : s.nudge.Heard pokes := .inr (.inl s.mailbox.nudge_pending)

end Stream

/-! ### The process -/

/-- The streams of a process with the registry of their mailboxes (a mailbox goes by the number of its
stream); `time` is `loop.time()`, `clock` counts the steps and `pokes` lists the pokes delivered so far. -/
structure Hub where
  mailboxes : Mailboxes := ∅
  streams : List Stream := []
  time : ℚ := 0
  clock : Nat := 0
  pokes : List Poke := []

inductive HubAct where
  /-- A request starts its `gen`, which registers a mailbox. -/
  | register (event : EventId)
  | advance (i : Nat) (a : StreamAct)
  | unregister (i : Nat)
  | wake (event : EventId)
  | wakeAll
  | tick (seconds : ℚ)
deriving DecidableEq

namespace Hub

def nudgeWhere (h : Hub) (p : Nat → Bool) : List Stream := h.streams.mapIdx fun i s => if p i then s.nudge else s

/-- `register` -/
def register (h : Hub) (event : EventId) : Hub :=
  { h with mailboxes := h.mailboxes.register event h.streams.length
           streams := h.streams ++ [{ event, started := h.time, since := h.clock }] }

/-- `unregister`, the last step of a `gen`. -/
def unregister (h : Hub) (i : Nat) (s : Stream) : Option Hub :=
  if s.phase = .leaving then
    some { h with
      mailboxes := h.mailboxes.unregister s.event i
      streams := h.streams.set i { s with phase := .ended } }
  else none

/-- `_wake` -/
def wake (h : Hub) (event : EventId) : Hub :=
  { h with
    streams := h.nudgeWhere fun i => i ∈ h.mailboxes.bucket event
    pokes := h.pokes ++ [⟨h.clock, some event⟩] }

/-- `_wake_all` -/
def wakeAll (h : Hub) : Hub :=
  { h with streams := h.nudgeWhere fun i => h.mailboxes.entries.any fun b => decide (i ∈ b.2)
           pokes := h.pokes ++ [⟨h.clock, none⟩] }

def act (h : Hub) : HubAct → Option Hub
  | .register event => some (h.register event)
  | .advance i a =>
      h.streams[i]?.bind fun s => (s.step h.time h.clock a).map fun s' => { h with streams := h.streams.set i s' }
  | .unregister i => h.streams[i]?.bind (h.unregister i)
  | .wake event => some (h.wake event)
  | .wakeAll => some h.wakeAll
  | .tick seconds => if 0 ≤ seconds then some { h with time := h.time + seconds } else none

def step (h : Hub) (a : HubAct) : Option Hub := (h.act a).map fun h' => { h' with clock := h.clock + 1 }

/-- The registry holds exactly the mailboxes of the streams that have not ended, and no stream sleeps through
a poke. -/
structure Kept (h : Hub) : Prop where
  tidy : h.mailboxes.Tidy
  registered : ∀ i event, i ∈ h.mailboxes.bucket event ↔ ∃ s, h.streams[i]? = some s ∧ s.event = event ∧
    s.phase ≠ .ended
  past : ∀ p ∈ h.pokes, p.time < h.clock
  heard : ∀ s ∈ h.streams, s.Heard h.pokes
  soon : ∀ s ∈ h.streams, s.Soon h.time

variable {h h' : Hub} {a : HubAct}

theorem getElem?_nudgeWhere (p : Nat → Bool) (i : Nat) :
    (h.nudgeWhere p)[i]? = h.streams[i]?.map fun s => if p i then s.nudge else s :=
  List.getElem?_mapIdx

namespace Kept

theorem start : Kept {} where
  tidy event bucket hb := by cases hb
  registered i event := ⟨fun hi => (by cases hi), fun ⟨_, hs, _⟩ => (by cases hs)⟩
  past p hp := by cases hp
  heard s hs := by cases hs
  soon s hs := by cases hs

/-- Time passes. -/
theorem later (hk : Kept h) {time : ℚ} (htime : h.time ≤ time) : Kept { h with time, clock := h.clock + 1 } where
  tidy := hk.tidy
  registered := hk.registered
  past p hp := Nat.lt_succ_of_lt (hk.past p hp)
  heard := hk.heard
  soon s hs until_ hp := (hk.soon s hs until_ hp).trans (add_le_add_left htime _)

/-- A stream changes and stays in the registry. -/
theorem set (hk : Kept h) {i : Nat} {s s' : Stream} (hi : h.streams[i]? = some s) (hevent : s'.event = s.event)
    (hlive : s.phase ≠ .ended) (hlive' : s'.phase ≠ .ended) (hheard : s'.Heard h.pokes) (hsoon : s'.Soon h.time) :
    Kept { h with streams := h.streams.set i s' } where
  tidy := hk.tidy
  registered j event := by
    rw [hk.registered j event]
    by_cases hj : i = j
    · subst hj
      have hlt : i < h.streams.length := (List.getElem?_eq_some_iff.1 hi).1
      rw [hi, List.getElem?_set_self hlt]
      simp [hevent, hlive, hlive']
    · rw [List.getElem?_set_ne hj]
  past := hk.past
  heard t ht := by
    rcases List.mem_or_eq_of_mem_set ht with ht | rfl
    · exact hk.heard t ht
    · exact hheard
  soon t ht := by
    rcases List.mem_or_eq_of_mem_set ht with ht | rfl
    · exact hk.soon t ht
    · exact hsoon

theorem register (hk : Kept h) (event : EventId) : Kept (h.register event) where
  tidy := hk.tidy.register
  registered i event' := by
    rw [Hub.register, Mailboxes.mem_bucket_register, hk.registered]
    rcases Nat.lt_trichotomy i h.streams.length with hlt | rfl | hgt
    · simp [List.getElem?_append_left hlt, hlt.ne]
    · simp [eq_comm]
    · have hnone : h.streams[i]? = none := List.getElem?_eq_none hgt.le
      have hnone' : (h.streams ++ [{ event, started := h.time, since := h.clock }])[i]? = none :=
        List.getElem?_eq_none (by simpa [Nat.succ_le_iff] using hgt)
      simp [hnone, hnone', hgt.ne']
  past := hk.past
  heard s hs := by
    rcases List.mem_append.1 hs with hs | hs
    · exact hk.heard s hs
    · rw [List.mem_singleton.1 hs]
      exact .inl rfl
  soon s hs := by
    rcases List.mem_append.1 hs with hs | hs
    · exact hk.soon s hs
    · rw [List.mem_singleton.1 hs]
      rintro until_ ⟨⟩

theorem unregister (hk : Kept h) {i : Nat} {s : Stream} (hi : h.streams[i]? = some s)
    (hh : h.unregister i s = some h') : Kept h' := by
  unfold Hub.unregister at hh
  split at hh
  · rename_i hleaving
    obtain rfl := Option.some.inj hh
    refine ⟨hk.tidy.unregister, fun j event => ?_, hk.past, fun t ht => ?_, fun t ht => ?_⟩
    · rw [Mailboxes.mem_bucket_unregister, hk.registered]
      by_cases hj : i = j
      · subst hj
        have hlt : i < h.streams.length := (List.getElem?_eq_some_iff.1 hi).1
        rw [hi, List.getElem?_set_self hlt]
        simp [hleaving, eq_comm]
      · simp only [List.getElem?_set_ne hj, Ne.symm hj, and_false, not_false_eq_true, and_true]
    · rcases List.mem_or_eq_of_mem_set ht with ht | rfl
      · exact hk.heard t ht
      · exact .inl rfl
    · rcases List.mem_or_eq_of_mem_set ht with ht | rfl
      · exact hk.soon t ht
      · rintro until_ ⟨⟩
  · cases hh

/-- A poke nudges at least the registered mailboxes it is for. -/
theorem poke (hk : Kept h) {p : Nat → Bool} {target : Option EventId}
    (hp : ∀ i event, i ∈ h.mailboxes.bucket event → (Poke.mk h.clock target).Hits event → p i = true) :
    Kept { h with streams := h.nudgeWhere p, pokes := h.pokes ++ [⟨h.clock, target⟩], clock := h.clock + 1 } where
  tidy := hk.tidy
  registered i event := by
    rw [hk.registered, getElem?_nudgeWhere]
    cases h.streams[i]? with
    | none => simp
    | some s => by_cases hi : p i = true <;> simp [hi, Stream.nudge]
  past q hq := by
    rcases List.mem_append.1 hq with hq | hq
    · exact Nat.lt_succ_of_lt (hk.past q hq)
    · rw [List.mem_singleton.1 hq]
      exact Nat.lt_succ_self _
  heard t ht := by
    obtain ⟨i, hi⟩ := List.mem_iff_getElem?.1 ht
    rw [getElem?_nudgeWhere] at hi
    obtain ⟨s, hs, rfl⟩ := Option.map_eq_some_iff.1 hi
    by_cases hpi : p i = true
    · rw [if_pos hpi]
      exact .of_nudge _ s
    rw [if_neg hpi]
    by_cases hended : s.phase = .ended
    · exact .inl (by rw [hended]; rfl)
    -- the stream is in the registry, so a poke for its event would have reached it
    have hin : i ∈ h.mailboxes.bucket s.event := (hk.registered i s.event).2 ⟨s, hs, rfl, hended⟩
    exact (hk.heard s (List.mem_of_getElem? hs)).poke _ fun hhits => hpi (hp i s.event hin hhits)
  soon t ht := by
    obtain ⟨i, hi⟩ := List.mem_iff_getElem?.1 ht
    rw [getElem?_nudgeWhere] at hi
    obtain ⟨s, hs, rfl⟩ := Option.map_eq_some_iff.1 hi
    have hphase : (if p i then s.nudge else s).phase = s.phase := by split <;> rfl
    intro until_ hu
    exact hk.soon s (List.mem_of_getElem? hs) until_ (hphase ▸ hu)

theorem step (hk : Kept h) (hs : h.step a = some h') : Kept h' := by
  obtain ⟨t, ht, rfl⟩ := Option.map_eq_some_iff.1 hs
  cases a with
  | register event =>
    obtain rfl := Option.some.inj ht
    exact (hk.register event).later le_rfl
  | advance i a =>
    obtain ⟨s, hi, ht⟩ := Option.bind_eq_some_iff.1 ht
    obtain ⟨s', hs', rfl⟩ := Option.map_eq_some_iff.1 ht
    obtain ⟨hevent, hlive, hlive'⟩ := Stream.step_frame hs'
    have hheard := (hk.heard s (List.mem_of_getElem? hi)).step hk.past hs'
    exact (hk.set hi hevent hlive hlive' hheard (Stream.Soon.step hs')).later le_rfl
  | unregister i =>
    obtain ⟨s, hi, ht⟩ := Option.bind_eq_some_iff.1 ht
    have hk' := hk.unregister hi ht
    unfold Hub.unregister at ht
    split at ht
    · obtain rfl := Option.some.inj ht
      exact hk'.later le_rfl
    · cases ht
  | wake event =>
    obtain rfl := Option.some.inj ht
    refine hk.poke fun i event' hi hhits => ?_
    rcases hhits with hhits | hhits
    · cases hhits
    · obtain rfl := Option.some.inj hhits
      exact decide_eq_true hi
  | wakeAll =>
    obtain rfl := Option.some.inj ht
    refine hk.poke fun i event hi _ => List.any_eq_true.2 ?_
    cases hl : AList.lookup event h.mailboxes with
    | none => simp [Mailboxes.bucket, hl] at hi
    | some b => exact ⟨⟨event, b⟩, Hash.mem_entries_iff.2 hl, decide_eq_true (Mailboxes.bucket_eq hl ▸ hi)⟩
  | tick seconds =>
    simp only [act] at ht
    split at ht
    · rename_i hpos
      obtain rfl := Option.some.inj ht
      exact hk.later (le_add_of_nonneg_right hpos)
    · cases ht

theorem of_run {acts : List HubAct} (hrun : exec Hub.step {} acts = some h) : Kept h :=
  exec_invariant (C := fun _ _ => True) (fun _ _ _ _ hs hi => hi.step hs) .start
    (Along.of_forall fun _ _ _ => trivial) hrun

end Kept

/-! ### No missed wake-up -/

/-- Whatever happens to the pokes, a stream that waits can go on to its next read once a heartbeat has passed. -/
theorem timeout_within_heartbeat {acts : List HubAct} (hrun : exec step {} acts = some h) {i : Nat} {s : Stream}
    (hi : h.streams[i]? = some s) {until_ : ℚ} (hp : s.phase = .waiting until_) :
    ∃ h', exec step h [.tick heartbeatSeconds, .advance i .timeout] = some h' ∧
      h'.streams[i]? = some { s with phase := .woken } := by
  have hsoon := (Kept.of_run hrun).soon s (List.mem_of_getElem? hi) until_ hp
  have hbeat : 0 ≤ heartbeatSeconds := by decide
  have htimeout : s.step (h.time + heartbeatSeconds) (h.clock + 1) .timeout = some { s with phase := .woken } := by
    simp [Stream.step, hp, hsoon]
  refine ⟨{ h with streams := h.streams.set i { s with phase := .woken }
                   time := h.time + heartbeatSeconds
                   clock := h.clock + 1 + 1 }, ?_, ?_⟩
  · simp [exec, step, act, hbeat, hi, htimeout]
  · exact List.getElem?_set_self (List.getElem?_eq_some_iff.1 hi).1

/-- In every interleaving of pokes with the steps of the streams of a process: a stream that waits on an empty
mailbox has started its most recent read after every poke for it since it registered; and once all streams
have ended the registry is empty. -/
theorem no_missed_wake {acts : List HubAct} (hrun : exec step {} acts = some h) :
    (∀ s ∈ h.streams, s.phase.isWaiting = true → s.mailbox.pending = 0 →
      ∀ p ∈ h.pokes, p.Hits s.event → s.since ≤ p.time → ∃ r, s.lastRead = some r ∧ p.time < r) ∧
    ((∀ s ∈ h.streams, s.phase = .ended) → h.mailboxes = ∅) := by
  have hk := Kept.of_run hrun
  refine ⟨fun s hs hwaiting hempty => ?_, fun hended => hk.tidy.eq_empty fun event i hi => ?_⟩
  · rcases hk.heard s hs with h1 | h1 | h1
    · cases hp : s.phase with
      | waiting until_ =>
        rw [hp] at h1
        cases h1
      | _ =>
        rw [hp] at hwaiting
        cases hwaiting
    · omega
    · exact h1
  · obtain ⟨s, hs, -, hlive⟩ := (hk.registered i event).1 hi
    exact hlive (hended s (List.mem_of_getElem? hs))

/-- A read that finds the user still in line, up to the next wait. -/
private def round (i : Nat) : List HubAct :=
  [.advance i .startRead, .advance i (.answer { admitted := false }), .advance i .resume,
    .advance i (.compute (some 37) 25)]

/-- A wake-up by a poke, up to the next read. -/
private def heed (i : Nat) : List HubAct := [.advance i .receive, .advance i (.check false)]

/-- Pokes arrive before the first read, into a full slot, and between a wake-up and the read that follows it. -/
private def poked : List HubAct :=
  [.register 1, .register 2, .wake 1, .wakeAll] ++ round 0 ++
    [.advance 0 .receive, .wake 1, .advance 0 (.check false)] ++ round 0 ++
    heed 0 ++ round 0

private def closed : List HubAct :=
  [.advance 1 .cancel, .unregister 1, .tick 12, .advance 0 .timeout, .advance 0 (.check true), .unregister 0]

theorem no_missed_wake_poked :
    (∃ h, exec step {} poked = some h ∧ h.pokes = [⟨2, some 1⟩, ⟨3, none⟩, ⟨9, some 1⟩] ∧
      ∃ s ∈ h.streams, s.phase.isWaiting = true ∧ s.mailbox.pending = 0 ∧ s.event = 1 ∧
        ∀ p ∈ h.pokes, p.Hits 1 → s.since ≤ p.time → ∃ r, s.lastRead = some r ∧ p.time < r) ∧
    ∃ h, exec step {} (poked ++ closed) = some h ∧ h.streams.length = 2 ∧ h.mailboxes = ∅ := by
  constructor
  · obtain ⟨h, hrun, hp⟩ := exec_any step {} poked
      (fun h => decide (h.pokes = [⟨2, some 1⟩, ⟨3, none⟩, ⟨9, some 1⟩]) &&
      h.streams.any fun s => s.phase.isWaiting && decide (s.mailbox.pending = 0 ∧ s.event = 1)) (by decide +kernel)
    simp only [Bool.and_eq_true, decide_eq_true_eq, List.any_eq_true] at hp
    obtain ⟨hpokes, s, hs, hwaiting, hempty, hevent⟩ := hp
    refine ⟨h, hrun, hpokes, s, hs, hwaiting, hempty, hevent, ?_⟩
    rw [← hevent]
    exact (no_missed_wake hrun).1 s hs hwaiting hempty
  · obtain ⟨h, hrun, hp⟩ := exec_any step {} (poked ++ closed) (fun h => decide (h.streams.length = 2) &&
      h.streams.all fun s => decide (s.phase = .ended)) (by decide +kernel)
    simp only [Bool.and_eq_true, decide_eq_true_eq, List.all_eq_true] at hp
    exact ⟨h, hrun, hp.1, (no_missed_wake hrun).2 hp.2⟩

end Hub

end Ticketing
