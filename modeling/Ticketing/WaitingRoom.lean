import Mathlib.Data.List.Count
import Ticketing.Submission

/-!
# The waiting room

`join_queue` looks at the registration window and only then, several Redis commands later, adds the user to
the draw: a sorted set ordered by a salted hash.  `status` reads the stock, the pause flag, the rank of the
user, the clock and the size of the draw, one after the other, and admits the user once the rank is below a
cutoff that grows with the time since the window closed.

`admit_deadline` rests on the rank being final once the window is closed.  It is not: a `ZADD` whose request
passed the window check in time may arrive later and push everybody behind it back, and a `status` may read
the rank before the last registrations and the clock after them (`admission_taken_back`).  Nor is it final
that the event is published: `status` reads the cached event meta, which a load that has read the row before
the publication may turn back to a draft.  `admission_kept` says what is missing: if nobody enters the draw at
or after the closing time, a `status` that looks at the clock after it has the rank the user still has, and
whoever was admitted finds the event published, then no admission is ever taken back and the ranks are final.
-/

namespace Ticketing

open Exec

/-! ### Window and cutoff -/

/-- Ints are microseconds since the epoch, the resolution of a `datetime`. -/
def second : Int := 1000000

structure QueueSettings where
  leadTimeSeconds : Int := 600
  admissionBufferSeconds : Int := 30
  admissionRate : Int := 500

/-- The columns of the event that its registration window is made of. -/
structure QueueTimes where
  saleStartsAt : Int
  queueOpensAt : Option Int := none
  queueClosesAt : Option Int := none

namespace QueueSettings

/-- Explicit columns win; a missing side is derived from the start of the sale. -/
def effectiveWindow (cfg : QueueSettings) (t : QueueTimes) : Int × Int :=
  (t.queueOpensAt.getD (t.saleStartsAt - cfg.leadTimeSeconds * second),
    t.queueClosesAt.getD (t.saleStartsAt - cfg.admissionBufferSeconds * second))

/-- `int(elapsed * QUEUE_ADMISSION_RATE)`, with `elapsed` in microseconds. -/
def admittedSoFar (cfg : QueueSettings) (elapsed : Int) : Int := (elapsed * cfg.admissionRate).tdiv second

/-- The end of `_admitted_count`. -/
def admittedCount (cfg : QueueSettings) (elapsed : Int) (total : Nat) : Int := min (cfg.admittedSoFar elapsed) total

end QueueSettings

/-! ### The draw -/

/-- A member of the sorted set: `str(user_id)` with its score. -/
structure DrawEntry where
  user : UserId
  score : Nat
deriving DecidableEq

/-- The order of a sorted set: by score, and by the bytes of the member where the scores are equal. -/
def DrawEntry.before (a b : DrawEntry) : Bool :=
  a.score < b.score || (a.score == b.score && Nat.toDigits 10 a.user < Nat.toDigits 10 b.user)

abbrev Draw := List DrawEntry

namespace Draw

def has (d : Draw) (user : UserId) : Bool := d.any fun e => e.user == user

/-- `ZADD NX` -/
def zaddNx (d : Draw) (e : DrawEntry) : Draw := if d.has e.user then d else d ++ [e]

def zrank (d : Draw) (user : UserId) : Option Nat :=
  (d.find? fun e => e.user == user).map fun e => d.countP fun other => other.before e

def zcard (d : Draw) : Nat := d.length

end Draw

/-! ### Requests -/

structure QueueState where
  admitted : Bool
  peopleAhead : Option Int := none
  soldOut : Bool := false
  paused : Bool := false
deriving DecidableEq

inductive JoinRefusal where
  | eventNotOnSale
  /-- "queue not open yet" -/
  | notOpen
  /-- "queue registration closed" -/
  | closed
deriving DecidableEq

/-- The point a request has reached. -/
inductive QueuePhase where
  /-- `join_queue`: about to look at the event and its window. -/
  | joining
  /-- `_ensure_salt`: about to set the salt, … -/
  | salting
  /-- … and to read it. -/
  | readingSalt
  | adding (salt : String)
  /-- `status`: about to read the stock. -/
  | asking
  | checkingPause (soldOut : Bool)
  | ranking (soldOut paused : Bool)
  /-- `_admit_start`: about to read the event meta. -/
  | scheduling (paused : Bool) (rank : Nat)
  | timing (paused : Bool) (rank : Nat)
  | counting (paused : Bool) (rank : Nat) (elapsed : Int)
  | answered (state : QueueState)
  | refused (reason : JoinRefusal)
deriving DecidableEq

namespace QueuePhase

/-- The next step is the `ZADD`. -/
def entersDraw : QueuePhase → Bool
  | adding _ => true
  | _ => false

/-- The next step reads the event meta. -/
def readsMeta : QueuePhase → Bool
  | scheduling _ _ => true
  | _ => false

/-- The rank with which the next step reads the clock. -/
def rankAtClock : QueuePhase → Option Nat
  | timing _ rank => some rank
  | _ => none

/-- The rank that `status` has read. -/
def rankRead : QueuePhase → Option Nat
  | scheduling _ rank | timing _ rank | counting _ rank _ => some rank
  | _ => none

end QueuePhase

/-- A `join_queue` request or a `status` call; `since` says that the user had been told to be admitted when
`status` began. -/
structure QueueCall where
  user : UserId
  phase : QueuePhase
  since : Bool := false
deriving DecidableEq

/-- What `status` answers once it has the rank and the cutoff. -/
def QueueState.ofRank (paused : Bool) (rank : Nat) (admittedCount : Int) : QueueState :=
  if paused then { admitted := false, peopleAhead := some (max 0 (rank - admittedCount)), paused := true }
  else if rank < admittedCount then { admitted := true }
  else { admitted := false, peopleAhead := some (rank - admittedCount) }

/-- The event as the waiting room sees it; the window and the rate stay as they are. -/
structure QueuedEvent where
  event : EventId
  times : QueueTimes
  cfg : QueueSettings
  /-- `_score`: the first 48 bits of a SHA-256 of the event, the user and the salt. -/
  score : EventId → UserId → String → Nat

namespace QueuedEvent

def opens (ev : QueuedEvent) : Int := (ev.cfg.effectiveWindow ev.times).1

def closes (ev : QueuedEvent) : Int := (ev.cfg.effectiveWindow ev.times).2

end QueuedEvent

structure WaitingRoom where
  now : Int
  /-- The status in the database. -/
  row : EventStatus := .draft
  /-- The status that `get_event_meta` gives: of the cached meta, or of the row as a load has read it. -/
  status : EventStatus := .draft
  /-- The stock counter, if its key is there. -/
  available : Option Int := none
  paused : Bool := false
  salt : Option String := none
  draw : Draw := []
  calls : List QueueCall := []
  /-- Everybody a `status` call has told to be admitted. -/
  admitted : List UserId := []

inductive QueueAct where
  /-- Time passes. -/
  | tick (micros : Nat)
  | publish
  /-- A fill of the cache, its invalidation or its expiry: `get_event_meta` now gives a status that the row
  has or had. -/
  | changeMeta (status : EventStatus)
  /-- Orders and releases move the stock. -/
  | restock (available : Option Int)
  | setPaused (paused : Bool)
  | join (user : UserId)
  | poll (user : UserId)
  /-- The next step of a request; `fresh` is what `secrets.token_hex` returns there. -/
  | advance (i : Nat) (fresh : String)

/-- The request that the step advances. -/
def QueueAct.request : QueueAct → Option Nat
  | advance i _ => some i
  | _ => none

namespace WaitingRoom

/-- `get_available` -/
def getAvailable (w : WaitingRoom) : Int := w.available.elim 0 (max 0)

def begin (w : WaitingRoom) (call : QueueCall) : WaitingRoom := { w with calls := w.calls ++ [call] }

def setCall (w : WaitingRoom) (i : Nat) (call : QueueCall) : WaitingRoom := { w with calls := w.calls.set i call }

/-- The window check of `join_queue`. -/
def checkWindow (w : WaitingRoom) (ev : QueuedEvent) : QueuePhase :=
  if w.row ≠ .published then .refused .eventNotOnSale
  else if w.now < ev.opens then .refused .notOpen
  else if ev.closes ≤ w.now then .refused .closed
  else .salting

/-- `status` after the rank is known. -/
def afterRank (soldOut paused : Bool) : Option Nat → QueuePhase
  | none => .answered { admitted := false, soldOut := soldOut, paused := paused }
  | some rank =>
      if soldOut then .answered { admitted := false, soldOut := true, paused := paused } else .scheduling paused rank

/-- An event that the meta does not call published admits nobody. -/
def schedule (w : WaitingRoom) (paused : Bool) (rank : Nat) : QueuePhase :=
  if w.status = .published then .timing paused rank else .answered (.ofRank paused rank 0)

def readClock (w : WaitingRoom) (ev : QueuedEvent) (paused : Bool) (rank : Nat) : QueuePhase :=
  if w.now - ev.closes ≤ 0 then .answered (.ofRank paused rank 0) else .counting paused rank (w.now - ev.closes)

/-- A `status` call is over; an admission is remembered. -/
def answer (w : WaitingRoom) (i : Nat) (call : QueueCall) (state : QueueState) : WaitingRoom :=
  { w.setCall i { call with phase := .answered state } with
    admitted := if state.admitted then call.user :: w.admitted else w.admitted }

/-- The next step of the request `i`. -/
def advance (w : WaitingRoom) (ev : QueuedEvent) (i : Nat) (fresh : String) (call : QueueCall) : Option WaitingRoom :=
  match call.phase with
  | .joining => some (w.setCall i { call with phase := w.checkWindow ev })
  | .salting => some { w.setCall i { call with phase := .readingSalt } with salt := w.salt.or (some fresh) }
  | .readingSalt => w.salt.map fun salt => w.setCall i { call with phase := .adding salt }
  | .adding salt =>
    some { w.setCall i { call with phase := .asking } with
      draw := w.draw.zaddNx { user := call.user, score := ev.score ev.event call.user salt } }
  | .asking =>
    some (w.setCall i
      { call with phase := .checkingPause (decide (w.getAvailable ≤ 0)), since := decide (call.user ∈ w.admitted) })
  | .checkingPause soldOut => some (w.setCall i { call with phase := .ranking soldOut w.paused })
  | .ranking soldOut paused =>
      some (w.setCall i { call with phase := afterRank soldOut paused (w.draw.zrank call.user) })
  | .scheduling paused rank => some (w.setCall i { call with phase := w.schedule paused rank })
  | .timing paused rank => some (w.setCall i { call with phase := w.readClock ev paused rank })
  | .counting paused rank elapsed =>
    some (w.answer i call (.ofRank paused rank (ev.cfg.admittedCount elapsed w.draw.zcard)))
  | .answered _ | .refused _ => none

def step (ev : QueuedEvent) (w : WaitingRoom) : QueueAct → Option WaitingRoom
  | .tick micros => some { w with now := w.now + micros }
  | .publish => some { w with row := .published }
  | .changeMeta status => if status = w.row ∨ status = .draft then some { w with status := status } else none
  | .restock available => some { w with available := available }
  | .setPaused paused => some { w with paused := paused }
  | .join user => some (w.begin { user := user, phase := .joining })
  | .poll user => some (w.begin { user := user, phase := .asking })
  | .advance i fresh => w.calls[i]?.bind (w.advance ev i fresh)

/-- Nobody has registered yet. -/
def opening (now : Int) : WaitingRoom := { now := now }

/-- Whoever has been told to be admitted is told so again, unless the event was found sold out or paused. -/
def Kept (w : WaitingRoom) : Prop :=
  ∀ call ∈ w.calls, call.since = true → ∀ state, call.phase = .answered state →
    state.admitted = true ∨ state.soldOut = true ∨ state.paused = true

/-- What a step has to meet for the admissions to be final: nobody enters the draw once the window is closed,
a `status` for somebody who has been admitted does not find the meta of a draft, and one that reads the clock
after the closing time has the rank that the user still has. -/
def Timely (ev : QueuedEvent) (w : WaitingRoom) (a : QueueAct) : Prop :=
  ∀ i ∈ a.request, ∀ call ∈ w.calls[i]?,
    (call.phase.entersDraw = true → w.draw.has call.user = true ∨ w.now < ev.closes) ∧
    (call.since = true → call.phase.readsMeta = true → w.status = .published) ∧
    ∀ rank ∈ call.phase.rankAtClock, w.now ≤ ev.closes ∨ w.draw.zrank call.user = some rank

instance (ev : QueuedEvent) (w : WaitingRoom) (a : QueueAct) : Decidable (w.Timely ev a) :=
  inferInstanceAs (Decidable (∀ i ∈ a.request, _))

end WaitingRoom

/-! ### The cutoff only grows, and a rank is below the size of the draw -/

/-- The derivation in `admit_deadline`: a rank is below the cutoff from `(rank + 1) / RATE` on. -/
private theorem lt_admittedSoFar_iff (cfg : QueueSettings) (rank : Nat) (elapsed : Int) :
    rank < cfg.admittedSoFar elapsed ↔ (rank + 1) * second ≤ elapsed * cfg.admissionRate := by
  have hs : 0 < second := by decide
  rw [QueueSettings.admittedSoFar]
  rcases le_or_gt 0 (elapsed * cfg.admissionRate) with hx | hx
  · rw [Int.tdiv_eq_ediv_of_nonneg hx, Int.lt_iff_add_one_le, Int.le_ediv_iff_mul_le hs]
  · have hdiv : (elapsed * cfg.admissionRate).tdiv second ≤ 0 := by
      have hle := Int.tdiv_le_tdiv hs hx.le
      rwa [Int.zero_tdiv] at hle
    have hpos : 0 < (rank + 1 : Int) * second := by positivity
    constructor <;> intro h <;> omega

private theorem admittedSoFar_grows {cfg : QueueSettings} {rank : Nat} {e e' : Int} (he : 0 < e) (hle : e ≤ e')
    (h : rank < cfg.admittedSoFar e) : rank < cfg.admittedSoFar e' := by
  rw [lt_admittedSoFar_iff] at h ⊢
  have hs : 0 < second := by decide
  have hpos : 0 < e * cfg.admissionRate := lt_of_lt_of_le (by positivity) h
  have hrate : 0 < cfg.admissionRate := pos_of_mul_pos_right hpos he.le
  exact h.trans (mul_le_mul_of_nonneg_right hle hrate.le)

private theorem before_irrefl (e : DrawEntry) : e.before e = false := by
  simp [DrawEntry.before]

private theorem zrank_lt_zcard {d : Draw} {user : UserId} {rank : Nat} (h : d.zrank user = some rank) :
    rank < d.zcard := by
  obtain ⟨e, he, rfl⟩ := Option.map_eq_some_iff.1 h
  exact List.countP_lt_length_iff.2 ⟨e, List.mem_of_find?_eq_some he, before_irrefl e⟩

/-- `ZADD NX` leaves the draw alone when the user is already in it. -/
private theorem zaddNx_eq_of_has {d : Draw} {e : DrawEntry} (h : d.has e.user = true) : d.zaddNx e = d := by
  rw [Draw.zaddNx, if_pos h]

/-- A rank below the cutoff and below the size of the draw is admitted, unless admission is paused. -/
private theorem ofRank_kept {cfg : QueueSettings} {rank total : Nat} {elapsed : Int} (paused : Bool)
    (hrank : rank < cfg.admittedSoFar elapsed) (htotal : rank < total) :
    (QueueState.ofRank paused rank (cfg.admittedCount elapsed total)).admitted = true ∨
      (QueueState.ofRank paused rank (cfg.admittedCount elapsed total)).soldOut = true ∨
      (QueueState.ofRank paused rank (cfg.admittedCount elapsed total)).paused = true := by
  have hlt : (rank : Int) < cfg.admittedCount elapsed total := lt_min hrank (by exact_mod_cast htotal)
  cases paused with
  | true => simp [QueueState.ofRank]
  | false => simp [QueueState.ofRank, hlt]

private theorem lt_admittedSoFar_of_ofRank {cfg : QueueSettings} {paused : Bool} {rank total : Nat} {elapsed : Int}
    (h : (QueueState.ofRank paused rank (cfg.admittedCount elapsed total)).admitted = true) :
    rank < cfg.admittedSoFar elapsed := by
  have hlt : (rank : Int) < cfg.admittedCount elapsed total := by
    by_contra hnot
    cases paused <;> simp [QueueState.ofRank, hnot] at h
  exact lt_of_lt_of_le hlt (min_le_left _ _)

namespace WaitingRoom

variable {ev : QueuedEvent} {w w' : WaitingRoom}

/-! ### What passes from one state to the next -/

/-- Time goes on, no admission is forgotten, and the draw of a closed window stays as it is. -/
structure Later (ev : QueuedEvent) (w w' : WaitingRoom) : Prop where
  now : w.now ≤ w'.now
  admitted : w.admitted ⊆ w'.admitted
  draw : ev.closes ≤ w.now → w'.draw = w.draw

private theorem Later.of_eq (hnow : w.now ≤ w'.now) (had : w'.admitted = w.admitted)
    (hd : w'.draw = w.draw) : Later ev w w' where
  now := hnow
  admitted := by rw [had]; exact List.Subset.refl _
  draw _ := hd

/-- The user's rank is below the cutoff, and the window is closed. -/
structure Standing (ev : QueuedEvent) (w : WaitingRoom) (user : UserId) : Prop where
  closed : ev.closes < w.now
  rank : ∃ rank, w.draw.zrank user = some rank ∧ rank < ev.cfg.admittedSoFar (w.now - ev.closes)

private theorem Standing.later {user : UserId} (h : Standing ev w user) (hl : Later ev w w') :
    Standing ev w' user := by
  obtain ⟨rank, hrank, hlt⟩ := h.rank
  have hclosed := h.closed
  have hnow := hl.now
  refine ⟨by omega, rank, ?_, ?_⟩
  · rwa [hl.draw hclosed.le]
  · exact admittedSoFar_grows (by omega) (by omega) hlt

/-- What is known of a request while it is under way. -/
structure Told (ev : QueuedEvent) (w : WaitingRoom) (call : QueueCall) : Prop where
  since : call.since = true → call.user ∈ w.admitted
  rank : call.since = true → ∀ rank ∈ call.phase.rankRead, w.draw.zrank call.user = some rank
  counting : ∀ paused rank elapsed, call.phase = .counting paused rank elapsed →
    0 < elapsed ∧ elapsed ≤ w.now - ev.closes ∧ w.draw.zrank call.user = some rank ∧
      (call.since = true → rank < ev.cfg.admittedSoFar elapsed)
  answered : call.since = true → ∀ state, call.phase = .answered state →
    state.admitted = true ∨ state.soldOut = true ∨ state.paused = true

/-- Every admission stands, and every request knows what it may rely on. -/
structure Steady (ev : QueuedEvent) (w : WaitingRoom) : Prop where
  standing : ∀ user ∈ w.admitted, Standing ev w user
  told : ∀ call ∈ w.calls, Told ev w call

private theorem Told.later {call : QueueCall} (h : Told ev w call) (hst : ∀ user ∈ w.admitted, Standing ev w user)
    (hl : Later ev w w') : Told ev w' call where
  since hs := hl.admitted (h.since hs)
  rank hs rank hrank := by
    rw [hl.draw (hst _ (h.since hs)).closed.le]
    exact h.rank hs rank hrank
  counting paused rank elapsed hp := by
    obtain ⟨hpos, hle, hrank, hlt⟩ := h.counting paused rank elapsed hp
    have hnow := hl.now
    refine ⟨hpos, by omega, ?_, hlt⟩
    rwa [hl.draw (by omega)]
  answered := h.answered

/-- A request that has read no rank and has not answered relies on nothing. -/
private theorem Told.of_quiet {call : QueueCall} (hs : call.since = true → call.user ∈ w.admitted)
    (hrank : call.phase.rankRead = none) (ha : ∀ state, call.phase ≠ .answered state) : Told ev w call where
  since := hs
  rank _ rank hr := by simp [hrank] at hr
  counting paused rank elapsed hp := by simp [hp, QueuePhase.rankRead] at hrank
  answered _ state hp := absurd hp (ha state)

/-- An answer that the request may give. -/
private theorem Told.of_answered {call : QueueCall} {state : QueueState}
    (hs : call.since = true → call.user ∈ w.admitted) (hp : call.phase = .answered state)
    (ha : call.since = true → state.admitted = true ∨ state.soldOut = true ∨ state.paused = true) :
    Told ev w call where
  since := hs
  rank _ rank hr := by simp [hp, QueuePhase.rankRead] at hr
  counting paused rank elapsed hc := by simp [hp] at hc
  answered hsince state' hp' := by
    rw [hp, QueuePhase.answered.injEq] at hp'
    exact hp' ▸ ha hsince

/-- A state in which one request was replaced. -/
private theorem Steady.replace {i : Nat} {call : QueueCall} (h : Steady ev w) (hl : Later ev w w')
    (hcalls : w'.calls = w.calls.set i call) (hst : ∀ user ∈ w'.admitted, Standing ev w' user) (hc : Told ev w call) :
    Steady ev w' := by
  refine ⟨hst, fun c hmem => ?_⟩
  rw [hcalls] at hmem
  rcases List.mem_or_eq_of_mem_set hmem with hmem | rfl
  · exact (h.told c hmem).later h.standing hl
  · exact hc.later h.standing hl

/-- The same when the step only moves the request on. -/
private theorem Steady.move {i : Nat} {call : QueueCall} (h : Steady ev w) (hl : Later ev w w')
    (hcalls : w'.calls = w.calls.set i call) (had : w'.admitted = w.admitted) (hc : Told ev w call) : Steady ev w' :=
  h.replace hl hcalls (fun user hu => (h.standing user (had ▸ hu)).later hl) hc

private theorem told_afterRank {call : QueueCall} (h : Steady ev w) (hs : call.since = true → call.user ∈ w.admitted)
    (soldOut paused : Bool) : Told ev w { call with phase := afterRank soldOut paused (w.draw.zrank call.user) } := by
  cases hrank : w.draw.zrank call.user with
  | none =>
    -- somebody who was admitted has a rank
    refine .of_answered hs rfl fun hsince => ?_
    obtain ⟨rank, hr, -⟩ := (h.standing _ (hs hsince)).rank
    simp [hr] at hrank
  | some rank =>
    cases soldOut with
    | true => exact .of_answered hs rfl fun _ => .inr (.inl rfl)
    | false =>
      refine ⟨hs, fun _ r hr => ?_, fun _ _ _ hp => ?_, fun _ _ hp => ?_⟩
      · simp only [afterRank, QueuePhase.rankRead, Bool.false_eq_true, if_false, Option.mem_def,
          Option.some.injEq] at hr
        exact hr ▸ hrank
      all_goals simp [afterRank] at hp

private theorem told_schedule {call : QueueCall} {paused : Bool} {rank : Nat} (hc : Told ev w call)
    (hp : call.phase = .scheduling paused rank) (hmeta : call.since = true → w.status = .published) :
    Told ev w { call with phase := w.schedule paused rank } := by
  by_cases hpub : w.status = .published
  · rw [schedule, if_pos hpub]
    refine ⟨hc.since, fun hsince r hr => hc.rank hsince r ?_, fun _ _ _ hq => ?_, fun _ _ hq => ?_⟩
    · rw [hp]
      exact hr
    all_goals simp at hq
  · rw [schedule, if_neg hpub]
    exact .of_answered hc.since rfl fun hsince => absurd (hmeta hsince) hpub

private theorem told_readClock {call : QueueCall} {paused : Bool} {rank : Nat} (h : Steady ev w) (hc : Told ev w call)
    (hrank : w.now ≤ ev.closes ∨ w.draw.zrank call.user = some rank) :
    Told ev w { call with phase := w.readClock ev paused rank } := by
  by_cases hclosed : w.now - ev.closes ≤ 0
  · rw [readClock, if_pos hclosed]
    refine .of_answered hc.since rfl fun hsince => ?_
    have hlt := (h.standing _ (hc.since hsince)).closed
    omega
  · rw [readClock, if_neg hclosed]
    have hr : w.draw.zrank call.user = some rank := hrank.resolve_left (by omega)
    refine ⟨hc.since, fun _ r hr' => ?_, fun p r e hq => ?_, fun _ _ hq => ?_⟩
    · rw [← Option.some.inj hr']
      exact hr
    · obtain ⟨rfl, rfl, rfl⟩ := QueuePhase.counting.inj hq
      refine ⟨by omega, le_rfl, hr, fun hsince => ?_⟩
      obtain ⟨r, hr', hlt⟩ := (h.standing _ (hc.since hsince)).rank
      rwa [Option.some.inj (hr.symm.trans hr')]
    all_goals simp at hq

private theorem subset_answer {i : Nat} {call : QueueCall} {state : QueueState} {user : UserId}
    (hu : user ∈ w.admitted) :
    user ∈ (w.answer i call state).admitted := by
  simp only [answer]
  split
  · exact List.mem_cons_of_mem _ hu
  · exact hu

private theorem mem_answer {i : Nat} {call : QueueCall} {state : QueueState} {user : UserId}
    (hu : user ∈ (w.answer i call state).admitted) : user ∈ w.admitted ∨
    (user = call.user ∧ state.admitted = true) := by
  simp only [answer] at hu
  split at hu
  case isTrue hadm => exact (List.mem_cons.1 hu).symm.imp_right fun he => ⟨he, hadm⟩
  case isFalse => exact .inl hu

/-- The last step of `status`: its answer stands, and so does the admission it may give. -/
private theorem steady_answer {i : Nat} {call : QueueCall} {paused : Bool} {rank : Nat} {elapsed : Int}
    (h : Steady ev w)
    (hl : Later ev w (w.answer i call (.ofRank paused rank (ev.cfg.admittedCount elapsed w.draw.zcard))))
    (hc : Told ev w call) (hp : call.phase = .counting paused rank elapsed) :
    Steady ev (w.answer i call (.ofRank paused rank (ev.cfg.admittedCount elapsed w.draw.zcard))) := by
  obtain ⟨hpos, hle, hrank, hlt⟩ := hc.counting paused rank elapsed hp
  refine h.replace hl rfl (fun user hu => ?_) (.of_answered hc.since rfl fun hsince => ?_)
  · rcases mem_answer hu with hu | ⟨rfl, hadm⟩
    · exact (h.standing user hu).later hl
    · have hbelow := lt_admittedSoFar_of_ofRank hadm
      have hstanding : Standing ev w call.user :=
        ⟨by omega, rank, hrank, admittedSoFar_grows hpos hle hbelow⟩
      exact hstanding.later hl
  · exact ofRank_kept paused (hlt hsince) (zrank_lt_zcard hrank)

/-! ### Steps and runs -/

private theorem later_advance {i : Nat} {fresh : String} {call : QueueCall} (ht : w.Timely ev (.advance i fresh))
    (hcall : w.calls[i]? = some call) (hw : w.advance ev i fresh call = some w') : Later ev w w' := by
  obtain ⟨henter, -⟩ := ht i rfl call hcall
  unfold advance at hw
  split at hw <;> try obtain rfl := Option.some.inj hw
  case h_3 =>
    obtain ⟨salt, -, rfl⟩ := Option.map_eq_some_iff.1 hw
    exact .of_eq le_rfl rfl rfl
  case h_4 salt hp =>
    -- a new member comes before the window closes
    refine ⟨le_rfl, List.Subset.refl _, fun hle => ?_⟩
    rcases henter (by rw [hp]; rfl) with hhas | hlt
    · exact zaddNx_eq_of_has hhas
    · omega
  case h_10 =>
    refine ⟨le_rfl, fun user hu => ?_, fun _ => rfl⟩
    exact subset_answer hu
  case h_11 => cases hw
  case h_12 => cases hw
  all_goals exact .of_eq le_rfl rfl rfl

private theorem eq_of_changeMeta {status : EventStatus} (hw : step ev w (.changeMeta status) = some w') :
    { w with status := status } = w' := by
  rw [step] at hw
  split at hw
  · exact Option.some.inj hw
  · cases hw

/-- Every step that is in time leads to a later state. -/
theorem later_step {a : QueueAct} (ht : w.Timely ev a) (hw : step ev w a = some w') : Later ev w w' := by
  cases a with
  | advance i fresh =>
    obtain ⟨call, hcall, hadv⟩ := Option.bind_eq_some_iff.1 hw
    exact later_advance ht hcall hadv
  | tick micros =>
    obtain rfl := Option.some.inj hw
    exact .of_eq (Int.le_add_of_nonneg_right (Int.natCast_nonneg _)) rfl rfl
  | changeMeta status =>
    obtain rfl := eq_of_changeMeta hw
    exact .of_eq le_rfl rfl rfl
  | publish | restock _ | setPaused _ | join _ | poll _ =>
    obtain rfl := Option.some.inj hw
    exact .of_eq le_rfl rfl rfl

private theorem steady_advance {i : Nat} {fresh : String} {call : QueueCall} (h : Steady ev w)
    (ht : w.Timely ev (.advance i fresh)) (hcall : w.calls[i]? = some call)
    (hw : w.advance ev i fresh call = some w') :
    Steady ev w' := by
  have hc : Told ev w call := h.told call (List.mem_of_getElem? hcall)
  have hl : Later ev w w' := later_advance ht hcall hw
  obtain ⟨-, hmeta, hclock⟩ := ht i rfl call hcall
  unfold advance at hw
  split at hw <;> try obtain rfl := Option.some.inj hw
  case h_1 =>
    refine h.move hl rfl rfl (.of_quiet hc.since ?_ ?_) <;> simp only [checkWindow] <;> split_ifs <;> simp
      [QueuePhase.rankRead]
  case h_2 => exact h.move hl rfl rfl (.of_quiet hc.since rfl (by simp))
  case h_3 =>
    obtain ⟨salt, -, rfl⟩ := Option.map_eq_some_iff.1 hw
    exact h.move hl rfl rfl (.of_quiet hc.since rfl (by simp))
  case h_4 => exact h.move hl rfl rfl (.of_quiet hc.since rfl (by simp))
  case h_5 => exact h.move hl rfl rfl (.of_quiet (fun hs => of_decide_eq_true hs) rfl (by simp))
  case h_6 => exact h.move hl rfl rfl (.of_quiet hc.since rfl (by simp))
  case h_7 soldOut paused hp => exact h.move hl rfl rfl (told_afterRank h hc.since soldOut paused)
  case h_8 paused rank hp =>
    exact h.move hl rfl rfl (told_schedule hc hp fun hsince => hmeta hsince (by rw [hp]; rfl))
  case h_9 paused rank hp => exact h.move hl rfl rfl (told_readClock h hc (hclock rank (by rw [hp]; rfl)))
  case h_10 paused rank elapsed hp => exact steady_answer h hl hc hp
  all_goals cases hw

private theorem mem_begin {call new : QueueCall} (h : call ∈ (w.begin new).calls) : call ∈ w.calls ∨ call = new := by
  simpa [begin] using h

/-- A step that gives no answer and at most adds a request that has not begun. -/
private theorem Steady.idle (h : Steady ev w) (hl : Later ev w w') (had : w'.admitted = w.admitted)
    (hcalls : ∀ call ∈ w'.calls, call ∈ w.calls ∨ (call.since = false ∧ call.phase.rankRead = none ∧
      ∀ state, call.phase ≠ .answered state)) : Steady ev w' := by
  refine ⟨fun user hu => (h.standing user (had ▸ hu)).later hl, fun call hmem => ?_⟩
  rcases hcalls call hmem with hmem | ⟨hs, hrank, ha⟩
  · exact (h.told call hmem).later h.standing hl
  · exact .of_quiet (by simp [hs]) hrank ha

/-- Every step that is in time keeps the admissions. -/
theorem steady_step {a : QueueAct} (ht : w.Timely ev a) (hw : step ev w a = some w') (h : Steady ev w) :
    Steady ev w' := by
  have hl : Later ev w w' := later_step ht hw
  cases a with
  | advance i fresh =>
    obtain ⟨call, hcall, hadv⟩ := Option.bind_eq_some_iff.1 hw
    exact steady_advance h ht hcall hadv
  | changeMeta status =>
    obtain rfl := eq_of_changeMeta hw
    exact h.idle hl rfl fun _ hc => .inl hc
  | tick _ | publish | restock _ | setPaused _ =>
    obtain rfl := Option.some.inj hw
    exact h.idle hl rfl fun _ hc => .inl hc
  | join _ | poll _ =>
    obtain rfl := Option.some.inj hw
    refine h.idle hl rfl fun call hc => (mem_begin hc).imp_right fun he => ?_
    subst he
    exact ⟨rfl, rfl, by simp⟩

private theorem steady_opening (ev : QueuedEvent) (now : Int) : Steady ev (opening now) where
  standing _ hu := absurd hu List.not_mem_nil
  told _ hc := absurd hc List.not_mem_nil

private theorem Steady.kept (h : Steady ev w) : w.Kept :=
  fun call hc hs state hp => (h.told call hc).answered hs state hp

/-- Once the window is closed, a run in time keeps the draw. -/
private theorem draw_final {acts : List QueueAct} (hclosed : ev.closes ≤ w.now)
    (hC : Along (step ev) (Timely ev) w acts) (h : exec (step ev) w acts = some w') : w'.draw = w.draw := by
  have hinv := exec_invariant (I := fun u => ev.closes ≤ u.now ∧ u.draw = w.draw) ?_ ⟨hclosed, rfl⟩ hC h
  · exact hinv.2
  · intro s a s' ht hs hI
    have hl := later_step ht hs
    exact ⟨hI.1.trans hl.now, (hl.draw hI.1).trans hI.2⟩

/-- In every run in time no admission is taken back, and no rank changes once the window is closed. -/
theorem admission_kept (ev : QueuedEvent) (now : Int) {acts : List QueueAct} {w : WaitingRoom}
    (hC : Along (step ev) (Timely ev) (opening now) acts) (h : exec (step ev) (opening now) acts = some w) :
    w.Kept ∧ ∀ (before after : List QueueAct) (mid : WaitingRoom), acts = before ++ after →
      exec (step ev) (opening now) before = some mid → ev.closes ≤ mid.now →
      ∀ user rank, mid.draw.zrank user = some rank → w.draw.zrank user = some rank := by
  constructor
  · have hsteady := exec_invariant (fun _ _ _ ht hs hI => steady_step ht hs hI) (steady_opening ev now) hC h
    exact hsteady.kept
  · rintro before after mid rfl hmid hclosed user rank hrank
    have hrest : exec (step ev) mid after = some w := by
      rw [exec_append, hmid] at h
      exact h
    rwa [draw_final hclosed (hC.of_append hmid) hrest]

/-! ### A registration that arrives late -/

/-- Event 1 goes on sale at second 1000, so registration closes at second 970; the scores of two of its users
under one salt. -/
private def lottery : QueuedEvent where
  event := 1
  times := { saleStartsAt := 1000 * second }
  cfg := {}
  score _ user _ := if user = 5 then 120327234669115 else 149051525709991

/-- The salt that `secrets.token_hex` returned. -/
private def token : String := "0123456789abcdef0123456789abcdef"

/-- The next `n` steps of the request `i`. -/
private def advances (i n : Nat) : List QueueAct := List.replicate n (.advance i token)

/-- The first `n` steps of a registration, `i` in the order of the requests. -/
private def joins (i : Nat) (user : UserId) (n : Nat) : List QueueAct := .join user :: advances i n

/-- A whole `status` request. -/
private def polls (i : Nat) (user : UserId) : List QueueAct := .poll user :: advances i 6

/-- User 1 registers, and user 5 gets through the given number of steps. -/
private def registered (n : Nat) : List QueueAct :=
  .publish :: .changeMeta .published :: .restock (some 100) :: joins 0 1 4 ++ joins 1 5 n

/-- User 5 has only passed the window check when 2.5 ms after closing user 1 asks and is admitted. -/
private def admittedFirst : List QueueAct := registered 3 ++ .tick 1002500 :: polls 2 1

/-- The registration of user 5 arrives, and user 1 asks again. -/
private def arrivedLate : List QueueAct := advances 1 1 ++ polls 3 1

/-- User 5 is registered in time and asks twice. -/
private def inTime : List QueueAct := registered 4 ++ .tick 1002500 :: polls 2 5 ++ polls 3 5

/-- With the `ZADD` of user 5 only now, user 1 falls behind it and is told to wait: nothing is sold out,
nothing is paused. -/
theorem admission_taken_back :
    ∃ mid w, exec (step lottery) (opening (969 * second)) admittedFirst = some mid ∧ lottery.closes ≤ mid.now ∧
      mid.admitted = [1] ∧ mid.draw.zrank 1 = some 0 ∧
      exec (step lottery) mid arrivedLate = some w ∧
      w.draw.zrank 1 = some 1 ∧ ¬w.Kept := by
  obtain ⟨mid, hmid, hp⟩ := exec_any (step lottery) (opening (969 * second)) admittedFirst
    (fun mid => lottery.closes ≤ mid.now ∧ mid.admitted = [1] ∧ mid.draw.zrank 1 = some 0 ∧
      (exec (step lottery) mid arrivedLate).any fun w => w.draw.zrank 1 = some 1 ∧
        w.calls[3]? =
          some { user := 1, phase := .answered { admitted := false, peopleAhead := some 0 }, since := true })
    (by decide +kernel)
  rw [decide_eq_true_eq] at hp
  obtain ⟨hclosed, hadm, hrank, hrest⟩ := hp
  obtain ⟨w, hw, hpw⟩ := exec_any (step lottery) mid arrivedLate _ hrest
  rw [decide_eq_true_eq] at hpw
  refine ⟨mid, w, hmid, hclosed, hadm, hrank, hw, hpw.1, fun hkept => ?_⟩
  simpa using hkept _ (List.mem_of_getElem? hpw.2) rfl _ rfl

/-- With the `ZADD` of user 5 in time, it is user 5 who is admitted, twice. -/
theorem admission_kept_in_time :
    ∃ w, exec (step lottery) (opening (969 * second)) inTime = some w ∧
      w.calls[3]? = some { user := 5, phase := .answered { admitted := true }, since := true } ∧ w.Kept := by
  obtain ⟨w, hw, hp⟩ := exec_any (step lottery) (opening (969 * second)) inTime
    (fun w => w.calls[3]? = some { user := 5, phase := .answered { admitted := true }, since := true })
    (by decide +kernel)
  rw [decide_eq_true_eq] at hp
  exact ⟨w, hw, hp, (admission_kept lottery (969 * second) (.of_check (by decide +kernel)) hw).1⟩

end WaitingRoom

end Ticketing
