import Ticketing.Anchors
import Ticketing.Pipeline

/-!
# What a step of the pipeline can do

Each kind of process has one lemma that lists what its steps do to the shared state.  Most steps only move the
process itself and touch keys that no stock or seat depends on (`Redis.Quiet`); what is left are the accepted
reservations, the commit of an intent, the refunds and releases, and the two rebuilds.
-/

namespace Ticketing

open Span

/-- The two zone states agree on the runs, their index, the geometry and the counter. -/
structure ZoneKeys.SameSeats (z z' : ZoneKeys) : Prop where
  runs : z'.runs = z.runs
  ends : z'.ends = z.ends
  geom : z'.geom = z.geom
  available : z'.available = z.available

theorem ZoneKeys.SameSeats.refl (z : ZoneKeys) : z.SameSeats z := ⟨rfl, rfl, rfl, rfl⟩

theorem ZoneKeys.SameSeats.parseRuns {z z' : ZoneKeys} (h : z.SameSeats z') : z'.parseRuns = z.parseRuns := by
  unfold ZoneKeys.parseRuns
  rw [h.runs]

theorem ZoneInv.congr {z z' : ZoneKeys} (hz : ZoneInv z) (h : z.SameSeats z') : ZoneInv z' where
  maximal := h.parseRuns ▸ hz.maximal
  inside := by
    rw [h.parseRuns, h.geom]
    exact hz.inside
  ends := by
    rw [h.parseRuns, h.ends]
    exact hz.ends
  counter := by
    rw [h.available, hz.counter]
    unfold ZoneKeys.remaining
    rw [h.parseRuns]

private theorem sameSeats_update {zones : EventId × ZoneId → ZoneKeys} {k : EventId × ZoneId} {z : ZoneKeys}
    (hz : (zones k).SameSeats z) (k' : EventId × ZoneId) : (zones k').SameSeats (Function.update zones k z k') := by
  by_cases h : k' = k
  · subst h; rwa [Function.update_self]
  · rw [Function.update_of_ne h]; exact .refl _

/-- A change of the keyspace that moves no stock, quota, seat or marker, takes back no claim and adds no entry to
the stream. -/
structure Redis.Quiet (r r' : Redis) : Prop where
  available : r'.available = r.available
  purchased : r'.purchased = r.purchased
  released : r'.released = r.released
  zones : ∀ k, (r.zones k).SameSeats (r'.zones k)
  claims : ∀ k, (r.claims k).isSome → (r'.claims k).isSome
  stream : ∀ e' ∈ r'.stream, ∃ e ∈ r.stream, e.id = e'.id ∧ e.intent = e'.intent

namespace Redis.Quiet

theorem refl (r : Redis) : r.Quiet r :=
  ⟨rfl, rfl, rfl, fun _ => .refl _, fun _ h => h, fun e he => ⟨e, he, rfl, rfl⟩⟩

theorem deliver (r : Redis) (id : StreamId) : r.Quiet (r.deliver id) where
  available := rfl
  purchased := rfl
  released := rfl
  zones _ := .refl _
  claims _ h := h
  stream := by
    intro e' he'
    obtain ⟨e, he, rfl⟩ := List.mem_map.1 he'
    exact ⟨e, he, by split <;> rfl, by split <;> rfl⟩

theorem ackAndRemove (r : Redis) (id : StreamId) : r.Quiet (r.ackAndRemove id) where
  available := rfl
  purchased := rfl
  released := rfl
  zones _ := .refl _
  claims _ h := h
  stream e he := ⟨e, (List.mem_filter.1 he).1, rfl, rfl⟩

theorem addDead (r : Redis) (i : Intent) (id : StreamId) : r.Quiet (r.addDead i id) :=
  ⟨rfl, rfl, rfl, fun _ => .refl _, fun _ h => h, fun e he => ⟨e, he, rfl, rfl⟩⟩

theorem setClaim (r : Redis) (key : Key) (state : ClaimState) : r.Quiet (r.setClaim key state) where
  available := rfl
  purchased := rfl
  released := rfl
  zones _ := .refl _
  claims k hk := by
    show (Function.update r.claims key (some state) k).isSome
    by_cases h : k = key
    · subst h; simp
    · rwa [Function.update_of_ne h]
  stream e he := ⟨e, he, rfl, rfl⟩

end Redis.Quiet

/-! ### Requests -/

/-- The checks a general-admission reservation has passed when the script accepts it. -/
structure ReserveOk (cfg : Settings) (w : World) (a : ReserveArgs) : Prop where
  unseated : (w.db.events a.event).any (fun e => !e.seated) = true
  pos : 1 ≤ a.quantity
  limit : a.limit = cfg.maxTicketsPerUserPerEvent
  fresh : w.redis.claims a.key = none
  stock : ∃ avail, w.redis.available a.event = some avail ∧ a.quantity ≤ avail
  quota : w.redis.held a.event a.user + a.quantity ≤ a.limit

/-- The checks a seat claim has passed when the script accepts it. -/
structure ClaimOk (cfg : Settings) (w : World) (call : SeatCall) (a : ClaimArgs) : Prop where
  event : a.event = call.event
  zone : a.zone = call.zone
  pos : 1 ≤ a.length
  limit : a.limit = cfg.maxTicketsPerUserPerEvent
  fresh : w.redis.claims a.key = none
  quota : w.redis.held a.event a.user + a.length ≤ a.limit
  cut : CutOk (w.redis.zones (a.event, a.zone)) a.block a.runStart a.runLength a.start a.length

/-- The calls after a step: each is a call from before in another phase, or a new call for a seated event. -/
def CallsFrom (w : World) (calls : Nat → Option SeatCall) : Prop :=
  ∀ c call, calls c = some call →
    (∃ call₀, w.calls c = some call₀ ∧ call.event = call₀.event ∧ call.zone = call₀.zone) ∨
      (w.db.events call.event).any (fun e => e.seated) = true

private theorem callsFrom_update {w : World} {c : Nat} {call : Option SeatCall}
    (h : ∀ x ∈ call, (∃ call₀, w.calls c = some call₀ ∧ x.event = call₀.event ∧ x.zone = call₀.zone) ∨
      (w.db.events x.event).any (fun e => e.seated) = true) : CallsFrom w (Function.update w.calls c call) := by
  intro c' x hx
  by_cases hc : c' = c
  · subst hc
    rw [Function.update_self] at hx
    exact h x hx
  · rw [Function.update_of_ne hc] at hx
    exact .inl ⟨x, hx, rfl, rfl⟩

private theorem callsFrom_none (w : World) (c : Nat) : CallsFrom w (Function.update w.calls c none) :=
  callsFrom_update (fun _ h => by cases h)

private theorem callsFrom_same {w : World} {c : Nat} {call : SeatCall} (hc : w.calls c = some call)
    {call' : Option SeatCall} (h : ∀ x ∈ call', x.event = call.event ∧ x.zone = call.zone) :
    CallsFrom w (Function.update w.calls c call') :=
  callsFrom_update fun x hx => .inl ⟨call, hc, h x hx⟩

private theorem nextAttempt_same {call x : SeatCall} (h : x ∈ call.nextAttempt) :
    x.event = call.event ∧ x.zone = call.zone := by
  unfold SeatCall.nextAttempt at h
  split at h
  · rw [Option.mem_def, Option.some.injEq] at h
    subst h
    exact ⟨rfl, rfl⟩
  · cases h

theorem reserveAndEnqueue_cases (r : Redis) (a : ReserveArgs) :
    (∃ id remaining, reserveAndEnqueue r a = (.ok id remaining, r.reserve a) ∧ r.claims a.key = none ∧
      (∃ avail, r.available a.event = some avail ∧ a.quantity ≤ avail) ∧
      r.held a.event a.user + a.quantity ≤ a.limit) ∨
    ((reserveAndEnqueue r a).2 = r ∧ ∀ id remaining, (reserveAndEnqueue r a).1 ≠ .ok id remaining) := by
  unfold reserveAndEnqueue
  split
  · exact .inr ⟨rfl, by simp⟩
  · rename_i hclaim
    cases hav : r.available a.event with
    | none => exact .inr ⟨rfl, by simp⟩
    | some avail =>
      simp only
      split
      · exact .inr ⟨rfl, by simp⟩
      · split
        · exact .inr ⟨rfl, by simp⟩
        · exact .inl ⟨_, _, rfl, by simpa using hclaim, ⟨avail, rfl, by omega⟩, by omega⟩

/-- What a request does: an accepted reservation, an accepted seat claim, or nothing that stock or seats depend
on. -/
theorem stepIntake_cases {cfg : Settings} {w w' : World} {a : IntakeAct} (h : stepIntake cfg w a = some w') :
    (∃ b, ReserveOk cfg w b ∧ w' = { w with redis := w.redis.reserve b, log := w.log ++ [b.intent] }) ∨
    (∃ c call b, w.calls c = some call ∧ ClaimOk cfg w call b ∧
      w' = { w.setCall c (some { call with phase := .won }) with
        redis := w.redis.claim b, log := w.log ++ [b.intent] }) ∨
    (∃ zones calls, (∀ k, (w.redis.zones k).SameSeats (zones k)) ∧ CallsFrom w calls ∧
      w' = { w with redis := { w.redis with zones }, calls }) := by
  cases a with
  | reserve b =>
    simp only [stepIntake, World.reserve] at h
    split at h
    · rename_i hg
      rcases reserveAndEnqueue_cases w.redis b with ⟨id, rem, heq, hf, hs, hq⟩ | ⟨hsame, hne⟩
      · rw [heq, Option.some.injEq] at h
        exact .inl ⟨b, ⟨hg.1, hg.2.1, hg.2.2, hf, hs, hq⟩, h.symm⟩
      · refine .inr (.inr ⟨w.redis.zones, w.calls, fun _ => .refl _, fun c call hc => .inl ⟨call, hc, rfl, rfl⟩, ?_⟩)
        rw [hsame] at h
        split at h
        · rename_i id rem hok
          exact absurd hok (hne id rem)
        · exact (Option.some.inj h).symm
    · cases h
  | call c event zone user quantity price key =>
    simp only [stepIntake] at h
    split at h
    · rename_i hg
      rw [Option.some.injEq] at h
      refine .inr (.inr ⟨w.redis.zones, _, fun _ => .refl _, callsFrom_update ?_, h.symm⟩)
      intro x hx
      rw [Option.mem_def, Option.some.injEq] at hx
      subst hx
      exact .inr hg.2.1
    · cases h
  | read c =>
    obtain ⟨call, hc, h⟩ := Option.bind_eq_some_iff.1 h
    split at h
    · split at h
      · exact .inr (.inr ⟨w.redis.zones, _, fun _ => .refl _, callsFrom_none w c, (Option.some.inj h).symm⟩)
      · refine .inr (.inr ⟨w.redis.zones, _, fun _ => .refl _, callsFrom_same hc ?_, (Option.some.inj h).symm⟩)
        rintro x ⟨⟩
        exact ⟨rfl, rfl⟩
    · cases h
  | claim c i =>
    obtain ⟨call, hc, h⟩ := Option.bind_eq_some_iff.1 h
    split at h
    · rename_i state _
      unfold World.claim at h
      split at h
      · exact .inr (.inr ⟨w.redis.zones, _, fun _ => .refl _, callsFrom_none w c, (Option.some.inj h).symm⟩)
      · rename_i anchors hanchors
        obtain ⟨pick, hpick, h⟩ := Option.bind_eq_some_iff.1 h
        split at h
        · exact .inr (.inr ⟨w.redis.zones, _, fun _ => .refl _, callsFrom_none w c, (Option.some.inj h).symm⟩)
        · rename_i host _
          simp only at h
          rcases claimSeats_cases w.redis (call.claimArgs host pick cfg.maxTicketsPerUserPerEvent) with
            ⟨heq, hf, hq, hhost, hlo, hhi⟩ | ⟨hsame, hne⟩
          · rw [heq, Option.some.injEq] at h
            obtain ⟨hlen, hpos⟩ := length_of_mem_legalAnchors hanchors
              (List.mem_of_mem_take (List.mem_of_getElem? hpick))
            have hlen' : (1 : Int) ≤ pick.length := by omega
            exact .inr (.inl ⟨c, call, _, hc, ⟨rfl, rfl, hlen', rfl, hf, hq, ⟨hhost, hlo, hhi, hlen'⟩⟩, h.symm⟩)
          · rw [hsame] at h
            split at h
            · rename_i id rem hok
              exact absurd hok (hne id rem)
            · exact .inr (.inr ⟨w.redis.zones, _, fun _ => .refl _, callsFrom_same hc fun x hx => nextAttempt_same hx,
                (Option.some.inj h).symm⟩)
            · exact .inr (.inr ⟨w.redis.zones, _, fun _ => .refl _, callsFrom_none w c, (Option.some.inj h).symm⟩)
    · cases h
  | miss c =>
    obtain ⟨call, hc, h⟩ := Option.bind_eq_some_iff.1 h
    split at h
    · unfold World.miss at h
      split at h
      · split at h
        · exact .inr (.inr ⟨w.redis.zones, _, fun _ => .refl _, callsFrom_none w c, (Option.some.inj h).symm⟩)
        · simp only at h
          split at h
          · refine .inr (.inr ⟨_, _, ?_, ?_, (Option.some.inj h).symm⟩)
            · exact sameSeats_update ⟨rfl, rfl, rfl, rfl⟩
            · exact callsFrom_none w c
          · refine .inr (.inr ⟨_, _, ?_, ?_, (Option.some.inj h).symm⟩)
            · exact sameSeats_update ⟨rfl, rfl, rfl, rfl⟩
            · refine callsFrom_same hc ?_
              rintro x ⟨⟩
              exact ⟨rfl, rfl⟩
      · cases h
    · cases h
  | relax c =>
    obtain ⟨call, hc, h⟩ := Option.bind_eq_some_iff.1 h
    split at h
    · refine .inr (.inr ⟨_, _, ?_, ?_, (Option.some.inj h).symm⟩)
      · exact sameSeats_update ⟨rfl, rfl, rfl, rfl⟩
      · refine callsFrom_same hc ?_
        rintro x ⟨⟩
        exact ⟨rfl, rfl⟩
    · cases h
  | forget c =>
    obtain ⟨call, hc, h⟩ := Option.bind_eq_some_iff.1 h
    unfold World.forget at h
    simp only at h
    split at h
    · refine .inr (.inr ⟨_, _, ?_, ?_, (Option.some.inj h).symm⟩)
      · exact sameSeats_update ⟨rfl, rfl, rfl, rfl⟩
      · refine callsFrom_same hc fun x hx => ?_
        have := nextAttempt_same hx
        exact this
    · refine .inr (.inr ⟨_, _, ?_, ?_, (Option.some.inj h).symm⟩)
      · exact sameSeats_update ⟨rfl, rfl, rfl, rfl⟩
      · exact callsFrom_none w c
    · cases h
  | drop c => exact .inr (.inr ⟨w.redis.zones, _, fun _ => .refl _, callsFrom_none w c, (Option.some.inj h).symm⟩)

theorem handlers_step_intake {cfg : Settings} {w w' : World} {a : IntakeAct} (h : step cfg w (.intake a) = some w') :
    w'.handlers = w.handlers := by
  rcases stepIntake_cases h with ⟨b, -, rfl⟩ | ⟨c, call, b, -, -, rfl⟩ | ⟨zones, calls, -, -, rfl⟩ <;> rfl

/-! ### The release scripts -/

/-- The checks a seat release has passed when the script carries it out. -/
structure SeatsReleased (w : World) (a : ReleaseSeatsArgs) : Prop where
  unmarked : w.redis.released a.marker = false
  bounds : ∀ g, (w.redis.zones (a.event, a.zone)).geom.lookup a.block = some g →
    0 ≤ a.start ∧ a.start + a.length ≤ g.capacity
  clear : ¬ MeetsFree (w.redis.zones (a.event, a.zone)).parseRuns a.block a.start a.length

theorem World.releaseQuantity_cases (w : World) (a : ReleaseArgs) :
    (w.redis.released a.marker = false ∧
      w.releaseQuantity a = { w with redis := w.redis.putBack a, returned := w.returned ++ [.quantity a] }) ∨
    (w.redis.released a.marker = true ∧ w.releaseQuantity a = w) := by
  unfold World.releaseQuantity Ticketing.releaseQuantity
  cases hm : w.redis.released a.marker
  · exact .inl ⟨rfl, by simp⟩
  · exact .inr ⟨rfl, by simp⟩

theorem World.releaseSeats_cases {w w' : World} {a : ReleaseSeatsArgs} (h : w.releaseSeats a = some w') :
    (SeatsReleased w a ∧
      w' = { w with redis := w.redis.giveBackSeats a, returned := w.returned ++ [.seats a] }) ∨
    (w.redis.released a.marker = true ∧ w' = w) := by
  unfold World.releaseSeats at h
  simp only at h
  rcases Ticketing.releaseSeats_cases w.redis a with ⟨hm, heq⟩ | ⟨-, hok, -, -⟩ | ⟨hm, hok, hnew, hin, hclear⟩
  · rw [heq] at h
    exact .inr ⟨hm, (Option.some.inj h).symm⟩
  · split at h
    · rename_i hreply
      rw [hreply] at hok
      cases hok
    · rename_i hreply
      -- a `DUP` answer needs the marker, which this case does not have
      unfold Ticketing.releaseSeats at hreply
      simp only at hreply
      split at hreply
      · rename_i hm
        refine .inr ⟨hm, ?_⟩
        unfold Ticketing.releaseSeats at h
        simpa [hm] using h.symm
      · split at hreply
        · cases hreply
        · split at hreply <;> cases hreply
    · cases h
    · cases h
  · rw [hnew] at h
    split at h
    · exact .inl ⟨⟨hm, hin, hclear⟩, (Option.some.inj h).symm⟩
    all_goals
      rename_i hreply
      rw [hreply] at hok
      cases hok

/-- A refund does nothing, or one of the two scripts carries it out. -/
theorem World.refund_cases {w w' : World} {i : Intent} (h : w.refund i = some w') :
    (i.seat = none ∧ w.redis.released (.deadLetter i.key) = false ∧
      w' = { w with redis := w.redis.putBack i.releaseArgs,
                    returned := w.returned ++ [.quantity i.releaseArgs] }) ∨
    (∃ seat zone, i.seat = some seat ∧ i.zone = some zone ∧ SeatsReleased w (i.releaseSeatsArgs zone seat) ∧
      w' = { w with redis := w.redis.giveBackSeats (i.releaseSeatsArgs zone seat),
                    returned := w.returned ++ [.seats (i.releaseSeatsArgs zone seat)] }) ∨
    w' = w := by
  unfold World.refund at h
  split at h
  · rename_i hs
    rw [Option.some.injEq] at h
    rcases w.releaseQuantity_cases i.releaseArgs with ⟨hm, heq⟩ | ⟨hm, heq⟩
    · exact .inl ⟨hs, hm, (heq.symm.trans h).symm⟩
    · exact .inr (.inr (heq.symm.trans h).symm)
  · exact .inr (.inr (Option.some.inj h).symm)
  · rename_i seat zone hs hz
    rcases World.releaseSeats_cases h with ⟨hok, heq⟩ | ⟨-, heq⟩
    · exact .inr (.inl ⟨seat, zone, hs, hz, hok, heq⟩)
    · exact .inr (.inr heq)

/-! ### Stream entries -/

/-- The existence check of the dead-letter path found no order, and the refund has not been made. -/
def HandlerPhase.doomed : HandlerPhase → Bool
  | .checked false | .parked false => true
  | _ => false

/-- The handlers after a step: each is a handler from before in another phase, or a new one of a stream entry. -/
def HandlersFrom (w : World) (a : SettleAct) (handlers : Nat → Option Handler) : Prop :=
  ∀ n y, handlers n = some y →
    (∃ x, w.handlers n = some x ∧ y.entry = x.entry ∧ y.intent = x.intent ∧
      (y.phase.doomed → x.phase.doomed ∨ (∃ m, a = .check m) ∧ w.db.hasKey y.intent.key = false)) ∨
    (∃ e ∈ w.redis.stream, e.id = y.entry ∧ e.intent = y.intent ∧ y.phase.doomed = false)

theorem handlersFrom_same (w : World) (a : SettleAct) : HandlersFrom w a w.handlers :=
  fun _ y hy => .inl ⟨y, hy, rfl, rfl, .inl⟩

theorem handlersFrom_update {w : World} {a : SettleAct} {n : Nat} {y : Option Handler}
    (h : ∀ z ∈ y, (∃ x, w.handlers n = some x ∧ z.entry = x.entry ∧ z.intent = x.intent ∧
        (z.phase.doomed → x.phase.doomed ∨ (∃ m, a = .check m) ∧ w.db.hasKey z.intent.key = false)) ∨
      (∃ e ∈ w.redis.stream, e.id = z.entry ∧ e.intent = z.intent ∧ z.phase.doomed = false)) :
    HandlersFrom w a (Function.update w.handlers n y) := by
  intro m z hz
  by_cases hm : m = n
  · subst hm
    rw [Function.update_self] at hz
    exact h z hz
  · rw [Function.update_of_ne hm] at hz
    exact .inl ⟨z, hz, rfl, rfl, .inl⟩

theorem handlersFrom_none (w : World) (a : SettleAct) (n : Nat) :
    HandlersFrom w a (Function.update w.handlers n none) :=
  handlersFrom_update (fun _ h => by cases h)

theorem handlersFrom_phase {w : World} {a : SettleAct} {n : Nat} {x : Handler} (hx : w.handlers n = some x)
    {phase : HandlerPhase}
    (hp : phase.doomed → x.phase.doomed ∨ (∃ m, a = .check m) ∧ w.db.hasKey x.intent.key = false) :
    HandlersFrom w a (Function.update w.handlers n (some { x with phase })) := by
  refine handlersFrom_update ?_
  rintro z ⟨⟩
  exact .inl ⟨x, hx, rfl, rfl, hp⟩

/-- The steps of the handlers. -/
inductive SettleMove (cfg : Settings) (w : World) : SettleAct → World → Prop
  | deliver {n : Nat} {id : StreamId} {e : StreamEntry} (he : w.redis.entry id = some e) (hnew : e.delivered = 0) :
      SettleMove cfg w (.deliver n id)
        { w.setHandler n (some ⟨id, e.intent, .delivered⟩) with redis := w.redis.deliver id }
  | list {n : Nat} {id : StreamId} {e : StreamEntry} (he : w.redis.entry id = some e) (hpending : 1 ≤ e.delivered) :
      SettleMove cfg w (.list n id) (w.setHandler n (some ⟨id, e.intent, .listed e.delivered⟩))
  /-- The entry is gone when a reclaim pass claims it. -/
  | claimGone {n times : Nat} {x : Handler} (hx : w.handlers n = some x) (hp : x.phase = .listed times)
      (hgone : w.redis.entry x.entry = none) : SettleMove cfg w (.claim n) (w.setHandler n none)
  | claim {n times : Nat} {x : Handler} {e : StreamEntry} (hx : w.handlers n = some x) (hp : x.phase = .listed times)
      (he : w.redis.entry x.entry = some e) :
      SettleMove cfg w (.claim n)
        { w.setHandler n
            (some { x with phase := if cfg.orderMaxDeliveries ≤ times then .exhausted else .delivered }) with
          redis := w.redis.deliver x.entry }
  | persist {n : Nat} {id : OrderId} {fk : Bool} {x : Handler} {db : Db} (hx : w.handlers n = some x)
      (hp : x.phase = .delivered)
      (hcons : x.intent.consistent = true) (hdb : w.db.insertIntent x.intent id fk = some db) :
      SettleMove cfg w (.persist n id fk) { w.setHandler n (some { x with phase := .settled }) with db }
  /-- The transaction runs into a constraint. -/
  | reject {n : Nat} {id : OrderId} {fk : Bool} {x : Handler} (hx : w.handlers n = some x) (hp : x.phase = .delivered)
      (hcons : x.intent.consistent = true) (hdb : w.db.insertIntent x.intent id fk = none) :
      SettleMove cfg w (.persist n id fk) (w.setHandler n (some { x with phase := .rejected }))
  | inconsistent {n : Nat} {id : OrderId} {fk : Bool} {x : Handler} (hx : w.handlers n = some x)
      (hp : x.phase = .delivered)
      (hcons : x.intent.consistent = false) : SettleMove cfg w (.persist n id fk) (w.setHandler n none)
  | duplicate {n : Nat} {x : Handler} (hx : w.handlers n = some x) (hp : x.phase = .rejected)
      (hkey : w.db.hasKey x.intent.key = true) : SettleMove cfg w (.lookUp n)
      (w.setHandler n (some { x with phase := .settled }))
  | unresolved {n : Nat} {x : Handler} (hx : w.handlers n = some x) (hp : x.phase = .rejected)
      (hkey : w.db.hasKey x.intent.key = false) : SettleMove cfg w (.lookUp n) (w.setHandler n none)
  | check {n : Nat} {x : Handler} (hx : w.handlers n = some x) (hp : x.phase = .exhausted) :
      SettleMove cfg w (.check n) (w.setHandler n (some { x with phase := .checked (w.db.hasKey x.intent.key) }))
  | park {n : Nat} {already : Bool} {x : Handler} (hx : w.handlers n = some x) (hp : x.phase = .checked already) :
      SettleMove cfg w (.park n)
        { w.setHandler n (some { x with phase := .parked already }) with redis := w.redis.addDead x.intent x.entry }
  /-- There is an order, and nothing to refund. -/
  | keep {n : Nat} {x : Handler} (hx : w.handlers n = some x) (hp : x.phase = .parked true) :
      SettleMove cfg w (.refund n) (w.setHandler n (some { x with phase := .refunded }))
  | refund {n : Nat} {x : Handler} {w₁ : World} (hx : w.handlers n = some x) (hp : x.phase = .parked false)
      (hw₁ : w.refund x.intent = some w₁) : SettleMove cfg w (.refund n)
      (w₁.setHandler n (some { x with phase := .refunded }))
  /-- The release script raises. -/
  | refundFails {n : Nat} {x : Handler} (hx : w.handlers n = some x) (hp : x.phase = .parked false)
      (hnone : w.refund x.intent = none) : SettleMove cfg w (.refund n) (w.setHandler n none)
  | markFailed {n : Nat} {x : Handler} (hx : w.handlers n = some x) (hp : x.phase = .refunded) :
      SettleMove cfg w (.markFailed n)
        { w.setHandler n (some { x with phase := .settled }) with redis := w.redis.setClaim x.intent.key .failed }
  | ack {n : Nat} {x : Handler} (hx : w.handlers n = some x) (hp : x.phase = .settled) :
      SettleMove cfg w (.ack n) { w.setHandler n none with redis := w.redis.ackAndRemove x.entry }
  | stop {n : Nat} {x : Handler} (hx : w.handlers n = some x) : SettleMove cfg w (.stop n) (w.setHandler n none)

private theorem handle_move {cfg : Settings} {w w' : World} {x : Handler} {a : SettleAct}
    (hx : w.handlers a.slot = some x) (h : w.handle cfg a.slot x a = some w') : SettleMove cfg w a w' := by
  cases a with
  | deliver n id => cases h
  | list n id => cases h
  | claim n =>
    simp only [World.handle] at h
    split at h
    · rename_i times hp
      split at h
      · rename_i hgone
        obtain rfl := Option.some.inj h
        exact .claimGone hx hp hgone
      · rename_i e he
        obtain rfl := Option.some.inj h
        exact .claim hx hp he
    · cases h
  | persist n id fk =>
    simp only [World.handle] at h
    split at h
    · rename_i hp
      split at h
      · rename_i hcons
        split at h
        · rename_i db hdb
          obtain rfl := Option.some.inj h
          exact .persist hx hp hcons hdb
        · rename_i hdb
          obtain rfl := Option.some.inj h
          exact .reject hx hp hcons hdb
      · rename_i hcons
        obtain rfl := Option.some.inj h
        exact .inconsistent hx hp (by simpa using hcons)
    · cases h
  | lookUp n =>
    simp only [World.handle] at h
    split at h
    · rename_i hp
      obtain rfl := Option.some.inj h
      split
      · rename_i hkey
        exact .duplicate hx hp hkey
      · rename_i hkey
        exact .unresolved hx hp (by simpa using hkey)
    · cases h
  | check n =>
    simp only [World.handle] at h
    split at h
    · rename_i hp
      obtain rfl := Option.some.inj h
      exact .check hx hp
    · cases h
  | park n =>
    simp only [World.handle] at h
    split at h
    · rename_i already hp
      obtain rfl := Option.some.inj h
      exact .park hx hp
    · cases h
  | refund n =>
    simp only [World.handle] at h
    split at h
    · rename_i hp
      obtain rfl := Option.some.inj h
      exact .keep hx hp
    · rename_i hp
      split at h
      · rename_i w₁ hw₁
        obtain rfl := Option.some.inj h
        exact .refund hx hp hw₁
      · rename_i hnone
        obtain rfl := Option.some.inj h
        exact .refundFails hx hp hnone
    · cases h
  | markFailed n =>
    simp only [World.handle] at h
    split at h
    · rename_i hp
      obtain rfl := Option.some.inj h
      exact .markFailed hx hp
    · cases h
  | ack n =>
    simp only [World.handle] at h
    split at h
    · rename_i hp
      obtain rfl := Option.some.inj h
      exact .ack hx hp
    · cases h
  | stop n =>
    obtain rfl := Option.some.inj h
    exact .stop hx

theorem stepSettle_move {cfg : Settings} {w w' : World} {a : SettleAct} (h : stepSettle cfg w a = some w') :
    SettleMove cfg w a w' := by
  cases a with
  | deliver n id =>
    obtain ⟨e, he, h⟩ := Option.bind_eq_some_iff.1 h
    split at h
    · rename_i hg
      obtain rfl := Option.some.inj h
      exact .deliver he hg.2
    · cases h
  | list n id =>
    obtain ⟨e, he, h⟩ := Option.bind_eq_some_iff.1 h
    split at h
    · rename_i hg
      obtain rfl := Option.some.inj h
      exact .list he hg.2
    · cases h
  | _ =>
    obtain ⟨x, hx, h⟩ := Option.bind_eq_some_iff.1 h
    exact handle_move hx h

theorem Redis.mem_of_entry {r : Redis} {id : StreamId} {e : StreamEntry} (he : r.entry id = some e) :
    e ∈ r.stream ∧ e.id = id :=
  ⟨List.mem_of_find?_eq_some he, by simpa using List.find?_some he⟩

/-- What a handler does: it commits its intent, refunds it, or does nothing that stock or seats depend on. -/
theorem stepSettle_cases {cfg : Settings} {w w' : World} {a : SettleAct} (h : stepSettle cfg w a = some w') :
    (∃ n x id fk db, a = .persist n id fk ∧ w.handlers n = some x ∧ x.phase = .delivered ∧
      x.intent.consistent = true ∧ w.db.insertIntent x.intent id fk = some db ∧
      w' = { w.setHandler n (some { x with phase := .settled }) with db }) ∨
    (∃ n x w₁, w.handlers n = some x ∧ x.phase = .parked false ∧ w.refund x.intent = some w₁ ∧
      w' = w₁.setHandler n (some { x with phase := .refunded })) ∨
    (∃ redis handlers, w.redis.Quiet redis ∧ HandlersFrom w a handlers ∧ w' = { w with redis, handlers }) := by
  cases stepSettle_move h with
  | @deliver n id e he hnew =>
    refine .inr (.inr ⟨_, _, .deliver w.redis id, handlersFrom_update ?_, rfl⟩)
    rintro z ⟨⟩
    exact .inr ⟨e, (Redis.mem_of_entry he).1, (Redis.mem_of_entry he).2, rfl, rfl⟩
  | @list n id e he hpending =>
    refine .inr (.inr ⟨w.redis, _, .refl _, handlersFrom_update ?_, rfl⟩)
    rintro z ⟨⟩
    exact .inr ⟨e, (Redis.mem_of_entry he).1, (Redis.mem_of_entry he).2, rfl, rfl⟩
  | claimGone hx hp hgone => exact .inr (.inr ⟨w.redis, _, .refl _, handlersFrom_none w _ _, rfl⟩)
  | @claim n times x e hx hp he =>
    refine .inr (.inr ⟨_, _, .deliver w.redis x.entry, handlersFrom_phase hx ?_, rfl⟩)
    split <;> exact fun hd => by cases hd
  | persist hx hp hcons hdb => exact .inl ⟨_, _, _, _, _, rfl, hx, hp, hcons, hdb, rfl⟩
  | reject hx hp hcons hdb =>
      exact .inr (.inr ⟨w.redis, _, .refl _, handlersFrom_phase hx (fun hd => by cases hd), rfl⟩)
  | inconsistent hx hp hcons => exact .inr (.inr ⟨w.redis, _, .refl _, handlersFrom_none w _ _, rfl⟩)
  | duplicate hx hp hkey =>
      exact .inr (.inr ⟨w.redis, _, .refl _, handlersFrom_phase hx (fun hd => by cases hd), rfl⟩)
  | unresolved hx hp hkey => exact .inr (.inr ⟨w.redis, _, .refl _, handlersFrom_none w _ _, rfl⟩)
  | @check n x hx hp =>
    refine .inr (.inr ⟨w.redis, _, .refl _, handlersFrom_phase hx ?_, rfl⟩)
    intro hd
    refine .inr ⟨⟨n, rfl⟩, ?_⟩
    cases hk : w.db.hasKey x.intent.key
    · rfl
    · rw [hk] at hd; cases hd
  | @park n already x hx hp =>
    refine .inr (.inr ⟨_, _, .addDead w.redis x.intent x.entry, handlersFrom_phase hx ?_, rfl⟩)
    intro hd
    left
    rw [hp]
    cases already
    · rfl
    · cases hd
  | keep hx hp => exact .inr (.inr ⟨w.redis, _, .refl _, handlersFrom_phase hx (fun hd => by cases hd), rfl⟩)
  | refund hx hp hw₁ => exact .inr (.inl ⟨_, _, _, hx, hp, hw₁, rfl⟩)
  | refundFails hx hp hnone => exact .inr (.inr ⟨w.redis, _, .refl _, handlersFrom_none w _ _, rfl⟩)
  | @markFailed n x hx hp =>
    exact .inr (.inr ⟨_, _, .setClaim w.redis x.intent.key .failed, handlersFrom_phase hx
      (fun hd => by cases hd), rfl⟩)
  | @ack n x hx hp => exact .inr (.inr ⟨_, _, .ackAndRemove w.redis x.entry, handlersFrom_none w _ n, rfl⟩)
  | stop hx => exact .inr (.inr ⟨w.redis, _, .refl _, handlersFrom_none w _ _, rfl⟩)

/-! ### Releases -/

/-- The releases after a step: each is a release from before, whose hold was carried on or is read now, or a new one
of an order. -/
def ReleasesFrom (w : World) (releases : Nat → Option Release) : Prop :=
  ∀ n y, releases n = some y →
    (∃ x, w.releases n = some x ∧ y.order = x.order ∧ y.row = x.row ∧
      (∀ hold, y.phase = .holdRead hold → x.phase = .holdRead hold ∨ w.db.holdOf y.order.id = some hold) ∧
      (∀ hold, y.phase = .holdDeleted hold → x.phase = .holdDeleted hold)) ∨
    (y.phase = .begun ∧ w.db.orderById y.order.id = some y.order ∧
      (y.order.status.held = false ∨ ∃ e ∈ w.db.outbox, e.order = y.order.id))

theorem releasesFrom_same (w : World) : ReleasesFrom w w.releases :=
  fun _ y hy => .inl ⟨y, hy, rfl, rfl, fun _ h => .inl h, fun _ h => h⟩

theorem releasesFrom_update {w : World} {n : Nat} {y : Option Release}
    (h : ∀ z ∈ y, (∃ x, w.releases n = some x ∧ z.order = x.order ∧ z.row = x.row ∧
        (∀ hold, z.phase = .holdRead hold → x.phase = .holdRead hold ∨ w.db.holdOf z.order.id = some hold) ∧
        (∀ hold, z.phase = .holdDeleted hold → x.phase = .holdDeleted hold)) ∨
      (z.phase = .begun ∧ w.db.orderById z.order.id = some z.order ∧
        (z.order.status.held = false ∨ ∃ e ∈ w.db.outbox, e.order = z.order.id))) :
    ReleasesFrom w (Function.update w.releases n y) := by
  intro m z hz
  by_cases hm : m = n
  · subst hm
    rw [Function.update_self] at hz
    exact h z hz
  · rw [Function.update_of_ne hm] at hz
    exact releasesFrom_same w m z hz

theorem releasesFrom_none (w : World) (n : Nat) : ReleasesFrom w (Function.update w.releases n none) :=
  releasesFrom_update (fun _ h => by cases h)

theorem releasesFrom_finished {w : World} {n : Nat} {x : Release} (hx : w.releases n = some x) :
    ReleasesFrom w (Function.update w.releases n (some { x with phase := .finished })) := by
  refine releasesFrom_update ?_
  rintro z ⟨⟩
  exact .inl ⟨x, hx, rfl, rfl, fun _ h => by (cases h), fun _ h => by (cases h)⟩

/-- The rows point to the same orders as before. -/
def OutboxFrom (w : World) (outbox : List OutboxEntry) : Prop :=
  ∀ e' ∈ outbox, ∃ e ∈ w.db.outbox, e.id = e'.id ∧ e.order = e'.order

theorem outboxFrom_same (w : World) : OutboxFrom w w.db.outbox := fun e he => ⟨e, he, rfl, rfl⟩

private theorem outboxFrom_map (w : World) (row : OutboxId) {f : OutboxEntry → OutboxEntry}
    (hid : ∀ e, (f e).id = e.id) (hord : ∀ e, (f e).order = e.order) :
    OutboxFrom w (w.db.outbox.map fun e => if e.id = row then f e else e) := by
  intro e' he'
  obtain ⟨e, he, rfl⟩ := List.mem_map.1 he'
  refine ⟨e, he, ?_, ?_⟩ <;> split <;> simp [hid, hord]

theorem orderById_eq_some {db : Db} {id : OrderId} {o : Order} (h : db.orderById id = some o) :
    o ∈ db.orders ∧ o.id = id :=
  ⟨List.mem_of_find?_eq_some h, by simpa using List.find?_some h⟩

theorem holdOf_eq_some {db : Db} {id : OrderId} {hold : SeatHold} (h : db.holdOf id = some hold) :
    hold ∈ db.seatHolds ∧ hold.order = id :=
  ⟨List.mem_of_find?_eq_some h, by simpa using List.find?_some h⟩

/-- What a release does: it deletes a hold, one of the two scripts returns its stock, or it changes nothing but
outbox rows. -/
theorem stepRelease_cases {w w' : World} {a : ReleaseAct} (h : stepRelease w a = some w') :
    (∃ n x hold, w.releases n = some x ∧ x.phase = .holdRead hold ∧
      w' = { w.setRelease n (some { x with phase := .holdDeleted hold }) with db := w.db.deleteHold x.order.id }) ∨
    (∃ n x, w.releases n = some x ∧ x.phase = .begun ∧ x.order.zone = none ∧
      w.redis.released (.order x.order.id) = false ∧
      w' = { w.setRelease n (some { x with phase := .finished }) with
        redis := w.redis.putBack x.order.releaseArgs, returned := w.returned ++ [.quantity x.order.releaseArgs] }) ∨
    (∃ n x hold zone, w.releases n = some x ∧ x.phase = .holdDeleted hold ∧ x.order.zone = some zone ∧
      SeatsReleased w (x.order.releaseSeatsArgs zone hold) ∧
      w' = { w.setRelease n (some { x with phase := .finished }) with
        redis := w.redis.giveBackSeats (x.order.releaseSeatsArgs zone hold)
        returned := w.returned ++ [.seats (x.order.releaseSeatsArgs zone hold)] }) ∨
    (∃ outbox releases, OutboxFrom w outbox ∧ ReleasesFrom w releases ∧
      w' = { w with db := { w.db with outbox }, releases }) := by
  cases a with
  | start n id =>
    obtain ⟨o, ho, h⟩ := Option.bind_eq_some_iff.1 h
    split at h
    · rename_i hg
      refine .inr (.inr (.inr ⟨_, _, outboxFrom_same w, releasesFrom_update ?_, (Option.some.inj h).symm⟩))
      rintro z ⟨⟩
      exact .inr ⟨rfl, (orderById_eq_some ho).2 ▸ ho, .inl hg.2⟩
    · cases h
  | claimRow n row =>
    obtain ⟨e, he, h⟩ := Option.bind_eq_some_iff.1 h
    have hmem := List.mem_of_find?_eq_some he
    split at h
    · split at h
      · refine .inr (.inr (.inr ⟨_, _, ?_, releasesFrom_same w, (Option.some.inj h).symm⟩))
        intro e' he'
        obtain ⟨e₁, he₁, rfl⟩ := List.mem_map.1 he'
        obtain ⟨e₂, he₂, rfl⟩ := List.mem_map.1 he₁
        refine ⟨e₂, he₂, ?_, ?_⟩ <;> by_cases hr : e₂.id = row <;> simp [hr]
      · rename_i o ho
        refine .inr (.inr (.inr ⟨_, _, ?_, ?_, (Option.some.inj h).symm⟩))
        · exact outboxFrom_map w row (fun _ => rfl) (fun _ => rfl)
        · refine releasesFrom_update ?_
          rintro z ⟨⟩
          have hid := (orderById_eq_some ho).2
          exact .inr ⟨rfl, by rw [hid]; exact ho, .inr ⟨e, hmem, hid.symm⟩⟩
    · cases h
  | redrive row =>
    refine .inr (.inr (.inr ⟨_, _, ?_, ?_, (Option.some.inj h).symm⟩))
    · exact outboxFrom_map w row (fun _ => rfl) (fun _ => rfl)
    · exact releasesFrom_same w
  | releaseQuantity n =>
    obtain ⟨x, hx, h⟩ := Option.bind_eq_some_iff.1 h
    split at h
    · rename_i hg
      rcases w.releaseQuantity_cases x.order.releaseArgs with ⟨hm, heq⟩ | ⟨-, heq⟩
      · rw [heq] at h
        exact .inr (.inl ⟨n, x, hx, hg.1, hg.2, hm, (Option.some.inj h).symm⟩)
      · rw [heq] at h
        exact .inr (.inr (.inr ⟨_, _, outboxFrom_same w, releasesFrom_finished hx, (Option.some.inj h).symm⟩))
    · cases h
  | readHold n =>
    obtain ⟨x, hx, h⟩ := Option.bind_eq_some_iff.1 h
    split at h
    · split at h
      · exact .inr (.inr (.inr ⟨_, _, outboxFrom_same w, releasesFrom_finished hx, (Option.some.inj h).symm⟩))
      · rename_i hold hhold
        refine .inr (.inr (.inr ⟨_, _, outboxFrom_same w, releasesFrom_update ?_, (Option.some.inj h).symm⟩))
        rintro z ⟨⟩
        refine .inl ⟨x, hx, rfl, rfl, ?_, fun _ h => by (cases h)⟩
        rintro _ ⟨⟩
        exact .inr hhold
    · cases h
  | deleteHold n =>
    obtain ⟨x, hx, h⟩ := Option.bind_eq_some_iff.1 h
    split at h
    · rename_i hold hp
      exact .inl ⟨n, x, hold, hx, hp, (Option.some.inj h).symm⟩
    · cases h
  | releaseSeats n =>
    obtain ⟨x, hx, h⟩ := Option.bind_eq_some_iff.1 h
    split at h
    · rename_i hold zone hp hz
      split at h
      · rename_i w₁ hw₁
        rcases World.releaseSeats_cases hw₁ with ⟨hok, heq⟩ | ⟨-, heq⟩
        · rw [heq] at h
          exact .inr (.inr (.inl ⟨n, x, hold, zone, hx, hp, hz, hok, (Option.some.inj h).symm⟩))
        · rw [heq] at h
          exact .inr (.inr (.inr ⟨_, _, outboxFrom_same w, releasesFrom_finished hx, (Option.some.inj h).symm⟩))
      · exact .inr (.inr (.inr ⟨_, _, outboxFrom_same w, releasesFrom_none w n, (Option.some.inj h).symm⟩))
    · cases h
  | markProcessed n =>
    obtain ⟨x, hx, h⟩ := Option.bind_eq_some_iff.1 h
    split at h
    · rename_i row _ _
      refine .inr (.inr (.inr ⟨_, _, ?_, ?_, (Option.some.inj h).symm⟩))
      · exact outboxFrom_map w row (fun _ => rfl) (fun _ => rfl)
      · exact releasesFrom_none w n
    · cases h
  | stop n =>
    exact .inr (.inr (.inr ⟨_, _, outboxFrom_same w, releasesFrom_none w n, (Option.some.inj h).symm⟩))

/-! ### Reconciles and rebuilds -/

/-- The reconciles after a step that changes no key: one that has read the database is as before, or has read it
just now. -/
def ReconcilesFrom (w : World) (a : ReconcileAct) (reconciles : Nat → Option Reconcile) : Prop :=
  ∀ n y remaining owing, reconciles n = some y → y.phase = .read remaining owing →
    w.reconciles n = some y ∨
      (a = .read n ∧ (∃ x, w.reconciles n = some x ∧ x.event = y.event) ∧ owing = w.owing y.event ∧
        ∃ e, w.db.events y.event = some e ∧ remaining = e.totalSeats - w.db.sold y.event)

private theorem reconcilesFrom_update {w : World} {a : ReconcileAct} {n : Nat} {y : Option Reconcile}
    (h : ∀ z ∈ y, ∀ remaining owing, z.phase ≠ .read remaining owing) :
    ReconcilesFrom w a (Function.update w.reconciles n y) := by
  intro m z remaining owing hz hp
  by_cases hm : m = n
  · subst hm
    rw [Function.update_self] at hz
    exact absurd hp (h z hz remaining owing)
  · rw [Function.update_of_ne hm] at hz
    exact .inl hz

/-- What a reconcile does: it writes the stock, it writes the quotas, or it changes nothing. -/
theorem stepReconcile_cases {w w' : World} {a : ReconcileAct} (h : stepReconcile w a = some w') :
    (∃ n job remaining owing, a = .write n ∧ w.reconciles n = some job ∧ job.phase = .read remaining owing ∧
      w' = { w.setReconcile n (some { job with phase := .written }) with
        redis := { w.redis with available := Function.update w.redis.available job.event (some remaining) } }) ∨
    (∃ n job rows, w.reconciles n = some job ∧ job.phase = .quotasRead rows ∧
      w' = { w.setReconcile n none with
        redis := { w.redis with purchased := Function.update w.redis.purchased job.event rows } }) ∨
    (∃ reconciles, ReconcilesFrom w a reconciles ∧ w' = { w with reconciles }) := by
  cases a with
  | check n event =>
    simp only [stepReconcile] at h
    split at h
    · refine .inr (.inr ⟨_, reconcilesFrom_update ?_, (Option.some.inj h).symm⟩)
      rintro z ⟨⟩ _ _ ⟨⟩
    · cases h
  | read n =>
    obtain ⟨job, hjob, h⟩ := Option.bind_eq_some_iff.1 h
    split at h
    · rename_i e _ he
      refine .inr (.inr ⟨_, ?_, (Option.some.inj h).symm⟩)
      intro m z remaining owing hz hp
      by_cases hm : m = n
      · subst hm
        rw [Function.update_self, Option.some.injEq] at hz
        subst hz
        simp only [ReconcilePhase.read.injEq] at hp
        exact .inr ⟨rfl, ⟨job, hjob, rfl⟩, hp.2.symm, e, he, hp.1.symm⟩
      · rw [Function.update_of_ne hm] at hz
        exact .inl hz
    · refine .inr (.inr ⟨_, reconcilesFrom_update ?_, (Option.some.inj h).symm⟩)
      rintro z ⟨⟩
    · cases h
  | write n =>
    obtain ⟨job, hjob, h⟩ := Option.bind_eq_some_iff.1 h
    split at h
    · rename_i remaining owing hp
      exact .inl ⟨n, job, remaining, owing, rfl, hjob, hp, (Option.some.inj h).symm⟩
    · cases h
  | readQuotas n =>
    obtain ⟨job, hjob, h⟩ := Option.bind_eq_some_iff.1 h
    split at h
    · refine .inr (.inr ⟨_, reconcilesFrom_update ?_, (Option.some.inj h).symm⟩)
      rintro z ⟨⟩ _ _ ⟨⟩
    · cases h
  | writeQuotas n =>
    obtain ⟨job, hjob, h⟩ := Option.bind_eq_some_iff.1 h
    split at h
    · rename_i rows hp
      exact .inr (.inl ⟨n, job, rows, hjob, hp, (Option.some.inj h).symm⟩)
    · cases h
  | stop n =>
    refine .inr (.inr ⟨_, reconcilesFrom_update ?_, (Option.some.inj h).symm⟩)
    rintro z ⟨⟩

/-- The rebuilds after a step that writes nothing: one that has read the database is as before, or has read it just
now. -/
def RebuildsFrom (w : World) (a : RebuildAct) (rebuilds : Nat → Option Rebuild) : Prop :=
  ∀ n y blocks held, rebuilds n = some y → y.phase = .read blocks held →
    w.rebuilds n = some y ∨
      (a = .read n ∧ (∃ x, w.rebuilds n = some x ∧ x.event = y.event ∧ x.zone = y.zone) ∧
        blocks = w.db.zoneBlocks y.zone ∧ held = w.db.heldOn y.event (w.db.zoneBlocks y.zone))

private theorem rebuildsFrom_update {w : World} {a : RebuildAct} {n : Nat} {y : Option Rebuild}
    (h : ∀ z ∈ y, ∀ blocks held, z.phase ≠ .read blocks held) :
    RebuildsFrom w a (Function.update w.rebuilds n y) := by
  intro m z blocks held hz hp
  by_cases hm : m = n
  · subst hm
    rw [Function.update_self] at hz
    exact absurd hp (h z hz blocks held)
  · rw [Function.update_of_ne hm] at hz
    exact .inl hz

/-- What a rebuild does: it writes its zone, or it changes nothing. -/
theorem stepRebuild_cases {w w' : World} {a : RebuildAct} (h : stepRebuild w a = some w') :
    (∃ n job blocks held, a = .write n ∧ w.rebuilds n = some job ∧ job.phase = .read blocks held ∧
      w' = { w.setRebuild n none with
        redis := w.redis.setZone job.event job.zone
          ((w.redis.zones (job.event, job.zone)).rebuilt blocks held) }) ∨
    (∃ rebuilds, RebuildsFrom w a rebuilds ∧ w' = { w with rebuilds }) := by
  cases a with
  | check n event zone =>
    simp only [stepRebuild] at h
    split at h
    · refine .inr ⟨_, rebuildsFrom_update ?_, (Option.some.inj h).symm⟩
      rintro z ⟨⟩ _ _ ⟨⟩
    · cases h
  | read n =>
    obtain ⟨job, hjob, h⟩ := Option.bind_eq_some_iff.1 h
    split at h
    · simp only at h
      split at h
      · refine .inr ⟨_, rebuildsFrom_update ?_, (Option.some.inj h).symm⟩
        rintro z ⟨⟩
      · refine .inr ⟨_, ?_, (Option.some.inj h).symm⟩
        intro m z blocks held hz hp
        by_cases hm : m = n
        · subst hm
          rw [Function.update_self, Option.some.injEq] at hz
          subst hz
          simp only [RebuildPhase.read.injEq] at hp
          exact .inr ⟨rfl, ⟨job, hjob, rfl, rfl⟩, hp.1.symm, hp.2.symm⟩
        · rw [Function.update_of_ne hm] at hz
          exact .inl hz
    · cases h
  | write n =>
    obtain ⟨job, hjob, h⟩ := Option.bind_eq_some_iff.1 h
    split at h
    · rename_i blocks held hp
      exact .inl ⟨n, job, blocks, held, rfl, hjob, hp, (Option.some.inj h).symm⟩
    · cases h
  | stop n =>
    refine .inr ⟨_, rebuildsFrom_update ?_, (Option.some.inj h).symm⟩
    rintro z ⟨⟩

/-! ### Database transactions -/

theorem insertIntent_eq_some {db db' : Db} {i : Intent} {id : OrderId} {fk : Bool}
    (h : db.insertIntent i id fk = some db') :
    db.AcceptsOrder (i.order id) ∧ (∀ hold ∈ i.hold id, db.AcceptsHold hold) ∧
      db' = { db with orders := db.orders ++ [i.order id], seatHolds := db.seatHolds ++ (i.hold id).toList } := by
  unfold Db.insertIntent at h
  split at h
  · rename_i hg
    exact ⟨hg.2.1, hg.2.2, (Option.some.inj h).symm⟩
  · cases h

theorem transition_eq_some {db db' : Db} {id : OrderId} {new : OrderStatus} {now : Time}
    (h : db.transition id new now = some db') :
    ∃ o, db.orderById id = some o ∧ new ∈ o.status.validTransitions ∧
      db' = { db with
        orders := db.orders.map fun o' => if o'.id = id then o'.stamp new now else o'
        outbox := if new.held then db.outbox else db.outbox ++ [{ id := db.outbox.length, order := id }]
        seatHolds :=
          if new = .confirmed ∧ o.zone.isSome then
            db.seatHolds.map fun h =>
              if h.order = id ∧ h.confirmedAt = none then { h with confirmedAt := some now } else h
          else db.seatHolds } := by
  obtain ⟨o, ho, h⟩ := Option.bind_eq_some_iff.1 h
  split at h
  · rename_i hv
    exact ⟨o, ho, hv, (Option.some.inj h).symm⟩
  · cases h

private theorem released_update_mono (released : Marker → Bool) (m k : Marker) (hk : released k = true) :
    Function.update released m true k = true := by
  by_cases h : k = m
  · rw [h, Function.update_self]
  · rwa [Function.update_of_ne h]

/-- Each table of processes is moved by the steps of its own kind only, orders by commits and transitions only; no
step changes the event rows or takes a released marker back. -/
structure TablesKept (a : Act) (w w' : World) : Prop where
  releases : (∀ b, a ≠ .release b) → w'.releases = w.releases
  reconciles : (∀ b, a ≠ .reconcile b) → w'.reconciles = w.reconciles
  rebuilds : (∀ b, a ≠ .rebuild b) → w'.rebuilds = w.rebuilds
  orders : (∀ n id fk, a ≠ .settle (.persist n id fk)) → (∀ id new now, a ≠ .transition id new now) →
    w'.db.orders = w.db.orders
  events : w'.db.events = w.db.events
  released : ∀ k, w.redis.released k = true → w'.redis.released k = true

/-- Only requests add intents and seat calls, and no intent is taken back; no step changes the blocks; the
hold rows are moved by commits, transitions and releases only. -/
structure RecordsKept (a : Act) (w w' : World) : Prop where
  log : (∀ b, a ≠ .intake b) → w'.log = w.log
  calls : (∀ b, a ≠ .intake b) → w'.calls = w.calls
  logged : ∀ i ∈ w.log, i ∈ w'.log
  seatBlocks : w'.db.seatBlocks = w.db.seatBlocks
  seatHolds : (∀ n id fk, a ≠ .settle (.persist n id fk)) → (∀ id new now, a ≠ .transition id new now) →
    (∀ b, a ≠ .release b) →
    w'.db.seatHolds = w.db.seatHolds

/-- What the two tables of frames say, in one look at every step. -/
private theorem kept_step {cfg : Settings} {w w' : World} {a : Act} (h : step cfg w a = some w') :
    TablesKept a w w' ∧ RecordsKept a w w' := by
  cases a with
  | intake a =>
    rcases stepIntake_cases h with ⟨b, -, rfl⟩ | ⟨c, call, b, -, -, rfl⟩ | ⟨zones, calls, -, -, rfl⟩ <;>
      refine ⟨⟨fun _ => rfl, fun _ => rfl, fun _ => rfl, fun _ _ => rfl, rfl, fun _ h => h⟩,
        fun ha => (ha a rfl).elim, fun ha => (ha a rfl).elim, ?_, rfl, fun _ _ _ => rfl⟩
    · exact fun _ => List.mem_append_left _
    · exact fun _ => List.mem_append_left _
    · exact fun _ h => h
  | settle a =>
    rcases stepSettle_cases h with ⟨n, x, id, fk, db, rfl, -, -, -, hdb, rfl⟩ | ⟨n, x, w₁, -, -, hw₁, rfl⟩ |
      ⟨redis, handlers, hq, -, rfl⟩
    · obtain ⟨-, -, rfl⟩ := insertIntent_eq_some hdb
      exact ⟨⟨fun _ => rfl, fun _ => rfl, fun _ => rfl, fun ha _ => (ha n id fk rfl).elim, rfl, fun _ h => h⟩,
        fun _ => rfl, fun _ => rfl, fun _ h => h, rfl, fun ha _ _ => (ha n id fk rfl).elim⟩
    · rcases World.refund_cases hw₁ with ⟨-, -, rfl⟩ | ⟨seat, zone, -, -, -, rfl⟩ | rfl <;>
        refine ⟨⟨fun _ => rfl, fun _ => rfl, fun _ => rfl, fun _ _ => rfl, rfl, ?_⟩,
          fun _ => rfl, fun _ => rfl, fun _ h => h, rfl, fun _ _ _ => rfl⟩
      · exact released_update_mono _ _
      · exact released_update_mono _ _
      · exact fun _ h => h
    · refine ⟨⟨fun _ => rfl, fun _ => rfl, fun _ => rfl, fun _ _ => rfl, rfl, fun k hk => ?_⟩,
        fun _ => rfl, fun _ => rfl, fun _ h => h, rfl, fun _ _ _ => rfl⟩
      rw [hq.released]
      exact hk
  | transition id new now =>
    obtain ⟨db, hdb, rfl⟩ := Option.map_eq_some_iff.1 h
    obtain ⟨o₀, -, -, rfl⟩ := transition_eq_some hdb
    exact ⟨⟨fun _ => rfl, fun _ => rfl, fun _ => rfl, fun _ ha => (ha id new now rfl).elim, rfl, fun _ h => h⟩,
      fun _ => rfl, fun _ => rfl, fun _ h => h, rfl, fun _ ha _ => (ha id new now rfl).elim⟩
  | release a =>
    rcases stepRelease_cases h with ⟨n, x, hold, -, -, rfl⟩ | ⟨n, x, -, -, -, -, rfl⟩ |
      ⟨n, x, hold, zone, -, -, -, -, rfl⟩ | ⟨outbox, releases, -, -, rfl⟩ <;>
      refine ⟨⟨fun ha => (ha a rfl).elim, fun _ => rfl, fun _ => rfl, fun _ _ => rfl, rfl, ?_⟩,
        fun _ => rfl, fun _ => rfl, fun _ h => h, rfl, fun _ _ ha => (ha a rfl).elim⟩
    · exact fun _ h => h
    · exact released_update_mono _ _
    · exact released_update_mono _ _
    · exact fun _ h => h
  | reconcile a =>
    rcases stepReconcile_cases h with ⟨n, job, remaining, owing, -, -, -, rfl⟩ | ⟨n, job, rows, -, -, rfl⟩ |
      ⟨reconciles, -, rfl⟩ <;>
      exact ⟨⟨fun _ => rfl, fun ha => (ha a rfl).elim, fun _ => rfl, fun _ _ => rfl, rfl, fun _ h => h⟩,
        fun _ => rfl, fun _ => rfl, fun _ h => h, rfl, fun _ _ _ => rfl⟩
  | rebuild a =>
    rcases stepRebuild_cases h with ⟨n, job, blocks, held, -, -, -, rfl⟩ | ⟨rebuilds, -, rfl⟩ <;>
      exact ⟨⟨fun _ => rfl, fun _ => rfl, fun ha => (ha a rfl).elim, fun _ _ => rfl, rfl, fun _ h => h⟩,
        fun _ => rfl, fun _ => rfl, fun _ h => h, rfl, fun _ _ _ => rfl⟩
  | lose event =>
    obtain rfl := Option.some.inj h
    exact ⟨⟨fun _ => rfl, fun _ => rfl, fun _ => rfl, fun _ _ => rfl, rfl, fun _ h => h⟩,
      fun _ => rfl, fun _ => rfl, fun _ h => h, rfl, fun _ _ _ => rfl⟩

theorem tablesKept_step {cfg : Settings} {w w' : World} {a : Act} (h : step cfg w a = some w') :
    TablesKept a w w' := (kept_step h).1

theorem recordsKept_step {cfg : Settings} {w w' : World} {a : Act} (h : step cfg w a = some w') :
    RecordsKept a w w' := (kept_step h).2

/-! ### What the scripts leave alone -/

section Frames

variable (r : Redis)

@[simp] theorem released_reserve (a : ReserveArgs) : (r.reserve a).released = r.released := rfl
@[simp] theorem released_claim (a : ClaimArgs) : (r.claim a).released = r.released := rfl
@[simp] theorem released_putBack (a : ReleaseArgs) :
    (r.putBack a).released = Function.update r.released a.marker true := rfl
@[simp] theorem released_giveBackSeats (a : ReleaseSeatsArgs) :
    (r.giveBackSeats a).released = Function.update r.released a.marker true := rfl

end Frames

/-- The key of a new order is the only one that an insertion adds. -/
theorem hasKey_insertIntent {db db' : Db} {i : Intent} {id : OrderId} {fk : Bool}
    (h : db.insertIntent i id fk = some db') (k : Key) : db'.hasKey k = (db.hasKey k || decide (i.key = k)) := by
  obtain ⟨-, -, rfl⟩ := insertIntent_eq_some h
  simp [Db.hasKey, Intent.order]

theorem hasKey_transition {db db' : Db} {id : OrderId} {new : OrderStatus} {now : Time}
    (h : db.transition id new now = some db') (k : Key) : db'.hasKey k = db.hasKey k := by
  obtain ⟨o, -, -, rfl⟩ := transition_eq_some h
  simp only [Db.hasKey, List.any_map]
  congr 1
  funext o'
  simp only [Function.comp_apply]
  split <;> simp

/-- An intent that is committed had no order before. -/
theorem hasKey_of_accepts {db : Db} {i : Intent} {id : OrderId} (h : db.AcceptsOrder (i.order id)) :
    db.hasKey i.key = false := by
  simp only [Db.hasKey, List.any_eq_false, decide_eq_true_eq]
  exact fun o ho => h.2.1 o ho

end Ticketing
