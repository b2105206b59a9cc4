import Ticketing.Steps

/-!
# Settling an intent exactly once

An accepted intent is settled by a committed order or by the refund of the dead-letter path, and must not be settled
twice.  The refund is guarded by an existence check, but the check, the parking of the entry and the refund are
separate steps, and a consumer that still holds the entry in its batch commits without looking whether the entry is
still its own.  `CommitSafe` is the condition on the commits under which no key is settled twice; a run in which every
entry has one handler at a time meets it.
-/

namespace Ticketing

open Exec

/-- A commit of an intent is safe when no dead-letter pass has refunded the intent and none is past its existence
check.  An attempt that rolls back commits nothing and is always safe. -/
def CommitSafe (w : World) : Act → Prop
  | .settle (.persist n id fk) => ∀ x db, w.handlers n = some x → x.phase = .delivered →
      w.db.insertIntent x.intent id fk = some db →
      w.redis.released (.deadLetter x.intent.key) = false ∧
        ∀ m y, w.handlers m = some y → y.intent.key = x.intent.key → y.phase.doomed = false
  | _ => True

/-- No key is both persisted and refunded, and a dead-letter pass past its check still finds no order. -/
structure SettleInv (w : World) : Prop where
  once : ∀ k, w.db.hasKey k = true → w.redis.released (.deadLetter k) = false
  doomed : ∀ n x, w.handlers n = some x → x.phase.doomed = true → w.db.hasKey x.intent.key = false

/-- Setting the marker of an order leaves the dead-letter markers. -/
theorem update_order_deadLetter (released : Marker → Bool) (id : OrderId) (k : Key) :
    Function.update released (.order id) true (.deadLetter k) = released (.deadLetter k) :=
  Function.update_of_ne (by simp) _ _

/-- Only the consumer moves handlers, adds keys and sets dead-letter markers. -/
structure SettlementKept (w w' : World) : Prop where
  handlers : w'.handlers = w.handlers
  hasKey : ∀ k, w'.db.hasKey k = w.db.hasKey k
  released : ∀ k, w'.redis.released (.deadLetter k) = w.redis.released (.deadLetter k)

theorem settlementKept_step {cfg : Settings} {w w' : World} {a : Act} (ha : ∀ b, a ≠ .settle b)
    (h : step cfg w a = some w') :
    SettlementKept w w' := by
  cases a with
  | intake a =>
    rcases stepIntake_cases h with ⟨b, -, rfl⟩ | ⟨c, call, b, -, -, rfl⟩ | ⟨zones, calls, -, -, rfl⟩ <;>
      exact ⟨rfl, fun _ => rfl, fun _ => rfl⟩
  | settle a => exact absurd rfl (ha a)
  | transition id new now =>
    obtain ⟨db, hdb, rfl⟩ := Option.map_eq_some_iff.1 h
    exact ⟨rfl, fun k => hasKey_transition hdb k, fun _ => rfl⟩
  | release a =>
    rcases stepRelease_cases h with ⟨n, x, hold, -, -, rfl⟩ | ⟨n, x, -, -, -, -, rfl⟩ |
      ⟨n, x, hold, zone, -, -, -, -, rfl⟩ | ⟨outbox, releases, -, -, rfl⟩
    · exact ⟨rfl, fun _ => rfl, fun _ => rfl⟩
    · exact ⟨rfl, fun _ => rfl, fun k => update_order_deadLetter _ x.order.id k⟩
    · exact ⟨rfl, fun _ => rfl, fun k => update_order_deadLetter _ x.order.id k⟩
    · exact ⟨rfl, fun _ => rfl, fun _ => rfl⟩
  | reconcile a =>
    rcases stepReconcile_cases h with ⟨n, job, remaining, owing, -, -, -, rfl⟩ | ⟨n, job, rows, -, -, rfl⟩ |
      ⟨reconciles, -, rfl⟩ <;>
      exact ⟨rfl, fun _ => rfl, fun _ => rfl⟩
  | rebuild a =>
    rcases stepRebuild_cases h with ⟨n, job, blocks, held, -, -, -, rfl⟩ | ⟨rebuilds, -, rfl⟩ <;>
      exact ⟨rfl, fun _ => rfl, fun _ => rfl⟩
  | lose event =>
    obtain rfl := Option.some.inj h
    exact ⟨rfl, fun _ => rfl, fun _ => rfl⟩

/-- No step takes an order's key away. -/
theorem hasKey_step {cfg : Settings} {w w' : World} {a : Act} (h : step cfg w a = some w') {k : Key}
    (hk : w.db.hasKey k = true) : w'.db.hasKey k = true := by
  by_cases ha : ∃ b, a = .settle b
  · obtain ⟨b, rfl⟩ := ha
    have hsettle : stepSettle cfg w b = some w' := h
    rcases stepSettle_cases hsettle with ⟨n, x, id, fk, db, -, -, -, -, hdb, rfl⟩ | ⟨n, x, w₁, -, -, hw₁, rfl⟩ |
      ⟨redis, handlers, -, -, rfl⟩
    · change db.hasKey k = true
      rw [hasKey_insertIntent hdb, hk, Bool.true_or]
    · rcases World.refund_cases hw₁ with ⟨-, -, rfl⟩ | ⟨seat, zone, -, -, -, rfl⟩ | rfl <;> exact hk
    · exact hk
  · rw [(settlementKept_step (fun b hb => ha ⟨b, hb⟩) h).hasKey]
    exact hk

namespace SettleInv

variable {cfg : Settings} {w w' : World}

theorem start (h : w.Start) : SettleInv w where
  once _ _ := h.released _
  doomed n x hx := by rw [h.handlers n] at hx; cases hx

/-- A step that adds no key, sets no dead-letter marker and moves handlers only as `HandlersFrom` says. -/
theorem frame {a : SettleAct} (hi : SettleInv w) (hkey : ∀ k, w'.db.hasKey k = w.db.hasKey k)
    (hrel : ∀ k, w'.redis.released (.deadLetter k) = w.redis.released (.deadLetter k))
    (hfrom : HandlersFrom w a w'.handlers) : SettleInv w' where
  once k hk := by
    rw [hrel]
    exact hi.once k (hkey k ▸ hk)
  doomed n y hy hd := by
    rw [hkey]
    rcases hfrom n y hy with ⟨x, hx, -, hint, himp⟩ | ⟨-, -, -, -, hnot⟩
    · rcases himp hd with hd' | ⟨-, hno⟩
      · exact hint ▸ hi.doomed n x hx hd'
      · exact hno
    · rw [hnot] at hd; cases hd

theorem commit (hi : SettleInv w) {n : Nat} {x : Handler} {id : OrderId} {fk : Bool} {db : Db}
    (hx : w.handlers n = some x) (hp : x.phase = .delivered) (hC : CommitSafe w (.settle (.persist n id fk)))
    (hdb : w.db.insertIntent x.intent id fk = some db) :
    SettleInv { w.setHandler n (some { x with phase := .settled }) with db } := by
  obtain ⟨hrel, hother⟩ := hC x db hx hp hdb
  constructor
  · intro k hk
    simp only [hasKey_insertIntent hdb, Bool.or_eq_true, decide_eq_true_eq] at hk
    rcases hk with hk | rfl
    · exact hi.once k hk
    · exact hrel
  · intro m y hy hd
    simp only [World.setHandler] at hy
    by_cases hm : m = n
    · subst hm
      rw [Function.update_self, Option.some.injEq] at hy
      subst hy
      cases hd
    · rw [Function.update_of_ne hm] at hy
      simp only [hasKey_insertIntent hdb, Bool.or_eq_false_iff, decide_eq_false_iff_not]
      refine ⟨hi.doomed m y hy hd, fun hk => ?_⟩
      rw [hother m y hy hk.symm] at hd
      cases hd

/-- A refund sets the marker of a key that has no order. -/
theorem refund (hi : SettleInv w) {n : Nat} {x : Handler} {w₁ : World} (hx : w.handlers n = some x)
    (hp : x.phase = .parked false) (hw₁ : w.refund x.intent = some w₁) :
    SettleInv (w₁.setHandler n (some { x with phase := .refunded })) := by
  have hno := hi.doomed n x hx (by rw [hp]; rfl)
  have hdoom : ∀ m y, Function.update w.handlers n (some { x with phase := .refunded }) m = some y →
      y.phase.doomed = true → w.db.hasKey y.intent.key = false := by
    intro m y hy hd
    by_cases hm : m = n
    · subst hm
      rw [Function.update_self, Option.some.injEq] at hy
      subst hy
      cases hd
    · rw [Function.update_of_ne hm] at hy
      exact hi.doomed m y hy hd
  have honce : ∀ k, w.db.hasKey k = true →
      Function.update w.redis.released (.deadLetter x.intent.key) true (.deadLetter k) = false := by
    intro k hk
    have hne : k ≠ x.intent.key := fun h => by rw [h, hno] at hk; cases hk
    rw [Function.update_of_ne (by simpa using hne)]
    exact hi.once k hk
  rcases World.refund_cases hw₁ with ⟨-, -, rfl⟩ | ⟨seat, zone, -, -, -, rfl⟩ | rfl
  · exact ⟨honce, hdoom⟩
  · exact ⟨honce, hdoom⟩
  · exact ⟨hi.once, hdoom⟩

theorem step {a : Act} (hi : SettleInv w) (hC : CommitSafe w a) (h : Ticketing.step cfg w a = some w') :
    SettleInv w' := by
  cases a with
  | settle a =>
    rcases stepSettle_cases h with ⟨n, x, id, fk, db, rfl, hx, hp, -, hdb, rfl⟩ |
      ⟨n, x, w₁, hx, hp, hw₁, rfl⟩ | ⟨redis, handlers, hq, hfrom, rfl⟩
    · exact hi.commit hx hp hC hdb
    · exact hi.refund hx hp hw₁
    · exact hi.frame (fun _ => rfl) (fun k => congrFun hq.released _) hfrom
  | _ =>
    have hkept := settlementKept_step (by simp) h
    apply hi.frame hkept.hasKey hkept.released
    rw [hkept.handlers]
    exact handlersFrom_same w (.stop 0)

end SettleInv

/-! ### Runs without dead-lettering -/

/-- The action is not an existence check of the dead-letter path. -/
def NoDeadLetter (_ : World) (a : Act) : Prop := ∀ n, a ≠ .settle (.check n)

/-- No dead-letter pass is past its check and nothing was refunded. -/
structure Unrefunded (w : World) : Prop where
  released : ∀ k, w.redis.released (.deadLetter k) = false
  doomed : ∀ n x, w.handlers n = some x → x.phase.doomed = false

theorem Unrefunded.frame {w w' : World} {a : SettleAct} (hi : Unrefunded w)
    (hrel : ∀ k, w'.redis.released (.deadLetter k) = w.redis.released (.deadLetter k)) (ha : ∀ n, a ≠ .check n)
    (hfrom : HandlersFrom w a w'.handlers) : Unrefunded w' where
  released k := (hrel k).trans (hi.released k)
  doomed n y hy := by
    rcases hfrom n y hy with ⟨x, hx, -, -, himp⟩ | ⟨-, -, -, -, hnot⟩
    · by_contra hd
      rcases himp (by simpa using hd) with hd' | ⟨⟨m, hm⟩, -⟩
      · rw [hi.doomed n x hx] at hd'; cases hd'
      · exact ha m hm
    · exact hnot

theorem Unrefunded.step {cfg : Settings} {w w' : World} {a : Act} (hi : Unrefunded w)
    (hC : NoDeadLetter w a) (h : Ticketing.step cfg w a = some w') : Unrefunded w' := by
  cases a with
  | settle a =>
    have ha : ∀ n, a ≠ .check n := fun n hn => hC n (by rw [hn])
    rcases stepSettle_cases h with ⟨n, x, id, fk, db, rfl, hx, -, -, hdb, rfl⟩ | ⟨n, x, w₁, hx, hp, hw₁, rfl⟩ |
      ⟨redis, handlers, hq, hfrom, rfl⟩
    · exact hi.frame (fun _ => rfl) ha (handlersFrom_phase hx fun hd => by cases hd)
    · have hdoom := hi.doomed n x hx
      rw [hp] at hdoom
      cases hdoom
    · exact hi.frame (fun k => congrFun hq.released _) ha hfrom
  | _ =>
    have hkept := settlementKept_step (by simp) h
    apply hi.frame (a := .stop 0) hkept.released (fun _ h => by cases h)
    rw [hkept.handlers]
    exact handlersFrom_same w _

/-- Where nothing is dead-lettered, every commit is safe. -/
theorem commitSafe_of_noDeadLetter {cfg : Settings} {w₀ : World} {acts : List Act} (hstart : w₀.Start)
    (hno : Along (step cfg) NoDeadLetter w₀ acts) : Along (step cfg) CommitSafe w₀ acts := by
  refine Along.of_invariant (fun _ _ _ hC hs hi => Unrefunded.step hi hC hs) ?_
    ⟨fun _ => hstart.released _, fun n x hx => by rw [hstart.handlers n] at hx; cases hx⟩ hno
  intro w a hi _
  unfold CommitSafe
  split
  · exact fun x _ _ _ _ => ⟨hi.released _, fun m y hy _ => hi.doomed m y hy⟩
  · trivial

/-! ### The slow consumer -/

/-- Redis with some stock of every event and nothing else. -/
def stockedRedis (stock : Int) : Redis where
  available := fun _ => some stock
  purchased := fun _ => ∅
  claims := fun _ => none
  released := fun _ => false
  zones := fun _ => {}
  stream := []
  lastId := 0
  dead := []

/-- A database whose events have no seat map. -/
def unseatedDb (totalSeats : Int) : Db where
  orders := []
  seatHolds := []
  outbox := []
  seatBlocks := []
  events := fun _ => some ⟨totalSeats, false⟩

def unseatedStart : World := { redis := stockedRedis 10, db := unseatedDb 10 }

theorem unseatedStart_start : unseatedStart.Start := by
  constructor <;> intros <;> rfl

/-- A reclaim pass in slot `n` whose retry of entry `e` raises. -/
def failedRetry (n e : Nat) : List Act := [.settle (.list n e), .settle (.claim n), .settle (.stop n)]

/-- The consumer in slot 0 is delivered entry 1 and does not get to it until four retries have failed and a fifth
pass has run the existence check and parked the entry. -/
def slowConsumer : List Act :=
  .settle (.deliver 0 1) :: failedRetry 1 1 ++ failedRetry 1 1 ++ failedRetry 1 1 ++ failedRetry 1 1 ++
    [.settle (.list 1 1), .settle (.claim 1), .settle (.check 1), .settle (.park 1), .settle (.persist 0 7 true),
      .settle (.refund 1)]

def sampleReserve : ReserveArgs :=
  { event := 1, user := 1, quantity := 2, totalPriceCents := 100, key := 1, limit := 4 }

/-- The slow consumer commits an order whose quantity the dead-letter pass then refunds. -/
theorem slow_consumer_settles_twice :
    unseatedStart.Start ∧ ∃ w, exec (step {}) unseatedStart
      (.intake (.reserve sampleReserve) :: slowConsumer) = some w ∧
      w.db.hasKey 1 = true ∧ w.redis.released (.deadLetter 1) = true := by
  refine ⟨unseatedStart_start, ?_⟩
  obtain ⟨w, hw, hp⟩ := exec_any (step {}) unseatedStart (.intake (.reserve sampleReserve) :: slowConsumer)
    (fun w => w.db.hasKey 1 && w.redis.released (.deadLetter 1)) (by decide +kernel)
  exact ⟨w, hw, by simpa using hp⟩

/-- No idempotency key is ever both persisted as an order and refunded by its dead-letter release, in every run whose
commits are all safe. -/
theorem settled_at_most_once {cfg : Settings} {w₀ w : World} {acts : List Act} (hstart : w₀.Start)
    (hsafe : Along (step cfg) CommitSafe w₀ acts) (h : exec (step cfg) w₀ acts = some w) (k : Key) :
    ¬ (w.db.hasKey k = true ∧ w.redis.released (.deadLetter k) = true) := by
  rintro ⟨hkey, hrel⟩
  have hinv : SettleInv w :=
    exec_invariant (fun _ _ _ hC hs hi => hi.step hC hs) (SettleInv.start hstart) hsafe h
  rw [hinv.once k hkey] at hrel
  cases hrel

/-- The consumer commits in time and acknowledges. -/
def promptConsumer : List Act := [.settle (.deliver 0 1), .settle (.persist 0 7 true), .settle (.ack 0)]

theorem settled_at_most_once_prompt :
    ∃ w, exec (step {}) unseatedStart (.intake (.reserve sampleReserve) :: promptConsumer) = some w ∧
      w.db.hasKey 1 = true ∧ ¬ (w.db.hasKey 1 = true ∧ w.redis.released (.deadLetter 1) = true) := by
  obtain ⟨w, hw, hp⟩ := exec_any (step {}) unseatedStart (.intake (.reserve sampleReserve) :: promptConsumer)
    (fun w => w.db.hasKey 1) (by decide +kernel)
  refine ⟨w, hw, hp, settled_at_most_once unseatedStart_start ?_ hw 1⟩
  exact commitSafe_of_noDeadLetter unseatedStart_start (Along.of_forall (by simp [promptConsumer, NoDeadLetter]))

/-! ### One handler for each entry -/

/-- A process takes up an entry only when no other process works on it. -/
def OneHandler (w : World) : Act → Prop
  | .settle (.deliver _ id) => ∀ m y, w.handlers m = some y → y.entry ≠ id
  | .settle (.list _ id) => ∀ m y, w.handlers m = some y → y.entry ≠ id
  | _ => True

/-- What the phase of a handler says about its entry. -/
def PhaseOk (cfg : Settings) (r : Redis) (e : StreamEntry) : HandlerPhase → Prop
  | .listed times => e.delivered = times
  | .delivered | .rejected => r.released (.deadLetter e.intent.key) = false
  | .exhausted | .checked _ | .parked _ | .refunded => cfg.orderMaxDeliveries ≤ e.delivered
  | .settled => True

/-- The stream and its handlers in a run with one handler for each entry.  An entry whose intent was refunded has used
up its deliveries, so whoever takes it up next dead-letters it again and never persists it. -/
structure Exclusive (cfg : Settings) (w : World) : Prop where
  ids : (w.redis.stream.map StreamEntry.id).Nodup
  bound : ∀ e ∈ w.redis.stream, e.id ≤ w.redis.lastId
  keys : (w.redis.stream.map fun e => e.intent.key).Nodup
  claimed : ∀ e ∈ w.redis.stream, (w.redis.claims e.intent.key).isSome = true
  marked : ∀ k, w.redis.released (.deadLetter k) = true → (w.redis.claims k).isSome = true
  live : ∀ n x, w.handlers n = some x → ∃ e ∈ w.redis.stream, e.id = x.entry ∧ e.intent = x.intent ∧
    1 ≤ e.delivered ∧ PhaseOk cfg w.redis e x.phase
  alone : ∀ m n x y, w.handlers m = some x → w.handlers n = some y → x.entry = y.entry → m = n
  refunded : ∀ e ∈ w.redis.stream, w.redis.released (.deadLetter e.intent.key) = true →
    1 ≤ e.delivered ∧ cfg.orderMaxDeliveries ≤ e.delivered

namespace Exclusive

variable {cfg : Settings} {w w' : World}

theorem start (h : w.Start) : Exclusive cfg w where
  ids := by simp [h.stream]
  bound := by simp [h.stream]
  keys := by simp [h.stream]
  claimed := by simp [h.stream]
  marked k hk := by rw [h.released] at hk; cases hk
  live n x hx := by rw [h.handlers n] at hx; cases hx
  alone m n x y hx := by rw [h.handlers m] at hx; cases hx
  refunded := by simp [h.stream]

/-- An entry of the stream is determined by its key. -/
theorem eq_of_key (hi : Exclusive cfg w) {e e' : StreamEntry} (he : e ∈ w.redis.stream) (he' : e' ∈ w.redis.stream)
    (h : e.intent.key = e'.intent.key) : e = e' :=
  List.inj_on_of_nodup_map hi.keys he he' h

/-- Handlers of intents with the same key are the same handler. -/
theorem eq_of_intent_key (hi : Exclusive cfg w) {m n : Nat} {x y : Handler} (hx : w.handlers m = some x)
    (hy : w.handlers n = some y) (h : x.intent.key = y.intent.key) : m = n := by
  obtain ⟨e, he, heid, hei, -, -⟩ := hi.live m x hx
  obtain ⟨e', he', heid', hei', -, -⟩ := hi.live n y hy
  have hEq := hi.eq_of_key he he' (by rw [hei, hei', h])
  exact hi.alone m n x y hx hy (by rw [← heid, ← heid', hEq])

/-- In such a run every commit is safe. -/
theorem commitSafe (hi : Exclusive cfg w) (a : Act) : CommitSafe w a := by
  unfold CommitSafe
  split
  · rename_i n id fk
    intro x _ hx hp _
    obtain ⟨e, he, heid, hei, -, hphase⟩ := hi.live n x hx
    rw [hp] at hphase
    refine ⟨hei ▸ hphase, fun m y hy hk => ?_⟩
    obtain rfl := hi.eq_of_intent_key hy hx hk
    rw [hx, Option.some.injEq] at hy
    rw [← hy, hp]
    rfl
  · trivial

/-! Each step is put together from the following moves. -/

theorem frame (hi : Exclusive cfg w) (hs : w'.redis.stream = w.redis.stream) (hl : w'.redis.lastId = w.redis.lastId)
    (hc : ∀ k, (w.redis.claims k).isSome → (w'.redis.claims k).isSome)
    (hr : ∀ k, w'.redis.released (.deadLetter k) = w.redis.released (.deadLetter k))
    (hh : w'.handlers = w.handlers) : Exclusive cfg w' where
  ids := by rw [hs]; exact hi.ids
  bound := by rw [hs, hl]; exact hi.bound
  keys := by rw [hs]; exact hi.keys
  claimed := by rw [hs]; exact fun e he => hc _ (hi.claimed e he)
  marked k hk := hc k (hi.marked k (hr k ▸ hk))
  live n x hx := by
    rw [hh] at hx
    obtain ⟨e, he, h1, h2, h3, h4⟩ := hi.live n x hx
    refine ⟨e, hs ▸ he, h1, h2, h3, ?_⟩
    revert h4
    cases x.phase <;> simp [PhaseOk, hr]
  alone := by rw [hh]; exact hi.alone
  refunded := by
    rw [hs]
    exact fun e he hk => hi.refunded e he (hr _ ▸ hk)

theorem drop (hi : Exclusive cfg w) (n : Nat) : Exclusive cfg (w.setHandler n none) := by
  have hsub : ∀ m y, Function.update w.handlers n none m = some y → w.handlers m = some y := by
    intro m y hy
    by_cases hm : m = n
    · subst hm; rw [Function.update_self] at hy; cases hy
    · rwa [Function.update_of_ne hm] at hy
  exact { hi with
    live := fun m y hy => hi.live m y (hsub m y hy)
    alone := fun m m' x y hx hy => hi.alone m m' x y (hsub m x hx) (hsub m' y hy) }

theorem add (hi : Exclusive cfg w) {n : Nat} {e : StreamEntry} {p : HandlerPhase} (he : e ∈ w.redis.stream)
    (hno : ∀ m y, w.handlers m = some y → m ≠ n → y.entry ≠ e.id) (hd : 1 ≤ e.delivered)
    (hp : PhaseOk cfg w.redis e p) : Exclusive cfg (w.setHandler n (some ⟨e.id, e.intent, p⟩)) := by
  have hcase : ∀ m y, Function.update w.handlers n (some ⟨e.id, e.intent, p⟩) m = some y →
      (m = n ∧ y = ⟨e.id, e.intent, p⟩) ∨ (m ≠ n ∧ w.handlers m = some y) := by
    intro m y hy
    by_cases hm : m = n
    · subst hm
      rw [Function.update_self, Option.some.injEq] at hy
      exact .inl ⟨rfl, hy.symm⟩
    · rw [Function.update_of_ne hm] at hy
      exact .inr ⟨hm, hy⟩
  refine { hi with live := ?_, alone := ?_ }
  · intro m y hy
    rcases hcase m y hy with ⟨rfl, rfl⟩ | ⟨-, hy⟩
    · exact ⟨e, he, rfl, rfl, hd, hp⟩
    · exact hi.live m y hy
  · intro m m' x y hx hy hxy
    rcases hcase m x hx with ⟨rfl, rfl⟩ | ⟨hm, hx'⟩ <;> rcases hcase m' y hy with ⟨rfl, rfl⟩ | ⟨hm', hy'⟩
    · rfl
    · exact absurd hxy.symm (hno m' y hy' hm')
    · exact absurd hxy (hno m x hx' hm)
    · exact hi.alone m m' x y hx' hy' hxy

/-- The handler in slot `n` moves to another phase that fits its entry. -/
theorem move (hi : Exclusive cfg w) {n : Nat} {x : Handler} (hx : w.handlers n = some x) {p : HandlerPhase}
    (hp : ∀ e ∈ w.redis.stream, e.id = x.entry → e.intent = x.intent → PhaseOk cfg w.redis e x.phase →
      PhaseOk cfg w.redis e p) : Exclusive cfg (w.setHandler n (some { x with phase := p })) := by
  obtain ⟨e, he, hid, hint, hd, hphase⟩ := hi.live n x hx
  have hadd := hi.add (n := n) he (p := p) ?_ hd (hp e he hid hint hphase)
  · rwa [hid, hint] at hadd
  · intro m y hy hm hEq
    exact hm (hi.alone m n y x hy hx (hEq.trans hid))

/-- An entry that no process works on is delivered once more. -/
theorem redeliver (hi : Exclusive cfg w) {id : StreamId} (hno : ∀ m y, w.handlers m = some y → y.entry ≠ id) :
    Exclusive cfg { w with redis := w.redis.deliver id } := by
  have hmem : ∀ e', e' ∈ (w.redis.deliver id).stream ↔ ∃ e ∈ w.redis.stream,
      e' = if e.id = id then { e with delivered := e.delivered + 1 } else e := by
    intro e'
    simp only [Redis.deliver, List.mem_map, eq_comm]
  have hsame : ∀ e : StreamEntry, (if e.id = id then { e with delivered := e.delivered + 1 } else e).id = e.id ∧
      (if e.id = id then { e with delivered := e.delivered + 1 } else e).intent = e.intent ∧
      e.delivered ≤ (if e.id = id then { e with delivered := e.delivered + 1 } else e).delivered := by
    intro e
    split
    · exact ⟨rfl, rfl, Nat.le_succ _⟩
    · exact ⟨rfl, rfl, le_refl _⟩
  constructor
  · have hmap : (w.redis.deliver id).stream.map StreamEntry.id = w.redis.stream.map StreamEntry.id := by
      simp only [Redis.deliver, List.map_map]
      exact List.map_congr_left fun e _ => (hsame e).1
    show ((w.redis.deliver id).stream.map StreamEntry.id).Nodup
    rw [hmap]
    exact hi.ids
  · intro e' he'
    obtain ⟨e, he, rfl⟩ := (hmem e').1 he'
    rw [(hsame e).1]
    exact hi.bound e he
  · have hmap : ((w.redis.deliver id).stream.map fun e => e.intent.key) =
        w.redis.stream.map fun e => e.intent.key := by
      simp only [Redis.deliver, List.map_map]
      exact List.map_congr_left fun e _ => by simp only [Function.comp_apply, (hsame e).2.1]
    show ((w.redis.deliver id).stream.map fun e => e.intent.key).Nodup
    rw [hmap]
    exact hi.keys
  · intro e' he'
    obtain ⟨e, he, rfl⟩ := (hmem e').1 he'
    rw [(hsame e).2.1]
    exact hi.claimed e he
  · exact hi.marked
  · intro n x hx
    obtain ⟨e, he, h1, h2, h3, h4⟩ := hi.live n x hx
    have hne : e.id ≠ id := fun h => hno n x hx (h1 ▸ h)
    exact ⟨e, (hmem e).2 ⟨e, he, by rw [if_neg hne]⟩, h1, h2, h3, h4⟩
  · exact hi.alone
  · intro e' he' hk
    obtain ⟨e, he, rfl⟩ := (hmem e').1 he'
    have hle := (hsame e).2.2
    rw [(hsame e).2.1] at hk
    have := hi.refunded e he hk
    omega

/-- An entry that no process works on is removed. -/
theorem remove (hi : Exclusive cfg w) {id : StreamId} (hno : ∀ m y, w.handlers m = some y → y.entry ≠ id) :
    Exclusive cfg { w with redis := w.redis.ackAndRemove id } := by
  have hsub : (w.redis.ackAndRemove id).stream.Sublist w.redis.stream := List.filter_sublist
  refine { hi with ids := ?_, bound := ?_, keys := ?_, claimed := ?_, live := ?_, refunded := ?_ }
  · exact (hsub.map _).nodup hi.ids
  · exact fun e he => hi.bound e (hsub.subset he)
  · exact (hsub.map _).nodup hi.keys
  · exact fun e he => hi.claimed e (hsub.subset he)
  · intro n x hx
    obtain ⟨e, he, h1, h2, h3, h4⟩ := hi.live n x hx
    have hne : e.id ≠ id := fun h => hno n x hx (h1 ▸ h)
    exact ⟨e, List.mem_filter.2 ⟨he, by simpa using hne⟩, h1, h2, h3, h4⟩
  · exact fun e he => hi.refunded e (hsub.subset he)

/-- An accepted intent joins the stream. -/
theorem enqueue (hi : Exclusive cfg w) {i : Intent} (hfresh : w.redis.claims i.key = none)
    (hs : w'.redis.stream = w.redis.stream ++ [⟨w.redis.lastId + 1, i, 0⟩])
    (hl : w'.redis.lastId = w.redis.lastId + 1)
    (hc : w'.redis.claims = Function.update w.redis.claims i.key (some .pending))
    (hr : w'.redis.released = w.redis.released) (hh : w'.handlers = w.handlers) : Exclusive cfg w' := by
  have hclaims : ∀ k, (w.redis.claims k).isSome → (w'.redis.claims k).isSome := by
    intro k hk
    have hne : k ≠ i.key := fun h => by rw [h, hfresh] at hk; cases hk
    rwa [hc, Function.update_of_ne hne]
  have hnew : ∀ e ∈ w.redis.stream, e.intent.key ≠ i.key := by
    intro e he h
    have := hi.claimed e he
    rw [h, hfresh] at this
    cases this
  constructor
  · rw [hs, List.map_append]
    refine List.nodup_append.2 ⟨hi.ids, List.nodup_singleton _, ?_⟩
    rintro a ha b hb
    obtain ⟨e, he, rfl⟩ := List.mem_map.1 ha
    rw [List.map_singleton, List.mem_singleton] at hb
    subst hb
    exact Nat.ne_of_lt (Nat.lt_succ_of_le (hi.bound e he))
  · rw [hs, hl]
    intro e he
    rcases List.mem_append.1 he with he | he
    · exact (hi.bound e he).trans (Nat.le_succ _)
    · rw [List.mem_singleton.1 he]
  · rw [hs, List.map_append]
    refine List.nodup_append.2 ⟨hi.keys, List.nodup_singleton _, ?_⟩
    rintro a ha b hb rfl
    obtain ⟨e, he, rfl⟩ := List.mem_map.1 ha
    exact hnew e he (by simpa using hb)
  · rw [hs]
    intro e he
    rcases List.mem_append.1 he with he | he
    · exact hclaims _ (hi.claimed e he)
    · rw [List.mem_singleton.1 he, hc, Function.update_self]
      rfl
  · intro k hk
    rw [hr] at hk
    exact hclaims k (hi.marked k hk)
  · intro n x hx
    rw [hh] at hx
    obtain ⟨e, he, h1, h2, h3, h4⟩ := hi.live n x hx
    refine ⟨e, by rw [hs]; exact List.mem_append_left _ he, h1, h2, h3, ?_⟩
    revert h4
    cases x.phase <;> simp [PhaseOk, hr]
  · rw [hh]; exact hi.alone
  · rw [hs, hr]
    intro e he hk
    rcases List.mem_append.1 he with he | he
    · exact hi.refunded e he hk
    · rw [List.mem_singleton.1 he] at hk
      have := hi.marked _ hk
      rw [hfresh] at this
      cases this

/-- The intent of an exhausted entry is refunded. -/
theorem refund (hi : Exclusive cfg w) {n : Nat} {x : Handler} (hx : w.handlers n = some x)
    (hp : x.phase = .parked false) (hs : w'.redis.stream = w.redis.stream) (hl : w'.redis.lastId = w.redis.lastId)
    (hc : w'.redis.claims = w.redis.claims)
    (hr : w'.redis.released = Function.update w.redis.released (.deadLetter x.intent.key) true)
    (hh : w'.handlers = w.handlers) : Exclusive cfg w' := by
  obtain ⟨e, he, hid, hint, hd, hmax⟩ := hi.live n x hx
  rw [hp] at hmax
  have hrel : ∀ k, k ≠ x.intent.key →
      w'.redis.released (.deadLetter k) = w.redis.released (.deadLetter k) := by
    intro k hk
    rw [hr, Function.update_of_ne (by simpa using hk)]
  constructor
  · rw [hs]; exact hi.ids
  · rw [hs, hl]; exact hi.bound
  · rw [hs]; exact hi.keys
  · rw [hs, hc]; exact hi.claimed
  · intro k hk
    rw [hc]
    by_cases h : k = x.intent.key
    · rw [h, ← hint]
      exact hi.claimed e he
    · exact hi.marked k (hrel k h ▸ hk)
  · intro m y hy
    rw [hh] at hy
    obtain ⟨e', he', h1, h2, h3, h4⟩ := hi.live m y hy
    refine ⟨e', hs ▸ he', h1, h2, h3, ?_⟩
    by_cases hm : m = n
    · subst hm
      rw [hx, Option.some.injEq] at hy
      subst hy
      rw [hp] at h4 ⊢
      exact h4
    · -- another handler works on another key
      have hk : e'.intent.key ≠ x.intent.key := fun h => hm (hi.eq_of_intent_key hy hx (by rw [← h2, h]))
      revert h4
      cases y.phase <;> simp [PhaseOk, hrel _ hk]
  · rw [hh]; exact hi.alone
  · rw [hs]
    intro e' he' hk'
    by_cases h : e'.intent.key = x.intent.key
    · obtain rfl := hi.eq_of_key he' he (by rw [h, hint])
      exact ⟨hd, hmax⟩
    · exact hi.refunded e' he' (hrel _ h ▸ hk')

/-- A reclaim pass claims the entry it listed, on which nobody else works. -/
private theorem claim {n times : Nat} {x : Handler} (hi : Exclusive cfg w) (hx : w.handlers n = some x)
    (hp : x.phase = .listed times)
    (hothers : ∀ m y, (w.setHandler n none).handlers m = some y → y.entry ≠ x.entry) :
    Exclusive cfg
      { w.setHandler n
          (some { x with phase := if cfg.orderMaxDeliveries ≤ times then .exhausted else .delivered }) with
        redis := w.redis.deliver x.entry } := by
  obtain ⟨e, he, hid, hint, hd, hphase⟩ := hi.live n x hx
  rw [hp] at hphase
  have hdel := (hi.drop n).redeliver hothers
  have hmem : { e with delivered := e.delivered + 1 } ∈ (w.redis.deliver x.entry).stream :=
    List.mem_map.2 ⟨e, he, by rw [if_pos hid]⟩
  have hadd := hdel.add (n := n) (p := if cfg.orderMaxDeliveries ≤ times then .exhausted else .delivered) hmem
    (fun m y hy _ => hid ▸ hothers m y hy) (Nat.le_add_left ..) ?_
  · simp only [World.setHandler, Function.update_idem] at hadd
    simpa only [World.setHandler, hid, hint] using hadd
  · -- below the limit the entry was never refunded
    split
    · rename_i hle
      show cfg.orderMaxDeliveries ≤ e.delivered + 1
      rw [hphase]
      omega
    · rename_i hlt
      show w.redis.released (.deadLetter e.intent.key) = false
      by_contra hrel
      have := (hi.refunded e he (by simpa using hrel)).2
      rw [hphase] at this
      exact hlt this

private theorem settle {a : SettleAct} (hi : Exclusive cfg w) (hC : OneHandler w (.settle a))
    (h : stepSettle cfg w a = some w') :
    Exclusive cfg w' := by
  -- no other process works on the entry of a handler
  have hothers : ∀ {n x}, w.handlers n = some x → ∀ m y, (w.setHandler n none).handlers m = some y →
      y.entry ≠ x.entry := by
    intro n x hx m y hy hEq
    by_cases hm : m = n
    · subst hm
      simp [World.setHandler] at hy
    · simp only [World.setHandler, Function.update_of_ne hm] at hy
      exact hm (hi.alone m n y x hy hx hEq)
  cases stepSettle_move h with
  | @deliver n id e he hnew =>
    obtain ⟨hmem, hid⟩ := Redis.mem_of_entry he
    have hdel := hi.redeliver hC
    have hmem' : { e with delivered := e.delivered + 1 } ∈ (w.redis.deliver id).stream :=
      List.mem_map.2 ⟨e, hmem, by rw [if_pos hid]⟩
    have hadd := hdel.add (n := n) (p := .delivered) hmem' (fun m y hy _ => hid ▸ hC m y hy)
      (Nat.le_add_left ..) ?_
    · simpa only [World.setHandler, hid] using hadd
    · show w.redis.released (.deadLetter e.intent.key) = false
      by_contra hrel
      have := (hi.refunded e hmem (by simpa using hrel)).1
      omega
  | @list n id e he hpending =>
    obtain ⟨hmem, hid⟩ := Redis.mem_of_entry he
    have hadd := hi.add (n := n) (p := .listed e.delivered) hmem (fun m y hy _ => hid ▸ hC m y hy) hpending rfl
    rwa [hid] at hadd
  | claimGone hx hp hgone => exact hi.drop _
  | claim hx hp he => exact hi.claim hx hp (hothers hx)
  | persist hx hp hcons hdb =>
    exact (hi.move hx (p := .settled) fun _ _ _ _ _ => trivial).frame rfl rfl (fun _ h => h) (fun _ => rfl) rfl
  | reject hx hp hcons hdb =>
    refine hi.move hx fun e _ _ _ hph => ?_
    rw [hp] at hph
    exact hph
  | inconsistent hx hp hcons => exact hi.drop _
  | duplicate hx hp hkey => exact hi.move hx fun _ _ _ _ _ => trivial
  | unresolved hx hp hkey => exact hi.drop _
  | check hx hp =>
    refine hi.move hx fun e _ _ _ hph => ?_
    rw [hp] at hph
    exact hph
  | @park n already x hx hp =>
    refine (hi.move hx (p := .parked already) fun e _ _ _ hph => ?_).frame rfl rfl (fun _ h => h) (fun _ => rfl) rfl
    rw [hp] at hph
    exact hph
  | keep hx hp =>
    refine hi.move hx fun e _ _ _ hph => ?_
    rw [hp] at hph
    exact hph
  | @refund n x w₁ hx hp hw₁ =>
    have hmove : ∀ w₁ : World, Exclusive cfg w₁ → w₁.handlers n = some x →
        Exclusive cfg (w₁.setHandler n (some { x with phase := .refunded })) := by
      intro w₁ hi₁ hx₁
      refine hi₁.move hx₁ fun e _ _ _ hph => ?_
      rw [hp] at hph
      exact hph
    rcases World.refund_cases hw₁ with ⟨-, -, rfl⟩ | ⟨seat, zone, -, -, -, rfl⟩ | rfl
    · exact hmove _ (hi.refund hx hp rfl rfl rfl rfl rfl) hx
    · exact hmove _ (hi.refund hx hp rfl rfl rfl rfl rfl) hx
    · exact hmove _ hi hx
  | refundFails hx hp hnone => exact hi.drop _
  | @markFailed n x hx hp =>
    exact (hi.move hx (p := .settled) fun _ _ _ _ _ => trivial).frame rfl rfl
      (Redis.Quiet.setClaim w.redis x.intent.key .failed).claims (fun _ => rfl) rfl
  | ack hx hp => exact (hi.drop _).remove (hothers hx)
  | stop hx => exact hi.drop _

theorem step {a : Act} (hi : Exclusive cfg w) (hC : OneHandler w a) (h : Ticketing.step cfg w a = some w') :
    Exclusive cfg w' := by
  cases a with
  | intake a =>
    rcases stepIntake_cases h with ⟨b, hok, rfl⟩ | ⟨c, call, b, -, hok, rfl⟩ | ⟨zones, calls, -, -, rfl⟩
    · exact hi.enqueue hok.fresh rfl rfl rfl rfl rfl
    · exact hi.enqueue hok.fresh rfl rfl rfl rfl rfl
    · exact hi.frame rfl rfl (fun _ h => h) (fun _ => rfl) rfl
  | settle a => exact hi.settle hC h
  | transition id new now =>
    obtain ⟨db, hdb, rfl⟩ := Option.map_eq_some_iff.1 h
    exact hi.frame rfl rfl (fun _ h => h) (fun _ => rfl) rfl
  | release a =>
    rcases stepRelease_cases h with ⟨n, x, hold, -, -, rfl⟩ | ⟨n, x, -, -, -, -, rfl⟩ |
      ⟨n, x, hold, zone, -, -, -, -, rfl⟩ | ⟨outbox, releases, -, -, rfl⟩
    · exact hi.frame rfl rfl (fun _ h => h) (fun _ => rfl) rfl
    · exact hi.frame rfl rfl (fun _ h => h) (fun k => update_order_deadLetter _ x.order.id k) rfl
    · exact hi.frame rfl rfl (fun _ h => h) (fun k => update_order_deadLetter _ x.order.id k) rfl
    · exact hi.frame rfl rfl (fun _ h => h) (fun _ => rfl) rfl
  | reconcile a =>
    rcases stepReconcile_cases h with ⟨n, job, remaining, owing, -, -, -, rfl⟩ | ⟨n, job, rows, -, -, rfl⟩ |
      ⟨reconciles, -, rfl⟩ <;>
      exact hi.frame rfl rfl (fun _ h => h) (fun _ => rfl) rfl
  | rebuild a =>
    rcases stepRebuild_cases h with ⟨n, job, blocks, held, -, -, -, rfl⟩ | ⟨rebuilds, -, rfl⟩ <;>
      exact hi.frame rfl rfl (fun _ h => h) (fun _ => rfl) rfl
  | lose event =>
    obtain rfl := Option.some.inj h
    exact hi.frame rfl rfl (fun _ h => h) (fun _ => rfl) rfl

end Exclusive

/-- With one handler for each entry, every commit is safe. -/
theorem commitSafe_of_oneHandler {cfg : Settings} {w₀ : World} {acts : List Act} (hstart : w₀.Start)
    (hone : Along (step cfg) OneHandler w₀ acts) : Along (step cfg) CommitSafe w₀ acts :=
  Along.of_invariant (I := Exclusive cfg) (fun _ _ _ hC hs hi => hi.step hC hs) (fun _ a hi _ => hi.commitSafe a)
    (Exclusive.start hstart) hone

end Ticketing
