import Ticketing.DriftAlarms

/-!
# The pipeline can always be drained

Safety says what the counters are while intents and releases are on their way; this module says that they arrive.
From every state that a run of a general-admission event reaches, whatever processes have died in it, the workers
(the consumer, the reclaim passes and the outbox relay) have a run that settles every queued intent of the event
and carries out every release it owes, however the database answers each insertion; the counters are then what the
database says has been sold.  A row whose attempts are used up is never claimed again, so such a row is first driven
again by hand, as its alert asks for; nothing else is.  No claim and no marker expires in these runs.
-/

namespace Ticketing

open Exec Tally

/-! ### The steps of releases -/

/-- The steps of the releases, each with what it checked. -/
inductive ReleaseMove (w : World) : ReleaseAct → World → Prop
  | start {n : Nat} {id : OrderId} {o : Order} (ho : w.db.orderById id = some o) (hst : o.status.held = false) :
      ReleaseMove w (.start n id) (w.setRelease n (some ⟨o, none, .begun⟩))
  | claimRow {n : Nat} {e : OutboxEntry} {o : Order} (he : e ∈ w.db.outbox) (hnew : e.processed = false)
      (ho : w.db.orderById e.order = some o) :
      ReleaseMove w (.claimRow n e.id)
        { w.setRelease n (some ⟨o, some e.id, .begun⟩) with db := w.db.claimOutbox e.id }
  /-- A row without its order. -/
  | orphan {n : Nat} {e : OutboxEntry} (he : e ∈ w.db.outbox) (hno : w.db.orderById e.order = none) :
      ReleaseMove w (.claimRow n e.id) { w with db := (w.db.claimOutbox e.id).markProcessed e.id }
  | redrive {row : OutboxId} : ReleaseMove w (.redrive row) { w with db := w.db.redriveOutbox row }
  | returned {n : Nat} {x : Release} (hx : w.releases n = some x) (hz : x.order.zone = none)
      (hrel : w.redis.released (.order x.order.id) = false) :
      ReleaseMove w (.releaseQuantity n) { w.setRelease n (some { x with phase := .finished }) with
        redis := w.redis.putBack x.order.releaseArgs, returned := w.returned ++ [.quantity x.order.releaseArgs] }
  | again {n : Nat} {x : Release} (hx : w.releases n = some x) (hz : x.order.zone = none)
      (hrel : w.redis.released (.order x.order.id) = true) :
      ReleaseMove w (.releaseQuantity n) (w.setRelease n (some { x with phase := .finished }))
  /-- The steps of a seated order. -/
  | seated {a : ReleaseAct} {n : Nat} {x : Release} {w' : World} (hx : w.releases n = some x)
      (hz : x.order.zone ≠ none)
      (hout : w'.db.outbox = w.db.outbox) (horders : w'.db.orders = w.db.orders) (hlog : w'.log = w.log)
      (hreleases : ∃ y : Option Release, (∀ z ∈ y, z.order = x.order ∧ z.row = x.row) ∧
        w'.releases = Function.update w.releases n y)
      (hrel : ∀ k, w.redis.released k = true → w'.redis.released k = true) : ReleaseMove w a w'
  | markProcessed {n : Nat} {x : Release} {row : OutboxId} (hx : w.releases n = some x) (hp : x.phase = .finished)
      (hrow : x.row = some row) :
      ReleaseMove w (.markProcessed n) { w.setRelease n none with db := w.db.markProcessed row }
  | stop {n : Nat} : ReleaseMove w (.stop n) (w.setRelease n none)

theorem stepRelease_move {w w' : World} {a : ReleaseAct} (hl : w.Linked) (h : stepRelease w a = some w') :
    ReleaseMove w a w' := by
  have hzone : ∀ n x hold, w.releases n = some x → x.carries hold → x.order.zone ≠ none := by
    intro n x hold hx hc hz
    rw [(hl.carried n x hold hx hc).zone] at hz
    cases hz
  cases a with
  | start n id =>
    obtain ⟨o, ho, h⟩ := Option.bind_eq_some_iff.1 h
    split at h
    · rename_i hg
      obtain rfl := Option.some.inj h
      exact .start ho hg.2
    · cases h
  | claimRow n row =>
    obtain ⟨e, he, h⟩ := Option.bind_eq_some_iff.1 h
    have hmem := List.mem_of_find?_eq_some he
    obtain rfl : e.id = row := by simpa using List.find?_some he
    split at h
    · rename_i hg
      split at h
      · rename_i hno
        obtain rfl := Option.some.inj h
        exact .orphan hmem hno
      · rename_i o ho
        obtain rfl := Option.some.inj h
        exact .claimRow hmem hg.2.1 ho
    · cases h
  | redrive row =>
    obtain rfl := Option.some.inj h
    exact .redrive
  | releaseQuantity n =>
    obtain ⟨x, hx, h⟩ := Option.bind_eq_some_iff.1 h
    split at h
    · rename_i hg
      rcases w.releaseQuantity_cases x.order.releaseArgs with ⟨hrel, heq⟩ | ⟨hrel, heq⟩ <;> rw [heq] at h <;>
        obtain rfl := Option.some.inj h
      · exact .returned hx hg.2 hrel
      · exact .again hx hg.2 hrel
    · cases h
  | readHold n =>
    obtain ⟨x, hx, h⟩ := Option.bind_eq_some_iff.1 h
    split at h
    · rename_i hg
      split at h <;> obtain rfl := Option.some.inj h <;>
        refine .seated hx hg.2 rfl rfl rfl ⟨_, ?_, rfl⟩ (fun _ hk => hk) <;> rintro z ⟨⟩ <;> exact ⟨rfl, rfl⟩
    · cases h
  | deleteHold n =>
    obtain ⟨x, hx, h⟩ := Option.bind_eq_some_iff.1 h
    split at h
    · rename_i hold hp
      obtain rfl := Option.some.inj h
      refine .seated hx (hzone n x hold hx (.inl hp)) rfl rfl rfl ⟨_, ?_, rfl⟩ (fun _ hk => hk)
      rintro z ⟨⟩
      exact ⟨rfl, rfl⟩
    · cases h
  | releaseSeats n =>
    have hstep : step {} w (.release (.releaseSeats n)) = some w' := h
    have hkept := (tablesKept_step hstep).released
    obtain ⟨x, hx, h⟩ := Option.bind_eq_some_iff.1 h
    split at h
    · rename_i hold zone hp hz
      have hsome : x.order.zone ≠ none := by simp [hz]
      split at h
      · rename_i w₁ hw₁
        obtain rfl := Option.some.inj h
        rcases World.releaseSeats_cases hw₁ with ⟨-, rfl⟩ | ⟨-, rfl⟩ <;>
          refine .seated hx hsome rfl rfl rfl ⟨_, ?_, rfl⟩ hkept <;> rintro z ⟨⟩ <;> exact ⟨rfl, rfl⟩
      · obtain rfl := Option.some.inj h
        exact .seated hx hsome rfl rfl rfl ⟨none, by simp, rfl⟩ hkept
    · cases h
  | markProcessed n =>
    obtain ⟨x, hx, h⟩ := Option.bind_eq_some_iff.1 h
    split at h
    · rename_i row hp hrow
      obtain rfl := Option.some.inj h
      exact .markProcessed hx hp hrow
    · cases h
  | stop n =>
    obtain rfl := Option.some.inj h
    exact .stop

/-! ### Intents are kept until they are settled -/

section Invariants

variable {cfg : Settings} {w w' : World} {event : EventId}

/-- What is settled stays settled. -/
theorem unsettled_step {a : Act} (h : Ticketing.step cfg w a = some w') {i : Intent} (hi : w.unsettled i = false) :
    w'.unsettled i = false := by
  simp only [World.unsettled, Bool.and_eq_false_iff, Bool.not_eq_false'] at hi ⊢
  exact hi.imp (hasKey_step h) ((tablesKept_step h).released _)

/-- What the phase of a handler says about its intent. -/
def Handler.Truthful (w : World) (x : Handler) : Prop :=
  match x.phase with
  | .settled | .refunded => w.unsettled x.intent = false
  | .checked true | .parked true => w.db.hasKey x.intent.key = true
  | _ => True

/-- The intents and orders of a general-admission event; an intent that is not settled is in the stream. -/
structure Queued (event : EventId) (w : World) : Prop where
  seat : ∀ i ∈ w.log, i.event = event → i.seat = none
  zone : ∀ o ∈ w.db.orders, o.event = event → o.zone = none
  queued : ∀ i ∈ w.log, i.event = event → w.unsettled i = true → ∃ e ∈ w.redis.stream, e.intent = i
  truthful : ∀ n x, w.handlers n = some x → x.intent.event = event → x.Truthful w

theorem Handler.Truthful.keep {a : Act} (h : Ticketing.step cfg w a = some w') {x : Handler} (hx : x.Truthful w) :
    x.Truthful w' := by
  unfold Handler.Truthful at hx ⊢
  split at hx
  · exact unsettled_step h hx
  · exact unsettled_step h hx
  · exact hasKey_step h hx
  · exact hasKey_step h hx
  · trivial

/-- The handlers after a step of the handler in slot `n`. -/
private theorem truthful_update {a : Act} (hq : Queued event w) (h : Ticketing.step cfg w a = some w') {n : Nat}
    {y : Option Handler} (hhandlers : w'.handlers = Function.update w.handlers n y)
    (hy : ∀ z ∈ y, z.intent.event = event → z.Truthful w') :
    ∀ m z, w'.handlers m = some z → z.intent.event = event → z.Truthful w' := by
  intro m z hz hev
  rw [hhandlers] at hz
  by_cases hm : m = n
  · subst hm
    rw [Function.update_self] at hz
    exact hy z hz hev
  · rw [Function.update_of_ne hm] at hz
    exact (hq.truthful m z hz hev).keep h

/-- The entries of the stream after a delivery. -/
private theorem exists_deliver {id : StreamId} {i : Intent} (h : ∃ e ∈ w.redis.stream, e.intent = i) :
    ∃ e ∈ (w.redis.deliver id).stream, e.intent = i := by
  obtain ⟨e, he, rfl⟩ := h
  refine ⟨_, List.mem_map_of_mem he, ?_⟩
  split <;> rfl

private theorem Queued.settle {a : SettleAct} (hq : Queued event w) (hl : w.Linked) (hx : Exclusive cfg w)
    (h : Ticketing.step cfg w (.settle a) = some w') : Queued event w' := by
  have hlog : w'.log = w.log := (recordsKept_step h).log (by simp)
  -- all that is to show is what happens to the stream, the orders and the handler
  suffices hparts : (∀ o ∈ w'.db.orders, o.event = event → o.zone = none) ∧
      (∀ i ∈ w.log, i.event = event → w'.unsettled i = true → (∃ e ∈ w.redis.stream, e.intent = i) →
        ∃ e ∈ w'.redis.stream, e.intent = i) ∧
      ∃ n y, w'.handlers = Function.update w.handlers n y ∧ ∀ z ∈ y, z.intent.event = event → z.Truthful w' by
    obtain ⟨hzone, hstream, n, y, hhandlers, hy⟩ := hparts
    refine ⟨fun i hi => hq.seat i (hlog ▸ hi), hzone, fun i hi hev hun => ?_, truthful_update hq h hhandlers hy⟩
    rw [hlog] at hi
    refine hstream i hi hev hun (hq.queued i hi hev ?_)
    by_contra hno
    rw [unsettled_step h (by simpa using hno)] at hun
    cases hun
  have hmove : SettleMove cfg w a w' := stepSettle_move h
  cases hmove with
  | @deliver n id e he hnew =>
    refine ⟨hq.zone, fun i _ _ _ => exists_deliver, n, _, rfl, ?_⟩
    rintro z ⟨⟩ -
    trivial
  | @list n id e he hpending =>
    refine ⟨hq.zone, fun i _ _ _ hex => hex, n, _, rfl, ?_⟩
    rintro z ⟨⟩ -
    trivial
  | @claimGone n times x hslot hp hgone => exact ⟨hq.zone, fun i _ _ _ hex => hex, n, none, rfl, by simp⟩
  | @claim n times x e hslot hp he =>
    refine ⟨hq.zone, fun i _ _ _ => exists_deliver, n, _, rfl, ?_⟩
    rintro z ⟨⟩ -
    by_cases hmax : cfg.orderMaxDeliveries ≤ times <;> simp [Handler.Truthful, hmax]
  | @persist n id fk x db hslot hp hcons hdb =>
    refine ⟨?_, fun i _ _ _ hex => hex, n, _, rfl, ?_⟩
    · obtain ⟨-, -, rfl⟩ := insertIntent_eq_some hdb
      intro o ho hev
      rcases List.mem_append.1 ho with ho | ho
      · exact hq.zone o ho hev
      · -- the order of an intent without a seat has no zone
        obtain rfl := List.mem_singleton.1 ho
        have hseat := hq.seat x.intent (hl.handled n x hslot) hev
        simpa [Intent.consistent, Intent.order, hseat] using hcons
    · rintro z ⟨⟩ -
      simp [Handler.Truthful, World.unsettled, hasKey_insertIntent hdb]
  | @reject n id fk x hslot hp hcons hdb =>
    refine ⟨hq.zone, fun i _ _ _ hex => hex, n, _, rfl, ?_⟩
    rintro z ⟨⟩ -
    trivial
  | @inconsistent n id fk x hslot hp hcons => exact ⟨hq.zone, fun i _ _ _ hex => hex, n, none, rfl, by simp⟩
  | @duplicate n x hslot hp hkey =>
    refine ⟨hq.zone, fun i _ _ _ hex => hex, n, _, rfl, ?_⟩
    rintro z ⟨⟩ -
    simp [Handler.Truthful, World.unsettled, World.setHandler, hkey]
  | @unresolved n x hslot hp hkey => exact ⟨hq.zone, fun i _ _ _ hex => hex, n, none, rfl, by simp⟩
  | @check n x hslot hp =>
    refine ⟨hq.zone, fun i _ _ _ hex => hex, n, _, rfl, ?_⟩
    rintro z ⟨⟩ -
    cases hkey : w.db.hasKey x.intent.key
    · trivial
    · exact hkey
  | @park n already x hslot hp =>
    refine ⟨hq.zone, fun i _ _ _ hex => hex, n, _, rfl, ?_⟩
    rintro z ⟨⟩ hev
    have := hq.truthful n x hslot hev
    cases already
    · trivial
    · simp only [Handler.Truthful, hp] at this
      exact this
  | @keep n x hslot hp =>
    refine ⟨hq.zone, fun i _ _ _ hex => hex, n, _, rfl, ?_⟩
    rintro z ⟨⟩ hev
    have := hq.truthful n x hslot hev
    simp only [Handler.Truthful, hp] at this
    simp [Handler.Truthful, World.unsettled, World.setHandler, this]
  | @refund n x w₁ hslot hp hw₁ =>
    by_cases hev : x.intent.event = event
    · -- the quantity goes back now, or went back before
      have hseat := hq.seat x.intent (hl.handled n x hslot) hev
      have hrefund : w₁ = w.releaseQuantity x.intent.releaseArgs := by
        unfold World.refund at hw₁
        rw [hseat] at hw₁
        exact (Option.some.inj hw₁).symm
      rcases w.releaseQuantity_cases x.intent.releaseArgs with ⟨-, heq⟩ | ⟨hrel, heq⟩ <;>
        rw [hrefund, heq] <;> refine ⟨hq.zone, fun i _ _ _ hex => hex, n, _, rfl, ?_⟩ <;> rintro z ⟨⟩ -
      · simp [Handler.Truthful, World.unsettled, World.setHandler, Intent.releaseArgs]
      · have hrel' : w.redis.released (.deadLetter x.intent.key) = true := hrel
        simp [Handler.Truthful, World.unsettled, World.setHandler, hrel']
    · rcases World.refund_cases hw₁ with ⟨-, -, rfl⟩ | ⟨seat, zone, -, -, -, rfl⟩ | rfl <;>
        refine ⟨hq.zone, fun i _ _ _ hex => hex, n, _, rfl, ?_⟩ <;> rintro z ⟨⟩ hz <;> exact absurd hz hev
  | @refundFails n x hslot hp hnone => exact ⟨hq.zone, fun i _ _ _ hex => hex, n, none, rfl, by simp⟩
  | @markFailed n x hslot hp =>
    refine ⟨hq.zone, fun i _ _ _ hex => hex, n, _, rfl, ?_⟩
    rintro z ⟨⟩ hev
    have := hq.truthful n x hslot hev
    simp only [Handler.Truthful, hp] at this
    exact unsettled_step h this
  | @ack n x hslot hp =>
    refine ⟨hq.zone, fun i hi hev hun hex => ?_, n, none, rfl, by simp⟩
    -- the entry that goes is that of a settled intent
    obtain ⟨e, he, rfl⟩ := hex
    refine ⟨e, List.mem_filter.2 ⟨he, ?_⟩, rfl⟩
    rw [decide_eq_true_eq]
    intro hid
    obtain ⟨e', he', hid', hint, -⟩ := hx.live n x hslot
    obtain rfl := List.inj_on_of_nodup_map hx.ids he he' (hid.trans hid'.symm)
    have := hq.truthful n x hslot (by rw [← hint]; exact hev)
    simp only [Handler.Truthful, hp, ← hint] at this
    rw [unsettled_step h this] at hun
    cases hun
  | @stop n x hslot => exact ⟨hq.zone, fun i _ _ _ hex => hex, n, none, rfl, by simp⟩

theorem Queued.start {total : Int} (h : OnSale event total w) : Queued event w where
  seat := by simp [h.start.log]
  zone := by simp [h.unsold.orders]
  queued := by simp [h.start.log]
  truthful n x hx := by rw [h.start.handlers n] at hx; cases hx

theorem Queued.step {a : Act} (hq : Queued event w) (hl : w.Linked) (hx : Exclusive cfg w) (hu : Unseated event w)
    (h : Ticketing.step cfg w a = some w') : Queued event w' := by
  by_cases hsettle : ∃ b, a = .settle b
  · obtain ⟨b, rfl⟩ := hsettle
    exact hq.settle hl hx h
  have hkept := settlementKept_step (fun b hb => hsettle ⟨b, hb⟩) h
  have htruthful : ∀ n x, w'.handlers n = some x → x.intent.event = event → x.Truthful w' := by
    intro n x hslot hev
    rw [hkept.handlers] at hslot
    exact (hq.truthful n x hslot hev).keep h
  have hun : ∀ i, w'.unsettled i = w.unsettled i := by
    intro i
    unfold World.unsettled
    rw [hkept.hasKey, hkept.released]
  by_cases hintake : ∃ b, a = .intake b
  · obtain ⟨b, rfl⟩ := hintake
    -- an accepted intent for the event has no seat, and is queued
    have haccept : ∀ i : Intent, (i.event = event → i.seat = none) → w'.log = w.log ++ [i] → w'.db = w.db →
        w'.redis.stream = w.redis.stream ++ [⟨w.redis.lastId + 1, i, 0⟩] → Queued event w' := by
      intro i hseat hlog hdb hstream
      refine ⟨fun j hj hev => ?_, hdb ▸ hq.zone, fun j hj hev hj' => ?_, htruthful⟩
      · rw [hlog] at hj
        rcases List.mem_append.1 hj with hj | hj
        · exact hq.seat j hj hev
        · obtain rfl := List.mem_singleton.1 hj
          exact hseat hev
      · rw [hlog] at hj
        rw [hstream]
        rcases List.mem_append.1 hj with hj | hj
        · obtain ⟨e, he, hei⟩ := hq.queued j hj hev (hun j ▸ hj')
          exact ⟨e, List.mem_append_left _ he, hei⟩
        · obtain rfl := List.mem_singleton.1 hj
          exact ⟨_, List.mem_append_right _ (List.mem_singleton_self _), rfl⟩
    rcases stepIntake_cases h with ⟨b, -, hw'⟩ | ⟨c, call, b, hc, hok, hw'⟩ | ⟨zones, calls, -, -, hw'⟩
    · exact haccept b.intent (fun _ => rfl) (by rw [hw']) (by rw [hw']) (by rw [hw']; rfl)
    · refine haccept b.intent (fun hev => ?_) (by rw [hw']) (by rw [hw']; rfl) (by rw [hw']; rfl)
      exact absurd (hok.event ▸ hev) (hu.calls c call hc)
    · subst hw'
      exact ⟨hq.seat, hq.zone, hq.queued, hq.truthful⟩
  have hlog : w'.log = w.log := (recordsKept_step h).log fun b hb => hintake ⟨b, hb⟩
  have hstream : w'.redis.stream = w.redis.stream := by
    cases a with
    | intake b => exact absurd ⟨b, rfl⟩ hintake
    | settle b => exact absurd ⟨b, rfl⟩ hsettle
    | transition id new now =>
      obtain ⟨db, -, rfl⟩ := Option.map_eq_some_iff.1 h
      rfl
    | release b =>
      rcases stepRelease_cases h with ⟨n, x, hold, -, -, rfl⟩ | ⟨n, x, -, -, -, -, rfl⟩ |
        ⟨n, x, hold, zone, -, -, -, -, rfl⟩ | ⟨outbox, releases, -, -, rfl⟩ <;> rfl
    | reconcile b =>
      rcases stepReconcile_cases h with ⟨n, job, remaining, owing, -, -, -, rfl⟩ | ⟨n, job, rows, -, -, rfl⟩ |
        ⟨reconciles, -, rfl⟩ <;> rfl
    | rebuild b =>
      rcases stepRebuild_cases h with ⟨n, job, blocks, held, -, -, -, rfl⟩ | ⟨rebuilds, -, rfl⟩ <;> rfl
    | lose e =>
      obtain rfl := Option.some.inj h
      rfl
  have hzone : ∀ o ∈ w'.db.orders, o.event = event → o.zone = none := by
    by_cases htrans : ∃ id new now, a = .transition id new now
    · obtain ⟨id, new, now, rfl⟩ := htrans
      obtain ⟨db, hdb, rfl⟩ := Option.map_eq_some_iff.1 h
      intro o ho hev
      obtain ⟨o₀, ho₀, hs, -⟩ := Db.of_mem_orders_transition hdb ho
      rw [hs.zone]
      exact hq.zone o₀ ho₀ (hs.event.symm.trans hev)
    · rw [(tablesKept_step h).orders (fun n id fk ha => hsettle ⟨_, ha⟩) fun id new now ha =>
        htrans ⟨id, new, now, ha⟩]
      exact hq.zone
  exact ⟨hlog ▸ hq.seat, hzone, fun i hi hev hi' => hstream ▸ hq.queued i (hlog ▸ hi) hev (hun i ▸ hi'), htruthful⟩

/-! ### A release that is owed has a row -/

/-- The outbox rows of a general-admission event: a terminal order that was not released has a row to process. -/
structure Debts (event : EventId) (w : World) : Prop where
  ids : (w.db.outbox.map OutboxEntry.id).Nodup
  bound : ∀ e ∈ w.db.outbox, e.id < w.db.outbox.length
  row : ∀ n x row, w.releases n = some x → x.row = some row → ∃ e ∈ w.db.outbox, e.id = row ∧ e.order = x.order.id
  finished : ∀ n x, w.releases n = some x → x.order.event = event → x.phase = .finished →
    w.redis.released (.order x.order.id) = true
  owed : ∀ o ∈ w.db.orders, o.event = event → o.status.held = false → w.redis.released (.order o.id) = false →
    ∃ e ∈ w.db.outbox, e.order = o.id ∧ e.processed = false

namespace Debts

theorem start {total : Int} (h : OnSale event total w) : Debts event w where
  ids := by simp [h.unsold.outbox]
  bound := by simp [h.unsold.outbox]
  row n x row hx := by rw [h.start.releases n] at hx; cases hx
  finished n x hx := by rw [h.start.releases n] at hx; cases hx
  owed := by simp [h.unsold.orders]

/-- A step that leaves the outbox and the releases alone. -/
private theorem frame (hd : Debts event w) (hout : w'.db.outbox = w.db.outbox) (hreleases : w'.releases = w.releases)
    (hrel : ∀ k, w.redis.released k = true → w'.redis.released k = true)
    (horders : ∀ o ∈ w'.db.orders, o.status.held = false → o ∈ w.db.orders) : Debts event w' where
  ids := hout ▸ hd.ids
  bound := hout ▸ hd.bound
  row := by rw [hout, hreleases]; exact hd.row
  finished n x hx hev hp := hrel _ (hd.finished n x (hreleases ▸ hx) hev hp)
  owed o ho hev hst hno := by
    rw [hout]
    refine hd.owed o (horders o ho hst) hev hst ?_
    by_contra h
    rw [hrel _ (by simpa using h)] at hno
    cases hno

/-- A step of the release in slot `n`, which goes on as `y`. -/
private theorem move (hd : Debts event w) {n : Nat} {y : Option Release} (f : OutboxEntry → OutboxEntry)
    (horders : w'.db.orders = w.db.orders) (hout : w'.db.outbox = w.db.outbox.map f)
    (hf : ∀ e, (f e).id = e.id ∧ (f e).order = e.order) (hreleases : w'.releases = Function.update w.releases n y)
    (hrel : ∀ k, w.redis.released k = true → w'.redis.released k = true)
    (hmark : ∀ e ∈ w.db.outbox, ∀ o ∈ w.db.orders, o.event = event → e.order = o.id → e.processed = false →
      (f e).processed = true → w.redis.released (.order o.id) = true)
    (hrow : ∀ z ∈ y, ∀ row, z.row = some row → ∃ e ∈ w.db.outbox, e.id = row ∧ e.order = z.order.id)
    (hfin : ∀ z ∈ y, z.order.event = event → z.phase = .finished → w'.redis.released (.order z.order.id) = true) :
    Debts event w' := by
  have hcase : ∀ m z, w'.releases m = some z → z ∈ y ∨ w.releases m = some z := by
    intro m z hz
    rw [hreleases] at hz
    by_cases hm : m = n
    · subst hm
      rw [Function.update_self] at hz
      exact .inl hz
    · rw [Function.update_of_ne hm] at hz
      exact .inr hz
  refine ⟨?_, ?_, ?_, ?_, ?_⟩
  · have hsame : (w.db.outbox.map f).map OutboxEntry.id = w.db.outbox.map OutboxEntry.id := by
      rw [List.map_map]
      exact List.map_congr_left fun e _ => (hf e).1
    rw [hout, hsame]
    exact hd.ids
  · rw [hout]
    intro e' he'
    obtain ⟨e, he, rfl⟩ := List.mem_map.1 he'
    rw [(hf e).1, List.length_map]
    exact hd.bound e he
  · intro m z row hz hr
    have hold : ∃ e ∈ w.db.outbox, e.id = row ∧ e.order = z.order.id := by
      rcases hcase m z hz with hz | hz
      · exact hrow z hz row hr
      · exact hd.row m z row hz hr
    obtain ⟨e, he, hid, hord⟩ := hold
    rw [hout]
    exact ⟨f e, List.mem_map_of_mem he, (hf e).1.trans hid, (hf e).2.trans hord⟩
  · intro m z hz hev hp
    rcases hcase m z hz with hz | hz
    · exact hfin z hz hev hp
    · exact hrel _ (hd.finished m z hz hev hp)
  · intro o ho hev hst hno
    rw [horders] at ho
    have hno' : w.redis.released (.order o.id) = false := by
      by_contra h
      rw [hrel _ (by simpa using h)] at hno
      cases hno
    obtain ⟨e, he, hord, hp⟩ := hd.owed o ho hev hst hno'
    rw [hout]
    refine ⟨f e, List.mem_map_of_mem he, (hf e).2.trans hord, ?_⟩
    by_contra hmarked
    rw [hmark e he o ho hev hord hp (by simpa using hmarked)] at hno'
    cases hno'

/-- The event of the order that a release works on is that of an order of the database, which has no zone. -/
private theorem zone_eq_none (hq : Queued event w) (hl : w.Linked) {n : Nat} {x : Release}
    (hx : w.releases n = some x) (hev : x.order.event = event) : x.order.zone = none := by
  obtain ⟨o, ho, hs, -⟩ := hl.release n x hx
  rw [← hs.zone]
  exact hq.zone o ho (hs.event.trans hev)

private theorem release {a : ReleaseAct} (hd : Debts event w) (hq : Queued event w) (hl : w.Linked)
    (h : Ticketing.step cfg w (.release a) = some w') : Debts event w' := by
  have hmove : ReleaseMove w a w' := stepRelease_move hl h
  have hid : ∀ (g : OutboxEntry → OutboxEntry) (row : OutboxId), (∀ e, (g e).id = e.id ∧ (g e).order = e.order) →
      ∀ e : OutboxEntry, (if e.id = row then g e else e).id = e.id ∧
      (if e.id = row then g e else e).order = e.order := by
    intro g row hg e
    split
    · exact hg e
    · exact ⟨rfl, rfl⟩
  -- the rows stay unprocessed unless the step marks one
  have hunmarked : ∀ (g : OutboxEntry → OutboxEntry) (row : OutboxId), (∀ e, (g e).processed = e.processed) →
      ∀ e ∈ w.db.outbox, ∀ o ∈ w.db.orders, o.event = event → e.order = o.id → e.processed = false →
        (if e.id = row then g e else e).processed = true → w.redis.released (.order o.id) = true := by
    intro g row hg e _ o _ _ _ hp hp'
    split at hp'
    · rw [hg, hp] at hp'
      cases hp'
    · rw [hp] at hp'
      cases hp'
  have hkeep : ∀ e ∈ w.db.outbox, ∀ o ∈ w.db.orders, o.event = event → e.order = o.id → e.processed = false →
      (id e).processed = true → w.redis.released (.order o.id) = true := by
    intro e _ o _ _ _ hp hp'
    rw [id, hp] at hp'
    cases hp'
  cases hmove with
  | @start n order o ho hst =>
    refine hd.move (n := n) (y := some ⟨o, none, .begun⟩) id rfl (List.map_id _).symm (fun _ => ⟨rfl, rfl⟩) rfl
      (fun _ hk => hk) hkeep ?_ ?_
    · rintro z ⟨⟩ row hr
      cases hr
    · rintro z ⟨⟩ - hp
      cases hp
  | @claimRow n e o he hnew ho =>
    refine hd.move (n := n) (y := some ⟨o, some e.id, .begun⟩) _ rfl rfl (hid _ e.id fun _ => ⟨rfl, rfl⟩) rfl
      (fun _ hk => hk) (hunmarked _ e.id fun _ => rfl) ?_ ?_
    · rintro z ⟨⟩ row hr
      obtain rfl := Option.some.inj hr
      exact ⟨e, he, rfl, (orderById_eq_some ho).2.symm⟩
    · rintro z ⟨⟩ - hp
      cases hp
  | @orphan n e he hno =>
    -- every row has its order
    obtain ⟨o, ho, hord, -⟩ := hl.db.row e he
    exact absurd (List.find?_eq_none.1 hno o ho) (by simp [hord])
  | @redrive row =>
    refine hd.move (n := 0) (y := w.releases 0) _ rfl rfl (hid _ row fun _ => ⟨rfl, rfl⟩)
      (Function.update_eq_self _ _).symm (fun _ hk => hk) (hunmarked _ row fun _ => rfl) ?_ ?_
    · exact fun z hz row hr => hd.row 0 z row hz hr
    · exact fun z hz hev hp => hd.finished 0 z hz hev hp
  | @returned n x hx hz hrel =>
    refine hd.move (n := n) (y := some { x with phase := .finished }) id rfl (List.map_id _).symm
      (fun _ => ⟨rfl, rfl⟩) rfl
      (tablesKept_step h).released hkeep ?_ ?_
    · rintro z ⟨⟩ row hr
      exact hd.row n x row hx hr
    · rintro z ⟨⟩ - -
      exact Function.update_self ..
  | @again n x hx hz hrel =>
    refine hd.move (n := n) (y := some { x with phase := .finished }) id rfl (List.map_id _).symm
      (fun _ => ⟨rfl, rfl⟩) rfl
      (fun _ hk => hk) hkeep ?_ ?_
    · rintro z ⟨⟩ row hr
      exact hd.row n x row hx hr
    · rintro z ⟨⟩ - -
      exact hrel
  | @seated b n x w₁ hx hz hout horders hlog hreleases hrel =>
    obtain ⟨y, hy, hreleases⟩ := hreleases
    refine hd.move (n := n) (y := y) id horders (hout.trans (List.map_id _).symm) (fun _ => ⟨rfl, rfl⟩) hreleases
      hrel hkeep ?_ ?_
    · intro z hzy row hr
      rw [(hy z hzy).2] at hr
      rw [(hy z hzy).1]
      exact hd.row n x row hx hr
    · intro z hzy hev
      rw [(hy z hzy).1] at hev
      exact absurd (zone_eq_none hq hl hx hev) hz
  | @markProcessed n x row hx hp hrow =>
    refine hd.move (n := n) (y := none) _ rfl rfl (hid _ row fun _ => ⟨rfl, rfl⟩) rfl (fun _ hk => hk) ?_ (by simp)
      (by simp)
    intro e he o ho hev hord hp' hmarked
    by_cases heq : e.id = row
    · -- the row that is marked is the row of the finished release
      obtain ⟨e', he', hid', hord'⟩ := hd.row n x row hx hrow
      obtain rfl := List.inj_on_of_nodup_map hd.ids he he' (heq.trans hid'.symm)
      obtain ⟨o', ho', hs, -⟩ := hl.release n x hx
      obtain rfl := hl.db.order_unique ho ho' (hord.symm.trans (hord'.trans hs.id.symm))
      rw [hord.symm.trans hord']
      exact hd.finished n x hx (hs.event.symm.trans hev) hp
    · rw [if_neg heq, hp'] at hmarked
      cases hmarked
  | @stop n =>
    exact hd.move (n := n) (y := none) id rfl (List.map_id _).symm (fun _ => ⟨rfl, rfl⟩) rfl (fun _ hk => hk) hkeep
      (by simp) (by simp)

theorem step {a : Act} (hd : Debts event w) (hq : Queued event w) (hl : w.Linked)
    (h : Ticketing.step cfg w a = some w') : Debts event w' := by
  have hrel := (tablesKept_step h).released
  cases a with
  | release a => exact hd.release hq hl h
  | transition order new now =>
    obtain ⟨db, hdb, rfl⟩ := Option.map_eq_some_iff.1 h
    have hold : ∀ o ∈ db.orders, o.id ≠ order → o ∈ w.db.orders := by
      intro o ho hne
      obtain ⟨o₀, ho₀, hs, heq | ⟨hid, -⟩⟩ := Db.of_mem_orders_transition hdb ho
      · exact heq ▸ ho₀
      · exact absurd (hs.id.trans hid) hne
    obtain ⟨o₁, ho₁, hv, rfl⟩ := transition_eq_some hdb
    cases hheld : new.held with
    | true =>
      refine hd.frame (by simp) rfl hrel fun o ho hst => hold o ho fun hid => ?_
      -- the order of the transition is held
      obtain ⟨o₀, -, rfl⟩ := List.mem_map.1 ho
      by_cases hcase : o₀.id = order
      · simp [hcase, hheld] at hst
      · rw [if_neg hcase] at hid
        exact hcase hid
    | false =>
      refine ⟨?_, ?_, ?_, hd.finished, ?_⟩
      · simp only [Bool.false_eq_true, if_false, List.map_append]
        refine List.nodup_append.2 ⟨hd.ids, List.nodup_singleton _, ?_⟩
        intro a ha b hb hab
        obtain ⟨e, he, rfl⟩ := List.mem_map.1 ha
        have hlt := hd.bound e he
        rw [hab, List.mem_singleton.1 hb] at hlt
        exact Nat.lt_irrefl _ hlt
      · simp only [Bool.false_eq_true, if_false, List.length_append, List.length_singleton]
        intro e he
        rcases List.mem_append.1 he with he | he
        · exact Nat.lt_succ_of_lt (hd.bound e he)
        · rw [List.mem_singleton.1 he]
          exact Nat.lt_succ_self _
      · intro n x row hx hr
        obtain ⟨e, he, hid, hord⟩ := hd.row n x row hx hr
        refine ⟨e, ?_, hid, hord⟩
        simp only [Bool.false_eq_true, if_false]
        exact List.mem_append_left _ he
      · intro o ho hev hst hno
        simp only [Bool.false_eq_true, if_false]
        by_cases hid : o.id = order
        · exact ⟨_, List.mem_append_right _ (List.mem_singleton_self _), hid.symm, rfl⟩
        · obtain ⟨e, he, hord, hp⟩ := hd.owed o (hold o ho hid) hev hst hno
          exact ⟨e, List.mem_append_left _ he, hord, hp⟩
  | intake a =>
    rcases stepIntake_cases h with ⟨b, -, rfl⟩ | ⟨c, call, b, -, -, rfl⟩ | ⟨zones, calls, -, -, rfl⟩ <;>
      exact hd.frame rfl rfl hrel fun o ho _ => ho
  | settle a =>
    rcases stepSettle_cases h with ⟨n, x, order, fk, db, -, -, -, -, hdb, rfl⟩ | ⟨n, x, w₁, -, -, hw₁, rfl⟩ |
      ⟨redis, handlers, hquiet, -, rfl⟩
    · obtain ⟨-, -, rfl⟩ := insertIntent_eq_some hdb
      refine hd.frame rfl rfl hrel fun o ho hst => ?_
      rcases List.mem_append.1 ho with ho | ho
      · exact ho
      · -- a new order is pending
        obtain rfl := List.mem_singleton.1 ho
        cases hst
    · rcases World.refund_cases hw₁ with ⟨-, -, rfl⟩ | ⟨seat, zone, -, -, -, rfl⟩ | rfl <;>
        exact hd.frame rfl rfl hrel fun o ho _ => ho
    · exact hd.frame rfl rfl hrel fun o ho _ => ho
  | reconcile a =>
    rcases stepReconcile_cases h with ⟨n, job, remaining, owing, -, -, -, rfl⟩ | ⟨n, job, rows, -, -, rfl⟩ |
      ⟨reconciles, -, rfl⟩ <;> exact hd.frame rfl rfl hrel fun o ho _ => ho
  | rebuild a =>
    rcases stepRebuild_cases h with ⟨n, job, blocks, held, -, -, -, rfl⟩ | ⟨rebuilds, -, rfl⟩ <;>
      exact hd.frame rfl rfl hrel fun o ho _ => ho
  | lose e =>
    obtain rfl := Option.some.inj h
    exact hd.frame rfl rfl hrel fun o ho _ => ho

end Debts

/-! ### Finitely many processes -/

/-- From some slot on there is no handler and no release. -/
def World.FinitelyMany (w : World) : Prop := ∃ N, ∀ n, N ≤ n → w.handlers n = none ∧ w.releases n = none

private theorem handlers_settle {a : SettleAct} (h : stepSettle cfg w a = some w') :
    ∃ n y, w'.handlers = Function.update w.handlers n y := by
  cases stepSettle_move h with
  | refund hx hp hw₁ =>
    rcases World.refund_cases hw₁ with ⟨-, -, rfl⟩ | ⟨seat, zone, -, -, -, rfl⟩ | rfl <;> exact ⟨_, _, rfl⟩
  | _ => exact ⟨_, _, rfl⟩

private theorem releases_release {a : ReleaseAct} (hl : w.Linked) (h : stepRelease w a = some w') :
    ∃ n y, w'.releases = Function.update w.releases n y := by
  cases stepRelease_move hl h with
  | orphan he hno => exact ⟨0, w.releases 0, (Function.update_eq_self _ _).symm⟩
  | redrive => exact ⟨0, w.releases 0, (Function.update_eq_self _ _).symm⟩
  | seated hx hz hout horders hlog hreleases hrel =>
    obtain ⟨y, -, hy⟩ := hreleases
    exact ⟨_, y, hy⟩
  | _ => exact ⟨_, _, rfl⟩

theorem World.FinitelyMany.step {a : Act} (hw : w.FinitelyMany) (hl : w.Linked)
    (h : Ticketing.step cfg w a = some w') : w'.FinitelyMany := by
  obtain ⟨N, hN⟩ := hw
  have hupdate : ∀ {α : Type} {f g : Nat → Option α} {n : Nat} {y : Option α}, g = Function.update f n y →
      ∀ m, max N (n + 1) ≤ m → f m = none → g m = none := by
    intro α f g n y hg m hm hf
    rw [hg, Function.update_of_ne (by omega), hf]
  by_cases hsettle : ∃ b, a = .settle b
  · obtain ⟨b, rfl⟩ := hsettle
    obtain ⟨n, y, hy⟩ := handlers_settle h
    refine ⟨max N (n + 1), fun m hm => ⟨hupdate hy m hm (hN m (by omega)).1, ?_⟩⟩
    rw [(tablesKept_step h).releases (by simp)]
    exact (hN m (by omega)).2
  have hhandlers := (settlementKept_step (fun b hb => hsettle ⟨b, hb⟩) h).handlers
  by_cases hrelease : ∃ b, a = .release b
  · obtain ⟨b, rfl⟩ := hrelease
    obtain ⟨n, y, hy⟩ := releases_release hl h
    refine ⟨max N (n + 1), fun m hm => ⟨?_, hupdate hy m hm (hN m (by omega)).2⟩⟩
    rw [hhandlers]
    exact (hN m (by omega)).1
  · refine ⟨N, fun m hm => ?_⟩
    rw [hhandlers, (tablesKept_step h).releases fun b hb => hrelease ⟨b, hb⟩]
    exact hN m hm

/-! ### What every reachable state satisfies -/

/-- What a run of a general-admission event keeps, with one handler for each entry and no reconcile. -/
structure Recoverable (cfg : Settings) (event : EventId) (total : Int) (w : World) : Prop where
  conserved : Conserved cfg event total w
  exclusive : Exclusive cfg w
  queued : Queued event w
  debts : Debts event w
  finite : w.FinitelyMany

namespace Recoverable

variable {total : Int}

theorem start (h : OnSale event total w) : Recoverable cfg event total w where
  conserved := .start h
  exclusive := .start h.start
  queued := .start h
  debts := .start h
  finite := ⟨0, fun n _ => ⟨h.start.handlers n, h.start.releases n⟩⟩

theorem step {a : Act} (hr : Recoverable cfg event total w) (hone : OneHandler w a) (hquiet : NoReconcile w a)
    (h : Ticketing.step cfg w a = some w') : Recoverable cfg event total w' where
  conserved := hr.conserved.step (hr.exclusive.commitSafe a) hquiet h
  exclusive := hr.exclusive.step hone h
  queued := hr.queued.step hr.conserved.linked hr.exclusive hr.conserved.unseated h
  debts := hr.debts.step hr.queued hr.conserved.linked h
  finite := hr.finite.step hr.conserved.linked h

end Recoverable

end Invariants

/-! ### Runs of the workers -/

/-- How the database meets the next insertion: the order id that is drawn, and whether the foreign keys hold. -/
abbrev Outcomes := World → OrderId × Bool

/-- The row is counted by the alert of `process_outbox`: it is not processed and no pass claims it any more. -/
def Db.UsedUp (db : Db) (row : OutboxId) : Prop :=
  ∃ e ∈ db.outbox, e.id = row ∧ e.processed = false ∧ outboxMaxAttempts ≤ e.attempts

/-- A step of the consumer, of a reclaim pass or of the outbox relay, where the database answers as `outcome`
says; or a row whose attempts are used up is driven again by hand. -/
def Worker (outcome : Outcomes) (w : World) : Act → Prop
  | .settle (.persist _ id fk) => outcome w = (id, fk)
  | .settle a => OneHandler w (.settle a)
  | .release (.redrive row) => w.db.UsedUp row
  | .release a => ∀ n id, a ≠ .start n id
  | _ => False

theorem Worker.oneHandler {outcome : Outcomes} {w : World} {a : Act} (h : Worker outcome w a) : OneHandler w a := by
  cases a with
  | settle a =>
    cases a with
    | persist n id fk => trivial
    | _ => exact h
  | _ => trivial

theorem Worker.noReconcile {outcome : Outcomes} {w : World} {a : Act} (h : Worker outcome w a) : NoReconcile w a := by
  cases a with
  | reconcile a => exact h
  | lose event => exact h
  | _ => trivial

/-- The stream entries of the event. -/
def World.backlog (event : EventId) (w : World) : Nat :=
  (w.redis.stream.filter fun e => e.intent.event = event).length

section Drain

variable {cfg : Settings} {event : EventId} {total : Int} {outcome : Outcomes} {w w' : World}

/-- No process works on an entry or a release. -/
structure AtRest (cfg : Settings) (event : EventId) (total : Int) (w : World) : Prop where
  recoverable : Recoverable cfg event total w
  handlers : ∀ n, w.handlers n = none
  releases : ∀ n, w.releases n = none

/-- The workers can go from one state to the other. -/
abbrev Works (cfg : Settings) (outcome : Outcomes) : World → World → Prop := Reach (step cfg) (Worker outcome)

/-- Every process can stop where it is. -/
theorem exists_idle (hr : Recoverable cfg event total w) :
    ∃ w', Works cfg outcome w w' ∧ AtRest cfg event total w' := by
  obtain ⟨N, hN⟩ := hr.finite
  induction N generalizing w with
  | zero => exact ⟨w, .refl w, hr, fun n => (hN n (Nat.zero_le n)).1, fun n => (hN n (Nat.zero_le n)).2⟩
  | succ N ih =>
    -- the release and the handler in the last slot stop
    have hstop : Ticketing.step cfg w (.release (.stop N)) = some (w.setRelease N none) := rfl
    have hC : Worker outcome w (.release (.stop N)) := by simp [Worker]
    have hr₁ := hr.step hC.oneHandler hC.noReconcile hstop
    have hslots : ∀ n, N ≤ n → (w.setRelease N none).releases n = none := by
      intro n hn
      by_cases hnN : n = N
      · subst hnN
        exact Function.update_self ..
      · exact (Function.update_of_ne hnN _ _).trans (hN n (by omega)).2
    cases hx : w.handlers N with
    | none =>
      have hN₁ : ∀ n, N ≤ n → (w.setRelease N none).handlers n = none ∧ (w.setRelease N none).releases n = none := by
        intro n hn
        refine ⟨?_, hslots n hn⟩
        by_cases hnN : n = N
        · exact hnN ▸ hx
        · exact (hN n (by omega)).1
      obtain ⟨w', hw', hidle⟩ := ih hr₁ hN₁
      exact ⟨w', (Reach.single hC hstop).trans hw', hidle⟩
    | some x =>
      have hstop₂ : Ticketing.step cfg (w.setRelease N none) (.settle (.stop N)) =
          some ((w.setRelease N none).setHandler N none) := by
        have hslot : (w.setRelease N none).handlers N = some x := hx
        simp [Ticketing.step, stepSettle, SettleAct.slot, hslot, World.handle]
      have hC₂ : Worker outcome (w.setRelease N none) (.settle (.stop N)) := trivial
      have hr₂ := hr₁.step hC₂.oneHandler hC₂.noReconcile hstop₂
      have hN₂ : ∀ n, N ≤ n → ((w.setRelease N none).setHandler N none).handlers n = none ∧
          ((w.setRelease N none).setHandler N none).releases n = none := by
        intro n hn
        refine ⟨?_, hslots n hn⟩
        by_cases hnN : n = N
        · subst hnN
          exact Function.update_self ..
        · exact (Function.update_of_ne hnN _ _).trans (hN n (by omega)).1
      obtain ⟨w', hw', hidle⟩ := ih hr₂ hN₂
      exact ⟨w', ((Reach.single hC hstop).trans (Reach.single hC₂ hstop₂)).trans hw', hidle⟩

/-! ### One handler at work -/

/-- One process works on an entry of the event. -/
structure InHand (cfg : Settings) (event : EventId) (total : Int) (w : World) (x : Handler) : Prop where
  recoverable : Recoverable cfg event total w
  slot : w.handlers 0 = some x
  alone : ∀ n, n ≠ 0 → w.handlers n = none
  releases : ∀ n, w.releases n = none
  event : x.intent.event = event

/-- The workers can end with a shorter backlog than `k`. -/
def Shrinks (cfg : Settings) (event : EventId) (total : Int) (outcome : Outcomes) (w : World) (k : Nat) : Prop :=
  ∃ w', Works cfg outcome w w' ∧ AtRest cfg event total w' ∧ w'.backlog event < k

variable {x : Handler}

private theorem InHand.next (hw : InHand cfg event total w x) {a : SettleAct} {p : HandlerPhase}
    (h : step cfg w (.settle a) = some w') (hC : Worker outcome w (.settle a))
    (hslot : w'.handlers = Function.update w.handlers 0 (some { x with phase := p })) :
    Works cfg outcome w w' ∧ InHand cfg event total w' { x with phase := p } := by
  refine ⟨.single hC h, hw.recoverable.step hC.oneHandler hC.noReconcile h, ?_, fun n hn => ?_, fun n => ?_, hw.event⟩
  · rw [hslot, Function.update_self]
  · rw [hslot, Function.update_of_ne hn, hw.alone n hn]
  · rw [(tablesKept_step h).releases (by simp), hw.releases n]

private theorem InHand.leave (hw : InHand cfg event total w x) {a : SettleAct}
    (h : step cfg w (.settle a) = some w') (hC : Worker outcome w (.settle a))
    (hslot : w'.handlers = Function.update w.handlers 0 none) : Works cfg outcome w w' ∧
    AtRest cfg event total w' := by
  refine ⟨.single hC h, hw.recoverable.step hC.oneHandler hC.noReconcile h, fun n => ?_, fun n => ?_⟩
  · rw [hslot]
    by_cases hn : n = 0
    · rw [hn, Function.update_self]
    · rw [Function.update_of_ne hn, hw.alone n hn]
  · rw [(tablesKept_step h).releases (by simp), hw.releases n]

private theorem Shrinks.of_works {k : Nat} (h : Works cfg outcome w w') (hs : Shrinks cfg event total outcome w' k) :
    Shrinks cfg event total outcome w k := by
  obtain ⟨u, hu, hidle, hlt⟩ := hs
  exact ⟨u, h.trans hu, hidle, hlt⟩

/-- A settled entry is acknowledged and deleted. -/
private theorem shrinks_settled (hw : InHand cfg event total w x) (hp : x.phase = .settled) :
    Shrinks cfg event total outcome w (w.backlog event) := by
  have hstep : step cfg w (.settle (.ack 0)) =
      some { w.setHandler 0 none with redis := w.redis.ackAndRemove x.entry } := by
    simp [Ticketing.step, stepSettle, SettleAct.slot, hw.slot, World.handle, hp]
  obtain ⟨hreach, hidle⟩ := hw.leave hstep trivial rfl
  refine ⟨_, hreach, hidle, ?_⟩
  obtain ⟨e, he, hid, hint, -⟩ := hw.recoverable.exclusive.live 0 x hw.slot
  have hmem : e ∈ w.redis.stream.filter fun e => e.intent.event = event := by
    rw [List.mem_filter, hint]
    exact ⟨he, by simpa using hw.event⟩
  unfold World.backlog
  change ((w.redis.stream.filter fun e => e.id ≠ x.entry).filter fun e => e.intent.event = event).length < _
  rw [List.filter_comm, List.length_filter_lt_length_iff_exists]
  exact ⟨e, hmem, by simp [hid]⟩

private theorem shrinks_refunded (hw : InHand cfg event total w x) (hp : x.phase = .refunded) :
    Shrinks cfg event total outcome w (w.backlog event) := by
  have hstep : step cfg w (.settle (.markFailed 0)) = some { w.setHandler 0 (some { x with phase := .settled }) with
      redis := w.redis.setClaim x.intent.key .failed } := by
    simp [Ticketing.step, stepSettle, SettleAct.slot, hw.slot, World.handle, hp]
  obtain ⟨hreach, hnext⟩ := hw.next hstep trivial rfl
  exact .of_works hreach (shrinks_settled hnext rfl)

private theorem shrinks_parked {already : Bool} (hw : InHand cfg event total w x) (hp : x.phase = .parked already) :
    Shrinks cfg event total outcome w (w.backlog event) := by
  cases already with
  | true =>
    have hstep : step cfg w (.settle (.refund 0)) = some (w.setHandler 0 (some { x with phase := .refunded })) := by
      simp [Ticketing.step, stepSettle, SettleAct.slot, hw.slot, World.handle, hp]
    obtain ⟨hreach, hnext⟩ := hw.next hstep trivial rfl
    exact .of_works hreach (shrinks_refunded hnext rfl)
  | false =>
    -- the refund of an intent without a seat does not fail
    have hseat := hw.recoverable.queued.seat x.intent
      (hw.recoverable.conserved.linked.handled 0 x hw.slot) hw.event
    have hstep : step cfg w (.settle (.refund 0)) =
        some ((w.releaseQuantity x.intent.releaseArgs).setHandler 0 (some { x with phase := .refunded })) := by
      simp [Ticketing.step, stepSettle, SettleAct.slot, hw.slot, World.handle, hp, World.refund, hseat]
    rcases w.releaseQuantity_cases x.intent.releaseArgs with ⟨-, heq⟩ | ⟨-, heq⟩ <;> rw [heq] at hstep
    all_goals
      obtain ⟨hreach, hnext⟩ := hw.next hstep trivial rfl
      exact .of_works hreach (shrinks_refunded hnext rfl)

private theorem shrinks_checked {already : Bool} (hw : InHand cfg event total w x) (hp : x.phase = .checked already) :
    Shrinks cfg event total outcome w (w.backlog event) := by
  have hstep : step cfg w (.settle (.park 0)) = some { w.setHandler 0 (some { x with phase := .parked already }) with
      redis := w.redis.addDead x.intent x.entry } := by
    simp [Ticketing.step, stepSettle, SettleAct.slot, hw.slot, World.handle, hp]
  obtain ⟨hreach, hnext⟩ := hw.next hstep trivial rfl
  exact .of_works hreach (shrinks_parked hnext rfl)

/-- An entry that has used up its deliveries is dead-lettered. -/
private theorem shrinks_exhausted (hw : InHand cfg event total w x) (hp : x.phase = .exhausted) :
    Shrinks cfg event total outcome w (w.backlog event) := by
  have hstep : step cfg w (.settle (.check 0)) =
      some (w.setHandler 0 (some { x with phase := .checked (w.db.hasKey x.intent.key) })) := by
    simp [Ticketing.step, stepSettle, SettleAct.slot, hw.slot, World.handle, hp]
  obtain ⟨hreach, hnext⟩ := hw.next hstep trivial rfl
  exact .of_works hreach (shrinks_checked hnext rfl)

/-- One pass ends with a shorter backlog or leaves the stream as it was. -/
private theorem shrinks_or_same_delivered (hw : InHand cfg event total w x) (hp : x.phase = .delivered) :
    Shrinks cfg event total outcome w (w.backlog event) ∨
      ∃ w', Works cfg outcome w w' ∧ AtRest cfg event total w' ∧ w'.redis.stream = w.redis.stream := by
  rcases hout : outcome w with ⟨id, fk⟩
  have hC : Worker outcome w (.settle (.persist 0 id fk)) := hout
  cases hcons : x.intent.consistent with
  | false =>
    have hstep : step cfg w (.settle (.persist 0 id fk)) = some (w.setHandler 0 none) := by
      simp [Ticketing.step, stepSettle, SettleAct.slot, hw.slot, World.handle, hp, hcons]
    obtain ⟨hreach, hidle⟩ := hw.leave hstep hC rfl
    exact .inr ⟨_, hreach, hidle, rfl⟩
  | true =>
    cases hdb : w.db.insertIntent x.intent id fk with
    | some db =>
      have hstep : step cfg w (.settle (.persist 0 id fk)) =
          some { w.setHandler 0 (some { x with phase := .settled }) with db } := by
        simp [Ticketing.step, stepSettle, SettleAct.slot, hw.slot, World.handle, hp, hcons, hdb]
      obtain ⟨hreach, hnext⟩ := hw.next hstep hC rfl
      exact .inl (.of_works hreach (shrinks_settled hnext rfl))
    | none =>
      have hstep : step cfg w (.settle (.persist 0 id fk)) = some
          (w.setHandler 0 (some { x with phase := .rejected })) := by
        simp [Ticketing.step, stepSettle, SettleAct.slot, hw.slot, World.handle, hp, hcons, hdb]
      obtain ⟨hreach, hnext⟩ := hw.next hstep hC rfl
      cases hkey : w.db.hasKey x.intent.key with
      | true =>
        have hstep₂ : step cfg (w.setHandler 0 (some { x with phase := .rejected })) (.settle (.lookUp 0)) =
            some ((w.setHandler 0 (some { x with phase := .rejected })).setHandler 0
              (some { x with phase := .settled })) := by
          have hkey' : (w.setHandler 0 (some { x with phase := .rejected })).db.hasKey x.intent.key = true := hkey
          simp [Ticketing.step, stepSettle, SettleAct.slot, hnext.slot, World.handle, hkey']
        obtain ⟨hreach₂, hnext₂⟩ := hnext.next hstep₂ trivial rfl
        exact .inl (.of_works (hreach.trans hreach₂) (shrinks_settled hnext₂ rfl))
      | false =>
        have hstep₂ : step cfg (w.setHandler 0 (some { x with phase := .rejected })) (.settle (.lookUp 0)) =
            some ((w.setHandler 0 (some { x with phase := .rejected })).setHandler 0 none) := by
          have hkey' : (w.setHandler 0 (some { x with phase := .rejected })).db.hasKey x.intent.key = false := hkey
          simp [Ticketing.step, stepSettle, SettleAct.slot, hnext.slot, World.handle, hkey']
        obtain ⟨hreach₂, hidle⟩ := hnext.leave hstep₂ trivial rfl
        exact .inr ⟨_, hreach.trans hreach₂, hidle, rfl⟩

/-! ### Passes over one entry -/

private theorem entry_of_mem (hx : Exclusive cfg w) {e : StreamEntry} (he : e ∈ w.redis.stream) :
    w.redis.entry e.id = some e := by
  unfold Redis.entry
  cases hf : w.redis.stream.find? fun e' => decide (e'.id = e.id) with
  | none => exact absurd (List.find?_eq_none.1 hf e he) (by simp)
  | some e' =>
    have hid : e'.id = e.id := by simpa using List.find?_some hf
    rw [List.inj_on_of_nodup_map hx.ids (List.mem_of_find?_eq_some hf) he hid]

private theorem backlog_deliver (id : StreamId) (w' : World) (h : w'.redis.stream = (w.redis.deliver id).stream) :
    w'.backlog event = w.backlog event := by
  unfold World.backlog
  rw [h]
  change ((w.redis.stream.map _).filter _).length = _
  rw [List.filter_map, List.length_map]
  refine congrArg List.length (List.filter_congr fun e _ => ?_)
  simp only [Function.comp_apply]
  split <;> rfl

private theorem mem_deliver {e : StreamEntry} (he : e ∈ w.redis.stream) :
    { e with delivered := e.delivered + 1 } ∈ (w.redis.deliver e.id).stream :=
  List.mem_map.2 ⟨e, he, by rw [if_pos rfl]⟩

/-- One pass over an entry of the event ends with a shorter backlog, or the entry has been delivered once
more; it ends with a shorter backlog when the deliveries are used up. -/
private theorem pass (hidle : AtRest cfg event total w) {e : StreamEntry} (he : e ∈ w.redis.stream)
    (hev : e.intent.event = event) :
    Shrinks cfg event total outcome w (w.backlog event) ∨ (e.delivered ≤ cfg.orderMaxDeliveries ∧
      ∃ w', Works cfg outcome w w' ∧ AtRest cfg event total w' ∧ w'.backlog event = w.backlog event ∧
        { e with delivered := e.delivered + 1 } ∈ w'.redis.stream) := by
  have hentry := entry_of_mem hidle.recoverable.exclusive he
  have hfree : ∀ m y, w.handlers m = some y → y.entry ≠ e.id := by
    intro m y hy
    rw [hidle.handlers m] at hy
    cases hy
  -- what a pass does once the entry is in hand with one more delivery
  have hdelivered : ∀ w₁, Works cfg outcome w w₁ → w₁.redis.stream = (w.redis.deliver e.id).stream →
      InHand cfg event total w₁ ⟨e.id, e.intent, .delivered⟩ → e.delivered ≤ cfg.orderMaxDeliveries →
      Shrinks cfg event total outcome w (w.backlog event) ∨ (e.delivered ≤ cfg.orderMaxDeliveries ∧
        ∃ w', Works cfg outcome w w' ∧ AtRest cfg event total w' ∧ w'.backlog event = w.backlog event ∧
          { e with delivered := e.delivered + 1 } ∈ w'.redis.stream) := by
    intro w₁ hreach hstream hw hle
    have hback : w₁.backlog event = w.backlog event := backlog_deliver e.id w₁ hstream
    rcases shrinks_or_same_delivered hw rfl with hs | ⟨w', hreach', hidle', hsame⟩
    · exact .inl (.of_works hreach (hback ▸ hs))
    · refine .inr ⟨hle, w', hreach.trans hreach', hidle', ?_, ?_⟩
      · rw [← hback]
        unfold World.backlog
        rw [hsame]
      · rw [hsame, hstream]
        exact mem_deliver he
  by_cases hnew : e.delivered = 0
  · have hstep : step cfg w (.settle (.deliver 0 e.id)) =
        some { w.setHandler 0 (some ⟨e.id, e.intent, .delivered⟩) with redis := w.redis.deliver e.id } := by
      simp [Ticketing.step, stepSettle, hentry, hidle.handlers, hnew]
    have hC : Worker outcome w (.settle (.deliver 0 e.id)) := hfree
    refine hdelivered _ (.single hC hstep) rfl
      ⟨hidle.recoverable.step hC.oneHandler hC.noReconcile hstep, ?_, ?_, ?_, hev⟩
      (by omega)
    · simp [World.setHandler]
    · exact fun n hn => (Function.update_of_ne hn _ _).trans (hidle.handlers n)
    · exact hidle.releases
  · -- a reclaim pass lists the entry and claims it
    have hstep : step cfg w (.settle (.list 0 e.id)) =
        some (w.setHandler 0 (some ⟨e.id, e.intent, .listed e.delivered⟩)) := by
      have hpos : 1 ≤ e.delivered := Nat.pos_of_ne_zero hnew
      simp [Ticketing.step, stepSettle, hentry, hidle.handlers, hpos]
    have hC : Worker outcome w (.settle (.list 0 e.id)) := hfree
    have hlisted : InHand cfg event total (w.setHandler 0 (some ⟨e.id, e.intent, .listed e.delivered⟩))
        ⟨e.id, e.intent, .listed e.delivered⟩ :=
      ⟨hidle.recoverable.step hC.oneHandler hC.noReconcile hstep, by simp [World.setHandler],
        fun n hn => (Function.update_of_ne hn _ _).trans (hidle.handlers n), hidle.releases, hev⟩
    have hentry' : (w.setHandler 0 (some ⟨e.id, e.intent, .listed e.delivered⟩)).redis.entry e.id = some e := hentry
    by_cases hmax : cfg.orderMaxDeliveries ≤ e.delivered
    · have hstep₂ : step cfg (w.setHandler 0 (some ⟨e.id, e.intent, .listed e.delivered⟩)) (.settle (.claim 0)) =
          some { (w.setHandler 0 (some ⟨e.id, e.intent, .listed e.delivered⟩)).setHandler 0
            (some ⟨e.id, e.intent, .exhausted⟩) with redis := w.redis.deliver e.id } := by
        simp only [Ticketing.step, stepSettle, SettleAct.slot, hlisted.slot, Option.bind_some, World.handle, hentry',
          if_pos hmax]
        rfl
      obtain ⟨hreach, hnext⟩ := hlisted.next (p := .exhausted) hstep₂ trivial rfl
      have hs : Shrinks cfg event total outcome _ _ := shrinks_exhausted hnext rfl
      rw [backlog_deliver (w := w) e.id _ rfl] at hs
      exact .inl (.of_works ((Reach.single hC hstep).trans hreach) hs)
    · have hstep₂ : step cfg (w.setHandler 0 (some ⟨e.id, e.intent, .listed e.delivered⟩)) (.settle (.claim 0)) =
          some { (w.setHandler 0 (some ⟨e.id, e.intent, .listed e.delivered⟩)).setHandler 0
            (some ⟨e.id, e.intent, .delivered⟩) with redis := w.redis.deliver e.id } := by
        simp only [Ticketing.step, stepSettle, SettleAct.slot, hlisted.slot, Option.bind_some, World.handle, hentry',
          if_neg hmax]
        rfl
      obtain ⟨hreach, hnext⟩ := hlisted.next (p := .delivered) hstep₂ trivial rfl
      exact hdelivered _ ((Reach.single hC hstep).trans hreach) rfl hnext (by omega)

/-- Repeated passes settle an entry of the event. -/
private theorem shrinks_of_mem (hidle : AtRest cfg event total w) {e : StreamEntry} (he : e ∈ w.redis.stream)
    (hev : e.intent.event = event) : Shrinks cfg event total outcome w (w.backlog event) := by
  -- the induction is on the deliveries that are left
  induction hk : cfg.orderMaxDeliveries + 1 - e.delivered generalizing w e with
  | zero =>
    rcases pass hidle he hev with hs | ⟨hle, -⟩
    · exact hs
    · omega
  | succ k ih =>
    rcases pass hidle he hev with hs | ⟨hle, w', hreach, hidle', hback, hmem⟩
    · exact hs
    · have := ih hidle' hmem hev (by simp only; omega)
      rw [hback] at this
      exact .of_works hreach this

/-- The workers can empty the stream of the event's entries. -/
private theorem exists_settled (hidle : AtRest cfg event total w) :
    ∃ w', Works cfg outcome w w' ∧ AtRest cfg event total w' ∧ w'.backlog event = 0 := by
  refine Reach.exhaust (World.backlog event) (fun v hv hne => ?_) hidle
  obtain ⟨e, he⟩ := List.exists_mem_of_length_pos (Nat.pos_of_ne_zero hne)
  obtain ⟨hmem, hev⟩ := List.mem_filter.1 he
  obtain ⟨v', hreach, hidle', hlt⟩ := shrinks_of_mem hv hmem (by simpa using hev)
  exact ⟨v', hreach, hidle', hlt⟩

/-! ### Passes of the relay -/

private theorem find_row (hd : Debts event w) {e : OutboxEntry} (he : e ∈ w.db.outbox) :
    (w.db.outbox.find? fun e' => e'.id = e.id) = some e := by
  cases hf : w.db.outbox.find? fun e' => decide (e'.id = e.id) with
  | none => exact absurd (List.find?_eq_none.1 hf e he) (by simp)
  | some e' =>
    have hid : e'.id = e.id := by simpa using List.find?_some hf
    rw [List.inj_on_of_nodup_map hd.ids (List.mem_of_find?_eq_some hf) he hid]

/-- One process works on a release, for the row of this id. -/
structure Releasing (cfg : Settings) (event : EventId) (total : Int) (w : World) (x : Release) : Prop where
  recoverable : Recoverable cfg event total w
  slot : w.releases 0 = some x
  alone : ∀ n, n ≠ 0 → w.releases n = none
  handlers : ∀ n, w.handlers n = none

/-- The relay picks up a row that has attempts left. -/
private theorem relay_takes (hidle : AtRest cfg event total w) {e : OutboxEntry} {o : Order} (he : e ∈ w.db.outbox)
    (hnew : e.processed = false) (hleft : e.attempts < outboxMaxAttempts) (hby : w.db.orderById e.order = some o) :
    ∃ w', Works cfg outcome w w' ∧ Releasing cfg event total w' ⟨o, some e.id, .begun⟩ ∧ w'.redis = w.redis ∧
      w'.db.orders = w.db.orders := by
  have hfind := find_row hidle.recoverable.debts he
  have hstep : step cfg w (.release (.claimRow 0 e.id)) =
      some { w.setRelease 0 (some ⟨o, some e.id, .begun⟩) with db := w.db.claimOutbox e.id } := by
    simp [Ticketing.step, stepRelease, hfind, hidle.releases, hby, hnew, hleft]
  have hC : Worker outcome w (.release (.claimRow 0 e.id)) := by simp [Worker]
  refine ⟨_, .single hC hstep, ⟨hidle.recoverable.step hC.oneHandler hC.noReconcile hstep, ?_, ?_,
    hidle.handlers⟩, rfl, rfl⟩
  · simp [World.setRelease]
  · exact fun n hn => (Function.update_of_ne hn _ _).trans (hidle.releases n)

/-- The relay picks up a row, which is given new attempts where they are used up. -/
private theorem relay_claims (hidle : AtRest cfg event total w) {e : OutboxEntry} {o : Order} (he : e ∈ w.db.outbox)
    (hnew : e.processed = false) (hby : w.db.orderById e.order = some o) :
    ∃ w', Works cfg outcome w w' ∧ Releasing cfg event total w' ⟨o, some e.id, .begun⟩ ∧ w'.redis = w.redis ∧
      w'.db.orders = w.db.orders := by
  by_cases hleft : e.attempts < outboxMaxAttempts
  · exact relay_takes hidle he hnew hleft hby
  · have hstep : step cfg w (.release (.redrive e.id)) = some { w with db := w.db.redriveOutbox e.id } := rfl
    have hC : Worker outcome w (.release (.redrive e.id)) := ⟨e, he, rfl, hnew, Nat.not_lt.1 hleft⟩
    have hr := hidle.recoverable.step hC.oneHandler hC.noReconcile hstep
    have hmem : { e with attempts := 0 } ∈ (w.db.redriveOutbox e.id).outbox :=
      List.mem_map.2 ⟨e, he, by rw [if_pos rfl]⟩
    have hidle' : AtRest cfg event total { w with db := w.db.redriveOutbox e.id } :=
      ⟨hr, hidle.handlers, hidle.releases⟩
    have hleft' : 0 < outboxMaxAttempts := by decide
    obtain ⟨w', hreach, hw', hredis, horders⟩ := relay_takes hidle' hmem hnew hleft' hby
    exact ⟨w', (Reach.single hC hstep).trans hreach, hw', hredis, horders⟩

/-- The script returns the tickets of the order. -/
private theorem relay_returns {o : Order} {row : OutboxId} (hw : Releasing cfg event total w ⟨o, some row, .begun⟩)
    (hzone : o.zone = none) (hrel : w.redis.released (.order o.id) = false) :
    ∃ w', Works cfg outcome w w' ∧ Releasing cfg event total w' ⟨o, some row, .finished⟩ ∧
      w'.redis.stream = w.redis.stream ∧ w'.db.orders = w.db.orders ∧
      w'.redis.released = Function.update w.redis.released (.order o.id) true := by
  have heq : w.releaseQuantity o.releaseArgs =
      { w with
        redis := w.redis.putBack o.releaseArgs
        returned := w.returned ++ [Returned.quantity o.releaseArgs] } := by
    rcases w.releaseQuantity_cases o.releaseArgs with ⟨-, heq⟩ | ⟨hm, -⟩
    · exact heq
    · exact absurd (hrel.symm.trans hm) (by decide)
  have hstep : step cfg w (.release (.releaseQuantity 0)) =
      some (({ w with redis := w.redis.putBack o.releaseArgs,
                      returned := w.returned ++ [Returned.quantity o.releaseArgs] } : World).setRelease 0
        (some ⟨o, some row, .finished⟩)) := by
    simp only [Ticketing.step, stepRelease, hw.slot, Option.bind_some, hzone, and_self, if_true, heq]
  have hC : Worker outcome w (.release (.releaseQuantity 0)) := by simp [Worker]
  refine ⟨_, .single hC hstep, ⟨hw.recoverable.step hC.oneHandler hC.noReconcile hstep, ?_, ?_, hw.handlers⟩,
    rfl, rfl, rfl⟩
  · simp [World.setRelease]
  · exact fun n hn => (Function.update_of_ne hn _ _).trans (hw.alone n hn)

/-- The row of a finished release is marked. -/
private theorem relay_marks {o : Order} {row : OutboxId} (hw : Releasing cfg event total w ⟨o, some row, .finished⟩) :
    ∃ w', Works cfg outcome w w' ∧ AtRest cfg event total w' ∧ w'.redis = w.redis ∧ w'.db.orders = w.db.orders := by
  have hstep : step cfg w (.release (.markProcessed 0)) =
      some { w.setRelease 0 none with db := w.db.markProcessed row } := by
    simp only [Ticketing.step, stepRelease, hw.slot, Option.bind_some]
  have hC : Worker outcome w (.release (.markProcessed 0)) := by simp [Worker]
  refine ⟨_, .single hC hstep, ⟨hw.recoverable.step hC.oneHandler hC.noReconcile hstep, hw.handlers,
    fun n => ?_⟩, rfl, rfl⟩
  by_cases hn : n = 0
  · simp [World.setRelease, hn]
  · simp [World.setRelease, hn, hw.alone]

/-- The relay carries out the release of a terminal order. -/
private theorem relay_pass (hidle : AtRest cfg event total w) {o : Order} (ho : o ∈ w.db.orders)
    (hev : o.event = event) (hst : o.status.held = false) (hrel : w.redis.released (.order o.id) = false) :
    ∃ w', Works cfg outcome w w' ∧ AtRest cfg event total w' ∧ w'.redis.stream = w.redis.stream ∧
      w'.db.orders = w.db.orders ∧ w'.redis.released = Function.update w.redis.released (.order o.id) true := by
  have hr := hidle.recoverable
  obtain ⟨e, he, hord, hnew⟩ := hr.debts.owed o ho hev hst hrel
  have hby : w.db.orderById e.order = some o := by
    rw [hord]
    cases hf : w.db.orderById o.id with
    | none => exact absurd (List.find?_eq_none.1 hf o ho) (by simp)
    | some o' =>
      obtain ⟨hmem, hid⟩ := orderById_eq_some hf
      rw [hr.conserved.linked.db.order_unique hmem ho hid]
  obtain ⟨w₁, hreach₁, hw₁, hredis₁, horders₁⟩ := relay_claims hidle he hnew hby
  obtain ⟨w₂, hreach₂, hw₂, hstream₂, horders₂, hrel₂⟩ :=
    relay_returns hw₁ (hr.queued.zone o ho hev) (by rw [hredis₁]; exact hrel)
  obtain ⟨w₃, hreach₃, hidle₃, hredis₃, horders₃⟩ := relay_marks hw₂
  refine ⟨w₃, (hreach₁.trans hreach₂).trans hreach₃, hidle₃, ?_, ?_, ?_⟩
  · rw [hredis₃, hstream₂, hredis₁]
  · rw [horders₃, horders₂, horders₁]
  · rw [hredis₃, hrel₂, hredis₁]

/-- The relay can carry out every release that the event owes. -/
private theorem exists_released (hidle : AtRest cfg event total w) (hsettled : w.backlog event = 0) :
    ∃ w', Works cfg outcome w w' ∧ (AtRest cfg event total w' ∧ w'.backlog event = 0) ∧
      (w'.owing event).length = 0 := by
  refine Reach.exhaust (I := fun w => AtRest cfg event total w ∧ w.backlog event = 0)
    (fun w => (w.owing event).length)
    (fun v hv hne => ?_) ⟨hidle, hsettled⟩
  obtain ⟨id, hid⟩ := List.exists_mem_of_length_pos (Nat.pos_of_ne_zero hne)
  obtain ⟨o, ho, -⟩ := List.mem_map.1 hid
  obtain ⟨hom, howe⟩ := List.mem_filter.1 ho
  rw [decide_eq_true_eq] at howe
  obtain ⟨v', hreach, hidle', hstream, horders, hreleased⟩ := relay_pass hv.1 hom howe.1 howe.2.1 howe.2.2
  refine ⟨v', hreach, ⟨hidle', ?_⟩, ?_⟩
  · rw [← hv.2]
    unfold World.backlog
    rw [hstream]
  · -- the order is owed no more, and no other order is owed anew
    unfold World.owing
    rw [List.length_map, List.length_map, horders, hreleased]
    have hsub : (v.db.orders.filter fun o' => o'.event = event ∧ o'.status.held = false ∧
        Function.update v.redis.released (.order o.id) true (.order o'.id) = false) =
          (v.db.orders.filter fun o' => o'.event = event ∧ o'.status.held = false ∧
            v.redis.released (.order o'.id) = false).filter fun o' => o'.id ≠ o.id := by
      rw [List.filter_filter]
      refine List.filter_congr fun o' _ => ?_
      by_cases hid' : o'.id = o.id
      · simp [hid']
      · rw [Function.update_of_ne (by simpa using hid')]
        simp [hid']
    rw [hsub, List.length_filter_lt_length_iff_exists]
    exact ⟨o, ho, by simp⟩

/-! ### Quiescence -/

/-- With no entry of the event in the stream, every accepted intent is settled. -/
private theorem AtRest.drained (hidle : AtRest cfg event total w) (hsettled : w.backlog event = 0) :
    w.Drained event := by
  intro i hi hev
  by_contra hun
  obtain ⟨e, he, hint⟩ := hidle.recoverable.queued.queued i hi hev (by simpa using hun)
  rw [World.backlog, List.length_eq_zero_iff, List.filter_eq_nil_iff] at hsettled
  exact hsettled e he (by simpa [hint] using hev)

private theorem allReleased_of_owing (h : (w.owing event).length = 0) : w.AllReleased event := by
  intro o ho hev hst
  by_contra hno
  have hmem : o ∈ w.db.orders.filter fun o => o.event = event ∧ o.status.held = false ∧
      w.redis.released (.order o.id) = false := by
    rw [List.mem_filter, decide_eq_true_eq]
    exact ⟨ho, hev, hst, by simpa using hno⟩
  rw [World.owing, List.length_map, List.length_eq_zero_iff] at h
  rw [h] at hmem
  cases hmem

end Drain

/-- The pipeline can always be drained.  From every state of a run of a general-admission event, with one
handler for each entry, no reconcile and nothing expired, and whatever processes have died, the workers reach
a state in which every accepted intent of the event is settled and every release it owes is made, however the
database answers the insertions on the way, when rows whose attempts are used up are driven again by hand; the
stock is then the capacity less what the database has sold, and the quotas are the sums by user. -/
theorem pipeline_drains {cfg : Settings} {event : EventId} {total : Int} {w₀ w : World} {acts : List Act}
    (hsale : OnSale event total w₀) (hone : Along (step cfg) OneHandler w₀ acts)
    (hquiet : Along (step cfg) NoReconcile w₀ acts) (h : exec (step cfg) w₀ acts = some w) (outcome : Outcomes) :
    ∃ w', Reach (step cfg) (Worker outcome) w w' ∧ w'.log = w.log ∧ (∀ e ∈ w'.redis.stream, e.intent.event ≠ event) ∧
      w'.Drained event ∧ w'.AllReleased event ∧ w'.redis.available event = some (total - w'.db.sold event) ∧
      ∀ u, w'.redis.held event u = ((w'.db.soldByUser event).lookup u).getD 0 := by
  have hrec : Recoverable cfg event total w :=
    exec_invariant (fun _ _ _ hC hs hi => hi.step hC.1 hC.2 hs) (Recoverable.start hsale) (hone.and hquiet) h
  obtain ⟨w₁, hreach₁, hidle₁⟩ := exists_idle hrec
  obtain ⟨w₂, hreach₂, hidle₂, hback₂⟩ := exists_settled hidle₁
  obtain ⟨w', hreach₃, ⟨hidle, hback⟩, howing⟩ := exists_released hidle₂ hback₂
  have hreach : Works cfg outcome w w' := (hreach₁.trans hreach₂).trans hreach₃
  have hdrained := hidle.drained hback
  have hreleased := allReleased_of_owing howing
  have hcons := hidle.recoverable.conserved
  refine ⟨w', hreach, ?_, ?_, hdrained, hreleased, ?_, fun u => ?_⟩
  · refine hreach.invariant (I := fun v => v.log = w.log) (fun v a v' hC hs hv => ?_) rfl
    refine ((recordsKept_step hs).log fun b hb => ?_).trans hv
    subst hb
    exact hC
  · intro e he hev
    rw [World.backlog, List.length_eq_zero_iff, List.filter_eq_nil_iff] at hback
    exact hback e he (by simpa using hev)
  · rw [hcons.available, Sound.owed_eq_heldSum hdrained hreleased (by simp [ofEvent]), w'.sold_eq_heldSum]
  · rw [hcons.quota, Sound.owed_eq_heldSum hdrained hreleased (by simp [ofUser]), w'.lookup_soldByUser]

/-- A handler dies with the entry in hand, and the database rejects every insertion from then on. -/
theorem pipeline_drains_rejecting : OnSale 1 10 unseatedStart ∧
    ∃ w, exec (step {}) unseatedStart [.intake (.reserve sampleReserve), .settle (.deliver 0 1)] = some w ∧
      ∃ w', Reach (step {}) (Worker fun _ => (0, false)) w w' ∧ w'.log = [sampleReserve.intent] ∧ w'.Drained 1 ∧
        w'.redis.available 1 = some (10 - w'.db.sold 1) := by
  obtain ⟨w, hw, hlog⟩ := exec_any (step {}) unseatedStart [.intake (.reserve sampleReserve), .settle (.deliver 0 1)]
    (fun w => w.log = [sampleReserve.intent]) (by decide +kernel)
  have hone : Along (step {}) OneHandler unseatedStart
      [.intake (.reserve sampleReserve), .settle (.deliver 0 1)] := by
    refine ⟨trivial, fun w₁ h₁ => ⟨?_, fun _ _ => trivial⟩⟩
    intro m y hy
    rw [handlers_step_intake h₁] at hy
    cases hy
  have hquiet : Along (step {}) NoReconcile unseatedStart
      [.intake (.reserve sampleReserve), .settle (.deliver 0 1)] :=
    Along.of_forall (by simp [NoReconcile])
  obtain ⟨w', hreach, hsame, -, hdrained, -, hav, -⟩ :=
    pipeline_drains unseatedStart_onSale hone hquiet hw fun _ => (0, false)
  exact ⟨unseatedStart_onSale, w, hw, w', hreach, hsame.trans (by simpa using hlog), hdrained, hav⟩

end Ticketing
