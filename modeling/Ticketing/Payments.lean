import Ticketing.OpenTransactions

/-!
# Ticket or refund

The money side of the webhook.  A handler of `payment_intent.succeeded` either confirms the order or decides
to refund the charge, on the order it read and on the answer of its compare-and-swap.  A decision to refund is
right when the order is expired or cancelled, and no later step takes it back.

The branch after a lost compare-and-swap takes for granted that the order was given up.  It may also have been
paid: two events of the same intent have two rows in `stripe_events`, so both handlers may read the order as
PENDING.  Then the one that comes second refunds a confirmed order (`second_event_refunds_a_ticket`).  Apart
from that the intent of an order is refunded or its order is confirmed, and never both (`ticket_or_refund`).
-/

namespace Ticketing

/-- The order of this id is CONFIRMED. -/
def Db.Confirmed (db : Db) (id : OrderId) : Prop := ∃ o, db.orderById id = some o ∧ o.status = .confirmed

theorem Db.Advances.confirmed {db db' : Db} {id : OrderId} (h : db.Advances db') (hc : db.Confirmed id) :
    db'.Confirmed id := by
  obtain ⟨o, ho, hst⟩ := hc
  obtain ⟨o', ho', -, hkeep⟩ := h id o ho
  exact ⟨o', ho', by rw [hkeep (by rw [hst]; rfl)]; exact hst⟩

/-- The succeeded payment a session handles. -/
def Task.payment (task : Task) : Option StripeEvent := task.event.filter fun event => event.type = .succeeded

theorem Task.payment_eq_some {task : Task} {event : StripeEvent} :
    task.payment = some event ↔ task = .webhook event ∧ event.type = .succeeded := by
  unfold Task.payment
  rw [Option.filter_eq_some_iff, decide_eq_true_eq]
  cases task <;> simp [Task.event]

theorem Task.pays_of_payment {task : Task} {event : StripeEvent} (h : task.payment = some event) :
    task.pays = true := by
  obtain ⟨rfl, htype⟩ := Task.payment_eq_some.1 h
  simp [Task.pays, htype]

/-- Only the handler of a payment asks for a refund. -/
theorem Task.decide_refund {task : Task} {order : Option Order} {r : RefundNeeded}
    (h : task.decide order = .finish (.refund r)) : ∃ event, task.payment = some event := by
  cases task with
  | webhook event =>
    cases htype : event.type with
    | succeeded => exact ⟨event, Task.payment_eq_some.2 ⟨rfl, htype⟩⟩
    | canceled =>
      simp only [Task.decide, htype, handlePaymentAborted] at h
      (repeat' split at h) <;> cases h
    | _ =>
      simp only [Task.decide, htype] at h
      cases h
  | _ =>
    simp only [Task.decide] at h
    (repeat' split at h) <;> cases h

theorem Task.onLost_refund {task : Task} {o : Order} {r : RefundNeeded} (h : task.onLost o = .finish (.refund r)) :
    ∃ event, task.payment = some event := by
  cases task with
  | webhook event =>
    simp only [Task.onLost] at h
    split at h
    · rename_i htype
      exact ⟨event, Task.payment_eq_some.2 ⟨rfl, htype⟩⟩
    · cases h
  | _ => cases h

/-- The branches of the payment handler on an order whose total was captured. -/
theorem handlePaymentSucceeded_finish {intent : PaymentIntent} {o : Order} {after : After}
    (hcap : intent.captured = some o.totalPriceCents) (h : handlePaymentSucceeded intent (some o) = .finish after) :
    (after = .nothing ∧ (o.status = .paid ∨ o.status = .confirmed)) ∨
      (∃ reason, after = .refund ⟨intent.id, reason⟩) ∧ o.status.held = false := by
  simp only [handlePaymentSucceeded, hcap, ne_eq, not_true_eq_false, if_false] at h
  split at h
  · rename_i hst
    cases h
    exact .inl ⟨rfl, hst⟩
  · rename_i hst
    split at h
    · rename_i hne
      cases h
      refine .inr ⟨⟨_, rfl⟩, ?_⟩
      cases ho : o.status <;> simp [ho, OrderStatus.held] at hst hne ⊢
    · cases h

theorem handlePaymentSucceeded_swap {intent : PaymentIntent} {o o' : Order}
    (h : handlePaymentSucceeded intent (some o) = .swap o') : o'.status = .pending := by
  simp only [handlePaymentSucceeded] at h
  (repeat' split at h) <;> cases h
  rename_i hst
  simpa using hst

/-- A compare-and-swap is lost to a writer that has moved the row. -/
theorem markPaid_lost {view : Db} {o row : Order} {now : Time} (h : markPaid view o now = .lost)
    (hrow : view.orderById o.id = some row) : row.status ≠ o.status := by
  simp only [markPaid, transitionOrderStatus, hrow] at h
  split at h
  · split at h
    · rename_i hfilter
      intro hEq
      simp [Option.filter, hEq] at hfilter
    · split at h <;> cases h
  · cases h

/-- The refund a session has decided on and not yet finished. -/
def Point.owes : Point → Option RefundNeeded
  | .commit (.refund r) => some r
  | .refund r => some r
  | .refunding r _ => some r
  | _ => none

/-- The order a session has read and is about to swap. -/
def Point.swapping : Point → Option Order
  | .swap o => some o
  | _ => none

namespace Backend

variable {t : Timeouts} {s s' : Backend} {n : Nat} {x : Session}

/-! ### What a step does -/

/-- Session `n` becomes `y`, and nothing else happens to sessions, orders and records. -/
structure Only (s s' : Backend) (n : Nat) (y : Option Session) : Prop where
  sessions : s'.sessions = Function.update s.sessions n y
  orders : s'.db.orders = s.db.orders
  refunds : s'.refunds = s.refunds
  alerts : s'.alerts = s.alerts
  decided : s'.decided = s.decided
  handled : s'.handled = s.handled

/-- The statements of a session that neither commit nor concern a refund. -/
inductive Moves (s : Backend) (x : Session) : Session → Prop where
  | claimed (waited : Nat) : Moves s x { x with point := .load, waited }
  | finish {after : After} (hp : x.point = .load)
      (hd : x.task.decide (x.task.order.bind s.db.orderById) = .finish after) (waited : Nat) :
      Moves s x { x with point := .commit after, waited }
  | read {o : Order} (hp : x.point = .load) (hd : x.task.decide (x.task.order.bind s.db.orderById) = .swap o)
      (waited : Nat) : Moves s x { x with point := .swap o, waited }
  | lost {o : Order} {now : Time} {after : After} (hp : x.point = .swap o) (hs : x.task.swap s.db o now = .lost)
      (hd : x.task.onLost o = .finish after) (waited : Nat) : Moves s x { x with point := .commit after, waited }
  | paid {o fresh : Order} {ws : List Write} (hp : x.point = .swap o) (hpays : x.task.pays = true) (waited : Nat) :
      Moves s x { x with point := .confirm fresh, writes := ws, waited }
  | givenUp {o fresh : Order} {ws : List Write} (hp : x.point = .swap o) (hpays : x.task.pays = false)
      (waited : Nat) :
      Moves s x { x with point := .commit (.release fresh), writes := ws, waited }
  | confirmed {o : Order} (hp : x.point = .confirm o) (ws : List Write) (waited : Nat) :
      Moves s x { x with point := .commit .nothing, writes := x.writes ++ ws, waited }
  | drop {o : Order} {row : Option OutboxId} (hp : x.point = .release o row) (waited : Nat) :
      Moves s x { x with point := .drop o row, waited }
  | released {row : OutboxId} (waited : Nat) : Moves s x { x with point := .finish row, waited }

/-- The kinds of step. -/
inductive Kind (s : Backend) : TxAct → Backend → Prop where
  | persist {i : Intent} {id : OrderId} {fk : Bool} {db : Db} {history : List (OrderId × OrderStatus)}
      (h : s.db.insertIntent i id fk = some db) : Kind s (.persist i id fk) { s with db, history }
  | start {n : Nat} {task : Task} {y : Session} {s' : Backend} (hfree : s.sessions n = none)
      (ho : Only s s' n (some y)) (htask : y.task = task)
      (hp : y.point = .claim ∨ y.point = .load ∨ (∃ row, y.point = .finish row) ∨ ∃ o row, y.point = .release o row) :
      Kind s (.start n task) s'
  | quit {n : Nat} {now : Time} {x : Session} {s' : Backend} (hx : s.sessions n = some x) (hp : x.point.owes = none)
      (ho : Only s s' n none) : Kind s (.run n now) s'
  | move {n : Nat} {now : Time} {x y : Session} {s' : Backend} (hx : s.sessions n = some x) (hp : x.point.owes = none)
      (ho : Only s s' n (some y)) (hm : Moves s x y) : Kind s (.run n now) s'
  | commit {n : Nat} {now : Time} {x : Session} {after : After} (hx : s.sessions n = some x)
      (hp : x.point = .commit after) : Kind s (.run n now) (s.commit n x after)
  | announce {n : Nat} {now : Time} {x : Session} {r : RefundNeeded} (hx : s.sessions n = some x)
      (hp : x.point = .refund r) :
      Kind s (.run n now) { s.goto n x (.refunding r false) with alerts := s.alerts ++ [.paymentRefunded r] }
  | answer {n : Nat} {now : Time} {x : Session} {r : RefundNeeded} (hx : s.sessions n = some x)
      (hp : x.point = .refunding r true) :
      Kind s (.run n now) { s.close n with handled := s.handled ++ x.task.event.toList }
  | accept {n : Nat} {x : Session} {r : RefundNeeded} (hx : s.sessions n = some x)
      (hp : x.point = .refunding r false) :
      Kind s (.acceptRefund n)
        { s.goto n x (.refunding r true) with refunds := s.refunds ++ [r.paymentIntent] }
  | fail {n : Nat} {x : Session} {r : RefundNeeded} {accepted : Bool} (hx : s.sessions n = some x)
      (hp : x.point = .refunding r accepted) :
      Kind s (.failRefund n) { s.close n with alerts := s.alerts ++ [.refundFailed r.paymentIntent] }
  | wait {n ms : Nat} {x : Session} (hx : s.sessions n = some x) (elapsed waited : Nat) :
      Kind s (.wait n ms) (s.set n { x with elapsed, waited })
  | crash {n : Nat} : Kind s (.crash n) (s.close n)
  | timeOut {n : Nat} : Kind s (.timeOut n) (s.close n)

theorem Only.close (s : Backend) (n : Nat) : Only s (s.close n) n none := ⟨rfl, rfl, rfl, rfl, rfl, rfl⟩

theorem Only.goto (s : Backend) (n : Nat) (x : Session) (point : Point) :
    Only s (s.goto n x point) n (some { x with point, waited := 0 }) := ⟨rfl, rfl, rfl, rfl, rfl, rfl⟩

private theorem kind_released {now : Time} {s₁ : Backend} (hx : s.sessions n = some x) (hp : x.point.owes = none)
    (hs : s₁.sessions = s.sessions) (horders : s₁.db.orders = s.db.orders) (hr : s₁.refunds = s.refunds)
    (ha : s₁.alerts = s.alerts) (hd : s₁.decided = s.decided) (hh : s₁.handled = s.handled) (row : Option OutboxId) :
    Kind s (.run n now) (s₁.released n x row) := by
  cases row with
  | none => exact .quit hx hp ⟨by rw [← hs]; rfl, horders, hr, ha, hd, hh⟩
  | some row => exact .move hx hp ⟨by rw [← hs]; rfl, horders, hr, ha, hd, hh⟩ (.released 0)

private theorem kind_start {task : Task} (h : s.start n task = some s') : Kind s (.start n task) s' := by
  unfold Backend.start at h
  split at h
  · cases h
  · rename_i hnone
    have hfree : s.sessions n = none := by simpa using hnone
    cases task with
    | relay row =>
      obtain ⟨e, -, h⟩ := Option.bind_eq_some_iff.1 h
      split at h
      · simp only at h
        split at h
        · obtain rfl := Option.some.inj h
          exact .start hfree ⟨rfl, rfl, rfl, rfl, rfl, rfl⟩ rfl (.inr (.inr (.inl ⟨row, rfl⟩)))
        · rename_i o ho
          obtain rfl := Option.some.inj h
          exact .start hfree ⟨rfl, rfl, rfl, rfl, rfl, rfl⟩ rfl (.inr (.inr (.inr ⟨o, some row, rfl⟩)))
      · cases h
    | webhook event =>
      obtain rfl := Option.some.inj h
      exact .start hfree ⟨rfl, rfl, rfl, rfl, rfl, rfl⟩ rfl (.inl rfl)
    | _ =>
      obtain rfl := Option.some.inj h
      exact .start hfree ⟨rfl, rfl, rfl, rfl, rfl, rfl⟩ rfl (.inr (.inl rfl))

private theorem kind_swap {o : Order} {now : Time} (hx : s.sessions n = some x) (hp : x.point = .swap o)
    (h : s.compareAndSwap n x o now = some s') : Kind s (.run n now) s' := by
  have hnone : x.point.owes = none := by rw [hp]; rfl
  unfold Backend.compareAndSwap at h
  split at h
  · obtain rfl := Option.some.inj h
    exact .quit hx hnone (.close s n)
  · obtain rfl := Option.some.inj h
    exact .quit hx hnone (.close s n)
  · rename_i hlost
    obtain rfl := Option.some.inj h
    cases hd : x.task.onLost o with
    | quit => exact .quit hx hnone (.close s n)
    | finish after => exact .move hx hnone (.goto s n x _) (.lost hp hlost hd 0)
    | swap o' => exact absurd hd (x.task.onLost_ne_swap o o')
  · split at h
    · obtain rfl := Option.some.inj h
      by_cases hpays : x.task.pays = true
      · simp only [hpays, if_true]
        exact .move hx hnone ⟨rfl, rfl, rfl, rfl, rfl, rfl⟩ (.paid hp hpays 0)
      · simp only [hpays]
        exact .move hx hnone ⟨rfl, rfl, rfl, rfl, rfl, rfl⟩ (.givenUp hp (by simpa using hpays) 0)
    · cases h

private theorem kind_run {now : Time} (hx : s.sessions n = some x) (h : s.run n x now = some s') :
    Kind s (.run n now) s' := by
  cases hp : x.point with
  | claim =>
    have hnone : x.point.owes = none := by rw [hp]; rfl
    simp only [run, hp, claimEvent] at h
    split at h
    · split at h
      · obtain rfl := Option.some.inj h
        exact .quit hx hnone (.close s n)
      · split at h
        · obtain rfl := Option.some.inj h
          exact .move hx hnone ⟨rfl, rfl, rfl, rfl, rfl, rfl⟩ (.claimed 0)
        · cases h
    · cases h
  | load =>
    have hnone : x.point.owes = none := by rw [hp]; rfl
    simp only [run, hp, Option.some.injEq] at h
    subst h
    cases hd : x.task.decide (x.task.order.bind s.db.orderById) with
    | quit => exact .quit hx hnone (.close s n)
    | finish after => exact .move hx hnone (.goto s n x _) (.finish hp hd 0)
    | swap o => exact .move hx hnone (.goto s n x _) (.read hp hd 0)
  | swap o =>
    simp only [run, hp] at h
    exact kind_swap hx hp h
  | confirm o =>
    have hnone : x.point.owes = none := by rw [hp]; rfl
    simp only [run, hp, Option.some.injEq, confirm] at h
    subst h
    split
    · exact .quit hx hnone (.close s n)
    · exact .quit hx hnone (.close s n)
    · refine .move hx hnone (.goto s n x _) ?_
      simpa using Moves.confirmed (s := s) hp [] 0
    · exact .move hx hnone ⟨rfl, rfl, rfl, rfl, rfl, rfl⟩ (.confirmed hp _ 0)
  | commit after =>
    simp only [run, hp, Option.some.injEq] at h
    subst h
    exact .commit hx hp
  | release o row =>
    have hnone : x.point.owes = none := by rw [hp]; rfl
    simp only [run, hp, Option.some.injEq, readHold] at h
    subst h
    split
    · exact .move hx hnone (.goto s n x _) (.drop hp 0)
    · exact kind_released hx hnone rfl rfl rfl rfl rfl rfl row
  | drop o row =>
    have hnone : x.point.owes = none := by rw [hp]; rfl
    simp only [run, hp, Option.some.injEq] at h
    subst h
    refine kind_released hx hnone ?_ ?_ ?_ ?_ ?_ ?_ row <;> rfl
  | finish row =>
    have hnone : x.point.owes = none := by rw [hp]; rfl
    simp only [run, hp, Option.some.injEq] at h
    subst h
    exact .quit hx hnone ⟨rfl, rfl, rfl, rfl, rfl, rfl⟩
  | refund r =>
    simp only [run, hp, Option.some.injEq] at h
    subst h
    exact .announce hx hp
  | refunding r accepted =>
    simp only [run, hp] at h
    split at h
    · rename_i hacc
      obtain rfl := Option.some.inj h
      exact .answer hx (hacc ▸ hp)
    · cases h

/-- Every step is of one of the kinds. -/
theorem kind_of_step {a : TxAct} (h : s.step t a = some s') : Kind s a s' := by
  cases a with
  | persist intent id fk =>
    simp only [step] at h
    split at h
    · obtain ⟨db, hdb, rfl⟩ := Option.map_eq_some_iff.1 h
      exact .persist hdb
    · cases h
  | start n task => exact kind_start h
  | run n now =>
    obtain ⟨x, hx, h⟩ := Option.bind_eq_some_iff.1 h
    exact kind_run hx h
  | acceptRefund n =>
    obtain ⟨x, hx, h⟩ := Option.bind_eq_some_iff.1 h
    unfold acceptRefund at h
    split at h
    · rename_i r hp
      obtain rfl := Option.some.inj h
      exact .accept hx hp
    · cases h
  | failRefund n =>
    obtain ⟨x, hx, h⟩ := Option.bind_eq_some_iff.1 h
    unfold failRefund at h
    split at h
    · rename_i r accepted hp
      obtain rfl := Option.some.inj h
      exact .fail hx hp
    · cases h
  | wait n ms =>
    obtain ⟨x, hx, h⟩ := Option.bind_eq_some_iff.1 h
    split at h
    · obtain rfl := Option.some.inj h
      exact .wait hx _ _
    · cases h
  | crash n =>
    obtain rfl := Option.some.inj h
    exact .crash
  | timeOut n =>
    obtain ⟨x, hx, h⟩ := Option.bind_eq_some_iff.1 h
    split at h
    · obtain rfl := Option.some.inj h
      exact .timeOut
    · cases h

theorem Consistent.advances {a : TxAct} (hs : s.Consistent) (h : Kind s a s') : s.db.Advances s'.db := by
  cases h with
  | persist h => exact .insertIntent h
  | start _ ho => exact .of_orders ho.orders
  | quit _ _ ho => exact .of_orders ho.orders
  | move _ _ ho => exact .of_orders ho.orders
  | @commit _ _ _ after hx hp =>
    have hadv := (hs.publishes hx hp).advances
    cases after <;> exact hadv
  | _ => exact .refl _

/-! ### Payments and their orders -/

section Payments

variable {intentOf : OrderId → PaymentIntentId}

/-- The event is about the payment intent of an order and has captured the total of that order. -/
def Matching (intentOf : OrderId → PaymentIntentId) (db : Db) (event : StripeEvent) : Prop :=
  ∃ id ∈ event.intent.orderId, event.intent.id = intentOf id ∧
    ∃ o ∈ db.orderById id, event.intent.captured = some o.totalPriceCents

instance (db : Db) (event : StripeEvent) : Decidable (Matching intentOf db event) := by
  unfold Matching
  infer_instance

theorem Matching.advance {db db' : Db} {event : StripeEvent} (h : Matching intentOf db event)
    (hadv : db.Advances db') :
    Matching intentOf db' event := by
  obtain ⟨id, hid, hint, o, ho, hcap⟩ := h
  obtain ⟨o', ho', htotal, -⟩ := hadv id o ho
  exact ⟨id, hid, hint, o', ho', htotal ▸ hcap⟩

/-- The refund of this intent is right: it belongs to an order that was given up. -/
def Refundable (intentOf : OrderId → PaymentIntentId) (db : Db) (intent : PaymentIntentId) : Prop :=
  ∃ id, intent = intentOf id ∧ db.Closed id

theorem Refundable.advance {db db' : Db} {intent : PaymentIntentId} (h : Refundable intentOf db intent)
    (hadv : db.Advances db') : Refundable intentOf db' intent := by
  obtain ⟨id, hint, hc⟩ := h
  exact ⟨id, hint, hadv.closed hc⟩

/-- What is right about a session that handles a payment, at the point it has reached. -/
structure PaymentOk (intentOf : OrderId → PaymentIntentId) (s : Backend) (x : Session) : Prop where
  matching : ∀ event, x.task.payment = some event → Matching intentOf s.db event
  pending : ∀ event o, x.task.payment = some event → x.point = .swap o → o.status = .pending
  /-- A handler that commits without a write and without a refund has seen its order CONFIRMED. -/
  seen : ∀ event, x.task.payment = some event → x.point = .commit .nothing → x.writes = [] →
    ∃ id, event.intent.orderId = some id ∧ s.db.Confirmed id
  pays : ∀ event o, x.task.payment = some event → x.point ≠ .commit (.release o)
  refund : ∀ r, x.point.owes = some r → Refundable intentOf s.db r.paymentIntent ∧
    ∀ event, x.task.event = some event → r.paymentIntent = event.intent.id
  accepted : ∀ r, x.point = .refunding r true → r.paymentIntent ∈ s.refunds

theorem PaymentOk.keep (h : PaymentOk intentOf s x) (hadv : s.db.Advances s'.db) (hsub : s.refunds ⊆ s'.refunds) :
    PaymentOk intentOf s' x where
  matching event he := (h.matching event he).advance hadv
  pending := h.pending
  seen event he hp hw := by
    obtain ⟨id, hid, hc⟩ := h.seen event he hp hw
    exact ⟨id, hid, hadv.confirmed hc⟩
  pays := h.pays
  refund r hr := ⟨(h.refund r hr).1.advance hadv, (h.refund r hr).2⟩
  accepted r hp := hsub (h.accepted r hp)

/-- At a point that is no swap, no commit and no refund only the event matters. -/
theorem PaymentOk.plain {y : Session} (hm : ∀ event, y.task.payment = some event → Matching intentOf s.db event)
    (hswap : ∀ o, y.point ≠ .swap o) (hcommit : ∀ after, y.point ≠ .commit after) (howes : y.point.owes = none) :
    PaymentOk intentOf s y where
  matching := hm
  pending event o _ hp := absurd hp (hswap o)
  seen event _ hp := absurd hp (hcommit _)
  pays event o _ := hcommit _
  refund r hr := by
    rw [howes] at hr
    cases hr
  accepted r hp := by
    rw [hp] at howes
    cases howes

/-- Refunds and handled payments agree with the committed orders. -/
structure MoneyInv (intentOf : OrderId → PaymentIntentId) (s : Backend) : Prop where
  consistent : s.Consistent
  session : ∀ n x, s.sessions n = some x → PaymentOk intentOf s x
  refunded : ∀ intent ∈ s.refunds, Refundable intentOf s.db intent
  handled : ∀ event ∈ s.handled, event.type = .succeeded → ∃ id, event.intent.orderId = some id ∧
    event.intent.id = intentOf id ∧ (event.intent.id ∈ s.refunds ∨ s.db.Confirmed id)

/-- The rule for a step of session `n`. -/
theorem MoneyInv.next (hi : MoneyInv intentOf s) (hc : s'.Consistent) (hadv : s.db.Advances s'.db)
    {y : Option Session}
    (hsess : s'.sessions = Function.update s.sessions n y) (hy : ∀ z, y = some z → PaymentOk intentOf s' z)
    (hsub : s.refunds ⊆ s'.refunds)
    (href : ∀ intent ∈ s'.refunds, intent ∈ s.refunds ∨ Refundable intentOf s'.db intent)
    (hhandled : ∀ event ∈ s'.handled, event ∈ s.handled ∨ (event.type = .succeeded → ∃ id,
      event.intent.orderId = some id ∧ event.intent.id = intentOf id ∧
        (event.intent.id ∈ s'.refunds ∨ s'.db.Confirmed id))) : MoneyInv intentOf s' where
  consistent := hc
  session m z hz := by
    rw [hsess] at hz
    by_cases hm : m = n
    · subst hm
      rw [Function.update_self] at hz
      exact hy z hz
    · rw [Function.update_of_ne hm] at hz
      exact (hi.session m z hz).keep hadv hsub
  refunded intent hmem := by
    rcases href intent hmem with hold | hnew
    · exact (hi.refunded intent hold).advance hadv
    · exact hnew
  handled event hmem htype := by
    rcases hhandled event hmem with hold | hnew
    · obtain ⟨id, hid, hint, hor⟩ := hi.handled event hold htype
      exact ⟨id, hid, hint, hor.imp (fun h => hsub h) hadv.confirmed⟩
    · exact hnew htype

/-- The rule for a step that changes one session only. -/
theorem MoneyInv.only (hi : MoneyInv intentOf s) (hc : s'.Consistent) {y : Option Session} (ho : Only s s' n y)
    (hy : ∀ z, y = some z → PaymentOk intentOf s z) : MoneyInv intentOf s' := by
  have hadv : s.db.Advances s'.db := .of_orders ho.orders
  refine hi.next hc hadv ho.sessions (fun z hz => (hy z hz).keep hadv ?_) ?_ ?_ ?_
  · rw [ho.refunds]
    exact fun _ h => h
  · rw [ho.refunds]
    exact fun _ h => h
  · rw [ho.refunds]
    exact fun _ h => .inl h
  · rw [ho.handled]
    exact fun _ h => .inl h

/-- Every succeeded event that is delivered is about the intent of an order and has captured its total. -/
def DeliveriesMatch (intentOf : OrderId → PaymentIntentId) (s : Backend) : TxAct → Prop
  | .start _ task => ∀ event ∈ task.payment, Matching intentOf s.db event
  | _ => True

instance (s : Backend) : DecidablePred (DeliveriesMatch intentOf s) := fun a => by
  cases a <;> unfold DeliveriesMatch <;> infer_instance

/-- A payment handler that comes to its compare-and-swap does not find the order paid by someone else. -/
def NotPaidMeanwhile (s : Backend) : TxAct → Prop
  | .run n _ => ∀ x ∈ s.sessions n, x.task.payment.isSome → ∀ o ∈ x.point.swapping, ∀ row ∈ s.db.orderById o.id,
      row.status ≠ .paid ∧ row.status ≠ .confirmed
  | _ => True

instance (s : Backend) : DecidablePred (NotPaidMeanwhile s) := fun a => by
  cases a <;> unfold NotPaidMeanwhile <;> infer_instance

/-- The order a payment handler is about. -/
private theorem MoneyInv.order (hi : MoneyInv intentOf s) (hx : s.sessions n = some x) {event : StripeEvent}
    (he : x.task.payment = some event) :
    ∃ o, event.intent.orderId = some o.id ∧ x.task.order = some o.id ∧ event.intent.id = intentOf o.id ∧
      s.db.orderById o.id = some o ∧ event.intent.captured = some o.totalPriceCents := by
  obtain ⟨id, hid, hint, o, ho, hcap⟩ := (hi.session n x hx).matching event he
  obtain rfl := (orderById_eq_some ho).2
  refine ⟨o, hid, ?_, hint, ho, hcap⟩
  rw [(Task.payment_eq_some.1 he).1]
  exact hid

/-- The decision on the order that was read. -/
private theorem MoneyInv.decided (hi : MoneyInv intentOf s) (hx : s.sessions n = some x) {after : After}
    (hd : x.task.decide (x.task.order.bind s.db.orderById) = .finish after) (waited : Nat) :
    PaymentOk intentOf s { x with point := .commit after, waited } := by
  have hbranch : ∀ event, x.task.payment = some event → ∃ o, event.intent.orderId = some o.id ∧
      event.intent.id = intentOf o.id ∧ s.db.orderById o.id = some o ∧
      ((after = .nothing ∧ (o.status = .paid ∨ o.status = .confirmed)) ∨
        (∃ reason, after = .refund ⟨event.intent.id, reason⟩) ∧ o.status.held = false) := by
    intro event he
    obtain ⟨o, hid, htask, hint, ho, hcap⟩ := hi.order hx he
    obtain ⟨hweb, htype⟩ := Task.payment_eq_some.1 he
    rw [htask, Option.bind_some, ho, hweb] at hd
    simp only [Task.decide, htype] at hd
    exact ⟨o, hid, hint, ho, handlePaymentSucceeded_finish hcap hd⟩
  refine
    { matching := (hi.session n x hx).matching
      pending := fun event o _ hp => by cases hp
      seen := fun event he hp _ => ?_
      pays := fun event o he hp => ?_
      refund := fun r hr => ?_
      accepted := fun r hp => by cases hp }
  · obtain ⟨o, hid, -, ho, ⟨-, hst⟩ | ⟨⟨reason, rfl⟩, -⟩⟩ := hbranch event he
    · exact ⟨o.id, hid, o, ho, hst.resolve_left (hi.consistent.settled o (orderById_eq_some ho).1)⟩
    · cases hp
  · cases hp
    exact Task.decide_ne_release _ _ _ hd
  · cases after with
    | refund r' =>
      obtain rfl := Option.some.inj hr
      obtain ⟨event, he⟩ := Task.decide_refund hd
      obtain ⟨o, -, hint, ho, ⟨hEq, -⟩ | ⟨⟨reason, hEq⟩, hheld⟩⟩ := hbranch event he
      · cases hEq
      · cases hEq
        refine ⟨⟨o.id, hint, o, ho, hheld⟩, fun event' he' => ?_⟩
        rw [(Task.payment_eq_some.1 he).1] at he'
        rw [Option.some.inj he']
    | _ => cases hr

/-- The decision after a lost compare-and-swap. -/
private theorem MoneyInv.lost (hi : MoneyInv intentOf s) (hx : s.sessions n = some x) {now now' : Time} {o : Order}
    {after : After} (hC : NotPaidMeanwhile s (.run n now')) (hp : x.point = .swap o)
    (hs : x.task.swap s.db o now = .lost) (hd : x.task.onLost o = .finish after) (waited : Nat) :
    PaymentOk intentOf s { x with point := .commit after, waited } := by
  have hok := hi.consistent.session n x hx
  simp only [SessionOk, hp] at hok
  have hrefund : ∀ event, x.task.payment = some event →
      after = .refund ⟨event.intent.id, refundReasonLost o.id⟩ ∧ Refundable intentOf s.db event.intent.id := by
    intro event he
    obtain ⟨row, -, htask, hint, ho, -⟩ := hi.order hx he
    obtain ⟨hweb, htype⟩ := Task.payment_eq_some.1 he
    have hid : row.id = o.id := Option.some.inj (htask.symm.trans hok.2)
    rw [hid] at hint ho
    have hpend := (hi.session n x hx).pending event o he hp
    have hnot := hC x hx (by rw [he]; rfl) o (by rw [hp]; rfl) row ho
    rw [hweb] at hs hd
    simp only [Task.swap, htype, if_true] at hs
    simp only [Task.onLost, htype, if_true, Decision.finish.injEq] at hd
    have hmoved := markPaid_lost hs ho
    refine ⟨hd.symm, o.id, hint, row, ho, ?_⟩
    rw [hpend] at hmoved
    cases hst : row.status <;> simp [hst, OrderStatus.held] at hmoved hnot ⊢
  refine
    { matching := (hi.session n x hx).matching
      pending := fun event o _ hp => by cases hp
      seen := fun event he hp' _ => ?_
      pays := fun event o' he hp' => ?_
      refund := fun r hr => ?_
      accepted := fun r hp => by cases hp }
  · rw [(hrefund event he).1] at hp'
    cases hp'
  · rw [(hrefund event he).1] at hp'
    cases hp'
  · cases after with
    | refund r' =>
      obtain rfl := Option.some.inj hr
      obtain ⟨event, he⟩ := Task.onLost_refund hd
      obtain ⟨hEq, hright⟩ := hrefund event he
      cases hEq
      refine ⟨hright, fun event' he' => ?_⟩
      rw [(Task.payment_eq_some.1 he).1] at he'
      rw [Option.some.inj he']
    | _ => cases hr

private theorem MoneyInv.move (hi : MoneyInv intentOf s) (hx : s.sessions n = some x) {y : Session} {now : Time}
    (hC : NotPaidMeanwhile s (.run n now)) (hm : Moves s x y) : PaymentOk intentOf s y := by
  have hmatch := (hi.session n x hx).matching
  cases hm with
  | finish hp hd waited => exact hi.decided hx hd waited
  | lost hp hs hd waited => exact hi.lost hx hC hp hs hd waited
  | @read o hp hd waited =>
    refine
      { matching := hmatch
        pending := fun event o' he hp' => ?_
        seen := fun event _ hp => by cases hp
        pays := fun event o _ hp => by cases hp
        refund := fun r hr => by cases hr
        accepted := fun r hp => by cases hp }
    cases hp'
    obtain ⟨row, -, htask, -, ho, -⟩ := hi.order hx he
    obtain ⟨hweb, htype⟩ := Task.payment_eq_some.1 he
    rw [htask, Option.bind_some, ho, hweb] at hd
    simp only [Task.decide, htype] at hd
    exact handlePaymentSucceeded_swap hd
  | givenUp hp hpays waited =>
    refine
      { matching := hmatch
        pending := fun event o _ hp => by cases hp
        seen := fun event _ hp => by cases hp
        pays := fun event o he => ?_
        refund := fun r hr => by cases hr
        accepted := fun r hp => by cases hp }
    rw [Task.pays_of_payment he] at hpays
    cases hpays
  | @confirmed o hp ws waited =>
    refine
      { matching := hmatch
        pending := fun event o _ hp => by cases hp
        seen := fun event _ _ hw => ?_
        pays := fun event o _ hp => by cases hp
        refund := fun r hr => by cases hr
        accepted := fun r hp => by cases hp }
    -- the transaction has written PAID
    have hok := hi.consistent.session n x hx
    simp only [SessionOk, hp] at hok
    obtain ⟨row, ho, hpath⟩ := hok.1.path
    rw [(List.append_eq_nil_iff.1 hw).1] at hpath
    have hst := hpath.status_of_nil
    exact absurd hst.symm (hi.consistent.settled row (orderById_eq_some ho).1)
  | claimed waited => exact .plain hmatch (fun _ h => by cases h) (fun _ h => by cases h) rfl
  | paid hp hpays waited => exact .plain hmatch (fun _ h => by cases h) (fun _ h => by cases h) rfl
  | drop hp waited => exact .plain hmatch (fun _ h => by cases h) (fun _ h => by cases h) rfl
  | released waited => exact .plain hmatch (fun _ h => by cases h) (fun _ h => by cases h) rfl

/-- A payment that is committed without a refund has its order CONFIRMED. -/
private theorem MoneyInv.confirmed (hi : MoneyInv intentOf s) (hx : s.sessions n = some x) {event : StripeEvent}
    (he : x.task.payment = some event) (hp : x.point = .commit .nothing) :
    ∃ id, event.intent.orderId = some id ∧ event.intent.id = intentOf id ∧ (s.db.written x.writes).Confirmed id := by
  have hok := hi.consistent.session n x hx
  obtain ⟨o, hid, htask, hint, ho, -⟩ := hi.order hx he
  refine ⟨o.id, hid, hint, ?_⟩
  simp only [SessionOk, hp] at hok
  rcases hok with hw | ⟨id, htask', hd⟩
  · obtain ⟨id, hid', hc⟩ := (hi.session n x hx).seen event he hp hw
    obtain rfl := Option.some.inj (hid'.symm.trans hid)
    exact (hi.consistent.publishes hx hp).advances.confirmed hc
  · obtain rfl := Option.some.inj (htask'.symm.trans htask)
    exact hd.orderById_written

private theorem of_mem_handled_commit {after : After} {event : StripeEvent}
    (h : event ∈ (s.commit n x after).handled) :
    event ∈ s.handled ∨ x.task.event = some event ∧ ∀ r, after ≠ .refund r := by
  have hpub : (s.commit n x after).handled = (s.publish n x after).handled := by cases after <;> rfl
  rw [hpub] at h
  simp only [Backend.publish] at h
  split at h
  · exact .inl h
  · rename_i event' he hne
    rcases List.mem_append.1 h with h | h
    · exact .inl h
    · rw [List.mem_singleton.1 h]
      exact .inr ⟨he, hne⟩
  · exact .inl h

private theorem MoneyInv.commit (hi : MoneyInv intentOf s) (hx : s.sessions n = some x) {after : After}
    (hp : x.point = .commit after) : MoneyInv intentOf (s.commit n x after) := by
  have hc := hi.consistent.commit hx hp
  have hadv := (hi.consistent.publishes hx hp).advances
  have hok := hi.session n x hx
  have hevent : ∀ event, x.task.event = some event → event.type = .succeeded → x.task.payment = some event := by
    intro event he htype
    rw [Task.payment, he]
    simp [Option.filter, htype]
  cases after with
  | nothing =>
    refine hi.next hc hadv (y := none) rfl (fun z hz => by cases hz) (fun _ h => h)
      (fun _ h => .inl h) fun event hmem => ?_
    refine (of_mem_handled_commit hmem).imp id fun ⟨he, _⟩ htype => ?_
    obtain ⟨id, hid, hint, hconf⟩ := hi.confirmed hx (hevent event he htype) hp
    exact ⟨id, hid, hint, .inr hconf⟩
  | release o =>
    refine hi.next hc hadv (y := some _) rfl (fun z hz => ?_) (fun _ h => h) (fun _ h => .inl h) fun event hmem => ?_
    · cases hz
      exact .plain (fun event he => (hok.matching event he).advance hadv) (fun _ h => by cases h)
        (fun _ h => by cases h) rfl
    · refine (of_mem_handled_commit hmem).imp id fun ⟨he, _⟩ htype => ?_
      exact absurd hp (hok.pays event o (hevent event he htype))
  | refund r =>
    refine hi.next hc hadv (y := some _) rfl (fun z hz => ?_) (fun _ h => h) (fun _ h => .inl h) fun event hmem => ?_
    · cases hz
      obtain ⟨hright, hsame⟩ := hok.refund r (by rw [hp]; rfl)
      exact
        { matching := fun event he => (hok.matching event he).advance hadv
          pending := fun event o _ hp => by cases hp
          seen := fun event _ hp => by cases hp
          pays := fun event o _ hp => by cases hp
          refund := fun r' hr => by
            cases hr
            exact ⟨hright.advance hadv, hsame⟩
          accepted := fun r hp => by cases hp }
    · exact (of_mem_handled_commit hmem).imp id fun ⟨_, hne⟩ => absurd rfl (hne r)

theorem MoneyInv.step {a : TxAct} (hi : MoneyInv intentOf s) (hmatch : DeliveriesMatch intentOf s a)
    (hC : NotPaidMeanwhile s a) (h : s.step t a = some s') : MoneyInv intentOf s' := by
  have hc := hi.consistent.step h
  have hk := kind_of_step h
  have hadv := hi.consistent.advances hk
  cases hk with
  | persist hins =>
    exact
      { consistent := hc
        session := fun m z hz => (hi.session m z hz).keep hadv fun _ h => h
        refunded := fun intent hmem => (hi.refunded intent hmem).advance hadv
        handled := fun event hmem htype => by
          obtain ⟨id, hid, hint, hor⟩ := hi.handled event hmem htype
          exact ⟨id, hid, hint, hor.imp (fun h => h) hadv.confirmed⟩ }
  | start hfree ho htask hp =>
    refine hi.only hc ho fun z hz => ?_
    cases hz
    refine .plain (fun event he => hmatch event (htask ▸ he)) (fun o hEq => ?_) (fun after hEq => ?_) ?_
    · rcases hp with hp | hp | ⟨_, hp⟩ | ⟨_, _, hp⟩ <;> (rw [hp] at hEq; cases hEq)
    · rcases hp with hp | hp | ⟨_, hp⟩ | ⟨_, _, hp⟩ <;> (rw [hp] at hEq; cases hEq)
    · rcases hp with hp | hp | ⟨_, hp⟩ | ⟨_, _, hp⟩ <;> (rw [hp]; rfl)
  | quit hx hp ho => exact hi.only hc ho fun z hz => by cases hz
  | move hx hp ho hm =>
    refine hi.only hc ho fun z hz => ?_
    cases hz
    exact hi.move hx hC hm
  | commit hx hp => exact hi.commit hx hp
  | @announce n now x r hx hp =>
    have hok := hi.session n x hx
    refine hi.next hc hadv (y := some _) rfl (fun z hz => ?_) (fun _ h => h) (fun _ h => .inl h) fun _ h => .inl h
    cases hz
    exact
      { matching := hok.matching
        pending := fun event o _ hp => by cases hp
        seen := fun event _ hp => by cases hp
        pays := fun event o _ hp => by cases hp
        refund := fun r' hr => by
          cases hr
          exact hok.refund r (by rw [hp]; rfl)
        accepted := fun r hp => by cases hp }
  | @answer n now x r hx hp =>
    have hok := hi.session n x hx
    refine hi.next hc hadv (y := none) rfl (fun z hz => by cases hz) (fun _ h => h)
      (fun _ h => .inl h) fun event hmem => ?_
    refine (List.mem_append.1 hmem).imp id fun hmem htype => ?_
    have he : x.task.event = some event := Option.mem_toList.1 hmem
    have hpay : x.task.payment = some event := by
      rw [Task.payment, he]
      simp [Option.filter, htype]
    obtain ⟨o, hid, -, hint, -, -⟩ := hi.order hx hpay
    refine ⟨o.id, hid, hint, .inl ?_⟩
    rw [← (hok.refund r (by rw [hp]; rfl)).2 event he]
    exact hok.accepted r hp
  | @accept n x r hx hp =>
    have hok := hi.session n x hx
    have hright := hok.refund r (by rw [hp]; rfl)
    refine hi.next hc hadv (y := some _) rfl (fun z hz => ?_) (fun _ h => List.mem_append_left _ h)
      (fun intent hmem => ?_)
      fun _ h => .inl h
    · cases hz
      exact
        { matching := hok.matching
          pending := fun event o _ hp => by cases hp
          seen := fun event _ hp => by cases hp
          pays := fun event o _ hp => by cases hp
          refund := fun r' hr => by
            cases hr
            exact hright
          accepted := fun r' hp => by
            cases hp
            simp }
    · refine (List.mem_append.1 hmem).imp id fun hmem => ?_
      rw [List.mem_singleton.1 hmem]
      exact hright.1
  | fail hx hp =>
    exact hi.next hc hadv (y := none) rfl (fun z hz => by cases hz) (fun _ h => h)
      (fun _ h => .inl h) fun _ h => .inl h
  | @wait n ms x hx elapsed waited =>
    have hok := hi.session n x hx
    refine hi.next hc hadv (y := some _) rfl (fun z hz => ?_) (fun _ h => h) (fun _ h => .inl h) fun _ h => .inl h
    cases hz
    exact ⟨hok.matching, hok.pending, hok.seen, hok.pays, hok.refund, hok.accepted⟩
  | crash => exact hi.only hc (.close s _) fun z hz => by cases hz
  | timeOut => exact hi.only hc (.close s _) fun z hz => by cases hz

theorem MoneyInv.start (h : s.Start) : MoneyInv intentOf s where
  consistent := .start h
  session n x hx := by
    rw [h.sessions n] at hx
    cases hx
  refunded := by simp [h.refunds]
  handled := by simp [h.handled]

/-! ### Ticket or refund -/

/-- Order 7 is paid by intent 50. -/
def sampleIntent (id : OrderId) : PaymentIntentId := id + 43

/-- Two events of one payment: both handlers read the order as PENDING, the first confirms it, and the second
takes its lost compare-and-swap for an order that was given up. -/
def twoEvents : List TxAct :=
  [.persist twoSeats 7 true, .start 0 (.webhook (succeeded 900)), .run 0 1, .run 0 2,
    .start 1 (.webhook (succeeded 901)), .run 1 3, .run 1 4, .run 0 5, .run 0 6, .run 0 7, .run 1 8,
    .run 1 9, .run 1 10, .acceptRefund 1]

/-- The same person has the ticket and the refund. -/
theorem second_event_refunds_a_ticket :
    blank.Start ∧ Function.Injective sampleIntent ∧
      Exec.Along (step {}) (DeliveriesMatch sampleIntent) blank twoEvents ∧
      ∃ s, Exec.exec (step {}) blank twoEvents = some s ∧ sampleIntent 7 ∈ s.refunds ∧
        ∃ o, s.db.orderById 7 = some o ∧ o.status = .confirmed := by
  refine ⟨blank_start, fun a b h => Nat.add_right_cancel h, .of_check (by decide +kernel), ?_⟩
  obtain ⟨s, hs, hp⟩ := Exec.exec_any (step {}) blank twoEvents
    (fun s => sampleIntent 7 ∈ s.refunds ∧ ∃ o ∈ s.db.orderById 7, o.status = .confirmed) (by decide +kernel)
  rw [decide_eq_true_eq] at hp
  exact ⟨s, hs, hp⟩

/-- One intent for an order, its total captured: in every run in which no payment handler comes to its
compare-and-swap after the order was paid by someone else, an intent whose refund was accepted belongs to an
order that is neither PAID nor CONFIRMED, and once the handler of a succeeded event has run to its end the
intent is refunded or the order is CONFIRMED. -/
theorem ticket_or_refund (hinj : Function.Injective intentOf) {s₀ : Backend} {acts : List TxAct} (h₀ : s₀.Start)
    (hmatch : Exec.Along (Backend.step t) (DeliveriesMatch intentOf) s₀ acts)
    (hC : Exec.Along (Backend.step t) NotPaidMeanwhile s₀ acts) (h : Exec.exec (Backend.step t) s₀ acts = some s)
    (id : OrderId) :
    (intentOf id ∈ s.refunds → ∀ o, s.db.orderById id = some o → o.status ≠ .paid ∧ o.status ≠ .confirmed) ∧
      ∀ event ∈ s.handled, event.type = .succeeded → event.intent.orderId = some id →
        intentOf id ∈ s.refunds ∨ ∃ o, s.db.orderById id = some o ∧ o.status = .confirmed := by
  have hinv : MoneyInv intentOf s :=
    Exec.exec_invariant (fun _ _ _ hc hstep hi => hi.step hc.1 hc.2 hstep) (.start h₀) (hmatch.and hC) h
  constructor
  · intro hmem o ho
    obtain ⟨id', hint, o', ho', hheld⟩ := hinv.refunded _ hmem
    obtain rfl := hinj hint
    obtain rfl := Option.some.inj (ho.symm.trans ho')
    constructor <;> intro hst <;> (rw [hst] at hheld; cases hheld)
  · intro event hmem htype hid
    obtain ⟨id', hid', hint, hor⟩ := hinv.handled event hmem htype
    obtain rfl := Option.some.inj (hid.symm.trans hid')
    rw [← hint]
    exact hor

/-- The user cancels between the read and the compare-and-swap of the handler; the charge is refunded. -/
def cancelledPayment : List TxAct :=
  [.persist twoSeats 7 true, .start 0 (.webhook (succeeded 900)), .run 0 1, .run 0 2,
    .start 1 (.cancel 7 1), .run 1 3,
    .run 1 4, .run 1 5, .run 0 6, .run 0 7, .run 0 8, .acceptRefund 0, .run 0 9]

theorem ticket_or_refund_cancelled :
    ∃ s, Exec.exec (step {}) blank cancelledPayment = some s ∧ sampleIntent 7 ∈ s.refunds ∧
      succeeded 900 ∈ s.handled ∧
      ∀ o, s.db.orderById 7 = some o → o.status ≠ .paid ∧ o.status ≠ .confirmed := by
  obtain ⟨s, hs, hp⟩ := Exec.exec_any (step {}) blank cancelledPayment
    (fun s => sampleIntent 7 ∈ s.refunds ∧ succeeded 900 ∈ s.handled) (by decide +kernel)
  rw [decide_eq_true_eq] at hp
  refine ⟨s, hs, hp.1, hp.2, ?_⟩
  have hinj : Function.Injective sampleIntent := fun a b h => Nat.add_right_cancel h
  exact (ticket_or_refund hinj blank_start (.of_check (by decide +kernel))
    (.of_check (by decide +kernel)) hs 7).1 hp.1

end Payments

end Backend

end Ticketing
