import Ticketing.Payments

/-!
# Expiry under a live payment

Three parts of the code meet at the column `payment_provider_id`.  `create_order_payment_intent` reads the
status, has Stripe create the intent and commits its id; T1 (`expire_pending_orders`) takes the orders where
the column is NULL, T2 (`expire_abandoned_payments`) the others, and T2 asks Stripe to cancel the intent
first.  The transactions of both sweeps are sessions of `Backend`.

The column is written after the call of Stripe, and T1 does not look at it again once it has its list.  So T1
may expire an order whose intent is alive (`pending_sweep_expires_live_payment`), and only in two ways: the
intent exists before its id is committed, or it is created for an order that T1 has listed
(`no_expiry_under_live_payment`).

The age of an order is not part of the rows here: a sweep is given the orders that are older than its cutoff.
Amounts and client secrets are left out.
-/

namespace Ticketing

/-! ### Stripe -/

/-- `PaymentIntentStatus`. -/
inductive IntentStatus where
  | canceled
  | processing
  | requiresAction
  | requiresCapture
  | requiresConfirmation
  | requiresPaymentMethod
  | succeeded
deriving DecidableEq

/-- Stripe does not change these any more. -/
def IntentStatus.final : IntentStatus → Bool
  | canceled | succeeded => true
  | _ => false

/-- A PaymentIntent at Stripe; `reported` says that Stripe has told us that it is canceled. -/
structure StripeIntent where
  id : PaymentIntentId
  order : OrderId
  status : IntentStatus := .requiresPaymentMethod
  reported : Bool := false
deriving DecidableEq

/-- A call of `cancel_payment_intent` at Stripe, which may refuse.  A final intent stays what it is. -/
def StripeIntent.cancel (i : StripeIntent) (accept : Bool) : StripeIntent :=
  if i.status.final = false ∧ accept = true then { i with status := .canceled } else i

/-- Stripe answers with the status of the intent. -/
def StripeIntent.tell (i : StripeIntent) : StripeIntent :=
  { i with reported := i.reported || i.status = .canceled }

/-! ### Processes -/

/-- A running `create_order_payment_intent` that has read the order as PENDING; `intent` is the answer of Stripe. -/
structure Creation where
  order : OrderId
  intent : Option PaymentIntentId := none
deriving DecidableEq

/-- A running T1: the session it works in and the ids it has listed and not yet opened. -/
structure PendingPass where
  slot : Nat
  left : List OrderId
deriving DecidableEq

/-- A `_settle_one` of T2; `canceled` says that Stripe has answered so. -/
structure Settle where
  order : OrderId
  intent : PaymentIntentId
  canceled : Bool := false
deriving DecidableEq

structure Checkout where
  backend : Backend
  /-- The column `payment_provider_id`. -/
  providerId : OrderId → Option PaymentIntentId := fun _ => none
  intents : List StripeIntent := []
  /-- The answers that Stripe keeps for the idempotency keys `order-{id}`. -/
  keys : OrderId → Option PaymentIntentId := fun _ => none
  creations : Nat → Option Creation := fun _ => none
  passes : List PendingPass := []
  settles : List Settle := []

inductive CheckoutAct where
  /-- A step of a transaction; the sweeps start theirs by `nextPending` and `settle`. -/
  | backend (a : TxAct)
  /-- The endpoint reads the order. -/
  | check (c : Nat) (order : OrderId) (user : UserId)
  /-- Stripe handles the create call; `id` is the id of a new intent. -/
  | create (c : Nat) (id : PaymentIntentId)
  /-- The endpoint commits `payment_provider_id`. -/
  | record (c : Nat)
  /-- The endpoint stops. -/
  | drop (c : Nat)
  /-- T1 reads its list; `old` are the orders before the cutoff. -/
  | listPending (slot : Nat) (old : List OrderId)
  /-- T1 opens the transaction of its next order. -/
  | nextPending (slot : Nat)
  | endPending (slot : Nat)
  /-- T2 reads its list. -/
  | listAbandoned (old : List OrderId) (batch : Nat)
  /-- T2 has Stripe cancel the intent and branches on the answer. -/
  | cancelIntent (job : Settle) (accept : Bool)
  /-- T2 opens its transaction. -/
  | settle (n : Nat) (job : Settle)
  | giveUp (job : Settle)
  /-- The buyer or Stripe moves an intent on. -/
  | progress (intent : PaymentIntentId) (status : IntentStatus)
  /-- Stripe sends `payment_intent.canceled`, or answers the cancel endpoint so. -/
  | report (intent : PaymentIntentId)
  /-- Stripe forgets an old idempotency key. -/
  | forgetKey (order : OrderId)
deriving DecidableEq

/-- The transactions of the two sweeps. -/
def Task.sweeps : Task → Bool
  | expirePending _ | expireAbandoned _ => true
  | _ => false

/-- The session that an action starts, with its task. -/
def TxAct.started : TxAct → Option Task
  | .start _ task => some task
  | _ => none

namespace Checkout

/-- The `SELECT` of T1. -/
def pendingIds (s : Checkout) (old : List OrderId) : List OrderId :=
  (s.backend.db.orders.filter fun o => o.status = .pending ∧ s.providerId o.id = none ∧ o.id ∈ old).map Order.id

/-- The `SELECT` of T2; `old` are the orders before the cutoff, oldest first. -/
def abandonedRows (s : Checkout) (old : List OrderId) (batch : Nat) : List Settle :=
  (old.filterMap fun id =>
    ((s.backend.db.orderById id).filter fun o => o.status = .pending).bind fun o =>
      (s.providerId o.id).map fun intent => { order := o.id, intent }).take batch

def mapIntent (s : Checkout) (id : PaymentIntentId) (f : StripeIntent → StripeIntent) : Checkout :=
  { s with intents := s.intents.map fun i => if i.id = id then f i else i }

/-- `create_order_payment_intent` up to the call of Stripe: an order of the user that is PENDING. -/
def check (s : Checkout) (c : Nat) (id : OrderId) (user : UserId) : Option Checkout :=
  (s.backend.db.orderById id).bind fun o =>
    if (s.creations c).isNone ∧ o.user = user ∧ o.status = .pending then
      some { s with creations := Function.update s.creations c (some { order := id }) }
    else none

/-- Stripe answers a repeated key with the first intent and creates one for a new key. -/
def create (s : Checkout) (c : Nat) (job : Creation) (id : PaymentIntentId) : Option Checkout :=
  if job.intent.isSome then none
  else
    match s.keys job.order with
    | some old => some { s with creations := Function.update s.creations c (some { job with intent := some old }) }
    | none =>
      if s.intents.all fun i => i.id ≠ id then
        some { s with
          intents := s.intents ++ [{ id, order := job.order }]
          keys := Function.update s.keys job.order (some id)
          creations := Function.update s.creations c (some { job with intent := some id }) }
      else none

/-- The update of the order row, which waits for an open transaction that has written the row. -/
def record (s : Checkout) (c : Nat) (job : Creation) : Option Checkout :=
  job.intent.bind fun id =>
    if s.backend.rowLocks job.order = none then
      some { s with
        providerId := Function.update s.providerId job.order (some id)
        creations := Function.update s.creations c none }
    else none

/-- T2 on one row up to its transaction: the answer `canceled` goes on, every other answer ends it. -/
def cancelIntent (s : Checkout) (job : Settle) (accept : Bool) : Option Checkout :=
  if job ∈ s.settles ∧ job.canceled = false then
    let s := { s with settles := s.settles.erase job }
    match s.intents.find? fun i => i.id = job.intent with
    | none => some s
    | some i =>
      let s := s.mapIntent job.intent fun i => (i.cancel accept).tell
      if (i.cancel accept).status = .canceled then some
        { s with settles := { job with canceled := true } :: s.settles }
      else some s
  else none

def step (t : Timeouts) (s : Checkout) : CheckoutAct → Option Checkout
  | .backend a =>
    if a.started.any Task.sweeps then none else (s.backend.step t a).map fun backend => { s with backend }
  | .check c id user => s.check c id user
  | .create c id => (s.creations c).bind fun job => s.create c job id
  | .record c => (s.creations c).bind fun job => s.record c job
  | .drop c => some { s with creations := Function.update s.creations c none }
  | .listPending slot old =>
    if s.passes.all fun p => p.slot ≠ slot then
      some { s with passes := ⟨slot, s.pendingIds old⟩ :: s.passes }
    else none
  | .nextPending slot =>
    (s.passes.find? fun p => p.slot = slot).bind fun p =>
      match p.left with
      | [] => none
      | id :: rest =>
        (s.backend.start slot (.expirePending id)).map fun backend =>
          { s with backend, passes := s.passes.map fun p => if p.slot = slot then { p with left := rest } else p }
  | .endPending slot =>
    if s.backend.sessions slot = none then some { s with passes := s.passes.filter fun p => p.slot ≠ slot } else none
  | .listAbandoned old batch => some { s with settles := s.settles ++ s.abandonedRows old batch }
  | .cancelIntent job accept => s.cancelIntent job accept
  | .settle n job =>
    if job ∈ s.settles ∧ job.canceled = true then
      (s.backend.start n (.expireAbandoned job.order)).map fun backend =>
        { s with backend, settles := s.settles.erase job }
    else none
  | .giveUp job => some { s with settles := s.settles.erase job }
  | .progress id status => some (s.mapIntent id fun i => if i.status.final then i else { i with status })
  | .report id => some (s.mapIntent id StripeIntent.tell)
  | .forgetKey id => some { s with keys := Function.update s.keys id none }

/-- Empty tables and no intent at Stripe. -/
structure Start (s : Checkout) : Prop where
  backend : s.backend.Start
  providerId : ∀ id, s.providerId id = none
  intents : s.intents = []
  keys : ∀ id, s.keys id = none
  creations : ∀ c, s.creations c = none
  passes : s.passes = []
  settles : s.settles = []

end Checkout

/-! ### Transactions that give an order up -/

/-- The transaction of a session is not over. -/
def Point.isOpen : Point → Bool
  | .claim | .load | .swap _ | .confirm _ | .commit _ => true
  | .release .. | .drop .. | .finish _ | .refund _ | .refunding .. => false

/-- The order of this id is EXPIRED. -/
def Db.Expired (db : Db) (id : OrderId) : Prop := ∃ o, db.orderById id = some o ∧ o.status = .expired

namespace Backend

variable {t : Timeouts} {s s' : Backend} {n m : Nat} {x y : Session} {a : TxAct} {now : Time}

/-- A transaction that is over is not opened again. -/
private theorem isOpen_of_run (h : s.run n x now = some s') (hy : s'.sessions n = some y)
    (hopen : y.point.isOpen = true) : x.point.isOpen = true := by
  have hreleased : ∀ {s₁ : Backend} {row : Option OutboxId}, (s₁.released n x row).sessions n = some y → False := by
    intro s₁ row hrow
    cases row with
    | none =>
      simp only [released, close, Function.update_self] at hrow
      cases hrow
    | some row =>
      simp only [released, goto, set, Function.update_self, Option.some.injEq] at hrow
      subst hrow
      cases hopen
  cases hp : x.point with
  | release o row =>
    simp only [run, hp, readHold, Option.some.injEq] at h
    subst h
    split at hy
    · simp only [goto, set, Function.update_self, Option.some.injEq] at hy
      subst hy
      cases hopen
    · exact (hreleased hy).elim
  | drop o row =>
    simp only [run, hp, Option.some.injEq] at h
    subst h
    exact (hreleased hy).elim
  | finish row =>
    simp only [run, hp, Option.some.injEq] at h
    subst h
    simp only [close, Function.update_self] at hy
    cases hy
  | refund r =>
    simp only [run, hp, Option.some.injEq] at h
    subst h
    simp only [goto, set, Function.update_self, Option.some.injEq] at hy
    subst hy
    cases hopen
  | refunding r accepted =>
    simp only [run, hp] at h
    split at h
    · obtain rfl := Option.some.inj h
      simp only [close, Function.update_self] at hy
      cases hy
    · cases h
  | _ => rfl

private theorem Moves.task (h : Moves s x y) : y.task = x.task := by cases h <;> rfl

/-- A session after a step is the one that was there, further on, or one that the step has started. -/
theorem session_of_step (h : s.step t a = some s') (hy : s'.sessions m = some y) :
    (∃ x, s.sessions m = some x ∧ x.task = y.task ∧ (y.point.isOpen = true → x.point.isOpen = true)) ∨
      a = .start m y.task := by
  -- a step changes one session; the others stay as they are
  have hother : ∀ {n : Nat} {z : Option Session}, s'.sessions = Function.update s.sessions n z → m ≠ n →
      ∃ x, s.sessions m = some x ∧ x.task = y.task ∧ (y.point.isOpen = true → x.point.isOpen = true) := by
    intro n z hs hm
    rw [hs, Function.update_of_ne hm] at hy
    exact ⟨y, hy, rfl, id⟩
  have hself : ∀ {n : Nat} {z : Session}, s'.sessions = Function.update s.sessions n (some z) → m = n → z = y := by
    rintro n z hs rfl
    rw [hs, Function.update_self] at hy
    exact Option.some.inj hy
  have hgone : ∀ {n : Nat}, s'.sessions = Function.update s.sessions n none →
      ∃ x, s.sessions m = some x ∧ x.task = y.task ∧ (y.point.isOpen = true → x.point.isOpen = true) := by
    intro n hs
    by_cases hm : m = n
    · subst hm
      rw [hs, Function.update_self] at hy
      cases hy
    · exact hother hs hm
  have hkind := kind_of_step h
  cases hkind with
  | persist hins => exact .inl ⟨y, hy, rfl, id⟩
  | @start n task z _ hfree ho htask hp =>
    by_cases hm : m = n
    · obtain rfl := hself ho.sessions hm
      exact .inr (by rw [hm, htask])
    · exact .inl (hother ho.sessions hm)
  | quit hx hp ho => exact .inl (hgone ho.sessions)
  | @move n now x z _ hx hp ho hm' =>
    by_cases hm : m = n
    · obtain rfl := hself ho.sessions hm
      subst hm
      obtain ⟨x', hx', hrun⟩ := Option.bind_eq_some_iff.1 h
      obtain rfl := Option.some.inj (hx.symm.trans hx')
      exact .inl ⟨x, hx, hm'.task.symm, isOpen_of_run hrun hy⟩
    · exact .inl (hother ho.sessions hm)
  | @commit n now x after hx hp =>
    by_cases hm : m = n
    · subst hm
      refine .inl ⟨x, hx, ?_, fun _ => by rw [hp]; rfl⟩
      cases after with
      | nothing =>
        simp only [commit, close, Function.update_self] at hy
        cases hy
      | _ =>
        simp only [commit, goto, set, Function.update_self, Option.some.injEq] at hy
        subst hy
        rfl
    · cases after <;> exact .inl (hother rfl hm)
  | @announce n now x r hx hp =>
    by_cases hm : m = n
    · obtain rfl := hself rfl hm
      exact .inl ⟨x, hm ▸ hx, rfl, fun h => by cases h⟩
    · exact .inl (hother rfl hm)
  | answer hx hp => exact .inl (hgone rfl)
  | @accept n x r hx hp =>
    by_cases hm : m = n
    · obtain rfl := hself rfl hm
      exact .inl ⟨x, hm ▸ hx, rfl, fun h => by cases h⟩
    · exact .inl (hother rfl hm)
  | fail hx hp => exact .inl (hgone rfl)
  | @wait n ms x hx elapsed waited =>
    by_cases hm : m = n
    · obtain rfl := hself rfl hm
      exact .inl ⟨x, hm ▸ hx, rfl, id⟩
    · exact .inl (hother rfl hm)
  | crash => exact .inl (hgone rfl)
  | timeOut => exact .inl (hgone rfl)

/-- A session gives up the order it is about. -/
def Owns (s : Backend) : Prop :=
  ∀ n x order, s.sessions n = some x → x.point = .commit (.release order) → x.task.order = some order.id

private theorem refresh_id (o : Order) (view : Db) : (o.refresh view).id = o.id := by
  unfold Order.refresh
  cases h : view.orderById o.id with
  | none => rfl
  | some row => exact (orderById_eq_some h).2

private theorem order_of_swap {o order : Order} (hp : x.point = .swap o) (h : s.run n x now = some s')
    (hy : s'.sessions n = some y) (hyp : y.point = .commit (.release order)) : order.id = o.id := by
  simp only [run, hp, compareAndSwap] at h
  split at h
  · obtain rfl := Option.some.inj h
    simp only [close, Function.update_self] at hy
    cases hy
  · obtain rfl := Option.some.inj h
    simp only [close, Function.update_self] at hy
    cases hy
  · obtain rfl := Option.some.inj h
    cases hd : x.task.onLost o with
    | quit =>
      simp only [hd, follow, close, Function.update_self] at hy
      cases hy
    | finish after =>
      simp only [hd, follow, goto, set, Function.update_self, Option.some.injEq] at hy
      subst hy
      obtain rfl := Point.commit.inj hyp
      exact absurd hd (x.task.onLost_ne_release o order)
    | swap o' => exact absurd hd (x.task.onLost_ne_swap o o')
  · split at h
    · obtain rfl := Option.some.inj h
      simp only [goto, set, Function.update_self, Option.some.injEq] at hy
      subst hy
      simp only at hyp
      split at hyp
      · cases hyp
      · simp only [Point.commit.injEq, After.release.injEq] at hyp
        rw [← hyp]
        exact refresh_id o _
    · cases h

theorem Owns.step (hc : s.Consistent) (h : s.step t a = some s') (ho : s.Owns) : s'.Owns := by
  intro m y order hy hyp
  have hother : ∀ {n : Nat} {z : Option Session}, s'.sessions = Function.update s.sessions n z →
      (m = n → z = some y → y.task.order = some order.id) → y.task.order = some order.id := by
    intro n z hs hself
    rw [hs] at hy
    by_cases hm : m = n
    · subst hm
      rw [Function.update_self] at hy
      exact hself rfl hy
    · rw [Function.update_of_ne hm] at hy
      exact ho m y order hy hyp
  have hkind := kind_of_step h
  cases hkind with
  | persist hins => exact ho m y order hy hyp
  | start hfree hstart htask hp =>
    refine hother hstart.sessions fun _ hz => ?_
    obtain rfl := Option.some.inj hz
    rw [hyp] at hp
    simp at hp
  | quit hx hp hq => exact hother hq.sessions fun _ hz => by cases hz
  | @move n now x z _ hx hp hmv hmoves =>
    refine hother hmv.sessions fun hm hz => ?_
    subst hm
    obtain rfl := Option.some.inj hz
    obtain ⟨x', hx', hrun⟩ := Option.bind_eq_some_iff.1 h
    obtain rfl := Option.some.inj (hx.symm.trans hx')
    have hok := hc.session m x hx
    cases hmoves with
    | finish hp' hd =>
      obtain rfl := Point.commit.inj hyp
      exact absurd hd (x.task.decide_ne_release _ order)
    | lost hp' hs hd =>
      obtain rfl := Point.commit.inj hyp
      exact absurd hd (x.task.onLost_ne_release _ order)
    | @givenUp o fresh ws hp' hpays =>
      simp only [SessionOk, hp'] at hok
      rw [order_of_swap hp' hrun hy hyp]
      exact hok.2
    | _ => cases hyp
  | @commit n now x after hx hp =>
    cases after with
    | nothing => exact hother rfl fun _ hz => by cases hz
    | _ =>
      refine hother rfl fun _ hz => ?_
      obtain rfl := Option.some.inj hz
      cases hyp
  | announce hx hp =>
    refine hother rfl fun _ hz => ?_
    obtain rfl := Option.some.inj hz
    cases hyp
  | answer hx hp => exact hother rfl fun _ hz => by cases hz
  | accept hx hp =>
    refine hother rfl fun _ hz => ?_
    obtain rfl := Option.some.inj hz
    cases hyp
  | fail hx hp => exact hother rfl fun _ hz => by cases hz
  | @wait n ms x hx elapsed waited =>
    refine hother rfl fun _ hz => ?_
    obtain rfl := Option.some.inj hz
    exact ho n x order hx hyp
  | crash => exact hother rfl fun _ hz => by cases hz
  | timeOut => exact hother rfl fun _ hz => by cases hz

/-- The commit of a session expires no order but its own. -/
theorem expires_own {id : OrderId} (hc : s.Consistent) (ho : s.Owns) (hx : s.sessions n = some x)
    (h : s.step t (.run n now) = some s') (hbefore : ¬s.db.Expired id) (hafter : s'.db.Expired id) :
    x.task.order = some id ∧ x.point.isOpen = true := by
  have hsame : s'.db.orders = s.db.orders → False := by
    intro hEq
    refine hbefore ?_
    obtain ⟨o, hby, hst⟩ := hafter
    exact ⟨o, by rwa [Db.orderById, hEq] at hby, hst⟩
  have hkind := kind_of_step h
  cases hkind with
  | quit hx' hp hq => exact (hsame hq.orders).elim
  | move hx' hp hq hm => exact (hsame hq.orders).elim
  | @commit n now x' after hx' hp =>
    obtain rfl := Option.some.inj (hx.symm.trans hx')
    have hdb : (s.commit n x after).db = s.db.written x.writes := by cases after <;> rfl
    have hnil : x.writes = [] → False := by
      intro hws
      refine hsame ?_
      rw [hdb, hws]
      rfl
    have hdraft : ∀ {id' : OrderId} {status : OrderStatus}, s.Draft n x.writes id' status →
        id' = id ∧ status = .expired := by
      intro id' status hd
      obtain ⟨o, hby, hdraws⟩ := hd.path
      obtain ⟨o', hby', hst'⟩ := hafter
      obtain ⟨-, hid⟩ := orderById_eq_some hby
      subst hid
      obtain ⟨⟨o₁, ho₁, hst₁, -, -⟩, hothers⟩ := hdraws.orderById hby
      rw [hdb] at hby'
      by_cases hid : id = o.id
      · subst hid
        obtain rfl := Option.some.inj (ho₁.symm.trans hby')
        exact ⟨rfl, hst₁.symm.trans hst'⟩
      · rw [hothers id hid] at hby'
        exact (hbefore ⟨o', hby', hst'⟩).elim
    refine ⟨?_, by rw [hp]; rfl⟩
    have hok := hc.session n x hx
    cases after with
    | nothing =>
      simp only [SessionOk, hp] at hok
      rcases hok with hws | ⟨id', -, hd⟩
      · exact (hnil hws).elim
      · cases (hdraft hd).2
    | release order =>
      simp only [SessionOk, hp] at hok
      obtain ⟨status, hd, -⟩ := hok
      rw [← (hdraft hd).1]
      exact ho n x order hx hp
    | refund r =>
      simp only [SessionOk, hp] at hok
      exact (hnil hok).elim
  | announce hx' hp => exact (hsame rfl).elim
  | answer hx' hp => exact (hsame rfl).elim

end Backend

/-! ### The orders that may be expired -/

/-- T1 reads its list. -/
def CheckoutAct.lists : CheckoutAct → Option (List OrderId)
  | .listPending _ old => some old
  | _ => none

/-- Stripe handles the create call of this endpoint. -/
def CheckoutAct.creates : CheckoutAct → Option Nat
  | .create c _ => some c
  | _ => none

namespace Checkout

variable {t : Timeouts} {s s' : Checkout}

/-- Stripe has reported every intent of the order as canceled. -/
def Cleared (s : Checkout) (id : OrderId) : Prop := ∀ i ∈ s.intents, i.order = id → i.reported = true

instance (s : Checkout) : DecidablePred s.Cleared := fun id => by unfold Cleared; infer_instance

/-- Stripe has this intent of this order. -/
def Known (s : Checkout) (intent : PaymentIntentId) (order : OrderId) : Prop :=
  ∃ i ∈ s.intents, i.id = intent ∧ i.order = order

/-- T1 has the order on its list, or its transaction on the order is open. -/
def Expiring (s : Checkout) (p : PendingPass) (id : OrderId) : Prop :=
  id ∈ p.left ∨ ∃ x ∈ s.backend.sessions p.slot, x.task = .expirePending id ∧ x.point.isOpen = true

instance (s : Checkout) (p : PendingPass) (id : OrderId) : Decidable (s.Expiring p id) := by
  unfold Expiring
  infer_instance

/-- T1 lists an order only when all its intents are reported as canceled, and Stripe creates an intent only
for an order that has none and that T1 is not about to expire. -/
def SweepsApart (s : Checkout) (a : CheckoutAct) : Prop :=
  (∀ old ∈ a.lists, ∀ id ∈ s.pendingIds old, s.Cleared id) ∧
    ∀ c ∈ a.creates, ∀ job ∈ s.creations c, s.keys job.order = none →
      (∀ i ∈ s.intents, i.order ≠ job.order) ∧ ∀ p ∈ s.passes, ¬s.Expiring p job.order

instance (s : Checkout) : DecidablePred s.SweepsApart := fun a => by unfold SweepsApart; infer_instance

/-- A sweep turns an order EXPIRED that has an intent which Stripe has not reported as canceled. -/
def ExpiresLivePayment (s : Checkout) (a : CheckoutAct) (s' : Checkout) : Prop :=
  ∃ n now x id, a = .backend (.run n now) ∧ s.backend.sessions n = some x ∧ x.task.sweeps = true ∧
    ¬s.backend.db.Expired id ∧ s'.backend.db.Expired id ∧ ∃ i ∈ s.intents, i.order = id ∧ i.reported = false

structure SweepInv (s : Checkout) : Prop where
  consistent : s.backend.Consistent
  owns : s.backend.Owns
  single : ∀ i ∈ s.intents, ∀ j ∈ s.intents, i.order = j.order → i = j
  ids : ∀ i ∈ s.intents, ∀ j ∈ s.intents, i.id = j.id → i = j
  provider : ∀ id intent, s.providerId id = some intent → s.Known intent id
  key : ∀ id intent, s.keys id = some intent → s.Known intent id
  creation : ∀ c job intent, s.creations c = some job → job.intent = some intent → s.Known intent job.order
  settle : ∀ job ∈ s.settles, s.Known job.intent job.order ∧ (job.canceled = true → s.Cleared job.order)
  pass : ∀ p ∈ s.passes, ∀ id ∈ p.left, s.Cleared id
  session : ∀ n x id, s.backend.sessions n = some x → x.task.sweeps = true → x.task.order = some id →
    x.point.isOpen = true → s.Cleared id
  slot : ∀ n x id, s.backend.sessions n = some x → x.task = .expirePending id → ∃ p ∈ s.passes, p.slot = n
  abandoned : ∀ n x id, s.backend.sessions n = some x → x.task = .expireAbandoned id → ∃ i ∈ s.intents, i.order = id

theorem SweepInv.start (h : s.Start) : s.SweepInv where
  consistent := .start h.backend
  owns n x order hx _ := by
    rw [h.backend.sessions n] at hx
    cases hx
  single i hi := by
    rw [h.intents] at hi
    cases hi
  ids i hi := by
    rw [h.intents] at hi
    cases hi
  provider id intent hid := by
    rw [h.providerId id] at hid
    cases hid
  key id intent hid := by
    rw [h.keys id] at hid
    cases hid
  creation c job intent hc := by
    rw [h.creations c] at hc
    cases hc
  settle job hj := by
    rw [h.settles] at hj
    cases hj
  pass p hp := by
    rw [h.passes] at hp
    cases hp
  session n x id hx := by
    rw [h.backend.sessions n] at hx
    cases hx
  slot n x id hx := by
    rw [h.backend.sessions n] at hx
    cases hx
  abandoned n x id hx := by
    rw [h.backend.sessions n] at hx
    cases hx

/-! ### Steps -/

/-- A step of the transactions: the sessions go on, and a sweep starts one only where its order is cleared. -/
private theorem SweepInv.backend {b : Backend} {a : TxAct} (hi : s.SweepInv) (h : s.backend.step t a = some b)
    (hstart : ∀ n task, a = .start n task → task.sweeps = true →
      (∀ id, task.order = some id → s.Cleared id) ∧
      (∀ id, task = .expirePending id → ∃ p ∈ s.passes, p.slot = n) ∧
      ∀ id, task = .expireAbandoned id → ∃ i ∈ s.intents, i.order = id) : SweepInv { s with backend := b } where
  consistent := hi.consistent.step h
  owns := hi.owns.step hi.consistent h
  single := hi.single
  ids := hi.ids
  provider := hi.provider
  key := hi.key
  creation := hi.creation
  settle := hi.settle
  pass := hi.pass
  session n y id hy hsw hid hopen := by
    rcases Backend.session_of_step h hy with ⟨x, hx, htask, hop⟩ | ha
    · exact hi.session n x id hx (htask ▸ hsw) (htask ▸ hid) (hop hopen)
    · exact (hstart n y.task ha hsw).1 id hid
  slot n y id hy htask := by
    rcases Backend.session_of_step h hy with ⟨x, hx, hxy, -⟩ | ha
    · exact hi.slot n x id hx (hxy.trans htask)
    · exact (hstart n y.task ha (by rw [htask]; rfl)).2.1 id htask
  abandoned n y id hy htask := by
    rcases Backend.session_of_step h hy with ⟨x, hx, hxy, -⟩ | ha
    · exact hi.abandoned n x id hx (hxy.trans htask)
    · exact (hstart n y.task ha (by rw [htask]; rfl)).2.2 id htask

/-- An intent that changes keeps its id and its order, and a report is not taken back. -/
structure Moved (f : StripeIntent → StripeIntent) : Prop where
  id : ∀ i, (f i).id = i.id
  order : ∀ i, (f i).order = i.order
  reported : ∀ i, i.reported = true → (f i).reported = true

private theorem Moved.ite {f : StripeIntent → StripeIntent} (hf : Moved f) (id : PaymentIntentId) :
    Moved fun i => if i.id = id then f i else i where
  id i := by
    split
    · exact hf.id i
    · rfl
  order i := by
    split
    · exact hf.order i
    · rfl
  reported i hi := by
    split
    · exact hf.reported i hi
    · exact hi

private theorem Moved.tell : Moved StripeIntent.tell :=
  ⟨fun _ => rfl, fun _ => rfl, fun i hi => by simp [StripeIntent.tell, hi]⟩

private theorem Moved.cancel (accept : Bool) : Moved fun i => (i.cancel accept).tell where
  id i := by
    unfold StripeIntent.tell StripeIntent.cancel
    split <;> rfl
  order i := by
    unfold StripeIntent.tell StripeIntent.cancel
    split <;> rfl
  reported i hi := by
    unfold StripeIntent.tell StripeIntent.cancel
    split <;> simp [hi]

private theorem Moved.progress (status : IntentStatus) :
    Moved fun i => if i.status.final then i else { i with status } where
  id i := by
    split <;> rfl
  order i := by
    split <;> rfl
  reported i hi := by
    split <;> exact hi

section Map

variable {f : StripeIntent → StripeIntent} {id : PaymentIntentId}

private theorem mem_mapIntent (hf : Moved f) {j : StripeIntent} (hj : j ∈ (s.mapIntent id f).intents) :
    ∃ i ∈ s.intents, j.id = i.id ∧ j.order = i.order ∧ (i.reported = true → j.reported = true) ∧
      j = if i.id = id then f i else i := by
  obtain ⟨i, hi, rfl⟩ := List.mem_map.1 hj
  exact ⟨i, hi, (hf.ite id).id i, (hf.ite id).order i, (hf.ite id).reported i, rfl⟩

private theorem Known.mapIntent (hf : Moved f) {intent : PaymentIntentId} {order : OrderId}
    (h : s.Known intent order) :
    (s.mapIntent id f).Known intent order := by
  obtain ⟨i, hi, hid, ho⟩ := h
  exact ⟨_, List.mem_map_of_mem hi, ((hf.ite id).id i).trans hid, ((hf.ite id).order i).trans ho⟩

private theorem Cleared.mapIntent (hf : Moved f) {order : OrderId} (h : s.Cleared order) :
    (s.mapIntent id f).Cleared order := by
  intro j hj ho
  obtain ⟨i, hi, -, hord, hrep, -⟩ := mem_mapIntent hf hj
  exact hrep (h i hi (hord.symm.trans ho))

private theorem SweepInv.mapIntent (hf : Moved f) (hi : s.SweepInv) : (s.mapIntent id f).SweepInv where
  consistent := hi.consistent
  owns := hi.owns
  single j hj j' hj' ho := by
    obtain ⟨i, him, -, hio, -, rfl⟩ := mem_mapIntent hf hj
    obtain ⟨i', him', -, hio', -, rfl⟩ := mem_mapIntent hf hj'
    rw [hi.single i him i' him' (hio.symm.trans (ho.trans hio'))]
  ids j hj j' hj' ho := by
    obtain ⟨i, him, hii, -, -, rfl⟩ := mem_mapIntent hf hj
    obtain ⟨i', him', hii', -, -, rfl⟩ := mem_mapIntent hf hj'
    rw [hi.ids i him i' him' (hii.symm.trans (ho.trans hii'))]
  provider o intent h := (hi.provider o intent h).mapIntent hf
  key o intent h := (hi.key o intent h).mapIntent hf
  creation c job intent hc hj := (hi.creation c job intent hc hj).mapIntent hf
  settle job hj := ⟨(hi.settle job hj).1.mapIntent hf, fun hc => ((hi.settle job hj).2 hc).mapIntent hf⟩
  pass p hp o ho := (hi.pass p hp o ho).mapIntent hf
  session n x o hx hsw ho hopen := (hi.session n x o hx hsw ho hopen).mapIntent hf
  slot := hi.slot
  abandoned n x o hx htask := by
    obtain ⟨i, him, hio⟩ := hi.abandoned n x o hx htask
    exact ⟨_, List.mem_map_of_mem him, ((hf.ite id).order i).trans hio⟩

end Map

/-- A list in which a function tells the elements apart gets one more. -/
private theorem eq_of_mem_concat {α β : Type*} {f : α → β} {l : List α} {a : α}
    (hl : ∀ x ∈ l, ∀ y ∈ l, f x = f y → x = y)
    (ha : ∀ x ∈ l, f x ≠ f a) : ∀ x ∈ l ++ [a], ∀ y ∈ l ++ [a], f x = f y → x = y := by
  intro x hx y hy hxy
  rcases List.mem_append.1 hx with hx | hx <;> rcases List.mem_append.1 hy with hy | hy
  · exact hl x hx y hy hxy
  · rw [List.mem_singleton.1 hy] at hxy
    exact absurd hxy (ha x hx)
  · rw [List.mem_singleton.1 hx] at hxy
    exact absurd hxy.symm (ha y hy)
  · rw [List.mem_singleton.1 hx, List.mem_singleton.1 hy]

/-- A new intent is one of an order that no sweep counts as cleared. -/
private theorem SweepInv.create {c : Nat} {job : Creation} {id : PaymentIntentId} (hi : s.SweepInv)
    (hjob : s.creations c = some job) (hC : s.SweepsApart (.create c id)) (h : s.create c job id = some s') :
    s'.SweepInv := by
  unfold Checkout.create at h
  split at h
  · cases h
  · split at h
    · rename_i old hkey
      obtain rfl := Option.some.inj h
      refine { hi with creation := fun c' job' intent hc' hint => ?_ }
      by_cases hc : c' = c
      · subst hc
        simp only [Function.update_self, Option.some.injEq] at hc'
        subst hc'
        obtain rfl := Option.some.inj hint
        exact hi.key job.order old hkey
      · simp only [Function.update_of_ne hc] at hc'
        exact hi.creation c' job' intent hc' hint
    · rename_i hkey
      obtain ⟨hnone, hpasses⟩ := hC.2 c rfl job hjob hkey
      split at h
      · rename_i hfresh
        have hfresh' : ∀ i ∈ s.intents, i.id ≠ id := fun i him => by simpa using List.all_eq_true.1 hfresh i him
        obtain rfl := Option.some.inj h
        have hknown : ∀ {intent order}, s.Known intent order →
            Known { s with intents := s.intents ++ [{ id, order := job.order }] } intent order := by
          rintro intent order ⟨i, him, hid⟩
          exact ⟨i, List.mem_append_left _ him, hid⟩
        have hnew : Known { s with intents := s.intents ++ [{ id, order := job.order }] } id job.order :=
          ⟨_, List.mem_append_right _ (List.mem_singleton_self _), rfl, rfl⟩
        have hcleared : ∀ {order}, s.Cleared order → order ≠ job.order →
            Cleared { s with intents := s.intents ++ [{ id, order := job.order }] } order := by
          intro order hord hne i him hio
          rcases List.mem_append.1 him with him | him
          · exact hord i him hio
          · rw [List.mem_singleton.1 him] at hio
            exact absurd hio.symm hne
        refine
          { hi with
            single := eq_of_mem_concat hi.single hnone
            ids := eq_of_mem_concat hi.ids hfresh'
            provider := fun o intent ho => hknown (hi.provider o intent ho)
            key := fun o intent ho => ?_
            creation := fun c' job' intent hc' hint => ?_
            settle := fun j hj => ⟨hknown (hi.settle j hj).1, fun hcan => hcleared ((hi.settle j hj).2 hcan) ?_⟩
            pass := fun p hp o ho => hcleared (hi.pass p hp o ho) ?_
            session := fun n x o hx hsw ho hopen => hcleared (hi.session n x o hx hsw ho hopen) ?_
            abandoned := fun n x o hx htask => ?_ }
        · by_cases hord : o = job.order
          · subst hord
            simp only [Function.update_self, Option.some.injEq] at ho
            exact ho ▸ hnew
          · simp only [Function.update_of_ne hord] at ho
            exact hknown (hi.key o intent ho)
        · by_cases hc : c' = c
          · subst hc
            simp only [Function.update_self, Option.some.injEq] at hc'
            subst hc'
            exact Option.some.inj hint ▸ hnew
          · simp only [Function.update_of_ne hc] at hc'
            exact hknown (hi.creation c' job' intent hc' hint)
        · intro hEq
          obtain ⟨i, him, -, hio⟩ := (hi.settle j hj).1
          exact hnone i him (hio.trans hEq)
        · rintro rfl
          exact hpasses p hp (.inl ho)
        · rintro rfl
          cases htask : x.task with
          | expirePending id' =>
            rw [htask] at ho
            obtain rfl := Option.some.inj ho
            obtain ⟨p, hp, rfl⟩ := hi.slot n x _ hx htask
            exact hpasses p hp (.inr ⟨x, hx, htask, hopen⟩)
          | expireAbandoned id' =>
            rw [htask] at ho
            obtain rfl := Option.some.inj ho
            obtain ⟨i, him, hio⟩ := hi.abandoned n x _ hx htask
            exact hnone i him hio
          | _ =>
            rw [htask] at hsw
            cases hsw
        · obtain ⟨i, him, hio⟩ := hi.abandoned n x o hx htask
          exact ⟨i, List.mem_append_left _ him, hio⟩
      · cases h

/-- The answer `canceled` to T2 is about the only intent of the order. -/
private theorem SweepInv.cancelIntent {job : Settle} {accept : Bool} (hi : s.SweepInv)
    (h : s.cancelIntent job accept = some s') : s'.SweepInv := by
  unfold Checkout.cancelIntent at h
  split at h
  · rename_i hjob
    have hi₁ : SweepInv { s with settles := s.settles.erase job } :=
      { hi with settle := fun j hj => hi.settle j (List.mem_of_mem_erase hj) }
    simp only at h
    split at h
    · obtain rfl := Option.some.inj h
      exact hi₁
    · rename_i i hfind
      have him : i ∈ s.intents := List.mem_of_find?_eq_some hfind
      have hid : i.id = job.intent := by simpa using List.find?_some hfind
      have hi₂ : SweepInv (Checkout.mapIntent { s with settles := s.settles.erase job } job.intent _) :=
        hi₁.mapIntent (Moved.cancel accept)
      obtain ⟨i', him', hid', hio⟩ := (hi.settle job hjob.1).1
      obtain rfl := hi.ids i him i' him' (hid.trans hid'.symm)
      split at h
      · rename_i hcan
        obtain rfl := Option.some.inj h
        refine { hi₂ with settle := fun j hj => ?_ }
        rcases List.mem_cons.1 hj with rfl | hj
        · refine ⟨(hi.settle job hjob.1).1.mapIntent (Moved.cancel accept), fun _ j hj hjo => ?_⟩
          obtain ⟨i', hmem, -, hio', -, rfl⟩ := mem_mapIntent (Moved.cancel accept) hj
          obtain rfl := hi.single i him i' hmem (hio.trans (hjo.symm.trans hio'))
          simp [hid, StripeIntent.tell, hcan]
        · exact hi₂.settle j hj
      · obtain rfl := Option.some.inj h
        exact hi₂
  · cases h

private theorem known_of_abandoned {old : List OrderId} {batch : Nat} {job : Settle} (hi : s.SweepInv)
    (h : job ∈ s.abandonedRows old batch) : s.Known job.intent job.order ∧ job.canceled = false := by
  obtain ⟨id, -, hjob⟩ := List.mem_filterMap.1 (List.mem_of_mem_take h)
  obtain ⟨o, -, hjob⟩ := Option.bind_eq_some_iff.1 hjob
  obtain ⟨intent, hprov, rfl⟩ := Option.map_eq_some_iff.1 hjob
  exact ⟨hi.provider o.id intent hprov, rfl⟩

/-- A recorded intent is one that the provider has for the order. -/
private theorem SweepInv.record {c : Nat} (h : s.step t (.record c) = some s') (hi : s.SweepInv) :
    s'.SweepInv := by
  obtain ⟨job, hjob, h⟩ := Option.bind_eq_some_iff.1 h
  obtain ⟨intent, hint, h⟩ := Option.bind_eq_some_iff.1 h
  split at h
  · obtain rfl := Option.some.inj h
    refine { hi with provider := fun id intent' hid => ?_, creation := fun c' job' intent' hc' hint' => ?_ }
    · by_cases hord : id = job.order
      · subst hord
        simp only [Function.update_self] at hid
        exact Option.some.inj hid ▸ hi.creation c job intent hjob hint
      · simp only [Function.update_of_ne hord] at hid
        exact hi.provider id intent' hid
    · by_cases hc : c' = c
      · subst hc
        simp only [Function.update_self] at hc'
        cases hc'
      · simp only [Function.update_of_ne hc] at hc'
        exact hi.creation c' job' intent' hc' hint'
  · cases h

/-- The pass starts on its next order, which is cleared. -/
private theorem SweepInv.nextPending {slot : Nat} (h : s.step t (.nextPending slot) = some s') (hi : s.SweepInv) :
    s'.SweepInv := by
  obtain ⟨p, hfind, h⟩ := Option.bind_eq_some_iff.1 h
  have hp : p ∈ s.passes := List.mem_of_find?_eq_some hfind
  have hslot : p.slot = slot := by simpa using List.find?_some hfind
  split at h
  · cases h
  · rename_i id rest hleft
    obtain ⟨b, hb, rfl⟩ := Option.map_eq_some_iff.1 h
    have hi₁ : SweepInv { s with backend := b } := by
      refine hi.backend (t := t) (a := .start slot (.expirePending id)) hb fun n task ha _ => ?_
      obtain ⟨rfl, rfl⟩ := TxAct.start.inj ha
      refine ⟨fun id' hid' => ?_, fun id' _ => ⟨p, hp, hslot⟩, fun id' htask => by cases htask⟩
      obtain rfl := Option.some.inj hid'
      exact hi.pass p hp id (by rw [hleft]; exact List.mem_cons_self ..)
    refine { hi₁ with pass := fun q hq id' hid' => ?_, slot := fun n x id' hx htask => ?_ }
    · obtain ⟨q', hq', rfl⟩ := List.mem_map.1 hq
      split at hid'
      · exact hi.pass p hp id' (by rw [hleft]; exact List.mem_cons_of_mem _ hid')
      · exact hi.pass q' hq' id' hid'
    · obtain ⟨q, hq, hslot'⟩ := hi₁.slot n x id' hx htask
      refine ⟨_, List.mem_map_of_mem hq, ?_⟩
      split
      · exact hslot'
      · exact hslot'

/-- A pass ends when its transaction has. -/
private theorem SweepInv.endPending {slot : Nat} (h : s.step t (.endPending slot) = some s') (hi : s.SweepInv) :
    s'.SweepInv := by
  simp only [Checkout.step] at h
  split at h
  · rename_i hnone
    obtain rfl := Option.some.inj h
    refine { hi with pass := fun p hp => ?_, slot := fun n x id hx htask => ?_ }
    · exact hi.pass p (List.mem_of_mem_filter hp)
    · obtain ⟨p, hp, hslot⟩ := hi.slot n x id hx htask
      refine ⟨p, List.mem_filter.2 ⟨hp, ?_⟩, hslot⟩
      have hne : n ≠ slot := by
        rintro rfl
        rw [hnone] at hx
        cases hx
      simpa [hslot] using hne
  · cases h

/-- The transaction of a settled job expires an order that is cleared. -/
private theorem SweepInv.settleJob {n : Nat} {job : Settle} (h : s.step t (.settle n job) = some s')
    (hi : s.SweepInv) :
    s'.SweepInv := by
  simp only [Checkout.step] at h
  split at h
  · rename_i hjob
    obtain ⟨b, hb, rfl⟩ := Option.map_eq_some_iff.1 h
    have hi₁ : SweepInv { s with backend := b } := by
      refine hi.backend (t := t) (a := .start n (.expireAbandoned job.order)) hb fun n' task ha _ => ?_
      obtain ⟨rfl, rfl⟩ := TxAct.start.inj ha
      refine ⟨fun id hid => ?_, fun id htask => (by cases htask), fun id htask => ?_⟩
      · exact Option.some.inj hid ▸ (hi.settle job hjob.1).2 hjob.2
      · obtain ⟨i, him, -, hio⟩ := (hi.settle job hjob.1).1
        exact ⟨i, him, hio.trans (Task.expireAbandoned.inj htask)⟩
    exact { hi₁ with settle := fun j hj => hi₁.settle j (List.mem_of_mem_erase hj) }
  · cases h

theorem SweepInv.step {a : CheckoutAct} (hC : s.SweepsApart a) (h : s.step t a = some s') (hi : s.SweepInv) :
    s'.SweepInv := by
  cases a with
  | backend a =>
    simp only [Checkout.step] at h
    split at h
    · cases h
    · rename_i hnot
      obtain ⟨b, hb, rfl⟩ := Option.map_eq_some_iff.1 h
      refine hi.backend hb fun n task ha hsw => ?_
      subst ha
      exact absurd (by simpa [TxAct.started] using hsw) hnot
  | check c id user =>
    obtain ⟨o, ho, h⟩ := Option.bind_eq_some_iff.1 h
    split at h
    · obtain rfl := Option.some.inj h
      refine { hi with creation := fun c' job intent hc' hint => ?_ }
      by_cases hc : c' = c
      · subst hc
        simp only [Function.update_self, Option.some.injEq] at hc'
        subst hc'
        cases hint
      · simp only [Function.update_of_ne hc] at hc'
        exact hi.creation c' job intent hc' hint
    · cases h
  | create c id =>
    obtain ⟨job, hjob, h⟩ := Option.bind_eq_some_iff.1 h
    exact hi.create hjob hC h
  | record c => exact .record h hi
  | drop c =>
    obtain rfl := Option.some.inj h
    refine { hi with creation := fun c' job intent hc' hint => ?_ }
    by_cases hc : c' = c
    · subst hc
      simp only [Function.update_self] at hc'
      cases hc'
    · simp only [Function.update_of_ne hc] at hc'
      exact hi.creation c' job intent hc' hint
  | listPending slot old =>
    simp only [Checkout.step] at h
    split at h
    · obtain rfl := Option.some.inj h
      refine { hi with pass := fun p hp id hid => ?_, slot := fun n x id hx htask => ?_ }
      · rcases List.mem_cons.1 hp with rfl | hp
        · exact hC.1 old rfl id hid
        · exact hi.pass p hp id hid
      · obtain ⟨p, hp, hslot⟩ := hi.slot n x id hx htask
        exact ⟨p, List.mem_cons_of_mem _ hp, hslot⟩
    · cases h
  | nextPending slot => exact .nextPending h hi
  | endPending slot => exact .endPending h hi
  | listAbandoned old batch =>
    obtain rfl := Option.some.inj h
    refine { hi with settle := fun job hj => ?_ }
    rcases List.mem_append.1 hj with hj | hj
    · exact hi.settle job hj
    · obtain ⟨hknown, hcan⟩ := known_of_abandoned hi hj
      exact ⟨hknown, fun hc => absurd (hcan.symm.trans hc) Bool.false_ne_true⟩
  | cancelIntent job accept => exact hi.cancelIntent h
  | settle n job => exact .settleJob h hi
  | giveUp job =>
    obtain rfl := Option.some.inj h
    exact { hi with settle := fun j hj => hi.settle j (List.mem_of_mem_erase hj) }
  | progress id status =>
    obtain rfl := Option.some.inj h
    exact hi.mapIntent (Moved.progress status)
  | report id =>
    obtain rfl := Option.some.inj h
    exact hi.mapIntent Moved.tell
  | forgetKey id =>
    obtain rfl := Option.some.inj h
    refine { hi with key := fun id' intent hid => ?_ }
    by_cases hord : id' = id
    · subst hord
      simp only [Function.update_self] at hid
      cases hid
    · simp only [Function.update_of_ne hord] at hid
      exact hi.key id' intent hid

/-- A sweep expires only orders that are cleared. -/
theorem SweepInv.not_expires {a : CheckoutAct} (hi : s.SweepInv) (h : s.step t a = some s') :
    ¬s.ExpiresLivePayment a s' := by
  rintro ⟨n, now, x, id, rfl, hx, hsw, hbefore, hafter, i, him, hio, hrep⟩
  simp only [Checkout.step, TxAct.started, Option.any_none] at h
  obtain ⟨b, hb, rfl⟩ := Option.map_eq_some_iff.1 h
  obtain ⟨hid, hopen⟩ := Backend.expires_own hi.consistent hi.owns hx hb hbefore hafter
  have hrep' := hi.session n x id hx hsw hid hopen i him hio
  rw [hrep] at hrep'
  cases hrep'

/-! ### The sweeps and the payment endpoint -/

/-- No order and no payment yet. -/
def noPayments : Checkout where
  backend := Backend.blank

theorem noPayments_start : noPayments.Start := by
  constructor
  case backend => exact Backend.blank_start
  all_goals intros; rfl

/-- T1 lists order 7, then its buyer opens the payment and the id of the intent is committed, then T1 goes on. -/
def latePayment : List CheckoutAct :=
  [.backend (.persist Backend.twoSeats 7 true), .listPending 0 [7], .check 0 7 1, .create 0 50, .record 0,
    .nextPending 0, .backend (.run 0 1), .backend (.run 0 2), .backend (.run 0 3)]

/-- Session 0 of a sweep expires order 7 while an intent of it is not reported. -/
private def expiresSeven (s : Checkout) (a : CheckoutAct) (s' : Checkout) : Bool :=
  a = .backend (.run 0 3) ∧ (∃ x ∈ s.backend.sessions 0, x.task.sweeps = true) ∧
    (∀ o ∈ s.backend.db.orderById 7, o.status ≠ .expired) ∧ (∃ o ∈ s'.backend.db.orderById 7, o.status = .expired) ∧
    ∃ i ∈ s.intents, i.order = 7 ∧ i.reported = false

theorem pending_sweep_expires_live_payment :
    noPayments.Start ∧ Exec.Occurs (step {}) ExpiresLivePayment noPayments latePayment := by
  refine ⟨noPayments_start, .of_check (p := expiresSeven) (fun s a s' h => ?_) (by decide +kernel)⟩
  obtain ⟨ha, ⟨x, hx, hsw⟩, hbefore, hafter, hi⟩ := of_decide_eq_true h
  exact ⟨0, 3, x, 7, ha, hx, hsw, fun ⟨o, ho, hst⟩ => hbefore o ho hst, hafter, hi⟩

/-- A sweep expires no order with a payment that may still go through, as long as T1 lists only orders whose
intents are all reported as canceled, and Stripe creates an intent only for an order that has none and that T1
is not about to expire. -/
theorem no_expiry_under_live_payment {acts : List CheckoutAct} (h₀ : s.Start)
    (hC : Exec.Along (step t) SweepsApart s acts) : ¬Exec.Occurs (step t) ExpiresLivePayment s acts :=
  hC.not_occurs (I := SweepInv) (fun _ _ _ hC hstep hi => hi.step hC hstep)
    (fun _ _ _ _ hstep hi => hi.not_expires hstep) (.start h₀)

/-- The payment of order 7 is given up and T2 expires the order; T1 leaves it alone and expires order 8. -/
def bothSweeps : List CheckoutAct :=
  [.backend (.persist Backend.twoSeats 7 true),
    .backend (.persist { Backend.twoSeats with key := 2, seat := some ⟨1, 2⟩ } 8 true),
    .check 0 7 1, .create 0 50, .record 0, .listPending 0 [7, 8], .listAbandoned [7, 8] 200,
    .cancelIntent { order := 7, intent := 50 } true, .settle 1 { order := 7, intent := 50, canceled := true },
    .nextPending 0, .backend (.run 1 1), .backend (.run 0 2), .backend (.run 1 3), .backend (.run 0 4),
    .backend (.run 1 5), .backend (.run 0 6)]

theorem no_expiry_under_live_payment_swept :
    ((Exec.exec (step {}) noPayments bothSweeps).any fun s =>
      s.backend.db.orders.map Order.status = [.expired, .expired]) = true ∧
      ¬Exec.Occurs (step {}) ExpiresLivePayment noPayments bothSweeps :=
  ⟨by decide +kernel, no_expiry_under_live_payment noPayments_start (.of_check (by decide +kernel))⟩

end Checkout

end Ticketing
