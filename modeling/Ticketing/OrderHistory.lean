import Mathlib.Data.List.Chain
import Ticketing.Ledger
import Ticketing.Transactions

/-!
# The history of an order

What the committed rows say about the life of an order, whatever the writers do: its statuses are a path of
`_VALID_TRANSITIONS`, its time stamps are those of the statuses it went through, it owes one release exactly
when it is expired or cancelled, and its seats are frozen when it is confirmed.

Everything here is about the rows and one `Db.transition` after the other (`Db.Recorded`); that the committed
transactions of the writers amount to such transitions is a matter of the sessions.
-/

namespace Ticketing

/-! ### Paths of statuses -/

namespace OrderStatus

/-- A list of statuses that goes along `_VALID_TRANSITIONS` from PENDING on. -/
structure IsHistory (past : List OrderStatus) : Prop where
  head : past.head? = some .pending
  path : past.IsChain fun a b => b ∈ a.validTransitions

theorem IsHistory.concat {past : List OrderStatus} {status new : OrderStatus} (h : IsHistory past)
    (hlast : past.getLast? = some status) (hnew : new ∈ status.validTransitions) : IsHistory (past ++ [new]) := by
  constructor
  · rw [List.head?_append, h.head]
    rfl
  · refine List.isChain_append.2 ⟨h.path, List.isChain_singleton _, ?_⟩
    intro a ha b hb
    rw [hlast, Option.mem_some_iff] at ha
    simp only [List.head?_cons, Option.mem_some_iff] at hb
    rw [← ha, ← hb]
    exact hnew

/-- A status without successors can only be the last one. -/
theorem IsHistory.last_of_final {past : List OrderStatus} (h : IsHistory past) {status : OrderStatus}
    (hmem : status ∈ past) (hfinal : status.validTransitions = []) : past.getLast? = some status := by
  obtain ⟨before, after, rfl⟩ := List.append_of_mem hmem
  have htail := (List.isChain_append.1 h.path).2.1
  cases after with
  | nil => simp
  | cons next rest =>
    have hnext := (List.isChain_cons_cons.1 htail).1
    rw [hfinal] at hnext
    cases hnext

/-- A status other than PENDING has a predecessor. -/
theorem IsHistory.exists_before {past : List OrderStatus} (h : IsHistory past) {status : OrderStatus}
    (hmem : status ∈ past) (hne : status ≠ .pending) : ∃ prev ∈ past, status ∈ prev.validTransitions := by
  obtain ⟨before, after, rfl⟩ := List.append_of_mem hmem
  rcases List.eq_nil_or_concat before with rfl | ⟨init, prev, rfl⟩
  · have hhead := h.head
    simp only [List.nil_append, List.head?_cons, Option.some.injEq] at hhead
    exact absurd hhead hne
  · refine ⟨prev, by simp, ?_⟩
    exact (List.isChain_append.1 h.path).2.2 prev (by simp) status (by simp)

end OrderStatus

/-- The column of a status in `_STATUS_TIMESTAMP`. -/
def Order.stampedAt (o : Order) : OrderStatus → Option Time
  | .pending => none
  | .paid => o.paidAt
  | .confirmed => o.confirmedAt
  | .expired => o.expiredAt
  | .cancelled => o.cancelledAt

theorem Order.stampedAt_stamp_self (o : Order) {new : OrderStatus} (now : Time) (hnew : new ≠ .pending) :
    (o.stamp new now).stampedAt new = some now := by
  cases new <;> first | rfl | exact absurd rfl hnew

theorem Order.stampedAt_stamp_of_ne (o : Order) {new status : OrderStatus} (now : Time) (hne : status ≠ new) :
    (o.stamp new now).stampedAt status = o.stampedAt status := by
  cases new <;> cases status <;> first | rfl | exact absurd rfl hne

/-! ### What the rows record -/

namespace Db

/-- The rows agree with the statuses an order went through. -/
structure OrderRecord (db : Db) (past : List OrderStatus) (o : Order) : Prop where
  history : OrderStatus.IsHistory past
  last : past.getLast? = some o.status
  stamped : ∀ status, status ≠ .pending → ((o.stampedAt status).isSome ↔ status ∈ past)
  owes : (db.outbox.filter fun e => e.order = o.id).length = if o.status.held then 0 else 1
  seat : o.status.held = true → o.zone.isSome = true → ∃ h ∈ db.seatHolds, h.order = o.id
  frozen : o.status = .confirmed → ∀ h ∈ db.seatHolds, h.order = o.id → h.confirmedAt.isSome = true

/-- Every order has its record, and nothing is recorded of an order that does not exist. -/
structure Recorded (db : Db) (history : List (OrderId × OrderStatus)) : Prop where
  linked : db.Linked
  record : ∀ o ∈ db.orders, db.OrderRecord (visits history o.id) o
  known : ∀ p ∈ history, ∃ o ∈ db.orders, o.id = p.1

/-- The order of this id has left the held statuses. -/
def Closed (db : Db) (id : OrderId) : Prop := ∃ o, db.orderById id = some o ∧ o.status.held = false

end Db

theorem visits_concat_self (history : List (OrderId × OrderStatus)) (id : OrderId) (new : OrderStatus) :
    visits (history ++ [(id, new)]) id = visits history id ++ [new] := by
  simp [visits]

theorem visits_concat_of_ne (history : List (OrderId × OrderStatus)) {id id' : OrderId} (new : OrderStatus)
    (hne : id ≠ id') : visits (history ++ [(id, new)]) id' = visits history id' := by
  simp [visits, hne]

namespace Db

theorem Linked.orderById {db : Db} (hl : db.Linked) {o : Order} (ho : o ∈ db.orders) :
    db.orderById o.id = some o := by
  unfold Db.orderById
  cases hfind : db.orders.find? fun o' => o'.id = o.id with
  | none =>
    have hno := List.find?_eq_none.1 hfind o ho
    simp at hno
  | some o' =>
    have hid : o'.id = o.id := by simpa using List.find?_some hfind
    rw [hl.order_unique (List.mem_of_find?_eq_some hfind) ho hid]

section Record

variable {db db' : Db} {history : List (OrderId × OrderStatus)} {past : List OrderStatus} {o : Order}

/-- A record depends on the outbox and the holds only through the rows of its order. -/
theorem OrderRecord.congr (h : db.OrderRecord past o)
    (hbox : (db'.outbox.filter fun e => e.order = o.id).length = (db.outbox.filter fun e => e.order = o.id).length)
    (hseat : o.status.held = true → ∀ hold ∈ db.seatHolds, hold.order = o.id → ∃ hold' ∈ db'.seatHolds,
      hold'.order = o.id)
    (hfrozen : ∀ hold' ∈ db'.seatHolds, hold'.order = o.id →
      ∃ hold ∈ db.seatHolds, hold.order = o.id ∧ (hold.confirmedAt.isSome → hold'.confirmedAt.isSome)) :
    db'.OrderRecord past o where
  history := h.history
  last := h.last
  stamped := h.stamped
  owes := hbox.trans h.owes
  seat hheld hzone := by
    obtain ⟨hold, hmem, hord⟩ := h.seat hheld hzone
    exact hseat hheld hold hmem hord
  frozen hst hold' hmem' hord' := by
    obtain ⟨hold, hmem, hord, himp⟩ := hfrozen hold' hmem' hord'
    exact himp (h.frozen hst hold hmem hord)

theorem OrderRecord.expired_or_cancelled (h : db.OrderRecord past o) : o.expiredAt = none ∨ o.cancelledAt = none := by
  by_contra hboth
  simp only [not_or, ← ne_eq, Option.ne_none_iff_isSome] at hboth
  have hexp := (h.stamped .expired (by decide)).1 hboth.1
  have hcan := (h.stamped .cancelled (by decide)).1 hboth.2
  have hEq := (h.history.last_of_final hexp rfl).symm.trans (h.history.last_of_final hcan rfl)
  cases hEq

theorem OrderRecord.paid_of_confirmed (h : db.OrderRecord past o) (hc : o.confirmedAt.isSome = true) :
    o.paidAt.isSome = true := by
  obtain ⟨prev, hmem, hprev⟩ :=
    h.history.exists_before ((h.stamped .confirmed (by decide)).1 hc) (by decide)
  have hpaid : prev = .paid := by cases prev <;> simp [OrderStatus.validTransitions] at hprev ⊢
  exact (h.stamped .paid (by decide)).2 (hpaid ▸ hmem)

end Record

/-! ### Row operations keep the record -/

section Transition

variable {db db' : Db} {history : List (OrderId × OrderStatus)} {id : OrderId} {new : OrderStatus} {now : Time}

private theorem order_of_transition (h : db.transition id new now = some db') {o' : Order} (ho' : o' ∈ db'.orders) :
    ∃ o ∈ db.orders, (o.id = id ∧ o' = o.stamp new now) ∨ (o.id ≠ id ∧ o' = o) := by
  obtain ⟨o₀, -, -, rfl⟩ := transition_eq_some h
  obtain ⟨o, ho, rfl⟩ := List.mem_map.1 ho'
  refine ⟨o, ho, ?_⟩
  by_cases hid : o.id = id
  · exact .inl ⟨hid, by rw [if_pos hid]⟩
  · exact .inr ⟨hid, by rw [if_neg hid]⟩

private theorem hold_of_transition (h : db.transition id new now = some db') {hold' : SeatHold}
    (hmem : hold' ∈ db'.seatHolds) : ∃ hold ∈ db.seatHolds, hold.order = hold'.order ∧
      (hold.confirmedAt.isSome → hold'.confirmedAt.isSome) := by
  obtain ⟨o, -, -, rfl⟩ := transition_eq_some h
  simp only at hmem
  split at hmem
  · obtain ⟨hold, hm, rfl⟩ := List.mem_map.1 hmem
    refine ⟨hold, hm, ?_⟩
    split
    · exact ⟨rfl, fun _ => rfl⟩
    · exact ⟨rfl, fun hc => hc⟩
  · exact ⟨hold', hmem, rfl, fun hc => hc⟩

private theorem hold_transition (h : db.transition id new now = some db') {hold : SeatHold}
    (hmem : hold ∈ db.seatHolds) : ∃ hold' ∈ db'.seatHolds, hold'.order = hold.order := by
  obtain ⟨o, -, -, rfl⟩ := transition_eq_some h
  simp only
  split
  · refine ⟨_, List.mem_map.2 ⟨hold, hmem, rfl⟩, ?_⟩
    split <;> rfl
  · exact ⟨hold, hmem, rfl⟩

private theorem owes_transition_of_ne (h : db.transition id new now = some db') {id' : OrderId} (hne : id ≠ id') :
    (db'.outbox.filter fun e => e.order = id').length = (db.outbox.filter fun e => e.order = id').length := by
  obtain ⟨o, -, -, rfl⟩ := transition_eq_some h
  simp only
  split
  · rfl
  · simp [hne]

private theorem owes_transition (h : db.transition id new now = some db') :
    (db'.outbox.filter fun e => e.order = id).length =
      (db.outbox.filter fun e => e.order = id).length + if new.held then 0 else 1 := by
  obtain ⟨o, -, -, rfl⟩ := transition_eq_some h
  simp only
  split
  · rfl
  · simp

/-- The seats of an order that becomes CONFIRMED are frozen. -/
private theorem frozen_transition (hl : db.Linked) (h : db.transition id .confirmed now = some db') {hold' : SeatHold}
    (hmem : hold' ∈ db'.seatHolds) (hord : hold'.order = id) : hold'.confirmedAt.isSome = true := by
  obtain ⟨hold, hm, hEq, -⟩ := hold_of_transition h hmem
  obtain ⟨o, ho, -, rfl⟩ := transition_eq_some h
  -- a hold belongs to a seated order, so the freeze is not skipped
  have hzone : o.zone.isSome = true := by
    obtain ⟨o', ho', hmatch⟩ := hl.hold hold hm
    obtain ⟨hom, hid⟩ := orderById_eq_some ho
    have hsame := hl.order_unique ho' hom ((hmatch.order.symm.trans (hEq.trans hord)).trans hid.symm)
    rw [← hsame, hmatch.zone]
    rfl
  simp only [hzone, and_self, if_true] at hmem
  obtain ⟨hold₁, -, rfl⟩ := List.mem_map.1 hmem
  split
  · rfl
  · rename_i hskip
    rw [if_neg hskip] at hord
    exact Option.ne_none_iff_isSome.1 fun hnone => hskip ⟨hord, hnone⟩

theorem OrderRecord.transition {o : Order} (hl : db.Linked) (hr : db.OrderRecord (visits history o.id) o)
    (ho : o ∈ db.orders) (h : db.transition o.id new now = some db') :
    db'.OrderRecord (visits history o.id ++ [new]) (o.stamp new now) := by
  obtain ⟨hheld, hvalid⟩ := hl.held_of_transition h ho rfl
  constructor
  · exact hr.history.concat hr.last hvalid
  · simp
  · intro status hne
    rw [List.mem_append, List.mem_singleton]
    by_cases hst : status = new
    · rw [hst, o.stampedAt_stamp_self now (hst ▸ hne)]
      simp
    · rw [o.stampedAt_stamp_of_ne now hst, hr.stamped status hne]
      exact ⟨.inl, fun hor => hor.resolve_right hst⟩
  · rw [Order.stamp_id, owes_transition h, hr.owes, hheld, Order.stamp_status]
    simp
  · intro _ hzone
    rw [Order.stamp_zone] at hzone
    obtain ⟨hold, hm, hord⟩ := hr.seat hheld hzone
    obtain ⟨hold', hm', hEq⟩ := hold_transition h hm
    exact ⟨hold', hm', by rw [hEq, hord, Order.stamp_id]⟩
  · intro hst hold' hm' hord
    rw [Order.stamp_status] at hst
    rw [Order.stamp_id] at hord
    subst hst
    exact frozen_transition hl h hm' hord

theorem Recorded.transition (hr : db.Recorded history) (h : db.transition id new now = some db') :
    db'.Recorded (history ++ [(id, new)]) where
  linked := hr.linked.transition h
  record o' ho' := by
    obtain ⟨o, ho, ⟨hid, rfl⟩ | ⟨hid, rfl⟩⟩ := order_of_transition h ho'
    · subst hid
      rw [Order.stamp_id, visits_concat_self]
      exact (hr.record o ho).transition hr.linked ho h
    · rw [visits_concat_of_ne history new (Ne.symm hid)]
      refine (hr.record o' ho).congr (owes_transition_of_ne h (Ne.symm hid)) ?_ ?_
      · intro _ hold hm hord
        obtain ⟨hold', hm', hEq'⟩ := hold_transition h hm
        exact ⟨hold', hm', hEq'.trans hord⟩
      · intro hold' hm' hord
        obtain ⟨hold, hm, hEq', himp⟩ := hold_of_transition h hm'
        exact ⟨hold, hm, hEq'.trans hord, himp⟩
  known p hp := by
    have hkeep : ∀ o ∈ db.orders, ∃ o' ∈ db'.orders, o'.id = o.id := fun o ho => by
      obtain ⟨o', ho', hsame, -⟩ := mem_orders_transition hr.linked h ho
      exact ⟨o', ho', hsame.id⟩
    rcases List.mem_append.1 hp with hp | hp
    · obtain ⟨o, ho, hid⟩ := hr.known p hp
      obtain ⟨o', ho', hEq⟩ := hkeep o ho
      exact ⟨o', ho', hEq.trans hid⟩
    · obtain ⟨o, ho, -⟩ := transition_eq_some h
      obtain ⟨hm, hid⟩ := orderById_eq_some ho
      obtain ⟨o', ho', hEq⟩ := hkeep o hm
      rw [List.mem_singleton.1 hp]
      exact ⟨o', ho', hEq.trans hid⟩

end Transition

section Rows

variable {db db' : Db} {history : List (OrderId × OrderStatus)} {id : OrderId}

/-- The rows of a new order: PENDING, nothing owed, and a hold when it is seated. -/
private theorem OrderRecord.insertIntent {i : Intent} {fk : Bool} (hl : db.Linked) (hi : i.consistent = true)
    (h : db.insertIntent i id fk = some db') : db'.OrderRecord [.pending] (i.order id) := by
  obtain ⟨hacc, -, rfl⟩ := insertIntent_eq_some h
  constructor
  · exact ⟨rfl, List.isChain_singleton _⟩
  · rfl
  · intro status hne
    cases status <;> simp_all [Order.stampedAt, Intent.order]
  · have hnone : ∀ e ∈ db.outbox, e.order ≠ id := by
      intro e he hid
      obtain ⟨o, ho, hEq, -⟩ := hl.row e he
      exact hacc.1 o ho (hEq.trans hid)
    have hnil : (db.outbox.filter fun e => e.order = (i.order id).id) = [] :=
      List.filter_eq_nil_iff.2 fun e he hid => hnone e he (of_decide_eq_true hid)
    rw [hnil]
    rfl
  · intro _ hzone
    have hzone' : i.zone.isSome = true := hzone
    have hseat : i.seat.isSome = true := by
      unfold Intent.consistent at hi
      rw [hzone'] at hi
      simpa using hi
    obtain ⟨zone, hz⟩ := Option.isSome_iff_exists.1 hzone'
    obtain ⟨seat, hs⟩ := Option.isSome_iff_exists.1 hseat
    have hhold : i.hold id = some ⟨i.event, zone, seat.block, id, seat.startPos, i.quantity, none⟩ := by
      simp [Intent.hold, hz, hs]
    exact ⟨_, List.mem_append_right _ (Option.mem_toList.2 hhold), rfl⟩
  · intro hst
    cases hst

theorem Recorded.insertIntent {i : Intent} {fk : Bool} (hr : db.Recorded history) (hi : i.consistent = true)
    (h : db.insertIntent i id fk = some db') : db'.Recorded (history ++ [(id, .pending)]) := by
  have hrecord := OrderRecord.insertIntent hr.linked hi h
  refine ⟨hr.linked.insertIntent h, ?_, ?_⟩
  · obtain ⟨hacc, -, rfl⟩ := insertIntent_eq_some h
    intro o ho
    rcases List.mem_append.1 ho with ho | ho
    · have hne : id ≠ o.id := Ne.symm (hacc.1 o ho)
      rw [visits_concat_of_ne history _ hne]
      refine (hr.record o ho).congr rfl (fun _ hold hm hord => ⟨hold, List.mem_append_left _ hm, hord⟩) ?_
      intro hold hm hord
      rcases List.mem_append.1 hm with hm | hm
      · exact ⟨hold, hm, hord, fun hc => hc⟩
      · obtain ⟨zone, -, hh⟩ := Option.bind_eq_some_iff.1 (Option.mem_toList.1 hm)
        obtain ⟨seat, -, rfl⟩ := Option.map_eq_some_iff.1 hh
        exact absurd hord hne
    · have hempty : visits history id = [] := by
        refine List.map_eq_nil_iff.2 (List.filter_eq_nil_iff.2 fun p hp hid => ?_)
        obtain ⟨o', ho', hEq⟩ := hr.known p hp
        exact hacc.1 o' ho' (hEq.trans (of_decide_eq_true hid))
      rw [List.mem_singleton.1 ho]
      have hid : (i.order id).id = id := rfl
      rw [hid, visits_concat_self, hempty]
      exact hrecord
  · obtain ⟨-, -, rfl⟩ := insertIntent_eq_some h
    intro p hp
    rcases List.mem_append.1 hp with hp | hp
    · obtain ⟨o, ho, hEq⟩ := hr.known p hp
      exact ⟨o, List.mem_append_left _ ho, hEq⟩
    · exact ⟨i.order id, by simp, by rw [List.mem_singleton.1 hp]; rfl⟩

/-- Only the hold of an order that gave its seats up is deleted. -/
theorem Recorded.deleteHold (hr : db.Recorded history) (hid : db.Closed id) :
    (db.deleteHold id).Recorded history where
  linked := hr.linked.deleteHold id
  known := hr.known
  record o ho := by
    refine (hr.record o ho).congr rfl ?_ fun hold hm hord => ⟨hold, (List.mem_filter.1 hm).1, hord, fun hc => hc⟩
    intro hheld hold hm hord
    refine ⟨hold, List.mem_filter.2 ⟨hm, decide_eq_true fun hEq => ?_⟩, hord⟩
    obtain ⟨o', ho', hst⟩ := hid
    obtain ⟨hom, hid'⟩ := orderById_eq_some ho'
    have hsame := hr.linked.order_unique hom ho (hid'.trans (hEq.symm.trans hord))
    rw [hsame, hheld] at hst
    cases hst

/-- The claims and marks of the relay keep the row of every order. -/
theorem Recorded.mapOutbox (hr : db.Recorded history) {f : OutboxEntry → OutboxEntry}
    (hf : ∀ e, (f e).order = e.order) :
    ({ db with outbox := db.outbox.map f } : Db).Recorded history where
  linked :=
    { ids := hr.linked.ids
      holds := hr.linked.holds
      hold := hr.linked.hold
      row := fun e' he' => by
        obtain ⟨e, he, rfl⟩ := List.mem_map.1 he'
        rw [hf]
        exact hr.linked.row e he }
  known := hr.known
  record o ho := by
    refine (hr.record o ho).congr ?_ (fun _ hold hm hord => ⟨hold, hm, hord⟩)
      fun hold hm hord => ⟨hold, hm, hord, fun hc => hc⟩
    have hcomp : ((fun e : OutboxEntry => decide (e.order = o.id)) ∘ f) = fun e => decide (e.order = o.id) := by
      funext e
      simp only [Function.comp_apply, hf]
    rw [List.filter_map, List.length_map, hcomp]

theorem Recorded.claimOutbox (hr : db.Recorded history) (row : OutboxId) : (db.claimOutbox row).Recorded history :=
  hr.mapOutbox fun e => by split <;> rfl

theorem Recorded.markProcessed (hr : db.Recorded history) (row : OutboxId) :
    (db.markProcessed row).Recorded history :=
  hr.mapOutbox fun e => by split <;> rfl

end Rows

/-! ### Looking orders up after a change -/

section Lookup

variable {db db' : Db} {id : OrderId} {new : OrderStatus} {now : Time} {o : Order}

theorem orderById_transition (h : db.transition id new now = some db') (id' : OrderId) :
    db'.orderById id' = (db.orderById id').map fun o => if o.id = id then o.stamp new now else o := by
  obtain ⟨o₀, -, -, rfl⟩ := transition_eq_some h
  have hpred : ((fun o : Order => decide (o.id = id')) ∘ fun o => if o.id = id then o.stamp new now else o) =
      fun o => decide (o.id = id') := by
    funext o
    simp only [Function.comp_apply]
    split <;> simp
  unfold orderById
  rw [List.find?_map, hpred]

theorem orderById_transition_self (h : db.transition id new now = some db') (ho : db.orderById id = some o) :
    db'.orderById id = some (o.stamp new now) := by
  rw [orderById_transition h, ho, Option.map_some, if_pos (orderById_eq_some ho).2]

theorem orderById_transition_of_ne (h : db.transition id new now = some db') {id' : OrderId} (hne : id' ≠ id) :
    db'.orderById id' = db.orderById id' := by
  rw [orderById_transition h]
  cases ho : db.orderById id' with
  | none => rfl
  | some o => rw [Option.map_some, if_neg ((orderById_eq_some ho).2 ▸ hne)]

theorem orderById_insertIntent {i : Intent} {fk : Bool} (h : db.insertIntent i id fk = some db') {id' : OrderId}
    (ho : db.orderById id' = some o) : db'.orderById id' = some o := by
  obtain ⟨-, -, rfl⟩ := insertIntent_eq_some h
  unfold orderById at ho ⊢
  rw [List.find?_append, ho]
  rfl

/-- Orders are not deleted and keep their price, and an order in a final status does not change any more. -/
def Advances (db db' : Db) : Prop :=
  ∀ id o, db.orderById id = some o → ∃ o', db'.orderById id = some o' ∧ o'.totalPriceCents = o.totalPriceCents ∧
    (o.status.validTransitions = [] → o' = o)

theorem Advances.refl (db : Db) : db.Advances db := fun _ o ho => ⟨o, ho, rfl, fun _ => rfl⟩

theorem Advances.of_orders (h : db'.orders = db.orders) : db.Advances db' := fun id o ho =>
  ⟨o, by rwa [orderById, h], rfl, fun _ => rfl⟩

theorem Advances.insertIntent {i : Intent} {fk : Bool} (h : db.insertIntent i id fk = some db') : db.Advances db' :=
  fun _ o ho => ⟨o, orderById_insertIntent h ho, rfl, fun _ => rfl⟩

theorem Advances.closed (h : db.Advances db') (hc : db.Closed id) : db'.Closed id := by
  obtain ⟨o, ho, hheld⟩ := hc
  have hfinal : o.status.validTransitions = [] := by
    cases hst : o.status <;> simp [hst, OrderStatus.held, OrderStatus.validTransitions] at hheld ⊢
  obtain ⟨o', ho', -, hkeep⟩ := h id o ho
  exact ⟨o', ho', by rw [hkeep hfinal]; exact hheld⟩

end Lookup

end Db

end Ticketing
