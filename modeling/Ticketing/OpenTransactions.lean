import Ticketing.OrderHistory
import Ticketing.SeatOwnership

/-!
# Open transactions

An open transaction is a list of writes that amounts to legal transitions from the committed row on (`Draws`),
and the row lock keeps that row in place until the commit.  So whatever the interleaving, a commit is a
sequence of `Db.transition`, and what the rows record of an order (`Db.OrderRecord`) holds in every committed
state.
-/

namespace Ticketing

/-! ### Writes as transitions -/

/-- The row writes of one transition. -/
def transitionWrites (id : OrderId) (zone : Option ZoneId) (new : OrderStatus) (now : Time) : List Write :=
  .status id new now ::
    ((if new.held then [] else [.outbox id]) ++ if new = .confirmed ∧ zone.isSome then [.freeze id now] else [])

/-- Writes that take an order of this id and zone from one status to another along `_VALID_TRANSITIONS`. -/
inductive Draws (id : OrderId) (zone : Option ZoneId) (source : OrderStatus) : List Write → OrderStatus → Prop where
  | nil : Draws id zone source [] source
  | concat {ws : List Write} {status new : OrderStatus} (now : Time) (h : Draws id zone source ws status)
      (hnew : new ∈ status.validTransitions) : Draws id zone source (ws ++ transitionWrites id zone new now) new

theorem Db.written_append (db : Db) (ws ws' : List Write) : db.written (ws ++ ws') = (db.written ws).written ws' :=
  List.foldl_append ..

/-- One transition is the compare-and-swap with its further writes. -/
theorem Db.transition_eq_written {db : Db} {id : OrderId} {o : Order} (ho : db.orderById id = some o)
    {new : OrderStatus} (hnew : new ∈ o.status.validTransitions) (now : Time) :
    db.transition id new now = some (db.written (transitionWrites id o.zone new now)) := by
  unfold Db.transition
  rw [ho, Option.bind_some, if_pos hnew]
  cases new with
  | confirmed =>
    by_cases hz : o.zone.isSome = true
    · simp [transitionWrites, Db.written, Write.apply, OrderStatus.held, hz]
    · simp [transitionWrites, Db.written, Write.apply, OrderStatus.held, hz]
  | _ => simp [transitionWrites, Db.written, Write.apply, OrderStatus.held]

theorem visited_transitionWrites (id : OrderId) (zone : Option ZoneId) (new : OrderStatus) (now : Time) :
    (transitionWrites id zone new now).filterMap Write.visited = [(id, new)] := by
  unfold transitionWrites
  split <;> split <;> simp [Write.visited]

namespace Draws

variable {db : Db} {history : List (OrderId × OrderStatus)} {o : Order} {ws : List Write} {status : OrderStatus}

/-- The writes leave the order in their last status and every other order as it is. -/
theorem orderById (ho : db.orderById o.id = some o) (hd : Draws o.id o.zone o.status ws status) :
    (∃ o', (db.written ws).orderById o.id = some o' ∧ o'.status = status ∧ o'.Same o ∧
        o'.totalPriceCents = o.totalPriceCents) ∧
      ∀ id', id' ≠ o.id → (db.written ws).orderById id' = db.orderById id' := by
  induction hd with
  | nil => exact ⟨⟨o, ho, rfl, .refl o, rfl⟩, fun _ _ => rfl⟩
  | @concat ws status new now hd hnew ih =>
    obtain ⟨⟨o₁, ho₁, hst, hsame, htotal⟩, hother⟩ := ih
    have htr := Db.transition_eq_written ho₁ (hst ▸ hnew) now
    rw [hsame.zone, ← Db.written_append] at htr
    refine ⟨⟨o₁.stamp new now, Db.orderById_transition_self htr ho₁, by simp, ?_, by simpa using htotal⟩, ?_⟩
    · exact (o₁.stamp_same new now).trans hsame
    · exact fun id' hne => (Db.orderById_transition_of_ne htr hne).trans (hother id' hne)

theorem recorded (hr : db.Recorded history) (ho : db.orderById o.id = some o)
    (hd : Draws o.id o.zone o.status ws status) :
    (db.written ws).Recorded (history ++ ws.filterMap Write.visited) := by
  induction hd with
  | nil => simpa [Db.written] using hr
  | @concat ws status new now hd hnew ih =>
    obtain ⟨⟨o₁, ho₁, hst, hsame, -⟩, -⟩ := hd.orderById ho
    have htr := Db.transition_eq_written ho₁ (hst ▸ hnew) now
    rw [hsame.zone, ← Db.written_append] at htr
    rw [List.filterMap_append, visited_transitionWrites, ← List.append_assoc]
    exact ih.transition htr

theorem status_of_nil {id : OrderId} {zone : Option ZoneId} {source : OrderStatus}
    (hd : Draws id zone source [] status) : status = source := by
  generalize hws : ([] : List Write) = ws at hd
  cases hd with
  | nil => rfl
  | concat now hd hnew =>
    have hne := congrArg List.length hws
    simp [transitionWrites] at hne

/-- Nothing is written to an order in a final status. -/
theorem of_final {id : OrderId} {zone : Option ZoneId} {source : OrderStatus} (hd : Draws id zone source ws status)
    (hs : source.validTransitions = []) : ws = [] ∧ status = source := by
  induction hd with
  | nil => exact ⟨rfl, rfl⟩
  | concat now hd hnew ih =>
    rw [ih.2, hs] at hnew
    cases hnew

theorem advances (ho : db.orderById o.id = some o) (hd : Draws o.id o.zone o.status ws status) :
    db.Advances (db.written ws) := by
  obtain ⟨⟨o', ho', -, -, htotal⟩, hother⟩ := hd.orderById ho
  intro id₁ o₁ ho₁
  by_cases hid : id₁ = o.id
  · subst hid
    obtain rfl := Option.some.inj (ho.symm.trans ho₁)
    refine ⟨o', ho', htotal, fun hfinal => ?_⟩
    rw [(hd.of_final hfinal).1] at ho'
    exact Option.some.inj (ho'.symm.trans ho)
  · exact ⟨o₁, (hother id₁ hid).trans ho₁, rfl, fun _ => rfl⟩

/-- The writes of an open transaction are transitions of the pipeline, one after the other. -/
theorem exec_transition {w : World} (cfg : Settings) (ho : w.db.orderById o.id = some o)
    (hd : Draws o.id o.zone o.status ws status) :
    ∃ trs : List (OrderStatus × Time),
      Exec.exec (step cfg) w (trs.map fun p => .transition o.id p.1 p.2) = some { w with db := w.db.written ws } := by
  induction hd with
  | nil => exact ⟨[], rfl⟩
  | @concat ws status new now hd hnew ih =>
    obtain ⟨trs, htrs⟩ := ih
    obtain ⟨⟨o₁, ho₁, hst, hsame, -⟩, -⟩ := hd.orderById ho
    have htr := Db.transition_eq_written ho₁ (hst ▸ hnew) now
    rw [hsame.zone, ← Db.written_append] at htr
    refine ⟨trs ++ [(new, now)], ?_⟩
    rw [List.map_append]
    refine Exec.exec_concat.2 ⟨_, htrs, ?_⟩
    simp only [step, htr]
    rfl

end Draws

/-! ### What the calls of the order service answer -/

theorem transitionOrderStatus_applied {view : Db} {o : Order} {new : OrderStatus} {now : Time} {ws : List Write}
    (h : transitionOrderStatus view o new now = .applied ws) :
    ∃ row, view.orderById o.id = some row ∧ row.status = o.status ∧ new ∈ o.status.validTransitions ∧
      ws = [.status o.id new now] := by
  unfold transitionOrderStatus at h
  split at h
  · rename_i hnew
    split at h
    · cases h
    · rename_i row hrow
      obtain ⟨hby, hst⟩ := Option.filter_eq_some_iff.1 hrow
      split at h
      · exact ⟨row, hby, of_decide_eq_true hst, hnew, (Swap.applied.inj h).symm⟩
      · cases h
  · cases h

private theorem Swap.andThen_applied {swap : Swap} {more ws : List Write} (h : swap.andThen more = .applied ws) :
    ∃ ws', swap = .applied ws' ∧ ws = ws' ++ more := by
  cases swap with
  | applied ws' => exact ⟨ws', rfl, (Swap.applied.inj h).symm⟩
  | _ => cases h

/-- The first compare-and-swap of a session: the row is still in the status that was read, a paying session
writes PAID and any other a status that owes a release, with its outbox row. -/
theorem Task.swap_applied {task : Task} {view : Db} {o : Order} {now : Time} {ws : List Write}
    (h : task.swap view o now = .applied ws) :
    ∃ row new, view.orderById o.id = some row ∧ row.status = o.status ∧ new ∈ o.status.validTransitions ∧
      ws = transitionWrites o.id row.zone new now ∧ (task.pays = true → new = .paid) ∧
      (task.pays = false → new.held = false) := by
  have hpaid : ∀ {ws}, markPaid view o now = .applied ws →
      ∃ row, view.orderById o.id = some row ∧ row.status = o.status ∧ .paid ∈ o.status.validTransitions ∧
        ws = transitionWrites o.id row.zone .paid now := fun h => transitionOrderStatus_applied h
  have howing : ∀ {new ws}, transitionOwingRelease view o new now = .applied ws → new.held = false →
      ∃ row, view.orderById o.id = some row ∧ row.status = o.status ∧ new ∈ o.status.validTransitions ∧
        ws = transitionWrites o.id row.zone new now := by
    intro new ws h hheld
    obtain ⟨ws', h', rfl⟩ := Swap.andThen_applied h
    obtain ⟨row, hby, hst, hnew, rfl⟩ := transitionOrderStatus_applied h'
    have hne : new ≠ .confirmed := fun hEq => by rw [hEq] at hheld; cases hheld
    exact ⟨row, hby, hst, hnew, by simp [transitionWrites, hheld, hne]⟩
  have hexp : expireOrder view o now = .applied ws → task.pays = false →
      ∃ row new, view.orderById o.id = some row ∧ row.status = o.status ∧ new ∈ o.status.validTransitions ∧
        ws = transitionWrites o.id row.zone new now ∧ (task.pays = true → new = .paid) ∧
        (task.pays = false → new.held = false) := by
    intro h hpays
    obtain ⟨row, hby, hst, hnew, hws⟩ := howing h rfl
    exact ⟨row, .expired, hby, hst, hnew, hws, fun h => (Bool.false_ne_true (hpays.symm.trans h)).elim, fun _ => rfl⟩
  cases task with
  | cancel _ _ =>
    obtain ⟨row, hby, hst, hnew, hws⟩ := howing h rfl
    exact ⟨row, .cancelled, hby, hst, hnew, hws, fun h => absurd h Bool.false_ne_true, fun _ => rfl⟩
  | pay _ _ =>
    obtain ⟨row, hby, hst, hnew, hws⟩ := hpaid h
    exact ⟨row, .paid, hby, hst, hnew, hws, fun _ => rfl, fun h => absurd h.symm Bool.false_ne_true⟩
  | webhook event =>
    simp only [Task.swap] at h
    split at h
    · rename_i htype
      obtain ⟨row, hby, hst, hnew, hws⟩ := hpaid h
      exact ⟨row, .paid, hby, hst, hnew, hws, fun _ => rfl, fun h => by simp [Task.pays, htype] at h⟩
    · rename_i htype
      exact hexp h (by simp [Task.pays, htype])
  | expirePending _ => exact hexp h rfl
  | expireAbandoned _ => exact hexp h rfl
  | relay _ => exact hexp h rfl

/-- A release is only asked for after a write. -/
theorem Task.decide_ne_release (task : Task) (order : Option Order) (o : Order) :
    task.decide order ≠ .finish (.release o) := by
  cases task <;> cases order <;> simp only [Task.decide, handlePaymentSucceeded, handlePaymentAborted] <;>
    repeat' split
  all_goals simp

/-- A session swaps the order it read. -/
theorem Task.decide_swap {task : Task} {order : Option Order} {o : Order} (h : task.decide order = .swap o) :
    order = some o := by
  cases order with
  | none =>
    cases task <;> simp only [Task.decide, handlePaymentSucceeded, handlePaymentAborted] at h <;>
      (repeat' split at h) <;> cases h
  | some o' =>
    cases task <;> simp only [Task.decide, handlePaymentSucceeded, handlePaymentAborted] at h <;>
      (repeat' split at h) <;> cases h <;> rfl

theorem Task.onLost_ne_swap (task : Task) (order o : Order) : task.onLost order ≠ .swap o := by
  cases task <;> simp only [Task.onLost] <;> repeat' split
  all_goals simp

theorem Task.onLost_ne_release (task : Task) (order o : Order) : task.onLost order ≠ .finish (.release o) := by
  cases task <;> simp only [Task.onLost] <;> repeat' split
  all_goals simp

/-- `mark_confirmed` on a row that is PAID. -/
theorem markConfirmed_of_paid {view : Db} {o row : Order} (now : Time) (hst : o.status = .paid)
    (hby : view.orderById o.id = some row) (hrow : row.status = .paid) :
    markConfirmed view o now = .rejected ∨
      markConfirmed view o now = .applied (transitionWrites o.id o.zone .confirmed now) := by
  have hfilter : (some row).filter (fun r => decide (r.status = o.status)) = some row := by
    simp [Option.filter, hst, hrow]
  unfold markConfirmed transitionOrderStatus
  rw [hby, hfilter, if_pos (by simp [hst, OrderStatus.validTransitions])]
  simp only
  split
  · exact .inr (by simp [Swap.andThen, transitionWrites, OrderStatus.held])
  · exact .inl rfl

/-! ### The sessions and the committed rows -/

namespace Backend

/-- Session `n` has written to the order `id`: it holds the row, and its writes take the committed row to `status`. -/
structure Draft (s : Backend) (n : Nat) (ws : List Write) (id : OrderId) (status : OrderStatus) : Prop where
  lock : s.rowLocks id = some n
  path : ∃ o, s.db.orderById id = some o ∧ Draws id o.zone o.status ws status

/-- What a session may rely on at the point it has reached. -/
def SessionOk (s : Backend) (n : Nat) (x : Session) : Prop :=
  match x.point with
  | .claim | .load | .finish _ | .refund _ | .refunding _ _ => x.writes = []
  | .swap order => x.writes = [] ∧ x.task.order = some order.id
  | .confirm order =>
    s.Draft n x.writes order.id .paid ∧ x.task.order = some order.id ∧ order.status = .paid ∧
      ∃ o, s.db.orderById order.id = some o ∧ o.zone = order.zone
  | .commit .nothing => x.writes = [] ∨ ∃ id, x.task.order = some id ∧ s.Draft n x.writes id .confirmed
  | .commit (.release order) => ∃ status, s.Draft n x.writes order.id status ∧ status.held = false
  | .commit (.refund _) => x.writes = []
  | .release order _ | .drop order _ => x.writes = [] ∧ s.db.Closed order.id

structure Consistent (s : Backend) : Prop where
  recorded : s.db.Recorded s.history
  /-- PAID is never committed: the transaction that writes it goes on to CONFIRMED. -/
  settled : ∀ o ∈ s.db.orders, o.status ≠ .paid
  session : ∀ n x, s.sessions n = some x → s.SessionOk n x

theorem Consistent.start {s : Backend} (h : s.Start) : s.Consistent where
  recorded :=
    { linked :=
        { ids := by simp [h.orders], holds := by simp [h.seatHolds], hold := by simp [h.seatHolds]
          row := by simp [h.outbox] }
      record := by simp [h.orders]
      known := by simp [h.history] }
  settled := by simp [h.orders]
  session n x hx := by
    rw [h.sessions n] at hx
    cases hx

/-- A step of another session leaves the rows that session `m` has written and the orders in a final status. -/
structure Keeps (s s' : Backend) (m : Nat) : Prop where
  lock : ∀ id, s.rowLocks id = some m → s'.rowLocks id = some m
  row : ∀ id o, s.rowLocks id = some m → s.db.orderById id = some o → s'.db.orderById id = some o
  advances : s.db.Advances s'.db

section Frame

variable {s s' : Backend} {n m : Nat} {x : Session}

theorem Draft.keep {ws : List Write} {id : OrderId} {status : OrderStatus} (h : s.Draft m ws id status)
    (hk : Keeps s s' m) : s'.Draft m ws id status where
  lock := hk.lock id h.lock
  path := by
    obtain ⟨o, ho, hd⟩ := h.path
    exact ⟨o, hk.row id o h.lock ho, hd⟩

theorem SessionOk.keep (h : s.SessionOk m x) (hk : Keeps s s' m) : s'.SessionOk m x := by
  cases hp : x.point with
  | confirm order =>
    simp only [SessionOk, hp] at h ⊢
    obtain ⟨hd, htask, hst, o, ho, hz⟩ := h
    exact ⟨hd.keep hk, htask, hst, o, hk.row _ o hd.lock ho, hz⟩
  | commit after =>
    cases after with
    | nothing =>
      simp only [SessionOk, hp] at h ⊢
      exact h.imp id fun ⟨id, htask, hd⟩ => ⟨id, htask, hd.keep hk⟩
    | release order =>
      simp only [SessionOk, hp] at h ⊢
      obtain ⟨status, hd, hst⟩ := h
      exact ⟨status, hd.keep hk, hst⟩
    | refund r => simpa only [SessionOk, hp] using h
  | release order row =>
    simp only [SessionOk, hp] at h ⊢
    exact ⟨h.1, hk.advances.closed h.2⟩
  | drop order row =>
    simp only [SessionOk, hp] at h ⊢
    exact ⟨h.1, hk.advances.closed h.2⟩
  | _ => simpa only [SessionOk, hp] using h

/-- The rule for a step of session `n`. -/
theorem Consistent.next (hs : s.Consistent) (n : Nat) (hrec : s'.db.Recorded s'.history)
    (hset : ∀ o ∈ s'.db.orders, o.status ≠ .paid) (hkeep : ∀ m, m ≠ n → Keeps s s' m)
    (hother : ∀ m, m ≠ n → s'.sessions m = s.sessions m)
    (hself : ∀ x, s'.sessions n = some x → s'.SessionOk n x) : s'.Consistent where
  recorded := hrec
  settled := hset
  session m x hx := by
    by_cases hm : m = n
    · subst hm
      exact hself x hx
    · rw [hother m hm] at hx
      exact (hs.session m x hx).keep (hkeep m hm)

/-- The rule for a step of session `n` that leaves the rows alone. -/
theorem Consistent.move (hs : s.Consistent) (n : Nat) (hdb : s'.db = s.db) (hhist : s'.history = s.history)
    (hlock : ∀ m id, m ≠ n → s.rowLocks id = some m → s'.rowLocks id = some m)
    (hother : ∀ m, m ≠ n → s'.sessions m = s.sessions m)
    (hself : ∀ x, s'.sessions n = some x → s'.SessionOk n x) : s'.Consistent := by
  refine hs.next n ?_ ?_ (fun m hm => ⟨fun id => hlock m id hm, ?_, ?_⟩) hother hself
  · rw [hdb, hhist]
    exact hs.recorded
  · rw [hdb]
    exact hs.settled
  · intro id o _ ho
    rwa [hdb]
  · rw [hdb]
    exact .refl _

/-- The rule for a change of the records and of the event locks. -/
theorem Consistent.congr (hs : s.Consistent) (hdb : s'.db = s.db) (hhist : s'.history = s.history)
    (hlocks : s'.rowLocks = s.rowLocks) (hsess : s'.sessions = s.sessions) : s'.Consistent where
  recorded := by
    rw [hdb, hhist]
    exact hs.recorded
  settled := by
    rw [hdb]
    exact hs.settled
  session m y hy := by
    rw [hsess] at hy
    refine (hs.session m y hy).keep ⟨fun id h => ?_, fun id o _ h => ?_, ?_⟩
    · rwa [hlocks]
    · rwa [hdb]
    · rw [hdb]
      exact .refl _

theorem unlock_rowLocks_of_ne (hm : m ≠ n) {id : OrderId} (h : s.rowLocks id = some m) :
    (s.unlock n).rowLocks id = some m := by
  simp [unlock, h, hm]

theorem Consistent.close (hs : s.Consistent) (n : Nat) : (s.close n).Consistent := by
  refine hs.move n rfl rfl (fun m id hm h => unlock_rowLocks_of_ne hm h) (fun m hm => ?_) fun x hx => ?_
  · exact Function.update_of_ne hm _ _
  · simp [Backend.close] at hx

theorem Consistent.begin (hs : s.Consistent) (hx : s.SessionOk n x) : (s.set n x).Consistent := by
  refine hs.move n rfl rfl (fun _ _ _ h => h) (fun m hm => Function.update_of_ne hm _ _) fun y hy => ?_
  simp only [Backend.set, Function.update_self, Option.some.injEq] at hy
  subst hy
  exact hx.keep ⟨fun _ h => h, fun _ _ _ h => h, .refl _⟩

theorem Consistent.goto (hs : s.Consistent) {point : Point}
    (hok : s.SessionOk n { x with point, waited := 0 }) : (s.goto n x point).Consistent := hs.begin hok

end Frame

/-! ### The steps -/

section Steps

variable {s s' : Backend} {n : Nat} {x : Session}

theorem Consistent.follow (hs : s.Consistent) (hx : x.writes = []) {d : Decision}
    (hd : ∀ o, d ≠ .finish (.release o)) (hswap : ∀ o, d = .swap o → x.task.order = some o.id) :
    (s.follow n x d).Consistent := by
  cases d with
  | quit => exact hs.close n
  | swap o => exact hs.goto ⟨hx, hswap o rfl⟩
  | finish after =>
    refine hs.goto ?_
    cases after with
    | nothing => exact .inl hx
    | release o => exact absurd rfl (hd o)
    | refund r => exact hx

theorem Consistent.claimEvent (hs : s.Consistent) (hx : x.writes = []) {event : StripeEvent}
    (h : s.claimEvent n x event = some s') : s'.Consistent := by
  unfold Backend.claimEvent at h
  split at h
  · obtain rfl := Option.some.inj h
    exact hs.close n
  · split at h
    · obtain rfl := Option.some.inj h
      have hgo : (s.goto n x .load).Consistent := hs.goto hx
      exact hgo.congr rfl rfl rfl rfl
    · cases h

theorem Consistent.compareAndSwap (hs : s.Consistent) {o : Order} (hx : x.writes = [])
    (htask : x.task.order = some o.id) {now : Time} (h : s.compareAndSwap n x o now = some s') : s'.Consistent := by
  unfold Backend.compareAndSwap at h
  split at h
  · obtain rfl := Option.some.inj h
    exact hs.close n
  · obtain rfl := Option.some.inj h
    exact hs.close n
  · obtain rfl := Option.some.inj h
    exact hs.follow hx (x.task.onLost_ne_release o) fun o' hEq => absurd hEq (x.task.onLost_ne_swap o o')
  · rename_i ws hswap
    obtain ⟨row, new, hby, hst, hnew, rfl, hpays, hgives⟩ := Task.swap_applied hswap
    split at h
    · rename_i hfree
      obtain rfl := Option.some.inj h
      -- the order as it was just written
      have htr := Db.transition_eq_written hby (hst ▸ hnew) now
      have hfresh : o.refresh (s.db.written (transitionWrites o.id row.zone new now)) = row.stamp new now := by
        rw [Order.refresh, Db.orderById_transition_self htr hby]
        rfl
      have hid : row.id = o.id := (orderById_eq_some hby).2
      refine hs.move n rfl rfl ?_ (fun m hm => Function.update_of_ne hm _ _) ?_
      · intro m id hm hlock
        have hne : id ≠ o.id := by
          rintro rfl
          rw [hfree] at hlock
          cases hlock
        exact (Function.update_of_ne hne _ _).trans hlock
      · intro y hy
        have hd : Draws o.id row.zone row.status (transitionWrites o.id row.zone new now) new :=
          .concat now .nil (hst ▸ hnew)
        simp only [Backend.goto, Backend.set, Function.update_self, Option.some.injEq] at hy
        subst hy
        rw [hfresh]
        by_cases hp : x.task.pays = true
        · obtain rfl := hpays hp
          simp only [SessionOk, hp, if_true]
          rw [Order.stamp_id, hid]
          exact ⟨⟨Function.update_self .., row, hby, hd⟩, htask, by simp, row, hby, by simp⟩
        · have hheld := hgives (by simpa using hp)
          simp only [SessionOk, hp]
          refine ⟨new, ?_, hheld⟩
          rw [Order.stamp_id, hid]
          exact ⟨Function.update_self .., row, hby, hd⟩
    · cases h

theorem Consistent.confirm (hs : s.Consistent) {o : Order} (hd : s.Draft n x.writes o.id .paid)
    (htask : x.task.order = some o.id) (hst : o.status = .paid)
    (hzone : ∃ row, s.db.orderById o.id = some row ∧ row.zone = o.zone) (now : Time) :
    (s.confirm n x o now).Consistent := by
  obtain ⟨row, hby, hz⟩ := hzone
  obtain ⟨row', hby', hpath⟩ := hd.path
  obtain rfl := Option.some.inj (hby.symm.trans hby')
  have hid := (orderById_eq_some hby).2
  rw [← hid] at hpath
  obtain ⟨⟨o₁, ho₁, hst₁, -, -⟩, -⟩ := hpath.orderById (hid ▸ hby)
  rw [hid] at ho₁ hpath
  -- the transaction sees its own PAID, so the swap is not lost
  rcases markConfirmed_of_paid now hst ho₁ hst₁ with h | h
  · simp only [Backend.confirm, h]
    exact hs.close n
  · simp only [Backend.confirm, h]
    refine hs.goto (.inr ⟨o.id, htask, hd.lock, row, hby, ?_⟩)
    rw [← hz]
    exact .concat now hpath (by simp [OrderStatus.validTransitions])

/-- What the commit of the writes `ws` by session `n` does to the rows. -/
structure Publishes (s : Backend) (n : Nat) (ws : List Write) : Prop where
  recorded : (s.db.written ws).Recorded (s.history ++ ws.filterMap Write.visited)
  settled : ∀ o ∈ (s.db.written ws).orders, o.status ≠ .paid
  row : ∀ m id o, m ≠ n → s.rowLocks id = some m → s.db.orderById id = some o →
    (s.db.written ws).orderById id = some o
  advances : s.db.Advances (s.db.written ws)

theorem Publishes.nil (hs : s.Consistent) (n : Nat) : s.Publishes n [] where
  recorded := by simpa [Db.written] using hs.recorded
  settled := hs.settled
  row _ _ _ _ _ h := h
  advances := .refl _

theorem Draft.orderById_written {ws : List Write} {id : OrderId} {status : OrderStatus}
    (hd : s.Draft n ws id status) :
    ∃ o, (s.db.written ws).orderById id = some o ∧ o.status = status := by
  obtain ⟨o, hby, hpath⟩ := hd.path
  obtain rfl := (orderById_eq_some hby).2
  obtain ⟨⟨o', hby', hst, -, -⟩, -⟩ := hpath.orderById hby
  exact ⟨o', hby', hst⟩

theorem Draft.publishes (hs : s.Consistent) {ws : List Write} {id : OrderId} {status : OrderStatus}
    (hd : s.Draft n ws id status) (hne : status ≠ .paid) : s.Publishes n ws := by
  obtain ⟨o, hby, hpath⟩ := hd.path
  obtain rfl := (orderById_eq_some hby).2
  have hrec := hpath.recorded hs.recorded hby
  obtain ⟨⟨o', hby', hst, -, -⟩, hother⟩ := hpath.orderById hby
  refine ⟨hrec, ?_, ?_, ?_⟩
  · intro o₁ ho₁
    by_cases hid : o₁.id = o.id
    · have hEq := (hrec.linked.orderById ho₁).symm.trans (hid ▸ hby')
      rw [Option.some.inj hEq, hst]
      exact hne
    · have hEq := (hother o₁.id hid).symm.trans (hrec.linked.orderById ho₁)
      exact hs.settled o₁ (orderById_eq_some hEq).1
  · intro m id' o₁ hm hlock ho₁
    refine (hother id' ?_).trans ho₁
    rintro rfl
    exact hm (Option.some.inj (hlock.symm.trans hd.lock))
  · exact hpath.advances hby

/-- A session that is about to commit has written nothing, or it holds a draft that does not end in PAID. -/
theorem SessionOk.draft_of_commit (hok : s.SessionOk n x) {after : After} (hp : x.point = .commit after) :
    x.writes = [] ∨ ∃ id status, s.Draft n x.writes id status ∧ status ≠ .paid := by
  cases after with
  | nothing =>
    simp only [SessionOk, hp] at hok
    exact hok.imp id fun ⟨id, _, hd⟩ => ⟨id, .confirmed, hd, by decide⟩
  | refund r =>
    simp only [SessionOk, hp] at hok
    exact .inl hok
  | release order =>
    simp only [SessionOk, hp] at hok
    obtain ⟨status, hd, hheld⟩ := hok
    refine .inr ⟨order.id, status, hd, fun hEq => ?_⟩
    rw [hEq] at hheld
    cases hheld

theorem Consistent.publishes (hs : s.Consistent) (hx : s.sessions n = some x) {after : After}
    (hp : x.point = .commit after) : s.Publishes n x.writes := by
  rcases (hs.session n x hx).draft_of_commit hp with hw | ⟨id, status, hd, hne⟩
  · rw [hw]
    exact .nil hs n
  · exact hd.publishes hs hne

/-- A commit is a run of transitions of the pipeline on the same rows. -/
theorem Consistent.commit_refines (hs : s.Consistent) (hx : s.sessions n = some x) {after : After}
    (hp : x.point = .commit after) (cfg : Settings) {w : World} (hw : w.db = s.db) :
    ∃ id, ∃ trs : List (OrderStatus × Time),
      Exec.exec (Ticketing.step cfg) w (trs.map fun p => .transition id p.1 p.2) =
        some { w with db := (s.commit n x after).db } := by
  have hdb : (s.commit n x after).db = w.db.written x.writes := by
    rw [hw]
    cases after <;> rfl
  rw [hdb]
  rcases (hs.session n x hx).draft_of_commit hp with hnil | ⟨id, status, hd, -⟩
  · rw [hnil]
    exact ⟨0, [], rfl⟩
  · obtain ⟨o, hby, hpath⟩ := hd.path
    obtain rfl := (orderById_eq_some hby).2
    exact ⟨o.id, hpath.exec_transition cfg (hw ▸ hby)⟩

theorem Consistent.commit (hs : s.Consistent) (hx : s.sessions n = some x) {after : After}
    (hp : x.point = .commit after) : (s.commit n x after).Consistent := by
  have hpub := hs.publishes hx hp
  have hkeep : ∀ m, m ≠ n → Keeps s (s.publish n x after) m := fun m hm =>
    ⟨fun _ h => unlock_rowLocks_of_ne hm h, fun id o h => hpub.row m id o hm h, hpub.advances⟩
  cases after with
  | nothing =>
    refine hs.next n hpub.recorded hpub.settled (fun m hm => ⟨fun id h => ?_, (hkeep m hm).row, hpub.advances⟩)
      (fun m hm => Function.update_of_ne hm _ _) fun y hy => ?_
    · exact unlock_rowLocks_of_ne hm ((hkeep m hm).lock id h)
    · simp [Backend.commit, Backend.close] at hy
  | release order =>
    have hok := hs.session n x hx
    simp only [SessionOk, hp] at hok
    obtain ⟨status, hd, hheld⟩ := hok
    obtain ⟨o, ho, hst⟩ := hd.orderById_written
    refine hs.next n hpub.recorded hpub.settled (fun m hm => ⟨(hkeep m hm).lock, (hkeep m hm).row, hpub.advances⟩)
      (fun m hm => Function.update_of_ne hm _ _) fun y hy => ?_
    simp only [Backend.commit, Backend.goto, Backend.set, Function.update_self, Option.some.injEq] at hy
    subst hy
    exact ⟨rfl, o, ho, hst ▸ hheld⟩
  | refund r =>
    refine hs.next n hpub.recorded hpub.settled (fun m hm => ⟨(hkeep m hm).lock, (hkeep m hm).row, hpub.advances⟩)
      (fun m hm => Function.update_of_ne hm _ _) fun y hy => ?_
    simp only [Backend.commit, Backend.goto, Backend.set, Function.update_self, Option.some.injEq] at hy
    subst hy
    rfl

theorem Consistent.released (hs : s.Consistent) (hx : x.writes = []) (row : Option OutboxId) :
    (s.released n x row).Consistent := by
  cases row with
  | none => exact hs.close n
  | some row => exact hs.goto hx

/-- The rule for a change of the holds or of the outbox rows. -/
theorem Consistent.withDb (hs : s.Consistent) {db : Db} (horders : db.orders = s.db.orders)
    (hrec : db.Recorded s.history) : ({ s with db } : Backend).Consistent := by
  have hby : ∀ id, db.orderById id = s.db.orderById id := fun id => by rw [Db.orderById, Db.orderById, horders]
  have hkeep : ∀ m, Keeps s { s with db } m := by
    exact fun m => ⟨fun _ h => h, fun id o _ h => (hby id).trans h, .of_orders horders⟩
  exact ⟨hrec, horders ▸ hs.settled, fun m y hy => (hs.session m y hy).keep (hkeep m)⟩

theorem Consistent.run (hs : s.Consistent) (hx : s.sessions n = some x) {now : Time} (h : s.run n x now = some s') :
    s'.Consistent := by
  have hok := hs.session n x hx
  cases hp : x.point with
  | claim =>
    simp only [SessionOk, hp] at hok
    simp only [Backend.run, hp] at h
    split at h
    · exact hs.claimEvent hok h
    · cases h
  | load =>
    simp only [SessionOk, hp] at hok
    simp only [Backend.run, hp, Option.some.injEq] at h
    subst h
    refine hs.follow hok (x.task.decide_ne_release _) fun o hEq => ?_
    obtain ⟨id, htask, ho⟩ := Option.bind_eq_some_iff.1 (Task.decide_swap hEq)
    rw [htask, (orderById_eq_some ho).2]
  | swap order =>
    simp only [SessionOk, hp] at hok
    simp only [Backend.run, hp] at h
    exact hs.compareAndSwap hok.1 hok.2 h
  | confirm order =>
    simp only [SessionOk, hp] at hok
    simp only [Backend.run, hp, Option.some.injEq] at h
    subst h
    exact hs.confirm hok.1 hok.2.1 hok.2.2.1 hok.2.2.2 now
  | commit after =>
    simp only [Backend.run, hp, Option.some.injEq] at h
    subst h
    exact hs.commit hx hp
  | release order row =>
    simp only [SessionOk, hp] at hok
    simp only [Backend.run, hp, Option.some.injEq, Backend.readHold] at h
    subst h
    split
    · exact hs.goto hok
    · exact hs.released hok.1 row
  | drop order row =>
    simp only [SessionOk, hp] at hok
    simp only [Backend.run, hp, Option.some.injEq] at h
    subst h
    have hdb : ({ s with db := s.db.deleteHold order.id } : Backend).Consistent :=
      hs.withDb rfl (hs.recorded.deleteHold hok.2)
    exact hdb.released hok.1 row
  | finish row =>
    simp only [Backend.run, hp, Option.some.injEq] at h
    subst h
    have hdb : ({ s with db := s.db.markProcessed row } : Backend).Consistent :=
      hs.withDb rfl (hs.recorded.markProcessed row)
    exact hdb.close n
  | refund r =>
    simp only [SessionOk, hp] at hok
    simp only [Backend.run, hp, Option.some.injEq] at h
    subst h
    have hgo : (s.goto n x (.refunding r false)).Consistent := hs.goto hok
    exact hgo.congr rfl rfl rfl rfl
  | refunding r accepted =>
    simp only [Backend.run, hp] at h
    split at h
    · obtain rfl := Option.some.inj h
      exact (hs.close n).congr rfl rfl rfl rfl
    · cases h

theorem Consistent.startTask (hs : s.Consistent) {task : Task} (h : s.start n task = some s') : s'.Consistent := by
  unfold Backend.start at h
  split at h
  · cases h
  · cases task with
    | relay row =>
      obtain ⟨e, he, h⟩ := Option.bind_eq_some_iff.1 h
      have hdb : ({ s with db := s.db.claimOutbox row } : Backend).Consistent :=
        hs.withDb rfl (hs.recorded.claimOutbox row)
      split at h
      · simp only at h
        split at h
        · obtain rfl := Option.some.inj h
          exact hdb.begin rfl
        · rename_i o ho
          obtain rfl := Option.some.inj h
          -- a row of the outbox belongs to an order that has left the held statuses
          obtain ⟨o', ho', hid, hheld⟩ := hs.recorded.linked.row e (List.mem_of_find?_eq_some he)
          have hid' := (orderById_eq_some ho).2
          refine hdb.begin ⟨rfl, o', ?_, hheld⟩
          rw [hid', ← hid]
          exact hs.recorded.linked.orderById ho'
      · cases h
    | _ =>
      obtain rfl := Option.some.inj h
      exact hs.begin rfl

/-- Every step of the system keeps the committed rows consistent. -/
theorem Consistent.step {t : Timeouts} {a : TxAct} (hs : s.Consistent) (h : s.step t a = some s') :
    s'.Consistent := by
  cases a with
  | persist intent id fk =>
    simp only [Backend.step] at h
    split at h
    · rename_i hi
      obtain ⟨db, hdb, rfl⟩ := Option.map_eq_some_iff.1 h
      refine ⟨hs.recorded.insertIntent hi hdb, ?_,
        fun m y hy => (hs.session m y hy).keep ⟨fun _ h => h, ?_, .insertIntent hdb⟩⟩
      · intro o ho
        obtain ⟨-, -, rfl⟩ := insertIntent_eq_some hdb
        rcases List.mem_append.1 ho with ho | ho
        · exact hs.settled o ho
        · rw [List.mem_singleton.1 ho]
          exact fun hEq => OrderStatus.noConfusion hEq
      · exact fun id o _ ho => Db.orderById_insertIntent hdb ho
    · cases h
  | start n task => exact hs.startTask h
  | run n now =>
    obtain ⟨x, hx, h⟩ := Option.bind_eq_some_iff.1 h
    exact hs.run hx h
  | acceptRefund n =>
    obtain ⟨x, hx, h⟩ := Option.bind_eq_some_iff.1 h
    have hok := hs.session n x hx
    unfold Backend.acceptRefund at h
    split at h
    · rename_i r hp
      obtain rfl := Option.some.inj h
      simp only [SessionOk, hp] at hok
      have hgo : (s.goto n x (.refunding r true)).Consistent := hs.goto hok
      exact hgo.congr rfl rfl rfl rfl
    · cases h
  | failRefund n =>
    obtain ⟨x, hx, h⟩ := Option.bind_eq_some_iff.1 h
    unfold Backend.failRefund at h
    split at h
    · obtain rfl := Option.some.inj h
      exact (hs.close n).congr rfl rfl rfl rfl
    · cases h
  | wait n ms =>
    obtain ⟨x, hx, h⟩ := Option.bind_eq_some_iff.1 h
    split at h
    · obtain rfl := Option.some.inj h
      exact hs.begin (hs.session n x hx)
    · cases h
  | crash n =>
    obtain rfl := Option.some.inj h
    exact hs.close n
  | timeOut n =>
    obtain ⟨x, hx, h⟩ := Option.bind_eq_some_iff.1 h
    split at h
    · obtain rfl := Option.some.inj h
      exact hs.close n
    · cases h

theorem Consistent.exec {t : Timeouts} {acts : List TxAct} (h₀ : s.Start)
    (h : Exec.exec (Backend.step t) s acts = some s') : s'.Consistent :=
  Exec.exec_invariant (C := fun _ _ => True) (fun _ _ _ _ hstep hs => hs.step hstep) (.start h₀)
    (.of_forall fun _ _ _ => trivial) h

end Steps

/-! ### The order state machine -/

/-- What the committed rows say about one order. -/
structure OrderSound (s : Backend) (o : Order) : Prop where
  /-- The statuses are a path of `_VALID_TRANSITIONS` from PENDING to the present status. -/
  path : OrderStatus.IsHistory (s.historyOf o.id)
  present : (s.historyOf o.id).getLast? = some o.status
  /-- The time stamps are those of the statuses visited. -/
  paidAt : o.paidAt.isSome ↔ .paid ∈ s.historyOf o.id
  confirmedAt : o.confirmedAt.isSome ↔ .confirmed ∈ s.historyOf o.id
  expiredAt : o.expiredAt.isSome ↔ .expired ∈ s.historyOf o.id
  cancelledAt : o.cancelledAt.isSome ↔ .cancelled ∈ s.historyOf o.id
  terminalExclusive : o.expiredAt = none ∨ o.cancelledAt = none
  confirmedNeedsPaid : o.confirmedAt.isSome → o.paidAt.isSome
  /-- One `seat.release` row if the order is EXPIRED or CANCELLED, none otherwise. -/
  owes : (s.db.outbox.filter fun e => e.order = o.id).length =
    if o.status = .expired ∨ o.status = .cancelled then 1 else 0
  /-- The hold of a seated CONFIRMED order exists and is frozen. -/
  frozen : o.status = .confirmed → o.zone.isSome →
    ∃ hold ∈ s.db.seatHolds, hold.order = o.id ∧ hold.confirmedAt.isSome

/-- Whatever the order in which the six writers read, write, commit and roll back, every committed order is sound. -/
theorem orders_sound {t : Timeouts} {s₀ s : Backend} {acts : List TxAct} (h₀ : s₀.Start)
    (h : Exec.exec (step t) s₀ acts = some s) : ∀ o ∈ s.db.orders, s.OrderSound o := by
  intro o ho
  have hr := (Consistent.exec h₀ h).recorded.record o ho
  have hst := fun status hne => hr.stamped status hne
  refine
    { path := hr.history
      present := hr.last
      paidAt := hst .paid (by decide)
      confirmedAt := hst .confirmed (by decide)
      expiredAt := hst .expired (by decide)
      cancelledAt := hst .cancelled (by decide)
      terminalExclusive := hr.expired_or_cancelled
      confirmedNeedsPaid := hr.paid_of_confirmed
      owes := ?_
      frozen := ?_ }
  · rw [hr.owes]
    cases o.status <;> simp [OrderStatus.held]
  · intro hconf hzone
    obtain ⟨hold, hm, hord⟩ := hr.seat (by rw [hconf]; rfl) hzone
    exact ⟨hold, hm, hord, hr.frozen hconf hold hm hord⟩

/-- One block of ten seats and no order yet. -/
def blank : Backend where
  db := seatedDb

theorem blank_start : blank.Start := by constructor <;> intros <;> rfl

/-- Two seats for 100, order 7. -/
def twoSeats : Intent where
  user := 1
  event := 1
  quantity := 2
  totalPriceCents := 100
  key := 1
  zone := some 1
  seat := some ⟨1, 0⟩

/-- The payment of order 7. -/
def fullPayment : PaymentIntent where
  id := 50
  orderId := some 7
  amountReceived := some 100

def succeeded (event : StripeEventId) : StripeEvent := ⟨event, .succeeded, fullPayment⟩

/-- A user cancels, reading the order before the payment webhook writes and writing after its commit. -/
theorem orders_sound_race :
    ∃ s, Exec.exec (step {}) blank
        [.persist twoSeats 7 true, .start 0 (.webhook (succeeded 900)), .run 0 1, .run 0 2, .start 1 (.cancel 7 1),
          .run 1 3, .run 0 4, .run 0 5, .run 0 6, .run 1 7] = some s ∧
      ∃ o ∈ s.db.orders, o.status = .confirmed ∧ s.OrderSound o := by
  obtain ⟨s, hs, hp⟩ := Exec.exec_any (step {}) blank
    [.persist twoSeats 7 true, .start 0 (.webhook (succeeded 900)), .run 0 1, .run 0 2, .start 1 (.cancel 7 1),
      .run 1 3, .run 0 4, .run 0 5, .run 0 6, .run 1 7]
    (fun s => ∃ o ∈ s.db.orders, o.status = .confirmed) (by decide +kernel)
  rw [decide_eq_true_eq] at hp
  obtain ⟨o, ho, hst⟩ := hp
  exact ⟨s, hs, o, ho, hst, orders_sound blank_start hs o ho⟩

end Backend

end Ticketing
