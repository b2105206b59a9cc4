import Ticketing.Base.Tally
import Ticketing.Ledger
import Ticketing.Settlement

/-!
# Conservation of stock and quota

What an event owes is the quantity of the accepted intents that are not settled, of the held orders, and of the
terminal orders whose release has not run.  Every step moves the stock counter and the quota of one user by the same
amount as it moves what is owed, so for a general-admission event the counter is the capacity less what is owed, and
a user's quota is what is owed to that user.
-/

namespace Ticketing

open Exec Tally

/-- A choice of intents and orders by event and user. -/
abbrev Scope := EventId → UserId → Bool

def ofEvent (event : EventId) : Scope := fun e _ => decide (e = event)

def ofUser (event : EventId) (user : UserId) : Scope := fun e u => decide (e = event ∧ u = user)

namespace World

/-- The intent is neither persisted nor refunded. -/
def unsettled (w : World) (i : Intent) : Bool := !w.db.hasKey i.key && !w.redis.released (.deadLetter i.key)

def unsettledSum (w : World) (S : Scope) : Int :=
  tally (fun i => S i.event i.user && w.unsettled i) Intent.quantity w.log

/-- The pending, paid and confirmed orders. -/
def heldSum (w : World) (S : Scope) : Int :=
  tally (fun o => S o.event o.user && o.status.held) Order.quantity w.db.orders

/-- The expired and cancelled orders whose release has not run. -/
def owingSum (w : World) (S : Scope) : Int :=
  tally (fun o => S o.event o.user && (!o.status.held && !w.redis.released (.order o.id))) Order.quantity w.db.orders

def owed (w : World) (S : Scope) : Int := w.unsettledSum S + w.heldSum S + w.owingSum S

/-- An order still counts: it is held, or its release has not run. -/
def outstanding (w : World) (o : Order) : Bool := o.status.held || !w.redis.released (.order o.id)

theorem heldSum_add_owingSum (w : World) (S : Scope) :
    w.heldSum S + w.owingSum S =
      tally (fun o => S o.event o.user && w.outstanding o) Order.quantity w.db.orders := by
  refine (tally_or ?_ ?_).symm
  · intro o _
    unfold outstanding
    cases S o.event o.user <;> cases o.status.held <;> simp
  · intro o _ h
    cases hst : o.status.held <;> simp [hst] at h

/-- The sum the database computes over the held orders of an event. -/
theorem sold_eq_heldSum (w : World) (event : EventId) : w.db.sold event = w.heldSum (ofEvent event) := by
  unfold Db.sold World.heldSum
  refine tally_congr fun o _ => ?_
  simp [ofEvent, Bool.decide_and]

private theorem lookup_foldl_incr (l : List Order) (h : Hash UserId Int) (user : UserId) :
    ((l.foldl (fun h o => Hash.incr h o.user o.quantity) h).lookup user).getD 0 =
      (h.lookup user).getD 0 + tally (fun o => o.user = user) Order.quantity l := by
  induction l generalizing h with
  | nil => simp
  | cons o l ih =>
    rw [List.foldl_cons, ih, tally_cons, Hash.lookup_incr]
    by_cases hu : user = o.user
    · subst hu
      simp [add_assoc]
    · simp [hu, Ne.symm hu]

/-- The sums the database computes by user. -/
theorem lookup_soldByUser (w : World) (event : EventId) (user : UserId) :
    ((w.db.soldByUser event).lookup user).getD 0 = w.heldSum (ofUser event user) := by
  unfold Db.soldByUser World.heldSum
  rw [lookup_foldl_incr, tally, tally, List.filter_filter]
  have hfilter : (w.db.orders.filter fun o => decide (o.user = user) && decide
    (o.event = event ∧ o.status.held = true)) =
      w.db.orders.filter fun o => ofUser event user o.event o.user && o.status.held := by
    refine List.filter_congr fun o _ => ?_
    rw [Bool.eq_iff_iff]
    simp only [ofUser, Bool.and_eq_true, decide_eq_true_eq]
    tauto
  rw [hfilter]
  simp

end World

/-! ### What is owed, step by step -/

section Owed

variable {w w' : World}

theorem owed_frame (horders : w'.db.orders = w.db.orders) (hlog : w'.log = w.log)
    (hr : w'.redis.released = w.redis.released) (S : Scope) : w'.owed S = w.owed S := by
  unfold World.owed World.unsettledSum World.heldSum World.owingSum World.unsettled Db.hasKey
  rw [horders, hlog, hr]

theorem owed_accept (hl : w.Linked) (ho : w.Originated) {i : Intent} (hfresh : w.redis.claims i.key = none)
    (hdb : w'.db = w.db) (hlog : w'.log = w.log ++ [i]) (hr : w'.redis.released = w.redis.released) (S : Scope) :
    w'.owed S = w.owed S + if S i.event i.user then i.quantity else 0 := by
  have hclaimed : ∀ j ∈ w.log, j.key ≠ i.key := by
    intro j hj hk
    have := hl.claimed j hj
    rw [hk, hfresh] at this
    cases this
  have hno : w.unsettled i = true := by
    have hkey : w.db.hasKey i.key = false := by
      simp only [Db.hasKey, List.any_eq_false, decide_eq_true_eq]
      intro o hom hk
      obtain ⟨j, hj, hs⟩ := ho.order o hom
      exact hclaimed j hj (hs.key.trans hk)
    have hmark : w.redis.released (.deadLetter i.key) = false := by
      by_contra h
      obtain ⟨j, hj, hk⟩ := ho.marker i.key (by simpa using h)
      exact hclaimed j hj hk
    simp [World.unsettled, hkey, hmark]
  unfold World.owed World.heldSum World.owingSum
  rw [show w'.unsettledSum S = w.unsettledSum S + if S i.event i.user then i.quantity else 0 from ?_, hdb, hr]
  · omega
  · unfold World.unsettledSum
    have hsame : w'.unsettled = w.unsettled := by
      funext j
      unfold World.unsettled
      rw [hdb, hr]
    rw [hlog, hsame, tally_concat, hno, Bool.and_true]

theorem owed_commit (hl : w.Linked) {n : Nat} {x : Handler} {id : OrderId} {fk : Bool} {db : Db}
    {p : HandlerPhase} (hx : w.handlers n = some x) (hrel : w.redis.released (.deadLetter x.intent.key) = false)
    (hdb : w.db.insertIntent x.intent id fk = some db) (S : Scope) :
    ({ w.setHandler n (some { x with phase := p }) with db } : World).owed S = w.owed S := by
  obtain ⟨hacc, -, heq⟩ := insertIntent_eq_some hdb
  have hno := hasKey_of_accepts hacc
  -- the intent leaves the unsettled ones and its order joins the held ones
  have hun : tally (fun i => S i.event i.user && (!db.hasKey i.key && !w.redis.released (.deadLetter i.key)))
      Intent.quantity w.log = w.unsettledSum S - if S x.intent.event x.intent.user then x.intent.quantity else 0 := by
    rw [tally_drop (p := fun i => S i.event i.user && w.unsettled i) hl.keys (hl.handled n x hx)]
    · simp only [World.unsettledSum, World.unsettled, hno, hrel, Bool.not_false, Bool.and_true]
    · simp [hasKey_insertIntent hdb]
    · intro j _ hk
      simp only [World.unsettled, hasKey_insertIntent hdb]
      rw [decide_eq_false (fun h => hk h.symm), Bool.or_false]
  unfold World.owed World.heldSum World.owingSum
  show tally (fun i => S i.event i.user && (!db.hasKey i.key && !w.redis.released (.deadLetter i.key)))
      Intent.quantity w.log + tally _ _ db.orders + tally _ _ db.orders = _
  rw [hun, heq, tally_concat, tally_concat]
  simp only [Intent.order, OrderStatus.held, Bool.and_true, Bool.not_true, Bool.false_and, Bool.and_false,
    Bool.false_eq_true, if_false, World.setHandler]
  omega

theorem owed_refund (hl : w.Linked) {i : Intent} (hi : i ∈ w.log) (hno : w.db.hasKey i.key = false)
    (hrel : w.redis.released (.deadLetter i.key) = false) (hdb : w'.db = w.db) (hlog : w'.log = w.log)
    (hr : w'.redis.released = Function.update w.redis.released (.deadLetter i.key) true) (S : Scope) :
    w'.owed S = w.owed S - if S i.event i.user then i.quantity else 0 := by
  have hun : w'.unsettledSum S = w.unsettledSum S - if S i.event i.user then i.quantity else 0 := by
    unfold World.unsettledSum
    rw [hlog, tally_drop (p := fun i => S i.event i.user && w.unsettled i) hl.keys hi]
    · simp [World.unsettled, hno, hrel]
    · simp [World.unsettled, hr]
    · intro j _ hk
      simp only [World.unsettled, hdb, hr]
      rw [Function.update_of_ne (by simpa using hk)]
  have howing : w'.owingSum S = w.owingSum S := by
    unfold World.owingSum
    rw [hdb]
    refine tally_congr fun o _ => ?_
    rw [hr, Function.update_of_ne (by simp)]
  unfold World.owed
  rw [hun, howing, show w'.heldSum S = w.heldSum S by unfold World.heldSum; rw [hdb]]
  omega

theorem owed_return (hl : w.Linked) {o : Order} (hterm : w.db.Terminal o)
    (hrel : w.redis.released (.order o.id) = false) (hdb : w'.db = w.db) (hlog : w'.log = w.log)
    (hr : w'.redis.released = Function.update w.redis.released (.order o.id) true) (S : Scope) :
    w'.owed S = w.owed S - if S o.event o.user then o.quantity else 0 := by
  obtain ⟨o₁, ho₁, hs, hst⟩ := hterm
  have hun : w'.unsettledSum S = w.unsettledSum S := by
    unfold World.unsettledSum World.unsettled
    rw [hdb, hlog]
    refine tally_congr fun i _ => ?_
    rw [hr, Function.update_of_ne (by simp)]
  have howing : w'.owingSum S = w.owingSum S - if S o.event o.user then o.quantity else 0 := by
    unfold World.owingSum
    rw [hdb, tally_drop
      (p := fun o => S o.event o.user && (!o.status.held && !w.redis.released (.order o.id))) hl.db.ids ho₁]
    · simp [hs.event, hs.user, hs.quantity, hs.id, hst, hrel]
    · simp [hr, hs.id]
    · intro o' _ hid
      rw [hr, Function.update_of_ne (by simpa [hs.id] using hid)]
  unfold World.owed
  rw [hun, howing, show w'.heldSum S = w.heldSum S by unfold World.heldSum; rw [hdb]]
  omega

/-- A transition changes no order's standing: a held order has not been released. -/
theorem outstanding_transition (hl : w.Linked) {id : OrderId} {new : OrderStatus} {now : Time} {db : Db}
    (hdb : w.db.transition id new now = some db) {o : Order} (ho : o ∈ w.db.orders) :
    ({ w with db } : World).outstanding (if o.id = id then o.stamp new now else o) = w.outstanding o := by
  have hheld := fun hid => (hl.db.held_of_transition hdb ho hid).1
  unfold World.outstanding
  split
  · rename_i hid
    have hrel : w.redis.released (.order o.id) = false := by
      by_contra h
      obtain ⟨o', ho', hid', hst⟩ := hl.released o.id (by simpa using h)
      obtain rfl := hl.db.order_unique ho' ho hid'
      rw [hheld hid] at hst
      cases hst
    simp [hrel]
  · rfl

theorem orders_transition {id : OrderId} {new : OrderStatus} {now : Time} {db : Db}
    (hdb : w.db.transition id new now = some db) :
    db.orders = w.db.orders.map fun o => if o.id = id then o.stamp new now else o := by
  obtain ⟨o₀, -, -, rfl⟩ := transition_eq_some hdb
  rfl

theorem owed_transition (hl : w.Linked) {id : OrderId} {new : OrderStatus} {now : Time} {db : Db}
    (hdb : w.db.transition id new now = some db) (S : Scope) : ({ w with db } : World).owed S = w.owed S := by
  unfold World.owed
  rw [Int.add_assoc, Int.add_assoc, World.heldSum_add_owingSum, World.heldSum_add_owingSum]
  congr 1
  · unfold World.unsettledSum World.unsettled
    refine tally_congr fun i _ => ?_
    simp only [hasKey_transition hdb]
  · show tally _ _ db.orders = _
    rw [orders_transition hdb]
    refine tally_map (fun o ho => ?_) fun o _ => ?_
    · rw [outstanding_transition hl hdb ho]
      split <;> simp
    · split <;> simp

theorem World.Originated.quantity_pos (ho : w.Originated) (hl : w.Linked) {o : Order} (hom : o ∈ w.db.orders) :
    1 ≤ o.quantity := by
  obtain ⟨i, hi, hs⟩ := ho.order o hom
  have := hl.pos i hi
  rw [← hs.quantity]
  exact this

theorem unsettledSum_nonneg (hl : w.Linked) (S : Scope) : 0 ≤ w.unsettledSum S :=
  tally_nonneg fun i hi _ => by have := hl.pos i hi; omega

theorem heldSum_nonneg (hl : w.Linked) (ho : w.Originated) (S : Scope) : 0 ≤ w.heldSum S :=
  tally_nonneg fun o hom _ => by have := ho.quantity_pos hl hom; omega

theorem owingSum_nonneg (hl : w.Linked) (ho : w.Originated) (S : Scope) : 0 ≤ w.owingSum S :=
  tally_nonneg fun o hom _ => by have := ho.quantity_pos hl hom; omega

theorem owed_nonneg (hl : w.Linked) (ho : w.Originated) (S : Scope) : 0 ≤ w.owed S := by
  have h1 := unsettledSum_nonneg hl S
  have h2 := heldSum_nonneg hl ho S
  have h3 := owingSum_nonneg hl ho S
  unfold World.owed
  omega

/-- Before the first request nothing is owed. -/
theorem owed_start (hstart : w.Start) (hunsold : w.db.Unsold) (S : Scope) : w.owed S = 0 := by
  simp [World.owed, World.unsettledSum, World.heldSum, World.owingSum, hstart.log, hunsold.orders]

end Owed

/-! ### Stock and quota move with what is owed -/

theorem held_returnQuota (r : Redis) (e e' : EventId) (u u' : UserId) (n : Int) :
    (r.returnQuota e u n).held e' u' =
      if e' = e ∧ u' = u then (if r.held e u - n ≤ 0 then 0 else r.held e u - n) else r.held e' u' := by
  by_cases he : e' = e
  · subst he
    show (AList.lookup u' (Function.update r.purchased e' (if r.held e' u - n ≤ 0 then
      AList.erase u (Hash.incr (r.purchased e') u (-n)) else Hash.incr (r.purchased e') u (-n)) e')).getD 0 = _
    rw [Function.update_self]
    by_cases hu : u' = u
    · subst hu
      by_cases hleft : r.held e' u' - n ≤ 0
      · simp [hleft]
      · simp only [hleft, if_false, and_self, if_true, Hash.lookup_incr, Option.getD_some]
        rfl
    · have hne : ¬ (e' = e' ∧ u' = u) := fun h => hu h.2
      rw [if_neg hne]
      by_cases hleft : r.held e' u - n ≤ 0
      · rw [if_pos hleft, Hash.lookup_erase_ite, if_neg hu, Hash.lookup_incr, if_neg hu]; rfl
      · rw [if_neg hleft, Hash.lookup_incr, if_neg hu]; rfl
  · simp [Redis.held, Redis.returnQuota, he]

/-- What a step other than a reconcile does to what is owed, to the stock and to the quotas. -/
inductive StockEffect (cfg : Settings) (w w' : World) : Prop where
  /-- Nothing moves. -/
  | still (owed : ∀ S, w'.owed S = w.owed S) (available : w'.redis.available = w.redis.available)
      (purchased : w'.redis.purchased = w.redis.purchased)
  /-- `n` tickets are taken for a user within the limit, from enough stock or by a seat claim. -/
  | take (event : EventId) (user : UserId) (n : Int) (pos : 1 ≤ n)
      (owed : ∀ S, w'.owed S = w.owed S + if S event user then n else 0)
      (available : w'.redis.available = (w.redis.addAvailable event (-n)).available)
      (purchased : w'.redis.purchased = (w.redis.chargeQuota event user n).purchased)
      (quota : w.redis.held event user + n ≤ cfg.maxTicketsPerUserPerEvent)
      (stock : (∃ avail, w.redis.available event = some avail ∧ n ≤ avail) ∨
        ∃ c call, w.calls c = some call ∧ call.event = event)
  /-- `n` tickets are returned. -/
  | give (event : EventId) (user : UserId) (n : Int) (pos : 1 ≤ n)
      (owed : ∀ S, w'.owed S = w.owed S - if S event user then n else 0)
      (available : w'.redis.available = (w.redis.addAvailable event n).available)
      (purchased : w'.redis.purchased = (w.redis.returnQuota event user n).purchased)

/-- The action is neither a step of a reconcile nor a loss of the stock key. -/
def NoReconcile (_ : World) : Act → Prop
  | .reconcile _ => False
  | .lose _ => False
  | _ => True

section Effect

variable {cfg : Settings} {w w' : World}

private theorem StockEffect.same (hdb : w'.db.orders = w.db.orders) (hlog : w'.log = w.log)
    (hr : w'.redis.released = w.redis.released) (ha : w'.redis.available = w.redis.available)
    (hp : w'.redis.purchased = w.redis.purchased) : StockEffect cfg w w' :=
  .still (owed_frame hdb hlog hr) ha hp

theorem stockEffect_step {a : Act} (hl : w.Linked) (ho : w.Originated) (hs : SettleInv w) (hC : CommitSafe w a)
    (hq : NoReconcile w a) (h : Ticketing.step cfg w a = some w') : StockEffect cfg w w' := by
  cases a with
  | intake a =>
    rcases stepIntake_cases h with ⟨b, hok, rfl⟩ | ⟨c, call, b, hcall, hok, rfl⟩ | ⟨zones, calls, -, -, rfl⟩
    · exact .take b.event b.user b.quantity hok.pos
        (owed_accept (i := b.intent) hl ho hok.fresh rfl rfl rfl) rfl rfl
        (by have := hok.quota; rw [hok.limit] at this; exact this) (.inl hok.stock)
    · exact .take b.event b.user b.length hok.pos
        (owed_accept (i := b.intent) hl ho hok.fresh rfl rfl rfl) rfl rfl
        (by have := hok.quota; rw [hok.limit] at this; exact this) (.inr ⟨c, call, hcall, hok.event.symm⟩)
    · exact .same rfl rfl rfl rfl rfl
  | settle a =>
    rcases stepSettle_cases h with ⟨n, x, id, fk, db, rfl, hx, hp, -, hdb, rfl⟩ | ⟨n, x, w₁, hx, hp, hw₁, rfl⟩ |
      ⟨redis, handlers, hquiet, -, rfl⟩
    · exact .still (owed_commit hl hx (hC x db hx hp hdb).1 hdb) rfl rfl
    · have hmem := hl.handled n x hx
      have hno := hs.doomed n x hx (by rw [hp]; rfl)
      rcases World.refund_cases hw₁ with ⟨-, hrel, rfl⟩ | ⟨seat, zone, -, -, hok, rfl⟩ | rfl
      · exact .give x.intent.event x.intent.user x.intent.quantity (hl.pos _ hmem)
          (owed_refund hl hmem hno hrel rfl rfl rfl) rfl rfl
      · exact .give x.intent.event x.intent.user x.intent.quantity (hl.pos _ hmem)
          (owed_refund hl hmem hno hok.unmarked rfl rfl rfl) rfl rfl
      · exact .same rfl rfl rfl rfl rfl
    · exact .same rfl rfl hquiet.released hquiet.available hquiet.purchased
  | transition id new now =>
    obtain ⟨db, hdb, rfl⟩ := Option.map_eq_some_iff.1 h
    exact .still (owed_transition hl hdb) rfl rfl
  | release a =>
    have hpos : ∀ n x, w.releases n = some x → 1 ≤ x.order.quantity := by
      intro n x hx
      obtain ⟨o, hom, hsame, -⟩ := hl.release n x hx
      rw [← hsame.quantity]
      exact ho.quantity_pos hl hom
    rcases stepRelease_cases h with ⟨n, x, hold, -, -, rfl⟩ | ⟨n, x, hx, -, -, hrel, rfl⟩ |
      ⟨n, x, hold, zone, hx, hp, -, hok, rfl⟩ | ⟨outbox, releases, -, -, rfl⟩
    · exact .same rfl rfl rfl rfl rfl
    · exact .give x.order.event x.order.user x.order.quantity (hpos n x hx)
        (owed_return hl (hl.release n x hx) hrel rfl rfl rfl) rfl rfl
    · have hlen : hold.length = x.order.quantity := (hl.carried n x hold hx (.inr hp)).length
      refine .give x.order.event x.order.user x.order.quantity (hpos n x hx)
        (owed_return hl (hl.release n x hx) hok.unmarked rfl rfl rfl) ?_ ?_
      · rw [← hlen]; rfl
      · rw [← hlen]; rfl
    · exact .same rfl rfl rfl rfl rfl
  | reconcile a => exact hq.elim
  | rebuild a =>
    rcases stepRebuild_cases h with ⟨n, job, blocks, held, -, -, -, rfl⟩ | ⟨rebuilds, -, rfl⟩ <;>
      exact .same rfl rfl rfl rfl rfl
  | lose event => exact hq.elim

/-- The event has no seat map, so no seat request is about it. -/
structure Unseated (event : EventId) (w : World) : Prop where
  row : (w.db.events event).any (fun e => e.seated) = false
  calls : ∀ c call, w.calls c = some call → call.event ≠ event

theorem Unseated.step {event : EventId} {a : Act} (hu : Unseated event w)
    (h : Ticketing.step cfg w a = some w') : Unseated event w' := by
  refine ⟨by rw [(tablesKept_step h).events]; exact hu.row, ?_⟩
  cases a with
  | intake a =>
    rcases stepIntake_cases h with ⟨b, -, rfl⟩ | ⟨c, call, b, hcall, -, rfl⟩ | ⟨zones, calls, -, hfrom, rfl⟩
    · exact hu.calls
    · intro c' call' hc'
      simp only [World.setCall] at hc'
      by_cases hc : c' = c
      · subst hc
        rw [Function.update_self, Option.some.injEq] at hc'
        subst hc'
        exact hu.calls c' call hcall
      · rw [Function.update_of_ne hc] at hc'
        exact hu.calls c' call' hc'
    · intro c call hc
      rcases hfrom c call hc with ⟨call₀, hc₀, hev, -⟩ | hseat
      · rw [hev]
        exact hu.calls c call₀ hc₀
      · rintro rfl
        rw [hu.row] at hseat
        cases hseat
  | _ =>
    rw [(recordsKept_step h).calls (by simp)]
    exact hu.calls

end Effect

/-! ### Conservation -/

/-- The stock of the event is what is not owed, and the quota of a user is what is owed to that user; the
event may have a seat map. -/
structure Balanced (event : EventId) (total : Int) (w : World) : Prop where
  linked : w.Linked
  originated : w.Originated
  settled : SettleInv w
  available : w.redis.available event = some (total - w.owed (ofEvent event))
  quota : ∀ u, w.redis.held event u = w.owed (ofUser event u)

namespace Balanced

variable {cfg : Settings} {event : EventId} {total : Int} {w w' : World}

theorem start (hstart : w.Start) (hunsold : w.db.Unsold) (hstock : w.redis.available event = some total)
    (hquota : w.redis.purchased event = ∅) : Balanced event total w := by
  refine ⟨.start hstart hunsold.linked, .start hstart hunsold, .start hstart, ?_, fun u => ?_⟩
  · rw [owed_start hstart hunsold, hstock]
    simp
  · rw [owed_start hstart hunsold]
    simp [Redis.held, hquota]

private theorem held_congr {r r' : Redis} (h : r'.purchased = r.purchased) (event : EventId) (u : UserId) :
    r'.held event u = r.held event u :=
  congrArg (fun p => ((p event).lookup u).getD 0) h

/-- Tickets that are taken are owed. -/
private theorem take (hi : Balanced event total w) {e : EventId} {u : UserId} {n : Int}
    (howed : ∀ S, w'.owed S = w.owed S + if S e u then n else 0)
    (hav : w'.redis.available = (w.redis.addAvailable e (-n)).available)
    (hpur : w'.redis.purchased = (w.redis.chargeQuota e u n).purchased) :
    w'.redis.available event = some (total - w'.owed (ofEvent event)) ∧
      ∀ v, w'.redis.held event v = w'.owed (ofUser event v) := by
  constructor
  · rw [hav, howed]
    show Function.update w.redis.available e (incrBy (w.redis.available e) (-n)) event = _
    by_cases he : e = event
    · subst he
      rw [Function.update_self, hi.available]
      simp only [ofEvent, decide_true, if_true, incrBy, Option.getD_some, Option.some.injEq]
      omega
    · rw [Function.update_of_ne (fun h => he h.symm), hi.available]
      simp [ofEvent, he]
  · intro v
    rw [held_congr hpur, held_chargeQuota, howed]
    by_cases hk : e = event ∧ u = v
    · obtain ⟨rfl, rfl⟩ := hk
      have hS : ofUser e u e u = true := by simp [ofUser]
      rw [if_pos ⟨rfl, rfl⟩, hS, if_pos rfl, hi.quota]
    · have hS : ofUser event v e u = false := by simp [ofUser, hk]
      rw [if_neg (fun hk' => hk ⟨hk'.1.symm, hk'.2.symm⟩), hS, if_neg (by decide), hi.quota]
      exact (add_zero _).symm

/-- Tickets that are returned were owed. -/
private theorem give (hi : Balanced event total w) {e : EventId} {u : UserId} {n : Int} (hnn : ∀ S, 0 ≤ w'.owed S)
    (howed : ∀ S, w'.owed S = w.owed S - if S e u then n else 0)
    (hav : w'.redis.available = (w.redis.addAvailable e n).available)
    (hpur : w'.redis.purchased = (w.redis.returnQuota e u n).purchased) :
    w'.redis.available event = some (total - w'.owed (ofEvent event)) ∧
      ∀ v, w'.redis.held event v = w'.owed (ofUser event v) := by
  constructor
  · rw [hav]
    show Function.update w.redis.available e (incrBy (w.redis.available e) n) event = _
    by_cases he : e = event
    · subst he
      rw [Function.update_self, hi.available, howed]
      simp only [ofEvent, decide_true, if_true, incrBy, Option.getD_some, Option.some.injEq]
      omega
    · rw [Function.update_of_ne (fun h => he h.symm), hi.available, howed]
      simp [ofEvent, he]
  · intro v
    rw [held_congr hpur, held_returnQuota]
    by_cases hk : e = event ∧ u = v
    · -- what is left of the quota is what is still owed, so the deletion at zero loses nothing
      obtain ⟨rfl, rfl⟩ := hk
      have hleft := howed (ofUser e u)
      have hzero := hnn (ofUser e u)
      have hS : ofUser e u e u = true := by simp [ofUser]
      have hquota := hi.quota u
      rw [hS, if_pos rfl] at hleft
      rw [if_pos ⟨rfl, rfl⟩]
      split <;> omega
    · have hS : ofUser event v e u = false := by simp [ofUser, hk]
      rw [if_neg (fun hk' => hk ⟨hk'.1.symm, hk'.2.symm⟩), hi.quota, howed, hS, if_neg (by decide)]
      exact (sub_zero _).symm

theorem step {a : Act} (hi : Balanced event total w) (hC : CommitSafe w a) (hq : NoReconcile w a)
    (h : Ticketing.step cfg w a = some w') : Balanced event total w' := by
  have hl' := hi.linked.step h
  have ho' := hi.originated.step hi.linked h
  have hs' := hi.settled.step hC h
  rcases stockEffect_step hi.linked hi.originated hi.settled hC hq h with
    ⟨howed, hav, hpur⟩ | ⟨e, u, n, -, howed, hav, hpur, -, -⟩ | ⟨e, u, n, -, howed, hav, hpur⟩
  · refine ⟨hl', ho', hs', ?_, fun v => ?_⟩
    · rw [hav, howed]
      exact hi.available
    · rw [howed, held_congr hpur]
      exact hi.quota v
  · obtain ⟨hstock, hquota⟩ := hi.take howed hav hpur
    exact ⟨hl', ho', hs', hstock, hquota⟩
  · obtain ⟨hstock, hquota⟩ := hi.give (owed_nonneg hl' ho') howed hav hpur
    exact ⟨hl', ho', hs', hstock, hquota⟩

end Balanced

/-- A general-admission event that has just gone on sale: nothing is sold, and Redis holds its whole stock. -/
structure OnSale (event : EventId) (total : Int) (w : World) : Prop where
  start : w.Start
  unsold : w.db.Unsold
  row : w.db.events event = some ⟨total, false⟩
  total_pos : 0 < total
  available : w.redis.available event = some total
  purchased : w.redis.purchased event = ∅

/-- The stock of the event is what is not owed, and the quota of a user is what is owed to that user. -/
structure Conserved (cfg : Settings) (event : EventId) (total : Int) (w : World) : Prop where
  linked : w.Linked
  originated : w.Originated
  settled : SettleInv w
  unseated : Unseated event w
  available : w.redis.available event = some (total - w.owed (ofEvent event))
  quota : ∀ u, w.redis.held event u = w.owed (ofUser event u)
  nonneg : w.owed (ofEvent event) ≤ total
  limit : ∀ u, w.owed (ofUser event u) ≤ cfg.maxTicketsPerUserPerEvent

namespace Conserved

variable {cfg : Settings} {event : EventId} {total : Int} {w w' : World}

theorem start (h : OnSale event total w) : Conserved cfg event total w := by
  have hbal := Balanced.start h.start h.unsold h.available h.purchased
  refine ⟨hbal.linked, hbal.originated, hbal.settled, ?_, hbal.available, hbal.quota, ?_, fun u => ?_⟩
  · exact ⟨by simp [h.row], fun c call hc => by rw [h.start.calls c] at hc; cases hc⟩
  · rw [owed_start h.start h.unsold]
    exact le_of_lt h.total_pos
  · rw [owed_start h.start h.unsold]
    exact Int.natCast_nonneg _

theorem balanced (hi : Conserved cfg event total w) : Balanced event total w :=
  ⟨hi.linked, hi.originated, hi.settled, hi.available, hi.quota⟩

theorem step {a : Act} (hi : Conserved cfg event total w) (hC : CommitSafe w a) (hq : NoReconcile w a)
    (h : Ticketing.step cfg w a = some w') : Conserved cfg event total w' := by
  obtain ⟨hl', ho', hs', hav', hquota'⟩ := hi.balanced.step hC hq h
  have hu' := hi.unseated.step h
  suffices hbounds : w'.owed (ofEvent event) ≤ total ∧
    ∀ u, w'.owed (ofUser event u) ≤ cfg.maxTicketsPerUserPerEvent from
    ⟨hl', ho', hs', hu', hav', hquota', hbounds.1, hbounds.2⟩
  rcases stockEffect_step hi.linked hi.originated hi.settled hC hq h with
    ⟨howed, -, -⟩ | ⟨e, u, n, hpos, howed, -, -, hquota, hstock⟩ | ⟨e, u, n, hpos, howed, -, -⟩
  · refine ⟨?_, fun v => ?_⟩
    · rw [howed]
      exact hi.nonneg
    · rw [howed]
      exact hi.limit v
  · by_cases he : e = event
    · subst he
      have hown : ∀ v, ofEvent e e v = true := fun v => by simp [ofEvent]
      have hcall : ¬ ∃ c call, w.calls c = some call ∧ call.event = e := by
        rintro ⟨c, call, hc, hev⟩
        exact hi.unseated.calls c call hc hev
      obtain ⟨avail, hval, hle⟩ := hstock.resolve_right hcall
      have hEq : avail = total - w.owed (ofEvent e) := by
        have := hval.symm.trans hi.available
        simpa using this
      refine ⟨?_, fun v => ?_⟩
      · rw [howed, hown u, if_pos rfl]
        omega
      · rw [howed]
        by_cases hv : u = v
        · subst hv
          have hS : ofUser e u e u = true := by simp [ofUser]
          have := hi.quota u
          rw [hS, if_pos rfl]
          omega
        · have hS : ofUser e v e u = false := by simp [ofUser, hv]
          have := hi.limit v
          rw [hS, if_neg (by decide)]
          omega
    · -- the tickets of another event
      refine ⟨?_, fun v => ?_⟩
      · have hS : ofEvent event e u = false := by simp [ofEvent, he]
        rw [howed, hS, if_neg (by decide), add_zero]
        exact hi.nonneg
      · have hS : ofUser event v e u = false := by simp [ofUser, he]
        rw [howed, hS, if_neg (by decide), add_zero]
        exact hi.limit v
  · have hle : ∀ S, w'.owed S ≤ w.owed S := by
      intro S
      rw [howed]
      split <;> omega
    exact ⟨(hle _).trans hi.nonneg, fun v => (hle _).trans (hi.limit v)⟩

end Conserved

/-- Stock and quota of a general-admission event are conserved: in every run with one handler for each stream entry
and no reconcile, the stock counter is the capacity less the unsettled intents, the held orders and the terminal
orders not yet released; it is never negative; and the quota of each user is the same sum for that user and within
the limit. -/
theorem stock_and_quota_conserved {cfg : Settings} {event : EventId} {total : Int} {w₀ w : World} {acts : List Act}
    (hsale : OnSale event total w₀) (hone : Along (step cfg) OneHandler w₀ acts)
    (hquiet : Along (step cfg) NoReconcile w₀ acts) (h : exec (step cfg) w₀ acts = some w) :
    w.redis.available event = some (total - w.unsettledSum (ofEvent event) - w.heldSum (ofEvent event) -
      w.owingSum (ofEvent event)) ∧
    0 ≤ total - w.unsettledSum (ofEvent event) - w.heldSum (ofEvent event) - w.owingSum (ofEvent event) ∧
    ∀ user, w.redis.held event user =
        w.unsettledSum (ofUser event user) + w.heldSum (ofUser event user) + w.owingSum (ofUser event user) ∧
      w.redis.held event user ≤ cfg.maxTicketsPerUserPerEvent := by
  have hsafe := (commitSafe_of_oneHandler hsale.start hone).and hquiet
  have hinv : Conserved cfg event total w :=
    exec_invariant (fun _ _ _ hC hs hi => hi.step hC.1 hC.2 hs) (Conserved.start hsale) hsafe h
  have hav := hinv.available
  have hnn := hinv.nonneg
  unfold World.owed at hav hnn
  refine ⟨?_, by omega, fun user => ⟨hinv.quota user, ?_⟩⟩
  · rw [hav, Option.some.injEq]
    omega
  · rw [hinv.quota]
    exact hinv.limit user

theorem unseatedStart_onSale : OnSale 1 10 unseatedStart where
  start := unseatedStart_start
  unsold := ⟨rfl, rfl, rfl⟩
  row := rfl
  total_pos := by decide
  available := rfl
  purchased := rfl

/-- The order of the reservation is committed, expires, and is not released yet. -/
def expiredOrder : List Act := promptConsumer ++ [.transition 7 .expired 0]

theorem stock_and_quota_conserved_expired : OnSale 1 10 unseatedStart ∧
    ∃ w, exec (step {}) unseatedStart (.intake (.reserve sampleReserve) :: expiredOrder) = some w ∧
      w.owingSum (ofEvent 1) = 2 ∧ w.redis.available 1 = some 8 ∧
      w.redis.available 1 =
        some (10 - w.unsettledSum (ofEvent 1) - w.heldSum (ofEvent 1) - w.owingSum (ofEvent 1)) := by
  refine ⟨unseatedStart_onSale, ?_⟩
  obtain ⟨w, hw, hp⟩ := exec_any (step {}) unseatedStart (.intake (.reserve sampleReserve) :: expiredOrder)
    (fun w => w.owingSum (ofEvent 1) = 2 ∧ w.redis.available 1 = some 8) (by decide +kernel)
  rw [decide_eq_true_eq] at hp
  have hone : Along (step {}) OneHandler unseatedStart (.intake (.reserve sampleReserve) :: expiredOrder) := by
    refine ⟨trivial, fun w₁ h₁ => ⟨?_, fun w₂ _ => Along.of_forall (by simp [OneHandler])⟩⟩
    -- nothing works on the entry when it is delivered
    intro m y hy
    have hsame : w₁.handlers = unseatedStart.handlers := handlers_step_intake h₁
    rw [hsame] at hy
    cases hy
  have hquiet : Along (step {}) NoReconcile unseatedStart (.intake (.reserve sampleReserve) :: expiredOrder) :=
    Along.of_forall (by simp [expiredOrder, promptConsumer, NoReconcile])
  exact ⟨w, hw, hp.1, hp.2, (stock_and_quota_conserved unseatedStart_onSale hone hquiet hw).1⟩

end Ticketing
