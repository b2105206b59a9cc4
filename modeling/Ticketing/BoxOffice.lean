import Ticketing.Base.Refine
import Ticketing.Stock

/-!
# The order pipeline as a box office

What the general-admission path is for, stated without Redis, streams or processes: a box office has a number
of tickets and a limit for each customer, answers one request at a time, and takes every sale back at most
once.  The pipeline refines it: the replies of the reservation script and the releases that the scripts
carried out, in the order in which they happened, are a run of the box office, and the Redis counters are its
counts.  This is so as long as no claim and no marker expires; a key that comes back after its day is a sale
of its own to Redis.
-/

namespace Ticketing

open Exec Tally

/-! ### The box office -/

/-- A sale under an idempotency key; it is outstanding until it is taken back. -/
structure Sale where
  key : Key
  user : UserId
  quantity : Int
  outstanding : Bool := true
deriving DecidableEq

structure BoxOffice where
  stock : Int
  limit : Int
  /-- Keys that requests for other events have used. -/
  elsewhere : List Key := []
  sales : List Sale := []
deriving DecidableEq

namespace BoxOffice

inductive Answer where
  | duplicate
  | soldOut (left : Int)
  | overLimit (already : Int)
  | sold (left : Int)
deriving DecidableEq

inductive Op where
  | request (key : Key) (user : UserId) (quantity : Int) (answer : Answer)
  /-- A request for another event uses the key. -/
  | elsewhere (key : Key)
  | takeBack (key : Key)
deriving DecidableEq

/-- The tickets that are not out. -/
def left (b : BoxOffice) : Int := b.stock - tally Sale.outstanding Sale.quantity b.sales

/-- The tickets a customer holds. -/
def held (b : BoxOffice) (user : UserId) : Int :=
  tally (fun s => decide (s.user = user) && s.outstanding) Sale.quantity b.sales

def used (b : BoxOffice) (key : Key) : Bool := b.sales.any (fun s => s.key = key) || b.elsewhere.any fun k => k = key

def answer (b : BoxOffice) (key : Key) (user : UserId) (quantity : Int) : Answer :=
  if b.used key then .duplicate
  else if b.left < quantity then .soldOut b.left
  else if b.limit < b.held user + quantity then .overLimit (b.held user)
  else .sold (b.left - quantity)

/-- The sale of this key is no longer outstanding. -/
def close (b : BoxOffice) (key : Key) : BoxOffice :=
  { b with sales := b.sales.map fun s => if s.key = key then { s with outstanding := false } else s }

def step (b : BoxOffice) : Op → Option BoxOffice
  | .request key user quantity answer =>
    if 1 ≤ quantity ∧ answer = b.answer key user quantity then
      match answer with
      | .sold _ => some { b with sales := b.sales ++ [{ key, user, quantity }] }
      | _ => some b
    else none
  | .elsewhere key => if b.used key then none else some { b with elsewhere := b.elsewhere ++ [key] }
  | .takeBack key => if b.sales.any fun s => s.key = key ∧ s.outstanding then some (b.close key) else none

/-- Opened with its whole stock. -/
def opened (stock limit : Int) : BoxOffice := { stock, limit }

/-- What a box office keeps: it never sells more than its stock or past a limit. -/
structure Fair (b : BoxOffice) : Prop where
  pos : ∀ s ∈ b.sales, 1 ≤ s.quantity
  left : 0 ≤ b.left
  held : ∀ u, b.held u ≤ b.limit

theorem fair_opened {stock limit : Int} (hs : 0 ≤ stock) (hl : 0 ≤ limit) : (opened stock limit).Fair where
  pos := by simp [opened]
  left := by simpa [opened, BoxOffice.left] using hs
  held u := by simpa [opened, BoxOffice.held] using hl

/-- Taking a sale back counts no sale that was not counted. -/
private theorem tally_close (b : BoxOffice) (key : Key) (p : UserId → Bool) (hpos : ∀ s ∈ b.sales, 1 ≤ s.quantity) :
    tally (fun s => p s.user && s.outstanding) Sale.quantity (b.close key).sales ≤
      tally (fun s => p s.user && s.outstanding) Sale.quantity b.sales := by
  have hmap : tally (fun s => p s.user && s.outstanding) Sale.quantity (b.close key).sales =
      tally (fun s => p s.user && (s.outstanding && !decide (s.key = key))) Sale.quantity b.sales := by
    refine tally_map (fun s _ => ?_) fun s _ => ?_
    · by_cases hk : s.key = key <;> simp [hk]
    · by_cases hk : s.key = key <;> simp [hk]
  rw [hmap]
  refine tally_mono (fun s _ h => ?_) fun s hs => by have := hpos s hs; omega
  simp only [Bool.and_eq_true] at h ⊢
  exact ⟨h.1, h.2.1⟩

theorem Fair.step {b b' : BoxOffice} {op : Op} (hb : b.Fair) (h : b.step op = some b') : b'.Fair := by
  cases op with
  | request key user quantity answer =>
    simp only [BoxOffice.step] at h
    split at h
    · rename_i hg
      split at h
      · rename_i left
        obtain rfl := Option.some.inj h
        have hans := hg.2
        unfold BoxOffice.answer at hans
        split at hans
        · cases hans
        split at hans
        · cases hans
        split at hans
        · cases hans
        refine ⟨?_, ?_, fun u => ?_⟩
        · intro s hs
          rcases List.mem_append.1 hs with hs | hs
          · exact hb.pos s hs
          · rw [List.mem_singleton.1 hs]
            exact hg.1
        · simp only [BoxOffice.left, tally_concat, if_true]
          have : b.left = b.stock - tally Sale.outstanding Sale.quantity b.sales := rfl
          omega
        · have hu := hb.held u
          simp only [BoxOffice.held, tally_concat, Bool.and_true, decide_eq_true_eq]
          change b.held u + _ ≤ _
          split
          · rename_i heq
            subst heq
            omega
          · omega
      · obtain rfl := Option.some.inj h
        exact hb
    · cases h
  | elsewhere key =>
    simp only [BoxOffice.step] at h
    split at h
    · cases h
    · obtain rfl := Option.some.inj h
      exact ⟨hb.pos, hb.left, hb.held⟩
  | takeBack key =>
    simp only [BoxOffice.step] at h
    split at h
    · obtain rfl := Option.some.inj h
      refine ⟨?_, ?_, fun u => ?_⟩
      · intro s hs
        obtain ⟨s₀, hs₀, rfl⟩ := List.mem_map.1 hs
        have := hb.pos s₀ hs₀
        split <;> exact this
      · have hclose := tally_close b key (fun _ => true) hb.pos
        have hleft := hb.left
        simp only [Bool.true_and] at hclose
        unfold BoxOffice.left at hleft ⊢
        change 0 ≤ b.stock - _
        change tally Sale.outstanding Sale.quantity _ ≤ tally Sale.outstanding Sale.quantity _ at hclose
        omega
      · exact (tally_close b key (fun v => decide (v = u)) hb.pos).trans (hb.held u)
    · cases h

end BoxOffice

/-! ### The box office behind a state of the system -/

namespace World

/-- The tickets of an accepted intent are still out: it is not settled, or its order is outstanding. -/
def live (w : World) (i : Intent) : Bool :=
  w.unsettled i || w.db.orders.any fun o => o.key = i.key && w.outstanding o

/-- The box office of an event. -/
def boxOffice (cfg : Settings) (event : EventId) (total : Int) (w : World) : BoxOffice where
  stock := total
  limit := cfg.maxTicketsPerUserPerEvent
  elsewhere := (w.log.filter fun i => i.event ≠ event).map Intent.key
  sales := (w.log.filter fun i => i.event = event).map fun i =>
    { key := i.key, user := i.user, quantity := i.quantity, outstanding := w.live i }

end World

/-- The answer that a reply of the reservation script is. -/
def ReserveReply.answer : ReserveReply → BoxOffice.Answer
  | .dup => .duplicate
  | .soldOut remaining => .soldOut remaining
  | .overLimit already _ => .overLimit already
  | .ok _ remaining => .sold remaining

/-- The key of the sale that a release takes back: the marker names it, or the order that the marker names. -/
def Marker.saleKey (db : Db) : Marker → Option Key
  | .deadLetter key => some key
  | .order id => (db.orderById id).map Order.key

def Returned.event : Returned → EventId
  | .quantity a => a.event
  | .seats a => a.event

/-- The order or the dead letter that a release was made for. -/
def Returned.cause : Returned → Marker
  | .quantity a => a.marker
  | .seats a => a.marker

/-- What a step shows of an event: the reply to a request for it, keys that requests for other events use, and the
releases of its tickets. -/
def observe (event : EventId) (w : World) (a : Act) (w' : World) : List BoxOffice.Op :=
  (match a with
    | .intake (.reserve b) =>
      if b.event = event then [.request b.key b.user b.quantity (reserveAndEnqueue w.redis b).1.answer] else []
    | _ => []) ++
  ((w'.log.drop w.log.length).filter fun i => i.event ≠ event).map (fun i => .elsewhere i.key) ++
  ((w'.returned.drop w.returned.length).filter fun r => r.event = event).filterMap fun r =>
    (r.cause.saleKey w.db).map .takeBack

/-! ### What a step does to the sales -/

section Sales

variable {cfg : Settings} {w w' : World}

/-- What a step does to the sales. -/
inductive SaleEffect (w w' : World) : Prop where
  | still (log : w'.log = w.log) (returned : w'.returned = w.returned) (live : ∀ i ∈ w.log, w'.live i = w.live i)
  | take (i : Intent) (fresh : w.redis.claims i.key = none) (log : w'.log = w.log ++ [i])
      (returned : w'.returned = w.returned) (live : ∀ j ∈ w.log, w'.live j = w.live j) (new : w'.live i = true)
  | give (i : Intent) (r : Returned) (mem : i ∈ w.log) (event : r.event = i.event)
      (key : r.cause.saleKey w.db = some i.key) (log : w'.log = w.log) (returned : w'.returned = w.returned ++ [r])
      (was : w.live i = true) (live : ∀ j ∈ w.log, w'.live j = (w.live j && !decide (j.key = i.key)))

theorem live_frame (horders : w'.db.orders = w.db.orders) (hr : w'.redis.released = w.redis.released) (i : Intent) :
    w'.live i = w.live i := by
  unfold World.live World.unsettled World.outstanding Db.hasKey
  rw [horders, hr]

private theorem SaleEffect.same (horders : w'.db.orders = w.db.orders) (hr : w'.redis.released = w.redis.released)
    (hlog : w'.log = w.log) (hret : w'.returned = w.returned) : SaleEffect w w' :=
  .still hlog hret fun i _ => live_frame horders hr i

/-- A key without a claim has no order and no dead-letter marker. -/
theorem unsettled_of_fresh (hl : w.Linked) (ho : w.Originated) {i : Intent} (hfresh : w.redis.claims i.key = none) :
    w.unsettled i = true := by
  have hclaimed : ∀ j ∈ w.log, j.key ≠ i.key := by
    intro j hj hk
    have := hl.claimed j hj
    rw [hk, hfresh] at this
    cases this
  have hkey : w.db.hasKey i.key = false := by
    simp only [Db.hasKey, List.any_eq_false, decide_eq_true_eq]
    intro o hom hk
    obtain ⟨j, hj, hs⟩ := ho.order o hom
    exact hclaimed j hj (hs.key.trans hk)
  have hmark : w.redis.released (.deadLetter i.key) = false := by
    by_contra h
    obtain ⟨j, hj, hk⟩ := ho.marker i.key (by simpa using h)
    exact hclaimed j hj hk
  simp [World.unsettled, hkey, hmark]

private theorem SaleEffect.accept (hl : w.Linked) (ho : w.Originated) {i : Intent}
    (hfresh : w.redis.claims i.key = none) (horders : w'.db.orders = w.db.orders)
    (hr : w'.redis.released = w.redis.released) (hlog : w'.log = w.log ++ [i]) (hret : w'.returned = w.returned) :
    SaleEffect w w' := by
  refine .take i hfresh hlog hret (fun j _ => live_frame horders hr j) ?_
  rw [live_frame horders hr, World.live, unsettled_of_fresh hl ho hfresh, Bool.true_or]

/-- The tickets of an intent stay out when it becomes an order. -/
private theorem live_commit {n : Nat} {x : Handler} {id : OrderId} {fk : Bool} {db : Db} {p : HandlerPhase}
    (hrel : w.redis.released (.deadLetter x.intent.key) = false)
    (hdb : w.db.insertIntent x.intent id fk = some db) (j : Intent) :
    ({ w.setHandler n (some { x with phase := p }) with db } : World).live j = w.live j := by
  obtain ⟨hacc, -, heq⟩ := insertIntent_eq_some hdb
  have hno := hasKey_of_accepts hacc
  have hkey := hasKey_insertIntent hdb j.key
  unfold World.live World.unsettled
  change (!db.hasKey j.key && _ || db.orders.any _) = _
  rw [hkey, heq, List.any_append]
  by_cases hk : x.intent.key = j.key
  · rw [← hk, hno]
    simp [Intent.order, World.outstanding, OrderStatus.held, World.setHandler, hrel]
  · simp only [Intent.order, hk, decide_false, Bool.or_false, World.setHandler, World.outstanding, List.any_cons,
      Bool.false_and, List.any_nil]

private theorem live_refund {i : Intent} (hno : w.db.hasKey i.key = false)
    (hdb : w'.db = w.db) (hr : w'.redis.released = Function.update w.redis.released (.deadLetter i.key) true)
    (j : Intent) : w'.live j = (w.live j && !decide (j.key = i.key)) := by
  have hout : ∀ o, w'.outstanding o = w.outstanding o := by
    intro o
    unfold World.outstanding
    rw [hr, Function.update_of_ne (by simp)]
  unfold World.live World.unsettled
  simp only [hdb, hr, hout]
  by_cases hk : j.key = i.key
  · have hnone : (w.db.orders.any fun o => decide (o.key = i.key) && w.outstanding o) = false := by
      simp only [Db.hasKey, List.any_eq_false, decide_eq_true_eq] at hno
      simp only [List.any_eq_false, Bool.and_eq_true, decide_eq_true_eq, not_and]
      exact fun o ho hkey => absurd hkey (hno o ho)
    simp [hk, hnone]
  · rw [Function.update_of_ne (by simpa using hk)]
    simp [hk]

private theorem live_return (hl : w.Linked) (hk : w.OneOrderPerKey) {o : Order} (ho : o ∈ w.db.orders)
    (hst : o.status.held = false) (hdb : w'.db = w.db)
    (hr : w'.redis.released = Function.update w.redis.released (.order o.id) true) (j : Intent) :
    w'.live j = (w.live j && !decide (j.key = o.key)) := by
  have hdead : ∀ k, w'.redis.released (.deadLetter k) = w.redis.released (.deadLetter k) := by
    intro k
    rw [hr, Function.update_of_ne (by simp)]
  have hout : ∀ o' ∈ w.db.orders, w'.outstanding o' = (w.outstanding o' && !decide (o'.key = o.key)) := by
    intro o' ho'
    by_cases heq : o' = o
    · subst heq
      simp [World.outstanding, hst, hr]
    · have hid : o'.id ≠ o.id := fun h => heq (hl.db.order_unique ho' ho h)
      have hkey : o'.key ≠ o.key := fun h => heq (List.inj_on_of_nodup_map hk ho' ho h)
      rw [World.outstanding, World.outstanding, hr, Function.update_of_ne (by simpa using hid)]
      simp [hkey]
  have hany : (w.db.orders.any fun o' => decide (o'.key = j.key) && w'.outstanding o') =
      ((w.db.orders.any fun o' => decide (o'.key = j.key) && w.outstanding o') && !decide (j.key = o.key)) := by
    rw [Bool.eq_iff_iff]
    simp only [Bool.and_eq_true, List.any_eq_true, decide_eq_true_eq, Bool.not_eq_true', decide_eq_false_iff_not]
    constructor
    · rintro ⟨o', ho', hkey, hlive⟩
      rw [hout o' ho', Bool.and_eq_true, hkey] at hlive
      exact ⟨⟨o', ho', hkey, hlive.1⟩, by simpa using hlive.2⟩
    · rintro ⟨⟨o', ho', hkey, hlive⟩, hne⟩
      refine ⟨o', ho', hkey, ?_⟩
      rw [hout o' ho', hkey, hlive]
      simpa using hne
  have hun : w'.unsettled j = (w.unsettled j && !decide (j.key = o.key)) := by
    unfold World.unsettled
    rw [hdb, hdead]
    by_cases hkey : j.key = o.key
    · have : w.db.hasKey j.key = true := by
        simp only [Db.hasKey, List.any_eq_true, decide_eq_true_eq]
        exact ⟨o, ho, hkey.symm⟩
      simp [this]
    · simp [hkey]
  unfold World.live
  rw [hun, hdb, hany, Bool.and_or_distrib_right]

theorem live_transition (hl : w.Linked) {id : OrderId} {new : OrderStatus} {now : Time} {db : Db}
    (hdb : w.db.transition id new now = some db) (j : Intent) : ({ w with db } : World).live j = w.live j := by
  have hany : (db.orders.any fun o => decide (o.key = j.key) && ({ w with db } : World).outstanding o) =
      w.db.orders.any fun o => decide (o.key = j.key) && w.outstanding o := by
    rw [orders_transition hdb, List.any_map, Bool.eq_iff_iff]
    simp only [List.any_eq_true, Function.comp_apply, Bool.and_eq_true, decide_eq_true_eq]
    refine exists_congr fun o => and_congr_right fun ho => ?_
    rw [outstanding_transition hl hdb ho]
    split <;> simp
  unfold World.live
  rw [hany]
  simp only [World.unsettled, hasKey_transition hdb]

theorem saleEffect_step {a : Act} (hl : w.Linked) (ho : w.Originated) (hs : SettleInv w) (hk : w.OneOrderPerKey)
    (hC : CommitSafe w a) (h : Ticketing.step cfg w a = some w') : SaleEffect w w' := by
  cases a with
  | intake a =>
    rcases stepIntake_cases h with ⟨b, hok, rfl⟩ | ⟨c, call, b, -, hok, rfl⟩ | ⟨zones, calls, -, -, rfl⟩
    · exact .accept (i := b.intent) hl ho hok.fresh rfl rfl rfl rfl
    · exact .accept (i := b.intent) hl ho hok.fresh rfl rfl rfl rfl
    · exact .same rfl rfl rfl rfl
  | settle a =>
    rcases stepSettle_cases h with ⟨n, x, id, fk, db, rfl, hx, hp, -, hdb, rfl⟩ | ⟨n, x, w₁, hx, hp, hw₁, rfl⟩ |
      ⟨redis, handlers, hquiet, -, rfl⟩
    · exact .still rfl rfl fun j _ => live_commit (hC x db hx hp hdb).1 hdb j
    · have hmem := hl.handled n x hx
      have hno := hs.doomed n x hx (by rw [hp]; rfl)
      have hwas : w.redis.released (.deadLetter x.intent.key) = false → w.live x.intent = true := by
        intro hrel
        simp [World.live, World.unsettled, hno, hrel]
      rcases World.refund_cases hw₁ with ⟨-, hrel, rfl⟩ | ⟨seat, zone, -, -, hok, rfl⟩ | rfl
      · refine .give x.intent (.quantity x.intent.releaseArgs) hmem rfl rfl rfl rfl (hwas hrel) fun j _ => ?_
        refine live_refund hno ?_ ?_ j <;> rfl
      · refine .give x.intent (.seats (x.intent.releaseSeatsArgs zone seat)) hmem rfl rfl rfl rfl (hwas hok.unmarked)
          fun j _ => ?_
        refine live_refund hno ?_ ?_ j <;> rfl
      · exact .same rfl rfl rfl rfl
    · exact .same rfl hquiet.released rfl rfl
  | transition id new now =>
    obtain ⟨db, hdb, rfl⟩ := Option.map_eq_some_iff.1 h
    exact .still rfl rfl fun j _ => live_transition hl hdb j
  | release a =>
    -- the order a release works on, and the intent it came from
    have hback : ∀ n x, w.releases n = some x → w.redis.released (.order x.order.id) = false →
        ∃ i ∈ w.log, x.order.event = i.event ∧ (Marker.order x.order.id).saleKey w.db = some i.key ∧ w.live i = true ∧
          ∀ w' : World, w'.db = w.db → w'.redis.released = Function.update w.redis.released (.order x.order.id) true →
            ∀ j, w'.live j = (w.live j && !decide (j.key = i.key)) := by
      intro n x hx hrel
      obtain ⟨o, hom, hsame, hst⟩ := hl.release n x hx
      obtain ⟨i, hi, hfrom⟩ := ho.order o hom
      have hkey : i.key = o.key := hfrom.key
      have hfind : w.db.orderById x.order.id = some o := by
        rw [← hsame.id]
        cases hf : w.db.orderById o.id with
        | none => exact absurd (List.find?_eq_none.1 hf o hom) (by simp)
        | some o' =>
          obtain ⟨hom', hid⟩ := orderById_eq_some hf
          rw [hl.db.order_unique hom' hom hid]
      refine ⟨i, hi, (hfrom.event.trans hsame.event).symm, ?_, ?_, ?_⟩
      · rw [Marker.saleKey, hfind, hkey]
        rfl
      · rw [← hsame.id] at hrel
        have hout : w.outstanding o = true := by simp [World.outstanding, hrel]
        have hany : (w.db.orders.any fun o => decide (o.key = i.key) && w.outstanding o) = true := by
          simp only [List.any_eq_true, Bool.and_eq_true, decide_eq_true_eq]
          exact ⟨o, hom, hkey.symm, hout⟩
        rw [World.live, hany, Bool.or_true]
      · intro w' hdb hr j
        rw [← hsame.id] at hr
        rw [hkey]
        exact live_return hl hk hom hst hdb hr j
    rcases stepRelease_cases h with ⟨n, x, hold, -, -, rfl⟩ | ⟨n, x, hx, -, -, hrel, rfl⟩ |
      ⟨n, x, hold, zone, hx, hp, -, hok, rfl⟩ | ⟨outbox, releases, -, -, rfl⟩
    · exact .same rfl rfl rfl rfl
    · obtain ⟨i, hi, hev, hkey, hwas, hlive⟩ := hback n x hx hrel
      refine .give i (.quantity x.order.releaseArgs) hi hev hkey rfl rfl hwas fun j _ => ?_
      refine hlive _ ?_ ?_ j <;> rfl
    · obtain ⟨i, hi, hev, hkey, hwas, hlive⟩ := hback n x hx hok.unmarked
      refine .give i (.seats (x.order.releaseSeatsArgs zone hold)) hi hev hkey rfl rfl hwas fun j _ => ?_
      refine hlive _ ?_ ?_ j <;> rfl
    · exact .same rfl rfl rfl rfl
  | reconcile a =>
    rcases stepReconcile_cases h with ⟨n, job, remaining, owing, -, -, -, rfl⟩ | ⟨n, job, rows, -, -, rfl⟩ |
      ⟨reconciles, -, rfl⟩ <;> exact .same rfl rfl rfl rfl
  | rebuild a =>
    rcases stepRebuild_cases h with ⟨n, job, blocks, held, -, -, -, rfl⟩ | ⟨rebuilds, -, rfl⟩ <;>
      exact .same rfl rfl rfl rfl
  | lose event =>
    obtain rfl := Option.some.inj h
    exact .same rfl rfl rfl rfl

/-! ### The counters are the counts of the box office -/

/-- What is owed is what the live intents took. -/
theorem owed_eq_live (hl : w.Linked) (ho : w.Originated) (hk : w.OneOrderPerKey) (S : Scope) :
    w.owed S = tally (fun i => S i.event i.user && w.live i) Intent.quantity w.log := by
  have horders : w.heldSum S + w.owingSum S = tally
      (fun i => S i.event i.user && w.db.orders.any fun o => decide (o.key = i.key) && w.outstanding o)
      Intent.quantity w.log := by
    rw [World.heldSum_add_owingSum]
    refine tally_link hl.keys hk fun o hom => ?_
    obtain ⟨i, hi, hs⟩ := ho.order o hom
    refine ⟨i, hi, hs.key, hs.quantity, ?_⟩
    rw [show i.event = o.event from hs.event, show i.user = o.user from hs.user]
  unfold World.owed
  rw [add_assoc, horders]
  refine (tally_or (fun i _ => ?_) fun i _ => ?_).symm
  · unfold World.live
    rw [Bool.and_or_distrib_left]
  · -- an intent with an order is settled
    rintro ⟨hun, hany⟩
    simp only [Bool.and_eq_true, World.unsettled, Bool.not_eq_true', List.any_eq_true, decide_eq_true_eq] at hun hany
    obtain ⟨-, o, hom, hkey, -⟩ := hany
    have hhas : w.db.hasKey i.key = true := by
      simp only [Db.hasKey, List.any_eq_true, decide_eq_true_eq]
      exact ⟨o, hom, hkey⟩
    rw [hhas] at hun
    exact absurd hun.2.1 (by decide)

/-- What relates a state of the system to the box office of an event. -/
structure SaleInv (cfg : Settings) (event : EventId) (total : Int) (w : World) : Prop where
  conserved : Conserved cfg event total w
  orders : w.OneOrderPerKey
  claims : ∀ k, (w.redis.claims k).isSome = true → ∃ i ∈ w.log, i.key = k

/-- A claim is written for an intent that was accepted. -/
private theorem claims_step {a : Act} (hl : w.Linked)
    (hclaims : ∀ k, (w.redis.claims k).isSome = true → ∃ i ∈ w.log, i.key = k)
    (h : Ticketing.step cfg w a = some w') (k : Key) (hk : (w'.redis.claims k).isSome = true) :
    ∃ i ∈ w'.log, i.key = k := by
  have hset : ∀ (i : Intent) state, (Function.update w.redis.claims i.key (some state) k).isSome = true →
      i.key = k ∨ ∃ i ∈ w.log, i.key = k := by
    intro i state hsome
    by_cases hkey : k = i.key
    · exact .inl hkey.symm
    · rw [Function.update_of_ne hkey] at hsome
      exact .inr (hclaims k hsome)
  cases a with
  | intake a =>
    rcases stepIntake_cases h with ⟨b, -, rfl⟩ | ⟨c, call, b, -, -, rfl⟩ | ⟨zones, calls, -, -, rfl⟩
    · rcases hset b.intent .pending hk with hkey | ⟨i, hi, hkey⟩
      · exact ⟨b.intent, by simp, hkey⟩
      · exact ⟨i, List.mem_append_left _ hi, hkey⟩
    · rcases hset b.intent .pending hk with hkey | ⟨i, hi, hkey⟩
      · exact ⟨b.intent, by simp, hkey⟩
      · exact ⟨i, List.mem_append_left _ hi, hkey⟩
    · exact hclaims k hk
  | settle a =>
    have hmove : SettleMove cfg w a w' := stepSettle_move h
    cases hmove with
    | @markFailed n x hx hp =>
      rcases hset x.intent .failed hk with hkey | hold
      · exact ⟨x.intent, hl.handled n x hx, hkey⟩
      · exact hold
    | @refund n x w₁ hx hp hw₁ =>
      rcases World.refund_cases hw₁ with ⟨-, -, rfl⟩ | ⟨seat, zone, -, -, -, rfl⟩ | rfl <;> exact hclaims k hk
    | _ => exact hclaims k hk
  | transition id new now =>
    obtain ⟨db, hdb, rfl⟩ := Option.map_eq_some_iff.1 h
    exact hclaims k hk
  | release a =>
    rcases stepRelease_cases h with ⟨n, x, hold, -, -, rfl⟩ | ⟨n, x, -, -, -, -, rfl⟩ |
      ⟨n, x, hold, zone, -, -, -, -, rfl⟩ | ⟨outbox, releases, -, -, rfl⟩ <;> exact hclaims k hk
  | reconcile a =>
    rcases stepReconcile_cases h with ⟨n, job, remaining, owing, -, -, -, rfl⟩ | ⟨n, job, rows, -, -, rfl⟩ |
      ⟨reconciles, -, rfl⟩ <;> exact hclaims k hk
  | rebuild a =>
    rcases stepRebuild_cases h with ⟨n, job, blocks, held, -, -, -, rfl⟩ | ⟨rebuilds, -, rfl⟩ <;> exact hclaims k hk
  | lose event =>
    obtain rfl := Option.some.inj h
    exact hclaims k hk

/-- The steps of a run without a reconcile in which no intent is settled twice. -/
def Plain (w : World) (a : Act) : Prop := CommitSafe w a ∧ NoReconcile w a

namespace SaleInv

variable {event : EventId} {total : Int}

theorem start (h : OnSale event total w) : SaleInv cfg event total w where
  conserved := .start h
  orders := by simp [World.OneOrderPerKey, h.unsold.orders]
  claims k hk := by simp [h.start.claims k] at hk

theorem step {a : Act} (hi : SaleInv cfg event total w) (hC : Plain w a) (h : Ticketing.step cfg w a = some w') :
    SaleInv cfg event total w' where
  conserved := hi.conserved.step hC.1 hC.2 h
  orders := hi.orders.step h
  claims := claims_step hi.conserved.linked hi.claims h

private theorem tally_filter (p r : Intent → Bool) (q : Intent → Int) (l : List Intent) :
    tally p q (l.filter r) = tally (fun i => r i && p i) q l := by
  unfold tally
  rw [List.filter_filter]
  refine congrArg (fun l => (List.map q l).sum) (List.filter_congr fun i _ => Bool.and_comm _ _)

theorem left_eq (hi : SaleInv cfg event total w) :
    w.redis.available event = some (w.boxOffice cfg event total).left := by
  have howed := owed_eq_live hi.conserved.linked hi.conserved.originated hi.orders (ofEvent event)
  rw [hi.conserved.available, howed, Option.some.injEq]
  have hsales : tally Sale.outstanding Sale.quantity (w.boxOffice cfg event total).sales =
      tally w.live Intent.quantity (w.log.filter fun i => i.event = event) :=
    tally_map (fun _ _ => rfl) fun _ _ => rfl
  unfold BoxOffice.left
  rw [hsales, tally_filter]
  rfl

theorem held_eq (hi : SaleInv cfg event total w) (user : UserId) :
    w.redis.held event user = (w.boxOffice cfg event total).held user := by
  have howed := owed_eq_live hi.conserved.linked hi.conserved.originated hi.orders (ofUser event user)
  rw [hi.conserved.quota, howed]
  have hsales : (w.boxOffice cfg event total).held user =
      tally (fun i => decide (i.user = user) && w.live i) Intent.quantity (w.log.filter fun i => i.event = event) :=
    tally_map (fun _ _ => rfl) fun _ _ => rfl
  rw [hsales, tally_filter]
  refine tally_congr fun i _ => ?_
  simp [ofUser, Bool.decide_and, Bool.and_assoc]

theorem used_eq (hi : SaleInv cfg event total w) (k : Key) :
    (w.boxOffice cfg event total).used k = (w.redis.claims k).isSome := by
  rw [Bool.eq_iff_iff]
  simp only [BoxOffice.used, World.boxOffice, List.any_map, Bool.or_eq_true, List.any_eq_true, List.mem_filter,
    Function.comp_apply, decide_eq_true_eq]
  constructor
  · rintro (⟨i, ⟨hi', -⟩, rfl⟩ | ⟨i, ⟨hi', -⟩, rfl⟩) <;> exact hi.conserved.linked.claimed i hi'
  · intro hk
    obtain ⟨i, him, rfl⟩ := hi.claims k hk
    by_cases he : i.event = event
    · exact .inl ⟨i, ⟨him, he⟩, rfl⟩
    · exact .inr ⟨i, ⟨him, by simpa using he⟩, rfl⟩

/-- The script answers as the box office does. -/
theorem answer_eq (hi : SaleInv cfg event total w) {b : ReserveArgs} (he : b.event = event)
    (hlim : b.limit = cfg.maxTicketsPerUserPerEvent) :
    (reserveAndEnqueue w.redis b).1.answer = (w.boxOffice cfg event total).answer b.key b.user b.quantity := by
  subst he
  unfold reserveAndEnqueue BoxOffice.answer
  rw [hi.used_eq, hi.left_eq, hi.held_eq, hlim]
  split
  · rfl
  · simp only
    split
    · rfl
    · change _ = if (cfg.maxTicketsPerUserPerEvent : Int) < _ then _ else _
      split <;> rfl

end SaleInv

/-! ### The pipeline is a run of the box office -/

private theorem log_reserve {b : ReserveArgs} (h : w.reserve cfg b = some w') :
    w'.log = w.log ∨ w'.log = w.log ++ [b.intent] := by
  unfold World.reserve at h
  simp only at h
  split at h
  · split at h
    · exact .inr (congrArg World.log (Option.some.inj h)).symm
    · exact .inl (congrArg World.log (Option.some.inj h)).symm
  · cases h

/-- A seat call accepts intents of its own event only. -/
private theorem log_stepIntake {a : IntakeAct} (ha : ∀ b, a ≠ .reserve b) (h : stepIntake cfg w a = some w') :
    w'.log = w.log ∨ ∃ c call i, w.calls c = some call ∧ i.event = call.event ∧ w'.log = w.log ++ [i] := by
  cases a with
  | reserve b => exact absurd rfl (ha b)
  | call c event zone user quantity price key =>
    simp only [stepIntake] at h
    split at h
    · exact .inl (congrArg World.log (Option.some.inj h)).symm
    · cases h
  | read c =>
    obtain ⟨call, -, h⟩ := Option.bind_eq_some_iff.1 h
    split at h
    · split at h <;> exact .inl (congrArg World.log (Option.some.inj h)).symm
    · cases h
  | claim c i =>
    obtain ⟨call, hc, h⟩ := Option.bind_eq_some_iff.1 h
    split at h
    · unfold World.claim at h
      split at h
      · exact .inl (congrArg World.log (Option.some.inj h)).symm
      · obtain ⟨pick, -, h⟩ := Option.bind_eq_some_iff.1 h
        split at h
        · exact .inl (congrArg World.log (Option.some.inj h)).symm
        · simp only at h
          split at h
          · exact .inr ⟨c, call, _, hc, rfl, (congrArg World.log (Option.some.inj h)).symm⟩
          · exact .inl (congrArg World.log (Option.some.inj h)).symm
          · exact .inl (congrArg World.log (Option.some.inj h)).symm
    · cases h
  | miss c =>
    obtain ⟨call, -, h⟩ := Option.bind_eq_some_iff.1 h
    split at h
    · unfold World.miss at h
      split at h
      · split at h
        · exact .inl (congrArg World.log (Option.some.inj h)).symm
        · simp only at h
          split at h <;> exact .inl (congrArg World.log (Option.some.inj h)).symm
      · cases h
    · cases h
  | relax c =>
    obtain ⟨call, -, h⟩ := Option.bind_eq_some_iff.1 h
    split at h
    · exact .inl (congrArg World.log (Option.some.inj h)).symm
    · cases h
  | forget c =>
    obtain ⟨call, -, h⟩ := Option.bind_eq_some_iff.1 h
    unfold World.forget at h
    simp only at h
    split at h
    · exact .inl (congrArg World.log (Option.some.inj h)).symm
    · exact .inl (congrArg World.log (Option.some.inj h)).symm
    · cases h
  | drop c => exact .inl (congrArg World.log (Option.some.inj h)).symm

variable {event : EventId} {total : Int}

private theorem boxOffice_of_live (hlog : w'.log = w.log) (hlive : ∀ i ∈ w.log, w'.live i = w.live i) :
    w'.boxOffice cfg event total = w.boxOffice cfg event total := by
  unfold World.boxOffice
  rw [hlog]
  refine congrArg (BoxOffice.mk total _ _) (List.map_congr_left fun i hi => ?_)
  rw [hlive i (List.mem_filter.1 hi).1]

private theorem boxOffice_take {i : Intent} (hlog : w'.log = w.log ++ [i]) (hlive : ∀ j ∈ w.log, w'.live j = w.live j)
    (hnew : w'.live i = true) (he : i.event = event) :
    w'.boxOffice cfg event total = { w.boxOffice cfg event total with
      sales := (w.boxOffice cfg event total).sales ++
        [{ key := i.key, user := i.user, quantity := i.quantity }] } := by
  have hold : (w.log.filter fun j => j.event = event).map (fun j => (⟨j.key, j.user, j.quantity, w'.live j⟩ : Sale)) =
      (w.log.filter fun j => j.event = event).map fun j => ⟨j.key, j.user, j.quantity, w.live j⟩ :=
    List.map_congr_left fun j hj => by rw [hlive j (List.mem_filter.1 hj).1]
  unfold World.boxOffice
  simp only [hlog, List.filter_append, List.map_append, hold]
  simp [he, hnew]

private theorem boxOffice_elsewhere {i : Intent} (hlog : w'.log = w.log ++ [i])
    (hlive : ∀ j ∈ w.log, w'.live j = w.live j) (he : i.event ≠ event) :
    w'.boxOffice cfg event total = { w.boxOffice cfg event total with
      elsewhere := (w.boxOffice cfg event total).elsewhere ++ [i.key] } := by
  have hold : (w.log.filter fun j => j.event = event).map (fun j => (⟨j.key, j.user, j.quantity, w'.live j⟩ : Sale)) =
      (w.log.filter fun j => j.event = event).map fun j => ⟨j.key, j.user, j.quantity, w.live j⟩ :=
    List.map_congr_left fun j hj => by rw [hlive j (List.mem_filter.1 hj).1]
  unfold World.boxOffice
  simp only [hlog, List.filter_append, List.map_append, hold]
  simp [he]

private theorem boxOffice_close {i : Intent} (hlog : w'.log = w.log)
    (hlive : ∀ j ∈ w.log, w'.live j = (w.live j && !decide (j.key = i.key))) :
    w'.boxOffice cfg event total = (w.boxOffice cfg event total).close i.key := by
  unfold World.boxOffice BoxOffice.close
  rw [hlog, List.map_map]
  refine congrArg (BoxOffice.mk total _ _) (List.map_congr_left fun j hj => ?_)
  rw [hlive j (List.mem_filter.1 hj).1]
  by_cases hk : j.key = i.key <;> simp [hk]

/-- Nothing changes when the key is not one of the event's sales. -/
private theorem close_of_not_sold {b : BoxOffice} {key : Key} (h : ∀ s ∈ b.sales, s.key ≠ key) : b.close key = b := by
  have hsales : (b.sales.map fun s => if s.key = key then { s with outstanding := false } else s) = b.sales := by
    refine (List.map_congr_left fun s hs => ?_).trans (List.map_id _)
    rw [if_neg (h s hs), id]
  unfold BoxOffice.close
  rw [hsales]

/-- A request for the event and the box office's answer to it. -/
private theorem refines_reserve (hi : SaleInv cfg event total w) {b : ReserveArgs} (he : b.event = event)
    (h : w.reserve cfg b = some w') :
    exec BoxOffice.step (w.boxOffice cfg event total) (observe event w (.intake (.reserve b)) w') =
      some (w'.boxOffice cfg event total) := by
  unfold World.reserve at h
  simp only at h
  split at h
  · rename_i hg
    have hans := hi.answer_eq he hg.2.2
    have hobs : w'.returned = w.returned → (∀ i ∈ w'.log.drop w.log.length, i.event = event) →
        observe event w (.intake (.reserve b)) w' =
          [.request b.key b.user b.quantity (reserveAndEnqueue w.redis b).1.answer] := by
      intro hret hlog
      have hnone : (w'.log.drop w.log.length).filter (fun i => i.event ≠ event) = [] := by
        rw [List.filter_eq_nil_iff]
        intro i him
        simpa using hlog i him
      unfold observe
      rw [hnone, hret, List.drop_length]
      simp [he]
    have hrun : ∀ answer, (reserveAndEnqueue w.redis b).1.answer = answer →
        exec BoxOffice.step (w.boxOffice cfg event total) [.request b.key b.user b.quantity answer] =
          match answer with
          | .sold _ => some { w.boxOffice cfg event total with
              sales := (w.boxOffice cfg event total).sales ++
                [{ key := b.key, user := b.user, quantity := b.quantity }] }
          | _ => some (w.boxOffice cfg event total) := by
      intro answer hanswer
      rw [hanswer] at hans
      simp only [exec, BoxOffice.step, if_pos (And.intro hg.2.1 hans)]
      cases answer <;> rfl
    rcases reserveAndEnqueue_cases w.redis b with ⟨id, rem, heq, hf, -, -⟩ | ⟨hsame, hne⟩
    · have hstep : w' = { w with redis := w.redis.reserve b, log := w.log ++ [b.intent] } := by
        rw [heq, Option.some.injEq] at h
        exact h.symm
      have hlive : ∀ j, w'.live j = w.live j := by
        intro j
        rw [hstep]
        exact live_frame rfl rfl j
      have hun := unsettled_of_fresh (i := b.intent) hi.conserved.linked hi.conserved.originated hf
      have hnew : w'.live b.intent = true := by
        rw [hlive, World.live, hun, Bool.true_or]
      rw [hobs (by rw [hstep]) (by simp [hstep, ReserveArgs.intent, he]), hrun _ rfl, heq,
        boxOffice_take (by rw [hstep]) (fun j _ => hlive j) hnew he]
      rfl
    · have hstep : w' = w := by
        rw [hsame] at h
        split at h
        · rename_i id rem hok
          exact absurd hok (hne id rem)
        · exact (Option.some.inj h).symm
      rw [hobs (by rw [hstep]) (by simp [hstep]), hrun _ rfl, hstep]
      cases hreply : (reserveAndEnqueue w.redis b).1 with
      | ok id rem => exact absurd hreply (hne id rem)
      | _ => rfl
  · cases h

/-- A step is a run of the box office. -/
theorem boxOffice_refines : Refines (Ticketing.step cfg) Plain (SaleInv cfg event total) BoxOffice.step
    (World.boxOffice cfg event total) (observe event) := by
  intro w a w' hC hi h
  by_cases hreserve : ∃ b : ReserveArgs, a = .intake (.reserve b) ∧ b.event = event
  · obtain ⟨b, rfl, he⟩ := hreserve
    exact refines_reserve hi he h
  -- any other step shows what it added to the two records
  have hobs : observe event w a w' =
      ((w'.log.drop w.log.length).filter fun i => i.event ≠ event).map (fun i => .elsewhere i.key) ++
        ((w'.returned.drop w.returned.length).filter fun r => r.event = event).filterMap fun r =>
          (r.cause.saleKey w.db).map .takeBack := by
    unfold observe
    split
    · rename_i b
      rw [if_neg fun he => hreserve ⟨b, rfl, he⟩, List.nil_append]
    · rw [List.nil_append]
  have hl := hi.conserved.linked
  rw [hobs]
  rcases saleEffect_step hl hi.conserved.originated hi.conserved.settled hi.orders hC.1 h with
    ⟨hlog, hret, hlive⟩ | ⟨i, hfresh, hlog, hret, hlive, hnew⟩ | ⟨i, r, hmem, hev, hkey, hlog, hret, hwas, hlive⟩
  · rw [hlog, hret, List.drop_length, List.drop_length, boxOffice_of_live hlog hlive]
    rfl
  · -- a request for another event, since no seat call is about this one
    have hother : i.event ≠ event := by
      have hgrow : w'.log ≠ w.log := by simp [hlog]
      cases a with
      | intake a =>
        by_cases ha : ∃ b, a = .reserve b
        · obtain ⟨b, rfl⟩ := ha
          rcases log_reserve h with hsame | happ
          · exact absurd hsame hgrow
          · rw [hlog, List.append_cancel_left_eq, List.cons.injEq] at happ
            rw [happ.1]
            exact fun he => hreserve ⟨b, rfl, he⟩
        · rcases log_stepIntake (fun b hb => ha ⟨b, hb⟩) h with hsame | ⟨c, call, j, hc, hj, happ⟩
          · exact absurd hsame hgrow
          · rw [hlog, List.append_cancel_left_eq, List.cons.injEq] at happ
            rw [happ.1, hj]
            exact hi.conserved.unseated.calls c call hc
      | _ => exact absurd ((recordsKept_step h).log (by simp)) hgrow
    have hused : (w.boxOffice cfg event total).used i.key = false := by
      rw [hi.used_eq, hfresh]
      rfl
    rw [hlog, hret, List.drop_left, List.drop_length, boxOffice_elsewhere hlog hlive hother]
    simp [hother, exec, BoxOffice.step, hused]
  · rw [hlog, hret, List.drop_length, List.drop_left, boxOffice_close hlog hlive]
    by_cases he : i.event = event
    · -- a ticket of the event comes back, and its sale was outstanding
      have hout : (w.boxOffice cfg event total).sales.any (fun s => s.key = i.key ∧ s.outstanding) = true := by
        rw [List.any_eq_true]
        refine ⟨⟨i.key, i.user, i.quantity, w.live i⟩, ?_, by simp [hwas]⟩
        exact List.mem_map.2 ⟨i, List.mem_filter.2 ⟨hmem, by simpa using he⟩, rfl⟩
      simp only [List.filter_cons, hev, he, decide_true, if_true, List.filter_nil, List.map_nil, List.nil_append,
        List.filterMap_cons, hkey, Option.map_some, List.filterMap_nil, exec, BoxOffice.step]
      rw [if_pos hout]
      rfl
    · have hno : ∀ s ∈ (w.boxOffice cfg event total).sales, s.key ≠ i.key := by
        intro s hs hk
        obtain ⟨j, hj, rfl⟩ := List.mem_map.1 hs
        obtain ⟨hjm, hje⟩ := List.mem_filter.1 hj
        obtain rfl := hl.intent_unique hjm hmem hk
        exact he (by simpa using hje)
      rw [close_of_not_sold hno]
      simp [hev, he, exec]

end Sales

/-- The general-admission pipeline is a box office: in every run with one handler for each stream entry, no
reconcile, no lost key and nothing expired, the replies to the requests for the event and the releases of its
tickets, in the order in which they happened, are a run of the box office, which ends with the counters that
Redis holds. -/
theorem pipeline_refines_box_office {cfg : Settings} {event : EventId} {total : Int} {w₀ w : World} {acts : List Act}
    (hsale : OnSale event total w₀) (hone : Along (step cfg) OneHandler w₀ acts)
    (hquiet : Along (step cfg) NoReconcile w₀ acts) (h : exec (step cfg) w₀ acts = some w) :
    ∃ b, exec BoxOffice.step (.opened total cfg.maxTicketsPerUserPerEvent)
        (trace (step cfg) (observe event) w₀ acts) = some b ∧
      b.Fair ∧ w.redis.available event = some b.left ∧ (∀ u, w.redis.held event u = b.held u) ∧
      b.sales.map (fun s => (s.key, s.user, s.quantity)) =
        (w.log.filter fun i => i.event = event).map fun i => (i.key, i.user, i.quantity) := by
  have hplain : Along (step cfg) Plain w₀ acts := (commitSafe_of_oneHandler hsale.start hone).and hquiet
  have hstep : ∀ w a w', Plain w a → step cfg w a = some w' → SaleInv cfg event total w →
      SaleInv cfg event total w' :=
    fun _ _ _ hC hs hi => hi.step hC hs
  have hopened : w₀.boxOffice cfg event total = .opened total cfg.maxTicketsPerUserPerEvent := by
    unfold World.boxOffice BoxOffice.opened
    rw [hsale.start.log]
    rfl
  have hrun := exec_refines boxOffice_refines hstep (SaleInv.start hsale) hplain h
  have hfair : (w.boxOffice cfg event total).Fair := by
    refine exec_refines_invariant boxOffice_refines hstep (fun _ _ _ hs hb => hb.step hs)
      (SaleInv.start hsale) ?_ hplain h
    rw [hopened]
    exact BoxOffice.fair_opened (le_of_lt hsale.total_pos) (Int.natCast_nonneg _)
  have hinv := exec_invariant hstep (SaleInv.start hsale) hplain h
  rw [hopened] at hrun
  refine ⟨w.boxOffice cfg event total, hrun, hfair, hinv.left_eq, hinv.held_eq, ?_⟩
  simp [World.boxOffice, Function.comp_def]

/-- A sale of two tickets, a refused request, and the release of the order when it expires. -/
def soldAndReturned : List Act :=
  .intake (.reserve sampleReserve) :: .intake
    (.reserve { sampleReserve with key := 9, quantity := 3 }) :: expiredOrder ++
    [.release (.start 0 7), .release (.releaseQuantity 0)]

theorem pipeline_refines_box_office_sample : OnSale 1 10 unseatedStart ∧
    ∃ w, exec (step {}) unseatedStart soldAndReturned = some w ∧
      trace (step {}) (observe 1) unseatedStart soldAndReturned =
        [.request 1 1 2 (.sold 8), .request 9 1 3 (.overLimit 2), .takeBack 1] ∧
      ∃ b, exec BoxOffice.step (.opened 10 4) (trace (step {}) (observe 1) unseatedStart soldAndReturned) = some b ∧
        w.redis.available 1 = some b.left := by
  obtain ⟨w, hw, -⟩ := exec_any (step {}) unseatedStart soldAndReturned (fun _ => true) (by decide +kernel)
  have hone : Along (step {}) OneHandler unseatedStart soldAndReturned := by
    refine ⟨trivial, fun w₁ h₁ => ⟨trivial, fun w₂ h₂ => ⟨?_, fun w₃ _ => Along.of_forall (by simp [OneHandler])⟩⟩⟩
    -- nothing works on the entry when it is delivered
    intro m y hy
    rw [handlers_step_intake h₂, handlers_step_intake h₁] at hy
    cases hy
  have hquiet : Along (step {}) NoReconcile unseatedStart soldAndReturned :=
    Along.of_forall (by simp [soldAndReturned, expiredOrder, promptConsumer, NoReconcile])
  obtain ⟨b, hb, -, hleft, -⟩ := pipeline_refines_box_office unseatedStart_onSale hone hquiet hw
  exact ⟨unseatedStart_onSale, w, hw, by decide +kernel, b, hb, hleft⟩

end Ticketing
