import Ticketing.Stock

/-!
# The guarded reconcile under traffic

`reconcile_inventory` refuses to run while the stream has a backlog, then reads the sum of the held orders and
sets the stock counter to what is left.  An order that has expired is not in that sum; when its release is
still to run, the stock of the order comes back twice (`lateRelease`).  `ReconcileSafe` says what must not
happen around a reconcile; under it the counter never exceeds the capacity less the held orders and the
unsettled intents.
-/

namespace Ticketing

open Exec Tally

/-- The steps of a run that a reconcile of the event depends on.  No intent of the event is committed between the read
and the write of the reconcile; and at the write no intent of the event is neither persisted nor refunded, and every
order that was terminal and not released at the read is released. -/
def ReconcileSafe (event : EventId) (w : World) : Act → Prop
  | .settle (.persist n id fk) => ∀ x db, w.handlers n = some x → x.phase = .delivered → x.intent.event = event →
      w.db.insertIntent x.intent id fk = some db →
        ∀ m job remaining owing, w.reconciles m = some job → job.event = event → job.phase ≠ .read remaining owing
  | .reconcile (.write m) => ∀ job remaining owing, w.reconciles m = some job → job.event = event →
      job.phase = .read remaining owing →
        (∀ i ∈ w.log, i.event = event → w.unsettled i = false) ∧
          ∀ id ∈ owing, w.redis.released (.order id) = true
  | _ => True

namespace World

/-- The outstanding orders of the event outside a list. -/
def missed (w : World) (event : EventId) (owing : List OrderId) : Int :=
  tally (fun o => ofEvent event o.event o.user &&
    (w.outstanding o && !owing.contains o.id)) Order.quantity w.db.orders

end World

section Missed

variable {cfg : Settings} {event : EventId} {w w' : World} {owing : List OrderId}

/-- Outstanding orders are settled and never come back. -/
theorem missed_frame (hl : w.Linked) (ho : w.Originated) (horders : w'.db.orders = w.db.orders)
    (hrel : ∀ k, w.redis.released k = true → w'.redis.released k = true) :
    w'.missed event owing ≤ w.missed event owing := by
  unfold World.missed
  rw [horders]
  refine tally_mono (fun o _ h => ?_) fun o hom => by have := ho.quantity_pos hl hom; omega
  simp only [World.outstanding, Bool.and_eq_true, Bool.or_eq_true, Bool.not_eq_true'] at h ⊢
  refine ⟨h.1, h.2.1.imp_right fun hno => ?_, h.2.2⟩
  by_contra hyes
  rw [hrel _ (by simpa using hyes)] at hno
  cases hno

theorem missed_transition (hl : w.Linked) {id : OrderId} {new : OrderStatus} {now : Time} {db : Db}
    (hdb : w.db.transition id new now = some db) :
    ({ w with db } : World).missed event owing = w.missed event owing := by
  unfold World.missed
  show tally _ _ db.orders = _
  rw [orders_transition hdb]
  refine tally_map (fun o hom => ?_) fun o _ => ?_
  · rw [outstanding_transition hl hdb hom]
    split <;> simp
  · split <;> simp

theorem missed_commit {n : Nat} {x : Handler} {id : OrderId} {fk : Bool} {db : Db} {p : HandlerPhase}
    (hdb : w.db.insertIntent x.intent id fk = some db) (hev : x.intent.event ≠ event) :
    ({ w.setHandler n (some { x with phase := p }) with db } : World).missed event owing = w.missed event owing := by
  obtain ⟨-, -, rfl⟩ := insertIntent_eq_some hdb
  unfold World.missed
  have hnot : ofEvent event (x.intent.order id).event (x.intent.order id).user = false := by
    simp [ofEvent, Intent.order, hev]
  show tally _ _ (w.db.orders ++ [x.intent.order id]) = _
  rw [tally_concat, hnot]
  exact add_zero _

/-- While a reconcile of the event is between its read and its write, the orders it missed do not grow. -/
theorem missed_step {a : Act} (hl : w.Linked) (ho : w.Originated) (hR : ReconcileSafe event w a)
    (h : step cfg w a = some w') {m : Nat} {job : Reconcile} {remaining : Int} (hjob : w.reconciles m = some job)
    (hev : job.event = event) (hp : job.phase = .read remaining owing) :
    w'.missed event owing ≤ w.missed event owing := by
  have hkept := tablesKept_step h
  cases a with
  | settle a =>
    rcases stepSettle_cases h with ⟨n, x, id, fk, db, rfl, hx, hxp, -, hdb, rfl⟩ | ⟨n, x, w₁, hx, -, hw₁, rfl⟩ |
      ⟨redis, handlers, hq, -, rfl⟩
    · refine le_of_eq (missed_commit hdb fun hiev => ?_)
      exact hR x db hx hxp hiev hdb m job remaining owing hjob hev hp
    · refine missed_frame hl ho ?_ hkept.released
      rcases World.refund_cases hw₁ with ⟨-, -, rfl⟩ | ⟨seat, zone, -, -, -, rfl⟩ | rfl <;> rfl
    · exact missed_frame hl ho rfl hkept.released
  | transition id new now =>
    obtain ⟨db, hdb, rfl⟩ := Option.map_eq_some_iff.1 h
    exact le_of_eq (missed_transition hl hdb)
  | _ => exact missed_frame hl ho (hkept.orders (by simp) (by simp)) hkept.released

end Missed

/-! ### The ceiling -/

/-- The stock of the event is at most what is not owed, also when its key is lost, and every reconcile that has read
the database is about to write such a value. -/
structure Ceiling (event : EventId) (total : Int) (w : World) : Prop where
  linked : w.Linked
  originated : w.Originated
  settled : SettleInv w
  unseated : Unseated event w
  row : w.db.events event = some ⟨total, false⟩
  floor : 0 ≤ (w.redis.available event).getD 0
  ceiling : (w.redis.available event).getD 0 + w.owed (ofEvent event) ≤ total
  jobs : ∀ m job remaining owing, w.reconciles m = some job → job.event = event → job.phase = .read remaining owing →
    0 ≤ remaining ∧ remaining + w.missed event owing ≤ total

namespace Ceiling

variable {cfg : Settings} {event : EventId} {total : Int} {w w' : World}

theorem start (h : OnSale event total w) : Ceiling event total w := by
  have howed := owed_start h.start h.unsold (ofEvent event)
  have hpos := h.total_pos
  constructor
  · exact .start h.start h.unsold.linked
  · exact .start h.start h.unsold
  · exact .start h.start
  · exact ⟨by simp [h.row], fun c call hc => by rw [h.start.calls c] at hc; cases hc⟩
  · exact h.row
  · rw [h.available]
    exact le_of_lt hpos
  · rw [h.available, howed]
    simp
  · intro m job remaining owing hjob
    rw [h.start.reconciles m] at hjob
    cases hjob

/-- What a reconcile reads: the held orders are at most what is owed, and it misses only the orders it has listed. -/
theorem read (hi : Ceiling event total w) :
    0 ≤ total - w.db.sold event ∧ total - w.db.sold event + w.missed event (w.owing event) ≤ total := by
  have hsold := w.sold_eq_heldSum event
  have hmissed : w.missed event (w.owing event) ≤ w.heldSum (ofEvent event) := by
    refine tally_mono (fun o hom h => ?_) fun o hom => ?_
    · simp only [World.outstanding, Bool.and_eq_true, Bool.or_eq_true, Bool.not_eq_true'] at h ⊢
      refine ⟨h.1, ?_⟩
      by_contra hheld
      -- a terminal order that still counts is on the list
      have hmem : o.id ∈ w.owing event := by
        refine List.mem_map.2 ⟨o, List.mem_filter.2 ⟨hom, ?_⟩, rfl⟩
        simp only [decide_eq_true_eq]
        exact ⟨by simpa [ofEvent] using h.1, by simpa using hheld, h.2.1.resolve_left hheld⟩
      rw [List.contains_iff_mem.2 hmem] at h
      cases h.2.2
    · have := hi.originated.quantity_pos hi.linked hom
      omega
  have h1 := unsettledSum_nonneg hi.linked (ofEvent event)
  have h2 := owingSum_nonneg hi.linked hi.originated (ofEvent event)
  have hc := hi.ceiling
  have hf := hi.floor
  unfold World.owed at hc
  omega

/-- What a reconcile writes: every order that still counts is one it has not missed. -/
theorem write (hi : Ceiling event total w) {m : Nat} {job : Reconcile} {remaining : Int} {owing : List OrderId}
    (hjob : w.reconciles m = some job) (hev : job.event = event) (hp : job.phase = .read remaining owing)
    (hR : ReconcileSafe event w (.reconcile (.write m))) : remaining + w.owed (ofEvent event) ≤ total := by
  obtain ⟨hnone, hall⟩ := hR job remaining owing hjob hev hp
  have hun : w.unsettledSum (ofEvent event) = 0 := by
    refine tally_eq_zero fun i hmem => ?_
    by_cases hiev : i.event = event
    · rw [hnone i hmem hiev, Bool.and_false]
    · simp [ofEvent, hiev]
  have hout : w.heldSum (ofEvent event) + w.owingSum (ofEvent event) = w.missed event owing := by
    rw [World.heldSum_add_owingSum]
    refine tally_congr fun o hom => ?_
    cases hmem : owing.contains o.id
    · rw [Bool.not_false, Bool.and_true]
    · -- an order of the list is released, so it is terminal and does not count
      have hrel := hall o.id (List.contains_iff_mem.1 hmem)
      obtain ⟨o', ho', hid, hst⟩ := hi.linked.released o.id hrel
      obtain rfl := hi.linked.db.order_unique ho' hom hid
      simp [World.outstanding, hst, hrel]
  have hjobOk := (hi.jobs m job remaining owing hjob hev hp).2
  unfold World.owed
  omega

/-- Where the stock moves with what is owed it stays below the ceiling. -/
theorem effect (hi : Ceiling event total w) (heff : StockEffect cfg w w') :
    0 ≤ (w'.redis.available event).getD 0 ∧ (w'.redis.available event).getD 0 + w'.owed (ofEvent event) ≤ total := by
  have hceil := hi.ceiling
  have hfloor := hi.floor
  -- the counter after a script has moved the counter of the event `e`
  have hmove : ∀ e n, ((w.redis.addAvailable e n).available event).getD 0 =
      (w.redis.available event).getD 0 + if ofEvent event e 0 then n else 0 := by
    intro e n
    show (Function.update w.redis.available e (incrBy (w.redis.available e) n) event).getD 0 = _
    by_cases he : e = event
    · subst he
      simp [incrBy, ofEvent]
    · rw [Function.update_of_ne fun h => he h.symm]
      simp [ofEvent, he]
  rcases heff with ⟨howed, hav, -⟩ | ⟨e, u, n, hpos, howed, hav, -, -, hstock⟩ | ⟨e, u, n, hpos, howed, hav, -⟩
  · rw [hav, howed]
    exact ⟨hfloor, hceil⟩
  · rw [hav, howed, hmove]
    have hS : ofEvent event e u = ofEvent event e 0 := rfl
    rw [hS]
    cases hev : ofEvent event e 0
    · simp only [Bool.false_eq_true, if_false]
      omega
    · have he : e = event := by simpa [ofEvent] using hev
      subst he
      have hcall : ¬ ∃ c call, w.calls c = some call ∧ call.event = e := by
        rintro ⟨c, call, hc, hcev⟩
        exact hi.unseated.calls c call hc hcev
      obtain ⟨avail, hval, hle⟩ := hstock.resolve_right hcall
      rw [hval] at hceil hfloor ⊢
      simp only [Option.getD_some, if_true] at hceil hfloor ⊢
      omega
  · rw [hav, howed, hmove]
    have hS : ofEvent event e u = ofEvent event e 0 := rfl
    rw [hS]
    split <;> omega

theorem step {a : Act} (hi : Ceiling event total w) (hC : CommitSafe w a) (hR : ReconcileSafe event w a)
    (h : Ticketing.step cfg w a = some w') : Ceiling event total w' := by
  have hl' := hi.linked.step h
  have ho' := hi.originated.step hi.linked h
  have hs' := hi.settled.step hC h
  have hu' := hi.unseated.step h
  have hkept := tablesKept_step h
  have hrow' : w'.db.events event = some ⟨total, false⟩ := by rw [hkept.events, hi.row]
  have hnn' := owed_nonneg hl' ho' (ofEvent event)
  have hceil := hi.ceiling
  have hfloor := hi.floor
  -- a reconcile that had read before the step still writes a value below the ceiling
  have hjobs : ∀ m job remaining owing, w.reconciles m = some job → job.event = event →
      job.phase = .read remaining owing → 0 ≤ remaining ∧ remaining + w'.missed event owing ≤ total := by
    intro m job remaining owing hjob hev hp
    obtain ⟨h0, hle⟩ := hi.jobs m job remaining owing hjob hev hp
    have hmono := missed_step hi.linked hi.originated hR h hjob hev hp
    exact ⟨h0, by omega⟩
  cases a with
  | reconcile a =>
    rcases stepReconcile_cases h with ⟨n, job, remaining, owing, rfl, hjob, hp, rfl⟩ | ⟨n, job, rows, hjob, hp, rfl⟩ |
      ⟨reconciles, hfrom, rfl⟩
    · have hrest : ∀ m job' remaining' owing', Function.update w.reconciles n
        (some { job with phase := .written }) m =
          some job' → job'.event = event → job'.phase = .read remaining' owing' →
          0 ≤ remaining' ∧ remaining' + w.missed event owing' ≤ total := by
        intro m job' remaining' owing' hjob' hev' hp'
        by_cases hm : m = n
        · subst hm
          rw [Function.update_self, Option.some.injEq] at hjob'
          subst hjob'
          cases hp'
        · rw [Function.update_of_ne hm] at hjob'
          exact hjobs m job' remaining' owing' hjob' hev' hp'
      by_cases hev : job.event = event
      · have hw := hi.write hjob hev hp hR
        have h0 := (hi.jobs n job remaining owing hjob hev hp).1
        have hval : (Function.update w.redis.available job.event (some remaining) event).getD 0 = remaining := by
          rw [hev, Function.update_self]
          rfl
        exact ⟨hl', ho', hs', hu', hrow', hval.symm ▸ h0, hval.symm ▸ hw, hrest⟩
      · have hval : (Function.update w.redis.available job.event (some remaining) event).getD 0 =
            (w.redis.available event).getD 0 := by rw [Function.update_of_ne fun h => hev h.symm]
        exact ⟨hl', ho', hs', hu', hrow', hval.symm ▸ hfloor, hval.symm ▸ hceil, hrest⟩
    · refine ⟨hl', ho', hs', hu', hrow', hfloor, hceil, fun m job' remaining' owing' hjob' hev' hp' => ?_⟩
      simp only [World.setReconcile] at hjob'
      by_cases hm : m = n
      · subst hm
        rw [Function.update_self] at hjob'
        cases hjob'
      · rw [Function.update_of_ne hm] at hjob'
        exact hjobs m job' remaining' owing' hjob' hev' hp'
    · refine ⟨hl', ho', hs', hu', hrow', hfloor, hceil, fun m job remaining owing hjob hev hp => ?_⟩
      rcases hfrom m job remaining owing hjob hp with hsame | ⟨-, -, rfl, e, he, rfl⟩
      · exact hjobs m job remaining owing hsame hev hp
      · rw [hev, hi.row, Option.some.injEq] at he
        subst he
        rw [hev]
        exact hi.read
  | lose event' =>
    obtain rfl := Option.some.inj h
    have hle : 0 ≤ (Function.update w.redis.available event' none event).getD 0 ∧
        (Function.update w.redis.available event' none event).getD 0 ≤ (w.redis.available event).getD 0 := by
      by_cases he : event = event'
      · subst he
        rw [Function.update_self]
        exact ⟨le_refl _, hfloor⟩
      · rw [Function.update_of_ne he]
        exact ⟨hfloor, le_refl _⟩
    refine ⟨hl', ho', hs', hu', hrow', hle.1, ?_, hjobs⟩
    have hsum : (w.redis.available event).getD 0 + w.owed (ofEvent event) ≤ total := hceil
    exact le_trans (Int.add_le_add_right hle.2 _) hsum
  | _ =>
    have hrec : w'.reconciles = w.reconciles := hkept.reconciles (by simp)
    obtain ⟨hf', hc'⟩ := hi.effect (stockEffect_step hi.linked hi.originated hi.settled hC trivial h)
    exact ⟨hl', ho', hs', hu', hrow', hf', hc', by rw [hrec]; exact hjobs⟩

end Ceiling

/-! ### Runs with reconciles -/

/-- Without reconciles there is nothing a reconcile depends on. -/
theorem reconcileSafe_of_noReconcile {cfg : Settings} {event : EventId} {w₀ : World} {acts : List Act}
    (hstart : w₀.Start) (hno : Along (step cfg) NoReconcile w₀ acts) :
    Along (step cfg) (ReconcileSafe event) w₀ acts := by
  refine Along.of_invariant (I := fun w => ∀ m, w.reconciles m = none) ?_ ?_ hstart.reconciles hno
  · intro w a w' ha h hi
    cases a with
    | reconcile b => exact ha.elim
    | _ => rw [(tablesKept_step h).reconciles (by simp)]; exact hi
  · intro w a hi ha
    unfold ReconcileSafe
    split
    · intro x db _ _ _ _ m job remaining owing hjob
      rw [hi m] at hjob
      cases hjob
    · exact ha.elim
    · trivial

/-- The order of the reservation has expired, and its release runs only after a reconcile. -/
def lateRelease : List Act :=
  expiredOrder ++ [.reconcile (.check 0 1), .reconcile (.read 0), .reconcile (.write 0), .release (.start 0 7),
    .release (.releaseQuantity 0)]

/-- The stock of an expired order comes back twice: twelve tickets are on sale for ten seats. -/
theorem late_release_manufactures_stock :
    OnSale 1 10 unseatedStart ∧
      ∃ w, exec (step {}) unseatedStart (.intake (.reserve sampleReserve) :: lateRelease) = some w ∧
        w.redis.available 1 = some 12 ∧ 10 - w.heldSum (ofEvent 1) - w.unsettledSum (ofEvent 1) < 12 := by
  refine ⟨unseatedStart_onSale, ?_⟩
  obtain ⟨w, hw, hp⟩ := exec_any (step {}) unseatedStart (.intake (.reserve sampleReserve) :: lateRelease)
    (fun w => w.redis.available 1 = some 12 ∧ 10 - w.heldSum (ofEvent 1) - w.unsettledSum (ofEvent 1) < 12)
    (by decide +kernel)
  exact ⟨w, hw, by simpa using hp⟩

/-- Reconcile never manufactures stock in a run that meets the condition, no claim and no marker expiring: in every
state reached the stock counter, if there is one, is at most the capacity less the held orders and the unsettled
intents. -/
theorem reconcile_never_manufactures_stock {cfg : Settings} {event : EventId} {total : Int} {w₀ w : World}
    {acts : List Act} (hsale : OnSale event total w₀) (hcommit : Along (step cfg) CommitSafe w₀ acts)
    (hsafe : Along (step cfg) (ReconcileSafe event) w₀ acts) (h : exec (step cfg) w₀ acts = some w) :
    ∀ available, w.redis.available event = some available →
      available ≤ total - w.heldSum (ofEvent event) - w.unsettledSum (ofEvent event) := by
  have hinv : Ceiling event total w :=
    exec_invariant (fun _ _ _ hC hs hi => hi.step hC.1 hC.2 hs) (Ceiling.start hsale) (hcommit.and hsafe) h
  intro available hav
  have hceil := hinv.ceiling
  have howing := owingSum_nonneg hinv.linked hinv.originated (ofEvent event)
  rw [hav, Option.getD_some] at hceil
  unfold World.owed at hceil
  omega

/-- The orders that a reconcile has left out although their release had not run. -/
def ReconcilePhase.owing : ReconcilePhase → List OrderId
  | .read _ owing => owing
  | _ => []

/-- Redis loses the stock key with the reservation committed, and a reconcile has read the tables. -/
private def readAfterLoss : List Act :=
  .intake (.reserve sampleReserve) :: promptConsumer ++ [.lose 1] ++ [.reconcile (.check 0 1), .reconcile (.read 0)]

/-- The only intent is persisted and no order was owing a release. -/
private theorem readAfterLoss_settled {w : World} (h : exec (step {}) unseatedStart readAfterLoss = some w) :
    (∀ i ∈ w.log, w.unsettled i = false) ∧ ∀ job, w.reconciles 0 = some job → job.phase.owing = [] := by
  have hset := exec_test
    (fun w => (w.log.all fun i => !w.unsettled i) && (w.reconciles 0).all fun job => job.phase.owing.isEmpty) h
    (by decide +kernel)
  rw [Bool.and_eq_true, List.all_eq_true] at hset
  refine ⟨fun i hi => by simpa using hset.1 i hi, fun job hjob => ?_⟩
  have hempty := hset.2
  rw [hjob] at hempty
  exact List.isEmpty_iff.1 hempty

private theorem readAfterLoss_safe :
    Along (step {}) (ReconcileSafe 1) unseatedStart (readAfterLoss ++ [.reconcile (.write 0)]) := by
  refine Along.append (Along.append (Along.append ?_ ?_) ?_) fun w h => ?_
  · exact reconcileSafe_of_noReconcile unseatedStart_start (Along.of_forall (by simp [promptConsumer, NoReconcile]))
  · exact fun _ _ => Along.of_forall (by simp [ReconcileSafe])
  · exact fun _ _ => Along.of_forall (by simp [ReconcileSafe])
  · obtain ⟨hlog, howing⟩ := readAfterLoss_settled h
    refine ⟨fun job remaining owing hjob _ hp => ⟨fun i hi _ => by simpa using hlog i hi, ?_⟩, fun _ _ => trivial⟩
    have hnil := howing job hjob
    rw [hp] at hnil
    have hnone : owing = [] := hnil
    simp [hnone]

/-- A reconcile after Redis lost the stock key, with the reservation committed. -/
theorem reconcile_never_manufactures_stock_idle :
    ∃ w, exec (step {}) unseatedStart (.intake (.reserve sampleReserve) :: promptConsumer ++ [.lose 1] ++
        [.reconcile (.check 0 1), .reconcile (.read 0)] ++ [.reconcile (.write 0)]) = some w ∧
      w.redis.available 1 = some 8 ∧ (8 : Int) ≤ 10 - w.heldSum (ofEvent 1) - w.unsettledSum (ofEvent 1) := by
  obtain ⟨w, hw, hp⟩ := exec_any (step {}) unseatedStart (readAfterLoss ++ [.reconcile (.write 0)])
    (fun w => w.redis.available 1 = some 8) (by decide +kernel)
  rw [decide_eq_true_eq] at hp
  have hcommit : Along (step {}) CommitSafe unseatedStart (readAfterLoss ++ [.reconcile (.write 0)]) :=
    commitSafe_of_noDeadLetter unseatedStart_start
      (Along.of_forall (by simp [readAfterLoss, promptConsumer, NoDeadLetter]))
  exact ⟨w, hw, hp, reconcile_never_manufactures_stock unseatedStart_onSale hcommit readAfterLoss_safe hw 8 hp⟩

end Ticketing
