import Ticketing.Ledger
import Ticketing.Settlement

/-!
# Polling an order by its idempotency key

`get_order_status` (`app/api/v1/orders.py`) reads the order row first and, where there is none, the claim.
The two reads are two moments of a run of the pipeline, with any steps of the other processes between them.
No claim expires in these runs: they tell of the day in which the claim of a key lives.

* a poll answers what it would have answered at one single moment between its reads, except that it may say FAILED
about an order that was committed in between and dead-lettered after that;
* the answers to the owner of an accepted intent only go forward: from PROCESSING to READY, or to FAILED once the
intent is refunded.
-/

namespace Ticketing

open Exec

/-- `OrderStatusResponse`, or the 404. -/
inductive PollReply where
  | ready (order : Order)
  | processing
  | failed
  | notFound
deriving DecidableEq, Repr

/-- `get_order_by_idempotency_key`. -/
def Db.orderByKey (db : Db) (key : Key) : Option Order := db.orders.find? fun o => o.key = key

/-- `get_order_status` for the current user, from the row and the claim it reads. -/
def getOrderStatus (user : UserId) (order : Option Order) (claim : Option ClaimState) : PollReply :=
  match order with
  | some o => if o.user = user then .ready o else .notFound
  | none =>
    match claim with
    | some .pending => .processing
    | some .failed => .failed
    | none => .notFound

/-- A poll that reads the row in the first state and the claim in the second. -/
def World.poll (w w' : World) (key : Key) (user : UserId) : PollReply :=
  getOrderStatus user (w.db.orderByKey key) (w'.redis.claims key)

section Polling

variable {cfg : Settings} {w w' : World}

/-! ### The row of a key -/

theorem Db.orderByKey_eq_some {db : Db} {key : Key} {o : Order} (h : db.orderByKey key = some o) :
    o ∈ db.orders ∧ o.key = key :=
  ⟨List.mem_of_find?_eq_some h, by simpa using List.find?_some h⟩

theorem Db.orderByKey_eq_none {db : Db} {key : Key} : db.orderByKey key = none ↔ db.hasKey key = false := by
  simp [Db.orderByKey, Db.hasKey]

theorem Db.exists_orderByKey {db : Db} {key : Key} (h : db.hasKey key = true) : ∃ o, db.orderByKey key = some o := by
  cases ho : db.orderByKey key with
  | none =>
    rw [Db.orderByKey_eq_none.1 ho] at h
    cases h
  | some o => exact ⟨o, rfl⟩

/-! ### The claim of a key -/

/-- A step leaves the claim of a key, writes it for an accepted request, or marks it FAILED at the end of a
dead-letter pass. -/
theorem claim_step {a : Act} (h : step cfg w a = some w') (key : Key) :
    w'.redis.claims key = w.redis.claims key ∨
    (w.redis.claims key = none ∧ w'.redis.claims key = some .pending ∧ w'.db = w.db) ∨
    (∃ n x, w.handlers n = some x ∧ x.phase = .refunded ∧ x.intent.key = key ∧
      w'.redis.claims key = some .failed) := by
  have hset : ∀ (i : Intent) state, Function.update w.redis.claims i.key (some state) key = w.redis.claims key ∨
      i.key = key ∧ Function.update w.redis.claims i.key (some state) key = some state := by
    intro i state
    by_cases hkey : key = i.key
    · exact .inr ⟨hkey.symm, by rw [hkey, Function.update_self]⟩
    · exact .inl (Function.update_of_ne hkey _ _)
  cases a with
  | intake a =>
    rcases stepIntake_cases h with ⟨b, hb, rfl⟩ | ⟨c, call, b, -, hb, rfl⟩ | ⟨zones, calls, -, -, rfl⟩
    · rcases hset b.intent .pending with hsame | ⟨rfl, hnew⟩
      · exact .inl hsame
      · exact .inr (.inl ⟨hb.fresh, hnew, rfl⟩)
    · rcases hset b.intent .pending with hsame | ⟨rfl, hnew⟩
      · exact .inl hsame
      · exact .inr (.inl ⟨hb.fresh, hnew, rfl⟩)
    · exact .inl rfl
  | settle a =>
    have hmove : SettleMove cfg w a w' := stepSettle_move h
    cases hmove with
    | @markFailed n x hx hp =>
      rcases hset x.intent .failed with hsame | ⟨hkey, hnew⟩
      · exact .inl hsame
      · exact .inr (.inr ⟨n, x, hx, hp, hkey, hnew⟩)
    | @refund n x w₁ hx hp hw₁ =>
      rcases World.refund_cases hw₁ with ⟨-, -, rfl⟩ | ⟨seat, zone, -, -, -, rfl⟩ | rfl <;> exact .inl rfl
    | _ => exact .inl rfl
  | transition id new now =>
    obtain ⟨db, hdb, rfl⟩ := Option.map_eq_some_iff.1 h
    exact .inl rfl
  | release a =>
    rcases stepRelease_cases h with ⟨n, x, hold, -, -, rfl⟩ | ⟨n, x, -, -, -, -, rfl⟩ |
      ⟨n, x, hold, zone, -, -, -, -, rfl⟩ | ⟨outbox, releases, -, -, rfl⟩ <;> exact .inl rfl
  | reconcile a =>
    rcases stepReconcile_cases h with ⟨n, job, remaining, owing, -, -, -, rfl⟩ | ⟨n, job, rows, -, -, rfl⟩ |
      ⟨reconciles, -, rfl⟩ <;> exact .inl rfl
  | rebuild a =>
    rcases stepRebuild_cases h with ⟨n, job, blocks, held, -, -, -, rfl⟩ | ⟨rebuilds, -, rfl⟩ <;> exact .inl rfl
  | lose event =>
    obtain rfl := Option.some.inj h
    exact .inl rfl

/-- A claim once written is not taken back. -/
theorem claimed_step {a : Act} (h : step cfg w a = some w') {key : Key} (hk : (w.redis.claims key).isSome = true) :
    (w'.redis.claims key).isSome = true := by
  rcases claim_step h key with hsame | ⟨hnone, -, -⟩ | ⟨-, -, -, -, -, hfailed⟩
  · rwa [hsame]
  · rw [hnone] at hk
    cases hk
  · rw [hfailed]
    rfl

/-- A claim marked FAILED stays so. -/
theorem failed_step {a : Act} (h : step cfg w a = some w') {key : Key} (hk : w.redis.claims key = some .failed) :
    w'.redis.claims key = some .failed := by
  rcases claim_step h key with hsame | ⟨hnone, -, -⟩ | ⟨-, -, -, -, -, hfailed⟩
  · rwa [hsame]
  · rw [hnone] at hk
    cases hk
  · exact hfailed

/-! ### One moment between the reads -/

/-- What every state of a run from an unsold database has. -/
structure World.Traceable (w : World) : Prop where
  linked : w.Linked
  originated : w.Originated
  orders : w.OneOrderPerKey

namespace World.Traceable

theorem start (h : w.Start) (hdb : w.db.Unsold) : w.Traceable :=
  ⟨.start h hdb.linked, .start h hdb, by simp [World.OneOrderPerKey, hdb.orders]⟩

theorem step {a : Act} (ht : w.Traceable) (h : Ticketing.step cfg w a = some w') : w'.Traceable :=
  ⟨ht.linked.step h, ht.originated.step ht.linked h, ht.orders.step h⟩

theorem exec {acts : List Act} (ht : w.Traceable) (h : Exec.exec (Ticketing.step cfg) w acts = some w') :
    w'.Traceable :=
  exec_invariant (C := fun _ _ => True) (fun _ _ _ _ hs ht => ht.step hs) ht (Along.of_forall fun _ _ _ => trivial) h

/-- A key with an order has a claim. -/
theorem claimed_of_hasKey (ht : w.Traceable) {key : Key} (hk : w.db.hasKey key = true) :
    (w.redis.claims key).isSome = true := by
  obtain ⟨o, ho, hkey⟩ := List.any_eq_true.1 hk
  obtain ⟨i, hi, hs⟩ := ht.originated.order o ho
  have hik : i.key = key := hs.key.trans (by simpa using hkey)
  exact hik ▸ ht.linked.claimed i hi

end World.Traceable

private theorem claim_exec {P : Option ClaimState → Prop} {key : Key}
    (hP : ∀ (w w' : World) a, step cfg w a = some w' → P (w.redis.claims key) → P (w'.redis.claims key))
    {acts : List Act} (h : exec (step cfg) w acts = some w') (hw : P (w.redis.claims key)) :
    P (w'.redis.claims key) :=
  exec_invariant (C := fun _ _ => True) (I := fun w => P (w.redis.claims key))
    (fun w a w' _ hs hp => hP w w' a hs hp) hw
    (Along.of_forall fun _ _ _ => trivial) h

/-- While no claim expires, a poll answers what a look at one single moment between its two reads would have
answered, or it answers FAILED about a key whose order was committed between them and whose claim was marked
FAILED. -/
theorem poll_atomic {w₀ w₁ w₂ : World} {before between : List Act} (hstart : w₀.Start) (hunsold : w₀.db.Unsold)
    (h₁ : exec (step cfg) w₀ before = some w₁) (h₂ : exec (step cfg) w₁ between = some w₂) (key : Key)
    (user : UserId) :
    (∃ acts acts' w, between = acts ++ acts' ∧ exec (step cfg) w₁ acts = some w ∧ exec (step cfg) w acts' = some w₂ ∧
      w₁.poll w₂ key user = w.poll w key user) ∨
    w₁.poll w₂ key user = .failed ∧ w₁.db.hasKey key = false ∧ w₂.db.hasKey key = true ∧
      w₂.redis.claims key = some .failed := by
  have ht₁ : w₁.Traceable := (World.Traceable.start hstart hunsold).exec h₁
  by_cases hrow : w₁.db.hasKey key = true
  · -- the row decides, and the claim is not read
    obtain ⟨o, ho⟩ := Db.exists_orderByKey hrow
    refine .inl ⟨[], between, w₁, rfl, rfl, h₂, ?_⟩
    simp only [World.poll, ho, getOrderStatus]
  have hno : w₁.db.orderByKey key = none := Db.orderByKey_eq_none.2 (by simpa using hrow)
  cases hclaim : w₂.redis.claims key with
  | none =>
    have hnone : w₁.redis.claims key = none := by
      by_contra hsome
      have hkept := claim_exec (P := fun c => c.isSome = true) (fun _ _ _ hs hk => claimed_step hs hk) h₂
        (Option.isSome_iff_ne_none.2 hsome)
      rw [hclaim] at hkept
      cases hkept
    refine .inl ⟨[], between, w₁, rfl, rfl, h₂, ?_⟩
    simp only [World.poll, hno, hclaim, hnone]
  | some state =>
    cases state with
    | pending =>
      by_cases hpending : w₁.redis.claims key = some .pending
      · refine .inl ⟨[], between, w₁, rfl, rfl, h₂, ?_⟩
        simp only [World.poll, hno, hclaim, hpending]
      · -- the request was accepted in between, and at that moment there is no order yet
        have hnone : w₁.redis.claims key = none := by
          cases hc : w₁.redis.claims key with
          | none => rfl
          | some state =>
            cases state with
            | pending => exact absurd hc hpending
            | failed =>
              have hkept := claim_exec (P := fun c => c = some .failed) (fun _ _ _ hs hk => failed_step hs hk) h₂ hc
              rw [hclaim] at hkept
              cases hkept
        obtain ⟨acts, a, acts', t, u, rfl, ht, hu, hrest, htnone, husome⟩ :=
          exec_crossing (P := fun w : World => w.redis.claims key = none) h₂ hnone (by rw [hclaim]; simp)
        have htt : t.Traceable := ht₁.exec ht
        have hunpersisted : t.db.orderByKey key = none := by
          rw [Db.orderByKey_eq_none]
          by_contra hk
          have hsome := htt.claimed_of_hasKey (by simpa using hk)
          rw [htnone] at hsome
          cases hsome
        rcases claim_step hu key with hsame | ⟨-, hnew, hdb⟩ | ⟨n, x, hx, -, hkey, -⟩
        · exact absurd (hsame.trans htnone) husome
        · refine .inl ⟨acts ++ [a], acts', u, by simp, exec_concat.2 ⟨t, ht, hu⟩, hrest, ?_⟩
          simp only [World.poll, hno, hclaim, hnew, hdb, hunpersisted]
        · have hsome := htt.linked.claimed x.intent (htt.linked.handled n x hx)
          rw [hkey, htnone] at hsome
          cases hsome
    | failed =>
      by_cases hrow₂ : w₂.db.hasKey key = true
      · refine .inr ⟨?_, by simpa using hrow, hrow₂, rfl⟩
        simp only [World.poll, hno, hclaim, getOrderStatus]
      · have hno₂ : w₂.db.orderByKey key = none := Db.orderByKey_eq_none.2 (by simpa using hrow₂)
        refine .inl ⟨between, [], w₂, by simp, h₂, rfl, ?_⟩
        simp only [World.poll, hno, hno₂, hclaim]

/-- The request is accepted between the two reads; the answer is the one at the moment after. -/
theorem poll_atomic_accepted : ∃ w, exec (step {}) unseatedStart [.intake (.reserve sampleReserve)] = some w ∧
    unseatedStart.poll w 1 sampleReserve.user = .processing ∧
    ((∃ acts acts' v, [Act.intake (.reserve sampleReserve)] = acts ++ acts' ∧
        exec (step {}) unseatedStart acts = some v ∧ exec (step {}) v acts' = some w ∧
        unseatedStart.poll w 1 sampleReserve.user = v.poll v 1 sampleReserve.user) ∨
      unseatedStart.poll w 1 sampleReserve.user = .failed ∧ unseatedStart.db.hasKey 1 = false ∧ w.db.hasKey 1 = true ∧
        w.redis.claims 1 = some .failed) := by
  obtain ⟨w, hw, hp⟩ := exec_any (step {}) unseatedStart [.intake (.reserve sampleReserve)]
    (fun w => decide (unseatedStart.poll w 1 sampleReserve.user = .processing)) (by decide +kernel)
  have hstart : exec (step {}) unseatedStart [] = some unseatedStart := rfl
  exact ⟨w, hw, by simpa using hp, poll_atomic unseatedStart_start ⟨rfl, rfl, rfl⟩ hstart hw 1 _⟩

/-! ### What FAILED stands for -/

/-- The intent of this key has become an order or was refunded. -/
def World.Settled (w : World) (key : Key) : Prop :=
  w.db.hasKey key = true ∨ w.redis.released (.deadLetter key) = true

theorem World.Settled.step {a : Act} {key : Key} (hs : w.Settled key)
    (h : Ticketing.step cfg w a = some w') : w'.Settled key :=
  hs.imp (hasKey_step h) ((tablesKept_step h).released _)

/-- A refund leaves the marker of the intent set. -/
theorem World.released_refund {i : Intent} (hzone : i.seat.isSome = true → i.zone.isSome = true)
    (h : w.refund i = some w') : w'.redis.released (.deadLetter i.key) = true := by
  have hupdate : Function.update w.redis.released (.deadLetter i.key) true (.deadLetter i.key) = true :=
    Function.update_self ..
  unfold World.refund at h
  split at h
  · obtain rfl := Option.some.inj h
    rcases w.releaseQuantity_cases i.releaseArgs with ⟨-, heq⟩ | ⟨hm, heq⟩
    · rw [heq]
      exact hupdate
    · rw [heq]
      exact hm
  · rename_i hseat hnone
    have hsome := hzone (by rw [hseat]; rfl)
    rw [hnone] at hsome
    cases hsome
  · rcases World.releaseSeats_cases h with ⟨-, rfl⟩ | ⟨hm, rfl⟩
    · exact hupdate
    · exact hm

/-- What the dead-letter path knows, and what a claim marked FAILED stands for. -/
structure Told (w : World) : Prop where
  zoned : ∀ i ∈ w.log, i.seat.isSome = true → i.zone.isSome = true
  kept : ∀ n x, w.handlers n = some x → x.phase = .checked true ∨ x.phase = .parked true →
    w.db.hasKey x.intent.key = true
  settled : ∀ n x, w.handlers n = some x → x.phase = .refunded → w.Settled x.intent.key
  failed : ∀ key, w.redis.claims key = some .failed → w.Settled key

namespace Told

theorem start (h : w.Start) : Told w where
  zoned := by simp [h.log]
  kept n x hx := by rw [h.handlers n] at hx; cases hx
  settled n x hx := by rw [h.handlers n] at hx; cases hx
  failed key hk := by rw [h.claims key] at hk; cases hk

/-- A claim found FAILED after a step. -/
private theorem failed_of_step {a : Act} (ht : Told w) (h : Ticketing.step cfg w a = some w') {key : Key}
    (hk : w'.redis.claims key = some .failed) : w'.Settled key := by
  rcases claim_step h key with hsame | ⟨-, hnew, -⟩ | ⟨n, x, hx, hp, rfl, -⟩
  · exact (ht.failed key (hsame ▸ hk)).step h
  · rw [hnew] at hk
    cases hk
  · exact (ht.settled n x hx hp).step h

/-- A step that leaves the handlers alone. -/
private theorem frame {a : Act} (ht : Told w) (h : Ticketing.step cfg w a = some w')
    (hhandlers : w'.handlers = w.handlers)
    (hlog : ∀ i ∈ w'.log, i ∈ w.log ∨ (i.seat.isSome = true → i.zone.isSome = true)) :
    Told w' where
  zoned i hi := by
    rcases hlog i hi with hi | hzone
    · exact ht.zoned i hi
    · exact hzone
  kept n x hx hp := hasKey_step h (ht.kept n x (hhandlers ▸ hx) hp)
  settled n x hx hp := (ht.settled n x (hhandlers ▸ hx) hp).step h
  failed _ hk := failed_of_step ht h hk

/-- A step of one handler. -/
private theorem move {a : SettleAct} (ht : Told w) (h : Ticketing.step cfg w (.settle a) = some w') {n : Nat}
    {y : Option Handler} (hhandlers : w'.handlers = Function.update w.handlers n y)
    (hkept : ∀ x ∈ y, x.phase = .checked true ∨ x.phase = .parked true → w'.db.hasKey x.intent.key = true)
    (hsettled : ∀ x ∈ y, x.phase = .refunded → w'.Settled x.intent.key) : Told w' := by
  have hlog : w'.log = w.log := (recordsKept_step h).log (by simp)
  refine ⟨?_, fun m x hx hp => ?_, fun m x hx hp => ?_, fun _ hk => failed_of_step ht h hk⟩
  · rw [hlog]
    exact ht.zoned
  · rw [hhandlers] at hx
    by_cases hm : m = n
    · rw [hm, Function.update_self] at hx
      exact hkept x hx hp
    · rw [Function.update_of_ne hm] at hx
      exact hasKey_step h (ht.kept m x hx hp)
  · rw [hhandlers] at hx
    by_cases hm : m = n
    · rw [hm, Function.update_self] at hx
      exact hsettled x hx hp
    · rw [Function.update_of_ne hm] at hx
      exact (ht.settled m x hx hp).step h

private theorem settle {a : SettleAct} (ht : Told w) (hl : w.Linked)
    (h : Ticketing.step cfg w (.settle a) = some w') :
    Told w' := by
  have hmove : SettleMove cfg w a w' := stepSettle_move h
  cases hmove with
  | @check n x hx hp =>
    refine ht.move h rfl ?_ ?_
    · intro y hy hyp
      obtain rfl := Option.some.inj hy
      have hfound : w.db.hasKey x.intent.key = true := by simpa using hyp
      exact hfound
    · intro y hy hyp
      obtain rfl := Option.some.inj hy
      cases hyp
  | @park n already x hx hp =>
    refine ht.move h rfl ?_ ?_
    · intro y hy hyp
      obtain rfl := Option.some.inj hy
      have halready : already = true := by simpa using hyp
      exact ht.kept n x hx (.inl (by rw [hp, halready]))
    · intro y hy hyp
      obtain rfl := Option.some.inj hy
      cases hyp
  | @keep n x hx hp =>
    refine ht.move h rfl ?_ ?_
    · intro y hy hyp
      obtain rfl := Option.some.inj hy
      simp at hyp
    · intro y hy _
      obtain rfl := Option.some.inj hy
      exact .inl (ht.kept n x hx (.inr hp))
  | @refund n x w₁ hx hp hw₁ =>
    have hreleased : w₁.redis.released (.deadLetter x.intent.key) = true :=
      World.released_refund (ht.zoned x.intent (hl.handled n x hx)) hw₁
    have hhandlers : w₁.handlers = w.handlers := by
      rcases World.refund_cases hw₁ with ⟨-, -, rfl⟩ | ⟨seat, zone, -, -, -, rfl⟩ | rfl <;> rfl
    refine ht.move h (y := some { x with phase := .refunded }) (congrArg (Function.update · n _) hhandlers) ?_ ?_
    · intro y hy hyp
      obtain rfl := Option.some.inj hy
      simp at hyp
    · intro y hy _
      obtain rfl := Option.some.inj hy
      exact .inr hreleased
  | @claim n times x e hx hp he =>
    refine ht.move h rfl ?_ ?_
    · intro y hy hyp
      obtain rfl := Option.some.inj hy
      simp only at hyp
      split at hyp <;> simp at hyp
    · intro y hy hyp
      obtain rfl := Option.some.inj hy
      simp only at hyp
      split at hyp <;> cases hyp
  | _ => exact ht.move h rfl (by simp) (by simp)

theorem step {a : Act} (ht : Told w) (hl : w.Linked) (h : Ticketing.step cfg w a = some w') : Told w' := by
  cases a with
  | intake a =>
    refine ht.frame h (handlers_step_intake h) fun i hi => ?_
    rcases stepIntake_cases h with ⟨b, -, rfl⟩ | ⟨c, call, b, -, -, rfl⟩ | ⟨zones, calls, -, -, rfl⟩
    · refine (List.mem_append.1 hi).imp_right fun hnew => ?_
      obtain rfl := List.mem_singleton.1 hnew
      exact fun hseat => by cases hseat
    · refine (List.mem_append.1 hi).imp_right fun hnew => ?_
      obtain rfl := List.mem_singleton.1 hnew
      exact fun _ => rfl
    · exact .inl hi
  | settle a => exact ht.settle hl h
  | _ =>
    have hlog := (recordsKept_step h).log (by simp)
    exact ht.frame h (settlementKept_step (by simp) h).handlers fun i hi => .inl (hlog ▸ hi)

end Told

/-! ### The answers go forward -/

/-- What the states of a run with safe commits have. -/
structure World.Reported (w : World) : Prop where
  traceable : w.Traceable
  told : Told w
  settle : SettleInv w

namespace World.Reported

theorem start (h : w.Start) (hdb : w.db.Unsold) : w.Reported := ⟨.start h hdb, .start h, .start h⟩

theorem exec {acts : List Act} (hr : w.Reported) (hsafe : Along (Ticketing.step cfg) CommitSafe w acts)
    (h : Exec.exec (Ticketing.step cfg) w acts = some w') : w'.Reported :=
  exec_invariant (C := CommitSafe)
    (fun _ _ _ hC hs hr => ⟨hr.traceable.step hs, hr.told.step hr.traceable.linked hs,
      hr.settle.step hC hs⟩) hr hsafe h

end World.Reported

/-- What a run keeps: the accepted intents, and the rows with the columns that no transition changes. -/
structure World.Extends (w w' : World) : Prop where
  log : ∀ i ∈ w.log, i ∈ w'.log
  orders : ∀ o ∈ w.db.orders, ∃ o' ∈ w'.db.orders, o'.Same o
  failed : ∀ key, w.redis.claims key = some .failed → w'.redis.claims key = some .failed
  released : ∀ m, w.redis.released m = true → w'.redis.released m = true

theorem World.Traceable.extends {acts : List Act} (ht : w.Traceable)
    (h : Exec.exec (Ticketing.step cfg) w acts = some w') : w.Extends w' := by
  have hkept : w'.Traceable ∧ w.Extends w' := by
    refine exec_invariant (C := fun _ _ => True) (I := fun v : World => v.Traceable ∧ w.Extends v) ?_
      ⟨ht, fun _ h => h, fun o ho => ⟨o, ho, .refl o⟩, fun _ h => h, fun _ h => h⟩
      (Along.of_forall fun _ _ _ => trivial) h
    intro v a v' _ hs hv
    obtain ⟨htv, hev⟩ := hv
    refine ⟨htv.step hs, fun i hi => (recordsKept_step hs).logged i (hev.log i hi), fun o ho => ?_,
      fun key hk => failed_step hs (hev.failed key hk), fun m hm => (tablesKept_step hs).released m
      (hev.released m hm)⟩
    obtain ⟨o₁, ho₁, hsame₁⟩ := hev.orders o ho
    obtain ⟨o₂, ho₂, hsame₂⟩ := World.orders_step htv.linked hs o₁ ho₁
    exact ⟨o₂, ho₂, hsame₂.trans hsame₁⟩
  exact hkept.2

theorem World.Extends.hasKey (he : w.Extends w') {key : Key} (hk : w.db.hasKey key = true) :
    w'.db.hasKey key = true := by
  obtain ⟨o, ho, hkey⟩ := List.any_eq_true.1 hk
  obtain ⟨o', ho', hs⟩ := he.orders o ho
  exact List.any_eq_true.2 ⟨o', ho', by simpa [hs.key] using hkey⟩

/-- The row of an accepted intent is the order that the intent became. -/
theorem World.Traceable.order_of_intent (ht : w.Traceable) {i : Intent} (hi : i ∈ w.log) {o : Order}
    (ho : o ∈ w.db.orders) (hkey : o.key = i.key) : (i.order o.id).Same o := by
  obtain ⟨j, hj, hs⟩ := ht.originated.order o ho
  have hij : j = i := ht.linked.intent_unique hj hi (hs.key.trans hkey)
  exact hij ▸ hs

/-- A poll by the owner of an accepted intent whose order is in the table is answered with it. -/
theorem World.Traceable.poll_of_hasKey (ht : w.Traceable) {i : Intent} (hi : i ∈ w.log)
    (hk : w.db.hasKey i.key = true) (w' : World) :
    ∃ o ∈ w.db.orders, (i.order o.id).Same o ∧ w.poll w' i.key i.user = .ready o := by
  obtain ⟨o, ho⟩ := Db.exists_orderByKey hk
  obtain ⟨hmem, hkey⟩ := Db.orderByKey_eq_some ho
  have hs := ht.order_of_intent hi hmem hkey
  have huser : o.user = i.user := hs.user.symm
  refine ⟨o, hmem, hs, ?_⟩
  rw [World.poll, ho]
  exact if_pos huser

end Polling

/-- What the owner of an accepted intent is told goes forward while its claim lives.  Of two polls, the second
started after the first was answered, in a run whose commits are all safe: the first is never answered 404;
when it is READY, with the order that the intent became, so is the second, and the intent is never refunded
for a dead letter; when it is FAILED, then either the intent was refunded, will never be an order, and the
second is FAILED too, or the order was committed during the first poll and the second finds it. -/
theorem polls_go_forward {cfg : Settings} {w₀ w₁ w₂ w₃ w₄ : World} {before first pause second : List Act}
    (hstart : w₀.Start) (hunsold : w₀.db.Unsold)
    (hsafe : Along (step cfg) CommitSafe w₀ (before ++ (first ++ (pause ++ second))))
    (h₁ : exec (step cfg) w₀ before = some w₁) (h₂ : exec (step cfg) w₁ first = some w₂)
    (h₃ : exec (step cfg) w₂ pause = some w₃) (h₄ : exec (step cfg) w₃ second = some w₄) {i : Intent}
    (hi : i ∈ w₁.log) :
    w₁.poll w₂ i.key i.user ≠ .notFound ∧
    (∀ o, w₁.poll w₂ i.key i.user = .ready o → (i.order o.id).Same o ∧ w₄.redis.released (.deadLetter i.key) = false ∧
      ∃ o', o'.Same o ∧ w₃.poll w₄ i.key i.user = .ready o') ∧
    (w₁.poll w₂ i.key i.user = .failed →
      w₂.redis.released (.deadLetter i.key) = true ∧ w₄.db.hasKey i.key = false ∧ w₃.poll w₄ i.key i.user = .failed ∨
        w₁.db.hasKey i.key = false ∧ ∃ o, (i.order o.id).Same o ∧ w₃.poll w₄ i.key i.user = .ready o) := by
  have hsafe₁ := hsafe.of_append h₁
  have hsafe₂ := hsafe₁.of_append h₂
  have hr₁ : w₁.Reported := (World.Reported.start hstart hunsold).exec hsafe.left h₁
  have hr₂ : w₂.Reported := hr₁.exec hsafe₁.left h₂
  have hr₃ : w₃.Reported := hr₂.exec hsafe₂.left h₃
  have hr₄ : w₄.Reported := hr₃.exec (hsafe₂.of_append h₃) h₄
  have he₂ := hr₁.traceable.extends h₂
  have he₃ := hr₂.traceable.extends h₃
  have he₄ := hr₃.traceable.extends h₄
  have hi₃ : i ∈ w₃.log := he₃.log i (he₂.log i hi)
  by_cases hrow : w₁.db.hasKey i.key = true
  · obtain ⟨o, ho, hs, hp⟩ := hr₁.traceable.poll_of_hasKey hi hrow w₂
    have hrow₃ := he₃.hasKey (he₂.hasKey hrow)
    obtain ⟨o', ho', hs', hp'⟩ := hr₃.traceable.poll_of_hasKey hi₃ hrow₃ w₄
    rw [hp, hp']
    refine ⟨by simp, fun o₁ ho₁ => ?_, by simp⟩
    obtain rfl : o = o₁ := by simpa using ho₁
    refine ⟨hs, hr₄.settle.once _ (he₄.hasKey hrow₃), o', ?_, rfl⟩
    -- the row found first is still there, and it is the one of its key
    obtain ⟨o₂, ho₂, hs₂⟩ := he₂.orders o ho
    obtain ⟨o₃, ho₃, hs₃⟩ := he₃.orders o₂ ho₂
    have hkey : o₃.key = o'.key := (hs₃.key.trans (hs₂.key.trans hs.key.symm)).trans hs'.key
    obtain rfl : o₃ = o' := List.inj_on_of_nodup_map hr₃.traceable.orders ho₃ ho' hkey
    exact hs₃.trans hs₂
  · have hno : w₁.db.hasKey i.key = false := by simpa using hrow
    have hpoll : w₁.poll w₂ i.key i.user = getOrderStatus i.user none (w₂.redis.claims i.key) := by
      rw [World.poll, Db.orderByKey_eq_none.2 hno]
    have hclaimed := hr₂.traceable.linked.claimed i (he₂.log i hi)
    rw [hpoll]
    cases hclaim : w₂.redis.claims i.key with
    | none =>
      rw [hclaim] at hclaimed
      cases hclaimed
    | some state =>
      cases state with
      | pending => exact ⟨by simp [getOrderStatus], by simp [getOrderStatus], by simp [getOrderStatus]⟩
      | failed =>
        refine ⟨by simp [getOrderStatus], by simp [getOrderStatus], fun _ => ?_⟩
        by_cases hrow₂ : w₂.db.hasKey i.key = true
        · obtain ⟨o, -, hs, hp⟩ := hr₃.traceable.poll_of_hasKey hi₃ (he₃.hasKey hrow₂) w₄
          exact .inr ⟨hno, o, hs, hp⟩
        · -- the intent was refunded, so it is never committed
          have hreleased := (hr₂.told.failed i.key hclaim).resolve_left hrow₂
          have hunpersisted : ∀ {v : World}, v.Reported → v.redis.released (.deadLetter i.key) = true →
              v.db.hasKey i.key = false := by
            intro v hv hm
            by_contra hk
            rw [hv.settle.once i.key (by simpa using hk)] at hm
            cases hm
          have hreleased₃ := he₃.released _ hreleased
          have hno₃ := hunpersisted hr₃ hreleased₃
          refine .inl ⟨hreleased, hunpersisted hr₄ (he₄.released _ hreleased₃), ?_⟩
          rw [World.poll, Db.orderByKey_eq_none.2 hno₃, he₄.failed _ (he₃.failed _ hclaim)]
          rfl

/-- The first poll finds the intent in the queue, the second its order. -/
theorem polls_go_forward_prompt : ∃ w₁ w₂ w₃ w₄ : World,
    exec (step {}) unseatedStart [.intake (.reserve sampleReserve)] = some w₁ ∧
      exec (step {}) w₁ [] = some w₂ ∧ exec (step {}) w₂ promptConsumer = some w₃ ∧ exec (step {}) w₃ [] = some w₄ ∧
      w₁.poll w₂ 1 sampleReserve.user = .processing ∧ w₁.poll w₂ 1 sampleReserve.user ≠ .notFound := by
  obtain ⟨w₁, hw₁, hp₁⟩ := exec_any (step {}) unseatedStart [.intake (.reserve sampleReserve)]
    (fun w => decide (w.log = [sampleReserve.intent] ∧ w.poll w 1 sampleReserve.user = .processing))
    (by decide +kernel)
  simp only [decide_eq_true_eq] at hp₁
  obtain ⟨w₃, hw₃, -⟩ := exec_any (step {}) unseatedStart (.intake (.reserve sampleReserve) :: promptConsumer)
    (fun _ => true) (by decide +kernel)
  have h₃ : exec (step {}) w₁ promptConsumer = some w₃ := by
    obtain ⟨v, hv, hrest⟩ := exec_cons.1 hw₃
    obtain ⟨v', hv', hrest'⟩ := exec_cons.1 hw₁
    obtain rfl := Option.some.inj (hv.symm.trans hv')
    obtain rfl := Option.some.inj hrest'
    exact hrest
  have hsafe : Along (step {}) CommitSafe unseatedStart
      ([.intake (.reserve sampleReserve)] ++ ([] ++ (promptConsumer ++ []))) :=
    commitSafe_of_noDeadLetter unseatedStart_start (Along.of_forall (by simp [promptConsumer, NoDeadLetter]))
  have hmem : sampleReserve.intent ∈ w₁.log := by rw [hp₁.1]; simp
  exact ⟨w₁, w₁, w₃, w₃, hw₁, rfl, h₃, rfl, hp₁.2,
    (polls_go_forward unseatedStart_start ⟨rfl, rfl, rfl⟩ hsafe hw₁ rfl h₃ rfl hmem).1⟩

end Ticketing
