import Ticketing.SeatOwnership
import Ticketing.Stock

/-!
# Idempotency claims that expire

The claim `idempotency:{key}` has a time to live of a day, the row of `orders` with the same key has none.  A
key that is submitted again after its claim has expired is reserved a second time, and the worker takes the
second stream entry for a redelivery of the first: `_persist_intent` answers `duplicate`, the entry is
acknowledged, and what the second reservation took is gone (`reused_key_loses_its_reservation`).

As long as no accepted key comes back after its claim has expired, expiry has no effect beyond the claims
themselves: the run is, up to these keys, a run of the pipeline in which they do not expire
(`expired_claims_keep_accounts`).
-/

namespace Ticketing

open Exec

inductive ClaimAct where
  | act (a : Act)
  /-- The time to live of a claim ends. -/
  | expire (key : Key)
deriving DecidableEq

/-- The pipeline with claims that expire.  Two components record what happened and are not read: the stream
entry that an order row was written for, and the entries whose reservation the dead-letter path has returned.
-/
structure ClaimWorld where
  world : World
  origin : OrderId → Option StreamId := fun _ => none
  refunded : List StreamId := []

/-- The action of the pipeline. -/
def ClaimAct.pipeline : ClaimAct → Option Act
  | .act a => some a
  | .expire _ => none

/-- The claim that a script looks at. -/
def World.submits (w : World) : Act → Option Key
  | .intake (.reserve a) => some a.key
  | .intake (.claim c _) => (w.calls c).map SeatCall.key
  | _ => none

def World.expireClaim (w : World) (key : Key) : World :=
  { w with redis := { w.redis with claims := Function.update w.redis.claims key none } }

/-- The entries behind the order rows after a step from `w` to `w'`. -/
def recordOrigin (origin : OrderId → Option StreamId) (w w' : World) : Act → OrderId → Option StreamId
  | .settle (.persist h id _) =>
    if w'.db.orders.length = w.db.orders.length then origin
    else Function.update origin id ((w.handlers h).map Handler.entry)
  | _ => origin

/-- The entries whose refund a script has carried out, after a step from `w` to `w'`. -/
def recordRefund (refunded : List StreamId) (w w' : World) : Act → List StreamId
  | .settle (.refund h) =>
    if w'.returned.length = w.returned.length then refunded
    else refunded ++ ((w.handlers h).map Handler.entry).toList
  | _ => refunded

namespace ClaimWorld

def step (cfg : Settings) (s : ClaimWorld) : ClaimAct → Option ClaimWorld
  | .act a => (Ticketing.step cfg s.world a).map fun w =>
      ⟨w, recordOrigin s.origin s.world w a, recordRefund s.refunded s.world w a⟩
  | .expire key => some { s with world := s.world.expireClaim key }

/-- Before the first request of a sale: empty tables, no claim and no marker. -/
structure Start (s : ClaimWorld) : Prop where
  world : s.world.Start
  unsold : s.world.db.Unsold

/-- What the entry of the handler took is held by the order row written for it, or has been returned. -/
def Kept (s : ClaimWorld) (x : Handler) : Prop :=
  (∃ o ∈ s.world.db.orders, s.origin o.id = some x.entry ∧ (x.intent.order o.id).Same o ∧
    ∀ hold ∈ s.world.db.seatHolds, hold.order = o.id → x.intent.span = some hold.span) ∨ x.entry ∈ s.refunded

/-- A stream entry is taken for a duplicate, to be acknowledged next, and what it took is lost. -/
def LosesReservation (s : ClaimWorld) (a : ClaimAct) (_ : ClaimWorld) : Prop :=
  ∃ h x, a = .act (.settle (.lookUp h)) ∧ s.world.handlers h = some x ∧ x.phase = .rejected ∧
    s.world.db.hasKey x.intent.key = true ∧ ¬s.Kept x

/-- No accepted key is submitted once its claim has expired. -/
def NotReused (s : ClaimWorld) (a : ClaimAct) : Prop :=
  ∀ b ∈ a.pipeline, ∀ key ∈ s.world.submits b, s.world.redis.claims key = none → ∀ i ∈ s.world.log, i.key ≠ key

instance (s : ClaimWorld) : DecidablePred s.NotReused := fun a => by unfold NotReused; infer_instance

end ClaimWorld

/-! ### Steps that do not look at claims -/

/-- The same world with other claims. -/
def World.withClaims (w : World) (claims : Key → Option ClaimState) : World :=
  { w with redis := { w.redis with claims } }

/-- The steps that read or write a claim. -/
def Act.usesClaims : Act → Bool
  | .intake (.reserve _) | .intake (.claim _ _) | .settle (.markFailed _) => true
  | _ => false

section WithClaims

variable {cfg : Settings} {w w' : World} {c : Key → Option ClaimState}

private theorem withClaims_db : (w.withClaims c).db = w.db := rfl

private theorem withClaims_entry (id : StreamId) : (w.withClaims c).redis.entry id = w.redis.entry id := rfl

private theorem stepIntake_withClaims {a : IntakeAct} (ha : (Act.intake a).usesClaims = false) :
    stepIntake cfg (w.withClaims c) a = (stepIntake cfg w a).map fun w => w.withClaims c := by
  cases a with
  | reserve a => cases ha
  | claim c i => cases ha
  | call n event zone user quantity total key =>
    simp only [stepIntake, World.withClaims, apply_ite (Option.map _)]
    rfl
  | read n =>
    simp only [stepIntake, World.withClaims]
    cases w.calls n with
    | none => rfl
    | some call =>
      simp only [Option.bind_some]
      split
      · split <;> rfl
      · rfl
  | miss n =>
    simp only [stepIntake, World.withClaims]
    cases w.calls n with
    | none => rfl
    | some call =>
      simp only [Option.bind_some]
      split
      · simp only [World.miss]
        (repeat' split) <;> rfl
      · rfl
  | relax n =>
    simp only [stepIntake, World.withClaims]
    cases w.calls n with
    | none => rfl
    | some call =>
      simp only [Option.bind_some]
      split <;> rfl
  | forget n =>
    simp only [stepIntake, World.withClaims]
    cases w.calls n with
    | none => rfl
    | some call =>
      simp only [Option.bind_some, World.forget]
      split <;> rfl
  | drop n => rfl

private theorem releaseQuantity_withClaims (a : ReleaseArgs) :
    (w.withClaims c).releaseQuantity a = (w.releaseQuantity a).withClaims c := by
  by_cases hm : w.redis.released a.marker = true
  · simp only [World.releaseQuantity, World.withClaims, releaseQuantity, hm, if_true]
  · simp only [World.releaseQuantity, World.withClaims, releaseQuantity, hm]
    rfl

private theorem releaseSeats_withClaims (a : ReleaseSeatsArgs) :
    (w.withClaims c).releaseSeats a = (w.releaseSeats a).map fun w => w.withClaims c := by
  by_cases hm : w.redis.released a.marker = true
  · simp only [World.releaseSeats, World.withClaims, releaseSeats, hm, if_true, Option.map_some]
  · cases ho : (w.redis.zones (a.event, a.zone)).outOfBounds a.block a.start (a.start + a.length) with
    | some capacity => simp [World.releaseSeats, World.withClaims, releaseSeats, hm, ho]
    | none =>
      cases hov : (w.redis.zones (a.event, a.zone)).overlapping a.block a.start (a.start + a.length) with
      | some run => simp [World.releaseSeats, World.withClaims, releaseSeats, hm, ho, hov]
      | none =>
        simp only [World.releaseSeats, World.withClaims, releaseSeats, hm, ho, hov]
        rfl

private theorem refund_withClaims (i : Intent) :
    (w.withClaims c).refund i = (w.refund i).map fun w => w.withClaims c := by
  unfold World.refund
  split
  · exact congrArg some (releaseQuantity_withClaims _)
  · rfl
  · exact releaseSeats_withClaims _

private theorem handle_withClaims {h : Nat} {x : Handler} {a : SettleAct}
    (ha : (Act.settle a).usesClaims = false) :
    (w.withClaims c).handle cfg h x a = (w.handle cfg h x a).map fun w => w.withClaims c := by
  obtain ⟨entry, intent, phase⟩ := x
  cases a with
  | markFailed n => cases ha
  | claim n =>
    cases phase with
    | listed times =>
      simp only [World.handle, withClaims_entry]
      cases w.redis.entry entry <;> rfl
    | _ => rfl
  | persist n id fk =>
    cases phase with
    | delivered =>
      by_cases hc : intent.consistent = true
      · simp only [World.handle, hc, if_true, withClaims_db]
        cases w.db.insertIntent intent id fk <;> rfl
      · simp only [World.handle, hc]
        rfl
    | _ => rfl
  | refund n =>
    cases phase with
    | parked already =>
      cases already with
      | true => rfl
      | false =>
        simp only [World.handle, refund_withClaims]
        cases w.refund intent <;> rfl
    | _ => rfl
  | deliver n id => rfl
  | list n id => rfl
  | stop n => rfl
  | _ n => cases phase <;> rfl

private theorem stepSettle_withClaims {a : SettleAct} (ha : (Act.settle a).usesClaims = false) :
    stepSettle cfg (w.withClaims c) a = (stepSettle cfg w a).map fun w => w.withClaims c := by
  have hhandle : ((w.handlers a.slot).bind fun x => (w.withClaims c).handle cfg a.slot x a) =
      ((w.handlers a.slot).bind fun x => w.handle cfg a.slot x a).map fun w => w.withClaims c := by
    cases w.handlers a.slot with
    | none => rfl
    | some x => exact handle_withClaims ha
  cases a with
  | deliver h id =>
    show (w.redis.entry id).bind _ = ((w.redis.entry id).bind _).map _
    cases w.redis.entry id with
    | none => rfl
    | some e =>
      simp only [Option.bind_some, apply_ite (Option.map _)]
      rfl
  | list h id =>
    show (w.redis.entry id).bind _ = ((w.redis.entry id).bind _).map _
    cases w.redis.entry id with
    | none => rfl
    | some e =>
      simp only [Option.bind_some, apply_ite (Option.map _)]
      rfl
  | _ => exact hhandle

private theorem stepRelease_withClaims {a : ReleaseAct} :
    stepRelease (w.withClaims c) a = (stepRelease w a).map fun w => w.withClaims c := by
  cases a with
  | start n id =>
    show (w.db.orderById id).bind _ = ((w.db.orderById id).bind _).map _
    cases w.db.orderById id with
    | none => rfl
    | some o =>
      simp only [Option.bind_some, apply_ite (Option.map _)]
      rfl
  | claimRow n row =>
    show (w.db.outbox.find? _).bind _ = ((w.db.outbox.find? _).bind _).map _
    cases w.db.outbox.find? fun e => e.id = row with
    | none => rfl
    | some e =>
      simp only [Option.bind_some, apply_ite (Option.map _), withClaims_db]
      refine if_congr Iff.rfl ?_ rfl
      cases w.db.orderById e.order <;> rfl
  | redrive row => rfl
  | stop n => rfl
  | releaseQuantity n =>
    show (w.releases n).bind _ = ((w.releases n).bind _).map _
    cases w.releases n with
    | none => rfl
    | some x =>
      simp only [Option.bind_some, releaseQuantity_withClaims, apply_ite (Option.map _)]
      rfl
  | readHold n =>
    show (w.releases n).bind _ = ((w.releases n).bind _).map _
    cases w.releases n with
    | none => rfl
    | some x =>
      simp only [Option.bind_some, apply_ite (Option.map _), withClaims_db]
      refine if_congr Iff.rfl ?_ rfl
      cases w.db.holdOf x.order.id <;> rfl
  | deleteHold n =>
    show (w.releases n).bind _ = ((w.releases n).bind _).map _
    cases w.releases n with
    | none => rfl
    | some x =>
      obtain ⟨order, row, phase⟩ := x
      cases phase <;> rfl
  | releaseSeats n =>
    show (w.releases n).bind _ = ((w.releases n).bind _).map _
    cases w.releases n with
    | none => rfl
    | some x =>
      simp only [Option.bind_some]
      split
      · rename_i hold zone _ _
        rw [releaseSeats_withClaims]
        cases w.releaseSeats (x.order.releaseSeatsArgs zone hold) <;> rfl
      · rfl
  | markProcessed n =>
    show (w.releases n).bind _ = ((w.releases n).bind _).map _
    cases w.releases n with
    | none => rfl
    | some x =>
      obtain ⟨order, row, phase⟩ := x
      cases phase <;> cases row <;> rfl

private theorem stepReconcile_withClaims {a : ReconcileAct} :
    stepReconcile (w.withClaims c) a = (stepReconcile w a).map fun w => w.withClaims c := by
  cases a with
  | check n event =>
    simp only [stepReconcile, apply_ite (Option.map _)]
    rfl
  | stop n => rfl
  | read n =>
    show (w.reconciles n).bind _ = ((w.reconciles n).bind _).map _
    cases w.reconciles n with
    | none => rfl
    | some job =>
      obtain ⟨event, phase⟩ := job
      cases phase with
      | checked =>
        simp only [Option.bind_some, withClaims_db]
        cases w.db.events event <;> rfl
      | _ => rfl
  | _ n =>
    show (w.reconciles n).bind _ = ((w.reconciles n).bind _).map _
    cases w.reconciles n with
    | none => rfl
    | some job =>
      obtain ⟨event, phase⟩ := job
      cases phase <;> rfl

private theorem stepRebuild_withClaims {a : RebuildAct} :
    stepRebuild (w.withClaims c) a = (stepRebuild w a).map fun w => w.withClaims c := by
  cases a with
  | check n event zone =>
    simp only [stepRebuild, apply_ite (Option.map _)]
    rfl
  | stop n => rfl
  | _ n =>
    show (w.rebuilds n).bind _ = ((w.rebuilds n).bind _).map _
    cases w.rebuilds n with
    | none => rfl
    | some job =>
      obtain ⟨event, zone, phase⟩ := job
      cases phase with
      | checked =>
        simp only [Option.bind_some, apply_ite (Option.map _)]
        rfl
      | read blocks held => rfl

/-- A step that does not look at claims does the same under other claims. -/
theorem step_withClaims {a : Act} (ha : a.usesClaims = false) :
    step cfg (w.withClaims c) a = (step cfg w a).map fun w => w.withClaims c := by
  cases a with
  | intake a => exact stepIntake_withClaims ha
  | settle a => exact stepSettle_withClaims ha
  | transition id new now =>
    show (w.db.transition id new now).map _ = ((w.db.transition id new now).map _).map _
    cases w.db.transition id new now <;> rfl
  | release a => exact stepRelease_withClaims
  | reconcile a => exact stepReconcile_withClaims
  | rebuild a => exact stepRebuild_withClaims
  | lose event => rfl

/-! ### The scripts that look at a claim -/

/-- Nothing is accepted, or the key is claimed in both worlds and its intent logged. -/
private def ClaimsMove (key : Key) (c c' d d' : Key → Option ClaimState) : Prop :=
  (d' = d ∧ c' = c) ∨ d' = Function.update d key (some .pending) ∧ c' = Function.update c key (some .pending)

private theorem reserve_withClaims {a : ReserveArgs} (hk : w.redis.claims a.key = c a.key)
    (h : w.reserve cfg a = some w') :
    ∃ c', (w.withClaims c).reserve cfg a = some (w'.withClaims c') ∧
      ClaimsMove a.key c c' w.redis.claims w'.redis.claims ∧ (c' ≠ c → a.intent ∈ w'.log) := by
  unfold World.reserve at h ⊢
  rw [withClaims_db]
  split at h
  · rename_i hg
    rw [if_pos hg]
    cases hcl : w.redis.claims a.key with
    | some st =>
      have hcl' : c a.key = some st := hk.symm.trans hcl
      simp only [reserveAndEnqueue, hcl, Option.isSome_some, if_true, Option.some.injEq] at h
      subst h
      refine ⟨c, ?_, .inl ⟨rfl, rfl⟩, fun hne => absurd rfl hne⟩
      simp only [reserveAndEnqueue, World.withClaims, hcl', Option.isSome_some, if_true]
    | none =>
      have hcl' : c a.key = none := hk.symm.trans hcl
      have hheld : Redis.held { w.redis with claims := c } a.event a.user = w.redis.held a.event a.user := rfl
      simp only [reserveAndEnqueue, hcl, Option.isSome_none, Bool.false_eq_true, if_false] at h
      simp only [reserveAndEnqueue, World.withClaims, hcl', Option.isSome_none, Bool.false_eq_true, if_false, hheld]
      cases hav : w.redis.available a.event with
      | none =>
        simp only [hav, Option.some.injEq] at h ⊢
        subst h
        exact ⟨c, rfl, .inl ⟨rfl, rfl⟩, fun hne => absurd rfl hne⟩
      | some avail =>
        simp only [hav] at h ⊢
        by_cases hstock : avail < a.quantity
        · simp only [hstock, if_true, Option.some.injEq] at h ⊢
          subst h
          exact ⟨c, rfl, .inl ⟨rfl, rfl⟩, fun hne => absurd rfl hne⟩
        · by_cases hquota : a.limit < w.redis.held a.event a.user + a.quantity
          · simp only [hstock, hquota, if_true, if_false, Option.some.injEq] at h ⊢
            subst h
            exact ⟨c, rfl, .inl ⟨rfl, rfl⟩, fun hne => absurd rfl hne⟩
          · simp only [hstock, hquota, if_false, Option.some.injEq] at h ⊢
            subst h
            exact ⟨_, rfl, .inr ⟨rfl, rfl⟩, fun _ => by simp⟩
  · cases h

/-- The claim script answers the same under other claims that agree on its key. -/
private theorem claimSeats_withClaims {r : Redis} {a : ClaimArgs} (hk : r.claims a.key = c a.key) :
    ∃ c', claimSeats { r with claims := c } a = ((claimSeats r a).1, { (claimSeats r a).2 with claims := c' }) ∧
      ClaimsMove a.key c c' r.claims (claimSeats r a).2.claims ∧
      (c' ≠ c → ∃ id n, (claimSeats r a).1 = .ok id n) := by
  have hheld : Redis.held { r with claims := c } a.event a.user = r.held a.event a.user := rfl
  cases hcl : r.claims a.key with
  | some st =>
    have hcl' : c a.key = some st := hk.symm.trans hcl
    refine ⟨c, ?_, .inl ⟨?_, rfl⟩, fun hne => absurd rfl hne⟩ <;>
      simp only [claimSeats, hcl, hcl', Option.isSome_some, if_true]
  | none =>
    have hcl' : c a.key = none := hk.symm.trans hcl
    simp only [claimSeats, hcl, hcl', Option.isSome_none, Bool.false_eq_true, if_false, hheld]
    by_cases hquota : a.limit < r.held a.event a.user + a.length
    · simp only [hquota, if_true]
      exact ⟨c, rfl, .inl ⟨rfl, rfl⟩, fun hne => absurd rfl hne⟩
    · by_cases hrun : (r.zones (a.event, a.zone)).runs.lookup ⟨a.block, a.runStart⟩ ≠ some a.runLength
      · simp only [hquota, if_false, if_pos hrun]
        exact ⟨c, rfl, .inl ⟨rfl, rfl⟩, fun hne => absurd rfl hne⟩
      · by_cases hb : a.start < a.runStart ∨ a.runStart + a.runLength < a.start + a.length
        · simp only [hquota, if_false, if_neg hrun, if_pos hb]
          exact ⟨c, rfl, .inl ⟨rfl, rfl⟩, fun hne => absurd rfl hne⟩
        · simp only [hquota, if_false, if_neg hrun, if_neg hb]
          exact ⟨_, rfl, .inr ⟨rfl, rfl⟩, fun _ => ⟨_, _, rfl⟩⟩

private theorem claim_withClaims {n i : Nat} {call : SeatCall} {state : ZoneState}
    (hk : w.redis.claims call.key = c call.key) (h : w.claim cfg n call state i = some w') :
    ∃ c', (w.withClaims c).claim cfg n call state i = some (w'.withClaims c') ∧
      ClaimsMove call.key c c' w.redis.claims w'.redis.claims ∧ (c' ≠ c → ∃ j ∈ w'.log, j.key = call.key) := by
  have hsame : ∀ {w₁ w₂ : World}, some w₁ = some w₂ → w₁.redis.claims = w.redis.claims →
      ∃ c', some (w₁.withClaims c) = some (w₂.withClaims c') ∧
        ClaimsMove call.key c c' w.redis.claims w₂.redis.claims ∧ (c' ≠ c → ∃ j ∈ w₂.log, j.key = call.key) := by
    intro w₁ w₂ h₁ hcl
    obtain rfl := Option.some.inj h₁
    exact ⟨c, rfl, .inl ⟨hcl, rfl⟩, fun hne => absurd rfl hne⟩
  unfold World.claim at h ⊢
  split at h
  · exact hsame h rfl
  · rename_i anchors hanchors
    obtain ⟨pick, hpick, h⟩ := Option.bind_eq_some_iff.1 h
    rw [hpick, Option.bind_some]
    split at h
    · exact hsame h rfl
    · rename_i host _
      simp only
      obtain ⟨c', heq, hmove, hok⟩ :=
        claimSeats_withClaims (r := w.redis) (a := call.claimArgs host pick cfg.maxTicketsPerUserPerEvent) hk
      have heq' : claimSeats (w.withClaims c).redis
        (call.claimArgs host pick cfg.maxTicketsPerUserPerEvent) = _ := heq
      rw [heq']
      simp only at h ⊢
      cases hreply : (claimSeats w.redis (call.claimArgs host pick cfg.maxTicketsPerUserPerEvent)).1 with
      | ok id rem =>
        simp only [hreply, Option.some.injEq] at h ⊢
        subst h
        exact ⟨c', rfl, hmove, fun _ => ⟨_, List.mem_append_right _ (List.mem_singleton_self _), rfl⟩⟩
      | _ =>
        simp only [hreply, Option.some.injEq] at h ⊢
        subst h
        refine ⟨c', rfl, hmove, fun hne => ?_⟩
        obtain ⟨id, rem, hEq⟩ := hok hne
        rw [hreply] at hEq
        cases hEq

/-- The claims `c` are those of `w` with the expired ones put back. -/
structure Covers (w : World) (c : Key → Option ClaimState) : Prop where
  below : ∀ k, w.redis.claims k = none ∨ w.redis.claims k = c k
  known : ∀ k, (c k).isSome = true → ∃ i ∈ w.log, i.key = k

private theorem Covers.move {key : Key} {c' : Key → Option ClaimState} (hv : Covers w c)
    (hm : ClaimsMove key c c' w.redis.claims w'.redis.claims) (hlog : ∀ i ∈ w.log, i ∈ w'.log)
    (hnew : c' ≠ c → ∃ i ∈ w'.log, i.key = key) : Covers w' c' := by
  rcases hm with ⟨hd, rfl⟩ | ⟨hd, rfl⟩
  · refine ⟨fun k => by rw [hd]; exact hv.below k, fun k hk => ?_⟩
    obtain ⟨i, hi, hkey⟩ := hv.known k hk
    exact ⟨i, hlog i hi, hkey⟩
  · constructor
    · intro k
      rw [hd]
      by_cases hk : k = key
      · subst hk
        exact .inr (by rw [Function.update_self, Function.update_self])
      · rw [Function.update_of_ne hk, Function.update_of_ne hk]
        exact hv.below k
    · intro k hk
      by_cases hk' : k = key
      · subst hk'
        by_cases hEq : Function.update c k (some .pending) = c
        · rw [hEq] at hk
          obtain ⟨i, hi, hkey⟩ := hv.known k hk
          exact ⟨i, hlog i hi, hkey⟩
        · exact hnew hEq
      · rw [Function.update_of_ne hk'] at hk
        obtain ⟨i, hi, hkey⟩ := hv.known k hk
        exact ⟨i, hlog i hi, hkey⟩

/-- A script that is not called with an expired key finds the same claim with the expired ones put back. -/
private theorem Covers.agrees {key : Key} (hv : Covers w c)
    (hkey : w.redis.claims key = none → ∀ i ∈ w.log, i.key ≠ key) :
    w.redis.claims key = c key := by
  rcases hv.below key with hnone | heq
  · cases hc : c key with
    | none => exact hnone
    | some st =>
      obtain ⟨i, hi, hik⟩ := hv.known key (by rw [hc]; rfl)
      exact absurd hik (hkey hnone i hi)
  · exact heq

/-- Expired claims do not show in a step: it is a step of the world that still has them. -/
theorem Covers.step {a : Act} (hv : Covers w c) (hl : (w.withClaims c).Linked)
    (hsub : ∀ key ∈ w.submits a, w.redis.claims key = none → ∀ i ∈ w.log, i.key ≠ key) (h : step cfg w a = some w') :
    ∃ c', Ticketing.step cfg (w.withClaims c) a = some (w'.withClaims c') ∧ Covers w' c' := by
  have hlog : ∀ i ∈ w.log, i ∈ w'.log := (recordsKept_step h).logged
  by_cases ha : a.usesClaims = true
  · cases a with
    | intake a =>
      cases a with
      | reserve b =>
        obtain ⟨c', hstep, hm, hnew⟩ := reserve_withClaims (hv.agrees (hsub b.key rfl)) h
        exact ⟨c', hstep, hv.move hm hlog fun hne => ⟨b.intent, hnew hne, rfl⟩⟩
      | claim n i =>
        obtain ⟨call, hcall, h⟩ := Option.bind_eq_some_iff.1 h
        have hcalls : (w.withClaims c).calls n = some call := hcall
        have hkey : w.submits (.intake (.claim n i)) = some call.key := by rw [World.submits, hcall]; rfl
        cases hphase : call.phase with
        | snapshot state =>
          rw [hphase] at h
          obtain ⟨c', hstep, hm, hnew⟩ := claim_withClaims (hv.agrees (hsub call.key hkey)) h
          refine ⟨c', ?_, hv.move hm hlog hnew⟩
          simp only [Ticketing.step, stepIntake, hcalls, Option.bind_some, hphase]
          exact hstep
        | _ =>
          rw [hphase] at h
          cases h
      | _ => cases ha
    | settle a =>
      cases a with
      | markFailed n =>
        obtain ⟨x, hx, h⟩ := Option.bind_eq_some_iff.1 h
        have hx' : (w.withClaims c).handlers n = some x := hx
        obtain ⟨entry, intent, phase⟩ := x
        cases phase with
        | refunded =>
          obtain rfl := Option.some.inj h
          refine ⟨Function.update c intent.key (some .failed), ?_, ?_⟩
          · simp only [Ticketing.step, stepSettle, SettleAct.slot, hx', Option.bind_some, World.handle]
            rfl
          · constructor
            · intro k
              show Function.update w.redis.claims intent.key (some .failed) k = none ∨
                Function.update w.redis.claims intent.key (some .failed) k = Function.update c intent.key
                (some .failed) k
              by_cases hk : k = intent.key
              · exact .inr (by rw [hk, Function.update_self, Function.update_self])
              · rw [Function.update_of_ne hk, Function.update_of_ne hk]
                exact hv.below k
            · intro k hk
              by_cases hk' : k = intent.key
              · exact ⟨intent, hl.handled n _ hx', hk'.symm⟩
              · rw [Function.update_of_ne hk'] at hk
                exact hv.known k hk
        | _ => cases h
      | _ => cases ha
    | _ => cases ha
  · have ha : a.usesClaims = false := by simpa using ha
    have hclaims : w'.redis.claims = w.redis.claims := by
      have hself : Ticketing.step cfg (w.withClaims w.redis.claims) a = _ := step_withClaims ha
      have heta : w.withClaims w.redis.claims = w := rfl
      rw [heta, h, Option.map_some, Option.some.injEq] at hself
      rw [hself]
      rfl
    refine ⟨c, by rw [step_withClaims ha, h]; rfl, ?_, ?_⟩
    · intro k
      rw [hclaims]
      exact hv.below k
    · intro k hk
      obtain ⟨i, hi, hkey⟩ := hv.known k hk
      exact ⟨i, hlog i hi, hkey⟩

end WithClaims

/-! ### Orders and the entries they were written for -/

/-- Every key has one stream entry, on which the stream, the handlers and the order rows agree. -/
def Traced (w : World) (origin : OrderId → Option StreamId) : Prop :=
  ∃ entryOf : Key → StreamId, (∀ e ∈ w.redis.stream, entryOf e.intent.key = e.id) ∧
    (∀ n x, w.handlers n = some x → entryOf x.intent.key = x.entry) ∧
    ∀ o ∈ w.db.orders, origin o.id = some (entryOf o.key)

namespace Traced

variable {cfg : Settings} {w w' : World} {origin : OrderId → Option StreamId}

theorem start (h : w.Start) (hdb : w.db.Unsold) : Traced w origin := by
  refine ⟨fun _ => 0, ?_, ?_, ?_⟩
  · intro e he
    rw [h.stream] at he
    cases he
  · intro n x hx
    rw [h.handlers n] at hx
    cases hx
  · intro o ho
    rw [hdb.orders] at ho
    cases ho

/-- A step that queues no entry and writes no order. -/
private theorem frame (ht : Traced w origin)
    (hstream : ∀ e' ∈ w'.redis.stream, ∃ e ∈ w.redis.stream, e.id = e'.id ∧ e.intent = e'.intent)
    (hhandlers : ∀ n y, w'.handlers n = some y →
      (∃ x, w.handlers n = some x ∧ y.entry = x.entry ∧ y.intent = x.intent) ∨
        ∃ e ∈ w.redis.stream, e.id = y.entry ∧ e.intent = y.intent)
    (horders : ∀ o' ∈ w'.db.orders, ∃ o ∈ w.db.orders, o'.Same o) : Traced w' origin := by
  obtain ⟨f, hs, hh, ho⟩ := ht
  refine ⟨f, ?_, ?_, ?_⟩
  · intro e' he'
    obtain ⟨e, he, hid, hint⟩ := hstream e' he'
    rw [← hint, ← hid]
    exact hs e he
  · intro n y hy
    rcases hhandlers n y hy with ⟨x, hx, hentry, hint⟩ | ⟨e, he, hid, hint⟩
    · rw [hint, hentry]
      exact hh n x hx
    · rw [← hint, ← hid]
      exact hs e he
  · intro o' ho'
    obtain ⟨o, hom, hsame⟩ := horders o' ho'
    rw [hsame.id, hsame.key]
    exact ho o hom

/-- A script queues an entry with a new key. -/
private theorem accept (ht : Traced w origin) (hl : w.Linked) (ho : w.Originated) {i : Intent}
    (hfresh : w.redis.claims i.key = none)
    (hstream : w'.redis.stream = w.redis.stream ++ [⟨w.redis.lastId + 1, i, 0⟩])
    (hhandlers : w'.handlers = w.handlers) (hdb : w'.db = w.db) : Traced w' origin := by
  have hne : ∀ j ∈ w.log, j.key ≠ i.key := by
    intro j hj hk
    have hclaimed := hl.claimed j hj
    rw [hk, hfresh] at hclaimed
    cases hclaimed
  obtain ⟨f, hs, hh, hord⟩ := ht
  refine ⟨Function.update f i.key (w.redis.lastId + 1), ?_, ?_, ?_⟩
  · intro e he
    rw [hstream] at he
    rcases List.mem_append.1 he with he | he
    · rw [Function.update_of_ne (hne e.intent (hl.queued e he))]
      exact hs e he
    · rw [List.mem_singleton.1 he]
      exact Function.update_self ..
  · intro n x hx
    rw [hhandlers] at hx
    rw [Function.update_of_ne (hne x.intent (hl.handled n x hx))]
    exact hh n x hx
  · intro o hom
    rw [hdb] at hom
    obtain ⟨j, hj, hsame⟩ := ho.order o hom
    have hkey : o.key ≠ i.key := hsame.key ▸ hne j hj
    rw [Function.update_of_ne hkey]
    exact hord o hom

private theorem commit (ht : Traced w origin) {n : Nat} {x : Handler} {id : OrderId} {fk : Bool} {db : Db}
    {p : HandlerPhase} (hx : w.handlers n = some x) (hdb : w.db.insertIntent x.intent id fk = some db) :
    Traced { w.setHandler n (some { x with phase := p }) with db } (Function.update origin id (some x.entry)) := by
  obtain ⟨hacc, -, rfl⟩ := insertIntent_eq_some hdb
  obtain ⟨f, hs, hh, hord⟩ := ht
  refine ⟨f, hs, ?_, ?_⟩
  · intro m y hy
    by_cases hm : m = n
    · subst hm
      simp only [World.setHandler, Function.update_self, Option.some.injEq] at hy
      subst hy
      exact hh m x hx
    · simp only [World.setHandler, Function.update_of_ne hm] at hy
      exact hh m y hy
  · intro o hom
    rcases List.mem_append.1 hom with hom | hom
    · have hne : o.id ≠ id := hacc.1 o hom
      rw [Function.update_of_ne hne]
      exact hord o hom
    · rw [List.mem_singleton.1 hom]
      exact (Function.update_self ..).trans (congrArg some (hh n x hx).symm)

theorem step {a : Act} (ht : Traced w origin) (hl : w.Linked) (ho : w.Originated)
    (h : Ticketing.step cfg w a = some w') : Traced w' (recordOrigin origin w w' a) := by
  have hstream : ∀ e ∈ w.redis.stream, ∃ e' ∈ w.redis.stream, e'.id = e.id ∧ e'.intent = e.intent :=
    fun e he => ⟨e, he, rfl, rfl⟩
  have hhandlers : ∀ n y, w.handlers n = some y →
      (∃ x, w.handlers n = some x ∧ y.entry = x.entry ∧ y.intent = x.intent) ∨
        ∃ e ∈ w.redis.stream, e.id = y.entry ∧ e.intent = y.intent := fun n y hy => .inl ⟨y, hy, rfl, rfl⟩
  have horders : ∀ o ∈ w.db.orders, ∃ o' ∈ w.db.orders, o.Same o' := fun o hom => ⟨o, hom, .refl o⟩
  cases a with
  | intake a =>
    rcases stepIntake_cases h with ⟨b, hok, rfl⟩ | ⟨n, call, b, -, hok, rfl⟩ | ⟨zones, calls, -, -, rfl⟩
    · exact ht.accept (i := b.intent) hl ho hok.fresh rfl rfl rfl
    · exact ht.accept (i := b.intent) hl ho hok.fresh rfl rfl rfl
    · exact ht.frame hstream hhandlers horders
  | settle a =>
    rcases stepSettle_cases h with ⟨n, x, id, fk, db, rfl, hx, -, -, hdb, rfl⟩ | ⟨n, x, w₁, hx, hp, hw₁, rfl⟩ |
      ⟨redis, handlers, hq, hfrom, rfl⟩
    · have hlen : db.orders.length ≠ w.db.orders.length := by
        obtain ⟨-, -, rfl⟩ := insertIntent_eq_some hdb
        simp
      simp only [recordOrigin, hlen, if_false, hx, Option.map_some]
      exact ht.commit hx hdb
    · -- a refund changes the handler that makes it and neither the stream nor the rows
      have hsame : recordOrigin origin w (w₁.setHandler n (some { x with phase := .refunded }))
          (.settle a) = origin := by
        have hdb : w₁.db = w.db := by
          rcases World.refund_cases hw₁ with ⟨-, -, rfl⟩ | ⟨seat, zone, -, -, -, rfl⟩ | rfl <;> rfl
        cases a with
        | persist m id fk => simp only [recordOrigin, World.setHandler, hdb, if_true]
        | _ => rfl
      have hmoved : ∀ (w₂ : World), w₂.handlers = w.handlers → ∀ m y,
          (w₂.setHandler n (some { x with phase := .refunded })).handlers m = some y →
          (∃ x, w.handlers m = some x ∧ y.entry = x.entry ∧ y.intent = x.intent) ∨
            ∃ e ∈ w.redis.stream, e.id = y.entry ∧ e.intent = y.intent := by
        intro w₂ hw₂ m y hy
        by_cases hm : m = n
        · subst hm
          simp only [World.setHandler, Function.update_self, Option.some.injEq] at hy
          subst hy
          exact .inl ⟨x, hx, rfl, rfl⟩
        · simp only [World.setHandler, Function.update_of_ne hm, hw₂] at hy
          exact .inl ⟨y, hy, rfl, rfl⟩
      rw [hsame]
      rcases World.refund_cases hw₁ with ⟨-, -, rfl⟩ | ⟨seat, zone, -, -, -, rfl⟩ | rfl
      · exact ht.frame hstream (hmoved _ rfl) horders
      · exact ht.frame hstream (hmoved _ rfl) horders
      · exact ht.frame hstream (hmoved _ rfl) horders
    · have hsame : recordOrigin origin w { w with redis, handlers } (.settle a) = origin := by
        cases a with
        | persist m id fk => simp only [recordOrigin, if_true]
        | _ => rfl
      rw [hsame]
      refine ht.frame hq.stream (fun n y hy => ?_) horders
      rcases hfrom n y hy with ⟨x, hx, hentry, hint, -⟩ | ⟨e, he, hid, hint, -⟩
      · exact .inl ⟨x, hx, hentry, hint⟩
      · exact .inr ⟨e, he, hid, hint⟩
  | transition id new now =>
    obtain ⟨db, hdb, rfl⟩ := Option.map_eq_some_iff.1 h
    refine ht.frame hstream hhandlers fun o' ho' => ?_
    obtain ⟨o, hom, hs, -⟩ := Db.of_mem_orders_transition hdb ho'
    exact ⟨o, hom, hs⟩
  | release a =>
    rcases stepRelease_cases h with ⟨n, x, hold, -, -, rfl⟩ | ⟨n, x, -, -, -, -, rfl⟩ |
      ⟨n, x, hold, zone, -, -, -, -, rfl⟩ | ⟨outbox, releases, -, -, rfl⟩ <;>
      exact ht.frame hstream hhandlers horders
  | reconcile a =>
    rcases stepReconcile_cases h with ⟨n, job, remaining, owing, -, -, -, rfl⟩ | ⟨n, job, rows, -, -, rfl⟩ |
      ⟨reconciles, -, rfl⟩ <;>
      exact ht.frame hstream hhandlers horders
  | rebuild a =>
    rcases stepRebuild_cases h with ⟨n, job, blocks, held, -, -, -, rfl⟩ | ⟨rebuilds, -, rfl⟩ <;>
      exact ht.frame hstream hhandlers horders
  | lose event =>
    obtain rfl := Option.some.inj h
    exact ht.frame hstream hhandlers horders

end Traced

/-! ### Runs with expired claims -/

namespace ClaimWorld

variable {cfg : Settings} {s s' : ClaimWorld} {c : Key → Option ClaimState}

/-- The world with its expired claims put back is one of the pipeline without expiry. -/
structure Restored (s : ClaimWorld) (c : Key → Option ClaimState) : Prop where
  covers : Covers s.world c
  linked : (s.world.withClaims c).Linked
  originated : (s.world.withClaims c).Originated
  traced : Traced (s.world.withClaims c) s.origin

theorem Restored.start (h : s.Start) : s.Restored s.world.redis.claims where
  covers := ⟨fun _ => .inr rfl, fun k hk => by rw [h.world.claims k] at hk; cases hk⟩
  linked := .start h.world h.unsold.linked
  originated := .start h.world h.unsold
  traced := .start h.world h.unsold

theorem Restored.step {a : ClaimAct} (hr : s.Restored c) (hC : s.NotReused a) (h : s.step cfg a = some s') :
    ∃ c', s'.Restored c' ∧
      exec (Ticketing.step cfg) (s.world.withClaims c) a.pipeline.toList = some (s'.world.withClaims c') := by
  cases a with
  | act a =>
    obtain ⟨w, hw, rfl⟩ := Option.map_eq_some_iff.1 h
    obtain ⟨c', hstep, hcov⟩ := hr.covers.step hr.linked (hC a rfl) hw
    refine ⟨c', ⟨hcov, hr.linked.step hstep, hr.originated.step hr.linked hstep, ?_⟩, ?_⟩
    · exact hr.traced.step hr.linked hr.originated hstep
    · exact exec_cons.2 ⟨_, hstep, rfl⟩
  | expire key =>
    obtain rfl := Option.some.inj h
    refine ⟨c, ⟨⟨fun k => ?_, hr.covers.known⟩, hr.linked, hr.originated, hr.traced⟩, rfl⟩
    show Function.update s.world.redis.claims key none k = none ∨
      Function.update s.world.redis.claims key none k = c k
    by_cases hk : k = key
    · exact .inl (by rw [hk, Function.update_self])
    · rw [Function.update_of_ne hk]
      exact hr.covers.below k

/-- A duplicate is a redelivery of the entry that the order row was written for. -/
theorem Restored.kept (hr : s.Restored c) {n : Nat} {x : Handler} (hx : s.world.handlers n = some x)
    (hkey : s.world.db.hasKey x.intent.key = true) : s.Kept x := by
  obtain ⟨f, -, hh, hord⟩ := hr.traced
  obtain ⟨o, hom, hok⟩ := List.any_eq_true.1 hkey
  have hok : o.key = x.intent.key := by simpa using hok
  have hlog : x.intent ∈ (s.world.withClaims c).log := hr.linked.handled n x hx
  refine .inl ⟨o, hom, ?_, ?_, ?_⟩
  · rw [hord o hom, hok]
    exact congrArg some (hh n x hx)
  · obtain ⟨i, hi, hsame⟩ := hr.originated.order o hom
    have hik : i.key = x.intent.key := hsame.key.trans hok
    rwa [hr.linked.intent_unique hi hlog hik] at hsame
  · intro hold hhold hid
    obtain ⟨i, hi, o', hom', hid', hik, hspan⟩ := hr.originated.hold hold hhold
    obtain rfl := hr.linked.db.order_unique hom hom' (hid.symm.trans hid'.symm)
    rwa [hr.linked.intent_unique hi hlog (hik.trans hok)] at hspan

theorem Restored.not_loses {a : ClaimAct} (hr : s.Restored c) : ¬s.LosesReservation a s' := by
  rintro ⟨n, x, -, hx, -, hkey, hnot⟩
  exact hnot (hr.kept hx hkey)

/-- The run with the expired claims put back. -/
theorem restored_of_exec {s₀ : ClaimWorld} {acts : List ClaimAct} (h₀ : s₀.Start)
    (hC : Along (step cfg) NotReused s₀ acts) (h : Exec.exec (step cfg) s₀ acts = some s) :
    ∃ c, s.Restored c ∧
      Exec.exec (Ticketing.step cfg) s₀.world (acts.filterMap ClaimAct.pipeline) = some (s.world.withClaims c) := by
  refine exec_history (J := fun as t => ∃ c, t.Restored c ∧
    Exec.exec (Ticketing.step cfg) s₀.world (as.filterMap ClaimAct.pipeline) = some (t.world.withClaims c)) ?_ ?_ hC h
  · exact ⟨_, .start h₀, rfl⟩
  · rintro as t a t' - hCa hstep ⟨c, hr, hrun⟩
    obtain ⟨c', hr', hnext⟩ := hr.step hCa hstep
    refine ⟨c', hr', ?_⟩
    rw [List.filterMap_append, exec_append, hrun, Option.bind_some]
    cases a <;> exact hnext

/-- A reservation of two tickets is persisted and acknowledged, its claim expires, and the key is submitted again. -/
def reusedKey : List ClaimAct :=
  [.act (.intake (.reserve sampleReserve)), .act (.settle (.deliver 0 1)), .act (.settle (.persist 0 7 true)),
    .act (.settle (.ack 0)), .expire 1, .act (.intake (.reserve sampleReserve)), .act (.settle (.deliver 0 2)),
    .act (.settle (.persist 0 8 true)), .act (.settle (.lookUp 0)), .act (.settle (.ack 0))]

def unseatedClaims : ClaimWorld := { world := unseatedStart }

theorem unseatedClaims_start : unseatedClaims.Start := ⟨unseatedStart_start, ⟨rfl, rfl, rfl⟩⟩

/-- The handler in slot 0 takes its entry for a duplicate although no order row and no refund belongs to it. -/
private def losesReservation (s : ClaimWorld) (a : ClaimAct) (_ : ClaimWorld) : Bool :=
  a = .act (.settle (.lookUp 0)) ∧ ∃ x ∈ s.world.handlers 0, x.phase = .rejected ∧
    s.world.db.hasKey x.intent.key = true ∧ (∀ o ∈ s.world.db.orders, s.origin o.id ≠ some x.entry) ∧
      x.entry ∉ s.refunded

/-- The second entry is acknowledged as a duplicate of the first.  Four of ten tickets are gone from the
stock, and two are accounted for. -/
theorem reused_key_loses_its_reservation :
    unseatedClaims.Start ∧ Occurs (step {}) LosesReservation unseatedClaims reusedKey ∧
      ∃ s, Exec.exec (step {}) unseatedClaims reusedKey = some s ∧ s.world.redis.stream = [] ∧
        s.world.redis.available 1 = some 6 ∧ s.world.owed (ofEvent 1) = 2 := by
  refine ⟨unseatedClaims_start, .of_check (p := losesReservation) (fun s a s' h => ?_) (by decide +kernel), ?_⟩
  · obtain ⟨ha, x, hx, hp, hkey, hnone, href⟩ := of_decide_eq_true h
    refine ⟨0, x, ha, hx, hp, hkey, ?_⟩
    rintro (⟨o, hom, horigin, -⟩ | hmem)
    · exact hnone o hom horigin
    · exact href hmem
  · obtain ⟨s, hs, hp⟩ := exec_any (step {}) unseatedClaims reusedKey
      (fun s => s.world.redis.stream = [] ∧ s.world.redis.available 1 = some 6 ∧ s.world.owed (ofEvent 1) = 2)
      (by decide +kernel)
    rw [decide_eq_true_eq] at hp
    exact ⟨s, hs, hp⟩

/-- As long as no accepted key is submitted again after its claim has expired, an entry that is acknowledged
as a duplicate has its reservation in an order row, and the run is, up to the claims, one of the pipeline
without expiry.  So stock and quota of a general-admission event are what is not owed and what is owed, and a
seat has one holder, wherever this holds of the pipeline. -/
theorem expired_claims_keep_accounts {s₀ : ClaimWorld} {acts : List ClaimAct} (h₀ : s₀.Start)
    (hC : Along (step cfg) NotReused s₀ acts) (h : Exec.exec (step cfg) s₀ acts = some s) :
    ¬Occurs (step cfg) LosesReservation s₀ acts ∧
    (∃ c, Exec.exec (Ticketing.step cfg) s₀.world (acts.filterMap ClaimAct.pipeline) = some (s.world.withClaims c)) ∧
    (∀ event total, OnSale event total s₀.world →
      Along (Ticketing.step cfg) CommitSafe s₀.world (acts.filterMap ClaimAct.pipeline) →
      Along (Ticketing.step cfg) NoReconcile s₀.world (acts.filterMap ClaimAct.pipeline) →
      s.world.redis.available event = some (total - s.world.owed (ofEvent event)) ∧
        ∀ user, s.world.redis.held event user = s.world.owed (ofUser event user)) ∧
    ∀ event, Built event s₀.world →
      Along (Ticketing.step cfg) CommitSafe s₀.world (acts.filterMap ClaimAct.pipeline) →
      Along (Ticketing.step cfg) NoRebuild s₀.world (acts.filterMap ClaimAct.pipeline) →
      ∀ x y u v, s.world.Holds event x u → s.world.Holds event y v → ∀ b p, u.Covers b p → v.Covers b p → x = y := by
  obtain ⟨c, hr, hrun⟩ := restored_of_exec h₀ hC h
  refine ⟨?_, ⟨c, hrun⟩, ?_, ?_⟩
  · refine hC.not_occurs (I := fun t => ∃ c, t.Restored c) ?_ ?_ ⟨_, .start h₀⟩
    · rintro t a t' hCa hstep ⟨c, hr⟩
      obtain ⟨c', hr', -⟩ := hr.step hCa hstep
      exact ⟨c', hr'⟩
    · rintro t a t' - - ⟨c, hr⟩
      exact hr.not_loses
  · intro event total hsale hsafe hquiet
    have hinv : Conserved cfg event total (s.world.withClaims c) :=
      exec_invariant (fun _ _ _ hC hs hi => hi.step hC.1 hC.2 hs) (Conserved.start hsale) (hsafe.and hquiet) hrun
    exact ⟨hinv.available, hinv.quota⟩
  · intro event hbuilt hsafe hno x y u v hx hy b p hu hv
    have hrebuild : Along (Ticketing.step cfg) (RebuildSafe event) s₀.world _ :=
      rebuildSafe_of_noRebuild hbuilt.start hno
    have hinv : SeatInv event (s.world.withClaims c) :=
      exec_invariant (fun _ _ _ hC hs hi => hi.step hC.1 hC.2 hs) hbuilt.seatInv (hsafe.and hrebuild) hrun
    exact hinv.holds_unique hx hy hu hv

/-- The worker stops between commit and acknowledgement, the claim expires, and the entry is delivered again. -/
def redelivered : List ClaimAct :=
  [.act (.intake (.reserve sampleReserve)), .act (.settle (.deliver 0 1)), .act (.settle (.persist 0 7 true)),
    .act (.settle (.stop 0)), .expire 1, .act (.settle (.list 1 1)), .act (.settle (.claim 1)),
    .act (.settle (.persist 1 8 true)), .act (.settle (.lookUp 1)), .act (.settle (.ack 1))]

theorem expired_claims_keep_accounts_redelivered :
    ∃ s, Exec.exec (step {}) unseatedClaims redelivered = some s ∧ s.world.redis.claims 1 = none ∧
      s.world.redis.stream = [] ∧ ¬Occurs (step {}) LosesReservation unseatedClaims redelivered := by
  obtain ⟨s, hs, hp⟩ := exec_any (step {}) unseatedClaims redelivered
    (fun s => s.world.redis.claims 1 = none ∧ s.world.redis.stream = []) (by decide +kernel)
  rw [decide_eq_true_eq] at hp
  exact ⟨s, hs, hp.1, hp.2,
    (expired_claims_keep_accounts unseatedClaims_start (.of_check (by decide +kernel)) hs).1⟩

end ClaimWorld

end Ticketing
