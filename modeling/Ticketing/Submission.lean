import Ticketing.Steps

/-!
# Submitting an order

`submit_order` from its checks of the event to its answer: the prices of `pricing.py`, the counter script of
an event without a seat map, and the read-compute-claim loop of `reserve_seats_and_enqueue` with its five
passes and its switch of policy.  The requests of the pipeline (`stepIntake`) forget what a request answers;
here the answer is the point.  Every step of a submission is one of the pipeline (`submit_step_intake`).

A submission runs among others.  Between two of its steps Redis may become anything, and the record `steps`
keeps, for each step of its own, Redis before and after.  The result is `submit_all_or_nothing`: a request
that raises or is a duplicate has moved nothing but the miss counter and the policy flag of its zone, and one
that is accepted has appended one intent and moved stock, quota and seats by its quantity, at the price of the
meta it read.
-/

namespace Ticketing

open Exec

/-! ### Events and prices -/

inductive EventStatus where
  | draft
  | published
  | cancelled
deriving DecidableEq

/-- The cached meta of an event, as far as an order reads it.  `zonePrices` has a price for every zone that
may be sold. -/
structure EventMeta where
  event : EventId
  status : EventStatus
  saleStartsAt : Time
  saleEndsAt : Time
  priceCents : Option Int
  venue : Option Nat := none
  zonePrices : Hash ZoneId Int := ∅

inductive ZoneReason where
  /-- "event has no seat map" -/
  | noSeatMap
  /-- "unknown zone or unpriced" -/
  | unknownOrUnpriced
deriving DecidableEq

/-- What `submit_order` raises. -/
inductive SubmitError where
  | eventNotFound (event : EventId)
  | eventCancelled (event : EventId)
  | eventNotOnSale (event : EventId)
  | zoneRequired (event : EventId)
  | zoneNotForEvent (event : EventId) (zone : ZoneId) (reason : ZoneReason)
  | insufficientInventory (event : EventId) (requested available : Int)
  | purchaseLimitExceeded (event : EventId) (user : UserId) (requested already limit : Int)
  | noSeatsAvailable (event : EventId) (zone : ZoneId) (quantity : Int) (feasible : List Nat)
  | seatContention (event : EventId) (zone : ZoneId) (attempts : Nat)
  | seatPlacementOutOfRun (event : EventId) (zone : ZoneId) (block : BlockId) (start length : Int)
  /-- A quantity below one, or a geometry that cannot be built. -/
  | valueError
  /-- An event with neither a price nor a seat map. -/
  | runtimeError (event : EventId)
  /-- A run whose block has no geometry. -/
  | keyError
  /-- No host run for the placement. -/
  | stopIteration
deriving DecidableEq

/-- The subclasses of `DomainError`. -/
def SubmitError.isDomain : SubmitError → Bool
  | valueError | runtimeError _ | keyError | stopIteration => false
  | _ => true

/-- `unit_price` of an event's meta. -/
def EventMeta.unitPrice (m : EventMeta) (zone : Option ZoneId) : Except SubmitError Int :=
  match m.venue with
  | none =>
    match zone with
    | some zone => .error (.zoneNotForEvent m.event zone .noSeatMap)
    | none => m.priceCents.elim (.error (.runtimeError m.event)) .ok
  | some _ =>
    match zone with
    | none => .error (.zoneRequired m.event)
    | some zone => (m.zonePrices.lookup zone).elim (.error (.zoneNotForEvent m.event zone .unknownOrUnpriced)) .ok

/-- `total_for`. -/
def EventMeta.totalFor (m : EventMeta) (zone : Option ZoneId) (quantity : Int) : Except SubmitError Int :=
  if quantity < 1 then .error .valueError else (m.unitPrice zone).map (quantity * ·)

/-! ### One request -/

/-- The settings that the request path reads. -/
structure OrderSettings extends Settings where
  maxTicketsPerOrder : Nat := 10

/-- `max_purchasable`. -/
def OrderSettings.maxPurchasable (cfg : OrderSettings) : Nat :=
  min cfg.maxTicketsPerOrder cfg.maxTicketsPerUserPerEvent

/-- The arguments of `submit_order`. -/
structure OrderRequest where
  user : UserId
  event : EventId
  quantity : Int
  key : Key
  zone : Option ZoneId := none
deriving DecidableEq

/-- An accepted request: the answers `OK`, with the id of the stream entry, and `DUP`. -/
inductive Outcome where
  | ok (id : StreamId)
  | dup
deriving DecidableEq

/-- The point a running `submit_order` has reached. -/
inductive SubmitPhase where
  | begun
  /-- About to run the counter script. -/
  | reserving (total : Int)
  /-- About to read the policy flag of the zone. -/
  | flagging (zone : ZoneId) (total : Int)
  /-- In the loop of `reserve_seats_and_enqueue`. -/
  | seating (call : SeatCall)
  /-- The claim was accepted, the miss counter not yet deleted. -/
  | won (call : SeatCall) (id : StreamId)
  | done (result : Except SubmitError Outcome)

/-- The answer of a finished submission. -/
def SubmitPhase.result : SubmitPhase → Option (Except SubmitError Outcome)
  | .done result => some result
  | _ => none

theorem SubmitPhase.result_eq_some {phase : SubmitPhase} {result : Except SubmitError Outcome} :
    phase.result = some result ↔ phase = .done result := by
  cases phase <;> simp [SubmitPhase.result]

inductive SubmitAct where
  /-- `get_event_meta` answers, and the event, the sale window and the price are checked. -/
  | validate (answer : Option EventMeta) (now : Time)
  | reserve
  | readRelaxed
  | read
  /-- The request picks the `i`-th of its best anchors and runs the claim script. -/
  | claim (i : Nat)
  | miss
  | relax
  | forget

/-- The next pass of the loop, or `SeatContention` after the last. -/
def SeatCall.again (call : SeatCall) : SubmitPhase :=
  match call.nextAttempt with
  | some call => .seating call
  | none => .done (.error (.seatContention call.event call.zone maxCasAttempts))

/-- What the reply of the claim script leads to. -/
def SeatCall.answer (call : SeatCall) (pick : Placement) : ClaimReply → SubmitPhase
  | .dup => .done (.ok .dup)
  | .overLimit held limit =>
    .done (.error (.purchaseLimitExceeded call.event call.user call.quantity held limit))
  | .retry => call.again
  | .bounds => .done (.error (.seatPlacementOutOfRun call.event call.zone pick.blockId pick.start pick.length))
  | .ok id _ => .won call id

/-- `NoSeatsAvailable` with the quantities of `_feasible`. -/
def SeatCall.noSeats (cfg : OrderSettings) (call : SeatCall) (state : ZoneState) : SubmitPhase :=
  match feasibleQuantities state.runs state.geometry cfg.maxPurchasable call.policy with
  | none => .done (.error .keyError)
  | some feasible => .done (.error (.noSeatsAvailable call.event call.zone call.quantity feasible))

theorem SeatCall.noSeats_eq (cfg : OrderSettings) (call : SeatCall) (state : ZoneState) :
    ∃ e, call.noSeats cfg state = .done (.error e) := by
  unfold SeatCall.noSeats
  split
  · exact ⟨_, rfl⟩
  · exact ⟨_, rfl⟩

/-- One pass of the loop from its snapshot on: the anchors, the pick, its host run and the claim script. -/
def SeatCall.claim (cfg : OrderSettings) (call : SeatCall) (r : Redis) (state : ZoneState) (i : Nat) :
    Option (Redis × SubmitPhase) :=
  match legalAnchors state.runs call.quantity state.geometry call.policy with
  | none => some (r, .done (.error .keyError))
  | some anchors =>
    (anchors.take topK)[i]?.bind fun pick =>
      match state.runs.find? fun run => pick.insideOf run with
      | none => some (r, .done (.error .stopIteration))
      | some host =>
        let out := claimSeats r (call.claimArgs host pick cfg.maxTicketsPerUserPerEvent)
        some (out.2, call.answer pick out.1)

/-- A pass that picks an anchor finds its host run in the snapshot and runs the claim script on it. -/
theorem SeatCall.claim_of_anchor (cfg : OrderSettings) (call : SeatCall) (r : Redis) {state : ZoneState}
    {anchors : List Placement} {pick : Placement} {i : Nat}
    (hanchors : legalAnchors state.runs call.quantity state.geometry call.policy = some anchors)
    (hpick : (anchors.take topK)[i]? = some pick) :
    ∃ host ∈ state.runs, pick.insideOf host ∧
      call.claim cfg r state i =
        some ((claimSeats r (call.claimArgs host pick cfg.maxTicketsPerUserPerEvent)).2,
          call.answer pick (claimSeats r (call.claimArgs host pick cfg.maxTicketsPerUserPerEvent)).1) := by
  obtain ⟨host, hhost, hmem, hin⟩ := find_host hanchors (List.mem_of_mem_take (List.mem_of_getElem? hpick))
  refine ⟨host, hmem, hin, ?_⟩
  simp only [SeatCall.claim, hanchors, hpick, Option.bind_some, hhost]

theorem ZoneKeys.runs_of_parseState {z : ZoneKeys} {state : ZoneState} (h : z.parseState = some state) :
    state.runs = z.parseRuns := by
  unfold ZoneKeys.parseState at h
  split at h
  · rw [← Option.some.inj h]
  · cases h

/-- A pick inside its host run passes the check of the bounds. -/
theorem Placement.insideOf.not_bounds {pick : Placement} {host : Run} (hin : pick.insideOf host) :
    ¬(pick.start < host.start ∨ host.start + host.length < pick.start + pick.length) := by
  obtain ⟨-, hlo, hhi⟩ := hin
  simp only [Placement.stop, Span.stop] at hhi
  omega

/-- The claim script accepts a pick inside a run that is still there, under a new key and within the quota. -/
theorem claimSeats_of_inside {r : Redis} {call : SeatCall} {host : Run} {pick : Placement} {limit : Int}
    (hhost : host ∈ (r.zones (call.event, call.zone)).parseRuns) (hin : pick.insideOf host)
    (hfresh : r.claims call.key = none) (hquota : r.held call.event call.user + pick.length ≤ limit) :
    claimSeats r (call.claimArgs host pick limit) =
      (.ok (r.lastId + 1) ((r.zones (call.event, call.zone)).available.getD 0 - pick.length),
        r.claim (call.claimArgs host pick limit)) := by
  have hlookup : (r.zones (call.event, call.zone)).runs.lookup ⟨pick.blockId, host.start⟩ = some host.length := by
    rw [← hin.1]
    exact ZoneKeys.mem_parseRuns.1 hhost
  unfold claimSeats SeatCall.claimArgs
  simp only [hfresh, Option.isSome_none, Bool.false_eq_true, if_false, not_lt.2 hquota, hlookup, ne_eq,
    not_true_eq_false, hin.not_bounds]

/-- No anchor: sold out, not feasible, or a strict miss. -/
def SeatCall.miss (cfg : OrderSettings) (call : SeatCall) (r : Redis) (state : ZoneState) :
    Option (Redis × SubmitPhase) :=
  if legalAnchors state.runs call.quantity state.geometry call.policy = some [] then
    if state.remaining < call.quantity then
      some (r, .done (.error (.insufficientInventory call.event call.quantity state.remaining)))
    else if call.relaxed then some (r, call.noSeats cfg state)
    else
      let z := r.zones (call.event, call.zone)
      let misses := z.strictMisses.getD 0 + 1
      let r := r.setZone call.event call.zone { z with strictMisses := some misses }
      if misses < strictMissThreshold then some (r, call.noSeats cfg state)
      else some (r, .seating { call with phase := .stuck })
  else none

/-- `DEL` of the miss counter. -/
def SeatCall.forgetMisses (call : SeatCall) (r : Redis) : Redis :=
  r.setZone call.event call.zone { r.zones (call.event, call.zone) with strictMisses := none }

namespace OrderRequest

/-- The checks of `submit_order` before it writes: the event, its sale window and the price. -/
def validate (req : OrderRequest) (answer : Option EventMeta) (now : Time) : Except SubmitError (EventMeta × Int) :=
  match answer with
  | none => .error (.eventNotFound req.event)
  | some m =>
    if m.status = .cancelled then .error (.eventCancelled req.event)
    else if m.status ≠ .published then .error (.eventNotOnSale req.event)
    else if ¬(m.saleStartsAt ≤ now ∧ now ≤ m.saleEndsAt) then .error (.eventNotOnSale req.event)
    else (m.totalFor req.zone req.quantity).map fun total => (m, total)

/-- The path a request takes after its checks. -/
def path (req : OrderRequest) (m : EventMeta) (total : Int) : SubmitPhase :=
  match m.venue with
  | none => .reserving total
  | some _ =>
    match req.zone with
    | none => .done (.error (.zoneRequired req.event))
    | some zone => .flagging zone total

/-- The call of `reserve_and_enqueue`. -/
def reserveArgs (req : OrderRequest) (cfg : OrderSettings) (total : Int) : ReserveArgs where
  event := req.event
  user := req.user
  quantity := req.quantity
  totalPriceCents := total
  key := req.key
  zone := req.zone
  limit := cfg.maxTicketsPerUserPerEvent

/-- The intent of a request at this price, with its seats. -/
def intent (req : OrderRequest) (total : Int) (seat : Option SeatField) : Intent where
  user := req.user
  event := req.event
  quantity := req.quantity
  totalPriceCents := total
  key := req.key
  zone := req.zone
  seat := seat

/-- What the reply of the counter script is turned into. -/
def reserveResult (req : OrderRequest) : ReserveReply → Except SubmitError Outcome
  | .dup => .ok .dup
  | .soldOut remaining => .error (.insufficientInventory req.event req.quantity remaining)
  | .overLimit already limit => .error (.purchaseLimitExceeded req.event req.user req.quantity already limit)
  | .ok id _ => .ok (.ok id)

/-- The call of `reserve_seats_and_enqueue`, once it has read the policy flag. -/
def seatCall (req : OrderRequest) (r : Redis) (zone : ZoneId) (total : Int) : SeatCall where
  event := req.event
  zone := zone
  user := req.user
  quantity := req.quantity
  totalPriceCents := total
  key := req.key
  relaxed := (r.zones (req.event, zone)).relaxed

/-- One step of `submit_order`; `none` is a step its code does not take at this point. -/
def step (cfg : OrderSettings) (req : OrderRequest) (r : Redis) (phase : SubmitPhase) :
    SubmitAct → Option (Redis × SubmitPhase)
  | .validate answer now =>
    match phase with
    | .begun =>
      match req.validate answer now with
      | .error e => some (r, .done (.error e))
      | .ok (m, total) => some (r, req.path m total)
    | _ => none
  | .reserve =>
    match phase with
    | .reserving total =>
      let out := reserveAndEnqueue r (req.reserveArgs cfg total)
      some (out.2, .done (req.reserveResult out.1))
    | _ => none
  | .readRelaxed =>
    match phase with
    | .flagging zone total => some (r, .seating (req.seatCall r zone total))
    | _ => none
  | .read =>
    match phase with
    | .seating call =>
      match call.phase with
      | .ready =>
        match (r.zones (call.event, call.zone)).parseState with
        | none => some (r, .done (.error .valueError))
        | some state => some (r, .seating { call with phase := .snapshot state })
      | _ => none
    | _ => none
  | .claim i =>
    match phase with
    | .seating call =>
      match call.phase with
      | .snapshot state => call.claim cfg r state i
      | _ => none
    | _ => none
  | .miss =>
    match phase with
    | .seating call =>
      match call.phase with
      | .snapshot state => call.miss cfg r state
      | _ => none
    | _ => none
  | .relax =>
    match phase with
    | .seating call =>
      match call.phase with
      | .stuck =>
        let z := r.zones (call.event, call.zone)
        some (r.setZone call.event call.zone { z with relaxed := true }, .seating { call with phase := .relaxing })
      | _ => none
    | _ => none
  | .forget =>
    match phase with
    | .seating call =>
      match call.phase with
      | .relaxing => some (call.forgetMisses r, ({ call with relaxed := true } : SeatCall).again)
      | _ => none
    | .won call id => some (call.forgetMisses r, .done (.ok (.ok id)))
    | _ => none

/-- The steps of a submission. -/
inductive Move (cfg : OrderSettings) (req : OrderRequest) (r : Redis) (phase : SubmitPhase) : SubmitAct →
    Redis → SubmitPhase → Prop
  | invalid {answer : Option EventMeta} {now : Time} {e : SubmitError} (hphase : phase = .begun)
      (he : req.validate answer now = .error e) :
      Move cfg req r phase (.validate answer now) r (.done (.error e))
  | validate {answer : Option EventMeta} {now : Time} {m : EventMeta} {total : Int} (hphase : phase = .begun)
      (hm : req.validate answer now = .ok (m, total)) : Move cfg req r phase (.validate answer now) r
      (req.path m total)
  | reserve {total : Int} (hphase : phase = .reserving total) :
      Move cfg req r phase .reserve (reserveAndEnqueue r (req.reserveArgs cfg total)).2
        (.done (req.reserveResult (reserveAndEnqueue r (req.reserveArgs cfg total)).1))
  | readRelaxed {zone : ZoneId} {total : Int} (hphase : phase = .flagging zone total) :
      Move cfg req r phase .readRelaxed r (.seating (req.seatCall r zone total))
  | unreadable {call : SeatCall} (hphase : phase = .seating call) (hcall : call.phase = .ready)
      (hstate : (r.zones (call.event, call.zone)).parseState = none) : Move cfg req r phase .read r
      (.done (.error .valueError))
  | read {call : SeatCall} {state : ZoneState} (hphase : phase = .seating call) (hcall : call.phase = .ready)
      (hstate : (r.zones (call.event, call.zone)).parseState = some state) :
      Move cfg req r phase .read r (.seating { call with phase := .snapshot state })
  | claim {call : SeatCall} {state : ZoneState} {i : Nat} {r' : Redis} {phase' : SubmitPhase}
      (hphase : phase = .seating call)
      (hcall : call.phase = .snapshot state) (hclaim : call.claim cfg r state i = some (r', phase')) :
      Move cfg req r phase (.claim i) r' phase'
  | miss {call : SeatCall} {state : ZoneState} {r' : Redis} {phase' : SubmitPhase} (hphase : phase = .seating call)
      (hcall : call.phase = .snapshot state) (hmiss : call.miss cfg r state = some (r', phase')) :
      Move cfg req r phase .miss r' phase'
  | relax {call : SeatCall} (hphase : phase = .seating call) (hcall : call.phase = .stuck) :
      Move cfg req r phase .relax
        (r.setZone call.event call.zone { r.zones (call.event, call.zone) with relaxed := true })
        (.seating { call with phase := .relaxing })
  | forget {call : SeatCall} (hphase : phase = .seating call) (hcall : call.phase = .relaxing) :
      Move cfg req r phase .forget (call.forgetMisses r) ({ call with relaxed := true } : SeatCall).again
  | finish {call : SeatCall} {id : StreamId} (hphase : phase = .won call id) :
      Move cfg req r phase .forget (call.forgetMisses r) (.done (.ok (.ok id)))

theorem step_move {cfg : OrderSettings} {req : OrderRequest} {r r' : Redis} {phase phase' : SubmitPhase}
    {a : SubmitAct} (h : req.step cfg r phase a = some (r', phase')) : Move cfg req r phase a r' phase' := by
  cases a with
  | validate answer now =>
    simp only [step] at h
    split at h
    · split at h
      · rename_i e he
        cases h
        exact .invalid rfl he
      · rename_i m total hm
        cases h
        exact .validate rfl hm
    · cases h
  | reserve =>
    simp only [step] at h
    split at h
    · cases h
      exact .reserve rfl
    · cases h
  | readRelaxed =>
    simp only [step] at h
    split at h
    · cases h
      exact .readRelaxed rfl
    · cases h
  | read =>
    simp only [step] at h
    split at h
    · split at h
      · rename_i hcall
        split at h
        · rename_i hstate
          cases h
          exact .unreadable rfl hcall hstate
        · rename_i state hstate
          cases h
          exact .read rfl hcall hstate
      · cases h
    · cases h
  | claim i =>
    simp only [step] at h
    split at h
    · split at h
      · rename_i hcall
        exact .claim rfl hcall h
      · cases h
    · cases h
  | miss =>
    simp only [step] at h
    split at h
    · split at h
      · rename_i hcall
        exact .miss rfl hcall h
      · cases h
    · cases h
  | relax =>
    simp only [step] at h
    split at h
    · split at h
      · rename_i hcall
        cases h
        exact .relax rfl hcall
      · cases h
    · cases h
  | forget =>
    simp only [step] at h
    split at h
    · split at h
      · rename_i hcall
        cases h
        exact .forget rfl hcall
      · cases h
    · cases h
      exact .finish rfl
    · cases h

end OrderRequest

/-! ### Submissions as requests of the pipeline -/

/-- The call of a submission in the table of the pipeline. -/
def SubmitPhase.call : SubmitPhase → Option SeatCall
  | .seating call => some call
  | .won call _ => some { call with phase := .won }
  | _ => none

private theorem SeatCall.call_again (call : SeatCall) : call.again.call = call.nextAttempt := by
  unfold SeatCall.again
  cases call.nextAttempt <;> rfl

section Intake

variable {cfg : OrderSettings} {req : OrderRequest} {w : World} {c : Nat} {phase phase' : SubmitPhase} {r' : Redis}

/-- The step is a request step of the pipeline, in slot `c`. -/
private def IsIntake (cfg : OrderSettings) (w : World) (c : Nat) (r' : Redis) (phase' : SubmitPhase) : Prop :=
  ∃ act w', stepIntake cfg.toSettings w act = some w' ∧ w'.redis = r' ∧ w'.calls c = phase'.call

private theorem isIntake_setCall (act : IntakeAct) (call : Option SeatCall) (redis : Redis)
    (h : stepIntake cfg.toSettings w act = some { w.setCall c call with redis }) (hr : redis = r')
    (hcall : call = phase'.call) : IsIntake cfg w c r' phase' :=
  ⟨act, _, h, hr, by rw [← hcall]; exact Function.update_self ..⟩

private theorem intake_claim {call : SeatCall} {state : ZoneState} {i : Nat} (hcall : w.calls c = some call)
    (hphase : call.phase = .snapshot state) (h : call.claim cfg w.redis state i = some (r', phase')) :
    IsIntake cfg w c r' phase' := by
  have hstep : stepIntake cfg.toSettings w (.claim c i) = w.claim cfg.toSettings c call state i := by
    simp only [stepIntake, hcall, Option.bind_some, hphase]
  unfold SeatCall.claim at h
  unfold World.claim at hstep
  split at h
  · rename_i hnone
    cases h
    refine isIntake_setCall (.claim c i) none w.redis ?_ rfl rfl
    rw [hstep, hnone]
    rfl
  · rename_i anchors hanchors
    obtain ⟨pick, hpick, h⟩ := Option.bind_eq_some_iff.1 h
    simp only [hanchors, hpick, Option.bind_some] at hstep
    split at h
    · rename_i hnone
      cases h
      refine isIntake_setCall (.claim c i) none w.redis ?_ rfl rfl
      rw [hstep, hnone]
      rfl
    · rename_i host hhost
      cases h
      rw [hhost] at hstep
      simp only at hstep
      cases hreply : (claimSeats w.redis (call.claimArgs host pick cfg.maxTicketsPerUserPerEvent)).1 with
      | ok id rem =>
        rw [hreply] at hstep
        exact ⟨_, _, hstep, rfl, Function.update_self ..⟩
      | retry =>
        rw [hreply] at hstep
        refine isIntake_setCall (.claim c i) call.nextAttempt _ hstep rfl ?_
        exact call.call_again.symm
      | _ =>
        rw [hreply] at hstep
        exact isIntake_setCall (.claim c i) none _ hstep rfl rfl

private theorem intake_miss {call : SeatCall} {state : ZoneState} (hcall : w.calls c = some call)
    (hphase : call.phase = .snapshot state) (h : call.miss cfg w.redis state = some (r', phase')) :
    IsIntake cfg w c r' phase' := by
  have hstep : stepIntake cfg.toSettings w (.miss c) = w.miss c call state := by
    simp only [stepIntake, hcall, Option.bind_some, hphase]
  unfold SeatCall.miss at h
  unfold World.miss at hstep
  split at h
  · rename_i hanchors
    rw [if_pos hanchors] at hstep
    split at h
    · rename_i hlt
      rw [if_pos (.inl hlt)] at hstep
      cases h
      exact isIntake_setCall (.miss c) none w.redis hstep rfl rfl
    · rename_i hlt
      split at h
      · rename_i hrelaxed
        rw [if_pos (.inr hrelaxed)] at hstep
        cases h
        obtain ⟨e, he⟩ := call.noSeats_eq cfg state
        exact isIntake_setCall (.miss c) none w.redis hstep rfl (by rw [he]; rfl)
      · rename_i hrelaxed
        rw [if_neg (not_or.2 ⟨hlt, hrelaxed⟩)] at hstep
        simp only at h hstep
        split at h
        · rename_i hfew
          rw [if_pos hfew] at hstep
          cases h
          obtain ⟨e, he⟩ := call.noSeats_eq cfg state
          exact isIntake_setCall (.miss c) none _ hstep rfl (by rw [he]; rfl)
        · rename_i hmany
          rw [if_neg hmany] at hstep
          cases h
          exact isIntake_setCall (.miss c) _ _ hstep rfl rfl
  · cases h

/-- A step of a submission is its checks, which move nothing, or a request step of the pipeline with the same
effect on Redis and on the loop of the call.  The database agrees with the meta on whether the event has a
seat map. -/
theorem submit_step_intake {a : SubmitAct} (hcall : w.calls c = phase.call)
    (hunseated : ∀ total, phase = .reserving total →
      (w.db.events req.event).any (fun e => !e.seated) = true ∧ 1 ≤ req.quantity)
    (hseated : ∀ zone total, phase = .flagging zone total →
      (w.db.events req.event).any (fun e => e.seated) = true ∧ 1 ≤ req.quantity)
    (h : req.step cfg w.redis phase a = some (r', phase')) :
    (r' = w.redis ∧ phase = .begun ∧ phase'.call = none) ∨ IsIntake cfg w c r' phase' := by
  cases OrderRequest.step_move h with
  | invalid hphase he => exact .inl ⟨rfl, hphase, rfl⟩
  | validate hphase hm =>
    refine .inl ⟨rfl, hphase, ?_⟩
    unfold OrderRequest.path
    (repeat' split) <;> rfl
  | @reserve total hphase =>
    subst hphase
    obtain ⟨hdb, hpos⟩ := hunseated total rfl
    have hstep : stepIntake cfg.toSettings w (.reserve (req.reserveArgs cfg total)) = _ := if_pos ⟨hdb, hpos, rfl⟩
    right
    cases hreply : (reserveAndEnqueue w.redis (req.reserveArgs cfg total)).1 with
    | _ =>
      rw [hreply] at hstep
      exact ⟨_, _, hstep, rfl, hcall⟩
  | @readRelaxed zone total hphase =>
    subst hphase
    obtain ⟨hdb, hpos⟩ := hseated zone total rfl
    right
    refine ⟨.call c req.event zone req.user req.quantity total req.key, _, if_pos ⟨?_, hdb, hpos⟩, rfl,
      Function.update_self ..⟩
    rw [hcall]
    rfl
  | unreadable hphase hready hparse =>
    subst hphase
    refine .inr (isIntake_setCall (.read c) none w.redis ?_ rfl rfl)
    simp only [stepIntake, hcall, SubmitPhase.call, Option.bind_some, hready, hparse]
    rfl
  | @read call state hphase hready hparse =>
    subst hphase
    refine .inr (isIntake_setCall (.read c) (some { call with phase := .snapshot state }) w.redis ?_ rfl rfl)
    simp only [stepIntake, hcall, SubmitPhase.call, Option.bind_some, hready, hparse]
    rfl
  | claim hphase hsnapshot hclaim =>
    subst hphase
    exact .inr (intake_claim hcall hsnapshot hclaim)
  | miss hphase hsnapshot hmiss =>
    subst hphase
    exact .inr (intake_miss hcall hsnapshot hmiss)
  | relax hphase hstuck =>
    subst hphase
    refine .inr (isIntake_setCall (.relax c) _ _ ?_ rfl rfl)
    simp only [stepIntake, hcall, SubmitPhase.call, Option.bind_some, hstuck]
  | @forget call hphase hrelaxing =>
    subst hphase
    refine .inr (isIntake_setCall (.forget c) ({ call with relaxed := true } : SeatCall).nextAttempt _ ?_ rfl
      (SeatCall.call_again _).symm)
    simp only [stepIntake, hcall, SubmitPhase.call, Option.bind_some, World.forget, hrelaxing]
    rfl
  | finish hphase =>
    subst hphase
    refine .inr (isIntake_setCall (.forget c) none _ ?_ rfl rfl)
    simp only [stepIntake, hcall, SubmitPhase.call, Option.bind_some, World.forget]
    rfl

end Intake

/-! ### A request among others -/

/-- The meta with which a request passes its checks. -/
def SubmitAct.checked (req : OrderRequest) : SubmitAct → Option EventMeta
  | .validate answer now =>
    match req.validate answer now with
    | .error _ => none
    | .ok (m, _) => some m
  | _ => none

inductive Turn where
  | own (a : SubmitAct)
  /-- Others have run their scripts and left Redis so. -/
  | other (r : Redis)

/-- A running `submit_order`.  `checked` is the meta it passed its checks with; `steps` records Redis before
and after each of its own steps and is not read. -/
structure Submitting where
  redis : Redis
  phase : SubmitPhase := .begun
  checked : Option EventMeta := none
  steps : List (Redis × Redis) := []

/-- A submission moves by a step of its own or while others move. -/
def Submitting.step (cfg : OrderSettings) (req : OrderRequest) (s : Submitting) : Turn → Option Submitting
  | .own a =>
    (req.step cfg s.redis s.phase a).map fun out =>
      { redis := out.1
        phase := out.2
        checked := (a.checked req).or s.checked
        steps := s.steps ++ [(s.redis, out.1)] }
  | .other r => some { s with redis := r }

theorem Submitting.step_own {cfg : OrderSettings} {req : OrderRequest} {s : Submitting} {a : SubmitAct} {r' : Redis}
    {phase : SubmitPhase} (h : req.step cfg s.redis s.phase a = some (r', phase)) :
    s.step cfg req (.own a) =
      some ⟨r', phase, (a.checked req).or s.checked, s.steps ++ [(s.redis, r')]⟩ := by
  rw [Submitting.step, h]
  rfl

/-- Nothing but miss counters and policy flags has changed. -/
def Redis.Untouched (r r' : Redis) : Prop :=
  ∃ zones, (∀ k, (r.zones k).SameSeats (zones k)) ∧ r' = { r with zones }

theorem Redis.Untouched.refl (r : Redis) : r.Untouched r := ⟨r.zones, fun k => .refl (r.zones k), rfl⟩

theorem Redis.untouched_setZone {r : Redis} {event : EventId} {zone : ZoneId} {z : ZoneKeys}
    (h : (r.zones (event, zone)).SameSeats z) : r.Untouched (r.setZone event zone z) := by
  refine ⟨_, fun k => ?_, rfl⟩
  by_cases hk : k = (event, zone)
  · subst hk
    rwa [Function.update_self]
  · rw [Function.update_of_ne hk]
    exact .refl _

/-- A pass without an anchor raises, or goes on after it has counted a strict miss. -/
theorem SeatCall.miss_cases {cfg : OrderSettings} {call : SeatCall} {r r' : Redis} {state : ZoneState}
    {phase : SubmitPhase} (h : call.miss cfg r state = some (r', phase)) :
    legalAnchors state.runs call.quantity state.geometry call.policy = some [] ∧
      ((∃ e, phase = .done (.error e)) ∧ r.Untouched r' ∨
        phase = .seating { call with phase := .stuck } ∧ r' = r.setZone call.event call.zone
          { r.zones (call.event, call.zone) with
            strictMisses := some ((r.zones (call.event, call.zone)).strictMisses.getD 0 + 1) }) := by
  unfold SeatCall.miss at h
  split at h
  · rename_i hempty
    refine ⟨hempty, ?_⟩
    split at h
    · cases h
      exact .inl ⟨⟨_, rfl⟩, .refl r⟩
    · split at h
      · cases h
        exact .inl ⟨call.noSeats_eq cfg state, .refl r⟩
      · simp only at h
        split at h
        · cases h
          exact .inl ⟨call.noSeats_eq cfg state, Redis.untouched_setZone ⟨rfl, rfl, rfl, rfl⟩⟩
        · cases h
          exact .inr ⟨rfl, rfl⟩
  · cases h

/-- The one interval that a seated request takes: `quantity` seats of `seat.block` from `seat.startPos` on,
cut out of one free run of the zone. -/
structure SeatsCut (req : OrderRequest) (zone : ZoneId) (seat : SeatField) (r r' : Redis) : Prop where
  cut : ∃ runStart runLength,
    CutOk (r.zones (req.event, zone)) seat.block runStart runLength seat.startPos req.quantity ∧
      r'.zones = Function.update r.zones (req.event, zone)
      (((r.zones (req.event, zone)).cut seat.block runStart runLength
        seat.startPos req.quantity).addAvailable (-req.quantity))
  free : ZoneInv (r.zones (req.event, zone)) → ∀ b p,
    Free (r'.zones (req.event, zone)).parseRuns b p ↔
      Free (r.zones (req.event, zone)).parseRuns b p ∧ ¬(⟨seat.block, seat.startPos, req.quantity⟩ : Run).Covers b p

/-- The seats of an accepted request: none for an event without a seat map, one interval of the zone otherwise. -/
def SeatsTaken (m : EventMeta) (req : OrderRequest) (seat : Option SeatField) (r r' : Redis) : Prop :=
  (m.venue = none ∧ seat = none ∧ r'.zones = r.zones) ∨
    m.venue ≠ none ∧ ∃ zone taken, req.zone = some zone ∧ seat = some taken ∧ SeatsCut req zone taken r r'

/-- The step of an accepted request: the claim is new, one intent is appended, and stock, quota and seats move by its
quantity. -/
structure Accepted (m : EventMeta) (req : OrderRequest) (id : StreamId) (r r' : Redis) : Prop where
  fresh : r.claims req.key = none
  claims : r'.claims = Function.update r.claims req.key (some .pending)
  available : r'.available =
    Function.update r.available req.event (some ((r.available req.event).getD 0 - req.quantity))
  quota : r'.held req.event req.user = r.held req.event req.user + req.quantity
  others : ∀ event user, (event, user) ≠ (req.event, req.user) → r'.held event user = r.held event user
  intent : ∃ price seat, m.unitPrice req.zone = .ok price ∧ SeatsTaken m req seat r r' ∧
    r'.stream = r.stream ++ [⟨id, req.intent (req.quantity * price) seat, 0⟩]

/-- Exactly one of the steps is that of an accepted request. -/
def AcceptedOnce (m : EventMeta) (req : OrderRequest) (id : StreamId) (steps : List (Redis × Redis)) : Prop :=
  ∃ before r r' after, steps = before ++ (r, r') :: after ∧ Accepted m req id r r' ∧
    (∀ x ∈ before, x.1.Untouched x.2) ∧ ∀ x ∈ after, x.1.Untouched x.2

/-! ### What a step does -/

/-- The price a request is charged: `quantity` times the unit price. -/
def Priced (m : EventMeta) (req : OrderRequest) (total : Int) : Prop :=
  1 ≤ req.quantity ∧ ∃ price, m.unitPrice req.zone = .ok price ∧ total = req.quantity * price

theorem priced_of_validate {req : OrderRequest} {answer : Option EventMeta} {now : Time} {m : EventMeta} {total : Int}
    (h : req.validate answer now = .ok (m, total)) : Priced m req total := by
  unfold OrderRequest.validate at h
  split at h
  · cases h
  · rename_i m'
    (repeat' split at h) <;> try cases h
    unfold EventMeta.totalFor at h
    split at h
    · cases h
    · rename_i hq
      cases hprice : m'.unitPrice req.zone with
      | error e =>
        rw [hprice] at h
        cases h
      | ok price =>
        rw [hprice] at h
        obtain ⟨rfl, rfl⟩ := Prod.mk.inj (Except.ok.inj h)
        exact ⟨by omega, price, hprice, rfl⟩

/-- The counter script: it accepts the request or changes nothing. -/
theorem reserve_spec {req : OrderRequest} {m : EventMeta} {total : Int} (cfg : OrderSettings) (r : Redis)
    (hm : m.venue = none) (hpriced : Priced m req total) :
    (∃ id rem, (reserveAndEnqueue r (req.reserveArgs cfg total)).1 = .ok id rem ∧
      Accepted m req id r (reserveAndEnqueue r (req.reserveArgs cfg total)).2) ∨
    (reserveAndEnqueue r (req.reserveArgs cfg total)).2 = r ∧
      ∀ id rem, (reserveAndEnqueue r (req.reserveArgs cfg total)).1 ≠ .ok id rem := by
  rcases reserveAndEnqueue_cases r (req.reserveArgs cfg total) with ⟨id, rem, heq, hfresh, ⟨avail, hav, -⟩, -⟩ | hsame
  · have hid : id = r.lastId + 1 := by
      unfold reserveAndEnqueue at heq
      rw [hfresh, hav] at heq
      simp only [Option.isSome_none, Bool.false_eq_true, if_false] at heq
      (repeat' split at heq) <;> cases heq
      rfl
    obtain ⟨-, price, hprice, rfl⟩ := hpriced
    rw [heq]
    refine .inl ⟨id, rem, rfl, hfresh, rfl, rfl, ?_, ?_, price, none, hprice, .inl ⟨hm, rfl, rfl⟩, ?_⟩
    · exact (held_chargeQuota (r.addAvailable req.event (-req.quantity)) req.event req.event req.user req.user
        req.quantity).trans (if_pos ⟨rfl, rfl⟩)
    · intro event user hne
      exact (held_chargeQuota (r.addAvailable req.event (-req.quantity)) req.event event req.user user
        req.quantity).trans (if_neg fun h => hne (Prod.ext h.1 h.2))
    · rw [hid]
      rfl
  · exact .inr hsame

/-- A call of the loop belongs to the request. -/
structure CallOf (m : EventMeta) (req : OrderRequest) (call : SeatCall) : Prop where
  venue : m.venue ≠ none
  zone : req.zone = some call.zone
  event : call.event = req.event
  user : call.user = req.user
  quantity : call.quantity = req.quantity
  key : call.key = req.key
  priced : Priced m req call.totalPriceCents

/-- The claim script for a pick of this quantity: it accepts the request or changes nothing. -/
theorem claim_spec {req : OrderRequest} {m : EventMeta} {call : SeatCall} {pick : Placement} (cfg : OrderSettings)
    (r : Redis) (host : Run) (hc : CallOf m req call) (hlen : pick.length = call.quantity) :
    (∃ id rem, (claimSeats r (call.claimArgs host pick cfg.maxTicketsPerUserPerEvent)).1 = .ok id rem ∧
      Accepted m req id r (claimSeats r (call.claimArgs host pick cfg.maxTicketsPerUserPerEvent)).2) ∨
    (claimSeats r (call.claimArgs host pick cfg.maxTicketsPerUserPerEvent)).2 = r ∧
      ∀ id rem, (claimSeats r (call.claimArgs host pick cfg.maxTicketsPerUserPerEvent)).1 ≠ .ok id rem := by
  rcases claimSeats_cases r (call.claimArgs host pick cfg.maxTicketsPerUserPerEvent) with
    ⟨heq, hfresh, -, hhost, hlo, hhi⟩ | hsame
  · obtain ⟨hvenue, hzone, hevent, huser, hquantity, hkey, hpos, price, hprice, htotal⟩ := hc
    cases call with
    | mk event zone user quantity total key relaxed attempt phase =>
    obtain ⟨block, start, length, score⟩ := pick
    simp only at hzone hevent huser hquantity hkey htotal hlen
    subst hevent huser hquantity hkey htotal hlen
    rw [heq]
    refine .inl ⟨_, _, rfl, hfresh, rfl, rfl, ?_, ?_, price, some ⟨block, start⟩, hprice,
      .inr ⟨hvenue, zone, ⟨block, start⟩, hzone, rfl, ?_⟩, ?_⟩
    · exact (held_chargeQuota ((r.setZone req.event zone _).addAvailable req.event
        (-req.quantity)) req.event req.event
        req.user req.user req.quantity).trans (if_pos ⟨rfl, rfl⟩)
    · intro event user hne
      exact (held_chargeQuota ((r.setZone req.event zone _).addAvailable req.event (-req.quantity)) req.event event
        req.user user req.quantity).trans (if_neg fun h => hne (Prod.ext h.1 h.2))
    · have hcut : CutOk (r.zones (req.event, zone)) block host.start host.length start req.quantity :=
        ⟨hhost, hlo, hhi, hpos⟩
      refine ⟨⟨host.start, host.length, hcut, rfl⟩, fun hz b p => ?_⟩
      rw [zones_claim]
      show Free (Function.update r.zones (req.event, zone) _ (req.event, zone)).parseRuns b p ↔ _
      rw [Function.update_self]
      exact free_cut hz hcut b p
    · show r.stream ++ [_] = r.stream ++ [_]
      rw [OrderRequest.intent, hzone]
      rfl
  · exact .inr hsame

/-! ### Runs -/

/-- What is known of a submission at each point of its code. -/
inductive Progress (req : OrderRequest) (s : Submitting) : Prop where
  | begun (hp : s.phase = .begun) (hsteps : s.steps = [])
  | reserving {total : Int} {m : EventMeta} (hp : s.phase = .reserving total) (hm : s.checked = some m)
      (hvenue : m.venue = none) (hpriced : Priced m req total) (hsteps : ∀ x ∈ s.steps, x.1.Untouched x.2)
  | flagging {zone : ZoneId} {total : Int} {m : EventMeta} (hp : s.phase = .flagging zone total)
      (hm : s.checked = some m)
      (hvenue : m.venue ≠ none) (hzone : req.zone = some zone) (hpriced : Priced m req total)
      (hsteps : ∀ x ∈ s.steps, x.1.Untouched x.2)
  | seating {call : SeatCall} {m : EventMeta} (hp : s.phase = .seating call) (hm : s.checked = some m)
      (hcall : CallOf m req call) (hsteps : ∀ x ∈ s.steps, x.1.Untouched x.2)
  | won {call : SeatCall} {id : StreamId} {m : EventMeta} (hp : s.phase = .won call id) (hm : s.checked = some m)
      (hacc : AcceptedOnce m req id s.steps)
  | accepted {id : StreamId} {m : EventMeta} (hp : s.phase = .done (.ok (.ok id))) (hm : s.checked = some m)
      (hacc : AcceptedOnce m req id s.steps)
  | refused {result : Except SubmitError Outcome} (hp : s.phase = .done result) (hne : ∀ id, result ≠ .ok (.ok id))
      (hsteps : ∀ x ∈ s.steps, x.1.Untouched x.2)

private theorem forall_concat {P : Redis × Redis → Prop} {steps : List (Redis × Redis)} {x : Redis × Redis}
    (h : ∀ y ∈ steps, P y) (hx : P x) : ∀ y ∈ steps ++ [x], P y := by
  intro y hy
  rcases List.mem_append.1 hy with hy | hy
  · exact h y hy
  · rwa [List.mem_singleton.1 hy]

private theorem AcceptedOnce.concat {m : EventMeta} {req : OrderRequest} {id : StreamId}
    {steps : List (Redis × Redis)}
    {x : Redis × Redis} (h : AcceptedOnce m req id steps) (hx : x.1.Untouched x.2) :
    AcceptedOnce m req id (steps ++ [x]) := by
  obtain ⟨before, r, r', after, rfl, hacc, hb, ha⟩ := h
  exact ⟨before, r, r', after ++ [x], by simp, hacc, hb, forall_concat ha hx⟩

namespace Progress

variable {cfg : OrderSettings} {req : OrderRequest} {s : Submitting} {r' : Redis} {m : EventMeta}

/-- The next pass of the loop. -/
private theorem again {checked : Option EventMeta} {steps : List (Redis × Redis)} {call : SeatCall}
    (hm : checked = some m) (hc : CallOf m req call) (hsteps : ∀ x ∈ steps, x.1.Untouched x.2) :
    Progress req ⟨r', call.again, checked, steps⟩ := by
  unfold SeatCall.again
  cases hn : call.nextAttempt with
  | none => exact .refused rfl (by rintro id ⟨⟩) hsteps
  | some next =>
    refine .seating rfl hm ?_ hsteps
    unfold SeatCall.nextAttempt at hn
    split at hn
    · obtain rfl := Option.some.inj hn
      exact ⟨hc.venue, hc.zone, hc.event, hc.user, hc.quantity, hc.key, hc.priced⟩
    · cases hn

private theorem validate {answer : Option EventMeta} {now : Time} {phase : SubmitPhase} (hp : Progress req s)
    (h : req.step cfg s.redis s.phase (.validate answer now) = some (r', phase)) :
    Progress req ⟨r', phase, ((SubmitAct.validate answer now).checked req).or s.checked,
      s.steps ++ [(s.redis, r')]⟩ := by
  simp only [OrderRequest.step] at h
  split at h
  · rename_i hbegun
    have hsteps : ∀ x ∈ s.steps ++ [(s.redis, s.redis)], x.1.Untouched x.2 := by
      cases hp with
      | begun _ hsteps =>
        rw [hsteps]
        exact forall_concat (by simp) (.refl _)
      | _ hp =>
        rw [hbegun] at hp
        cases hp
    split at h
    · cases h
      exact .refused rfl (by rintro id ⟨⟩) hsteps
    · rename_i m total hv
      cases h
      have hm : ((SubmitAct.validate answer now).checked req).or s.checked = some m := by
        simp only [SubmitAct.checked, hv, Option.some_or]
      unfold OrderRequest.path
      split
      · rename_i hvenue
        exact .reserving rfl hm hvenue (priced_of_validate hv) hsteps
      · rename_i hvenue
        split
        · exact .refused rfl (by rintro id ⟨⟩) hsteps
        · rename_i hzone
          exact .flagging rfl hm (by simp [hvenue]) hzone (priced_of_validate hv) hsteps
  · cases h

private theorem of_reserving {total : Int} (hp : Progress req s) (hphase : s.phase = .reserving total) :
    ∃ m, s.checked = some m ∧ m.venue = none ∧ Priced m req total ∧ ∀ x ∈ s.steps, x.1.Untouched x.2 := by
  cases hp with
  | reserving hp hm hvenue hpriced hsteps =>
    obtain rfl := SubmitPhase.reserving.inj (hp.symm.trans hphase)
    exact ⟨_, hm, hvenue, hpriced, hsteps⟩
  | _ hp => cases hp.symm.trans hphase

private theorem of_flagging {zone : ZoneId} {total : Int} (hp : Progress req s)
    (hphase : s.phase = .flagging zone total) :
    ∃ m, s.checked = some m ∧ m.venue ≠ none ∧ req.zone = some zone ∧ Priced m req total ∧
      ∀ x ∈ s.steps, x.1.Untouched x.2 := by
  cases hp with
  | flagging hp hm hvenue hzone hpriced hsteps =>
    obtain ⟨rfl, rfl⟩ := SubmitPhase.flagging.inj (hp.symm.trans hphase)
    exact ⟨_, hm, hvenue, hzone, hpriced, hsteps⟩
  | _ hp => cases hp.symm.trans hphase

private theorem of_seating {call : SeatCall} (hp : Progress req s) (hphase : s.phase = .seating call) :
    ∃ m, s.checked = some m ∧ CallOf m req call ∧ ∀ x ∈ s.steps, x.1.Untouched x.2 := by
  cases hp with
  | seating hp hm hcall hsteps =>
    obtain rfl := SubmitPhase.seating.inj (hp.symm.trans hphase)
    exact ⟨_, hm, hcall, hsteps⟩
  | _ hp => cases hp.symm.trans hphase

private theorem of_won {call : SeatCall} {id : StreamId} (hp : Progress req s) (hphase : s.phase = .won call id) :
    ∃ m, s.checked = some m ∧ AcceptedOnce m req id s.steps := by
  cases hp with
  | won hp hm hacc =>
    obtain ⟨-, rfl⟩ := SubmitPhase.won.inj (hp.symm.trans hphase)
    exact ⟨_, hm, hacc⟩
  | _ hp => cases hp.symm.trans hphase

private theorem CallOf.phase {call : SeatCall} {p : CallPhase} (hc : CallOf m req call) :
    CallOf m req { call with phase := p } :=
  ⟨hc.venue, hc.zone, hc.event, hc.user, hc.quantity, hc.key, hc.priced⟩

private theorem claim {call : SeatCall} {state : ZoneState} {i : Nat} {phase : SubmitPhase} (hm : s.checked = some m)
    (hcall : CallOf m req call) (hsteps : ∀ x ∈ s.steps, x.1.Untouched x.2)
    (h : call.claim cfg s.redis state i = some (r', phase)) :
    Progress req ⟨r', phase, s.checked, s.steps ++ [(s.redis, r')]⟩ := by
  have hnone : ∀ x ∈ s.steps ++ [(s.redis, s.redis)], x.1.Untouched x.2 := forall_concat hsteps (.refl _)
  unfold SeatCall.claim at h
  split at h
  · cases h
    exact .refused rfl (by rintro id ⟨⟩) hnone
  · rename_i anchors hanchors
    obtain ⟨pick, hpick, h⟩ := Option.bind_eq_some_iff.1 h
    split at h
    · cases h
      exact .refused rfl (by rintro id ⟨⟩) hnone
    · rename_i host _
      obtain ⟨hlen, -⟩ := length_of_mem_legalAnchors hanchors (List.mem_of_mem_take (List.mem_of_getElem? hpick))
      simp only [Option.some.injEq, Prod.mk.injEq] at h
      obtain ⟨rfl, rfl⟩ := h
      rcases claim_spec cfg s.redis host hcall hlen with ⟨id, rem, hok, hacc⟩ | ⟨hsame, hne⟩
      · rw [hok]
        exact .won rfl hm ⟨s.steps, _, _, [], rfl, hacc, hsteps, by simp⟩
      · rw [hsame]
        unfold SeatCall.answer
        split
        · exact .refused rfl (by rintro id ⟨⟩) hnone
        · exact .refused rfl (by rintro id ⟨⟩) hnone
        · exact again hm hcall hnone
        · exact .refused rfl (by rintro id ⟨⟩) hnone
        · rename_i id rem hok
          exact absurd hok (hne id rem)

private theorem miss {call : SeatCall} {state : ZoneState} {phase : SubmitPhase} (hm : s.checked = some m)
    (hcall : CallOf m req call) (hsteps : ∀ x ∈ s.steps, x.1.Untouched x.2)
    (h : call.miss cfg s.redis state = some (r', phase)) :
    Progress req ⟨r', phase, s.checked, s.steps ++ [(s.redis, r')]⟩ := by
  obtain ⟨-, ⟨⟨e, rfl⟩, huntouched⟩ | ⟨rfl, rfl⟩⟩ := SeatCall.miss_cases h
  · exact .refused rfl (by rintro id ⟨⟩) (forall_concat hsteps huntouched)
  · exact .seating rfl hm (CallOf.phase hcall)
      (forall_concat hsteps (Redis.untouched_setZone ⟨rfl, rfl, rfl, rfl⟩))

theorem own {a : SubmitAct} {phase : SubmitPhase} (hp : Progress req s)
    (h : req.step cfg s.redis s.phase a = some (r', phase)) :
    Progress req ⟨r', phase, (a.checked req).or s.checked, s.steps ++ [(s.redis, r')]⟩ := by
  cases OrderRequest.step_move h with
  | invalid | validate => exact hp.validate h
  | reserve hphase =>
    obtain ⟨m, hm, hvenue, hpriced, hsteps⟩ := hp.of_reserving hphase
    rcases reserve_spec cfg s.redis hvenue hpriced with ⟨id, rem, hok, hacc⟩ | ⟨hsame, hne⟩
    · rw [hok]
      exact .accepted rfl hm ⟨s.steps, _, _, [], rfl, hacc, hsteps, by simp⟩
    · refine .refused rfl ?_ (forall_concat hsteps (by rw [hsame]; exact .refl _))
      intro id hEq
      unfold OrderRequest.reserveResult at hEq
      split at hEq <;> try cases hEq
      exact hne _ _ (by assumption)
  | readRelaxed hphase =>
    obtain ⟨m, hm, hvenue, hzone, hpriced, hsteps⟩ := hp.of_flagging hphase
    exact .seating rfl hm ⟨hvenue, hzone, rfl, rfl, rfl, rfl, hpriced⟩ (forall_concat hsteps (.refl _))
  | unreadable hphase =>
    obtain ⟨m, hm, hcall, hsteps⟩ := hp.of_seating hphase
    exact .refused rfl (by rintro id ⟨⟩) (forall_concat hsteps (.refl _))
  | read hphase =>
    obtain ⟨m, hm, hcall, hsteps⟩ := hp.of_seating hphase
    exact .seating rfl hm (CallOf.phase hcall) (forall_concat hsteps (.refl _))
  | claim hphase hsnapshot hclaim =>
    obtain ⟨m, hm, hcall, hsteps⟩ := hp.of_seating hphase
    exact claim hm hcall hsteps hclaim
  | miss hphase hsnapshot hmiss =>
    obtain ⟨m, hm, hcall, hsteps⟩ := hp.of_seating hphase
    exact miss hm hcall hsteps hmiss
  | relax hphase =>
    obtain ⟨m, hm, hcall, hsteps⟩ := hp.of_seating hphase
    exact .seating rfl hm (CallOf.phase hcall)
      (forall_concat hsteps (Redis.untouched_setZone ⟨rfl, rfl, rfl, rfl⟩))
  | forget hphase =>
    obtain ⟨m, hm, hcall, hsteps⟩ := hp.of_seating hphase
    refine again hm ?_ (forall_concat hsteps (Redis.untouched_setZone ⟨rfl, rfl, rfl, rfl⟩))
    exact ⟨hcall.venue, hcall.zone, hcall.event, hcall.user, hcall.quantity, hcall.key, hcall.priced⟩
  | finish hphase =>
    obtain ⟨m, hm, hacc⟩ := hp.of_won hphase
    exact .accepted rfl hm (hacc.concat (Redis.untouched_setZone ⟨rfl, rfl, rfl, rfl⟩))

theorem other (hp : Progress req s) (r : Redis) : Progress req { s with redis := r } := by
  cases hp with
  | begun hp hsteps => exact .begun hp hsteps
  | reserving hp hm hvenue hpriced hsteps => exact .reserving hp hm hvenue hpriced hsteps
  | flagging hp hm hvenue hzone hpriced hsteps => exact .flagging hp hm hvenue hzone hpriced hsteps
  | seating hp hm hcall hsteps => exact .seating hp hm hcall hsteps
  | won hp hm hacc => exact .won hp hm hacc
  | accepted hp hm hacc => exact .accepted hp hm hacc
  | refused hp hne hsteps => exact .refused hp hne hsteps

theorem step {turn : Turn} {s' : Submitting} (hp : Progress req s) (h : s.step cfg req turn = some s') :
    Progress req s' := by
  cases turn with
  | own a =>
    obtain ⟨⟨r', phase⟩, hout, rfl⟩ := Option.map_eq_some_iff.1 h
    exact hp.own hout
  | other r =>
    obtain rfl := Option.some.inj h
    exact hp.other r

theorem run {r : Redis} {turns : List Turn} (h : exec (Submitting.step cfg req) { redis := r } turns = some s) :
    Progress req s :=
  exec_invariant (C := fun _ _ => True) (fun _ _ _ _ ht hp => hp.step ht) (.begun rfl rfl)
    (.of_forall fun _ _ _ => trivial) h

end Progress

/-- Whatever others do between its steps: a request that raises or is answered `DUP` has changed nothing but
miss counters and policy flags; one that is answered `OK` has made exactly one step more, which appends its
intent and takes its quantity out of the stock, out of the quota of the user and out of the seats of the zone,
at the price of the meta it read. -/
theorem submit_all_or_nothing {cfg : OrderSettings} {req : OrderRequest} {r : Redis} {turns : List Turn}
    {s : Submitting}
    {result : Except SubmitError Outcome} (hrun : exec (Submitting.step cfg req) { redis := r } turns = some s)
    (hdone : s.phase = .done result) :
    ((∃ e, result = .error e) ∨ result = .ok .dup → ∀ x ∈ s.steps, x.1.Untouched x.2) ∧
      ∀ id, result = .ok (.ok id) → ∃ m, s.checked = some m ∧ AcceptedOnce m req id s.steps := by
  cases Progress.run hrun with
  | accepted hp hm hacc =>
    obtain rfl := SubmitPhase.done.inj (hp.symm.trans hdone)
    refine ⟨?_, ?_⟩
    · rintro (⟨e, he⟩ | hdup)
      · cases he
      · cases hdup
    · rintro id hid
      obtain rfl := Outcome.ok.inj (Except.ok.inj hid)
      exact ⟨_, hm, hacc⟩
  | refused hp hne hsteps =>
    obtain rfl := SubmitPhase.done.inj (hp.symm.trans hdone)
    exact ⟨fun _ => hsteps, fun id hid => absurd hid (hne id)⟩
  | _ hp => cases hp.symm.trans hdone

/-- A seated event on sale at 50 cents a seat. -/
def sampleMeta : EventMeta where
  event := 1
  status := .published
  saleStartsAt := 0
  saleEndsAt := 10
  priceCents := none
  venue := some 1
  zonePrices := AList.insert 1 50 ∅

def sampleRequest : OrderRequest := { user := 8, event := 1, quantity := 2, key := 5, zone := some 1 }

/-- A seated request that gets its seats in the first pass. -/
def firstPass : List Turn :=
  [.own (.validate (some sampleMeta) 5), .own .readRelaxed, .own .read, .own (.claim 0), .own .forget]

theorem submit_all_or_nothing_sample :
    ∃ s, exec (Submitting.step {} sampleRequest) { redis := sampleRedis } firstPass = some s ∧
      s.phase = .done (.ok (.ok 1)) ∧ ∃ m, s.checked = some m ∧ AcceptedOnce m sampleRequest 1 s.steps := by
  obtain ⟨s, hs, hp⟩ := exec_any (Submitting.step {} sampleRequest) { redis := sampleRedis } firstPass
    (fun s => s.phase.result = some (.ok (.ok 1))) (by decide +kernel)
  rw [decide_eq_true_eq, SubmitPhase.result_eq_some] at hp
  exact ⟨s, hs, hp, (submit_all_or_nothing hs hp).2 1 rfl⟩

end Ticketing
