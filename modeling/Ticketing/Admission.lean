import Ticketing.Submission

/-!
# Admission tokens

`create_endpoint` takes a single-use admission token, submits the order and gives the token back when the
submission raises a domain error.  Its comment states the law: the token is consumed if and only if an order
intent was accepted.

The law is about the caller, but the claim that answers `DUP` is global: `idempotency:{key}` knows neither
user nor event.  A caller who sends a key that somebody else has used is answered 202 and loses the token
without an order (`foreign_key_consumes_token`); one who sends the key of an accepted order again, with a
second token and after the zone is sold out, gets that token back.  `admission_consumed_iff` says exactly
which calls keep the law.

Here a call runs to completion before the next one starts, and no marker expires while it runs.
-/

namespace Ticketing

open Exec

/-! ### A request that runs alone -/

/-- The policy under which a request that runs alone looks for its seats: a strict miss that reaches the
threshold relaxes the zone and is followed by a second pass. -/
def OrderRequest.policyIn (req : OrderRequest) (z : ZoneKeys) (state : ZoneState) : Policy :=
  if z.relaxed = true ∨ legalAnchors state.runs req.quantity state.geometry normalPolicy = some [] ∧
      req.quantity ≤ state.remaining ∧ strictMissThreshold ≤ z.strictMisses.getD 0 + 1 then endgamePolicy
  else normalPolicy

/-- The zone has seats for the request. -/
def OrderRequest.Anchored (req : OrderRequest) (z : ZoneKeys) : Prop :=
  ∃ state anchors, z.parseState = some state ∧
    legalAnchors state.runs req.quantity state.geometry (req.policyIn z state) = some anchors ∧ anchors ≠ []

/-- The request gets as far as the script that looks at its claim. -/
def OrderRequest.Reaches (req : OrderRequest) (m : EventMeta) (r : Redis) : Prop :=
  m.venue = none ∨ ∃ zone, req.zone = some zone ∧ req.Anchored (r.zones (req.event, zone))

/-- What the script asks of a request under a new key: the quota and, for an event without a seat map, the stock. -/
def OrderRequest.Room (cfg : OrderSettings) (req : OrderRequest) (m : EventMeta) (r : Redis) : Prop :=
  r.held req.event req.user + req.quantity ≤ cfg.maxTicketsPerUserPerEvent ∧
    (m.venue = none → ∃ stock, r.available req.event = some stock ∧ req.quantity ≤ stock)

/-- What the script does with the request: a live claim is a duplicate, a new key is accepted or refused. -/
def ScriptAnswer (req : OrderRequest) (room : Prop) (r : Redis) (result : Except SubmitError Outcome)
    (r' : Redis) : Prop :=
  ((r.claims req.key).isSome = true ∧ result = .ok .dup ∧ r'.stream = r.stream) ∨
  ((r.claims req.key).isSome = false ∧ room ∧ ∃ id total seat, result = .ok (.ok id) ∧
    r'.stream = r.stream ++ [⟨id, req.intent total seat, 0⟩]) ∨
  ((r.claims req.key).isSome = false ∧ ¬room ∧ (∃ e, result = .error e) ∧ r'.stream = r.stream)

section Alone

variable {cfg : OrderSettings} {req : OrderRequest} {s s' : Submitting} {acts : List SubmitAct} {m : EventMeta}
  {result : Except SubmitError Outcome}

/-- A run of a submission without others. -/
def Alone (cfg : OrderSettings) (req : OrderRequest) (s : Submitting) (acts : List SubmitAct)
    (s' : Submitting) : Prop :=
  exec (Submitting.step cfg req) s (acts.map .own) = some s'

theorem Alone.cons {a : SubmitAct} (h : Alone cfg req s (a :: acts) s') :
    ∃ r phase, req.step cfg s.redis s.phase a = some (r, phase) ∧
      Alone cfg req ⟨r, phase, (a.checked req).or s.checked, s.steps ++ [(s.redis, r)]⟩ acts s' := by
  obtain ⟨t, ht, hrest⟩ := exec_cons.1 h
  obtain ⟨⟨r, phase⟩, hout, rfl⟩ := Option.map_eq_some_iff.1 ht
  exact ⟨r, phase, hout, hrest⟩

/-- A submission that is not done has a next step. -/
theorem Alone.next (h : Alone cfg req s acts s') (hdone : s'.phase = .done result) (hphase : s.phase.result = none) :
    ∃ a rest r phase, req.step cfg s.redis s.phase a = some (r, phase) ∧
      Alone cfg req ⟨r, phase, (a.checked req).or s.checked, s.steps ++ [(s.redis, r)]⟩ rest s' := by
  cases acts with
  | nil =>
    obtain rfl := Option.some.inj h
    rw [hdone] at hphase
    cases hphase
  | cons a rest =>
    obtain ⟨r, phase, hstep, hrest⟩ := h.cons
    exact ⟨a, rest, r, phase, hstep, hrest⟩

/-- A submission that is done stays as it is. -/
theorem Alone.done {result' : Except SubmitError Outcome} (h : Alone cfg req s acts s')
    (hphase : s.phase = .done result')
    (hdone : s'.phase = .done result) : result = result' ∧ s'.redis = s.redis := by
  cases acts with
  | nil =>
    obtain rfl := Option.some.inj h
    exact ⟨(SubmitPhase.done.inj (hphase.symm.trans hdone)).symm, rfl⟩
  | cons a rest =>
    obtain ⟨r, phase, hstep, -⟩ := h.cons
    rw [hphase] at hstep
    cases a <;> cases hstep

/-- The counter script answers by the claim, then by stock and quota. -/
private theorem reserveAndEnqueue_answer (r : Redis) (a : ReserveArgs) :
    ((r.claims a.key).isSome = true ∧ reserveAndEnqueue r a = (.dup, r)) ∨
    ((r.claims a.key).isSome = false ∧
      (r.held a.event a.user + a.quantity ≤ a.limit ∧ ∃ stock, r.available a.event = some stock ∧
        a.quantity ≤ stock) ∧
      ∃ rem, reserveAndEnqueue r a = (.ok (r.lastId + 1) rem, r.reserve a)) ∨
    ((r.claims a.key).isSome = false ∧
      ¬(r.held a.event a.user + a.quantity ≤ a.limit ∧ ∃ stock, r.available a.event = some stock ∧
        a.quantity ≤ stock) ∧
      ((∃ rem, reserveAndEnqueue r a = (.soldOut rem, r)) ∨
        ∃ already limit, reserveAndEnqueue r a = (.overLimit already limit, r))) := by
  unfold reserveAndEnqueue
  cases hlive : (r.claims a.key).isSome with
  | true => exact .inl ⟨rfl, rfl⟩
  | false =>
    right
    simp only [Bool.false_eq_true, if_false]
    cases hav : r.available a.event with
    | none => exact .inr ⟨trivial, by simp, .inl ⟨0, rfl⟩⟩
    | some stock =>
      simp only
      split
      · rename_i hlow
        refine .inr ⟨trivial, ?_, .inl ⟨stock, rfl⟩⟩
        rintro ⟨-, stock', hstock, hle⟩
        obtain rfl := Option.some.inj hstock
        omega
      · split
        · rename_i hover
          refine .inr ⟨trivial, ?_, .inr ⟨_, _, rfl⟩⟩
          rintro ⟨hle, -⟩
          omega
        · exact .inl ⟨trivial, ⟨by omega, stock, rfl, by omega⟩, _, rfl⟩

theorem Alone.reserving {total : Int} (h : Alone cfg req s acts s') (hphase : s.phase = .reserving total)
    (hdone : s'.phase = .done result) (hvenue : m.venue = none) :
    ScriptAnswer req (req.Room cfg m s.redis) s.redis result s'.redis := by
  obtain ⟨a, rest, r, phase, hstep, hrest⟩ := h.next hdone (by rw [hphase]; rfl)
  rw [hphase] at hstep
  have hroom : req.Room cfg m s.redis ↔
    s.redis.held req.event req.user + req.quantity ≤ cfg.maxTicketsPerUserPerEvent ∧
      ∃ stock, s.redis.available req.event = some stock ∧ req.quantity ≤ stock :=
    ⟨fun h => ⟨h.1, h.2 hvenue⟩, fun h => ⟨h.1, fun _ => h.2⟩⟩
  cases a with
  | reserve =>
    cases hstep
    obtain ⟨rfl, hredis⟩ := hrest.done rfl hdone
    rw [hredis]
    rcases reserveAndEnqueue_answer s.redis (req.reserveArgs cfg total) with ⟨hlive, heq⟩ | ⟨hnew, hok, rem, heq⟩ |
      ⟨hnew, hno, ⟨rem, heq⟩ | ⟨already, limit, heq⟩⟩
    · rw [heq]
      exact .inl ⟨hlive, rfl, rfl⟩
    · rw [heq]
      exact .inr (.inl ⟨hnew, hroom.2 hok, s.redis.lastId + 1, total, none, rfl, rfl⟩)
    · rw [heq]
      exact .inr (.inr ⟨hnew, fun h => hno (hroom.1 h), ⟨_, rfl⟩, rfl⟩)
    · rw [heq]
      exact .inr (.inr ⟨hnew, fun h => hno (hroom.1 h), ⟨_, rfl⟩, rfl⟩)
  | _ => cases hstep

/-- A call of the loop belongs to the request. -/
structure CallFor (req : OrderRequest) (call : SeatCall) : Prop where
  requested : req.zone = some call.zone
  event : call.event = req.event
  user : call.user = req.user
  quantity : call.quantity = req.quantity
  key : call.key = req.key

/-- A claim with a fresh snapshot is not refused for its run: it is a duplicate, over the limit, or accepted. -/
private theorem claimSeats_answer {call : SeatCall} {host : Run} {pick : Placement} (cfg : OrderSettings)
    (r : Redis) (hc : CallFor req call) (hhost : host ∈ (r.zones (call.event, call.zone)).parseRuns)
    (hin : pick.insideOf host) (hlen : pick.length = req.quantity) :
    ((r.claims req.key).isSome = true ∧
      claimSeats r (call.claimArgs host pick cfg.maxTicketsPerUserPerEvent) = (.dup, r)) ∨
    ((r.claims req.key).isSome = false ∧ r.held req.event req.user + req.quantity ≤ cfg.maxTicketsPerUserPerEvent ∧
      ∃ rem r', claimSeats r (call.claimArgs host pick cfg.maxTicketsPerUserPerEvent) = (.ok (r.lastId + 1) rem, r') ∧
        r'.stream = r.stream ++
          [⟨r.lastId + 1, req.intent call.totalPriceCents (some ⟨pick.blockId, pick.start⟩), 0⟩]) ∨
    ((r.claims req.key).isSome = false ∧ ¬r.held req.event req.user + req.quantity ≤ cfg.maxTicketsPerUserPerEvent ∧
      ∃ already limit, claimSeats r (call.claimArgs host pick cfg.maxTicketsPerUserPerEvent) =
        (.overLimit already limit, r)) := by
  obtain ⟨hreq, hevent, huser, hquantity, hkey⟩ := hc
  rw [← hkey, ← hevent, ← huser, ← hlen]
  cases hlive : (r.claims call.key).isSome with
  | true => exact .inl ⟨rfl, if_pos hlive⟩
  | false =>
    right
    by_cases hquota : r.held call.event call.user + pick.length ≤ cfg.maxTicketsPerUserPerEvent
    · refine .inl ⟨rfl, hquota, (r.zones (call.event, call.zone)).available.getD 0 - pick.length,
        r.claim (call.claimArgs host pick cfg.maxTicketsPerUserPerEvent), ?_, ?_⟩
      · exact claimSeats_of_inside hhost hin (by simpa using hlive) hquota
      · show r.stream ++ [_] = r.stream ++ [_]
        unfold OrderRequest.intent
        rw [← huser, ← hevent, ← hkey, hreq, ← hlen]
        rfl
    · refine .inr ⟨rfl, hquota, r.held call.event call.user, cfg.maxTicketsPerUserPerEvent, ?_⟩
      unfold claimSeats SeatCall.claimArgs
      simp only [hlive, Bool.false_eq_true, if_false, if_pos (not_le.1 hquota)]

/-- A request that completes: it is answered, or raises a domain error. -/
def Completes (result : Except SubmitError Outcome) : Prop := ∀ e, result = .error e → e.isDomain = true

/-- The claim of a pass that has just read its snapshot. -/
private theorem Alone.claim {call : SeatCall} {state : ZoneState} {anchors : List Placement} {i : Nat}
    {r₀ r : Redis} {phase : SubmitPhase} {checked : Option EventMeta} {steps : List (Redis × Redis)}
    (hc : CallFor req call) (hparse : (r₀.zones (call.event, call.zone)).parseState = some state)
    (hanchors : legalAnchors state.runs call.quantity state.geometry call.policy = some anchors)
    (hstep : call.claim cfg r₀ state i = some (r, phase)) (hrest : Alone cfg req ⟨r, phase, checked, steps⟩ acts s')
    (hdone : s'.phase = .done result) :
    anchors ≠ [] ∧ ScriptAnswer req (r₀.held req.event req.user + req.quantity ≤ cfg.maxTicketsPerUserPerEvent)
      r₀ result s'.redis := by
  cases hpick : (anchors.take topK)[i]? with
  | none =>
    simp only [SeatCall.claim, hanchors, hpick, Option.bind_none] at hstep
    cases hstep
  | some pick =>
    have hmem : pick ∈ anchors := List.mem_of_mem_take (List.mem_of_getElem? hpick)
    refine ⟨List.ne_nil_of_mem hmem, ?_⟩
    obtain ⟨host, hhost, hin, heq⟩ := call.claim_of_anchor cfg r₀ hanchors hpick
    have hlen : pick.length = req.quantity := (length_of_mem_legalAnchors hanchors hmem).1.trans hc.quantity
    rw [heq] at hstep
    rcases claimSeats_answer cfg r₀ hc (ZoneKeys.runs_of_parseState hparse ▸ hhost) hin hlen with ⟨hlive, hreply⟩ |
      ⟨hnew, hquota, rem, r', hreply, hstream⟩ | ⟨hnew, hquota, already, limit, hreply⟩
    · rw [hreply] at hstep
      cases hstep
      obtain ⟨rfl, hredis⟩ := hrest.done rfl hdone
      exact .inl ⟨hlive, rfl, by rw [hredis]⟩
    · rw [hreply] at hstep
      cases hstep
      -- the answer is given after the miss counter is deleted
      obtain ⟨a, rest, r₂, phase₂, hstep₂, hrest₂⟩ := hrest.next hdone rfl
      cases a with
      | forget =>
        cases hstep₂
        obtain ⟨rfl, hredis⟩ := hrest₂.done rfl hdone
        exact .inr (.inl ⟨hnew, hquota, _, _, _, rfl, by rw [hredis]; exact hstream⟩)
      | _ => cases hstep₂
    · rw [hreply] at hstep
      cases hstep
      obtain ⟨rfl, hredis⟩ := hrest.done rfl hdone
      exact .inr (.inr ⟨hnew, hquota, ⟨_, rfl⟩, by rw [hredis]⟩)

private theorem Redis.Untouched.setZone {r r₁ : Redis} {event : EventId} {zone : ZoneId} {z : ZoneKeys}
    (h : r.Untouched r₁) (hz : (r₁.zones (event, zone)).SameSeats z) : r.Untouched (r₁.setZone event zone z) := by
  obtain ⟨zones, hzones, rfl⟩ := h
  obtain ⟨zones', hzones', heq⟩ := Redis.untouched_setZone hz
  refine ⟨zones', fun k => ?_, heq⟩
  have h := hzones k
  have h' := hzones' k
  exact ⟨h'.runs.trans h.runs, h'.ends.trans h.ends, h'.geom.trans h.geom, h'.available.trans h.available⟩

/-- What becomes of a pass without an anchor: it raises, or relaxes the zone and starts again. -/
private theorem Alone.miss {call : SeatCall} {state : ZoneState} {r₀ r : Redis} {phase : SubmitPhase}
    {checked : Option EventMeta} {steps : List (Redis × Redis)} (hstep : call.miss cfg r₀ state = some (r, phase))
    (hrest : Alone cfg req ⟨r, phase, checked, steps⟩ acts s') (hdone : s'.phase = .done result) :
    legalAnchors state.runs call.quantity state.geometry call.policy = some [] ∧
    (((state.remaining < call.quantity ∨ call.relaxed = true ∨
        (r₀.zones (call.event, call.zone)).strictMisses.getD 0 + 1 < strictMissThreshold) ∧
      (∃ e, result = .error e) ∧ s'.redis.stream = r₀.stream) ∨
    ((call.quantity ≤ state.remaining ∧ call.relaxed = false ∧
        strictMissThreshold ≤ (r₀.zones (call.event, call.zone)).strictMisses.getD 0 + 1) ∧
      ∃ t acts', Alone cfg req t acts' s' ∧ r₀.Untouched t.redis ∧
        t.phase = ({ call with phase := .relaxing, relaxed := true } : SeatCall).again)) := by
  unfold SeatCall.miss at hstep
  split at hstep
  · rename_i hempty
    refine ⟨hempty, ?_⟩
    split at hstep
    · rename_i hlt
      cases hstep
      obtain ⟨rfl, hredis⟩ := hrest.done rfl hdone
      exact .inl ⟨.inl hlt, ⟨_, rfl⟩, by rw [hredis]⟩
    · rename_i hlt
      obtain ⟨e, he⟩ := call.noSeats_eq cfg state
      split at hstep
      · rename_i hrelaxed
        cases hstep
        obtain ⟨rfl, hredis⟩ := hrest.done he hdone
        exact .inl ⟨.inr (.inl hrelaxed), ⟨e, rfl⟩, by rw [hredis]⟩
      · rename_i hrelaxed
        simp only at hstep
        split at hstep
        · rename_i hfew
          cases hstep
          obtain ⟨rfl, hredis⟩ := hrest.done he hdone
          exact .inl ⟨.inr (.inr hfew), ⟨e, rfl⟩, by rw [hredis]; rfl⟩
        · rename_i hmany
          cases hstep
          refine .inr ⟨⟨by omega, by simpa using hrelaxed, by omega⟩, ?_⟩
          obtain ⟨a, rest, r₂, phase₂, hstep₂, hrest₂⟩ := hrest.next hdone rfl
          cases a with
          | relax =>
            cases hstep₂
            obtain ⟨a, rest, r₃, phase₃, hstep₃, hrest₃⟩ := hrest₂.next hdone rfl
            cases a with
            | forget =>
              cases hstep₃
              refine ⟨_, rest, hrest₃, ?_, rfl⟩
              refine Redis.Untouched.setZone (Redis.Untouched.setZone (Redis.untouched_setZone ?_) ?_) ?_ <;>
                exact ⟨rfl, rfl, rfl, rfl⟩
            | _ => cases hstep₃
          | _ => cases hstep₂
  · cases hstep

/-- One pass of the loop, from the read of its snapshot on. -/
private theorem Alone.pass {call : SeatCall} (h : Alone cfg req s acts s') (hphase : s.phase = .seating call)
    (hready : call.phase = .ready) (hc : CallFor req call) (hdone : s'.phase = .done result)
    (hcomplete : Completes result) :
    ∃ state anchors, (s.redis.zones (call.event, call.zone)).parseState = some state ∧
      legalAnchors state.runs call.quantity state.geometry call.policy = some anchors ∧
      ((anchors ≠ [] ∧ ScriptAnswer req
        (s.redis.held req.event req.user + req.quantity ≤ cfg.maxTicketsPerUserPerEvent)
          s.redis result s'.redis) ∨
        (anchors = [] ∧
          (state.remaining < call.quantity ∨ call.relaxed = true ∨
            (s.redis.zones (call.event, call.zone)).strictMisses.getD 0 + 1 < strictMissThreshold) ∧
          (∃ e, result = .error e) ∧ s'.redis.stream = s.redis.stream) ∨
        (anchors = [] ∧
          (call.quantity ≤ state.remaining ∧ call.relaxed = false ∧
            strictMissThreshold ≤ (s.redis.zones (call.event, call.zone)).strictMisses.getD 0 + 1) ∧
          ∃ t acts', Alone cfg req t acts' s' ∧ s.redis.Untouched t.redis ∧
            t.phase = ({ call with phase := .relaxing, relaxed := true } : SeatCall).again)) := by
  obtain ⟨a, rest, r, phase, hstep, hrest⟩ := h.next hdone (by rw [hphase]; rfl)
  rw [hphase] at hstep
  cases a with
  | read =>
    simp only [OrderRequest.step, hready] at hstep
    split at hstep
    · -- a geometry that cannot be built is not a domain error
      cases hstep
      obtain ⟨rfl, -⟩ := hrest.done rfl hdone
      cases hcomplete _ rfl
    · rename_i state hparse
      cases hstep
      obtain ⟨a, rest₂, r₂, phase₂, hstep₂, hrest₂⟩ := hrest.next hdone rfl
      cases a with
      | claim i =>
        have hclaim : ({ call with phase := .snapshot state } : SeatCall).claim cfg s.redis state i = some
            (r₂, phase₂) :=
          hstep₂
        cases hanchors : legalAnchors state.runs call.quantity state.geometry call.policy with
        | none =>
          have hkey : ({ call with phase := .snapshot state } : SeatCall).claim cfg s.redis state i =
              some (s.redis, .done (.error .keyError)) := by
            unfold SeatCall.claim
            rw [show legalAnchors state.runs call.quantity state.geometry
              ({ call with phase := .snapshot state } : SeatCall).policy = none from hanchors]
          cases hkey.symm.trans hclaim
          obtain ⟨rfl, -⟩ := hrest₂.done rfl hdone
          cases hcomplete _ rfl
        | some anchors =>
          have hcall : CallFor req { call with phase := .snapshot state } :=
            ⟨hc.requested, hc.event, hc.user, hc.quantity, hc.key⟩
          obtain ⟨hne, hanswer⟩ := Alone.claim hcall hparse hanchors hclaim hrest₂ hdone
          exact ⟨state, anchors, hparse, hanchors, .inl ⟨hne, hanswer⟩⟩
      | miss =>
        have hmiss : ({ call with phase := .snapshot state } : SeatCall).miss cfg s.redis state = some
          (r₂, phase₂) := hstep₂
        obtain ⟨hempty, hstay | hswitch⟩ := Alone.miss hmiss hrest₂ hdone
        · exact ⟨state, [], hparse, hempty, .inr (.inl ⟨rfl, hstay⟩)⟩
        · exact ⟨state, [], hparse, hempty, .inr (.inr ⟨rfl, hswitch⟩)⟩
      | _ => cases hstep₂
  | _ =>
    simp only [OrderRequest.step, hready] at hstep
    cases hstep

theorem ZoneKeys.SameSeats.parseState {z z' : ZoneKeys} (h : z.SameSeats z') : z'.parseState = z.parseState := by
  unfold ZoneKeys.parseState ZoneKeys.parseGeometry
  rw [h.parseRuns, h.geom]

/-- The second pass, after the switch of policy. -/
private theorem Alone.relaxedPass {zone : ZoneId} {total : Int} {r : Redis} {state : ZoneState}
    (h : Alone cfg req s acts s') (hsame : r.Untouched s.redis) (hzone : req.zone = some zone)
    (hphase : s.phase = ({ req.seatCall r zone total with phase := .relaxing, relaxed := true } : SeatCall).again)
    (hparse : (r.zones (req.event, zone)).parseState = some state) (hdone : s'.phase = .done result)
    (hcomplete : Completes result) :
    ∃ anchors, legalAnchors state.runs req.quantity state.geometry endgamePolicy = some anchors ∧
      ((anchors ≠ [] ∧ ScriptAnswer req (r.held req.event req.user + req.quantity ≤ cfg.maxTicketsPerUserPerEvent)
          r result s'.redis) ∨
        (anchors = [] ∧ (∃ e, result = .error e) ∧ s'.redis.stream = r.stream)) := by
  obtain ⟨state', anchors, hparse', hanchors, hcases⟩ :=
    h.pass hphase rfl ⟨hzone, rfl, rfl, rfl, rfl⟩ hdone hcomplete
  obtain ⟨zones, hzones, hredis⟩ := hsame
  rw [hredis] at hparse' hcases
  obtain rfl : state = state' := by
    have heq := (hzones (req.event, zone)).parseState
    rw [hparse] at heq
    exact Option.some.inj (heq.symm.trans hparse')
  refine ⟨anchors, hanchors, ?_⟩
  rcases hcases with ⟨hne, hanswer⟩ | ⟨hnil, -, herror, hstream⟩ | ⟨-, ⟨-, hrelaxed, -⟩, -⟩
  · exact .inl ⟨hne, hanswer⟩
  · exact .inr ⟨hnil, herror, hstream⟩
  · cases hrelaxed

private theorem anchored_iff {z : ZoneKeys} {state : ZoneState} {policy : Policy} {anchors : List Placement}
    (hparse : z.parseState = some state) (hpolicy : req.policyIn z state = policy)
    (hanchors : legalAnchors state.runs req.quantity state.geometry policy = some anchors) :
    req.Anchored z ↔ anchors ≠ [] := by
  constructor
  · rintro ⟨state', anchors', hparse', hanchors', hne⟩
    obtain rfl := Option.some.inj (hparse.symm.trans hparse')
    rw [hpolicy, hanchors] at hanchors'
    rwa [Option.some.inj hanchors']
  · intro hne
    exact ⟨state, anchors, hparse, hpolicy ▸ hanchors, hne⟩

/-- A seated request reaches the claim script exactly when the zone has seats for it. -/
theorem Alone.seated {zone : ZoneId} {total : Int} (h : Alone cfg req s acts s')
    (hphase : s.phase = .flagging zone total)
    (hzone : req.zone = some zone) (hdone : s'.phase = .done result) (hcomplete : Completes result) :
    (req.Anchored (s.redis.zones (req.event, zone)) ∧
      ScriptAnswer req (s.redis.held req.event req.user + req.quantity ≤ cfg.maxTicketsPerUserPerEvent)
        s.redis result s'.redis) ∨
    (¬req.Anchored (s.redis.zones (req.event, zone)) ∧ (∃ e, result = .error e) ∧
      s'.redis.stream = s.redis.stream) := by
  obtain ⟨a, rest, r, phase, hstep, hrest⟩ := h.next hdone (by rw [hphase]; rfl)
  rw [hphase] at hstep
  cases a with
  | readRelaxed =>
    cases hstep
    obtain ⟨state, anchors, hparse, hanchors, hcases⟩ :=
      hrest.pass rfl rfl ⟨hzone, rfl, rfl, rfl, rfl⟩ hdone hcomplete
    cases hrelaxed : (s.redis.zones (req.event, zone)).relaxed with
    | true =>
      have hcall : (req.seatCall s.redis zone total).policy = endgamePolicy := if_pos hrelaxed
      have hiff := anchored_iff hparse (if_pos (.inl hrelaxed)) (hcall ▸ hanchors)
      rcases hcases with ⟨hne, hanswer⟩ | ⟨hnil, -, herror⟩ | ⟨-, ⟨-, hnot, -⟩, -⟩
      · exact .inl ⟨hiff.2 hne, hanswer⟩
      · exact .inr ⟨fun h => hiff.1 h hnil, herror⟩
      · cases hrelaxed.symm.trans hnot
    | false =>
      have hcall : (req.seatCall s.redis zone total).policy = normalPolicy :=
        if_neg (by simp [hrelaxed, OrderRequest.seatCall])
      rw [hcall] at hanchors
      rcases hcases with ⟨hne, hanswer⟩ | ⟨hnil, hfew, herror⟩ |
        ⟨hnil, ⟨hleft, -, hmany⟩, t, acts', ht, hsame, hphase'⟩
      · have hpolicy : req.policyIn (s.redis.zones (req.event, zone)) state = normalPolicy := by
          refine if_neg ?_
          rintro (hon | ⟨hempty, -⟩)
          · cases hrelaxed.symm.trans hon
          · exact hne (Option.some.inj (hanchors.symm.trans hempty))
        exact .inl ⟨(anchored_iff hparse hpolicy hanchors).2 hne, hanswer⟩
      · have hpolicy : req.policyIn (s.redis.zones (req.event, zone)) state = normalPolicy := by
          refine if_neg ?_
          rintro (hon | ⟨-, hleft, hmany⟩)
          · cases hrelaxed.symm.trans hon
          · rcases hfew with hlow | hon | hfew
            · exact absurd hlow (not_lt.2 hleft)
            · cases hrelaxed.symm.trans hon
            · exact absurd hfew (not_lt.2 hmany)
        exact .inr ⟨fun h => (anchored_iff hparse hpolicy hanchors).1 h hnil, herror⟩
      · have hpolicy : req.policyIn (s.redis.zones (req.event, zone)) state = endgamePolicy :=
          if_pos (.inr ⟨hnil ▸ hanchors, hleft, hmany⟩)
        obtain ⟨anchors', hanchors', ⟨hne, hanswer⟩ | ⟨hnil', herror⟩⟩ :=
          ht.relaxedPass hsame hzone hphase' hparse hdone hcomplete
        · exact .inl ⟨(anchored_iff hparse hpolicy hanchors').2 hne, hanswer⟩
        · exact .inr ⟨fun h => (anchored_iff hparse hpolicy hanchors').1 h hnil', herror⟩
  | _ => cases hstep

/-- A submission that runs alone from its checks on: it gets to its script and is answered there, or it raises
and leaves the stream as it is. -/
theorem Alone.submitted {r : Redis} {answer : Option EventMeta} {now : Time}
    (h : Alone cfg req { redis := r } (.validate answer now :: acts) s') (hdone : s'.phase = .done result)
    (hcomplete : Completes result) :
    (∃ m total, req.validate answer now = .ok (m, total) ∧ req.Reaches m r ∧
      ScriptAnswer req (req.Room cfg m r) r result s'.redis) ∨
    ((¬∃ m total, req.validate answer now = .ok (m, total) ∧ req.Reaches m r) ∧ (∃ e, result = .error e) ∧
      s'.redis.stream = r.stream) := by
  obtain ⟨r₁, phase, hstep, hrest⟩ := h.cons
  simp only [OrderRequest.step] at hstep
  split at hstep
  · rename_i e hv
    cases hstep
    obtain ⟨rfl, hredis⟩ := hrest.done rfl hdone
    refine .inr ⟨?_, ⟨e, rfl⟩, by rw [hredis]⟩
    rintro ⟨m, total, hok, -⟩
    cases hv.symm.trans hok
  · rename_i m total hv
    cases hstep
    cases hvenue : m.venue with
    | none =>
      have hpath : req.path m total = .reserving total := by
        unfold OrderRequest.path
        rw [hvenue]
      exact .inl ⟨m, total, hv, .inl hvenue, hrest.reserving hpath hdone hvenue⟩
    | some venue =>
      cases hzone : req.zone with
      | none =>
        have hpath : req.path m total = .done (.error (.zoneRequired req.event)) := by
          unfold OrderRequest.path
          rw [hvenue, hzone]
        obtain ⟨rfl, hredis⟩ := hrest.done hpath hdone
        refine .inr ⟨?_, ⟨_, rfl⟩, by rw [hredis]⟩
        rintro ⟨m', total', hok, hnone | ⟨zone, hsome, -⟩⟩
        · cases hv.symm.trans hok
          cases hvenue.symm.trans hnone
        · cases hzone.symm.trans hsome
      | some zone =>
        have hpath : req.path m total = .flagging zone total := by
          unfold OrderRequest.path
          rw [hvenue, hzone]
        have hroom : req.Room cfg m r =
            (r.held req.event req.user + req.quantity ≤ cfg.maxTicketsPerUserPerEvent) := by
          refine propext ⟨And.left, fun h => ⟨h, fun hnone => ?_⟩⟩
          cases hvenue.symm.trans hnone
        rcases hrest.seated hpath hzone hdone hcomplete with ⟨hanchored, hanswer⟩ | ⟨hnot, herror⟩
        · exact .inl ⟨m, total, hv, .inr ⟨zone, hzone, hanchored⟩, hroom ▸ hanswer⟩
        · refine .inr ⟨?_, herror⟩
          rintro ⟨m', total', hok, hnone | ⟨zone', hsome, hanchored⟩⟩
          · cases hv.symm.trans hok
            cases hvenue.symm.trans hnone
          · cases hzone.symm.trans hsome
            exact hnot hanchored

end Alone

/-! ### Tokens -/

/-- The identifier of a token. -/
abbrev Jti := Nat

/-- A payload that the application signs. -/
inductive TokenPayload where
  | admission (sub : UserId) (event : EventId) (jti : Jti)
  /-- An access token: it has no `typ`. -/
  | access (sub : UserId)
deriving DecidableEq

/-- Why `verify_admission` raises. -/
inductive AdmissionDenied where
  /-- "invalid or expired admission token" -/
  | invalidOrExpired
  /-- "wrong token type" -/
  | wrongType
  /-- "admission token not valid for this event" -/
  | otherEvent
  /-- "admission token belongs to another user" -/
  | otherUser
  /-- "admission token already used" -/
  | alreadyUsed
deriving DecidableEq

/-- The checks of `verify_admission` before the marker; `payload` is what `jwt.decode` returns, `none` that it
raises. -/
def checkAdmission (payload : Option TokenPayload) (user : UserId) (event : EventId) : Except AdmissionDenied Jti :=
  match payload with
  | none => .error .invalidOrExpired
  | some (.access _) => .error .wrongType
  | some (.admission sub scope jti) =>
    if scope ≠ event then .error .otherEvent
    else if sub ≠ user then .error .otherUser
    else .ok jti

/-- `verify_admission`, with the marker as a flag: the call that sets it gets the `jti` back. -/
def verifyAdmission (used : Jti → Bool) (payload : Option TokenPayload) (user : UserId) (event : EventId) :
    Except AdmissionDenied Jti :=
  match checkAdmission payload user event with
  | .error e => .error e
  | .ok jti => if used jti then .error .alreadyUsed else .ok jti

/-! ### Calls of the endpoint -/

/-- What the calls share: Redis, the order rows and the markers `admission_used:{jti}`. -/
structure Desk where
  redis : Redis
  orders : List Order := []
  used : Jti → Bool := fun _ => false

/-- There is an intent on the stream, or an order, of this user for this event under the key. -/
def Desk.Owned (d : Desk) (user : UserId) (event : EventId) (key : Key) : Prop :=
  (∃ e ∈ d.redis.stream, e.intent.user = user ∧ e.intent.event = event ∧ e.intent.key = key) ∨
    ∃ o ∈ d.orders, o.user = user ∧ o.event = event ∧ o.key = key

instance (d : Desk) (user : UserId) (event : EventId) (key : Key) : Decidable (d.Owned user event key) :=
  inferInstanceAs (Decidable (_ ∨ _))

/-- The arguments of `create_endpoint`, with what it reads of the rest of the system: the rate limit, the
decoded token, the meta of the event and the time, and the steps of `submit_order` after its checks. -/
structure EndpointCall where
  request : OrderRequest
  payload : Option TokenPayload
  limited : Bool := false
  answer : Option EventMeta
  now : Time
  rest : List SubmitAct

inductive Response where
  /-- 202. -/
  | accepted
  | rateLimited
  | denied (reason : AdmissionDenied)
  /-- A domain error; the token has been given back. -/
  | refused (error : SubmitError)
  /-- Any other exception of `submit_order`. -/
  | failed (error : SubmitError)
deriving DecidableEq

/-- The steps of `submit_order` in a call. -/
def EndpointCall.acts (c : EndpointCall) : List SubmitAct := .validate c.answer c.now :: c.rest

/-- `create_endpoint`; `none` means that `rest` is not what `submit_order` does to its end. -/
def createEndpoint (cfg : OrderSettings) (d : Desk) (c : EndpointCall) : Option (Desk × Response) :=
  if c.limited then some (d, .rateLimited)
  else
    match verifyAdmission d.used c.payload c.request.user c.request.event with
    | .error reason => some (d, .denied reason)
    | .ok jti =>
      let used := Function.update d.used jti true
      (exec (Submitting.step cfg c.request) { redis := d.redis } (c.acts.map .own)).bind fun s =>
        s.phase.result.map fun
          | .ok _ => ({ d with redis := s.redis, used }, .accepted)
          | .error e =>
            if e.isDomain then ({ d with redis := s.redis, used := Function.update used jti false }, .refused e)
            else ({ d with redis := s.redis, used }, .failed e)

inductive DeskAct where
  /-- A call that is answered, or refused by a domain error. -/
  | call (c : EndpointCall)
  /-- Everything else: the worker, the sweeps, expiry, calls that fail. -/
  | elsewhere (d : Desk)

def Desk.step (cfg : OrderSettings) (d : Desk) : DeskAct → Option Desk
  | .call c => (createEndpoint cfg d c).bind fun out =>
    match out.2 with
    | .failed _ => none
    | _ => some out.1
  | .elsewhere d' => some d'

/-- The call passes `verify_admission` with this token. -/
def EndpointCall.Verified (c : EndpointCall) (d : Desk) (jti : Jti) : Prop :=
  c.limited = false ∧ verifyAdmission d.used c.payload c.request.user c.request.event = .ok jti

/-- A call after which the token is consumed without an intent or order of the caller, or given back in spite
of one. -/
def BreaksLaw (d : Desk) (a : DeskAct) (d' : Desk) : Prop :=
  ∃ c jti, a = .call c ∧ c.Verified d jti ∧
    ¬(d'.used jti = true ↔ d'.Owned c.request.user c.request.event c.request.key)

/-- The request passes its checks and gets to the script that looks at its claim. -/
def EndpointCall.AtScript (c : EndpointCall) (d : Desk) (m : EventMeta) : Prop :=
  (∃ total, c.request.validate c.answer c.now = .ok (m, total)) ∧ c.request.Reaches m d.redis

/-- A live claim that the request gets to belongs to an intent or order of the caller, and a caller with an
intent or order under the key gets to the script and is not refused there. -/
def KeepsLaw (cfg : OrderSettings) (d : Desk) (a : DeskAct) : Prop :=
  ∀ c jti, a = .call c → c.Verified d jti →
    ((∃ m, c.AtScript d m) → (d.redis.claims c.request.key).isSome = true →
      d.Owned c.request.user c.request.event c.request.key) ∧
    (d.Owned c.request.user c.request.event c.request.key →
      ∃ m, c.AtScript d m ∧ ((d.redis.claims c.request.key).isSome = true ∨ c.request.Room cfg m d.redis))

section Law

variable {cfg : OrderSettings} {d d' : Desk} {c : EndpointCall} {jti : Jti}

/-- A verified call runs its submission to the end; the token is given back exactly when it raises. -/
private theorem step_call (hv : c.Verified d jti) (h : d.step cfg (.call c) = some d') :
    ∃ s result, Alone cfg c.request { redis := d.redis } c.acts s ∧ s.phase = .done result ∧ Completes result ∧
      d'.redis = s.redis ∧ d'.orders = d.orders ∧ (d'.used jti = true ↔ ∃ o, result = .ok o) := by
  obtain ⟨⟨d₁, response⟩, hout, hanswer⟩ := Option.bind_eq_some_iff.1 h
  simp only [createEndpoint, hv.1, Bool.false_eq_true, if_false, hv.2] at hout
  obtain ⟨s, hrun, hmap⟩ := Option.bind_eq_some_iff.1 hout
  obtain ⟨result, hresult, hend⟩ := Option.map_eq_some_iff.1 hmap
  refine ⟨s, result, hrun, SubmitPhase.result_eq_some.1 hresult, ?_⟩
  cases result with
  | ok o =>
    cases hend
    cases hanswer
    refine ⟨?_, rfl, rfl, fun _ => ⟨o, rfl⟩, fun _ => Function.update_self ..⟩
    intro e he
    cases he
  | error e =>
    cases hdomain : e.isDomain with
    | true =>
      simp only [hdomain, if_true] at hend
      cases hend
      cases hanswer
      refine ⟨?_, rfl, rfl, ?_, ?_⟩
      · intro e' he
        cases he
        exact hdomain
      · intro hused
        simp only [Function.update_self, Bool.false_eq_true] at hused
      · rintro ⟨o, ho⟩
        cases ho
    | false =>
      simp only [hdomain, Bool.false_eq_true, if_false] at hend
      cases hend
      cases hanswer

private theorem owned_congr (hstream : d'.redis.stream = d.redis.stream) (horders : d'.orders = d.orders)
    (user : UserId) (event : EventId) (key : Key) : d'.Owned user event key ↔ d.Owned user event key := by
  unfold Desk.Owned
  rw [hstream, horders]

/-- One verified call: the law holds after it exactly when the state before it meets the condition. -/
private theorem call_lawful_iff (hv : c.Verified d jti) (h : d.step cfg (.call c) = some d') :
    (d'.used jti = true ↔ d'.Owned c.request.user c.request.event c.request.key) ↔
      ((∃ m, c.AtScript d m) → (d.redis.claims c.request.key).isSome = true →
        d.Owned c.request.user c.request.event c.request.key) ∧
      (d.Owned c.request.user c.request.event c.request.key →
        ∃ m, c.AtScript d m ∧ ((d.redis.claims c.request.key).isSome = true ∨ c.request.Room cfg m d.redis)) := by
  obtain ⟨s, result, hrun, hdone, hcomplete, hredis, horders, hused⟩ := step_call hv h
  rw [hused]
  have hraised : ∀ e : SubmitError, ¬∃ o : Outcome, Except.error e = .ok o := by
    rintro e ⟨o, ho⟩
    cases ho
  rcases hrun.submitted hdone hcomplete with ⟨m, total, hok, hreach, hanswer⟩ | ⟨hnot, ⟨e, rfl⟩, hstream⟩
  · have hat : c.AtScript d m := ⟨⟨total, hok⟩, hreach⟩
    rcases hanswer with ⟨hlive, rfl, hstream⟩ | ⟨hnew, hroom, id, price, seat, rfl, hstream⟩ |
      ⟨hnew, hroom, ⟨e, rfl⟩, hstream⟩
    · -- a duplicate: the token is consumed and the intent is the one there was
      have hanswered : ∃ o : Outcome, Except.ok (ε := SubmitError) Outcome.dup = .ok o := ⟨_, rfl⟩
      rw [owned_congr (hredis ▸ hstream) horders, iff_true_left hanswered]
      constructor
      · intro howned
        exact ⟨fun _ _ => howned, fun _ => ⟨m, hat, .inl hlive⟩⟩
      · intro hkeep
        exact hkeep.1 ⟨m, hat⟩ hlive
    · -- accepted: the intent is on the stream
      have howned : d'.Owned c.request.user c.request.event c.request.key := by
        refine .inl ⟨⟨id, c.request.intent price seat, 0⟩, ?_, rfl, rfl, rfl⟩
        rw [hredis, hstream]
        exact List.mem_append_right _ (List.mem_singleton_self _)
      refine iff_of_true (iff_of_true ⟨_, rfl⟩ howned) ⟨fun _ hlive => ?_, fun _ => ⟨m, hat, .inr hroom⟩⟩
      cases hnew.symm.trans hlive
    · -- refused by the script: the token is given back
      rw [owned_congr (hredis ▸ hstream) horders, iff_false_left (hraised e)]
      constructor
      · intro hnone
        refine ⟨fun _ hlive => ?_, fun howned => absurd howned hnone⟩
        cases hnew.symm.trans hlive
      · intro hkeep howned
        obtain ⟨m', ⟨⟨total', hok'⟩, -⟩, hlive | hroom'⟩ := hkeep.2 howned
        · cases hnew.symm.trans hlive
        · cases hok.symm.trans hok'
          exact hroom hroom'
  · -- refused before the script
    rw [owned_congr (hredis ▸ hstream) horders, iff_false_left (hraised e)]
    constructor
    · intro hnone
      refine ⟨?_, fun howned => absurd howned hnone⟩
      rintro ⟨m, ⟨total, hok⟩, hreach⟩
      exact absurd ⟨m, total, hok, hreach⟩ hnot
    · intro hkeep howned
      obtain ⟨m, ⟨⟨total, hok⟩, hreach⟩, -⟩ := hkeep.2 howned
      exact hnot ⟨m, total, hok, hreach⟩

private theorem keepsLaw_iff {a : DeskAct} (h : d.step cfg a = some d') : ¬BreaksLaw d a d' ↔ KeepsLaw cfg d a := by
  constructor
  · rintro hlaw c jti rfl hv
    refine (call_lawful_iff hv h).1 ?_
    by_contra hbad
    exact hlaw ⟨c, jti, rfl, hv, hbad⟩
  · rintro hkeep ⟨c, jti, rfl, hv, hbad⟩
    exact hbad ((call_lawful_iff hv h).2 (hkeep c jti rfl hv))

end Law

/-- In every sequence of calls that run to completion: after each call that passed `verify_admission` its
token is consumed if and only if the caller has an intent or order under the key, exactly when every call
finds a state that meets `KeepsLaw`. -/
theorem admission_consumed_iff {cfg : OrderSettings} {d d' : Desk} {acts : List DeskAct}
    (hrun : exec (Desk.step cfg) d acts = some d') :
    ¬Occurs (Desk.step cfg) BreaksLaw d acts ↔ Along (Desk.step cfg) (KeepsLaw cfg) d acts :=
  not_occurs_iff_along (C := KeepsLaw cfg) (E := BreaksLaw) (fun _ _ _ h => keepsLaw_iff h) hrun

/-- A seated order of user 8 under key 5. -/
def sampleCall : EndpointCall where
  request := sampleRequest
  payload := some (.admission 8 1 1)
  answer := some sampleMeta
  now := 5
  rest := [.readRelaxed, .read, .claim 0, .forget]

theorem admission_consumed_sample :
    ∃ d', exec (Desk.step {}) { redis := sampleRedis } [.call sampleCall] = some d' ∧ d'.used 1 = true ∧
      ¬Occurs (Desk.step {}) BreaksLaw { redis := sampleRedis } [.call sampleCall] := by
  obtain ⟨d', hrun, hp⟩ := exec_any (Desk.step {}) { redis := sampleRedis } [.call sampleCall]
    (fun d => d.used 1) (by decide +kernel)
  refine ⟨d', hrun, hp, (admission_consumed_iff hrun).2 ⟨?_, fun _ _ => trivial⟩⟩
  rintro c jti hc -
  cases hc
  refine ⟨fun _ hlive => ?_, ?_⟩
  · cases hlive
  · rintro (⟨e, he, -⟩ | ⟨o, ho, -⟩)
    · cases he
    · cases ho

/-- User 9 sends the key of user 8. -/
def foreignKey : EndpointCall where
  request := { sampleRequest with user := 9 }
  payload := some (.admission 9 1 2)
  answer := some sampleMeta
  now := 6
  rest := [.readRelaxed, .read, .claim 0]

/-- The call of user 9 is answered 202 and its token consumed, but the intent under the key is that of user 8. -/
theorem foreign_key_consumes_token :
    ∃ d d', exec (Desk.step {}) { redis := sampleRedis } [.call sampleCall] = some d ∧
      createEndpoint {} d foreignKey = some (d', .accepted) ∧ d'.used 2 = true ∧ ¬d'.Owned 9 1 5 ∧
      Occurs (Desk.step {}) BreaksLaw { redis := sampleRedis } [.call sampleCall, .call foreignKey] := by
  obtain ⟨d, hrun, hp⟩ := exec_any (Desk.step {}) { redis := sampleRedis } [.call sampleCall]
    (fun d => verifyAdmission d.used foreignKey.payload 9 1 = .ok 2 ∧
      (createEndpoint {} d foreignKey).any fun out => out.2 = .accepted ∧ out.1.used 2 = true ∧ ¬out.1.Owned 9 1 5)
    (by decide +kernel)
  rw [decide_eq_true_eq, Option.any_eq_true] at hp
  obtain ⟨hverify, ⟨d', response⟩, hout, hend⟩ := hp
  rw [decide_eq_true_eq] at hend
  obtain ⟨rfl, hused, howned⟩ := hend
  refine ⟨d, d', hrun, hout, hused, howned, ?_⟩
  obtain ⟨t, ht, hnil⟩ := exec_cons.1 hrun
  obtain rfl := Option.some.inj hnil
  have hstep : t.step {} (.call foreignKey) = some d' := by
    simp only [Desk.step, hout, Option.bind_some]
  refine ⟨t, ht, .inr ⟨d', hstep, .inl ⟨foreignKey, 2, rfl, ⟨rfl, hverify⟩, ?_⟩⟩⟩
  exact fun hlaw => howned (hlaw.1 hused)

end Ticketing
