import Ticketing.Submission

/-!
# Submitting the same order again

A client that did not get its answer sends the request again under the same key.  The counter script looks the
claim up first, so the second request is answered `DUP`.  On the seated path the claim script does the same,
but it is only reached with a placement in hand: once the zone has no anchor for the quantity, the retry of an
accepted order is told that there are no seats, and may even count as a strict miss
(`sold_out_retry_is_refused`).

`replay_dup_iff` says when the retry is harmless: for an event without a seat map always, for a seated one
exactly when the first snapshot it reads has a legal anchor under the policy it has read on entry.
-/

namespace Ticketing

open Exec

/-- Redis when a seated request reads the policy flag: its second step. -/
def Submitting.flagRead (s : Submitting) : Option Redis := s.steps[1]?.map Prod.fst

/-- Redis when a seated request reads its first snapshot: its third step. -/
def Submitting.snapshotRead (s : Submitting) : Option Redis := s.steps[2]?.map Prod.fst

/-- The snapshot of `snap` has a legal anchor for the request, under the policy that `flag` names. -/
def OrderRequest.Seatable (req : OrderRequest) (zone : ZoneId) (flag snap : Redis) : Prop :=
  ∃ state anchors, (snap.zones (req.event, zone)).parseState = some state ∧
    legalAnchors state.runs req.quantity state.geometry
      (if (flag.zones (req.event, zone)).relaxed then endgamePolicy else normalPolicy) = some anchors ∧ anchors ≠ []

/-- The request reaches its duplicate check: there is no seat map, or there is an anchor in the first snapshot. -/
def OrderRequest.ReachesDedup (req : OrderRequest) (m : EventMeta) (s : Submitting) : Prop :=
  m.venue = none ∨ ∃ zone flag snap, req.zone = some zone ∧ s.flagRead = some flag ∧ s.snapshotRead = some snap ∧
    req.Seatable zone flag snap

/-! ### One retry -/

/-- What is known of a retry under a live claim at each point of its code.  A failed one has had no anchor in
its first snapshot, and has raised or has written. -/
private inductive Retry (req : OrderRequest) (s : Submitting) : Prop where
  | begun (hp : s.phase = .begun) (hm : s.checked = none) (hsteps : s.steps = [])
  | unchecked {e : SubmitError} (hp : s.phase = .done (.error e)) (hm : s.checked = none)
  | reserving {total : Int} {m : EventMeta} {r : Redis} (hp : s.phase = .reserving total) (hm : s.checked = some m)
      (hvenue : m.venue = none) (hsteps : s.steps = [(r, r)])
  | flagging {zone : ZoneId} {total : Int} {m : EventMeta} {r : Redis} (hp : s.phase = .flagging zone total)
      (hm : s.checked = some m) (hvenue : m.venue ≠ none) (hzone : req.zone = some zone) (hsteps : s.steps = [(r, r)])
  | ready {zone : ZoneId} {total : Int} {m : EventMeta} {r flag : Redis}
      (hp : s.phase = .seating (req.seatCall flag zone total)) (hm : s.checked = some m) (hvenue : m.venue ≠ none)
      (hzone : req.zone = some zone) (hsteps : s.steps = [(r, r), (flag, flag)])
  | snapshot {zone : ZoneId} {total : Int} {m : EventMeta} {r flag snap : Redis} {state : ZoneState}
      (hp : s.phase = .seating { req.seatCall flag zone total with phase := .snapshot state })
      (hm : s.checked = some m)
      (hvenue : m.venue ≠ none) (hzone : req.zone = some zone)
      (hstate : (snap.zones (req.event, zone)).parseState = some state)
      (hsteps : s.steps = [(r, r), (flag, flag), (snap, snap)])
  | answered {m : EventMeta} (hp : s.phase = .done (.ok .dup)) (hm : s.checked = some m)
      (hreach : req.ReachesDedup m s) (hsteps : ∀ x ∈ s.steps, x.2 = x.1)
  | failed {m : EventMeta} (hp : s.phase ≠ .begun) (hm : s.checked = some m) (hlen : 3 ≤ s.steps.length)
      (hreach : ¬req.ReachesDedup m s) (hbad : (∃ e, s.phase = .done (.error e)) ∨ ∃ x ∈ s.steps, x.2 ≠ x.1)

section Retry

variable {cfg : OrderSettings} {req : OrderRequest} {s : Submitting} {m : EventMeta} {r' : Redis}
  {phase : SubmitPhase}

/-- Whether the duplicate check is reached is settled by the first three steps. -/
private theorem reachesDedup_concat {x : Redis × Redis} {checked : Option EventMeta} (hlen : 3 ≤ s.steps.length) :
    req.ReachesDedup m ⟨r', phase, checked, s.steps ++ [x]⟩ ↔ req.ReachesDedup m s := by
  have hflag : Submitting.flagRead ⟨r', phase, checked, s.steps ++ [x]⟩ = s.flagRead := by
    unfold Submitting.flagRead
    rw [List.getElem?_append_left (by omega)]
  have hsnap : Submitting.snapshotRead ⟨r', phase, checked, s.steps ++ [x]⟩ = s.snapshotRead := by
    unfold Submitting.snapshotRead
    rw [List.getElem?_append_left (by omega)]
  unfold OrderRequest.ReachesDedup
  rw [hflag, hsnap]

/-- What the first snapshot says, for a seated request. -/
private theorem reachesDedup_iff {zone : ZoneId} {r flag snap : Redis} {rest : List (Redis × Redis)}
    {checked : Option EventMeta} (hvenue : m.venue ≠ none) (hzone : req.zone = some zone) :
    req.ReachesDedup m ⟨r', phase, checked, (r, r) :: (flag, flag) :: (snap, snap) :: rest⟩ ↔
      req.Seatable zone flag snap := by
  constructor
  · rintro (hnone | ⟨zone', flag', snap', hz, hf, hs, hseat⟩)
    · exact absurd hnone hvenue
    · obtain rfl := Option.some.inj (hzone.symm.trans hz)
      obtain rfl := Option.some.inj hf
      obtain rfl := Option.some.inj hs
      exact hseat
  · exact fun hseat => .inr ⟨zone, flag, snap, hzone, rfl, rfl, hseat⟩

/-- A strict miss writes the counter. -/
private theorem strictMiss_ne (r : Redis) (event : EventId) (zone : ZoneId) :
    r.setZone event zone { r.zones (event, zone) with
      strictMisses := some ((r.zones (event, zone)).strictMisses.getD 0 + 1) } ≠ r := by
  intro h
  have hz := congrArg (fun r => (r.zones (event, zone)).strictMisses) h
  simp only [Redis.setZone, Function.update_self] at hz
  cases hm : (r.zones (event, zone)).strictMisses with
  | none =>
    rw [hm] at hz
    cases hz
  | some n =>
    rw [hm, Option.getD_some, Option.some.injEq] at hz
    omega

private theorem step_done {result : Except SubmitError Outcome} {a : SubmitAct} (hp : s.phase = .done result) :
    req.step cfg s.redis s.phase a = none := by
  rw [hp]
  cases a <;> rfl

private theorem again_ne_begun (call : SeatCall) : call.again ≠ .begun := by
  unfold SeatCall.again
  split <;> simp

private theorem step_ne_begun {a : SubmitAct} (h : req.step cfg s.redis s.phase a = some (r', phase)) :
    phase ≠ .begun := by
  cases OrderRequest.step_move h with
  | invalid | reserve | readRelaxed | unreadable | read | relax | finish => simp
  | validate =>
    unfold OrderRequest.path
    (repeat' split) <;> simp
  | claim hphase hsnapshot hclaim =>
    unfold SeatCall.claim at hclaim
    split at hclaim
    · cases hclaim
      simp
    · obtain ⟨pick, -, hclaim⟩ := Option.bind_eq_some_iff.1 hclaim
      split at hclaim
      · cases hclaim
        simp
      · cases hclaim
        unfold SeatCall.answer
        split <;> first | exact again_ne_begun _ | simp
  | miss hphase hsnapshot hmiss => obtain ⟨-, ⟨⟨e, rfl⟩, -⟩ | ⟨rfl, -⟩⟩ := SeatCall.miss_cases hmiss <;> simp
  | forget => exact again_ne_begun _

private theorem checked_or {a : SubmitAct} (hp : s.phase ≠ .begun)
    (h : req.step cfg s.redis s.phase a = some (r', phase)) :
    (a.checked req).or s.checked = s.checked := by
  cases a with
  | validate answer now =>
    simp only [OrderRequest.step] at h
    cases h
  | _ => rfl

private theorem Retry.validate {answer : Option EventMeta} {now : Time} (hm : s.checked = none)
    (hsteps : s.steps = []) (h : req.step cfg s.redis .begun (.validate answer now) = some (r', phase)) :
    Retry req ⟨r', phase, ((SubmitAct.validate answer now).checked req).or s.checked,
      s.steps ++ [(s.redis, r')]⟩ := by
  simp only [OrderRequest.step] at h
  cases hv : req.validate answer now with
  | error e =>
    rw [hv] at h
    cases h
    exact .unchecked rfl (by simp only [SubmitAct.checked, hv, Option.none_or, hm])
  | ok out =>
    obtain ⟨m, total⟩ := out
    rw [hv] at h
    cases h
    have hchecked : ((SubmitAct.validate answer now).checked req).or s.checked = some m := by
      simp only [SubmitAct.checked, hv, Option.some_or]
    unfold OrderRequest.path
    split
    · rename_i hvenue
      exact .reserving rfl hchecked hvenue (by rw [hsteps]; rfl)
    · rename_i hvenue
      -- a seated event without a zone has no price, so the checks have passed with one
      obtain ⟨-, price, hprice, -⟩ := priced_of_validate hv
      cases hzone : req.zone with
      | none =>
        unfold EventMeta.unitPrice at hprice
        rw [hvenue, hzone] at hprice
        cases hprice
      | some zone => exact .flagging rfl hchecked (by simp [hvenue]) hzone (by rw [hsteps]; rfl)

private theorem Retry.claim {call : SeatCall} {zone : ZoneId} {r flag snap : Redis} {state : ZoneState} {i : Nat}
    (hm : s.checked = some m) (hvenue : m.venue ≠ none) (hzone : req.zone = some zone)
    (hstate : (snap.zones (req.event, zone)).parseState = some state) (hquantity : call.quantity = req.quantity)
    (hpolicy : call.policy = if (flag.zones (req.event, zone)).relaxed then endgamePolicy else normalPolicy)
    (hkey : call.key = req.key) (hsteps : s.steps = [(r, r), (flag, flag), (snap, snap)])
    (hclaim : (s.redis.claims req.key).isSome = true) (h : call.claim cfg s.redis state i = some (r', phase)) :
    Retry req ⟨r', phase, s.checked, s.steps ++ [(s.redis, r')]⟩ := by
  rw [hsteps]
  cases hanchors : legalAnchors state.runs call.quantity state.geometry call.policy with
  | none =>
    simp only [SeatCall.claim, hanchors] at h
    cases h
    refine .failed (by simp) hm (by simp) ?_ (.inl ⟨_, rfl⟩)
    rw [List.cons_append, List.cons_append, List.cons_append, reachesDedup_iff hvenue hzone]
    rintro ⟨state', anchors, hstate', hanchors', -⟩
    obtain rfl := Option.some.inj (hstate.symm.trans hstate')
    rw [← hquantity, ← hpolicy, hanchors] at hanchors'
    cases hanchors'
  | some anchors =>
    cases hpick : (anchors.take topK)[i]? with
    | none =>
      simp only [SeatCall.claim, hanchors, hpick, Option.bind_none] at h
      cases h
    | some pick =>
      obtain ⟨host, -, -, heq⟩ := call.claim_of_anchor cfg s.redis hanchors hpick
      have hdup : claimSeats s.redis (call.claimArgs host pick cfg.maxTicketsPerUserPerEvent) = (.dup, s.redis) :=
        if_pos (by rw [← hkey] at hclaim; exact hclaim)
      rw [heq, hdup] at h
      cases h
      refine .answered rfl hm ?_ (by simp)
      rw [List.cons_append, List.cons_append, List.cons_append, reachesDedup_iff hvenue hzone]
      refine ⟨state, anchors, hstate, by rw [← hquantity, ← hpolicy, hanchors], ?_⟩
      exact List.ne_nil_of_mem (List.mem_of_mem_take (List.mem_of_getElem? hpick))

private theorem Retry.miss {call : SeatCall} {zone : ZoneId} {r flag snap : Redis} {state : ZoneState}
    (hm : s.checked = some m) (hvenue : m.venue ≠ none) (hzone : req.zone = some zone)
    (hstate : (snap.zones (req.event, zone)).parseState = some state) (hquantity : call.quantity = req.quantity)
    (hpolicy : call.policy = if (flag.zones (req.event, zone)).relaxed then endgamePolicy else normalPolicy)
    (hsteps : s.steps = [(r, r), (flag, flag), (snap, snap)]) (h : call.miss cfg s.redis state = some (r', phase)) :
    Retry req ⟨r', phase, s.checked, s.steps ++ [(s.redis, r')]⟩ := by
  obtain ⟨hempty, hcases⟩ := SeatCall.miss_cases h
  have hreach : ¬req.ReachesDedup m ⟨r', phase, s.checked, s.steps ++ [(s.redis, r')]⟩ := by
    rw [hsteps, List.cons_append, List.cons_append, List.cons_append, reachesDedup_iff hvenue hzone]
    rintro ⟨state', anchors, hstate', hanchors, hne⟩
    obtain rfl := Option.some.inj (hstate.symm.trans hstate')
    rw [← hquantity, ← hpolicy, hempty] at hanchors
    exact hne (Option.some.inj hanchors).symm
  have hlen : 3 ≤ (s.steps ++ [(s.redis, r')]).length := by simp [hsteps]
  rcases hcases with ⟨⟨e, rfl⟩, -⟩ | ⟨rfl, heq⟩
  · exact .failed (by simp) hm hlen hreach (.inl ⟨e, rfl⟩)
  · refine .failed (by simp) hm hlen hreach (.inr ⟨(s.redis, r'), ?_, ?_⟩)
    · exact List.mem_append_right _ (List.mem_singleton_self _)
    · rw [heq]
      exact strictMiss_ne s.redis call.event call.zone

private theorem Retry.own {a : SubmitAct} (hr : Retry req s) (hclaim : (s.redis.claims req.key).isSome = true)
    (h : req.step cfg s.redis s.phase a = some (r', phase)) :
    Retry req ⟨r', phase, (a.checked req).or s.checked, s.steps ++ [(s.redis, r')]⟩ := by
  cases hr with
  | begun hp hm hsteps =>
    rw [hp] at h
    cases a with
    | validate answer now => exact .validate hm hsteps h
    | _ => cases h
  | unchecked hp hm =>
    rw [step_done hp] at h
    cases h
  | @reserving total m r hp hm hvenue hsteps =>
    rw [hp] at h
    cases a with
    | reserve =>
      have hdup : reserveAndEnqueue s.redis (req.reserveArgs cfg total) = (.dup, s.redis) := if_pos hclaim
      simp only [OrderRequest.step, hdup] at h
      cases h
      exact .answered rfl hm (.inl hvenue) (by rw [hsteps]; simp)
    | _ => cases h
  | flagging hp hm hvenue hzone hsteps =>
    rw [hp] at h
    cases a with
    | readRelaxed =>
      cases h
      exact .ready rfl hm hvenue hzone (by rw [hsteps]; rfl)
    | _ => cases h
  | @ready zone total m r flag hp hm hvenue hzone hsteps =>
    rw [hp] at h
    cases a with
    | read =>
      simp only [OrderRequest.step, OrderRequest.seatCall] at h
      split at h
      · rename_i hnone
        cases h
        refine .failed (by simp) hm (by simp [hsteps]) ?_ (.inl ⟨_, rfl⟩)
        rw [hsteps, List.cons_append, List.cons_append, List.nil_append, reachesDedup_iff hvenue hzone]
        rintro ⟨state, anchors, hstate, -, -⟩
        cases hstate.symm.trans hnone
      · rename_i state hstate
        cases h
        exact .snapshot rfl hm hvenue hzone hstate (by rw [hsteps]; rfl)
    | _ => cases h
  | snapshot hp hm hvenue hzone hstate hsteps =>
    rw [hp] at h
    cases a with
    | claim i => exact .claim hm hvenue hzone hstate rfl rfl rfl hsteps hclaim h
    | miss => exact .miss hm hvenue hzone hstate rfl rfl hsteps h
    | _ => cases h
  | answered hp hm hreach hsteps =>
    rw [step_done hp] at h
    cases h
  | failed hp hm hlen hreach hbad =>
    rw [checked_or hp h]
    refine .failed (step_ne_begun h) hm (by simp; omega) (fun hr => hreach ((reachesDedup_concat hlen).1 hr)) ?_
    rcases hbad with ⟨e, he⟩ | ⟨x, hx, hne⟩
    · rw [step_done he] at h
      cases h
    · exact .inr ⟨x, List.mem_append_left _ hx, hne⟩

private theorem Retry.other (hr : Retry req s) (r : Redis) : Retry req { s with redis := r } := by
  cases hr with
  | begun hp hm hsteps => exact .begun hp hm hsteps
  | unchecked hp hm => exact .unchecked hp hm
  | reserving hp hm hvenue hsteps => exact .reserving hp hm hvenue hsteps
  | flagging hp hm hvenue hzone hsteps => exact .flagging hp hm hvenue hzone hsteps
  | ready hp hm hvenue hzone hsteps => exact .ready hp hm hvenue hzone hsteps
  | snapshot hp hm hvenue hzone hstate hsteps => exact .snapshot hp hm hvenue hzone hstate hsteps
  | answered hp hm hreach hsteps => exact .answered hp hm hreach hsteps
  | failed hp hm hlen hreach hbad => exact .failed hp hm hlen hreach hbad

/-- As long as the claim is there whenever the retry makes a step. -/
private theorem Retry.run {r : Redis} {turns : List Turn}
    (h : exec (Submitting.step cfg req) { redis := r } turns = some s)
    (hclaim : ∀ x ∈ s.steps, (x.1.claims req.key).isSome = true) : Retry req s := by
  refine exec_invariant (C := fun _ _ => True)
    (I := fun s : Submitting => (∀ x ∈ s.steps, (x.1.claims req.key).isSome = true) → Retry req s) ?_
    (fun _ => .begun rfl rfl rfl) (.of_forall fun _ _ _ => trivial) h hclaim
  intro s turn s' _ ht hi hclaim
  cases turn with
  | own a =>
    obtain ⟨⟨r', phase⟩, hout, rfl⟩ := Option.map_eq_some_iff.1 ht
    have hlive := hclaim _ (List.mem_append_right _ (List.mem_singleton_self _))
    exact (hi fun x hx => hclaim x (List.mem_append_left _ hx)).own hlive hout
  | other r =>
    obtain rfl := Option.some.inj ht
    exact (hi hclaim).other r

end Retry

/-! ### Retries of an accepted order -/

/-- A retry whose event is still on sale, under a claim that is still there, is answered `DUP` and writes
nothing exactly when it reaches its duplicate check. -/
theorem replay_dup_iff {cfg : OrderSettings} {req : OrderRequest} {r : Redis} {turns : List Turn} {s : Submitting}
    {m : EventMeta} {result : Except SubmitError Outcome}
    (hrun : exec (Submitting.step cfg req) { redis := r } turns = some s) (hdone : s.phase = .done result)
    (hsale : s.checked = some m) (hclaim : ∀ x ∈ s.steps, (x.1.claims req.key).isSome = true) :
    (result = .ok .dup ∧ ∀ x ∈ s.steps, x.2 = x.1) ↔ req.ReachesDedup m s := by
  cases Retry.run hrun hclaim with
  | unchecked hp hm => cases hm.symm.trans hsale
  | answered hp hm hreach hsteps =>
    obtain rfl := SubmitPhase.done.inj (hp.symm.trans hdone)
    obtain rfl := Option.some.inj (hm.symm.trans hsale)
    exact iff_of_true ⟨rfl, hsteps⟩ hreach
  | failed hp hm hlen hreach hbad =>
    obtain rfl := Option.some.inj (hm.symm.trans hsale)
    refine iff_of_false ?_ hreach
    rintro ⟨rfl, hsame⟩
    rcases hbad with ⟨e, he⟩ | ⟨x, hx, hne⟩
    · cases hdone.symm.trans he
    · exact hne (hsame x hx)
  | begun hp => cases hp.symm.trans hdone
  | reserving hp => cases hp.symm.trans hdone
  | flagging hp => cases hp.symm.trans hdone
  | ready hp => cases hp.symm.trans hdone
  | snapshot hp => cases hp.symm.trans hdone

/-- The four seats that are left in the sample zone. -/
def lastSeats : OrderRequest := { sampleRequest with quantity := 4 }

/-- A retry that finds no anchor. -/
def missedRetry : List Turn := [.own (.validate (some sampleMeta) 5), .own .readRelaxed, .own .read, .own .miss]

/-- The order that takes the last seats is accepted; sent again under its live claim, it is told that there
are none. -/
theorem sold_out_retry_is_refused :
    ∃ s s', exec (Submitting.step {} lastSeats) { redis := sampleRedis } firstPass = some s ∧
      s.phase = .done (.ok (.ok 1)) ∧
      exec (Submitting.step {} lastSeats) { redis := s.redis } missedRetry = some s' ∧ s'.checked.isSome = true ∧
      (∀ x ∈ s'.steps, (x.1.claims lastSeats.key).isSome = true) ∧
      s'.phase = .done (.error (.insufficientInventory 1 4 0)) := by
  obtain ⟨s, hs, hp⟩ := exec_any (Submitting.step {} lastSeats) { redis := sampleRedis } firstPass
    (fun s => s.phase.result = some (.ok (.ok 1)) ∧
      (exec (Submitting.step {} lastSeats) { redis := s.redis } missedRetry).any fun s' => s'.checked.isSome = true ∧
        (∀ x ∈ s'.steps, (x.1.claims lastSeats.key).isSome = true) ∧
        s'.phase.result = some (.error (.insufficientInventory 1 4 0))) (by decide +kernel)
  rw [decide_eq_true_eq] at hp
  obtain ⟨s', hs', hp'⟩ := exec_any _ _ _ _ hp.2
  rw [decide_eq_true_eq] at hp'
  exact ⟨s, s', hs, SubmitPhase.result_eq_some.1 hp.1, hs', hp'.1, hp'.2.1, SubmitPhase.result_eq_some.1 hp'.2.2⟩

/-- A retry that finds an anchor. -/
def seatedRetry : List Turn := [.own (.validate (some sampleMeta) 5), .own .readRelaxed, .own .read, .own (.claim 0)]

theorem seated_retry_reaches_dedup :
    ∃ s s' m, exec (Submitting.step {} sampleRequest) { redis := sampleRedis } firstPass = some s ∧
      exec (Submitting.step {} sampleRequest) { redis := s.redis } seatedRetry = some s' ∧
      s'.phase = .done (.ok .dup) ∧ s'.checked = some m ∧
      ((Except.ok (ε := SubmitError) Outcome.dup = .ok .dup ∧ ∀ x ∈ s'.steps, x.2 = x.1) ↔
        sampleRequest.ReachesDedup m s') := by
  obtain ⟨s, hs, hp⟩ := exec_any (Submitting.step {} sampleRequest) { redis := sampleRedis } firstPass
    (fun s => (exec (Submitting.step {} sampleRequest) { redis := s.redis } seatedRetry).any fun s' =>
      s'.checked.isSome = true ∧ (∀ x ∈ s'.steps, (x.1.claims sampleRequest.key).isSome = true) ∧
        s'.phase.result = some (.ok .dup)) (by decide +kernel)
  obtain ⟨s', hs', hp'⟩ := exec_any _ _ _ _ hp
  rw [decide_eq_true_eq] at hp'
  obtain ⟨m, hm⟩ := Option.isSome_iff_exists.1 hp'.1
  have hdone := SubmitPhase.result_eq_some.1 hp'.2.2
  exact ⟨s, s', m, hs, hs', hdone, hm, replay_dup_iff hs' hdone hm hp'.2.1⟩

end Ticketing
