import Ticketing.Base.Exec
import Ticketing.Submission

/-!
# One loop for two kinds of retry

`reserve_seats_and_enqueue` reads a snapshot, picks a placement and runs the claim script at most
`MAX_CAS_ATTEMPTS` times.  A pass goes on to the next one when the script answers `RETRY`, and also when its
strict miss has reached the threshold and the zone has been switched to the endgame policy.  The switch takes
its place among the passes, so a request that switches has one `RETRY` less to spend, and one that switches in
its last pass gives up without having tried the policy it has just switched to.

What others do between the steps is arbitrary.  `passes` records how each pass of the request ended.
-/

namespace Ticketing

open Exec

/-! ### Passes -/

inductive PassEnd where
  /-- The claim script was run and answered `RETRY`. -/
  | retry
  /-- The strict miss of the pass reached the threshold. -/
  | switched
  /-- The pass was the last: it raised, or the script gave another answer. -/
  | ended
deriving DecidableEq

/-- A pass of the loop: its snapshot, whether it computed under the endgame policy, and how it ended. -/
structure Pass where
  state : ZoneState
  relaxed : Bool
  ending : PassEnd

/-- The reply of the claim script to the `i`-th of the best anchors, when the pass reaches the script. -/
def SeatCall.casReply (cfg : OrderSettings) (call : SeatCall) (r : Redis) (state : ZoneState) (i : Nat) :
    Option ClaimReply :=
  (legalAnchors state.runs call.quantity state.geometry call.policy).bind fun anchors =>
    (anchors.take topK)[i]?.bind fun pick =>
      (state.runs.find? fun run => pick.insideOf run).map fun host =>
        (claimSeats r (call.claimArgs host pick cfg.maxTicketsPerUserPerEvent)).1

/-- The pass finds no placement under the strict policy although the seats are there, and its miss is the one
that switches the zone. -/
def SeatCall.ReachesThreshold (call : SeatCall) (r : Redis) (state : ZoneState) : Prop :=
  legalAnchors state.runs call.quantity state.geometry call.policy = some [] ∧ call.quantity ≤ state.remaining ∧
    call.relaxed = false ∧ strictMissThreshold ≤ (r.zones (call.event, call.zone)).strictMisses.getD 0 + 1

instance (call : SeatCall) (r : Redis) (state : ZoneState) : Decidable (call.ReachesThreshold r state) :=
  inferInstanceAs (Decidable (_ ∧ _ ∧ _ ∧ _))

/-- The anchor whose claim the turn runs. -/
def Turn.claims : Turn → Option Nat
  | .own (.claim i) => some i
  | _ => none

/-- The turn finds no anchor. -/
def Turn.misses : Turn → Bool
  | .own .miss => true
  | _ => false

/-- A running `reserve_seats_and_enqueue`; `passes` is not read. -/
structure Contending where
  redis : Redis
  phase : SubmitPhase
  passes : List Pass := []

namespace Contending

/-- The call and its snapshot, when a pass has one. -/
def snapshot (s : Contending) : Option (SeatCall × ZoneState) :=
  match s.phase with
  | .seating call =>
    match call.phase with
    | .snapshot state => some (call, state)
    | _ => none
  | _ => none

/-- The pass that a step of the request ends. -/
def pass (cfg : OrderSettings) (s : Contending) : SubmitAct → List Pass
  | .claim i => s.snapshot.elim [] fun c =>
    [⟨c.2, c.1.relaxed, if c.1.casReply cfg s.redis c.2 i = some .retry then .retry else .ended⟩]
  | .miss => s.snapshot.elim [] fun c =>
    [⟨c.2, c.1.relaxed, if c.1.ReachesThreshold s.redis c.2 then .switched else .ended⟩]
  | _ => []

def step (cfg : OrderSettings) (req : OrderRequest) (s : Contending) : Turn → Option Contending
  | .own a => (req.step cfg s.redis s.phase a).map fun out => ⟨out.1, out.2, s.passes ++ s.pass cfg a⟩
  | .other r => some { s with redis := r }

/-- The call begins: the policy flag has not been read yet. -/
def start (r : Redis) (zone : ZoneId) (total : Int) : Contending where
  redis := r
  phase := .flagging zone total

def finished (s : Contending) : Prop := s.phase.result.isSome = true

/-- The request has switched the zone itself. -/
def hasSwitched (s : Contending) : Prop := ∃ p ∈ s.passes, p.ending = .switched

/-- `SeatContention` tells of nothing but lost races, and a request that has switched the zone decides again
under the endgame policy: it does not fail with `SeatContention`, or with `NoSeatsAvailable` on a snapshot in
which that policy finds a placement. -/
structure Truthful (req : OrderRequest) (s : Contending) : Prop where
  contention : ∀ event zone n, s.phase = .done (.error (.seatContention event zone n)) →
    s.passes.length = maxCasAttempts ∧ ∀ p ∈ s.passes, p.ending = .retry
  recomputed : s.finished → ∀ before p after, s.passes = before ++ p :: after → p.ending = .switched →
    (∃ q ∈ after, q.relaxed = true) ∨ s.phase = .done (.error .valueError)
  noSeats : ∀ event zone n feasible, s.phase = .done (.error (.noSeatsAvailable event zone n feasible)) →
    s.hasSwitched →
    ∃ last, s.passes.getLast? = some last ∧
      legalAnchors last.state.runs req.quantity last.state.geometry endgamePolicy = some []

instance (s : Contending) : Decidable s.hasSwitched := inferInstanceAs (Decidable (∃ p ∈ s.passes, _))

/-- The step does not waste the last pass of a request that switches: a strict miss in the last pass does not
reach the threshold, and the last pass of a request that has switched before does not lose the race. -/
def Spared (cfg : OrderSettings) (s : Contending) (turn : Turn) : Prop :=
  ∀ c ∈ s.snapshot, c.1.attempt = maxCasAttempts →
    (turn.misses = true → ¬ c.1.ReachesThreshold s.redis c.2) ∧
      (s.hasSwitched → ∀ i ∈ turn.claims, c.1.casReply cfg s.redis c.2 i ≠ some .retry)

instance (cfg : OrderSettings) (s : Contending) (turn : Turn) : Decidable (Spared cfg s turn) :=
  inferInstanceAs (Decidable (∀ c ∈ s.snapshot, _))

end Contending

/-! ### How a pass ends -/

section PassSteps

variable {cfg : OrderSettings} {call : SeatCall} {r r' : Redis} {state : ZoneState} {phase : SubmitPhase} {i : Nat}

/-- The call is over with another answer than `SeatContention` or `NoSeatsAvailable`. -/
def SubmitPhase.settles : SubmitPhase → Bool
  | .won .. => true
  | .done (.error (.seatContention ..)) => false
  | .done (.error (.noSeatsAvailable ..)) => false
  | .done _ => true
  | _ => false

/-- A claim goes on after `RETRY`, and ends the call otherwise. -/
private theorem SeatCall.claim_ends (h : call.claim cfg r state i = some (r', phase)) :
    (call.casReply cfg r state i = some .retry ∧ phase = call.again) ∨
      call.casReply cfg r state i ≠ some .retry ∧ phase.settles = true := by
  unfold SeatCall.claim at h
  unfold SeatCall.casReply
  cases hanchors : legalAnchors state.runs call.quantity state.geometry call.policy with
  | none =>
    rw [hanchors] at h
    obtain ⟨-, rfl⟩ := Prod.mk.inj (Option.some.inj h)
    exact .inr ⟨by simp, rfl⟩
  | some anchors =>
    rw [hanchors] at h
    obtain ⟨pick, hpick, h⟩ := Option.bind_eq_some_iff.1 h
    rw [Option.bind_some, hpick, Option.bind_some]
    cases hhost : state.runs.find? fun run => pick.insideOf run with
    | none =>
      rw [hhost] at h
      obtain ⟨-, rfl⟩ := Prod.mk.inj (Option.some.inj h)
      exact .inr ⟨by simp, rfl⟩
    | some host =>
      rw [hhost] at h
      obtain ⟨-, rfl⟩ := Prod.mk.inj (Option.some.inj h)
      rw [Option.map_some]
      cases (claimSeats r (call.claimArgs host pick cfg.maxTicketsPerUserPerEvent)).1 with
      | retry => exact .inl ⟨rfl, rfl⟩
      | _ => exact .inr ⟨by simp, rfl⟩

private theorem SeatCall.noSeats_ends (cfg : OrderSettings) (call : SeatCall) (state : ZoneState) :
    ∃ e, call.noSeats cfg state = .done (.error e) ∧ ∀ event zone n, e ≠ .seatContention event zone n := by
  unfold SeatCall.noSeats
  split
  · exact ⟨_, rfl, by simp⟩
  · exact ⟨_, rfl, by simp⟩

/-- A pass without an anchor goes on when its miss reaches the threshold, and raises otherwise. -/
private theorem SeatCall.miss_ends (h : call.miss cfg r state = some (r', phase)) :
    legalAnchors state.runs call.quantity state.geometry call.policy = some [] ∧
      ((call.ReachesThreshold r state ∧ phase = .seating { call with phase := .stuck }) ∨
        ¬ call.ReachesThreshold r state ∧ ∃ e, phase = .done (.error e) ∧ ∀ event zone n,
          e ≠ .seatContention event zone n) := by
  unfold SeatCall.miss at h
  split at h
  case isFalse => cases h
  case isTrue hempty =>
    refine ⟨hempty, ?_⟩
    split at h
    case isTrue hlt =>
      obtain ⟨-, rfl⟩ := Prod.mk.inj (Option.some.inj h)
      exact .inr ⟨fun hr => absurd hr.2.1 (not_le.2 hlt), _, rfl, by simp⟩
    case isFalse hge =>
      split at h
      case isTrue hrelaxed =>
        obtain ⟨-, rfl⟩ := Prod.mk.inj (Option.some.inj h)
        exact .inr ⟨fun hr => by simp [hr.2.2.1] at hrelaxed, call.noSeats_ends cfg state⟩
      case isFalse hstrict =>
        simp only at h
        split at h
        case isTrue hfew =>
          obtain ⟨-, rfl⟩ := Prod.mk.inj (Option.some.inj h)
          exact .inr ⟨fun hr => absurd hr.2.2.2 (not_le.2 hfew), call.noSeats_ends cfg state⟩
        case isFalse hmany =>
          obtain ⟨-, rfl⟩ := Prod.mk.inj (Option.some.inj h)
          exact .inl ⟨⟨hempty, not_lt.1 hge, Bool.eq_false_of_not_eq_true hstrict, not_lt.1 hmany⟩, rfl⟩

end PassSteps

/-! ### The steps of a request -/

namespace Contending

variable {cfg : OrderSettings} {req : OrderRequest} {s s' : Contending} {turn : Turn}

/-- What a step can do to a running call. -/
inductive Move (cfg : OrderSettings) (req : OrderRequest) (s : Contending) : Turn → Contending → Prop where
  | other (r : Redis) : Move cfg req s (.other r) { s with redis := r }
  | enter {zone : ZoneId} {total : Int} {call : SeatCall} {r : Redis} (hp : s.phase = .flagging zone total)
      (hcall : call.attempt = 1 ∧ call.phase = .ready ∧ call.quantity = req.quantity) :
      Move cfg req s (.own .readRelaxed) ⟨r, .seating call, s.passes⟩
  | read {call : SeatCall} {state : ZoneState} {r : Redis} (hp : s.phase = .seating call) (hc : call.phase = .ready) :
      Move cfg req s (.own .read) ⟨r, .seating { call with phase := .snapshot state }, s.passes⟩
  | unreadable {call : SeatCall} {r : Redis} (hp : s.phase = .seating call) (hc : call.phase = .ready) :
      Move cfg req s (.own .read) ⟨r, .done (.error .valueError), s.passes⟩
  | lost {call : SeatCall} {state : ZoneState} {i : Nat} {r : Redis} (hp : s.snapshot = some (call, state))
      (hreply : call.casReply cfg s.redis state i = some .retry) :
      Move cfg req s (.own (.claim i)) ⟨r, call.again, s.passes ++ [⟨state, call.relaxed, .retry⟩]⟩
  | answered {call : SeatCall} {state : ZoneState} {i : Nat} {r : Redis} {phase : SubmitPhase}
      (hp : s.snapshot = some (call, state)) (hreply : call.casReply cfg s.redis state i ≠ some .retry)
      (hphase : phase.settles = true) :
      Move cfg req s (.own (.claim i)) ⟨r, phase, s.passes ++ [⟨state, call.relaxed, .ended⟩]⟩
  | switched {call : SeatCall} {state : ZoneState} {r : Redis} (hp : s.snapshot = some (call, state))
      (hreach : call.ReachesThreshold s.redis state) :
      Move cfg req s (.own .miss)
        ⟨r, .seating { call with phase := .stuck }, s.passes ++ [⟨state, call.relaxed, .switched⟩]⟩
  | refused {call : SeatCall} {state : ZoneState} {r : Redis} {e : SubmitError} (hp : s.snapshot = some (call, state))
      (hreach : ¬ call.ReachesThreshold s.redis state)
      (hanchors : legalAnchors state.runs call.quantity state.geometry call.policy = some [])
      (he : ∀ event zone n, e ≠ .seatContention event zone n) :
      Move cfg req s (.own .miss) ⟨r, .done (.error e), s.passes ++ [⟨state, call.relaxed, .ended⟩]⟩
  | relax {call : SeatCall} {r : Redis} (hp : s.phase = .seating call) (hc : call.phase = .stuck) :
      Move cfg req s (.own .relax) ⟨r, .seating { call with phase := .relaxing }, s.passes⟩
  | next {call : SeatCall} {r : Redis} (hp : s.phase = .seating call) (hc : call.phase = .relaxing) :
      Move cfg req s (.own .forget) ⟨r, ({ call with relaxed := true } : SeatCall).again, s.passes⟩
  | accepted {call : SeatCall} {id : StreamId} {r : Redis} (hp : s.phase = .won call id) :
      Move cfg req s (.own .forget) ⟨r, .done (.ok (.ok id)), s.passes⟩

theorem snapshot_eq_some {call : SeatCall} {state : ZoneState} :
    s.snapshot = some (call, state) ↔ s.phase = .seating call ∧ call.phase = .snapshot state := by
  unfold snapshot
  cases s.phase with
  | seating c =>
    cases hc : c.phase with
    | snapshot st =>
      simp only [hc, Option.some.injEq, Prod.mk.injEq, SubmitPhase.seating.injEq]
      constructor
      · rintro ⟨rfl, rfl⟩; exact ⟨rfl, hc⟩
      · rintro ⟨rfl, h⟩; rw [hc] at h; exact ⟨rfl, CallPhase.snapshot.inj h⟩
    | _ =>
      simp only [hc, SubmitPhase.seating.injEq, reduceCtorEq, false_iff]
      rintro ⟨rfl, h⟩
      rw [hc] at h
      cases h
  | _ => simp

/-- A call that has begun is not at one of the steps before the loop or of the other path. -/
def Begun (s : Contending) : Prop := s.phase ≠ .begun ∧ ∀ total, s.phase ≠ .reserving total

theorem step_move (hb : s.Begun) (h : s.step cfg req turn = some s') : Move cfg req s turn s' := by
  cases turn with
  | other r =>
    obtain rfl := Option.some.inj h
    exact .other r
  | own a =>
    obtain ⟨⟨r', phase'⟩, hstep, rfl⟩ := Option.map_eq_some_iff.1 h
    cases OrderRequest.step_move hstep with
    | invalid hp | validate hp => exact absurd hp hb.1
    | reserve hp => exact absurd hp (hb.2 _)
    | readRelaxed hp =>
      simp only [pass, List.append_nil]
      exact .enter hp ⟨rfl, rfl, rfl⟩
    | unreadable hp hc =>
      simp only [pass, List.append_nil]
      exact .unreadable hp hc
    | read hp hc =>
      simp only [pass, List.append_nil]
      exact .read hp hc
    | @claim call state i _ _ hp hc hclaim =>
      have hs : s.snapshot = some (call, state) := snapshot_eq_some.2 ⟨hp, hc⟩
      simp only [pass, hs, Option.elim_some]
      rcases SeatCall.claim_ends hclaim with ⟨hreply, rfl⟩ | ⟨hreply, hphase⟩
      · rw [if_pos hreply]
        exact .lost hs hreply
      · rw [if_neg hreply]
        exact .answered hs hreply hphase
    | @miss call state _ _ hp hc hmiss =>
      have hs : s.snapshot = some (call, state) := snapshot_eq_some.2 ⟨hp, hc⟩
      simp only [pass, hs, Option.elim_some]
      obtain ⟨hanchors, ⟨hreach, rfl⟩ | ⟨hreach, e, rfl, he⟩⟩ := SeatCall.miss_ends hmiss
      · rw [if_pos hreach]
        exact .switched hs hreach
      · rw [if_neg hreach]
        exact .refused hs hreach hanchors he
    | relax hp hc =>
      simp only [pass, List.append_nil]
      exact .relax hp hc
    | forget hp hc =>
      simp only [pass, List.append_nil]
      exact .next hp hc
    | finish hp =>
      simp only [pass, List.append_nil]
      exact .accepted hp

/-! ### Runs that spare the last pass -/

private theorem again_of_lt (call : SeatCall) (h : call.attempt < maxCasAttempts) :
    call.again = .seating { call with attempt := call.attempt + 1, phase := .ready } := by
  rw [SeatCall.again, SeatCall.nextAttempt, if_pos h]

private theorem again_of_ge (call : SeatCall) (h : ¬ call.attempt < maxCasAttempts) :
    call.again = .done (.error (.seatContention call.event call.zone maxCasAttempts)) := by
  rw [SeatCall.again, SeatCall.nextAttempt, if_neg h]

/-- What is known of a call in the loop and of the passes it has made. -/
structure SoundCall (req : OrderRequest) (call : SeatCall) (passes : List Pass) : Prop where
  quantity : call.quantity = req.quantity
  bound : call.attempt ≤ maxCasAttempts
  going : ∀ p ∈ passes, p.ending ≠ .ended
  fresh : (call.phase = .ready ∨ ∃ state, call.phase = .snapshot state) →
    passes.length + 1 = call.attempt ∧ ((∃ p ∈ passes, p.ending = .switched) → call.relaxed = true)
  switching : call.phase = .stuck ∨ call.phase = .relaxing → passes.length = call.attempt ∧
    call.attempt < maxCasAttempts

/-- After a switch another pass has computed under the endgame policy. -/
def RecomputedAfter (passes : List Pass) : Prop :=
  ∀ before p after, passes = before ++ p :: after → p.ending = .switched → ∃ q ∈ after, q.relaxed = true

structure Sound (req : OrderRequest) (s : Contending) : Prop where
  begun : s.Begun
  entry : ∀ zone total, s.phase = .flagging zone total → s.passes = []
  seating : ∀ call, s.phase = .seating call → SoundCall req call s.passes
  won : ∀ call id, s.phase = .won call id → RecomputedAfter s.passes
  truthful : Truthful req s

/-- The last pass of a call is made under the endgame policy if one before it has switched. -/
private theorem recomputedAfter_concat {passes : List Pass} {last : Pass} (hlast : last.ending ≠ .switched)
    (hrelaxed : (∃ p ∈ passes, p.ending = .switched) → last.relaxed = true) : RecomputedAfter (passes ++ [last]) := by
  intro before p after heq hp
  rcases List.eq_nil_or_concat after with rfl | ⟨after', q, rfl⟩
  · obtain ⟨-, rfl⟩ := List.append_inj' heq rfl |>.imp_right List.singleton_inj.1
    exact absurd hp hlast
  · have hsplit : passes ++ [last] = (before ++ p :: after') ++ [q] := by simpa using heq
    obtain ⟨rfl, hq⟩ := List.append_inj' hsplit rfl
    obtain rfl := List.singleton_inj.1 hq
    exact ⟨last, by simp, hrelaxed ⟨p, by simp, hp⟩⟩

private theorem mem_switched_concat {passes : List Pass} {last : Pass} (hlast : last.ending ≠ .switched)
    (h : ∃ p ∈ passes ++ [last], p.ending = .switched) : ∃ p ∈ passes, p.ending = .switched := by
  obtain ⟨p, hp, hsw⟩ := h
  rcases List.mem_append.1 hp with hp | hp
  · exact ⟨p, hp, hsw⟩
  · rw [List.mem_singleton.1 hp] at hsw
    exact absurd hsw hlast

/-- A call that goes on to a further pass. -/
private theorem sound_seating {r : Redis} {call : SeatCall} {passes : List Pass} (h : SoundCall req call passes) :
    Sound req ⟨r, .seating call, passes⟩ where
  begun := ⟨by simp, by simp⟩
  entry := by simp
  seating := by
    rintro call' hc
    obtain rfl := SubmitPhase.seating.inj hc
    exact h
  won := by simp
  truthful := ⟨by simp, fun hf => by simp [finished, SubmitPhase.result] at hf, by simp⟩

/-- A call that is over with an answer other than a refusal. -/
private theorem sound_settled {r : Redis} {phase : SubmitPhase} {passes : List Pass} (hphase : phase.settles = true)
    (h : RecomputedAfter passes) : Sound req ⟨r, phase, passes⟩ where
  begun := by cases phase <;> simp_all [Begun, SubmitPhase.settles]
  entry := by rintro zone total rfl; simp [SubmitPhase.settles] at hphase
  seating := by rintro call rfl; simp [SubmitPhase.settles] at hphase
  won := fun _ _ _ => h
  truthful := by
    refine ⟨?_, fun _ before p after heq hp => .inl (h before p after heq hp), ?_⟩
    · rintro event zone n rfl; simp [SubmitPhase.settles] at hphase
    · rintro event zone n feasible rfl; simp [SubmitPhase.settles] at hphase

/-- A call that has lost every race. -/
private theorem sound_contention {r : Redis} {passes : List Pass} {event : EventId} {zone : ZoneId}
    (hlen : passes.length = maxCasAttempts) (hgoing : ∀ p ∈ passes, p.ending ≠ .ended)
    (hnot : ¬ ∃ p ∈ passes, p.ending = .switched) :
    Sound req ⟨r, .done (.error (.seatContention event zone maxCasAttempts)), passes⟩ where
  begun := ⟨by simp, by simp⟩
  entry := by simp
  seating := by simp
  won := by simp
  truthful := by
    refine ⟨fun _ _ _ _ => ⟨hlen, fun p hp => ?_⟩, fun _ before p after heq hsw => ?_, by simp⟩
    · cases hend : p.ending with
      | retry => rfl
      | switched => exact absurd ⟨p, hp, hend⟩ hnot
      | ended => exact absurd hend (hgoing p hp)
    · simp only at heq
      exact absurd ⟨p, by simp [heq], hsw⟩ hnot

private theorem going_concat {passes : List Pass} {last : Pass} (h : ∀ p ∈ passes, p.ending ≠ .ended)
    (hlast : last.ending ≠ .ended) :
    ∀ p ∈ passes ++ [last], p.ending ≠ .ended := by
  intro p hp
  rcases List.mem_append.1 hp with hp | hp
  · exact h p hp
  · rwa [List.mem_singleton.1 hp]

theorem Sound.step (h : Sound req s) (hspared : Spared cfg s turn) (hstep : s.step cfg req turn = some s') :
    Sound req s' := by
  cases step_move h.begun hstep with
  | other r => exact ⟨h.begun, h.entry, h.seating, h.won, h.truthful.1, h.truthful.2, h.truthful.3⟩
  | enter hp hcall =>
    obtain ⟨hfirst, hready, hq⟩ := hcall
    rw [h.entry _ _ hp]
    refine sound_seating ⟨hq, by rw [hfirst]; decide, by simp, fun _ => ⟨by simp [hfirst], by simp⟩, ?_⟩
    rintro (hc | hc) <;> rw [hready] at hc <;> cases hc
  | read hp hc =>
    have hs := h.seating _ hp
    exact sound_seating ⟨hs.quantity, hs.bound, hs.going, fun _ => hs.fresh (.inl hc), by simp⟩
  | unreadable _ _ =>
    refine ⟨⟨by simp, by simp⟩, by simp, by simp, by simp, by simp, fun _ _ _ _ _ _ => .inr rfl, by simp⟩
  | @lost call state i r hp hreply =>
    obtain ⟨hp, hc⟩ := snapshot_eq_some.1 hp
    have hs := h.seating _ hp
    obtain ⟨hlen, hrelaxed⟩ := hs.fresh (.inr ⟨_, hc⟩)
    by_cases hlast : call.attempt < maxCasAttempts
    · rw [again_of_lt call hlast]
      refine sound_seating ⟨hs.quantity, hlast, ?_, fun _ =>
        ⟨?_, fun hsw => hrelaxed (mem_switched_concat (by simp) hsw)⟩, by simp⟩
      · exact going_concat hs.going (by simp)
      · rw [List.length_append]
        exact congrArg (· + 1) hlen
    · -- the last pass lost the race: by the condition no pass before it has switched
      have hattempt : call.attempt = maxCasAttempts := le_antisymm hs.bound (not_lt.1 hlast)
      have hnot : ¬ ∃ p ∈ s.passes, p.ending = .switched := fun hsw =>
        (hspared (call, state) (snapshot_eq_some.2 ⟨hp, hc⟩) hattempt).2 hsw i rfl hreply
      rw [again_of_ge call hlast]
      exact sound_contention (by rw [List.length_append, ← hattempt, ← hlen]; rfl) (going_concat hs.going (by simp))
        fun hsw => hnot (mem_switched_concat (by simp) hsw)
  | answered hp hreply hphase =>
    obtain ⟨hp, hc⟩ := snapshot_eq_some.1 hp
    have hs := h.seating _ hp
    exact sound_settled hphase (recomputedAfter_concat (by simp) (hs.fresh (.inr ⟨_, hc⟩)).2)
  | switched hp hreach =>
    have hnot := hspared _ hp
    obtain ⟨hp, hc⟩ := snapshot_eq_some.1 hp
    have hs := h.seating _ hp
    obtain ⟨hlen, -⟩ := hs.fresh (.inr ⟨_, hc⟩)
    refine sound_seating ⟨hs.quantity, hs.bound, going_concat hs.going (by simp), by simp, fun _ => ⟨?_, ?_⟩⟩
    · rw [List.length_append]
      exact hlen
    · exact lt_of_le_of_ne hs.bound fun heq => (hnot heq).1 rfl hreach
  | @refused call state r e hp hreach hanchors he =>
    obtain ⟨hp, hc⟩ := snapshot_eq_some.1 hp
    have hs := h.seating _ hp
    obtain ⟨-, hrelaxed⟩ := hs.fresh (.inr ⟨_, hc⟩)
    have hafter : RecomputedAfter (s.passes ++ [⟨state, call.relaxed, .ended⟩]) :=
      recomputedAfter_concat (by simp) hrelaxed
    refine ⟨⟨by simp, by simp⟩, by simp, by simp, by simp, ?_, fun _ before p after heq hsw =>
      .inl (hafter before p after heq hsw), ?_⟩
    · intro event zone n heq
      simp only [SubmitPhase.done.injEq, Except.error.injEq] at heq
      exact absurd heq (he _ _ _)
    · -- the pass that raises has computed under the endgame policy
      intro event zone n feasible _ hsw
      refine ⟨_, List.getLast?_concat, ?_⟩
      have hendgame : call.policy = endgamePolicy := if_pos (hrelaxed (mem_switched_concat (by simp) hsw))
      rw [← hs.quantity, ← hendgame]
      exact hanchors
  | relax hp hc =>
    have hs := h.seating _ hp
    exact sound_seating ⟨hs.quantity, hs.bound, hs.going, by simp, fun _ => hs.switching (.inl hc)⟩
  | @next call r hp hc =>
    have hs := h.seating _ hp
    obtain ⟨hlen, hlt⟩ := hs.switching (.inr hc)
    rw [again_of_lt { call with relaxed := true } hlt]
    exact sound_seating ⟨hs.quantity, hlt, hs.going, fun _ => ⟨by rw [hlen], fun _ => rfl⟩, by simp⟩
  | accepted hp =>
    exact sound_settled rfl (h.won _ _ hp)

theorem sound_start (r : Redis) (zone : ZoneId) (total : Int) : Sound req (start r zone total) where
  begun := ⟨by simp [start], by simp [start]⟩
  entry _ _ _ := rfl
  seating := by simp [start]
  won := by simp [start]
  truthful := ⟨by simp [start], fun hf => by simp [finished, start, SubmitPhase.result] at hf, by simp [start]⟩

/-! ### Runs that do not -/

/-- The request has switched the zone and is bound to give up, or has given up. -/
structure Doomed (s : Contending) : Prop where
  switched : s.hasSwitched
  phase : (∃ call, s.phase = .seating call ∧ call.attempt = maxCasAttempts ∧
    (call.phase = .stuck ∨ call.phase = .relaxing)) ∨
    ∃ event zone n, s.phase = .done (.error (.seatContention event zone n))

private theorem hasSwitched_concat {r : Redis} {phase : SubmitPhase} {last : Pass} (h : s.hasSwitched) :
    hasSwitched ⟨r, phase, s.passes ++ [last]⟩ := by
  obtain ⟨p, hp, hsw⟩ := h
  exact ⟨p, List.mem_append_left _ hp, hsw⟩

theorem Doomed.step (h : Doomed s) (hstep : s.step cfg req turn = some s') : Doomed s' := by
  have hb : s.Begun := by
    rcases h.phase with ⟨call, hp, -⟩ | ⟨_, _, _, hp⟩ <;> exact ⟨by simp [hp], by simp [hp]⟩
  have hcall : ∀ call, s.phase = .seating call →
      call.attempt = maxCasAttempts ∧ (call.phase = .stuck ∨ call.phase = .relaxing) := by
    intro call hp
    rcases h.phase with ⟨call', hp', hcall'⟩ | ⟨_, _, _, hp'⟩
    · obtain rfl := SubmitPhase.seating.inj (hp.symm.trans hp')
      exact hcall'
    · cases hp.symm.trans hp'
  -- the only steps left are the two that follow the miss
  have hready : ∀ call, s.phase = .seating call → call.phase ≠ .ready := by
    intro call hp hc
    rcases (hcall call hp).2 with hc' | hc' <;> cases hc.symm.trans hc'
  have hnone : ∀ c, s.snapshot ≠ some c := by
    rintro ⟨call, state⟩ hs
    obtain ⟨hp, hc⟩ := snapshot_eq_some.1 hs
    rcases (hcall call hp).2 with hc' | hc' <;> cases hc.symm.trans hc'
  cases step_move hb hstep with
  | other r => exact ⟨h.switched, h.phase⟩
  | lost hs _ => exact absurd hs (hnone _)
  | answered hs _ _ => exact absurd hs (hnone _)
  | switched hs _ => exact absurd hs (hnone _)
  | refused hs _ _ _ => exact absurd hs (hnone _)
  | enter hp _ => rcases h.phase with ⟨call', hp', -⟩ | ⟨_, _, _, hp'⟩ <;> cases hp.symm.trans hp'
  | accepted hp => rcases h.phase with ⟨call', hp', -⟩ | ⟨_, _, _, hp'⟩ <;> cases hp.symm.trans hp'
  | read hp hc => exact absurd hc (hready _ hp)
  | unreadable hp hc => exact absurd hc (hready _ hp)
  | relax hp hc => exact ⟨h.switched, .inl ⟨_, rfl, (hcall _ hp).1, .inr rfl⟩⟩
  | @next call r hp hc =>
    refine ⟨h.switched, .inr ⟨call.event, call.zone, maxCasAttempts, ?_⟩⟩
    exact again_of_ge { call with relaxed := true } (not_lt.2 (hcall _ hp).1.ge)

/-- A step that wastes the last pass dooms the request. -/
theorem Sound.doomed (h : Sound req s) (hspared : ¬ Spared cfg s turn)
    (hstep : s.step cfg req turn = some s') : Doomed s' := by
  simp only [Spared, not_forall, not_and_or, not_not] at hspared
  obtain ⟨⟨call, state⟩, hsnap, hattempt, hwaste⟩ := hspared
  have hcall : ∀ {call' state'}, s.snapshot = some (call', state') → call' = call ∧ state' = state := fun hs =>
    Prod.mk.inj (Option.some.inj (hs.symm.trans hsnap))
  cases step_move h.begun hstep with
  | lost hp hreply =>
    obtain ⟨rfl, rfl⟩ := hcall hp
    rcases hwaste with ⟨hmiss, -⟩ | ⟨hsw, -⟩
    · cases hmiss
    · exact ⟨hasSwitched_concat hsw, .inr ⟨_, _, _, again_of_ge _ (not_lt.2 hattempt.ge)⟩⟩
  | answered hp hreply hphase =>
    obtain ⟨rfl, rfl⟩ := hcall hp
    rcases hwaste with ⟨hmiss, -⟩ | ⟨-, i, hi, hreply'⟩
    · cases hmiss
    · obtain rfl := Option.some.inj hi
      exact absurd hreply' hreply
  | switched hp hreach =>
    obtain ⟨rfl, rfl⟩ := hcall hp
    exact ⟨⟨_, List.mem_append_right _ (List.mem_singleton.2 rfl), rfl⟩, .inl ⟨_, rfl, hattempt, .inl rfl⟩⟩
  | refused hp hreach hanchors he =>
    obtain ⟨rfl, rfl⟩ := hcall hp
    rcases hwaste with ⟨-, hreach'⟩ | ⟨-, i, hi, -⟩
    · exact absurd hreach' hreach
    · cases hi
  | _ =>
    rcases hwaste with ⟨hmiss, -⟩ | ⟨-, i, hi, -⟩
    · cases hmiss
    · cases hi

/-- A doomed request that is over has given up, although one of its passes was no lost race. -/
theorem Doomed.not_truthful (h : Doomed s) (hf : s.finished) : ¬ Truthful req s := by
  intro ht
  rcases h.phase with ⟨call, hp, -⟩ | ⟨event, zone, n, hp⟩
  · simp [finished, hp, SubmitPhase.result] at hf
  · obtain ⟨p, hp', hsw⟩ := h.switched
    rw [(ht.contention event zone n hp).2 p hp'] at hsw
    cases hsw

/-- Whatever others do between the steps of a call, its outcome is truthful as long as no step wastes the last
pass of a request that switches the zone; and a finished call with such a step is not truthful. -/
theorem contention_truthful_iff_spared {cfg : OrderSettings} {req : OrderRequest} {r : Redis}
    {zone : ZoneId} {total : Int}
    {turns : List Turn} {s : Contending} (hrun : exec (Contending.step cfg req) (start r zone total) turns = some s) :
    (Along (Contending.step cfg req) (Spared cfg) (start r zone total) turns → Truthful req s) ∧
      (s.finished → (Truthful req s ↔ Along (Contending.step cfg req) (Spared cfg) (start r zone total) turns)) := by
  have hgood : Along (Contending.step cfg req) (Spared cfg) (start r zone total) turns →
    Truthful req s := fun hspared =>
    (exec_invariant (I := Sound req) (fun _ _ _ hC hst hI => hI.step hC hst)
      (sound_start r zone total) hspared hrun).truthful
  -- up to any point the run has spared the last pass, or the request is doomed
  have hhist : (Along (Contending.step cfg req) (Spared cfg) (start r zone total) turns ∧ Sound req s) ∨
      Doomed s := by
    refine exec_history (C := fun _ _ => True) (J := fun turns s =>
      (Along (Contending.step cfg req) (Spared cfg) (start r zone total) turns ∧ Sound req s) ∨ Doomed s)
      (.inl ⟨trivial, sound_start r zone total⟩) ?_ (Along.of_forall fun _ _ _ => trivial) hrun
    rintro turns t turn t' ht - hstep (⟨halong, hsound⟩ | hdoomed)
    · by_cases hC : Spared cfg t turn
      · refine .inl ⟨halong.append fun t'' ht'' => ?_, hsound.step hC hstep⟩
        obtain rfl := Option.some.inj (ht.symm.trans ht'')
        exact ⟨hC, fun _ _ => trivial⟩
      · exact .inr (hsound.doomed hC hstep)
    · exact .inr (hdoomed.step hstep)
  refine ⟨hgood, fun hf => ⟨fun ht => ?_, hgood⟩⟩
  rcases hhist with ⟨halong, -⟩ | hdoomed
  · exact halong
  · exact absurd ht (hdoomed.not_truthful hf)

/-! ### Samples -/

/-- Redis with one block of six seats, in which the given run is free, after two strict misses. -/
private def oneRun (length : Int) : Redis :=
  { sampleRedis with
    zones := fun k => if k = (1, 1) then
      { runs := Hash.ofList [(⟨1, 0⟩, length)], ends := Hash.ofList [(⟨1, length⟩, 0)],
        geom := Hash.ofList [(1, ⟨6, 1, 1 / 2⟩)], available := some length, strictMisses := some 2 } else {} }

/-- A pass that sees six free seats; three of them are gone when its claim arrives. -/
private def lostRace : List Turn := [.other (oneRun 6), .own .read, .other (oneRun 3), .own (.claim 0)]

/-- A pass that sees three free seats, of which the strict policy sells no two. -/
private def parityTrap : List Turn := [.other (oneRun 3), .own .read, .own .miss, .own .relax, .own .forget]

private def switchThenSeats : List Turn :=
  [.own .readRelaxed] ++ parityTrap ++ [.own .read, .own (.claim 0), .own .forget]

/-- The request switches the zone in its first pass and gets two of the three seats in the second. -/
theorem contention_truthful_iff_spared_second_pass :
    ∃ s, exec (Contending.step {} sampleRequest) (start (oneRun 3) 1 100) switchThenSeats = some s ∧
      s.phase = .done (.ok (.ok 1)) ∧ s.passes.map Pass.ending = [.switched, .ended] ∧ Truthful sampleRequest s := by
  obtain ⟨s, hs, hp⟩ := exec_any (Contending.step {} sampleRequest) (start (oneRun 3) 1 100) switchThenSeats
    (fun s => s.phase.result = some (.ok (.ok 1)) ∧ s.passes.map Pass.ending = [.switched, .ended])
    (by decide +kernel)
  rw [decide_eq_true_eq, SubmitPhase.result_eq_some] at hp
  exact ⟨s, hs, hp.1, hp.2, (contention_truthful_iff_spared hs).1 (.of_check (by decide +kernel))⟩

private def switchInLastPass : List Turn :=
  [.own .readRelaxed] ++ lostRace ++ lostRace ++ lostRace ++ lostRace ++ parityTrap

/-- Four lost races and then a strict miss that reaches the threshold: the request raises `SeatContention`
although it has lost only four races, and although the endgame policy, to which it has just switched, finds a
placement in the snapshot it has read. -/
theorem contention_after_switch_in_last_pass :
    ∃ s, exec (Contending.step {} sampleRequest) (start (oneRun 6) 1 100) switchInLastPass = some s ∧
      s.phase = .done (.error (.seatContention 1 1 maxCasAttempts)) ∧
      s.passes.map Pass.ending = [.retry, .retry, .retry, .retry, .switched] ∧
      (∃ last, s.passes.getLast? = some last ∧
        legalAnchors last.state.runs sampleRequest.quantity last.state.geometry endgamePolicy ≠ some []) ∧
      ¬ Truthful sampleRequest s := by
  obtain ⟨s, hs, hp⟩ := exec_any (Contending.step {} sampleRequest) (start (oneRun 6) 1 100) switchInLastPass
    (fun s => s.phase.result = some (.error (.seatContention 1 1 maxCasAttempts)) ∧
      s.passes.map Pass.ending = [.retry, .retry, .retry, .retry, .switched] ∧
      s.passes.getLast?.any fun p => decide
        (legalAnchors p.state.runs sampleRequest.quantity p.state.geometry endgamePolicy ≠ some []))
          (by decide +kernel)
  rw [decide_eq_true_eq, SubmitPhase.result_eq_some] at hp
  obtain ⟨hphase, hends, hlast⟩ := hp
  obtain ⟨last, hlast, hanchors⟩ := (Option.any_eq_true _ _).1 hlast
  refine ⟨s, hs, hphase, hends, ⟨last, hlast, of_decide_eq_true hanchors⟩, fun ht => ?_⟩
  have hretry := (ht.contention 1 1 _ hphase).2
  have hmem : PassEnd.switched ∈ s.passes.map Pass.ending := by simp [hends]
  obtain ⟨p, hp, hsw⟩ := List.mem_map.1 hmem
  cases (hretry p hp).symm.trans hsw

end Contending

end Ticketing
