import Mathlib.Algebra.Order.Floor.Ring
import Mathlib.Data.Rat.Floor
import Ticketing.Admission

/-!
# One admission token over time

The calls of `create_endpoint` that bear one token, at any times and in any interleaving: `jwt.decode`, the
lifetime computed for the marker, the `SET NX EX`, the steps of `submit_order` and the refund are separate
steps, and the clock moves between them.  Times are those of any ordered ring with a floor; `exp` is a whole
number of seconds.

The marker is given `max(1, int(exp - now))` seconds.  The truncation makes it end up to a second before the
token does, and a call that comes in between is let in again (`truncated_marker_sells_twice`).
`one_token_one_order` says that this is the only way: as long as no call sets the marker after the end of that
of a use which still counts, the token gives one intent.
-/

namespace Ticketing

open Exec

/-! ### Steps of a submission and the stream -/

/-- The script has accepted the request. -/
def SubmitPhase.accepted : SubmitPhase → Bool
  | .won _ _ => true
  | .done (.ok (.ok _)) => true
  | _ => false

/-- The submission has appended its intent, or may still do so, or is about to give the token back. -/
def SubmitPhase.counts : SubmitPhase → Bool
  | .done (.ok .dup) => false
  | .done (.error e) => e.isDomain
  | _ => true

theorem SubmitPhase.counts_of_accepted {phase : SubmitPhase} (h : phase.accepted = true) : phase.counts = true := by
  cases phase with
  | done result =>
    cases result with
    | error e => cases h
    | ok o =>
      cases o with
      | dup => cases h
      | ok id => rfl
  | _ => rfl

section Step

variable {cfg : OrderSettings} {req : OrderRequest} {r r' : Redis} {phase phase' : SubmitPhase}

private theorem stream_claim {call : SeatCall} {state : ZoneState} {i : Nat}
    (h : call.claim cfg r state i = some (r', phase')) : r'.stream = r.stream ∨ phase'.accepted = true := by
  unfold SeatCall.claim at h
  split at h
  · cases h
    exact .inl rfl
  · obtain ⟨pick, -, h⟩ := Option.bind_eq_some_iff.1 h
    split at h
    · cases h
      exact .inl rfl
    · rename_i host _
      cases h
      rcases claimSeats_cases r (call.claimArgs host pick cfg.maxTicketsPerUserPerEvent) with ⟨heq, -⟩ | ⟨hsame, -⟩
      · rw [heq]
        exact .inr rfl
      · rw [hsame]
        exact .inl rfl

/-- A step appends to the stream only when the script accepts the request, and an accepted request stays accepted. -/
theorem OrderRequest.step_accepted {a : SubmitAct} (h : req.step cfg r phase a = some (r', phase')) :
    phase.counts = true ∧
      ((r'.stream = r.stream ∧ (phase.accepted = true → phase'.accepted = true)) ∨
        (phase.accepted = false ∧ phase'.accepted = true)) := by
  cases OrderRequest.step_move h with
  | invalid hphase | validate hphase | readRelaxed hphase | unreadable hphase | read hphase | relax hphase
      | forget hphase =>
    subst hphase
    exact ⟨rfl, .inl ⟨rfl, by rintro ⟨⟩⟩⟩
  | @reserve total hphase =>
    subst hphase
    refine ⟨rfl, ?_⟩
    rcases reserveAndEnqueue_cases r (req.reserveArgs cfg total) with ⟨id, rem, heq, -⟩ | ⟨hsame, -⟩
    · rw [heq]
      exact .inr ⟨rfl, rfl⟩
    · rw [hsame]
      exact .inl ⟨rfl, by rintro ⟨⟩⟩
  | claim hphase hsnapshot hclaim =>
    subst hphase
    refine ⟨rfl, ?_⟩
    rcases stream_claim hclaim with hsame | hacc
    · exact .inl ⟨hsame, by rintro ⟨⟩⟩
    · exact .inr ⟨rfl, hacc⟩
  | miss hphase hsnapshot hmiss =>
    subst hphase
    refine ⟨rfl, .inl ⟨?_, by rintro ⟨⟩⟩⟩
    obtain ⟨-, ⟨-, zones, -, rfl⟩ | ⟨-, rfl⟩⟩ := SeatCall.miss_cases hmiss
    · rfl
    · rfl
  | finish hphase =>
    subst hphase
    exact ⟨rfl, .inl ⟨rfl, fun _ => rfl⟩⟩

end Step

/-! ### The uses of one token -/

/-- The admission token of `create_admission_token`; `exp` is in seconds. -/
structure AdmissionToken where
  sub : UserId
  event : EventId
  jti : Jti
  exp : ℤ

/-- A call that bears the token: the point `create_endpoint` has reached. -/
inductive UsePhase (T : Type*) where
  | arrived
  /-- `jwt.decode` has accepted the token, and it is for this user and event. -/
  | decoded
  /-- The lifetime of the marker is computed. -/
  | stamped (ttl : ℤ)
  /-- Let in.  The marker it has set ends at `stop`. -/
  | admitted (stop : T) (phase : SubmitPhase)
  /-- Denied, or refused and refunded. -/
  | closed

structure Use (T : Type*) where
  request : OrderRequest
  phase : UsePhase T := .arrived

/-- The clock, Redis, the end of `admission_used:{jti}`, and the calls.  `created` records which call appended
each intent. -/
structure Uses (T : Type*) where
  now : T
  redis : Redis
  marker : Option T := none
  calls : Nat → Option (Use T) := fun _ => none
  created : List Nat := []

inductive UseAct (T : Type*) where
  | tick (now : T)
  /-- Others change Redis; the marker is only written by the calls. -/
  | elsewhere (redis : Redis)
  | arrive (c : Nat) (request : OrderRequest)
  | decode (c : Nat)
  | stamp (c : Nat)
  | setnx (c : Nat)
  | submit (c : Nat) (a : SubmitAct)
  /-- `refund_admission` after a domain error. -/
  | refund (c : Nat)

namespace Uses

variable {T : Type*}

def setCall (s : Uses T) (c : Nat) (request : OrderRequest) (phase : UsePhase T) : Uses T :=
  { s with calls := Function.update s.calls c (some ⟨request, phase⟩) }

/-- The use of call `c` counts, and its marker ends at `stop`. -/
def Counts (s : Uses T) (c : Nat) (stop : T) : Prop :=
  ∃ use phase, s.calls c = some use ∧ use.phase = .admitted stop phase ∧ phase.counts = true

/-- Call `c` has created an intent. -/
def Accepted (s : Uses T) (c : Nat) : Prop :=
  ∃ use stop phase, s.calls c = some use ∧ use.phase = .admitted stop phase ∧ phase.accepted = true

/-- At most one use counts, the marker is its own, and an intent is that of a use which counts. -/
structure SingleUse (s : Uses T) : Prop where
  marker : ∀ {c stop}, s.Counts c stop → s.marker = some stop
  unique : ∀ {c c' stop stop'}, s.Counts c stop → s.Counts c' stop' → c = c'
  created : ∀ c ∈ s.created, s.Accepted c
  length : s.created.length ≤ 1

variable {s : Uses T} {c : Nat}

theorem Accepted.counts (h : s.Accepted c) : ∃ stop, s.Counts c stop := by
  obtain ⟨use, stop, phase, hcall, hphase, hacc⟩ := h
  exact ⟨stop, use, phase, hcall, hphase, SubmitPhase.counts_of_accepted hacc⟩

theorem counts_setCall {request : OrderRequest} {phase : UsePhase T} {c' : Nat} {stop : T} :
    (s.setCall c request phase).Counts c' stop ↔
      (c' = c ∧ ∃ p, phase = .admitted stop p ∧ p.counts = true) ∨ (c' ≠ c ∧ s.Counts c' stop) := by
  by_cases h : c' = c
  · subst h
    simp [Counts, setCall]
  · simp [Counts, setCall, h]

theorem accepted_setCall {request : OrderRequest} {phase : UsePhase T} {c' : Nat} :
    (s.setCall c request phase).Accepted c' ↔
      (c' = c ∧ ∃ stop p, phase = .admitted stop p ∧ p.accepted = true) ∨ (c' ≠ c ∧ s.Accepted c') := by
  by_cases h : c' = c
  · subst h
    simp [Accepted, setCall]
  · simp [Accepted, setCall, h]

theorem SingleUse.start (now : T) (redis : Redis) : SingleUse { now, redis } := by
  refine ⟨?_, ?_, by simp, Nat.zero_le _⟩
  · rintro c stop ⟨use, phase, hcall, -⟩
    cases hcall
  · rintro c c' stop stop' ⟨use, phase, hcall, -⟩
    cases hcall

/-- Whether a call that is let in has created an intent is told by its submission. -/
private theorem accepted_iff {use : Use T} {stop : T} {phase : SubmitPhase} (hcall : s.calls c = some use)
    (hphase : use.phase = .admitted stop phase) : s.Accepted c ↔ phase.accepted = true := by
  constructor
  · rintro ⟨use', stop', p, hu, hp, hacc⟩
    obtain rfl := Option.some.inj (hcall.symm.trans hu)
    obtain ⟨-, rfl⟩ := UsePhase.admitted.inj (hphase.symm.trans hp)
    exact hacc
  · exact fun hacc => ⟨use, stop, phase, hcall, hphase, hacc⟩

private theorem not_accepted {use : Use T} (hcall : s.calls c = some use)
    (h : ∀ stop p, use.phase ≠ .admitted stop p) :
    ¬s.Accepted c := by
  rintro ⟨use', stop, p, hu, hp, -⟩
  obtain rfl := Option.some.inj (hcall.symm.trans hu)
  exact h stop p hp

/-- A call that is not let in, before and after its step, moves nothing that counts. -/
private theorem SingleUse.setCall {phase : UsePhase T} (h : SingleUse s) (hcall : ¬s.Accepted c)
    (hphase : ∀ stop p, phase ≠ .admitted stop p) (request : OrderRequest) :
    SingleUse (s.setCall c request phase) := by
  have hcounts : ∀ {c' stop}, (s.setCall c request phase).Counts c' stop → s.Counts c' stop := by
    intro c' stop hc
    rcases counts_setCall.1 hc with ⟨-, p, hp, -⟩ | ⟨-, hc⟩
    · exact absurd hp (hphase stop p)
    · exact hc
  refine ⟨fun hc => h.marker (hcounts hc), fun hc hc' => h.unique (hcounts hc) (hcounts hc'),
    fun c' hc' => ?_, h.length⟩
  have hacc := h.created c' hc'
  refine accepted_setCall.2 (.inr ⟨?_, hacc⟩)
  rintro rfl
  exact hcall hacc

/-- A use that has not been counted is let in when no other counts. -/
private theorem SingleUse.admit {request : OrderRequest} {stop : T} (h : SingleUse s)
    (hnone : ∀ c' stop', ¬s.Counts c' stop') :
    SingleUse { s.setCall c request (.admitted stop .begun) with marker := some stop } := by
  have hcounts : ∀ {c' stop'}, (s.setCall c request (.admitted stop .begun)).Counts c' stop' → c' = c ∧
      stop = stop' := by
    intro c' stop' hc
    rcases counts_setCall.1 hc with ⟨rfl, p, hp, -⟩ | ⟨-, hc⟩
    · exact ⟨rfl, (UsePhase.admitted.inj hp).1⟩
    · exact absurd hc (hnone c' stop')
  refine ⟨fun hc => congrArg some (hcounts hc).2, fun hc hc' => (hcounts hc).1.trans
    (hcounts hc').1.symm, ?_, h.length⟩
  intro c' hc'
  obtain ⟨stop', hc⟩ := (h.created c' hc').counts
  exact absurd hc (hnone c' stop')

/-- A step of a submission that counts: it appends an intent only if there was none. -/
private theorem SingleUse.submit {cfg : OrderSettings} {use : Use T} {stop : T} {phase phase' : SubmitPhase}
    {a : SubmitAct}
    {r' : Redis} (h : SingleUse s) (hcall : s.calls c = some use) (hphase : use.phase = .admitted stop phase)
    (hstep : use.request.step cfg s.redis phase a = some (r', phase')) :
    SingleUse
      { s.setCall c use.request (.admitted stop phase') with
        redis := r'
        created := if r'.stream = s.redis.stream then s.created else s.created ++ [c] } := by
  obtain ⟨hbefore, haccepted⟩ := OrderRequest.step_accepted hstep
  have hown : s.Counts c stop := ⟨use, phase, hcall, hphase, hbefore⟩
  have hcounts : ∀ {c' stop'}, (s.setCall c use.request (.admitted stop phase')).Counts c' stop' →
      s.Counts c' stop' := by
    intro c' stop' hc
    rcases counts_setCall.1 hc with ⟨rfl, p, hp, -⟩ | ⟨-, hc⟩
    · rwa [← (UsePhase.admitted.inj hp).1]
    · exact hc
  -- who has an intent before is this call, and the call keeps it
  have hkeep : (phase.accepted = true → phase'.accepted = true) →
      ∀ c' ∈ s.created, (s.setCall c use.request (.admitted stop phase')).Accepted c' := by
    intro hmono c' hc'
    by_cases hne : c' = c
    · subst hne
      have hacc := (accepted_iff hcall hphase).1 (h.created c' hc')
      exact accepted_setCall.2 (.inl ⟨rfl, stop, phase', rfl, hmono hacc⟩)
    · exact accepted_setCall.2 (.inr ⟨hne, h.created c' hc'⟩)
  rcases haccepted with ⟨hstream, hmono⟩ | ⟨hfresh, hacc⟩
  · rw [if_pos hstream]
    exact ⟨fun hc => h.marker (hcounts hc), fun hc hc' => h.unique (hcounts hc) (hcounts hc'), hkeep hmono, h.length⟩
  · -- the first intent: any other would be that of a second use that counts
    have hnil : s.created = [] := by
      refine List.eq_nil_iff_forall_not_mem.2 fun c' hc' => ?_
      obtain ⟨stop', hc⟩ := (h.created c' hc').counts
      obtain rfl := h.unique hown hc
      cases hfresh.symm.trans ((accepted_iff hcall hphase).1 (h.created c hc'))
    have hlast : (s.setCall c use.request (.admitted stop phase')).Accepted c :=
      accepted_setCall.2 (.inl ⟨rfl, stop, phase', rfl, hacc⟩)
    refine ⟨fun hc => h.marker (hcounts hc), fun hc hc' => h.unique (hcounts hc) (hcounts hc'), ?_, ?_⟩
    · intro c' hc'
      rw [hnil] at hc'
      split at hc'
      · cases hc'
      · obtain rfl := List.mem_singleton.1 hc'
        exact hlast
    · rw [hnil]
      split
      · exact Nat.zero_le _
      · exact le_rfl

/-- A refund deletes the marker of the call itself. -/
private theorem SingleUse.refund {use : Use T} {stop : T} {e : SubmitError} (h : SingleUse s)
    (hcall : s.calls c = some use)
    (hphase : use.phase = .admitted stop (.done (.error e))) (hdomain : e.isDomain = true) :
    SingleUse { s.setCall c use.request .closed with marker := none } := by
  have hown : s.Counts c stop := ⟨use, _, hcall, hphase, hdomain⟩
  have hnone : ∀ {c' stop'}, ¬(s.setCall c use.request .closed).Counts c' stop' := by
    intro c' stop' hc
    rcases counts_setCall.1 hc with ⟨-, p, hp, -⟩ | ⟨hne, hc⟩
    · cases hp
    · exact hne (h.unique hc hown)
  refine ⟨fun hc => absurd hc hnone, fun hc => absurd hc hnone, ?_, h.length⟩
  intro c' hc'
  refine accepted_setCall.2 (.inr ⟨?_, h.created c' hc'⟩)
  rintro rfl
  cases (accepted_iff hcall hphase).1 (h.created c' hc')

end Uses

/-! ### The clock and the marker -/

section Time

variable {T : Type*} [Ring T] [LinearOrder T] [FloorRing T]

/-- `jwt.decode` accepts the token before it expires. -/
def AdmissionToken.decode (tok : AdmissionToken) (now : T) : Option TokenPayload :=
  if now < tok.exp then some (.admission tok.sub tok.event tok.jti) else none

/-- `int(x)` of a float: the fraction is cut off. -/
def pyInt (x : T) : ℤ := if 0 ≤ x then ⌊x⌋ else ⌈x⌉

/-- The lifetime of the marker, in seconds. -/
def AdmissionToken.ttl (tok : AdmissionToken) (now : T) : ℤ := max 1 (pyInt ((tok.exp : T) - now))

namespace Uses

/-- The key `admission_used:{jti}` exists. -/
def marked (s : Uses T) : Bool := s.marker.any fun stop => s.now < stop

/-- One step of one of the calls, or of the clock. -/
def step (cfg : OrderSettings) (tok : AdmissionToken) (s : Uses T) : UseAct T → Option (Uses T)
  | .tick now => if s.now ≤ now then some { s with now } else none
  | .elsewhere redis => some { s with redis }
  | .arrive c request => if (s.calls c).isNone then some (s.setCall c request .arrived) else none
  | .decode c =>
    (s.calls c).bind fun use =>
      match use.phase with
      | .arrived =>
        match checkAdmission (tok.decode s.now) use.request.user use.request.event with
        | .error _ => some (s.setCall c use.request .closed)
        | .ok _ => some (s.setCall c use.request .decoded)
      | _ => none
  | .stamp c =>
    (s.calls c).bind fun use =>
      match use.phase with
      | .decoded => some (s.setCall c use.request (.stamped (tok.ttl s.now)))
      | _ => none
  | .setnx c =>
    (s.calls c).bind fun use =>
      match use.phase with
      | .stamped ttl =>
        if s.marked then some (s.setCall c use.request .closed)
        else some { s.setCall c use.request (.admitted (s.now + ttl) .begun) with marker := some (s.now + ttl) }
      | _ => none
  | .submit c a =>
    (s.calls c).bind fun use =>
      match use.phase with
      | .admitted stop phase =>
        (use.request.step cfg s.redis phase a).map fun out =>
          { s.setCall c use.request (.admitted stop out.2) with
            redis := out.1
            created := if out.1.stream = s.redis.stream then s.created else s.created ++ [c] }
      | _ => none
  | .refund c =>
    (s.calls c).bind fun use =>
      match use.phase with
      | .admitted _ (.done (.error e)) =>
        if e.isDomain then some { s.setCall c use.request .closed with marker := none } else none
      | _ => none

/-- No call gets to `SET NX` after the end of the marker of a use that counts. -/
def Covered (s : Uses T) (a : UseAct T) : Prop :=
  ∀ c c' stop, a = .setnx c → s.Counts c' stop → s.now < stop

variable {cfg : OrderSettings} {tok : AdmissionToken} {s s' : Uses T}

theorem SingleUse.step {a : UseAct T} (h : SingleUse s) (hcovered : s.Covered a)
    (hstep : s.step cfg tok a = some s') :
    SingleUse s' := by
  cases a with
  | tick now =>
    simp only [Uses.step] at hstep
    split at hstep
    · cases hstep
      exact ⟨h.marker, h.unique, h.created, h.length⟩
    · cases hstep
  | elsewhere redis =>
    cases hstep
    exact ⟨h.marker, h.unique, h.created, h.length⟩
  | arrive c request =>
    simp only [Uses.step] at hstep
    split at hstep
    · rename_i hfree
      cases hstep
      refine h.setCall ?_ (by simp) request
      rintro ⟨use, stop, p, hu, -⟩
      rw [hu] at hfree
      cases hfree
    · cases hstep
  | decode c =>
    obtain ⟨use, hcall, hstep⟩ := Option.bind_eq_some_iff.1 hstep
    split at hstep
    · rename_i hphase
      have hout := not_accepted hcall (by simp [hphase])
      split at hstep
      · cases hstep
        exact h.setCall hout (by simp) _
      · cases hstep
        exact h.setCall hout (by simp) _
    · cases hstep
  | stamp c =>
    obtain ⟨use, hcall, hstep⟩ := Option.bind_eq_some_iff.1 hstep
    split at hstep
    · rename_i hphase
      cases hstep
      exact h.setCall (not_accepted hcall (by simp [hphase])) (by simp) _
    · cases hstep
  | setnx c =>
    obtain ⟨use, hcall, hstep⟩ := Option.bind_eq_some_iff.1 hstep
    split at hstep
    · rename_i ttl hphase
      split at hstep
      · cases hstep
        exact h.setCall (not_accepted hcall (by simp [hphase])) (by simp) _
      · rename_i hfree
        cases hstep
        -- a use that counts would have its marker, which has not ended
        refine h.admit fun c' stop' hc => hfree ?_
        unfold Uses.marked
        rw [h.marker hc]
        exact decide_eq_true (hcovered c c' stop' rfl hc)
    · cases hstep
  | submit c a =>
    obtain ⟨use, hcall, hstep⟩ := Option.bind_eq_some_iff.1 hstep
    split at hstep
    · rename_i stop phase hphase
      obtain ⟨⟨r', phase'⟩, hout, rfl⟩ := Option.map_eq_some_iff.1 hstep
      exact h.submit hcall hphase hout
    · cases hstep
  | refund c =>
    obtain ⟨use, hcall, hstep⟩ := Option.bind_eq_some_iff.1 hstep
    split at hstep
    · rename_i stop e hphase
      split at hstep
      · rename_i hdomain
        cases hstep
        exact h.refund hcall hphase hdomain
      · cases hstep
    · cases hstep

end Uses

/-- In every interleaving of calls that bear one token: at most one intent is created, as long as no call gets
to `SET NX` after the end of the marker of a use that counts. -/
theorem one_token_one_order {cfg : OrderSettings} {tok : AdmissionToken} {now : T} {redis : Redis}
    {acts : List (UseAct T)} {s : Uses T} (hrun : exec (Uses.step cfg tok) { now, redis } acts = some s)
    (hcovered : Along (Uses.step cfg tok) Uses.Covered { now, redis } acts) : s.created.length ≤ 1 := by
  have hend : s.SingleUse :=
    exec_invariant (I := Uses.SingleUse) (fun _ _ _ hC ht hI => hI.step hC ht) (.start now redis) hcovered hrun
  exact hend.length

/-- While the marker of the last use lasts, every step is covered. -/
theorem Uses.along_covered {cfg : OrderSettings} {tok : AdmissionToken} {s : Uses T} {acts : List (UseAct T)}
    (hs : SingleUse s) (h : Along (Uses.step cfg tok) (fun s _ => ∀ stop ∈ s.marker, s.now < stop) s acts) :
    Along (Uses.step cfg tok) Uses.Covered s acts := by
  have hcovered : ∀ (s : Uses T) (a : UseAct T), SingleUse s → (∀ stop ∈ s.marker, s.now < stop) → s.Covered a :=
    fun s a hs hlive _ _ stop _ hc => hlive stop (hs.marker hc)
  exact Along.of_invariant (fun s a _ hlive ht hs => hs.step (hcovered s a hs hlive) ht) hcovered hs h

end Time

/-- A token of user 8 for event 1 that expires at second 10. -/
def sampleToken : AdmissionToken := { sub := 8, event := 1, jti := 1, exp := 10 }

/-- A call up to its `SET NX`. -/
def verifying (c : Nat) (request : OrderRequest) : List (UseAct ℚ) :=
  [.arrive c request, .decode c, .stamp c, .setnx c]

/-- A seated submission that gets its seats in the first pass. -/
def seating (c : Nat) : List (UseAct ℚ) :=
  [.submit c (.validate (some sampleMeta) 5), .submit c .readRelaxed, .submit c .read, .submit c (.claim 0),
    .submit c .forget]

/-- One order under key 5, and a second call with key 6 a quarter of a second before the token expires. -/
def twoCalls : List (UseAct ℚ) :=
  verifying 0 sampleRequest ++ seating 0 ++ .tick (39 / 4) :: verifying 1 { sampleRequest with key := 6 }

/-- When the first call is nine seconds before the end of the token, its marker lasts as long and the second
is denied. -/
theorem one_token_one_order_sample :
    ∃ s, exec (Uses.step {} sampleToken) { now := (1 : ℚ), redis := sampleRedis } twoCalls = some s ∧
      s.created = [0] ∧ s.created.length ≤ 1 := by
  obtain ⟨s, hrun, hp⟩ := exec_any (Uses.step {} sampleToken) { now := (1 : ℚ), redis := sampleRedis } twoCalls
    (fun s => s.created = [0]) (by decide +kernel)
  rw [decide_eq_true_eq] at hp
  refine ⟨s, hrun, hp, one_token_one_order hrun (Uses.along_covered (.start 1 sampleRedis) (Along.of_check ?_))⟩
  decide +kernel

/-- When it is nine and a half seconds before the end of the token, its marker lasts nine: the second call
comes after the marker and before the end of the token, is let in and creates a second intent. -/
theorem truncated_marker_sells_twice :
    ∃ s, exec (Uses.step {} sampleToken) { now := (1 / 2 : ℚ), redis := sampleRedis }
    (twoCalls ++ seating 1) = some s ∧
      s.now < (sampleToken.exp : ℚ) ∧ s.created = [0, 1] := by
  obtain ⟨s, hrun, hp⟩ := exec_any (Uses.step {} sampleToken) { now := (1 / 2 : ℚ), redis := sampleRedis }
    (twoCalls ++ seating 1) (fun s => s.now < (sampleToken.exp : ℚ) ∧ s.created = [0, 1]) (by decide +kernel)
  rw [decide_eq_true_eq] at hp
  exact ⟨s, hrun, hp⟩

end Ticketing
