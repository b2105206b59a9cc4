import Ticketing.Submission

/-!
# What the zone screen advertises

`_compute_zone_availability` lists, for every zone with a price, the quantities that can be bought right now.
The screen, the allocator and the claim script each decide for themselves what a legal cut is;
`advertised_can_be_bought` says that they agree: a quantity is on the screen exactly when it has an anchor
under the policy in force, and then a request for it gets its seats in the first pass, whichever of the best
anchors it draws.

The loop also relies on two facts that no test of its own protects: the run that hosts a placement is found in
the snapshot, and the claim script never answers `BOUNDS`.  Both hold of every submission, whatever others do
between its steps.
-/

namespace Ticketing

open Exec

/-- A row of the screen. -/
structure ZoneAvailability where
  zone : ZoneId
  priceCents : Int
  available : Int
  availableQuantities : List Nat
deriving DecidableEq

/-- The policy in force in a zone. -/
def ZoneKeys.policy (z : ZoneKeys) : Policy := if z.relaxed then endgamePolicy else normalPolicy

/-- `read_zone_snapshots` for one zone: `none` of `_parse_state` is its `ValueError`. -/
def ZoneKeys.readState (z : ZoneKeys) : Except SubmitError ZoneState := z.parseState.elim (.error .valueError) .ok

/-- The row of a zone with a price; `none` of `feasible_quantities` is its `KeyError`. -/
def zoneRow (cfg : OrderSettings) (policy : Policy) (zone : ZoneId) (price : Int) (state : ZoneState) :
    Except SubmitError ZoneAvailability :=
  (feasibleQuantities state.runs state.geometry cfg.maxPurchasable policy).elim (.error .keyError) fun quantities =>
    .ok { zone, priceCents := price, available := state.remaining, availableQuantities := quantities }

/-- `_compute_zone_availability`.  `venue` is the venue of the event row, if there is one, `zones` the zones
of that venue in their display order, `prices` the prices of the event. -/
def computeZoneAvailability (cfg : OrderSettings) (r : Redis) (event : EventId) (venue : Option (Option Nat))
    (zones : List ZoneId) (prices : Hash ZoneId Int) : Except SubmitError (List ZoneAvailability) :=
  match venue with
  | none => .error (.eventNotFound event)
  | some none => .ok []
  | some (some _) =>
    -- only a zone with a price is sold, so the others are not read
    let sellable := zones.filterMap fun zone => (prices.lookup zone).map fun price => (zone, price)
    (sellable.mapM fun x => (r.zones (event, x.1)).readState.map fun state => (x, state)).bind fun snapshots =>
      snapshots.mapM fun x => zoneRow cfg (r.zones (event, x.1.1)).policy x.1.1 x.1.2 x.2

/-! ### The screen and the allocator -/

private theorem exists_of_mem_mapM_ok {α β ε : Type} {f : α → Except ε β} {l : List α} {out : List β}
    (h : l.mapM f = .ok out) {y : β} (hy : y ∈ out) : ∃ x ∈ l, f x = .ok y := by
  induction l generalizing out with
  | nil =>
    cases h
    cases hy
  | cons a l ih =>
    rw [List.mapM_cons] at h
    cases ha : f a with
    | error e =>
      rw [ha] at h
      cases h
    | ok b =>
      cases hl : l.mapM f with
      | error e =>
        rw [ha, hl] at h
        cases h
      | ok bs =>
        rw [ha, hl] at h
        obtain rfl := Except.ok.inj h
        rcases List.mem_cons.1 hy with rfl | hy
        · exact ⟨a, List.mem_cons_self .., ha⟩
        · obtain ⟨x, hx, hfx⟩ := ih hl hy
          exact ⟨x, List.mem_cons_of_mem _ hx, hfx⟩

/-- A row of the screen is computed from the snapshot of its zone and its policy. -/
theorem row_of_mem {cfg : OrderSettings} {r : Redis} {event : EventId} {venue : Option (Option Nat)}
    {zones : List ZoneId} {prices : Hash ZoneId Int} {rows : List ZoneAvailability} {row : ZoneAvailability}
    (h : computeZoneAvailability cfg r event venue zones prices = .ok rows) (hrow : row ∈ rows) :
    ∃ state, (r.zones (event, row.zone)).parseState = some state ∧
      feasibleQuantities state.runs state.geometry cfg.maxPurchasable (r.zones (event, row.zone)).policy =
        some row.availableQuantities := by
  unfold computeZoneAvailability at h
  split at h
  · cases h
  · cases h
    cases hrow
  · cases hsnap : (zones.filterMap fun zone => (prices.lookup zone).map fun price => (zone, price)).mapM fun x =>
        (r.zones (event, x.1)).readState.map fun state => (x, state) with
    | error e =>
      simp only [hsnap] at h
      cases h
    | ok snapshots =>
      simp only [hsnap] at h
      obtain ⟨⟨⟨zone, price⟩, state⟩, hmem, heq⟩ := exists_of_mem_mapM_ok h hrow
      obtain ⟨x, -, hx⟩ := exists_of_mem_mapM_ok hsnap hmem
      unfold zoneRow at heq
      cases hf : feasibleQuantities state.runs state.geometry cfg.maxPurchasable (r.zones (event, zone)).policy with
      | none =>
        simp only [hf] at heq
        cases heq
      | some quantities =>
        simp only [hf] at heq
        cases heq
        refine ⟨state, ?_, hf⟩
        unfold ZoneKeys.readState at hx
        cases hp : (r.zones (event, x.1)).parseState with
        | none =>
          rw [hp] at hx
          cases hx
        | some state' =>
          rw [hp] at hx
          cases hx
          exact hp

/-- The snapshot of a zone that satisfies the run invariant knows the block of every run. -/
theorem charted_of_parseState {z : ZoneKeys} {state : ZoneState} (hz : ZoneInv z) (h : z.parseState = some state) :
    Charted state.runs state.geometry := by
  unfold ZoneKeys.parseState at h
  split at h
  · rename_i hall
    obtain rfl := Option.some.inj h
    intro run hrun
    obtain ⟨g, hg, -, -⟩ := hz.inside run hrun
    exact List.all_eq_true.1 hall ⟨run.block, g⟩ (Hash.mem_entries_iff.2 hg)
  · cases h

/-! ### The allocator and the claim script -/

section Claim

variable {cfg : OrderSettings} {req : OrderRequest} {r : Redis} {call : SeatCall} {host : Run} {pick : Placement}

/-- A pick inside its host run is never answered `BOUNDS`. -/
private theorem claimSeats_ne_bounds (hin : pick.insideOf host) (limit : Int) :
    (claimSeats r (call.claimArgs host pick limit)).1 ≠ .bounds := by
  unfold claimSeats SeatCall.claimArgs
  simp only [hin.not_bounds, if_false]
  (repeat' split) <;> simp

/-- The errors that only a fault of the allocator would raise. -/
def SubmitPhase.faulty : SubmitPhase → Bool
  | .done (.error .stopIteration) | .done (.error (.seatPlacementOutOfRun ..)) => true
  | _ => false

private theorem again_not_faulty : call.again.faulty = false := by
  unfold SeatCall.again
  split <;> rfl

private theorem noSeats_not_faulty {state : ZoneState} : (call.noSeats cfg state).faulty = false := by
  unfold SeatCall.noSeats
  split <;> rfl

private theorem unitPrice_not_faulty {m : EventMeta} {zone : Option ZoneId} {e : SubmitError}
    (h : m.unitPrice zone = .error e) : (SubmitPhase.done (.error e)).faulty = false := by
  unfold EventMeta.unitPrice at h
  cases hv : m.venue with
  | none =>
    cases zone with
    | none =>
      cases hp : m.priceCents <;> rw [hv, hp] at h <;> cases h
      rfl
    | some zone =>
      rw [hv] at h
      cases h
      rfl
  | some venue =>
    cases zone with
    | none =>
      rw [hv] at h
      cases h
      rfl
    | some zone =>
      cases hp : m.zonePrices.lookup zone <;> rw [hv] at h <;> simp only [hp] at h <;> cases h
      rfl

private theorem validate_not_faulty {answer : Option EventMeta} {now : Time} {e : SubmitError}
    (h : req.validate answer now = .error e) : (SubmitPhase.done (.error e)).faulty = false := by
  unfold OrderRequest.validate at h
  split at h
  · cases h
    rfl
  · rename_i m
    (repeat' split at h) <;> try (cases h; rfl)
    unfold EventMeta.totalFor at h
    split at h
    · cases h
      rfl
    · cases hp : m.unitPrice req.zone with
      | error e' =>
        rw [hp] at h
        cases h
        exact unitPrice_not_faulty hp
      | ok price =>
        rw [hp] at h
        cases h

/-- No step of a submission ends in a fault of the allocator. -/
theorem step_not_faulty {a : SubmitAct} {phase phase' : SubmitPhase} {r' : Redis}
    (h : req.step cfg r phase a = some (r', phase')) : phase'.faulty = false := by
  cases OrderRequest.step_move h with
  | invalid hphase he => exact validate_not_faulty he
  | validate =>
    unfold OrderRequest.path
    (repeat' split) <;> rfl
  | reserve =>
    unfold OrderRequest.reserveResult
    split <;> rfl
  | readRelaxed | unreadable | read | relax | finish => rfl
  | @claim call state i r' phase' hphase hsnapshot hclaim =>
    cases hanchors : legalAnchors state.runs call.quantity state.geometry call.policy with
    | none =>
      simp only [SeatCall.claim, hanchors] at hclaim
      cases hclaim
      rfl
    | some anchors =>
      cases hpick : (anchors.take topK)[i]? with
      | none =>
        simp only [SeatCall.claim, hanchors, hpick, Option.bind_none] at hclaim
        cases hclaim
      | some pick =>
        obtain ⟨host, -, hin, heq⟩ := call.claim_of_anchor cfg r hanchors hpick
        rw [heq] at hclaim
        cases hclaim
        unfold SeatCall.answer
        split
        · rfl
        · rfl
        · exact again_not_faulty
        · rename_i hbounds
          exact absurd hbounds (claimSeats_ne_bounds hin _)
        · rfl
  | miss hphase hsnapshot hmiss =>
    unfold SeatCall.miss at hmiss
    simp only at hmiss
    (repeat' split at hmiss) <;> cases hmiss
    · rfl
    · exact noSeats_not_faulty
    · exact noSeats_not_faulty
    · rfl
  | forget => exact again_not_faulty

/-- The first pass of a request from its policy flag on, if nobody else writes. -/
def firstAttempt (i : Nat) : List Turn := [.own .readRelaxed, .own .read, .own (.claim i), .own .forget]

/-- A request whose snapshot has an anchor gets its seats in the first pass, whichever of the best anchors it
draws. -/
theorem firstAttempt_accepts {zone : ZoneId} {total : Int} {state : ZoneState} {anchors : List Placement}
    {checked : Option EventMeta} {steps : List (Redis × Redis)}
    (hstate : (r.zones (req.event, zone)).parseState = some state)
    (hanchors : legalAnchors state.runs req.quantity state.geometry (r.zones (req.event, zone)).policy = some anchors)
    (hfresh : r.claims req.key = none)
    (hquota : r.held req.event req.user + req.quantity ≤ cfg.maxTicketsPerUserPerEvent) {i : Nat}
    (hi : i < min topK anchors.length) :
    ∃ s, exec (Submitting.step cfg req) ⟨r, .flagging zone total, checked, steps⟩ (firstAttempt i) = some s ∧
      s.phase = .done (.ok (.ok (r.lastId + 1))) := by
  have hlen : i < (anchors.take topK).length := by rwa [List.length_take]
  obtain ⟨pick, hpick⟩ : ∃ pick, (anchors.take topK)[i]? = some pick := ⟨_, List.getElem?_eq_getElem hlen⟩
  have hmem : pick ∈ anchors := List.mem_of_mem_take (List.mem_of_getElem? hpick)
  obtain ⟨hlength, -⟩ := length_of_mem_legalAnchors hanchors hmem
  let call : SeatCall := { req.seatCall r zone total with phase := .snapshot state }
  obtain ⟨host, hhost, hin, hclaim⟩ := call.claim_of_anchor cfg r hanchors hpick
  have hhere : host ∈ (r.zones (call.event, call.zone)).parseRuns := ZoneKeys.runs_of_parseState hstate ▸ hhost
  have hroom : r.held call.event call.user + pick.length ≤ cfg.maxTicketsPerUserPerEvent := hlength ▸ hquota
  have hok := claimSeats_of_inside hhere hin hfresh hroom
  have hread : req.step cfg r (.seating (req.seatCall r zone total)) .read = some (r, .seating call) := by
    simp only [OrderRequest.step, OrderRequest.seatCall, hstate]
    rfl
  have hwon : req.step cfg r (.seating call) (.claim i) = _ := hclaim
  rw [hok] at hwon
  exact ⟨_, exec_cons.2 ⟨_, Submitting.step_own rfl, exec_cons.2 ⟨_, Submitting.step_own hread,
    exec_cons.2 ⟨_, Submitting.step_own hwon, exec_cons.2 ⟨_, Submitting.step_own rfl, rfl⟩⟩⟩⟩, rfl⟩

theorem run_not_faulty {turns : List Turn} {s : Submitting}
    (h : exec (Submitting.step cfg req) { redis := r } turns = some s) : s.phase.faulty = false := by
  refine exec_invariant (C := fun _ _ => True) (I := fun s : Submitting => s.phase.faulty = false) ?_ rfl
    (.of_forall fun _ _ _ => trivial) h
  intro s turn s' _ ht hi
  cases turn with
  | own a =>
    obtain ⟨⟨r', phase⟩, hout, rfl⟩ := Option.map_eq_some_iff.1 ht
    exact step_not_faulty hout
  | other r =>
    obtain rfl := Option.some.inj ht
    exact hi

end Claim

/-- The screen, the allocator and the claim script agree.  A quantity is on the screen exactly when it has an
anchor under the policy in force; a request for it, under a new key and within the quota, is then accepted in
its first pass for every index the picker may draw; and in no interleaving with other writers does a
submission miss its host run or hear `BOUNDS`. -/
theorem advertised_can_be_bought {cfg : OrderSettings} {r : Redis} {event : EventId} {venue : Option (Option Nat)}
    {zones : List ZoneId} {prices : Hash ZoneId Int} {rows : List ZoneAvailability} {row : ZoneAvailability}
    (hscreen : computeZoneAvailability cfg r event venue zones prices = .ok rows) (hrow : row ∈ rows)
    (hz : ZoneInv (r.zones (event, row.zone))) :
    (∀ n, 1 ≤ n → n ≤ cfg.maxPurchasable →
      (n ∈ row.availableQuantities ↔ ∃ anchors, legalAnchors (r.zones (event, row.zone)).parseRuns n
        (r.zones (event, row.zone)).parseGeometry (r.zones (event, row.zone)).policy = some anchors ∧ anchors ≠ [])) ∧
    (∀ n ∈ row.availableQuantities, ∀ (req : OrderRequest) (total : Int), req.event = event →
      req.zone = some row.zone → req.quantity = n → r.claims req.key = none →
      r.held event req.user + n ≤ cfg.maxTicketsPerUserPerEvent →
      ∃ anchors, legalAnchors (r.zones (event, row.zone)).parseRuns n (r.zones (event, row.zone)).parseGeometry
          (r.zones (event, row.zone)).policy = some anchors ∧ anchors ≠ [] ∧
        ∀ i < min topK anchors.length, ∃ s,
          exec (Submitting.step cfg req) { redis := r, phase := .flagging row.zone total } (firstAttempt i) = some s ∧
            s.phase = .done (.ok (.ok (r.lastId + 1)))) ∧
    ∀ (req : OrderRequest) (r₀ : Redis) (turns : List Turn) (s : Submitting),
      exec (Submitting.step cfg req) { redis := r₀ } turns = some s →
        s.phase ≠ .done (.error .stopIteration) ∧
        ∀ event zone block start length,
          s.phase ≠ .done (.error (.seatPlacementOutOfRun event zone block start length)) := by
  obtain ⟨state, hstate, hquantities⟩ := row_of_mem hscreen hrow
  obtain rfl : state = ⟨(r.zones (event, row.zone)).parseRuns, (r.zones (event, row.zone)).parseGeometry⟩ := by
    unfold ZoneKeys.parseState at hstate
    split at hstate
    · exact (Option.some.inj hstate).symm
    · cases hstate
  have hmem : ∀ n : Nat, n ∈ row.availableQuantities ↔ (1 ≤ n ∧ n ≤ cfg.maxPurchasable) ∧
      ∃ anchors, legalAnchors (r.zones (event, row.zone)).parseRuns n (r.zones (event, row.zone)).parseGeometry
        (r.zones (event, row.zone)).policy = some anchors ∧ anchors ≠ [] := by
    intro n
    obtain ⟨feasible, hfeasible, hiff⟩ := mem_feasibleQuantities (r.zones (event, row.zone)).policy
      (charted_of_parseState hz hstate) cfg.maxPurchasable n
    obtain rfl := Option.some.inj (hfeasible.symm.trans hquantities)
    exact hiff
  refine ⟨fun n h₁ h₂ => ?_, ?_, ?_⟩
  · rw [hmem n]
    exact and_iff_right ⟨h₁, h₂⟩
  · rintro n hn req total rfl hzone hquantity hfresh hquota
    obtain ⟨-, anchors, hanchors, hne⟩ := (hmem n).1 hn
    refine ⟨anchors, hanchors, hne, fun i hi => ?_⟩
    rw [← hquantity] at hanchors hquota
    exact firstAttempt_accepts hstate hanchors hfresh hquota hi
  · intro req r₀ turns s hrun
    have hsound := run_not_faulty hrun
    refine ⟨fun h => ?_, fun event zone block start length h => ?_⟩
    · rw [h] at hsound
      cases hsound
    · rw [h] at hsound
      cases hsound

/-- One zone at 50 cents. -/
def samplePrices : Hash ZoneId Int := AList.insert 1 50 ∅

def sampleRow : ZoneAvailability := { zone := 1, priceCents := 50, available := 4, availableQuantities := [1, 2, 4] }

/-- Of four seats in a row one, two or four are offered: three would leave an orphan.  A request for two is
accepted. -/
theorem sampleRow_can_be_bought :
    computeZoneAvailability {} sampleRedis 1 (some (some 1)) [1] samplePrices = .ok [sampleRow] ∧
      ∃ s, exec (Submitting.step {} sampleRequest) { redis := sampleRedis, phase := .flagging 1 100 }
          (firstAttempt 0) = some s ∧
        s.phase = .done (.ok (.ok 1)) := by
  have hscreen : computeZoneAvailability {} sampleRedis 1 (some (some 1)) [1] samplePrices = .ok [sampleRow] := by
    decide +kernel
  refine ⟨hscreen, ?_⟩
  obtain ⟨-, hbuy, -⟩ := advertised_can_be_bought hscreen (List.mem_singleton_self _) sampleZone_inv
  obtain ⟨anchors, -, hne, hfirst⟩ := hbuy 2 (by decide) sampleRequest 100 rfl rfl rfl rfl (by decide)
  exact hfirst 0 (lt_min (by decide) (List.length_pos_iff.2 hne))

end Ticketing
