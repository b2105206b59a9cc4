import Ticketing.SeatOwnership

/-!
# The guarded rebuild under traffic

`rebuild_zone_runs` refuses to run while the stream has a backlog, but its check, its read of the database and its
write are three steps.  The run `claimBehindCheck` accepts a claim after the check, and the rebuild puts the seats of
that claim back on sale.  Where no step gets between the parts of a rebuild as `RebuildSafe` says, the runs it writes
are free and every pending release is still answered.
-/

namespace Ticketing

open Span Exec

/-- A release that has deleted its hold and has not returned it yet. -/
structure Pending (event : EventId) (w : World) (n : Nat) (r : Release) (zone : ZoneId) (hold : SeatHold) : Prop where
  running : w.releases n = some r
  phase : r.phase = .holdDeleted hold
  zone : r.order.zone = some zone
  event : r.order.event = event
  unmarked : w.redis.released (.order r.order.id) = false

namespace SeatInv

variable {cfg : Settings} {event : EventId} {w : World}

/-- The seats of a pending release are not free, so the script has nothing to object to. -/
theorem pending_clear (hi : SeatInv event w) {n : Nat} {r : Release} {zone : ZoneId} {hold : SeatHold}
    (hp : Pending event w n r zone hold) :
    ¬ MeetsFree (w.redis.zones (event, zone)).parseRuns hold.block hold.startPos hold.length := by
  have hcar : r.carries hold := .inr hp.phase
  have hmatch := hi.linked.carried n r hold hp.running hcar
  have hev : hold.event = event := hmatch.event.trans hp.event
  obtain ⟨-, -, -, -, hlen, -, -⟩ := hi.fitting.carried n r hold hp.running hcar hev
  rintro ⟨run, hrun, hb, h1, h2⟩
  have hpos := (hi.layout.zone zone).maximal.pos run hrun
  have hfree : w.Own event .free (hold.block, max run.start hold.startPos) :=
    ⟨zone, run, hrun, hb, le_max_left .., by simp only [stop] at *; omega⟩
  have hown : w.Own event (.order r.order.id) (hold.block, max run.start hold.startPos) := by
    refine .inr ⟨hp.unmarked, n, r, hold, hp.running, hcar, rfl, hev, rfl, le_max_right .., ?_⟩
    simp only [SeatHold.span, stop] at *
    omega
  cases hi.owners _ _ _ hfree hown

/-- The script carries a pending release out. -/
theorem pending_returned (hi : SeatInv event w) {n : Nat} {r : Release} {zone : ZoneId} {hold : SeatHold}
    (hp : Pending event w n r zone hold) :
    ∃ w', Ticketing.step cfg w (.release (.releaseSeats n)) = some w' ∧
      w'.redis = w.redis.giveBackSeats (r.order.releaseSeatsArgs zone hold) ∧
      w'.returned = w.returned ++ [.seats (r.order.releaseSeatsArgs zone hold)] := by
  have hcar : r.carries hold := .inr hp.phase
  have hmatch := hi.linked.carried n r hold hp.running hcar
  have hev : hold.event = event := hmatch.event.trans hp.event
  have hzone : hold.zone = zone := Option.some.inj (hmatch.zone.symm.trans hp.zone)
  have hclear := hi.pending_clear hp
  obtain ⟨blk, hblk, hid, hbz, hlen, h0, hcap⟩ := hi.fitting.carried n r hold hp.running hcar hev
  have hevent := hp.event
  have hreply := releaseSeats_cases w.redis (r.order.releaseSeatsArgs zone hold)
  rcases hreply with ⟨hmark, -⟩ | ⟨-, -, -, hbad⟩ | ⟨-, hok, hnew, -⟩
  · have : w.redis.released (.order r.order.id) = true := hmark
    rw [hp.unmarked] at this
    cases this
  · simp only [Order.releaseSeatsArgs, hevent] at hbad
    rcases hbad with ⟨g, hg, hout⟩ | hmeets
    · obtain ⟨blk', hblk', hid', -, hcap'⟩ := hi.layout.geom zone hold.block g hg
      rw [hi.layout.zone_unique hblk' hblk (hid'.trans hid.symm)] at hcap'
      simp only [SeatHold.span, stop] at h0 hcap
      omega
    · exact absurd hmeets hclear
  · have hrel : w.releaseSeats (r.order.releaseSeatsArgs zone hold) =
        some { w with redis := w.redis.giveBackSeats (r.order.releaseSeatsArgs zone hold)
                      returned := w.returned ++ [.seats (r.order.releaseSeatsArgs zone hold)] } := by
      unfold World.releaseSeats
      simp only
      rw [hnew]
      split
      · rfl
      all_goals
        rename_i hbad
        rw [hbad] at hok
        cases hok
    refine ⟨({ w with redis := w.redis.giveBackSeats (r.order.releaseSeatsArgs zone hold)
                      returned := w.returned ++ [.seats (r.order.releaseSeatsArgs zone hold)] } : World).setRelease n
      (some { r with phase := .finished }), ?_, rfl, rfl⟩
    simp only [Ticketing.step, stepRelease, hp.running, Option.bind_some, hp.phase, hp.zone, hrel]

end SeatInv

/-- A claim is accepted between the check of a rebuild and its read. -/
def claimBehindCheck : List Act :=
  .rebuild (.check 0 1 1) :: seatRequest ++ [.rebuild (.read 0), .rebuild (.write 0)]

/-- The rebuild puts the seats of an enqueued intent back on sale. -/
theorem rebuild_frees_claimed_seats :
    Built 1 seatedStart ∧ ∃ w, exec (step {}) seatedStart claimBehindCheck = some w ∧
      ∃ run ∈ (w.redis.zones (1, 1)).parseRuns, run.Covers 1 0 ∧
        ∃ i ∈ w.log, i.event = 1 ∧ w.unsettled i = true ∧ ∃ s, i.span = some s ∧ s.Covers 1 0 := by
  refine ⟨seatedStart_built, ?_⟩
  obtain ⟨w, hw, hp⟩ := exec_any (step {}) seatedStart claimBehindCheck
    (fun w => (⟨1, 0, 10⟩ : Run) ∈ (w.redis.zones (1, 1)).parseRuns ∧
      ∃ i ∈ w.log, i.event = 1 ∧ w.unsettled i = true ∧ i.span = some ⟨1, 0, 2⟩) (by decide +kernel)
  rw [decide_eq_true_eq] at hp
  obtain ⟨hrun, i, hi, hev, hu, hs⟩ := hp
  exact ⟨w, hw, _, hrun, ⟨rfl, by decide, by decide⟩, i, hi, hev, hu, _, hs, ⟨rfl, by decide, by decide⟩⟩

/-- The guarded rebuild is safe under traffic where no step gets between its parts: in every state reached,
also right after each write, no free run contains a seat of an unsettled intent or of a hold row, and the
script carries out every pending release, with its quota return. -/
theorem guarded_rebuild_is_safe {cfg : Settings} {event : EventId} {w₀ w : World} {acts : List Act}
    (hbuilt : Built event w₀) (hcommit : Along (step cfg) CommitSafe w₀ acts)
    (hsafe : Along (step cfg) (RebuildSafe event) w₀ acts) (h : exec (step cfg) w₀ acts = some w) :
    (∀ zone, ∀ run ∈ (w.redis.zones (event, zone)).parseRuns, ∀ b p, run.Covers b p →
      (∀ i ∈ w.log, i.event = event → w.unsettled i = true → ∀ s, i.span = some s → ¬ s.Covers b p) ∧
        ∀ hold ∈ w.db.seatHolds, hold.event = event → ¬ hold.span.Covers b p) ∧
    ∀ n r zone hold, Pending event w n r zone hold →
      ∃ w', step cfg w (.release (.releaseSeats n)) = some w' ∧
        w'.redis = w.redis.giveBackSeats (r.order.releaseSeatsArgs zone hold) ∧
        w'.returned = w.returned ++ [.seats (r.order.releaseSeatsArgs zone hold)] := by
  have hinv : SeatInv event w :=
    exec_invariant (fun _ _ _ hC hs hi => hi.step hC.1 hC.2 hs) hbuilt.seatInv (hcommit.and hsafe) h
  refine ⟨fun zone run hrun b p hc => ⟨?_, ?_⟩, fun n r zone hold hp => hinv.pending_returned hp⟩
  · intro i hi hev hu s hs hcs
    have := hinv.holds_unique (x := .free zone run) (y := .intent i) ⟨hrun, rfl⟩ ⟨hi, hev, hu, hs⟩ hc hcs
    cases this
  · intro hold hh hev hch
    have := hinv.holds_unique (x := .free zone run) (y := .hold hold) ⟨hrun, rfl⟩ ⟨hh, hev, rfl⟩ hc hch
    cases this

/-- A rebuild after the request's seats have been committed. -/
theorem guarded_rebuild_is_safe_idle :
    ∃ w, exec (step {}) seatedStart (seatRequest ++ promptConsumer ++
        [.rebuild (.check 0 1 1), .rebuild (.read 0), .rebuild (.write 0)]) = some w ∧
      (⟨1, 2, 8⟩ : Run) ∈ (w.redis.zones (1, 1)).parseRuns ∧ (⟨1, 1, 1, 7, 0, 2, none⟩ : SeatHold) ∈ w.db.seatHolds ∧
      ∀ run ∈ (w.redis.zones (1, 1)).parseRuns, ¬ run.Covers 1 1 := by
  obtain ⟨w, hw, hp⟩ := exec_any (step {}) seatedStart (seatRequest ++ promptConsumer ++
      [.rebuild (.check 0 1 1), .rebuild (.read 0), .rebuild (.write 0)])
    (fun w => (⟨1, 2, 8⟩ : Run) ∈ (w.redis.zones (1, 1)).parseRuns ∧
      (⟨1, 1, 1, 7, 0, 2, none⟩ : SeatHold) ∈ w.db.seatHolds) (by decide +kernel)
  rw [decide_eq_true_eq] at hp
  have hcommit : Along (step {}) CommitSafe seatedStart (seatRequest ++ promptConsumer ++
      [.rebuild (.check 0 1 1), .rebuild (.read 0), .rebuild (.write 0)]) :=
    commitSafe_of_noDeadLetter seatedStart_built.start
      (Along.of_forall (by simp [seatRequest, promptConsumer, NoDeadLetter]))
  have hsafe : Along (step {}) (RebuildSafe 1) seatedStart (seatRequest ++ promptConsumer ++
      [.rebuild (.check 0 1 1), .rebuild (.read 0), .rebuild (.write 0)]) := by
    refine Along.append (rebuildSafe_of_noRebuild seatedStart_built.start
      (Along.of_forall (by simp [seatRequest, promptConsumer, NoRebuild]))) fun w₁ h₁ => ?_
    -- when the rebuild starts no release is running and the only intent is persisted
    have hrel : ∀ n, w₁.releases n = none :=
      exec_invariant (C := fun _ a => ∀ b, a ≠ .release b) (I := fun w => ∀ n, w.releases n = none)
        (fun _ _ _ hC hs hi => by rw [(tablesKept_step hs).releases hC]; exact hi) (fun _ => rfl)
        (Along.of_forall (by simp [seatRequest, promptConsumer])) h₁
    have hset : ∀ i ∈ w₁.log, w₁.unsettled i = false :=
      of_decide_eq_true (exec_test (fun w => ∀ i ∈ w.log, w.unsettled i = false) h₁ (by decide +kernel))
    refine ⟨trivial, fun w₂ h₂ => ⟨fun job _ _ n r hold hr => ?_, fun w₃ h₃ => ⟨fun job _ _ i hi _ _ => ?_, ?_⟩⟩⟩
    · rw [(tablesKept_step h₂).releases (by simp), hrel n] at hr
      cases hr
    · have h₂ : stepRebuild w₁ (.check 0 1 1) = some w₂ := h₂
      have h₃ : stepRebuild w₂ (.read 0) = some w₃ := h₃
      have hsame : w₃.log = w₁.log ∧ w₃.unsettled i = w₁.unsettled i := by
        obtain ⟨n, job', blocks, held, hcase, -⟩ | ⟨rb₂, -, rfl⟩ := stepRebuild_cases h₂
        · cases hcase
        · obtain ⟨n, job', blocks, held, hcase, -⟩ | ⟨rb₃, -, rfl⟩ := stepRebuild_cases h₃
          · cases hcase
          · exact ⟨rfl, rfl⟩
      rw [hsame.2]
      exact hset i (hsame.1 ▸ hi)
    · exact fun _ _ => trivial
  refine ⟨w, hw, hp.1, hp.2, fun run hrun hc => ?_⟩
  exact ((guarded_rebuild_is_safe seatedStart_built hcommit hsafe hw).1 1 run hrun 1 1 hc).2 _ hp.2 rfl
    ⟨rfl, by decide, by decide⟩

end Ticketing
