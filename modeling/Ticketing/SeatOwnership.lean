import Ticketing.Base.Owners
import Ticketing.Stock

/-!
# Every seat has one owner

A seat of an event is free in Redis, or it belongs to an accepted intent that is neither persisted nor refunded, or to
an order: through its hold row, or through a release that has read the hold and has not returned it yet.  Each step of
the pipeline takes seats away from an owner or hands an interval over from one owner to another, so no seat ever has
two owners.  A rebuild replaces the free seats as a whole; it is safe when nothing happened behind the back of what it
read (`RebuildSafe`).
-/

namespace Ticketing

open Span Exec Owners

/-! ### Seats and their owners -/

inductive Owner where
  | free
  | intent (key : Key)
  | order (id : OrderId)
deriving DecidableEq

/-- The owner has seat `x.2` of block `x.1` for this event. -/
def World.Own (w : World) (event : EventId) : Owner → BlockId × Int → Prop
  | .free, x => ∃ zone, Free (w.redis.zones (event, zone)).parseRuns x.1 x.2
  | .intent key, x => ∃ i ∈ w.log, i.event = event ∧ i.key = key ∧ w.unsettled i = true ∧
      ∃ s, i.span = some s ∧ s.Covers x.1 x.2
  | .order id, x =>
      (∃ h ∈ w.db.seatHolds, h.event = event ∧ h.order = id ∧ h.span.Covers x.1 x.2) ∨
      (w.redis.released (.order id) = false ∧ ∃ n r hold, w.releases n = some r ∧ r.carries hold ∧
        r.order.id = id ∧ hold.event = event ∧ hold.span.Covers x.1 x.2)

/-- A non-empty interval inside a block of the zone. -/
def Db.Fits (db : Db) (zone : ZoneId) (s : Run) : Prop :=
  ∃ b ∈ db.seatBlocks, b.id = s.block ∧ b.zone = zone ∧ 0 < s.length ∧ 0 ≤ s.start ∧ s.stop ≤ b.capacity

/-- The zones of the event satisfy the zone invariant, and their geometry is that of the block rows. -/
structure Layout (event : EventId) (w : World) : Prop where
  blocks : (w.db.seatBlocks.map SeatBlock.id).Nodup
  zone : ∀ zone, ZoneInv (w.redis.zones (event, zone))
  geom : ∀ zone b g, (w.redis.zones (event, zone)).geom.lookup b = some g →
    ∃ blk ∈ w.db.seatBlocks, blk.id = b ∧ blk.zone = zone ∧ blk.capacity = g.capacity
  known : ∀ blk ∈ w.db.seatBlocks, ∃ g, (w.redis.zones (event, blk.zone)).geom.lookup blk.id = some g

/-- Every interval that the system remembers for the event lies inside a block of its zone. -/
structure Fitting (event : EventId) (w : World) : Prop where
  intent : ∀ i ∈ w.log, i.event = event → ∀ s, i.span = some s → ∃ zone, i.zone = some zone ∧ w.db.Fits zone s
  hold : ∀ h ∈ w.db.seatHolds, h.event = event → w.db.Fits h.zone h.span
  carried : ∀ n r hold, w.releases n = some r → r.carries hold → hold.event = event → w.db.Fits hold.zone hold.span

/-- What a rebuild that has read the database relies on: every hold of its zone, and every hold of the zone that a
release still has to return, is one it has read. -/
structure JobOk (w : World) (job : Rebuild) (blocks : List SeatBlock) (held : List SeatHold) : Prop where
  same : blocks = w.db.zoneBlocks job.zone
  fits : Rebuildable blocks held
  hold : ∀ h ∈ w.db.seatHolds, h.event = job.event → h.zone = job.zone → ∃ h' ∈ held, h'.span = h.span
  carried : ∀ n r hold, w.releases n = some r → r.carries hold → hold.event = job.event → hold.zone = job.zone →
    w.redis.released (.order r.order.id) = false → ∃ h' ∈ held, h'.span = hold.span

/-- The steps of a run that a rebuild of a zone of the event depends on.  No intent of the zone is committed between
the read and the write of the rebuild; at the read, every hold that a release has still to return is a row; and at
the write no intent of the zone is neither persisted nor refunded. -/
def RebuildSafe (event : EventId) (w : World) : Act → Prop
  | .settle (.persist n id fk) => ∀ x db, w.handlers n = some x → x.phase = .delivered → x.intent.event = event →
      w.db.insertIntent x.intent id fk = some db →
        ∀ m job blocks held, w.rebuilds m = some job → job.event = event → x.intent.zone = some job.zone →
          job.phase ≠ .read blocks held
  | .rebuild (.read m) => ∀ job, w.rebuilds m = some job → job.event = event →
      ∀ n r hold, w.releases n = some r → r.carries hold → hold.event = event → hold.zone = job.zone →
        w.redis.released (.order r.order.id) = false → ∃ h ∈ w.db.seatHolds, h.order = r.order.id
  | .rebuild (.write m) => ∀ job, w.rebuilds m = some job → job.event = event →
      ∀ i ∈ w.log, i.event = event → i.zone = some job.zone → w.unsettled i = false
  | _ => True

structure SeatInv (event : EventId) (w : World) : Prop where
  linked : w.Linked
  settled : SettleInv w
  layout : Layout event w
  fitting : Fitting event w
  owners : OneOwner (w.Own event)
  jobs : ∀ m job blocks held, w.rebuilds m = some job → job.event = event → job.phase = .read blocks held →
    JobOk w job blocks held

/-! ### Blocks and zones -/

theorem Db.Fits.congr {db db' : Db} (h : db'.seatBlocks = db.seatBlocks) {zone : ZoneId} {s : Run}
    (hf : db.Fits zone s) : db'.Fits zone s := by
  unfold Db.Fits
  rw [h]
  exact hf

namespace Layout

variable {event : EventId} {w w' : World}

/-- A block belongs to one zone. -/
theorem zone_unique (hl : Layout event w) {b b' : SeatBlock} (hb : b ∈ w.db.seatBlocks) (hb' : b' ∈ w.db.seatBlocks)
    (h : b.id = b'.id) : b = b' :=
  List.inj_on_of_nodup_map hl.blocks hb hb' h

/-- A free seat lies in a block of its zone. -/
theorem of_free (hl : Layout event w) {zone : ZoneId} {b : BlockId} {p : Int}
    (h : Free (w.redis.zones (event, zone)).parseRuns b p) :
    ∃ blk ∈ w.db.seatBlocks, blk.id = b ∧ blk.zone = zone ∧ 0 ≤ p ∧ p < blk.capacity := by
  obtain ⟨run, hrun, rfl, h1, h2⟩ := h
  obtain ⟨g, hg, h0, hcap⟩ := (hl.zone zone).inside run hrun
  obtain ⟨blk, hblk, hid, hz, hc⟩ := hl.geom zone run.block g hg
  exact ⟨blk, hblk, hid, hz, by omega, by omega⟩

/-- The geometry of a zone gives the capacity of the block row. -/
theorem capacity (hl : Layout event w) {blk : SeatBlock} (hb : blk ∈ w.db.seatBlocks) :
    ∃ g, (w.redis.zones (event, blk.zone)).geom.lookup blk.id = some g ∧ g.capacity = blk.capacity := by
  obtain ⟨g, hg⟩ := hl.known blk hb
  obtain ⟨blk', hb', hid, -, hcap⟩ := hl.geom blk.zone blk.id g hg
  obtain rfl := hl.zone_unique hb' hb hid
  exact ⟨g, hg, hcap.symm⟩

theorem frame (hl : Layout event w) (hb : w'.db.seatBlocks = w.db.seatBlocks)
    (hz : ∀ zone, (w.redis.zones (event, zone)).SameSeats (w'.redis.zones (event, zone))) : Layout event w' where
  blocks := hb ▸ hl.blocks
  zone zone := (hl.zone zone).congr (hz zone)
  geom zone b g hg := by
    rw [(hz zone).geom] at hg
    rw [hb]
    exact hl.geom zone b g hg
  known blk hblk := by
    rw [(hz blk.zone).geom]
    exact hl.known blk (hb ▸ hblk)

/-- One zone of the event is replaced by another with the geometry of its blocks. -/
theorem update (hl : Layout event w) {zone : ZoneId} {z : ZoneKeys} (hb : w'.db.seatBlocks = w.db.seatBlocks)
    (hzones : w'.redis.zones = Function.update w.redis.zones (event, zone) z) (hz : ZoneInv z)
    (hgeom : ∀ b g, z.geom.lookup b = some g →
      ∃ blk ∈ w.db.seatBlocks, blk.id = b ∧ blk.zone = zone ∧ blk.capacity = g.capacity)
    (hknown : ∀ blk ∈ w.db.seatBlocks, blk.zone = zone → ∃ g, z.geom.lookup blk.id = some g) : Layout event w' := by
  constructor
  · exact hb ▸ hl.blocks
  · intro zone'
    rw [hzones]
    by_cases h : zone' = zone
    · subst h
      rwa [Function.update_self]
    · rw [Function.update_of_ne (by simpa using h)]
      exact hl.zone zone'
  · intro zone' b g hg
    rw [hb]
    rw [hzones] at hg
    by_cases h : zone' = zone
    · subst h
      rw [Function.update_self] at hg
      exact hgeom b g hg
    · rw [Function.update_of_ne (by simpa using h)] at hg
      exact hl.geom zone' b g hg
  · intro blk hblk
    rw [hb] at hblk
    rw [hzones]
    by_cases h : blk.zone = zone
    · rw [h, Function.update_self]
      exact hknown blk hblk h
    · rw [Function.update_of_ne (by simpa using h)]
      exact hl.known blk hblk

/-- One zone of the event is replaced by another with the same geometry. -/
theorem update_same (hl : Layout event w) {zone : ZoneId} {z : ZoneKeys} (hb : w'.db.seatBlocks = w.db.seatBlocks)
    (hzones : w'.redis.zones = Function.update w.redis.zones (event, zone) z) (hz : ZoneInv z)
    (hgeom : z.geom = (w.redis.zones (event, zone)).geom) : Layout event w' := by
  refine hl.update hb hzones hz ?_ ?_
  · rw [hgeom]
    exact hl.geom zone
  · rw [hgeom]
    rintro blk hblk rfl
    exact hl.known blk hblk

end Layout

/-! ### Steps that give nobody a seat -/

/-- No seat goes to an intent, an order or a rebuild that did not have it before. -/
structure SeatFrame (event : EventId) (w w' : World) : Prop where
  blocks : w'.db.seatBlocks = w.db.seatBlocks
  log : ∀ i ∈ w'.log, i.event = event → ∀ s, i.span = some s → i ∈ w.log
  unsettled : ∀ i, w'.unsettled i = true → w.unsettled i = true
  hold : ∀ h' ∈ w'.db.seatHolds, h'.event = event →
    ∃ h ∈ w.db.seatHolds, h.event = h'.event ∧ h.zone = h'.zone ∧ h.order = h'.order ∧ h.span = h'.span
  carried : ∀ n r hold, w'.releases n = some r → r.carries hold → hold.event = event →
    (∃ m r₀, w.releases m = some r₀ ∧ r₀.carries hold ∧ r₀.order.id = r.order.id) ∨
      (hold ∈ w.db.seatHolds ∧ hold.order = r.order.id)
  released : ∀ id, w'.redis.released (.order id) = false → w.redis.released (.order id) = false
  jobs : ∀ m job blocks held, w'.rebuilds m = some job → job.event = event → job.phase = .read blocks held →
    w.rebuilds m = some job ∨ JobOk w' job blocks held

namespace SeatFrame

variable {event : EventId} {w w' : World}

theorem fitting (hf : SeatFrame event w w') (h : Fitting event w) : Fitting event w' where
  intent i hi hev s hs := by
    obtain ⟨zone, hz, hfit⟩ := h.intent i (hf.log i hi hev s hs) hev s hs
    exact ⟨zone, hz, hfit.congr hf.blocks⟩
  hold h' hh' hev := by
    obtain ⟨h₀, hh₀, hev₀, hz, -, hs⟩ := hf.hold h' hh' hev
    rw [← hz, ← hs]
    exact (h.hold h₀ hh₀ (hev₀.trans hev)).congr hf.blocks
  carried n r hold hr hc hev := by
    rcases hf.carried n r hold hr hc hev with ⟨m, r₀, hr₀, hc₀, -⟩ | ⟨hmem, -⟩
    · exact (h.carried m r₀ hold hr₀ hc₀ hev).congr hf.blocks
    · exact (h.hold hold hmem hev).congr hf.blocks

theorem own (hf : SeatFrame event w w') {o : Owner} {x : BlockId × Int} (ho : o ≠ .free) (h : w'.Own event o x) :
    w.Own event o x := by
  cases o with
  | free => exact (ho rfl).elim
  | intent key =>
    obtain ⟨i, hi, hev, hk, hu, s, hs, hx⟩ := h
    exact ⟨i, hf.log i hi hev s hs, hev, hk, hf.unsettled i hu, s, hs, hx⟩
  | order id =>
    rcases h with ⟨h', hh', hev, hord, hx⟩ | ⟨hrel, n, r, hold, hr, hc, hid, hev, hx⟩
    · obtain ⟨h₀, hh₀, hev₀, -, hord₀, hs⟩ := hf.hold h' hh' hev
      exact .inl ⟨h₀, hh₀, hev₀.trans hev, hord₀.trans hord, hs ▸ hx⟩
    · rcases hf.carried n r hold hr hc hev with ⟨m, r₀, hr₀, hc₀, hid₀⟩ | ⟨hmem, hord⟩
      · exact .inr ⟨hf.released id hrel, m, r₀, hold, hr₀, hc₀, hid₀.trans hid, hev, hx⟩
      · exact .inl ⟨hold, hmem, hev, hord.trans hid, hx⟩

theorem jobOk (hf : SeatFrame event w w') {job : Rebuild} {blocks : List SeatBlock} {held : List SeatHold}
    (hev : job.event = event) (h : JobOk w job blocks held) : JobOk w' job blocks held where
  same := by
    rw [h.same]
    unfold Db.zoneBlocks
    rw [hf.blocks]
  fits := h.fits
  hold h' hh' hev' hz' := by
    obtain ⟨h₀, hh₀, hev₀, hz₀, -, hs⟩ := hf.hold h' hh' (hev'.trans hev)
    obtain ⟨h₁, hh₁, hs₁⟩ := h.hold h₀ hh₀ (hev₀.trans hev') (hz₀.trans hz')
    exact ⟨h₁, hh₁, hs₁.trans hs⟩
  carried n r hold hr hc hev' hz' hrel := by
    rcases hf.carried n r hold hr hc (hev'.trans hev) with ⟨m, r₀, hr₀, hc₀, hid⟩ | ⟨hmem, -⟩
    · exact h.carried m r₀ hold hr₀ hc₀ hev' hz' (hf.released _ (hid ▸ hrel))
    · exact h.hold hold hmem hev' hz'

/-- A step that leaves the database and the rebuilds alone. -/
theorem of_eq (hdb : w'.db = w.db) (hlog : ∀ i ∈ w'.log, i.event = event → ∀ s, i.span = some s → i ∈ w.log)
    (hrel : ∀ k, w'.redis.released k = false → w.redis.released k = false)
    (hcar : ∀ n r hold, w'.releases n = some r → r.carries hold →
      ∃ r₀, w.releases n = some r₀ ∧ r₀.carries hold ∧ r₀.order = r.order)
    (hrebuilds : w'.rebuilds = w.rebuilds) : SeatFrame event w w' where
  blocks := by rw [hdb]
  log := hlog
  unsettled i hu := by
    simp only [World.unsettled, Bool.and_eq_true, Bool.not_eq_true'] at hu ⊢
    exact ⟨hdb ▸ hu.1, hrel _ hu.2⟩
  hold h hh _ := ⟨h, hdb ▸ hh, rfl, rfl, rfl, rfl⟩
  carried n r hold hr hc _ := by
    obtain ⟨r₀, hr₀, hc₀, hord⟩ := hcar n r hold hr hc
    exact .inl ⟨n, r₀, hr₀, hc₀, by rw [hord]⟩
  released id := hrel _
  jobs _ _ _ _ hjob _ _ := .inl (hrebuilds ▸ hjob)

theorem carries_same (w : World) : ∀ n r hold, w.releases n = some r → r.carries hold →
    ∃ r₀, w.releases n = some r₀ ∧ r₀.carries hold ∧ r₀.order = r.order :=
  fun _ r _ hr hc => ⟨r, hr, hc, rfl⟩

/-- A release that is finished carries nothing. -/
theorem carries_finished (w : World) {n : Nat} (x : Release) : ∀ m r hold,
    Function.update w.releases n (some { x with phase := .finished }) m = some r → r.carries hold →
    ∃ r₀, w.releases m = some r₀ ∧ r₀.carries hold ∧ r₀.order = r.order := by
  intro m r hold hr hc
  by_cases hm : m = n
  · subst hm
    rw [Function.update_self, Option.some.injEq] at hr
    subst hr
    rcases hc with hc | hc <;> cases hc
  · rw [Function.update_of_ne hm] at hr
    exact ⟨r, hr, hc, rfl⟩

theorem released_update {released : Marker → Bool} (k : Marker) :
    ∀ k', Function.update released k true k' = false → released k' = false := by
  intro k' hk
  by_cases h : k' = k
  · subst h
    rw [Function.update_self] at hk
    cases hk
  · rwa [Function.update_of_ne h] at hk

end SeatFrame

/-- Another event's zone is written. -/
theorem sameSeats_update_event {zones : EventId × ZoneId → ZoneKeys} {e event : EventId}
    {zone : ZoneId} {z : ZoneKeys} (h : e ≠ event) (zone' : ZoneId) :
    (zones (event, zone')).SameSeats (Function.update zones (e, zone) z (event, zone')) := by
  rw [Function.update_of_ne (by simpa using fun h' _ => h h'.symm)]
  exact .refl _

namespace SeatInv

variable {cfg : Settings} {event : EventId} {w w' : World}

private theorem jobs_frame (hi : SeatInv event w) (hf : SeatFrame event w w') {m : Nat} {job : Rebuild}
    {blocks : List SeatBlock} {held : List SeatHold} (hjob : w'.rebuilds m = some job) (hev : job.event = event)
    (hp : job.phase = .read blocks held) : JobOk w' job blocks held := by
  rcases hf.jobs m job blocks held hjob hev hp with hold | hnew
  · exact hf.jobOk hev (hi.jobs m job blocks held hold hev hp)
  · exact hnew

/-- A step after which the free seats are the same. -/
theorem frame (hi : SeatInv event w) (hl : w'.Linked) (hs : SettleInv w') (hf : SeatFrame event w w')
    (hz : ∀ zone, (w.redis.zones (event, zone)).SameSeats (w'.redis.zones (event, zone))) : SeatInv event w' where
  linked := hl
  settled := hs
  layout := hi.layout.frame hf.blocks hz
  fitting := hf.fitting hi.fitting
  owners := by
    refine hi.owners.shrink fun o x ho => ?_
    by_cases h : o = .free
    · subst h
      obtain ⟨zone, hfree⟩ := ho
      rw [(hz zone).parseRuns] at hfree
      exact ⟨zone, hfree⟩
    · exact hf.own h ho
  jobs _ _ _ _ hjob hev hp := hi.jobs_frame hf hjob hev hp

/-- An interval of the owner `o` is given back to its zone. -/
theorem give (hi : SeatInv event w) (hl : w'.Linked) (hs : SettleInv w') (hf : SeatFrame event w w')
    {o : Owner} {a : ReleaseSeatsArgs} (hev : a.event = event) (hok : SeatsReleased w a)
    (hfit : w.db.Fits a.zone ⟨a.block, a.start, a.length⟩)
    (hzones : w'.redis.zones = (w.redis.giveBackSeats a).zones)
    (hown : ∀ x, (⟨a.block, a.start, a.length⟩ : Run).Covers x.1 x.2 → w.Own event o x)
    (hgone : ∀ x, (⟨a.block, a.start, a.length⟩ : Run).Covers x.1 x.2 → ¬ w'.Own event o x)
    (ho : o ≠ .free) : SeatInv event w' := by
  obtain ⟨blk, hblk, hid, hzone, hlen, h0, hcap⟩ := hfit
  obtain ⟨g, hg, hgcap⟩ := hi.layout.capacity hblk
  subst hev
  simp only [stop] at hlen h0 hcap
  simp only at hid
  rw [hzone, hid] at hg
  have hback : GiveBackOk (w.redis.zones (a.event, a.zone)) a.block a.start (a.start + a.length) :=
    giveBackOk_of_release hg (by omega) h0 (by omega) hok.clear
  have hz := hi.layout.zone a.zone
  rw [zones_giveBackSeats] at hzones
  have hinv := hz.giveBack hback
  rw [add_sub_cancel_left] at hinv
  refine ⟨hl, hs, hi.layout.update_same hf.blocks hzones hinv rfl, hf.fitting hi.fitting, ?_,
    fun _ _ _ _ hjob hev hp => hi.jobs_frame hf hjob hev hp⟩
  refine hi.owners.transfer o .free (fun x => (⟨a.block, a.start, a.length⟩ : Run).Covers x.1 x.2) hown
    fun o' x ho' => ?_
  by_cases hfree : o' = .free
  · subst hfree
    obtain ⟨zone, hx⟩ := ho'
    rw [hzones] at hx
    by_cases hzn : zone = a.zone
    · subst hzn
      rw [Function.update_self, ZoneKeys.parseRuns_addAvailable, free_giveBack hz hback,
        add_sub_cancel_left] at hx
      rcases hx with hx | hx
      · exact .inr ⟨⟨_, hx⟩, fun h => ho h.1.symm⟩
      · exact .inl ⟨rfl, hx⟩
    · rw [Function.update_of_ne (by simpa using hzn)] at hx
      exact .inr ⟨⟨zone, hx⟩, fun h => ho h.1.symm⟩
  · refine .inr ⟨hf.own hfree ho', ?_⟩
    rintro ⟨rfl, hx⟩
    exact hgone x hx ho'

/-- An accepted claim takes its interval out of the free seats of the zone. -/
theorem take (hi : SeatInv event w) (hl : w'.Linked) (hs : SettleInv w') {call : SeatCall} {a : ClaimArgs}
    (hok : ClaimOk cfg w call a) (hev : a.event = event) (hdb : w'.db = w.db) (hlog : w'.log = w.log ++ [a.intent])
    (hzones : w'.redis.zones = (w.redis.claim a).zones) (hrel : w'.redis.released = w.redis.released)
    (hreleases : w'.releases = w.releases) (hrebuilds : w'.rebuilds = w.rebuilds) : SeatInv event w' := by
  subst hev
  have hz := hi.layout.zone a.zone
  have hhost : (⟨a.block, a.runStart, a.runLength⟩ : Run) ∈ (w.redis.zones (a.event, a.zone)).parseRuns :=
    ZoneKeys.mem_parseRuns.2 hok.cut.host
  have hlow := hok.cut.lower
  have hupp := hok.cut.upper
  -- the interval is free before the claim
  have hfree : ∀ b p, (⟨a.block, a.start, a.length⟩ : Run).Covers b p →
      Free (w.redis.zones (a.event, a.zone)).parseRuns b p := by
    rintro b p ⟨hb, h1, h2⟩
    simp only [stop] at h1 h2
    exact ⟨_, hhost, hb, by simp only; omega, by simp only [stop]; omega⟩
  have huns : ∀ i, w'.unsettled i = w.unsettled i := by
    intro i
    unfold World.unsettled
    rw [hdb, hrel]
  rw [zones_claim] at hzones
  refine ⟨hl, hs, hi.layout.update_same (by rw [hdb]) hzones (hz.cut hok.cut) rfl, ⟨?_, ?_, ?_⟩, ?_, ?_⟩
  · intro i hmem hev s hspan
    rw [hlog] at hmem
    rw [hdb]
    rcases List.mem_append.1 hmem with hmem | hmem
    · exact hi.fitting.intent i hmem hev s hspan
    · rw [List.mem_singleton] at hmem
      subst hmem
      obtain rfl : (⟨a.block, a.start, a.length⟩ : Run) = s := Option.some.inj hspan
      obtain ⟨g, hg, h0, hcap⟩ := hz.inside _ hhost
      obtain ⟨blk, hblk, hid, hzone, hc⟩ := hi.layout.geom a.zone a.block g hg
      simp only [stop] at h0 hcap
      refine ⟨a.zone, rfl, blk, hblk, hid, hzone, ?_, ?_, ?_⟩
      · exact hok.pos
      · simp only; omega
      · simp only [stop]; omega
  · rw [hdb]
    exact hi.fitting.hold
  · rw [hdb, hreleases]
    exact hi.fitting.carried
  · refine hi.owners.transfer .free (.intent a.key) (fun x => (⟨a.block, a.start, a.length⟩ : Run).Covers x.1 x.2)
      (fun x hx => ⟨a.zone, hfree _ _ hx⟩) fun o x ho => ?_
    cases o with
    | free =>
      obtain ⟨zone, hx⟩ := ho
      rw [hzones] at hx
      by_cases hzn : zone = a.zone
      · subst hzn
        rw [Function.update_self, ZoneKeys.parseRuns_addAvailable, free_cut hz hok.cut] at hx
        exact .inr ⟨⟨_, hx.1⟩, fun h => hx.2 h.2⟩
      · rw [Function.update_of_ne (by simpa using hzn)] at hx
        refine .inr ⟨⟨zone, hx⟩, fun h => hzn ?_⟩
        -- a block is in one zone only
        obtain ⟨blk, hblk, hid, hzone, -⟩ := hi.layout.of_free hx
        obtain ⟨blk', hblk', hid', hzone', -⟩ := hi.layout.of_free (hfree _ _ h.2)
        rw [← hzone, ← hzone', hi.layout.zone_unique hblk hblk' (hid.trans hid'.symm)]
    | intent key =>
      obtain ⟨i, hmem, hev, hk, hu, s, hspan, hx⟩ := ho
      rw [hlog] at hmem
      rcases List.mem_append.1 hmem with hmem | hmem
      · exact .inr ⟨⟨i, hmem, hev, hk, huns i ▸ hu, s, hspan, hx⟩, fun h => by cases h.1⟩
      · rw [List.mem_singleton] at hmem
        subst hmem
        obtain rfl : (⟨a.block, a.start, a.length⟩ : Run) = s := Option.some.inj hspan
        exact .inl ⟨by rw [← hk]; rfl, hx⟩
    | order id =>
      refine .inr ⟨?_, fun h => by cases h.1⟩
      simp only [World.Own, hdb, hrel, hreleases] at ho
      exact ho
  · intro m job blocks held hjob hev hp
    rw [hrebuilds] at hjob
    have hjobOk := hi.jobs m job blocks held hjob hev hp
    exact ⟨by rw [hdb]; exact hjobOk.same, hjobOk.fits, by rw [hdb]; exact hjobOk.hold,
      by rw [hreleases, hrel]; exact hjobOk.carried⟩

/-- A commit hands the interval of the intent over to the new order. -/
theorem commit (hi : SeatInv event w) {n : Nat} {x : Handler} {id : OrderId} {fk : Bool} {db : Db}
    (hx : w.handlers n = some x) (hp : x.phase = .delivered) (hC : CommitSafe w (.settle (.persist n id fk)))
    (hR : RebuildSafe event w (.settle (.persist n id fk))) (hdb : w.db.insertIntent x.intent id fk = some db) :
    SeatInv event { w.setHandler n (some { x with phase := .settled }) with db } := by
  have hl' := hi.linked.commit (p := .settled) hx hdb
  have hs' := hi.settled.commit hx hp hC hdb
  have hnew := hR x db hx hp
  have hkey := hasKey_insertIntent hdb
  have hdl : w.redis.released (.deadLetter x.intent.key) = false := (hC x db hx hp hdb).1
  obtain ⟨hacc, hhold, hdb'⟩ := insertIntent_eq_some hdb
  have huns : ∀ i, (!db.hasKey i.key && !w.redis.released (.deadLetter i.key)) = true →
      w.unsettled i = true ∧ i.key ≠ x.intent.key := by
    intro i hu
    simp only [hkey, Bool.and_eq_true, Bool.not_eq_true', Bool.or_eq_false_iff, decide_eq_false_iff_not] at hu
    refine ⟨?_, fun h => hu.1.2 h.symm⟩
    simp only [World.unsettled, Bool.and_eq_true, Bool.not_eq_true']
    exact ⟨hu.1.1, hu.2⟩
  have hblocks : db.seatBlocks = w.db.seatBlocks := by rw [hdb']
  by_cases hcase : x.intent.event = event ∧ ∃ hold, x.intent.hold id = some hold
  swap
  · -- the commit adds no hold of this event
    refine hi.frame hl' hs' ⟨hblocks, fun i hmem _ _ _ => hmem, fun i hu => (huns i hu).1, ?_,
      fun m r hold hr hc _ => .inl ⟨m, r, hr, hc, rfl⟩, fun _ h => h, fun _ _ _ _ h _ _ => .inl h⟩ fun _ => .refl _
    intro h hh hev
    simp only [hdb'] at hh
    rcases List.mem_append.1 hh with hh | hh
    · exact ⟨h, hh, rfl, rfl, rfl, rfl⟩
    · refine absurd ⟨?_, h, Option.mem_toList.1 hh⟩ hcase
      obtain ⟨zone, -, hh⟩ := Option.bind_eq_some_iff.1 (Option.mem_toList.1 hh)
      obtain ⟨seat, -, rfl⟩ := Option.map_eq_some_iff.1 hh
      exact hev
  obtain ⟨hev, hold, hheq⟩ := hcase
  have hnew := hnew hev hdb
  have hmem := hi.linked.handled n x hx
  have haccH := hhold hold hheq
  -- the hold row is the interval of the intent
  have hspan : x.intent.span = some hold.span ∧ x.intent.zone = some hold.zone ∧ hold.event = event ∧
      hold.order = id := by
    obtain ⟨zone, hzone, hh⟩ := Option.bind_eq_some_iff.1 hheq
    obtain ⟨seat, hseat, rfl⟩ := Option.map_eq_some_iff.1 hh
    exact ⟨by rw [Intent.span, hseat]; rfl, hzone, hev, rfl⟩
  obtain ⟨hsp, hzn, hhev, hord⟩ := hspan
  have hrows : ∀ h ∈ db.seatHolds, h ∈ w.db.seatHolds ∨ h = hold := by
    intro h hh
    simp only [hdb', hheq, Option.toList_some] at hh
    rcases List.mem_append.1 hh with hh | hh
    · exact .inl hh
    · exact .inr (List.mem_singleton.1 hh)
  have hunsx : w.unsettled x.intent = true := by
    simp only [World.unsettled, Bool.and_eq_true, Bool.not_eq_true']
    exact ⟨hasKey_of_accepts hacc, hdl⟩
  refine ⟨hl', hs', hi.layout.frame hblocks fun _ => .refl _, ⟨?_, ?_, ?_⟩, ?_, ?_⟩
  · intro i hmem hev s hs
    obtain ⟨zone, hz, hfit⟩ := hi.fitting.intent i hmem hev s hs
    exact ⟨zone, hz, hfit.congr hblocks⟩
  · intro h hh hev
    rcases hrows h hh with hh | rfl
    · exact (hi.fitting.hold h hh hev).congr hblocks
    · obtain ⟨hlen, h0, -, ⟨b, hb, hid, hz, hcap⟩, -⟩ := haccH
      exact ⟨b, by rw [hblocks]; exact hb, hid, hz, hlen, h0, hcap⟩
  · exact fun m r hold hr hc hev => (hi.fitting.carried m r hold hr hc hev).congr hblocks
  · refine hi.owners.transfer (.intent x.intent.key) (.order id) (fun y => hold.span.Covers y.1 y.2)
      (fun y hy => ⟨x.intent, hmem, hev, rfl, hunsx, hold.span, hsp, hy⟩) fun o y ho => ?_
    cases o with
    | free => exact .inr ⟨ho, fun h => by cases h.1⟩
    | intent key =>
      obtain ⟨i, himem, hiev, hk, hu, s, hs, hy⟩ := ho
      obtain ⟨hu, hne⟩ := huns i hu
      refine .inr ⟨⟨i, himem, hiev, hk, hu, s, hs, hy⟩, fun h => hne ?_⟩
      rw [hk]
      exact Owner.intent.inj h.1
    | order id' =>
      rcases ho with ⟨h, hh, hhe, hid, hy⟩ | hcar
      · rcases hrows h hh with hh | rfl
        · exact .inr ⟨.inl ⟨h, hh, hhe, hid, hy⟩, fun h => by cases h.1⟩
        · exact .inl ⟨by rw [← hid, hord], hy⟩
      · exact .inr ⟨.inr hcar, fun h => by cases h.1⟩
  · intro m job blocks held hjob hjev hjp
    have hjobOk := hi.jobs m job blocks held hjob hjev hjp
    refine ⟨?_, hjobOk.fits, ?_, hjobOk.carried⟩
    · rw [hjobOk.same]
      unfold Db.zoneBlocks
      rw [hblocks]
    · intro h hh hhe hhz
      rcases hrows h hh with hh | rfl
      · exact hjobOk.hold h hh hhe hhz
      · exact absurd hjp (hnew m job blocks held hjob hjev (by rw [hzn, hhz]))

/-- A rebuild writes the seats that none of the holds it read covers. -/
theorem rebuild (hi : SeatInv event w) {m : Nat} {job : Rebuild} {blocks : List SeatBlock} {held : List SeatHold}
    (hjob : w.rebuilds m = some job) (hp : job.phase = .read blocks held) (hev : job.event = event)
    (hR : RebuildSafe event w (.rebuild (.write m))) (hl : w'.Linked) (hs : SettleInv w')
    (hf : SeatFrame event w w')
    (hzones : w'.redis.zones = Function.update w.redis.zones (event, job.zone)
      ((w.redis.zones (event, job.zone)).rebuilt blocks held)) : SeatInv event w' := by
  have hok := hi.jobs m job blocks held hjob hev hp
  have hnone := hR job hjob hev
  have hmem : ∀ b, b ∈ blocks ↔ b ∈ w.db.seatBlocks ∧ b.zone = job.zone := by
    intro b
    rw [hok.same, Db.zoneBlocks, List.mem_filter, decide_eq_true_eq]
  refine ⟨hl, hs, hi.layout.update hf.blocks hzones (zoneInv_rebuilt _ hok.fits) ?_ ?_, hf.fitting hi.fitting, ?_,
    fun _ _ _ _ hjob hev hp => hi.jobs_frame hf hjob hev hp⟩
  · intro b g hg
    obtain ⟨blk, hblk, hid, rfl⟩ := (lookup_geom_rebuilt_iff _ hok.fits).1 hg
    exact ⟨blk, ((hmem blk).1 hblk).1, hid, ((hmem blk).1 hblk).2, rfl⟩
  · exact fun blk hblk hz => ⟨_, lookup_geom_rebuilt _ hok.fits ((hmem blk).2 ⟨hblk, hz⟩)⟩
  · refine hi.owners.replace .free (fun o x ho h => hf.own ho h) fun o x hfree ho => ?_
    by_contra hne
    have hold := hf.own hne ho
    obtain ⟨zone, hx⟩ := hfree
    rw [hzones] at hx
    by_cases hzn : zone = job.zone
    · subst hzn
      rw [Function.update_self, free_rebuilt _ hok.fits] at hx
      obtain ⟨⟨blk, hblk, hid, -, -⟩, hclear⟩ := hx
      obtain ⟨hblk, hbz⟩ := (hmem blk).1 hblk
      -- the block of the seat is in the zone, so an interval that covers the seat is in the zone
      have hin : ∀ zone (s : Run), w.db.Fits zone s → s.Covers x.1 x.2 → zone = job.zone := by
        rintro zone s ⟨blk', hblk', hid', rfl, -⟩ hc
        rw [← hbz, hi.layout.zone_unique hblk' hblk (hid'.trans (hc.1.trans hid))]
      cases o with
      | free => exact hne rfl
      | intent key =>
        obtain ⟨i, himem, hiev, -, hu, s, hs, hc⟩ := hold
        obtain ⟨zone, hz, hfit⟩ := hi.fitting.intent i himem hiev s hs
        rw [hnone i himem hiev (by rw [hz, hin zone s hfit hc])] at hu
        cases hu
      | order id =>
        rcases hold with ⟨h, hh, hhe, -, hc⟩ | ⟨hrel, n, r, h, hr, hcar, hid, hhe, hc⟩
        · obtain ⟨h', hh', hs⟩ := hok.hold h hh (hhe.trans hev.symm) (hin _ _ (hi.fitting.hold h hh hhe) hc)
          exact hclear h' hh' (hs ▸ hc)
        · obtain ⟨h', hh', hs⟩ := hok.carried n r h hr hcar (hhe.trans hev.symm)
            (hin _ _ (hi.fitting.carried n r h hr hcar hhe) hc) (hid ▸ hrel)
          exact hclear h' hh' (hs ▸ hc)
    · rw [Function.update_of_ne (by simpa using hzn)] at hx
      exact hne (hi.owners o .free x hold ⟨zone, hx⟩)

/-- A rebuild that reads the database now. -/
theorem jobOk_read (hi : SeatInv event w) {m : Nat} {job : Rebuild} (hjob : w.rebuilds m = some job)
    (hev : job.event = event) (hR : RebuildSafe event w (.rebuild (.read m))) {job' : Rebuild}
    (hev' : job'.event = job.event) (hz' : job'.zone = job.zone) :
    JobOk w job' (w.db.zoneBlocks job'.zone) (w.db.heldOn job'.event (w.db.zoneBlocks job'.zone)) := by
  have hmem : ∀ b, b ∈ w.db.zoneBlocks job'.zone ↔ b ∈ w.db.seatBlocks ∧ b.zone = job'.zone := by
    intro b
    rw [Db.zoneBlocks, List.mem_filter, decide_eq_true_eq]
  have hev'' : job'.event = event := hev'.trans hev
  -- a row of the event that fits the zone is among those read
  have hread : ∀ h ∈ w.db.seatHolds, h.event = event → ∀ s : Run, w.db.Fits job'.zone s → h.block = s.block →
      h ∈ w.db.heldOn job'.event (w.db.zoneBlocks job'.zone) := by
    rintro h hh hhe s ⟨b, hb, hid, hbz, -⟩ hblock
    refine List.mem_filter.2 ⟨hh, ?_⟩
    simp only [decide_eq_true_eq, List.mem_map]
    exact ⟨hhe.trans hev''.symm, b, (hmem b).2 ⟨hb, hbz⟩, hid.trans hblock.symm⟩
  refine ⟨rfl, ⟨?_, ?_⟩, ?_, ?_⟩
  · exact (List.filter_sublist.map _).nodup hi.layout.blocks
  · intro b hb h hh hblock
    obtain ⟨hh, hcond⟩ := List.mem_filter.1 hh
    simp only [decide_eq_true_eq] at hcond
    obtain ⟨blk, hblk, hid, -, hlen, h0, hcap⟩ := hi.fitting.hold h hh (hcond.1.trans hev'')
    rw [hi.layout.zone_unique hblk ((hmem b).1 hb).1 (hid.trans hblock)] at hcap
    exact ⟨hlen, h0, hcap⟩
  · intro h hh hhe hhz
    have hfit := hi.fitting.hold h hh (hhe.trans hev'')
    rw [hhz] at hfit
    exact ⟨h, hread h hh (hhe.trans hev'') h.span hfit rfl, rfl⟩
  · intro n r hold hr hc hhe hhz hrel
    obtain ⟨h, hh, hord⟩ := hR job hjob hev n r hold hr hc (hhe.trans hev'') (hhz.trans hz') hrel
    have hspan := (hi.linked.agree n r hold hr hc).1 h hh hord
    have hfit := hi.fitting.carried n r hold hr hc (hhe.trans hev'')
    rw [hhz] at hfit
    -- the row and the carried hold belong to the same order
    obtain ⟨o, ho, hmatch⟩ := hi.linked.db.hold h hh
    obtain ⟨o', ho', hsame, -⟩ := hi.linked.release n r hr
    obtain rfl := hi.linked.db.order_unique ho ho' (by rw [← hmatch.order, hord, hsame.id])
    have hcm := hi.linked.carried n r hold hr hc
    have heq : h.event = hold.event := by rw [hmatch.event, hsame.event, hcm.event]
    exact ⟨h, hread h hh (by rw [heq, hhe, hev'']) hold.span hfit (congrArg Span.block hspan), hspan⟩

/-- A request: an accepted claim takes its seats, anything else leaves the owners alone. -/
private theorem step_intake {a : IntakeAct} (hi : SeatInv event w) (hC : CommitSafe w (.intake a))
    (h : Ticketing.step cfg w (.intake a) = some w') : SeatInv event w' := by
  have hl' := hi.linked.step h
  have hs' := hi.settled.step hC h
  rcases stepIntake_cases h with ⟨b, -, rfl⟩ | ⟨c, call, b, -, hok, rfl⟩ | ⟨zones, calls, hz, -, rfl⟩
  · refine hi.frame hl' hs' (.of_eq rfl ?_ (fun _ h => h) (SeatFrame.carries_same w) rfl) fun _ => .refl _
    intro i hmem _ s hs
    rcases List.mem_append.1 hmem with hmem | hmem
    · exact hmem
    · rw [List.mem_singleton.1 hmem] at hs
      cases hs
  · by_cases hev : b.event = event
    · exact hi.take hl' hs' hok hev rfl rfl rfl rfl rfl rfl
    · refine hi.frame hl' hs' (.of_eq rfl ?_ (fun _ h => h) (SeatFrame.carries_same w) rfl)
        (sameSeats_update_event hev)
      intro i hmem hiev _ _
      rcases List.mem_append.1 hmem with hmem | hmem
      · exact hmem
      · rw [List.mem_singleton.1 hmem] at hiev
        exact absurd hiev hev
  · exact hi.frame hl' hs' (.of_eq rfl (fun _ h _ _ _ => h) (fun _ h => h) (SeatFrame.carries_same w) rfl)
      fun zone => hz _

/-- The worker: a commit turns an intent into an order, a refund gives the seats of the intent back. -/
private theorem step_settle {a : SettleAct} (hi : SeatInv event w) (hC : CommitSafe w (.settle a))
    (hR : RebuildSafe event w (.settle a)) (h : Ticketing.step cfg w (.settle a) = some w') : SeatInv event w' := by
  have hl' := hi.linked.step h
  have hs' := hi.settled.step hC h
  rcases stepSettle_cases h with ⟨n, x, id, fk, db, rfl, hx, hp, -, hdb, rfl⟩ | ⟨n, x, w₁, hx, hp, hw₁, rfl⟩ |
    ⟨redis, handlers, hq, -, rfl⟩
  · exact hi.commit hx hp hC hR hdb
  · rcases World.refund_cases hw₁ with ⟨-, -, rfl⟩ | ⟨seat, zone, hseat, hzone, hok, rfl⟩ | rfl
    · exact hi.frame hl' hs' (.of_eq rfl (fun _ h _ _ _ => h) (SeatFrame.released_update _)
        (SeatFrame.carries_same w) rfl) fun _ => .refl _
    · have hframe : SeatFrame event w (({ w with
          redis := w.redis.giveBackSeats (x.intent.releaseSeatsArgs zone seat)
          returned := w.returned ++ [.seats (x.intent.releaseSeatsArgs zone seat)] } : World).setHandler n
            (some { x with phase := .refunded })) :=
        .of_eq rfl (fun _ h _ _ _ => h) (SeatFrame.released_update _) (SeatFrame.carries_same w) rfl
      by_cases hev : x.intent.event = event
      · have hmem := hi.linked.handled n x hx
        have hspan : x.intent.span = some ⟨seat.block, seat.startPos, x.intent.quantity⟩ := by
          rw [Intent.span, hseat]
          rfl
        obtain ⟨zone', hz', hfit⟩ := hi.fitting.intent x.intent hmem hev _ hspan
        rw [hzone, Option.some.injEq] at hz'
        subst hz'
        have huns : w.unsettled x.intent = true := by
          simp only [World.unsettled, Bool.and_eq_true, Bool.not_eq_true']
          exact ⟨hi.settled.doomed n x hx (by rw [hp]; rfl), hok.unmarked⟩
        refine hi.give hl' hs' hframe (o := .intent x.intent.key) hev hok hfit rfl ?_ ?_ (by simp)
        · exact fun y hy => ⟨x.intent, hmem, hev, rfl, huns, _, hspan, hy⟩
        · rintro y - ⟨i, -, -, hk, hu, -⟩
          -- the refund is marked
          have hmark : Function.update w.redis.released (.deadLetter x.intent.key) true
              (.deadLetter i.key) = true := by
            rw [hk, Function.update_self]
          simp only [World.unsettled, Bool.and_eq_true, Bool.not_eq_true'] at hu
          have hfalse : Function.update w.redis.released (.deadLetter x.intent.key) true
              (.deadLetter i.key) = false :=
            hu.2
          rw [hmark] at hfalse
          cases hfalse
      · exact hi.frame hl' hs' hframe (sameSeats_update_event hev)
    · exact hi.frame hl' hs' (.of_eq rfl (fun _ h _ _ _ => h) (fun _ h => h) (SeatFrame.carries_same _) rfl)
        fun _ => .refl _
  · refine hi.frame hl' hs' (.of_eq rfl (fun _ h _ _ _ => h) (fun k hk => ?_) (SeatFrame.carries_same w) rfl)
      fun _ => hq.zones _
    rw [← hq.released]
    exact hk

/-- A release: the seats of a hold stay with the order until the script gives them back. -/
private theorem step_release {a : ReleaseAct} (hi : SeatInv event w) (hC : CommitSafe w (.release a))
    (h : Ticketing.step cfg w (.release a) = some w') : SeatInv event w' := by
  have hl' := hi.linked.step h
  have hs' := hi.settled.step hC h
  rcases stepRelease_cases h with ⟨n, x, hold, hx, hp, rfl⟩ | ⟨n, x, hx, -, -, -, rfl⟩ |
    ⟨n, x, hold, zone, hx, hp, hzone, hok, rfl⟩ | ⟨outbox, releases, -, hfrom, rfl⟩
  · refine hi.frame hl' hs' ⟨rfl, fun _ h _ _ _ => h, fun _ h => h, fun h hh _ => ?_, fun m r hold' hr hc _ => ?_,
      fun _ h => h, fun _ _ _ _ h _ _ => .inl h⟩ fun _ => .refl _
    · exact ⟨h, (List.mem_filter.1 hh).1, rfl, rfl, rfl, rfl⟩
    · simp only [World.setRelease] at hr
      by_cases hm : m = n
      · subst hm
        rw [Function.update_self, Option.some.injEq] at hr
        subst hr
        rcases hc with hc | hc
        · cases hc
        · cases hc
          exact .inl ⟨m, x, hx, .inl hp, rfl⟩
      · rw [Function.update_of_ne hm] at hr
        exact .inl ⟨m, r, hr, hc, rfl⟩
  · exact hi.frame hl' hs' (.of_eq rfl (fun _ h _ _ _ => h) (SeatFrame.released_update _)
      (SeatFrame.carries_finished w x) rfl) fun _ => .refl _
  · have hcar : x.carries hold := .inr hp
    have hmatch := hi.linked.carried n x hold hx hcar
    have hframe : SeatFrame event w { w.setRelease n (some { x with phase := .finished }) with
        redis := w.redis.giveBackSeats (x.order.releaseSeatsArgs zone hold)
        returned := w.returned ++ [.seats (x.order.releaseSeatsArgs zone hold)] } :=
      .of_eq rfl (fun _ h _ _ _ => h) (SeatFrame.released_update _) (SeatFrame.carries_finished w x) rfl
    by_cases hev : x.order.event = event
    · have hhev : hold.event = event := hmatch.event.trans hev
      obtain rfl : hold.zone = zone := Option.some.inj (hmatch.zone.symm.trans hzone)
      refine hi.give hl' hs' hframe (o := .order x.order.id) hev hok
        (hi.fitting.carried n x hold hx hcar hhev) rfl ?_ ?_ (by simp)
      · exact fun y hy => .inr ⟨hok.unmarked, n, x, hold, hx, hcar, rfl, hhev, hy⟩
      · rintro y - (⟨h, hh, -, hord, -⟩ | ⟨hrel, -⟩)
        · exact hi.linked.deleted n x hold hx hp h hh hord
        · have hmark : Function.update w.redis.released (.order x.order.id) true (.order x.order.id) = false := hrel
          rw [Function.update_self] at hmark
          cases hmark
    · exact hi.frame hl' hs' hframe (sameSeats_update_event hev)
  · refine hi.frame hl' hs' ⟨rfl, fun _ h _ _ _ => h, fun _ h => h, fun h hh _ => ⟨h, hh, rfl, rfl, rfl, rfl⟩,
      fun n r hold hr hc _ => ?_, fun _ h => h, fun _ _ _ _ h _ _ => .inl h⟩ fun _ => .refl _
    rcases hfrom n r hr with ⟨x, hx, hord, -, hread, hdel⟩ | ⟨hbegun, -, -⟩
    · rcases hc with hc | hc
      · rcases hread hold hc with hpx | hof
        · exact .inl ⟨n, x, hx, .inl hpx, by rw [hord]⟩
        · exact .inr (holdOf_eq_some hof)
      · exact .inl ⟨n, x, hx, .inr (hdel hold hc), by rw [hord]⟩
    · rcases hc with hc | hc <;> rw [hbegun] at hc <;> cases hc

/-- A rebuild writes the free runs of the holds it has read. -/
private theorem step_rebuild {a : RebuildAct} (hi : SeatInv event w) (hC : CommitSafe w (.rebuild a))
    (hR : RebuildSafe event w (.rebuild a)) (h : Ticketing.step cfg w (.rebuild a) = some w') : SeatInv event w' := by
  have hl' := hi.linked.step h
  have hs' := hi.settled.step hC h
  rcases stepRebuild_cases h with ⟨m, job, blocks, held, rfl, hjob, hp, rfl⟩ | ⟨rebuilds, hfrom, rfl⟩
  · have hframe : SeatFrame event w { w.setRebuild m none with
        redis := w.redis.setZone job.event job.zone
          ((w.redis.zones (job.event, job.zone)).rebuilt blocks held) } := by
      refine ⟨rfl, fun _ h _ _ _ => h, fun _ h => h, fun h hh _ => ⟨h, hh, rfl, rfl, rfl, rfl⟩,
        fun n r hold hr hc _ => .inl ⟨n, r, hr, hc, rfl⟩, fun _ h => h, fun m' job' blocks' held' hjob' _ _ => ?_⟩
      simp only [World.setRebuild] at hjob'
      by_cases hm : m' = m
      · subst hm
        rw [Function.update_self] at hjob'
        cases hjob'
      · rw [Function.update_of_ne hm] at hjob'
        exact .inl hjob'
    by_cases hev : job.event = event
    · exact hi.rebuild hjob hp hev hR hl' hs' hframe (by rw [← hev]; rfl)
    · exact hi.frame hl' hs' hframe (sameSeats_update_event hev)
  · refine hi.frame hl' hs' ⟨rfl, fun _ h _ _ _ => h, fun _ h => h, fun h hh _ => ⟨h, hh, rfl, rfl, rfl, rfl⟩,
      fun n r hold hr hc _ => .inl ⟨n, r, hr, hc, rfl⟩, fun _ h => h, fun m job blocks held hjob hev hp => ?_⟩
      fun _ => .refl _
    rcases hfrom m job blocks held hjob hp with hsame | ⟨rfl, ⟨job₀, hjob₀, hev₀, hz₀⟩, rfl, rfl⟩
    · exact .inl hsame
    · have hok := hi.jobOk_read hjob₀ (hev₀.trans hev) hR hev₀.symm hz₀.symm
      exact .inr ⟨hok.same, hok.fits, hok.hold, hok.carried⟩

theorem step {a : Act} (hi : SeatInv event w) (hC : CommitSafe w a) (hR : RebuildSafe event w a)
    (h : Ticketing.step cfg w a = some w') : SeatInv event w' := by
  have hl' := hi.linked.step h
  have hs' := hi.settled.step hC h
  cases a with
  | intake a => exact hi.step_intake hC h
  | settle a => exact hi.step_settle hC hR h
  | transition id new now =>
    obtain ⟨db, hdb, rfl⟩ := Option.map_eq_some_iff.1 h
    have hblocks : db.seatBlocks = w.db.seatBlocks := by
      obtain ⟨o₀, -, -, rfl⟩ := transition_eq_some hdb
      rfl
    refine hi.frame hl' hs' ⟨hblocks, fun _ h _ _ _ => h, fun i hu => ?_, fun h hh _ => ?_,
      fun n r hold hr hc _ => .inl ⟨n, r, hr, hc, rfl⟩, fun _ h => h, fun _ _ _ _ h _ _ => .inl h⟩ fun _ => .refl _
    · simp only [World.unsettled, hasKey_transition hdb] at hu
      exact hu
    · obtain ⟨h₀, hh₀, hord, hev, hzn, hs⟩ := Db.of_mem_seatHolds_transition hdb hh
      exact ⟨h₀, hh₀, hev.symm, hzn.symm, hord.symm, hs.symm⟩
  | release a => exact hi.step_release hC h
  | reconcile a =>
    rcases stepReconcile_cases h with ⟨n, job, remaining, owing, -, -, -, rfl⟩ | ⟨n, job, rows, -, -, rfl⟩ |
      ⟨reconciles, -, rfl⟩ <;>
      exact hi.frame hl' hs' (.of_eq rfl (fun _ h _ _ _ => h) (fun _ h => h) (SeatFrame.carries_same w) rfl)
        fun _ => .refl _
  | rebuild a => exact hi.step_rebuild hC hR h
  | lose event' =>
    obtain rfl := Option.some.inj h
    exact hi.frame hl' hs' (.of_eq rfl (fun _ h _ _ _ => h) (fun _ h => h) (SeatFrame.carries_same w) rfl)
      fun _ => .refl _

end SeatInv

/-! ### Runs from a zone that was just built -/

/-- The zones of the event were just built from the database, whose holds satisfy the constraints of their table. -/
structure Built (event : EventId) (w : World) : Prop where
  start : w.Start
  db : w.db.Linked
  blocks : (w.db.seatBlocks.map SeatBlock.id).Nodup
  hold : ∀ h ∈ w.db.seatHolds, h.event = event → w.db.Fits h.zone h.span
  apart : ∀ h ∈ w.db.seatHolds, ∀ h' ∈ w.db.seatHolds, h.event = event → h'.event = event → h ≠ h' →
    h.span.Disjoint h'.span
  zones : ∀ zone, (∃ z, w.redis.zones (event, zone) =
      ZoneKeys.rebuilt z (w.db.zoneBlocks zone) (w.db.heldOn event (w.db.zoneBlocks zone))) ∨
    (w.db.zoneBlocks zone = [] ∧ w.redis.zones (event, zone) = {})

namespace Built

variable {event : EventId} {w : World}

theorem rebuildable (hb : Built event w) (zone : ZoneId) :
    Rebuildable (w.db.zoneBlocks zone) (w.db.heldOn event (w.db.zoneBlocks zone)) where
  ids := (List.filter_sublist.map _).nodup hb.blocks
  fits b hb' h hh hblock := by
    obtain ⟨hh, hcond⟩ := List.mem_filter.1 hh
    simp only [decide_eq_true_eq] at hcond
    obtain ⟨blk, hblk, hid, -, hlen, h0, hcap⟩ := hb.hold h hh hcond.1
    rw [List.inj_on_of_nodup_map hb.blocks hblk (List.mem_filter.1 hb').1 (hid.trans hblock)] at hcap
    exact ⟨hlen, h0, hcap⟩

private theorem zoneInv_empty : ZoneInv {} where
  maximal := ⟨by simp [ZoneKeys.parseRuns], by simp [ZoneKeys.parseRuns]⟩
  inside := by simp [ZoneKeys.parseRuns]
  ends := by simp [ZoneKeys.parseRuns]
  counter := rfl

theorem layout (hb : Built event w) : Layout event w := by
  refine ⟨hb.blocks, fun zone => ?_, fun zone b g hg => ?_, fun blk hblk => ?_⟩
  · rcases hb.zones zone with ⟨z, hz⟩ | ⟨-, hz⟩
    · rw [hz]
      exact zoneInv_rebuilt z (hb.rebuildable zone)
    · rw [hz]
      exact zoneInv_empty
  · rcases hb.zones zone with ⟨z, hz⟩ | ⟨-, hz⟩
    · rw [hz] at hg
      obtain ⟨blk, hblk, hid, rfl⟩ := (lookup_geom_rebuilt_iff z (hb.rebuildable zone)).1 hg
      obtain ⟨hmem, hzone⟩ := List.mem_filter.1 hblk
      exact ⟨blk, hmem, hid, by simpa using hzone, rfl⟩
    · rw [hz] at hg
      cases hg
  · have hmem : blk ∈ w.db.zoneBlocks blk.zone := List.mem_filter.2 ⟨hblk, by simp⟩
    rcases hb.zones blk.zone with ⟨z, hz⟩ | ⟨hnil, -⟩
    · rw [hz]
      exact ⟨_, lookup_geom_rebuilt z (hb.rebuildable blk.zone) hmem⟩
    · rw [hnil] at hmem
      cases hmem

/-- Only free seats and held seats have an owner, and the rebuild left the held seats out. -/
theorem owners (hb : Built event w) : OneOwner (w.Own event) := by
  have hclear : ∀ zone b p, Free (w.redis.zones (event, zone)).parseRuns b p → ∀ h ∈ w.db.seatHolds,
      h.event = event → ¬ h.span.Covers b p := by
    intro zone b p hfree h hh hev hc
    rcases hb.zones zone with ⟨z, hz⟩ | ⟨-, hz⟩
    · rw [hz, free_rebuilt z (hb.rebuildable zone)] at hfree
      obtain ⟨⟨blk, hblk, rfl, -⟩, hno⟩ := hfree
      refine hno h (List.mem_filter.2 ⟨hh, ?_⟩) hc
      simp only [decide_eq_true_eq, List.mem_map]
      exact ⟨hev, blk, hblk, hc.1.symm⟩
    · rw [hz] at hfree
      obtain ⟨run, hrun, -⟩ := hfree
      cases hrun
  have horder : ∀ id x, w.Own event (.order id) x →
      ∃ h ∈ w.db.seatHolds, h.event = event ∧ h.order = id ∧ h.span.Covers x.1 x.2 := by
    rintro id x (h | ⟨-, n, r, hold, hr, -⟩)
    · exact h
    · rw [hb.start.releases n] at hr
      cases hr
  have hintent : ∀ key x, ¬ w.Own event (.intent key) x := by
    rintro key x ⟨i, hi, -⟩
    rw [hb.start.log] at hi
    cases hi
  intro o o' x ho ho'
  cases o with
  | intent key => exact (hintent key x ho).elim
  | free =>
    cases o' with
    | intent key => exact (hintent key x ho').elim
    | free => rfl
    | order id =>
      obtain ⟨zone, hfree⟩ := ho
      obtain ⟨h, hh, hev, -, hc⟩ := horder id x ho'
      exact (hclear zone _ _ hfree h hh hev hc).elim
  | order id =>
    obtain ⟨h, hh, hev, hid, hc⟩ := horder id x ho
    cases o' with
    | intent key => exact (hintent key x ho').elim
    | free =>
      obtain ⟨zone, hfree⟩ := ho'
      exact (hclear zone _ _ hfree h hh hev hc).elim
    | order id' =>
      obtain ⟨h', hh', hev', hid', hc'⟩ := horder id' x ho'
      have heq : h = h' := by
        by_contra hne
        obtain ⟨b1, h1, h2⟩ := hc
        obtain ⟨b2, h3, h4⟩ := hc'
        rcases hb.apart h hh h' hh' hev hev' hne (b1.trans b2.symm) with hd | hd <;> omega
      rw [← hid, ← hid', heq]

theorem seatInv (hb : Built event w) : SeatInv event w where
  linked := .start hb.start hb.db
  settled := .start hb.start
  layout := hb.layout
  fitting :=
    { intent := by simp [hb.start.log]
      hold := hb.hold
      carried := fun n r hold hr => by rw [hb.start.releases n] at hr; cases hr }
  owners := hb.owners
  jobs m job _ _ hjob := by rw [hb.start.rebuilds m] at hjob; cases hjob

end Built

/-- What a seat can belong to: a free run of a zone, an accepted intent, a hold row. -/
inductive Holder where
  | free (zone : ZoneId) (run : Run)
  | intent (i : Intent)
  | hold (h : SeatHold)
deriving DecidableEq

/-- The interval belongs to this holder. -/
def World.Holds (w : World) (event : EventId) : Holder → Run → Prop
  | .free zone run, s => run ∈ (w.redis.zones (event, zone)).parseRuns ∧ s = run
  | .intent i, s => i ∈ w.log ∧ i.event = event ∧ w.unsettled i = true ∧ i.span = some s
  | .hold h, s => h ∈ w.db.seatHolds ∧ h.event = event ∧ s = h.span

namespace SeatInv

variable {event : EventId} {w : World}

private theorem own_of_holds {x : Holder} {s : Run} (h : w.Holds event x s) {b : BlockId} {p : Int}
    (hc : s.Covers b p) :
    w.Own event (match x with | .free _ _ => .free | .intent i => .intent i.key | .hold h => .order h.order)
      (b, p) := by
  cases x with
  | free zone run =>
    obtain ⟨hrun, rfl⟩ := h
    exact ⟨zone, s, hrun, hc⟩
  | intent i =>
    obtain ⟨hi, hev, hu, hs⟩ := h
    exact ⟨i, hi, hev, rfl, hu, s, hs, hc⟩
  | hold h₀ =>
    obtain ⟨hh, hev, rfl⟩ := h
    exact .inl ⟨h₀, hh, hev, rfl, hc⟩

theorem holds_unique (hi : SeatInv event w) {x y : Holder} {s t : Run} (hx : w.Holds event x s)
    (hy : w.Holds event y t) {b : BlockId} {p : Int} (hs : s.Covers b p) (ht : t.Covers b p) : x = y := by
  have heq := hi.owners _ _ (b, p) (own_of_holds hx hs) (own_of_holds hy ht)
  cases x with
  | free zone run =>
    cases y with
    | free zone' run' =>
      obtain ⟨hrun, rfl⟩ := hx
      obtain ⟨hrun', rfl⟩ := hy
      -- the block of the seat is in one zone, and the runs of a zone do not overlap
      obtain ⟨blk, hblk, hid, hz, -⟩ := hi.layout.of_free ⟨s, hrun, hs⟩
      obtain ⟨blk', hblk', hid', hz', -⟩ := hi.layout.of_free ⟨t, hrun', ht⟩
      obtain rfl : zone = zone' := by rw [← hz, ← hz', hi.layout.zone_unique hblk hblk' (hid.trans hid'.symm)]
      rw [(hi.layout.zone zone).maximal.maximal.unique hrun hrun' hs ht]
    | intent i => cases heq
    | hold h => cases heq
  | intent i =>
    cases y with
    | free zone run => cases heq
    | intent j => rw [hi.linked.intent_unique hx.1 hy.1 (Owner.intent.inj heq)]
    | hold h => cases heq
  | hold h =>
    cases y with
    | free zone run => cases heq
    | intent i => cases heq
    | hold h' => rw [hi.linked.db.hold_unique hx.1 hy.1 (Owner.order.inj heq)]

theorem holds_inside (hi : SeatInv event w) {x : Holder} {s : Run} (hx : w.Holds event x s) :
    ∃ blk ∈ w.db.seatBlocks, blk.id = s.block ∧ 0 ≤ s.start ∧ s.stop ≤ blk.capacity := by
  cases x with
  | free zone run =>
    obtain ⟨hrun, rfl⟩ := hx
    obtain ⟨g, hg, h0, hcap⟩ := (hi.layout.zone zone).inside s hrun
    obtain ⟨blk, hblk, hid, -, hc⟩ := hi.layout.geom zone s.block g hg
    exact ⟨blk, hblk, hid, h0, by omega⟩
  | intent i =>
    obtain ⟨hmem, hev, -, hs⟩ := hx
    obtain ⟨zone, -, blk, hblk, hid, -, -, h0, hcap⟩ := hi.fitting.intent i hmem hev s hs
    exact ⟨blk, hblk, hid, h0, hcap⟩
  | hold h =>
    obtain ⟨hmem, hev, rfl⟩ := hx
    obtain ⟨blk, hblk, hid, -, -, h0, hcap⟩ := hi.fitting.hold h hmem hev
    exact ⟨blk, hblk, hid, h0, hcap⟩

end SeatInv

/-- The action is not part of a rebuild. -/
def NoRebuild (_ : World) (a : Act) : Prop := ∀ b, a ≠ .rebuild b

/-- Without a running rebuild there is nothing a rebuild depends on. -/
theorem RebuildSafe.of_noRebuild {event : EventId} {w : World} {a : Act} (hidle : ∀ m, w.rebuilds m = none)
    (hno : NoRebuild w a) : RebuildSafe event w a := by
  unfold RebuildSafe
  split
  · intro x db _ _ _ _ m job blocks held hjob
    rw [hidle m] at hjob
    cases hjob
  · exact (hno _ rfl).elim
  · exact (hno _ rfl).elim
  · trivial

theorem rebuildSafe_of_noRebuild {cfg : Settings} {event : EventId} {w₀ : World} {acts : List Act}
    (hstart : w₀.Start) (hno : Along (step cfg) NoRebuild w₀ acts) :
    Along (step cfg) (RebuildSafe event) w₀ acts := by
  refine Along.of_invariant (I := fun w => ∀ m, w.rebuilds m = none) ?_ ?_ hstart.rebuilds hno
  · intro w a w' ha h hi
    cases a with
    | rebuild b => exact (ha b rfl).elim
    | _ => rw [(tablesKept_step h).rebuilds (by simp)]; exact hi
  · exact fun w a hi ha => .of_noRebuild hi ha

/-! ### No seat is sold twice -/

/-- One block of ten seats. -/
def sampleBlock : SeatBlock where
  id := 1
  zone := 1
  capacity := 10
  capacity_pos := by decide
  quality_range := SeatBlock.default_quality_range

def seatedDb : Db where
  orders := []
  seatHolds := []
  outbox := []
  seatBlocks := [sampleBlock]
  events := fun _ => some ⟨10, true⟩

/-- A seated event with one zone, just built and nothing sold. -/
def seatedStart : World where
  redis := { stockedRedis 10 with
    zones := fun k => if k = (1, 1) then ZoneKeys.rebuilt {} [sampleBlock] [] else {} }
  db := seatedDb

theorem seatedStart_built : Built 1 seatedStart where
  start := by constructor <;> intros <;> rfl
  db := Db.Unsold.linked ⟨rfl, rfl, rfl⟩
  blocks := by decide
  hold h hh := by cases hh
  apart h hh := by cases hh
  zones zone := by
    by_cases h : zone = 1
    · subst h
      exact .inl ⟨{}, rfl⟩
    · refine .inr ⟨?_, ?_⟩
      · simp [Db.zoneBlocks, seatedStart, seatedDb, sampleBlock, Ne.symm h]
      · simp [seatedStart, h]

/-- A request reserves two seats of the zone; its intent is stream entry 1. -/
def seatRequest : List Act :=
  [.intake (.call 0 1 1 1 2 100 1), .intake (.read 0), .intake (.claim 0 0), .intake (.forget 0)]

/-- The slow consumer commits a hold whose seats the dead-letter pass then frees: a seat is on sale again while a
committed order has it. -/
theorem slow_consumer_sells_a_seat_twice :
    Built 1 seatedStart ∧ ∃ w, exec (step {}) seatedStart (seatRequest ++ slowConsumer) = some w ∧
      ∃ run hold, w.Holds 1 (.free 1 run) run ∧ w.Holds 1 (.hold hold) hold.span ∧
        run.Covers 1 0 ∧ hold.span.Covers 1 0 := by
  refine ⟨seatedStart_built, ?_⟩
  obtain ⟨w, hw, hp⟩ := exec_any (step {}) seatedStart (seatRequest ++ slowConsumer)
    (fun w => (⟨1, 0, 10⟩ : Run) ∈ (w.redis.zones (1, 1)).parseRuns ∧
      (⟨1, 1, 1, 7, 0, 2, none⟩ : SeatHold) ∈ w.db.seatHolds)
    (by decide +kernel)
  rw [decide_eq_true_eq] at hp
  refine ⟨w, hw, ⟨1, 0, 10⟩, ⟨1, 1, 1, 7, 0, 2, none⟩, ⟨hp.1, rfl⟩, ⟨hp.2, rfl, rfl⟩, ?_, ?_⟩
  · exact ⟨rfl, by decide, by decide⟩
  · exact ⟨rfl, by decide, by decide⟩

/-- No seat of an event is sold twice: in every run from freshly built zones whose commits are all safe and that has
no rebuild (and in which, as in every run of the model, no claim and no marker expires), a seat belongs to at most one
free run, unsettled intent or hold row, and each of these lies inside its block. -/
theorem seat_has_one_holder {cfg : Settings} {event : EventId} {w₀ w : World} {acts : List Act}
    (hbuilt : Built event w₀) (hsafe : Along (step cfg) CommitSafe w₀ acts)
    (hno : Along (step cfg) NoRebuild w₀ acts) (h : exec (step cfg) w₀ acts = some w) :
    (∀ x y s t, w.Holds event x s → w.Holds event y t → ∀ b p, s.Covers b p → t.Covers b p → x = y) ∧
    ∀ x s, w.Holds event x s → ∃ blk ∈ w.db.seatBlocks, blk.id = s.block ∧ 0 ≤ s.start ∧ s.stop ≤ blk.capacity := by
  have hrebuild : Along (step cfg) (RebuildSafe event) w₀ acts := rebuildSafe_of_noRebuild hbuilt.start hno
  have hinv : SeatInv event w :=
    exec_invariant (fun _ _ _ hC hs hi => hi.step hC.1 hC.2 hs) hbuilt.seatInv (hsafe.and hrebuild) h
  exact ⟨fun x y s t hx hy b p hs ht => hinv.holds_unique hx hy hs ht, fun x s hx => hinv.holds_inside hx⟩

/-- The request's two seats are committed in time. -/
theorem seat_has_one_holder_prompt :
    ∃ w, exec (step {}) seatedStart (seatRequest ++ promptConsumer) = some w ∧
      (⟨1, 1, 1, 7, 0, 2, none⟩ : SeatHold) ∈ w.db.seatHolds ∧
      ∀ x s, w.Holds 1 x s → s.Covers 1 1 → x = .hold ⟨1, 1, 1, 7, 0, 2, none⟩ := by
  obtain ⟨w, hw, hp⟩ := exec_any (step {}) seatedStart (seatRequest ++ promptConsumer)
    (fun w => (⟨1, 1, 1, 7, 0, 2, none⟩ : SeatHold) ∈ w.db.seatHolds) (by decide +kernel)
  rw [decide_eq_true_eq] at hp
  have hsafe : Along (step {}) CommitSafe seatedStart (seatRequest ++ promptConsumer) :=
    commitSafe_of_noDeadLetter seatedStart_built.start
      (Along.of_forall (by simp [seatRequest, promptConsumer, NoDeadLetter]))
  have hno : Along (step {}) NoRebuild seatedStart (seatRequest ++ promptConsumer) :=
    Along.of_forall (by simp [seatRequest, promptConsumer, NoRebuild])
  refine ⟨w, hw, hp, fun x s hx hs => ?_⟩
  exact (seat_has_one_holder seatedStart_built hsafe hno hw).1 x (.hold ⟨1, 1, 1, 7, 0, 2, none⟩) s ⟨1, 0, 2⟩ hx
    ⟨hp, rfl, rfl⟩ 1 1 hs ⟨rfl, by decide, by decide⟩

end Ticketing
