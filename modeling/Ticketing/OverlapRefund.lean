import Ticketing.Steps

/-!
# Refunds of rejected overlaps

When the runs of a zone are damaged, the claim script may hand out seats that another order holds.  The
database refuses such an intent (`ex_seat_holds_no_overlap`), and `rebuild_zone_runs` and `_persist_intent`
both say what must not happen next: its interval must not be given back, because part of it belongs to
somebody else.  `_dead_letter_intent` gives it back all the same, since it asks only whether the order was
persisted (`rejected_overlap_is_resold`).

What stands between the held seats and the sale is the release script, which knows nothing of the holds.  The
interval stays out of the free runs exactly when the script refuses it for a reason of its own
(`overlap_not_resold_iff`), or when the two boundary tags next to it are damaged in a way no script writes.
-/

namespace Ticketing

open Exec Span

/-! ### The release script on damaged zones -/

namespace ZoneKeys

/-- Where the interval that the release script writes begins: the left neighbour is looked up in `ends`. -/
def mergedStart (z : ZoneKeys) (block : BlockId) (lo : Int) : Int := (z.ends.lookup ⟨block, lo⟩).getD lo

/-- Where it ends: the right neighbour is looked up in `runs`. -/
def mergedStop (z : ZoneKeys) (block : BlockId) (hi : Int) : Int := hi + (z.runs.lookup ⟨block, hi⟩).getD 0

variable {z : ZoneKeys} {block b : BlockId} {lo hi p : Int}

private theorem giveBack_start : (z.giveBack block lo hi).1 = z.mergedStart block lo := rfl

/-- The right neighbour is looked up after the left one is erased, which matters only when they are the same run. -/
private theorem giveBack_stop : (z.giveBack block lo hi).2.1 =
    if z.ends.lookup ⟨block, lo⟩ = some hi then hi else z.mergedStop block hi := by
  unfold giveBack mergedStop
  cases hl : z.ends.lookup ⟨block, lo⟩ with
  | none =>
    simp only [Option.elim_none, reduceCtorEq, if_false]
    cases z.runs.lookup ⟨block, hi⟩ <;> simp
  | some s =>
    simp only [Option.elim_some, Option.some.injEq, Hash.lookup_erase_ite, Field.mk.injEq, true_and]
    by_cases hs : s = hi
    · simp [hs]
    · simp only [hs, Ne.symm hs, if_false]
      cases z.runs.lookup ⟨block, hi⟩ <;> simp

private theorem runs_giveBack (k : Field) {n : Int} (h : (z.giveBack block lo hi).2.2.runs.lookup k = some n) :
    (k = ⟨block, (z.giveBack block lo hi).1⟩ ∧ n = (z.giveBack block lo hi).2.1 - (z.giveBack block lo hi).1) ∨
      z.runs.lookup k = some n := by
  have herase : ∀ {r : Hash Field Int} {k' : Field}, (r.erase k').lookup k = some n → r.lookup k = some n := by
    intro r k' h
    rw [Hash.lookup_erase_ite] at h
    split at h
    · cases h
    · exact h
  rw [giveBack] at h ⊢
  simp only [Hash.lookup_insert_ite] at h ⊢
  split at h
  · exact .inl ⟨by assumption, (Option.some.inj h).symm⟩
  · right
    revert h
    cases z.ends.lookup ⟨block, lo⟩ with
    | none =>
      simp only [Option.elim_none]
      cases z.runs.lookup ⟨block, hi⟩ with
      | none => exact id
      | some m => exact herase
    | some s =>
      simp only [Option.elim_some]
      cases (z.runs.erase ⟨block, s⟩).lookup ⟨block, hi⟩ with
      | none => exact herase
      | some m => exact fun h => herase (herase h)

/-- A seat that is free after a release was free before, or lies in the interval written, whatever the hashes hold. -/
theorem free_of_free_giveBack (h : Free (z.giveBack block lo hi).2.2.parseRuns b p) :
    Free z.parseRuns b p ∨ b = block ∧ z.mergedStart block lo ≤ p ∧ p < z.mergedStop block hi := by
  obtain ⟨run, hr, rfl, hlo, hhi⟩ := h
  rcases runs_giveBack _ (mem_parseRuns.1 hr) with ⟨hk, hn⟩ | hold
  · obtain ⟨hb, hs⟩ := Field.mk.inj hk
    right
    simp only [stop, hn, hs, giveBack_stop, giveBack_start] at hlo hhi
    refine ⟨hb, hlo, ?_⟩
    split at hhi
    · -- the run that was erased on the left begins at `hi`: the interval written is empty
      rename_i heq
      rw [mergedStart, heq, Option.getD_some] at hlo hhi
      omega
    · omega
  · exact .inl ⟨run, mem_parseRuns.2 hold, rfl, hlo, hhi⟩

/-- The seats of the interval written are free after the release, or were free before. -/
theorem free_giveBack_of_merged (hlo : z.mergedStart block lo ≤ p) (hhi : p < z.mergedStop block hi) :
    Free (z.giveBack block lo hi).2.2.parseRuns block p ∨ Free z.parseRuns block p := by
  by_cases hs : z.ends.lookup ⟨block, lo⟩ = some hi
  · right
    rw [mergedStart, hs, Option.getD_some] at hlo
    unfold mergedStop at hhi
    cases hn : z.runs.lookup ⟨block, hi⟩ with
    | none =>
      rw [hn, Option.getD_none] at hhi
      omega
    | some n =>
      rw [hn, Option.getD_some] at hhi
      exact ⟨⟨block, hi, n⟩, mem_parseRuns.2 hn, rfl, hlo, hhi⟩
  · left
    have hstop : (z.giveBack block lo hi).2.1 = z.mergedStop block hi := by rw [giveBack_stop, if_neg hs]
    refine ⟨⟨block, (z.giveBack block lo hi).1, (z.giveBack block lo hi).2.1 - (z.giveBack block lo hi).1⟩,
      ?_, rfl, hlo, ?_⟩
    · refine mem_parseRuns.2 ?_
      rw [giveBack]
      exact AList.lookup_insert _
    · show p < (z.giveBack block lo hi).1 + ((z.giveBack block lo hi).2.1 - (z.giveBack block lo hi).1)
      rw [hstop]
      omega

end ZoneKeys

/-- The checks of the release script: the marker, the bounds of the block and the free runs. -/
def Redis.Refuses (r : Redis) (a : ReleaseSeatsArgs) : Prop :=
  r.released a.marker = true ∨
  (∃ g, (r.zones (a.event, a.zone)).geom.lookup a.block = some g ∧ (a.start < 0 ∨ g.capacity < a.start + a.length)) ∨
  MeetsFree (r.zones (a.event, a.zone)).parseRuns a.block a.start a.length

theorem SeatsReleased.not_refuses {w : World} {a : ReleaseSeatsArgs} (h : SeatsReleased w a) :
    ¬w.redis.Refuses a := by
  rintro (hm | ⟨g, hg, hout⟩ | hmeets)
  · rw [h.unmarked] at hm
    cases hm
  · have := h.bounds g hg
    omega
  · exact h.clear hmeets

theorem World.refuses_of_releaseSeats_none {w : World} {a : ReleaseSeatsArgs} (h : w.releaseSeats a = none) :
    w.redis.Refuses a := by
  unfold World.releaseSeats at h
  simp only at h
  rcases Ticketing.releaseSeats_cases w.redis a with ⟨hm, -⟩ | ⟨-, -, -, hout | hmeets⟩ | ⟨-, hok, -, -, -⟩
  · exact .inl hm
  · exact .inr (.inl hout)
  · exact .inr (.inr hmeets)
  · split at h
    · cases h
    · cases h
    all_goals
      rename_i hreply
      rw [hreply] at hok
      cases hok

/-! ### Processing one entry -/

/-- `ex_seat_holds_no_overlap` refuses the hold of the intent: a hold of the same event has one of its seats.
The order row of the intent passed the unique constraint on its key, so there is none with that key. -/
structure Db.RejectsOverlap (db : Db) (i : Intent) : Prop where
  new : db.hasKey i.key = false
  overlap : ∃ hold ∈ db.seatHolds, hold.event = i.event ∧
    ∃ s ∈ i.span, ∃ p, hold.span.Covers s.block p ∧ s.Covers s.block p

theorem Db.RejectsOverlap.insertIntent {db : Db} {i : Intent} (h : db.RejectsOverlap i) {zone : ZoneId}
    (hzone : i.zone = some zone) (id : OrderId) (fk : Bool) : db.insertIntent i id fk = none := by
  obtain ⟨hold, hmem, hevent, s, hs, p, ⟨hb, hlo, hhi⟩, -, hlo', hhi'⟩ := h.overlap
  refine if_neg ?_
  rintro ⟨-, -, hacc⟩
  obtain ⟨seat, hseat, rfl⟩ := Option.map_eq_some_iff.1 hs
  obtain ⟨-, -, -, -, hdisj⟩ := hacc ⟨i.event, zone, seat.block, id, seat.startPos, i.quantity, none⟩
    (by simp [Intent.hold, hzone, hseat])
  have := hdisj hold hmem hevent hb
  simp only [SeatHold.span, stop] at *
  omega

/-- A step of a consumer or of a reclaim pass that works on the entry. -/
def Act.processes (entry : StreamId) : Act → Prop
  | .settle (.deliver _ id) => id = entry
  | .settle (.list _ id) => id = entry
  | .settle _ => True
  | _ => False

/-- The existence check of the dead-letter path found an order. -/
private def HandlerPhase.spared : HandlerPhase → Bool
  | .checked true | .parked true => true
  | _ => false

section Processing

variable {cfg : Settings} {w w' : World} {entry : StreamId} {i : Intent}

/-- Everyone who works on an entry works on the entry of this intent, and no one has found an order for it. -/
private structure Working (entry : StreamId) (i : Intent) (w : World) : Prop where
  stream : ∀ e ∈ w.redis.stream, e.id = entry → e.intent = i
  handlers : ∀ n x, w.handlers n = some x → x.intent = i ∧ x.phase.spared = false

private theorem Working.set {n : Nat} {y : Option Handler} (hw : Working entry i w)
    (hhand : w'.handlers = Function.update w.handlers n y)
    (hstream : ∀ e' ∈ w'.redis.stream, ∃ e ∈ w.redis.stream, e.id = e'.id ∧ e.intent = e'.intent)
    (hy : ∀ x ∈ y, x.intent = i ∧ x.phase.spared = false) : Working entry i w' where
  stream e' he' hid := by
    obtain ⟨e, he, hid', hint⟩ := hstream e' he'
    exact hint ▸ hw.stream e he (hid'.trans hid)
  handlers m x hx := by
    rw [hhand] at hx
    by_cases hm : m = n
    · subst hm
      rw [Function.update_self] at hx
      exact hy x hx
    · rw [Function.update_of_ne hm] at hx
      exact hw.handlers m x hx

/-- What the steps other than the refund do: they leave the zones and the markers as they are. -/
private structure Idle (w w' : World) : Prop where
  db : w'.db = w.db
  zones : w'.redis.zones = w.redis.zones
  released : w'.redis.released = w.redis.released

private theorem working_deliver {n : Nat} {e : StreamEntry} {p : HandlerPhase} {redis : Redis}
    (hw : Working entry i w)
    (he : w.redis.entry entry = some e) (hp : p.spared = false) (hq : w.redis.Quiet redis) :
    Working entry i { w.setHandler n (some ⟨entry, e.intent, p⟩) with redis } := by
  refine hw.set rfl hq.stream ?_
  rintro x ⟨⟩
  obtain ⟨hmem, hid⟩ := Redis.mem_of_entry he
  exact ⟨hw.stream e hmem hid, hp⟩

private theorem working_phase {n : Nat} {x : Handler} {p : HandlerPhase} {redis : Redis} (hw : Working entry i w)
    (hx : w.handlers n = some x) (hp : p.spared = false) (hq : w.redis.Quiet redis) :
    Working entry i { w.setHandler n (some { x with phase := p }) with redis } := by
  refine hw.set rfl hq.stream ?_
  rintro y ⟨⟩
  exact ⟨(hw.handlers n x hx).1, hp⟩

private theorem working_none {n : Nat} {redis : Redis} (hw : Working entry i w) (hq : w.redis.Quiet redis) :
    Working entry i { w.setHandler n none with redis } := by
  refine hw.set rfl hq.stream ?_
  rintro y ⟨⟩

private theorem working_step {a : SettleAct} (hw : Working entry i w) (hrej : w.db.RejectsOverlap i) {zone : ZoneId}
    (hzone : i.zone = some zone) (ha : Act.processes entry (.settle a)) (hr : ∀ n, a ≠ .refund n)
    (h : stepSettle cfg w a = some w') : Working entry i w' ∧ Idle w w' := by
  have hnew : ∀ {n x}, w.handlers n = some x → w.db.hasKey x.intent.key = false := by
    intro n x hx
    rw [(hw.handlers n x hx).1, hrej.new]
  cases stepSettle_move h with
  | @deliver n id e he hnew =>
    obtain rfl : id = entry := ha
    exact ⟨working_deliver hw he rfl (.deliver w.redis id), rfl, rfl, rfl⟩
  | @list n id e he hpending =>
    obtain rfl : id = entry := ha
    exact ⟨working_deliver hw he rfl (.refl w.redis), rfl, rfl, rfl⟩
  | claimGone hx hp hgone => exact ⟨working_none hw (.refl w.redis), rfl, rfl, rfl⟩
  | @claim n times x e hx hp he =>
    refine ⟨working_phase hw hx ?_ (.deliver w.redis x.entry), rfl, rfl, rfl⟩
    split <;> rfl
  | @persist n id fk x db hx hp hcons hdb =>
    rw [(hw.handlers n x hx).1, hrej.insertIntent hzone] at hdb
    cases hdb
  | reject hx hp hcons hdb => exact ⟨working_phase hw hx rfl (.refl w.redis), rfl, rfl, rfl⟩
  | inconsistent hx hp hcons => exact ⟨working_none hw (.refl w.redis), rfl, rfl, rfl⟩
  | duplicate hx hp hkey =>
    rw [hnew hx] at hkey
    cases hkey
  | unresolved hx hp hkey => exact ⟨working_none hw (.refl w.redis), rfl, rfl, rfl⟩
  | check hx hp =>
    rw [hnew hx]
    exact ⟨working_phase hw hx rfl (.refl w.redis), rfl, rfl, rfl⟩
  | @park n already x hx hp =>
    have hspared := (hw.handlers n x hx).2
    refine ⟨working_phase hw hx ?_ (.addDead w.redis x.intent x.entry), rfl, rfl, rfl⟩
    rw [hp] at hspared
    cases already
    · rfl
    · cases hspared
  | @keep n | @refund n | @refundFails n => exact absurd rfl (hr n)
  | @markFailed n x hx hp => exact ⟨working_phase hw hx rfl (.setClaim w.redis x.intent.key .failed), rfl, rfl, rfl⟩
  | @ack n x hx hp => exact ⟨working_none hw (.ackAndRemove w.redis x.entry), rfl, rfl, rfl⟩
  | stop hx => exact ⟨working_none hw (.refl w.redis), rfl, rfl, rfl⟩

/-- The refund calls the release script, which refuses the interval or gives it back. -/
private theorem refund_step {n : Nat} {zone : ZoneId} {seat : SeatField} (hw : Working entry i w)
    (hzone : i.zone = some zone) (hseat : i.seat = some seat) (h : stepSettle cfg w (.refund n) = some w') :
    Working entry i w' ∧
      (w.redis.Refuses (i.releaseSeatsArgs zone seat) ∧ Idle w w' ∨
        ¬w.redis.Refuses (i.releaseSeatsArgs zone seat) ∧ w'.db = w.db ∧
          w'.redis = w.redis.giveBackSeats (i.releaseSeatsArgs zone seat)) := by
  have hrefund : ∀ {x}, w.handlers n = some x → w.refund x.intent = w.releaseSeats
      (i.releaseSeatsArgs zone seat) := by
    intro x hx
    rw [(hw.handlers n x hx).1, World.refund, hseat, hzone]
  cases stepSettle_move h with
  | @keep n x hx hp =>
    have hspared := (hw.handlers n x hx).2
    rw [hp] at hspared
    cases hspared
  | @refund n x w₁ hx hp hw₁ =>
    rw [hrefund hx] at hw₁
    rcases World.releaseSeats_cases hw₁ with ⟨hok, rfl⟩ | ⟨hm, heq⟩
    · refine ⟨hw.set rfl (fun e he => ⟨e, he, rfl, rfl⟩) ?_, .inr ⟨hok.not_refuses, rfl, rfl⟩⟩
      rintro y ⟨⟩
      exact ⟨(hw.handlers n x hx).1, rfl⟩
    · subst heq
      exact ⟨working_phase hw hx rfl (.refl w₁.redis), .inl ⟨.inl hm, rfl, rfl, rfl⟩⟩
  | refundFails hx hp hnone =>
    rw [hrefund hx] at hnone
    exact ⟨working_none hw (.refl w.redis), .inl ⟨World.refuses_of_releaseSeats_none hnone, rfl, rfl, rfl⟩⟩

/-- What the processing of an entry has done so far: nothing to the zones, and then every refund was refused, or the
interval was given back to the zones as they were. -/
private structure SoFar (w : World) (entry : StreamId) (i : Intent) (a : ReleaseSeatsArgs)
    (acts : List Act) (w' : World) :
    Prop where
  working : Working entry i w'
  db : w'.db = w.db
  zones : (w'.redis.zones = w.redis.zones ∧ w'.redis.released = w.redis.released ∧
      ((∃ n, .settle (.refund n) ∈ acts) → w.redis.Refuses a)) ∨
    ¬w.redis.Refuses a ∧ w'.redis.zones = (w.redis.giveBackSeats a).zones ∧ w'.redis.released a.marker = true

private theorem SoFar.idle {a : ReleaseSeatsArgs} {acts : List Act} {s s' : World} {act : Act}
    (h : SoFar w entry i a acts s)
    (hw : Working entry i s') (hi : Idle s s') (hact : ∀ n, act = .settle (.refund n) → s.redis.Refuses a) :
    SoFar w entry i a (acts ++ [act]) s' where
  working := hw
  db := hi.db.trans h.db
  zones := by
    rcases h.zones with ⟨hz, hrel, href⟩ | ⟨hno, hz, hm⟩
    · refine .inl ⟨hi.zones.trans hz, hi.released.trans hrel, ?_⟩
      rintro ⟨n, hn⟩
      rcases List.mem_append.1 hn with hn | hn
      · exact href ⟨n, hn⟩
      · have hrefuses := hact n (List.mem_singleton.1 hn).symm
        unfold Redis.Refuses at hrefuses ⊢
        rwa [hz, hrel] at hrefuses
    · exact .inr ⟨hno, hi.zones.trans hz, by rw [hi.released, hm]⟩

private theorem SoFar.step {zone : ZoneId} {seat : SeatField} {acts : List Act} {s s' : World} {act : Act}
    (hrej : w.db.RejectsOverlap i) (hzone : i.zone = some zone) (hseat : i.seat = some seat)
    (hact : act.processes entry) (hstep : Ticketing.step cfg s act = some s')
    (h : SoFar w entry i (i.releaseSeatsArgs zone seat) acts s) :
    SoFar w entry i (i.releaseSeatsArgs zone seat) (acts ++ [act]) s' := by
  cases act with
  | settle a =>
    by_cases ha : ∃ n, a = .refund n
    · obtain ⟨n, rfl⟩ := ha
      obtain ⟨hw, ⟨hrefuses, hidle⟩ | ⟨hno, hdb, hredis⟩⟩ := refund_step h.working hzone hseat hstep
      · exact h.idle hw hidle fun _ _ => hrefuses
      · refine ⟨hw, hdb.trans h.db, .inr ?_⟩
        rcases h.zones with ⟨hz, hrel, -⟩ | ⟨-, -, hm⟩
        · have hno' : ¬w.redis.Refuses (i.releaseSeatsArgs zone seat) := by
            unfold Redis.Refuses at hno ⊢
            rwa [hz, hrel] at hno
          refine ⟨hno', ?_, ?_⟩
          · rw [hredis, zones_giveBackSeats, zones_giveBackSeats, hz]
          · rw [hredis]
            exact Function.update_self ..
        · exact absurd (.inl hm) hno
    · have hne : ∀ n, a ≠ .refund n := fun n hn => ha ⟨n, hn⟩
      obtain ⟨hw, hidle⟩ := working_step h.working (h.db ▸ hrej) hzone hact hne hstep
      exact h.idle hw hidle fun n hn => absurd (Act.settle.inj hn) (hne n)
  | _ => exact hact.elim

end Processing

/-! ### Held seats on sale -/

/-- No seat of a hold row gets into a free run. -/
def World.KeepsHeld (w w' : World) : Prop :=
  ∀ hold ∈ w.db.seatHolds, ∀ zone p, hold.span.Covers hold.block p →
    Free (w'.redis.zones (hold.event, zone)).parseRuns hold.block p →
      Free (w.redis.zones (hold.event, zone)).parseRuns hold.block p

/-- The interval that a release writes has no held seat that is not free already. -/
def World.MissesHeld (w : World) (a : ReleaseSeatsArgs) : Prop :=
  ∀ hold ∈ w.db.seatHolds, hold.event = a.event → ∀ p, hold.span.Covers a.block p →
    (w.redis.zones (a.event, a.zone)).mergedStart a.block a.start ≤ p →
    p < (w.redis.zones (a.event, a.zone)).mergedStop a.block (a.start + a.length) →
      Free (w.redis.zones (a.event, a.zone)).parseRuns a.block p

/-- The boundary tags next to the interval are such as the scripts write: the left neighbour begins before the
interval and the right neighbour has no negative length. -/
def ZoneKeys.TagsPoint (z : ZoneKeys) (a : ReleaseSeatsArgs) : Prop :=
  z.mergedStart a.block a.start ≤ a.start ∧ a.start + a.length ≤ z.mergedStop a.block (a.start + a.length)

theorem World.keepsHeld_giveBack_iff {w w' : World} {a : ReleaseSeatsArgs}
    (hz : w'.redis.zones = (w.redis.giveBackSeats a).zones) : w.KeepsHeld w' ↔ w.MissesHeld a := by
  constructor
  · intro hkeep hold hmem hevent p hcov hlo hhi
    have hblock : hold.block = a.block := hcov.1
    rcases ZoneKeys.free_giveBack_of_merged hlo hhi with hfree | hfree
    · have hafter : Free (w'.redis.zones (hold.event, a.zone)).parseRuns hold.block p := by
        rw [hz, zones_giveBackSeats, hevent, hblock, Function.update_self]
        exact hfree
      have hbefore := hkeep hold hmem a.zone p ⟨rfl, hcov.2⟩ hafter
      rwa [hevent, hblock] at hbefore
    · exact hfree
  · intro hmiss hold hmem zone p hcov hfree
    rw [hz, zones_giveBackSeats] at hfree
    by_cases hk : (hold.event, zone) = (a.event, a.zone)
    · rw [hk, Function.update_self, ZoneKeys.parseRuns_addAvailable] at hfree
      obtain ⟨hevent, rfl⟩ := Prod.mk.inj hk
      rw [hk]
      rcases ZoneKeys.free_of_free_giveBack hfree with hbefore | ⟨hb, hlo, hhi⟩
      · exact hbefore
      · rw [hb] at hcov ⊢
        exact hmiss hold hmem hevent p hcov hlo hhi
    · rwa [Function.update_of_ne hk] at hfree

/-- An overlap that the release script does not refuse and whose neighbours point the right way puts a held
seat on sale. -/
private theorem Db.RejectsOverlap.not_missesHeld {w : World} {i : Intent} {zone : ZoneId} {seat : SeatField}
    (hrej : w.db.RejectsOverlap i) (hseat : i.seat = some seat)
    (hok : ¬w.redis.Refuses (i.releaseSeatsArgs zone seat))
    (htags : (w.redis.zones (i.event, zone)).TagsPoint (i.releaseSeatsArgs zone seat)) :
    ¬w.MissesHeld (i.releaseSeatsArgs zone seat) := by
  intro hmiss
  obtain ⟨hold, hmem, hevent, s, hs, p, hcov, -, hlo, hhi⟩ := hrej.overlap
  obtain rfl : (⟨seat.block, seat.startPos, i.quantity⟩ : Run) = s := by
    simpa [Intent.span, hseat] using hs
  obtain ⟨run, hrun, hb, hrlo, hrhi⟩ := hmiss hold hmem hevent p hcov (htags.1.trans hlo) (lt_of_lt_of_le hhi htags.2)
  refine hok (.inr (.inr ⟨run, hrun, hb, ?_, ?_⟩))
  · exact lt_of_le_of_lt hrlo hhi
  · exact lt_of_le_of_lt hlo hrhi

/-- When a rejected overlap is dead-lettered, the seats of the hold rows stay out of the free runs exactly
when the release script refuses the interval, or when what it writes misses all of them.  The second needs
damaged tags: where the tags next to the interval point the right way, it is the refusal alone. -/
theorem overlap_not_resold_iff {cfg : Settings} {w w' : World} {entry : StreamId} {i : Intent} {zone : ZoneId}
    {seat : SeatField} {acts : List Act} (hzone : i.zone = some zone) (hseat : i.seat = some seat)
    (hrej : w.db.RejectsOverlap i) (hstream : ∀ e ∈ w.redis.stream, e.id = entry → e.intent = i)
    (hidle : ∀ n, w.handlers n = none) (hacts : ∀ a ∈ acts, a.processes entry)
    (hrefund : ∃ n, .settle (.refund n) ∈ acts) (hrun : exec (step cfg) w acts = some w') :
    (w.KeepsHeld w' ↔ w.redis.Refuses (i.releaseSeatsArgs zone seat) ∨ w.MissesHeld (i.releaseSeatsArgs zone seat)) ∧
      ((w.redis.zones (i.event, zone)).TagsPoint (i.releaseSeatsArgs zone seat) →
        (w.KeepsHeld w' ↔ w.redis.Refuses (i.releaseSeatsArgs zone seat))) := by
  have hsofar : SoFar w entry i (i.releaseSeatsArgs zone seat) acts w' := by
    refine exec_history (C := fun _ a => a.processes entry)
      (J := SoFar w entry i (i.releaseSeatsArgs zone seat)) ?_ ?_
      (.of_forall fun a ha _ => hacts a ha) hrun
    · refine ⟨⟨hstream, fun n x hx => ?_⟩, rfl, .inl ⟨rfl, rfl, ?_⟩⟩
      · rw [hidle n] at hx
        cases hx
      · rintro ⟨n, hn⟩
        cases hn
    · intro as t a t' _ ha ht hJ
      exact hJ.step hrej hzone hseat ha ht
  rcases hsofar.zones with ⟨hz, -, href⟩ | ⟨hno, hz, -⟩
  · have hkeep : w.KeepsHeld w' := by
      intro hold _ zone' p _ hfree
      rwa [hz] at hfree
    have hrefuses := href hrefund
    exact ⟨iff_of_true hkeep (.inl hrefuses), fun _ => iff_of_true hkeep hrefuses⟩
  · rw [World.keepsHeld_giveBack_iff hz]
    refine ⟨⟨.inr, fun h => h.resolve_left hno⟩, fun htags => iff_of_false ?_ hno⟩
    exact hrej.not_missesHeld hseat hno htags

/-- An intent for the last two seats of the sample zone, which order 3 holds. -/
def overlappingIntent : Intent :=
  { user := 8, event := 1, quantity := 2, totalPriceCents := 100, key := 5, zone := some 1, seat := some ⟨1, 4⟩ }

def overlapStart : World where
  redis := { sampleRedis with stream := [⟨1, overlappingIntent, 0⟩], lastId := 1 }
  db :=
    { orders := [{ id := 3, user := 7, event := 1, zone := some 1, quantity := 2, totalPriceCents := 100, key := 3 }]
      seatHolds := [{ event := 1, zone := 1, block := 1, order := 3, startPos := 4, length := 2 }]
      outbox := []
      seatBlocks := [{ id := 1, zone := 1, capacity := 6, capacity_pos := by decide,
                       quality_range := SeatBlock.default_quality_range }]
      events := fun _ => some ⟨6, true⟩ }

/-- A reclaim pass whose retry the database rejects. -/
def rejectedRetry : List Act :=
  [.settle (.list 1 1), .settle (.claim 1), .settle (.persist 1 7 true), .settle (.lookUp 1)]

/-- Five rejections and the dead-letter pass. -/
def rejectedIntent : List Act :=
  [.settle (.deliver 0 1), .settle (.persist 0 7 true), .settle (.lookUp 0)] ++ rejectedRetry ++ rejectedRetry ++
    rejectedRetry ++ rejectedRetry ++
    [.settle (.list 1 1), .settle (.claim 1), .settle (.check 1), .settle (.park 1), .settle (.refund 1),
      .settle (.markFailed 1), .settle (.ack 1)]

private theorem overlapStart_rejects : overlapStart.db.RejectsOverlap overlappingIntent where
  new := rfl
  overlap := ⟨_, List.mem_singleton_self _, rfl, ⟨1, 4, 2⟩, rfl, 4, ⟨rfl, by decide, by decide⟩, rfl, by
    decide, by decide⟩

private theorem rejectedIntent_processes : ∀ a ∈ rejectedIntent, a.processes 1 := by
  simp [rejectedIntent, rejectedRetry, Act.processes]

/-- The two seats that order 3 holds are on sale again after the dead-letter pass. -/
theorem rejected_overlap_is_resold :
    overlapStart.db.RejectsOverlap overlappingIntent ∧ (∀ a ∈ rejectedIntent, a.processes 1) ∧
      ∃ w, exec (step {}) overlapStart rejectedIntent = some w ∧ w.redis.stream = [] ∧ ¬overlapStart.KeepsHeld w := by
  refine ⟨overlapStart_rejects, rejectedIntent_processes, ?_⟩
  obtain ⟨w, hw, hp⟩ := exec_any (step {}) overlapStart rejectedIntent
    (fun w => w.redis.stream = [] ∧ (⟨1, 0, 6⟩ : Run) ∈ (w.redis.zones (1, 1)).parseRuns) (by decide +kernel)
  rw [decide_eq_true_eq] at hp
  refine ⟨w, hw, hp.1, fun hkeep => ?_⟩
  obtain ⟨run, hrun, -, -, hhi⟩ := hkeep _ (List.mem_singleton_self _) 1 4 ⟨rfl, by decide, by decide⟩
    ⟨_, hp.2, rfl, by decide, by decide⟩
  -- before the pass the only free run ended where the held seats begin
  obtain rfl : run = ⟨1, 0, 4⟩ := by simpa [ZoneKeys.parseRuns, overlapStart, sampleRedis, sampleZone] using hrun
  exact absurd hhi (by decide)

theorem rejected_overlap_is_resold_unless_refused :
    ∃ w, exec (step {}) overlapStart rejectedIntent = some w ∧
      (overlapStart.KeepsHeld w ↔ overlapStart.redis.Refuses (overlappingIntent.releaseSeatsArgs 1 ⟨1, 4⟩)) := by
  obtain ⟨w, hw, -⟩ := exec_any (step {}) overlapStart rejectedIntent (fun _ => true) (by decide +kernel)
  refine ⟨w, hw, (overlap_not_resold_iff rfl rfl overlapStart_rejects ?_ (fun _ => rfl) rejectedIntent_processes
    ⟨1, by decide⟩ hw).2 ⟨by decide, by decide⟩⟩
  intro e he _
  rw [List.mem_singleton.1 he]

end Ticketing
