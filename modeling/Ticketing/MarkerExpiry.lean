import Ticketing.Ledger
import Ticketing.Settlement

/-!
# Released markers that expire

`released:{marker}` keeps a release from being carried out twice.  It lives for a day, while the outbox row
that asks for the release lives until the relay has processed it: after an outage of the relay, or when a row
that has used up its attempts is set back by hand, the marker of the fast path may be gone, and the quantity
is put back again (`late_relay_releases_twice`).

For an order without seats this is the whole story: it is released at most once exactly when every call of
`release` for it comes less than the time to live after the first (`released_at_most_once_iff`).

Time is a clock in milliseconds that moves between two steps of the pipeline.
-/

namespace Ticketing

open Exec

/-- `ttl_seconds` of `release` and `release_seats`, in milliseconds. -/
def releasedTtl : Nat := 86400 * 1000

def Returned.marker : Returned → Marker
  | .quantity a => a.marker
  | .seats a => a.marker

/-- How often the scripts have carried out the release of an order. -/
def World.releasesOf (w : World) (id : OrderId) : Nat := w.returned.countP fun r => r.marker = .order id

/-- The order for which the release script is called. -/
def World.releasing (w : World) : Act → Option OrderId
  | .release (.releaseQuantity n) => (w.releases n).map fun x => x.order.id
  | _ => none

inductive MarkerAct where
  | act (a : Act)
  /-- Time passes. -/
  | tick (ms : Nat)
deriving DecidableEq

/-- The pipeline with a clock and markers that expire.  `calls` records the calls of the release script and is
not read. -/
structure MarkerWorld where
  world : World
  clock : Nat := 0
  expiry : Marker → Nat := fun _ => 0
  calls : List (OrderId × Nat) := []

namespace MarkerWorld

/-- The markers set by a step get their time to live. -/
def after (s : MarkerWorld) (a : Act) (w : World) : MarkerWorld where
  world := w
  clock := s.clock
  expiry m := if s.world.redis.released m = false ∧ w.redis.released m = true then s.clock + releasedTtl
    else s.expiry m
  calls := s.calls ++ (s.world.releasing a).toList.map fun id => (id, s.clock)

/-- The markers whose time to live has ended are gone. -/
def tick (s : MarkerWorld) (ms : Nat) : MarkerWorld :=
  { s with
    clock := s.clock + ms
    world := { s.world with redis := { s.world.redis with
      released := fun m => s.world.redis.released m && decide (s.clock + ms < s.expiry m) } } }

def step (cfg : Settings) (s : MarkerWorld) : MarkerAct → Option MarkerWorld
  | .act a => (Ticketing.step cfg s.world a).map (s.after a)
  | .tick ms => some (s.tick ms)

structure Start (s : MarkerWorld) : Prop where
  world : s.world.Start
  linked : s.world.db.Linked
  calls : s.calls = []

/-- When the release of an order was called. -/
def callTimes (s : MarkerWorld) (id : OrderId) : List Nat := (s.calls.filter fun c => c.1 = id).map Prod.snd

/-- No call of the release of the order comes after the marker of the first call has expired. -/
def Timely (s : MarkerWorld) (id : OrderId) : Prop :=
  ∀ first ∈ (s.callTimes id).head?, ∀ t ∈ s.callTimes id, t < first + releasedTtl

end MarkerWorld

/-! ### What a step does to the release of one order -/

section Effect

variable {cfg : Settings} {w w' : World}

/-- A step leaves the release of the order alone. -/
private def Untouched (w w' : World) (id : OrderId) : Prop :=
  w'.redis.released (.order id) = w.redis.released (.order id) ∧ w'.releasesOf id = w.releasesOf id

private theorem untouched_returned {id : OrderId} {r : Returned} (hr : r.marker ≠ .order id)
    (hrel : w'.redis.released = Function.update w.redis.released r.marker true)
    (hret : w'.returned = w.returned ++ [r]) : Untouched w w' id := by
  constructor
  · rw [hrel, Function.update_of_ne (Ne.symm hr)]
  · simp [World.releasesOf, hret, List.countP_append, hr]

/-- The call of `release`: the first one under a marker puts the quantity back, any other does nothing. -/
private theorem releaseQuantity_effect {n : Nat} (h : step cfg w (.release (.releaseQuantity n)) = some w') :
    ∃ x, w.releases n = some x ∧
      ((w.redis.released (.order x.order.id) = true ∧ w'.redis = w.redis ∧ w'.returned = w.returned) ∨
        w.redis.released (.order x.order.id) = false ∧
          w'.redis.released = Function.update w.redis.released (.order x.order.id) true ∧
          w'.returned = w.returned ++ [.quantity x.order.releaseArgs]) := by
  obtain ⟨x, hx, h⟩ := Option.bind_eq_some_iff.1 h
  refine ⟨x, hx, ?_⟩
  split at h
  · rcases w.releaseQuantity_cases x.order.releaseArgs with ⟨hm, heq⟩ | ⟨hm, heq⟩
    · rw [heq] at h
      obtain rfl := Option.some.inj h
      exact .inr ⟨hm, rfl, rfl⟩
    · rw [heq] at h
      obtain rfl := Option.some.inj h
      exact .inl ⟨hm, rfl, rfl⟩
  · cases h

private theorem releaseSeats_effect {n : Nat} (h : stepRelease w (.releaseSeats n) = some w') (id : OrderId) :
    (∃ n x, w.releases n = some x ∧ x.order.id = id ∧ x.order.zone ≠ none) ∨ Untouched w w' id := by
  obtain ⟨x, hx, h⟩ := Option.bind_eq_some_iff.1 h
  split at h
  · rename_i hold zone _ hz
    split at h
    · rename_i w₁ hw₁
      obtain rfl := Option.some.inj h
      rcases World.releaseSeats_cases hw₁ with ⟨-, heq⟩ | ⟨-, heq⟩
      · subst heq
        by_cases hid : x.order.id = id
        · exact .inl ⟨n, x, hx, hid, by simp [hz]⟩
        · exact .inr (untouched_returned (r := .seats (x.order.releaseSeatsArgs zone hold))
            (fun hEq => hid (Marker.order.inj hEq)) rfl rfl)
      · rw [heq]
        exact .inr ⟨rfl, rfl⟩
    · obtain rfl := Option.some.inj h
      exact .inr ⟨rfl, rfl⟩
  · cases h

/-- Only the calls of `release` and the release of its seats touch the marker of an order. -/
private theorem step_effect {a : Act} (h : step cfg w a = some w') (id : OrderId) :
    w.releasing a = some id ∨ (∃ n x, w.releases n = some x ∧ x.order.id = id ∧ x.order.zone ≠ none) ∨
      Untouched w w' id := by
  cases a with
  | intake a =>
    rcases stepIntake_cases h with ⟨b, -, rfl⟩ | ⟨n, call, b, -, -, rfl⟩ | ⟨zones, calls, -, -, rfl⟩ <;>
      exact .inr (.inr ⟨rfl, rfl⟩)
  | settle a =>
    rcases stepSettle_cases h with ⟨n, x, oid, fk, db, -, -, -, -, -, rfl⟩ | ⟨n, x, w₁, -, -, hw₁, rfl⟩ |
      ⟨redis, handlers, hq, -, rfl⟩
    · exact .inr (.inr ⟨rfl, rfl⟩)
    · rcases World.refund_cases hw₁ with ⟨-, -, rfl⟩ | ⟨seat, zone, -, -, -, rfl⟩ | rfl
      · exact .inr (.inr (untouched_returned (r := .quantity x.intent.releaseArgs) (by rintro ⟨⟩) rfl rfl))
      · exact .inr (.inr (untouched_returned (r := .seats (x.intent.releaseSeatsArgs zone seat))
          (by rintro ⟨⟩) rfl rfl))
      · exact .inr (.inr ⟨rfl, rfl⟩)
    · exact .inr (.inr ⟨congrFun hq.released _, rfl⟩)
  | transition oid new now =>
    obtain ⟨db, -, rfl⟩ := Option.map_eq_some_iff.1 h
    exact .inr (.inr ⟨rfl, rfl⟩)
  | release a =>
    cases a with
    | releaseQuantity n =>
      obtain ⟨x, hx, heffect⟩ := releaseQuantity_effect h
      by_cases hid : x.order.id = id
      · exact .inl (by simp [World.releasing, hx, hid])
      · rcases heffect with ⟨-, hsame, hret⟩ | ⟨-, hm, hret⟩
        · exact .inr (.inr ⟨by rw [hsame], by rw [World.releasesOf, hret, World.releasesOf]⟩)
        · exact .inr (.inr (untouched_returned (r := .quantity x.order.releaseArgs)
            (fun hEq => hid (Marker.order.inj hEq))
            hm hret))
    | releaseSeats n => exact .inr (releaseSeats_effect h id)
    | redrive row =>
      obtain rfl := Option.some.inj h
      exact .inr (.inr ⟨rfl, rfl⟩)
    | stop n =>
      obtain rfl := Option.some.inj h
      exact .inr (.inr ⟨rfl, rfl⟩)
    | _ =>
      obtain ⟨x, -, h⟩ := Option.bind_eq_some_iff.1 h
      (repeat' split at h) <;> first | (obtain rfl := Option.some.inj h; exact .inr (.inr ⟨rfl, rfl⟩)) | cases h
  | reconcile a =>
    rcases stepReconcile_cases h with ⟨n, job, remaining, owing, -, -, -, rfl⟩ | ⟨n, job, rows, -, -, rfl⟩ |
      ⟨reconciles, -, rfl⟩ <;> exact .inr (.inr ⟨rfl, rfl⟩)
  | rebuild a =>
    rcases stepRebuild_cases h with ⟨n, job, blocks, held, -, -, -, rfl⟩ | ⟨rebuilds, -, rfl⟩ <;>
      exact .inr (.inr ⟨rfl, rfl⟩)
  | lose event =>
    obtain rfl := Option.some.inj h
    exact .inr (.inr ⟨rfl, rfl⟩)

private theorem World.eq_releaseQuantity_of_releasing {a : Act} {id : OrderId} (h : w.releasing a = some id) :
    ∃ n, a = .release (.releaseQuantity n) := by
  unfold World.releasing at h
  split at h
  · exact ⟨_, rfl⟩
  · cases h

end Effect

/-! ### Runs -/

namespace MarkerWorld

variable {cfg : Settings} {s s' : MarkerWorld} {id : OrderId}

/-- The calls of the release of one order and what has become of them.  As long as they are timely the first
is the only one that was carried out, and its marker is there until its time to live ends. -/
def Counted (s : MarkerWorld) (id : OrderId) : Prop :=
  (s.callTimes id = [] ∧ s.world.releasesOf id = 0 ∧ s.world.redis.released (.order id) = false) ∨
  (∃ first rest, s.callTimes id = first :: rest ∧ s.Timely id ∧ s.world.releasesOf id = 1 ∧
    s.expiry (.order id) = first + releasedTtl ∧
    s.world.redis.released (.order id) = decide (s.clock < first + releasedTtl)) ∨
  (¬s.Timely id ∧ 2 ≤ s.world.releasesOf id)

private theorem callTimes_after {a : Act} {w : World} :
    (s.after a w).callTimes id = s.callTimes id ++ if s.world.releasing a = some id then [s.clock] else [] := by
  unfold callTimes after
  cases ha : s.world.releasing a with
  | none => simp
  | some id' =>
    by_cases hid : id' = id
    · simp [hid]
    · simp [hid]

private theorem timely_of_append {s s' : MarkerWorld} {ts : List Nat} (h : s'.callTimes id = s.callTimes id ++ ts)
    (hne : s.callTimes id ≠ []) (ht : s'.Timely id) : s.Timely id := by
  intro first hf t hmem
  refine ht first ?_ t ?_
  · rw [h, List.head?_append_of_ne_nil _ hne]
    exact hf
  · rw [h]
    exact List.mem_append_left _ hmem

/-- A step that leaves the release of the order alone. -/
private theorem Counted.untouched {a : Act} {w : World} (hc : s.Counted id) (hcall : s.world.releasing a ≠ some id)
    (hu : Untouched s.world w id) : (s.after a w).Counted id := by
  have htimes : (s.after a w).callTimes id = s.callTimes id := by
    rw [callTimes_after, if_neg hcall, List.append_nil]
  have htimely : (s.after a w).Timely id ↔ s.Timely id := by
    unfold Timely
    rw [htimes]
  have hexp : (s.after a w).expiry (.order id) = s.expiry (.order id) := by
    have hnot : ¬(s.world.redis.released (.order id) = false ∧ w.redis.released (.order id) = true) := by
      rw [hu.1]
      rintro ⟨h₁, h₂⟩
      rw [h₁] at h₂
      cases h₂
    exact if_neg hnot
  rcases hc with ⟨hnil, hzero, hrel⟩ | ⟨first, rest, hcons, ht, hone, he, hrel⟩ | ⟨hnt, htwo⟩
  · exact .inl ⟨htimes.trans hnil, hu.2.trans hzero, hu.1.trans hrel⟩
  · exact .inr (.inl ⟨first, rest, htimes.trans hcons, htimely.2 ht, hu.2.trans hone, hexp.trans he, hu.1.trans hrel⟩)
  · exact .inr (.inr ⟨fun ht => hnt (htimely.1 ht), hu.2.symm ▸ htwo⟩)

private theorem Counted.tick (hc : s.Counted id) (ms : Nat) : (s.tick ms).Counted id := by
  rcases hc with ⟨hnil, hzero, hrel⟩ | ⟨first, rest, hcons, ht, hone, he, hrel⟩ | ⟨hnt, htwo⟩
  · refine .inl ⟨hnil, hzero, ?_⟩
    show (s.world.redis.released (.order id) && _) = false
    rw [hrel]
    rfl
  · refine .inr (.inl ⟨first, rest, hcons, ht, hone, he, ?_⟩)
    show (s.world.redis.released (.order id) && decide (s.clock + ms < s.expiry (.order id))) =
      decide (s.clock + ms < first + releasedTtl)
    rw [hrel, he, ← Bool.decide_and]
    exact decide_eq_decide.2 ⟨fun h => h.2, fun h => ⟨by omega, h⟩⟩
  · exact .inr (.inr ⟨hnt, htwo⟩)

private theorem releasesOf_append {w w' : World} {o : Order}
    (h : w'.returned = w.returned ++ [.quantity o.releaseArgs]) :
    w'.releasesOf o.id = w.releasesOf o.id + 1 := by
  simp [World.releasesOf, h, List.countP_append, Returned.marker, Order.releaseArgs]

/-- A call of the release of the order. -/
private theorem Counted.call {n : Nat} {w : World}
    (h : Ticketing.step cfg s.world (.release (.releaseQuantity n)) = some w)
    (hcall : s.world.releasing (.release (.releaseQuantity n)) = some id) (hc : s.Counted id) :
    (s.after (.release (.releaseQuantity n)) w).Counted id := by
  obtain ⟨x, hx, heffect⟩ := releaseQuantity_effect h
  have hid : x.order.id = id := by simpa [World.releasing, hx] using hcall
  subst hid
  have htimes : (s.after (.release (.releaseQuantity n)) w).callTimes x.order.id = s.callTimes x.order.id ++
      [s.clock] := by
    rw [callTimes_after, if_pos hcall]
  rcases hc with ⟨hnil, hzero, hrel⟩ | ⟨first, rest, hcons, ht, hone, he, hrel⟩ | ⟨hnt, htwo⟩
  · -- the first call
    rcases heffect with ⟨hm, -, -⟩ | ⟨-, hm', hret⟩
    · rw [hrel] at hm
      cases hm
    · have hset : w.redis.released (.order x.order.id) = true := by rw [hm', Function.update_self]
      refine .inr (.inl ⟨s.clock, [], by rw [htimes, hnil]; rfl, ?_, ?_, if_pos ⟨hrel, hset⟩, ?_⟩)
      · intro first hf t hmem
        rw [htimes, hnil] at hf hmem
        obtain rfl := Option.some.inj hf
        rw [List.mem_singleton.1 hmem]
        exact Nat.lt_add_of_pos_right (by decide)
      · exact (releasesOf_append hret).trans (by rw [hzero])
      · refine hset.trans (decide_eq_true ?_).symm
        exact Nat.lt_add_of_pos_right (by decide)
  · rcases heffect with ⟨hm, hsame, hret⟩ | ⟨hm, hm', hret⟩
    · -- the marker of the first call is still there
      have hlt : s.clock < first + releasedTtl := of_decide_eq_true (hrel.symm.trans hm)
      refine .inr (.inl ⟨first, rest ++ [s.clock], by rw [htimes, hcons]; rfl, ?_, ?_, ?_, ?_⟩)
      · intro first' hf t hmem
        rw [htimes, hcons] at hf hmem
        obtain rfl := Option.some.inj hf
        rcases List.mem_append.1 hmem with hmem | hmem
        · exact ht first (by rw [hcons]; rfl) t (hcons ▸ hmem)
        · rwa [List.mem_singleton.1 hmem]
      · show w.releasesOf x.order.id = 1
        unfold World.releasesOf
        rw [hret]
        exact hone
      · refine (if_neg ?_).trans he
        rintro ⟨hfalse, -⟩
        rw [hm] at hfalse
        cases hfalse
      · show w.redis.released (.order x.order.id) = _
        rw [hsame]
        exact hrel
    · -- it has expired, and the quantity is put back again
      have hge : ¬s.clock < first + releasedTtl := of_decide_eq_false (hrel.symm.trans hm)
      refine .inr (.inr ⟨fun ht' => hge ?_, ?_⟩)
      · refine ht' first ?_ s.clock ?_
        · rw [htimes, hcons]
          rfl
        · rw [htimes]
          exact List.mem_append_right _ (List.mem_singleton_self _)
      · have hcount : (s.after (.release (.releaseQuantity n)) w).world.releasesOf x.order.id = _ :=
          releasesOf_append hret
        omega
  · refine .inr (.inr ⟨fun ht' => hnt ?_, ?_⟩)
    · by_cases hnil : s.callTimes x.order.id = []
      · intro first hf
        rw [hnil] at hf
        cases hf
      · exact timely_of_append htimes hnil ht'
    · rcases heffect with ⟨-, -, hret⟩ | ⟨-, -, hret⟩
      · show 2 ≤ w.releasesOf x.order.id
        unfold World.releasesOf
        rw [hret]
        exact htwo
      · have hcount : (s.after (.release (.releaseQuantity n)) w).world.releasesOf x.order.id = _ :=
          releasesOf_append hret
        omega

/-- An order without seats is released by the quantity, so what is known of its release is what its calls have
done. -/
structure CountInv (s : MarkerWorld) : Prop where
  linked : s.world.Linked
  counted : ∀ id, (∀ o ∈ s.world.db.orders, o.id = id → o.zone = none) → s.Counted id

theorem CountInv.start (h : s.Start) : s.CountInv where
  linked := .start h.world h.linked
  counted id _ := .inl ⟨by simp [callTimes, h.calls], by simp [World.releasesOf, h.world.returned],
    h.world.released _⟩

theorem CountInv.act {a : Act} {w : World} (hi : s.CountInv) (h : Ticketing.step cfg s.world a = some w) :
    (s.after a w).CountInv where
  linked := hi.linked.step h
  counted id hzone := by
    have hzone' : ∀ o ∈ s.world.db.orders, o.id = id → o.zone = none := by
      intro o ho hid
      obtain ⟨o', ho', hs⟩ := World.orders_step hi.linked h o ho
      exact hs.zone.symm.trans (hzone o' ho' (hs.id.trans hid))
    have hc := hi.counted id hzone'
    by_cases hcall : s.world.releasing a = some id
    · obtain ⟨n, rfl⟩ := World.eq_releaseQuantity_of_releasing hcall
      exact hc.call h hcall
    · refine hc.untouched hcall ?_
      rcases step_effect h id with hcall' | ⟨n, x, hx, hid, hz⟩ | hu
      · exact absurd hcall' hcall
      · -- a release of seats is the release of an order with a zone
        obtain ⟨o, ho, hs, -⟩ := hi.linked.release n x hx
        exact absurd (hs.zone.symm.trans (hzone' o ho (hs.id.trans hid))) hz
      · exact hu

theorem CountInv.tick (hi : s.CountInv) (ms : Nat) : (s.tick ms).CountInv where
  linked := by
    obtain ⟨hdb, hkeys, hclaimed, hpos, hqueued, hhandled, hreleased, hrelease, hcarried, hdeleted,
      hagree⟩ := hi.linked
    refine ⟨hdb, hkeys, hclaimed, hpos, hqueued, hhandled, fun id hrel => ?_, hrelease, hcarried, hdeleted, hagree⟩
    exact hreleased id (Bool.and_eq_true_iff.1 hrel).1
  counted id hzone := (hi.counted id hzone).tick ms

theorem CountInv.step {a : MarkerAct} (hi : s.CountInv) (h : step cfg s a = some s') : s'.CountInv := by
  cases a with
  | act a =>
    obtain ⟨w, hw, rfl⟩ := Option.map_eq_some_iff.1 h
    exact hi.act hw
  | tick ms =>
    obtain rfl := Option.some.inj h
    exact hi.tick ms

theorem Counted.le_one_iff (hc : s.Counted id) : s.world.releasesOf id ≤ 1 ↔ s.Timely id := by
  rcases hc with ⟨hnil, hzero, -⟩ | ⟨first, rest, -, ht, hone, -, -⟩ | ⟨hnt, htwo⟩
  · refine ⟨fun _ first hf => ?_, fun _ => by omega⟩
    rw [hnil] at hf
    cases hf
  · exact ⟨fun _ => ht, fun _ => by omega⟩
  · exact ⟨fun hle => by omega, fun ht => absurd ht hnt⟩

/-- An order without seats is released at most once exactly when no call of its release comes after the marker
of the first one has expired. -/
theorem released_at_most_once_iff {start : MarkerWorld} (hstart : start.Start) {acts : List MarkerAct}
    (hrun : exec (step cfg) start acts = some s) {o : Order} (ho : o ∈ s.world.db.orders) (hzone : o.zone = none) :
    s.world.releasesOf o.id ≤ 1 ↔ s.Timely o.id := by
  have hi : s.CountInv := exec_invariant (C := fun _ _ => True) (fun _ _ _ _ hs hi => hi.step hs) (.start hstart)
    (.of_forall fun _ _ _ => trivial) hrun
  refine (hi.counted o.id fun o' ho' hid => ?_).le_one_iff
  rw [hi.linked.db.order_unique ho' ho hid]
  exact hzone

/-- A general-admission order that expires and is released at once by the fast path. -/
def promptRelease : List MarkerAct :=
  [.act (.intake (.reserve sampleReserve)), .act (.settle (.deliver 0 1)), .act (.settle (.persist 0 7 true)),
    .act (.settle (.ack 0)), .act (.transition 7 .expired 1), .act (.release (.start 0 7)),
    .act (.release (.releaseQuantity 0))]

/-- The relay takes up the row of the order. -/
def relayed : List MarkerAct := [.act (.release (.claimRow 1 0)), .act (.release (.releaseQuantity 1))]

def unseatedMarkers : MarkerWorld := { world := unseatedStart }

theorem unseatedMarkers_start : unseatedMarkers.Start := ⟨unseatedStart_start, Db.Unsold.linked ⟨rfl, rfl, rfl⟩, rfl⟩

/-- The relay stands still for a day after the fast path has released the order: the quantity of the order is put back
twice, and there are more tickets on sale than the event has. -/
theorem late_relay_releases_twice :
    unseatedMarkers.Start ∧ ∃ s, exec (step {}) unseatedMarkers
      (promptRelease ++ .tick 86400000 :: relayed) = some s ∧
      (∃ o ∈ s.world.db.orders, o.id = 7 ∧ o.zone = none ∧ o.status = .expired) ∧ s.world.releasesOf 7 = 2 ∧
      s.world.redis.available 1 = some 12 ∧ s.world.db.events 1 = some ⟨10, false⟩ := by
  refine ⟨unseatedMarkers_start, ?_⟩
  obtain ⟨s, hs, hp⟩ := exec_any (step {}) unseatedMarkers (promptRelease ++ .tick 86400000 :: relayed)
    (fun s => (∃ o ∈ s.world.db.orders, o.id = 7 ∧ o.zone = none ∧ o.status = .expired) ∧ s.world.releasesOf 7 = 2 ∧
      s.world.redis.available 1 = some 12 ∧ s.world.db.events 1 = some ⟨10, false⟩) (by decide +kernel)
  rw [decide_eq_true_eq] at hp
  exact ⟨s, hs, hp⟩

/-- A relay that is a second late finds the marker. -/
theorem prompt_relay_releases_once :
    ∃ s, exec (step {}) unseatedMarkers (promptRelease ++ .tick 1000 :: relayed) = some s ∧
      s.callTimes 7 = [0, 1000] ∧ (s.world.releasesOf 7 ≤ 1 ↔ s.Timely 7) := by
  obtain ⟨s, hs, hp⟩ := exec_any (step {}) unseatedMarkers (promptRelease ++ .tick 1000 :: relayed)
    (fun s => s.callTimes 7 = [0, 1000] ∧ ∃ o ∈ s.world.db.orders, o.id = 7 ∧ o.zone = none) (by decide +kernel)
  rw [decide_eq_true_eq] at hp
  obtain ⟨hcalls, o, ho, hid, hzone⟩ := hp
  have hiff := released_at_most_once_iff unseatedMarkers_start hs ho hzone
  rw [hid] at hiff
  exact ⟨s, hs, hcalls, hiff⟩

end MarkerWorld

end Ticketing
