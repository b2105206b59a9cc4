import Ticketing.SeatOwnership

/-!
# The outbox and its releases

A transition to a terminal status commits an outbox row in the same transaction, and the relay marks the row
only after `release_order_seat` has returned.  For a seated order that function deletes the hold and commits
before it calls the release script, and a later call that finds no hold returns at once, so an attempt that
dies in between makes the relay mark a row whose seats were never returned (`diedInBetween`).  Where every
relay pass that looks for a hold still finds it or comes after the release (`ReplaySafe`), a marked row means
a returned order.
-/

namespace Ticketing

open Exec

/-- The scripts have returned what the order was sold, with the quota: its quantity, or the interval of its intent. -/
def World.Returns (w : World) (o : Order) : Prop :=
  match o.zone with
  | none => .quantity o.releaseArgs ∈ w.returned
  | some zone => ∃ i ∈ w.log, i.key = o.key ∧ ∃ s, i.span = some s ∧
      .seats { event := o.event, zone, user := o.user, block := s.block, start := s.start, length := s.length,
               marker := .order o.id } ∈ w.returned

/-- When a relay pass looks for the hold of a seated order, the row is there or the order has been released. -/
def ReplaySafe (w : World) : Act → Prop
  | .release (.readHold n) => ∀ x, w.releases n = some x → x.row ≠ none → x.order.zone ≠ none →
      (w.db.holdOf x.order.id).isSome = true ∨ w.redis.released (.order x.order.id) = true
  | _ => True

theorem World.Returns.congr {w w' : World} {o o' : Order} (h : w.Returns o) (hs : o'.Same o)
    (hlog : ∀ i ∈ w.log, i ∈ w'.log) (hret : ∀ r ∈ w.returned, r ∈ w'.returned) : w'.Returns o' := by
  unfold World.Returns at h ⊢
  rw [hs.zone]
  cases hz : o.zone with
  | none =>
    simp only [hz] at h ⊢
    have hargs : o'.releaseArgs = o.releaseArgs := by
      unfold Order.releaseArgs
      rw [hs.event, hs.user, hs.quantity, hs.id]
    rw [hargs]
    exact hret _ h
  | some zone =>
    simp only [hz] at h ⊢
    obtain ⟨i, hi, hk, s, hsp, hmem⟩ := h
    refine ⟨i, hlog i hi, hk.trans hs.key.symm, s, hsp, ?_⟩
    rw [hs.event, hs.user, hs.id]
    exact hret _ hmem

structure OutboxInv (w : World) : Prop where
  linked : w.Linked
  originated : w.Originated
  ids : (w.db.outbox.map OutboxEntry.id).Nodup
  bound : ∀ e ∈ w.db.outbox, e.id < w.db.outbox.length
  /-- A set marker means a release that the script carried out. -/
  returned : ∀ id, w.redis.released (.order id) = true → ∃ o ∈ w.db.orders, o.id = id ∧ w.Returns o
  /-- A release carries the interval of the order's intent. -/
  carried : ∀ n x hold, w.releases n = some x → x.carries hold →
    ∃ i ∈ w.log, i.key = x.order.key ∧ i.span = some hold.span
  row : ∀ n x row, w.releases n = some x → x.row = some row → ∃ e ∈ w.db.outbox, e.id = row ∧ e.order = x.order.id
  finished : ∀ n x, w.releases n = some x → x.row ≠ none → x.phase = .finished →
    w.redis.released (.order x.order.id) = true
  processed : ∀ e ∈ w.db.outbox, e.processed = true → w.redis.released (.order e.order) = true

namespace OutboxInv

variable {cfg : Settings} {w w' : World}

theorem start (h : w.Start) (hdb : w.db.Unsold) : OutboxInv w where
  linked := .start h hdb.linked
  originated := .start h hdb
  ids := by simp [hdb.outbox]
  bound := by simp [hdb.outbox]
  returned id hid := by rw [h.released] at hid; cases hid
  carried n x hold hx := by rw [h.releases n] at hx; cases hx
  row n x row hx := by rw [h.releases n] at hx; cases hx
  finished n x hx := by rw [h.releases n] at hx; cases hx
  processed := by simp [hdb.outbox]

/-- A step of another process: releases and markers of orders stay, and a new row may be added. -/
theorem frame (hi : OutboxInv w) (hl : w'.Linked) (ho : w'.Originated)
    (hout : w'.db.outbox = w.db.outbox ∨
      ∃ id, w'.db.outbox = w.db.outbox ++ [{ id := w.db.outbox.length, order := id }])
    (horders : ∀ o ∈ w.db.orders, ∃ o' ∈ w'.db.orders, o'.Same o) (hlog : ∀ i ∈ w.log, i ∈ w'.log)
    (hret : ∀ r ∈ w.returned, r ∈ w'.returned)
    (hrel : ∀ id, w'.redis.released (.order id) = w.redis.released (.order id))
    (hreleases : w'.releases = w.releases) :
    OutboxInv w' := by
  have hkeep : ∀ e ∈ w.db.outbox, e ∈ w'.db.outbox := by
    intro e he
    rcases hout with heq | ⟨id, heq⟩ <;> rw [heq]
    · exact he
    · exact List.mem_append_left _ he
  refine ⟨hl, ho, ?_, ?_, ?_, ?_, ?_, ?_, ?_⟩
  · rcases hout with heq | ⟨id, heq⟩ <;> rw [heq]
    · exact hi.ids
    · rw [List.map_append]
      refine List.nodup_append.2 ⟨hi.ids, List.nodup_singleton _, ?_⟩
      rintro a ha b hb rfl
      obtain ⟨e, he, rfl⟩ := List.mem_map.1 ha
      have hlt := hi.bound e he
      rw [List.mem_singleton.1 hb] at hlt
      exact Nat.lt_irrefl _ hlt
  · rcases hout with heq | ⟨id, heq⟩ <;> rw [heq]
    · exact hi.bound
    · intro e he
      rw [List.length_append, List.length_singleton]
      rcases List.mem_append.1 he with he | he
      · exact Nat.lt_succ_of_lt (hi.bound e he)
      · rw [List.mem_singleton.1 he]
        exact Nat.lt_succ_self _
  · intro id hid
    obtain ⟨o, hom, hoid, hr⟩ := hi.returned id (hrel id ▸ hid)
    obtain ⟨o', hom', hs⟩ := horders o hom
    exact ⟨o', hom', hs.id.trans hoid, hr.congr hs hlog hret⟩
  · intro n x hold hx hc
    obtain ⟨i, hmem, hk, hsp⟩ := hi.carried n x hold (hreleases ▸ hx) hc
    exact ⟨i, hlog i hmem, hk, hsp⟩
  · intro n x row hx hr
    obtain ⟨e, he, hid, hord⟩ := hi.row n x row (hreleases ▸ hx) hr
    exact ⟨e, hkeep e he, hid, hord⟩
  · intro n x hx hr hp
    rw [hrel]
    exact hi.finished n x (hreleases ▸ hx) hr hp
  · intro e he hp
    rw [hrel]
    rcases hout with heq | ⟨id, heq⟩ <;> rw [heq] at he
    · exact hi.processed e he hp
    · rcases List.mem_append.1 he with he | he
      · exact hi.processed e he hp
      · rw [List.mem_singleton.1 he] at hp
        cases hp

/-- A step of the release in slot `n`, which goes on as `y`. -/
theorem move (hi : OutboxInv w) (hl : w'.Linked) (ho : w'.Originated) {n : Nat} {y : Option Release}
    (f : OutboxEntry → OutboxEntry) (horders : w'.db.orders = w.db.orders) (hlog : w'.log = w.log)
    (hret : ∀ r ∈ w.returned, r ∈ w'.returned)
    (hrel : ∀ k, w.redis.released k = true → w'.redis.released k = true)
    (hnew : ∀ id, w'.redis.released (.order id) = true → w.redis.released (.order id) = true ∨
      ∃ o ∈ w.db.orders, o.id = id ∧ w'.Returns o)
    (hreleases : w'.releases = Function.update w.releases n y) (hout : w'.db.outbox = w.db.outbox.map f)
    (hf : ∀ e, (f e).id = e.id ∧ (f e).order = e.order)
    (hmark : ∀ e ∈ w.db.outbox, (f e).processed = true → e.processed = true ∨
      w.redis.released (.order e.order) = true)
    (hcar : ∀ z ∈ y, ∀ hold, z.carries hold → ∃ i ∈ w.log, i.key = z.order.key ∧ i.span = some hold.span)
    (hrow : ∀ z ∈ y, ∀ row, z.row = some row → ∃ e ∈ w.db.outbox, e.id = row ∧ e.order = z.order.id)
    (hfin : ∀ z ∈ y, z.phase = .finished → z.row ≠ none → w'.redis.released (.order z.order.id) = true) :
    OutboxInv w' := by
  have hcase : ∀ m z, w'.releases m = some z → z ∈ y ∨ w.releases m = some z := by
    intro m z hz
    rw [hreleases] at hz
    by_cases hm : m = n
    · subst hm
      rw [Function.update_self] at hz
      exact .inl hz
    · rw [Function.update_of_ne hm] at hz
      exact .inr hz
  have hrows : ∀ x : Release, ∀ row, (∃ e ∈ w.db.outbox, e.id = row ∧ e.order = x.order.id) →
      ∃ e ∈ w'.db.outbox, e.id = row ∧ e.order = x.order.id := by
    rintro x row ⟨e, he, hid, hord⟩
    rw [hout]
    exact ⟨f e, List.mem_map_of_mem he, (hf e).1.trans hid, (hf e).2.trans hord⟩
  refine ⟨hl, ho, ?_, ?_, ?_, ?_, ?_, ?_, ?_⟩
  · have hsame : (w.db.outbox.map f).map OutboxEntry.id = w.db.outbox.map OutboxEntry.id := by
      rw [List.map_map]
      exact List.map_congr_left fun e _ => (hf e).1
    rw [hout, hsame]
    exact hi.ids
  · rw [hout]
    intro e' he'
    obtain ⟨e, he, rfl⟩ := List.mem_map.1 he'
    rw [(hf e).1, List.length_map]
    exact hi.bound e he
  · intro id hid
    rw [horders]
    rcases hnew id hid with hold | hnew
    · obtain ⟨o, hom, hoid, hr⟩ := hi.returned id hold
      exact ⟨o, hom, hoid, hr.congr (.refl o) (fun i h => hlog ▸ h) hret⟩
    · exact hnew
  · intro m z hold hz hc
    rw [hlog]
    rcases hcase m z hz with hz | hz
    · exact hcar z hz hold hc
    · exact hi.carried m z hold hz hc
  · intro m z row hz hr
    rcases hcase m z hz with hz | hz
    · exact hrows z row (hrow z hz row hr)
    · exact hrows z row (hi.row m z row hz hr)
  · intro m z hz hr hp
    rcases hcase m z hz with hz | hz
    · exact hfin z hz hp hr
    · exact hrel _ (hi.finished m z hz hr hp)
  · rw [hout]
    intro e' he' hp
    obtain ⟨e, he, rfl⟩ := List.mem_map.1 he'
    rw [(hf e).2]
    rcases hmark e he hp with hp | hp
    · exact hrel _ (hi.processed e he hp)
    · exact hrel _ hp

/-- A release that goes on without touching the outbox or the markers. -/
private theorem advance (hi : OutboxInv w) (hl : w'.Linked) (ho : w'.Originated) {n : Nat} {y : Option Release}
    (horders : w'.db.orders = w.db.orders) (hlog : w'.log = w.log) (hret : w'.returned = w.returned)
    (hrel : w'.redis.released = w.redis.released) (hreleases : w'.releases = Function.update w.releases n y)
    (hout : w'.db.outbox = w.db.outbox)
    (hcar : ∀ z ∈ y, ∀ hold, z.carries hold → ∃ i ∈ w.log, i.key = z.order.key ∧ i.span = some hold.span)
    (hrow : ∀ z ∈ y, ∀ row, z.row = some row → ∃ e ∈ w.db.outbox, e.id = row ∧ e.order = z.order.id)
    (hfin : ∀ z ∈ y, z.phase = .finished → z.row ≠ none → w.redis.released (.order z.order.id) = true) :
    OutboxInv w' := by
  refine hi.move hl ho id horders hlog (fun r h => hret ▸ h) (fun k h => hrel ▸ h) (fun _ h => .inl (hrel ▸ h))
    hreleases (by rw [hout, List.map_id]) (fun _ => ⟨rfl, rfl⟩) (fun _ _ h => .inl h) hcar hrow ?_
  rw [hrel]
  exact hfin

/-- A release is finished without a return, which is sound when its order is returned already. -/
private theorem skip (hi : OutboxInv w) (hl : w'.Linked) (ho : w'.Originated) {n : Nat} {x : Release}
    (hx : w.releases n = some x)
    (horders : w'.db.orders = w.db.orders) (hlog : w'.log = w.log) (hret : w'.returned = w.returned)
    (hrel : w'.redis.released = w.redis.released)
    (hreleases : w'.releases = Function.update w.releases n (some { x with phase := .finished }))
    (hout : w'.db.outbox = w.db.outbox)
    (hm : x.row ≠ none → w.redis.released (.order x.order.id) = true) : OutboxInv w' := by
  refine hi.advance hl ho horders hlog hret hrel hreleases hout ?_ ?_ ?_
  · rintro z ⟨⟩ hold (hc | hc) <;> cases hc
  · intro z hz row hr
    cases hz
    exact hi.row n x row hx hr
  · intro z hz _ hr
    cases hz
    exact hm hr

/-- The script returns the order of a running release, and the release is finished. -/
private theorem finish (hi : OutboxInv w) (hl : w'.Linked) (ho : w'.Originated) {n : Nat} {x : Release} {r : Returned}
    (hx : w.releases n = some x) (hdb : w'.db = w.db) (hlog : w'.log = w.log) (hret : w'.returned = w.returned ++ [r])
    (hrel : w'.redis.released = Function.update w.redis.released (.order x.order.id) true)
    (hreleases : w'.releases = Function.update w.releases n (some { x with phase := .finished }))
    (hr : w'.Returns x.order) : OutboxInv w' := by
  refine hi.move hl ho id (by rw [hdb]) hlog (fun r h => hret ▸ List.mem_append_left _ h) (fun k hk => ?_)
    (fun id hid => ?_) hreleases (by rw [hdb, List.map_id]) (fun _ => ⟨rfl, rfl⟩) (fun _ _ h => .inl h) ?_ ?_ ?_
  · rw [hrel]
    by_cases h : k = .order x.order.id
    · rw [h, Function.update_self]
    · rwa [Function.update_of_ne h]
  · rw [hrel] at hid
    by_cases h : id = x.order.id
    · obtain ⟨o, hom, hs, -⟩ := hi.linked.release n x hx
      exact .inr ⟨o, hom, hs.id.trans h.symm, hr.congr hs (fun _ h => h) fun _ h => h⟩
    · rw [Function.update_of_ne (by simpa using h)] at hid
      exact .inl hid
  · rintro z ⟨⟩ hold (hc | hc) <;> cases hc
  · rintro z ⟨⟩ row hz
    exact hi.row n x row hx hz
  · rintro z ⟨⟩ - -
    rw [hrel, Function.update_self]

/-- The relay picks up a row: its attempt is counted and its release begins. -/
private theorem step_claimRow {n : Nat} {row : OutboxId} (hi : OutboxInv w)
    (h : Ticketing.step cfg w (.release (.claimRow n row)) = some w') : OutboxInv w' := by
  have hl := hi.linked.step h
  have ho := hi.originated.step hi.linked h
  obtain ⟨e, he, h⟩ := Option.bind_eq_some_iff.1 h
  have hmem := List.mem_of_find?_eq_some he
  have hid : e.id = row := by simpa using List.find?_some he
  split at h
  · split at h
    · -- the order of a row exists
      rename_i hno
      obtain ⟨o, hom, hoid, -⟩ := hi.linked.db.row e hmem
      have := List.find?_eq_none.1 hno o hom
      simp [hoid] at this
    · rename_i o hby
      obtain rfl := Option.some.inj h
      refine hi.move hl ho (fun e => if e.id = row then { e with attempts := e.attempts + 1 } else e) rfl rfl
        (fun _ h => h) (fun _ h => h) (fun _ h => .inl h) rfl rfl (fun e => by split <;> exact ⟨rfl, rfl⟩)
        (fun e _ hp => .inl (by split at hp <;> exact hp)) ?_ ?_ ?_
      · rintro z ⟨⟩ hold (hc | hc) <;> cases hc
      · rintro z ⟨⟩ row' hz
        cases hz
        exact ⟨e, hmem, hid, (orderById_eq_some hby).2.symm⟩
      · rintro z ⟨⟩ hp
        cases hp
  · cases h

/-- The counter script: the stock goes back once, and the release is finished. -/
private theorem step_releaseQuantity {n : Nat} (hi : OutboxInv w)
    (h : Ticketing.step cfg w (.release (.releaseQuantity n)) = some w') : OutboxInv w' := by
  have hl := hi.linked.step h
  have ho := hi.originated.step hi.linked h
  obtain ⟨x, hx, h⟩ := Option.bind_eq_some_iff.1 h
  split at h
  · rename_i hg
    rcases w.releaseQuantity_cases x.order.releaseArgs with ⟨-, heq⟩ | ⟨hm, heq⟩
    · rw [heq] at h
      obtain rfl := Option.some.inj h
      refine hi.finish hl ho hx rfl rfl rfl rfl rfl ?_
      unfold World.Returns
      rw [hg.2]
      exact List.mem_append_right _ (List.mem_singleton_self _)
    · rw [heq] at h
      obtain rfl := Option.some.inj h
      exact hi.skip hl ho hx rfl rfl rfl rfl rfl rfl fun _ => hm
  · cases h

/-- A release without a hold is finished only if its seats are back already. -/
private theorem step_readHold {n : Nat} (hi : OutboxInv w) (hR : ReplaySafe w (.release (.readHold n)))
    (h : Ticketing.step cfg w (.release (.readHold n)) = some w') : OutboxInv w' := by
  have hl := hi.linked.step h
  have ho := hi.originated.step hi.linked h
  obtain ⟨x, hx, h⟩ := Option.bind_eq_some_iff.1 h
  split at h
  · rename_i hg
    split at h
    · rename_i hno
      obtain rfl := Option.some.inj h
      apply hi.skip hl ho hx rfl rfl rfl rfl rfl rfl
      intro hr
      rcases hR x hx hr hg.2 with hsome | hrel
      · rw [hno] at hsome
        cases hsome
      · exact hrel
    · rename_i hold hof
      obtain rfl := Option.some.inj h
      refine hi.advance hl ho rfl rfl rfl rfl rfl rfl ?_ ?_ ?_
      · rintro z ⟨⟩ hold' (hc | hc) <;> cases hc
        obtain ⟨hmem, hid⟩ := holdOf_eq_some hof
        obtain ⟨i, himem, o, hom, hoid, hk, hsp⟩ := hi.originated.hold hold hmem
        obtain ⟨o', hom', hs, -⟩ := hi.linked.release n x hx
        obtain rfl := hi.linked.db.order_unique hom hom' (by rw [hoid, hid, hs.id])
        exact ⟨i, himem, hk.trans hs.key, hsp⟩
      · rintro z ⟨⟩ row hz
        exact hi.row n x row hx hz
      · rintro z ⟨⟩ hp
        cases hp
  · cases h

/-- The seat script: the seats of the hold go back once, and the release is finished. -/
private theorem step_releaseSeats {n : Nat} (hi : OutboxInv w)
    (h : Ticketing.step cfg w (.release (.releaseSeats n)) = some w') : OutboxInv w' := by
  have hl := hi.linked.step h
  have ho := hi.originated.step hi.linked h
  obtain ⟨x, hx, h⟩ := Option.bind_eq_some_iff.1 h
  split at h
  · rename_i hold zone hp hz
    split at h
    · rename_i w₁ hw₁
      rcases World.releaseSeats_cases hw₁ with ⟨-, heq⟩ | ⟨hm, heq⟩
      · rw [heq] at h
        obtain rfl := Option.some.inj h
        refine hi.finish hl ho hx rfl rfl rfl rfl rfl ?_
        unfold World.Returns
        rw [hz]
        obtain ⟨i, himem, hk, hsp⟩ := hi.carried n x hold hx (.inr hp)
        exact ⟨i, himem, hk, hold.span, hsp, List.mem_append_right _ (List.mem_singleton_self _)⟩
      · rw [heq] at h
        obtain rfl := Option.some.inj h
        exact hi.skip hl ho hx rfl rfl rfl rfl rfl rfl fun _ => hm
    · obtain rfl := Option.some.inj h
      refine hi.advance hl ho (y := none) rfl rfl rfl rfl rfl rfl ?_ ?_ ?_ <;> (intro z hz; cases hz)
  · cases h

/-- The row that is marked is that of a finished release. -/
private theorem step_markProcessed {n : Nat} (hi : OutboxInv w)
    (h : Ticketing.step cfg w (.release (.markProcessed n)) = some w') : OutboxInv w' := by
  have hl := hi.linked.step h
  have ho := hi.originated.step hi.linked h
  obtain ⟨x, hx, h⟩ := Option.bind_eq_some_iff.1 h
  split at h
  · rename_i row hp hr
    obtain rfl := Option.some.inj h
    refine hi.move hl ho (y := none) (fun e => if e.id = row then { e with processed := true } else e) rfl rfl
      (fun _ h => h) (fun _ h => h) (fun _ h => .inl h) rfl rfl (fun e => by split <;> exact ⟨rfl, rfl⟩)
      (fun e he hpe => ?_) ?_ ?_ ?_
    · split at hpe
      · -- the row that is marked is the row of the finished release
        rename_i hid
        obtain ⟨e', he', hid', hord⟩ := hi.row n x row hx hr
        obtain rfl := List.inj_on_of_nodup_map hi.ids he he' (hid.trans hid'.symm)
        rw [hord]
        exact .inr (hi.finished n x hx (by rw [hr]; simp) hp)
      · exact .inl hpe
    all_goals
      intro z hz
      cases hz
  · cases h

theorem release {a : ReleaseAct} (hi : OutboxInv w) (hR : ReplaySafe w (.release a))
    (h : Ticketing.step cfg w (.release a) = some w') : OutboxInv w' := by
  have hl := hi.linked.step h
  have ho := hi.originated.step hi.linked h
  cases a with
  | start n id =>
    obtain ⟨o, -, h⟩ := Option.bind_eq_some_iff.1 h
    split at h
    · obtain rfl := Option.some.inj h
      refine hi.advance hl ho rfl rfl rfl rfl rfl rfl ?_ ?_ ?_
      · rintro z ⟨⟩ hold (hc | hc) <;> cases hc
      · rintro z ⟨⟩ row hz
        cases hz
      · rintro z ⟨⟩ hp
        cases hp
    · cases h
  | claimRow n row => exact hi.step_claimRow h
  | redrive row =>
    obtain rfl := Option.some.inj h
    refine hi.move (n := 0) (y := w.releases 0) hl ho (fun e => if e.id = row then { e with attempts := 0 } else e)
      rfl rfl (fun _ h => h) (fun _ h => h) (fun _ h => .inl h) (Function.update_eq_self _ _).symm rfl
      (fun e => by split <;> exact ⟨rfl, rfl⟩) (fun e _ hp => .inl (by split at hp <;> exact hp)) ?_ ?_ ?_
    · exact fun z hz hold hc => hi.carried 0 z hold hz hc
    · exact fun z hz row hr => hi.row 0 z row hz hr
    · exact fun z hz hp hr => hi.finished 0 z hz hr hp
  | releaseQuantity n => exact hi.step_releaseQuantity h
  | readHold n => exact hi.step_readHold hR h
  | deleteHold n =>
    obtain ⟨x, hx, h⟩ := Option.bind_eq_some_iff.1 h
    split at h
    · rename_i hold hp
      obtain rfl := Option.some.inj h
      refine hi.advance hl ho rfl rfl rfl rfl rfl rfl ?_ ?_ ?_
      · rintro z ⟨⟩ hold' (hc | hc) <;> cases hc
        exact hi.carried n x hold hx (.inl hp)
      · rintro z ⟨⟩ row hz
        exact hi.row n x row hx hz
      · rintro z ⟨⟩ hp
        cases hp
    · cases h
  | releaseSeats n => exact hi.step_releaseSeats h
  | markProcessed n => exact hi.step_markProcessed h
  | stop n =>
    obtain rfl := Option.some.inj h
    refine hi.advance hl ho (y := none) rfl rfl rfl rfl rfl rfl ?_ ?_ ?_ <;> (intro z hz; cases hz)

theorem step {a : Act} (hi : OutboxInv w) (hR : ReplaySafe w a) (h : Ticketing.step cfg w a = some w') :
    OutboxInv w' := by
  have hl := hi.linked.step h
  have ho := hi.originated.step hi.linked h
  have hsame : ∀ o ∈ w.db.orders, ∃ o' ∈ w.db.orders, o'.Same o := fun o hom => ⟨o, hom, .refl o⟩
  cases a with
  | release a => exact hi.release hR h
  | intake a =>
    rcases stepIntake_cases h with ⟨b, -, rfl⟩ | ⟨c, call, b, -, -, rfl⟩ | ⟨zones, calls, -, -, rfl⟩
    · exact hi.frame hl ho (.inl rfl) hsame (fun _ => List.mem_append_left _) (fun _ h => h) (fun _ => rfl) rfl
    · exact hi.frame hl ho (.inl rfl) hsame (fun _ => List.mem_append_left _) (fun _ h => h) (fun _ => rfl) rfl
    · exact hi.frame hl ho (.inl rfl) hsame (fun _ h => h) (fun _ h => h) (fun _ => rfl) rfl
  | settle a =>
    rcases stepSettle_cases h with ⟨n, x, id, fk, db, -, -, -, -, hdb, rfl⟩ | ⟨n, x, w₁, -, -, hw₁, rfl⟩ |
      ⟨redis, handlers, hq, -, rfl⟩
    · obtain ⟨-, -, rfl⟩ := insertIntent_eq_some hdb
      exact hi.frame hl ho (.inl rfl) (fun o hom => ⟨o, List.mem_append_left _ hom, .refl o⟩) (fun _ h => h)
        (fun _ h => h) (fun _ => rfl) rfl
    · have hmark : ∀ id, Function.update w.redis.released (.deadLetter x.intent.key) true (.order id) =
          w.redis.released (.order id) := fun _ => Function.update_of_ne (by simp) _ _
      rcases World.refund_cases hw₁ with ⟨-, -, rfl⟩ | ⟨seat, zone, -, -, -, rfl⟩ | rfl
      · exact hi.frame hl ho (.inl rfl) hsame (fun _ h => h) (fun _ => List.mem_append_left _) hmark rfl
      · exact hi.frame hl ho (.inl rfl) hsame (fun _ h => h) (fun _ => List.mem_append_left _) hmark rfl
      · exact hi.frame hl ho (.inl rfl) hsame (fun _ h => h) (fun _ h => h) (fun _ => rfl) rfl
    · exact hi.frame hl ho (.inl rfl) hsame (fun _ h => h) (fun _ h => h) (fun _ => congrFun hq.released _) rfl
  | transition id new now =>
    obtain ⟨db, hdb, rfl⟩ := Option.map_eq_some_iff.1 h
    refine hi.frame hl ho ?_ ?_ (fun _ h => h) (fun _ h => h) (fun _ => rfl) rfl
    · obtain ⟨o₀, -, -, rfl⟩ := transition_eq_some hdb
      simp only
      split
      · exact .inl rfl
      · exact .inr ⟨id, rfl⟩
    · intro o hom
      obtain ⟨o', hom', hs, -⟩ := Db.mem_orders_transition hi.linked.db hdb hom
      exact ⟨o', hom', hs⟩
  | reconcile a =>
    rcases stepReconcile_cases h with ⟨n, job, remaining, owing, -, -, -, rfl⟩ | ⟨n, job, rows, -, -, rfl⟩ |
      ⟨reconciles, -, rfl⟩ <;>
      exact hi.frame hl ho (.inl rfl) hsame (fun _ h => h) (fun _ h => h) (fun _ => rfl) rfl
  | rebuild a =>
    rcases stepRebuild_cases h with ⟨n, job, blocks, held, -, -, -, rfl⟩ | ⟨rebuilds, -, rfl⟩ <;>
      exact hi.frame hl ho (.inl rfl) hsame (fun _ h => h) (fun _ h => h) (fun _ => rfl) rfl
  | lose event =>
    obtain rfl := Option.some.inj h
    exact hi.frame hl ho (.inl rfl) hsame (fun _ h => h) (fun _ h => h) (fun _ => rfl) rfl

end OutboxInv

/-- The two seats of the request are sold to order 7. -/
def seatSale : List Act := seatRequest ++ promptConsumer

/-- The order expires; the fast path deletes its hold and dies, and the relay then finds no hold. -/
def diedInBetween : List Act :=
  [.transition 7 .expired 0, .release (.start 0 7), .release (.readHold 0), .release (.deleteHold 0),
    .release (.stop 0), .release (.claimRow 1 0), .release (.readHold 1), .release (.markProcessed 1)]

/-- The row of an expired order is marked although nothing was ever returned. -/
theorem relay_forgets_a_release :
    seatedStart.Start ∧ seatedStart.db.Unsold ∧
      ∃ w, exec (step {}) seatedStart (seatSale ++ diedInBetween) = some w ∧
        ∃ e ∈ w.db.outbox, e.processed = true ∧ ∃ o ∈ w.db.orders, o.id = e.order ∧ ¬ w.Returns o := by
  refine ⟨seatedStart_built.start, ⟨rfl, rfl, rfl⟩, ?_⟩
  obtain ⟨w, hw, hp⟩ := exec_any (step {}) seatedStart (seatSale ++ diedInBetween)
    (fun w => w.returned = [] ∧ ∃ e ∈ w.db.outbox, e.processed = true ∧ ∃ o ∈ w.db.orders,
      o.id = e.order ∧ o.zone = some 1) (by decide +kernel)
  rw [decide_eq_true_eq] at hp
  obtain ⟨hnil, e, he, hpr, o, hom, hid, hz⟩ := hp
  refine ⟨w, hw, e, he, hpr, o, hom, hid, fun hr => ?_⟩
  unfold World.Returns at hr
  rw [hz, hnil] at hr
  obtain ⟨i, -, -, s, -, hmem⟩ := hr
  cases hmem

/-- The outbox never forgets a release: in every run whose relay passes meet the condition, a marked row means
that the scripts have returned the order's quantity or interval, and its quota. -/
theorem outbox_never_forgets {cfg : Settings} {w₀ w : World} {acts : List Act} (hstart : w₀.Start)
    (hunsold : w₀.db.Unsold) (hsafe : Along (step cfg) ReplaySafe w₀ acts) (h : exec (step cfg) w₀ acts = some w) :
    ∀ e ∈ w.db.outbox, e.processed = true → ∃ o ∈ w.db.orders, o.id = e.order ∧ w.Returns o := by
  have hinv : OutboxInv w :=
    exec_invariant (fun _ _ _ hC hs hi => hi.step hC hs) (OutboxInv.start hstart hunsold) hsafe h
  exact fun e he hp => hinv.returned e.order (hinv.processed e he hp)

/-- An order is cancelled and the relay claims its row. -/
private def claimedRow : List Act := seatSale ++ [.transition 7 .cancelled 0, .release (.claimRow 0 0)]

private def relayed : List Act :=
  [.release (.readHold 0), .release (.deleteHold 0), .release (.releaseSeats 0), .release (.markProcessed 0)]

/-- The fast path never ran; the relay finds the hold, returns it and marks the row. -/
theorem outbox_never_forgets_relay :
    ∃ w, exec (step {}) seatedStart (seatSale ++ [.transition 7 .cancelled 0, .release (.claimRow 0 0)] ++
        [.release (.readHold 0), .release (.deleteHold 0), .release (.releaseSeats 0), .release (.markProcessed 0)]) =
          some w ∧
      ∃ e ∈ w.db.outbox, e.processed = true ∧ ∃ o ∈ w.db.orders, o.id = e.order ∧ w.Returns o := by
  obtain ⟨w, hw, hp⟩ := exec_any (step {}) seatedStart (claimedRow ++ relayed)
    (fun w => ∃ e ∈ w.db.outbox, e.processed = true) (by decide +kernel)
  rw [decide_eq_true_eq] at hp
  obtain ⟨e, he, hpr⟩ := hp
  refine ⟨w, hw, e, he, hpr, outbox_never_forgets seatedStart_built.start ⟨rfl, rfl, rfl⟩ ?_ hw e he hpr⟩
  have hclaimed : Along (step {}) ReplaySafe seatedStart claimedRow :=
    Along.of_forall (by simp [claimedRow, seatSale, seatRequest, promptConsumer, ReplaySafe])
  refine hclaimed.append fun w₁ h₁ => ?_
  refine ⟨fun x hx _ _ => .inl ?_, fun _ _ => Along.of_forall (by simp [ReplaySafe])⟩
  -- the hold row is there when the relay looks for it
  have hof := exec_test (fun w => (w.releases 0).all fun x => (w.db.holdOf x.order.id).isSome) h₁ (by decide +kernel)
  rw [hx] at hof
  exact hof

end Ticketing
