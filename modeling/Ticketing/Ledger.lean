import Ticketing.Steps

/-!
# How intents, orders, holds and releases belong together

`Linked` collects what every process may rely on whatever the others do: an intent is accepted once for its key, a
handler works on an accepted intent, a hold belongs to an order and agrees with it, and a release works on an order
that has left the held statuses and carries the hold of that order.  It is kept by every step of the pipeline without
any condition.
-/

namespace Ticketing

/-- The columns of an order that no transition changes. -/
structure Order.Same (o o' : Order) : Prop where
  id : o.id = o'.id
  user : o.user = o'.user
  event : o.event = o'.event
  zone : o.zone = o'.zone
  quantity : o.quantity = o'.quantity
  key : o.key = o'.key

theorem Order.Same.refl (o : Order) : o.Same o := ⟨rfl, rfl, rfl, rfl, rfl, rfl⟩

theorem Order.Same.trans {o o' o'' : Order} (h : o.Same o') (h' : o'.Same o'') : o.Same o'' :=
  ⟨h.id.trans h'.id, h.user.trans h'.user, h.event.trans h'.event, h.zone.trans h'.zone,
    h.quantity.trans h'.quantity, h.key.trans h'.key⟩

theorem Order.stamp_same (o : Order) (status : OrderStatus) (now : Time) : (o.stamp status now).Same o := by
  constructor <;> simp

/-- A hold agrees with its order: the trigger `seat_holds_match_order`. -/
structure SeatHold.Matches (h : SeatHold) (o : Order) : Prop where
  order : h.order = o.id
  event : h.event = o.event
  zone : o.zone = some h.zone
  length : h.length = o.quantity

theorem SeatHold.Matches.congr {h : SeatHold} {o o' : Order} (hm : h.Matches o) (hs : o'.Same o) : h.Matches o' :=
  ⟨hm.order.trans hs.id.symm, hm.event.trans hs.event.symm, hs.zone.trans hm.zone,
    hm.length.trans hs.quantity.symm⟩

/-- The hold a release has read, before or after it deleted the row. -/
def Release.carries (x : Release) (hold : SeatHold) : Prop := x.phase = .holdRead hold ∨ x.phase = .holdDeleted hold

namespace Db

/-- An order of this id exists and has left the held statuses. -/
def Terminal (db : Db) (o : Order) : Prop := ∃ o' ∈ db.orders, o'.Same o ∧ o'.status.held = false

/-- The rows of a database agree with each other. -/
structure Linked (db : Db) : Prop where
  ids : (db.orders.map Order.id).Nodup
  holds : (db.seatHolds.map SeatHold.order).Nodup
  hold : ∀ h ∈ db.seatHolds, ∃ o ∈ db.orders, h.Matches o
  row : ∀ e ∈ db.outbox, ∃ o ∈ db.orders, o.id = e.order ∧ o.status.held = false

theorem Linked.order_unique {db : Db} (hl : db.Linked) {o o' : Order} (ho : o ∈ db.orders) (ho' : o' ∈ db.orders)
    (h : o.id = o'.id) : o = o' :=
  List.inj_on_of_nodup_map hl.ids ho ho' h

theorem Linked.hold_unique {db : Db} (hl : db.Linked) {h h' : SeatHold} (hh : h ∈ db.seatHolds)
    (hh' : h' ∈ db.seatHolds) (hEq : h.order = h'.order) : h = h' :=
  List.inj_on_of_nodup_map hl.holds hh hh' hEq

/-! ### Insertions -/

theorem Linked.insertIntent {db db' : Db} {i : Intent} {id : OrderId} {fk : Bool} (hl : db.Linked)
    (h : db.insertIntent i id fk = some db') : db'.Linked := by
  obtain ⟨hacc, hhold, rfl⟩ := insertIntent_eq_some h
  have hmem : ∀ hold ∈ (i.hold id).toList, hold ∈ i.hold id := fun hold hh => Option.mem_toList.1 hh
  have hmatch : ∀ hold ∈ i.hold id, hold.Matches (i.order id) := by
    intro hold hh
    obtain ⟨zone, hz, hh⟩ := Option.bind_eq_some_iff.1 hh
    obtain ⟨seat, hs, rfl⟩ := Option.map_eq_some_iff.1 hh
    exact ⟨rfl, rfl, hz, rfl⟩
  constructor
  · rw [List.map_append]
    refine List.nodup_append.2 ⟨hl.ids, List.nodup_singleton _, ?_⟩
    rintro a ha b hb rfl
    obtain ⟨o, ho, rfl⟩ := List.mem_map.1 ha
    exact hacc.1 o ho (List.mem_singleton.1 hb)
  · rw [List.map_append]
    refine List.nodup_append.2 ⟨hl.holds, ?_, ?_⟩
    · cases i.hold id <;> simp
    · rintro a ha b hb rfl
      obtain ⟨h₁, hh₁, rfl⟩ := List.mem_map.1 ha
      obtain ⟨h₂, hh₂, hEq⟩ := List.mem_map.1 hb
      exact (hhold h₂ (hmem h₂ hh₂)).2.2.1 h₁ hh₁ hEq.symm
  · intro hold hh
    rcases List.mem_append.1 hh with hh | hh
    · obtain ⟨o, ho, hm⟩ := hl.hold hold hh
      exact ⟨o, List.mem_append_left _ ho, hm⟩
    · exact ⟨i.order id, by simp, hmatch hold (hmem hold hh)⟩
  · intro e he
    obtain ⟨o, ho, hid, hst⟩ := hl.row e he
    exact ⟨o, List.mem_append_left _ ho, hid, hst⟩

theorem Terminal.insertIntent {db db' : Db} {i : Intent} {id : OrderId} {fk : Bool} {o : Order} (ht : db.Terminal o)
    (h : db.insertIntent i id fk = some db') : db'.Terminal o := by
  obtain ⟨-, -, rfl⟩ := insertIntent_eq_some h
  obtain ⟨o', ho', hs⟩ := ht
  exact ⟨o', List.mem_append_left _ ho', hs⟩

/-! ### Transitions -/

section Transition

variable {db db' : Db} {id : OrderId} {new : OrderStatus} {now : Time}

/-- Every order of the new database is an order of the old one, with the same immutable columns; it is
unchanged, or it is the order of the transition. -/
theorem of_mem_orders_transition (h : db.transition id new now = some db') {o' : Order} (ho' : o' ∈ db'.orders) :
    ∃ o ∈ db.orders, o'.Same o ∧ (o' = o ∨ o.id = id ∧ o' = o.stamp new now) := by
  obtain ⟨o₀, -, -, rfl⟩ := transition_eq_some h
  obtain ⟨o, ho, rfl⟩ := List.mem_map.1 ho'
  refine ⟨o, ho, ?_⟩
  split
  · rename_i hid
    exact ⟨o.stamp_same new now, .inr ⟨hid, rfl⟩⟩
  · exact ⟨.refl o, .inl rfl⟩

/-- Only an order in a held status moves. -/
theorem Linked.held_of_transition (hl : db.Linked) (h : db.transition id new now = some db') {o : Order}
    (ho : o ∈ db.orders) (hid : o.id = id) : o.status.held = true ∧ new ∈ o.status.validTransitions := by
  obtain ⟨o₁, ho₁, hv, -⟩ := transition_eq_some h
  obtain ⟨hm, hid₁⟩ := orderById_eq_some ho₁
  obtain rfl := hl.order_unique ho hm (hid.trans hid₁.symm)
  refine ⟨?_, hv⟩
  cases hs : o.status <;> simp [hs, OrderStatus.validTransitions, OrderStatus.held] at hv ⊢

theorem mem_orders_transition (hl : db.Linked) (h : db.transition id new now = some db') {o : Order}
    (ho : o ∈ db.orders) :
    ∃ o' ∈ db'.orders, o'.Same o ∧ (o.status.held = false → o' = o) := by
  have hheld := fun hid => (hl.held_of_transition h ho hid).1
  obtain ⟨o₀, -, -, rfl⟩ := transition_eq_some h
  refine ⟨_, List.mem_map.2 ⟨o, ho, rfl⟩, ?_⟩
  split
  · rename_i hid
    refine ⟨o.stamp_same new now, fun hst => ?_⟩
    rw [hheld hid] at hst
    cases hst
  · exact ⟨.refl o, fun _ => rfl⟩

/-- The holds keep their intervals. -/
theorem of_mem_seatHolds_transition (h : db.transition id new now = some db') {hold' : SeatHold}
    (hh : hold' ∈ db'.seatHolds) : ∃ hold ∈ db.seatHolds, hold'.order = hold.order ∧ hold'.event = hold.event ∧
      hold'.zone = hold.zone ∧ hold'.span = hold.span := by
  obtain ⟨o, -, -, rfl⟩ := transition_eq_some h
  simp only at hh
  split at hh
  · obtain ⟨hold, hmem, rfl⟩ := List.mem_map.1 hh
    refine ⟨hold, hmem, ?_⟩
    split <;> exact ⟨rfl, rfl, rfl, rfl⟩
  · exact ⟨hold', hh, rfl, rfl, rfl, rfl⟩

private theorem map_order_seatHolds_transition (h : db.transition id new now = some db') :
    db'.seatHolds.map SeatHold.order = db.seatHolds.map SeatHold.order := by
  obtain ⟨o, -, -, rfl⟩ := transition_eq_some h
  simp only
  split
  · rw [List.map_map]
    refine List.map_congr_left fun hold _ => ?_
    simp only [Function.comp_apply]
    split <;> rfl
  · rfl

theorem Linked.transition (hl : db.Linked) (h : db.transition id new now = some db') : db'.Linked := by
  constructor
  · have hmap : db'.orders.map Order.id = db.orders.map Order.id := by
      obtain ⟨o₀, -, -, rfl⟩ := transition_eq_some h
      rw [List.map_map]
      refine List.map_congr_left fun o _ => ?_
      simp only [Function.comp_apply]
      split <;> simp
    rw [hmap]
    exact hl.ids
  · rw [map_order_seatHolds_transition h]
    exact hl.holds
  · intro hold' hh
    obtain ⟨hold, hmem, ho, he, hz, hs⟩ := of_mem_seatHolds_transition h hh
    obtain ⟨o, hom, hmatch⟩ := hl.hold hold hmem
    obtain ⟨o', ho', hsame, -⟩ := mem_orders_transition hl h hom
    have hm := hmatch.congr hsame
    simp only [SeatHold.span, Span.mk.injEq] at hs
    exact ⟨o', ho', ho.trans hm.order, he.trans hm.event, hz ▸ hm.zone, hs.2.2.trans hm.length⟩
  · intro e he
    have hold_row : e ∈ db.outbox → ∃ o ∈ db'.orders, o.id = e.order ∧ o.status.held = false := by
      intro he
      obtain ⟨o, ho, hid, hst⟩ := hl.row e he
      obtain ⟨o', ho', hsame, hkeep⟩ := mem_orders_transition hl h ho
      exact ⟨o', ho', hsame.id.trans hid, by rw [hkeep hst]; exact hst⟩
    obtain ⟨o, ho, -, heq⟩ := transition_eq_some h
    rw [heq] at he
    simp only at he
    split at he
    · exact hold_row he
    · rename_i hnew
      rcases List.mem_append.1 he with he | he
      · exact hold_row he
      · obtain ⟨hm, hid⟩ := orderById_eq_some ho
        rw [List.mem_singleton.1 he, heq]
        refine ⟨o.stamp new now, List.mem_map.2 ⟨o, hm, by rw [if_pos hid]⟩, by simp [hid], ?_⟩
        rw [Order.stamp_status]
        simpa using hnew

theorem Terminal.transition {o : Order} (ht : db.Terminal o) (hl : db.Linked)
    (h : db.transition id new now = some db') : db'.Terminal o := by
  obtain ⟨o₁, ho₁, hs, hst⟩ := ht
  obtain ⟨o', ho', hsame, hkeep⟩ := mem_orders_transition hl h ho₁
  exact ⟨o', ho', hsame.trans hs, by rw [hkeep hst]; exact hst⟩

end Transition

theorem Linked.deleteHold {db : Db} (hl : db.Linked) (id : OrderId) : (db.deleteHold id).Linked where
  ids := hl.ids
  holds := (List.filter_sublist.map _).nodup hl.holds
  hold h hh := hl.hold h (List.mem_filter.1 hh).1
  row := hl.row

theorem Linked.withOutbox {w : World} {outbox : List OutboxEntry} (hl : w.db.Linked) (h : OutboxFrom w outbox) :
    ({ w.db with outbox } : Db).Linked where
  ids := hl.ids
  holds := hl.holds
  hold := hl.hold
  row e he := by
    obtain ⟨e₀, he₀, -, hord⟩ := h e he
    rw [← hord]
    exact hl.row e₀ he₀

end Db

/-! ### The whole system -/

/-- What holds between the log, the stream, the database and the running processes in every reachable state. -/
structure World.Linked (w : World) : Prop where
  db : w.db.Linked
  keys : (w.log.map Intent.key).Nodup
  claimed : ∀ i ∈ w.log, (w.redis.claims i.key).isSome = true
  pos : ∀ i ∈ w.log, 1 ≤ i.quantity
  queued : ∀ e ∈ w.redis.stream, e.intent ∈ w.log
  handled : ∀ n x, w.handlers n = some x → x.intent ∈ w.log
  released : ∀ id, w.redis.released (.order id) = true → ∃ o ∈ w.db.orders, o.id = id ∧ o.status.held = false
  release : ∀ n x, w.releases n = some x → w.db.Terminal x.order
  carried : ∀ n x hold, w.releases n = some x → x.carries hold → hold.Matches x.order
  deleted : ∀ n x hold, w.releases n = some x → x.phase = .holdDeleted hold →
    ∀ h ∈ w.db.seatHolds, h.order ≠ x.order.id
  agree : ∀ n x hold, w.releases n = some x → x.carries hold →
    (∀ h ∈ w.db.seatHolds, h.order = x.order.id → h.span = hold.span) ∧
      ∀ m y hold', w.releases m = some y → y.carries hold' → y.order.id = x.order.id → hold'.span = hold.span

namespace World.Linked

variable {cfg : Settings} {w w' : World}

theorem start (h : w.Start) (hdb : w.db.Linked) : w.Linked where
  db := hdb
  keys := by simp [h.log]
  claimed := by simp [h.log]
  pos := by simp [h.log]
  queued := by simp [h.stream]
  handled n x hx := by rw [h.handlers n] at hx; cases hx
  released id hid := by rw [h.released] at hid; cases hid
  release n x hx := by rw [h.releases n] at hx; cases hx
  carried n x hold hx := by rw [h.releases n] at hx; cases hx
  deleted n x hold hx := by rw [h.releases n] at hx; cases hx
  agree n x hold hx := by rw [h.releases n] at hx; cases hx

/-- An accepted intent is determined by its key. -/
theorem intent_unique (hl : w.Linked) {i j : Intent} (hi : i ∈ w.log) (hj : j ∈ w.log) (h : i.key = j.key) : i = j :=
  List.inj_on_of_nodup_map hl.keys hi hj h

/-- A step that leaves the database, the log and the releases alone. -/
theorem frame (hl : w.Linked) (hdb : w'.db = w.db) (hlog : w'.log = w.log)
    (hc : ∀ k, (w.redis.claims k).isSome → (w'.redis.claims k).isSome)
    (hs : ∀ e' ∈ w'.redis.stream, e'.intent ∈ w.log)
    (hr : ∀ id, w'.redis.released (.order id) = w.redis.released (.order id))
    (hh : ∀ n x, w'.handlers n = some x → x.intent ∈ w.log) (hrel : w'.releases = w.releases) : w'.Linked where
  db := hdb ▸ hl.db
  keys := hlog ▸ hl.keys
  claimed i hi := hc _ (hl.claimed i (hlog ▸ hi))
  pos i hi := hl.pos i (hlog ▸ hi)
  queued e he := hlog ▸ hs e he
  handled n x hx := hlog ▸ hh n x hx
  released id hid := by
    rw [hdb]
    exact hl.released id (hr id ▸ hid)
  release := by rw [hdb, hrel]; exact hl.release
  carried := by rw [hrel]; exact hl.carried
  deleted := by rw [hdb, hrel]; exact hl.deleted
  agree := by rw [hdb, hrel]; exact hl.agree

/-- An intent is accepted. -/
theorem accept (hl : w.Linked) {i : Intent} (hfresh : w.redis.claims i.key = none) (hpos : 1 ≤ i.quantity)
    (hdb : w'.db = w.db) (hlog : w'.log = w.log ++ [i])
    (hs : w'.redis.stream = w.redis.stream ++ [⟨w.redis.lastId + 1, i, 0⟩])
    (hc : w'.redis.claims = Function.update w.redis.claims i.key (some .pending))
    (hr : w'.redis.released = w.redis.released) (hh : w'.handlers = w.handlers)
    (hrel : w'.releases = w.releases) : w'.Linked where
  db := hdb ▸ hl.db
  keys := by
    rw [hlog, List.map_append]
    refine List.nodup_append.2 ⟨hl.keys, List.nodup_singleton _, ?_⟩
    rintro a ha b hb rfl
    obtain ⟨j, hj, rfl⟩ := List.mem_map.1 ha
    have := hl.claimed j hj
    rw [List.mem_singleton.1 hb, hfresh] at this
    cases this
  claimed j hj := by
    rw [hlog] at hj
    rw [hc]
    rcases List.mem_append.1 hj with hj | hj
    · by_cases hk : j.key = i.key
      · rw [hk, Function.update_self]; rfl
      · rw [Function.update_of_ne hk]; exact hl.claimed j hj
    · rw [List.mem_singleton.1 hj, Function.update_self]; rfl
  pos j hj := by
    rw [hlog] at hj
    rcases List.mem_append.1 hj with hj | hj
    · exact hl.pos j hj
    · rw [List.mem_singleton.1 hj]; exact hpos
  queued e he := by
    rw [hs] at he
    rw [hlog]
    rcases List.mem_append.1 he with he | he
    · exact List.mem_append_left _ (hl.queued e he)
    · rw [List.mem_singleton.1 he]; simp
  handled n x hx := by
    rw [hlog]
    exact List.mem_append_left _ (hl.handled n x (hh ▸ hx))
  released := by rw [hdb, hr]; exact hl.released
  release := by rw [hdb, hrel]; exact hl.release
  carried := by rw [hrel]; exact hl.carried
  deleted := by rw [hdb, hrel]; exact hl.deleted
  agree := by rw [hdb, hrel]; exact hl.agree

/-- An intent is committed: its order and hold are new, so no release knows them. -/
theorem commit (hl : w.Linked) {n : Nat} {x : Handler} {id : OrderId} {fk : Bool} {db : Db} {p : HandlerPhase}
    (hx : w.handlers n = some x) (hdb : w.db.insertIntent x.intent id fk = some db) :
    ({ w.setHandler n (some { x with phase := p }) with db } : World).Linked := by
  have hholds : ∀ h ∈ db.seatHolds, h ∈ w.db.seatHolds ∨ ∀ o, w.db.Terminal o → h.order ≠ o.id := by
    obtain ⟨hacc, hhold, rfl⟩ := insertIntent_eq_some hdb
    intro h hh
    rcases List.mem_append.1 hh with hh | hh
    · exact .inl hh
    · refine .inr fun o ho hEq => ?_
      obtain ⟨o', ho', hs, -⟩ := ho
      obtain ⟨zone, hz, hh⟩ := Option.bind_eq_some_iff.1 (Option.mem_toList.1 hh)
      obtain ⟨seat, hs', rfl⟩ := Option.map_eq_some_iff.1 hh
      exact hacc.1 o' ho' (hs.id.trans hEq.symm)
  refine { hl with
    db := hl.db.insertIntent hdb, handled := ?_, released := ?_, release := ?_, deleted := ?_, agree := ?_ }
  · intro m y hy
    simp only [World.setHandler] at hy
    by_cases hm : m = n
    · subst hm
      rw [Function.update_self, Option.some.injEq] at hy
      subst hy
      exact hl.handled m x hx
    · rw [Function.update_of_ne hm] at hy
      exact hl.handled m y hy
  · intro id' hid'
    obtain ⟨o, ho, h1, h2⟩ := hl.released id' hid'
    obtain ⟨-, -, rfl⟩ := insertIntent_eq_some hdb
    exact ⟨o, List.mem_append_left _ ho, h1, h2⟩
  · exact fun m y hy => (hl.release m y hy).insertIntent hdb
  · intro m y hold hy hp h hh
    rcases hholds h hh with hh | hne
    · exact hl.deleted m y hold hy hp h hh
    · exact hne y.order (hl.release m y hy)
  · intro m y hold hy hc
    refine ⟨fun h hh hord => ?_, (hl.agree m y hold hy hc).2⟩
    rcases hholds h hh with hh | hne
    · exact (hl.agree m y hold hy hc).1 h hh hord
    · exact absurd hord (hne y.order (hl.release m y hy))

theorem transition (hl : w.Linked) {id : OrderId} {new : OrderStatus} {now : Time} {db : Db}
    (hdb : w.db.transition id new now = some db) : ({ w with db } : World).Linked := by
  refine { hl with db := hl.db.transition hdb, released := ?_, release := ?_, deleted := ?_, agree := ?_ }
  · intro id' hid'
    obtain ⟨o, ho, h1, h2⟩ := hl.released id' hid'
    obtain ⟨o', ho', hs, hkeep⟩ := Db.mem_orders_transition hl.db hdb ho
    exact ⟨o', ho', hs.id.trans h1, by rw [hkeep h2]; exact h2⟩
  · exact fun m y hy => (hl.release m y hy).transition hl.db hdb
  · intro m y hold hy hp h hh
    obtain ⟨h₀, hh₀, hord, -⟩ := Db.of_mem_seatHolds_transition hdb hh
    rw [hord]
    exact hl.deleted m y hold hy hp h₀ hh₀
  · intro m y hold hy hc
    refine ⟨fun h hh hord => ?_, (hl.agree m y hold hy hc).2⟩
    obtain ⟨h₀, hh₀, hord₀, -, -, hs⟩ := Db.of_mem_seatHolds_transition hdb hh
    rw [hs]
    exact (hl.agree m y hold hy hc).1 h₀ hh₀ (hord₀ ▸ hord)

/-- A release moves on without touching orders or holds. -/
theorem releases (hl : w.Linked) {outbox : List OutboxEntry} {releases : Nat → Option Release}
    (hout : OutboxFrom w outbox) (hfrom : ReleasesFrom w releases) :
    ({ w with db := { w.db with outbox }, releases } : World).Linked := by
  -- a carried hold was carried before, or is the hold row of the order
  have hcar : ∀ n y hold, releases n = some y → y.carries hold →
      (∃ m x, w.releases m = some x ∧ x.carries hold ∧ x.order = y.order) ∨
      (w.db.holdOf y.order.id = some hold ∧ ∃ x, w.releases n = some x ∧ x.order = y.order) := by
    intro n y hold hy hc
    rcases hfrom n y hy with ⟨x, hx, hord, -, hread, hdel⟩ | ⟨hbegun, -, -⟩
    · rcases hc with hc | hc
      · rcases hread hold hc with h | h
        · exact .inl ⟨n, x, hx, .inl h, hord.symm⟩
        · exact .inr ⟨h, x, hx, hord.symm⟩
      · exact .inl ⟨n, x, hx, .inr (hdel hold hc), hord.symm⟩
    · rcases hc with hc | hc <;> rw [hbegun] at hc <;> cases hc
  have hrow : ∀ n y hold, releases n = some y → y.carries hold →
      ∀ h ∈ w.db.seatHolds, h.order = y.order.id → h.span = hold.span := by
    intro n y hold hy hc h hh hord
    rcases hcar n y hold hy hc with ⟨m, x, hx, hcx, hEq⟩ | ⟨hof, -⟩
    · exact (hl.agree m x hold hx hcx).1 h hh (hEq ▸ hord)
    · obtain ⟨hmem, hid⟩ := holdOf_eq_some hof
      rw [hl.db.hold_unique hh hmem (hord.trans hid.symm)]
  refine { hl with db := hl.db.withOutbox hout, release := ?_, carried := ?_, deleted := ?_, agree := ?_ }
  · intro n y hy
    rcases hfrom n y hy with ⟨x, hx, hord, -⟩ | ⟨-, hby, hst⟩
    · rw [hord]
      exact hl.release n x hx
    · obtain ⟨hmem, -⟩ := orderById_eq_some hby
      refine ⟨y.order, hmem, .refl _, ?_⟩
      rcases hst with hst | ⟨e, he, heq⟩
      · exact hst
      · obtain ⟨o, ho, hid, hst⟩ := hl.db.row e he
        rw [← hl.db.order_unique ho hmem (hid.trans heq)]
        exact hst
  · intro n y hold hy hc
    rcases hcar n y hold hy hc with ⟨m, x, hx, hcx, hEq⟩ | ⟨hof, x, hx, hEq⟩
    · exact hEq ▸ hl.carried m x hold hx hcx
    · obtain ⟨hmem, hid⟩ := holdOf_eq_some hof
      obtain ⟨o, ho, hmatch⟩ := hl.db.hold hold hmem
      obtain ⟨o', ho', hs, -⟩ := hl.release n x hx
      rw [hl.db.order_unique ho ho' (hmatch.order.symm.trans (hid.trans (hEq ▸ hs.id.symm)))] at hmatch
      rw [← hEq]
      exact ⟨hmatch.order.trans hs.id, hmatch.event.trans hs.event, hs.zone ▸ hmatch.zone,
        hmatch.length.trans hs.quantity⟩
  · intro n y hold hy hp h hh
    rcases hfrom n y hy with ⟨x, hx, hord, -, -, hdel⟩ | ⟨hbegun, -, -⟩
    · rw [hord]
      exact hl.deleted n x hold hx (hdel hold hp) h hh
    · rw [hbegun] at hp; cases hp
  · intro n y hold hy hc
    refine ⟨hrow n y hold hy hc, fun m z hold' hz hcz hid => ?_⟩
    rcases hcar m z hold' hz hcz with ⟨m', x, hx, hcx, hEq⟩ | ⟨hof, -⟩
    · rcases hcar n y hold hy hc with ⟨n', x', hx', hcx', hEq'⟩ | ⟨hof', -⟩
      · exact (hl.agree n' x' hold hx' hcx').2 m' x hold' hx hcx (by rw [hEq, hEq', hid])
      · obtain ⟨hmem, hid'⟩ := holdOf_eq_some hof'
        exact ((hl.agree m' x hold' hx hcx).1 hold hmem (by rw [hid', hEq, hid])).symm
    · obtain ⟨hmem, hid'⟩ := holdOf_eq_some hof
      exact hrow n y hold hy hc hold' hmem (hid'.trans hid)

/-- The hold row is deleted; the release goes on with what it read. -/
theorem deleteHold (hl : w.Linked) {n : Nat} {x : Release} {hold : SeatHold} (hx : w.releases n = some x)
    (hp : x.phase = .holdRead hold) :
    ({ w.setRelease n (some { x with phase := .holdDeleted hold }) with
      db := w.db.deleteHold x.order.id } : World).Linked := by
  have hfrom : ∀ m y hold', Function.update w.releases n (some { x with phase := .holdDeleted hold }) m = some y →
      y.carries hold' → ∃ z, w.releases m = some z ∧ z.carries hold' ∧ z.order = y.order := by
    intro m y hold' hy hc
    by_cases hm : m = n
    · subst hm
      rw [Function.update_self, Option.some.injEq] at hy
      subst hy
      rcases hc with hc | hc
      · cases hc
      · cases hc
        exact ⟨x, hx, .inl hp, rfl⟩
    · rw [Function.update_of_ne hm] at hy
      exact ⟨y, hy, hc, rfl⟩
  refine { hl with db := hl.db.deleteHold _, release := ?_, carried := ?_, deleted := ?_, agree := ?_ }
  · intro m y hy
    simp only [World.setRelease] at hy
    by_cases hm : m = n
    · subst hm
      rw [Function.update_self, Option.some.injEq] at hy
      subst hy
      exact hl.release m x hx
    · rw [Function.update_of_ne hm] at hy
      exact hl.release m y hy
  · intro m y hold' hy hc
    obtain ⟨z, hz, hcz, hord⟩ := hfrom m y hold' hy hc
    exact hord ▸ hl.carried m z hold' hz hcz
  · intro m y hold' hy hpy h hh
    obtain ⟨hmem, hne⟩ := List.mem_filter.1 hh
    simp only [World.setRelease] at hy
    by_cases hm : m = n
    · subst hm
      rw [Function.update_self, Option.some.injEq] at hy
      subst hy
      simpa using hne
    · rw [Function.update_of_ne hm] at hy
      exact hl.deleted m y hold' hy hpy h hmem
  · intro m y hold' hy hc
    obtain ⟨z, hz, hcz, hord⟩ := hfrom m y hold' hy hc
    obtain ⟨h1, h2⟩ := hl.agree m z hold' hz hcz
    refine ⟨fun h hh hEq => h1 h (List.mem_filter.1 hh).1 (by rw [hEq, hord]), ?_⟩
    intro m' y' hold'' hy' hc' hEq
    obtain ⟨z', hz', hcz', hord'⟩ := hfrom m' y' hold'' hy' hc'
    exact h2 m' z' hold'' hz' hcz' (by rw [hord', hord, hEq])

/-- A script returns the stock of an order and sets its marker. -/
theorem finish (hl : w.Linked) {n : Nat} {x : Release} (hx : w.releases n = some x) (hdb : w'.db = w.db)
    (hlog : w'.log = w.log) (hc : w'.redis.claims = w.redis.claims) (hs : w'.redis.stream = w.redis.stream)
    (hr : w'.redis.released = Function.update w.redis.released (.order x.order.id) true)
    (hh : w'.handlers = w.handlers)
    (hrel : w'.releases = Function.update w.releases n (some { x with phase := .finished })) : w'.Linked := by
  have hfrom : ∀ m y, w'.releases m = some y →
      ∃ z, w.releases m = some z ∧ z.order = y.order ∧ ∀ hold, (y.carries hold → z.carries hold) ∧
        (y.phase = .holdDeleted hold → z.phase = .holdDeleted hold) := by
    intro m y hy
    rw [hrel] at hy
    by_cases hm : m = n
    · subst hm
      rw [Function.update_self, Option.some.injEq] at hy
      subst hy
      refine ⟨x, hx, rfl, fun hold => ⟨?_, fun h => by cases h⟩⟩
      rintro (h | h) <;> cases h
    · rw [Function.update_of_ne hm] at hy
      exact ⟨y, hy, rfl, fun hold => ⟨id, id⟩⟩
  constructor
  · exact hdb ▸ hl.db
  · exact hlog ▸ hl.keys
  · rw [hlog, hc]; exact hl.claimed
  · rw [hlog]; exact hl.pos
  · rw [hlog, hs]; exact hl.queued
  · rw [hlog, hh]; exact hl.handled
  · intro id hid
    rw [hdb]
    rw [hr] at hid
    by_cases h : id = x.order.id
    · obtain ⟨o, ho, hsame, hst⟩ := hl.release n x hx
      exact ⟨o, ho, hsame.id.trans h.symm, hst⟩
    · rw [Function.update_of_ne (by simpa using h)] at hid
      exact hl.released id hid
  · intro m y hy
    obtain ⟨z, hz, hord, -⟩ := hfrom m y hy
    rw [hdb, ← hord]
    exact hl.release m z hz
  · intro m y hold hy hcy
    obtain ⟨z, hz, hord, hcar⟩ := hfrom m y hy
    rw [← hord]
    exact hl.carried m z hold hz ((hcar hold).1 hcy)
  · intro m y hold hy hp
    obtain ⟨z, hz, hord, hcar⟩ := hfrom m y hy
    rw [hdb, ← hord]
    exact hl.deleted m z hold hz ((hcar hold).2 hp)
  · intro m y hold hy hcy
    obtain ⟨z, hz, hord, hcar⟩ := hfrom m y hy
    obtain ⟨h1, h2⟩ := hl.agree m z hold hz ((hcar hold).1 hcy)
    rw [hdb, ← hord]
    refine ⟨h1, fun m' y' hold' hy' hcy' hid => ?_⟩
    obtain ⟨z', hz', hord', hcar'⟩ := hfrom m' y' hy'
    exact h2 m' z' hold' hz' ((hcar' hold').1 hcy') (by rw [hord', hid])

private theorem handled_from {a : SettleAct} {handlers : Nat → Option Handler} (hl : w.Linked)
    (hfrom : HandlersFrom w a handlers) : ∀ n x, handlers n = some x → x.intent ∈ w.log := by
  intro n y hy
  rcases hfrom n y hy with ⟨x, hx, -, hint, -⟩ | ⟨e, he, -, hint, -⟩
  · exact hint ▸ hl.handled n x hx
  · exact hint ▸ hl.queued e he

theorem step {a : Act} (hl : w.Linked) (h : Ticketing.step cfg w a = some w') : w'.Linked := by
  cases a with
  | intake a =>
    rcases stepIntake_cases h with ⟨b, hok, rfl⟩ | ⟨c, call, b, -, hok, rfl⟩ | ⟨zones, calls, -, -, rfl⟩
    · exact hl.accept hok.fresh hok.pos rfl rfl rfl rfl rfl rfl rfl
    · exact hl.accept hok.fresh hok.pos rfl rfl rfl rfl rfl rfl rfl
    · exact hl.frame rfl rfl (fun _ h => h) hl.queued (fun _ => rfl) hl.handled rfl
  | settle a =>
    rcases stepSettle_cases h with ⟨n, x, id, fk, db, rfl, hx, -, -, hdb, rfl⟩ | ⟨n, x, w₁, hx, hp, hw₁, rfl⟩ |
      ⟨redis, handlers, hq, hfrom, rfl⟩
    · exact hl.commit hx hdb
    · have hhand : ∀ m y, Function.update w.handlers n (some { x with phase := .refunded }) m = some y →
          y.intent ∈ w.log :=
        hl.handled_from (a := .stop n) (handlersFrom_phase hx fun hd => by cases hd)
      have hmark : ∀ id, Function.update w.redis.released (.deadLetter x.intent.key) true (.order id) =
          w.redis.released (.order id) := fun _ => Function.update_of_ne (by simp) _ _
      rcases World.refund_cases hw₁ with ⟨-, -, rfl⟩ | ⟨seat, zone, -, -, -, rfl⟩ | rfl
      · exact hl.frame rfl rfl (fun _ h => h) hl.queued hmark hhand rfl
      · exact hl.frame rfl rfl (fun _ h => h) hl.queued hmark hhand rfl
      · exact hl.frame rfl rfl (fun _ h => h) hl.queued (fun _ => rfl) hhand rfl
    · refine hl.frame rfl rfl hq.claims ?_ (fun _ => congrFun hq.released _) (hl.handled_from hfrom) rfl
      intro e' he'
      obtain ⟨e, he, -, hint⟩ := hq.stream e' he'
      exact hint ▸ hl.queued e he
  | transition id new now =>
    obtain ⟨db, hdb, rfl⟩ := Option.map_eq_some_iff.1 h
    exact hl.transition hdb
  | release a =>
    rcases stepRelease_cases h with ⟨n, x, hold, hx, hp, rfl⟩ | ⟨n, x, hx, -, -, -, rfl⟩ |
      ⟨n, x, hold, zone, hx, -, -, -, rfl⟩ | ⟨outbox, releases, hout, hfrom, rfl⟩
    · exact hl.deleteHold hx hp
    · exact hl.finish hx rfl rfl rfl rfl rfl rfl rfl
    · exact hl.finish hx rfl rfl rfl rfl rfl rfl rfl
    · exact hl.releases hout hfrom
  | reconcile a =>
    rcases stepReconcile_cases h with ⟨n, job, remaining, owing, -, -, -, rfl⟩ | ⟨n, job, rows, -, -, rfl⟩ |
      ⟨reconciles, -, rfl⟩ <;>
      exact hl.frame rfl rfl (fun _ h => h) hl.queued (fun _ => rfl) hl.handled rfl
  | rebuild a =>
    rcases stepRebuild_cases h with ⟨n, job, blocks, held, -, -, -, rfl⟩ | ⟨rebuilds, -, rfl⟩ <;>
      exact hl.frame rfl rfl (fun _ h => h) hl.queued (fun _ => rfl) hl.handled rfl
  | lose event =>
    obtain rfl := Option.some.inj h
    exact hl.frame rfl rfl (fun _ h => h) hl.queued (fun _ => rfl) hl.handled rfl

end World.Linked

/-! ### Where orders come from -/

/-- A database without orders: what a sale starts from. -/
structure Db.Unsold (db : Db) : Prop where
  orders : db.orders = []
  seatHolds : db.seatHolds = []
  outbox : db.outbox = []

theorem Db.Unsold.linked {db : Db} (h : db.Unsold) : db.Linked := by
  constructor <;> simp [h.orders, h.seatHolds, h.outbox]

/-- In a run from an unsold database every order, hold and dead-letter marker comes from an accepted intent. -/
structure World.Originated (w : World) : Prop where
  order : ∀ o ∈ w.db.orders, ∃ i ∈ w.log, (i.order o.id).Same o
  hold : ∀ h ∈ w.db.seatHolds, ∃ i ∈ w.log, ∃ o ∈ w.db.orders, o.id = h.order ∧ i.key = o.key ∧ i.span = some h.span
  marker : ∀ k, w.redis.released (.deadLetter k) = true → ∃ i ∈ w.log, i.key = k

namespace World.Originated

variable {cfg : Settings} {w w' : World}

theorem start (h : w.Start) (hdb : w.db.Unsold) : w.Originated where
  order := by simp [hdb.orders]
  hold := by simp [hdb.seatHolds]
  marker k hk := by rw [h.released] at hk; cases hk

/-- A step that adds no order and no dead-letter marker. -/
theorem frame (ho : w.Originated) (horders : ∀ o' ∈ w'.db.orders, ∃ o ∈ w.db.orders, o'.Same o)
    (hback : ∀ o ∈ w.db.orders, ∃ o' ∈ w'.db.orders, o'.Same o)
    (hholds : ∀ h' ∈ w'.db.seatHolds, ∃ h ∈ w.db.seatHolds, h'.order = h.order ∧ h'.span = h.span)
    (hlog : ∀ i ∈ w.log, i ∈ w'.log)
    (hr : ∀ k, w'.redis.released (.deadLetter k) = w.redis.released (.deadLetter k)) : w'.Originated where
  order o' ho' := by
    obtain ⟨o, hmem, hs⟩ := horders o' ho'
    obtain ⟨i, hi, hsame⟩ := ho.order o hmem
    exact ⟨i, hlog i hi, ⟨rfl, hsame.user.trans hs.user.symm, hsame.event.trans hs.event.symm,
      hsame.zone.trans hs.zone.symm, hsame.quantity.trans hs.quantity.symm, hsame.key.trans hs.key.symm⟩⟩
  hold h' hh' := by
    obtain ⟨h, hmem, hord, hspan⟩ := hholds h' hh'
    obtain ⟨i, hi, o, ho', hid, hkey, hs⟩ := ho.hold h hmem
    obtain ⟨o', hmem', hsame⟩ := hback o ho'
    exact ⟨i, hlog i hi, o', hmem', hsame.id.trans (hid.trans hord.symm), hkey.trans hsame.key.symm, hspan ▸ hs⟩
  marker k hk := by
    obtain ⟨i, hi, hkey⟩ := ho.marker k (hr k ▸ hk)
    exact ⟨i, hlog i hi, hkey⟩

private theorem same_orders (w : World) : ∀ o ∈ w.db.orders, ∃ o' ∈ w.db.orders, o'.Same o :=
  fun o ho => ⟨o, ho, .refl o⟩

private theorem same_orders' (w : World) : ∀ o ∈ w.db.orders, ∃ o' ∈ w.db.orders, o.Same o' :=
  fun o ho => ⟨o, ho, .refl o⟩

private theorem same_holds (w : World) :
    ∀ h ∈ w.db.seatHolds, ∃ h' ∈ w.db.seatHolds, h.order = h'.order ∧ h.span = h'.span :=
  fun h hh => ⟨h, hh, rfl, rfl⟩

theorem commit (ho : w.Originated) {n : Nat} {x : Handler} {id : OrderId} {fk : Bool} {db : Db} {p : HandlerPhase}
    (hmem : x.intent ∈ w.log) (hdb : w.db.insertIntent x.intent id fk = some db) :
    ({ w.setHandler n (some { x with phase := p }) with db } : World).Originated := by
  obtain ⟨-, -, rfl⟩ := insertIntent_eq_some hdb
  constructor
  · intro o hom
    rcases List.mem_append.1 hom with hom | hom
    · exact ho.order o hom
    · rw [List.mem_singleton.1 hom]
      exact ⟨x.intent, hmem, .refl _⟩
  · intro h hh
    rcases List.mem_append.1 hh with hh | hh
    · obtain ⟨i, hi, o, hom, hrest⟩ := ho.hold h hh
      exact ⟨i, hi, o, List.mem_append_left _ hom, hrest⟩
    · obtain ⟨zone, hz, hh⟩ := Option.bind_eq_some_iff.1 (Option.mem_toList.1 hh)
      obtain ⟨seat, hs, rfl⟩ := Option.map_eq_some_iff.1 hh
      refine ⟨x.intent, hmem, x.intent.order id, by simp, rfl, rfl, ?_⟩
      rw [Intent.span, hs]
      rfl
  · exact ho.marker

theorem step {a : Act} (ho : w.Originated) (hl : w.Linked) (h : Ticketing.step cfg w a = some w') :
    w'.Originated := by
  cases a with
  | intake a =>
    rcases stepIntake_cases h with ⟨b, -, rfl⟩ | ⟨c, call, b, -, -, rfl⟩ | ⟨zones, calls, -, -, rfl⟩
    · exact ho.frame (same_orders' w) (same_orders w) (same_holds w) (fun _ => List.mem_append_left _) fun _ => rfl
    · exact ho.frame (same_orders' w) (same_orders w) (same_holds w) (fun _ => List.mem_append_left _) fun _ => rfl
    · exact ho.frame (same_orders' w) (same_orders w) (same_holds w) (fun _ h => h) fun _ => rfl
  | settle a =>
    rcases stepSettle_cases h with ⟨n, x, id, fk, db, rfl, hx, -, -, hdb, rfl⟩ | ⟨n, x, w₁, hx, hp, hw₁, rfl⟩ |
      ⟨redis, handlers, hq, hfrom, rfl⟩
    · exact ho.commit (hl.handled n x hx) hdb
    · have hmark : ∀ k, Function.update w.redis.released (.deadLetter x.intent.key) true (.deadLetter k) = true →
          ∃ i ∈ w.log, i.key = k := by
        intro k hk
        by_cases hkey : x.intent.key = k
        · exact ⟨x.intent, hl.handled n x hx, hkey⟩
        · rw [Function.update_of_ne (by simpa using fun h => hkey h.symm)] at hk
          exact ho.marker k hk
      rcases World.refund_cases hw₁ with ⟨-, -, rfl⟩ | ⟨seat, zone, -, -, -, rfl⟩ | rfl
      · exact ⟨ho.order, ho.hold, hmark⟩
      · exact ⟨ho.order, ho.hold, hmark⟩
      · exact ⟨ho.order, ho.hold, ho.marker⟩
    · exact ho.frame (same_orders' w) (same_orders w) (same_holds w) (fun _ h => h) fun _ => congrFun hq.released _
  | transition id new now =>
    obtain ⟨db, hdb, rfl⟩ := Option.map_eq_some_iff.1 h
    refine ho.frame ?_ ?_ ?_ (fun _ h => h) fun _ => rfl
    · intro o' ho'
      obtain ⟨o, hom, hs, -⟩ := Db.of_mem_orders_transition hdb ho'
      exact ⟨o, hom, hs⟩
    · intro o hom
      obtain ⟨o', ho', hs, -⟩ := Db.mem_orders_transition hl.db hdb hom
      exact ⟨o', ho', hs⟩
    · intro h' hh'
      obtain ⟨h, hh, hord, -, -, hs⟩ := Db.of_mem_seatHolds_transition hdb hh'
      exact ⟨h, hh, hord, hs⟩
  | release a =>
    have hmark : ∀ (id : OrderId) k, Function.update w.redis.released (.order id) true (.deadLetter k) =
        w.redis.released (.deadLetter k) := fun _ _ => Function.update_of_ne (by simp) _ _
    rcases stepRelease_cases h with ⟨n, x, hold, -, -, rfl⟩ | ⟨n, x, -, -, -, -, rfl⟩ |
      ⟨n, x, hold, zone, -, -, -, -, rfl⟩ | ⟨outbox, releases, -, -, rfl⟩
    · refine ho.frame (same_orders' w) (same_orders w) ?_ (fun _ h => h) fun _ => rfl
      exact fun h hh => ⟨h, (List.mem_filter.1 hh).1, rfl, rfl⟩
    · exact ho.frame (same_orders' w) (same_orders w) (same_holds w) (fun _ h => h) (hmark x.order.id)
    · exact ho.frame (same_orders' w) (same_orders w) (same_holds w) (fun _ h => h) (hmark x.order.id)
    · exact ho.frame (same_orders' w) (same_orders w) (same_holds w) (fun _ h => h) fun _ => rfl
  | reconcile a =>
    rcases stepReconcile_cases h with ⟨n, job, remaining, owing, -, -, -, rfl⟩ | ⟨n, job, rows, -, -, rfl⟩ |
      ⟨reconciles, -, rfl⟩ <;>
      exact ho.frame (same_orders' w) (same_orders w) (same_holds w) (fun _ h => h) fun _ => rfl
  | rebuild a =>
    rcases stepRebuild_cases h with ⟨n, job, blocks, held, -, -, -, rfl⟩ | ⟨rebuilds, -, rfl⟩ <;>
      exact ho.frame (same_orders' w) (same_orders w) (same_holds w) (fun _ h => h) fun _ => rfl
  | lose event =>
    obtain rfl := Option.some.inj h
    exact ho.frame (same_orders' w) (same_orders w) (same_holds w) (fun _ h => h) fun _ => rfl

end World.Originated

/-- Orders stay, with their immutable columns. -/
theorem World.orders_step {cfg : Settings} {w w' : World} {a : Act} (hl : w.Linked) (h : step cfg w a = some w') :
    ∀ o ∈ w.db.orders, ∃ o' ∈ w'.db.orders, o'.Same o := by
  intro o ho
  cases a with
  | settle a =>
    rcases stepSettle_cases h with ⟨n, x, oid, fk, db, -, -, -, -, hdb, rfl⟩ | ⟨n, x, w₁, -, -, hw₁, rfl⟩ |
      ⟨redis, handlers, -, -, rfl⟩
    · obtain ⟨-, -, rfl⟩ := insertIntent_eq_some hdb
      exact ⟨o, List.mem_append_left _ ho, .refl o⟩
    · rcases World.refund_cases hw₁ with ⟨-, -, rfl⟩ | ⟨seat, zone, -, -, -, rfl⟩ | rfl <;> exact ⟨o, ho, .refl o⟩
    · exact ⟨o, ho, .refl o⟩
  | transition oid new now =>
    obtain ⟨db, hdb, rfl⟩ := Option.map_eq_some_iff.1 h
    obtain ⟨o', ho', hs, -⟩ := Db.mem_orders_transition hl.db hdb ho
    exact ⟨o', ho', hs⟩
  | _ =>
    rw [(tablesKept_step h).orders (by simp) (by simp)]
    exact ⟨o, ho, .refl o⟩

/-- No two orders carry the same idempotency key. -/
def World.OneOrderPerKey (w : World) : Prop := (w.db.orders.map Order.key).Nodup

theorem World.OneOrderPerKey.step {cfg : Settings} {w w' : World} {a : Act} (hk : w.OneOrderPerKey)
    (h : Ticketing.step cfg w a = some w') :
    w'.OneOrderPerKey := by
  unfold OneOrderPerKey at *
  by_cases hpersist : ∃ n id fk, a = .settle (.persist n id fk)
  · obtain ⟨n, id, fk, rfl⟩ := hpersist
    have hsettle : stepSettle cfg w (.persist n id fk) = some w' := h
    rcases stepSettle_cases hsettle with ⟨n, x, id, fk, db, -, -, -, -, hdb, rfl⟩ | ⟨n, x, w₁, -, -, hw₁, rfl⟩ |
      ⟨redis, handlers, -, -, rfl⟩
    · obtain ⟨hacc, -, rfl⟩ := insertIntent_eq_some hdb
      rw [List.map_append, List.nodup_append]
      refine ⟨hk, by simp, ?_⟩
      intro k hmem k' hmem'
      obtain ⟨o, ho, rfl⟩ := List.mem_map.1 hmem
      obtain rfl := List.mem_singleton.1 hmem'
      exact hacc.2.1 o ho
    · rcases World.refund_cases hw₁ with ⟨-, -, rfl⟩ | ⟨seat, zone, -, -, -, rfl⟩ | rfl <;> exact hk
    · exact hk
  · by_cases htrans : ∃ id new now, a = .transition id new now
    · obtain ⟨id, new, now, rfl⟩ := htrans
      obtain ⟨db, hdb, rfl⟩ := Option.map_eq_some_iff.1 h
      have hkeys : db.orders.map Order.key = w.db.orders.map Order.key := by
        obtain ⟨o₀, -, -, rfl⟩ := transition_eq_some hdb
        rw [List.map_map]
        refine List.map_congr_left fun o _ => ?_
        simp only [Function.comp_apply]
        split <;> simp
      rw [hkeys]
      exact hk
    · have hsame := (tablesKept_step h).orders (fun n id fk ha => hpersist ⟨n, id, fk, ha⟩)
        fun id new now ha => htrans ⟨id, new, now, ha⟩
      rw [hsame]
      exact hk

end Ticketing
