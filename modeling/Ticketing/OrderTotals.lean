import Ticketing.Availability

/-!
# Totals and the width of their column

`submit_order` multiplies the unit price by the quantity in unbounded integers, takes the stock and appends
the intent; `orders.total_price_cents` is a 32-bit column.  The schemas bound a price from below only, so that
a stored price may be as large as its own 32-bit column admits, and a request for two tickets at such a price
is accepted and can never be persisted (`total_out_of_range`).

`totals_fit_iff` says for which events this cannot happen: `max_purchasable` tickets at any of the prices have
to fit.
-/

namespace Ticketing

open Exec

/-! ### Columns of 32 bits -/

def int4Max : Int := 2147483647

/-- A value that a column of type `integer` can hold. -/
def Int4 (n : Int) : Prop := -int4Max - 1 ≤ n ∧ n ≤ int4Max

instance : DecidablePred Int4 := fun _ => inferInstanceAs (Decidable (_ ∧ _))

/-- The integer columns of the order that an intent becomes. -/
def Intent.orderColumns (i : Intent) : List Int :=
  [(i.user : Int), (i.event : Int)] ++ i.zone.toList.map (fun zone : ZoneId => (zone : Int)) ++
    [i.quantity, i.totalPriceCents]

/-- What `_persist_intent` comes to. -/
inductive PersistResult where
  | ok (db : Db)
  | duplicate
  | failed
  /-- The driver refuses a number that its column cannot hold. -/
  | dataError

/-- `_persist_intent`, with the range of the columns of the order. -/
def Db.persistIntent (db : Db) (i : Intent) (id : OrderId) (fk : Bool) : PersistResult :=
  if i.consistent = false then .failed
  else if ∃ n ∈ i.orderColumns, ¬Int4 n then .dataError
  else
    match db.insertIntent i id fk with
    | some db => .ok db
    | none => if db.orders.any fun o => o.key = i.key then .duplicate else .failed

theorem persistIntent_ne_dataError {i : Intent} (h : ∀ n ∈ i.orderColumns, Int4 n) (db : Db)
    (id : OrderId) (fk : Bool) :
    db.persistIntent i id fk ≠ .dataError := by
  have hnone : ¬∃ n ∈ i.orderColumns, ¬Int4 n := fun ⟨n, hn, hout⟩ => hout (h n hn)
  rw [Db.persistIntent, if_neg hnone]
  (repeat' split) <;> simp

theorem persistIntent_dataError {i : Intent} (hconsistent : i.consistent = true) {n : Int}
    (hn : n ∈ i.orderColumns) (hout : ¬Int4 n)
    (db : Db) (id : OrderId) (fk : Bool) : db.persistIntent i id fk = .dataError := by
  rw [Db.persistIntent, if_neg (by simp [hconsistent]), if_pos ⟨n, hn, hout⟩]

/-! ### Prices and requests -/

/-- The event sells tickets of the zone, or of no zone, at this price. -/
inductive EventMeta.Sells (m : EventMeta) : Option ZoneId → Int → Prop where
  | single {price : Int} (hvenue : m.venue = none) (hprice : m.priceCents = some price) : Sells m none price
  | zone {zone : ZoneId} {price : Int} (hvenue : m.venue ≠ none) (hprice : m.zonePrices.lookup zone = some price) :
      Sells m (some zone) price

theorem EventMeta.sells_iff {m : EventMeta} {zone : Option ZoneId} {price : Int} : m.Sells zone price ↔
    m.unitPrice zone = .ok price := by
  constructor
  · rintro (⟨hvenue, hprice⟩ | ⟨hvenue, hprice⟩)
    · simp [unitPrice, hvenue, hprice]
    · obtain ⟨venue, hvenue⟩ := Option.ne_none_iff_exists'.1 hvenue
      simp [unitPrice, hvenue, hprice]
  · intro h
    cases hvenue : m.venue with
    | none =>
      cases zone with
      | some zone => simp [unitPrice, hvenue] at h
      | none =>
        cases hprice : m.priceCents with
        | none => simp [unitPrice, hvenue, hprice] at h
        | some p =>
          simp only [unitPrice, hvenue, hprice, Option.elim_some, Except.ok.injEq] at h
          exact .single hvenue (h ▸ hprice)
    | some venue =>
      cases zone with
      | none => simp [unitPrice, hvenue] at h
      | some zone =>
        cases hprice : m.zonePrices.lookup zone with
        | none => simp [unitPrice, hvenue, hprice] at h
        | some p =>
          simp only [unitPrice, hvenue, hprice, Option.elim_some, Except.ok.injEq] at h
          exact .zone (by simp [hvenue]) (h ▸ hprice)

/-- The meta of rows that the schemas and the constraints of the tables have let through. -/
structure EventMeta.Stored (m : EventMeta) : Prop where
  event : Int4 m.event
  zones : ∀ zone price, m.Sells (some zone) price → Int4 zone
  prices : ∀ zone price, m.Sells zone price → 0 ≤ price ∧ Int4 price
  saleWindow : m.saleStartsAt < m.saleEndsAt

/-- What `OrderCreate` accepts from a user of the database. -/
structure OrderRequest.Created (cfg : OrderSettings) (req : OrderRequest) : Prop where
  user : Int4 req.user
  quantity : 1 ≤ req.quantity ∧ req.quantity ≤ cfg.maxPurchasable

/-- Whatever a request for the event appends to the stream has a total that its column can hold, and no number
of it is out of range when it is persisted. -/
def EventMeta.TotalsFit (cfg : OrderSettings) (m : EventMeta) : Prop :=
  ∀ req : OrderRequest, req.event = m.event → req.Created cfg → ∀ r turns s id,
    exec (Submitting.step cfg req) { redis := r } turns = some s → s.checked = some m →
    s.phase = .done (.ok (.ok id)) →
      ∀ x ∈ s.steps, ∀ e, x.2.stream = x.1.stream ++ [e] →
        Int4 e.intent.totalPriceCents ∧ ∀ db order fk, Db.persistIntent db e.intent order fk ≠ .dataError

/-! ### What a request appends -/

section Appended

variable {cfg : OrderSettings} {req : OrderRequest} {m : EventMeta} {r : Redis} {turns : List Turn} {s : Submitting}

theorem published_of_validate {answer : Option EventMeta} {now : Time} {total : Int}
    (h : req.validate answer now = .ok (m, total)) :
    m.status = .published := by
  unfold OrderRequest.validate at h
  split at h
  · cases h
  · rename_i m'
    split at h
    · cases h
    · split at h
      · cases h
      · rename_i hpublished
        split at h
        · cases h
        · cases htotal : m'.totalFor req.zone req.quantity with
          | error e => simp [htotal, Except.map] at h
          | ok t =>
            simp only [htotal, Except.map, Except.ok.injEq, Prod.mk.injEq] at h
            exact h.1 ▸ not_not.1 hpublished

/-- A submission passes its checks with the meta of a published event only. -/
theorem published_of_checked (hrun : exec (Submitting.step cfg req) { redis := r } turns = some s)
    (hm : s.checked = some m) :
    m.status = .published := by
  refine exec_invariant (C := fun _ _ => True)
    (I := fun s : Submitting => ∀ m, s.checked = some m → m.status = .published)
    (fun s turn s' _ hstep hs m hm => ?_) (fun m hm => by cases hm) (.of_forall fun _ _ _ => trivial) hrun m hm
  cases turn with
  | other r =>
    obtain rfl := Option.some.inj hstep
    exact hs m hm
  | own a =>
    obtain ⟨out, -, rfl⟩ := Option.map_eq_some_iff.1 hstep
    rcases Option.or_eq_some_iff.1 hm with hm | ⟨-, hm⟩
    · cases a with
      | validate answer now =>
        simp only [SubmitAct.checked] at hm
        split at hm
        · cases hm
        · rename_i m' total hv
          obtain rfl := Option.some.inj hm
          exact published_of_validate hv
      | _ => cases hm
    · exact hs m hm

/-- The entry that an accepted request has appended. -/
theorem appended_of_accepted {id : StreamId} (hacc : AcceptedOnce m req id s.steps) {x : Redis × Redis}
    (hx : x ∈ s.steps) {e : StreamEntry} (he : x.2.stream = x.1.stream ++ [e]) :
    ∃ price seat, m.Sells req.zone price ∧ e.intent = req.intent (req.quantity * price) seat := by
  obtain ⟨before, r, r', after, hsteps, haccepted, hbefore, hafter⟩ := hacc
  have huntouched : ¬x.1.Untouched x.2 := by
    rintro ⟨zones, -, hsame⟩
    have hlen := congrArg List.length (he.symm.trans (congrArg Redis.stream hsame))
    simp at hlen
  obtain rfl : x = (r, r') := by
    rw [hsteps] at hx
    rcases List.mem_append.1 hx with hx | hx
    · exact absurd (hbefore x hx) huntouched
    · rcases List.mem_cons.1 hx with hx | hx
      · exact hx
      · exact absurd (hafter x hx) huntouched
  obtain ⟨price, seat, hprice, -, hstream⟩ := haccepted.intent
  have hentry := List.append_cancel_left (he.symm.trans hstream)
  rw [List.singleton_inj.1 hentry]
  exact ⟨price, seat, EventMeta.sells_iff.2 hprice, rfl⟩

theorem acceptedOnce_of_run {id : StreamId} (hrun : exec (Submitting.step cfg req) { redis := r } turns = some s)
    (hm : s.checked = some m) (hdone : s.phase = .done (.ok (.ok id))) : AcceptedOnce m req id s.steps := by
  cases Progress.run hrun with
  | accepted hp hm' hacc =>
    obtain rfl := Option.some.inj (hm'.symm.trans hm)
    obtain rfl := Outcome.ok.inj (Except.ok.inj (SubmitPhase.done.inj (hp.symm.trans hdone)))
    exact hacc
  | refused hp hne hsteps => exact absurd (SubmitPhase.done.inj (hp.symm.trans hdone)) (hne id)
  | _ hp => cases hp.symm.trans hdone

end Appended

/-! ### Requests that are accepted -/

/-- A free block of this many seats. -/
def freeBlock (n : Nat) : ZoneKeys where
  runs := AList.singleton ⟨0, 0⟩ n
  ends := AList.singleton ⟨0, n⟩ n
  geom := AList.singleton 0 ⟨n, 1, 1⟩
  available := some n

/-- Nothing is sold yet, and there are this many tickets for everything. -/
def unsold (n : Nat) : Redis where
  available _ := some n
  purchased _ := ∅
  claims _ := none
  released _ := false
  zones _ := freeBlock n
  stream := []
  lastId := 0
  dead := []

section Buying

variable {cfg : OrderSettings} {req : OrderRequest} {m : EventMeta} {price : Int}

theorem validate_of_sells (hpublished : m.status = .published) (hm : m.Stored) (hsells : m.Sells req.zone price)
    (hquantity : 1 ≤ req.quantity) : req.validate (some m) m.saleStartsAt = .ok (m, req.quantity * price) := by
  have hwindow := hm.saleWindow
  have htotal : m.totalFor req.zone req.quantity = .ok (req.quantity * price) := by
    rw [EventMeta.totalFor, if_neg (by omega), EventMeta.sells_iff.1 hsells]
    rfl
  have hnow : m.saleStartsAt ≤ m.saleStartsAt ∧ m.saleStartsAt ≤ m.saleEndsAt := ⟨le_rfl, hwindow.le⟩
  simp only [OrderRequest.validate, hpublished, htotal]
  rw [if_neg (by simp), if_neg (by simp), if_neg (not_not.2 hnow)]
  rfl

/-- The whole block is an anchor for as many seats as it has. -/
theorem freeBlock_anchor {n : Nat} (hn : 1 ≤ n) : ∃ state anchors, (freeBlock n).parseState = some state ∧
    legalAnchors state.runs n state.geometry (freeBlock n).policy = some anchors ∧ anchors ≠ [] := by
  obtain ⟨geo, hgeo⟩ : ∃ geo, BlockGeometry.calibrated 0 n 1 1 = some geo := by
    simp only [BlockGeometry.calibrated, sub_self, zero_div, ite_self]
    rw [dif_pos (by exact_mod_cast hn), dif_pos le_rfl]
    exact ⟨_, rfl⟩
  have hgeometry : (freeBlock n).parseGeometry 0 = some geo := hgeo
  have hstate : (freeBlock n).parseState = some ⟨[⟨0, 0, n⟩], (freeBlock n).parseGeometry⟩ := by
    have hall : (freeBlock n).geom.entries.all (fun e => ((freeBlock n).parseGeometry e.1).isSome) = true := by
      show (((freeBlock n).parseGeometry 0).isSome && true) = true
      rw [hgeometry]
      rfl
    rw [ZoneKeys.parseState, if_pos hall]
    rfl
  -- the block as a whole leaves nothing behind
  have hcandidates : allCandidates [⟨0, 0, n⟩] n (freeBlock n).parseGeometry (freeBlock n).policy =
      some (candidates ⟨0, 0, n⟩ n geo (freeBlock n).policy) := by
    rw [allCandidates, List.mapM_cons, List.mapM_nil, hgeometry]
    simp
  have hwhole : placementAt ⟨0, 0, n⟩ 0 n geo (freeBlock n).policy ∈ candidates ⟨0, 0, n⟩ n geo
      (freeBlock n).policy := by
    simp only [candidates, sub_self]
    rw [if_neg (by omega), if_pos (.inl trivial)]
    exact List.mem_append_left _ (List.mem_cons_self ..)
  refine ⟨_, _, hstate, by rw [legalAnchors, hcandidates, Option.map_some], ?_⟩
  exact List.ne_nil_of_mem ((List.perm_insertionSort ..).symm.subset hwhole)

/-- The first step of a request for tickets that are sold. -/
private theorem validates (hpublished : m.status = .published) (hm : m.Stored) (hsells : m.Sells req.zone price)
    (hquantity : 1 ≤ req.quantity) (r : Redis) :
    Submitting.step cfg req { redis := r } (.own (.validate (some m) m.saleStartsAt)) =
      some ⟨r, req.path m (req.quantity * price), some m, [(r, r)]⟩ := by
  have hv := validate_of_sells hpublished hm hsells hquantity
  have hstep : req.step cfg r .begun (.validate (some m) m.saleStartsAt) = some
      (r, req.path m (req.quantity * price)) := by
    simp only [OrderRequest.step, hv]
  rw [Submitting.step_own hstep]
  simp only [SubmitAct.checked, hv]
  rfl

/-- Steps other than the checks leave the meta. -/
private theorem checked_firstAttempt {s s' : Submitting} {i : Nat}
    (hrun : exec (Submitting.step cfg req) s (firstAttempt i) = some s') :
    s'.checked = s.checked := by
  refine exec_invariant (C := fun _ turn => turn ∈ firstAttempt i) (I := fun v : Submitting => v.checked = s.checked)
    (fun v turn v' hturn hstep hv => ?_) rfl (.of_forall fun turn hturn _ => hturn) hrun
  simp only [firstAttempt, List.mem_cons, List.not_mem_nil, or_false] at hturn
  rcases hturn with rfl | rfl | rfl | rfl <;>
    · obtain ⟨out, -, rfl⟩ := Option.map_eq_some_iff.1 hstep
      exact hv

/-- A request for as many tickets as a user may have is accepted when nothing is sold. -/
theorem accepted_when_unsold (hpublished : m.status = .published) (hm : m.Stored) (hsells : m.Sells req.zone price)
    (hquantity : req.quantity = cfg.maxPurchasable) (hpos : 1 ≤ cfg.maxPurchasable) :
    ∃ turns s id, exec (Submitting.step cfg req) { redis := unsold cfg.maxPurchasable } turns = some s ∧
      s.checked = some m ∧
      s.phase = .done (.ok (.ok id)) := by
  have hone : 1 ≤ req.quantity := by omega
  have hlimit : cfg.maxPurchasable ≤ cfg.maxTicketsPerUserPerEvent := Nat.min_le_right ..
  have hfirst : Submitting.step cfg req _ _ = _ := validates hpublished hm hsells hone (unsold cfg.maxPurchasable)
  have hheld : (unsold cfg.maxPurchasable).held req.event req.user = 0 := rfl
  generalize req.quantity * price = total at hfirst
  cases hz : req.zone with
  | none =>
    rw [hz] at hsells
    obtain ⟨hvenue, -⟩ := hsells
    have hpath : req.path m total = .reserving total := by rw [OrderRequest.path, hvenue]
    rw [hpath] at hfirst
    have hreply : reserveAndEnqueue (unsold cfg.maxPurchasable) (req.reserveArgs cfg total) =
        (.ok 1 (cfg.maxPurchasable - req.quantity), (unsold cfg.maxPurchasable).reserve
          (req.reserveArgs cfg total)) := by
      rw [reserveAndEnqueue, if_neg (by simp [unsold])]
      show (if (cfg.maxPurchasable : Int) < req.quantity then _ else _) = _
      rw [if_neg (by omega), if_neg]
      · rfl
      · show ¬(cfg.maxTicketsPerUserPerEvent : Int) <
          (unsold cfg.maxPurchasable).held req.event req.user + req.quantity
        omega
    have hstep : req.step cfg (unsold cfg.maxPurchasable) (.reserving total) .reserve =
        some ((unsold cfg.maxPurchasable).reserve (req.reserveArgs cfg total), .done (.ok (.ok 1))) := by
      simp only [OrderRequest.step, hreply]
      rfl
    refine ⟨[.own (.validate (some m) m.saleStartsAt), .own .reserve], _, 1, exec_cons.2 ⟨_, hfirst, exec_cons.2 ⟨_,
      Submitting.step_own hstep, rfl⟩⟩, ?_, ?_⟩
    · rfl
    · rfl
  | some zone =>
    rw [hz] at hsells
    obtain ⟨⟩ | ⟨hvenue, -⟩ := hsells
    obtain ⟨state, anchors, hstate, hanchors, hne⟩ := freeBlock_anchor hpos
    have hpath : req.path m total = .flagging zone total := by
      obtain ⟨venue, hvenue⟩ := Option.ne_none_iff_exists'.1 hvenue
      rw [OrderRequest.path, hvenue, hz]
    rw [hpath] at hfirst
    obtain ⟨s, hs, hdone⟩ : ∃ s, exec (Submitting.step cfg req)
      ⟨unsold cfg.maxPurchasable, .flagging zone total, some m, _⟩
        (firstAttempt 0) = some s ∧ s.phase = .done (.ok (.ok 1)) :=
      firstAttempt_accepts hstate (hquantity ▸ hanchors) rfl (by rw [hheld]; omega)
        (lt_min (by decide) (List.length_pos_iff.2 hne))
    exact ⟨_, s, _, exec_cons.2 ⟨_, hfirst, hs⟩, checked_firstAttempt hs, hdone⟩

end Buying

/-! ### When the totals fit -/

/-- A total of tickets that `OrderCreate` lets a user have. -/
theorem orderColumns_int4 {cfg : OrderSettings} {req : OrderRequest} {m : EventMeta} {price : Int} (hm : m.Stored)
    (hevent : req.event = m.event) (hreq : req.Created cfg) (hsells : m.Sells req.zone price)
    (hmax : (cfg.maxPurchasable : Int) ≤ int4Max) (hprice : price * cfg.maxPurchasable ≤ int4Max)
    (seat : Option SeatField) :
    ∀ n ∈ (req.intent (req.quantity * price) seat).orderColumns, Int4 n := by
  obtain ⟨hpos, hle⟩ := hreq.quantity
  have hnonneg := (hm.prices _ _ hsells).1
  have hlow : 0 ≤ req.quantity * price := Int.mul_nonneg (by omega) hnonneg
  have hhigh : req.quantity * price ≤ int4Max := by
    calc req.quantity * price ≤ cfg.maxPurchasable * price := Int.mul_le_mul_of_nonneg_right hle hnonneg
      _ = price * cfg.maxPurchasable := Int.mul_comm ..
      _ ≤ int4Max := hprice
  have hfloor : -int4Max - 1 ≤ 0 := by decide
  intro n hn
  simp only [Intent.orderColumns, OrderRequest.intent, List.mem_cons, List.mem_append, List.mem_map,
    Option.mem_toList, List.not_mem_nil, or_false] at hn
  rcases hn with ((rfl | rfl) | ⟨zone, hzone, rfl⟩) | rfl | rfl
  · exact hreq.user
  · exact hevent ▸ hm.event
  · exact hm.zones zone price (hzone ▸ hsells)
  · exact ⟨by omega, by omega⟩
  · exact ⟨by omega, hhigh⟩

/-- An intent has seats exactly when it has a zone. -/
private theorem consistent_of_taken {req : OrderRequest} {m : EventMeta} {price total : Int}
    {seat : Option SeatField} {r r' : Redis}
    (hsells : m.Sells req.zone price) (htaken : SeatsTaken m req seat r r') :
    (req.intent total seat).consistent = true := by
  rcases htaken with ⟨hvenue, rfl, -⟩ | ⟨-, zone, taken, hzone, rfl, -⟩
  · cases hz : req.zone with
    | none => simp [Intent.consistent, OrderRequest.intent, hz]
    | some zone =>
      rw [hz] at hsells
      obtain ⟨⟩ | ⟨hne, -⟩ := hsells
      exact absurd hvenue hne
  · simp [Intent.consistent, OrderRequest.intent, hzone]

/-- The totals of an event fit exactly when it is not published, or `max_purchasable` and its product with
each of the prices do. -/
theorem totals_fit_iff (cfg : OrderSettings) (m : EventMeta) (hm : m.Stored) :
    m.TotalsFit cfg ↔ (m.status = .published → ∀ zone price, m.Sells zone price →
      (cfg.maxPurchasable : Int) ≤ int4Max ∧ price * cfg.maxPurchasable ≤ int4Max) := by
  constructor
  · intro hfit hpublished zone price hsells
    by_cases hpos : 1 ≤ cfg.maxPurchasable
    · let req : OrderRequest := { user := 0, event := m.event, quantity := cfg.maxPurchasable, key := 0, zone }
      have hreq : req.Created cfg :=
        ⟨(by decide : Int4 0), (by exact_mod_cast hpos : (1 : Int) ≤ cfg.maxPurchasable), le_rfl⟩
      obtain ⟨turns, s, id, hrun, hchecked, hdone⟩ :=
        accepted_when_unsold hpublished hm (show m.Sells req.zone price from hsells)
          (rfl : req.quantity = cfg.maxPurchasable) hpos
      obtain ⟨before, r, r', after, hsteps, haccepted, -⟩ := acceptedOnce_of_run hrun hchecked hdone
      obtain ⟨p, seat, hp, htaken, hstream⟩ := haccepted.intent
      obtain rfl : price = p := Except.ok.inj ((EventMeta.sells_iff.1 hsells).symm.trans hp)
      obtain ⟨htotal, hpersist⟩ := hfit req rfl hreq _ turns s id hrun hchecked hdone (r, r')
        (by rw [hsteps]; exact List.mem_append_right _ (List.mem_cons_self ..)) _ hstream
      refine ⟨?_, (Int.mul_comm ..).trans_le htotal.2⟩
      by_contra hlarge
      refine hpersist ⟨[], [], [], [], fun _ => none⟩ 0 true
        (persistIntent_dataError (consistent_of_taken hsells htaken)
        (n := cfg.maxPurchasable) (by simp [Intent.orderColumns, OrderRequest.intent, req])
        (fun hint => hlarge hint.2) _ _ _)
    · have hzero : cfg.maxPurchasable = 0 := by omega
      rw [hzero]
      simp [int4Max]
  · intro hbounds req hevent hreq r turns s id hrun hchecked hdone x hx e he
    obtain ⟨price, seat, hsells, hintent⟩ := appended_of_accepted (acceptedOnce_of_run hrun hchecked hdone) hx he
    obtain ⟨hmax, hprice⟩ := hbounds (published_of_checked hrun hchecked) _ price hsells
    have hcolumns := orderColumns_int4 hm hevent hreq hsells hmax hprice seat
    rw [hintent]
    exact ⟨hcolumns _ (by simp [Intent.orderColumns, OrderRequest.intent]), persistIntent_ne_dataError hcolumns⟩

/-- An event without a seat map, on sale at this price. -/
def generalAdmission (price : Int) : EventMeta where
  event := 1
  status := .published
  saleStartsAt := 0
  saleEndsAt := 10
  priceCents := some price

private theorem eq_of_sells_generalAdmission {price p : Int} {zone : Option ZoneId}
    (h : (generalAdmission price).Sells zone p) :
    zone = none ∧ p = price := by
  obtain ⟨-, hprice⟩ | ⟨hvenue, -⟩ := h
  · exact ⟨rfl, (Option.some.inj hprice).symm⟩
  · exact absurd rfl hvenue

private theorem generalAdmission_stored {price : Int} (hnonneg : 0 ≤ price) (hprice : Int4 price) :
    (generalAdmission price).Stored where
  event := (by decide : Int4 1)
  zones zone p h := by cases (eq_of_sells_generalAdmission h).1
  prices zone p h := (eq_of_sells_generalAdmission h).2 ▸ ⟨hnonneg, hprice⟩
  saleWindow := (by decide : 0 < 10)

/-- Four tickets fit at 536870911 cents each, and not at a cent more. -/
theorem totals_fit_iff_four :
    (generalAdmission 536870911).TotalsFit {} ∧ ¬(generalAdmission 536870912).TotalsFit {} := by
  refine ⟨(totals_fit_iff {} _ (generalAdmission_stored (by decide) (by decide))).2
    fun _ zone price hsells => ?_, fun hfit => ?_⟩
  · rw [(eq_of_sells_generalAdmission hsells).2]
    decide
  · have hbounds := (totals_fit_iff {} _
      (generalAdmission_stored (by decide) (by decide))).1 hfit rfl none 536870912 (.single rfl rfl)
    exact absurd hbounds.2 (by decide)

/-- Two tickets at the highest price that its column can hold. -/
def dearRequest : OrderRequest := { user := 8, event := 1, quantity := 2, key := 5 }

/-- The request is accepted, and its order can never be inserted. -/
theorem total_out_of_range : (generalAdmission 2147483647).Stored ∧ dearRequest.Created {} ∧
    ∃ s, exec (Submitting.step {} dearRequest) { redis := unsold 4 }
        [.own (.validate (some (generalAdmission 2147483647)) 5), .own .reserve] = some s ∧
      s.phase = .done (.ok (.ok 1)) ∧ ∃ e, s.redis.stream = [e] ∧ e.intent.totalPriceCents = 4294967294 ∧
        ¬Int4 e.intent.totalPriceCents ∧ ∀ db id fk, Db.persistIntent db e.intent id fk = .dataError := by
  refine ⟨generalAdmission_stored (by decide) (by decide), ⟨by decide, by decide, by decide⟩, _, rfl, rfl, _,
    rfl, rfl, by decide, ?_⟩
  exact persistIntent_dataError rfl (n := 4294967294) (by decide) (by decide)

end Ticketing
