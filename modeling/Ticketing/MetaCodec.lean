import Ticketing.AdmissionCutoff
import Ticketing.Base.Json
import Ticketing.EventPatch
import Ticketing.SeatDrift

/-!
# The text of a cached meta

`_load_and_fill` writes the meta of an event to the cache as JSON and returns the same meta built from the
rows; a hit decodes the text.  The encoder, the decoder and the constructor each have their own list of
fields, JSON turns the zone ids of the price map into strings, and moments travel as ISO texts.

`json` and the ISO methods of `datetime` are those of the standard library (`TextCodec`).  The two paths give
the same meta (`getEventMeta_hit_eq_miss`), so that an order is priced and its sale window checked alike, and
admission starts at the same time.
-/

namespace Ticketing

/-! ### Rows and metas -/

/-- The columns of `events` that `_load_and_fill` reads. -/
structure EventColumns where
  status : EventStatus
  saleStartsAt : Datetime
  saleEndsAt : Datetime
  priceCents : Option Int
  venueId : Option Int
  queueOpensAt : Option Datetime
  queueClosesAt : Option Datetime

/-- The moments of a row. -/
def EventColumns.moments (row : EventColumns) : List Datetime :=
  row.saleStartsAt :: row.saleEndsAt :: (row.queueOpensAt.toList ++ row.queueClosesAt.toList)

/-- `EventMeta` with all its fields. -/
structure CachedMeta where
  eventId : EventId
  status : EventStatus
  saleStartsAt : Datetime
  saleEndsAt : Datetime
  priceCents : Option Int
  venueId : Option Int := none
  zonePrices : Hash Int Int := ∅
  queueOpensAt : Option Datetime := none
  queueClosesAt : Option Datetime := none

/-- What `_load_and_fill` returns for rows it has found. -/
def EventColumns.toMeta (row : EventColumns) (eventId : EventId) (zonePrices : Hash Int Int) : CachedMeta where
  eventId
  status := row.status
  saleStartsAt := row.saleStartsAt
  saleEndsAt := row.saleEndsAt
  priceCents := row.priceCents
  venueId := row.venueId
  zonePrices
  queueOpensAt := row.queueOpensAt
  queueClosesAt := row.queueClosesAt

def EventStatus.value : EventStatus → String
  | draft => "draft"
  | published => "published"
  | cancelled => "cancelled"

/-- `EventStatus(value)`; `none` is a `ValueError`. -/
def EventStatus.ofValue? (value : String) : Option EventStatus :=
  [draft, published, cancelled].find? fun status => status.value = value

theorem EventStatus.ofValue?_value (status : EventStatus) : ofValue? status.value = some status := by
  cases status <;> decide

/-! ### Dicts with integer keys -/

private theorem nodupKeys_concat {d : Hash Int Int} {k : Int} (h : k ∉ d) (v : Int) :
    (d.entries ++ [⟨k, v⟩] : List (Σ _ : Int, Int)).NodupKeys := by
  rw [List.NodupKeys, List.keys, List.map_append]
  refine List.nodup_append.2 ⟨d.nodupKeys, List.nodup_singleton _, ?_⟩
  intro x hx y hy hxy
  have hk : x = k := hxy.trans (List.mem_singleton.1 hy)
  exact h (hk ▸ hx)

/-- `d[k] = v`: a new key goes to the end. -/
def setKey (d : Hash Int Int) (k v : Int) : Hash Int Int :=
  if h : k ∈ d then d.replace k v else ⟨d.entries ++ [⟨k, v⟩], nodupKeys_concat h v⟩

theorem entries_setKey {d : Hash Int Int} {k : Int} (h : k ∉ d) (v : Int) :
    (setKey d k v).entries = d.entries ++ [⟨k, v⟩] := by
  rw [setKey, dif_neg h]

/-! ### Texts -/

/-- `json.dumps`, `json.loads`, `datetime.isoformat` and `datetime.fromisoformat`; `none` is an exception. -/
structure TextCodec where
  dumps : JsonValue → String
  loads : String → Option JsonValue
  isoformat : Datetime → String
  fromisoformat : String → Option Datetime

namespace TextCodec

variable (c : TextCodec)

/-- `_iso` -/
def iso (value : Option Datetime) : JsonValue := value.elim .null fun d => .str (c.isoformat d)

/-- `datetime.fromisoformat` of a value, which must be a string. -/
def moment? : JsonValue → Option Datetime
  | .str raw => c.fromisoformat raw
  | _ => none

/-- `_from_iso` -/
def fromIso : JsonValue → Option (Option Datetime)
  | .null => some none
  | raw => (c.moment? raw).map some

/-- A number or null. -/
def number (n : Option Int) : JsonValue := n.elim .null .int

/-- A field that holds a number or null. -/
def number? : JsonValue → Option (Option Int)
  | .null => some none
  | .int n => some (some n)
  | _ => none

/-- The value that `_encode` writes. -/
def metaDict (row : EventColumns) (zonePrices : Hash Int Int) : JsonValue :=
  .dict [(.str "status", .str row.status.value),
    (.str "sale_starts_at", .str (c.isoformat row.saleStartsAt)),
    (.str "sale_ends_at", .str (c.isoformat row.saleEndsAt)),
    (.str "price_cents", number row.priceCents),
    (.str "venue_id", number row.venueId),
    (.str "zone_prices", .dict (zonePrices.entries.map fun e => (.int e.1, .int e.2))),
    (.str "queue_opens_at", c.iso row.queueOpensAt),
    (.str "queue_closes_at", c.iso row.queueClosesAt)]

/-- `_encode` -/
def encode (row : EventColumns) (zonePrices : Hash Int Int) : String := c.dumps (c.metaDict row zonePrices)

/-- `int(k): v` for the entries of a dict. -/
def intKeys (d : Hash Int Int) : List (JsonValue.Key × JsonValue) → Option (Hash Int Int)
  | [] => some d
  | (k, .int v) :: entries => (readInt k.text).bind fun k => intKeys (setKey d k v) entries
  | _ => none

/-- The comprehension over `.items()`. -/
def zonePrices? : JsonValue → Option (Hash Int Int)
  | .dict entries => intKeys ∅ entries
  | _ => none

/-- `_decode` -/
def decode (eventId : EventId) (raw : String) : Option CachedMeta := do
  let d ← c.loads raw
  let status ← match d.get? "status" with
    | some (.str value) => EventStatus.ofValue? value
    | _ => none
  let saleStartsAt ← (d.get? "sale_starts_at").bind c.moment?
  let saleEndsAt ← (d.get? "sale_ends_at").bind c.moment?
  let priceCents ← (d.get? "price_cents").bind number?
  let venueId ← number? ((d.get? "venue_id").getD .null)
  let zonePrices ← zonePrices? ((d.get? "zone_prices").getD (.dict []))
  -- an entry from before these fields has neither of them
  let queueOpensAt ← c.fromIso ((d.get? "queue_opens_at").getD .null)
  let queueClosesAt ← c.fromIso ((d.get? "queue_closes_at").getD .null)
  return { eventId, status, saleStartsAt, saleEndsAt, priceCents, venueId, zonePrices, queueOpensAt, queueClosesAt }

/-! ### Decoding what was encoded -/

theorem fromIso_iso {c : TextCodec} {value : Option Datetime}
    (h : ∀ d ∈ value.toList, c.fromisoformat (c.isoformat d) = some d) :
    c.fromIso (c.iso value) = some value := by
  cases value with
  | none => rfl
  | some d =>
    show (c.fromisoformat (c.isoformat d)).map some = _
    rw [h d (by simp)]
    rfl

theorem number?_number (n : Option Int) : number? (number n) = some n := by
  cases n <;> rfl

/-- The keys come back as the integers they were. -/
theorem intKeys_map {entries : List (Σ _ : Int, Int)} {d d' : Hash Int Int} (h : d'.entries = d.entries ++ entries) :
    intKeys d (entries.map fun e => (.str e.1.repr, .int e.2)) = some d' := by
  induction entries generalizing d with
  | nil =>
    rw [List.append_nil] at h
    rw [List.map_nil, intKeys, AList.ext h]
  | cons e entries ih =>
    have hnew : e.1 ∉ d := by
      have hnodup := d'.nodupKeys
      rw [h, List.NodupKeys, List.keys, List.map_append, List.map_cons] at hnodup
      intro hmem
      exact (List.nodup_append.1 hnodup).2.2 e.1 hmem e.1 (List.mem_cons_self ..) rfl
    rw [List.map_cons, intKeys, JsonValue.Key.text, readInt_repr, Option.bind_some]
    refine ih ?_
    rw [entries_setKey hnew, h, List.append_assoc]
    rfl

theorem zonePrices?_stringKeys (prices : Hash Int Int) :
    zonePrices? (.dict (JsonValue.stringKeysEntries (prices.entries.map fun e => (.int e.1, .int e.2)))) =
      some prices := by
  rw [JsonValue.stringKeysEntries_eq_map, List.map_map, zonePrices?]
  exact intKeys_map rfl

private theorem distinctKeys_number (n : Option Int) : (number n).DistinctKeys := by
  cases n <;> exact trivial

private theorem distinctKeys_iso (value : Option Datetime) : (c.iso value).DistinctKeys := by
  cases value <;> exact trivial

/-- Different zones are written differently. -/
private theorem distinctKeys_prices (prices : Hash Int Int) :
    (JsonValue.dict (prices.entries.map fun e => (.int e.1, .int e.2))).DistinctKeys := by
  refine ⟨?_, (JsonValue.distinctKeysEntries_iff _).2 ?_⟩
  · have hkeys : (prices.entries.keys.map Int.repr).Nodup := prices.nodupKeys.map intRepr_injective
    rw [List.keys, List.map_map] at hkeys
    rw [List.map_map]
    exact hkeys
  · intro e he
    obtain ⟨x, -, rfl⟩ := List.mem_map.1 he
    trivial

theorem metaDict_distinctKeys (row : EventColumns) (prices : Hash Int Int) :
    (c.metaDict row prices).DistinctKeys := by
  have hkeys : ["status", "sale_starts_at", "sale_ends_at", "price_cents", "venue_id", "zone_prices",
      "queue_opens_at", "queue_closes_at"].Nodup := by decide
  refine ⟨hkeys, (JsonValue.distinctKeysEntries_iff _).2 ?_⟩
  simp only [List.forall_mem_cons, List.not_mem_nil, false_imp_iff, implies_true, and_true]
  exact ⟨trivial, trivial, trivial, distinctKeys_number _, distinctKeys_number _, distinctKeys_prices prices,
    distinctKeys_iso c _, distinctKeys_iso c _⟩

private theorem stringKeys_number (n : Option Int) : (number n).stringKeys = number n := by
  cases n <;> rfl

private theorem stringKeys_iso (value : Option Datetime) : (c.iso value).stringKeys = c.iso value := by
  cases value <;> rfl

theorem decode_encode {c : TextCodec}
    (hjson : ∀ v : JsonValue, v.DistinctKeys → c.loads (c.dumps v) = some v.stringKeys) {row : EventColumns}
    (hiso : ∀ d ∈ row.moments, c.fromisoformat (c.isoformat d) = some d) (event : EventId) (prices : Hash Int Int) :
    c.decode event (c.encode row prices) = some (row.toMeta event prices) := by
  have hloads := hjson _ (c.metaDict_distinctKeys row prices)
  have hprice : (c.metaDict row prices).stringKeys.get? "price_cents" = some (number row.priceCents) :=
    congrArg some (stringKeys_number row.priceCents)
  have hvenue : (c.metaDict row prices).stringKeys.get? "venue_id" = some (number row.venueId) :=
    congrArg some (stringKeys_number row.venueId)
  have hprices : (c.metaDict row prices).stringKeys.get? "zone_prices" = some (.dict (JsonValue.stringKeysEntries
      (prices.entries.map fun e => (.int e.1, .int e.2)))) := rfl
  have hopens : (c.metaDict row prices).stringKeys.get? "queue_opens_at" = some (c.iso row.queueOpensAt) :=
    congrArg some (stringKeys_iso c row.queueOpensAt)
  have hcloses : (c.metaDict row prices).stringKeys.get? "queue_closes_at" = some (c.iso row.queueClosesAt) :=
    congrArg some (stringKeys_iso c row.queueClosesAt)
  have hstatus : (c.metaDict row prices).stringKeys.get? "status" = some (.str row.status.value) := rfl
  have hstarts : (c.metaDict row prices).stringKeys.get? "sale_starts_at" = some
    (.str (c.isoformat row.saleStartsAt)) := rfl
  have hends : (c.metaDict row prices).stringKeys.get? "sale_ends_at" = some
    (.str (c.isoformat row.saleEndsAt)) := rfl
  have hmoments : ∀ d ∈ row.moments, c.moment? (.str (c.isoformat d)) = some d := hiso
  have hstartsIso := hmoments row.saleStartsAt (by simp [EventColumns.moments])
  have hendsIso := hmoments row.saleEndsAt (by simp [EventColumns.moments])
  have hopensIso : c.fromIso (c.iso row.queueOpensAt) = some row.queueOpensAt :=
    fromIso_iso fun d hd => hiso d
      (by simp only [EventColumns.moments, List.mem_cons, List.mem_append, hd, true_or, or_true])
  have hclosesIso : c.fromIso (c.iso row.queueClosesAt) = some row.queueClosesAt :=
    fromIso_iso fun d hd => hiso d (by simp only [EventColumns.moments, List.mem_cons, List.mem_append, hd, or_true])
  simp only [decode, encode, hloads, hstatus, hstarts, hends, hprice, hvenue, hprices, hopens, hcloses,
    Option.bind_eq_bind,
    Option.bind_some, Option.getD_some, EventStatus.ofValue?_value, hstartsIso, hendsIso, number?_number,
    zonePrices?_stringKeys, hopensIso, hclosesIso]
  rfl

/-- `_load_and_fill`: what it writes to the cache and what it returns, for the rows of the database. -/
def loadAndFill (event : EventId) : Option (EventColumns × Hash Int Int) → Option String × Option CachedMeta
  | none => (none, none)
  | some (row, prices) => (some (c.encode row prices), some (row.toMeta event prices))

/-- `get_event_meta` on the text in the cache and the rows of the database; `none` is an exception. -/
def getEventMeta (event : EventId) (cached : Option String) (rows : Option (EventColumns × Hash Int Int)) :
    Option (Option CachedMeta) :=
  cached.elim (some (c.loadAndFill event rows).2) fun raw => (c.decode event raw).map some

end TextCodec

/-! ### What reads a meta -/

/-- The prices of the zones that a request can name. -/
def zoneTable (entries : List (Σ _ : Int, Int)) : Hash ZoneId Int :=
  entries.foldr (fun e table => if 0 ≤ e.1 then table.insert e.1.toNat e.2 else table) ∅

theorem lookup_zoneTable (entries : List (Σ _ : Int, Int)) (zone : ZoneId) :
    (zoneTable entries).lookup zone = entries.dlookup (zone : Int) := by
  induction entries with
  | nil => rfl
  | cons e entries ih =>
    have ih : (zoneTable entries).lookup zone = entries.dlookup (zone : Int) := ih
    show (if 0 ≤ e.1 then (zoneTable entries).insert e.1.toNat e.2 else zoneTable entries).lookup zone = _
    by_cases heq : e.1 = zone
    · obtain ⟨k, v⟩ := e
      subst heq
      rw [if_pos (by simp), Int.toNat_natCast, AList.lookup_insert, List.dlookup_cons_eq]
    · obtain ⟨k, v⟩ := e
      rw [List.dlookup_cons_ne _ _ (Ne.symm heq), ← ih]
      split_ifs with hnonneg
      · refine AList.lookup_insert_ne fun hzone => heq ?_
        rw [hzone, Int.toNat_of_nonneg hnonneg]
      · rfl

namespace CachedMeta

/-- The meta as an order reads it, with times in microseconds. -/
def orderMeta (m : CachedMeta) : EventMeta where
  event := m.eventId
  status := m.status
  saleStartsAt := m.saleStartsAt.instant.toNat
  saleEndsAt := m.saleEndsAt.instant.toNat
  priceCents := m.priceCents
  venue := m.venueId.map Int.toNat
  zonePrices := zoneTable m.zonePrices.entries

/-- The checks of `submit_order`, with the total. -/
def checkOrder (answer : Option CachedMeta) (req : OrderRequest) (now : Int) : Except SubmitError Int :=
  match answer with
  | none => .error (.eventNotFound req.event)
  | some m =>
    if m.status = .cancelled then .error (.eventCancelled req.event)
    else if m.status ≠ .published then .error (.eventNotOnSale req.event)
    else if ¬(m.saleStartsAt.instant ≤ now ∧ now ≤ m.saleEndsAt.instant) then .error (.eventNotOnSale req.event)
    else m.orderMeta.totalFor req.zone req.quantity

/-- They are those of a submission. -/
theorem validate_orderMeta {m : CachedMeta} (hends : 0 ≤ m.saleEndsAt.instant) (req : OrderRequest) (now : Time) :
    req.validate (some m.orderMeta) now = (checkOrder (some m) req now).map fun total => (m.orderMeta, total) := by
  have hwindow : (m.saleStartsAt.instant.toNat ≤ now ∧ now ≤ m.saleEndsAt.instant.toNat) ↔
      (m.saleStartsAt.instant ≤ now ∧ (now : Int) ≤ m.saleEndsAt.instant) := by
    rw [Int.toNat_le, Int.le_toNat hends]
  simp only [OrderRequest.validate, checkOrder, orderMeta, hwindow]
  split_ifs <;> rfl

/-- The first moment of 1970. -/
def epoch : Int := 719162 * 86400 * 1000000

/-- `_admit_start`; the outer `none` is an `OverflowError`. -/
def admitStart {K : Type*} [DivisionRing K] (cfg : QueueSettings) (answer : Option CachedMeta) : Option (Option K) :=
  match answer with
  | none => some none
  | some m =>
    if m.status ≠ .published then some none
    else (effectiveWindow cfg m.saleStartsAt m.queueOpensAt m.queueClosesAt).map fun w =>
      some (timestamp (w.2.instant - epoch))

/-- The event as the waiting room sees it. -/
def queued (m : CachedMeta) (cfg : QueueSettings) (score : EventId → UserId → String → Nat) : QueuedEvent where
  event := m.eventId
  times :=
    { saleStartsAt := m.saleStartsAt.instant - epoch
      queueOpensAt := m.queueOpensAt.map fun d => d.instant - epoch
      queueClosesAt := m.queueClosesAt.map fun d => d.instant - epoch }
  cfg
  score

/-- Unless the dates run out, admission starts as the waiting room computes it. -/
theorem admitStart_queued {K : Type*} [DivisionRing K] {cfg : QueueSettings} {m : CachedMeta}
    (hwindow : (effectiveWindow cfg m.saleStartsAt m.queueOpensAt m.queueClosesAt).isSome)
    (score : EventId → UserId → String → Nat) {w : WaitingRoom} (hstatus : w.status = m.status) :
    admitStart (K := K) cfg (some m) = some ((m.queued cfg score).admitStart w) := by
  obtain ⟨bounds, hbounds⟩ := Option.isSome_iff_exists.1 hwindow
  have hcloses : bounds.2.instant - epoch = (m.queued cfg score).closes := by
    have hinstant := congrArg Prod.snd (PatchedEvent.effectiveWindow_instant hbounds)
    rw [show bounds.2.instant = _ from hinstant]
    cases hc : m.queueClosesAt with
    | none => simp [QueuedEvent.closes, queued, QueueSettings.effectiveWindow, hc]; omega
    | some d => simp [QueuedEvent.closes, queued, QueueSettings.effectiveWindow, hc]
  rw [admitStart, QueuedEvent.admitStart, hbounds, hstatus]
  by_cases hpublished : m.status = .published
  · simp [hpublished, hcloses]
  · simp [hpublished]

end CachedMeta

/-! ### Hit and miss -/

namespace TextCodec

/-- A hit on what a load has written returns what the load returned, whatever the database holds by then:
orders are checked and priced alike, and admission starts at the same time. -/
theorem getEventMeta_hit_eq_miss {K : Type*} [DivisionRing K] (c : TextCodec)
    (hjson : ∀ v : JsonValue, v.DistinctKeys → c.loads (c.dumps v) = some v.stringKeys) (event : EventId)
    (row : EventColumns)
    (prices : Hash Int Int) (hiso : ∀ d ∈ row.moments, c.fromisoformat (c.isoformat d) = some d)
    (later : Option (EventColumns × Hash Int Int)) :
    c.decode event (c.encode row prices) = some (row.toMeta event prices) ∧
    (let hit := c.getEventMeta event (c.loadAndFill event (some (row, prices))).1 later
     let miss := c.getEventMeta event none (some (row, prices))
     hit = some (some (row.toMeta event prices)) ∧ miss = hit ∧
      (∀ req now, hit.map (CachedMeta.checkOrder · req now) = miss.map (CachedMeta.checkOrder · req now)) ∧
      ∀ cfg, hit.map (CachedMeta.admitStart (K := K) cfg) = miss.map (CachedMeta.admitStart (K := K) cfg)) := by
  have hdecode := decode_encode hjson hiso event prices
  have hhit : c.getEventMeta event (c.loadAndFill event (some (row, prices))).1 later = some
      (some (row.toMeta event prices)) :=
    congrArg (Option.map some) hdecode
  have hmiss : c.getEventMeta event none (some (row, prices)) = some (some (row.toMeta event prices)) := rfl
  refine ⟨hdecode, hhit, hmiss.trans hhit.symm, fun req now => ?_, fun cfg => ?_⟩
  · rw [hhit, hmiss]
  · rw [hhit, hmiss]

end TextCodec

/-- A moment of January 2030, in UTC. -/
def january (seconds : Int) (h : 0 ≤ seconds ∧ seconds < 31 * 86400) : Datetime where
  wall := (741077 * 86400 + seconds) * 1000000
  offset := 0
  inRange := by
    rw [datetimeSpan]
    omega

/-- A seated event on sale for a day from ten o'clock, with its registration closed ten minutes before. -/
def seatedRow : EventColumns where
  status := .published
  saleStartsAt := january 36000 (by decide)
  saleEndsAt := january 122400 (by decide)
  priceCents := none
  venueId := some 3
  queueOpensAt := none
  queueClosesAt := some (january 35400 (by decide))

def seatedPrices : Hash Int Int := setKey (setKey ∅ 7 5000) 8 3000

/-- JSON as `JsonValue` writes and reads it, and the ISO texts of three moments. -/
def januaryCodec : TextCodec where
  dumps := JsonValue.dumps
  loads := JsonValue.loads
  isoformat d :=
    if d = january 35400 (by decide) then "2030-01-01T09:50:00+00:00"
    else if d = january 36000 (by decide) then "2030-01-01T10:00:00+00:00"
    else "2030-01-02T10:00:00+00:00"
  fromisoformat raw :=
    if raw = "2030-01-01T09:50:00+00:00" then some (january 35400 (by decide))
    else if raw = "2030-01-01T10:00:00+00:00" then some (january 36000 (by decide))
    else if raw = "2030-01-02T10:00:00+00:00" then some (january 122400 (by decide))
    else none

/-- A load fills the cache, and a hit finds the two zones at their prices. -/
theorem getEventMeta_hit_eq_miss_sample :
    januaryCodec.getEventMeta 1 (januaryCodec.loadAndFill 1 (some (seatedRow, seatedPrices))).1 none =
        some (some (seatedRow.toMeta 1 seatedPrices)) ∧
      (seatedRow.toMeta 1 seatedPrices).orderMeta.totalFor (some 7) 2 = .ok 10000 := by
  have hsame := TextCodec.getEventMeta_hit_eq_miss (K := ℚ) januaryCodec
    (fun v _ => JsonValue.loads_dumps v) 1 seatedRow seatedPrices
    (by decide +kernel) none
  exact ⟨hsame.2.1, by decide +kernel⟩

end Ticketing
