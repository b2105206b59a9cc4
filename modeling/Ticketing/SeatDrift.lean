import Ticketing.Anchors
import Ticketing.Rebuild

/-!
# The seat structure detector

`detect_seat_structure_drift` of `app/worker.py` for one event: what it computes from the blocks and holds it
has read from the database and from the texts its pipeline has read from Redis.  The hashes are dictionaries
of texts there, so the sweep over the holds is written once more, on text fields.

On texts written in the way the scripts write them the detector compares what it should: `runs` with the
components of the free seats, `ends` with the reverse index of `runs`, the counter with the sum of the
lengths.  A rebuild leaves nothing to report.
-/

namespace Ticketing

open Span Traverse

/-! ### Numbers and fields as texts -/

/-- `int(text)` on a text of decimal digits. -/
def readNat (text : List Char) : Option Nat :=
  if text ≠ [] ∧ text.all Char.isDigit then some (Nat.ofDigitChars 10 text 0) else none

/-- `int(text)` on a text of decimal digits with an optional minus sign. -/
def readInt (text : String) : Option Int :=
  if text.toList.head? = some '-' then (readNat text.toList.tail).map fun n : Nat => -(n : Int)
  else (readNat text.toList).map fun n : Nat => (n : Int)

/-- The text `"{block}:{pos}"`. -/
def Field.text (f : Field) : String := f.block.repr ++ ":" ++ f.pos.repr

/-- `text.split(":")`. -/
def splitColon (text : String) : List String := (text.toList.splitOn ':').map String.ofList

private theorem isDigit_of_mem_repr {n : Nat} {c : Char} (hc : c ∈ n.repr.toList) : c.isDigit = true := by
  rw [Nat.toList_repr] at hc
  exact Nat.isDigit_of_mem_toDigits (by decide) (by decide) hc

private theorem readNat_repr (n : Nat) : readNat n.repr.toList = some n := by
  have hne : n.repr.toList ≠ [] := by simp
  have hall : n.repr.toList.all Char.isDigit = true := List.all_eq_true.2 fun c hc => isDigit_of_mem_repr hc
  rw [readNat, if_pos ⟨hne, hall⟩, Nat.toList_repr, Nat.ofDigitChars_ten_toDigits]

private theorem notMem_repr {n : Nat} {c : Char} (hc : c.isDigit = false) : c ∉ n.repr.toList := by
  intro h
  rw [isDigit_of_mem_repr h] at hc
  cases hc

private theorem toList_repr_negSucc (n : Nat) : (Int.negSucc n).repr.toList = '-' :: (n + 1).repr.toList := by
  simp [Int.repr]

/-- Reading back a number as Python writes it. -/
@[simp] theorem readInt_repr (n : Int) : readInt n.repr = some n := by
  cases n with
  | ofNat n =>
    have hhead : n.repr.toList.head? ≠ some '-' := fun h => notMem_repr (by decide) (List.mem_of_mem_head? h)
    show readInt n.repr = _
    rw [readInt, if_neg hhead, readNat_repr]
    rfl
  | negSucc n =>
    rw [readInt, toList_repr_negSucc, if_pos List.head?_cons, List.tail_cons, readNat_repr]
    rfl

/-- A number is written with digits and a sign. -/
theorem notMem_intRepr (n : Int) {c : Char} (hdigit : c.isDigit = false) (hsign : c ≠ '-') : c ∉ n.repr.toList := by
  cases n with
  | ofNat n => exact notMem_repr hdigit
  | negSucc n =>
    rw [toList_repr_negSucc, List.mem_cons, not_or]
    exact ⟨hsign, notMem_repr hdigit⟩

@[simp] theorem splitColon_text (f : Field) : splitColon f.text = [f.block.repr, f.pos.repr] := by
  have htext : f.text.toList = [':'].intercalate [f.block.repr.toList, f.pos.repr.toList] := by
    simp [Field.text, List.intercalate, List.intersperse]
  have hcolon : ∀ l ∈ [f.block.repr.toList, f.pos.repr.toList], ':' ∉ l := by
    intro l hl
    rcases List.mem_pair.1 hl with rfl | rfl
    · exact notMem_repr (by decide)
    · exact notMem_intRepr _ (by decide) (by decide)
  rw [splitColon, htext, List.splitOn_intercalate _ hcolon (by simp), List.map_cons, List.map_singleton,
    String.ofList_toList, String.ofList_toList]

theorem Field.text_injective : Function.Injective Field.text := by
  intro f f' h
  have hs : splitColon f.text = splitColon f'.text := congrArg _ h
  rw [splitColon_text, splitColon_text, List.cons.injEq, List.cons.injEq] at hs
  obtain ⟨hb, hp, -⟩ := hs
  have hblock : some f.block = some f'.block := by rw [← readNat_repr, hb, readNat_repr]
  have hpos : some f.pos = some f'.pos := by rw [← readInt_repr, hp, readInt_repr]
  cases f; cases f'
  rw [Field.mk.injEq]
  exact ⟨Option.some.inj hblock, Option.some.inj hpos⟩

theorem intRepr_injective : Function.Injective Int.repr := by
  intro n n' h
  have hn : some n = some n' := by rw [← readInt_repr, h, readInt_repr]
  exact Option.some.inj hn

/-! ### The texts of a zone -/

/-- What the pipeline of the detector reads of a zone. -/
structure RawZone where
  runs : Hash String String
  ends : Hash String String
  counter : Option String

/-- The texts the keys of a zone hold. -/
def ZoneKeys.raw (z : ZoneKeys) : RawZone where
  runs := Hash.recode Field.text_injective Int.repr z.runs
  ends := Hash.recode Field.text_injective Int.repr z.ends
  counter := z.available.map Int.repr

/-- The run `_parse_state` reads from a field and its value. -/
def parseRun (field length : String) : Option Run :=
  if (splitColon field).length = 2 then do
    let block ← (splitColon field)[0]?.bind fun text => readNat text.toList
    let start ← (splitColon field)[1]?.bind readInt
    let length ← readInt length
    pure ⟨block, start, length⟩
  else none

/-- The runs of `_parse_state`. -/
def parseStateRuns (runs : Hash String String) : Option (List Run) := runs.entries.mapM fun e => parseRun e.1 e.2

/-! ### The detector -/

inductive DriftKind where
  | index
  | counter
  | complement
  | eventTotal
deriving DecidableEq

/-- An entry of the list of drifts; the kind `event_total` names no zone, and only the two counter checks give
the expected and the actual number. -/
structure Drift where
  kind : DriftKind
  event : EventId
  zone : Option ZoneId := none
  amounts : Option (Int × Int) := none
deriving DecidableEq

/-- An entry is appended when a check fails. -/
def reportUnless (ok : Prop) [Decidable ok] (d : Drift) : List Drift := if ok then [] else [d]

/-- The item of `expected_ends` for a field of `runs`. -/
def endItem (field length : String) : Option (String × String) := do
  let block ← (splitColon field)[0]?
  let start ← (splitColon field)[1]?
  let pos ← readInt start
  let length ← readInt length
  pure (block ++ ":" ++ (pos + length).repr, start)

def expectedEnds (runs : Hash String String) : Option (Hash String String) :=
  (runs.entries.mapM fun e => endItem e.1 e.2).map Hash.ofList

/-- The detector's own sweep over the sorted intervals of a block, which fills `expected_runs`. -/
def expectBlock (block : BlockId) (capacity : Int) : Int → List (Int × Int) → Hash String String → Hash String String
  | cursor, [], expected =>
    if cursor < capacity then expected.insert (Field.text ⟨block, cursor⟩) (capacity - cursor).repr else expected
  | cursor, (lo, hi) :: occupied, expected =>
    expectBlock block capacity (max cursor hi) occupied
      (if lo > cursor then expected.insert (Field.text ⟨block, cursor⟩) (lo - cursor).repr else expected)

def expectedRuns (blocks : List SeatBlock) (held : List SeatHold) : Hash String String :=
  blocks.foldl (fun expected b => expectBlock b.id b.capacity 0
    ((occupied held b.id).insertionSort pairOrder) expected) ∅

/-- A counter as a number, `none` for a missing key. -/
def readCounter (text : Option String) : Option (Option Int) := text.elim (some none) fun t => (readInt t).map some

/-- The checks of one zone and what it adds to `zone_sum`. -/
def zoneDrifts (backlog : Nat) (blocks : List SeatBlock) (held : List SeatHold) (event : EventId) (zone : ZoneId)
    (raw : RawZone) : Option (List Drift × Int) := do
  let ends ← expectedEnds raw.runs
  let lengths ← raw.runs.entries.mapM fun e => readInt e.2
  let counter ← readCounter raw.counter
  let index := reportUnless (Hash.Same raw.ends ends) ⟨.index, event, some zone, none⟩
  let count := counter.elim [] fun n => reportUnless (n = lengths.sum)
    ⟨.counter, event, some zone, some (lengths.sum, n)⟩
  -- with a backlog the holds lag behind the runs
  let complement :=
    reportUnless (backlog ≠ 0 ∨ Hash.Same raw.runs (expectedRuns blocks held)) ⟨.complement, event, some zone, none⟩
  pure (index ++ count ++ complement, counter.getD 0)

/-- `detect_seat_structure_drift` for one event, from what it has read: the blocks of the venue, the holds of
the event, and the texts of the zones with the counter of the event. -/
def detectSeatStructureDrift (backlog : Nat) (event : EventId) (zones : List ZoneId) (blocks : List SeatBlock)
    (held : List SeatHold) (texts : ZoneId → RawZone) (eventCounter : Option String) : Option (List Drift) := do
  let results ← zones.mapM fun zone => zoneDrifts backlog
    (blocks.filter fun b => b.zone = zone) held event zone (texts zone)
  let counter ← readCounter eventCounter
  let zoneSum := (results.map Prod.snd).sum
  let total := counter.elim [] fun n => reportUnless (n = zoneSum) ⟨.eventTotal, event, none, some (zoneSum, n)⟩
  pure (results.flatMap Prod.fst ++ total)

/-- The holds the detector reads. -/
def Db.eventHolds (db : Db) (event : EventId) : List SeatHold := db.seatHolds.filter fun h => h.event = event

/-! ### The checks on canonical texts -/

section Canonical

variable (z : ZoneKeys)

private theorem parseRun_text (f : Field) (n : Int) : parseRun f.text n.repr = some ⟨f.block, f.pos, n⟩ := by
  have hblock := readNat_repr f.block
  rw [Nat.toList_repr] at hblock
  simp [parseRun, hblock]

private theorem endItem_text (f : Field) (n : Int) :
    endItem f.text n.repr = some (Field.text ⟨f.block, f.pos + n⟩, f.pos.repr) := by
  simp only [endItem, splitColon_text, List.getElem?_cons_zero, List.getElem?_cons_succ, readInt_repr,
    Option.bind_eq_bind, Option.bind_some, Option.pure_def]
  rfl

/-- `_parse_state` reads the runs the keys hold. -/
theorem parseStateRuns_raw : parseStateRuns z.raw.runs = some z.parseRuns := by
  show (z.runs.entries.map _).mapM _ = _
  rw [List.mapM_map, mapM_eq_some (g := fun e => ⟨e.1.block, e.1.pos, e.2⟩)]
  · rfl
  · intro e _
    rw [Function.comp_apply, parseRun_text]

private theorem expectedEnds_raw : expectedEnds z.raw.runs =
    some (Hash.ofList
      ((z.parseRuns.map fun r => ((⟨r.block, r.stop⟩ : Field), r.start)).map fun e => (e.1.text, e.2.repr))) := by
  unfold expectedEnds
  show Option.map _ ((z.runs.entries.map _).mapM _) = _
  rw [List.mapM_map, mapM_eq_some (g := fun e => (Field.text ⟨e.1.block, e.1.pos + e.2⟩, e.1.pos.repr)),
    Option.map_some, ZoneKeys.parseRuns, List.map_map, List.map_map]
  · rfl
  · intro e _
    rw [Function.comp_apply, endItem_text]

private theorem lengths_raw : (z.raw.runs.entries.mapM fun e => readInt e.2) = some
    (z.parseRuns.map Span.length) := by
  show (z.runs.entries.map _).mapM _ = _
  rw [List.mapM_map, mapM_eq_some (g := fun e => e.2), ZoneKeys.parseRuns, List.map_map]
  · rfl
  · exact fun e _ => readInt_repr e.2

@[simp] theorem readCounter_repr (counter : Option Int) : readCounter (counter.map Int.repr) = some counter := by
  cases counter with
  | none => rfl
  | some n => simp [readCounter]

/-- `ends` is the reverse index of `runs`. -/
def ReverseIndex (z : ZoneKeys) : Prop :=
  ∀ block stop start, z.ends.lookup ⟨block, stop⟩ = some start ↔
    ∃ run ∈ z.parseRuns, run.block = block ∧ run.stop = stop ∧ run.start = start

/-- No two runs of a block stop at the same position. -/
def DistinctEnds (z : ZoneKeys) : Prop := (z.parseRuns.map fun r => (⟨r.block, r.stop⟩ : Field)).Nodup

variable {z}

private theorem ends_same_iff (hz : DistinctEnds z) :
    Hash.Same z.raw.ends
      (Hash.ofList
        ((z.parseRuns.map fun r => ((⟨r.block, r.stop⟩ : Field), r.start)).map fun e => (e.1.text, e.2.repr))) ↔
      ReverseIndex z := by
  have hkeys : ((z.parseRuns.map fun r => ((⟨r.block, r.stop⟩ : Field), r.start)).map Prod.fst).Nodup := by
    rw [List.map_map]
    exact hz
  rw [ZoneKeys.raw, Hash.same_recode_ofList _ _ intRepr_injective hkeys]
  simp only [List.mem_map, Prod.mk.injEq]
  constructor
  · intro hs block stop start
    rw [hs]
    simp only [Field.mk.injEq, and_assoc]
  · rintro hs ⟨block, stop⟩ start
    rw [hs]
    simp only [Field.mk.injEq, and_assoc]

section Complement

variable {blocks : List SeatBlock} {held : List SeatHold}

private theorem expectBlock_eq (block : BlockId) (capacity : Int) (occ : List (Int × Int)) (cursor : Int)
    (expected : Hash String String) :
    expectBlock block capacity cursor occ expected =
      (sweep block capacity cursor occ).foldl
        (fun d r => AList.insert (Field.text ⟨r.block, r.start⟩) r.length.repr d) expected := by
  induction occ generalizing cursor expected with
  | nil =>
    unfold expectBlock sweep
    split <;> rfl
  | cons p occ ih =>
    unfold expectBlock sweep
    rw [ih, List.foldl_append]
    by_cases hlo : p.1 > cursor
    · rw [if_pos hlo, if_pos hlo]
      rfl
    · rw [if_neg hlo, if_neg hlo]
      rfl

/-- The two sweeps agree. -/
private theorem expectedRuns_eq (blocks : List SeatBlock) (held : List SeatHold) : expectedRuns blocks held =
    Hash.ofList (((rebuiltRuns blocks held).map fun r => ((⟨r.block, r.start⟩ : Field), r.length)).map
      fun e => (e.1.text, e.2.repr)) := by
  rw [Hash.ofList, List.foldl_map, List.foldl_map, rebuiltRuns, List.foldl_flatMap, expectedRuns]
  simp only [expectBlock_eq]
  rfl

private theorem runs_same_iff (hr : Rebuildable blocks held) :
    Hash.Same z.raw.runs (expectedRuns blocks held) ↔ ∀ run, run ∈ z.parseRuns ↔ run ∈ rebuiltRuns blocks held := by
  have hkeys : (((rebuiltRuns blocks held).map fun r =>
      ((⟨r.block, r.start⟩ : Field), r.length)).map Prod.fst).Nodup := by
    rw [List.map_map]
    exact (nodup_fields (maximalList_rebuiltRuns hr)).1
  have hmem : ∀ run : Run, ((⟨run.block, run.start⟩ : Field), run.length) ∈
      (rebuiltRuns blocks held).map (fun r => ((⟨r.block, r.start⟩ : Field), r.length)) ↔
      run ∈ rebuiltRuns blocks held := by
    intro run
    refine List.mem_map_of_injective ?_
    rintro ⟨b, x, n⟩ ⟨b', x', n'⟩ h
    simp only [Prod.mk.injEq, Field.mk.injEq] at h
    obtain ⟨⟨rfl, rfl⟩, rfl⟩ := h
    rfl
  rw [ZoneKeys.raw, expectedRuns_eq, Hash.same_recode_ofList _ _ intRepr_injective hkeys]
  constructor
  · intro hs run
    rw [ZoneKeys.mem_parseRuns, hs, hmem]
  · rintro hs ⟨block, pos⟩ n
    rw [← hmem ⟨block, pos, n⟩ |>.symm, ← hs, ZoneKeys.mem_parseRuns]

end Complement

/-! ### What is reported -/

@[simp] private theorem mem_reportUnless {ok : Prop} [Decidable ok] {d e : Drift} : d ∈ reportUnless ok e ↔
    ¬ ok ∧ d = e := by
  unfold reportUnless
  split <;> simp [*]

private theorem mem_counter_report {counter : Option Int} {total : Int} {d : Drift} {entry : Int → Drift} :
    d ∈ counter.elim [] (fun n => reportUnless (n = total) (entry n)) ↔ ∃ n, counter = some n ∧ n ≠ total ∧
    d = entry n := by
  cases counter <;> simp

/-- The entries of a zone, one for each check that fails. -/
private theorem mem_zone_entries {index complement : Prop} [Decidable index] [Decidable complement]
    {counter : Option Int} {total : Int} {d e e' : Drift} {entry : Int → Drift} :
    d ∈ reportUnless index e ++ counter.elim [] (fun n => reportUnless (n = total) (entry n)) ++
        reportUnless complement e' ↔
      (¬ index ∧ d = e) ∨ (∃ n, counter = some n ∧ n ≠ total ∧ d = entry n) ∨ ¬ complement ∧ d = e' := by
  rw [List.mem_append, List.mem_append, mem_reportUnless, mem_counter_report, mem_reportUnless, or_assoc]

/-- Some entry of the list has this kind and names this zone. -/
def Reported (drifts : List Drift) (kind : DriftKind) (zone : ZoneId) : Prop :=
  ∃ d ∈ drifts, d.kind = kind ∧ d.zone = some zone

/-- What the three checks of a zone report when its keys hold canonical texts. -/
structure ZoneReport (backlog : Nat) (blocks : List SeatBlock) (held : List SeatHold) (place : ZoneId) (z : ZoneKeys)
    (drifts : List Drift) : Prop where
  zone : ∀ d ∈ drifts, d.zone = some place
  index : DistinctEnds z → (Reported drifts .index place ↔ ¬ ReverseIndex z)
  counter : Reported drifts .counter place ↔ ∃ n, z.available = some n ∧ n ≠ z.remaining
  complement : Rebuildable blocks held →
    (Reported drifts .complement place ↔ backlog = 0 ∧ ¬ ∀ run, run ∈ z.parseRuns ↔ run ∈ rebuiltRuns blocks held)
  kinds : ∀ d ∈ drifts, d.kind ≠ .eventTotal

theorem zoneDrifts_raw (backlog : Nat) (blocks : List SeatBlock) (held : List SeatHold) (event : EventId)
    (zone : ZoneId) (z : ZoneKeys) :
    ∃ drifts, zoneDrifts backlog blocks held event zone z.raw = some (drifts, z.available.getD 0) ∧
      ZoneReport backlog blocks held zone z drifts := by
  unfold zoneDrifts
  rw [expectedEnds_raw, lengths_raw, show z.raw.counter = z.available.map Int.repr from rfl, readCounter_repr]
  refine ⟨_, rfl, ?_⟩
  constructor
  case zone =>
    intro d hd
    rcases mem_zone_entries.1 hd with ⟨-, rfl⟩ | ⟨n, -, -, rfl⟩ | ⟨-, rfl⟩ <;> rfl
  case kinds =>
    intro d hd
    rcases mem_zone_entries.1 hd with ⟨-, rfl⟩ | ⟨n, -, -, rfl⟩ | ⟨-, rfl⟩ <;> simp
  case index =>
    intro hz
    rw [← ends_same_iff hz]
    constructor
    · rintro ⟨d, hd, hkind, -⟩
      rcases mem_zone_entries.1 hd with ⟨hi, -⟩ | ⟨n, -, -, rfl⟩ | ⟨-, rfl⟩
      · exact hi
      · cases hkind
      · cases hkind
    · exact fun hi => ⟨_, mem_zone_entries.2 (.inl ⟨hi, rfl⟩), rfl, rfl⟩
  case counter =>
    constructor
    · rintro ⟨d, hd, hkind, -⟩
      rcases mem_zone_entries.1 hd with ⟨-, rfl⟩ | ⟨n, hn, hne, -⟩ | ⟨-, rfl⟩
      · cases hkind
      · exact ⟨n, hn, hne⟩
      · cases hkind
    · exact fun ⟨n, hn, hne⟩ => ⟨_, mem_zone_entries.2 (.inr (.inl ⟨n, hn, hne, rfl⟩)), rfl, rfl⟩
  case complement =>
    intro hr
    rw [← runs_same_iff hr]
    constructor
    · rintro ⟨d, hd, hkind, -⟩
      rcases mem_zone_entries.1 hd with ⟨-, rfl⟩ | ⟨n, -, -, rfl⟩ | ⟨hc, -⟩
      · cases hkind
      · cases hkind
      · rwa [not_or, ne_eq, not_not] at hc
    · intro hc
      have hnot : ¬ (backlog ≠ 0 ∨ Hash.Same z.raw.runs (expectedRuns blocks held)) := by
        rwa [not_or, ne_eq, not_not]
      exact ⟨_, mem_zone_entries.2 (.inr (.inr ⟨hnot, rfl⟩)), rfl, rfl⟩

/-- The checks of an event: those of each zone, and the counter of the event against the sum of the zone counters. -/
theorem detectSeatStructureDrift_raw (backlog : Nat) (event : EventId) (zones : List ZoneId) (blocks : List SeatBlock)
    (held : List SeatHold) (keys : ZoneId → ZoneKeys) (counter : Option Int) :
    ∃ drifts, detectSeatStructureDrift backlog event zones blocks held (fun zone => (keys zone).raw)
    (counter.map Int.repr) =
        some drifts ∧
      (∀ zone ∈ zones, ∃ entries, ZoneReport backlog (blocks.filter fun b => b.zone = zone) held zone
        (keys zone) entries ∧
        ∀ kind, Reported drifts kind zone ↔ Reported entries kind zone) ∧
      ((∃ d ∈ drifts, d.kind = .eventTotal) ↔
        ∃ n, counter = some n ∧ n ≠ (zones.map fun zone => (keys zone).available.getD 0).sum) ∧
      ∀ d ∈ drifts, d.kind = .eventTotal ∨ ∃ zone ∈ zones, Reported drifts d.kind zone := by
  choose entries hentries hreport using fun zone =>
    zoneDrifts_raw backlog (blocks.filter fun b => b.zone = zone) held event zone (keys zone)
  unfold detectSeatStructureDrift
  rw [mapM_eq_some fun zone _ => hentries zone, readCounter_repr]
  refine ⟨_, rfl, ?_, ?_, ?_⟩
  · intro zone hzone
    refine ⟨entries zone, hreport zone, fun kind => ?_⟩
    constructor
    · rintro ⟨d, hd, hkind, hz⟩
      rcases List.mem_append.1 hd with hd | hd
      · obtain ⟨r, hr, hd⟩ := List.mem_flatMap.1 hd
        obtain ⟨zone', -, rfl⟩ := List.mem_map.1 hr
        have hzone' := (hreport zone').zone d hd
        rw [hz, Option.some.injEq] at hzone'
        exact ⟨d, hzone' ▸ hd, hkind, hz⟩
      · obtain ⟨n, -, -, rfl⟩ := mem_counter_report.1 hd
        cases hz
    · rintro ⟨d, hd, hkind, hz⟩
      refine ⟨d, List.mem_append_left _ (List.mem_flatMap.2 ⟨_, List.mem_map_of_mem hzone, hd⟩), hkind, hz⟩
  · rw [List.map_map]
    constructor
    · rintro ⟨d, hd, hkind⟩
      rcases List.mem_append.1 hd with hd | hd
      · obtain ⟨r, hr, hd⟩ := List.mem_flatMap.1 hd
        obtain ⟨zone, -, rfl⟩ := List.mem_map.1 hr
        exact absurd hkind ((hreport zone).kinds d hd)
      · obtain ⟨n, hn, hne, -⟩ := mem_counter_report.1 hd
        exact ⟨n, hn, hne⟩
    · rintro ⟨n, hn, hne⟩
      exact ⟨_, List.mem_append_right _ (mem_counter_report.2 ⟨n, hn, hne, rfl⟩), rfl⟩
  · intro d hd
    rcases List.mem_append.1 hd with hd' | hd'
    · obtain ⟨r, hr, hd'⟩ := List.mem_flatMap.1 hd'
      obtain ⟨zone, hzone, rfl⟩ := List.mem_map.1 hr
      exact .inr ⟨zone, hzone, d, hd, rfl, (hreport zone).zone d hd'⟩
    · obtain ⟨n, -, -, rfl⟩ := mem_counter_report.1 hd'
      exact .inl rfl

/-- The detector reports nothing when every zone is sound, the counter of the event is the sum of the zone
counters and, with the backlog empty, the runs are the complement of the holds. -/
theorem detectSeatStructureDrift_eq_nil {backlog : Nat} (event : EventId) {zones : List ZoneId}
    {blocks : List SeatBlock}
    {held : List SeatHold} (keys : ZoneId → ZoneKeys) (hzone : ∀ zone ∈ zones, ZoneInv (keys zone))
    (hruns : backlog = 0 → ∀ zone ∈ zones, ∀ run,
      run ∈ (keys zone).parseRuns ↔ run ∈ rebuiltRuns (blocks.filter fun b => b.zone = zone) held)
    (hr : ∀ zone ∈ zones, Rebuildable (blocks.filter fun b => b.zone = zone) held) :
    detectSeatStructureDrift backlog event zones blocks held (fun zone => (keys zone).raw)
      ((some (zones.map fun zone => (keys zone).available.getD 0).sum).map Int.repr) = some [] := by
  obtain ⟨drifts, hdrifts, hzones, htotal, hnamed⟩ :=
    detectSeatStructureDrift_raw backlog event zones blocks held keys
    (some (zones.map fun zone => (keys zone).available.getD 0).sum)
  rw [hdrifts, Option.some.injEq]
  refine List.eq_nil_iff_forall_not_mem.2 fun d hd => ?_
  rcases hnamed d hd with hkind | ⟨zone, hz, hrep⟩
  · obtain ⟨n, hn, hne⟩ := htotal.1 ⟨d, hd, hkind⟩
    exact hne (Option.some.inj hn).symm
  · obtain ⟨entries, hreport, hsame⟩ := hzones zone hz
    have hinv := hzone zone hz
    rw [hsame] at hrep
    cases hk : d.kind with
    | index =>
      rw [hk] at hrep
      exact (hreport.index (nodup_fields hinv.maximal).2).1 hrep hinv.ends
    | counter =>
      rw [hk] at hrep
      obtain ⟨n, hn, hne⟩ := hreport.counter.1 hrep
      have hcount := hinv.counter
      rw [hn] at hcount
      exact hne hcount
    | complement =>
      rw [hk] at hrep
      obtain ⟨hback, hdiff⟩ := (hreport.complement (hr zone hz)).1 hrep
      exact hdiff (hruns hback zone hz)
    | eventTotal =>
      obtain ⟨d', hd', hkind', -⟩ := hrep
      exact hreport.kinds d' hd' (hkind'.trans hk)

end Canonical

/-! ### The rebuilt zone under the detector -/

/-- The seat lies in a block and in no hold. -/
def FreeSeat (blocks : List SeatBlock) (held : List SeatHold) (c : BlockId) (x : Int) : Prop :=
  (∃ b ∈ blocks, c = b.id ∧ 0 ≤ x ∧ x < b.capacity) ∧ ∀ h ∈ held, ¬ h.span.Covers c x

/-- `rebuild_zone_runs` past its guard: what it returns, and the keys it leaves. -/
def rebuildZoneRuns (db : Db) (event : EventId) (zone : ZoneId) (z : ZoneKeys) : Int × ZoneKeys :=
  let blocks := db.zoneBlocks zone
  let held := db.heldOn event blocks
  if blocks.isEmpty then (0, z) else (((rebuiltRuns blocks held).map Span.length).sum, z.rebuilt blocks held)

section Rebuilt

variable {blocks : List SeatBlock} {held : List SeatHold}

theorem mem_rebuiltRuns_iff (hr : Rebuildable blocks held) (run : Run) :
    run ∈ rebuiltRuns blocks held ↔ IsComponent (FreeSeat blocks held) run :=
  (maximalList_rebuiltRuns hr).mem_iff_component (free_rebuiltRuns hr) run

theorem blocks_disjoint (hids : (blocks.map SeatBlock.id).Nodup) :
    (blocks.map fun b => (⟨b.id, 0, b.capacity⟩ : Run)).Pairwise Disjoint := by
  refine List.pairwise_map.2 ((List.pairwise_map.1 hids).imp fun {b b'} hne hb => ?_)
  exact absurd hb hne

/-- The free seats are counted by what the holds leave of the blocks. -/
theorem sum_rebuiltRuns (hr : Rebuildable blocks held) (hon : ∀ h ∈ held, h.block ∈ blocks.map SeatBlock.id) :
    ((rebuiltRuns blocks held).map Span.length).sum =
      (blocks.map SeatBlock.capacity).sum - (positions (held.map SeatHold.span)).card := by
  have hmax := maximalList_rebuiltRuns hr
  have hcap : (blocks.map SeatBlock.capacity).sum =
      (positions (blocks.map fun b => (⟨b.id, 0, b.capacity⟩ : Run))).card := by
    rw [← sum_length_eq_card _ (blocks_disjoint hr.ids), List.map_map]
    · rfl
    · intro s hs
      obtain ⟨b, -, rfl⟩ := List.mem_map.1 hs
      exact b.capacity_pos.le
  have hfree : ((rebuiltRuns blocks held).map Span.length).sum = (positions (rebuiltRuns blocks held)).card :=
    sum_length_eq_card (fun s hs => (hmax.pos s hs).le) (hmax.apart.imp Apart.disjoint)
  have hblock : ∀ c x, (c, x) ∈ positions (blocks.map fun b => (⟨b.id, 0, b.capacity⟩ : Run)) ↔
      ∃ b ∈ blocks, c = b.id ∧ 0 ≤ x ∧ x < b.capacity := by
    intro c x
    simp only [mem_positions, List.mem_map, exists_exists_and_eq_and, Covers, stop, Int.zero_add, eq_comm (a := c)]
  have hheld : ∀ c x, (c, x) ∈ positions (held.map SeatHold.span) ↔ ∃ h ∈ held, h.span.Covers c x := by
    intro c x
    simp only [mem_positions, List.mem_map, exists_exists_and_eq_and]
  have hsdiff : positions (rebuiltRuns blocks held) =
      positions (blocks.map fun b => (⟨b.id, 0, b.capacity⟩ : Run)) \ positions (held.map SeatHold.span) := by
    ext ⟨c, x⟩
    rw [Finset.mem_sdiff, hblock, hheld, mem_positions]
    exact (free_rebuiltRuns hr c x).trans (by simp only [not_exists, not_and])
  have hsub : positions (held.map SeatHold.span) ⊆ positions (blocks.map fun b => (⟨b.id, 0, b.capacity⟩ : Run)) := by
    rintro ⟨c, x⟩ hx
    obtain ⟨h, hh, hb, hlo, hhi⟩ := (hheld c x).1 hx
    obtain ⟨b, hbm, hbid⟩ := List.mem_map.1 (hon h hh)
    obtain ⟨-, h0, hcap⟩ := hr.fits b hbm h hh hbid.symm
    exact (hblock c x).2 ⟨b, hbm, hb.symm.trans hbid.symm, h0.trans hlo, hhi.trans_le hcap⟩
  rw [hcap, hfree, hsdiff, Finset.card_sdiff_of_subset hsub, Nat.cast_sub (Finset.card_le_card hsub)]

end Rebuilt

/-- The detector reads all holds of the event, a rebuild only those on the blocks of the zone. -/
private theorem rebuiltRuns_eventHolds (db : Db) (event : EventId) (blocks : List SeatBlock) :
    rebuiltRuns blocks (db.eventHolds event) = rebuiltRuns blocks (db.heldOn event blocks) := by
  refine List.flatMap_congr fun b hb => ?_
  have hocc : occupied (db.eventHolds event) b.id = occupied (db.heldOn event blocks) b.id := by
    unfold occupied Db.eventHolds Db.heldOn
    rw [List.filter_filter, List.filter_filter]
    congr 2
    funext h
    have hid : b.id ∈ blocks.map SeatBlock.id := List.mem_map_of_mem hb
    by_cases hh : h.block = b.id
    · simp [hh, hid]
    · simp [hh]
  rw [blockRuns, hocc, blockRuns]

private theorem rebuildable_eventHolds {db : Db} {event : EventId} {blocks : List SeatBlock}
    (hr : Rebuildable blocks (db.heldOn event blocks)) : Rebuildable blocks (db.eventHolds event) where
  ids := hr.ids
  fits b hb h hh hbl := by
    refine hr.fits b hb h ?_ hbl
    simp only [Db.eventHolds, Db.heldOn, List.mem_filter, decide_eq_true_eq] at hh ⊢
    exact ⟨hh.1, hh.2, hbl ▸ List.mem_map_of_mem hb⟩

section Detector

variable (db : Db) (event : EventId) (zones : List ZoneId) (zone : ZoneId)

/-- What a run of the detector over an event reports, given what it reads of the stores with the backlog empty. -/
def Detects (keys : ZoneId → ZoneKeys) (counter : Option Int) (drifts : List Drift) : Prop :=
  detectSeatStructureDrift 0 event zones db.seatBlocks (db.eventHolds event) (fun zone => (keys zone).raw)
    (counter.map Int.repr) = some drifts

variable {db event zones zone}

/-- On canonical texts and with an empty backlog the detector compares the runs with the complement of the
holds, `ends` with the reverse index and the counter with the sum of the lengths. -/
private theorem detects_zone (hr : Rebuildable (db.zoneBlocks zone) (db.heldOn event (db.zoneBlocks zone)))
    (hzone : zone ∈ zones) (keys : ZoneId → ZoneKeys) (counter : Option Int) :
    ∃ drifts, Detects db event zones keys counter drifts ∧
      (Reported drifts .complement zone ↔ ¬ ∀ run, run ∈ (keys zone).parseRuns ↔
        IsComponent (FreeSeat (db.zoneBlocks zone) (db.heldOn event (db.zoneBlocks zone))) run) ∧
      (DistinctEnds (keys zone) → (Reported drifts .index zone ↔ ¬ ReverseIndex (keys zone))) ∧
      (Reported drifts .counter zone ↔ ∃ n, (keys zone).available = some n ∧ n ≠ (keys zone).remaining) ∧
      ¬ Reported drifts .eventTotal zone := by
  obtain ⟨drifts, hdrifts, hreports, -, -⟩ :=
    detectSeatStructureDrift_raw 0 event zones db.seatBlocks (db.eventHolds event) keys counter
  obtain ⟨entries, hreport, hsame⟩ := hreports zone hzone
  refine ⟨drifts, hdrifts, ?_, ?_, ?_, ?_⟩
  · rw [hsame, hreport.complement (rebuildable_eventHolds hr)]
    simp only [true_and]
    rw [show (db.seatBlocks.filter fun b => b.zone = zone) = db.zoneBlocks zone from rfl, rebuiltRuns_eventHolds]
    simp only [mem_rebuiltRuns_iff hr]
  · intro hends
    rw [hsame, hreport.index hends]
  · rw [hsame, hreport.counter]
  · rw [hsame]
    rintro ⟨d, hd, hkind, -⟩
    exact hreport.kinds d hd hkind

/-- A rebuild of a zone with blocks writes the components of the free seats, their reverse index and their
number; `_parse_state` reads these runs back, and the detector reports nothing on them.  On any canonical
texts it reports exactly the three kinds of disagreement. -/
theorem rebuild_matches_detector (db : Db) (event : EventId) (zone : ZoneId) (zones : List ZoneId)
    (hzone : zone ∈ zones)
    (hne : db.zoneBlocks zone ≠ []) (hr : Rebuildable (db.zoneBlocks zone) (db.heldOn event (db.zoneBlocks zone))) :
    let blocks := db.zoneBlocks zone
    let held := db.heldOn event blocks
    (∀ z : ZoneKeys, ∃ total written, rebuildZoneRuns db event zone z = (total, written) ∧
      (∀ run, run ∈ written.parseRuns ↔ IsComponent (FreeSeat blocks held) run) ∧
      ReverseIndex written ∧
      total = (blocks.map SeatBlock.capacity).sum - (positions (held.map SeatHold.span)).card ∧
      written.available = some total ∧
      parseStateRuns written.raw.runs = some written.parseRuns ∧
      ∀ keys counter, keys zone = written → ∃ drifts, Detects db event zones keys counter drifts ∧
        ∀ kind, ¬ Reported drifts kind zone) ∧
    ∀ keys counter, ∃ drifts, Detects db event zones keys counter drifts ∧
      (Reported drifts .complement zone ↔ ¬ ∀ run, run ∈ (keys zone).parseRuns ↔
        IsComponent (FreeSeat blocks held) run) ∧
      (DistinctEnds (keys zone) → (Reported drifts .index zone ↔ ¬ ReverseIndex (keys zone))) ∧
      (Reported drifts .counter zone ↔ ∃ n, (keys zone).available = some n ∧ n ≠ (keys zone).remaining) := by
  intro blocks held
  constructor
  · intro z
    have hwrite : rebuildZoneRuns db event zone z =
        (((rebuiltRuns blocks held).map Span.length).sum, z.rebuilt blocks held) := by
      unfold rebuildZoneRuns
      rw [if_neg (by rwa [List.isEmpty_iff])]
    have hinv := zoneInv_rebuilt z hr
    have hruns : ∀ run, run ∈ (z.rebuilt blocks held).parseRuns ↔ IsComponent (FreeSeat blocks held) run := fun run =>
      (mem_parseRuns_rebuilt z hr run).trans (mem_rebuiltRuns_iff hr run)
    refine ⟨_, _, hwrite, hruns, hinv.ends, sum_rebuiltRuns hr fun h hh => ?_, rfl, parseStateRuns_raw _, ?_⟩
    · exact (of_decide_eq_true (List.mem_filter.1 hh).2).2
    · intro keys counter hkeys
      obtain ⟨drifts, hdrifts, hcomplement, hindex, hcounter, htotal⟩ := detects_zone hr hzone keys counter
      rw [hkeys] at hcomplement hindex hcounter
      refine ⟨drifts, hdrifts, fun kind => ?_⟩
      cases kind with
      | index => exact fun h => (hindex (nodup_fields hinv.maximal).2).1 h hinv.ends
      | counter =>
        intro h
        obtain ⟨n, hn, hne⟩ := hcounter.1 h
        have hcount := hinv.counter
        rw [hn] at hcount
        exact hne hcount
      | complement => exact fun h => hcomplement.1 h hruns
      | eventTotal => exact htotal
  · intro keys counter
    obtain ⟨drifts, hdrifts, hcomplement, hindex, hcounter, -⟩ := detects_zone hr hzone keys counter
    exact ⟨drifts, hdrifts, hcomplement, hindex, hcounter⟩

end Detector

/-! ### Samples -/

private def ringside : SeatBlock where
  id := 3
  zone := 1
  capacity := 23
  capacity_pos := by decide
  quality_range := SeatBlock.default_quality_range

private def overlappingHolds : List SeatHold :=
  [⟨1, 1, 3, 12, 9, 6, none⟩, ⟨1, 1, 3, 11, 4, 7, none⟩, ⟨1, 1, 3, 13, 20, 3, none⟩]

private def ringsideDb : Db where
  orders := []
  seatHolds := overlappingHolds
  outbox := []
  seatBlocks := [ringside]
  events _ := none

/-- Two overlapping holds and one at the end of the block, in no order: the seats 0 to 3 and 15 to 19 stay free. -/
theorem rebuild_matches_detector_ringside :
    (rebuiltRuns (ringsideDb.zoneBlocks 1) (ringsideDb.heldOn 1 (ringsideDb.zoneBlocks 1)) =
      [⟨3, 0, 4⟩, ⟨3, 15, 5⟩]) ∧
      ∃ drifts, Detects ringsideDb 1 [1] (fun _ => (rebuildZoneRuns ringsideDb 1 1 {}).2) (some 9) drifts ∧
        ∀ kind, ¬ Reported drifts kind 1 := by
  refine ⟨by decide +kernel, ?_⟩
  have hr : Rebuildable (ringsideDb.zoneBlocks 1) (ringsideDb.heldOn 1 (ringsideDb.zoneBlocks 1)) :=
    ⟨by decide, by decide⟩
  obtain ⟨hwrites, -⟩ := rebuild_matches_detector ringsideDb 1 1 [1] (by decide) (by decide) hr
  obtain ⟨total, written, hwrite, -, -, -, -, -, hdetect⟩ := hwrites {}
  exact hdetect _ (some 9) (by rw [hwrite])

/-- The keys left over in a zone that has no blocks. -/
private def leftoverKeys : ZoneKeys where
  runs := Hash.ofList [(⟨3, 0⟩, 8)]
  ends := Hash.ofList [(⟨3, 8⟩, 0)]
  available := some 8

/-- A rebuild of a zone without blocks returns 0 and writes nothing: a run that is there stays, although no
seat is free, and the detector reports it. -/
theorem rebuild_without_blocks_writes_nothing :
    Rebuildable (ringsideDb.zoneBlocks 2) (ringsideDb.heldOn 1 (ringsideDb.zoneBlocks 2)) ∧
      rebuildZoneRuns ringsideDb 1 2 leftoverKeys = (0, leftoverKeys) ∧
      leftoverKeys.available = some 8 ∧ ((ringsideDb.zoneBlocks 2).map SeatBlock.capacity).sum = 0 ∧
      (∃ run ∈ leftoverKeys.parseRuns,
        ¬ IsComponent (FreeSeat (ringsideDb.zoneBlocks 2) (ringsideDb.heldOn 1 (ringsideDb.zoneBlocks 2))) run) ∧
      ∃ drifts, Detects ringsideDb 1 [2] (fun _ => (rebuildZoneRuns ringsideDb 1 2 leftoverKeys).2) (some 8) drifts ∧
        Reported drifts .complement 2 := by
  have hr : Rebuildable (ringsideDb.zoneBlocks 2) (ringsideDb.heldOn 1 (ringsideDb.zoneBlocks 2)) :=
    ⟨by decide, by decide⟩
  have hrun : (⟨3, 0, 8⟩ : Run) ∈ leftoverKeys.parseRuns := by decide
  have hnot : ¬ IsComponent (FreeSeat (ringsideDb.zoneBlocks 2)
      (ringsideDb.heldOn 1 (ringsideDb.zoneBlocks 2))) ⟨3, 0, 8⟩ := by
    intro hc
    obtain ⟨⟨b, hb, -⟩, -⟩ := hc.subset 0 (by decide) (by decide)
    cases hb
  have hkeep : rebuildZoneRuns ringsideDb 1 2 leftoverKeys = (0, leftoverKeys) := rfl
  obtain ⟨drifts, hdrifts, hcomplement, -⟩ := detects_zone hr (List.mem_singleton.2 rfl)
    (fun _ => leftoverKeys) (some 8)
  refine ⟨hr, hkeep, rfl, rfl, ⟨_, hrun, hnot⟩, drifts, hdrifts, hcomplement.2 fun hall => ?_⟩
  exact hnot ((hall _).1 hrun)

end Ticketing
