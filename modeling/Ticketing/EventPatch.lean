import Ticketing.AdminUpdates

/-!
# A partial update of an event

`apply_event_update` on one event, with every body that `EventUpdate` accepts.  A field is absent, null or a
value; moments are datetimes with a zone, on which subtraction may leave the range of years.  The rules are
checked on the values merged from body and row, and the columns are set afterwards.

A null for a column that must not be null passes the schema: for a bound of a window it ends in a `TypeError`,
for another column in a row that the table refuses.  `applyEventUpdate_safe_iff` says for which requests the
outcome is a domain error or a sound edit.
-/

namespace Ticketing

/-! ### Datetimes -/

/-- The number of microseconds from the first to the last moment of a `datetime`. -/
def datetimeSpan : Int := 3652059 * 86400 * 1000000

/-- An aware `datetime`: microseconds since year 1 on its own clock, and `utcoffset()` in microseconds. -/
structure Datetime where
  wall : Int
  offset : Int
  inRange : 0 ≤ wall ∧ wall < datetimeSpan
deriving DecidableEq

namespace Datetime

/-- What comparisons look at. -/
def instant (d : Datetime) : Int := d.wall - d.offset

/-- `d - timedelta(seconds=seconds)`; `none` is an `OverflowError`. -/
def minus (d : Datetime) (seconds : Int) : Option Datetime :=
  if h : 0 ≤ d.wall - seconds * 1000000 ∧ d.wall - seconds * 1000000 < datetimeSpan then
    some { wall := d.wall - seconds * 1000000, offset := d.offset, inRange := h }
  else none

theorem instant_of_minus {d d' : Datetime} {seconds : Int} (h : d.minus seconds = some d') :
    d'.instant = d.instant - seconds * 1000000 := by
  rw [minus] at h
  split at h
  · obtain rfl := Option.some.inj h
    simp only [instant]
    omega
  · cases h

end Datetime

/-! ### The event -/

inductive PatchValue where
  | null
  | text (s : String)
  | number (n : Int)
  | moment (d : Datetime)
deriving DecidableEq

namespace PatchValue

def moment? : PatchValue → Option Datetime
  | moment d => some d
  | _ => none

/-- `a < b` on two datetimes. -/
def Before (a b : PatchValue) : Prop := ∃ x y, a = moment x ∧ b = moment y ∧ x.instant < y.instant

/-- `a == b` -/
def same : PatchValue → PatchValue → Bool
  | moment a, moment b => a.instant = b.instant
  | a, b => a = b

/-- The value up to the zone of a moment. -/
def seen : PatchValue → FieldValue
  | null => .null
  | text s => .text s
  | number n => .number n
  | moment d => .moment d.instant

/-- What is left when a value is assigned unless it equals the old one. -/
def assign (old new : PatchValue) : PatchValue := if old.same new then old else new

end PatchValue

namespace EventField

/-- The columns without `NOT NULL`. -/
def nullable : EventField → Bool
  | priceCents | queueOpensAt | queueClosesAt => true
  | _ => false

/-- A value of the column's type. -/
def fits : EventField → PatchValue → Bool
  | _, .null => true
  | name, .text s | venue, .text s => s.length ≤ 255
  | priceCents, .number _ => true
  | startsAt, .moment _ | endsAt, .moment _ | saleStartsAt, .moment _ | saleEndsAt,
      .moment _ | queueOpensAt, .moment _
  | queueClosesAt, .moment _ => true
  | _, _ => false

/-- What the schema accepts for a field. -/
def accepts : EventField → PatchValue → Bool
  | _, .null => true
  | name, .text s | venue, .text s => 1 ≤ s.length && s.length ≤ 255
  | priceCents, .number n => 0 ≤ n
  | startsAt, .moment _ | endsAt, .moment _ | saleStartsAt, .moment _ | saleEndsAt,
      .moment _ | queueOpensAt, .moment _
  | queueClosesAt, .moment _ => true
  | _, _ => false

/-- The columns that hold a moment. -/
def isMoment : EventField → Bool
  | name | venue | priceCents => false
  | _ => true

end EventField

structure PatchedEvent where
  id : EventId
  version : Nat
  status : EventStatus
  venueId : Option Nat
  totalSeats : Int
  fields : EventField → PatchValue

/-- The constraints of the table; a `CHECK` on a null passes. -/
structure PatchedEvent.Constrained (e : PatchedEvent) : Prop where
  notNull : ∀ f : EventField, f.nullable = false → e.fields f ≠ .null
  fits : ∀ f : EventField, f.fits (e.fields f) = true
  seats : 0 < e.totalSeats
  priceNonneg : ∀ n, e.fields .priceCents = .number n → 0 ≤ n
  priceSource : e.venueId = none ↔ e.fields .priceCents ≠ .null
  showWindow : ∀ a b, e.fields .startsAt = .moment a → e.fields .endsAt = .moment b → a.instant < b.instant
  saleWindow : ∀ a b, e.fields .saleStartsAt = .moment a → e.fields .saleEndsAt = .moment b → a.instant < b.instant
  queueWindow : ∀ a b, e.fields .queueOpensAt = .moment a → e.fields .queueClosesAt = .moment b →
    a.instant < b.instant

/-- The body of the request, with the fields that were set. -/
structure EventPatch where
  version : Nat
  changes : List (EventField × PatchValue)

structure EventPatch.Accepted (data : EventPatch) : Prop where
  version : 1 ≤ data.version
  nodup : (data.changes.map Prod.fst).Nodup
  values : ∀ change ∈ data.changes, change.1.accepts change.2 = true

inductive PatchError where
  | concurrentModification (id : EventId) (expected current : Nat)
  | eventCancelled (id : EventId)
  | invalidEventUpdate (id : EventId) (rule : UpdateRule)
  /-- A comparison with a null. -/
  | typeError
  /-- A date out of range. -/
  | overflowError
deriving DecidableEq

def PatchError.isDomain : PatchError → Bool
  | typeError | overflowError => false
  | _ => true

/-- An entry of the returned diff. -/
structure PatchDiff where
  field : EventField
  old : PatchValue
  new : PatchValue

/-! ### The update -/

/-- `effective_window`; `none` is an `OverflowError`. -/
def effectiveWindow (cfg : QueueSettings) (sale : Datetime) (opens closes : Option Datetime) :
    Option (Datetime × Datetime) :=
  (opens.or (sale.minus cfg.leadTimeSeconds)).bind fun opens =>
    (closes.or (sale.minus cfg.admissionBufferSeconds)).map fun closes => (opens, closes)

/-- The registration window of the columns. -/
def windowOf (cfg : QueueSettings) (fields : EventField → PatchValue) : Option (Datetime × Datetime) :=
  (fields .saleStartsAt).moment?.bind fun sale =>
    effectiveWindow cfg sale (fields .queueOpensAt).moment? (fields .queueClosesAt).moment?

namespace PatchedEvent

/-- `changes.get(field, getattr(event, field))` -/
def merged (e : PatchedEvent) (changes : List (EventField × PatchValue)) (f : EventField) : PatchValue :=
  (changes.lookup f).getD (e.fields f)

/-- `if a >= b: raise InvalidEventUpdate` -/
def checkOrder (id : EventId) (rule : UpdateRule) (a b : PatchValue) : Except PatchError Unit :=
  match a.moment?, b.moment? with
  | some a, some b => if b.instant ≤ a.instant then .error (.invalidEventUpdate id rule) else .ok ()
  | _, _ => .error .typeError

def checkQueue (cfg : QueueSettings) (id : EventId) (fields : EventField → PatchValue) : Except PatchError Unit :=
  (windowOf cfg fields).elim (.error .overflowError) fun w =>
    if w.2.instant ≤ w.1.instant then .error (.invalidEventUpdate id .queueWindow) else .ok ()

/-- Everything before the first column is set; an empty body is not checked any further. -/
def check (cfg : QueueSettings) (e : PatchedEvent) (data : EventPatch) : Except PatchError Unit :=
  let fields := e.merged data.changes
  if e.version ≠ data.version then .error (.concurrentModification e.id data.version e.version)
  else if e.status = .cancelled then .error (.eventCancelled e.id)
  else if data.changes = [] then .ok ()
  else if (data.changes.lookup .priceCents).isSome ∧ e.venueId.isSome then .error
    (.invalidEventUpdate e.id .pricedByZone)
  else (checkOrder e.id .showWindow (fields .startsAt) (fields .endsAt)).bind fun _ =>
    (checkOrder e.id .saleWindow (fields .saleStartsAt) (fields .saleEndsAt)).bind fun _ => checkQueue cfg e.id fields

/-- The loop over the changes. -/
def setChanges (e : PatchedEvent) : List (EventField × PatchValue) → PatchedEvent × List PatchDiff
  | [] => (e, [])
  | (f, v) :: rest =>
    if (e.fields f).same v then e.setChanges rest
    else
      let set := setChanges { e with fields := Function.update e.fields f v } rest
      (set.1, ⟨f, e.fields f, v⟩ :: set.2)

/-- `apply_event_update`, with the event it leaves. -/
def applyEventUpdate (cfg : QueueSettings) (e : PatchedEvent) (data : EventPatch) :
    PatchedEvent × Except PatchError (List PatchDiff) :=
  match check cfg e data with
  | .error err => (e, .error err)
  | .ok () => ((e.setChanges data.changes).1, .ok (e.setChanges data.changes).2)

/-! ### Sound edits -/

/-- The registration window can be told, and is the right way round. -/
def Upright (cfg : QueueSettings) (fields : EventField → PatchValue) : Prop :=
  ∃ w, windowOf cfg fields = some w ∧ w.1.instant < w.2.instant

/-- The event after an edit, and the diff that tells the edit. -/
structure SoundEdit (cfg : QueueSettings) (e e' : PatchedEvent) (diff : List PatchDiff) : Prop where
  constrained : e'.Constrained
  upright : Upright cfg e'.fields
  rest : e' = { e with fields := e'.fields }
  nodup : (diff.map PatchDiff.field).Nodup
  changed : ∀ f, (e.fields f).same (e'.fields f) = false ↔ f ∈ diff.map PatchDiff.field
  kept : ∀ f, f ∉ diff.map PatchDiff.field → e'.fields f = e.fields f
  values : ∀ d ∈ diff, d.old = e.fields d.field ∧ d.new = e'.fields d.field

/-- A domain error and the event as it was, or a sound edit. -/
def Safe (cfg : QueueSettings) (e : PatchedEvent) (data : EventPatch) : Prop :=
  match applyEventUpdate cfg e data with
  | (e', .error err) => err.isDomain = true ∧ e' = e
  | (e', .ok diff) => SoundEdit cfg e e' diff

/-- What a column holds afterwards: the value merged, unless the column has an equal one. -/
def settled (e : PatchedEvent) (changes : List (EventField × PatchValue)) (f : EventField) : PatchValue :=
  (e.fields f).assign (e.merged changes f)

/-- The requests that are answered soundly.  Where the request is not refused before, the bounds of the
windows are not null, the registration window can be told from the merged values and from those the columns
will hold, and no other required column is set to null; the window of an event that is not edited is upright
already. -/
def Tolerated (cfg : QueueSettings) (e : PatchedEvent) (data : EventPatch) : Prop :=
  let fields := e.merged data.changes
  e.version ≠ data.version ∨ e.status = .cancelled ∨
  (data.changes = [] ∧ Upright cfg e.fields) ∨
  (data.changes ≠ [] ∧
    ((data.changes.lookup .priceCents).isSome ∧ e.venueId.isSome ∨
      fields .startsAt ≠ .null ∧ fields .endsAt ≠ .null ∧ (¬(fields .startsAt).Before (fields .endsAt) ∨
        fields .saleStartsAt ≠ .null ∧ fields .saleEndsAt ≠ .null ∧
        (¬(fields .saleStartsAt).Before (fields .saleEndsAt) ∨
          (windowOf cfg fields).isSome ∧ (¬Upright cfg fields ∨
            fields .name ≠ .null ∧ fields .venue ≠ .null ∧ (fields .priceCents ≠ .null ∨ e.venueId.isSome) ∧
              (windowOf cfg (e.settled data.changes)).isSome)))))

/-! ### The columns after the loop -/

variable {e e' : PatchedEvent} {data : EventPatch} {changes : List (EventField × PatchValue)} {cfg : QueueSettings}

private theorem same_self (v : PatchValue) : v.same v = true := by
  cases v <;> simp [PatchValue.same]

private theorem assign_self (v : PatchValue) : v.assign v = v := if_pos (same_self v)

/-- A body gives a field once. -/
private theorem mem_iff_lookup (h : (changes.map Prod.fst).Nodup) {f : EventField} {v : PatchValue} :
    (f, v) ∈ changes ↔ changes.lookup f = some v := by
  induction changes with
  | nil => simp
  | cons change rest ih =>
    obtain ⟨g, w⟩ := change
    rw [List.map_cons, List.nodup_cons] at h
    rw [List.mem_cons, List.lookup_cons]
    by_cases hfg : f = g
    · subst hfg
      have hnot : (f, v) ∉ rest := fun hmem => h.1 (List.mem_map.2 ⟨_, hmem, rfl⟩)
      simp [hnot, eq_comm]
    · have hne : (f == g) = false := beq_eq_false_iff_ne.2 hfg
      simp only [hne, ← ih h.2, Prod.mk.injEq, hfg, false_and, false_or]

private theorem settled_nil (e : PatchedEvent) (f : EventField) : e.settled [] f = e.fields f := by
  exact assign_self _

/-- The columns other than the first of the body do not depend on it. -/
private theorem settled_cons_of_ne {f g : EventField} (hne : f ≠ g) (v : PatchValue) :
    e.settled ((g, v) :: changes) f = e.settled changes f := by
  have hbeq : (f == g) = false := beq_eq_false_iff_ne.2 hne
  have hmerged : e.merged ((g, v) :: changes) f = e.merged changes f := by simp only [merged, List.lookup_cons, hbeq]
  rw [settled, settled, hmerged]

private theorem settled_of_not_mem {f : EventField} (h : f ∉ changes.map Prod.fst) :
    e.settled changes f = e.fields f := by
  have hnone : changes.lookup f = none := by
    refine List.lookup_eq_none_iff.2 fun change hmem => bne_iff_ne.2 fun hf => h ?_
    exact List.mem_map.2 ⟨change, hmem, hf.symm⟩
  rw [settled, merged, hnone]
  exact assign_self _

theorem setChanges_fields (h : (changes.map Prod.fst).Nodup) (f : EventField) :
    (e.setChanges changes).1.fields f = e.settled changes f := by
  induction changes generalizing e with
  | nil => rw [setChanges, settled_nil]
  | cons change rest ih =>
    obtain ⟨g, v⟩ := change
    rw [List.map_cons, List.nodup_cons] at h
    rw [setChanges]
    by_cases hfg : f = g
    · subst hfg
      split
      · rename_i hsame
        rw [ih h.2, settled_of_not_mem h.1]
        simp [settled, merged, PatchValue.assign, hsame]
      · rename_i hdiffer
        rw [ih h.2, settled_of_not_mem h.1]
        simp [settled, merged, PatchValue.assign, hdiffer]
    · rw [settled_cons_of_ne hfg]
      split
      · exact ih h.2
      · rw [ih h.2]
        simp only [settled, merged]
        rw [Function.update_of_ne hfg]

theorem setChanges_rest (e : PatchedEvent) (changes : List (EventField × PatchValue)) :
    (e.setChanges changes).1 = { e with fields := (e.setChanges changes).1.fields } := by
  induction changes generalizing e with
  | nil => rfl
  | cons change rest ih =>
    obtain ⟨g, v⟩ := change
    rw [setChanges]
    split
    · exact ih e
    · exact ih { e with fields := Function.update e.fields g v }

/-- The diff tells the fields of the body whose value is a new one. -/
theorem setChanges_diff (h : (changes.map Prod.fst).Nodup) : (e.setChanges changes).2 =
    (changes.filter fun change => !(e.fields change.1).same change.2).map fun change =>
      ⟨change.1, e.fields change.1, change.2⟩ := by
  induction changes generalizing e with
  | nil => rfl
  | cons change rest ih =>
    obtain ⟨g, v⟩ := change
    rw [List.map_cons, List.nodup_cons] at h
    rw [setChanges]
    split
    · rename_i hsame
      rw [ih h.2, List.filter_cons, if_neg (by simp [hsame])]
    · rename_i hdiffer
      have hothers : ∀ change ∈ rest, Function.update e.fields g v change.1 = e.fields change.1 := fun change hmem =>
        Function.update_of_ne (fun hg => h.1 (List.mem_map.2 ⟨change, hmem, hg⟩)) _ _
      rw [List.filter_cons, if_pos (by simp [hdiffer]), List.map_cons]
      show _ :: (setChanges _ rest).2 = _
      rw [ih h.2]
      refine congrArg _ ?_
      have hfilter : (rest.filter fun change => !(Function.update e.fields g v change.1).same change.2) =
          rest.filter fun change => !(e.fields change.1).same change.2 :=
        List.filter_congr fun change hmem => by rw [hothers change hmem]
      show (rest.filter fun change => !(Function.update e.fields g v change.1).same change.2).map _ = _
      rw [hfilter]
      refine List.map_congr_left fun change hmem => ?_
      exact congrArg (fun old => PatchDiff.mk change.1 old change.2) (hothers change (List.mem_of_mem_filter hmem))

/-! ### The checks -/

/-- The check refuses the request with a domain error, or lets it pass to `P`. -/
def Passes (r : Except PatchError Unit) (P : Prop) : Prop :=
  match r with
  | .error err => err.isDomain = true
  | .ok () => P

private theorem passes_bind (a b : Except PatchError Unit) (P : Prop) : Passes (a.bind fun _ => b) P ↔
    Passes a (Passes b P) := by
  cases a <;> exact Iff.rfl

/-- A column of moments holds a moment or null. -/
private theorem moment_of_fits {f : EventField} (hf : f.isMoment = true) {v : PatchValue}
    (hfits : f.fits v = true) (hnull : v ≠ .null) :
    ∃ d, v = .moment d := by
  cases v with
  | null => exact absurd rfl hnull
  | moment d => exact ⟨d, rfl⟩
  | text s => cases f <;> simp [EventField.fits, EventField.isMoment] at hf hfits
  | number n => cases f <;> simp [EventField.fits, EventField.isMoment] at hf hfits

private theorem passes_checkOrder {id : EventId} {rule : UpdateRule} {f g : EventField}
    (hf : f.isMoment = true) (hg : g.isMoment = true)
    {a b : PatchValue} (ha : f.fits a = true) (hb : g.fits b = true) (P : Prop) :
    Passes (checkOrder id rule a b) P ↔ a ≠ .null ∧ b ≠ .null ∧ (¬a.Before b ∨ P) := by
  by_cases hanull : a = .null
  · subst hanull
    simp [checkOrder, PatchValue.moment?, Passes, PatchError.isDomain]
  by_cases hbnull : b = .null
  · subst hbnull
    cases a <;> simp [checkOrder, PatchValue.moment?, Passes, PatchError.isDomain]
  obtain ⟨x, rfl⟩ := moment_of_fits hf ha hanull
  obtain ⟨y, rfl⟩ := moment_of_fits hg hb hbnull
  have hbefore : PatchValue.Before (.moment x) (.moment y) ↔ x.instant < y.instant := by simp [PatchValue.Before]
  rw [hbefore]
  by_cases hle : y.instant ≤ x.instant
  · simp [checkOrder, PatchValue.moment?, Passes, PatchError.isDomain, hle]
  · simp [checkOrder, PatchValue.moment?, Passes, hle, not_le.1 hle]

private theorem passes_checkQueue (id : EventId) (fields : EventField → PatchValue) (P : Prop) :
    Passes (checkQueue cfg id fields) P ↔ (windowOf cfg fields).isSome ∧ (¬Upright cfg fields ∨ P) := by
  rw [checkQueue, Upright]
  cases hw : windowOf cfg fields with
  | none => simp [Passes, PatchError.isDomain]
  | some w =>
    by_cases hle : w.2.instant ≤ w.1.instant
    · simp [Passes, PatchError.isDomain, hle]
    · simp [Passes, hle, not_le.1 hle]

theorem safe_iff_passes : Safe cfg e data ↔
    Passes (check cfg e data) (SoundEdit cfg e (e.setChanges data.changes).1 (e.setChanges data.changes).2) := by
  rw [Safe, applyEventUpdate]
  cases check cfg e data with
  | error err => simp [Passes]
  | ok u => exact Iff.rfl

/-! ### What the columns hold -/

private theorem same_iff_seen (a b : PatchValue) : a.same b = true ↔ a.seen = b.seen := by
  cases a <;> cases b <;> simp [PatchValue.same, PatchValue.seen]

private theorem seen_settled (e : PatchedEvent) (changes : List (EventField × PatchValue)) (f : EventField) :
    (e.settled changes f).seen = (e.merged changes f).seen := by
  rw [settled, PatchValue.assign]
  split
  · rename_i hsame
    exact (same_iff_seen _ _).1 hsame
  · rfl

private theorem seen_eq_null {v : PatchValue} : v.seen = .null ↔ v = .null := by
  cases v <;> simp [PatchValue.seen]

private theorem seen_eq_number {v : PatchValue} {n : Int} : v.seen = .number n ↔ v = .number n := by
  cases v <;> simp [PatchValue.seen]

private theorem before_iff_seen (a b : PatchValue) : a.Before b ↔ a.seen.before b.seen = true := by
  cases a <;> cases b <;> simp [PatchValue.Before, PatchValue.seen, FieldValue.before]

private theorem moment?_seen (v : PatchValue) : v.seen.moment? = v.moment?.map Datetime.instant := by
  cases v <;> rfl

/-- Where the window can be told, it is that of the instants. -/
theorem effectiveWindow_instant {sale : Datetime} {opens closes : Option Datetime} {w : Datetime × Datetime}
    (h : effectiveWindow cfg sale opens closes = some w) :
    (w.1.instant, w.2.instant) = cfg.effectiveWindow
      ⟨sale.instant, opens.map Datetime.instant, closes.map Datetime.instant⟩ := by
  simp only [effectiveWindow, Option.bind_eq_some_iff, Option.map_eq_some_iff] at h
  obtain ⟨opensAt, hopens, closesAt, hcloses, rfl⟩ := h
  have hside : ∀ {side : Option Datetime} {seconds : Int} {bound : Datetime},
    side.or (sale.minus seconds) = some bound →
      bound.instant = (side.map Datetime.instant).getD (sale.instant - seconds * second) := by
    intro side seconds bound hbound
    cases side with
    | none => exact Datetime.instant_of_minus hbound
    | some d =>
      obtain rfl := Option.some.inj hbound
      rfl
  rw [QueueSettings.effectiveWindow, hside hopens, hside hcloses]

theorem windowOf_instant {fields : EventField → PatchValue} {w : Datetime × Datetime}
    (h : windowOf cfg fields = some w) :
    ∃ sale, (fields .saleStartsAt).seen.moment? = some sale ∧ (w.1.instant, w.2.instant) =
      cfg.effectiveWindow ⟨sale, (fields .queueOpensAt).seen.moment?, (fields .queueClosesAt).seen.moment?⟩ := by
  obtain ⟨sale, hsale, hwindow⟩ := Option.bind_eq_some_iff.1 h
  refine ⟨sale.instant, by rw [moment?_seen, hsale]; rfl, ?_⟩
  rw [effectiveWindow_instant hwindow, moment?_seen, moment?_seen]

/-- The window of the columns afterwards is that of the merged values, if it can be told. -/
private theorem upright_settled (h : Upright cfg (e.merged changes))
    (hsome : (windowOf cfg (e.settled changes)).isSome) :
    Upright cfg (e.settled changes) := by
  obtain ⟨w, hw, hlt⟩ := h
  obtain ⟨w', hw'⟩ := Option.isSome_iff_exists.1 hsome
  obtain ⟨sale, hsale, hinstants⟩ := windowOf_instant hw
  obtain ⟨sale', hsale', hinstants'⟩ := windowOf_instant hw'
  simp only [seen_settled] at hsale' hinstants'
  obtain rfl := Option.some.inj (hsale.symm.trans hsale')
  obtain ⟨h₁, h₂⟩ := Prod.mk.inj (hinstants'.trans hinstants.symm)
  exact ⟨w', hw', by rw [h₁, h₂]; exact hlt⟩

private theorem fits_of_accepts {f : EventField} {v : PatchValue} (h : f.accepts v = true) : f.fits v = true := by
  cases f <;> cases v <;> simp_all [EventField.accepts, EventField.fits]

/-- A merged value comes from the row or from the body. -/
private theorem merged_cases (e : PatchedEvent) (changes : List (EventField × PatchValue)) (f : EventField) :
    e.merged changes f = e.fields f ∧ changes.lookup f = none ∨
    changes.lookup f = some (e.merged changes f) := by
  rw [merged]
  cases h : changes.lookup f with
  | none => exact .inl ⟨rfl, rfl⟩
  | some v => exact .inr rfl

private theorem accepts_merged (hdata : data.Accepted) {f : EventField}
    (h : data.changes.lookup f = some (e.merged data.changes f)) :
    f.accepts (e.merged data.changes f) = true :=
  hdata.values (f, _) ((mem_iff_lookup hdata.nodup).2 h)

private theorem fits_merged (he : e.Constrained) (hdata : data.Accepted) (f : EventField) :
    f.fits (e.merged data.changes f) = true := by
  rcases merged_cases e data.changes f with ⟨h, -⟩ | h
  · rw [h]
    exact he.fits f
  · exact fits_of_accepts (accepts_merged hdata h)

/-- The fields of the diff are those whose value differs. -/
private theorem mem_diff_iff (h : (changes.map Prod.fst).Nodup) (f : EventField) :
    f ∈ (e.setChanges changes).2.map PatchDiff.field ↔ (e.fields f).same (e.merged changes f) = false := by
  rw [setChanges_diff h, List.map_map]
  simp only [List.mem_map, List.mem_filter, Function.comp_apply, Bool.not_eq_true', Prod.exists,
    exists_and_right, exists_eq_right]
  constructor
  · rintro ⟨v, hmem, hdiffer⟩
    rwa [merged, (mem_iff_lookup h).1 hmem]
  · intro hdiffer
    rcases merged_cases e changes f with ⟨hold, -⟩ | hnew
    · rw [hold, same_self] at hdiffer
      cases hdiffer
    · exact ⟨_, (mem_iff_lookup h).2 hnew, hdiffer⟩

private theorem soundEdit_of (h : (changes.map Prod.fst).Nodup) (hconstrained : (e.setChanges changes).1.Constrained)
    (hupright : Upright cfg (e.settled changes)) : SoundEdit cfg e (e.setChanges changes).1
    (e.setChanges changes).2 where
  constrained := hconstrained
  upright := by
    rw [show (e.setChanges changes).1.fields = e.settled changes from funext (setChanges_fields h)]
    exact hupright
  rest := setChanges_rest e changes
  nodup := by
    rw [setChanges_diff h, List.map_map]
    exact h.sublist (List.filter_sublist.map _)
  changed f := by
    rw [mem_diff_iff h, setChanges_fields h, ← Bool.not_eq_true, ← Bool.not_eq_true, same_iff_seen,
      same_iff_seen, seen_settled]
  kept f hf := by
    rw [mem_diff_iff h, Bool.not_eq_false] at hf
    rw [setChanges_fields h, settled, PatchValue.assign, if_pos hf]
  values d hd := by
    rw [setChanges_diff h, List.mem_map] at hd
    obtain ⟨⟨f, v⟩, hmem, rfl⟩ := hd
    obtain ⟨hmem, hdiffer⟩ := List.mem_filter.1 hmem
    refine ⟨rfl, ?_⟩
    have hmerged : e.merged changes f = v := by rw [merged, (mem_iff_lookup h).1 hmem, Option.getD_some]
    have hne : ¬(e.fields f).same v = true := by simpa using hdiffer
    rw [setChanges_fields h, settled, hmerged, PatchValue.assign, if_neg hne]

/-- The windows and the price source are those of the merged values. -/
private theorem constrained_setChanges (he : e.Constrained) (hdata : data.Accepted)
    (hprice : ¬((data.changes.lookup .priceCents).isSome ∧ e.venueId.isSome))
    (hshow : (e.merged data.changes .startsAt).Before (e.merged data.changes .endsAt))
    (hsale : (e.merged data.changes .saleStartsAt).Before (e.merged data.changes .saleEndsAt))
    (hqueue : Upright cfg (e.merged data.changes)) (hname : e.merged data.changes .name ≠ .null)
    (hvenue : e.merged data.changes .venue ≠ .null)
    (hcents : e.merged data.changes .priceCents ≠ .null ∨ e.venueId.isSome) :
    (e.setChanges data.changes).1.Constrained := by
  have hfields : (e.setChanges data.changes).1.fields = e.settled data.changes :=
    funext (setChanges_fields hdata.nodup)
  have hnull : ∀ f, e.settled data.changes f = .null ↔ e.merged data.changes f = .null := fun f => by
    rw [← seen_eq_null, seen_settled, seen_eq_null]
  have hbefore : ∀ f g, (e.merged data.changes f).Before (e.merged data.changes g) →
      ∀ a b, e.settled data.changes f = .moment a → e.settled data.changes g = .moment b → a.instant < b.instant := by
    intro f g h a b ha hb
    rw [before_iff_seen, ← seen_settled, ← seen_settled, ha, hb] at h
    simpa [PatchValue.seen, FieldValue.before] using h
  rw [setChanges_rest, hfields]
  refine ⟨fun f hf => ?_, fun f => ?_, he.seats, fun n hn => ?_, ?_, hbefore _ _ hshow, hbefore _ _ hsale,
    fun a b ha hb => ?_⟩
  · show e.settled data.changes f ≠ .null
    rw [Ne, hnull]
    obtain ⟨x₁, y₁, hx₁, hy₁, -⟩ := hshow
    obtain ⟨x₂, y₂, hx₂, hy₂, -⟩ := hsale
    cases f with
    | name => exact hname
    | venue => exact hvenue
    | startsAt => simp [hx₁]
    | endsAt => simp [hy₁]
    | saleStartsAt => simp [hx₂]
    | saleEndsAt => simp [hy₂]
    | priceCents => cases hf
    | queueOpensAt => cases hf
    | queueClosesAt => cases hf
  · show f.fits (e.settled data.changes f) = true
    rw [settled, PatchValue.assign]
    split
    · exact he.fits f
    · exact fits_merged he hdata f
  · have hmerged : e.merged data.changes .priceCents = .number n := by
      rw [← seen_eq_number, ← seen_settled, seen_eq_number]
      exact hn
    rcases merged_cases e data.changes .priceCents with ⟨hold, -⟩ | hnew
    · exact he.priceNonneg n (hold.symm.trans hmerged)
    · have haccepts := accepts_merged hdata hnew
      rw [hmerged] at haccepts
      simpa [EventField.accepts] using haccepts
  · show e.venueId = none ↔ e.settled data.changes .priceCents ≠ .null
    rw [Ne, hnull]
    constructor
    · intro hnone
      exact hcents.resolve_right (by simp [hnone])
    · intro hpriced
      -- a seated event has no price, and the body gives it none
      rcases merged_cases e data.changes .priceCents with ⟨hold, -⟩ | hnew
      · exact he.priceSource.2 (hold ▸ hpriced)
      · have hunseated : ¬e.venueId.isSome := fun hseated => hprice ⟨by rw [hnew]; rfl, hseated⟩
        simpa using hunseated
  · obtain ⟨w, hw, hlt⟩ := hqueue
    obtain ⟨sale, -, hinstants⟩ := windowOf_instant hw
    have hopens : (e.merged data.changes .queueOpensAt).seen.moment? = some a.instant := by
      rw [← seen_settled, show e.settled data.changes .queueOpensAt = .moment a from ha]
      rfl
    have hcloses : (e.merged data.changes .queueClosesAt).seen.moment? = some b.instant := by
      rw [← seen_settled, show e.settled data.changes .queueClosesAt = .moment b from hb]
      rfl
    rw [hopens, hcloses] at hinstants
    obtain ⟨h₁, h₂⟩ := Prod.mk.inj hinstants
    rw [h₁, h₂] at hlt
    exact hlt

/-- An edit that passes the checks is sound unless it sets a required column to null, or leaves a start of the
sale from which the window cannot be told. -/
private theorem soundEdit_iff (he : e.Constrained) (hdata : data.Accepted)
    (hprice : ¬((data.changes.lookup .priceCents).isSome ∧ e.venueId.isSome))
    (hshow : (e.merged data.changes .startsAt).Before (e.merged data.changes .endsAt))
    (hsale : (e.merged data.changes .saleStartsAt).Before (e.merged data.changes .saleEndsAt))
    (hqueue : Upright cfg (e.merged data.changes)) :
    SoundEdit cfg e (e.setChanges data.changes).1 (e.setChanges data.changes).2 ↔
      e.merged data.changes .name ≠ .null ∧ e.merged data.changes .venue ≠ .null ∧
        (e.merged data.changes .priceCents ≠ .null ∨ e.venueId.isSome) ∧
        (windowOf cfg (e.settled data.changes)).isSome := by
  constructor
  · intro h
    have hfields : (e.setChanges data.changes).1.fields = e.settled data.changes :=
      funext (setChanges_fields hdata.nodup)
    have hnull : ∀ f, (e.setChanges data.changes).1.fields f ≠ .null → e.merged data.changes f ≠ .null := by
      intro f hf
      rwa [hfields, Ne, ← seen_eq_null, seen_settled, seen_eq_null] at hf
    refine ⟨hnull _ (h.constrained.notNull .name rfl), hnull _ (h.constrained.notNull .venue rfl), ?_, ?_⟩
    · cases hvenue : e.venueId with
      | none =>
        refine .inl (hnull _ (h.constrained.priceSource.1 ?_))
        rw [setChanges_rest]
        exact hvenue
      | some venue => exact .inr rfl
    · obtain ⟨w, hw, -⟩ := h.upright
      rw [← hfields, hw]
      rfl
  · rintro ⟨hname, hvenue, hcents, hsome⟩
    exact soundEdit_of hdata.nodup (constrained_setChanges he hdata hprice hshow hsale hqueue hname hvenue hcents)
      (upright_settled hqueue hsome)

/-- For which requests the outcome is a domain error or a sound edit. -/
theorem applyEventUpdate_safe_iff (cfg : QueueSettings) (e : PatchedEvent) (data : EventPatch) (he : e.Constrained)
    (hdata : data.Accepted) : Safe cfg e data ↔ Tolerated cfg e data := by
  rw [safe_iff_passes, check, Tolerated]
  by_cases hversion : e.version = data.version
  swap
  · simp [Passes, PatchError.isDomain, hversion]
  by_cases hcancelled : e.status = .cancelled
  · simp [Passes, PatchError.isDomain, hversion, hcancelled]
  by_cases hempty : data.changes = []
  · have hsound : SoundEdit cfg e e [] ↔ Upright cfg e.fields := by
      refine ⟨SoundEdit.upright, fun hupright =>
        ⟨he, hupright, rfl, List.nodup_nil, fun f => ?_, fun _ _ => rfl, fun d hd => by cases hd⟩⟩
      simp [same_self]
    simpa [Passes, hversion, hcancelled, hempty, setChanges] using hsound
  by_cases hprice : (data.changes.lookup .priceCents).isSome ∧ e.venueId.isSome
  · simp [Passes, PatchError.isDomain, hversion, hcancelled, hempty, hprice]
  simp only [hversion, hcancelled, hempty, hprice, ne_eq, not_true, if_false, false_or, false_and,
    not_false_eq_true, true_and]
  rw [passes_bind, passes_checkOrder rfl rfl (fits_merged he hdata .startsAt)
    (fits_merged he hdata .endsAt), passes_bind,
    passes_checkOrder rfl rfl (fits_merged he hdata .saleStartsAt) (fits_merged he hdata .saleEndsAt),
    passes_checkQueue]
  -- the conditions agree check by check, and after the last one `soundEdit_iff` applies
  refine and_congr_right fun _ => and_congr_right fun _ => ?_
  by_cases hshow : (e.merged data.changes .startsAt).Before (e.merged data.changes .endsAt)
  swap
  · simp [hshow]
  simp only [hshow, not_true, false_or]
  refine and_congr_right fun _ => and_congr_right fun _ => ?_
  by_cases hsale : (e.merged data.changes .saleStartsAt).Before (e.merged data.changes .saleEndsAt)
  swap
  · simp [hsale]
  simp only [hsale, not_true, false_or]
  refine and_congr_right fun _ => ?_
  by_cases hqueue : Upright cfg (e.merged data.changes)
  · simp only [hqueue, not_true, false_or]
    exact soundEdit_iff he hdata hprice hshow hsale hqueue
  · simp [hqueue]

/-- Midnight in UTC, so many days after the first of January of year 1. -/
private def midnight (day : Nat) (h : day < 3652059) : Datetime :=
  ⟨day * 86400 * 1000000, 0, by unfold datetimeSpan; omega⟩

/-- An event on sale from the first to the tenth of June 2025. -/
private def concert : PatchedEvent where
  id := 7
  version := 1
  status := .draft
  venueId := none
  totalSeats := 100
  fields
    | .name => .text "Concert"
    | .venue => .text "Hall"
    | .startsAt => .moment (midnight 739432 (by decide))
    | .endsAt => .moment (midnight 739433 (by decide))
    | .saleStartsAt => .moment (midnight 739402 (by decide))
    | .saleEndsAt => .moment (midnight 739411 (by decide))
    | .priceCents => .number 1000
    | .queueOpensAt | .queueClosesAt => .null

private theorem concert_constrained : concert.Constrained where
  notNull f hf := by cases f <;> simp_all [concert, EventField.nullable]
  fits f := by cases f <;> decide
  seats := by decide
  priceNonneg n hn := by
    obtain rfl := PatchValue.number.inj hn
    decide
  priceSource := by simp [concert]
  showWindow a b ha hb := by
    obtain rfl := PatchValue.moment.inj ha
    obtain rfl := PatchValue.moment.inj hb
    decide
  saleWindow a b ha hb := by
    obtain rfl := PatchValue.moment.inj ha
    obtain rfl := PatchValue.moment.inj hb
    decide
  queueWindow a b ha := by cases ha

/-- A new name for the concert. -/
private def newName : EventPatch := ⟨1, [(.name, .text "Gala")]⟩

theorem applyEventUpdate_safe_renaming : Safe {} concert newName ∧
    (applyEventUpdate {} concert newName).1.fields .name = .text "Gala" := by
  have hdata : newName.Accepted := ⟨by decide, by decide, by decide⟩
  have hwindow : windowOf {} (concert.merged newName.changes) =
      some (⟨739402 * 86400 * 1000000 - 600 * 1000000, 0, by decide⟩,
        ⟨739402 * 86400 * 1000000 - 30 * 1000000, 0, by decide⟩) := by
    decide +kernel
  refine ⟨(applyEventUpdate_safe_iff {} concert newName concert_constrained hdata).2 ?_, by decide +kernel⟩
  refine .inr (.inr (.inr ⟨by decide,
    .inr ⟨by decide, by decide, .inr ⟨by decide, by decide, .inr ⟨by rw [hwindow]; rfl, .inr ?_⟩⟩⟩⟩))
  exact ⟨by decide, by decide, .inl (by decide), by decide +kernel⟩

/-- A null for the name passes every check and is written. -/
theorem applyEventUpdate_erases_name :
    ¬∀ (cfg : QueueSettings) (e : PatchedEvent) (data : EventPatch), e.Constrained → data.Accepted →
      Safe cfg e data := by
  intro hclaim
  have hsafe := hclaim {} concert ⟨1, [(.name, .null)]⟩ concert_constrained ⟨by decide, by decide, by decide⟩
  have hcheck : check {} concert ⟨1, [(.name, .null)]⟩ = .ok () := by rfl
  rw [safe_iff_passes, hcheck] at hsafe
  exact hsafe.constrained.notNull .name rfl rfl

end PatchedEvent

end Ticketing
