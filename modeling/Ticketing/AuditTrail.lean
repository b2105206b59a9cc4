import Ticketing.Base.Exec
import Ticketing.Base.Hash

/-!
# The audit trail

Audit events are appended to a Redis stream and moved to `audit_logs` by `consume_audit_events`.  A pass first
claims what idles in the pending list of the consumer group, then reads batches of new entries.  A batch is
inserted in one transaction and, when that fails, row by row; what was written is acknowledged, what cannot be
a row goes to the dead-letter stream, and what failed stays pending.

Every command and every transaction is a separate step, any number of passes run at a time, each may stop
after any step, and an insert may fail, succeed, or succeed and still be reported as failed.  The id of an
entry is its position in the stream, which is not trimmed.  `audit_never_lost`: an entry is a row, a dead
letter or not acknowledged; and every row and dead letter comes from an entry.
-/

namespace Ticketing

open Exec

/-! ### Entries and rows -/

abbrev AuditFields := Hash String String

/-- The id of a stream entry and its fields. -/
abbrev AuditEntry := Nat × AuditFields

/-- A row of `audit_logs`; `J` is the type of JSON values. -/
structure AuditLog (J : Type) where
  eventType : String
  actorUserId : Option Int
  actorIp : Option String
  targetType : Option String
  targetId : Option String
  payload : J
  success : Bool
  errorCode : Option String
  createdAt : Option Int
deriving DecidableEq

/-- The conversions of the standard library that `_audit_row` uses; `none` is an exception. -/
structure AuditLib (J : Type) where
  int : String → Option Int
  jsonLoads : String → Option J
  emptyObject : J
  fromisoformat : String → Option Int

variable {J : Type}

/-- `fields.get(key) or None`. -/
def AuditFields.get (fields : AuditFields) (key : String) : Option String := (AList.lookup key fields).filter (· ≠ "")

/-- A conversion of a field that may be missing or empty. -/
def AuditFields.convert {α : Type} (fields : AuditFields) (key : String) (conv : String → Option α) :
    Option (Option α) :=
  match AuditFields.get fields key with
  | none => some none
  | some v => (conv v).map some

/-- `_audit_row`; `none` is the exception of a malformed entry. -/
def auditRow (lib : AuditLib J) (fields : AuditFields) : Option (AuditLog J) := do
  let eventType ← AList.lookup "event_type" fields
  let actorUserId ← AuditFields.convert fields "actor_user_id" lib.int
  let payload ← AuditFields.convert fields "payload" lib.jsonLoads
  let createdAt ← AuditFields.convert fields "created_at" lib.fromisoformat
  return {
    eventType
    actorUserId
    actorIp := AuditFields.get fields "actor_ip"
    targetType := AuditFields.get fields "target_type"
    targetId := AuditFields.get fields "target_id"
    payload := payload.getD lib.emptyObject
    success := AList.lookup "success" fields = some "1"
    errorCode := AuditFields.get fields "error_code"
    createdAt }

/-- The fields of a dead letter. -/
def deadAudit (id : Nat) (reason : String) (fields : AuditFields) : AuditFields :=
  AList.insert "_original_id" (toString id) (AList.insert "_dead_reason" reason fields)

/-- An entry of the dead-letter stream, with the entry it was made from. -/
structure AuditDeadLetter where
  original : Nat
  fields : AuditFields

/-! ### Passes -/

def auditBatch : Nat := 1000

def auditMaxBatches : Nat := 50

/-- The point a pass has reached.  `batches` counts the batches it may still read. -/
inductive AuditPhase where
  | starting
  /-- The loop over the pending entries, each with its delivery count. -/
  | reclaiming (pending : List (Nat × Nat)) (claimable : List AuditEntry)
  /-- `_dead_letter_audit`: before the `XADD`, or between it and the `XACK`; then the pass goes on with `rest`. -/
  | deadLettering (entry : AuditEntry) (reason : String) (added : Bool) (rest : AuditPhase)
  | writing (prepared unwritable : List AuditEntry) (batches : Nat)
  | rowByRow (todo : List AuditEntry) (acked : List Nat) (unwritable : List AuditEntry) (batches : Nat)
  | acking (acked : List Nat) (batches : Nat)
  | ready (batches : Nat)
  | ended

namespace AuditPhase

/-- The next turn of the loop of `consume_audit_events`. -/
def next : Nat → AuditPhase
  | 0 => ended
  | batches + 1 => ready (batches + 1)

/-- After the inserts: the malformed entries are dead-lettered one by one, then the written ones are acknowledged. -/
def settle (unwritable : List AuditEntry) (acked : List Nat) (batches : Nat) : AuditPhase :=
  unwritable.foldr (fun entry rest => deadLettering entry "malformed" false rest) (acking acked batches)

/-- The start of `_write_audit_rows`: entries that cannot be a row are set aside. -/
def write (lib : AuditLib J) (entries : List AuditEntry) (batches : Nat) : AuditPhase :=
  let prepared := entries.filter fun e => (auditRow lib e.2).isSome
  let unwritable := entries.filter fun e => (auditRow lib e.2).isNone
  if prepared = [] then settle unwritable [] batches else writing prepared unwritable batches

/-- The loop of `_reclaim_audit_entries`, and what comes after it. -/
def reclaim (lib : AuditLib J) (pending : List (Nat × Nat)) (claimable : List AuditEntry) : AuditPhase :=
  if pending = [] then
    if claimable = [] then next auditMaxBatches else write lib claimable auditMaxBatches
  else reclaiming pending claimable

end AuditPhase

/-- The stream, how many entries were delivered, the pending list of the group with delivery counts, the
committed rows with the entry each was made from, the dead letters and the passes. -/
structure AuditWorld (J : Type) where
  stream : List AuditFields := []
  cursor : Nat := 0
  pel : List (Nat × Nat) := []
  logs : List (Nat × AuditLog J) := []
  dead : List AuditDeadLetter := []
  passes : List AuditPhase := []

inductive AuditAct where
  | emit (fields : AuditFields)
  | start
  /-- `XPENDING`: the entries that have idled long enough. -/
  | pending (i : Nat) (idle : List Nat)
  /-- `XCLAIM` of the next pending entry; it may come back empty. -/
  | claim (i : Nat) (claimed : Bool)
  /-- The transaction of the whole batch. -/
  | insertBatch (i : Nat) (committed raised : Bool)
  | insertRow (i : Nat) (committed raised : Bool)
  | addDead (i : Nat)
  | ackDead (i : Nat)
  | ack (i : Nat)
  /-- `XREADGROUP`. -/
  | read (i : Nat)
  /-- The pass stops where it is. -/
  | crash (i : Nat)

namespace AuditWorld

def setPass (w : AuditWorld J) (i : Nat) (phase : AuditPhase) : AuditWorld J :=
  { w with passes := w.passes.set i phase }

/-- The rows made from entries. -/
def rowsOf (lib : AuditLib J) (entries : List AuditEntry) : List (Nat × AuditLog J) :=
  entries.filterMap fun e => (auditRow lib e.2).map fun row => (e.1, row)

/-- `XACK`. -/
def xack (w : AuditWorld J) (ids : List Nat) : AuditWorld J := { w with pel := w.pel.filter fun p => p.1 ∉ ids }

/-- `XCLAIM` delivers the entry once more; nothing comes back when it is not pending. -/
def claim (w : AuditWorld J) (lib : AuditLib J) (maxDeliveries i : Nat) (claimed : Bool) :
    AuditPhase → Option (AuditWorld J)
  | .reclaiming ((id, times) :: pending) claimable =>
    if claimed then
      if w.pel.any fun p => p.1 = id then
        w.stream[id]?.map fun fields =>
          let rest := if maxDeliveries ≤ times then
              .deadLettering (id, fields) (toString times ++ " deliveries exhausted") false
                (.reclaim lib pending claimable)
            else .reclaim lib pending (claimable ++ [(id, fields)])
          { w.setPass i rest with pel := w.pel.map fun p => if p.1 = id then (p.1, p.2 + 1) else p }
      else none
    else some (w.setPass i (.reclaim lib pending claimable))
  | _ => none

/-- The batch in one transaction; a reported failure leads to one transaction for each row. -/
def insertBatch (w : AuditWorld J) (lib : AuditLib J) (i : Nat) (committed raised : Bool) :
    AuditPhase → Option (AuditWorld J)
  | .writing prepared unwritable batches =>
    if committed || raised then
      let phase := if raised then .rowByRow prepared [] unwritable batches
        else .settle unwritable (prepared.map Prod.fst) batches
      some { w.setPass i phase with logs := if committed then w.logs ++ rowsOf lib prepared else w.logs }
    else none
  | _ => none

def insertRow (w : AuditWorld J) (lib : AuditLib J) (i : Nat) (committed raised : Bool) :
    AuditPhase → Option (AuditWorld J)
  | .rowByRow (e :: todo) acked unwritable batches =>
    if committed || raised then
      let acked := if raised then acked else acked ++ [e.1]
      let phase := if todo = [] then .settle unwritable acked batches else .rowByRow todo acked unwritable batches
      some { w.setPass i phase with logs := if committed then w.logs ++ rowsOf lib [e] else w.logs }
    else none
  | _ => none

def addDead (w : AuditWorld J) (i : Nat) : AuditPhase → Option (AuditWorld J)
  | .deadLettering e reason false rest =>
    some { w.setPass i (.deadLettering e reason true rest) with dead := w.dead ++ [⟨e.1, deadAudit e.1 reason e.2⟩] }
  | _ => none

def ackDead (w : AuditWorld J) (i : Nat) : AuditPhase → Option (AuditWorld J)
  | .deadLettering e _ true rest => some ((w.xack [e.1]).setPass i rest)
  | _ => none

def ack (w : AuditWorld J) (i : Nat) : AuditPhase → Option (AuditWorld J)
  | .acking acked batches => some ((w.xack acked).setPass i (.next batches))
  | _ => none

/-- A batch of entries that were never delivered; a short batch is the last one of the pass. -/
def read (w : AuditWorld J) (lib : AuditLib J) (i : Nat) : AuditPhase → Option (AuditWorld J)
  | .ready batches =>
    let entries := ((w.stream.drop w.cursor).take auditBatch).zipIdx w.cursor |>.map Prod.swap
    let left := if entries.length < auditBatch then 0 else batches - 1
    some { w.setPass i (if entries = [] then .ended else .write lib entries left) with
      cursor := w.cursor + entries.length
      pel := w.pel ++ entries.map fun e => (e.1, 1) }
  | _ => none

def step (lib : AuditLib J) (maxDeliveries : Nat) (w : AuditWorld J) : AuditAct → Option (AuditWorld J)
  | .emit fields => some { w with stream := w.stream ++ [fields] }
  | .start => some { w with passes := w.passes ++ [.starting] }
  | .pending i idle =>
    w.passes[i]?.bind fun
      | .starting => some (w.setPass i (.reclaim lib ((w.pel.filter fun p => p.1 ∈ idle).take 500) []))
      | _ => none
  | .claim i claimed => w.passes[i]?.bind (w.claim lib maxDeliveries i claimed)
  | .insertBatch i committed raised => w.passes[i]?.bind (w.insertBatch lib i committed raised)
  | .insertRow i committed raised => w.passes[i]?.bind (w.insertRow lib i committed raised)
  | .addDead i => w.passes[i]?.bind (w.addDead i)
  | .ackDead i => w.passes[i]?.bind (w.ackDead i)
  | .ack i => w.passes[i]?.bind (w.ack i)
  | .read i => w.passes[i]?.bind (w.read lib i)
  | .crash i => w.passes[i]?.map fun _ => w.setPass i .ended

/-! ### What the passes carry along -/

/-- The entry is in the stream. -/
def Has (w : AuditWorld J) (e : AuditEntry) : Prop := w.stream[e.1]? = some e.2

/-- Some row was made from the entry. -/
def Logged (w : AuditWorld J) (id : Nat) : Prop := ∃ row, (id, row) ∈ w.logs

/-- Some dead letter was made from the entry. -/
def Buried (w : AuditWorld J) (id : Nat) : Prop := ∃ d ∈ w.dead, d.original = id

/-- Nothing is taken back from the stream, the table and the dead letters. -/
structure Grows (w w' : AuditWorld J) : Prop where
  has : ∀ e, w.Has e → w'.Has e
  logged : ∀ id, w.Logged id → w'.Logged id
  buried : ∀ id, w.Buried id → w'.Buried id

theorem Grows.of_eq {w w' : AuditWorld J} (hstream : w'.stream = w.stream) (hlogs : w'.logs = w.logs)
    (hdead : w'.dead = w.dead) : w.Grows w' := by
  refine ⟨fun e h => ?_, fun id h => ?_, fun id h => ?_⟩
  · rw [Has, hstream]
    exact h
  · rw [Logged, hlogs]
    exact h
  · rw [Buried, hdead]
    exact h

end AuditWorld

namespace AuditPhase

variable {lib : AuditLib J} {w w' : AuditWorld J}

/-- Entries in the hands of a pass are in the stream, those it is about to acknowledge are rows or dead
letters, and those it is about to insert can be rows. -/
def Ok (lib : AuditLib J) (w : AuditWorld J) : AuditPhase → Prop
  | reclaiming _ claimable => ∀ e ∈ claimable, w.Has e
  | deadLettering entry _ added rest => w.Has entry ∧ (added = true → w.Buried entry.1) ∧ Ok lib w rest
  | writing prepared unwritable _ =>
    (∀ e ∈ prepared, w.Has e ∧ (auditRow lib e.2).isSome = true) ∧ ∀ e ∈ unwritable, w.Has e
  | rowByRow todo acked unwritable _ =>
    (∀ e ∈ todo, w.Has e ∧ (auditRow lib e.2).isSome = true) ∧ (∀ id ∈ acked, w.Logged id) ∧ ∀ e ∈ unwritable, w.Has e
  | acking acked _ => ∀ id ∈ acked, w.Logged id
  | starting | ready _ | ended => True

private theorem Ok.grow {phase : AuditPhase} (h : phase.Ok lib w) (hgrow : w.Grows w') : phase.Ok lib w' := by
  induction phase with
  | starting | ready batches | ended => trivial
  | reclaiming pending claimable => exact fun e he => hgrow.has e (h e he)
  | deadLettering entry reason added rest ih => exact ⟨hgrow.has _ h.1, fun ha => hgrow.buried _ (h.2.1 ha), ih h.2.2⟩
  | writing prepared unwritable batches =>
    exact ⟨fun e he => ⟨hgrow.has e (h.1 e he).1, (h.1 e he).2⟩, fun e he => hgrow.has e (h.2 e he)⟩
  | rowByRow todo acked unwritable batches =>
    exact ⟨fun e he => ⟨hgrow.has e (h.1 e he).1, (h.1 e he).2⟩, fun id hid => hgrow.logged id (h.2.1 id hid),
      fun e he => hgrow.has e (h.2.2 e he)⟩
  | acking acked batches => exact fun id hid => hgrow.logged id (h id hid)

private theorem ok_next (batches : Nat) : (next batches).Ok lib w := by
  cases batches <;> trivial

private theorem ok_settle {unwritable : List AuditEntry} {acked : List Nat} {batches : Nat}
    (hun : ∀ e ∈ unwritable, w.Has e) (hacked : ∀ id ∈ acked, w.Logged id) :
    (settle unwritable acked batches).Ok lib w := by
  induction unwritable with
  | nil => exact hacked
  | cons e unwritable ih =>
    exact ⟨hun e (List.mem_cons_self ..), fun h => absurd h Bool.false_ne_true, ih fun e' he' =>
      hun e' (List.mem_cons_of_mem _ he')⟩

private theorem ok_write {entries : List AuditEntry} {batches : Nat} (h : ∀ e ∈ entries, w.Has e) :
    (write lib entries batches).Ok lib w := by
  have hun : ∀ e ∈ entries.filter (fun e => (auditRow lib e.2).isNone), w.Has e :=
    fun e he => h e (List.mem_filter.1 he).1
  unfold write
  simp only
  split
  · exact ok_settle hun fun id hid => absurd hid List.not_mem_nil
  · refine ⟨fun e he => ?_, hun⟩
    obtain ⟨hmem, hrow⟩ := List.mem_filter.1 he
    exact ⟨h e hmem, hrow⟩

private theorem ok_reclaim {pending : List (Nat × Nat)} {claimable : List AuditEntry} (h : ∀ e ∈ claimable, w.Has e) :
    (reclaim lib pending claimable).Ok lib w := by
  unfold reclaim
  split
  · split
    · exact ok_next _
    · exact ok_write h
  · exact h

end AuditPhase

/-! ### Nothing is lost -/

namespace AuditWorld

/-- The entry is a row, a dead letter, or not acknowledged: pending or not yet delivered. -/
def Kept (w : AuditWorld J) (id : Nat) : Prop := w.Logged id ∨ w.Buried id ∨ (∃ n, (id, n) ∈ w.pel) ∨ w.cursor ≤ id

/-- No entry is lost, every row and dead letter comes from an entry, and the passes carry along what they should. -/
structure Sound (lib : AuditLib J) (w : AuditWorld J) : Prop where
  cursor_le : w.cursor ≤ w.stream.length
  kept : ∀ id < w.stream.length, w.Kept id
  rows : ∀ id row, (id, row) ∈ w.logs → ∃ fields, w.Has (id, fields) ∧ auditRow lib fields = some row
  letters : ∀ d ∈ w.dead, ∃ fields reason, w.Has (d.original, fields) ∧ d.fields = deadAudit d.original reason fields
  ok : ∀ (i : Nat) (phase : AuditPhase), w.passes[i]? = some phase → phase.Ok lib w

namespace Sound

variable {lib : AuditLib J} {maxDeliveries : Nat} {w w' : AuditWorld J} {i : Nat} {phase : AuditPhase}

theorem start : Sound lib {} := by
  constructor <;> simp

private theorem setPass (h : w.Sound lib) (hphase : phase.Ok lib w) : (w.setPass i phase).Sound lib := by
  have hgrow : w.Grows (w.setPass i phase) := .of_eq rfl rfl rfl
  refine ⟨h.cursor_le, h.kept, h.rows, h.letters, fun j phase' hj => ?_⟩
  simp only [AuditWorld.setPass, List.getElem?_set] at hj
  split at hj
  · split at hj
    · obtain rfl := Option.some.inj hj
      exact hphase.grow hgrow
    · cases hj
  · exact (h.ok j phase' hj).grow hgrow

/-- `XACK` of entries that are rows or dead letters. -/
private theorem xack (h : w.Sound lib) {ids : List Nat} (hids : ∀ id ∈ ids, w.Logged id ∨ w.Buried id) :
    (w.xack ids).Sound lib := by
  refine ⟨h.cursor_le, fun id hid => ?_, h.rows, h.letters, fun j phase' hj => (h.ok j phase' hj).grow
    (.of_eq rfl rfl rfl)⟩
  by_cases hmem : id ∈ ids
  · exact (hids id hmem).elim .inl fun hb => .inr (.inl hb)
  · rcases h.kept id hid with hk | hk | ⟨n, hn⟩ | hk
    · exact .inl hk
    · exact .inr (.inl hk)
    · refine .inr (.inr (.inl ⟨n, List.mem_filter.2 ⟨hn, ?_⟩⟩))
      simpa using hmem
    · exact .inr (.inr (.inr hk))

/-- Rows made from entries are committed. -/
private theorem insertRows (h : w.Sound lib) (entries : List AuditEntry) (hentries : ∀ e ∈ entries, w.Has e) :
    Sound lib { w with logs := w.logs ++ rowsOf lib entries } ∧
    w.Grows { w with logs := w.logs ++ rowsOf lib entries } := by
  have hgrow : w.Grows { w with logs := w.logs ++ rowsOf lib entries } :=
    ⟨fun _ he => he, fun _ ⟨row, hrow⟩ => ⟨row, List.mem_append_left _ hrow⟩, fun _ hb => hb⟩
  refine ⟨⟨h.cursor_le, fun id hid => ?_, fun id row hrow => ?_, h.letters,
    fun j phase' hj => (h.ok j phase' hj).grow hgrow⟩, hgrow⟩
  · exact (h.kept id hid).imp_left (hgrow.logged id)
  · rcases List.mem_append.1 hrow with hold | hnew
    · exact h.rows id row hold
    · obtain ⟨e, he, heq⟩ := List.mem_filterMap.1 hnew
      obtain ⟨row', hrow', hpair⟩ := Option.map_eq_some_iff.1 heq
      obtain ⟨rfl, rfl⟩ := Prod.mk.inj hpair
      exact ⟨e.2, hentries e he, hrow'⟩

private theorem logged_of_rowsOf {entries : List AuditEntry} {e : AuditEntry} (he : e ∈ entries)
    (hrow : (auditRow lib e.2).isSome = true) : Logged { w with logs := w.logs ++ rowsOf lib entries } e.1 := by
  obtain ⟨row, hrow⟩ := Option.isSome_iff_exists.1 hrow
  refine ⟨row, List.mem_append_right _ (List.mem_filterMap.2 ⟨e, he, ?_⟩)⟩
  rw [hrow]
  rfl

private theorem claimStep (h : w.Sound lib) (hphase : phase.Ok lib w) {claimed : Bool}
    (hstep : w.claim lib maxDeliveries i claimed phase = some w') : w'.Sound lib := by
  cases phase with
  | reclaiming pending claimable =>
    cases pending with
    | nil => cases hstep
    | cons p pending =>
      obtain ⟨id, times⟩ := p
      simp only [AuditWorld.claim] at hstep
      split at hstep
      · split at hstep
        · obtain ⟨fields, hfields, rfl⟩ := Option.map_eq_some_iff.1 hstep
          -- one more delivery changes a count and nothing else
          have hclaimed : Sound lib { w with pel := w.pel.map fun p => if p.1 = id then (p.1, p.2 + 1) else p } := by
            refine ⟨h.cursor_le, fun k hk => ?_, h.rows, h.letters, fun j phase' hj =>
              (h.ok j phase' hj).grow (.of_eq rfl rfl rfl)⟩
            rcases h.kept k hk with hk | hk | ⟨n, hn⟩ | hk
            · exact .inl hk
            · exact .inr (.inl hk)
            · by_cases hkid : k = id
              · exact .inr (.inr (.inl ⟨n + 1, List.mem_map.2 ⟨(k, n), hn, by simp [hkid]⟩⟩))
              · exact .inr (.inr (.inl ⟨n, List.mem_map.2 ⟨(k, n), hn, by simp [hkid]⟩⟩))
            · exact .inr (.inr (.inr hk))
          refine hclaimed.setPass ?_
          split
          · exact ⟨hfields, fun hf => absurd hf Bool.false_ne_true, AuditPhase.ok_reclaim hphase⟩
          · refine AuditPhase.ok_reclaim fun e he => ?_
            rcases List.mem_append.1 he with he | he
            · exact hphase e he
            · obtain rfl := List.mem_singleton.1 he
              exact hfields
        · cases hstep
      · obtain rfl := Option.some.inj hstep
        exact h.setPass (AuditPhase.ok_reclaim hphase)
  | _ => cases hstep

private theorem insertBatchStep (h : w.Sound lib) (hphase : phase.Ok lib w) {committed raised : Bool}
    (hstep : w.insertBatch lib i committed raised phase = some w') : w'.Sound lib := by
  cases phase with
  | writing prepared unwritable batches =>
    obtain ⟨hprepared, hun⟩ := hphase
    simp only [AuditWorld.insertBatch] at hstep
    split at hstep
    · rename_i houtcome
      obtain rfl := Option.some.inj hstep
      obtain ⟨hrows, hgrow⟩ := h.insertRows prepared fun e he => (hprepared e he).1
      have hrowByRow : (AuditPhase.rowByRow prepared [] unwritable batches).Ok lib w :=
        ⟨hprepared, fun _ hid => absurd hid List.not_mem_nil, hun⟩
      cases committed with
      | false =>
        cases raised with
        | false => cases houtcome
        | true => exact h.setPass hrowByRow
      | true =>
        refine hrows.setPass ?_
        cases raised with
        | true => exact hrowByRow.grow hgrow
        | false =>
          refine AuditPhase.ok_settle hun fun id hid => ?_
          obtain ⟨e, he, rfl⟩ := List.mem_map.1 hid
          exact logged_of_rowsOf he (hprepared e he).2
    · cases hstep
  | _ => cases hstep

private theorem insertRowStep (h : w.Sound lib) (hphase : phase.Ok lib w) {committed raised : Bool}
    (hstep : w.insertRow lib i committed raised phase = some w') : w'.Sound lib := by
  cases phase with
  | rowByRow todo acked unwritable batches =>
    cases todo with
    | nil => cases hstep
    | cons e todo =>
      obtain ⟨htodo, hacked, hun⟩ := hphase
      have he := htodo e (List.mem_cons_self ..)
      have hrest : ∀ e' ∈ todo, w.Has e' ∧ (auditRow lib e'.2).isSome = true := fun e' he' =>
        htodo e' (List.mem_cons_of_mem _ he')
      simp only [AuditWorld.insertRow] at hstep
      split at hstep
      · rename_i houtcome
        obtain rfl := Option.some.inj hstep
        -- whatever is left to do, the pass goes on with entries of the stream and acknowledges rows only
        have hgo : ∀ {v : AuditWorld J} {ids : List Nat}, w.Grows v → (∀ id ∈ ids, v.Logged id) →
            (if todo = [] then AuditPhase.settle unwritable ids batches
              else AuditPhase.rowByRow todo ids unwritable batches).Ok lib v := by
          intro v ids hgrow hids
          have hun' : ∀ e ∈ unwritable, v.Has e := fun e he => hgrow.has e (hun e he)
          split
          · exact AuditPhase.ok_settle hun' hids
          · exact ⟨fun e' he' => ⟨hgrow.has e' (hrest e' he').1, (hrest e' he').2⟩, hids, hun'⟩
        obtain ⟨hrows, hgrow⟩ := h.insertRows [e] fun e' he' => by
          obtain rfl := List.mem_singleton.1 he'
          exact he.1
        cases committed with
        | false =>
          cases raised with
          | false => cases houtcome
          | true => exact h.setPass (hgo (.of_eq rfl rfl rfl) hacked)
        | true =>
          refine hrows.setPass (hgo hgrow fun id hid => ?_)
          cases raised with
          | true => exact hgrow.logged id (hacked id hid)
          | false =>
            rcases List.mem_append.1 hid with hid | hid
            · exact hgrow.logged id (hacked id hid)
            · obtain rfl := List.mem_singleton.1 hid
              exact logged_of_rowsOf (List.mem_singleton.2 rfl) he.2
      · cases hstep
  | _ => cases hstep

private theorem addDeadStep (h : w.Sound lib) (hphase : phase.Ok lib w) (hstep : w.addDead i phase = some w') :
    w'.Sound lib := by
  cases phase with
  | deadLettering e reason added rest =>
    cases added with
    | true => cases hstep
    | false =>
      obtain rfl := Option.some.inj hstep
      obtain ⟨hhas, -, hrest⟩ := hphase
      have hgrow : w.Grows { w with dead := w.dead ++ [⟨e.1, deadAudit e.1 reason e.2⟩] } :=
        ⟨fun _ he => he, fun _ hl => hl, fun _ ⟨d, hd, hd'⟩ => ⟨d, List.mem_append_left _ hd, hd'⟩⟩
      have hadded : Sound lib { w with dead := w.dead ++ [⟨e.1, deadAudit e.1 reason e.2⟩] } := by
        refine ⟨h.cursor_le, fun id hid => ?_, h.rows, fun d hd => ?_, fun j phase' hj =>
          (h.ok j phase' hj).grow hgrow⟩
        · exact (h.kept id hid).imp_right (Or.imp_left (hgrow.buried id))
        · rcases List.mem_append.1 hd with hd | hd
          · exact h.letters d hd
          · obtain rfl := List.mem_singleton.1 hd
            exact ⟨e.2, reason, hhas, rfl⟩
      exact hadded.setPass ⟨hhas, fun _ => ⟨_, List.mem_append_right _ (List.mem_singleton.2 rfl), rfl⟩,
        hrest.grow hgrow⟩
  | _ => cases hstep

private theorem ackDeadStep (h : w.Sound lib) (hphase : phase.Ok lib w) (hstep : w.ackDead i phase = some w') :
    w'.Sound lib := by
  cases phase with
  | deadLettering e reason added rest =>
    cases added with
    | false => cases hstep
    | true =>
      obtain rfl := Option.some.inj hstep
      obtain ⟨-, hburied, hrest⟩ := hphase
      refine (h.xack fun id hid => ?_).setPass (hrest.grow (.of_eq rfl rfl rfl))
      obtain rfl := List.mem_singleton.1 hid
      exact .inr (hburied rfl)
  | _ => cases hstep

private theorem ackStep (h : w.Sound lib) (hphase : phase.Ok lib w) (hstep : w.ack i phase = some w') :
    w'.Sound lib := by
  cases phase with
  | acking acked batches =>
    obtain rfl := Option.some.inj hstep
    exact (h.xack fun id hid => .inl (hphase id hid)).setPass (AuditPhase.ok_next batches)
  | _ => cases hstep

/-- What a batch reads: consecutive entries from the cursor on. -/
private theorem mem_batch {stream : List AuditFields} {cursor n : Nat} {e : AuditEntry} :
    e ∈ (((stream.drop cursor).take n).zipIdx cursor).map Prod.swap ↔
      (cursor ≤ e.1 ∧ e.1 < cursor + n) ∧ stream[e.1]? = some e.2 := by
  obtain ⟨id, fields⟩ := e
  have hswap : (id, fields) ∈ (((stream.drop cursor).take n).zipIdx cursor).map Prod.swap ↔
      (fields, id) ∈ ((stream.drop cursor).take n).zipIdx cursor := by
    rw [List.mem_map]
    constructor
    · rintro ⟨⟨f, k⟩, hmem, heq⟩
      obtain ⟨rfl, rfl⟩ := Prod.mk.inj heq
      exact hmem
    · exact fun hmem => ⟨_, hmem, rfl⟩
  rw [hswap, List.mem_zipIdx_iff_le_and_getElem?_sub, List.getElem?_take, and_assoc]
  refine and_congr_right fun hle => ?_
  simp only at hle ⊢
  rw [List.getElem?_drop, show cursor + (id - cursor) = id by omega]
  by_cases hlt : id - cursor < n
  · rw [if_pos hlt]
    exact (and_iff_right (by omega)).symm
  · rw [if_neg hlt]
    exact iff_of_false (by simp) fun h => hlt (by omega)

private theorem readStep (h : w.Sound lib) (hstep : w.read lib i phase = some w') : w'.Sound lib := by
  cases phase with
  | ready batches =>
    obtain rfl := Option.some.inj hstep
    set entries := (((w.stream.drop w.cursor).take auditBatch).zipIdx w.cursor).map Prod.swap with hentries
    have hlen : entries.length = min auditBatch (w.stream.length - w.cursor) := by simp [hentries]
    have hread : Sound lib { w with
        cursor := w.cursor + entries.length, pel := w.pel ++ entries.map fun e => (e.1, 1) } := by
      have hcursor := h.cursor_le
      refine ⟨by simp only; omega, fun id hid => ?_, h.rows, h.letters,
        fun j phase' hj => (h.ok j phase' hj).grow (.of_eq rfl rfl rfl)⟩
      rcases h.kept id hid with hk | hk | ⟨n, hn⟩ | hk
      · exact .inl hk
      · exact .inr (.inl hk)
      · exact .inr (.inr (.inl ⟨n, List.mem_append_left _ hn⟩))
      · -- what was not delivered before is now pending, or still ahead
        by_cases hahead : w.cursor + entries.length ≤ id
        · exact .inr (.inr (.inr hahead))
        · have hmem : (id, w.stream[id]) ∈ entries :=
            mem_batch.2 ⟨⟨hk, by simp only; omega⟩, List.getElem?_eq_getElem hid⟩
          exact .inr (.inr (.inl ⟨1, List.mem_append_right _ (List.mem_map.2 ⟨_, hmem, rfl⟩)⟩))
    refine hread.setPass ?_
    split
    · trivial
    · exact AuditPhase.ok_write fun e he => (mem_batch.1 he).2
  | _ => cases hstep

private theorem emitStep (h : w.Sound lib) (fields : AuditFields) :
    Sound lib { w with stream := w.stream ++ [fields] } := by
  have hgrow : w.Grows { w with stream := w.stream ++ [fields] } := by
    refine ⟨fun e he => ?_, fun _ hl => hl, fun _ hb => hb⟩
    obtain ⟨hlt, -⟩ := List.getElem?_eq_some_iff.1 he
    rw [Has, List.getElem?_append_left hlt]
    exact he
  have hcursor := h.cursor_le
  refine ⟨by simp only [List.length_append]; omega, fun id hid => ?_, fun id row hrow => ?_, fun d hd => ?_,
    fun j phase' hj => (h.ok j phase' hj).grow hgrow⟩
  · by_cases hold : id < w.stream.length
    · exact h.kept id hold
    · exact .inr (.inr (.inr (by simp only; omega)))
  · obtain ⟨f, hf, hrow⟩ := h.rows id row hrow
    exact ⟨f, hgrow.has _ hf, hrow⟩
  · obtain ⟨f, reason, hf, hd⟩ := h.letters d hd
    exact ⟨f, reason, hgrow.has _ hf, hd⟩

theorem step (h : w.Sound lib) {a : AuditAct} (hstep : w.step lib maxDeliveries a = some w') : w'.Sound lib := by
  cases a with
  | emit fields =>
    obtain rfl := Option.some.inj hstep
    exact h.emitStep fields
  | start =>
    obtain rfl := Option.some.inj hstep
    refine ⟨h.cursor_le, h.kept, h.rows, h.letters, fun j phase' hj => ?_⟩
    rw [List.getElem?_append] at hj
    split at hj
    · exact (h.ok j phase' hj).grow (.of_eq rfl rfl rfl)
    · obtain rfl := List.mem_singleton.1 (List.mem_of_getElem? hj)
      trivial
  | pending i idle =>
    obtain ⟨phase, -, hstep⟩ := Option.bind_eq_some_iff.1 hstep
    split at hstep
    · obtain rfl := Option.some.inj hstep
      exact h.setPass (AuditPhase.ok_reclaim fun _ he => absurd he List.not_mem_nil)
    · cases hstep
  | claim i claimed =>
    obtain ⟨phase, hpass, hstep⟩ := Option.bind_eq_some_iff.1 hstep
    exact h.claimStep (h.ok i phase hpass) hstep
  | insertBatch i committed raised =>
    obtain ⟨phase, hpass, hstep⟩ := Option.bind_eq_some_iff.1 hstep
    exact h.insertBatchStep (h.ok i phase hpass) hstep
  | insertRow i committed raised =>
    obtain ⟨phase, hpass, hstep⟩ := Option.bind_eq_some_iff.1 hstep
    exact h.insertRowStep (h.ok i phase hpass) hstep
  | addDead i =>
    obtain ⟨phase, hpass, hstep⟩ := Option.bind_eq_some_iff.1 hstep
    exact h.addDeadStep (h.ok i phase hpass) hstep
  | ackDead i =>
    obtain ⟨phase, hpass, hstep⟩ := Option.bind_eq_some_iff.1 hstep
    exact h.ackDeadStep (h.ok i phase hpass) hstep
  | ack i =>
    obtain ⟨phase, hpass, hstep⟩ := Option.bind_eq_some_iff.1 hstep
    exact h.ackStep (h.ok i phase hpass) hstep
  | read i =>
    obtain ⟨phase, -, hstep⟩ := Option.bind_eq_some_iff.1 hstep
    exact h.readStep hstep
  | crash i =>
    obtain ⟨phase, -, rfl⟩ := Option.map_eq_some_iff.1 hstep
    exact h.setPass trivial

end Sound

end AuditWorld

/-- In every run every entry ever added is a committed row, a dead letter or unacknowledged, and every row and
every dead letter is made from an entry of the stream. -/
theorem audit_never_lost (lib : AuditLib J) (maxDeliveries : Nat) {acts : List AuditAct} {w : AuditWorld J}
    (h : exec (AuditWorld.step lib maxDeliveries) {} acts = some w) :
    (∀ id < w.stream.length, w.Logged id ∨ w.Buried id ∨ (∃ n, (id, n) ∈ w.pel) ∨ w.cursor ≤ id) ∧
      (∀ id row, (id, row) ∈ w.logs → ∃ fields, w.stream[id]? = some fields ∧ auditRow lib fields = some row) ∧
      ∀ d ∈ w.dead, ∃ fields reason, w.stream[d.original]? = some fields ∧
        d.fields = deadAudit d.original reason fields := by
  have hsound : w.Sound lib :=
    exec_invariant (C := fun _ _ => True) (fun _ _ _ _ hstep hs => hs.step hstep) .start
      (.of_forall fun _ _ _ => trivial) h
  exact ⟨hsound.kept, hsound.rows, hsound.letters⟩

/-- Two entries, one of them without an event type: the batch is committed, the pass stops before any
acknowledgement, and the next pass claims both again.  The good entry is then two rows, the other one is a
dead letter. -/
theorem audit_replayed_after_crash :
    ∃ w, exec (AuditWorld.step (⟨fun _ => none, some, "", fun _ => none⟩ : AuditLib String) 5) {}
        [.emit (Hash.ofList [("event_type", "login")]), .emit (Hash.ofList [("actor_ip", "::1")]),
          .start, .pending 0 [],
          .read 0, .insertBatch 0 true false, .crash 0, .start, .pending 1 [0, 1], .claim 1 true, .claim 1 true,
          .insertBatch 1 true false, .addDead 1, .ackDead 1, .ack 1] = some w ∧
      w.logs.map Prod.fst = [0, 0] ∧ w.dead.map AuditDeadLetter.original = [1] ∧ w.pel = [] ∧
      ∀ id < w.stream.length, w.Logged id ∨ w.Buried id ∨ (∃ n, (id, n) ∈ w.pel) ∨ w.cursor ≤ id := by
  obtain ⟨w, hw, hp⟩ := exec_any (AuditWorld.step (⟨fun _ => none, some, "", fun _ => none⟩ : AuditLib String) 5) {}
    [.emit (Hash.ofList [("event_type", "login")]), .emit (Hash.ofList [("actor_ip", "::1")]), .start, .pending 0 [],
      .read 0, .insertBatch 0 true false, .crash 0, .start, .pending 1 [0, 1], .claim 1 true, .claim 1 true,
      .insertBatch 1 true false, .addDead 1, .ackDead 1, .ack 1]
    (fun w => w.logs.map Prod.fst = [0, 0] ∧ w.dead.map AuditDeadLetter.original = [1] ∧ w.pel = [])
    (by decide +kernel)
  rw [decide_eq_true_eq] at hp
  exact ⟨w, hw, hp.1, hp.2.1, hp.2.2, (audit_never_lost _ 5 hw).1⟩

end Ticketing
