import Mathlib.Data.List.Sort
import Ticketing.Base.Tally
import Ticketing.Pipeline

/-!
# Leases of the outbox relay

`process_outbox` and `purge_processed_outbox` with their clock.  A relay claims a batch of due rows in one
statement: the attempt is counted and the row is put off until its lease ends, and the claim is committed
before the first handler runs, so that a relay may die at any point.  The statement takes the due rows that no
other transaction has locked, in the order of their ids, at most `OUTBOX_BATCH` of them.  A row is marked by a
statement of its own after its handler has returned, and a relay that dies in between leaves it to be handled
again.

`claims`, `passes`, `returned` and `marks` record what happened and are read by no step: the claims with the
attempt each was, the rows that each pass could have taken and those it took, the handlers that returned and
the marks.
-/

namespace Ticketing

open Exec Tally

/-! ### Rows and settings -/

def outboxBatch : Nat := 100
def outboxBackoffBase : Nat := 60
def outboxBackoffCap : Nat := 3600

/-- Microseconds in a second: times are counted in them. -/
def usecs : Nat := 1000000

/-- `OUTBOX_RETENTION_DAYS`. -/
def outboxRetention : Nat := 7 * 86400 * usecs

/-- `LEAST(:base * power(2, attempts), :cap) * interval '1 second'`. -/
def leaseLength (attempts : Nat) : Nat := min (outboxBackoffBase * 2 ^ attempts) outboxBackoffCap * usecs

/-- `SEAT_RELEASE`. -/
def seatRelease : String := "seat.release"

structure OutboxRow where
  id : OutboxId
  eventType : String
  aggregateId : OrderId
  attempts : Nat := 0
  nextAttemptAt : Time
  processedAt : Option Time := none
deriving DecidableEq

/-- The row as the order pipeline sees it. -/
def OutboxRow.entry (r : OutboxRow) : OutboxEntry where
  id := r.id
  order := r.aggregateId
  attempts := r.attempts
  processed := r.processedAt.isSome

/-- The conditions of `_OUTBOX_CLAIM_SQL`. -/
def OutboxRow.due (now : Time) (r : OutboxRow) : Bool :=
  r.processedAt.isNone && decide (r.nextAttemptAt ≤ now) && decide (r.attempts < outboxMaxAttempts)

/-- The assignments of `_OUTBOX_CLAIM_SQL`. -/
def OutboxRow.lease (now : Time) (r : OutboxRow) : OutboxRow :=
  { r with attempts := r.attempts + 1, nextAttemptAt := now + leaseLength r.attempts }

/-- A claim of a row, with the attempts it had before. -/
structure Lease where
  row : OutboxId
  attempt : Nat
  time : Time
deriving DecidableEq

/-- One execution of `_OUTBOX_CLAIM_SQL`: the due rows that were not locked, in the order of their ids, and those it
took. -/
structure RelayPass where
  eligible : List OutboxId
  taken : List OutboxId
deriving DecidableEq

/-- The pass could have taken the row and did not. -/
def RelayPass.skips (row : OutboxId) (p : RelayPass) : Bool := decide (row ∈ p.eligible) && decide (row ∉ p.taken)

/-- `processed_at` is set to `stamp`, the start of the transaction, which commits at `time`. -/
structure Mark where
  row : OutboxId
  stamp : Time
  time : Time
deriving DecidableEq

/-- A running relay. -/
structure Relay where
  /-- The claimed rows that are not handled yet. -/
  todo : List OutboxRow
  /-- When it claimed them. -/
  since : Time
  /-- The row whose handler has returned, until it is marked. -/
  returned : Option OutboxId := none

structure Outbox where
  now : Time
  rows : List OutboxRow
  /-- The ids that the sequence has given out. -/
  used : List OutboxId
  relays : Nat → Option Relay
  claims : List Lease := []
  passes : List RelayPass := []
  returned : List (OutboxId × Time) := []
  marks : List Mark := []

inductive OutboxAct where
  /-- A transaction with a new row commits; it began at `since`. -/
  | insert (id : OutboxId) (eventType : String) (aggregateId : OrderId) (since : Time)
  | tick (d : Nat)
  /-- A relay runs the claim statement and commits; other transactions have the rows `locked` locked. -/
  | claim (n : Nat) (locked : List OutboxId)
  /-- A relay handles one of its rows; `ok` says whether the handler returned. -/
  | handle (n : Nat) (row : OutboxId) (ok : Bool)
  /-- A relay marks the row whose handler has returned, in a transaction that began at `since`. -/
  | mark (n : Nat) (since : Time)
  | stop (n : Nat)
  /-- The attempts of a row are set back by hand. -/
  | redrive (row : OutboxId)
  | purge (cutoff : Time)
deriving DecidableEq

namespace Outbox

def eligible (s : Outbox) (locked : List OutboxId) : List OutboxId :=
  ((s.rows.filter fun r => r.due s.now && decide (r.id ∉ locked)).map OutboxRow.id).insertionSort (· ≤ ·)

/-- The rows after a claim of `taken`. -/
def claimRows (s : Outbox) (taken : List OutboxId) : List OutboxRow :=
  s.rows.map fun r => if r.id ∈ taken then r.lease s.now else r

def setRelay (s : Outbox) (n : Nat) (relay : Option Relay) : Outbox :=
  { s with relays := Function.update s.relays n relay }

def claim (s : Outbox) (n : Nat) (locked : List OutboxId) : Outbox :=
  let eligible := s.eligible locked
  let taken := eligible.take outboxBatch
  let claimed := s.rows.filter fun r => r.id ∈ taken
  { s.setRelay n (some { todo := claimed, since := s.now }) with
    rows := s.claimRows taken
    claims := s.claims ++ claimed.map fun r => ⟨r.id, r.attempts, s.now⟩
    passes := s.passes ++ [⟨eligible, taken⟩] }

/-- `processed_at = now()` and the commit. -/
def markProcessed (s : Outbox) (row : OutboxId) (stamp : Time) : Outbox :=
  { s with
    rows := s.rows.map fun r => if r.id = row then { r with processedAt := some stamp } else r
    marks := s.marks ++ [⟨row, stamp, s.now⟩] }

def step (s : Outbox) : OutboxAct → Option Outbox
  | .insert id eventType aggregateId since =>
    if id ∉ s.used ∧ since ≤ s.now then
      some { s with
        rows := s.rows ++ [{ id, eventType, aggregateId, nextAttemptAt := since }]
        used := s.used ++ [id] }
    else none
  | .tick d => some { s with now := s.now + d }
  | .claim n locked => if (s.relays n).isNone then some (s.claim n locked) else none
  | .handle n row ok =>
    (s.relays n).bind fun relay =>
      (relay.todo.find? fun r => r.id = row).bind fun r =>
        let todo := relay.todo.filter fun r => r.id ≠ row
        if relay.returned.isSome then none
        -- a row of another type is left alone, and so is one whose handler raised
        else if r.eventType = seatRelease ∧ ok then
          some { s.setRelay n (some { relay with todo, returned := some row }) with
            returned := s.returned ++ [(row, s.now)] }
        else some (s.setRelay n (some { relay with todo }))
  | .mark n since =>
    (s.relays n).bind fun relay =>
      relay.returned.bind fun row =>
        if relay.since ≤ since ∧ since ≤ s.now then
          some ((s.setRelay n (some { relay with returned := none })).markProcessed row since)
        else none
  | .stop n => some (s.setRelay n none)
  | .redrive row =>
    some { s with
      rows := s.rows.map fun r => if r.id = row then { r with attempts := 0, nextAttemptAt := s.now } else r }
  | .purge cutoff =>
    if cutoff + outboxRetention ≤ s.now then
      some { s with rows := s.rows.filter fun r => r.processedAt.all fun t => cutoff ≤ t }
    else none

/-- An empty table. -/
structure Start (s : Outbox) : Prop where
  rows : s.rows = []
  used : s.used = []
  relays : ∀ n, s.relays n = none
  claims : s.claims = []
  passes : s.passes = []
  returned : s.returned = []
  marks : s.marks = []

/-- The row is not driven again by hand. -/
def NoRedrive (row : OutboxId) (_ : Outbox) (a : OutboxAct) : Prop := a ≠ .redrive row

variable {s s' : Outbox}

/-- What the steps of a relay on its rows do. -/
theorem handle_cases {n : Nat} {row : OutboxId} {ok : Bool} (h : s.step (.handle n row ok) = some s') :
    ∃ relay r, s.relays n = some relay ∧ r ∈ relay.todo ∧ r.id = row ∧
      (s' = s.setRelay n (some { relay with todo := relay.todo.filter fun r => r.id ≠ row }) ∨
        s' = { s.setRelay n
            (some { relay with todo := relay.todo.filter fun r => r.id ≠ row, returned := some row }) with
          returned := s.returned ++ [(row, s.now)] }) := by
  obtain ⟨relay, hrelay, h⟩ := Option.bind_eq_some_iff.1 h
  obtain ⟨r, hr, h⟩ := Option.bind_eq_some_iff.1 h
  refine ⟨relay, r, hrelay, List.mem_of_find?_eq_some hr, by simpa using List.find?_some hr, ?_⟩
  dsimp only at h
  split at h
  · cases h
  · split at h
    · exact .inr (Option.some.inj h).symm
    · exact .inl (Option.some.inj h).symm

theorem mark_cases {n : Nat} {since : Time} (h : s.step (.mark n since) = some s') :
    ∃ relay row, s.relays n = some relay ∧ relay.returned = some row ∧ relay.since ≤ since ∧ since ≤ s.now ∧
      s' = (s.setRelay n (some { relay with returned := none })).markProcessed row since := by
  obtain ⟨relay, hrelay, h⟩ := Option.bind_eq_some_iff.1 h
  obtain ⟨row, hrow, h⟩ := Option.bind_eq_some_iff.1 h
  split at h
  · rename_i hg
    exact ⟨relay, row, hrelay, hrow, hg.1, hg.2, (Option.some.inj h).symm⟩
  · cases h

/-! ### Rows and their ids -/

/-- Ids are given out once. -/
structure Numbered (s : Outbox) : Prop where
  ids : (s.rows.map OutboxRow.id).Nodup
  rows : ∀ r ∈ s.rows, r.id ∈ s.used
  claims : ∀ c ∈ s.claims, c.row ∈ s.used
  used : s.used.Nodup

theorem Numbered.start (h : s.Start) : s.Numbered where
  ids := by simp [h.rows]
  rows := by simp [h.rows]
  claims := by simp [h.claims]
  used := by simp [h.used]

/-- Rows rewritten under their ids. -/
private theorem Numbered.map (hi : s.Numbered) {f : OutboxRow → OutboxRow} (hf : ∀ r, (f r).id = r.id)
    (hrows : s'.rows = s.rows.map f) (hused : s'.used = s.used) (hclaims : ∀ c ∈ s'.claims, c.row ∈ s.used) :
    s'.Numbered where
  ids := by
    have hsame : (s.rows.map f).map OutboxRow.id = s.rows.map OutboxRow.id := by
      rw [List.map_map]
      exact List.map_congr_left fun r _ => hf r
    rw [hrows, hsame]
    exact hi.ids
  rows := by
    rw [hrows, hused]
    intro r' hr'
    obtain ⟨r, hr, rfl⟩ := List.mem_map.1 hr'
    rw [hf]
    exact hi.rows r hr
  claims := hused ▸ hclaims
  used := hused ▸ hi.used

private theorem id_ite (p : OutboxRow → Prop) [DecidablePred p] (g : OutboxRow → OutboxRow)
    (hg : ∀ r, (g r).id = r.id) (r : OutboxRow) : (if p r then g r else r).id = r.id := by
  split
  · exact hg r
  · rfl

theorem Numbered.step {a : OutboxAct} (hi : s.Numbered) (h : s.step a = some s') : s'.Numbered := by
  cases a with
  | insert id eventType aggregateId since =>
    simp only [Outbox.step] at h
    split at h
    · rename_i hg
      obtain rfl := Option.some.inj h
      have hfresh : ∀ r ∈ s.rows, r.id ≠ id := fun r hr heq => hg.1 (heq ▸ hi.rows r hr)
      refine ⟨?_, ?_, fun c hc => List.mem_append_left _ (hi.claims c hc), ?_⟩
      · rw [List.map_append]
        refine List.nodup_append.2 ⟨hi.ids, List.nodup_singleton _, ?_⟩
        intro x hx y hy hxy
        obtain ⟨r, hr, rfl⟩ := List.mem_map.1 hx
        obtain rfl := List.mem_singleton.1 hy
        exact hfresh r hr hxy
      · intro r hr
        rcases List.mem_append.1 hr with hr | hr
        · exact List.mem_append_left _ (hi.rows r hr)
        · obtain rfl := List.mem_singleton.1 hr
          exact List.mem_append_right _ (List.mem_singleton_self _)
      · refine List.nodup_append.2 ⟨hi.used, List.nodup_singleton _, ?_⟩
        intro x hx y hy hxy
        obtain rfl := List.mem_singleton.1 hy
        exact hg.1 (hxy ▸ hx)
    · cases h
  | tick d =>
    obtain rfl := Option.some.inj h
    exact ⟨hi.ids, hi.rows, hi.claims, hi.used⟩
  | claim n locked =>
    simp only [Outbox.step] at h
    split at h
    · obtain rfl := Option.some.inj h
      refine hi.map (id_ite (fun r => r.id ∈ _) (OutboxRow.lease s.now) fun _ => rfl) rfl rfl fun c hc => ?_
      rcases List.mem_append.1 hc with hc | hc
      · exact hi.claims c hc
      · obtain ⟨r, hr, rfl⟩ := List.mem_map.1 hc
        exact hi.rows r (List.mem_filter.1 hr).1
    · cases h
  | handle n row ok =>
    obtain ⟨relay, r, -, -, -, rfl | rfl⟩ := handle_cases h <;> exact ⟨hi.ids, hi.rows, hi.claims, hi.used⟩
  | mark n since =>
    obtain ⟨relay, row, -, -, -, -, rfl⟩ := mark_cases h
    exact hi.map (id_ite (fun r => r.id = row) (fun r => { r with processedAt := some since }) fun _ =>
      rfl) rfl rfl hi.claims
  | stop n =>
    obtain rfl := Option.some.inj h
    exact ⟨hi.ids, hi.rows, hi.claims, hi.used⟩
  | redrive row =>
    obtain rfl := Option.some.inj h
    exact hi.map (id_ite (fun r => r.id = row)
      (fun r => { r with attempts := 0, nextAttemptAt := s.now }) fun _ => rfl)
      rfl rfl hi.claims
  | purge cutoff =>
    simp only [Outbox.step] at h
    split at h
    · obtain rfl := Option.some.inj h
      refine ⟨(List.filter_sublist.map _).nodup hi.ids, fun r hr => hi.rows r (List.mem_filter.1 hr).1,
        hi.claims, hi.used⟩
    · cases h

theorem mem_eligible {locked : List OutboxId} {id : OutboxId} :
    id ∈ s.eligible locked ↔ ∃ r ∈ s.rows, r.id = id ∧ r.due s.now = true ∧ id ∉ locked := by
  unfold eligible
  rw [List.mem_insertionSort, List.mem_map]
  constructor
  · rintro ⟨r, hr, rfl⟩
    obtain ⟨hmem, hdue⟩ := List.mem_filter.1 hr
    rw [Bool.and_eq_true, decide_eq_true_eq] at hdue
    exact ⟨r, hmem, rfl, hdue⟩
  · rintro ⟨r, hr, rfl, hdue, hfree⟩
    exact ⟨r, List.mem_filter.2 ⟨hr, by simp [hdue, hfree]⟩, rfl⟩

/-- A row that a claim takes was due. -/
private theorem due_of_taken (hi : s.Numbered) {locked : List OutboxId} {r : OutboxRow} (hr : r ∈ s.rows)
    (htaken : r.id ∈ (s.eligible locked).take outboxBatch) :
    r.processedAt = none ∧ r.nextAttemptAt ≤ s.now ∧ r.attempts < outboxMaxAttempts := by
  obtain ⟨r', hr', hid, hdue, -⟩ := mem_eligible.1 (List.mem_of_mem_take htaken)
  obtain rfl := List.inj_on_of_nodup_map hi.ids hr' hr hid
  simpa [OutboxRow.due, and_assoc] using hdue

/-! ### Leases of one row -/

/-- Two successive claims of the row: the second is a later attempt, and comes when the lease of the first has
ended. -/
def Spaced (row : OutboxId) (c c' : Lease) : Prop :=
  c.row = row → c'.row = row → c.attempt < c'.attempt ∧ c.time + leaseLength c.attempt ≤ c'.time

/-- The claims of a row, and where they have left it. -/
structure Leased (row : OutboxId) (s : Outbox) : Prop where
  spaced : s.claims.Pairwise (Spaced row)
  bound : ∀ c ∈ s.claims, c.row = row → c.attempt < outboxMaxAttempts
  behind : ∀ r ∈ s.rows, r.id = row → ∀ c ∈ s.claims, c.row = row →
    c.attempt < r.attempts ∧ c.time + leaseLength c.attempt ≤ r.nextAttemptAt

namespace Leased

variable {row : OutboxId}

theorem start (h : s.Start) : Leased row s where
  spaced := by simp [h.claims]
  bound := by simp [h.claims]
  behind := by simp [h.rows]

private theorem frame (hl : Leased row s) (hclaims : s'.claims = s.claims)
    (hrows : ∀ r' ∈ s'.rows, r'.id = row → (∀ c ∈ s.claims, c.row ≠ row) ∨
      ∃ r ∈ s.rows, r.id = row ∧ r'.attempts = r.attempts ∧ r'.nextAttemptAt = r.nextAttemptAt) : Leased row s' where
  spaced := hclaims ▸ hl.spaced
  bound := hclaims ▸ hl.bound
  behind r' hr' hid c hc hrow := by
    rw [hclaims] at hc
    rcases hrows r' hr' hid with hnone | ⟨r, hr, hid', hatt, hnext⟩
    · exact absurd hrow (hnone c hc)
    · rw [hatt, hnext]
      exact hl.behind r hr hid' c hc hrow

private theorem claim {n : Nat} {locked : List OutboxId} (hl : Leased row s) (hi : s.Numbered) :
    Leased row (s.claim n locked) := by
  have hdue : ∀ r ∈ s.rows, r.id ∈ (s.eligible locked).take outboxBatch →
      r.nextAttemptAt ≤ s.now ∧ r.attempts < outboxMaxAttempts := fun r hr ht => (due_of_taken hi hr ht).2
  constructor
  · refine List.pairwise_append.2 ⟨hl.spaced, ?_, ?_⟩
    · -- a pass takes a row once
      rw [List.pairwise_map]
      have hnodup : (s.rows.filter fun r => r.id ∈ (s.eligible locked).take outboxBatch).Pairwise fun r r' =>
          r.id ≠ r'.id :=
        List.pairwise_map.1 ((List.filter_sublist.map _).nodup hi.ids)
      exact hnodup.imp fun hne h h' => absurd (h.trans h'.symm) hne
    · intro c hc c' hc' hrow hrow'
      obtain ⟨r, hr, rfl⟩ := List.mem_map.1 hc'
      obtain ⟨hmem, htaken⟩ := List.mem_filter.1 hr
      obtain ⟨hatt, hnext⟩ := hl.behind r hmem hrow' c hc hrow
      have := (hdue r hmem (by simpa using htaken)).1
      exact ⟨hatt, hnext.trans this⟩
  · intro c hc hrow
    rcases List.mem_append.1 hc with hc | hc
    · exact hl.bound c hc hrow
    · obtain ⟨r, hr, rfl⟩ := List.mem_map.1 hc
      obtain ⟨hmem, htaken⟩ := List.mem_filter.1 hr
      exact (hdue r hmem (by simpa using htaken)).2
  · intro r' hr' hid c hc hrow
    obtain ⟨r, hr, rfl⟩ := List.mem_map.1 hr'
    have hid' : r.id = row := by
      rw [← hid]
      split <;> rfl
    rcases List.mem_append.1 hc with hc | hc
    · obtain ⟨hatt, hnext⟩ := hl.behind r hr hid' c hc hrow
      split
      · rename_i htaken
        have := (hdue r hr htaken).1
        exact ⟨Nat.lt_succ_of_lt hatt, (hnext.trans this).trans (Nat.le_add_right ..)⟩
      · exact ⟨hatt, hnext⟩
    · -- the claim that was made just now
      obtain ⟨r₁, hr₁, rfl⟩ := List.mem_map.1 hc
      obtain ⟨hmem₁, htaken⟩ := List.mem_filter.1 hr₁
      obtain rfl := List.inj_on_of_nodup_map hi.ids hr hmem₁ (hid'.trans hrow.symm)
      rw [decide_eq_true_eq] at htaken
      rw [if_pos htaken]
      exact ⟨Nat.lt_succ_self _, le_refl _⟩

theorem step {a : OutboxAct} (hl : Leased row s) (hi : s.Numbered) (hC : NoRedrive row s a) (h : s.step a = some s') :
    Leased row s' := by
  cases a with
  | insert id eventType aggregateId since =>
    simp only [Outbox.step] at h
    split at h
    · rename_i hg
      obtain rfl := Option.some.inj h
      refine hl.frame rfl fun r hr hid => ?_
      rcases List.mem_append.1 hr with hr | hr
      · exact .inr ⟨r, hr, hid, rfl, rfl⟩
      · -- the id of a new row has not been claimed
        obtain rfl := List.mem_singleton.1 hr
        refine .inl fun c hc hrow => hg.1 ?_
        change id = row at hid
        rw [hid, ← hrow]
        exact hi.claims c hc
    · cases h
  | tick d =>
    obtain rfl := Option.some.inj h
    exact hl.frame rfl fun r hr hid => .inr ⟨r, hr, hid, rfl, rfl⟩
  | claim n locked =>
    simp only [Outbox.step] at h
    split at h
    · obtain rfl := Option.some.inj h
      exact hl.claim hi
    · cases h
  | handle n id ok =>
    obtain ⟨relay, r, -, -, -, rfl | rfl⟩ := handle_cases h <;>
      exact hl.frame rfl fun r hr hid => .inr ⟨r, hr, hid, rfl, rfl⟩
  | mark n since =>
    obtain ⟨relay, id, -, -, -, -, rfl⟩ := mark_cases h
    refine hl.frame rfl fun r' hr' hid => ?_
    obtain ⟨r, hr, rfl⟩ := List.mem_map.1 hr'
    refine .inr ⟨r, hr, ?_, ?_, ?_⟩
    · rw [← hid]
      split <;> rfl
    · split <;> rfl
    · split <;> rfl
  | stop n =>
    obtain rfl := Option.some.inj h
    exact hl.frame rfl fun r hr hid => .inr ⟨r, hr, hid, rfl, rfl⟩
  | redrive id =>
    obtain rfl := Option.some.inj h
    have hne : id ≠ row := fun heq => hC (heq ▸ rfl)
    refine hl.frame rfl fun r' hr' hid => ?_
    obtain ⟨r, hr, rfl⟩ := List.mem_map.1 hr'
    by_cases hrid : r.id = id
    · rw [if_pos hrid] at hid
      exact absurd (hrid.symm.trans hid) hne
    · rw [if_neg hrid] at hid ⊢
      exact .inr ⟨r, hr, hid, rfl, rfl⟩
  | purge cutoff =>
    simp only [Outbox.step] at h
    split at h
    · obtain rfl := Option.some.inj h
      exact hl.frame rfl fun r hr hid => .inr ⟨r, (List.mem_filter.1 hr).1, hid, rfl, rfl⟩
    · cases h

end Leased

/-- The claims of a row in any run in which it is not driven again by hand: each is a later attempt than the
one before and comes when the lease of the one before has ended, and there are at most eight. -/
theorem leases_apart {row : OutboxId} {acts : List OutboxAct} (hs : s.Start) (hno : Along step (NoRedrive row) s acts)
    (h : exec step s acts = some s') :
    (s'.claims.filter fun c => c.row = row).Pairwise
        (fun c c' => c.attempt < c'.attempt ∧ c.time + leaseLength c.attempt ≤ c'.time) ∧
      (s'.claims.filter fun c => c.row = row).length ≤ outboxMaxAttempts := by
  obtain ⟨hnum, hl⟩ : s'.Numbered ∧ Leased row s' :=
    exec_invariant (I := fun s => s.Numbered ∧ Leased row s)
      (fun _ _ _ hC hstep hi => ⟨hi.1.step hstep, hi.2.step hi.1 hC hstep⟩) ⟨.start hs, .start hs⟩ hno h
  have hspaced : (s'.claims.filter fun c => c.row = row).Pairwise
      (fun c c' => c.attempt < c'.attempt ∧ c.time + leaseLength c.attempt ≤ c'.time) := by
    refine (List.Pairwise.and_mem.1 (hl.spaced.sublist List.filter_sublist)).imp ?_
    intro c c' hcc
    obtain ⟨hc, hc', hsp⟩ := hcc
    exact hsp (by simpa using (List.mem_filter.1 hc).2) (by simpa using (List.mem_filter.1 hc').2)
  refine ⟨hspaced, ?_⟩
  -- the attempts are different numbers below the maximum
  have hnodup : ((s'.claims.filter fun c => c.row = row).map Lease.attempt).Nodup :=
    List.pairwise_map.2 (hspaced.imp fun hcc => Nat.ne_of_lt hcc.1)
  have hsub : ((s'.claims.filter fun c => c.row = row).map Lease.attempt) ⊆ List.range outboxMaxAttempts := by
    intro a ha
    obtain ⟨c, hc, rfl⟩ := List.mem_map.1 ha
    obtain ⟨hmem, hrow⟩ := List.mem_filter.1 hc
    exact List.mem_range.2 (hl.bound c hmem (by simpa using hrow))
  have hle := (List.subperm_of_subset hnodup hsub).length_le
  rwa [List.length_map, List.length_range] at hle

/-! ### No row is passed over for long -/

/-- What the passes took, and how often. -/
structure Counted (s : Outbox) : Prop where
  sorted : ∀ p ∈ s.passes, p.eligible.Pairwise (· ≤ ·) ∧ p.eligible.Nodup ∧ p.taken = p.eligible.take outboxBatch ∧
    ∀ id ∈ p.taken, id ∈ s.used
  often : ∀ id, s.passes.countP (fun p => decide (id ∈ p.taken)) ≤ outboxMaxAttempts
  attempts : ∀ r ∈ s.rows, s.passes.countP (fun p => decide (r.id ∈ p.taken)) = r.attempts

namespace Counted

theorem start (h : s.Start) : s.Counted where
  sorted := by simp [h.passes]
  often := by simp [h.passes]
  attempts := by simp [h.rows]

private theorem frame (hc : s.Counted) (hpasses : s'.passes = s.passes) (hused : ∀ id ∈ s.used, id ∈ s'.used)
    (hrows : ∀ r' ∈ s'.rows, (∃ r ∈ s.rows, r'.id = r.id ∧ r'.attempts = r.attempts) ∨ r'.attempts = 0 ∧
      r'.id ∉ s.used) :
    s'.Counted where
  sorted p hp := by
    rw [hpasses] at hp
    obtain ⟨h₁, h₂, h₃, h₄⟩ := hc.sorted p hp
    exact ⟨h₁, h₂, h₃, fun id hid => hused id (h₄ id hid)⟩
  often := hpasses ▸ hc.often
  attempts r' hr' := by
    rw [hpasses]
    rcases hrows r' hr' with ⟨r, hr, hid, hatt⟩ | ⟨hatt, hnew⟩
    · rw [hid, hatt]
      exact hc.attempts r hr
    · -- no pass took a row before it was there
      rw [hatt, List.countP_eq_zero]
      intro p hp htaken
      exact hnew ((hc.sorted p hp).2.2.2 _ (by simpa using htaken))

private theorem claim {n : Nat} {locked : List OutboxId} (hc : s.Counted) (hi : s.Numbered) :
    (s.claim n locked).Counted := by
  have hcount : ∀ id, (s.passes ++ [(⟨s.eligible locked, (s.eligible locked).take outboxBatch⟩ : RelayPass)]).countP
      (fun p => decide (id ∈ p.taken)) = s.passes.countP (fun p => decide (id ∈ p.taken)) +
        if id ∈ (s.eligible locked).take outboxBatch then 1 else 0 := by
    intro id
    rw [List.countP_append, List.countP_singleton]
    simp only [decide_eq_true_eq]
  constructor
  · intro p hp
    rcases List.mem_append.1 hp with hp | hp
    · exact hc.sorted p hp
    · obtain rfl := List.mem_singleton.1 hp
      refine ⟨List.pairwise_insertionSort _ _, ?_, rfl, fun id hid => ?_⟩
      · refine (List.perm_insertionSort _ _).nodup_iff.2 ?_
        exact (List.filter_sublist.map _).nodup hi.ids
      · obtain ⟨r, hr, rfl, -⟩ := mem_eligible.1 (List.mem_of_mem_take hid)
        exact hi.rows r hr
  · intro id
    change (s.passes ++ _).countP _ ≤ _
    rw [hcount]
    split
    · -- a row that is taken has attempts left
      rename_i htaken
      obtain ⟨r, hr, rfl, -⟩ := mem_eligible.1 (List.mem_of_mem_take htaken)
      have := (due_of_taken hi hr htaken).2.2
      rw [hc.attempts r hr]
      omega
    · exact hc.often id
  · intro r' hr'
    obtain ⟨r, hr, rfl⟩ := List.mem_map.1 hr'
    have hid : (if r.id ∈ (s.eligible locked).take outboxBatch then r.lease s.now else r).id = r.id := by
      split <;> rfl
    change (s.passes ++ _).countP _ = _
    rw [hid, hcount, hc.attempts r hr]
    split <;> rfl

theorem step {a : OutboxAct} (hc : s.Counted) (hi : s.Numbered) (hC : ∀ row, NoRedrive row s a)
    (h : s.step a = some s') : s'.Counted := by
  have hsame : ∀ r ∈ s.rows, (∃ r₀ ∈ s.rows, r.id = r₀.id ∧ r.attempts = r₀.attempts) ∨ r.attempts = 0 ∧
      r.id ∉ s.used :=
    fun r hr => .inl ⟨r, hr, rfl, rfl⟩
  cases a with
  | insert id eventType aggregateId since =>
    simp only [Outbox.step] at h
    split at h
    · rename_i hg
      obtain rfl := Option.some.inj h
      refine hc.frame rfl (fun _ => List.mem_append_left _) fun r hr => ?_
      rcases List.mem_append.1 hr with hr | hr
      · exact hsame r hr
      · obtain rfl := List.mem_singleton.1 hr
        exact .inr ⟨rfl, hg.1⟩
    · cases h
  | tick d =>
    obtain rfl := Option.some.inj h
    exact hc.frame rfl (fun _ h => h) hsame
  | claim n locked =>
    simp only [Outbox.step] at h
    split at h
    · obtain rfl := Option.some.inj h
      exact hc.claim hi
    · cases h
  | handle n id ok =>
    obtain ⟨relay, r, -, -, -, rfl | rfl⟩ := handle_cases h <;> exact hc.frame rfl (fun _ h => h) hsame
  | mark n since =>
    obtain ⟨relay, id, -, -, -, -, rfl⟩ := mark_cases h
    refine hc.frame rfl (fun _ h => h) fun r' hr' => ?_
    obtain ⟨r, hr, rfl⟩ := List.mem_map.1 hr'
    refine .inl ⟨r, hr, ?_, ?_⟩ <;> split <;> rfl
  | stop n =>
    obtain rfl := Option.some.inj h
    exact hc.frame rfl (fun _ h => h) hsame
  | redrive id => exact absurd rfl (hC id)
  | purge cutoff =>
    simp only [Outbox.step] at h
    split at h
    · obtain rfl := Option.some.inj h
      exact hc.frame rfl (fun _ h => h) fun r hr => hsame r (List.mem_filter.1 hr).1
    · cases h

end Counted

/-- A pass that leaves a row behind took a full batch of rows with smaller ids. -/
private theorem older_of_skips {s : Outbox} (hc : s.Counted) {p : RelayPass} (hp : p ∈ s.passes) {row : OutboxId}
    (hskip : p.skips row = true) : outboxBatch ≤ (s.used.filter (· < row)).countP fun id =>
    decide (id ∈ p.taken) := by
  obtain ⟨hsorted, hnodup, htaken, hused⟩ := hc.sorted p hp
  simp only [RelayPass.skips, Bool.and_eq_true, decide_eq_true_eq] at hskip
  obtain ⟨hmem, hleft⟩ := hskip
  -- the row is behind the batch
  have hdrop : row ∈ p.eligible.drop outboxBatch := by
    rw [← List.take_append_drop outboxBatch p.eligible, List.mem_append, ← htaken] at hmem
    exact hmem.resolve_left hleft
  have hbefore : ∀ id ∈ p.taken, id < row := by
    intro id hid
    have hle : id ≤ row := by
      rw [← List.take_append_drop outboxBatch p.eligible, List.pairwise_append] at hsorted
      exact hsorted.2.2 id (htaken ▸ hid) row hdrop
    exact lt_of_le_of_ne hle fun heq => hleft (heq ▸ hid)
  have hlength : p.taken.length = outboxBatch := by
    have := List.length_pos_of_mem hdrop
    rw [List.length_drop] at this
    rw [htaken, List.length_take]
    omega
  rw [List.countP_eq_length_filter, ← hlength]
  refine (List.subperm_of_subset (htaken ▸ hnodup.sublist (List.take_sublist ..)) fun id hid => ?_).length_le
  exact List.mem_filter.2 ⟨List.mem_filter.2 ⟨hused id hid, by simpa using hbefore id hid⟩, by simpa using hid⟩

/-- No row is passed over for long: in any run without a drive by hand, the passes that could have taken a row and did
not, times the size of a batch, are at most eight times the rows with smaller ids. -/
theorem passed_over_bound {acts : List OutboxAct} (hs : s.Start)
    (hno : Along step (fun s a => ∀ row, NoRedrive row s a) s acts) (h : exec step s acts = some s')
    (row : OutboxId) :
    s'.passes.countP (RelayPass.skips row) * outboxBatch ≤ (s'.used.filter (· < row)).length * outboxMaxAttempts := by
  obtain ⟨-, hc⟩ : s'.Numbered ∧ s'.Counted :=
    exec_invariant (I := fun s => s.Numbered ∧ s.Counted)
      (fun _ _ _ hC hstep hi => ⟨hi.1.step hstep, hi.2.step hi.1 hC hstep⟩) ⟨.start hs, .start hs⟩ hno h
  calc s'.passes.countP (RelayPass.skips row) * outboxBatch
      ≤ (s'.passes.map fun p => (s'.used.filter (· < row)).countP fun id => decide (id ∈ p.taken)).sum :=
        countP_mul_le_sum fun p hp hskip => older_of_skips hc hp hskip
    _ = ((s'.used.filter (· < row)).map fun id => s'.passes.countP fun p => decide (id ∈ p.taken)).sum :=
        sum_countP_comm (fun (p : RelayPass) id => decide (id ∈ p.taken)) _ _
    _ ≤ (s'.used.filter (· < row)).length * outboxMaxAttempts := by
        have hle := List.sum_le_card_nsmul ((s'.used.filter (· < row)).map fun id =>
          s'.passes.countP fun p => decide (id ∈ p.taken)) outboxMaxAttempts fun x hx => by
            obtain ⟨id, -, rfl⟩ := List.mem_map.1 hx
            exact hc.often id
        simpa using hle

/-! ### Rows are debts -/

/-- A row is in the table until a relay has marked it, after its handler has returned, and the retention has
run out, and it is not claimed once marked. -/
structure Kept (s : Outbox) : Prop where
  todo : ∀ n relay, s.relays n = some relay → ∀ r ∈ relay.todo, r.id ∈ s.used
  returned : ∀ n relay, s.relays n = some relay → ∀ row ∈ relay.returned, row ∈ s.used ∧
    ∃ t, (row, t) ∈ s.returned ∧ t ≤ s.now
  handled : ∀ m ∈ s.marks, m.row ∈ s.used ∧ ∃ t, (m.row, t) ∈ s.returned ∧ t ≤ m.time
  past : ∀ c ∈ s.claims, c.time ≤ s.now
  marked : ∀ r ∈ s.rows, ∀ t, r.processedAt = some t → ∃ m ∈ s.marks, m.row = r.id ∧ m.stamp = t
  final : ∀ m ∈ s.marks, ∀ r ∈ s.rows, r.id = m.row → r.processedAt.isSome = true
  later : ∀ m ∈ s.marks, ∀ c ∈ s.claims, c.row = m.row → c.time ≤ m.time
  kept : ∀ id ∈ s.used, (∃ r ∈ s.rows, r.id = id) ∨ ∃ m ∈ s.marks, m.row = id ∧ m.stamp + outboxRetention ≤ s.now

namespace Kept

theorem start (h : s.Start) : s.Kept where
  todo n relay ht := by rw [h.relays n] at ht; cases ht
  returned n relay ht := by rw [h.relays n] at ht; cases ht
  handled := by simp [h.marks]
  past := by simp [h.claims]
  marked := by simp [h.rows]
  final := by simp [h.marks]
  later := by simp [h.marks]
  kept := by simp [h.used]

/-- A relay moves on, and the handlers that have returned stay recorded. -/
private theorem relay {n : Nat} {y : Option Relay} {returned : List (OutboxId × Time)} (hk : s.Kept)
    (hsub : s.returned ⊆ returned) (htodo : ∀ relay ∈ y, ∀ r ∈ relay.todo, r.id ∈ s.used)
    (hreturned : ∀ relay ∈ y, ∀ row ∈ relay.returned, row ∈ s.used ∧ ∃ t, (row, t) ∈ returned ∧ t ≤ s.now) :
    ({ s.setRelay n y with returned } : Outbox).Kept where
  todo m relay hm := by
    by_cases hmn : m = n
    · subst hmn
      exact htodo relay (by simpa [setRelay] using hm)
    · exact hk.todo m relay (by simpa [setRelay, hmn] using hm)
  returned m relay hm row hrow := by
    by_cases hmn : m = n
    · subst hmn
      exact hreturned relay (by simpa [setRelay] using hm) row hrow
    · obtain ⟨hused, t, ht, hle⟩ := hk.returned m relay (by simpa [setRelay, hmn] using hm) row hrow
      exact ⟨hused, t, hsub ht, hle⟩
  handled m hm := by
    obtain ⟨hused, t, ht, hle⟩ := hk.handled m hm
    exact ⟨hused, t, hsub ht, hle⟩
  past := hk.past
  marked := hk.marked
  final := hk.final
  later := hk.later
  kept := hk.kept

/-- The rows are rewritten under their ids and marks, and the claims stay. -/
private theorem rewrite (hk : s.Kept) {f : OutboxRow → OutboxRow} (hid : ∀ r, (f r).id = r.id)
    (hp : ∀ r, (f r).processedAt = r.processedAt) : ({ s with rows := s.rows.map f } : Outbox).Kept where
  todo := hk.todo
  returned := hk.returned
  handled := hk.handled
  past := hk.past
  marked r' hr' t ht := by
    obtain ⟨r, hr, rfl⟩ := List.mem_map.1 hr'
    rw [hp] at ht
    rw [hid]
    exact hk.marked r hr t ht
  final m hm r' hr' hrm := by
    obtain ⟨r, hr, rfl⟩ := List.mem_map.1 hr'
    rw [hid] at hrm
    rw [hp]
    exact hk.final m hm r hr hrm
  later := hk.later
  kept id hused := by
    rcases hk.kept id hused with ⟨r, hr, rfl⟩ | hgone
    · exact .inl ⟨f r, List.mem_map_of_mem hr, hid r⟩
    · exact .inr hgone

private theorem claim {n : Nat} {locked : List OutboxId} (hk : s.Kept) (hi : s.Numbered) :
    (s.claim n locked).Kept := by
  have hrows := hk.rewrite (f := fun r => if r.id ∈ (s.eligible locked).take outboxBatch then r.lease s.now else r)
    (fun r => by split <;> rfl) fun r => by split <;> rfl
  have hrelay := hk.relay (n := n)
    (y := some { todo := s.rows.filter fun r => r.id ∈ (s.eligible locked).take outboxBatch, since := s.now })
    (List.Subset.refl _) (fun relay hrelay r hr => by
      obtain rfl := Option.some.inj hrelay
      exact hi.rows r (List.mem_filter.1 hr).1) fun relay hrelay row hrow => by
      obtain rfl := Option.some.inj hrelay
      cases hrow
  refine ⟨hrelay.todo, hrelay.returned, hk.handled, fun c hc => ?_, hrows.marked, hrows.final,
    fun m hm c hc hrow => ?_, hrows.kept⟩
  · rcases List.mem_append.1 hc with hc | hc
    · exact hk.past c hc
    · obtain ⟨r, -, rfl⟩ := List.mem_map.1 hc
      exact le_refl _
  · rcases List.mem_append.1 hc with hc | hc
    · exact hk.later m hm c hc hrow
    · -- a marked row is not due
      obtain ⟨r, hr, rfl⟩ := List.mem_map.1 hc
      obtain ⟨hmem, htaken⟩ := List.mem_filter.1 hr
      have hnone := (due_of_taken hi hmem (by simpa using htaken)).1
      have hsome := hk.final m hm r hmem hrow
      rw [hnone] at hsome
      cases hsome

private theorem markProcessed {row : OutboxId} (hk : s.Kept) (stamp : Time)
    (hrow : row ∈ s.used ∧ ∃ t, (row, t) ∈ s.returned ∧ t ≤ s.now) : (s.markProcessed row stamp).Kept where
  todo := hk.todo
  returned := hk.returned
  handled m hm := by
    rcases List.mem_append.1 hm with hm | hm
    · exact hk.handled m hm
    · obtain rfl := List.mem_singleton.1 hm
      exact hrow
  past := hk.past
  marked r' hr' t ht := by
    obtain ⟨r, hr, rfl⟩ := List.mem_map.1 hr'
    by_cases hid : r.id = row
    · rw [if_pos hid] at ht ⊢
      obtain rfl := Option.some.inj ht
      exact ⟨⟨row, stamp, s.now⟩, List.mem_append_right _ (List.mem_singleton_self _), hid.symm, rfl⟩
    · rw [if_neg hid] at ht ⊢
      obtain ⟨m, hm, hmark⟩ := hk.marked r hr t ht
      exact ⟨m, List.mem_append_left _ hm, hmark⟩
  final m hm r' hr' hrm := by
    obtain ⟨r, hr, rfl⟩ := List.mem_map.1 hr'
    by_cases hid : r.id = row
    · rw [if_pos hid]
      rfl
    · rw [if_neg hid] at hrm ⊢
      rcases List.mem_append.1 hm with hm | hm
      · exact hk.final m hm r hr hrm
      · obtain rfl := List.mem_singleton.1 hm
        exact absurd hrm hid
  later m hm c hc hcm := by
    rcases List.mem_append.1 hm with hm | hm
    · exact hk.later m hm c hc hcm
    · obtain rfl := List.mem_singleton.1 hm
      exact hk.past c hc
  kept id hused := by
    rcases hk.kept id hused with ⟨r, hr, rfl⟩ | ⟨m, hm, hold⟩
    · refine .inl ⟨_, List.mem_map_of_mem hr, ?_⟩
      split <;> rfl
    · exact .inr ⟨m, List.mem_append_left _ hm, hold⟩

theorem step {a : OutboxAct} (hk : s.Kept) (hi : s.Numbered) (h : s.step a = some s') : s'.Kept := by
  cases a with
  | insert id eventType aggregateId since =>
    simp only [Outbox.step] at h
    split at h
    · rename_i hg
      obtain rfl := Option.some.inj h
      refine ⟨fun n relay ht r hr => List.mem_append_left _ (hk.todo n relay ht r hr),
        fun n relay ht row hrow => (hk.returned n relay ht row hrow).imp_left (List.mem_append_left _),
        fun m hm => (hk.handled m hm).imp_left (List.mem_append_left _), hk.past, ?_, ?_, hk.later, ?_⟩
      · intro r hr t ht
        rcases List.mem_append.1 hr with hr | hr
        · exact hk.marked r hr t ht
        · obtain rfl := List.mem_singleton.1 hr
          cases ht
      · intro m hm r hr hrm
        rcases List.mem_append.1 hr with hr | hr
        · exact hk.final m hm r hr hrm
        · obtain rfl := List.mem_singleton.1 hr
          have hused := (hk.handled m hm).1
          rw [← show id = m.row from hrm] at hused
          exact absurd hused hg.1
      · intro id' hused
        rcases List.mem_append.1 hused with hused | hused
        · rcases hk.kept id' hused with ⟨r, hr, hrid⟩ | hgone
          · exact .inl ⟨r, List.mem_append_left _ hr, hrid⟩
          · exact .inr hgone
        · obtain rfl := List.mem_singleton.1 hused
          exact .inl ⟨_, List.mem_append_right _ (List.mem_singleton_self _), rfl⟩
    · cases h
  | tick d =>
    obtain rfl := Option.some.inj h
    have hle : s.now ≤ s.now + d := Nat.le_add_right ..
    refine ⟨hk.todo, fun n relay ht row hrow => ?_, hk.handled, fun c hc => (hk.past c hc).trans hle,
      hk.marked, hk.final, hk.later, fun id hused => (hk.kept id hused).imp_right ?_⟩
    · obtain ⟨hused, t, hret, ht⟩ := hk.returned n relay ht row hrow
      exact ⟨hused, t, hret, ht.trans hle⟩
    · rintro ⟨m, hm, hrow, hold⟩
      exact ⟨m, hm, hrow, hold.trans hle⟩
  | claim n locked =>
    simp only [Outbox.step] at h
    split at h
    · obtain rfl := Option.some.inj h
      exact hk.claim hi
    · cases h
  | handle n row ok =>
    obtain ⟨relay, r, hrelay, hr, rfl, hs'⟩ := handle_cases h
    have hused : r.id ∈ s.used := hk.todo n relay hrelay r hr
    have htodo : ∀ r' ∈ relay.todo.filter fun r' => r'.id ≠ r.id, r'.id ∈ s.used :=
      fun r' hr' => hk.todo n relay hrelay r' (List.mem_filter.1 hr').1
    rcases hs' with rfl | rfl
    · refine hk.relay (List.Subset.refl _) (fun relay' h' => ?_) fun relay' h' => ?_
      · obtain rfl := Option.some.inj h'
        exact htodo
      · obtain rfl := Option.some.inj h'
        exact hk.returned n relay hrelay
    · refine hk.relay (List.subset_append_left _ _) (fun relay' h' => ?_) fun relay' h' row hrow => ?_
      · obtain rfl := Option.some.inj h'
        exact htodo
      · obtain rfl := Option.some.inj h'
        obtain rfl := Option.some.inj hrow
        exact ⟨hused, s.now, List.mem_append_right _ (List.mem_singleton_self _), le_refl _⟩
  | mark n since =>
    obtain ⟨relay, row, hrelay, hrow, -, -, rfl⟩ := mark_cases h
    have hrest : (s.setRelay n (some { relay with returned := none })).Kept := by
      refine hk.relay (List.Subset.refl _) (fun relay' h' => ?_) fun relay' h' row' hrow' => ?_
      · obtain rfl := Option.some.inj h'
        exact hk.todo n relay hrelay
      · obtain rfl := Option.some.inj h'
        cases hrow'
    exact hrest.markProcessed since (hk.returned n relay hrelay row hrow)
  | stop n =>
    obtain rfl := Option.some.inj h
    exact hk.relay (List.Subset.refl _) (by simp) (by simp)
  | redrive row =>
    obtain rfl := Option.some.inj h
    exact hk.rewrite (fun r => by split <;> rfl) fun r => by split <;> rfl
  | purge cutoff =>
    simp only [Outbox.step] at h
    split at h
    · rename_i hcutoff
      obtain rfl := Option.some.inj h
      refine ⟨hk.todo, hk.returned, hk.handled, hk.past, fun r hr => hk.marked r (List.mem_filter.1 hr).1,
        fun m hm r hr => hk.final m hm r (List.mem_filter.1 hr).1, hk.later, fun id hused => ?_⟩
      rcases hk.kept id hused with ⟨r, hr, rfl⟩ | hgone
      · by_cases hstays : (r.processedAt.all fun t => decide (cutoff ≤ t)) = true
        · exact .inl ⟨r, List.mem_filter.2 ⟨hr, hstays⟩, rfl⟩
        · -- the row goes, so it was marked before the cutoff
          cases hp : r.processedAt with
          | none => simp [hp] at hstays
          | some t =>
            have hlt : t < cutoff := by simpa [hp] using hstays
            obtain ⟨m, hm, hrow, rfl⟩ := hk.marked r hr t hp
            exact .inr ⟨m, hm, hrow, (Nat.add_le_add_right (le_of_lt hlt) _).trans hcutoff⟩
      · exact .inr hgone
    · cases h

end Kept

/-- Rows are debts: in any run, also with rows driven again by hand, every row that was ever inserted is still
in the table, unless a relay marked it in a transaction that began a week ago or earlier; a row is marked
after its handler has returned, and once it is marked it is not claimed again.  Between the two it may be. -/
theorem rows_are_debts {acts : List OutboxAct} (hs : s.Start) (h : exec step s acts = some s') :
    (∀ id ∈ s'.used,
      (∃ r ∈ s'.rows, r.id = id ∧ ∀ t, r.processedAt = some t → ∃ m ∈ s'.marks, m.row = id ∧ m.stamp = t) ∨
      ∃ m ∈ s'.marks, m.row = id ∧ m.stamp + outboxRetention ≤ s'.now) ∧
    ∀ m ∈ s'.marks, (∃ t, (m.row, t) ∈ s'.returned ∧ t ≤ m.time) ∧
      ∀ c ∈ s'.claims, c.row = m.row → c.time ≤ m.time := by
  obtain ⟨-, hk⟩ : s'.Numbered ∧ s'.Kept :=
    exec_invariant (I := fun s => s.Numbered ∧ s.Kept) (C := fun _ _ => True)
      (fun _ _ _ _ hstep hi => ⟨hi.1.step hstep, hi.2.step hi.1 hstep⟩) ⟨.start hs, .start hs⟩
      (Along.of_forall fun _ _ _ => trivial) h
  refine ⟨fun id hused => ?_, fun m hm => ⟨(hk.handled m hm).2, hk.later m hm⟩⟩
  rcases hk.kept id hused with ⟨r, hr, rfl⟩ | hgone
  · exact .inl ⟨r, hr, rfl, hk.marked r hr⟩
  · exact .inr hgone

/-! ### The batch is so many claims of the pipeline -/

/-- What a batch does to the rows is what the pipeline's claims of its rows do, one after the other. -/
theorem entries_claimRows (taken : List OutboxId) (htaken : taken.Nodup) (db : Db)
    (hdb : db.outbox = s.rows.map OutboxRow.entry) :
    (taken.foldl Db.claimOutbox db).outbox = (s.claimRows taken).map OutboxRow.entry := by
  have hfold : ∀ (taken : List OutboxId) (db : Db), taken.Nodup → (taken.foldl Db.claimOutbox db).outbox =
      db.outbox.map fun e => if e.id ∈ taken then { e with attempts := e.attempts + 1 } else e := by
    intro taken
    induction taken with
    | nil => intro db _; simp
    | cons id taken ih =>
      intro db hnodup
      rw [List.nodup_cons] at hnodup
      rw [List.foldl_cons, ih _ hnodup.2, Db.claimOutbox, List.map_map]
      refine List.map_congr_left fun e _ => ?_
      by_cases hid : e.id = id
      · simp [hid, hnodup.1]
      · simp [hid]
  rw [hfold taken db htaken, hdb, claimRows, List.map_map, List.map_map]
  refine List.map_congr_left fun r _ => ?_
  by_cases hid : r.id ∈ taken
  · simp [hid, OutboxRow.entry, OutboxRow.lease]
  · simp [hid, OutboxRow.entry]

/-! ### A sample -/

/-- An empty table at noon of some day. -/
def sample : Outbox where
  now := 43200 * usecs
  rows := []
  used := []
  relays _ := none

theorem sample_start : sample.Start := ⟨rfl, rfl, fun _ => rfl, rfl, rfl, rfl, rfl⟩

/-- The handler of the first attempt raises; the second attempt comes after a minute. -/
def retried : List OutboxAct :=
  [.insert 0 seatRelease 7 (43200 * usecs), .claim 0 [], .handle 0 0 false, .stop 0, .tick (60 * usecs), .claim 1 [],
    .handle 1 0 true, .mark 1 (43260 * usecs)]

theorem leases_apart_retried : sample.Start ∧ ∃ s', exec step sample retried = some s' ∧
    (s'.claims.filter fun c => c.row = 0).length = 2 ∧
    (s'.claims.filter fun c => c.row = 0).Pairwise
        (fun c c' => c.attempt < c'.attempt ∧ c.time + leaseLength c.attempt ≤ c'.time) := by
  obtain ⟨s', hs', hp⟩ := exec_any step sample retried (fun s => (s.claims.filter fun c => c.row = 0).length = 2)
    (by decide +kernel)
  have hno : Along step (NoRedrive 0) sample retried := Along.of_forall (by simp [retried, NoRedrive])
  exact ⟨sample_start, s', hs', by simpa using hp, (leases_apart sample_start hno hs').1⟩

theorem passed_over_bound_retried : ∃ s', exec step sample retried = some s' ∧
    s'.passes.countP (RelayPass.skips 0) * outboxBatch ≤ (s'.used.filter (· < 0)).length * outboxMaxAttempts := by
  obtain ⟨s', hs', -⟩ := exec_any step sample retried (fun _ => true) (by decide +kernel)
  have hno : Along step (fun s a => ∀ row, NoRedrive row s a) sample retried :=
    Along.of_forall (by simp [retried, NoRedrive])
  exact ⟨s', hs', passed_over_bound sample_start hno hs' 0⟩

/-- A relay dies after the handler has returned: the row is claimed once more, and then marked for good. -/
theorem rows_are_debts_retried : ∃ s', exec step sample
      [.insert 0 seatRelease 7 (43200 * usecs), .claim 0 [], .handle 0 0 true, .stop 0,
        .tick (60 * usecs), .claim 1 [], .handle 1 0 true, .mark 1 (43260 * usecs)] = some s' ∧
    s'.returned = [(0, 43200 * usecs), (0, 43260 * usecs)] ∧ ⟨0, 43260 * usecs, 43260 * usecs⟩ ∈ s'.marks ∧
    ∀ c ∈ s'.claims, c.row = 0 → c.time ≤ 43260 * usecs := by
  obtain ⟨s', hs', hp⟩ := exec_any step sample
    [.insert 0 seatRelease 7 (43200 * usecs), .claim 0 [], .handle 0 0 true, .stop 0, .tick (60 * usecs), .claim 1 [],
      .handle 1 0 true, .mark 1 (43260 * usecs)]
    (fun s => s.returned = [(0, 43200 * usecs), (0, 43260 * usecs)] ∧ ⟨0, 43260 * usecs, 43260 * usecs⟩ ∈ s.marks)
    (by decide +kernel)
  rw [decide_eq_true_eq] at hp
  exact ⟨s', hs', hp.1, hp.2, ((rows_are_debts sample_start hs').2 _ hp.2).2⟩

end Outbox

end Ticketing
