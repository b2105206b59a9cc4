import Ticketing.Base.Exec
import Ticketing.Base.Hash
import Ticketing.PartitionBounds

/-!
# Retention of the audit log

The monthly partitions of `audit_logs` and the cron jobs on them: `ensure_audit_log_partitions` makes those of
this and the next months, and `purge_old_audit_logs` drops the ones whose upper bound is not after the cutoff.
Tables go by their names, which are plain identifiers as `partition_name` makes them.

A row is lost only when it is older than the cutoff: in one purge (`audit_retention`), and in any sequence of
inserts, new partitions and purges (`AuditTables.exec_keeps`).
-/

namespace Ticketing

open Calendar Exec

/-! ### Tables -/

def DEFAULT_PARTITION : String := "audit_logs_default"

/-- The primary key of a row, with `created_at` in microseconds since year 1. -/
structure AuditRow where
  id : Nat
  createdAt : Int
deriving DecidableEq

structure AuditPartition where
  bounds : String
  rows : List AuditRow

/-- The partitions of `audit_logs` by their names. -/
abbrev AuditTables := Hash String AuditPartition

/-- How a statement and its commit end; an unanswered commit raises although it went through. -/
inductive CommitOutcome where
  | done
  | rolledBack
  | unanswered
deriving DecidableEq

/-- What the database does to the statements of a purge. -/
structure PurgeFaults where
  listing : Bool
  drop : String → CommitOutcome
  delete : CommitOutcome

inductive PurgeLog where
  | listingFailed
  | dropFailed (partition : String)
  | deleteFailed
  | purged (droppedPartitions : List String) (deletedFromDefault : Nat) (retentionDays : Int)
deriving DecidableEq

/-- The state of a purge in its loop. -/
structure PurgeLoop where
  tables : AuditTables
  dropped : List String := []
  log : List PurgeLog := []

/-- Whether all of a partition lies before the cutoff, as far as its bounds can be read. -/
def expired (cutoff : Datetime) (bounds : String) : Bool := (partitionUpperBound bounds).any fun upper =>
    upper.instant ≤ cutoff.instant

/-- One turn of the loop. -/
def dropPartition (faults : PurgeFaults) (cutoff : Datetime) (s : PurgeLoop) (name bounds : String) : PurgeLoop :=
  if expired cutoff bounds then
    match faults.drop name with
    | .done => { s with tables := AList.erase name s.tables, dropped := s.dropped ++ [name] }
    | .rolledBack => { s with log := s.log ++ [.dropFailed name] }
    | .unanswered => { s with tables := AList.erase name s.tables, log := s.log ++ [.dropFailed name] }
  else s

/-- The other partitions than the default one, with the texts of their bounds. -/
def partitions (t : AuditTables) : List (String × String) :=
  (t.entries.map fun e => (e.1, e.2.bounds)).filter fun entry => entry.1 ≠ DEFAULT_PARTITION

/-- The `DELETE` from the default partition, which fails when there is none. -/
def deleteFromDefault (faults : PurgeFaults) (cutoff : Datetime) (retentionDays : Int) (s : PurgeLoop) :
    AuditTables × List PurgeLog :=
  match AList.lookup DEFAULT_PARTITION s.tables with
  | none => (s.tables, s.log ++ [.deleteFailed])
  | some p =>
    let kept := p.rows.filter fun row => cutoff.instant ≤ row.createdAt
    let deleted := p.rows.length - kept.length
    let tables := AList.insert DEFAULT_PARTITION { p with rows := kept } s.tables
    match faults.delete with
    | .done =>
        (tables, s.log ++ if s.dropped ≠ [] ∨ deleted ≠ 0 then [.purged s.dropped deleted retentionDays] else [])
    | .rolledBack => (s.tables, s.log ++ [.deleteFailed])
    | .unanswered => (tables, s.log ++ [.deleteFailed])

/-- `purge_old_audit_logs`; `none` is an `OverflowError`. -/
def purgeOldAuditLogs (faults : PurgeFaults) (now : Datetime) (retentionDays : Int) (t : AuditTables) :
    Option (AuditTables × List PurgeLog) := do
  let cutoff ← now.minus (retentionDays * 86400)
  if faults.listing then return (t, [.listingFailed])
  let s := (partitions t).foldl (fun s entry => dropPartition faults cutoff s entry.1 entry.2) { tables := t }
  return deleteFromDefault faults cutoff retentionDays s

/-! ### The partitions made beforehand -/

/-- `PARTITION_NAME_FORMAT` -/
def partitionName (year month : Int) : String :=
  "audit_logs_" ++ String.ofList (Digits.pad 4 year.toNat) ++ "_" ++ String.ofList (Digits.pad 2 month.toNat)

/-- `AUDIT_PARTITION_LOOKAHEAD_MONTHS` -/
def lookaheadMonths : Nat := 3

/-- The offset of the session's zone at the beginning of a day, in seconds. -/
abbrev Zone := Date → { offset : Int // offset.natAbs < 86400 }

/-- `CREATE TABLE IF NOT EXISTS`; Postgres reads the dates as midnight in the session's zone. -/
def createPartition (zone : Zone) (name : String) (start stop : Date) (t : AuditTables) : AuditTables :=
  let bound (d : Date) : RangeBound := .moment (.midnight d (zone d).1 (zone d).2)
  if name ∈ t then t else AList.insert name { bounds := rangeText (bound start) (bound stop), rows := [] } t

/-- The months still to be made, with the partitions whose creation failed; a month without a range is a
`ValueError`, which ends the job. -/
def ensureMonths (zone : Zone) (create : String → CommitOutcome) (today : Date) : List Nat → AuditTables →
    AuditTables × List String
  | [], t => (t, [])
  | offset :: offsets, t =>
    let (year, month) := addMonths today offset
    match monthDates year month with
    | none => (t, [])
    | some (start, stop) =>
      let name := partitionName year month
      let made := if create name = .rolledBack then t else createPartition zone name start stop t
      let rest := ensureMonths zone create today offsets made
      (rest.1, if create name = .done then rest.2 else name :: rest.2)

def ensureAuditLogPartitions (zone : Zone) (create : String → CommitOutcome) (today : Date) (t : AuditTables) :
    AuditTables × List String :=
  ensureMonths zone create today (List.range lookaheadMonths) t

/-! ### What a purge keeps -/

variable {faults : PurgeFaults} {cutoff : Datetime}

theorem lookup_dropPartition (s : PurgeLoop) (n bounds name : String) :
    AList.lookup name (dropPartition faults cutoff s n bounds).tables =
      if name = n ∧ expired cutoff bounds = true ∧ faults.drop n ≠ .rolledBack then none
        else AList.lookup name s.tables := by
  rw [dropPartition]
  split
  · rename_i hexpired
    cases faults.drop n with
    | rolledBack => simp
    | _ => simp [hexpired, Hash.lookup_erase_ite]
  · rename_i hexpired
    simp [hexpired]

/-- The loop drops what it is given and can drop, and nothing else. -/
theorem lookup_foldl_dropPartition (entries : List (String × String)) (s : PurgeLoop) (name : String)
    (p : AuditPartition) :
    AList.lookup name (entries.foldl
      (fun s entry => dropPartition faults cutoff s entry.1 entry.2) s).tables = some p ↔
      AList.lookup name s.tables = some p ∧
        ∀ entry ∈ entries, name = entry.1 → expired cutoff entry.2 = true → faults.drop entry.1 = .rolledBack := by
  induction entries generalizing s with
  | nil => simp
  | cons entry entries ih =>
    rw [List.foldl_cons, ih, lookup_dropPartition, List.forall_mem_cons]
    by_cases hgone : name = entry.1 ∧ expired cutoff entry.2 = true ∧ faults.drop entry.1 ≠ .rolledBack
    · obtain ⟨hname, hexpired, hdrop⟩ := hgone
      rw [if_pos ⟨hname, hexpired, hdrop⟩]
      constructor
      · intro h
        cases h.1
      · intro h
        exact absurd (h.2.1 hname hexpired) hdrop
    · have hkept : name = entry.1 → expired cutoff entry.2 = true → faults.drop entry.1 = .rolledBack := by
        intro hname hexpired
        by_contra hdrop
        exact hgone ⟨hname, hexpired, hdrop⟩
      rw [if_neg hgone]
      constructor
      · intro h
        exact ⟨h.1, hkept, h.2⟩
      · intro h
        exact ⟨h.1, h.2.2⟩

theorem mem_partitions {t : AuditTables} {name bounds : String} :
    (name, bounds) ∈ partitions t ↔ name ≠ DEFAULT_PARTITION ∧ ∃ p, AList.lookup name t = some p ∧
    p.bounds = bounds := by
  simp only [partitions, List.mem_filter, List.mem_map, Prod.mk.injEq, decide_eq_true_eq]
  constructor
  · intro ⟨⟨e, he, hname, hbounds⟩, hdefault⟩
    obtain ⟨n, p⟩ := e
    subst hname
    exact ⟨hdefault, p, Hash.mem_entries_iff.1 he, hbounds⟩
  · intro ⟨hdefault, p, hp, hbounds⟩
    exact ⟨⟨⟨name, p⟩, Hash.mem_entries_iff.2 hp, rfl, hbounds⟩, hdefault⟩

variable {t t' : AuditTables} {now : Datetime} {retentionDays : Int} {log : List PurgeLog}

/-- The `DELETE` looks at no other partition. -/
theorem lookup_deleteFromDefault (s : PurgeLoop) {name : String} (h : name ≠ DEFAULT_PARTITION) :
    AList.lookup name (deleteFromDefault faults cutoff retentionDays s).1 = AList.lookup name s.tables := by
  rw [deleteFromDefault]
  split
  · rfl
  · cases faults.delete with
    | rolledBack => rfl
    | _ => exact AList.lookup_insert_ne h

/-- The `DELETE` takes the rows before the cutoff at most. -/
theorem deleteFromDefault_keeps {s : PurgeLoop} {p : AuditPartition}
    (h : AList.lookup DEFAULT_PARTITION s.tables = some p) :
    ∃ p', AList.lookup DEFAULT_PARTITION (deleteFromDefault faults cutoff retentionDays s).1 = some p' ∧
      ∀ row ∈ p.rows, cutoff.instant ≤ row.createdAt → row ∈ p'.rows := by
  have hkept : ∀ row ∈ p.rows, cutoff.instant ≤ row.createdAt →
      row ∈ p.rows.filter fun row => cutoff.instant ≤ row.createdAt := by
    intro row hrow hcutoff
    rw [List.mem_filter]
    exact ⟨hrow, decide_eq_true hcutoff⟩
  simp only [deleteFromDefault, h]
  cases faults.delete with
  | rolledBack => exact ⟨p, h, fun row hrow _ => hrow⟩
  | _ => exact ⟨_, AList.lookup_insert _, hkept⟩

/-- Whether a partition is one of a range, with all its rows below the upper bound. -/
def WellBounded (p : AuditPartition) : Prop :=
  ∃ lower upper, p.bounds = rangeText lower upper ∧ ∀ row ∈ p.rows, upper.After row.createdAt

theorem expired_eq_true {bounds : String} :
    expired cutoff bounds = true ↔ ∃ upper, partitionUpperBound bounds = some upper ∧
    upper.instant ≤ cutoff.instant := by
  simp [expired, Option.any_eq_true]

theorem expired_rangeText {lower upper : RangeBound} :
    expired cutoff (rangeText lower upper) = true ↔ ∃ i, upper.instant? = some i ∧ i ≤ cutoff.instant := by
  rw [← partitionUpperBound_rangeText lower upper, expired_eq_true]
  simp

/-- Whether a moment is below the upper bound that a text of Postgres says. -/
def Below (bounds : String) (t : Int) : Prop := ∃ lower upper, bounds = rangeText lower upper ∧ upper.After t

theorem WellBounded.below {p : AuditPartition} (hp : WellBounded p) {row : AuditRow} (hrow : row ∈ p.rows) :
    Below p.bounds row.createdAt := by
  obtain ⟨lower, upper, hbounds, hrows⟩ := hp
  exact ⟨lower, upper, hbounds, hrows row hrow⟩

/-- What is below the bound of an expired partition is older than the cutoff. -/
theorem Below.lt_of_expired {bounds : String} {moment : Int} (h : Below bounds moment)
    (hexpired : expired cutoff bounds = true) :
    moment < cutoff.instant := by
  obtain ⟨lower, upper, rfl, hafter⟩ := h
  obtain ⟨i, hi, hle⟩ := expired_rangeText.1 hexpired
  have hmoment := upper.lt_of_after hafter hi
  omega

/-- A partition of the job is expired from the first moment of the next month on. -/
theorem expired_createPartition {zone : Zone} {name : String} {start stop : Date} (hfree : name ∉ t)
    {p : AuditPartition} (hp : AList.lookup name (createPartition zone name start stop t) = some p) :
    expired cutoff p.bounds = true ↔
      (Timestamptz.midnight stop (zone stop).1 (zone stop).2).instant ≤ cutoff.instant := by
  rw [createPartition, if_neg hfree, AList.lookup_insert] at hp
  rw [← Option.some.inj hp, expired_rangeText, RangeBound.instant?_midnight]
  simp

/-- A purge ends whenever its cutoff is a `datetime`. -/
theorem exists_purge (faults : PurgeFaults) (t : AuditTables)
    (hcutoff : now.minus (retentionDays * 86400) = some cutoff) :
    ∃ t' log, purgeOldAuditLogs faults now retentionDays t = some (t', log) := by
  rw [purgeOldAuditLogs, hcutoff, Option.bind_eq_bind, Option.bind_some]
  split
  · exact ⟨_, _, rfl⟩
  · exact ⟨_, _, rfl⟩

theorem exists_cutoff (h : purgeOldAuditLogs faults now retentionDays t = some (t', log)) :
    ∃ cutoff, now.minus (retentionDays * 86400) = some cutoff := by
  rw [purgeOldAuditLogs, Option.bind_eq_bind, Option.bind_eq_some_iff] at h
  obtain ⟨cutoff, hcutoff, -⟩ := h
  exact ⟨cutoff, hcutoff⟩

section Purge

variable {name : String} {p : AuditPartition} (h : purgeOldAuditLogs faults now retentionDays t = some (t', log))
  (hcutoff : now.minus (retentionDays * 86400) = some cutoff)

include h hcutoff

/-- What a purge does is one of two things: nothing, or the loop and the `DELETE`. -/
theorem purge_cases :
    faults.listing = true ∧ t' = t ∨ faults.listing = false ∧ t' = (deleteFromDefault faults cutoff retentionDays
      ((partitions t).foldl (fun s entry => dropPartition faults cutoff s entry.1 entry.2) { tables := t })).1 := by
  rw [purgeOldAuditLogs, hcutoff, Option.bind_eq_bind, Option.bind_some] at h
  split at h
  · rename_i hlisting
    have heq := Option.some.inj h
    exact Or.inl ⟨hlisting, (congrArg Prod.fst heq).symm⟩
  · rename_i hlisting
    have heq := Option.some.inj h
    exact Or.inr ⟨Bool.not_eq_true _ ▸ hlisting, (congrArg Prod.fst heq).symm⟩

/-- A partition other than the default one stays as it is, unless it is expired. -/
theorem purge_keeps_partition (hp : AList.lookup name t = some p) (hname : name ≠ DEFAULT_PARTITION)
    (hexpired : expired cutoff p.bounds = false) : AList.lookup name t' = some p := by
  rcases purge_cases h hcutoff with ⟨-, rfl⟩ | ⟨-, rfl⟩
  · exact hp
  · rw [lookup_deleteFromDefault _ hname, lookup_foldl_dropPartition]
    refine ⟨hp, ?_⟩
    intro entry hmem hentry hexpired'
    obtain ⟨-, p', hp', hbounds⟩ := mem_partitions.1 hmem
    rw [← hentry, hp, Option.some.injEq] at hp'
    rw [← hbounds, ← hp', hexpired] at hexpired'
    cases hexpired'

/-- The default partition is never dropped and keeps its rows from the cutoff on. -/
theorem purge_keeps_default (hp : AList.lookup DEFAULT_PARTITION t = some p) :
    ∃ p', AList.lookup DEFAULT_PARTITION t' = some p' ∧ ∀ row ∈ p.rows, cutoff.instant ≤ row.createdAt →
      row ∈ p'.rows := by
  rcases purge_cases h hcutoff with ⟨-, rfl⟩ | ⟨-, rfl⟩
  · exact ⟨p, hp, fun row hrow _ => hrow⟩
  · apply deleteFromDefault_keeps
    rw [lookup_foldl_dropPartition]
    refine ⟨hp, ?_⟩
    intro entry hmem hentry
    exact absurd hentry.symm (mem_partitions.1 hmem).1

/-- An expired partition is gone when nothing goes wrong. -/
theorem purge_drops (hp : AList.lookup name t = some p) (hname : name ≠ DEFAULT_PARTITION)
    (hexpired : expired cutoff p.bounds = true)
    (hlisting : faults.listing = false) (hdrop : faults.drop name ≠ .rolledBack) : AList.lookup name t' = none := by
  rcases purge_cases h hcutoff with ⟨hfault, -⟩ | ⟨-, rfl⟩
  · rw [hlisting] at hfault
    cases hfault
  · rw [lookup_deleteFromDefault _ hname, Option.eq_none_iff_forall_ne_some]
    intro q hq
    exact hdrop (((lookup_foldl_dropPartition _ _ _ _).1 hq).2 (name, p.bounds)
      (mem_partitions.2 ⟨hname, p, hp, rfl⟩) rfl hexpired)

/-- Only an expired partition is missing after a purge. -/
theorem expired_of_dropped (hp : AList.lookup name t = some p) (hdropped : AList.lookup name t' = none) :
    name ≠ DEFAULT_PARTITION ∧ expired cutoff p.bounds = true := by
  have hname : name ≠ DEFAULT_PARTITION := by
    intro hname
    subst hname
    obtain ⟨p', hp', -⟩ := purge_keeps_default h hcutoff hp
    rw [hdropped] at hp'
    cases hp'
  refine ⟨hname, ?_⟩
  by_contra hexpired
  have hkept := purge_keeps_partition h hcutoff hp hname (Bool.not_eq_true _ ▸ hexpired)
  rw [hdropped] at hkept
  cases hkept

/-- A row from the cutoff on survives the purge where it is. -/
theorem purge_keeps_row (hp : AList.lookup name t = some p) {row : AuditRow} (hrow : row ∈ p.rows)
    (hbelow : name = DEFAULT_PARTITION ∨ Below p.bounds row.createdAt) (hlate : cutoff.instant ≤ row.createdAt) :
    ∃ p', AList.lookup name t' = some p' ∧ row ∈ p'.rows := by
  by_cases hname : name = DEFAULT_PARTITION
  · subst hname
    obtain ⟨p', hp', hrows⟩ := purge_keeps_default h hcutoff hp
    exact ⟨p', hp', hrows row hrow hlate⟩
  · have hexpired : expired cutoff p.bounds = false := by
      by_contra hne
      have hearly := (hbelow.resolve_left hname).lt_of_expired (Bool.not_eq_false _ ▸ hne)
      omega
    exact ⟨p, purge_keeps_partition h hcutoff hp hname hexpired, hrow⟩

end Purge

/-- What is there after a purge was there before, the rows of the default partition apart. -/
theorem lookup_of_purge (h : purgeOldAuditLogs faults now retentionDays t = some (t', log)) {name : String}
    {p : AuditPartition}
    (hp : AList.lookup name t' = some p) (hname : name ≠ DEFAULT_PARTITION) : AList.lookup name t = some p := by
  obtain ⟨cutoff, hcutoff⟩ := exists_cutoff h
  rcases purge_cases h hcutoff with ⟨-, rfl⟩ | ⟨-, rfl⟩
  · exact hp
  · rw [lookup_deleteFromDefault _ hname, lookup_foldl_dropPartition] at hp
    exact hp.1

/-- The months from a day on, one behind the other, and what a purge may drop. -/
theorem audit_retention :
    (∀ (d : Date) (k : Nat), monthNumber d + k < 9999 * 12 + 11 →
      ∃ ranges : Nat → String × String,
        (∀ i ≤ k, monthRange (addMonths d i).1 (addMonths d i).2 = some (ranges i)) ∧
        (∀ i < k, (ranges i).2 = (ranges (i + 1)).1) ∧
        (∀ i ≤ k, ∀ j ≤ k, i ≠ j → ∀ x, ¬(InRange (ranges i) x ∧ InRange (ranges j) x)) ∧
        (∀ i ≤ k, ∀ x, InRange (ranges i) x ↔ monthNumber x = monthNumber d + i) ∧
        InRange (ranges 0) d) ∧
    ∀ (faults : PurgeFaults) (now cutoff : Datetime) (retentionDays : Int) (t t' : AuditTables) (log : List PurgeLog),
      now.minus (retentionDays * 86400) = some cutoff →
        purgeOldAuditLogs faults now retentionDays t = some (t', log) →
        ∀ name p, AList.lookup name t = some p →
          (AList.lookup name t' = none →
            name ≠ DEFAULT_PARTITION ∧ ∃ upper, partitionUpperBound p.bounds = some upper ∧
            upper.instant ≤ cutoff.instant) ∧
          (name = DEFAULT_PARTITION ∨ WellBounded p → ∀ row ∈ p.rows, cutoff.instant ≤ row.createdAt →
            ∃ p', AList.lookup name t' = some p' ∧ row ∈ p'.rows) := by
  constructor
  · exact monthRanges_tile
  · intro faults now cutoff retentionDays t t' log hcutoff h name p hp
    constructor
    · intro hdropped
      obtain ⟨hname, hexpired⟩ := expired_of_dropped h hcutoff hp hdropped
      exact ⟨hname, expired_eq_true.1 hexpired⟩
    · intro hbounded row hrow hlate
      exact purge_keeps_row h hcutoff hp hrow (hbounded.imp_right fun hwell => hwell.below hrow) hlate

/-- From a day in November on, and for a row of the last moment of that month when this moment is the cutoff. -/
theorem audit_retention_november :
    (∃ ranges : Nat → String × String,
      (∀ i : Nat, i ≤ 3 → monthRange (addMonths ⟨2026, 11, 15, by decide, by decide, by decide⟩ i).1
        (addMonths ⟨2026, 11, 15, by decide, by decide, by decide⟩ i).2 = some (ranges i)) ∧
      InRange (ranges 0) ⟨2026, 11, 15, by decide, by decide, by decide⟩) ∧
    ∃ t' log p',
      purgeOldAuditLogs { listing := false, drop := fun _ => .done, delete := .done }
      ⟨63939455999999999, 0, by decide⟩ 90
        (AList.insert "audit_logs_2026_11"
          ⟨rangeText .minvalue (.moment (.midnight ⟨2026, 12, 1, by decide, by decide, by decide⟩ 0 (by decide))),
            [⟨7, 63931679999999999⟩]⟩ ∅) =
        some (t', log) ∧
      AList.lookup "audit_logs_2026_11" t' = some p' ∧ ⟨7, 63931679999999999⟩ ∈ p'.rows := by
  constructor
  · obtain ⟨ranges, hranges, -, -, -, hfirst⟩ := audit_retention.1
      ⟨2026, 11, 15, by decide, by decide, by decide⟩ 3 (by decide)
    exact ⟨ranges, hranges, hfirst⟩
  · have hcutoff : Datetime.minus ⟨63939455999999999, 0, by decide⟩ (90 * 86400) = some
      ⟨63931679999999999, 0, by decide⟩ := by
      rw [Datetime.minus, dif_pos (by decide)]
      rfl
    have hlast : (Timestamptz.midnight ⟨2026, 12, 1, by decide, by decide, by decide⟩ 0
        (by decide)).instant = 63931680000000000 := by
      decide
    generalize hbounds : rangeText .minvalue
      (.moment (.midnight ⟨2026, 12, 1, by decide, by decide, by decide⟩ 0 (by decide))) = bounds
    have hwell : WellBounded ⟨bounds, [⟨7, 63931679999999999⟩]⟩ := by
      refine ⟨_, _, hbounds.symm, ?_⟩
      intro row hrow
      rw [List.mem_singleton.1 hrow, RangeBound.After, hlast]
      decide
    obtain ⟨t', log, hpurge⟩ := exists_purge { listing := false, drop := fun _ => .done, delete := .done }
      (AList.insert "audit_logs_2026_11" ⟨bounds, [⟨7, 63931679999999999⟩]⟩ ∅) hcutoff
    obtain ⟨-, hkept⟩ := audit_retention.2 _ _ _ _ _ _ _ hcutoff hpurge "audit_logs_2026_11" _ (AList.lookup_insert _)
    obtain ⟨p', hp', hrow⟩ := hkept (Or.inr hwell) ⟨7, 63931679999999999⟩ (List.mem_singleton.2 rfl) (by decide)
    exact ⟨t', log, p', hpurge, hp', hrow⟩

/-! ### Runs -/

/-- What happens to the tables: a row goes where its range is or into the default partition, and partitions
come from the job or by hand. -/
inductive RetentionAct where
  | insert (name : String) (row : AuditRow) (lower upper : RangeBound)
  | create (name bounds : String)
  | ensure (zone : Zone) (create : String → CommitOutcome) (today : Date)
  | purge (faults : PurgeFaults) (now : Datetime) (retentionDays : Int)

namespace AuditTables

def step (t : AuditTables) : RetentionAct → Option AuditTables
  | .insert name row lower upper =>
    match AList.lookup name t with
    | none => none
    | some p =>
      if name = DEFAULT_PARTITION ∨ p.bounds = rangeText lower upper ∧ ¬lower.After row.createdAt ∧
        upper.After row.createdAt then
        some (AList.insert name { p with rows := row :: p.rows } t)
      else none
  | .create name bounds => if name ∈ t then none else some (AList.insert name { bounds, rows := [] } t)
  | .ensure zone create today => some (ensureAuditLogPartitions zone create today t).1
  | .purge faults now retentionDays => (purgeOldAuditLogs faults now retentionDays t).map Prod.fst

/-- Every row of a partition other than the default one is below the upper bound of its range. -/
def Sound (t : AuditTables) : Prop :=
  ∀ name p, AList.lookup name t = some p → name = DEFAULT_PARTITION ∨ ∀ row ∈ p.rows, Below p.bounds row.createdAt

/-- What `t'` has beside the tables of `t` is empty. -/
structure Extends (t t' : AuditTables) : Prop where
  keeps : ∀ name p, AList.lookup name t = some p → AList.lookup name t' = some p
  empty : ∀ name p, AList.lookup name t' = some p → AList.lookup name t = some p ∨ p.rows = []

theorem Extends.refl (t : AuditTables) : Extends t t where
  keeps _ _ h := h
  empty _ _ h := Or.inl h

theorem Extends.trans {t t' t'' : AuditTables} (h : Extends t t') (h' : Extends t' t'') : Extends t t'' where
  keeps name p hp := h'.keeps name p (h.keeps name p hp)
  empty name p hp := by
    rcases h'.empty name p hp with hp | hp
    · exact h.empty name p hp
    · exact Or.inr hp

theorem extends_insert {t : AuditTables} {name : String} (h : name ∉ t) (bounds : String) :
    Extends t (AList.insert name { bounds, rows := [] } t) where
  keeps n p hp := by
    have hne : n ≠ name := by
      intro heq
      subst heq
      rw [AList.lookup_eq_none.2 h] at hp
      cases hp
    rw [AList.lookup_insert_ne hne]
    exact hp
  empty n p hp := by
    rw [Hash.lookup_insert_ite] at hp
    split at hp
    · right
      rw [← Option.some.inj hp]
    · exact Or.inl hp

theorem extends_ensureMonths (zone : Zone) (create : String → CommitOutcome) (today : Date)
    (offsets : List Nat) (t : AuditTables) :
    Extends t (ensureMonths zone create today offsets t).1 := by
  induction offsets generalizing t with
  | nil => exact Extends.refl t
  | cons offset offsets ih =>
    have hmade : ∀ name start stop, Extends t
        (if create name = .rolledBack then t else createPartition zone name start stop t) := by
      intro name start stop
      split
      · exact Extends.refl t
      · rw [createPartition]
        split
        · exact Extends.refl t
        · rename_i hfree
          exact extends_insert hfree _
    cases hdates : monthDates (addMonths today offset).1 (addMonths today offset).2 with
    | none =>
      simp only [ensureMonths, hdates]
      exact Extends.refl t
    | some dates =>
      simp only [ensureMonths, hdates]
      exact (hmade _ _ _).trans (ih _)

theorem Extends.sound {t t' : AuditTables} (h : Extends t t') (ht : Sound t) : Sound t' := by
  intro name p hp
  rcases h.empty name p hp with hp | hempty
  · exact ht name p hp
  · right
    intro row hrow
    rw [hempty] at hrow
    cases hrow

/-- No purge looks past the moment. -/
def CutoffBy (latest : Int) (_ : AuditTables) : RetentionAct → Prop
  | .purge _ now retentionDays => ∀ cutoff, now.minus (retentionDays * 86400) = some cutoff → cutoff.instant ≤ latest
  | _ => True

/-- The tables hold a row, in the partition it was put into. -/
def Holds (name : String) (row : AuditRow) (t : AuditTables) : Prop := ∃ p,
    AList.lookup name t = some p ∧ row ∈ p.rows

variable {t t' : AuditTables} {a : RetentionAct}

theorem insert_cases {name : String} {row : AuditRow} {lower upper : RangeBound}
    (h : step t (.insert name row lower upper) = some t') :
    ∃ p, AList.lookup name t = some p ∧ (name = DEFAULT_PARTITION ∨ Below p.bounds row.createdAt) ∧
      t' = AList.insert name { p with rows := row :: p.rows } t := by
  rw [step] at h
  cases hp : AList.lookup name t with
  | none =>
    rw [hp] at h
    cases h
  | some p =>
    simp only [hp] at h
    split at h
    · rename_i hroute
      exact ⟨p, rfl, hroute.imp_right fun hin => ⟨lower, upper, hin.1, hin.2.2⟩, (Option.some.inj h).symm⟩
    · cases h

theorem create_cases {name bounds : String} (h : step t (.create name bounds) = some t') :
    name ∉ t ∧ t' = AList.insert name { bounds, rows := [] } t := by
  rw [step] at h
  split at h
  · cases h
  · rename_i hfree
    exact ⟨hfree, (Option.some.inj h).symm⟩

theorem purge_of_step {faults : PurgeFaults} {now : Datetime} {retentionDays : Int}
    (h : step t (.purge faults now retentionDays) = some t') :
    ∃ log, purgeOldAuditLogs faults now retentionDays t = some (t', log) := by
  rw [step, Option.map_eq_some_iff] at h
  obtain ⟨⟨t'', log⟩, hpurge, rfl⟩ := h
  exact ⟨log, hpurge⟩

theorem step_sound (h : step t a = some t') (ht : Sound t) : Sound t' := by
  cases a with
  | insert name row lower upper =>
    obtain ⟨p, hp, hroute, rfl⟩ := insert_cases h
    intro n q hq
    rw [Hash.lookup_insert_ite] at hq
    split at hq
    · rename_i hn
      obtain rfl := Option.some.inj hq
      rw [hn]
      rcases hroute with hdefault | hbelow
      · exact Or.inl hdefault
      · rcases ht name p hp with hdefault | hrows
        · exact Or.inl hdefault
        · right
          intro row' hrow'
          rcases List.mem_cons.1 hrow' with rfl | hrow'
          · exact hbelow
          · exact hrows row' hrow'
    · exact ht n q hq
  | create name bounds =>
    obtain ⟨hfree, rfl⟩ := create_cases h
    exact (extends_insert hfree bounds).sound ht
  | ensure zone create today =>
    rw [← Option.some.inj h]
    exact (extends_ensureMonths zone create today _ t).sound ht
  | purge faults now retentionDays =>
    obtain ⟨log, hpurge⟩ := purge_of_step h
    intro name p hp
    by_cases hname : name = DEFAULT_PARTITION
    · exact Or.inl hname
    · exact ht name p (lookup_of_purge hpurge hp hname)

theorem step_keeps {latest : Int} {name : String} {row : AuditRow} (hlate : latest ≤ row.createdAt)
    (hcutoff : CutoffBy latest t a)
    (h : step t a = some t') (ht : Sound t) (hrow : Holds name row t) : Holds name row t' := by
  obtain ⟨p, hp, hmem⟩ := hrow
  cases a with
  | insert n row' lower upper =>
    obtain ⟨q, hq, -, rfl⟩ := insert_cases h
    by_cases hn : name = n
    · subst hn
      obtain rfl := Option.some.inj (hp.symm.trans hq)
      exact ⟨_, AList.lookup_insert _, List.mem_cons_of_mem _ hmem⟩
    · exact ⟨p, (AList.lookup_insert_ne hn).trans hp, hmem⟩
  | create n bounds =>
    obtain ⟨hfree, rfl⟩ := create_cases h
    exact ⟨p, (extends_insert hfree bounds).keeps name p hp, hmem⟩
  | ensure zone create today =>
    rw [← Option.some.inj h]
    exact ⟨p, (extends_ensureMonths zone create today _ t).keeps name p hp, hmem⟩
  | purge faults now retentionDays =>
    obtain ⟨log, hpurge⟩ := purge_of_step h
    obtain ⟨cutoff, hnow⟩ := exists_cutoff hpurge
    have hbound := hcutoff cutoff hnow
    have hbelow := (ht name p hp).imp_right fun hrows => hrows row hmem
    exact purge_keeps_row hpurge hnow hp hmem hbelow (by omega)

/-- A stored row is there as long as no purge's cutoff passes it. -/
theorem exec_keeps {latest : Int} {name : String} {row : AuditRow} (hlate : latest ≤ row.createdAt)
    {as : List RetentionAct}
    (ht : Sound t) (hrow : Holds name row t) (hcutoff : Along step (CutoffBy latest) t as)
    (h : exec step t as = some t') :
    Holds name row t' := by
  have hboth : Sound t' ∧ Holds name row t' := by
    apply exec_invariant (I := fun t => Sound t ∧ Holds name row t) _ ⟨ht, hrow⟩ hcutoff h
    intro s a s' hC hs hI
    exact ⟨step_sound hs hI.1, step_keeps hlate hC hs hI.1 hI.2⟩
  exact hboth.2

end AuditTables

end Ticketing
