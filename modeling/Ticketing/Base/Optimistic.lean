import Mathlib.Data.List.Induction
import Mathlib.Data.List.Nodup
import Mathlib.Logic.Function.Basic

/-!
# Optimistic locking with version columns

A row has a version.  A write carries the version its transaction has read and is executed as `UPDATE … WHERE
version = …`: it takes the lock of the row if the version still matches, and touches nothing otherwise.  The
writes of a transaction become visible together, at its commit, each with the next version.

`Chained` says that the writes to a row carried consecutive versions, from the first version of the row to the
one before the current.  What a transaction needs for its commit to continue the chains is `Store.Holds`; the
lemmas on `Holds` say how one transaction gets it and that the others do not take it away.
-/

namespace Optimistic

variable {κ ν : Type*}

structure Row (ν : Type*) where
  value : ν
  version : Nat
deriving DecidableEq

/-- `UPDATE … SET value, version = carried + 1 WHERE key AND version = carried`. -/
structure Write (κ ν : Type*) where
  key : κ
  carried : Nat
  value : ν
deriving DecidableEq

/-- What the row is after the write. -/
def Write.row (w : Write κ ν) : Row ν := ⟨w.value, w.carried + 1⟩

/-- A commit: the transaction and its writes. -/
structure Batch (κ ν : Type*) where
  owner : Nat
  writes : List (Write κ ν)
deriving DecidableEq

abbrev Rows (κ ν : Type*) := κ → Option (Row ν)

structure Store (κ ν : Type*) where
  rows : Rows κ ν
  /-- The transaction that has written the row and is still open. -/
  locks : κ → Option Nat := fun _ => none
  history : List (Batch κ ν) := []

variable {rows rows₀ : Rows κ ν} {log writes : List (Write κ ν)} {w : Write κ ν} {key : κ}

/-- A row has been in this state. -/
def Recorded (rows₀ : Rows κ ν) (log : List (Write κ ν)) (key : κ) (row : Row ν) : Prop :=
  rows₀ key = some row ∨ ∃ w ∈ log, w.key = key ∧ w.row = row

theorem Recorded.append {row : Row ν} (h : Recorded rows₀ log key row) : Recorded rows₀ (log ++ writes) key row :=
  h.imp_right fun ⟨w, hw, hrow⟩ => ⟨w, List.mem_append_left _ hw, hrow⟩

variable [DecidableEq κ]

namespace Rows

def apply (rows : Rows κ ν) (w : Write κ ν) : Rows κ ν := Function.update rows w.key (some w.row)

def Matches (rows : Rows κ ν) (w : Write κ ν) : Prop := (rows w.key).map Row.version = some w.carried

instance (rows : Rows κ ν) (w : Write κ ν) : Decidable (rows.Matches w) := inferInstanceAs (Decidable (_ = _))

@[simp] theorem apply_same (rows : Rows κ ν) (w : Write κ ν) : rows.apply w w.key = some w.row :=
  Function.update_self ..

theorem apply_ne (rows : Rows κ ν) (h : key ≠ w.key) : rows.apply w key = rows key :=
  Function.update_of_ne h ..

theorem Matches.apply_ne {v : Write κ ν} (hne : v.key ≠ w.key) (h : rows.Matches v) : (rows.apply w).Matches v := by
  rw [Matches, rows.apply_ne hne]
  exact h

/-- A batch changes only the rows it writes. -/
theorem foldl_apply_of_not_mem (h : key ∉ writes.map Write.key) : writes.foldl apply rows key = rows key := by
  induction writes generalizing rows with
  | nil => rfl
  | cons v writes ih =>
    simp only [List.map_cons, List.mem_cons, not_or] at h
    rw [List.foldl_cons, ih h.2, rows.apply_ne h.1]

end Rows

/-! ### Chains of versions -/

def writesTo (log : List (Write κ ν)) (key : κ) : List (Write κ ν) := log.filter fun w => w.key = key

/-- The writes to a row carried the versions from its first one on, and it now has the next; a row that was
not there is not there. -/
structure Chained (rows₀ rows : Rows κ ν) (log : List (Write κ ν)) (key : κ) : Prop where
  carried : ∀ first, rows₀ key = some first →
    (writesTo log key).map Write.carried = List.range' first.version (writesTo log key).length
  version : ∀ first, rows₀ key = some first →
    (rows key).map Row.version = some (first.version + (writesTo log key).length)
  absent : rows₀ key = none → rows key = none ∧ writesTo log key = []

/-- Every current row is the first one or was written. -/
theorem recorded_of_replay {row : Row ν} (h : log.foldl Rows.apply rows₀ key = some row) :
    Recorded rows₀ log key row := by
  induction log using List.reverseRecOn with
  | nil => exact .inl h
  | append_singleton log w ih =>
    rw [List.foldl_append, List.foldl_cons, List.foldl_nil] at h
    by_cases hkey : key = w.key
    · subst hkey
      rw [Rows.apply_same, Option.some.injEq] at h
      exact .inr ⟨w, by simp, rfl, h⟩
    · rw [Rows.apply_ne _ hkey] at h
      exact (ih h).append

theorem Chained.start (rows : Rows κ ν) (key : κ) : Chained rows rows [] key where
  carried _ _ := rfl
  version first h := by simp [h, writesTo]
  absent h := ⟨h, rfl⟩

theorem Chained.apply (h : Chained rows₀ rows log key) (hw : rows.Matches w) :
    Chained rows₀ (rows.apply w) (log ++ [w]) key := by
  by_cases hkey : w.key = key
  · subst hkey
    have hto : writesTo (log ++ [w]) w.key = writesTo log w.key ++ [w] := by simp [writesTo]
    constructor
    · intro first hfirst
      have hcarried : w.carried = first.version + (writesTo log w.key).length :=
        Option.some.inj (hw.symm.trans (h.version first hfirst))
      rw [hto, List.map_append, h.carried first hfirst, List.length_append, List.length_singleton, List.range'_concat,
        List.map_singleton, hcarried, Nat.one_mul]
    · intro first hfirst
      have hcarried : w.carried = first.version + (writesTo log w.key).length :=
        Option.some.inj (hw.symm.trans (h.version first hfirst))
      rw [hto, Rows.apply_same, Option.map_some, Write.row, hcarried, List.length_append,
        List.length_singleton, Nat.add_assoc]
    · intro habs
      rw [Rows.Matches, (h.absent habs).1] at hw
      cases hw
  · have hto : writesTo (log ++ [w]) key = writesTo log key := by simp [writesTo, hkey]
    have hrow : rows.apply w key = rows key := rows.apply_ne (Ne.symm hkey)
    exact ⟨by rw [hto]; exact h.carried, by rw [hto, hrow]; exact h.version, by rw [hto, hrow]; exact h.absent⟩

/-- A batch that writes every row at most once, each with the current version. -/
theorem Chained.applyAll (h : Chained rows₀ rows log key) (hnd : (writes.map Write.key).Nodup)
    (hm : ∀ w ∈ writes, rows.Matches w) : Chained rows₀ (writes.foldl Rows.apply rows) (log ++ writes) key := by
  induction writes generalizing rows log with
  | nil => simpa using h
  | cons w writes ih =>
    rw [List.map_cons, List.nodup_cons] at hnd
    have hstep := ih (h.apply (hm w List.mem_cons_self)) hnd.2 fun v hv => ?_
    · simpa using hstep
    · refine .apply_ne (fun hvw => hnd.1 ?_) (hm v (List.mem_cons_of_mem _ hv))
      exact hvw ▸ List.mem_map_of_mem hv

/-! ### Transactions -/

namespace Store

variable {s : Store κ ν} {i j : Nat}

/-- All writes, in the order in which they were committed. -/
def written (s : Store κ ν) : List (Write κ ν) := s.history.flatMap Batch.writes

def Free (s : Store κ ν) (i : Nat) (key : κ) : Prop := s.locks key = none ∨ s.locks key = some i

instance (s : Store κ ν) (i : Nat) (key : κ) : Decidable (s.Free i key) := inferInstanceAs (Decidable (_ ∨ _))

def lock (s : Store κ ν) (i : Nat) (key : κ) : Store κ ν := { s with locks := Function.update s.locks key (some i) }

/-- The transaction ends: its locks are released. -/
def release (s : Store κ ν) (i : Nat) : Store κ ν :=
  { s with locks := fun key => if s.locks key = some i then none else s.locks key }

def commit (s : Store κ ν) (i : Nat) (writes : List (Write κ ν)) : Store κ ν :=
  let s' : Store κ ν := { s with rows := writes.foldl Rows.apply s.rows, history := s.history ++ [⟨i, writes⟩] }
  s'.release i

/-- The transaction has executed the writes: it holds their locks, and their versions are still the current ones. -/
structure Holds (s : Store κ ν) (i : Nat) (writes : List (Write κ ν)) : Prop where
  nodup : (writes.map Write.key).Nodup
  locked : ∀ w ∈ writes, s.locks w.key = some i
  current : ∀ w ∈ writes, s.rows.Matches w

omit [DecidableEq κ] in
theorem holds_nil : s.Holds i [] where
  nodup := List.nodup_nil
  locked _ hw := absurd hw List.not_mem_nil
  current _ hw := absurd hw List.not_mem_nil

/-- The transaction executes one more write. -/
theorem Holds.lock (h : s.Holds i writes) (hm : s.rows.Matches w) (hkey : w.key ∉ writes.map Write.key) :
    (s.lock i w.key).Holds i (writes ++ [w]) where
  nodup := by
    rw [List.map_append, List.map_singleton, ← List.concat_eq_append]
    exact h.nodup.concat hkey
  locked v hv := by
    rcases List.mem_append.1 hv with hv | hv
    · by_cases hvw : v.key = w.key
      · simp [Store.lock, hvw]
      · simpa [Store.lock, hvw] using h.locked v hv
    · simp [Store.lock, List.mem_singleton.1 hv]
  current v hv := by
    rcases List.mem_append.1 hv with hv | hv
    · exact h.current v hv
    · rwa [List.mem_singleton.1 hv]

/-- Another transaction takes a lock that is free for it. -/
theorem Holds.lock_other (h : s.Holds i writes) (hij : i ≠ j) (hfree : s.Free j key) :
    (s.lock j key).Holds i writes where
  nodup := h.nodup
  locked v hv := by
    have hkey : v.key ≠ key := by
      intro he
      have hl := h.locked v hv
      rw [he] at hl
      rcases hfree with hn | hj
      · simp [hn] at hl
      · exact hij (Option.some.inj (hl.symm.trans hj))
    simpa [Store.lock, hkey] using h.locked v hv
  current := h.current

omit [DecidableEq κ] in
/-- Another transaction ends. -/
theorem Holds.release_other (h : s.Holds i writes) (hij : i ≠ j) : (s.release j).Holds i writes where
  nodup := h.nodup
  locked v hv := by simpa [Store.release, h.locked v hv] using hij
  current := h.current

/-- Another transaction commits what it holds. -/
theorem Holds.commit_other {others : List (Write κ ν)} (h : s.Holds i writes) (hij : i ≠ j) (hj : s.Holds j others) :
    (s.commit j others).Holds i writes where
  nodup := h.nodup
  locked v hv := by simpa [Store.commit, Store.release, h.locked v hv] using hij
  current v hv := by
    have hout : v.key ∉ others.map Write.key := by
      rintro hmem
      obtain ⟨u, hu, hkey⟩ := List.mem_map.1 hmem
      have hlock := hj.locked u hu
      rw [hkey, h.locked v hv] at hlock
      exact hij (Option.some.inj hlock)
    show ((others.foldl Rows.apply s.rows) v.key).map Row.version = some v.carried
    rw [Rows.foldl_apply_of_not_mem hout]
    exact h.current v hv

@[simp] theorem written_commit : (s.commit i writes).written = s.written ++ writes := by
  simp [written, commit, release]

/-- A commit continues every chain. -/
theorem Holds.chained (h : s.Holds i writes) (hc : Chained rows₀ s.rows s.written key) :
    Chained rows₀ (s.commit i writes).rows (s.commit i writes).written key := by
  rw [written_commit]
  exact hc.applyAll h.nodup h.current

end Store

end Optimistic
