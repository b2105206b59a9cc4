import Mathlib.Data.List.Perm.Basic
import Ticketing.Base.Tally
import Ticketing.Pii

/-!
# Moving rows to the active key

The cron job `rewrap_pii_keks`.  It takes the stale rows batch by batch, in whatever order the database
returns them, skips those whose key is not in the keyring, and excludes their versions from the next query.

A batch of such rows only ends the job, although the next query would leave them out.  So the job reaches
every row it can exactly when no query that still matches a row of a known version returns a batch without one
(`rewrap_reaches_iff`).  Which rows a query matches depends on the batches before it, so on the orders in
which the database has returned the rows (`queried`).
-/

namespace Ticketing

open Tally

/-- A row of `buyer_info`, by its primary key. -/
structure BuyerRow where
  userId : Int
  pii : EncryptedPII
deriving DecidableEq

namespace BuyerRow

/-- The two columns that a rewrap sets. -/
def setDek (r : BuyerRow) (dekEncrypted : Bytes) (kekVersion : Int) : BuyerRow :=
  { r with pii := { r.pii with dekEncrypted, kekVersion } }

end BuyerRow

/-- The table and the variables of the job. -/
structure RewrapState where
  rows : List BuyerRow
  unknown : List Int := []
  done : Nat := 0
deriving DecidableEq

section Rewrap

variable (aes : Aes256Gcm) {lib : PyLib} (s : PiiSettings lib)

/-- The loop over the rows of a batch, with the rows changed so far; an error other than an unknown version
ends the job. -/
def rewrapRows (nonce : BuyerRow → Nonce) : List BuyerRow → RewrapState → Except PiiError RewrapState
  | [], st => .ok st
  | row :: rest, st =>
    match rewrapDek aes s (nonce row) row.pii.dekEncrypted row.pii.kekVersion with
    | .ok (dekEncrypted, kekVersion) =>
      rewrapRows nonce rest { st with
        rows := st.rows.map fun r => if r.userId = row.userId then r.setDek dekEncrypted kekVersion else r
        done := st.done + 1 }
    | .error (.keyVersionUnknown version) => rewrapRows nonce rest { st with unknown := version :: st.unknown }
    | .error e => .error e

/-- The rows that the query matches. -/
def matching (st : RewrapState) : List BuyerRow :=
  st.rows.filter fun r => r.pii.kekVersion ≠ s.kekVersion ∧ r.pii.kekVersion ∉ st.unknown

/-- The loop over the batches; `order i` is the order in which the database returns the rows of query `i`. -/
def rewrapBatches (order : Nat → List BuyerRow → List BuyerRow) (nonce : Nat → BuyerRow → Nonce) (batch : Nat) :
    Nat → Nat → RewrapState → Except PiiError RewrapState
  | 0, _, st => .ok st
  | n + 1, i, st =>
    let rows := (order i (matching s st)).take batch
    if rows = [] then .ok st
    else
      match rewrapRows aes s (nonce i) rows st with
      | .error e => .error e
      | .ok st' => if st'.done = st.done then .ok st' else rewrapBatches order nonce batch n (i + 1) st'

/-- `rewrap_pii_keks`, with the table it leaves. -/
def rewrapPiiKeks (order : Nat → List BuyerRow → List BuyerRow) (nonce : Nat → BuyerRow → Nonce)
    (batch maxBatches : Nat) (table : List BuyerRow) : Except PiiError (List BuyerRow × Nat) :=
  (rewrapBatches aes s order nonce batch maxBatches 0 { rows := table }).map fun st => (st.rows, st.done)

/-- The version of the row is in the keyring. -/
def BuyerRow.known (r : BuyerRow) : Bool := (AList.lookup r.pii.kekVersion s.piiKeyring).isSome

def BuyerRow.stale (r : BuyerRow) : Bool := r.pii.kekVersion ≠ s.kekVersion

/-- The row is still matched once `u` has been in a batch: a row of a known version is moved, an unknown
version is excluded. -/
def BuyerRow.outlasts (r u : BuyerRow) : Bool := if u.known s then r ≠ u else r.pii.kekVersion ≠ u.pii.kekVersion

/-- The rows that query `i` matches if the job comes to it: those of stale versions that the batches before
have left. -/
def queried (order : Nat → List BuyerRow → List BuyerRow) (batch : Nat) (table : List BuyerRow) : Nat → List BuyerRow
  | 0 => table.filter (BuyerRow.stale s)
  | i + 1 => (queried order batch table i).filter fun r =>
      ((order i (queried order batch table i)).take batch).all fun u => r.outlasts s u

/-- The batch of a query that matches a row of a known version has such a row. -/
def Unclogged (order : Nat → List BuyerRow → List BuyerRow) (batch : Nat) (table : List BuyerRow) (i : Nat) : Prop :=
  (∃ r ∈ queried s order batch table i, r.known s = true) →
    ∃ r ∈ (order i (queried s order batch table i)).take batch, r.known s = true

/-- The row, if its version is known, opens with its key. -/
def BuyerRow.Intact (r : BuyerRow) : Prop :=
  ∀ kek, AList.lookup r.pii.kekVersion s.piiKeyring = some kek → ∃ plaintext, r.pii.OpensWith aes kek plaintext

/-- The rows of known versions are at the active version and read as before, the others are as they were, and
the moved ones are counted. -/
def Reached (table rows : List BuyerRow) (moved : Nat) : Prop :=
  List.Forall₂ (fun r r' : BuyerRow => if r.known s then r'.pii.kekVersion = s.kekVersion ∧ r'.userId = r.userId ∧
      decryptPii aes s r'.pii.ciphertext r'.pii.dekEncrypted r'.pii.kekVersion =
        decryptPii aes s r.pii.ciphertext r.pii.dekEncrypted r.pii.kekVersion
    else r' = r) table rows ∧
  moved = table.countP fun r => r.known s && r.stale s

end Rewrap

/-! ### One row -/

section Rows

variable {aes : Aes256Gcm} {lib : PyLib} {s : PiiSettings lib}

/-- The rows that a run can move. -/
def BuyerRow.movable (s : PiiSettings lib) (r : BuyerRow) : Bool := r.known s && r.stale s

/-- The row at the active version. -/
structure BuyerRow.Moved (aes : Aes256Gcm) (s : PiiSettings lib) (r r' : BuyerRow) : Prop where
  version : r'.pii.kekVersion = s.kekVersion
  user : r'.userId = r.userId
  reads : decryptPii aes s r'.pii.ciphertext r'.pii.dekEncrypted r'.pii.kekVersion =
    decryptPii aes s r.pii.ciphertext r.pii.dekEncrypted r.pii.kekVersion

theorem BuyerRow.Moved.not_movable {r r' : BuyerRow} (h : r.Moved aes s r') : r'.movable s = false := by
  simp [movable, stale, h.version]

/-- A row of an unknown version raises before anything else. -/
private theorem rewrapDek_unknown (nonce : Nonce) {r : BuyerRow} (h : r.known s = false) :
    rewrapDek aes s nonce r.pii.dekEncrypted r.pii.kekVersion = .error (.keyVersionUnknown r.pii.kekVersion) := by
  have hnone : AList.lookup r.pii.kekVersion s.piiKeyring = none := by simpa [BuyerRow.known] using h
  simp only [rewrapDek, kekOf, hnone, bind, Except.bind]

private theorem rewrapDek_known (law : aes.Lawful) (nonce : Nonce) {r : BuyerRow} (h : r.known s = true)
    (hintact : r.Intact aes s) :
    ∃ wrapped, rewrapDek aes s nonce r.pii.dekEncrypted r.pii.kekVersion = .ok (wrapped, s.kekVersion) ∧
      r.Moved aes s (r.setDek wrapped s.kekVersion) := by
  obtain ⟨kek, hkek⟩ := Option.isSome_iff_exists.1 h
  obtain ⟨plaintext, hopens⟩ := hintact kek hkek
  obtain ⟨wrapped, hwrap, hopens'⟩ := rewrapDek_opens law nonce hopens hkek
  refine ⟨wrapped, hwrap, rfl, rfl, ?_⟩
  rw [hopens.decryptPii hkek]
  exact hopens'.decryptPii (lookup_active s)

/-- The known version is the active one or a stale one. -/
private theorem movable_or_active {r : BuyerRow} (h : r.known s = true) : r.movable s = true ∨
    r.pii.kekVersion = s.kekVersion := by
  by_cases hactive : r.pii.kekVersion = s.kekVersion
  · exact .inr hactive
  · exact .inl (by simp [BuyerRow.movable, BuyerRow.stale, h, hactive])

private theorem stale_of_unknown {r : BuyerRow} (h : r.known s = false) : r.stale s = true := by
  refine decide_eq_true fun hactive => ?_
  rw [BuyerRow.known, hactive, lookup_active] at h
  cases h

/-! ### Batches -/

/-- How far the job has come: every row is as it was or moved, what is done and what can be moved add up, and
the versions excluded are not in the keyring. -/
structure RewrapProgress (aes : Aes256Gcm) (s : PiiSettings lib) (table : List BuyerRow)
    (st : RewrapState) : Prop where
  pairs : List.Forall₂ (fun r r' => r' = r ∨ r.known s = true ∧ r.Moved aes s r') table st.rows
  users : st.rows.map BuyerRow.userId = table.map BuyerRow.userId
  counted : st.done + st.rows.countP (BuyerRow.movable s) = table.countP (BuyerRow.movable s)
  unknown : ∀ version ∈ st.unknown, AList.lookup version s.piiKeyring = none

namespace RewrapProgress

variable {table : List BuyerRow} {st : RewrapState}

theorem start (table : List BuyerRow) : RewrapProgress aes s table { rows := table } where
  pairs := List.forall₂_same.2 fun _ _ => .inl rfl
  users := rfl
  counted := Nat.zero_add _
  unknown version h := by cases h

/-- A row that can still be moved is one of the table. -/
private theorem mem_table (h : RewrapProgress aes s table st) {r : BuyerRow} (hr : r ∈ st.rows)
    (hkeep : r.movable s = true ∨ r.known s = false) : r ∈ table := by
  obtain ⟨hlen, hpairs⟩ := List.forall₂_iff_zip.1 h.pairs
  obtain ⟨i, hi, rfl⟩ := List.mem_iff_getElem.1 hr
  have hi' : i < table.length := hlen ▸ hi
  have hzip : (table[i], st.rows[i]) ∈ table.zip st.rows := List.mem_iff_getElem.2 ⟨i, by simp [hi, hi'], by simp⟩
  rcases hpairs hzip with heq | ⟨-, hmoved⟩
  · exact heq ▸ List.getElem_mem hi'
  · rcases hkeep with hkeep | hkeep
    · rw [hmoved.not_movable] at hkeep
      cases hkeep
    · have hstale := stale_of_unknown hkeep
      simp [BuyerRow.stale, hmoved.version] at hstale

/-- One row fewer can be moved. -/
private theorem countP_update {rows : List BuyerRow} (hnodup : (rows.map BuyerRow.userId).Nodup)
    {row : BuyerRow} (hrow : row ∈ rows)
    (hmovable : row.movable s = true) {u : BuyerRow → BuyerRow} (hu : (u row).movable s = false)
    (hother : ∀ r ∈ rows, r.userId ≠ row.userId → u r = r) :
    (rows.map u).countP (BuyerRow.movable s) + 1 = rows.countP (BuyerRow.movable s) := by
  induction rows with
  | nil => cases hrow
  | cons r rest ih =>
    rw [List.map_cons, List.nodup_cons] at hnodup
    rw [List.map_cons, List.countP_cons, List.countP_cons]
    rcases List.mem_cons.1 hrow with rfl | hrow
    · have hrest : rest.map u = rest := by
        refine (List.map_congr_left fun r hr => ?_).trans (List.map_id rest)
        refine hother r (List.mem_cons_of_mem _ hr) fun huser => ?_
        exact hnodup.1 (List.mem_map.2 ⟨r, hr, huser⟩)
      simp [hrest, hu, hmovable]
    · have hne : r.userId ≠ row.userId := fun huser => hnodup.1 (List.mem_map.2 ⟨row, hrow, huser.symm⟩)
      have := ih hnodup.2 hrow fun r hr => hother r (List.mem_cons_of_mem _ hr)
      rw [hother r (List.mem_cons_self ..) hne]
      omega

/-- A row is moved. -/
private theorem move (h : RewrapProgress aes s table st) (hnodup : (table.map BuyerRow.userId).Nodup) {row : BuyerRow}
    (hrow : row ∈ st.rows) (hmovable : row.movable s = true) {wrapped : Bytes}
    (hmoved : row.Moved aes s (row.setDek wrapped s.kekVersion)) :
    RewrapProgress aes s table { st with
      rows := st.rows.map fun r => if r.userId = row.userId then r.setDek wrapped s.kekVersion else r
      done := st.done + 1 } := by
  have hrows : (st.rows.map BuyerRow.userId).Nodup := h.users ▸ hnodup
  have hself : ∀ r ∈ st.rows, r.userId = row.userId → r = row := fun r hr huser =>
    List.inj_on_of_nodup_map hrows hr hrow huser
  refine ⟨?_, ?_, ?_, h.unknown⟩
  · rw [List.forall₂_map_right_iff]
    obtain ⟨hlen, hpairs⟩ := List.forall₂_iff_zip.1 h.pairs
    refine List.forall₂_iff_zip.2 ⟨hlen, fun {r r'} hzip => ?_⟩
    obtain ⟨-, hr'⟩ := List.of_mem_zip hzip
    split
    · rename_i huser
      obtain rfl := hself r' hr' huser
      rcases hpairs hzip with rfl | ⟨-, hbefore⟩
      · exact .inr ⟨(Bool.and_eq_true_iff.1 hmovable).1, hmoved⟩
      · rw [hbefore.not_movable] at hmovable
        cases hmovable
    · exact hpairs hzip
  · rw [← h.users, List.map_map]
    refine List.map_congr_left fun r _ => ?_
    simp only [Function.comp_apply]
    split <;> rfl
  · have hcount := countP_update hrows hrow hmovable
      (u := fun r => if r.userId = row.userId then r.setDek wrapped s.kekVersion else r)
      (by simpa using hmoved.not_movable) (fun r _ hne => if_neg hne)
    have := h.counted
    show st.done + 1 + (st.rows.map _).countP _ = _
    omega

/-- A moved row is no longer matched. -/
private theorem matching_move (hrows : (st.rows.map BuyerRow.userId).Nodup) {row : BuyerRow} (hrow : row ∈ st.rows)
    (hknown : row.known s = true) (wrapped : Bytes) (done : Nat) :
    matching s { st with
      rows := st.rows.map fun r => if r.userId = row.userId then r.setDek wrapped s.kekVersion else r
      done := done } = (matching s st).filter fun r => r.outlasts s row := by
  have hself : ∀ r ∈ st.rows, r.userId = row.userId → r = row := fun r hr huser =>
    List.inj_on_of_nodup_map hrows hr hrow huser
  unfold matching
  rw [List.filter_map, List.filter_filter]
  have hfilter : st.rows.filter
    ((fun r : BuyerRow => decide (r.pii.kekVersion ≠ s.kekVersion ∧ r.pii.kekVersion ∉ st.unknown)) ∘
        fun r => if r.userId = row.userId then r.setDek wrapped s.kekVersion else r) =
      st.rows.filter fun r =>
        r.outlasts s row && decide (r.pii.kekVersion ≠ s.kekVersion ∧ r.pii.kekVersion ∉ st.unknown) := by
    refine List.filter_congr fun r hr => ?_
    by_cases huser : r.userId = row.userId
    · obtain rfl := hself r hr huser
      simp [BuyerRow.setDek, BuyerRow.outlasts, hknown]
    · have hne : r ≠ row := fun h => huser (congrArg BuyerRow.userId h)
      simp [huser, BuyerRow.outlasts, hknown, hne]
  rw [hfilter]
  -- none of the rows that are left is the moved one
  refine (List.map_congr_left fun r hr => if_neg fun huser => ?_).trans (List.map_id _)
  obtain ⟨hr, hkeep⟩ := List.mem_filter.1 hr
  obtain rfl := hself r hr huser
  simp [BuyerRow.outlasts, hknown] at hkeep

/-- An unknown version is excluded. -/
private theorem matching_exclude {row : BuyerRow} (hunknown : row.known s = false) :
    matching s { st with unknown := row.pii.kekVersion :: st.unknown } = (matching s st).filter fun r =>
      r.outlasts s row := by
  unfold matching
  rw [List.filter_filter]
  refine List.filter_congr fun r _ => ?_
  simp only [BuyerRow.outlasts, hunknown, Bool.false_eq_true, if_false, ← Bool.decide_and, List.mem_cons, not_or]
  exact decide_eq_decide.2 ⟨fun ⟨hstale, hne, hnot⟩ => ⟨hne, hstale, hnot⟩, fun ⟨hne, hstale, hnot⟩ =>
    ⟨hstale, hne, hnot⟩⟩

theorem rewrapRows (law : aes.Lawful) (hnodup : (table.map BuyerRow.userId).Nodup)
    (hintact : ∀ r ∈ table, r.Intact aes s)
    (nonce : BuyerRow → Nonce) {rows : List BuyerRow} (h : RewrapProgress aes s table st)
    (hdistinct : (rows.map BuyerRow.userId).Nodup) (hrows : ∀ r ∈ rows, r ∈ st.rows ∧ r.stale s = true) :
    ∃ st', Ticketing.rewrapRows aes s nonce rows st = .ok st' ∧ RewrapProgress aes s table st' ∧
      st'.done = st.done + rows.countP (BuyerRow.known s) ∧
      matching s st' = (matching s st).filter fun r => rows.all fun u => r.outlasts s u := by
  induction rows generalizing st with
  | nil => exact ⟨st, rfl, h, rfl, by simp⟩
  | cons row rest ih =>
    rw [List.map_cons, List.nodup_cons] at hdistinct
    obtain ⟨hrow, hstale⟩ := hrows row (List.mem_cons_self ..)
    have hrest : ∀ r ∈ rest, r ∈ st.rows ∧ r.stale s = true := fun r hr => hrows r (List.mem_cons_of_mem _ hr)
    by_cases hknown : row.known s = true
    · have hmovable : row.movable s = true := by simp [BuyerRow.movable, hknown, hstale]
      obtain ⟨wrapped, hwrap, hmoved⟩ := rewrapDek_known law (nonce row) hknown
        (hintact row (h.mem_table hrow (.inl hmovable)))
      have hnext := h.move hnodup hrow hmovable hmoved
      obtain ⟨st', hst', hprogress, hdone, hmatching⟩ := ih hnext hdistinct.2 fun r hr => by
        refine ⟨List.mem_map.2 ⟨r, (hrest r hr).1, if_neg fun huser => ?_⟩, (hrest r hr).2⟩
        exact hdistinct.1 (List.mem_map.2 ⟨r, hr, huser⟩)
      refine ⟨st', ?_, hprogress, ?_, ?_⟩
      · rw [Ticketing.rewrapRows, hwrap]
        exact hst'
      · rw [hdone, List.countP_cons, if_pos hknown]
        simp only
        omega
      · rw [hmatching, matching_move (h.users ▸ hnodup) hrow hknown, List.filter_filter]
        simp only [List.all_cons, Bool.and_comm]
    · have hunknown : row.known s = false := Bool.eq_false_iff.2 hknown
      have hnone : AList.lookup row.pii.kekVersion s.piiKeyring = none := by simpa [BuyerRow.known] using hunknown
      have hnext : RewrapProgress aes s table { st with unknown := row.pii.kekVersion :: st.unknown } :=
        { h with
          unknown := fun version hversion =>
            (List.mem_cons.1 hversion).elim (fun heq => heq ▸ hnone) (h.unknown version) }
      obtain ⟨st', hst', hprogress, hdone, hmatching⟩ := ih hnext hdistinct.2 hrest
      refine ⟨st', ?_, hprogress, ?_, ?_⟩
      · rw [Ticketing.rewrapRows, rewrapDek_unknown (nonce row) hunknown]
        exact hst'
      · rw [hdone, List.countP_cons, if_neg hknown]
        simp
      · rw [hmatching, matching_exclude hunknown, List.filter_filter]
        simp only [List.all_cons, Bool.and_comm]

/-! ### The job -/

private theorem mem_matching {r : BuyerRow} :
    r ∈ matching s st ↔ r ∈ st.rows ∧ r.stale s = true ∧ r.pii.kekVersion ∉ st.unknown := by
  simp [matching, BuyerRow.stale]

/-- The query matches every row that can be moved. -/
private theorem mem_matching_of_movable (h : RewrapProgress aes s table st) {r : BuyerRow} (hr : r ∈ st.rows)
    (hmovable : r.movable s = true) : r ∈ matching s st := by
  obtain ⟨hknown, hstale⟩ := Bool.and_eq_true_iff.1 hmovable
  refine mem_matching.2 ⟨hr, hstale, fun hmem => ?_⟩
  rw [BuyerRow.known, h.unknown _ hmem] at hknown
  cases hknown

/-- What the job takes from a query. -/
private theorem batch_spec (h : RewrapProgress aes s table st) (hnodup : (table.map BuyerRow.userId).Nodup)
    {returned : List BuyerRow}
    (hreturned : returned.Perm (matching s st)) (batch : Nat) : ((returned.take batch).map BuyerRow.userId).Nodup ∧
      ∀ r ∈ returned.take batch, r ∈ st.rows ∧ r.stale s = true := by
  have hrows : (st.rows.map BuyerRow.userId).Nodup := h.users ▸ hnodup
  have hmatching : ((matching s st).map BuyerRow.userId).Nodup := hrows.sublist (List.filter_sublist.map _)
  refine ⟨((hreturned.map _).nodup_iff.2 hmatching).sublist ((List.take_sublist ..).map _), fun r hr => ?_⟩
  obtain ⟨hmem, hstale, -⟩ := mem_matching.1 (hreturned.mem_iff.1 (List.mem_of_mem_take hr))
  exact ⟨hmem, hstale⟩

/-- A query that matches no row of a known version has nothing to move, and one that matches such a row has. -/
private theorem countP_movable_eq_zero_iff (h : RewrapProgress aes s table st) :
    st.rows.countP (BuyerRow.movable s) = 0 ↔ ¬∃ r ∈ matching s st, r.known s = true := by
  rw [List.countP_eq_zero]
  constructor
  · rintro hnone ⟨r, hr, hknown⟩
    obtain ⟨hmem, hstale, -⟩ := mem_matching.1 hr
    exact hnone r hmem (by simp [BuyerRow.movable, hknown, hstale])
  · intro hnone r hr hmovable
    exact hnone ⟨r, h.mem_matching_of_movable hr hmovable, (Bool.and_eq_true_iff.1 hmovable).1⟩

variable {order : Nat → List BuyerRow → List BuyerRow} {batch : Nat}

private theorem queried_subset {i j : Nat} (hij : i ≤ j) :
    queried s order batch table j ⊆ queried s order batch table i := by
  induction j, hij using Nat.le_induction with
  | base => exact fun _ hr => hr
  | succ j _ ih => exact fun r hr => ih (List.mem_filter.1 hr).1

/-- Once a query matches no row of a known version, no later one does. -/
private theorem unclogged_of_none {i : Nat} (hnone : ¬∃ r ∈ queried s order batch table i, r.known s = true) :
    ∀ j ≥ i, Unclogged s order batch table j := by
  rintro j hij ⟨r, hr, hknown⟩
  exact absurd ⟨r, queried_subset hij hr, hknown⟩ hnone

/-- From query `i` on the job moves all that can be moved exactly when no batch from there on is clogged. -/
theorem rewrapBatches (law : aes.Lawful) (hnodup : (table.map BuyerRow.userId).Nodup)
    (hintact : ∀ r ∈ table, r.Intact aes s)
    (horder : ∀ i l, (order i l).Perm l) (nonce : Nat → BuyerRow → Nonce) {n i : Nat}
    (h : RewrapProgress aes s table st)
    (hquery : matching s st = queried s order batch table i) (hn : st.rows.countP (BuyerRow.movable s) ≤ n) :
    ∃ st', Ticketing.rewrapBatches aes s order nonce batch n i st = .ok st' ∧ RewrapProgress aes s table st' ∧
      (st'.rows.countP (BuyerRow.movable s) = 0 ↔ ∀ j ≥ i, Unclogged s order batch table j) := by
  induction n generalizing st i with
  | zero =>
    have hzero := Nat.le_zero.1 hn
    refine ⟨st, rfl, h, fun _ => unclogged_of_none ?_, fun _ => hzero⟩
    rw [← hquery]
    exact h.countP_movable_eq_zero_iff.1 hzero
  | succ n ih =>
    obtain ⟨hdistinct, hrows⟩ := h.batch_spec hnodup (horder i (matching s st)) batch
    -- where the batch has no row of a known version, it is not clogged only if the query has none
    have hlast : ¬(∃ r ∈ (order i (matching s st)).take batch, r.known s = true) →
        (st.rows.countP (BuyerRow.movable s) = 0 ↔ ∀ j ≥ i, Unclogged s order batch table j) := by
      intro hno
      rw [h.countP_movable_eq_zero_iff, hquery]
      refine ⟨unclogged_of_none, fun hall hsome => hno ?_⟩
      rw [hquery]
      exact hall i le_rfl hsome
    rw [Ticketing.rewrapBatches]
    by_cases hempty : (order i (matching s st)).take batch = []
    · simp only [hempty, if_true]
      refine ⟨st, rfl, h, hlast ?_⟩
      rw [hempty]
      rintro ⟨r, hr, -⟩
      cases hr
    · obtain ⟨st', hst', hnext, hdone, hmatching⟩ := RewrapProgress.rewrapRows law hnodup hintact
        (nonce i) h hdistinct hrows
      have hcounted := h.counted
      have hcounted' := hnext.counted
      simp only [hempty, if_false, hst']
      split
      case isTrue hsame =>
        have hno : ((order i (matching s st)).take batch).countP (BuyerRow.known s) = 0 := by omega
        have hcount : st'.rows.countP (BuyerRow.movable s) = st.rows.countP (BuyerRow.movable s) := by omega
        refine ⟨st', rfl, hnext, ?_⟩
        rw [hcount]
        exact hlast fun ⟨r, hr, hknown⟩ => List.countP_eq_zero.1 hno r hr hknown
      case isFalse hmore =>
        obtain ⟨u, hu, hknown⟩ : ∃ r ∈ (order i (matching s st)).take batch, r.known s = true := by
          refine List.countP_pos_iff.1 ?_
          omega
        have hquery' : matching s st' = queried s order batch table (i + 1) := by
          rw [hmatching, hquery]
          rfl
        obtain ⟨st'', hst'', hlater, hiff⟩ := ih hnext hquery' (by omega)
        refine ⟨st'', hst'', hlater, hiff.trans ⟨fun hall j hij => ?_, fun hall j hij => hall j (by omega)⟩⟩
        rcases Nat.eq_or_lt_of_le hij with rfl | hlt
        · exact fun _ => ⟨u, hquery ▸ hu, hknown⟩
        · exact hall j hlt

/-- The job has reached its rows when nothing is left to move. -/
theorem reached_iff (h : RewrapProgress aes s table st) :
    Reached aes s table st.rows st.done ↔ st.rows.countP (BuyerRow.movable s) = 0 := by
  have hcounted := h.counted
  refine ⟨fun hreached => ?_, fun hzero => ⟨?_, ?_⟩⟩
  · have hmoved : st.done = table.countP (BuyerRow.movable s) := hreached.2
    omega
  · obtain ⟨hlen, hpairs⟩ := List.forall₂_iff_zip.1 h.pairs
    refine List.forall₂_iff_zip.2 ⟨hlen, fun {r r'} hzip => ?_⟩
    obtain ⟨-, hr'⟩ := List.of_mem_zip hzip
    split
    · rename_i hknown
      rcases hpairs hzip with rfl | ⟨-, hmoved⟩
      · have hactive := (movable_or_active hknown).resolve_left (List.countP_eq_zero.1 hzero r' hr')
        exact ⟨hactive, rfl, rfl⟩
      · exact ⟨hmoved.version, hmoved.user, hmoved.reads⟩
    · rename_i hunknown
      exact (hpairs hzip).resolve_right fun hmoved => hunknown hmoved.1
  · rw [hzero] at hcounted
    exact hcounted

end RewrapProgress

/-- What a job with as many batches as rows has left to move. -/
private theorem reaches_iff (law : aes.Lawful) {table : List BuyerRow} (hnodup : (table.map BuyerRow.userId).Nodup)
    (hintact : ∀ r ∈ table, r.Intact aes s) {order : Nat → List BuyerRow → List BuyerRow}
    (horder : ∀ i l, (order i l).Perm l)
    (nonce : Nat → BuyerRow → Nonce) {batch maxBatches : Nat} (hmax : table.length ≤ maxBatches) :
    (∃ rows moved, rewrapPiiKeks aes s order nonce batch maxBatches table = .ok (rows, moved) ∧
      Reached aes s table rows moved) ↔
      ∀ i, Unclogged s order batch table i := by
  have hstart : RewrapProgress aes s table { rows := table } := .start table
  have hquery : matching s { rows := table } = queried s order batch table 0 :=
    List.filter_congr fun r _ => by simp [BuyerRow.stale]
  have hcount : table.countP (BuyerRow.movable s) ≤ maxBatches := List.countP_le_length.trans hmax
  obtain ⟨st, hst, hprogress, hiff⟩ := hstart.rewrapBatches law hnodup hintact horder nonce hquery hcount
  have hrun : rewrapPiiKeks aes s order nonce batch maxBatches table = .ok (st.rows, st.done) := by
    rw [rewrapPiiKeks, hst]
    rfl
  constructor
  · rintro ⟨rows, moved, hrun', hreached⟩
    obtain ⟨rfl, rfl⟩ := Prod.mk.inj (Except.ok.inj (hrun.symm.trans hrun'))
    exact fun i => hiff.1 (hprogress.reached_iff.1 hreached) i (Nat.zero_le i)
  · exact fun hall => ⟨st.rows, st.done, hrun, hprogress.reached_iff.2 (hiff.2 fun i _ => hall i)⟩

/-- For every order of the rows, a job with as many batches as rows moves every row of a known version and
leaves the others exactly when each of its queries that matches a row of a known version has one in its batch.
-/
theorem rewrap_reaches_iff (law : aes.Lawful) (table : List BuyerRow) (hnodup : (table.map BuyerRow.userId).Nodup)
    (hintact : ∀ r ∈ table, r.Intact aes s) (order : Nat → List BuyerRow → List BuyerRow)
    (horder : ∀ i l, (order i l).Perm l)
    (nonce : Nat → BuyerRow → Nonce) (batch maxBatches : Nat) (hmax : table.length ≤ maxBatches) :
    (∃ rows moved, rewrapPiiKeks aes s order nonce batch maxBatches table = .ok (rows, moved) ∧
      Reached aes s table rows moved) ↔
      ∀ i, Unclogged s order batch table i :=
  reaches_iff law hnodup hintact horder nonce hmax

/-! ### Every order -/

/-- The rows of unknown versions first. -/
private def unknownFirst (s : PiiSettings lib) (l : List BuyerRow) : List BuyerRow :=
  l.filter (fun r => !r.known s) ++ l.filter (BuyerRow.known s)

private theorem unknownFirst_perm (l : List BuyerRow) : (unknownFirst s l).Perm l := by
  refine List.perm_append_comm.trans ?_
  exact List.filter_append_perm (BuyerRow.known s) l

/-- Rows of unknown versions that do not fill a batch leave room for another row. -/
private theorem unclogged_of_few {table : List BuyerRow} (hnodup : (table.map BuyerRow.userId).Nodup)
    {order : Nat → List BuyerRow → List BuyerRow} (horder : ∀ i l, (order i l).Perm l) {batch : Nat}
    (hfew : (table.countP fun r => !r.known s) < batch) (i : Nat) : Unclogged s order batch table i := by
  rintro ⟨row, hrow, hknown⟩
  by_contra hnone
  have hperm := horder i (queried s order batch table i)
  have hsub : queried s order batch table i ⊆ table := fun r hr =>
    (List.mem_filter.1 (RewrapProgress.queried_subset (Nat.zero_le i) hr)).1
  have hdistinct : (order i (queried s order batch table i)).Nodup := by
    refine hperm.nodup_iff.2 ?_
    have hq : ∀ j, (queried s order batch table j).Nodup := fun j => by
      induction j with
      | zero => exact (List.Nodup.of_map _ hnodup).filter _
      | succ j ih => exact ih.filter _
    exact hq i
  -- the batch is too short to be cut off, so it is all that was returned
  have hlen : ((order i (queried s order batch table i)).take batch).length < batch := by
    refine lt_of_le_of_lt (List.Subperm.length_le
      (List.subperm_of_subset (hdistinct.sublist (List.take_sublist ..)) ?_))
      (List.countP_eq_length_filter ▸ hfew)
    intro r hr
    refine List.mem_filter.2 ⟨hsub (hperm.mem_iff.1 (List.mem_of_mem_take hr)), ?_⟩
    cases hr' : r.known s with
    | false => rfl
    | true => exact absurd ⟨r, hr, hr'⟩ hnone
  have hall : (order i (queried s order batch table i)).take batch = order i (queried s order batch table i) := by
    rw [List.length_take] at hlen
    exact List.take_of_length_le (by omega)
  refine hnone ⟨row, ?_, hknown⟩
  rw [hall, hperm.mem_iff]
  exact hrow

/-- The job does its work whatever the order of the rows exactly when there is no row to move or the rows of
unknown versions do not fill a batch. -/
theorem rewrap_reaches_every_order_iff (law : aes.Lawful) {table : List BuyerRow}
    (hnodup : (table.map BuyerRow.userId).Nodup)
    (hintact : ∀ r ∈ table, r.Intact aes s) (nonce : Nat → BuyerRow → Nonce) {batch maxBatches : Nat}
    (hmax : table.length ≤ maxBatches) :
    (∀ order : Nat → List BuyerRow → List BuyerRow, (∀ i l, (order i l).Perm l) →
      ∃ rows moved, rewrapPiiKeks aes s order nonce batch maxBatches table = .ok (rows, moved) ∧
        Reached aes s table rows moved) ↔
    (∀ r ∈ table, r.known s = true → r.pii.kekVersion = s.kekVersion) ∨
    (table.countP fun r => !r.known s) < batch := by
  constructor
  · intro hreaches
    by_contra hcond
    simp only [not_or, not_forall, not_lt] at hcond
    obtain ⟨⟨row, hrow, hknown, hstale⟩, hmany⟩ := hcond
    have hunclogged := (reaches_iff law hnodup hintact (fun _ => unknownFirst_perm) nonce hmax).1
      (hreaches (fun _ => unknownFirst s) fun _ => unknownFirst_perm) 0
    obtain ⟨r, hr, hr'⟩ := hunclogged ⟨row, List.mem_filter.2 ⟨hrow, decide_eq_true hstale⟩, hknown⟩
    -- the rows of unknown versions are all stale, and they fill the first batch
    have hfilter : (table.filter (BuyerRow.stale s)).filter (fun r => !r.known s) = table.filter fun r =>
        !r.known s := by
      rw [List.filter_filter]
      refine List.filter_congr fun r _ => ?_
      cases hknown : r.known s with
      | true => rfl
      | false => exact stale_of_unknown hknown
    simp only [queried, unknownFirst, hfilter, List.take_append_of_le_length
      (List.countP_eq_length_filter ▸ hmany)] at hr
    have hunknown := (List.mem_filter.1 (List.mem_of_mem_take hr)).2
    rw [hr'] at hunknown
    cases hunknown
  · intro hcond order horder
    refine (reaches_iff law hnodup hintact horder nonce hmax).2 fun i => ?_
    rcases hcond with hactive | hfew
    · refine RewrapProgress.unclogged_of_none (i := 0) ?_ i (Nat.zero_le i)
      rintro ⟨r, hr, hknown⟩
      obtain ⟨hr, hstale⟩ := List.mem_filter.1 hr
      exact of_decide_eq_true hstale (hactive r hr hknown)
    · exact unclogged_of_few hnodup horder hfew i

end Rows

/-! ### A row of a known and a row of an unknown version -/

/-- The encryptions under which the first sample row was written, with version 1 of the KEK. -/
private def retiredRow : BuyerRow where
  userId := 1
  pii := {
    ciphertext := (List.replicate 12 1 : Bytes) ++ gcmSamples[0].out
    dekEncrypted := (List.replicate 12 2 : Bytes) ++ gcmSamples[1].out
    kekVersion := 1 }

/-- A row whose key was dropped from the settings. -/
private def lostRow : BuyerRow := { userId := 2, pii := { retiredRow.pii with kekVersion := 9 } }

private theorem intact_samples : ∀ r ∈ [lostRow, retiredRow], r.Intact .sampled secondSettings := by
  intro r hr kek hkek
  rcases List.mem_pair.1 hr with rfl | rfl
  · have hnone : AList.lookup lostRow.pii.kekVersion secondSettings.piiKeyring = none := by decide +kernel
    rw [hnone] at hkek
    cases hkek
  · have hsome : AList.lookup retiredRow.pii.kekVersion secondSettings.piiKeyring = some
      (List.replicate 32 0x11) := by decide +kernel
    obtain rfl := Option.some.inj (hsome.symm.trans hkek)
    exact ⟨"A123456789", (List.range 32).map UInt8.ofNat, rfl, by decide +kernel, by decide +kernel⟩

private theorem intact_knownFirst : ∀ r ∈ [retiredRow, lostRow], r.Intact .sampled secondSettings := by
  intro r hr
  exact intact_samples r (by simpa [or_comm] using hr)

/-- Batches of one row, with the row to move returned first: it is moved, and the batch of the other is the last. -/
theorem rewrap_reaches_known_first : ∃ rows moved,
    rewrapPiiKeks .sampled secondSettings (fun _ l => l) (fun _ _ => ⟨List.replicate 12 3, rfl⟩) 1 2
      [retiredRow, lostRow] = .ok (rows, moved) ∧
    Reached .sampled secondSettings [retiredRow, lostRow] rows moved := by
  refine (rewrap_reaches_iff sampled_lawful [retiredRow, lostRow] (by decide) intact_knownFirst (fun _ l => l)
    (fun _ l => List.Perm.refl l) (fun _ _ => ⟨List.replicate 12 3, rfl⟩) 1 2 (by decide)).2 fun i => ?_
  have hfirst : ∃ r ∈ (queried secondSettings (fun _ l => l) 1 [retiredRow, lostRow] 0).take 1,
      r.known secondSettings = true := by
    decide +kernel
  have hrest : ¬∃ r ∈ queried secondSettings (fun _ l => l) 1 [retiredRow, lostRow] 1,
      r.known secondSettings = true := by
    decide +kernel
  cases i with
  | zero => exact fun _ => hfirst
  | succ i => exact RewrapProgress.unclogged_of_none hrest (i + 1) (Nat.le_add_left 1 i)

/-- With batches of one row, the row of the unknown version ends the job before the other row is looked at. -/
theorem rewrap_stops_at_unknown :
    ¬∀ (aes : Aes256Gcm) (lib : PyLib) (s : PiiSettings lib) (table : List BuyerRow)
      (order : Nat → List BuyerRow → List BuyerRow) (nonce : Nat → BuyerRow → Nonce)
      (batch maxBatches : Nat), aes.Lawful → (table.map BuyerRow.userId).Nodup →
      (∀ r ∈ table, r.Intact aes s) → (∀ i l, (order i l).Perm l) → 1 ≤ batch → table.length ≤ maxBatches →
      ∃ rows moved, rewrapPiiKeks aes s order nonce batch maxBatches table = .ok (rows, moved) ∧
        Reached aes s table rows moved := by
  intro hclaim
  obtain ⟨rows, moved, hrun, -, hmoved⟩ := hclaim .sampled .sampled secondSettings
    [lostRow, retiredRow] (fun _ l => l)
    (fun _ _ => ⟨List.replicate 12 3, rfl⟩) 1 2 sampled_lawful (by decide) intact_samples
    (fun _ l => List.Perm.refl l) (by decide) (by decide)
  have hstop : rewrapPiiKeks .sampled secondSettings (fun _ l => l)
    (fun _ _ => ⟨List.replicate 12 3, rfl⟩) 1 2 [lostRow, retiredRow] =
      .ok ([lostRow, retiredRow], 0) := by decide +kernel
  obtain ⟨-, rfl⟩ := Prod.mk.inj (Except.ok.inj (hstop.symm.trans hrun))
  exact absurd hmoved (by decide +kernel)

end Ticketing
