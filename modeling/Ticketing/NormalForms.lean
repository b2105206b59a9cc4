import Ticketing.Base.Exec
import Ticketing.Cuts
import Ticketing.FreeRuns

/-!
# Normal forms of run lists

A run list is in normal form when it is sorted by block and start and its runs are non-empty and, within a
block, neither overlap nor touch.  `occupy` and `release` take normal forms to normal forms, and a normal form
is determined by its free seats (`Normalized.eq_of_free`).  So each of the two undoes the other, and what a
sequence of them leads to depends on the free seats alone (`occupy_release_exact`).

Under a policy with `min_run ≥ 2` no cut leaves a single seat behind, and a party of two or more that comes
back makes no run shorter, so an orphan never arises (`strict_policy_never_orphans`).
-/

namespace Ticketing

open Span Exec

/-! ### The normal form of a set of seats -/

structure Normalized (runs : List Run) : Prop extends MaximalList runs where
  sorted : runs.Pairwise runOrder

private theorem runOrder_total (a b : Run) : runOrder a b ∨ runOrder b a := by
  rcases Nat.lt_trichotomy a.block b.block with h | h | h
  · exact .inl (.inl h)
  · rcases le_total a.start b.start with hs | hs
    · exact .inl (.inr ⟨h, hs⟩)
    · exact .inr (.inr ⟨h.symm, hs⟩)
  · exact .inr (.inl h)

private theorem runOrder_trans {a b c : Run} (hab : runOrder a b) (hbc : runOrder b c) : runOrder a c := by
  rcases hab with hab | ⟨hab, hs⟩
  · rcases hbc with hbc | ⟨hbc, -⟩
    · exact .inl (hab.trans hbc)
    · exact .inl (hbc ▸ hab)
  · rcases hbc with hbc | ⟨hbc, hs'⟩
    · exact .inl (hab ▸ hbc)
    · exact .inr ⟨hab.trans hbc, hs.trans hs'⟩

private theorem eq_of_runOrder {a b : Run} (hab : runOrder a b) (hba : runOrder b a) :
    a.block = b.block ∧ a.start = b.start := by
  rcases hab with hab | ⟨hab, hs⟩
  · rcases hba with hba | ⟨hba, -⟩
    · exact absurd hba hab.asymm
    · exact absurd hba hab.ne'
  · rcases hba with hba | ⟨-, hs'⟩
    · exact absurd hab hba.ne'
    · exact ⟨hab, le_antisymm hs hs'⟩

private theorem pairwise_insertionSort_runOrder (runs : List Run) :
    (runs.insertionSort runOrder).Pairwise runOrder := by
  have htotal : Std.Total runOrder := ⟨runOrder_total⟩
  have htrans : IsTrans Run runOrder := ⟨fun _ _ _ => runOrder_trans⟩
  exact List.pairwise_insertionSort _ _

/-- A normal form is determined by its free seats. -/
theorem Normalized.eq_of_free {runs runs' : List Run} (h : Normalized runs) (h' : Normalized runs')
    (hfree : ∀ b x, Free runs b x ↔ Free runs' b x) : runs = runs' := by
  have hperm := h.toMaximalList.perm_of_cover h'.toMaximalList hfree
  refine hperm.eq_of_pairwise (fun r r' hr hr' hle hge => ?_) h.sorted h'.sorted
  have hmem : r' ∈ runs := hperm.mem_iff.2 hr'
  have hpos := h.pos r hr
  have hpos' := h.pos r' hmem
  obtain ⟨hblock, hstart⟩ := eq_of_runOrder hle hge
  refine h.toMaximalList.maximal.unique hr hmem (b := r.block) (p := r.start) ⟨rfl, le_rfl, ?_⟩
    ⟨hblock.symm, hstart.ge, ?_⟩
  · unfold stop
    omega
  · unfold stop
    omega

section Operations

variable {runs out : List Run} {p : Placement} {capacity : Option Int}

theorem Normalized.occupy (h : Normalized runs) (hp : 1 ≤ p.length) (hok : occupy runs p = .ok out) :
    Normalized out := by
  refine ⟨(occupy_spec h.toMaximalList hp hok).1, ?_⟩
  unfold Ticketing.occupy at hok
  split at hok
  · cases hok
    exact pairwise_insertionSort_runOrder _
  · cases hok

/-- What a release has checked and what it returns when it does not raise. -/
private theorem release_eq_ok {block : BlockId} {start length : Int} :
    release runs block start length capacity = .ok out ↔
      (1 ≤ length ∧ 0 ≤ start ∧ ∀ c ∈ capacity, start + length ≤ c) ∧
      ∃ lo hi kept, releaseLoop block start (start + length) [] runs = .ok (lo, hi, kept) ∧
        (kept ++ [(⟨block, lo, hi - lo⟩ : Run)]).insertionSort runOrder = out := by
  have hany : capacity.any (· < start + length) = true ↔ ¬∀ c ∈ capacity, start + length ≤ c := by
    cases capacity <;> simp
  unfold release
  by_cases hlen : length < 1
  · rw [if_pos hlen]
    constructor
    · intro h
      cases h
    · rintro ⟨⟨h, -⟩, -⟩
      omega
  · rw [if_neg hlen]
    by_cases hbad : start < 0 ∨ capacity.any (· < start + length) = true
    · rw [if_pos hbad]
      constructor
      · intro h
        cases h
      · rintro ⟨⟨-, hstart, hcap⟩, -⟩
        exact absurd hbad (not_or.2 ⟨by omega, fun h => hany.1 h hcap⟩)
    · rw [if_neg hbad]
      rw [not_or, hany, not_not] at hbad
      rw [and_iff_right (show 1 ≤ length ∧ 0 ≤ start ∧ _ from ⟨by omega, by omega, hbad.2⟩)]
      cases releaseLoop block start (start + length) [] runs with
      | error e => simp
      | ok res =>
        obtain ⟨lo, hi, kept⟩ := res
        simp

/-- The loop of a release only widens the interval and keeps runs that were there. -/
private theorem releaseLoop_keeps {block : BlockId} {lo hi lo' hi' : Int} {out kept : List Run}
    (h : releaseLoop block lo hi out runs = .ok (lo', hi', kept)) :
    lo' ≤ lo ∧ hi ≤ hi' ∧ ∀ r ∈ kept, r ∈ out ∨ r ∈ runs := by
  induction runs generalizing lo hi out with
  | nil =>
    cases h
    exact ⟨le_rfl, le_rfl, fun r hr => .inl hr⟩
  | cons run runs ih =>
    -- a run that is kept stays, and one that touches the interval is swallowed
    have hkeep : releaseLoop block lo hi (out ++ [run]) runs = .ok (lo', hi', kept) →
        lo' ≤ lo ∧ hi ≤ hi' ∧ ∀ r ∈ kept, r ∈ out ∨ r ∈ run :: runs := by
      intro h
      obtain ⟨hlo, hhi, hmem⟩ := ih h
      refine ⟨hlo, hhi, fun r hr => ?_⟩
      have hr' := hmem r hr
      simp only [List.mem_append, List.mem_cons] at hr' ⊢
      tauto
    rw [releaseLoop] at h
    split at h
    · exact hkeep h
    · split at h
      · exact hkeep h
      · split at h
        · cases h
        · obtain ⟨hlo, hhi, hmem⟩ := ih h
          exact ⟨by omega, by omega, fun r hr => (hmem r hr).imp_right (List.mem_cons_of_mem _)⟩

/-- One run contains all that was given back, the others were there before. -/
theorem release_runs {block : BlockId} {start length : Int}
    (hok : release runs block start length capacity = .ok out) :
    (∃ r ∈ out, r.block = block ∧ r.start ≤ start ∧ start + length ≤ r.stop) ∧
      ∀ r ∈ out, r ∈ runs ∨ length ≤ r.length := by
  obtain ⟨-, lo, hi, kept, hloop, rfl⟩ := release_eq_ok.1 hok
  obtain ⟨hlo, hhi, hmem⟩ := releaseLoop_keeps hloop
  constructor
  · refine ⟨⟨block, lo, hi - lo⟩, ?_, rfl, hlo, ?_⟩
    · rw [List.mem_insertionSort]
      exact List.mem_append_right _ (List.mem_singleton_self _)
    · simp only [stop]
      omega
  · intro r hr
    rw [List.mem_insertionSort, List.mem_append, List.mem_singleton] at hr
    rcases hr with hr | rfl
    · exact .inl ((hmem r hr).resolve_left List.not_mem_nil)
    · right
      simp only
      omega

/-- A capacity that the interval keeps to makes no difference. -/
private theorem release_congr {block : BlockId} {start length : Int} {capacity' : Option Int}
    (hok : release runs block start length capacity = .ok out) (hcap : ∀ c ∈ capacity', start + length ≤ c) :
    release runs block start length capacity' = .ok out := by
  obtain ⟨⟨hlen, hstart, -⟩, hloop⟩ := release_eq_ok.1 hok
  exact release_eq_ok.2 ⟨⟨hlen, hstart, hcap⟩, hloop⟩

/-- The interval meets a free run exactly when one of its seats is free. -/
private theorem meetsFree_iff {block : BlockId} {start length : Int} (hruns : MaximalList runs) (hlen : 1 ≤ length) :
    MeetsFree runs block start length ↔ ∃ x, (⟨block, start, length⟩ : Run).Covers block x ∧ Free runs block x := by
  constructor
  · rintro ⟨r, hr, hb, h₁, h₂⟩
    have hpos := hruns.pos r hr
    unfold stop at h₂
    refine ⟨max start r.start, ⟨rfl, ?_, ?_⟩, r, hr, hb, ?_, ?_⟩
    · exact le_max_left ..
    · simp only [stop]
      omega
    · exact le_max_right ..
    · simp only [stop]
      omega
  · rintro ⟨x, ⟨-, h₁, h₂⟩, r, hr, hb, h₃, h₄⟩
    simp only [stop] at h₁ h₂
    exact ⟨r, hr, hb, by omega, by omega⟩

theorem Normalized.release {block : BlockId} {start length : Int} (h : Normalized runs)
    (hok : release runs block start length capacity = .ok out) :
    Normalized out ∧ ∀ b x, Free out b x ↔ Free runs b x ∨ (⟨block, start, length⟩ : Run).Covers b x := by
  obtain ⟨⟨hlen, -, -⟩, lo, hi, kept, -, hout⟩ := release_eq_ok.1 hok
  have hsome : Ticketing.release runs block start length (some (start + length)) = .ok out :=
    release_congr hok fun c hc => (Option.some.inj hc).le
  obtain ⟨hmax, hfree⟩ := release_spec h.toMaximalList hlen hsome
  exact ⟨⟨hmax, hout ▸ pairwise_insertionSort_runOrder _⟩, hfree⟩

/-- A release goes through exactly when the interval is a non-empty part of the block none of whose seats is free. -/
theorem Normalized.release_isOk {block : BlockId} {start length : Int} (h : Normalized runs) (hlen : 1 ≤ length) :
    (∃ out, Ticketing.release runs block start length capacity = .ok out) ↔
      (0 ≤ start ∧ ∀ c ∈ capacity, start + length ≤ c) ∧
        ¬∃ x, (⟨block, start, length⟩ : Run).Covers block x ∧ Free runs block x := by
  rw [← meetsFree_iff h.toMaximalList hlen]
  constructor
  · rintro ⟨out, hok⟩
    obtain ⟨⟨-, hstart, hcap⟩, -⟩ := release_eq_ok.1 hok
    have hsome : Ticketing.release runs block start length (some (start + length)) = .ok out :=
      release_congr hok fun c hc => (Option.some.inj hc).le
    exact ⟨⟨hstart, hcap⟩, ((Ticketing.release_isOk h.toMaximalList hlen).1 ⟨out, hsome⟩).2.2⟩
  · rintro ⟨⟨hstart, hcap⟩, hmeets⟩
    obtain ⟨out, hok⟩ := (Ticketing.release_isOk h.toMaximalList hlen).2 ⟨hstart, le_rfl, hmeets⟩
    exact ⟨out, release_congr hok hcap⟩

/-- What was taken out can be put back. -/
theorem Normalized.release_occupy (h : Normalized runs) (hp : 1 ≤ p.length) (hok : Ticketing.occupy runs p = .ok out)
    (hstart : 0 ≤ p.start) (hcap : ∀ c ∈ capacity, p.stop ≤ c) :
    Ticketing.release out p.blockId p.start p.length capacity = .ok runs := by
  have hout := h.occupy hp hok
  have hfree := (occupy_spec h.toMaximalList hp hok).2
  obtain ⟨runs', hok'⟩ : ∃ runs', Ticketing.release out p.blockId p.start p.length capacity = .ok runs' := by
    refine (hout.release_isOk hp).2 ⟨⟨hstart, hcap⟩, ?_⟩
    rintro ⟨x, hcover, hx⟩
    exact ((hfree _ _).1 hx).2 hcover
  obtain ⟨hruns', hfree'⟩ := hout.release hok'
  -- the seats of the placement were free before
  have hinside : ∀ b x, p.span.Covers b x → Free runs b x := by
    obtain ⟨run, hrun, hblock, h₁, h₂⟩ := occupy_isOk.1 ⟨out, hok⟩
    rintro b x ⟨rfl, h₃, h₄⟩
    exact ⟨run, hrun, hblock, h₁.trans h₃, h₄.trans_le h₂⟩
  have hback : runs' = runs := by
    refine hruns'.eq_of_free h fun b x => ?_
    have hspan : (⟨p.blockId, p.start, p.length⟩ : Run) = p.span := rfl
    rw [hfree', hfree, hspan]
    constructor
    · rintro (⟨hx, -⟩ | hx)
      · exact hx
      · exact hinside b x hx
    · intro hx
      by_cases hc : p.span.Covers b x
      · exact .inr hc
      · exact .inl ⟨hx, hc⟩
  rw [hok', hback]

/-- What was put back can be taken out again. -/
theorem Normalized.occupy_release (h : Normalized runs)
    (hok : Ticketing.release runs p.blockId p.start p.length capacity = .ok out) :
    Ticketing.occupy out p = .ok runs := by
  obtain ⟨⟨hp, -, -⟩, -⟩ := release_eq_ok.1 hok
  obtain ⟨hout, hfree⟩ := h.release hok
  obtain ⟨runs', hok'⟩ : ∃ runs', Ticketing.occupy out p = .ok runs' := by
    obtain ⟨r, hr, hblock, h₁, h₂⟩ := (release_runs hok).1
    exact occupy_isOk.2 ⟨r, hr, hblock, h₁, h₂⟩
  have hfree' := (occupy_spec hout.toMaximalList hp hok').2
  -- none of the seats that were given back had been free
  have hmiss : ∀ b x, p.span.Covers b x → ¬Free runs b x := by
    rintro b x hc hx
    obtain ⟨rfl, -, -⟩ := id hc
    exact ((h.release_isOk hp).1 ⟨out, hok⟩).2 ⟨x, hc, hx⟩
  have hback : runs' = runs := by
    refine (hout.occupy hp hok').eq_of_free h fun b x => ?_
    have hspan : (⟨p.blockId, p.start, p.length⟩ : Run) = p.span := rfl
    rw [hfree', hfree, hspan]
    constructor
    · rintro ⟨hx | hx, hc⟩
      · exact hx
      · exact absurd hx hc
    · intro hx
      exact ⟨.inl hx, fun hc => hmiss b x hc hx⟩
  rw [hok', hback]

end Operations

/-! ### Sequences of operations -/

/-- An operation on a run list with an interval of at least one seat. -/
inductive SeatOp where
  | occupy (p : Placement) (pos : 1 ≤ p.length)
  | release (block : BlockId) (start length : Int) (capacity : Option Int) (pos : 1 ≤ length)

/-- `none`: the operation raises. -/
def SeatOp.apply (runs : List Run) : SeatOp → Option (List Run)
  | occupy p _ => (Ticketing.occupy runs p).toOption
  | release block start length capacity _ => (Ticketing.release runs block start length capacity).toOption

private theorem eq_ok_of_toOption {ε α : Type} {x : Except ε α} {a : α} (h : x.toOption = some a) : x = .ok a := by
  cases x with
  | error e => cases h
  | ok b => exact congrArg _ (Option.some.inj h)

theorem Normalized.apply {runs out : List Run} {op : SeatOp} (h : Normalized runs) (hop : op.apply runs = some out) :
    Normalized out := by
  cases op with
  | occupy p pos => exact h.occupy pos (eq_ok_of_toOption hop)
  | release block start length capacity pos => exact (h.release (eq_ok_of_toOption hop)).1

theorem Normalized.exec {runs out : List Run} {ops : List SeatOp} (h : Normalized runs)
    (hops : exec SeatOp.apply runs ops = some out) : Normalized out :=
  exec_invariant (C := fun _ _ => True) (fun _ _ _ _ hop hn => hn.apply hop) h (.of_forall fun _ _ _ => trivial) hops

/-- `occupy` and `release` on a normal form: when each of them goes through, which seats are free afterwards,
that the result is a normal form again and the other operation undoes it; and sequences of operations that end
with the same free seats end with the same list. -/
theorem occupy_release_exact {runs : List Run} (h : Normalized runs) (p : Placement) (hp : 1 ≤ p.length) :
    ((∃ out, occupy runs p = .ok out) ↔ ∃ run ∈ runs, p.insideOf run) ∧
      (∀ out, occupy runs p = .ok out → Normalized out ∧ (∀ b x, Free out b x ↔ Free runs b x ∧ ¬p.span.Covers b x) ∧
        ∀ capacity : Option Int, 0 ≤ p.start → (∀ c ∈ capacity, p.stop ≤ c) →
          release out p.blockId p.start p.length capacity = .ok runs) ∧
      (∀ capacity : Int, (∃ e, release runs p.blockId p.start p.length (some capacity) = .error e) ↔
        (p.start < 0 ∨ capacity < p.stop) ∨ ∃ x, p.span.Covers p.blockId x ∧ Free runs p.blockId x) ∧
      (∀ (capacity : Option Int) (out : List Run), release runs p.blockId p.start p.length capacity = .ok out →
        Normalized out ∧ (∀ b x, Free out b x ↔ Free runs b x ∨ p.span.Covers b x) ∧ occupy out p = .ok runs) ∧
      ∀ (runs' : List Run) (ops ops' : List SeatOp) (out out' : List Run), Normalized runs' →
        exec SeatOp.apply runs ops = some out → exec SeatOp.apply runs' ops' = some out' →
        (∀ b x, Free out b x ↔ Free out' b x) → out = out' := by
  refine ⟨occupy_isOk, fun out hok => ?_, fun capacity => ?_, fun capacity out hok => ?_, ?_⟩
  · exact ⟨h.occupy hp hok, (occupy_spec h.toMaximalList hp hok).2, fun _ => h.release_occupy hp hok⟩
  · have hok : (∃ out, release runs p.blockId p.start p.length (some capacity) = .ok out) ↔ _ := h.release_isOk hp
    have herr : (∃ e, release runs p.blockId p.start p.length (some capacity) = .error e) ↔
        ¬∃ out, release runs p.blockId p.start p.length (some capacity) = .ok out := by
      cases release runs p.blockId p.start p.length (some capacity) <;> simp
    have hspan : (⟨p.blockId, p.start, p.length⟩ : Run) = p.span := rfl
    rw [herr, hok, hspan]
    simp only [Option.mem_def, Option.some.injEq, forall_eq', Placement.stop]
    by_cases hx : ∃ x, p.span.Covers p.blockId x ∧ Free runs p.blockId x
    · simp [hx]
    · simp only [hx, not_false_eq_true, and_true, or_false]
      omega
  · obtain ⟨hout, hfree⟩ := h.release hok
    exact ⟨hout, hfree, h.occupy_release hok⟩
  · intro runs' ops ops' out out' h' hops hops'
    exact (h.exec hops).eq_of_free (h'.exec hops')

/-- Seats 3 and 4 of eight are taken and given back. -/
theorem occupy_release_eight :
    release [⟨1, 0, 3⟩, ⟨1, 5, 3⟩] 1 3 2 (some 8) = .ok [⟨1, 0, 8⟩] := by
  have h : Normalized [⟨1, 0, 8⟩] := ⟨⟨by decide, List.pairwise_singleton _ _⟩, List.pairwise_singleton _ _⟩
  have hexact := occupy_release_exact h ⟨1, 3, 2, 0⟩ (by decide)
  have hok : occupy [⟨1, 0, 8⟩] ⟨1, 3, 2, 0⟩ = .ok [⟨1, 0, 3⟩, ⟨1, 5, 3⟩] := by decide
  exact (hexact.2.1 _ hok).2.2 (some 8) (by decide) (by decide)

/-! ### No orphan under a strict policy -/

/-- A run list and the placements that were cut out of it and not given back. -/
structure SeatChart where
  runs : List Run
  live : List Placement := []

inductive ChartAct where
  /-- `quantity` seats go to the buyer at one of the legal anchors. -/
  | allocate (quantity : Int) (geometry : BlockId → Option BlockGeometry) (policy : Policy) (anchor : Nat)
  /-- A live placement is given back. -/
  | release (i : Nat) (capacity : Option Int)

def ChartAct.policy : ChartAct → Option Policy
  | allocate _ _ policy _ => some policy
  | release .. => none

namespace SeatChart

/-- `none`: there is no such anchor or placement, or the operation raises. -/
def step (c : SeatChart) : ChartAct → Option SeatChart
  | .allocate quantity geometry policy anchor =>
    (legalAnchors c.runs quantity geometry policy).bind fun anchors =>
      anchors[anchor]?.bind fun p =>
        (occupy c.runs p).toOption.map fun runs => { runs := runs, live := c.live ++ [p] }
  | .release i capacity =>
    c.live[i]?.bind fun p =>
      (release c.runs p.blockId p.start p.length capacity).toOption.map fun runs =>
        { runs := runs, live := c.live.eraseIdx i }

/-- The placement that is given back. -/
def released (c : SeatChart) : ChartAct → Option Placement
  | .allocate .. => none
  | .release i _ => c.live[i]?

/-- The policy keeps every run it leaves at two seats or more, and nobody gives back a single seat. -/
def Strict (c : SeatChart) (a : ChartAct) : Prop :=
  (∀ policy ∈ a.policy, 2 ≤ policy.minRun) ∧ ∀ p ∈ c.released a, 2 ≤ p.length

instance (c : SeatChart) (a : ChartAct) : Decidable (c.Strict a) :=
  inferInstanceAs (Decidable ((∀ policy ∈ a.policy, _) ∧ ∀ p ∈ c.released a, _))

/-- The list is a normal form without orphans, and the live placements have no seat in common with it or with
each other. -/
structure Sound (c : SeatChart) : Prop where
  normalized : Normalized c.runs
  noOrphan : ∀ r ∈ c.runs, r.length ≠ 1
  pos : ∀ p ∈ c.live, 1 ≤ p.length
  taken : ∀ p ∈ c.live, ∀ b x, p.span.Covers b x → ¬Free c.runs b x
  disjoint : c.live.Pairwise fun p q => ∀ b x, p.span.Covers b x → ¬q.span.Covers b x

end SeatChart

/-- What a legal cut under a strict policy leaves is nothing or at least two seats. -/
private theorem occupy_noOrphan {runs out : List Run} {run : Run} {quantity : Int} {geo : BlockGeometry}
    {policy : Policy}
    {p : Placement} (h : Normalized runs) (hno : ∀ r ∈ runs, r.length ≠ 1) (hstrict : 2 ≤ policy.minRun)
    (hrun : run ∈ runs)
    (hp : p ∈ candidates run quantity geo policy) (hok : occupy runs p = .ok out) : ∀ r ∈ out, r.length ≠ 1 := by
  obtain ⟨hinside, hlen, hq⟩ := mem_candidates hp
  have hmid := policy.two_le_midLo
  have hlegal := residuals_of_mem_candidates hp
  simp only [LeavesLegal, Placement.residuals] at hlegal
  intro r hr
  obtain ⟨run', hrun', hr⟩ := List.mem_flatMap.1 ((mem_occupy hok).1 hr)
  unfold occupyOne at hr
  split at hr
  · rename_i hinside'
    -- both runs contain the first seat of the placement
    have hcover : ∀ s : Run, p.insideOf s → s.Covers p.blockId p.start := by
      rintro s ⟨hb, h₁, h₂⟩
      refine ⟨hb, h₁, ?_⟩
      unfold Placement.stop at h₂
      omega
    obtain rfl := h.toMaximalList.maximal.unique hrun' hrun (hcover run' hinside') (hcover run hinside)
    rcases List.mem_append.1 hr with hr | hr
    · split at hr
      · rw [List.mem_singleton.1 hr]
        simp only
        omega
      · cases hr
    · split at hr
      · rw [List.mem_singleton.1 hr]
        simp only
        omega
      · cases hr
  · rw [List.mem_singleton.1 hr]
    exact hno run' hrun'

namespace SeatChart

variable {c c' : SeatChart}

theorem Sound.allocate {quantity : Int} {geometry : BlockId → Option BlockGeometry} {policy : Policy}
    {anchors : List Placement} {p : Placement} {runs : List Run} (h : c.Sound) (hstrict : 2 ≤ policy.minRun)
    (hanchors : legalAnchors c.runs quantity geometry policy = some anchors) (hp : p ∈ anchors)
    (hok : occupy c.runs p = .ok runs) : Sound { runs := runs, live := c.live ++ [p] } := by
  obtain ⟨run, hrun, geo, -, hcand⟩ := exists_of_mem_legalAnchors hanchors hp
  obtain ⟨hinside, hlen, hq⟩ := mem_candidates hcand
  have hpos : 1 ≤ p.length := hlen ▸ hq
  obtain ⟨-, hfree⟩ := occupy_spec h.normalized.toMaximalList hpos hok
  have hseats : ∀ b x, p.span.Covers b x → Free c.runs b x := by
    obtain ⟨hb, h₁, h₂⟩ := hinside
    rintro b x ⟨rfl, h₃, h₄⟩
    exact ⟨run, hrun, hb, h₁.trans h₃, h₄.trans_le h₂⟩
  constructor
  · exact h.normalized.occupy hpos hok
  · exact occupy_noOrphan h.normalized h.noOrphan hstrict hrun hcand hok
  · intro q hq
    rcases List.mem_append.1 hq with hq | hq
    · exact h.pos q hq
    · rw [List.mem_singleton.1 hq]
      exact hpos
  · intro q hq b x hc hx
    obtain ⟨hx, hnot⟩ := (hfree b x).1 hx
    rcases List.mem_append.1 hq with hq | hq
    · exact h.taken q hq b x hc hx
    · rw [List.mem_singleton.1 hq] at hc
      exact hnot hc
  · refine List.pairwise_append.2 ⟨h.disjoint, List.pairwise_singleton _ _, fun q hq p' hp' b x hcq hcp => ?_⟩
    rw [List.mem_singleton.1 hp'] at hcp
    exact h.taken q hq b x hcq (hseats b x hcp)

/-- Two live placements have no seat in common. -/
private theorem Sound.apart {i j : Nat} {p q : Placement} (h : c.Sound) (hne : i ≠ j) (hi : c.live[i]? = some p)
    (hj : c.live[j]? = some q) : ∀ b x, p.span.Covers b x → ¬q.span.Covers b x := by
  obtain ⟨hi', rfl⟩ := List.getElem?_eq_some_iff.1 hi
  obtain ⟨hj', rfl⟩ := List.getElem?_eq_some_iff.1 hj
  have hdisjoint := List.pairwise_iff_getElem.1 h.disjoint
  rcases Nat.lt_or_gt_of_ne hne with hlt | hlt
  · exact hdisjoint i j hi' hj' hlt
  · exact fun b x hc hc' => hdisjoint j i hj' hi' hlt b x hc' hc

theorem Sound.release {i : Nat} {p : Placement} {capacity : Option Int} {runs : List Run} (h : c.Sound)
    (hi : c.live[i]? = some p) (hstrict : 2 ≤ p.length)
    (hok : release c.runs p.blockId p.start p.length capacity = .ok runs) :
    Sound { runs := runs, live := c.live.eraseIdx i } := by
  obtain ⟨hnorm, hfree⟩ := h.normalized.release hok
  constructor
  · exact hnorm
  · intro r hr
    rcases (release_runs hok).2 r hr with hr | hr
    · exact h.noOrphan r hr
    · omega
  · exact fun q hq => h.pos q (List.mem_of_mem_eraseIdx hq)
  · intro q hq b x hc hx
    rcases (hfree b x).1 hx with hx | hx
    · exact h.taken q (List.mem_of_mem_eraseIdx hq) b x hc hx
    · -- the placement that came back was another one
      obtain ⟨j, hj, hq⟩ := List.mem_eraseIdx_iff_getElem?.1 hq
      exact h.apart hj hq hi b x hc hx
  · exact h.disjoint.sublist (List.eraseIdx_sublist ..)

theorem Sound.step {a : ChartAct} (hstrict : c.Strict a) (hstep : c.step a = some c') (h : c.Sound) : c'.Sound := by
  cases a with
  | allocate quantity geometry policy anchor =>
    obtain ⟨anchors, hanchors, hstep⟩ := Option.bind_eq_some_iff.1 hstep
    obtain ⟨p, hp, hstep⟩ := Option.bind_eq_some_iff.1 hstep
    obtain ⟨runs, hruns, rfl⟩ := Option.map_eq_some_iff.1 hstep
    exact h.allocate (hstrict.1 policy rfl) hanchors (List.mem_of_getElem? hp) (eq_ok_of_toOption hruns)
  | release i capacity =>
    obtain ⟨p, hp, hstep⟩ := Option.bind_eq_some_iff.1 hstep
    obtain ⟨runs, hruns, rfl⟩ := Option.map_eq_some_iff.1 hstep
    exact h.release hp (hstrict.2 p hp) (eq_ok_of_toOption hruns)

/-- From a normal form without an orphan, no sequence of strict allocations and of releases of two seats or
more leads to an orphan; every placement that is still live can be given back within its block, and every
anchor can be taken. -/
theorem strict_policy_never_orphans {runs : List Run} {acts : List ChartAct} {c : SeatChart} (hruns : Normalized runs)
    (hno : ∀ r ∈ runs, r.length ≠ 1) (hC : Along step Strict { runs } acts) (h : exec step { runs } acts = some c) :
    (∀ r ∈ c.runs, r.length ≠ 1) ∧
      (∀ p ∈ c.live, ∀ capacity : Option Int, 0 ≤ p.start → (∀ n ∈ capacity, p.stop ≤ n) →
        ∃ out, Ticketing.release c.runs p.blockId p.start p.length capacity = .ok out) ∧
      ∀ quantity geometry policy anchors, legalAnchors c.runs quantity geometry policy = some anchors →
        ∀ p ∈ anchors, ∃ out, occupy c.runs p = .ok out := by
  have hstart : Sound { runs } := ⟨hruns, hno, nofun, nofun, List.Pairwise.nil⟩
  have hsound : c.Sound := exec_invariant (fun _ _ _ hC hs hI => hI.step hC hs) hstart hC h
  refine ⟨hsound.noOrphan, fun p hp capacity hpos hcap => ?_,
    fun quantity geometry policy anchors hanchors p hp => ?_⟩
  · refine (hsound.normalized.release_isOk (hsound.pos p hp)).2 ⟨⟨hpos, hcap⟩, ?_⟩
    rintro ⟨x, hc, hx⟩
    exact hsound.taken p hp _ x hc hx
  · obtain ⟨host, -, hhost, hinside⟩ := find_host hanchors hp
    exact occupy_isOk.2 ⟨host, hhost, hinside⟩

/-- A block of nine seats, all alike. -/
private def nine : BlockId → Option BlockGeometry := fun _ => some ⟨1, 9, 1, 0, by decide, le_rfl⟩

/-- Three seats are cut out on the left and two next to them; then the three come back. -/
theorem strict_policy_never_orphans_nine :
    ∃ c, exec step { runs := [⟨1, 0, 9⟩] }
        [.allocate 3 nine normalPolicy 0, .allocate 2 nine normalPolicy 0, .release 0 (some 9)] = some c ∧
      c.runs = [⟨1, 0, 3⟩, ⟨1, 5, 4⟩] ∧ ∀ r ∈ c.runs, r.length ≠ 1 := by
  have hruns : Normalized [⟨1, 0, 9⟩] := ⟨⟨by decide, List.pairwise_singleton _ _⟩, List.pairwise_singleton _ _⟩
  obtain ⟨c, hc, hp⟩ := exec_any step { runs := [⟨1, 0, 9⟩] }
    [.allocate 3 nine normalPolicy 0, .allocate 2 nine normalPolicy 0, .release 0 (some 9)]
    (fun c => c.runs = [⟨1, 0, 3⟩, ⟨1, 5, 4⟩]) (by decide +kernel)
  rw [decide_eq_true_eq] at hp
  exact ⟨c, hc, hp, (strict_policy_never_orphans hruns (by decide) (.of_check (by decide +kernel)) hc).1⟩

end SeatChart

end Ticketing
