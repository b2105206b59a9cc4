import Ticketing.FreeRuns
import Ticketing.Redis

/-!
# The zone scripts refine the seating oracle

`ZoneInv` is what the two hashes of a zone promise: `runs` holds the maximal free runs of its blocks, `ends` is its
reverse index, and the counter is the number of free seats.  The claim script edits both hashes in a constant
number of writes and the release script finds the neighbours by boundary tags; under `ZoneInv` both compute what
`occupy` and `release` compute by rescanning the list, and keep `ZoneInv`.
-/

namespace Ticketing

open Span

/-- The invariant of the keys of one zone. -/
structure ZoneInv (z : ZoneKeys) : Prop where
  /-- The runs have positive length and neither overlap nor touch. -/
  maximal : MaximalList z.parseRuns
  /-- Every run lies inside its block. -/
  inside : ∀ run ∈ z.parseRuns, ∃ g, z.geom.lookup run.block = some g ∧ 0 ≤ run.start ∧ run.stop ≤ g.capacity
  /-- `ends` is the reverse index of `runs`. -/
  ends : ∀ block stop start, z.ends.lookup ⟨block, stop⟩ = some start ↔
    ∃ run ∈ z.parseRuns, run.block = block ∧ run.stop = stop ∧ run.start = start
  /-- The counter is the number of free seats. -/
  counter : z.available.getD 0 = z.remaining

namespace ZoneKeys

theorem mem_parseRuns {z : ZoneKeys} {run : Run} :
    run ∈ z.parseRuns ↔ z.runs.lookup ⟨run.block, run.start⟩ = some run.length := by
  unfold parseRuns
  rw [List.mem_map, ← Hash.mem_entries_iff]
  constructor
  · rintro ⟨⟨⟨b, p⟩, n⟩, he, rfl⟩; exact he
  · intro h; exact ⟨_, h, rfl⟩

/-- A run is determined by its block and its start. -/
theorem eq_of_start {z : ZoneKeys} {run run' : Run} (h : run ∈ z.parseRuns) (h' : run' ∈ z.parseRuns)
    (hb : run.block = run'.block) (hs : run.start = run'.start) : run = run' := by
  rw [mem_parseRuns] at h h'
  rw [hb, hs, h', Option.some.injEq] at h
  cases run; cases run'; simp only [Span.mk.injEq] at *
  exact ⟨hb, hs, h.symm⟩

theorem nodup_parseRuns (z : ZoneKeys) : z.parseRuns.Nodup := by
  refine List.Nodup.map ?_ z.runs.nodupKeys.nodup
  rintro ⟨⟨b, p⟩, n⟩ ⟨⟨b', p'⟩, n'⟩ h
  simp only [Span.mk.injEq] at h
  obtain ⟨rfl, rfl, rfl⟩ := h
  rfl

theorem remaining_eq_total (z : ZoneKeys) : z.remaining = Hash.total z.runs := by
  unfold remaining parseRuns Hash.total
  rw [List.map_map]
  rfl

@[simp] theorem parseRuns_addAvailable (z : ZoneKeys) (n : Int) : (z.addAvailable n).parseRuns = z.parseRuns := rfl

@[simp] theorem geom_addAvailable (z : ZoneKeys) (n : Int) : (z.addAvailable n).geom = z.geom := rfl

@[simp] theorem geom_cut (z : ZoneKeys) (b : BlockId) (rs rl s n : Int) : (z.cut b rs rl s n).geom = z.geom := rfl

@[simp] theorem geom_giveBack (z : ZoneKeys) (b : BlockId) (lo hi : Int) :
    (z.giveBack b lo hi).2.2.geom = z.geom := rfl

end ZoneKeys

/-! ### Cutting a run -/

section Cut

variable {z : ZoneKeys} {block : BlockId} {runStart runLength start length : Int}

/-- The hypotheses under which the claim script reaches its writes. -/
structure CutOk (z : ZoneKeys) (block : BlockId) (runStart runLength start length : Int) : Prop where
  host : z.runs.lookup ⟨block, runStart⟩ = some runLength
  lower : runStart ≤ start
  upper : start + length ≤ runStart + runLength
  pos : 1 ≤ length

private theorem lookup_cut_runs (k : Field) :
    (z.cut block runStart runLength start length).runs.lookup k =
      if 0 < runStart + runLength - (start + length) ∧ k = ⟨block, start + length⟩ then
        some (runStart + runLength - (start + length))
      else if k = ⟨block, runStart⟩ then (if 0 < start - runStart then some (start - runStart) else none)
      else z.runs.lookup k := by
  unfold ZoneKeys.cut
  simp only
  split <;> split <;> simp only [Hash.lookup_insert_ite, Hash.lookup_erase_ite, true_and, false_and, if_false, *] <;>
    split <;> simp_all

private theorem lookup_cut_ends (k : Field) :
    (z.cut block runStart runLength start length).ends.lookup k =
      if 0 < runStart + runLength - (start + length) ∧ k = ⟨block, runStart + runLength⟩ then some (start + length)
      else if 0 < start - runStart ∧ k = ⟨block, start⟩ then some runStart
      else if k = ⟨block, runStart + runLength⟩ then none
      else z.ends.lookup k := by
  unfold ZoneKeys.cut
  simp only
  split <;> split <;> simp only [Hash.lookup_insert_ite, Hash.lookup_erase_ite, true_and, false_and, if_false, *]

/-- No old run starts where the right piece of the cut starts. -/
private theorem cut_right_fresh (hz : ZoneInv z) (h : CutOk z block runStart runLength start length)
    (hright : start + length < runStart + runLength) : z.runs.lookup ⟨block, start + length⟩ = none := by
  obtain ⟨hhost, hlo, hhi, hlen⟩ := h
  cases hm : z.runs.lookup ⟨block, start + length⟩ with
  | none => rfl
  | some m =>
    have hm : (⟨block, start + length, m⟩ : Run) ∈ z.parseRuns := ZoneKeys.mem_parseRuns.2 hm
    have hmem : (⟨block, runStart, runLength⟩ : Run) ∈ z.parseRuns := ZoneKeys.mem_parseRuns.2 hhost
    have := hz.maximal.maximal.apart _ _ hm hmem (by simp; omega) rfl
    have := hz.maximal.pos _ hm
    simp only [stop] at *
    omega

/-- The runs after the cut: the other runs, and what is left of the host on both sides. -/
theorem mem_cut (hz : ZoneInv z) (h : CutOk z block runStart runLength start length) {run : Run} :
    run ∈ (z.cut block runStart runLength start length).parseRuns ↔
      (run ∈ z.parseRuns ∧ run ≠ ⟨block, runStart, runLength⟩) ∨
      (runStart < start ∧ run = ⟨block, runStart, start - runStart⟩) ∨
      (start + length < runStart + runLength ∧
        run = ⟨block, start + length, runStart + runLength - (start + length)⟩) := by
  have hfresh := cut_right_fresh hz h
  obtain ⟨hhost, hlo, hhi, hlen⟩ := h
  obtain ⟨b, s, n⟩ := run
  rw [ZoneKeys.mem_parseRuns, ZoneKeys.mem_parseRuns, lookup_cut_runs]
  simp only [Field.mk.injEq, Span.mk.injEq, ne_eq, not_and]
  constructor
  · intro hl
    split at hl
    · rename_i hc
      obtain ⟨hc, rfl, rfl⟩ := hc
      exact .inr (.inr ⟨by omega, rfl, rfl, by simpa [eq_comm] using hl⟩)
    · split at hl
      · rename_i hc
        obtain ⟨rfl, rfl⟩ := hc
        split at hl
        · exact .inr (.inl ⟨by omega, rfl, rfl, by simpa [eq_comm] using hl⟩)
        · cases hl
      · rename_i hc
        exact .inl ⟨hl, fun hb hs => absurd ⟨hb, hs⟩ hc⟩
  · rintro (⟨hl, hne⟩ | ⟨hl, rfl, rfl, rfl⟩ | ⟨hl, rfl, rfl, rfl⟩)
    · rw [if_neg, if_neg, hl]
      · rintro ⟨rfl, rfl⟩
        rw [hhost, Option.some.injEq] at hl
        exact hne rfl rfl hl.symm
      · rintro ⟨hr, rfl, rfl⟩
        rw [hfresh (by omega)] at hl
        cases hl
    · rw [if_neg (by omega), if_pos ⟨rfl, rfl⟩, if_pos (by omega)]
    · rw [if_pos ⟨by omega, rfl, rfl⟩]

/-- The cut is `occupy` on the parsed runs. -/
theorem cut_perm_occupy (hz : ZoneInv z) (h : CutOk z block runStart runLength start length) (score : ℚ) :
    ∃ out, occupy z.parseRuns ⟨block, start, length, score⟩ = .ok out ∧
      (z.cut block runStart runLength start length).parseRuns.Perm out := by
  have hhost : (⟨block, runStart, runLength⟩ : Run) ∈ z.parseRuns := ZoneKeys.mem_parseRuns.2 h.host
  have hin : (⟨block, start, length, score⟩ : Placement).insideOf ⟨block, runStart, runLength⟩ :=
    ⟨rfl, h.lower, h.upper⟩
  obtain ⟨out, hout⟩ := occupy_isOk.2 ⟨_, hhost, hin⟩
  refine ⟨out, hout, ?_⟩
  have hmax := (occupy_spec hz.maximal (p := ⟨block, start, length, score⟩) h.pos hout).1
  rw [List.perm_ext_iff_of_nodup (ZoneKeys.nodup_parseRuns _) hmax.nodup]
  intro run
  rw [mem_cut hz h, mem_occupy hout, List.mem_flatMap]
  have hlen := h.pos
  constructor
  · rintro (⟨hr, hne⟩ | ⟨hl, rfl⟩ | ⟨hr, rfl⟩)
    · -- the placement lies in the host only, so another run is kept whole
      refine ⟨run, hr, ?_⟩
      have hout : ¬ (⟨block, start, length, score⟩ : Placement).insideOf run := by
        rintro ⟨hb, h1, h2⟩
        refine hne (hz.maximal.maximal.unique hr hhost (b := block) (p := start) ⟨hb, h1, ?_⟩ ⟨rfl, h.lower, ?_⟩)
        · simp only [Placement.stop] at h2; omega
        · have := h.upper; simp only [stop]; omega
      simp [occupyOne, hout]
    · exact ⟨_, hhost, by simp [occupyOne, hin, hl]⟩
    · refine ⟨_, hhost, ?_⟩
      simp only [occupyOne, hin, if_true, List.mem_append]
      right
      rw [if_pos (by simpa [stop, Placement.stop] using hr)]
      simp [stop, Placement.stop]
  · rintro ⟨r, hr, hrun⟩
    unfold occupyOne at hrun
    split at hrun
    · rename_i hrin
      obtain rfl : r = ⟨block, runStart, runLength⟩ := by
        obtain ⟨hb, h1, h2⟩ := hrin
        refine hz.maximal.maximal.unique hr hhost (b := block) (p := start) ⟨hb, h1, ?_⟩ ⟨rfl, h.lower, ?_⟩
        · simp only [Placement.stop] at h2; omega
        · have := h.upper; simp only [stop]; omega
      simp only [List.mem_append] at hrun
      rcases hrun with hrun | hrun <;> split at hrun <;> simp only [List.mem_singleton, List.not_mem_nil] at hrun
      · exact .inr (.inl ⟨by assumption, hrun⟩)
      · exact .inr (.inr ⟨by assumption, hrun⟩)
    · rename_i hrin
      rw [List.mem_singleton] at hrun
      subst hrun
      exact .inl ⟨hr, fun hEq => hrin (hEq ▸ hin)⟩

/-- The cut takes exactly the seats of the interval out of the free seats. -/
theorem free_cut (hz : ZoneInv z) (h : CutOk z block runStart runLength start length) (b : BlockId) (x : Int) :
    Free (z.cut block runStart runLength start length).parseRuns b x ↔
      Free z.parseRuns b x ∧ ¬ (⟨block, start, length⟩ : Run).Covers b x := by
  obtain ⟨out, hout, hperm⟩ := cut_perm_occupy hz h 0
  rw [free_perm hperm]
  exact (occupy_spec hz.maximal (p := ⟨block, start, length, 0⟩) h.pos hout).2 b x

private theorem remaining_cut (hz : ZoneInv z) (h : CutOk z block runStart runLength start length) :
    (z.cut block runStart runLength start length).remaining = z.remaining - length := by
  have hright := cut_right_fresh hz h
  obtain ⟨hhost, hlo, hhi, hlen⟩ := h
  have herase := Hash.total_erase hhost
  rw [ZoneKeys.remaining_eq_total, ZoneKeys.remaining_eq_total]
  unfold ZoneKeys.cut
  simp only
  have hleft : ∀ v, Hash.total ((z.runs.erase ⟨block, runStart⟩).insert ⟨block, runStart⟩ v) =
      Hash.total z.runs - runLength + v := by
    intro v
    rw [Hash.total_insert _ (by simp), herase]
  have hne : (⟨block, start + length⟩ : Field) ≠ ⟨block, runStart⟩ := by simp; omega
  split <;> split
  · rw [Hash.total_insert _ (by rw [Hash.lookup_insert_ite, if_neg hne, Hash.lookup_erase_ite, if_neg hne]
                                exact hright (by omega)), hleft]
    omega
  · rw [Hash.total_insert _ (by rw [Hash.lookup_erase_ite, if_neg hne]; exact hright (by omega)), herase]
    omega
  · rw [hleft]; omega
  · rw [herase]; omega

/-- The cut with the counter moved keeps the invariant. -/
theorem ZoneInv.cut (hz : ZoneInv z) (h : CutOk z block runStart runLength start length) :
    ZoneInv ((z.cut block runStart runLength start length).addAvailable (-length)) where
  maximal := by
    obtain ⟨out, hout, hperm⟩ := cut_perm_occupy hz h 0
    exact (occupy_spec hz.maximal (p := ⟨block, start, length, 0⟩) h.pos hout).1.perm hperm.symm
  inside := by
    intro run hrun
    rw [ZoneKeys.parseRuns_addAvailable, mem_cut hz h] at hrun
    obtain ⟨hhost, hlo, hhi, hlen⟩ := h
    have hmem : (⟨block, runStart, runLength⟩ : Run) ∈ z.parseRuns := ZoneKeys.mem_parseRuns.2 hhost
    obtain ⟨g, hg, h0, hcap⟩ := hz.inside _ hmem
    simp only [stop] at h0 hcap
    rcases hrun with ⟨hr, -⟩ | ⟨hl, rfl⟩ | ⟨hr, rfl⟩
    · exact hz.inside run hr
    · exact ⟨g, hg, h0, by simp only [stop]; omega⟩
    · exact ⟨g, hg, by simp only; omega, by simp only [stop]; omega⟩
  ends := by
    intro b e s
    have hhost : (⟨block, runStart, runLength⟩ : Run) ∈ z.parseRuns := ZoneKeys.mem_parseRuns.2 h.host
    have hlen := h.pos
    have hlo := h.lower
    have hhi := h.upper
    show (z.cut block runStart runLength start length).ends.lookup ⟨b, e⟩ = some s ↔ _
    simp only [ZoneKeys.parseRuns_addAvailable, mem_cut hz h]
    rw [lookup_cut_ends]
    simp only [Field.mk.injEq]
    -- another old run cannot stop strictly inside the host or at its end
    have hother : ∀ run ∈ z.parseRuns, run ≠ ⟨block, runStart, runLength⟩ → run.block = block →
        ¬ (runStart ≤ run.stop ∧ run.stop ≤ runStart + runLength) := by
      intro run hr hne hb
      have := hz.maximal.maximal.apart _ _ hr hhost hne hb
      have := hz.maximal.pos _ hr
      simp only [stop] at *
      omega
    constructor
    · intro hl
      split at hl
      · rename_i hc
        obtain ⟨hr, rfl, rfl⟩ := hc
        exact ⟨_, .inr (.inr ⟨by omega, rfl⟩), rfl, by simp only [stop]; omega, by simpa using hl⟩
      · split at hl
        · rename_i hc
          obtain ⟨hr, rfl, rfl⟩ := hc
          exact ⟨_, .inr (.inl ⟨by omega, rfl⟩), rfl, by simp only [stop]; omega, by simpa using hl⟩
        · split at hl
          · cases hl
          · rename_i hc
            obtain ⟨run, hr, rfl, rfl, rfl⟩ := (hz.ends b e s).1 hl
            refine ⟨run, .inl ⟨hr, ?_⟩, rfl, rfl, rfl⟩
            rintro rfl
            exact hc ⟨rfl, rfl⟩
    · rintro ⟨run, ⟨hr, hne⟩ | ⟨hl, rfl⟩ | ⟨hr, rfl⟩, rfl, rfl, rfl⟩
      · have hnot := hother run hr hne
        rw [if_neg, if_neg, if_neg]
        · exact (hz.ends _ _ _).2 ⟨run, hr, rfl, rfl, rfl⟩
        · rintro ⟨hb, he⟩; exact hnot hb (by omega)
        · rintro ⟨-, hb, he⟩; exact hnot hb (by omega)
        · rintro ⟨-, hb, he⟩; exact hnot hb (by omega)
      · simp only [stop]
        rw [if_neg (by omega), if_pos ⟨by omega, trivial, by omega⟩]
      · simp only [stop]
        rw [if_pos ⟨by omega, trivial, by omega⟩]
  counter := by
    have hrem := remaining_cut hz h
    have hc := hz.counter
    show ((incrBy z.available (-length)).getD 0) = (z.cut block runStart runLength start length).remaining
    simp only [incrBy, Option.getD_some]
    omega

end Cut

/-! ### Giving an interval back -/

section GiveBack

variable {z : ZoneKeys} {block : BlockId} {lo hi : Int}

/-- The hypotheses under which the release script reaches its writes: the interval is not empty, lies in the block
and meets no free run. -/
structure GiveBackOk (z : ZoneKeys) (block : BlockId) (lo hi : Int) : Prop where
  lt : lo < hi
  clear : ∀ run ∈ z.parseRuns, run.block = block → run.stop ≤ lo ∨ hi ≤ run.start
  bounds : ∃ g, z.geom.lookup block = some g ∧ 0 ≤ lo ∧ hi ≤ g.capacity

/-- The run of `block` touches `[lo, hi)` from the left or from the right. -/
def Touches (block : BlockId) (lo hi : Int) (run : Run) : Prop :=
  run.block = block ∧ (run.stop = lo ∨ run.start = hi)

/-- The merged run starts at the left neighbour, if there is one. -/
private theorem giveBack_left (block : BlockId) (lo hi : Int) (hz : ZoneInv z) :
    ((z.giveBack block lo hi).1 = lo ∧ z.ends.lookup ⟨block, lo⟩ = none ∧
        ∀ run ∈ z.parseRuns, run.block = block → run.stop ≠ lo) ∨
      ∃ run ∈ z.parseRuns, run.block = block ∧ run.stop = lo ∧ run.start = (z.giveBack block lo hi).1 ∧
        z.ends.lookup ⟨block, lo⟩ = some run.start := by
  unfold ZoneKeys.giveBack
  cases hl : z.ends.lookup ⟨block, lo⟩ with
  | none =>
    refine .inl ⟨rfl, rfl, fun run hr hb hs => ?_⟩
    have := (hz.ends block lo run.start).2 ⟨run, hr, hb, hs, rfl⟩
    rw [hl] at this
    cases this
  | some s =>
    obtain ⟨run, hr, hb, hs, rfl⟩ := (hz.ends block lo s).1 hl
    exact .inr ⟨run, hr, hb, hs, rfl, rfl⟩

/-- The left neighbour starts before the interval, so removing it leaves the lookup at `hi` as it was. -/
private theorem lookup_after_left (block : BlockId) (hz : ZoneInv z) (hlt : lo < hi) :
    ((z.ends.lookup ⟨block, lo⟩).elim z.runs fun s => z.runs.erase ⟨block, s⟩).lookup ⟨block, hi⟩ =
      z.runs.lookup ⟨block, hi⟩ := by
  cases hl : z.ends.lookup ⟨block, lo⟩ with
  | none => rfl
  | some s =>
    obtain ⟨run, hr, hb, hs, rfl⟩ := (hz.ends block lo s).1 hl
    have := hz.maximal.pos run hr
    have hne : (⟨block, hi⟩ : Field) ≠ ⟨block, run.start⟩ := by simp [stop] at *; omega
    exact AList.lookup_erase_ne hne

/-- The merged run stops at the right neighbour, if there is one. -/
private theorem giveBack_right (block : BlockId) (hz : ZoneInv z) (hlt : lo < hi) :
    ((z.giveBack block lo hi).2.1 = hi ∧ z.runs.lookup ⟨block, hi⟩ = none ∧
        ∀ run ∈ z.parseRuns, run.block = block → run.start ≠ hi) ∨
      ∃ run ∈ z.parseRuns, run.block = block ∧ run.start = hi ∧ run.stop = (z.giveBack block lo hi).2.1 ∧
        z.runs.lookup ⟨block, hi⟩ = some run.length := by
  unfold ZoneKeys.giveBack
  simp only [lookup_after_left block hz hlt]
  cases hr : z.runs.lookup ⟨block, hi⟩ with
  | none =>
    refine .inl ⟨rfl, rfl, fun run hrun hb hs => ?_⟩
    have := ZoneKeys.mem_parseRuns.1 hrun
    rw [hb, hs, hr] at this
    cases this
  | some n =>
    exact .inr ⟨⟨block, hi, n⟩, ZoneKeys.mem_parseRuns.2 hr, rfl, rfl, rfl, rfl⟩

private theorem lookup_giveBack_runs (hz : ZoneInv z) (hlt : lo < hi) (k : Field) :
    (z.giveBack block lo hi).2.2.runs.lookup k =
      if k = ⟨block, (z.giveBack block lo hi).1⟩ then
        some ((z.giveBack block lo hi).2.1 - (z.giveBack block lo hi).1)
      else if k = ⟨block, hi⟩ then none
      else if z.ends.lookup ⟨block, lo⟩ = some k.pos ∧ k.block = block then none
      else z.runs.lookup k := by
  have hright := lookup_after_left block hz hlt
  unfold ZoneKeys.giveBack
  simp only [Hash.lookup_insert_ite, hright]
  split
  · rfl
  · obtain ⟨b, x⟩ := k
    cases hr : z.runs.lookup ⟨block, hi⟩ with
    | none =>
      by_cases hk : (⟨b, x⟩ : Field) = ⟨block, hi⟩
      · simp only [Option.elim_none, hk, if_true]
        rw [hk, hright, hr]
      · simp only [Option.elim_none, hk, if_false]
        cases hl : z.ends.lookup ⟨block, lo⟩ with
        | none => simp
        | some s => simp [Hash.lookup_erase_ite, eq_comm, and_comm]
    | some n =>
      simp only [Option.elim_some, Hash.lookup_erase_ite]
      split
      · rfl
      · cases hl : z.ends.lookup ⟨block, lo⟩ with
        | none => simp
        | some s => simp [Hash.lookup_erase_ite, eq_comm, and_comm]

private theorem lookup_giveBack_ends (hz : ZoneInv z) (hlt : lo < hi) (k : Field) :
    (z.giveBack block lo hi).2.2.ends.lookup k =
      if k = ⟨block, (z.giveBack block lo hi).2.1⟩ then some (z.giveBack block lo hi).1
      else if k = ⟨block, lo⟩ then none
      else z.ends.lookup k := by
  have hright := lookup_after_left block hz hlt
  unfold ZoneKeys.giveBack
  simp only [Hash.lookup_insert_ite, hright]
  split
  · rfl
  · rename_i hk
    cases hr : z.runs.lookup ⟨block, hi⟩ with
    | none =>
      cases hl : z.ends.lookup ⟨block, lo⟩ with
      | none =>
        split
        · rename_i h; rw [h]; exact hl
        · rfl
      | some s => simp [Hash.lookup_erase_ite]
    | some n =>
      rw [hr] at hk
      simp only [Option.elim_some] at hk ⊢
      rw [Hash.lookup_erase_ite, if_neg hk]
      cases hl : z.ends.lookup ⟨block, lo⟩ with
      | none =>
        split
        · rename_i h; rw [h]; exact hl
        · rfl
      | some s => simp [Hash.lookup_erase_ite]

/-- The runs after the release: the merged run and the old runs that do not touch the interval. -/
theorem mem_giveBack (hz : ZoneInv z) (h : GiveBackOk z block lo hi) {run : Run} :
    run ∈ (z.giveBack block lo hi).2.2.parseRuns ↔
      run = ⟨block, (z.giveBack block lo hi).1, (z.giveBack block lo hi).2.1 - (z.giveBack block lo hi).1⟩ ∨
      (run ∈ z.parseRuns ∧ ¬ Touches block lo hi run) := by
  have hleft := giveBack_left block lo hi hz
  have hright := giveBack_right block hz h.lt
  rw [ZoneKeys.mem_parseRuns, lookup_giveBack_runs hz h.lt]
  generalize (z.giveBack block lo hi).1 = lo' at *
  generalize (z.giveBack block lo hi).2.1 = hi' at *
  obtain ⟨b, s, n⟩ := run
  simp only [Field.mk.injEq, Span.mk.injEq, Touches]
  constructor
  · intro hl
    split at hl
    · rename_i hc
      exact .inl ⟨hc.1, hc.2, by simpa [eq_comm] using hl⟩
    · split at hl
      · cases hl
      · split at hl
        · cases hl
        · rename_i hc1 hc2 hc3
          have hmem : (⟨b, s, n⟩ : Run) ∈ z.parseRuns := ZoneKeys.mem_parseRuns.2 hl
          refine .inr ⟨hmem, ?_⟩
          rintro ⟨rfl, hs | hs⟩
          · exact hc3 ⟨(hz.ends b lo s).2 ⟨_, hmem, rfl, hs, rfl⟩, rfl⟩
          · exact hc2 ⟨rfl, hs⟩
  · rintro (⟨rfl, rfl, rfl⟩ | ⟨hmem, hnot⟩)
    · rw [if_pos ⟨rfl, rfl⟩]
    · have hlt := h.lt
      have hlen : 0 < n := hz.maximal.pos _ hmem
      rw [if_neg, if_neg, if_neg, ← @ZoneKeys.mem_parseRuns z ⟨b, s, n⟩]
      · exact hmem
      · rintro ⟨he, rfl⟩
        obtain ⟨run, hr, hrb, hrs, hrst⟩ := (hz.ends b lo s).1 he
        have hEq : run = ⟨b, s, n⟩ := ZoneKeys.eq_of_start hr hmem hrb hrst
        subst hEq
        exact hnot ⟨rfl, .inl hrs⟩
      · rintro ⟨rfl, rfl⟩; exact hnot ⟨rfl, .inr rfl⟩
      · rintro ⟨rfl, rfl⟩
        rcases hleft with ⟨rfl, -, -⟩ | ⟨run, hr, hrb, hrs, hrst, -⟩
        · have := h.clear _ hmem rfl
          simp only [stop] at *
          omega
        · have hEq : run = ⟨b, s, n⟩ := ZoneKeys.eq_of_start hr hmem hrb hrst
          subst hEq
          exact hnot ⟨rfl, .inl hrs⟩

/-- What the ends of the merged run are: those of the interval, moved over the neighbours. -/
private theorem giveBack_ends (hz : ZoneInv z) (h : GiveBackOk z block lo hi) :
    (z.giveBack block lo hi).1 ≤ lo ∧ hi ≤ (z.giveBack block lo hi).2.1 ∧
      (∀ run ∈ z.parseRuns, run.block = block → ¬ Touches block lo hi run →
        run.stop < (z.giveBack block lo hi).1 ∨ (z.giveBack block lo hi).2.1 < run.start) ∧
      (∀ x, ((z.giveBack block lo hi).1 ≤ x ∧ x < (z.giveBack block lo hi).2.1) ↔
        ((lo ≤ x ∧ x < hi) ∨ ∃ run ∈ z.parseRuns, Touches block lo hi run ∧ run.start ≤ x ∧ x < run.stop)) ∧
      ∃ g, z.geom.lookup block = some g ∧ 0 ≤ (z.giveBack block lo hi).1 ∧
        (z.giveBack block lo hi).2.1 ≤ g.capacity := by
  have hleft := giveBack_left block lo hi hz
  have hright := giveBack_right block hz h.lt
  obtain ⟨g, hg, h0, hcap⟩ := h.bounds
  have hlt := h.lt
  generalize (z.giveBack block lo hi).1 = lo' at *
  generalize (z.giveBack block lo hi).2.1 = hi' at *
  -- the left end: either nothing touches, or the neighbour `L` does
  have hlo : lo' ≤ lo := by
    rcases hleft with ⟨rfl, -⟩ | ⟨L, hL, -, hLs, hLst, -⟩
    · exact le_refl _
    · have := hz.maximal.pos L hL; simp only [stop] at *; omega
  have hhi : hi ≤ hi' := by
    rcases hright with ⟨rfl, -⟩ | ⟨R, hR, -, hRs, hRst, -⟩
    · exact le_refl _
    · have := hz.maximal.pos R hR; simp only [stop] at *; omega
  refine ⟨hlo, hhi, ?_, ?_, g, hg, ?_, ?_⟩
  · intro run hr hb hnot
    have hne : ¬ (run.stop = lo ∨ run.start = hi) := fun hc => hnot ⟨hb, hc⟩
    have hpos := hz.maximal.pos run hr
    rcases h.clear run hr hb with hc | hc
    · left
      rcases hleft with ⟨rfl, -⟩ | ⟨L, hL, hLb, hLs, hLst, -⟩
      · omega
      · have hap := hz.maximal.maximal.apart run L hr hL (fun hEq => hne (.inl (hEq ▸ hLs))) (hb.trans hLb.symm)
        simp only [stop] at *
        omega
    · right
      rcases hright with ⟨rfl, -⟩ | ⟨R, hR, hRb, hRs, hRst, -⟩
      · omega
      · have hap := hz.maximal.maximal.apart run R hr hR (fun hEq => hne (.inr (hEq ▸ hRs))) (hb.trans hRb.symm)
        simp only [stop] at *
        omega
  · intro x
    constructor
    · rintro ⟨hx1, hx2⟩
      by_cases hl : x < lo
      · rcases hleft with ⟨rfl, -⟩ | ⟨L, hL, hLb, hLs, hLst, -⟩
        · omega
        · exact .inr ⟨L, hL, ⟨hLb, .inl hLs⟩, by omega, by omega⟩
      · by_cases hr : x < hi
        · exact .inl ⟨by omega, hr⟩
        · rcases hright with ⟨rfl, -⟩ | ⟨R, hR, hRb, hRs, hRst, -⟩
          · omega
          · exact .inr ⟨R, hR, ⟨hRb, .inr hRs⟩, by omega, by omega⟩
    · rintro (⟨hx1, hx2⟩ | ⟨run, hr, ⟨hb, ht | ht⟩, hx1, hx2⟩)
      · exact ⟨by omega, by omega⟩
      · rcases hleft with ⟨-, -, hno⟩ | ⟨L, hL, hLb, hLs, hLst, -⟩
        · exact absurd ht (hno run hr hb)
        · have hpos := hz.maximal.pos run hr
          have hposL := hz.maximal.pos L hL
          have hEq : run = L := hz.maximal.maximal.unique hr hL (b := block) (p := lo - 1)
            ⟨hb, by simp only [stop] at ht; omega, by omega⟩ ⟨hLb, by simp only [stop] at hLs; omega, by omega⟩
          subst hEq
          exact ⟨by omega, by omega⟩
      · rcases hright with ⟨-, -, hno⟩ | ⟨R, hR, hRb, hRs, hRst, -⟩
        · exact absurd ht (hno run hr hb)
        · have hEq : run = R := ZoneKeys.eq_of_start hr hR (hb.trans hRb.symm) (ht.trans hRs.symm)
          subst hEq
          exact ⟨by omega, by omega⟩
  · rcases hleft with ⟨rfl, -⟩ | ⟨L, hL, hLb, hLs, hLst, -⟩
    · exact h0
    · obtain ⟨g', hg', h0', -⟩ := hz.inside L hL
      omega
  · rcases hright with ⟨rfl, -⟩ | ⟨R, hR, hRb, hRs, hRst, -⟩
    · exact hcap
    · obtain ⟨g', hg', -, hcap'⟩ := hz.inside R hR
      rw [hRb, hg, Option.some.injEq] at hg'
      subst hg'
      omega

private theorem maximal_giveBack (hz : ZoneInv z) (h : GiveBackOk z block lo hi) :
    MaximalList (z.giveBack block lo hi).2.2.parseRuns := by
  obtain ⟨hlo, hhi, hfar, -, -⟩ := giveBack_ends hz h
  have hlt := h.lt
  refine Maximal.maximalList ⟨?_, ?_⟩ (ZoneKeys.nodup_parseRuns _)
  · intro run hrun
    rcases (mem_giveBack hz h).1 hrun with rfl | ⟨hr, -⟩
    · simp only; omega
    · exact hz.maximal.pos run hr
  · intro run run' hrun hrun' hne
    rcases (mem_giveBack hz h).1 hrun with rfl | ⟨hr, hnot⟩ <;>
      rcases (mem_giveBack hz h).1 hrun' with rfl | ⟨hr', hnot'⟩
    · exact absurd rfl hne
    · intro hb
      rcases hfar run' hr' hb.symm hnot' with hf | hf <;> simp only [stop] at * <;> omega
    · intro hb
      rcases hfar run hr hb hnot with hf | hf <;> simp only [stop] at * <;> omega
    · exact hz.maximal.maximal.apart run run' hr hr' hne

/-- The release adds exactly the seats of the interval to the free seats. -/
theorem free_giveBack (hz : ZoneInv z) (h : GiveBackOk z block lo hi) (b : BlockId) (x : Int) :
    Free (z.giveBack block lo hi).2.2.parseRuns b x ↔
      Free z.parseRuns b x ∨ (⟨block, lo, hi - lo⟩ : Run).Covers b x := by
  obtain ⟨-, -, -, hcov, -⟩ := giveBack_ends hz h
  have hcov := hcov x
  have hI : (⟨block, lo, hi - lo⟩ : Run).Covers b x ↔ block = b ∧ lo ≤ x ∧ x < hi := by
    simp only [Covers, stop]; rw [show lo + (hi - lo) = hi by omega]
  rw [hI]
  constructor
  · rintro ⟨run, hrun, hb, hx1, hx2⟩
    rcases (mem_giveBack hz h).1 hrun with rfl | ⟨hr, -⟩
    · simp only [stop] at hb hx1 hx2
      rcases hcov.1 ⟨hx1, by omega⟩ with hc | ⟨run', hr', ht, hc⟩
      · exact .inr ⟨hb, hc⟩
      · exact .inl ⟨run', hr', ht.1.trans hb, hc⟩
    · exact .inl ⟨run, hr, hb, hx1, hx2⟩
  · have hmerged : (block = b ∧ (z.giveBack block lo hi).1 ≤ x ∧ x < (z.giveBack block lo hi).2.1) →
        Free (z.giveBack block lo hi).2.2.parseRuns b x := by
      rintro ⟨hb, hx1, hx2⟩
      exact ⟨_, (mem_giveBack hz h).2 (.inl rfl), hb, hx1, by simp only [stop]; omega⟩
    rintro (⟨run, hr, hb, hx1, hx2⟩ | ⟨hb, hx⟩)
    · by_cases ht : Touches block lo hi run
      · exact hmerged ⟨ht.1.symm.trans hb, hcov.2 (.inr ⟨run, hr, ht, hx1, hx2⟩)⟩
      · exact ⟨run, (mem_giveBack hz h).2 (.inr ⟨hr, ht⟩), hb, hx1, hx2⟩
    · exact hmerged ⟨hb, hcov.2 (.inl hx)⟩

private theorem remaining_giveBack (hz : ZoneInv z) (h : GiveBackOk z block lo hi) :
    (z.giveBack block lo hi).2.2.remaining = z.remaining + (hi - lo) := by
  rw [ZoneKeys.remaining_eq_total, ZoneKeys.remaining_eq_total]
  have hleft := giveBack_left block lo hi hz
  have hright := giveBack_right block hz h.lt
  have hafter := lookup_after_left block hz h.lt
  have hlt := h.lt
  -- the start of the merged run is not in use once the neighbours are removed
  have hnew : z.runs.lookup ⟨block, lo⟩ = none := by
    cases hl : z.runs.lookup ⟨block, lo⟩ with
    | none => rfl
    | some n =>
      have hmem : (⟨block, lo, n⟩ : Run) ∈ z.parseRuns := ZoneKeys.mem_parseRuns.2 hl
      have := h.clear _ hmem rfl
      have := hz.maximal.pos _ hmem
      simp only [stop] at *
      omega
  unfold ZoneKeys.giveBack at hleft hright ⊢
  simp only [hafter] at hleft hright ⊢
  rcases hleft with ⟨-, hl, -⟩ | ⟨L, hL, hLb, hLs, -, hl⟩ <;>
    rcases hright with ⟨-, hr, -⟩ | ⟨R, hR, hRb, hRs, -, hr⟩ <;>
    simp only [hl, hr, Option.elim_none, Option.elim_some, Option.getD_none, Option.getD_some]
  · rw [Hash.total_insert _ hnew]
  · rw [Hash.total_insert _ (by rw [Hash.lookup_erase_ite, hnew]; simp), Hash.total_erase hr]
    omega
  · rw [ZoneKeys.mem_parseRuns, hLb] at hL
    rw [Hash.total_insert _ (by simp), Hash.total_erase hL]
    simp only [stop] at hLs
    omega
  · have hLR : (⟨block, hi⟩ : Field) ≠ ⟨block, L.start⟩ := by
      have := hz.maximal.pos L hL
      simp only [stop] at hLs
      simp
      omega
    rw [ZoneKeys.mem_parseRuns, hLb] at hL
    rw [Hash.total_insert _ (by rw [Hash.lookup_erase_ite]; simp),
      Hash.total_erase (by rw [AList.lookup_erase_ne hLR]; exact hr), Hash.total_erase hL]
    simp only [stop] at hLs
    omega

/-- The release with the counter moved keeps the invariant. -/
theorem ZoneInv.giveBack (hz : ZoneInv z) (h : GiveBackOk z block lo hi) :
    ZoneInv ((z.giveBack block lo hi).2.2.addAvailable (hi - lo)) where
  maximal := maximal_giveBack hz h
  inside := by
    intro run hrun
    obtain ⟨hlo, hhi, -, -, g, hg, h0, hcap⟩ := giveBack_ends hz h
    rcases (mem_giveBack hz h).1 hrun with rfl | ⟨hr, -⟩
    · exact ⟨g, hg, h0, by simp only [stop]; omega⟩
    · exact hz.inside run hr
  ends := by
    intro b e s
    show (z.giveBack block lo hi).2.2.ends.lookup ⟨b, e⟩ = some s ↔ _
    simp only [ZoneKeys.parseRuns_addAvailable, mem_giveBack hz h]
    obtain ⟨hlo, hhi, hfar, -, -⟩ := giveBack_ends hz h
    have hlt := h.lt
    rw [lookup_giveBack_ends hz h.lt]
    simp only [Field.mk.injEq]
    constructor
    · intro hl
      split at hl
      · rename_i hc
        obtain ⟨rfl, rfl⟩ := hc
        rw [Option.some.injEq] at hl
        exact ⟨_, .inl rfl, rfl, by simp only [stop]; omega, hl⟩
      · split at hl
        · cases hl
        · rename_i hc1 hc2
          obtain ⟨run, hr, rfl, rfl, rfl⟩ := (hz.ends b e s).1 hl
          refine ⟨run, .inr ⟨hr, ?_⟩, rfl, rfl, rfl⟩
          rintro ⟨hb, ht | ht⟩
          · exact hc2 ⟨hb, ht⟩
          · -- the right neighbour stops where the merged run stops
            rcases giveBack_right block hz h.lt with ⟨-, -, hno⟩ | ⟨R, hR, hRb, hRs, hRst, -⟩
            · exact hno run hr hb ht
            · have hEq : run = R := ZoneKeys.eq_of_start hr hR (hb.trans hRb.symm) (ht.trans hRs.symm)
              exact hc1 ⟨hb, hEq ▸ hRst⟩
    · rintro ⟨run, rfl | ⟨hr, hnot⟩, rfl, rfl, rfl⟩
      · rw [if_pos ⟨rfl, by simp only [stop]; omega⟩]
      · rw [if_neg, if_neg]
        · exact (hz.ends _ _ _).2 ⟨run, hr, rfl, rfl, rfl⟩
        · rintro ⟨hb, he⟩; exact hnot ⟨hb, .inl he⟩
        · rintro ⟨hb, he⟩
          have hpos := hz.maximal.pos run hr
          rcases hfar run hr hb hnot with hf | hf <;> simp only [stop] at * <;> omega
  counter := by
    have hrem := remaining_giveBack hz h
    have hc := hz.counter
    show ((incrBy z.available (hi - lo)).getD 0) = (z.giveBack block lo hi).2.2.remaining
    simp only [incrBy, Option.getD_some]
    omega

end GiveBack

/-! ### The scripts -/

/-- The claim script either writes, after all its checks, or changes nothing. -/
theorem claimSeats_cases (r : Redis) (a : ClaimArgs) :
    (claimSeats r a =
        (.ok (r.lastId + 1) ((r.zones (a.event, a.zone)).available.getD 0 - a.length), r.claim a) ∧
      r.claims a.key = none ∧ r.held a.event a.user + a.length ≤ a.limit ∧
      (r.zones (a.event, a.zone)).runs.lookup ⟨a.block, a.runStart⟩ = some a.runLength ∧
      a.runStart ≤ a.start ∧ a.start + a.length ≤ a.runStart + a.runLength) ∨
    ((claimSeats r a).2 = r ∧ ∀ id remaining, (claimSeats r a).1 ≠ .ok id remaining) := by
  unfold claimSeats
  simp only
  split
  · exact .inr ⟨rfl, by simp⟩
  · split
    · exact .inr ⟨rfl, by simp⟩
    · split
      · exact .inr ⟨rfl, by simp⟩
      · split
        · exact .inr ⟨rfl, by simp⟩
        · rename_i h1 h2 h3 h4
          exact .inl ⟨rfl, by simpa using h1, by omega, by simpa using h3, by omega, by omega⟩

/-- The release script answers `DUP`, refuses the interval, or writes; only the last changes anything. -/
theorem releaseSeats_cases (r : Redis) (a : ReleaseSeatsArgs) :
    (r.released a.marker = true ∧ releaseSeats r a = (.dup, r)) ∨
    (r.released a.marker = false ∧ (releaseSeats r a).1.isOk = false ∧ (releaseSeats r a).2 = r ∧
      ((∃ g, (r.zones (a.event, a.zone)).geom.lookup a.block = some g ∧
          (a.start < 0 ∨ g.capacity < a.start + a.length)) ∨
        MeetsFree (r.zones (a.event, a.zone)).parseRuns a.block a.start a.length)) ∨
    (r.released a.marker = false ∧ (releaseSeats r a).1.isOk = true ∧ (releaseSeats r a).2 = r.giveBackSeats a ∧
      (∀ g, (r.zones (a.event, a.zone)).geom.lookup a.block = some g → 0 ≤ a.start ∧
        a.start + a.length ≤ g.capacity) ∧
      ¬ MeetsFree (r.zones (a.event, a.zone)).parseRuns a.block a.start a.length) := by
  unfold releaseSeats
  simp only
  split
  · exact .inl ⟨by assumption, rfl⟩
  right
  rename_i hmark
  have hmark : r.released a.marker = false := by simpa using hmark
  cases ho : (r.zones (a.event, a.zone)).outOfBounds a.block a.start (a.start + a.length) with
  | some capacity =>
    refine .inl ⟨hmark, rfl, rfl, .inl ?_⟩
    obtain ⟨g, hg, hc⟩ := Option.bind_eq_some_iff.1 ho
    split at hc
    · exact ⟨g, hg, by assumption⟩
    · cases hc
  | none =>
    cases hov : (r.zones (a.event, a.zone)).overlapping a.block a.start (a.start + a.length) with
    | some run =>
      refine .inl ⟨hmark, rfl, rfl, .inr ⟨run, List.mem_of_find?_eq_some hov, ?_⟩⟩
      simpa using List.find?_some hov
    | none =>
      refine .inr ⟨hmark, rfl, rfl, ?_, ?_⟩
      · intro g hg
        unfold ZoneKeys.outOfBounds at ho
        rw [hg, Option.bind_some] at ho
        split at ho
        · cases ho
        · omega
      · rintro ⟨run, hr, hb, h1, h2⟩
        have := List.find?_eq_none.1 hov run hr
        simp [hb] at this
        omega

section Frames

variable (r : Redis)

@[simp] theorem zones_claim (a : ClaimArgs) :
    (r.claim a).zones = Function.update r.zones (a.event, a.zone)
      (((r.zones (a.event, a.zone)).cut a.block a.runStart a.runLength a.start a.length).addAvailable (-a.length)) :=
  rfl

@[simp] theorem zones_giveBackSeats (a : ReleaseSeatsArgs) :
    (r.giveBackSeats a).zones = Function.update r.zones (a.event, a.zone)
      ((((r.zones (a.event, a.zone)).giveBack a.block a.start (a.start + a.length)).2.2).addAvailable a.length) :=
  rfl

theorem held_chargeQuota (e e' : EventId) (u u' : UserId) (n : Int) :
    (r.chargeQuota e u n).held e' u' = if e' = e ∧ u' = u then r.held e u + n else r.held e' u' := by
  unfold Redis.held Redis.chargeQuota
  by_cases he : e' = e
  · subst he
    simp only [Function.update_self, Hash.lookup_incr, true_and]
    split <;> rfl
  · simp [he]

end Frames

/-- What it means that the claim script refines `occupy`: an `OK` cuts exactly the placement out of the free runs,
keeps the zone invariant and moves the zone counter, the event counter and the quota by `length`; any other reply
changes nothing. -/
def ClaimRefines (r : Redis) (a : ClaimArgs) : Prop :=
  let r' := (claimSeats r a).2
  let z := r.zones (a.event, a.zone)
  let z' := r'.zones (a.event, a.zone)
  match (claimSeats r a).1 with
  | .ok _ _ =>
    (∃ runs, occupy z.parseRuns a.placement = .ok runs ∧ z'.parseRuns.Perm runs) ∧ ZoneInv z' ∧
      z'.available = some (z.available.getD 0 - a.length) ∧
      r'.available a.event = some ((r.available a.event).getD 0 - a.length) ∧
      r'.held a.event a.user = r.held a.event a.user + a.length
  | _ => r' = r

/-- What it means that the release script refines `release` within a capacity: it answers `OK` exactly when
`release` does not raise, then leaves the runs `release` computes and the zone invariant; otherwise it changes no
key. -/
def ReleaseRefines (r : Redis) (a : ReleaseSeatsArgs) (capacity : Int) : Prop :=
  let r' := (releaseSeats r a).2
  let z := r.zones (a.event, a.zone)
  let z' := r'.zones (a.event, a.zone)
  ((releaseSeats r a).1.isOk = true ↔
      ∃ runs, release z.parseRuns a.block a.start a.length (some capacity) = .ok runs) ∧
    (∀ runs, release z.parseRuns a.block a.start a.length (some capacity) = .ok runs →
      z'.parseRuns.Perm runs ∧ ZoneInv z') ∧
    ((releaseSeats r a).1.isOk = false → r' = r)

theorem claimSeats_refines {r : Redis} {a : ClaimArgs} (hz : ZoneInv (r.zones (a.event, a.zone)))
    (hlen : 1 ≤ a.length) : ClaimRefines r a := by
  unfold ClaimRefines
  rcases claimSeats_cases r a with ⟨heq, -, -, hhost, hlo, hhi⟩ | ⟨hsame, hne⟩
  · simp only [heq]
    have hcut : CutOk (r.zones (a.event, a.zone)) a.block a.runStart a.runLength a.start a.length :=
      ⟨hhost, hlo, hhi, hlen⟩
    obtain ⟨runs, hocc, hperm⟩ := cut_perm_occupy hz hcut 0
    refine ⟨⟨runs, hocc, ?_⟩, ?_, ?_, ?_, ?_⟩
    · simpa using hperm
    · simpa using hz.cut hcut
    · rw [zones_claim, Function.update_self]
      rfl
    · show Function.update r.available a.event (incrBy (r.available a.event) (-a.length)) a.event = _
      rw [Function.update_self]
      rfl
    · show ((r.chargeQuota a.event a.user a.length).held a.event a.user) = _
      rw [held_chargeQuota, if_pos ⟨rfl, rfl⟩]
  · cases hreply : (claimSeats r a).1 with
    | ok id remaining => exact absurd hreply (hne id remaining)
    | _ => exact hsame

/-- The writes of the release script, under the checks it made. -/
theorem giveBackOk_of_release {z : ZoneKeys} {block : BlockId} {start length : Int} {g : PackedGeometry}
    (hg : z.geom.lookup block = some g) (hlen : 1 ≤ length) (h0 : 0 ≤ start) (hcap : start + length ≤ g.capacity)
    (hm : ¬ MeetsFree z.parseRuns block start length) : GiveBackOk z block start (start + length) where
  lt := by omega
  clear := by
    intro run hr hb
    by_contra hn
    exact hm ⟨run, hr, hb, by omega, by omega⟩
  bounds := ⟨g, hg, h0, hcap⟩

theorem releaseSeats_refines {r : Redis} {a : ReleaseSeatsArgs} {g : PackedGeometry}
    (hz : ZoneInv (r.zones (a.event, a.zone))) (hg : (r.zones (a.event, a.zone)).geom.lookup a.block = some g)
    (hlen : 1 ≤ a.length) (hmark : r.released a.marker = false) : ReleaseRefines r a g.capacity := by
  unfold ReleaseRefines
  simp only
  rw [release_isOk hz.maximal hlen]
  rcases releaseSeats_cases r a with ⟨hm, -⟩ | ⟨-, hok, hsame, hbad⟩ | ⟨-, hok, hnew, hin, hm⟩
  · rw [hmark] at hm; cases hm
  · have hbad' : ¬ (0 ≤ a.start ∧ a.start + a.length ≤ g.capacity ∧
        ¬ MeetsFree (r.zones (a.event, a.zone)).parseRuns a.block a.start a.length) := by
      rintro ⟨h0, hcap, hm⟩
      rcases hbad with ⟨g', hg', hb⟩ | hb
      · rw [hg, Option.some.injEq] at hg'
        subst hg'
        omega
      · exact hm hb
    refine ⟨by simp [hok, hbad'], ?_, fun _ => hsame⟩
    intro runs hrel
    exact absurd ((release_isOk hz.maximal hlen).1 ⟨runs, hrel⟩) hbad'
  · obtain ⟨h0, hcap⟩ := hin g hg
    have hgb := giveBackOk_of_release hg hlen h0 hcap hm
    have hinv := hz.giveBack hgb
    rw [show a.start + a.length - a.start = a.length by omega] at hinv
    refine ⟨by simp [hok, h0, hcap, hm], ?_, by simp [hok]⟩
    intro runs hrel
    obtain ⟨hmax, hfree⟩ := release_spec hz.maximal hlen hrel
    rw [hnew, zones_giveBackSeats, Function.update_self]
    refine ⟨hinv.maximal.perm_of_cover hmax fun b x => ?_, hinv⟩
    have hgive := free_giveBack hz hgb b x
    rw [show a.start + a.length - a.start = a.length by omega] at hgive
    exact hgive.trans (hfree b x).symm

/-- The two zone scripts refine the pure oracle: on every zone that satisfies the invariant, for every interval of
length at least one (and, for the release, every block with a geometry and a marker not yet set). -/
theorem zone_scripts_refine_oracle (r : Redis) (event : EventId) (zone : ZoneId)
    (hz : ZoneInv (r.zones (event, zone))) :
    (∀ a : ClaimArgs, a.event = event → a.zone = zone → 1 ≤ a.length → ClaimRefines r a) ∧
    (∀ (a : ReleaseSeatsArgs) (g : PackedGeometry), a.event = event → a.zone = zone →
      (r.zones (event, zone)).geom.lookup a.block = some g → 1 ≤ a.length → r.released a.marker = false →
      ReleaseRefines r a g.capacity) := by
  constructor
  · rintro a rfl rfl hlen
    exact claimSeats_refines hz hlen
  · rintro a g rfl rfl hg hlen hmark
    exact releaseSeats_refines hz hg hlen hmark

/-- A zone with one block of six seats, of which the last two are taken. -/
def sampleZone : ZoneKeys where
  runs := AList.insert ⟨1, 0⟩ 4 ∅
  ends := AList.insert ⟨1, 4⟩ 0 ∅
  geom := AList.insert 1 ⟨6, 1, 1 / 2⟩ ∅
  available := some 4

theorem sampleZone_inv : ZoneInv sampleZone where
  maximal := ⟨by decide, List.pairwise_singleton _ _⟩
  inside := by
    intro run hr
    obtain rfl : run = ⟨1, 0, 4⟩ := by simpa [ZoneKeys.parseRuns, sampleZone] using hr
    exact ⟨⟨6, 1, 1 / 2⟩, AList.lookup_insert _, by decide, by decide⟩
  ends := by
    intro block stop start
    show AList.lookup _ (AList.insert _ _ _) = _ ↔ ∃ run ∈ [(⟨1, 0, 4⟩ : Run)], _
    rw [Hash.lookup_insert_ite]
    constructor
    · intro h
      split at h
      · rename_i hk
        simp only [Field.mk.injEq] at hk
        exact ⟨_, List.mem_singleton_self _, hk.1.symm, hk.2.symm, by simpa using h⟩
      · simp at h
    · rintro ⟨run, hr, rfl, rfl, rfl⟩
      rw [List.mem_singleton.1 hr]
      rfl
  counter := by decide

def sampleRedis : Redis where
  available := fun _ => some 4
  purchased := fun _ => AList.insert 7 2 ∅
  claims := fun _ => none
  released := fun _ => false
  zones := fun _ => sampleZone
  stream := []
  lastId := 0
  dead := []

def sampleClaim : ClaimArgs :=
  { event := 1, zone := 1, block := 1, runStart := 0, runLength := 4, start := 1, length := 2, user := 8,
    totalPriceCents := 100, key := 5, limit := 4 }

def sampleRelease : ReleaseSeatsArgs :=
  { event := 1, zone := 1, user := 7, block := 1, start := 4, length := 2, marker := .order 3 }

theorem zone_scripts_refine_oracle_sample :
    (claimSeats sampleRedis sampleClaim).1 = .ok 1 2 ∧ ClaimRefines sampleRedis sampleClaim ∧
      (releaseSeats sampleRedis sampleRelease).1 = .ok 0 6 6 ∧ ReleaseRefines sampleRedis sampleRelease 6 := by
  obtain ⟨hclaim, hrelease⟩ := zone_scripts_refine_oracle sampleRedis 1 1 sampleZone_inv
  refine ⟨by decide, hclaim sampleClaim rfl rfl (by decide), by decide, ?_⟩
  exact hrelease sampleRelease ⟨6, 1, 1 / 2⟩ rfl rfl (AList.lookup_insert _) (by decide) rfl

end Ticketing
