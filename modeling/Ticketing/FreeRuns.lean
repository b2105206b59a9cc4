import Ticketing.Seating

/-!
# What `occupy` and `release` do to the set of free seats

On a maximal list of runs, `occupy` removes exactly the seats of the placement and `release` adds exactly the
seats of the interval, and both return a maximal list again.  With `Span.MaximalList.perm_of_cover` this pins down
their results up to the order of the runs.
-/

namespace Ticketing

open Span

/-- Position `x` of block `b` is free in the run list. -/
abbrev Free (runs : List Run) (b : BlockId) (x : Int) : Prop := Cover (· ∈ runs) b x

theorem free_perm {runs runs' : List Run} (h : runs.Perm runs') (b : BlockId) (x : Int) :
    Free runs b x ↔ Free runs' b x := by
  constructor
  · rintro ⟨r, hr, hc⟩; exact ⟨r, h.mem_iff.1 hr, hc⟩
  · rintro ⟨r, hr, hc⟩; exact ⟨r, h.mem_iff.2 hr, hc⟩

theorem free_append {l l' : List Run} {b : BlockId} {x : Int} :
    Free (l ++ l') b x ↔ Free l b x ∨ Free l' b x := by
  constructor
  · rintro ⟨r, hr, hc⟩
    rcases List.mem_append.1 hr with h | h
    · exact .inl ⟨r, h, hc⟩
    · exact .inr ⟨r, h, hc⟩
  · rintro (⟨r, hr, hc⟩ | ⟨r, hr, hc⟩)
    · exact ⟨r, List.mem_append_left _ hr, hc⟩
    · exact ⟨r, List.mem_append_right _ hr, hc⟩

theorem free_singleton {r : Run} {b : BlockId} {x : Int} : Free [r] b x ↔ r.Covers b x := by
  constructor
  · rintro ⟨s, hs, hc⟩; rw [List.mem_singleton] at hs; exact hs ▸ hc
  · exact fun h => ⟨r, List.mem_singleton_self _, h⟩

theorem free_flatMap {α : Type*} {l : List α} {f : α → List Run} {b : BlockId} {x : Int} :
    Free (l.flatMap f) b x ↔ ∃ r ∈ l, Free (f r) b x := by
  constructor
  · rintro ⟨s, hs, hc⟩
    obtain ⟨r, hr, hs⟩ := List.mem_flatMap.1 hs
    exact ⟨r, hr, s, hs, hc⟩
  · rintro ⟨r, hr, s, hs, hc⟩
    exact ⟨s, List.mem_flatMap.2 ⟨r, hr, hs⟩, hc⟩

/-! ### `occupy` -/

/-- The pieces of a run stay inside it. -/
private theorem occupyOne_sub {p : Placement} {run r : Run} (hp : 1 ≤ p.length) (hlen : 0 < run.length)
    (hr : r ∈ occupyOne p run) :
    0 < r.length ∧ r.block = run.block ∧ run.start ≤ r.start ∧ r.stop ≤ run.stop := by
  unfold occupyOne at hr
  split at hr
  · rename_i hin
    obtain ⟨_, h1, h2⟩ := hin
    simp only [List.mem_append] at hr
    unfold stop Placement.stop at *
    rcases hr with hr | hr <;> split at hr <;> simp only [List.mem_singleton, List.not_mem_nil] at hr <;>
      subst hr <;> refine ⟨?_, rfl, ?_, ?_⟩ <;> simp only <;> omega
  · rw [List.mem_singleton] at hr
    subst hr
    exact ⟨hlen, rfl, le_refl _, le_refl _⟩

/-- The two pieces of a run are apart. -/
private theorem occupyOne_pairwise {p : Placement} (hp : 1 ≤ p.length) (run : Run) :
    (occupyOne p run).Pairwise Apart := by
  unfold occupyOne
  split
  · split <;> split <;> simp [Apart, stop, Placement.stop]
    omega
  · simp

private theorem free_occupyOne {p : Placement} (hp : 1 ≤ p.length) {run : Run} {b : BlockId} {x : Int} :
    Free (occupyOne p run) b x ↔ run.Covers b x ∧ ¬ (p.insideOf run ∧ p.span.Covers b x) := by
  unfold occupyOne
  split
  · rename_i hin
    have hpb : p.span.block = run.block := hin.1.symm
    have hps : p.span.start = p.start := rfl
    have hpe : p.span.stop = p.stop := rfl
    have hlen : p.stop = p.start + p.length := rfl
    obtain ⟨-, h1, h2⟩ := id hin
    rw [free_append]
    simp only [hin, true_and, Covers, hpb, hps, hpe, not_and, not_lt]
    constructor
    · rintro (⟨r, hr, rfl, h3, h4⟩ | ⟨r, hr, rfl, h3, h4⟩) <;> split at hr <;>
        simp only [List.mem_singleton, List.not_mem_nil] at hr <;> subst hr <;> unfold stop at * <;>
        simp only at * <;> refine ⟨⟨trivial, by omega, by omega⟩, fun _ _ => by omega⟩
    · rintro ⟨⟨rfl, h3, h4⟩, hout⟩
      by_cases hx : x < p.start
      · left
        rw [if_pos (by omega)]
        exact ⟨_, List.mem_singleton_self _, rfl, h3, by unfold stop; simp only; omega⟩
      · right
        have := hout rfl (by omega)
        rw [if_pos (by omega)]
        exact ⟨_, List.mem_singleton_self _, rfl, this, by unfold stop at *; simp only; omega⟩
  · rename_i hin
    simp [free_singleton, hin]

private theorem apart_of_sub {s t s' t' : Run} (h : s.Apart t) (hb : s'.block = s.block) (hb' : t'.block = t.block)
    (h1 : s.start ≤ s'.start) (h2 : s'.stop ≤ s.stop) (h3 : t.start ≤ t'.start) (h4 : t'.stop ≤ t.stop) :
    s'.Apart t' := by
  intro hEq
  rcases h (by rw [← hb, ← hb']; exact hEq) with h | h <;> omega

theorem occupy_isOk {runs : List Run} {p : Placement} :
    (∃ out, occupy runs p = .ok out) ↔ ∃ run ∈ runs, p.insideOf run := by
  unfold occupy
  split
  · rename_i h
    simp only [List.any_eq_true, decide_eq_true_eq] at h
    simp only [Except.ok.injEq, exists_eq', true_iff]
    exact h
  · rename_i h
    simp only [List.any_eq_true, decide_eq_true_eq] at h
    simp [h]

theorem mem_occupy {runs out : List Run} {p : Placement} (hok : occupy runs p = .ok out) {run : Run} :
    run ∈ out ↔ run ∈ runs.flatMap (occupyOne p) := by
  unfold occupy at hok
  split at hok
  · simp only [Except.ok.injEq] at hok
    rw [← hok, List.mem_insertionSort]
  · cases hok

/-- `occupy` on a maximal list: the result is maximal and has lost exactly the seats of the placement. -/
theorem occupy_spec {runs out : List Run} {p : Placement} (hruns : MaximalList runs) (hp : 1 ≤ p.length)
    (hok : occupy runs p = .ok out) :
    MaximalList out ∧ ∀ b x, Free out b x ↔ Free runs b x ∧ ¬ p.span.Covers b x := by
  obtain ⟨host, hhost, hin⟩ := occupy_isOk.1 ⟨out, hok⟩
  unfold occupy at hok
  split at hok
  swap
  · exact absurd hok (by simp)
  simp only [Except.ok.injEq] at hok
  have hperm : (runs.flatMap (occupyOne p)).Perm out := hok ▸ (List.perm_insertionSort ..).symm
  constructor
  · refine MaximalList.perm hperm ⟨?_, ?_⟩
    · intro s hs
      obtain ⟨r, hr, hs⟩ := List.mem_flatMap.1 hs
      exact (occupyOne_sub hp (hruns.pos r hr) hs).1
    · rw [List.pairwise_flatMap]
      refine ⟨fun r _ => occupyOne_pairwise hp r, hruns.apart.imp_of_mem ?_⟩
      intro r r' hr hr' hap s hs s' hs'
      obtain ⟨-, hb, h1, h2⟩ := occupyOne_sub hp (hruns.pos r hr) hs
      obtain ⟨-, hb', h3, h4⟩ := occupyOne_sub hp (hruns.pos r' hr') hs'
      exact apart_of_sub hap hb hb' h1 h2 h3 h4
  · intro b x
    rw [← free_perm hperm, free_flatMap]
    simp only [free_occupyOne hp]
    constructor
    · rintro ⟨r, hr, hc, hnot⟩
      refine ⟨⟨r, hr, hc⟩, fun hpx => hnot ⟨?_, hpx⟩⟩
      -- a seat of the placement is a seat of the host, so the run is the host
      have hhx : host.Covers b x := by
        obtain ⟨hb, h1, h2⟩ := hin
        obtain ⟨hb', h3, h4⟩ := hpx
        simp only [Placement.span, stop, Placement.stop] at hb' h2 h3 h4
        exact ⟨hb.trans hb', by omega, by unfold stop at *; omega⟩
      rw [hruns.maximal.unique hr hhost hc hhx]
      exact hin
    · rintro ⟨⟨r, hr, hc⟩, hnot⟩
      exact ⟨r, hr, hc, fun h => hnot h.2⟩

/-! ### `release` -/

/-- The runs of `block` that the loop still has to see do not overlap the interval collected so far. -/
private def Clear (block : BlockId) (lo hi : Int) (runs : List Run) : Prop :=
  ∀ r ∈ runs, r.block = block → r.stop ≤ lo ∨ hi ≤ r.start

/-- The run kept by the loop neither overlaps nor touches the collected interval. -/
private def FarFrom (block : BlockId) (lo hi : Int) (r : Run) : Prop :=
  r.block = block → r.stop < lo ∨ hi < r.start

/-- What the loop returns when nothing overlaps: the interval has grown, the kept runs are far from it, and
together they cover what was covered before. -/
private theorem releaseLoop_ok (block : BlockId) (runs : List Run) :
    ∀ (lo hi : Int) (out : List Run), lo < hi → MaximalList (out ++ runs) → Clear block lo hi runs →
      (∀ r ∈ out, FarFrom block lo hi r) →
      ∃ lo' hi' out', releaseLoop block lo hi out runs = .ok (lo', hi', out') ∧ lo' ≤ lo ∧ hi ≤ hi' ∧
        MaximalList out' ∧ (∀ r ∈ out', FarFrom block lo' hi' r) ∧
        ∀ b x, (Free out' b x ∨ b = block ∧ lo' ≤ x ∧ x < hi') ↔
          (Free (out ++ runs) b x ∨ b = block ∧ lo ≤ x ∧ x < hi) := by
  induction runs with
  | nil =>
    intro lo hi out _ hmax _ hfar
    rw [List.append_nil] at hmax
    exact ⟨lo, hi, out, rfl, le_refl _, le_refl _, hmax, hfar, fun b x => by rw [List.append_nil]⟩
  | cons run runs ih =>
    intro lo hi out hlt hmax hclear hfar
    have hassoc : out ++ run :: runs = (out ++ [run]) ++ runs := by simp
    have hlen := hmax.pos run (by simp)
    have hclear' : Clear block lo hi runs := fun r hr => hclear r (List.mem_cons_of_mem _ hr)
    -- a run that is far from the interval is kept
    have hkeep : FarFrom block lo hi run →
        ∃ lo' hi' out', releaseLoop block lo hi (out ++ [run]) runs = .ok (lo', hi', out') ∧ lo' ≤ lo ∧ hi ≤ hi' ∧
          MaximalList out' ∧ (∀ r ∈ out', FarFrom block lo' hi' r) ∧
          ∀ b x, (Free out' b x ∨ b = block ∧ lo' ≤ x ∧ x < hi') ↔
            (Free (out ++ run :: runs) b x ∨ b = block ∧ lo ≤ x ∧ x < hi) := by
      intro hrun
      rw [hassoc]
      refine ih lo hi (out ++ [run]) hlt (hassoc ▸ hmax) hclear' ?_
      intro r hr
      rcases List.mem_append.1 hr with h | h
      · exact hfar r h
      · rw [List.mem_singleton] at h; exact h ▸ hrun
    rw [releaseLoop]
    by_cases hb : run.block = block
    swap
    · rw [if_pos hb]; exact hkeep fun h => absurd h hb
    rw [if_neg (not_not.2 hb)]
    by_cases hgap : run.stop < lo ∨ hi < run.start
    · rw [if_pos hgap]; exact hkeep fun _ => hgap
    -- the run touches the interval on one side and is absorbed
    have htouch : run.stop = lo ∨ run.start = hi := by
      rcases hclear run (List.mem_cons_self ..) hb with h | h <;> omega
    have hstop : run.stop = run.start + run.length := rfl
    rw [if_neg hgap, if_neg (by omega)]
    have happ : ∀ r ∈ out ++ runs, r.Apart run := by
      have hperm : (out ++ run :: runs).Perm (run :: (out ++ runs)) := List.perm_middle
      have hp := (hperm.pairwise_iff Apart.symm).1 hmax.apart
      intro r hr
      exact ((List.pairwise_cons.1 hp).1 r hr).symm
    have hpos : ∀ r ∈ out ++ runs, 0 < r.length := by
      intro r hr
      apply hmax.pos
      rcases List.mem_append.1 hr with h | h
      · exact List.mem_append_left _ h
      · exact List.mem_append_right _ (List.mem_cons_of_mem _ h)
    have hmax' : MaximalList (out ++ runs) :=
      ⟨hpos, hmax.apart.sublist (List.Sublist.append_left (List.sublist_cons_self ..) _)⟩
    obtain ⟨lo', hi', out', hrun, hlo, hhi, hm, hf, hcov⟩ := ih (min lo run.start) (max hi run.stop) out (by omega)
      hmax' (by
        intro r hr hrb
        have h1 := happ r (List.mem_append_right _ hr) (hrb.trans hb.symm)
        have h2 := hclear' r hr hrb
        have h3 := hpos r (List.mem_append_right _ hr)
        unfold stop at *
        omega) (by
        intro r hr hrb
        have h1 := happ r (List.mem_append_left _ hr) (hrb.trans hb.symm)
        have h2 := hfar r hr hrb
        have h3 := hpos r (List.mem_append_left _ hr)
        unfold stop at *
        omega)
    refine ⟨lo', hi', out', hrun, by omega, by omega, hm, hf, fun b x => ?_⟩
    rw [hcov b x, free_append, free_append, show run :: runs = [run] ++ runs from rfl, free_append, free_singleton]
    have hcovers : (b = block ∧ min lo run.start ≤ x ∧ x < max hi run.stop) ↔
        (run.Covers b x ∨ b = block ∧ lo ≤ x ∧ x < hi) := by
      unfold Covers
      rw [hb]
      constructor
      · rintro ⟨rfl, h1, h2⟩
        by_cases hx : lo ≤ x ∧ x < hi
        · exact .inr ⟨rfl, hx⟩
        · exact .inl ⟨rfl, by omega, by omega⟩
      · rintro (⟨rfl, h1, h2⟩ | ⟨rfl, h1, h2⟩)
        · exact ⟨rfl, by omega, by omega⟩
        · exact ⟨rfl, by omega, by omega⟩
    rw [hcovers, or_assoc, or_assoc, or_assoc, or_left_comm (a := Free runs b x)]

/-- The loop refuses an interval that overlaps a run still to be seen. -/
private theorem releaseLoop_error (block : BlockId) (runs : List Run) :
    ∀ (lo hi : Int) (out : List Run), (∃ r ∈ runs, r.block = block ∧ r.start < hi ∧ lo < r.stop) →
      ∃ e, releaseLoop block lo hi out runs = .error e := by
  induction runs with
  | nil => rintro _ _ _ ⟨r, hr, -⟩; cases hr
  | cons run runs ih =>
    rintro lo hi out ⟨r, hr, hb, h1, h2⟩
    rw [releaseLoop]
    by_cases hov : run.block = block ∧ run.start < hi ∧ lo < run.stop
    · rw [if_neg (not_not.2 hov.1), if_neg (by omega), if_pos hov.2]
      exact ⟨_, rfl⟩
    · have hmem : r ∈ runs := by
        rcases List.mem_cons.1 hr with rfl | h
        · exact absurd ⟨hb, h1, h2⟩ hov
        · exact h
      split
      · exact ih _ _ _ ⟨r, hmem, hb, h1, h2⟩
      · split
        · exact ih _ _ _ ⟨r, hmem, hb, h1, h2⟩
        · split
          · exact ⟨_, rfl⟩
          · exact ih _ _ _ ⟨r, hmem, hb, by omega, by omega⟩

/-- The interval meets a free seat of the list. -/
def MeetsFree (runs : List Run) (block : BlockId) (start length : Int) : Prop :=
  ∃ r ∈ runs, r.block = block ∧ r.start < start + length ∧ start < r.stop

/-- `release` within a capacity: it raises exactly when the interval leaves the block or meets a free run. -/
theorem release_isOk {runs : List Run} {block : BlockId} {start length capacity : Int} (hruns : MaximalList runs)
    (hlen : 1 ≤ length) :
    (∃ out, release runs block start length (some capacity) = .ok out) ↔
      0 ≤ start ∧ start + length ≤ capacity ∧ ¬ MeetsFree runs block start length := by
  unfold release
  rw [if_neg (by omega)]
  simp only [Option.any_some, decide_eq_true_eq]
  by_cases hb : start < 0 ∨ capacity < start + length
  · rw [if_pos hb]
    simp only [reduceCtorEq, exists_false, false_iff, not_and]
    omega
  rw [if_neg hb]
  by_cases hm : MeetsFree runs block start length
  · obtain ⟨e, he⟩ := releaseLoop_error block runs start (start + length) [] hm
    rw [he]
    simp [hm]
  · obtain ⟨lo, hi, out, he, -⟩ := releaseLoop_ok block runs start (start + length) [] (by omega)
      (by simpa using hruns)
      (by
        intro r hr hrb
        by_contra hn
        exact hm ⟨r, hr, hrb, by omega, by omega⟩)
      (by simp)
    rw [he]
    simp only [Except.ok.injEq, exists_eq', true_iff]
    exact ⟨by omega, by omega, hm⟩

/-- `release` on a maximal list: the result is maximal and has gained exactly the seats of the interval. -/
theorem release_spec {runs out : List Run} {block : BlockId} {start length capacity : Int}
    (hruns : MaximalList runs) (hlen : 1 ≤ length)
    (hok : release runs block start length (some capacity) = .ok out) :
    MaximalList out ∧
      ∀ b x, Free out b x ↔ Free runs b x ∨ (⟨block, start, length⟩ : Run).Covers b x := by
  obtain ⟨h0, hcap, hm⟩ := (release_isOk hruns hlen).1 ⟨out, hok⟩
  obtain ⟨lo, hi, kept, he, hlo, hhi, hmax, hfar, hcov⟩ :=
    releaseLoop_ok block runs start (start + length) [] (by omega) (by simpa using hruns)
      (by
        intro r hr hrb
        by_contra hn
        exact hm ⟨r, hr, hrb, by omega, by omega⟩)
      (by simp)
  unfold release at hok
  rw [if_neg (by omega), if_neg (by simp; omega), he] at hok
  simp only [Except.ok.injEq] at hok
  have hperm : (kept ++ [(⟨block, lo, hi - lo⟩ : Run)]).Perm out := hok ▸ (List.perm_insertionSort ..).symm
  constructor
  · refine MaximalList.perm hperm ⟨?_, ?_⟩
    · intro s hs
      rcases List.mem_append.1 hs with h | h
      · exact hmax.pos s h
      · rw [List.mem_singleton] at h; subst h; simp only; omega
    · rw [List.pairwise_append]
      refine ⟨hmax.apart, by simp, fun r hr s hs => ?_⟩
      rw [List.mem_singleton] at hs
      subst hs
      intro hrb
      have := hfar r hr hrb
      unfold stop at *
      simp only at *
      omega
  · intro b x
    have hc := hcov b x
    rw [List.nil_append] at hc
    rw [← free_perm hperm, free_append, free_singleton]
    unfold Covers
    simp only [stop] at *
    rw [show lo + (hi - lo) = hi by omega, eq_comm, hc]

end Ticketing
