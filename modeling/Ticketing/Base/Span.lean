import Mathlib.Data.List.Nodup
import Mathlib.Data.List.Pairwise
import Mathlib.Data.List.Perm.Basic
import Mathlib.Algebra.BigOperators.Group.List.Basic
import Mathlib.Algebra.Order.Group.Int
import Mathlib.Algebra.Ring.Int.Defs
import Mathlib.Data.Finset.Card

/-!
# Families of maximal spans

A span is a half-open interval `[start, start + length)` of integer positions in one of several blocks.  A family
of spans is *maximal* when all spans are non-empty and no two of them overlap or touch.  Such a family is
determined by the set of positions it covers (`Maximal.eq_of_cover`), so two representations of one set of
positions by maximal spans agree whatever operations built them: its spans are the components of that set
(`MaximalList.mem_iff_component`).  The lengths of disjoint spans add up to the number of positions they cover.
-/

/-- The positions `start, …, start + length - 1` of the block `block`. -/
structure Span (β : Type*) where
  block : β
  start : Int
  length : Int
deriving DecidableEq, Repr

namespace Span

variable {β : Type*}

/-- The first position after the span. -/
def stop (s : Span β) : Int := s.start + s.length

/-- The span contains position `p` of block `b`. -/
def Covers (s : Span β) (b : β) (p : Int) : Prop := s.block = b ∧ s.start ≤ p ∧ p < s.stop

/-- The two spans share no position. -/
def Disjoint (s t : Span β) : Prop := s.block = t.block → s.stop ≤ t.start ∨ t.stop ≤ s.start

/-- The two spans neither overlap nor touch. -/
def Apart (s t : Span β) : Prop := s.block = t.block → s.stop < t.start ∨ t.stop < s.start

theorem Apart.symm {s t : Span β} (h : s.Apart t) : t.Apart s := fun hb => (h hb.symm).symm

instance : Std.Symm (@Apart β) := ⟨fun _ _ => Apart.symm⟩

theorem Apart.disjoint {s t : Span β} (h : s.Apart t) : s.Disjoint t := fun hb => (h hb).imp le_of_lt le_of_lt

/-- Non-empty spans without a common position are disjoint. -/
theorem disjoint_of_not_covers {s t : Span β} (hs : 0 < s.length) (ht : 0 < t.length)
    (h : ∀ b p, s.Covers b p → ¬ t.Covers b p) : s.Disjoint t := by
  intro hb
  by_contra hmeet
  have hlo : s.start ≤ max s.start t.start := le_max_left ..
  have hlo' : t.start ≤ max s.start t.start := le_max_right ..
  have hhi : max s.start t.start < s.stop ∧ max s.start t.start < t.stop := by
    unfold stop at hmeet ⊢
    omega
  exact h s.block _ ⟨rfl, hlo, hhi.1⟩ ⟨hb.symm, hlo', hhi.2⟩

/-- A family of non-empty spans that pairwise neither overlap nor touch. -/
structure Maximal (F : Span β → Prop) : Prop where
  pos : ∀ s, F s → 0 < s.length
  apart : ∀ s t, F s → F t → s ≠ t → s.Apart t

/-- Some span of the family contains position `p` of block `b`. -/
def Cover (F : Span β → Prop) (b : β) (p : Int) : Prop := ∃ s, F s ∧ s.Covers b p

/-- In a maximal family a position lies in at most one span. -/
theorem Maximal.unique {F : Span β → Prop} (hF : Maximal F) {s t : Span β} (hs : F s) (ht : F t) {b : β} {p : Int}
    (hsp : s.Covers b p) (htp : t.Covers b p) : s = t := by
  by_contra hne
  obtain ⟨hsb, hs1, hs2⟩ := hsp
  obtain ⟨htb, ht1, ht2⟩ := htp
  rcases hF.apart s t hs ht hne (hsb.trans htb.symm) with h | h <;> omega

/-- No span of the family reaches over the left end of one of its spans. -/
private theorem Maximal.start_le {F : Span β → Prop} (hF : Maximal F) {s t : Span β} (hs : F s)
    (hcov : ∀ p, t.Covers s.block p → Cover F s.block p) (ht : t.Covers s.block s.start) : s.start ≤ t.start := by
  by_contra hlt
  obtain ⟨htb, ht1, ht2⟩ := ht
  obtain ⟨u, hu, hub, hu1, hu2⟩ := hcov (s.start - 1) ⟨htb, by omega, by omega⟩
  have hne : u ≠ s := fun h => by subst h; omega
  have hsl := hF.pos s hs
  unfold stop at *
  rcases hF.apart u s hu hs hne hub with h | h <;> unfold stop at h <;> omega

/-- No span of the family stops short inside a covered stretch. -/
private theorem Maximal.stop_le {F : Span β → Prop} (hF : Maximal F) {s t : Span β} (hs : F s)
    (hcov : ∀ p, t.Covers s.block p → Cover F s.block p) (hst : t.start ≤ s.start) (htb : t.block = s.block) :
    t.stop ≤ s.stop := by
  by_contra hlt
  have hsl := hF.pos s hs
  obtain ⟨u, hu, hub, hu1, hu2⟩ := hcov s.stop ⟨htb, by unfold stop at *; omega, by omega⟩
  have hne : u ≠ s := fun h => by subst h; omega
  rcases hF.apart u s hu hs hne hub with h | h <;> unfold stop at * <;> omega

private theorem Maximal.mem_of_cover {F G : Span β → Prop} (hF : Maximal F) (hG : Maximal G)
    (h : ∀ b p, Cover F b p ↔ Cover G b p) {s : Span β} (hs : F s) : G s := by
  have hsl := hF.pos s hs
  obtain ⟨t, ht, htc⟩ := (h s.block s.start).1 ⟨s, hs, rfl, le_refl _, by unfold stop; omega⟩
  have htb := htc.1
  have hts := hF.start_le hs (fun p hp => (h _ _).2 ⟨t, ht, hp⟩) htc
  have hstart : t.start = s.start := le_antisymm htc.2.1 hts
  have hts' := hF.stop_le hs (fun p hp => (h _ _).2 ⟨t, ht, hp⟩) (by omega) htb
  have hst' := hG.stop_le ht (t := s) (fun p hp => (h _ _).1 ⟨s, hs, htb ▸ hp⟩) (by omega) htb.symm
  have hlen : t.length = s.length := by unfold stop at *; omega
  obtain rfl : t = s := by
    cases s; cases t; simp only [mk.injEq] at *; exact ⟨htb, hstart, hlen⟩
  exact ht

/-- A maximal family is determined by the positions it covers. -/
theorem Maximal.eq_of_cover {F G : Span β → Prop} (hF : Maximal F) (hG : Maximal G)
    (h : ∀ b p, Cover F b p ↔ Cover G b p) (s : Span β) : F s ↔ G s :=
  ⟨hF.mem_of_cover hG h, hG.mem_of_cover hF fun b p => (h b p).symm⟩

/-! ### Families given by lists -/

/-- A list of non-empty spans that pairwise neither overlap nor touch. -/
structure MaximalList (l : List (Span β)) : Prop where
  pos : ∀ s ∈ l, 0 < s.length
  apart : l.Pairwise Apart

theorem MaximalList.nodup {l : List (Span β)} (h : MaximalList l) : l.Nodup := by
  refine h.apart.imp_of_mem fun {s t} hs _ hst hEq => ?_
  subst hEq
  have := h.pos s hs
  rcases hst rfl with h | h <;> unfold stop at h <;> omega

theorem MaximalList.maximal {l : List (Span β)} (h : MaximalList l) : Maximal (· ∈ l) where
  pos := h.pos
  apart _ _ hs ht hne := h.apart.forall hs ht hne

theorem Maximal.maximalList {l : List (Span β)} (h : Maximal (· ∈ l)) (hnd : l.Nodup) : MaximalList l where
  pos := h.pos
  apart := hnd.imp_of_mem fun hs ht hne => h.apart _ _ hs ht hne

theorem MaximalList.perm {l l' : List (Span β)} (hp : l.Perm l') (h : MaximalList l) : MaximalList l' where
  pos s hs := h.pos s (hp.mem_iff.2 hs)
  apart := (hp.pairwise_iff Apart.symm).1 h.apart

/-- Two maximal lists that cover the same positions are permutations of each other. -/
theorem MaximalList.perm_of_cover {l l' : List (Span β)} (h : MaximalList l) (h' : MaximalList l')
    (hc : ∀ b p, Cover (· ∈ l) b p ↔ Cover (· ∈ l') b p) : l.Perm l' :=
  (List.perm_ext_iff_of_nodup h.nodup h'.nodup).2 (h.maximal.eq_of_cover h'.maximal hc)

/-! ### Components of a set of positions -/

/-- The span is a maximal interval of the positions in `P`. -/
structure IsComponent (P : β → Int → Prop) (s : Span β) : Prop where
  pos : 0 < s.length
  subset : ∀ p, s.start ≤ p → p < s.stop → P s.block p
  left : ¬ P s.block (s.start - 1)
  right : ¬ P s.block s.stop

/-- A maximal list consists of the components of the set it covers. -/
theorem MaximalList.mem_iff_component {l : List (Span β)} (h : MaximalList l) {P : β → Int → Prop}
    (hP : ∀ b p, Cover (· ∈ l) b p ↔ P b p) (s : Span β) : s ∈ l ↔ IsComponent P s := by
  have hout : ∀ t ∈ l, ∀ p, t.start ≤ p + 1 → p ≤ t.stop → ¬ t.Covers t.block p → ¬ P t.block p := by
    -- a position that touches a span of the list lies in no other span of it
    intro t ht p hlo hhi hnot hp
    obtain ⟨u, hu, hub, hup, hpu⟩ := (hP _ _).2 hp
    have hne : u ≠ t := by rintro rfl; exact hnot ⟨hub, hup, hpu⟩
    rcases h.maximal.apart u t hu ht hne hub with ha | ha <;> omega
  constructor
  · intro hs
    have hlen := h.pos s hs
    refine ⟨hlen, fun p hlo hhi => (hP _ _).1 ⟨s, hs, rfl, hlo, hhi⟩, ?_, ?_⟩
    · exact hout s hs _ (by omega) (by unfold stop; omega) fun hc => by have := hc.2.1; omega
    · exact hout s hs _ (by unfold stop; omega) (le_refl _) fun hc => by have := hc.2.2; omega
  · intro hs
    have hlen := hs.pos
    obtain ⟨t, ht, htb, hlo, hhi⟩ := (hP _ _).2 (hs.subset s.start (le_refl _) (by unfold stop; omega))
    have hstart : t.start = s.start := by
      by_contra hne
      exact hs.left ((hP _ _).1 ⟨t, ht, htb, by omega, by omega⟩)
    have hstop : t.stop = s.stop := by
      rcases lt_trichotomy t.stop s.stop with hlt | heq | hgt
      · have hp := hs.subset t.stop (by omega) hlt
        rw [← htb] at hp
        exact absurd hp (hout t ht _ (by omega) (le_refl _) fun hc => by have := hc.2.2; omega)
      · exact heq
      · exact absurd ((hP _ _).1 ⟨t, ht, htb, by unfold stop; omega, hgt⟩) hs.right
    obtain rfl : t = s := by
      cases t; cases s
      simp only [stop, Span.mk.injEq] at *
      exact ⟨htb, hstart, by omega⟩
    exact ht

/-! ### Counting positions -/

section Count

variable [DecidableEq β]

def cells (s : Span β) : Finset (β × Int) := (Finset.range s.length.toNat).image fun n : Nat => (s.block, s.start + n)

def positions (l : List (Span β)) : Finset (β × Int) := l.foldr (fun s acc => s.cells ∪ acc) ∅

theorem mem_cells {s : Span β} {b : β} {p : Int} : (b, p) ∈ s.cells ↔ s.Covers b p := by
  simp only [cells, Finset.mem_image, Finset.mem_range, Prod.mk.injEq, Covers, stop]
  constructor
  · rintro ⟨n, hn, hb, hp⟩
    exact ⟨hb, by omega, by omega⟩
  · rintro ⟨hb, hlo, hhi⟩
    exact ⟨(p - s.start).toNat, by omega, hb, by omega⟩

theorem card_cells {s : Span β} (h : 0 ≤ s.length) : (s.cells.card : Int) = s.length := by
  have hinj : Function.Injective fun n : Nat => (s.block, s.start + (n : Int)) := by
    intro m n hmn
    simp only [Prod.mk.injEq, true_and] at hmn
    omega
  rw [cells, Finset.card_image_of_injective _ hinj, Finset.card_range, Int.toNat_of_nonneg h]

theorem mem_positions {l : List (Span β)} {b : β} {p : Int} : (b, p) ∈ positions l ↔ ∃ s ∈ l, s.Covers b p := by
  induction l with
  | nil => simp [positions]
  | cons s l ih =>
    rw [positions, List.foldr_cons, ← positions, Finset.mem_union, mem_cells, ih, List.exists_mem_cons_iff]

/-- Spans without a common position cover as many positions as their lengths add up to. -/
theorem sum_length_eq_card {l : List (Span β)} (hnonneg : ∀ s ∈ l, 0 ≤ s.length) (hd : l.Pairwise Disjoint) :
    (l.map Span.length).sum = (positions l).card := by
  induction l with
  | nil => rfl
  | cons s l ih =>
    rw [List.pairwise_cons] at hd
    have hdisj : ∀ x ∈ s.cells, x ∉ positions l := by
      rintro ⟨b, p⟩ hp hq
      obtain ⟨t, ht, htb, hlo, hhi⟩ := mem_positions.1 hq
      obtain ⟨hsb, hlo', hhi'⟩ := mem_cells.1 hp
      rcases hd.1 t ht (hsb.trans htb.symm) with h | h <;> omega
    have hcard : (positions (s :: l)).card = s.cells.card + (positions l).card := by
      rw [positions, List.foldr_cons, ← positions, Finset.card_union_of_disjoint (Finset.disjoint_left.2 hdisj)]
    rw [List.map_cons, List.sum_cons, ih (fun t ht => hnonneg t (List.mem_cons_of_mem _ ht)) hd.2, hcard,
      Int.natCast_add, card_cells (hnonneg s (List.mem_cons_self ..))]

/-- Two families inside a third that share no position and whose lengths add up to those of the third cover it. -/
theorem covers_of_sum_le {l l' whole : List (Span β)} (hl : ∀ s ∈ l, 0 ≤ s.length) (hd : l.Pairwise Disjoint)
    (hl' : ∀ s ∈ l', 0 ≤ s.length) (hd' : l'.Pairwise Disjoint) (hw : ∀ s ∈ whole, 0 ≤ s.length)
    (hdw : whole.Pairwise Disjoint) (hin : ∀ b p, Cover (· ∈ l) b p → Cover (· ∈ whole) b p)
    (hin' : ∀ b p, Cover (· ∈ l') b p → Cover (· ∈ whole) b p)
    (hno : ∀ b p, Cover (· ∈ l) b p → ¬ Cover (· ∈ l') b p)
    (hsum : (whole.map Span.length).sum ≤ (l.map Span.length).sum + (l'.map Span.length).sum) (b : β) (p : Int)
    (h : Cover (· ∈ whole) b p) : Cover (· ∈ l) b p ∨ Cover (· ∈ l') b p := by
  rw [sum_length_eq_card hw hdw, sum_length_eq_card hl hd, sum_length_eq_card hl' hd'] at hsum
  have hdisj : ∀ x ∈ positions l, x ∉ positions l' := by
    rintro ⟨c, q⟩ hq hq'
    exact hno c q (mem_positions.1 hq) (mem_positions.1 hq')
  have hsub : positions l ∪ positions l' ⊆ positions whole := by
    rintro ⟨c, q⟩ hq
    rcases Finset.mem_union.1 hq with hq | hq
    · exact mem_positions.2 (hin c q (mem_positions.1 hq))
    · exact mem_positions.2 (hin' c q (mem_positions.1 hq))
  have hall : positions l ∪ positions l' = positions whole := by
    refine Finset.eq_of_subset_of_card_le hsub ?_
    rw [Finset.card_union_of_disjoint (Finset.disjoint_left.2 hdisj)]
    omega
  have hmem : (b, p) ∈ positions whole := mem_positions.2 h
  rw [← hall, Finset.mem_union] at hmem
  exact hmem.imp mem_positions.1 mem_positions.1

end Count

end Span
