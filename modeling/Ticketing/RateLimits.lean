import Mathlib.Algebra.Order.Floor.Ring
import Mathlib.Data.List.Count
import Mathlib.Data.List.Induction
import Mathlib.Data.Rat.Floor
import Ticketing.Base.Tally

/-!
# The fixed-window limiter

`app/services/rate_limit.py`.  The script behind `hit` increments a counter and gives it a time to live when
it is new, so a window begins with the first call after the end of the one before.  Times are those of any
ordered division ring with a floor.

A counter is never without a time to live, and a call is refused only when the calls of its own window have
used up the limit.  Windows begin at least one length apart, so an interval of that length meets two of them
at most (`fixed_window_bound`).
-/

namespace Ticketing

open Tally

/-! ### Counters -/

/-- A counter with the moment at which Redis drops it, if it has a time to live. -/
structure Counter (K : Type*) where
  count : Nat
  expiresAt : Option K
deriving DecidableEq

namespace Counter

variable {K : Type*} [LinearOrder K]

/-- What a command finds under the key. -/
def live (now : K) (slot : Option (Counter K)) : Option (Counter K) := slot.filter fun c =>
    c.expiresAt.all fun e => now < e

/-- `INCR` -/
def incr (now : K) (slot : Option (Counter K)) : Counter K :=
  (live now slot).elim ⟨1, none⟩ fun c => { c with count := c.count + 1 }

/-- The counter after `_HIT_LUA`. -/
def hit [Add K] [NatCast K] (now : K) (window : Nat) (slot : Option (Counter K)) : Counter K :=
  if (incr now slot).count = 1 then { incr now slot with expiresAt := some (now + window) } else incr now slot

variable {now e : K} {slot : Option (Counter K)} {c : Counter K} {window : Nat}

theorem live_eq_some (h : slot = some c) (he : c.expiresAt = some e) (hlt : now < e) : live now slot = some c := by
  simp [live, h, Option.filter_some, he, hlt]

theorem live_eq_none (h : slot = some c) (he : c.expiresAt = some e) (hle : e ≤ now) : live now slot = none := by
  simp [live, h, Option.filter_some, he, hle]

variable [Add K] [NatCast K]

theorem hit_of_live (h : live now slot = some c) (hpos : 0 < c.count) :
    hit now window slot = { c with count := c.count + 1 } := by
  have hincr : incr now slot = { c with count := c.count + 1 } := by rw [incr, h, Option.elim_some]
  have hne : c.count + 1 ≠ 1 := by omega
  rw [hit, hincr, if_neg hne]

theorem hit_of_none (h : live now slot = none) : hit now window slot = ⟨1, some (now + window)⟩ := by
  have hincr : incr now slot = ⟨1, none⟩ := by rw [incr, h, Option.elim_none]
  rw [hit, hincr, if_pos rfl]

end Counter

/-! ### The limiter -/

structure RateLimited where
  retryAfter : Int
deriving DecidableEq

/-- `limit` calls in `window` seconds; `enabled` is `RATE_LIMIT_ENABLED`. -/
structure RateRule where
  enabled : Bool
  limit : Nat
  window : Nat
deriving DecidableEq

/-- A call and its answer; `opened` is the beginning of the window that counted it. -/
structure RateCall (K : Type*) where
  time : K
  accepted : Bool
  opened : Option K
deriving DecidableEq

/-- The counter of one key, and the calls made with it. -/
structure Limiter (K : Type*) where
  slot : Option (Counter K) := none
  log : List (RateCall K) := []
deriving DecidableEq

section Limiter

variable {K : Type*} [DivisionRing K] [LinearOrder K] [FloorRing K]

/-- `TTL` answers in whole seconds, and -1 when there is no time to live. -/
def Counter.ttl (now : K) (c : Counter K) : Int := c.expiresAt.elim (-1) fun e => ⌊e - now + 1 / 2⌋

/-- `peek` -/
def Counter.peek (now : K) (slot : Option (Counter K)) : Nat × Int :=
  ((live now slot).elim 0 Counter.count, max 0 ((live now slot).elim (-2) (ttl now)))

/-- `enforce_rate_limit`, with the counter it leaves. -/
def enforceRateLimit (rule : RateRule) (now : K) (slot : Option (Counter K)) :
    Except RateLimited Unit × Option (Counter K) :=
  if rule.enabled then
    let c := Counter.hit now rule.window slot
    (if c.count > rule.limit then .error ⟨if c.ttl now > 0 then c.ttl now else rule.window⟩ else .ok (), some c)
  else (.ok (), slot)

namespace Limiter

def call (rule : RateRule) (s : Limiter K) (now : K) : Limiter K :=
  let answer := enforceRateLimit rule now s.slot
  let opened := if rule.enabled then answer.2.bind fun c => c.expiresAt.map fun e => e - (rule.window : K) else none
  { slot := answer.2, log := s.log ++ [{ time := now, accepted := answer.1.toBool, opened }] }

def calls (rule : RateRule) (times : List K) : Limiter K := times.foldl (call rule) {}

theorem calls_concat (rule : RateRule) (times : List K) (now : K) :
    calls rule (times ++ [now]) = (calls rule times).call rule now := by
  simp [calls]

theorem time_calls (rule : RateRule) (times : List K) : (calls rule times).log.map RateCall.time = times := by
  induction times using List.reverseRecOn with
  | nil => rfl
  | append_singleton times now ih => rw [calls_concat, call, List.map_append, ih, List.map_singleton]

/-- Without the limiter there is no counter, and every call is accepted. -/
theorem calls_off {rule : RateRule} (hoff : rule.enabled = false) (times : List K) :
    (calls rule times).slot = none ∧ ∀ r ∈ (calls rule times).log, r.accepted = true := by
  induction times using List.reverseRecOn with
  | nil => exact ⟨rfl, fun r hr => (by cases hr)⟩
  | append_singleton times now ih =>
    rw [calls_concat]
    simp only [call, enforceRateLimit, hoff, Bool.false_eq_true, if_false]
    refine ⟨ih.1, fun r hr => ?_⟩
    rcases List.mem_append.1 hr with hr | hr
    · exact ih.2 r hr
    · rw [List.mem_singleton.1 hr]
      rfl

/-- What a call does when the limiter is on. -/
theorem call_eq {rule : RateRule} (hon : rule.enabled = true) (s : Limiter K) (now : K) :
    s.call rule now =
      { slot := some (Counter.hit now rule.window s.slot)
        log := s.log ++ [{
          time := now
          accepted := decide ((Counter.hit now rule.window s.slot).count ≤ rule.limit)
          opened := (Counter.hit now rule.window s.slot).expiresAt.map fun e => e - (rule.window : K) }] } := by
  simp only [call, enforceRateLimit, hon, if_true, Option.bind_some]
  congr 3
  by_cases h : (Counter.hit now rule.window s.slot).count > rule.limit
  · simp [h, Except.toBool, Nat.not_le.2 h]
  · simp [h, Except.toBool, Nat.not_lt.1 h]

end Limiter

end Limiter

/-! ### Windows -/

namespace Limiter

section Windows

variable {K : Type*} [DivisionRing K] [LinearOrder K]

/-- The calls fall into windows: each is inside its own, windows begin at least one length apart, none accepts
more than the limit, and the counter belongs to the last. -/
structure Windowed (rule : RateRule) (s : Limiter K) : Prop where
  unused : s.slot = none → s.log = []
  slot : ∀ c, s.slot = some c → ∃ start : K, c.expiresAt = some (start + (rule.window : K)) ∧ 0 < c.count ∧
    c.count = s.log.countP (fun r => decide (r.opened = some start)) ∧
    (∀ r ∈ s.log, ∀ b, r.opened = some b → b = start ∨ b + (rule.window : K) ≤ start) ∧ ∃ r ∈ s.log, start ≤ r.time
  inside : ∀ r ∈ s.log, ∃ start, r.opened = some start ∧ start ≤ r.time ∧ r.time < start + (rule.window : K)
  apart : s.log.Pairwise fun r r' => ∀ b b', r.opened = some b → r'.opened = some b' → b = b' ∨
    b + (rule.window : K) ≤ b'
  bounded : ∀ start, (s.log.countP fun r => r.accepted && decide (r.opened = some start)) ≤ rule.limit
  refused : ∀ i r, s.log[i]? = some r → r.accepted = false →
    rule.limit ≤ (s.log.take i).countP fun q => decide (r.time - (rule.window : K) < q.time)

namespace Windowed

variable {rule : RateRule} {s : Limiter K} {now : K}

theorem start (rule : RateRule) : Windowed rule ({} : Limiter K) where
  unused _ := rfl
  slot c hc := by cases hc
  inside r hr := by cases hr
  apart := List.Pairwise.nil
  bounded _ := Nat.zero_le _
  refused i r hr := by cases hr

/-- The calls of a window come after its beginning. -/
private theorem countP_le_of_lt (h : Windowed rule s) {start : K} (hlt : now - (rule.window : K) < start) :
    (s.log.countP fun r => decide (r.opened = some start)) ≤ s.log.countP fun q =>
      decide (now - (rule.window : K) < q.time) := by
  refine List.countP_mono_left fun q hq hopened => ?_
  obtain ⟨b, hb, hle, -⟩ := h.inside q hq
  rw [decide_eq_true_eq, hb, Option.some.injEq] at hopened
  exact decide_eq_true (hlt.trans_le (hopened ▸ hle))

variable [IsStrictOrderedRing K]

/-- One more call, counted by the window that began at `start`. -/
private theorem push (h : Windowed rule s) {c : Counter K} {start : K}
    (he : c.expiresAt = some (start + (rule.window : K)))
    (hle : start ≤ now) (hlt : now < start + (rule.window : K))
    (hlast : ∀ r ∈ s.log, ∀ b, r.opened = some b → b = start ∨ b + (rule.window : K) ≤ start)
    (hcount : c.count = (s.log.countP fun r => decide (r.opened = some start)) + 1) :
    Windowed rule { slot := some c, log := s.log ++ [⟨now, decide (c.count ≤ rule.limit), some start⟩] } where
  unused hnone := by cases hnone
  slot c' hc' := by
    obtain rfl := Option.some.inj hc'
    refine ⟨start, he, by omega, ?_, fun r hr b hb => ?_,
      ⟨_, List.mem_append_right _ (List.mem_singleton.2 rfl), hle⟩⟩
    · simp [List.countP_append, hcount]
    · rcases List.mem_append.1 hr with hr | hr
      · exact hlast r hr b hb
      · rw [List.mem_singleton.1 hr, Option.some.injEq] at hb
        exact .inl hb.symm
  inside r hr := by
    rcases List.mem_append.1 hr with hr | hr
    · exact h.inside r hr
    · rw [List.mem_singleton.1 hr]
      exact ⟨start, rfl, hle, hlt⟩
  apart := by
    refine List.pairwise_append.2 ⟨h.apart, List.pairwise_singleton _ _, fun r hr r' hr' b b' hb hb' => ?_⟩
    rw [List.mem_singleton.1 hr', Option.some.injEq] at hb'
    exact hb' ▸ hlast r hr b hb
  bounded b := by
    have hold := h.bounded b
    rw [List.countP_append, List.countP_singleton]
    split
    · -- the new call is accepted, and all calls of its window so far are below the limit
      rename_i hnew
      simp only [Bool.and_eq_true, decide_eq_true_eq, Option.some.injEq] at hnew
      obtain ⟨haccepted, rfl⟩ := hnew
      have hsub : (s.log.countP fun r => r.accepted && decide (r.opened = some start)) ≤
          s.log.countP fun r => decide (r.opened = some start) :=
        List.countP_mono_left fun r _ hr => (Bool.and_eq_true_iff.1 hr).2
      omega
    · exact hold
  refused i r hr hrefused := by
    rcases Nat.lt_or_ge i s.log.length with hi | hi
    · rw [List.getElem?_append_left hi] at hr
      rw [List.take_append_of_le_length hi.le]
      exact h.refused i r hr hrefused
    · obtain rfl : i = s.log.length := by
        have hlt := (List.getElem?_eq_some_iff.1 hr).1
        rw [List.length_append, List.length_singleton] at hlt
        omega
      rw [List.getElem?_concat_length, Option.some.injEq] at hr
      subst hr
      have hover : ¬c.count ≤ rule.limit := of_decide_eq_false hrefused
      rw [List.take_left]
      refine le_trans ?_ (h.countP_le_of_lt (sub_lt_iff_lt_add.2 hlt))
      omega

/-- The calls in an interval of one length belong to two windows at most. -/
private theorem two_windows (h : Windowed rule s) (a : K) : ∃ b₁ b₂ : K, ∀ r ∈ s.log, a ≤ r.time →
    r.time < a + (rule.window : K) →
    r.opened = some b₁ ∨ r.opened = some b₂ := by
  have hmem : ∀ r, r ∈ s.log.filter (fun r => decide (a ≤ r.time ∧ r.time < a + (rule.window : K))) ↔
      r ∈ s.log ∧ a ≤ r.time ∧ r.time < a + (rule.window : K) := by simp
  have hapart := h.apart.sublist
    (List.filter_sublist (p := fun r => decide (a ≤ r.time ∧ r.time < a + (rule.window : K))))
  generalize s.log.filter (fun r => decide (a ≤ r.time ∧ r.time < a + (rule.window : K))) = l at hmem hapart
  rcases List.eq_nil_or_concat' l with rfl | ⟨init, g, hl⟩
  · exact ⟨a, a, fun r hr hlo hhi => absurd ((hmem r).2 ⟨hr, hlo, hhi⟩) List.not_mem_nil⟩
  cases l with
  | nil => exact absurd hl (by simp)
  | cons f rest =>
    obtain ⟨hf, hflo, -⟩ := (hmem f).1 (List.mem_cons_self ..)
    obtain ⟨hg, -, hghi⟩ := (hmem g).1 (by rw [hl]; simp)
    obtain ⟨b₁, hb₁, -, hlt₁⟩ := h.inside f hf
    obtain ⟨b₂, hb₂, hle₂, -⟩ := h.inside g hg
    refine ⟨b₁, b₂, fun r hr hlo hhi => ?_⟩
    obtain ⟨b, hb, -, -⟩ := h.inside r hr
    have hr' := (hmem r).2 ⟨hr, hlo, hhi⟩
    have hfirst : b₁ = b ∨ b₁ + (rule.window : K) ≤ b := by
      rcases List.mem_cons.1 hr' with rfl | hrest
      · exact .inl (Option.some.inj (hb₁.symm.trans hb))
      · exact (List.pairwise_cons.1 hapart).1 r hrest b₁ b hb₁ hb
    have hlast : b = b₂ ∨ b + (rule.window : K) ≤ b₂ := by
      rw [hl] at hr' hapart
      rcases List.mem_append.1 hr' with hinit | hgr
      · exact (List.pairwise_append.1 hapart).2.2 r hinit g (List.mem_singleton.2 rfl) b b₂ hb hb₂
      · rw [List.mem_singleton.1 hgr] at hb
        exact .inl (Option.some.inj (hb.symm.trans hb₂))
    rcases hfirst with rfl | hfirst
    · exact .inl hb
    rcases hlast with rfl | hlast
    · exact .inr hb
    -- a window strictly between the first and the last does not fit into the interval
    have hspan : b₁ + (rule.window : K) + (rule.window : K) ≤ b₂ := (add_le_add_left hfirst _).trans hlast
    have hshort : b₂ < b₁ + (rule.window : K) + (rule.window : K) :=
      calc b₂ ≤ g.time := hle₂
        _ < a + (rule.window : K) := hghi
        _ ≤ f.time + (rule.window : K) := add_le_add_left hflo _
        _ < b₁ + (rule.window : K) + (rule.window : K) := add_lt_add_left hlt₁ _
    exact absurd hspan (not_le.2 hshort)

/-- At most twice the limit is accepted in an interval of one length. -/
theorem accepted_le (h : Windowed rule s) (a : K) :
    (s.log.countP fun r => r.accepted && decide (a ≤ r.time ∧ r.time < a + (rule.window : K))) ≤ 2 * rule.limit := by
  obtain ⟨b₁, b₂, hboth⟩ := h.two_windows a
  have hsplit : (s.log.countP fun r => r.accepted && decide (a ≤ r.time ∧ r.time < a + (rule.window : K))) ≤
      (s.log.countP fun r => r.accepted && decide (r.opened = some b₁)) +
        s.log.countP fun r => r.accepted && decide (r.opened = some b₂) := by
    refine countP_le_add fun r hr hin => ?_
    simp only [Bool.and_eq_true, decide_eq_true_eq] at hin
    rcases hboth r hr hin.2.1 hin.2.2 with hb | hb
    · exact .inl (by simp [hin.1, hb])
    · exact .inr (by simp [hin.1, hb])
  have h₁ := h.bounded b₁
  have h₂ := h.bounded b₂
  omega

end Windowed

end Windows

section Bound

variable {K : Type*} [DivisionRing K] [LinearOrder K] [FloorRing K] [IsStrictOrderedRing K] {rule : RateRule}

theorem Windowed.call {s : Limiter K} {now : K} (h : Windowed rule s) (hon : rule.enabled = true)
    (hwindow : 0 < rule.window) (hnow : ∀ r ∈ s.log, r.time ≤ now) : Windowed rule (s.call rule now) := by
  have hpos : (0 : K) < rule.window := Nat.cast_pos.2 hwindow
  have hnew : ∀ hit : Counter K, hit = ⟨1, some (now + (rule.window : K))⟩ →
      (s.log.countP fun r => decide (r.opened = some now)) = 0 →
      (∀ r ∈ s.log, ∀ b, r.opened = some b → b = now ∨ b + (rule.window : K) ≤ now) →
      Windowed rule { slot := some hit
                      log := s.log ++ [⟨now, decide (hit.count ≤ rule.limit), hit.expiresAt.map fun e =>
                        e - (rule.window : K)⟩] } := by
    rintro hit rfl hzero hlast
    have := h.push (c := ⟨1, some (now + (rule.window : K))⟩) rfl le_rfl (lt_add_of_pos_right now hpos) hlast
      (by rw [hzero])
    simpa using this
  rw [call_eq hon]
  cases hs : s.slot with
  | none =>
    have hlog := h.unused hs
    exact hnew _ (Counter.hit_of_none rfl) (by simp [hlog]) (by simp [hlog])
  | some c =>
    obtain ⟨start, he, hcpos, hcount, hlast, r₀, hr₀, hstart⟩ := h.slot c hs
    have hle : start ≤ now := hstart.trans (hnow r₀ hr₀)
    by_cases hlt : now < start + (rule.window : K)
    · rw [Counter.hit_of_live (Counter.live_eq_some rfl he hlt) hcpos]
      have := h.push (c := { c with count := c.count + 1 }) he hle hlt hlast (by rw [hcount])
      simpa [he] using this
    · -- the window is over: every window so far began a length before this call
      have hend : start + (rule.window : K) ≤ now := not_lt.1 hlt
      have hbefore : ∀ r ∈ s.log, ∀ b, r.opened = some b → b + (rule.window : K) ≤ now := by
        intro r hr b hb
        rcases hlast r hr b hb with rfl | hb
        · exact hend
        · exact hb.trans hle
      refine hnew _ (Counter.hit_of_none (Counter.live_eq_none rfl he hend)) ?_ fun r hr b hb =>
        .inr (hbefore r hr b hb)
      refine List.countP_eq_zero.2 fun r hr hopened => ?_
      exact absurd (hbefore r hr now (of_decide_eq_true hopened)) (not_le.2 (lt_add_of_pos_right now hpos))

theorem windowed_calls (hon : rule.enabled = true) (hwindow : 0 < rule.window) {times : List K}
    (hsorted : times.Pairwise (· ≤ ·)) :
    Windowed rule (calls rule times) := by
  induction times using List.reverseRecOn with
  | nil => exact .start rule
  | append_singleton times now ih =>
    obtain ⟨hbefore, -, hnow⟩ := List.pairwise_append.1 hsorted
    rw [calls_concat]
    refine (ih hbefore).call hon hwindow fun r hr => hnow r.time ?_ now (List.mem_singleton.2 rfl)
    rw [← time_calls rule times]
    exact List.mem_map_of_mem hr

/-- For calls on one key at any times in order: the counter always has a time to live; a call is refused only
when at least `limit` of the calls before it lie less than one window back; and in every half-open interval of
the length of the window at most `2 * limit` calls are accepted while the limiter is on. -/
theorem fixed_window_bound (rule : RateRule) (hwindow : 1 ≤ rule.window) (times : List K)
    (hsorted : times.Pairwise (· ≤ ·)) :
    (∀ c, (calls rule times).slot = some c → c.expiresAt.isSome = true) ∧
    (∀ i r, (calls rule times).log[i]? = some r → r.accepted = false →
      rule.limit ≤ ((calls rule times).log.take i).countP fun q => decide (r.time - (rule.window : K) < q.time)) ∧
    (rule.enabled = true → ∀ a : K, ((calls rule times).log.countP fun r =>
      r.accepted && decide (a ≤ r.time ∧ r.time < a + (rule.window : K))) ≤ 2 * rule.limit) := by
  cases hon : rule.enabled with
  | true =>
    have h : Windowed rule (calls rule times) := windowed_calls hon hwindow hsorted
    refine ⟨fun c hc => ?_, h.refused, fun _ => h.accepted_le⟩
    obtain ⟨start, he, -⟩ := h.slot c hc
    rw [he]
    rfl
  | false =>
    obtain ⟨hslot, haccepted⟩ := calls_off hon times
    refine ⟨fun c hc => ?_, fun i r hr hrefused => ?_, fun h => (by cases h)⟩
    · rw [hslot] at hc
      cases hc
    · rw [haccepted r (List.mem_of_getElem? hr)] at hrefused
      cases hrefused

/-- Two calls a minute; the end of one window and the beginning of the next are a second apart. -/
private def twoAMinute : RateRule := { enabled := true, limit := 2, window := 60 }

private def bursts : List ℚ := [0, 58, 59, 119 / 2, 60, 61, 62]

theorem fixed_window_bound_bursts :
    ((calls twoAMinute bursts).log.map RateCall.accepted = [true, true, false, false, true, true, false]) ∧
    (twoAMinute.limit ≤ ((calls twoAMinute bursts).log.take 6).countP fun q =>
      decide (62 - (twoAMinute.window : ℚ) < q.time)) ∧
    ((calls twoAMinute bursts).log.countP fun r =>
      r.accepted && decide (58 ≤ r.time ∧ r.time < 58 + (twoAMinute.window : ℚ))) ≤ 2 * twoAMinute.limit := by
  have hsorted : bursts.Pairwise (· ≤ ·) := by decide +kernel
  obtain ⟨-, hrefused, hbound⟩ := fixed_window_bound twoAMinute (by decide) bursts hsorted
  have hlog : (calls twoAMinute bursts).log[6]? = some ⟨62, false, some 60⟩ := by decide +kernel
  exact ⟨by decide +kernel, hrefused 6 ⟨62, false, some 60⟩ hlog rfl, hbound rfl 58⟩

end Bound

end Limiter

end Ticketing
