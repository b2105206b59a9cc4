import Mathlib.Algebra.Order.Floor.Ring
import Mathlib.Data.Char
import Mathlib.Data.List.Lex
import Mathlib.Data.Rat.Floor
import Ticketing.Base.Digits
import Ticketing.Base.Ranking
import Ticketing.WaitingRoom

/-!
# The admission cutoff in exact arithmetic

`status` admits the ranks below a cutoff that is a floored, capped linear function of the time, and
`admit_deadline` inverts that function, so that a stream can sleep until a rank crosses it.  Here time is an
element of any ordered division ring with a floor, such as the reals, and both are functions of one moment of
the stores; `poll_answers_statusAt` says that the steps of a `status` call that nothing disturbs compute the
same.

`admission_arithmetic`: the deadline is the exact moment of admission, the cutoff is the number of people
admitted, these are the lowest ranks, and everybody else is told how many people stand between.
-/

namespace Ticketing

open Exec Ranking

/-! ### The order of the draw -/

namespace DrawEntry

private theorem before_iff (a b : DrawEntry) :
    a.before b = true ↔ a.score < b.score ∨ a.score = b.score ∧ Nat.toDigits 10 a.user < Nat.toDigits 10 b.user := by
  simp [before]

theorem before_trans {a b c : DrawEntry} (hab : a.before b = true) (hbc : b.before c = true) : a.before c = true := by
  rw [before_iff] at hab hbc ⊢
  rcases hab with hab | ⟨hab, hmem⟩ <;> rcases hbc with hbc | ⟨hbc, hmem'⟩
  · exact .inl (hab.trans hbc)
  · exact .inl (hbc ▸ hab)
  · exact .inl (hab ▸ hbc)
  · exact .inr ⟨hab.trans hbc, lt_trans hmem hmem'⟩

theorem before_total {a b : DrawEntry} (hne : a ≠ b) : a.before b = true ∨ b.before a = true := by
  rw [before_iff, before_iff]
  rcases lt_trichotomy a.score b.score with hlt | heq | hgt
  · exact .inl (.inl hlt)
  · have huser : Nat.toDigits 10 a.user ≠ Nat.toDigits 10 b.user := by
      intro h
      have hsame := Digits.toDigits_injective h
      cases a; cases b
      simp only at heq hsame
      exact hne (by rw [heq, hsame])
    rcases lt_or_gt_of_ne huser with hlt | hgt
    · exact .inl (.inr ⟨heq, hlt⟩)
    · exact .inr (.inr ⟨heq.symm, hgt⟩)
  · exact .inr (.inl hgt)

/-- Members with their scores are ordered strictly and totally. -/
theorem strictOn (d : Draw) : StrictOn before d where
  irrefl a _ := by simp [before]
  trans _ _ _ _ _ _ := before_trans
  total _ _ _ _ := before_total

end DrawEntry

namespace Draw

variable {d : Draw}

/-- A sorted set has each member once. -/
def Distinct (d : Draw) : Prop := (d.map DrawEntry.user).Nodup

theorem Distinct.nodup (hd : d.Distinct) : d.Nodup := hd.of_map

/-- `ZRANK` is the rank of the member. -/
theorem zrank_of_mem (hd : d.Distinct) {e : DrawEntry} (he : e ∈ d) :
    d.zrank e.user = some (rank DrawEntry.before d e) := by
  obtain ⟨e', he'⟩ : ∃ e', d.find? (fun x => x.user == e.user) = some e' :=
    Option.isSome_iff_exists.1 (List.find?_isSome.2 ⟨e, he, by simp⟩)
  have huser : e'.user = e.user := by simpa using List.find?_some he'
  rw [zrank, he', List.inj_on_of_nodup_map hd (List.mem_of_find?_eq_some he') he huser]
  rfl

theorem exists_of_zrank {user : UserId} {r : Nat} (h : d.zrank user = some r) : ∃ e ∈ d, e.user = user := by
  obtain ⟨e, he, -⟩ := Option.map_eq_some_iff.1 h
  exact ⟨e, List.mem_of_find?_eq_some he, by simpa using List.find?_some he⟩

end Draw

/-! ### Cutoff, state and deadline at a moment -/

section Exact

variable {K : Type*} [DivisionRing K] [LinearOrder K] [FloorRing K]

/-- `datetime.timestamp()`: the seconds since the epoch. -/
def timestamp (micros : Int) : K := micros / second

/-- `int(x)`, which rounds towards zero. -/
def truncate (x : K) : Int := if 0 ≤ x then ⌊x⌋ else ⌈x⌉

namespace QueuedEvent

/-- `_admit_start` -/
def admitStart (ev : QueuedEvent) (w : WaitingRoom) : Option K :=
  if w.status = .published then some (timestamp ev.closes) else none

/-- `_admitted_count` -/
def admittedCountAt (ev : QueuedEvent) (w : WaitingRoom) (now : K) : Int :=
  (ev.admitStart w).elim 0 fun start =>
    if now - start ≤ 0 then 0 else min (truncate ((now - start) * ev.cfg.admissionRate)) w.draw.zcard

/-- `status` -/
def statusAt (ev : QueuedEvent) (w : WaitingRoom) (user : UserId) (now : K) : QueueState :=
  let soldOut := decide (w.getAvailable ≤ 0)
  (w.draw.zrank user).elim { admitted := false, soldOut, paused := w.paused } fun rank =>
    if soldOut then { admitted := false, soldOut := true, paused := w.paused }
    else .ofRank w.paused rank (ev.admittedCountAt w now)

/-- `admit_deadline` -/
def admitDeadline (ev : QueuedEvent) (w : WaitingRoom) (user : UserId) : Option K :=
  (ev.admitStart w).bind fun start => (w.draw.zrank user).map fun rank :
    Nat => start + ((rank : K) + 1) / ev.cfg.admissionRate

/-- The people in the draw to whom `status` answers that they are admitted. -/
def admittedUsers (ev : QueuedEvent) (w : WaitingRoom) (now : K) : Nat :=
  w.draw.countP fun e => (ev.statusAt w e.user now).admitted

/-! ### The arithmetic -/

section Arithmetic

variable {ev : QueuedEvent} {w : WaitingRoom} {t : K}

/-- What somebody in the draw is told while tickets are left and nothing is paused. -/
theorem statusAt_of_rank (hpaused : w.paused = false) (hstock : 0 < w.getAvailable) {user : UserId} {rank : Nat}
    (hrank : w.draw.zrank user = some rank) :
    ev.statusAt w user t = .ofRank false rank (ev.admittedCountAt w t) := by
  rw [statusAt, hrank, Option.elim_some, decide_eq_false (not_le.2 hstock), if_neg (by decide), hpaused]

theorem admitted_ofRank (rank : Nat) (count : Int) :
    (QueueState.ofRank false rank count).admitted = decide ((rank : Int) < count) := by
  unfold QueueState.ofRank
  by_cases h : (rank : Int) < count <;> simp [h]

variable [IsStrictOrderedRing K]

/-- The cutoff of a published event is never negative. -/
theorem admittedCountAt_eq (hpub : w.status = .published) (hrate : 0 < ev.cfg.admissionRate) :
    ev.admittedCountAt w t =
      if timestamp ev.closes < t then min ⌊(t - timestamp ev.closes) * ev.cfg.admissionRate⌋ w.draw.zcard else 0 := by
  have hr : (0 : K) < ev.cfg.admissionRate := by exact_mod_cast hrate
  rw [admittedCountAt, admitStart, if_pos hpub, Option.elim_some]
  by_cases ht : timestamp ev.closes < t
  · have hpos : 0 < t - timestamp ev.closes := sub_pos.2 ht
    rw [if_neg (not_le.2 hpos), if_pos ht, truncate, if_pos (mul_pos hpos hr).le]
  · rw [if_pos (sub_nonpos.2 (not_lt.1 ht)), if_neg ht]

/-- A rank is below the cutoff from `start + (rank + 1) / RATE` on. -/
theorem lt_admittedCountAt_iff (hpub : w.status = .published) (hrate : 0 < ev.cfg.admissionRate) {rank : Nat}
    (hrank : rank < w.draw.zcard) :
    (rank : Int) < ev.admittedCountAt w t ↔
      timestamp ev.closes < t ∧ timestamp ev.closes + ((rank : K) + 1) / ev.cfg.admissionRate ≤ t := by
  have hr : (0 : K) < ev.cfg.admissionRate := by exact_mod_cast hrate
  rw [admittedCountAt_eq hpub hrate]
  by_cases ht : timestamp ev.closes < t
  · rw [if_pos ht, lt_min_iff, Int.lt_iff_add_one_le, Int.le_floor]
    have hcap : (rank : Int) < w.draw.zcard := by exact_mod_cast hrank
    simp only [hcap, ht, and_true, true_and]
    rw [← le_sub_iff_add_le', div_le_iff₀ hr]
    push_cast
    rfl
  · simp only [ht, if_false, false_and, iff_false, not_lt]
    exact Int.natCast_nonneg rank

theorem admittedCountAt_nonneg (hpub : w.status = .published) (hrate : 0 < ev.cfg.admissionRate) (t : K) :
    0 ≤ ev.admittedCountAt w t := by
  have hr : (0 : K) < ev.cfg.admissionRate := by exact_mod_cast hrate
  rw [admittedCountAt_eq hpub hrate]
  split
  · rename_i ht
    exact le_min (Int.floor_nonneg.2 (mul_nonneg (sub_nonneg.2 ht.le) hr.le)) (Int.natCast_nonneg _)
  · exact le_refl 0

theorem admittedCountAt_le (hpub : w.status = .published) (hrate : 0 < ev.cfg.admissionRate) (t : K) :
    ev.admittedCountAt w t ≤ w.draw.zcard := by
  rw [admittedCountAt_eq hpub hrate]
  split
  · exact min_le_right _ _
  · exact Int.natCast_nonneg _

/-- The cutoff is the number of people admitted. -/
theorem admittedUsers_eq (hpub : w.status = .published) (hd : w.draw.Distinct) (hrate : 0 < ev.cfg.admissionRate)
    (hpaused : w.paused = false) (hstock : 0 < w.getAvailable) (t : K) :
    (ev.admittedUsers w t : Int) = ev.admittedCountAt w t := by
  have hnn := admittedCountAt_nonneg hpub hrate t
  have hle := admittedCountAt_le hpub hrate t
  have hcount : ev.admittedUsers w t = w.draw.countP fun e => decide
      (rank DrawEntry.before w.draw e < (ev.admittedCountAt w t).toNat) := by
    refine List.countP_congr fun e he => ?_
    rw [statusAt_of_rank hpaused hstock (Draw.zrank_of_mem hd he), admitted_ofRank, decide_eq_true_eq,
      decide_eq_true_eq]
    omega
  rw [hcount, countP_rank (DrawEntry.strictOn _) hd.nodup fun r =>
    decide (r < (ev.admittedCountAt w t).toNat), countP_range_lt]
  rw [Draw.zcard] at hle
  omega

/-- Admission in exact arithmetic, for a published event whose draw stands, with tickets left and nothing
paused: somebody in the draw is admitted from the deadline on and after the start; the number of people
admitted is the elapsed time times the rate, rounded down and capped at the size of the draw, and 0 up to the
start; these are the lowest ranks; and everybody else is told how many people of lower rank are not admitted.
-/
theorem admission_arithmetic (ev : QueuedEvent) (w : WaitingRoom) (hpub : w.status = .published)
    (hd : w.draw.Distinct)
    (hrate : 0 < ev.cfg.admissionRate) (hpaused : w.paused = false) (hstock : 0 < w.getAvailable) (t : K) :
    (∀ user, w.draw.has user = true → ∃ deadline, ev.admitDeadline w user = some deadline ∧
      ((ev.statusAt w user t).admitted = true ↔ timestamp ev.closes < t ∧ deadline ≤ t)) ∧
    ((ev.admittedUsers w t : Int) =
      if timestamp ev.closes < t then min ⌊(t - timestamp ev.closes) * ev.cfg.admissionRate⌋ w.draw.zcard else 0) ∧
    (∀ user rank, w.draw.zrank user = some rank →
      ((ev.statusAt w user t).admitted = true ↔ rank < ev.admittedUsers w t)) ∧
    ∀ user rank, w.draw.zrank user = some rank → (ev.statusAt w user t).admitted = false →
      (ev.statusAt w user t).peopleAhead =
        some ((w.draw.countP fun e => !(ev.statusAt w e.user t).admitted &&
          (w.draw.zrank e.user).any fun r => r < rank : Nat) : Int) := by
  have husers := admittedUsers_eq hpub hd hrate hpaused hstock t
  have hadmitted : ∀ user rank, w.draw.zrank user = some rank →
      ((ev.statusAt w user t).admitted = true ↔ rank < ev.admittedUsers w t) := by
    intro user rank hrank
    rw [statusAt_of_rank hpaused hstock hrank, admitted_ofRank, decide_eq_true_eq]
    omega
  have hbound : ∀ user rank, w.draw.zrank user = some rank → rank < w.draw.zcard := by
    intro user rank hrank
    obtain ⟨e, he, rfl⟩ := Draw.exists_of_zrank hrank
    rw [Draw.zrank_of_mem hd he, Option.some.injEq] at hrank
    exact hrank ▸ rank_lt_length (DrawEntry.strictOn _) he
  refine ⟨fun user huser => ?_, ?_, hadmitted, fun user rank hrank hnot => ?_⟩
  · obtain ⟨e, he, heq⟩ := List.any_eq_true.1 huser
    obtain rfl : e.user = user := by simpa using heq
    have hrank := Draw.zrank_of_mem hd he
    refine ⟨_, by rw [admitDeadline, admitStart, if_pos hpub, Option.bind_some, hrank, Option.map_some], ?_⟩
    rw [statusAt_of_rank hpaused hstock hrank, admitted_ofRank, decide_eq_true_eq]
    exact lt_admittedCountAt_iff hpub hrate (hbound _ _ hrank)
  · rw [husers, admittedCountAt_eq hpub hrate]
  · -- the people told to wait before this one have the ranks from the cutoff up to this rank
    have hge : ev.admittedUsers w t ≤ rank := by
      by_contra hlt
      rw [(hadmitted user rank hrank).2 (not_le.1 hlt)] at hnot
      cases hnot
    have hwait : (w.draw.countP fun e => !(ev.statusAt w e.user t).admitted &&
      (w.draw.zrank e.user).any fun r => r < rank) =
        rank - ev.admittedUsers w t := by
      rw [← countP_range_between (k := ev.admittedUsers w t) (hbound user rank hrank).le, Draw.zcard,
        ← countP_rank (DrawEntry.strictOn _) hd.nodup]
      refine List.countP_congr fun e he => ?_
      have hr := Draw.zrank_of_mem hd he
      have hadm := hadmitted e.user _ hr
      rw [hr, Option.any_some, Bool.and_eq_true, Bool.not_eq_true', decide_eq_true_eq, decide_eq_true_eq,
        ← Bool.not_eq_true, hadm, not_lt]
    rw [statusAt_of_rank hpaused hstock hrank, hwait, QueueState.ofRank, if_neg (by decide),
      if_neg (by omega), ← husers, Nat.cast_sub hge]

end Arithmetic

/-- Two people a second from the closing time on. -/
private def twoPerSecond : QueuedEvent where
  event := 1
  times := { saleStartsAt := 0, queueClosesAt := some 0 }
  cfg := { admissionRate := 2 }
  score _ _ _ := 0

/-- Two users have the same score: `"10"` is before `"9"`. -/
private def tiedRoom : WaitingRoom where
  now := 1250000
  row := .published
  status := .published
  available := some 40
  draw := [⟨9, 5⟩, ⟨4, 8⟩, ⟨10, 5⟩]

/-- A second and a quarter after the start two of the three are admitted, and the third is the next. -/
theorem admission_arithmetic_tie :
    tiedRoom.draw.zrank 9 = some 1 ∧ (twoPerSecond.admittedUsers tiedRoom (5 / 4 : ℚ) : Int) = 2 ∧
      (twoPerSecond.statusAt tiedRoom 9 (5 / 4 : ℚ)).admitted = true ∧
      (∃ deadline : ℚ, twoPerSecond.admitDeadline tiedRoom 4 = some deadline ∧
        ((twoPerSecond.statusAt tiedRoom 4 (3 / 2 : ℚ)).admitted = true ↔
          timestamp twoPerSecond.closes < (3 / 2 : ℚ) ∧ deadline ≤ 3 / 2)) := by
  have hstock : 0 < tiedRoom.getAvailable := by decide
  obtain ⟨-, hcount, hlow, -⟩ :=
    admission_arithmetic twoPerSecond tiedRoom rfl (by decide : List.Nodup _) (by decide) rfl hstock (5 / 4 : ℚ)
  have htwo : (twoPerSecond.admittedUsers tiedRoom (5 / 4 : ℚ) : Int) = 2 := hcount.trans (by decide +kernel)
  refine ⟨by decide, htwo, (hlow 9 1 (by decide)).2 (by omega), ?_⟩
  exact (admission_arithmetic twoPerSecond tiedRoom rfl (by decide : List.Nodup _) (by decide) rfl hstock
    (3 / 2 : ℚ)).1 4 (by decide)

end QueuedEvent

/-! ### A `status` call that nothing disturbs -/

section Polling

variable [IsStrictOrderedRing K]

private theorem floor_intCast_div (a : Int) {n : Int} (hn : 0 < n) : ⌊(a : K) / n⌋ = a / n := by
  have hn' : (n : K) ≠ 0 := by exact_mod_cast hn.ne'
  rw [← Int.mul_cast_floor_div_cancel_of_pos hn, div_mul_cancel₀ _ hn', Int.floor_intCast]

private theorem truncate_intCast_div (a : Int) {n : Int} (hn : 0 < n) : truncate ((a : K) / n) = a.tdiv n := by
  have hn' : (0 : K) < n := by exact_mod_cast hn
  rw [truncate]
  rcases le_or_gt 0 a with ha | ha
  · have ha' : (0 : K) ≤ a / n := div_nonneg (by exact_mod_cast ha) hn'.le
    rw [if_pos ha', floor_intCast_div a hn, Int.tdiv_eq_ediv_of_nonneg ha]
  · have ha' : (a : K) / n < 0 := by
      rw [div_eq_mul_inv]
      exact mul_neg_of_neg_of_pos (by exact_mod_cast ha) (inv_pos.2 hn')
    have hneg : (a : K) / n = -(((-a : Int) : K) / n) := by rw [Int.cast_neg, neg_div, neg_neg]
    rw [if_neg (not_le.2 ha'), hneg, Int.ceil_neg, floor_intCast_div (-a) hn, ← Int.tdiv_eq_ediv_of_nonneg
      (by omega), Int.neg_tdiv, neg_neg]

/-- The cutoff between two times of the microsecond clock. -/
private theorem truncate_timestamp (a b rate : Int) :
    truncate ((timestamp a - timestamp b : K) * rate) = ((a - b) * rate).tdiv second := by
  have hs : 0 < second := by decide
  have hcomm : ∀ x : K, x / second * rate = x * rate / second := by
    intro x
    rw [div_eq_mul_inv, mul_assoc, ← (Int.cast_commute rate (second : K)⁻¹).eq, ← mul_assoc, ← div_eq_mul_inv]
  rw [← truncate_intCast_div (K := K) _ hs, timestamp, timestamp, ← sub_div, hcomm]
  push_cast
  rfl

namespace WaitingRoom

variable {ev : QueuedEvent} {w : WaitingRoom}

/-- The room with one more request. -/
private theorem step_last (call : QueueCall) (fresh : String) :
    step ev (w.begin call) (.advance w.calls.length fresh) = (w.begin call).advance ev w.calls.length fresh call := by
  rw [step, begin, List.getElem?_concat_length]
  rfl

private theorem setCall_last (call call' : QueueCall) :
    (w.begin call).setCall w.calls.length call' = w.begin call' := by
  simp [begin, setCall]

/-- The request ends with this answer when it runs undisturbed. -/
private def Answers (ev : QueuedEvent) (w : WaitingRoom) (call : QueueCall) (state : QueueState) : Prop :=
  ∃ n w' call', exec (step ev) (w.begin call) (List.replicate n (.advance w.calls.length "")) = some w' ∧
    w'.calls[w.calls.length]? = some call' ∧ call'.phase = .answered state

private theorem Answers.of_answered {call : QueueCall} {state : QueueState} (h : call.phase = .answered state) :
    Answers ev w call state :=
  ⟨0, _, call, rfl, by simp [begin], h⟩

private theorem Answers.of_step {call : QueueCall} (call' : QueueCall) {state : QueueState}
    (hstep : (w.begin call).advance ev w.calls.length "" call = some (w.begin call')) (h : Answers ev w call' state) :
    Answers ev w call state := by
  obtain ⟨n, w', last, hexec, hlast, hphase⟩ := h
  exact ⟨n + 1, w', last, exec_cons.2 ⟨_, (step_last call "").trans hstep, hexec⟩, hlast, hphase⟩

/-- From the rank on. -/
private theorem answers_scheduling (user : UserId) (since paused : Bool) (rank : Nat) :
    Answers ev w ⟨user, .scheduling paused rank, since⟩
      (.ofRank paused rank (ev.admittedCountAt w (timestamp w.now : K))) := by
  refine .of_step ⟨user, w.schedule paused rank, since⟩ (by simp only [advance, setCall_last]; rfl) ?_
  rw [QueuedEvent.admittedCountAt, QueuedEvent.admitStart, schedule]
  by_cases hpub : w.status = .published
  · rw [if_pos hpub, if_pos hpub, Option.elim_some]
    refine .of_step ⟨user, w.readClock ev paused rank, since⟩ (by simp only [advance, setCall_last]; rfl) ?_
    have hclock : (timestamp w.now - timestamp ev.closes : K) ≤ 0 ↔ w.now - ev.closes ≤ 0 := by
      have hs : (0 : K) < second := by exact_mod_cast (by decide : 0 < second)
      rw [sub_nonpos, timestamp, timestamp, div_le_div_iff_of_pos_right hs, Int.cast_le, sub_nonpos]
    rw [readClock]
    by_cases hlate : w.now - ev.closes ≤ 0
    · rw [if_pos hlate, if_pos (hclock.2 hlate)]
      exact .of_answered rfl
    · rw [if_neg hlate, if_neg fun h => hlate (hclock.1 h), truncate_timestamp]
      refine ⟨1, _, ⟨user, _, since⟩, exec_cons.2 ⟨_, step_last _ "", rfl⟩, ?_, rfl⟩
      simp [answer, begin, setCall]
      rfl
  · rw [if_neg hpub, if_neg hpub]
    exact .of_answered rfl

/-- A `status` call that nothing disturbs answers what `statusAt` says for the moment of the call. -/
theorem poll_answers_statusAt (ev : QueuedEvent) (w : WaitingRoom) (user : UserId) :
    ∃ n w' call, exec (step ev) w (.poll user :: List.replicate n (.advance w.calls.length "")) = some w' ∧
      w'.calls[w.calls.length]? = some call ∧ call.phase = .answered (ev.statusAt w user (timestamp w.now : K)) := by
  suffices h : Answers ev w ⟨user, .asking, false⟩ (ev.statusAt w user (timestamp w.now : K)) by
    obtain ⟨n, w', call, hexec, hcall⟩ := h
    exact ⟨n, w', call, exec_cons.2 ⟨_, rfl, hexec⟩, hcall⟩
  refine .of_step ⟨user, .checkingPause (decide (w.getAvailable ≤ 0)), decide (user ∈ w.admitted)⟩
    (by simp only [advance, setCall_last]; rfl) ?_
  refine .of_step ⟨user, .ranking (decide (w.getAvailable ≤ 0)) w.paused, decide (user ∈ w.admitted)⟩
    (by simp only [advance, setCall_last]; rfl) ?_
  refine .of_step
    ⟨user, afterRank (decide (w.getAvailable ≤ 0)) w.paused (w.draw.zrank user), decide (user ∈ w.admitted)⟩
    (by simp only [advance, setCall_last]; rfl) ?_
  rw [QueuedEvent.statusAt]
  cases w.draw.zrank user with
  | none => exact .of_answered rfl
  | some rank =>
    rw [afterRank, Option.elim_some]
    by_cases hsold : w.getAvailable ≤ 0
    · rw [decide_eq_true hsold, if_pos rfl, if_pos rfl]
      exact .of_answered rfl
    · rw [decide_eq_false hsold, if_neg (by decide), if_neg (by decide)]
      exact answers_scheduling user _ w.paused rank

end WaitingRoom

end Polling

end Exact

end Ticketing
