import Mathlib.Data.Nat.Find
import Mathlib.Order.BoundedOrder.Basic
import Mathlib.Order.Nat
import Mathlib.Data.Prod.Lex
import Ticketing.Base.Exec

/-!
# Counting new dead letters

`count_new_dead_letters`.  A call reads its cursor, the newest id of the stream, and the entries between the
two, as far as the cap goes; then it sets the cursor to the newest id it read.  Entries arrive between any two
of these commands, and a call may die before its last one.  Ids are the elements of a linear order, with `0-0`
at the bottom.  The stream is not trimmed here: it is kept to its newest 100000 entries or so, and a trim of
entries that no call has counted lowers what a later call finds.

The ranges of the calls follow one another without gap or overlap: a call begins where the one before it
ended, and what arrives after a call has read the newest id is above its range (`Tracked`).
-/

namespace Ticketing

open Exec

/-- A call that has returned. -/
structure DeadLetterCall (I : Type*) where
  /-- What `GET` found. -/
  cursor : Option I
  newest : I
  cap : Nat
  result : Nat
deriving DecidableEq

/-- The entry lies in the range that the call counts. -/
def DeadLetterCall.Counts {I : Type*} [LT I] [LE I] (c : DeadLetterCall I) (e : I) : Prop :=
  ∃ lo, c.cursor = some lo ∧ lo < e ∧ e ≤ c.newest

/-- The command that a call is about to send. -/
inductive CountPhase (I : Type*) where
  /-- There is no call. -/
  | idle
  /-- `GET` -/
  | reading (cap : Nat)
  /-- `XREVRANGE` -/
  | got (cap : Nat) (cursor : Option I)
  /-- `XRANGE`, or `SET` where there is no cursor -/
  | found (cap : Nat) (cursor : Option I) (newest : I)
  /-- `SET` -/
  | ranged (cap : Nat) (cursor newest : I) (entries : List I)

structure DeadLetters (I : Type*) where
  stream : List I
  cursor : Option I := none
  phase : CountPhase I := .idle
  calls : List (DeadLetterCall I) := []

inductive DeadLetterAct (I : Type*) where
  /-- `XADD` -/
  | add (id : I)
  | call (cap : Nat)
  | get
  | xrevrange
  | xrange
  | set
  /-- The call dies. -/
  | stop
deriving DecidableEq

namespace DeadLetters

variable {I : Type*} [LinearOrder I] [OrderBot I]

/-- The id of the last entry, or `0-0`. -/
def newest (w : DeadLetters I) : I := w.stream.getLast?.getD ⊥

/-- The cursor is moved and the call returns. -/
def returns (w : DeadLetters I) (c : DeadLetterCall I) : DeadLetters I :=
  { w with cursor := some c.newest, phase := .idle, calls := w.calls ++ [c] }

def step (w : DeadLetters I) : DeadLetterAct I → Option (DeadLetters I)
  | .add id => if (∀ x ∈ w.stream, x < id) ∧ ⊥ < id then some { w with stream := w.stream ++ [id] } else none
  | .call cap =>
    match w.phase with
    | .idle => some { w with phase := .reading cap }
    | _ => none
  | .get =>
    match w.phase with
    | .reading cap => some { w with phase := .got cap w.cursor }
    | _ => none
  | .xrevrange =>
    match w.phase with
    | .got cap cursor => some { w with phase := .found cap cursor w.newest }
    | _ => none
  | .xrange =>
    match w.phase with
    | .found cap (some cursor) newest =>
      some { w with
        phase := .ranged cap cursor newest ((w.stream.filter fun e => cursor < e ∧ e ≤ newest).take (cap + 1)) }
    | _ => none
  | .set =>
    match w.phase with
    | .found cap none newest => some (w.returns { cursor := none, newest, cap, result := 0 })
    | .ranged cap cursor newest entries =>
        some (w.returns { cursor := some cursor, newest, cap, result := entries.length })
    | _ => none
  | .stop =>
    match w.phase with
    | .idle => none
    | _ => some { w with phase := .idle }

/-- The phases that the call in progress may reach by its next command. -/
inductive Advances (w : DeadLetters I) : CountPhase I → Prop
  | stop : Advances w .idle
  | call (cap : Nat) : Advances w (.reading cap)
  | get (cap : Nat) : Advances w (.got cap w.cursor)
  | xrevrange {cap : Nat} {cursor : Option I} (h : w.phase = .got cap cursor) :
      Advances w (.found cap cursor w.newest)
  | xrange {cap : Nat} {cursor newest : I} (h : w.phase = .found cap (some cursor) newest) :
      Advances w (.ranged cap cursor newest ((w.stream.filter fun e => cursor < e ∧ e ≤ newest).take (cap + 1)))

/-- The call in progress may return as such. -/
inductive Completes (w : DeadLetters I) : DeadLetterCall I → Prop
  | align {cap : Nat} {newest : I} (h : w.phase = .found cap none newest) :
      Completes w { cursor := none, newest, cap, result := 0 }
  | count {cap : Nat} {cursor newest : I} {entries : List I} (h : w.phase = .ranged cap cursor newest entries) :
      Completes w { cursor := some cursor, newest, cap, result := entries.length }

/-- What a step can do. -/
theorem step_cases {w w' : DeadLetters I} {act : DeadLetterAct I} (hstep : w.step act = some w') :
    (∃ id, (∀ x ∈ w.stream, x < id) ∧ ⊥ < id ∧ act = .add id ∧ w' = { w with stream := w.stream ++ [id] }) ∨
    (∃ phase, w.Advances phase ∧ w' = { w with phase }) ∨ ∃ c, w.Completes c ∧ w' = w.returns c := by
  cases act with
  | add id =>
    simp only [step] at hstep
    split at hstep
    · rename_i hguard
      exact .inl ⟨id, hguard.1, hguard.2, rfl, (Option.some.inj hstep).symm⟩
    · cases hstep
  | call cap =>
    simp only [step] at hstep
    split at hstep
    · exact .inr (.inl ⟨_, .call cap, (Option.some.inj hstep).symm⟩)
    · cases hstep
  | get =>
    simp only [step] at hstep
    split at hstep
    · exact .inr (.inl ⟨_, .get _, (Option.some.inj hstep).symm⟩)
    · cases hstep
  | xrevrange =>
    simp only [step] at hstep
    split at hstep
    · rename_i hp
      exact .inr (.inl ⟨_, .xrevrange hp, (Option.some.inj hstep).symm⟩)
    · cases hstep
  | xrange =>
    simp only [step] at hstep
    split at hstep
    · rename_i hp
      exact .inr (.inl ⟨_, .xrange hp, (Option.some.inj hstep).symm⟩)
    · cases hstep
  | set =>
    simp only [step] at hstep
    split at hstep
    · rename_i hp
      exact .inr (.inr ⟨_, .align hp, (Option.some.inj hstep).symm⟩)
    · rename_i hp
      exact .inr (.inr ⟨_, .count hp, (Option.some.inj hstep).symm⟩)
    · cases hstep
  | stop =>
    simp only [step] at hstep
    split at hstep
    · cases hstep
    · exact .inr (.inl ⟨_, .stop, (Option.some.inj hstep).symm⟩)

/-- The entries above the first id, up to the second. -/
def inRange (w : DeadLetters I) (lo hi : I) : Nat := w.stream.countP fun e => lo < e ∧ e ≤ hi

/-- `0-0`, or the id of an entry. -/
def Taken (w : DeadLetters I) (id : I) : Prop := id = ⊥ ∨ id ∈ w.stream

/-- What a call in progress has read fits to the calls that have returned. -/
def PhaseTracked (w : DeadLetters I) : CountPhase I → Prop
  | .idle | .reading _ => True
  | .got _ cursor => cursor = w.cursor
  | .found _ cursor newest => cursor = w.cursor ∧ w.Taken newest ∧ ∀ c ∈ w.calls, c.newest ≤ newest
  | .ranged cap cursor newest entries =>
      w.cursor = some cursor ∧ w.Taken newest ∧ (∀ c ∈ w.calls, c.newest ≤ newest) ∧
      entries.length = min (w.inRange cursor newest) (cap + 1)

structure Tracked (w : DeadLetters I) : Prop where
  sorted : w.stream.Pairwise (· < ·)
  positive : ∀ e ∈ w.stream, ⊥ < e
  cursor : w.cursor = w.calls.getLast?.map DeadLetterCall.newest
  first : ∀ c, w.calls[0]? = some c → c.cursor = none
  chained : ∀ k c, w.calls[k + 1]? = some c → c.cursor = w.calls[k]?.map DeadLetterCall.newest
  ordered : w.calls.Pairwise fun c c' => c.newest ≤ c'.newest
  taken : ∀ c ∈ w.calls, w.Taken c.newest
  results : ∀ c ∈ w.calls, c.result = c.cursor.elim 0 fun lo => min (w.inRange lo c.newest) (c.cap + 1)
  phase : w.PhaseTracked w.phase

namespace Tracked

variable {w w' : DeadLetters I}

theorem start {stream : List I} (hsorted : stream.Pairwise (· < ·)) (hpositive : ∀ e ∈ stream, ⊥ < e) :
    Tracked { stream } where
  sorted := hsorted
  positive := hpositive
  cursor := rfl
  first c h := by cases h
  chained k c h := by cases h
  ordered := List.Pairwise.nil
  taken c h := by cases h
  results c h := by cases h
  phase := trivial

/-- The last entry has the greatest id. -/
theorem le_newest (h : w.Tracked) {id : I} (hid : w.Taken id) : id ≤ w.newest := by
  rcases hid with rfl | hmem
  · exact bot_le
  · rw [newest]
    rcases List.eq_nil_or_concat' w.stream with hnil | ⟨init, last, hlast⟩
    · rw [hnil] at hmem
      cases hmem
    · have hsorted := h.sorted
      rw [hlast] at hmem hsorted ⊢
      rw [List.getLast?_concat, Option.getD_some]
      rcases List.mem_append.1 hmem with hinit | hself
      · exact ((List.pairwise_append.1 hsorted).2.2 id hinit last (List.mem_singleton.2 rfl)).le
      · exact (List.mem_singleton.1 hself).le

theorem taken_newest (w : DeadLetters I) : w.Taken w.newest := by
  rw [Taken, newest]
  cases h : w.stream.getLast? with
  | none => exact .inl rfl
  | some id => exact .inr (List.mem_of_getLast? h)

/-- What arrives is above every id that a call has read. -/
private theorem inRange_add {id : I} (habove : ∀ x ∈ w.stream, x < id) (hpos : ⊥ < id) (lo : I) {hi : I}
    (hhi : w.Taken hi) :
    inRange { w with stream := w.stream ++ [id] } lo hi = w.inRange lo hi := by
  have hlt : hi < id := by
    rcases hhi with rfl | hmem
    · exact hpos
    · exact habove hi hmem
  simp [inRange, List.countP_append, hlt]

theorem add (h : w.Tracked) {id : I} (habove : ∀ x ∈ w.stream, x < id) (hpos : ⊥ < id) :
    Tracked { w with stream := w.stream ++ [id] } := by
  have htaken : ∀ {x : I}, w.Taken x → Taken { w with stream := w.stream ++ [id] } x :=
    fun hx => hx.imp_right (List.mem_append_left _)
  refine ⟨?_, fun e he => ?_, h.cursor, h.first, h.chained, h.ordered, fun c hc => htaken (h.taken c hc),
    fun c hc => ?_, ?_⟩
  · refine List.pairwise_append.2 ⟨h.sorted, List.pairwise_singleton _ _, fun x hx y hy => ?_⟩
    exact List.mem_singleton.1 hy ▸ habove x hx
  · rcases List.mem_append.1 he with he | he
    · exact h.positive e he
    · exact List.mem_singleton.1 he ▸ hpos
  · rw [h.results c hc]
    cases c.cursor with
    | none => rfl
    | some lo => rw [Option.elim_some, Option.elim_some, inRange_add habove hpos lo (h.taken c hc)]
  · have hphase := h.phase
    show PhaseTracked _ w.phase
    cases hp : w.phase with
    | idle => trivial
    | reading cap => trivial
    | got cap cursor =>
      rw [hp] at hphase
      exact hphase
    | found cap cursor newest =>
      rw [hp] at hphase
      exact ⟨hphase.1, htaken hphase.2.1, hphase.2.2⟩
    | ranged cap cursor newest entries =>
      rw [hp] at hphase
      have hsame := inRange_add habove hpos cursor hphase.2.1
      exact ⟨hphase.1, htaken hphase.2.1, hphase.2.2.1, hphase.2.2.2.trans (congrArg (min · (cap + 1)) hsame.symm)⟩

/-- A call returns that has begun where the last one ended. -/
private theorem returns (h : w.Tracked) {c : DeadLetterCall I} (hcursor : c.cursor = w.cursor)
    (htaken : w.Taken c.newest) (hge : ∀ c' ∈ w.calls, c'.newest ≤ c.newest)
    (hresult : c.result = c.cursor.elim 0 fun lo => min (w.inRange lo c.newest) (c.cap + 1)) :
    (w.returns c).Tracked := by
  refine ⟨h.sorted, h.positive, ?_, fun c' hc' => ?_, fun k c' hc' => ?_, ?_, fun c' hc' => ?_,
    fun c' hc' => ?_, trivial⟩
  · rw [DeadLetters.returns, List.getLast?_concat, Option.map_some]
  · have hget : (w.calls ++ [c])[0]? = some c' := hc'
    cases hcalls : w.calls with
    | nil =>
      rw [hcalls, List.nil_append, List.getElem?_cons_zero, Option.some.injEq] at hget
      rw [← hget, hcursor, h.cursor, hcalls]
      rfl
    | cons d rest =>
      rw [hcalls, List.cons_append, List.getElem?_cons_zero] at hget
      exact h.first c' (by rw [hcalls, List.getElem?_cons_zero, hget])
  · have hget : (w.calls ++ [c])[k + 1]? = some c' := hc'
    show c'.cursor = (w.calls ++ [c])[k]?.map DeadLetterCall.newest
    rcases Nat.lt_trichotomy (k + 1) w.calls.length with hlt | heq | hgt
    · rw [List.getElem?_append_left hlt] at hget
      rw [List.getElem?_append_left (by omega)]
      exact h.chained k c' hget
    · rw [heq, List.getElem?_concat_length, Option.some.injEq] at hget
      rw [List.getElem?_append_left (by omega), ← hget, hcursor, h.cursor, List.getLast?_eq_getElem?,
        show w.calls.length - 1 = k by omega]
    · rw [List.getElem?_eq_none (by simp; omega)] at hget
      cases hget
  · refine List.pairwise_append.2 ⟨h.ordered, List.pairwise_singleton _ _, fun d hd d' hd' => ?_⟩
    exact List.mem_singleton.1 hd' ▸ hge d hd
  · rcases List.mem_append.1 hc' with hc' | hc'
    · exact h.taken c' hc'
    · exact List.mem_singleton.1 hc' ▸ htaken
  · rcases List.mem_append.1 hc' with hc' | hc'
    · exact h.results c' hc'
    · rw [List.mem_singleton.1 hc']
      exact hresult

private theorem setPhase (h : w.Tracked) {phase : CountPhase I} (hphase : w.PhaseTracked phase) :
    Tracked { w with phase } where
  sorted := h.sorted
  positive := h.positive
  cursor := h.cursor
  first := h.first
  chained := h.chained
  ordered := h.ordered
  taken := h.taken
  results := h.results
  phase := by cases phase <;> exact hphase

theorem step {act : DeadLetterAct I} (h : w.Tracked) (hstep : w.step act = some w') : w'.Tracked := by
  have hphase := h.phase
  rcases step_cases hstep with ⟨id, habove, hpos, -, rfl⟩ | ⟨phase, hadvances, rfl⟩ | ⟨c, hcompletes, rfl⟩
  · exact h.add habove hpos
  · refine h.setPhase ?_
    cases hadvances with
    | stop => trivial
    | call cap => trivial
    | get cap => rfl
    | xrevrange hp =>
      rw [hp] at hphase
      exact ⟨hphase, taken_newest w, fun c hc => h.le_newest (h.taken c hc)⟩
    | xrange hp =>
      rw [hp] at hphase
      refine ⟨hphase.1.symm, hphase.2.1, hphase.2.2, ?_⟩
      rw [List.length_take, inRange, List.countP_eq_length_filter, Nat.min_comm]
  · cases hcompletes with
    | align hp =>
      rw [hp] at hphase
      exact h.returns hphase.1 hphase.2.1 hphase.2.2 rfl
    | count hp =>
      rw [hp] at hphase
      exact h.returns hphase.1.symm hphase.2.1 hphase.2.2.1 hphase.2.2.2

/-- A call counts an entry when it is the first, the very first apart, whose newest id reaches it. -/
theorem counts_iff (h : w.Tracked) {k : Nat} {c : DeadLetterCall I} (hc : w.calls[k]? = some c) (e : I) :
    c.Counts e ↔ 0 < k ∧ e ≤ c.newest ∧ ∀ j c', j < k → w.calls[j]? = some c' → c'.newest < e := by
  cases k with
  | zero => simp [DeadLetterCall.Counts, h.first c hc]
  | succ k =>
    have hlen := (List.getElem?_eq_some_iff.1 hc).1
    obtain ⟨d, hd⟩ : ∃ d, w.calls[k]? = some d := ⟨_, List.getElem?_eq_getElem (by omega)⟩
    have hcursor : c.cursor = some d.newest := by rw [h.chained k c hc, hd, Option.map_some]
    constructor
    · rintro ⟨lo, hlo, hlt, hle⟩
      obtain rfl := Option.some.inj (hcursor.symm.trans hlo)
      refine ⟨Nat.succ_pos k, hle, fun j c' hj hc' => ?_⟩
      rcases Nat.lt_succ_iff_lt_or_eq.1 hj with hj | rfl
      · obtain ⟨hj', rfl⟩ := List.getElem?_eq_some_iff.1 hc'
        obtain ⟨hk', rfl⟩ := List.getElem?_eq_some_iff.1 hd
        exact lt_of_le_of_lt (List.pairwise_iff_getElem.1 h.ordered j k hj' hk' hj) hlt
      · exact Option.some.inj (hd.symm.trans hc') ▸ hlt
    · rintro ⟨-, hle, hbefore⟩
      exact ⟨d.newest, hcursor, hbefore k d (Nat.lt_succ_self k) hd, hle⟩

/-- An entry that the first call has not reached and a later one has is counted by one call. -/
theorem existsUnique_counts (h : w.Tracked) {e : I} (hfirst : ∀ c, w.calls[0]? = some c → c.newest < e)
    (hreached : ∃ c ∈ w.calls, e ≤ c.newest) : ∃! k : Nat, ∃ c : DeadLetterCall I, w.calls[k]? = some c ∧
    c.Counts e := by
  classical
  have hex : ∃ k : Nat, ∃ c : DeadLetterCall I, w.calls[k]? = some c ∧ e ≤ c.newest := by
    obtain ⟨c, hc, hle⟩ := hreached
    obtain ⟨k, hk⟩ := List.mem_iff_getElem?.1 hc
    exact ⟨k, c, hk, hle⟩
  obtain ⟨d, hd, hled⟩ := Nat.find_spec hex
  have hbelow : ∀ j c', j < Nat.find hex → w.calls[j]? = some c' → c'.newest < e := by
    intro j c' hj hc'
    by_contra hge
    exact Nat.find_min hex hj ⟨c', hc', not_lt.1 hge⟩
  have hpos : 0 < Nat.find hex := by
    refine Nat.pos_of_ne_zero fun hzero => ?_
    rw [hzero] at hd
    exact absurd hled (not_le.2 (hfirst d hd))
  refine ⟨Nat.find hex, ⟨d, hd, (h.counts_iff hd e).2 ⟨hpos, hled, hbelow⟩⟩, ?_⟩
  rintro k ⟨c, hc, hcounts⟩
  obtain ⟨-, hle, hbefore⟩ := (h.counts_iff hc e).1 hcounts
  refine le_antisymm ?_ (Nat.find_min' hex ⟨c, hc, hle⟩)
  by_contra hlt
  exact absurd hled (not_le.2 (hbefore _ d (not_le.1 hlt) hd))

end Tracked

/-! ### Runs -/

variable {w w' : DeadLetters I} {acts : List (DeadLetterAct I)}

theorem Tracked.exec (h : w.Tracked) (hrun : Exec.exec DeadLetters.step w acts = some w') : w'.Tracked :=
  exec_invariant (C := fun _ _ => True) (fun _ _ _ _ hstep h => h.step hstep) h
    (Along.of_forall fun _ _ _ => trivial) hrun

/-- Calls that have returned stay. -/
private theorem calls_prefix (hrun : Exec.exec step w acts = some w') : w.calls <+: w'.calls := by
  refine exec_invariant (C := fun _ _ => True) (I := fun v => w.calls <+: v.calls)
    (fun v act v' _ hstep hv => ?_) List.prefix_rfl
    (Along.of_forall fun _ _ _ => trivial) hrun
  refine hv.trans ?_
  rcases step_cases hstep with ⟨_, -, -, -, rfl⟩ | ⟨_, -, rfl⟩ | ⟨c, -, rfl⟩
  · exact List.prefix_rfl
  · exact List.prefix_rfl
  · exact List.prefix_append ..

/-- The newest id that the call in progress has read. -/
def CountPhase.reads : CountPhase I → Option I
  | .found _ _ newest | .ranged _ _ newest _ => some newest
  | _ => none

/-- The calls from the `n`-th on have read an id not below the entry. -/
structure Covers (e : I) (n : Nat) (w : DeadLetters I) : Prop where
  mem : e ∈ w.stream
  calls : ∀ (k : Nat) c, n ≤ k → w.calls[k]? = some c → e ≤ c.newest
  phase : ∀ newest, CountPhase.reads w.phase = some newest → e ≤ newest

private theorem Covers.step {e : I} {n : Nat} {act : DeadLetterAct I} (h : Covers e n w) (hw : w.Tracked)
    (hstep : w.step act = some w') : Covers e n w' := by
  rcases step_cases hstep with ⟨id, -, -, -, rfl⟩ | ⟨phase, hadvances, rfl⟩ | ⟨c, hcompletes, rfl⟩
  · exact ⟨List.mem_append_left _ h.mem, h.calls, h.phase⟩
  · refine ⟨h.mem, h.calls, fun newest hnewest => ?_⟩
    cases hadvances with
    | stop => cases hnewest
    | call cap => cases hnewest
    | get cap => cases hnewest
    | xrevrange hp =>
      obtain rfl := Option.some.inj hnewest
      exact hw.le_newest (.inr h.mem)
    | xrange hp =>
      obtain rfl := Option.some.inj hnewest
      exact h.phase _ (by rw [hp]; rfl)
  · have hle : e ≤ c.newest := by
      cases hcompletes with
      | align hp => exact h.phase _ (by rw [hp]; rfl)
      | count hp => exact h.phase _ (by rw [hp]; rfl)
    refine ⟨h.mem, fun k c' hk hc' => ?_, fun newest hnewest => by cases hnewest⟩
    have hget : (w.calls ++ [c])[k]? = some c' := hc'
    rcases Nat.lt_or_ge k w.calls.length with hlt | hge
    · exact h.calls k c' hk ((List.getElem?_append_left hlt).symm.trans hget)
    · rw [List.getElem?_append_right hge] at hget
      exact List.mem_singleton.1 (List.mem_of_getElem? hget) ▸ hle

/-- The calls that begin when the entry is there reach it. -/
private theorem covers_of_idle {e : I} (hw : w.Tracked) (hidle : w.phase = .idle) (he : e ∈ w.stream)
    (hrun : Exec.exec step w acts = some w') : Covers e w.calls.length w' := by
  have hstart : Covers e w.calls.length w := by
    refine ⟨he, fun k c hk hc => ?_, fun newest hnewest => ?_⟩
    · rw [List.getElem?_eq_none hk] at hc
      cases hc
    · rw [hidle] at hnewest
      cases hnewest
  exact (exec_invariant (C := fun _ _ => True) (I := fun v => v.Tracked ∧ Covers e w.calls.length v)
    (fun v act v' _ hstep hv => ⟨hv.1.step hstep, hv.2.step hv.1 hstep⟩) ⟨hw, hstart⟩
    (Along.of_forall fun _ _ _ => trivial) hrun).2

/-- Every entry added after the first call has returned is counted by one later call, the first whose newest
id reaches it, and the next call to begin does so if no earlier one has; entries there before the first call
began are never counted; and a call returns the number of entries in its range, or one more than the cap where
they are more than the cap. -/
theorem dead_letters_counted_once (stream : List I) (hsorted : stream.Pairwise (· < ·))
    (hpositive : ∀ e ∈ stream, ⊥ < e)
    (acts : List (DeadLetterAct I)) (w : DeadLetters I) (hrun : Exec.exec step { stream } acts = some w) :
    (∀ before e after s₀, acts = before ++ .add e :: after →
      Exec.exec step { stream } before = some s₀ → s₀.calls ≠ [] →
      (∀ (k : Nat) (c : DeadLetterCall I), w.calls[k]? = some c →
        (c.Counts e ↔ s₀.calls.length ≤ k ∧ e ≤ c.newest ∧ ∀ j c', j < k → w.calls[j]? = some c' → c'.newest < e)) ∧
      ((∃ c ∈ w.calls, e ≤ c.newest) → ∃! k : Nat, ∃ c : DeadLetterCall I, w.calls[k]? = some c ∧ c.Counts e)) ∧
    (∀ before after s₀, acts = before ++ after → Exec.exec step { stream } before = some s₀ → s₀.phase = .idle →
      s₀.calls.length < w.calls.length → ∃ c, w.calls[s₀.calls.length]? = some c ∧ ∀ e ∈ s₀.stream, e ≤ c.newest) ∧
    (∀ before after s₀, acts = before ++ after → Exec.exec step { stream } before = some s₀ →
      s₀.phase = .idle → s₀.calls = [] → ∀ e ∈ s₀.stream, ∀ c ∈ w.calls, ¬c.Counts e) ∧
    (∀ c ∈ w.calls, c.result = c.cursor.elim 0 fun lo =>
      if w.inRange lo c.newest ≤ c.cap then w.inRange lo c.newest else c.cap + 1) := by
  have hstart : Tracked { stream } := .start hsorted hpositive
  have hw := hstart.exec hrun
  refine ⟨fun before e after s₀ hacts hbefore hcalls => ?_, fun before after s₀ hacts hbefore hidle hlen => ?_,
    fun before after s₀ hacts hbefore hidle hnone e he c hc => ?_, fun c hc => ?_⟩
  · subst hacts
    rw [exec_append, hbefore, Option.bind_some] at hrun
    obtain ⟨s₁, hadd, hafter⟩ := exec_cons.1 hrun
    have hs₀ := hstart.exec hbefore
    simp only [step, Option.ite_none_right_eq_some] at hadd
    obtain ⟨⟨habove, hpos⟩, -⟩ := hadd
    -- the calls before the entry have read lower ids
    have hlower : ∀ (j : Nat) c', j < s₀.calls.length → w.calls[j]? = some c' → c'.newest < e := by
      intro j c' hj hc'
      obtain ⟨rest, hrest⟩ := calls_prefix hrun
      rw [← hrest, List.getElem?_append_left hj] at hc'
      rcases hs₀.taken c' (List.mem_of_getElem? hc') with hbot | hmem
      · exact hbot ▸ hpos
      · exact habove _ hmem
    have hne := List.length_pos_iff.2 hcalls
    refine ⟨fun k c hc => (hw.counts_iff hc e).trans ⟨?_, ?_⟩, hw.existsUnique_counts fun c hc => hlower 0 c hne hc⟩
    · rintro ⟨-, hle, hbelow⟩
      refine ⟨?_, hle, hbelow⟩
      by_contra hlt
      exact absurd hle (not_le.2 (hlower k c (not_le.1 hlt) hc))
    · rintro ⟨hk, hle, hbelow⟩
      exact ⟨by omega, hle, hbelow⟩
  · subst hacts
    rw [exec_append, hbefore, Option.bind_some] at hrun
    refine ⟨_, List.getElem?_eq_getElem hlen, fun e he => ?_⟩
    exact (covers_of_idle (hstart.exec hbefore) hidle he hrun).calls _ _ le_rfl (List.getElem?_eq_getElem hlen)
  · subst hacts
    rw [exec_append, hbefore, Option.bind_some] at hrun
    have hcovers := covers_of_idle (hstart.exec hbefore) hidle he hrun
    obtain ⟨k, hk⟩ := List.mem_iff_getElem?.1 hc
    rw [hw.counts_iff hk]
    rintro ⟨hpos, -, hbelow⟩
    have hlen := (List.getElem?_eq_some_iff.1 hk).1
    obtain ⟨d, hd⟩ : ∃ d, w.calls[0]? = some d := ⟨_, List.getElem?_eq_getElem (by omega)⟩
    refine absurd (hcovers.calls 0 d ?_ hd) (not_le.2 (hbelow 0 d hpos hd))
    rw [hnone]
    exact le_rfl
  · rw [hw.results c hc]
    cases c.cursor with
    | none => rfl
    | some lo =>
      rw [Option.elim_some, Option.elim_some]
      split <;> omega

/-- A letter that arrives between the two reads of the second call is counted by the third. -/
theorem dead_letters_counted_once_between :
    ∃ w, Exec.exec step ({ stream := [toLex (1, 0)] } : DeadLetters (Nat ×ₗ Nat))
        [.call 5, .get, .xrevrange, .set, .add (toLex (2, 0)), .call 5, .get, .xrevrange,
          .add (toLex (2, 1)), .xrange, .set, .call 5, .get, .xrevrange, .xrange, .set] = some w ∧
      w.calls.map DeadLetterCall.result = [0, 1, 1] ∧
      ∃! k : Nat, ∃ c : DeadLetterCall (Nat ×ₗ Nat), w.calls[k]? = some c ∧ c.Counts (toLex (2, 1)) := by
  obtain ⟨s₀, hbefore, hcalls⟩ : ∃ s₀, Exec.exec step ({ stream := [toLex (1, 0)] } : DeadLetters (Nat ×ₗ Nat))
      [.call 5, .get, .xrevrange, .set, .add (toLex (2, 0)), .call 5, .get, .xrevrange] = some s₀ ∧ s₀.calls ≠ [] :=
    ⟨_, rfl, by decide⟩
  obtain ⟨w, hrun, hresults, hreached⟩ : ∃ w, Exec.exec step ({ stream := [toLex (1, 0)] } : DeadLetters (Nat ×ₗ Nat))
      [.call 5, .get, .xrevrange, .set, .add (toLex (2, 0)), .call 5, .get, .xrevrange,
        .add (toLex (2, 1)), .xrange, .set,
        .call 5, .get, .xrevrange, .xrange, .set] = some w ∧ w.calls.map DeadLetterCall.result = [0, 1, 1] ∧
      ∃ c ∈ w.calls, toLex (2, 1) ≤ c.newest :=
    ⟨_, rfl, by decide, by decide⟩
  refine ⟨w, hrun, hresults, ?_⟩
  exact ((dead_letters_counted_once _ (by decide) (by decide) _ w hrun).1 _ _ _ s₀ rfl hbefore hcalls).2 hreached

end DeadLetters

end Ticketing
