import Ticketing.DeadLetterCount

/-!
# The circuit breaker

`report_queue_depth`.  Once a minute it reads the backlog, counts the new dead letters, and sets or deletes
the flag `admission:paused`, which `status` reads for every waiting buyer.  The flag carries an expiry.  Dead
letters arrive and the backlog moves between any two commands of a run, and a run may die before any of them;
there is one run at a time.  The stream of dead letters is not trimmed.

The number of times that dead letters trip the breaker is bounded by a potential: what the reports have cost
so far, and the letters that no run has counted yet (`Breaker.cost`).
-/

namespace Ticketing

open Exec

structure BreakerSettings where
  /-- `ADMISSION_PAUSE_NEW_DEAD_LETTERS` -/
  newDeadLetters : Nat := 100
  /-- `ADMISSION_PAUSE_BACKLOG_THRESHOLD` -/
  backlogThreshold : Nat := 10000

/-- What `collect_queue_stats` returns, as far as `report_queue_depth` decides by it. -/
structure QueueStats where
  backlog : Nat
  newDeadLetters : Nat
deriving DecidableEq

def BreakerSettings.unhealthy (cfg : BreakerSettings) (stats : QueueStats) : Bool :=
  cfg.newDeadLetters < stats.newDeadLetters || cfg.backlogThreshold < stats.backlog

/-- A run of `report_queue_depth` that has set or deleted the flag, and when. -/
structure QueueReport where
  time : Nat
  stats : QueueStats
deriving DecidableEq

/-- Where a run of `report_queue_depth` stands. -/
inductive ReportPhase where
  | idle
  /-- `XLEN` has been read and `count_new_dead_letters` is under way. -/
  | counting (backlog : Nat)
  /-- `set_admission_paused` comes next. -/
  | measured (stats : QueueStats)

structure Breaker (I : Type*) where
  letters : DeadLetters I
  /-- The length of the order stream. -/
  backlog : Nat := 0
  /-- In seconds. -/
  now : Nat := 0
  /-- The expiry of `admission:paused`, where there is one. -/
  pausedUntil : Option Nat := none
  phase : ReportPhase := .idle
  reports : List QueueReport := []

inductive BreakerAct (I : Type*) where
  /-- An intent is given up. -/
  | add (id : I)
  /-- The order stream grows, or is consumed. -/
  | backlog (n : Nat)
  | wait (seconds : Nat)
  /-- A run begins with `XLEN`. -/
  | start
  | get
  | xrevrange
  | xrange
  | set
  | toggle
  /-- The run dies. -/
  | die
deriving DecidableEq

/-- The cap of the call in progress. -/
def CountPhase.cap? {I : Type*} : CountPhase I → Option Nat
  | .idle => none
  | .reading cap | .got cap _ | .found cap _ _ | .ranged cap _ _ _ => some cap

/-- The entries above the id. -/
def DeadLetters.above {I : Type*} [LT I] [DecidableLT I] (l : DeadLetters I) (id : I) :
    Nat := l.stream.countP (id < ·)

namespace Breaker

/-- The default `ttl_seconds` of `set_admission_paused`. -/
def pauseTtl : Nat := 120

variable {I : Type*}

/-- `set_admission_paused` -/
def setAdmissionPaused (w : Breaker I) (paused : Bool) : Breaker I :=
  { w with pausedUntil := if paused then some (w.now + pauseTtl) else none }

/-- `EXISTS admission:paused` -/
def paused (w : Breaker I) : Bool := w.pausedUntil.any (w.now < ·)

/-- The run ends. -/
def report (cfg : BreakerSettings) (w : Breaker I) (stats : QueueStats) : Breaker I :=
  { w.setAdmissionPaused (cfg.unhealthy stats) with
    phase := .idle, reports := w.reports ++ [{ time := w.now, stats }] }

variable [LinearOrder I] [OrderBot I]

/-- A command of `count_new_dead_letters` that is not its last. -/
def read (w : Breaker I) (act : DeadLetterAct I) : Option (Breaker I) :=
  match w.phase with
  | .counting _ => (w.letters.step act).map fun letters => { w with letters }
  | _ => none

def step (cfg : BreakerSettings) (w : Breaker I) : BreakerAct I → Option (Breaker I)
  | .add id => (w.letters.step (.add id)).map fun letters => { w with letters }
  | .backlog n => some { w with backlog := n }
  | .wait seconds => some { w with now := w.now + seconds }
  | .start =>
    match w.phase with
    | .idle =>
        (w.letters.step (.call cfg.newDeadLetters)).map fun letters =>
        { w with letters, phase := .counting w.backlog }
    | _ => none
  | .get => w.read .get
  | .xrevrange => w.read .xrevrange
  | .xrange => w.read .xrange
  | .set =>
    match w.phase with
    | .counting backlog =>
      (w.letters.step .set).map fun letters =>
        let newDeadLetters := letters.calls.getLast?.elim 0 DeadLetterCall.result
        { w with letters, phase := .measured { backlog, newDeadLetters } }
    | _ => none
  | .toggle =>
    match w.phase with
    | .measured stats => some (w.report cfg stats)
    | _ => none
  | .die => some { w with letters := { w.letters with phase := .idle }, phase := .idle }

/-- What a step can do. -/
inductive Move (cfg : BreakerSettings) (w : Breaker I) : BreakerAct I → Breaker I → Prop
  | add {id : I} {letters : DeadLetters I} (h : w.letters.step (.add id) = some letters) :
      Move cfg w (.add id) { w with letters }
  | elapse (act : BreakerAct I) (backlog seconds : Nat) : Move cfg w act { w with backlog, now := w.now + seconds }
  | start (hp : w.phase = .idle) (hi : w.letters.phase = .idle) :
      Move cfg w .start
        { w with letters := { w.letters with phase := .reading cfg.newDeadLetters }, phase := .counting w.backlog }
  | read {backlog : Nat} {phase : CountPhase I} (act : BreakerAct I) (a : DeadLetterAct I)
      (hp : w.phase = .counting backlog)
      (h : w.letters.step a = some { w.letters with phase }) (hadvances : w.letters.Advances phase)
      (hcap : phase.cap? = w.letters.phase.cap?) : Move cfg w act { w with letters := { w.letters with phase } }
  | count {backlog : Nat} {c : DeadLetterCall I} (hp : w.phase = .counting backlog)
      (h : w.letters.step .set = some (w.letters.returns c))
      (hcompletes : w.letters.Completes c) (hcap : w.letters.phase.cap? = some c.cap) :
      Move cfg w .set
        { w with letters := w.letters.returns c, phase := .measured { backlog, newDeadLetters := c.result } }
  | toggle {stats : QueueStats} (hp : w.phase = .measured stats) : Move cfg w .toggle (w.report cfg stats)
  | die : Move cfg w .die { w with letters := { w.letters with phase := .idle }, phase := .idle }

variable {cfg : BreakerSettings} {w w' : Breaker I} {act : BreakerAct I} {acts : List (BreakerAct I)}

private theorem read_cases {a : DeadLetterAct I} (hread : w.read a = some w') :
    ∃ backlog letters, w.phase = .counting backlog ∧ w.letters.step a = some letters ∧ w' = { w with letters } := by
  rw [read] at hread
  split at hread
  · rename_i backlog hp
    obtain ⟨letters, hletters, hw'⟩ := Option.map_eq_some_iff.1 hread
    exact ⟨backlog, letters, hp, hletters, hw'.symm⟩
  · cases hread

/-- `SET` returns from `count_new_dead_letters`. -/
private theorem set_cases {l l' : DeadLetters I} (hset : l.step .set = some l') :
    ∃ c, l.Completes c ∧ l.phase.cap? = some c.cap ∧ l' = l.returns c := by
  simp only [DeadLetters.step] at hset
  split at hset
  · rename_i hfound
    exact ⟨_, .align hfound, by rw [hfound]; rfl, (Option.some.inj hset).symm⟩
  · rename_i hranged
    exact ⟨_, .count hranged, by rw [hranged]; rfl, (Option.some.inj hset).symm⟩
  · cases hset

theorem step_move (hstep : w.step cfg act = some w') : Move cfg w act w' := by
  cases act with
  | add id =>
    obtain ⟨letters, hletters, rfl⟩ := Option.map_eq_some_iff.1 hstep
    exact .add hletters
  | backlog n =>
    obtain rfl := Option.some.inj hstep
    exact .elapse _ n 0
  | wait seconds =>
    obtain rfl := Option.some.inj hstep
    exact .elapse _ w.backlog seconds
  | start =>
    simp only [step] at hstep
    split at hstep
    · rename_i hp
      obtain ⟨letters, hletters, rfl⟩ := Option.map_eq_some_iff.1 hstep
      simp only [DeadLetters.step] at hletters
      split at hletters
      · rename_i hi
        obtain rfl := Option.some.inj hletters
        exact .start hp hi
      · cases hletters
    · cases hstep
  | get =>
    obtain ⟨backlog, letters, hp, hletters, rfl⟩ := read_cases hstep
    have h := hletters
    simp only [DeadLetters.step] at hletters
    split at hletters
    · rename_i hreading
      obtain rfl := Option.some.inj hletters
      exact .read _ _ hp h (.get _) (by rw [hreading]; rfl)
    · cases hletters
  | xrevrange =>
    obtain ⟨backlog, letters, hp, hletters, rfl⟩ := read_cases hstep
    have h := hletters
    simp only [DeadLetters.step] at hletters
    split at hletters
    · rename_i hgot
      obtain rfl := Option.some.inj hletters
      exact .read _ _ hp h (.xrevrange hgot) (by rw [hgot]; rfl)
    · cases hletters
  | xrange =>
    obtain ⟨backlog, letters, hp, hletters, rfl⟩ := read_cases hstep
    have h := hletters
    simp only [DeadLetters.step] at hletters
    split at hletters
    · rename_i hfound
      obtain rfl := Option.some.inj hletters
      exact .read _ _ hp h (.xrange hfound) (by rw [hfound]; rfl)
    · cases hletters
  | set =>
    simp only [step] at hstep
    split at hstep
    · rename_i backlog hp
      obtain ⟨letters, hletters, rfl⟩ := Option.map_eq_some_iff.1 hstep
      obtain ⟨c, hcompletes, hcap, rfl⟩ := set_cases hletters
      have hlast : (w.letters.returns c).calls.getLast?.elim 0 DeadLetterCall.result = c.result := by
        rw [DeadLetters.returns, List.getLast?_concat, Option.elim_some]
      rw [hlast]
      exact .count hp hletters hcompletes hcap
    · cases hstep
  | toggle =>
    simp only [step] at hstep
    split at hstep
    · rename_i hp
      obtain rfl := Option.some.inj hstep
      exact .toggle hp
    · cases hstep
  | die =>
    obtain rfl := Option.some.inj hstep
    exact .die

/-! ### The flag says what the last report said -/

/-- What every step keeps. -/
structure Kept (cfg : BreakerSettings) (w : Breaker I) : Prop where
  tracked : w.letters.Tracked
  idle : (∀ backlog, w.phase ≠ .counting backlog) → w.letters.phase = .idle
  cap : ∀ n, w.letters.phase.cap? = some n → n = cfg.newDeadLetters
  flag : w.pausedUntil = w.reports.getLast?.bind fun r => if cfg.unhealthy r.stats
    then some (r.time + pauseTtl) else none

private theorem Tracked.stopped {l : DeadLetters I} (h : l.Tracked) :
    DeadLetters.Tracked { l with phase := .idle } := by
  by_cases hi : l.phase = .idle
  · rw [← hi]
    exact h
  · have hstop : l.step .stop = some { l with phase := .idle } := by simp only [DeadLetters.step]
    exact h.step hstop

namespace Kept

theorem start {stream : List I} (hsorted : stream.Pairwise (· < ·)) (hpositive : ∀ e ∈ stream, ⊥ < e) :
    Kept cfg { letters := { stream } } where
  tracked := .start hsorted hpositive
  idle _ := rfl
  cap n h := by cases h
  flag := rfl

theorem move (h : Kept cfg w) (hmove : Move cfg w act w') : Kept cfg w' := by
  have htracked := h.tracked
  cases hmove with
  | add hadd =>
    have hphase : ∀ {id : I} {letters : DeadLetters I}, w.letters.step (.add id) = some letters →
        letters.phase = w.letters.phase := by
      intro id letters hadd
      simp only [DeadLetters.step, Option.ite_none_right_eq_some] at hadd
      rw [← Option.some.inj hadd.2]
    exact ⟨htracked.step hadd, fun hne => (hphase hadd).trans (h.idle hne), fun n hn =>
      h.cap n (hphase hadd ▸ hn), h.flag⟩
  | elapse act backlog seconds => exact ⟨htracked, h.idle, h.cap, h.flag⟩
  | start hp hi =>
    have hcall : w.letters.step (.call cfg.newDeadLetters) = some
        { w.letters with phase := .reading cfg.newDeadLetters } := by
      simp only [DeadLetters.step, hi]
    exact ⟨htracked.step hcall, fun hne => absurd rfl (hne _), fun n hn => (Option.some.inj hn).symm, h.flag⟩
  | read act a hp hstep hadvances hcap =>
    exact ⟨htracked.step hstep, fun hne => absurd hp (hne _), fun n hn => h.cap n (hcap ▸ hn), h.flag⟩
  | count hp hset hcompletes hcap => exact ⟨htracked.step hset, fun _ => rfl, fun n hn => (by cases hn), h.flag⟩
  | toggle hp =>
    refine ⟨htracked, fun _ => h.idle fun backlog => by simp [hp], h.cap, ?_⟩
    rw [report, List.getLast?_concat, Option.bind_some, setAdmissionPaused]
  | die => exact ⟨Tracked.stopped htracked, fun _ => rfl, fun n hn => (by cases hn), h.flag⟩

theorem exec (h : Kept cfg w) (hrun : Exec.exec (step cfg) w acts = some w') : Kept cfg w' :=
  exec_invariant (C := fun _ _ => True) (fun _ _ _ _ hstep h => h.move (step_move hstep)) h
    (Along.of_forall fun _ _ _ => trivial) hrun

/-- Admission is paused as long as the last report was unhealthy and has not expired. -/
theorem paused_iff (h : Kept cfg w) :
    w.paused = true ↔ ∃ r, w.reports.getLast? = some r ∧ cfg.unhealthy r.stats = true ∧
    w.now < r.time + pauseTtl := by
  rw [paused, h.flag]
  cases w.reports.getLast? with
  | none => simp
  | some r => by_cases hu : cfg.unhealthy r.stats = true <;> simp [hu]

end Kept

/-- Reports are added, and letters arrive. -/
theorem grows (hrun : Exec.exec (step cfg) w acts = some w') :
    w.reports <+: w'.reports ∧ w.letters.stream <+: w'.letters.stream := by
  refine exec_invariant (C := fun _ _ => True)
    (I := fun v => w.reports <+: v.reports ∧ w.letters.stream <+: v.letters.stream)
    (fun v act v' _ hstep hv => ?_) ⟨List.prefix_rfl, List.prefix_rfl⟩ (Along.of_forall fun _ _ _ => trivial) hrun
  cases step_move hstep with
  | add hadd =>
    simp only [DeadLetters.step, Option.ite_none_right_eq_some] at hadd
    rw [← Option.some.inj hadd.2]
    exact ⟨hv.1, hv.2.trans (List.prefix_append _ _)⟩
  | elapse act backlog seconds => exact hv
  | start hp hi => exact hv
  | read act a hp hstep hadvances hcap => exact hv
  | count hp hset hcompletes hcap => exact hv
  | toggle hp => exact ⟨hv.1.trans (List.prefix_append _ _), hv.2⟩
  | die => exact hv

/-! ### The breaker closes again -/

/-- The newest id that the call in progress has read. -/
def read? : CountPhase I → Option I
  | .found _ _ newest | .ranged _ _ newest _ => some newest
  | _ => none

/-- No letter has arrived since `last`, and `n` reports had been made then. -/
structure Calm (last : I) (n : Nat) (w : Breaker I) : Prop where
  newest : w.letters.newest = last
  read : ∀ id, read? w.letters.phase = some id → id = last
  cursor : w.letters.cursor = some last ∨ w.reports.length = n ∧ ∀ stats, w.phase ≠ .measured stats
  measured : ∀ stats, w.phase = .measured stats → stats.newDeadLetters = 0 ∨ w.reports.length = n
  calm : ∀ r ∈ w.reports.drop (n + 1), r.stats.newDeadLetters = 0

private theorem pending_eq_zero {l : DeadLetters I} (h : l.Tracked) {c : DeadLetterCall I}
    (hcompletes : l.Completes c) (hcursor : l.cursor = some c.newest) : c.result = 0 := by
  have hphase := h.phase
  cases hcompletes with
  | align hp => rfl
  | count hp =>
    rw [hp] at hphase
    obtain ⟨hc, -, -, hlen⟩ := hphase
    have heq := Option.some.inj (hcursor.symm.trans hc)
    show _ = 0
    rw [hlen, ← heq, DeadLetters.inRange, List.countP_eq_zero.2 fun e _ => by simp, Nat.zero_min]

theorem Calm.move {last : I} {n : Nat} (h : Calm last n w) (hkept : Kept cfg w) (hquiet : ∀ id, act ≠ .add id)
    (hmove : Move cfg w act w') : Calm last n w' := by
  cases hmove with
  | add hadd => exact absurd rfl (hquiet _)
  | elapse act backlog seconds => exact ⟨h.newest, h.read, h.cursor, h.measured, h.calm⟩
  | start hp hi =>
    refine ⟨h.newest, fun id hid => (by cases hid), ?_, fun stats hs => (by cases hs), h.calm⟩
    exact h.cursor.imp_right fun hn => ⟨hn.1, fun stats => by simp⟩
  | read act a hp hstep hadvances hcap =>
    refine ⟨h.newest, fun id hid => ?_, h.cursor, h.measured, h.calm⟩
    cases hadvances with
    | stop => cases hid
    | call cap => cases hid
    | get cap => cases hid
    | xrevrange hgot =>
      obtain rfl := Option.some.inj hid
      exact h.newest
    | xrange hfound =>
      obtain rfl := Option.some.inj hid
      exact h.read _ (by rw [hfound]; rfl)
  | count hp hset hcompletes hcap =>
    rename_i backlog c
    have hnewest : c.newest = last := by
      cases hcompletes with
      | align hfound => exact h.read _ (by rw [hfound]; rfl)
      | count hranged => exact h.read _ (by rw [hranged]; rfl)
    refine ⟨h.newest, fun id hid => (by cases hid), .inl (congrArg some hnewest), fun stats hs => ?_, h.calm⟩
    obtain rfl := ReportPhase.measured.inj hs
    rcases h.cursor with hcursor | hfirst
    · exact .inl (pending_eq_zero hkept.tracked hcompletes (hnewest ▸ hcursor))
    · exact .inr hfirst.1
  | toggle hp =>
    refine ⟨h.newest, h.read, .inl ?_, fun stats hs => (by cases hs), fun r hr => ?_⟩
    · exact h.cursor.resolve_right fun hn => hn.2 _ hp
    · rcases Nat.lt_or_ge n w.reports.length with hlt | hge
      · rw [report, List.drop_append_of_le_length (by omega)] at hr
        rcases List.mem_append.1 hr with hr | hr
        · exact h.calm r hr
        · rw [List.mem_singleton.1 hr]
          exact (h.measured _ hp).resolve_right (by omega)
      · rw [report, List.drop_eq_nil_of_le (by simp; omega)] at hr
        cases hr
  | die =>
    refine ⟨h.newest, fun id hid => (by cases hid), ?_, fun stats hs => (by cases hs), h.calm⟩
    exact h.cursor.imp_right fun hn => ⟨hn.1, fun stats => by simp⟩

theorem Calm.exec {last : I} {n : Nat} (h : Calm last n w) (hkept : Kept cfg w) (hquiet : ∀ id, .add id ∉ acts)
    (hrun : Exec.exec (step cfg) w acts = some w') : Calm last n w' := by
  refine (exec_invariant (C := fun _ act => ∀ id, act ≠ .add id) (I := fun v => Kept cfg v ∧ Calm last n v)
    (fun v act v' hact hstep hv => ?_) ⟨hkept, h⟩
    (Along.of_forall fun act hact _ id hid => by rw [hid] at hact; exact hquiet id hact) hrun).2
  exact ⟨hv.1.move (step_move hstep), hv.2.move hv.1 hact (step_move hstep)⟩

/-! ### What dead letters can cost -/

/-- The reports that dead letters alone make unhealthy. -/
def trips (cfg : BreakerSettings) (reports : List QueueReport) : Nat :=
  reports.countP fun r => cfg.newDeadLetters < r.stats.newDeadLetters

/-- The run in progress is about to make such a report. -/
def armed (cfg : BreakerSettings) : ReportPhase → Nat
  | .measured stats => if cfg.newDeadLetters < stats.newDeadLetters then 1 else 0
  | _ => 0

/-- The letters that a call has yet to count; the very first call counts none, and begins with those above the
id it has read. -/
def uncounted (l : DeadLetters I) : Nat :=
  match l.phase with
  | .found _ none newest => l.above newest
  | _ => l.cursor.elim 0 l.above

/-- What the reports have cost, and the letters that none has counted. -/
def cost (cfg : BreakerSettings) (w : Breaker I) : Nat :=
  (cfg.newDeadLetters + 1) * (trips cfg w.reports + armed cfg w.phase) + uncounted w.letters

private theorem above_newest {l : DeadLetters I} (h : l.Tracked) : l.above l.newest = 0 := by
  refine List.countP_eq_zero.2 fun e he => ?_
  have hle := h.le_newest (.inr he)
  simpa using hle

omit [OrderBot I] in
private theorem inRange_add_above (l : DeadLetters I) {lo hi : I} (hle : lo ≤ hi) :
    l.inRange lo hi + l.above hi = l.above lo := by
  rw [DeadLetters.inRange, DeadLetters.above, DeadLetters.above]
  induction l.stream with
  | nil => rfl
  | cons e rest ih =>
    simp only [List.countP_cons, decide_eq_true_eq]
    rcases lt_or_ge hi e with hlt | hge
    · have hlo := lt_of_le_of_lt hle hlt
      simp only [hlt, hlo, not_le.2 hlt, and_false, if_true, if_false]
      omega
    · simp only [hge, not_lt.2 hge, and_true, if_false]
      omega

/-- The letters in progress of being counted are those above the cursor. -/
private theorem uncounted_le {l : DeadLetters I} (h : l.Tracked) : l.cursor.elim 0 l.above ≤ uncounted l := by
  have hphase := h.phase
  rw [uncounted]
  split
  · rename_i hp
    rw [hp] at hphase
    rw [← hphase.1]
    exact Nat.zero_le _
  · exact le_rfl

private theorem uncounted_advances {l : DeadLetters I} (h : l.Tracked) {phase : CountPhase I}
    (hadvances : l.Advances phase) :
    uncounted { l with phase } ≤ uncounted l := by
  refine le_trans ?_ (uncounted_le h)
  cases hadvances with
  | stop => exact le_rfl
  | call cap => exact le_rfl
  | get cap => exact le_rfl
  | xrevrange hgot =>
    rename_i cap cursor
    cases cursor with
    | none =>
      have hzero : uncounted { l with phase := .found cap none l.newest } = 0 := above_newest h
      omega
    | some id => exact le_rfl
  | xrange hfound => exact le_rfl

private theorem uncounted_returns {l : DeadLetters I} (h : l.Tracked) {c : DeadLetterCall I}
    (hcompletes : l.Completes c) :
    c.result + uncounted (l.returns c) ≤ uncounted l := by
  have hphase := h.phase
  have hcursor := h.cursor
  cases hcompletes with
  | align hp =>
    rename_i cap newest
    have hsame : uncounted l = l.above newest := by rw [uncounted, hp]
    rw [hsame, Nat.zero_add]
    exact le_rfl
  | count hp =>
    rename_i cap cursor newest entries
    rw [hp] at hphase
    obtain ⟨hc, -, hge, hlen⟩ := hphase
    have hle : cursor ≤ newest := by
      rw [hc] at hcursor
      obtain ⟨d, hd, hdn⟩ := Option.map_eq_some_iff.1 hcursor.symm
      exact hdn ▸ hge d (List.mem_of_getLast? hd)
    have hsame : uncounted l = l.above cursor := by rw [uncounted, hp, hc, Option.elim_some]
    have hsplit := inRange_add_above l hle
    show entries.length + l.above newest ≤ _
    omega

private theorem uncounted_add {l l' : DeadLetters I} {id : I} (hadd : l.step (.add id) = some l') :
    uncounted l' ≤ uncounted l + 1 ∧ l'.stream.length = l.stream.length + 1 := by
  simp only [DeadLetters.step, Option.ite_none_right_eq_some] at hadd
  obtain rfl := Option.some.inj hadd.2
  have habove : ∀ lo : I, DeadLetters.above { l with stream := l.stream ++ [id] } lo ≤ l.above lo + 1 := by
    intro lo
    rw [DeadLetters.above, DeadLetters.above, List.countP_append]
    have hone := List.countP_le_length (p := fun x => decide (lo < x)) (l := [id])
    simp only [List.length_singleton] at hone
    omega
  refine ⟨?_, List.length_append⟩
  rw [uncounted, uncounted]
  show (match l.phase with | .found _ none newest => _ | _ => _) ≤ _
  split
  · exact habove _
  · show l.cursor.elim 0 _ ≤ l.cursor.elim 0 _ + 1
    cases l.cursor with
    | none => exact Nat.zero_le _
    | some lo => exact habove lo

theorem cost_move (hkept : Kept cfg w) (hmove : Move cfg w act w') :
    cost cfg w' + w.letters.stream.length ≤ cost cfg w + w'.letters.stream.length := by
  have htracked := hkept.tracked
  cases hmove with
  | add hadd =>
    obtain ⟨huncounted, hlen⟩ := uncounted_add hadd
    simp only [cost]
    omega
  | elapse act backlog seconds => exact le_rfl
  | start hp hi =>
    have hle := uncounted_advances htracked (.call cfg.newDeadLetters)
    simp only [cost, hp, armed]
    omega
  | read act a hp hstep hadvances hcap =>
    have hle := uncounted_advances htracked hadvances
    simp only [cost]
    omega
  | count hp hset hcompletes hcap =>
    rename_i backlog c
    have hle := uncounted_returns htracked hcompletes
    have hlen : (w.letters.returns c).stream = w.letters.stream := rfl
    simp only [cost, hp, armed, Nat.add_zero, Nat.mul_add, hlen]
    split
    · omega
    · omega
  | toggle hp =>
    simp only [cost, report, hp, armed, trips, List.countP_append, List.countP_singleton,
      decide_eq_true_eq, Nat.add_zero]
    exact le_rfl
  | die =>
    have hle := uncounted_advances htracked .stop
    have harmed := Nat.zero_le (armed cfg w.phase)
    have hmul : (cfg.newDeadLetters + 1) * trips cfg w.reports ≤ (cfg.newDeadLetters + 1) *
        (trips cfg w.reports + armed cfg w.phase) :=
      Nat.mul_le_mul_left _ (by omega)
    have hidle : armed cfg .idle = 0 := rfl
    simp only [cost, hidle, Nat.add_zero]
    omega

theorem cost_exec (hkept : Kept cfg w) (hrun : Exec.exec (step cfg) w acts = some w') :
    cost cfg w' + w.letters.stream.length ≤ cost cfg w + w'.letters.stream.length := by
  refine (exec_invariant (C := fun _ _ => True)
    (I := fun v => Kept cfg v ∧ cost cfg v + w.letters.stream.length ≤ cost cfg w + v.letters.stream.length)
    (fun v act v' _ hstep hv => ?_) ⟨hkept, le_rfl⟩ (Along.of_forall fun _ _ _ => trivial) hrun).2
  have hmove := step_move hstep
  have hcost := cost_move hv.1 hmove
  exact ⟨hv.1.move hmove, by omega⟩

/-! ### A burst is noticed -/

/-- More letters than the cap were above the cursor when no run was in progress and `n` reports had been made. -/
structure Loaded (cfg : BreakerSettings) (stream : List I) (lo : I) (n : Nat) (w : Breaker I) : Prop where
  kept : stream <+: w.letters.stream
  made : n ≤ w.reports.length
  cursor : w.reports.length = n → (∀ stats, w.phase ≠ .measured stats) → w.letters.cursor = some lo
  read : ∀ id, read? w.letters.phase = some id → ∀ x ∈ stream, x ≤ id
  measured : ∀ stats, w.phase = .measured stats → w.reports.length = n → cfg.newDeadLetters < stats.newDeadLetters
  noticed : ∀ r, w.reports[n]? = some r → cfg.newDeadLetters < r.stats.newDeadLetters

omit [OrderBot I] in
/-- The letters of the burst are in the range of a call that has read an id above them. -/
private theorem le_inRange {stream : List I} {l : DeadLetters I} {lo hi : I} (hinit : stream <+: l.stream)
    (hle : ∀ x ∈ stream, x ≤ hi) :
    stream.countP (lo < ·) ≤ l.inRange lo hi := by
  refine le_trans (le_of_eq ?_) (hinit.sublist.countP_le)
  refine List.countP_congr fun x hx => ?_
  simp [hle x hx]

theorem Loaded.move {stream : List I} {lo : I} {n : Nat} (h : Loaded cfg stream lo n w) (hkept : Kept cfg w)
    (hload : cfg.newDeadLetters < stream.countP (lo < ·)) (halive : act ≠ .die) (hmove : Move cfg w act w') :
    Loaded cfg stream lo n w' := by
  cases hmove with
  | add hadd =>
    simp only [DeadLetters.step, Option.ite_none_right_eq_some] at hadd
    rw [← Option.some.inj hadd.2]
    exact ⟨h.kept.trans (List.prefix_append _ _), h.made, h.cursor, h.read, h.measured, h.noticed⟩
  | elapse act backlog seconds => exact ⟨h.kept, h.made, h.cursor, h.read, h.measured, h.noticed⟩
  | start hp hi =>
    refine ⟨h.kept, h.made, fun hn _ => ?_, fun id hid => (by cases hid), fun stats hs => (by cases hs), h.noticed⟩
    exact h.cursor hn fun stats => by simp [hp]
  | read act a hp hstep hadvances hcap =>
    refine ⟨h.kept, h.made, h.cursor, fun id hid x hx => ?_, h.measured, h.noticed⟩
    cases hadvances with
    | stop => cases hid
    | call cap => cases hid
    | get cap => cases hid
    | xrevrange hgot =>
      obtain rfl := Option.some.inj hid
      exact hkept.tracked.le_newest (.inr (h.kept.subset hx))
    | xrange hfound =>
      obtain rfl := Option.some.inj hid
      exact h.read _ (by rw [hfound]; rfl) x hx
  | count hp hset hcompletes hcap =>
    refine ⟨h.kept, h.made, fun _ hne => absurd rfl (hne _), fun id hid => (by cases hid),
      fun stats hs hn => ?_, h.noticed⟩
    obtain rfl := ReportPhase.measured.inj hs
    have hcursor := h.cursor hn fun stats => by simp [hp]
    have hphase := hkept.tracked.phase
    cases hcompletes with
    | align hfound =>
      rw [hfound] at hphase
      have hnone : none = w.letters.cursor := hphase.1
      rw [hcursor] at hnone
      cases hnone
    | count hranged =>
      rename_i cap cursor newest entries
      have hread := h.read newest (by rw [hranged]; rfl)
      have hsame := hkept.cap cap hcap
      rw [hranged] at hphase
      obtain ⟨hc, -, -, hlen⟩ := hphase
      obtain rfl := Option.some.inj (hcursor.symm.trans hc)
      have hburst : stream.countP (lo < ·) ≤ w.letters.inRange lo newest := le_inRange h.kept hread
      show cfg.newDeadLetters < entries.length
      omega
  | toggle hp =>
    rename_i stats
    have hmade := h.made
    refine ⟨h.kept, ?_, fun hn => ?_, h.read, fun stats hs => (by cases hs), fun r hr => ?_⟩
    · rw [report, List.length_append]
      omega
    · simp only [report, List.length_append, List.length_singleton] at hn
      omega
    · rcases Nat.lt_or_eq_of_le hmade with hlt | heq
      · rw [report, List.getElem?_append_left hlt] at hr
        exact h.noticed r hr
      · rw [report, heq, List.getElem?_concat_length, Option.some.injEq] at hr
        rw [← hr]
        exact h.measured _ hp heq.symm
  | die => exact absurd rfl halive

theorem Loaded.exec {stream : List I} {lo : I} {n : Nat} (h : Loaded cfg stream lo n w) (hkept : Kept cfg w)
    (hload : cfg.newDeadLetters < stream.countP (lo < ·)) (halive : .die ∉ acts)
    (hrun : Exec.exec (step cfg) w acts = some w') :
    Loaded cfg stream lo n w' := by
  refine (exec_invariant (C := fun _ act => act ≠ .die) (I := fun v => Kept cfg v ∧ Loaded cfg stream lo n v)
    (fun v act v' hact hstep hv => ?_) ⟨hkept, h⟩
    (Along.of_forall fun act hact _ hdie => by rw [hdie] at hact; exact halive hact) hrun).2
  exact ⟨hv.1.move (step_move hstep), hv.2.move hv.1 hload hact (step_move hstep)⟩

/-! ### The breaker -/

/-- In every run, at every moment, admission is paused exactly when the last report found the pipeline
unhealthy less than the expiry ago.  After the last dead letter has arrived, the runs that begin then make at
most one report that counts any: from the second report on, what keeps admission paused is the backlog. -/
theorem paused_exactly (cfg : BreakerSettings) (stream : List I) (hsorted : stream.Pairwise (· < ·))
    (hpositive : ∀ e ∈ stream, ⊥ < e) (acts : List (BreakerAct I)) (w : Breaker I)
    (hrun : Exec.exec (step cfg) { letters := { stream } } acts = some w) :
    (w.paused = true ↔ ∃ r, w.reports.getLast? = some r ∧ cfg.unhealthy r.stats = true ∧ w.now < r.time + pauseTtl) ∧
    ∀ before after s₀, acts = before ++ after →
      Exec.exec (step cfg) { letters := { stream } } before = some s₀ → s₀.phase = .idle → (∀ id, .add id ∉ after) →
      (∀ r ∈ w.reports.drop (s₀.reports.length + 1), r.stats.newDeadLetters = 0) ∧
      (s₀.reports.length + 2 ≤ w.reports.length → w.paused = true →
        ∃ r, w.reports.getLast? = some r ∧ cfg.backlogThreshold < r.stats.backlog) := by
  have hstart : Kept cfg { letters := { stream } } := .start hsorted hpositive
  have hpaused := (hstart.exec hrun).paused_iff
  refine ⟨hpaused, fun before after s₀ hacts hbefore hidle hquiet => ?_⟩
  subst hacts
  rw [exec_append, hbefore, Option.bind_some] at hrun
  have hs₀ := hstart.exec hbefore
  have hcalm₀ : Calm s₀.letters.newest s₀.reports.length s₀ := by
    refine ⟨rfl, fun id hid => ?_, .inr ⟨rfl, fun stats => by simp [hidle]⟩, fun stats hs => .inr rfl, fun r hr => ?_⟩
    · rw [hs₀.idle fun backlog => by simp [hidle]] at hid
      cases hid
    · rw [List.drop_eq_nil_of_le (by omega)] at hr
      cases hr
  have hcalm := (hcalm₀.exec hs₀ hquiet hrun).calm
  refine ⟨hcalm, fun hlen hp => ?_⟩
  obtain ⟨r, hlast, hunhealthy, -⟩ := hpaused.1 hp
  have hmem : r ∈ w.reports.drop (s₀.reports.length + 1) := by
    refine List.mem_of_getLast? (?_ : (w.reports.drop _).getLast? = some r)
    rw [List.getLast?_drop, if_neg (by omega), hlast]
  have hzero := hcalm r hmem
  simp only [BreakerSettings.unhealthy, hzero, Bool.or_eq_true, decide_eq_true_eq] at hunhealthy
  exact ⟨r, hlast, by omega⟩

/-- From any moment between two runs on: each report that dead letters trip has used up more of them than the
cap, of those that no run had counted then or that have arrived since; and a burst of more than the cap above
the cursor makes the next report unhealthy, unless a run dies. -/
theorem trips_bounded (cfg : BreakerSettings) (stream : List I) (hsorted : stream.Pairwise (· < ·))
    (hpositive : ∀ e ∈ stream, ⊥ < e) (before after : List (BreakerAct I)) (s₀ w : Breaker I)
    (hbefore : Exec.exec (step cfg) { letters := { stream } } before = some s₀)
    (hidle : s₀.phase = .idle) (hafter : Exec.exec (step cfg) s₀ after = some w) :
    (cfg.newDeadLetters + 1) * trips cfg (w.reports.drop s₀.reports.length) + s₀.letters.stream.length ≤
      s₀.letters.cursor.elim 0 s₀.letters.above + w.letters.stream.length ∧
    ∀ lo, s₀.letters.cursor = some lo → cfg.newDeadLetters < s₀.letters.above lo → .die ∉ after →
      ∀ r, w.reports[s₀.reports.length]? = some r → cfg.unhealthy r.stats = true := by
  have hs₀ : Kept cfg s₀ := (Kept.start hsorted hpositive).exec hbefore
  have hletters := hs₀.idle fun backlog => by simp [hidle]
  obtain ⟨new, hnew⟩ := (grows hafter).1
  refine ⟨?_, fun lo hlo hload halive r hr => ?_⟩
  · have hcost := cost_exec hs₀ hafter
    have huncounted : uncounted s₀.letters = s₀.letters.cursor.elim 0 s₀.letters.above := by rw [uncounted, hletters]
    have htrips : trips cfg w.reports = trips cfg s₀.reports + trips cfg new := by
      rw [← hnew, trips, List.countP_append, trips, trips]
    have hdrop : w.reports.drop s₀.reports.length = new := by rw [← hnew, List.drop_left]
    simp only [cost, hidle, armed, huncounted, htrips, Nat.mul_add, Nat.add_zero] at hcost
    rw [hdrop]
    omega
  · have hloaded : Loaded cfg s₀.letters.stream lo s₀.reports.length s₀ := by
      refine ⟨List.prefix_rfl, le_rfl, fun _ _ => hlo, fun id hid => ?_, fun stats hs => ?_, fun r hr => ?_⟩
      · rw [hletters] at hid
        cases hid
      · rw [hidle] at hs
        cases hs
      · rw [List.getElem?_eq_none le_rfl] at hr
        cases hr
    have hnoticed := (hloaded.exec hs₀ hload halive hafter).noticed r hr
    simp [BreakerSettings.unhealthy, hnoticed]

private def twoTrips : BreakerSettings where
  newDeadLetters := 1
  backlogThreshold := 5

/-- The commands of a run that finds a cursor. -/
private def minute : List (BreakerAct Nat) := [.start, .get, .xrevrange, .xrange, .set, .toggle]

/-- The first run, a burst of three letters, and the run that notices it. -/
private def incident : List (BreakerAct Nat) := [.start, .get, .xrevrange, .set, .toggle, .add 1, .add 2, .add 3]

/-- A burst, after which it is the backlog that keeps admission paused. -/
theorem paused_exactly_backlog : ∃ w, Exec.exec (step twoTrips) { letters := { stream := [] } }
      (incident ++ minute ++ (.backlog 9 :: .wait 60 :: minute ++ .wait 60 :: minute)) = some w ∧
    w.paused = true ∧ (∃ r, w.reports.getLast? = some r ∧ 5 < r.stats.backlog) := by
  obtain ⟨s₀, hbefore, hidle, hlen⟩ : ∃ s₀, Exec.exec (step twoTrips) { letters := { stream := [] } }
    (incident ++ minute) = some s₀ ∧
      s₀.phase = .idle ∧ s₀.reports.length = 2 := ⟨_, rfl, rfl, rfl⟩
  obtain ⟨w, hrun, hpaused, hreports⟩ : ∃ w, Exec.exec (step twoTrips) { letters := { stream := [] } }
      (incident ++ minute ++ (.backlog 9 :: .wait 60 :: minute ++ .wait 60 :: minute)) = some w ∧ w.paused = true ∧
      w.reports.length = 4 := ⟨_, rfl, rfl, rfl⟩
  have hbreaker := (paused_exactly twoTrips [] List.Pairwise.nil
    (by simp) _ w hrun).2 _ _ s₀ rfl hbefore hidle (by simp [minute])
  exact ⟨w, hrun, hpaused, hbreaker.2 (by omega) hpaused⟩

/-- The burst trips the breaker once. -/
theorem trips_bounded_burst : ∃ s₀ w, Exec.exec (step twoTrips) { letters := { stream := [] } } incident = some s₀ ∧
    Exec.exec (step twoTrips) s₀ (minute ++ minute) = some w ∧
    2 * trips twoTrips (w.reports.drop s₀.reports.length) + 3 ≤ 3 + 3 ∧
    ∃ r, w.reports[1]? = some r ∧ twoTrips.unhealthy r.stats = true := by
  obtain ⟨s₀, w, hbefore, hidle, hafter, hlen, hlen', habove, hmade, r, hr⟩ :
      ∃ s₀ w, Exec.exec (step twoTrips) { letters := { stream := [] } } incident = some s₀ ∧ s₀.phase = .idle ∧
        Exec.exec (step twoTrips) s₀ (minute ++ minute) = some w ∧ s₀.letters.stream.length = 3 ∧
        w.letters.stream.length = 3 ∧
        (s₀.letters.cursor = some 0 ∧ s₀.letters.above 0 = 3) ∧ s₀.reports.length = 1 ∧ ∃ r, w.reports[1]? = some r :=
    ⟨_, _, rfl, rfl, rfl, rfl, rfl, ⟨rfl, rfl⟩, rfl, _, rfl⟩
  have hbreaker := trips_bounded twoTrips [] List.Pairwise.nil (by simp) incident
    (minute ++ minute) s₀ w hbefore hidle hafter
  rw [hlen, hlen', habove.1, Option.elim_some, habove.2] at hbreaker
  refine ⟨s₀, w, hbefore, hafter, hbreaker.1, r, hr, ?_⟩
  exact hbreaker.2 0 rfl (by simp [twoTrips, habove.2]) (by simp [minute]) r (hmade ▸ hr)

end Breaker

end Ticketing
