import Ticketing.Base.Exec
import Ticketing.Base.Text
import Ticketing.RateLimits

/-!
# The lockout of an account

`login_for_access_token` up to its answer.  A request reads the failures counted for the name it was given,
refuses when there are too many, verifies the password, and counts a failure.  Reading and counting are
separate, with the slow hash in between, and a request may die between them.

Requests that have read the counter before the others counted all go on to verify (`guesses_past_the_limit`).
The lockout bounds the guesses when no request gets past its check while the failures counted and those still
to be counted reach the limit (`guesses_bounded`).
-/

namespace Ticketing

open Exec Text Tally

structure LoginSettings where
  /-- `RATE_LIMIT_ENABLED` -/
  rateLimitEnabled : Bool
  /-- `LOGIN_FAILURE_LIMIT` -/
  failureLimit : Nat
  /-- `LOGIN_FAILURE_WINDOW_SECONDS` -/
  failureWindow : Nat
deriving DecidableEq

/-- `_login_failure_key`; `lower` is `str.lower`. -/
def loginFailureKey (lower : String → String) (username : String) : String :=
  "login_fail:" ++ String.ofList ((lower (strip username)).toList.take 64)

/-- The point a request has reached. -/
inductive LoginPhase where
  /-- `enforce_ip_rate_limit` -/
  | arriving
  /-- `peek`: about to read the counter, … -/
  | reading
  /-- … and its time to live. -/
  | timing (failures : Nat)
  | lookingUp
  | verifying
  /-- The password was wrong; about to count the failure. -/
  | failing
  /-- The failure is counted. -/
  | unauthorized
  /-- The password was right; about to clear the counter. -/
  | clearing
  | granted
  /-- `RateLimited` -/
  | limited (retryAfter : Int)
  | died
deriving DecidableEq

namespace LoginPhase

def ended : LoginPhase → Bool
  | unauthorized | granted | limited _ | died => true
  | _ => false

/-- The check of the counter is passed, and the failure not counted. -/
def passed (limit : Nat) : LoginPhase → Bool
  | timing failures => failures < limit
  | lookingUp | verifying | failing => true
  | _ => false

end LoginPhase

/-- A request for a token; `verified` says that the password was hashed. -/
structure LoginRequest where
  username : String
  phase : LoginPhase := .arriving
  verified : Bool := false
deriving DecidableEq

structure LoginWorld (K : Type*) where
  now : K
  counters : String → Option (Counter K) := fun _ => none
  requests : List LoginRequest := []

inductive LoginAct (K : Type*) where
  | arrive (username : String)
  /-- The limit of the address answers. -/
  | enforce (i : Nat) (refused : Option Int)
  | get (i : Nat)
  | ttl (i : Nat)
  | lookUp (i : Nat)
  /-- `verify_password`, or its dummy for a name without account. -/
  | verify (i : Nat) (valid : Bool)
  | hit (i : Nat)
  | clear (i : Nat)
  /-- The request fails or is cancelled. -/
  | die (i : Nat)
  | tick (seconds : K)

section Logins

variable {K : Type*} [DivisionRing K] [LinearOrder K] [FloorRing K]

namespace LoginWorld

def setRequest (w : LoginWorld K) (i : Nat) (r : LoginRequest) (phase : LoginPhase) : LoginWorld K :=
  { w with requests := w.requests.set i { r with phase } }

def step (cfg : LoginSettings) (lower : String → String) (w : LoginWorld K) : LoginAct K → Option (LoginWorld K)
  | .arrive username => some { w with requests := w.requests ++ [{ username }] }
  | .enforce i refused => w.requests[i]?.bind fun r =>
      if r.phase = .arriving then some (w.setRequest i r (refused.elim .reading .limited)) else none
  | .get i => w.requests[i]?.bind fun r =>
      if r.phase = .reading then
        some (w.setRequest i r (.timing (Counter.peek w.now (w.counters (loginFailureKey lower r.username))).1))
      else none
  | .ttl i => w.requests[i]?.bind fun r =>
      match r.phase with
      | .timing failures =>
        let retryAfter := (Counter.peek w.now (w.counters (loginFailureKey lower r.username))).2
        some (w.setRequest i r (
          if cfg.rateLimitEnabled ∧ cfg.failureLimit ≤ failures then
            .limited (if retryAfter = 0 then cfg.failureWindow else retryAfter)
          else .lookingUp))
      | _ => none
  | .lookUp i =>
      w.requests[i]?.bind fun r => if r.phase = .lookingUp then some (w.setRequest i r .verifying) else none
  | .verify i valid => w.requests[i]?.bind fun r =>
      if r.phase = .verifying then
        some (w.setRequest i { r with verified := true } (if valid then .clearing else .failing))
      else none
  | .hit i => w.requests[i]?.bind fun r =>
      if r.phase = .failing then
        let key := loginFailureKey lower r.username
        some { w.setRequest i r .unauthorized with
          counters := Function.update w.counters key (some (Counter.hit w.now cfg.failureWindow (w.counters key))) }
      else none
  | .clear i => w.requests[i]?.bind fun r =>
      if r.phase = .clearing then
        some { w.setRequest i r .granted with
          counters := Function.update w.counters (loginFailureKey lower r.username) none }
      else none
  | .die i => w.requests[i]?.bind fun r => if r.phase.ended then none else some (w.setRequest i r .died)
  | .tick seconds => if 0 ≤ seconds then some { w with now := w.now + seconds } else none

/-- What a step can do. -/
inductive Move (cfg : LoginSettings) (lower : String → String) (w : LoginWorld K) : LoginAct K → LoginWorld K → Prop
  | arrive (username : String) : Move cfg lower w (.arrive username)
      { w with requests := w.requests ++ [{ username }] }
  | enforce {i : Nat} {r : LoginRequest} {refused : Option Int} (hr : w.requests[i]? = some r)
      (hphase : r.phase = .arriving) :
      Move cfg lower w (.enforce i refused) (w.setRequest i r (refused.elim .reading .limited))
  | get {i : Nat} {r : LoginRequest} (hr : w.requests[i]? = some r) (hphase : r.phase = .reading) :
      Move cfg lower w (.get i) (w.setRequest i r
        (.timing (Counter.peek w.now (w.counters (loginFailureKey lower r.username))).1))
  | refuse {i failures : Nat} {r : LoginRequest} (retryAfter : Int) (hr : w.requests[i]? = some r)
      (hphase : r.phase = .timing failures) :
      Move cfg lower w (.ttl i) (w.setRequest i r (.limited retryAfter))
  | pass {i failures : Nat} {r : LoginRequest} (hr : w.requests[i]? = some r) (hphase : r.phase = .timing failures)
      (hfew : ¬(cfg.rateLimitEnabled ∧ cfg.failureLimit ≤ failures)) : Move cfg lower w (.ttl i)
      (w.setRequest i r .lookingUp)
  | lookUp {i : Nat} {r : LoginRequest} (hr : w.requests[i]? = some r) (hphase : r.phase = .lookingUp) :
      Move cfg lower w (.lookUp i) (w.setRequest i r .verifying)
  | verify {i : Nat} {r : LoginRequest} {valid : Bool} (hr : w.requests[i]? = some r)
      (hphase : r.phase = .verifying) :
      Move cfg lower w (.verify i valid)
      (w.setRequest i { r with verified := true } (if valid then .clearing else .failing))
  | hit {i : Nat} {r : LoginRequest} (hr : w.requests[i]? = some r) (hphase : r.phase = .failing) :
      Move cfg lower w (.hit i) { w.setRequest i r .unauthorized with
        counters := Function.update w.counters (loginFailureKey lower r.username)
          (some (Counter.hit w.now cfg.failureWindow (w.counters (loginFailureKey lower r.username)))) }
  | clear {i : Nat} {r : LoginRequest} (hr : w.requests[i]? = some r) (hphase : r.phase = .clearing) :
      Move cfg lower w (.clear i) { w.setRequest i r .granted with
        counters := Function.update w.counters (loginFailureKey lower r.username) none }
  | die {i : Nat} {r : LoginRequest} (hr : w.requests[i]? = some r) (hopen : r.phase.ended = false) :
      Move cfg lower w (.die i) (w.setRequest i r .died)
  | tick {seconds : K} (hseconds : 0 ≤ seconds) : Move cfg lower w (.tick seconds) { w with now := w.now + seconds }

theorem step_move {cfg : LoginSettings} {lower : String → String} {w w' : LoginWorld K} {act : LoginAct K}
    (hstep : w.step cfg lower act = some w') : Move cfg lower w act w' := by
  cases act with
  | arrive username =>
    obtain rfl := Option.some.inj hstep
    exact .arrive username
  | enforce i refused =>
    simp only [step, Option.bind_eq_some_iff, Option.ite_none_right_eq_some, Option.some.injEq] at hstep
    obtain ⟨r, hr, hphase, rfl⟩ := hstep
    exact .enforce hr hphase
  | get i =>
    simp only [step, Option.bind_eq_some_iff, Option.ite_none_right_eq_some, Option.some.injEq] at hstep
    obtain ⟨r, hr, hphase, rfl⟩ := hstep
    exact .get hr hphase
  | ttl i =>
    simp only [step, Option.bind_eq_some_iff] at hstep
    obtain ⟨r, hr, hstep⟩ := hstep
    split at hstep
    · rename_i failures hphase
      obtain rfl := Option.some.inj hstep
      split
      · exact .refuse _ hr hphase
      · rename_i hfew
        exact .pass hr hphase hfew
    · cases hstep
  | lookUp i =>
    simp only [step, Option.bind_eq_some_iff, Option.ite_none_right_eq_some, Option.some.injEq] at hstep
    obtain ⟨r, hr, hphase, rfl⟩ := hstep
    exact .lookUp hr hphase
  | verify i valid =>
    simp only [step, Option.bind_eq_some_iff, Option.ite_none_right_eq_some, Option.some.injEq] at hstep
    obtain ⟨r, hr, hphase, rfl⟩ := hstep
    exact .verify hr hphase
  | hit i =>
    simp only [step, Option.bind_eq_some_iff, Option.ite_none_right_eq_some, Option.some.injEq] at hstep
    obtain ⟨r, hr, hphase, rfl⟩ := hstep
    exact .hit hr hphase
  | clear i =>
    simp only [step, Option.bind_eq_some_iff, Option.ite_none_right_eq_some, Option.some.injEq] at hstep
    obtain ⟨r, hr, hphase, rfl⟩ := hstep
    exact .clear hr hphase
  | die i =>
    simp only [step, Option.bind_eq_some_iff, Option.ite_none_left_eq_some, Option.some.injEq,
      Bool.not_eq_true] at hstep
    obtain ⟨r, hr, hopen, rfl⟩ := hstep
    exact .die hr hopen
  | tick seconds =>
    simp only [step, Option.ite_none_right_eq_some, Option.some.injEq] at hstep
    obtain ⟨hseconds, rfl⟩ := hstep
    exact .tick hseconds

/-! ### Guesses -/

/-- The request is about this key, and its failure is counted. -/
def isCounted (lower : String → String) (key : String) (r : LoginRequest) : Bool :=
  decide (loginFailureKey lower r.username = key) && decide (r.phase = .unauthorized)

/-- The request is about this key, and past its check without being counted, if it has not died before it
could guess. -/
def isUncounted (limit : Nat) (lower : String → String) (key : String) (r : LoginRequest) : Bool :=
  decide (loginFailureKey lower r.username = key) &&
    (r.phase.passed limit || (decide (r.phase = .died) && r.verified))

/-- The password verifications made for the key. -/
def guesses (lower : String → String) (key : String) (w : LoginWorld K) : Nat :=
  w.requests.countP fun r => decide (loginFailureKey lower r.username = key) && r.verified

/-- The failures a request for the key would read now. -/
def failures (w : LoginWorld K) (key : String) : Nat := (Counter.peek w.now (w.counters key)).1

/-- Nobody logs in under the key, and its counter does not expire. -/
def InWindow (lower : String → String) (key : String) (w : LoginWorld K) : LoginAct K → Prop
  | .verify i valid => valid = true → ∀ r, w.requests[i]? = some r → loginFailureKey lower r.username ≠ key
  | .tick seconds => ∀ c, w.counters key = some c → ∀ e, c.expiresAt = some e → w.now + seconds < e
  | _ => True

/-- A request that reads too few failures to be refused finds that, with the ones still to be counted, the
limit is not reached. -/
def Unhurried (cfg : LoginSettings) (lower : String → String) (key : String) (w : LoginWorld K) : LoginAct K → Prop
  | .get i =>
      ∀ r, w.requests[i]? = some r → loginFailureKey lower r.username = key → w.failures key < cfg.failureLimit →
      w.failures key + w.requests.countP (isUncounted cfg.failureLimit lower key) < cfg.failureLimit
  | _ => True

/-- What is counted and what is still to be counted stay within the limit. -/
structure Guarded (cfg : LoginSettings) (lower : String → String) (key : String) (w : LoginWorld K) : Prop where
  alive : ∀ c, w.counters key = some c → 0 < c.count ∧ ∃ e, c.expiresAt = some e ∧ w.now < e
  count : (w.counters key).elim 0 Counter.count = w.requests.countP (isCounted lower key)
  bounded : w.requests.countP (isCounted lower key) + w.requests.countP
    (isUncounted cfg.failureLimit lower key) ≤ cfg.failureLimit
  verified : ∀ r ∈ w.requests, loginFailureKey lower r.username = key → r.verified = true →
    r.phase = .unauthorized ∨ r.phase = .failing ∨ r.phase = .died
  open_ : ∀ r ∈ w.requests, loginFailureKey lower r.username = key → r.phase ≠ .clearing

namespace Guarded

variable {cfg : LoginSettings} {lower : String → String} {key : String} {w w' : LoginWorld K}

omit [DivisionRing K] [FloorRing K] in
theorem start (now : K) : Guarded cfg lower key { now } where
  alive c hc := by cases hc
  count := rfl
  bounded := Nat.zero_le _
  verified r hr := by cases hr
  open_ r hr := by cases hr

/-- The counter has not expired, so what it holds is what is read. -/
theorem failures_eq (h : Guarded cfg lower key w) : w.failures key = w.requests.countP (isCounted lower key) := by
  rw [← h.count]
  cases hc : w.counters key with
  | none => simp [failures, Counter.peek, Counter.live, hc]
  | some c =>
    obtain ⟨-, e, he, hlt⟩ := h.alive c hc
    rw [failures, Counter.peek, Counter.live_eq_some hc he hlt]

omit [DivisionRing K] [FloorRing K] in
/-- A request goes on without being counted. -/
private theorem replace (h : Guarded cfg lower key w) {i : Nat} {r r' : LoginRequest} (hr : w.requests[i]? = some r)
    {counters : String → Option (Counter K)} (hcounters : counters key = w.counters key)
    (hcounted : isCounted lower key r' = isCounted lower key r)
    (huncounted : isUncounted cfg.failureLimit lower key r' = true → isUncounted cfg.failureLimit lower key r = true ∨
      w.requests.countP (isCounted lower key) + w.requests.countP
        (isUncounted cfg.failureLimit lower key) < cfg.failureLimit)
    (hverified : loginFailureKey lower r'.username = key → r'.verified = true →
      r'.phase = .unauthorized ∨ r'.phase = .failing ∨ r'.phase = .died)
    (hopen : loginFailureKey lower r'.username = key → r'.phase ≠ .clearing) :
    Guarded cfg lower key { w with requests := w.requests.set i r', counters } := by
  have hsame : (w.requests.set i r').countP (isCounted lower key) = w.requests.countP (isCounted lower key) := by
    have := countP_set_add (p := isCounted lower key) hr r'
    rw [hcounted] at this
    omega
  refine ⟨fun c hc => h.alive c (hcounters ▸ hc), ?_, ?_, fun q hq => ?_, fun q hq => ?_⟩
  · show (counters key).elim 0 Counter.count = (w.requests.set i r').countP _
    rw [hsame, ← h.count, hcounters]
  · have hset := countP_set_add (p := isUncounted cfg.failureLimit lower key) hr r'
    have hle := h.bounded
    show (w.requests.set i r').countP _ + (w.requests.set i r').countP _ ≤ _
    rw [hsame]
    by_cases hnew : isUncounted cfg.failureLimit lower key r' = true
    · rw [if_pos hnew] at hset
      rcases huncounted hnew with hold | hlt
      · rw [if_pos hold] at hset
        omega
      · omega
    · rw [if_neg hnew] at hset
      omega
  · rcases List.mem_or_eq_of_mem_set hq with hq | rfl
    · exact h.verified q hq
    · exact hverified
  · rcases List.mem_or_eq_of_mem_set hq with hq | rfl
    · exact h.open_ q hq
    · exact hopen

omit [DivisionRing K] [FloorRing K] in
/-- A request that has not guessed goes on without a guess. -/
private theorem advance (h : Guarded cfg lower key w) {i : Nat} {r : LoginRequest}
    (hr : w.requests[i]? = some r) {phase : LoginPhase}
    (hfrom : r.phase ≠ .unauthorized ∧ r.phase ≠ .failing ∧ r.phase ≠ .died)
    (hto : phase ≠ .unauthorized ∧ phase ≠ .clearing)
    (huncounted : isUncounted cfg.failureLimit lower key { r with phase } = true →
      isUncounted cfg.failureLimit lower key r = true ∨
      w.requests.countP (isCounted lower key) + w.requests.countP
        (isUncounted cfg.failureLimit lower key) < cfg.failureLimit) :
    Guarded cfg lower key (w.setRequest i r phase) := by
  refine h.replace hr rfl ?_ huncounted (fun hkey hv => ?_) fun _ => hto.2
  · simp [isCounted, hfrom.1, hto.1]
  · rcases h.verified r (List.mem_of_getElem? hr) hkey hv with hphase | hphase | hphase
    · exact absurd hphase hfrom.1
    · exact absurd hphase hfrom.2.1
    · exact absurd hphase hfrom.2.2

omit [DivisionRing K] [FloorRing K] in
/-- A request under another key does whatever it does. -/
private theorem replace_other (h : Guarded cfg lower key w) {i : Nat} {r r' : LoginRequest}
    (hr : w.requests[i]? = some r)
    {counters : String → Option (Counter K)} (hcounters : counters key = w.counters key)
    (huser : r'.username = r.username) (hne : loginFailureKey lower r.username ≠ key) : Guarded cfg lower key
    { w with requests := w.requests.set i r', counters } := by
  refine h.replace hr hcounters ?_ (fun hnew => ?_) (fun hkey => ?_) fun hkey => ?_
  · simp [isCounted, huser, hne]
  · simp [isUncounted, huser, hne] at hnew
  · exact absurd (huser ▸ hkey) hne
  · exact absurd (huser ▸ hkey) hne

omit [FloorRing K] in
/-- The failure of a request is counted. -/
private theorem count_failure [IsStrictOrderedRing K] (h : Guarded cfg lower key w)
    (hwindow : 0 < cfg.failureWindow) {i : Nat}
    {r : LoginRequest} (hr : w.requests[i]? = some r) (hkey : loginFailureKey lower r.username = key)
    (hphase : r.phase = .failing) :
    Guarded cfg lower key { w with
      requests := w.requests.set i { r with phase := .unauthorized }
      counters := Function.update w.counters key (some (Counter.hit w.now cfg.failureWindow (w.counters key))) } := by
  have hcounted := countP_set_add (p := isCounted lower key) hr { r with phase := .unauthorized }
  have huncounted := countP_set_add (p := isUncounted cfg.failureLimit lower key) hr { r with phase := .unauthorized }
  simp only [isCounted, hkey, hphase, decide_true, Bool.true_and, reduceCtorEq, decide_false,
    Bool.false_eq_true, if_false, if_true]
    at hcounted
  simp only [isUncounted, hkey, hphase, LoginPhase.passed, decide_true, Bool.true_and, Bool.true_or,
    Bool.false_or, reduceCtorEq,
    decide_false, Bool.false_and, Bool.false_eq_true, if_false, if_true] at huncounted
  have hhit : ∃ e,
    Counter.hit w.now cfg.failureWindow (w.counters key) =
      ⟨w.requests.countP (isCounted lower key) + 1, some e⟩ ∧
      w.now < e := by
    rw [← h.count]
    cases hc : w.counters key with
    | none => exact ⟨_, Counter.hit_of_none rfl, lt_add_of_pos_right _ (Nat.cast_pos.2 hwindow)⟩
    | some c =>
      obtain ⟨hpos, e, he, hlt⟩ := h.alive c hc
      exact ⟨e, by rw [Counter.hit_of_live (Counter.live_eq_some rfl he hlt) hpos, ← he]; rfl, hlt⟩
  obtain ⟨e, he, hlt⟩ := hhit
  refine ⟨fun c hc => ?_, ?_, ?_, fun q hq => ?_, fun q hq => ?_⟩
  · simp only [Function.update_self, he, Option.some.injEq] at hc
    subst hc
    exact ⟨Nat.succ_pos _, e, rfl, hlt⟩
  · show (Function.update w.counters key _ key).elim 0 Counter.count = (w.requests.set i _).countP _
    rw [Function.update_self, he]
    exact hcounted.symm
  · have hle := h.bounded
    show (w.requests.set i _).countP _ + (w.requests.set i _).countP _ ≤ _
    omega
  · rcases List.mem_or_eq_of_mem_set hq with hq | rfl
    · exact h.verified q hq
    · exact fun _ _ => .inl rfl
  · rcases List.mem_or_eq_of_mem_set hq with hq | rfl
    · exact h.open_ q hq
    · exact fun _ hclear => by cases hclear

variable [IsStrictOrderedRing K]

theorem step (h : Guarded cfg lower key w) (hon : cfg.rateLimitEnabled = true)
    (hwindow : 0 < cfg.failureWindow) {act : LoginAct K}
    (hin : InWindow lower key w act) (hslow : Unhurried cfg lower key w act)
    (hstep : w.step cfg lower act = some w') :
    Guarded cfg lower key w' := by
  cases step_move hstep with
  | arrive username =>
    refine ⟨h.alive, ?_, ?_, fun q hq => ?_, fun q hq => ?_⟩
    · simpa [List.countP_append, isCounted] using h.count
    · simpa [List.countP_append, isCounted, isUncounted, LoginPhase.passed] using h.bounded
    · rcases List.mem_append.1 hq with hq | hq
      · exact h.verified q hq
      · rw [List.mem_singleton.1 hq]
        exact fun _ hv => by cases hv
    · rcases List.mem_append.1 hq with hq | hq
      · exact h.open_ q hq
      · rw [List.mem_singleton.1 hq]
        exact fun _ hp => by cases hp
  | tick hseconds =>
    refine ⟨fun c hc => ?_, h.count, h.bounded, h.verified, h.open_⟩
    obtain ⟨hpos, e, he, -⟩ := h.alive c hc
    exact ⟨hpos, e, he, hin c hc e he⟩
  | @enforce i r refused hr hphase =>
    refine h.advance hr (by simp [hphase]) ?_ fun hnew => ?_
    · cases refused <;> simp
    · cases refused <;> simp [isUncounted, LoginPhase.passed] at hnew
  | @get i r hr hphase =>
    refine h.advance hr (by simp [hphase]) (by simp) fun hnew => .inr ?_
    -- what is read is below the limit, so the condition bounds what is counted and what is not
    simp only [isUncounted, LoginPhase.passed, reduceCtorEq, decide_false, Bool.false_and, Bool.or_false,
      Bool.and_eq_true, decide_eq_true_eq] at hnew
    obtain ⟨hkey, hlt⟩ := hnew
    rw [hkey] at hlt
    have hbound := hslow r hr hkey hlt
    rwa [h.failures_eq] at hbound
  | refuse retryAfter hr hphase =>
    refine h.advance hr (by simp [hphase]) (by simp) fun hnew => ?_
    simp [isUncounted, LoginPhase.passed] at hnew
  | pass hr hphase hfew =>
    refine h.advance hr (by simp [hphase]) (by simp) fun hnew => .inl ?_
    simp only [isUncounted, LoginPhase.passed, Bool.true_or, Bool.and_true, decide_eq_true_eq] at hnew
    simp only [hon, true_and, not_le] at hfew
    simp [isUncounted, LoginPhase.passed, hnew, hphase, hfew]
  | lookUp hr hphase =>
    refine h.advance hr (by simp [hphase]) (by simp) fun hnew => .inl ?_
    simpa [isUncounted, LoginPhase.passed, hphase] using hnew
  | @verify i r valid hr hphase =>
    by_cases hkey : loginFailureKey lower r.username = key
    · obtain rfl : valid = false := Bool.eq_false_iff.2 fun hvalid => hin hvalid r hr hkey
      refine h.replace hr rfl ?_ (fun hnew => .inl ?_) (fun _ _ => .inr (.inl rfl)) fun _ => ?_
      · simp [isCounted, hphase]
      · simpa [isUncounted, LoginPhase.passed, hphase] using hnew
      · simp
    · exact h.replace_other hr rfl rfl hkey
  | @hit i r hr hphase =>
    by_cases hkey : loginFailureKey lower r.username = key
    · subst hkey
      exact h.count_failure hwindow hr rfl hphase
    · exact h.replace_other hr (Function.update_of_ne (Ne.symm hkey) _ _) rfl hkey
  | @clear i r hr hphase =>
    have hne : loginFailureKey lower r.username ≠ key := fun hkey => h.open_ r (List.mem_of_getElem? hr) hkey hphase
    exact h.replace_other hr (Function.update_of_ne (Ne.symm hne) _ _) rfl hne
  | @die i r hr hopen =>
    refine h.replace hr rfl ?_ (fun hnew => .inl ?_) (fun _ _ => .inr (.inr rfl)) fun _ => ?_
    · cases hphase : r.phase <;> simp_all [isCounted, LoginPhase.ended]
    · simp only [isUncounted, LoginPhase.passed, decide_true, Bool.true_and, Bool.false_or, Bool.and_eq_true,
        decide_eq_true_eq] at hnew
      rcases h.verified r (List.mem_of_getElem? hr) hnew.1 hnew.2 with hphase | hphase | hphase
      · simp [hphase, LoginPhase.ended] at hopen
      · simp [isUncounted, LoginPhase.passed, hphase, hnew.1]
      · simp [hphase, LoginPhase.ended] at hopen
    · simp

omit [DivisionRing K] [FloorRing K] [IsStrictOrderedRing K] in
/-- The guesses are among the requests counted and those past their check. -/
theorem guesses_le (h : Guarded cfg lower key w) : guesses lower key w ≤ cfg.failureLimit := by
  refine (countP_le_add fun r hr hguess => ?_).trans h.bounded
  simp only [Bool.and_eq_true, decide_eq_true_eq] at hguess
  rcases h.verified r hr hguess.1 hguess.2 with hphase | hphase | hphase
  · exact .inl (by simp [isCounted, hguess.1, hphase])
  · exact .inr (by simp [isUncounted, LoginPhase.passed, hguess.1, hphase])
  · exact .inr (by simp [isUncounted, hguess.1, hguess.2, hphase])

end Guarded

/-- While nobody logs in and the counter lives, a key takes no more guesses than the limit, if no request gets
past its check when the failures counted and those of the requests past their check reach the limit. -/
theorem guesses_bounded [IsStrictOrderedRing K] (cfg : LoginSettings) (lower : String → String)
    (key : String) (now : K) (acts : List (LoginAct K)) (w : LoginWorld K) (hon : cfg.rateLimitEnabled = true)
    (hwindow : 0 < cfg.failureWindow) (hrun : exec (step cfg lower) { now } acts = some w)
    (hin : Along (step cfg lower) (InWindow lower key) { now } acts)
    (hslow : Along (step cfg lower) (Unhurried cfg lower key) { now } acts) :
    guesses lower key w ≤ cfg.failureLimit :=
  (exec_invariant (I := Guarded cfg lower key) (fun _ _ _ hC hstep h => h.step hon hwindow hC.1 hC.2 hstep)
    (Guarded.start now)
    (hin.and hslow) hrun).guesses_le

end LoginWorld

end Logins

namespace LoginWorld

/-- The first `n` requests, all at the same point, take one step. -/
private def inTurn (n : Nat) (act : Nat → LoginAct ℚ) : List (LoginAct ℚ) := (List.range n).map act

/-- The requests of `n` wrong logins, each up to its count. -/
private def overlapping (username : String) (n : Nat) : List (LoginAct ℚ) :=
  inTurn n (fun _ => .arrive username) ++ inTurn n (.enforce · none) ++ inTurn n .get ++ inTurn n .ttl ++
    inTurn n .lookUp ++
    inTurn n (.verify · false) ++ inTurn n .hit

private def lockout : LoginSettings := ⟨true, 10, 900⟩

/-- One wrong login after the other, and one more after the limit. -/
private def inSequence (username : String) (n : Nat) : List (LoginAct ℚ) :=
  ((List.range n).flatMap fun i =>
    [.arrive username, .enforce i none, .get i, .ttl i, .lookUp i, .verify i false, .hit i, .tick 1]) ++
    [.arrive username, .enforce n none, .get n, .ttl n]

instance (cfg : LoginSettings) (lower : String → String) (key : String) (w : LoginWorld ℚ) :
    DecidablePred (Unhurried cfg lower key w)
  | .get i => inferInstanceAs (Decidable (∀ r ∈ w.requests[i]?, _))
  | .arrive _ | .enforce _ _ | .ttl _ | .lookUp _ | .verify _ _ | .hit _ | .clear _ | .die _
      | .tick _ => inferInstanceAs (Decidable True)

instance (lower : String → String) (key : String) (w : LoginWorld ℚ) : DecidablePred (InWindow lower key w)
  | .verify i _ => inferInstanceAs (Decidable (_ → ∀ r ∈ w.requests[i]?, _))
  | .tick _ => inferInstanceAs (Decidable (∀ c ∈ w.counters key, ∀ e ∈ c.expiresAt, _))
  | .arrive _ | .enforce _ _ | .get _ | .ttl _ | .lookUp _ | .hit _ | .clear _
      | .die _ => inferInstanceAs (Decidable True)

/-- Three wrong logins one after the other under a limit of two: the third does not guess. -/
theorem guesses_bounded_in_sequence : ∃ w : LoginWorld ℚ,
    exec (step ⟨true, 2, 900⟩ String.toLower) { now := (0 : ℚ) } (inSequence " Alice" 2) = some w ∧
      guesses String.toLower "login_fail:alice" w = 2 ∧ guesses String.toLower "login_fail:alice" w ≤ 2 := by
  obtain ⟨w, hrun, hguesses⟩ := exec_any (step ⟨true, 2, 900⟩ String.toLower) { now := (0 : ℚ) }
    (inSequence " Alice" 2)
    (fun w : LoginWorld ℚ => guesses String.toLower "login_fail:alice" w = 2) (by decide +kernel)
  exact ⟨w, hrun, of_decide_eq_true hguesses, guesses_bounded
    ⟨true, 2, 900⟩ String.toLower "login_fail:alice" 0 (inSequence " Alice" 2) w
    rfl (by decide) hrun (Along.of_check (by decide +kernel)) (Along.of_check (by decide +kernel))⟩

/-- Eleven requests read the counter before the first of them counts its failure: all of them guess. -/
theorem guesses_past_the_limit :
    ¬∀ (cfg : LoginSettings) (lower : String → String) (key : String) (now : ℚ) (acts : List (LoginAct ℚ))
      (w : LoginWorld ℚ), cfg.rateLimitEnabled = true → 0 < cfg.failureWindow →
      exec (step cfg lower) { now } acts = some w →
      Along (step cfg lower) (InWindow lower key) { now } acts → guesses lower key w ≤ cfg.failureLimit := by
  intro hclaim
  obtain ⟨w, hrun, hguesses⟩ := exec_any (step lockout String.toLower) { now := (0 : ℚ) } (overlapping "alice" 11)
    (fun w : LoginWorld ℚ => guesses String.toLower "login_fail:alice" w = 11) (by decide +kernel)
  have hin : Along (step lockout String.toLower) (InWindow String.toLower "login_fail:alice")
      { now := (0 : ℚ) } (overlapping "alice" 11) := by
    refine Along.of_forall fun act hact w => ?_
    simp only [overlapping, inTurn, List.mem_append, List.mem_map] at hact
    rcases hact with (((((⟨_, -, rfl⟩ | ⟨_, -, rfl⟩) | ⟨_, -, rfl⟩) | ⟨_, -, rfl⟩) | ⟨_, -, rfl⟩) |
      ⟨_, -, rfl⟩) | ⟨_, -, rfl⟩
    all_goals simp [InWindow]
  have := hclaim lockout String.toLower "login_fail:alice" 0 _ w rfl (by decide) hrun hin
  rw [of_decide_eq_true hguesses] at this
  exact absurd this (by decide)

end LoginWorld

end Ticketing
