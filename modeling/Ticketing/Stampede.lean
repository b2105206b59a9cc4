import Mathlib.Data.Fintype.EquivFin
import Ticketing.EventCache

/-!
# One load for everybody

The cached meta with a clock: a flight gives up waiting when its deadline has passed, and the lock of the
holder expires after its time to live.  Calls may be cancelled at any point; the flights go on.

A waiter looks at the cache and then at its clock.  When it has found the cache empty, the holder may still
fill it and release the lock in time, and if the deadline passes before the waiter gets to its clock, it loads
a second time (`second_load`).  `stampede_protection` is about the runs in which the holders are in time and
this does not happen: then there is at most one load, every answer is the loaded value, and every call can be
answered.  In every run whatsoever a lock goes only by its own holder or by expiry.
-/

namespace Ticketing

open Exec

/-! ### Clock, deadlines and cancellations -/

/-- `_LOCK_TTL_MS` -/
def lockTtlMs : Nat := 3000

/-- `_LOCK_WAIT_SECONDS`, in milliseconds. -/
def lockWaitMs : Nat := lockTtlMs

/-- The cache with a clock.  `started` are the flights so far, `loads` counts the reads of the event row, and
`loaded` are the values that were read. -/
structure Stampede where
  world : CacheWorld
  now : Nat := 0
  started : List Nat := []
  /-- Fixed when the task of a flight begins to run. -/
  deadline : Nat → Option Nat := fun _ => none
  /-- When the lock expires. -/
  lockUntil : Nat := 0
  cancelled : List Nat := []
  loads : Nat := 0
  loaded : List LoadedMeta := []

inductive StampedeAct where
  | tick (ms : Nat)
  | cancel (c : Nat)
  /-- The task of flight `f`, so far only registered, begins to run. -/
  | run (f : Nat)
  | cache (a : CacheAct)

namespace FlightPhase

/-- The cache was empty and the clock comes next. -/
def pauses : FlightPhase → Bool
  | pausing => true
  | _ => false

/-- It has found the lock taken and waits for the value. -/
def waits : FlightPhase → Bool
  | polling | pausing => true
  | _ => false

/-- It has taken the lock and not released it. -/
def owns : FlightPhase → Bool
  | checking | loading _ | pricing .. | filling .. | releasing _ => true
  | _ => false

/-- The value that is about to be written. -/
def value : FlightPhase → Option LoadedMeta
  | filling _ m => some m
  | _ => none

end FlightPhase

namespace Stampede

/-- An existing event with an empty cache. -/
def start (row : MetaRow) (prices : Hash ZoneId Int) : Stampede where
  world := .start (some row) prices

/-- The clock decides between sleeping and giving up, the lock expires after its time, a task has to run
before it does anything, and a cancelled call does nothing more. -/
def enabled (s : Stampede) : CacheAct → Bool
  | .expireLock => s.lockUntil ≤ s.now
  | .flight f .lock => (s.deadline f).isSome
  | .flight f .sleep => (s.deadline f).any fun deadline => s.now < deadline
  | .flight f .giveUp => (s.deadline f).any fun deadline => deadline ≤ s.now
  | .read c | .join c _ | .answer c => c ∉ s.cancelled
  | _ => true

/-- What is noted down of a step: the expiry of a lock that is taken, a new flight, and the loads. -/
def note (s : Stampede) (a : CacheAct) (world : CacheWorld) : Stampede :=
  match a with
  | .flight _ .lock =>
    { s with world := world, lockUntil := if s.world.keys.lock.isNone then s.now + lockTtlMs else s.lockUntil }
  | .flight _ .loadRow => { s with world := world, loads := s.loads + 1 }
  | .flight f .loadPrices =>
    { s with world := world, loaded := s.loaded ++ ((world.flights f).bind FlightPhase.value).toList }
  | .join _ f =>
    if (s.world.flights f).isNone ∧ (world.flights f).isSome then
      { s with world := world, started := f :: s.started }
    else { s with world := world }
  | _ => { s with world := world }

def step (s : Stampede) : StampedeAct → Option Stampede
  | .tick ms => some { s with now := s.now + ms }
  | .cancel c => some { s with cancelled := c :: s.cancelled }
  | .run f =>
    if (s.world.flights f).isSome ∧ (s.deadline f).isNone then
      some { s with deadline := Function.update s.deadline f (some (s.now + lockWaitMs)) }
    else none
  | .cache a => if s.enabled a then (s.world.step a).map (s.note a) else none

end Stampede

/-! ### Provisos -/

namespace StampedeAct

def ticks : StampedeAct → Option Nat
  | tick ms => some ms
  | _ => none

/-- The flight that tries to take the lock. -/
def locks : StampedeAct → Option Nat
  | cache (.flight f .lock) => some f
  | _ => none

def raises : StampedeAct → Bool
  | cache (.flight _ .fail) => true
  | _ => false

/-- The cached value expires or is deleted. -/
def drops : StampedeAct → Bool
  | cache .expireCache | cache (.invalidate _) => true
  | _ => false

end StampedeAct

namespace Stampede

/-- No step raises, and the cache is not cleared once it is filled. -/
def Calm (s : Stampede) (a : StampedeAct) : Prop :=
  a.raises = false ∧ (a.drops = true → s.world.keys.cache.isNone = true)

instance (s : Stampede) (a : StampedeAct) : Decidable (s.Calm a) := inferInstanceAs (Decidable (_ ∧ _))

/-- While a flight has the lock, time passes neither the end of the lock nor the deadline of a flight that
waits, and nobody whose deadline has passed begins to wait for the value. -/
def InTime (s : Stampede) (a : StampedeAct) : Prop :=
  (∀ ms ∈ a.ticks, s.world.keys.lock.isSome = true → s.now + ms < s.lockUntil ∧
    ∀ f ∈ s.started, (s.world.flights f).any FlightPhase.waits = true → ∀ deadline ∈ s.deadline f,
    s.now + ms < deadline) ∧
  ∀ f ∈ a.locks, s.world.keys.lock.isSome = true → s.world.keys.cache.isNone = true →
    ∀ deadline ∈ s.deadline f, s.now < deadline

instance (s : Stampede) (a : StampedeAct) : Decidable (s.InTime a) :=
  inferInstanceAs (Decidable ((∀ ms ∈ a.ticks, _) ∧ ∀ f ∈ a.locks, _))

/-- A flight that has found the cache empty gets to its clock before its deadline. -/
def Prompt (s : Stampede) (a : StampedeAct) : Prop :=
  ∀ ms ∈ a.ticks, ∀ f ∈ s.started, (s.world.flights f).any FlightPhase.pauses = true →
    ∀ deadline ∈ s.deadline f, s.now + ms < deadline

instance (s : Stampede) (a : StampedeAct) : Decidable (s.Prompt a) := inferInstanceAs (Decidable (∀ ms ∈ a.ticks, _))

def Orderly (s : Stampede) (a : StampedeAct) : Prop := s.Calm a ∧ s.InTime a ∧ s.Prompt a

instance (s : Stampede) (a : StampedeAct) : Decidable (s.Orderly a) := inferInstanceAs (Decidable (_ ∧ _))

end Stampede

/-! ### Steps taken apart -/

/-- A write is a write to an event that exists. -/
theorem EventDb.commit_row {db db' : EventDb} {w : AdminWrite} (h : db.commit w = some db') : db'.row ≠ none := by
  cases w with
  | patchEvent row =>
    obtain ⟨_, _, rfl⟩ := Option.map_eq_some_iff.1 h
    exact Option.some_ne_none _
  | patchZonePrices prices =>
    obtain ⟨row, hrow, rfl⟩ := Option.map_eq_some_iff.1 h
    exact hrow ▸ Option.some_ne_none row
  | publish =>
    obtain ⟨row, _, hrow⟩ := Option.bind_eq_some_iff.1 h
    split at hrow
    · cases hrow
      exact Option.some_ne_none _
    · cases hrow

namespace Stampede

variable {s s' : Stampede} {f : Nat} {a : FlightAct}

theorem step_cache {a : CacheAct} (h : s.step (.cache a) = some s') :
    s.enabled a = true ∧ ∃ world, s.world.step a = some world ∧ s' = s.note a world := by
  simp only [step] at h
  split at h
  · rename_i hen
    obtain ⟨world, hworld, rfl⟩ := Option.map_eq_some_iff.1 h
    exact ⟨hen, world, hworld, rfl⟩
  · cases h

theorem cache_step {a : CacheAct} {world : CacheWorld} (hen : s.enabled a = true) (h : s.world.step a = some world) :
    s.step (.cache a) = some (s.note a world) := by
  simp only [step, hen, if_true, h, Option.map_some]

/-- The step of a flight, taken apart. -/
theorem step_flight (h : s.step (.cache (.flight f a)) = some s') :
    s.enabled (.flight f a) = true ∧ ∃ phase keys phase', s.world.flights f = some phase ∧
      phase.step f s.world.db s.world.keys a = some (keys, phase') ∧
      s' = s.note (.flight f a) { s.world.setFlight f phase' with keys := keys } := by
  obtain ⟨hen, world, hworld, rfl⟩ := step_cache h
  obtain ⟨phase, hphase, hstep⟩ := Option.bind_eq_some_iff.1 hworld
  obtain ⟨⟨keys, phase'⟩, hout, rfl⟩ := Option.map_eq_some_iff.1 hstep
  exact ⟨hen, phase, keys, phase', hphase, hout, rfl⟩

/-- The step of a flight, put together. -/
theorem flight_step {phase phase' : FlightPhase} {keys : MetaKeys} (hen : s.enabled (.flight f a) = true)
    (hphase : s.world.flights f = some phase) (hstep : phase.step f s.world.db s.world.keys a = some (keys, phase')) :
    s.step (.cache (.flight f a)) = some (s.note (.flight f a) { s.world.setFlight f phase' with keys := keys }) := by
  refine cache_step hen ?_
  simp only [CacheWorld.step, hphase, Option.bind_some, hstep, Option.map_some]

/-! ### The holder of the lock -/

/-- The deadline of a flight that runs has not passed. -/
def Early (s : Stampede) (f : Nat) : Prop := ∃ deadline, s.deadline f = some deadline ∧ s.now < deadline

/-- What a flight in a phase relies on. -/
def PhaseOk (s : Stampede) (f : Nat) : FlightPhase → Prop
  | .locking => True
  | .polling => s.world.keys.cache = none → s.world.keys.lock ≠ none ∧ s.Early f
  | .pausing => s.Early f
  | .checking => s.world.keys.lock = some f ∧ (s.world.keys.cache = none → s.loads = 0 ∧ s.loaded = [])
  | .loading locked =>
    locked = true ∧ s.world.keys.lock = some f ∧ s.world.keys.cache = none ∧ s.loads = 0 ∧ s.loaded = []
  | .pricing locked _ =>
    locked = true ∧ s.world.keys.lock = some f ∧ s.world.keys.cache = none ∧ s.loads = 1 ∧ s.loaded = []
  | .filling locked m =>
    locked = true ∧ s.world.keys.lock = some f ∧ s.world.keys.cache = none ∧ s.loads = 1 ∧ s.loaded = [m]
  | .releasing result => s.world.keys.lock = some f ∧ ∃ m, result = .found m ∧ s.world.keys.cache = some m
  | .done result => ∃ m, result = .found m ∧ s.world.keys.cache = some m

/-- What a call in a phase relies on. -/
def CallOk (s : Stampede) : GetPhase → Prop
  | .reading | .missed => True
  | .waiting f => s.world.flights f ≠ none
  | .answered result => ∃ m, result = .found m ∧ s.world.keys.cache = some m

/-- The cached value is what the one load has read; without a holder nothing was read before it. -/
def Counted (s : Stampede) : Prop :=
  (∀ m, s.world.keys.cache = some m → s.loads = 1 ∧ s.loaded = [m]) ∧
  (s.world.keys.cache = none → s.world.keys.lock = none → s.loads = 0 ∧ s.loaded = [])

/-- The holder of the lock is the one flight that loads. -/
structure Guarded (s : Stampede) : Prop where
  row : s.world.db.row ≠ none
  known : ∀ f, s.world.flights f ≠ none → f ∈ s.started
  phases : ∀ f phase, s.world.flights f = some phase → s.PhaseOk f phase
  owned : ∀ f, s.world.keys.lock = some f → ∃ phase, s.world.flights f = some phase ∧ phase.owns = true
  inTime : s.world.keys.lock ≠ none → s.now < s.lockUntil
  count : s.Counted
  calls : ∀ c call, s.world.calls c = some call → s.CallOk call.phase

theorem guarded_start (row : MetaRow) (prices : Hash ZoneId Int) : (start row prices).Guarded where
  row := by simp [start, CacheWorld.start]
  known := fun _ h => absurd rfl h
  phases := fun _ _ h => by cases h
  owned := fun _ h => by cases h
  inTime := fun h => absurd rfl h
  count := ⟨nofun, fun _ _ => ⟨rfl, rfl⟩⟩
  calls := fun _ _ h => by cases h

/-- What the step of flight `f` leaves to the others: the clocks, a filled cache, a lock as long as the cache
is empty, and everything while another one holds the lock. -/
structure Advance (s s' : Stampede) (f : Nat) : Prop where
  now : s'.now = s.now
  deadline : s'.deadline = s.deadline
  cache : ∀ m, s.world.keys.cache = some m → s'.world.keys.cache = some m
  lock : s'.world.keys.cache = none → s.world.keys.lock ≠ none → s'.world.keys.lock ≠ none
  held : ∀ g, g ≠ f → s.world.keys.lock = some g →
    s'.world.keys = s.world.keys ∧ s'.loads = s.loads ∧ s'.loaded = s.loaded

private theorem Advance.early {g : Nat} (h : s.Advance s' f) (hearly : s.Early g) : s'.Early g := by
  obtain ⟨deadline, hdeadline, hlt⟩ := hearly
  rw [← h.deadline] at hdeadline
  rw [← h.now] at hlt
  exact ⟨deadline, hdeadline, hlt⟩

theorem Advance.phaseOk {g : Nat} {phase : FlightPhase} (h : s.Advance s' f) (hg : g ≠ f) (hok : s.PhaseOk g phase) :
    s'.PhaseOk g phase := by
  cases phase with
  | locking => trivial
  | polling =>
    intro hnone
    have hempty : s.world.keys.cache = none := by
      cases hm : s.world.keys.cache with
      | none => rfl
      | some m => cases hnone.symm.trans (h.cache m hm)
    obtain ⟨hlock, hearly⟩ := hok hempty
    exact ⟨h.lock hnone hlock, h.early hearly⟩
  | pausing => exact h.early hok
  | checking =>
    obtain ⟨hkeys, hloads, hloaded⟩ := h.held g hg hok.1
    simp only [PhaseOk, hkeys, hloads, hloaded]
    exact hok
  | loading locked | pricing locked row | filling locked m =>
    obtain ⟨hkeys, hloads, hloaded⟩ := h.held g hg hok.2.1
    simp only [PhaseOk, hkeys, hloads, hloaded]
    exact hok
  | releasing result =>
    obtain ⟨hkeys, hloads, hloaded⟩ := h.held g hg hok.1
    simp only [PhaseOk, hkeys]
    exact hok
  | done result =>
    obtain ⟨m, hm, hcache⟩ := hok
    exact ⟨m, hm, h.cache m hcache⟩

/-- A filled cache stays filled and no flight disappears: no call is worse off. -/
private theorem CallOk.of_le {phase : GetPhase} (hok : s.CallOk phase)
    (hcache : ∀ m, s.world.keys.cache = some m → s'.world.keys.cache = some m)
    (hflights : ∀ f, s.world.flights f ≠ none → s'.world.flights f ≠ none) : s'.CallOk phase := by
  cases phase with
  | reading | missed => trivial
  | waiting f => exact hflights f hok
  | answered result =>
    obtain ⟨m, hm, hc⟩ := hok
    exact ⟨m, hm, hcache m hc⟩

private theorem update_ne_none {β : Type} {r : Nat → Option β} {k k' : Nat} {v : β} (h : r k' ≠ none) :
    Function.update r k (some v) k' ≠ none := by
  by_cases hk : k' = k
  · rw [hk, Function.update_self]
    exact Option.some_ne_none v
  · rw [Function.update_of_ne hk]
    exact h

private theorem update_known {β : Type} {r : Nat → Option β} {k k' : Nat} {v : β} (hk : r k ≠ none)
    (h : Function.update r k (some v) k' ≠ none) : r k' ≠ none := by
  by_cases hk' : k' = k
  · rwa [hk']
  · rwa [Function.update_of_ne hk'] at h

/-- The step of a flight keeps the invariant when it leaves to the others what they rely on. -/
theorem Guarded.move {keys : MetaKeys} {phase phase' : FlightPhase} (hI : s.Guarded)
    (hf : s.world.flights f = some phase)
    (hworld : s'.world = { s.world.setFlight f phase' with keys := keys }) (hstarted : s'.started = s.started)
    (hadv : s.Advance s' f) (hok : s'.PhaseOk f phase')
    (howned : ∀ g, keys.lock = some g → (g = f ∧ phase'.owns = true) ∨ (g ≠ f ∧ s.world.keys.lock = some g))
    (hlock : keys.lock ≠ none → s.now < s'.lockUntil) (hcount : s'.Counted) : s'.Guarded where
  row := by
    rw [hworld]
    exact hI.row
  known := by
    intro g hg
    rw [hworld] at hg
    rw [hstarted]
    exact hI.known g (update_known (by simp [hf]) hg)
  phases := by
    intro g phase hg
    rw [hworld] at hg
    by_cases hgf : g = f
    · subst hgf
      obtain rfl : phase' = phase := by simpa [CacheWorld.setFlight] using hg
      exact hok
    · refine hadv.phaseOk hgf (hI.phases g phase ?_)
      simpa [CacheWorld.setFlight, Function.update_of_ne hgf] using hg
  owned := by
    intro g hg
    rw [hworld] at hg ⊢
    rcases howned g hg with ⟨rfl, howns⟩ | ⟨hgf, hheld⟩
    · exact ⟨phase', by simp [CacheWorld.setFlight], howns⟩
    · obtain ⟨phase, hphase, howns⟩ := hI.owned g hheld
      exact ⟨phase, by simpa [CacheWorld.setFlight, Function.update_of_ne hgf] using hphase, howns⟩
  inTime := by
    rw [hworld, hadv.now]
    exact hlock
  count := hcount
  calls := by
    intro c call hc
    rw [hworld] at hc
    refine (hI.calls c call hc).of_le hadv.cache fun g hg => ?_
    rw [hworld]
    exact update_ne_none hg

/-- A step that changes neither the keys nor the counts. -/
private theorem Guarded.quiet {phase phase' : FlightPhase} (hI : s.Guarded) (hf : s.world.flights f = some phase)
    (hs : s' = { s with world := s.world.setFlight f phase' }) (hok : s.PhaseOk f phase')
    (howns : phase.owns = true → phase'.owns = true) : s'.Guarded := by
  subst hs
  refine hI.move hf rfl rfl ⟨rfl, rfl, fun _ h => h, fun _ h => h, fun _ _ _ => ⟨rfl, rfl, rfl⟩⟩ ?_
    (fun g hg => ?_) hI.inTime
    hI.count
  · exact hok
  · by_cases hgf : g = f
    · subst hgf
      obtain ⟨phase₀, hphase₀, howns₀⟩ := hI.owned g hg
      obtain rfl := Option.some.inj (hf.symm.trans hphase₀)
      exact .inl ⟨rfl, howns howns₀⟩
    · exact .inr ⟨hgf, hg⟩

/-- While `f` has the lock, whatever it writes concerns nobody else. -/
private theorem Advance.of_holder (hlock : s.world.keys.lock = some f) (hnow : s'.now = s.now)
    (hdeadline : s'.deadline = s.deadline) (hcache : ∀ m, s.world.keys.cache = some m → s'.world.keys.cache = some m)
    (hkept : s'.world.keys.cache = none → s'.world.keys.lock = some f) : s.Advance s' f where
  now := hnow
  deadline := hdeadline
  cache := hcache
  lock := fun hnone _ => by simp [hkept hnone]
  held := fun g hg hheld => absurd (Option.some.inj (hheld.symm.trans hlock)) hg

theorem guarded_flight (hI : s.Guarded) (ha : a ≠ .fail) (hT : s.InTime (.cache (.flight f a)))
    (h : s.step (.cache (.flight f a)) = some s') : s'.Guarded := by
  obtain ⟨hen, phase, keys, phase', hphase, hstep, hs⟩ := step_flight h
  have hok := hI.phases f phase hphase
  cases FlightPhase.step_move hstep ha with
  | acquire hlock =>
    subst hs
    refine hI.move hphase rfl rfl ⟨rfl, rfl, fun _ h => h, fun _ _ => Option.some_ne_none f, ?_⟩
      ⟨rfl, fun hnone => hI.count.2 hnone hlock⟩ (fun g hg => .inl ⟨(Option.some.inj hg).symm, rfl⟩) (fun _ => ?_)
      ⟨hI.count.1, nofun⟩
    · intro g _ hg
      rw [hlock] at hg
      cases hg
    · simp only [note, hlock, Option.isNone_none, if_true, lockTtlMs]
      omega
  | busy hlock =>
    have hpolling : s.PhaseOk f .polling := by
      intro hnone
      obtain ⟨deadline, hdeadline⟩ := Option.isSome_iff_exists.1 hen
      have hlt := hT.2 f rfl (Option.isSome_iff_ne_none.2 hlock)
        (Option.isNone_iff_eq_none.2 hnone) deadline hdeadline
      exact ⟨hlock, deadline, hdeadline, hlt⟩
    refine hI.quiet hphase (hs.trans ?_) hpolling nofun
    simp [note, CacheWorld.setFlight, hlock]
  | pollHit m hm => exact hI.quiet hphase hs ⟨m, rfl, hm⟩ nofun
  | pollMiss hm => exact hI.quiet hphase hs (hok hm).2 nofun
  | sleep => exact hI.quiet hphase hs trivial nofun
  | giveUp =>
    obtain ⟨deadline, hdeadline, hlt⟩ := hok
    have hlate : deadline ≤ s.now := by simpa [enabled, hdeadline] using hen
    omega
  | checkHit m hm => exact hI.quiet hphase hs ⟨hok.1, m, rfl, hm⟩ fun _ => rfl
  | checkMiss hm => exact hI.quiet hphase hs ⟨rfl, hok.1, hm, hok.2 hm⟩ fun _ => rfl
  | loadRow locked row _ =>
    subst hs
    obtain ⟨rfl, hlock, hcache, hloads, hloaded⟩ := hok
    refine hI.move hphase rfl rfl (.of_holder hlock rfl rfl (fun _ h => h) fun _ => hlock)
      ⟨rfl, hlock, hcache, congrArg (· + 1) hloads, hloaded⟩
      (fun g hg => .inl ⟨Option.some.inj (hg.symm.trans hlock), rfl⟩) hI.inTime ⟨fun m hm => ?_, fun _ hnone => ?_⟩
    · cases hcache.symm.trans hm
    · cases hlock.symm.trans hnone
  | loadMissing locked hrow => exact absurd hrow hI.row
  | loadPrices locked row =>
    subst hs
    obtain ⟨rfl, hlock, hcache, hloads, hloaded⟩ := hok
    refine hI.move hphase rfl rfl (.of_holder hlock rfl rfl (fun _ h => h) fun _ => hlock)
      ⟨rfl, hlock, hcache, hloads, ?_⟩
      (fun g hg => .inl ⟨Option.some.inj (hg.symm.trans hlock), rfl⟩) hI.inTime ⟨fun m hm => ?_, fun _ hnone => ?_⟩
    · simp [note, CacheWorld.setFlight, hloaded, FlightPhase.value]
    · cases hcache.symm.trans hm
    · cases hlock.symm.trans hnone
  | fill locked m =>
    subst hs
    obtain ⟨rfl, hlock, hcache, hloads, hloaded⟩ := hok
    refine hI.move hphase rfl rfl (.of_holder hlock rfl rfl (fun m' hm' => ?_) nofun) ⟨hlock, m, rfl, rfl⟩
      (fun g hg => .inl ⟨Option.some.inj (hg.symm.trans hlock), rfl⟩) hI.inTime ⟨fun m' hm' => ?_, nofun⟩
    · cases hcache.symm.trans hm'
    · obtain rfl := Option.some.inj hm'
      exact ⟨hloads, hloaded⟩
  | release result =>
    subst hs
    obtain ⟨hlock, m, rfl, hcache⟩ := hok
    refine hI.move hphase rfl rfl (.of_holder hlock rfl rfl (fun _ h => h) fun hnone => ?_) ⟨m, rfl, hcache⟩
      (fun g hg => ?_)
      (fun hne => ?_) ⟨hI.count.1, fun hnone _ => ?_⟩
    · cases hcache.symm.trans hnone
    · simp [hlock] at hg
    · simp [hlock] at hne
    · cases hcache.symm.trans hnone

/-! ### Calls, writes and the clock -/

private theorem Guarded.setCall (hI : s.Guarded) (c : Nat) (call : GetCall) {phase : GetPhase}
    (hok : s.CallOk phase) :
    ({ s with world := s.world.setCall c call phase }).Guarded :=
  { hI with
    calls := by
      intro c' call' hc'
      by_cases hcc : c' = c
      · subst hcc
        obtain rfl : { call with phase } = call' := by simpa [CacheWorld.setCall] using hc'
        exact hok.of_le (fun _ h => h) fun _ h => h
      · have hold : s.world.calls c' = some call' := by
          simpa [CacheWorld.setCall, Function.update_of_ne hcc] using hc'
        exact (hI.calls c' call' hold).of_le (fun _ h => h) fun _ h => h }

/-- Flight `f` is registered. -/
private def launch (s : Stampede) (f : Nat) (inflight : Nat → Option Nat) : Stampede :=
  { s with
    world := { s.world.setFlight f .locking with inflight }
    started := f :: s.started }

private theorem Guarded.launch (hI : s.Guarded) (inflight : Nat → Option Nat) (hf : s.world.flights f = none) :
    (s.launch f inflight).Guarded where
  row := hI.row
  known := by
    intro g hg
    by_cases hgf : g = f
    · exact hgf ▸ List.mem_cons_self
    · refine List.mem_cons_of_mem _ (hI.known g ?_)
      simpa [Stampede.launch, CacheWorld.setFlight, Function.update_of_ne hgf] using hg
  phases := by
    intro g phase hg
    by_cases hgf : g = f
    · subst hgf
      obtain rfl : FlightPhase.locking = phase := by simpa [Stampede.launch, CacheWorld.setFlight] using hg
      trivial
    · have hold : s.world.flights g = some phase := by
        simpa [Stampede.launch, CacheWorld.setFlight, Function.update_of_ne hgf] using hg
      have hok := hI.phases g phase hold
      cases phase <;> exact hok
  owned := by
    intro g hg
    obtain ⟨phase, hphase, howns⟩ := hI.owned g hg
    have hgf : g ≠ f := by
      rintro rfl
      rw [hf] at hphase
      cases hphase
    exact ⟨phase, by simpa [Stampede.launch, CacheWorld.setFlight, Function.update_of_ne hgf] using hphase, howns⟩
  inTime := hI.inTime
  count := hI.count
  calls := fun c call hc => (hI.calls c call hc).of_le (fun _ h => h) fun _ h => update_ne_none h

/-- Rows and writers may change in any way, as long as there is an event. -/
private theorem Guarded.of_rows {world : CacheWorld} (hI : s.Guarded) (hrow : world.db.row ≠ none)
    (hkeys : world.keys = s.world.keys) (hflights : world.flights = s.world.flights)
    (hcalls : world.calls = s.world.calls) :
    ({ s with world }).Guarded := by
  obtain ⟨db, keys, inflight, flights, calls, writers, completed, returned⟩ := world
  cases hkeys
  cases hflights
  cases hcalls
  exact
    { hI with
      row := hrow
      phases := fun g phase hg => by
        have hok := hI.phases g phase hg
        cases phase <;> exact hok
      calls := fun c call hc => (hI.calls c call hc).of_le (fun _ h => h) fun _ h => h }

/-- Clearing an empty cache changes nothing. -/
private theorem clear_empty {keys : MetaKeys} (h : keys.cache = none) : { keys with cache := none } = keys := by
  cases keys
  cases h
  rfl

private theorem guarded_tick {ms : Nat} (hI : s.Guarded) (hT : s.InTime (.tick ms)) (hP : s.Prompt (.tick ms)) :
    ({ s with now := s.now + ms }).Guarded :=
  { hI with
    phases := fun g phase hg => by
      have hg' : s.world.flights g = some phase := hg
      have hok := hI.phases g phase hg
      have hstarted : g ∈ s.started := hI.known g (by simp [hg'])
      cases phase with
      | polling =>
        intro hnone
        obtain ⟨hlock, deadline, hdeadline, -⟩ := hok hnone
        have hwait := (hT.1 ms rfl (Option.isSome_iff_ne_none.2 hlock)).2 g hstarted (by rw [hg']; rfl)
        exact ⟨hlock, deadline, hdeadline, hwait deadline hdeadline⟩
      | pausing =>
        obtain ⟨deadline, hdeadline, -⟩ := hok
        exact ⟨deadline, hdeadline, hP ms rfl g hstarted (by rw [hg']; rfl) deadline hdeadline⟩
      | _ => exact hok
    inTime := fun hlock => (hT.1 ms rfl (Option.isSome_iff_ne_none.2 hlock)).1
    calls := fun c call hc => (hI.calls c call hc).of_le (fun _ h => h) fun _ h => h }

private theorem guarded_cancel {c : Nat} (hI : s.Guarded) : ({ s with cancelled := c :: s.cancelled }).Guarded :=
  { hI with
    phases := fun g phase hg => by
      have hok := hI.phases g phase hg
      cases phase <;> exact hok
    calls := fun c call hc => (hI.calls c call hc).of_le (fun _ h => h) fun _ h => h }

/-- A task that begins to run gets its deadline; nobody has looked at it before. -/
private theorem guarded_run {deadline : Nat} (hI : s.Guarded) (hnone : s.deadline f = none) :
    ({ s with deadline := Function.update s.deadline f (some deadline) }).Guarded := by
  have hearly : ∀ g, s.Early g → Early { s with deadline := Function.update s.deadline f (some deadline) } g := by
    rintro g ⟨deadline', hg, hlt⟩
    have hgf : g ≠ f := by
      rintro rfl
      rw [hnone] at hg
      cases hg
    exact ⟨deadline', by simpa [Function.update_of_ne hgf] using hg, hlt⟩
  exact
    { hI with
      phases := fun g phase hg => by
        have hok := hI.phases g phase hg
        cases phase with
        | polling => exact fun hempty => ⟨(hok hempty).1, hearly g (hok hempty).2⟩
        | pausing => exact hearly g hok
        | _ => exact hok
      calls := fun c call hc => (hI.calls c call hc).of_le (fun _ h => h) fun _ h => h }

private theorem guarded_join {c f g : Nat} {call : GetCall} (hI : s.Guarded)
    (hg : s.world.joinable call.proc = some g) :
    (s.note (.join c f) (s.world.setCall c call (.waiting g))).Guarded := by
  have hjoin : s.CallOk (.waiting g) := by
    obtain ⟨-, hany⟩ := Option.filter_eq_some_iff.1 hg
    intro hnone
    simp [hnone] at hany
  have hnote : s.note (.join c f) (s.world.setCall c call (.waiting g)) =
      { s with world := s.world.setCall c call (.waiting g) } := by
    refine if_neg ?_
    rintro ⟨hnone, hsome⟩
    rw [Option.isNone_iff_eq_none] at hnone
    simp [CacheWorld.setCall, hnone] at hsome
  rw [hnote]
  exact hI.setCall c call hjoin

private theorem guarded_register {c f : Nat} {call : GetCall} (hI : s.Guarded) (hfree : s.world.flights f = none) :
    (s.note (.join c f) { (s.world.setCall c call (.waiting f)).setFlight f .locking with
      inflight := Function.update s.world.inflight call.proc (some f) }).Guarded := by
  have hwaiting : ∀ inflight, (s.launch f inflight).CallOk (.waiting f) := by
    intro inflight
    simp [CallOk, launch, CacheWorld.setFlight]
  have hnew := (hI.launch _ hfree).setCall c call (hwaiting (Function.update s.world.inflight call.proc (some f)))
  simp only [note]
  rw [if_pos ⟨Option.isNone_iff_eq_none.2 hfree, by simp [CacheWorld.setFlight]⟩]
  exact hnew

theorem guarded_step {a : StampedeAct} (hC : s.Orderly a) (h : s.step a = some s') (hI : s.Guarded) : s'.Guarded := by
  cases a with
  | tick ms =>
    cases h
    exact guarded_tick hI hC.2.1 hC.2.2
  | cancel c =>
    cases h
    exact guarded_cancel hI
  | run f =>
    simp only [step] at h
    split at h
    · rename_i hcan
      cases h
      exact guarded_run hI (Option.isNone_iff_eq_none.1 hcan.2)
    · cases h
  | cache a =>
    obtain ⟨hen, world, hworld, rfl⟩ := step_cache h
    cases CacheWorld.step_move hworld with
    | flight hphase hstep =>
      refine guarded_flight hI ?_ hC.2.1 h
      rintro rfl
      cases hC.1.1
    | expireCache =>
      have hempty := Option.isNone_iff_eq_none.1 (hC.1.2 rfl)
      exact hI.of_rows hI.row (clear_empty hempty) rfl rfl
    | expireLock =>
      have hexpired : s.lockUntil ≤ s.now := of_decide_eq_true hen
      -- nobody holds the lock, since no holder overruns
      have hfree : s.world.keys.lock = none := by
        by_contra hheld
        exact absurd (hI.inTime hheld) (by omega)
      refine hI.of_rows hI.row ?_ rfl rfl
      show { s.world.keys with lock := none } = s.world.keys
      rw [← hfree]
    | start hfree => exact hI.setCall _ _ trivial
    | @read c call hcall hphase =>
      refine hI.setCall c call ?_
      cases hm : s.world.keys.cache with
      | none => trivial
      | some m => exact ⟨m, rfl, hm⟩
    | join hcall hphase hg => exact guarded_join hI hg
    | launch hcall hphase hnone hfree => exact guarded_register hI hfree
    | answer hcall hphase hdone => exact hI.setCall _ _ (hI.phases _ _ hdone)
    | publish hwr hdb hstage => exact hI.of_rows (EventDb.commit_row hdb) rfl rfl rfl
    | patch hwr hdb hstage => exact hI.of_rows (EventDb.commit_row hdb) rfl rfl rfl
    | clear hwr hstage => exact hI.of_rows hI.row (clear_empty (Option.isNone_iff_eq_none.1 (hC.1.2 rfl))) rfl rfl
    | invalidate hwr hstage =>
        exact hI.of_rows hI.row (clear_empty (Option.isNone_iff_eq_none.1 (hC.1.2 rfl))) rfl rfl
    | begin hfree => exact hI.of_rows hI.row rfl rfl rfl
    | finish hwr hstage => exact hI.of_rows hI.row rfl rfl rfl

/-- The holder has read the event once at most, and without a holder the counts tell. -/
theorem Guarded.loads_le (hI : s.Guarded) : s.loads ≤ 1 := by
  cases hm : s.world.keys.cache with
  | some m => exact (hI.count.1 m hm).1.le
  | none =>
    cases hlock : s.world.keys.lock with
    | none => simp [(hI.count.2 hm hlock).1]
    | some f =>
      obtain ⟨phase, hphase, howns⟩ := hI.owned f hlock
      have hok := hI.phases f phase hphase
      cases phase with
      | locking | polling | pausing | done result => cases howns
      | checking => simp [(hok.2 hm).1]
      | loading locked => simp [hok.2.2.2.1]
      | pricing locked row | filling locked m => exact hok.2.2.2.1.le
      | releasing result =>
        obtain ⟨m, -, hfilled⟩ := hok.2
        cases hm.symm.trans hfilled

/-! ### Every flight comes to its end -/

@[simp]
theorem note_world (a : CacheAct) (world : CacheWorld) : (s.note a world).world = world := by
  unfold note
  split
  · rfl
  · rfl
  · rfl
  · split <;> rfl
  · rfl

@[simp]
theorem note_cancelled (a : CacheAct) (world : CacheWorld) : (s.note a world).cancelled = s.cancelled := by
  unfold note
  split
  · rfl
  · rfl
  · rfl
  · split <;> rfl
  · rfl

/-- Only the clock, a flight that finds the lock taken, a deletion and an exception can be out of order. -/
private theorem orderly_cache {a : CacheAct} (hraise : (StampedeAct.cache a).raises = false)
    (hdrop : (StampedeAct.cache a).drops = false)
    (hlock : (StampedeAct.cache a).locks = none ∨ s.world.keys.lock = none) : s.Orderly (.cache a) := by
  refine ⟨⟨hraise, fun h => ?_⟩, ⟨nofun, fun f hf htaken => ?_⟩, nofun⟩
  · rw [hdrop] at h
    cases h
  · rcases hlock with hlock | hlock
    · rw [hlock] at hf
      cases hf
    · rw [hlock] at htaken
      cases htaken

/-- Flight `f` can come to its end with the lock released, and nothing else happens. -/
private def Ends (s : Stampede) (f : Nat) : Prop :=
  ∃ s' m, Reach step Orderly s s' ∧ s'.world.calls = s.world.calls ∧ s'.cancelled = s.cancelled ∧
    (∀ g, g ≠ f → s'.world.flights g = s.world.flights g) ∧ s'.world.flights f = some (.done (.found m)) ∧
    s'.world.keys = ⟨some m, none⟩

private theorem Ends.of_step {phase phase' : FlightPhase} {keys : MetaKeys} (hI : s.Guarded)
    (hphase : s.world.flights f = some phase) (hen : s.enabled (.flight f a) = true)
    (hstep : phase.step f s.world.db s.world.keys a = some (keys, phase')) (hC : s.Orderly (.cache (.flight f a)))
    (hnext : ∀ t : Stampede, t.Guarded → t.world.flights f = some phase' → t.Ends f) : s.Ends f := by
  have ht := flight_step hen hphase hstep
  obtain ⟨s', m, hreach, hcalls, hcancelled, hothers, hdone, hkeys⟩ :=
    hnext _ (guarded_step hC ht hI) (by simp [CacheWorld.setFlight])
  refine ⟨s', m, (Reach.single hC ht).trans hreach, ?_, ?_, fun g hg => ?_, hdone, hkeys⟩
  · simpa [CacheWorld.setFlight] using hcalls
  · simpa using hcancelled
  · simpa [CacheWorld.setFlight, Function.update_of_ne hg] using hothers g hg

private theorem ends_releasing {result : LoadResult} (hI : s.Guarded)
    (hf : s.world.flights f = some (.releasing result)) :
    s.Ends f := by
  obtain ⟨hlock, m, rfl, hcache⟩ := hI.phases f _ hf
  have hC : s.Orderly (.cache (.flight f .release)) := orderly_cache rfl rfl (.inl rfl)
  have ht := flight_step (s := s) (a := .release) rfl hf rfl
  refine ⟨_, m, Reach.single hC ht, ?_, ?_, fun g hg => ?_, ?_, ?_⟩
  · simp [CacheWorld.setFlight]
  · simp
  · simp [CacheWorld.setFlight, Function.update_of_ne hg]
  · simp [CacheWorld.setFlight]
  · simp [hlock, hcache]

private theorem ends_filling {locked : Bool} {m : LoadedMeta} (hI : s.Guarded)
    (hf : s.world.flights f = some (.filling locked m)) : s.Ends f := by
  obtain ⟨rfl, -⟩ := hI.phases f _ hf
  exact .of_step (a := .fill) hI hf rfl rfl (orderly_cache rfl rfl (.inl rfl)) fun _ ht => ends_releasing ht

private theorem ends_pricing {locked : Bool} {row : Versioned MetaRow} (hI : s.Guarded)
    (hf : s.world.flights f = some (.pricing locked row)) : s.Ends f :=
  .of_step (a := .loadPrices) hI hf rfl rfl (orderly_cache rfl rfl (.inl rfl)) fun _ ht => ends_filling ht

private theorem ends_loading {locked : Bool} (hI : s.Guarded)
    (hf : s.world.flights f = some (.loading locked)) : s.Ends f := by
  obtain ⟨row, hrow⟩ := Option.ne_none_iff_exists'.1 hI.row
  have hstep : (FlightPhase.loading locked).step f s.world.db s.world.keys .loadRow =
      some (s.world.keys, .pricing locked row) := by
    simp only [FlightPhase.step, hrow, Option.elim_some]
  exact .of_step hI hf rfl hstep (orderly_cache rfl rfl (.inl rfl)) fun _ ht => ends_pricing ht

private theorem ends_checking (hI : s.Guarded) (hf : s.world.flights f = some .checking) : s.Ends f := by
  have hC : s.Orderly (.cache (.flight f .check)) := orderly_cache rfl rfl (.inl rfl)
  cases hm : s.world.keys.cache with
  | none =>
    have hstep : FlightPhase.checking.step f s.world.db s.world.keys .check = some (s.world.keys, .loading true) := by
      simp only [FlightPhase.step, hm, Option.elim_none]
    exact .of_step hI hf rfl hstep hC fun _ ht => ends_loading ht
  | some m =>
    have hstep : FlightPhase.checking.step f s.world.db s.world.keys .check =
        some (s.world.keys, .releasing (.found m)) := by
      simp only [FlightPhase.step, hm, Option.elim_some]
    exact .of_step hI hf rfl hstep hC fun _ ht => ends_releasing ht

private theorem ends_holder (hI : s.Guarded) (hlock : s.world.keys.lock = some f) : s.Ends f := by
  obtain ⟨phase, hf, howns⟩ := hI.owned f hlock
  cases phase with
  | locking | polling | pausing | done result => cases howns
  | checking => exact ends_checking hI hf
  | loading locked => exact ends_loading hI hf
  | pricing locked row => exact ends_pricing hI hf
  | filling locked m => exact ends_filling hI hf
  | releasing result => exact ends_releasing hI hf

/-- The lock can come free; what waits goes on waiting, and if there was a holder the cache is filled. -/
private theorem lock_comes_free (hI : s.Guarded) :
    ∃ s', Reach step Orderly s s' ∧ s'.Guarded ∧ s'.world.calls = s.world.calls ∧ s'.cancelled = s.cancelled ∧
      (∀ g phase, s.world.flights g = some phase → phase.owns = false → s'.world.flights g = some phase) ∧
      s'.world.keys.lock = none ∧ (s.world.keys.lock ≠ none → s'.world.keys.cache ≠ none) := by
  cases hlock : s.world.keys.lock with
  | none => exact ⟨s, .refl s, hI, rfl, rfl, fun _ _ h _ => h, hlock, fun h => absurd rfl h⟩
  | some f =>
    obtain ⟨s', m, hreach, hcalls, hcancelled, hothers, -, hkeys⟩ := ends_holder hI hlock
    refine ⟨s', hreach, hreach.invariant (fun _ _ _ => guarded_step) hI, hcalls, hcancelled,
      fun g phase hg hnot => ?_, ?_, fun _ => ?_⟩
    · have hgf : g ≠ f := by
        rintro rfl
        obtain ⟨phase', hphase', howns⟩ := hI.owned g hlock
        obtain rfl := Option.some.inj (hg.symm.trans hphase')
        rw [hnot] at howns
        cases howns
      rw [hothers g hgf]
      exact hg
    · rw [hkeys]
    · rw [hkeys]
      exact Option.some_ne_none m

/-- Flight `f` can come to its end, and no call does anything. -/
private def Finishes (s : Stampede) (f : Nat) : Prop :=
  ∃ s' m, Reach step Orderly s s' ∧ s'.world.calls = s.world.calls ∧ s'.cancelled = s.cancelled ∧
    s'.world.flights f = some (.done (.found m))

private theorem Ends.finishes (h : s.Ends f) : s.Finishes f := by
  obtain ⟨s', m, hreach, hcalls, hcancelled, -, hdone, -⟩ := h
  exact ⟨s', m, hreach, hcalls, hcancelled, hdone⟩

private theorem Finishes.of_reach (hreach : Reach step Orderly s s') (hcalls : s'.world.calls = s.world.calls)
    (hcancelled : s'.cancelled = s.cancelled) (h : s'.Finishes f) : s.Finishes f := by
  obtain ⟨t, m, ht, hcalls', hcancelled', hdone⟩ := h
  exact ⟨t, m, hreach.trans ht, hcalls'.trans hcalls, hcancelled'.trans hcancelled, hdone⟩

/-- The task of a flight runs, or can begin to. -/
private theorem task_runs (hI : s.Guarded) (hf : s.world.flights f ≠ none) :
    ∃ s', Reach step Orderly s s' ∧ s'.Guarded ∧ s'.world = s.world ∧ s'.cancelled = s.cancelled ∧
      (s'.deadline f).isSome = true := by
  cases hdeadline : s.deadline f with
  | some deadline => exact ⟨s, .refl s, hI, rfl, rfl, by rw [hdeadline]; rfl⟩
  | none =>
    have hC : s.Orderly (.run f) := ⟨⟨rfl, nofun⟩, ⟨nofun, nofun⟩, nofun⟩
    have hstep : s.step (.run f) = some
        { s with deadline := Function.update s.deadline f (some (s.now + lockWaitMs)) } :=
      if_pos ⟨Option.isSome_iff_ne_none.2 hf, by rw [hdeadline]; rfl⟩
    exact ⟨_, Reach.single hC hstep, guarded_step hC hstep hI, rfl, rfl, by simp⟩

private theorem finishes_locking (hI : s.Guarded) (hf : s.world.flights f = some .locking) : s.Finishes f := by
  obtain ⟨t, hreach, ht, hcalls, hcancelled, hwaiting, hfree, -⟩ := lock_comes_free hI
  have hlocking : t.world.flights f = some .locking := hwaiting f _ hf rfl
  obtain ⟨u, hreach', hu, hworld, hcancelled', hruns⟩ := task_runs (f := f) ht (by simp [hlocking])
  rw [← hworld] at hlocking hcalls hfree
  have hen : u.enabled (.flight f .lock) = true := hruns
  have hstep : FlightPhase.locking.step f u.world.db u.world.keys .lock =
      some ({ u.world.keys with lock := some f }, .checking) := by
    simp only [FlightPhase.step, hfree, Option.isNone_none, if_true]
  have hC : u.Orderly (.cache (.flight f .lock)) := orderly_cache rfl rfl (.inr hfree)
  have hends : u.Ends f := .of_step hu hlocking hen hstep hC fun _ hv => ends_checking hv
  exact .of_reach (hreach.trans hreach') hcalls (hcancelled'.trans hcancelled) hends.finishes

private theorem finishes_polling (hI : s.Guarded) (hf : s.world.flights f = some .polling) : s.Finishes f := by
  -- the cache is filled, or the holder fills it
  obtain ⟨t, hreach, hcalls, hcancelled, hpolling, m, hm⟩ : ∃ t, Reach step Orderly s t ∧
    t.world.calls = s.world.calls ∧
      t.cancelled = s.cancelled ∧ t.world.flights f = some .polling ∧ ∃ m, t.world.keys.cache = some m := by
    cases hm : s.world.keys.cache with
    | some m => exact ⟨s, .refl s, rfl, rfl, hf, m, hm⟩
    | none =>
      obtain ⟨t, hreach, -, hcalls, hcancelled, hwaiting, -, hfilled⟩ := lock_comes_free hI
      have hheld : s.world.keys.lock ≠ none := (hI.phases f _ hf hm).1
      exact ⟨t, hreach, hcalls, hcancelled, hwaiting f _ hf rfl, Option.ne_none_iff_exists'.1 (hfilled hheld)⟩
  have hstep : FlightPhase.polling.step f t.world.db t.world.keys .poll = some (t.world.keys, .done (.found m)) := by
    simp only [FlightPhase.step, hm, Option.elim_some]
  have hC : t.Orderly (.cache (.flight f .poll)) := orderly_cache rfl rfl (.inl rfl)
  refine .of_reach hreach hcalls hcancelled ⟨_, m, Reach.single hC (flight_step rfl hpolling hstep), ?_, ?_, ?_⟩
  · simp [CacheWorld.setFlight]
  · simp
  · simp [CacheWorld.setFlight]

private theorem finishes_pausing (hI : s.Guarded) (hf : s.world.flights f = some .pausing) : s.Finishes f := by
  obtain ⟨deadline, hdeadline, hlt⟩ := hI.phases f _ hf
  have hC : s.Orderly (.cache (.flight f .sleep)) := orderly_cache rfl rfl (.inl rfl)
  have hen : s.enabled (.flight f .sleep) = true := by simpa [enabled, hdeadline] using hlt
  have ht := flight_step hen hf rfl
  have hlocking := finishes_locking (f := f) (guarded_step hC ht hI) (by simp [CacheWorld.setFlight])
  exact .of_reach (Reach.single hC ht) (by simp [CacheWorld.setFlight]) (by simp) hlocking

private theorem finishes (hI : s.Guarded) (hf : s.world.flights f ≠ none) : s.Finishes f := by
  obtain ⟨phase, hphase⟩ := Option.ne_none_iff_exists'.1 hf
  cases phase with
  | locking => exact finishes_locking hI hphase
  | polling => exact finishes_polling hI hphase
  | pausing => exact finishes_pausing hI hphase
  | checking => exact (ends_checking hI hphase).finishes
  | loading locked => exact (ends_loading hI hphase).finishes
  | pricing locked row => exact (ends_pricing hI hphase).finishes
  | filling locked m => exact (ends_filling hI hphase).finishes
  | releasing result => exact (ends_releasing hI hphase).finishes
  | done result =>
    obtain ⟨m, rfl, -⟩ := hI.phases f _ hphase
    exact ⟨s, m, .refl s, rfl, rfl, hphase⟩

/-! ### Every call can be answered -/

/-- The call can be answered with the one loaded value. -/
def Answerable (s : Stampede) (c : Nat) : Prop :=
  ∃ s' call m, Reach step Orderly s s' ∧ s'.world.calls c = some call ∧ call.phase = .answered (.found m) ∧
    s'.loaded = [m]

private theorem Answerable.of_reach {c : Nat} (hreach : Reach step Orderly s s') (h : s'.Answerable c) :
    s.Answerable c := by
  obtain ⟨t, call, m, ht, hc⟩ := h
  exact ⟨t, call, m, hreach.trans ht, hc⟩

private theorem answerable_answered {c : Nat} {call : GetCall} {result : LoadResult} (hI : s.Guarded)
    (hc : s.world.calls c = some call) (hphase : call.phase = .answered result) : s.Answerable c := by
  have hok := hI.calls c call hc
  rw [hphase] at hok
  obtain ⟨m, rfl, hm⟩ := hok
  exact ⟨s, call, m, .refl s, hc, hphase, (hI.count.1 m hm).2⟩

private theorem called (a : CacheAct) (c : Nat) (call : GetCall) (phase : GetPhase) :
    (s.note a (s.world.setCall c call phase)).world.calls c = some { call with phase } := by
  simp [CacheWorld.setCall]

private theorem answerable_waiting {c : Nat} {call : GetCall} (hI : s.Guarded) (hn : c ∉ s.cancelled)
    (hc : s.world.calls c = some call) (hphase : call.phase = .waiting f) : s.Answerable c := by
  have hok := hI.calls c call hc
  rw [hphase] at hok
  obtain ⟨t, m, hreach, hcalls, hcancelled, hdone⟩ := finishes hI hok
  have ht : t.Guarded := hreach.invariant (fun _ _ _ => guarded_step) hI
  rw [← hcalls] at hc
  rw [← hcancelled] at hn
  have hworld : t.world.step (.answer c) = some (t.world.setCall c call (.answered (.found m))) := by
    simp only [CacheWorld.step, hc, Option.bind_some, hphase, hdone]
  have hC : t.Orderly (.cache (.answer c)) := orderly_cache rfl rfl (.inl rfl)
  have hen : t.enabled (.answer c) = true := decide_eq_true hn
  have hstep := cache_step hen hworld
  exact .of_reach (hreach.trans (Reach.single hC hstep))
    (answerable_answered (guarded_step hC hstep ht) (called ..) rfl)

/-- There is always a name for a new flight. -/
private theorem exists_fresh (hI : s.Guarded) : ∃ f, s.world.flights f = none := by
  obtain ⟨f, hf⟩ := Infinite.exists_notMem_finset s.started.toFinset
  rw [List.mem_toFinset] at hf
  exact ⟨f, by_contra fun hne => hf (hI.known f hne)⟩

private theorem run_waits {world : CacheWorld} (c : Nat) (call : GetCall) (hf : world.flights f = none) :
    ∃ world' g, world.run c call f = some world' ∧ world'.calls c = some { call with phase := .waiting g } := by
  unfold CacheWorld.run
  cases hjoin : world.joinable call.proc with
  | some g => exact ⟨_, g, rfl, by simp [CacheWorld.setCall]⟩
  | none => exact ⟨_, f, if_pos (by simp [hf]), by simp [CacheWorld.setCall, CacheWorld.setFlight]⟩

private theorem answerable_missed {c : Nat} {call : GetCall} (hI : s.Guarded) (hn : c ∉ s.cancelled)
    (hc : s.world.calls c = some call) (hphase : call.phase = .missed) : s.Answerable c := by
  obtain ⟨f, hf⟩ := exists_fresh hI
  obtain ⟨world, g, hrun, hwaiting⟩ := run_waits c call hf
  have hworld : s.world.step (.join c f) = some world := by
    simp only [CacheWorld.step, hc, Option.bind_some, hphase, hrun]
  have hC : s.Orderly (.cache (.join c f)) := orderly_cache rfl rfl (.inl rfl)
  have hen : s.enabled (.join c f) = true := decide_eq_true hn
  have hstep := cache_step hen hworld
  rw [← note_world (s := s) (.join c f) world] at hwaiting
  exact .of_reach (Reach.single hC hstep)
    (answerable_waiting (guarded_step hC hstep hI) (by simpa using hn) hwaiting rfl)

private theorem answerable_reading {c : Nat} {call : GetCall} (hI : s.Guarded) (hn : c ∉ s.cancelled)
    (hc : s.world.calls c = some call) (hphase : call.phase = .reading) : s.Answerable c := by
  have hworld : s.world.step (.read c) =
      some (s.world.setCall c call (s.world.keys.cache.elim .missed fun m => .answered (.found m))) := by
    simp only [CacheWorld.step, hc, Option.bind_some, hphase]
  have hC : s.Orderly (.cache (.read c)) := orderly_cache rfl rfl (.inl rfl)
  have hen : s.enabled (.read c) = true := decide_eq_true hn
  have hstep := cache_step hen hworld
  refine .of_reach (Reach.single hC hstep) ?_
  cases hm : s.world.keys.cache with
  | none =>
    rw [hm] at hstep
    exact answerable_missed (guarded_step hC hstep hI) (by simpa using hn) (called ..) rfl
  | some m =>
    rw [hm] at hstep
    exact answerable_answered (guarded_step hC hstep hI) (called ..) rfl

private theorem answerable {c : Nat} {call : GetCall} (hI : s.Guarded) (hn : c ∉ s.cancelled)
    (hc : s.world.calls c = some call) : s.Answerable c := by
  cases hphase : call.phase with
  | reading => exact answerable_reading hI hn hc hphase
  | missed => exact answerable_missed hI hn hc hphase
  | waiting f => exact answerable_waiting hI hn hc hphase
  | answered result => exact answerable_answered hI hc hphase

/-! ### A lock goes by its holder or by expiry -/

/-- A lock goes although its holder does not release it and its time is not over. -/
def LosesLock (s : Stampede) (a : StampedeAct) (s' : Stampede) : Prop :=
  ∃ f, s.world.keys.lock = some f ∧ s'.world.keys.lock ≠ some f ∧ a ≠ .cache (.flight f .release) ∧
    ¬(a = .cache .expireLock ∧ s.lockUntil ≤ s.now)

end Stampede

private theorem CacheWorld.step_lock {s s' : CacheWorld} {a : CacheAct} (h : s.step a = some s')
    (hexpire : a ≠ .expireLock) (hflight : ∀ f b, a ≠ .flight f b) : s'.keys.lock = s.keys.lock := by
  cases CacheWorld.step_move h with
  | expireLock => exact absurd rfl hexpire
  | @flight f b => exact absurd rfl (hflight f b)
  | _ => rfl

/-- A flight takes away no lock but its own, also when it raises. -/
private theorem FlightPhase.step_lock {f g : Nat} {db : EventDb} {keys keys' : MetaKeys} {phase phase' : FlightPhase}
    {a : FlightAct} (h : phase.step f db keys a = some (keys', phase')) (hlock : keys.lock = some g)
    (hkeep : ¬(f = g ∧ a = .release)) : keys'.lock = some g := by
  by_cases ha : a = .fail
  · subst ha
    obtain ⟨_, _, hout⟩ := Option.map_eq_some_iff.1 h
    cases hout
    exact hlock
  · cases step_move h ha with
    | acquire hfree => cases hlock.symm.trans hfree
    | release result =>
      have hne : keys.lock ≠ some f := by
        intro hown
        exact hkeep ⟨Option.some.inj (hown.symm.trans hlock), rfl⟩
      simpa [hne] using hlock
    | _ => exact hlock

namespace Stampede

variable {s s' : Stampede}

theorem not_losesLock {a : StampedeAct} (h : s.step a = some s') : ¬s.LosesLock a s' := by
  rintro ⟨f, hlock, hlost, hrelease, hexpire⟩
  refine hlost ?_
  cases a with
  | tick ms | cancel c =>
    cases h
    exact hlock
  | run f =>
    simp only [step] at h
    split at h
    · cases h
      exact hlock
    · cases h
  | cache a =>
    obtain ⟨hen, world, hworld, rfl⟩ := step_cache h
    rw [note_world]
    by_cases hexpires : a = .expireLock
    · subst hexpires
      exact absurd ⟨rfl, of_decide_eq_true hen⟩ hexpire
    · by_cases hflight : ∃ g b, a = .flight g b
      · obtain ⟨g, b, rfl⟩ := hflight
        obtain ⟨-, phase, keys, phase', -, hstep, hs⟩ := step_flight h
        have hkeys : world.keys = keys := by simpa using congrArg (fun t => t.world.keys) hs
        rw [hkeys]
        refine FlightPhase.step_lock hstep hlock ?_
        rintro ⟨rfl, rfl⟩
        exact hrelease rfl
      · rw [CacheWorld.step_lock hworld hexpires fun g b hgb => hflight ⟨g, b, hgb⟩]
        exact hlock

/-! ### One load -/

/-- When the holders are in time, no waiter that has found the cache empty gets to its clock too late and
nothing raises or clears the filled cache, there is one load at most, every answer is the loaded value and
every call that is not cancelled can be answered with it.  In every run, a lock goes only by its holder or
when its time is over. -/
theorem stampede_protection (row : MetaRow) (prices : Hash ZoneId Int) {acts : List StampedeAct} {s : Stampede}
    (h : exec step (start row prices) acts = some s) :
    (Along step Orderly (start row prices) acts →
      s.loads ≤ 1 ∧
      (∀ c call result, s.world.calls c = some call → call.phase = .answered result →
        ∃ m, result = .found m ∧ s.loaded = [m]) ∧
      ∀ c call, s.world.calls c = some call → c ∉ s.cancelled → s.Answerable c) ∧
    ¬Occurs step LosesLock (start row prices) acts := by
  constructor
  · intro hC
    have hI : s.Guarded := exec_invariant (fun _ _ _ => guarded_step) (guarded_start row prices) hC h
    refine ⟨hI.loads_le, fun c call result hc hphase => ?_, fun c call hc hn => answerable hI hn hc⟩
    have hok := hI.calls c call hc
    rw [hphase] at hok
    obtain ⟨m, hm, hcache⟩ := hok
    exact ⟨m, hm, (hI.count.1 m hcache).2⟩
  · refine Along.not_occurs (C := fun _ _ => True) (I := fun _ => True) ?_ ?_ trivial
      (.of_forall fun _ _ _ => trivial)
    · exact fun _ _ _ _ _ _ => trivial
    · exact fun _ _ _ _ hstep _ => not_losesLock hstep

/-! ### Two processes -/

private def sample : MetaRow where
  status := .published
  saleStartsAt := 0
  saleEndsAt := 100
  priceCents := some 500

/-- A call in its own process finds nothing in the cache and starts a flight. -/
private def call (c f : Nat) : List StampedeAct := [.cache (.start c c), .cache (.read c), .cache (.join c f), .run f]

private def flight (f : Nat) (as : List FlightAct) : List StampedeAct := as.map fun a => .cache (.flight f a)

/-- The first flight has the lock, the second one has found it taken and the cache empty. -/
private def contended : List StampedeAct :=
  call 0 0 ++ call 1 1 ++ flight 0 [.lock, .check] ++ flight 1 [.lock, .poll] ++
    .tick 1000 :: flight 0 [.loadRow, .loadPrices, .fill, .release]

/-- The waiter gets to its clock late. -/
private def heldUp : List StampedeAct := contended ++ .tick 2500 :: flight 1 [.giveUp, .loadRow]

/-- The waiter sleeps and takes the lock, while the call that started the first flight is cancelled. -/
private def goesOn : List StampedeAct := contended ++ .cancel 0 :: flight 1 [.sleep, .lock, .check]

/-- The holder fills the cache and releases the lock long before the waiter's deadline, but the waiter, which
has already seen an empty cache, looks at its clock only after it, and loads as well. -/
theorem second_load :
    ∃ s, Along step (fun s a => s.Calm a ∧ s.InTime a) (start sample ∅) heldUp ∧
      exec step (start sample ∅) heldUp = some s ∧ s.loads = 2 := by
  obtain ⟨s, hs, hp⟩ := exec_any step (start sample ∅) heldUp (fun s => s.loads = 2) (by decide +kernel)
  rw [decide_eq_true_eq] at hp
  exact ⟨s, .of_check (by decide +kernel), hs, hp⟩

theorem waiter_served :
    ∃ s, exec step (start sample ∅) goesOn = some s ∧ 0 ∈ s.cancelled ∧ s.loads ≤ 1 ∧ s.Answerable 1 ∧
      ¬Occurs step LosesLock (start sample ∅) goesOn := by
  obtain ⟨s, hs, hp⟩ := exec_any step (start sample ∅) goesOn
    (fun s => 0 ∈ s.cancelled ∧ 1 ∉ s.cancelled ∧ (s.world.calls 1).isSome = true) (by decide +kernel)
  rw [decide_eq_true_eq] at hp
  obtain ⟨hzero, hone, hcall⟩ := hp
  obtain ⟨c, hc⟩ := Option.isSome_iff_exists.1 hcall
  have hmain := stampede_protection sample ∅ hs
  obtain ⟨hloads, -, hanswer⟩ := hmain.1 (.of_check (by decide +kernel))
  exact ⟨s, hs, hzero, hloads, hanswer 1 c hc hone, hmain.2⟩

end Stampede

end Ticketing
