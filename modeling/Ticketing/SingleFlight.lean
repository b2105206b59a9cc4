import Mathlib.Data.List.Basic
import Mathlib.Logic.Function.Basic
import Ticketing.Base.Exec

/-!
# Coalescing

`app/core/singleflight.py` on one event loop.  A call of `run` is atomic up to its `await`.  What it awaits is
the future of `asyncio.shield`, which is not the task of the computation: cancelling the caller cancels the
former only.  A task that ends hands its done callbacks to the loop, which may execute them in any order and
after anything else.

Between the end of a task and its `_forget` a caller may register a new task under the same key.  So the entry
of a key belongs to the only unfinished task of that key, or to a task whose `_forget` is still to come
(`Registry`).  A caller is served by the task it found (`Served`).
-/

namespace Ticketing

open Exec

/-- How a future ends. -/
inductive FlightOutcome (V E : Type*) where
  | value (v : V)
  | error (e : E)
  /-- `CancelledError` -/
  | cancelled
deriving DecidableEq

/-- The done callbacks of a task. -/
inductive TaskCallback (K : Type*) where
  /-- `functools.partial(self._forget, key)` -/
  | forget (key : K)
  /-- `_inner_done_callback` of the shield of a caller -/
  | innerDone (caller : Nat)
deriving DecidableEq

/-- The callbacks handed to the loop, with the future that ended. -/
inductive Callback (K : Type*) where
  | forget (key : K) (task : Nat)
  | innerDone (task caller : Nat)
  /-- `_outer_done_callback` of the shield -/
  | outerDone (caller : Nat)
  /-- The caller goes on. -/
  | wakeup (caller : Nat)
deriving DecidableEq

/-- A task that ends informs a shield. -/
def Callback.isInner {K : Type*} : Callback K → Bool
  | innerDone _ _ => true
  | _ => false

def TaskCallback.schedule {K : Type*} (task : Nat) : TaskCallback K → Callback K
  | forget key => .forget key task
  | innerDone caller => .innerDone task caller

/-- The task of a computation for `key`. -/
structure FlightTask (K V E : Type*) where
  key : K
  outcome : Option (FlightOutcome V E) := none
  callbacks : List (TaskCallback K) := []

/-- A call of `run` that awaits the shield `outer` of the task `inner`. -/
structure FlightCaller (K V E : Type*) where
  key : K
  inner : Nat
  outer : Option (FlightOutcome V E) := none
  /-- The caller was cancelled after the end of the future it awaits. -/
  mustCancel : Bool := false
  /-- How often the caller was cancelled. -/
  cancelling : Nat := 0
  /-- What `run` returned or raised. -/
  answer : Option (FlightOutcome V E) := none

/-- The registry, with the tasks and callers of the loop. -/
structure SingleFlight (K V E : Type*) where
  inflight : K → Option Nat := fun _ => none
  tasks : List (FlightTask K V E) := []
  callers : List (FlightCaller K V E) := []
  ready : List (Callback K) := []

inductive LoopAct (K V E : Type*) where
  | run (key : K)
  /-- The computation of a task returns or raises. -/
  | finish (task : Nat) (outcome : FlightOutcome V E)
  /-- Somebody cancels a caller. -/
  | cancel (caller : Nat)
  /-- The loop executes a callback. -/
  | callback (cb : Callback K)

namespace SingleFlight

variable {K V E : Type*} [DecidableEq K]

def outcome (s : SingleFlight K V E) (t : Nat) : Option (FlightOutcome V E) := s.tasks[t]?.bind FlightTask.outcome

/-- `create_task`, registered under the key. -/
def start (s : SingleFlight K V E) (key : K) : SingleFlight K V E × Nat :=
  ({ s with
      tasks := s.tasks ++ [{ key, callbacks := [.forget key] }]
      inflight := Function.update s.inflight key (some s.tasks.length) }, s.tasks.length)

/-- The task a caller of `run` takes. -/
def flight (s : SingleFlight K V E) (key : K) : SingleFlight K V E × Nat :=
  (s.inflight key).elim (s.start key) fun t => if (s.outcome t).isSome then s.start key else (s, t)

/-- A caller begins to await `asyncio.shield` of a task. -/
def shield (s : SingleFlight K V E) (key : K) (t : Nat) : SingleFlight K V E :=
  if (s.outcome t).isSome then
    { s with callers := s.callers ++ [{ key, inner := t, outer := s.outcome t, answer := s.outcome t }] }
  else
    { s with
      tasks := s.tasks.modify t fun task => { task with callbacks := task.callbacks ++ [.innerDone s.callers.length] }
      callers := s.callers ++ [{ key, inner := t }] }

def run (s : SingleFlight K V E) (key : K) : SingleFlight K V E := (s.flight key).1.shield key (s.flight key).2

def finish (s : SingleFlight K V E) (t : Nat) (o : FlightOutcome V E) (task : FlightTask K V E) :
    SingleFlight K V E :=
  { s with
    tasks := s.tasks.set t { task with outcome := some o, callbacks := [] }
    ready := s.ready ++ task.callbacks.map (TaskCallback.schedule t) }

/-- The shield of a caller ends. -/
def settle (s : SingleFlight K V E) (c : Nat) (x : FlightCaller K V E) (o : FlightOutcome V E) : SingleFlight K V E :=
  { s with
    callers := s.callers.set c { x with outer := some o }
    ready := s.ready ++ [.outerDone c, .wakeup c] }

/-- `Task.cancel` of a caller -/
def cancel (s : SingleFlight K V E) (c : Nat) (x : FlightCaller K V E) : SingleFlight K V E :=
  if x.outer.isSome then
    { s with callers := s.callers.set c { x with mustCancel := true, cancelling := x.cancelling + 1 } }
  else s.settle c { x with cancelling := x.cancelling + 1 } .cancelled

/-- `_forget` -/
def forget (s : SingleFlight K V E) (key : K) (t : Nat) : SingleFlight K V E :=
  if s.inflight key = some t then { s with inflight := Function.update s.inflight key none } else s

/-- `_inner_done_callback`; a shield that has ended stays as it is. -/
def innerDone (s : SingleFlight K V E) (t c : Nat) : SingleFlight K V E :=
  s.callers[c]?.elim s fun x => if x.outer.isSome then s else (s.outcome t).elim s (s.settle c x)

/-- `_outer_done_callback`: the task that has not ended no longer informs the shield. -/
def outerDone (s : SingleFlight K V E) (c : Nat) : SingleFlight K V E :=
  s.callers[c]?.elim s fun x =>
    if (s.outcome x.inner).isSome then s
    else { s with tasks := s.tasks.modify x.inner fun task =>
      { task with callbacks := task.callbacks.filter fun cb => cb ≠ .innerDone c } }

/-- The caller finds its future ended. -/
def wakeup (s : SingleFlight K V E) (c : Nat) : SingleFlight K V E :=
  s.callers[c]?.elim s fun x =>
    let answer := if x.mustCancel then some .cancelled else x.outer
    { s with callers := s.callers.set c { x with answer, mustCancel := false } }

def execute (s : SingleFlight K V E) : Callback K → SingleFlight K V E
  | .forget key t => s.forget key t
  | .innerDone t c => s.innerDone t c
  | .outerDone c => s.outerDone c
  | .wakeup c => s.wakeup c

def step (s : SingleFlight K V E) : LoopAct K V E → Option (SingleFlight K V E)
  | .run key => some (s.run key)
  | .finish t o => s.tasks[t]?.bind fun task => if task.outcome.isNone then some (s.finish t o task) else none
  | .cancel c => s.callers[c]?.bind fun x => if x.answer.isNone then some (s.cancel c x) else none
  | .callback cb => if cb ∈ s.ready then some ({ s with ready := s.ready.erase cb }.execute cb) else none

/-! ### The registry -/

/-- The registry after the actions so far: a task ends when its computation does, an unfinished task is
registered, and an entry belongs to an unfinished task or to one that is about to be forgotten. -/
structure Registry (acts : List (LoopAct K V E)) (s : SingleFlight K V E) : Prop where
  finished : ∀ t o, s.outcome t = some o ↔ .finish t o ∈ acts
  registered : ∀ (t : Nat) (task : FlightTask K V E), s.tasks[t]? = some task → task.outcome = none →
    s.inflight task.key = some t ∧ .forget task.key ∈ task.callbacks
  entry : ∀ key t, s.inflight key = some t → ∃ task : FlightTask K V E, s.tasks[t]? = some task ∧ task.key = key ∧
    (task.outcome = none ∨ Callback.forget key t ∈ s.ready)
  own : ∀ (t : Nat) (task : FlightTask K V E) key, s.tasks[t]? = some task →
    .forget key ∈ task.callbacks → task.key = key
  scheduled : ∀ key t, Callback.forget key t ∈ s.ready → (s.outcome t).isSome

/-- What the registry has to do with of a task. -/
private def registryPart (task : FlightTask K V E) : K × Option (FlightOutcome V E) × List (TaskCallback K) :=
  (task.key, task.outcome, task.callbacks.filter fun cb => cb matches .forget _)

variable {s s' : SingleFlight K V E} {acts : List (LoopAct K V E)} {act : LoopAct K V E}

omit [DecidableEq K] in
theorem outcome_eq {t : Nat} {task : FlightTask K V E} (h : s.tasks[t]? = some task) :
    s.outcome t = task.outcome := by
  rw [outcome, h, Option.bind_some]

/-- What a step can do. -/
inductive Move (s : SingleFlight K V E) : LoopAct K V E → SingleFlight K V E → Prop
  | run (key : K) : Move s (.run key) (s.run key)
  | finish {t : Nat} {task : FlightTask K V E} (o : FlightOutcome V E) (htask : s.tasks[t]? = some task)
      (hnone : task.outcome = none) :
      Move s (.finish t o) (s.finish t o task)
  | cancel {c : Nat} {x : FlightCaller K V E} (hx : s.callers[c]? = some x) (hnone : x.answer = none) :
      Move s (.cancel c) (s.cancel c x)
  | callback {cb : Callback K} (hcb : cb ∈ s.ready) : Move s (.callback cb)
      ({ s with ready := s.ready.erase cb }.execute cb)

theorem step_move (hstep : s.step act = some s') : Move s act s' := by
  cases act with
  | run key =>
    obtain rfl := Option.some.inj hstep
    exact .run key
  | finish t o =>
    simp only [step, Option.bind_eq_some_iff, Option.ite_none_right_eq_some, Option.isNone_iff_eq_none,
      Option.some.injEq] at hstep
    obtain ⟨task, htask, hnone, rfl⟩ := hstep
    exact .finish o htask hnone
  | cancel c =>
    simp only [step, Option.bind_eq_some_iff, Option.ite_none_right_eq_some, Option.isNone_iff_eq_none,
      Option.some.injEq] at hstep
    obtain ⟨x, hx, hnone, rfl⟩ := hstep
    exact .cancel hx hnone
  | callback cb =>
    simp only [step, Option.ite_none_right_eq_some, Option.some.injEq] at hstep
    obtain ⟨hcb, rfl⟩ := hstep
    exact .callback hcb

omit [DecidableEq K] in
theorem innerDone_cases (s : SingleFlight K V E) (t c : Nat) : s.innerDone t c = s ∨
    ∃ x o, s.callers[c]? = some x ∧ x.outer = none ∧ s.outcome t = some o ∧ s.innerDone t c = s.settle c x o := by
  rw [innerDone]
  cases hx : s.callers[c]? with
  | none => exact .inl rfl
  | some x =>
    rw [Option.elim_some]
    split
    · exact .inl rfl
    · rename_i houter
      cases ho : s.outcome t with
      | none => exact .inl rfl
      | some o => exact .inr ⟨x, o, rfl, by simpa using houter, rfl, rfl⟩

theorem tasks_start (s : SingleFlight K V E) (key : K) (t : Nat) : (s.start key).1.tasks[t]? =
    s.tasks[t]?.or (if t = s.tasks.length then some { key, callbacks := [.forget key] } else none) := by
  rcases Nat.lt_trichotomy t s.tasks.length with hlt | rfl | hgt
  · rw [start, List.getElem?_append_left hlt, if_neg (Nat.ne_of_lt hlt), Option.or_none]
  · simp [start]
  · rw [start, if_neg (Nat.ne_of_gt hgt), Option.or_none, List.getElem?_eq_none (Nat.le_of_lt hgt)]
    exact List.getElem?_eq_none (by simp; omega)

theorem outcome_start (s : SingleFlight K V E) (key : K) (t : Nat) : (s.start key).1.outcome t = s.outcome t := by
  rw [outcome, outcome, tasks_start]
  cases s.tasks[t]? with
  | none => split <;> rfl
  | some task => rfl

omit [DecidableEq K] in
theorem tasks_finish_self {t : Nat} {task : FlightTask K V E} (o : FlightOutcome V E)
    (htask : s.tasks[t]? = some task) :
    (s.finish t o task).tasks[t]? = some { task with outcome := some o, callbacks := [] } := by
  have hlt := (List.getElem?_eq_some_iff.1 htask).1
  simp [finish, hlt]

omit [DecidableEq K] in
theorem tasks_finish_of_ne (s : SingleFlight K V E) (t : Nat) (o : FlightOutcome V E)
    (task : FlightTask K V E) (u : Nat) (hu : u ≠ t) :
    (s.finish t o task).tasks[u]? = s.tasks[u]? := by
  simp [finish, List.getElem?_set_ne (Ne.symm hu)]

omit [DecidableEq K] in
private theorem forget_mem_of_registryPart {task task' : FlightTask K V E}
    (h : registryPart task' = registryPart task) {key : K} :
    .forget key ∈ task'.callbacks ↔ .forget key ∈ task.callbacks := by
  have hfilter : task'.callbacks.filter (fun cb => cb matches .forget _) = task.callbacks.filter fun cb =>
      cb matches .forget _ :=
    congrArg (fun part => part.2.2) h
  have := congrArg (TaskCallback.forget key ∈ ·) hfilter
  simpa [List.mem_filter] using this

/-- A list of which an element is changed where the function does not look. -/
private theorem map_modify_eq {α β : Type*} {f : α → α} {g : α → β} (h : ∀ a, g (f a) = g a) (l : List α) (i : Nat) :
    (l.modify i f).map g = l.map g := by
  refine List.ext_getElem? fun j => ?_
  rw [List.getElem?_map, List.getElem?_map, List.getElem?_modify]
  split
  · cases l[j]? with
    | none => rfl
    | some a => simp [h]
  · cases l[j]? <;> rfl

namespace Registry

omit [DecidableEq K] in
theorem empty : Registry [] ({} : SingleFlight K V E) where
  finished t o := by simp [outcome]
  registered t task h := by cases h
  entry key t h := by cases h
  own t task key h := by cases h
  scheduled key t h := by cases h

omit [DecidableEq K] in
theorem other (h : Registry acts s) (hact : ∀ t o, act ≠ .finish t o) : Registry (acts ++ [act]) s :=
  { h with
    finished := fun t o => by
      rw [h.finished, List.mem_append, List.mem_singleton]
      exact ⟨.inl, fun hmem => hmem.resolve_right (Ne.symm (hact t o))⟩ }

omit [DecidableEq K] in
/-- Shields come and go. -/
theorem frame (h : Registry acts s) (hinflight : s'.inflight = s.inflight)
    (htasks : s'.tasks.map registryPart = s.tasks.map registryPart)
    (hready : ∀ key t, Callback.forget key t ∈ s'.ready ↔ Callback.forget key t ∈ s.ready) : Registry acts s' := by
  have hget : ∀ (t : Nat) task', s'.tasks[t]? = some task' → ∃ task, s.tasks[t]? = some task ∧
      registryPart task' = registryPart task := by
    intro t task' htask'
    have := congrArg (·[t]?) htasks
    simp only [List.getElem?_map, htask', Option.map_some] at this
    obtain ⟨task, htask, hpart⟩ := Option.map_eq_some_iff.1 this.symm
    exact ⟨task, htask, hpart.symm⟩
  have hget' : ∀ (t : Nat) task, s.tasks[t]? = some task → ∃ task', s'.tasks[t]? = some task' ∧
      registryPart task' = registryPart task := by
    intro t task htask
    have := congrArg (·[t]?) htasks
    simp only [List.getElem?_map, htask, Option.map_some] at this
    exact Option.map_eq_some_iff.1 this
  have houtcome : ∀ t, s'.outcome t = s.outcome t := by
    intro t
    cases htask' : s'.tasks[t]? with
    | none =>
      cases htask : s.tasks[t]? with
      | none => rw [outcome, outcome, htask, htask']
      | some task =>
        obtain ⟨_, hsome, -⟩ := hget' t task htask
        rw [htask'] at hsome
        cases hsome
    | some task' =>
      obtain ⟨task, htask, hpart⟩ := hget t task' htask'
      rw [outcome_eq htask, outcome_eq htask']
      exact congrArg (fun part => part.2.1) hpart
  refine ⟨fun t o => by rw [houtcome, h.finished], fun t task' htask' hnone => ?_, fun key t hentry => ?_,
    fun t task' key htask' hmem => ?_, fun key t hmem => ?_⟩
  · obtain ⟨task, htask, hpart⟩ := hget t task' htask'
    have hkey : task'.key = task.key := congrArg (fun part => part.1) hpart
    have hout : task'.outcome = task.outcome := congrArg (fun part => part.2.1) hpart
    rw [hinflight, forget_mem_of_registryPart hpart, hkey]
    exact h.registered t task htask (hout ▸ hnone)
  · obtain ⟨task, htask, hkey, hopen⟩ := h.entry key t (hinflight ▸ hentry)
    obtain ⟨task', htask', hpart⟩ := hget' t task htask
    refine ⟨task', htask', (congrArg (fun part => part.1) hpart).trans hkey, ?_⟩
    rw [hready, show task'.outcome = task.outcome from congrArg (fun part => part.2.1) hpart]
    exact hopen
  · obtain ⟨task, htask, hpart⟩ := hget t task' htask'
    rw [forget_mem_of_registryPart hpart] at hmem
    exact (congrArg (fun part => part.1) hpart).trans (h.own t task key htask hmem)
  · rw [houtcome]
    exact h.scheduled key t ((hready key t).1 hmem)

/-- A new task takes over the entry of a key that has no unfinished task. -/
theorem start (h : Registry acts s) {key : K} (hfree : ∀ t, s.inflight key = some t → (s.outcome t).isSome) :
    Registry acts (s.start key).1 := by
  have htask : ∀ (t : Nat) task, (s.start key).1.tasks[t]? = some task →
      s.tasks[t]? = some task ∨ t = s.tasks.length ∧ task = { key, callbacks := [.forget key] } := by
    intro t task hget
    rw [tasks_start] at hget
    cases hold : s.tasks[t]? with
    | some old => exact .inl (by simpa [hold] using hget)
    | none =>
      simp only [hold, Option.none_or, Option.ite_none_right_eq_some, Option.some.injEq] at hget
      exact .inr ⟨hget.1, hget.2.symm⟩
  refine ⟨fun t o => by rw [outcome_start, h.finished], fun t task hget hnone => ?_, fun key' t hentry => ?_,
    fun t task key' hget hmem => ?_, fun key' t hmem => by rw [outcome_start]; exact h.scheduled key' t hmem⟩
  · rcases htask t task hget with hold | ⟨rfl, rfl⟩
    · obtain ⟨hentry, hforget⟩ := h.registered t task hold hnone
      have hne : task.key ≠ key := by
        rintro rfl
        have := hfree t hentry
        rw [outcome_eq hold, hnone] at this
        cases this
      exact ⟨(Function.update_of_ne hne _ _).trans hentry, hforget⟩
    · exact ⟨Function.update_self .., List.mem_singleton.2 rfl⟩
  · by_cases hkey : key' = key
    · subst hkey
      have : s.tasks.length = t := by simpa [SingleFlight.start] using hentry
      subst this
      exact ⟨{ key := key', callbacks := [.forget key'] }, by simp [SingleFlight.start], rfl, .inl rfl⟩
    · have : s.inflight key' = some t := by simpa [SingleFlight.start, Function.update_of_ne hkey] using hentry
      obtain ⟨task, hget, hrest⟩ := h.entry key' t this
      exact ⟨task, by rw [tasks_start, hget, Option.some_or], hrest⟩
  · rcases htask t task hget with hold | ⟨rfl, rfl⟩
    · exact h.own t task key' hold hmem
    · simpa [eq_comm] using hmem

omit [DecidableEq K] in
/-- The computation of a task ends, and its `_forget` is scheduled. -/
theorem finish (h : Registry acts s) {t : Nat} {task : FlightTask K V E} (o : FlightOutcome V E)
    (htask : s.tasks[t]? = some task)
    (hnone : task.outcome = none) : Registry (acts ++ [.finish t o]) (s.finish t o task) := by
  have hself := tasks_finish_self o htask
  have hother := tasks_finish_of_ne s t o task
  refine ⟨fun u o' => ?_, fun u task' hget hnone' => ?_, fun key u hentry => ?_, fun u task' key hget hmem =>
    ?_, fun key u hmem => ?_⟩
  · rw [List.mem_append, List.mem_singleton, LoopAct.finish.injEq]
    by_cases hu : u = t
    · subst hu
      have hold : LoopAct.finish u o' ∉ acts := by
        rw [← h.finished, outcome_eq htask, hnone]
        simp
      rw [outcome_eq hself]
      simp [hold, eq_comm]
    · simp only [outcome, hother u hu, hu, false_and, or_false]
      exact h.finished u o'
  · by_cases hu : u = t
    · subst hu
      rw [hself, Option.some.injEq] at hget
      rw [← hget] at hnone'
      cases hnone'
    · rw [hother u hu] at hget
      exact h.registered u task' hget hnone'
  · obtain ⟨task', hget, hkey, hopen⟩ := h.entry key u hentry
    by_cases hu : u = t
    · -- the entry of the task itself: its `_forget` is among the callbacks
      subst hu
      obtain rfl := Option.some.inj (htask.symm.trans hget)
      refine ⟨_, hself, hkey, .inr (List.mem_append_right _ (List.mem_map.2 ⟨.forget key, ?_, rfl⟩))⟩
      exact hkey ▸ (h.registered u task htask hnone).2
    · exact ⟨task', (hother u hu).trans hget, hkey, hopen.imp_right (List.mem_append_left _)⟩
  · by_cases hu : u = t
    · subst hu
      rw [hself, Option.some.injEq] at hget
      rw [← hget] at hmem
      cases hmem
    · rw [hother u hu] at hget
      exact h.own u task' key hget hmem
  · have hdone : (s.finish t o task).outcome t = some o := outcome_eq hself
    by_cases hu : u = t
    · rw [hu, hdone]
      rfl
    · rw [outcome, hother u hu]
      rcases List.mem_append.1 hmem with hmem | hmem
      · exact h.scheduled key u hmem
      · obtain ⟨cb, -, hcb⟩ := List.mem_map.1 hmem
        cases cb with
        | forget key' => exact absurd (Callback.forget.inj hcb).2.symm hu
        | innerDone c => cases hcb

/-- `_forget` removes the entry of a task that has ended, and of no other. -/
theorem forget (h : Registry acts s) {key : K} {t : Nat} (hmem : Callback.forget key t ∈ s.ready) :
    Registry acts ({ s with ready := s.ready.erase (.forget key t) }.forget key t) := by
  have hdone := h.scheduled key t hmem
  have herase : ∀ key' u, Callback.forget key' u ∈ s.ready.erase (.forget key t) → Callback.forget key' u ∈ s.ready :=
    fun key' u => List.mem_of_mem_erase
  by_cases hentry : s.inflight key = some t
  · rw [SingleFlight.forget, if_pos hentry]
    refine ⟨h.finished, fun u task hget hnone => ?_, fun key' u hentry' => ?_, h.own, fun key' u hmem' =>
      h.scheduled key' u (herase key' u hmem')⟩
    · obtain ⟨hreg, hforget⟩ := h.registered u task hget hnone
      have hne : task.key ≠ key := by
        rintro rfl
        obtain rfl := Option.some.inj (hentry.symm.trans hreg)
        rw [outcome_eq (s := s) hget, hnone] at hdone
        cases hdone
      exact ⟨(Function.update_of_ne hne _ _).trans hreg, hforget⟩
    · have hne : key' ≠ key := by
        rintro rfl
        simp at hentry'
      obtain ⟨task, hget, hkey, hopen⟩ := h.entry key' u ((Function.update_of_ne hne _ _).symm.trans hentry')
      exact ⟨task, hget, hkey, hopen.imp_right fun hready => (List.mem_erase_of_ne (by simp [hne])).2 hready⟩
  · rw [SingleFlight.forget, if_neg hentry]
    refine ⟨h.finished, h.registered, fun key' u hentry' => ?_, h.own, fun key' u hmem' =>
      h.scheduled key' u (herase key' u hmem')⟩
    obtain ⟨task, hget, hkey, hopen⟩ := h.entry key' u hentry'
    refine ⟨task, hget, hkey, hopen.imp_right fun hready => (List.mem_erase_of_ne ?_).2 hready⟩
    rintro heq
    obtain ⟨rfl, rfl⟩ := Callback.forget.inj heq
    exact hentry hentry'

omit [DecidableEq K] in
/-- A shield leaves the registry alone. -/
private theorem shield (h : Registry acts s) (key : K) (t : Nat) : Registry acts (s.shield key t) := by
  rw [SingleFlight.shield]
  split
  · exact h.frame rfl rfl fun _ _ => Iff.rfl
  · exact h.frame rfl (map_modify_eq (fun task => by simp [registryPart]) _ _) fun _ _ => Iff.rfl

theorem run (h : Registry acts s) (key : K) : Registry (acts ++ [.run key]) (s.run key) := by
  refine other (shield ?_ key _) fun t o hact => by cases hact
  rw [flight]
  cases hentry : s.inflight key with
  | none => exact h.start fun t ht => by rw [hentry] at ht; cases ht
  | some t =>
    rw [Option.elim_some]
    split
    · rename_i hdone
      refine h.start fun u hu => ?_
      obtain rfl := Option.some.inj (hentry.symm.trans hu)
      exact hdone
    · exact h

omit [DecidableEq K] in
private theorem settle (h : Registry acts s) (c : Nat) (x : FlightCaller K V E) (o : FlightOutcome V E) :
    Registry acts (s.settle c x o) :=
  h.frame rfl rfl fun _ _ => by simp [SingleFlight.settle]

omit [DecidableEq K] in
private theorem cancel (h : Registry acts s) (c : Nat) (x : FlightCaller K V E) : Registry acts (s.cancel c x) := by
  rw [SingleFlight.cancel]
  split
  · exact h.frame rfl rfl fun _ _ => Iff.rfl
  · exact h.settle ..

/-- A callback other than `_forget` leaves the loop. -/
private theorem erase (h : Registry acts s) (cb : Callback K) (hcb : ∀ key t, cb ≠ .forget key t) :
    Registry acts { s with ready := s.ready.erase cb } :=
  h.frame rfl rfl fun key t => List.mem_erase_of_ne (Ne.symm (hcb key t))

theorem execute (h : Registry acts s) {cb : Callback K} (hcb : cb ∈ s.ready) :
    Registry acts ({ s with ready := s.ready.erase cb }.execute cb) := by
  cases cb with
  | forget key t => exact h.forget hcb
  | innerDone t c =>
    have hs := h.erase (.innerDone t c) fun key t hcb => by cases hcb
    rw [SingleFlight.execute]
    rcases innerDone_cases { s with ready := s.ready.erase (.innerDone t c) } t c with hsame |
      ⟨x, o, -, -, -, hsettle⟩
    · rw [hsame]
      exact hs
    · rw [hsettle]
      exact hs.settle c x o
  | outerDone c =>
    have hs := h.erase (.outerDone c) fun key t hcb => by cases hcb
    rw [SingleFlight.execute, outerDone]
    cases hx : s.callers[c]? with
    | none => exact hs
    | some x =>
      rw [Option.elim_some]
      split
      · exact hs
      · refine hs.frame rfl (map_modify_eq (fun task => ?_) _ _) fun _ _ => Iff.rfl
        simp only [registryPart, List.filter_filter, Prod.mk.injEq, true_and]
        refine List.filter_congr fun cb _ => ?_
        cases cb <;> simp
  | wakeup c =>
    have hs := h.erase (.wakeup c) fun key t hcb => by cases hcb
    rw [SingleFlight.execute, wakeup]
    cases hx : s.callers[c]? with
    | none => exact hs
    | some x => exact hs.frame rfl rfl fun _ _ => Iff.rfl

theorem step (h : Registry acts s) (hstep : s.step act = some s') : Registry (acts ++ [act]) s' := by
  cases step_move hstep with
  | run key => exact h.run key
  | finish o htask hnone => exact h.finish o htask hnone
  | cancel hx hnone => exact (h.cancel _ _).other fun t o hact => by cases hact
  | callback hcb => exact (h.execute hcb).other fun t o hact => by cases hact

end Registry

/-! ### Callers -/

/-- The task informs the shield of the caller when it ends. -/
def Hooked (s : SingleFlight K V E) (t c : Nat) : Prop := ∃ task, s.tasks[t]? = some task ∧
    .innerDone c ∈ task.callbacks

/-- The shield of the caller is going to end with the task. -/
def Waits (s : SingleFlight K V E) (t c : Nat) : Prop :=
  s.outcome t = none ∧ s.Hooked t c ∨ (s.outcome t).isSome ∧ .innerDone t c ∈ s.ready

structure CallerServed (s : SingleFlight K V E) (c : Nat) (x : FlightCaller K V E) : Prop where
  pending : x.outer = none → s.Waits x.inner c
  settled : ∀ o, x.outer = some o → x.cancelling = 0 → s.outcome x.inner = some o
  answered : ∀ o, x.answer = some o → x.cancelling = 0 → s.outcome x.inner = some o
  woken : x.outer.isSome → x.answer.isSome ∨ .wakeup c ∈ s.ready
  must : x.mustCancel = true → x.cancelling ≠ 0

/-- Every caller is served by the task it found, unless it is cancelled. -/
structure Served (acts : List (LoopAct K V E)) (s : SingleFlight K V E) : Prop where
  callers : ∀ c x, s.callers[c]? = some x → s.CallerServed c x
  key : ∀ (c : Nat) (x : FlightCaller K V E), s.callers[c]? = some x →
    ∃ task : FlightTask K V E, s.tasks[x.inner]? = some task ∧ task.key = x.key
  hooked : ∀ t c, s.Hooked t c → ∃ x, s.callers[c]? = some x ∧ x.inner = t
  inner : ∀ t c, .innerDone t c ∈ s.ready → (s.outcome t).isSome ∧ ∃ x, s.callers[c]? = some x ∧ x.inner = t
  outer : ∀ c, .outerDone c ∈ s.ready ∨ .wakeup c ∈ s.ready → ∃ x, s.callers[c]? = some x ∧ x.outer.isSome
  cancelled : ∀ (c : Nat) (x : FlightCaller K V E), s.callers[c]? = some x → x.cancelling ≠ 0 → .cancel c ∈ acts

omit [DecidableEq K] in
private theorem CallerServed.mono {c : Nat} {x : FlightCaller K V E} (h : s.CallerServed c x)
    (hout : ∀ o, s.outcome x.inner = some o → s'.outcome x.inner = some o)
    (hwaits : x.outer = none → s.Waits x.inner c → s'.Waits x.inner c)
    (hwake : .wakeup c ∈ s.ready → .wakeup c ∈ s'.ready) :
    s'.CallerServed c x where
  pending hnone := hwaits hnone (h.pending hnone)
  settled o ho hzero := hout o (h.settled o ho hzero)
  answered o ho hzero := hout o (h.answered o ho hzero)
  woken hsome := (h.woken hsome).imp_right hwake
  must := h.must

namespace Served

omit [DecidableEq K] in
theorem empty : Served [] ({} : SingleFlight K V E) where
  callers c x h := by cases h
  key c x h := by cases h
  hooked t c h := by
    obtain ⟨task, htask, -⟩ := h
    cases htask
  inner t c h := by cases h
  outer c h := by rcases h with h | h <;> cases h
  cancelled c x h := by cases h

omit [DecidableEq K] in
theorem other (h : Served acts s) (act : LoopAct K V E) : Served (acts ++ [act]) s :=
  { h with cancelled := fun c x hx hne => List.mem_append_left _ (h.cancelled c x hx hne) }

omit [DecidableEq K] in
/-- Nothing changes for the callers. -/
private theorem frame (h : Served acts s) (hcallers : s'.callers = s.callers) (hout : ∀ t, s'.outcome t = s.outcome t)
    (hkey : ∀ (t : Nat) (task : FlightTask K V E), s.tasks[t]? = some task →
      ∃ task' : FlightTask K V E, s'.tasks[t]? = some task' ∧ task'.key = task.key)
    (hhook : ∀ t c, s'.Hooked t c ↔ s.Hooked t c)
    (hready : ∀ cb : Callback K, (∀ key t, cb ≠ .forget key t) → (cb ∈ s'.ready ↔ cb ∈ s.ready)) :
    Served acts s' where
  callers c x hx := by
    refine (h.callers c x (hcallers ▸ hx)).mono (fun o ho => (hout _).trans ho) (fun _ hwaits => ?_) fun hwake => ?_
    · rwa [Waits, hout, hhook, hready _ (by simp)]
    · exact (hready _ (by simp)).2 hwake
  key c x hx := by
    obtain ⟨task, htask, hk⟩ := h.key c x (hcallers ▸ hx)
    obtain ⟨task', htask', hk'⟩ := hkey _ task htask
    exact ⟨task', htask', hk'.trans hk⟩
  hooked t c hc := by
    rw [hcallers]
    exact h.hooked t c ((hhook t c).1 hc)
  inner t c hc := by
    rw [hcallers, hout]
    exact h.inner t c ((hready _ (by simp)).1 hc)
  outer c hc := by
    rw [hcallers]
    rw [hready _ (by simp), hready _ (by simp)] at hc
    exact h.outer c hc
  cancelled c x hx := h.cancelled c x (hcallers ▸ hx)

omit [DecidableEq K] in
/-- Only the caller `c` is concerned. -/
private theorem update (h : Served acts s) {c : Nat} {x x' : FlightCaller K V E} (hx : s.callers[c]? = some x)
    (hx' : s'.callers[c]? = some x') (hothers : ∀ c', c' ≠ c → s'.callers[c']? = s.callers[c']?)
    (hinner : x'.inner = x.inner) (hk : x'.key = x.key) (hout : ∀ t, s'.outcome t = s.outcome t)
    (hkey : ∀ (t : Nat) (task : FlightTask K V E), s.tasks[t]? = some task →
      ∃ task' : FlightTask K V E, s'.tasks[t]? = some task' ∧ task'.key = task.key)
    (hhook : ∀ t c', c' ≠ c → (s'.Hooked t c' ↔ s.Hooked t c')) (hhook' : ∀ t, s'.Hooked t c → s.Hooked t c)
    (hready : ∀ c', c' ≠ c → (∀ t, .innerDone t c' ∈ s'.ready ↔ .innerDone t c' ∈ s.ready) ∧
      (.outerDone c' ∈ s'.ready ↔ .outerDone c' ∈ s.ready) ∧ (.wakeup c' ∈ s'.ready ↔ .wakeup c' ∈ s.ready))
    (hready' : ∀ t, .innerDone t c ∈ s'.ready → .innerDone t c ∈ s.ready)
    (houter : .outerDone c ∈ s'.ready ∨ .wakeup c ∈ s'.ready → x'.outer.isSome) (hserved : s'.CallerServed c x')
    (hcancelled : x'.cancelling ≠ 0 → .cancel c ∈ acts) : Served acts s' where
  callers c' y hy := by
    by_cases hc : c' = c
    · subst hc
      obtain rfl := Option.some.inj (hx'.symm.trans hy)
      exact hserved
    · obtain ⟨hr₁, -, hr₃⟩ := hready c' hc
      refine (h.callers c' y (hothers c' hc ▸ hy)).mono (fun o ho => (hout _).trans ho) (fun _ hwaits => ?_) hr₃.2
      rwa [Waits, hout, hhook _ _ hc, hr₁]
  key c' y hy := by
    by_cases hc : c' = c
    · subst hc
      obtain rfl := Option.some.inj (hx'.symm.trans hy)
      obtain ⟨task, htask, hk₁⟩ := h.key c' x hx
      obtain ⟨task', htask', hk'⟩ := hkey _ task htask
      exact ⟨task', hinner ▸ htask', hk'.trans (hk₁.trans hk.symm)⟩
    · obtain ⟨task, htask, hk₁⟩ := h.key c' y (hothers c' hc ▸ hy)
      obtain ⟨task', htask', hk'⟩ := hkey _ task htask
      exact ⟨task', htask', hk'.trans hk₁⟩
  hooked t c' hc' := by
    by_cases hc : c' = c
    · subst hc
      obtain ⟨y, hy, rfl⟩ := h.hooked t c' (hhook' t hc')
      obtain rfl := Option.some.inj (hx.symm.trans hy)
      exact ⟨x', hx', hinner⟩
    · rw [hothers c' hc]
      exact h.hooked t c' ((hhook t c' hc).1 hc')
  inner t c' hc' := by
    by_cases hc : c' = c
    · subst hc
      obtain ⟨hsome, y, hy, rfl⟩ := h.inner t c' (hready' t hc')
      obtain rfl := Option.some.inj (hx.symm.trans hy)
      exact ⟨(hout _).symm ▸ hsome, x', hx', hinner⟩
    · rw [hothers c' hc, hout]
      exact h.inner t c' (((hready c' hc).1 t).1 hc')
  outer c' hc' := by
    by_cases hc : c' = c
    · subst hc
      exact ⟨x', hx', houter hc'⟩
    · obtain ⟨-, hr₂, hr₃⟩ := hready c' hc
      rw [hr₂, hr₃] at hc'
      rw [hothers c' hc]
      exact h.outer c' hc'
  cancelled c' y hy hne := by
    by_cases hc : c' = c
    · subst hc
      obtain rfl := Option.some.inj (hx'.symm.trans hy)
      exact hcancelled hne
    · exact h.cancelled c' y (hothers c' hc ▸ hy) hne

omit [DecidableEq K] in
/-- The record of a caller is rewritten. -/
private theorem replace (h : Served acts s) {c : Nat} {x x' : FlightCaller K V E} {ready : List (Callback K)}
    (hx : s.callers[c]? = some x) (hinner : x'.inner = x.inner) (hk : x'.key = x.key)
    (hready : ∀ c', c' ≠ c → (∀ t, .innerDone t c' ∈ ready ↔ .innerDone t c' ∈ s.ready) ∧
      (.outerDone c' ∈ ready ↔ .outerDone c' ∈ s.ready) ∧ (.wakeup c' ∈ ready ↔ .wakeup c' ∈ s.ready))
    (hready' : ∀ t, .innerDone t c ∈ ready → .innerDone t c ∈ s.ready)
    (houter : .outerDone c ∈ ready ∨ .wakeup c ∈ ready → x'.outer.isSome)
    (hserved : CallerServed { s with callers := s.callers.set c x', ready } c x')
    (hcancelled : x'.cancelling ≠ 0 → .cancel c ∈ acts) :
    Served acts { s with callers := s.callers.set c x', ready } := by
  have hlt := (List.getElem?_eq_some_iff.1 hx).1
  exact h.update hx (by simp [hlt]) (fun c' hc => by simp [List.getElem?_set_ne (Ne.symm hc)]) hinner hk
    (fun _ => rfl)
    (fun _ task htask => ⟨task, htask, rfl⟩) (fun _ _ _ => Iff.rfl)
    (fun _ => id) hready hready' houter hserved hcancelled

omit [DecidableEq K] in
theorem cancel (h : Served acts s) {c : Nat} {x : FlightCaller K V E} (hx : s.callers[c]? = some x) :
    Served (acts ++ [.cancel c]) (s.cancel c x) := by
  have hmem : LoopAct.cancel c ∈ acts ++ [LoopAct.cancel c] := by simp
  have hold := h.callers c x hx
  rw [SingleFlight.cancel]
  split
  · rename_i hsome
    refine (h.other _).replace hx rfl rfl (fun _ _ => ⟨fun _ => Iff.rfl, Iff.rfl, Iff.rfl⟩) (fun _ => id)
      (fun _ => hsome) ?_ fun _ => hmem
    exact
      { pending := hold.pending
        settled := fun o _ hzero => absurd hzero (Nat.succ_ne_zero _)
        answered := fun o _ hzero => absurd hzero (Nat.succ_ne_zero _)
        woken := hold.woken
        must := fun _ => Nat.succ_ne_zero _ }
  · refine (h.other _).replace hx rfl rfl (fun c' hc => ?_) (fun t ht => ?_) (fun _ => rfl) ?_ fun _ => hmem
    · simp [hc]
    · simpa using ht
    · exact
        { pending := fun hnone => by cases hnone
          settled := fun o _ hzero => absurd hzero (Nat.succ_ne_zero _)
          answered := fun o _ hzero => absurd hzero (Nat.succ_ne_zero _)
          woken := fun _ => .inr (by simp)
          must := fun _ => Nat.succ_ne_zero _ }

/-- Taking a callback of the caller `c` from the loop concerns no other caller. -/
private theorem mem_erase_iff (s : SingleFlight K V E) (cb : Callback K) {c : Nat}
    (hcb : (∃ t, cb = .innerDone t c) ∨ cb = .outerDone c ∨ cb = .wakeup c) :
    ∀ c', c' ≠ c → (∀ t, .innerDone t c' ∈ s.ready.erase cb ↔ .innerDone t c' ∈ s.ready) ∧
      (.outerDone c' ∈ s.ready.erase cb ↔ .outerDone c' ∈ s.ready) ∧
      (.wakeup c' ∈ s.ready.erase cb ↔ .wakeup c' ∈ s.ready) := by
  intro c' hc
  refine ⟨fun t => List.mem_erase_of_ne ?_, List.mem_erase_of_ne ?_, List.mem_erase_of_ne ?_⟩
  all_goals rcases hcb with ⟨t, rfl⟩ | rfl | rfl <;> simp [hc]

theorem innerDone (h : Served acts s) {t c : Nat} (hcb : .innerDone t c ∈ s.ready) :
    Served acts ({ s with ready := s.ready.erase (.innerDone t c) }.innerDone t c) := by
  obtain ⟨hdone, x, hx, rfl⟩ := h.inner t c hcb
  obtain ⟨o, ho⟩ := Option.isSome_iff_exists.1 hdone
  have hold := h.callers c x hx
  have herase := mem_erase_iff s (.innerDone x.inner c) (.inl ⟨_, rfl⟩)
  have hx' : ({ s with ready := s.ready.erase (.innerDone x.inner c) } : SingleFlight K V E).callers[c]? =
    some x := hx
  have ho' : SingleFlight.outcome { s with ready := s.ready.erase (.innerDone x.inner c) } x.inner = some o := ho
  rw [SingleFlight.innerDone, hx', Option.elim_some, ho', Option.elim_some]
  split
  · rename_i hsome
    refine h.update hx hx (fun _ _ => rfl) rfl rfl (fun _ => rfl) (fun _ task htask => ⟨task, htask, rfl⟩)
      (fun _ _ _ => Iff.rfl)
      (fun _ => id) herase (fun _ => List.mem_of_mem_erase) (fun _ => hsome) ?_ (h.cancelled c x hx)
    refine hold.mono (fun _ => id) (fun hnone => ?_) fun hwake => (List.mem_erase_of_ne (by simp)).2 hwake
    rw [hnone] at hsome
    cases hsome
  · refine h.replace hx rfl rfl (fun c' hc => ?_) (fun u hu => ?_) (fun _ => rfl) ?_ (h.cancelled c x hx)
    · simp [hc]
    · exact List.mem_of_mem_erase (by simpa using hu)
    · exact
        { pending := fun hnone => by cases hnone
          settled := fun o' ho' _ => ho.trans ho'
          answered := hold.answered
          woken := fun _ => .inr (by simp)
          must := hold.must }

theorem wakeup (h : Served acts s) {c : Nat} (hcb : .wakeup c ∈ s.ready) :
    Served acts ({ s with ready := s.ready.erase (.wakeup c) }.wakeup c) := by
  obtain ⟨x, hx, hsome⟩ := h.outer c (.inr hcb)
  have hold := h.callers c x hx
  have hx' : ({ s with ready := s.ready.erase (.wakeup c) } : SingleFlight K V E).callers[c]? = some x := hx
  rw [SingleFlight.wakeup, hx', Option.elim_some]
  refine h.replace hx rfl rfl (mem_erase_iff s _ (.inr (.inr rfl))) (fun _ => List.mem_of_mem_erase)
    (fun _ => hsome) ?_ (h.cancelled c x hx)
  refine ⟨fun hnone => ?_, hold.settled, fun o ho hzero => ?_, fun _ => .inl ?_, fun hmust => by cases hmust⟩
  · rw [show x.outer = none from hnone] at hsome
    cases hsome
  · dsimp only at ho
    split at ho
    · rename_i hmust
      exact absurd hzero (hold.must hmust)
    · exact hold.settled o ho hzero
  · dsimp only
    split
    · rfl
    · exact hsome

theorem forget (h : Served acts s) (key : K) (t : Nat) :
    Served acts ({ s with ready := s.ready.erase (.forget key t) }.forget key t) := by
  have hready : ∀ cb : Callback K, (∀ key t, cb ≠ .forget key t) →
      (cb ∈ s.ready.erase (.forget key t) ↔ cb ∈ s.ready) :=
    fun cb hcb => List.mem_erase_of_ne (hcb key t)
  rw [SingleFlight.forget]
  split
  · exact h.frame rfl (fun _ => rfl) (fun _ task htask => ⟨task, htask, rfl⟩) (fun _ _ => Iff.rfl) hready
  · exact h.frame rfl (fun _ => rfl) (fun _ task htask => ⟨task, htask, rfl⟩) (fun _ _ => Iff.rfl) hready

end Served

omit [DecidableEq K] in
/-- The callbacks of a task change, and nothing else of it. -/
private theorem tasks_modify (s : SingleFlight K V E) (f : List (TaskCallback K) → List (TaskCallback K))
    (t u : Nat) :
    (s.tasks.modify t fun task => { task with callbacks := f task.callbacks })[u]? =
      s.tasks[u]?.map fun task => if t = u then { task with callbacks := f task.callbacks } else task := by
  rw [List.getElem?_modify]
  cases s.tasks[u]? <;> rfl

omit [DecidableEq K] in
private theorem outcome_modify (s : SingleFlight K V E) (f : List (TaskCallback K) → List (TaskCallback K))
    (callers : List (FlightCaller K V E)) (ready : List (Callback K)) (t u : Nat) :
    SingleFlight.outcome { s with
      tasks := s.tasks.modify t fun task => { task with callbacks := f task.callbacks }, callers, ready } u =
        s.outcome u := by
  rw [outcome, outcome, tasks_modify]
  cases s.tasks[u]? with
  | none => rfl
  | some task =>
    rw [Option.map_some, Option.bind_some, Option.bind_some]
    split <;> rfl

omit [DecidableEq K] in
private theorem key_modify (s : SingleFlight K V E) (f : List (TaskCallback K) → List (TaskCallback K)) (t u : Nat)
    (task : FlightTask K V E) (htask : s.tasks[u]? = some task) :
    ∃ task' : FlightTask K V E, (s.tasks.modify t fun task =>
      { task with callbacks := f task.callbacks })[u]? = some task' ∧
      task'.key = task.key := by
  rw [tasks_modify, htask, Option.map_some]
  exact ⟨_, rfl, by split <;> rfl⟩

omit [DecidableEq K] in
/-- A shield that is not the one added or removed. -/
private theorem hooked_modify (s : SingleFlight K V E) {f : List (TaskCallback K) → List (TaskCallback K)}
    (callers : List (FlightCaller K V E)) (ready : List (Callback K)) (t : Nat) {u c : Nat}
    (hf : ∀ l, .innerDone c ∈ f l ↔ .innerDone c ∈ l) :
    Hooked
        { s with
          tasks := s.tasks.modify t fun task => { task with callbacks := f task.callbacks }
          callers
          ready } u c ↔
      s.Hooked u c := by
  simp only [Hooked, tasks_modify, Option.map_eq_some_iff]
  constructor
  · rintro ⟨_, ⟨task, htask, rfl⟩, hmem⟩
    refine ⟨task, htask, ?_⟩
    split at hmem
    · exact (hf _).1 hmem
    · exact hmem
  · rintro ⟨task, htask, hmem⟩
    refine ⟨_, ⟨task, htask, rfl⟩, ?_⟩
    split
    · exact (hf _).2 hmem
    · exact hmem

namespace Served

theorem outerDone (h : Served acts s) {c : Nat} (hcb : .outerDone c ∈ s.ready) :
    Served acts ({ s with ready := s.ready.erase (.outerDone c) }.outerDone c) := by
  obtain ⟨x, hx, hsome⟩ := h.outer c (.inl hcb)
  have hold := h.callers c x hx
  have herase := mem_erase_iff s (.outerDone c) (.inr (.inl rfl))
  have hx' : ({ s with ready := s.ready.erase (.outerDone c) } : SingleFlight K V E).callers[c]? = some x := hx
  have hout := outcome_modify s (fun l => l.filter fun cb => cb ≠ .innerDone c) s.callers
    (s.ready.erase (.outerDone c)) x.inner
  have hwake : Callback.wakeup c ∈ s.ready → Callback.wakeup c ∈ s.ready.erase (.outerDone c) :=
    (List.mem_erase_of_ne (by simp)).2
  have hpending : ∀ {P : Prop}, x.outer = none → P := fun hnone => by
    rw [hnone] at hsome
    cases hsome
  rw [SingleFlight.outerDone, hx', Option.elim_some]
  split
  · exact h.update hx hx (fun _ _ => rfl) rfl rfl (fun _ => rfl) (fun _ task htask => ⟨task, htask, rfl⟩)
      (fun _ _ _ => Iff.rfl)
      (fun _ => id) herase (fun _ => List.mem_of_mem_erase) (fun _ => hsome)
      (hold.mono (fun _ => id) (fun hnone => hpending hnone) hwake)
      (h.cancelled c x hx)
  · refine h.update hx hx (fun _ _ => rfl) rfl rfl hout
      (key_modify s (fun l => l.filter fun cb => cb ≠ .innerDone c) x.inner)
      (fun t c' hc => hooked_modify s s.callers _ _ fun l => ?_) (fun t ht => ?_) herase
      (fun _ => List.mem_of_mem_erase) (fun _ => hsome)
      (hold.mono (fun o ho => (hout _).trans ho) (fun hnone => hpending hnone) hwake) (h.cancelled c x hx)
    · simp [hc]
    · obtain ⟨task', htask', hmem⟩ := ht
      rw [tasks_modify s (fun l => l.filter fun cb => cb ≠ .innerDone c)] at htask'
      obtain ⟨task, htask, rfl⟩ := Option.map_eq_some_iff.1 htask'
      refine ⟨task, htask, ?_⟩
      split at hmem
      · exact List.mem_of_mem_filter hmem
      · exact hmem

/-- A new task has no callers. -/
private theorem start (h : Served acts s) (key : K) : Served acts (s.start key).1 := by
  refine h.frame rfl (outcome_start s key) (fun t task htask => ⟨task, ?_, rfl⟩) (fun t c => ?_) fun _ _ => Iff.rfl
  · rw [tasks_start, htask, Option.some_or]
  · simp only [Hooked, tasks_start]
    cases s.tasks[t]? with
    | none => split <;> simp
    | some task => simp

omit [DecidableEq K] in
/-- A new caller waits for a task that has not ended. -/
private theorem shield (h : Served acts s) {key : K} {t : Nat} {task : FlightTask K V E}
    (htask : s.tasks[t]? = some task)
    (hkey : task.key = key) (hnone : task.outcome = none) : Served acts (s.shield key t) := by
  have hopen : ¬(s.outcome t).isSome := by simp [outcome_eq htask, hnone]
  rw [SingleFlight.shield, if_neg hopen]
  have hout := outcome_modify s (· ++ [.innerDone s.callers.length]) (s.callers ++ [{ key, inner := t }]) s.ready t
  have hhook : ∀ u c, c ≠ s.callers.length → (Hooked { s with
      tasks := s.tasks.modify t fun task => { task with callbacks := task.callbacks ++ [.innerDone s.callers.length] }
      callers := s.callers ++ [{ key, inner := t }] } u c ↔ s.Hooked u c) := fun u c hc =>
    hooked_modify s (f := (· ++ [.innerDone s.callers.length])) _ s.ready t fun l => by simp [hc]
  -- the callers so far keep their place
  have hold : ∀ {c : Nat} {x : FlightCaller K V E}, s.callers[c]? = some x →
      (s.callers ++ [{ key, inner := t }] : List (FlightCaller K V E))[c]? = some x ∧ c ≠ s.callers.length := by
    intro c x hx
    have hlt := (List.getElem?_eq_some_iff.1 hx).1
    exact ⟨(List.getElem?_append_left hlt).trans hx, Nat.ne_of_lt hlt⟩
  have hcases : ∀ {c : Nat} {x : FlightCaller K V E},
    (s.callers ++ [{ key, inner := t }] : List (FlightCaller K V E))[c]? = some x →
      s.callers[c]? = some x ∨ c = s.callers.length ∧ x = { key, inner := t } := by
    intro c x hx
    rcases Nat.lt_trichotomy c s.callers.length with hlt | rfl | hgt
    · exact .inl ((List.getElem?_append_left hlt).symm.trans hx)
    · exact .inr ⟨rfl, by simpa using hx.symm⟩
    · rw [List.getElem?_eq_none (by simp; omega)] at hx
      cases hx
  have hself : Hooked { s with
      tasks := s.tasks.modify t fun task => { task with callbacks := task.callbacks ++ [.innerDone s.callers.length] }
      callers := s.callers ++ [{ key, inner := t }] } t s.callers.length :=
    ⟨{ task with callbacks := task.callbacks ++ [.innerDone s.callers.length] }, by simp [htask], by simp⟩
  refine ⟨fun c x hx => ?_, fun c x hx => ?_, fun u c hu => ?_, fun u c hu => ?_, fun c hc => ?_,
    fun c x hx hne => ?_⟩
  · rcases hcases hx with hx | ⟨rfl, rfl⟩
    · refine (h.callers c x hx).mono (fun o ho => (hout _).trans ho) (fun _ hwaits => ?_) id
      rwa [Waits, hout, hhook _ _ (hold hx).2]
    · exact
        { pending := fun _ => .inl ⟨(hout t).trans ((outcome_eq htask).trans hnone), hself⟩
          settled := fun o ho => by cases ho
          answered := fun o ho => by cases ho
          woken := fun hsome => by cases hsome
          must := fun hmust => by cases hmust }
  · have hold' : ∃ task, s.tasks[x.inner]? = some task ∧ task.key = x.key := by
      rcases hcases hx with hx | ⟨rfl, rfl⟩
      · exact h.key c x hx
      · exact ⟨task, htask, hkey⟩
    obtain ⟨old, hget, hk⟩ := hold'
    obtain ⟨new, hnew, hk'⟩ := key_modify s (· ++ [.innerDone s.callers.length]) t x.inner old hget
    exact ⟨new, hnew, hk'.trans hk⟩
  · by_cases hc : c = s.callers.length
    · subst hc
      -- nobody but the task taken knows the new caller
      refine ⟨{ key, inner := t }, by simp, ?_⟩
      by_contra hne
      obtain ⟨task', htask', hmem⟩ := hu
      obtain ⟨old, hget, rfl⟩ := Option.map_eq_some_iff.1
        ((tasks_modify s (· ++ [.innerDone s.callers.length]) t u).symm.trans htask')
      rw [if_neg hne] at hmem
      obtain ⟨x, hx, -⟩ := h.hooked u _ ⟨old, hget, hmem⟩
      exact (hold hx).2 rfl
    · obtain ⟨x, hx, hin⟩ := h.hooked u c ((hhook u c hc).1 hu)
      exact ⟨x, (hold hx).1, hin⟩
  · obtain ⟨hsome, x, hx, hin⟩ := h.inner u c hu
    exact ⟨(hout u).symm ▸ hsome, x, (hold hx).1, hin⟩
  · obtain ⟨x, hx, hsome⟩ := h.outer c hc
    exact ⟨x, (hold hx).1, hsome⟩
  · rcases hcases hx with hx | ⟨rfl, rfl⟩
    · exact h.cancelled c x hx hne
    · exact absurd rfl hne

omit [DecidableEq K] in
/-- A task that ends hands its shields to the loop. -/
theorem finish (h : Served acts s) {t : Nat} {task : FlightTask K V E} (o : FlightOutcome V E)
    (htask : s.tasks[t]? = some task) (hnone : task.outcome = none) : Served acts (s.finish t o task) := by
  have hself := tasks_finish_self o htask
  have hother := tasks_finish_of_ne s t o task
  have hout : ∀ u o', s.outcome u = some o' → (s.finish t o task).outcome u = some o' := by
    intro u o' ho'
    have hu : u ≠ t := by
      rintro rfl
      rw [outcome_eq htask, hnone] at ho'
      cases ho'
    rw [outcome, hother u hu]
    exact ho'
  have hready : ∀ cb : Callback K, cb ∈ s.ready → cb ∈ (s.finish t o task).ready := fun cb => List.mem_append_left _
  have hcb : ∀ cb : Callback K, cb ∈ (s.finish t o task).ready → cb ∈ s.ready ∨ ∃ cb' ∈ task.callbacks,
      cb'.schedule t = cb := by
    intro cb hmem
    rcases List.mem_append.1 hmem with hmem | hmem
    · exact .inl hmem
    · exact .inr (List.mem_map.1 hmem)
  refine ⟨fun c x hx => ?_, fun c x hx => ?_, fun u c hu => ?_, fun u c hu => ?_, fun c hc => ?_, h.cancelled⟩
  · refine (h.callers c x hx).mono (hout x.inner) (fun _ hwaits => ?_) (hready _)
    rcases hwaits with ⟨hopen, hook⟩ | ⟨hsome, hmem⟩
    · by_cases hu : x.inner = t
      · obtain ⟨task', htask', hmem⟩ := hook
        rw [hu] at htask'
        obtain rfl := Option.some.inj (htask.symm.trans htask')
        refine .inr ⟨?_, List.mem_append_right _ (List.mem_map.2 ⟨_, hmem, by rw [hu]; rfl⟩)⟩
        rw [hu, outcome_eq hself]
        rfl
      · refine .inl ⟨?_, ?_⟩
        · rw [outcome, hother _ hu]
          exact hopen
        · rw [Hooked, hother _ hu]
          exact hook
    · obtain ⟨o', ho'⟩ := Option.isSome_iff_exists.1 hsome
      exact .inr ⟨by rw [hout _ _ ho']; rfl, hready _ hmem⟩
  · obtain ⟨task', htask', hk⟩ := h.key c x hx
    by_cases hu : x.inner = t
    · rw [hu] at htask' ⊢
      obtain rfl := Option.some.inj (htask.symm.trans htask')
      exact ⟨_, hself, hk⟩
    · exact ⟨task', (hother _ hu).trans htask', hk⟩
  · obtain ⟨task', htask', hmem⟩ := hu
    by_cases hut : u = t
    · rw [hut, hself, Option.some.injEq] at htask'
      rw [← htask'] at hmem
      cases hmem
    · rw [hother u hut] at htask'
      exact h.hooked u c ⟨task', htask', hmem⟩
  · rcases hcb _ hu with hmem | ⟨cb, hmem, hschedule⟩
    · obtain ⟨hsome, hrest⟩ := h.inner u c hmem
      obtain ⟨o', ho'⟩ := Option.isSome_iff_exists.1 hsome
      exact ⟨by rw [hout _ _ ho']; rfl, hrest⟩
    · cases cb with
      | forget key => cases hschedule
      | innerDone c' =>
        obtain ⟨rfl, rfl⟩ := Callback.innerDone.inj hschedule
        exact ⟨by rw [outcome_eq hself]; rfl, h.hooked _ _ ⟨task, htask, hmem⟩⟩
  · refine h.outer c ?_
    rcases hc with hc | hc
    · rcases hcb _ hc with hmem | ⟨cb, -, hschedule⟩
      · exact .inl hmem
      · cases cb <;> cases hschedule
    · rcases hcb _ hc with hmem | ⟨cb, -, hschedule⟩
      · exact .inr hmem
      · cases cb <;> cases hschedule

/-- The task taken by a call is one for its key that has not ended. -/
private theorem flight (h : Served acts s) (hreg : Registry acts s) (key : K) :
    Served acts (s.flight key).1 ∧ s.outcome (s.flight key).2 = none ∧
      ∃ task : FlightTask K V E, (s.flight key).1.tasks[(s.flight key).2]? = some task ∧ task.key = key ∧
        task.outcome = none := by
  have hnew : Served acts (s.start key).1 ∧ s.outcome (s.start key).2 = none ∧
      ∃ task : FlightTask K V E, (s.start key).1.tasks[(s.start key).2]? = some task ∧ task.key = key ∧
      task.outcome = none :=
    ⟨h.start key, by simp [SingleFlight.start, outcome], { key, callbacks := [.forget key] }, by
      simp [SingleFlight.start], rfl, rfl⟩
  rw [SingleFlight.flight]
  cases hentry : s.inflight key with
  | none => exact hnew
  | some t =>
    rw [Option.elim_some]
    split
    · exact hnew
    · rename_i hopen
      obtain ⟨task, htask, hkey, -⟩ := hreg.entry key t hentry
      have hnone : task.outcome = none := by simpa [outcome_eq htask] using hopen
      exact ⟨h, (outcome_eq htask).trans hnone, task, htask, hkey, hnone⟩

theorem run (h : Served acts s) (hreg : Registry acts s) (key : K) : Served (acts ++ [.run key]) (s.run key) := by
  obtain ⟨hserved, -, task, htask, hkey, hnone⟩ := h.flight hreg key
  exact (hserved.shield htask hkey hnone).other _

theorem step (h : Served acts s) (hreg : Registry acts s) (hstep : s.step act = some s') :
    Served (acts ++ [act]) s' := by
  cases step_move hstep with
  | run key => exact h.run hreg key
  | finish o htask hnone => exact (h.finish o htask hnone).other _
  | cancel hx hnone => exact h.cancel hx
  | @callback cb hcb =>
    refine other ?_ _
    cases cb with
    | forget key t => exact h.forget key t
    | innerDone t c => exact h.innerDone hcb
    | outerDone c => exact h.outerDone hcb
    | wakeup c => exact h.wakeup hcb

end Served

/-! ### Runs -/

theorem registry_served {s : SingleFlight K V E} (h : exec step {} acts = some s) : Registry acts s ∧
    Served acts s := by
  refine exec_history (C := fun _ _ => True) (J := fun acts s => Registry acts s ∧ Served acts s)
    ⟨Registry.empty, Served.empty⟩ ?_
    (Along.of_forall fun _ _ _ => trivial) h
  intro acts t act t' _ _ hstep hJ
  exact ⟨hJ.1.step hstep, hJ.2.step hJ.1 hstep⟩

/-- What a caller asked for and the task it took. -/
private def taken (x : FlightCaller K V E) : K × Nat := (x.key, x.inner)

private def arriving (s : SingleFlight K V E) : LoopAct K V E → List (K × Nat)
  | .run key => [(key, (s.flight key).2)]
  | .finish _ _ | .cancel _ | .callback _ => []

omit [DecidableEq K] in
private theorem map_taken_set {l : List (FlightCaller K V E)} {c : Nat} {x x' : FlightCaller K V E}
    (hx : l[c]? = some x) (htaken : taken x' = taken x) : (l.set c x').map taken = l.map taken := by
  obtain ⟨hlt, rfl⟩ := List.getElem?_eq_some_iff.1 hx
  rw [List.map_set, htaken, ← List.getElem_map taken (h := by simpa using hlt), List.set_getElem_self]

private theorem taken_execute (s : SingleFlight K V E) (cb : Callback K) :
    (s.execute cb).callers.map taken = s.callers.map taken := by
  cases cb with
  | forget key t =>
    rw [execute, forget]
    split <;> rfl
  | innerDone t c =>
    rw [execute]
    rcases innerDone_cases s t c with hsame | ⟨x, o, hx, -, -, hsettle⟩
    · rw [hsame]
    · rw [hsettle]
      exact map_taken_set hx rfl
  | outerDone c =>
    rw [execute, outerDone]
    cases s.callers[c]? with
    | none => rfl
    | some x =>
      rw [Option.elim_some]
      split <;> rfl
  | wakeup c =>
    rw [execute, wakeup]
    cases hx : s.callers[c]? with
    | none => rfl
    | some x => exact map_taken_set hx rfl

/-- Callers come with a call of `run`, and keep the task they took. -/
private theorem taken_step (hstep : s.step act = some s') :
    s'.callers.map taken = s.callers.map taken ++ s.arriving act := by
  cases step_move hstep with
  | run key =>
    have hflight : (s.flight key).1.callers = s.callers := by
      rw [flight]
      cases s.inflight key with
      | none => rfl
      | some t =>
        rw [Option.elim_some]
        split <;> rfl
    show ((s.flight key).1.shield key (s.flight key).2).callers.map taken = _
    rw [shield]
    split <;> simp [hflight, taken, arriving]
  | finish o htask hnone => simp [finish, arriving]
  | cancel hx hnone =>
    rw [arriving, List.append_nil, cancel]
    split
    · exact map_taken_set hx rfl
    · exact map_taken_set hx rfl
  | callback hcb => rw [arriving, List.append_nil, taken_execute]

private theorem taken_exec (h : exec step s acts = some s') : s.callers.map taken <+: s'.callers.map taken :=
  exec_invariant (C := fun _ _ => True) (I := fun u => s.callers.map taken <+: u.callers.map taken)
    (fun _ _ _ _ hstep hu => hu.trans (by rw [taken_step hstep]; exact List.prefix_append ..)) List.prefix_rfl
    (Along.of_forall fun _ _ _ => trivial) h

/-- How many callbacks are executed if nothing else happens, at most. -/
def weight (s : SingleFlight K V E) : Nat := s.ready.length + 2 * s.ready.countP Callback.isInner

/-- Only the end of a task leads to further callbacks. -/
private theorem ready_execute (s : SingleFlight K V E) (cb : Callback K) :
    (s.execute cb).ready = s.ready ∨
      cb.isInner = true ∧ ∃ c, (s.execute cb).ready = s.ready ++ [.outerDone c, .wakeup c] := by
  cases cb with
  | forget key t =>
    rw [execute, forget]
    split <;> exact .inl rfl
  | innerDone t c =>
    rw [execute]
    rcases innerDone_cases s t c with hsame | ⟨x, o, -, -, -, hsettle⟩
    · exact .inl (by rw [hsame])
    · exact .inr ⟨rfl, c, by rw [hsettle, settle]⟩
  | outerDone c =>
    rw [execute, outerDone]
    cases s.callers[c]? with
    | none => exact .inl rfl
    | some x =>
      rw [Option.elim_some]
      split <;> exact .inl rfl
  | wakeup c =>
    rw [execute, wakeup]
    cases s.callers[c]? <;> exact .inl rfl

private theorem weight_callback {cb : Callback K} (hcb : cb ∈ s.ready) :
    ({ s with ready := s.ready.erase cb }.execute cb).weight < s.weight := by
  have hperm := List.perm_cons_erase hcb
  have hlen : s.ready.length = (s.ready.erase cb).length + 1 := hperm.length_eq
  have hcount : s.ready.countP Callback.isInner = (s.ready.erase cb).countP Callback.isInner + if cb.isInner
      then 1 else 0 := by
    rw [hperm.countP_eq, List.countP_cons]
  rcases ready_execute { s with ready := s.ready.erase cb } cb with hsame | ⟨hinner, c, hmore⟩
  · rw [weight, weight, hsame, hlen, hcount]
    show (s.ready.erase cb).length + 2 * (s.ready.erase cb).countP _ < _
    omega
  · rw [weight, weight, hmore, hlen, hcount, if_pos hinner]
    simp only [List.length_append, List.length_cons, List.length_nil, List.countP_append, List.countP_cons,
      List.countP_nil, Callback.isInner, Bool.false_eq_true, if_false]
    omega

/-- A task that is forgotten gives up its own entry, after its end. -/
theorem Registry.forget_inflight (h : Registry acts s) {key : K} {t : Nat}
    (hstep : s.step (.callback (.forget key t)) = some s') (key' : K) :
    s'.inflight key' = s.inflight key' ∨ s.inflight key' = some t ∧ (s.outcome t).isSome := by
  cases step_move hstep with
  | callback hcb =>
    rw [SingleFlight.execute, SingleFlight.forget]
    split
    · rename_i hentry
      by_cases hk : key' = key
      · subst hk
        exact .inr ⟨hentry, h.scheduled _ t hcb⟩
      · exact .inl (Function.update_of_ne hk _ _)
    · exact .inl rfl

omit [DecidableEq K] in
theorem Registry.inflight_eq_none (h : Registry acts s) (hdone : ∀ task ∈ s.tasks, task.outcome ≠ none)
    (hready : s.ready = []) (key : K) :
    s.inflight key = none := by
  cases hentry : s.inflight key with
  | none => rfl
  | some t =>
    obtain ⟨task, htask, -, hopen | hmem⟩ := h.entry key t hentry
    · exact absurd hopen (hdone task (List.mem_of_getElem? htask))
    · rw [hready] at hmem
      cases hmem

omit [DecidableEq K] in
theorem Served.answer_ne_none (h : Served acts s) (hdone : ∀ task ∈ s.tasks, task.outcome ≠ none)
    (hready : s.ready = []) {x : FlightCaller K V E} (hmem : x ∈ s.callers) : x.answer ≠ none := by
  obtain ⟨c, hx⟩ := List.mem_iff_getElem?.1 hmem
  obtain ⟨task, htask, -⟩ := h.key c x hx
  have hcaller := h.callers c x hx
  have hsome : x.outer.isSome := by
    by_contra hnone
    rcases hcaller.pending (by simpa using hnone) with ⟨hopen, -⟩ | ⟨-, hinner⟩
    · exact hdone task (List.mem_of_getElem? htask) ((outcome_eq htask).symm.trans hopen)
    · rw [hready] at hinner
      cases hinner
  rcases hcaller.woken hsome with hanswer | hwake
  · exact fun hnone => by simp [hnone] at hanswer
  · rw [hready] at hwake
    cases hwake

/-- A caller takes a task that has not ended, and keeps it. -/
private theorem caller_of_run {before after : List (LoopAct K V E)} {key : K}
    (h : exec step {} (before ++ .run key :: after) = some s) :
    ∃ s₀ x, exec step {} before = some s₀ ∧ s.callers[s₀.callers.length]? = some x ∧ x.key = key ∧
      ∀ o, .finish x.inner o ∉ before := by
  rw [exec_append, Option.bind_eq_some_iff] at h
  obtain ⟨s₀, hbefore, hafter⟩ := h
  obtain ⟨s₁, hrun, hafter⟩ := exec_cons.1 hafter
  obtain ⟨hreg₀, hserved₀⟩ := registry_served hbefore
  obtain ⟨rest, hrest⟩ := taken_exec hafter
  rw [taken_step hrun] at hrest
  have hget : (s.callers.map taken)[s₀.callers.length]? = some (key, (s₀.flight key).2) := by
    simp [← hrest, arriving]
  obtain ⟨x, hx, htaken⟩ := List.getElem?_map .. ▸ hget |> Option.map_eq_some_iff.1
  obtain ⟨hk, hinner⟩ := Prod.mk.inj htaken
  refine ⟨s₀, x, hbefore, hx, hk, fun o hmem => ?_⟩
  rw [← hreg₀.finished, hinner, (hserved₀.flight hreg₀ key).2.1] at hmem
  cases hmem

/-- The calls of `run`, their cancellations, the ends of the computations and the callbacks in any order: of
the tasks of a key that have not ended there is only the registered one; `_forget` removes the entry of its
own task only; a caller nobody cancelled is answered with the end of a computation for its key that had not
ended when it called; a computation ends by itself and not with its callers; and when the computations have
ended, the callbacks come to an end, and then nothing is registered and every caller has its answer. -/
theorem coalesces (acts : List (LoopAct K V E)) (s : SingleFlight K V E) (h : exec step {} acts = some s) :
    (∀ (t : Nat) (task : FlightTask K V E), s.tasks[t]? = some task → task.outcome = none →
      s.inflight task.key = some t) ∧
    (∀ (t t' : Nat) (task task' : FlightTask K V E), s.tasks[t]? = some task → s.tasks[t']? = some task' →
      task.outcome = none → task'.outcome = none → task.key = task'.key → t = t') ∧
    (∀ key t s', s.step (.callback (.forget key t)) = some s' → ∀ key', s'.inflight key' = s.inflight key' ∨
      s.inflight key' = some t ∧ (s.outcome t).isSome) ∧
    (∀ before key after, acts = before ++ .run key :: after → ∃ s₀ x, exec step {} before = some s₀ ∧
      s.callers[s₀.callers.length]? = some x ∧ (.cancel s₀.callers.length ∉ acts → ∀ o, x.answer = some o →
        ∃ (t : Nat) (task : FlightTask K V E), s.tasks[t]? = some task ∧ task.key = key ∧
          (∀ o', .finish t o' ∉ before) ∧ .finish t o ∈ after)) ∧
    (∀ (t : Nat) (task : FlightTask K V E) o, s.tasks[t]? = some task → task.outcome = some o → .finish t o ∈ acts) ∧
    (∀ cb ∈ s.ready, ∃ s', s.step (.callback cb) = some s' ∧ s'.weight < s.weight) ∧
    ((∀ task ∈ s.tasks, task.outcome ≠ none) → s.ready = [] →
      (∀ key, s.inflight key = none) ∧ ∀ x ∈ s.callers, x.answer ≠ none) := by
  obtain ⟨hreg, hserved⟩ := registry_served h
  refine ⟨fun t task htask hnone => (hreg.registered t task htask hnone).1,
    fun t t' task task' htask htask' hnone hnone' hkey => ?_,
    fun key t s' hstep key' => ?_, fun before key after hacts => ?_, fun t task o htask ho => ?_,
    fun cb hcb => ?_, fun hdone hready => ?_⟩
  · have hentry := (hreg.registered t task htask hnone).1
    rw [hkey, (hreg.registered t' task' htask' hnone').1, Option.some.injEq] at hentry
    exact hentry.symm
  · exact hreg.forget_inflight hstep key'
  · subst hacts
    obtain ⟨s₀, x, hbefore, hx, hk, hopen⟩ := caller_of_run h
    refine ⟨s₀, x, hbefore, hx, fun hcancel o ho => ?_⟩
    obtain ⟨task, htask, hkey⟩ := hserved.key _ x hx
    have hzero : x.cancelling = 0 := by
      by_contra hne
      exact hcancel (hserved.cancelled _ x hx hne)
    have hfinish := (hreg.finished x.inner o).1 ((hserved.callers _ x hx).answered o ho hzero)
    refine ⟨x.inner, task, htask, hkey.trans hk, hopen, ?_⟩
    rcases List.mem_append.1 hfinish with hmem | hmem
    · exact absurd hmem (hopen o)
    · exact (List.mem_cons.1 hmem).resolve_left fun heq => by cases heq
  · exact (hreg.finished t o).1 ((outcome_eq htask).trans ho)
  · exact ⟨_, by rw [step, if_pos hcb], weight_callback hcb⟩
  · exact ⟨hreg.inflight_eq_none hdone hready, fun x hmem => hserved.answer_ne_none hdone hready hmem⟩

/-- The second caller is cancelled, the computation fails, and a third caller comes before it is forgotten. -/
private def secondAttempt : List (LoopAct String Nat String) :=
  [.run "k", .run "k", .cancel 1, .finish 0 (.error "boom"), .run "k", .callback (.forget "k" 0),
    .callback (.innerDone 0 0),
    .callback (.innerDone 0 1), .callback (.outerDone 1), .callback (.wakeup 1), .callback (.outerDone 0),
    .callback (.wakeup 0),
    .finish 1 (.value 7), .callback (.forget "k" 1), .callback (.innerDone 1 2), .callback (.outerDone 2),
    .callback (.wakeup 2)]

theorem coalesces_second_attempt : ∃ s : SingleFlight String Nat String, exec step {} secondAttempt = some s ∧
    s.callers.map FlightCaller.answer = [some (.error "boom"), some .cancelled, some (.value 7)] ∧
    (∀ key, s.inflight key = none) ∧ ∀ x ∈ s.callers, x.answer ≠ none := by
  obtain ⟨s, hrun, htest⟩ := exec_any step ({} : SingleFlight String Nat String) secondAttempt (fun s =>
    decide (s.callers.map FlightCaller.answer = [some (.error "boom"), some .cancelled, some (.value 7)]) &&
      (s.tasks.all fun task => task.outcome.isSome) && decide (s.ready = [])) (by decide +kernel)
  simp only [Bool.and_eq_true, decide_eq_true_eq, List.all_eq_true] at htest
  obtain ⟨⟨hanswers, hdone⟩, hready⟩ := htest
  have hended : ∀ task ∈ s.tasks, task.outcome ≠ none := fun task htask hnone => by
    simpa [hnone] using hdone task htask
  obtain ⟨-, -, -, -, -, -, hquiet⟩ := coalesces secondAttempt s hrun
  exact ⟨s, hrun, hanswers, hquiet hended hready⟩

end SingleFlight

end Ticketing
