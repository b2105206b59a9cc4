import Mathlib.Data.Option.Basic
import Mathlib.Data.List.Basic

/-!
# Runs of a partial step function

A system is given by `step : σ → α → Option σ`: an action is either not enabled in a state (`none`) or leads to
one next state.  A run is a list of actions.  The two rules every safety result below rests on are
`exec_invariant` (what each step keeps under a condition on the steps, every run whose steps meet the condition
keeps) and `exec_history` (the same for a property of the state together with the actions that led to it).
-/

namespace Exec

variable {σ α : Type*} {step : σ → α → Option σ}

/-- The state a run ends in, if all its actions are enabled one after the other. -/
def exec (step : σ → α → Option σ) (s : σ) : List α → Option σ
  | [] => some s
  | a :: as => (step s a).bind fun s' => exec step s' as

/-- Every step of the run of `as` from `s` meets the condition `C` (on the state before the step). -/
def Along (step : σ → α → Option σ) (C : σ → α → Prop) (s : σ) : List α → Prop
  | [] => True
  | a :: as => C s a ∧ ∀ s', step s a = some s' → Along step C s' as

/-- Some step of the run of `as` from `s` satisfies `E` (state before, action, state after). -/
def Occurs (step : σ → α → Option σ) (E : σ → α → σ → Prop) (s : σ) : List α → Prop
  | [] => False
  | a :: as => ∃ s', step s a = some s' ∧ (E s a s' ∨ Occurs step E s' as)

theorem exec_cons {s s' : σ} {a : α} {as : List α} :
    exec step s (a :: as) = some s' ↔ ∃ t, step s a = some t ∧ exec step t as = some s' := by
  simp [exec, Option.bind_eq_some_iff]

theorem exec_append {s : σ} {as bs : List α} :
    exec step s (as ++ bs) = (exec step s as).bind fun t => exec step t bs := by
  induction as generalizing s with
  | nil => rfl
  | cons a as ih =>
    simp only [List.cons_append, exec]
    cases step s a with
    | none => rfl
    | some t => exact ih

theorem exec_concat {s s' : σ} {as : List α} {a : α} :
    exec step s (as ++ [a]) = some s' ↔ ∃ t, exec step s as = some t ∧ step t a = some s' := by
  simp [exec_append, exec, Option.bind_eq_some_iff]

/-- A property that every step under the condition `C` keeps holds at the end of every run along `C`. -/
theorem exec_invariant {C : σ → α → Prop} {I : σ → Prop}
    (hstep : ∀ s a s', C s a → step s a = some s' → I s → I s') {s s' : σ} {as : List α}
    (hs : I s) (hC : Along step C s as) (h : exec step s as = some s') : I s' := by
  induction as generalizing s with
  | nil =>
    simp only [exec, Option.some.injEq] at h
    exact h ▸ hs
  | cons a as ih =>
    obtain ⟨t, ht, hr⟩ := exec_cons.1 h
    exact ih (hstep s a t hC.1 ht hs) (hC.2 t ht) hr

/-- The rule for a property of the state and of the actions so far. -/
theorem exec_history {C : σ → α → Prop} {s : σ} {J : List α → σ → Prop} (hs : J [] s)
    (hstep : ∀ as t a t', exec step s as = some t → C t a → step t a = some t' → J as t → J (as ++ [a]) t')
    {as : List α} {s' : σ} (hC : Along step C s as) (h : exec step s as = some s') : J as s' := by
  -- the induction is on the actions still to come, with those already done as a parameter
  suffices hgen : ∀ (bs done : List α) (t : σ), exec step s done = some t → J done t → Along step C t bs →
      ∀ t', exec step t bs = some t' → J (done ++ bs) t' from hgen as [] s rfl hs hC s' h
  intro bs
  induction bs with
  | nil =>
    intro done t _ hJ _ t' ht'
    simp only [exec, Option.some.injEq] at ht'
    simpa [← ht'] using hJ
  | cons b bs ih =>
    intro done t hdone hJ hCt t' ht'
    obtain ⟨u, hu, hr⟩ := exec_cons.1 ht'
    have hnext := ih (done ++ [b]) u (exec_concat.2 ⟨t, hdone, hu⟩) (hstep done t b u hdone hCt.1 hu hJ)
      (hCt.2 u hu) t' hr
    simpa using hnext

/-- A property that a run starts with and ends without is lost at one of its steps. -/
theorem exec_crossing {P : σ → Prop} {s s' : σ} {as : List α} (h : exec step s as = some s') (hs : P s)
    (hs' : ¬P s') :
    ∃ before a after t u, as = before ++ a :: after ∧ exec step s before = some t ∧ step t a = some u ∧
      exec step u after = some s' ∧ P t ∧ ¬P u := by
  induction as generalizing s with
  | nil =>
    obtain rfl := Option.some.inj h
    exact absurd hs hs'
  | cons a as ih =>
    obtain ⟨t, ht, hr⟩ := exec_cons.1 h
    by_cases hP : P t
    · obtain ⟨before, b, after, u, v, rfl, hu, hv, hrest, hPu, hPv⟩ := ih hr hP
      exact ⟨a :: before, b, after, u, v, rfl, exec_cons.2 ⟨t, ht, hu⟩, hv, hrest, hPu, hPv⟩
    · exact ⟨[], a, as, s, t, rfl, rfl, ht, hr, hs, hP⟩

/-- A condition on the actions alone. -/
theorem Along.of_forall {C : σ → α → Prop} {as : List α} (h : ∀ a ∈ as, ∀ s, C s a) {s : σ} : Along step C s as := by
  induction as generalizing s with
  | nil => trivial
  | cons a as ih =>
    exact ⟨h a (List.mem_cons_self ..) s, fun t _ => ih fun b hb => h b (List.mem_cons_of_mem _ hb)⟩

theorem Along.and {C D : σ → α → Prop} {s : σ} {as : List α} (hC : Along step C s as) (hD : Along step D s as) :
    Along step (fun s a => C s a ∧ D s a) s as := by
  induction as generalizing s with
  | nil => trivial
  | cons a as ih => exact ⟨⟨hC.1, hD.1⟩, fun t ht => ih (hC.2 t ht) (hD.2 t ht)⟩

theorem Along.append {C : σ → α → Prop} {s : σ} {as bs : List α} (has : Along step C s as)
    (hbs : ∀ t, exec step s as = some t → Along step C t bs) : Along step C s (as ++ bs) := by
  induction as generalizing s with
  | nil => exact hbs s rfl
  | cons a as ih => exact ⟨has.1, fun t ht => ih (has.2 t ht) fun u hu => hbs u (exec_cons.2 ⟨t, ht, hu⟩)⟩

theorem Along.left {C : σ → α → Prop} {s : σ} {as bs : List α} (h : Along step C s (as ++ bs)) :
    Along step C s as := by
  induction as generalizing s with
  | nil => trivial
  | cons a as ih => exact ⟨h.1, fun t ht => ih (h.2 t ht)⟩

theorem Along.of_append {C : σ → α → Prop} {s t : σ} {as bs : List α} (h : Along step C s (as ++ bs))
    (ht : exec step s as = some t) : Along step C t bs := by
  induction as generalizing s with
  | nil =>
    simp only [exec, Option.some.injEq] at ht
    exact ht ▸ h
  | cons a as ih =>
    obtain ⟨u, hu, hr⟩ := exec_cons.1 ht
    exact ih (h.2 u hu) hr

/-- Along a run whose steps keep `I`, a condition may be proved with `I` at hand. -/
theorem Along.of_invariant {C D : σ → α → Prop} {I : σ → Prop}
    (hstep : ∀ s a s', C s a → step s a = some s' → I s → I s') (hCD : ∀ s a, I s → C s a → D s a)
    {s : σ} {as : List α} (hs : I s) (h : Along step C s as) : Along step D s as := by
  induction as generalizing s with
  | nil => trivial
  | cons a as ih => exact ⟨hCD s a hs h.1, fun t ht => ih (hstep s a t h.1 ht hs) (h.2 t ht)⟩

/-- What no step can be that starts where the invariant holds does not occur along a run that keeps the invariant. -/
theorem Along.not_occurs {C : σ → α → Prop} {E : σ → α → σ → Prop} {I : σ → Prop}
    (hstep : ∀ s a s', C s a → step s a = some s' → I s → I s')
    (hE : ∀ s a s', C s a → step s a = some s' → I s → ¬E s a s') {s : σ} {as : List α} (hs : I s)
    (hC : Along step C s as) : ¬Occurs step E s as := by
  induction as generalizing s with
  | nil => exact id
  | cons a as ih =>
    rintro ⟨t, ht, hEt | hr⟩
    · exact hE s a t hC.1 ht hs hEt
    · exact ih (hstep s a t hC.1 ht hs) (hC.2 t ht) hr

/-- A run is free of `E` exactly when its steps meet the condition that tells whether a step is one of `E`. -/
theorem not_occurs_iff_along {C : σ → α → Prop} {E : σ → α → σ → Prop}
    (hE : ∀ s a s', step s a = some s' → (¬E s a s' ↔ C s a)) {s s' : σ} {as : List α}
    (h : exec step s as = some s') : ¬Occurs step E s as ↔ Along step C s as := by
  induction as generalizing s with
  | nil => exact ⟨fun _ => trivial, fun _ => id⟩
  | cons a as ih =>
    obtain ⟨t, ht, hr⟩ := exec_cons.1 h
    constructor
    · intro hno
      refine ⟨(hE s a t ht).1 fun hEt => hno ⟨t, ht, .inl hEt⟩, fun u hu => ?_⟩
      obtain rfl := Option.some.inj (ht.symm.trans hu)
      exact (ih hr).1 fun ho => hno ⟨t, ht, .inr ho⟩
    · rintro ⟨hC, hrest⟩ ⟨u, hu, hEu | ho⟩
      · exact (hE s a u hu).2 hC hEu
      · obtain rfl := Option.some.inj (ht.symm.trans hu)
        exact (ih hr).2 (hrest t ht) ho

/-- Some run whose steps meet the condition leads from the first state to the second. -/
def Reach (step : σ → α → Option σ) (C : σ → α → Prop) (s s' : σ) : Prop :=
  ∃ as, Along step C s as ∧ exec step s as = some s'

theorem Reach.refl {C : σ → α → Prop} (s : σ) : Reach step C s s := ⟨[], trivial, rfl⟩

theorem Reach.single {C : σ → α → Prop} {s s' : σ} {a : α} (hC : C s a) (h : step s a = some s') :
    Reach step C s s' :=
  ⟨[a], ⟨hC, fun _ _ => trivial⟩, exec_cons.2 ⟨s', h, rfl⟩⟩

theorem Reach.trans {C : σ → α → Prop} {s t u : σ} (h : Reach step C s t) (h' : Reach step C t u) :
    Reach step C s u := by
  obtain ⟨as, hC, has⟩ := h
  obtain ⟨bs, hC', hbs⟩ := h'
  refine ⟨as ++ bs, hC.append fun v hv => ?_, ?_⟩
  · rw [has, Option.some.injEq] at hv
    exact hv ▸ hC'
  · rw [exec_append, has]
    exact hbs

/-- What every step under the condition keeps, a run keeps. -/
theorem Reach.invariant {C : σ → α → Prop} {I : σ → Prop} {s s' : σ} (h : Reach step C s s')
    (hstep : ∀ s a s', C s a → step s a = some s' → I s → I s') (hs : I s) : I s' := by
  obtain ⟨as, hC, has⟩ := h
  exact exec_invariant hstep hs hC has

/-- When the measure can be brought down from every state that is not done, some run brings it to zero. -/
theorem Reach.exhaust {C : σ → α → Prop} {I : σ → Prop} (m : σ → Nat)
    (hdown : ∀ s, I s → m s ≠ 0 → ∃ t, Reach step C s t ∧ I t ∧ m t < m s) {s : σ} (hs : I s) :
    ∃ t, Reach step C s t ∧ I t ∧ m t = 0 := by
  induction hm : m s using Nat.strongRecOn generalizing s with
  | ind n ih =>
    by_cases hzero : m s = 0
    · exact ⟨s, .refl s, hs, hzero⟩
    · obtain ⟨t, hst, ht, hlt⟩ := hdown s hs hzero
      obtain ⟨u, htu, hu, hdone⟩ := ih (m t) (hm ▸ hlt) ht rfl
      exact ⟨u, hst.trans htu, hu, hdone⟩

/-- `Along` for a decidable condition, evaluated along the run. -/
def checkAlong (step : σ → α → Option σ) (p : σ → α → Bool) (s : σ) : List α → Bool
  | [] => true
  | a :: as => p s a && (step s a).all fun s' => checkAlong step p s' as

theorem Along.of_check {C : σ → α → Prop} [∀ s, DecidablePred (C s)] {s : σ} {as : List α}
    (h : checkAlong step (fun s a => C s a) s as = true) : Along step C s as := by
  induction as generalizing s with
  | nil => trivial
  | cons a as ih =>
    simp only [checkAlong, Bool.and_eq_true, decide_eq_true_eq] at h
    refine ⟨h.1, fun t ht => ih ?_⟩
    have hall := h.2
    rwa [ht] at hall

/-- `Occurs` for a decidable test of the steps, evaluated along the run. -/
def checkOccurs (step : σ → α → Option σ) (p : σ → α → σ → Bool) (s : σ) : List α → Bool
  | [] => false
  | a :: as => (step s a).any fun s' => p s a s' || checkOccurs step p s' as

theorem Occurs.of_check {E : σ → α → σ → Prop} {p : σ → α → σ → Bool} (hp : ∀ s a s', p s a s' = true → E s a s')
    {s : σ} {as : List α} (h : checkOccurs step p s as = true) : Occurs step E s as := by
  induction as generalizing s with
  | nil => cases h
  | cons a as ih =>
    cases ht : step s a with
    | none => simp [checkOccurs, ht] at h
    | some t =>
      simp only [checkOccurs, ht, Option.any_some, Bool.or_eq_true] at h
      exact ⟨t, ht, h.imp (hp s a t) ih⟩

/-- A run evaluated by a decidable test of its last state. -/
theorem exec_any (step : σ → α → Option σ) (s : σ) (as : List α) (p : σ → Bool)
    (h : (exec step s as).any p = true) :
    ∃ s', exec step s as = some s' ∧ p s' = true := by
  cases he : exec step s as with
  | none => simp [he] at h
  | some s' => exact ⟨s', rfl, by simpa [he] using h⟩

/-- The same for a run whose last state is given. -/
theorem exec_test {s s' : σ} {as : List α} (p : σ → Bool) (hs' : exec step s as = some s')
    (h : (exec step s as).any p = true) : p s' = true := by
  rwa [hs'] at h

end Exec
