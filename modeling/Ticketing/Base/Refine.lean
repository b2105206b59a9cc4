import Ticketing.Base.Exec

/-!
# Refinement of one partial step function by another

A step of the concrete system shows a list of labels, and the labels are the actions of an abstract system.  When
every step from a state that satisfies the invariant is a run of the abstract system between the abstractions of the
two states, the labels of a whole run are a run of the abstract system (`exec_refines`), and what the abstract system
keeps holds of the abstraction of every state reached (`exec_refines_invariant`).
-/

namespace Exec

variable {σ α τ β : Type*} {step : σ → α → Option σ} {spec : τ → β → Option τ} {obs : σ → α → σ → List β}

/-- The labels that the steps of a run show, one after the other. -/
def trace (step : σ → α → Option σ) (obs : σ → α → σ → List β) (s : σ) : List α → List β
  | [] => []
  | a :: as => (step s a).elim [] fun s' => obs s a s' ++ trace step obs s' as

theorem trace_cons {s s' : σ} {a : α} {as : List α} (h : step s a = some s') :
    trace step obs s (a :: as) = obs s a s' ++ trace step obs s' as := by
  simp [trace, h]

/-- What a step is to the abstract system, from a state that satisfies the invariant. -/
def Refines (step : σ → α → Option σ) (C : σ → α → Prop) (I : σ → Prop) (spec : τ → β → Option τ) (abs : σ → τ)
    (obs : σ → α → σ → List β) : Prop :=
  ∀ s a s', C s a → I s → step s a = some s' → exec spec (abs s) (obs s a s') = some (abs s')

variable {C : σ → α → Prop} {I : σ → Prop} {abs : σ → τ}

/-- The labels of a run are a run of the abstract system. -/
theorem exec_refines (hR : Refines step C I spec abs obs)
    (hstep : ∀ s a s', C s a → step s a = some s' → I s → I s') {s s' : σ} {as : List α} (hs : I s)
    (hC : Along step C s as) (h : exec step s as = some s') :
    exec spec (abs s) (trace step obs s as) = some (abs s') := by
  induction as generalizing s with
  | nil =>
    obtain rfl := Option.some.inj h
    rfl
  | cons a as ih =>
    obtain ⟨t, ht, hr⟩ := exec_cons.1 h
    rw [trace_cons ht, exec_append, hR s a t hC.1 hs ht]
    exact ih (hstep s a t hC.1 ht hs) (hC.2 t ht) hr

/-- What the abstract system keeps holds of the abstraction of every state that a run reaches. -/
theorem exec_refines_invariant {J : τ → Prop} (hR : Refines step C I spec abs obs)
    (hstep : ∀ s a s', C s a → step s a = some s' → I s → I s')
    (hJ : ∀ t b t', spec t b = some t' → J t → J t') {s s' : σ} {as : List α} (hs : I s) (hJs : J (abs s))
    (hC : Along step C s as) (h : exec step s as = some s') : J (abs s') := by
  have hrun := exec_refines hR hstep hs hC h
  exact exec_invariant (C := fun _ _ => True) (fun t b t' _ ht => hJ t b t' ht) hJs
    (Along.of_forall fun _ _ _ => trivial) hrun

end Exec
