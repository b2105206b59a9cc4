import Ticketing.Payments

/-!
# Refunds that are lost

The webhook commits its row of `stripe_events` before it calls Stripe, so a redelivery of the event is ignored
from then on.  A request that stops between the commit and the refund leaves the charge where it is, without
an alert: `except Exception` does not see a cancellation, and `_guard_inner_timeouts_are_shorter` compares the
timeout of the Stripe call with that of the whole request, which has also waited for the database
(`timed_out_refund_is_lost`).  These are the only stops that lose a refund (`refund_not_lost`).
-/

namespace Ticketing

/-- The refund that a session has committed to and that Stripe has not taken yet. -/
def Point.due : Point → Option RefundNeeded
  | .refund r => some r
  | .refunding r false => some r
  | _ => none

/-- The session that an action stops. -/
def TxAct.stops : TxAct → Option Nat
  | .crash n => some n
  | .timeOut n => some n
  | _ => none

namespace Backend

variable {t : Timeouts} {s s' : Backend} {n : Nat} {x : Session}

/-- The request of this event is still running and has its refund call before it. -/
def Refunding (s : Backend) (event : StripeEvent) (r : RefundNeeded) : Prop :=
  ∃ n x, s.sessions n = some x ∧ x.task.event = some event ∧ (x.point = .refund r ∨ x.point = .refunding r false)

/-- The refund is accepted, reported as failed, or still under way in the request that decided on it. -/
def RefundKept (s : Backend) (event : StripeEvent) (r : RefundNeeded) : Prop :=
  r.paymentIntent ∈ s.refunds ∨ .refundFailed r.paymentIntent ∈ s.alerts ∨ s.Refunding event r

/-- No request stops between its commit and the acceptance of its refund. -/
def NotCutShort (s : Backend) (a : TxAct) : Prop :=
  ∀ n ∈ a.stops, ∀ x ∈ s.sessions n, ∀ r ∈ x.point.due, r.paymentIntent ∈ s.refunds

instance (s : Backend) : DecidablePred (NotCutShort s) := fun a => by
  unfold NotCutShort
  infer_instance

/-! ### Steps that keep a refund -/

/-- A step of session `n` that takes nothing back keeps the refunds that other requests have under way. -/
theorem RefundKept.other {event : StripeEvent} {r : RefundNeeded} (h : s.RefundKept event r) {y : Option Session}
    (hsess : s'.sessions = Function.update s.sessions n y) (hrefunds : s.refunds ⊆ s'.refunds)
    (halerts : s.alerts ⊆ s'.alerts)
    (hself : ∀ x, s.sessions n = some x → x.task.event = some event →
      (x.point = .refund r ∨ x.point = .refunding r false) → s'.RefundKept event r) : s'.RefundKept event r := by
  rcases h with h | h | ⟨m, x, hx, he, hp⟩
  · exact .inl (hrefunds h)
  · exact .inr (.inl (halerts h))
  · by_cases hm : m = n
    · subst hm
      exact hself x hx he hp
    · refine .inr (.inr ⟨m, x, ?_, he, hp⟩)
      rwa [hsess, Function.update_of_ne hm]

/-- A session whose refund is not due can do what it likes. -/
theorem RefundKept.only {event : StripeEvent} {r : RefundNeeded} (h : s.RefundKept event r) {y : Option Session}
    (ho : Only s s' n y)
    (hdue : ∀ x, s.sessions n = some x → ∀ r, x.point.due = some r → r.paymentIntent ∈ s.refunds) :
    s'.RefundKept event r := by
  refine h.other ho.sessions ?_ ?_ fun x hx _ hp => .inl ?_
  · rw [ho.refunds]
    exact fun _ h => h
  · rw [ho.alerts]
    exact fun _ h => h
  · rw [ho.refunds]
    refine hdue x hx r ?_
    rcases hp with hp | hp <;> (rw [hp]; rfl)

private theorem due_of_owes {p : Point} (h : p.owes = none) {r : RefundNeeded} : p.due ≠ some r := by
  cases p with
  | refund r' => cases h
  | refunding r' accepted => cases h
  | _ => exact fun hEq => by cases hEq

private theorem due_eq_some {p : Point} {r : RefundNeeded} (h : p = .refund r ∨ p = .refunding r false) :
    p.due = some r := by
  rcases h with h | h <;> (rw [h]; rfl)

private theorem of_mem_decided_commit {after : After} {d : StripeEvent × RefundNeeded}
    (h : d ∈ (s.commit n x after).decided) : d ∈ s.decided ∨ x.task.event = some d.1 ∧ after = .refund d.2 := by
  have hpub : (s.commit n x after).decided = (s.publish n x after).decided := by cases after <;> rfl
  rw [hpub] at h
  simp only [Backend.publish] at h
  split at h
  · rename_i event r he
    rcases List.mem_append.1 h with h | h
    · exact .inl h
    · rw [List.mem_singleton.1 h]
      exact .inr ⟨he, rfl⟩
  · exact .inl h

/-- A step that does not cut a refund short keeps every refund that was decided on. -/
theorem RefundKept.step {a : TxAct} (hC : NotCutShort s a) (h : s.step t a = some s')
    (hi : ∀ d ∈ s.decided, s.RefundKept d.1 d.2) : ∀ d ∈ s'.decided, s'.RefundKept d.1 d.2 := by
  have hnone : ∀ {n : Nat} {x : Session}, s.sessions n = some x → x.point.owes = none →
      ∀ y, s.sessions n = some y → ∀ r, y.point.due = some r → r.paymentIntent ∈ s.refunds := by
    intro n x hx hp y hy r hr
    obtain rfl := Option.some.inj (hx.symm.trans hy)
    exact absurd hr (due_of_owes hp)
  cases kind_of_step h with
  | persist hins => exact hi
  | start hfree ho =>
    intro d hd
    rw [ho.decided] at hd
    refine (hi d hd).only ho fun y hy => ?_
    rw [hfree] at hy
    cases hy
  | quit hx hp ho =>
    intro d hd
    rw [ho.decided] at hd
    exact (hi d hd).only ho (hnone hx hp)
  | move hx hp ho =>
    intro d hd
    rw [ho.decided] at hd
    exact (hi d hd).only ho (hnone hx hp)
  | @commit n now x after hx hp =>
    have hkeep : ∀ d ∈ s.decided, (s.commit n x after).RefundKept d.1 d.2 := by
      intro d hd
      have hdue : ∀ y, s.sessions n = some y → y.task.event = some d.1 →
          (y.point = .refund d.2 ∨ y.point = .refunding d.2 false) → (s.commit n x after).RefundKept d.1 d.2 := by
        intro y hy _ hp'
        obtain rfl := Option.some.inj (hx.symm.trans hy)
        have hEq := due_eq_some hp'
        rw [hp] at hEq
        cases hEq
      have hkept := hi d hd
      cases after <;> exact hkept.other rfl (fun _ h => h) (fun _ h => h) hdue
    intro d hd
    rcases of_mem_decided_commit hd with hd | ⟨he, rfl⟩
    · exact hkeep d hd
    · exact .inr (.inr ⟨n, _, Function.update_self .., he, .inl rfl⟩)
  | @announce n now x r hx hp =>
    intro d hd
    refine (hi d hd).other rfl (fun _ h => h) (fun _ h => List.mem_append_left _ h) fun y hy he hp' => ?_
    obtain rfl := Option.some.inj (hx.symm.trans hy)
    refine .inr (.inr ⟨n, _, Function.update_self .., he, .inr ?_⟩)
    have hEq := due_eq_some hp'
    rw [hp] at hEq
    obtain rfl := Option.some.inj hEq
    rfl
  | @answer n now x r hx hp =>
    intro d hd
    refine (hi d hd).other rfl (fun _ h => h) (fun _ h => h) fun y hy _ hp' => ?_
    obtain rfl := Option.some.inj (hx.symm.trans hy)
    have hEq := due_eq_some hp'
    rw [hp] at hEq
    cases hEq
  | @accept n x r hx hp =>
    intro d hd
    refine (hi d hd).other rfl (fun _ h => List.mem_append_left _ h) (fun _ h => h) fun y hy _ hp' => .inl ?_
    obtain rfl := Option.some.inj (hx.symm.trans hy)
    have hEq := due_eq_some hp'
    rw [hp] at hEq
    obtain rfl := Option.some.inj hEq
    exact List.mem_append_right _ (List.mem_singleton_self _)
  | @fail n x r accepted hx hp =>
    intro d hd
    refine (hi d hd).other rfl (fun _ h => h) (fun _ h => List.mem_append_left _ h) fun y hy _ hp' => .inr (.inl ?_)
    obtain rfl := Option.some.inj (hx.symm.trans hy)
    have hr : r = d.2 := by
      rcases hp' with hp' | hp' <;> (rw [hp] at hp'; cases hp')
      rfl
    rw [hr]
    exact List.mem_append_right _ (List.mem_singleton_self _)
  | @wait n ms x hx elapsed waited =>
    intro d hd
    refine (hi d hd).other rfl (fun _ h => h) (fun _ h => h) fun y hy he hp' => ?_
    obtain rfl := Option.some.inj (hx.symm.trans hy)
    exact .inr (.inr ⟨n, _, Function.update_self .., he, hp'⟩)
  | crash =>
    intro d hd
    exact (hi d hd).only (.close s _) (hC _ rfl)
  | timeOut =>
    intro d hd
    exact (hi d hd).only (.close s _) (hC _ rfl)

/-! ### Redeliveries -/

/-- Only redeliveries of one event begin. -/
def Redelivers (event : StripeEventId) : TxAct → Prop
  | .start _ task => ∃ e, task = .webhook e ∧ e.id = event
  | _ => True

/-- The event is claimed, and every session that runs is a redelivery of it that has not got past `claim_event`. -/
structure Deaf (event : StripeEventId) (refunds : List PaymentIntentId) (s : Backend) : Prop where
  claimed : event ∈ s.stripeEvents
  session : ∀ n x, s.sessions n = some x → x.point = .claim ∧ ∀ e, x.task.event = some e → e.id = event
  refunds : s.refunds = refunds

theorem Deaf.close {event : StripeEventId} {refunds : List PaymentIntentId} (h : Deaf event refunds s) (n : Nat) :
    Deaf event refunds (s.close n) where
  claimed := h.claimed
  session m x hx := by
    by_cases hm : m = n
    · subst hm
      simp [Backend.close] at hx
    · exact h.session m x ((Function.update_of_ne hm _ _).symm.trans hx)
  refunds := h.refunds

theorem Deaf.set {event : StripeEventId} {refunds : List PaymentIntentId} (h : Deaf event refunds s)
    (hp : x.point = .claim) (he : ∀ e, x.task.event = some e → e.id = event) : Deaf event refunds (s.set n x) where
  claimed := h.claimed
  session m y hy := by
    by_cases hm : m = n
    · subst hm
      simp only [Backend.set, Function.update_self, Option.some.injEq] at hy
      subst hy
      exact ⟨hp, he⟩
    · exact h.session m y ((Function.update_of_ne hm _ _).symm.trans hy)
  refunds := h.refunds

/-- A redelivery of a claimed event does nothing. -/
theorem Deaf.step {event : StripeEventId} {refunds : List PaymentIntentId} {a : TxAct} (ha : Redelivers event a)
    (h : s.step t a = some s') (hi : Deaf event refunds s) : Deaf event refunds s' := by
  cases a with
  | persist intent id fk =>
    simp only [Backend.step] at h
    split at h
    · obtain ⟨db, -, rfl⟩ := Option.map_eq_some_iff.1 h
      exact ⟨hi.claimed, hi.session, hi.refunds⟩
    · cases h
  | start n task =>
    obtain ⟨e, rfl, he⟩ := ha
    simp only [Backend.step, Backend.start] at h
    split at h
    · cases h
    · obtain rfl := Option.some.inj h
      refine hi.set rfl fun e' he' => ?_
      cases he'
      exact he
  | run n now =>
    obtain ⟨x, hx, h⟩ := Option.bind_eq_some_iff.1 h
    obtain ⟨hp, he⟩ := hi.session n x hx
    simp only [Backend.run, hp] at h
    split at h
    · rename_i e hEq
      rw [Backend.claimEvent, he e hEq, if_pos hi.claimed] at h
      obtain rfl := Option.some.inj h
      exact hi.close n
    · cases h
  | acceptRefund n =>
    obtain ⟨x, hx, h⟩ := Option.bind_eq_some_iff.1 h
    simp only [Backend.acceptRefund, (hi.session n x hx).1] at h
    cases h
  | failRefund n =>
    obtain ⟨x, hx, h⟩ := Option.bind_eq_some_iff.1 h
    simp only [Backend.failRefund, (hi.session n x hx).1] at h
    cases h
  | wait n ms =>
    obtain ⟨x, hx, h⟩ := Option.bind_eq_some_iff.1 h
    split at h
    · obtain rfl := Option.some.inj h
      exact hi.set (hi.session n x hx).1 (hi.session n x hx).2
    · cases h
  | crash n =>
    obtain rfl := Option.some.inj h
    exact hi.close n
  | timeOut n =>
    obtain ⟨x, -, h⟩ := Option.bind_eq_some_iff.1 h
    split at h
    · obtain rfl := Option.some.inj h
      exact hi.close n
    · cases h

/-- Once an event is claimed and no session runs, no number of its redeliveries makes a refund. -/
theorem no_refund_of_redeliveries {event : StripeEventId} (hclaimed : event ∈ s.stripeEvents)
    (hidle : ∀ n, s.sessions n = none) {acts : List TxAct} (hacts : ∀ a ∈ acts, Redelivers event a)
    (h : Exec.exec (Backend.step t) s acts = some s') : s'.refunds = s.refunds := by
  have hdeaf : Deaf event s.refunds s := by
    refine ⟨hclaimed, fun n x hx => ?_, rfl⟩
    rw [hidle n] at hx
    cases hx
  exact (Exec.exec_invariant (C := fun _ => Redelivers event) (fun _ _ _ ha hstep hi => hi.step ha hstep) hdeaf
    (.of_forall fun a ha _ => hacts a ha) h).refunds

/-- The actions begin sessions with numbers below `k` only. -/
def StartsBelow (k : Nat) : TxAct → Prop
  | .start n _ => n < k
  | _ => True

private theorem idle_step {k : Nat} {a : TxAct} (ha : StartsBelow k a) (h : s.step t a = some s')
    (hi : ∀ n, k ≤ n → s.sessions n = none) : ∀ n, k ≤ n → s'.sessions n = none := by
  have hlt : ∀ {m : Nat} {x : Session}, s.sessions m = some x → m < k := by
    intro m x hx
    by_contra hge
    rw [hi m (by omega)] at hx
    cases hx
  have hup : ∀ {m : Nat} {y : Option Session}, (y = none ∨ m < k) → s'.sessions = Function.update s.sessions m y →
      ∀ n, k ≤ n → s'.sessions n = none := by
    intro m y hy hsess n hn
    rw [hsess]
    by_cases hm : n = m
    · subst hm
      rw [Function.update_self]
      exact hy.resolve_right (by omega)
    · rw [Function.update_of_ne hm]
      exact hi n hn
  cases kind_of_step h with
  | persist => exact hi
  | start _ ho => exact hup (.inr ha) ho.sessions
  | quit _ _ ho => exact hup (.inl rfl) ho.sessions
  | move hx _ ho => exact hup (.inr (hlt hx)) ho.sessions
  | @commit _ _ _ after hx =>
    cases after with
    | nothing => exact hup (.inl rfl) rfl
    | _ => exact hup (.inr (hlt hx)) rfl
  | announce hx => exact hup (.inr (hlt hx)) rfl
  | answer => exact hup (.inl rfl) rfl
  | accept hx => exact hup (.inr (hlt hx)) rfl
  | fail => exact hup (.inl rfl) rfl
  | wait hx => exact hup (.inr (hlt hx)) rfl
  | crash => exact hup (.inl rfl) rfl
  | timeOut => exact hup (.inl rfl) rfl

/-- A run that begins sessions below `k` only leaves no session from `k` on. -/
theorem idle_from {k : Nat} {s₀ : Backend} {acts : List TxAct} (h₀ : s₀.Start) (ha : ∀ a ∈ acts, StartsBelow k a)
    (h : Exec.exec (Backend.step t) s₀ acts = some s) : ∀ n, k ≤ n → s.sessions n = none :=
  Exec.exec_invariant (C := fun _ => StartsBelow k) (I := fun s => ∀ n, k ≤ n → s.sessions n = none)
    (fun _ _ _ ha hstep hi => idle_step ha hstep hi) (fun n _ => h₀.sessions n) (.of_forall fun a h _ => ha a h) h

/-! ### The refund of a request -/

/-- Order 7 is cancelled, then its payment arrives; the request has waited nine seconds for the database when
it commits, and times out while Stripe takes its time. -/
def slowRefund : List TxAct :=
  [.persist twoSeats 7 true, .start 1 (.cancel 7 1), .run 1 1, .run 1 2, .run 1 3, .run 1 4, .run 1 5,
    .start 0 (.webhook (succeeded 900)), .wait 0 9000, .run 0 6, .run 0 7, .run 0 8, .run 0 9,
    .wait 0 6000, .timeOut 0]

/-- With the default timeouts, which pass their guard, the refund is neither made nor reported, and no
redelivery of the event makes it. -/
theorem timed_out_refund_is_lost :
    blank.Start ∧ Timeouts.guardInnerTimeoutsAreShorter {} = true ∧
      ∃ s d, Exec.exec (step {}) blank slowRefund = some s ∧ d ∈ s.decided ∧ d.1 = succeeded 900 ∧
        d.1.id ∈ s.stripeEvents ∧ ¬ s.RefundKept d.1 d.2 ∧
        ∀ acts s', (∀ a ∈ acts, Redelivers 900 a) → Exec.exec (step {}) s acts = some s' →
          d.2.paymentIntent ∉ s'.refunds := by
  refine ⟨blank_start, by decide, ?_⟩
  obtain ⟨s, hs, hp⟩ := Exec.exec_any (step {}) blank slowRefund
    (fun s => s.refunds = [] ∧ 900 ∈ s.stripeEvents ∧ s.sessions 0 = none ∧ s.sessions 1 = none ∧
      ∃ d ∈ s.decided, d.1 = succeeded 900 ∧ .refundFailed d.2.paymentIntent ∉ s.alerts) (by decide +kernel)
  rw [decide_eq_true_eq] at hp
  obtain ⟨hrefunds, hclaimed, hzero, hone, d, hd, he, halerts⟩ := hp
  have hidle : ∀ n, s.sessions n = none := by
    intro n
    rcases (by omega : n = 0 ∨ n = 1 ∨ 2 ≤ n) with rfl | rfl | hn
    · exact hzero
    · exact hone
    · exact idle_from blank_start (by simp [slowRefund, StartsBelow]) hs n hn
  refine ⟨s, d, hs, hd, he, by rw [he]; exact hclaimed, ?_, ?_⟩
  · rintro (hmem | hmem | ⟨n, x, hx, -⟩)
    · rw [hrefunds] at hmem
      cases hmem
    · exact halerts hmem
    · rw [hidle n] at hx
      cases hx
  · intro acts s' hacts h
    rw [no_refund_of_redeliveries hclaimed hidle hacts h, hrefunds]
    exact List.not_mem_nil

/-- No charge is silently kept: in every run in which no request stops between its commit and the acceptance of its
refund, every refund that was decided on and committed is accepted, reported as failed, or still to be made by the
request that is running. -/
theorem refund_not_lost {s₀ : Backend} {acts : List TxAct} (h₀ : s₀.Start)
    (hC : Exec.Along (Backend.step t) NotCutShort s₀ acts) (h : Exec.exec (Backend.step t) s₀ acts = some s) :
    ∀ d ∈ s.decided, s.RefundKept d.1 d.2 := by
  have hstart : ∀ d ∈ s₀.decided, s₀.RefundKept d.1 d.2 := by simp [h₀.decided]
  exact Exec.exec_invariant (I := fun s => ∀ d ∈ s.decided, s.RefundKept d.1 d.2)
    (fun _ _ _ hc hstep hi => RefundKept.step hc hstep hi) hstart hC h

/-- The cancelled order of a request that is not stopped. -/
theorem refund_not_lost_cancelled :
    ∃ s, Exec.exec (step {}) blank cancelledPayment = some s ∧ s.decided ≠ [] ∧
      ∀ d ∈ s.decided, s.RefundKept d.1 d.2 := by
  obtain ⟨s, hs, hp⟩ := Exec.exec_any (step {}) blank cancelledPayment (fun s => s.decided ≠ []) (by decide +kernel)
  rw [decide_eq_true_eq] at hp
  exact ⟨s, hs, hp, refund_not_lost blank_start (.of_check (by decide +kernel)) hs⟩

end Backend

end Ticketing
