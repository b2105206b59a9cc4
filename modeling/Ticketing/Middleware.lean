import Mathlib.Algebra.BigOperators.Group.List.Basic
import Mathlib.Algebra.Order.Ring.Nat
import Ticketing.Base.Json

/-!
# The guards around every request

`BodySizeLimitMiddleware`, `RequestTimeoutMiddleware` and `TraceIdMiddleware`, each around an
application that may do anything: it is a tree of what it awaits and of how it goes on with each
outcome.  `TraceIdMiddleware` is the outermost of them, the timeout is the innermost.  The CORS layer
and `ServerErrorMiddleware`, which answers a request whose application has raised, are left out.

What the stack does with an application is what the application does by itself in some run, followed
by an error response in two cases (`requestTimeout_run`, `bodySizeLimit_run`).
-/

namespace Ticketing

namespace Http

/-- What is raised. -/
inductive Thrown where
  /-- `_BodyTooLarge` -/
  | bodyTooLarge
  /-- `CancelledError` -/
  | cancelled
  /-- `TimeoutError` -/
  | timeout
  /-- The `RuntimeError` of a timer that is moved while it expires. -/
  | runtime
  /-- `ValueError` -/
  | value
  | other (n : Nat)
deriving DecidableEq

inductive Incoming where
  /-- `http.request` -/
  | request (body : List UInt8) (moreBody : Bool)
  /-- `http.disconnect` -/
  | disconnect
deriving DecidableEq

inductive Outgoing where
  /-- `http.response.start` -/
  | start (status : Nat) (headers : List (String × String))
  /-- `http.response.body` -/
  | body (text : String) (moreBody : Bool)
deriving DecidableEq

def Outgoing.isStart : Outgoing → Bool
  | start .. => true
  | body .. => false

/-- An ASGI application, from one await to the next.  It learns how long each took and how it ended. -/
inductive App where
  | returns
  | raises (e : Thrown)
  | receive (k : Nat → Except Thrown Incoming → App)
  | send (message : Outgoing) (k : Nat → Except Thrown Unit → App)
  /-- Anything else that it waits for. -/
  | work (k : Nat → Except Thrown Unit → App)

/-- How an await ends. -/
structure Turn where
  /-- In microseconds. -/
  elapsed : Nat
  /-- What `receive` gives. -/
  incoming : Except Thrown Incoming
  /-- How any other await ends. -/
  done : Except Thrown Unit

inductive Ending where
  | returned
  | raised (e : Thrown)
  /-- It still awaits something. -/
  | awaiting
deriving DecidableEq

/-- What an application has handed to the server, what it was given, and how it ended. -/
structure Served where
  sent : List Outgoing
  received : List Incoming
  ending : Ending

namespace App

/-- The messages that `receive` gave. -/
def given : Except Thrown Incoming → List Incoming
  | .ok message => [message]
  | .error _ => []

def run : App → List Turn → Served
  | returns, _ => ⟨[], [], .returned⟩
  | raises e, _ => ⟨[], [], .raised e⟩
  | receive _, [] => ⟨[], [], .awaiting⟩
  | send _ _, [] => ⟨[], [], .awaiting⟩
  | work _, [] => ⟨[], [], .awaiting⟩
  | receive k, t :: ts =>
    let rest := (k t.elapsed t.incoming).run ts
    { rest with received := given t.incoming ++ rest.received }
  | send message k, t :: ts =>
    let rest := (k t.elapsed t.done).run ts
    { rest with sent := message :: rest.sent }
  | work k, t :: ts => (k t.elapsed t.done).run ts

/-- `_send_json` -/
def sendJson (status : Nat) (detail : String) : App :=
  let body := (JsonValue.dict [(.str "detail", .str detail)]).dumps
  let headers := [("content-type", "application/json"), ("content-length", toString body.utf8ByteSize)]
  .send (.start status headers) fun _ result =>
    match result with
    | .error e => .raises e
    | .ok _ => .send (.body body false) fun _ result =>
      match result with
      | .error e => .raises e
      | .ok _ => .returns

end App

/-! ### The three layers -/

/-- The `Timeout` of `asyncio.timeout`. -/
inductive Timer where
  /-- `reschedule(None)` -/
  | off
  | left (micros : Nat)
  /-- The task has been cancelled. -/
  | expiring
deriving DecidableEq

namespace Timer

/-- The timer runs out during an await. -/
def expires (timer : Timer) (elapsed : Nat) : Bool :=
  match timer with
  | left micros => micros < elapsed
  | _ => false

/-- The timer after an await. -/
def next (timer : Timer) (elapsed : Nat) : Timer :=
  match timer with
  | left micros => if micros < elapsed then expiring else left (micros - elapsed)
  | t => t

/-- How long the application has waited. -/
def spent (timer : Timer) (elapsed : Nat) : Nat :=
  match timer with
  | left micros => min micros elapsed
  | _ => elapsed

/-- What the application sees of an await: a cancellation where the timer runs out. -/
def outcome {α : Type} (timer : Timer) (elapsed : Nat) (result : Except Thrown α) : Except Thrown α :=
  if timer.expires elapsed then .error .cancelled else result

end Timer

/-- The errors that become a `TimeoutError` at the end of the block, or are one. -/
def Thrown.timesOut (timer : Timer) (e : Thrown) : Bool := e == .timeout || (e == .cancelled && timer == .expiring)

/-- `RequestTimeoutMiddleware`; `started` is `response_started`. -/
def requestTimeout (timer : Timer) (started : Bool) : App → App
  | .returns => .returns
  | .raises e =>
      if e.timesOut timer then (if started then .returns else .sendJson 504 "request timed out") else .raises e
  | .receive k => .receive fun elapsed result =>
      requestTimeout (timer.next elapsed) started (k (timer.spent elapsed) (timer.outcome elapsed result))
  | .send (.start status headers) k =>
    if timer = .expiring then requestTimeout timer true (k 0 (.error .runtime))
    else .send (.start status headers) fun elapsed result => requestTimeout .off true (k elapsed result)
  | .send (.body text moreBody) k => .send (.body text moreBody) fun elapsed result =>
      requestTimeout (timer.next elapsed) started (k (timer.spent elapsed) (timer.outcome elapsed result))
  | .work k => .work fun elapsed result =>
      requestTimeout (timer.next elapsed) started (k (timer.spent elapsed) (timer.outcome elapsed result))

/-- `_reject` -/
def reject (maxBytes : Nat) : App := .sendJson 413 s!"request body exceeds {maxBytes} bytes"

/-- The size of a request message. -/
def Incoming.size : Incoming → Nat
  | .request body _ => body.length
  | .disconnect => 0

/-- `receive_counting`, after so many bytes. -/
def counting (maxBytes received : Nat) : Except Thrown Incoming → Except Thrown Incoming
  | .ok (.request body moreBody) =>
      if maxBytes < received + body.length then .error .bodyTooLarge else .ok (.request body moreBody)
  | result => result

/-- The bytes counted after a message. -/
def countUp (received : Nat) : Except Thrown Incoming → Nat
  | .ok message => received + message.size
  | .error _ => received

/-- The rest of `BodySizeLimitMiddleware`, after so many bytes. -/
def bodySizeLimit (maxBytes : Nat) (received : Nat) : App → App
  | .returns => .returns
  | .raises e => if e = .bodyTooLarge then reject maxBytes else .raises e
  | .receive k => .receive fun elapsed result =>
      bodySizeLimit maxBytes (countUp received result) (k elapsed (counting maxBytes received result))
  | .send message k => .send message fun elapsed result => bodySizeLimit maxBytes received (k elapsed result)
  | .work k => .work fun elapsed result => bodySizeLimit maxBytes received (k elapsed result)

/-- `MutableHeaders(scope=message).append(RESPONSE_HEADER, trace_id)` -/
def Outgoing.traced (traceId : String) : Outgoing → Outgoing
  | start status headers => start status (headers ++ [("X-Request-Id", traceId)])
  | message => message

/-- `TraceIdMiddleware` -/
def traceId (id : String) : App → App
  | .returns => .returns
  | .raises e => .raises e
  | .receive k => .receive fun elapsed result => traceId id (k elapsed result)
  | .send message k => .send (message.traced id) fun elapsed result => traceId id (k elapsed result)
  | .work k => .work fun elapsed result => traceId id (k elapsed result)

/-- `except ValueError: pass`, with what follows after it. -/
def exceptValueError (next : App) : App → App
  | .returns => .returns
  | .raises e => if e = .value then next else .raises e
  | .receive k => .receive fun elapsed result => exceptValueError next (k elapsed result)
  | .send message k => .send message fun elapsed result => exceptValueError next (k elapsed result)
  | .work k => .work fun elapsed result => exceptValueError next (k elapsed result)

structure HttpSettings where
  /-- `MAX_REQUEST_BODY_BYTES` -/
  maxBytes : Nat := 1048576
  /-- `REQUEST_TIMEOUT_SECONDS` in microseconds; there is no such layer at `0`. -/
  timeout : Nat := 15000000

/-- The application with the timeout. -/
def timed (cfg : HttpSettings) (app : App) : App :=
  if 0 < cfg.timeout then requestTimeout (.left cfg.timeout) false app else app

/-- The layers below `TraceIdMiddleware`; `declared` is the `Content-Length`, where that is a number. -/
def limited (cfg : HttpSettings) (declared : Option Int) (app : App) : App :=
  let counted := bodySizeLimit cfg.maxBytes 0 (timed cfg app)
  -- the 413 of a declared size is sent inside the `try` around `int(declared)`
  if declared.any ((cfg.maxBytes : Int) < ·) then exceptValueError counted (reject cfg.maxBytes) else counted

/-- The application with the layers of `main.py` around it. -/
def guarded (cfg : HttpSettings) (id : String) (declared : Option Int) (app : App) : App :=
  traceId id (limited cfg declared app)

/-! ### What a layer makes of a run -/

/-- The number of responses that were started. -/
def starts (sent : List Outgoing) : Nat := sent.countP Outgoing.isStart

/-- The bytes that an application was given. -/
def bytes (received : List Incoming) : Nat := (received.map Incoming.size).sum

@[simp] theorem bytes_append (l l' : List Incoming) : bytes (l ++ l') = bytes l + bytes l' := by simp [bytes]

@[simp] theorem starts_append (l l' : List Outgoing) : starts (l ++ l') = starts l + starts l' := List.countP_append

theorem isStart_traced (id : String) (message : Outgoing) : (message.traced id).isStart = message.isStart := by
  cases message <;> rfl

theorem starts_traced (id : String) (sent : List Outgoing) :
    starts (sent.map (Outgoing.traced id)) = starts sent := by
  rw [starts, List.countP_map]
  exact List.countP_congr fun message _ => by rw [Function.comp_apply, isStart_traced]

theorem traceId_run (id : String) (app : App) (ts : List Turn) :
    (traceId id app).run ts = { app.run ts with sent := (app.run ts).sent.map (Outgoing.traced id) } := by
  induction app generalizing ts with
  | returns => rfl
  | raises e => rfl
  | receive k ih =>
    cases ts with
    | nil => rfl
    | cons t ts =>
      simp only [traceId, App.run]
      rw [ih t.elapsed t.incoming ts]
  | send message k ih =>
    cases ts with
    | nil => rfl
    | cons t ts =>
      simp only [traceId, App.run]
      rw [ih t.elapsed t.done ts]
      rfl
  | work k ih =>
    cases ts with
    | nil => rfl
    | cons t ts => exact ih t.elapsed t.done ts

/-- An error response is one response, and raises what the server raises. -/
theorem sendJson_run (status : Nat) (detail : String) (ts : List Turn) :
    starts ((App.sendJson status detail).run ts).sent ≤ 1 ∧
      ∀ e, ((App.sendJson status detail).run ts).ending = .raised e → ∃ t ∈ ts, t.done = .error e := by
  rcases ts with _ | ⟨t, _ | ⟨t', ts⟩⟩
  · exact ⟨Nat.zero_le _, fun e he => by cases he⟩
  · simp only [App.sendJson, App.run]
    cases hdone : t.done with
    | error e =>
      refine ⟨Nat.le_refl _, fun e' he => ⟨t, by simp, ?_⟩⟩
      rw [hdone, Ending.raised.inj he]
    | ok _ => exact ⟨Nat.le_refl _, fun e he => by cases he⟩
  · simp only [App.sendJson, App.run]
    cases hdone : t.done with
    | error e =>
      refine ⟨Nat.le_refl _, fun e' he => ⟨t, by simp, ?_⟩⟩
      rw [hdone, Ending.raised.inj he]
    | ok _ =>
      simp only [App.run]
      cases hdone' : t'.done with
      | error e =>
        refine ⟨Nat.le_refl _, fun e' he => ⟨t', by simp, ?_⟩⟩
        rw [hdone', Ending.raised.inj he]
      | ok _ => exact ⟨Nat.le_refl _, fun e he => by cases he⟩

/-- An await as the application sees it: no longer than it was, with what it gave or an error. -/
structure Turn.SeenAs (t t' : Turn) : Prop where
  elapsed : t'.elapsed ≤ t.elapsed
  incoming : t'.incoming = t.incoming ∨ ∃ e, t'.incoming = .error e
  done : t'.done = t.done ∨ ∃ e, t'.done = .error e

/-- The awaits of the server as the application sees them through the layers. -/
inductive Seen : List Turn → List Turn → Prop
  | rest (ts : List Turn) : Seen ts []
  | turn {t t' : Turn} {ts ts' : List Turn} (h : t.SeenAs t') (hs : Seen ts ts') : Seen (t :: ts) (t' :: ts')
  /-- A layer raised before the server was asked. -/
  | refused {t' : Turn} {ts ts' : List Turn} (hin : ∃ e, t'.incoming = .error e) (hdone : ∃ e, t'.done = .error e)
      (hs : Seen ts ts') : Seen ts (t' :: ts')

theorem Turn.SeenAs.refl (t : Turn) : t.SeenAs t := ⟨Nat.le_refl _, .inl rfl, .inl rfl⟩

theorem Turn.SeenAs.trans {t t' t'' : Turn} (h : t.SeenAs t') (h' : t'.SeenAs t'') : t.SeenAs t'' where
  elapsed := Nat.le_trans h'.elapsed h.elapsed
  incoming := by
    rcases h'.incoming with hsame | hfailed
    · rw [hsame]
      exact h.incoming
    · exact .inr hfailed
  done := by
    rcases h'.done with hsame | hfailed
    · rw [hsame]
      exact h.done
    · exact .inr hfailed

theorem Seen.refl (ts : List Turn) : Seen ts ts := by
  induction ts with
  | nil => exact .rest []
  | cons t ts ih => exact .turn (.refl t) ih

private theorem Seen.cons {t' t'' : Turn} {ts rest rest' : List Turn} (h : Seen ts (t' :: rest))
    (hturn : t'.SeenAs t'') (hrest : ∀ {ts}, Seen ts rest → Seen ts rest') : Seen ts (t'' :: rest') := by
  cases h with
  | turn hturn' hs => exact .turn (hturn'.trans hturn) (hrest hs)
  | refused hin hdone hs =>
    refine .refused ?_ ?_ (hrest hs)
    · rcases hturn.incoming with hsame | hfailed
      · rwa [hsame]
      · exact hfailed
    · rcases hturn.done with hsame | hfailed
      · rwa [hsame]
      · exact hfailed

theorem Seen.trans {ts ts' ts'' : List Turn} (h : Seen ts ts') (h' : Seen ts' ts'') : Seen ts ts'' := by
  induction h' generalizing ts with
  | rest ts' => exact .rest ts
  | refused hin hdone _ ih => exact .refused hin hdone (ih h)
  | turn hturn hs ih => exact h.cons hturn ih

private theorem counting_seen (maxBytes received : Nat) (result : Except Thrown Incoming) :
    counting maxBytes received result = result ∨ ∃ e, counting maxBytes received result = .error e := by
  rcases result with e | ⟨body, moreBody⟩ | _
  · exact .inl rfl
  · rw [counting]
    split
    · exact .inr ⟨_, rfl⟩
    · exact .inl rfl
  · exact .inl rfl

/-- Under the limit an application runs as it would run by itself on fewer bytes than the limit, except that
the error of too many bytes becomes a response. -/
theorem bodySizeLimit_run (maxBytes received : Nat) (app : App) (ts : List Turn) :
    ∃ ts' : List Turn, bytes (app.run ts').received ≤ maxBytes - received ∧
      ts'.map Turn.done <+: ts.map Turn.done ∧ Seen ts ts' ∧
      (((app.run ts').ending ≠ .raised .bodyTooLarge ∧
          ((bodySizeLimit maxBytes received app).run ts).sent = (app.run ts').sent) ∨
        ((app.run ts').ending = .raised .bodyTooLarge ∧
          ∃ rest, ((bodySizeLimit maxBytes received app).run ts).sent =
            (app.run ts').sent ++ ((reject maxBytes).run rest).sent)) := by
  induction app generalizing received ts with
  | returns => exact ⟨[], Nat.zero_le _, List.nil_prefix, .rest _, .inl ⟨by simp [App.run], rfl⟩⟩
  | raises e =>
    by_cases he : e = .bodyTooLarge
    · refine ⟨[], Nat.zero_le _, List.nil_prefix, .rest _, .inr ⟨by rw [he]; rfl, ts, ?_⟩⟩
      rw [bodySizeLimit, if_pos he]
      rfl
    · refine ⟨[], Nat.zero_le _, List.nil_prefix, .rest _, .inl ⟨fun h => he (Ending.raised.inj h), ?_⟩⟩
      rw [bodySizeLimit, if_neg he]
      rfl
  | receive k ih =>
    cases ts with
    | nil => exact ⟨[], Nat.zero_le _, List.nil_prefix, .rest _, .inl ⟨by simp [App.run], rfl⟩⟩
    | cons t ts =>
      obtain ⟨ts', hbytes, hdone, hseen, hsent⟩ := ih t.elapsed (counting maxBytes received t.incoming)
        (countUp received t.incoming) ts
      refine ⟨⟨t.elapsed, counting maxBytes received t.incoming, t.done⟩ :: ts', ?_,
        List.cons_prefix_cons.2 ⟨rfl, hdone⟩,
        .turn ⟨Nat.le_refl _, counting_seen maxBytes received t.incoming, .inl rfl⟩ hseen, hsent⟩
      simp only [App.run, bytes_append]
      rcases hin : t.incoming with e | ⟨body, moreBody⟩ | _
      · rw [hin] at hbytes
        simpa [App.given, counting, countUp, bytes] using hbytes
      · rw [hin] at hbytes
        simp only [counting, countUp, Incoming.size] at hbytes ⊢
        split
        · rename_i hover
          rw [if_pos hover] at hbytes
          simp only [App.given, bytes, List.map_nil, List.sum_nil] at hbytes ⊢
          omega
        · rename_i hfits
          rw [if_neg hfits] at hbytes
          simp only [App.given, bytes, List.map_cons, List.map_nil, List.sum_cons, List.sum_nil,
            Incoming.size] at hbytes ⊢
          omega
      · rw [hin] at hbytes
        simpa [App.given, counting, countUp, bytes, Incoming.size] using hbytes
  | send message k ih =>
    cases ts with
    | nil => exact ⟨[], Nat.zero_le _, List.nil_prefix, .rest _, .inl ⟨by simp [App.run], rfl⟩⟩
    | cons t ts =>
      obtain ⟨ts', hbytes, hdone, hseen, hsent⟩ := ih t.elapsed t.done received ts
      refine ⟨t :: ts', hbytes, List.cons_prefix_cons.2 ⟨rfl, hdone⟩, .turn (.refl t) hseen, ?_⟩
      simp only [bodySizeLimit, App.run]
      rcases hsent with ⟨hend, hsent⟩ | ⟨hend, rest, hsent⟩
      · exact .inl ⟨hend, by rw [hsent]⟩
      · exact .inr ⟨hend, rest, by rw [hsent, List.cons_append]⟩
  | work k ih =>
    cases ts with
    | nil => exact ⟨[], Nat.zero_le _, List.nil_prefix, .rest _, .inl ⟨by simp [App.run], rfl⟩⟩
    | cons t ts =>
      obtain ⟨ts', hbytes, hdone, hseen, hsent⟩ := ih t.elapsed t.done received ts
      exact ⟨t :: ts', hbytes, List.cons_prefix_cons.2 ⟨rfl, hdone⟩, .turn (.refl t) hseen, hsent⟩

/-- What the timeout makes of a run of the application by itself: nothing but, at most, the loss of what was
sent after the timer ran out; or a 504 where no response was started. -/
def TimedOut (started : Bool) (ts : List Turn) (own outer : Served) : Prop :=
  (outer.sent.Sublist own.sent ∧ (outer.ending = own.ending ∨ outer.ending = .returned)) ∨
    (started = false ∧ starts own.sent = 0 ∧ ∃ rest, rest ⊆ ts ∧
      outer.sent = own.sent ++ ((App.sendJson 504 "request timed out").run rest).sent ∧
      outer.ending = ((App.sendJson 504 "request timed out").run rest).ending)

private theorem TimedOut.later {started : Bool} {t : Turn} {ts : List Turn} {own outer : Served}
    (h : TimedOut started ts own outer) :
    TimedOut started (t :: ts) own outer := by
  rcases h with h | ⟨hstarted, hzero, rest, hrest, h⟩
  · exact .inl h
  · exact .inr ⟨hstarted, hzero, rest, List.subset_cons_of_subset _ hrest, h⟩

private theorem given_outcome (timer : Timer) (elapsed : Nat) (result : Except Thrown Incoming) :
    (App.given (timer.outcome elapsed result)).Sublist (App.given result) := by
  rw [Timer.outcome]
  split
  · exact List.nil_sublist _
  · exact List.Sublist.refl _

private theorem Timer.spent_le (timer : Timer) (elapsed : Nat) : timer.spent elapsed ≤ elapsed := by
  cases timer with
  | left micros => exact Nat.min_le_right _ _
  | off => exact Nat.le_refl _
  | expiring => exact Nat.le_refl _

private theorem Timer.outcome_seen {α : Type} (timer : Timer) (elapsed : Nat) (result : Except Thrown α) :
    timer.outcome elapsed result = result ∨ ∃ e, timer.outcome elapsed result = .error e := by
  rw [Timer.outcome]
  split
  · exact .inr ⟨_, rfl⟩
  · exact .inl rfl

theorem requestTimeout_run (timer : Timer) (started : Bool) (app : App) (ts : List Turn) :
    ∃ ts' : List Turn, (app.run ts').received.Sublist ((requestTimeout timer started app).run ts).received ∧
      Seen ts ts' ∧
      TimedOut started ts (app.run ts') ((requestTimeout timer started app).run ts) := by
  induction app generalizing timer started ts with
  | returns => exact ⟨[], List.nil_sublist _, .rest _, .inl ⟨List.nil_sublist _, .inr rfl⟩⟩
  | raises e =>
    refine ⟨[], List.nil_sublist _, .rest _, ?_⟩
    rw [requestTimeout]
    split
    · split
      · exact .inl ⟨List.nil_sublist _, .inr rfl⟩
      · rename_i hstarted
        exact .inr ⟨by simpa using hstarted, rfl, ts, List.Subset.refl _, rfl, rfl⟩
    · exact .inl ⟨List.nil_sublist _, .inl rfl⟩
  | receive k ih =>
    cases ts with
    | nil => exact ⟨[], List.nil_sublist _, .rest _, .inl ⟨List.nil_sublist _, .inl rfl⟩⟩
    | cons t ts =>
      obtain ⟨ts', hreceived, hseen, hrun⟩ := ih (timer.spent t.elapsed) (timer.outcome t.elapsed t.incoming)
        (timer.next t.elapsed) started ts
      refine ⟨⟨timer.spent t.elapsed, timer.outcome t.elapsed t.incoming, t.done⟩ :: ts', ?_,
        .turn ⟨timer.spent_le _, timer.outcome_seen _ _, .inl rfl⟩ hseen, hrun.later⟩
      exact (given_outcome timer t.elapsed t.incoming).append hreceived
  | send message k ih =>
    cases message with
    | start status headers =>
      by_cases htimer : timer = .expiring
      · -- the start does not reach the server: moving the timer raises
        obtain ⟨ts', hreceived, hseen, hrun⟩ := ih 0 (.error .runtime) timer true ts
        refine ⟨⟨0, .error .runtime, .error .runtime⟩ :: ts', ?_, .refused ⟨_, rfl⟩ ⟨_, rfl⟩ hseen, ?_⟩
        · rw [requestTimeout, if_pos htimer]
          exact hreceived
        · rw [requestTimeout, if_pos htimer]
          rcases hrun with ⟨hsent, hend⟩ | ⟨hstarted, -⟩
          · exact .inl ⟨hsent.cons _, hend⟩
          · cases hstarted
      · cases ts with
        | nil =>
          refine ⟨[], List.nil_sublist _, .rest _, ?_⟩
          rw [requestTimeout, if_neg htimer]
          exact .inl ⟨List.Sublist.refl _, .inl rfl⟩
        | cons t ts =>
          obtain ⟨ts', hreceived, hseen, hrun⟩ := ih t.elapsed t.done .off true ts
          refine ⟨t :: ts', ?_, .turn (.refl t) hseen, ?_⟩
          · rw [requestTimeout, if_neg htimer]
            exact hreceived
          · rw [requestTimeout, if_neg htimer]
            rcases hrun with ⟨hsent, hend⟩ | ⟨hstarted, -⟩
            · exact .inl ⟨hsent.cons_cons _, hend⟩
            · cases hstarted
    | body text moreBody =>
      cases ts with
      | nil => exact ⟨[], List.nil_sublist _, .rest _, .inl ⟨List.Sublist.refl _, .inl rfl⟩⟩
      | cons t ts =>
        obtain ⟨ts', hreceived, hseen, hrun⟩ := ih (timer.spent t.elapsed) (timer.outcome t.elapsed t.done)
          (timer.next t.elapsed) started ts
        refine ⟨⟨timer.spent t.elapsed, t.incoming, timer.outcome t.elapsed t.done⟩ :: ts', hreceived,
          .turn ⟨timer.spent_le _, .inl rfl, timer.outcome_seen _ _⟩ hseen, ?_⟩
        rcases hrun with ⟨hsent, hend⟩ | ⟨hstarted, hzero, rest, hrest, hsent, hend⟩
        · exact .inl ⟨hsent.cons_cons _, hend⟩
        · refine .inr ⟨hstarted, ?_, rest, List.subset_cons_of_subset _ hrest, ?_, hend⟩
          · simpa [App.run, starts, Outgoing.isStart] using hzero
          · simp only [requestTimeout, App.run]
            rw [hsent, List.cons_append]
  | work k ih =>
    cases ts with
    | nil => exact ⟨[], List.nil_sublist _, .rest _, .inl ⟨List.nil_sublist _, .inl rfl⟩⟩
    | cons t ts =>
      obtain ⟨ts', hreceived, hseen, hrun⟩ := ih (timer.spent t.elapsed) (timer.outcome t.elapsed t.done)
        (timer.next t.elapsed) started ts
      exact ⟨⟨timer.spent t.elapsed, t.incoming, timer.outcome t.elapsed t.done⟩ :: ts', hreceived,
        .turn ⟨timer.spent_le _, .inl rfl, timer.outcome_seen _ _⟩ hseen, hrun.later⟩

private theorem bytes_le_of_sublist {l l' : List Incoming} (h : l.Sublist l') : bytes l ≤ bytes l' := by
  induction h with
  | slnil => exact Nat.le_refl _
  | cons m _ ih =>
    simp only [bytes, List.map_cons, List.sum_cons] at ih ⊢
    omega
  | cons_cons m _ ih =>
    simp only [bytes, List.map_cons, List.sum_cons] at ih ⊢
    omega

/-! ### What reaches the application -/

/-- Two applications that do the same as long as they are given no more bytes than so many. -/
inductive App.AlikeWithin : Nat → App → App → Prop
  | returns {left : Nat} : AlikeWithin left .returns .returns
  | raises {left : Nat} (e : Thrown) : AlikeWithin left (.raises e) (.raises e)
  | receive {left : Nat} {k k' : Nat → Except Thrown Incoming → App}
      (hfailed : ∀ elapsed e, AlikeWithin left (k elapsed (.error e)) (k' elapsed (.error e)))
      (hgiven : ∀ elapsed message, message.size ≤ left →
        AlikeWithin (left - message.size) (k elapsed (.ok message)) (k' elapsed (.ok message))) :
      AlikeWithin left (.receive k) (.receive k')
  | send {left : Nat} (message : Outgoing) {k k' : Nat → Except Thrown Unit → App}
      (h : ∀ elapsed result, AlikeWithin left (k elapsed result) (k' elapsed result)) :
      AlikeWithin left (.send message k) (.send message k')
  | work {left : Nat} {k k' : Nat → Except Thrown Unit → App}
      (h : ∀ elapsed result, AlikeWithin left (k elapsed result) (k' elapsed result)) :
      AlikeWithin left (.work k) (.work k')

namespace App.AlikeWithin

theorem refl (left : Nat) (app : App) : app.AlikeWithin left app := by
  induction app generalizing left with
  | returns => exact .returns
  | raises e => exact .raises e
  | receive k ih => exact .receive (fun _ _ => ih _ _ _) fun _ _ _ => ih _ _ _
  | send message k ih => exact .send message fun _ _ => ih _ _ _
  | work k ih => exact .work fun _ _ => ih _ _ _

theorem mono {left left' : Nat} {app app' : App} (h : app.AlikeWithin left app') (hle : left' ≤ left) :
    app.AlikeWithin left' app' := by
  induction h generalizing left' with
  | returns => exact .returns
  | raises e => exact .raises e
  | receive _ _ ihfailed ihgiven =>
    refine .receive (fun elapsed e => ihfailed elapsed e hle) fun elapsed message hsize => ?_
    exact ihgiven elapsed message (Nat.le_trans hsize hle) (Nat.sub_le_sub_right hle _)
  | send message _ ih => exact .send message fun elapsed result => ih elapsed result hle
  | work _ ih => exact .work fun elapsed result => ih elapsed result hle

/-- The timeout gives an application no byte of its own. -/
theorem requestTimeout {left : Nat} {app app' : App} (h : app.AlikeWithin left app') (timer : Timer)
    (started : Bool) :
    (Http.requestTimeout timer started app).AlikeWithin left (Http.requestTimeout timer started app') := by
  induction h generalizing timer started with
  | returns => exact .returns
  | raises e => exact refl _ _
  | receive _ _ ihfailed ihgiven =>
    refine .receive (fun elapsed e => ?_) fun elapsed message hsize => ?_
    · rw [Timer.outcome]
      split
      · exact ihfailed _ _ _ _
      · exact ihfailed _ _ _ _
    · rw [Timer.outcome]
      split
      · exact (ihfailed _ _ _ _).mono (Nat.sub_le _ _)
      · exact ihgiven _ _ hsize _ _
  | send message _ ih =>
    cases message with
    | start status headers =>
      rw [Http.requestTimeout, Http.requestTimeout]
      split
      · exact ih _ _ _ _
      · exact .send _ fun elapsed result => ih _ _ _ _
    | body text moreBody => exact .send _ fun elapsed result => ih _ _ _ _
  | work _ ih => exact .work fun elapsed result => ih _ _ _ _

theorem timed {left : Nat} {app app' : App} (h : app.AlikeWithin left app') (cfg : HttpSettings) :
    (Http.timed cfg app).AlikeWithin left (Http.timed cfg app') := by
  rw [Http.timed, Http.timed]
  split
  · exact h.requestTimeout _ _
  · exact h

/-- Under the limit it makes no difference what an application would do with more bytes than that. -/
theorem bodySizeLimit {left : Nat} {app app' : App} (h : app.AlikeWithin left app') {maxBytes received : Nat}
    (hleft : maxBytes - received ≤ left) :
    Http.bodySizeLimit maxBytes received app = Http.bodySizeLimit maxBytes received app' := by
  induction h generalizing received with
  | returns => rfl
  | raises e => rfl
  | receive _ _ ihfailed ihgiven =>
    refine congrArg App.receive (funext fun elapsed => funext fun result => ?_)
    rcases result with e | ⟨body, moreBody⟩ | _
    · exact ihfailed elapsed e hleft
    · rw [counting]
      split
      · -- the error of too many bytes comes in place of the message
        exact ihfailed elapsed _ (by simp only [countUp, Incoming.size]; omega)
      · refine ihgiven elapsed _ ?_ ?_
        · simp only [Incoming.size]
          omega
        · simp only [countUp, Incoming.size]
          omega
    · exact ihgiven elapsed .disconnect (Nat.zero_le _) hleft
  | send message _ ih =>
    exact congrArg (App.send message) (funext fun elapsed => funext fun result => ih elapsed result hleft)
  | work _ ih => exact congrArg App.work (funext fun elapsed => funext fun result => ih elapsed result hleft)

end App.AlikeWithin

/-! ### The stack -/

/-- An application that starts one response, and reads no body after that: the error of too many bytes does
not come out of it once it has started. -/
structure App.Orderly (app : App) : Prop where
  once : ∀ ts, starts (app.run ts).sent ≤ 1
  readsFirst : ∀ ts, (app.run ts).ending = .raised .bodyTooLarge → starts (app.run ts).sent = 0

private theorem timed_run (cfg : HttpSettings) (app : App) (ts : List Turn) :
    ∃ ts' : List Turn, (app.run ts').received.Sublist ((timed cfg app).run ts).received ∧ Seen ts ts' ∧
      TimedOut false ts (app.run ts') ((timed cfg app).run ts) := by
  rw [timed]
  split
  · exact requestTimeout_run _ _ app ts
  · exact ⟨ts, List.Sublist.refl _, .refl ts, .inl ⟨List.Sublist.refl _, .inl rfl⟩⟩

theorem exceptValueError_run {next app : App} {ts : List Turn} (hend : (app.run ts).ending ≠ .raised .value) :
    (exceptValueError next app).run ts = app.run ts := by
  induction app generalizing ts with
  | returns => rfl
  | raises e =>
    have he : e ≠ .value := fun he => hend (congrArg Ending.raised he)
    rw [exceptValueError, if_neg he]
  | receive k ih =>
    cases ts with
    | nil => rfl
    | cons t ts =>
      simp only [exceptValueError, App.run]
      rw [ih t.elapsed t.incoming hend]
  | send message k ih =>
    cases ts with
    | nil => rfl
    | cons t ts =>
      simp only [exceptValueError, App.run]
      rw [ih t.elapsed t.done hend]
  | work k ih =>
    cases ts with
    | nil => rfl
    | cons t ts => exact ih t.elapsed t.done hend

/-- A response that a layer makes up: a 413 or a 504, as far as the server took it. -/
def ErrorResponse (cfg : HttpSettings) (error : List Outgoing) : Prop :=
  ∃ rest, error = ((reject cfg.maxBytes).run rest).sent ∨
    error = ((App.sendJson 504 "request timed out").run rest).sent

theorem ErrorResponse.starts_le {cfg : HttpSettings} {error : List Outgoing} (h : ErrorResponse cfg error) :
    starts error ≤ 1 := by
  obtain ⟨rest, rfl | rfl⟩ := h
  · exact (sendJson_run 413 _ rest).1
  · exact (sendJson_run 504 _ rest).1

/-- The messages are the application's own, as it answers what it sees of these awaits, on no more bytes than
the limit; and a response of a layer follows only where no start of its own has reached the client. -/
def Answers (cfg : HttpSettings) (app : App) (ts : List Turn) (sent : List Outgoing) : Prop :=
  ∃ (ts' : List Turn) (own error : List Outgoing), sent = own ++ error ∧ Seen ts ts' ∧
    bytes (app.run ts').received ≤ cfg.maxBytes ∧ own.Sublist (app.run ts').sent ∧
    (error = [] ∨ starts own = 0 ∧ ErrorResponse cfg error)

private theorem counted_answers (cfg : HttpSettings) {app : App} (happ : app.Orderly) {ts : List Turn}
    (hserver : ∀ t ∈ ts, t.done ≠ .error .bodyTooLarge) :
    Answers cfg app ts ((bodySizeLimit cfg.maxBytes 0 (timed cfg app)).run ts).sent := by
  obtain ⟨ts₁, hbytes, hdone, hseen, hlimit⟩ := bodySizeLimit_run cfg.maxBytes 0 (timed cfg app) ts
  obtain ⟨ts', hreceived, hseen', htimeout⟩ := timed_run cfg app ts₁
  have hsees : Seen ts ts' := hseen.trans hseen'
  have hfew : bytes (app.run ts').received ≤ cfg.maxBytes := Nat.le_trans (bytes_le_of_sublist hreceived) hbytes
  have hquiet : ∀ t ∈ ts₁, t.done ≠ .error .bodyTooLarge := by
    intro t ht hthrown
    obtain ⟨t', ht', hsame⟩ := List.mem_map.1 (hdone.subset (List.mem_map_of_mem ht))
    exact hserver t' ht' (hsame.trans hthrown)
  rcases hlimit with ⟨-, hsent⟩ | ⟨hend, rest, hsent⟩
  · rcases htimeout with ⟨hsub, -⟩ | ⟨-, hzero, rest, -, hsent', -⟩
    · exact ⟨ts', _, [], by rw [List.append_nil]; exact hsent, hsees, hfew, hsub, .inl rfl⟩
    · exact ⟨ts', _, _, hsent.trans hsent', hsees, hfew, List.Sublist.refl _, .inr ⟨hzero, rest, .inr rfl⟩⟩
  · rcases htimeout with ⟨hsub, hends⟩ | ⟨-, -, late, hlate, -, hends⟩
    · have hown : (app.run ts').ending = .raised .bodyTooLarge := by
        rcases hends with hends | hends
        · exact hends.symm.trans hend
        · rw [hend] at hends
          cases hends
      have hzero := happ.readsFirst ts' hown
      have hle : starts ((timed cfg app).run ts₁).sent ≤ starts (app.run ts').sent := hsub.countP_le
      exact ⟨ts', _, _, hsent, hsees, hfew, hsub, .inr ⟨by omega, rest, .inl rfl⟩⟩
    · -- a 504 that the server refuses is not an error of too many bytes
      obtain ⟨t, ht, hthrown⟩ := (sendJson_run 504 _ late).2 _ (hends.symm.trans hend)
      exact absurd hthrown (hquiet t (hlate ht))

/-- The size that the request declares is over the limit. -/
def DeclaredTooLarge (cfg : HttpSettings) (declared : Option Int) : Prop := ∃ n, declared = some n ∧ cfg.maxBytes < n

private theorem any_declared (cfg : HttpSettings) (declared : Option Int) :
    declared.any ((cfg.maxBytes : Int) < ·) = true ↔ DeclaredTooLarge cfg declared := by
  simp [Option.any_eq_true, DeclaredTooLarge]

private theorem limited_answers (cfg : HttpSettings) (declared : Option Int) {app : App} (happ : app.Orderly)
    {ts : List Turn} (hserver : ∀ t ∈ ts, t.done ≠ .error .bodyTooLarge)
    (hsend : DeclaredTooLarge cfg declared → ∀ t ∈ ts, t.done ≠ .error .value) :
    Answers cfg app ts ((limited cfg declared app).run ts).sent := by
  rw [limited]
  split
  · rename_i hdeclared
    have hend : ((reject cfg.maxBytes).run ts).ending ≠ .raised .value := by
      intro hraised
      obtain ⟨t, ht, hthrown⟩ := (sendJson_run 413 _ ts).2 _ hraised
      exact hsend ((any_declared cfg declared).1 hdeclared) t ht hthrown
    rw [exceptValueError_run hend]
    exact ⟨[], [], _, rfl, .rest ts, by cases app <;> exact Nat.zero_le _, List.nil_sublist _,
      .inr ⟨rfl, ts, .inl rfl⟩⟩
  · exact counted_answers cfg happ hserver

theorem App.AlikeWithin.limited {cfg : HttpSettings} {app app' : App} (h : app.AlikeWithin cfg.maxBytes app')
    (declared : Option Int) :
    Http.limited cfg declared app = Http.limited cfg declared app' := by
  have hcounted := (h.timed cfg).bodySizeLimit (Nat.sub_le cfg.maxBytes 0)
  rw [Http.limited, Http.limited, hcounted]

/-- Around every orderly application, whatever the client and the clock do: no byte over the limit comes to
the application, since the stack is the same around any other that differs on such bytes only; the client gets
at most one response, and its start carries the id; and what is not the application's own response to what it
sees is a 413 or a 504, and comes only where none of its own has reached the client. -/
theorem guarded_sound (cfg : HttpSettings) (id : String) (declared : Option Int) (app : App)
    (happ : app.Orderly) (ts : List Turn) (hserver : ∀ t ∈ ts, t.done ≠ .error .bodyTooLarge)
    (hsend : DeclaredTooLarge cfg declared → ∀ t ∈ ts, t.done ≠ .error .value) :
    (∀ app', app.AlikeWithin cfg.maxBytes app' → guarded cfg id declared app = guarded cfg id declared app') ∧
    (∃ sent, ((guarded cfg id declared app).run ts).sent = sent.map (Outgoing.traced id) ∧ Answers cfg app ts sent) ∧
    starts ((guarded cfg id declared app).run ts).sent ≤ 1 ∧
    ∀ status headers, .start status headers ∈ ((guarded cfg id declared app).run ts).sent →
      ("X-Request-Id", id) ∈ headers := by
  have hanswers := limited_answers cfg declared happ hserver hsend
  have hrun : ((guarded cfg id declared app).run ts).sent =
      ((limited cfg declared app).run ts).sent.map (Outgoing.traced id) := by
    rw [guarded, traceId_run]
  refine ⟨fun app' halike => congrArg (traceId id) (halike.limited declared), ⟨_, hrun, hanswers⟩, ?_,
    fun status headers hmem => ?_⟩
  · obtain ⟨ts', own, error, hsent, -, -, hsub, herror⟩ := hanswers
    have hown : starts own ≤ starts (app.run ts').sent := hsub.countP_le
    have honce := happ.once ts'
    rw [hrun, starts_traced, hsent, starts_append]
    rcases herror with rfl | ⟨hzero, hresponse⟩
    · have hnil : starts [] = 0 := rfl
      omega
    · have hone := hresponse.starts_le
      omega
  · rw [hrun] at hmem
    obtain ⟨message, -, htraced⟩ := List.mem_map.1 hmem
    cases message with
    | start status' headers' =>
      obtain ⟨-, rfl⟩ := Outgoing.start.inj htraced
      simp
    | body text moreBody => cases htraced

/-! ### Requests within the bounds -/

/-- The application starts its response before so much time has passed, or has not been kept waiting longer. -/
def App.InTime (left : Nat) : App → List Turn → Prop
  | .returns, _ => True
  | .raises _, _ => True
  | .send (.start ..) _, _ => True
  | .receive _, [] => True
  | .send (.body ..) _, [] => True
  | .work _, [] => True
  | .receive k, t :: ts => t.elapsed ≤ left ∧ InTime (left - t.elapsed) (k t.elapsed t.incoming) ts
  | .send (.body ..) k, t :: ts => t.elapsed ≤ left ∧ InTime (left - t.elapsed) (k t.elapsed t.done) ts
  | .work k, t :: ts => t.elapsed ≤ left ∧ InTime (left - t.elapsed) (k t.elapsed t.done) ts

theorem bodySizeLimit_same {maxBytes received : Nat} {app : App} {ts : List Turn}
    (hbytes : bytes (app.run ts).received + received ≤ maxBytes)
    (hend : (app.run ts).ending ≠ .raised .bodyTooLarge) :
    (bodySizeLimit maxBytes received app).run ts = app.run ts := by
  induction app generalizing received ts with
  | returns => rfl
  | raises e =>
    have he : e ≠ .bodyTooLarge := fun he => hend (congrArg Ending.raised he)
    rw [bodySizeLimit, if_neg he]
  | receive k ih =>
    cases ts with
    | nil => rfl
    | cons t ts =>
      simp only [App.run, bytes_append] at hbytes
      have hsame : counting maxBytes received t.incoming = t.incoming := by
        rcases hin : t.incoming with e | ⟨body, moreBody⟩ | _
        · rfl
        · rw [hin] at hbytes
          simp only [App.given, bytes, List.map_cons, List.map_nil, List.sum_cons, List.sum_nil,
            Incoming.size] at hbytes
          rw [counting, if_neg (by omega)]
        · rfl
      have hcount : countUp received t.incoming = bytes (App.given t.incoming) + received := by
        cases t.incoming with
        | error e => simp [countUp, App.given, bytes]
        | ok message => simp [countUp, App.given, bytes, Nat.add_comm]
      simp only [bodySizeLimit, App.run, hsame]
      rw [ih t.elapsed t.incoming (by omega) hend]
  | send message k ih =>
    cases ts with
    | nil => rfl
    | cons t ts =>
      simp only [bodySizeLimit, App.run]
      rw [ih t.elapsed t.done hbytes hend]
  | work k ih =>
    cases ts with
    | nil => rfl
    | cons t ts => exact ih t.elapsed t.done hbytes hend

/-- A timer that is off changes nothing. -/
theorem requestTimeout_off {started : Bool} {app : App} {ts : List Turn}
    (hend : (app.run ts).ending ≠ .raised .timeout) :
    (requestTimeout .off started app).run ts = app.run ts := by
  induction app generalizing started ts with
  | returns => rfl
  | raises e =>
    have he : e.timesOut .off = false := by
      have hne : e ≠ .timeout := fun he => hend (congrArg Ending.raised he)
      simp [Thrown.timesOut, hne]
    rw [requestTimeout, he]
    rfl
  | receive k ih =>
    cases ts with
    | nil => rfl
    | cons t ts =>
      have hrest : (requestTimeout .off started (k t.elapsed t.incoming)).run ts =
        (k t.elapsed t.incoming).run ts := ih _ _ hend
      simp only [requestTimeout, App.run, Timer.next, Timer.spent, Timer.outcome, Timer.expires,
        Bool.false_eq_true, if_false]
      rw [hrest]
  | send message k ih =>
    cases ts with
    | nil => cases message <;> simp [requestTimeout, App.run]
    | cons t ts =>
      cases message with
      | start status headers =>
        have hrest : (requestTimeout .off true (k t.elapsed t.done)).run ts =
          (k t.elapsed t.done).run ts := ih _ _ hend
        simp only [requestTimeout, App.run, reduceCtorEq, if_false]
        rw [hrest]
      | body text moreBody =>
        have hrest : (requestTimeout .off started (k t.elapsed t.done)).run ts =
          (k t.elapsed t.done).run ts := ih _ _ hend
        simp only [requestTimeout, App.run, Timer.next, Timer.spent, Timer.outcome, Timer.expires,
          Bool.false_eq_true, if_false]
        rw [hrest]
  | work k ih =>
    cases ts with
    | nil => rfl
    | cons t ts => exact ih t.elapsed t.done hend

private theorem outcome_left {α : Type} {left elapsed : Nat} (h : elapsed ≤ left) (result : Except Thrown α) :
    (Timer.left left).outcome elapsed result = result ∧ (Timer.left left).next elapsed = .left (left - elapsed) ∧
      (Timer.left left).spent elapsed = elapsed := by
  have hlt : ¬left < elapsed := Nat.not_lt.2 h
  simp [Timer.outcome, Timer.next, Timer.spent, Timer.expires, hlt, h]

/-- A timer that does not run out before the response changes nothing. -/
theorem requestTimeout_left {left : Nat} {app : App} {ts : List Turn} (htime : app.InTime left ts)
    (hend : (app.run ts).ending ≠ .raised .timeout) :
    (requestTimeout (.left left) false app).run ts = app.run ts := by
  induction app generalizing left ts with
  | returns => rfl
  | raises e =>
    have he : e.timesOut (.left left) = false := by
      have hne : e ≠ .timeout := fun he => hend (congrArg Ending.raised he)
      simp [Thrown.timesOut, hne]
    rw [requestTimeout, he]
    rfl
  | receive k ih =>
    cases ts with
    | nil => rfl
    | cons t ts =>
      obtain ⟨hsoon, hrest⟩ := htime
      obtain ⟨houtcome, hnext, hspent⟩ := outcome_left hsoon t.incoming
      simp only [requestTimeout, App.run, houtcome, hnext, hspent]
      rw [ih t.elapsed t.incoming hrest hend]
  | send message k ih =>
    cases message with
    | start status headers =>
      cases ts with
      | nil => simp [requestTimeout, App.run]
      | cons t ts =>
        simp only [requestTimeout, App.run, reduceCtorEq, if_false]
        have hrest : (requestTimeout .off true (k t.elapsed t.done)).run ts = (k t.elapsed t.done).run ts :=
          requestTimeout_off hend
        rw [hrest]
    | body text moreBody =>
      cases ts with
      | nil => rfl
      | cons t ts =>
        obtain ⟨hsoon, hrest⟩ := htime
        obtain ⟨houtcome, hnext, hspent⟩ := outcome_left hsoon t.done
        simp only [requestTimeout, App.run, houtcome, hnext, hspent]
        rw [ih t.elapsed t.done hrest hend]
  | work k ih =>
    cases ts with
    | nil => rfl
    | cons t ts =>
      obtain ⟨hsoon, hrest⟩ := htime
      obtain ⟨houtcome, hnext, hspent⟩ := outcome_left hsoon t.done
      simp only [requestTimeout, App.run, houtcome, hnext, hspent]
      exact ih t.elapsed t.done hrest hend

/-- A request within the bounds is served as by the application alone, but for the id: no layer shortens,
delays or repeats anything, and a stream may go on for ever once it has started. -/
theorem guarded_transparent (cfg : HttpSettings) (id : String) (declared : Option Int) (app : App) (ts : List Turn)
    (hdeclared : ∀ n, declared = some n → n ≤ cfg.maxBytes) (hbytes : bytes (app.run ts).received ≤ cfg.maxBytes)
    (htime : 0 < cfg.timeout → app.InTime cfg.timeout ts) (hlarge : (app.run ts).ending ≠ .raised .bodyTooLarge)
    (hlate : (app.run ts).ending ≠ .raised .timeout) :
    (guarded cfg id declared app).run ts =
      { app.run ts with sent := (app.run ts).sent.map (Outgoing.traced id) } := by
  have hfits : declared.any ((cfg.maxBytes : Int) < ·) = false := by
    cases hd : declared with
    | none => rfl
    | some n => simpa using hdeclared n hd
  have htimed : (timed cfg app).run ts = app.run ts := by
    rw [timed]
    split
    · rename_i hpos
      exact requestTimeout_left (htime hpos) hlate
    · rfl
  have hlimit : (bodySizeLimit cfg.maxBytes 0 (timed cfg app)).run ts = app.run ts := by
    rw [← htimed] at hbytes hlarge
    rw [bodySizeLimit_same hbytes hlarge, htimed]
  have hlimited : (limited cfg declared app).run ts = app.run ts := by
    rw [limited, hfits]
    exact hlimit
  rw [guarded, traceId_run, hlimited]

/-- It reads one message of the body and replies. -/
private def oneReply : App := .receive fun _ result =>
  match result with
  | .error e => .raises e
  | .ok _ => .send (.start 200 []) fun _ _ => .send (.body "ok" false) fun _ _ => .returns

private theorem oneReply_orderly : oneReply.Orderly where
  once ts := by
    rcases ts with _ | ⟨⟨_, _ | _, _⟩, _ | ⟨_, _ | ⟨_, _⟩⟩⟩ <;> first | exact Nat.zero_le _ | exact Nat.le_refl _
  readsFirst ts hend := by
    rcases ts with _ | ⟨⟨_, _ | _, _⟩, _ | ⟨_, _ | ⟨_, _⟩⟩⟩
    · rfl
    · rfl
    · rfl
    · rfl
    · cases hend
    · cases hend
    · cases hend

private def tight : HttpSettings where
  maxBytes := 2
  timeout := 5

private def turns (body : List UInt8) : List Turn :=
  [⟨1, .ok (.request body false), .ok ()⟩, ⟨1, .ok .disconnect, .ok ()⟩, ⟨1, .ok .disconnect, .ok ()⟩]

/-- It does not reply once it has more than two bytes. -/
private def greedy : App := .receive fun _ result =>
  match result with
  | .error e => .raises e
  | .ok message =>
    if 2 < message.size then .work fun _ _ => .returns
    else .send (.start 200 []) fun _ _ => .send (.body "ok" false) fun _ _ => .returns

private theorem oneReply_alike : oneReply.AlikeWithin 2 greedy := by
  refine .receive (fun _ e => .raises e) fun _ message hsize => ?_
  dsimp only
  rw [if_neg (Nat.not_lt.2 hsize)]
  exact App.AlikeWithin.refl _ _

theorem guarded_sound_large : guarded tight "t1" none oneReply = guarded tight "t1" none greedy ∧
    ∃ headers, .start 413 headers ∈ ((guarded tight "t1" none oneReply).run (turns [1, 2, 3])).sent ∧
      ("X-Request-Id", "t1") ∈ headers ∧
      starts ((guarded tight "t1" none oneReply).run (turns [1, 2, 3])).sent ≤ 1 := by
  have hserver : ∀ t ∈ turns [1, 2, 3], t.done ≠ .error .bodyTooLarge := by simp [turns]
  have hsend : DeclaredTooLarge tight none → ∀ t ∈ turns [1, 2, 3], t.done ≠ .error .value := by
    rintro ⟨n, hn, -⟩
    cases hn
  have hsound := guarded_sound tight "t1" none oneReply oneReply_orderly (turns [1, 2, 3]) hserver hsend
  have hmem : Outgoing.start 413
    [("content-type", "application/json"), ("content-length", "42"), ("X-Request-Id", "t1")] ∈
      ((guarded tight "t1" none oneReply).run (turns [1, 2, 3])).sent := by
    decide +kernel
  exact ⟨hsound.1 greedy oneReply_alike, _, hmem, hsound.2.2.2 _ _ hmem, hsound.2.2.1⟩

theorem guarded_transparent_small : (guarded tight "t1" (some 2) oneReply).run (turns [1, 2]) =
    { oneReply.run (turns [1, 2]) with sent := [.start 200 [("X-Request-Id", "t1")], .body "ok" false] } := by
  refine guarded_transparent tight "t1" (some 2) oneReply (turns [1, 2]) (by decide) (by decide) (fun _ => ?_) ?_ ?_
  · exact ⟨by decide, trivial⟩
  · exact fun h => by cases h
  · exact fun h => by cases h

end Http

end Ticketing
