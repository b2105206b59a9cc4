import Mathlib.Logic.Function.Basic
import Ticketing.RefreshTokens

/-!
# Concurrent revocation

Refresh, logout and logout-all as transactions under READ COMMITTED, statement by statement.  `SELECT … FOR
UPDATE` locks the row of the presented token and reads its newest committed version.  The revoking `UPDATE`
fixes the rows it will visit when it starts, waits for each that is locked, and checks the newest version
again before it changes it.  A row that is inserted in the meantime is not among them.

So the child of a refresh that is open while the `UPDATE` runs escapes it (`revocation_misses_child`).
Revocation is final when no refresh commits while a revoking `UPDATE` of its family is under way
(`revocation_final`).
-/

namespace Ticketing

open Exec

/-! ### Transactions -/

/-- The `WHERE` of a revocation. -/
inductive RevokeScope where
  | family (family : Uuid)
  | user (user : UserId)

namespace RevokeScope

def covers : RevokeScope → RefreshToken → Bool
  | family f, r => r.family = f
  | user u, r => r.user = u

/-- The families that the scope names when the statement starts. -/
def families (t : TokenTable) : RevokeScope → List Uuid
  | family f => [f]
  | user u => (t.rows.filter fun r => r.user = u).map RefreshToken.family

end RevokeScope

/-- The point a transaction has reached. -/
inductive TokenPhase where
  /-- Before `SELECT … FOR UPDATE`. -/
  | refreshing (req : AuthRequest)
  | loggingOut (req : AuthRequest)
  /-- A refresh that has locked the token and passed all checks. -/
  | rotating (token : RefreshToken) (client : ClientInfo)
  /-- The token is marked used and the child inserted, not committed. -/
  | issued (token : RefreshToken) (usedAt : Instant) (child : RefreshToken)
  | revoking (scope : RevokeScope)
  /-- The `UPDATE` is under way: rows still to visit, and rows it has changed. -/
  | updating (scope : RevokeScope) (families : List Uuid) (todo changed : List Nat) (now : Instant)
  | ended

/-- The committed table, the transactions in the order in which they began, which transaction holds the lock
of a row, and the families for which a revocation has committed. -/
structure TokenWorld where
  table : TokenTable := {}
  txs : List TokenPhase := []
  locks : Nat → Option Nat := fun _ => none
  revoked : List Uuid := []

inductive TokenTxAct where
  | login (user : UserId) (draw : TokenDraw) (client : ClientInfo) (now : Instant)
  | beginRefresh (req : AuthRequest)
  | beginLogout (req : AuthRequest)
  | beginLogoutAll (user : UserId)
  /-- `get_refresh_token_for_update` and the checks on the row it returns. -/
  | select (i : Nat) (now : Instant)
  /-- `mark_token_used` and `issue_refresh_token`. -/
  | issue (i : Nat) (usedAt issuedAt : Instant) (draw : TokenDraw)
  /-- The revoking `UPDATE` starts, … -/
  | startUpdate (i : Nat) (now : Instant)
  /-- … visits its next row, … -/
  | updateRow (i : Nat)
  | commit (i : Nat)
  /-- An error, a deadlock or a lost connection. -/
  | rollback (i : Nat)

/-- The transaction that the step commits. -/
def TokenTxAct.committed : TokenTxAct → Option Nat
  | commit i => some i
  | _ => none

/-- The child that a refresh has inserted. -/
def TokenPhase.child : TokenPhase → Option RefreshToken
  | issued _ _ child => some child
  | _ => none

/-- The families of an `UPDATE` that is under way. -/
def TokenPhase.visiting : TokenPhase → List Uuid
  | updating _ families _ _ _ => families
  | _ => []

namespace TokenWorld

def setTx (w : TokenWorld) (i : Nat) (phase : TokenPhase) : TokenWorld :=
  { w with txs := w.txs.set i phase }

def begin (w : TokenWorld) (phase : TokenPhase) : TokenWorld := { w with txs := w.txs ++ [phase] }

def lock (w : TokenWorld) (i id : Nat) : TokenWorld := { w with locks := Function.update w.locks id (some i) }

/-- Nobody else holds the lock of the row. -/
def Unlocked (w : TokenWorld) (i id : Nat) : Prop := w.locks id = none ∨ w.locks id = some i

instance (w : TokenWorld) (i id : Nat) : Decidable (w.Unlocked i id) := inferInstanceAs (Decidable (_ ∨ _))

/-- The transaction ends and its locks are released. -/
def finish (w : TokenWorld) (i : Nat) : TokenWorld :=
  { w.setTx i .ended with locks := fun id => if w.locks id = some i then none else w.locks id }

/-- `SELECT … FOR UPDATE`, and what the endpoint does with the row. -/
def select (w : TokenWorld) (cfg : RefreshSettings) (i : Nat) (now : Instant) : TokenPhase → Option TokenWorld
  | .refreshing req =>
    match req.presented.bind (w.table.getRefreshTokenForUpdate cfg) with
    | none => some (w.finish i)
    | some token =>
      if w.Unlocked i token.id then
        match token.decision cfg now with
        | .reject => some (w.finish i)
        | .reuse => some ((w.lock i token.id).setTx i (.revoking (.family token.family)))
        | .rotate => some ((w.lock i token.id).setTx i (.rotating token req.client))
      else none
  | .loggingOut req =>
    match req.presented.bind (w.table.getRefreshTokenForUpdate cfg) with
    | none => some (w.finish i)
    | some token =>
      if w.Unlocked i token.id then some ((w.lock i token.id).setTx i (.revoking (.family token.family))) else none
  | _ => none

/-- The child takes the next id of the sequence, which a rollback does not give back. -/
def issue (w : TokenWorld) (cfg : RefreshSettings) (i : Nat) (usedAt issuedAt : Instant) (draw : TokenDraw) :
    TokenPhase → Option TokenWorld
  | .rotating token client =>
    let child := newRefreshToken cfg w.table.nextId token.user (some token) draw client issuedAt
    if w.table.rows.any fun r => r.tokenHash = child.tokenHash then some (w.finish i)
    else some { w.setTx i (.issued token usedAt child) with table := { w.table with nextId := w.table.nextId + 1 } }
  | _ => none

def startUpdate (w : TokenWorld) (i : Nat) (now : Instant) : TokenPhase → Option TokenWorld
  | .revoking scope =>
    let todo := (w.table.rows.filter fun r => scope.covers r ∧ r.revokedAt.isNone).map RefreshToken.id
    some (w.setTx i (.updating scope (scope.families w.table) todo [] now))
  | _ => none

/-- The newest version of the row is checked again under its lock. -/
def updateRow (w : TokenWorld) (i : Nat) : TokenPhase → Option TokenWorld
  | .updating scope families (id :: todo) changed now =>
    if w.Unlocked i id then
      if w.table.rows.any fun r => r.id = id ∧ scope.covers r ∧ r.revokedAt.isNone then
        some ((w.lock i id).setTx i (.updating scope families todo (id :: changed) now))
      else some (w.setTx i (.updating scope families todo changed now))
    else none
  | _ => none

def commit (w : TokenWorld) (i : Nat) : TokenPhase → Option TokenWorld
  | .issued token usedAt child =>
    some { w.finish i with
      table := { w.table.markTokenUsed token.id usedAt with
        rows := (w.table.markTokenUsed token.id usedAt).rows ++ [child] } }
  | .updating _ families [] changed now =>
    some { w.finish i with
      table := { w.table with
        rows := w.table.rows.map fun r => if r.id ∈ changed then { r with revokedAt := some now } else r }
      revoked := families ++ w.revoked }
  | _ => none

def step (cfg : RefreshSettings) (w : TokenWorld) : TokenTxAct → Option TokenWorld
  | .login user draw client now =>
    if draw.family ∈ w.table.families then none
    else some { w with table := w.table.login cfg user draw client now }
  | .beginRefresh req => some (w.begin (.refreshing req))
  | .beginLogout req => some (w.begin (.loggingOut req))
  | .beginLogoutAll user => some (w.begin (.revoking (.user user)))
  | .select i now => w.txs[i]?.bind (w.select cfg i now)
  | .issue i usedAt issuedAt draw => w.txs[i]?.bind (w.issue cfg i usedAt issuedAt draw)
  | .startUpdate i now => w.txs[i]?.bind (w.startUpdate i now)
  | .updateRow i => w.txs[i]?.bind (w.updateRow i)
  | .commit i => w.txs[i]?.bind (w.commit i)
  | .rollback i => w.txs[i]?.map fun _ => w.finish i

/-- Every token of a family for which a revocation has committed is revoked. -/
def Final (w : TokenWorld) : Prop := ∀ r ∈ w.table.rows, r.family ∈ w.revoked → r.revokedAt.isSome = true

instance (w : TokenWorld) : Decidable w.Final := inferInstanceAs (Decidable (∀ r ∈ _, _))

/-- No refresh commits while a revoking `UPDATE` of its family is under way. -/
def Apart (w : TokenWorld) (a : TokenTxAct) : Prop :=
  ∀ i ∈ a.committed, ∀ child ∈ w.txs[i]?.bind TokenPhase.child, ∀ phase ∈ w.txs, child.family ∉ phase.visiting

instance (w : TokenWorld) (a : TokenTxAct) : Decidable (w.Apart a) := inferInstanceAs
    (Decidable (∀ i ∈ a.committed, _))

end TokenWorld

/-! ### What open transactions rely on -/

namespace TokenPhase

variable {t : TokenTable} {locks locks' : Nat → Option Nat} {i : Nat} {phase : TokenPhase}

/-- The transaction holds the lock of a row that is still unrevoked. -/
def Holds (t : TokenTable) (locks : Nat → Option Nat) (i : Nat) (token : RefreshToken) : Prop :=
  locks token.id = some i ∧
    ∃ r ∈ t.rows, r.id = token.id ∧ r.family = token.family ∧ r.user = token.user ∧ r.revokedAt = none

/-- A refresh holds the row of its token; an `UPDATE` has locked what it changed, and every token of its
families is revoked, changed or still to visit. -/
def Ok (t : TokenTable) (locks : Nat → Option Nat) (i : Nat) : TokenPhase → Prop
  | rotating token _ => Holds t locks i token
  | issued token _ child => Holds t locks i token ∧ child.family = token.family ∧ child.user = token.user
  | revoking (.family f) => f ∈ t.families
  | updating scope families todo changed _ =>
    (∀ f ∈ families, f ∈ t.families) ∧ (∀ id ∈ changed, locks id = some i) ∧
      ∀ r ∈ t.rows, r.family ∈ families →
        scope.covers r = true ∧ (r.revokedAt.isSome = true ∨ r.id ∈ todo ∨ r.id ∈ changed)
  | _ => True

/-- The locks of the transaction are still there. -/
private theorem Ok.relock (h : phase.Ok t locks i) (hlocks : ∀ id, locks id = some i → locks' id = some i) :
    phase.Ok t locks' i := by
  cases phase with
  | rotating token client => exact ⟨hlocks _ h.1, h.2⟩
  | issued token usedAt child => exact ⟨⟨hlocks _ h.1.1, h.1.2⟩, h.2⟩
  | updating scope families todo changed now => exact ⟨h.1, fun id hid => hlocks id (h.2.1 id hid), h.2.2⟩
  | revoking scope =>
    cases scope with
    | family g => exact h
    | user u => trivial
  | _ => trivial

/-- Another transaction updates rows; it revokes none whose lock this one holds. -/
private theorem Ok.mapRows (h : phase.Ok t locks i) {f : RefreshToken → RefreshToken}
    (hkeep : ∀ r, (f r).id = r.id ∧ (f r).family = r.family ∧ (f r).user = r.user)
    (hrevoked : ∀ r, r.revokedAt.isSome = true → (f r).revokedAt.isSome = true)
    (hlock : ∀ r ∈ t.rows, r.revokedAt = none → (f r).revokedAt ≠ none → locks r.id = none) :
    phase.Ok { t with rows := t.rows.map f } locks i := by
  have hholds : ∀ token, Holds t locks i token → Holds { t with rows := t.rows.map f } locks i token := by
    rintro token ⟨hlocked, r, hr, hid, hfamily, huser, hnone⟩
    obtain ⟨hid', hfamily', huser'⟩ := hkeep r
    refine ⟨hlocked, f r, List.mem_map.2 ⟨r, hr, rfl⟩, hid'.trans hid, hfamily'.trans hfamily, huser'.trans huser, ?_⟩
    by_contra hne
    have := hlock r hr hnone hne
    rw [hid, hlocked] at this
    cases this
  cases phase with
  | rotating token client => exact hholds token h
  | issued token usedAt child => exact ⟨hholds token h.1, h.2⟩
  | updating scope families todo changed now =>
    refine ⟨h.1, h.2.1, fun r' hr' hf => ?_⟩
    obtain ⟨r, hr, rfl⟩ := List.mem_map.1 hr'
    obtain ⟨hid', hfamily', huser'⟩ := hkeep r
    rw [hfamily'] at hf
    obtain ⟨hcovers, hstate⟩ := h.2.2 r hr hf
    refine ⟨?_, ?_⟩
    · cases scope with
      | family g => simpa [RevokeScope.covers, hfamily'] using hcovers
      | user u => simpa [RevokeScope.covers, huser'] using hcovers
    · rw [hid']
      exact hstate.imp_left (hrevoked r)
  | revoking scope =>
    cases scope with
    | family g => exact h
    | user u => trivial
  | _ => trivial

/-- A row is added that no `UPDATE` of this transaction has to visit. -/
private theorem Ok.insert (h : phase.Ok t locks i) {row : RefreshToken} {t' : TokenTable}
    (hrows : t'.rows = t.rows ++ [row]) (hfamilies : ∀ f ∈ t.families, f ∈ t'.families)
    (hrow : row.family ∉ phase.visiting) : phase.Ok t' locks i := by
  have hholds : ∀ token, Holds t locks i token → Holds t' locks i token := by
    rintro token ⟨hlocked, r, hr, hr'⟩
    exact ⟨hlocked, r, hrows ▸ List.mem_append_left _ hr, hr'⟩
  cases phase with
  | rotating token client => exact hholds token h
  | issued token usedAt child => exact ⟨hholds token h.1, h.2⟩
  | updating scope families todo changed now =>
    refine ⟨fun f hf => hfamilies f (h.1 f hf), h.2.1, fun r hr hf => ?_⟩
    rw [hrows] at hr
    rcases List.mem_append.1 hr with hr | hr
    · exact h.2.2 r hr hf
    · obtain rfl := List.mem_singleton.1 hr
      exact absurd hf hrow
  | revoking scope =>
    cases scope with
    | family g => exact hfamilies g h
    | user u => trivial
  | _ => trivial

end TokenPhase

namespace TokenWorld

/-- Families are drawn once and belong to one user, the open transactions rely on what is there, and
revocations are final. -/
structure Sound (w : TokenWorld) : Prop where
  drawn : ∀ r ∈ w.table.rows, r.family ∈ w.table.families
  user : ∀ a ∈ w.table.rows, ∀ b ∈ w.table.rows, a.family = b.family → a.user = b.user
  ok : ∀ (i : Nat) (phase : TokenPhase), w.txs[i]? = some phase → phase.Ok w.table w.locks i
  known : ∀ f ∈ w.revoked, f ∈ w.table.families
  final : w.Final

namespace Sound

variable {w w' : TokenWorld} {cfg : RefreshSettings} {i : Nat} {phase : TokenPhase}

theorem start : Sound {} := by
  constructor <;> simp [Final]

/-- Transaction `i` goes on; the others still find what they rely on. -/
private theorem setTx (h : w.Sound) (hphase : phase.Ok w.table w.locks i) : (w.setTx i phase).Sound := by
  refine ⟨h.drawn, h.user, fun j phase' hj => ?_, h.known, h.final⟩
  simp only [TokenWorld.setTx, List.getElem?_set] at hj
  split at hj
  · rename_i hij
    subst hij
    split at hj
    · obtain rfl := Option.some.inj hj
      exact hphase
    · cases hj
  · exact h.ok j phase' hj

private theorem lock (h : w.Sound) {id : Nat} (hid : w.Unlocked i id) : (w.lock i id).Sound := by
  refine ⟨h.drawn, h.user, fun j phase' hj => (h.ok j phase' hj).relock fun k hk => ?_, h.known, h.final⟩
  show Function.update w.locks id (some i) k = some j
  by_cases hkid : k = id
  · subst hkid
    rcases hid with hnone | hown
    · rw [hnone] at hk
      cases hk
    · rw [Function.update_self, ← hk, hown]
  · rwa [Function.update_of_ne hkid]

/-- The end of a transaction: what the others hold stays theirs. -/
private theorem finish (h : w.Sound) (i : Nat) : (w.finish i).Sound := by
  refine ⟨h.drawn, h.user, fun j phase' hj => ?_, h.known, h.final⟩
  simp only [TokenWorld.finish, TokenWorld.setTx, List.getElem?_set] at hj
  split at hj
  · split at hj
    · obtain rfl := Option.some.inj hj
      trivial
    · cases hj
  · rename_i hij
    refine (h.ok j phase' hj).relock fun k hk => ?_
    have hne : ¬(some j = some i) := by simpa using Ne.symm hij
    show (if w.locks k = some i then none else w.locks k) = some j
    rw [hk, if_neg hne]

private theorem mapRows (h : w.Sound) {f : RefreshToken → RefreshToken}
    (hkeep : ∀ r, (f r).id = r.id ∧ (f r).family = r.family ∧ (f r).user = r.user)
    (hrevoked : ∀ r, r.revokedAt.isSome = true → (f r).revokedAt.isSome = true)
    (hlock : ∀ r ∈ w.table.rows, r.revokedAt = none → (f r).revokedAt ≠ none → w.locks r.id = none) :
    Sound { w with table := { w.table with rows := w.table.rows.map f } } := by
  refine ⟨fun r' hr' => ?_, fun a' ha' b' hb' hab => ?_, fun j phase' hj => ?_, h.known, fun r' hr' hf => ?_⟩
  · obtain ⟨r, hr, rfl⟩ := List.mem_map.1 hr'
    rw [(hkeep r).2.1]
    exact h.drawn r hr
  · obtain ⟨a, ha, rfl⟩ := List.mem_map.1 ha'
    obtain ⟨b, hb, rfl⟩ := List.mem_map.1 hb'
    obtain ⟨-, hfa, hua⟩ := hkeep a
    obtain ⟨-, hfb, hub⟩ := hkeep b
    rw [hua, hub]
    rw [hfa, hfb] at hab
    exact h.user a ha b hb hab
  · exact (h.ok j phase' hj).mapRows hkeep hrevoked hlock
  · obtain ⟨r, hr, rfl⟩ := List.mem_map.1 hr'
    rw [(hkeep r).2.1] at hf
    exact hrevoked r (h.final r hr hf)

private theorem insert (h : w.Sound) {row : RefreshToken} {t' : TokenTable} (hrows : t'.rows = w.table.rows ++ [row])
    (hfamilies : ∀ f ∈ w.table.families, f ∈ t'.families) (hfamily : row.family ∈ t'.families)
    (huser : ∀ r ∈ w.table.rows, r.family = row.family → r.user = row.user) (hnot : row.family ∉ w.revoked)
    (hrow : ∀ phase ∈ w.txs, row.family ∉ phase.visiting) : Sound { w with table := t' } := by
  refine ⟨fun r hr => ?_, fun a ha b hb hab => ?_, fun j phase' hj => ?_, fun f hf => hfamilies f (h.known f hf),
    fun r hr hf => ?_⟩
  · rcases List.mem_append.1 (hrows ▸ hr) with hr | hr
    · exact hfamilies _ (h.drawn r hr)
    · exact List.mem_singleton.1 hr ▸ hfamily
  · rcases List.mem_append.1 (hrows ▸ ha) with hold | hnew <;> rcases List.mem_append.1 (hrows ▸ hb)
      with hold' | hnew'
    · exact h.user a hold b hold' hab
    · obtain rfl := List.mem_singleton.1 hnew'
      exact huser a hold hab
    · obtain rfl := List.mem_singleton.1 hnew
      exact (huser b hold' hab.symm).symm
    · rw [List.mem_singleton.1 hnew, List.mem_singleton.1 hnew']
  · exact (h.ok j phase' hj).insert hrows hfamilies (hrow phase' (List.mem_of_getElem? hj))
  · rcases List.mem_append.1 (hrows ▸ hr) with hr | hr
    · exact h.final r hr hf
    · obtain rfl := List.mem_singleton.1 hr
      exact absurd hf hnot

/-! ### The steps -/

private theorem beginStep (h : w.Sound) (hphase : ∀ i, phase.Ok w.table w.locks i) : (w.begin phase).Sound := by
  refine ⟨h.drawn, h.user, fun j phase' hj => ?_, h.known, h.final⟩
  rw [TokenWorld.begin, List.getElem?_append] at hj
  split at hj
  · exact h.ok j phase' hj
  · obtain rfl := List.mem_singleton.1 (List.mem_of_getElem? hj)
    exact hphase j

private theorem selectStep (h : w.Sound) {now : Instant} (hstep : w.select cfg i now phase = some w') : w'.Sound := by
  -- both endpoints that present a token look it up and lock its row in the same way
  have hlocked : ∀ {req : AuthRequest} {token : RefreshToken},
      req.presented.bind (w.table.getRefreshTokenForUpdate cfg) = some token → w.Unlocked i token.id →
        token ∈ w.table.rows ∧ (w.lock i token.id).Sound := by
    intro req token htoken hfree
    obtain ⟨plaintext, -, hfind⟩ := Option.bind_eq_some_iff.1 htoken
    exact ⟨List.mem_of_find?_eq_some hfind, h.lock hfree⟩
  cases phase with
  | refreshing req =>
    simp only [TokenWorld.select] at hstep
    split at hstep
    · obtain rfl := Option.some.inj hstep
      exact h.finish i
    · rename_i token htoken
      split at hstep
      · rename_i hfree
        obtain ⟨hmem, hsound⟩ := hlocked htoken hfree
        split at hstep
        · obtain rfl := Option.some.inj hstep
          exact h.finish i
        · obtain rfl := Option.some.inj hstep
          exact hsound.setTx (h.drawn token hmem)
        · rename_i hdecision
          obtain rfl := Option.some.inj hstep
          refine hsound.setTx ⟨Function.update_self .., token, hmem, rfl, rfl, rfl, ?_⟩
          unfold RefreshToken.decision at hdecision
          split at hdecision
          · cases hdecision
          · simpa using ‹¬token.revokedAt.isSome = true›
      · cases hstep
  | loggingOut req =>
    simp only [TokenWorld.select] at hstep
    split at hstep
    · obtain rfl := Option.some.inj hstep
      exact h.finish i
    · rename_i token htoken
      split at hstep
      · rename_i hfree
        obtain ⟨hmem, hsound⟩ := hlocked htoken hfree
        obtain rfl := Option.some.inj hstep
        exact hsound.setTx (h.drawn token hmem)
      · cases hstep
  | _ => cases hstep

private theorem issueStep (h : w.Sound) (hphase : phase.Ok w.table w.locks i) {usedAt issuedAt : Instant}
    {draw : TokenDraw} (hstep : w.issue cfg i usedAt issuedAt draw phase = some w') : w'.Sound := by
  cases phase with
  | rotating token client =>
    simp only [TokenWorld.issue] at hstep
    split at hstep
    · obtain rfl := Option.some.inj hstep
      exact h.finish i
    · obtain rfl := Option.some.inj hstep
      have hnext : Sound { w with table := { w.table with nextId := w.table.nextId + 1 } } :=
        ⟨h.drawn, h.user, fun j phase' hj => ?_, h.known, h.final⟩
      · exact hnext.setTx ⟨hphase, rfl, rfl⟩
      · have := h.ok j phase' hj
        cases phase' with
        | revoking scope =>
          cases scope with
          | family g => exact this
          | user u => trivial
        | _ => exact this
  | _ => cases hstep

private theorem startUpdateStep (h : w.Sound) (hphase : phase.Ok w.table w.locks i) {now : Instant}
    (hstep : w.startUpdate i now phase = some w') : w'.Sound := by
  cases phase with
  | revoking scope =>
    obtain rfl := Option.some.inj hstep
    refine h.setTx ⟨?_, fun _ hid => absurd hid List.not_mem_nil, fun r hr hf => ?_⟩
    · intro f hf
      cases scope with
      | family g =>
        obtain rfl := List.mem_singleton.1 hf
        exact hphase
      | user u =>
        obtain ⟨r, hr, rfl⟩ := List.mem_map.1 hf
        exact h.drawn r (List.mem_filter.1 hr).1
    · have hcovers : scope.covers r = true := by
        cases scope with
        | family g => simpa [RevokeScope.covers, RevokeScope.families] using hf
        | user u =>
          obtain ⟨q, hq, hqf⟩ := List.mem_map.1 hf
          obtain ⟨hq, hqu⟩ := List.mem_filter.1 hq
          rw [decide_eq_true_eq] at hqu
          simpa [RevokeScope.covers, h.user r hr q hq hqf.symm] using hqu
      refine ⟨hcovers, ?_⟩
      cases hrevoked : r.revokedAt with
      | some at' => exact .inl rfl
      | none =>
        refine .inr (.inl (List.mem_map.2 ⟨r, List.mem_filter.2 ⟨hr, ?_⟩, rfl⟩))
        simp [hcovers, hrevoked]
  | _ => cases hstep

private theorem updateRowStep (h : w.Sound) (hphase : phase.Ok w.table w.locks i)
    (hstep : w.updateRow i phase = some w') : w'.Sound := by
  cases phase with
  | updating scope families todo changed now =>
    cases todo with
    | nil => cases hstep
    | cons id todo =>
      obtain ⟨hknown, hheld, hrows⟩ := hphase
      simp only [TokenWorld.updateRow] at hstep
      split at hstep
      · rename_i hfree
        split at hstep
        · obtain rfl := Option.some.inj hstep
          refine (h.lock hfree).setTx ⟨hknown, fun k hk => ?_, fun r hr hf => ?_⟩
          · show Function.update w.locks id (some i) k = some i
            by_cases hkid : k = id
            · rw [hkid, Function.update_self]
            · rw [Function.update_of_ne hkid]
              exact hheld k ((List.mem_cons.1 hk).resolve_left hkid)
          · obtain ⟨hcovers, hstate⟩ := hrows r hr hf
            simp only [List.mem_cons] at hstate ⊢
            exact ⟨hcovers, by tauto⟩
        · -- the row was revoked by somebody else while the statement waited
          rename_i hskip
          obtain rfl := Option.some.inj hstep
          refine h.setTx ⟨hknown, hheld, fun r hr hf => ?_⟩
          obtain ⟨hcovers, hstate⟩ := hrows r hr hf
          refine ⟨hcovers, ?_⟩
          rcases hstate with hrevoked | hid | hchanged
          · exact .inl hrevoked
          · rcases List.mem_cons.1 hid with rfl | hid
            · left
              cases hrevoked : r.revokedAt with
              | some at' => rfl
              | none =>
                refine absurd (List.any_eq_true.2 ⟨r, hr, ?_⟩) hskip
                simp [hcovers, hrevoked]
            · exact .inr (.inl hid)
          · exact .inr (.inr hchanged)
      · cases hstep
  | _ => cases hstep

private theorem commitStep (h : w.Sound) (htx : w.txs[i]? = some phase) (hapart : w.Apart (.commit i))
    (hstep : w.commit i phase = some w') : w'.Sound := by
  have hphase := h.ok i phase htx
  cases phase with
  | issued token usedAt child =>
    obtain rfl := Option.some.inj hstep
    obtain ⟨⟨hlocked, r, hr, hid, hfamily, huser, hnone⟩, hcf, hcu⟩ := hphase
    have hmark := (h.finish i).mapRows
      (f := fun r => if r.id = token.id ∧ r.usedAt.isNone then { r with usedAt := some usedAt } else r)
      (fun r => by split <;> simp) (fun r hr => by split <;> exact hr) fun r _ hnone hne => by
        refine absurd ?_ hne
        split <;> exact hnone
    refine hmark.insert rfl (fun f hf => hf) ?_ ?_ ?_ ?_
    · show child.family ∈ w.table.families
      rw [hcf, ← hfamily]
      exact h.drawn r hr
    · intro q' hq' hqf
      obtain ⟨q, hq, rfl⟩ := List.mem_map.1 hq'
      have hkeep : (if q.id = token.id ∧ q.usedAt.isNone then { q with usedAt := some usedAt }
        else q).family = q.family ∧
          (if q.id = token.id ∧ q.usedAt.isNone then { q with usedAt := some usedAt } else q).user = q.user := by
        split <;> exact ⟨rfl, rfl⟩
      rw [hkeep.1, hcf, ← hfamily] at hqf
      rw [hkeep.2, hcu, ← huser]
      exact h.user q hq r hr hqf
    · -- a revoked family has no unrevoked token, and the token of this refresh is one
      intro hf
      have := h.final r hr (by rw [hfamily, ← hcf]; exact hf)
      rw [hnone] at this
      cases this
    · intro phase' hphase'
      rcases List.mem_or_eq_of_mem_set hphase' with hmem | rfl
      · refine hapart i rfl child ?_ phase' hmem
        rw [htx]
        rfl
      · exact List.not_mem_nil
  | updating scope families todo changed now =>
    cases todo with
    | cons id todo => cases hstep
    | nil =>
      obtain rfl := Option.some.inj hstep
      obtain ⟨hknown, hheld, hrows⟩ := hphase
      have hrevoke := (h.finish i).mapRows
        (f := fun r => if r.id ∈ changed then { r with revokedAt := some now } else r)
        (fun r => by split <;> simp) (fun r hr => by split <;> simp [hr]) fun r _ hnone hne => by
          by_cases hid : r.id ∈ changed
          · show (if w.locks r.id = some i then none else w.locks r.id) = none
            rw [if_pos (hheld _ hid)]
          · rw [if_neg hid] at hne
            exact absurd hnone hne
      refine ⟨hrevoke.drawn, hrevoke.user, hrevoke.ok, fun f hf => ?_, fun r' hr' hf => ?_⟩
      · rcases List.mem_append.1 hf with hf | hf
        · exact hknown f hf
        · exact h.known f hf
      · rcases List.mem_append.1 hf with hnew | hold
        · obtain ⟨r, hr, rfl⟩ := List.mem_map.1 hr'
          by_cases hid : r.id ∈ changed
          · simp [hid]
          · simp only [if_neg hid] at hnew ⊢
            obtain ⟨-, hrevoked | hnil | hchanged⟩ := hrows r hr hnew
            · exact hrevoked
            · cases hnil
            · exact absurd hchanged hid
        · exact hrevoke.final r' hr' hold
  | _ => cases hstep

theorem step (h : w.Sound) {a : TokenTxAct} (hapart : w.Apart a) (hstep : w.step cfg a = some w') : w'.Sound := by
  cases a with
  | login user draw client now =>
    simp only [TokenWorld.step] at hstep
    split at hstep
    · cases hstep
    · rename_i hfamily
      obtain rfl := Option.some.inj hstep
      unfold TokenTable.login
      cases hissue : w.table.issueRefreshToken cfg user none draw client now with
      | none => exact h
      | some t' =>
        simp only [TokenTable.issueRefreshToken] at hissue
        split at hissue
        · cases hissue
        · obtain rfl := Option.some.inj hissue
          -- nothing in the table, no revocation and no open transaction knows the new family
          refine h.insert rfl (fun f hf => List.mem_cons_of_mem _ hf) (List.mem_cons_self ..) ?_ ?_ ?_
          · intro r hr hf
            have hnew : r.family = draw.family := hf
            exact absurd (hnew ▸ h.drawn r hr) hfamily
          · exact fun hf => hfamily (h.known _ hf)
          · intro phase hphase hf
            obtain ⟨j, hj⟩ := List.getElem?_of_mem hphase
            have hok := h.ok j phase hj
            cases phase with
            | updating scope families todo changed now => exact hfamily (hok.1 _ hf)
            | _ => exact absurd hf List.not_mem_nil
  | beginRefresh req =>
    obtain rfl := Option.some.inj hstep
    exact h.beginStep fun _ => trivial
  | beginLogout req =>
    obtain rfl := Option.some.inj hstep
    exact h.beginStep fun _ => trivial
  | beginLogoutAll user =>
    obtain rfl := Option.some.inj hstep
    exact h.beginStep fun _ => trivial
  | select i now =>
    obtain ⟨phase, -, hstep⟩ := Option.bind_eq_some_iff.1 hstep
    exact h.selectStep hstep
  | issue i usedAt issuedAt draw =>
    obtain ⟨phase, htx, hstep⟩ := Option.bind_eq_some_iff.1 hstep
    exact h.issueStep (h.ok i phase htx) hstep
  | startUpdate i now =>
    obtain ⟨phase, htx, hstep⟩ := Option.bind_eq_some_iff.1 hstep
    exact h.startUpdateStep (h.ok i phase htx) hstep
  | updateRow i =>
    obtain ⟨phase, htx, hstep⟩ := Option.bind_eq_some_iff.1 hstep
    exact h.updateRowStep (h.ok i phase htx) hstep
  | commit i =>
    obtain ⟨phase, htx, hstep⟩ := Option.bind_eq_some_iff.1 hstep
    exact h.commitStep htx hapart hstep
  | rollback i =>
    obtain ⟨phase, -, rfl⟩ := Option.map_eq_some_iff.1 hstep
    exact h.finish i

end Sound

end TokenWorld

/-! ### Is a revocation final? -/

/-- The token with which a refresh has passed its checks. -/
def TokenPhase.passed : TokenPhase → Option RefreshToken
  | rotating token _ | issued token _ _ => some token
  | _ => none

private theorem TokenPhase.Ok.holds {t : TokenTable} {locks : Nat → Option Nat} {i : Nat} {phase : TokenPhase}
    (h : phase.Ok t locks i) {token : RefreshToken} (htoken : phase.passed = some token) :
    TokenPhase.Holds t locks i token := by
  cases phase with
  | rotating token' client =>
    obtain rfl := Option.some.inj htoken
    exact h
  | issued token' usedAt child =>
    obtain rfl := Option.some.inj htoken
    exact h.1
  | _ => cases htoken

/-- In a run in which no refresh commits while a revoking `UPDATE` of its family is under way, every token of
a revoked family is revoked, and no refresh of that family gets past its checks. -/
theorem revocation_final {cfg : RefreshSettings} {acts : List TokenTxAct} {w : TokenWorld}
    (hapart : Along (TokenWorld.step cfg) TokenWorld.Apart {} acts)
    (h : exec (TokenWorld.step cfg) {} acts = some w) :
    w.Final ∧ ∀ phase ∈ w.txs, ∀ token, phase.passed = some token → token.family ∉ w.revoked := by
  have hsound : w.Sound := exec_invariant (fun _ _ _ hC hstep hs => hs.step hC hstep) .start hapart h
  refine ⟨hsound.final, fun phase hphase token htoken hf => ?_⟩
  obtain ⟨i, htx⟩ := List.getElem?_of_mem hphase
  obtain ⟨-, r, hr, -, hfamily, -, hnone⟩ := (hsound.ok i phase htx).holds htoken
  have := hsound.final r hr (hfamily ▸ hf)
  rw [hnone] at this
  cases this

/-- A logout-all that starts while the only token of the user is being refreshed: the `UPDATE` waits for that
row and revokes it, and the child that was committed in the meantime stays. -/
theorem revocation_misses_child :
    ∃ w, exec (TokenWorld.step (.defaults id)) {}
        [.login 5 ⟨70, "a"⟩ {} 0, .beginRefresh ⟨some "a", some "x", some "x", {}⟩, .select 0 1, .beginLogoutAll 5,
          .startUpdate 1 2, .issue 0 3 3 ⟨0, "b"⟩, .commit 0, .updateRow 1, .commit 1] = some w ∧
      w.revoked = [70] ∧ (w.table.rows.map fun r => (r.id, r.family, r.revokedAt)) =
        [(1, 70, some 2), (2, 70, none)] ∧
      ¬w.Final := by
  obtain ⟨w, hw, hp⟩ := exec_any (TokenWorld.step (.defaults id)) {}
    [.login 5 ⟨70, "a"⟩ {} 0, .beginRefresh ⟨some "a", some "x", some "x", {}⟩, .select 0 1, .beginLogoutAll 5,
      .startUpdate 1 2, .issue 0 3 3 ⟨0, "b"⟩, .commit 0, .updateRow 1, .commit 1]
    (fun w => w.revoked = [70] ∧ (w.table.rows.map fun r => (r.id, r.family, r.revokedAt)) =
      [(1, 70, some 2), (2, 70, none)] ∧
      ¬w.Final) (by decide +kernel)
  rw [decide_eq_true_eq] at hp
  exact ⟨w, hw, hp⟩

/-- The same transactions, with the refresh over before the `UPDATE` starts: both tokens are revoked. -/
theorem revocation_final_after_refresh :
    ∃ w, exec (TokenWorld.step (.defaults id)) {}
        [.login 5 ⟨70, "a"⟩ {} 0, .beginRefresh ⟨some "a", some "x", some "x", {}⟩, .select 0 1, .beginLogoutAll 5,
          .issue 0 3 3 ⟨0, "b"⟩, .commit 0, .startUpdate 1 4, .updateRow 1, .updateRow 1, .commit 1] = some w ∧
      w.revoked = [70, 70] ∧ w.table.rows.length = 2 ∧ w.Final := by
  obtain ⟨w, hw, hp⟩ := exec_any (TokenWorld.step (.defaults id)) {}
    [.login 5 ⟨70, "a"⟩ {} 0, .beginRefresh ⟨some "a", some "x", some "x", {}⟩, .select 0 1, .beginLogoutAll 5,
      .issue 0 3 3 ⟨0, "b"⟩, .commit 0, .startUpdate 1 4, .updateRow 1, .updateRow 1, .commit 1]
    (fun w => w.revoked = [70, 70] ∧ w.table.rows.length = 2) (by decide +kernel)
  rw [decide_eq_true_eq] at hp
  exact ⟨w, hw, hp.1, hp.2, (revocation_final (.of_check (by decide +kernel)) hw).1⟩

end Ticketing
