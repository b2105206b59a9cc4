import Mathlib.Data.List.Nodup
import Ticketing.Base.Digits
import Ticketing.Base.Text
import Ticketing.Pii
import Ticketing.RefreshTokens

/-!
# Accounts

The tables `users`, `refresh_tokens` and `buyer_info`, and the requests on them: registering, logging in,
refreshing a session, entering the buyer's data, and the erasure of an account.  Each request goes on
statement by statement, so that whatever another one commits falls between any two of its statements.  What a
transaction writes is seen at its commit; a `DELETE` takes the rows that were there when it started.  Between
the commit and the answer a request still has its audit event to send and may fail there.  Logouts and the
nightly delete are transactions of the table of tokens, one after another.

Row locks are not modelled: they only rule out some of the interleavings below.
-/

namespace Ticketing

open Exec Text

/-! ### Rows -/

structure User where
  id : UserId
  username : String
  hashedPassword : String
  isActive : Bool := true
  isAdmin : Bool := false
deriving DecidableEq

/-- A row of `buyer_info`; `row` tells it from rows that the user had before or gets later. -/
structure BuyerInfo where
  row : Nat
  user : UserId
  realName : String
  pii : EncryptedPII
  lookupHash : Bytes
deriving DecidableEq

structure AccountDb where
  users : List User := []
  tokens : TokenTable := {}
  buyers : List BuyerInfo := []
  nextUser : UserId := 1
  nextRow : Nat := 1

/-! ### `schemas/user.py` -/

/-- A character of `[a-zA-Z0-9_]`. -/
def isWordChar (c : Char) : Bool := c.isAlphanum || c = '_'

/-- `Username`: what a registration may ask for, stripped. -/
def usernameOf (raw : String) : Option String :=
  let name := strip raw
  if 3 ≤ name.length ∧ name.length ≤ 64 ∧ name.toList.all isWordChar then some name else none

/-- `Password` -/
def passwordOk (password : String) : Bool := 8 ≤ password.length ∧ password.length ≤ 128

/-! ### `services/erasure.py` -/

/-- `ANONYMISED_USERNAME` -/
def anonymisedUsername (id : UserId) : String := "erased-user-" ++ toString id

/-- `_UNUSABLE_PASSWORD` -/
def unusablePassword : String := "!erased"

/-- `is_erased` -/
def User.isErased (u : User) : Bool := u.username = anonymisedUsername u.id

/-- The `UPDATE` of `erase_user`. -/
def User.anonymised (u : User) : User :=
  { u with username := anonymisedUsername u.id, hashedPassword := unusablePassword, isActive := false }

/-! ### Requests -/

/-- The settings that the requests read, the keyed hash of a national id, and `verify_password`, which raises
on a hash that it cannot read. -/
structure AccountSettings where
  refresh : RefreshSettings
  aes : Aes256Gcm
  lib : PyLib
  pii : PiiSettings lib
  lookupHash : String → Bytes
  verifyPassword : String → String → Option Bool

/-- A request; `sub` is the user id of its access token. -/
inductive AccountRequest where
  | register (username password : String)
  | login (username password : String)
  /-- `GET /users/me` -/
  | me (sub : UserId)
  /-- Who asks is known by the cookie alone. -/
  | refresh (req : AuthRequest)
  | logoutAll (sub : UserId)
  | createBuyerInfo (sub : UserId) (realName nationalId : String)
  | erase (sub target : UserId)
deriving DecidableEq

inductive AccountReply where
  | created (user : User)
  | usernameTaken
  /-- The family that the session starts. -/
  | token (user : UserId) (family : Uuid)
  /-- New tokens for the user of a session. -/
  | refreshed (user : UserId) (family : Uuid)
  | user (user : User)
  | loggedOut
  | buyerCreated (row : Nat)
  /-- `BuyerInfoAlreadyExists` -/
  | buyerExists
  /-- `NationalIdAlreadyRegistered` -/
  | nationalIdTaken
  | erased (user : User)
  | unauthorized
  | forbidden
  | userNotFound
  | unprocessable
  /-- 500 -/
  | failed
deriving DecidableEq

/-- What a request is about to do. -/
inductive AccountPhase where
  /-- Nothing is read yet. -/
  | arrived
  /-- `INSERT INTO users` and commit -/
  | inserting (username hashedPassword : String)
  /-- The password is checked against the row that was read. -/
  | verifying (user : Option User)
  /-- `issue_refresh_token` and commit -/
  | issuing (user : UserId)
  /-- `revoke_all_for_user` and commit -/
  | revoking (user : UserId)
  /-- `get_buyer_info_by_user_id` -/
  | checking
  /-- `create_buyer_info` and commit -/
  | storing (pii : EncryptedPII)
  /-- `get_user_by_id` of an erasure -/
  | lookingUp
  /-- `DELETE FROM refresh_tokens` -/
  | deletingTokens
  /-- `DELETE FROM buyer_info`; the ids of the tokens that go -/
  | deletingBuyer (tokens : List Nat)
  /-- `UPDATE users` and commit -/
  | anonymising (tokens rows : List Nat)
  /-- The transaction is over; the audit event and the cookies are to come. -/
  | answering (reply : AccountReply)
  | answered (reply : AccountReply)
  | died
deriving DecidableEq

namespace AccountPhase

def ended : AccountPhase → Bool
  | answered _ | died => true
  | _ => false

/-- Nothing more is read from the tables or written to them. -/
def settled : AccountPhase → Bool
  | answering _ | answered _ | died => true
  | _ => false

end AccountPhase

/-- `subject` is the account that the request found active when it read it.  `outcome` is what its transaction
has ended with; no step reads it. -/
structure AccountCall where
  request : AccountRequest
  phase : AccountPhase := .arrived
  subject : Option UserId := none
  outcome : Option AccountReply := none
deriving DecidableEq

structure AccountWorld where
  db : AccountDb := {}
  calls : List AccountCall := []

/-- What the random generators, the clock and the order of the index checks decide in a step. -/
structure AccountDraw where
  token : TokenDraw
  client : ClientInfo := {}
  now : Instant
  clock : RefreshClock
  hashedPassword : String
  dek : Dek
  nonce : Nonce
  nonce' : Nonce
  hashIndexFirst : Bool

inductive AccountAct where
  | receive (request : AccountRequest)
  | run (i : Nat) (draw : AccountDraw)
  /-- The request fails or is cancelled. -/
  | die (i : Nat)
  | logout (req : AuthRequest) (now : Instant)
  | purge (now : Instant)
  /-- `rewrap_pii_keks` comes to a row. -/
  | rewrap (row : Nat) (nonce : Nonce)

/-! ### Statements -/

namespace AccountDb

def getUserById (db : AccountDb) (id : UserId) : Option User := db.users.find? fun u => u.id = id

def getUserByUsername (db : AccountDb) (username : String) : Option User :=
  db.users.find? fun u => u.username = username

/-- `get_current_active_user` -/
def currentUser (db : AccountDb) (sub : UserId) : Except AccountReply User :=
  match db.getUserById sub with
  | none => .error .unauthorized
  | some u => if u.isActive then .ok u else .error .forbidden

/-- `create_user` -/
def createUser (db : AccountDb) (username hashedPassword : String) : AccountReply × AccountDb :=
  if db.users.any fun u => u.username = username then (.usernameTaken, { db with nextUser := db.nextUser + 1 })
  else
    let user : User := { id := db.nextUser, username, hashedPassword }
    (.created user, { db with users := db.users ++ [user], nextUser := db.nextUser + 1 })

/-- `create_buyer_info`, and which constraint `register_buyer_info` finds in the error. -/
def createBuyerInfo (db : AccountDb) (user : UserId) (realName : String) (pii : EncryptedPII) (lookupHash : Bytes)
    (hashIndexFirst : Bool) : AccountReply × AccountDb :=
  let own := db.buyers.any fun b => b.user = user
  let taken := db.buyers.any fun b => b.lookupHash = lookupHash
  if (db.getUserById user).isNone then (.failed, db)
  else if taken ∧ (own → hashIndexFirst) then (.nationalIdTaken, db)
  else if own then (.buyerExists, db)
  else (.buyerCreated db.nextRow,
    { db with
      buyers := db.buyers ++ [{ row := db.nextRow, user, realName, pii, lookupHash }]
      nextRow := db.nextRow + 1 })

/-- The commit of `erase_user`: it fails when the new name is taken or a token that stays refers to one that goes. -/
def eraseUser (db : AccountDb) (target : UserId) (tokens rows : List Nat) : Option AccountDb :=
  let kept := db.tokens.rows.filter fun r => r.id ∉ tokens
  if db.users.any fun u => u.id ≠ target ∧ u.username = anonymisedUsername target then none
  else if kept.any fun r => r.parent.any fun parent => parent ∈ tokens then none
  else some { db with
    users := db.users.map fun u => if u.id = target then u.anonymised else u
    tokens := { db.tokens with rows := kept }
    buyers := db.buyers.filter fun b => b.row ∉ rows }

/-- `refresh_access_token`, whose transaction is one step here; the user's row is not read. -/
def refresh (cfg : AccountSettings) (db : AccountDb) (req : AuthRequest) (draw : TokenDraw) (clock : RefreshClock) :
    AccountReply × AccountDb :=
  let reply : AccountReply :=
    match req.presented.bind (db.tokens.getRefreshTokenForUpdate cfg.refresh) with
    | none => .unauthorized
    | some token =>
      match token.decision cfg.refresh clock.now with
      | .reject | .reuse => .unauthorized
      | .rotate =>
        let issued := (db.tokens.markTokenUsed token.id clock.usedAt).issueRefreshToken cfg.refresh token.user
          (some token) draw req.client clock.issuedAt
        if issued.isSome then .refreshed token.user token.family else .failed
  (reply, { db with tokens := db.tokens.refreshAccessToken cfg.refresh req draw clock })

/-- `rewrap_dek` on the row, where it succeeds. -/
def rewrap (cfg : AccountSettings) (db : AccountDb) (row : Nat) (nonce : Nonce) : AccountDb :=
  { db with buyers := db.buyers.map fun b =>
      if b.row = row then
        match rewrapDek cfg.aes cfg.pii nonce b.pii.dekEncrypted b.pii.kekVersion with
        | .ok (dekEncrypted, kekVersion) => { b with pii := { b.pii with dekEncrypted, kekVersion } }
        | .error _ => b
      else b }

end AccountDb

/-! ### Steps -/

namespace AccountCall

def goto (c : AccountCall) (phase : AccountPhase) : AccountCall := { c with phase }

def reply (c : AccountCall) (reply : AccountReply) : AccountCall := c.goto (.answered reply)

/-- Its transaction is over. -/
def close (c : AccountCall) (reply : AccountReply) : AccountCall :=
  { c with phase := .answering reply, outcome := some reply }

/-- The request goes on as the account that it found active. -/
def actAs (c : AccountCall) (user : UserId) (phase : AccountPhase) : AccountCall :=
  { c with phase, subject := some user }

/-- A request behind `CurrentUser`. -/
def authenticated (c : AccountCall) (db : AccountDb) (sub : UserId) (next : User → AccountPhase) : AccountCall :=
  match db.currentUser sub with
  | .ok u => c.actAs sub (next u)
  | .error r => c.reply r

/-- The first read of a request. -/
def arrive (db : AccountDb) (draw : AccountDraw) (c : AccountCall) : AccountCall :=
  match c.request with
  | .register username password =>
    match usernameOf username with
    | some name =>
        if passwordOk password then c.goto (.inserting name draw.hashedPassword) else c.reply .unprocessable
    | none => c.reply .unprocessable
  | .login username _ =>
    match db.getUserByUsername username with
    | some u => if u.isActive then c.actAs u.id (.verifying (some u)) else c.goto (.verifying (some u))
    | none => c.goto (.verifying none)
  | .me sub => c.authenticated db sub fun u => .answered (.user u)
  | .refresh _ => c
  | .logoutAll sub => c.authenticated db sub fun _ => .revoking sub
  | .createBuyerInfo sub _ _ => c.authenticated db sub fun _ => .checking
  | .erase sub _ => c.authenticated db sub fun u => if u.isAdmin then .lookingUp else .answered .forbidden

/-- `verify_password`, or its dummy for a name without account. -/
def verify (cfg : AccountSettings) (c : AccountCall) (password : String) : Option User → AccountCall
  | none => c.reply .unauthorized
  | some u =>
    match cfg.verifyPassword password u.hashedPassword with
    | none => c.reply .failed
    | some valid => if valid ∧ u.isActive then c.goto (.issuing u.id) else c.reply .unauthorized

/-- `register_buyer_info` up to its `INSERT`. -/
def check (cfg : AccountSettings) (db : AccountDb) (draw : AccountDraw) (c : AccountCall) (sub : UserId)
    (nationalId : String) : AccountCall :=
  if db.buyers.any fun b => b.user = sub then c.reply .buyerExists
  else
    match encryptPii cfg.aes cfg.pii draw.dek draw.nonce draw.nonce' nationalId with
    | .ok pii => c.goto (.storing pii)
    | .error _ => c.reply .failed

/-- `get_user_by_id` and `is_erased`. -/
def lookUp (db : AccountDb) (c : AccountCall) (target : UserId) : AccountCall :=
  match db.getUserById target with
  | none => c.reply .userNotFound
  | some u => if u.isErased then c.reply (.erased u) else c.goto .deletingTokens

end AccountCall

namespace AccountWorld

def setCall (w : AccountWorld) (i : Nat) (c : AccountCall) : AccountWorld := { w with calls := w.calls.set i c }

/-- The transaction of the request ends. -/
def commit (w : AccountWorld) (i : Nat) (c : AccountCall) (out : AccountReply × AccountDb) : AccountWorld :=
  { w.setCall i (c.close out.1) with db := out.2 }

/-- The next statement of request `i`.  `uuid4` never draws a family twice. -/
def advance (cfg : AccountSettings) (w : AccountWorld) (i : Nat) (draw : AccountDraw) (c : AccountCall) :
    Option AccountWorld :=
  match c.phase, c.request with
  | .arrived, .refresh req => some (w.commit i c (w.db.refresh cfg req draw.token draw.clock))
  | .arrived, _ => some (w.setCall i (c.arrive w.db draw))
  | .inserting username hashedPassword, _ => some (w.commit i c (w.db.createUser username hashedPassword))
  | .verifying user, .login _ password => some (w.setCall i (c.verify cfg password user))
  | .issuing user, _ =>
    if draw.token.family ∈ w.db.tokens.families then none
    else
      match w.db.tokens.issueRefreshToken cfg.refresh user none draw.token draw.client draw.now with
      | none => some (w.setCall i (c.reply .failed))
      | some tokens => some (w.commit i c (.token user draw.token.family, { w.db with tokens }))
  | .revoking user, _ =>
      some (w.commit i c (.loggedOut, { w.db with tokens := w.db.tokens.revokeAllForUser user draw.now }))
  | .checking, .createBuyerInfo sub _ nationalId => some (w.setCall i (c.check cfg w.db draw sub nationalId))
  | .storing pii, .createBuyerInfo sub realName nationalId =>
    some (w.commit i c (w.db.createBuyerInfo sub realName pii (cfg.lookupHash nationalId) draw.hashIndexFirst))
  | .lookingUp, .erase _ target => some (w.setCall i (c.lookUp w.db target))
  | .deletingTokens, .erase _ target =>
    some (w.setCall i (c.goto (.deletingBuyer
      ((w.db.tokens.rows.filter fun r => r.user = target).map RefreshToken.id))))
  | .deletingBuyer tokens, .erase _ target =>
    some (w.setCall i (c.goto (.anonymising tokens
      ((w.db.buyers.filter fun b => b.user = target).map BuyerInfo.row))))
  | .anonymising tokens rows, .erase _ target =>
    match w.db.eraseUser target tokens rows, w.db.getUserById target with
    | some db, some u => some (w.commit i c (.erased u.anonymised, db))
    | _, _ => some (w.setCall i (c.reply .failed))
  | .answering reply, _ => some (w.setCall i (c.reply reply))
  | _, _ => none

def step (cfg : AccountSettings) (w : AccountWorld) : AccountAct → Option AccountWorld
  | .receive request => some { w with calls := w.calls ++ [{ request }] }
  | .run i draw => w.calls[i]?.bind (w.advance cfg i draw)
  | .die i => w.calls[i]?.bind fun c => if c.phase.ended then none else some (w.setCall i (c.goto .died))
  | .logout req now => some { w with db.tokens := w.db.tokens.logout cfg.refresh req now }
  | .purge now => some { w with db.tokens := (w.db.tokens.purgeExpired now).elim w.db.tokens Prod.snd }
  | .rewrap row nonce => some { w with db := w.db.rewrap cfg row nonce }

end AccountWorld

/-! ### What a step can do -/

/-- The statements that write nothing. -/
inductive AccountCall.Goes (db : AccountDb) (c : AccountCall) : AccountCall → Prop
  | refuse {r : AccountReply} (hp : c.phase.settled = false) (herased : ∀ user, r ≠ .erased user) :
      Goes db c (c.reply r)
  | answer {r : AccountReply} (hp : c.phase = .answering r) : Goes db c (c.reply r)
  | ask {raw name : String} (hp : c.phase = .arrived) (hname : usernameOf raw = some name) (hashedPassword : String) :
      Goes db c (c.goto (.inserting name hashedPassword))
  | read {user : Option User} (hp : c.phase = .arrived) (hactive : ∀ u ∈ user, u.isActive = false) :
      Goes db c (c.goto (.verifying user))
  | readActive {username password : String} {u : User} (hp : c.phase = .arrived)
      (hrequest : c.request = .login username password) (hu : u ∈ db.users) (hactive : u.isActive = true) :
      Goes db c (c.actAs u.id (.verifying (some u)))
  | act {u : User} {phase : AccountPhase} (hp : c.phase = .arrived) (hu : u ∈ db.users) (hactive : u.isActive = true)
      (hphase : phase = .answered (.user u) ∨ phase = .revoking u.id ∨
        (phase = .checking ∧ ∃ name id, c.request = .createBuyerInfo u.id name id) ∨ phase = .lookingUp ∨
        phase = .answered .forbidden) : Goes db c (c.actAs u.id phase)
  | verified {u : User} (hp : c.phase = .verifying (some u)) (hactive : u.isActive = true) :
      Goes db c (c.goto (.issuing u.id))
  | checked {pii : EncryptedPII} (hp : c.phase = .checking) : Goes db c (c.goto (.storing pii))
  | isErased {u : User} (hp : c.phase = .lookingUp) (hu : u ∈ db.users) (herased : u.isErased = true) :
      Goes db c (c.reply (.erased u))
  | found (hp : c.phase = .lookingUp) : Goes db c (c.goto .deletingTokens)
  | deleteTokens {sub target : UserId} (hrequest : c.request = .erase sub target) (hp : c.phase = .deletingTokens) :
      Goes db c (c.goto (.deletingBuyer ((db.tokens.rows.filter fun r => r.user = target).map RefreshToken.id)))
  | deleteBuyer {sub target : UserId} {tokens : List Nat} (hrequest : c.request = .erase sub target)
      (hp : c.phase = .deletingBuyer tokens) :
      Goes db c (c.goto (.anonymising tokens ((db.buyers.filter fun b => b.user = target).map BuyerInfo.row)))
  | die : Goes db c (c.goto .died)

namespace AccountWorld

/-- What a step does to the world. -/
inductive Move (cfg : AccountSettings) (w : AccountWorld) : AccountAct → AccountWorld → Prop
  | receive (request : AccountRequest) : Move cfg w (.receive request) { w with calls := w.calls ++ [{ request }] }
  | go {act : AccountAct} {i : Nat} {c c' : AccountCall} (hc : w.calls[i]? = some c) (hopen : c.phase.ended = false)
      (hgo : c.Goes w.db c') : Move cfg w act (w.setCall i c')
  | register {i : Nat} {draw : AccountDraw} {c : AccountCall} {username hashedPassword : String}
      (hc : w.calls[i]? = some c)
      (hp : c.phase = .inserting username hashedPassword) :
      Move cfg w (.run i draw) (w.commit i c (w.db.createUser username hashedPassword))
  | issue {i : Nat} {draw : AccountDraw} {c : AccountCall} {user : UserId} {tokens : TokenTable}
      (hc : w.calls[i]? = some c)
      (hp : c.phase = .issuing user) (hnew : draw.token.family ∉ w.db.tokens.families)
      (hissue : w.db.tokens.issueRefreshToken cfg.refresh user none draw.token draw.client draw.now = some tokens) :
      Move cfg w (.run i draw) (w.commit i c (.token user draw.token.family, { w.db with tokens }))
  | revoke {i : Nat} {draw : AccountDraw} {c : AccountCall} {user : UserId} (hc : w.calls[i]? = some c)
      (hp : c.phase = .revoking user) :
      Move cfg w (.run i draw)
        (w.commit i c (.loggedOut, { w.db with tokens := w.db.tokens.revokeAllForUser user draw.now }))
  | store {i : Nat} {draw : AccountDraw} {c : AccountCall} {pii : EncryptedPII} {sub : UserId}
      {realName nationalId : String}
      (hc : w.calls[i]? = some c) (hp : c.phase = .storing pii)
      (hrequest : c.request = .createBuyerInfo sub realName nationalId) :
      Move cfg w (.run i draw)
        (w.commit i c (w.db.createBuyerInfo sub realName pii (cfg.lookupHash nationalId) draw.hashIndexFirst))
  | erase {i : Nat} {draw : AccountDraw} {c : AccountCall} {sub target : UserId} {tokens rows : List Nat}
      {db : AccountDb} {u : User} (hc : w.calls[i]? = some c) (hp : c.phase = .anonymising tokens rows)
      (hrequest : c.request = .erase sub target)
      (hu : w.db.getUserById target = some u) (herase : w.db.eraseUser target tokens rows = some db) :
      Move cfg w (.run i draw) (w.commit i c (.erased u.anonymised, db))
  | refresh {i : Nat} {draw : AccountDraw} {c : AccountCall} {req : AuthRequest} (hc : w.calls[i]? = some c)
      (hp : c.phase = .arrived)
      (hrequest : c.request = .refresh req) :
      Move cfg w (.run i draw) (w.commit i c (w.db.refresh cfg req draw.token draw.clock))
  | logout (req : AuthRequest) (now : Instant) :
      Move cfg w (.logout req now) { w with db.tokens := w.db.tokens.logout cfg.refresh req now }
  | purge (now : Instant) :
      Move cfg w (.purge now) { w with db.tokens := (w.db.tokens.purgeExpired now).elim w.db.tokens Prod.snd }
  | rewrap (row : Nat) (nonce : Nonce) : Move cfg w (.rewrap row nonce) { w with db := w.db.rewrap cfg row nonce }

end AccountWorld

theorem AccountDb.getUserById_eq_some {db : AccountDb} {id : UserId} {u : User} (h : db.getUserById id = some u) :
    u ∈ db.users ∧ u.id = id :=
  ⟨List.mem_of_find?_eq_some h, by simpa using List.find?_some h⟩

theorem AccountDb.currentUser_eq_ok {db : AccountDb} {sub : UserId} {u : User} (h : db.currentUser sub = .ok u) :
    u ∈ db.users ∧ u.id = sub ∧ u.isActive = true := by
  unfold AccountDb.currentUser at h
  split at h
  · cases h
  · rename_i x hx
    obtain ⟨hmem, hid⟩ := AccountDb.getUserById_eq_some hx
    split at h
    · obtain rfl := Except.ok.inj h
      exact ⟨hmem, hid, ‹_›⟩
    · cases h

theorem AccountDb.currentUser_eq_error {db : AccountDb} {sub : UserId} {r : AccountReply}
    (h : db.currentUser sub = .error r) :
    r = .unauthorized ∨ r = .forbidden := by
  unfold AccountDb.currentUser at h
  split at h
  · exact .inl (Except.error.inj h).symm
  · split at h
    · cases h
    · exact .inr (Except.error.inj h).symm

namespace AccountCall

variable {db : AccountDb} {c : AccountCall}

theorem goes_authenticated (hp : c.phase = .arrived) {sub : UserId} {next : User → AccountPhase}
    (hnext : ∀ u, u.id = sub → next u = .answered (.user u) ∨ next u = .revoking u.id ∨
      (next u = .checking ∧ ∃ name id, c.request = .createBuyerInfo u.id name id) ∨ next u = .lookingUp ∨
      next u = .answered .forbidden) : c.Goes db (c.authenticated db sub next) := by
  unfold authenticated
  split
  · rename_i u hu
    obtain ⟨hmem, rfl, hactive⟩ := AccountDb.currentUser_eq_ok hu
    exact .act hp hmem hactive (hnext u rfl)
  · rename_i r hr
    rcases AccountDb.currentUser_eq_error hr with rfl | rfl <;> exact .refuse (by rw [hp]; rfl) (by simp)

theorem goes_arrive (hp : c.phase = .arrived) (hrefresh : ∀ req, c.request ≠ .refresh req) (draw : AccountDraw) :
    c.Goes db (c.arrive db draw) := by
  have hrefuse : c.Goes db (c.reply .unprocessable) := .refuse (by rw [hp]; rfl) (by simp)
  unfold arrive
  split
  · split
    · rename_i hname
      split
      · exact .ask hp hname _
      · exact hrefuse
    · exact hrefuse
  · rename_i username password hrequest
    split
    · rename_i u hu
      have hmem : u ∈ db.users := List.mem_of_find?_eq_some hu
      split
      · exact .readActive hp hrequest hmem ‹_›
      · exact .read hp (by simpa using ‹¬u.isActive = true›)
    · exact .read hp (by simp)
  · exact goes_authenticated hp fun _ _ => .inl rfl
  · rename_i req hrequest
    exact absurd hrequest (hrefresh req)
  · exact goes_authenticated hp fun u hu => .inr (.inl (hu ▸ rfl))
  · rename_i sub name id hrequest
    exact goes_authenticated hp fun u hu => .inr (.inr (.inl ⟨rfl, name, id, hu ▸ hrequest⟩))
  · refine goes_authenticated hp fun u _ => ?_
    split
    · exact .inr (.inr (.inr (.inl rfl)))
    · exact .inr (.inr (.inr (.inr rfl)))

theorem goes_verify {cfg : AccountSettings} {user : Option User} (hp : c.phase = .verifying user)
    (password : String) :
    c.Goes db (c.verify cfg password user) := by
  cases user with
  | none => exact .refuse (by rw [hp]; rfl) (by simp)
  | some u =>
    have hrefuse : c.Goes db (c.reply .unauthorized) := .refuse (by rw [hp]; rfl) (by simp)
    simp only [verify]
    cases cfg.verifyPassword password u.hashedPassword with
    | none => exact .refuse (by rw [hp]; rfl) (by simp)
    | some valid =>
      show c.Goes db (if valid = true ∧ u.isActive = true then c.goto (.issuing u.id) else c.reply .unauthorized)
      by_cases hok : valid = true ∧ u.isActive = true
      · rw [if_pos hok]
        exact .verified hp hok.2
      · rw [if_neg hok]
        exact hrefuse

theorem goes_check {cfg : AccountSettings} (hp : c.phase = .checking) (draw : AccountDraw) (sub : UserId)
    (nationalId : String) :
    c.Goes db (c.check cfg db draw sub nationalId) := by
  unfold check
  split
  · exact .refuse (by rw [hp]; rfl) (by simp)
  · split
    · exact .checked hp
    · exact .refuse (by rw [hp]; rfl) (by simp)

theorem goes_lookUp (hp : c.phase = .lookingUp) (target : UserId) : c.Goes db (c.lookUp db target) := by
  unfold lookUp
  split
  · exact .refuse (by rw [hp]; rfl) (by simp)
  · rename_i u hu
    split
    · exact .isErased hp (AccountDb.getUserById_eq_some hu).1 ‹_›
    · exact .found hp

end AccountCall

/-- Every step is one of the moves. -/
theorem AccountWorld.step_move {cfg : AccountSettings} {w w' : AccountWorld} {act : AccountAct}
    (h : w.step cfg act = some w') :
    Move cfg w act w' := by
  cases act with
  | receive request =>
    obtain rfl := Option.some.inj h
    exact .receive request
  | run i draw =>
    obtain ⟨c, hc, h⟩ := Option.bind_eq_some_iff.1 h
    unfold AccountWorld.advance at h
    split at h
    · rename_i hp hrequest
      obtain rfl := Option.some.inj h
      exact .refresh hc hp hrequest
    · rename_i hp hrefresh
      obtain rfl := Option.some.inj h
      exact .go hc (by rw [hp]; rfl) (AccountCall.goes_arrive hp (fun req hreq => hrefresh req hreq) draw)
    · rename_i hp
      obtain rfl := Option.some.inj h
      exact .register hc hp
    · rename_i hp _
      obtain rfl := Option.some.inj h
      exact .go hc (by rw [hp]; rfl) (AccountCall.goes_verify hp _)
    · rename_i hp
      split at h
      · cases h
      · split at h
        · obtain rfl := Option.some.inj h
          exact .go hc (by rw [hp]; rfl) (.refuse (by rw [hp]; rfl) (by simp))
        · obtain rfl := Option.some.inj h
          exact .issue hc hp ‹_› ‹_›
    · rename_i hp
      obtain rfl := Option.some.inj h
      exact .revoke hc hp
    · rename_i hp _
      obtain rfl := Option.some.inj h
      exact .go hc (by rw [hp]; rfl) (AccountCall.goes_check hp ..)
    · rename_i hp hrequest
      obtain rfl := Option.some.inj h
      exact .store hc hp hrequest
    · rename_i hp _
      obtain rfl := Option.some.inj h
      exact .go hc (by rw [hp]; rfl) (AccountCall.goes_lookUp hp _)
    · rename_i hp hrequest
      obtain rfl := Option.some.inj h
      exact .go hc (by rw [hp]; rfl) (.deleteTokens hrequest hp)
    · rename_i hp hrequest
      obtain rfl := Option.some.inj h
      exact .go hc (by rw [hp]; rfl) (.deleteBuyer hrequest hp)
    · rename_i hp hrequest
      split at h
      · obtain rfl := Option.some.inj h
        exact .erase hc hp hrequest ‹_› ‹_›
      · obtain rfl := Option.some.inj h
        exact .go hc (by rw [hp]; rfl) (.refuse (by rw [hp]; rfl) (by simp))
    · rename_i hp
      obtain rfl := Option.some.inj h
      exact .go hc (by rw [hp]; rfl) (.answer hp)
    · cases h
  | die i =>
    obtain ⟨c, hc, h⟩ := Option.bind_eq_some_iff.1 h
    split at h
    · cases h
    · rename_i hopen
      obtain rfl := Option.some.inj h
      exact .go hc (by simpa using hopen) .die
  | logout req now =>
    obtain rfl := Option.some.inj h
    exact .logout req now
  | purge now =>
    obtain rfl := Option.some.inj h
    exact .purge now
  | rewrap row nonce =>
    obtain rfl := Option.some.inj h
    exact .rewrap row nonce

end Ticketing
