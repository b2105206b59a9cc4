import Ticketing.Base.Exec
import Ticketing.Redis

/-!
# Refresh-token families

The rows of `refresh_tokens` and the functions of `crud/refresh_token.py` on them.  A login starts a family; a
refresh marks the presented token used and adds a child to its family; a token that comes back after the grace
period, a logout and a logout-all revoke; and every night the rows past their useful lifetime are deleted.
The endpoints are those of `auth.py`, here as transactions one after another.

The nightly delete looks at two times of each row and knows nothing of families, yet `parent_id` refers to
other rows of the table.  It never breaks that reference (`families_stay_whole`), because all tokens of a
family carry the same two times (`TokenTable.Sound`).
-/

namespace Ticketing

open Exec

abbrev Uuid := Nat

/-- Microseconds since the epoch, as the timestamps of the table. -/
abbrev Instant := Nat

/-! ### The table -/

structure RefreshToken where
  id : Nat
  family : Uuid
  parent : Option Nat
  user : UserId
  tokenHash : String
  expiresAt : Instant
  absoluteExpiresAt : Instant
  usedAt : Option Instant := none
  revokedAt : Option Instant := none
  userAgent : Option String := none
  ipAddress : Option String := none
deriving DecidableEq

/-- The committed rows and the next value of the id sequence.  `families` records every family id that was drawn. -/
structure TokenTable where
  rows : List RefreshToken := []
  nextId : Nat := 1
  families : List Uuid := []

/-- The settings the endpoints read, and the hash under which a token is stored. -/
structure RefreshSettings where
  sliding : Nat
  absolute : Nat
  grace : Nat
  hashRefreshToken : String → String

/-- The defaults of `config.py`: 14 days, 30 days and 10 seconds. -/
def RefreshSettings.defaults (hashRefreshToken : String → String) : RefreshSettings where
  sliding := 14 * 24 * 60 * 60 * 1000000
  absolute := 30 * 24 * 60 * 60 * 1000000
  grace := 10 * 1000000
  hashRefreshToken

/-- What the random generators return while a token is issued. -/
structure TokenDraw where
  family : Uuid
  plaintext : String

/-- What the request says about the client. -/
structure ClientInfo where
  userAgent : Option String := none
  ipAddress : Option String := none
deriving DecidableEq

/-! ### `crud/refresh_token.py` -/

/-- The row `issue_refresh_token` adds. -/
def newRefreshToken (cfg : RefreshSettings) (id : Nat) (user : UserId) (parent : Option RefreshToken)
    (draw : TokenDraw) (client : ClientInfo) (now : Instant) : RefreshToken :=
  let absoluteExpiresAt := parent.elim (now + cfg.absolute) RefreshToken.absoluteExpiresAt
  { id
    family := parent.elim draw.family RefreshToken.family
    parent := parent.map RefreshToken.id
    user
    tokenHash := cfg.hashRefreshToken draw.plaintext
    expiresAt := min (now + cfg.sliding) absoluteExpiresAt
    absoluteExpiresAt
    userAgent := client.userAgent
    ipAddress := client.ipAddress }

namespace TokenTable

/-- `issue_refresh_token`; `none` when the hash of the new token is taken. -/
def issueRefreshToken (t : TokenTable) (cfg : RefreshSettings) (user : UserId) (parent : Option RefreshToken)
    (draw : TokenDraw) (client : ClientInfo) (now : Instant) : Option TokenTable :=
  let token := newRefreshToken cfg t.nextId user parent draw client now
  if t.rows.any fun r => r.tokenHash = token.tokenHash then none
  else some { rows := t.rows ++ [token], nextId := t.nextId + 1, families := token.family :: t.families }

def getRefreshTokenForUpdate (t : TokenTable) (cfg : RefreshSettings) (plaintext : String) : Option RefreshToken :=
  t.rows.find? fun r => r.tokenHash = cfg.hashRefreshToken plaintext

/-- `mark_token_used`: the first use counts. -/
def markTokenUsed (t : TokenTable) (id : Nat) (now : Instant) : TokenTable :=
  { t with rows := t.rows.map fun r => if r.id = id ∧ r.usedAt.isNone then { r with usedAt := some now } else r }

/-- The `UPDATE` of both revocations. -/
def revokeWhere (t : TokenTable) (p : RefreshToken → Bool) (now : Instant) : TokenTable :=
  { t with rows := t.rows.map fun r => if p r ∧ r.revokedAt.isNone then { r with revokedAt := some now } else r }

def revokeFamily (t : TokenTable) (family : Uuid) : Instant → TokenTable := t.revokeWhere fun r => r.family = family

def revokeAllForUser (t : TokenTable) (user : UserId) : Instant → TokenTable := t.revokeWhere fun r => r.user = user

end TokenTable

/-- `timedelta(days=30)` of `purge_expired`. -/
def revokedRetention : Nat := 30 * 24 * 60 * 60 * 1000000

/-- The `WHERE` of `purge_expired`. -/
def RefreshToken.purgeable (now : Instant) (r : RefreshToken) : Bool :=
  r.absoluteExpiresAt < now ∨ r.revokedAt.any fun revoked => revoked + revokedRetention < now

/-- `purge_expired`: the number of deleted rows; `none` when a row that stays refers to one that goes. -/
def TokenTable.purgeExpired (t : TokenTable) (now : Instant) : Option (Nat × TokenTable) :=
  let kept := t.rows.filter fun r => !r.purgeable now
  if kept.all fun r => r.parent.all fun parent => kept.any fun q => q.id = parent then
    some (t.rows.length - kept.length, { t with rows := kept })
  else none

/-! ### The endpoints -/

/-- The cookies and the header that the endpoints compare. -/
structure AuthRequest where
  refreshToken : Option String
  csrfCookie : Option String
  csrfHeader : Option String
  client : ClientInfo := {}
deriving DecidableEq

/-- The presented token, when no value is missing or empty and both CSRF values agree. -/
def AuthRequest.presented (req : AuthRequest) : Option String :=
  match req.refreshToken, req.csrfCookie, req.csrfHeader with
  | some token, some cookie, some header =>
    if token = "" ∨ cookie = "" ∨ header = "" ∨ cookie ≠ header then none else some token
  | _, _, _ => none

/-- What a refresh does with the token it found. -/
inductive RefreshDecision where
  /-- 401: revoked or expired. -/
  | reject
  /-- Used long ago: somebody replays it. -/
  | reuse
  | rotate
deriving DecidableEq

def RefreshToken.decision (cfg : RefreshSettings) (now : Instant) (token : RefreshToken) : RefreshDecision :=
  if token.revokedAt.isSome then .reject
  else if token.expiresAt < now ∨ token.absoluteExpiresAt < now then .reject
  else
    match token.usedAt with
    | some used => if used + cfg.grace < now then .reuse else .rotate
    | none => .rotate

/-- The times at which one refresh looks at the clock. -/
structure RefreshClock where
  now : Instant
  usedAt : Instant
  issuedAt : Instant
  revokedAt : Instant

namespace TokenTable

def login (t : TokenTable) (cfg : RefreshSettings) (user : UserId) (draw : TokenDraw) (client : ClientInfo)
    (now : Instant) : TokenTable :=
  (t.issueRefreshToken cfg user none draw client now).getD t

/-- `refresh_access_token`: a request that fails leaves the table as it is, except for the reuse of an old token. -/
def refreshAccessToken (t : TokenTable) (cfg : RefreshSettings) (req : AuthRequest) (draw : TokenDraw)
    (clock : RefreshClock) : TokenTable :=
  match req.presented.bind (t.getRefreshTokenForUpdate cfg) with
  | none => t
  | some token =>
    match token.decision cfg clock.now with
    | .reject => t
    | .reuse => t.revokeFamily token.family clock.revokedAt
    | .rotate =>
      ((t.markTokenUsed token.id clock.usedAt).issueRefreshToken cfg token.user (some token) draw req.client
        clock.issuedAt).getD t

def logout (t : TokenTable) (cfg : RefreshSettings) (req : AuthRequest) (now : Instant) : TokenTable :=
  match req.presented.bind (t.getRefreshTokenForUpdate cfg) with
  | none => t
  | some token => t.revokeFamily token.family now

end TokenTable

inductive AuthAct where
  | login (user : UserId) (draw : TokenDraw) (client : ClientInfo) (now : Instant)
  | refresh (req : AuthRequest) (draw : TokenDraw) (clock : RefreshClock)
  | logout (req : AuthRequest) (now : Instant)
  | logoutAll (user : UserId) (now : Instant)
  | purge (now : Instant)

/-- One transaction.  `uuid4` never draws a family twice. -/
def TokenTable.step (cfg : RefreshSettings) (t : TokenTable) : AuthAct → Option TokenTable
  | .login user draw client now => if draw.family ∈ t.families then none else some (t.login cfg user draw client now)
  | .refresh req draw clock => some (t.refreshAccessToken cfg req draw clock)
  | .logout req now => some (t.logout cfg req now)
  | .logoutAll user now => some (t.revokeAllForUser user now)
  | .purge now => some ((t.purgeExpired now).elim t Prod.snd)

/-! ### Families stay whole -/

/-- The two rows agree on everything that a family shares. -/
structure RefreshToken.Alike (a b : RefreshToken) : Prop where
  user : a.user = b.user
  absoluteExpiresAt : a.absoluteExpiresAt = b.absoluteExpiresAt
  revokedAt : a.revokedAt = b.revokedAt

/-- Ids are not used twice, the tokens of a family are alike, and each refers to a token of its family. -/
structure TokenTable.Sound (t : TokenTable) : Prop where
  nodup : (t.rows.map RefreshToken.id).Nodup
  fresh : ∀ r ∈ t.rows, r.id < t.nextId
  drawn : ∀ r ∈ t.rows, r.family ∈ t.families
  expiry : ∀ r ∈ t.rows, r.expiresAt ≤ r.absoluteExpiresAt
  alike : ∀ a ∈ t.rows, ∀ b ∈ t.rows, a.family = b.family → a.Alike b
  parent : ∀ r ∈ t.rows, ∀ id ∈ r.parent, ∃ q ∈ t.rows, q.id = id ∧ q.family = r.family
  root : ∀ r ∈ t.rows, ∃ q ∈ t.rows, q.parent = none ∧ q.family = r.family

namespace TokenTable.Sound

variable {t : TokenTable} {cfg : RefreshSettings}

theorem empty : TokenTable.Sound {} := by
  constructor <;> simp

/-- An update of the rows that leaves ids, families and lifetimes alone and treats the tokens of a family alike. -/
theorem map (h : t.Sound) (f : RefreshToken → RefreshToken)
    (hkeep : ∀ r, (f r).id = r.id ∧ (f r).family = r.family ∧ (f r).parent = r.parent ∧ (f r).user = r.user ∧
      (f r).expiresAt = r.expiresAt ∧ (f r).absoluteExpiresAt = r.absoluteExpiresAt)
    (hrevoked : ∀ a ∈ t.rows, ∀ b ∈ t.rows, a.family = b.family → (f a).revokedAt = (f b).revokedAt) :
    TokenTable.Sound { t with rows := t.rows.map f } := by
  have hid : ∀ r, (f r).id = r.id := fun r => (hkeep r).1
  have hfamily : ∀ r, (f r).family = r.family := fun r => (hkeep r).2.1
  have hparent : ∀ r, (f r).parent = r.parent := fun r => (hkeep r).2.2.1
  constructor
  · have : t.rows.map (fun r => (f r).id) = t.rows.map RefreshToken.id := List.map_congr_left fun r _ => hid r
    simpa only [List.map_map, Function.comp_def, this] using h.nodup
  · intro r hr
    obtain ⟨r, hmem, rfl⟩ := List.mem_map.1 hr
    rw [hid]
    exact h.fresh r hmem
  · intro r hr
    obtain ⟨r, hmem, rfl⟩ := List.mem_map.1 hr
    rw [hfamily]
    exact h.drawn r hmem
  · intro r hr
    obtain ⟨r, hmem, rfl⟩ := List.mem_map.1 hr
    obtain ⟨-, -, -, -, hexp, habs⟩ := hkeep r
    rw [hexp, habs]
    exact h.expiry r hmem
  · intro a ha b hb hab
    obtain ⟨a, hma, rfl⟩ := List.mem_map.1 ha
    obtain ⟨b, hmb, rfl⟩ := List.mem_map.1 hb
    rw [hfamily, hfamily] at hab
    obtain ⟨-, -, -, hua, -, haa⟩ := hkeep a
    obtain ⟨-, -, -, hub, -, hab'⟩ := hkeep b
    have halike := h.alike a hma b hmb hab
    exact ⟨by rw [hua, hub, halike.user], by rw [haa, hab', halike.absoluteExpiresAt], hrevoked a hma b hmb hab⟩
  · intro r hr id hid'
    obtain ⟨r, hmem, rfl⟩ := List.mem_map.1 hr
    rw [hparent] at hid'
    obtain ⟨q, hq, hqid, hqf⟩ := h.parent r hmem id hid'
    exact ⟨f q, List.mem_map.2 ⟨q, hq, rfl⟩, by rw [hid, hqid], by rw [hfamily, hfamily, hqf]⟩
  · intro r hr
    obtain ⟨r, hmem, rfl⟩ := List.mem_map.1 hr
    obtain ⟨q, hq, hqp, hqf⟩ := h.root r hmem
    exact ⟨f q, List.mem_map.2 ⟨q, hq, rfl⟩, by rw [hparent, hqp], by rw [hfamily, hfamily, hqf]⟩

theorem markTokenUsed (h : t.Sound) (id : Nat) (now : Instant) : (t.markTokenUsed id now).Sound := by
  refine h.map _ (fun r => ?_) fun a ha b hb hab => ?_
  · split <;> simp
  · have hrev : ∀ r : RefreshToken,
      (if r.id = id ∧ r.usedAt.isNone then { r with usedAt := some now } else r).revokedAt =
        r.revokedAt := by
      intro r
      split <;> rfl
    rw [hrev, hrev]
    exact (h.alike a ha b hb hab).revokedAt

/-- A revocation that asks for the family or the user of a row revokes whole families. -/
theorem revokeWhere (h : t.Sound) {p : RefreshToken → Bool}
    (hp : ∀ a b : RefreshToken, a.family = b.family → a.user = b.user → p a = p b) (now : Instant) :
    (t.revokeWhere p now).Sound := by
  refine h.map _ (fun r => ?_) fun a ha b hb hab => ?_
  · split <;> simp
  · have halike := h.alike a ha b hb hab
    rw [hp a b hab halike.user, halike.revokedAt]
    split
    · rfl
    · exact halike.revokedAt

theorem revokeFamily (h : t.Sound) (family : Uuid) (now : Instant) : (t.revokeFamily family now).Sound := by
  refine h.revokeWhere (fun a b hf _ => ?_) now
  rw [hf]

theorem revokeAllForUser (h : t.Sound) (user : UserId) (now : Instant) : (t.revokeAllForUser user now).Sound := by
  refine h.revokeWhere (fun a b _ hu => ?_) now
  rw [hu]

/-- A new row: the root of a family that was never drawn, or a child that is like the tokens of its family. -/
theorem add (h : t.Sound) {token : RefreshToken} (hid : token.id = t.nextId)
    (hexp : token.expiresAt ≤ token.absoluteExpiresAt)
    (hfamily : token.parent = none ∧ token.family ∉ t.families ∨
      ∃ q ∈ t.rows, token.parent = some q.id ∧ token.family = q.family ∧ token.Alike q) :
    TokenTable.Sound
      { rows := t.rows ++ [token], nextId := t.nextId + 1, families := token.family :: t.families } := by
  -- whoever shares the family of the new token is like it
  have halike : ∀ r ∈ t.rows, r.family = token.family → r.Alike token := by
    intro r hr hrf
    rcases hfamily with ⟨-, hnew⟩ | ⟨q, hq, -, hqf, hqa⟩
    · exact absurd (hrf ▸ h.drawn r hr) hnew
    · have hrq := h.alike r hr q hq (hrf.trans hqf)
      exact ⟨hrq.user.trans hqa.user.symm, hrq.absoluteExpiresAt.trans hqa.absoluteExpiresAt.symm,
        hrq.revokedAt.trans hqa.revokedAt.symm⟩
  constructor
  · rw [List.map_append, List.nodup_append]
    refine ⟨h.nodup, by simp, ?_⟩
    intro a ha b hb
    obtain ⟨r, hr, rfl⟩ := List.mem_map.1 ha
    obtain rfl : b = token.id := by simpa using hb
    have := h.fresh r hr
    omega
  · intro r hr
    show r.id < t.nextId + 1
    rcases List.mem_append.1 hr with hr | hr
    · exact Nat.lt_succ_of_lt (h.fresh r hr)
    · obtain rfl := List.mem_singleton.1 hr
      omega
  · intro r hr
    rcases List.mem_append.1 hr with hr | hr
    · exact List.mem_cons_of_mem _ (h.drawn r hr)
    · obtain rfl := List.mem_singleton.1 hr
      exact List.mem_cons_self ..
  · intro r hr
    rcases List.mem_append.1 hr with hr | hr
    · exact h.expiry r hr
    · obtain rfl := List.mem_singleton.1 hr
      exact hexp
  · intro a ha b hb hab
    rcases List.mem_append.1 ha with hold | hnew <;> rcases List.mem_append.1 hb with hold' | hnew'
    · exact h.alike a hold b hold' hab
    · obtain rfl := List.mem_singleton.1 hnew'
      exact halike a hold hab
    · obtain rfl := List.mem_singleton.1 hnew
      have := halike b hold' hab.symm
      exact ⟨this.user.symm, this.absoluteExpiresAt.symm, this.revokedAt.symm⟩
    · obtain rfl := List.mem_singleton.1 hnew
      obtain rfl := List.mem_singleton.1 hnew'
      exact ⟨rfl, rfl, rfl⟩
  · intro r hr id hid'
    rcases List.mem_append.1 hr with hr | hr
    · obtain ⟨q, hq, hq'⟩ := h.parent r hr id hid'
      exact ⟨q, List.mem_append_left _ hq, hq'⟩
    · obtain rfl := List.mem_singleton.1 hr
      rcases hfamily with ⟨hnone, -⟩ | ⟨q, hq, hqp, hqf, -⟩
      · rw [hnone] at hid'
        cases hid'
      · rw [hqp, Option.mem_some] at hid'
        exact ⟨q, List.mem_append_left _ hq, hid', hqf.symm⟩
  · intro r hr
    rcases List.mem_append.1 hr with hr | hr
    · obtain ⟨q, hq, hq'⟩ := h.root r hr
      exact ⟨q, List.mem_append_left _ hq, hq'⟩
    · obtain rfl := List.mem_singleton.1 hr
      rcases hfamily with ⟨hnone, -⟩ | ⟨q, hq, -, hqf, -⟩
      · exact ⟨r, List.mem_append_right _ (List.mem_singleton.2 rfl), hnone, rfl⟩
      · obtain ⟨q', hq', hqp, hqf'⟩ := h.root q hq
        exact ⟨q', List.mem_append_left _ hq', hqp, hqf'.trans hqf.symm⟩

theorem issueRefreshToken (h : t.Sound) {user : UserId} {parent : Option RefreshToken} {draw : TokenDraw}
    {client : ClientInfo} {now : Instant} {t' : TokenTable}
    (hissue : t.issueRefreshToken cfg user parent draw client now = some t')
    (hroot : parent = none → draw.family ∉ t.families)
    (hchild : ∀ token ∈ parent, ∃ q ∈ t.rows, q.id = token.id ∧ q.family = token.family ∧ q.user = user ∧
      q.absoluteExpiresAt = token.absoluteExpiresAt ∧ q.revokedAt = none) : t'.Sound := by
  simp only [TokenTable.issueRefreshToken] at hissue
  split at hissue
  · cases hissue
  · obtain rfl := Option.some.inj hissue
    refine h.add rfl (min_le_right ..) ?_
    cases parent with
    | none => exact .inl ⟨rfl, hroot rfl⟩
    | some token =>
      obtain ⟨q, hq, hid, hfamily, huser, habs, hrevoked⟩ := hchild token rfl
      exact .inr ⟨q, hq, congrArg some hid.symm, hfamily.symm, ⟨huser.symm, habs.symm, hrevoked.symm⟩⟩

/-- A refresh finds a token that is neither revoked nor expired and adds its child, or it revokes, or it
changes nothing. -/
theorem refreshAccessToken (h : t.Sound) (req : AuthRequest) (draw : TokenDraw) (clock : RefreshClock) :
    (t.refreshAccessToken cfg req draw clock).Sound := by
  unfold TokenTable.refreshAccessToken
  split
  · exact h
  · rename_i token htoken
    obtain ⟨plaintext, -, hfind⟩ := Option.bind_eq_some_iff.1 htoken
    have hmem : token ∈ t.rows := List.mem_of_find?_eq_some hfind
    split
    · exact h
    · exact h.revokeFamily token.family clock.revokedAt
    · rename_i hdecision
      have hrevoked : token.revokedAt = none := by
        unfold RefreshToken.decision at hdecision
        split at hdecision
        · cases hdecision
        · simpa using ‹¬token.revokedAt.isSome = true›
      have hmarked := h.markTokenUsed token.id clock.usedAt
      -- the row of the presented token differs from what was read only in `used_at`
      have hrow : ∃ q ∈ (t.markTokenUsed token.id clock.usedAt).rows, q.id = token.id ∧ q.family = token.family ∧
          q.user = token.user ∧ q.absoluteExpiresAt = token.absoluteExpiresAt ∧ q.revokedAt = none := by
        refine ⟨_, List.mem_map.2 ⟨token, hmem, rfl⟩, ?_⟩
        split <;> exact ⟨rfl, rfl, rfl, rfl, hrevoked⟩
      cases hissue : (t.markTokenUsed token.id clock.usedAt).issueRefreshToken cfg token.user
        (some token) draw req.client
          clock.issuedAt with
      | none => exact h
      | some t' =>
        refine hmarked.issueRefreshToken hissue (fun hnone => by cases hnone) fun token' htoken' => ?_
        obtain rfl := Option.some.inj htoken'
        exact hrow

theorem logout (h : t.Sound) (req : AuthRequest) (now : Instant) : (t.logout cfg req now).Sound := by
  unfold TokenTable.logout
  split
  · exact h
  · exact h.revokeFamily _ now

theorem purgeable_eq (h : t.Sound) {a b : RefreshToken} (ha : a ∈ t.rows) (hb : b ∈ t.rows)
    (hab : a.family = b.family) (now : Instant) : a.purgeable now = b.purgeable now := by
  have halike := h.alike a ha b hb hab
  simp only [RefreshToken.purgeable, halike.absoluteExpiresAt, halike.revokedAt]

/-- The nightly delete succeeds: where a row stays, its whole family stays, the parent included. -/
theorem purgeExpired (h : t.Sound) (now : Instant) :
    ∃ n, t.purgeExpired now = some (n, { t with rows := t.rows.filter fun r => !r.purgeable now }) := by
  refine ⟨_, if_pos ?_⟩
  rw [List.all_eq_true]
  intro r hr
  obtain ⟨hmem, hkept⟩ := List.mem_filter.1 hr
  cases hparent : r.parent with
  | none => rfl
  | some id =>
    obtain ⟨q, hq, hid, hfamily⟩ := h.parent r hmem id hparent
    rw [Option.all_some, List.any_eq_true]
    refine ⟨q, List.mem_filter.2 ⟨hq, ?_⟩, by simpa using hid⟩
    rwa [h.purgeable_eq hq hmem hfamily now]

/-- What is left when whole families go. -/
theorem filter (h : t.Sound) {p : RefreshToken → Bool}
    (hp : ∀ a ∈ t.rows, ∀ b ∈ t.rows, a.family = b.family → p a = p b) :
    TokenTable.Sound { t with rows := t.rows.filter p } := by
  have hsub : ∀ r ∈ t.rows.filter p, r ∈ t.rows := fun r hr => (List.mem_filter.1 hr).1
  have hstay : ∀ r ∈ t.rows.filter p, ∀ q ∈ t.rows, q.family = r.family → q ∈ t.rows.filter p := by
    intro r hr q hq hqr
    obtain ⟨hmem, hpr⟩ := List.mem_filter.1 hr
    exact List.mem_filter.2 ⟨hq, (hp q hq r hmem hqr).trans hpr⟩
  constructor
  · exact h.nodup.sublist (List.filter_sublist.map _)
  · exact fun r hr => h.fresh r (hsub r hr)
  · exact fun r hr => h.drawn r (hsub r hr)
  · exact fun r hr => h.expiry r (hsub r hr)
  · exact fun a ha b hb => h.alike a (hsub a ha) b (hsub b hb)
  · intro r hr id hid
    obtain ⟨q, hq, hqid, hqf⟩ := h.parent r (hsub r hr) id hid
    exact ⟨q, hstay r hr q hq hqf, hqid, hqf⟩
  · intro r hr
    obtain ⟨q, hq, hqp, hqf⟩ := h.root r (hsub r hr)
    exact ⟨q, hstay r hr q hq hqf, hqp, hqf⟩

theorem step (h : t.Sound) {a : AuthAct} {t' : TokenTable} (hstep : t.step cfg a = some t') : t'.Sound := by
  cases a with
  | login user draw client now =>
    simp only [TokenTable.step] at hstep
    split at hstep
    · cases hstep
    · rename_i hfamily
      obtain rfl := Option.some.inj hstep
      unfold TokenTable.login
      cases hissue : t.issueRefreshToken cfg user none draw client now with
      | none => exact h
      | some t' => exact h.issueRefreshToken hissue (fun _ => hfamily) fun token htoken => by cases htoken
  | refresh req draw clock =>
    obtain rfl := Option.some.inj hstep
    exact h.refreshAccessToken req draw clock
  | logout req now =>
    obtain rfl := Option.some.inj hstep
    exact h.logout req now
  | logoutAll user now =>
    obtain rfl := Option.some.inj hstep
    exact h.revokeAllForUser user now
  | purge now =>
    obtain rfl := Option.some.inj hstep
    obtain ⟨n, hpurge⟩ := h.purgeExpired now
    rw [hpurge]
    refine h.filter fun a ha b hb hab => ?_
    rw [h.purgeable_eq ha hb hab now]

end TokenTable.Sound

/-- In every sequence of transactions the tokens of a family share the root's user and absolute expiry, none
outlives it, all or none of them are revoked and at the same time, and the nightly delete succeeds and deletes
whole families. -/
theorem families_stay_whole {cfg : RefreshSettings} {acts : List AuthAct} {t : TokenTable}
    (h : exec (TokenTable.step cfg) {} acts = some t) :
    (∀ r ∈ t.rows, ∃ root ∈ t.rows, root.parent = none ∧ root.family = r.family ∧ r.user = root.user ∧
      r.absoluteExpiresAt = root.absoluteExpiresAt) ∧
    (∀ a ∈ t.rows, ∀ b ∈ t.rows, a.family = b.family →
      a.user = b.user ∧ a.absoluteExpiresAt = b.absoluteExpiresAt ∧ a.revokedAt = b.revokedAt) ∧
    (∀ r ∈ t.rows, r.expiresAt ≤ r.absoluteExpiresAt) ∧
    (∀ r ∈ t.rows, ∀ id ∈ r.parent, ∃ q ∈ t.rows, q.id = id) ∧
    ∀ now, ∃ n t', t.purgeExpired now = some (n, t') ∧
      ∀ a ∈ t.rows, ∀ b ∈ t.rows, a.family = b.family → (a ∈ t'.rows ↔ b ∈ t'.rows) := by
  have hsound : t.Sound :=
    exec_invariant (C := fun _ _ => True) (fun _ _ _ _ hstep ht => ht.step hstep) .empty
      (.of_forall fun _ _ _ => trivial) h
  refine ⟨fun r hr => ?_, fun a ha b hb hab => ?_, hsound.expiry, fun r hr id hid => ?_, fun now => ?_⟩
  · obtain ⟨q, hq, hqp, hqf⟩ := hsound.root r hr
    have halike := hsound.alike r hr q hq hqf.symm
    exact ⟨q, hq, hqp, hqf, halike.user, halike.absoluteExpiresAt⟩
  · have halike := hsound.alike a ha b hb hab
    exact ⟨halike.user, halike.absoluteExpiresAt, halike.revokedAt⟩
  · obtain ⟨q, hq, hqid, -⟩ := hsound.parent r hr id hid
    exact ⟨q, hq, hqid⟩
  · obtain ⟨n, hpurge⟩ := hsound.purgeExpired now
    refine ⟨n, _, hpurge, fun a ha b hb hab => ?_⟩
    simp only [List.mem_filter, ha, hb, true_and, hsound.purgeable_eq ha hb hab now]

/-- A login, two refreshes with the same token within the grace period, one of a child, and the first token
again after the grace period: three tokens of one family, all revoked at once. -/
theorem family_revoked_whole :
    ∃ t, exec (TokenTable.step (.defaults id)) {}
        [.login 5 ⟨70, "a"⟩ {} 0,
          .refresh ⟨some "a", some "x", some "x", {}⟩ ⟨0, "b"⟩ ⟨1000000, 1000000, 1000000, 1000000⟩,
          .refresh ⟨some "a", some "x", some "x", {}⟩ ⟨0, "c"⟩ ⟨9000000, 9000000, 9000000, 9000000⟩,
          .refresh ⟨some "a", some "x", some "x", {}⟩ ⟨0, "d"⟩ ⟨20000000, 20000000, 20000000, 20000000⟩] = some t ∧
      (t.rows.map fun r => (r.id, r.family, r.parent)) = [(1, 70, none), (2, 70, some 1), (3, 70, some 1)] ∧
      (t.rows.map RefreshToken.revokedAt) = [some 20000000, some 20000000, some 20000000] ∧
      ∀ now, ∃ n t', t.purgeExpired now = some (n, t') ∧
        ∀ a ∈ t.rows, ∀ b ∈ t.rows, a.family = b.family → (a ∈ t'.rows ↔ b ∈ t'.rows) := by
  obtain ⟨t, ht, hp⟩ := exec_any (TokenTable.step (.defaults id)) {}
    [.login 5 ⟨70, "a"⟩ {} 0,
      .refresh ⟨some "a", some "x", some "x", {}⟩ ⟨0, "b"⟩ ⟨1000000, 1000000, 1000000, 1000000⟩,
      .refresh ⟨some "a", some "x", some "x", {}⟩ ⟨0, "c"⟩ ⟨9000000, 9000000, 9000000, 9000000⟩,
      .refresh ⟨some "a", some "x", some "x", {}⟩ ⟨0, "d"⟩ ⟨20000000, 20000000, 20000000, 20000000⟩]
    (fun t => (t.rows.map fun r => (r.id, r.family, r.parent)) = [(1, 70, none), (2, 70, some 1), (3, 70, some 1)] ∧
      (t.rows.map RefreshToken.revokedAt) = [some 20000000, some 20000000, some 20000000]) (by decide +kernel)
  rw [decide_eq_true_eq] at hp
  obtain ⟨-, -, -, -, hpurge⟩ := families_stay_whole ht
  exact ⟨t, ht, hp.1, hp.2, hpurge⟩

end Ticketing
