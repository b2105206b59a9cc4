import Ticketing.Accounts

/-!
# Erasure

`erase_user` renames the row, takes its password away and deactivates it, and deletes the tokens and the
personal data that it finds.  From its commit on nobody is let in as the user (`erased_for_good`), and a row
is renamed so by nothing else: a registration cannot ask for a name with a hyphen.  Requests that were let in
before the commit go on, so a session or a record of theirs may outlive the erasure, and nothing else does
(`erasure_residue`).  Such a session can be refreshed, for a refresh does not read the user's row; the access
tokens it gives are of no use.
-/

namespace Ticketing

open Exec Text

/-! ### Names -/

theorem anonymisedUsername_injective : Function.Injective anonymisedUsername := by
  intro a b h
  have hchars := congrArg String.toList h
  simp only [anonymisedUsername, String.toList_append] at hchars
  have hdigits : (toString a).toList = (toString b).toList := List.append_cancel_left hchars
  exact Digits.toString_injective (String.ext hdigits)

/-- No registration asks for the name of an erased account. -/
theorem usernameOf_ne_anonymised {raw name : String} (h : usernameOf raw = some name) (id : UserId) :
    name ≠ anonymisedUsername id := by
  unfold usernameOf at h
  dsimp only at h
  split at h
  · rename_i hok
    obtain rfl := Option.some.inj h
    intro heq
    have hall := hok.2.2
    rw [heq] at hall
    have hmem : '-' ∈ (anonymisedUsername id).toList := by simp [anonymisedUsername]
    have hword : isWordChar '-' = true := List.all_eq_true.1 hall '-' hmem
    exact absurd hword (by decide)
  · cases h

@[simp] theorem User.anonymised_id (u : User) : u.anonymised.id = u.id := rfl

@[simp] theorem User.anonymised_isActive (u : User) : u.anonymised.isActive = false := rfl

@[simp] theorem User.anonymised_isErased (u : User) : u.anonymised.isErased = true := by
    simp [User.isErased, User.anonymised]

/-! ### The users -/

/-- Ids and names are not used twice, and a name of that form is that of an erased account, its own. -/
structure AccountDb.Named (db : AccountDb) : Prop where
  ids : (db.users.map User.id).Nodup
  fresh : ∀ u ∈ db.users, u.id < db.nextUser
  names : (db.users.map User.username).Nodup
  erased : ∀ u ∈ db.users, ∀ id, u.username = anonymisedUsername id → u.anonymised = u

theorem AccountDb.Named.erased_of_isErased {db : AccountDb} (h : db.Named) {u : User} (hu : u ∈ db.users)
    (herased : u.isErased = true) :
    u.anonymised = u :=
  h.erased u hu u.id (by simpa [User.isErased] using herased)

theorem AccountDb.Named.inactive {db : AccountDb} (h : db.Named) {u : User} (hu : u ∈ db.users)
    (herased : u.isErased = true) :
    u.isActive = false := by
  rw [← h.erased_of_isErased hu herased]
  rfl

/-- Nobody else has the name that an erasure sets. -/
theorem AccountDb.Named.name_free {db : AccountDb} (h : db.Named) {u : User} (hu : u ∈ db.users) {target : UserId}
    (hne : u.id ≠ target) : u.username ≠ anonymisedUsername target := by
  intro hname
  have hself : (anonymisedUsername u.id) = u.username := congrArg User.username (h.erased u hu target hname)
  exact hne (anonymisedUsername_injective (hself.trans hname))

/-- Accounts are kept, as they are or anonymised. -/
def AccountDb.Keeps (db db' : AccountDb) : Prop := ∀ u ∈ db.users, u ∈ db'.users ∨ u.anonymised ∈ db'.users

theorem AccountDb.Keeps.of_eq {db db' : AccountDb} (h : db'.users = db.users) : db.Keeps db' :=
  fun _ hu => .inl (h ▸ hu)

/-- An erased account stays erased. -/
theorem AccountDb.Keeps.erased {db db' : AccountDb} (h : db.Keeps db') {id : UserId}
    (herased : ∃ u ∈ db.users, u.id = id ∧ u.isErased = true) : ∃ u ∈ db'.users, u.id = id ∧ u.isErased = true := by
  obtain ⟨u, hu, hid, he⟩ := herased
  rcases h u hu with hu' | hu'
  · exact ⟨u, hu', hid, he⟩
  · exact ⟨u.anonymised, hu', hid, by simp⟩

theorem AccountDb.createUser_users (db : AccountDb) (username hashedPassword : String) :
    (db.createUser username hashedPassword).2.nextUser = db.nextUser + 1 ∧
    ((db.createUser username hashedPassword).2.users = db.users ∨
      (∀ u ∈ db.users, u.username ≠ username) ∧
        (db.createUser username hashedPassword).2.users =
          db.users ++ [{ id := db.nextUser, username, hashedPassword }]) := by
  unfold AccountDb.createUser
  split
  · exact ⟨rfl, .inl rfl⟩
  · rename_i hfree
    refine ⟨rfl, .inr ⟨fun u hu heq => hfree ?_, rfl⟩⟩
    exact List.any_eq_true.2 ⟨u, hu, by simpa using heq⟩

theorem AccountDb.createUser_rest (db : AccountDb) (username hashedPassword : String) :
    (db.createUser username hashedPassword).2.tokens = db.tokens ∧
    (db.createUser username hashedPassword).2.buyers = db.buyers ∧
      (db.createUser username hashedPassword).2.nextRow = db.nextRow := by
  unfold AccountDb.createUser
  split <;> exact ⟨rfl, rfl, rfl⟩

theorem AccountDb.createBuyerInfo_users (db : AccountDb) (user : UserId) (realName : String)
    (pii : EncryptedPII) (hash : Bytes) (hashIndexFirst : Bool) :
    (db.createBuyerInfo user realName pii hash hashIndexFirst).2.users = db.users ∧
      (db.createBuyerInfo user realName pii hash hashIndexFirst).2.nextUser = db.nextUser := by
  unfold AccountDb.createBuyerInfo
  dsimp only
  split_ifs <;> exact ⟨rfl, rfl⟩

/-- What a refresh is answered. -/
theorem AccountDb.refresh_reply (cfg : AccountSettings) (db : AccountDb) (req : AuthRequest)
    (draw : TokenDraw) (clock : RefreshClock) :
    (db.refresh cfg req draw clock).1 = .unauthorized ∨ (db.refresh cfg req draw clock).1 = .failed ∨
      ∃ user family, (db.refresh cfg req draw clock).1 = .refreshed user family := by
  unfold AccountDb.refresh
  dsimp only
  split
  · exact .inl rfl
  · split
    · exact .inl rfl
    · exact .inl rfl
    · split
      · exact .inr (.inr ⟨_, _, rfl⟩)
      · exact .inr (.inl rfl)

/-- A refresh that gives new tokens has found a token of the session. -/
theorem AccountDb.refreshed_row {cfg : AccountSettings} (db : AccountDb) {req : AuthRequest}
    {draw : TokenDraw} {clock : RefreshClock}
    {user : UserId} {family : Uuid} (h : (db.refresh cfg req draw clock).1 = .refreshed user family) :
    ∃ r ∈ db.tokens.rows, r.user = user ∧ r.family = family := by
  unfold AccountDb.refresh at h
  dsimp only at h
  split at h
  · cases h
  · rename_i token htoken
    obtain ⟨plaintext, -, hfind⟩ := Option.bind_eq_some_iff.1 htoken
    split at h
    · cases h
    · cases h
    · split at h
      · obtain ⟨rfl, rfl⟩ := AccountReply.refreshed.inj h
        exact ⟨token, List.mem_of_find?_eq_some hfind, rfl, rfl⟩
      · cases h

/-- What `erase_user` commits. -/
theorem AccountDb.eraseUser_eq_some {db db' : AccountDb} {target : UserId} {tokens rows : List Nat}
    (h : db.eraseUser target tokens rows = some db') :
    (∀ u ∈ db.users, u.id ≠ target → u.username ≠ anonymisedUsername target) ∧
    (∀ r ∈ db.tokens.rows, r.id ∉ tokens → ∀ parent ∈ r.parent, parent ∉ tokens) ∧
    db' = { db with
      users := db.users.map fun u => if u.id = target then u.anonymised else u
      tokens := { db.tokens with rows := db.tokens.rows.filter fun r => r.id ∉ tokens }
      buyers := db.buyers.filter fun b => b.row ∉ rows } := by
  unfold AccountDb.eraseUser at h
  dsimp only at h
  split at h
  · cases h
  · rename_i hname
    split at h
    · cases h
    · rename_i hparent
      refine ⟨fun u hu hne heq => hname ?_, fun r hr hid parent hp hmem => hparent ?_, (Option.some.inj h).symm⟩
      · exact List.any_eq_true.2 ⟨u, hu, by simpa using ⟨hne, heq⟩⟩
      · refine List.any_eq_true.2 ⟨r, List.mem_filter.2 ⟨hr, by simpa using hid⟩, ?_⟩
        rw [Option.any_eq_true]
        exact ⟨parent, hp, by simpa using hmem⟩

namespace AccountDb.Named

variable {db db' : AccountDb}

theorem congr (h : db.Named) (husers : db'.users = db.users) (hnext : db'.nextUser = db.nextUser) : db'.Named where
  ids := husers ▸ h.ids
  fresh u hu := hnext ▸ h.fresh u (husers ▸ hu)
  names := husers ▸ h.names
  erased u hu := h.erased u (husers ▸ hu)

theorem createUser (h : db.Named) {username : String} (hname : ∀ id, username ≠ anonymisedUsername id)
    (hashedPassword : String) :
    (db.createUser username hashedPassword).2.Named ∧ db.Keeps (db.createUser username hashedPassword).2 ∧
      ∀ u ∈ (db.createUser username hashedPassword).2.users, u.isErased = true → u ∈ db.users := by
  obtain ⟨hnext, husers | ⟨hfree, husers⟩⟩ := db.createUser_users username hashedPassword
  · refine ⟨⟨husers ▸ h.ids, fun u hu => ?_, husers ▸ h.names, fun u hu => h.erased u (husers ▸ hu)⟩, .of_eq husers,
      fun u hu _ => husers ▸ hu⟩
    rw [hnext]
    exact Nat.lt_succ_of_lt (h.fresh u (husers ▸ hu))
  · have hmem : ∀ u, u ∈ (db.createUser username hashedPassword).2.users ↔
        u ∈ db.users ∨ u = { id := db.nextUser, username, hashedPassword } := by
      intro u
      rw [husers]
      simp
    have hnew : ({ id := db.nextUser, username, hashedPassword } : User).isErased = false := by
      simpa [User.isErased] using hname db.nextUser
    refine ⟨⟨?_, fun u hu => ?_, ?_, fun u hu id heq => ?_⟩, fun u hu => .inl ((hmem u).2 (.inl hu)),
      fun u hu he => ?_⟩
    · rw [husers, List.map_append, List.nodup_append]
      refine ⟨h.ids, by simp, fun a ha b hb => ?_⟩
      obtain ⟨u, hu, rfl⟩ := List.mem_map.1 ha
      obtain rfl : b = db.nextUser := by simpa using hb
      exact (h.fresh u hu).ne
    · rw [hnext]
      rcases (hmem u).1 hu with hu | rfl
      · exact Nat.lt_succ_of_lt (h.fresh u hu)
      · exact Nat.lt_succ_self _
    · rw [husers, List.map_append, List.nodup_append]
      refine ⟨h.names, by simp, fun a ha b hb => ?_⟩
      obtain ⟨u, hu, rfl⟩ := List.mem_map.1 ha
      obtain rfl : b = username := by simpa using hb
      exact hfree u hu
    · rcases (hmem u).1 hu with hu | rfl
      · exact h.erased u hu id heq
      · exact absurd heq (hname id)
    · refine ((hmem u).1 hu).resolve_right fun heq => ?_
      rw [heq, hnew] at he
      cases he

theorem eraseUser (h : db.Named) {target : UserId} {tokens rows : List Nat}
    (herase : db.eraseUser target tokens rows = some db') :
    db'.Named ∧ db.Keeps db' ∧ ∀ u ∈ db'.users, u.id = target ∧ u.isErased = true ∨ u ∈ db.users := by
  obtain ⟨hname, -, rfl⟩ := AccountDb.eraseUser_eq_some herase
  have hid : ∀ u : User, (if u.id = target then u.anonymised else u).id = u.id := by
    intro u
    split <;> rfl
  refine ⟨⟨?_, fun u hu => ?_, ?_, fun u hu id heq => ?_⟩, fun u hu => ?_, fun u hu => ?_⟩
  · have hids : (db.users.map fun u => (if u.id = target then u.anonymised else u).id) = db.users.map User.id :=
      List.map_congr_left fun u _ => hid u
    show ((db.users.map _).map User.id).Nodup
    rw [List.map_map]
    exact hids ▸ h.ids
  · obtain ⟨x, hx, rfl⟩ := List.mem_map.1 hu
    rw [hid]
    exact h.fresh x hx
  · -- two rows with one name have one id
    have hinj : ∀ x ∈ db.users, ∀ y ∈ db.users, (if x.id = target then x.anonymised else x).username =
        (if y.id = target then y.anonymised else y).username → x = y := by
      intro x hx y hy hxy
      have hids : x.id = y.id → x = y := List.inj_on_of_nodup_map h.ids hx hy
      by_cases hxt : x.id = target <;> by_cases hyt : y.id = target
      · exact hids (hxt.trans hyt.symm)
      · rw [if_pos hxt, if_neg hyt] at hxy
        have hsame : anonymisedUsername target = y.username := hxt ▸ hxy
        exact absurd hsame.symm (hname y hy hyt)
      · rw [if_neg hxt, if_pos hyt] at hxy
        have hsame : x.username = anonymisedUsername target := hyt ▸ hxy
        exact absurd hsame (hname x hx hxt)
      · rw [if_neg hxt, if_neg hyt] at hxy
        exact List.inj_on_of_nodup_map h.names hx hy hxy
    show ((db.users.map _).map User.username).Nodup
    rw [List.map_map]
    exact (List.Nodup.of_map _ h.ids).map_on hinj
  · obtain ⟨x, hx, rfl⟩ := List.mem_map.1 hu
    split
    · rfl
    · rename_i hne
      rw [if_neg hne] at heq
      exact h.erased x hx id heq
  · have hmem : (if u.id = target then u.anonymised else u) ∈ db.users.map fun u => if u.id = target
      then u.anonymised else u :=
      List.mem_map.2 ⟨u, hu, rfl⟩
    by_cases hut : u.id = target
    · rw [if_pos hut] at hmem
      exact .inr hmem
    · rw [if_neg hut] at hmem
      exact .inl hmem
  · obtain ⟨x, hx, rfl⟩ := List.mem_map.1 hu
    split
    · rename_i hxt
      exact .inl ⟨hxt, by simp⟩
    · exact .inr hx

end AccountDb.Named

/-! ### The calls -/

/-- What a request that is told so relies on. -/
def AccountReply.Ok (users : List User) (request : AccountRequest) (subject : Option UserId) : AccountReply → Prop
  | token id _ => subject = some id
  | buyerCreated _ =>
      ∃ sub realName nationalId, request = .createBuyerInfo sub realName nationalId ∧ subject = some sub
  | erased x => ∃ u ∈ users, u.id = x.id ∧ u.isErased = true
  | _ => True

/-- What a request relies on at the point it has reached. -/
def AccountPhase.Ok (users : List User) (request : AccountRequest) (subject : Option UserId) : AccountPhase → Prop
  | inserting username _ => ∀ id, username ≠ anonymisedUsername id
  | verifying user => ∀ u ∈ user, u.isActive = true → subject = some u.id
  | issuing user => subject = some user
  | checking | storing _ =>
      ∃ sub realName nationalId, request = .createBuyerInfo sub realName nationalId ∧ subject = some sub
  | answered (.erased x) => ∃ u ∈ users, u.id = x.id ∧ u.isErased = true
  | _ => True

structure AccountCall.Ok (users : List User) (c : AccountCall) : Prop where
  phase : c.phase.Ok users c.request c.subject
  outcome : ∀ r ∈ c.outcome, r.Ok users c.request c.subject
  undecided : c.phase.settled = false → c.outcome = none
  answering : ∀ r, c.phase = .answering r → c.outcome = some r

theorem AccountCall.Ok.at_phase {users : List User} {c : AccountCall} (h : c.Ok users) {phase : AccountPhase}
    (hp : c.phase = phase) :
    phase.Ok users c.request c.subject :=
  hp ▸ h.phase

theorem AccountReply.Ok.keep {db db' : AccountDb} {request : AccountRequest} {subject : Option UserId}
    {r : AccountReply}
    (h : r.Ok db.users request subject) (hkeeps : db.Keeps db') : r.Ok db'.users request subject := by
  cases r with
  | erased x => exact hkeeps.erased h
  | _ => exact h

theorem AccountPhase.Ok.keep {db db' : AccountDb} {request : AccountRequest} {subject : Option UserId}
    {phase : AccountPhase}
    (h : phase.Ok db.users request subject) (hkeeps : db.Keeps db') : phase.Ok db'.users request subject := by
  cases phase with
  | answered r =>
    cases r with
    | erased x => exact hkeeps.erased h
    | _ => trivial
  | _ => exact h

theorem AccountCall.Ok.keep {db db' : AccountDb} {c : AccountCall} (h : c.Ok db.users)
    (hkeeps : db.Keeps db') : c.Ok db'.users where
  phase := h.phase.keep hkeeps
  outcome r hr := (h.outcome r hr).keep hkeeps
  undecided := h.undecided
  answering := h.answering

/-- A request moves on and decides nothing. -/
theorem AccountCall.Ok.goto {users : List User} {c : AccountCall} (h : c.Ok users)
    (hp : c.phase.settled = false) {phase : AccountPhase}
    (hok : phase.Ok users c.request c.subject) (hanswering : ∀ r, phase ≠ .answering r) :
    (c.goto phase).Ok users where
  phase := hok
  outcome := h.outcome
  undecided _ := h.undecided hp
  answering r hr := absurd hr (hanswering r)

/-- The first read of a request finds it to be an account. -/
theorem AccountCall.Ok.actAs {users : List User} {c : AccountCall} (h : c.Ok users) (hp : c.phase = .arrived)
    (user : UserId)
    {phase : AccountPhase} (hok : phase.Ok users c.request (some user)) (hanswering : ∀ r, phase ≠ .answering r) :
    (c.actAs user phase).Ok users where
  phase := hok
  outcome r hr := by
    have hnone := h.undecided (by rw [hp]; rfl)
    rw [show c.outcome = some r from hr] at hnone
    cases hnone
  undecided _ := h.undecided (by rw [hp]; rfl)
  answering r hr := absurd hr (hanswering r)

/-- The transaction of a request is over. -/
theorem AccountCall.ok_close {users : List User} {c : AccountCall} {r : AccountReply}
    (hr : r.Ok users c.request c.subject) :
    (c.close r).Ok users where
  phase := trivial
  outcome r' hr' := Option.some.inj hr' ▸ hr
  undecided hp := by cases hp
  answering r' hp := congrArg some (AccountPhase.answering.inj hp)

theorem AccountCall.Ok.goes {db : AccountDb} {c c' : AccountCall} (h : c.Ok db.users) (hgo : c.Goes db c') :
    c'.Ok db.users := by
  cases hgo with
  | @refuse r hp herased =>
    refine h.goto hp ?_ (by simp)
    cases r with
    | erased x => exact absurd rfl (herased x)
    | _ => trivial
  | @answer r hp =>
    have hr := h.outcome r (h.answering r hp)
    refine ⟨?_, h.outcome, fun hp' => (by cases hp'), fun r' hr' => (by cases hr')⟩
    cases r with
    | erased x => exact hr
    | _ => trivial
  | ask hp hname hashedPassword => exact h.goto (by rw [hp]; rfl) (usernameOf_ne_anonymised hname) (by simp)
  | read hp hactive =>
    refine h.goto (by rw [hp]; rfl) (fun u hu hon => ?_) (by simp)
    rw [hactive u hu] at hon
    cases hon
  | readActive hp hrequest hu hactive =>
    refine h.actAs hp _ (fun u hu' _ => ?_) (by simp)
    rw [Option.some.inj hu']
  | act hp hu hactive hphase =>
    rcases hphase with rfl | rfl | ⟨rfl, name, id, hrequest⟩ | rfl | rfl
    · exact h.actAs hp _ trivial (by simp)
    · exact h.actAs hp _ trivial (by simp)
    · exact h.actAs hp _ ⟨_, name, id, hrequest, rfl⟩ (by simp)
    · exact h.actAs hp _ trivial (by simp)
    · exact h.actAs hp _ trivial (by simp)
  | verified hp hactive => exact h.goto (by rw [hp]; rfl) (h.at_phase hp _ rfl hactive) (by simp)
  | checked hp =>
    have hsub := h.at_phase hp
    exact h.goto (by rw [hp]; rfl) hsub (by simp)
  | isErased hp hu herased => exact h.goto (by rw [hp]; rfl) ⟨_, hu, rfl, herased⟩ (by simp)
  | found hp => exact h.goto (by rw [hp]; rfl) trivial (by simp)
  | deleteTokens hrequest hp => exact h.goto (by rw [hp]; rfl) trivial (by simp)
  | deleteBuyer hrequest hp => exact h.goto (by rw [hp]; rfl) trivial (by simp)
  | die => exact ⟨trivial, h.outcome, fun hp => (by cases hp), fun r hr => (by cases hr)⟩

/-- What a request was found to be and what it was decided stay as they are. -/
theorem AccountCall.Goes.outcome {db : AccountDb} {c c' : AccountCall} (hgo : c.Goes db c') :
    c'.outcome = c.outcome := by
  cases hgo <;> rfl

/-- What holds in every reachable state. -/
structure AccountWorld.Sound (w : AccountWorld) : Prop where
  named : w.db.Named
  calls : ∀ c ∈ w.calls, c.Ok w.db.users
  erased : ∀ u ∈ w.db.users, u.isErased = true → ∃ c ∈ w.calls, ∃ x, c.outcome = some (.erased x) ∧ x.id = u.id

/-- The transaction of a request that has decided is over. -/
theorem AccountWorld.Sound.settled_of_outcome {w : AccountWorld} (h : w.Sound) {c : AccountCall}
    (hc : c ∈ w.calls) {r : AccountReply} (hr : c.outcome = some r) : c.phase.settled = true := by
  by_contra hopen
  have hnone := (h.calls c hc).undecided (by simpa using hopen)
  rw [hr] at hnone
  cases hnone

/-- A request that was decided keeps its outcome when one goes on. -/
theorem AccountWorld.outcome_set {w : AccountWorld} {i : Nat} {c c' : AccountCall} (hc : w.calls[i]? = some c)
    (hout : ∀ r, c.outcome = some r → c'.outcome = some r) {d : AccountCall} (hd : d ∈ w.calls) {r : AccountReply}
    (hr : d.outcome = some r) : ∃ d' ∈ w.calls.set i c', d'.outcome = some r := by
  obtain ⟨j, hj⟩ := List.mem_iff_getElem?.1 hd
  by_cases hij : i = j
  · subst hij
    obtain rfl := Option.some.inj (hc.symm.trans hj)
    exact ⟨c', List.mem_set (List.getElem?_eq_some_iff.1 hc).1 c', hout r hr⟩
  · refine ⟨d, List.mem_of_getElem? (i := j) ?_, hr⟩
    rw [List.getElem?_set_ne hij]
    exact hj

namespace AccountWorld.Sound

variable {cfg : AccountSettings} {w w' : AccountWorld}

/-- A request goes on and commits. -/
private theorem set (h : w.Sound) {i : Nat} {c c' : AccountCall} {db : AccountDb} (hc : w.calls[i]? = some c)
    (hout : ∀ r, c.outcome = some r → c'.outcome = some r) (hnamed : db.Named) (hkeeps : w.db.Keeps db)
    (hok : c'.Ok db.users)
    (hnew : ∀ u ∈ db.users, u.isErased = true → u ∈ w.db.users ∨ ∃ x, c'.outcome = some (.erased x) ∧ x.id = u.id) :
    Sound { w.setCall i c' with db } where
  named := hnamed
  calls d hd := by
    rcases List.mem_or_eq_of_mem_set hd with hd | rfl
    · exact (h.calls d hd).keep hkeeps
    · exact hok
  erased u hu he := by
    rcases hnew u hu he with hold | ⟨x, hx, hid⟩
    · obtain ⟨d, hd, x, hx, hid⟩ := h.erased u hold he
      obtain ⟨d', hd', hx'⟩ := outcome_set hc hout hd hx
      exact ⟨d', hd', x, hx', hid⟩
    · exact ⟨c', List.mem_set (List.getElem?_eq_some_iff.1 hc).1 c', x, hx, hid⟩

/-- A request that has not decided anything yet ends its transaction. -/
private theorem commit (h : w.Sound) {i : Nat} {c : AccountCall} {out : AccountReply × AccountDb}
    (hc : w.calls[i]? = some c)
    (hopen : c.phase.settled = false) (hnamed : out.2.Named) (hkeeps : w.db.Keeps out.2)
    (hok : out.1.Ok out.2.users c.request c.subject)
    (hnew : ∀ u ∈ out.2.users, u.isErased = true → u ∈ w.db.users ∨ ∃ x, out.1 = .erased x ∧ x.id = u.id) :
    (w.commit i c out).Sound := by
  have hnone := (h.calls c (List.mem_of_getElem? hc)).undecided hopen
  refine h.set hc (fun r hr => ?_) hnamed hkeeps (AccountCall.ok_close hok) fun u hu he => ?_
  · rw [hnone] at hr
    cases hr
  · exact (hnew u hu he).imp_right fun ⟨x, hx, hid⟩ => ⟨x, congrArg some hx, hid⟩

/-- A step that leaves the users and the requests alone. -/
private theorem frame (h : w.Sound) {db : AccountDb} (husers : db.users = w.db.users)
    (hnext : db.nextUser = w.db.nextUser) :
    Sound { w with db } where
  named := h.named.congr husers hnext
  calls c hc := (h.calls c hc).keep (.of_eq husers)
  erased u hu := h.erased u (husers ▸ hu)

theorem step (h : w.Sound) {act : AccountAct} (hstep : w.step cfg act = some w') : w'.Sound := by
  cases AccountWorld.step_move hstep with
  | receive request =>
    refine ⟨h.named, fun c hc => ?_, fun u hu he => ?_⟩
    · rcases List.mem_append.1 hc with hc | hc
      · exact h.calls c hc
      · rw [List.mem_singleton.1 hc]
        exact ⟨trivial, by simp, fun _ => rfl, by simp⟩
    · obtain ⟨c, hc, hx⟩ := h.erased u hu he
      exact ⟨c, List.mem_append_left _ hc, hx⟩
  | go hc hopen hgo =>
    have hok := (h.calls _ (List.mem_of_getElem? hc)).goes hgo
    exact h.set hc (fun r hr => hgo.outcome.trans hr) h.named (.of_eq rfl) hok fun u hu _ => .inl hu
  | register hc hp =>
    obtain ⟨hnamed, hkeeps, hold⟩ := h.named.createUser ((h.calls _ (List.mem_of_getElem? hc)).at_phase hp) _
    refine h.commit hc (by rw [hp]; rfl) hnamed hkeeps ?_ fun u hu he => .inl (hold u hu he)
    unfold AccountDb.createUser
    split <;> trivial
  | issue hc hp hnew hissue =>
    have hok := (h.calls _ (List.mem_of_getElem? hc)).at_phase hp
    exact h.commit hc (by rw [hp]; rfl) (h.named.congr rfl rfl) (.of_eq rfl) hok fun u hu _ => .inl hu
  | revoke hc hp =>
    exact h.commit hc (by rw [hp]; rfl) (h.named.congr rfl rfl) (.of_eq rfl) trivial fun u hu _ => .inl hu
  | @store i draw c pii sub realName nationalId hc hp hrequest =>
    obtain ⟨husers, hnext⟩ := w.db.createBuyerInfo_users sub realName pii
      (cfg.lookupHash nationalId) draw.hashIndexFirst
    refine h.commit hc (by rw [hp]; rfl) (h.named.congr husers hnext) (.of_eq husers) ?_ fun u hu _ =>
      .inl (husers ▸ hu)
    have hok := (h.calls _ (List.mem_of_getElem? hc)).at_phase hp
    unfold AccountDb.createBuyerInfo
    dsimp only
    split_ifs
    · trivial
    · trivial
    · trivial
    · exact hok
  | @erase i draw c sub target tokens rows db u hc hp hrequest hu herase =>
    obtain ⟨hnamed, hkeeps, hnew⟩ := h.named.eraseUser herase
    obtain ⟨hmem, hid⟩ := AccountDb.getUserById_eq_some hu
    refine h.commit hc (by rw [hp]; rfl) hnamed hkeeps ?_ fun x hx he => ?_
    · rcases hkeeps u hmem with hkept | herased
      · refine ⟨u, hkept, rfl, ?_⟩
        obtain ⟨-, -, rfl⟩ := AccountDb.eraseUser_eq_some herase
        obtain ⟨x, hx, hxu⟩ := List.mem_map.1 hkept
        split at hxu
        · rw [← hxu]
          simp
        · rename_i hne
          exact absurd (hxu ▸ hid) hne
      · exact ⟨u.anonymised, herased, rfl, by simp⟩
    · rcases hnew x hx with ⟨hxt, -⟩ | hold
      · exact .inr ⟨u.anonymised, rfl, hid.trans hxt.symm⟩
      · exact .inl hold
  | @refresh i draw c req hc hp hrequest =>
    refine h.commit hc (by rw [hp]; rfl) (h.named.congr rfl rfl) (.of_eq rfl) ?_ fun u hu _ => .inl hu
    have hreply := w.db.refresh_reply cfg req draw.token draw.clock
    rcases hreply with hreply | hreply | ⟨user, family, hreply⟩ <;> rw [hreply] <;> trivial
  | logout req now => exact h.frame rfl rfl
  | purge now => exact h.frame rfl rfl
  | rewrap row nonce => exact h.frame rfl rfl

end AccountWorld.Sound

/-! ### Nobody is let in -/

/-- A fresh database with the accounts it was seeded with. -/
structure AccountWorld.Start (w : AccountWorld) : Prop where
  calls : w.calls = []
  tokens : w.db.tokens = {}
  buyers : w.db.buyers = []
  ids : (w.db.users.map User.id).Nodup
  fresh : ∀ u ∈ w.db.users, u.id < w.db.nextUser
  names : (w.db.users.map User.username).Nodup
  unerased : ∀ u ∈ w.db.users, ∀ id, u.username ≠ anonymisedUsername id

theorem AccountWorld.Sound.start {w : AccountWorld} (h : w.Start) : w.Sound where
  named := ⟨h.ids, h.fresh, h.names, fun u hu id heq => absurd heq (h.unerased u hu id)⟩
  calls c hc := by
    rw [h.calls] at hc
    cases hc
  erased u hu he := absurd (by simpa [User.isErased] using he) (h.unerased u hu u.id)

theorem AccountWorld.Sound.exec {cfg : AccountSettings} {w w' : AccountWorld} {acts : List AccountAct} (h : w.Sound)
    (hrun : Exec.exec (AccountWorld.step cfg) w acts = some w') : w'.Sound :=
  exec_invariant (C := fun _ _ => True) (fun _ _ _ _ hstep hs => hs.step hstep) h
    (.of_forall fun _ _ _ => trivial) hrun

/-- The account is erased, and whoever was found to be it now was found to be it then. -/
structure AccountWorld.Barred (calls : List AccountCall) (id : UserId) (w : AccountWorld) : Prop where
  sound : w.Sound
  erased : ∃ u ∈ w.db.users, u.id = id ∧ u.isErased = true
  subjects : ∀ (i : Nat) (c : AccountCall), w.calls[i]? = some c → c.subject = some id →
    ∃ c₀, calls[i]? = some c₀ ∧ c₀.subject = some id

namespace AccountWorld.Barred

variable {cfg : AccountSettings} {calls : List AccountCall} {id : UserId} {w w' : AccountWorld}

/-- No active row has the id. -/
private theorem ne_of_active (h : w.Barred calls id) {u : User} (hu : u ∈ w.db.users)
    (hactive : u.isActive = true) : u.id ≠ id := by
  intro hid
  obtain ⟨x, hx, hxid, he⟩ := h.erased
  have hsame : u = x := List.inj_on_of_nodup_map h.sound.named.ids hu hx (hid.trans hxid.symm)
  rw [hsame, h.sound.named.inactive hx he] at hactive
  cases hactive

private theorem goes (h : w.Barred calls id) {c c' : AccountCall} (hgo : c.Goes w.db c')
    (hsub : c'.subject = some id) :
    c.subject = some id := by
  cases hgo with
  | readActive hp hrequest hu hactive => exact absurd (Option.some.inj hsub) (h.ne_of_active hu hactive)
  | act hp hu hactive hphase => exact absurd (Option.some.inj hsub) (h.ne_of_active hu hactive)
  | _ => exact hsub

/-- A request goes on without becoming the account. -/
private theorem set (h : w.Barred calls id) {i : Nat} {c c' : AccountCall} (hc : w.calls[i]? = some c)
    (hsub : c'.subject = some id → c.subject = some id) {j : Nat} {d : AccountCall}
    (hd : (w.calls.set i c')[j]? = some d)
    (hds : d.subject = some id) : ∃ c₀, calls[j]? = some c₀ ∧ c₀.subject = some id := by
  by_cases hij : i = j
  · subst hij
    rw [List.getElem?_set_self (List.getElem?_eq_some_iff.1 hc).1] at hd
    obtain rfl := Option.some.inj hd
    exact h.subjects i c hc (hsub hds)
  · rw [List.getElem?_set_ne hij] at hd
    exact h.subjects j d hd hds

private theorem commit (h : w.Barred calls id) {i : Nat} {c : AccountCall} {out : AccountReply × AccountDb}
    (hc : w.calls[i]? = some c)
    {j : Nat} {d : AccountCall} (hd : (w.commit i c out).calls[j]? = some d) (hds : d.subject = some id) :
    ∃ c₀, calls[j]? = some c₀ ∧ c₀.subject = some id := by
  have hsub : (c.close out.1).subject = some id → c.subject = some id := fun hsub => hsub
  exact h.set hc hsub hd hds

theorem step (h : w.Barred calls id) {act : AccountAct} (hstep : w.step cfg act = some w') : w'.Barred calls id := by
  have hsound := h.sound.step hstep
  cases AccountWorld.step_move hstep with
  | receive request =>
    refine ⟨hsound, h.erased, fun i c hc hsub => ?_⟩
    by_cases hlt : i < w.calls.length
    · rw [List.getElem?_append_left hlt] at hc
      exact h.subjects i c hc hsub
    · rw [List.getElem?_append_right (by omega)] at hc
      have hmem : c ∈ [({ request } : AccountCall)] := List.mem_of_getElem? hc
      rw [List.mem_singleton.1 hmem] at hsub
      cases hsub
  | go hc hopen hgo => exact ⟨hsound, h.erased, fun j d hd hds => h.set hc (h.goes hgo) hd hds⟩
  | register hc hp =>
    obtain ⟨-, hkeeps, -⟩ := h.sound.named.createUser ((h.sound.calls _ (List.mem_of_getElem? hc)).at_phase hp) _
    exact ⟨hsound, hkeeps.erased h.erased, fun j d hd hds => h.commit hc hd hds⟩
  | issue hc hp hnew hissue => exact ⟨hsound, h.erased, fun j d hd hds => h.commit hc hd hds⟩
  | revoke hc hp => exact ⟨hsound, h.erased, fun j d hd hds => h.commit hc hd hds⟩
  | store hc hp hrequest =>
    exact ⟨hsound, (AccountDb.Keeps.of_eq (AccountDb.createBuyerInfo_users ..).1).erased h.erased,
      fun j d hd hds => h.commit hc hd hds⟩
  | erase hc hp hrequest hu herase =>
    obtain ⟨-, hkeeps, -⟩ := h.sound.named.eraseUser herase
    exact ⟨hsound, hkeeps.erased h.erased, fun j d hd hds => h.commit hc hd hds⟩
  | refresh hc hp hrequest => exact ⟨hsound, h.erased, fun j d hd hds => h.commit hc hd hds⟩
  | logout req now => exact ⟨hsound, h.erased, h.subjects⟩
  | purge now => exact ⟨hsound, h.erased, h.subjects⟩
  | rewrap row nonce => exact ⟨hsound, h.erased, h.subjects⟩

end AccountWorld.Barred

/-- The world of an erasure that has committed, and every later one. -/
theorem AccountWorld.Sound.barred {cfg : AccountSettings} {w w' : AccountWorld} {acts : List AccountAct} (h : w.Sound)
    {c : AccountCall} (hc : c ∈ w.calls) {x : User}
    (hx : c.outcome = some (.erased x) ∨ c.phase = .answered (.erased x))
    (hrun : Exec.exec (AccountWorld.step cfg) w acts = some w') : w'.Barred w.calls x.id := by
  have herased : ∃ u ∈ w.db.users, u.id = x.id ∧ u.isErased = true :=
    hx.elim (fun hout => (h.calls c hc).outcome _ hout) fun hp => (h.calls c hc).at_phase hp
  have hbarred : w.Barred w.calls x.id := ⟨h, herased, fun i c hc hsub => ⟨c, hc, hsub⟩⟩
  exact exec_invariant (C := fun _ _ => True) (fun _ _ _ _ hstep hb => hb.step hstep) hbarred
    (.of_forall fun _ _ _ => trivial) hrun

/-- A session of the erased user was begun by a request that had been let in before. -/
theorem AccountWorld.Barred.session {calls : List AccountCall} {id : UserId} {w : AccountWorld}
    (h : w.Barred calls id)
    {d : AccountCall} (hd : d ∈ w.calls) {family : Uuid} (hr : d.outcome = some (.token id family)) :
    ∃ (j : Nat) (d₀ : AccountCall), w.calls[j]? = some d ∧ calls[j]? = some d₀ ∧ d₀.subject = some id := by
  have hsub : d.subject = some id := (h.sound.calls d hd).outcome _ hr
  obtain ⟨j, hj⟩ := List.mem_iff_getElem?.1 hd
  obtain ⟨d₀, hd₀, hsub₀⟩ := h.subjects j d hj hsub
  exact ⟨j, d₀, hj, hd₀, hsub₀⟩

/-! ### A sample -/

/-- Settings under which the text of a password follows the name of the scheme in its hash. -/
def AccountSettings.sampled : AccountSettings where
  refresh := .defaults id
  aes := .sampled
  lib := .sampled
  pii := firstSettings
  lookupHash := encodeUtf8
  verifyPassword password hashed := some (hashed = "$argon2id$" ++ password)

def AccountDraw.sampled : AccountDraw where
  token := ⟨70, "a"⟩
  now := 0
  clock := ⟨0, 0, 0, 0⟩
  hashedPassword := ""
  dek := ⟨(List.range 32).map UInt8.ofNat, rfl⟩
  nonce := ⟨List.replicate 12 1, rfl⟩
  nonce' := ⟨List.replicate 12 2, rfl⟩
  hashIndexFirst := false

/-- An administrator and a user. -/
def seededAccounts : AccountWorld where
  db := {
    users := [⟨1, "boss", "$argon2id$secret123", true, true⟩, ⟨2, "alice", "$argon2id$secret123", true, false⟩]
    nextUser := 3 }

theorem seededAccounts_start : seededAccounts.Start where
  calls := rfl
  tokens := rfl
  buyers := rfl
  ids := by decide
  fresh := by decide
  names := by decide
  unerased := by
    intro u hu id heq
    simp only [seededAccounts, List.mem_cons, List.not_mem_nil, or_false] at hu
    have hchars := congrArg String.toList heq
    rcases hu with rfl | rfl <;> simp [anonymisedUsername] at hchars

/-! ### Where rows come from -/

/-- The two rows are versions of one token. -/
def RefreshToken.SameToken (r r' : RefreshToken) : Prop :=
  r'.id = r.id ∧ r'.family = r.family ∧ r'.parent = r.parent ∧ r'.user = r.user

/-- The row is a child of a token. -/
def RefreshToken.ChildOf (r q : RefreshToken) : Prop := r.parent = some q.id ∧ r.family = q.family ∧ r.user = q.user

/-- Ids are not used twice, and a parent is an older token of the family and the user. -/
structure TokenTable.Chained (t : TokenTable) : Prop where
  nodup : (t.rows.map RefreshToken.id).Nodup
  fresh : ∀ r ∈ t.rows, r.id < t.nextId
  parent : ∀ r ∈ t.rows, ∀ id ∈ r.parent, ∃ q ∈ t.rows, q.id = id ∧ r.ChildOf q ∧ q.id < r.id

/-- Every row of the later table is a version or a child of one of the earlier. -/
structure TokenTable.Stems (t t' : TokenTable) : Prop where
  rows : ∀ r' ∈ t'.rows, ∃ r ∈ t.rows, r.SameToken r' ∨ r'.ChildOf r
  families : t.families ⊆ t'.families

namespace TokenTable

variable {cfg : RefreshSettings} {t t' : TokenTable}

theorem Stems.refl (t : TokenTable) : t.Stems t :=
  ⟨fun r hr => ⟨r, hr, .inl ⟨rfl, rfl, rfl, rfl⟩⟩, List.Subset.refl _⟩

/-- A family has a root. -/
theorem Chained.root (h : t.Chained) {r : RefreshToken} (hr : r ∈ t.rows) :
    ∃ q ∈ t.rows, q.parent = none ∧ q.family = r.family ∧ q.user = r.user := by
  induction hid : r.id using Nat.strongRecOn generalizing r with
  | ind n ih =>
    cases hparent : r.parent with
    | none => exact ⟨r, hr, hparent, rfl, rfl⟩
    | some id =>
      obtain ⟨q, hq, -, hchild, hlt⟩ := h.parent r hr id hparent
      obtain ⟨root, hroot, hnone, hfamily, huser⟩ := ih q.id (hid ▸ hlt) hq rfl
      exact ⟨root, hroot, hnone, hfamily.trans hchild.2.1.symm, huser.trans hchild.2.2.symm⟩

/-- An update of other columns. -/
theorem Chained.map (h : t.Chained) {f : RefreshToken → RefreshToken} (hf : ∀ r : RefreshToken, r.SameToken (f r)) :
    Chained { t with rows := t.rows.map f } ∧ t.Stems { t with rows := t.rows.map f } := by
  have hid : (t.rows.map fun r => (f r).id) = t.rows.map RefreshToken.id := List.map_congr_left fun r _ => (hf r).1
  refine ⟨⟨?_, fun r hr => ?_, fun r hr id hparent => ?_⟩, ⟨fun r hr => ?_, List.Subset.refl _⟩⟩
  · show ((t.rows.map f).map RefreshToken.id).Nodup
    rw [List.map_map]
    exact hid ▸ h.nodup
  · obtain ⟨x, hx, rfl⟩ := List.mem_map.1 hr
    rw [(hf x).1]
    exact h.fresh x hx
  · obtain ⟨x, hx, rfl⟩ := List.mem_map.1 hr
    obtain ⟨hxid, hxf, hxp, hxu⟩ := hf x
    rw [hxp] at hparent
    obtain ⟨q, hq, hqid, ⟨hcp, hcf, hcu⟩, hlt⟩ := h.parent x hx id hparent
    obtain ⟨hqid', hqf, -, hqu⟩ := hf q
    refine ⟨f q, List.mem_map.2 ⟨q, hq, rfl⟩, hqid'.trans hqid, ⟨?_, ?_, ?_⟩, ?_⟩
    · rw [hxp, hcp, hqid']
    · rw [hxf, hcf, hqf]
    · rw [hxu, hcu, hqu]
    · rw [hqid', hxid]
      exact hlt
  · obtain ⟨x, hx, rfl⟩ := List.mem_map.1 hr
    exact ⟨x, hx, .inl (hf x)⟩

/-- A deletion that leaves no reference behind. -/
theorem Chained.filter (h : t.Chained) {p : RefreshToken → Bool}
    (hp : ∀ r ∈ t.rows, p r = true → ∀ id ∈ r.parent, ∀ q ∈ t.rows, q.id = id → p q = true) :
    Chained { t with rows := t.rows.filter p } ∧ t.Stems { t with rows := t.rows.filter p } := by
  refine ⟨⟨h.nodup.sublist (List.filter_sublist.map _), fun r hr => h.fresh r (List.mem_filter.1 hr).1,
    fun r hr id hparent => ?_⟩,
    ⟨fun r hr => ⟨r, (List.mem_filter.1 hr).1, .inl ⟨rfl, rfl, rfl, rfl⟩⟩, List.Subset.refl _⟩⟩
  obtain ⟨hmem, hpr⟩ := List.mem_filter.1 hr
  obtain ⟨q, hq, hqid, hchild, hlt⟩ := h.parent r hmem id hparent
  exact ⟨q, List.mem_filter.2 ⟨hq, hp r hmem hpr id hparent q hq hqid⟩, hqid, hchild, hlt⟩

/-- A new row, with its parent if it has one. -/
theorem Chained.issue (h : t.Chained) {user : UserId} {parent : Option RefreshToken} {draw : TokenDraw}
    {client : ClientInfo}
    {now : Instant} (hissue : t.issueRefreshToken cfg user parent draw client now = some t')
    (hparent : ∀ token ∈ parent, ∃ q ∈ t.rows, q.id = token.id ∧ q.family = token.family ∧ q.user = user) :
    t'.Chained := by
  simp only [TokenTable.issueRefreshToken] at hissue
  split at hissue
  · cases hissue
  · obtain rfl := Option.some.inj hissue
    refine ⟨?_, fun r hr => ?_, fun r hr id hid => ?_⟩
    · show ((t.rows ++ [_]).map RefreshToken.id).Nodup
      rw [List.map_append, List.nodup_append]
      refine ⟨h.nodup, by simp, fun a ha b hb => ?_⟩
      obtain ⟨r, hr, rfl⟩ := List.mem_map.1 ha
      obtain rfl : b = t.nextId := by simpa [newRefreshToken] using hb
      exact (h.fresh r hr).ne
    · rcases List.mem_append.1 hr with hr | hr
      · exact Nat.lt_succ_of_lt (h.fresh r hr)
      · rw [List.mem_singleton.1 hr]
        exact Nat.lt_succ_self _
    · rcases List.mem_append.1 hr with hr | hr
      · obtain ⟨q, hq, hrest⟩ := h.parent r hr id hid
        exact ⟨q, List.mem_append_left _ hq, hrest⟩
      · obtain rfl := List.mem_singleton.1 hr
        cases parent with
        | none => cases hid
        | some token =>
          obtain rfl : token.id = id := by simpa [newRefreshToken] using hid
          obtain ⟨q, hq, hqid, hqf, hqu⟩ := hparent token rfl
          refine ⟨q, List.mem_append_left _ hq, hqid, ⟨?_, hqf.symm, hqu.symm⟩, h.fresh q hq⟩
          exact congrArg some hqid.symm

/-- The rows after a token was issued. -/
theorem mem_of_issue {user : UserId} {parent : Option RefreshToken} {draw : TokenDraw} {client : ClientInfo}
    {now : Instant} (hissue : t.issueRefreshToken cfg user parent draw client now = some t') :
    (∀ r, r ∈ t'.rows ↔ r ∈ t.rows ∨ r = newRefreshToken cfg t.nextId user parent draw client now) ∧
      t.families ⊆ t'.families ∧ parent.elim draw.family RefreshToken.family ∈ t'.families := by
  simp only [TokenTable.issueRefreshToken] at hissue
  split at hissue
  · cases hissue
  · obtain rfl := Option.some.inj hissue
    exact ⟨fun r => by simp, List.subset_cons_self _ _, List.mem_cons_self ..⟩

theorem Chained.markTokenUsed (h : t.Chained) (id : Nat) (now : Instant) :
    (t.markTokenUsed id now).Chained ∧ t.Stems (t.markTokenUsed id now) :=
  h.map fun r => by split <;> exact ⟨rfl, rfl, rfl, rfl⟩

theorem Chained.revokeWhere (h : t.Chained) (p : RefreshToken → Bool) (now : Instant) :
    (t.revokeWhere p now).Chained ∧ t.Stems (t.revokeWhere p now) :=
  h.map fun r => by split <;> exact ⟨rfl, rfl, rfl, rfl⟩

theorem Chained.logout (h : t.Chained) (req : AuthRequest) (now : Instant) :
    (t.logout cfg req now).Chained ∧ t.Stems (t.logout cfg req now) := by
  unfold TokenTable.logout
  split
  · exact ⟨h, .refl t⟩
  · exact h.revokeWhere _ now

theorem Chained.refresh (h : t.Chained) (req : AuthRequest) (draw : TokenDraw) (clock : RefreshClock) :
    (t.refreshAccessToken cfg req draw clock).Chained ∧ t.Stems (t.refreshAccessToken cfg req draw clock) := by
  unfold TokenTable.refreshAccessToken
  split
  · exact ⟨h, .refl t⟩
  · rename_i token htoken
    obtain ⟨plaintext, -, hfind⟩ := Option.bind_eq_some_iff.1 htoken
    have hmem : token ∈ t.rows := List.mem_of_find?_eq_some hfind
    split
    · exact ⟨h, .refl t⟩
    · exact h.revokeWhere _ clock.revokedAt
    · obtain ⟨hchained, hstems⟩ := h.markTokenUsed token.id clock.usedAt
      cases hissue : (t.markTokenUsed token.id clock.usedAt).issueRefreshToken cfg token.user
        (some token) draw req.client
          clock.issuedAt with
      | none => exact ⟨h, .refl t⟩
      | some t' =>
        have hrow : ∃ q ∈ (t.markTokenUsed token.id clock.usedAt).rows, q.id = token.id ∧ q.family = token.family ∧
            q.user = token.user := by
          refine ⟨_, List.mem_map.2 ⟨token, hmem, rfl⟩, ?_⟩
          split <;> exact ⟨rfl, rfl, rfl⟩
        obtain ⟨hrows, hfamilies, -⟩ := mem_of_issue hissue
        refine ⟨hchained.issue hissue fun token' htoken' => Option.some.inj htoken' ▸ hrow, fun r hr => ?_,
          List.Subset.trans hstems.families hfamilies⟩
        rcases (hrows r).1 hr with hold | rfl
        · exact hstems.rows r hold
        · exact ⟨token, hmem, .inr ⟨rfl, rfl, rfl⟩⟩

theorem Chained.purge (h : t.Chained) (now : Instant) :
    ((t.purgeExpired now).elim t Prod.snd).Chained ∧ t.Stems ((t.purgeExpired now).elim t Prod.snd) := by
  unfold TokenTable.purgeExpired
  dsimp only
  split
  · rename_i hkept
    refine h.filter fun r hr hpr id hid q hq hqid => ?_
    have hany := List.all_eq_true.1 hkept r (List.mem_filter.2 ⟨hr, hpr⟩)
    rw [Option.mem_def.1 hid, Option.all_some, List.any_eq_true] at hany
    obtain ⟨q', hq', hqid'⟩ := hany
    have hid' : q'.id = id := by simpa using hqid'
    have hsame : q = q' := List.inj_on_of_nodup_map h.nodup hq (List.mem_filter.1 hq').1 (hqid.trans hid'.symm)
    rw [hsame]
    exact (List.mem_filter.1 hq').2
  · exact ⟨h, .refl t⟩

/-- The `DELETE` of an erasure. -/
theorem Chained.erase (h : t.Chained) {tokens : List Nat}
    (hkept : ∀ r ∈ t.rows, r.id ∉ tokens → ∀ parent ∈ r.parent, parent ∉ tokens) :
    Chained { t with rows := t.rows.filter fun r => r.id ∉ tokens } ∧
    t.Stems { t with rows := t.rows.filter fun r => r.id ∉ tokens } :=
  h.filter fun r hr hid parent hparent q _ hqid => by
    have hstay := hkept r hr (by simpa using hid) parent hparent
    simpa [hqid] using hstay

end TokenTable

/-- What a request was told is in use. -/
def AccountReply.Dated (db : AccountDb) : AccountReply → Prop
  | token _ family => family ∈ db.tokens.families
  | buyerCreated row => row < db.nextRow
  | _ => True

/-- A request whose transaction is over only gets its answer still. -/
structure AccountCall.Rests (c c' : AccountCall) : Prop where
  settled : c'.phase.settled = true
  outcome : c'.outcome = c.outcome
  subject : c'.subject = c.subject

theorem AccountCall.Rests.trans {c c' c'' : AccountCall} (h : c.Rests c') (h' : c'.Rests c'') : c.Rests c'' :=
  ⟨h'.settled, h'.outcome.trans h.outcome, h'.subject.trans h.subject⟩

theorem AccountCall.Goes.rests {db : AccountDb} {c c' : AccountCall} (hgo : c.Goes db c')
    (hsettled : c.phase.settled = true) :
    c.Rests c' := by
  cases hgo with
  | refuse hp =>
    rw [hp] at hsettled
    cases hsettled
  | answer hp => exact ⟨rfl, rfl, rfl⟩
  | die => exact ⟨rfl, rfl, rfl⟩
  | ask hp | read hp | readActive hp | act hp | verified hp | checked hp | isErased hp | found hp | deleteTokens _ hp
  | deleteBuyer _ hp =>
    rw [hp] at hsettled
    cases hsettled

/-- What a step keeps of the sessions and the personal data, and where the new ones come from. -/
structure AccountWorld.Evolves (w w' : AccountWorld) : Prop where
  tokens : ∀ r' ∈ w'.db.tokens.rows, (∃ r ∈ w.db.tokens.rows, r.SameToken r' ∨ r'.ChildOf r) ∨
    r'.family ∉ w.db.tokens.families ∧ ∃ d ∈ w'.calls, d.outcome = some (.token r'.user r'.family)
  families : w.db.tokens.families ⊆ w'.db.tokens.families
  buyers : ∀ b' ∈ w'.db.buyers,
    (∃ b ∈ w.db.buyers, b.row = b'.row ∧ b.user = b'.user ∧ b.lookupHash = b'.lookupHash) ∨
    b'.row = w.db.nextRow ∧ ∃ d ∈ w'.calls, d.outcome = some (.buyerCreated b'.row) ∧ d.subject = some b'.user
  nextRow : w.db.nextRow ≤ w'.db.nextRow
  fresh : (∀ b ∈ w.db.buyers, b.row < w.db.nextRow) → ∀ b' ∈ w'.db.buyers, b'.row < w'.db.nextRow
  settled : ∀ (j : Nat) (d : AccountCall), w.calls[j]? = some d → d.phase.settled = true →
    ∃ d', w'.calls[j]? = some d' ∧ d.Rests d'
  dated : ∀ d' ∈ w'.calls, ∀ r ∈ d'.outcome, (∃ d ∈ w.calls, d.outcome = some r) ∨ r.Dated w'.db
  refreshed : ∀ d' ∈ w'.calls, ∀ user family, d'.outcome = some (.refreshed user family) →
    (∃ d ∈ w.calls, d.outcome = some (.refreshed user family)) ∨ ∃ r ∈ w.db.tokens.rows, r.user = user ∧
    r.family = family

/-- What `create_buyer_info` does. -/
theorem AccountDb.createBuyerInfo_cases (db : AccountDb) (user : UserId) (realName : String)
    (pii : EncryptedPII) (hash : Bytes) (hashIndexFirst : Bool) :
    ((∀ b ∈ db.buyers, b.user ≠ user) ∧ (∀ b ∈ db.buyers, b.lookupHash ≠ hash) ∧
      db.createBuyerInfo user realName pii hash hashIndexFirst = (.buyerCreated db.nextRow,
        { db with
          buyers := db.buyers ++ [{ row := db.nextRow, user, realName, pii, lookupHash := hash }], nextRow :=
            db.nextRow + 1 })) ∨
    ((db.createBuyerInfo user realName pii hash hashIndexFirst).2 = db ∧
      ((∃ b ∈ db.buyers, b.user = user) ∧
        (db.createBuyerInfo user realName pii hash hashIndexFirst).1 = .buyerExists ∨
        (∃ b ∈ db.buyers, b.lookupHash = hash) ∧
          (db.createBuyerInfo user realName pii hash hashIndexFirst).1 = .nationalIdTaken ∨
        (db.createBuyerInfo user realName pii hash hashIndexFirst).1 = .failed)) := by
  unfold AccountDb.createBuyerInfo
  dsimp only
  split
  · exact .inr ⟨rfl, .inr (.inr rfl)⟩
  · split
    · rename_i htaken
      have hex : ∃ b ∈ db.buyers, b.lookupHash = hash := by simpa using htaken.1
      exact .inr ⟨rfl, .inr (.inl ⟨hex, rfl⟩)⟩
    · rename_i htaken
      split
      · rename_i hown
        have hex : ∃ b ∈ db.buyers, b.user = user := by simpa using hown
        exact .inr ⟨rfl, .inl ⟨hex, rfl⟩⟩
      · rename_i hown
        have hfree : ∀ b ∈ db.buyers, b.user ≠ user := by simpa using hown
        refine .inl ⟨hfree, fun b hb heq => htaken ⟨?_, fun hown' => absurd hown' hown⟩, rfl⟩
        exact List.any_eq_true.2 ⟨b, hb, by simpa using heq⟩

namespace AccountWorld

variable {cfg : AccountSettings} {w w' : AccountWorld}

/-- A request that is over keeps what it was told when one goes on. -/
private theorem rests_set {i : Nat} {c c' : AccountCall} (hc : w.calls[i]? = some c)
    (hrests : c.phase.settled = true → c.Rests c')
    (j : Nat) (d : AccountCall) (hd : w.calls[j]? = some d) (hsettled : d.phase.settled = true) :
    ∃ d', (w.calls.set i c')[j]? = some d' ∧ d.Rests d' := by
  by_cases hij : i = j
  · subst hij
    obtain rfl : c = d := Option.some.inj (hc.symm.trans hd)
    exact ⟨c', List.getElem?_set_self (List.getElem?_eq_some_iff.1 hc).1, hrests hsettled⟩
  · refine ⟨d, ?_, hsettled, rfl, rfl⟩
    rw [List.getElem?_set_ne hij]
    exact hd

private theorem rests_commit {i : Nat} {c : AccountCall} (hc : w.calls[i]? = some c) (hopen : c.phase.settled = false)
    (r : AccountReply) : ∀ (j : Nat) (d : AccountCall), w.calls[j]? = some d → d.phase.settled = true →
      ∃ d', (w.calls.set i (c.close r))[j]? = some d' ∧ d.Rests d' :=
  rests_set hc fun hsettled => by
    rw [hopen] at hsettled
    cases hsettled

/-- What is decided after a commit was decided before or is its own reply. -/
private theorem outcome_commit {i : Nat} {c d' : AccountCall} {r r' : AccountReply}
    (hd : d' ∈ w.calls.set i (c.close r))
    (hr : d'.outcome = some r') : (∃ d ∈ w.calls, d.outcome = some r') ∨ r' = r := by
  rcases List.mem_or_eq_of_mem_set hd with hold | rfl
  · exact .inl ⟨d', hold, hr⟩
  · exact .inr (Option.some.inj hr).symm

/-- A step that changes the tokens at most and decides nothing. -/
private theorem Evolves.of_stems {db : AccountDb} {calls : List AccountCall} (hstems : w.db.tokens.Stems db.tokens)
    (hbuyers : db.buyers = w.db.buyers) (hnext : db.nextRow = w.db.nextRow)
    (hsettled : ∀ (j : Nat) (d : AccountCall), w.calls[j]? = some d → d.phase.settled = true →
      ∃ d', calls[j]? = some d' ∧ d.Rests d')
    (hdecided : ∀ d' ∈ calls, ∀ r, d'.outcome = some r → (∃ d ∈ w.calls, d.outcome = some r) ∨
      r.Dated db ∧ ∀ user family, r = .refreshed user family → ∃ q ∈ w.db.tokens.rows, q.user = user ∧
      q.family = family) :
    w.Evolves { db, calls } where
  tokens r hr := .inl (hstems.rows r hr)
  families := hstems.families
  buyers b hb := .inl ⟨b, hbuyers ▸ hb, rfl, rfl, rfl⟩
  nextRow := hnext.ge
  fresh h b hb := by
    show b.row < db.nextRow
    rw [hnext]
    exact h b (hbuyers ▸ hb)
  settled := hsettled
  dated d' hd' r hr := (hdecided d' hd' r hr).imp_right And.left
  refreshed d' hd' user family hr := (hdecided d' hd' _ hr).imp_right fun h => h.2 user family rfl

/-- A commit that changes the tokens at most. -/
private theorem Evolves.of_commit {i : Nat} {c : AccountCall} {out : AccountReply × AccountDb}
    (hc : w.calls[i]? = some c)
    (hopen : c.phase.settled = false) (hstems : w.db.tokens.Stems out.2.tokens) (hbuyers : out.2.buyers = w.db.buyers)
    (hnext : out.2.nextRow = w.db.nextRow) (hdated : out.1.Dated out.2)
    (hrefreshed : ∀ user family, out.1 = .refreshed user family → ∃ q ∈ w.db.tokens.rows, q.user = user ∧
      q.family = family) :
    w.Evolves (w.commit i c out) :=
  .of_stems hstems hbuyers hnext (rests_commit hc hopen out.1) fun d' hd' r hr => by
    rcases outcome_commit hd' hr with hold | rfl
    · exact .inl hold
    · exact .inr ⟨hdated, hrefreshed⟩

theorem evolves_step (h : w.Sound) (ht : w.db.tokens.Chained) {act : AccountAct} (hstep : w.step cfg act = some w') :
    w.Evolves w' ∧ w'.db.tokens.Chained := by
  have hsame : ∀ d' ∈ w.calls, ∀ r, d'.outcome = some r → (∃ d ∈ w.calls, d.outcome = some r) ∨
      r.Dated w'.db ∧ ∀ user family, r = .refreshed user family → ∃ q ∈ w.db.tokens.rows, q.user = user ∧
      q.family = family :=
    fun d' hd' r hr => .inl ⟨d', hd', hr⟩
  have hstay : ∀ (j : Nat) (d : AccountCall), w.calls[j]? = some d → d.phase.settled = true →
      ∃ d', w.calls[j]? = some d' ∧ d.Rests d' := fun _ d hd hsettled => ⟨d, hd, hsettled, rfl, rfl⟩
  cases step_move hstep with
  | receive request =>
    refine ⟨.of_stems (.refl _) rfl rfl (fun j d hd hsettled => ⟨d, ?_, hsettled, rfl, rfl⟩) fun d hd r hr => ?_, ht⟩
    · rw [List.getElem?_append_left (List.getElem?_eq_some_iff.1 hd).1]
      exact hd
    · rcases List.mem_append.1 hd with hd | hd
      · exact .inl ⟨d, hd, hr⟩
      · rw [List.mem_singleton.1 hd] at hr
        cases hr
  | @go act i c c' hc hopen hgo =>
    refine ⟨.of_stems (.refl _) rfl rfl (rests_set hc hgo.rests) fun d hd r hr => ?_, ht⟩
    rcases List.mem_or_eq_of_mem_set hd with hold | rfl
    · exact .inl ⟨d, hold, hr⟩
    · exact .inl ⟨c, List.mem_of_getElem? hc, hgo.outcome ▸ hr⟩
  | @register i draw c username hashedPassword hc hp =>
    obtain ⟨htokens, hbuyers, hnext⟩ := w.db.createUser_rest username hashedPassword
    refine ⟨.of_commit hc (by rw [hp]; rfl) (htokens ▸ .refl _) hbuyers hnext ?_ ?_, htokens ▸ ht⟩
    · unfold AccountDb.createUser
      split <;> trivial
    · unfold AccountDb.createUser
      split <;> simp
  | @issue i draw c user tokens hc hp hnew hissue =>
    obtain ⟨hrows, hfamilies, hdrawn⟩ := TokenTable.mem_of_issue hissue
    refine ⟨⟨fun r hr => ?_, hfamilies, fun b hb => .inl ⟨b, hb, rfl, rfl, rfl⟩, le_rfl, fun hf => hf,
      rests_commit hc (by rw [hp]; rfl) _, fun d hd r hr => ?_, fun d hd user' family hr => ?_⟩,
        ht.issue hissue (by simp)⟩
    · rcases (hrows r).1 hr with hold | rfl
      · exact .inl ⟨r, hold, .inl ⟨rfl, rfl, rfl, rfl⟩⟩
      · refine .inr ⟨hnew, c.close (.token user draw.token.family), ?_, rfl⟩
        exact List.mem_set (List.getElem?_eq_some_iff.1 hc).1 _
    · rcases outcome_commit hd hr with hold | rfl
      · exact .inl hold
      · exact .inr hdrawn
    · exact .inl ((outcome_commit hd hr).resolve_right (by simp))
  | @revoke i draw c user hc hp =>
    obtain ⟨hchained, hstems⟩ := ht.revokeWhere (fun r => r.user = user) draw.now
    exact ⟨.of_commit hc (by rw [hp]; rfl) hstems rfl rfl trivial (by simp), hchained⟩
  | @store i draw c pii sub realName nationalId hc hp hrequest =>
    have hopen : c.phase.settled = false := by
      rw [hp]
      rfl
    rcases w.db.createBuyerInfo_cases sub realName pii (cfg.lookupHash nationalId) draw.hashIndexFirst with
      ⟨-, -, hout⟩ | ⟨hsame, hreply⟩
    · rw [hout]
      refine ⟨⟨fun r hr => .inl ⟨r, hr, .inl ⟨rfl, rfl, rfl, rfl⟩⟩, List.Subset.refl _, fun b hb => ?_, Nat.le_succ _,
        fun hf b hb => ?_, rests_commit hc hopen _, fun d hd r hr => ?_, fun d hd user family hr => ?_⟩, ht⟩
      · rcases List.mem_append.1 hb with hb | hb
        · exact .inl ⟨b, hb, rfl, rfl, rfl⟩
        · obtain rfl := List.mem_singleton.1 hb
          obtain ⟨sub', name', id', hrequest', hsub⟩ := (h.calls c (List.mem_of_getElem? hc)).at_phase hp
          rw [hrequest] at hrequest'
          cases hrequest'
          exact .inr ⟨rfl, c.close (.buyerCreated w.db.nextRow), List.mem_set
            (List.getElem?_eq_some_iff.1 hc).1 _, rfl, hsub⟩
      · rcases List.mem_append.1 hb with hb | hb
        · exact Nat.lt_succ_of_lt (hf b hb)
        · rw [List.mem_singleton.1 hb]
          exact Nat.lt_succ_self _
      · rcases outcome_commit hd hr with hold | rfl
        · exact .inl hold
        · exact .inr (Nat.lt_succ_self _)
      · exact .inl ((outcome_commit hd hr).resolve_right (by simp))
    · have htokens := congrArg AccountDb.tokens hsame
      refine ⟨.of_commit hc hopen (htokens ▸ .refl _) (congrArg _ hsame) (congrArg _ hsame) ?_ ?_, htokens ▸ ht⟩
      · rcases hreply with ⟨-, hreply⟩ | ⟨-, hreply⟩ | hreply <;> rw [hreply] <;> trivial
      · rcases hreply with ⟨-, hreply⟩ | ⟨-, hreply⟩ | hreply <;> simp [hreply]
  | @erase i draw c sub target tokens rows db u hc hp hrequest hu herase =>
    obtain ⟨-, hkept, rfl⟩ := AccountDb.eraseUser_eq_some herase
    obtain ⟨hchained, hstems⟩ := ht.erase hkept
    refine ⟨⟨fun r hr => .inl (hstems.rows r hr), hstems.families, fun b hb => ?_, le_rfl,
      fun hf b hb => hf b (List.mem_filter.1 hb).1, rests_commit hc (by rw [hp]; rfl) _, fun d hd r hr => ?_,
      fun d hd user family hr => ?_⟩, hchained⟩
    · exact .inl ⟨b, (List.mem_filter.1 hb).1, rfl, rfl, rfl⟩
    · rcases outcome_commit hd hr with hold | rfl
      · exact .inl hold
      · exact .inr trivial
    · exact .inl ((outcome_commit hd hr).resolve_right (by simp))
  | @refresh i draw c req hc hp hrequest =>
    obtain ⟨hchained, hstems⟩ := ht.refresh req draw.token draw.clock
    refine ⟨.of_commit hc (by rw [hp]; rfl) hstems rfl rfl ?_ fun user family hr => w.db.refreshed_row hr, hchained⟩
    rcases w.db.refresh_reply cfg req draw.token draw.clock with hr | hr | ⟨user, family, hr⟩ <;> rw [hr] <;> trivial
  | logout req now =>
    obtain ⟨hchained, hstems⟩ := ht.logout req now
    exact ⟨.of_stems hstems rfl rfl hstay hsame, hchained⟩
  | purge now =>
    obtain ⟨hchained, hstems⟩ := ht.purge now
    exact ⟨.of_stems hstems rfl rfl hstay hsame, hchained⟩
  | rewrap row nonce =>
    have hrows : ∀ b' ∈ (w.db.rewrap cfg row nonce).buyers,
        ∃ b ∈ w.db.buyers, b.row = b'.row ∧ b.user = b'.user ∧ b.lookupHash = b'.lookupHash := by
      intro b' hb'
      obtain ⟨b, hb, rfl⟩ := List.mem_map.1 hb'
      refine ⟨b, hb, ?_⟩
      split
      · split <;> exact ⟨rfl, rfl, rfl⟩
      · exact ⟨rfl, rfl, rfl⟩
    refine ⟨⟨fun r hr => .inl ⟨r, hr, .inl ⟨rfl, rfl, rfl, rfl⟩⟩, List.Subset.refl _,
      fun b hb => .inl (hrows b hb), le_rfl,
      fun hf b hb => ?_, hstay, fun d hd r hr => .inl ⟨d, hd, hr⟩, fun d hd user family hr => .inl ⟨d, hd, hr⟩⟩, ht⟩
    obtain ⟨b₀, hb₀, hrow, -, -⟩ := hrows b hb
    exact hrow ▸ hf b₀ hb₀

end AccountWorld

/-! ### What an erasure leaves behind -/

/-- Every session and every record was made by the commit of a request, and only such a session is refreshed. -/
structure AccountWorld.Traced (w : AccountWorld) : Prop where
  sound : w.Sound
  chained : w.db.tokens.Chained
  sessions : ∀ r ∈ w.db.tokens.rows, ∃ d ∈ w.calls, d.outcome = some (.token r.user r.family)
  records : ∀ b ∈ w.db.buyers, ∃ d ∈ w.calls, d.outcome = some (.buyerCreated b.row) ∧ d.subject = some b.user
  fresh : ∀ b ∈ w.db.buyers, b.row < w.db.nextRow
  dated : ∀ d ∈ w.calls, ∀ r ∈ d.outcome, r.Dated w.db
  refreshed : ∀ d ∈ w.calls, ∀ user family, d.outcome = some (.refreshed user family) →
    ∃ d' ∈ w.calls, d'.outcome = some (.token user family)

namespace AccountWorld

variable {cfg : AccountSettings} {w w' : AccountWorld}

/-- What a request has decided stays decided. -/
theorem Evolves.mem (h : w.Evolves w') (hs : w.Sound) {d : AccountCall} (hd : d ∈ w.calls) {r : AccountReply}
    (hr : d.outcome = some r) : ∃ d' ∈ w'.calls, d'.outcome = some r ∧ d'.subject = d.subject := by
  obtain ⟨j, hj⟩ := List.mem_iff_getElem?.1 hd
  obtain ⟨d', hd', hrests⟩ := h.settled j d hj (hs.settled_of_outcome hd hr)
  exact ⟨d', List.mem_of_getElem? hd', hrests.outcome.trans hr, hrests.subject⟩

theorem Evolves.dated_of_dated (h : w.Evolves w') {r : AccountReply} (hr : r.Dated w.db) : r.Dated w'.db := by
  cases r with
  | token user family => exact h.families hr
  | buyerCreated row => exact lt_of_lt_of_le hr h.nextRow
  | _ => trivial

theorem Traced.start (h : w.Start) : w.Traced where
  sound := .start h
  chained := by
    rw [h.tokens]
    exact ⟨by simp, by simp, by simp⟩
  sessions := by simp [h.tokens]
  records := by simp [h.buyers]
  fresh := by simp [h.buyers]
  dated := by simp [h.calls]
  refreshed := by simp [h.calls]

theorem Traced.step (h : w.Traced) {act : AccountAct} (hstep : w.step cfg act = some w') : w.Evolves w' ∧
    w'.Traced := by
  obtain ⟨hev, hchained⟩ := evolves_step h.sound h.chained hstep
  have hsession : ∀ {user family}, (∃ d ∈ w.calls, d.outcome = some (.token user family)) →
      ∃ d ∈ w'.calls, d.outcome = some (.token user family) := by
    rintro user family ⟨d, hd, hdo⟩
    obtain ⟨d', hd', hdo', -⟩ := hev.mem h.sound hd hdo
    exact ⟨d', hd', hdo'⟩
  refine ⟨hev, h.sound.step hstep, hchained, fun r' hr' => ?_, fun b' hb' => ?_, hev.fresh h.fresh,
    fun d hd r hr => ?_, fun d hd user family hr => ?_⟩
  · rcases hev.tokens r' hr' with ⟨r, hr, hfrom⟩ | ⟨-, hnew⟩
    · have hsame : r'.user = r.user ∧ r'.family = r.family := by
        rcases hfrom with ⟨-, hf, -, hu⟩ | ⟨-, hf, hu⟩ <;> exact ⟨hu, hf⟩
      rw [hsame.1, hsame.2]
      exact hsession (h.sessions r hr)
    · exact hnew
  · rcases hev.buyers b' hb' with ⟨b, hb, hrow, huser, -⟩ | ⟨-, hnew⟩
    · obtain ⟨d, hd, hdo, hds⟩ := h.records b hb
      obtain ⟨d', hd', hdo', hds'⟩ := hev.mem h.sound hd hdo
      rw [← hrow, ← huser]
      exact ⟨d', hd', hdo', hds'.trans hds⟩
    · exact hnew
  · rcases hev.dated d hd r hr with ⟨d₀, hd₀, hr₀⟩ | hnew
    · exact hev.dated_of_dated (h.dated d₀ hd₀ r hr₀)
    · exact hnew
  · rcases hev.refreshed d hd user family hr with ⟨d₀, hd₀, hr₀⟩ | ⟨q, hq, rfl, rfl⟩
    · exact hsession (h.refreshed d₀ hd₀ user family hr₀)
    · exact hsession (h.sessions q hq)

theorem Traced.exec {acts : List AccountAct} (h : w.Traced)
    (hrun : Exec.exec (AccountWorld.step cfg) w acts = some w') : w'.Traced :=
  exec_invariant (C := fun _ _ => True) (fun _ _ _ _ hstep ht => (ht.step hstep).2) h
    (.of_forall fun _ _ _ => trivial) hrun

/-- Requests that are over keep what they were told. -/
theorem Traced.rests_exec {acts : List AccountAct} (h : w.Traced)
    (hrun : Exec.exec (AccountWorld.step cfg) w acts = some w') {j : Nat}
    {d : AccountCall} (hd : w.calls[j]? = some d) (hsettled : d.phase.settled = true) :
    ∃ d', w'.calls[j]? = some d' ∧ d.Rests d' := by
  have hinv : w'.Traced ∧ ∃ d', w'.calls[j]? = some d' ∧ d.Rests d' := by
    refine exec_invariant (C := fun _ _ => True) (I := fun v => v.Traced ∧ ∃ d', v.calls[j]? = some d' ∧ d.Rests d')
      (fun v act v' _ hstep hi => ?_) ⟨h, d, hd, hsettled, rfl, rfl⟩ (.of_forall fun _ _ _ => trivial) hrun
    obtain ⟨ht, d', hd', hrests⟩ := hi
    obtain ⟨hev, ht'⟩ := ht.step hstep
    obtain ⟨d'', hd'', hrests'⟩ := hev.settled j d' hd' hrests.settled
    exact ⟨ht', d'', hd'', hrests.trans hrests'⟩
  exact hinv.2

end AccountWorld

/-- Once an erasure has committed or has been answered, the account is deactivated under its new name in every
later state, whoever asks as the user is refused, and no request is let in as the user that had not been let
in before: no login, no access token.  Only a session whose login had been let in before is refreshed, for a
refresh does not read the user's row.  An account counts as erased exactly when an erasure of it has
committed, names stay unique, and an erasure never finds its new name taken. -/
theorem erased_for_good {cfg : AccountSettings} {acts acts' : List AccountAct} {w₀ w w' : AccountWorld}
    (hstart : w₀.Start)
    (hbefore : exec (AccountWorld.step cfg) w₀ acts = some w) {c : AccountCall} (hc : c ∈ w.calls) {x : User}
    (hx : c.outcome = some (.erased x) ∨ c.phase = .answered (.erased x))
    (hafter : exec (AccountWorld.step cfg) w acts' = some w') :
    (∃ u ∈ w'.db.users, u.id = x.id ∧ u.username = anonymisedUsername x.id ∧ u.hashedPassword = unusablePassword ∧
      u.isActive = false) ∧
    w'.db.currentUser x.id = .error .forbidden ∧
    (∀ (i : Nat) (d : AccountCall), w'.calls[i]? = some d → d.subject = some x.id →
      ∃ d₀, w.calls[i]? = some d₀ ∧ d₀.subject = some x.id) ∧
    (∀ d ∈ w'.calls, ∀ family, d.outcome = some (.refreshed x.id family) →
      ∃ (i : Nat) (e e₀ : AccountCall), w'.calls[i]? = some e ∧ e.outcome = some (.token x.id family) ∧
        w.calls[i]? = some e₀ ∧ e₀.subject = some x.id) ∧
    (∀ u ∈ w'.db.users, u.isErased = true ↔ ∃ d ∈ w'.calls, ∃ y, d.outcome = some (.erased y) ∧ y.id = u.id) ∧
    (w'.db.users.map User.username).Nodup ∧
    ∀ u ∈ w'.db.users, ∀ id, u.id ≠ id → u.username ≠ anonymisedUsername id := by
  have htraced : w.Traced := (AccountWorld.Traced.start hstart).exec hbefore
  have hbarred := htraced.sound.barred hc hx hafter
  have hnamed := hbarred.sound.named
  obtain ⟨u, hu, hid, he⟩ := hbarred.erased
  have hself : u.anonymised = u := hnamed.erased_of_isErased hu he
  refine ⟨⟨u, hu, hid, ?_, ?_, hnamed.inactive hu he⟩, ?_, hbarred.subjects, fun d hd family hr => ?_,
    fun y hy => ⟨hbarred.sound.erased y hy, ?_⟩, hnamed.names, fun y hy id hne => hnamed.name_free hy hne⟩
  · rw [← hself, ← hid]
    rfl
  · rw [← hself]
    rfl
  · have hfind : w'.db.getUserById x.id = some u := by
      cases hget : w'.db.getUserById x.id with
      | none =>
        have hno := List.find?_eq_none.1 hget u hu
        exact absurd hid (by simpa using hno)
      | some y =>
        obtain ⟨hy, hyid⟩ := AccountDb.getUserById_eq_some hget
        rw [List.inj_on_of_nodup_map hnamed.ids hy hu (hyid.trans hid.symm)]
    simp [AccountDb.currentUser, hfind, hnamed.inactive hu he]
  · obtain ⟨e, he, heo⟩ := (htraced.exec hafter).refreshed d hd x.id family hr
    obtain ⟨i, e₀, hi, he₀, hsub₀⟩ := hbarred.session he heo
    exact ⟨i, e, e₀, hi, heo, he₀, hsub₀⟩
  · rintro ⟨d, hd, z, hz, hzid⟩
    obtain ⟨v, hv, hvid, hve⟩ := (hbarred.sound.calls d hd).outcome _ hz
    rwa [List.inj_on_of_nodup_map hnamed.ids hy hv (hzid.symm.trans hvid.symm)]

/-- The audit event of the erasure raises.  A login that read the row before is granted after the commit and
its session is refreshed, but the access token is refused. -/
theorem erased_for_good_login :
    ∃ w', exec (AccountWorld.step .sampled) seededAccounts
        [.receive (.login "alice" "secret123"), .receive (.erase 1 2), .run 0 .sampled, .run 1 .sampled,
          .run 1 .sampled, .run 1 .sampled, .run 1 .sampled, .run 1 .sampled, .die 1, .run 0 .sampled,
          .run 0 .sampled, .receive (.me 2), .run 2 .sampled,
          .receive (.refresh ⟨some "a", some "c", some "c", {}⟩),
          .run 3 { AccountDraw.sampled with token := ⟨71, "b"⟩ }] = some w' ∧
      w'.calls.map AccountCall.outcome =
        [some (.token 2 70), some (.erased ⟨2, "erased-user-2", "!erased", false, false⟩), none,
        some (.refreshed 2 70)] ∧
      w'.calls[2]?.map AccountCall.phase = some (.answered .forbidden) ∧ w'.db.currentUser 2 = .error .forbidden := by
  obtain ⟨w, hw, hp⟩ := exec_any (AccountWorld.step .sampled) seededAccounts
    [.receive (.login "alice" "secret123"), .receive (.erase 1 2), .run 0 .sampled, .run 1 .sampled, .run 1 .sampled,
      .run 1 .sampled, .run 1 .sampled, .run 1 .sampled]
    (fun w => w.calls[1]?.map AccountCall.outcome = some
      (some (.erased ⟨2, "erased-user-2", "!erased", false, false⟩)) ∧
      (exec (AccountWorld.step .sampled) w
        [.die 1, .run 0 .sampled, .run 0 .sampled, .receive (.me 2), .run 2 .sampled,
          .receive (.refresh ⟨some "a", some "c", some "c", {}⟩),
          .run 3 { AccountDraw.sampled with token := ⟨71, "b"⟩ }]).any fun w' =>
        w'.calls.map AccountCall.outcome =
          [some (.token 2 70), some (.erased ⟨2, "erased-user-2", "!erased", false, false⟩), none,
          some (.refreshed 2 70)] ∧
        w'.calls[2]?.map AccountCall.phase = some (.answered .forbidden)) (by decide +kernel)
  rw [decide_eq_true_eq] at hp
  obtain ⟨herased, hafter⟩ := hp
  obtain ⟨w', hw', hp'⟩ := (Option.any_eq_true ..).1 hafter
  obtain ⟨c, hc, hx⟩ := Option.map_eq_some_iff.1 herased
  obtain ⟨-, hforbidden, -⟩ := erased_for_good seededAccounts_start hw (List.mem_of_getElem? hc) (.inl hx) hw'
  have hrun : exec (AccountWorld.step .sampled) seededAccounts
      ([.receive (.login "alice" "secret123"), .receive (.erase 1 2), .run 0 .sampled, .run 1 .sampled,
        .run 1 .sampled, .run 1 .sampled, .run 1 .sampled, .run 1 .sampled] ++
        [.die 1, .run 0 .sampled, .run 0 .sampled, .receive (.me 2), .run 2 .sampled,
          .receive (.refresh ⟨some "a", some "c", some "c", {}⟩),
          .run 3 { AccountDraw.sampled with token := ⟨71, "b"⟩ }]) = some w' := by
    rw [exec_append, hw]
    exact hw'
  rw [decide_eq_true_eq] at hp'
  exact ⟨w', hrun, hp'.1, hp'.2, hforbidden⟩

section Clearing

variable (families : List Uuid) (row : Nat) (target : UserId)

/-- The tokens cover the roots of the old families of the user. -/
def AccountDb.CoversTokens (db : AccountDb) (tokens : List Nat) : Prop :=
  ∀ r ∈ db.tokens.rows, r.user = target → r.family ∈ families → r.parent = none → r.id ∈ tokens

/-- The rows cover the old record of the user. -/
def AccountDb.CoversRows (db : AccountDb) (rows : List Nat) : Prop :=
  ∀ b ∈ db.buyers, b.user = target → b.row < row → b.row ∈ rows

/-- Nothing old is left. -/
def AccountDb.Cleared (db : AccountDb) : Prop :=
  (∀ r ∈ db.tokens.rows, r.user = target → r.family ∉ families) ∧ ∀ b ∈ db.buyers, b.user = target → row ≤ b.row

/-- How far the erasure has come. -/
def AccountPhase.Clears (db : AccountDb) : AccountPhase → Prop
  | deletingTokens | answering _ | answered _ | died => True
  | deletingBuyer tokens => db.CoversTokens families target tokens
  | anonymising tokens rows => db.CoversTokens families target tokens ∧ db.CoversRows row target rows
  | _ => False

/-- How far it has come, and that nothing old is left once it has committed. -/
structure AccountCall.Clears (db : AccountDb) (c : AccountCall) : Prop where
  phase : c.phase.Clears families row target db
  committed : ∀ x, c.outcome = some (.erased x) → db.Cleared families row target

/-- The erasure has begun to delete, and what was there then is old. -/
structure AccountWorld.Clearing (i : Nat) (w : AccountWorld) : Prop where
  traced : w.Traced
  drawn : families ⊆ w.db.tokens.families
  numbered : row ≤ w.db.nextRow
  call : ∃ c sub, w.calls[i]? = some c ∧ c.request = .erase sub target ∧ c.Clears families row target w.db

end Clearing

section Clearing

variable {cfg : AccountSettings} {families : List Uuid} {row : Nat} {target : UserId} {i : Nat} {w w' : AccountWorld}

/-- What others do in the meantime adds nothing old. -/
theorem AccountCall.Clears.evolve (hev : w.Evolves w') (hfamilies : families ⊆ w.db.tokens.families)
    (hrow : row ≤ w.db.nextRow)
    {c : AccountCall} (h : c.Clears families row target w.db) : c.Clears families row target w'.db := by
  have htokens : ∀ tokens, w.db.CoversTokens families target tokens → w'.db.CoversTokens families target tokens := by
    intro tokens hcovers r' hr' huser hfamily hroot
    rcases hev.tokens r' hr' with ⟨r, hr, ⟨hid, hf, hp, hu⟩ | ⟨hp, -, -⟩⟩ | ⟨hnew, -⟩
    · rw [hid]
      exact hcovers r hr (hu ▸ huser) (hf ▸ hfamily) (hp ▸ hroot)
    · rw [hp] at hroot
      cases hroot
    · exact absurd (hfamilies hfamily) hnew
  have hrows : ∀ rows, w.db.CoversRows row target rows → w'.db.CoversRows row target rows := by
    intro rows hcovers b' hb' huser hlt
    rcases hev.buyers b' hb' with ⟨b, hb, hbrow, hbuser, -⟩ | ⟨hnew, -⟩
    · rw [← hbrow]
      exact hcovers b hb (hbuser.trans huser) (hbrow ▸ hlt)
    · omega
  have hcleared : w.db.Cleared families row target → w'.db.Cleared families row target := by
    rintro ⟨hold, holdRows⟩
    refine ⟨fun r' hr' huser hfamily => ?_, fun b' hb' huser => ?_⟩
    · rcases hev.tokens r' hr' with ⟨r, hr, ⟨-, hf, -, hu⟩ | ⟨-, hf, hu⟩⟩ | ⟨hnew, -⟩
      · exact hold r hr (hu ▸ huser) (hf ▸ hfamily)
      · exact hold r hr (hu ▸ huser) (hf ▸ hfamily)
      · exact hnew (hfamilies hfamily)
    · rcases hev.buyers b' hb' with ⟨b, hb, hbrow, hbuser, -⟩ | ⟨hnew, -⟩
      · rw [← hbrow]
        exact holdRows b hb (hbuser.trans huser)
      · omega
  refine ⟨?_, fun x hx => hcleared (h.committed x hx)⟩
  have hphase := h.phase
  revert hphase
  cases c.phase with
  | deletingBuyer tokens => exact htokens tokens
  | anonymising tokens rows => exact fun hcovers => ⟨htokens tokens hcovers.1, hrows rows hcovers.2⟩
  | _ => exact id

/-- A statement of the erasure that writes nothing. -/
theorem AccountCall.Clears.goes {db : AccountDb} {c c' : AccountCall} {sub : UserId}
    (hrequest : c.request = .erase sub target) (h : c.Clears families row target db) (hgo : c.Goes db c') :
    c'.request = .erase sub target ∧ c'.Clears families row target db := by
  have hcommitted : ∀ x, c'.outcome = some (.erased x) → db.Cleared families row target :=
    fun x hx => h.committed x (hgo.outcome ▸ hx)
  have hphase := h.phase
  cases hgo with
  | refuse hp herased => exact ⟨hrequest, trivial, hcommitted⟩
  | answer hp => exact ⟨hrequest, trivial, hcommitted⟩
  | ask hp | read hp | readActive hp | act hp | verified hp | checked hp | isErased hp | found hp =>
    rw [hp] at hphase
    exact hphase.elim
  | deleteTokens hrequest' hp =>
    obtain ⟨-, rfl⟩ : _ = sub ∧ _ = target := by simpa using hrequest'.symm.trans hrequest
    refine ⟨hrequest, fun r hr huser _ _ => List.mem_map.2
      ⟨r, List.mem_filter.2 ⟨hr, by simpa using huser⟩, rfl⟩, hcommitted⟩
  | deleteBuyer hrequest' hp =>
    obtain ⟨-, rfl⟩ : _ = sub ∧ _ = target := by simpa using hrequest'.symm.trans hrequest
    rw [hp] at hphase
    refine ⟨hrequest, ⟨hphase, fun b hb huser _ => ?_⟩, hcommitted⟩
    exact List.mem_map.2 ⟨b, List.mem_filter.2 ⟨hb, by simpa using huser⟩, rfl⟩
  | die => exact ⟨hrequest, trivial, hcommitted⟩

/-- The commit of the erasure. -/
theorem AccountDb.cleared_of_erase {db db' : AccountDb} {tokens rows : List Nat} (hchained : db'.tokens.Chained)
    (htokens : db.CoversTokens families target tokens) (hrows : db.CoversRows row target rows)
    (herase : db.eraseUser target tokens rows = some db') : db'.Cleared families row target := by
  obtain ⟨-, -, rfl⟩ := AccountDb.eraseUser_eq_some herase
  refine ⟨fun r hr huser hfamily => ?_, fun b hb huser => ?_⟩
  · -- the root of its family would be among the tokens that went
    obtain ⟨q, hq, hnone, hqf, hqu⟩ := hchained.root hr
    obtain ⟨hmem, hkept⟩ := List.mem_filter.1 hq
    have hgone := htokens q hmem (hqu.trans huser) (hqf ▸ hfamily) hnone
    exact absurd hgone (by simpa using hkept)
  · obtain ⟨hmem, hkept⟩ := List.mem_filter.1 hb
    by_contra hlt
    exact absurd (hrows b hmem huser (by omega)) (by simpa using hkept)

theorem AccountWorld.Clearing.step (h : w.Clearing families row target i) {act : AccountAct}
    (hstep : w.step cfg act = some w') :
    w'.Clearing families row target i := by
  obtain ⟨hev, htraced⟩ := h.traced.step hstep
  refine ⟨htraced, List.Subset.trans h.drawn hev.families, h.numbered.trans hev.nextRow, ?_⟩
  obtain ⟨c, sub, hc, hrequest, hclears⟩ := h.call
  -- the erasure itself is where it was
  have hstay : w'.calls[i]? = some c → ∃ c sub, w'.calls[i]? = some c ∧ c.request = .erase sub target ∧
      c.Clears families row target w'.db :=
    fun hc' => ⟨c, sub, hc', hrequest, hclears.evolve hev h.drawn h.numbered⟩
  have hother : ∀ {j : Nat} {d : AccountCall}, i ≠ j → (w.calls.set j d)[i]? = some c := by
    intro j d hij
    rw [List.getElem?_set_ne (Ne.symm hij)]
    exact hc
  have hself : ∀ {d : AccountCall}, (w.calls.set i d)[i]? = some d := fun {d} =>
    List.getElem?_set_self (List.getElem?_eq_some_iff.1 hc).1
  have hphase : ∀ {j : Nat} {d : AccountCall} {phase : AccountPhase}, w.calls[j]? = some d → d.phase = phase →
      (∀ db : AccountDb, ¬phase.Clears families row target db) → i ≠ j := by
    intro j d phase hd hp hno hij
    obtain rfl : c = d := Option.some.inj (hc.symm.trans (hij ▸ hd))
    exact hno w.db (hp ▸ hclears.phase)
  cases step_move hstep with
  | receive request =>
    refine hstay ?_
    rw [List.getElem?_append_left (List.getElem?_eq_some_iff.1 hc).1]
    exact hc
  | @go act j d d' hd hopen hgo =>
    by_cases hij : i = j
    · subst hij
      obtain rfl : c = d := Option.some.inj (hc.symm.trans hd)
      obtain ⟨hrequest', hclears'⟩ := hclears.goes hrequest hgo
      exact ⟨d', sub, hself, hrequest', hclears'⟩
    · exact hstay (hother hij)
  | register hd hp => exact hstay (hother (hphase hd hp fun _ => id))
  | issue hd hp => exact hstay (hother (hphase hd hp fun _ => id))
  | revoke hd hp => exact hstay (hother (hphase hd hp fun _ => id))
  | store hd hp => exact hstay (hother (hphase hd hp fun _ => id))
  | @erase j draw d sub' target' tokens rows db u hd hp hrequest' hu herase =>
    by_cases hij : i = j
    · subst hij
      obtain rfl : c = d := Option.some.inj (hc.symm.trans hd)
      obtain ⟨-, rfl⟩ : sub' = sub ∧ target' = target := by simpa using hrequest'.symm.trans hrequest
      have hphase := hclears.phase
      rw [hp] at hphase
      obtain ⟨htokens, hrows⟩ := hphase
      exact ⟨_, _, hself, hrequest, trivial, fun _ _ =>
        AccountDb.cleared_of_erase htraced.chained htokens hrows herase⟩
    · exact hstay (hother hij)
  | refresh hd hp => exact hstay (hother (hphase hd hp fun _ => id))
  | logout req now => exact hstay hc
  | purge now => exact hstay hc
  | rewrap row nonce => exact hstay hc

end Clearing

/-- A session (a family) or a record of an erased user comes from a request that had been let in before the
erasure committed, and its row was committed after the erasure had started to delete; so there is none when
the transactions of all requests let in as the user until then had ended by that time. -/
theorem erasure_residue {cfg : AccountSettings} {acts₀ acts acts' : List AccountAct}
    {w₀ w₁ w w' : AccountWorld} (hstart : w₀.Start)
    (hbefore : exec (AccountWorld.step cfg) w₀ acts₀ = some w₁) {i : Nat} {c₁ c : AccountCall}
    {sub target : UserId} {x : User}
    (hc₁ : w₁.calls[i]? = some c₁) (hrequest : c₁.request = .erase sub target) (hdeletes : c₁.phase = .deletingTokens)
    (herasing : exec (AccountWorld.step cfg) w₁ acts = some w) (hc : w.calls[i]? = some c)
    (herased : c.outcome = some (.erased x))
    (hx : x.id = target) (hafter : exec (AccountWorld.step cfg) w acts' = some w') :
    (∀ r ∈ w'.db.tokens.rows, r.user = target → r.family ∉ w₁.db.tokens.families ∧
      ∃ (j : Nat) (d d₀ : AccountCall), w'.calls[j]? = some d ∧ d.outcome = some (.token target r.family) ∧
        w.calls[j]? = some d₀ ∧ d₀.subject = some target) ∧
    (∀ b ∈ w'.db.buyers, b.user = target → w₁.db.nextRow ≤ b.row ∧
      ∃ (j : Nat) (d d₀ : AccountCall), w'.calls[j]? = some d ∧ d.outcome = some (.buyerCreated b.row) ∧
        w.calls[j]? = some d₀ ∧ d₀.subject = some target) ∧
    ((∀ (j : Nat) (d₀ : AccountCall), w.calls[j]? = some d₀ → d₀.subject = some target →
        ∃ d₁, w₁.calls[j]? = some d₁ ∧ d₁.phase.settled = true) →
      (∀ r ∈ w'.db.tokens.rows, r.user ≠ target) ∧ ∀ b ∈ w'.db.buyers, b.user ≠ target) := by
  have htraced₁ : w₁.Traced := (AccountWorld.Traced.start hstart).exec hbefore
  have hundecided : c₁.outcome = none := (htraced₁.sound.calls c₁ (List.mem_of_getElem? hc₁)).undecided
    (by rw [hdeletes]; rfl)
  have hclearing₁ : w₁.Clearing w₁.db.tokens.families w₁.db.nextRow target i := by
    refine ⟨htraced₁, List.Subset.refl _, le_rfl, c₁, sub, hc₁, hrequest, ?_, fun y hy => ?_⟩
    · rw [hdeletes]
      trivial
    · rw [hundecided] at hy
      cases hy
  have hclear : ∀ {v v' : AccountWorld} {as : List AccountAct},
    v.Clearing w₁.db.tokens.families w₁.db.nextRow target i →
      exec (AccountWorld.step cfg) v as = some v' → v'.Clearing w₁.db.tokens.families w₁.db.nextRow target i :=
    fun hv hrun => exec_invariant (C := fun _ _ => True) (fun _ _ _ _ hstep hs => hs.step hstep) hv
      (.of_forall fun _ _ _ => trivial) hrun
  have hclearing : w.Clearing w₁.db.tokens.families w₁.db.nextRow target i := hclear hclearing₁ herasing
  have hclearing' := hclear hclearing hafter
  have htraced' := hclearing'.traced
  have hsettled : c.phase.settled = true := hclearing.traced.sound.settled_of_outcome
    (List.mem_of_getElem? hc) herased
  have hcleared : w'.db.Cleared w₁.db.tokens.families w₁.db.nextRow target := by
    obtain ⟨c', _, hc', -, hclears⟩ := hclearing'.call
    obtain ⟨c'', hc'', hrests⟩ := hclearing.traced.rests_exec hafter hc hsettled
    obtain rfl : c'' = c' := Option.some.inj (hc''.symm.trans hc')
    exact hclears.committed x (hrests.outcome.trans herased)
  have hbarred := hclearing.traced.sound.barred (List.mem_of_getElem? hc) (.inl herased) hafter
  rw [hx] at hbarred
  have hsessions : ∀ r ∈ w'.db.tokens.rows, r.user = target → r.family ∉ w₁.db.tokens.families ∧
      ∃ (j : Nat) (d d₀ : AccountCall), w'.calls[j]? = some d ∧ d.outcome = some (.token target r.family) ∧
        w.calls[j]? = some d₀ ∧ d₀.subject = some target := by
    intro r hr huser
    obtain ⟨d, hd, hdo⟩ := htraced'.sessions r hr
    rw [huser] at hdo
    obtain ⟨j, d₀, hj, hd₀, hsub₀⟩ := hbarred.session hd hdo
    exact ⟨hcleared.1 r hr huser, j, d, d₀, hj, hdo, hd₀, hsub₀⟩
  have hrecords : ∀ b ∈ w'.db.buyers, b.user = target → w₁.db.nextRow ≤ b.row ∧
      ∃ (j : Nat) (d d₀ : AccountCall), w'.calls[j]? = some d ∧ d.outcome = some (.buyerCreated b.row) ∧
        w.calls[j]? = some d₀ ∧ d₀.subject = some target := by
    intro b hb huser
    obtain ⟨d, hd, hdo, hsub⟩ := htraced'.records b hb
    obtain ⟨j, hj⟩ := List.mem_iff_getElem?.1 hd
    obtain ⟨d₀, hd₀, hsub₀⟩ := hbarred.subjects j d hj (huser ▸ hsub)
    exact ⟨hcleared.2 b hb huser, j, d, d₀, hj, hdo, hd₀, hsub₀⟩
  refine ⟨hsessions, hrecords, fun hquiet => ?_⟩
  -- a request that was over when the deletion began was told something old
  have hold : ∀ {j : Nat} {d d₀ : AccountCall} {r : AccountReply}, w'.calls[j]? = some d → d.outcome = some r →
      w.calls[j]? = some d₀ → d₀.subject = some target → r.Dated w₁.db := by
    intro j d d₀ r hd hr hd₀ hsub₀
    obtain ⟨d₁, hd₁, hover⟩ := hquiet j d₀ hd₀ hsub₀
    obtain ⟨d₂, hd₂, hrests⟩ := htraced₁.rests_exec herasing hd₁ hover
    obtain ⟨d₃, hd₃, hrests'⟩ := hclearing.traced.rests_exec hafter hd₂ hrests.settled
    obtain rfl : d = d₃ := Option.some.inj (hd.symm.trans hd₃)
    exact htraced₁.dated d₁ (List.mem_of_getElem? hd₁) r ((hrests.trans hrests').outcome ▸ hr)
  refine ⟨fun r hr huser => ?_, fun b hb huser => ?_⟩
  · obtain ⟨hnew, j, d, d₀, hd, hdo, hd₀, hsub₀⟩ := hsessions r hr huser
    have hdated : r.family ∈ w₁.db.tokens.families := hold hd hdo hd₀ hsub₀
    exact hnew hdated
  · obtain ⟨hnew, j, d, d₀, hd, hdo, hd₀, hsub₀⟩ := hrecords b hb huser
    have hdated : b.row < w₁.db.nextRow := hold hd hdo hd₀ hsub₀
    exact absurd hdated (Nat.not_lt.2 hnew)

/-- The data of a buyer who was let in before the erasure outlives it, and a second erasure, which finds the
account erased, leaves them. -/
theorem erasure_residue_late_record :
    ∃ w₁ w w', exec (AccountWorld.step .sampled) seededAccounts
        [.receive (.erase 1 2), .receive (.createBuyerInfo 2 "Alice" "A123456789"), .run 1 .sampled, .run 0 .sampled,
          .run 0 .sampled] = some w₁ ∧
      exec (AccountWorld.step .sampled) w₁ [.run 0 .sampled, .run 0 .sampled, .run 0 .sampled] = some w ∧
      exec (AccountWorld.step .sampled) w [.run 1 .sampled, .run 1 .sampled, .receive (.erase 1 2), .run 2 .sampled,
        .run 2 .sampled] = some w' ∧
      w'.calls[2]?.map AccountCall.phase = some (.answered (.erased ⟨2, "erased-user-2", "!erased", false, false⟩)) ∧
      (w'.db.buyers.map fun b => (b.row, b.user)) = [(1, 2)] ∧
      ∃ (j : Nat) (d d₀ : AccountCall), w'.calls[j]? = some d ∧ d.outcome = some (.buyerCreated 1) ∧
        w.calls[j]? = some d₀ ∧ d₀.subject = some 2 := by
  obtain ⟨w₁, hw₁, hp₁⟩ := exec_any (AccountWorld.step .sampled) seededAccounts
    [.receive (.erase 1 2), .receive (.createBuyerInfo 2 "Alice" "A123456789"), .run 1 .sampled,
      .run 0 .sampled, .run 0 .sampled]
    (fun w₁ => w₁.calls[0]? = some ⟨.erase 1 2, .deletingTokens, some 1, none⟩ ∧
      (exec (AccountWorld.step .sampled) w₁ [.run 0 .sampled, .run 0 .sampled, .run 0 .sampled]).any fun w =>
        w.calls[0]? = some ⟨.erase 1 2, .answering (.erased ⟨2, "erased-user-2", "!erased", false, false⟩), some 1,
          some (.erased ⟨2, "erased-user-2", "!erased", false, false⟩)⟩ ∧
        (exec (AccountWorld.step .sampled) w
          [.run 1 .sampled, .run 1 .sampled, .receive (.erase 1 2), .run 2 .sampled,
          .run 2 .sampled]).any fun w' =>
          w'.calls[2]?.map AccountCall.phase = some
            (.answered (.erased ⟨2, "erased-user-2", "!erased", false, false⟩)) ∧
          (w'.db.buyers.map fun b => (b.row, b.user)) = [(1, 2)]) (by decide +kernel)
  rw [decide_eq_true_eq] at hp₁
  obtain ⟨w, hw, hp⟩ := (Option.any_eq_true ..).1 hp₁.2
  rw [decide_eq_true_eq] at hp
  obtain ⟨w', hw', hp'⟩ := (Option.any_eq_true ..).1 hp.2
  rw [decide_eq_true_eq] at hp'
  obtain ⟨-, hrecords, -⟩ := erasure_residue seededAccounts_start hw₁ hp₁.1 rfl rfl hw hp.1 rfl rfl hw'
  obtain ⟨b, hb, hrow⟩ : ∃ b ∈ w'.db.buyers, (b.row, b.user) = (1, 2) := by
    have hmem : ((1, 2) : Nat × UserId) ∈ w'.db.buyers.map fun b => (b.row, b.user) := by
      rw [hp'.2]
      exact List.mem_singleton.2 rfl
    exact List.mem_map.1 hmem
  have hsplit : b.row = 1 ∧ b.user = 2 := by simpa using hrow
  obtain ⟨-, hcall⟩ := hrecords b hb hsplit.2
  rw [hsplit.1] at hcall
  exact ⟨w₁, w, w', hw₁, hw, hw', hp'.1, hp'.2, hcall⟩

end Ticketing
