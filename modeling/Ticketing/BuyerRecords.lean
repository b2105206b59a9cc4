import Ticketing.Erasure

/-!
# One national id, one account

`register_buyer_info` looks whether the user has a record and then inserts one; between the two another
request may insert its own.  The primary key and the unique index on the hash of the national id decide, and
the error is read off the constraint that the database names, whichever it checks first.  A record goes only
with the commit of an erasure of its user, so a national id comes to a second account only after the erasure
of the first one has committed (`one_card_one_account`).
-/

namespace Ticketing

open Exec

/-- The two rows break no constraint together. -/
def BuyerInfo.Differ (a b : BuyerInfo) : Prop := a.row ≠ b.row ∧ a.user ≠ b.user ∧ a.lookupHash ≠ b.lookupHash

instance : Std.Symm BuyerInfo.Differ where
  symm _ _ h := ⟨h.1.symm, h.2.1.symm, h.2.2.symm⟩

/-- The rows agree on everything but the encrypted columns. -/
def BuyerInfo.Same (a b : BuyerInfo) : Prop := a.row = b.row ∧ a.user = b.user ∧ a.lookupHash = b.lookupHash

/-- A row that the erasure is about to delete is that of its user. -/
def AccountCall.Deletes (db : AccountDb) (c : AccountCall) : Prop :=
  ∀ sub target tokens rows, c.request = .erase sub target → c.phase = .anonymising tokens rows → ∀ row ∈ rows,
    row < db.nextRow ∧ ∀ b ∈ db.buyers, b.row = row → b.user = target

/-- What the answer to a registration says of the tables before and after it is decided. -/
def AccountReply.Truthful (cfg : AccountSettings) (db db' : AccountDb) (sub : UserId) (realName nationalId : String) :
    AccountReply → Prop
  | buyerCreated row =>
    ∃ b ∈ db'.buyers, b.row = row ∧ b.user = sub ∧ b.realName = realName ∧ b.lookupHash = cfg.lookupHash nationalId
  | buyerExists => ∃ b ∈ db.buyers, b.user = sub
  | nationalIdTaken => ∃ b ∈ db.buyers, b.lookupHash = cfg.lookupHash nationalId
  | _ => True

/-- The answer that the phase has, if it has one, is true. -/
def AccountPhase.Truthful (cfg : AccountSettings) (db db' : AccountDb) (sub : UserId) (realName nationalId : String) :
    AccountPhase → Prop
  | answering r | answered r => r.Truthful cfg db db' sub realName nationalId
  | _ => True

/-- What the records and the open erasures satisfy. -/
structure AccountWorld.Recorded (w : AccountWorld) : Prop where
  rows : w.db.buyers.Pairwise BuyerInfo.Differ
  fresh : ∀ b ∈ w.db.buyers, b.row < w.db.nextRow
  deletes : ∀ c ∈ w.calls, c.Deletes w.db

section Records

variable {cfg : AccountSettings} {w w' : AccountWorld}

/-- What a step does to the records: it rewrites encrypted columns, inserts one that breaks no constraint, or
deletes those of an erased user. -/
theorem AccountWorld.records_step {act : AccountAct} (hstep : w.step cfg act = some w') :
    (∃ f : BuyerInfo → BuyerInfo, (∀ b : BuyerInfo, b.Same (f b)) ∧ w'.db.buyers = w.db.buyers.map f ∧
      w'.db.nextRow = w.db.nextRow) ∨
    (∃ b : BuyerInfo, b.row = w.db.nextRow ∧ (∀ x ∈ w.db.buyers, x.user ≠ b.user ∧ x.lookupHash ≠ b.lookupHash) ∧
      w'.db.buyers = w.db.buyers ++ [b] ∧ w'.db.nextRow = w.db.nextRow + 1) ∨
    ∃ i c sub target tokens rows, ∃ x : User, w.calls[i]? = some c ∧ c.request = .erase sub target ∧
      c.phase = .anonymising tokens rows ∧ x.id = target ∧ w'.calls = w.calls.set i (c.close (.erased x)) ∧
      w'.db.buyers = w.db.buyers.filter (fun b => b.row ∉ rows) ∧ w'.db.nextRow = w.db.nextRow := by
  have hsame : w'.db.buyers = w.db.buyers → w'.db.nextRow = w.db.nextRow →
      ∃ f : BuyerInfo → BuyerInfo, (∀ b : BuyerInfo, b.Same (f b)) ∧ w'.db.buyers = w.db.buyers.map f ∧
      w'.db.nextRow = w.db.nextRow :=
    fun hbuyers hnext => ⟨id, fun _ => ⟨rfl, rfl, rfl⟩, by rw [List.map_id, hbuyers], hnext⟩
  cases AccountWorld.step_move hstep with
  | @register i draw c username hashedPassword hc hp =>
    obtain ⟨-, hbuyers, hnext⟩ := w.db.createUser_rest username hashedPassword
    exact .inl (hsame hbuyers hnext)
  | @store i draw c pii sub realName nationalId hc hp hrequest =>
    rcases w.db.createBuyerInfo_cases sub realName pii (cfg.lookupHash nationalId) draw.hashIndexFirst with
      ⟨huser, hhash, hout⟩ | ⟨hout, -⟩
    · refine .inr (.inl
        ⟨{ row := w.db.nextRow, user := sub, realName, pii, lookupHash := cfg.lookupHash nationalId }, rfl,
          fun x hx => ⟨huser x hx, hhash x hx⟩, ?_, ?_⟩)
      · show (w.db.createBuyerInfo ..).2.buyers = _
        rw [hout]
      · show (w.db.createBuyerInfo ..).2.nextRow = _
        rw [hout]
    · exact .inl (hsame (congrArg AccountDb.buyers hout) (congrArg AccountDb.nextRow hout))
  | @erase i draw c sub target tokens rows db u hc hp hrequest hu herase =>
    obtain ⟨-, -, rfl⟩ := AccountDb.eraseUser_eq_some herase
    have hid := (AccountDb.getUserById_eq_some hu).2
    exact .inr (.inr ⟨i, c, sub, target, tokens, rows, u.anonymised, hc, hrequest, hp, hid, rfl, rfl, rfl⟩)
  | rewrap row nonce =>
    refine .inl ⟨_, fun b => ?_, rfl, rfl⟩
    split
    · split <;> exact ⟨rfl, rfl, rfl⟩
    · exact ⟨rfl, rfl, rfl⟩
  | _ => exact .inl (hsame rfl rfl)

theorem AccountCall.Deletes.of_quiet {db : AccountDb} {c : AccountCall}
    (h : ∀ tokens rows, c.phase ≠ .anonymising tokens rows) :
    c.Deletes db := fun _ _ tokens rows _ hp => absurd hp (h tokens rows)

/-- The open erasures still delete rows of their user only, when rows keep their user and new ones have new
numbers. -/
theorem AccountCall.Deletes.keep {db db' : AccountDb} {c : AccountCall} (h : c.Deletes db)
    (hnext : db.nextRow ≤ db'.nextRow)
    (hbuyers : ∀ b' ∈ db'.buyers, (∃ b ∈ db.buyers, b.row = b'.row ∧ b.user = b'.user) ∨
      b'.row = db.nextRow) : c.Deletes db' := by
  intro sub target tokens rows hrequest hp row hrow
  obtain ⟨hlt, howner⟩ := h sub target tokens rows hrequest hp row hrow
  refine ⟨by omega, fun b' hb' hb'row => ?_⟩
  rcases hbuyers b' hb' with ⟨b, hb, hbrow, huser⟩ | hnew
  · exact huser ▸ howner b hb (hbrow.trans hb'row)
  · omega

/-- What a request does to its phase leaves that true. -/
theorem AccountWorld.Recorded.call (h : w.Recorded) {act : AccountAct} (hstep : w.step cfg act = some w') :
    ∀ c ∈ w'.calls, c.Deletes w.db := by
  have hset : ∀ {i : Nat} {c' : AccountCall}, c'.Deletes w.db → ∀ c ∈ w.calls.set i c', c.Deletes w.db := by
    intro i c' hc' c hc
    rcases List.mem_or_eq_of_mem_set hc with hc | rfl
    · exact h.deletes c hc
    · exact hc'
  cases AccountWorld.step_move hstep with
  | receive request =>
    intro c hc
    rcases List.mem_append.1 hc with hc | hc
    · exact h.deletes c hc
    · rw [List.mem_singleton.1 hc]
      exact .of_quiet (by simp)
  | @go act i c c' hc hopen hgo =>
    refine hset ?_
    cases hgo with
    | @deleteBuyer sub target tokens hrequest hp =>
      intro sub' target' tokens' rows hrequest' hp' row hrow
      obtain ⟨-, rfl⟩ : sub = sub' ∧ target = target' := by simpa using hrequest.symm.trans hrequest'
      obtain ⟨-, rfl⟩ : tokens = tokens' ∧ _ = rows := by simpa [AccountCall.goto] using hp'
      obtain ⟨b, hb, rfl⟩ := List.mem_map.1 hrow
      obtain ⟨hmem, huser⟩ := List.mem_filter.1 hb
      refine ⟨h.fresh b hmem, fun x hx hrowx => ?_⟩
      have hsame : x = b := by
        by_contra hne
        exact (h.rows.forall hx hmem hne).1 hrowx
      rw [hsame]
      simpa using huser
    | act hp hu hactive hphase =>
      refine .of_quiet fun tokens rows => ?_
      rcases hphase with rfl | rfl | ⟨rfl, -⟩ | rfl | rfl <;> simp [AccountCall.actAs]
    | _ => exact .of_quiet (by simp [AccountCall.goto, AccountCall.reply, AccountCall.actAs])
  | register hc hp => exact hset (.of_quiet (by simp [AccountCall.close]))
  | issue hc hp hnew hissue => exact hset (.of_quiet (by simp [AccountCall.close]))
  | revoke hc hp => exact hset (.of_quiet (by simp [AccountCall.close]))
  | store hc hp hrequest => exact hset (.of_quiet (by simp [AccountCall.close]))
  | erase hc hp hrequest hu herase => exact hset (.of_quiet (by simp [AccountCall.close]))
  | refresh hc hp hrequest => exact hset (.of_quiet (by simp [AccountCall.close]))
  | _ => exact h.deletes

theorem AccountWorld.Recorded.step (h : w.Recorded) {act : AccountAct} (hstep : w.step cfg act = some w') :
    w'.Recorded := by
  have hcalls := h.call hstep
  rcases AccountWorld.records_step hstep with ⟨f, hf, hbuyers, hnext⟩ | ⟨b, hrow, hfree, hbuyers, hnext⟩ |
    ⟨i, c, sub, target, tokens, rows, x, hc, hrequest, hp, hx, hcalls', hbuyers, hnext⟩
  · refine ⟨?_, fun b' hb' => ?_, fun c hc => (hcalls c hc).keep hnext.ge fun b' hb' => ?_⟩
    · rw [hbuyers, List.pairwise_map]
      refine h.rows.imp fun {a b} hab => ?_
      obtain ⟨ha, hau, hah⟩ := hf a
      obtain ⟨hb, hbu, hbh⟩ := hf b
      exact ⟨ha ▸ hb ▸ hab.1, hau ▸ hbu ▸ hab.2.1, hah ▸ hbh ▸ hab.2.2⟩
    · rw [hbuyers] at hb'
      obtain ⟨b, hb, rfl⟩ := List.mem_map.1 hb'
      rw [hnext, ← (hf b).1]
      exact h.fresh b hb
    · rw [hbuyers] at hb'
      obtain ⟨b, hb, rfl⟩ := List.mem_map.1 hb'
      exact .inl ⟨b, hb, (hf b).1, (hf b).2.1⟩
  · have hmem : ∀ b', b' ∈ w'.db.buyers ↔ b' ∈ w.db.buyers ∨ b' = b := by
      intro b'
      rw [hbuyers]
      simp
    refine ⟨?_, fun b' hb' => ?_, fun c hc => (hcalls c hc).keep (by omega) fun b' hb' => ?_⟩
    · rw [hbuyers, List.pairwise_append]
      refine ⟨h.rows, List.pairwise_singleton _ _, fun x hx y hy => ?_⟩
      rw [List.mem_singleton.1 hy]
      have hlt := h.fresh x hx
      exact ⟨by omega, (hfree x hx).1, (hfree x hx).2⟩
    · rcases (hmem b').1 hb' with hold | rfl
      · have hlt := h.fresh b' hold
        omega
      · omega
    · rcases (hmem b').1 hb' with hold | rfl
      · exact .inl ⟨b', hold, rfl, rfl⟩
      · exact .inr hrow
  · refine ⟨hbuyers ▸ h.rows.filter _, fun b' hb' => ?_, fun c hc => (hcalls c hc).keep hnext.ge fun b' hb' => ?_⟩
    · rw [hbuyers] at hb'
      rw [hnext]
      exact h.fresh b' (List.mem_filter.1 hb').1
    · rw [hbuyers] at hb'
      exact .inl ⟨b', (List.mem_filter.1 hb').1, rfl, rfl⟩

theorem AccountWorld.Recorded.start (h : w.Start) : w.Recorded := by
  refine ⟨?_, ?_, ?_⟩
  · simp [h.buyers]
  · simp [h.buyers]
  · simp [h.calls]

/-- The record is there, or an erasure of its user has committed. -/
def AccountWorld.KeepsRecord (b : BuyerInfo) (w : AccountWorld) : Prop :=
  (∃ b' ∈ w.db.buyers, b.Same b') ∨ ∃ c ∈ w.calls, ∃ x, c.outcome = some (.erased x) ∧ x.id = b.user

theorem AccountWorld.KeepsRecord.step {b : BuyerInfo} (hr : w.Recorded) (hs : w.Sound) (ht : w.db.tokens.Chained)
    (h : w.KeepsRecord b) {act : AccountAct} (hstep : w.step cfg act = some w') : w'.KeepsRecord b := by
  rcases h with ⟨x, hx, hsame⟩ | ⟨c, hc, x, hp, hid⟩
  · rcases AccountWorld.records_step hstep with ⟨f, hf, hbuyers, -⟩ | ⟨y, -, -, hbuyers, -⟩ |
      ⟨i, c, sub, target, tokens, rows, u, hc, hrequest, hp, hu, hcalls, hbuyers, -⟩
    · obtain ⟨hrow, huser, hhash⟩ := hf x
      refine .inl ⟨f x, hbuyers ▸ List.mem_map.2 ⟨x, hx, rfl⟩, ?_⟩
      exact ⟨hsame.1.trans hrow, hsame.2.1.trans huser, hsame.2.2.trans hhash⟩
    · exact .inl ⟨x, hbuyers ▸ List.mem_append_left _ hx, hsame⟩
    · by_cases hgone : x.row ∈ rows
      · obtain ⟨-, howner⟩ := hr.deletes c (List.mem_of_getElem? hc) sub target tokens rows hrequest hp x.row hgone
        have huser : x.user = target := howner x hx rfl
        refine .inr ⟨c.close (.erased u), ?_, u, rfl, ?_⟩
        · rw [hcalls]
          exact List.mem_set (List.getElem?_eq_some_iff.1 hc).1 _
        · rw [hu, hsame.2.1, huser]
      · refine .inl ⟨x, ?_, hsame⟩
        rw [hbuyers]
        exact List.mem_filter.2 ⟨hx, by simpa using hgone⟩
  · have hev := (AccountWorld.evolves_step hs ht hstep).1
    obtain ⟨d, hd, hdo, -⟩ := hev.mem hs hc hp
    exact .inr ⟨d, hd, x, hdo, hid⟩

/-- What a step decides about a registration is true. -/
theorem AccountWorld.truthful_step {i : Nat} {draw : AccountDraw}
    (hstep : w.step cfg (.run i draw) = some w') {c c' : AccountCall}
    {sub : UserId} {realName nationalId : String} (hc : w.calls[i]? = some c)
    (hrequest : c.request = .createBuyerInfo sub realName nationalId) (hopen : c.phase.settled = false)
    (hc' : w'.calls[i]? = some c') : c'.phase.Truthful cfg w.db w'.db sub realName nationalId := by
  have hi : i < w.calls.length := (List.getElem?_eq_some_iff.1 hc).1
  have hadvance : w.advance cfg i draw c = some w' := by simpa [AccountWorld.step, hc] using hstep
  obtain ⟨request, phase, subject, outcome⟩ := c
  obtain rfl : request = .createBuyerInfo sub realName nationalId := hrequest
  -- the request is where the step put it
  have hset : ∀ {d : AccountCall}, w'.calls = w.calls.set i d → d = c' := by
    intro d hcalls
    rw [hcalls, List.getElem?_set_self hi] at hc'
    exact Option.some.inj hc'
  cases phase with
  | arrived =>
    obtain rfl := Option.some.inj hadvance
    rw [← hset rfl]
    simp only [AccountCall.arrive, AccountCall.authenticated]
    split
    · trivial
    · rename_i r hr
      rcases AccountDb.currentUser_eq_error hr with rfl | rfl <;> trivial
  | inserting username hashedPassword =>
    obtain rfl := Option.some.inj hadvance
    rw [← hset rfl]
    simp only [AccountDb.createUser]
    split <;> trivial
  | issuing user =>
    simp only [AccountWorld.advance] at hadvance
    split at hadvance
    · cases hadvance
    · split at hadvance
      · obtain rfl := Option.some.inj hadvance
        rw [← hset rfl]
        trivial
      · obtain rfl := Option.some.inj hadvance
        rw [← hset rfl]
        trivial
  | revoking user =>
    obtain rfl := Option.some.inj hadvance
    rw [← hset rfl]
    trivial
  | checking =>
    obtain rfl := Option.some.inj hadvance
    rw [← hset rfl]
    simp only [AccountCall.check]
    split
    · rename_i hown
      have hex : ∃ b ∈ w.db.buyers, b.user = sub := by simpa using hown
      exact hex
    · split <;> trivial
  | storing pii =>
    obtain rfl := Option.some.inj hadvance
    rw [← hset rfl]
    rcases w.db.createBuyerInfo_cases sub realName pii (cfg.lookupHash nationalId) draw.hashIndexFirst with
      ⟨-, -, hout⟩ | ⟨-, ⟨hex, hreply⟩ | ⟨hex, hreply⟩ | hreply⟩
    · rw [hout]
      exact ⟨_, List.mem_append_right _ (List.mem_singleton.2 rfl), rfl, rfl, rfl, rfl⟩
    · rw [hreply]
      exact hex
    · rw [hreply]
      exact hex
    · rw [hreply]
      trivial
  | answering reply => cases hopen
  | _ => cases hadvance

/-- No user has two records and no national id is with two users, at any time.  Every answer to a registration
is true when it is decided.  A record stays until an erasure of its user has committed, so whoever has a
national id that was another user's has it after that commit. -/
theorem one_card_one_account {acts : List AccountAct} {w₀ : AccountWorld} (hstart : w₀.Start)
    (hbefore : exec (AccountWorld.step cfg) w₀ acts = some w) :
    w.db.buyers.Pairwise BuyerInfo.Differ ∧
    (∀ (i : Nat) (draw : AccountDraw) (v : AccountWorld) (c c' : AccountCall) (sub : UserId)
      (realName nationalId : String), w.step cfg (.run i draw) = some v → w.calls[i]? = some c →
      c.request = .createBuyerInfo sub realName nationalId →
        c.phase.settled = false → v.calls[i]? = some c' → c'.phase.Truthful cfg w.db v.db sub realName nationalId) ∧
    ∀ acts' v, exec (AccountWorld.step cfg) w acts' = some v → ∀ b ∈ w.db.buyers,
      (∃ c ∈ v.calls, ∃ x : User, c.outcome = some (.erased x) ∧ x.id = b.user) ∨
        (∃ b' ∈ v.db.buyers, b.Same b') ∧ ∀ b' ∈ v.db.buyers, b'.lookupHash = b.lookupHash → b'.user = b.user := by
  have hinv : ∀ {v : AccountWorld}, v.Recorded ∧ v.Traced → ∀ {as : List AccountAct} {v' : AccountWorld},
      exec (AccountWorld.step cfg) v as = some v' → v'.Recorded ∧ v'.Traced :=
    fun hv _ _ hrun => exec_invariant (C := fun _ _ => True) (I := fun v : AccountWorld => v.Recorded ∧ v.Traced)
      (fun _ _ _ _ hs h => ⟨h.1.step hs, (h.2.step hs).2⟩) hv (.of_forall fun _ _ _ => trivial) hrun
  have hw := hinv ⟨.start hstart, .start hstart⟩ hbefore
  refine ⟨hw.1.rows, fun i draw v c c' sub realName nationalId hs hc hrequest hopen hc' => ?_,
    fun acts' v hrun b hb => ?_⟩
  · exact AccountWorld.truthful_step hs hc hrequest hopen hc'
  have hkept : v.KeepsRecord b := by
    have hall : (v.Recorded ∧ v.Traced) ∧ v.KeepsRecord b :=
      exec_invariant (C := fun _ _ => True) (I := fun v : AccountWorld => (v.Recorded ∧ v.Traced) ∧ v.KeepsRecord b)
        (fun _ _ _ _ hs h => ⟨⟨h.1.1.step hs, (h.1.2.step hs).2⟩, h.2.step h.1.1 h.1.2.sound h.1.2.chained hs⟩)
        ⟨hw, .inl ⟨b, hb, rfl, rfl, rfl⟩⟩ (.of_forall fun _ _ _ => trivial) hrun
    exact hall.2
  rcases hkept with ⟨x, hx, hsame⟩ | herased
  · refine .inr ⟨⟨x, hx, hsame⟩, fun b' hb' hhash => ?_⟩
    by_cases hne : b' = x
    · rw [hne, hsame.2.1]
    · exact absurd (hhash.trans hsame.2.2) (((hinv hw hrun).1.rows.forall hb' hx hne).2.2)
  · exact .inl herased

/-- Two registrations with one national id that both find no record: the second is told that it is taken, and
after the erasure of the first user has committed it is stored, though that erasure is never answered. -/
theorem one_card_one_account_race :
    ∃ w v, exec (AccountWorld.step .sampled) seededAccounts
        [.receive (.createBuyerInfo 2 "Alice" "A123456789"),
          .receive (.createBuyerInfo 1 "Boss" "A123456789"), .run 0 .sampled, .run 1 .sampled, .run 0 .sampled,
          .run 1 .sampled, .run 0 .sampled, .run 1 .sampled] = some w ∧
      exec (AccountWorld.step .sampled) w
        [.receive (.erase 1 2), .run 2 .sampled, .run 2 .sampled, .run 2 .sampled, .run 2 .sampled, .run 2 .sampled,
          .die 2, .receive (.createBuyerInfo 1 "Boss" "A123456789"), .run 3 .sampled, .run 3 .sampled,
            .run 3 .sampled] = some v ∧
      (w.calls.map AccountCall.outcome) = [some (.buyerCreated 1), some .nationalIdTaken] ∧
      (v.db.buyers.map fun b => (b.row, b.user)) = [(2, 1)] ∧
      (∃ c ∈ v.calls, ∃ x : User, c.outcome = some (.erased x) ∧ x.id = 2) := by
  obtain ⟨w, hw, hp⟩ := exec_any (AccountWorld.step .sampled) seededAccounts
    [.receive (.createBuyerInfo 2 "Alice" "A123456789"), .receive (.createBuyerInfo 1 "Boss" "A123456789"),
      .run 0 .sampled, .run 1 .sampled, .run 0 .sampled, .run 1 .sampled, .run 0 .sampled, .run 1 .sampled]
    (fun w => (w.calls.map AccountCall.outcome) = [some (.buyerCreated 1), some .nationalIdTaken] ∧
      (w.db.buyers.map fun b => (b.user, b.lookupHash)) = [(2, encodeUtf8 "A123456789")] ∧
      (exec (AccountWorld.step .sampled) w
        [.receive (.erase 1 2), .run 2 .sampled, .run 2 .sampled, .run 2 .sampled, .run 2 .sampled, .run 2 .sampled,
          .die 2, .receive (.createBuyerInfo 1 "Boss" "A123456789"), .run 3 .sampled, .run 3 .sampled,
          .run 3 .sampled]).any fun v =>
        (v.db.buyers.map fun b => (b.row, b.user)) = [(2, 1)]) (by decide +kernel)
  rw [decide_eq_true_eq] at hp
  obtain ⟨hphases, hrecord, hafter⟩ := hp
  obtain ⟨v, hv, hrows⟩ := (Option.any_eq_true ..).1 hafter
  rw [decide_eq_true_eq] at hrows
  obtain ⟨b, hb, huser⟩ : ∃ b ∈ w.db.buyers, b.user = 2 := by
    have hmem : ((2, encodeUtf8 "A123456789") : UserId × Bytes) ∈ w.db.buyers.map fun b =>
        (b.user, b.lookupHash) := by
      rw [hrecord]
      exact List.mem_singleton.2 rfl
    obtain ⟨b, hb, heq⟩ := List.mem_map.1 hmem
    exact ⟨b, hb, congrArg Prod.fst heq⟩
  obtain ⟨-, -, hkept⟩ := one_card_one_account seededAccounts_start hw
  refine ⟨w, v, hw, hv, hphases, hrows, ?_⟩
  rcases hkept _ v hv b hb with ⟨c, hc, x, hx, hid⟩ | ⟨⟨b', hb', hsame⟩, -⟩
  · exact ⟨c, hc, x, hx, hid.trans huser⟩
  · -- no record of the first user is left
    have hmem : (b'.row, b'.user) ∈ v.db.buyers.map fun b => (b.row, b.user) := List.mem_map.2 ⟨b', hb', rfl⟩
    rw [hrows, List.mem_singleton, Prod.mk.injEq] at hmem
    have hfirst : b'.user = 2 := hsame.2.1.symm.trans huser
    exact absurd (hmem.2.symm.trans hfirst) (by decide)

end Records

end Ticketing
