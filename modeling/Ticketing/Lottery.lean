import Mathlib.Data.List.Sort
import Ticketing.AdmissionCutoff

/-!
# The draw depends on the salt and on who registered

`register` makes sure that there is a salt (`SET NX`, then `GET`) and adds the user with a salted hash as
score (`ZADD NX`); `setup` only makes sure of the salt.  Any number of such calls run at once, also several
for one user, and each may stop at any point.

A salt once written stays, every call that goes on has read that salt, and so the score of an entry is a
function of the user alone: neither the order nor the number of the registrations has a say in the draw
(`draw_independent_of_timing`).
-/

namespace Ticketing

open Exec Ranking

namespace Draw

variable {d d' : Draw}

theorem has_iff {user : UserId} : d.has user = true ↔ ∃ e ∈ d, e.user = user := by simp [has]

theorem has_zaddNx (e : DrawEntry) (user : UserId) : (d.zaddNx e).has user = true ↔ d.has user = true ∨
    user = e.user := by
  unfold zaddNx
  split
  · rename_i hhas
    refine ⟨.inl, ?_⟩
    rintro (h | rfl)
    · exact h
    · exact hhas
  · rw [has_iff, has_iff]
    simp only [List.mem_append, List.mem_singleton, or_and_right, exists_or, exists_eq_left]
    rw [eq_comm (a := user)]

theorem mem_zaddNx {e e' : DrawEntry} (h : e' ∈ d.zaddNx e) : e' ∈ d ∨ e' = e := by
  unfold zaddNx at h
  split at h
  · exact .inl h
  · simpa using h

theorem Distinct.zaddNx (hd : d.Distinct) (e : DrawEntry) : (d.zaddNx e).Distinct := by
  unfold Draw.zaddNx
  split
  · exact hd
  · rename_i hnot
    rw [Distinct, List.map_append, List.map_singleton, List.nodup_append]
    refine ⟨hd, List.nodup_singleton _, ?_⟩
    rintro u hu v hv rfl
    obtain ⟨e', he', heq⟩ := List.mem_map.1 hu
    exact hnot (has_iff.2 ⟨e', he', heq.trans (List.mem_singleton.1 hv)⟩)

/-- `ZSCORE` -/
def zscore (d : Draw) (user : UserId) : Option Nat := (d.find? fun e => e.user == user).map DrawEntry.score

/-- `ZRANGE 0 -1`: the members in the order of the sorted set. -/
def zrange (d : Draw) : List UserId := (d.insertionSort fun a b => b.before a = false).map DrawEntry.user

/-- `ZADD NX` changes no score. -/
theorem zscore_zaddNx {user : UserId} {n : Nat} (h : d.zscore user = some n) (e : DrawEntry) :
    (d.zaddNx e).zscore user = some n := by
  unfold zaddNx
  split
  · exact h
  · obtain ⟨e', he', rfl⟩ := Option.map_eq_some_iff.1 h
    rw [zscore, List.find?_append, he']
    rfl

/-- The ranks are those of the entries, however the entries are kept. -/
theorem zrank_perm (hd : d.Distinct) (hd' : d'.Distinct) (h : d.Perm d') (user : UserId) :
    d.zrank user = d'.zrank user := by
  by_cases huser : d.has user = true
  · obtain ⟨e, he, rfl⟩ := has_iff.1 huser
    rw [zrank_of_mem hd he, zrank_of_mem hd' (h.mem_iff.1 he), rank_perm h]
  · have hnone : ∀ x : Draw, x.has user ≠ true → x.zrank user = none := by
      intro x hx
      by_contra hsome
      obtain ⟨r, hr⟩ := Option.ne_none_iff_exists'.1 hsome
      exact hx (has_iff.2 (exists_of_zrank hr))
    rw [hnone d huser, hnone d' fun h' => huser (has_iff.2 ?_)]
    obtain ⟨e, he, heq⟩ := has_iff.1 h'
    exact ⟨e, h.mem_iff.2 he, heq⟩

private theorem notBefore_trans {a b c : DrawEntry} (hab : b.before a = false) (hbc : c.before b = false) :
    c.before a = false := by
  by_contra h
  have hca : c.before a = true := by simpa using h
  by_cases heq : a = b
  · rw [heq, hbc] at hca
    cases hca
  · -- `a` is before `b`, so `c` would be
    have hlt := (DrawEntry.before_total heq).resolve_right (by simp [hab])
    rw [DrawEntry.before_trans hca hlt] at hbc
    cases hbc

instance : IsTrans DrawEntry fun a b => b.before a = false := ⟨fun _ _ _ => notBefore_trans⟩

instance : Std.Total fun a b : DrawEntry => b.before a = false where
  total a b := by
    by_contra h
    rw [not_or, Bool.not_eq_false, Bool.not_eq_false] at h
    have hself := DrawEntry.before_trans h.1 h.2
    simp [DrawEntry.before] at hself

/-- The order of the members is that of the entries, however the entries are kept. -/
theorem zrange_perm (h : d.Perm d') : d.zrange = d'.zrange := by
  have hsort : d.insertionSort (fun a b => b.before a = false) = d'.insertionSort fun a b => b.before a = false := by
    refine List.Perm.eq_of_pairwise (fun a b _ _ hab hba => ?_) (List.pairwise_insertionSort _ _)
      (List.pairwise_insertionSort _ _)
      ((List.perm_insertionSort _ d).trans (h.trans (List.perm_insertionSort _ d').symm))
    by_contra hne
    rcases DrawEntry.before_total hne with hlt | hlt
    · rw [hlt] at hba
      cases hba
    · rw [hlt] at hab
      cases hab
  rw [zrange, zrange, hsort]

end Draw

/-! ### Registrations -/

/-- The point a `register` or a `setup` has reached. -/
inductive RegisterPhase where
  /-- `_ensure_salt`: about to set the salt, … -/
  | salting
  /-- … and to read it. -/
  | readingSalt
  | adding (salt : String)
  | done
deriving DecidableEq

/-- A running `register`, or a `setup`, which has no user. -/
structure Registration where
  user : Option UserId
  phase : RegisterPhase := .salting
deriving DecidableEq

/-- The keys of the waiting room of one event, and the calls that work on them. -/
structure Lottery where
  salt : Option String := none
  draw : Draw := []
  calls : List Registration := []
deriving DecidableEq

inductive LotteryAct where
  | register (user : UserId)
  | setup
  /-- The next command of a call; `fresh` is what `secrets.token_hex` returns there. -/
  | advance (i : Nat) (fresh : String)
deriving DecidableEq

namespace Lottery

def begin (l : Lottery) (user : Option UserId) : Lottery := { l with calls := l.calls ++ [{ user }] }

def setPhase (l : Lottery) (i : Nat) (call : Registration) (phase : RegisterPhase) : Lottery :=
  { l with calls := l.calls.set i { call with phase } }

/-- The next command of the call `i`; `score` is `_score`. -/
def advance (score : EventId → UserId → String → Nat) (event : EventId) (l : Lottery) (i : Nat) (fresh : String)
    (call : Registration) : Option Lottery :=
  match call.phase with
  | .salting => some { l.setPhase i call .readingSalt with salt := l.salt.or (some fresh) }
  | .readingSalt => l.salt.map fun salt => l.setPhase i call (if call.user = none then .done else .adding salt)
  | .adding salt =>
    call.user.map fun user =>
      { l.setPhase i call .done with draw := l.draw.zaddNx { user, score := score event user salt } }
  | .done => none

def step (score : EventId → UserId → String → Nat) (event : EventId) (l : Lottery) : LotteryAct → Option Lottery
  | .register user => some (l.begin (some user))
  | .setup => some (l.begin none)
  | .advance i fresh => l.calls[i]?.bind (l.advance score event i fresh)

/-- Some registration of the user has run to its end. -/
def Registered (l : Lottery) (user : UserId) : Prop := ∃ call ∈ l.calls, call.user = some user ∧ call.phase = .done

/-! ### One salt -/

/-- Every call past the first command relies on the salt that is written, and every score comes from it. -/
structure Salted (score : EventId → UserId → String → Nat) (event : EventId) (l : Lottery) : Prop where
  distinct : l.draw.Distinct
  adding : ∀ call ∈ l.calls, ∀ salt, call.phase = .adding salt → l.salt = some salt ∧ call.user.isSome = true
  score : ∀ e ∈ l.draw, ∃ salt, l.salt = some salt ∧ e.score = score event e.user salt
  registered : ∀ user, l.draw.has user = true ↔ l.Registered user

section Steps

variable {score : EventId → UserId → String → Nat} {event : EventId} {l l' : Lottery} {a : LotteryAct}

/-- What a step can be. -/
theorem step_cases (h : step score event l a = some l') :
    (∃ user, l' = l.begin user) ∨
    ∃ i call, l.calls[i]? = some call ∧
      ((∃ fresh, call.phase = .salting ∧
          l' = { l.setPhase i call .readingSalt with salt := l.salt.or (some fresh) }) ∨
      (∃ salt, call.phase = .readingSalt ∧ l.salt = some salt ∧
        l' = l.setPhase i call (if call.user = none then .done else .adding salt)) ∨
      ∃ salt user, call.phase = .adding salt ∧ call.user = some user ∧
        l' = { l.setPhase i call .done with draw := l.draw.zaddNx { user, score := score event user salt } }) := by
  cases a with
  | register user => exact .inl ⟨some user, (Option.some.inj h).symm⟩
  | setup => exact .inl ⟨none, (Option.some.inj h).symm⟩
  | advance i fresh =>
    obtain ⟨call, hcall, h⟩ := Option.bind_eq_some_iff.1 h
    refine .inr ⟨i, call, hcall, ?_⟩
    unfold advance at h
    cases hp : call.phase with
    | salting =>
      rw [hp] at h
      exact .inl ⟨fresh, rfl, (Option.some.inj h).symm⟩
    | readingSalt =>
      rw [hp] at h
      obtain ⟨salt, hsalt, rfl⟩ := Option.map_eq_some_iff.1 h
      exact .inr (.inl ⟨salt, rfl, hsalt, rfl⟩)
    | adding salt =>
      rw [hp] at h
      obtain ⟨user, huser, rfl⟩ := Option.map_eq_some_iff.1 h
      exact .inr (.inr ⟨salt, user, rfl, huser, rfl⟩)
    | done =>
      rw [hp] at h
      cases h

theorem mem_setPhase {i : Nat} {call c : Registration} {phase : RegisterPhase}
    (h : c ∈ (l.setPhase i call phase).calls) :
    c ∈ l.calls ∨ c = { call with phase } :=
  List.mem_or_eq_of_mem_set h

/-- A call that was not at its end takes a step. -/
theorem registered_setPhase {i : Nat} {call : Registration} (phase : RegisterPhase) (hi : l.calls[i]? = some call)
    (hnot : call.phase ≠ .done) (user : UserId) :
    (l.setPhase i call phase).Registered user ↔ l.Registered user ∨ phase = .done ∧ call.user = some user := by
  constructor
  · rintro ⟨c, hc, huser, hdone⟩
    rcases mem_setPhase hc with hc | rfl
    · exact .inl ⟨c, hc, huser, hdone⟩
    · exact .inr ⟨hdone, huser⟩
  · rintro (⟨c, hc, huser, hdone⟩ | ⟨rfl, huser⟩)
    · obtain ⟨j, hj⟩ := List.mem_iff_getElem?.1 hc
      have hne : i ≠ j := by
        rintro rfl
        rw [hi, Option.some.injEq] at hj
        exact hnot (hj ▸ hdone)
      exact ⟨c, List.mem_iff_getElem?.2 ⟨j, by rw [setPhase, List.getElem?_set_ne hne, hj]⟩, huser, hdone⟩
    · have hlt : i < l.calls.length := (List.getElem?_eq_some_iff.1 hi).1
      exact ⟨{ call with phase := .done }, List.mem_set hlt _, huser, rfl⟩

namespace Salted

/-- A salt that is there stays. -/
private theorem adding_mono (h : Salted score event l) {fresh : String} {c : Registration} (hc : c ∈ l.calls)
    {salt : String}
    (hp : c.phase = .adding salt) : l.salt.or (some fresh) = some salt ∧ c.user.isSome = true := by
  obtain ⟨hsalt, huser⟩ := h.adding c hc salt hp
  exact ⟨by rw [hsalt]; rfl, huser⟩

theorem step (h : Salted score event l) (hs : Lottery.step score event l a = some l') : Salted score event l' := by
  rcases step_cases hs with ⟨user, rfl⟩ |
    ⟨i, call, hi, ⟨fresh, hp, rfl⟩ | ⟨salt, hp, hsalt, rfl⟩ | ⟨salt, user, hp, huser, rfl⟩⟩
  · refine ⟨h.distinct, fun c hc salt hp => ?_, h.score, fun u => ?_⟩
    · rcases List.mem_append.1 hc with hc | hc
      · exact h.adding c hc salt hp
      · rw [List.mem_singleton.1 hc] at hp
        cases hp
    · rw [show (l.begin user).draw = l.draw from rfl, h.registered u]
      constructor
      · rintro ⟨c, hc, hrest⟩
        exact ⟨c, List.mem_append_left _ hc, hrest⟩
      · rintro ⟨c, hc, huser, hdone⟩
        rcases List.mem_append.1 hc with hc | hc
        · exact ⟨c, hc, huser, hdone⟩
        · rw [List.mem_singleton.1 hc] at hdone
          cases hdone
  · refine ⟨h.distinct, fun c hc salt hp' => ?_, fun e he => ?_, fun u => ?_⟩
    · rcases mem_setPhase hc with hc | rfl
      · exact h.adding_mono hc hp'
      · cases hp'
    · obtain ⟨salt, hsalt, hscore⟩ := h.score e he
      exact ⟨salt, by rw [hsalt]; rfl, hscore⟩
    · have hreg := registered_setPhase .readingSalt hi (by simp [hp]) u
      simp only [reduceCtorEq, false_and, or_false] at hreg
      exact (h.registered u).trans hreg.symm
  · refine ⟨h.distinct, fun c hc salt' hp' => ?_, h.score, fun u => ?_⟩
    · rcases mem_setPhase hc with hc | rfl
      · exact h.adding c hc salt' hp'
      · by_cases hu : call.user = none
        · simp [hu] at hp'
        · simp only [hu, if_false, RegisterPhase.adding.injEq] at hp'
          exact ⟨hp' ▸ hsalt, Option.isSome_iff_ne_none.2 hu⟩
    · have hreg := registered_setPhase (if call.user = none then .done else .adding salt) hi (by simp [hp]) u
      refine (h.registered u).trans (hreg.trans ⟨?_, .inl⟩).symm
      rintro (hr | ⟨hdone, hu⟩)
      · exact hr
      · simp [hu] at hdone
  · obtain ⟨hsalt, -⟩ := h.adding call (List.mem_of_getElem? hi) salt hp
    refine ⟨h.distinct.zaddNx _, fun c hc salt' hp' => ?_, fun e he => ?_, fun u => ?_⟩
    · rcases mem_setPhase hc with hc | rfl
      · exact h.adding c hc salt' hp'
      · cases hp'
    · rcases Draw.mem_zaddNx he with he | rfl
      · exact h.score e he
      · exact ⟨salt, hsalt, rfl⟩
    · have hreg := registered_setPhase .done hi (by simp [hp]) u
      show (l.draw.zaddNx _).has u = true ↔ (l.setPhase i call .done).Registered u
      rw [Draw.has_zaddNx, hreg, h.registered u, huser]
      simp [eq_comm]

theorem start : Salted score event {} where
  distinct := List.nodup_nil
  adding c hc := by cases hc
  score e he := by cases he
  registered u := ⟨fun h => (by cases h), fun ⟨c, hc, _⟩ => (by cases hc)⟩

/-- The entries are the users who have registered, with the scores the salt gives them. -/
theorem mem_draw_iff (h : Salted score event l) {salt : String} (hsalt : l.salt = some salt) (e : DrawEntry) :
    e ∈ l.draw ↔ l.Registered e.user ∧ e.score = score event e.user salt := by
  have hscore : ∀ e ∈ l.draw, e.score = score event e.user salt := by
    intro e he
    obtain ⟨salt', hsalt', hscore⟩ := h.score e he
    rw [hsalt, Option.some.injEq] at hsalt'
    rw [hscore, hsalt']
  rw [← h.registered]
  refine ⟨fun he => ⟨Draw.has_iff.2 ⟨e, he, rfl⟩, hscore e he⟩, ?_⟩
  rintro ⟨hhas, heq⟩
  obtain ⟨e', he', huser⟩ := Draw.has_iff.1 hhas
  have hsame : e' = e := by
    have hs' := hscore e' he'
    cases e; cases e'
    simp only at huser heq hs'
    rw [huser] at hs'
    rw [huser, hs', heq]
  exact hsame ▸ he'

/-- The draw is a function of the salt and of who has registered. -/
theorem draw_perm (h : Salted score event l) (h' : Salted score event l') (hsalt : l.salt = l'.salt)
    (hsame : ∀ u, l.Registered u ↔ l'.Registered u) : l.draw.Perm l'.draw := by
  refine (List.perm_ext_iff_of_nodup h.distinct.nodup h'.distinct.nodup).2 fun e => ?_
  cases hs : l.salt with
  | some salt => rw [h.mem_draw_iff hs, h'.mem_draw_iff (hsalt ▸ hs), hsame]
  | none =>
    -- without a salt nobody is in the draw
    constructor
    · intro he
      obtain ⟨salt, hsome, -⟩ := h.score e he
      rw [hs] at hsome
      cases hsome
    · intro he
      obtain ⟨salt, hsome, -⟩ := h'.score e he
      rw [← hsalt, hs] at hsome
      cases hsome

end Salted

/-- A score once there stays. -/
theorem zscore_step {user : UserId} {n : Nat} (h : l.draw.zscore user = some n)
    (hs : step score event l a = some l') :
    l'.draw.zscore user = some n := by
  rcases step_cases hs with ⟨-, rfl⟩ | ⟨i, call, -, ⟨fresh, -, rfl⟩ | ⟨salt, -, -, rfl⟩ | ⟨salt, u, -, -, rfl⟩⟩
  · exact h
  · exact h
  · exact h
  · exact Draw.zscore_zaddNx h _

end Steps

/-! ### Two runs -/

/-- The draw cannot be gamed by timing: two runs of registrations after which the same users have registered
and in which the same salt has won end in the same order with the same ranks, whatever the order and the
number of the registrations; and in every run, whatever comes later, a score that is there stays. -/
theorem draw_independent_of_timing {score : EventId → UserId → String → Nat} {event : EventId}
    {acts acts' : List LotteryAct}
    {l l' : Lottery} (h : exec (step score event) {} acts = some l) (h' : exec (step score event) {} acts' = some l')
    (hsalt : l.salt = l'.salt) (hsame : ∀ user, l.Registered user ↔ l'.Registered user) :
    l.draw.zrange = l'.draw.zrange ∧ (∀ user, l.draw.zrank user = l'.draw.zrank user) ∧
      ∀ more later, exec (step score event) l more = some later →
        ∀ user n, l.draw.zscore user = some n → later.draw.zscore user = some n := by
  have halways : ∀ acts, Along (step score event) (fun _ _ => True) {} acts := fun acts =>
    Along.of_forall fun _ _ _ => trivial
  have hinv : Salted score event l := exec_invariant (fun _ _ _ _ hs hi => hi.step hs) .start (halways acts) h
  have hinv' : Salted score event l' := exec_invariant (fun _ _ _ _ hs hi => hi.step hs) .start (halways acts') h'
  have hperm := hinv.draw_perm hinv' hsalt hsame
  refine ⟨Draw.zrange_perm hperm, Draw.zrank_perm hinv.distinct hinv'.distinct hperm,
    fun more later hlater user n hscore => ?_⟩
  exact exec_invariant (C := fun _ _ => True) (I := fun t => t.draw.zscore user = some n)
    (fun _ _ _ _ hs hi => zscore_step hi hs) hscore
    (Along.of_forall fun _ _ _ => trivial) hlater

/-- The salt that wins. -/
private def winner : String := "9f2c41d07be6583ac1e4f0925d7b38a6"

/-- The first 48 bits of the SHA-256 of `1:3:salt` and `1:8:salt`. -/
private def sampleScore (_ : EventId) (user : UserId) (salt : String) : Nat :=
  if salt = winner then if user = 3 then 124373519907684 else 270489982157896 else 0

/-- Two first registrations race for the salt; the one that loses the race enters the draw first. -/
private def raced : List LotteryAct :=
  [.register 3, .register 8, .advance 0 winner, .advance 1 "5", .advance 1 "", .advance 1 "",
    .advance 0 "", .advance 0 ""]

/-- The salt is there from `setup`; user 3 registers twice, before and after user 8. -/
private def repeated : List LotteryAct :=
  [.setup, .advance 0 winner, .advance 0 "", .register 3, .advance 1 "6", .advance 1 "", .advance 1 "",
    .register 8, .advance 2 "7",
    .advance 2 "", .advance 2 "", .register 3, .advance 3 "8", .advance 3 "", .advance 3 ""]

private def afterRace : Lottery where
  salt := some winner
  draw := [⟨8, 270489982157896⟩, ⟨3, 124373519907684⟩]
  calls := [⟨some 3, .done⟩, ⟨some 8, .done⟩]

private def afterRepeats : Lottery where
  salt := some winner
  draw := [⟨3, 124373519907684⟩, ⟨8, 270489982157896⟩]
  calls := [⟨none, .done⟩, ⟨some 3, .done⟩, ⟨some 8, .done⟩, ⟨some 3, .done⟩]

theorem draw_independent_of_timing_race :
    exec (step sampleScore 1) {} raced = some afterRace ∧ exec (step sampleScore 1) {} repeated = some afterRepeats ∧
      afterRace.draw.zrange = [3, 8] ∧ afterRace.draw.zrange = afterRepeats.draw.zrange ∧
      ∀ user, afterRace.draw.zrank user = afterRepeats.draw.zrank user := by
  have hrace : exec (step sampleScore 1) {} raced = some afterRace := by decide +kernel
  have hrepeats : exec (step sampleScore 1) {} repeated = some afterRepeats := by decide +kernel
  have hsame : ∀ user, afterRace.Registered user ↔ afterRepeats.Registered user := by
    intro user
    simp [Registered, afterRace, afterRepeats, or_comm]
  obtain ⟨horder, hranks, -⟩ := draw_independent_of_timing hrace hrepeats rfl hsame
  exact ⟨hrace, hrepeats, by decide, horder, hranks⟩

end Lottery

end Ticketing
