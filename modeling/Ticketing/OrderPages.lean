import Mathlib.Data.Prod.Lex
import Mathlib.Data.String.Basic
import Ticketing.Base.Exec
import Ticketing.Base.Keyset
import Ticketing.Base.Text
import Ticketing.SeatDrift

/-!
# The pages of an order history

`list_my_orders` with `list_orders_for_user` and its cursors.  Moments are the elements of any linear order;
how they are written, and the transport encoding of a cursor, are parameters (`CursorCodec`).

A client follows `next_cursor` while orders are inserted.  What it has seen and what is below its cursor is
the listing of the orders there were at the first page (`Walked`), so the pages give this listing and nothing
else (`history_walk`).
-/

namespace Ticketing

open Exec Keyset

/-- The columns of an order that the listing reads. -/
structure OrderRow (T : Type*) where
  id : Int
  userId : Int
  createdAt : T
deriving DecidableEq

/-- `isoformat`, `datetime.fromisoformat`, `urlsafe_b64encode` and `urlsafe_b64decode` on texts; `none` is a
`ValueError`. -/
structure CursorCodec (T : Type*) where
  isoformat : T → String
  fromisoformat : String → Option T
  b64encode : String → String
  b64decode : String → Option String

/-- Reading inverts writing, and the empty text is encoded as such. -/
structure CursorCodec.Lawful {T : Type*} (codec : CursorCodec T) : Prop where
  iso : ∀ t, codec.fromisoformat (codec.isoformat t) = some t
  b64 : ∀ s, codec.b64decode (codec.b64encode s) = some s
  empty : codec.b64encode "" = ""

/-- The 422 response `"invalid cursor"`. -/
inductive PageError where
  | invalidCursor
deriving DecidableEq

structure OrderPage (T : Type*) where
  items : List (OrderRow T)
  nextCursor : Option String
deriving DecidableEq

section Pages

variable {T : Type*} [LinearOrder T]

def OrderRow.key (o : OrderRow T) : T ×ₗ Int := toLex (o.createdAt, o.id)

/-- `list_orders_for_user` -/
def listOrdersForUser (rows : List (OrderRow T)) (userId : Int) (limit : Nat) (cursor : Option (T × Int)) :
    List (OrderRow T) :=
  (descending OrderRow.key (below OrderRow.key (cursor.map toLex)
    (rows.filter fun o => o.userId = userId))).take limit

/-- `_encode_cursor` -/
def encodeCursor (codec : CursorCodec T) (o : OrderRow T) : String :=
  codec.b64encode (codec.isoformat o.createdAt ++ "|" ++ o.id.repr)

/-- `_decode_cursor` -/
def decodeCursor (codec : CursorCodec T) (token : String) : Except PageError (T × Int) :=
  (((codec.b64decode token).bind (Text.rsplit '|')).bind fun parts =>
    (codec.fromisoformat parts.1).bind fun createdAt => (readInt parts.2).map fun id => (createdAt, id)).elim
      (.error .invalidCursor) .ok

/-- `list_my_orders` -/
def listMyOrders (codec : CursorCodec T) (rows : List (OrderRow T)) (userId : Int) (limit : Nat)
    (cursor : Option String) :
    Except PageError (OrderPage T) :=
  -- an empty cursor counts as none
  ((cursor.filter (· ≠ "")).elim (.ok none) fun token => (decodeCursor codec token).map some).map fun decoded =>
    let rows := listOrdersForUser rows userId (limit + 1) decoded
    let page := rows.take limit
    { items := page, nextCursor := if limit < rows.length then page.getLast?.map (encodeCursor codec) else none }

/-! ### Cursors -/

variable {codec : CursorCodec T}

omit [LinearOrder T] in
theorem decodeCursor_encodeCursor (hcodec : codec.Lawful) (o : OrderRow T) :
    decodeCursor codec (encodeCursor codec o) = .ok (o.createdAt, o.id) := by
  have hsplit : Text.rsplit '|' (codec.isoformat o.createdAt ++ "|" ++ o.id.repr) = some
      (codec.isoformat o.createdAt, o.id.repr) :=
    Text.rsplit_append _ (notMem_intRepr o.id (by decide) (by decide))
  rw [decodeCursor, encodeCursor, hcodec.b64, Option.bind_some, hsplit, Option.bind_some, hcodec.iso,
    Option.bind_some, readInt_repr]
  rfl

omit [LinearOrder T] in
theorem encodeCursor_ne_empty (hcodec : codec.Lawful) (o : OrderRow T) : encodeCursor codec o ≠ "" := by
  intro h
  have hdecode := hcodec.b64 (codec.isoformat o.createdAt ++ "|" ++ o.id.repr)
  have hempty := hcodec.b64 ""
  rw [show codec.b64encode (codec.isoformat o.createdAt ++ "|" ++ o.id.repr) = "" from h] at hdecode
  rw [hcodec.empty, hdecode, Option.some.injEq] at hempty
  have := congrArg String.toList hempty
  simp at this

/-- The orders of the user below the one whose cursor is given, as far as the page goes. -/
theorem listMyOrders_eq (hcodec : codec.Lawful) (rows : List (OrderRow T)) (userId : Int) (limit : Nat)
    (last : Option (OrderRow T)) {listing : List (OrderRow T)}
    (hlisting : descending OrderRow.key
      (below OrderRow.key (last.map OrderRow.key) (rows.filter fun o => o.userId = userId)) = listing) :
    listMyOrders codec rows userId limit (last.map (encodeCursor codec)) = .ok {
      items := listing.take limit
      nextCursor := if limit < listing.length then (listing.take limit).getLast?.map (encodeCursor codec)
        else none } := by
  have hdecode : ((last.map (encodeCursor codec)).filter (· ≠ "")).elim (.ok none)
    (fun token => (decodeCursor codec token).map some) =
      .ok (last.map fun o => (o.createdAt, o.id)) := by
    cases last with
    | none => rfl
    | some o =>
      have hne : decide (encodeCursor codec o ≠ "") = true := decide_eq_true (encodeCursor_ne_empty hcodec o)
      simp only [Option.map_some, Option.filter_some, hne, if_true, Option.elim_some,
        decodeCursor_encodeCursor hcodec]
      rfl
  have hcursor : (last.map fun o : OrderRow T => (o.createdAt, o.id)).map toLex = last.map OrderRow.key := by
    rw [Option.map_map]
    rfl
  have hlen : limit < (listing.take (limit + 1)).length ↔ limit < listing.length := by
    rw [List.length_take]
    omega
  rw [listMyOrders, hdecode]
  simp only [Except.map, listOrdersForUser, hcursor, hlisting, List.take_take,
    Nat.min_eq_left (Nat.le_succ limit), hlen]

/-! ### Following the cursors -/

inductive WalkPoint where
  | begins
  | continues (token : String)
  /-- `next_cursor` was null. -/
  | ended
deriving DecidableEq

/-- The cursor of the next request, if there is one. -/
def WalkPoint.cursor : WalkPoint → Option (Option String)
  | .begins => some none
  | .continues token => some (some token)
  | .ended => none

/-- The table, and what a client has seen of it. -/
structure HistoryWalk (T : Type*) where
  rows : List (OrderRow T)
  point : WalkPoint := .begins
  seen : List (OrderRow T) := []
  pages : Nat := 0
deriving DecidableEq

inductive HistoryAct (T : Type*) where
  | insert (o : OrderRow T)
  | fetch
deriving DecidableEq

namespace HistoryWalk

def step (codec : CursorCodec T) (userId : Int) (limit : Nat) (w : HistoryWalk T) : HistoryAct T →
    Option (HistoryWalk T)
  | .insert o => some { w with rows := w.rows ++ [o] }
  | .fetch => w.point.cursor.bind fun cursor =>
      (listMyOrders codec w.rows userId limit cursor).toOption.map fun page =>
        { w with
          point := page.nextCursor.elim .ended .continues
          seen := w.seen ++ page.items
          pages := w.pages + 1 }

/-- Inserted orders have a new id, and those of the user come above the cursor the client holds. -/
def Above (codec : CursorCodec T) (userId : Int) (w : HistoryWalk T) : HistoryAct T → Prop
  | .insert o => (∀ r ∈ w.rows, r.id ≠ o.id) ∧ (o.userId = userId → w.point ≠ .begins ∧
      ∀ cursor ∈ w.point.cursor, ∀ token ∈ cursor, ∀ c ∈ (decodeCursor codec token).toOption, toLex c < o.key)
  | .fetch => True

/-- What was seen, and what is below the cursor, is the listing. -/
structure Walked (codec : CursorCodec T) (userId : Int) (limit : Nat) (listing : List (OrderRow T))
    (w : HistoryWalk T) : Prop where
  ids : (w.rows.map OrderRow.id).Nodup
  begins : w.point = .begins → w.seen = [] ∧ w.pages = 0 ∧
    descending OrderRow.key (w.rows.filter fun o => o.userId = userId) = listing
  continues : ∀ token, w.point = .continues token → ∃ init last, token = encodeCursor codec last ∧
    w.seen = init ++ [last] ∧
    listing = w.seen ++ descending OrderRow.key
    (below OrderRow.key (some last.key) (w.rows.filter fun o => o.userId = userId)) ∧
    w.seen.length = w.pages * limit ∧ w.pages * limit < listing.length
  ended : w.point = .ended → w.seen = listing ∧ (w.pages - 1) * limit ≤ listing.length

namespace Walked

variable {userId : Int} {limit : Nat} {listing : List (OrderRow T)} {w w' : HistoryWalk T}

theorem start {rows : List (OrderRow T)} (hids : (rows.map OrderRow.id).Nodup) :
    Walked codec userId limit (descending OrderRow.key (rows.filter fun o => o.userId = userId)) { rows } where
  ids := hids
  begins _ := ⟨rfl, rfl, rfl⟩
  continues token h := by cases h
  ended h := by cases h

/-- Distinct ids give distinct keys. -/
private theorem nodup_key (h : Walked codec userId limit listing w) :
    ((w.rows.filter fun o => o.userId = userId).map OrderRow.key).Nodup := by
  have hmap : (w.rows.map OrderRow.key).map (fun k => (ofLex k).2) = w.rows.map OrderRow.id := by
    rw [List.map_map]
    rfl
  have hkeys : (w.rows.map OrderRow.key).Nodup := List.Nodup.of_map _ (hmap ▸ h.ids)
  exact hkeys.sublist (List.filter_sublist.map _)

theorem insert (h : Walked codec userId limit listing w) (hcodec : codec.Lawful) {o : OrderRow T}
    (habove : Above codec userId w (.insert o)) : Walked codec userId limit listing
    { w with rows := w.rows ++ [o] } := by
  obtain ⟨hid, hkey⟩ := habove
  refine ⟨?_, fun hpoint => ?_, fun token hpoint => ?_, h.ended⟩
  · rw [List.map_append, List.map_singleton]
    refine h.ids.append (List.nodup_singleton _) fun id hmem hnew => ?_
    obtain ⟨r, hr, rfl⟩ := List.mem_map.1 hmem
    exact hid r hr (List.mem_singleton.1 hnew)
  · have huser : ¬o.userId = userId := fun huser => (hkey huser).1 hpoint
    rw [List.filter_append, List.filter_singleton, decide_eq_false huser, cond_false, List.append_nil]
    exact h.begins hpoint
  · obtain ⟨init, last, rfl, hseen, hlisting, hpages⟩ := h.continues token hpoint
    refine ⟨init, last, rfl, hseen, ?_, hpages⟩
    have hbelow : below OrderRow.key (some last.key) ((w.rows ++ [o]).filter fun o => o.userId = userId) =
        below OrderRow.key (some last.key) (w.rows.filter fun o => o.userId = userId) := by
      rw [List.filter_append, below, List.filter_append]
      by_cases huser : o.userId = userId
      · have hlt : last.key < o.key := by
          refine (hkey huser).2 (some (encodeCursor codec last)) ?_ _ rfl (last.createdAt, last.id) ?_
          · rw [show w.point = .continues (encodeCursor codec last) from hpoint]
            rfl
          · rw [decodeCursor_encodeCursor hcodec]
            rfl
        simp [below, huser, hlt.le]
      · simp [below, huser]
    rw [hbelow]
    exact hlisting

/-- One more page, from the cursor of `last` or from the beginning. -/
private theorem turn (h : Walked codec userId limit listing w) (hlimit : 1 ≤ limit) (last : Option (OrderRow T))
    {rest : List (OrderRow T)}
    (hrest : descending OrderRow.key
      (below OrderRow.key (last.map OrderRow.key) (w.rows.filter fun o => o.userId = userId)) = rest)
    (hlisting : listing = w.seen ++ rest) (hpages : w.seen.length = w.pages * limit) :
    Walked codec userId limit listing { w with
      point := (if limit < rest.length then (rest.take limit).getLast?.map (encodeCursor codec)
        else none).elim .ended .continues
      seen := w.seen ++ rest.take limit
      pages := w.pages + 1 } := by
  split
  · rename_i hmore
    have hlen : (rest.take limit).length = limit := by
      rw [List.length_take]
      omega
    obtain ⟨init, o, htake⟩ : ∃ init o, rest.take limit = init ++ [o] := by
      rcases List.eq_nil_or_concat' (rest.take limit) with hnil | hconcat
      · rw [hnil] at hlen
        simp at hlen
        omega
      · exact hconcat
    have hsplit : rest = init ++ o :: rest.drop limit := by
      rw [List.append_cons, ← htake, List.take_append_drop]
    have hbelow := descending_below h.nodup_key (hrest.trans hsplit)
    rw [htake, List.getLast?_concat]
    refine ⟨h.ids, fun hpoint => ?_, fun token hpoint => ?_, fun hpoint => ?_⟩
    · cases hpoint
    · refine ⟨w.seen ++ init, o, (WalkPoint.continues.inj hpoint).symm, (List.append_assoc ..).symm, ?_, ?_, ?_⟩
      · show listing = w.seen ++ (init ++ [o]) ++ descending OrderRow.key (below OrderRow.key (some o.key) _)
        rw [hbelow, hlisting]
        conv_lhs => rw [hsplit]
        simp
      · rw [List.length_append, ← htake, hlen, hpages, Nat.add_mul, Nat.one_mul]
      · rw [hlisting, List.length_append, hpages, Nat.add_mul, Nat.one_mul]
        omega
    · cases hpoint
  · rename_i hlast
    rw [List.take_of_length_le (Nat.not_lt.1 hlast)]
    refine ⟨h.ids, fun hpoint => ?_, fun token hpoint => ?_, fun _ => ⟨hlisting.symm, ?_⟩⟩
    · cases hpoint
    · cases hpoint
    · rw [hlisting, List.length_append, hpages, Nat.add_sub_cancel]
      omega

/-- The client can fetch the next page, unless it has all of them. -/
theorem fetch (h : Walked codec userId limit listing w) (hcodec : codec.Lawful) (hlimit : 1 ≤ limit)
    (hpoint : w.point ≠ .ended) :
    ∃ w', w.step codec userId limit .fetch = some w' ∧ Walked codec userId limit listing w' := by
  cases hp : w.point with
  | begins =>
    obtain ⟨hseen, hpages, hlisting⟩ := h.begins hp
    have hrest : descending OrderRow.key (below OrderRow.key ((none : Option (OrderRow T)).map OrderRow.key)
        (w.rows.filter fun o => o.userId = userId)) = listing := by
      rw [Option.map_none, below_none, hlisting]
    refine ⟨_, ?_, h.turn hlimit none hrest (by rw [hseen, List.nil_append])
      (by rw [hseen, hpages, Nat.zero_mul, List.length_nil])⟩
    simp only [step, hp, WalkPoint.cursor, Option.bind_some]
    rw [show (none : Option String) = (none : Option (OrderRow T)).map (encodeCursor codec) from rfl,
      listMyOrders_eq hcodec w.rows userId limit none hrest]
    rfl
  | continues token =>
    obtain ⟨init, last, rfl, -, hlisting, hpages, -⟩ := h.continues token hp
    refine ⟨_, ?_, h.turn hlimit (some last) rfl hlisting hpages⟩
    simp only [step, hp, WalkPoint.cursor, Option.bind_some]
    rw [show some (encodeCursor codec last) = (some last).map (encodeCursor codec) from rfl,
      listMyOrders_eq hcodec w.rows userId limit (some last) rfl]
    rfl
  | ended => exact absurd hp hpoint

theorem step (h : Walked codec userId limit listing w) (hcodec : codec.Lawful) (hlimit : 1 ≤ limit)
    {act : HistoryAct T} (habove : Above codec userId w act) (hstep : w.step codec userId limit act = some w') :
    Walked codec userId limit listing w' := by
  cases act with
  | insert o =>
    obtain rfl := Option.some.inj hstep
    exact h.insert hcodec habove
  | fetch =>
    have hpoint : w.point ≠ .ended := by
      intro hp
      simp [HistoryWalk.step, hp, WalkPoint.cursor] at hstep
    obtain ⟨w'', hw'', hwalked⟩ := h.fetch hcodec hlimit hpoint
    obtain rfl := Option.some.inj (hstep.symm.trans hw'')
    exact hwalked

end Walked

private theorem pages_eq {userId : Int} {limit : Nat} {rows : List (OrderRow T)} {acts : List (HistoryAct T)}
    {w : HistoryWalk T}
    (hrun : exec (step codec userId limit) { rows } acts = some w) : acts.count .fetch = w.pages := by
  refine exec_history (C := fun _ _ => True) (J := fun acts w => acts.count .fetch = w.pages) rfl ?_
    (Along.of_forall fun _ _ _ => trivial) hrun
  intro acts w act w' _ _ hstep hpages
  rw [List.count_append, hpages]
  cases act with
  | insert o =>
    obtain rfl := Option.some.inj hstep
    simp
  | fetch =>
    simp only [step, Option.bind_eq_some_iff, Option.map_eq_some_iff] at hstep
    obtain ⟨_, -, _, -, rfl⟩ := hstep
    simp

/-- Following `next_cursor` while orders are inserted above the cursor: a page can always be fetched until the
walk ends, which it does after one page more than the listing fills, and what is seen is the listing of the
orders at the beginning, in decreasing order of `(created_at, id)`, without repetition or gap.  A cursor is
read back as it was written. -/
theorem history_walk (hcodec : codec.Lawful) (userId : Int) (limit : Nat) (hlimit : 1 ≤ limit)
    (rows : List (OrderRow T)) (hids : (rows.map OrderRow.id).Nodup) :
    (∀ o : OrderRow T, decodeCursor codec (encodeCursor codec o) = .ok (o.createdAt, o.id)) ∧
    ∃ listing : List (OrderRow T), listing.Perm (rows.filter fun o => o.userId = userId) ∧
      (listing.Pairwise fun a b => b.createdAt < a.createdAt ∨ b.createdAt = a.createdAt ∧ b.id < a.id) ∧
      ∀ acts w, exec (step codec userId limit) { rows } acts = some w →
        Along (step codec userId limit) (Above codec userId) { rows } acts →
        w.seen <+: listing ∧ (w.point = .ended → w.seen = listing) ∧ acts.count .fetch ≤ listing.length / limit + 1 ∧
        (w.point ≠ .ended → ∃ w', w.step codec userId limit .fetch = some w') := by
  have hwalked : Walked codec userId limit _ { rows } := Walked.start hids
  refine ⟨decodeCursor_encodeCursor hcodec, descending OrderRow.key (rows.filter fun o => o.userId = userId),
    perm_descending _, ?_, fun acts w hrun habove => ?_⟩
  · refine (pairwise_descending hwalked.nodup_key).imp fun {a b} hab => ?_
    simpa [OrderRow.key, Prod.Lex.toLex_lt_toLex] using hab
  · have h := exec_invariant (fun _ _ _ hC hstep h => Walked.step h hcodec hlimit hC hstep) hwalked habove hrun
    have hpages := pages_eq hrun
    refine ⟨?_, fun hpoint => (h.ended hpoint).1, ?_, fun hpoint => ?_⟩
    · cases hpoint : w.point with
      | begins => exact (h.begins hpoint).1 ▸ List.nil_prefix
      | continues token =>
        obtain ⟨_, _, -, -, hlisting, -⟩ := h.continues token hpoint
        rw [hlisting]
        exact List.prefix_append ..
      | ended => exact (h.ended hpoint).1 ▸ List.prefix_rfl
    · rw [hpages, ← Nat.sub_le_iff_le_add, Nat.le_div_iff_mul_le hlimit]
      cases hpoint : w.point with
      | begins => simp [(h.begins hpoint).2.1]
      | continues token =>
        obtain ⟨_, _, -, -, -, -, hlt⟩ := h.continues token hpoint
        exact (Nat.mul_le_mul_right _ (Nat.sub_le ..)).trans hlt.le
      | ended => exact (h.ended hpoint).2
    · obtain ⟨w', hw', -⟩ := h.fetch hcodec hlimit hpoint
      exact ⟨w', hw'⟩

end HistoryWalk

end Pages

namespace HistoryWalk

/-- Moments written as texts in UTC, and the encoding of the one cursor that occurs. -/
private def utcCodec : CursorCodec String where
  isoformat := id
  fromisoformat := some
  b64encode := Equiv.swap "2025-01-01T00:00:00+00:00|2" "MjAyNS0wMS0wMVQwMDowMDowMCswMDowMHwy"
  b64decode s := some (Equiv.swap "2025-01-01T00:00:00+00:00|2" "MjAyNS0wMS0wMVQwMDowMDowMCswMDowMHwy" s)

/-- Three orders, two of them of one moment, and one of somebody else. -/
private def threeOrders : List (OrderRow String) :=
  [⟨1, 7, "2025-01-01T00:00:00+00:00"⟩, ⟨2, 7, "2025-01-01T00:00:00+00:00"⟩, ⟨3, 7, "2025-01-02T00:00:00+00:00"⟩,
    ⟨4, 8, "2025-01-02T00:00:00+00:00"⟩]

/-- A new order comes between the two pages. -/
private def twoPages : List (HistoryAct String) := [.fetch, .insert ⟨5, 7, "2025-01-03T00:00:00+00:00"⟩, .fetch]

instance (codec : CursorCodec String) (userId : Int) (w : HistoryWalk String) : DecidablePred (Above codec userId w)
  | .insert o => inferInstanceAs (Decidable ((∀ r ∈ w.rows, r.id ≠ o.id) ∧ (o.userId = userId → w.point ≠ .begins ∧
      ∀ cursor ∈ w.point.cursor, ∀ token ∈ cursor, ∀ c ∈ (decodeCursor codec token).toOption, toLex c < o.key)))
  | .fetch => inferInstanceAs (Decidable True)

theorem history_walk_two_pages : ∃ w : HistoryWalk String, exec (step utcCodec 7 2)
    { rows := threeOrders } twoPages = some w ∧
    w.point = .ended ∧ w.seen.map OrderRow.id = [3, 2, 1] ∧
    ∃ listing : List (OrderRow String), listing.Perm (threeOrders.filter fun o => o.userId = 7) ∧
      w.seen = listing := by
  have hcodec : utcCodec.Lawful :=
    { iso := fun _ => rfl
      b64 := fun s => by simp [utcCodec]
      empty := by decide +kernel }
  obtain ⟨w, hrun, htest⟩ := exec_any (step utcCodec 7 2) { rows := threeOrders } twoPages
    (fun w => decide (w.point = .ended) && decide (w.seen.map OrderRow.id = [3, 2, 1])) (by decide +kernel)
  simp only [Bool.and_eq_true, decide_eq_true_eq] at htest
  obtain ⟨-, listing, hperm, -, hwalk⟩ := history_walk hcodec 7 2 (by decide) threeOrders (by decide +kernel)
  obtain ⟨-, hended, -⟩ := hwalk twoPages w hrun (Along.of_check (by decide +kernel))
  exact ⟨w, hrun, htest.1, htest.2, listing, hperm, hended htest.1⟩

end HistoryWalk

end Ticketing
