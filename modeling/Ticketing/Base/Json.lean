import Mathlib.Data.List.Basic

/-!
# JSON texts

Values as Python's `json` writes and reads them: null, integers, strings and dicts.  A dict is the list of its
entries in their order; its keys may be integers, and every key is a string once it has been written
(`stringKeys`).  The texts are those of `json.dumps` with its default separators and `ensure_ascii`.

Reading what was written gives the value back, up to the keys (`loads_dumps`).
-/

/-- A key of a dict. -/
inductive JsonValue.Key where
  | str (s : String)
  | int (n : Int)
deriving DecidableEq

inductive JsonValue where
  | null
  | int (n : Int)
  | str (s : String)
  | dict (entries : List (JsonValue.Key × JsonValue))

namespace JsonValue

/-- The key as it is written. -/
def Key.text : Key → String
  | str s => s
  | int n => n.repr

mutual

/-- The value with its keys as strings. -/
def stringKeys : JsonValue → JsonValue
  | dict entries => dict (stringKeysEntries entries)
  | v => v

def stringKeysEntries : List (Key × JsonValue) → List (Key × JsonValue)
  | [] => []
  | (k, v) :: entries => (.str k.text, stringKeys v) :: stringKeysEntries entries

end

theorem stringKeysEntries_eq_map (entries : List (Key × JsonValue)) :
    stringKeysEntries entries = entries.map fun e => (.str e.1.text, e.2.stringKeys) := by
  induction entries with
  | nil => rfl
  | cons e entries ih => rw [stringKeysEntries, ih, List.map_cons]

/-- The value of a string key. -/
def get? : JsonValue → String → Option JsonValue
  | dict entries, k => entries.lookup (.str k)
  | _, _ => none

mutual

/-- No two keys of a dict are written alike. -/
def DistinctKeys : JsonValue → Prop
  | dict entries => (entries.map fun e => e.1.text).Nodup ∧ DistinctKeysEntries entries
  | _ => True

def DistinctKeysEntries : List (Key × JsonValue) → Prop
  | [] => True
  | (_, v) :: entries => DistinctKeys v ∧ DistinctKeysEntries entries

end

theorem distinctKeysEntries_iff (entries : List (Key × JsonValue)) : DistinctKeysEntries entries ↔
    ∀ e ∈ entries, e.2.DistinctKeys := by
  induction entries with
  | nil => simp [DistinctKeysEntries]
  | cons e entries ih => rw [DistinctKeysEntries, ih, List.forall_mem_cons]

/-! ### Characters -/

def hexValue (c : Char) : Option Nat :=
  if c.isDigit then some (c.toNat - '0'.toNat)
  else if 'a' ≤ c ∧ c ≤ 'f' then some (c.toNat - 'a'.toNat + 10)
  else if 'A' ≤ c ∧ c ≤ 'F' then some (c.toNat - 'A'.toNat + 10)
  else none

/-- Four hexadecimal digits. -/
def hex4 (n : Nat) : List Char :=
  [Nat.digitChar (n / 4096 % 16), Nat.digitChar (n / 256 % 16), Nat.digitChar (n / 16 % 16), Nat.digitChar (n % 16)]

def readHex4 : List Char → Option (Nat × List Char)
  | a :: b :: c :: d :: rest =>
      (hexValue a).bind fun a => (hexValue b).bind fun b => (hexValue c).bind fun c => (hexValue d).map fun d =>
      (4096 * a + 256 * b + 16 * c + d, rest)
  | _ => none

/-- The characters with an escape of two characters, and the second of these. -/
def shortEscapes : List (Char × Char) :=
  [('"', '"'), ('\\', '\\'), ('\n', 'n'), ('\r', 'r'), ('\t', 't'), ('\x08', 'b'), ('\x0c', 'f')]

/-- The character within quotes. -/
def escape (c : Char) : List Char :=
  match shortEscapes.lookup c with
  | some e => ['\\', e]
  | none =>
    if 0x20 ≤ c.toNat ∧ c.toNat ≤ 0x7e then [c]
    else if c.toNat < 0x10000 then '\\' :: 'u' :: hex4 c.toNat
    else
      -- beyond the basic plane: a pair of surrogates
      '\\' :: 'u' :: (hex4 (0xd800 + (c.toNat - 0x10000) / 0x400) ++ '\\' :: 'u' :: hex4
        (0xdc00 + (c.toNat - 0x10000) % 0x400))

/-- After `\u`. -/
def readUnicode (cs : List Char) : Option (Char × List Char) :=
  (readHex4 cs).bind fun (high, rest) =>
    if 0xd800 ≤ high ∧ high < 0xdc00 then
      match rest with
      | '\\' :: 'u' :: rest =>
          (readHex4 rest).map fun (low, rest) =>
          (Char.ofNat (0x10000 + (high - 0xd800) * 0x400 + (low - 0xdc00)), rest)
      | _ => none
    else some (Char.ofNat high, rest)

/-- After a backslash. -/
def readEscape : List Char → Option (Char × List Char)
  | [] => none
  | e :: rest =>
    if e = 'u' then readUnicode rest
    else ((('/', '/') :: shortEscapes).find? fun p => p.2 = e).map fun p => (p.1, rest)

def readChar : List Char → Option (Char × List Char)
  | [] => none
  | c :: rest => if c = '\\' then readEscape rest else some (c, rest)

private theorem hexValue_digitChar : ∀ d < 16, hexValue (Nat.digitChar d) = some d := by decide

theorem readHex4_hex4 {n : Nat} (hn : n < 65536) (rest : List Char) : readHex4 (hex4 n ++ rest) = some (n, rest) := by
  have hvalue : ∀ k, hexValue (Nat.digitChar (k % 16)) = some (k % 16) := fun k => hexValue_digitChar _
    (Nat.mod_lt _ (by decide))
  have hsum : 4096 * (n / 4096 % 16) + 256 * (n / 256 % 16) + 16 * (n / 16 % 16) + n % 16 = n := by omega
  simp only [hex4, List.cons_append, List.nil_append, readHex4, hvalue, Option.bind_some, Option.map_some, hsum]

private theorem readUnicode_hex4 (c : Char) (hc : c.toNat < 0x10000) (rest : List Char) :
    readUnicode (hex4 c.toNat ++ rest) = some (c, rest) := by
  have hscalar : ¬(0xd800 ≤ c.toNat ∧ c.toNat < 0xdc00) := by
    have hvalid := c.valid
    simp only [UInt32.isValidChar, Nat.isValidChar] at hvalid
    have : c.val.toNat = c.toNat := rfl
    omega
  rw [readUnicode, readHex4_hex4 (by omega), Option.bind_some]
  simp only
  rw [if_neg hscalar, Char.ofNat_toNat]

private theorem readUnicode_pair (c : Char) (hc : 0x10000 ≤ c.toNat) (rest : List Char) :
    readUnicode (hex4 (0xd800 + (c.toNat - 0x10000) / 0x400) ++ '\\' :: 'u' ::
      (hex4 (0xdc00 + (c.toNat - 0x10000) % 0x400) ++ rest)) =
      some (c, rest) := by
  have hbound : c.toNat < 0x110000 := by
    have hvalid := c.valid
    simp only [UInt32.isValidChar, Nat.isValidChar] at hvalid
    have : c.val.toNat = c.toNat := rfl
    omega
  have hback : 0x10000 + (0xd800 + (c.toNat - 0x10000) / 0x400 - 0xd800) * 0x400 +
    (0xdc00 + (c.toNat - 0x10000) % 0x400 - 0xdc00) =
      c.toNat := by
    omega
  rw [readUnicode, readHex4_hex4 (by omega), Option.bind_some]
  simp only
  rw [if_pos (by omega), readHex4_hex4 (by omega), Option.map_some, hback, Char.ofNat_toNat]

private theorem readEscape_short {c e : Char} (h : (c, e) ∈ shortEscapes) (rest : List Char) :
    readEscape (e :: rest) = some (c, rest) := by
  have hall : ∀ p ∈ shortEscapes, p.2 ≠ 'u' ∧ (('/', '/') :: shortEscapes).find?
    (fun q => q.2 = p.2) = some p := by decide
  obtain ⟨hu, hfind⟩ := hall _ h
  rw [readEscape, if_neg hu, hfind]
  rfl

theorem readChar_escape (c : Char) (rest : List Char) : readChar (escape c ++ rest) = some (c, rest) := by
  rw [escape]
  split
  · rename_i e he
    obtain ⟨l₁, l₂, htable, -⟩ := List.lookup_eq_some_iff.1 he
    exact readEscape_short (htable ▸ List.mem_append_right _ (List.mem_cons_self ..)) rest
  · rename_i hnone
    have hback : c ≠ '\\' := by
      rintro rfl
      cases hnone
    split
    · rw [List.singleton_append, readChar, if_neg hback]
    · split
      · rename_i hbasic
        exact readUnicode_hex4 c hbasic rest
      · rename_i hbasic
        simp only [List.cons_append, List.append_assoc]
        exact readUnicode_pair c (by omega) rest

/-- An escape is not empty and does not begin with a quote. -/
private theorem escape_head (c : Char) : ∃ h t, escape c = h :: t ∧ h ≠ '"' := by
  rw [escape]
  split
  · exact ⟨_, _, rfl, by decide⟩
  · rename_i hnone
    split
    · refine ⟨_, _, rfl, ?_⟩
      rintro rfl
      cases hnone
    · split
      · exact ⟨_, _, rfl, by decide⟩
      · exact ⟨_, _, rfl, by decide⟩

/-! ### Strings and numbers -/

def quote (s : String) : List Char := '"' :: (s.toList.flatMap escape ++ ['"'])

/-- The rest of a string, after its opening quote; the first argument bounds its length. -/
def readString : Nat → List Char → Option (List Char × List Char)
  | 0, _ => none
  | n + 1, cs =>
    if cs.head? = some '"' then some ([], cs.tail)
    else (readChar cs).bind fun (c, rest) => (readString n rest).map fun (s, rest) => (c :: s, rest)

theorem readString_escape {s : List Char} {n : Nat} (hn : s.length < n) (rest : List Char) :
    readString n (s.flatMap escape ++ '"' :: rest) = some (s, rest) := by
  induction s generalizing n with
  | nil =>
    obtain ⟨n, rfl⟩ := Nat.exists_eq_succ_of_ne_zero (by omega : n ≠ 0)
    rfl
  | cons c s ih =>
    obtain ⟨n, rfl⟩ := Nat.exists_eq_succ_of_ne_zero (by omega : n ≠ 0)
    have hrest := ih (Nat.lt_of_succ_lt_succ hn)
    have hhead : (escape c ++ (s.flatMap escape ++ '"' :: rest)).head? ≠ some '"' := by
      obtain ⟨h, t, hescape, hne⟩ := escape_head c
      simpa [hescape] using hne
    rw [List.flatMap_cons, List.append_assoc, readString, if_neg hhead, readChar_escape]
    simp only [Option.bind_some, hrest, Option.map_some]

def readDigits (cs : List Char) : Option (Nat × List Char) :=
  if cs.takeWhile Char.isDigit = [] then none
  else some (Nat.ofDigitChars 10 (cs.takeWhile Char.isDigit) 0, cs.dropWhile Char.isDigit)

def readNumber (cs : List Char) : Option (Int × List Char) :=
  if cs.head? = some '-' then (readDigits cs.tail).map fun (n, rest) => (-(n : Int), rest)
  else (readDigits cs).map fun (n, rest) => ((n : Int), rest)

/-- The text does not go on with a digit. -/
def Stops (rest : List Char) : Prop := ∀ c ∈ rest.head?, c.isDigit = false

private theorem isDigit_of_mem_repr {n : Nat} {c : Char} (hc : c ∈ n.repr.toList) : c.isDigit = true := by
  rw [Nat.toList_repr] at hc
  exact Nat.isDigit_of_mem_toDigits (by decide) (by decide) hc

private theorem readDigits_repr (n : Nat) {rest : List Char} (hrest : Stops rest) :
    readDigits (n.repr.toList ++ rest) = some (n, rest) := by
  have hall : ∀ c ∈ n.repr.toList, c.isDigit = true := fun c hc => isDigit_of_mem_repr hc
  have hstop : rest.takeWhile Char.isDigit = [] ∧ rest.dropWhile Char.isDigit = rest := by
    cases rest with
    | nil => exact ⟨rfl, rfl⟩
    | cons c rest =>
      have hc : ¬c.isDigit = true := by simp [hrest c rfl]
      exact ⟨List.takeWhile_cons_of_neg hc, List.dropWhile_cons_of_neg hc⟩
  have htake : (n.repr.toList ++ rest).takeWhile Char.isDigit = n.repr.toList := by
    rw [List.takeWhile_append_of_pos hall, hstop.1, List.append_nil]
  have hdrop : (n.repr.toList ++ rest).dropWhile Char.isDigit = rest := by
    rw [List.dropWhile_append_of_pos hall, hstop.2]
  rw [readDigits, htake, hdrop, if_neg (by simp), Nat.toList_repr, Nat.ofDigitChars_ten_toDigits]

/-- A number begins with a digit or with its sign. -/
theorem repr_head (n : Int) : ∃ c cs, n.repr.toList = c :: cs ∧ (c.isDigit || c == '-') = true := by
  cases n with
  | ofNat n =>
    obtain ⟨c, cs, htext⟩ := List.exists_cons_of_ne_nil (by simp : n.repr.toList ≠ [])
    exact ⟨c, cs, htext, by rw [isDigit_of_mem_repr (htext ▸ List.mem_cons_self ..)]; rfl⟩
  | negSucc n => exact ⟨'-', (n + 1).repr.toList, by simp [Int.repr], rfl⟩

theorem readNumber_repr (n : Int) {rest : List Char} (hrest : Stops rest) :
    readNumber (n.repr.toList ++ rest) = some (n, rest) := by
  cases n with
  | ofNat n =>
    have hhead : (n.repr.toList ++ rest).head? ≠ some '-' := by
      obtain ⟨c, digits, hdigits⟩ := List.exists_cons_of_ne_nil (by simp : n.repr.toList ≠ [])
      have hc : c.isDigit = true := isDigit_of_mem_repr (hdigits ▸ List.mem_cons_self ..)
      rw [hdigits, List.cons_append, List.head?_cons]
      rintro ⟨⟩
      cases hc
    show readNumber (n.repr.toList ++ rest) = _
    rw [readNumber, if_neg hhead, readDigits_repr n hrest]
    rfl
  | negSucc n =>
    have htext : (Int.negSucc n).repr.toList = '-' :: (n + 1).repr.toList := by simp [Int.repr]
    rw [htext, List.cons_append, readNumber, if_pos List.head?_cons, List.tail_cons, readDigits_repr _ hrest]
    rfl

/-! ### Values -/

mutual

def write : JsonValue → List Char
  | null => ['n', 'u', 'l', 'l']
  | int n => n.repr.toList
  | str s => quote s
  | dict [] => ['{', '}']
  | dict ((k, v) :: entries) => '{' :: (quote k.text ++ ':' :: ' ' :: (write v ++ writeMore entries))

/-- The entries after the first. -/
def writeMore : List (Key × JsonValue) → List Char
  | [] => ['}']
  | (k, v) :: entries => ',' :: ' ' :: (quote k.text ++ ':' :: ' ' :: (write v ++ writeMore entries))

end

/-- A key, a colon and a value. -/
def readEntry (value : List Char → Option (JsonValue × List Char)) : List Char →
    Option ((Key × JsonValue) × List Char)
  | '"' :: cs =>
    match readString (cs.length + 1) cs with
    | some (k, ':' :: ' ' :: rest) => (value rest).map fun (v, rest) => ((.str (String.ofList k), v), rest)
    | _ => none
  | _ => none

/-- The entries after the first; the first argument bounds their number. -/
def readMore (value : List Char → Option (JsonValue × List Char)) : Nat → List Char →
    Option (List (Key × JsonValue) × List Char)
  | _, '}' :: rest => some ([], rest)
  | n + 1, ',' :: ' ' :: cs =>
    (readEntry value cs).bind fun (e, rest) => (readMore value n rest).map fun (entries, rest) => (e :: entries, rest)
  | _, _ => none

def beginsNumber (cs : List Char) : Bool := cs.head?.any fun c => c.isDigit || c == '-'

/-- A value other than a number. -/
def readShape (value : List Char → Option (JsonValue × List Char)) : List Char → Option (JsonValue × List Char)
  | 'n' :: 'u' :: 'l' :: 'l' :: rest => some (.null, rest)
  | '"' :: cs => (readString (cs.length + 1) cs).map fun (s, rest) => (.str (String.ofList s), rest)
  | '{' :: '}' :: rest => some (.dict [], rest)
  | '{' :: cs =>
    (readEntry value cs).bind fun (e, rest) =>
      (readMore value rest.length rest).map fun (entries, rest) => (.dict (e :: entries), rest)
  | _ => none

/-- A value; the first argument bounds its depth. -/
def read : Nat → List Char → Option (JsonValue × List Char)
  | 0, _ => none
  | n + 1, cs =>
      if beginsNumber cs then (readNumber cs).map fun (n, rest) => (.int n, rest) else readShape (read n) cs

def dumps (v : JsonValue) : String := String.ofList (write v)

def loads (s : String) : Option JsonValue :=
  match read s.toList.length s.toList with
  | some (v, []) => some v
  | _ => none

/-! ### The round trip -/

private theorem length_le_flatMap_escape (s : List Char) : s.length ≤ (s.flatMap escape).length := by
  induction s with
  | nil => simp
  | cons c s ih =>
    obtain ⟨h, t, hescape, -⟩ := escape_head c
    rw [List.flatMap_cons, List.length_append, List.length_cons, hescape, List.length_cons]
    omega

theorem readString_quote (s : String) (rest : List Char) : ∃ cs, quote s ++ rest = '"' :: cs ∧
    readString (cs.length + 1) cs = some (s.toList, rest) := by
  have hlen := length_le_flatMap_escape s.toList
  refine ⟨s.toList.flatMap escape ++ '"' :: rest, by simp [quote], readString_escape ?_ rest⟩
  rw [List.length_append]
  omega

theorem readEntry_quote {value : List Char → Option (JsonValue × List Char)} {text rest : List Char} {v : JsonValue}
    (hvalue : value (text ++ rest) = some (v, rest)) (k : Key) :
    readEntry value (quote k.text ++ ':' :: ' ' :: (text ++ rest)) = some ((.str k.text, v), rest) := by
  obtain ⟨cs, hcs, hread⟩ := readString_quote k.text (':' :: ' ' :: (text ++ rest))
  rw [hcs, readEntry, hread]
  simp only [hvalue, Option.map_some, String.ofList_toList]

private theorem stops_writeMore (entries : List (Key × JsonValue)) (rest : List Char) :
    Stops (writeMore entries ++ rest) := by
  cases entries with
  | nil => simp [Stops, writeMore]
  | cons e entries => simp [Stops, writeMore]

private theorem length_le_writeMore (entries : List (Key × JsonValue)) :
    entries.length ≤ (writeMore entries).length := by
  induction entries with
  | nil => simp
  | cons e entries ih =>
    simp only [writeMore, List.length_cons, List.length_append]
    omega

private theorem write_pos (v : JsonValue) : 0 < (write v).length := by
  cases v with
  | null => simp [write]
  | int n =>
    obtain ⟨c, cs, htext, -⟩ := repr_head n
    simp [write, htext]
  | str s => simp [write, quote]
  | dict entries => cases entries <;> simp [write]

mutual

theorem read_write : ∀ (v : JsonValue) (n : Nat) (rest : List Char), (write v).length ≤ n → Stops rest →
    read n (write v ++ rest) = some (v.stringKeys, rest)
  | .null, n + 1, rest, _, _ => rfl
  | .int m, n + 1, rest, _, hrest => by
    have hbegins : beginsNumber (m.repr.toList ++ rest) = true := by
      obtain ⟨c, cs, htext, hc⟩ := repr_head m
      rw [htext]
      exact hc
    rw [write, read, if_pos hbegins, readNumber_repr m hrest]
    rfl
  | .str s, n + 1, rest, _, _ => by
    obtain ⟨cs, hcs, hread⟩ := readString_quote s rest
    rw [write, hcs, read, if_neg (by simp [beginsNumber]), readShape, hread]
    simp only [Option.map_some, String.ofList_toList]
    rfl
  | .dict [], n + 1, rest, _, _ => rfl
  | .dict ((k, v) :: entries), n + 1, rest, hlen, _ => by
    simp only [write, List.length_cons, List.length_append] at hlen
    have hvalue := read_write v n (writeMore entries ++ rest) (by omega) (stops_writeMore entries rest)
    have hmore := readMore_write entries n (writeMore entries ++ rest).length rest (by omega)
      (by rw [List.length_append]; exact Nat.le_add_right_of_le (length_le_writeMore entries))
    have hentry := readEntry_quote hvalue k
    obtain ⟨cs, hcs, -⟩ := readString_quote k.text (':' :: ' ' :: (write v ++ (writeMore entries ++ rest)))
    rw [hcs] at hentry
    have htext : write (.dict ((k, v) :: entries)) ++ rest = '{' :: '"' :: cs := by
      rw [← hcs]
      simp [write]
    rw [htext, read, if_neg (by simp [beginsNumber]), readShape, hentry]
    · simp only [Option.bind_some, hmore, Option.map_some]
      rfl
    · simp
  | v, 0, _, hlen, _ => absurd hlen (Nat.not_le.2 (write_pos v))

theorem readMore_write : ∀ (entries : List (Key × JsonValue)) (n m : Nat) (rest : List Char),
    (writeMore entries).length ≤ n →
    entries.length ≤ m → readMore (read n) m (writeMore entries ++ rest) = some (stringKeysEntries entries, rest)
  | [], _, _, _, _, _ => by simp [writeMore, readMore, stringKeysEntries]
  | (k, v) :: entries, n, m + 1, rest, hlen, hm => by
    simp only [writeMore, List.length_cons, List.length_append] at hlen
    have hvalue := read_write v n (writeMore entries ++ rest) (by omega) (stops_writeMore entries rest)
    have hmore := readMore_write entries n m rest (by omega) (Nat.le_of_succ_le_succ hm)
    have hentry := readEntry_quote hvalue k
    simp only [writeMore, List.cons_append, List.append_assoc, readMore, hentry, hmore, Option.bind_some,
      Option.map_some, stringKeysEntries]

end

/-- Reading a written value turns its keys into strings and does nothing else. -/
theorem loads_dumps (v : JsonValue) : loads (dumps v) = some v.stringKeys := by
  have hread := read_write v (write v).length [] (Nat.le_refl _) (by simp [Stops])
  rw [List.append_nil] at hread
  rw [loads, dumps, String.toList_ofList, hread]

example : dumps (.dict [(.str "price", .null), (.str "zones", .dict [(.int 7, .int (-50))])]) =
    "\x7b\"price\": null, \"zones\": \x7b\"7\": -50\x7d\x7d" := by
  decide +kernel

end JsonValue
