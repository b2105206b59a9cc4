import Ticketing.Base.Exec
import Ticketing.Base.Hash

/-!
# Envelope encryption of personal data

`services/pii.py` encrypts a string under a key of its own and wraps that key with the active master key (KEK)
of the settings.  The row stores the ciphertext, the wrapped key and the version of the KEK.  The keyring of
the settings holds the active KEK and the retired ones; `rewrap_dek` moves a row from any of them to the
active one without touching the ciphertext.  The byte layout (nonce, ciphertext, tag) is that of
`ticket_secrets`.

AES-GCM, JSON, base64 and the conversions of strings to numbers are parameters.  Of AES-GCM the results use
what `Lawful` states; about the others nothing is assumed.  `decryptPii_after_rotations` follows a row through
any sequence of rotations that keep the KEK it refers to, and of rewraps.
-/

namespace Ticketing

open Exec

abbrev Bytes := List UInt8

/-! ### `ticket_secrets` -/

/-- AES-256-GCM without associated data: key, nonce and text; the tag stands at the end of the ciphertext. -/
structure Aes256Gcm where
  encrypt : Bytes → Bytes → Bytes → Option Bytes
  decrypt : Bytes → Bytes → Bytes → Option Bytes

/-- The longest text that AES-GCM encrypts under one nonce. -/
def maxPlaintext : Nat := 2 ^ 36

/-- With a key of 32 bytes and a nonce of 12, a text that is not too long is encrypted, the tag has 16 bytes,
and decryption inverts encryption. -/
structure Aes256Gcm.Lawful (aes : Aes256Gcm) : Prop where
  encrypts : ∀ key nonce text : Bytes, key.length = 32 → nonce.length = 12 → text.length ≤ maxPlaintext →
    (aes.encrypt key nonce text).isSome = true
  length : ∀ key nonce text out : Bytes, aes.encrypt key nonce text = some out → out.length = text.length + 16
  decrypts : ∀ key nonce text out : Bytes, key.length = 32 → nonce.length = 12 →
    aes.encrypt key nonce text = some out →
    aes.decrypt key nonce out = some text

/-- What `OsRng` draws for one encryption. -/
abbrev Nonce := { nonce : Bytes // nonce.length = 12 }

/-- The `ValueError`s of the library. -/
inductive SecretsError where
  | keyLength (got : Nat)
  | encryptionFailed
  | dataTooShort
  | decryptFailed
deriving DecidableEq

def aesGcmEncrypt (aes : Aes256Gcm) (nonce : Nonce) (key plaintext : Bytes) : Except SecretsError Bytes :=
  if key.length ≠ 32 then .error (.keyLength key.length)
  else
    match aes.encrypt key nonce plaintext with
    | none => .error .encryptionFailed
    | some ciphertext => .ok (nonce ++ ciphertext)

def aesGcmDecrypt (aes : Aes256Gcm) (key data : Bytes) : Except SecretsError Bytes :=
  if key.length ≠ 32 then .error (.keyLength key.length)
  else if data.length < 12 + 16 then .error .dataTooShort
  else
    match aes.decrypt key (data.take 12) (data.drop 12) with
    | none => .error .decryptFailed
    | some plaintext => .ok plaintext

/-! ### The settings -/

/-- A parsed JSON text, as far as `_parse_retired_keks` tells values apart. -/
inductive JsonMember where
  | string (s : String)
  | other

inductive Json where
  | object (members : List (String × JsonMember))
  | other

/-- The functions of the standard library that read the settings. -/
structure PyLib where
  jsonLoads : String → Option Json
  b64decode : String → Option Bytes
  isdigit : String → Bool
  int : String → Option Int

inductive SettingsError where
  | invalidBase64
  | keyLength (got : Nat)
  | retiredNotJson
  | retiredNotObject
  | retiredVersion (version : String)
  | retiredKeyNotString (version : String)
deriving DecidableEq

section Settings

variable (lib : PyLib)

def decode32ByteKey (v : String) : Except SettingsError Bytes :=
  match lib.b64decode v with
  | none => .error .invalidBase64
  | some decoded => if decoded.length ≠ 32 then .error (.keyLength decoded.length) else .ok decoded

/-- One turn of the loop of `_parse_retired_keks`: a version that comes again, in another spelling, replaces
the key. -/
def addRetiredKek (keyring : Hash Int Bytes) (member : String × JsonMember) : Except SettingsError (Hash Int Bytes) :=
  match (if lib.isdigit member.1 then lib.int member.1 else none) with
  | none => .error (.retiredVersion member.1)
  | some version =>
    if version < 1 then .error (.retiredVersion member.1)
    else
      match member.2 with
      | .other => .error (.retiredKeyNotString member.1)
      | .string key => (decode32ByteKey lib key).map fun key => AList.insert version key keyring

def parseRetiredKeks (raw : String) : Except SettingsError (Hash Int Bytes) :=
  match lib.jsonLoads (if raw = "" then "\x7b\x7d" else raw) with
  | none => .error .retiredNotJson
  | some .other => .error .retiredNotObject
  | some (.object members) => members.foldlM (addRetiredKek lib) ∅

/-- The settings that pass all validators, with the keys they stand for. -/
structure PiiSettings where
  kekVersion : Int
  kekBase64 : String
  kekRetired : String
  kek : Bytes
  retired : Hash Int Bytes
  kekVersion_pos : 1 ≤ kekVersion
  kek_eq : decode32ByteKey lib kekBase64 = .ok kek
  retired_eq : parseRetiredKeks lib kekRetired = .ok retired
  active_not_retired : AList.lookup kekVersion retired = none

end Settings

namespace PiiSettings

variable {lib : PyLib}

/-- `pii_keyring`: the active key, overridden by the retired ones. -/
def piiKeyring (s : PiiSettings lib) : Hash Int Bytes := s.retired ∪ AList.singleton s.kekVersion s.kek

end PiiSettings

/-! ### `services/pii.py` -/

structure EncryptedPII where
  ciphertext : Bytes
  dekEncrypted : Bytes
  kekVersion : Int
deriving DecidableEq

inductive PiiError where
  | keyVersionUnknown (version : Int)
  | secrets (e : SecretsError)
  | notUtf8
deriving DecidableEq

/-- What `os.urandom(32)` draws. -/
abbrev Dek := { dek : Bytes // dek.length = 32 }

def encodeUtf8 (s : String) : Bytes := s.toUTF8.data.toList

def decodeUtf8 (b : Bytes) : Option String := String.fromUTF8? ⟨b.toArray⟩

section Pii

variable (aes : Aes256Gcm) {lib : PyLib} (s : PiiSettings lib)

def kekOf (version : Int) : Except PiiError Bytes :=
  match AList.lookup version s.piiKeyring with
  | none => .error (.keyVersionUnknown version)
  | some key => .ok key

def encryptPii (dek : Dek) (nonce nonce' : Nonce) (plaintext : String) : Except PiiError EncryptedPII := do
  let version := s.kekVersion
  let ciphertext ← (aesGcmEncrypt aes nonce dek (encodeUtf8 plaintext)).mapError .secrets
  let kek ← kekOf s version
  let dekEncrypted ← (aesGcmEncrypt aes nonce' kek dek).mapError .secrets
  return { ciphertext, dekEncrypted, kekVersion := version }

def decryptPii (ciphertext dekEncrypted : Bytes) (kekVersion : Int) : Except PiiError String := do
  let kek ← kekOf s kekVersion
  let dek ← (aesGcmDecrypt aes kek dekEncrypted).mapError .secrets
  let bytes ← (aesGcmDecrypt aes dek ciphertext).mapError .secrets
  match decodeUtf8 bytes with
  | none => throw .notUtf8
  | some plaintext => return plaintext

def rewrapDek (nonce : Nonce) (dekEncrypted : Bytes) (kekVersion : Int) : Except PiiError (Bytes × Int) := do
  let active := s.kekVersion
  let kek ← kekOf s kekVersion
  let dek ← (aesGcmDecrypt aes kek dekEncrypted).mapError .secrets
  let kek' ← kekOf s active
  let wrapped ← (aesGcmEncrypt aes nonce kek' dek).mapError .secrets
  return (wrapped, active)

end Pii

/-! ### A row under rotations -/

structure PiiWorld (lib : PyLib) where
  settings : PiiSettings lib
  row : EncryptedPII

inductive PiiAct (lib : PyLib) where
  /-- New settings, whose retired keys keep the one that the row refers to. -/
  | rotate (new : PiiSettings lib)
  /-- `rewrap_pii_keks` at the row; a row whose key is not known is skipped. -/
  | rewrap (nonce : Nonce)

namespace PiiWorld

variable {lib : PyLib}

def step (aes : Aes256Gcm) (w : PiiWorld lib) : PiiAct lib → Option (PiiWorld lib)
  | .rotate new =>
    if AList.lookup w.row.kekVersion new.retired = AList.lookup w.row.kekVersion w.settings.piiKeyring then
      some { w with settings := new }
    else none
  | .rewrap nonce =>
    match rewrapDek aes w.settings nonce w.row.dekEncrypted w.row.kekVersion with
    | .error _ => some w
    | .ok (dekEncrypted, kekVersion) => some { w with row := { w.row with dekEncrypted, kekVersion } }

end PiiWorld

/-! ### Round trips -/

section RoundTrips

variable {aes : Aes256Gcm} {lib : PyLib} {s : PiiSettings lib}

private theorem decodeUtf8_encodeUtf8 (s : String) : decodeUtf8 (encodeUtf8 s) = some s := by
  have hbytes : (⟨(encodeUtf8 s).toArray⟩ : ByteArray) = s.toByteArray := by
    simp [encodeUtf8]
  rw [decodeUtf8, hbytes, String.fromUTF8?, dif_pos s.isValidUTF8]
  rfl

/-- The layout of the ciphertext: the nonce is found again in front of it. -/
private theorem aesGcmDecrypt_of_encrypt (law : aes.Lawful) {nonce : Nonce} {key text out : Bytes}
    (h : aesGcmEncrypt aes nonce key text = .ok out) : aesGcmDecrypt aes key out = .ok text := by
  unfold aesGcmEncrypt at h
  split at h
  · cases h
  · rename_i hkey
    rw [ne_eq, not_not] at hkey
    split at h
    · cases h
    · rename_i ciphertext henc
      obtain rfl := Except.ok.inj h
      have hlen := law.length _ _ _ _ henc
      have hdec := law.decrypts _ _ _ _ hkey nonce.2 henc
      rw [aesGcmDecrypt, if_neg (by simpa using hkey), if_neg (by rw [List.length_append, nonce.2]; omega),
        List.take_left' nonce.2, List.drop_left' nonce.2, hdec]

private theorem aesGcmEncrypt_isOk (law : aes.Lawful) (nonce : Nonce) {key text : Bytes} (hkey : key.length = 32)
    (htext : text.length ≤ maxPlaintext) : ∃ out, aesGcmEncrypt aes nonce key text = .ok out := by
  obtain ⟨ciphertext, henc⟩ := Option.isSome_iff_exists.1 (law.encrypts key nonce text hkey nonce.2 htext)
  exact ⟨_, by rw [aesGcmEncrypt, if_neg (by simpa using hkey), henc]⟩

private theorem length_of_decode32ByteKey {v : String} {key : Bytes} (h : decode32ByteKey lib v = .ok key) :
    key.length = 32 := by
  unfold decode32ByteKey at h
  split at h
  · cases h
  · split at h
    · cases h
    · rename_i hlen
      obtain rfl := Except.ok.inj h
      simpa using hlen

theorem lookup_active (s : PiiSettings lib) : AList.lookup s.kekVersion s.piiKeyring = some s.kek := by
  unfold PiiSettings.piiKeyring
  rw [AList.lookup_union_right (AList.lookup_eq_none.1 s.active_not_retired)]
  rw [← AList.insert_empty, AList.lookup_insert]

/-- A retired key overrides the active one. -/
private theorem lookup_retired {v : Int} {key : Bytes} (h : AList.lookup v s.retired = some key) :
    AList.lookup v s.piiKeyring = some key := by
  unfold PiiSettings.piiKeyring
  rwa [AList.lookup_union_left (AList.lookup_isSome.1 (by rw [h]; rfl))]

private theorem kekOf_eq {v : Int} {key : Bytes} (h : AList.lookup v s.piiKeyring = some key) :
    kekOf s v = .ok key := by
  rw [kekOf, h]

/-- The row can be read with the given KEK: it opens the wrapped key, which opens the text. -/
structure EncryptedPII.OpensWith (aes : Aes256Gcm) (row : EncryptedPII) (kek : Bytes)
    (plaintext : String) : Prop where
  dek : ∃ dek : Bytes, dek.length = 32 ∧ aesGcmDecrypt aes kek row.dekEncrypted = .ok dek ∧
    aesGcmDecrypt aes dek row.ciphertext = .ok (encodeUtf8 plaintext)

theorem EncryptedPII.OpensWith.decryptPii {row : EncryptedPII} {kek : Bytes} {plaintext : String}
    (h : row.OpensWith aes kek plaintext) (hkek : AList.lookup row.kekVersion s.piiKeyring = some kek) :
    decryptPii aes s row.ciphertext row.dekEncrypted row.kekVersion = .ok plaintext := by
  obtain ⟨dek, -, hdek, htext⟩ := h.dek
  unfold Ticketing.decryptPii
  rw [kekOf_eq hkek]
  simp only [bind, Except.bind, hdek, htext, Except.mapError, decodeUtf8_encodeUtf8]
  rfl

/-- What `encrypt_pii` returns opens with the active KEK. -/
private theorem opensWith_of_encryptPii (law : aes.Lawful) {dek : Dek} {nonce nonce' : Nonce} {plaintext : String}
    {row : EncryptedPII} (h : encryptPii aes s dek nonce nonce' plaintext = .ok row) :
    row.kekVersion = s.kekVersion ∧ row.OpensWith aes s.kek plaintext := by
  simp only [encryptPii, kekOf_eq (lookup_active s)] at h
  cases htext : aesGcmEncrypt aes nonce dek (encodeUtf8 plaintext) with
  | error e => simp [htext, bind, Except.bind, Except.mapError] at h
  | ok ciphertext =>
    cases hdek : aesGcmEncrypt aes nonce' s.kek dek with
    | error e => simp [htext, hdek, bind, Except.bind, Except.mapError] at h
    | ok dekEncrypted =>
      simp only [htext, hdek, bind, Except.bind, Except.mapError] at h
      obtain rfl := Except.ok.inj h
      exact ⟨rfl, ⟨dek, dek.2, aesGcmDecrypt_of_encrypt law hdek, aesGcmDecrypt_of_encrypt law htext⟩⟩

theorem encryptPii_isOk (law : aes.Lawful) (dek : Dek) (nonce nonce' : Nonce) {plaintext : String}
    (hlen : (encodeUtf8 plaintext).length ≤ maxPlaintext) : ∃ row,
    encryptPii aes s dek nonce nonce' plaintext = .ok row := by
  obtain ⟨ciphertext, htext⟩ := aesGcmEncrypt_isOk law nonce dek.2 hlen
  have hsmall : dek.1.length ≤ maxPlaintext := by
    rw [dek.2]
    decide
  obtain ⟨dekEncrypted, hdek⟩ := aesGcmEncrypt_isOk law nonce' (length_of_decode32ByteKey s.kek_eq) hsmall
  refine ⟨⟨ciphertext, dekEncrypted, s.kekVersion⟩, ?_⟩
  simp only [encryptPii, kekOf_eq (lookup_active s), htext, hdek, bind, Except.bind, Except.mapError]
  rfl

/-- A rewrap succeeds, and the row then opens with the active KEK. -/
theorem rewrapDek_opens (law : aes.Lawful) (nonce : Nonce) {row : EncryptedPII} {kek : Bytes} {plaintext : String}
    (h : row.OpensWith aes kek plaintext) (hkek : AList.lookup row.kekVersion s.piiKeyring = some kek) :
    ∃ wrapped, rewrapDek aes s nonce row.dekEncrypted row.kekVersion = .ok (wrapped, s.kekVersion) ∧
      EncryptedPII.OpensWith aes { row with dekEncrypted := wrapped, kekVersion := s.kekVersion }
        s.kek plaintext := by
  obtain ⟨dek, hlen, hdek, htext⟩ := h.dek
  have hsmall : dek.length ≤ maxPlaintext := by
    rw [hlen]
    decide
  obtain ⟨wrapped, hwrapped⟩ := aesGcmEncrypt_isOk law nonce (length_of_decode32ByteKey s.kek_eq) hsmall
  refine ⟨wrapped, ?_, ⟨dek, hlen, aesGcmDecrypt_of_encrypt law hwrapped, htext⟩⟩
  simp only [rewrapDek, kekOf_eq hkek, kekOf_eq (lookup_active s), bind, Except.bind, hdek, hwrapped, Except.mapError]
  rfl

end RoundTrips

/-! ### Rows survive rotations -/

/-- The keyring of the settings holds the KEK that opens the row. -/
def PiiWorld.Readable {lib : PyLib} (aes : Aes256Gcm) (plaintext : String) (w : PiiWorld lib) : Prop :=
  ∃ kek, AList.lookup w.row.kekVersion w.settings.piiKeyring = some kek ∧ w.row.OpensWith aes kek plaintext

private theorem PiiWorld.Readable.step {lib : PyLib} {aes : Aes256Gcm} (law : aes.Lawful) {plaintext : String}
    {w w' : PiiWorld lib} (h : w.Readable aes plaintext) {a : PiiAct lib} (hstep : w.step aes a = some w') :
    w'.Readable aes plaintext ∧ w'.row.ciphertext = w.row.ciphertext := by
  obtain ⟨kek, hkek, hopens⟩ := h
  cases a with
  | rotate new =>
    simp only [PiiWorld.step] at hstep
    split at hstep
    · rename_i hkeep
      obtain rfl := Option.some.inj hstep
      exact ⟨⟨kek, lookup_retired (hkeep.trans hkek), hopens⟩, rfl⟩
    · cases hstep
  | rewrap nonce =>
    obtain ⟨wrapped, hwrap, hopens'⟩ := rewrapDek_opens law nonce hopens hkek
    simp only [PiiWorld.step, hwrap] at hstep
    obtain rfl := Option.some.inj hstep
    exact ⟨⟨w.settings.kek, lookup_active w.settings, hopens'⟩, rfl⟩

/-- A row that `encrypt_pii` wrote is read back after any sequence of rotations and rewraps, its ciphertext
unchanged; and after one more rewrap it is read with the active key, whatever keys are retired.  `encrypt_pii`
itself fails for texts beyond the limit of AES-GCM only. -/
theorem decryptPii_after_rotations {aes : Aes256Gcm} (law : aes.Lawful) {lib : PyLib}
    (s : PiiSettings lib) (dek : Dek) (nonce nonce' : Nonce) (plaintext : String) :
    ((encodeUtf8 plaintext).length ≤ maxPlaintext → ∃ row, encryptPii aes s dek nonce nonce' plaintext = .ok row) ∧
    ∀ row, encryptPii aes s dek nonce nonce' plaintext = .ok row →
      ∀ (acts : List (PiiAct lib)) (w : PiiWorld lib), exec (PiiWorld.step aes) ⟨s, row⟩ acts = some w →
        decryptPii aes w.settings w.row.ciphertext w.row.dekEncrypted w.row.kekVersion = .ok plaintext ∧
        w.row.ciphertext = row.ciphertext ∧
        ∀ again, ∃ wrapped,
          rewrapDek aes w.settings again w.row.dekEncrypted w.row.kekVersion = .ok (wrapped, w.settings.kekVersion) ∧
          ∀ s' : PiiSettings lib, s'.kekVersion = w.settings.kekVersion → s'.kekBase64 = w.settings.kekBase64 →
            decryptPii aes s' w.row.ciphertext wrapped w.settings.kekVersion = .ok plaintext := by
  refine ⟨encryptPii_isOk law dek nonce nonce', fun row hrow acts w h => ?_⟩
  obtain ⟨hversion, hopens⟩ := opensWith_of_encryptPii law hrow
  have hread : w.Readable aes plaintext ∧ w.row.ciphertext = row.ciphertext := by
    refine exec_invariant (C := fun _ _ => True)
      (I := fun w => w.Readable aes plaintext ∧ w.row.ciphertext = row.ciphertext)
      (fun w a w' _ hstep hw => ?_) ⟨⟨s.kek, hversion ▸ lookup_active s, hopens⟩, rfl⟩
      (.of_forall fun _ _ _ => trivial) h
    obtain ⟨hread, htext⟩ := hw.1.step law hstep
    exact ⟨hread, htext.trans hw.2⟩
  obtain ⟨⟨kek, hkek, hopens⟩, htext⟩ := hread
  refine ⟨hopens.decryptPii hkek, htext, fun again => ?_⟩
  obtain ⟨wrapped, hwrap, hopens'⟩ := rewrapDek_opens law again hopens hkek
  refine ⟨wrapped, hwrap, fun s' hversion' hbase => ?_⟩
  -- the settings may differ in the retired keys only
  have hkek' : s'.kek = w.settings.kek := Except.ok.inj (s'.kek_eq.symm.trans (hbase ▸ w.settings.kek_eq))
  exact hopens'.decryptPii (hversion' ▸ hkek' ▸ lookup_active s')

/-! ### A rotation with two keys -/

/-- One encryption: key, nonce, text and what AES-256-GCM makes of them. -/
structure GcmSample where
  key : Bytes
  nonce : Bytes
  text : Bytes
  out : Bytes
deriving DecidableEq

/-- The encryptions of one row: its text under its own key, and that key under the first and the second KEK. -/
def gcmSamples : List GcmSample :=
  [{ key := (List.range 32).map UInt8.ofNat
     nonce := List.replicate 12 1
     text := encodeUtf8 "A123456789"
     out := [54, 242, 215, 6, 92, 176, 94, 81, 236, 109, 146, 250, 73, 67, 221, 52, 111, 141, 44, 174, 244,
       217, 174, 169, 156,
       111] },
   { key := List.replicate 32 0x11
     nonce := List.replicate 12 2
     text := (List.range 32).map UInt8.ofNat
     out := [66, 49, 12, 45, 226, 68, 49, 93, 167, 194, 69, 20, 199, 133, 73, 246, 8, 2, 44, 0, 254, 0, 138,
       181, 164, 116, 171,
       17, 35, 32, 25, 226, 135, 70, 194, 90, 205, 40, 236, 129, 42, 242, 130, 255, 68, 117, 25, 235] },
   { key := List.replicate 32 0x22
     nonce := List.replicate 12 3
     text := (List.range 32).map UInt8.ofNat
     out := [91, 224, 182, 209, 167, 28, 169, 168, 86, 71, 150, 17, 88, 166, 185, 151, 40, 39, 176, 246, 242,
       167, 46, 211, 204,
       114, 206, 220, 49, 138, 206, 222, 6, 72, 255, 216, 42, 150, 165, 117, 103, 144, 63, 219, 102, 63, 9, 34] }]

/-- A cipher that agrees with AES-256-GCM on the samples; elsewhere it appends a tag of zeros. -/
def Aes256Gcm.sampled : Aes256Gcm where
  encrypt key nonce text :=
    match gcmSamples.find? fun e => e.key = key ∧ e.nonce = nonce ∧ e.text = text with
    | some e => some e.out
    | none => some (text ++ List.replicate 16 0)
  decrypt key nonce out :=
    match gcmSamples.find? fun e => e.key = key ∧ e.nonce = nonce ∧ e.out = out with
    | some e => some e.text
    | none => if out.drop (out.length - 16) = List.replicate 16 0 then some (out.take (out.length - 16)) else none

private theorem gcmSamples_spec : (∀ e ∈ gcmSamples, e.out.length = e.text.length + 16) ∧
    (∀ e ∈ gcmSamples, e.out.drop (e.out.length - 16) ≠ List.replicate 16 0) ∧
    ∀ e ∈ gcmSamples, ∀ e' ∈ gcmSamples, e.key = e'.key → e.nonce = e'.nonce → e.out = e'.out → e.text = e'.text := by
  decide +kernel

theorem sampled_lawful : Aes256Gcm.sampled.Lawful := by
  obtain ⟨hlength, htag, htext⟩ := gcmSamples_spec
  constructor
  · intro key nonce text _ _ _
    simp only [Aes256Gcm.sampled]
    split <;> rfl
  · intro key nonce text out h
    simp only [Aes256Gcm.sampled] at h
    split at h
    · rename_i e hfind
      obtain rfl := Option.some.inj h
      have he : e.key = key ∧ e.nonce = nonce ∧ e.text = text := by simpa using List.find?_some hfind
      rw [hlength e (List.mem_of_find?_eq_some hfind), he.2.2]
    · obtain rfl := Option.some.inj h
      simp
  · intro key nonce text out _ _ h
    simp only [Aes256Gcm.sampled] at h ⊢
    split at h
    · rename_i e hfind
      obtain rfl := Option.some.inj h
      have he : e.key = key ∧ e.nonce = nonce ∧ e.text = text := by simpa using List.find?_some hfind
      split
      · rename_i e' hfind'
        have he' : e'.key = key ∧ e'.nonce = nonce ∧ e'.out = e.out := by simpa using List.find?_some hfind'
        rw [htext e' (List.mem_of_find?_eq_some hfind') e (List.mem_of_find?_eq_some hfind) (he'.1.trans he.1.symm)
          (he'.2.1.trans he.2.1.symm) he'.2.2, he.2.2]
      · rename_i hnone
        have := List.find?_eq_none.1 hnone e (List.mem_of_find?_eq_some hfind)
        simp [he.1, he.2.1] at this
    · obtain rfl := Option.some.inj h
      split
      · rename_i e' hfind'
        have he' : e'.key = key ∧ e'.nonce = nonce ∧ e'.out = text ++ List.replicate 16 0 := by
          simpa using List.find?_some hfind'
        have := htag e' (List.mem_of_find?_eq_some hfind')
        rw [he'.2.2] at this
        simp at this
      · simp

/-- The texts of the settings below, read as Python reads them. -/
def PyLib.sampled : PyLib where
  jsonLoads raw :=
    if raw = "\x7b\x7d" then some (.object [])
    else if raw = "\x7b\"1\": \"ERERERERERERERERERERERERERERERERERERERERERE=\"\x7d" then
      some (.object [("1", .string "ERERERERERERERERERERERERERERERERERERERERERE=")])
    else none
  b64decode v :=
    if v = "ERERERERERERERERERERERERERERERERERERERERERE=" then some (List.replicate 32 0x11)
    else if v = "IiIiIiIiIiIiIiIiIiIiIiIiIiIiIiIiIiIiIiIiIiI=" then some (List.replicate 32 0x22)
    else none
  isdigit v := v = "1"
  int v := if v = "1" then some 1 else none

/-- The first KEK alone. -/
def firstSettings : PiiSettings .sampled where
  kekVersion := 1
  kekBase64 := "ERERERERERERERERERERERERERERERERERERERERERE="
  kekRetired := ""
  kek := List.replicate 32 0x11
  retired := ∅
  kekVersion_pos := Int.one_pos
  kek_eq := rfl
  retired_eq := rfl
  active_not_retired := rfl

/-- The second KEK, with the first one retired. -/
def secondSettings : PiiSettings .sampled where
  kekVersion := 2
  kekBase64 := "IiIiIiIiIiIiIiIiIiIiIiIiIiIiIiIiIiIiIiIiIiI="
  kekRetired := "\x7b\"1\": \"ERERERERERERERERERERERERERERERERERERERERERE=\"\x7d"
  kek := List.replicate 32 0x22
  retired := AList.insert 1 (List.replicate 32 0x11) ∅
  kekVersion_pos := by decide
  kek_eq := rfl
  retired_eq := rfl
  active_not_retired := rfl

/-- A row written under the first KEK is rewrapped under the second and read back. -/
theorem decryptPii_after_one_rotation :
    ∃ row w, encryptPii .sampled firstSettings ⟨(List.range 32).map UInt8.ofNat, rfl⟩ ⟨List.replicate 12 1, rfl⟩
        ⟨List.replicate 12 2, rfl⟩ "A123456789" = .ok row ∧
      exec (PiiWorld.step .sampled) ⟨firstSettings, row⟩
        [.rotate secondSettings, .rewrap ⟨List.replicate 12 3, rfl⟩] = some w ∧
      row.kekVersion = 1 ∧ w.row.kekVersion = 2 ∧ w.row.ciphertext = row.ciphertext ∧
      decryptPii .sampled w.settings w.row.ciphertext w.row.dekEncrypted w.row.kekVersion = .ok "A123456789" := by
  have hrun : (encryptPii .sampled firstSettings ⟨(List.range 32).map UInt8.ofNat, rfl⟩ ⟨List.replicate 12 1, rfl⟩
      ⟨List.replicate 12 2, rfl⟩ "A123456789").toOption.any (fun row =>
        row.kekVersion = 1 ∧ ((exec (PiiWorld.step .sampled) ⟨firstSettings, row⟩
          [.rotate secondSettings, .rewrap ⟨List.replicate 12 3, rfl⟩]).any
            fun w => w.row.kekVersion = 2)) = true := by
    decide +kernel
  cases hencrypt : encryptPii .sampled firstSettings ⟨(List.range 32).map UInt8.ofNat, rfl⟩ ⟨List.replicate 12 1, rfl⟩
      ⟨List.replicate 12 2, rfl⟩ "A123456789" with
  | error e =>
    rw [hencrypt] at hrun
    cases hrun
  | ok row =>
  rw [hencrypt] at hrun
  obtain ⟨hfirst, hexec⟩ : row.kekVersion = 1 ∧ _ := of_decide_eq_true hrun
  obtain ⟨w, hw, hversion⟩ := (Option.any_eq_true ..).1 hexec
  obtain ⟨hread, htext, -⟩ := (decryptPii_after_rotations sampled_lawful firstSettings
    ⟨(List.range 32).map UInt8.ofNat, rfl⟩
    ⟨List.replicate 12 1, rfl⟩ ⟨List.replicate 12 2, rfl⟩ "A123456789").2 row hencrypt _ w hw
  exact ⟨row, w, rfl, hw, hfirst, of_decide_eq_true hversion, htext, hread⟩

end Ticketing
