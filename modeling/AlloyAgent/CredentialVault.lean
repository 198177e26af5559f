import AlloyAgent.Base64
import AlloyAgent.Framing
import AlloyAgent.HashTable
import AlloyAgent.Outcome
import AlloyAgent.Utf8Lossy
import Mathlib.Tactic.DeriveCountable

/-!
# The credential vault

A vault keeps secrets in an encrypted file. Its master key comes from the environment variable
`OPENFANG_VAULT_KEY` or from the keyring, which is a file of its own.

* `Libraries`: what is assumed of the cipher, the key derivation, the files;
* `load_of_save`: the key with which a vault was saved opens it;
* `vault_reopens_iff`: in which environments a vault can be opened again.
-/

namespace AlloyAgent.CredentialVault

open Outcome (bind_eq_ok)

abbrev Key : Type := { bytes : List UInt8 // bytes.length = 32 }

/-- Errors, and the panic of `Nonce::from_slice`. -/
inductive Failure where
  | vault (message : String)
  | caused (message : String)
  | vaultLocked
  | io
  | panicked
  deriving DecidableEq

/-- On-disk vault format (encrypted). -/
structure VaultFile where
  version : ℕ
  salt : List Char
  nonce : List Char
  ciphertext : List Char
  deriving Countable

/-- `serde_json`, Argon2 and AES-256-GCM. -/
structure Libraries where
  entries : Framing.Codec (List (String × String))
  file : Framing.Codec VaultFile
  deriveKey : Key → List UInt8 → Option Key
  encrypt : Key → List UInt8 → List UInt8 → Option (List UInt8)
  decrypt : Key → List UInt8 → List UInt8 → Option (List UInt8)
  decrypt_encrypt : ∀ {key nonce plaintext ciphertext},
    encrypt key nonce plaintext = some ciphertext → decrypt key nonce ciphertext = some plaintext

/-- `map_err(|e| ExtensionError::Vault(format!("...: {e}")))?`. -/
def orFail {α : Type} (message : String) : Option α → Except Failure α
  | some a => .ok a
  | none => .error (.caused message)

def decodeMasterKey (keyB64 : List Char) : Except Failure Key := do
  let bytes ← orFail "Key decode failed: " (Base64.decode keyB64)
  if h : bytes.length = 32 then .ok ⟨bytes, h⟩
  else .error (.vault ("Invalid key length: expected 32, got " ++ toString bytes.length))

inductive Keyring where
  | missing
  | unreadable
  | holds (encoded : List Char)

def obfuscate (mask : Key) (bytes : List UInt8) : List UInt8 :=
  bytes.mapIdx fun i b => b ^^^ mask.val.getD (i % mask.val.length) 0

def storeKeyringKey (mask : Key) (keyB64 : List Char) : Keyring :=
  .holds (Base64.encode (obfuscate mask (Utf8.encode keyB64)))

/-- No caller looks at the error. -/
def loadKeyringKey (mask : Key) : Keyring → Option (List Char)
  | .missing => none
  | .unreadable => none
  | .holds encoded => do
    let obfuscated ← Base64.decode (RustStr.trim encoded)
    Utf8.fromUtf8? (obfuscate mask obfuscated)

structure World where
  file : Option (List UInt8)
  vaultKey : Option (List Char)
  keyring : Keyring

structure Vault where
  entries : Table String String
  unlocked : Bool
  cachedKey : Option Key

def Vault.new : Vault := ⟨∅, false, none⟩

def Vault.get (v : Vault) (name : String) : Option String := v.entries.lookup name

structure Draw where
  salt : { bytes : List UInt8 // bytes.length = 16 }
  nonce : { bytes : List UInt8 // bytes.length = 12 }
  order : IterOrder (String × String)
  /-- the directory can be made and the file written -/
  written : Bool

structure Chance where
  key : Key
  /-- the generated key can be stored in the keyring -/
  stored : Bool
  draw : Draw

section

variable (libs : Libraries) (mask : Key)

/-- The cached key, the keyring, the variable. -/
def resolveMasterKey (v : Vault) (w : World) : Except Failure Key :=
  match v.cachedKey with
  | some key => .ok key
  | none =>
    match loadKeyringKey mask w.keyring with
    | some keyB64 => decodeMasterKey keyB64
    | none =>
      match w.vaultKey with
      | some keyB64 => decodeMasterKey keyB64
      | none => .error .vaultLocked

/-- Save encrypted vault to disk. -/
def save (entries : Table String String) (masterKey : Key) (draw : Draw) (w : World) :
    Except Failure World := do
  let plaintext ← orFail "Serialization failed: "
    (libs.entries.encode (draw.order.arrange entries.pairs))
  let derivedKey ← orFail "Key derivation failed: " (libs.deriveKey masterKey draw.salt.val)
  let ciphertext ← orFail "Encryption failed: " (libs.encrypt derivedKey draw.nonce.val plaintext)
  let content ← orFail "Vault file serialization failed: " (libs.file.encode
    ⟨1, Base64.encode draw.salt.val, Base64.encode draw.nonce.val, Base64.encode ciphertext⟩)
  if draw.written then .ok { w with file := some content } else .error .io

def decryptFile (masterKey : Key) (file : VaultFile) : Except Failure (List (String × String)) :=
  if file.version ≠ 1 then
    .error (.vault ("Unsupported vault version: " ++ toString file.version))
  else do
    let salt ← orFail "Salt decode failed: " (Base64.decode file.salt)
    let nonce ← orFail "Nonce decode failed: " (Base64.decode file.nonce)
    let ciphertext ← orFail "Ciphertext decode failed: " (Base64.decode file.ciphertext)
    let derivedKey ← orFail "Key derivation failed: " (libs.deriveKey masterKey salt)
    if nonce.length ≠ 12 then .error .panicked
    else do
      let plaintext ← orFail "Decryption failed: " (libs.decrypt derivedKey nonce ciphertext)
      orFail "Vault data parse failed: " (libs.entries.decode plaintext)

/-- Load and decrypt vault from disk. -/
def load (masterKey : Key) (order : IterOrder (String × String)) (w : World) :
    Except Failure (Table String String) :=
  match w.file with
  | none => .error .io
  | some content => do
    let file ← orFail "Vault file parse failed: " (libs.file.decode content)
    let secrets ← decryptFile libs masterKey file
    return Table.ofPairs (order.arrange (Table.ofPairs secrets).pairs)

/-- Where `init` takes the key from: the variable, the keyring, or a random number generator. -/
def initKey (chance : Chance) (w : World) : Except Failure (Key × World) :=
  match w.vaultKey with
  | some existingB64 => (decodeMasterKey existingB64).map (·, w)
  | none =>
    match loadKeyringKey mask w.keyring with
    | some existingB64 => (decodeMasterKey existingB64).map (·, w)
    | none =>
      if chance.stored then
        .ok (chance.key,
          { w with keyring := storeKeyringKey mask (Base64.encode chance.key.val) })
      else .ok (chance.key, w)

def Vault.init (chance : Chance) (w : World) : Except Failure (Vault × World) :=
  if w.file.isSome then
    .error (.vault "Vault already exists. Delete it first to re-initialize.")
  else do
    let (key, w) ← initKey mask chance w
    let w ← save libs ∅ key chance.draw w
    return (⟨∅, true, some key⟩, w)

/-- Unlock the vault by loading and decrypting entries. -/
def Vault.unlock (v : Vault) (order : IterOrder (String × String)) (w : World) :
    Except Failure Vault :=
  if v.unlocked then .ok v
  else if w.file.isNone then
    .error (.vault "Vault not initialized. Run `openfang vault init`.")
  else do
    let masterKey ← resolveMasterKey mask v w
    let entries ← load libs masterKey order w
    return ⟨entries, true, some masterKey⟩

/-- Save other entries: what `set` and `remove` end with. -/
def Vault.commit (v : Vault) (entries : Table String String) (draw : Draw) (w : World) :
    Except Failure (Vault × World) := do
  let masterKey ← resolveMasterKey mask v w
  let w ← save libs entries masterKey draw w
  return ({ v with entries }, w)

def Vault.set (v : Vault) (name value : String) (draw : Draw) (w : World) :
    Except Failure (Vault × World) :=
  if !v.unlocked then .error .vaultLocked
  else v.commit libs mask (v.entries.insert name value) draw w

/-- Remove a secret. The file is only written if there was one. -/
def Vault.remove (v : Vault) (name : String) (draw : Draw) (w : World) :
    Except Failure (Vault × World) :=
  if !v.unlocked then .error .vaultLocked
  else if (v.entries.lookup name).isSome then v.commit libs mask (v.entries.erase name) draw w
  else .ok (v, w)

inductive Operation where
  | set (name value : String)
  | remove (name : String)

def call (s : Vault × World) : Operation × Draw → Except Failure (Vault × World)
  | (.set name value, draw) => s.1.set libs mask name value draw s.2
  | (.remove name, draw) => s.1.remove libs mask name draw s.2

/-- `init` and calls after it, all of them successful. -/
def session (chance : Chance) (calls : List (Operation × Draw)) (w : World) :
    Except Failure (Vault × World) := do
  calls.foldlM (call libs mask) (← Vault.init libs mask chance w)

end

def Operation.apply (secrets : String → Option String) : Operation → String → Option String
  | .set name value => Function.update secrets name (some value)
  | .remove name => Function.update secrets name none

def held (secrets : String → Option String) (calls : List (Operation × Draw)) :
    String → Option String :=
  calls.foldl (fun secrets c => c.1.apply secrets) secrets

/-- `init` generates a key. -/
def Generates (mask : Key) (w : World) : Prop :=
  w.vaultKey = none ∧ loadKeyringKey mask w.keyring = none

/-- The keyring holds no other key than the variable. -/
def KeysAgree (mask : Key) (w : World) : Prop :=
  ∀ keyB64 existingB64 key, w.vaultKey = some keyB64 → decodeMasterKey keyB64 = .ok key →
    loadKeyringKey mask w.keyring = some existingB64 → decodeMasterKey existingB64 = .ok key

/-- A new vault unlocks and has the secrets. -/
def Reopens (libs : Libraries) (mask : Key) (w : World) (secrets : String → Option String) : Prop :=
  ∀ order, ∃ v, Vault.new.unlock libs mask order w = .ok v ∧ v.get = secrets

variable {α : Type}

@[simp] theorem orFail_eq_ok {message : String} {x : Option α} {a : α} :
    orFail message x = .ok a ↔ x = some a := by
  cases x <;> simp [orFail]

theorem orFail_some (message : String) (a : α) : orFail message (some a) = .ok a := rfl

theorem ok_bind {β : Type} (a : α) (f : α → Except Failure β) : Except.ok a >>= f = f a := rfl

theorem obfuscate_obfuscate (mask : Key) (bytes : List UInt8) :
    obfuscate mask (obfuscate mask bytes) = bytes := by
  rw [obfuscate, obfuscate, List.mapIdx_mapIdx]
  refine List.mapIdx_eq_iff.mpr fun i => ?_
  have hself : ∀ b m : UInt8, b ^^^ m ^^^ m = b := by
    intro b m
    rw [UInt8.xor_assoc, UInt8.xor_self, UInt8.xor_zero]
  simp [Function.comp_def, hself]

theorem loadKeyringKey_storeKeyringKey (mask : Key) (keyB64 : List Char) :
    loadKeyringKey mask (storeKeyringKey mask keyB64) = some keyB64 := by
  rw [storeKeyringKey, loadKeyringKey, RustStr.trim_eq_self (Base64.encode_no_whitespace _),
    Base64.decode_encode, Option.bind_eq_bind, Option.bind_some, obfuscate_obfuscate,
    Utf8.fromUtf8?_encode]

theorem decodeMasterKey_encode (key : Key) : decodeMasterKey (Base64.encode key.val) = .ok key := by
  rw [decodeMasterKey, Base64.decode_encode]
  exact dif_pos key.property

section

variable {libs : Libraries} {mask : Key} {entries : Table String String} {key : Key} {draw : Draw}
  {w w' : World}

def written (draw : Draw) (ciphertext : List UInt8) : VaultFile :=
  ⟨1, Base64.encode draw.salt.val, Base64.encode draw.nonce.val, Base64.encode ciphertext⟩

/-- What `save` does if it succeeds. -/
theorem save_eq_ok : save libs entries key draw w = .ok w' ↔
    ∃ plaintext derivedKey ciphertext content,
      libs.entries.encode (draw.order.arrange entries.pairs) = some plaintext ∧
      libs.deriveKey key draw.salt.val = some derivedKey ∧
      libs.encrypt derivedKey draw.nonce.val plaintext = some ciphertext ∧
      libs.file.encode (written draw ciphertext) = some content ∧
      draw.written = true ∧ w' = { w with file := some content } := by
  simp only [save, bind_eq_ok, orFail_eq_ok, written, exists_and_left]
  cases draw.written <;> simp [eq_comm]

theorem load_written (hfile : w.file = some content)
    (hcontent : libs.file.encode (written draw ciphertext) = some content) (key' : Key)
    (order : IterOrder (String × String)) :
    load libs key' order w = (do
      let derivedKey ← orFail "Key derivation failed: " (libs.deriveKey key' draw.salt.val)
      let plaintext ← orFail "Decryption failed: "
        (libs.decrypt derivedKey draw.nonce.val ciphertext)
      let secrets ← orFail "Vault data parse failed: " (libs.entries.decode plaintext)
      return Table.ofPairs (order.arrange (Table.ofPairs secrets).pairs)) := by
  have hversion : ¬ (written draw ciphertext).version ≠ 1 := not_not.mpr rfl
  have hnonce : ¬ draw.nonce.val.length ≠ 12 := not_not.mpr draw.nonce.property
  rw [load, hfile]
  dsimp only
  rw [libs.file.decode_encode hcontent, orFail_some, ok_bind, decryptFile, if_neg hversion]
  simp only [written, Base64.decode_encode, orFail_some, ok_bind, hnonce, if_false, bind_assoc]

/-- **The key that has written the file reads it.** -/
theorem load_of_save (h : save libs entries key draw w = .ok w')
    (order : IterOrder (String × String)) :
    ∃ t, load libs key order w' = .ok t ∧ ∀ name, t.lookup name = entries.lookup name := by
  obtain ⟨plaintext, derivedKey, ciphertext, content, hplain, hkey, hcipher, hcontent, -, rfl⟩ :=
    save_eq_ok.mp h
  rw [load_written rfl hcontent, hkey]
  refine ⟨Table.ofPairs (order.arrange
    (Table.ofPairs (draw.order.arrange entries.pairs)).pairs), ?_, fun name => ?_⟩
  · rw [orFail_some, ok_bind, libs.decrypt_encrypt hcipher, orFail_some, ok_bind,
      libs.entries.decode_encode hplain, orFail_some, ok_bind]
    rfl
  · rw [Table.lookup_ofPairs_arrange, Table.lookup_ofPairs_arrange]

end

/-! ## What the calls leave behind -/

section

variable {libs : Libraries} {mask : Key} {key : Key} {v : Vault} {w : World}

/-- The vault is open, and the file holds its entries under its key. -/
structure Stored (libs : Libraries) (key : Key) (outside : World) (s : Vault × World) : Prop where
  unlocked : s.1.unlocked = true
  cached : s.1.cachedKey = some key
  file : s.2.file.isSome = true
  loads : ∀ order, ∃ t, load libs key order s.2 = .ok t ∧
    ∀ name, t.lookup name = s.1.entries.lookup name
  vaultKey : s.2.vaultKey = outside.vaultKey
  keyring : s.2.keyring = outside.keyring

variable {outside : World}

theorem stored_of_save (h : save libs v.entries key draw w = .ok w') (hunlocked : v.unlocked = true)
    (hcached : v.cachedKey = some key) (hvar : w.vaultKey = outside.vaultKey)
    (hring : w.keyring = outside.keyring) : Stored libs key outside (v, w') := by
  have hload := load_of_save h
  obtain ⟨_, _, _, _, -, -, -, -, -, rfl⟩ := save_eq_ok.mp h
  exact ⟨hunlocked, hcached, rfl, hload, hvar, hring⟩

variable {s s' : Vault × World}

section

variable (hs : Stored libs key outside s)
include hs

theorem commit_stored (h : s.1.commit libs mask entries draw s.2 = .ok s') :
    Stored libs key outside s' ∧ s'.1.entries = entries := by
  simp only [Vault.commit, bind_eq_ok] at h
  obtain ⟨masterKey, hkey, w', hsave, hs'⟩ := h
  obtain rfl : key = masterKey := by
    rw [resolveMasterKey, hs.cached] at hkey
    exact Except.ok.inj hkey
  cases hs'
  exact ⟨stored_of_save (v := { s.1 with entries }) hsave hs.unlocked hs.cached hs.vaultKey
    hs.keyring, rfl⟩

theorem call_stored (h : call libs mask s c = .ok s') :
    Stored libs key outside s' ∧ s'.1.get = c.1.apply s.1.get := by
  obtain ⟨operation, draw⟩ := c
  have hopen : ¬ (!s.1.unlocked) = true := by simp [hs.unlocked]
  cases operation with
  | set name value =>
    rw [call, Vault.set, if_neg hopen] at h
    obtain ⟨hs', hentries⟩ := commit_stored hs h
    refine ⟨hs', funext fun name' => ?_⟩
    rw [Vault.get, hentries]
    exact congrFun (Table.lookup_insert_eq_update s.1.entries name value) name'
  | remove name =>
    rw [call, Vault.remove, if_neg hopen] at h
    split_ifs at h with hsome
    · obtain ⟨hs', hentries⟩ := commit_stored hs h
      refine ⟨hs', funext fun name' => ?_⟩
      rw [Vault.get, hentries]
      exact congrFun (Table.lookup_erase_eq_update s.1.entries name) name'
    · -- nothing is written, and nothing was there
      cases h
      refine ⟨hs, (Function.update_eq_self_iff.mpr ?_).symm⟩
      exact (Option.not_isSome_iff_eq_none.mp hsome).symm

theorem calls_stored (h : calls.foldlM (call libs mask) s = .ok s') :
    Stored libs key outside s' ∧ s'.1.get = held s.1.get calls := by
  induction calls generalizing s with
  | nil =>
    cases h
    exact ⟨hs, rfl⟩
  | cons c calls ih =>
    rw [List.foldlM_cons, bind_eq_ok] at h
    obtain ⟨s₁, hcall, hrest⟩ := h
    obtain ⟨hs₁, hget⟩ := call_stored hs hcall
    obtain ⟨hs', hget'⟩ := ih hs₁ hrest
    exact ⟨hs', hget'.trans (by rw [hget]; rfl)⟩

end

variable {chance : Chance}

/-- What `init` does if it succeeds. -/
theorem init_eq_ok :
    Vault.init libs mask chance w = .ok s ↔
      w.file = none ∧ ∃ key w₁ w₂, initKey mask chance w = .ok (key, w₁) ∧
        save libs ∅ key chance.draw w₁ = .ok w₂ ∧ s = (⟨∅, true, some key⟩, w₂) := by
  unfold Vault.init
  cases hfile : w.file with
  | some content => simp
  | none =>
    rw [if_neg (by simp), bind_eq_ok]
    constructor
    · rintro ⟨⟨key, w₁⟩, hkey, h⟩
      obtain ⟨w₂, hsave, hs⟩ := bind_eq_ok.mp h
      exact ⟨rfl, key, w₁, w₂, hkey, hsave, (Except.ok.inj hs).symm⟩
    · rintro ⟨-, key, w₁, w₂, hkey, hsave, rfl⟩
      exact ⟨(key, w₁), hkey, bind_eq_ok.mpr ⟨w₂, hsave, rfl⟩⟩

variable {calls : List (Operation × Draw)}

/-- A session leaves the entries in the file, under the key of `init`. -/
theorem session_stored (h : session libs mask chance calls w = .ok s) :
    ∃ key w₁, initKey mask chance w = .ok (key, w₁) ∧ Stored libs key w₁ s ∧
      s.1.get = held (fun _ => none) calls := by
  obtain ⟨s₀, hinit, hcalls⟩ := bind_eq_ok.mp h
  obtain ⟨-, key, w₁, w₂, hkey, hsave, rfl⟩ := init_eq_ok.mp hinit
  have hs₀ : Stored libs key w₁ (⟨∅, true, some key⟩, w₂) := stored_of_save hsave rfl rfl rfl rfl
  obtain ⟨hs, hget⟩ := calls_stored hs₀ hcalls
  exact ⟨key, w₁, hkey, hs, hget⟩

/-! ## The two resolutions -/

variable {w₁ : World}

theorem map_with_eq_ok {x : Except Failure Key} (h : x.map (·, w) = .ok (key, w₁)) :
    x = .ok key ∧ w₁ = w := by
  cases x with
  | error e => cases h
  | ok key' =>
    cases h
    exact ⟨rfl, rfl⟩

/-- Where `init` has its key from. -/
theorem initKey_cases (h : initKey mask chance w = .ok (key, w₁)) :
    (∃ keyB64, w.vaultKey = some keyB64 ∧ decodeMasterKey keyB64 = .ok key ∧ w₁ = w) ∨
    (∃ keyB64, w.vaultKey = none ∧ loadKeyringKey mask w.keyring = some keyB64 ∧
      decodeMasterKey keyB64 = .ok key ∧ w₁ = w) ∨
    (Generates mask w ∧ key = chance.key ∧ w₁ = if chance.stored then
      { w with keyring := storeKeyringKey mask (Base64.encode key.val) } else w) := by
  unfold initKey at h
  cases hvar : w.vaultKey with
  | some keyB64 =>
    rw [hvar] at h
    obtain ⟨hkey, rfl⟩ := map_with_eq_ok h
    exact .inl ⟨keyB64, rfl, hkey, rfl⟩
  | none =>
    cases hring : loadKeyringKey mask w.keyring with
    | some keyB64 =>
      rw [hvar, hring] at h
      obtain ⟨hkey, rfl⟩ := map_with_eq_ok h
      exact .inr (.inl ⟨keyB64, rfl, rfl, hkey, rfl⟩)
    | none =>
      rw [hvar, hring] at h
      refine .inr (.inr ⟨⟨hvar, hring⟩, ?_⟩)
      split_ifs at h with hstored
      · cases h
        exact ⟨rfl, (if_pos hstored).symm⟩
      · cases h
        exact ⟨rfl, (if_neg hstored).symm⟩

/-- The key of `init` is the one that a new vault finds. -/
theorem resolveMasterKey_of_initKey (hagree : KeysAgree mask w)
    (hstored : Generates mask w → chance.stored = true) (h : initKey mask chance w = .ok (key, w₁))
    (hvar : w₂.vaultKey = w₁.vaultKey) (hring : w₂.keyring = w₁.keyring) :
    resolveMasterKey mask Vault.new w₂ = .ok key := by
  rw [resolveMasterKey, hvar, hring]
  rcases initKey_cases h with ⟨keyB64, hvar', hkey, rfl⟩ | ⟨keyB64, -, hring', hkey, rfl⟩ |
    ⟨hgenerates, -, rfl⟩
  · -- `init` has asked the variable first, the new vault asks the keyring first
    cases hring' : loadKeyringKey mask w₁.keyring with
    | some existingB64 => exact hagree keyB64 existingB64 key hvar' hkey hring'
    | none =>
      rw [hvar']
      exact hkey
  · rw [hring']
    exact hkey
  · rw [if_pos (hstored hgenerates)]
    rw [loadKeyringKey_storeKeyringKey]
    exact decodeMasterKey_encode key

theorem unlock_new (hfile : w.file.isSome = true) :
    Vault.new.unlock libs mask order w = (do
      let masterKey ← resolveMasterKey mask Vault.new w
      let entries ← load libs masterKey order w
      return ⟨entries, true, some masterKey⟩) := by
  rw [Vault.unlock, if_neg (by simp [Vault.new]), 
    if_neg (by simpa [Option.isSome_iff_ne_none] using hfile)]

theorem reopens_of_keysAgree (hagree : KeysAgree mask w)
    (hstored : Generates mask w → chance.stored = true)
    (h : session libs mask chance calls w = .ok s) :
    Reopens libs mask s.2 (held (fun _ => none) calls) := by
  intro order
  obtain ⟨key, w₁, hkey, hs, hget⟩ := session_stored h
  obtain ⟨t, hload, hlookup⟩ := hs.loads order
  refine ⟨⟨t, true, some key⟩, ?_, funext fun name => ?_⟩
  · rw [unlock_new hs.file,
      resolveMasterKey_of_initKey hagree hstored hkey hs.vaultKey hs.keyring, ok_bind, hload]
    rfl
  · rw [← hget]
    exact hlookup name

end

/-! ## Two different keys -/

/-- The libraries never fail to write, and only the right key decrypts. -/
structure Discerning (libs : Libraries) : Prop where
  entries : ∀ secrets, ∃ plaintext, libs.entries.encode secrets = some plaintext
  file : ∀ file, ∃ content, libs.file.encode file = some content
  deriveKey : ∀ key salt, ∃ derivedKey, libs.deriveKey key salt = some derivedKey
  encrypt : ∀ key nonce plaintext, ∃ ciphertext,
    libs.encrypt key nonce plaintext = some ciphertext
  rejects : ∀ {key key' salt derivedKey derivedKey' nonce plaintext ciphertext}, key' ≠ key →
    libs.deriveKey key salt = some derivedKey → libs.deriveKey key' salt = some derivedKey' →
    libs.encrypt derivedKey nonce plaintext = some ciphertext →
    libs.decrypt derivedKey' nonce ciphertext = none

theorem exists_discerning : ∃ libs, Discerning libs := by
  obtain ⟨entries, hentries⟩ :=
    Framing.exists_codec fun _ : List (String × String) => 0
  obtain ⟨file, hfile⟩ := Framing.exists_codec fun _ : VaultFile => 0
  refine ⟨{
    entries, file
    deriveKey := fun key _ => some key
    encrypt := fun key _ plaintext => some (key.val ++ plaintext)
    decrypt := fun key _ ciphertext =>
      if ciphertext.take 32 = key.val then some (ciphertext.drop 32) else none
    decrypt_encrypt := ?_ }, ?_⟩
  · rintro key nonce plaintext _ ⟨⟩
    rw [if_pos (List.take_left' key.property), List.drop_left' key.property]
  · refine ⟨fun secrets => ?_, fun f => ?_, fun key _ => ⟨key, rfl⟩, fun _ _ _ => ⟨_, rfl⟩, ?_⟩
    · obtain ⟨plaintext, h, -⟩ := hentries secrets
      exact ⟨plaintext, h⟩
    · obtain ⟨content, h, -⟩ := hfile f
      exact ⟨content, h⟩
    · rintro key key' salt _ _ nonce plaintext _ hne ⟨⟩ ⟨⟩ ⟨⟩
      refine if_neg fun htake => hne (Subtype.ext ?_)
      rw [← htake, List.take_left' key.property]

section

variable {libs : Libraries} {mask : Key} {key : Key} {w : World} {draw : Draw}

theorem Discerning.save (hlibs : Discerning libs) (entries : Table String String) (key : Key)
    (draw : Draw) (hdraw : draw.written = true) (w : World) :
    ∃ w', CredentialVault.save libs entries key draw w = .ok w' := by
  obtain ⟨plaintext, hplain⟩ := hlibs.entries (draw.order.arrange entries.pairs)
  obtain ⟨derivedKey, hkey⟩ := hlibs.deriveKey key draw.salt.val
  obtain ⟨ciphertext, hcipher⟩ := hlibs.encrypt derivedKey draw.nonce.val plaintext
  obtain ⟨content, hcontent⟩ := hlibs.file (written draw ciphertext)
  exact ⟨_, save_eq_ok.mpr
    ⟨plaintext, derivedKey, ciphertext, content, hplain, hkey, hcipher, hcontent, hdraw, rfl⟩⟩

variable {entries : Table String String}

theorem Discerning.load (hlibs : Discerning libs) (hne : key' ≠ key)
    (h : CredentialVault.save libs entries key draw w = .ok w')
    (order : IterOrder (String × String)) :
    CredentialVault.load libs key' order w' = .error (.caused "Decryption failed: ") := by
  obtain ⟨plaintext, derivedKey, ciphertext, content, -, hkey, hcipher, hcontent, -, rfl⟩ :=
    save_eq_ok.mp h
  obtain ⟨derivedKey', hkey'⟩ := hlibs.deriveKey key' draw.salt.val
  rw [load_written rfl hcontent, hkey', orFail_some, ok_bind,
    hlibs.rejects hne hkey hkey' hcipher]
  rfl

theorem unlock_of_save (h : CredentialVault.save libs entries key draw w = .ok w')
    (hring : loadKeyringKey mask w.keyring = some keyB64) (order : IterOrder (String × String)) :
    Vault.new.unlock libs mask order w' = (do
      let masterKey ← decodeMasterKey keyB64
      let entries ← CredentialVault.load libs masterKey order w'
      return ⟨entries, true, some masterKey⟩) := by
  obtain ⟨_, _, _, _, -, -, -, -, -, rfl⟩ := save_eq_ok.mp h
  rw [unlock_new rfl, resolveMasterKey]
  dsimp only [Vault.new]
  rw [hring]

end

def plainDraw : Draw :=
  ⟨⟨List.replicate 16 0, rfl⟩, ⟨List.replicate 12 0, rfl⟩, .stored _, true⟩

def evenKey (b : UInt8) : Key := ⟨List.replicate 32 b, rfl⟩

/-- **When a vault can be opened again**, for every content of the variable and of the keyring. -/
theorem vault_reopens_iff (mask : Key) (vaultKey : Option (List Char)) (keyring : Keyring) :
    (∀ libs chance calls s, (Generates mask ⟨none, vaultKey, keyring⟩ → chance.stored = true) →
      session libs mask chance calls ⟨none, vaultKey, keyring⟩ = .ok s →
      Reopens libs mask s.2 (held (fun _ => none) calls)) ↔
    KeysAgree mask ⟨none, vaultKey, keyring⟩ := by
  constructor
  · rintro h keyB64 existingB64 key ⟨⟩ hkey hring
    obtain ⟨libs, hlibs⟩ := exists_discerning
    obtain ⟨w', hsave⟩ := hlibs.save ∅ key plainDraw rfl ⟨none, some keyB64, keyring⟩
    -- init, and nothing after it
    have hinit : session libs mask ⟨key, true, plainDraw⟩ [] ⟨none, some keyB64, keyring⟩ =
        .ok (⟨∅, true, some key⟩, w') := by
      refine bind_eq_ok.mpr ⟨_, init_eq_ok.mpr ⟨rfl, key, _, w', ?_, hsave, rfl⟩, rfl⟩
      rw [initKey]
      dsimp only
      rw [hkey]
      rfl
    obtain ⟨v, hunlock, -⟩ := h libs _ [] _ (fun _ => rfl) hinit (.stored _)
    rw [unlock_of_save hsave hring, bind_eq_ok] at hunlock
    obtain ⟨key', hkey', hload⟩ := hunlock
    by_cases heq : key' = key
    · rw [hkey', heq]
    · rw [hlibs.load heq hsave] at hload
      cases hload
  · intro hagree libs chance calls s hstored hsession
    exact reopens_of_keysAgree hagree hstored hsession

/-- A vault is written with the key of the variable and read with that of the keyring. -/
theorem other_key_in_keyring :
    ∃ libs, ∀ (mask : Key) (order : IterOrder (String × String)), ∃ s,
      session libs mask ⟨evenKey 0x43, true, plainDraw⟩
          [(.set "GITHUB_TOKEN" "ghp_test123", plainDraw)]
          ⟨none, some (Base64.encode (evenKey 0x41).val),
            storeKeyringKey mask (Base64.encode (evenKey 0x42).val)⟩ = .ok s ∧
      Vault.new.unlock libs mask order s.2 = .error (.caused "Decryption failed: ") := by
  obtain ⟨libs, hlibs⟩ := exists_discerning
  refine ⟨libs, fun mask order => ?_⟩
  obtain ⟨w₁, hinit⟩ := hlibs.save ∅ (evenKey 0x41) plainDraw rfl
    ⟨none, some (Base64.encode (evenKey 0x41).val),
      storeKeyringKey mask (Base64.encode (evenKey 0x42).val)⟩
  obtain ⟨w₂, hset⟩ := hlibs.save (AList.insert "GITHUB_TOKEN" "ghp_test123" ∅)
    (evenKey 0x41) plainDraw rfl w₁
  have hring : loadKeyringKey mask w₁.keyring = some (Base64.encode (evenKey 0x42).val) := by
    obtain ⟨_, _, _, _, -, -, -, -, -, rfl⟩ := save_eq_ok.mp hinit
    exact loadKeyringKey_storeKeyringKey mask _
  refine ⟨(⟨AList.insert "GITHUB_TOKEN" "ghp_test123" ∅, true, some (evenKey 0x41)⟩, w₂), ?_, ?_⟩
  · refine bind_eq_ok.mpr ⟨_, init_eq_ok.mpr ⟨rfl, evenKey 0x41, _, w₁, ?_, hinit, rfl⟩, ?_⟩
    · rw [initKey]
      dsimp only
      rw [decodeMasterKey_encode]
      rfl
    · exact bind_eq_ok.mpr ⟨_, bind_eq_ok.mpr ⟨_, rfl, bind_eq_ok.mpr ⟨w₂, hset, rfl⟩⟩, rfl⟩
  · rw [unlock_of_save hset hring, decodeMasterKey_encode, ok_bind,
      hlibs.load (by decide) hset]
    rfl

end AlloyAgent.CredentialVault
