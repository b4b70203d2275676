import Beancash.Solver
import Mathlib.Data.List.AList
import Mathlib.Data.List.MinMax
import Mathlib.Logic.Function.Basic

namespace Beancash

open ByteStream

/-- `CKey::Check`: not zero, and below the order of the curve. The key is big endian. -/
def checkKey (vch : List UInt8) : Bool :=
  vch.length = 32 && decide (0 < ofLittleEndian vch.reverse) &&
    decide (ofLittleEndian vch.reverse ≤
      0xFFFFFFFFFFFFFFFFFFFFFFFFFFFFFFFEBAAEDCE6AF48A03BBFD25E8CD0364140)

/-- A `CKey` that is valid. -/
structure SecretKey where
  vch : List UInt8
  fCompressed : Bool
  check : checkKey vch = true
deriving DecidableEq

/-- `CKey::Set`; `none` is a key that is not valid. -/
def SecretKey.set (vch : List UInt8) (fCompressedIn : Bool) : Option SecretKey :=
  if h : checkKey vch = true then some ⟨vch, fCompressedIn, h⟩ else none

theorem SecretKey.length_vch (key : SecretKey) : key.vch.length = 32 := by
  have hcheck := key.check
  simp only [checkKey, Bool.and_eq_true, decide_eq_true_eq] at hcheck
  exact hcheck.1.1

theorem SecretKey.set_vch (key : SecretKey) : SecretKey.set key.vch key.fCompressed = some key :=
  dif_pos key.check

/-- `CPubKey::IsCompressed` -/
def isCompressedPubKey (vchPubKey : List UInt8) : Bool := vchPubKey.length = 33

/-- What is called of OpenSSL: the hashes, the public key of a key, AES in 256 bits with a key and an
IV of 32 bytes, and `EVP_BytesToKey` with a salt and a number of rounds. -/
structure KeyEnv where
  crypto : Crypto
  getPubKey : SecretKey → List UInt8
  encrypt : (chKey chIV vchPlaintext : List UInt8) → Option (List UInt8)
  decrypt : (chKey chIV vchCiphertext : List UInt8) → Option (List UInt8)
  bytesToKey : (strKeyData chSalt : List UInt8) → (nRounds : UInt32) →
    Option (List UInt8 × List UInt8)

/-- `CCrypter::SetKey` -/
def setKey (chNewKey chNewIV : List UInt8) : Option (List UInt8 × List UInt8) :=
  if chNewKey.length ≠ 32 ∨ chNewIV.length ≠ 32 then none else some (chNewKey, chNewIV)

def encryptSecret (env : KeyEnv) (vMasterKey vchPlaintext nIV : List UInt8) : Option (List UInt8) :=
  (setKey vMasterKey nIV).bind fun (chKey, chIV) => env.encrypt chKey chIV vchPlaintext

def decryptSecret (env : KeyEnv) (vMasterKey vchCiphertext nIV : List UInt8) :
    Option (List UInt8) :=
  (setKey vMasterKey nIV).bind fun (chKey, chIV) => env.decrypt chKey chIV vchCiphertext

/-- `CCryptoKeyStore`, without its scripts. -/
structure CryptoKeyStore where
  mapKeys : AList fun _ : KeyID => SecretKey
  mapCryptedKeys : AList fun _ : KeyID => List UInt8 × List UInt8
  vMasterKey : List UInt8
  fUseCrypto : Bool

namespace CryptoKeyStore

def initial : CryptoKeyStore := ⟨∅, ∅, [], false⟩

def isLocked (s : CryptoKeyStore) : Bool := s.fUseCrypto && s.vMasterKey.isEmpty

def setCrypted (s : CryptoKeyStore) : Bool × CryptoKeyStore :=
  if s.fUseCrypto then (true, s)
  else if !s.mapKeys.entries.isEmpty then (false, s)
  else (true, { s with fUseCrypto := true })

def lock (s : CryptoKeyStore) : Bool × CryptoKeyStore :=
  let (fCrypted, s) := s.setCrypted
  if !fCrypted then (false, s) else (true, { s with vMasterKey := [] })

/-- The entry of `mapCryptedKeys` with the smallest key. -/
def firstCrypted (s : CryptoKeyStore) : Option (List UInt8 × List UInt8) :=
  (s.mapCryptedKeys.entries.argmin fun e => ofLittleEndian e.1).map Sigma.snd

/-- `Unlock`, which looks at the first of the encrypted keys only. The result is `none` where
`GetPubKey` asserts that a key is valid, and it is not. -/
def unlock (env : KeyEnv) (vMasterKeyIn : List UInt8) (s : CryptoKeyStore) :
    Option (Bool × CryptoKeyStore) :=
  let (fCrypted, s) := s.setCrypted
  if !fCrypted then some (false, s)
  else
    match s.firstCrypted with
    | none => some (true, { s with vMasterKey := vMasterKeyIn })
    | some (vchPubKey, vchCryptedSecret) =>
      match decryptSecret env vMasterKeyIn vchCryptedSecret (env.crypto.hash vchPubKey).toList with
      | none => some (false, s)
      | some vchSecret =>
        if vchSecret.length ≠ 32 then some (false, s)
        else do
          let key ← SecretKey.set vchSecret (isCompressedPubKey vchPubKey)
          if env.getPubKey key = vchPubKey then return (true, { s with vMasterKey := vMasterKeyIn })
          else return (false, s)

def addCryptedKey (env : KeyEnv) (vchPubKey vchCryptedSecret : List UInt8) (s : CryptoKeyStore) :
    Bool × CryptoKeyStore :=
  let (fCrypted, s) := s.setCrypted
  if !fCrypted then (false, s)
  else
    (true, { s with
      mapCryptedKeys :=
        s.mapCryptedKeys.insert (pubKeyID env.crypto vchPubKey) (vchPubKey, vchCryptedSecret) })

def addKeyPubKey (env : KeyEnv) (key : SecretKey) (pubkey : List UInt8) (s : CryptoKeyStore) :
    Bool × CryptoKeyStore :=
  if !s.fUseCrypto then
    (true, { s with mapKeys := s.mapKeys.insert (pubKeyID env.crypto pubkey) key })
  else if s.isLocked then (false, s)
  else
    match encryptSecret env s.vMasterKey key.vch (env.crypto.hash pubkey).toList with
    | none => (false, s)
    | some vchCryptedSecret => s.addCryptedKey env pubkey vchCryptedSecret

/-- The loop of `EncryptKeys`. -/
def encryptLoop (env : KeyEnv) (vMasterKeyIn : List UInt8) :
    List (Sigma fun _ : KeyID => SecretKey) → CryptoKeyStore → Bool × CryptoKeyStore
  | [], s => (true, { s with mapKeys := ∅ })
  | ⟨_, key⟩ :: rest, s =>
    let vchPubKey := env.getPubKey key
    match encryptSecret env vMasterKeyIn key.vch (env.crypto.hash vchPubKey).toList with
    | none => (false, s)
    | some vchCryptedSecret =>
      let (fAdded, s) := s.addCryptedKey env vchPubKey vchCryptedSecret
      if fAdded then encryptLoop env vMasterKeyIn rest s else (false, s)

def encryptKeys (env : KeyEnv) (vMasterKeyIn : List UInt8) (s : CryptoKeyStore) :
    Bool × CryptoKeyStore :=
  if !s.mapCryptedKeys.entries.isEmpty || s.fUseCrypto then (false, s)
  else encryptLoop env vMasterKeyIn s.mapKeys.entries { s with fUseCrypto := true }

def haveKey (s : CryptoKeyStore) (address : KeyID) : Bool :=
  if !s.fUseCrypto then decide (address ∈ s.mapKeys) else decide (address ∈ s.mapCryptedKeys)

/-- `GetKey`; the key that is returned may be invalid. -/
def getKey (env : KeyEnv) (s : CryptoKeyStore) (address : KeyID) : Option (Option SecretKey) :=
  if !s.fUseCrypto then (s.mapKeys.lookup address).map some
  else do
    let (vchPubKey, vchCryptedSecret) ← s.mapCryptedKeys.lookup address
    let vchSecret ← decryptSecret env s.vMasterKey vchCryptedSecret
      (env.crypto.hash vchPubKey).toList
    if vchSecret.length ≠ 32 then none
    else return SecretKey.set vchSecret (isCompressedPubKey vchPubKey)

def getPubKey (env : KeyEnv) (s : CryptoKeyStore) (address : KeyID) : Option (List UInt8) :=
  if !s.fUseCrypto then (s.mapKeys.lookup address).map env.getPubKey
  else (s.mapCryptedKeys.lookup address).map Prod.fst

end CryptoKeyStore

/-- A call of the store. -/
inductive KeyStoreCall where
  | addKeyPubKey (key : SecretKey) (pubkey : List UInt8)
  | encryptKeys (vMasterKeyIn : List UInt8)
  | lock
  | unlock (vMasterKeyIn : List UInt8)

/-- A call with what it returns. -/
def KeyStoreCall.run (env : KeyEnv) (s : CryptoKeyStore) :
    KeyStoreCall → Option (Bool × CryptoKeyStore)
  | .addKeyPubKey key pubkey => some (s.addKeyPubKey env key pubkey)
  | .encryptKeys vMasterKeyIn => some (s.encryptKeys env vMasterKeyIn)
  | .lock => some s.lock
  | .unlock vMasterKeyIn => s.unlock env vMasterKeyIn

/-- The keys that were added so far. -/
abbrev AddedKeys := KeyID → Option SecretKey

/-- What a call adds, by what it returned. -/
def KeyStoreCall.added (env : KeyEnv) (fRet : Bool) (added : AddedKeys) : KeyStoreCall → AddedKeys
  | .addKeyPubKey key pubkey =>
    if fRet then Function.update added (pubKeyID env.crypto pubkey) (some key) else added
  | _ => added

/-- Calls one after the other. -/
def runKeyStore (env : KeyEnv) :
    List KeyStoreCall → CryptoKeyStore × AddedKeys → Option (CryptoKeyStore × AddedKeys)
  | [], s => some s
  | call :: calls, (s, added) => do
    let (fRet, s) ← call.run env s
    runKeyStore env calls (s, call.added env fRet added)

end Beancash
