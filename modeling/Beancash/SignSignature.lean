import Beancash.TemplateRuns

namespace Beancash

open ByteStream StackMachine

/-- `CKey`: `GetPubKey()`, and `Sign`, which is OpenSSL's. -/
structure SigningKey where
  pubKey : List UInt8
  sign : Uint256 → Option (List UInt8)

/-- A key store with the keys that it hands out. -/
structure SigningKeyStore extends KeyStore where
  getKey : KeyID → Option SigningKey

/-- `CKeyStore::GetPubKey`, into a key that is invalid at first. -/
def SigningKeyStore.getPubKey (keystore : SigningKeyStore) (address : KeyID) : List UInt8 :=
  (keystore.getKey address).elim [] SigningKey.pubKey

/-- `operator<<` of a public key, which is shorter than `OP_PUSHDATA1`. -/
def Script.pushPubKey (key : List UInt8) : Script := .ofNat key.length :: key

/-- The hash that is signed. -/
def sigHash (c : Crypto) (scriptCode : Script) (txTo : Transaction) (nIn : UInt32)
    (nHashType : Int32) : Uint256 :=
  signatureHash (fun bytes => .ofNat 256 (ofLittleEndian (c.hash bytes).toList)) scriptCode txTo
    nIn nHashType

/-- The hash type, as it is tacked on to a signature. -/
def hashTypeByte (nHashType : Int32) : UInt8 := nHashType.toUInt32.toUInt8

def sign1 (keystore : SigningKeyStore) (address : KeyID) (hash : Uint256) (nHashType : Int32)
    (scriptSigRet : Script) : Option Script := do
  let key ← keystore.getKey address
  let vchSig ← key.sign hash
  return scriptSigRet ++ Script.pushBytes (vchSig ++ [hashTypeByte nHashType])

/-- The loop of `SignN`, over the keys of the script. -/
def signKeys (c : Crypto) (keystore : SigningKeyStore) (hash : Uint256) (nHashType : Int32)
    (nRequired : ℕ) : List (List UInt8) → ℕ → Script → ℕ × Script
  | pubkey :: pubkeys, nSigned, scriptSigRet =>
    if nSigned < nRequired then
      match sign1 keystore (pubKeyID c pubkey) hash nHashType scriptSigRet with
      | some scriptSigRet =>
        signKeys c keystore hash nHashType nRequired pubkeys (nSigned + 1) scriptSigRet
      | none => signKeys c keystore hash nHashType nRequired pubkeys nSigned scriptSigRet
    else (nSigned, scriptSigRet)
  | [], nSigned, scriptSigRet => (nSigned, scriptSigRet)

def signN (c : Crypto) (keystore : SigningKeyStore) (multisigdata : List (List UInt8))
    (hash : Uint256) (nHashType : Int32) (scriptSigRet : Script) : Bool × Script :=
  let nRequired := ((multisigdata.headD []).headD 0).toNat
  let (nSigned, scriptSigRet) :=
    signKeys c keystore hash nHashType nRequired multisigdata.tail.dropLast 0 scriptSigRet
  (nSigned = nRequired, scriptSigRet)

/-- `Solver` with a key store: whether the script is satisfied, its type, and the signatures, or
the script that a script hash stands for. -/
def signSolver (c : Crypto) (keystore : SigningKeyStore) (scriptPubKey : Script) (hash : Uint256)
    (nHashType : Int32) : Bool × TxnOutType × Script :=
  match solver scriptPubKey with
  | none => (false, .nonStandard, [])
  | some (.nonStandard, _) => (false, .nonStandard, [])
  | some (.nullData, _) => (false, .nullData, [])
  | some (.pubKey, vSolutions) =>
    match sign1 keystore (pubKeyID c (vSolutions.headD [])) hash nHashType [] with
    | none => (false, .pubKey, [])
    | some scriptSigRet => (true, .pubKey, scriptSigRet)
  | some (.pubKeyHash, vSolutions) =>
    let keyID := vSolutions.headD []
    match sign1 keystore keyID hash nHashType [] with
    | none => (false, .pubKeyHash, [])
    | some scriptSigRet =>
      (true, .pubKeyHash, scriptSigRet ++ Script.pushPubKey (keystore.getPubKey keyID))
  | some (.scriptHash, vSolutions) =>
    match keystore.mapScripts.lookup (vSolutions.headD []) with
    | none => (false, .scriptHash, [])
    | some subscript => (true, .scriptHash, subscript)
  | some (.multisig, vSolutions) =>
    -- workaround CHECKMULTISIG bug
    let (fSigned, scriptSigRet) := signN c keystore vSolutions hash nHashType [0x00]
    (fSigned, .multisig, scriptSigRet)

/-- `SignSignature`, and the transaction as it leaves it. -/
def signSignature (c : Crypto) (keystore : SigningKeyStore) (fromPubKey : Script)
    (txTo : Transaction) (nIn : UInt32) (nHashType : Int32) : ScriptEval (Bool × Transaction) :=
  let hash := sigHash c fromPubKey txTo nIn nHashType
  let (fSolved, whichType, scriptSig) := signSolver c keystore fromPubKey hash nHashType
  if !fSolved then return (false, txTo.setScriptSig nIn.toNat scriptSig)
  else
    let (fSolved, scriptSig) :=
      if whichType = .scriptHash then
        let subscript := scriptSig
        -- the hash is computed again with the subscript in place of the script
        let hash2 := sigHash c subscript (txTo.setScriptSig nIn.toNat scriptSig) nIn nHashType
        let (fSolved, subType, scriptSig) := signSolver c keystore subscript hash2 nHashType
        -- the subscript is appended whether or not it is completely signed
        (fSolved && subType ≠ .scriptHash, scriptSig ++ Script.pushBytes subscript)
      else (true, scriptSig)
    let txTo := txTo.setScriptSig nIn.toNat scriptSig
    if !fSolved then return (false, txTo)
    else do
      let fVerified ← verifyScript ⟨c, txTo, nIn, 0⟩ scriptSig fromPubKey
      return (fVerified, txTo)

/-- The hash types, with or without `SIGHASH_ANYONECANPAY`. -/
def hashTypes : List Int32 :=
  [sigHashAll, sigHashNone, sigHashSingle, sigHashAll ||| sigHashAnyoneCanPay,
    sigHashNone ||| sigHashAnyoneCanPay, sigHashSingle ||| sigHashAnyoneCanPay]

/-- A key that is kept under the hash of its public key and no other, and whose signatures are
well formed and verify. -/
structure SigningKey.Works (c : Crypto) (id : KeyID) (key : SigningKey) : Prop where
  canonical : isCanonicalPubKey key.pubKey = true
  hash160_iff : ∀ vch, (c.hash160 vch).toList = id ↔ vch = key.pubKey
  signs : ∀ hash, ∃ vchSig, key.sign hash = some vchSig ∧
    c.verify key.pubKey hash vchSig = true ∧
    ∀ nHashType ∈ hashTypes, isCanonicalSignature (vchSig ++ [hashTypeByte nHashType]) = true ∧
      vchSig ++ [hashTypeByte nHashType] ≠ id

/-- An unlocked key store hands out a key for each that it has. A script is kept under its hash,
and `AddCScript` takes none that could not be pushed. -/
structure SigningKeyStore.Unlocked (c : Crypto) (keystore : SigningKeyStore) : Prop where
  keys : ∀ id ∈ keystore.keys, ∃ key, keystore.getKey id = some key ∧ key.Works c id
  scripts : ∀ id, ∀ script ∈ keystore.mapScripts.lookup id,
    (c.hash160 script).toList = id ∧ script.length ≤ maxScriptElementSize

/-- `SignSignature` gives the input a script that `VerifyScript` accepts. -/
def CanSpend (c : Crypto) (keystore : SigningKeyStore) (fromPubKey : Script) (txTo : Transaction)
    (nIn : UInt32) (nHashType : Int32) : Prop :=
  ∃ scriptSig, signSignature c keystore fromPubKey txTo nIn nHashType =
      .ok (true, txTo.setScriptSig nIn.toNat scriptSig) ∧
    verifyScript ⟨c, txTo.setScriptSig nIn.toNat scriptSig, nIn, 0⟩ scriptSig fromPubKey = .ok true

/-- A script hash that stands for a script hash. -/
def SigningKeyStore.NestedScriptHash (keystore : SigningKeyStore) (scriptPubKey : Script) : Prop :=
  scriptPubKey.isPayToScriptHash = true ∧
    ∃ subscript ∈ keystore.mapScripts.lookup ((scriptPubKey.drop 2).take 20),
      subscript.isPayToScriptHash = true

theorem isCanonicalSignature_spec {vchSig : List UInt8} (h : isCanonicalSignature vchSig = true) :
    9 ≤ vchSig.length ∧ vchSig.length ≤ 73 ∧ vchSig.headD 0 = 0x30 := by
  simp only [isCanonicalSignature, Bool.and_eq_true, decide_eq_true_eq] at h
  have hhead : vchSig.getD 0 0 = vchSig.headD 0 := by cases vchSig <;> rfl
  rw [← hhead]
  simp only [h, and_self]

theorem isCanonicalPubKey_spec {vch : List UInt8} (h : isCanonicalPubKey vch = true) :
    vch ≠ [] ∧ vch.length ≤ 65 ∧ vch.headD 0 ≠ 0x30 ∧ isValidPubKey vch = true := by
  cases vch with
  | nil => cases h
  | cons header vch =>
    rw [isCanonicalPubKey] at h
    split at h
    · rename_i hheader
      have hlen : vch.length + 1 = 65 := of_decide_eq_true h
      subst hheader
      refine ⟨List.cons_ne_nil _ _, Nat.le_of_eq hlen, (by decide : (0x04 : UInt8) ≠ 0x30), ?_⟩
      simp [isValidPubKey, pubKeyLen, hlen]
    · simp only [Bool.and_eq_true, Bool.or_eq_true, decide_eq_true_eq] at h
      obtain ⟨hheader, hlen⟩ := h
      refine ⟨List.cons_ne_nil _ _, by rw [List.length_cons]; omega, ?_, ?_⟩
      · rcases hheader with rfl | rfl
        · exact (by decide : (0x02 : UInt8) ≠ 0x30)
        · exact (by decide : (0x03 : UInt8) ≠ 0x30)
      · rcases hheader with rfl | rfl <;> simp [isValidPubKey, pubKeyLen, hlen]

theorem SigningKey.Works.eq_pubKey {c : Crypto} {key : SigningKey} {vch : List UInt8}
    (h : key.Works c (pubKeyID c vch)) : vch = key.pubKey := by
  have hkey := (h.hash160_iff (if isValidPubKey vch then vch else [])).mp rfl
  split at hkey
  · exact hkey
  · exact absurd hkey.symm (isCanonicalPubKey_spec h.canonical).1

theorem signature_ne_pubKey {vchSig vch : List UInt8} (hsig : isCanonicalSignature vchSig = true)
    (hkey : isCanonicalPubKey vch = true) : vch ≠ vchSig := by
  rintro rfl
  exact (isCanonicalPubKey_spec hkey).2.2.1 (isCanonicalSignature_spec hsig).2.2

theorem hashTypeByte_spec {nHashType : Int32} (h : nHashType ∈ hashTypes) :
    Int32.ofNat (hashTypeByte nHashType).toNat = nHashType := by
  have hall : hashTypes.all (fun nHashType =>
      Int32.ofNat (hashTypeByte nHashType).toNat == nHashType) = true := by decide
  exact eq_of_beq (List.all_eq_true.mp hall nHashType h)

theorem blankScripts_setScriptSig (code : Script) (txTo : Transaction) (nIn : ℕ)
    (scriptSig : Script) (n : ℕ) :
    blankScripts code n (txTo.setScriptSig nIn scriptSig).vin = blankScripts code n txTo.vin := by
  have hclear : (txTo.setScriptSig nIn scriptSig).vin.map (fun i => { i with scriptSig := [] }) =
      txTo.vin.map (fun i => { i with scriptSig := [] }) := by
    apply List.ext_getElem?
    intro i
    rw [Transaction.setScriptSig, List.getElem?_map, List.getElem?_map, List.getElem?_modify]
    cases txTo.vin[i]? with
    | none => rfl
    | some txin =>
      by_cases h : nIn = i
      · simp [h]
      · simp [h]
  rw [blankScripts, hclear]
  rfl

@[simp] theorem sigHash_setScriptSig (c : Crypto) (scriptCode : Script) (txTo : Transaction)
    (nIn : UInt32) (nHashType : Int32) (n : ℕ) (scriptSig : Script) :
    sigHash c scriptCode (txTo.setScriptSig n scriptSig) nIn nHashType =
      sigHash c scriptCode txTo nIn nHashType := by
  have hlen : (txTo.setScriptSig n scriptSig).vin.length = txTo.vin.length :=
    List.length_modify _ _ _
  have htx : signatureTx scriptCode (txTo.setScriptSig n scriptSig) nIn nHashType =
      signatureTx scriptCode txTo nIn nHashType := by
    unfold signatureTx
    simp only [hlen, blankScripts_setScriptSig]
    rfl
  rw [sigHash, sigHash, signatureHash, signatureHash, signaturePreimage, signaturePreimage, htx]

end Beancash
