import Beancash.CheckSig
import Mathlib.Data.Finset.Basic

namespace Beancash

inductive TxnOutType where
  | nonStandard
  | pubKey
  | pubKeyHash
  | scriptHash
  | multisig
  | nullData
deriving DecidableEq

def opSmallInteger : UInt8 := 0xfa
def opPubKeys : UInt8 := 0xfb
def opPubKeyHash : UInt8 := 0xfd
def opPubKey : UInt8 := 0xfe
def opInvalidOpcode : UInt8 := 0xff

/-- `mTemplates`, in the order of its keys. -/
def mTemplates : List (TxnOutType × Script) :=
  [(.pubKey, [opPubKey, 0xac]),
   (.pubKeyHash, [0x76, 0xa9, opPubKeyHash, 0x88, 0xac]),
   (.multisig, [opSmallInteger, opPubKeys, opSmallInteger, 0xae]),
   (.nullData, [0x6a])]

/-- One instruction against one of the template: what it adds to `vSolutionsRet`. -/
def matchOpcode (opcode1 : UInt8) (vch1 : List UInt8) (opcode2 : UInt8) (vch2 : List UInt8) :
    Option (List (List UInt8)) :=
  if opcode2 = opPubKey then
    if vch1.length < 33 ∨ 120 < vch1.length then none else some [vch1]
  else if opcode2 = opPubKeyHash then
    if vch1.length ≠ 20 then none else some [vch1]
  else if opcode2 = opSmallInteger then
    -- single-byte small integer pushed onto vSolutions
    if opcode1 = 0 then some [[0]]
    else if 0x51 ≤ opcode1 ∧ opcode1 ≤ op16 then some [[opcode1 - 0x50]]
    else none
  else if opcode1 ≠ opcode2 ∨ vch1 ≠ vch2 then none
  else some []

/-- The loop of `OP_PUBKEYS`: the keys, and the first instruction that is none of them. -/
def takePubKeys : ℕ → UInt8 × List UInt8 × Script →
    List (List UInt8) × (UInt8 × List UInt8 × Script)
  | fuel + 1, (opcode1, vch1, pc1) =>
    if 33 ≤ vch1.length ∧ vch1.length ≤ 120 then
      let r := takePubKeys fuel ((getOp pc1).getD (opInvalidOpcode, [], []))
      (vch1 :: r.1, r.2)
    else ([], (opcode1, vch1, pc1))
  | 0, x => ([], x)

/-- A script against a template. Each round takes an instruction of the template. -/
def matchTemplate : ℕ → Script → Script → List (List UInt8) → Option (List (List UInt8))
  | fuel + 1, pc1, pc2, vSolutions =>
    if pc1 = [] ∧ pc2 = [] then some vSolutions
    else do
      let (opcode1, vch1, pc1) ← getOp pc1
      let (opcode2, vch2, pc2) ← getOp pc2
      if opcode2 = opPubKeys then
        let (keys, opcode1, vch1, pc1) := takePubKeys (pc1.length + 2) (opcode1, vch1, pc1)
        let (opcode2, vch2, pc2) ← getOp pc2
        let found ← matchOpcode opcode1 vch1 opcode2 vch2
        matchTemplate fuel pc1 pc2 (vSolutions ++ keys ++ found)
      else
        let found ← matchOpcode opcode1 vch1 opcode2 vch2
        matchTemplate fuel pc1 pc2 (vSolutions ++ found)
  | 0, _, _, _ => none

/-- Additional checks for `TX_MULTISIG`. -/
def checkMultisig (vSolutions : List (List UInt8)) : Bool :=
  let m := (vSolutions.headD []).headD 0
  let n := (vSolutions.getLastD []).headD 0
  1 ≤ m && 1 ≤ n && m ≤ n && vSolutions.length - 2 = n.toNat

/-- The loop over the templates; `none` is `return false`. -/
def solveTemplates (scriptPubKey : Script) :
    List (TxnOutType × Script) → Option (TxnOutType × List (List UInt8))
  | [] => none
  | (type, template) :: templates =>
    match matchTemplate (template.length + 1) scriptPubKey template [] with
    | some vSolutions =>
      if type = .multisig ∧ !checkMultisig vSolutions then none else some (type, vSolutions)
    | none => solveTemplates scriptPubKey templates

def solver (scriptPubKey : Script) : Option (TxnOutType × List (List UInt8)) :=
  if scriptPubKey.isPayToScriptHash then
    some (.scriptHash, [(scriptPubKey.drop 2).take 20])
  else solveTemplates scriptPubKey mTemplates

/-- `CKeyID` and `CScriptID`: 20 bytes. -/
abbrev KeyID := List UInt8

instance instLawfulBEqKeyID : LawfulBEq KeyID := List.instLawfulBEq

inductive TxDestination where
  | keyID (id : KeyID)
  | scriptID (id : KeyID)
deriving DecidableEq

/-- `CPubKey(vch).GetID()` -/
def pubKeyID (c : Crypto) (vch : List UInt8) : KeyID :=
  (c.hash160 (if isValidPubKey vch then vch else [])).toList

/-- `CKeyStore`: the keys that it has, and the scripts. -/
structure KeyStore where
  keys : Finset KeyID
  mapScripts : List (KeyID × Script)

/-- `IsMine` of a script. A script hash stands for a script that the key store has; the scripts
that it has are more than it takes to get to the last of these. -/
def KeyStore.isMineScript (c : Crypto) (keystore : KeyStore) : ℕ → Script → Bool
  | 0, _ => false
  | fuel + 1, scriptPubKey =>
    match solver scriptPubKey with
    | none => false
    | some (.nonStandard, _) => false
    | some (.nullData, _) => false
    | some (.pubKey, vSolutions) => decide (pubKeyID c (vSolutions.headD []) ∈ keystore.keys)
    | some (.pubKeyHash, vSolutions) => decide (vSolutions.headD [] ∈ keystore.keys)
    | some (.scriptHash, vSolutions) =>
      match keystore.mapScripts.lookup (vSolutions.headD []) with
      | none => false
      | some subscript => keystore.isMineScript c fuel subscript
    -- only if we own ALL the keys involved
    | some (.multisig, vSolutions) =>
      vSolutions.tail.dropLast.all fun key => decide (pubKeyID c key ∈ keystore.keys)

def KeyStore.isMine (c : Crypto) (keystore : KeyStore) (scriptPubKey : Script) : Bool :=
  keystore.isMineScript c (keystore.mapScripts.length + 1) scriptPubKey

/-- `ExtractDestination`. Multisig transactions have more than one address. -/
def extractDestination (c : Crypto) (scriptPubKey : Script) : Option TxDestination :=
  match solver scriptPubKey with
  | some (.pubKey, vSolutions) => some (.keyID (pubKeyID c (vSolutions.headD [])))
  | some (.pubKeyHash, vSolutions) => some (.keyID (vSolutions.headD []))
  | some (.scriptHash, vSolutions) => some (.scriptID (vSolutions.headD []))
  | _ => none

theorem KeyStore.isMine_of_extractDestination {c : Crypto} {keystore : KeyStore}
    {scriptPubKey : Script} {id : KeyID}
    (h : extractDestination c scriptPubKey = some (.keyID id)) (hid : id ∈ keystore.keys) :
    keystore.isMine c scriptPubKey = true := by
  unfold extractDestination at h
  unfold isMine isMineScript
  split at h
  · rename_i heq
    rw [heq]
    cases h
    exact decide_eq_true hid
  · rename_i heq
    rw [heq]
    cases h
    exact decide_eq_true hid
  · cases h
  · cases h

end Beancash
