import Beancash.SpentLedger
import Mathlib.Data.BitVec
import Mathlib.Data.List.Nodup
import Mathlib.Data.UInt

namespace Beancash

abbrev Uint256 := BitVec 256

abbrev Script := List UInt8

def bean : Int64 := 100000000
def cent : Int64 := 1000000
def minTxFee : Int64 := 1000000
def minRelayTxFee : Int64 := minTxFee
def maxMoney : Int64 := 21000000000 * bean
def maxBlockSize : ℕ := 20000000
def maxBlockSizeGen : ℕ := maxBlockSize / 2
def maxBlockSigops : ℕ := maxBlockSize / 50
def lastPowBlock : ℕ := 10000

def moneyRange (nValue : Int64) : Bool := 0 ≤ nValue && nValue ≤ maxMoney

structure OutPoint where
  hash : Uint256
  n : UInt32
deriving DecidableEq

def OutPoint.isNull (o : OutPoint) : Bool := o.hash == 0 && o.n == 0xffffffff

/-- The output an outpoint names, in the terms of the ledger. -/
def OutPoint.key (o : OutPoint) : Uint256 × ℕ := (o.hash, o.n.toNat)

theorem OutPoint.key_injective : Function.Injective OutPoint.key := by
  rintro ⟨h, n⟩ ⟨h', n'⟩ heq
  simp only [OutPoint.key, Prod.mk.injEq] at heq
  rw [heq.1, UInt32.toNat_inj.mp heq.2]

/-- The number of a block file. All ones is not one: it is what `SetNull` writes
into a position. -/
abbrev FileNumber := { nFile : UInt32 // nFile ≠ 0xffffffff }

theorem firstFile_ne : (1 : UInt32) ≠ 0xffffffff := by decide

/-- `CDiskTxPos`, when it is not null. -/
structure TxPos where
  nFile : FileNumber
  nBlockPos : UInt32
  nTxPos : UInt32
deriving DecidableEq

abbrev DiskTxPos := Option TxPos

/-- The position that stands for the memory pool. -/
def TxPos.memory : TxPos := ⟨⟨1, firstFile_ne⟩, 1, 1⟩

/-- `CTxIndex`: where a transaction is (`pos`), and for each of its outputs where
the transaction is that spends it (`vSpent`, here `spent`). -/
abbrev TxIndex := Ledger.Record TxPos

/-- `CTxIndex(posIn, nOutputs)` -/
def TxIndex.new (pos : DiskTxPos) (nOutputs : ℕ) : TxIndex := ⟨pos, List.replicate nOutputs none⟩

structure TxIn where
  prevout : OutPoint
  scriptSig : Script
  nSequence : UInt32
deriving DecidableEq

structure TxOut where
  nValue : Int64
  scriptPubKey : Script
deriving DecidableEq

def TxOut.isEmpty (o : TxOut) : Bool := o.nValue == 0 && o.scriptPubKey.isEmpty

structure Transaction where
  nVersion : Int32
  nTime : UInt32
  vin : List TxIn
  vout : List TxOut
  nLockTime : UInt32
deriving DecidableEq

namespace Transaction

def isBeanBase (tx : Transaction) : Bool :=
  match tx.vin with
  | [txin] => txin.prevout.isNull && decide (1 ≤ tx.vout.length)
  | _ => false

/-- A beansprout is marked with the first output empty. -/
def isBeanStake (tx : Transaction) : Bool :=
  match tx.vin, tx.vout with
  | txin :: _, o :: _ :: _ => !txin.prevout.isNull && o.isEmpty
  | _, _ => false

/-- The same transaction with the signature of one input. -/
def setScriptSig (tx : Transaction) (nIn : ℕ) (scriptSig : Script) : Transaction :=
  { tx with vin := tx.vin.modify nIn fun txin => { txin with scriptSig := scriptSig } }

end Transaction

/-- Below it a lock time is a block number, otherwise a time. -/
def lockTimeThreshold : ℕ := 500000000

def TxIn.isFinal (i : TxIn) : Bool := i.nSequence == 0xffffffff

/-- `IsFinal`, where the best height and the adjusted time stand in for arguments that are 0. -/
def Transaction.isFinal (tx : Transaction) (nBestHeight : ℕ) (nAdjustedTime : ℤ)
    (nBlockHeight : ℕ) (nBlockTime : ℤ) : Bool :=
  if tx.nLockTime = 0 then true
  else
    let nBlockHeight := if nBlockHeight = 0 then nBestHeight else nBlockHeight
    let nBlockTime := if nBlockTime = 0 then nAdjustedTime else nBlockTime
    decide ((tx.nLockTime.toNat : ℤ) <
      if tx.nLockTime.toNat < lockTimeThreshold then (nBlockHeight : ℤ) else nBlockTime) ||
      tx.vin.all TxIn.isFinal

def getSizeOfCompactSize (nSize : ℕ) : ℕ :=
  if nSize < 253 then 1 else if nSize ≤ 0xffff then 3 else if nSize ≤ 0xffffffff then 5 else 9

def TxIn.serializeSize (i : TxIn) : ℕ :=
  36 + (getSizeOfCompactSize i.scriptSig.length + i.scriptSig.length) + 4

def TxOut.serializeSize (o : TxOut) : ℕ :=
  8 + (getSizeOfCompactSize o.scriptPubKey.length + o.scriptPubKey.length)

/-- `GetSerializeSize(tx, ..)`, the same for the network and for the disk. -/
def Transaction.serializeSize (tx : Transaction) : ℕ :=
  4 + 4 + (getSizeOfCompactSize tx.vin.length + (tx.vin.map TxIn.serializeSize).sum) +
    (getSizeOfCompactSize tx.vout.length + (tx.vout.map TxOut.serializeSize).sum) + 4

/-- The loop of `GetValueOut`; `none` is the exception it throws. -/
def sumValueOut : Int64 → List TxOut → Option Int64
  | nValueOut, [] => some nValueOut
  | nValueOut, o :: os =>
    if !moneyRange o.nValue || !moneyRange (nValueOut + o.nValue) then none
    else sumValueOut (nValueOut + o.nValue) os

def Transaction.getValueOut (tx : Transaction) : Option Int64 := sumValueOut 0 tx.vout

inductive GetMinFeeMode where
  | block
  | relay
  | send
deriving DecidableEq

def getMinFee (tx : Transaction) (nBlockSize : UInt32) (mode : GetMinFeeMode) : Int64 :=
  let nBaseFee := if mode = .relay then minRelayTxFee else minTxFee
  let nBytes : UInt32 := .ofNat tx.serializeSize
  let nNewBlockSize := nBlockSize + nBytes
  let nMinFee : Int64 := (1 + .ofNat nBytes.toNat / 1000) * nBaseFee
  let nMinFee := if nMinFee < nBaseFee && tx.vout.any (fun o => o.nValue < cent) then nBaseFee
    else nMinFee
  let clamp (nMinFee : Int64) := if moneyRange nMinFee then nMinFee else maxMoney
  if nBlockSize != 1 && maxBlockSizeGen / 2 ≤ nNewBlockSize.toNat then
    if maxBlockSizeGen ≤ nNewBlockSize.toNat then maxMoney
    else clamp (nMinFee * .ofNat (maxBlockSizeGen / (maxBlockSizeGen - nNewBlockSize.toNat)))
  else clamp nMinFee

/-- The loop of `CheckTransaction` over the outputs. -/
def checkTxOuts (tx : Transaction) : Int64 → List TxOut → Bool
  | _, [] => true
  | nValueOut, o :: os =>
    if o.isEmpty && !tx.isBeanBase && !tx.isBeanStake then false
    else if o.nValue < 0 then false
    else if maxMoney < o.nValue then false
    else if !moneyRange (nValueOut + o.nValue) then false
    else checkTxOuts tx (nValueOut + o.nValue) os

def Transaction.prevouts (tx : Transaction) : List OutPoint := tx.vin.map TxIn.prevout

def Transaction.checkTransaction (tx : Transaction) : Bool :=
  !tx.vin.isEmpty && !tx.vout.isEmpty && decide (tx.serializeSize ≤ maxBlockSize) &&
  checkTxOuts tx 0 tx.vout && decide tx.prevouts.Nodup &&
  if tx.isBeanBase then
    tx.vin.all fun i => 2 ≤ i.scriptSig.length && i.scriptSig.length ≤ 100
  else tx.prevouts.all fun o => !o.isNull

/-- `CBlock`'s header, which its hash is taken of. -/
structure BlockHeader where
  nVersion : Int32
  hashPrevBlock : Uint256
  hashMerkleRoot : Uint256
  nTime : UInt32
  nBits : UInt32
  nNonce : UInt32
deriving DecidableEq

/-- The hash functions, the script interpreter and the parameters of the chain. -/
structure Params where
  /-- `CTransaction::GetHash` -/
  txHash : Transaction → Uint256
  /-- `CBlock::GetHash`, over the header -/
  blockHash : BlockHeader → Uint256
  /-- `Hash` of two concatenated hashes -/
  hashPair : Uint256 → Uint256 → Uint256
  /-- `Hash` of what a kernel is made of: the stake modifier, the time of the block
  and the offset in it of the previous transaction, the time of that transaction,
  the number of its output, and the time of the beansprout -/
  hashKernel : UInt64 → UInt32 → UInt32 → UInt32 → UInt32 → UInt32 → Uint256
  /-- `VerifySignature(txFrom, txTo, nIn, 0)` -/
  verifySignature : Transaction → Transaction → ℕ → Bool
  /-- `CScript::GetSigOpCount(false)` -/
  getSigOpCount : Script → UInt32
  /-- `CScript::GetSigOpCount(scriptSig)` of a script that pays to a script hash -/
  getP2SHSigOpCount : Script → Script → UInt32
  isPayToScriptHash : Script → Bool
  /-- `CTransaction::IsStandard` -/
  isStandard : Transaction → Bool
  /-- `CTransaction::AreInputsStandard`, of the outputs spent -/
  areInputsStandard : Transaction → List TxOut → Bool
  testNet : Bool
  bnProofOfWorkLimit : ℤ
  hashGenesisBlock : Uint256
  /-- `Checkpoints::GetTotalBlocksEstimate` -/
  getTotalBlocksEstimate : ℤ
  nBeanbaseMaturity : ℕ
  nStakeMinAge : UInt32
  nStakeMaxAge : UInt32
  nModifierInterval : UInt32

namespace Sample

/-- A test network on which a transaction is known by its lock time and a header by its nonce. -/
def params : Params where
  txHash tx := .ofNat 256 (tx.nLockTime.toNat + 1)
  blockHash header := .ofNat 256 (header.nNonce.toNat + 1)
  hashPair a b := 31 * a + b
  hashKernel nStakeModifier nTimeBlockFrom _ _ _ nTimeTx :=
    .ofNat 256 (nStakeModifier.toNat + nTimeBlockFrom.toNat + nTimeTx.toNat)
  verifySignature _ _ _ := true
  getSigOpCount _ := 1
  getP2SHSigOpCount _ _ := 0
  isPayToScriptHash _ := false
  isStandard _ := true
  areInputsStandard _ _ := true
  testNet := true
  bnProofOfWorkLimit := 2 ^ 255
  hashGenesisBlock := 1
  getTotalBlocksEstimate := 0
  nBeanbaseMaturity := 10
  nStakeMinAge := 60 * 60
  nStakeMaxAge := 6 * 60 * 60
  nModifierInterval := 10 * 60

def out (nBeans : ℕ) : TxOut := ⟨.ofNat nBeans * bean, [0x51]⟩

def spend (label : UInt32) (prevouts : List OutPoint) (vout : List TxOut) : Transaction where
  nVersion := 1
  nTime := 0
  vin := prevouts.map fun prevout => ⟨prevout, [], 0xffffffff⟩
  vout := vout
  nLockTime := label

end Sample

end Beancash
