import Beancash.Block
import Beancash.ByteStream

namespace Beancash

open ByteStream

def serNetwork : ℕ := 1
def serDisk : ℕ := 2
def serGetHash : ℕ := 4
def serBlockHeaderOnly : ℕ := 2 ^ 17

def maxSize : ℕ := 0x02000000

def writeCompactSize (nSize : ℕ) : List UInt8 :=
  if nSize < 253 then littleEndian 1 nSize
  else if nSize ≤ 0xffff then littleEndian 1 253 ++ littleEndian 2 nSize
  else if nSize ≤ 0xffffffff then littleEndian 1 254 ++ littleEndian 4 nSize
  else littleEndian 1 255 ++ littleEndian 8 nSize

/-- The size that was written, before `ReadCompactSize` compares it with `MAX_SIZE`. -/
def readSize : Read ℕ := do
  let chSize ← number 1
  if chSize < 253 then pure chSize
  else if chSize = 253 then number 2
  else if chSize = 254 then number 4
  else number 8

def readCompactSize : Read ℕ := do
  let nSizeRet ← readSize
  if maxSize < nSizeRet then failure
  pure nSizeRet

section Vector

variable {α : Type}

/-- `Serialize` of a vector whose elements are not of a basic type. -/
def serializeVector (serialize : α → List UInt8) (v : List α) : List UInt8 :=
  writeCompactSize v.length ++ v.flatMap serialize

/-- `Serialize` of a vector of bytes. -/
def serializeBytes (v : List UInt8) : List UInt8 := writeCompactSize v.length ++ v

def getSerializeSizeVector (getSerializeSize : α → UInt32) (v : List α) : UInt32 :=
  (v.map getSerializeSize).foldl (· + ·) (.ofNat (getSizeOfCompactSize v.length))

def getSerializeSizeBytes (v : List UInt8) : UInt32 :=
  .ofNat (getSizeOfCompactSize v.length + v.length)

/-- `Unserialize` of a vector, which limits how much is allocated at a time by the size of an
element in memory. -/
def unserializeVector (sizeOf : ℕ) (unserialize : Read α) : Read (List α) := do
  let nSize ← readCompactSize
  inChunks (5000000 / sizeOf) (many unserialize) nSize nSize []

def unserializeBytes : Read (List UInt8) := do
  let nSize ← readCompactSize
  inChunks (1 + 4999999 / 1) take nSize nSize []

end Vector

/-- `sizeof` of the elements of vectors, which is up to the compiler. -/
structure Layout where
  txIn : ℕ
  txOut : ℕ
  transaction : ℕ
  txIn_bounds : 0 < txIn ∧ txIn ≤ 5000000
  txOut_bounds : 0 < txOut ∧ txOut ≤ 5000000
  transaction_bounds : 0 < transaction ∧ transaction ≤ 5000000

def OutPoint.serialize (o : OutPoint) : List UInt8 :=
  littleEndian 32 o.hash.toNat ++ littleEndian 4 o.n.toNat

def OutPoint.unserialize : Read OutPoint := do
  let hash ← number 32
  let n ← number 4
  pure ⟨.ofNat 256 hash, .ofNat n⟩

namespace TxIn

def serialize (i : TxIn) : List UInt8 :=
  i.prevout.serialize ++ serializeBytes i.scriptSig ++ littleEndian 4 i.nSequence.toNat

def unserialize : Read TxIn := do
  let prevout ← OutPoint.unserialize
  let scriptSig ← unserializeBytes
  let nSequence ← number 4
  pure ⟨prevout, scriptSig, .ofNat nSequence⟩

def getSerializeSize (i : TxIn) : UInt32 := 36 + getSerializeSizeBytes i.scriptSig + 4

end TxIn

namespace TxOut

def serialize (o : TxOut) : List UInt8 :=
  littleEndian 8 o.nValue.toUInt64.toNat ++ serializeBytes o.scriptPubKey

def unserialize : Read TxOut := do
  let nValue ← number 8
  let scriptPubKey ← unserializeBytes
  pure ⟨(UInt64.ofNat nValue).toInt64, scriptPubKey⟩

def getSerializeSize (o : TxOut) : UInt32 := 8 + getSerializeSizeBytes o.scriptPubKey

end TxOut

namespace Transaction

def serialize (tx : Transaction) : List UInt8 :=
  littleEndian 4 tx.nVersion.toUInt32.toNat ++ littleEndian 4 tx.nTime.toNat ++
    serializeVector TxIn.serialize tx.vin ++ serializeVector TxOut.serialize tx.vout ++
    littleEndian 4 tx.nLockTime.toNat

def unserialize (L : Layout) : Read Transaction := do
  let nVersion ← number 4
  let nTime ← number 4
  let vin ← unserializeVector L.txIn TxIn.unserialize
  let vout ← unserializeVector L.txOut TxOut.unserialize
  let nLockTime ← number 4
  pure ⟨(UInt32.ofNat nVersion).toInt32, .ofNat nTime, vin, vout, .ofNat nLockTime⟩

def getSerializeSize (tx : Transaction) : UInt32 :=
  4 + 4 + getSerializeSizeVector TxIn.getSerializeSize tx.vin +
    getSerializeSizeVector TxOut.getSerializeSize tx.vout + 4

end Transaction

namespace BlockHeader

def serialize (header : BlockHeader) : List UInt8 :=
  littleEndian 4 header.nVersion.toUInt32.toNat ++ littleEndian 32 header.hashPrevBlock.toNat ++
    littleEndian 32 header.hashMerkleRoot.toNat ++ littleEndian 4 header.nTime.toNat ++
    littleEndian 4 header.nBits.toNat ++ littleEndian 4 header.nNonce.toNat

def unserialize : Read BlockHeader := do
  let nVersion ← number 4
  let hashPrevBlock ← number 32
  let hashMerkleRoot ← number 32
  let nTime ← number 4
  let nBits ← number 4
  let nNonce ← number 4
  pure ⟨(UInt32.ofNat nVersion).toInt32, .ofNat 256 hashPrevBlock, .ofNat 256 hashMerkleRoot,
    .ofNat nTime, .ofNat nBits, .ofNat nNonce⟩

end BlockHeader

namespace Block

/-- Whether the transactions and the signature are left out. -/
def headerOnly (nType : ℕ) : Bool := nType &&& (serGetHash ||| serBlockHeaderOnly) != 0

def serialize (nType : ℕ) (b : Block) : List UInt8 :=
  b.header.serialize ++
    if headerOnly nType then []
    else serializeVector Transaction.serialize b.vtx ++ serializeBytes b.vchBlockSig

def unserialize (L : Layout) (nType : ℕ) : Read Block := do
  let header ← BlockHeader.unserialize
  if headerOnly nType then pure ⟨header, [], []⟩
  else
    let vtx ← unserializeVector L.transaction (Transaction.unserialize L)
    let vchBlockSig ← unserializeBytes
    pure ⟨header, vtx, vchBlockSig⟩

def getSerializeSize (nType : ℕ) (b : Block) : UInt32 :=
  80 + if headerOnly nType then 0
    else getSerializeSizeVector Transaction.getSerializeSize b.vtx +
      getSerializeSizeBytes b.vchBlockSig

end Block

end Beancash
