import Beancash.BlockIndex
import Beancash.Serialize

namespace Beancash

open ByteStream

theorem reads_uint32 (a : UInt32) : Reads (number 4) (littleEndian 4 a.toNat) a.toNat :=
  reads_number a.toNat_lt

theorem reads_uint64 (a : UInt64) : Reads (number 8) (littleEndian 8 a.toNat) a.toNat :=
  reads_number a.toNat_lt

theorem reads_uint256 (a : Uint256) : Reads (number 32) (littleEndian 32 a.toNat) a.toNat :=
  reads_number a.isLt

theorem reads_readSize {nSize : ℕ} (h : nSize < 2 ^ 64) :
    Reads readSize (writeCompactSize nSize) nSize := by
  unfold writeCompactSize readSize
  split
  · rename_i hlt
    refine (reads_number (by omega)).bind_nil ?_
    rw [if_pos hlt]
    exact .pure nSize
  · split
    · exact (reads_number (by decide)).bind (reads_number (by omega))
    · split
      · exact (reads_number (by decide)).bind (reads_number (by omega))
      · exact (reads_number (by decide)).bind (reads_number h)

theorem reads_readCompactSize {nSize : ℕ} (h : nSize ≤ maxSize) :
    Reads readCompactSize (writeCompactSize nSize) nSize := by
  have hlt : nSize < 2 ^ 64 := Nat.lt_of_le_of_lt h (by decide)
  refine (reads_readSize hlt).bind_nil ?_
  rw [if_neg (Nat.not_lt.mpr h)]
  exact .pure nSize

theorem reads_unserializeBytes {v : List UInt8} (h : v.length ≤ maxSize) :
    Reads unserializeBytes (serializeBytes v) v := by
  refine (reads_readCompactSize h).bind ?_
  have hbytes : ∀ w : List UInt8, w.flatMap (fun byte => [byte]) = w := List.flatMap_singleton'
  have hread : Reads (inChunks (1 + 4999999 / 1) take v.length v.length [])
      (v.flatMap fun byte => [byte]) v := by
    refine .inChunks (by decide) (fun w _ => ?_) rfl le_rfl
    rw [hbytes]
    exact .take w
  rwa [hbytes] at hread

theorem reads_unserializeVector {α : Type} {serialize : α → List UInt8} {unserialize : Read α}
    {sizeOf : ℕ} (hsize : 0 < sizeOf ∧ sizeOf ≤ 5000000) {v : List α} (h : v.length ≤ maxSize)
    (hread : ∀ a ∈ v, Reads unserialize (serialize a) a) :
    Reads (unserializeVector sizeOf unserialize) (serializeVector serialize v) v :=
  (reads_readCompactSize h).bind (.inChunks (Nat.div_pos hsize.2 hsize.1)
    (fun _ hw => .many fun a ha => hread a (hw ha)) rfl le_rfl)

theorem OutPoint.reads (o : OutPoint) : Reads unserialize o.serialize o := by
  refine (reads_uint256 o.hash).bind ((reads_uint32 o.n).bind_nil ?_)
  rw [BitVec.ofNat_toNat, BitVec.setWidth_eq, UInt32.ofNat_toNat]
  exact .pure o

theorem TxIn.reads {i : TxIn} (h : i.scriptSig.length ≤ maxSize) :
    Reads unserialize i.serialize i := by
  rw [TxIn.serialize, List.append_assoc]
  refine i.prevout.reads.bind ((reads_unserializeBytes h).bind
    ((reads_uint32 i.nSequence).bind_nil ?_))
  rw [UInt32.ofNat_toNat]
  exact .pure i

theorem TxOut.reads {o : TxOut} (h : o.scriptPubKey.length ≤ maxSize) :
    Reads unserialize o.serialize o := by
  refine (reads_uint64 o.nValue.toUInt64).bind ((reads_unserializeBytes h).bind_nil ?_)
  rw [UInt64.ofNat_toNat]
  exact .pure o

/-- The vectors of a transaction are not too long to be read. -/
structure Transaction.Readable (tx : Transaction) : Prop where
  vin : tx.vin.length ≤ maxSize
  vout : tx.vout.length ≤ maxSize
  scriptSig : ∀ i ∈ tx.vin, i.scriptSig.length ≤ maxSize
  scriptPubKey : ∀ o ∈ tx.vout, o.scriptPubKey.length ≤ maxSize

theorem Transaction.reads (L : Layout) {tx : Transaction} (h : tx.Readable) :
    Reads (unserialize L) tx.serialize tx := by
  simp only [Transaction.serialize, List.append_assoc]
  refine (reads_uint32 tx.nVersion.toUInt32).bind ((reads_uint32 tx.nTime).bind
    ((reads_unserializeVector L.txIn_bounds h.vin fun i hi => TxIn.reads (h.scriptSig i hi)).bind
    ((reads_unserializeVector L.txOut_bounds h.vout fun o ho =>
      TxOut.reads (h.scriptPubKey o ho)).bind ((reads_uint32 tx.nLockTime).bind_nil ?_))))
  simp only [UInt32.ofNat_toNat]
  exact .pure tx

theorem BlockHeader.reads (header : BlockHeader) : Reads unserialize header.serialize header := by
  simp only [BlockHeader.serialize, List.append_assoc]
  refine (reads_uint32 header.nVersion.toUInt32).bind ((reads_uint256 header.hashPrevBlock).bind
    ((reads_uint256 header.hashMerkleRoot).bind ((reads_uint32 header.nTime).bind
    ((reads_uint32 header.nBits).bind ((reads_uint32 header.nNonce).bind_nil ?_)))))
  simp only [UInt32.ofNat_toNat, BitVec.ofNat_toNat, BitVec.setWidth_eq]
  exact .pure header

structure Block.Readable (b : Block) : Prop where
  vtx : b.vtx.length ≤ maxSize
  transactions : ∀ tx ∈ b.vtx, tx.Readable
  vchBlockSig : b.vchBlockSig.length ≤ maxSize

theorem Block.reads (L : Layout) {nType : ℕ} (hType : headerOnly nType = false) {b : Block}
    (h : b.Readable) : Reads (unserialize L nType) (b.serialize nType) b := by
  rw [Block.serialize, hType]
  refine b.header.reads.bind ?_
  rw [hType]
  exact (reads_unserializeVector L.transaction_bounds h.vtx fun tx htx =>
    Transaction.reads L (h.transactions tx htx)).bind
    ((reads_unserializeBytes h.vchBlockSig).bind_nil (.pure b))

@[simp] theorem length_writeCompactSize (nSize : ℕ) :
    (writeCompactSize nSize).length = getSizeOfCompactSize nSize := by
  unfold writeCompactSize getSizeOfCompactSize
  split
  · rw [length_littleEndian]
  · split
    · rw [List.length_append, length_littleEndian, length_littleEndian]
    · split <;> rw [List.length_append, length_littleEndian, length_littleEndian]

@[simp] theorem length_serializeBytes (v : List UInt8) :
    (serializeBytes v).length = getSizeOfCompactSize v.length + v.length := by
  rw [serializeBytes, List.length_append, length_writeCompactSize]

theorem length_serializeVector {α : Type} {serialize : α → List UInt8} {size : α → ℕ}
    (h : ∀ a, (serialize a).length = size a) (v : List α) :
    (serializeVector serialize v).length =
      getSizeOfCompactSize v.length + (v.map size).sum := by
  rw [serializeVector, List.length_append, length_writeCompactSize, List.length_flatMap]
  simp only [h]

theorem TxIn.length_serialize (i : TxIn) : i.serialize.length = i.serializeSize := by
  simp only [TxIn.serialize, OutPoint.serialize, TxIn.serializeSize, List.length_append,
    length_littleEndian, length_serializeBytes]

theorem TxOut.length_serialize (o : TxOut) : o.serialize.length = o.serializeSize := by
  simp only [TxOut.serialize, TxOut.serializeSize, List.length_append, length_littleEndian,
    length_serializeBytes]

theorem Transaction.length_serialize (tx : Transaction) :
    tx.serialize.length = tx.serializeSize := by
  simp only [Transaction.serialize, Transaction.serializeSize, List.length_append,
    length_littleEndian, length_serializeVector TxIn.length_serialize,
    length_serializeVector TxOut.length_serialize]

theorem BlockHeader.length_serialize (header : BlockHeader) : header.serialize.length = 80 := by
  simp only [BlockHeader.serialize, List.length_append, length_littleEndian]

theorem Block.length_serialize {nType : ℕ} (hType : headerOnly nType = false) (b : Block) :
    (b.serialize nType).length = b.serializeSize := by
  simp only [Block.serialize, hType, Block.serializeSize, List.length_append,
    BlockHeader.length_serialize, length_serializeVector Transaction.length_serialize,
    length_serializeBytes, Bool.false_eq_true, if_false, Nat.add_assoc]

theorem getSerializeSizeVector_eq {α : Type} {getSerializeSize : α → UInt32} {size : α → ℕ}
    (h : ∀ a, getSerializeSize a = .ofNat (size a)) (v : List α) :
    getSerializeSizeVector getSerializeSize v =
      .ofNat (getSizeOfCompactSize v.length + (v.map size).sum) := by
  unfold getSerializeSizeVector
  generalize getSizeOfCompactSize v.length = n
  induction v generalizing n with
  | nil => rfl
  | cons a v ih =>
    rw [List.map_cons, List.foldl_cons, h, ← UInt32.ofNat_add, ih, List.map_cons, List.sum_cons,
      Nat.add_assoc]

theorem TxIn.getSerializeSize_eq (i : TxIn) : i.getSerializeSize = .ofNat i.serializeSize := by
  rw [TxIn.serializeSize, UInt32.ofNat_add, UInt32.ofNat_add]
  rfl

theorem TxOut.getSerializeSize_eq (o : TxOut) : o.getSerializeSize = .ofNat o.serializeSize := by
  rw [TxOut.serializeSize, UInt32.ofNat_add]
  rfl

theorem Transaction.getSerializeSize_eq (tx : Transaction) :
    tx.getSerializeSize = .ofNat tx.serializeSize := by
  rw [Transaction.getSerializeSize, getSerializeSizeVector_eq TxIn.getSerializeSize_eq,
    getSerializeSizeVector_eq TxOut.getSerializeSize_eq, Transaction.serializeSize]
  generalize getSizeOfCompactSize tx.vin.length + _ = nIn
  generalize getSizeOfCompactSize tx.vout.length + _ = nOut
  rw [UInt32.ofNat_add, UInt32.ofNat_add, UInt32.ofNat_add]
  rfl

theorem Block.getSerializeSize_eq {nType : ℕ} (hType : headerOnly nType = false) (b : Block) :
    b.getSerializeSize nType = .ofNat b.serializeSize := by
  rw [Block.getSerializeSize, hType, getSerializeSizeVector_eq Transaction.getSerializeSize_eq,
    getSerializeSizeBytes, if_neg Bool.false_ne_true, Block.serializeSize, Nat.add_assoc]
  generalize getSizeOfCompactSize b.vtx.length + _ = nTxs
  generalize getSizeOfCompactSize b.vchBlockSig.length + _ = nSig
  rw [UInt32.ofNat_add, UInt32.ofNat_add]
  rfl

theorem headerOnly_of_full {nType : ℕ} (h : nType = serNetwork ∨ nType = serDisk) :
    Block.headerOnly nType = false := by
  rcases h with rfl | rfl <;> decide

/-- Over the network and on the disk a transaction or a block is read back whatever comes after
it, and as much was written as `GetSerializeSize` says, modulo the range of an `unsigned int`. -/
theorem unserialize_serialize (L : Layout) {nType : ℕ}
    (hType : nType = serNetwork ∨ nType = serDisk) :
    (∀ tx : Transaction, tx.Readable →
      (∀ rest, (Transaction.unserialize L).run (tx.serialize ++ rest) = some (tx, rest)) ∧
        tx.getSerializeSize.toNat = tx.serialize.length % 2 ^ 32) ∧
    ∀ b : Block, b.Readable →
      (∀ rest, (Block.unserialize L nType).run (b.serialize nType ++ rest) = some (b, rest)) ∧
        (b.getSerializeSize nType).toNat = (b.serialize nType).length % 2 ^ 32 := by
  have hfull := headerOnly_of_full hType
  refine ⟨fun tx htx => ⟨tx.reads L htx, ?_⟩, fun b hb => ⟨b.reads L hfull hb, ?_⟩⟩
  · rw [tx.getSerializeSize_eq, UInt32.toNat_ofNat', tx.length_serialize]
  · rw [b.getSerializeSize_eq hfull, UInt32.toNat_ofNat', b.length_serialize hfull]

namespace Sample

def layout : Layout where
  txIn := 64
  txOut := 32
  transaction := 72
  txIn_bounds := by decide
  txOut_bounds := by decide
  transaction_bounds := by decide

/-- A transaction with so many inputs, the scripts of which are so long. -/
def bulkyTx (nInputs nScript : ℕ) : Transaction where
  nVersion := 1
  nTime := 0
  vin := List.replicate nInputs ⟨⟨0, 0⟩, List.replicate nScript 0, 0⟩
  vout := []
  nLockTime := 0

theorem readable_bulkyTx {nInputs nScript : ℕ} (h : nInputs ≤ maxSize) (h' : nScript ≤ maxSize) :
    (bulkyTx nInputs nScript).Readable where
  vin := by rwa [bulkyTx, List.length_replicate]
  vout := Nat.zero_le _
  scriptSig i hi := by
    rw [(List.mem_replicate.mp hi).2]
    rwa [List.length_replicate]
  scriptPubKey o ho := nomatch ho

theorem le_length_bulkyTx (nInputs nScript : ℕ) :
    nInputs * nScript ≤ (bulkyTx nInputs nScript).serialize.length := by
  have hinputs : nInputs * nScript ≤
      ((bulkyTx nInputs nScript).vin.map TxIn.serializeSize).sum := by
    rw [bulkyTx, List.map_replicate, List.sum_replicate_nat]
    refine Nat.mul_le_mul_left _ ?_
    rw [TxIn.serializeSize, List.length_replicate]
    omega
  rw [Transaction.length_serialize, Transaction.serializeSize]
  omega

end Sample

open Sample in
theorem unserialize_serialize_first : first.Readable ∧
    (Block.unserialize layout serDisk).run (first.serialize serDisk ++ [1, 2, 3]) =
      some (first, [1, 2, 3]) := by
  have hreadable : first.Readable := by
    refine ⟨by decide, fun tx htx => ⟨?_, ?_, ?_, ?_⟩, by decide⟩ <;> revert tx <;> decide
  exact ⟨hreadable, ((unserialize_serialize layout (Or.inr rfl)).2 first hreadable).1 [1, 2, 3]⟩

open Sample in
/-- A transaction of a bit more than 4 GiB, each vector of which can be read. -/
theorem getSerializeSize_bulkyTx : (bulkyTx 128 maxSize).Readable ∧
    (bulkyTx 128 maxSize).getSerializeSize.toNat ≠ (bulkyTx 128 maxSize).serialize.length := by
  refine ⟨readable_bulkyTx (by decide) le_rfl, ?_⟩
  have hle := le_length_bulkyTx 128 maxSize
  have hlt := (bulkyTx 128 maxSize).getSerializeSize.toNat_lt
  have hsize : 128 * maxSize = 2 ^ 32 := rfl
  omega

end Beancash
