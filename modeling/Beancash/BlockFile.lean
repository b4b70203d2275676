import Mathlib.Algebra.Order.BigOperators.Group.List
import Beancash.ConnectSpec
import Beancash.SerializeSpec

namespace Beancash

open ByteStream Fallible Ledger

/-- The bytes of the block files. -/
abbrev BlockFiles := FileNumber → List UInt8

/-- `OpenBlockFile`, of a file that can be opened. -/
def openBlockFile (files : BlockFiles) (nFile : FileNumber) : Option (List UInt8) :=
  if nFile.val < 1 then none else some (files nFile)

/-- `CBlock::WriteToDisk` to the file that `AppendBlockFile` has opened, and the position it
returns; `messageStart` are the four bytes that all blocks of a network are preceded by. -/
def Block.writeToDisk (messageStart : List UInt8) (files : BlockFiles) (nFile : FileNumber)
    (b : Block) : Option (BlockFiles × UInt32) := do
  let file ← openBlockFile files nFile
  let nSize := b.getSerializeSize serDisk
  let file := file ++ (messageStart ++ littleEndian 4 nSize.toNat)
  return (Function.update files nFile (file ++ b.serialize serDisk), .ofNat file.length)

/-- `CTransaction::ReadFromDisk` -/
def Transaction.readFromDisk (L : Layout) (files : BlockFiles) (pos : TxPos) :
    Option Transaction := do
  let file ← openBlockFile files pos.nFile
  let r ← (Transaction.unserialize L).run (file.drop pos.nTxPos.toNat)
  return r.1

theorem Block.writeToDisk_eq_some {messageStart : List UInt8} {files files' : BlockFiles}
    {nFile : FileNumber} {b : Block} {nBlockPos : UInt32}
    (h : b.writeToDisk messageStart files nFile = some (files', nBlockPos)) :
    ¬nFile.val < 1 ∧ ∃ front, files' nFile = front ++ b.serialize serDisk ∧
      nBlockPos = .ofNat front.length := by
  unfold Block.writeToDisk openBlockFile at h
  split at h
  · cases h
  · rename_i hFile
    obtain ⟨rfl, rfl⟩ := Prod.mk.inj (Option.some_injective _ h)
    exact ⟨hFile, _, Function.update_self _ _ _, rfl⟩

section Sizes

variable {α : Type} {size : α → ℕ} {v : List α}

theorem length_le_sum_map (h : ∀ a, 0 < size a) : v.length ≤ (v.map size).sum := by
  have hle := List.length_le_sum_of_one_le (v.map size) fun n hn => by
    obtain ⟨a, _, rfl⟩ := List.mem_map.mp hn
    exact h a
  rwa [List.length_map] at hle

theorem le_sum_map {a : α} (ha : a ∈ v) : size a ≤ (v.map size).sum :=
  List.single_le_sum (fun _ _ => Nat.zero_le _) _ (List.mem_map_of_mem ha)

end Sizes

theorem Transaction.readable_of_serializeSize {tx : Transaction} (h : tx.serializeSize ≤ maxSize) :
    tx.Readable := by
  rw [Transaction.serializeSize] at h
  have hvin := length_le_sum_map (v := tx.vin) fun i => show 0 < i.serializeSize by
    rw [TxIn.serializeSize]
    omega
  have hvout := length_le_sum_map (v := tx.vout) fun o => show 0 < o.serializeSize by
    rw [TxOut.serializeSize]
    omega
  refine ⟨by omega, by omega, fun i hi => ?_, fun o ho => ?_⟩
  · have hle : i.serializeSize ≤ (tx.vin.map TxIn.serializeSize).sum := le_sum_map hi
    rw [TxIn.serializeSize] at hle
    omega
  · have hle : o.serializeSize ≤ (tx.vout.map TxOut.serializeSize).sum := le_sum_map ho
    rw [TxOut.serializeSize] at hle
    omega

theorem Block.serializeSize_le {P : Params} {nAdjustedTime : ℤ} {signed : Bool} {b : Block}
    {fCheckPOW fCheckMerkleRoot fCheckSig : Bool}
    (h : b.checkBlock P nAdjustedTime signed fCheckPOW fCheckMerkleRoot fCheckSig = true) :
    b.serializeSize ≤ maxBlockSize := by
  simp only [Block.checkBlock, Bool.and_eq_true, decide_eq_true_eq] at h
  omega

/-- What is written of a block before its `i`-th transaction. -/
def Block.before (b : Block) (i : ℕ) : List UInt8 :=
  b.header.serialize ++ (writeCompactSize b.vtx.length ++
    (b.vtx.take i).flatMap Transaction.serialize)

theorem Block.length_before (b : Block) (i : ℕ) : (b.before i).length =
    80 + (getSizeOfCompactSize b.vtx.length +
      ((b.vtx.take i).map Transaction.serializeSize).sum) := by
  rw [Block.before, List.length_append, List.length_append, BlockHeader.length_serialize,
    length_writeCompactSize, List.length_flatMap]
  simp only [Transaction.length_serialize]

theorem Block.serialize_eq_before {b : Block} {i : ℕ} (hi : i < b.vtx.length) :
    ∃ back, b.serialize serDisk = b.before i ++ (b.vtx[i].serialize ++ back) := by
  refine ⟨(b.vtx.drop (i + 1)).flatMap Transaction.serialize ++ serializeBytes b.vchBlockSig, ?_⟩
  have hvtx : b.vtx.flatMap Transaction.serialize =
      (b.vtx.take i).flatMap Transaction.serialize ++
        (b.vtx[i].serialize ++ (b.vtx.drop (i + 1)).flatMap Transaction.serialize) := by
    rw [← List.flatMap_cons, ← List.drop_eq_getElem_cons hi, ← List.flatMap_append,
      List.take_append_drop]
  rw [Block.serialize, headerOnly_of_full (Or.inr rfl), if_neg Bool.false_ne_true, serializeVector,
    hvtx, Block.before]
  simp only [List.append_assoc]

theorem getElem_mem_txPositions (nFile : FileNumber) (nBlockPos nTxPos : UInt32)
    {txs : List Transaction} {i : ℕ} (hi : i < txs.length) :
    ((⟨nFile, nBlockPos,
        nTxPos + .ofNat ((txs.take i).map Transaction.serializeSize).sum⟩ : TxPos), txs[i]) ∈
      txPositions nFile nBlockPos nTxPos txs := by
  induction txs generalizing nTxPos i with
  | nil => cases hi
  | cons tx txs ih =>
    rw [txPositions]
    cases i with
    | zero =>
      have hzero : nTxPos + .ofNat 0 = nTxPos := UInt32.add_zero nTxPos
      rw [List.take_zero, List.map_nil, List.sum_nil, hzero]
      exact List.mem_cons_self
    | succ i =>
      rw [List.take_succ_cons, List.map_cons, List.sum_cons, UInt32.ofNat_add, ← UInt32.add_assoc]
      exact List.mem_cons_of_mem _ (ih _ (Nat.lt_of_succ_lt_succ hi))

theorem firstTxPos_add (nBlockPos : UInt32) (b : Block) (i : ℕ) :
    firstTxPos nBlockPos b + .ofNat ((b.vtx.take i).map Transaction.serializeSize).sum =
      nBlockPos + .ofNat (b.before i).length := by
  rw [firstTxPos, UInt32.add_assoc, ← UInt32.ofNat_add, b.length_before, ← Nat.add_assoc]
  rfl

theorem readTxIndex_connectBlock {P : Params} {io : BlockIo} {b : Block} {pindex : BlockIndex}
    {pprev : BlockPtr} {n n' : Node}
    (h : (connectBlock P io b false (pindex :: pprev)).run n = (some (), n')) {i : ℕ}
    (hi : i < b.vtx.length) :
    ∃ r, readTxIndex n'.txdb (P.txHash b.vtx[i]) = some r ∧ r.pos =
      some ⟨pindex.nFile, pindex.nBlockPos, pindex.nBlockPos + .ofNat (b.before i).length⟩ := by
  obtain ⟨s, hs, _, hix⟩ := connectBlock_eq_some h
  have hids : ((blockLedger P pindex b).map Tx.id).Nodup := by
    rw [blockLedger_ids]
    exact (connectBlockChecks_eq_some (InputView.values_value _) hs).checked.txids
  have hmem := getElem_mem_txPositions pindex.nFile pindex.nBlockPos
    (firstTxPos pindex.nBlockPos b) hi
  rw [firstTxPos_add] at hmem
  rw [hix]
  exact connectAll_pos hids (List.mem_map_of_mem (f := fun tx => ledgerTx P tx.1 tx.2) hmem)

theorem checkBlock_of_connectBlock {P : Params} {io : BlockIo} {b : Block} {pindex : BlockIndex}
    {pprev : BlockPtr} {n n' : Node}
    (h : (connectBlock P io b false (pindex :: pprev)).run n = (some (), n')) :
    b.checkBlock P io.adjustedTime true true true false = true := by
  obtain ⟨s, hs, _, _⟩ := connectBlock_eq_some h
  unfold connectBlockChecks at hs
  obtain ⟨_, hcheck, _⟩ := Option.bind_eq_some_iff.mp hs
  rwa [Option.guard_eq_some'] at hcheck

theorem Transaction.readFromDisk_of_drop (L : Layout) {files : BlockFiles} {pos : TxPos}
    {tx : Transaction} {rest : List UInt8} (hFile : ¬pos.nFile.val < 1) (htx : tx.Readable)
    (hdrop : (files pos.nFile).drop pos.nTxPos.toNat = tx.serialize ++ rest) :
    readFromDisk L files pos = some tx := by
  have hopen : openBlockFile files pos.nFile = some (files pos.nFile) := if_neg hFile
  rw [readFromDisk, hopen, Option.bind_eq_bind, Option.bind_some, hdrop, tx.reads L htx rest]
  rfl

/-- A transaction of a connected block is recorded where `WriteToDisk` has put it, and
`ReadFromDisk` gets it from there, however much is appended to the file. -/
theorem readFromDisk_connectBlock (L : Layout) {P : Params} {io : BlockIo}
    {messageStart : List UInt8} {files files' files'' : BlockFiles} {b : Block}
    {pindex : BlockIndex} {pprev : BlockPtr} {n n' : Node}
    (hwrite : b.writeToDisk messageStart files pindex.nFile = some (files', pindex.nBlockPos))
    (hlt : (files' pindex.nFile).length < 2 ^ 32)
    (happend : files' pindex.nFile <+: files'' pindex.nFile)
    (h : (connectBlock P io b false (pindex :: pprev)).run n = (some (), n')) {i : ℕ}
    (hi : i < b.vtx.length) :
    ∃ r pos front back, readTxIndex n'.txdb (P.txHash b.vtx[i]) = some r ∧ r.pos = some pos ∧
      pos.nFile = pindex.nFile ∧ pos.nBlockPos = pindex.nBlockPos ∧
      files' pindex.nFile = front ++ (b.before i ++ (b.vtx[i].serialize ++ back)) ∧
      pos.nBlockPos.toNat = front.length ∧
      pos.nTxPos.toNat = front.length + (b.before i).length ∧
      Transaction.readFromDisk L files'' pos = some b.vtx[i] := by
  obtain ⟨hFile, front, hfile, hpos⟩ := Block.writeToDisk_eq_some hwrite
  obtain ⟨back, hb⟩ := Block.serialize_eq_before hi
  rw [hb] at hfile
  obtain ⟨r, hr, hrpos⟩ := readTxIndex_connectBlock h hi
  have hlength := congrArg List.length hfile
  rw [List.length_append, List.length_append] at hlength
  have hBlockPos : pindex.nBlockPos.toNat = front.length := by
    rw [hpos, UInt32.toNat_ofNat', Nat.mod_eq_of_lt (by omega)]
  have hTxPos : (pindex.nBlockPos + .ofNat (b.before i).length).toNat =
      front.length + (b.before i).length := by
    rw [UInt32.toNat_add, UInt32.toNat_ofNat', hBlockPos, Nat.add_mod_mod,
      Nat.mod_eq_of_lt (by omega)]
  refine ⟨r, _, front, back, hr, hrpos, rfl, rfl, hfile, hBlockPos, hTxPos, ?_⟩
  -- what is appended comes after the transaction
  obtain ⟨more, hmore⟩ := happend
  have hdrop : (files'' pindex.nFile).drop (front.length + (b.before i).length) =
      b.vtx[i].serialize ++ (back ++ more) := by
    rw [← hmore, hfile, ← List.length_append, ← List.append_assoc front, List.append_assoc,
      List.drop_left, List.append_assoc]
  have hsize : b.vtx[i].serializeSize ≤ maxSize := by
    have hle : b.vtx[i].serializeSize ≤ (b.vtx.map Transaction.serializeSize).sum :=
      le_sum_map (List.getElem_mem hi)
    have hblock := Block.serializeSize_le (checkBlock_of_connectBlock h)
    rw [Block.serializeSize] at hblock
    have hmax : maxBlockSize ≤ maxSize := by decide
    omega
  have hread := Transaction.reads L (Transaction.readable_of_serializeSize hsize) (back ++ more)
  rw [← hTxPos] at hdrop
  exact Transaction.readFromDisk_of_drop L hFile (Transaction.readable_of_serializeSize hsize) hdrop

open Sample in
theorem readFromDisk_connectBlock_first :
    let pindex := { entry first with nBlockPos := 8 }
    let x := (connectBlock params blockIo first false [pindex, entry genesis]).run node
    ∃ files', first.writeToDisk [1, 2, 3, 4] (fun _ => []) pindex.nFile = some (files', 8) ∧
      x.1 = some () ∧ ∃ r pos, readTxIndex x.2.txdb (params.txHash first.vtx[0]) = some r ∧
        r.pos = some pos ∧ Transaction.readFromDisk layout files' pos = some first.vtx[0] := by
  intro pindex x
  obtain ⟨files', hwrite, hlength⟩ : ∃ files' : BlockFiles,
      first.writeToDisk [1, 2, 3, 4] (fun _ => []) pindex.nFile = some (files', 8) ∧
        (files' pindex.nFile).length < 2 ^ 32 := ⟨_, rfl, by decide +kernel⟩
  have hrun : x.1 = some () := by decide +kernel
  obtain ⟨r, pos, _, _, hr, hpos, _, _, _, _, _, hread⟩ := readFromDisk_connectBlock layout
    hwrite hlength (List.prefix_refl _) (Prod.ext hrun rfl) (show 0 < first.vtx.length by decide)
  exact ⟨files', hwrite, hrun, r, pos, hr, hpos, hread⟩

end Beancash
