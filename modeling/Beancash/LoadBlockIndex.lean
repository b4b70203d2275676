import Beancash.SyncCheckpoint
import Mathlib.Data.List.Sort

namespace Beancash

open Fallible

/-- `Hash` of what `GetStakeModifierChecksum` streams: the checksum of the parent, if there is
one, the flags, the proof hash and the stake modifier. -/
abbrev ChecksumHash := Option UInt32 → UInt32 → Uint256 → UInt64 → Uint256

def BlockIndex.nFlags (e : BlockIndex) : UInt32 :=
  (if e.fProofOfStake then 1 else 0) ||| (if e.fStakeEntropy then 2 else 0) |||
    (if e.fStakeModifier then 4 else 0)

/-- `GetStakeModifierChecksum`, the top 32 bits of the hash. -/
def stakeModifierChecksum (C : ChecksumHash) (checksumPrev : Option UInt32) (e : BlockIndex) :
    UInt32 :=
  let hashChecksum :=
    C checksumPrev e.nFlags (if e.fProofOfStake then e.hashProof else 0) e.nStakeModifier
  UInt32.ofNat (hashChecksum >>> 224).toNat

/-- What `AddToBlockIndex` gives to an entry, on top of its parent; there is none at the null
pointer. -/
def BlockPtr.nStakeModifierChecksum (C : ChecksumHash) : BlockPtr → Option UInt32
  | [] => none
  | e :: p => some (stakeModifierChecksum C (nStakeModifierChecksum C p) e)

def mapStakeModifierCheckpoints : List (ℕ × UInt32) :=
  [(0, 0xfd11f4e7), (11111, 0xeff7f1a1), (322748, 0xe5229570), (1666369, 0x3ada8075),
   (2000000, 0x3c22b036), (3000000, 0x04a21a4e)]

/-- `CheckStakeModifierCheckpoints`; the test network has no checkpoints. -/
def checkStakeModifierCheckpoints (P : Params) (nHeight : ℕ) (nStakeModifierChecksum : UInt32) :
    Bool :=
  P.testNet || (mapStakeModifierCheckpoints.lookup nHeight).all fun checksum =>
    nStakeModifierChecksum == checksum

/-- What the world outside answers while the index is loaded, and how the node was started. -/
structure LoadIo where
  /-- the records that the iterator of the database yields -/
  blockIndexes : List DiskBlockIndex
  /-- where an entry is allocated: pairs of a height and a pointer are sorted -/
  address : Uint256 → ℕ
  adjustedTime : ℤ
  readTx : TxPos → Option Transaction
  /-- the verdict of `CheckBlockSignature` -/
  signed : Block → Bool
  chain : Io
  fUseFastIndex : Bool
  /-- `-checklevel` -/
  nCheckLevel : ℤ
  /-- `-checkblocks` -/
  nCheckDepth : ℤ

/-- An entry that is being loaded. Its links are the hashes of the entries they point to, and
the null pointer is 0. -/
structure LoadedIndex where
  index : BlockIndex
  pprev : Uint256
  pnext : Uint256
  nHeight : ℕ
  nMint : Int64
  nMoneySupply : Int64
  nChainTrust : Uint256
  nStakeModifierChecksum : UInt32
deriving DecidableEq

abbrev LoadedMap := AList fun _ : Uint256 => LoadedIndex

/-- `CBlockIndex()` in the map -/
def LoadedIndex.blank (hash : Uint256) : LoadedIndex where
  index := {
    phashBlock := hash
    nFile := ⟨0, by decide⟩
    nBlockPos := 0
    header := ⟨0, 0, 0, 0, 0, 0⟩
    fProofOfStake := false
    fStakeEntropy := false
    fStakeModifier := false
    nStakeModifier := 0
    prevoutStake := ⟨0, 0xffffffff⟩
    nStakeTime := 0
    hashProof := 0 }
  pprev := 0
  pnext := 0
  nHeight := 0
  nMint := 0
  nMoneySupply := 0
  nChainTrust := 0
  nStakeModifierChecksum := 0

def insertBlockIndex (mapBlockIndex : LoadedMap) (hash : Uint256) : LoadedMap :=
  if hash = 0 ∨ hash ∈ mapBlockIndex then mapBlockIndex
  else mapBlockIndex.insert hash (.blank hash)

namespace DiskBlockIndex

/-- `CBlockIndex::GetBlockHeader` has the parent from its link. -/
def blockHeader (d : DiskBlockIndex) : BlockHeader :=
  { d.index.header with hashPrevBlock := d.hashPrev }

/-- `CDiskBlockIndex::GetBlockHash`, which trusts the stored hash of a block older than a day. -/
def blockHash (P : Params) (io : LoadIo) (d : DiskBlockIndex) : Uint256 :=
  if io.fUseFastIndex ∧ (d.index.header.nTime.toNat : ℤ) < io.adjustedTime - 24 * 60 * 60 ∧
      d.index.phashBlock ≠ 0 then d.index.phashBlock
  else P.blockHash d.blockHeader

/-- The entry that a record fills in. Without proof of stake neither the stake nor its time is on
the disk. -/
def toLoaded (d : DiskBlockIndex) (hash : Uint256) : LoadedIndex where
  index := { d.index with
    phashBlock := hash
    header := d.blockHeader
    prevoutStake := if d.index.fProofOfStake then d.index.prevoutStake else ⟨0, 0xffffffff⟩
    nStakeTime := if d.index.fProofOfStake then d.index.nStakeTime else 0 }
  pprev := d.hashPrev
  pnext := d.hashNext
  nHeight := d.nHeight
  nMint := d.nMint
  nMoneySupply := d.nMoneySupply
  nChainTrust := 0
  nStakeModifierChecksum := 0

end DiskBlockIndex

/-- What the records fill in. -/
structure LoadState where
  mapBlockIndex : LoadedMap
  setStakeSeen : Finset (OutPoint × UInt32)
  pindexGenesisBlock : Uint256

/-- One round of the loop over the records. -/
def loadRecord (P : Params) (io : LoadIo) (s : LoadState) (d : DiskBlockIndex) :
    Option LoadState := do
  let hash := d.blockHash P io
  -- there is no entry to fill in
  guard (hash ≠ 0)
  let pindexNew := d.toLoaded hash
  let mapBlockIndex := insertBlockIndex s.mapBlockIndex hash
  let mapBlockIndex := insertBlockIndex mapBlockIndex d.hashPrev
  let mapBlockIndex := insertBlockIndex mapBlockIndex d.hashNext
  return {
    mapBlockIndex := mapBlockIndex.insert hash pindexNew
    setStakeSeen :=
      if pindexNew.index.fProofOfStake then
        insert (pindexNew.index.prevoutStake, pindexNew.index.nStakeTime) s.setStakeSeen
      else s.setStakeSeen
    pindexGenesisBlock :=
      if s.pindexGenesisBlock = 0 ∧ hash = P.hashGenesisBlock then hash
      else s.pindexGenesisBlock }

namespace LoadedMap

variable (m : LoadedMap)

def nHeight (hash : Uint256) : ℕ := (m.lookup hash).elim 0 LoadedIndex.nHeight

def nChainTrust (hash : Uint256) : Uint256 := (m.lookup hash).elim 0 LoadedIndex.nChainTrust

/-- The order of `vSortedByHeight`. -/
def byHeight (address : Uint256 → ℕ) (a b : Uint256) : Prop :=
  m.nHeight a < m.nHeight b ∨ m.nHeight a = m.nHeight b ∧ address a ≤ address b

instance (address : Uint256 → ℕ) : DecidableRel (byHeight m address) := fun a b =>
  inferInstanceAs
    (Decidable (m.nHeight a < m.nHeight b ∨ m.nHeight a = m.nHeight b ∧ address a ≤ address b))

def vSortedByHeight (address : Uint256 → ℕ) : List Uint256 :=
  m.keys.insertionSort (byHeight m address)

end LoadedMap

/-- One round of the loop over `vSortedByHeight`. -/
def calculateChainTrust (P : Params) (C : ChecksumHash) (m : LoadedMap) (hash : Uint256) :
    Option LoadedMap := do
  let pindex ← m.lookup hash
  let pprev := m.lookup pindex.pprev
  let nStakeModifierChecksum :=
    stakeModifierChecksum C (pprev.map LoadedIndex.nStakeModifierChecksum) pindex.index
  guard (checkStakeModifierCheckpoints P pindex.nHeight nStakeModifierChecksum)
  return m.insert hash { pindex with
    nChainTrust := pprev.elim 0 LoadedIndex.nChainTrust + blockTrust pindex.index.header.nBits
    nStakeModifierChecksum := nStakeModifierChecksum }

/-- The node after a restart, with what the loader has summed up for each entry. -/
structure LoadedNode extends IndexedNode where
  nHeight : Uint256 → ℕ
  nChainTrust : Uint256 → Uint256
  nStakeModifierChecksum : Uint256 → UInt32

namespace LoadedMap

variable (m : LoadedMap)

/-- The entry of a hash and what `pprev` leads to from it. -/
def walk : ℕ → Uint256 → BlockPtr
  | fuel + 1, hash =>
    match m.lookup hash with
    | some pindex => pindex.index :: walk fuel pindex.pprev
    | none => []
  | 0, _ => []

/-- No more entries are met than there are. -/
def pointer (hash : Uint256) : BlockPtr := walk m m.keys.length hash

/-- The node whose entries are those of the map. -/
def toNode (s : LoadState) (pdb : KeyValue.Store DbKey DbValue)
    (hashBestChain hashSyncCheckpoint nBestInvalidTrust : Uint256) : LoadedNode where
  node := {
    txdb := ⟨pdb, none⟩
    pnext := fun hash => (m.lookup hash).elim [] fun pindex => pointer m pindex.pnext
    nMint := fun hash => (m.lookup hash).elim 0 LoadedIndex.nMint
    nMoneySupply := fun hash => (m.lookup hash).elim 0 LoadedIndex.nMoneySupply
    pindexGenesisBlock := pointer m s.pindexGenesisBlock
    pindexBest := pointer m hashBestChain
    hashBestChain := hashBestChain
    nBestHeight := m.nHeight hashBestChain
    nBestChainTrust := m.nChainTrust hashBestChain
    nBestInvalidTrust := nBestInvalidTrust
    mempool := .empty
    setpwalletRegistered := [] }
  mapBlockIndex hash := if hash ∈ m then some (pointer m hash) else none
  setStakeSeen := s.setStakeSeen
  hashSyncCheckpoint := hashSyncCheckpoint
  hashPendingCheckpoint := 0
  hashInvalidCheckpoint := 0
  nHeight := m.nHeight
  nChainTrust := m.nChainTrust
  nStakeModifierChecksum hash := (m.lookup hash).elim 0 LoadedIndex.nStakeModifierChecksum

end LoadedMap

/-- Check levels 2 and 3: what the index has for a transaction of a block is where the block is,
or is the transaction all the same. -/
def positionSound (P : Params) (io : LoadIo) (pindex : BlockIndex) (hashTx : Uint256)
    (txindex : TxIndex) : Bool :=
  !(decide (2 < io.nCheckLevel) || !txindex.pos.any fun pos =>
    decide (pos.nFile = pindex.nFile ∧ pos.nBlockPos = pindex.nBlockPos)) ||
    (txindex.pos.bind io.readTx).any fun txFound => P.txHash txFound == hashTx

/-- Check levels 4 and 6: what has spent an output is in a block that was met, and spends it. -/
def spentSound (io : LoadIo) (mapBlockPos : List (FileNumber × UInt32)) (hashTx : Uint256) :
    Option TxPos × ℕ → Bool
  | (none, _) => true
  | (some txpos, nOutput) => mapBlockPos.contains (txpos.nFile, txpos.nBlockPos) &&
      (!decide (5 < io.nCheckLevel) || (io.readTx txpos).any fun txSpend =>
        txSpend.checkTransaction && txSpend.vin.any fun txin =>
          txin.prevout.hash == hashTx && txin.prevout.n.toNat == nOutput)

/-- Check level 5: a previous output that the index knows is marked spent. -/
def prevoutSound (index : Ledger.Index Uint256 TxPos) (prevout : OutPoint) : Bool :=
  (index prevout.hash).all fun txindex => (txindex.spent[prevout.n.toNat]?.join).isSome

/-- The check levels from 2 on, for one transaction. -/
def verifyTx (P : Params) (io : LoadIo) (index : Ledger.Index Uint256 TxPos) (pindex : BlockIndex)
    (mapBlockPos : List (FileNumber × UInt32)) (tx : Transaction) : Bool :=
  ((index (P.txHash tx)).all fun txindex =>
    positionSound P io pindex (P.txHash tx) txindex &&
      (!decide (3 < io.nCheckLevel) ||
        txindex.spent.zipIdx.all (spentSound io mapBlockPos (P.txHash tx)))) &&
    (!decide (4 < io.nCheckLevel) || tx.prevouts.all (prevoutSound index))

/-- All check levels for one block; the signature of the block is checked from level 7 on. -/
def verifyBlock (P : Params) (io : LoadIo) (index : Ledger.Index Uint256 TxPos)
    (pindex : BlockIndex) (mapBlockPos : List (FileNumber × UInt32)) (b : Block) : Bool :=
  (!decide (0 < io.nCheckLevel) ||
    b.checkBlock P io.adjustedTime (io.signed b) true true (6 < io.nCheckLevel)) &&
    (!decide (1 < io.nCheckLevel) || b.vtx.all (verifyTx P io index pindex mapBlockPos))

/-- How far down the best chain is looked over. -/
def LoadIo.checkDepth (io : LoadIo) (nBestHeight : ℕ) : ℤ :=
  let nCheckDepth := if io.nCheckDepth = 0 then 1000000000 else io.nCheckDepth
  if (nBestHeight : ℤ) < nCheckDepth then nBestHeight else nCheckDepth

/-- The loop down the best chain. The block below the last bad one that is met is `pindexFork`. -/
def verifyChain (P : Params) (io : LoadIo) (m : LoadedMap) (n : Node) :
    BlockPtr → List (FileNumber × UInt32) → BlockPtr → Option BlockPtr
  | e :: d :: p, mapBlockPos, pindexFork =>
    if (m.nHeight e.phashBlock : ℤ) < n.nBestHeight - io.checkDepth n.nBestHeight then
      some pindexFork
    else do
      let b ← (io.chain.block e.phashBlock).readFromDisk P (e :: d :: p)
      let mapBlockPos :=
        if 1 < io.nCheckLevel then (e.nFile, e.nBlockPos) :: mapBlockPos else mapBlockPos
      let fSound := verifyBlock P io (readTxIndex n.txdb) e mapBlockPos b
      verifyChain P io m n (d :: p) mapBlockPos (if fSound then pindexFork else d :: p)
  | _, _, pindexFork => some pindexFork

def asHash : DbValue → Option Uint256
  | .hash hash => some hash
  | _ => none

def asBigNum : DbValue → Option ℤ
  | .bigNum bn => some bn
  | _ => none

/-- Back to the fork, if a bad block was met; whether `SetBestChain` succeeds does not matter. -/
def returnToFork (P : Params) (io : LoadIo) (s : LoadedNode) : BlockPtr → Option LoadedNode
  | [] => some s
  | pindexFork =>
    ((io.chain.block (BlockPtr.hash pindexFork)).readFromDisk P pindexFork).map fun b =>
      { s with node := ((setBestChain P io.chain b pindexFork).run s.node).2 }

/-- `CTxDB::LoadBlockIndex` on the database `pdb`, after a restart. -/
def loadBlockIndex (P : Params) (C : ChecksumHash) (io : LoadIo)
    (pdb : KeyValue.Store DbKey DbValue) : Option LoadedNode := do
  let s ← io.blockIndexes.foldlM (loadRecord P io) ⟨∅, ∅, 0⟩
  let m ← (LoadedMap.vSortedByHeight s.mapBlockIndex io.address).foldlM (calculateChainTrust P C)
    s.mapBlockIndex
  match (pdb .hashBestChain).bind asHash with
  | none => if s.pindexGenesisBlock = 0 then some (m.toNode s pdb 0 0 0) else none
  | some hashBestChain =>
    guard (hashBestChain ∈ m)
    let hashSyncCheckpoint ← (pdb .hashSyncCheckpoint).bind asHash
    let bnBestInvalidTrust := ((pdb .bnBestInvalidTrust).bind asBigNum).getD 0
    let loaded :=
      m.toNode s pdb hashBestChain hashSyncCheckpoint (BitVec.ofInt 256 bnBestInvalidTrust)
    let pindexFork ← verifyChain P io m loaded.node loaded.node.pindexBest [] []
    returnToFork P io loaded pindexFork

/-- The node before it knows of any block, with the wallets that were registered. -/
def IndexedNode.empty (wallets : List Wallet) : IndexedNode where
  node := {
    txdb := ⟨fun _ => none, none⟩
    pnext := fun _ => []
    nMint := fun _ => 0
    nMoneySupply := fun _ => 0
    pindexGenesisBlock := []
    pindexBest := []
    hashBestChain := 0
    -- the height is set with the genesis block, before it is read
    nBestHeight := 0
    nBestChainTrust := 0
    nBestInvalidTrust := 0
    mempool := .empty
    setpwalletRegistered := wallets }
  mapBlockIndex _ := none
  setStakeSeen := ∅
  hashSyncCheckpoint := 0
  hashPendingCheckpoint := 0
  hashInvalidCheckpoint := 0

/-- "Init with genesis block" of `LoadBlockIndex`, once the block is on the disk. -/
def initGenesis (P : Params) (H : SelectionHash) (io : IndexIo) (ok : Bool) (nFile : FileNumber)
    (nBlockPos : UInt32) (b : Block) : Step IndexedNode Unit := do
  addToBlockIndex P H io nFile nBlockPos b P.hashGenesisBlock
  writeSyncCheckpoint ok P.hashGenesisBlock

end Beancash
