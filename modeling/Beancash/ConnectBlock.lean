import Beancash.FallibleStep
import Beancash.MemPool
import Beancash.TxDB
import Beancash.Wallet

namespace Beancash

open Fallible

inductive DbKey where
  | tx (hash : Uint256)
  | blockindex (hash : Uint256)
  | hashBestChain
  | bnBestInvalidTrust
  | hashSyncCheckpoint
deriving DecidableEq

inductive DbValue where
  | txIndex (txindex : TxIndex)
  | blockIndex (blockindex : DiskBlockIndex)
  | hash (hash : Uint256)
  | bigNum (bn : ℤ)
deriving DecidableEq

abbrev ChainDB := TxDB DbKey DbValue

def asTxIndex : DbValue → Option TxIndex
  | .txIndex txindex => some txindex
  | _ => none

def readTxIndex (db : ChainDB) : Ledger.Index Uint256 TxPos := fun hash =>
  (db.read (.tx hash)).bind asTxIndex

/-- The global variables of `main.cpp`, with what changes in the entries of the block index. -/
structure Node where
  txdb : ChainDB
  pnext : Uint256 → BlockPtr
  nMint : Uint256 → Int64
  nMoneySupply : Uint256 → Int64
  pindexGenesisBlock : BlockPtr
  pindexBest : BlockPtr
  hashBestChain : Uint256
  nBestHeight : ℕ
  nBestChainTrust : Uint256
  nBestInvalidTrust : Uint256
  mempool : TxMemPool
  setpwalletRegistered : List Wallet

/-- What the world outside answers while one block is connected or disconnected. -/
structure BlockIo where
  /-- the block that is read from the disk at the position of its index entry -/
  readBlock : Option Block
  readTx : TxPos → Option Transaction
  readHeader : FileNumber → UInt32 → Option BlockHeader
  adjustedTime : ℤ
  txnBegin : Bool
  txnCommit : Bool
  writeToDisk : Bool

/-- `CBlock::ReadFromDisk(pindex)`: what is read must be the block that the index names. -/
def BlockIo.readFromDisk (P : Params) (io : BlockIo) (pindex : BlockPtr) : Option Block :=
  io.readBlock.filter fun b =>
    !(b.isProofOfWork && !checkProofOfWork P (b.hash P) b.header.nBits) &&
      b.hash P == BlockPtr.hash pindex

namespace Node

def inputView (n : Node) (io : BlockIo) : InputView where
  readTxIndex := readTxIndex n.txdb
  lookup := n.mempool.lookup
  readTx := io.readTx
  nBestHeight := n.nBestHeight

/-- `CDiskBlockIndex(pindex)`, with `hashNext` as given. -/
def diskBlockIndex (n : Node) (pindex : BlockIndex) (pprev : BlockPtr) (hashNext : Uint256) :
    DiskBlockIndex where
  index := pindex
  nHeight := pprev.length
  nMint := n.nMint pindex.phashBlock
  nMoneySupply := n.nMoneySupply pindex.phashBlock
  hashPrev := BlockPtr.hash pprev
  hashNext := hashNext

/-- `WriteBlockIndex`; the null pointer stands for the parent of a first block, whose entry
is not written. -/
def writeBlockIndex (n : Node) (pindex : BlockPtr) (hashNext : Uint256) : Node :=
  match pindex with
  | [] => n
  | e :: p => { n with
      txdb := n.txdb.write (.blockindex e.phashBlock) (.blockIndex (n.diskBlockIndex e p hashNext)) }

def updateTxIndex (n : Node) (hash : Uint256) (txindex : TxIndex) : Node :=
  { n with txdb := n.txdb.write (.tx hash) (.txIndex txindex) }

def eraseTxIndex (n : Node) (hash : Uint256) : Node :=
  { n with txdb := n.txdb.erase (.tx hash) }

def writeHashBestChain (n : Node) (hash : Uint256) : Node :=
  { n with txdb := n.txdb.write .hashBestChain (.hash hash) }

/-- `SyncWithWallets` for the transactions of a block; the wallets do not see each other. -/
def syncWithWallets (P : Params) (n : Node) (b : Block) (fUpdate fConnect fWritten : Bool) : Node :=
  { n with
    setpwalletRegistered :=
      n.setpwalletRegistered.map (Wallet.syncBlock P b fUpdate fConnect fWritten) }

end Node

/-- The local variables of `ConnectBlock`. -/
structure ConnectState where
  mapQueuedChanges : QueuedChanges
  nFees : Int64
  nValueIn : Int64
  nValueOut : Int64
  nStakeReward : Int64
  nSigOps : UInt32
  nTxPos : UInt32

/-- Connect the inputs of a transaction that is not a beanbase: the queue after it, the
signature operations so far, and what it takes in and pays out. -/
def connectTxInputs (P : Params) (v : InputView) (pindex : BlockPtr) (posThisTx : TxPos)
    (mapQueuedChanges : QueuedChanges) (nSigOps : UInt32) (tx : Transaction) :
    Option (QueuedChanges × UInt32 × Int64 × Int64) := do
  let mapInputs ← (v.fetchInputs mapQueuedChanges true false tx).toOption
  let nSigOps := nSigOps + (← tx.getP2SHSigOpCount P mapInputs)
  guard (nSigOps.toNat ≤ maxBlockSigops)
  let nTxValueIn ← tx.getValueIn mapInputs
  let nTxValueOut ← tx.getValueOut
  let mapQueuedChanges ←
    v.connectInputs P tx mapInputs mapQueuedChanges posThisTx pindex true false
  return (mapQueuedChanges, nSigOps, nTxValueIn, nTxValueOut)

/-- The same for any transaction; a beanbase takes nothing in. -/
def connectTxBody (P : Params) (v : InputView) (pindex : BlockPtr) (posThisTx : TxPos)
    (mapQueuedChanges : QueuedChanges) (nSigOps : UInt32) (tx : Transaction) :
    Option (QueuedChanges × UInt32 × Int64 × Int64) :=
  if tx.isBeanBase then
    tx.getValueOut.map fun nTxValueOut => (mapQueuedChanges, nSigOps, 0, nTxValueOut)
  else connectTxInputs P v pindex posThisTx mapQueuedChanges nSigOps tx

/-- A transaction may not overwrite an older one of which an output is unspent. -/
def overwrites (v : InputView) (hashTx : Uint256) : Bool :=
  (v.readTxIndex hashTx).any fun txindexOld => txindexOld.spent.any Option.isNone

/-- One round of the loop of `ConnectBlock`. -/
def connectTx (P : Params) (v : InputView) (pindex : BlockIndex) (pprev : BlockPtr)
    (fJustCheck : Bool) (s : ConnectState) (tx : Transaction) : Option ConnectState := do
  let hashTx := P.txHash tx
  guard !overwrites v hashTx
  let nSigOps := s.nSigOps + tx.getLegacySigOpCount P
  guard (nSigOps.toNat ≤ maxBlockSigops)
  let posThisTx : TxPos := ⟨pindex.nFile, pindex.nBlockPos, s.nTxPos⟩
  let (mapQueuedChanges, nSigOps, nTxValueIn, nTxValueOut) ←
    connectTxBody P v (pindex :: pprev) posThisTx s.mapQueuedChanges nSigOps tx
  return {
    mapQueuedChanges := mapQueuedChanges.insert hashTx (TxIndex.new (some posThisTx) tx.vout.length)
    nFees := if tx.isBeanBase || tx.isBeanStake then s.nFees else
      s.nFees + (nTxValueIn - nTxValueOut)
    nValueIn := s.nValueIn + nTxValueIn
    nValueOut := s.nValueOut + nTxValueOut
    nStakeReward := if tx.isBeanStake then nTxValueOut - nTxValueIn else s.nStakeReward
    nSigOps := nSigOps
    nTxPos := if fJustCheck then s.nTxPos else s.nTxPos + UInt32.ofNat tx.serializeSize }

def getProofOfWorkReward (nFees : Int64) : Int64 := 100000 * bean + nFees

/-- The reward does not depend on the age of the beans. -/
def getProofOfStakeReward (_nBeanAge : ℤ) (nFees : Int64) : Int64 := 1000 * bean + nFees

def checkReward (P : Params) (v : InputView) (io : BlockIo) (b : Block) (s : ConnectState) : Bool :=
  match b.vtx with
  | beanbase :: rest =>
    (!b.isProofOfWork ||
      beanbase.getValueOut.any fun nValueOut => nValueOut ≤ getProofOfWorkReward s.nFees) &&
    (!b.isProofOfStake ||
      (rest.head?.bind (getBeanAge P v io.readHeader)).any fun nBeanAge =>
        s.nStakeReward ≤ getProofOfStakeReward nBeanAge s.nFees)
  | [] => false

/-- The position of the first transaction, after the header and the number of transactions. -/
def firstTxPos (nBlockPos : UInt32) (b : Block) : UInt32 :=
  nBlockPos + UInt32.ofNat (82 - 2 * getSizeOfCompactSize 0 + getSizeOfCompactSize b.vtx.length)

/-- `ConnectBlock` up to its first write. -/
def connectBlockChecks (P : Params) (v : InputView) (io : BlockIo) (b : Block)
    (pindex : BlockIndex) (pprev : BlockPtr) (fJustCheck : Bool) : Option ConnectState := do
  -- the signature of the block is not checked again
  guard (b.checkBlock P io.adjustedTime true (!fJustCheck) (!fJustCheck) false)
  let nTxPos := if fJustCheck then 1 else firstTxPos pindex.nBlockPos b
  let s ← b.vtx.foldlM (connectTx P v pindex pprev fJustCheck) ⟨∅, 0, 0, 0, 0, 0, nTxPos⟩
  guard (checkReward P v io b s)
  return s

namespace Node

/-- Money supply and mint of the block in the index entry. -/
def trackMint (n : Node) (pindex : BlockIndex) (pprev : BlockPtr) (s : ConnectState) : Node :=
  let nPrevSupply := if pprev.isEmpty then 0 else n.nMoneySupply (BlockPtr.hash pprev)
  { n with
    nMint := Function.update n.nMint pindex.phashBlock (s.nValueOut - s.nValueIn + s.nFees)
    nMoneySupply := Function.update n.nMoneySupply pindex.phashBlock
      (nPrevSupply + s.nValueOut - s.nValueIn) }

def writeQueuedChanges (n : Node) (queue : QueuedChanges) : Node :=
  queue.entries.foldl (fun n change => n.updateTxIndex change.1 change.2) n

end Node

/-- `ConnectBlock`. The writes are to the batch, so that they do not fail. -/
def connectBlock (P : Params) (io : BlockIo) (b : Block) (fJustCheck : Bool) :
    BlockPtr → Step Node Unit
  | [] => .fail
  | pindex :: pprev => do
    let v ← Step.read fun n => n.inputView io
    let s ← Step.ofOption (connectBlockChecks P v io b pindex pprev fJustCheck)
    Step.modify fun n => n.trackMint pindex pprev s
    Step.modify fun n =>
      n.writeBlockIndex (pindex :: pprev) (BlockPtr.hash (n.pnext pindex.phashBlock))
    if fJustCheck then pure ()
    else
      Step.modify fun n => n.writeQueuedChanges s.mapQueuedChanges
      Step.modify fun n => n.writeBlockIndex pprev pindex.phashBlock
      Step.modify fun n => n.syncWithWallets P b true true io.writeToDisk

/-- Relinquish one spent pointer. -/
def disconnectInput (prevout : OutPoint) : Step Node Unit := do
  let txindex? ← Step.read fun n => readTxIndex n.txdb prevout.hash
  let txindex ← Step.ofOption txindex?
  Step.guard (prevout.n.toNat < txindex.spent.length)
  Step.modify fun n => n.updateTxIndex prevout.hash (txindex.mark prevout.n.toNat none)

/-- `CTransaction::DisconnectInputs` -/
def disconnectInputs (P : Params) (tx : Transaction) : Step Node Unit := do
  Step.forEach disconnectInput (if tx.isBeanBase then [] else tx.prevouts)
  Step.modify fun n => n.eraseTxIndex (P.txHash tx)

def disconnectBlock (P : Params) (io : BlockIo) (b : Block) (pindex : BlockPtr) :
    Step Node Unit := do
  Step.forEach (disconnectInputs P) b.vtx.reverse
  Step.modify fun n => n.writeBlockIndex (BlockPtr.pprev pindex) 0
  Step.modify fun n => n.syncWithWallets P b false false io.writeToDisk

namespace Sample

def blockIo : BlockIo where
  readBlock := none
  readTx _ := none
  readHeader _ _ := none
  adjustedTime := 0
  txnBegin := true
  txnCommit := true
  writeToDisk := true

def node : Node where
  txdb := ⟨Function.update (fun _ => none) .hashBestChain (some (.hash 1)), none⟩
  pnext _ := []
  nMint _ := 0
  nMoneySupply _ := 0
  pindexGenesisBlock := [entry genesis]
  pindexBest := [entry genesis]
  hashBestChain := 1
  nBestHeight := 0
  nBestChainTrust := BlockPtr.nChainTrust [entry genesis]
  nBestInvalidTrust := 0
  mempool := .empty
  setpwalletRegistered := []

end Sample

end Beancash
