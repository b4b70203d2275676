import Beancash.ConnectBlock

namespace Beancash

open Fallible

/-- What the world outside answers during one call of `SetBestChain`. Every block is
connected or disconnected at most once in it, so that the answers are by block. -/
structure Io where
  txnBegin : Bool
  /-- the commit of the first block or of a reorganisation -/
  txnCommit : Bool
  block : Uint256 → BlockIo

namespace BlockPtr

/-- The search for the fork in `Reorganize`: `plonger` goes down to the height of
`pfork`, and then both go down together. -/
def findFork (plonger : BlockPtr) : BlockPtr → Option BlockPtr
  | [] => none
  | e :: pfork =>
    let plonger := plonger.drop (plonger.length - (e :: pfork).length)
    if plonger = e :: pfork then some (e :: pfork) else findFork plonger pfork

/-- The pointers met from `p` down to `pfork`, which is not one of them. -/
def downTo (pfork : BlockPtr) : BlockPtr → List BlockPtr
  | [] => []
  | e :: p => if e :: p = pfork then [] else (e :: p) :: downTo pfork p

/-- The block that a reorganisation connects up to, and those after it, in the order of the
chain: as soon as there is more trust than in the old best block, the rest is postponed. -/
def postpone (nBestTrust : Uint256) : BlockPtr → BlockPtr × List BlockPtr
  | e :: d :: p =>
    if nBestTrust < nChainTrust (d :: p) then
      let r := postpone nBestTrust (d :: p)
      (r.1, r.2 ++ [e :: d :: p])
    else (e :: d :: p, [])
  | p => (p, [])

end BlockPtr

namespace Node

def txnBegin (n : Node) : Node := { n with txdb := n.txdb.txnBegin }

def txnAbort (n : Node) : Node := { n with txdb := n.txdb.txnAbort }

/-- `InvalidChainFound`, which writes through a database handle of its own. -/
def invalidChainFound (pindexNew : BlockPtr) (n : Node) : Node :=
  let nChainTrust := BlockPtr.nChainTrust pindexNew
  if n.nBestInvalidTrust < nChainTrust then
    { n with
      nBestInvalidTrust := nChainTrust
      txdb := { n.txdb with
        pdb := Function.update n.txdb.pdb .bnBestInvalidTrust (some (.bigNum nChainTrust.toNat)) } }
  else n

/-- `pindex->pprev->pnext = pnext`, if there is a parent. -/
def linkParent (n : Node) (pindex pnext : BlockPtr) : Node :=
  match BlockPtr.pprev pindex with
  | [] => n
  | d :: _ => { n with pnext := Function.update n.pnext d.phashBlock pnext }

/-- `AcceptToMemoryPool(txdb, false)`, which reads nothing of the database. -/
def resurrect (P : Params) (n : Node) (tx : Transaction) : Node :=
  let v : AcceptView := {
    inputs := { readTxIndex := readTxIndex n.txdb, lookup := n.mempool.lookup,
                readTx := fun _ => none, nBestHeight := n.nBestHeight }
    containsTx := fun hash => n.txdb.contains (.tx hash)
    pindexBest := n.pindexBest
    freeLimited := false }
  { n with mempool := (v.accept P n.mempool tx false).2.2 }

def removeFromPool (P : Params) (n : Node) (tx : Transaction) : Node :=
  { n with mempool := n.mempool.remove P tx false }

def removeConflictsFromPool (P : Params) (n : Node) (tx : Transaction) : Node :=
  { n with mempool := n.mempool.removeConflicts P tx }

def setBest (n : Node) (hash : Uint256) (pindexNew : BlockPtr) : Node :=
  { n with
    hashBestChain := hash
    pindexBest := pindexNew
    nBestHeight := BlockPtr.nHeight pindexNew
    nBestChainTrust := BlockPtr.nChainTrust pindexNew }

end Node

def txnCommit (ok : Bool) : Step Node Unit := do
  Step.modify fun n => { n with txdb := n.txdb.txnCommit ok }
  Step.guard ok

/-- Disconnect one block of the old branch: the transactions to resurrect. -/
def disconnectOld (P : Params) (io : Io) (pindex : BlockPtr) : Step Node (List Transaction) := do
  let io := io.block (BlockPtr.hash pindex)
  let b ← Step.ofOption (io.readFromDisk P pindex)
  disconnectBlock P io b pindex
  return b.vtx.filter fun tx => !(tx.isBeanBase || tx.isBeanStake)

/-- Connect one block of the new branch: the transactions to delete. -/
def connectNew (P : Params) (io : Io) (pindex : BlockPtr) : Step Node (List Transaction) := do
  let io := io.block (BlockPtr.hash pindex)
  let b ← Step.ofOption (io.readFromDisk P pindex)
  connectBlock P io b false pindex
  return b.vtx

/-- What `Reorganize` does up to and including its commit. -/
def reorganizeDb (P : Params) (io : Io) (pindexNew : BlockPtr)
    (vDisconnect vConnect : List BlockPtr) :
    Step Node (List (List Transaction) × List (List Transaction)) := do
  let vResurrect ← Step.collect (disconnectOld P io) vDisconnect
  let vDelete ← Step.collect (connectNew P io) vConnect
  Step.modify fun n => n.writeHashBestChain (BlockPtr.hash pindexNew)
  txnCommit io.txnCommit
  return (vResurrect, vDelete)

/-- What `Reorganize` does in memory once the database is written. -/
def reorganizeMemory (P : Params) (vDisconnect vConnect : List BlockPtr)
    (vResurrect vDelete : List Transaction) (n : Node) : Node :=
  let n := vDisconnect.foldl (fun n pindex => n.linkParent pindex []) n
  let n := vConnect.foldl (fun n pindex => n.linkParent pindex pindex) n
  let n := vResurrect.foldl (Node.resurrect P) n
  vDelete.foldl (fun n tx => (n.removeFromPool P tx).removeConflictsFromPool P tx) n

def reorganize (P : Params) (io : Io) (pindexNew : BlockPtr) : Step Node Unit := do
  let pindexBest ← Step.read Node.pindexBest
  let pfork ← Step.ofOption (BlockPtr.findFork pindexNew pindexBest)
  let vDisconnect := BlockPtr.downTo pfork pindexBest
  let vConnect := (BlockPtr.downTo pfork pindexNew).reverse
  let (vResurrect, vDelete) ← reorganizeDb P io pindexNew vDisconnect vConnect
  Step.modify (reorganizeMemory P vDisconnect vConnect vResurrect.flatten vDelete.flatten)

/-- `SetBestChainInner`: attach a block to the best chain. -/
def setBestChainInner (P : Params) (io : BlockIo) (b : Block) (pindexNew : BlockPtr) :
    Step Node Unit := do
  Step.onFail
    (do
      connectBlock P io b false pindexNew
      Step.modify fun n => n.writeHashBestChain (b.hash P))
    fun n => n.txnAbort.invalidChainFound pindexNew
  txnCommit io.txnCommit
  Step.modify fun n => n.linkParent pindexNew pindexNew
  -- here nothing is done about transactions of the pool that conflict with the block
  Step.modify fun n => b.vtx.foldl (Node.removeFromPool P) n

/-- One of the postponed reconnects. -/
def reconnect (P : Params) (io : Io) (pindex : BlockPtr) : Step Node Unit := do
  let io := io.block (BlockPtr.hash pindex)
  let b ← Step.ofOption (io.readFromDisk P pindex)
  Step.guard io.txnBegin
  Step.modify Node.txnBegin
  setBestChainInner P io b pindex

/-- The first block becomes the genesis block. -/
def setGenesis (io : Io) (hash : Uint256) (pindexNew : BlockPtr) : Step Node Unit := do
  Step.modify fun n => n.writeHashBestChain hash
  txnCommit io.txnCommit
  Step.modify fun n => { n with pindexGenesisBlock := pindexNew }

/-- A block that does not extend the best one. The errors of the postponed reconnects are
not fatal: the loop over them just ends. -/
def switchBranch (P : Params) (io : Io) (pindexNew pindexBest : BlockPtr) : Step Node Unit := do
  let (pindexIntermediate, secondary) :=
    BlockPtr.postpone (BlockPtr.nChainTrust pindexBest) pindexNew
  Step.onFail (reorganize P io pindexIntermediate) fun n =>
    n.txnAbort.invalidChainFound pindexNew
  Step.forEachWhile (reconnect P io) secondary

/-- The part of `SetBestChain` that connects the block. -/
def attach (P : Params) (io : Io) (b : Block) (pindexNew : BlockPtr) (n : Node) :
    Step Node Unit :=
  if n.pindexGenesisBlock.isEmpty ∧ b.hash P = P.hashGenesisBlock then
    setGenesis io (b.hash P) pindexNew
  else if b.header.hashPrevBlock = n.hashBestChain then
    setBestChainInner P (io.block (b.hash P)) b pindexNew
  else switchBranch P io pindexNew n.pindexBest

/-- `CBlock::SetBestChain` of block `b`, whose index entry is `pindexNew`. -/
def setBestChain (P : Params) (io : Io) (b : Block) (pindexNew : BlockPtr) : Step Node Unit := do
  Step.guard io.txnBegin
  Step.modify Node.txnBegin
  let n ← Step.read id
  attach P io b pindexNew n
  -- the block is the new best one also when a postponed reconnect failed
  Step.modify fun n => n.setBest (b.hash P) pindexNew

end Beancash
