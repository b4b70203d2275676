import Beancash.BestChain
import Beancash.StakeModifier

namespace Beancash

open Fallible

/-- The node with its index and what is kept beside it. -/
structure IndexedNode where
  node : Node
  mapBlockIndex : MapBlockIndex
  setStakeSeen : Finset (OutPoint × UInt32)
  hashSyncCheckpoint : Uint256
  hashPendingCheckpoint : Uint256
  hashInvalidCheckpoint : Uint256

/-- What the world outside answers during one call of `AddToBlockIndex`. -/
structure IndexIo where
  txnBegin : Bool
  /-- the commit of the index entry -/
  txnCommit : Bool
  chain : Io

/-- `GetStakeEntropyBit`: the last bit of the hash. -/
def Block.stakeEntropyBit (P : Params) (b : Block) : Bool := (b.hash P).getLsbD 0

/-- `CBlockIndex(nFile, nBlockPos, block)` with its flags, its proof and its stake modifier. -/
def Block.toIndex (P : Params) (b : Block) (nFile : FileNumber) (nBlockPos : UInt32)
    (hashProof : Uint256) (nStakeModifier : UInt64) (fGeneratedStakeModifier : Bool) :
    BlockIndex where
  phashBlock := b.hash P
  nFile := nFile
  nBlockPos := nBlockPos
  header := b.header
  fProofOfStake := b.isProofOfStake
  fStakeEntropy := b.stakeEntropyBit P
  fStakeModifier := fGeneratedStakeModifier
  nStakeModifier := nStakeModifier
  prevoutStake :=
    match b.isProofOfStake, b.vtx with
    | true, _ :: tx :: _ => tx.prevouts.headD ⟨0, 0xffffffff⟩
    | _, _ => ⟨0, 0xffffffff⟩
  nStakeTime :=
    match b.isProofOfStake, b.vtx with
    | true, _ :: tx :: _ => tx.nTime
    | _, _ => 0
  hashProof := hashProof

namespace IndexedNode

/-- A step that concerns the node only. -/
def onNode {α : Type} (x : Step Node α) : Step IndexedNode α := fun s =>
  ((x.run s.node).1, { s with node := (x.run s.node).2 })

@[simp] theorem run_onNode {α : Type} (x : Step Node α) (s : IndexedNode) :
    (onNode x).run s = ((x.run s.node).1, { s with node := (x.run s.node).2 }) := rfl

/-- The parent of a block, if it is indexed. -/
def pprev (s : IndexedNode) (b : Block) : BlockPtr :=
  (s.mapBlockIndex b.header.hashPrevBlock).getD []

/-- The pointer to the new entry of a block. -/
def newBlockIndex (P : Params) (H : SelectionHash) (s : IndexedNode) (nFile : FileNumber)
    (nBlockPos : UInt32) (b : Block) (hashProof : Uint256) : Option BlockPtr :=
  (computeNextStakeModifier P H s.mapBlockIndex (s.pprev b)).toOption.map fun modifier =>
    b.toIndex P nFile nBlockPos hashProof modifier.1 modifier.2 :: s.pprev b

/-- The entry gets into `mapBlockIndex` and `setStakeSeen`; nothing is linked to it yet. -/
def insertIndex (s : IndexedNode) : BlockPtr → IndexedNode
  | [] => s
  | e :: p => { s with
      node := { s.node with
        pnext := Function.update s.node.pnext e.phashBlock []
        nMint := Function.update s.node.nMint e.phashBlock 0
        nMoneySupply := Function.update s.node.nMoneySupply e.phashBlock 0 }
      mapBlockIndex := Function.update s.mapBlockIndex e.phashBlock (some (e :: p))
      setStakeSeen :=
        if e.fProofOfStake then insert (e.prevoutStake, e.nStakeTime) s.setStakeSeen
        else s.setStakeSeen }

end IndexedNode

/-- Write the new entry in a batch of its own. -/
def writeIndexEntry (ok : Bool) (pindexNew : BlockPtr) : Step Node Unit := do
  Step.modify Node.txnBegin
  Step.modify fun n => n.writeBlockIndex pindexNew (BlockPtr.hash (n.pnext (BlockPtr.hash pindexNew)))
  txnCommit ok

/-- `SetBestChain`, if the branch of the block has more trust than the best one. -/
def newBest (P : Params) (io : Io) (b : Block) (pindexNew : BlockPtr) : Step Node Unit := do
  let nBestChainTrust ← Step.read Node.nBestChainTrust
  if nBestChainTrust < BlockPtr.nChainTrust pindexNew then setBestChain P io b pindexNew
  else pure ()

/-- `CBlock::AddToBlockIndex` -/
def addToBlockIndex (P : Params) (H : SelectionHash) (io : IndexIo) (nFile : FileNumber)
    (nBlockPos : UInt32) (b : Block) (hashProof : Uint256) : Step IndexedNode Unit := do
  let s ← Step.read id
  Step.guard (s.mapBlockIndex (b.hash P)).isNone
  let pindexNew ← Step.ofOption (s.newBlockIndex P H nFile nBlockPos b hashProof)
  Step.modify fun s => s.insertIndex pindexNew
  Step.guard io.txnBegin
  IndexedNode.onNode (writeIndexEntry io.txnCommit pindexNew)
  IndexedNode.onNode (newBest P io.chain b pindexNew)

end Beancash
