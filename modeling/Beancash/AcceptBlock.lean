import Beancash.BlockTemplate
import Beancash.Kernel
import Beancash.Retarget
import Beancash.SyncCheckpoint

namespace Beancash

open Fallible

/-- `CPMode` -/
inductive CheckpointsMode where
  | strict
  | advisory
  | permissive
deriving DecidableEq

/-- What the world outside answers during one call of `AcceptBlock`. -/
structure AcceptIo where
  checkDiskSpace : Bool
  writeToDisk : Option (FileNumber × UInt32)
  index : IndexIo
  pending : CheckpointIo

/-- The proof hash of a block; that of a proof of work was checked in `CheckBlock`. -/
def acceptHashProof (P : Params) (v : KernelView) (b : Block) : Option Uint256 :=
  if b.isProofOfStake then (acceptProofOfStake P v b).toOption.map StakeProof.hashProofOfStake
  else some (b.hash P)

/-- `AcceptBlock` up to its first write: the proof hash. -/
def acceptBlockChecks (P : Params) (mode : CheckpointsMode) (io : BlockIo) (s : IndexedNode)
    (b : Block) : Option Uint256 := do
  guard (b.header.nVersion ≤ 1)
  guard (s.mapBlockIndex (b.hash P)).isNone
  let pindexPrev ← s.mapBlockIndex b.header.hashPrevBlock
  let nHeight := BlockPtr.nHeight pindexPrev + 1
  guard (!(b.isProofOfWork && decide (lastPowBlock < nHeight)))
  guard (b.header.nBits = getNextTargetRequired P pindexPrev b.isProofOfStake)
  guard (!(decide (b.blockTime ≤ BlockPtr.getPastTimeLimit pindexPrev) ||
    decide (futureDrift b.blockTime < BlockPtr.blockTime pindexPrev)))
  guard (b.vtx.all fun tx => tx.isFinal s.node.nBestHeight io.adjustedTime nHeight b.blockTime)
  guard (checkHardened P nHeight (b.hash P))
  let hashProof ← acceptHashProof P (s.node.kernelView io s.mapBlockIndex) b
  guard (!(mode == .strict && !s.checkSync P (b.hash P) pindexPrev))
  guard (beanbaseHeightMatches b nHeight)
  return hashProof

/-- `AcceptBlock` but for the pending checkpoint at its end. -/
def storeBlock (P : Params) (H : SelectionHash) (mode : CheckpointsMode) (io : AcceptIo)
    (b : Block) : Step IndexedNode Unit := do
  let s ← Step.read id
  let hashProof ← Step.ofOption
    (acceptBlockChecks P mode (io.index.chain.block (b.hash P)) s b)
  Step.guard io.checkDiskSpace
  let pos ← Step.ofOption io.writeToDisk
  addToBlockIndex P H io.index pos.1 pos.2 b hashProof

/-- The exception of `ComputeNextStakeModifier` leaves `AcceptBlock`, when the block is on the disk
and nothing in memory has changed. -/
def acceptBlockThrows (P : Params) (H : SelectionHash) (mode : CheckpointsMode) (io : AcceptIo)
    (b : Block) (s : IndexedNode) : Bool :=
  (acceptBlockChecks P mode (io.index.chain.block (b.hash P)) s b).isSome && io.checkDiskSpace &&
    io.writeToDisk.isSome &&
    match computeNextStakeModifier P H s.mapBlockIndex (s.pprev b) with
    | .error .runtimeError => true
    | _ => false

/-- `CBlock::AcceptBlock` -/
def acceptBlock (P : Params) (H : SelectionHash) (mode : CheckpointsMode) (io : AcceptIo)
    (b : Block) : Step IndexedNode Unit := do
  storeBlock P H mode io b
  let _ ← (acceptPendingSyncCheckpoint P io.pending).attempt
  pure ()

end Beancash
