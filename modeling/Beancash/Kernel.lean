import Beancash.ConnectBlock
import Beancash.StakeModifier

namespace Beancash

/-- What the checks of a kernel read of the node. -/
structure KernelView where
  /-- `CTxDB::ReadTxIndex` -/
  readTxIndex : Ledger.Index Uint256 TxPos
  /-- `CTransaction::ReadFromDisk` -/
  readTx : TxPos → Option Transaction
  /-- `CBlock::ReadFromDisk` of the header only -/
  readHeader : FileNumber → UInt32 → Option BlockHeader
  mapBlockIndex : MapBlockIndex
  pnext : Uint256 → BlockPtr
  pindexBest : BlockPtr

def Node.kernelView (n : Node) (io : BlockIo) (mapBlockIndex : MapBlockIndex) : KernelView where
  readTxIndex := Beancash.readTxIndex n.txdb
  readTx := io.readTx
  readHeader := io.readHeader
  mapBlockIndex := mapBlockIndex
  pnext := n.pnext
  pindexBest := n.pindexBest

/-- The modifier of the block a pointer points to. -/
def BlockPtr.nStakeModifier : BlockPtr → UInt64
  | [] => 0
  | e :: _ => e.nStakeModifier

/-- A modifier with the height and the time of the block that generated it. -/
structure KernelModifier where
  nStakeModifier : UInt64
  nStakeModifierHeight : ℕ
  nStakeModifierTime : ℤ
deriving DecidableEq

/-- The loop of `GetKernelStakeModifier`; the links end at the best block, so that there are no
more passes than blocks below it. -/
def kernelModifierLoop (pnext : Uint256 → BlockPtr) (nTimeStop : ℤ) :
    ℕ → BlockPtr → ℕ → ℤ → Option KernelModifier
  | 0, pindex, nStakeModifierHeight, nStakeModifierTime =>
    if nStakeModifierTime < nTimeStop then none
    else some ⟨BlockPtr.nStakeModifier pindex, nStakeModifierHeight, nStakeModifierTime⟩
  | fuel + 1, pindex, nStakeModifierHeight, nStakeModifierTime =>
    if nStakeModifierTime < nTimeStop then
      match pnext (BlockPtr.hash pindex) with
      | [] => none
      | e :: p =>
        if e.fStakeModifier then kernelModifierLoop pnext nTimeStop fuel (e :: p) p.length e.blockTime
        else kernelModifierLoop pnext nTimeStop fuel (e :: p) nStakeModifierHeight nStakeModifierTime
    else some ⟨BlockPtr.nStakeModifier pindex, nStakeModifierHeight, nStakeModifierTime⟩

def getKernelStakeModifier (P : Params) (v : KernelView) (hashBlockFrom : Uint256) :
    Option KernelModifier :=
  (v.mapBlockIndex hashBlockFrom).bind fun pindexFrom =>
    kernelModifierLoop v.pnext (BlockPtr.blockTime pindexFrom + selectionInterval P)
      v.pindexBest.length pindexFrom (BlockPtr.nHeight pindexFrom) (BlockPtr.blockTime pindexFrom)

def getWeight (P : Params) (nIntervalBeginning nIntervalEnd : ℤ) : ℤ :=
  min (nIntervalEnd - nIntervalBeginning - P.nStakeMinAge.toNat) P.nStakeMaxAge.toNat

/-- `CBigNum::getuint256`, which drops the sign. -/
def getuint256 (bn : ℤ) : Uint256 := .ofNat 256 bn.natAbs

/-- What `CheckProofOfStake` fails with. -/
inductive StakeError where
  | notBeansprout
  /-- read txPrev failed -/
  | readTxPrev
  | verifySignature
  | readBlock
  /-- nTime violation -/
  | timeViolation
  | minAge
  /-- block not indexed, or the best block is reached first -/
  | stakeModifier
  /-- the hash does not meet the target -/
  | target
deriving DecidableEq

/-- The proof hash and the target it meets. -/
structure StakeProof where
  hashProofOfStake : Uint256
  targetProofOfStake : Uint256
deriving DecidableEq

/-- `bnBeanDayWeight` of an output of this value. -/
def beanDayWeight (P : Params) (nValueIn : Int64) (nTimeTxPrev nTimeTx : UInt32) : ℤ :=
  ((nValueIn.toInt * getWeight P nTimeTxPrev.toNat nTimeTx.toNat).tdiv bean.toInt).tdiv
    (24 * 60 * 60)

def checkStakeKernelHash (P : Params) (v : KernelView) (nBits : UInt32) (blockFrom : BlockHeader)
    (nTxPrevOffset : UInt32) (txPrev : Transaction) (o : TxOut) (prevout : OutPoint)
    (nTimeTx : UInt32) : Except StakeError StakeProof :=
  if nTimeTx < txPrev.nTime then .error .timeViolation
  else if nTimeTx < blockFrom.nTime + P.nStakeMinAge then .error .minAge
  else
    let bnTarget := beanDayWeight P o.nValue txPrev.nTime nTimeTx * setCompact nBits
    match getKernelStakeModifier P v (P.blockHash blockFrom) with
    | none => .error .stakeModifier
    | some modifier =>
      let hashProofOfStake := P.hashKernel modifier.nStakeModifier blockFrom.nTime nTxPrevOffset
        txPrev.nTime prevout.n nTimeTx
      if bnTarget < hashProofOfStake.toNat then .error .target
      else .ok ⟨hashProofOfStake, getuint256 bnTarget⟩

/-- `CTransaction::ReadFromDisk(txdb, prevout, txindexRet)`: the transaction with the output and
where it is. -/
def KernelView.readPrevout (v : KernelView) (prevout : OutPoint) :
    Option (TxPos × Transaction × TxOut) := do
  let txindex ← v.readTxIndex prevout.hash
  let pos ← txindex.pos
  let txPrev ← v.readTx pos
  let o ← txPrev.vout[prevout.n.toNat]?
  return (pos, txPrev, o)

def checkProofOfStake (P : Params) (v : KernelView) (tx : Transaction) (nBits : UInt32) :
    Except StakeError StakeProof :=
  if !tx.isBeanStake then .error .notBeansprout
  else
    -- a beansprout has an input
    match tx.prevouts with
    | [] => .error .notBeansprout
    | prevout :: _ =>
      match v.readPrevout prevout with
      | none => .error .readTxPrev
      | some (pos, txPrev, o) =>
        if !P.verifySignature txPrev tx 0 then .error .verifySignature
        else
          match v.readHeader pos.nFile pos.nBlockPos with
          | none => .error .readBlock
          | some block =>
            checkStakeKernelHash P v nBits block (pos.nTxPos - pos.nBlockPos) txPrev o prevout
              tx.nTime

/-- The part of `AcceptBlock` that checks the beansprout of a block of proof of bean. -/
def acceptProofOfStake (P : Params) (v : KernelView) (b : Block) : Except StakeError StakeProof :=
  match b.vtx with
  | _ :: tx :: _ => checkProofOfStake P v tx b.header.nBits
  | _ => .error .notBeansprout

end Beancash
