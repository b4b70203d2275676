import Beancash.Transaction

namespace Beancash

structure Block where
  header : BlockHeader
  vtx : List Transaction
  vchBlockSig : List UInt8
deriving DecidableEq

/-- `CBigNum::SetCompact`: a sign and three bytes of mantissa, shifted to `nSize` bytes. -/
def setCompact (nCompact : UInt32) : ℤ :=
  let nSize := nCompact.toNat / 2 ^ 24
  let word := nCompact.toNat % 2 ^ 23
  let magnitude : ℕ := if nSize ≤ 3 then word / 256 ^ (3 - nSize) else word * 256 ^ (nSize - 3)
  if nCompact.toNat / 2 ^ 23 % 2 = 1 then -(magnitude : ℤ) else magnitude

/-- `CheckProofOfWork`; the target compared with is `getuint256` of the big number. -/
def checkProofOfWork (P : Params) (hash : Uint256) (nBits : UInt32) : Bool :=
  let bnTarget := setCompact nBits
  if bnTarget ≤ 0 || P.bnProofOfWorkLimit < bnTarget then false
  else hash ≤ BitVec.ofInt 256 bnTarget

/-- `CBlockIndex::GetBlockTrust` of a block with these bits. -/
def blockTrust (nBits : UInt32) : Uint256 :=
  let bnTarget := setCompact nBits
  if bnTarget ≤ 0 then 0 else BitVec.ofInt 256 (2 ^ 256 / (bnTarget + 1))

/-- The level above: neighbours are hashed together, a last odd one with itself. -/
def merkleLevel (P : Params) : List Uint256 → List Uint256
  | a :: b :: l => P.hashPair a b :: merkleLevel P l
  | [a] => [P.hashPair a a]
  | [] => []

/-- The levels above the first; each round leaves at most half the nodes and one, so
that as many rounds as there are leaves are enough. -/
def merkleLevels (P : Params) : ℕ → List Uint256 → List Uint256
  | fuel + 1, level =>
    if 1 < level.length then level ++ merkleLevels P fuel (merkleLevel P level) else level
  | 0, level => level

/-- `vMerkleTree`, the levels one after the other, the leaves first. -/
def vMerkleTree (P : Params) (vtx : List Transaction) : List Uint256 :=
  merkleLevels P vtx.length (vtx.map P.txHash)

def buildMerkleTree (P : Params) (vtx : List Transaction) : Uint256 :=
  (vMerkleTree P vtx).getLast?.getD 0

/-- The loop of `GetMerkleBranch`: the sibling of node `nIndex` on the level that
starts at `j` and has `nSize` nodes, and so on up. -/
def merkleBranchFrom (tree : List Uint256) : ℕ → ℕ → ℕ → ℕ → List Uint256
  | fuel + 1, j, nSize, nIndex =>
    if 1 < nSize then
      tree.getD (j + min (nIndex ^^^ 1) (nSize - 1)) 0 ::
        merkleBranchFrom tree fuel (j + nSize) ((nSize + 1) / 2) (nIndex / 2)
    else []
  | 0, _, _, _ => []

def getMerkleBranch (P : Params) (vtx : List Transaction) (nIndex : ℕ) : List Uint256 :=
  merkleBranchFrom (vMerkleTree P vtx) vtx.length 0 vtx.length nIndex

namespace Block

def hash (P : Params) (b : Block) : Uint256 := P.blockHash b.header

/-- `GetBlockTime` -/
def blockTime (b : Block) : ℤ := b.header.nTime.toNat

def serializeSize (b : Block) : ℕ :=
  80 + (getSizeOfCompactSize b.vtx.length + (b.vtx.map Transaction.serializeSize).sum) +
    (getSizeOfCompactSize b.vchBlockSig.length + b.vchBlockSig.length)

def isProofOfStake (b : Block) : Bool :=
  match b.vtx with
  | _ :: tx :: _ => tx.isBeanStake
  | _ => false

def isProofOfWork (b : Block) : Bool := !b.isProofOfStake

end Block

def futureDrift (nTime : ℤ) : ℤ := nTime + 10 * 60

def checkBeanStakeTimestamp (nTimeBlock nTimeTx : ℤ) : Bool := nTimeBlock == nTimeTx

def Transaction.getLegacySigOpCount (P : Params) (tx : Transaction) : UInt32 :=
  (tx.vin.map fun i => P.getSigOpCount i.scriptSig).sum +
    (tx.vout.map fun o => P.getSigOpCount o.scriptPubKey).sum

/-- First transaction must be beanbase, the rest must not be. -/
def checkBeanBases : List Transaction → Bool
  | tx :: rest => tx.isBeanBase && rest.all fun tx => !tx.isBeanBase
  | [] => false

/-- The part of `CheckBlock` for a proof-of-bean block: its beanbase output is
empty, and only its second transaction is a beansprout. `CheckBlockSignature` is
`signed`. -/
def checkProofOfStakeBlock (b : Block) (fCheckSig signed : Bool) : Bool :=
  match b.vtx with
  | beanbase :: beansprout :: rest =>
    (match beanbase.vout with
      | [o] => o.isEmpty
      | _ => false) &&
    beansprout.isBeanStake && (rest.all fun tx => !tx.isBeanStake) &&
    checkBeanStakeTimestamp b.blockTime beansprout.nTime.toNat && (!fCheckSig || signed)
  | _ => false

/-- `CBlock::CheckBlock` at the adjusted time `nAdjustedTime`. -/
def Block.checkBlock (P : Params) (nAdjustedTime : ℤ) (signed : Bool) (b : Block)
    (fCheckPOW fCheckMerkleRoot fCheckSig : Bool) : Bool :=
  !b.vtx.isEmpty && decide (b.vtx.length ≤ maxBlockSize) &&
  decide (b.serializeSize ≤ maxBlockSize) &&
  (!(fCheckPOW && b.isProofOfWork) || checkProofOfWork P (b.hash P) b.header.nBits) &&
  decide (b.blockTime ≤ futureDrift nAdjustedTime) &&
  checkBeanBases b.vtx &&
  (b.vtx.head?.all fun tx => b.blockTime ≤ futureDrift tx.nTime.toNat) &&
  (!b.isProofOfStake || checkProofOfStakeBlock b fCheckSig signed) &&
  (b.vtx.all fun tx => tx.checkTransaction && decide ((tx.nTime.toNat : ℤ) ≤ b.blockTime)) &&
  decide (b.vtx.map P.txHash).Nodup &&
  decide ((b.vtx.map (Transaction.getLegacySigOpCount P)).sum.toNat ≤ maxBlockSigops) &&
  (!fCheckMerkleRoot || b.header.hashMerkleRoot == buildMerkleTree P b.vtx)

/-- What a block that passed `CheckBlock` is like. -/
structure CheckedBlock (P : Params) (b : Block) : Prop where
  beanbases : checkBeanBases b.vtx = true
  beansprouts : b.isProofOfStake = true → ∃ signed, checkProofOfStakeBlock b false signed = true
  transactions : ∀ tx ∈ b.vtx, tx.checkTransaction = true
  txids : (b.vtx.map P.txHash).Nodup

theorem Block.checkedBlock {P : Params} {nAdjustedTime : ℤ} {signed : Bool} {b : Block}
    {fCheckPOW fCheckMerkleRoot fCheckSig : Bool}
    (h : b.checkBlock P nAdjustedTime signed fCheckPOW fCheckMerkleRoot fCheckSig = true) :
    CheckedBlock P b := by
  simp only [Block.checkBlock, Bool.and_eq_true, Bool.or_eq_true, Bool.not_eq_true',
    List.all_eq_true, decide_eq_true_eq] at h
  obtain ⟨⟨⟨⟨⟨⟨⟨_, hbase⟩, _⟩, hstake⟩, htx⟩, hids⟩, _⟩, _⟩ := h
  refine ⟨hbase, fun hs => ?_, fun tx htx' => (htx tx htx').1, hids⟩
  rcases hstake with hn | hs'
  · rw [hs] at hn; cases hn
  · refine ⟨signed, ?_⟩
    revert hs'
    unfold checkProofOfStakeBlock
    split
    · simp only [Bool.and_eq_true]
      rintro ⟨h, _⟩
      exact ⟨h, rfl⟩
    · exact id

end Beancash
