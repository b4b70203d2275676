import Beancash.AcceptBlock
import Beancash.TargetBound
import Mathlib.Data.List.AList

namespace Beancash

open Fallible

/-- `GetProofOfStake` -/
def Block.proofOfStake (b : Block) : OutPoint × UInt32 :=
  match b.isProofOfStake, b.vtx with
  | true, _ :: tx :: _ => (tx.prevouts.headD ⟨0, 0xffffffff⟩, tx.nTime)
  | _, _ => (⟨0, 0xffffffff⟩, 0)

/-- `mapOrphanBlocks`, `mapOrphanBlocksByPrev` and `setStakeSeenOrphan`. The entries of the multimap
are in the order in which they were inserted. -/
structure OrphanBlocks where
  mapOrphanBlocks : AList fun _ : Uint256 => Block
  mapOrphanBlocksByPrev : List (Uint256 × Block)
  setStakeSeenOrphan : Finset (OutPoint × UInt32)

namespace OrphanBlocks

def empty : OrphanBlocks := ⟨∅, [], ∅⟩

/-- `WantedByOrphan`: back to the first block of the chain of orphans. -/
def wantedByOrphan (orphans : OrphanBlocks) : ℕ → Block → Uint256
  | 0, b => b.header.hashPrevBlock
  | fuel + 1, b =>
    match orphans.mapOrphanBlocks.lookup b.header.hashPrevBlock with
    | some prev => wantedByOrphan orphans fuel prev
    | none => b.header.hashPrevBlock

/-- An orphan waits for the block. -/
def hasChild (orphans : OrphanBlocks) (hash : Uint256) : Bool :=
  orphans.mapOrphanBlocksByPrev.any fun e => e.1 == hash

/-- The orphans that wait for a block. -/
def children (orphans : OrphanBlocks) (hashPrev : Uint256) : List Block :=
  (orphans.mapOrphanBlocksByPrev.filter fun e => e.1 = hashPrev).map Prod.snd

/-- The block is held back. -/
def insert (P : Params) (orphans : OrphanBlocks) (b : Block) : OrphanBlocks where
  mapOrphanBlocks := orphans.mapOrphanBlocks.insert (b.hash P) b
  mapOrphanBlocksByPrev := orphans.mapOrphanBlocksByPrev ++ [(b.header.hashPrevBlock, b)]
  setStakeSeenOrphan :=
    if b.isProofOfStake then Insert.insert b.proofOfStake orphans.setStakeSeenOrphan
    else orphans.setStakeSeenOrphan

end OrphanBlocks

structure BlockNode where
  indexed : IndexedNode
  orphans : OrphanBlocks

def BlockNode.wantedByPendingSyncCheckpoint (n : BlockNode) (hashBlock : Uint256) : Bool :=
  let hashPendingCheckpoint := n.indexed.hashPendingCheckpoint
  hashPendingCheckpoint != 0 && (hashBlock == hashPendingCheckpoint ||
    (n.orphans.mapOrphanBlocks.lookup hashPendingCheckpoint).any fun b =>
      hashBlock == n.orphans.wantedByOrphan n.orphans.mapOrphanBlocks.entries.length b)

/-- What the world outside answers during one call of `ProcessBlock`. -/
structure ArrivalIo where
  nAdjustedTime : ℤ
  /-- the verdict of `CheckBlockSignature` -/
  signed : Bool
  /-- each call of `AcceptBlock` -/
  accept : ℕ → AcceptIo

/-- An orphan for which `AcceptBlock` was called: whether it was accepted, and whether it is in the
index now. -/
structure Attempt where
  block : Block
  fAccepted : Bool
  fIndexed : Bool

/-- The loop over the orphans, with what it has tried. -/
structure Release where
  node : BlockNode
  nCalls : ℕ
  /-- the part of `vWorkQueue` that is still to come -/
  vWorkQueue : List Uint256
  tried : List Attempt
  /-- an exception has left the loop -/
  fThrown : Bool

section Release

variable (P : Params) (H : SelectionHash) (mode : CheckpointsMode) (io : ArrivalIo)

/-- An orphan for which `AcceptBlock` returns. -/
def tryOrphanBlock (r : Release) (orphan : Block) : Release :=
  let hash := orphan.hash P
  let accepted := (acceptBlock P H mode (io.accept r.nCalls) orphan).run r.node.indexed
  let orphans := r.node.orphans
  { r with
    node :=
      { indexed := accepted.2
        orphans :=
          { orphans with
            mapOrphanBlocks := orphans.mapOrphanBlocks.erase hash
            setStakeSeenOrphan := orphans.setStakeSeenOrphan.erase orphan.proofOfStake } }
    nCalls := r.nCalls + 1
    vWorkQueue := if accepted.1.isSome then r.vWorkQueue ++ [hash] else r.vWorkQueue
    tried := r.tried ++
      [⟨orphan, accepted.1.isSome, (accepted.2.mapBlockIndex hash).isSome⟩] }

/-- One orphan that was waiting. -/
def releaseOrphan (r : Release) (orphan : Block) : Release :=
  if r.fThrown then r
  else if acceptBlockThrows P H mode (io.accept r.nCalls) orphan r.node.indexed then
    { r with fThrown := true }
  else tryOrphanBlock P H mode io r orphan

/-- `mapOrphanBlocksByPrev.erase(hashPrev)` -/
def Release.erasePrev (r : Release) (hashPrev : Uint256) : Release :=
  let orphans := r.node.orphans
  { r with
    node := { r.node with
      orphans := { orphans with
        mapOrphanBlocksByPrev :=
          orphans.mapOrphanBlocksByPrev.filter fun e => e.1 ≠ hashPrev } } }

/-- Process the orphans that depended on what is in the queue, and those that depended on them. -/
def releaseOrphans : ℕ → Release → Release
  | 0, r => r
  | fuel + 1, r =>
    match r.vWorkQueue with
    | [] => r
    | hashPrev :: vWorkQueue =>
      let r' := (r.node.orphans.children hashPrev).foldl (releaseOrphan P H mode io)
        { r with vWorkQueue := vWorkQueue }
      if r'.fThrown then r' else releaseOrphans fuel (r'.erasePrev hashPrev)

/-- The loop, once a block has been accepted. Every orphan is released at most once. -/
def releaseChildren (n : BlockNode) (hash : Uint256) : Release :=
  releaseOrphans P H mode io (n.orphans.mapOrphanBlocksByPrev.length + 1)
    ⟨n, 1, [hash], [], false⟩

end Release

/-- The checks of `ProcessBlock`. -/
def processChecks (P : Params) (io : ArrivalIo) (n : BlockNode) (b : Block) : Bool :=
  let hash := b.hash P
  let s := n.indexed
  (s.mapBlockIndex hash).isNone &&
  (n.orphans.mapOrphanBlocks.lookup hash).isNone &&
  -- duplicate stakes are allowed only when there is an orphan child block
  !(b.isProofOfStake && decide (b.proofOfStake ∈ s.setStakeSeen) && !n.orphans.hasChild hash &&
    !n.wantedByPendingSyncCheckpoint hash) &&
  b.checkBlock P io.nAdjustedTime io.signed true true true &&
  (s.mapBlockIndex s.hashSyncCheckpoint).all fun pcheckpoint =>
    b.header.hashPrevBlock == s.node.hashBestChain || n.wantedByPendingSyncCheckpoint hash ||
      !tooLittleProof P pcheckpoint b

def processBlock (P : Params) (H : SelectionHash) (mode : CheckpointsMode) (io : ArrivalIo)
    (b : Block) : Step BlockNode Unit := do
  let n ← Step.read id
  Step.guard (processChecks P io n b)
  let hash := b.hash P
  if (n.indexed.mapBlockIndex b.header.hashPrevBlock).isNone then
    Step.guard (!(b.isProofOfStake && decide (b.proofOfStake ∈ n.orphans.setStakeSeenOrphan) &&
      !n.orphans.hasChild hash && !n.wantedByPendingSyncCheckpoint hash))
    Step.modify fun n => { n with orphans := n.orphans.insert P b }
  else
    let accepted := (acceptBlock P H mode (io.accept 0) b).run n.indexed
    Step.modify fun n => { n with indexed := accepted.2 }
    Step.guard accepted.1.isSome
    let n ← Step.read id
    let released := releaseChildren P H mode io n hash
    Step.modify fun _ => released.node
    Step.guard (!released.fThrown)

end Beancash
