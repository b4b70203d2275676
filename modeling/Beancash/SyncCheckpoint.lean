import Beancash.IndexedNode

namespace Beancash

open Fallible

/-- `mapCheckpoints` of the main network; the one of the test network is empty. -/
def mapCheckpoints : List (ℕ × Uint256) :=
  [(11111, 0xdfa8f0f85cbffeb3edd67a1d1ab94c6407e33d1b4b7900bf7ced592d9cc3898a),
   (322748, 0x191e1f49ceead4324ed96982c3bb3dd11acfb18c81cd0d7a4ea3ab4ffb733858),
   (1666369, 0xf8c5f5a3107b0c2224d613f5de09949e1d6afec3a63b05a34ef663a2701800d6),
   (2000000, 0x569dbf38820a17b59c034ef22a5f1efe46ef015ab3aefcb17c399178bda0ae8a),
   (3000000, 0x0e859b4e468b69c0caa232f71eca101b506630dbb89942397e153310584bc575)]

/-- `mapCheckpoints.rbegin()->second` -/
def lastHardened : Uint256 := (mapCheckpoints.getLast (List.cons_ne_nil _ _)).2

def checkHardened (P : Params) (nHeight : ℕ) (hash : Uint256) : Bool :=
  ((if P.testNet then [] else mapCheckpoints).lookup nHeight).all fun checkpoint =>
    hash == checkpoint

/-- What the world outside answers while a checkpoint is processed. -/
structure CheckpointIo where
  chain : Io
  /-- the commit of the checkpoint itself -/
  txnCommit : Bool

/-- Go back from a block to one at a height; there is none on the way if a parent is missing. -/
def BlockPtr.traceBack (nHeight : ℕ) : BlockPtr → Option BlockPtr
  | [] => none
  | e :: p => if nHeight < p.length then traceBack nHeight p else some (e :: p)

namespace IndexedNode

/-- `CBlockIndex::IsInMainChain` -/
def isInMainChain (s : IndexedNode) (pindex : BlockPtr) : Bool :=
  !(s.node.pnext (BlockPtr.hash pindex)).isEmpty || pindex == s.node.pindexBest

/-- `CheckSync`. The sync-checkpoint should always be an accepted block. -/
def checkSync (P : Params) (s : IndexedNode) (hashBlock : Uint256) (pindexPrev : BlockPtr) : Bool :=
  if P.testNet then true
  else
    let nHeight := BlockPtr.nHeight pindexPrev + 1
    match s.mapBlockIndex s.hashSyncCheckpoint with
    | none => false
    | some pindexSync =>
      if BlockPtr.nHeight pindexSync < nHeight then
        match BlockPtr.traceBack (BlockPtr.nHeight pindexSync) pindexPrev with
        | none => false
        | some pindex => !(decide (BlockPtr.nHeight pindex < BlockPtr.nHeight pindexSync) ||
            BlockPtr.hash pindex != s.hashSyncCheckpoint)
      else if nHeight = BlockPtr.nHeight pindexSync then hashBlock == s.hashSyncCheckpoint
      else (s.mapBlockIndex hashBlock).isSome

end IndexedNode

/-- The checkpoint conflicts with the current one. -/
def setInvalidCheckpoint (hashCheckpoint : Uint256) : Step IndexedNode Unit :=
  Step.modify fun s => { s with hashInvalidCheckpoint := hashCheckpoint }

/-- `ValidateSyncCheckpoint`: only a descendant of the current sync-checkpoint is allowed. -/
def validateSyncCheckpoint (hashCheckpoint : Uint256) : Step IndexedNode Unit := do
  let s ← Step.read id
  let pindexSyncCheckpoint ← Step.ofOption (s.mapBlockIndex s.hashSyncCheckpoint)
  let pindexCheckpointRecv ← Step.ofOption (s.mapBlockIndex hashCheckpoint)
  if BlockPtr.nHeight pindexCheckpointRecv ≤ BlockPtr.nHeight pindexSyncCheckpoint then
    let pindex ← Step.ofOption
      (BlockPtr.traceBack (BlockPtr.nHeight pindexCheckpointRecv) pindexSyncCheckpoint)
    if BlockPtr.hash pindex = hashCheckpoint then pure () else setInvalidCheckpoint hashCheckpoint
    -- an older checkpoint is ignored
    Step.fail
  else
    let pindex ← Step.ofOption
      (BlockPtr.traceBack (BlockPtr.nHeight pindexSyncCheckpoint) pindexCheckpointRecv)
    if BlockPtr.hash pindex = s.hashSyncCheckpoint then pure ()
    else
      setInvalidCheckpoint hashCheckpoint
      Step.fail

/-- `WriteSyncCheckpoint`, which begins a batch without asking whether that succeeded. -/
def writeSyncCheckpoint (ok : Bool) (hashCheckpoint : Uint256) : Step IndexedNode Unit := do
  IndexedNode.onNode (Step.modify Node.txnBegin)
  IndexedNode.onNode (Step.modify fun n =>
    { n with txdb := n.txdb.write .hashSyncCheckpoint (.hash hashCheckpoint) })
  IndexedNode.onNode (txnCommit ok)
  Step.modify fun s => { s with hashSyncCheckpoint := hashCheckpoint }

/-- The branch of a checkpoint becomes the best chain. -/
def connectCheckpoint (P : Params) (io : Io) (pindexCheckpoint : BlockPtr) :
    Step IndexedNode Unit := do
  let fMain ← Step.read fun s => s.isInMainChain pindexCheckpoint
  if fMain then pure ()
  else
    let b ← Step.ofOption
      ((io.block (BlockPtr.hash pindexCheckpoint)).readFromDisk P pindexCheckpoint)
    Step.onFail (IndexedNode.onNode (setBestChain P io b pindexCheckpoint))
      fun s => { s with hashInvalidCheckpoint := BlockPtr.hash pindexCheckpoint }

/-- What `AcceptPendingSyncCheckpoint` and `ProcessSyncCheckpoint` do with a checkpoint that is
valid. -/
def acceptCheckpoint (P : Params) (io : CheckpointIo) (hashCheckpoint : Uint256)
    (pindexCheckpoint : BlockPtr) : Step IndexedNode Unit := do
  connectCheckpoint P io.chain pindexCheckpoint
  writeSyncCheckpoint io.txnCommit hashCheckpoint
  Step.modify fun s => { s with hashPendingCheckpoint := 0 }

def acceptPendingSyncCheckpoint (P : Params) (io : CheckpointIo) : Step IndexedNode Unit := do
  let s ← Step.read id
  Step.guard (s.hashPendingCheckpoint != 0)
  let pindexCheckpoint ← Step.ofOption (s.mapBlockIndex s.hashPendingCheckpoint)
  Step.onFail (validateSyncCheckpoint s.hashPendingCheckpoint)
    fun s => { s with hashPendingCheckpoint := 0 }
  acceptCheckpoint P io s.hashPendingCheckpoint pindexCheckpoint

structure SyncCheckpoint where
  hashCheckpoint : Uint256
  vchMsg : List UInt8
  vchSig : List UInt8

/-- `CheckSignature` returns an error before it has looked at the message. -/
def SyncCheckpoint.checkSignature (_ : SyncCheckpoint) : Bool := false

/-- `CSyncCheckpoint::ProcessSyncCheckpoint` -/
def processSyncCheckpoint (P : Params) (io : CheckpointIo) (checkpoint : SyncCheckpoint) :
    Step IndexedNode Unit := do
  Step.guard checkpoint.checkSignature
  let hashCheckpoint := checkpoint.hashCheckpoint
  let s ← Step.read id
  match s.mapBlockIndex hashCheckpoint with
  | none =>
    -- its chain has not arrived
    Step.modify fun s => { s with hashPendingCheckpoint := hashCheckpoint }
    Step.fail
  | some pindexCheckpoint =>
    validateSyncCheckpoint hashCheckpoint
    acceptCheckpoint P io hashCheckpoint pindexCheckpoint

/-- `ResetSyncCheckpoint`, back to a hardened checkpoint. The last one waits for its block. -/
def resetSyncCheckpoint (P : Params) (io : CheckpointIo) : Step IndexedNode Unit := do
  let s ← Step.read id
  match s.mapBlockIndex lastHardened with
  | some pindex =>
    if s.isInMainChain pindex then pure ()
    else
      let b ← Step.ofOption ((io.chain.block (BlockPtr.hash pindex)).readFromDisk P pindex)
      IndexedNode.onNode (setBestChain P io.chain b pindex)
  | none => Step.modify fun s => { s with hashPendingCheckpoint := lastHardened }
  let s ← Step.read id
  let hashes := mapCheckpoints.reverse.map Prod.snd
  writeSyncCheckpoint io.txnCommit
    ((hashes.find? fun hash => (s.mapBlockIndex hash).any s.isInMainChain).getD P.hashGenesisBlock)

end Beancash
