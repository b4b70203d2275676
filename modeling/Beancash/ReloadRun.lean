import Beancash.CheckpointRun
import Beancash.ReloadSpec

namespace Beancash

open Fallible Relation

variable {P : Params} {H : SelectionHash} {C : ChecksumHash} {files : Files}
  {tree : BlockTree P files} {s s' : IndexedNode}

/-- A call that changes the index. -/
inductive IndexOp where
  | addToBlockIndex (io : IndexIo) (nFile : FileNumber) (nBlockPos : UInt32) (b : Block)
      (hashProof : Uint256)
  | setBestChain (io : Io) (b : Block) (pindexNew : BlockPtr)

/-- A block that is accepted on top of an indexed one, and is on the disk. -/
structure Adds (P : Params) (files : Files) (s : IndexedNode) (nFile : FileNumber)
    (nBlockPos : UInt32) (b : Block) : Prop where
  parent : ∃ p, s.mapBlockIndex b.header.hashPrevBlock = some p ∧ p.length < 2 ^ 31 ∧
    Accepted P b p
  hash_ne_zero : b.hash P ≠ 0
  stored : files.block nFile nBlockPos = some b

namespace IndexOp

def run (P : Params) (H : SelectionHash) (s : IndexedNode) : IndexOp → Option Unit × IndexedNode
  | addToBlockIndex io nFile nBlockPos b hashProof =>
    (Beancash.addToBlockIndex P H io nFile nBlockPos b hashProof).run s
  | setBestChain io b pindexNew =>
    (IndexedNode.onNode (Beancash.setBestChain P io b pindexNew)).run s

/-- What the operation is called with: an acceptable block, or an indexed one with its entry. -/
def Called (P : Params) (H : SelectionHash) (files : Files) (s : IndexedNode) : IndexOp → Prop
  | addToBlockIndex io nFile nBlockPos b hashProof => Adds P files s nFile nBlockPos b ∧
      io.chain.ReadsIndexed files
        ((Beancash.addToBlockIndex P H io nFile nBlockPos b hashProof).run s).2.mapBlockIndex
  | setBestChain io b pindexNew => s.mapBlockIndex (b.hash P) = some pindexNew ∧
      (∃ e p, pindexNew = e :: p ∧ files.blockOf e = some b) ∧ io.ReadsIndexed files s.mapBlockIndex

/-- Every postponed block is reconnected, and a new block passes the stake-modifier
checkpoints. -/
def Smooth (P : Params) (H : SelectionHash) (C : ChecksumHash) (files : Files) (s : IndexedNode) :
    IndexOp → Prop
  | addToBlockIndex io nFile nBlockPos b hashProof => ∀ e p,
      s.newBlockIndex P H nFile nBlockPos b hashProof = some (e :: p) →
      checkStakeModifierCheckpoints P p.length
        (stakeModifierChecksum C (BlockPtr.nStakeModifierChecksum C p) e) = true ∧
      (s.node.nBestChainTrust < BlockPtr.nChainTrust (e :: p) →
        PostponedReconnect P files io.chain s.node (e :: p))
  | setBestChain io _ pindexNew => PostponedReconnect P files io s.node pindexNew

end IndexOp

/-- An operation that returns true leads from one state to the next. -/
def IndexStep (P : Params) (H : SelectionHash) (files : Files) (s s' : IndexedNode) : Prop :=
  ∃ op : IndexOp, op.Called P H files s ∧ op.run P H s = (some (), s')

def SmoothIndexStep (P : Params) (H : SelectionHash) (C : ChecksumHash) (files : Files)
    (s s' : IndexedNode) : Prop :=
  ∃ op : IndexOp, op.Called P H files s ∧ op.Smooth P H C files s ∧
    op.run P H s = (some (), s')

/-- The node after a first start, in which the genesis block was added. -/
structure FromGenesis (P : Params) (H : SelectionHash) (C : ChecksumHash) (files : Files)
    (s : IndexedNode) (wallets : List Wallet) (io : IndexIo) (ok : Bool) (nFile : FileNumber)
    (nBlockPos : UInt32) (b : Block) : Prop where
  hash : b.hash P = P.hashGenesisBlock
  hash_ne_zero : b.hash P ≠ 0
  hashPrevBlock : b.header.hashPrevBlock = 0
  stored : files.block nFile nBlockPos = some b
  trust : 0 < blockTrust b.header.nBits
  checkpoint : checkStakeModifierCheckpoints P 0 (stakeModifierChecksum C none
    (b.toIndex P nFile nBlockPos P.hashGenesisBlock 0 true)) = true
  reads : io.chain.ReadsIndexed files s.mapBlockIndex
  run : (initGenesis P H io ok nFile nBlockPos b).run (.empty wallets) = (some (), s)

theorem loadable_toIndex {nFile : FileNumber} {nBlockPos : UInt32} {b : Block}
    {hashProof : Uint256} {nStakeModifier : UInt64} {fGenerated : Bool} {p : BlockPtr}
    (h : checkStakeModifierCheckpoints P p.length (stakeModifierChecksum C
      (BlockPtr.nStakeModifierChecksum C p)
      (b.toIndex P nFile nBlockPos hashProof nStakeModifier fGenerated)) = true) :
    Loadable P C (b.toIndex P nFile nBlockPos hashProof nStakeModifier fGenerated) p where
  unstaked hstake := by
    have hwork : b.isProofOfStake = false := hstake
    unfold Block.toIndex
    simp only [hwork, and_self]
  checkpoint := h

/-- The index and what a restart finds of it are the same. -/
def Restartable (C : ChecksumHash) (P : Params) (files : Files) (s : IndexedNode) : Prop :=
  ∃ tree : BlockTree P files, Durable C tree (some (.hash s.hashSyncCheckpoint)) s ∧
    s.node.pindexBest ≠ []

theorem Adds.joins {nFile : FileNumber} {nBlockPos : UInt32} {b : Block}
    (h : Adds P files s nFile nBlockPos b) (hmap : tree.IndexedBy s.mapBlockIndex)
    (hfresh : s.mapBlockIndex (b.hash P) = none) (hashProof : Uint256) (modifier : UInt64 × Bool) :
    tree.Joins (b.toIndex P nFile nBlockPos hashProof modifier.1 modifier.2) (s.pprev b) b := by
  obtain ⟨p, hprev, hlen, haccepted⟩ := h.parent
  have hpprev : s.pprev b = p := by
    rw [IndexedNode.pprev, hprev]
    rfl
  obtain ⟨hmem, hhash⟩ := (hmap _ p).mp hprev
  rw [hpprev]
  exact {
    parent := hmem
    fresh := hmap.eq_none hfresh
    hash_ne_zero := h.hash_ne_zero
    nHeight_lt := hlen
    stored := h.stored
    hash := rfl
    header := rfl
    hashPrev := hhash.symm
    accepted := haccepted }

theorem mapBlockIndex_addToBlockIndex {io : IndexIo} {nFile : FileNumber} {nBlockPos : UInt32}
    {b : Block} {hashProof : Uint256} {r : Option Unit}
    (hrun : (Beancash.addToBlockIndex P H io nFile nBlockPos b hashProof).run s = (r, s'))
    {hash : Uint256} (hne : hash ≠ b.hash P) : s'.mapBlockIndex hash = s.mapBlockIndex hash := by
  rcases addToBlockIndex_cases hrun with ⟨_, rfl⟩ | ⟨pindexNew, n', _, hnew, rfl, _⟩
  · rfl
  · obtain ⟨modifier, _, rfl⟩ := newBlockIndex_eq_some hnew
    exact Function.update_of_ne hne _ _

theorem Durable.adds {sync : Option DbValue} (h : Durable C tree sync s) {io : IndexIo}
    {nFile : FileNumber} {nBlockPos : UInt32} {b : Block} {hashProof : Uint256}
    (hadds : Adds P files s nFile nBlockPos b)
    (hcheck : ∀ e p, s.newBlockIndex P H nFile nBlockPos b hashProof = some (e :: p) →
      checkStakeModifierCheckpoints P p.length
        (stakeModifierChecksum C (BlockPtr.nStakeModifierChecksum C p) e) = true)
    (hrun : (Beancash.addToBlockIndex P H io nFile nBlockPos b hashProof).run s = (some (), s')) :
    ∃ (tree' : BlockTree P files) (e : BlockIndex) (p : BlockPtr) (s₁ : IndexedNode),
      s.newBlockIndex P H nFile nBlockPos b hashProof = some (e :: p) ∧ e :: p ∈ tree'.entries ∧
      files.blockOf e = some b ∧ Durable C tree' sync s₁ ∧
      s₁.hashSyncCheckpoint = s.hashSyncCheckpoint ∧ SameMemory s.node s₁.node ∧
      (¬s.node.nBestChainTrust < BlockPtr.nChainTrust (e :: p) ∧ s' = s₁ ∨
        s.node.nBestChainTrust < BlockPtr.nChainTrust (e :: p) ∧
          ∃ n', (Beancash.setBestChain P io.chain b (e :: p)).run s₁.node = (some (), n') ∧
            s' = { s₁ with node := n' }) := by
  have hnew : s.mapBlockIndex (b.hash P) = none ∧
      ∃ pindexNew, s.newBlockIndex P H nFile nBlockPos b hashProof = some pindexNew := by
    rcases addToBlockIndex_cases hrun with ⟨hr, _⟩ | ⟨pindexNew, _, hfresh, hnew, _⟩
    · cases hr
    · exact ⟨hfresh, pindexNew, hnew⟩
  obtain ⟨hfresh, pindexNew, hnew⟩ := hnew
  obtain ⟨modifier, _, rfl⟩ := newBlockIndex_eq_some hnew
  have hjoins := hadds.joins h.indexed hfresh hashProof modifier
  obtain ⟨s₁, hs₁, hrest⟩ := h.addToBlockIndex hrun hnew (fun _ => BlockTree.mem_insert hjoins)
    (loadable_toIndex (hcheck _ _ hnew))
  exact ⟨tree.insert hjoins, _, _, s₁, hnew, Or.inl rfl, hadds.stored, hs₁, hrest⟩

theorem Durable.addToBlockIndex_only (hS : files.txs.InjOn P.txHash) {sync : Option DbValue}
    (h : Durable C tree sync s) {io : IndexIo} {nFile : FileNumber} {nBlockPos : UInt32}
    {b : Block} {hashProof : Uint256} (hadds : Adds P files s nFile nBlockPos b)
    (hcheck : ∀ e p, s.newBlockIndex P H nFile nBlockPos b hashProof = some (e :: p) →
      checkStakeModifierCheckpoints P p.length
        (stakeModifierChecksum C (BlockPtr.nStakeModifierChecksum C p) e) = true)
    (hreads : io.chain.ReadsIndexed files
      ((Beancash.addToBlockIndex P H io nFile nBlockPos b hashProof).run s).2.mapBlockIndex)
    (hrun : (Beancash.addToBlockIndex P H io nFile nBlockPos b hashProof).run s = (some (), s')) :
    ∃ tree' : BlockTree P files, tree'.IndexedBy s'.mapBlockIndex ∧
      ∀ hash, (∀ q ∈ tree'.entries, BlockPtr.hash q ≠ hash) →
        s'.node.txdb.pdb (.blockindex hash) = none := by
  obtain ⟨tree', e, p, s₁, _, hmem, hb, hs₁, _, _, hcase⟩ := h.adds hadds hcheck hrun
  rw [hrun] at hreads
  refine ⟨tree', ?_⟩
  rcases hcase with ⟨_, rfl⟩ | ⟨_, n', hset, rfl⟩
  · refine ⟨hs₁.indexed, fun hash hfresh => ?_⟩
    rw [← hs₁.view_eq_pdb]
    exact hs₁.recorded.only hfresh
  · exact ⟨hs₁.indexed, fun hash hfresh => hs₁.setBestChain_only hS
      (hreads.readsFrom hs₁.indexed) hmem hb hset hfresh⟩

theorem Restartable.step (hS : files.txs.InjOn P.txHash) (h : Restartable C P files s)
    (hstep : SmoothIndexStep P H C files s s') : Restartable C P files s' := by
  obtain ⟨tree, hs, hbest⟩ := h
  obtain ⟨op, hcalled, hsmooth, hrun⟩ := hstep
  cases op with
  | addToBlockIndex io nFile nBlockPos b hashProof =>
    obtain ⟨hadds, hreads⟩ := hcalled
    simp only [IndexOp.run] at hrun
    rw [hrun] at hreads
    obtain ⟨tree', e, p, s₁, hnew, hmem, hb, hs₁, hsync, hsame, hcase⟩ :=
      hs.adds hadds (fun e p hnew => (hsmooth e p hnew).1) hrun
    rcases hcase with ⟨_, rfl⟩ | ⟨hlt, n', hset, rfl⟩
    · exact ⟨tree', hsync ▸ hs₁, hsame.pindexBest ▸ hbest⟩
    · have hrec : PostponedReconnect P files io.chain s₁.node (e :: p) := by
        rw [PostponedReconnect, hsame.pindexBest, hsame.nBestHeight]
        exact (hsmooth e p hnew).2 hlt
      have hs' := hs₁.setBestChain hS (hreads.readsFrom hs₁.indexed) hmem hb hset hrec
      have hne : n'.pindexBest ≠ [] := by
        rw [pindexBest_setBestChain hset]
        exact List.cons_ne_nil e p
      exact ⟨tree', hsync ▸ hs', hne⟩
  | setBestChain io b pindexNew =>
    obtain ⟨hmap, ⟨e, p, rfl, hb⟩, hreads⟩ := hcalled
    have hmem := ((hs.indexed _ _).mp hmap).1
    rcases hset : (setBestChain P io b (e :: p)).run s.node with ⟨r, n'⟩
    rw [IndexOp.run, IndexedNode.run_onNode, hset] at hrun
    obtain ⟨rfl, rfl⟩ := Prod.mk.inj hrun
    have hs' := hs.setBestChain hS (hreads.readsFrom hs.indexed) hmem hb hset hsmooth
    have hne : n'.pindexBest ≠ [] := by
      rw [pindexBest_setBestChain hset]
      exact List.cons_ne_nil e p
    exact ⟨tree, hs', hne⟩

theorem Restartable.run (hS : files.txs.InjOn P.txHash) (h : Restartable C P files s)
    (hrun : ReflTransGen (SmoothIndexStep P H C files) s s') : Restartable C P files s' := by
  induction hrun with
  | refl => exact h
  | tail _ hstep ih => exact ih.step hS hstep

/-- The tree in which there is nothing yet. -/
def BlockTree.empty (P : Params) (files : Files) : BlockTree P files where
  entries := ∅
  parent h := h.elim
  hash_injOn := Set.injOn_empty _
  hash_ne_zero h := h.elim
  genesis h := h.elim
  nHeight_lt h := h.elim
  stored h := h.elim
  linked h := h.elim
  accepted h := h.elim

/-- The tree of the genesis block. -/
def BlockTree.root {e : BlockIndex} {b : Block} (hb : files.blockOf e = some b)
    (hhash : b.hash P = e.phashBlock) (hheader : b.header = e.header)
    (hgenesis : e.phashBlock = P.hashGenesisBlock) (hne : e.phashBlock ≠ 0)
    (hprev : b.header.hashPrevBlock = 0) : BlockTree P files where
  entries := {[e]}
  parent h := by cases h
  hash_injOn := Set.injOn_singleton _ _
  hash_ne_zero := by
    rintro _ rfl
    exact hne
  genesis h := by
    obtain ⟨rfl, rfl⟩ := List.cons.inj h
    exact iff_of_true hgenesis rfl
  nHeight_lt := by
    rintro _ rfl
    exact Nat.two_pow_pos 31
  stored h := by
    obtain ⟨rfl, rfl⟩ := List.cons.inj h
    rw [hb]
    rfl
  linked h hb' := by
    obtain ⟨rfl, rfl⟩ := List.cons.inj h
    obtain rfl := Option.some_injective _ (hb.symm.trans hb')
    exact ⟨hhash, hheader, hprev⟩
  accepted h := by cases h

theorem durable_empty (wallets : List Wallet) :
    Durable C (BlockTree.empty P files) none (.empty wallets) where
  indexed hash q := iff_of_false (by simp [IndexedNode.empty]) fun h => h.1.elim
  consistent := ⟨Or.inl rfl, rfl, rfl, ⟨⟨trivial, rfl⟩, rfl, rfl, rfl⟩⟩
  nBestHeight := rfl
  nBestChainTrust := rfl
  recorded := ⟨fun he => he.elim, fun _ => rfl, rfl⟩
  setStakeSeen stake := iff_of_false (Finset.notMem_empty stake) fun ⟨_, _, he, _⟩ => he.elim
  loadable he := he.elim

theorem mapBlockIndex_writeSyncCheckpoint {ok : Bool} {hash : Uint256}
    (hrun : (Beancash.writeSyncCheckpoint ok hash).run s = (some (), s')) :
    s'.mapBlockIndex = s.mapBlockIndex := by
  cases ok with
  | false => cases hrun
  | true =>
    obtain ⟨_, rfl⟩ := Prod.mk.inj hrun
    rfl

theorem Durable.writeSyncCheckpoint {sync : Option DbValue} (h : Durable C tree sync s)
    {ok : Bool} {hash : Uint256}
    (hrun : (Beancash.writeSyncCheckpoint ok hash).run s = (some (), s')) :
    Durable C tree (some (.hash s'.hashSyncCheckpoint)) s' ∧
      s'.node.pindexBest = s.node.pindexBest := by
  cases ok with
  | false => cases hrun
  | true =>
    obtain ⟨_, rfl⟩ := Prod.mk.inj hrun
    have hview : ((s.node.txdb.txnBegin.write .hashSyncCheckpoint (.hash hash)).txnCommit
        true).view = Function.update s.node.txdb.view .hashSyncCheckpoint (some (.hash hash)) := by
      rw [TxDB.view_txnCommit, TxDB.view_write, TxDB.view_txnBegin, h.view_eq_pdb]
    have hrecorded : Recorded tree (some (.hash hash)) (nextHash s.node.pindexBest) { s.node with
        txdb := (s.node.txdb.txnBegin.write .hashSyncCheckpoint (.hash hash)).txnCommit true } := by
      refine ⟨fun he => ?_, fun hfresh => ?_, ?_⟩
      · rw [hview, Function.update_of_ne (by simp)]
        exact h.recorded.record he
      · rw [hview, Function.update_of_ne (by simp), h.recorded.only hfresh]
      · rw [hview, Function.update_self]
    exact ⟨⟨h.indexed, h.consistent.of_commit (by simp) (by simp) _ true, h.nBestHeight,
      h.nBestChainTrust, hrecorded, h.setStakeSeen, h.loadable⟩, rfl⟩

theorem FromGenesis.restartable (hS : files.txs.InjOn P.txHash) {wallets : List Wallet}
    {io : IndexIo} {ok : Bool} {nFile : FileNumber} {nBlockPos : UInt32} {b : Block}
    (h : FromGenesis P H C files s wallets io ok nFile nBlockPos b) : Restartable C P files s := by
  obtain ⟨_, s₁, hadd, hwrite⟩ := Step.run_bind_eq_some.mp h.run
  set e := b.toIndex P nFile nBlockPos P.hashGenesisBlock 0 true with he
  let tree : BlockTree P files :=
    .root (e := e) h.stored rfl rfl h.hash h.hash_ne_zero h.hashPrevBlock
  have hmem : ∀ q, q ∈ tree.entries ↔ q = [e] ∨ q ∈ (BlockTree.empty P files).entries :=
    fun q => (or_iff_left (Set.notMem_empty q)).symm
  obtain ⟨s₂, hs₂, hsync, hsame, hcase⟩ :=
    (durable_empty wallets).addToBlockIndex hadd rfl hmem (loadable_toIndex h.checkpoint)
  rcases hcase with ⟨hnot, _⟩ | ⟨_, n', hset, rfl⟩
  · refine absurd (show 0 < BlockPtr.nChainTrust [e] from ?_) hnot
    rw [BlockPtr.nChainTrust, List.map_singleton, List.sum_singleton]
    exact h.trust
  · obtain ⟨hdurable, hbest⟩ : Durable C tree (some (.hash s.hashSyncCheckpoint)) s ∧
        s.node.pindexBest = n'.pindexBest := by
      have hreads : io.chain.ReadsFrom tree := by
        refine h.reads.readsFrom ?_
        rw [mapBlockIndex_writeSyncCheckpoint hwrite]
        exact hs₂.indexed
      have hrec : PostponedReconnect P files io.chain s₂.node [e] := fun c hc => nomatch hc
      have hs' := hs₂.setBestChain hS hreads rfl h.stored hset hrec
      exact hs'.writeSyncCheckpoint hwrite
    refine ⟨tree, hdurable, ?_⟩
    rw [hbest, pindexBest_setBestChain hset]
    exact List.cons_ne_nil e []

/-- In a run from the genesis block in which every postponed block is reconnected and every new
block passes the stake-modifier checkpoints, a restart at any moment loads the index as it is in
memory. -/
theorem loadBlockIndex_rebuilds (hS : files.txs.InjOn P.txHash)
    (hnull : ∀ tx ∈ files.txs, P.txHash tx ≠ 0) {wallets : List Wallet} {ioGenesis : IndexIo}
    {ok : Bool} {nFile : FileNumber} {nBlockPos : UInt32} {b : Block} {s₀ : IndexedNode}
    (h₀ : FromGenesis P H C files s₀ wallets ioGenesis ok nFile nBlockPos b)
    (h : ReflTransGen (SmoothIndexStep P H C files) s₀ s) {io : LoadIo}
    (hio : io.Restarts P files s) :
    ∃ s', loadBlockIndex P C io s.node.txdb.pdb = some s' ∧ SameIndex C s s' := by
  obtain ⟨tree, hs, hbest⟩ := (h₀.restartable hS).run hS h
  exact hs.loadBlockIndex hbest hnull hio

namespace Sample

def checksumHash : ChecksumHash := fun _ _ _ _ => 0xfd11f4e7 <<< 224

def workEntry (b : Block) : BlockIndex :=
  b.toIndex mainParams (entry b).nFile (entry b).nBlockPos 0 0 false

/-- Two blocks on each branch, the switch to the second one, and the block that overpays. -/
def indexOp (k : ℕ) : IndexOp :=
  if k = 4 then .setBestChain syncIo (rightBlock 1) [workEntry (rightBlock 1), origin]
  else
    let b := [leftBlock 1, leftBlock 2, rightBlock 1, rightBlock 2].getD k (rightBlock 3)
    .addToBlockIndex ⟨true, true, syncIo⟩ (entry b).nFile (entry b).nBlockPos b 0

def indexStart : IndexedNode :=
  ((initGenesis mainParams selectionHash ⟨true, true, syncIo⟩ true (entry genesis).nFile
    (entry genesis).nBlockPos genesis).run (.empty [])).2

def indexNode : ℕ → IndexedNode
  | 0 => indexStart
  | k + 1 => ((indexOp k).run mainParams selectionHash (indexNode k)).2

/-- Whether an operation is called as it should be, and returns true. -/
def calledCheck (s : IndexedNode) : IndexOp → Bool
  | .addToBlockIndex io nFile nBlockPos b hashProof =>
    let r := (addToBlockIndex mainParams selectionHash io nFile nBlockPos b hashProof).run s
    ((s.mapBlockIndex b.header.hashPrevBlock).any fun p => decide (p.length < 2 ^ 31) &&
      acceptedCheck mainParams 0 b p) && decide (b.hash mainParams ≠ 0) &&
      decide (syncFiles.block nFile nBlockPos = some b) && r.1.isSome &&
      indexCheck params (genesis :: syncBlocks) syncFiles r.2.mapBlockIndex
  | .setBestChain io b pindexNew =>
    decide (s.mapBlockIndex (b.hash mainParams) = some pindexNew) &&
      (pindexNew.head?.any fun e => decide (syncFiles.blockOf e = some b)) &&
      indexCheck params (genesis :: syncBlocks) syncFiles s.mapBlockIndex &&
      ((setBestChain mainParams io b pindexNew).run s.node).1.isSome

def smoothIndexCheck (s : IndexedNode) : IndexOp → Bool
  | .addToBlockIndex _ nFile nBlockPos b hashProof =>
    (s.newBlockIndex mainParams selectionHash nFile nBlockPos b hashProof).all fun
      | [] => true
      | e :: p => checkStakeModifierCheckpoints mainParams p.length (stakeModifierChecksum
          checksumHash (BlockPtr.nStakeModifierChecksum checksumHash p) e) &&
          reconnectCheck mainParams syncFiles syncIo s (e :: p)
  | .setBestChain _ _ pindexNew => reconnectCheck mainParams syncFiles syncIo s pindexNew

theorem called_indexOp {k : ℕ} {s : IndexedNode} (h : calledCheck s (indexOp k) = true) :
    (indexOp k).Called mainParams selectionHash syncFiles s ∧
      ((indexOp k).run mainParams selectionHash s).1 = some () := by
  unfold indexOp at h ⊢
  split at h
  · rw [if_pos ‹_›]
    simp only [calledCheck, Bool.and_eq_true, decide_eq_true_eq] at h
    obtain ⟨⟨⟨hmap, hb⟩, hindex⟩, hsome⟩ := h
    obtain ⟨u, hu⟩ := Option.isSome_iff_exists.mp hsome
    exact ⟨⟨hmap, ⟨_, _, rfl, of_decide_eq_true hb⟩, readsIndexed_io hindex⟩, hu⟩
  · rw [if_neg ‹_›]
    simp only [calledCheck, Bool.and_eq_true, decide_eq_true_eq, Option.any_eq_true] at h
    obtain ⟨⟨⟨⟨⟨p, hp, hlen, haccepted⟩, hne⟩, hstored⟩, hsome⟩, hindex⟩ := h
    obtain ⟨u, hu⟩ := Option.isSome_iff_exists.mp hsome
    exact ⟨⟨⟨⟨p, hp, hlen, accepted_of_acceptedCheck haccepted⟩, hne, hstored⟩,
      readsIndexed_io hindex⟩, hu⟩

theorem smooth_indexOp {k : ℕ} {s : IndexedNode} (h : smoothIndexCheck s (indexOp k) = true) :
    (indexOp k).Smooth mainParams selectionHash checksumHash syncFiles s := by
  unfold indexOp at h ⊢
  split at h
  · rw [if_pos ‹_›]
    exact List.all_eq_true.mp h
  · rw [if_neg ‹_›]
    intro e p hnew
    simp only [smoothIndexCheck, hnew, Option.all_some, Bool.and_eq_true] at h
    exact ⟨h.1, fun _ => List.all_eq_true.mp h.2⟩

theorem called_indexNode {k : ℕ} (h : k < 6) :
    (indexOp k).Called mainParams selectionHash syncFiles (indexNode k) ∧
      (indexOp k).run mainParams selectionHash (indexNode k) = (some (), indexNode (k + 1)) := by
  have hcheck : ∀ k < 6, calledCheck (indexNode k) (indexOp k) = true := by decide
  obtain ⟨hcalled, hsome⟩ := called_indexOp (hcheck k h)
  exact ⟨hcalled, Prod.ext hsome rfl⟩

theorem smoothRun_indexNode {k : ℕ} (h : k ≤ 5) : ReflTransGen
    (SmoothIndexStep mainParams selectionHash checksumHash syncFiles) indexStart (indexNode k) := by
  have hcheck : ∀ k < 5, smoothIndexCheck (indexNode k) (indexOp k) = true := by decide
  induction k with
  | zero => exact .refl
  | succ k ih =>
    obtain ⟨hcalled, hrun⟩ := called_indexNode (k := k) (by omega)
    exact (ih (by omega)).tail ⟨indexOp k, hcalled, smooth_indexOp (hcheck k (by omega)), hrun⟩

theorem fromGenesis_indexStart : FromGenesis mainParams selectionHash checksumHash syncFiles
    indexStart [] ⟨true, true, syncIo⟩ true (entry genesis).nFile (entry genesis).nBlockPos
    genesis where
  hash := by decide
  hash_ne_zero := by decide
  hashPrevBlock := by decide
  stored := by decide
  trust := by decide
  checkpoint := by decide
  reads := readsIndexed_io (by decide)
  run := by
    refine Prod.ext ?_ rfl
    decide

def hashes : List Uint256 := (genesis :: syncBlocks).map (Block.hash mainParams)

def loadIo (s : IndexedNode) : LoadIo where
  blockIndexes := hashes.filterMap fun hash =>
    match s.node.txdb.pdb (.blockindex hash) with
    | some (.blockIndex d) => some d
    | _ => none
  address := BitVec.toNat
  adjustedTime := 1000
  readTx := syncFiles.txAt
  signed _ := true
  chain := syncIo
  fUseFastIndex := true
  nCheckLevel := 1
  nCheckDepth := 2500

theorem mapBlockIndex_indexNode (k : ℕ) {hash : Uint256} (h : hash ∉ hashes) :
    (indexNode k).mapBlockIndex hash = none := by
  have hne : ∀ b ∈ genesis :: syncBlocks, hash ≠ b.hash mainParams := fun b hb heq =>
    h (heq ▸ List.mem_map_of_mem hb)
  induction k with
  | zero =>
    obtain ⟨_, s₁, hadd, hwrite⟩ := Step.run_bind_eq_some.mp fromGenesis_indexStart.run
    change indexStart.mapBlockIndex hash = none
    rw [mapBlockIndex_writeSyncCheckpoint hwrite,
      mapBlockIndex_addToBlockIndex hadd (hne genesis List.mem_cons_self)]
    rfl
  | succ k ih =>
    rw [indexNode, indexOp]
    split
    · exact ih
    · have hmem : [leftBlock 1, leftBlock 2, rightBlock 1, rightBlock 2].getD k (rightBlock 3) ∈
          genesis :: syncBlocks := by
        match k with
        | 0 | 1 | 2 | 3 | _ + 4 => simp [syncBlocks]
      exact (mapBlockIndex_addToBlockIndex rfl (hne _ hmem)).trans ih

theorem restarts_loadIo {tree : BlockTree mainParams syncFiles} {s : IndexedNode}
    (hmap : tree.IndexedBy s.mapBlockIndex)
    (hindexed : ∀ hash ∉ hashes, s.mapBlockIndex hash = none)
    (honly : ∀ hash, (∀ q ∈ tree.entries, BlockPtr.hash q ≠ hash) →
      s.node.txdb.pdb (.blockindex hash) = none)
    (htime : (s.node.pindexBest.all fun e => decide (e.blockTime ≤ futureDrift 1000)) = true) :
    (loadIo s).Restarts mainParams syncFiles s where
  blockIndexes d := by
    rw [loadIo, List.mem_filterMap]
    constructor
    · rintro ⟨hash, _, hd⟩
      split at hd
      · rename_i d' hrecord
        obtain rfl := Option.some_injective _ hd
        exact ⟨hash, hrecord⟩
      · cases hd
    · rintro ⟨hash, hrecord⟩
      refine ⟨hash, ?_, by rw [hrecord]⟩
      by_contra hnot
      rw [honly hash (hmap.eq_none (hindexed hash hnot))] at hrecord
      cases hrecord
  readBlock e p hp := by
    obtain ⟨he, -⟩ := (hmap _ _).mp hp
    obtain ⟨b, hb⟩ := Option.isSome_iff_exists.mp (tree.stored he)
    have hhash := (tree.linked he hb).1
    have hmem : b ∈ genesis :: syncBlocks := mem_of_files hb
    have hfind : ∀ b ∈ genesis :: syncBlocks,
        (syncIo.block (b.hash mainParams)).readBlock = some b := by decide
    rw [hb, ← hhash]
    exact hfind b hmem
  readTx _ _ h := h
  signed _ _ _ _ := rfl
  adjustedTime e he := of_decide_eq_true (List.all_eq_true.mp htime e he)

theorem restarts_indexNode {k : ℕ} (hk : k = 5 ∨ k = 6) :
    (loadIo (indexNode k)).Restarts mainParams syncFiles (indexNode k) := by
  have htime : ∀ k, k = 5 ∨ k = 6 → ((indexNode k).node.pindexBest.all fun e =>
      decide (e.blockTime ≤ futureDrift 1000)) = true := by
    rintro _ (rfl | rfl) <;> decide
  obtain ⟨tree, hs, _⟩ := (fromGenesis_indexStart.restartable injOn_syncFiles).run injOn_syncFiles
    (smoothRun_indexNode (k := 5) (by decide))
  rcases hk with rfl | rfl
  · refine restarts_loadIo hs.indexed (fun hash h => mapBlockIndex_indexNode 5 h)
      (fun hash hfresh => ?_) (htime 5 (Or.inl rfl))
    rw [← hs.view_eq_pdb]
    exact hs.recorded.only hfresh
  · obtain ⟨⟨hadds, hreads⟩, hrun⟩ := called_indexNode (k := 5) (by decide)
    have hcheck : ∀ e p, (indexNode 5).newBlockIndex mainParams selectionHash
        (entry (rightBlock 3)).nFile (entry (rightBlock 3)).nBlockPos (rightBlock 3) 0 =
          some (e :: p) → checkStakeModifierCheckpoints mainParams p.length (stakeModifierChecksum
            checksumHash (BlockPtr.nStakeModifierChecksum checksumHash p) e) = true := by
      intro e p hnew
      have hall : ((indexNode 5).newBlockIndex mainParams selectionHash
        (entry (rightBlock 3)).nFile (entry (rightBlock 3)).nBlockPos (rightBlock 3) 0).all
          (fun q => decide (q.length = 4)) = true := by decide
      rw [hnew] at hall
      have hlen : (e :: p).length = 4 := of_decide_eq_true hall
      rw [List.length_cons] at hlen
      rw [show p.length = 3 by omega]
      rfl
    obtain ⟨tree', hmap, honly⟩ := hs.addToBlockIndex_only injOn_syncFiles hadds hcheck hreads hrun
    exact restarts_loadIo hmap (fun hash h => mapBlockIndex_indexNode 6 h) honly
      (htime 6 (Or.inr rfl))

end Sample

open Sample in
/-- The switch to the second branch, and a restart. -/
theorem loadBlockIndex_rebuilds_indexNode :
    ∃ s', loadBlockIndex mainParams checksumHash (loadIo (indexNode 5))
        (indexNode 5).node.txdb.pdb = some s' ∧ SameIndex checksumHash (indexNode 5) s' := by
  have hnull : ∀ tx ∈ (genesis :: syncBlocks).flatMap Block.vtx, mainParams.txHash tx ≠ 0 := by
    decide
  exact loadBlockIndex_rebuilds injOn_syncFiles (fun tx htx => hnull tx (mem_filesTxs htx))
    fromGenesis_indexStart (smoothRun_indexNode (by decide)) (restarts_indexNode (Or.inl rfl))

open Sample in
/-- The block that overpays is the best one in memory, but its postponed reconnect has failed, and
after a restart its parent is the best block. -/
theorem loadBlockIndex_differs :
    let s := indexNode 6
    FromGenesis mainParams selectionHash checksumHash syncFiles indexStart [] ⟨true, true, syncIo⟩
        true (entry genesis).nFile (entry genesis).nBlockPos genesis ∧
      ReflTransGen (IndexStep mainParams selectionHash syncFiles) indexStart s ∧
      (loadIo s).Restarts mainParams syncFiles s ∧ s.node.hashBestChain = 14 ∧
      (loadBlockIndex mainParams checksumHash (loadIo s) s.node.txdb.pdb).map
        (fun s' => s'.node.hashBestChain) = some 13 ∧
      ¬∃ s', loadBlockIndex mainParams checksumHash (loadIo s) s.node.txdb.pdb = some s' ∧
        SameIndex checksumHash s s' := by
  intro s
  have hbest : s.node.hashBestChain = 14 := by decide
  have hload : (loadBlockIndex mainParams checksumHash (loadIo s) s.node.txdb.pdb).map
      (fun s' => s'.node.hashBestChain) = some 13 := by decide
  have hraw : ∀ k ≤ 6,
      ReflTransGen (IndexStep mainParams selectionHash syncFiles) indexStart (indexNode k) := by
    intro k hk
    induction k with
    | zero => exact .refl
    | succ k ih => exact (ih (by omega)).tail ⟨indexOp k, called_indexNode (by omega)⟩
  refine ⟨fromGenesis_indexStart, hraw 6 (by decide), restarts_indexNode (Or.inr rfl), hbest,
    hload, ?_⟩
  rintro ⟨s', hs', hsame⟩
  rw [hs', Option.map_some, hsame.hashBestChain, hbest] at hload
  revert hload
  decide

end Beancash
