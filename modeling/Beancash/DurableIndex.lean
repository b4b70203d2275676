import Beancash.IndexRecords
import Beancash.LoadBlockIndex

namespace Beancash

open Fallible

variable {P : Params} {H : SelectionHash} {C : ChecksumHash} {files : Files}
  {tree tree' : BlockTree P files}

/-- The entries of the tree that a stake was seen in. -/
def BlockTree.Stakes (tree : BlockTree P files) (stake : OutPoint × UInt32) : Prop :=
  ∃ e p, e :: p ∈ tree.entries ∧ e.fProofOfStake = true ∧ stake = (e.prevoutStake, e.nStakeTime)

/-- What is not on the disk of an entry, and what the loader asks of it. -/
structure Loadable (P : Params) (C : ChecksumHash) (e : BlockIndex) (p : BlockPtr) : Prop where
  unstaked : e.fProofOfStake = false → e.prevoutStake = ⟨0, 0xffffffff⟩ ∧ e.nStakeTime = 0
  checkpoint : checkStakeModifierCheckpoints P p.length
    (stakeModifierChecksum C (BlockPtr.nStakeModifierChecksum C p) e) = true

/-- The index on the disk is that in memory, and the sync-checkpoint is recorded as `sync`. -/
structure Durable (C : ChecksumHash) (tree : BlockTree P files) (sync : Option DbValue)
    (s : IndexedNode) : Prop where
  indexed : tree.IndexedBy s.mapBlockIndex
  consistent : Consistent tree s.node
  nBestHeight : s.node.nBestHeight = BlockPtr.nHeight s.node.pindexBest
  nBestChainTrust : s.node.nBestChainTrust = BlockPtr.nChainTrust s.node.pindexBest
  recorded : Recorded tree sync (nextHash s.node.pindexBest) s.node
  setStakeSeen : ∀ stake, stake ∈ s.setStakeSeen ↔ tree.Stakes stake
  loadable : ∀ {e p}, e :: p ∈ tree.entries → Loadable P C e p

theorem mem_insertStake {Q Q' : BlockIndex → BlockPtr → Prop} {seen : Finset (OutPoint × UInt32)}
    {e : BlockIndex} {p : BlockPtr}
    (hseen : ∀ stake, stake ∈ seen ↔
      ∃ e p, Q e p ∧ e.fProofOfStake = true ∧ stake = (e.prevoutStake, e.nStakeTime))
    (hQ : ∀ e' p', Q' e' p' ↔ e' = e ∧ p' = p ∨ Q e' p') (stake : OutPoint × UInt32) :
    stake ∈ (if e.fProofOfStake then insert (e.prevoutStake, e.nStakeTime) seen else seen) ↔
      ∃ e' p', Q' e' p' ∧ e'.fProofOfStake = true ∧ stake = (e'.prevoutStake, e'.nStakeTime) := by
  have hcase : stake ∈ (if e.fProofOfStake then insert (e.prevoutStake, e.nStakeTime) seen
      else seen) ↔ e.fProofOfStake = true ∧ stake = (e.prevoutStake, e.nStakeTime) ∨
        stake ∈ seen := by
    split <;> simp [*]
  rw [hcase, hseen]
  constructor
  · rintro (⟨hstaked, rfl⟩ | ⟨e', p', hold, hrest⟩)
    · exact ⟨e, p, (hQ e p).mpr (Or.inl ⟨rfl, rfl⟩), hstaked, rfl⟩
    · exact ⟨e', p', (hQ e' p').mpr (Or.inr hold), hrest⟩
  · rintro ⟨e', p', hnew, hstaked, rfl⟩
    rcases (hQ e' p').mp hnew with ⟨rfl, rfl⟩ | hold
    · exact Or.inl ⟨hstaked, rfl⟩
    · exact Or.inr ⟨e', p', hold, hstaked, rfl⟩

variable {sync : Option DbValue} {s s' : IndexedNode}

theorem Recorded.insert (hc : Consistent tree s.node)
    (h : Recorded tree sync (nextHash s.node.pindexBest) s.node) {e : BlockIndex} {p : BlockPtr}
    (hmem : ∀ q, q ∈ tree'.entries ↔ q = e :: p ∨ q ∈ tree.entries)
    (hfresh : ∀ q ∈ tree.entries, BlockPtr.hash q ≠ e.phashBlock) :
    Recorded tree' sync (nextHash s.node.pindexBest)
      ((writeIndexEntry true (e :: p)).run (s.insertIndex (e :: p)).node).2 := by
  rw [run_writeIndexEntry]
  have hview : ∀ k v, ((((s.insertIndex (e :: p)).node.txdb.txnBegin).write k v).txnCommit
      true).view = Function.update s.node.txdb.view k (some v) := by
    intro k v
    rw [TxDB.view_txnCommit, TxDB.view_write, TxDB.view_txnBegin, TxDB.view,
      hc.attached.activeBatch]
    rfl
  have hnext : nextHash s.node.pindexBest e.phashBlock = 0 := by
    have hnil := congrFun (hc.pnext_fresh hfresh) e.phashBlock
    rw [Function.update_self, hc.attached.pnext] at hnil
    rw [nextHash, ← hnil]
    rfl
  refine ⟨fun {e' p'} he' => ?_, fun {hash} hfresh' => ?_, ?_⟩
  · rw [hview]
    rcases (hmem _).mp he' with heq | he'
    · obtain ⟨rfl, rfl⟩ := List.cons.inj heq
      rw [Function.update_self, hnext]
      simp only [IndexedNode.insertIndex, Function.update_self]
      rfl
    · have hne : e'.phashBlock ≠ e.phashBlock := hfresh _ he'
      rw [Function.update_of_ne (by simpa using hne), h.record he']
      simp only [Node.diskBlockIndex, IndexedNode.insertIndex, Function.update_of_ne hne]
  · have hne : hash ≠ e.phashBlock := (hfresh' _ ((hmem _).mpr (Or.inl rfl))).symm
    rw [hview, Function.update_of_ne (by simpa using hne),
      h.only fun q hq => hfresh' q ((hmem q).mpr (Or.inr hq))]
  · rw [hview, Function.update_of_ne (by simp), h.sync]

theorem Durable.insert (h : Durable C tree sync s) {e : BlockIndex} {p : BlockPtr}
    (hmem : ∀ q, q ∈ tree'.entries ↔ q = e :: p ∨ q ∈ tree.entries)
    (hfresh : ∀ q ∈ tree.entries, BlockPtr.hash q ≠ e.phashBlock) (hload : Loadable P C e p) :
    Durable C tree' sync { s.insertIndex (e :: p) with
      node := ((writeIndexEntry true (e :: p)).run (s.insertIndex (e :: p)).node).2 } where
  indexed := h.indexed.grow hmem hfresh
  consistent := ((h.consistent.insertIndex hfresh).mono
    fun q hq => (hmem q).mpr (Or.inr hq)).writeIndexEntry true e p
  nBestHeight := h.nBestHeight
  nBestChainTrust := h.nBestChainTrust
  recorded := h.recorded.insert h.consistent hmem hfresh
  setStakeSeen := by
    refine mem_insertStake (p := p) h.setStakeSeen fun e' p' => ?_
    rw [hmem, List.cons.injEq]
  loadable he' := by
    rcases (hmem _).mp he' with heq | he'
    · obtain ⟨rfl, rfl⟩ := List.cons.inj heq
      exact hload
    · exact h.loadable he'

theorem Durable.setBestChain (hS : files.txs.InjOn P.txHash) (h : Durable C tree sync s) {io : Io}
    (hio : io.ReadsFrom tree) {e : BlockIndex} {p : BlockPtr} {b : Block} {n' : Node}
    (he : e :: p ∈ tree.entries) (hb : files.blockOf e = some b)
    (hrun : (setBestChain P io b (e :: p)).run s.node = (some (), n'))
    (hrec : ∀ c ∈ (BlockPtr.postpone (BlockPtr.nChainTrust s.node.pindexBest) (e :: p)).2,
      reconnects P files io s.node.nBestHeight c = true) :
    Durable C tree sync { s with node := n' } := by
  have hnew : tree.BringsNewTxids :=
    BlockTree.bringsNewTxids_of_injOn (hS.mono tree.txs_subset)
  have hall := List.all_eq_true.mpr hrec
  have hbest := pindexBest_setBestChain hrun
  have hrecorded := (h.recorded.setBestChain hnew hio he hb h.consistent hrun).1 hall
  obtain ⟨n₁, _, hset, _⟩ := setBestChain_eq_some hnew hio he hb h.consistent hrun
  rw [← hbest] at hrecorded
  refine ⟨h.indexed, h.consistent.of_setBestChain hnew hio he hb hrun hall, ?_, ?_, hrecorded,
    h.setStakeSeen, h.loadable⟩ <;> rw [hset] <;> rfl

theorem Durable.setBestChain_only (hS : files.txs.InjOn P.txHash) (h : Durable C tree sync s)
    {io : Io} (hio : io.ReadsFrom tree) {e : BlockIndex} {p : BlockPtr} {b : Block} {n' : Node}
    (he : e :: p ∈ tree.entries) (hb : files.blockOf e = some b)
    (hrun : (Beancash.setBestChain P io b (e :: p)).run s.node = (some (), n')) {hash : Uint256}
    (hfresh : ∀ q ∈ tree.entries, BlockPtr.hash q ≠ hash) :
    n'.txdb.pdb (.blockindex hash) = none := by
  have hnew : tree.BringsNewTxids :=
    BlockTree.bringsNewTxids_of_injOn (hS.mono tree.txs_subset)
  have hnone := (h.recorded.setBestChain hnew hio he hb h.consistent hrun).2 hfresh
  obtain ⟨n₁, _, rfl, _, q, _, _, hatt, _⟩ := setBestChain_eq_some hnew hio he hb h.consistent hrun
  have hbatch : (n₁.setBest (b.hash P) (e :: p)).txdb.activeBatch = none := hatt.activeBatch
  rw [← hnone, TxDB.view, hbatch]

/-- A call of `AddToBlockIndex` that returns true has recorded the new entry, and then called
`SetBestChain` if it has more trust than the best one. -/
theorem Durable.addToBlockIndex (h : Durable C tree sync s) {io : IndexIo} {nFile : FileNumber}
    {nBlockPos : UInt32} {b : Block} {hashProof : Uint256} {e : BlockIndex} {p : BlockPtr}
    (hrun : (addToBlockIndex P H io nFile nBlockPos b hashProof).run s = (some (), s'))
    (hnew : s.newBlockIndex P H nFile nBlockPos b hashProof = some (e :: p))
    (hmem : ∀ q, q ∈ tree'.entries ↔ q = e :: p ∨ q ∈ tree.entries) (hload : Loadable P C e p) :
    ∃ s₁, Durable C tree' sync s₁ ∧ s₁.hashSyncCheckpoint = s.hashSyncCheckpoint ∧
      SameMemory s.node s₁.node ∧
      (¬s.node.nBestChainTrust < BlockPtr.nChainTrust (e :: p) ∧ s' = s₁ ∨
        s.node.nBestChainTrust < BlockPtr.nChainTrust (e :: p) ∧
          ∃ n', (Beancash.setBestChain P io.chain b (e :: p)).run s₁.node = (some (), n') ∧
            s' = { s₁ with node := n' }) := by
  rcases addToBlockIndex_cases hrun with ⟨hr, _⟩ | ⟨pindexNew, n', hfresh, hnew', rfl, hcase⟩
  · cases hr
  obtain rfl := Option.some_injective _ (hnew.symm.trans hnew')
  obtain ⟨modifier, _, heq⟩ := newBlockIndex_eq_some hnew
  have hhash : e.phashBlock = b.hash P := congrArg BlockPtr.hash heq
  have hfresh' := h.indexed.eq_none (hhash ▸ hfresh)
  rcases hcase with ⟨hr, _⟩ | ⟨hr, _⟩ | ⟨n₁, hwritten, hbest⟩
  · cases hr
  · cases hr
  have hok : io.txnCommit = true := by
    by_contra hok
    rw [Bool.not_eq_true] at hok
    rw [run_writeIndexEntry, hok] at hwritten
    cases hwritten
  rw [hok] at hwritten
  obtain rfl : _ = n₁ := congrArg Prod.snd hwritten
  refine ⟨_, h.insert hmem hfresh' hload, rfl,
    ⟨(h.consistent.pnext_fresh hfresh'), rfl, rfl, rfl, rfl, rfl, rfl⟩, ?_⟩
  rcases newBest_cases hbest with ⟨hnot, _, rfl⟩ | ⟨hlt, hset⟩
  · exact Or.inl ⟨hnot, rfl⟩
  · exact Or.inr ⟨hlt, n', hset, rfl⟩

end Beancash
