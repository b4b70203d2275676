import Beancash.CheckpointSpec

namespace Beancash

open Fallible Relation

variable {P : Params} {H : SelectionHash} {files : Files} {tree : BlockTree P files}

/-- What is read at the positions that the index names is what was written there. -/
structure Io.ReadsIndexed (io : Io) (files : Files) (mapBlockIndex : MapBlockIndex) : Prop where
  readBlock : ∀ e p b, mapBlockIndex e.phashBlock = some (e :: p) →
    (io.block e.phashBlock).readBlock = some b → files.blockOf e = some b
  readTx : ∀ hash, (io.block hash).ReadsTxs files

/-- A block that `ProcessBlock` has checked, and that gets to where it is written. -/
structure Arrives (P : Params) (files : Files) (s : IndexedNode) (io : AcceptIo) (b : Block) :
    Prop where
  checked : ∃ nAdjustedTime, b.checkBlock P nAdjustedTime true true true true = true
  hash_ne_zero : b.hash P ≠ 0
  nHeight_lt : ∀ p, s.mapBlockIndex b.header.hashPrevBlock = some p → p.length < 2 ^ 31
  written : ∀ nFile nBlockPos, io.writeToDisk = some (nFile, nBlockPos) →
    files.block nFile nBlockPos = some b

inductive SyncOp where
  | block (io : AcceptIo) (b : Block)
  | pending (io : CheckpointIo)
  | process (io : CheckpointIo) (checkpoint : SyncCheckpoint)

namespace SyncOp

def run (P : Params) (H : SelectionHash) (s : IndexedNode) : SyncOp → IndexedNode
  | block io b => ((acceptBlock P H .strict io b).run s).2
  | pending io => ((acceptPendingSyncCheckpoint P io).run s).2
  | process io checkpoint => ((processSyncCheckpoint P io checkpoint).run s).2

/-- The block files answer the reads of an operation, those of a new block once it is indexed. -/
def Reads (P : Params) (H : SelectionHash) (files : Files) (s : IndexedNode) : SyncOp → Prop
  | block io b => Arrives P files s io b ∧
      io.index.chain.ReadsIndexed files ((storeBlock P H .strict io b).run s).2.mapBlockIndex ∧
      io.pending.chain.ReadsIndexed files ((storeBlock P H .strict io b).run s).2.mapBlockIndex
  | pending io => io.chain.ReadsIndexed files s.mapBlockIndex
  | process io _ => io.chain.ReadsIndexed files s.mapBlockIndex

end SyncOp

/-- Every block that a call of `SetBestChain` postpones can be reconnected. -/
def PostponedReconnect (P : Params) (files : Files) (io : Io) (n : Node) (pindexNew : BlockPtr) :
    Prop :=
  ∀ c ∈ (BlockPtr.postpone (BlockPtr.nChainTrust n.pindexBest) pindexNew).2,
    reconnects P files io n.nBestHeight c = true

/-- So it is if the branch of a checkpoint is made the best chain. -/
def CheckpointReconnects (P : Params) (files : Files) (io : Io) (s : IndexedNode)
    (hashCheckpoint : Uint256) : Prop :=
  ∀ p, s.mapBlockIndex hashCheckpoint = some p → s.isInMainChain p = false →
    ((validateSyncCheckpoint hashCheckpoint).run s).1 = some () →
    ((connectCheckpoint P io p).run s).1 = some () → PostponedReconnect P files io s.node p

/-- And if a new block is made the best one. -/
def StoreReconnects (P : Params) (H : SelectionHash) (files : Files) (io : AcceptIo)
    (s : IndexedNode) (b : Block) : Prop :=
  ∀ p, ((storeBlock P H .strict io b).run s).1 = some () →
    ((storeBlock P H .strict io b).run s).2.mapBlockIndex (b.hash P) = some p →
    PostponedReconnect P files io.index.chain s.node p

/-- All of that in one operation. -/
def SyncOp.Reconnects (P : Params) (H : SelectionHash) (files : Files) (s : IndexedNode) :
    SyncOp → Prop
  | block io b => StoreReconnects P H files io s b ∧
      let s' := ((storeBlock P H .strict io b).run s).2
      CheckpointReconnects P files io.pending.chain s' s'.hashPendingCheckpoint
  | pending io => CheckpointReconnects P files io.chain s s.hashPendingCheckpoint
  | process _ _ => True

/-- One operation leads from one state to the next. -/
def SyncStep (P : Params) (H : SelectionHash) (files : Files) (s s' : IndexedNode) : Prop :=
  ∃ op : SyncOp, op.Reads P H files s ∧ op.run P H s = s'

/-- An operation in which every postponed block is reconnected. -/
def SmoothStep (P : Params) (H : SelectionHash) (files : Files) (s s' : IndexedNode) : Prop :=
  ∃ op : SyncOp, op.Reads P H files s ∧ op.Reconnects P H files s ∧ op.run P H s = s'

theorem Io.ReadsIndexed.readsFrom {io : Io} {mapBlockIndex : MapBlockIndex}
    (h : io.ReadsIndexed files mapBlockIndex) (hmap : tree.IndexedBy mapBlockIndex) :
    io.ReadsFrom tree :=
  ⟨fun he hb => h.readBlock _ _ _ ((hmap _ _).mpr ⟨he, rfl⟩) hb, h.readTx⟩

theorem Consistent.setBestChain_run (hS : files.txs.InjOn P.txHash) {io : Io}
    (hio : io.ReadsFrom tree) {e : BlockIndex} {p : BlockPtr} {b : Block} {n n' : Node}
    {r : Option Unit} (he : e :: p ∈ tree.entries) (hb : files.blockOf e = some b)
    (hn : Consistent tree n) (hrec : r = some () → PostponedReconnect P files io n (e :: p))
    (h : (setBestChain P io b (e :: p)).run n = (r, n')) :
    Consistent tree n' ∧
      (r = none ∧ n'.pindexBest = n.pindexBest ∨ r = some () ∧ n'.pindexBest = e :: p) := by
  have hnew : tree.BringsNewTxids :=
    BlockTree.bringsNewTxids_of_injOn (hS.mono tree.txs_subset)
  cases r with
  | none =>
    refine ⟨hn.of_failed h, Or.inl ⟨rfl, ?_⟩⟩
    rcases discarded_setBestChain h with rfl | hd
    · rfl
    · exact ((sameMemory_txnBegin n).trans hd.memory).pindexBest
  | some u =>
    have hall := List.all_eq_true.mpr (hrec rfl)
    exact ⟨hn.of_setBestChain hnew hio he hb h hall, Or.inr ⟨rfl, pindexBest_setBestChain h⟩⟩

/-- A checkpoint off the main chain is read, and `SetBestChain` is called for its block. -/
theorem connectCheckpoint_cases {io : Io} {p : BlockPtr} {s s' : IndexedNode} {r : Option Unit}
    (hrun : (connectCheckpoint P io p).run s = (r, s')) :
    s.isInMainChain p = true ∧ r = some () ∧ s' = s ∨
      s.isInMainChain p = false ∧ (r = none ∧ s' = s ∨
        ∃ b n' hashInvalid, (io.block (BlockPtr.hash p)).readFromDisk P p = some b ∧
          (setBestChain P io b p).run s.node = (r, n') ∧
          s' = { s with node := n', hashInvalidCheckpoint := hashInvalid }) := by
  unfold connectCheckpoint at hrun
  rw [Step.run_bind_of_some (Step.run_read _ _)] at hrun
  cases hmain : s.isInMainChain p with
  | true =>
    rw [hmain] at hrun
    obtain ⟨rfl, rfl⟩ := Prod.mk.inj hrun
    exact Or.inl ⟨rfl, rfl, rfl⟩
  | false =>
    refine Or.inr ⟨rfl, ?_⟩
    rw [hmain, if_neg Bool.false_ne_true] at hrun
    cases hread : (io.block (BlockPtr.hash p)).readFromDisk P p with
    | none =>
      rw [hread] at hrun
      obtain ⟨rfl, rfl⟩ := Prod.mk.inj hrun
      exact Or.inl ⟨rfl, rfl⟩
    | some b =>
      rw [hread, Step.run_bind_of_some (Step.run_ofOption _ _)] at hrun
      refine Or.inr ⟨b, ((setBestChain P io b p).run s.node).2, ?_⟩
      cases r with
      | none =>
        obtain ⟨s₁, hon, rfl⟩ := Step.run_onFail_eq_none.mp hrun
        obtain ⟨hset, rfl⟩ := Prod.mk.inj hon
        exact ⟨BlockPtr.hash p, rfl, Prod.ext hset rfl, rfl⟩
      | some u =>
        have hon := Step.run_onFail_eq_some.mp hrun
        obtain ⟨hset, rfl⟩ := Prod.mk.inj hon
        exact ⟨s.hashInvalidCheckpoint, rfl, Prod.ext hset rfl, rfl⟩

namespace Synced

variable {c p : BlockPtr} {s : IndexedNode}

theorem connectCheckpoint (hS : files.txs.InjOn P.txHash) (h : Synced tree c s) {io : Io}
    (hio : io.ReadsIndexed files s.mapBlockIndex) (hp : p ∈ tree.entries) (hc : c <:+ p)
    {r : Option Unit} {s' : IndexedNode} (hrun : (connectCheckpoint P io p).run s = (r, s'))
    (hrec : s.isInMainChain p = false → r = some () → PostponedReconnect P files io s.node p) :
    Synced tree c s' ∧ s'.mapBlockIndex = s.mapBlockIndex ∧
      (r = some () → p <:+ s'.node.pindexBest) := by
  rcases connectCheckpoint_cases hrun with ⟨hmain, rfl, rfl⟩ | ⟨hmain, hcase⟩
  · exact ⟨h, rfl, fun _ => (h.isInMainChain_iff hp).mp hmain⟩
  · rcases hcase with ⟨rfl, rfl⟩ | ⟨b, n', hashInvalid, hread, hset, rfl⟩
    · exact ⟨h, rfl, fun hr => nomatch hr⟩
    · obtain ⟨e, q, rfl⟩ := List.exists_cons_of_ne_nil (BlockTree.ne_nil hp)
      have hfrom := hio.readsFrom h.indexed
      have hb := hfrom.readFromDisk hp hread
      obtain ⟨hn', hbest⟩ := h.consistent.setBestChain_run hS hfrom hp hb (hrec hmain) hset
      rcases hbest with ⟨rfl, hbest⟩ | ⟨rfl, hbest⟩
      · exact ⟨⟨h.indexed, hn', h.sync, hbest ▸ h.main⟩, rfl, fun hr => nomatch hr⟩
      · exact ⟨⟨h.indexed, hn', h.sync, hbest ▸ hc⟩, rfl, fun _ => hbest ▸ List.suffix_rfl⟩

theorem writeSyncCheckpoint (h : Synced tree c s) (hp : p ∈ tree.entries)
    (hmain : p <:+ s.node.pindexBest) {ok : Bool} {r : Option Unit} {s' : IndexedNode}
    (hrun : (writeSyncCheckpoint ok (BlockPtr.hash p)).run s = (r, s')) :
    (r = none ∧ Synced tree c s' ∨ r = some () ∧ Synced tree p s') ∧
      s'.mapBlockIndex = s.mapBlockIndex := by
  have hcommit : Consistent tree { s.node with
      txdb := (s.node.txdb.txnBegin.write .hashSyncCheckpoint
        (.hash (BlockPtr.hash p))).txnCommit ok } :=
    h.consistent.of_commit (by simp) (by simp) _ ok
  cases ok with
  | true =>
    obtain ⟨rfl, rfl⟩ := Prod.mk.inj hrun
    exact ⟨Or.inr ⟨rfl, h.indexed, hcommit, (h.indexed _ _).mpr ⟨hp, rfl⟩, hmain⟩, rfl⟩
  | false =>
    obtain ⟨rfl, rfl⟩ := Prod.mk.inj hrun
    exact ⟨Or.inl ⟨rfl, h.indexed, hcommit, h.sync, h.main⟩, rfl⟩

theorem acceptCheckpoint (hS : files.txs.InjOn P.txHash) (h : Synced tree c s) {io : CheckpointIo}
    (hio : io.chain.ReadsIndexed files s.mapBlockIndex) (hp : p ∈ tree.entries) (hc : c <:+ p)
    (hrec : s.isInMainChain p = false → ((Beancash.connectCheckpoint P io.chain p).run s).1 = some () →
      PostponedReconnect P files io.chain s.node p) :
    let s' := ((acceptCheckpoint P io (BlockPtr.hash p) p).run s).2
    ∃ c', c <:+ c' ∧ Synced tree c' s' ∧ s'.mapBlockIndex = s.mapBlockIndex := by
  unfold Beancash.acceptCheckpoint
  rcases h₁ : (Beancash.connectCheckpoint P io.chain p).run s with ⟨_ | u, s₁⟩ <;> rw [h₁] at hrec
  · obtain ⟨hs₁, hmap, _⟩ := h.connectCheckpoint hS hio hp hc h₁ hrec
    rw [Step.run_bind_of_none h₁]
    exact ⟨c, List.suffix_rfl, hs₁, hmap⟩
  · obtain ⟨hs₁, hmap, hmain⟩ := h.connectCheckpoint hS hio hp hc h₁ hrec
    rw [Step.run_bind_of_some h₁]
    rcases h₂ : (Beancash.writeSyncCheckpoint io.txnCommit (BlockPtr.hash p)).run s₁ with
      ⟨_ | u, s₂⟩
    · obtain ⟨hs₂, hmap₂⟩ := hs₁.writeSyncCheckpoint hp (hmain rfl) h₂
      rw [Step.run_bind_of_none h₂]
      have hs₂ := (hs₂.resolve_right fun hr => nomatch hr.1).2
      exact ⟨c, List.suffix_rfl, hs₂, hmap₂.trans hmap⟩
    · obtain ⟨hs₂, hmap₂⟩ := hs₁.writeSyncCheckpoint hp (hmain rfl) h₂
      rw [Step.run_bind_of_some h₂]
      have hs₂ := (hs₂.resolve_left fun hr => nomatch hr.1).2
      exact ⟨p, hc, hs₂.of_eq rfl rfl rfl, hmap₂.trans hmap⟩

theorem drop_pending (h : Synced tree c s) (hpending : s.hashPendingCheckpoint ≠ 0)
    (hp : s.mapBlockIndex s.hashPendingCheckpoint = some p) (hc : ¬(c <:+ p ∧ c ≠ p))
    (io : CheckpointIo) : ∃ hashInvalid, (acceptPendingSyncCheckpoint P io).run s =
      (none, { s with hashPendingCheckpoint := 0, hashInvalidCheckpoint := hashInvalid }) := by
  obtain ⟨hashInvalid, hvalid⟩ := (h.validateSyncCheckpoint_run hp).2 hc
  refine ⟨hashInvalid, ?_⟩
  unfold acceptPendingSyncCheckpoint
  rw [Step.run_bind_of_some (Step.run_read _ _), id_eq,
    Step.run_bind_guard (bne_iff_ne.mpr hpending), hp, Step.run_bind_of_some (Step.run_ofOption _ _)]
  exact Step.run_bind_of_none (Step.run_onFail_eq_none.mpr ⟨_, hvalid, rfl⟩)

theorem acceptPendingSyncCheckpoint (hS : files.txs.InjOn P.txHash) (h : Synced tree c s)
    {io : CheckpointIo} (hio : io.chain.ReadsIndexed files s.mapBlockIndex)
    (hrec : CheckpointReconnects P files io.chain s s.hashPendingCheckpoint) :
    let s' := ((acceptPendingSyncCheckpoint P io).run s).2
    ∃ c', c <:+ c' ∧ Synced tree c' s' ∧ s'.mapBlockIndex = s.mapBlockIndex := by
  by_cases hpending : s.hashPendingCheckpoint = 0
  · refine ⟨c, List.suffix_rfl, ?_⟩
    unfold Beancash.acceptPendingSyncCheckpoint
    rw [Step.run_bind_of_some (Step.run_read _ _), id_eq, hpending]
    exact ⟨h, rfl⟩
  · cases hp : s.mapBlockIndex s.hashPendingCheckpoint with
    | none =>
      refine ⟨c, List.suffix_rfl, ?_⟩
      unfold Beancash.acceptPendingSyncCheckpoint
      rw [Step.run_bind_of_some (Step.run_read _ _), id_eq, hp,
        Step.run_bind_guard (bne_iff_ne.mpr hpending)]
      exact ⟨h, rfl⟩
    | some p =>
      by_cases hc : c <:+ p ∧ c ≠ p
      · obtain ⟨hmem, hhash⟩ := (h.indexed _ p).mp hp
        have hvalid := (h.validateSyncCheckpoint_run hp).1 hc
        have hrun : (Beancash.acceptPendingSyncCheckpoint P io).run s =
            (Beancash.acceptCheckpoint P io (BlockPtr.hash p) p).run s := by
          unfold Beancash.acceptPendingSyncCheckpoint
          rw [Step.run_bind_of_some (Step.run_read _ _), id_eq, hp,
            Step.run_bind_guard (bne_iff_ne.mpr hpending),
            Step.run_bind_of_some (Step.run_ofOption _ _),
            Step.run_bind_of_some (Step.run_onFail_eq_some.mpr hvalid), hhash]
        rw [hrun]
        exact h.acceptCheckpoint hS hio hmem hc.1 fun hmain =>
          hrec p hp hmain (by rw [hvalid])
      · obtain ⟨hashInvalid, hrun⟩ := h.drop_pending (P := P) hpending hp hc io
        rw [hrun]
        exact ⟨c, List.suffix_rfl, h.of_eq rfl rfl rfl, rfl⟩

theorem joins (h : Synced tree c s) {io : AcceptIo} {b : Block} (harr : Arrives P files s io b)
    {pindexPrev : BlockPtr} (hacc : Acceptable P .strict s b pindexPrev) {nFile : FileNumber}
    {nBlockPos : UInt32} (hwrite : io.writeToDisk = some (nFile, nBlockPos)) {hashProof : Uint256}
    {modifier : UInt64 × Bool} :
    tree.Joins (b.toIndex P nFile nBlockPos hashProof modifier.1 modifier.2) pindexPrev b := by
  obtain ⟨hmem, hhash⟩ := (h.indexed _ pindexPrev).mp hacc.prev
  have hlen : BlockPtr.nHeight pindexPrev + 1 = pindexPrev.length := by
    have hpos := List.length_pos_of_ne_nil (BlockTree.ne_nil hmem)
    unfold BlockPtr.nHeight
    omega
  have hwork := hacc.work
  have hbean := hacc.beanbase
  rw [hlen] at hwork hbean
  exact {
    parent := hmem
    fresh := h.indexed.eq_none hacc.fresh
    hash_ne_zero := harr.hash_ne_zero
    nHeight_lt := harr.nHeight_lt _ hacc.prev
    stored := harr.written _ _ hwrite
    hash := rfl
    header := rfl
    hashPrev := hhash.symm
    accepted := ⟨harr.checked, hwork, hbean⟩ }

theorem storeBlock (hP : P.testNet = false) (hS : files.txs.InjOn P.txHash) (h : Synced tree c s)
    {io : AcceptIo} {b : Block} (harr : Arrives P files s io b) {r : Option Unit}
    {s' : IndexedNode} (hrun : (storeBlock P H .strict io b).run s = (r, s'))
    (hio : io.index.chain.ReadsIndexed files s'.mapBlockIndex)
    (hrec : ∀ p, r = some () → s'.mapBlockIndex (b.hash P) = some p →
      PostponedReconnect P files io.index.chain s.node p) :
    ∃ tree' : BlockTree P files, Synced tree' c s' := by
  rcases storeBlock_cases hrun with ⟨rfl, rfl⟩ | ⟨hashProof, nFile, nBlockPos, hcheck, hwrite, hadd⟩
  · exact ⟨tree, h⟩
  rcases addToBlockIndex_cases hadd with ⟨rfl, rfl⟩ | ⟨pindexNew, n', hfresh, hnew, rfl, hcase⟩
  · exact ⟨tree, h⟩
  obtain ⟨pindexPrev, hacc⟩ := acceptBlockChecks_eq_some hcheck
  obtain ⟨modifier, _, rfl⟩ := newBlockIndex_eq_some hnew
  have hprev : s.pprev b = pindexPrev := by
    rw [IndexedNode.pprev, hacc.prev]
    rfl
  rw [hprev] at hio hrec hcase ⊢
  have hjoins : tree.Joins (b.toIndex P nFile nBlockPos hashProof modifier.1 modifier.2)
      pindexPrev b := h.joins harr hacc hwrite
  set e := b.toIndex P nFile nBlockPos hashProof modifier.1 modifier.2 with he
  have hdesc := h.of_checkSync hP hacc.fresh hjoins.parent (hacc.sync rfl)
  -- before `SetBestChain` only the tree has changed
  have hgrown : Consistent (tree.insert hjoins) (s.insertIndex (e :: pindexPrev)).node :=
    (h.consistent.insertIndex hjoins.fresh).mono (Set.subset_insert _ _)
  have hindexed := h.indexed.insert hjoins
  have hsync : Function.update s.mapBlockIndex e.phashBlock (some (e :: pindexPrev))
      s.hashSyncCheckpoint = some c := by
    rw [Function.update_of_ne, h.sync]
    intro heq
    have hnone := hacc.fresh
    rw [show b.hash P = e.phashBlock from rfl, ← heq, h.sync] at hnone
    cases hnone
  refine ⟨tree.insert hjoins, ?_⟩
  rcases hcase with ⟨rfl, rfl⟩ | ⟨rfl, rfl⟩ | ⟨n₁, hwritten, hbest⟩
  · exact ⟨hindexed, hgrown, hsync, h.main⟩
  · exact ⟨hindexed, hgrown.writeIndexEntry _ e pindexPrev, hsync, h.main⟩
  · obtain rfl : _ = n₁ := congrArg Prod.snd hwritten
    have hn₁ := hgrown.writeIndexEntry io.index.txnCommit e pindexPrev
    rcases newBest_cases hbest with ⟨_, rfl, rfl⟩ | ⟨_, hset⟩
    · exact ⟨hindexed, hn₁, hsync, h.main⟩
    · obtain ⟨hn', hbest⟩ := hn₁.setBestChain_run hS (hio.readsFrom hindexed) (Or.inl rfl)
        hjoins.stored (fun hr => hrec _ hr (Function.update_self _ _ _)) hset
      refine ⟨hindexed, hn', hsync, ?_⟩
      change c <:+ n'.pindexBest
      rcases hbest with ⟨_, hbest⟩ | ⟨_, hbest⟩ <;> rw [hbest]
      · exact h.main
      · exact hdesc.trans (List.suffix_cons e pindexPrev)

theorem run_op (hP : P.testNet = false) (hS : files.txs.InjOn P.txHash) (h : Synced tree c s)
    {op : SyncOp} (hreads : op.Reads P H files s) (hrec : op.Reconnects P H files s) :
    ∃ (tree' : BlockTree P files) (c' : BlockPtr), c <:+ c' ∧ Synced tree' c' (op.run P H s) := by
  cases op with
  | block io b =>
    obtain ⟨harr, hio, hio'⟩ := hreads
    obtain ⟨hstore, hpending⟩ := hrec
    simp only [SyncOp.run, acceptBlock]
    rcases hrun : (Beancash.storeBlock P H .strict io b).run s with ⟨_ | u, s₁⟩ <;>
      rw [StoreReconnects, hrun] at hstore <;> rw [hrun] at hio hio' hpending <;>
      obtain ⟨tree', h₁⟩ := h.storeBlock hP hS harr hrun hio hstore
    · rw [Step.run_bind_of_none hrun]
      exact ⟨tree', c, List.suffix_rfl, h₁⟩
    · rw [Step.run_bind_of_some hrun, Step.run_bind_of_some (Step.run_attempt _ _)]
      obtain ⟨c', hc', hs', _⟩ := h₁.acceptPendingSyncCheckpoint hS hio' hpending
      exact ⟨tree', c', hc', hs'⟩
  | pending io =>
    obtain ⟨c', hc', hs', _⟩ := h.acceptPendingSyncCheckpoint hS hreads hrec
    exact ⟨tree, c', hc', hs'⟩
  | process io checkpoint =>
    -- no message is accepted
    exact ⟨tree, c, List.suffix_rfl, h⟩

theorem smoothRun (hP : P.testNet = false) (hS : files.txs.InjOn P.txHash) (h : Synced tree c s)
    {s' : IndexedNode} (hrun : ReflTransGen (SmoothStep P H files) s s') :
    ∃ (tree' : BlockTree P files) (c' : BlockPtr), c <:+ c' ∧ Synced tree' c' s' := by
  induction hrun with
  | refl => exact ⟨tree, c, List.suffix_rfl, h⟩
  | tail _ hstep ih =>
    obtain ⟨tree₁, c₁, hc₁, h₁⟩ := ih
    obtain ⟨op, hreads, hrec, rfl⟩ := hstep
    obtain ⟨tree₂, c₂, hc₂, h₂⟩ := h₁.run_op hP hS hreads hrec
    exact ⟨tree₂, c₂, hc₁.trans hc₂, h₂⟩

end Synced

/-- The block is on the best chain, and on a branch that is connected. -/
def OnMainChain (P : Params) (files : Files) (n : Node) (c : BlockPtr) : Prop :=
  c <:+ n.pindexBest ∧ ∃ p, c <:+ p ∧ OnBranch P files p n

/-- In a run in which every postponed block is reconnected, from a node whose sync-checkpoint is
on the connected chain: in every state the sync-checkpoint names an indexed block of the connected
main chain, later on it is the same or a proper descendant, and the block that it named is still
on the connected main chain. A pending checkpoint that does not descend from it is dropped. -/
theorem syncCheckpoint_connected (hP : P.testNet = false) (hS : files.txs.InjOn P.txHash)
    {c₀ : BlockPtr} {s₀ s s' : IndexedNode} (h₀ : Synced tree c₀ s₀)
    (h : ReflTransGen (SmoothStep P H files) s₀ s)
    (h' : ReflTransGen (SmoothStep P H files) s s') :
    ∃ c c', s.mapBlockIndex s.hashSyncCheckpoint = some c ∧
      s'.mapBlockIndex s'.hashSyncCheckpoint = some c' ∧ OnMainChain P files s.node c ∧
      OnMainChain P files s'.node c' ∧ OnMainChain P files s'.node c ∧ c <:+ c' ∧
      (s'.hashSyncCheckpoint ≠ s.hashSyncCheckpoint → c ≠ c') ∧
      ∀ p io, s.hashPendingCheckpoint ≠ 0 → s.mapBlockIndex s.hashPendingCheckpoint = some p →
        ¬(c <:+ p ∧ c ≠ p) → ∃ hashInvalid, (acceptPendingSyncCheckpoint P io).run s =
          (none, { s with hashPendingCheckpoint := 0, hashInvalidCheckpoint := hashInvalid }) := by
  obtain ⟨tree₁, c, _, hs⟩ := h₀.smoothRun hP hS h
  obtain ⟨tree₂, c', hc, hs'⟩ := hs.smoothRun hP hS h'
  have hmain' := hs'.main
  have hbranch' := hs'.consistent.attached.onBranch
  refine ⟨c, c', hs.sync, hs'.sync, ?_, ?_, ?_, hc, ?_, ?_⟩
  · exact ⟨hs.main, _, hs.main, hs.consistent.attached.onBranch⟩
  · exact ⟨hmain', _, hmain', hbranch'⟩
  · exact ⟨hc.trans hmain', _, hc.trans hmain', hbranch'⟩
  · rintro hne rfl
    exact hne (hs'.hash.symm.trans hs.hash)
  · intro p io hpending hp hnot
    exact hs.drop_pending hpending hp hnot io

theorem OnBranch.readTxIndex_ne_none {n : Node} {p c : BlockPtr} (h : OnBranch P files p n)
    (hc : c <:+ p) {tx : TxPos × Transaction} (htx : tx ∈ chainTxs files c) :
    readTxIndex n.txdb (P.txHash tx.2) ≠ none := by
  rw [h.index]
  have hmem : ledgerTx P tx.1 tx.2 ∈ chainLedger P files p :=
    List.mem_map_of_mem (mem_chainTxs_of_suffix hc htx)
  exact (h.connectable.describes.known _).mpr ⟨_, hmem, rfl⟩

namespace Sample

def mainParams : Params :=
  { params with testNet := false, bnProofOfWorkLimit := setCompact 0x207fffff }

/-- A block a minute after its parent, the one at height `i` of its branch. -/
def timed (i : UInt32) (b : Block) : Block :=
  { b with header := { b.header with nTime := 60 * i } }

/-- Two branches; the last block of the second one pays itself too much. -/
def leftBlock (i : UInt32) : Block :=
  timed i (block i (.ofNat 256 i.toNat) [beanbase i i.toNat [out 1000]])

def rightBlock (i : UInt32) : Block :=
  timed i (block (10 + i) (if i = 1 then 1 else .ofNat 256 (10 + i.toNat))
    [beanbase (10 + i) i.toNat [out (if i = 3 then 100001 else 1000)]])

def syncBlocks : List Block :=
  [leftBlock 1, leftBlock 2, leftBlock 3, rightBlock 1, rightBlock 2, rightBlock 3]

def syncFiles : Files := Sample.files (genesis :: syncBlocks) (by decide +kernel)

def syncIo : Io := io (genesis :: syncBlocks) syncFiles

def acceptIo (b : Block) : AcceptIo where
  checkDiskSpace := true
  writeToDisk := some ((entry b).nFile, (entry b).nBlockPos)
  index := ⟨true, true, syncIo⟩
  pending := ⟨syncIo, true⟩

def origin : BlockIndex := genesis.toIndex mainParams ⟨1, firstFile_ne⟩ 0 1 0 true

/-- A node that knows the genesis block, which is its checkpoint. -/
def syncStart : IndexedNode where
  node := { node with pindexBest := [origin], pindexGenesisBlock := [origin] }
  mapBlockIndex hash := if hash = 1 then some [origin] else none
  setStakeSeen := ∅
  hashSyncCheckpoint := 1
  hashPendingCheckpoint := 0
  hashInvalidCheckpoint := 0

/-- The last hardened checkpoint is one of the second branch. -/
def hardenedParams : Params :=
  { mainParams with
    blockHash := fun header =>
      if header.nNonce = 23 then lastHardened else mainParams.blockHash header }

def hardenedBlock : Block := timed 3 (block 23 13 [beanbase 23 3 [out 1000]])

def hardenedBlocks : List Block := [leftBlock 1, rightBlock 1, rightBlock 2, hardenedBlock]

def hardenedFiles : Files := Sample.files (genesis :: hardenedBlocks) (by decide +kernel)

/-- The disk of a node from which these blocks can be read. -/
def diskOf (P : Params) (blocks : List Block) (files : Files) : Io where
  txnBegin := true
  txnCommit := true
  block hash := { blockIo with
    readBlock := blocks.find? fun b => decide (b.hash P = hash)
    readTx := files.txAt }

/-- The disk on which the transaction of a change of the best chain may not be committed, and from
which the last block may not be read. -/
def hardenedIo (fCommit fReadable : Bool) : Io :=
  { diskOf hardenedParams (if fReadable then genesis :: hardenedBlocks
      else genesis :: hardenedBlocks.dropLast) hardenedFiles with txnCommit := fCommit }

/-- A new node on the main network waits for the last hardened checkpoint. -/
def hardenedStart : IndexedNode :=
  ((resetSyncCheckpoint hardenedParams ⟨hardenedIo true true, true⟩).run syncStart).2

/-- The first branch has one block. That of the second one which has more trust is not committed, and
the checkpoint comes on top of it. -/
def syncOp (fReadable : Bool) (k : ℕ) : SyncOp :=
  let io := hardenedIo (k != 2) fReadable
  let b := hardenedBlocks.getD k hardenedBlock
  .block { acceptIo b with index := ⟨true, true, io⟩, pending := ⟨io, true⟩ } b

def syncNode (fReadable : Bool) : ℕ → IndexedNode
  | 0 => hardenedStart
  | k + 1 => (syncOp fReadable k).run hardenedParams selectionHash (syncNode fReadable k)

def originTree : BlockTree hardenedParams hardenedFiles where
  entries := {[origin]}
  parent h := by cases h
  hash_injOn := Set.injOn_singleton _ _
  hash_ne_zero := by
    rintro _ rfl
    decide +kernel
  genesis := by
    intro e p h
    obtain ⟨rfl, rfl⟩ := List.cons.inj h
    decide +kernel
  nHeight_lt := by
    rintro _ rfl
    decide
  stored := by
    intro e p h
    obtain ⟨rfl, rfl⟩ := List.cons.inj h
    decide +kernel
  linked := by
    intro e p b h hb
    obtain ⟨rfl, rfl⟩ := List.cons.inj h
    obtain rfl : genesis = b := by
      have hgenesis : hardenedFiles.blockOf origin = some genesis := by decide +kernel
      exact Option.some_injective _ (hgenesis.symm.trans hb)
    decide +kernel
  accepted h := by cases h

theorem synced_syncStart : Synced originTree [origin] syncStart where
  indexed hash q := by
    change (if hash = 1 then some [origin] else none) = some q ↔ q = [origin] ∧ _
    split
    · rename_i h
      rw [h, Option.some_inj]
      constructor
      · rintro rfl
        exact ⟨rfl, by decide⟩
      · exact fun hq => hq.1.symm
    · rename_i h
      refine iff_of_false (by simp) ?_
      rintro ⟨rfl, hhash⟩
      exact h (hhash.symm.trans (by decide))
  consistent := ⟨Or.inr rfl, by decide, rfl, ⟨⟨trivial, rfl⟩, rfl, by decide, rfl⟩⟩
  sync := rfl
  main := List.suffix_rfl

theorem mem_of_files {blocks : List Block}
    {hfiles : ∀ b ∈ blocks, (entry b).nBlockPos.toNat + b.serializeSize < 2 ^ 32}
    {nFile : FileNumber} {nBlockPos : UInt32} {b : Block}
    (h : (Sample.files blocks hfiles).block nFile nBlockPos = some b) : b ∈ blocks :=
  List.mem_of_find?_eq_some h

theorem mem_filesTxs {blocks : List Block}
    {hfiles : ∀ b ∈ blocks, (entry b).nBlockPos.toNat + b.serializeSize < 2 ^ 32} {tx : Transaction}
    (h : tx ∈ (Sample.files blocks hfiles).txs) : tx ∈ blocks.flatMap Block.vtx := by
  obtain ⟨nFile, nBlockPos, b, hb, htx⟩ := h
  exact List.mem_flatMap.mpr ⟨b, mem_of_files hb, htx⟩

theorem injOn_filesTxs {blocks : List Block}
    {hfiles : ∀ b ∈ blocks, (entry b).nBlockPos.toNat + b.serializeSize < 2 ^ 32}
    (h : (blocks.flatMap Block.vtx).all (fun tx => (blocks.flatMap Block.vtx).all fun tx' =>
      decide (params.txHash tx = params.txHash tx' → tx = tx')) = true) :
    (Sample.files blocks hfiles).txs.InjOn params.txHash := by
  intro tx htx tx' htx' heq
  exact of_decide_eq_true (List.all_eq_true.mp (List.all_eq_true.mp h tx (mem_filesTxs htx)) tx'
    (mem_filesTxs htx')) heq

theorem injOn_syncFiles : syncFiles.txs.InjOn mainParams.txHash :=
  injOn_filesTxs (by decide)

theorem injOn_hardenedFiles : hardenedFiles.txs.InjOn hardenedParams.txHash :=
  injOn_filesTxs (by decide)

/-- Whether each block that the disk has is where the index says. -/
def indexCheck (P : Params) (blocks : List Block) (files : Files) (mapBlockIndex : MapBlockIndex) :
    Bool :=
  blocks.all fun b => (mapBlockIndex (b.hash P)).all fun p =>
    p.head?.all fun e => decide (files.blockOf e = some b)

theorem readsIndexed_diskOf {blocks : List Block} {files : Files} {mapBlockIndex : MapBlockIndex}
    (h : indexCheck P blocks files mapBlockIndex = true) :
    (diskOf P blocks files).ReadsIndexed files mapBlockIndex where
  readBlock e p b hmap hread := by
    have hb := List.all_eq_true.mp h b (List.mem_of_find?_eq_some hread)
    have hhash := List.find?_some hread
    simp only [decide_eq_true_eq] at hhash
    rw [hhash, hmap] at hb
    exact of_decide_eq_true hb
  readTx _ _ _ htx := htx

theorem readsIndexed_io {blocks : List Block} {files : Files} {mapBlockIndex : MapBlockIndex}
    (h : indexCheck params blocks files mapBlockIndex = true) :
    (io blocks files).ReadsIndexed files mapBlockIndex :=
  readsIndexed_diskOf h

theorem readsIndexed_hardenedIo {mapBlockIndex : MapBlockIndex}
    (h : indexCheck hardenedParams (genesis :: hardenedBlocks) hardenedFiles mapBlockIndex = true)
    (fCommit fReadable : Bool) :
    (hardenedIo fCommit fReadable).ReadsIndexed hardenedFiles mapBlockIndex := by
  have hdisk : (diskOf hardenedParams (if fReadable then genesis :: hardenedBlocks
      else genesis :: hardenedBlocks.dropLast) hardenedFiles).ReadsIndexed hardenedFiles
        mapBlockIndex := by
    refine readsIndexed_diskOf (List.all_eq_true.mpr fun b hb => List.all_eq_true.mp h b ?_)
    cases fReadable with
    | true => exact hb
    | false => exact ((List.dropLast_sublist hardenedBlocks).cons_cons genesis).subset hb
  exact ⟨hdisk.readBlock, hdisk.readTx⟩

theorem synced_hardenedStart : Synced originTree [origin] hardenedStart := by
  have hpending : Synced originTree [origin]
      { syncStart with hashPendingCheckpoint := lastHardened } :=
    synced_syncStart.of_eq rfl rfl rfl
  have hwrite := (@Synced.writeSyncCheckpoint _ _ _ _ _ _ hpending rfl List.suffix_rfl true _ _ rfl).1
  exact (hwrite.resolve_left fun hnone => nomatch hnone.1).2

def arrivesCheck (s : IndexedNode) (b : Block) : Bool :=
  b.checkBlock hardenedParams 0 true true true true && decide (b.hash hardenedParams ≠ 0) &&
    ((s.mapBlockIndex b.header.hashPrevBlock).all fun p => decide (p.length < 2 ^ 31)) &&
    decide (hardenedFiles.blockOf (entry b) = some b)

theorem arrives_of_check {s : IndexedNode} {io : AcceptIo} {b : Block}
    (h : arrivesCheck s b = true)
    (hwrite : io.writeToDisk = some ((entry b).nFile, (entry b).nBlockPos)) :
    Arrives hardenedParams hardenedFiles s io b := by
  simp only [arrivesCheck, Bool.and_eq_true, decide_eq_true_eq] at h
  obtain ⟨⟨⟨hcheck, hne⟩, hlen⟩, hb⟩ := h
  refine ⟨⟨0, hcheck⟩, hne, fun p hp => ?_, fun nFile nBlockPos hpos => ?_⟩
  · rw [hp] at hlen
    exact of_decide_eq_true hlen
  · rw [hwrite] at hpos
    obtain ⟨rfl, rfl⟩ := Prod.mk.inj (Option.some_injective _ hpos)
    exact hb

/-- Whether the blocks that a call for this block postpones reconnect. -/
def reconnectCheck (P : Params) (files : Files) (io : Io) (s : IndexedNode) (p : BlockPtr) : Bool :=
  (BlockPtr.postpone (BlockPtr.nChainTrust s.node.pindexBest) p).2.all
    (reconnects P files io s.node.nBestHeight)

/-- Whether the block arrives as it should and is in the files. -/
def readsCheck (fReadable : Bool) (k : ℕ) : Bool :=
  let s := syncNode fReadable k
  let b := hardenedBlocks.getD k hardenedBlock
  arrivesCheck s b && indexCheck hardenedParams (genesis :: hardenedBlocks) hardenedFiles
    ((storeBlock hardenedParams selectionHash .strict
      { acceptIo b with
        index := ⟨true, true, hardenedIo (k != 2) fReadable⟩
        pending := ⟨hardenedIo (k != 2) fReadable, true⟩ } b).run s).2.mapBlockIndex

theorem reads_syncOp {fReadable : Bool} {k : ℕ} (h : readsCheck fReadable k = true) :
    (syncOp fReadable k).Reads hardenedParams selectionHash hardenedFiles (syncNode fReadable k) := by
  obtain ⟨harr, hindex⟩ := Bool.and_eq_true_iff.mp h
  exact ⟨arrives_of_check harr rfl, readsIndexed_hardenedIo hindex _ _,
    readsIndexed_hardenedIo hindex _ _⟩

def smoothCheck (k : ℕ) : Bool :=
  let s := syncNode true k
  let io := hardenedIo (k != 2) true
  let b := hardenedBlocks.getD k hardenedBlock
  let s' := ((storeBlock hardenedParams selectionHash .strict
    { acceptIo b with index := ⟨true, true, io⟩, pending := ⟨io, true⟩ } b).run s).2
  let check := reconnectCheck hardenedParams hardenedFiles io
  (s'.mapBlockIndex (b.hash hardenedParams)).all (check s) &&
    (s'.mapBlockIndex s'.hashPendingCheckpoint).all (check s')

theorem reconnects_syncOp {k : ℕ} (h : smoothCheck k = true) :
    (syncOp true k).Reconnects hardenedParams selectionHash hardenedFiles (syncNode true k) := by
  obtain ⟨hstore, hpending⟩ := Bool.and_eq_true_iff.mp h
  refine ⟨fun p _ hp => ?_, fun p hp _ _ _ => ?_⟩
  · rw [hp] at hstore
    exact List.all_eq_true.mp hstore
  · rw [hp] at hpending
    exact List.all_eq_true.mp hpending

theorem smoothStep_syncNode {k : ℕ} (h : k < 4) :
    SmoothStep hardenedParams selectionHash hardenedFiles (syncNode true k)
      (syncNode true (k + 1)) := by
  have hcheck : ∀ k < 4, readsCheck true k = true ∧ smoothCheck k = true := by decide +kernel
  exact ⟨syncOp true k, reads_syncOp (hcheck k h).1, reconnects_syncOp (hcheck k h).2, rfl⟩

end Sample

open Sample in
/-- The checkpoint arrives on a branch whose block below it has not become the best one. Both are
connected. -/
theorem syncCheckpoint_connected_syncNode :
    ∃ c c', (syncNode true 3).mapBlockIndex 1 = some c ∧
      (syncNode true 4).mapBlockIndex lastHardened = some c' ∧
      OnMainChain hardenedParams hardenedFiles (syncNode true 4).node c' ∧ c <:+ c' ∧ c ≠ c' := by
  have hstart : ReflTransGen (SmoothStep hardenedParams selectionHash hardenedFiles)
      hardenedStart (syncNode true 3) :=
    ((ReflTransGen.single (smoothStep_syncNode (k := 0) (by decide))).tail
      (smoothStep_syncNode (by decide))).tail (smoothStep_syncNode (by decide))
  obtain ⟨c, c', hc, hc', _, hmain, _, hsuf, hne, _⟩ := syncCheckpoint_connected rfl
    injOn_hardenedFiles synced_hardenedStart hstart (.single (smoothStep_syncNode (by decide)))
  have hhash : (syncNode true 3).hashSyncCheckpoint = 1 ∧
      (syncNode true 4).hashSyncCheckpoint = lastHardened := by
    decide +kernel
  rw [hhash.1] at hc
  rw [hhash.2] at hc'
  rw [hhash.1, hhash.2] at hne
  exact ⟨c, c', hc, hc', hmain, hsuf, hne (by decide)⟩

open Sample in
/-- The checkpoint is postponed and cannot be read when it is its turn. It is the best block all the
same, and with that the sync-checkpoint. -/
theorem syncCheckpoint_unconnected :
    let s := syncNode false 4
    (resetSyncCheckpoint hardenedParams ⟨hardenedIo true true, true⟩).run syncStart =
        (some (), hardenedStart) ∧
      Synced originTree [origin] hardenedStart ∧
      ReflTransGen (SyncStep hardenedParams selectionHash hardenedFiles) hardenedStart s ∧
      s.hashSyncCheckpoint = lastHardened ∧
      s.mapBlockIndex lastHardened = some s.node.pindexBest ∧
      s.node.txdb.pdb .hashBestChain = some (.hash 13) ∧
      ∀ c, s.mapBlockIndex s.hashSyncCheckpoint = some c →
        ¬OnMainChain hardenedParams hardenedFiles s.node c := by
  intro s
  have hbest : s.mapBlockIndex lastHardened = some s.node.pindexBest := by decide +kernel
  have hsync : s.hashSyncCheckpoint = lastHardened := by decide +kernel
  have hreads : ∀ k < 4, readsCheck false k = true := by decide +kernel
  have hstep : ∀ k < 4, SyncStep hardenedParams selectionHash hardenedFiles (syncNode false k)
      (syncNode false (k + 1)) := fun k hk => ⟨syncOp false k, reads_syncOp (hreads k hk), rfl⟩
  refine ⟨rfl, synced_hardenedStart, ?_, hsync, hbest, by decide +kernel, ?_⟩
  · exact (((ReflTransGen.single (hstep 0 (by decide))).tail (hstep 1 (by decide))).tail
      (hstep 2 (by decide))).tail (hstep 3 (by decide))
  rintro c hc ⟨_, p, hsuf, hbranch⟩
  rw [hsync, hbest] at hc
  obtain rfl := Option.some_injective _ hc
  -- the beanbase of the checkpoint is not in the index
  have htx : ∃ tx ∈ chainTxs hardenedFiles s.node.pindexBest,
      readTxIndex s.node.txdb (hardenedParams.txHash tx.2) = none := by decide +kernel
  obtain ⟨tx, htx, hnone⟩ := htx
  exact hbranch.readTxIndex_ne_none hsuf htx hnone

end Beancash
