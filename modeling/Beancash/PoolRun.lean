import Beancash.PoolConflicts

namespace Beancash

open Fallible Ledger

variable {P : Params} {files : Files} {tree : BlockTree P files}

/-- Outside of `Reorganize` all inputs are checked, against the database of the node. -/
def PoolOp.Reads (n : Node) : PoolOp → Prop
  | accept v _ fCheckInputs => fCheckInputs = true ∧ v.inputs.readTxIndex = readTxIndex n.txdb
  | _ => True

/-- `PoolRun tree S n`: a run has led to the node `n` in which every block that was attached by
`SetBestChainInner` was harmless, and every postponed one was attached. -/
inductive PoolRun (tree : BlockTree P files) (S : Set Transaction) : Node → Prop
  | start {n} : Consistent tree n → n.pindexBest.length ≤ 1 → n.mempool = .empty →
      PoolRun tree S n
  | pool {op : PoolOp} {n} : PoolRun tree S n → op.Within S → op.Reads n →
      PoolRun tree S { n with mempool := op.run P n.mempool }
  | setBestChain {io e p b n n'} : PoolRun tree S n → io.ReadsFrom tree → e :: p ∈ tree.entries →
      files.blockOf e = some b → (setBestChain P io b (e :: p)).run n = (some (), n') →
      (∀ c ∈ (BlockPtr.postpone (BlockPtr.nChainTrust n.pindexBest) (e :: p)).2,
        reconnects P files io n.nBestHeight c = true) →
      Harmless P files (innerWork P files n (e :: p)).1 (innerWork P files n (e :: p)).2 →
      PoolRun tree S n'
  | failed {io b pindexNew n n'} : PoolRun tree S n →
      (setBestChain P io b pindexNew).run n = (none, n') → PoolRun tree S n'
  /-- anything else that concerns neither the chain nor the pool -/
  | other {n n'} : PoolRun tree S n → SameMemory n n' → n'.txdb.activeBatch = none →
      readTxIndex n'.txdb = readTxIndex n.txdb →
      n'.txdb.pdb .hashBestChain = n.txdb.pdb .hashBestChain → PoolRun tree S n'

/-- A node of which the pool is clear of the best chain. -/
structure PoolState (tree : BlockTree P files) (S : Set Transaction) (n : Node) : Prop where
  consistent : Consistent tree n
  wellFormed : n.mempool.WellFormed P S
  clear : n.mempool.Clear P (chainVtx files n.pindexBest)

section

variable {S : Set Transaction}

theorem PoolState.run {n : Node} (h : PoolState tree S n) (hS : HashFree P S) {op : PoolOp}
    (hop : op.Within S) (hreads : op.Reads n) :
    PoolState tree S { n with mempool := op.run P n.mempool } := by
  have hn := h.consistent
  refine ⟨⟨hn.best, hn.hashBestChain, hn.pindexGenesisBlock, ⟨⟨hn.attached.onBranch.connectable,
    hn.attached.onBranch.index⟩, hn.attached.activeBatch, hn.attached.bestKey,
    hn.attached.pnext⟩⟩, PoolOp.wellFormed_run hS h.wellFormed hop, ?_⟩
  cases op with
  | accept v tx fCheckInputs =>
    obtain ⟨rfl, hix⟩ := hreads
    have hdesc := hn.attached.onBranch.connectable.describes
    rw [← hn.attached.onBranch.index, ← hix] at hdesc
    exact h.clear.accept hdesc tx
  | remove tx fRecursive =>
    obtain ⟨R, hR, _⟩ := h.wellFormed.exists_removes_remove hS hop fRecursive
    exact h.clear.mono fun u hu => (hR.contains_iff.mp hu).1
  | removeConflicts tx =>
    obtain ⟨R, hR, _⟩ := h.wellFormed.exists_removes_removeConflicts hS tx
    exact h.clear.mono fun u hu => (hR.contains_iff.mp hu).1
  | clear =>
    intro u hu
    simp [PoolOp.run, TxMemPool.clear, TxMemPool.Contains, TxMemPool.empty] at hu

theorem PoolRun.poolState (hS : HashFree P S) (hsub : tree.txs ⊆ S) {n : Node}
    (h : PoolRun tree S n) : PoolState tree S n := by
  induction h with
  | @start n hn hlen hempty =>
    refine ⟨hn, hempty ▸ TxMemPool.wellFormed_empty P S, fun u hu => ?_⟩
    rw [hempty] at hu
    simp [TxMemPool.Contains, TxMemPool.empty] at hu
  | pool _ hop hreads ih => exact ih.run hS hop hreads
  | @setBestChain io e p b n n' _ hio he hb hrun hall hharmless ih =>
    have hnew : tree.BringsNewTxids := BlockTree.bringsNewTxids_of_injOn (hS.injOn.mono hsub)
    obtain ⟨hw, hiff⟩ := setBestChain_clear_iff hS hsub hio he hb ih.consistent ih.wellFormed
      ih.clear hall hrun
    obtain ⟨n₁, _, rfl, hgenesis, q, _, _, hatt, hq⟩ :=
      setBestChain_eq_some hnew hio he hb ih.consistent hrun
    obtain rfl := hq.mpr (List.all_eq_true.mpr hall)
    exact ⟨hatt.consistent he hb hgenesis, hw, hiff.mpr hharmless⟩
  | @failed io b pindexNew n n' _ hrun ih =>
    have hmem : SameMemory n n' := by
      rcases discarded_setBestChain hrun with rfl | hd
      · exact .rfl
      · exact (sameMemory_txnBegin n).trans hd.memory
    refine ⟨ih.consistent.of_failed hrun, ?_, ?_⟩
    · rw [hmem.mempool]
      exact ih.wellFormed
    · rw [hmem.mempool, hmem.pindexBest]
      exact ih.clear
  | other _ hmem hbatch hindex hkey ih =>
    refine ⟨ih.consistent.of_sameMemory hmem hbatch hindex hkey, ?_, ?_⟩
    · rw [hmem.mempool]
      exact ih.wellFormed
    · rw [hmem.mempool, hmem.pindexBest]
      exact ih.clear

/-- In every state that a run reaches, no transaction of the pool spends what a transaction of the
best chain spends, and after the next call of `SetBestChain` this is so exactly if the blocks that
`SetBestChainInner` attaches in it are harmless. -/
theorem memPool_clear (hS : HashFree P S) (hsub : tree.txs ⊆ S) {n : Node}
    (h : PoolRun tree S n) :
    (∀ u, n.mempool.Contains P u → ∀ tx ∈ chainVtx files n.pindexBest,
      ∀ o ∈ tx.spends, o ∉ u.prevouts) ∧
    ∀ {io : Io} {e : BlockIndex} {p : BlockPtr} {b : Block} {n' : Node}, io.ReadsFrom tree →
      e :: p ∈ tree.entries → files.blockOf e = some b →
      (setBestChain P io b (e :: p)).run n = (some (), n') →
      (∀ c ∈ (BlockPtr.postpone (BlockPtr.nChainTrust n.pindexBest) (e :: p)).2,
        reconnects P files io n.nBestHeight c = true) →
      ((∀ u, n'.mempool.Contains P u → ∀ tx ∈ chainVtx files n'.pindexBest,
        ∀ o ∈ tx.spends, o ∉ u.prevouts) ↔
      Harmless P files (innerWork P files n (e :: p)).1 (innerWork P files n (e :: p)).2) := by
  have hn := h.poolState hS hsub
  refine ⟨hn.clear, fun hio he hb hrun hall => ?_⟩
  have hnew : tree.BringsNewTxids := BlockTree.bringsNewTxids_of_injOn (hS.injOn.mono hsub)
  obtain ⟨_, hiff⟩ := setBestChain_clear_iff hS hsub hio he hb hn.consistent hn.wellFormed hn.clear
    hall hrun
  obtain ⟨n₁, _, rfl, _⟩ := setBestChain_eq_some hnew hio he hb hn.consistent hrun
  exact hiff

end

namespace Sample

def chainIo : Io := io ((List.range 13).map longBlock) longFiles

/-- The node after `SetBestChain` has been called for the blocks up to a height. -/
def chainNode : ℕ → Node
  | 0 => node
  | nHeight + 1 => ((setBestChain params chainIo (longBlock (nHeight + 1))
      (longPtr (nHeight + 1))).run (chainNode nHeight)).2

/-- It spends the reward of the first block, as `split` does in the block `minting`. -/
def rivalSpend : Transaction := spend 40 [⟨2, 0⟩] [out 90000]

def view (n : Node) : AcceptView where
  inputs := n.inputView longIo
  containsTx hash := n.txdb.contains (.tx hash)
  pindexBest := n.pindexBest
  freeLimited := false

/-- The node after eleven blocks, with `rivalSpend` in the pool. -/
def poolNode : Node :=
  let n := chainNode 11
  { n with mempool := (PoolOp.accept (view n) rivalSpend true).run params n.mempool }

def poolTxs : List Transaction :=
  rivalSpend :: ((List.range 13).map longBlock).flatMap Block.vtx

theorem hashFree_poolTxs : HashFree params {tx | tx ∈ poolTxs} := by
  have hinj : poolTxs.all (fun tx => poolTxs.all fun tx' =>
    decide (params.txHash tx = params.txHash tx' → tx = tx')) = true := by decide +kernel
  have hlt : poolTxs.all (fun tx => poolTxs.all fun tx' => decide ((∃ o ∈ tx'.prevouts,
    o.hash = params.txHash tx ∧ o.n.toNat < tx.vout.length) →
      tx.nLockTime.toNat < tx'.nLockTime.toNat)) = true := by decide +kernel
  simp only [List.all_eq_true, decide_eq_true_eq] at hinj hlt
  exact .of_lt (fun tx => tx.nLockTime.toNat) (fun tx htx tx' htx' => hinj tx htx tx' htx') hlt

theorem txs_subset_poolTxs : longTree.txs ⊆ {tx | tx ∈ poolTxs} :=
  fun _ htx => List.mem_cons_of_mem _ (mem_vtx_of_mem_txs htx)

theorem readsFrom_chainIo : chainIo.ReadsFrom longTree := readsFrom_io (by decide +kernel)

theorem chainRun {nHeight : ℕ} (h : nHeight < 12) :
    PoolRun longTree {tx | tx ∈ poolTxs} (chainNode nHeight) := by
  have hrun : ∀ nHeight < 11, ((setBestChain params chainIo (longBlock (nHeight + 1))
      (longPtr (nHeight + 1))).run (chainNode nHeight)).1 = some () := by decide +kernel
  have hstate : ∀ nHeight < 11, (chainNode nHeight).pindexBest = longPtr nHeight ∧
      (chainNode nHeight).mempool.mapTx.entries = [] := by decide +kernel
  have hstored : ∀ nHeight < 13, longFiles.blockOf (entry (longBlock nHeight)) =
      some (longBlock nHeight) := by decide +kernel
  have hmem : ∀ nHeight < 13, longPtr nHeight ∈ longTree.entries := fun nHeight h =>
    List.mem_map_of_mem (List.mem_range.mpr h)
  induction nHeight with
  | zero =>
    refine .start ⟨Or.inr (hmem 0 (by decide)), rfl, rfl, ⟨trivial, rfl⟩, rfl, rfl, rfl⟩ ?_ rfl
    decide
  | succ nHeight ih =>
    obtain ⟨hbest, hempty⟩ := hstate nHeight (by omega)
    have hpostpone : (BlockPtr.postpone (BlockPtr.nChainTrust (chainNode nHeight).pindexBest)
        (longPtr (nHeight + 1))).2 = [] := by
      rw [hbest]
      cases nHeight with
      | zero => rfl
      | succ nHeight =>
        simp only [longPtr, BlockPtr.postpone, if_neg (BitVec.lt_irrefl _)]
    have hne : (chainNode nHeight).pindexBest ≠ [] := by
      rw [hbest]
      cases nHeight <;> simp [longPtr]
    have hwork := @innerWork_of_pprev params longFiles _ _ hne
      (show BlockPtr.pprev (longPtr (nHeight + 1)) = _ from hbest.symm)
    refine .setBestChain (ih (by omega)) readsFrom_chainIo (hmem (nHeight + 1) (by omega))
      (hstored (nHeight + 1) (by omega)) (Prod.ext (hrun nHeight (by omega)) rfl) ?_ fun u hu => ?_
    · intro c hc
      change c ∈ (BlockPtr.postpone _ (longPtr (nHeight + 1))).2 at hc
      rw [hpostpone] at hc
      cases hc
    · change (innerWork params longFiles (chainNode nHeight) (longPtr (nHeight + 1))).1.Contains _ _
        at hu
      rw [hwork, TxMemPool.Contains, AList.lookup, hempty] at hu
      cases hu

theorem poolRun : PoolRun longTree {tx | tx ∈ poolTxs} poolNode := by
  have hop : (PoolOp.accept (view (chainNode 11)) rivalSpend true).Within {tx | tx ∈ poolTxs} :=
    List.mem_cons_self
  exact .pool (chainRun (by decide)) hop ⟨rfl, rfl⟩

end Sample

open Sample in
/-- The inputs of `rivalSpend` have been checked when it was accepted. -/
theorem memPool_clear_rivalSpend :
    poolNode.mempool.Contains params rivalSpend ∧
      ∀ tx ∈ chainVtx longFiles poolNode.pindexBest, ∀ o ∈ tx.spends, o ∉ rivalSpend.prevouts := by
  have hmem : poolNode.mempool.Contains params rivalSpend := by
    unfold TxMemPool.Contains
    decide +kernel
  exact ⟨hmem, (memPool_clear hashFree_poolTxs txs_subset_poolTxs poolRun).1 rivalSpend hmem⟩

open Sample in
/-- The block `minting` extends the chain and spends the same output in `split`, but `rivalSpend`
stays in the pool. -/
theorem memPool_conflict_minting :
    let x := setBestChain params chainIo minting (longPtr 12)
    PoolRun longTree {tx | tx ∈ poolTxs} poolNode ∧ (x.run poolNode).1 = some () ∧
      (x.run poolNode).2.pindexBest = longPtr 12 ∧
      (x.run poolNode).2.mempool.Contains params rivalSpend ∧
      split ∈ chainVtx longFiles (x.run poolNode).2.pindexBest ∧ ⟨2, 0⟩ ∈ split.spends ∧
      ⟨2, 0⟩ ∈ rivalSpend.prevouts := by
  intro x
  have hbest : (x.run poolNode).2.pindexBest = longPtr 12 := by decide +kernel
  have hmem : (x.run poolNode).2.mempool.Contains params rivalSpend := by
    unfold TxMemPool.Contains
    decide +kernel
  refine ⟨poolRun, by decide +kernel, hbest, hmem, ?_, by decide +kernel, by decide +kernel⟩
  rw [hbest]
  decide +kernel

end Beancash
