import Beancash.BestChain

namespace Beancash

open Fallible

/-- The chain and the memory pool are the same in memory. -/
structure SameMemory (n n' : Node) : Prop where
  pnext : n'.pnext = n.pnext
  pindexGenesisBlock : n'.pindexGenesisBlock = n.pindexGenesisBlock
  pindexBest : n'.pindexBest = n.pindexBest
  hashBestChain : n'.hashBestChain = n.hashBestChain
  nBestHeight : n'.nBestHeight = n.nBestHeight
  nBestChainTrust : n'.nBestChainTrust = n.nBestChainTrust
  mempool : n'.mempool = n.mempool

theorem SameMemory.rfl {n : Node} : SameMemory n n := ⟨.refl _, .refl _, .refl _, .refl _, .refl _,
  .refl _, .refl _⟩

theorem SameMemory.trans {a b c : Node} (h : SameMemory a b) (h' : SameMemory b c) :
    SameMemory a c where
  pnext := h'.pnext.trans h.pnext
  pindexGenesisBlock := h'.pindexGenesisBlock.trans h.pindexGenesisBlock
  pindexBest := h'.pindexBest.trans h.pindexBest
  hashBestChain := h'.hashBestChain.trans h.hashBestChain
  nBestHeight := h'.nBestHeight.trans h.nBestHeight
  nBestChainTrust := h'.nBestChainTrust.trans h.nBestChainTrust
  mempool := h'.mempool.trans h.mempool

/-- Within a batch, all changes are in the batch. -/
structure Pending (n n' : Node) : Prop where
  memory : SameMemory n n'
  batch : n.txdb.activeBatch.isSome = true →
    n'.txdb.activeBatch.isSome = true ∧ n'.txdb.pdb = n.txdb.pdb

instance : Std.Refl Pending := ⟨fun _ => ⟨.rfl, fun h => ⟨h, rfl⟩⟩⟩

instance : IsTrans Node Pending where
  trans _ _ _ h h' := ⟨h.memory.trans h'.memory, fun hb =>
    ⟨(h'.batch (h.batch hb).1).1, (h'.batch (h.batch hb).1).2.trans (h.batch hb).2⟩⟩

/-- Nothing of a batch has reached the database. The greatest trust of an invalid chain is
not written by the batch. -/
structure Discarded (n n' : Node) : Prop where
  memory : SameMemory n n'
  pdb : n.txdb.activeBatch.isSome = true →
    ∀ k, k ≠ .bnBestInvalidTrust → n'.txdb.pdb k = n.txdb.pdb k

theorem Pending.discarded {n n' : Node} (h : Pending n n') : Discarded n n' :=
  ⟨h.memory, fun hb _ _ => congrFun (h.batch hb).2 _⟩

theorem Pending.trans_discarded {a b c : Node} (h : Pending a b) (h' : Discarded b c) :
    Discarded a c where
  memory := h.memory.trans h'.memory
  pdb hb k hk := (h'.pdb (h.batch hb).1 k hk).trans (congrFun (h.batch hb).2 k)

theorem pending_perform (n : Node) (op : KeyValue.WriteOp DbKey DbValue) :
    Pending n { n with txdb := n.txdb.perform op } :=
  ⟨⟨rfl, rfl, rfl, rfl, rfl, rfl, rfl⟩, fun hb =>
    ⟨(TxDB.pdb_perform hb op).2, (TxDB.pdb_perform hb op).1⟩⟩

theorem pending_writeBlockIndex (n : Node) (pindex : BlockPtr) (hashNext : Uint256) :
    Pending n (n.writeBlockIndex pindex hashNext) := by
  cases pindex with
  | nil => exact Std.Refl.refl n
  | cons e p => exact pending_perform n _

theorem pending_writeQueuedChanges (n : Node) (queue : QueuedChanges) :
    Pending n (n.writeQueuedChanges queue) := by
  unfold Node.writeQueuedChanges
  generalize queue.entries = changes
  induction changes generalizing n with
  | nil => exact Std.Refl.refl n
  | cons change changes ih =>
    exact Trans.trans (pending_perform n (.put (.tx change.1) (.txIndex change.2))) (ih _)

theorem pending_of_txdb_eq {n n' : Node} (h : SameMemory n n') (hdb : n'.txdb = n.txdb) :
    Pending n n' := ⟨h, fun hb => ⟨by rw [hdb]; exact hb, by rw [hdb]⟩⟩

theorem pending_syncWithWallets (P : Params) (n : Node) (b : Block)
    (fUpdate fConnect fWritten : Bool) :
    Pending n (n.syncWithWallets P b fUpdate fConnect fWritten) :=
  pending_of_txdb_eq ⟨rfl, rfl, rfl, rfl, rfl, rfl, rfl⟩ rfl

theorem keeps_connectBlock (P : Params) (io : BlockIo) (b : Block) (fJustCheck : Bool)
    (pindex : BlockPtr) : Step.Keeps Pending (connectBlock P io b fJustCheck pindex) := by
  cases pindex with
  | nil => exact Step.keeps_fail
  | cons pindex pprev =>
    unfold connectBlock
    refine (Step.keeps_read _).bind fun v => (Step.keeps_ofOption _).bind fun s => ?_
    refine (Step.keeps_modify fun n => ?_).bind fun _ => ?_
    · exact pending_of_txdb_eq ⟨rfl, rfl, rfl, rfl, rfl, rfl, rfl⟩ rfl
    refine (Step.keeps_modify fun n => pending_writeBlockIndex n _ _).bind fun _ => ?_
    cases fJustCheck with
    | true => exact Step.keeps_pure ()
    | false =>
      refine (Step.keeps_modify fun n => pending_writeQueuedChanges n _).bind fun _ => ?_
      refine (Step.keeps_modify fun n => pending_writeBlockIndex n _ _).bind fun _ => ?_
      exact Step.keeps_modify fun n => pending_syncWithWallets P n b _ _ _

theorem keeps_disconnectInputs (P : Params) (tx : Transaction) :
    Step.Keeps Pending (disconnectInputs P tx) := by
  unfold disconnectInputs
  refine (Step.Keeps.forEach fun prevout _ => ?_).bind fun _ =>
    Step.keeps_modify fun n => pending_perform n (.delete (.tx (P.txHash tx)))
  unfold disconnectInput
  refine (Step.keeps_read _).bind fun _ => (Step.keeps_ofOption _).bind fun txindex => ?_
  exact (Step.keeps_guard _).bind fun _ => Step.keeps_modify fun n => pending_perform n
    (.put (.tx prevout.hash) (.txIndex (txindex.mark prevout.n.toNat none)))

theorem keeps_disconnectBlock (P : Params) (io : BlockIo) (b : Block) (pindex : BlockPtr) :
    Step.Keeps Pending (disconnectBlock P io b pindex) := by
  unfold disconnectBlock
  refine (Step.Keeps.forEach fun tx _ => keeps_disconnectInputs P tx).bind fun _ => ?_
  refine (Step.keeps_modify fun n => pending_writeBlockIndex n _ _).bind fun _ => ?_
  exact Step.keeps_modify fun n => pending_syncWithWallets P n b _ _ _

theorem keeps_disconnectOld (P : Params) (io : Io) (pindex : BlockPtr) :
    Step.Keeps Pending (disconnectOld P io pindex) := by
  unfold disconnectOld
  exact (Step.keeps_ofOption _).bind fun b =>
    (keeps_disconnectBlock P _ b pindex).bind fun _ => Step.keeps_pure _

theorem keeps_connectNew (P : Params) (io : Io) (pindex : BlockPtr) :
    Step.Keeps Pending (connectNew P io pindex) := by
  unfold connectNew
  exact (Step.keeps_ofOption _).bind fun b =>
    (keeps_connectBlock P _ b false pindex).bind fun _ => Step.keeps_pure _

theorem keeps_writeHashBestChain (hash : Uint256) :
    Step.Keeps Pending (Step.modify fun n => Node.writeHashBestChain n hash) :=
  Step.keeps_modify fun n => pending_perform n (.put .hashBestChain (.hash hash))

theorem failKeeps_txnCommit (ok : Bool) : Step.FailKeeps Discarded (txnCommit ok) := by
  intro n n' h
  cases ok with
  | true => cases h
  | false =>
    obtain rfl : { n with txdb := n.txdb.txnCommit false } = n' := congrArg Prod.snd h
    exact ⟨⟨rfl, rfl, rfl, rfl, rfl, rfl, rfl⟩, fun _ k _ =>
      congrFun (TxDB.pdb_txnCommit_false n.txdb) k⟩

theorem Discarded.abort {a b : Node} (h : Discarded a b) (pindexNew : BlockPtr) :
    Discarded a (b.txnAbort.invalidChainFound pindexNew) := by
  simp only [Node.invalidChainFound]
  split
  · refine ⟨h.memory.trans ⟨rfl, rfl, rfl, rfl, rfl, rfl, rfl⟩, fun hb k hk => ?_⟩
    exact (Function.update_of_ne hk _ _).trans (h.pdb hb k hk)
  · exact ⟨h.memory.trans ⟨rfl, rfl, rfl, rfl, rfl, rfl, rfl⟩, h.pdb⟩

theorem failKeeps_of_pending {α : Type} {x : Step Node α} (hx : Step.Keeps Pending x) :
    Step.FailKeeps Discarded x := fun n n' h => (hx.failKeeps n n' h).discarded

theorem failKeeps_bind {α β : Type} {x : Step Node α} {f : α → Step Node β}
    (hx : Step.Keeps Pending x) (hf : ∀ a, Step.FailKeeps Discarded (f a)) :
    Step.FailKeeps Discarded (x >>= f) :=
  (failKeeps_of_pending hx).bind hx.returnKeeps Pending.trans_discarded hf

theorem failKeeps_reorganize (P : Params) (io : Io) (pindexNew : BlockPtr) :
    Step.FailKeeps Discarded (reorganize P io pindexNew) := by
  unfold reorganize
  refine failKeeps_bind (Step.keeps_read _) fun pindexBest => ?_
  refine failKeeps_bind (Step.keeps_ofOption _) fun pfork => ?_
  -- what follows the commit cannot fail
  refine Step.FailKeeps.bind_total ?_ fun _ => Step.total_modify _
  unfold reorganizeDb
  refine failKeeps_bind (Step.Keeps.collect fun pindex _ => keeps_disconnectOld P io pindex)
    fun _ => ?_
  refine failKeeps_bind (Step.Keeps.collect fun pindex _ => keeps_connectNew P io pindex)
    fun _ => ?_
  refine failKeeps_bind (keeps_writeHashBestChain (BlockPtr.hash pindexNew)) fun _ => ?_
  exact (failKeeps_txnCommit io.txnCommit).bind_total fun _ _ => rfl

theorem failKeeps_setBestChainInner (P : Params) (io : BlockIo) (b : Block)
    (pindexNew : BlockPtr) : Step.FailKeeps Discarded (setBestChainInner P io b pindexNew) := by
  have hconnect : Step.Keeps Pending (do
      connectBlock P io b false pindexNew
      Step.modify fun n => n.writeHashBestChain (b.hash P)) :=
    (keeps_connectBlock P io b false pindexNew).bind fun _ => keeps_writeHashBestChain (b.hash P)
  unfold setBestChainInner
  refine ((failKeeps_of_pending hconnect).onFail fun h => h.abort pindexNew).bind
    (hconnect.returnKeeps.onFail _) Pending.trans_discarded fun _ => ?_
  refine (failKeeps_txnCommit io.txnCommit).bind_total fun _ => ?_
  exact (Step.total_modify _).bind fun _ => Step.total_modify _

theorem failKeeps_setGenesis (io : Io) (hash : Uint256) (pindexNew : BlockPtr) :
    Step.FailKeeps Discarded (setGenesis io hash pindexNew) := by
  unfold setGenesis
  refine failKeeps_bind (keeps_writeHashBestChain hash) fun _ => ?_
  exact (failKeeps_txnCommit io.txnCommit).bind_total fun _ => Step.total_modify _

theorem failKeeps_switchBranch (P : Params) (io : Io) (pindexNew pindexBest : BlockPtr) :
    Step.FailKeeps Discarded (switchBranch P io pindexNew pindexBest) := by
  unfold switchBranch
  exact ((failKeeps_reorganize P io _).onFail fun h => h.abort pindexNew).bind_total fun _ =>
    Step.total_forEachWhile _ _

theorem failKeeps_attach (P : Params) (io : Io) (b : Block) (pindexNew : BlockPtr) (n : Node) :
    Step.FailKeeps Discarded (attach P io b pindexNew n) := by
  unfold attach
  split
  · exact failKeeps_setGenesis io _ pindexNew
  · split
    · exact failKeeps_setBestChainInner P _ b pindexNew
    · exact failKeeps_switchBranch P io pindexNew _

theorem sameMemory_txnBegin (n : Node) : SameMemory n n.txnBegin :=
  ⟨rfl, rfl, rfl, rfl, rfl, rfl, rfl⟩

/-- A call of `SetBestChain` that fails has not begun, or all it has done is thrown away. -/
theorem discarded_setBestChain {P : Params} {io : Io} {b : Block} {pindexNew : BlockPtr}
    {n n' : Node} (h : (setBestChain P io b pindexNew).run n = (none, n')) :
    n' = n ∨ Discarded n.txnBegin n' := by
  unfold setBestChain at h
  rcases Step.run_bind_eq_none.mp h with hbegin | ⟨_, n₁, hbegin, h⟩
  · exact Or.inl (congrArg Prod.snd hbegin).symm
  · obtain rfl : n = n₁ := congrArg Prod.snd hbegin
    have htotal : Step.FailKeeps Discarded (do
        let n ← Step.read id
        attach P io b pindexNew n
        Step.modify fun n => n.setBest (b.hash P) pindexNew) :=
      failKeeps_bind (Step.keeps_read id) fun n =>
        (failKeeps_attach P io b pindexNew n).bind_total fun _ => Step.total_modify _
    rw [Step.run_bind_of_some (Step.run_modify _ _)] at h
    exact Or.inr (htotal _ _ h)

/-- A call of `SetBestChain` that returns false, for whatever reason and at whatever point
of a reorganisation, leaves the committed database (but for the greatest trust of an invalid
chain), the chain in memory and the memory pool as they were. -/
theorem setBestChain_failed {P : Params} {io : Io} {b : Block} {pindexNew : BlockPtr} {n n' : Node}
    (h : (setBestChain P io b pindexNew).run n = (none, n')) :
    SameMemory n n' ∧ ∀ k, k ≠ .bnBestInvalidTrust → n'.txdb.pdb k = n.txdb.pdb k := by
  rcases discarded_setBestChain h with rfl | hd
  · exact ⟨.rfl, fun _ _ => rfl⟩
  · exact ⟨(sameMemory_txnBegin n).trans hd.memory, hd.pdb rfl⟩

namespace Sample

/-- A branch beside `first`, the second block of which pays too much. -/
def rival : Block := block 4 1 [beanbase 4 1 [⟨1000 * bean, [0x52]⟩]]

def greedy : Block := block 5 (rival.hash params) [beanbase 5 2 [out 100001]]

def rivalIo : Io where
  txnBegin := true
  txnCommit := true
  block hash := { blockIo with
    readBlock := [genesis, first, rival, greedy].find? fun b => decide (b.hash params = hash) }

/-- A node on the branch of `first`. -/
def firstNode : Node :=
  ((setBestChain params rivalIo first [entry first, entry genesis]).run node).2

end Sample

open Sample in
/-- `first` is disconnected and `rival` connected before `greedy` fails. -/
theorem setBestChain_failed_overpaid :
    let x := setBestChain params rivalIo greedy [entry greedy, entry rival, entry genesis]
    (x.run firstNode).1 = none ∧ firstNode.pindexBest = [entry first, entry genesis] ∧
      SameMemory firstNode (x.run firstNode).2 ∧
      ∀ k, k ≠ .bnBestInvalidTrust → (x.run firstNode).2.txdb.pdb k = firstNode.txdb.pdb k := by
  intro x
  have hrun : (x.run firstNode).1 = none ∧ firstNode.pindexBest = [entry first, entry genesis] := by
    decide +kernel
  exact ⟨hrun.1, hrun.2, setBestChain_failed (Prod.ext hrun.1 rfl)⟩

end Beancash
