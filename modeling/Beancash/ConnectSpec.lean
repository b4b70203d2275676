import Beancash.BlockLedger

namespace Beancash

open Fallible Ledger

theorem readTxIndex_eq_view (db : ChainDB) (hash : Uint256) :
    readTxIndex db hash = (db.view (.tx hash)).bind asTxIndex := by
  rw [readTxIndex, TxDB.read_eq_view]

theorem readTxIndex_write_tx (db : ChainDB) (hash : Uint256) (r : TxIndex) :
    readTxIndex (db.write (.tx hash) (.txIndex r)) =
      Function.update (readTxIndex db) hash (some r) := by
  funext h
  rw [readTxIndex_eq_view, TxDB.view_write]
  by_cases he : h = hash
  · subst he
    simp [asTxIndex]
  · rw [Function.update_of_ne (by simpa using he), Function.update_of_ne he, readTxIndex_eq_view]

theorem readTxIndex_write_other (db : ChainDB) {k : DbKey} (hk : ∀ hash, k ≠ .tx hash)
    (v : DbValue) : readTxIndex (db.write k v) = readTxIndex db := by
  funext h
  rw [readTxIndex_eq_view, TxDB.view_write, Function.update_of_ne (hk h).symm, readTxIndex_eq_view]

theorem readTxIndex_erase_tx (db : ChainDB) (hash : Uint256) :
    readTxIndex (db.erase (.tx hash)) = Function.update (readTxIndex db) hash none := by
  funext h
  rw [readTxIndex_eq_view, TxDB.view_erase]
  by_cases he : h = hash
  · subst he
    simp
  · rw [Function.update_of_ne (by simpa using he), Function.update_of_ne he, readTxIndex_eq_view]

theorem readTxIndex_writeBlockIndex (n : Node) (pindex : BlockPtr) (hashNext : Uint256) :
    readTxIndex (n.writeBlockIndex pindex hashNext).txdb = readTxIndex n.txdb := by
  cases pindex with
  | nil => rfl
  | cons e p => exact readTxIndex_write_other _ (fun _ h => by cases h) _

theorem readTxIndex_writeHashBestChain (n : Node) (hash : Uint256) :
    readTxIndex (n.writeHashBestChain hash).txdb = readTxIndex n.txdb :=
  readTxIndex_write_other _ (fun _ h => by cases h) _

theorem readTxIndex_writeQueuedChanges (n : Node) (queue : QueuedChanges) :
    readTxIndex (n.writeQueuedChanges queue).txdb = effective (readTxIndex n.txdb) queue := by
  have hfold : ∀ changes : List (Sigma fun _ : Uint256 => TxIndex), changes.NodupKeys →
      ∀ (n : Node) (h : Uint256),
      readTxIndex (changes.foldl (fun n change => n.updateTxIndex change.1 change.2) n).txdb h =
        (changes.dlookup h).orElse fun _ => readTxIndex n.txdb h := by
    intro changes
    induction changes with
    | nil => exact fun _ n h => rfl
    | cons change changes ih =>
      obtain ⟨hash, r⟩ := change
      intro hnd n h
      obtain ⟨hno, hnd⟩ := List.nodupKeys_cons.mp hnd
      rw [List.foldl_cons, ih hnd, Node.updateTxIndex, readTxIndex_write_tx]
      by_cases he : h = hash
      · subst he
        rw [List.dlookup_eq_none.mpr hno, List.dlookup_cons_eq]
        simp
      · rw [List.dlookup_cons_ne changes (⟨hash, r⟩ : Sigma fun _ : Uint256 => TxIndex) he,
          Function.update_of_ne he]
  exact funext (hfold queue.entries queue.nodupKeys n)

/-- The node after a block has been connected. -/
def Node.connected (P : Params) (io : BlockIo) (b : Block) (pindex : BlockIndex) (pprev : BlockPtr)
    (s : ConnectState) (n : Node) : Node :=
  let n := n.trackMint pindex pprev s
  let n := n.writeBlockIndex (pindex :: pprev) (BlockPtr.hash (n.pnext pindex.phashBlock))
  let n := n.writeQueuedChanges s.mapQueuedChanges
  let n := n.writeBlockIndex pprev pindex.phashBlock
  n.syncWithWallets P b true true io.writeToDisk

theorem run_connectBlock (P : Params) (io : BlockIo) (b : Block) (pindex : BlockIndex)
    (pprev : BlockPtr) (n : Node) :
    (connectBlock P io b false (pindex :: pprev)).run n =
      match connectBlockChecks P (n.inputView io) io b pindex pprev false with
      | some s => (some (), n.connected P io b pindex pprev s)
      | none => (none, n) := by
  simp only [connectBlock]
  rw [Step.run_bind_of_some (Step.run_read _ _)]
  cases h : connectBlockChecks P (n.inputView io) io b pindex pprev false with
  | none => rw [Step.run_bind_of_none (Step.run_ofOption _ _)]
  | some s =>
    rw [Step.run_bind_of_some (Step.run_ofOption _ _)]
    rfl

theorem readTxIndex_connected (P : Params) (io : BlockIo) (b : Block) (pindex : BlockIndex)
    (pprev : BlockPtr) (s : ConnectState) (n : Node) :
    readTxIndex (n.connected P io b pindex pprev s).txdb =
      effective (readTxIndex n.txdb) s.mapQueuedChanges := by
  simp only [Node.connected, Node.syncWithWallets]
  rw [readTxIndex_writeBlockIndex, readTxIndex_writeQueuedChanges, readTxIndex_writeBlockIndex]
  rfl

theorem connectBlock_eq_some {P : Params} {io : BlockIo} {b : Block} {pindex : BlockIndex}
    {pprev : BlockPtr} {n n' : Node} {u : Unit}
    (h : (connectBlock P io b false (pindex :: pprev)).run n = (some u, n')) :
    ∃ s, connectBlockChecks P (n.inputView io) io b pindex pprev false = some s ∧
      n' = n.connected P io b pindex pprev s ∧
      readTxIndex n'.txdb = connectAll (readTxIndex n.txdb) (blockLedger P pindex b) := by
  rw [run_connectBlock] at h
  split at h
  · rename_i s hs
    obtain rfl := (Prod.mk.inj h).2
    have hc := connectBlockChecks_eq_some (InputView.values_value _) hs
    exact ⟨s, hs, rfl, (readTxIndex_connected P io b pindex pprev s n).trans hc.connected⟩
  · cases h

theorem disconnectInput_eq_some {o : OutPoint} {n n' : Node} {u : Unit}
    (h : (disconnectInput o).run n = (some u, n')) :
    readTxIndex n'.txdb = mark (readTxIndex n.txdb) o.key none := by
  unfold disconnectInput at h
  rw [Step.run_bind_of_some (Step.run_read _ _)] at h
  obtain ⟨r, n₁, hread, h₁⟩ := Step.run_bind_eq_some.mp h
  obtain ⟨hr, rfl⟩ := Step.run_ofOption_eq_some.mp hread
  obtain ⟨_, n₂, hguard, h₂⟩ := Step.run_bind_eq_some.mp h₁
  obtain ⟨_, rfl⟩ := Step.run_guard_eq_some.mp hguard
  obtain rfl := (Prod.mk.inj h₂).2
  rw [mark_of_eq_some (o := o.key) hr]
  exact readTxIndex_write_tx _ _ _

theorem run_disconnectInput {o : OutPoint} {n : Node} {r : TxIndex}
    (hr : readTxIndex n.txdb o.hash = some r) (hn : o.n.toNat < r.spent.length) :
    ((disconnectInput o).run n).1 = some () := by
  unfold disconnectInput
  rw [Step.run_bind_of_some (Step.run_read _ _),
    Step.run_bind_of_some (Step.run_ofOption_eq_some.mpr ⟨hr, rfl⟩),
    Step.run_bind_of_some (a := ()) (Step.run_guard_eq_some.mpr ⟨decide_eq_true hn, rfl⟩)]
  rfl

theorem forEach_disconnectInput_eq_some {os : List OutPoint} {n n' : Node} {u : Unit}
    (h : (Step.forEach disconnectInput os).run n = (some u, n')) :
    readTxIndex n'.txdb = markAll (readTxIndex n.txdb) (os.map OutPoint.key) none := by
  induction os generalizing n with
  | nil =>
    obtain rfl := (Prod.mk.inj h).2
    rfl
  | cons o os ih =>
    obtain ⟨_, n₁, h₁, hrest⟩ := Step.run_bind_eq_some.mp h
    rw [ih hrest, disconnectInput_eq_some h₁]
    rfl

theorem run_forEach_disconnectInput {os : List OutPoint} {n : Node}
    (h : ∀ o ∈ os, Known (readTxIndex n.txdb) o.key) :
    ∃ n', (Step.forEach disconnectInput os).run n = (some (), n') := by
  induction os generalizing n with
  | nil => exact ⟨n, rfl⟩
  | cons o os ih =>
    obtain ⟨r, hr, hn⟩ := h o List.mem_cons_self
    have hrun := run_disconnectInput hr hn
    rcases h₁ : (disconnectInput o).run n with ⟨_ | u, n₁⟩
    · rw [h₁] at hrun
      cases hrun
    · have hknown : ∀ o' ∈ os, Known (readTxIndex n₁.txdb) o'.key := by
        intro o' ho'
        rw [disconnectInput_eq_some h₁]
        exact (h o' (List.mem_cons_of_mem _ ho')).mark _ none
      obtain ⟨n', hn'⟩ := ih hknown
      exact ⟨n', by rw [Step.forEach, Step.run_bind_of_some h₁]; exact hn'⟩

theorem disconnectInputs_eq_some {P : Params} {tx : Transaction} {n n' : Node} {u : Unit}
    (h : (disconnectInputs P tx).run n = (some u, n')) (pos : TxPos) :
    readTxIndex n'.txdb = disconnect (readTxIndex n.txdb) (ledgerTx P pos tx) := by
  unfold disconnectInputs at h
  obtain ⟨_, n₁, h₁, h₂⟩ := Step.run_bind_eq_some.mp h
  obtain rfl := (Prod.mk.inj h₂).2
  change readTxIndex (n₁.txdb.erase (.tx (P.txHash tx))) = _
  rw [readTxIndex_erase_tx, forEach_disconnectInput_eq_some h₁]
  rfl

theorem run_disconnectInputs {P : Params} {tx : Transaction} {n : Node}
    (h : ∀ o ∈ tx.spends, Known (readTxIndex n.txdb) o.key) :
    ∃ n', (disconnectInputs P tx).run n = (some (), n') := by
  obtain ⟨n₁, h₁⟩ := run_forEach_disconnectInput h
  refine ⟨n₁.eraseTxIndex (P.txHash tx), ?_⟩
  unfold disconnectInputs
  exact Step.run_bind_of_some h₁

theorem forEach_disconnectInputs_eq_some {P : Params} {txs : List (TxPos × Transaction)}
    {n n' : Node} {u : Unit}
    (h : (Step.forEach (disconnectInputs P) (txs.map Prod.snd).reverse).run n = (some u, n')) :
    readTxIndex n'.txdb = disconnectAll (readTxIndex n.txdb) (toLedger P txs) := by
  induction txs using List.reverseRecOn generalizing n with
  | nil =>
    obtain rfl := (Prod.mk.inj h).2
    rfl
  | append_singleton txs tx ih =>
    rw [List.map_append, List.reverse_append] at h
    obtain ⟨_, n₁, h₁, hrest⟩ := Step.run_bind_eq_some.mp h
    rw [ih hrest, disconnectInputs_eq_some h₁ tx.1, toLedger, toLedger, List.map_append,
      disconnectAll_append]
    rfl

theorem run_forEach_disconnectInputs {P : Params} {txs : List (TxPos × Transaction)} {n : Node}
    {ix : Index Uint256 TxPos} (hc : ConnectableAll ix (toLedger P txs))
    (hn : readTxIndex n.txdb = connectAll ix (toLedger P txs)) :
    ∃ n', (Step.forEach (disconnectInputs P) (txs.map Prod.snd).reverse).run n = (some (), n') := by
  induction txs using List.reverseRecOn generalizing n with
  | nil => exact ⟨n, rfl⟩
  | append_singleton txs tx ih =>
    rw [toLedger, List.map_append] at hc hn
    obtain ⟨hc, hctx, _⟩ := connectableAll_append.mp hc
    have hctx : Connectable (connectAll ix (toLedger P txs)) (ledgerTx P tx.1 tx.2) := hctx
    rw [connectAll_append] at hn
    change readTxIndex n.txdb = connect (connectAll ix (toLedger P txs)) (ledgerTx P tx.1 tx.2) at hn
    have hknown : ∀ o ∈ tx.2.spends, Known (readTxIndex n.txdb) o.key := by
      intro o ho
      rw [hn]
      exact hctx.known_connect (List.mem_map_of_mem ho)
    obtain ⟨n₁, h₁⟩ := run_disconnectInputs (P := P) hknown
    have hn₁ := disconnectInputs_eq_some h₁ tx.1
    rw [hn, disconnect_connect hctx] at hn₁
    obtain ⟨n', hn'⟩ := ih hc hn₁
    refine ⟨n', ?_⟩
    rw [List.map_append, List.reverse_append]
    change (Step.forEach (disconnectInputs P) (tx.2 :: (txs.map Prod.snd).reverse)).run n = _
    rw [Step.forEach, Step.run_bind_of_some h₁]
    exact hn'

/-- The node after the inputs of a block have been disconnected. -/
def Node.disconnected (P : Params) (io : BlockIo) (b : Block) (pindex : BlockPtr) (n : Node) :
    Node :=
  (n.writeBlockIndex (BlockPtr.pprev pindex) 0).syncWithWallets P b false false io.writeToDisk

theorem run_disconnectBlock {P : Params} {io : BlockIo} {b : Block} {pindex : BlockPtr}
    {n n' : Node} {u : Unit} :
    (disconnectBlock P io b pindex).run n = (some u, n') ↔
      ∃ n₁, (Step.forEach (disconnectInputs P) b.vtx.reverse).run n = (some (), n₁) ∧
        n' = n₁.disconnected P io b pindex := by
  unfold disconnectBlock
  rw [Step.run_bind_eq_some]
  constructor
  · rintro ⟨_, n₁, h₁, h₂⟩
    exact ⟨n₁, h₁, (Prod.mk.inj h₂).2.symm⟩
  · rintro ⟨n₁, h₁, rfl⟩
    exact ⟨(), n₁, h₁, rfl⟩

theorem disconnectBlock_eq_some {P : Params} {io : BlockIo} {b : Block} {pindex : BlockIndex}
    {pprev : BlockPtr} {n n' : Node} {u : Unit}
    (h : (disconnectBlock P io b (pindex :: pprev)).run n = (some u, n')) :
    readTxIndex n'.txdb = disconnectAll (readTxIndex n.txdb) (blockLedger P pindex b) := by
  obtain ⟨n₁, h₁, rfl⟩ := run_disconnectBlock.mp h
  rw [← blockTxs_map_snd pindex b] at h₁
  rw [blockLedger, ← forEach_disconnectInputs_eq_some h₁]
  exact readTxIndex_writeBlockIndex _ _ _

/-- A block that was connected to `ix` can be disconnected, and this leads back to `ix`. -/
theorem run_disconnectBlock_of_connected {P : Params} (io : BlockIo) {b : Block}
    {pindex : BlockIndex} {pprev : BlockPtr} {n : Node} {ix : Index Uint256 TxPos}
    (hc : ConnectableAll ix (blockLedger P pindex b))
    (hn : readTxIndex n.txdb = connectAll ix (blockLedger P pindex b)) :
    ∃ n', (disconnectBlock P io b (pindex :: pprev)).run n = (some (), n') ∧
      readTxIndex n'.txdb = ix := by
  obtain ⟨n₁, h₁⟩ := run_forEach_disconnectInputs hc hn
  rw [blockTxs_map_snd] at h₁
  have h : (disconnectBlock P io b (pindex :: pprev)).run n =
      (some (), n₁.disconnected P io b (pindex :: pprev)) :=
    run_disconnectBlock.mpr ⟨n₁, h₁, rfl⟩
  refine ⟨_, h, ?_⟩
  rw [disconnectBlock_eq_some h, hn, disconnectAll_connectAll hc]

/-- None of the transactions of the block is in the index. -/
def FreshBlock (P : Params) (ix : Index Uint256 TxPos) (b : Block) : Prop :=
  ∀ tx ∈ b.vtx, ix (P.txHash tx) = none

theorem BlockConnected.connectableAll {P : Params} {v : InputView} {value : Valuation}
    {pindex : BlockIndex} {b : Block} {s : ConnectState} (h : BlockConnected P v value pindex b s)
    (hfresh : FreshBlock P v.readTxIndex b) :
    ConnectableAll v.readTxIndex (blockLedger P pindex b) := by
  refine connectableAll_of_spendableAll h.spendable (fun ltx hltx => ?_) ?_
  · obtain ⟨tx, htx, rfl⟩ := List.mem_map.mp hltx
    refine hfresh tx.2 ?_
    rw [← blockTxs_map_snd pindex b]
    exact List.mem_map_of_mem htx
  · rw [blockLedger_ids]
    exact h.checked.txids

/-- A block none of whose transactions is in the index, connected and then disconnected: on the
batch it was connected on, after the commit of this one, or on a batch begun after it, the
index is record for record what it was. -/
theorem disconnectBlock_connectBlock {P : Params} {io io' : BlockIo} {b : Block}
    {pindex : BlockIndex} {pprev : BlockPtr} {n n' m : Node}
    (hfresh : FreshBlock P (readTxIndex n.txdb) b)
    (h : (connectBlock P io b false (pindex :: pprev)).run n = (some (), n'))
    (hm : m.txdb = n'.txdb ∨ m.txdb = n'.txdb.txnCommit true ∨
      m.txdb = (n'.txdb.txnCommit true).txnBegin) :
    ∃ m', (disconnectBlock P io' b (pindex :: pprev)).run m = (some (), m') ∧
      readTxIndex m'.txdb = readTxIndex n.txdb := by
  obtain ⟨s, hs, _, hix⟩ := connectBlock_eq_some h
  have hc := connectBlockChecks_eq_some (InputView.values_value _) hs
  -- the commit does not change what a reader sees
  have hview : m.txdb.view = n'.txdb.view := by
    rcases hm with hm | hm | hm <;> rw [hm]
    · exact TxDB.view_txnCommit _
    · exact TxDB.pdb_txnCommit _
  have hix' : readTxIndex m.txdb = readTxIndex n'.txdb := by
    funext hash
    rw [readTxIndex_eq_view, readTxIndex_eq_view, hview]
  exact run_disconnectBlock_of_connected io' (hc.connectableAll hfresh) (hix'.trans hix)

open Sample in
theorem disconnectBlock_connectBlock_first :
    let x := connectBlock params blockIo first false [entry first, entry genesis]
    ∃ m', (disconnectBlock params blockIo first [entry first, entry genesis]).run (x.run node).2 =
      (some (), m') ∧ readTxIndex m'.txdb = readTxIndex node.txdb := by
  intro x
  have hfresh : FreshBlock params (readTxIndex node.txdb) first := by
    intro tx _
    rfl
  have hrun : (x.run node).1 = some () := by decide +kernel
  exact disconnectBlock_connectBlock hfresh (Prod.ext hrun rfl) (Or.inl rfl)

end Beancash
