import Beancash.BlockLedger

/-!
# The position that stands for the memory pool

Only for a record at the position `TxPos.memory` does `FetchInputs` ask the memory
pool when it works for a block. As long as the index avoids this position, what
`ConnectBlock` checks and adds up does not depend on the pool.
-/

namespace Beancash

open Ledger

variable {P : Params}

theorem source_of_avoids {v : InputView} {ix : Index Uint256 TxPos} (h : Avoids ix TxPos.memory)
    {hash : Uint256} {r : TxIndex} (hr : ix hash = some r) :
    v.source hash r.pos = r.pos.bind v.readTx := if_neg (h hash r hr)

theorem fetchPrev_congr {v v' : InputView} (hix : v'.readTxIndex = v.readTxIndex)
    (htx : v'.readTx = v.readTx) {queue : QueuedChanges}
    (havoids : Avoids (effective v.readTxIndex queue) TxPos.memory) (hash : Uint256) :
    v'.fetchPrev queue true false hash = v.fetchPrev queue true false hash := by
  rw [fetchPrev_block, fetchPrev_block, hix]
  cases hr : effective v.readTxIndex queue hash with
  | none => rfl
  | some r =>
    simp only [Option.bind_some]
    rw [source_of_avoids havoids hr, source_of_avoids havoids hr, htx]

theorem fetchInputs_congr {v v' : InputView} (hix : v'.readTxIndex = v.readTxIndex)
    (htx : v'.readTx = v.readTx) {queue : QueuedChanges}
    (havoids : Avoids (effective v.readTxIndex queue) TxPos.memory) (tx : Transaction) :
    v'.fetchInputs queue true false tx = v.fetchInputs queue true false tx := by
  have hloop : ∀ prevouts inputs, v'.fetchLoop queue true false prevouts inputs =
      v.fetchLoop queue true false prevouts inputs := by
    intro prevouts
    induction prevouts with
    | nil => exact fun _ => rfl
    | cons prevout prevouts ih =>
      intro inputs
      simp only [InputView.fetchLoop, fetchPrev_congr hix htx havoids, ih]
  simp only [InputView.fetchInputs, hloop]

theorem connectTx_congr {v v' : InputView} (hix : v'.readTxIndex = v.readTxIndex)
    (htx : v'.readTx = v.readTx) (hheight : v'.nBestHeight = v.nBestHeight) {pindex : BlockIndex}
    {pprev : BlockPtr} {s : ConnectState}
    (havoids : Avoids (effective v.readTxIndex s.mapQueuedChanges) TxPos.memory)
    (tx : Transaction) :
    connectTx P v' pindex pprev false s tx = connectTx P v pindex pprev false s tx := by
  have hconnect : ∀ inputs queue pos p, v'.connectInputs P tx inputs queue pos p true false =
      v.connectInputs P tx inputs queue pos p true false := by
    intro inputs queue pos p
    simp only [InputView.connectInputs, hheight]
  have hinputs : ∀ p pos nSigOps, connectTxInputs P v' p pos s.mapQueuedChanges nSigOps tx =
      connectTxInputs P v p pos s.mapQueuedChanges nSigOps tx := by
    intro p pos nSigOps
    unfold connectTxInputs
    rw [fetchInputs_congr hix htx havoids]
    simp only [hconnect]
  unfold connectTx connectTxBody overwrites
  simp only [hix, hinputs]

theorem foldlM_connectTx_congr {v v' : InputView} (hix : v'.readTxIndex = v.readTxIndex)
    (htx : v'.readTx = v.readTx) (hheight : v'.nBestHeight = v.nBestHeight) {pindex : BlockIndex}
    {pprev : BlockPtr} {s : ConnectState} {txs : List Transaction}
    (havoids : Avoids (effective v.readTxIndex s.mapQueuedChanges) TxPos.memory)
    (hpos : ∀ tx ∈ txPositions pindex.nFile pindex.nBlockPos s.nTxPos txs,
      tx.1 ≠ TxPos.memory) :
    txs.foldlM (connectTx P v' pindex pprev false) s =
      txs.foldlM (connectTx P v pindex pprev false) s := by
  induction txs generalizing s with
  | nil => rw [List.foldlM_nil, List.foldlM_nil]
  | cons tx txs ih =>
    rw [List.foldlM_cons, List.foldlM_cons, connectTx_congr hix htx hheight havoids]
    cases hs' : connectTx P v pindex pprev false s tx with
    | none => simp only [Option.bind_eq_bind, Option.bind_none]
    | some s' =>
      have hc := connectTx_eq_some (InputView.values_value v) hs'
      rw [txPositions, ← hc.nTxPos] at hpos
      simp only [Option.bind_eq_bind, Option.bind_some]
      refine ih ?_ fun tx' htx' => hpos tx' (List.mem_cons_of_mem _ htx')
      rw [hc.connected]
      exact havoids.connect (hpos _ List.mem_cons_self)

theorem connectBlockChecks_congr (v v' : InputView) (hix : v'.readTxIndex = v.readTxIndex)
    (htx : v'.readTx = v.readTx) (hheight : v'.nBestHeight = v.nBestHeight) {io : BlockIo}
    {b : Block} {pindex : BlockIndex} {pprev : BlockPtr}
    (havoids : Avoids v.readTxIndex TxPos.memory)
    (hpos : ∀ tx ∈ blockTxs pindex b, tx.1 ≠ TxPos.memory) :
    connectBlockChecks P v' io b pindex pprev false =
      connectBlockChecks P v io b pindex pprev false := by
  have hfold : b.vtx.foldlM (connectTx P v' pindex pprev false)
      ⟨∅, 0, 0, 0, 0, 0, firstTxPos pindex.nBlockPos b⟩ =
      b.vtx.foldlM (connectTx P v pindex pprev false)
        ⟨∅, 0, 0, 0, 0, 0, firstTxPos pindex.nBlockPos b⟩ :=
    foldlM_connectTx_congr hix htx hheight havoids hpos
  have hage : getBeanAge P v' io.readHeader = getBeanAge P v io.readHeader := by
    funext tx
    have hloop : ∀ prevouts bnCentSecond, beanAgeLoop P v' io.readHeader tx bnCentSecond prevouts =
        beanAgeLoop P v io.readHeader tx bnCentSecond prevouts := by
      intro prevouts
      induction prevouts with
      | nil => exact fun _ => rfl
      | cons prevout prevouts ih =>
        intro bnCentSecond
        simp only [beanAgeLoop, hix, htx, ih]
    simp only [getBeanAge, hloop]
  have hreward : ∀ s, checkReward P v' io b s = checkReward P v io b s := by
    intro s
    unfold checkReward
    rw [hage]
  unfold connectBlockChecks
  simp only [Bool.not_false, Bool.false_eq_true, if_false, hfold, hreward]

theorem valueAt_congr {value value' : Valuation} {ix : Index Uint256 TxPos}
    (h : ∀ hash pos n, pos ≠ some TxPos.memory → value hash pos n = value' hash pos n)
    (havoids : Avoids ix TxPos.memory) : valueAt value ix = valueAt value' ix := by
  funext o
  unfold valueAt
  cases hr : ix o.1 with
  | none => rfl
  | some r => exact h o.1 r.pos o.2 (havoids o.1 r hr)

theorem blockSpends_congr {value value' : Valuation} {ix : Index Uint256 TxPos}
    {txs : List (TxPos × Transaction)}
    (h : ∀ hash pos n, pos ≠ some TxPos.memory → value hash pos n = value' hash pos n)
    (havoids : Avoids ix TxPos.memory) (hpos : ∀ tx ∈ txs, tx.1 ≠ TxPos.memory) :
    blockSpends P value ix txs = blockSpends P value' ix txs := by
  induction txs generalizing ix with
  | nil => rfl
  | cons tx txs ih =>
    obtain ⟨pos, tx⟩ := tx
    rw [blockSpends, blockSpends, spentOf, spentOf, valueAt_congr h havoids,
      ih (havoids.connect (hpos _ List.mem_cons_self))
        fun tx' htx' => hpos tx' (List.mem_cons_of_mem _ htx')]

end Beancash
