import Beancash.ConnectBlock
import Beancash.InputSpec
import Mathlib.Data.Option.Basic

namespace Beancash

open Fallible Ledger

def ledgerTx (P : Params) (pos : TxPos) (tx : Transaction) : Tx Uint256 TxPos where
  id := P.txHash tx
  ins := tx.spends.map OutPoint.key
  pos := pos
  nOut := tx.vout.length

/-- The transactions from position `nTxPos` of a block file on, with their positions. -/
def txPositions (nFile : FileNumber) (nBlockPos : UInt32) :
    UInt32 → List Transaction → List (TxPos × Transaction)
  | _, [] => []
  | nTxPos, tx :: txs => (⟨nFile, nBlockPos, nTxPos⟩, tx) ::
      txPositions nFile nBlockPos (nTxPos + UInt32.ofNat tx.serializeSize) txs

def blockTxs (pindex : BlockIndex) (b : Block) : List (TxPos × Transaction) :=
  txPositions pindex.nFile pindex.nBlockPos (firstTxPos pindex.nBlockPos b) b.vtx

def toLedger (P : Params) (txs : List (TxPos × Transaction)) : List (Tx Uint256 TxPos) :=
  txs.map fun tx => ledgerTx P tx.1 tx.2

def blockLedger (P : Params) (pindex : BlockIndex) (b : Block) : List (Tx Uint256 TxPos) :=
  toLedger P (blockTxs pindex b)

theorem txPositions_map_snd (nFile : FileNumber) (nBlockPos nTxPos : UInt32)
    (txs : List Transaction) : (txPositions nFile nBlockPos nTxPos txs).map Prod.snd = txs := by
  induction txs generalizing nTxPos with
  | nil => rfl
  | cons tx txs ih => simp only [txPositions, List.map_cons, ih]

theorem blockTxs_map_snd (pindex : BlockIndex) (b : Block) :
    (blockTxs pindex b).map Prod.snd = b.vtx := txPositions_map_snd _ _ _ _

theorem blockLedger_ids (P : Params) (pindex : BlockIndex) (b : Block) :
    (blockLedger P pindex b).map Tx.id = b.vtx.map P.txHash := by
  unfold blockLedger toLedger
  rw [List.map_map, ← blockTxs_map_snd pindex b, List.map_map]
  rfl

/-- What a transaction spends is worth. -/
def spentOf (value : Valuation) (ix : Index Uint256 TxPos) (tx : Transaction) :
    ℤ := ((tx.spends.map OutPoint.key).map (valueAt value ix)).sum

/-- The sum of `f` over transactions that are connected one after the other, where `f` is
given each with what it spends at its turn. -/
def blockSum (P : Params) (value : Valuation) (f : Transaction → ℤ → ℤ) :
    Index Uint256 TxPos → List (TxPos × Transaction) → ℤ
  | _, [] => 0
  | ix, (pos, tx) :: txs => f tx (spentOf value ix tx) +
      blockSum P value f (connect ix (ledgerTx P pos tx)) txs

/-- The transactions, each with what it spends at its turn. -/
def blockSpends (P : Params) (value : Valuation) :
    Index Uint256 TxPos → List (TxPos × Transaction) → List (Transaction × ℤ)
  | _, [] => []
  | ix, (pos, tx) :: txs => (tx, spentOf value ix tx) ::
      blockSpends P value (connect ix (ledgerTx P pos tx)) txs

/-- What a transaction pays out more than it spends. -/
def mintOf (tx : Transaction) (nValueIn : ℤ) : ℤ := tx.valueOut - nValueIn

def spentIn (_ : Transaction) (nValueIn : ℤ) : ℤ := nValueIn

def paidOut (tx : Transaction) (_ : ℤ) : ℤ := tx.valueOut

/-- The fee of a transaction that is neither a beanbase nor a beansprout. -/
def feeOf (tx : Transaction) (nValueIn : ℤ) : ℤ :=
  if tx.isBeanBase || tx.isBeanStake then 0 else nValueIn - tx.valueOut

def beanbaseMint (tx : Transaction) (nValueIn : ℤ) : ℤ :=
  if tx.isBeanBase then tx.valueOut - nValueIn else 0

def sproutMint (tx : Transaction) (nValueIn : ℤ) : ℤ :=
  if tx.isBeanStake then tx.valueOut - nValueIn else 0

theorem Transaction.isBeanStake_of_isBeanBase {tx : Transaction} (h : tx.isBeanBase = true) :
    tx.isBeanStake = false := by
  unfold Transaction.isBeanBase at h
  unfold Transaction.isBeanStake
  split at h
  · simp only [Bool.and_eq_true] at h
    rename_i txin hvin
    rw [hvin]
    split
    · rename_i hvin' _
      rw [← (List.cons.inj hvin').1, h.1]
      rfl
    · rfl
  · cases h

section Sums

variable {P : Params} {value : Valuation}

theorem blockSum_eq_sum (f : Transaction → ℤ → ℤ) (ix : Index Uint256 TxPos)
    (txs : List (TxPos × Transaction)) : blockSum P value f ix txs =
      ((blockSpends P value ix txs).map fun t => f t.1 t.2).sum := by
  induction txs generalizing ix with
  | nil => rfl
  | cons tx txs ih => rw [blockSum, blockSpends, List.map_cons, List.sum_cons, ih]

theorem blockSum_add (f g : Transaction → ℤ → ℤ) (ix : Index Uint256 TxPos)
    (txs : List (TxPos × Transaction)) : blockSum P value (fun tx i => f tx i + g tx i) ix txs =
      blockSum P value f ix txs + blockSum P value g ix txs := by
  induction txs generalizing ix with
  | nil => rfl
  | cons tx txs ih =>
    simp only [blockSum, ih]
    ring

theorem blockSum_sub (f g : Transaction → ℤ → ℤ) (ix : Index Uint256 TxPos)
    (txs : List (TxPos × Transaction)) : blockSum P value (fun tx i => f tx i - g tx i) ix txs =
      blockSum P value f ix txs - blockSum P value g ix txs := by
  induction txs generalizing ix with
  | nil => rfl
  | cons tx txs ih =>
    simp only [blockSum, ih]
    ring

theorem blockSum_eq_zero {f : Transaction → ℤ → ℤ} {ix : Index Uint256 TxPos}
    {txs : List (TxPos × Transaction)} (h : ∀ tx ∈ txs.map Prod.snd, ∀ i, f tx i = 0) :
    blockSum P value f ix txs = 0 := by
  induction txs generalizing ix with
  | nil => rfl
  | cons tx txs ih =>
    simp only [List.map_cons, List.mem_cons, forall_eq_or_imp] at h
    simp only [blockSum, h.1, ih h.2, zero_add]

theorem blockSum_mintOf (ix : Index Uint256 TxPos) (txs : List (TxPos × Transaction)) :
    blockSum P value mintOf ix txs = blockSum P value beanbaseMint ix txs +
      blockSum P value sproutMint ix txs - blockSum P value feeOf ix txs := by
  rw [← blockSum_add, ← blockSum_sub]
  congr 1
  funext tx i
  unfold mintOf beanbaseMint sproutMint feeOf
  cases hb : tx.isBeanBase with
  | true => simp [Transaction.isBeanStake_of_isBeanBase hb]
  | false => cases tx.isBeanStake <;> simp

theorem blockSum_spentIn (ix : Index Uint256 TxPos) (txs : List (TxPos × Transaction)) :
    blockSum P value spentIn ix txs = spentBy value ix (toLedger P txs) := by
  induction txs generalizing ix with
  | nil => rfl
  | cons tx txs ih =>
    simp only [blockSum, ih]
    rfl

theorem blockSum_paidOut (ix : Index Uint256 TxPos) (txs : List (TxPos × Transaction)) :
    blockSum P value paidOut ix txs = (txs.map fun tx => tx.2.valueOut).sum := by
  induction txs generalizing ix with
  | nil => rfl
  | cons tx txs ih =>
    simp only [blockSum, ih, List.map_cons, List.sum_cons]
    rfl

end Sums

/-- What one round of the loop of `ConnectBlock` does, in the terms of the ledger. -/
structure TxConnected (P : Params) (v : InputView) (value : Valuation) (pos : TxPos) (tx : Transaction)
    (s s' : ConnectState) : Prop where
  spendable : Spendable (effective v.readTxIndex s.mapQueuedChanges) (ledgerTx P pos tx).ins
  connected : effective v.readTxIndex s'.mapQueuedChanges =
    connect (effective v.readTxIndex s.mapQueuedChanges) (ledgerTx P pos tx)
  nTxPos : s'.nTxPos = s.nTxPos + UInt32.ofNat tx.serializeSize
  nValueIn : s'.nValueIn = s.nValueIn +
    Int64.ofInt (spentOf value (effective v.readTxIndex s.mapQueuedChanges) tx)
  nValueOut : s'.nValueOut = s.nValueOut + Int64.ofInt tx.valueOut
  nFees : s'.nFees = s.nFees +
    Int64.ofInt (feeOf tx (spentOf value (effective v.readTxIndex s.mapQueuedChanges) tx))
  fee_nonneg : 0 ≤ feeOf tx (spentOf value (effective v.readTxIndex s.mapQueuedChanges) tx)
  nStakeReward : s'.nStakeReward = if tx.isBeanStake then Int64.ofInt
    (mintOf tx (spentOf value (effective v.readTxIndex s.mapQueuedChanges) tx))
    else s.nStakeReward
  mint_range : -2 ^ 63 ≤ mintOf tx (spentOf value
    (effective v.readTxIndex s.mapQueuedChanges) tx) ∧
    mintOf tx (spentOf value (effective v.readTxIndex s.mapQueuedChanges) tx) < 2 ^ 63

theorem connectTxInputs_eq_some {P : Params} {v : InputView} {value : Valuation}
    (hv : v.Values value) {pindex : BlockPtr} {pos : TxPos}
    {queue queue' : QueuedChanges} {nSigOps nSigOps' : UInt32} {tx : Transaction}
    {nTxValueIn nTxValueOut : Int64} (hbase : tx.isBeanBase = false)
    (h : connectTxInputs P v pindex pos queue nSigOps tx =
      some (queue', nSigOps', nTxValueIn, nTxValueOut)) :
    InputsConnected v value queue queue' tx pos nTxValueIn ∧ tx.getValueOut = some nTxValueOut := by
  simp only [connectTxInputs, Option.bind_eq_bind, Option.bind_eq_some_iff, Option.pure_def,
    Option.some.injEq, Prod.mk.injEq, Option.guard_eq_some'] at h
  obtain ⟨inputs, hfetch, _, _, _, _, i, hin, o, hout, q, hconnect, rfl, _, rfl, rfl⟩ := h
  have hok : v.fetchInputs queue true false tx = .ok inputs := by
    cases hf : v.fetchInputs queue true false tx with
    | error e => rw [hf] at hfetch; cases hfetch
    | ok inputs' => rw [hf] at hfetch; cases hfetch; rfl
  exact ⟨connectInputs_eq_some hv hbase hok hin hconnect, hout⟩

theorem ofInt_eq_of_toInt {a : Int64} {x : ℤ} (h : a.toInt = x) : a = Int64.ofInt x := by
  rw [← h, Int64.ofInt_toInt]

theorem connectTx_eq_some {P : Params} {v : InputView} {value : Valuation}
    (hv : v.Values value) {pindex : BlockIndex} {pprev : BlockPtr}
    {s s' : ConnectState} {tx : Transaction}
    (h : connectTx P v pindex pprev false s tx = some s') :
    TxConnected P v value ⟨pindex.nFile, pindex.nBlockPos, s.nTxPos⟩ tx s s' := by
  simp only [connectTx, Option.bind_eq_bind, Option.bind_eq_some_iff, Option.pure_def,
    Option.some.injEq, Option.guard_eq_some'] at h
  obtain ⟨_, _, _, _, ⟨queue, nSigOps, nTxValueIn, nTxValueOut⟩, hbody, rfl⟩ := h
  unfold connectTxBody at hbody
  cases hbase : tx.isBeanBase with
  | true =>
    rw [hbase, if_pos rfl] at hbody
    obtain ⟨o, hout, heq⟩ := Option.map_eq_some_iff.mp hbody
    cases heq
    obtain ⟨hrange, hval⟩ := Transaction.getValueOut_eq_some hout
    rw [moneyRange_iff, hval] at hrange
    have hspends : tx.spends = [] := by simp [Transaction.spends, hbase]
    have hstake := Transaction.isBeanStake_of_isBeanBase hbase
    have hspent : ∀ ix, spentOf value ix tx = 0 := by simp [spentOf, hspends]
    refine ⟨⟨by simp [ledgerTx, hspends], by simp [ledgerTx, hspends]⟩, ?_, by simp, by simp [hspent],
      by rw [ofInt_eq_of_toInt hval], by simp [hbase, feeOf], by simp [feeOf, hbase],
      by simp [hstake], ?_⟩
    · rw [effective_insert]
      simp only [connect, ledgerTx, hspends, List.map_nil]
      rfl
    · rw [hspent, mintOf]
      omega
  | false =>
    rw [hbase, if_neg Bool.false_ne_true] at hbody
    obtain ⟨hin, hout⟩ := connectTxInputs_eq_some hv hbase hbody
    obtain ⟨hrange, hval⟩ := Transaction.getValueOut_eq_some hout
    have hspends : tx.spends = tx.prevouts := by simp [Transaction.spends, hbase]
    have hspent : spentOf value (effective v.readTxIndex s.mapQueuedChanges) tx =
        nTxValueIn.toInt := by rw [hin.value, spentOf, hspends]
    have hmint := toInt_sub_of_moneyRange hrange hin.range
    have hfee := toInt_sub_of_moneyRange hin.range hrange
    have hin_range := moneyRange_iff.mp hin.range
    have hout_range := moneyRange_iff.mp hrange
    rw [hval] at hmint hfee hout_range
    refine ⟨?_, ?_, by simp, by rw [hspent, Int64.ofInt_toInt], by rw [ofInt_eq_of_toInt hval],
      ?_, ?_, ?_, ?_⟩
    · simp only [ledgerTx, hspends]
      exact hin.spendable
    · rw [effective_insert, hin.marked]
      simp only [connect, ledgerTx, hspends]
      rfl
    · rw [hspent]
      cases hstake : tx.isBeanStake with
      | true => simp [feeOf, hstake]
      | false => simp [feeOf, hstake, hbase, ofInt_eq_of_toInt hfee]
    · rw [hspent]
      cases hstake : tx.isBeanStake with
      | true => simp [feeOf, hstake]
      | false =>
        have hle := hin.fee hstake
        simp only [feeOf, hstake, hbase, Bool.or_self, Bool.false_eq_true, if_false]
        omega
    · rw [hspent, mintOf, ← hmint, Int64.ofInt_toInt]
    · rw [hspent, mintOf]
      omega

/-- What the loop of `ConnectBlock` does over a list of transactions. -/
structure TxsConnected (P : Params) (v : InputView) (value : Valuation)
    (txs : List (TxPos × Transaction))
    (s s' : ConnectState) : Prop where
  spendable : SpendableAll (effective v.readTxIndex s.mapQueuedChanges) (toLedger P txs)
  connected : effective v.readTxIndex s'.mapQueuedChanges =
    connectAll (effective v.readTxIndex s.mapQueuedChanges) (toLedger P txs)
  nValueIn : s'.nValueIn = s.nValueIn + Int64.ofInt
    (blockSum P value spentIn (effective v.readTxIndex s.mapQueuedChanges) txs)
  nValueOut : s'.nValueOut = s.nValueOut + Int64.ofInt
    (blockSum P value paidOut (effective v.readTxIndex s.mapQueuedChanges) txs)
  nFees : s'.nFees = s.nFees + Int64.ofInt
    (blockSum P value feeOf (effective v.readTxIndex s.mapQueuedChanges) txs)
  fees_nonneg :
    0 ≤ blockSum P value feeOf (effective v.readTxIndex s.mapQueuedChanges) txs
  nStakeReward : (∀ tx ∈ txs.map Prod.snd, tx.isBeanStake = false) →
    s'.nStakeReward = s.nStakeReward

theorem foldlM_connectTx_eq_some {P : Params} {v : InputView} {value : Valuation}
    (hv : v.Values value) {pindex : BlockIndex}
    {pprev : BlockPtr} {txs : List Transaction} {s s' : ConnectState}
    (h : txs.foldlM (connectTx P v pindex pprev false) s = some s') :
    TxsConnected P v value (txPositions pindex.nFile pindex.nBlockPos s.nTxPos txs) s s' := by
  induction txs generalizing s with
  | nil =>
    obtain rfl := Option.some_injective _ h
    exact ⟨trivial, rfl, by simp [txPositions, blockSum], by simp [txPositions, blockSum],
      by simp [txPositions, blockSum], le_rfl, fun _ => rfl⟩
  | cons tx txs ih =>
    rw [List.foldlM_cons] at h
    obtain ⟨s₁, h₁, hrest⟩ := Option.bind_eq_some_iff.mp h
    have hc := connectTx_eq_some hv h₁
    have hcs := ih hrest
    rw [hc.nTxPos] at hcs
    simp only [txPositions]
    refine ⟨⟨hc.spendable, ?_⟩, ?_, ?_, ?_, ?_, ?_, fun hstake => ?_⟩
    · have hs := hcs.spendable
      rwa [hc.connected] at hs
    · rw [hcs.connected, hc.connected]
      rfl
    · rw [hcs.nValueIn, hc.nValueIn, hc.connected, blockSum, Int64.ofInt_add, Int64.add_assoc]
      rfl
    · rw [hcs.nValueOut, hc.nValueOut, hc.connected, blockSum, Int64.ofInt_add, Int64.add_assoc]
      rfl
    · rw [hcs.nFees, hc.nFees, hc.connected, blockSum, Int64.ofInt_add, Int64.add_assoc]
    · have hrest_nonneg := hcs.fees_nonneg
      rw [hc.connected] at hrest_nonneg
      exact add_nonneg hc.fee_nonneg hrest_nonneg
    · simp only [List.map_cons, List.mem_cons, forall_eq_or_imp] at hstake
      rw [hcs.nStakeReward hstake.2, hc.nStakeReward, hstake.1]
      rfl

theorem toInt_ofInt_le {x : ℤ} (hx : 0 ≤ x) : (Int64.ofInt x).toInt ≤ x := by
  rw [Int64.toInt_ofInt, Int.bmod_def]
  have hsize : ((Int64.size : ℕ) : ℤ) = 2 ^ 64 := rfl
  rw [hsize]
  split <;> omega

/-- What a block is that `ConnectBlock` has found to be in order. -/
structure BlockConnected (P : Params) (v : InputView) (value : Valuation) (pindex : BlockIndex)
    (b : Block)
    (s : ConnectState) : Prop where
  checked : CheckedBlock P b
  spendable : SpendableAll v.readTxIndex (blockLedger P pindex b)
  connected : effective v.readTxIndex s.mapQueuedChanges =
    connectAll v.readTxIndex (blockLedger P pindex b)
  minted : s.nValueOut - s.nValueIn =
    Int64.ofInt (blockSum P value mintOf v.readTxIndex (blockTxs pindex b))
  fees_nonneg : 0 ≤ blockSum P value feeOf v.readTxIndex (blockTxs pindex b)
  workReward : b.isProofOfWork = true →
    blockSum P value beanbaseMint v.readTxIndex (blockTxs pindex b) ≤
      100000 * 10 ^ 8 + blockSum P value feeOf v.readTxIndex (blockTxs pindex b)
  stakeReward : b.isProofOfStake = true →
    blockSum P value mintOf v.readTxIndex (blockTxs pindex b) ≤ 1000 * 10 ^ 8

theorem blockSum_beanbaseMint {P : Params} {value : Valuation}
    {ix : Index Uint256 TxPos} {pindex : BlockIndex} {b : Block} {beanbase : Transaction}
    {rest : List Transaction} (hvtx : b.vtx = beanbase :: rest)
    (hbases : checkBeanBases b.vtx = true) :
    blockSum P value beanbaseMint ix (blockTxs pindex b) = beanbase.valueOut := by
  rw [hvtx] at hbases
  simp only [checkBeanBases, Bool.and_eq_true, List.all_eq_true, Bool.not_eq_true'] at hbases
  unfold blockTxs
  rw [hvtx]
  simp only [txPositions, blockSum]
  rw [blockSum_eq_zero]
  · simp [beanbaseMint, hbases.1, spentOf, Transaction.spends]
  · intro tx htx i
    rw [txPositions_map_snd] at htx
    simp [beanbaseMint, hbases.2 tx htx]

theorem checkProofOfStakeBlock_cases {b : Block} {signed : Bool}
    (h : checkProofOfStakeBlock b false signed = true) : ∃ beanbase beansprout rest,
      b.vtx = beanbase :: beansprout :: rest ∧ beanbase.valueOut = 0 ∧
        beansprout.isBeanStake = true ∧ ∀ tx ∈ rest, tx.isBeanStake = false := by
  unfold checkProofOfStakeBlock at h
  split at h
  · rename_i beanbase beansprout rest hvtx
    simp only [Bool.and_eq_true, List.all_eq_true, Bool.not_eq_true'] at h
    obtain ⟨⟨⟨⟨hempty, hstake⟩, hrest⟩, _⟩, _⟩ := h
    refine ⟨beanbase, beansprout, rest, hvtx, ?_, hstake, hrest⟩
    split at hempty
    · rename_i o hvout
      simp only [TxOut.isEmpty, Bool.and_eq_true, beq_iff_eq] at hempty
      simp [Transaction.valueOut, hvout, hempty.1]
    · cases hempty
  · cases h

theorem getProofOfWorkReward_le {fees : ℤ} (h : 0 ≤ fees) :
    (getProofOfWorkReward (Int64.ofInt fees)).toInt ≤ 100000 * 10 ^ 8 + fees := by
  have hsubsidy : 100000 * bean = Int64.ofInt (100000 * 10 ^ 8) := by decide
  rw [getProofOfWorkReward, hsubsidy, ← Int64.ofInt_add]
  exact toInt_ofInt_le (by omega)

theorem getProofOfStakeReward_le {fees : ℤ} (h : 0 ≤ fees) (nBeanAge : ℤ) :
    (getProofOfStakeReward nBeanAge (Int64.ofInt fees)).toInt ≤ 1000 * 10 ^ 8 + fees := by
  have hsubsidy : 1000 * bean = Int64.ofInt (1000 * 10 ^ 8) := by decide
  rw [getProofOfStakeReward, hsubsidy, ← Int64.ofInt_add]
  exact toInt_ofInt_le (by omega)

theorem connectBlockChecks_eq_some {P : Params} {v : InputView} {value : Valuation}
    (hv : v.Values value) {io : BlockIo} {b : Block}
    {pindex : BlockIndex} {pprev : BlockPtr} {s : ConnectState}
    (h : connectBlockChecks P v io b pindex pprev false = some s) :
    BlockConnected P v value pindex b s := by
  simp only [connectBlockChecks, Option.bind_eq_bind, Option.bind_eq_some_iff, Option.pure_def,
    Option.some.injEq, Option.guard_eq_some', Bool.not_false, Bool.false_eq_true, if_false] at h
  obtain ⟨_, hcheck, s', hfold, _, hreward, rfl⟩ := h
  have hchecked := Block.checkedBlock hcheck
  have hc := foldlM_connectTx_eq_some hv hfold
  change TxsConnected P v value (blockTxs pindex b) _ _ at hc
  have heff : effective v.readTxIndex ∅ = v.readTxIndex := rfl
  have hnFees : s'.nFees =
      Int64.ofInt (blockSum P value feeOf v.readTxIndex (blockTxs pindex b)) := by
    rw [hc.nFees, heff, Int64.zero_add]
  refine ⟨hchecked, hc.spendable, hc.connected, ?_, hc.fees_nonneg, fun hwork => ?_,
    fun hstake => ?_⟩
  · rw [hc.nValueOut, hc.nValueIn, heff, Int64.zero_add, Int64.zero_add, ← Int64.ofInt_sub,
      ← blockSum_sub]
    rfl
  · have hne : b.vtx ≠ [] := by
      intro hnil
      have hbases := hchecked.beanbases
      rw [hnil] at hbases
      cases hbases
    obtain ⟨beanbase, rest, hvtx⟩ := List.exists_cons_of_ne_nil hne
    rw [blockSum_beanbaseMint hvtx hchecked.beanbases]
    simp only [checkReward, hvtx, hwork, Bool.not_true, Bool.false_or, Bool.and_eq_true] at hreward
    obtain ⟨o, hout, hle⟩ := (Option.any_eq_true _ _).mp hreward.1
    rw [← (Transaction.getValueOut_eq_some hout).2]
    rw [hnFees] at hle
    exact (Int64.le_iff_toInt_le.mp (of_decide_eq_true hle)).trans
      (getProofOfWorkReward_le hc.fees_nonneg)
  · obtain ⟨signed, hpos⟩ := hchecked.beansprouts hstake
    obtain ⟨beanbase, beansprout, rest, hvtx, hempty, hsprout, hrest⟩ :=
      checkProofOfStakeBlock_cases hpos
    -- the reward that was recorded is that of the second transaction
    rw [hvtx] at hfold
    simp only [List.foldlM_cons, Option.bind_eq_bind, Option.bind_eq_some_iff] at hfold
    obtain ⟨s₁, h₁, s₂, h₂, h₃⟩ := hfold
    have hc₁ := connectTx_eq_some hv h₁
    have hc₂ := connectTx_eq_some hv h₂
    have hc₃ := foldlM_connectTx_eq_some hv h₃
    generalize hm : mintOf beansprout (spentOf value (connect v.readTxIndex (ledgerTx P
      ⟨pindex.nFile, pindex.nBlockPos, firstTxPos pindex.nBlockPos b⟩ beanbase)) beansprout) = m
    have hmint : s'.nStakeReward = Int64.ofInt m := by
      rw [hc₃.nStakeReward (by rw [txPositions_map_snd]; exact hrest), hc₂.nStakeReward,
        if_pos hsprout, hc₁.connected, ← hm]
      rfl
    have hrange : -2 ^ 63 ≤ m ∧ m < 2 ^ 63 := by
      have hr := hc₂.mint_range
      rw [hc₁.connected] at hr
      rw [← hm]
      exact hr
    have hsum : blockSum P value sproutMint v.readTxIndex (blockTxs pindex b) = m := by
      have hbase : beanbase.isBeanStake = false := by
        have hbases := hchecked.beanbases
        rw [hvtx] at hbases
        simp only [checkBeanBases, Bool.and_eq_true] at hbases
        exact Transaction.isBeanStake_of_isBeanBase hbases.1
      unfold blockTxs
      rw [hvtx]
      simp only [txPositions, blockSum]
      rw [blockSum_eq_zero]
      · simp only [sproutMint, hbase, hsprout, if_true, Bool.false_eq_true, if_false, zero_add,
          add_zero]
        exact hm
      · intro tx htx i
        rw [txPositions_map_snd] at htx
        simp [sproutMint, hrest tx htx]
    simp only [checkReward, hvtx, hstake, Bool.not_true, Bool.false_or, Bool.and_eq_true] at hreward
    obtain ⟨nBeanAge, _, hle⟩ := (Option.any_eq_true _ _).mp hreward.2
    rw [hnFees, hmint] at hle
    have hle' := (Int64.le_iff_toInt_le.mp (of_decide_eq_true hle)).trans
      (getProofOfStakeReward_le hc.fees_nonneg nBeanAge)
    rw [Int64.toInt_ofInt_of_le hrange.1 hrange.2] at hle'
    rw [blockSum_mintOf, blockSum_beanbaseMint hvtx hchecked.beanbases, hempty, hsum]
    change m ≤ _ + blockSum P value feeOf v.readTxIndex (blockTxs pindex b) at hle'
    omega

end Beancash
