import Beancash.Inputs
import Beancash.LedgerTotals

namespace Beancash

open Ledger

/-- The records a block sees: the changes it has queued, and the database behind them. -/
def effective (ix : Index Uint256 TxPos) (queue : QueuedChanges) : Index Uint256 TxPos :=
  fun h => (queue.lookup h).orElse fun _ => ix h

theorem effective_insert (ix : Index Uint256 TxPos) (queue : QueuedChanges) (h : Uint256)
    (r : TxIndex) :
    effective ix (queue.insert h r) = Function.update (effective ix queue) h (some r) := by
  funext h'
  by_cases he : h' = h
  · subst he
    simp [effective]
  · simp [effective, AList.lookup_insert_ne he, Function.update_of_ne he]

/-- The outputs a transaction spends, if it is not a beanbase. -/
def Transaction.spends (tx : Transaction) : List OutPoint :=
  if tx.isBeanBase then [] else tx.prevouts

def Transaction.valueOut (tx : Transaction) : ℤ := (tx.vout.map fun o => o.nValue.toInt).sum

/-- The transaction `h`, as it is read at its position or from the memory pool. -/
def InputView.source (v : InputView) (h : Uint256) (pos : DiskTxPos) : Option Transaction :=
  if pos = some TxPos.memory then v.lookup h else pos.bind v.readTx

/-- What output `n` of the transaction `h` at a position is worth. -/
abbrev Valuation := Uint256 → DiskTxPos → ℕ → ℤ

def InputView.value (v : InputView) : Valuation := fun h pos n =>
  ((v.source h pos).bind fun tx => tx.vout[n]?).elim 0 fun o => o.nValue.toInt

/-- `value` is right about all transactions that can be read. -/
def InputView.Values (v : InputView) (value : Valuation) : Prop :=
  ∀ h pos tx n, v.source h pos = some tx →
    value h pos n = (tx.vout[n]?).elim 0 fun o => o.nValue.toInt

theorem InputView.values_value (v : InputView) : v.Values v.value := by
  intro h pos tx n htx
  rw [InputView.value, htx, Option.bind_some]

theorem moneyRange_iff {a : Int64} :
    moneyRange a = true ↔ 0 ≤ a.toInt ∧ a.toInt ≤ 2100000000000000000 := by
  unfold moneyRange
  rw [Bool.and_eq_true, decide_eq_true_eq, decide_eq_true_eq, Int64.le_iff_toInt_le,
    Int64.le_iff_toInt_le]
  exact Iff.rfl

theorem toInt_add_of_moneyRange {a b : Int64} (ha : moneyRange a = true)
    (hb : moneyRange b = true) : (a + b).toInt = a.toInt + b.toInt := by
  rw [moneyRange_iff] at ha hb
  rw [Int64.toInt_add]
  exact Int.bmod_eq_of_le (by omega) (by omega)

theorem toInt_sub_of_moneyRange {a b : Int64} (ha : moneyRange a = true)
    (hb : moneyRange b = true) : (a - b).toInt = a.toInt - b.toInt := by
  rw [moneyRange_iff] at ha hb
  rw [Int64.toInt_sub]
  exact Int.bmod_eq_of_le (by omega) (by omega)

theorem sumValueOut_eq_some {os : List TxOut} {acc r : Int64} (hacc : moneyRange acc = true)
    (h : sumValueOut acc os = some r) :
    moneyRange r = true ∧ r.toInt = acc.toInt + (os.map fun o => o.nValue.toInt).sum := by
  induction os generalizing acc with
  | nil =>
    obtain rfl := Option.some_injective _ h
    exact ⟨hacc, by simp⟩
  | cons o os ih =>
    simp only [sumValueOut] at h
    split at h
    · cases h
    · rename_i hrange
      simp only [Bool.or_eq_true, Bool.not_eq_true', not_or, Bool.not_eq_false] at hrange
      obtain ⟨hr, hsum⟩ := ih hrange.2 h
      rw [toInt_add_of_moneyRange hacc hrange.1] at hsum
      exact ⟨hr, by rw [hsum, List.map_cons, List.sum_cons]; omega⟩

theorem Transaction.getValueOut_eq_some {tx : Transaction} {r : Int64}
    (h : tx.getValueOut = some r) : moneyRange r = true ∧ r.toInt = tx.valueOut := by
  obtain ⟨hr, hsum⟩ := sumValueOut_eq_some (by decide) h
  refine ⟨hr, hsum.trans ?_⟩
  rw [show (0 : Int64).toInt = 0 from rfl, zero_add]
  rfl

theorem sumValueOut_isSome {tx : Transaction} {nValueOut : Int64} {os : List TxOut}
    (h : checkTxOuts tx nValueOut os = true) : (sumValueOut nValueOut os).isSome = true := by
  induction os generalizing nValueOut with
  | nil => rfl
  | cons o os ih =>
    rw [checkTxOuts] at h
    split_ifs at h with _ hneg hmax hrange
    have hvalue : moneyRange o.nValue = true := by
      rw [moneyRange, Bool.and_eq_true, decide_eq_true_eq, decide_eq_true_eq]
      exact ⟨Int64.not_lt.mp hneg, Int64.not_lt.mp hmax⟩
    rw [Bool.not_eq_true, Bool.not_eq_false'] at hrange
    rw [sumValueOut, hvalue, hrange]
    exact ih h

theorem Transaction.getValueOut_isSome {tx : Transaction} (h : tx.checkTransaction = true) :
    tx.getValueOut.isSome = true := by
  simp only [Transaction.checkTransaction, Bool.and_eq_true] at h
  exact sumValueOut_isSome h.1.1.2

theorem nonneg_of_checkTxOuts {tx : Transaction} {nValueOut : Int64} {os : List TxOut}
    (h : checkTxOuts tx nValueOut os = true) : ∀ o ∈ os, 0 ≤ o.nValue.toInt := by
  induction os generalizing nValueOut with
  | nil => exact fun _ ho => by cases ho
  | cons o os ih =>
    rw [checkTxOuts] at h
    split_ifs at h with _ hneg
    refine List.forall_mem_cons.mpr ⟨?_, ih h⟩
    rw [Int64.lt_iff_toInt_lt, not_lt] at hneg
    exact hneg

theorem fetchPrev_block (v : InputView) (queue : QueuedChanges) (h : Uint256) :
    v.fetchPrev queue true false h =
      (effective v.readTxIndex queue h).bind fun r => (v.source h r.pos).map fun tx => (r, tx) := by
  unfold InputView.fetchPrev InputView.source effective
  simp only [Bool.or_false, if_true]
  cases (queue.lookup h).orElse fun _ => v.readTxIndex h with
  | none => rfl
  | some r =>
    simp only [Option.bind_some]
    split <;> rfl

theorem fetchLoop_eq_some {v : InputView} {queue : QueuedChanges} {fBlock fMiner : Bool}
    {prevouts : List OutPoint} {acc inputs : MapPrevTx}
    (hacc : ∀ h prev, acc.lookup h = some prev → v.fetchPrev queue fBlock fMiner h = some prev)
    (h : v.fetchLoop queue fBlock fMiner prevouts acc = some inputs) :
    ∀ h prev, inputs.lookup h = some prev → v.fetchPrev queue fBlock fMiner h = some prev := by
  induction prevouts generalizing acc with
  | nil =>
    obtain rfl := Option.some_injective _ h
    exact hacc
  | cons prevout prevouts ih =>
    simp only [InputView.fetchLoop] at h
    split at h
    · exact ih hacc h
    · split at h
      · rename_i prev hprev
        refine ih (fun h' prev' hl => ?_) h
        by_cases he : h' = prevout.hash
        · rw [he, AList.lookup_insert] at hl
          rw [he, hprev, Option.some_injective _ hl]
        · rw [AList.lookup_insert_ne he] at hl
          exact hacc h' prev' hl
      · cases h

theorem fetchInputs_lookup {v : InputView} {queue : QueuedChanges} {fBlock fMiner : Bool}
    {tx : Transaction} {inputs : MapPrevTx} (h : v.fetchInputs queue fBlock fMiner tx = .ok inputs)
    {hash : Uint256} {prev : TxIndex × Transaction} (hl : inputs.lookup hash = some prev) :
    v.fetchPrev queue fBlock fMiner hash = some prev := by
  unfold InputView.fetchInputs at h
  split at h
  · cases h
    simp at hl
  · split at h
    · cases h
    · rename_i inputs' hloop
      split at h
      · cases h
        exact fetchLoop_eq_some (by simp) hloop hash _ hl
      · cases h

theorem fetchPrev_pool {v : InputView} {hash : Uint256} {r : TxIndex} {txPrev : Transaction}
    (h : v.fetchPrev ∅ false false hash = some (r, txPrev)) :
    v.readTxIndex hash = none ∧ v.lookup hash = some txPrev ∨ v.readTxIndex hash = some r := by
  unfold InputView.fetchPrev at h
  simp only [Bool.or_false, Bool.false_eq_true, if_false] at h
  cases hix : v.readTxIndex hash with
  | none =>
    rw [hix] at h
    obtain ⟨tx, htx, heq⟩ := Option.map_eq_some_iff.mp h
    cases heq
    exact Or.inl ⟨rfl, htx⟩
  | some r' =>
    rw [hix] at h
    change (if r'.pos = some TxPos.memory then _ else _) = _ at h
    right
    split at h
    · obtain ⟨_, _, heq⟩ := Option.map_eq_some_iff.mp h
      rw [(Prod.mk.inj heq).1]
    · obtain ⟨_, _, heq⟩ := Option.map_eq_some_iff.mp h
      rw [(Prod.mk.inj heq).1]

/-- What `FetchInputs` returns for a block is what the effective index and the disk say. -/
theorem fetchInputs_block {v : InputView} {queue : QueuedChanges} {tx : Transaction}
    {inputs : MapPrevTx} (h : v.fetchInputs queue true false tx = .ok inputs) {hash : Uint256}
    {r : TxIndex} {txPrev : Transaction} (hl : inputs.lookup hash = some (r, txPrev)) :
    effective v.readTxIndex queue hash = some r ∧ v.source hash r.pos = some txPrev := by
  have hfetch := fetchInputs_lookup h hl
  rw [fetchPrev_block, Option.bind_eq_some_iff] at hfetch
  obtain ⟨r', hr', hmap⟩ := hfetch
  obtain ⟨tx', htx', heq⟩ := Option.map_eq_some_iff.mp hmap
  cases heq
  exact ⟨hr', htx'⟩

/-- What the inputs are worth, according to the copies fetched. -/
def inputValue (inputs : MapPrevTx) (o : OutPoint) : ℤ :=
  (getOutputFor inputs o).elim 0 fun txout => txout.nValue.toInt

theorem checkInputs_eq_some {P : Params} {tx : Transaction} {inputs : MapPrevTx}
    {pindexBlock : BlockPtr} {prevouts : List OutPoint} {acc r : Int64}
    (hacc : moneyRange acc = true)
    (h : checkInputs P tx inputs pindexBlock acc prevouts = some r) :
    moneyRange r = true ∧ sumValueIn inputs acc prevouts = some r ∧
      r.toInt = acc.toInt + (prevouts.map (inputValue inputs)).sum ∧
      ∀ o ∈ prevouts, (getOutputFor inputs o).isSome = true := by
  induction prevouts generalizing acc with
  | nil =>
    obtain rfl := Option.some_injective _ h
    exact ⟨hacc, rfl, by simp, by simp⟩
  | cons prevout prevouts ih =>
    simp only [checkInputs] at h
    split at h
    · cases h
    · rename_i txindex txPrev hl
      split at h
      · cases h
      · rename_i o ho
        have hout : getOutputFor inputs prevout = some o := by simp [getOutputFor, hl, ho]
        split_ifs at h with _ _ _ hrange
        simp only [Bool.or_eq_true, Bool.not_eq_true', not_or, Bool.not_eq_false] at hrange
        obtain ⟨hr, hsum, hval, hsome⟩ := ih hrange.2 h
        refine ⟨hr, by simp only [sumValueIn, hout, hsum], ?_, fun o' ho' => ?_⟩
        · rw [toInt_add_of_moneyRange hacc hrange.1] at hval
          simp only [hval, List.map_cons, List.sum_cons, inputValue, hout, Option.elim_some]
          omega
        · rcases List.mem_cons.mp ho' with rfl | ho'
          · rw [hout]
            rfl
          · exact hsome o' ho'

theorem inputValue_eq_valueAt {v : InputView} {value : Valuation} (hv : v.Values value)
    {queue : QueuedChanges} {tx : Transaction} {inputs : MapPrevTx}
    (h : v.fetchInputs queue true false tx = .ok inputs) {o : OutPoint}
    (ho : (getOutputFor inputs o).isSome = true) :
    inputValue inputs o = valueAt value (effective v.readTxIndex queue) o.key := by
  obtain ⟨txout, hout⟩ := Option.isSome_iff_exists.mp ho
  obtain ⟨⟨r, txPrev⟩, hl, hn⟩ := Option.bind_eq_some_iff.mp hout
  obtain ⟨hr, hsource⟩ := fetchInputs_block h hl
  unfold inputValue valueAt
  rw [hout, show effective v.readTxIndex queue o.key.1 = some r from hr]
  simp only [Option.elim_some]
  rw [hv o.key.1 r.pos txPrev o.key.2 hsource, show txPrev.vout[o.key.2]? = some txout from hn]
  rfl

theorem effective_insert_mark {ix : Index Uint256 TxPos} {queue : QueuedChanges} {o : OutPoint}
    {r : TxIndex} (hr : effective ix queue o.hash = some r) (pos : TxPos) :
    effective ix (queue.insert o.hash (r.mark o.n.toNat (some pos))) =
      mark (effective ix queue) o.key (some pos) := by
  rw [effective_insert, mark_of_eq_some (o := o.key) hr]
  rfl

theorem spendInputs_eq_some {P : Params} {tx : Transaction} {pos : TxPos} {fVerify : Bool}
    {ix : Index Uint256 TxPos} {i : ℕ} {prevouts : List OutPoint} {inputs : MapPrevTx}
    {queue queue' : QueuedChanges}
    (hinputs : ∀ h prev, inputs.lookup h = some prev → effective ix queue h = some prev.1)
    (h : spendInputs P tx pos true fVerify i prevouts inputs queue = some queue') :
    Spendable (effective ix queue) (prevouts.map OutPoint.key) ∧
      effective ix queue' =
        markAll (effective ix queue) (prevouts.map OutPoint.key) (some pos) := by
  induction prevouts generalizing i inputs queue with
  | nil =>
    obtain rfl := Option.some_injective _ h
    exact ⟨⟨by simp, List.nodup_nil⟩, rfl⟩
  | cons prevout prevouts ih =>
    simp only [spendInputs] at h
    split at h
    · cases h
    · rename_i r txPrev hl
      split_ifs at h with hfree
      have hr : effective ix queue prevout.hash = some r := hinputs _ _ hl
      have hu : Unspent (effective ix queue) prevout.key := ⟨r, hr, not_not.mp hfree⟩
      have hinputs' : ∀ h prev,
          (inputs.insert prevout.hash (r.mark prevout.n.toNat (some pos), txPrev)).lookup h =
            some prev →
          effective ix (queue.insert prevout.hash (r.mark prevout.n.toNat (some pos))) h =
            some prev.1 := by
        intro h' prev hl'
        rw [effective_insert]
        by_cases he : h' = prevout.hash
        · rw [he, AList.lookup_insert] at hl'
          rw [he, Function.update_self, ← Option.some_injective _ hl']
        · rw [AList.lookup_insert_ne he] at hl'
          rw [Function.update_of_ne he]
          exact hinputs h' prev hl'
      obtain ⟨hs, heff⟩ := ih hinputs' h
      rw [effective_insert_mark hr] at hs heff
      refine ⟨⟨fun o ho => ?_, ?_⟩, heff⟩
      · rcases List.mem_cons.mp ho with rfl | ho
        · exact hu
        · exact (hs.unspent o ho).of_mark.2
      · rw [List.map_cons, List.nodup_cons]
        exact ⟨fun hmem => (hs.unspent _ hmem).of_mark.1 rfl, hs.nodup⟩

theorem paysFees_valueOut_le {tx : Transaction} {nValueIn : Int64}
    (h : paysFees tx nValueIn = true) : tx.valueOut ≤ nValueIn.toInt := by
  unfold paysFees at h
  split at h
  · cases h
  · rename_i nValueOut hout
    simp only [Bool.and_eq_true, decide_eq_true_eq] at h
    rw [← (Transaction.getValueOut_eq_some hout).2]
    exact Int64.le_iff_toInt_le.mp h.1.1.1

/-- What a transaction that is not a beanbase takes in and leaves of the index, when its
inputs have been fetched and connected for a block. -/
structure InputsConnected (v : InputView) (value : Valuation) (queue queue' : QueuedChanges)
    (tx : Transaction) (pos : TxPos) (nValueIn : Int64) : Prop where
  spendable : Spendable (effective v.readTxIndex queue) (tx.prevouts.map OutPoint.key)
  marked : effective v.readTxIndex queue' =
    markAll (effective v.readTxIndex queue) (tx.prevouts.map OutPoint.key) (some pos)
  range : moneyRange nValueIn = true
  value : nValueIn.toInt =
    ((tx.prevouts.map OutPoint.key).map (valueAt value (effective v.readTxIndex queue))).sum
  fee : tx.isBeanStake = false → tx.valueOut ≤ nValueIn.toInt

theorem connectInputs_eq_some {P : Params} {v : InputView} {value : Valuation}
    (hv : v.Values value) {tx : Transaction} {inputs : MapPrevTx}
    {queue queue' : QueuedChanges} {pos : TxPos} {pindexBlock : BlockPtr} {nValueIn : Int64}
    (hbase : tx.isBeanBase = false) (hfetch : v.fetchInputs queue true false tx = .ok inputs)
    (hin : tx.getValueIn inputs = some nValueIn)
    (h : v.connectInputs P tx inputs queue pos pindexBlock true false = some queue') :
    InputsConnected v value queue queue' tx pos nValueIn := by
  simp only [InputView.connectInputs, hbase, Bool.false_eq_true, if_false] at h
  split at h
  · cases h
  · rename_i nValueIn' hcheck
    obtain ⟨hrange, hsum, hval, hsome⟩ := checkInputs_eq_some (by decide) hcheck
    simp only [Transaction.getValueIn, hbase, Bool.false_eq_true, if_false] at hin
    obtain rfl : nValueIn' = nValueIn := Option.some_injective _ (hsum.symm.trans hin)
    split at h
    · cases h
    · rename_i queue'' hspend
      obtain ⟨hs, heff⟩ := spendInputs_eq_some
        (fun hash prev hl => (fetchInputs_block hfetch hl).1) hspend
      split_ifs at h with hfee
      obtain rfl := Option.some_injective _ h
      refine ⟨hs, heff, hrange, ?_, fun hstake => ?_⟩
      · rw [hval, show (0 : Int64).toInt = 0 from rfl, zero_add, List.map_map]
        congr 1
        exact List.map_congr_left fun o ho => inputValue_eq_valueAt hv hfetch (hsome o ho)
      · simp only [hstake, Bool.not_false, Bool.true_and, Bool.not_eq_true', Bool.not_eq_false] at hfee
        exact paysFees_valueOut_le hfee

end Beancash
