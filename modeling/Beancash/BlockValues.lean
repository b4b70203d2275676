import Beancash.ConnectSpec
import Beancash.MemPool

namespace Beancash

/-- What a signed 64-bit addition may come to. -/
def FitsInt64 (x : ℤ) : Prop := -2 ^ 63 ≤ x ∧ x < 2 ^ 63

instance (x : ℤ) : Decidable (FitsInt64 x) := inferInstanceAs (Decidable (_ ∧ _))

/-- The sums of the loop of `GetValueIn`. -/
def valueInSums (inputs : MapPrevTx) : Int64 → List OutPoint → List ℤ
  | _, [] => []
  | nResult, prevout :: prevouts =>
    match getOutputFor inputs prevout with
    | some o =>
      (nResult.toInt + o.nValue.toInt) :: valueInSums inputs (nResult + o.nValue) prevouts
    | none => []

def Transaction.getValueInSums (tx : Transaction) (inputs : MapPrevTx) : List ℤ :=
  if tx.isBeanBase then [] else valueInSums inputs 0 tx.prevouts

/-- What the outputs that a transaction names are worth together. -/
def Transaction.namedValue (tx : Transaction) (inputs : MapPrevTx) : ℤ :=
  if tx.isBeanBase then 0 else (tx.prevouts.map (inputValue inputs)).sum

/-- The inputs of a transaction that `accept` gets as far as the fee of. -/
def AcceptView.feeInputs (P : Params) (v : AcceptView) (pool : TxMemPool) (tx : Transaction)
    (fCheckInputs : Bool) : Option MapPrevTx :=
  if !v.acceptFirst P pool tx fCheckInputs || !fCheckInputs then none
  else
    match v.inputs.fetchInputs ∅ false false tx with
    | .error _ => none
    | .ok mapInputs =>
      if !P.testNet && !P.areInputsStandard tx (tx.prevouts.filterMap (getOutputFor mapInputs)) then
        none
      else some mapInputs

/-- The sums of `accept`: those of `GetValueIn`, and the fee. -/
def AcceptView.acceptSums (P : Params) (v : AcceptView) (pool : TxMemPool) (tx : Transaction)
    (fCheckInputs : Bool) : List ℤ :=
  match v.feeInputs P pool tx fCheckInputs with
  | none => []
  | some mapInputs =>
    tx.getValueInSums mapInputs ++
      match tx.getValueIn mapInputs, tx.getValueOut with
      | some nValueIn, some nValueOut => [nValueIn.toInt - nValueOut.toInt]
      | _, _ => []

section Block

variable (P : Params) (v : InputView)

/-- The inputs of a transaction that the loop of `ConnectBlock` gets as far as the values of. -/
def valuedInputs (s : ConnectState) (tx : Transaction) : Option MapPrevTx := do
  guard !overwrites v (P.txHash tx)
  let nSigOps := s.nSigOps + tx.getLegacySigOpCount P
  guard (nSigOps.toNat ≤ maxBlockSigops)
  if tx.isBeanBase then return ∅
  else
    let mapInputs ← (v.fetchInputs s.mapQueuedChanges true false tx).toOption
    let nSigOps := nSigOps + (← tx.getP2SHSigOpCount P mapInputs)
    guard (nSigOps.toNat ≤ maxBlockSigops)
    return mapInputs

/-- The running sums of a transaction that takes in `nTxValueIn` and pays out `nTxValueOut`. -/
def runningSums (s : ConnectState) (tx : Transaction) (nTxValueIn nTxValueOut : Int64) : List ℤ :=
  if tx.isBeanBase then [s.nValueOut.toInt + nTxValueOut.toInt]
  else
    [s.nValueIn.toInt + nTxValueIn.toInt, s.nValueOut.toInt + nTxValueOut.toInt] ++
      if tx.isBeanStake then [nTxValueOut.toInt - nTxValueIn.toInt]
      else [nTxValueIn.toInt - nTxValueOut.toInt,
        s.nFees.toInt + (nTxValueIn - nTxValueOut).toInt]

/-- The sums of a round of the loop. -/
def connectTxSums (s : ConnectState) (tx : Transaction) : List ℤ :=
  match valuedInputs P v s tx with
  | none => []
  | some mapInputs =>
    tx.getValueInSums mapInputs ++
      match tx.getValueIn mapInputs, tx.getValueOut with
      | some nTxValueIn, some nTxValueOut => runningSums s tx nTxValueIn nTxValueOut
      | _, _ => []

/-- The sums of the loop, up to its end or to the transaction that is refused. -/
def connectTxsSums (pindex : BlockIndex) (pprev : BlockPtr) (fJustCheck : Bool) :
    ConnectState → List Transaction → List ℤ
  | _, [] => []
  | s, tx :: vtx =>
    connectTxSums P v s tx ++
      match connectTx P v pindex pprev fJustCheck s tx with
      | none => []
      | some s => connectTxsSums pindex pprev fJustCheck s vtx

/-- What the transactions that the loop reaches take in and pay out. -/
def valuesReached (pindex : BlockIndex) (pprev : BlockPtr) (fJustCheck : Bool) :
    ConnectState → List Transaction → List (ℤ × ℤ)
  | _, [] => []
  | s, tx :: vtx =>
    match valuedInputs P v s tx with
    | none => []
    | some mapInputs =>
      (tx.namedValue mapInputs, tx.valueOut) ::
        match connectTx P v pindex pprev fJustCheck s tx with
        | none => []
        | some s => valuesReached pindex pprev fJustCheck s vtx

/-- What the loop starts with. -/
def ConnectState.start (b : Block) (pindex : BlockIndex) (fJustCheck : Bool) : ConnectState :=
  ⟨∅, 0, 0, 0, 0, 0, if fJustCheck then 1 else firstTxPos pindex.nBlockPos b⟩

/-- The sums of `ConnectBlock`. -/
def connectBlockSums (io : BlockIo) (b : Block) (pindex : BlockIndex) (pprev : BlockPtr)
    (fJustCheck : Bool) : List ℤ :=
  if b.checkBlock P io.adjustedTime true (!fJustCheck) (!fJustCheck) false then
    connectTxsSums P v pindex pprev fJustCheck (.start b pindex fJustCheck) b.vtx
  else []

/-- The values of the transactions of a block that passed `CheckBlock`. -/
def blockValues (io : BlockIo) (b : Block) (pindex : BlockIndex) (pprev : BlockPtr)
    (fJustCheck : Bool) : List (ℤ × ℤ) :=
  if b.checkBlock P io.adjustedTime true (!fJustCheck) (!fJustCheck) false then
    valuesReached P v pindex pprev fJustCheck (.start b pindex fJustCheck) b.vtx
  else []

end Block

theorem toInt_add_of_fits {a b : Int64} (h : FitsInt64 (a.toInt + b.toInt)) :
    (a + b).toInt = a.toInt + b.toInt := by
  obtain ⟨hlow, hhigh⟩ := h
  rw [Int64.toInt_add]
  exact Int.bmod_eq_of_le (by omega) (by omega)

theorem toInt_sub_of_fits {a b : Int64} (h : FitsInt64 (a.toInt - b.toInt)) :
    (a - b).toInt = a.toInt - b.toInt := by
  obtain ⟨hlow, hhigh⟩ := h
  rw [Int64.toInt_sub]
  exact Int.bmod_eq_of_le (by omega) (by omega)

section Inputs

variable {inputs : MapPrevTx} {prevouts : List OutPoint} {nResult : Int64}

theorem inputValue_eq {o : OutPoint} {txout : TxOut} (h : getOutputFor inputs o = some txout) :
    inputValue inputs o = txout.nValue.toInt := by
  rw [inputValue, h]
  rfl

theorem sum_inputValue_nonneg (hnonneg : ∀ o, 0 ≤ inputValue inputs o)
    (prevouts : List OutPoint) : 0 ≤ (prevouts.map (inputValue inputs)).sum := by
  apply List.sum_nonneg
  intro x hx
  obtain ⟨o, _, rfl⟩ := List.mem_map.mp hx
  exact hnonneg o

theorem valueInSums_fit_iff (hsome : ∀ o ∈ prevouts, (getOutputFor inputs o).isSome = true)
    (hnonneg : ∀ o, 0 ≤ inputValue inputs o) (hres : 0 ≤ nResult.toInt) :
    (∀ x ∈ valueInSums inputs nResult prevouts, FitsInt64 x) ↔
      nResult.toInt + (prevouts.map (inputValue inputs)).sum < 2 ^ 63 := by
  induction prevouts generalizing nResult with
  | nil =>
    have hlt := nResult.toInt_lt
    simp only [valueInSums, List.not_mem_nil, false_implies, implies_true, List.map_nil,
      List.sum_nil, true_iff]
    omega
  | cons o prevouts ih =>
    obtain ⟨txout, hout⟩ := Option.isSome_iff_exists.mp (hsome o List.mem_cons_self)
    have hvalue := inputValue_eq hout
    have ho := hnonneg o
    have hrest := sum_inputValue_nonneg hnonneg prevouts
    rw [valueInSums, hout, List.map_cons, List.sum_cons, hvalue]
    simp only [List.forall_mem_cons]
    constructor
    · rintro ⟨hfits, hsums⟩
      have hadd := toInt_add_of_fits hfits
      have hlt := (ih (fun o' ho' => hsome o' (List.mem_cons_of_mem _ ho')) (by omega)).mp hsums
      omega
    · intro hlt
      have hfits : FitsInt64 (nResult.toInt + txout.nValue.toInt) := ⟨by omega, by omega⟩
      have hadd := toInt_add_of_fits hfits
      exact ⟨hfits, (ih (fun o' ho' => hsome o' (List.mem_cons_of_mem _ ho')) (by omega)).mpr
        (by omega)⟩

theorem sumValueIn_of_fits (hsome : ∀ o ∈ prevouts, (getOutputFor inputs o).isSome = true)
    (hnonneg : ∀ o, 0 ≤ inputValue inputs o) (hres : 0 ≤ nResult.toInt)
    (hlt : nResult.toInt + (prevouts.map (inputValue inputs)).sum < 2 ^ 63) :
    ∃ r, sumValueIn inputs nResult prevouts = some r ∧
      r.toInt = nResult.toInt + (prevouts.map (inputValue inputs)).sum := by
  induction prevouts generalizing nResult with
  | nil => exact ⟨nResult, rfl, (add_zero _).symm⟩
  | cons o prevouts ih =>
    obtain ⟨txout, hout⟩ := Option.isSome_iff_exists.mp (hsome o List.mem_cons_self)
    have hvalue := inputValue_eq hout
    have ho := hnonneg o
    have hrest := sum_inputValue_nonneg hnonneg prevouts
    rw [List.map_cons, List.sum_cons, hvalue] at hlt ⊢
    have hadd := toInt_add_of_fits (a := nResult) (b := txout.nValue) ⟨by omega, by omega⟩
    obtain ⟨r, hr, hval⟩ : ∃ r, sumValueIn inputs (nResult + txout.nValue) prevouts = some r ∧
        r.toInt = (nResult + txout.nValue).toInt + (prevouts.map (inputValue inputs)).sum :=
      ih (fun o' ho' => hsome o' (List.mem_cons_of_mem _ ho')) (by omega) (by omega)
    refine ⟨r, ?_, by omega⟩
    rw [sumValueIn, hout]
    exact hr

theorem sumValueIn_isSome (hsome : ∀ o ∈ prevouts, (getOutputFor inputs o).isSome = true) :
    (sumValueIn inputs nResult prevouts).isSome = true := by
  induction prevouts generalizing nResult with
  | nil => rfl
  | cons o prevouts ih =>
    obtain ⟨txout, hout⟩ := Option.isSome_iff_exists.mp (hsome o List.mem_cons_self)
    rw [sumValueIn, hout]
    exact ih fun o' ho' => hsome o' (List.mem_cons_of_mem _ ho')

end Inputs

/-- What is on the disk and in the memory pool has passed `CheckTransaction`. -/
structure InputView.Checked (v : InputView) : Prop where
  readTx : ∀ {pos tx}, v.readTx pos = some tx → tx.checkTransaction = true
  lookup : ∀ {hash tx}, v.lookup hash = some tx → tx.checkTransaction = true

section Fetched

variable {v : InputView} {queue : QueuedChanges} {fBlock fMiner : Bool} {tx : Transaction}
  {inputs : MapPrevTx}

theorem InputView.Checked.fetchPrev (hv : v.Checked) {hash : Uint256} {r : TxIndex}
    {txPrev : Transaction} (h : v.fetchPrev queue fBlock fMiner hash = some (r, txPrev)) :
    txPrev.checkTransaction = true := by
  have hpool : ∀ {r' : TxIndex}, ((v.lookup hash).map fun txPrev => (r', txPrev)) =
      some (r, txPrev) → txPrev.checkTransaction = true := by
    intro r' h
    obtain ⟨tx', htx, heq⟩ := Option.map_eq_some_iff.mp h
    rw [← (Prod.mk.inj heq).2]
    exact hv.lookup htx
  unfold InputView.fetchPrev at h
  dsimp only at h
  split at h
  · split at h
    · cases h
    · obtain ⟨tx', htx, heq⟩ := Option.map_eq_some_iff.mp h
      rw [← (Prod.mk.inj heq).2]
      exact hv.lookup htx
  · split at h
    · exact hpool h
    · obtain ⟨tx', htx, heq⟩ := Option.map_eq_some_iff.mp h
      obtain ⟨pos, _, hread⟩ := Option.bind_eq_some_iff.mp htx
      rw [← (Prod.mk.inj heq).2]
      exact hv.readTx hread

theorem InputView.Checked.inputValue_nonneg (hv : v.Checked)
    (h : v.fetchInputs queue fBlock fMiner tx = .ok inputs) (o : OutPoint) :
    0 ≤ inputValue inputs o := by
  cases hout : getOutputFor inputs o with
  | none =>
    rw [inputValue, hout]
    exact le_refl _
  | some txout =>
    obtain ⟨⟨r, txPrev⟩, hl, hn⟩ := Option.bind_eq_some_iff.mp hout
    have hcheck := hv.fetchPrev (fetchInputs_lookup h hl)
    simp only [Transaction.checkTransaction, Bool.and_eq_true] at hcheck
    rw [inputValue_eq hout]
    exact nonneg_of_checkTxOuts hcheck.1.1.2 txout (List.mem_of_getElem? hn)

theorem getOutputFor_of_fetchInputs (hbase : tx.isBeanBase = false)
    (h : v.fetchInputs queue fBlock fMiner tx = .ok inputs) :
    ∀ o ∈ tx.prevouts, (getOutputFor inputs o).isSome = true := by
  intro o ho
  have hrange : prevoutInRange inputs o = true := by
    unfold InputView.fetchInputs at h
    rw [hbase, if_neg Bool.false_ne_true] at h
    split at h
    · cases h
    · split_ifs at h with hall
      cases h
      exact List.all_eq_true.mp hall o ho
  obtain ⟨⟨r, txPrev⟩, hl, hlt⟩ := (Option.any_eq_true _ _).mp hrange
  rw [decide_eq_true_eq] at hlt
  rw [getOutputFor, hl, Option.bind_some, List.getElem?_eq_getElem hlt.1]
  rfl

/-- The sums of `GetValueIn` fit when what is named is worth less than 2^63, and then it returns
that. -/
theorem getValueInSums_fit_iff (hv : v.Checked)
    (h : v.fetchInputs queue fBlock fMiner tx = .ok inputs) :
    ((∀ x ∈ tx.getValueInSums inputs, FitsInt64 x) ↔ tx.namedValue inputs < 2 ^ 63) ∧
      0 ≤ tx.namedValue inputs ∧
      ∃ nValueIn, tx.getValueIn inputs = some nValueIn ∧
        (tx.namedValue inputs < 2 ^ 63 → nValueIn.toInt = tx.namedValue inputs) := by
  unfold Transaction.getValueInSums Transaction.namedValue Transaction.getValueIn
  cases hbase : tx.isBeanBase with
  | true => exact ⟨by simp, le_refl _, 0, rfl, fun _ => rfl⟩
  | false =>
    have hsome := getOutputFor_of_fetchInputs hbase h
    have hnonneg := hv.inputValue_nonneg h
    simp only [Bool.false_eq_true, if_false]
    refine ⟨?_, sum_inputValue_nonneg hnonneg _, ?_⟩
    · rw [valueInSums_fit_iff hsome hnonneg (le_refl _)]
      exact Iff.of_eq (congrArg (· < _) (zero_add _))
    · have hsum : (sumValueIn inputs 0 tx.prevouts).isSome = true := sumValueIn_isSome hsome
      obtain ⟨nValueIn, hin⟩ := Option.isSome_iff_exists.mp hsum
      refine ⟨nValueIn, hin, fun hlt => ?_⟩
      obtain ⟨r, hr, hval⟩ : ∃ r, sumValueIn inputs 0 tx.prevouts = some r ∧
          r.toInt = (0 : Int64).toInt + (tx.prevouts.map (inputValue inputs)).sum :=
        sumValueIn_of_fits hsome hnonneg (le_refl _)
          (by rw [show (0 : Int64).toInt = 0 from rfl, zero_add]; exact hlt)
      obtain rfl := Option.some_injective _ (hin.symm.trans hr)
      rw [hval, show (0 : Int64).toInt = 0 from rfl, zero_add]

end Fetched

section Accept

variable {P : Params} {v : AcceptView} {pool : TxMemPool} {tx : Transaction} {fCheckInputs : Bool}

theorem AcceptView.feeInputs_eq_some {mapInputs : MapPrevTx}
    (h : v.feeInputs P pool tx fCheckInputs = some mapInputs) :
    tx.checkTransaction = true ∧ v.inputs.fetchInputs ∅ false false tx = .ok mapInputs := by
  unfold AcceptView.feeInputs at h
  split at h
  · cases h
  · rename_i hfirst
    simp only [Bool.or_eq_true, Bool.not_eq_true', not_or, Bool.not_eq_false] at hfirst
    have hcheck := hfirst.1
    simp only [AcceptView.acceptFirst, Bool.and_eq_true] at hcheck
    split at h
    · cases h
    · split at h
      · cases h
      · obtain rfl := Option.some_injective _ h
        exact ⟨hcheck.1.1.1.1.1.1.1, by assumption⟩

theorem AcceptView.acceptSums_fit_iff (hv : v.inputs.Checked) :
    (∀ x ∈ v.acceptSums P pool tx fCheckInputs, FitsInt64 x) ↔
      ∀ mapInputs, v.feeInputs P pool tx fCheckInputs = some mapInputs →
        tx.namedValue mapInputs < 2 ^ 63 := by
  unfold AcceptView.acceptSums
  cases hfee : v.feeInputs P pool tx fCheckInputs with
  | none => simp
  | some mapInputs =>
    obtain ⟨hcheck, hfetch⟩ := AcceptView.feeInputs_eq_some hfee
    obtain ⟨hiff, hnonneg, nValueIn, hin, hval⟩ := getValueInSums_fit_iff hv hfetch
    obtain ⟨nValueOut, hout⟩ := Option.isSome_iff_exists.mp (Transaction.getValueOut_isSome hcheck)
    have hrange := moneyRange_iff.mp (Transaction.getValueOut_eq_some hout).1
    simp only [hin, hout, List.forall_mem_append, hiff, List.forall_mem_cons, List.not_mem_nil,
      false_implies, implies_true, and_true, Option.some.injEq, forall_eq']
    constructor
    · exact And.left
    · intro hlt
      have hvalue := hval hlt
      exact ⟨hlt, by constructor <;> omega⟩

end Accept

section Block

variable {P : Params} {v : InputView} {pindex : BlockIndex} {pprev : BlockPtr} {fJustCheck : Bool}
  {s s' : ConnectState} {tx : Transaction} {mapInputs : MapPrevTx}

theorem valuedInputs_eq_some (h : valuedInputs P v s tx = some mapInputs) :
    v.fetchInputs s.mapQueuedChanges true false tx = .ok mapInputs := by
  simp only [valuedInputs, Option.bind_eq_bind, Option.bind_eq_some_iff, Option.pure_def,
    Option.guard_eq_some'] at h
  obtain ⟨_, _, _, _, h⟩ := h
  split at h
  · rename_i hbase
    obtain rfl := Option.some_injective _ h
    rw [InputView.fetchInputs, if_pos hbase]
  · simp only [Option.bind_eq_some_iff, Option.some.injEq, Option.guard_eq_some'] at h
    obtain ⟨inputs, hfetch, _, _, _, _, rfl⟩ := h
    cases hf : v.fetchInputs s.mapQueuedChanges true false tx with
    | error e => rw [hf] at hfetch; cases hfetch
    | ok inputs' => rw [hf] at hfetch; cases hfetch; rfl

/-- What a round leaves in the running sums. -/
structure ValuesAdded (P : Params) (v : InputView) (s s' : ConnectState) (tx : Transaction)
    (mapInputs : MapPrevTx) (nTxValueIn nTxValueOut : Int64) : Prop where
  valued : valuedInputs P v s tx = some mapInputs
  getValueIn : tx.getValueIn mapInputs = some nTxValueIn
  getValueOut : tx.getValueOut = some nTxValueOut
  nValueIn : s'.nValueIn = s.nValueIn + nTxValueIn
  nValueOut : s'.nValueOut = s.nValueOut + nTxValueOut
  nFees : s'.nFees = if tx.isBeanBase || tx.isBeanStake then s.nFees else
    s.nFees + (nTxValueIn - nTxValueOut)
  paid : (tx.isBeanBase || tx.isBeanStake) = false → nTxValueOut.toInt ≤ nTxValueIn.toInt

theorem connectTx_values (h : connectTx P v pindex pprev fJustCheck s tx = some s') :
    ∃ mapInputs nTxValueIn nTxValueOut,
      ValuesAdded P v s s' tx mapInputs nTxValueIn nTxValueOut := by
  simp only [connectTx, Option.bind_eq_bind, Option.bind_eq_some_iff, Option.pure_def,
    Option.some.injEq, Option.guard_eq_some'] at h
  obtain ⟨_, hover, _, hlegacy, ⟨queue, nSigOps, nTxValueIn, nTxValueOut⟩, hbody, rfl⟩ := h
  unfold connectTxBody at hbody
  cases hbase : tx.isBeanBase with
  | true =>
    rw [hbase, if_pos rfl] at hbody
    obtain ⟨o, hout, heq⟩ := Option.map_eq_some_iff.mp hbody
    cases heq
    refine ⟨∅, 0, nTxValueOut, ?_, ?_, hout, rfl, rfl, ?_, ?_⟩
    · simp only [valuedInputs, Option.bind_eq_bind, Option.bind_eq_some_iff,
        Option.guard_eq_some', hbase, if_true]
      exact ⟨(), hover, (), hlegacy, rfl⟩
    · rw [Transaction.getValueIn, hbase, if_pos rfl]
    · rw [hbase]
    · simp [hbase]
  | false =>
    rw [hbase, if_neg Bool.false_ne_true] at hbody
    obtain ⟨inputs, hfetch, n, hn, _, hle, i, hin, o, hout, q, hconnect, heq⟩ :
        ∃ inputs, (v.fetchInputs s.mapQueuedChanges true false tx).toOption = some inputs ∧
          ∃ n, tx.getP2SHSigOpCount P inputs = some n ∧ ∃ _ : Unit,
            (s.nSigOps + tx.getLegacySigOpCount P + n).toNat ≤ maxBlockSigops ∧
            ∃ i, tx.getValueIn inputs = some i ∧ ∃ o, tx.getValueOut = some o ∧
            ∃ q, v.connectInputs P tx inputs s.mapQueuedChanges
              ⟨pindex.nFile, pindex.nBlockPos, s.nTxPos⟩ (pindex :: pprev) true false = some q ∧
              (q, s.nSigOps + tx.getLegacySigOpCount P + n, i, o) =
                (queue, nSigOps, nTxValueIn, nTxValueOut) := by
      simpa only [connectTxInputs, Option.bind_eq_bind, Option.bind_eq_some_iff, Option.pure_def,
        Option.some.injEq, Option.guard_eq_some'] using hbody
    cases heq
    have hok : v.fetchInputs s.mapQueuedChanges true false tx = .ok inputs := by
      cases hf : v.fetchInputs s.mapQueuedChanges true false tx with
      | error e => rw [hf] at hfetch; cases hfetch
      | ok inputs' => rw [hf] at hfetch; cases hfetch; rfl
    have hconnected := connectInputs_eq_some (InputView.values_value v) hbase hok hin hconnect
    refine ⟨inputs, nTxValueIn, nTxValueOut, ?_, hin, hout, rfl, rfl, by rw [hbase], ?_⟩
    · simp only [valuedInputs, Option.bind_eq_bind, Option.bind_eq_some_iff, Option.pure_def,
        Option.guard_eq_some', hbase, Bool.false_eq_true, if_false, Option.some.injEq]
      exact ⟨(), hover, (), hlegacy, inputs, hfetch, n, hn, (), hle, rfl⟩
    · intro hstake
      rw [(Transaction.getValueOut_eq_some hout).2]
      rw [hbase, Bool.false_or] at hstake
      exact hconnected.fee hstake

/-- The sums so far, of which the fees are part of what has been taken in. -/
structure ConnectState.Balanced (s : ConnectState) : Prop where
  nValueIn : 0 ≤ s.nValueIn.toInt
  nValueOut : 0 ≤ s.nValueOut.toInt
  nFees : 0 ≤ s.nFees.toInt
  nFees_le : s.nFees.toInt ≤ s.nValueIn.toInt

theorem connectTxSums_fit_iff (hv : v.Checked) (hs : s.Balanced)
    (hcheck : tx.checkTransaction = true) (hval : valuedInputs P v s tx = some mapInputs) :
    (∀ x ∈ connectTxSums P v s tx, FitsInt64 x) ↔
      s.nValueIn.toInt + tx.namedValue mapInputs < 2 ^ 63 ∧
        s.nValueOut.toInt + tx.valueOut < 2 ^ 63 := by
  obtain ⟨hiff, hnonneg, nTxValueIn, hin, hexact⟩ :=
    getValueInSums_fit_iff hv (valuedInputs_eq_some hval)
  obtain ⟨nTxValueOut, hout⟩ := Option.isSome_iff_exists.mp (Transaction.getValueOut_isSome hcheck)
  obtain ⟨hmoney, hvalueOut⟩ := Transaction.getValueOut_eq_some hout
  have hrange := moneyRange_iff.mp hmoney
  have hA := hs.nValueIn
  have hB := hs.nValueOut
  have hF := hs.nFees
  have hFA := hs.nFees_le
  have hAlt := s.nValueIn.toInt_lt
  unfold connectTxSums
  rw [hval]
  simp only [hin, hout, List.forall_mem_append, hiff]
  rw [← hvalueOut]
  unfold runningSums
  cases hbase : tx.isBeanBase with
  | true =>
    have hnone : tx.namedValue mapInputs = 0 := by rw [Transaction.namedValue, hbase, if_pos rfl]
    simp only [if_true, List.forall_mem_cons, List.not_mem_nil, false_implies, implies_true,
      and_true, hnone, FitsInt64]
    omega
  | false =>
    simp only [Bool.false_eq_true, if_false, List.forall_mem_append, List.forall_mem_cons,
      List.not_mem_nil, false_implies, implies_true, and_true]
    constructor
    · rintro ⟨hlt, ⟨hfits, hfits'⟩, _⟩
      rw [hexact hlt] at hfits
      exact ⟨hfits.2, hfits'.2⟩
    · rintro ⟨hlt, hlt'⟩
      have hvalue := hexact (by omega)
      refine ⟨by omega, ⟨⟨by omega, by omega⟩, ⟨by omega, by omega⟩⟩, ?_⟩
      split
      · simp only [List.forall_mem_cons, List.not_mem_nil, false_implies, implies_true, and_true]
        exact ⟨by omega, by omega⟩
      · have hfee : FitsInt64 (nTxValueIn.toInt - nTxValueOut.toInt) := ⟨by omega, by omega⟩
        simp only [List.forall_mem_cons, List.not_mem_nil, false_implies, implies_true, and_true]
        rw [toInt_sub_of_fits hfee]
        exact ⟨hfee, by omega, by omega⟩

theorem connectTx_balanced (hv : v.Checked) (hs : s.Balanced)
    (hval : valuedInputs P v s tx = some mapInputs)
    (h : connectTx P v pindex pprev fJustCheck s tx = some s')
    (hin : s.nValueIn.toInt + tx.namedValue mapInputs < 2 ^ 63)
    (hout : s.nValueOut.toInt + tx.valueOut < 2 ^ 63) :
    s'.Balanced ∧ s'.nValueIn.toInt = s.nValueIn.toInt + tx.namedValue mapInputs ∧
      s'.nValueOut.toInt = s.nValueOut.toInt + tx.valueOut := by
  obtain ⟨mapInputs', nTxValueIn, nTxValueOut, hadded⟩ := connectTx_values h
  obtain rfl := Option.some_injective _ (hval.symm.trans hadded.valued)
  obtain ⟨_, hnonneg, nTxValueIn', hin', hexact⟩ :=
    getValueInSums_fit_iff hv (valuedInputs_eq_some hval)
  obtain rfl := Option.some_injective _ (hadded.getValueIn.symm.trans hin')
  obtain ⟨hmoney, hvalueOut⟩ := Transaction.getValueOut_eq_some hadded.getValueOut
  have hrange := moneyRange_iff.mp hmoney
  have hA := hs.nValueIn
  have hB := hs.nValueOut
  have hF := hs.nFees
  have hFA := hs.nFees_le
  have hvalue := hexact (by omega)
  have hsumIn : s'.nValueIn.toInt = s.nValueIn.toInt + tx.namedValue mapInputs := by
    rw [hadded.nValueIn, toInt_add_of_fits ⟨by omega, by omega⟩, hvalue]
  have hsumOut : s'.nValueOut.toInt = s.nValueOut.toInt + tx.valueOut := by
    rw [hadded.nValueOut, toInt_add_of_fits ⟨by omega, by omega⟩, hvalueOut]
  refine ⟨?_, hsumIn, hsumOut⟩
  cases hkind : tx.isBeanBase || tx.isBeanStake with
  | true =>
    have hfees : s'.nFees = s.nFees := by rw [hadded.nFees, if_pos hkind]
    exact ⟨by omega, by omega, hfees ▸ hF, by rw [hfees]; omega⟩
  | false =>
    have hpaid := hadded.paid hkind
    have hfee : (nTxValueIn - nTxValueOut).toInt = nTxValueIn.toInt - nTxValueOut.toInt :=
      toInt_sub_of_fits ⟨by omega, by omega⟩
    have hfees : s'.nFees.toInt = s.nFees.toInt + (nTxValueIn.toInt - nTxValueOut.toInt) := by
      rw [hadded.nFees, hkind, if_neg Bool.false_ne_true,
        toInt_add_of_fits (by rw [hfee]; exact ⟨by omega, by omega⟩), hfee]
    exact ⟨by omega, by omega, by omega, by omega⟩

theorem valuesReached_nonneg (hv : v.Checked) {vtx : List Transaction}
    (hcheck : ∀ tx ∈ vtx, tx.checkTransaction = true) :
    ∀ p ∈ valuesReached P v pindex pprev fJustCheck s vtx, 0 ≤ p.1 ∧ 0 ≤ p.2 := by
  induction vtx generalizing s with
  | nil => simp [valuesReached]
  | cons tx vtx ih =>
    rw [valuesReached]
    cases hval : valuedInputs P v s tx with
    | none => simp
    | some mapInputs =>
      obtain ⟨nTxValueOut, hout⟩ :=
        Option.isSome_iff_exists.mp (Transaction.getValueOut_isSome (hcheck tx List.mem_cons_self))
      obtain ⟨hmoney, hvalueOut⟩ := Transaction.getValueOut_eq_some hout
      have hrange := moneyRange_iff.mp hmoney
      dsimp only
      rw [List.forall_mem_cons]
      refine ⟨⟨(getValueInSums_fit_iff hv (valuedInputs_eq_some hval)).2.1, ?_⟩, ?_⟩
      · dsimp only
        omega
      · split
        · simp
        · exact ih fun tx htx => hcheck tx (List.mem_cons_of_mem _ htx)

theorem sum_fst_nonneg {l : List (ℤ × ℤ)} (h : ∀ p ∈ l, 0 ≤ p.1 ∧ 0 ≤ p.2) :
    0 ≤ (l.map Prod.fst).sum ∧ 0 ≤ (l.map Prod.snd).sum := by
  constructor <;> apply List.sum_nonneg <;> intro x hx <;> obtain ⟨p, hp, rfl⟩ := List.mem_map.mp hx
  · exact (h p hp).1
  · exact (h p hp).2

/-- The running sums fit when the totals of the transactions that are reached do. -/
theorem connectTxsSums_fit_iff (hv : v.Checked) {vtx : List Transaction}
    (hcheck : ∀ tx ∈ vtx, tx.checkTransaction = true) (hs : s.Balanced) :
    (∀ x ∈ connectTxsSums P v pindex pprev fJustCheck s vtx, FitsInt64 x) ↔
      s.nValueIn.toInt +
          ((valuesReached P v pindex pprev fJustCheck s vtx).map Prod.fst).sum < 2 ^ 63 ∧
        s.nValueOut.toInt +
          ((valuesReached P v pindex pprev fJustCheck s vtx).map Prod.snd).sum < 2 ^ 63 := by
  induction vtx generalizing s with
  | nil =>
    have hA := s.nValueIn.toInt_lt
    have hB := s.nValueOut.toInt_lt
    simp only [connectTxsSums, valuesReached, List.not_mem_nil, false_implies, implies_true,
      List.map_nil, List.sum_nil, true_iff]
    omega
  | cons tx vtx ih =>
    have hcheckTx := hcheck tx List.mem_cons_self
    have hcheckRest : ∀ tx ∈ vtx, tx.checkTransaction = true :=
      fun tx htx => hcheck tx (List.mem_cons_of_mem _ htx)
    rw [connectTxsSums, valuesReached]
    cases hval : valuedInputs P v s tx with
    | none =>
      have hnone : connectTx P v pindex pprev fJustCheck s tx = none := by
        cases hconnect : connectTx P v pindex pprev fJustCheck s tx with
        | none => rfl
        | some s' =>
          obtain ⟨_, _, _, hadded⟩ := connectTx_values hconnect
          rw [hadded.valued] at hval
          cases hval
      have hA := s.nValueIn.toInt_lt
      have hB := s.nValueOut.toInt_lt
      rw [hnone, connectTxSums, hval]
      simp only [List.append_nil, List.not_mem_nil, false_implies, implies_true, List.map_nil,
        List.sum_nil, true_iff]
      omega
    | some mapInputs =>
      have hone := connectTxSums_fit_iff hv hs hcheckTx hval
      have hnonneg := (getValueInSums_fit_iff hv (valuedInputs_eq_some hval)).2.1
      rw [List.forall_mem_append, hone, List.map_cons, List.map_cons, List.sum_cons, List.sum_cons]
      cases hconnect : connectTx P v pindex pprev fJustCheck s tx with
      | none =>
        simp only [List.not_mem_nil, false_implies, implies_true, and_true, List.map_nil,
          List.sum_nil, add_zero]
      | some s' =>
        have hreached : ∀ p ∈ valuesReached P v pindex pprev fJustCheck s' vtx, 0 ≤ p.1 ∧ 0 ≤ p.2 :=
          valuesReached_nonneg hv hcheckRest
        obtain ⟨hin, hout⟩ := sum_fst_nonneg hreached
        dsimp only
        constructor
        · rintro ⟨⟨hltIn, hltOut⟩, hrest⟩
          obtain ⟨hs', hsumIn, hsumOut⟩ := connectTx_balanced hv hs hval hconnect hltIn hltOut
          have htotal := (ih hcheckRest hs').mp hrest
          omega
        · rintro ⟨hltIn, hltOut⟩
          have hltIn' : s.nValueIn.toInt + tx.namedValue mapInputs < 2 ^ 63 := by omega
          have hltOut' : s.nValueOut.toInt + tx.valueOut < 2 ^ 63 := by omega
          obtain ⟨hs', hsumIn, hsumOut⟩ := connectTx_balanced hv hs hval hconnect hltIn' hltOut'
          exact ⟨⟨hltIn', hltOut'⟩, (ih hcheckRest hs').mpr (by omega)⟩

end Block

/-- The sums of `GetValueIn`, of the fee in `accept` and of `ConnectBlock` fit into 64 bits
exactly when the outputs that are named, and for a block its own outputs too, are worth less
than 2^63 together. -/
theorem valueSums_fit_iff (P : Params) :
    (∀ (v : AcceptView) pool tx fCheckInputs, v.inputs.Checked →
      ((∀ x ∈ v.acceptSums P pool tx fCheckInputs, FitsInt64 x) ↔
        ∀ mapInputs, v.feeInputs P pool tx fCheckInputs = some mapInputs →
          tx.namedValue mapInputs < 2 ^ 63)) ∧
    ∀ (v : InputView) io b pindex pprev fJustCheck, v.Checked →
      ((∀ x ∈ connectBlockSums P v io b pindex pprev fJustCheck, FitsInt64 x) ↔
        ((blockValues P v io b pindex pprev fJustCheck).map Prod.fst).sum < 2 ^ 63 ∧
          ((blockValues P v io b pindex pprev fJustCheck).map Prod.snd).sum < 2 ^ 63) := by
  refine ⟨fun v pool tx fCheckInputs hv => AcceptView.acceptSums_fit_iff hv, ?_⟩
  intro v io b pindex pprev fJustCheck hv
  unfold connectBlockSums blockValues
  split
  · rename_i hcheck
    have hstart : (ConnectState.start b pindex fJustCheck).Balanced :=
      ⟨le_refl _, le_refl _, le_refl _, le_refl _⟩
    rw [connectTxsSums_fit_iff hv (Block.checkedBlock hcheck).transactions hstart,
      show (ConnectState.start b pindex fJustCheck).nValueIn.toInt = 0 from rfl,
      show (ConnectState.start b pindex fJustCheck).nValueOut.toInt = 0 from rfl, zero_add,
      zero_add]
  · simp

namespace Sample

/-- One output that is moved on again and again, at the least fee. -/
def moved (j : ℕ) : Transaction :=
  spend (.ofNat (j + 10)) [⟨.ofNat 256 (j + 10), 0⟩]
    [⟨990000000 * bean - .ofNat j * minTxFee, [0x51]⟩]

/-- The transactions that have moved it 94 times, all but the last output spent. -/
def movedView : InputView where
  readTxIndex hash :=
    if 11 ≤ hash.toNat ∧ hash.toNat < 105 then
      some ⟨some ⟨⟨1, firstFile_ne⟩, 1000, .ofNat hash.toNat⟩,
        [if hash.toNat = 104 then none
          else some ⟨⟨1, firstFile_ne⟩, 1000, .ofNat (hash.toNat + 1)⟩]⟩
    else none
  lookup _ := none
  readTx pos := if pos.nTxPos.toNat - 11 < 94 then some (moved (pos.nTxPos.toNat - 11)) else none
  nBestHeight := 0

def namesAll : Transaction :=
  spend 500 ((List.range 94).map fun j => ⟨.ofNat 256 (j + 11), 0⟩) [out 1]

def movedAcceptView : AcceptView where
  inputs := movedView
  containsTx _ := false
  pindexBest := [entry genesis]
  freeLimited := false

theorem checked_movedView : movedView.Checked where
  readTx := by
    have hall : ∀ j < 94, (moved j).checkTransaction = true := by decide +kernel
    intro pos tx h
    change (if pos.nTxPos.toNat - 11 < 94 then some (moved (pos.nTxPos.toNat - 11)) else none) =
      some tx at h
    split at h
    · rename_i hlt
      obtain rfl := Option.some_injective _ h
      exact hall _ hlt
    · cases h
  lookup := by
    intro hash tx h
    cases h

def movedBlock : Block := block 2 1 (beanbase 2 1 [out 100] :: (List.range 94).map moved)

/-- Before it the output is in a transaction of an earlier block. -/
def movedBlockView : InputView where
  readTxIndex hash :=
    if hash = 10 then some ⟨some ⟨⟨1, firstFile_ne⟩, 1000, 1000⟩, [none]⟩ else none
  lookup _ := none
  readTx pos :=
    if pos = ⟨⟨1, firstFile_ne⟩, 1000, 1000⟩ then
      some (spend 9 [⟨9, 0⟩] [⟨990000000 * bean + minTxFee, [0x51]⟩])
    else ((blockTxs (entry movedBlock) movedBlock).find? fun tx => tx.1 = pos).map Prod.snd
  nBestHeight := 0

end Sample

open Sample in
/-- A transaction that names the output once, and a block that only pays its reward. -/
theorem valueSums_fit_iff_moved :
    (∀ mapInputs, movedAcceptView.feeInputs params .empty (spend 500 [⟨11, 0⟩] [out 1]) true =
        some mapInputs → (spend 500 [⟨11, 0⟩] [out 1]).namedValue mapInputs < 2 ^ 63) ∧
      ((blockValues params movedView blockIo first (entry first) [entry genesis] false).map
        Prod.fst).sum < 2 ^ 63 ∧
      ((blockValues params movedView blockIo first (entry first) [entry genesis] false).map
        Prod.snd).sum < 2 ^ 63 :=
  ⟨((valueSums_fit_iff params).1 movedAcceptView .empty (spend 500 [⟨11, 0⟩] [out 1]) true
      checked_movedView).mp (by decide +kernel),
    ((valueSums_fit_iff params).2 movedView blockIo first (entry first) [entry genesis] false
      checked_movedView).mp (by decide +kernel)⟩

open Sample in
/-- A transaction that names the same money 94 times, and a block of good transactions that moves
it 94 times: their sums do not fit. -/
theorem valueSums_overflow :
    movedView.Checked ∧ namesAll.checkTransaction = true ∧
    (¬∀ x ∈ movedAcceptView.acceptSums params .empty namesAll true, FitsInt64 x) ∧
    (connectBlockChecks params movedBlockView blockIo movedBlock (entry movedBlock) [entry genesis]
      false).isSome = true ∧
    ¬∀ x ∈ connectBlockSums params movedBlockView blockIo movedBlock (entry movedBlock)
      [entry genesis] false, FitsInt64 x :=
  ⟨checked_movedView, by decide +kernel, by decide +kernel, by decide +kernel, by decide +kernel⟩

end Beancash
