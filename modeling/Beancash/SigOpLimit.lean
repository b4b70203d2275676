import Beancash.SigOpCount
import Beancash.TemplateSpec

namespace Beancash

open StackMachine

/-- A call of `VerifySignature` for an input of a transaction. -/
structure SpendCheck where
  tx : Transaction
  nIn : ℕ
  txPrev : Transaction

/-- What `VerifyScript` makes of a call, counted by `calls`. -/
def SpendCheck.count (c : Crypto) (txHash : Transaction → Uint256)
    (calls : ScriptInput → Script → Script → ℕ) (check : SpendCheck) : ℕ :=
  match check.tx.vin[check.nIn]? with
  | none => 0
  | some txin =>
    match check.txPrev.vout[txin.prevout.n.toNat]? with
    | none => 0
    | some txout =>
      if txin.prevout.hash ≠ txHash check.txPrev then 0
      else calls ⟨c, check.tx, .ofNat check.nIn, 0⟩ txin.scriptSig txout.scriptPubKey

/-- The calls of `CheckSig` in the scripts that the spending block brings with it. -/
def carriedCalls (input : ScriptInput) (scriptSig scriptPubKey : Script) : ℕ :=
  evalScriptCalls input [] scriptSig + redeemScriptCalls input scriptSig scriptPubKey

/-- The calls of `CheckSig` in the script of the output that is spent. -/
def spentScriptCalls (input : ScriptInput) (scriptSig scriptPubKey : Script) : ℕ :=
  match evalScript input [] scriptSig with
  | none => 0
  | some stack => evalScriptCalls input stack scriptPubKey

/-- All calls of `CheckSig` that `VerifyScript` makes. -/
def verifyScriptCalls (input : ScriptInput) (scriptSig scriptPubKey : Script) : ℕ :=
  carriedCalls input scriptSig scriptPubKey + spentScriptCalls input scriptSig scriptPubKey

section Checks

variable (P : Params) (v : InputView)

/-- The calls of the second loop of `ConnectInputs`, up to the first input that is refused. -/
def spendChecks (tx : Transaction) (posThisTx : TxPos) :
    ℕ → List OutPoint → MapPrevTx → List SpendCheck
  | _, [], _ => []
  | i, prevout :: prevouts, inputs =>
    match inputs.lookup prevout.hash with
    | none => []
    | some (txindex, txPrev) =>
      if txindex.spent[prevout.n.toNat]? ≠ some none then []
      else ⟨tx, i, txPrev⟩ ::
        if !P.verifySignature txPrev tx i then []
        else
          let txindex := txindex.mark prevout.n.toNat (some posThisTx)
          spendChecks tx posThisTx (i + 1) prevouts (inputs.insert prevout.hash (txindex, txPrev))

/-- The inputs of a transaction that a block gets as far as checking the signatures of. -/
def inputsToVerify (pindex : BlockIndex) (pprev : BlockPtr) (s : ConnectState) (tx : Transaction) :
    Option MapPrevTx := do
  guard !overwrites v (P.txHash tx)
  let nSigOps := s.nSigOps + tx.getLegacySigOpCount P
  guard (nSigOps.toNat ≤ maxBlockSigops)
  guard !tx.isBeanBase
  let mapInputs ← (v.fetchInputs s.mapQueuedChanges true false tx).toOption
  let nSigOps := nSigOps + (← tx.getP2SHSigOpCount P mapInputs)
  guard (nSigOps.toNat ≤ maxBlockSigops)
  let _ ← tx.getValueIn mapInputs
  let _ ← tx.getValueOut
  let _ ← checkInputs P tx mapInputs (pindex :: pprev) 0 tx.prevouts
  -- below the last checkpoint signatures are not verified
  guard !decide ((v.nBestHeight : ℤ) < P.getTotalBlocksEstimate)
  return mapInputs

/-- The calls of a round of the loop of `ConnectBlock`. -/
def connectTxChecks (pindex : BlockIndex) (pprev : BlockPtr) (s : ConnectState)
    (tx : Transaction) : List SpendCheck :=
  match inputsToVerify P v pindex pprev s tx with
  | none => []
  | some mapInputs =>
    spendChecks P tx ⟨pindex.nFile, pindex.nBlockPos, s.nTxPos⟩ 0 tx.prevouts mapInputs

/-- The calls of the loop, up to its end or to the transaction that is refused. -/
def connectTxsChecks (pindex : BlockIndex) (pprev : BlockPtr) (fJustCheck : Bool) :
    ConnectState → List Transaction → List SpendCheck
  | _, [] => []
  | s, tx :: vtx =>
    connectTxChecks P v pindex pprev s tx ++
      match connectTx P v pindex pprev fJustCheck s tx with
      | none => []
      | some s => connectTxsChecks pindex pprev fJustCheck s vtx

/-- The calls of `ConnectBlock`, whether it connects the block or not. -/
def connectBlockSpends (io : BlockIo) (b : Block) (pindex : BlockIndex) (pprev : BlockPtr)
    (fJustCheck : Bool) : List SpendCheck :=
  if b.checkBlock P io.adjustedTime true (!fJustCheck) (!fJustCheck) false then
    let nTxPos := if fJustCheck then 1 else firstTxPos pindex.nBlockPos b
    connectTxsChecks P v pindex pprev fJustCheck ⟨∅, 0, 0, 0, 0, 0, nTxPos⟩ b.vtx
  else []

end Checks

/-- The calls of `CheckSig` in a list of checks. -/
def totalCalls (c : Crypto) (P : Params) (calls : ScriptInput → Script → Script → ℕ)
    (checks : List SpendCheck) : ℕ :=
  (checks.map (SpendCheck.count c P.txHash calls)).sum

theorem UInt32.toNat_sum_of_lt {l : List UInt32} (h : (l.map UInt32.toNat).sum < 2 ^ 32) :
    l.sum.toNat = (l.map UInt32.toNat).sum := by
  induction l with
  | nil => rfl
  | cons a l ih =>
    rw [List.map_cons, List.sum_cons] at h ⊢
    rw [List.sum_cons, UInt32.toNat_add, ih (by omega)]
    exact Nat.mod_eq_of_lt h

/-- The count of the script behind the hash that an input spends, if it spends one. -/
def p2shOps (inputs : MapPrevTx) (txin : TxIn) : ℕ :=
  match getOutputFor inputs txin.prevout with
  | none => 0
  | some o =>
    if o.scriptPubKey.isPayToScriptHash then (o.scriptPubKey.getSigOpCountOf txin.scriptSig).toNat
    else 0

theorem p2shOps_le (inputs : MapPrevTx) (txin : TxIn) :
    p2shOps inputs txin ≤ 20 * txin.scriptSig.length := by
  unfold p2shOps
  split
  · exact Nat.zero_le _
  · split
    · exact Script.getSigOpCountOf_le (by assumption) _
    · exact Nat.zero_le _

section Counts

variable {c : Crypto} {P : Params} {v : InputView}

theorem toNat_sumP2SHSigOps {inputs : MapPrevTx} {vin : List TxIn} {n m : UInt32}
    (h : sumP2SHSigOps (P.withScripts c) inputs n vin = some m)
    (hn : n.toNat + (vin.map (p2shOps inputs)).sum < 2 ^ 32) :
    m.toNat = n.toNat + (vin.map (p2shOps inputs)).sum := by
  induction vin generalizing n with
  | nil =>
    obtain rfl := Option.some_injective _ h
    rfl
  | cons txin vin ih =>
    rw [sumP2SHSigOps] at h
    rw [List.map_cons, List.sum_cons] at hn ⊢
    cases ho : getOutputFor inputs txin.prevout with
    | none =>
      rw [ho] at h
      cases h
    | some o =>
      rw [ho] at h
      change sumP2SHSigOps (P.withScripts c) inputs (if o.scriptPubKey.isPayToScriptHash then
        n + o.scriptPubKey.getSigOpCountOf txin.scriptSig else n) vin = some m at h
      have hops : p2shOps inputs txin = if o.scriptPubKey.isPayToScriptHash then
          (o.scriptPubKey.getSigOpCountOf txin.scriptSig).toNat else 0 := by
        rw [p2shOps, ho]
      have hadd : (if o.scriptPubKey.isPayToScriptHash then
          n + o.scriptPubKey.getSigOpCountOf txin.scriptSig else n).toNat =
            n.toNat + p2shOps inputs txin := by
        rw [hops] at hn ⊢
        split
        · rename_i hhash
          rw [if_pos hhash] at hn
          rw [UInt32.toNat_add]
          exact Nat.mod_eq_of_lt (by omega)
        · rfl
      have hrest := ih h (by rw [hadd]; omega)
      rw [hadd] at hrest
      omega

/-- The counts of the scripts of a transaction. -/
def scriptSigOps (txin : TxIn) : ℕ := (txin.scriptSig.getSigOpCount false).toNat

def scriptPubKeyOps (o : TxOut) : ℕ := (o.scriptPubKey.getSigOpCount false).toNat

theorem sum_scriptSigOps_le (tx : Transaction) :
    (tx.vin.map scriptSigOps).sum + (tx.vout.map scriptPubKeyOps).sum ≤ 20 * tx.serializeSize := by
  have hvin : (tx.vin.map scriptSigOps).sum ≤ (tx.vin.map fun i => 20 * i.scriptSig.length).sum :=
    List.sum_le_sum fun i _ => i.scriptSig.getSigOpCount_le false
  have hvout : (tx.vout.map scriptPubKeyOps).sum ≤
      (tx.vout.map fun o => 20 * o.scriptPubKey.length).sum :=
    List.sum_le_sum fun o _ => o.scriptPubKey.getSigOpCount_le false
  rw [List.sum_map_mul_left] at hvin hvout
  have hin := tx.sum_scriptSig_le
  have hout := tx.sum_scriptPubKey_le
  unfold Transaction.serializeSize
  omega

theorem sum_p2shOps_le (inputs : MapPrevTx) (tx : Transaction) :
    (tx.vin.map (p2shOps inputs)).sum ≤ 20 * tx.serializeSize := by
  have hvin : (tx.vin.map (p2shOps inputs)).sum ≤
      (tx.vin.map fun i => 20 * i.scriptSig.length).sum :=
    List.sum_le_sum fun i _ => p2shOps_le inputs i
  rw [List.sum_map_mul_left] at hvin
  have hin := tx.sum_scriptSig_le
  unfold Transaction.serializeSize
  omega

theorem toNat_getLegacySigOpCount {tx : Transaction} (hsize : tx.serializeSize ≤ maxBlockSize) :
    (tx.getLegacySigOpCount (P.withScripts c)).toNat =
      (tx.vin.map scriptSigOps).sum + (tx.vout.map scriptPubKeyOps).sum := by
  have hle := sum_scriptSigOps_le tx
  have hmax : maxBlockSize = 20000000 := rfl
  have hvin : ((tx.vin.map fun i => i.scriptSig.getSigOpCount false).map UInt32.toNat).sum =
      (tx.vin.map scriptSigOps).sum := by
    rw [List.map_map]
    rfl
  have hvout : ((tx.vout.map fun o => o.scriptPubKey.getSigOpCount false).map UInt32.toNat).sum =
      (tx.vout.map scriptPubKeyOps).sum := by
    rw [List.map_map]
    rfl
  change ((tx.vin.map fun i => i.scriptSig.getSigOpCount false).sum +
    (tx.vout.map fun o => o.scriptPubKey.getSigOpCount false).sum).toNat = _
  rw [UInt32.toNat_add, UInt32.toNat_sum_of_lt (by omega), UInt32.toNat_sum_of_lt (by omega), hvin,
    hvout]
  exact Nat.mod_eq_of_lt (by omega)

theorem redeemScriptCalls_of_not_hash (input : ScriptInput) (scriptSig : Script)
    {scriptPubKey : Script} (hhash : scriptPubKey.isPayToScriptHash = false) :
    redeemScriptCalls input scriptSig scriptPubKey = 0 := by
  unfold redeemScriptCalls
  simp only [hhash, Bool.false_eq_true, if_false, ite_self]
  split
  · rfl
  · split <;> rfl

theorem carriedCalls_le (input : ScriptInput) (scriptSig scriptPubKey : Script) :
    carriedCalls input scriptSig scriptPubKey ≤ (scriptSig.getSigOpCount false).toNat +
      if scriptPubKey.isPayToScriptHash then (scriptPubKey.getSigOpCountOf scriptSig).toNat
      else 0 := by
  have hsig := evalScriptCalls_le input false [] scriptSig
  unfold carriedCalls
  split
  · rename_i hhash
    exact Nat.add_le_add hsig (redeemScriptCalls_le input scriptSig hhash)
  · rename_i hhash
    rw [redeemScriptCalls_of_not_hash input scriptSig (by simpa using hhash)]
    exact hsig

theorem totalCalls_cons (calls : ScriptInput → Script → Script → ℕ) (check : SpendCheck)
    (checks : List SpendCheck) : totalCalls c P calls (check :: checks) =
      check.count c P.txHash calls + totalCalls c P calls checks := by
  rw [totalCalls, List.map_cons, List.sum_cons]
  rfl

theorem totalCalls_append (calls : ScriptInput → Script → Script → ℕ)
    (checks checks' : List SpendCheck) : totalCalls c P calls (checks ++ checks') =
      totalCalls c P calls checks + totalCalls c P calls checks' := by
  rw [totalCalls, List.map_append, List.sum_append]
  rfl

theorem getOutputFor_insert {inputs : MapPrevTx} {hash : Uint256} {txindex txindex' : TxIndex}
    {txPrev : Transaction} (h : inputs.lookup hash = some (txindex, txPrev)) (prevout : OutPoint) :
    getOutputFor (inputs.insert hash (txindex', txPrev)) prevout = getOutputFor inputs prevout := by
  unfold getOutputFor
  by_cases heq : prevout.hash = hash
  · rw [heq, AList.lookup_insert, h]
    rfl
  · rw [AList.lookup_insert_ne heq]

theorem count_carried_le {tx txPrev : Transaction} {i : ℕ} {txin : TxIn} {inputs : MapPrevTx}
    {txindex : TxIndex} (hvin : tx.vin[i]? = some txin)
    (hprev : inputs.lookup txin.prevout.hash = some (txindex, txPrev)) :
    SpendCheck.count c P.txHash carriedCalls ⟨tx, i, txPrev⟩ ≤
      scriptSigOps txin + p2shOps inputs txin := by
  unfold SpendCheck.count p2shOps
  rw [hvin, getOutputFor, hprev, Option.bind_some]
  dsimp only
  cases txPrev.vout[txin.prevout.n.toNat]? with
  | none => exact Nat.zero_le _
  | some txout =>
    dsimp only
    split
    · exact Nat.zero_le _
    · exact carriedCalls_le _ _ _

theorem spendChecks_carried_le {tx : Transaction} {posThisTx : TxPos} {mapInputs inputs : MapPrevTx}
    (hsame : ∀ prevout, getOutputFor inputs prevout = getOutputFor mapInputs prevout) {i : ℕ}
    {vin : List TxIn} (hvin : tx.vin.drop i = vin) :
    totalCalls c P carriedCalls (spendChecks (P.withScripts c) tx posThisTx i
        (vin.map TxIn.prevout) inputs) ≤
      (vin.map scriptSigOps).sum + (vin.map (p2shOps mapInputs)).sum := by
  induction vin generalizing inputs i with
  | nil => exact Nat.zero_le _
  | cons txin vin ih =>
    have hhead : tx.vin[i]? = some txin := by
      have hzero := congrArg (fun l => l[0]?) hvin
      rwa [List.getElem?_drop] at hzero
    have hdrop : tx.vin.drop (i + 1) = vin := by
      rw [← List.tail_drop, hvin]
      rfl
    rw [List.map_cons, List.map_cons, List.map_cons, List.sum_cons, List.sum_cons, spendChecks]
    cases hprev : inputs.lookup txin.prevout.hash with
    | none => exact Nat.zero_le _
    | some r =>
      obtain ⟨txindex, txPrev⟩ := r
      have hone := count_carried_le (c := c) (P := P) hhead hprev
      have hops : p2shOps inputs txin = p2shOps mapInputs txin := by
        rw [p2shOps, p2shOps, hsame]
      dsimp only
      split
      · exact Nat.zero_le _
      · rw [totalCalls_cons]
        have hrest : totalCalls c P carriedCalls (if !(P.withScripts c).verifySignature txPrev tx i
            then [] else spendChecks (P.withScripts c) tx posThisTx (i + 1) (vin.map TxIn.prevout)
              (inputs.insert txin.prevout.hash
                (txindex.mark txin.prevout.n.toNat (some posThisTx), txPrev))) ≤
            (vin.map scriptSigOps).sum + (vin.map (p2shOps mapInputs)).sum := by
          split
          · exact Nat.zero_le _
          · apply ih _ hdrop
            intro prevout
            rw [getOutputFor_insert hprev, hsame]
        omega

theorem prevouts_carried_le (tx : Transaction) (posThisTx : TxPos) (mapInputs : MapPrevTx) :
    totalCalls c P carriedCalls
        (spendChecks (P.withScripts c) tx posThisTx 0 tx.prevouts mapInputs) ≤
      (tx.vin.map scriptSigOps).sum + (tx.vin.map (p2shOps mapInputs)).sum :=
  spendChecks_carried_le (fun _ => rfl) List.drop_zero

variable {pindex : BlockIndex} {pprev : BlockPtr} {s s' : ConnectState} {tx : Transaction}

theorem inputsToVerify_eq_some {mapInputs : MapPrevTx}
    (h : inputsToVerify P v pindex pprev s tx = some mapInputs) :
    tx.isBeanBase = false ∧
      (v.fetchInputs s.mapQueuedChanges true false tx).toOption = some mapInputs ∧
      ∃ n, tx.getP2SHSigOpCount P mapInputs = some n ∧
        (s.nSigOps + tx.getLegacySigOpCount P).toNat ≤ maxBlockSigops ∧
        (s.nSigOps + tx.getLegacySigOpCount P + n).toNat ≤ maxBlockSigops := by
  simp only [inputsToVerify, Option.bind_eq_bind, Option.bind_eq_some_iff, Option.pure_def,
    Option.some.injEq, Option.guard_eq_some'] at h
  obtain ⟨_, _, _, hlegacy, _, hbase, inputs, hfetch, n, hn, _, hle, _, _, _, _, _, _, _, _,
    rfl⟩ := h
  exact ⟨by simpa using hbase, hfetch, n, hn, hlegacy, hle⟩

theorem connectTx_nSigOps {fJustCheck : Bool}
    (h : connectTx P v pindex pprev fJustCheck s tx = some s') :
    s'.nSigOps.toNat ≤ maxBlockSigops ∧
      ((tx.isBeanBase = true ∧ s'.nSigOps = s.nSigOps + tx.getLegacySigOpCount P) ∨
      ∃ mapInputs n, tx.isBeanBase = false ∧
        (v.fetchInputs s.mapQueuedChanges true false tx).toOption = some mapInputs ∧
        tx.getP2SHSigOpCount P mapInputs = some n ∧
        s'.nSigOps = s.nSigOps + tx.getLegacySigOpCount P + n) := by
  simp only [connectTx, Option.bind_eq_bind, Option.bind_eq_some_iff, Option.pure_def,
    Option.some.injEq, Option.guard_eq_some'] at h
  obtain ⟨_, _, _, hlegacy, ⟨queue, nSigOps, nTxValueIn, nTxValueOut⟩, hbody, rfl⟩ := h
  unfold connectTxBody at hbody
  cases hbase : tx.isBeanBase with
  | true =>
    rw [hbase, if_pos rfl] at hbody
    obtain ⟨o, _, heq⟩ := Option.map_eq_some_iff.mp hbody
    cases heq
    exact ⟨hlegacy, .inl ⟨rfl, rfl⟩⟩
  | false =>
    rw [hbase, if_neg Bool.false_ne_true] at hbody
    simp only [connectTxInputs, Option.bind_eq_bind, Option.bind_eq_some_iff, Option.pure_def,
      Option.some.injEq, Prod.mk.injEq, Option.guard_eq_some'] at hbody
    obtain ⟨inputs, hfetch, n, hn, _, hle, _, _, _, _, _, _, _, rfl, _, _⟩ := hbody
    exact ⟨hle, .inr ⟨inputs, n, rfl, hfetch, hn, rfl⟩⟩

theorem toNat_add_legacy (hs : s.nSigOps.toNat ≤ maxBlockSigops)
    (hsize : tx.serializeSize ≤ maxBlockSize) :
    (s.nSigOps + tx.getLegacySigOpCount (P.withScripts c)).toNat =
      s.nSigOps.toNat + (tx.vin.map scriptSigOps).sum + (tx.vout.map scriptPubKeyOps).sum := by
  have hops := sum_scriptSigOps_le tx
  have hlegacy := toNat_getLegacySigOpCount (c := c) (P := P) hsize
  have hmaxSize : maxBlockSize = 20000000 := rfl
  have hmaxOps : maxBlockSigops = 400000 := rfl
  rw [UInt32.toNat_add, hlegacy, Nat.mod_eq_of_lt (by omega), Nat.add_assoc]

theorem toNat_add_p2sh {mapInputs : MapPrevTx} {n : UInt32} (hs : s.nSigOps.toNat ≤ maxBlockSigops)
    (hsize : tx.serializeSize ≤ maxBlockSize) (hbase : tx.isBeanBase = false)
    (hn : tx.getP2SHSigOpCount (P.withScripts c) mapInputs = some n) :
    (s.nSigOps + tx.getLegacySigOpCount (P.withScripts c) + n).toNat =
      s.nSigOps.toNat + (tx.vin.map scriptSigOps).sum + (tx.vout.map scriptPubKeyOps).sum +
        (tx.vin.map (p2shOps mapInputs)).sum := by
  have hops := sum_scriptSigOps_le tx
  have hlegacy := toNat_add_legacy (c := c) (P := P) hs hsize
  have hp2sh := sum_p2shOps_le mapInputs tx
  have hmaxSize : maxBlockSize = 20000000 := rfl
  have hmaxOps : maxBlockSigops = 400000 := rfl
  rw [Transaction.getP2SHSigOpCount, hbase, if_neg Bool.false_ne_true] at hn
  have hsum := toNat_sumP2SHSigOps hn (by change 0 + _ < _; omega)
  rw [show (0 : UInt32).toNat = 0 from rfl, Nat.zero_add] at hsum
  rw [UInt32.toNat_add, hlegacy, hsum, Nat.mod_eq_of_lt (by omega)]

/-- What a round asks of `CheckSig` by the scripts of the block fits under the limit. -/
theorem connectTxChecks_carried_le (hs : s.nSigOps.toNat ≤ maxBlockSigops)
    (hsize : tx.serializeSize ≤ maxBlockSize) :
    s.nSigOps.toNat + totalCalls c P carriedCalls
      (connectTxChecks (P.withScripts c) v pindex pprev s tx) ≤ maxBlockSigops := by
  unfold connectTxChecks
  cases hin : inputsToVerify (P.withScripts c) v pindex pprev s tx with
  | none => exact hs
  | some mapInputs =>
    obtain ⟨hbase, _, n, hn, _, hle⟩ := inputsToVerify_eq_some hin
    rw [toNat_add_p2sh hs hsize hbase hn] at hle
    have hcalls := prevouts_carried_le (c := c) (P := P) tx
      ⟨pindex.nFile, pindex.nBlockPos, s.nTxPos⟩ mapInputs
    dsimp only
    omega

/-- The count goes up by what a round asks for, and by what its outputs may ask for later. -/
theorem connectTx_carried_le {fJustCheck : Bool} (hs : s.nSigOps.toNat ≤ maxBlockSigops)
    (hsize : tx.serializeSize ≤ maxBlockSize)
    (h : connectTx (P.withScripts c) v pindex pprev fJustCheck s tx = some s') :
    s.nSigOps.toNat + totalCalls c P carriedCalls
        (connectTxChecks (P.withScripts c) v pindex pprev s tx) +
      (tx.vout.map scriptPubKeyOps).sum ≤ s'.nSigOps.toNat := by
  obtain ⟨_, ⟨hbase, hnew⟩ | ⟨mapInputs, n, hbase, hfetch, hn, hnew⟩⟩ := connectTx_nSigOps h
  · have hnone : connectTxChecks (P.withScripts c) v pindex pprev s tx = [] := by
      unfold connectTxChecks
      cases hin : inputsToVerify (P.withScripts c) v pindex pprev s tx with
      | none => rfl
      | some mapInputs =>
        rw [(inputsToVerify_eq_some hin).1] at hbase
        cases hbase
    rw [hnone, hnew, toNat_add_legacy hs hsize]
    change _ + 0 + _ ≤ _
    omega
  · rw [hnew, toNat_add_p2sh hs hsize hbase hn]
    unfold connectTxChecks
    cases hin : inputsToVerify (P.withScripts c) v pindex pprev s tx with
    | none =>
      change _ + 0 + _ ≤ _
      omega
    | some mapInputs' =>
      obtain ⟨_, hfetch', _⟩ := inputsToVerify_eq_some hin
      obtain rfl := Option.some_injective _ (hfetch.symm.trans hfetch')
      have hcalls := prevouts_carried_le (c := c) (P := P) tx
        ⟨pindex.nFile, pindex.nBlockPos, s.nTxPos⟩ mapInputs
      dsimp only
      omega

theorem connectTxsChecks_carried_le {fJustCheck : Bool} {vtx : List Transaction}
    (hs : s.nSigOps.toNat ≤ maxBlockSigops) (hsize : ∀ tx ∈ vtx, tx.serializeSize ≤ maxBlockSize) :
    s.nSigOps.toNat + totalCalls c P carriedCalls
      (connectTxsChecks (P.withScripts c) v pindex pprev fJustCheck s vtx) ≤ maxBlockSigops := by
  induction vtx generalizing s with
  | nil => exact hs
  | cons tx vtx ih =>
    have htx := hsize tx List.mem_cons_self
    have hone : s.nSigOps.toNat + totalCalls c P carriedCalls
        (connectTxChecks (P.withScripts c) v pindex pprev s tx) ≤ maxBlockSigops :=
      connectTxChecks_carried_le hs htx
    rw [connectTxsChecks, totalCalls_append]
    cases hconnect : connectTx (P.withScripts c) v pindex pprev fJustCheck s tx with
    | none => exact hone
    | some s' =>
      have hnext := connectTx_carried_le hs htx hconnect
      have hrest := ih (connectTx_nSigOps hconnect).1 fun tx htx =>
        hsize tx (List.mem_cons_of_mem _ htx)
      dsimp only
      omega

theorem foldlM_connectTx_carried_le {fJustCheck : Bool} {vtx : List Transaction}
    (hs : s.nSigOps.toNat ≤ maxBlockSigops) (hsize : ∀ tx ∈ vtx, tx.serializeSize ≤ maxBlockSize)
    (h : vtx.foldlM (connectTx (P.withScripts c) v pindex pprev fJustCheck) s = some s') :
    s.nSigOps.toNat + totalCalls c P carriedCalls
        (connectTxsChecks (P.withScripts c) v pindex pprev fJustCheck s vtx) +
      ((vtx.flatMap Transaction.vout).map scriptPubKeyOps).sum ≤ s'.nSigOps.toNat ∧
    s'.nSigOps.toNat ≤ maxBlockSigops := by
  induction vtx generalizing s with
  | nil =>
    obtain rfl := Option.some_injective _ h
    exact ⟨Nat.le_refl _, hs⟩
  | cons tx vtx ih =>
    rw [List.foldlM_cons] at h
    obtain ⟨s₁, h₁, hrest⟩ := Option.bind_eq_some_iff.mp h
    have hone := connectTx_carried_le hs (hsize tx List.mem_cons_self) h₁
    have hnext := ih (connectTx_nSigOps h₁).1 (fun tx htx => hsize tx (List.mem_cons_of_mem _ htx))
      hrest
    rw [connectTxsChecks, totalCalls_append, h₁, List.flatMap_cons, List.map_append,
      List.sum_append]
    dsimp only
    omega

theorem evalScriptCalls_outputs_le (vout : List TxOut) (later : ℕ → ScriptInput × Stack) (k : ℕ) :
    ((vout.zipIdx k).map fun o => evalScriptCalls (later o.2).1 (later o.2).2
      o.1.scriptPubKey).sum ≤ (vout.map scriptPubKeyOps).sum := by
  induction vout generalizing k with
  | nil => exact Nat.le_refl _
  | cons o vout ih =>
    rw [List.zipIdx_cons, List.map_cons, List.map_cons, List.sum_cons, List.sum_cons]
    exact Nat.add_le_add (evalScriptCalls_le _ false _ _) (ih (k + 1))

/-- `EvalScript` calls `CheckSig` no more often than the script counts for, and `VerifyScript`
does so for the script behind a hash. Under the limit of a block are the calls of its `scriptSig`s
and of the scripts behind the hashes it spends, and the calls of its own outputs. -/
theorem checkSig_calls_counted (c : Crypto) (P : Params) :
    (∀ input stack script, evalScriptCalls input stack script ≤
      (Script.getSigOpCount script false).toNat) ∧
    (∀ input scriptSig scriptPubKey, scriptPubKey.isPayToScriptHash = true →
      redeemScriptCalls input scriptSig scriptPubKey ≤
        (scriptPubKey.getSigOpCountOf scriptSig).toNat) ∧
    ∀ v io b pindex pprev fJustCheck,
      totalCalls c P carriedCalls
        (connectBlockSpends (P.withScripts c) v io b pindex pprev fJustCheck) ≤ maxBlockSigops ∧
      ∀ s, connectBlockChecks (P.withScripts c) v io b pindex pprev fJustCheck = some s →
        ∀ later : ℕ → ScriptInput × Stack,
          totalCalls c P carriedCalls
              (connectBlockSpends (P.withScripts c) v io b pindex pprev fJustCheck) +
            ((b.vtx.flatMap Transaction.vout).zipIdx.map fun o =>
              evalScriptCalls (later o.2).1 (later o.2).2 o.1.scriptPubKey).sum ≤
            maxBlockSigops := by
  refine ⟨fun input => evalScriptCalls_le input false,
    fun input scriptSig _ => redeemScriptCalls_le input scriptSig, ?_⟩
  intro v io b pindex pprev fJustCheck
  constructor
  · unfold connectBlockSpends
    split
    · rename_i hcheck
      let s : ConnectState := ⟨∅, 0, 0, 0, 0, 0,
        if fJustCheck then 1 else firstTxPos pindex.nBlockPos b⟩
      have hle : s.nSigOps.toNat + totalCalls c P carriedCalls (connectTxsChecks
          (P.withScripts c) v pindex pprev fJustCheck s b.vtx) ≤ maxBlockSigops :=
        connectTxsChecks_carried_le (Nat.zero_le _) fun tx htx =>
          Transaction.serializeSize_le ((Block.checkedBlock hcheck).transactions tx htx)
      rw [show s.nSigOps.toNat = 0 from rfl, Nat.zero_add] at hle
      exact hle
    · exact Nat.zero_le _
  · intro s h later
    simp only [connectBlockChecks, Option.bind_eq_bind, Option.bind_eq_some_iff, Option.pure_def,
      Option.some.injEq, Option.guard_eq_some'] at h
    obtain ⟨_, hcheck, s', hfold, _, _, rfl⟩ := h
    obtain ⟨hle, hmax⟩ := foldlM_connectTx_carried_le (c := c) (P := P) (Nat.zero_le _)
      (fun tx htx => Transaction.serializeSize_le ((Block.checkedBlock hcheck).transactions tx htx))
      hfold
    have hout := evalScriptCalls_outputs_le (b.vtx.flatMap Transaction.vout) later 0
    rw [show (0 : UInt32).toNat = 0 from rfl, Nat.zero_add] at hle
    unfold connectBlockSpends
    rw [if_pos hcheck]
    dsimp only
    omega

end Counts

/-- A run with the calls that its rounds make. -/
inductive CallsRun (input : ScriptInput) : EvalState → ℕ → EvalState → Prop where
  | refl (s : EvalState) : CallsRun input s 0 s
  | head {s t u : EvalState} {n : ℕ} (hstep : EvalStep input s t) (hrest : CallsRun input t n u) :
    CallsRun input s (madeCalls (callsByStep input s) + n) u

namespace CallsRun

variable {input : ScriptInput} {s t u : EvalState} {m n : ℕ}

theorem run (h : CallsRun input s n u) : EvalRun input s u := by
  induction h with
  | refl => exact .refl
  | head hstep _ ih => exact .head hstep ih

theorem callsByLoop_eq (h : CallsRun input s n u) (hend : u.pc = []) {fuel : ℕ}
    (hfuel : s.pc.length ≤ fuel) : callsByLoop input fuel s = n := by
  induction h generalizing fuel with
  | refl =>
    cases fuel with
    | zero => rfl
    | succ fuel => rw [callsByLoop, if_pos hend]
  | @head s t u n hstep _ ih =>
    have hlt := pc_evalStep input t hstep
    cases fuel with
    | zero => omega
    | succ fuel =>
      have hne : s.pc ≠ [] := by
        intro hnil
        rw [hnil] at hlt
        exact absurd hlt (Nat.not_lt_zero _)
      rw [callsByLoop, if_neg hne, show evalStep input s = .ok t from hstep]
      exact congrArg _ (ih hend (by omega))

end CallsRun

/-- Outputs of one transaction that are all unspent and pay to the same script. -/
structure FreeOutputs (inputs : MapPrevTx) (hash : Uint256) (txindex : TxIndex)
    (txPrev : Transaction) (script : Script) (prevouts : List OutPoint) : Prop where
  lookup : inputs.lookup hash = some (txindex, txPrev)
  hash_eq : ∀ o ∈ prevouts, o.hash = hash
  free : ∀ o ∈ prevouts, txindex.spent[o.n.toNat]? = some none
  pays : ∀ o ∈ prevouts, ∃ nValue, txPrev.vout[o.n.toNat]? = some ⟨nValue, script⟩
  nodup : prevouts.Nodup

namespace FreeOutputs

variable {inputs : MapPrevTx} {hash : Uint256} {txindex : TxIndex} {txPrev : Transaction}
  {script : Script} {o : OutPoint} {prevouts : List OutPoint}

theorem tail (h : FreeOutputs inputs hash txindex txPrev script (o :: prevouts)) (pos : TxPos) :
    FreeOutputs (inputs.insert hash (txindex.mark o.n.toNat (some pos), txPrev)) hash
      (txindex.mark o.n.toNat (some pos)) txPrev script prevouts where
  lookup := AList.lookup_insert inputs
  hash_eq := fun o' ho' => h.hash_eq o' (List.mem_cons_of_mem _ ho')
  free := by
    intro o' ho'
    have hne : o.n.toNat ≠ o'.n.toNat := by
      intro heq
      have hhash := (h.hash_eq o List.mem_cons_self).trans
        (h.hash_eq o' (List.mem_cons_of_mem _ ho')).symm
      have hoo : o = o' := OutPoint.key_injective (Prod.ext hhash heq)
      exact (List.nodup_cons.mp h.nodup).1 (hoo ▸ ho')
    exact (List.getElem?_set_ne hne).trans (h.free o' (List.mem_cons_of_mem _ ho'))
  pays := fun o' ho' => h.pays o' (List.mem_cons_of_mem _ ho')
  nodup := (List.nodup_cons.mp h.nodup).2

theorem lookup_head (h : FreeOutputs inputs hash txindex txPrev script (o :: prevouts)) :
    inputs.lookup o.hash = some (txindex, txPrev) := by
  rw [h.hash_eq o List.mem_cons_self]
  exact h.lookup

theorem spendInputs {P : Params} {tx : Transaction} {posThisTx : TxPos} {i : ℕ}
    (h : FreeOutputs inputs hash txindex txPrev script prevouts)
    (hverify : ∀ j < prevouts.length, P.verifySignature txPrev tx (i + j) = true)
    (queue : QueuedChanges) :
    ∃ queue', Beancash.spendInputs P tx posThisTx true true i prevouts inputs queue =
      some queue' ∧ ∀ hash', hash' ≠ hash → queue'.lookup hash' = queue.lookup hash' := by
  induction prevouts generalizing i inputs txindex queue with
  | nil => exact ⟨queue, rfl, fun _ _ => rfl⟩
  | cons o prevouts ih =>
    have hone := hverify 0 (Nat.zero_lt_succ _)
    rw [Nat.add_zero] at hone
    have hfree := h.free o List.mem_cons_self
    rw [Beancash.spendInputs, h.lookup_head]
    simp only [hfree, hone, ne_eq, not_true_eq_false, if_false, Bool.not_true, Bool.and_false,
      Bool.false_eq_true, if_true]
    rw [h.hash_eq o List.mem_cons_self]
    have hrest : ∀ j < prevouts.length, P.verifySignature txPrev tx (i + 1 + j) = true := by
      intro j hj
      rw [Nat.add_assoc, Nat.add_comm 1]
      exact hverify (j + 1) (Nat.succ_lt_succ hj)
    obtain ⟨queue', hspend, hother⟩ := ih (h.tail posThisTx) hrest
      (queue.insert hash (txindex.mark o.n.toNat (some posThisTx)))
    refine ⟨queue', hspend, fun hash' hne => ?_⟩
    rw [hother hash' hne, AList.lookup_insert_ne hne]

theorem totalCalls_spendChecks {c : Crypto} {P : Params} {tx : Transaction} {posThisTx : TxPos}
    {i k : ℕ} {calls : ScriptInput → Script → Script → ℕ}
    (h : FreeOutputs inputs hash txindex txPrev script prevouts)
    (hverify : ∀ j < prevouts.length, P.verifySignature txPrev tx (i + j) = true)
    (hcount : ∀ j < prevouts.length,
      SpendCheck.count c P.txHash calls ⟨tx, i + j, txPrev⟩ = k) :
    totalCalls c P calls (spendChecks P tx posThisTx i prevouts inputs) = prevouts.length * k := by
  induction prevouts generalizing i inputs txindex with
  | nil => rw [List.length_nil, Nat.zero_mul]; rfl
  | cons o prevouts ih =>
    have hone := hverify 0 (Nat.zero_lt_succ _)
    have hcountOne := hcount 0 (Nat.zero_lt_succ _)
    rw [Nat.add_zero] at hone hcountOne
    have hfree := h.free o List.mem_cons_self
    rw [spendChecks, h.lookup_head]
    simp only [hfree, hone, ne_eq, not_true_eq_false, if_false, Bool.not_true,
      Bool.false_eq_true]
    rw [totalCalls_cons, hcountOne, h.hash_eq o List.mem_cons_self, ih (h.tail posThisTx),
      List.length_cons, Nat.succ_mul, Nat.add_comm]
    · intro j hj
      rw [Nat.add_assoc, Nat.add_comm 1]
      exact hverify (j + 1) (Nat.succ_lt_succ hj)
    · intro j hj
      rw [Nat.add_assoc, Nat.add_comm 1]
      exact hcount (j + 1) (Nat.succ_lt_succ hj)

theorem of_cons (h : FreeOutputs inputs hash txindex txPrev script (o :: prevouts)) :
    FreeOutputs inputs hash txindex txPrev script prevouts where
  lookup := h.lookup
  hash_eq := fun o' ho' => h.hash_eq o' (List.mem_cons_of_mem _ ho')
  free := fun o' ho' => h.free o' (List.mem_cons_of_mem _ ho')
  pays := fun o' ho' => h.pays o' (List.mem_cons_of_mem _ ho')
  nodup := (List.nodup_cons.mp h.nodup).2

theorem checkInputs {P : Params} {tx : Transaction} {pindexBlock : BlockPtr} {nValueIn : Int64}
    (h : FreeOutputs inputs hash txindex txPrev script prevouts)
    (hgenerated : (txPrev.isBeanBase || txPrev.isBeanStake) = false)
    (htime : ¬tx.nTime < txPrev.nTime) (hrange : moneyRange nValueIn = true)
    (hzero : ∀ o ∈ prevouts, txPrev.vout[o.n.toNat]? = some ⟨0, script⟩) :
    Beancash.checkInputs P tx inputs pindexBlock nValueIn prevouts = some nValueIn := by
  induction prevouts with
  | nil => rfl
  | cons o prevouts ih =>
    have hbound : ¬txindex.spent.length ≤ o.n.toNat :=
      Nat.not_le.mpr (List.getElem?_eq_some_iff.mp (h.free o List.mem_cons_self)).1
    have hnothing : moneyRange 0 = true := by decide
    rw [Beancash.checkInputs, h.lookup_head]
    simp only [hzero o List.mem_cons_self, hbound, if_false, hgenerated, Bool.false_and,
      Bool.false_eq_true, htime, hnothing, Int64.add_zero, hrange, Bool.not_true, Bool.or_self]
    exact ih h.of_cons fun o' ho' => hzero o' (List.mem_cons_of_mem _ ho')

theorem getOutputFor (h : FreeOutputs inputs hash txindex txPrev script (o :: prevouts)) :
    Beancash.getOutputFor inputs o = txPrev.vout[o.n.toNat]? := by
  rw [Beancash.getOutputFor, h.lookup_head]
  rfl

theorem sumValueIn {nResult : Int64} (h : FreeOutputs inputs hash txindex txPrev script prevouts)
    (hzero : ∀ o ∈ prevouts, txPrev.vout[o.n.toNat]? = some ⟨0, script⟩) :
    Beancash.sumValueIn inputs nResult prevouts = some nResult := by
  induction prevouts with
  | nil => rfl
  | cons o prevouts ih =>
    rw [Beancash.sumValueIn, h.getOutputFor, hzero o List.mem_cons_self]
    simp only [Int64.add_zero]
    exact ih h.of_cons fun o' ho' => hzero o' (List.mem_cons_of_mem _ ho')

theorem sumP2SHSigOps {P : Params} {nSigOps : UInt32} {vin : List TxIn}
    (h : FreeOutputs inputs hash txindex txPrev script (vin.map TxIn.prevout))
    (hhash : P.isPayToScriptHash script = false) :
    Beancash.sumP2SHSigOps P inputs nSigOps vin = some nSigOps := by
  induction vin with
  | nil => rfl
  | cons txin vin ih =>
    obtain ⟨nValue, hout⟩ := h.pays txin.prevout List.mem_cons_self
    rw [Beancash.sumP2SHSigOps, h.getOutputFor, hout]
    simp only [hhash, Bool.false_eq_true, if_false]
    exact ih h.of_cons

end FreeOutputs

theorem fetchLoop_of_isSome {v : InputView} {queue : QueuedChanges} {fBlock fMiner : Bool}
    {prevouts : List OutPoint} {inputs : MapPrevTx}
    (h : ∀ o ∈ prevouts, (inputs.lookup o.hash).isSome = true) :
    v.fetchLoop queue fBlock fMiner prevouts inputs = some inputs := by
  induction prevouts with
  | nil => rfl
  | cons o prevouts ih =>
    rw [InputView.fetchLoop, if_pos (h o List.mem_cons_self)]
    exact ih fun o' ho' => h o' (List.mem_cons_of_mem _ ho')

namespace Sample

def checkSigParams : Params := params.withScripts scriptInput.crypto

/-- A canonical signature and a canonical key, that do not belong together. -/
def vchSig : List UInt8 := [0x30, 6, 2, 1, 1, 2, 1, 1, 1]

def vchPubKey : List UInt8 := 2 :: .replicate 32 0

/-- `OP_2DUP OP_CHECKSIG OP_DROP`, as often as there may be operations. -/
def checkRounds (n : ℕ) : Script := (List.replicate n [0x6e, 0xac, 0x75]).flatten

def manyChecks : Script :=
  Script.pushBytes vchSig ++ (Script.pushBytes vchPubKey ++ (checkRounds 67 ++ []))

section Rounds

variable {input : ScriptInput} {script pc rest : Script} {stack : Stack} {n : ℕ}

theorem goodSig_scriptInput (hcrypto : input.crypto = scriptInput.crypto) (scriptCode : Script) :
    input.goodSig scriptCode vchSig vchPubKey = false := by
  unfold ScriptInput.goodSig
  rw [hcrypto]
  exact Bool.and_false _

theorem evalStep_checkSig_false (hcrypto : input.crypto = scriptInput.crypto) (hn : n < 201)
    (hstack : stack.length < 1000) :
    EvalStep input (.plain script (0xac :: rest) (vchPubKey :: vchSig :: stack) n)
      (.plain script rest (vchFalse :: stack) (n + 1)) := by
  apply evalStep_opcode (getOp_opcode (by decide)) (by decide) hn (by decide)
    (rfl : toOpcode 0xac = some .opCheckSig)
  · change (do
      let stack ← evalCheckSig input script (vchPubKey :: vchSig :: stack) false
      return ({ EvalState.plain script rest stack (n + 1) with stack } : EvalState)) = _
    have heval : evalCheckSig input script (vchPubKey :: vchSig :: stack) false =
        .ok (vchFalse :: stack) := by
      change pushBool stack (input.goodSig _ vchSig vchPubKey) false = _
      rw [goodSig_scriptInput hcrypto]
      rfl
    rw [heval]
    rfl
  · exact hstack

theorem madeCalls_plain {opcode : UInt8} (hpush : op16 < opcode) (hn : n < 201)
    (hdisabled : opcode ∉ disabledOpcodes) :
    madeCalls (callsByStep input (.plain script (opcode :: rest) stack n)) =
      madeCalls (callsByInstruction input (.plain script rest stack (n + 1)) opcode) := by
  have hop : getOp (opcode :: rest) = some (opcode, [], rest) :=
    getOp_opcode (UInt8.not_le.mpr (UInt8.lt_trans (by decide) hpush))
  have hvch : ([] : List UInt8).length ≤ maxScriptElementSize := Nat.zero_le _
  have hcount : op16 < opcode → (if op16 < opcode then n + 1 else n) ≤ 201 := by
    intro h
    rw [if_pos h]
    exact hn
  unfold callsByStep
  rw [show (EvalState.plain script (opcode :: rest) stack n).pc = opcode :: rest from rfl, hop]
  change madeCalls (do
    require (([] : List UInt8).length ≤ maxScriptElementSize)
    require (op16 < opcode → (if op16 < opcode then n + 1 else n) ≤ 201)
    require (opcode ∉ disabledOpcodes)
    callsByInstruction input (.plain script rest stack (if op16 < opcode then n + 1 else n))
      opcode) = _
  rw [require_of hvch, require_of hcount, require_of hdisabled, if_pos hpush]
  rfl

theorem madeCalls_push {opcode : UInt8} {vch : List UInt8}
    (hop : getOp pc = some (opcode, vch, rest)) (hpush : opcode ≤ opPushData4) :
    madeCalls (callsByStep input (.plain script pc stack n)) = 0 := by
  apply Nat.le_zero.mp
  apply madeCalls_le
  unfold callsByStep
  rw [show (EvalState.plain script pc stack n).pc = pc from rfl, hop]
  refine .after fun _ => .after fun _ => .after fun _ => ?_
  rw [callsByInstruction, if_pos (by simpa [EvalState.plain] using hpush)]
  exact .pure (Nat.le_refl _)

theorem run_checkRounds (hcrypto : input.crypto = scriptInput.crypto) {k : ℕ}
    (hn : n + 3 * k ≤ 201) {m : ℕ} {u : EvalState}
    (hrest : CallsRun input (.plain script rest [vchPubKey, vchSig] (n + 3 * k)) m u) :
    CallsRun input (.plain script (checkRounds k ++ rest) [vchPubKey, vchSig] n) (k + m) u := by
  induction k generalizing n with
  | zero =>
    rw [Nat.zero_add]
    exact hrest
  | succ k ih =>
    have hdup : EvalStep input
        (.plain script (0x6e :: 0xac :: 0x75 :: (checkRounds k ++ rest)) [vchPubKey, vchSig] n)
        (.plain script (0xac :: 0x75 :: (checkRounds k ++ rest))
          [vchPubKey, vchSig, vchPubKey, vchSig] (n + 1)) :=
      evalStep_stackOp (getOp_opcode (by decide)) (by decide) (by omega) (by decide)
        (rfl : toOpcode 0x6e = some (.onStack .op2Dup)) rfl (by decide)
    have hcheck : EvalStep input
        (.plain script (0xac :: 0x75 :: (checkRounds k ++ rest))
          [vchPubKey, vchSig, vchPubKey, vchSig] (n + 1))
        (.plain script (0x75 :: (checkRounds k ++ rest)) [vchFalse, vchPubKey, vchSig]
          (n + 1 + 1)) :=
      evalStep_checkSig_false hcrypto (by omega) (by decide)
    have hdrop : EvalStep input
        (.plain script (0x75 :: (checkRounds k ++ rest)) [vchFalse, vchPubKey, vchSig] (n + 1 + 1))
        (.plain script (checkRounds k ++ rest) [vchPubKey, vchSig] (n + 1 + 1 + 1)) :=
      evalStep_stackOp (getOp_opcode (by decide)) (by decide) (by omega) (by decide)
        (rfl : toOpcode 0x75 = some (.onStack .opDrop)) rfl (by decide)
    have hrun := ih (n := n + 1 + 1 + 1) (by omega) (by
      rw [show n + 1 + 1 + 1 + 3 * k = n + 3 * (k + 1) by omega]
      exact hrest)
    have hcalls := CallsRun.head hdup (.head hcheck (.head hdrop hrun))
    rw [madeCalls_plain (by decide) (by omega) (by decide),
      madeCalls_plain (by decide) (by omega) (by decide),
      madeCalls_plain (by decide) (by omega) (by decide)] at hcalls
    have hone : madeCalls (callsByInstruction input
        (.plain script (0x75 :: (checkRounds k ++ rest)) [vchPubKey, vchSig, vchPubKey, vchSig]
          (n + 1 + 1)) 0xac) = 1 := rfl
    have hnone : ∀ (pc : Script) (stack : Stack) (n : ℕ), madeCalls (callsByInstruction input
        (.plain script pc stack n) 0x6e) = 0 ∧ madeCalls (callsByInstruction input
        (.plain script pc stack n) 0x75) = 0 := fun _ _ _ => ⟨rfl, rfl⟩
    rw [hone, (hnone _ _ _).1, (hnone _ _ _).2] at hcalls
    rw [show k + 1 + m = 0 + (1 + (0 + (k + m))) by omega]
    exact hcalls

theorem callsRun_manyChecks (hcrypto : input.crypto = scriptInput.crypto) :
    CallsRun input (.plain manyChecks manyChecks [] 0) 67
      (.plain manyChecks [] [vchPubKey, vchSig] 201) := by
  have hsize : (vchSig ++ (Script.pushBytes vchPubKey ++ (checkRounds 67 ++ []))).length <
      2 ^ 32 := by
    decide +kernel
  have hsize' : (vchPubKey ++ (checkRounds 67 ++ [])).length < 2 ^ 32 := by decide +kernel
  obtain ⟨_, hpush, hop⟩ := getOp_pushBytes hsize
  obtain ⟨_, hpush', hop'⟩ := getOp_pushBytes hsize'
  change getOp manyChecks = _ at hop
  have hsig : EvalStep input (.plain manyChecks manyChecks [] 0) (.plain manyChecks
      (Script.pushBytes vchPubKey ++ (checkRounds 67 ++ [])) [vchSig] 0) :=
    evalStep_push hop hpush (by decide) (by decide)
  have hkey : EvalStep input (.plain manyChecks
      (Script.pushBytes vchPubKey ++ (checkRounds 67 ++ [])) [vchSig] 0)
      (.plain manyChecks (checkRounds 67 ++ []) [vchPubKey, vchSig] 0) :=
    evalStep_push hop' hpush' (by decide) (by decide)
  have hrounds : CallsRun input (.plain manyChecks (checkRounds 67 ++ []) [vchPubKey, vchSig] 0)
      (67 + 0) (.plain manyChecks [] [vchPubKey, vchSig] (0 + 3 * 67)) :=
    run_checkRounds hcrypto (by decide) (.refl _)
  have hcalls := CallsRun.head hsig (.head hkey hrounds)
  rw [madeCalls_push hop hpush, madeCalls_push hop' hpush'] at hcalls
  exact hcalls

theorem evalScript_manyChecks (hcrypto : input.crypto = scriptInput.crypto) :
    evalScript input [] manyChecks = some [vchPubKey, vchSig] ∧
      evalScriptCalls input [] manyChecks = 67 := by
  have hrun := callsRun_manyChecks hcrypto
  have hsize : manyChecks.length ≤ 10000 := by decide +kernel
  refine ⟨evalScript_of_run hsize hrun.run, ?_⟩
  rw [evalScriptCalls, if_pos hsize]
  exact hrun.callsByLoop_eq rfl (Nat.le_refl _)

theorem verifyScript_manyChecks (hcrypto : input.crypto = scriptInput.crypto) :
    verifyScript input [] manyChecks = .ok true := by
  have hnone : evalScript input [] [] = some [] := rfl
  have htrue : castToBool vchPubKey = true := by decide
  have hhash : manyChecks.isPayToScriptHash = false := by decide +kernel
  unfold verifyScript
  rw [hnone]
  dsimp only
  rw [(evalScript_manyChecks hcrypto).1]
  simp only [htrue, hhash, Bool.not_true, Bool.false_eq_true, if_false]
  rfl

theorem verifyScriptCalls_manyChecks (hcrypto : input.crypto = scriptInput.crypto) :
    verifyScriptCalls input [] manyChecks = 67 := by
  have hnone : evalScript input [] [] = some [] := rfl
  have hhash : manyChecks.isPayToScriptHash = false := by decide +kernel
  unfold verifyScriptCalls carriedCalls spentScriptCalls
  rw [redeemScriptCalls_of_not_hash input [] hhash, hnone]
  dsimp only
  rw [(evalScript_manyChecks hcrypto).2]
  rfl

end Rounds

def manyHash (k : UInt32) : Uint256 := .ofNat 256 ((4 + k).toNat + 1)

def manyOutputs (k : UInt32) (n : ℕ) : Transaction :=
  spend (4 + k) [⟨20, k⟩] (⟨100 * bean, manyChecks⟩ :: .replicate n ⟨0, manyChecks⟩)

def manySource (k : UInt32) (n : ℕ) : Block :=
  block (1 + 100 * k) (if k = 0 then 1 else 2)
    [beanbase (30 + k) (1 + k.toNat) [out 100], manyOutputs k n]

def manyPos (k : UInt32) : TxPos := ⟨⟨1, firstFile_ne⟩, 10000 + 1000000 * k, 10148 + 1000000 * k⟩

def manyIndex (k : UInt32) (n : ℕ) : TxIndex := ⟨some (manyPos k), .replicate (n + 1) none⟩

def manyPrevouts (k : UInt32) (n : ℕ) : List OutPoint :=
  (List.range (n + 1)).map fun j => ⟨manyHash k, .ofNat j⟩

def manySpends (k : UInt32) (n : ℕ) : Transaction := spend (7 + k) (manyPrevouts k n) [out 1]

def manyInputs (k : UInt32) (n : ℕ) : MapPrevTx :=
  (∅ : MapPrevTx).insert (manyHash k) (manyIndex k n, manyOutputs k n)

def manyView (n : ℕ) : InputView where
  readTxIndex hash :=
    if hash = manyHash 0 then some (manyIndex 0 n)
    else if hash = manyHash 1 then some (manyIndex 1 n) else none
  lookup _ := none
  readTx pos :=
    if pos = manyPos 0 then some (manyOutputs 0 n)
    else if pos = manyPos 1 then some (manyOutputs 1 n) else none
  nBestHeight := 2

def manyBlock (n : ℕ) : Block :=
  block 201 102 [beanbase 32 3 [out 100], manySpends 0 n, manySpends 1 n]

def manyPrev (n : ℕ) : BlockPtr :=
  [entry (manySource 1 n), entry (manySource 0 n), entry genesis]

section Many

variable {k : UInt32} {n : ℕ} {inputs : MapPrevTx} {txindex : TxIndex}

theorem length_manyPrevouts (k : UInt32) (n : ℕ) : (manyPrevouts k n).length = n + 1 := by
  rw [manyPrevouts, List.length_map, List.length_range]

theorem prevouts_manySpends (k : UInt32) (n : ℕ) : (manySpends k n).prevouts = manyPrevouts k n := by
  change ((manyPrevouts k n).map fun prevout => (⟨prevout, [], 0xffffffff⟩ : TxIn)).map
    TxIn.prevout = _
  rw [List.map_map]
  exact List.map_id _

theorem exists_of_mem_manyPrevouts {o : OutPoint} (h : o ∈ manyPrevouts k n) (hn : n < 2 ^ 32) :
    ∃ j ≤ n, o.hash = manyHash k ∧ o.n.toNat = j := by
  obtain ⟨j, hj, rfl⟩ := List.mem_map.mp h
  have hle := Nat.lt_succ_iff.mp (List.mem_range.mp hj)
  exact ⟨j, hle, rfl, UInt32.toNat_ofNat_of_lt' (by change j < 2 ^ 32; omega)⟩

theorem nodup_manyPrevouts (hn : n < 2 ^ 32) : (manyPrevouts k n).Nodup := by
  apply List.Nodup.map_on _ List.nodup_range
  intro j hj k hk heq
  have hj' := Nat.lt_succ_iff.mp (List.mem_range.mp hj)
  have hk' := Nat.lt_succ_iff.mp (List.mem_range.mp hk)
  have htoNat := congrArg (fun o => o.n.toNat) heq
  dsimp only at htoNat
  rwa [UInt32.toNat_ofNat_of_lt' (by change j < 2 ^ 32; omega),
    UInt32.toNat_ofNat_of_lt' (by change k < 2 ^ 32; omega)] at htoNat

theorem vout_manyOutputs {j : ℕ} (h : j ≤ n) :
    ∃ nValue, (manyOutputs k n).vout[j]? = some ⟨nValue, manyChecks⟩ ∧ (0 < j → nValue = 0) := by
  cases j with
  | zero => exact ⟨100 * bean, rfl, fun h => absurd h (Nat.lt_irrefl 0)⟩
  | succ j =>
    refine ⟨0, ?_, fun _ => rfl⟩
    change (List.replicate n (⟨0, manyChecks⟩ : TxOut))[j]? = _
    exact List.getElem?_replicate_of_lt (by omega)

theorem freeOutputs_manyPrevouts (k : UInt32) (hn : n < 2 ^ 32) :
    FreeOutputs (manyInputs k n) (manyHash k) (manyIndex k n)
      (manyOutputs k n) manyChecks (manyPrevouts k n) where
  lookup := AList.lookup_insert _
  hash_eq := fun o ho => by
    obtain ⟨_, _, hhash, _⟩ := exists_of_mem_manyPrevouts ho hn
    exact hhash
  free := fun o ho => by
    obtain ⟨j, hj, _, htoNat⟩ := exists_of_mem_manyPrevouts ho hn
    rw [htoNat]
    exact List.getElem?_replicate_of_lt (by omega)
  pays := fun o ho => by
    obtain ⟨j, hj, _, htoNat⟩ := exists_of_mem_manyPrevouts ho hn
    obtain ⟨nValue, hout, _⟩ := vout_manyOutputs hj
    exact ⟨nValue, htoNat ▸ hout⟩
  nodup := nodup_manyPrevouts hn

theorem manyPrevouts_eq (k : UInt32) (n : ℕ) : manyPrevouts k n =
    ⟨manyHash k, 0⟩ :: (List.range n).map fun j => ⟨manyHash k, .ofNat (j + 1)⟩ := by
  rw [manyPrevouts, List.range_succ_eq_map, List.map_cons, List.map_map]
  rfl

theorem isNull_manyPrevouts (k j : UInt32) : (⟨manyHash k, j⟩ : OutPoint).isNull = false := by
  have hne : (manyHash k == 0) = false := by
    have hlt := (4 + k).toNat_lt
    apply beq_false_of_ne
    intro heq
    have htoNat := congrArg BitVec.toNat heq
    unfold manyHash at htoNat
    rw [BitVec.toNat_ofNat, Nat.mod_eq_of_lt (by omega)] at htoNat
    exact Nat.succ_ne_zero _ htoNat
  unfold OutPoint.isNull
  rw [hne]
  rfl

theorem isBeanBase_manySpends (k : UInt32) (n : ℕ) : (manySpends k n).isBeanBase = false := by
  unfold manySpends Transaction.isBeanBase spend
  rw [manyPrevouts_eq, List.map_cons]
  cases (List.range n).map fun j => (⟨manyHash k, .ofNat (j + 1)⟩ : OutPoint) with
  | nil =>
    change ((⟨manyHash k, 0⟩ : OutPoint).isNull && _) = false
    rw [isNull_manyPrevouts, Bool.false_and]
  | cons o l => rfl

theorem isBeanStake_manySpends (k : UInt32) (n : ℕ) : (manySpends k n).isBeanStake = false := by
  unfold manySpends Transaction.isBeanStake spend
  rw [manyPrevouts_eq, List.map_cons]

theorem isGenerated_manyOutputs (k : UInt32) (n : ℕ) :
    ((manyOutputs k n).isBeanBase || (manyOutputs k n).isBeanStake) = false := by
  cases n <;> rfl

theorem freeOutputs_tail (k : UInt32) (hn : n < 2 ^ 32) :
    FreeOutputs (manyInputs k n) (manyHash k) (manyIndex k n)
      (manyOutputs k n) manyChecks ((List.range n).map fun j => ⟨manyHash k, .ofNat (j + 1)⟩) ∧
    ∀ o ∈ (List.range n).map fun j => (⟨manyHash k, .ofNat (j + 1)⟩ : OutPoint),
      (manyOutputs k n).vout[o.n.toNat]? = some ⟨0, manyChecks⟩ := by
  have hfree := freeOutputs_manyPrevouts k hn
  rw [manyPrevouts_eq] at hfree
  refine ⟨hfree.of_cons, fun o ho => ?_⟩
  obtain ⟨j, hj, rfl⟩ := List.mem_map.mp ho
  have hlt := List.mem_range.mp hj
  have htoNat : (UInt32.ofNat (j + 1)).toNat = j + 1 :=
    UInt32.toNat_ofNat_of_lt' (by change j + 1 < 2 ^ 32; omega)
  obtain ⟨nValue, hout, hzero⟩ := vout_manyOutputs (n := n) (j := j + 1) (by omega)
  dsimp only
  rw [htoNat, hout, hzero (Nat.succ_pos j)]

theorem fetchInputs_manySpends (hn : n < 2 ^ 32) {queue : QueuedChanges}
    (hk : k = 0 ∨ k = 1) (hqueue : queue.lookup (manyHash k) = none) :
    (manyView n).fetchInputs queue true false (manySpends k n) =
      .ok (manyInputs k n) := by
  have hfree := freeOutputs_manyPrevouts k hn
  have hprev : (manyView n).fetchPrev queue true false (manyHash k) =
      some (manyIndex k n, manyOutputs k n) := by
    unfold InputView.fetchPrev
    simp only [Bool.or_false, if_true, hqueue]
    rcases hk with rfl | rfl <;> rfl
  have hloop : (manyView n).fetchLoop queue true false (manyPrevouts k n) ∅ =
      some (manyInputs k n) := by
    rw [manyPrevouts_eq, InputView.fetchLoop, if_neg (by rw [AList.lookup_empty]; decide), hprev]
    change (manyView n).fetchLoop queue true false _ (manyInputs k n) = some (manyInputs k n)
    apply fetchLoop_of_isSome
    intro o ho
    rw [(freeOutputs_tail k hn).1.hash_eq o ho, (freeOutputs_tail k hn).1.lookup]
    rfl
  have hrange : (manyPrevouts k n).all (prevoutInRange
      (manyInputs k n)) = true := by
    apply List.all_eq_true.mpr
    intro o ho
    obtain ⟨nValue, hout⟩ := hfree.pays o ho
    have hbound := (List.getElem?_eq_some_iff.mp hout).1
    have hspent := (List.getElem?_eq_some_iff.mp (hfree.free o ho)).1
    rw [prevoutInRange, hfree.hash_eq o ho, hfree.lookup]
    exact decide_eq_true ⟨hbound, hspent⟩
  unfold InputView.fetchInputs
  rw [isBeanBase_manySpends, prevouts_manySpends, hloop]
  simp only [Bool.false_eq_true, if_false, hrange, if_true]

theorem getValueIn_manySpends (k : UInt32) (hn : n < 2 ^ 32) :
    (manySpends k n).getValueIn (manyInputs k n) =
      some (100 * bean) := by
  have hfree := freeOutputs_manyPrevouts k hn
  obtain ⟨htail, hzero⟩ := freeOutputs_tail k hn
  rw [manyPrevouts_eq] at hfree
  unfold Transaction.getValueIn
  rw [isBeanBase_manySpends, if_neg Bool.false_ne_true, prevouts_manySpends, manyPrevouts_eq,
    sumValueIn, hfree.getOutputFor]
  exact htail.sumValueIn hzero

theorem checkInputs_manySpends (k : UInt32) (hn : n < 2 ^ 32) (pindexBlock : BlockPtr) :
    checkInputs checkSigParams (manySpends k n)
      (manyInputs k n) pindexBlock 0 (manyPrevouts k n) =
      some (100 * bean) := by
  have hfree := freeOutputs_manyPrevouts k hn
  obtain ⟨htail, hzero⟩ := freeOutputs_tail k hn
  rw [manyPrevouts_eq] at hfree
  have hbound : ¬(manyIndex k n).spent.length ≤ 0 := by
    rw [manyIndex, List.length_replicate]
    omega
  have hrest : checkInputs checkSigParams (manySpends k n) (manyInputs k n) pindexBlock (100 * bean)
      ((List.range n).map fun j => ⟨manyHash k, .ofNat (j + 1)⟩) = some (100 * bean) :=
    htail.checkInputs (isGenerated_manyOutputs k n) (show ¬(0 : UInt32) < 0 by decide) (by decide) hzero
  rw [manyPrevouts_eq, checkInputs, hfree.lookup_head]
  change (if (manyIndex k n).spent.length ≤ 0 then none else
    if ((manyOutputs k n).isBeanBase || (manyOutputs k n).isBeanStake) && _ then none else
    checkInputs checkSigParams (manySpends k n) _ pindexBlock (100 * bean) _) = _
  rw [if_neg hbound, isGenerated_manyOutputs, Bool.false_and, if_neg Bool.false_ne_true]
  exact hrest

theorem vin_manySpends {j : ℕ} (h : j ≤ n) :
    (manySpends k n).vin[j]? = some ⟨⟨manyHash k, .ofNat j⟩, [], 0xffffffff⟩ := by
  change ((manyPrevouts k n).map fun prevout => (⟨prevout, [], 0xffffffff⟩ : TxIn))[j]? = _
  rw [manyPrevouts, List.getElem?_map, List.getElem?_map,
    List.getElem?_range (Nat.lt_succ_iff.mpr h)]
  rfl

theorem verifySignature_manySpends (hn : n < 2 ^ 32) {j : ℕ} (h : j ≤ n) :
    checkSigParams.verifySignature (manyOutputs k n) (manySpends k n) j = true := by
  obtain ⟨nValue, hout, _⟩ := vout_manyOutputs h
  have htoNat : (UInt32.ofNat j).toNat = j :=
    UInt32.toNat_ofNat_of_lt' (by change j < 2 ^ 32; omega)
  change scriptInput.crypto.verifySignature params.txHash (manyOutputs k n) (manySpends k n) j = true
  unfold Crypto.verifySignature
  rw [vin_manySpends h, Option.any_some]
  dsimp only
  rw [htoNat, hout, Option.any_some]
  dsimp only
  have hverify : verifyScript ⟨scriptInput.crypto, manySpends k n, .ofNat j, 0⟩ [] manyChecks =
      .ok true := verifyScript_manyChecks rfl
  rw [hverify]
  exact Bool.and_eq_true_iff.mpr ⟨beq_self_eq_true _, rfl⟩

theorem count_manySpends (hn : n < 2 ^ 32) {j : ℕ} (h : j ≤ n) :
    SpendCheck.count scriptInput.crypto params.txHash verifyScriptCalls
      ⟨manySpends k n, j, manyOutputs k n⟩ = 67 := by
  obtain ⟨nValue, hout, _⟩ := vout_manyOutputs h
  have htoNat : (UInt32.ofNat j).toNat = j :=
    UInt32.toNat_ofNat_of_lt' (by change j < 2 ^ 32; omega)
  have hhash : ¬manyHash k ≠ params.txHash (manyOutputs k n) := not_not.mpr rfl
  unfold SpendCheck.count
  dsimp only
  rw [vin_manySpends h]
  dsimp only
  rw [htoNat, hout]
  dsimp only
  rw [if_neg hhash]
  exact verifyScriptCalls_manyChecks rfl

theorem getLegacySigOpCount_manySpends (k : UInt32) (n : ℕ) :
    (manySpends k n).getLegacySigOpCount checkSigParams = 0 := by
  have hzero : ∀ prevouts : List OutPoint,
      ((prevouts.map fun prevout => (⟨prevout, [], 0xffffffff⟩ : TxIn)).map
        fun i => i.scriptSig.getSigOpCount false).sum = 0 := by
    intro prevouts
    induction prevouts with
    | nil => rfl
    | cons o prevouts ih =>
      rw [List.map_cons, List.map_cons, List.sum_cons, ih]
      rfl
  change ((manySpends k n).vin.map fun i => i.scriptSig.getSigOpCount false).sum + 0 = 0
  rw [UInt32.add_zero]
  exact hzero (manyPrevouts k n)

theorem sumP2SHSigOps_manySpends (k : UInt32) (hn : n < 2 ^ 32) :
    (manySpends k n).getP2SHSigOpCount checkSigParams (manyInputs k n) = some 0 := by
  have hhash : checkSigParams.isPayToScriptHash manyChecks = false := by decide +kernel
  have hfree := freeOutputs_manyPrevouts k hn
  rw [← prevouts_manySpends] at hfree
  unfold Transaction.getP2SHSigOpCount
  rw [isBeanBase_manySpends, if_neg Bool.false_ne_true]
  exact hfree.sumP2SHSigOps hhash

theorem connectInputs_manySpends (hn : n < 2 ^ 32)
    (hfees : paysFees (manySpends k n) (100 * bean) = true) (queue : QueuedChanges)
    (posThisTx : TxPos) (pindexBlock : BlockPtr) :
    ∃ queue', (manyView n).connectInputs checkSigParams (manySpends k n) (manyInputs k n) queue
        posThisTx pindexBlock true false = some queue' ∧
      ∀ hash, hash ≠ manyHash k → queue'.lookup hash = queue.lookup hash := by
  have hverify : ∀ j < (manyPrevouts k n).length,
      checkSigParams.verifySignature (manyOutputs k n) (manySpends k n) (0 + j) = true := by
    intro j hj
    rw [length_manyPrevouts] at hj
    rw [Nat.zero_add]
    exact verifySignature_manySpends hn (Nat.lt_succ_iff.mp hj)
  obtain ⟨queue', hspend, hother⟩ :=
    @FreeOutputs.spendInputs _ _ _ _ _ _ _ _ posThisTx _ (freeOutputs_manyPrevouts k hn) hverify queue
  refine ⟨queue', ?_, hother⟩
  unfold InputView.connectInputs
  rw [isBeanBase_manySpends, if_neg Bool.false_ne_true, prevouts_manySpends,
    checkInputs_manySpends k hn]
  have hspend' : spendInputs checkSigParams (manySpends k n) posThisTx (true || false)
      (!(true && decide ((manyView n).nBestHeight < checkSigParams.getTotalBlocksEstimate))) 0
      (manyPrevouts k n) (manyInputs k n) queue = some queue' := hspend
  dsimp only
  rw [hspend', hfees]
  simp

theorem connectTx_manySpends (hn : n < 2 ^ 32) (hk : k = 0 ∨ k = 1)
    (hfees : paysFees (manySpends k n) (100 * bean) = true) {s : ConnectState}
    (hqueue : s.mapQueuedChanges.lookup (manyHash k) = none)
    (hops : s.nSigOps.toNat ≤ maxBlockSigops) (pindex : BlockIndex) (pprev : BlockPtr) :
    inputsToVerify checkSigParams (manyView n) pindex pprev s (manySpends k n) =
        some (manyInputs k n) ∧
      ∃ s', connectTx checkSigParams (manyView n) pindex pprev false s (manySpends k n) = some s' ∧
        s'.nFees = s.nFees + (100 * bean - 1 * bean) ∧ s'.nSigOps = s.nSigOps ∧
        ∀ hash, hash ≠ manyHash k → hash ≠ params.txHash (manySpends k n) →
          s'.mapQueuedChanges.lookup hash = s.mapQueuedChanges.lookup hash := by
  have hfetch := fetchInputs_manySpends hn hk hqueue
  have hlegacy := getLegacySigOpCount_manySpends k n
  have hp2sh := sumP2SHSigOps_manySpends k hn
  have hin := getValueIn_manySpends k hn
  have hout : (manySpends k n).getValueOut = some (1 * bean) := rfl
  have hcheck := checkInputs_manySpends k hn (pindex :: pprev)
  rw [← prevouts_manySpends] at hcheck
  have hoverwrites : overwrites (manyView n) (checkSigParams.txHash (manySpends k n)) = false := by
    rcases hk with rfl | rfl <;> rfl
  have hstake := isBeanStake_manySpends k n
  have hbase := isBeanBase_manySpends k n
  have hsame : s.nSigOps + (manySpends k n).getLegacySigOpCount checkSigParams + 0 = s.nSigOps := by
    rw [hlegacy, UInt32.add_zero, UInt32.add_zero]
  have hlegacyOps : (s.nSigOps + (manySpends k n).getLegacySigOpCount checkSigParams).toNat ≤
      maxBlockSigops := by
    rw [hlegacy, UInt32.add_zero]
    exact hops
  have hp2shOps : (s.nSigOps + (manySpends k n).getLegacySigOpCount checkSigParams + 0).toNat ≤
      maxBlockSigops := by
    rw [hsame]
    exact hops
  constructor
  · simp only [inputsToVerify, Option.bind_eq_bind, Option.bind_eq_some_iff, Option.pure_def,
      Option.some.injEq, Option.guard_eq_some']
    exact ⟨(), by rw [hoverwrites]; rfl, (), hlegacyOps, (), by rw [hbase]; rfl, manyInputs k n,
      by rw [hfetch]; rfl, 0, hp2sh, (), hp2shOps, _, hin, _, hout, _, hcheck, (), rfl, rfl⟩
  · obtain ⟨queue', hconnect, hother⟩ := connectInputs_manySpends hn hfees s.mapQueuedChanges
      ⟨pindex.nFile, pindex.nBlockPos, s.nTxPos⟩ (pindex :: pprev)
    have hbody : connectTxBody checkSigParams (manyView n) (pindex :: pprev)
        ⟨pindex.nFile, pindex.nBlockPos, s.nTxPos⟩ s.mapQueuedChanges
        (s.nSigOps + (manySpends k n).getLegacySigOpCount checkSigParams) (manySpends k n) =
        some (queue', s.nSigOps + (manySpends k n).getLegacySigOpCount checkSigParams + 0,
          100 * bean, 1 * bean) := by
      unfold connectTxBody
      rw [hbase, if_neg Bool.false_ne_true]
      simp only [connectTxInputs, Option.bind_eq_bind, Option.bind_eq_some_iff, Option.pure_def,
        Option.some.injEq, Option.guard_eq_some']
      exact ⟨manyInputs k n, by rw [hfetch]; rfl, 0, hp2sh, (), hp2shOps, _, hin, _, hout, queue',
        hconnect, rfl⟩
    refine ⟨{
      mapQueuedChanges := queue'.insert (checkSigParams.txHash (manySpends k n))
        (TxIndex.new (some ⟨pindex.nFile, pindex.nBlockPos, s.nTxPos⟩) (manySpends k n).vout.length)
      nFees := if (manySpends k n).isBeanBase || (manySpends k n).isBeanStake then s.nFees else
        s.nFees + (100 * bean - 1 * bean)
      nValueIn := s.nValueIn + 100 * bean
      nValueOut := s.nValueOut + 1 * bean
      nStakeReward :=
        if (manySpends k n).isBeanStake then 1 * bean - 100 * bean else s.nStakeReward
      nSigOps := s.nSigOps + (manySpends k n).getLegacySigOpCount checkSigParams + 0
      nTxPos := s.nTxPos + UInt32.ofNat (manySpends k n).serializeSize }, ?_, ?_, hsame, fun hash hne hne' => ?_⟩
    · simp only [connectTx, Option.bind_eq_bind, Option.bind_eq_some_iff, Option.pure_def,
        Option.some.injEq, Option.guard_eq_some']
      exact ⟨(), by rw [hoverwrites]; rfl, (), hlegacyOps, _, hbody, rfl⟩
    · dsimp only
      rw [hbase, hstake]
      rfl
    · exact (AList.lookup_insert_ne hne').trans (hother hash hne)

theorem serializeSize_manySpends (k : UInt32) (n : ℕ) :
    (manySpends k n).serializeSize = 23 + getSizeOfCompactSize (n + 1) + 41 * (n + 1) := by
  have hlen : (manySpends k n).vin.length = n + 1 := by
    rw [← length_manyPrevouts k n, ← prevouts_manySpends, Transaction.prevouts, List.length_map]
  have hsum : ∀ prevouts : List OutPoint,
      ((prevouts.map fun prevout => (⟨prevout, [], 0xffffffff⟩ : TxIn)).map
        TxIn.serializeSize).sum = 41 * prevouts.length := by
    intro prevouts
    induction prevouts with
    | nil => rfl
    | cons o prevouts ih =>
      rw [List.map_cons, List.map_cons, List.sum_cons, ih, List.length_cons, Nat.mul_succ,
        Nat.add_comm]
      rfl
  have hvin : ((manySpends k n).vin.map TxIn.serializeSize).sum = 41 * (n + 1) := by
    rw [← length_manyPrevouts k n]
    exact hsum (manyPrevouts k n)
  have hvout : getSizeOfCompactSize (manySpends k n).vout.length +
      ((manySpends k n).vout.map TxOut.serializeSize).sum = 11 := rfl
  unfold Transaction.serializeSize
  rw [hlen, hvin, hvout]
  omega

theorem checkTransaction_manySpends (k : UInt32) (hn : n ≤ 100000) :
    (manySpends k n).checkTransaction = true := by
  have hcompact : getSizeOfCompactSize (n + 1) ≤ 9 := by
    unfold getSizeOfCompactSize
    split_ifs <;> decide
  have hsize : (manySpends k n).serializeSize ≤ maxBlockSize := by
    have hmax : maxBlockSize = 20000000 := rfl
    rw [serializeSize_manySpends]
    omega
  have hvin : (manySpends k n).vin.isEmpty = false := by
    unfold manySpends spend
    rw [manyPrevouts_eq]
    rfl
  have houts : checkTxOuts (manySpends k n) 0 (manySpends k n).vout = true := by
    change checkTxOuts (manySpends k n) 0 [out 1] = true
    rw [checkTxOuts, isBeanBase_manySpends, isBeanStake_manySpends]
    rfl
  have hnodup : (manyPrevouts k n).Nodup := nodup_manyPrevouts (by omega)
  have hnull : (manyPrevouts k n).all (fun o => !o.isNull) = true := by
    apply List.all_eq_true.mpr
    intro o ho
    obtain ⟨j, _, rfl⟩ := List.mem_map.mp ho
    rw [isNull_manyPrevouts]
    rfl
  unfold Transaction.checkTransaction
  rw [hvin, isBeanBase_manySpends, prevouts_manySpends, houts, hnull]
  simp only [hsize, hnodup, decide_true]
  rfl

theorem checkBlock_manyBlock (hn : n ≤ 100000) :
    (manyBlock n).checkBlock checkSigParams 0 true true true false = true := by
  have hbase := fun k => isBeanBase_manySpends k n
  have hstake : (manyBlock n).isProofOfStake = false := isBeanStake_manySpends 0 n
  have hsize : (manyBlock n).serializeSize ≤ maxBlockSize := by
    have hcompact : getSizeOfCompactSize (n + 1) ≤ 9 := by
      unfold getSizeOfCompactSize
      split_ifs <;> decide
    have hmax : maxBlockSize = 20000000 := rfl
    have hbeanbase : (beanbase 32 3 [out 100]).serializeSize ≤ 100 := by decide
    change 80 + (1 + ((beanbase 32 3 [out 100]).serializeSize + ((manySpends 0 n).serializeSize +
      ((manySpends 1 n).serializeSize + 0)))) + (1 + 0) ≤ maxBlockSize
    rw [serializeSize_manySpends, serializeSize_manySpends]
    omega
  have hchecked := fun k => checkTransaction_manySpends k hn
  have hlegacy := fun k => getLegacySigOpCount_manySpends k n
  simp only [Block.checkBlock, Bool.and_eq_true]
  refine ⟨⟨⟨⟨⟨⟨⟨⟨⟨⟨⟨rfl, rfl⟩, decide_eq_true hsize⟩, ?_⟩, rfl⟩, ?_⟩, rfl⟩, ?_⟩, ?_⟩, ?_⟩, ?_⟩, ?_⟩
  · rw [Block.isProofOfWork, hstake]
    exact (show (false || checkProofOfWork params 202 0x207fffff) = true by decide)
  · change ((beanbase 32 3 [out 100]).isBeanBase && (!(manySpends 0 n).isBeanBase &&
      (!(manySpends 1 n).isBeanBase && true))) = true
    rw [hbase, hbase]
    rfl
  · rw [hstake]
    rfl
  · change (((beanbase 32 3 [out 100]).checkTransaction && true) &&
      (((manySpends 0 n).checkTransaction && true) &&
        (((manySpends 1 n).checkTransaction && true) && true))) = true
    rw [hchecked, hchecked]
    decide
  · exact decide_eq_true (show [(33 : Uint256), 8, 9].Nodup by decide)
  · change decide (((beanbase 32 3 [out 100]).getLegacySigOpCount checkSigParams +
      ((manySpends 0 n).getLegacySigOpCount checkSigParams +
        ((manySpends 1 n).getLegacySigOpCount checkSigParams + 0))).toNat ≤ maxBlockSigops) = true
    rw [hlegacy, hlegacy]
    decide
  · exact beq_self_eq_true _

theorem paysFees_manySpends (k : UInt32) : paysFees (manySpends k 2999) (100 * bean) = true := by
  have hsize : (manySpends k 2999).serializeSize = 123026 := by
    rw [serializeSize_manySpends]
    rfl
  have hout : (manySpends k 2999).getValueOut = some (1 * bean) := rfl
  unfold paysFees getMinFee
  rw [hout, hsize, show (manySpends k 2999).vout = [out 1] from rfl]
  change (decide (1 * bean ≤ 100 * bean) && _ && _ && _) = true
  decide

theorem connectTx_beanbase : ∃ s, connectTx checkSigParams (manyView 2999) (entry (manyBlock 2999))
      (manyPrev 2999) false ⟨∅, 0, 0, 0, 0, 0, 2010081⟩ (beanbase 32 3 [out 100]) = some s ∧
    (∀ k, k = 0 ∨ k = 1 → s.mapQueuedChanges.lookup (manyHash k) = none) ∧
    s.nSigOps.toNat ≤ maxBlockSigops ∧ s.nFees = 0 := by
  refine ⟨_, rfl, fun k hk => ?_, Nat.zero_le _, rfl⟩
  rcases hk with rfl | rfl <;> rfl

theorem totalCalls_manySpends (hn : n < 2 ^ 32) {s : ConnectState} {pindex : BlockIndex}
    {pprev : BlockPtr} (hin : inputsToVerify checkSigParams (manyView n) pindex pprev s
      (manySpends k n) = some (manyInputs k n)) :
    totalCalls scriptInput.crypto params verifyScriptCalls
      (connectTxChecks checkSigParams (manyView n) pindex pprev s (manySpends k n)) =
      (n + 1) * 67 := by
  have hbound : ∀ j < (manyPrevouts k n).length, 0 + j = j ∧ j ≤ n := by
    intro j hj
    rw [length_manyPrevouts] at hj
    omega
  unfold connectTxChecks
  rw [hin, prevouts_manySpends, ← length_manyPrevouts k n]
  change totalCalls scriptInput.crypto checkSigParams verifyScriptCalls _ = _
  apply (freeOutputs_manyPrevouts k hn).totalCalls_spendChecks
  · intro j hj
    rw [(hbound j hj).1]
    exact verifySignature_manySpends hn (hbound j hj).2
  · intro j hj
    rw [(hbound j hj).1]
    exact count_manySpends hn (hbound j hj).2

theorem connectBlockChecks_manyBlock :
    (∃ s, connectBlockChecks checkSigParams (manyView 2999) blockIo (manyBlock 2999)
      (entry (manyBlock 2999)) (manyPrev 2999) false = some s) ∧
    totalCalls scriptInput.crypto params verifyScriptCalls (connectBlockSpends checkSigParams
      (manyView 2999) blockIo (manyBlock 2999) (entry (manyBlock 2999)) (manyPrev 2999) false) =
      402000 := by
  have hn : 2999 < 2 ^ 32 := by decide
  have hcheck : (manyBlock 2999).checkBlock checkSigParams blockIo.adjustedTime true (!false)
      (!false) false = true := checkBlock_manyBlock (by decide)
  obtain ⟨s, hbeanbase, hqueue, hops, hfees⟩ := connectTx_beanbase
  obtain ⟨hin, s₁, hspends, hfees₁, hops₁, hother⟩ := connectTx_manySpends hn (by decide)
    (paysFees_manySpends 0) (hqueue 0 (by decide)) hops (entry (manyBlock 2999)) (manyPrev 2999)
  have hqueue₁ : s₁.mapQueuedChanges.lookup (manyHash 1) = none :=
    (hother _ (by decide) (by decide)).trans (hqueue 1 (by decide))
  obtain ⟨hin₁, s', hspends₁, hfees', _⟩ := connectTx_manySpends hn (by decide)
    (paysFees_manySpends 1) hqueue₁ (hops₁ ▸ hops) (entry (manyBlock 2999)) (manyPrev 2999)
  have hfold : (manyBlock 2999).vtx.foldlM (connectTx checkSigParams (manyView 2999)
      (entry (manyBlock 2999)) (manyPrev 2999) false) ⟨∅, 0, 0, 0, 0, 0, 2010081⟩ = some s' := by
    change [beanbase 32 3 [out 100], manySpends 0 2999, manySpends 1 2999].foldlM _ _ = _
    rw [List.foldlM_cons, hbeanbase, Option.bind_eq_bind, Option.bind_some, List.foldlM_cons,
      hspends, Option.bind_eq_bind, Option.bind_some, List.foldlM_cons, hspends₁,
      Option.bind_eq_bind, Option.bind_some, List.foldlM_nil]
    rfl
  have hreward : checkReward checkSigParams (manyView 2999) blockIo (manyBlock 2999) s' = true := by
    have hstake : (manyBlock 2999).isProofOfStake = false := isBeanStake_manySpends 0 2999
    have hvtx : (manyBlock 2999).vtx =
        [beanbase 32 3 [out 100], manySpends 0 2999, manySpends 1 2999] := rfl
    have hle : (beanbase 32 3 [out 100]).getValueOut.any fun nValueOut =>
        nValueOut ≤ getProofOfWorkReward s'.nFees := by
      rw [hfees', hfees₁, hfees]
      decide
    unfold checkReward Block.isProofOfWork
    rw [hvtx, hstake]
    dsimp only
    rw [hle]
    rfl
  refine ⟨⟨s', ?_⟩, ?_⟩
  · simp only [connectBlockChecks, Option.bind_eq_bind, Option.bind_eq_some_iff, Option.pure_def,
      Option.some.injEq, Option.guard_eq_some']
    exact ⟨(), hcheck, s', hfold, (), hreward, rfl⟩
  · have hnone : connectTxChecks checkSigParams (manyView 2999) (entry (manyBlock 2999))
        (manyPrev 2999) ⟨∅, 0, 0, 0, 0, 0, 2010081⟩ (beanbase 32 3 [out 100]) = [] := rfl
    have hcalls := totalCalls_manySpends hn hin
    have hcalls₁ := totalCalls_manySpends hn hin₁
    unfold connectBlockSpends
    rw [if_pos hcheck]
    change totalCalls _ _ _ (connectTxsChecks checkSigParams (manyView 2999)
      (entry (manyBlock 2999)) (manyPrev 2999) false ⟨∅, 0, 0, 0, 0, 0, 2010081⟩
      [beanbase 32 3 [out 100], manySpends 0 2999, manySpends 1 2999]) = _
    rw [connectTxsChecks, hnone, hbeanbase]
    dsimp only
    rw [connectTxsChecks, hspends]
    dsimp only
    rw [connectTxsChecks, hspends₁]
    change totalCalls _ _ _ ([] ++ (_ ++ (_ ++ []))) = _
    rw [List.nil_append, List.append_nil, totalCalls_append, hcalls, hcalls₁]

theorem checkTxOuts_replicate {tx : Transaction} {nValueOut : Int64}
    (hrange : moneyRange nValueOut = true) (n : ℕ) :
    checkTxOuts tx nValueOut (.replicate n ⟨0, manyChecks⟩) = true := by
  induction n with
  | zero => rfl
  | succ n ih =>
    have hempty : (⟨0, manyChecks⟩ : TxOut).isEmpty = false := by decide
    have hnothing : ¬(0 : Int64) < 0 ∧ ¬maxMoney < 0 := by decide
    rw [List.replicate_succ, checkTxOuts]
    simp only [hempty, hnothing.1, hnothing.2, Int64.add_zero, hrange, Bool.false_and,
      Bool.false_eq_true, if_false, Bool.not_true]
    exact ih

theorem serializeSize_manyOutputs (k : UInt32) (n : ℕ) :
    (manyOutputs k n).serializeSize = 54 + getSizeOfCompactSize (n + 1) + 254 * (n + 1) := by
  have hout : ∀ nValue, (⟨nValue, manyChecks⟩ : TxOut).serializeSize = 254 := fun _ =>
    show (⟨0, manyChecks⟩ : TxOut).serializeSize = 254 by decide +kernel
  have hvin : getSizeOfCompactSize (manyOutputs k n).vin.length +
      ((manyOutputs k n).vin.map TxIn.serializeSize).sum = 42 := rfl
  have hlen : (manyOutputs k n).vout.length = n + 1 := by
    change (List.replicate n (⟨0, manyChecks⟩ : TxOut)).length + 1 = n + 1
    rw [List.length_replicate]
  have hvout : ((manyOutputs k n).vout.map TxOut.serializeSize).sum = 254 * (n + 1) := by
    change (⟨100 * bean, manyChecks⟩ : TxOut).serializeSize +
      ((List.replicate n (⟨0, manyChecks⟩ : TxOut)).map TxOut.serializeSize).sum = _
    rw [List.map_replicate, List.sum_replicate_nat, hout, hout]
    omega
  unfold Transaction.serializeSize
  rw [hlen, hvout]
  omega

theorem checkTransaction_manyOutputs (k : UInt32) (hn : n ≤ 5000) :
    (manyOutputs k n).checkTransaction = true ∧
      ((manyOutputs k n).getLegacySigOpCount checkSigParams).toNat = 67 * (n + 1) := by
  have hsize : (manyOutputs k n).serializeSize ≤ maxBlockSize := by
    have hcompact : getSizeOfCompactSize (n + 1) ≤ 9 := by
      unfold getSizeOfCompactSize
      split_ifs <;> decide
    have hmax : maxBlockSize = 20000000 := rfl
    rw [serializeSize_manyOutputs]
    omega
  constructor
  · have hgenerated := isGenerated_manyOutputs k n
    rw [Bool.or_eq_false_iff] at hgenerated
    have houts : checkTxOuts (manyOutputs k n) 0 (manyOutputs k n).vout = true :=
      checkTxOuts_replicate (by decide) n
    unfold Transaction.checkTransaction
    rw [houts, hgenerated.1]
    simp only [hsize, decide_true]
    rfl
  · have hops : ∀ nValue, scriptPubKeyOps ⟨nValue, manyChecks⟩ = 67 := fun _ =>
      show scriptPubKeyOps ⟨0, manyChecks⟩ = 67 by decide +kernel
    change ((manyOutputs k n).getLegacySigOpCount (params.withScripts scriptInput.crypto)).toNat = _
    rw [toNat_getLegacySigOpCount hsize]
    change 0 + (scriptPubKeyOps ⟨100 * bean, manyChecks⟩ +
      ((List.replicate n (⟨0, manyChecks⟩ : TxOut)).map scriptPubKeyOps).sum) = _
    rw [List.map_replicate, List.sum_replicate_nat, hops, hops]
    omega

theorem checkBlock_manySource (hk : k = 0 ∨ k = 1) (hn : n ≤ 5000) :
    (manySource k n).checkBlock checkSigParams 0 true true true false = true := by
  obtain ⟨hchecked, hlegacy⟩ := checkTransaction_manyOutputs k hn
  have hgenerated := isGenerated_manyOutputs k n
  rw [Bool.or_eq_false_iff] at hgenerated
  have hstake : (manySource k n).isProofOfStake = false := hgenerated.2
  have hbeanbase : (beanbase (30 + k) (1 + k.toNat) [out 100]).checkTransaction = true ∧
      (beanbase (30 + k) (1 + k.toNat) [out 100]).serializeSize ≤ 100 ∧
      (beanbase (30 + k) (1 + k.toNat) [out 100]).getLegacySigOpCount checkSigParams = 0 := by
    rcases hk with rfl | rfl <;> decide
  have hsize : (manySource k n).serializeSize ≤ maxBlockSize := by
    have hcompact : getSizeOfCompactSize (n + 1) ≤ 9 := by
      unfold getSizeOfCompactSize
      split_ifs <;> decide
    have hmax : maxBlockSize = 20000000 := rfl
    have hsmall := hbeanbase.2.1
    change 80 + (1 + ((beanbase (30 + k) (1 + k.toNat) [out 100]).serializeSize +
      ((manyOutputs k n).serializeSize + 0))) + (1 + 0) ≤ maxBlockSize
    rw [serializeSize_manyOutputs]
    omega
  simp only [Block.checkBlock, Bool.and_eq_true]
  refine ⟨⟨⟨⟨⟨⟨⟨⟨⟨⟨⟨rfl, rfl⟩, decide_eq_true hsize⟩, ?_⟩, rfl⟩, ?_⟩, rfl⟩, ?_⟩, ?_⟩, ?_⟩, ?_⟩, ?_⟩
  · rw [Block.isProofOfWork, hstake]
    rcases hk with rfl | rfl
    · exact (show (false || checkProofOfWork params 2 0x207fffff) = true by decide)
    · exact (show (false || checkProofOfWork params 102 0x207fffff) = true by decide)
  · change ((beanbase (30 + k) (1 + k.toNat) [out 100]).isBeanBase &&
      (!(manyOutputs k n).isBeanBase && true)) = true
    rw [hgenerated.1]
    rfl
  · rw [hstake]
    rfl
  · change (((beanbase (30 + k) (1 + k.toNat) [out 100]).checkTransaction && true) &&
      (((manyOutputs k n).checkTransaction && true) && true)) = true
    rw [hbeanbase.1, hchecked]
    rfl
  · rcases hk with rfl | rfl
    · exact decide_eq_true (show [(31 : Uint256), 5].Nodup by decide)
    · exact decide_eq_true (show [(32 : Uint256), 6].Nodup by decide)
  · change decide (((beanbase (30 + k) (1 + k.toNat) [out 100]).getLegacySigOpCount checkSigParams +
      ((manyOutputs k n).getLegacySigOpCount checkSigParams + 0)).toNat ≤ maxBlockSigops) = true
    have hmax : maxBlockSigops = 400000 := rfl
    rw [hbeanbase.2.2, UInt32.zero_add, UInt32.add_zero, hlegacy]
    exact decide_eq_true (by omega)
  · exact beq_self_eq_true _

theorem mem_blockTxs_manySource (hk : k = 0 ∨ k = 1) (n : ℕ) :
    (manyPos k, manyOutputs k n) ∈ blockTxs (entry (manySource k n)) (manySource k n) := by
  let size := UInt32.ofNat (beanbase (30 + k) (1 + k.toNat) [out 100]).serializeSize
  have hpos : 10000 * (1 + 100 * k) = 10000 + 1000000 * k ∧
      10000 * (1 + 100 * k) + 81 + size = 10148 + 1000000 * k := by
    rcases hk with rfl | rfl <;> decide
  have hmem : (⟨⟨1, firstFile_ne⟩, 10000 * (1 + 100 * k), 10000 * (1 + 100 * k) + 81 + size⟩,
      manyOutputs k n) ∈ blockTxs (entry (manySource k n)) (manySource k n) :=
    List.mem_cons_of_mem _ List.mem_cons_self
  rwa [hpos.2, hpos.1] at hmem

end Many

def redeemKey : Script := Script.pushBytes vchPubKey ++ [0xac]

def redeemKeyHash : Script := [0xa9, 0x14] ++ List.replicate 20 0 ++ [0x87]

/-- The outputs of a block are spent with empty `scriptSig`s. -/
def laterSpends (_ : ℕ) : ScriptInput × Stack := (scriptInput, [])

def redeemKeySig : Script := Script.pushBytes vchSig ++ Script.pushBytes redeemKey

end Sample

open Sample in
/-- Two blocks each have a transaction with 3000 outputs, and a third one spends all of these. All of
them pass the checks; the third makes 402000 calls of `CheckSig`, with a limit of 400000. -/
theorem checkSig_calls_unlimited :
    (∀ k, k = 0 ∨ k = 1 →
      (manySource k 2999).checkBlock checkSigParams 0 true true true false = true ∧
      (manyPos k, manyOutputs k 2999) ∈
        blockTxs (entry (manySource k 2999)) (manySource k 2999) ∧
      (manyView 2999).readTxIndex (checkSigParams.txHash (manyOutputs k 2999)) =
        some (manyIndex k 2999)) ∧
    (∃ s, connectBlockChecks checkSigParams (manyView 2999) blockIo (manyBlock 2999)
      (entry (manyBlock 2999)) (manyPrev 2999) false = some s) ∧
    ¬totalCalls scriptInput.crypto params verifyScriptCalls (connectBlockSpends checkSigParams
      (manyView 2999) blockIo (manyBlock 2999) (entry (manyBlock 2999)) (manyPrev 2999) false) ≤
      maxBlockSigops := by
  refine ⟨fun k hk => ⟨checkBlock_manySource hk (by decide), mem_blockTxs_manySource hk _, ?_⟩,
    connectBlockChecks_manyBlock.1, ?_⟩
  · rcases hk with rfl | rfl <;> rfl
  · rw [connectBlockChecks_manyBlock.2]
    decide

open Sample in
/-- A script of 67 checks, a check behind a hash, and a block. -/
theorem checkSig_calls_counted_manyBlock :
    evalScriptCalls scriptInput [] manyChecks ≤ (manyChecks.getSigOpCount false).toNat ∧
    redeemScriptCalls scriptInput redeemKeySig redeemKeyHash = 1 ∧
    redeemScriptCalls scriptInput redeemKeySig redeemKeyHash ≤
      (redeemKeyHash.getSigOpCountOf redeemKeySig).toNat ∧
    totalCalls scriptInput.crypto params carriedCalls (connectBlockSpends
        (params.withScripts scriptInput.crypto) (manyView 2999) blockIo (manyBlock 2999)
        (entry (manyBlock 2999)) (manyPrev 2999) false) +
      (((manyBlock 2999).vtx.flatMap Transaction.vout).zipIdx.map fun o =>
        evalScriptCalls (laterSpends o.2).1 (laterSpends o.2).2 o.1.scriptPubKey).sum ≤
      maxBlockSigops := by
  obtain ⟨hscript, hredeem, hblock⟩ := checkSig_calls_counted scriptInput.crypto params
  obtain ⟨⟨s, hs⟩, _⟩ := connectBlockChecks_manyBlock
  change connectBlockChecks (params.withScripts scriptInput.crypto) _ _ _ _ _ _ = _ at hs
  refine ⟨hscript scriptInput [] manyChecks, by decide,
    hredeem scriptInput redeemKeySig redeemKeyHash (by decide), ?_⟩
  exact (hblock (manyView 2999) blockIo (manyBlock 2999) (entry (manyBlock 2999)) (manyPrev 2999)
    false).2 s hs laterSpends

end Beancash
