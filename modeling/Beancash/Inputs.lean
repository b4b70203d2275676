import Beancash.BlockIndex
import Mathlib.Data.List.AList

namespace Beancash

/-- `map<uint256, CTxIndex>`, the changes queued by a block. -/
abbrev QueuedChanges := AList fun _ : Uint256 => TxIndex

abbrev MapPrevTx := AList fun _ : Uint256 => TxIndex × Transaction

/-- What connecting a transaction reads of the node. -/
structure InputView where
  /-- `CTxDB::ReadTxIndex` -/
  readTxIndex : Ledger.Index Uint256 TxPos
  /-- `CTxMemPool::lookup` -/
  lookup : Uint256 → Option Transaction
  /-- `CTransaction::ReadFromDisk` -/
  readTx : TxPos → Option Transaction
  nBestHeight : ℕ

/-- The index record and the transaction behind one input. -/
def InputView.fetchPrev (v : InputView) (mapTestPool : QueuedChanges) (fBlock fMiner : Bool)
    (hash : Uint256) : Option (TxIndex × Transaction) :=
  let queued := if fBlock || fMiner then mapTestPool.lookup hash else none
  match queued.orElse fun _ => v.readTxIndex hash with
  | none =>
    -- a transaction that is not in the index may still be in the memory pool
    if fBlock || fMiner then none
    else (v.lookup hash).map fun txPrev => (TxIndex.new none txPrev.vout.length, txPrev)
  | some txindex =>
    if txindex.pos = some TxPos.memory then (v.lookup hash).map fun txPrev => (txindex, txPrev)
    else (txindex.pos.bind v.readTx).map fun txPrev => (txindex, txPrev)

def InputView.fetchLoop (v : InputView) (mapTestPool : QueuedChanges) (fBlock fMiner : Bool) :
    List OutPoint → MapPrevTx → Option MapPrevTx
  | [], inputsRet => some inputsRet
  | prevout :: prevouts, inputsRet =>
    if (inputsRet.lookup prevout.hash).isSome then
      v.fetchLoop mapTestPool fBlock fMiner prevouts inputsRet
    else
      match v.fetchPrev mapTestPool fBlock fMiner prevout.hash with
      | some prev =>
        v.fetchLoop mapTestPool fBlock fMiner prevouts (inputsRet.insert prevout.hash prev)
      | none => none

/-- The output exists both in the transaction and in its index record. -/
def prevoutInRange (inputs : MapPrevTx) (prevout : OutPoint) : Bool :=
  (inputs.lookup prevout.hash).any fun prev =>
    decide (prevout.n.toNat < prev.2.vout.length ∧ prevout.n.toNat < prev.1.spent.length)

/-- `FetchInputs`; the error is `fInvalid`. -/
def InputView.fetchInputs (v : InputView) (mapTestPool : QueuedChanges) (fBlock fMiner : Bool)
    (tx : Transaction) : Except Bool MapPrevTx :=
  if tx.isBeanBase then .ok ∅
  else
    match v.fetchLoop mapTestPool fBlock fMiner tx.prevouts ∅ with
    | none => .error false
    | some inputs => if tx.prevouts.all (prevoutInRange inputs) then .ok inputs else .error true

/-- `GetOutputFor`; `none` is the exception it throws. -/
def getOutputFor (inputs : MapPrevTx) (prevout : OutPoint) : Option TxOut :=
  (inputs.lookup prevout.hash).bind fun prev => prev.2.vout[prevout.n.toNat]?

def sumValueIn (inputs : MapPrevTx) : Int64 → List OutPoint → Option Int64
  | nResult, [] => some nResult
  | nResult, prevout :: prevouts =>
    match getOutputFor inputs prevout with
    | some o => sumValueIn inputs (nResult + o.nValue) prevouts
    | none => none

def Transaction.getValueIn (tx : Transaction) (inputs : MapPrevTx) : Option Int64 :=
  if tx.isBeanBase then some 0 else sumValueIn inputs 0 tx.prevouts

def sumP2SHSigOps (P : Params) (inputs : MapPrevTx) : UInt32 → List TxIn → Option UInt32
  | nSigOps, [] => some nSigOps
  | nSigOps, txin :: vin =>
    match getOutputFor inputs txin.prevout with
    | some o =>
      sumP2SHSigOps P inputs (if P.isPayToScriptHash o.scriptPubKey then
        nSigOps + P.getP2SHSigOpCount o.scriptPubKey txin.scriptSig else nSigOps) vin
    | none => none

def Transaction.getP2SHSigOpCount (P : Params) (tx : Transaction) (inputs : MapPrevTx) :
    Option UInt32 :=
  if tx.isBeanBase then some 0 else sumP2SHSigOps P inputs 0 tx.vin

/-- One of the last `nBeanbaseMaturity` blocks is the one `txindex` is in. -/
def inRecentBlock (P : Params) (pindexBlock : BlockPtr) (txindex : TxIndex) : Bool :=
  (pindexBlock.take P.nBeanbaseMaturity).any fun pindex =>
    txindex.pos.any fun pos => pindex.nBlockPos == pos.nBlockPos && pindex.nFile == pos.nFile

/-- The first loop: the checks of one input, and the value it adds. -/
def checkInputs (P : Params) (tx : Transaction) (inputs : MapPrevTx) (pindexBlock : BlockPtr) :
    Int64 → List OutPoint → Option Int64
  | nValueIn, [] => some nValueIn
  | nValueIn, prevout :: prevouts =>
    match inputs.lookup prevout.hash with
    | none => none
    | some (txindex, txPrev) =>
      match txPrev.vout[prevout.n.toNat]? with
      | none => none
      | some o =>
        if txindex.spent.length ≤ prevout.n.toNat then none
        else if (txPrev.isBeanBase || txPrev.isBeanStake) && inRecentBlock P pindexBlock txindex then
          none
        else if tx.nTime < txPrev.nTime then none
        else if !moneyRange o.nValue || !moneyRange (nValueIn + o.nValue) then none
        else checkInputs P tx inputs pindexBlock (nValueIn + o.nValue) prevouts

/-- The second loop, from input `i` on: each output spent must be free, its signature
good, and its mark is set. `inputs` is the caller's copy, so that a later input from the
same transaction sees the mark. -/
def spendInputs (P : Params) (tx : Transaction) (posThisTx : TxPos) (fQueue fVerify : Bool) :
    ℕ → List OutPoint → MapPrevTx → QueuedChanges → Option QueuedChanges
  | _, [], _, mapTestPool => some mapTestPool
  | i, prevout :: prevouts, inputs, mapTestPool =>
    match inputs.lookup prevout.hash with
    | none => none
    | some (txindex, txPrev) =>
      if txindex.spent[prevout.n.toNat]? ≠ some none then none
      else if fVerify && !P.verifySignature txPrev tx i then none
      else
        let txindex := txindex.mark prevout.n.toNat (some posThisTx)
        spendInputs P tx posThisTx fQueue fVerify (i + 1) prevouts
          (inputs.insert prevout.hash (txindex, txPrev))
          (if fQueue then mapTestPool.insert prevout.hash txindex else mapTestPool)

/-- The fee a transaction that is no beansprout must pay. -/
def paysFees (tx : Transaction) (nValueIn : Int64) : Bool :=
  match tx.getValueOut with
  | none => false
  | some nValueOut =>
    decide (nValueOut ≤ nValueIn) && decide (0 ≤ nValueIn - nValueOut) &&
      decide (getMinFee tx 1 .block ≤ nValueIn - nValueOut) && moneyRange (nValueIn - nValueOut)

/-- `ConnectInputs`; the queue it returns is the one it was given unless the inputs are
connected for a block or by the miner. -/
def InputView.connectInputs (P : Params) (v : InputView) (tx : Transaction) (inputs : MapPrevTx)
    (mapTestPool : QueuedChanges) (posThisTx : TxPos) (pindexBlock : BlockPtr)
    (fBlock fMiner : Bool) : Option QueuedChanges :=
  if tx.isBeanBase then some mapTestPool
  else
    match checkInputs P tx inputs pindexBlock 0 tx.prevouts with
    | none => none
    | some nValueIn =>
      -- signatures below the last checkpoint are not verified again for a block
      match spendInputs P tx posThisTx (fBlock || fMiner)
          (!(fBlock && decide ((v.nBestHeight : ℤ) < P.getTotalBlocksEstimate))) 0 tx.prevouts inputs
          mapTestPool with
      | none => none
      | some mapTestPool =>
        if !tx.isBeanStake && !paysFees tx nValueIn then none else some mapTestPool

/-- The loop of `CTransaction::GetBeanAge`, in cent-seconds. -/
def beanAgeLoop (P : Params) (v : InputView)
    (readHeader : FileNumber → UInt32 → Option BlockHeader) (tx : Transaction) :
    ℤ → List OutPoint → Option ℤ
  | bnCentSecond, [] => some bnCentSecond
  | bnCentSecond, prevout :: prevouts =>
    match (v.readTxIndex prevout.hash).bind fun txindex => txindex.pos with
    | none => beanAgeLoop P v readHeader tx bnCentSecond prevouts
    | some pos =>
      match (v.readTx pos).bind fun txPrev =>
          (txPrev.vout[prevout.n.toNat]?).map fun o => (txPrev, o) with
      | none => beanAgeLoop P v readHeader tx bnCentSecond prevouts
      | some (txPrev, o) =>
        if tx.nTime < txPrev.nTime then none
        else
          match readHeader pos.nFile pos.nBlockPos with
          | none => none
          | some block =>
            if (tx.nTime.toNat : ℤ) < block.nTime.toNat + P.nStakeMinAge.toNat then
              beanAgeLoop P v readHeader tx bnCentSecond prevouts
            else
              beanAgeLoop P v readHeader tx (bnCentSecond +
                (o.nValue.toInt * (tx.nTime - txPrev.nTime).toNat).tdiv cent.toInt) prevouts

/-- `CTransaction::GetBeanAge`, in bean-days. -/
def getBeanAge (P : Params) (v : InputView)
    (readHeader : FileNumber → UInt32 → Option BlockHeader) (tx : Transaction) : Option ℤ :=
  if tx.isBeanBase then some 0
  else (beanAgeLoop P v readHeader tx 0 tx.prevouts).map fun bnCentSecond =>
    ((bnCentSecond * cent.toInt).tdiv bean.toInt).tdiv (24 * 60 * 60)

end Beancash
