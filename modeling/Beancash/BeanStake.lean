import Beancash.Kernel
import Beancash.Wallet

namespace Beancash

/-- What the wallet reads of the node. -/
structure ChainView extends KernelView where
  nBestHeight : ℕ
  nAdjustedTime : ℤ
  /-- `CTxMemPool::exists` -/
  inMemPool : Uint256 → Bool

/-- What `GetBeanAge` reads of the node. -/
def KernelView.inputView (v : KernelView) : InputView where
  readTxIndex := v.readTxIndex
  lookup _ := none
  readTx := v.readTx
  nBestHeight := 0

def KernelView.isInMainChain (v : KernelView) (pindex : BlockPtr) : Bool :=
  !(v.pnext (BlockPtr.hash pindex)).isEmpty || decide (pindex = v.pindexBest)

/-- The loop of `CheckMerkleBranch`. -/
def checkMerkleBranch (P : Params) : Uint256 → List Uint256 → ℕ → Uint256
  | hash, [], _ => hash
  | hash, otherside :: vMerkleBranch, nIndex =>
    let hash := if nIndex % 2 = 1 then P.hashPair otherside hash else P.hashPair hash otherside
    checkMerkleBranch P hash vMerkleBranch (nIndex / 2)

/-- The root in the header of the block a pointer points to. -/
def BlockPtr.hashMerkleRoot : BlockPtr → Uint256
  | [] => 0
  | e :: _ => e.header.hashMerkleRoot

/-- `GetDepthInMainChainINTERNAL` -/
def depthInternal (P : Params) (v : KernelView) (wtx : WalletTx) : ℤ :=
  if wtx.hashBlock = 0 ∨ wtx.nIndex = -1 then 0
  else
    match v.mapBlockIndex wtx.hashBlock with
    | none => 0
    | some pindex =>
      if !v.isInMainChain pindex then 0
      else if checkMerkleBranch P (P.txHash wtx.tx) wtx.vMerkleBranch wtx.nIndex.toNat ≠
          BlockPtr.hashMerkleRoot pindex then 0
      else (BlockPtr.nHeight v.pindexBest : ℤ) - BlockPtr.nHeight pindex + 1

/-- `CMerkleTx::GetDepthInMainChain` -/
def getDepthInMainChain (P : Params) (v : ChainView) (wtx : WalletTx) : ℤ :=
  let nResult := depthInternal P v.toKernelView wtx
  if nResult = 0 ∧ !v.inMemPool (P.txHash wtx.tx) then -1 else nResult

/-- What the script solver says of an output. -/
inductive Solution where
  | pubkey (vchPubKey : List UInt8)
  | pubkeyhash (hash : BitVec 160)
  | other
deriving DecidableEq

/-- A key, as far as it is looked at: its public key. -/
structure Key where
  pubKey : List UInt8
deriving DecidableEq

/-- A wallet with its keys, its settings and what the rest of it answers. -/
structure StakingWallet extends Wallet where
  getBalance : Int64
  nReserveBalance : Int64
  /-- where in memory a transaction of the wallet is, which orders sets of pointers to them -/
  address : Uint256 → ℕ
  /-- `Solver`, which fails on a script it does not know -/
  solver : Script → Option Solution
  hash160 : List UInt8 → BitVec 160
  getKey : BitVec 160 → Option Key
  /-- `SignSignature(*this, txFrom, txTo, nIn)`: the signature for the input -/
  signSignature : Transaction → Transaction → ℕ → Option Script

/-- `COutput` of the wallet, and an element of a set of beans. -/
structure Bean where
  wtx : WalletTx
  i : ℕ
deriving DecidableEq

namespace Bean

def txout (bean : Bean) : Option TxOut := bean.wtx.tx.vout[bean.i]?

def nValue (bean : Bean) : Int64 := bean.txout.elim 0 TxOut.nValue

def scriptPubKey (bean : Bean) : Script := bean.txout.elim [] TxOut.scriptPubKey

def outPoint (P : Params) (bean : Bean) : OutPoint := ⟨P.txHash bean.wtx.tx, .ofNat bean.i⟩

end Bean

/-- The transactions of the wallet in the order of their hashes. -/
def Wallet.transactions (w : Wallet) : List WalletTx :=
  (w.mapWallet.entries.mergeSort fun a b => decide (a.1.toNat ≤ b.1.toNat)).map Sigma.snd

def availableBeansMinConf (P : Params) (v : ChainView) (w : Wallet) (nConf : ℤ) : List Bean :=
  w.transactions.flatMap fun wtx =>
    if !wtx.tx.isFinal v.nBestHeight v.nAdjustedTime 0 0 then []
    else if getDepthInMainChain P v wtx < nConf then []
    else ((List.range wtx.tx.vout.length).map fun i => (⟨wtx, i⟩ : Bean)).filter fun bean =>
      !wtx.isSpent bean.i && w.isMine bean.scriptPubKey &&
        decide (w.nMinimumInputValue ≤ bean.nValue)

/-- The loop of `SelectBeansSimple`, with what has been selected so far and its value. -/
def selectBeansLoop (nTargetValue : Int64) (nSpendTime : UInt32) :
    List Bean → List Bean → Int64 → List Bean
  | [], setBeansRet, _ => setBeansRet
  | bean :: vBeans, setBeansRet, nValueRet =>
    if nTargetValue ≤ nValueRet then setBeansRet
    else if nSpendTime < bean.wtx.tx.nTime then
      selectBeansLoop nTargetValue nSpendTime vBeans setBeansRet nValueRet
    else if nTargetValue ≤ bean.nValue then setBeansRet ++ [bean]
    else if bean.nValue < nTargetValue + cent then
      selectBeansLoop nTargetValue nSpendTime vBeans (setBeansRet ++ [bean])
        (nValueRet + bean.nValue)
    else selectBeansLoop nTargetValue nSpendTime vBeans setBeansRet nValueRet

/-- `SelectBeansSimple`; the set it returns is in the order of the pointers. -/
def selectBeansSimple (P : Params) (v : ChainView) (w : StakingWallet) (nTargetValue : Int64)
    (nSpendTime : UInt32) (nMinConf : ℤ) : List Bean :=
  (selectBeansLoop nTargetValue nSpendTime (availableBeansMinConf P v w.toWallet nMinConf) []
    0).mergeSort fun a b =>
      let x := w.address (P.txHash a.wtx.tx)
      let y := w.address (P.txHash b.wtx.tx)
      decide (x < y ∨ x = y ∧ a.i ≤ b.i)

def nMaxStakeSearchInterval : UInt32 := 60

def nStakeSplitAge : ℤ := 1 * 24 * 60 * 60

def nStakeCombineThreshold : Int64 := 1000 * bean

/-- `CScript() << key.GetPubKey() << OP_CHECKSIG` -/
def payToPubKey (key : Key) : Script := .ofNat key.pubKey.length :: key.pubKey ++ [0xac]

/-- The script that the stake is paid to, and the key that signs the block. -/
def StakingWallet.stakeKey (w : StakingWallet) (scriptPubKeyKernel : Script) :
    Option (Script × Key) :=
  match w.solver scriptPubKeyKernel with
  | some (.pubkeyhash hash) => (w.getKey hash).map fun key => (payToPubKey key, key)
  | some (.pubkey vchPubKey) =>
    match w.getKey (w.hash160 vchPubKey) with
    | some key => if key.pubKey = vchPubKey then some (scriptPubKeyKernel, key) else none
    | none => none
  | _ => none

/-- A kernel that was found: the output, the time, and what has been read for it. -/
structure FoundKernel where
  bean : Bean
  nTime : UInt32
  block : BlockHeader
  scriptPubKeyOut : Script
  key : Key
deriving DecidableEq

/-- The search backward in time from `nTime`. -/
def kernelTime (P : Params) (v : KernelView) (nBits : UInt32) (bean : Bean) (o : TxOut)
    (pos : TxPos) (block : BlockHeader) (nTime : UInt32) (nSearchInterval : ℤ) : Option UInt32 :=
  ((List.range (min nSearchInterval nMaxStakeSearchInterval.toNat).toNat).map fun n =>
    nTime - .ofNat n).find? fun nTimeTx =>
      (checkStakeKernelHash P v nBits block (pos.nTxPos - pos.nBlockPos) bean.wtx.tx o
        (bean.outPoint P) nTimeTx).toOption.isSome

/-- What the search does with one of the beans. -/
def tryKernel (P : Params) (v : KernelView) (w : StakingWallet) (nBits nTime : UInt32)
    (nSearchInterval : ℤ) (bean : Bean) : Option FoundKernel :=
  match v.readTxIndex (P.txHash bean.wtx.tx) with
  | none => none
  | some txindex =>
    match txindex.pos.bind fun pos => (v.readHeader pos.nFile pos.nBlockPos).map (pos, ·) with
    | none => none
    | some (pos, block) =>
      -- only beans that meet the min age requirement at the start of the interval
      if (nTime - nMaxStakeSearchInterval).toNat < block.nTime.toNat + P.nStakeMinAge.toNat then
        none
      else
        bean.txout.bind fun o =>
          (kernelTime P v nBits bean o pos block nTime nSearchInterval).bind fun nTime =>
            (w.stakeKey o.scriptPubKey).map fun r => ⟨bean, nTime, block, r.1, r.2⟩

/-- The loop that adds beans of the same address as the kernel, with the beans of the inputs so
far and their value. -/
def addInputs (P : Params) (kernel : FoundKernel) (nLimit : Int64) :
    List Bean → List Bean → Int64 → List Bean × Int64
  | [], vin, nCredit => (vin, nCredit)
  | bean :: setBeans, vin, nCredit =>
    if (bean.scriptPubKey = kernel.bean.scriptPubKey ∨ bean.scriptPubKey = kernel.scriptPubKeyOut) ∧
        P.txHash bean.wtx.tx ≠ P.txHash kernel.bean.wtx.tx then
      if 100 ≤ vin.length then (vin, nCredit)
      else if nStakeCombineThreshold ≤ nCredit then (vin, nCredit)
      else if nLimit < nCredit + bean.nValue then (vin, nCredit)
      else if nStakeCombineThreshold ≤ bean.nValue then
        addInputs P kernel nLimit setBeans vin nCredit
      else if getWeight P bean.wtx.tx.nTime.toNat kernel.nTime.toNat < P.nStakeMinAge.toNat then
        addInputs P kernel nLimit setBeans vin nCredit
      else addInputs P kernel nLimit setBeans (vin ++ [bean]) (nCredit + bean.nValue)
    else addInputs P kernel nLimit setBeans vin nCredit

/-- The transaction before it is signed. -/
def unsignedStake (P : Params) (nTime : UInt32) (vin : List Bean) (vout : List TxOut) :
    Transaction where
  nVersion := 1
  nTime := nTime
  vin := vin.map fun bean => ⟨bean.outPoint P, [], 0xffffffff⟩
  vout := ⟨0, []⟩ :: vout
  nLockTime := 0

/-- The outputs after the empty one: two of them when the kernel is young. -/
def stakeOutputs (fSplit : Bool) (scriptPubKeyOut : Script) (nCredit : Int64) : List TxOut :=
  if fSplit then
    let nValue := nCredit / 2 / cent * cent
    [⟨nValue, scriptPubKeyOut⟩, ⟨nCredit - nValue, scriptPubKeyOut⟩]
  else [⟨nCredit, scriptPubKeyOut⟩]

/-- Sign the inputs from input `nIn` on. -/
def signInputs (w : StakingWallet) : ℕ → List Bean → Transaction → Option Transaction
  | _, [], txNew => some txNew
  | nIn, bean :: vwtxPrev, txNew =>
    match w.signSignature bean.wtx.tx txNew nIn with
    | some scriptSig => signInputs w (nIn + 1) vwtxPrev (txNew.setScriptSig nIn scriptSig)
    | none => none

/-- `CreateBeanStake` for a transaction that has the time `nTime`. -/
def createBeanStake (P : Params) (v : ChainView) (w : StakingWallet) (nBits : UInt32)
    (nSearchInterval : ℤ) (nFees : Int64) (nTime : UInt32) : Option (Transaction × Key) :=
  if w.getBalance ≤ w.nReserveBalance then none
  else
    let nLimit := w.getBalance - w.nReserveBalance
    let setBeans := selectBeansSimple P v w nLimit nTime (P.nBeanbaseMaturity + 10)
    match setBeans.findSome? (tryKernel P v.toKernelView w nBits nTime nSearchInterval) with
    | none => none
    | some kernel =>
      let nCredit := kernel.bean.nValue
      if nCredit = 0 ∨ nLimit < nCredit then none
      else
        let fSplit := decide
          (getWeight P kernel.block.nTime.toNat kernel.nTime.toNat < nStakeSplitAge)
        let (vin, nCredit) := if fSplit then ([kernel.bean], nCredit)
          else addInputs P kernel nLimit setBeans [kernel.bean] nCredit
        -- the outputs get their values once the reward is known
        let outputs := stakeOutputs fSplit kernel.scriptPubKeyOut
        match getBeanAge P v.toKernelView.inputView v.readHeader
            (unsignedStake P kernel.nTime vin (outputs 0)) with
        | none => none
        | some nBeanAge =>
          let nReward := getProofOfStakeReward nBeanAge nFees
          if nReward ≤ 0 then none
          else
            match signInputs w 0 vin
                (unsignedStake P kernel.nTime vin (outputs (nCredit + nReward))) with
            | none => none
            | some txNew =>
              if maxBlockSizeGen / 5 ≤ txNew.serializeSize then none else some (txNew, kernel.key)

end Beancash
