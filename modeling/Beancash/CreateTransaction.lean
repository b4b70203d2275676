import Beancash.AccountWallet
import Beancash.Destinations
import Beancash.SelectByBeanAge
import Beancash.SignSignature

namespace Beancash

/-- `CBeanControl`; where there is no `destChange` it is `CNoDestination`. -/
structure BeanControl where
  destChange : Option TxDestination
  setSelected : Finset OutPoint

def BeanControl.hasSelected (beanControl : BeanControl) : Bool :=
  decide (0 < beanControl.setSelected.card)

/-- The wallet that pays, with its settings and the answers of `IsTrusted` and `IsLockedBean`. -/
structure PayingWallet extends Wallet where
  isTrusted : WalletTx → Bool
  isLockedBean : OutPoint → Bool
  /-- where in memory a transaction of the wallet is, which orders sets of pointers to them -/
  address : Uint256 → ℕ
  keystore : SigningKeyStore
  nTransactionFee : Int64
  fMinimizeCoinAge : Bool

/-- What is to be paid, and the transaction as it is handed in. -/
structure PaymentRequest where
  vecSend : List (Script × Int64)
  wtxNew : WalletTx
  beanControl : Option BeanControl

namespace PaymentRequest

def hasSelected (req : PaymentRequest) : Bool := req.beanControl.any BeanControl.hasSelected

/-- Whether bean control lets an output be used. -/
def admits (req : PaymentRequest) (o : OutPoint) : Bool :=
  match req.beanControl with
  | none => true
  | some beanControl => !beanControl.hasSelected || decide (o ∈ beanControl.setSelected)

/-- The sum of the amounts; `none` if it is negative before or after one of them. -/
def sumAmounts : List (Script × Int64) → Int64 → Option Int64
  | [], nValue => if nValue < 0 then none else some nValue
  | s :: vecSend, nValue => if nValue < 0 then none else sumAmounts vecSend (nValue + s.2)

end PaymentRequest

namespace PayingWallet

variable (P : Params) (c : Crypto) (v : ChainView) (w : PayingWallet) (req : PaymentRequest)

/-- A round of the loop of `AvailableBeans`. -/
def availableOf (wtx : WalletTx) : List Output :=
  let nDepth := getDepthInMainChain P v wtx
  if !wtx.tx.isFinal v.nBestHeight v.nAdjustedTime 0 0 then []
  else if !w.isTrusted wtx then []
  else if (wtx.tx.isBeanBase || wtx.tx.isBeanStake) && decide (0 < getBlocksToMaturity P v wtx) then []
  else if nDepth < 0 then []
  else (((List.range wtx.tx.vout.length).map fun i => (⟨wtx, i⟩ : Bean)).filter fun bean =>
    !wtx.isSpent bean.i && w.isMine bean.scriptPubKey &&
      decide (w.nMinimumInputValue ≤ bean.nValue) && !w.isLockedBean (bean.outPoint P) &&
        req.admits (bean.outPoint P)).map fun bean => ⟨bean, nDepth⟩

/-- `AvailableBeans(vBeans, true, beanControl)` -/
def availableBeans : List Output := w.transactions.flatMap (w.availableOf P v req)

def limits (nTargetValue : Int64) (nConfMine nConfTheirs : ℤ) : SelectionLimits :=
  ⟨fun wtx => w.isFromMe wtx.tx, nTargetValue.toInt, req.wtxNew.tx.nTime, nConfMine, nConfTheirs⟩

/-- The beans of a set, in the order of the pointers. -/
def inOrder (setBeans : Finset Bean) : List Bean :=
  (((w.availableBeans P v req).map Output.bean).filter fun bean => bean ∈ setBeans).mergeSort
    fun a b =>
      let x := w.address (P.txHash a.wtx.tx)
      let y := w.address (P.txHash b.wtx.tx)
      decide (x < y ∨ x = y ∧ a.i ≤ b.i)

/-- The inputs are signed from input `nIn` on; `none` if that fails at one. -/
def signInputs : List Bean → ℕ → Transaction → ScriptEval (Option Transaction)
  | [], _, txNew => .ok (some txNew)
  | bean :: beans, nIn, txNew => do
    let (fSigned, txNew) ←
      signSignature c w.keystore bean.scriptPubKey txNew (.ofNat nIn) sigHashAll
    if fSigned then signInputs beans (nIn + 1) txNew else return none

end PayingWallet

end Beancash
