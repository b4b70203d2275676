import Beancash.BeanAgeSpec
import Beancash.CreateTransaction
import Beancash.MinFee
import Beancash.SignRawTransaction
import Beancash.SpendMine
import Beancash.StakeAccepted

namespace Beancash

/-- What a selection is that says that it succeeds: some of the outputs, which sum to what it says. -/
structure Selection.Takes (outputs : List Output) (nTargetValue : ℤ) (s : Selection) : Prop where
  subset : s.fRet = true → ∀ bean ∈ s.setBeansRet, bean ∈ outputs.map Output.bean
  sum : s.fRet = true → ∑ bean ∈ s.setBeansRet, bean.nValue.toInt = s.nValueRet
  target_le : s.fRet = true → nTargetValue ≤ s.nValueRet

theorem Selection.Selects.takes {outputs : List Output} {nTargetValue : ℤ} {s : Selection}
    (h : s.Selects outputs nTargetValue) : s.Takes outputs nTargetValue :=
  ⟨h.subset, h.sum, h.target_le⟩

theorem Selection.Takes.perm {outputs outputs' : List Output} {nTargetValue : ℤ} {s : Selection}
    (h : s.Takes outputs nTargetValue) (hperm : outputs.Perm outputs') :
    s.Takes outputs' nTargetValue where
  subset hret bean hbean := (hperm.map Output.bean).subset (h.subset hret bean hbean)
  sum := h.sum
  target_le := h.target_le

theorem SameButScriptSigs.fields {tx tx' : Transaction} (h : SameButScriptSigs tx tx') :
    tx'.vout = tx.vout ∧ tx'.nTime = tx.nTime ∧ tx'.prevouts = tx.prevouts := by
  have hclear : tx'.clearScriptSigs = tx.clearScriptSigs := h
  have hvin := congrArg Transaction.prevouts hclear
  simp only [Transaction.prevouts, Transaction.clearScriptSigs, List.map_map] at hvin
  have hvout := congrArg Transaction.vout hclear
  have htime := congrArg Transaction.nTime hclear
  exact ⟨hvout, htime, hvin⟩

namespace PaymentRequest

/-- What is paid. -/
def total (req : PaymentRequest) : ℤ := (req.vecSend.map fun s => s.2.toInt).sum

end PaymentRequest

namespace PayingWallet

variable {P : Params} {c : Crypto} {v : ChainView} {w : PayingWallet} {req : PaymentRequest}

/-- What `SelectBeans` chooses. Without bean control it is no younger than the transaction. -/
structure Chosen (P : Params) (v : ChainView) (w : PayingWallet) (req : PaymentRequest)
    (nTargetValue : ℤ) (s : Selection) : Prop where
  subset : ∀ bean ∈ s.setBeansRet, bean ∈ (w.availableBeans P v req).map Output.bean
  sum : ∑ bean ∈ s.setBeansRet, bean.nValue.toInt = s.nValueRet
  target_le : nTargetValue ≤ s.nValueRet
  dated : (∀ bean ∈ s.setBeansRet, bean.wtx.tx.nTime ≤ req.wtxNew.tx.nTime) ↔
    (req.hasSelected = true → ∀ o ∈ w.availableBeans P v req,
      o.bean.wtx.tx.nTime ≤ req.wtxNew.tx.nTime)

end PayingWallet

open PayingWallet

namespace Sample

end Sample

end Beancash
