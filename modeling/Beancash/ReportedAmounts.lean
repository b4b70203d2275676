import Beancash.AmountRun
import Beancash.InputSpec
import Beancash.WalletTxRecord

namespace Beancash

variable (c : Crypto)

/-- A `CWalletTx` with what is reported of it besides. -/
structure AccountTx extends CachedTx where
  vtxPrev : List MerkleTx
  mapValue : MapValue
  nTimeReceived : UInt32
  nTimeSmart : UInt32
  strFromAccount : List UInt8
  nOrderPos : Int64

/-- What `GetAmounts` gives back. What has no address has `none`, which is `CNoDestination`. -/
structure Amounts where
  listReceived : List (Option TxDestination × Int64)
  listSent : List (Option TxDestination × Int64)
  nFee : Int64
  strSentAccount : List UInt8
deriving DecidableEq

/-- A round of the loop over the outputs. -/
def addAmount (w : AmountWallet) (nDebit : Int64) (r : Amounts) (txout : TxOut) : Amounts :=
  -- skip special stake out
  if txout.scriptPubKey.isEmpty then r
  else if 0 < nDebit ∧ w.isChange c txout then r
  else if ¬0 < nDebit ∧ !w.isMine c txout then r
  else
    let address := extractDestination c txout.scriptPubKey
    let r := if 0 < nDebit then
      { r with listSent := r.listSent ++ [(address, txout.nValue)] } else r
    if w.isMine c txout then
      { r with listReceived := r.listReceived ++ [(address, txout.nValue)] } else r

/-- `GetAmounts`; `none` is an exception. -/
def AccountTx.getAmounts (w : AmountWallet) (wtx : AccountTx) : Option Amounts :=
  (wtx.getDebit c w).1.bind fun nDebit =>
    let nFee := if 0 < nDebit then wtx.tx.getValueOut.map fun nValueOut => nDebit - nValueOut
      else some 0
    nFee.map fun nFee =>
      wtx.tx.vout.foldl (addAmount c w nDebit) ⟨[], [], nFee, wtx.strFromAccount⟩

/-- What a list of amounts comes to. -/
def totalAmount (l : List (Option TxDestination × Int64)) : ℤ := (l.map fun p => p.2.toInt).sum

/-- What has been received, less what has been sent and the fee. -/
def Amounts.net (r : Amounts) : ℤ :=
  totalAmount r.listReceived - totalAmount r.listSent - r.nFee.toInt

namespace AmountWallet

variable (w : AmountWallet)

/-- What the own outputs come to. -/
def ownValue (vout : List TxOut) : ℤ :=
  (vout.map fun txout => if w.isMine c txout then txout.nValue.toInt else 0).sum

/-- An output that is in neither list of a transaction that debits the wallet. -/
def isHidden (txout : TxOut) : Bool := txout.scriptPubKey.isEmpty || w.isChange c txout

/-- What the outputs come to that are in neither list though they are not the wallet's own. -/
def hiddenValue (vout : List TxOut) : ℤ :=
  (vout.map fun txout =>
    if w.isHidden c txout && !w.isMine c txout then txout.nValue.toInt else 0).sum

end AmountWallet

variable {c} {w : AmountWallet} {nDebit : Int64}

theorem totalAmount_concat (l : List (Option TxDestination × Int64)) (address : Option TxDestination)
    (nValue : Int64) : totalAmount (l ++ [(address, nValue)]) = totalAmount l + nValue.toInt := by
  simp [totalAmount]

theorem AmountWallet.isMine_of_isEmpty {txout : TxOut} (h : txout.scriptPubKey.isEmpty = true) :
    w.isMine c txout = false := by
  rw [isMine, List.isEmpty_iff.mp h]
  rfl

theorem net_addAmount_of_pos (h : 0 < nDebit) (r : Amounts) (txout : TxOut) :
    (addAmount c w nDebit r txout).net =
      r.net - txout.nValue.toInt + w.ownValue c [txout] + w.hiddenValue c [txout] := by
  unfold addAmount AmountWallet.ownValue AmountWallet.hiddenValue AmountWallet.isHidden
  simp only [h, true_and, not_true_eq_false, false_and, if_false, if_true, List.map_singleton,
    List.sum_singleton]
  by_cases hempty : txout.scriptPubKey.isEmpty = true
  · rw [if_pos hempty, AmountWallet.isMine_of_isEmpty hempty, hempty]
    simp
  · rw [if_neg hempty]
    cases hchange : w.isChange c txout <;> cases hmine : w.isMine c txout <;>
      simp [hempty, Amounts.net, totalAmount_concat]
    omega

theorem net_addAmount_of_not_pos (h : ¬0 < nDebit) (r : Amounts) (txout : TxOut) :
    (addAmount c w nDebit r txout).net = r.net + w.ownValue c [txout] := by
  unfold addAmount AmountWallet.ownValue
  simp only [h, false_and, if_false, not_false_eq_true, true_and, List.map_singleton,
    List.sum_singleton]
  by_cases hempty : txout.scriptPubKey.isEmpty = true
  · rw [if_pos hempty, AmountWallet.isMine_of_isEmpty hempty]
    simp
  · rw [if_neg hempty]
    cases hmine : w.isMine c txout <;> simp [Amounts.net, totalAmount_concat]
    omega

theorem AmountWallet.ownValue_cons (txout : TxOut) (vout : List TxOut) :
    w.ownValue c (txout :: vout) = w.ownValue c [txout] + w.ownValue c vout := by
  simp [ownValue]

theorem AmountWallet.hiddenValue_cons (txout : TxOut) (vout : List TxOut) :
    w.hiddenValue c (txout :: vout) = w.hiddenValue c [txout] + w.hiddenValue c vout := by
  simp [hiddenValue]

theorem net_foldl_of_pos (h : 0 < nDebit) (vout : List TxOut) (r : Amounts) :
    (vout.foldl (addAmount c w nDebit) r).net =
      r.net - (vout.map fun txout => txout.nValue.toInt).sum + w.ownValue c vout +
        w.hiddenValue c vout := by
  induction vout generalizing r with
  | nil => simp [AmountWallet.ownValue, AmountWallet.hiddenValue]
  | cons txout vout ih =>
    rw [List.foldl_cons, ih, net_addAmount_of_pos h, w.ownValue_cons txout vout,
      w.hiddenValue_cons txout vout, List.map_cons, List.sum_cons]
    omega

theorem net_foldl_of_not_pos (h : ¬0 < nDebit) (vout : List TxOut) (r : Amounts) :
    (vout.foldl (addAmount c w nDebit) r).net = r.net + w.ownValue c vout := by
  induction vout generalizing r with
  | nil => simp [AmountWallet.ownValue]
  | cons txout vout ih =>
    rw [List.foldl_cons, ih, net_addAmount_of_not_pos h, w.ownValue_cons txout vout, Int.add_assoc]

theorem moneyRange_of_getValueOut {os : List TxOut} {acc r : Int64}
    (h : sumValueOut acc os = some r) : ∀ o ∈ os, moneyRange o.nValue = true := by
  induction os generalizing acc with
  | nil => exact fun o ho => absurd ho List.not_mem_nil
  | cons o os ih =>
    rw [sumValueOut] at h
    split at h
    · cases h
    · rename_i hrange
      rw [Bool.or_eq_true, not_or, Bool.not_eq_true', Bool.not_eq_false] at hrange
      exact List.forall_mem_cons.mpr ⟨hrange.1, ih h⟩

theorem toInt_nFee {tx : Transaction} {nValueOut : Int64} (h : 0 < nDebit)
    (hout : tx.getValueOut = some nValueOut) :
    (nDebit - nValueOut).toInt =
      nDebit.toInt - (tx.vout.map fun txout => txout.nValue.toInt).sum := by
  obtain ⟨hrange, hsum⟩ := Transaction.getValueOut_eq_some hout
  have hpos : 0 < nDebit.toInt := Int64.lt_iff_toInt_lt.mp h
  have hlt := nDebit.toInt_lt
  rw [moneyRange_iff] at hrange
  rw [Int64.toInt_sub, Int.bmod_eq_of_le (by omega) (by omega), hsum]
  rfl

theorem AccountTx.net_getAmounts {wtx : AccountTx} {r : Amounts} {nDebit : Int64}
    (hdebit : (wtx.getDebit c w).1 = some nDebit) (h : wtx.getAmounts c w = some r) :
    r.net = w.ownValue c wtx.tx.vout +
      if 0 < nDebit then w.hiddenValue c wtx.tx.vout - nDebit.toInt else 0 := by
  rw [getAmounts, hdebit, Option.bind_some] at h
  obtain ⟨nFee, hfee, rfl⟩ := Option.map_eq_some_iff.mp h
  by_cases hpos : 0 < nDebit
  · rw [if_pos hpos] at hfee ⊢
    obtain ⟨nValueOut, hout, rfl⟩ := Option.map_eq_some_iff.mp hfee
    rw [net_foldl_of_pos hpos, Amounts.net, toInt_nFee hpos hout]
    simp only [totalAmount, List.map_nil, List.sum_nil]
    omega
  · rw [if_neg hpos] at hfee ⊢
    obtain rfl := Option.some_injective _ hfee
    rw [net_foldl_of_not_pos hpos]
    simp [Amounts.net, totalAmount]

theorem AmountWallet.hiddenValue_eq_zero_iff {vout : List TxOut}
    (hrange : ∀ o ∈ vout, moneyRange o.nValue = true) :
    w.hiddenValue c vout = 0 ↔
      ∀ txout ∈ vout, w.isMine c txout = false →
        (txout.scriptPubKey = [] ∨ w.isChange c txout = true) → txout.nValue = 0 := by
  have hterm : ∀ txout ∈ vout, 0 ≤ w.hiddenValue c [txout] ∧
      (w.hiddenValue c [txout] = 0 ↔ (w.isMine c txout = false →
        (txout.scriptPubKey = [] ∨ w.isChange c txout = true) → txout.nValue = 0)) := by
    intro txout ho
    have hnonneg := (moneyRange_iff.mp (hrange txout ho)).1
    have hzero : txout.nValue.toInt = 0 ↔ txout.nValue = 0 := Int64.toInt_inj (y := 0)
    unfold hiddenValue isHidden
    cases hmine : w.isMine c txout <;> cases hchange : w.isChange c txout <;>
      cases hempty : txout.scriptPubKey <;> simp [hmine, hchange, hempty, hnonneg, hzero]
  induction vout with
  | nil => simp [hiddenValue]
  | cons txout vout ih =>
    obtain ⟨hfirst, hiff⟩ := hterm txout List.mem_cons_self
    have hrest := ih (fun o ho => hrange o (List.mem_cons_of_mem _ ho))
      fun o ho => hterm o (List.mem_cons_of_mem _ ho)
    have hnonneg : 0 ≤ w.hiddenValue c vout :=
      List.sum_nonneg fun n hn => by
        obtain ⟨o, ho, rfl⟩ := List.mem_map.mp hn
        simpa [hiddenValue] using (hterm o (List.mem_cons_of_mem _ ho)).1
    have hsum : w.hiddenValue c [txout] + w.hiddenValue c vout = 0 ↔
        w.hiddenValue c [txout] = 0 ∧ w.hiddenValue c vout = 0 := by omega
    rw [w.hiddenValue_cons txout vout, List.forall_mem_cons]
    exact hsum.trans (and_congr hiff hrest)

/-- The reported amounts come to the own outputs less the debit if and only if the outputs that are
left out of the lists of a transaction that debits the wallet, and are not its own, are worth
nothing. (No debit is negative, unless a cache holds one.) -/
theorem getAmounts_net_iff (c : Crypto) (w : AmountWallet) (wtx : AccountTx) {nDebit : Int64}
    {r : Amounts} (hdebit : (wtx.getDebit c w).1 = some nDebit) (h : wtx.getAmounts c w = some r) :
    totalAmount r.listReceived - totalAmount r.listSent - r.nFee.toInt =
        w.ownValue c wtx.tx.vout - nDebit.toInt ↔
      0 ≤ nDebit ∧ (0 < nDebit → ∀ txout ∈ wtx.tx.vout, w.isMine c txout = false →
        (txout.scriptPubKey = [] ∨ w.isChange c txout = true) → txout.nValue = 0) := by
  have hnet : totalAmount r.listReceived - totalAmount r.listSent - r.nFee.toInt = _ :=
    AccountTx.net_getAmounts hdebit h
  rw [hnet, Int64.le_iff_toInt_le, show (0 : Int64).toInt = 0 from rfl]
  by_cases hpos : 0 < nDebit
  · have hrange : ∀ o ∈ wtx.tx.vout, moneyRange o.nValue = true := by
      rw [AccountTx.getAmounts, hdebit, Option.bind_some, if_pos hpos] at h
      obtain ⟨nFee, hfee, -⟩ := Option.map_eq_some_iff.mp h
      obtain ⟨nValueOut, hout, -⟩ := Option.map_eq_some_iff.mp hfee
      exact moneyRange_of_getValueOut hout
    have hpos' : 0 < nDebit.toInt := Int64.lt_iff_toInt_lt.mp hpos
    rw [if_pos hpos, forall_prop_of_true hpos, ← w.hiddenValue_eq_zero_iff hrange]
    omega
  · rw [if_neg hpos]
    have hneg : nDebit.toInt ≤ 0 := not_lt.mp fun hlt => hpos (Int64.lt_iff_toInt_lt.mpr hlt)
    simp only [hpos, false_imp_iff, and_true]
    omega

namespace Sample

/-- A wallet transaction of which only the transaction itself is looked at. -/
def reported (tx : Transaction) : AccountTx :=
  { WalletTx.ofTransaction tx with
    caches := .empty
    vtxPrev := []
    mapValue := .empty
    nTimeReceived := 0
    nTimeSmart := 0
    strFromAccount := []
    nOrderPos := -1 }

/-- A script of two keys of which the wallet has one, known by its hash. -/
def sharedScript : Script :=
  [0x52, 33] ++ (2 :: .replicate 32 1) ++ 33 :: (2 :: .replicate 32 2) ++ [0x52, 0xae]

/-- A wallet that has been paid three beans and knows the script. -/
def paidWallet : AmountWallet :=
  { keyWallet with
    mapWallet := (∅ : AList fun _ : Uint256 => CachedTx).insert 7 ⟨.ofTransaction paysKey, .empty⟩
    keystore := keyWallet.keystore.addCScript anyCrypto sharedScript }

/-- It pays two beans to the hash of the script, and half a bean to nobody. -/
def paysShared : Transaction :=
  spend 21 [⟨7, 0⟩]
    [⟨2 * bean, [0xa9, 0x14] ++ (anyCrypto.hash160 sharedScript).toList ++ [0x87]⟩,
      ⟨50 * cent, []⟩]

def paysAnother : Transaction :=
  spend 22 [⟨7, 0⟩] [⟨2 * bean, Script.ofKeyID (.replicate 20 9)⟩, ⟨0, []⟩]

end Sample

open Sample in
theorem getAmounts_net_iff_paysAnother :
    ((reported paysAnother).getAmounts anyCrypto paidWallet).map Amounts.net =
      some (paidWallet.ownValue anyCrypto paysAnother.vout - (3 * bean : Int64).toInt) := by
  have hdebit : ((reported paysAnother).getDebit anyCrypto paidWallet).1 = some (3 * bean) := by
    decide
  obtain ⟨r, hr⟩ := Option.isSome_iff_exists.mp (show
    ((reported paysAnother).getAmounts anyCrypto paidWallet).isSome = true by decide)
  rw [hr]
  exact congrArg some ((getAmounts_net_iff anyCrypto paidWallet (reported paysAnother) hdebit hr).mpr
    (by decide))

open Sample in
/-- What is paid to the hash of a script that is not all the wallet's own counts as change, and what
has no script is skipped. Neither is reported as sent. -/
theorem getAmounts_hides :
    ((reported paysShared).getDebit anyCrypto paidWallet).1 = some (3 * bean) ∧
      (reported paysShared).getAmounts anyCrypto paidWallet =
        some ⟨[], [], 50 * cent, []⟩ ∧
      ((reported paysShared).getAmounts anyCrypto paidWallet).map Amounts.net ≠
        some (paidWallet.ownValue anyCrypto paysShared.vout - (3 * bean : Int64).toInt) := by
  decide

end Beancash
