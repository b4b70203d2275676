import Beancash.AccountBalances
import Mathlib.Data.Int.ModEq

namespace Beancash

/-- What the wallet reads of a `CMerkleTx`. -/
def MerkleTx.toWalletTx (mtx : MerkleTx) : WalletTx :=
  { WalletTx.ofTransaction mtx.tx with
    hashBlock := mtx.hashBlock
    vMerkleBranch := mtx.vMerkleBranch
    nIndex := mtx.nIndex.toInt }

namespace AccountWallet

variable (P : Params) (c : Crypto) (v : ChainView) (w : AccountWallet)

/-- `mapPrev[hash]`: of two transactions with one hash, the later is there. -/
def findPrev (vtxPrev : List MerkleTx) (hash : Uint256) : Option MerkleTx :=
  vtxPrev.reverse.find? fun tx => P.txHash tx.tx = hash

/-- The loop over the queue of the transactions that a transaction depends on. It goes `nFuel` rounds
at most. -/
def trustedLoop (vtxPrev : List MerkleTx) : ℕ → List WalletTx → Option Bool
  | _, [] => some true
  | 0, _ :: _ => none
  | nFuel + 1, ptx :: vWorkQueue =>
    if !ptx.tx.isFinal v.nBestHeight v.nAdjustedTime 0 0 then some false
    else
      let nPDepth := getDepthInMainChain P v ptx
      if 1 ≤ nPDepth then trustedLoop vtxPrev nFuel vWorkQueue
      else if nPDepth < 0 then some false
      else
        match w.amounts.getDebit c ptx.tx with
        | none => none
        | some nDebit =>
          if ¬0 < nDebit then some false
          else
            match ptx.tx.prevouts.mapM fun prevout => findPrev P vtxPrev prevout.hash with
            | none => some false
            | some prevs => trustedLoop vtxPrev nFuel (vWorkQueue ++ prevs.map MerkleTx.toWalletTx)

/-- `IsTrusted`; `fConfChange` is the option that unconfirmed change is not spent. -/
def isTrusted (fConfChange : Bool) (nFuel : ℕ) (wtx : AccountTx) : Option Bool :=
  -- quick answer in most cases
  if !wtx.tx.isFinal v.nBestHeight v.nAdjustedTime 0 0 then some false
  else
    let nDepth := getDepthInMainChain P v wtx.toWalletTx
    if 1 ≤ nDepth then some true
    else if nDepth < 0 then some false
    else if fConfChange then some false
    else
      match (wtx.getDebit c w.amounts).1 with
      | none => none
      | some nDebit =>
        if ¬0 < nDebit then some false
        -- it is from us: are all its dependencies confirmed?
        else trustedLoop P c v w wtx.vtxPrev nFuel [wtx.toWalletTx]

/-- Whether `GetBlocksToMaturity() > 0`. -/
def isImmature (wtx : AccountTx) : Bool := decide (0 < getBlocksToMaturity P v wtx.toWalletTx)

/-- A round of the loop of `GetBalance`. -/
def addAvailable (fConfChange : Bool) (nFuel : ℕ) (nTotal : Int64) (wtx : AccountTx) :
    Option Int64 := do
  if ← isTrusted P c v w fConfChange nFuel wtx then
    let nCredit ← (wtx.getAvailableCredit c w.amounts true (isImmature P v wtx)).1
    pure (nTotal + nCredit)
  else pure nTotal

/-- `GetBalance`, which `getbalance` without arguments returns. -/
def getBalance (fConfChange : Bool) (nFuel : ℕ) : Option Int64 :=
  w.transactions.foldlM (addAvailable P c v w fConfChange nFuel) 0

/-- A round of the loop of `getbalance "*"`. -/
def addAmounts (fConfChange : Bool) (nFuel : ℕ) (nMinDepth : ℤ) (nBalance : Int64)
    (wtx : AccountTx) : Option Int64 := do
  if ← isTrusted P c v w fConfChange nFuel wtx then
    let r ← wtx.getAmounts c w.amounts
    let nBalance := if nMinDepth ≤ getDepthInMainChain P v wtx.toWalletTx ∧
      getBlocksToMaturity P v wtx.toWalletTx = 0 then
        r.listReceived.foldl (fun nBalance r => nBalance + r.2) nBalance else nBalance
    let nBalance := r.listSent.foldl (fun nBalance s => nBalance - s.2) nBalance
    pure (nBalance - r.nFee)
  else pure nBalance

/-- `getbalance "*"` -/
def getBalanceOfAll (fConfChange : Bool) (nFuel : ℕ) (nMinDepth : ℤ) : Option Int64 :=
  w.transactions.foldlM (addAmounts P c v w fConfChange nFuel nMinDepth) 0

end AccountWallet

theorem ofInt_eq_ofInt_iff {a b : ℤ} : Int64.ofInt a = Int64.ofInt b ↔ a ≡ b [ZMOD 2 ^ 64] := by
  rw [← Int64.toInt_inj, Int64.toInt_ofInt, Int64.toInt_ofInt,
    Int.bmod_eq_bmod_iff_bmod_sub_eq_zero, ← Int.dvd_iff_bmod_eq_zero, Int.modEq_comm,
    Int.modEq_iff_dvd]
  rfl

theorem sum_ofInt {α : Type} (f : α → ℤ) (l : List α) :
    (l.map fun a => Int64.ofInt (f a)).sum = .ofInt (l.map f).sum := by
  induction l with
  | nil => rfl
  | cons a l ih => rw [List.map_cons, List.sum_cons, ih, List.map_cons, List.sum_cons, Int64.ofInt_add]

theorem sumAmounts_eq_some {nSum n : Int64} {l : List (Option Int64)} (hrange : moneyRange nSum = true)
    (h : sumAmounts nSum l = some n) :
    (∀ nAmount ∈ l, nAmount.isSome = true) ∧
      n.toInt = nSum.toInt + (l.map fun nAmount => nAmount.elim 0 Int64.toInt).sum := by
  induction l generalizing nSum with
  | nil =>
    obtain rfl := Option.some_injective _ h
    simp
  | cons nAmount l ih =>
    cases nAmount with
    | none => cases h
    | some nAmount =>
      rw [sumAmounts] at h
      split at h
      · rename_i hsum
        obtain ⟨hsome, hn⟩ := ih hsum h
        have hadd : (nSum + nAmount).toInt = nSum.toInt + nAmount.toInt := by
          have hlow := nAmount.le_toInt
          have hhigh := nAmount.toInt_lt
          rw [moneyRange_iff] at hrange hsum
          rw [Int64.toInt_add, Int.bmod_def] at hsum ⊢
          omega
        rw [hn, hadd, List.map_cons, List.sum_cons, Option.elim_some, Int.add_assoc]
        exact ⟨List.forall_mem_cons.mpr ⟨rfl, hsome⟩, rfl⟩
      · cases h

theorem ofInt_totalAmount (l : List (Option TxDestination × Int64)) :
    .ofInt (totalAmount l) = (l.map fun r => r.2).sum := by
  rw [totalAmount, ← sum_ofInt]
  simp only [Int64.ofInt_toInt]

theorem foldl_received (n : Int64) (l : List (Option TxDestination × Int64)) :
    l.foldl (fun n r => n + r.2) n = n + .ofInt (totalAmount l) := by
  rw [foldl_add_eq_add_sum, ofInt_totalAmount]

theorem foldl_sent (n : Int64) (l : List (Option TxDestination × Int64)) :
    l.foldl (fun n s => n - s.2) n = n - .ofInt (totalAmount l) := by
  simp only [sub_eq_add_neg]
  rw [foldl_add_eq_add_sum, ofInt_totalAmount, List.sum_neg, List.map_map]
  rfl

namespace AmountWallet

/-- What the outputs come to that are in neither list of a transaction that debits the wallet. -/
def concealedValue (c : Crypto) (w : AmountWallet) (vout : List TxOut) : ℤ :=
  (vout.map fun txout => if w.isHidden c txout then txout.nValue.toInt else 0).sum

end AmountWallet

section Received

variable {c : Crypto} {w : AmountWallet} {nDebit : Int64}

theorem received_addAmount (r : Amounts) (txout : TxOut) :
    totalAmount (addAmount c w nDebit r txout).listReceived = totalAmount r.listReceived +
      if w.isMine c txout && !(decide (0 < nDebit) && w.isHidden c txout) then txout.nValue.toInt
      else 0 := by
  unfold addAmount AmountWallet.isHidden
  by_cases hempty : txout.scriptPubKey.isEmpty = true
  · rw [if_pos hempty, AmountWallet.isMine_of_isEmpty hempty]
    simp
  · rw [if_neg hempty]
    by_cases hpos : 0 < nDebit <;> cases hchange : w.isChange c txout <;>
      cases hmine : w.isMine c txout <;> simp [hpos, hempty, totalAmount_concat]

theorem received_foldl (vout : List TxOut) (r : Amounts) :
    totalAmount (vout.foldl (addAmount c w nDebit) r).listReceived +
        (if 0 < nDebit then w.concealedValue c vout else 0) =
      totalAmount r.listReceived + w.ownValue c vout +
        (if 0 < nDebit then w.hiddenValue c vout else 0) := by
  induction vout generalizing r with
  | nil => simp [AmountWallet.concealedValue, AmountWallet.ownValue, AmountWallet.hiddenValue]
  | cons txout vout ih =>
    have ih := ih (addAmount c w nDebit r txout)
    rw [received_addAmount] at ih
    unfold AmountWallet.concealedValue AmountWallet.ownValue AmountWallet.hiddenValue at ih ⊢
    rw [List.foldl_cons, List.map_cons, List.sum_cons, List.map_cons, List.sum_cons, List.map_cons,
      List.sum_cons]
    by_cases hpos : 0 < nDebit <;> cases hhidden : w.isHidden c txout <;>
      cases hmine : w.isMine c txout <;> simp [hpos, hhidden, hmine] at ih ⊢ <;> omega

theorem AccountTx.received_getAmounts {wtx : AccountTx} {r : Amounts}
    (hdebit : (wtx.getDebit c w).1 = some nDebit) (h : wtx.getAmounts c w = some r) :
    totalAmount r.listReceived + (if 0 < nDebit then w.concealedValue c wtx.tx.vout else 0) =
      w.ownValue c wtx.tx.vout + if 0 < nDebit then w.hiddenValue c wtx.tx.vout else 0 := by
  rw [getAmounts, hdebit, Option.bind_some] at h
  obtain ⟨nFee, -, rfl⟩ := Option.map_eq_some_iff.mp h
  rw [received_foldl]
  simp [totalAmount]

theorem sumUnspent_eq_some {wtx : WalletTx} {n : Int64} (h : w.sumUnspent c wtx = some n) :
    n.toInt = w.ownValue c wtx.unspentOutputs := by
  obtain ⟨hsome, hn⟩ := sumAmounts_eq_some (by decide) h
  rw [hn, List.map_map, AmountWallet.ownValue, show (0 : Int64).toInt = 0 from rfl, zero_add]
  refine congrArg List.sum (List.map_congr_left fun txout htxout => ?_)
  have hcredit := hsome _ (List.mem_map_of_mem htxout)
  unfold AmountWallet.creditOf at hcredit
  rw [Function.comp, AmountWallet.creditOf]
  split at hcredit
  · cases hcredit
  · rename_i hrange
    rw [if_neg hrange, Option.elim_some]
    split_ifs <;> rfl

end Received

namespace AccountWallet

variable {P : Params} {c : Crypto} {v : ChainView} {w : AccountWallet} {fConfChange : Bool}
  {nFuel : ℕ}

variable (P c v w) in
/-- What a transaction adds to the balance though it is no own output, or not one yet. -/
def concealed (wtx : AccountTx) : ℤ :=
  (wtx.getDebit c w.amounts).1.elim 0 fun nDebit =>
    if ¬0 < nDebit then 0
    else if isImmature P v wtx then w.amounts.concealedValue c wtx.tx.vout
    else w.amounts.hiddenValue c wtx.tx.vout

variable (c w) in
/-- What the wallet is debited by a transaction. -/
def debited (wtx : AccountTx) : ℤ := (wtx.getDebit c w.amounts).1.elim 0 fun nDebit => max 0 nDebit.toInt

variable (c w) in
/-- What the available credit that is cached lacks of the own outputs that are not spent. -/
def stale (wtx : AccountTx) : ℤ :=
  wtx.caches.nAvailableCreditCached.elim 0 fun nCredit =>
    w.amounts.ownValue c wtx.unspentOutputs - nCredit.toInt

theorem getBlocksToMaturity_eq_zero_iff {wtx : AccountTx} :
    getBlocksToMaturity P v wtx.toWalletTx = 0 ↔ isImmature P v wtx = false := by
  unfold isImmature getBlocksToMaturity
  rw [decide_eq_false_iff_not]
  split_ifs
  · simp
  · omega

theorem isBeanBase_of_isImmature {wtx : AccountTx} (h : isImmature P v wtx = true) :
    (wtx.tx.isBeanBase || wtx.tx.isBeanStake) = true := by
  by_contra hnot
  have hpos := of_decide_eq_true h
  rw [getBlocksToMaturity, if_pos (by simpa using hnot)] at hpos
  exact absurd hpos (by decide)

theorem isTrusted_depth {wtx : AccountTx} (h : isTrusted P c v w fConfChange nFuel wtx = some true) :
    0 ≤ getDepthInMainChain P v wtx.toWalletTx := by
  by_contra hneg
  have hdeep : ¬1 ≤ getDepthInMainChain P v wtx.toWalletTx := by omega
  unfold isTrusted at h
  dsimp only at h
  rw [if_neg hdeep, if_pos (not_le.mp hneg), ite_self] at h
  cases h

theorem addAvailable_eq_some {nTotal n : Int64} {wtx : AccountTx}
    (h : addAvailable P c v w fConfChange nFuel nTotal wtx = some n) :
    n = nTotal + .ofInt (if isTrusted P c v w fConfChange nFuel wtx = some true then
      if isImmature P v wtx then 0
      else w.amounts.ownValue c wtx.unspentOutputs - stale c w wtx else 0) := by
  unfold addAvailable at h
  obtain ⟨fTrusted, htrusted, h⟩ := Option.bind_eq_some_iff.mp h
  rw [htrusted]
  cases fTrusted with
  | false =>
    obtain rfl := Option.some_injective _ h
    exact (Int64.add_zero _).symm
  | true =>
    rw [if_pos rfl] at h
    obtain ⟨nCredit, hcredit, h⟩ := Option.bind_eq_some_iff.mp h
    obtain rfl := Option.some_injective _ h
    rw [if_pos rfl, ← Int64.ofInt_toInt nCredit]
    congr 2
    unfold CachedTx.getAvailableCredit at hcredit
    cases himmature : isImmature P v wtx with
    | true =>
      rw [himmature, Bool.and_true, if_pos (isBeanBase_of_isImmature himmature)] at hcredit
      obtain rfl := Option.some_injective _ hcredit
      rfl
    | false =>
      rw [himmature, Bool.and_false, if_neg Bool.false_ne_true] at hcredit
      dsimp only [useCache] at hcredit
      rw [if_neg Bool.false_ne_true, stale]
      cases hcached : wtx.caches.nAvailableCreditCached with
      | some n =>
        rw [hcached] at hcredit
        obtain rfl := Option.some_injective _ hcredit
        rw [Option.elim_some]
        omega
      | none =>
        rw [hcached] at hcredit
        rw [Option.elim_none, sub_zero]
        exact sumUnspent_eq_some hcredit

theorem addAmounts_eq_some {nBalance n : Int64} {wtx : AccountTx}
    (h : addAmounts P c v w fConfChange nFuel 0 nBalance wtx = some n) :
    n = nBalance + .ofInt (if isTrusted P c v w fConfChange nFuel wtx = some true then
      (if isImmature P v wtx then 0 else w.amounts.ownValue c wtx.tx.vout) +
        concealed P c v w wtx - debited c w wtx else 0) := by
  unfold addAmounts at h
  obtain ⟨fTrusted, htrusted, h⟩ := Option.bind_eq_some_iff.mp h
  rw [htrusted]
  cases fTrusted with
  | false =>
    obtain rfl := Option.some_injective _ h
    exact (Int64.add_zero _).symm
  | true =>
    rw [if_pos rfl] at h
    obtain ⟨r, hr, h⟩ := Option.bind_eq_some_iff.mp h
    obtain rfl := Option.some_injective _ h
    obtain ⟨nDebit, hdebit⟩ : ∃ nDebit, (wtx.getDebit c w.amounts).1 = some nDebit := by
      obtain ⟨nDebit, hdebit, -⟩ := Option.bind_eq_some_iff.mp hr
      exact ⟨nDebit, hdebit⟩
    have hnet := AccountTx.net_getAmounts hdebit hr
    have hreceived := AccountTx.received_getAmounts hdebit hr
    rw [Amounts.net] at hnet
    have hdepth := isTrusted_depth htrusted
    have hpos : 0 < nDebit ↔ 0 < nDebit.toInt := Int64.lt_iff_toInt_lt
    rw [if_pos rfl, foldl_sent, concealed, debited, hdebit, Option.elim_some, Option.elim_some]
    have hsum : ∀ x y : ℤ, nBalance + Int64.ofInt x - Int64.ofInt y - r.nFee =
        nBalance + .ofInt (x - y - r.nFee.toInt) := by
      intro x y
      rw [Int64.ofInt_sub, Int64.ofInt_sub, Int64.ofInt_toInt]
      grind
    have hmax : max 0 nDebit.toInt = if 0 < nDebit then nDebit.toInt else 0 := by
      split_ifs with h
      · exact max_eq_right (hpos.mp h).le
      · exact max_eq_left (not_lt.mp fun hlt => h (hpos.mpr hlt))
    rw [hmax]
    cases himmature : isImmature P v wtx with
    | true =>
      have hnot : getBlocksToMaturity P v wtx.toWalletTx ≠ 0 := fun h => by
        rw [getBlocksToMaturity_eq_zero_iff.mp h] at himmature
        cases himmature
      have hzero := hsum 0 (totalAmount r.listSent)
      rw [show Int64.ofInt 0 = 0 from rfl, Int64.add_zero] at hzero
      rw [if_neg fun h => hnot h.2, hzero, if_pos rfl, if_pos rfl]
      congr 2
      by_cases h : 0 < nDebit <;>
        simp only [h, if_true, if_false, not_true_eq_false, not_false_eq_true] at hnet hreceived ⊢ <;>
        omega
    | false =>
      rw [if_pos ⟨hdepth, getBlocksToMaturity_eq_zero_iff.mpr himmature⟩, foldl_received, hsum,
        if_neg Bool.false_ne_true, if_neg Bool.false_ne_true]
      congr 2
      by_cases h : 0 < nDebit <;>
        simp only [h, if_true, if_false, not_true_eq_false, not_false_eq_true] at hnet hreceived ⊢ <;>
        omega

variable (P c v w fConfChange nFuel) in
/-- What something comes to over the trusted transactions. -/
def trustedSum (f : Uint256 × AccountTx → ℤ) : ℤ :=
  ((w.mapWallet.entries.filter fun e => isTrusted P c v w fConfChange nFuel e.2 = some true).map f).sum

variable (P c v w fConfChange nFuel) in
/-- Whether a trusted transaction spends an output. -/
def spentByTrusted (hash : Uint256) (i : ℕ) : Bool :=
  w.transactions.any fun wtx => isTrusted P c v w fConfChange nFuel wtx = some true &&
    wtx.tx.prevouts.any fun prevout => prevout.hash = hash && prevout.n.toNat = i

variable (P c v w fConfChange nFuel) in
/-- What the own outputs of a transaction come to that trusted transactions spend. -/
def spentValue (e : Uint256 × AccountTx) : ℤ :=
  (e.2.tx.vout.zipIdx.map fun p =>
    if w.amounts.isMine c p.1 && spentByTrusted P c v w fConfChange nFuel e.1 p.2 then
      p.1.nValue.toInt else 0).sum

variable (P c v w fConfChange nFuel) in
/-- Each own output is marked as spent if and only if a trusted transaction spends it. -/
def MarksTrusted : Prop :=
  ∀ e ∈ w.mapWallet.entries, ∀ p ∈ e.2.tx.vout.zipIdx, w.amounts.isMine c p.1 = true →
    e.2.isSpent p.2 = spentByTrusted P c v w fConfChange nFuel e.1 p.2

instance : Decidable (MarksTrusted P c v w fConfChange nFuel) :=
  inferInstanceAs (Decidable (∀ e ∈ w.mapWallet.entries, ∀ p ∈ e.2.tx.vout.zipIdx,
    w.amounts.isMine c p.1 = true →
      e.2.isSpent p.2 = spentByTrusted P c v w fConfChange nFuel e.1 p.2))

theorem ownValue_eq_add (h : MarksTrusted P c v w fConfChange nFuel) {e : Uint256 × AccountTx}
    (he : e ∈ w.mapWallet.entries) :
    w.amounts.ownValue c e.2.tx.vout =
      w.amounts.ownValue c e.2.unspentOutputs + spentValue P c v w fConfChange nFuel e := by
  have hmarks := h e he
  have hvout : e.2.tx.vout = e.2.tx.vout.zipIdx.map Prod.fst := by simp
  unfold AmountWallet.ownValue spentValue WalletTx.unspentOutputs
  nth_rewrite 1 [hvout]
  clear hvout
  generalize e.2.tx.vout.zipIdx = l at hmarks ⊢
  induction l with
  | nil => rfl
  | cons p l ih =>
    have ih := ih fun q hq => hmarks q (List.mem_cons_of_mem p hq)
    have hp := hmarks p List.mem_cons_self
    rw [List.map_cons, List.map_cons, List.sum_cons, ih, List.map_cons, List.sum_cons,
      List.filter_cons]
    cases hmine : w.amounts.isMine c p.1 with
    | false => cases e.2.isSpent p.2 <;> simp [hmine]
    | true =>
      rw [← hp hmine]
      cases e.2.isSpent p.2 <;> simp [hmine] <;> omega

theorem foldlM_trusted {f : Int64 → AccountTx → Option Int64} {s : AccountTx → ℤ} {n : Int64}
    (hl : w.transactions.foldlM f 0 = some n)
    (h : ∀ b wtx b', f b wtx = some b' → b' = b + .ofInt
      (if isTrusted P c v w fConfChange nFuel wtx = some true then s wtx else 0)) :
    n = .ofInt (trustedSum P c v w fConfChange nFuel fun e => s e.2) := by
  have hsum := foldlM_adds (g := id) hl h
  rw [id, id, zero_add, sum_ofInt] at hsum
  rw [hsum, trustedSum, transactions, List.map_map]
  congr 1
  induction w.mapWallet.entries with
  | nil => rfl
  | cons e l ih =>
    rw [List.map_cons, List.sum_cons, ih, List.filter_cons]
    by_cases htrusted : isTrusted P c v w fConfChange nFuel e.2 = some true <;> simp [htrusted]

theorem trustedSum_add_debited (h : MarksTrusted P c v w fConfChange nFuel) :
    trustedSum P c v w fConfChange nFuel (fun e =>
        (if isImmature P v e.2 then 0 else w.amounts.ownValue c e.2.tx.vout) +
          concealed P c v w e.2 - debited c w e.2) +
        trustedSum P c v w fConfChange nFuel (fun e => debited c w e.2) =
      trustedSum P c v w fConfChange nFuel (fun e => if isImmature P v e.2 then 0
          else w.amounts.ownValue c e.2.unspentOutputs - stale c w e.2) +
        (trustedSum P c v w fConfChange nFuel (fun e => concealed P c v w e.2) +
          trustedSum P c v w fConfChange nFuel (fun e => if isImmature P v e.2 then 0
            else spentValue P c v w fConfChange nFuel e + stale c w e.2)) := by
  unfold trustedSum
  rw [← List.sum_map_add, ← List.sum_map_add, ← List.sum_map_add]
  refine congrArg List.sum (List.map_congr_left fun e he => ?_)
  have hown := ownValue_eq_add h (List.mem_of_mem_filter he)
  split_ifs <;> omega

end AccountWallet

open AccountWallet in
/-- Where the own outputs are marked that trusted transactions spend, the two balances are the same
if and only if the trusted transactions debit the wallet by as much as they conceal and as the own
outputs come to that they spend of each other, stale caches included. -/
theorem getBalance_iff (P : Params) (c : Crypto) (v : ChainView) (w : AccountWallet)
    (fConfChange : Bool) (nFuel : ℕ) {nTotal nBalance : Int64}
    (hmarks : MarksTrusted P c v w fConfChange nFuel)
    (htotal : getBalance P c v w fConfChange nFuel = some nTotal)
    (hbalance : getBalanceOfAll P c v w fConfChange nFuel 0 = some nBalance) :
    nTotal = nBalance ↔
      trustedSum P c v w fConfChange nFuel (fun e => debited c w e.2) ≡
        trustedSum P c v w fConfChange nFuel (fun e => concealed P c v w e.2) +
          trustedSum P c v w fConfChange nFuel (fun e => if isImmature P v e.2 then 0
            else spentValue P c v w fConfChange nFuel e + stale c w e.2) [ZMOD 2 ^ 64] := by
  rw [foldlM_trusted htotal fun _ _ _ h => addAvailable_eq_some h,
    foldlM_trusted hbalance fun _ _ _ h => addAmounts_eq_some h, ofInt_eq_ofInt_iff]
  have hdiff := trustedSum_add_debited hmarks
  constructor
  · intro h
    exact h.symm.add_left_cancel (hdiff ▸ Int.ModEq.rfl)
  · intro h
    exact (h.add_right_cancel (hdiff ▸ Int.ModEq.rfl)).symm

namespace Sample

/-- A beansprout of what the key was paid, which pays it to the key again. -/
def keySprout : Transaction :=
  spend 22 [⟨21, 0⟩] [⟨0, []⟩, ⟨3 * bean, Script.ofKeyID dumpedKeyID⟩]

def keyPayingBlock : Block := block 1 (genesis.hash params) [beanbase 1 1 [out 1000], paysKey]

def keySproutBlock : Block := block 2 (keyPayingBlock.hash params) [beanbase 2 2 [⟨0, []⟩], keySprout]

def sproutView : ChainView :=
  { poolView [] with
    mapBlockIndex := fun hash =>
      [[entry keySproutBlock, entry keyPayingBlock, entry genesis],
        [entry keyPayingBlock, entry genesis]].find? fun pindex => BlockPtr.hash pindex = hash
    pnext := fun hash =>
      if hash = keyPayingBlock.hash params then
        [entry keySproutBlock, entry keyPayingBlock, entry genesis]
      else []
    pindexBest := [entry keySproutBlock, entry keyPayingBlock, entry genesis]
    nBestHeight := 2 }

/-- The wallet with the key has both transactions. -/
def sproutWallet (mapAddressBook : AList fun _ : Option TxDestination => List UInt8) :
    AccountWallet where
  mapWallet := ⟨[(21, { reported paysKey with
      hashBlock := keyPayingBlock.hash params
      vMerkleBranch := [params.txHash (beanbase 1 1 [out 1000])]
      nIndex := 1
      vfSpent := [true] }),
    (23, { reported keySprout with
      hashBlock := keySproutBlock.hash params
      vMerkleBranch := [params.txHash (beanbase 2 2 [⟨0, []⟩])]
      nIndex := 1 })], by
        refine List.pairwise_pair.mpr ?_
        decide⟩
  keystore := keyWallet.keystore
  mapAddressBook := mapAddressBook
  acentries := .empty

/-- An address book with the address of the key. -/
def savingsBook : AList fun _ : Option TxDestination => List UInt8 :=
  (∅ : AList fun _ : Option TxDestination => List UInt8).insert (some (.keyID dumpedKeyID))
    (bytesOf "savings")

end Sample

open Sample AccountWallet in
theorem getBalance_iff_savings :
    getBalance params anyCrypto sproutView (sproutWallet savingsBook) false 9 =
      getBalanceOfAll params anyCrypto sproutView (sproutWallet savingsBook) false 9 0 := by
  obtain ⟨nTotal, htotal⟩ := Option.isSome_iff_exists.mp (show
    (getBalance params anyCrypto sproutView (sproutWallet savingsBook) false 9).isSome = true by
      decide)
  obtain ⟨nBalance, hbalance⟩ := Option.isSome_iff_exists.mp (show
    (getBalanceOfAll params anyCrypto sproutView (sproutWallet savingsBook) false 9 0).isSome =
      true by decide)
  have heq := (getBalance_iff params anyCrypto sproutView (sproutWallet savingsBook) false 9
    (by decide) htotal hbalance).mpr (by decide)
  rw [htotal, hbalance, heq]

open Sample AccountWallet in
/-- A beansprout that is not mature pays to an address that is not in the address book: it counts as
change, and `getbalance "*"` has it already. -/
theorem getBalance_sprout :
    MarksTrusted params anyCrypto sproutView (sproutWallet ∅) false 9 ∧
      getBalance params anyCrypto sproutView (sproutWallet ∅) false 9 = some 0 ∧
      getBalanceOfAll params anyCrypto sproutView (sproutWallet ∅) false 9 0 = some (3 * bean) := by
  decide

end Beancash
