import Beancash.AccountWallet

namespace Beancash

variable {P : Params} {c : Crypto} {v : ChainView} {w : AccountWallet}

namespace AccountWallet

/-- What a transaction that counts adds to the balance of an account. -/
def accountShare (P : Params) (c : Crypto) (v : ChainView) (w : AccountWallet)
    (strAccount : List UInt8) (nMinDepth : ℤ) (wtx : AccountTx) : Int64 :=
  ((w.getAccountAmounts c wtx strAccount).map fun (nReceived, nSent, nFee) =>
    (if nMinDepth ≤ getDepthInMainChain P v wtx.toWalletTx ∧
      getBlocksToMaturity P v wtx.toWalletTx = 0 then nReceived else 0) - (nSent + nFee)).getD 0

end AccountWallet

/-- The balance of an account that may not be there yet. -/
def AccountBalances.balance (m : AccountBalances) (strAccount : List UInt8) : Int64 :=
  (m.find strAccount).getD 0

theorem AccountBalances.balance_add (m : AccountBalances) (strName : List UInt8) (nAmount : Int64)
    (strAccount : List UInt8) :
    (m.add strName nAmount).balance strAccount =
      m.balance strAccount + if strAccount = strName then nAmount else 0 := by
  unfold add balance
  rw [SortedMap.find_insert]
  split_ifs with h
  · rw [h, Option.getD_some]
  · rw [Int64.add_zero]

theorem foldl_adds {α β : Type} {f : β → α → β} {g : β → Int64} {s : α → Int64}
    (h : ∀ b a, g (f b a) = g b + s a) (b : β) (l : List α) :
    g (l.foldl f b) = g b + (l.map s).sum := by
  induction l generalizing b with
  | nil => simp
  | cons a l ih => rw [List.foldl_cons, ih, h, List.map_cons, List.sum_cons, add_assoc]

theorem foldlM_adds {α β : Type} {f : β → α → Option β} {g : β → Int64} {s : α → Int64}
    {b b' : β} {l : List α} (hl : l.foldlM f b = some b')
    (h : ∀ b a b', f b a = some b' → g b' = g b + s a) : g b' = g b + (l.map s).sum := by
  induction l generalizing b with
  | nil =>
    obtain rfl := Option.some_injective _ hl
    simp
  | cons a l ih =>
    rw [List.foldlM_cons] at hl
    obtain ⟨b₁, hb₁, hl⟩ := Option.bind_eq_some_iff.mp hl
    rw [ih hl, h b a b₁ hb₁, List.map_cons, List.sum_cons, add_assoc]

theorem foldl_add_eq_add_sum {α : Type} (f : α → Int64) (n : Int64) (l : List α) :
    l.foldl (fun n a => n + f a) n = n + (l.map f).sum :=
  foldl_adds (g := id) (fun _ _ => rfl) n l

theorem foldl_add_eq_sum {α : Type} (f : α → Int64) (l : List α) :
    l.foldl (fun n a => n + f a) 0 = (l.map f).sum :=
  (foldl_add_eq_add_sum f 0 l).trans (zero_add _)

namespace AccountWallet

theorem accountReceived_eq_sum (strAccount : List UInt8)
    (listReceived : List (Option TxDestination × Int64)) :
    w.accountReceived strAccount listReceived =
      (listReceived.map fun r => if strAccount = w.accountOf r.1 then r.2 else 0).sum := by
  refine (foldl_adds (g := id) (fun b r => ?_) 0 listReceived).trans (Int64.zero_add _)
  unfold accountOf
  split
  · rename_i strName hname
    rw [hname, Option.getD_some]
    by_cases heq : strName = strAccount
    · rw [if_pos heq, if_pos heq.symm]
      rfl
    · rw [if_neg heq, if_neg (Ne.symm heq), Int64.add_zero]
  · rename_i hname
    rw [hname, Option.getD_none]
    cases strAccount <;> simp

theorem tallyTransaction_eq_some {strAccount : List UInt8} {nMinDepth : ℤ} {nBalance n : Int64}
    {wtx : AccountTx} (h : tallyTransaction P c v w strAccount nMinDepth nBalance wtx = some n) :
    n = nBalance + if wtx.tx.isFinal v.nBestHeight v.nAdjustedTime 0 0 = true ∧
      0 ≤ getDepthInMainChain P v wtx.toWalletTx then
        accountShare P c v w strAccount nMinDepth wtx else 0 := by
  unfold tallyTransaction at h
  by_cases hcount : wtx.tx.isFinal v.nBestHeight v.nAdjustedTime 0 0 = true ∧
      0 ≤ getDepthInMainChain P v wtx.toWalletTx
  · rw [if_pos hcount]
    rw [if_neg (by simp [hcount.1, hcount.2])] at h
    obtain ⟨⟨nReceived, nSent, nFee⟩, hamounts, rfl⟩ := Option.map_eq_some_iff.mp h
    rw [accountShare, hamounts, Option.map_some, Option.getD_some]
    dsimp only
    -- an account that has received nothing is not looked at further
    by_cases hreceived : nReceived = 0
    · rw [hreceived, ite_self, if_neg (by simp)]
      grind
    · simp only [ne_eq, hreceived, not_false_eq_true, true_and]
      split_ifs <;> grind
  · rw [if_neg hcount, Int64.add_zero]
    rw [if_pos (by simpa [Decidable.or_iff_not_imp_left] using hcount)] at h
    exact (Option.some_injective _ h).symm

theorem balance_sent (m : AccountBalances) (r : Amounts) (strAccount : List UInt8) :
    (r.listSent.foldl (fun m s => m.add r.strSentAccount (-s.2)) m).balance strAccount =
      m.balance strAccount -
        if strAccount = r.strSentAccount then r.listSent.foldl (fun n s => n + s.2) 0 else 0 := by
  have hsum := foldl_adds (g := fun m => m.balance strAccount)
    (fun m (s : Option TxDestination × Int64) => m.balance_add r.strSentAccount (-s.2) strAccount)
    m r.listSent
  rw [hsum, sub_eq_add_neg]
  congr 1
  split_ifs
  · rw [foldl_add_eq_sum, List.sum_neg, List.map_map]
    rfl
  · simp

theorem balance_received (m : AccountBalances) (listReceived : List (Option TxDestination × Int64))
    (strAccount : List UInt8) :
    (listReceived.foldl (fun m r => m.add (w.accountOf r.1) r.2) m).balance strAccount =
      m.balance strAccount + w.accountReceived strAccount listReceived := by
  rw [accountReceived_eq_sum]
  exact foldl_adds (g := fun m => m.balance strAccount)
    (fun m r => m.balance_add (w.accountOf r.1) r.2 strAccount) m listReceived

theorem balance_listTransaction {nMinDepth : ℤ} {m m' : AccountBalances} {wtx : AccountTx}
    (h : listTransaction P c v w nMinDepth m wtx = some m') (strAccount : List UInt8) :
    m'.balance strAccount = m.balance strAccount +
      if 0 ≤ getDepthInMainChain P v wtx.toWalletTx then
        accountShare P c v w strAccount nMinDepth wtx else 0 := by
  unfold listTransaction at h
  by_cases hdepth : 0 ≤ getDepthInMainChain P v wtx.toWalletTx
  · rw [if_pos hdepth]
    rw [if_neg (not_lt.mpr hdepth)] at h
    obtain ⟨r, hr, rfl⟩ := Option.map_eq_some_iff.mp h
    rw [accountShare, getAccountAmounts, hr, Option.map_some, Option.map_some, Option.getD_some]
    dsimp only
    by_cases hdeep : nMinDepth ≤ getDepthInMainChain P v wtx.toWalletTx ∧
        getBlocksToMaturity P v wtx.toWalletTx = 0
    · rw [if_pos hdeep, if_pos hdeep, balance_received, balance_sent, AccountBalances.balance_add]
      split_ifs <;> grind
    · rw [if_neg hdeep, if_neg hdeep, balance_sent, AccountBalances.balance_add]
      split_ifs <;> grind
  · rw [if_neg hdepth, Int64.add_zero]
    rw [if_pos (not_le.mp hdepth)] at h
    rw [Option.some_injective _ h]

theorem balance_ownAccounts (strAccount : List UInt8) : w.ownAccounts.balance strAccount = 0 := by
  have hround : ∀ (m : AccountBalances) (e : Sigma fun _ : Option TxDestination => List UInt8),
      m.balance strAccount = 0 →
        (if w.isMineAddress e.1 then m.insert e.2 0 else m : AccountBalances).balance strAccount = 0 := by
    intro m e hm
    split_ifs
    · rw [AccountBalances.balance, SortedMap.find_insert]
      split_ifs
      · rfl
      · exact hm
    · exact hm
  exact List.foldlRecOn (motive := fun m : AccountBalances => m.balance strAccount = 0) _ _ rfl
    fun m hm e _ => hround m e hm

theorem listAccounts_balance {nMinDepth : ℤ} {m : AccountBalances}
    (h : listAccounts P c v w nMinDepth = some m) (strAccount : List UInt8) :
    m.balance strAccount =
      (w.transactions.map fun wtx => if 0 ≤ getDepthInMainChain P v wtx.toWalletTx then
        accountShare P c v w strAccount nMinDepth wtx else 0).sum +
      (w.acentries.entries.map fun e =>
        if strAccount = e.strAccount then e.nCreditDebit else 0).sum := by
  obtain ⟨m₁, hm₁, rfl⟩ := Option.map_eq_some_iff.mp h
  have htxs : m₁.balance strAccount = w.ownAccounts.balance strAccount +
      (w.transactions.map fun wtx => if 0 ≤ getDepthInMainChain P v wtx.toWalletTx then
        accountShare P c v w strAccount nMinDepth wtx else 0).sum :=
    foldlM_adds (g := fun m : AccountBalances => m.balance strAccount) hm₁
      fun _ _ _ hm => balance_listTransaction hm strAccount
  have hentries : ∀ l : List AccountingEntry, (l.foldl (fun m e =>
      m.add e.strAccount e.nCreditDebit) m₁).balance strAccount = m₁.balance strAccount +
        (l.map fun e => if strAccount = e.strAccount then e.nCreditDebit else 0).sum :=
    foldl_adds (g := fun m : AccountBalances => m.balance strAccount)
      (fun m e => m.balance_add e.strAccount e.nCreditDebit strAccount) m₁
  rw [hentries, htxs, balance_ownAccounts, zero_add,
    AccountingEntries.listAccountCreditDebit_eq_filter]
  simp

theorem getAccountBalance_eq_some {strAccount : List UInt8} {nMinDepth : ℤ} {nBalance : Int64}
    (h : getAccountBalance P c v w strAccount nMinDepth = some nBalance) :
    nBalance =
      (w.transactions.map fun wtx =>
        if wtx.tx.isFinal v.nBestHeight v.nAdjustedTime 0 0 = true ∧
          0 ≤ getDepthInMainChain P v wtx.toWalletTx then
          accountShare P c v w strAccount nMinDepth wtx else 0).sum +
      ((w.acentries.entries.filter fun e =>
        decide (strAccount = bytesOf "*") || decide (e.strAccount = strAccount)).map fun e =>
          e.nCreditDebit).sum := by
  obtain ⟨n, hn, rfl⟩ := Option.map_eq_some_iff.mp h
  have htxs := foldlM_adds (g := id) hn fun _ wtx _ hm => tallyTransaction_eq_some hm
  rw [AccountingEntries.getAccountCreditDebit, foldl_add_eq_sum,
    AccountingEntries.listAccountCreditDebit_eq_filter]
  rw [id, id, zero_add] at htxs
  rw [htxs]

/-- What the transactions come to that `listaccounts` counts though they are not final. -/
def unfinalShare (P : Params) (c : Crypto) (v : ChainView) (w : AccountWallet)
    (strAccount : List UInt8) (nMinDepth : ℤ) : Int64 :=
  ((w.transactions.filter fun wtx => !wtx.tx.isFinal v.nBestHeight v.nAdjustedTime 0 0 &&
    decide (0 ≤ getDepthInMainChain P v wtx.toWalletTx)).map
      (accountShare P c v w strAccount nMinDepth)).sum

theorem sum_eq_add_unfinalShare (strAccount : List UInt8) (nMinDepth : ℤ) :
    (w.transactions.map fun wtx => if 0 ≤ getDepthInMainChain P v wtx.toWalletTx then
        accountShare P c v w strAccount nMinDepth wtx else 0).sum =
      (w.transactions.map fun wtx =>
        if wtx.tx.isFinal v.nBestHeight v.nAdjustedTime 0 0 = true ∧
          0 ≤ getDepthInMainChain P v wtx.toWalletTx then
          accountShare P c v w strAccount nMinDepth wtx else 0).sum +
        unfinalShare P c v w strAccount nMinDepth := by
  unfold unfinalShare
  induction w.transactions with
  | nil => rfl
  | cons wtx l ih =>
    rw [List.map_cons, List.sum_cons, ih, List.map_cons, List.sum_cons, List.filter_cons]
    cases hfinal : wtx.tx.isFinal v.nBestHeight v.nAdjustedTime 0 0 <;>
      by_cases hdepth : 0 ≤ getDepthInMainChain P v wtx.toWalletTx <;> simp [hdepth] <;> grind

/-- What the database gives for `*` besides the entries of the account of this name. -/
def otherEntries (w : AccountWallet) (strAccount : List UInt8) : Int64 :=
  if strAccount = bytesOf "*" then
    ((w.acentries.entries.filter fun e => decide (e.strAccount ≠ strAccount)).map fun e =>
      e.nCreditDebit).sum
  else 0

theorem sum_entries_add_otherEntries (strAccount : List UInt8) :
    ((w.acentries.entries.filter fun e =>
      decide (strAccount = bytesOf "*") || decide (e.strAccount = strAccount)).map fun e =>
        e.nCreditDebit).sum =
      (w.acentries.entries.map fun e =>
        if strAccount = e.strAccount then e.nCreditDebit else 0).sum +
        w.otherEntries strAccount := by
  unfold otherEntries
  by_cases hall : strAccount = bytesOf "*"
  · simp only [if_pos hall, decide_eq_true hall, Bool.true_or]
    induction w.acentries.entries with
    | nil => rfl
    | cons e l ih =>
      rw [List.filter_cons_of_pos rfl, List.map_cons, List.sum_cons, ih, List.map_cons,
        List.sum_cons, List.filter_cons]
      by_cases he : e.strAccount = strAccount
      · simp [he]
        grind
      · simp [he, Ne.symm he]
        grind
  · simp only [if_neg hall, decide_eq_false hall, Bool.false_or, add_zero]
    induction w.acentries.entries with
    | nil => rfl
    | cons e l ih =>
      rw [List.filter_cons, List.map_cons, List.sum_cons, ← ih]
      by_cases he : e.strAccount = strAccount
      · simp [he]
      · simp [he, Ne.symm he]

end AccountWallet

open AccountWallet in
/-- `listaccounts` reports what `GetAccountBalance` returns if and only if the transactions that are
not final add up to nothing for the account (to what the other accounts' entries come to, for the
account `*`). -/
theorem listAccounts_iff (P : Params) (c : Crypto) (v : ChainView) (w : AccountWallet)
    (nMinDepth : ℤ) (strAccount : List UInt8) {mapAccountBalances : AccountBalances}
    {nListed nBalance : Int64} (hlist : listAccounts P c v w nMinDepth = some mapAccountBalances)
    (hfind : mapAccountBalances.find strAccount = some nListed)
    (hbalance : getAccountBalance P c v w strAccount nMinDepth = some nBalance) :
    nListed = nBalance ↔
      unfinalShare P c v w strAccount nMinDepth = w.otherEntries strAccount := by
  have hlisted : nListed = mapAccountBalances.balance strAccount := by
    rw [AccountBalances.balance, hfind, Option.getD_some]
  rw [hlisted, listAccounts_balance hlist, getAccountBalance_eq_some hbalance,
    sum_eq_add_unfinalShare, sum_entries_add_otherEntries]
  constructor
  · intro h
    grind
  · intro h
    grind

namespace Sample

/-- A node without blocks that has some transactions in its memory pool. -/
def poolView (mempool : List Uint256) : ChainView where
  readTxIndex _ := none
  readTx _ := none
  readHeader _ _ := none
  mapBlockIndex _ := none
  pnext _ := []
  pindexBest := []
  nBestHeight := 0
  nAdjustedTime := 0
  inMemPool hash := decide (hash ∈ mempool)

/-- It pays to the key, but not before block 100. -/
def paysLater : Transaction :=
  { paysKey with vin := [⟨⟨5, 0⟩, [], 0⟩], nLockTime := 100 }

/-- A wallet with a transaction that pays to the account "savings". -/
def savingsWallet (tx : Transaction) : AccountWallet where
  mapWallet := ⟨[(params.txHash tx, reported tx)], List.pairwise_singleton _ _⟩
  keystore := keyWallet.keystore
  mapAddressBook := (∅ : AList fun _ : Option TxDestination => List UInt8).insert
    (some (.keyID dumpedKeyID)) (bytesOf "savings")
  acentries := .empty

end Sample

open Sample AccountWallet in
theorem listAccounts_iff_paysKey :
    (listAccounts params anyCrypto (poolView [21]) (savingsWallet paysKey) 0).map
        (fun m => m.find (bytesOf "savings")) = some (some (3 * bean)) ∧
      getAccountBalance params anyCrypto (poolView [21]) (savingsWallet paysKey)
        (bytesOf "savings") 0 = some (3 * bean) := by
  have hfind : (listAccounts params anyCrypto (poolView [21]) (savingsWallet paysKey) 0).map
      (fun m => m.find (bytesOf "savings")) = some (some (3 * bean)) := by decide
  obtain ⟨m, hm, hfound⟩ := Option.map_eq_some_iff.mp hfind
  obtain ⟨nBalance, hbalance⟩ := Option.isSome_iff_exists.mp (show
    (getAccountBalance params anyCrypto (poolView [21]) (savingsWallet paysKey)
      (bytesOf "savings") 0).isSome = true by decide)
  have heq := (listAccounts_iff params anyCrypto (poolView [21]) (savingsWallet paysKey) 0
    (bytesOf "savings") hm hfound hbalance).mpr (by decide)
  exact ⟨hfind, hbalance.trans (congrArg some heq.symm)⟩

open Sample AccountWallet in
/-- A transaction in the memory pool that is not final is in the list, but not in the balance. -/
theorem listAccounts_unfinal :
    (listAccounts params anyCrypto (poolView [101]) (savingsWallet paysLater) 0).map
        (fun m => m.find (bytesOf "savings")) = some (some (3 * bean)) ∧
      getAccountBalance params anyCrypto (poolView [101]) (savingsWallet paysLater)
        (bytesOf "savings") 0 = some 0 := by
  decide

end Beancash
