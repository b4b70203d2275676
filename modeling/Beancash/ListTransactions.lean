import Beancash.AccountBalances
import Beancash.Base58
import Mathlib.Data.List.Sort

namespace Beancash

/-- A value of an `Object`. Hashes stand in hex, amounts in beans. -/
inductive ReportValue where
  | str (s : List UInt8)
  | int (n : ℤ)
  | bool (b : Bool)
  | hash (h : Uint256)
  | amount (n : Int64)
deriving DecidableEq

/-- An `Object`: its pairs in the order in which they were pushed. -/
abbrev ReportEntry := List (List UInt8 × ReportValue)

/-- An entry of the multimap of `OrderedTxItems`. -/
inductive TxItem where
  | tx (wtx : AccountTx)
  | acentry (e : AccountingEntry)

def TxItem.nOrderPos : TxItem → Int64
  | .tx wtx => wtx.nOrderPos
  | .acentry e => e.nOrderPos

def AccountTx.getTxTime (wtx : AccountTx) : UInt32 :=
  if wtx.nTimeSmart ≠ 0 then wtx.nTimeSmart else wtx.nTimeReceived

/-- `MaybePushAddress` -/
def addressPair (B : Base58Prefixes) (c : Crypto) : Option TxDestination → ReportEntry
  | some dest => [(bytesOf "address", .str ((BitbeanAddress.set B dest).toString c))]
  | none => []

def walletTxToJSON (P : Params) (v : ChainView) (wtx : AccountTx) : ReportEntry :=
  let confirms := getDepthInMainChain P v wtx.toWalletTx
  let generated : ReportEntry :=
    if wtx.tx.isBeanBase || wtx.tx.isBeanStake then [(bytesOf "generated", .bool true)] else []
  -- the block of a confirmed transaction is in the index
  let blockPairs : ReportEntry := if 0 < confirms then
    [(bytesOf "blockhash", .hash wtx.hashBlock), (bytesOf "blockindex", .int wtx.nIndex),
      (bytesOf "blocktime", .int (BlockPtr.blockTime ((v.mapBlockIndex wtx.hashBlock).getD [])))]
  else []
  let txPairs : ReportEntry :=
    [(bytesOf "txid", .hash (P.txHash wtx.tx)), (bytesOf "time", .int wtx.getTxTime.toNat),
      (bytesOf "timereceived", .int wtx.nTimeReceived.toNat)]
  let mapPairs : ReportEntry := wtx.mapValue.entries.map fun item => (item.1, .str item.2)
  (bytesOf "confirmations", .int confirms) :: generated ++ blockPairs ++ txPairs ++ mapPairs

namespace AccountWallet

variable (P : Params) (B : Base58Prefixes) (c : Crypto) (v : ChainView) (w : AccountWallet)

/-- What is pushed for an output that was sent. -/
def sentEntry (fLong : Bool) (wtx : AccountTx) (r : Amounts) (s : Option TxDestination × Int64) :
    ReportEntry :=
  let amountPairs : ReportEntry :=
    [(bytesOf "category", .str (bytesOf "send")), (bytesOf "amount", .amount (-s.2)),
      (bytesOf "fee", .amount (-r.nFee))]
  (bytesOf "account", .str r.strSentAccount) :: addressPair B c s.1 ++ amountPairs ++
    if fLong then walletTxToJSON P v wtx else []

/-- The category of what was received. -/
def receivedCategory (wtx : AccountTx) : List UInt8 :=
  if wtx.tx.isBeanBase || wtx.tx.isBeanStake then
    if getDepthInMainChain P v wtx.toWalletTx < 1 then bytesOf "orphan"
    else if 0 < getBlocksToMaturity P v wtx.toWalletTx then bytesOf "immature"
    else bytesOf "generate"
  else bytesOf "receive"

/-- What is pushed for an output that was received. -/
def receivedEntry (fLong : Bool) (wtx : AccountTx) (nFee : Int64)
    (r : Option TxDestination × Int64) : ReportEntry :=
  let amountPairs : ReportEntry :=
    [(bytesOf "category", .str (receivedCategory P v wtx)),
      (bytesOf "amount", .amount (if !wtx.tx.isBeanStake then r.2 else -nFee))]
  (bytesOf "account", .str (w.accountOf r.1)) :: addressPair B c r.1 ++ amountPairs ++
    if fLong then walletTxToJSON P v wtx else []

/-- The loop over what was received. -/
def receivedEntries (strAccount : List UInt8) (fLong : Bool) (wtx : AccountTx) (nFee : Int64) :
    List (Option TxDestination × Int64) → List ReportEntry
  | [] => []
  | r :: listReceived =>
    if strAccount = bytesOf "*" ∨ w.accountOf r.1 = strAccount then
      -- only one beansprout output
      receivedEntry P B c v w fLong wtx nFee r :: if wtx.tx.isBeanStake then []
        else receivedEntries strAccount fLong wtx nFee listReceived
    else receivedEntries strAccount fLong wtx nFee listReceived

/-- `ListTransactions`: what is pushed. -/
def transactionEntries (wtx : AccountTx) (strAccount : List UInt8) (nMinDepth : ℤ) (fLong : Bool) :
    Option (List ReportEntry) :=
  (wtx.getAmounts c w.amounts).map fun r =>
    (if !wtx.tx.isBeanStake ∧ (r.listSent ≠ [] ∨ r.nFee ≠ 0) ∧
      (strAccount = bytesOf "*" ∨ strAccount = r.strSentAccount) then
        r.listSent.map (sentEntry P B c v fLong wtx r) else []) ++
    if 0 < r.listReceived.length ∧ nMinDepth ≤ getDepthInMainChain P v wtx.toWalletTx then
      receivedEntries P B c v w strAccount fLong wtx r.nFee r.listReceived else []

end AccountWallet

/-- `AcentryToJSON`: what is pushed. -/
def acentryEntries (acentry : AccountingEntry) (strAccount : List UInt8) : List ReportEntry :=
  if strAccount = bytesOf "*" ∨ acentry.strAccount = strAccount then
    [[(bytesOf "account", .str acentry.strAccount), (bytesOf "category", .str (bytesOf "move")),
      (bytesOf "time", .int acentry.nTime.toInt), (bytesOf "amount", .amount acentry.nCreditDebit),
      (bytesOf "otheraccount", .str acentry.strOtherAccount),
      (bytesOf "comment", .str acentry.strComment)]]
  else []

/-- The sum of two numbers of type `int`; where it does not fit the behaviour is undefined. -/
def addInt (a b : ℤ) : Option ℤ := if -2 ^ 31 ≤ a + b ∧ a + b < 2 ^ 31 then some (a + b) else none

/-- A size that is cast to `int`. -/
def castInt (n : ℤ) : ℤ := n.bmod (2 ^ 32)

section Slice

variable {ι α : Type}

/-- The loop that collects entries until there are `nCount + nFrom` of them. -/
def collectEntries (entries : ι → Option (List α)) (nCount nFrom : ℤ) :
    List ι → List α → Option (List α)
  | [], ret => some ret
  | item :: it, ret => do
    let pushed ← entries item
    let ret := ret ++ pushed
    let nSum ← addInt nCount nFrom
    if nSum ≤ castInt ret.length then some ret
    else collectEntries entries nCount nFrom it ret

/-- The elements from `first` up to `last` are left; outside of the vector there is none to point
to. -/
def eraseEnds (ret : List α) (first last : ℤ) : Option (List α) :=
  if 0 ≤ first ∧ first ≤ last ∧ last ≤ ret.length then
    some ((ret.take last.toNat).drop first.toNat)
  else none

/-- What is done to the entries that were collected. -/
def cutEntries (ret : List α) (nCount nFrom : ℤ) : Option (List α) := do
  let nFrom := if castInt ret.length < nFrom then castInt ret.length else nFrom
  let nTo ← addInt nFrom nCount
  let nCount := if castInt ret.length < nTo then castInt (ret.length - nFrom) else nCount
  let nTo ← addInt nFrom nCount
  let ret ← eraseEnds ret nFrom nTo
  some ret.reverse

end Slice

namespace AccountWallet

variable (P : Params) (B : Base58Prefixes) (c : Crypto) (v : ChainView) (w : AccountWallet)

/-- `OrderedTxItems`: in the order of their positions, and where these are equal in the order in
which they are inserted. -/
def orderedTxItems (strAccount : List UInt8) : List TxItem :=
  (w.transactions.map TxItem.tx ++
    (w.acentries.listAccountCreditDebit strAccount).map TxItem.acentry).insertionSort
      fun a b => a.nOrderPos.toInt ≤ b.nOrderPos.toInt

/-- What an item pushes. -/
def itemEntries (strAccount : List UInt8) : TxItem → Option (List ReportEntry)
  | .tx wtx => transactionEntries P B c v w wtx strAccount 0 true
  | .acentry e => some (acentryEntries e strAccount)

/-- `listtransactions`; there is none where an exception is thrown. -/
def listTransactions (strAccount : List UInt8) (nCount nFrom : Int32) : Option (List ReportEntry) :=
  if nCount < 0 ∨ nFrom < 0 then none
  else do
    let ret ← collectEntries (itemEntries P B c v w strAccount) nCount.toInt nFrom.toInt
      (w.orderedTxItems strAccount).reverse []
    cutEntries ret nCount.toInt nFrom.toInt

end AccountWallet

theorem castInt_range (n : ℤ) : -2 ^ 31 ≤ castInt n ∧ castInt n < 2 ^ 31 := by
  rw [castInt, Int.bmod_def]
  omega

theorem castInt_of_lt {n : ℤ} (hnonneg : 0 ≤ n) (h : n < 2 ^ 31) : castInt n = n := by
  rw [castInt, Int.bmod_def]
  omega

theorem castInt_sub_castInt (n : ℤ) : castInt (n - castInt n) = 0 := by
  rw [castInt, castInt, Int.sub_bmod_bmod, Int.sub_self, Int.zero_bmod]

theorem castInt_sub {n nFrom : ℤ} (hnonneg : 0 ≤ nFrom) (h : nFrom ≤ castInt n) :
    castInt (n - nFrom) = castInt n - nFrom := by
  unfold castInt at h ⊢
  rw [Int.bmod_def] at h ⊢
  rw [Int.bmod_def]
  omega

theorem castInt_eq_or (n : ℕ) (h : 0 ≤ castInt n) :
    ((n : ℤ) < 2 ^ 31 ∧ castInt n = n) ∨ (2 ^ 32 ≤ (n : ℤ) ∧ castInt n < n) := by
  unfold castInt at h ⊢
  rw [Int.bmod_def] at h ⊢
  omega

section Slice

variable {ι α : Type}

/-- How many entries there are when the loop ends, from the numbers of entries of the items. -/
def collectedSize (nSum : ℤ) : ℕ → List ℕ → ℕ
  | n, [] => n
  | n, k :: sizes =>
    if nSum ≤ castInt (n + k) then n + k else collectedSize nSum (n + k) sizes

/-- The loop collects the entries of some of the items: of all, or enough of them. -/
theorem collectEntries_spec {entries : ι → Option (List α)} {nCount nFrom nSum : ℤ}
    (hsum : addInt nCount nFrom = some nSum) {it : List ι} {pushed : List (List α)}
    (hall : it.mapM entries = some pushed) (ret : List α) :
    ∃ ret', collectEntries entries nCount nFrom it ret = some ret' ∧
      ret' <+: ret ++ pushed.flatten ∧
      (ret' = ret ++ pushed.flatten ∨ nSum ≤ castInt ret'.length) ∧
      ret'.length = collectedSize nSum ret.length (pushed.map List.length) := by
  induction it generalizing ret pushed with
  | nil =>
    rw [List.mapM_nil] at hall
    obtain rfl := Option.some_injective _ hall
    exact ⟨ret, rfl, by simp, .inl (by simp), rfl⟩
  | cons item it ih =>
    rw [List.mapM_cons] at hall
    obtain ⟨first, hfirst, hall⟩ := Option.bind_eq_some_iff.mp hall
    obtain ⟨rest, hrest, hall⟩ := Option.bind_eq_some_iff.mp hall
    obtain rfl := Option.some_injective _ hall
    rw [collectEntries, hfirst, hsum, Option.bind_eq_bind, Option.bind_some, Option.bind_eq_bind,
      Option.bind_some, List.flatten_cons, ← List.append_assoc, List.map_cons, collectedSize,
      ← Int.natCast_add, ← List.length_append]
    by_cases hstop : nSum ≤ castInt ((ret ++ first).length : ℕ)
    · rw [if_pos hstop, if_pos hstop]
      exact ⟨ret ++ first, rfl, List.prefix_append _ _, .inr hstop, rfl⟩
    · rw [if_neg hstop, if_neg hstop]
      exact ih hrest (ret ++ first)

theorem addInt_of_mem {a b : ℤ} (hlow : -2 ^ 31 ≤ a + b) (hhigh : a + b < 2 ^ 31) :
    addInt a b = some (a + b) := if_pos ⟨hlow, hhigh⟩

theorem cutEntries_eq {ret : List α} {nCount nFrom : ℤ} (hcount : 0 ≤ nCount) (hfrom : 0 ≤ nFrom)
    (hsum : nCount + nFrom < 2 ^ 31) :
    cutEntries ret nCount nFrom = if castInt ret.length < 0 then none
      else some ((ret.take (min (nFrom + nCount) (castInt ret.length)).toNat).drop
        nFrom.toNat).reverse := by
  have hrange := castInt_range ret.length
  have hcase : 0 ≤ castInt ret.length → castInt ret.length ≤ ret.length := fun hm =>
    (castInt_eq_or ret.length hm).elim (fun h => h.2.le) fun h => h.2.le
  have hrest := castInt_sub_castInt ret.length
  have hsub : nFrom ≤ castInt ret.length → castInt (ret.length - nFrom) = _ := castInt_sub hfrom
  unfold cutEntries eraseEnds
  generalize castInt ret.length = m at hrange hcase hrest hsub ⊢
  dsimp only
  by_cases hbehind : m < nFrom
  · -- the list ends before: nothing is left of it
    rw [if_pos hbehind, addInt_of_mem (by omega) (by omega), Option.bind_eq_bind, Option.bind_some,
      hrest]
    have hzero : (if m < m + nCount then 0 else nCount) = 0 := by
      split_ifs with h <;> omega
    rw [hzero, addInt_of_mem (by omega) (by omega), Option.bind_eq_bind, Option.bind_some, add_zero]
    by_cases hneg : m < 0
    · rw [if_pos hneg, if_neg (by omega)]
      rfl
    · have hle := hcase (not_lt.mp hneg)
      rw [if_neg hneg, if_pos (by omega), Option.bind_some, min_eq_right (by omega)]
      rw [List.drop_of_length_le (by rw [List.length_take]; omega),
        List.drop_of_length_le (by rw [List.length_take]; omega)]
  · have hm : 0 ≤ m := by omega
    have hle := hcase hm
    rw [if_neg hbehind, addInt_of_mem (by omega) (by omega), Option.bind_eq_bind, Option.bind_some,
      hsub (not_lt.mp hbehind)]
    have hto : nFrom + (if m < nFrom + nCount then m - nFrom else nCount) =
        min (nFrom + nCount) m := by
      split_ifs with h
      · rw [min_eq_right h.le]
        omega
      · rw [min_eq_left (not_lt.mp h)]
    rw [addInt, hto, if_pos (by omega), Option.bind_eq_bind, Option.bind_some, if_pos (by omega),
      if_neg (not_lt.mpr hm)]
    rfl

/-- What is cut out of them is the slice in question, or the cast of the number of entries has gone
wrong. -/
theorem cutEntries_eq_some_iff {all ret : List α} {nCount nFrom : ℤ} (hcount : 0 ≤ nCount)
    (hfrom : 0 ≤ nFrom) (hsum : nCount + nFrom < 2 ^ 31) (hstarts : ret <+: all)
    (hstop : ret = all ∨ nCount + nFrom ≤ castInt ret.length) :
    cutEntries ret nCount nFrom = some ((all.drop nFrom.toNat).take nCount.toNat).reverse ↔
      0 ≤ castInt ret.length ∧
        ((ret.length : ℤ) < 2 ^ 31 ∨ nCount = 0 ∨ nCount + nFrom ≤ castInt ret.length) := by
  rw [cutEntries_eq hcount hfrom hsum]
  by_cases hneg : castInt ret.length < 0
  · simp [hneg]
  have hm := not_lt.mp hneg
  have hlen : nFrom.toNat + nCount.toNat = (nFrom + nCount).toNat := by omega
  rw [if_neg hneg, Option.some_inj, List.reverse_inj, List.take_drop, hlen]
  have htake : ∀ k ≤ ret.length, ret.take k = all.take k := fun k hk => by
    rw [List.prefix_iff_eq_take.mp hstarts, List.take_take, min_eq_left hk]
  obtain ⟨hlt, heq⟩ | ⟨hle, hlt⟩ := castInt_eq_or ret.length hm
  · -- the cast is exact
    refine iff_of_true ?_ ⟨hm, .inl hlt⟩
    rw [heq]
    rcases hstop with rfl | hstop
    · rcases le_total (nFrom + nCount) ret.length with h | h
      · rw [min_eq_left h]
      · rw [min_eq_right h, List.take_of_length_le (by omega), List.take_of_length_le (by omega)]
    · rw [heq] at hstop
      rw [min_eq_left (by omega), htake _ (by omega)]
  · by_cases henough : nCount + nFrom ≤ castInt ret.length
    · refine iff_of_true ?_ ⟨hm, .inr (.inr henough)⟩
      rw [min_eq_left (by omega), htake _ (by omega)]
    · -- all entries have been collected, and too few seem to be there
      obtain rfl := hstop.resolve_right henough
      rw [min_eq_right (by omega)]
      constructor
      · intro h
        have hlength := congrArg List.length h
        have hm' : (castInt ret.length).toNat ≤ ret.length := by omega
        have hto : (nFrom + nCount).toNat ≤ ret.length := by omega
        rw [List.length_drop, List.length_drop, List.length_take_of_le hm',
          List.length_take_of_le hto, ← hlen, Nat.add_sub_cancel_left] at hlength
        refine ⟨hm, .inr (.inl (by_contra fun hne => henough ?_))⟩
        clear hle hsum hm' hto
        omega
      · rintro ⟨-, h⟩
        rw [List.drop_of_length_le (by rw [List.length_take]; omega),
          List.drop_of_length_le (by rw [List.length_take]; omega)]

theorem collectEntries_of_overflow {entries : ι → Option (List α)} {nCount nFrom : ℤ}
    (h : addInt nCount nFrom = none) {it : List ι} (hit : it ≠ []) (ret : List α) :
    collectEntries entries nCount nFrom it ret = none := by
  obtain ⟨item, it, rfl⟩ := List.exists_cons_of_ne_nil hit
  rw [collectEntries, h]
  cases entries item <;> rfl

theorem cutEntries_nil {nCount nFrom : ℤ} (hcount : 0 ≤ nCount) (hmax : nCount < 2 ^ 31)
    (hfrom : 0 ≤ nFrom) : cutEntries ([] : List α) nCount nFrom = some [] := by
  have hzero : castInt (([] : List α).length : ℕ) = 0 := Int.zero_bmod
  have hclip : (if (0 : ℤ) < nFrom then 0 else nFrom) = 0 := by split_ifs <;> omega
  have hrest : (if 0 < nCount then castInt ((([] : List α).length : ℕ) - 0) else nCount) = 0 := by
    split_ifs with h
    · rw [Int.sub_zero, hzero]
    · omega
  unfold cutEntries
  rw [hzero]
  dsimp only
  rw [hclip, addInt_of_mem (by omega) (by omega), Option.bind_eq_bind, Option.bind_some, zero_add,
    hrest]
  rfl

theorem collectedSize_le (nSum : ℤ) (n : ℕ) (sizes : List ℕ) :
    collectedSize nSum n sizes ≤ n + sizes.sum := by
  induction sizes generalizing n with
  | nil => exact le_rfl
  | cons k sizes ih =>
    rw [collectedSize, List.sum_cons]
    split_ifs
    · omega
    · exact (ih (n + k)).trans (by omega)

end Slice

namespace AccountWallet

variable (P : Params) (B : Base58Prefixes) (c : Crypto) (v : ChainView) (w : AccountWallet)

/-- The entries that the items push, from the newest item on. -/
def pushedEntries (strAccount : List UInt8) : Option (List (List ReportEntry)) :=
  (w.orderedTxItems strAccount).reverse.mapM (itemEntries P B c v w strAccount)

/-- The numbers are small enough: if there is anything to go through, their sum is an `int`, and so
is the number of entries when enough have been collected. (Where it is not, nothing may be asked
for, or what remains of it may still be enough.) -/
def NumbersFit (nCount nFrom : Int32) (sizes : List ℕ) : Prop :=
  sizes = [] ∨ nCount.toInt + nFrom.toInt < 2 ^ 31 ∧
    let n := collectedSize (nCount.toInt + nFrom.toInt) 0 sizes
    0 ≤ castInt n ∧ ((n : ℤ) < 2 ^ 31 ∨ nCount = 0 ∨ nCount.toInt + nFrom.toInt ≤ castInt n)

theorem numbersFit_iff {nCount nFrom : Int32} {sizes : List ℕ} (h : sizes.sum < 2 ^ 31) :
    NumbersFit nCount nFrom sizes ↔ sizes = [] ∨ nCount.toInt + nFrom.toInt < 2 ^ 31 := by
  have hle := collectedSize_le (nCount.toInt + nFrom.toInt) 0 sizes
  rw [zero_add] at hle
  have hlt : ((collectedSize (nCount.toInt + nFrom.toInt) 0 sizes : ℕ) : ℤ) < 2 ^ 31 := by omega
  unfold NumbersFit
  dsimp only
  rw [castInt_of_lt (Int.natCast_nonneg _) hlt]
  simp only [hlt, Int.natCast_nonneg, true_or, and_true]

end AccountWallet

open AccountWallet in
/-- `listtransactions` returns the slice of the list of all entries, the oldest first, if and only if
the numbers are small enough. -/
theorem listTransactions_iff (P : Params) (B : Base58Prefixes) (c : Crypto) (v : ChainView)
    (w : AccountWallet) (strAccount : List UInt8) {nCount nFrom : Int32} (hcount : 0 ≤ nCount)
    (hfrom : 0 ≤ nFrom) {pushed : List (List ReportEntry)}
    (hpushed : pushedEntries P B c v w strAccount = some pushed) :
    listTransactions P B c v w strAccount nCount nFrom =
        some ((pushed.flatten.drop nFrom.toInt.toNat).take nCount.toInt.toNat).reverse ↔
      NumbersFit nCount nFrom (pushed.map List.length) := by
  have hcount' : 0 ≤ nCount.toInt := Int32.le_iff_toInt_le.mp hcount
  have hfrom' : 0 ≤ nFrom.toInt := Int32.le_iff_toInt_le.mp hfrom
  have hmax : nCount.toInt < 2 ^ 31 := nCount.toInt_lt
  unfold listTransactions NumbersFit
  rw [if_neg (by rw [not_or, Int32.not_lt, Int32.not_lt]; exact ⟨hcount, hfrom⟩)]
  unfold pushedEntries at hpushed
  generalize (w.orderedTxItems strAccount).reverse = items at hpushed ⊢
  cases items with
  | nil =>
    rw [List.mapM_nil] at hpushed
    obtain rfl := Option.some_injective _ hpushed
    rw [collectEntries, Option.bind_eq_bind, Option.bind_some, cutEntries_nil hcount' hmax hfrom']
    simp
  | cons item items =>
    have hne : pushed ≠ [] := by
      rintro rfl
      rw [List.mapM_cons] at hpushed
      obtain ⟨first, -, hrest⟩ := Option.bind_eq_some_iff.mp hpushed
      obtain ⟨rest, -, hrest⟩ := Option.bind_eq_some_iff.mp hrest
      cases Option.some_injective _ hrest
    rw [List.map_eq_nil_iff, or_iff_right hne]
    by_cases hsum : nCount.toInt + nFrom.toInt < 2 ^ 31
    · obtain ⟨ret, hret, hstarts, hstop, hlength⟩ :=
        collectEntries_spec (addInt_of_mem (by omega) hsum) hpushed []
      rw [List.nil_append] at hstarts hstop
      rw [hret, Option.bind_eq_bind, Option.bind_some,
        cutEntries_eq_some_iff hcount' hfrom' hsum hstarts hstop, hlength]
      have hzero : nCount.toInt = 0 ↔ nCount = 0 := Int32.toInt_inj (y := 0)
      simp only [hsum, true_and, hzero]
      exact Iff.rfl
    · have hnone : addInt nCount.toInt nFrom.toInt = none :=
        if_neg fun h => hsum h.2
      rw [collectEntries_of_overflow hnone (List.cons_ne_nil _ _)]
      exact iff_of_false (fun h => nomatch h) fun h => hsum h.1

open Sample AccountWallet in
theorem listTransactions_iff_paysKey :
    ∃ pushed, pushedEntries params .main anyCrypto (poolView [21]) (savingsWallet paysKey)
        (bytesOf "*") = some pushed ∧ pushed.map List.length = [1] ∧
      listTransactions params .main anyCrypto (poolView [21]) (savingsWallet paysKey) (bytesOf "*")
        10 0 = some ((pushed.flatten.drop 0).take 10).reverse := by
  obtain ⟨pushed, hpushed, hsizes⟩ := Option.map_eq_some_iff.mp (show
    (pushedEntries params .main anyCrypto (poolView [21]) (savingsWallet paysKey)
      (bytesOf "*")).map (List.map List.length) = some [1] by decide)
  refine ⟨pushed, hpushed, hsizes, ?_⟩
  refine (listTransactions_iff params .main anyCrypto (poolView [21]) (savingsWallet paysKey)
    (bytesOf "*") (by decide) (by decide) hpushed).mpr ?_
  rw [hsizes]
  exact (numbersFit_iff (by decide)).mpr (.inr (by decide))

open Sample AccountWallet in
/-- All entries but the first: the sum of the numbers does not fit. -/
theorem listTransactions_overflow :
    (pushedEntries params .main anyCrypto (poolView [21]) (savingsWallet paysKey)
        (bytesOf "*")).map (List.map List.length) = some [1] ∧
      listTransactions params .main anyCrypto (poolView [21]) (savingsWallet paysKey) (bytesOf "*")
        2147483647 1 = none := by
  decide

end Beancash
