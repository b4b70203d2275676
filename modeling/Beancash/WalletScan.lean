import Beancash.BlockIndex
import Beancash.WalletNotices

namespace Beancash

namespace Wallet

/-- What `AddToWallet` returns: false only when a changed transaction cannot be written. -/
def addToWalletReturns (P : Params) (w : Wallet) (wtxIn : WalletTx) (fWritten : Bool) : Bool :=
  let hash := P.txHash wtxIn.tx
  let wtx := match w.mapWallet.lookup hash with
    | some wtx => wtx.merge wtxIn
    | none => wtxIn
  decide (w.mapWallet.lookup hash = some wtx) || fWritten

/-- What `AddToWalletIfInvolvingMe` returns. -/
def involvingMeReturns (P : Params) (w : Wallet) (tx : Transaction) (b : Block)
    (fUpdate fWritten : Bool) : Bool :=
  let fExisted := (w.mapWallet.lookup (P.txHash tx)).isSome
  if fExisted && !fUpdate then false
  else if fExisted || w.isMineTx tx || w.isFromMe tx then
    w.addToWalletReturns P ((WalletTx.ofTransaction tx).setMerkleBranch P b) fWritten
  else false

section NewTx

variable {P : Params} {w : Wallet} {wtxIn : WalletTx} {fWritten : Bool}

/-- What a wallet is after a transaction that it did not have was added to it. -/
structure Inserted (P : Params) (w : Wallet) (wtxIn : WalletTx) (fWritten : Bool) (w' : Wallet) :
    Prop where
  isMine : w'.isMine = w.isMine
  nMinimumInputValue : w'.nMinimumInputValue = w.nMinimumInputValue
  txOf : ∀ hash, w'.txOf hash =
    if hash = P.txHash wtxIn.tx then some wtxIn.tx else w.txOf hash
  fFromMeOf : ∀ hash, w'.fFromMeOf hash =
    if hash = P.txHash wtxIn.tx then some wtxIn.fFromMe else w.fFromMeOf hash
  isSpentAt : ∀ hash i, w'.HasOutput hash i → w'.isSpentAt hash i =
    (if fWritten then w'.updateSpentWord P wtxIn.tx (decide (wtxIn.hashBlock ≠ 0)) hash i
      else none).getD
      (if hash = P.txHash wtxIn.tx then wtxIn.isSpent i else w.isSpentAt hash i)

theorem inserted_addToWallet (hl : w.mapWallet.lookup (P.txHash wtxIn.tx) = none) :
    Inserted P w wtxIn fWritten (w.addToWallet P wtxIn fWritten) := by
  obtain ⟨w₁, hw₁⟩ : ∃ w₁ : Wallet, w₁ =
      { w with mapWallet := w.mapWallet.insert (P.txHash wtxIn.tx) wtxIn } := ⟨_, rfl⟩
  have hlookup : ∀ hash, w₁.mapWallet.lookup hash =
      if hash = P.txHash wtxIn.tx then some wtxIn else w.mapWallet.lookup hash := by
    intro hash
    rw [hw₁]
    split <;> rename_i hh
    · rw [hh]
      exact AList.lookup_insert _
    · exact AList.lookup_insert_ne hh
  have htxOf : ∀ hash, w₁.txOf hash =
      if hash = P.txHash wtxIn.tx then some wtxIn.tx else w.txOf hash := by
    intro hash
    unfold txOf
    rw [hlookup]
    split <;> rfl
  have hfromMe : ∀ hash, w₁.fFromMeOf hash =
      if hash = P.txHash wtxIn.tx then some wtxIn.fFromMe else w.fFromMeOf hash := by
    intro hash
    unfold fFromMeOf
    rw [hlookup]
    split <;> rfl
  have hspent : ∀ hash i, w₁.isSpentAt hash i =
      if hash = P.txHash wtxIn.tx then wtxIn.isSpent i else w.isSpentAt hash i := by
    intro hash i
    unfold isSpentAt
    rw [hlookup]
    split <;> rfl
  rw [addToWallet_of_lookup_none P fWritten hl]
  simp only [← hw₁]
  cases fWritten with
  | false => exact ⟨by rw [hw₁]; rfl, by rw [hw₁]; rfl, htxOf, hfromMe, fun hash i _ => hspent hash i⟩
  | true =>
    have hmarked := marked_walletUpdateSpent P w₁ wtxIn.tx (decide (wtxIn.hashBlock ≠ 0))
    have hframe := hmarked.frame
    refine ⟨?_, ?_, fun hash => ?_, fun hash => ?_, fun hash i ho => ?_⟩
    · exact hframe.isMine.trans (by rw [hw₁])
    · exact hframe.nMinimumInputValue.trans (by rw [hw₁])
    · exact (congrFun hframe.txOf hash).trans (htxOf hash)
    · exact (congrFun hframe.fFromMeOf hash).trans (hfromMe hash)
    · have hword : updateSpentWord P (w₁.walletUpdateSpent P wtxIn.tx
          (decide (wtxIn.hashBlock ≠ 0))) wtxIn.tx (decide (wtxIn.hashBlock ≠ 0)) hash i =
          w₁.updateSpentWord P wtxIn.tx (decide (wtxIn.hashBlock ≠ 0)) hash i := by
        simp only [updateSpentWord, hframe.isMine, hframe.spends]
      simp only [Bool.not_true, Bool.false_eq_true, if_false, if_true, hword]
      rw [hmarked.isSpentAt hash i ((hframe.hasOutput hash i).mp ho), hspent]

end NewTx

end Wallet

/-- `ret` and the wallet. -/
structure WalletScan where
  ret : ℕ
  wallet : Wallet

/-- One transaction of a block; `fWritten` is what `WriteToDisk` answers. -/
def scanTx (P : Params) (fUpdate : Bool) (fWritten : Block → Transaction → Bool) (s : WalletScan)
    (x : Block × Transaction) : WalletScan where
  ret := if s.wallet.involvingMeReturns P x.2 x.1 fUpdate (fWritten x.1 x.2) then s.ret + 1
    else s.ret
  wallet := s.wallet.addToWalletIfInvolvingMe P x.2 x.1 fUpdate (fWritten x.1 x.2)

/-- Whether a block was created before the wallet's birthday, as adjusted for block time
variability. -/
def BlockIndex.beforeBirthday (e : BlockIndex) (nTimeFirstKey : ℤ) : Bool :=
  decide (nTimeFirstKey ≠ 0) && decide (e.blockTime < nTimeFirstKey - 7200)

/-- `ScanForWalletTransactions` over the blocks that the walk along `pnext` comes by. A block that
`ReadFromDisk` cannot read is as `readBlock` leaves it. -/
def scanForWalletTransactions (P : Params) (readBlock : BlockIndex → Block) (nTimeFirstKey : ℤ)
    (fUpdate : Bool) (fWritten : Block → Transaction → Bool) (blocks : List BlockIndex)
    (w : Wallet) : WalletScan :=
  blocks.foldl (fun s e =>
    if e.beforeBirthday nTimeFirstKey then s
    else
      let block := readBlock e
      (block.vtx.map fun tx => (block, tx)).foldl (scanTx P fUpdate fWritten) s) ⟨0, w⟩

/-- The transactions that a scan looks at. -/
def scannedTxs (readBlock : BlockIndex → Block) (nTimeFirstKey : ℤ) (blocks : List BlockIndex) :
    List (Block × Transaction) :=
  (blocks.filter fun e => !e.beforeBirthday nTimeFirstKey).flatMap fun e =>
    (readBlock e).vtx.map fun tx => (readBlock e, tx)

section Scan

variable {P : Params} {fUpdate : Bool} {fWritten : Block → Transaction → Bool}

theorem scanForWalletTransactions_eq (readBlock : BlockIndex → Block) (nTimeFirstKey : ℤ)
    (blocks : List BlockIndex) (w : Wallet) :
    scanForWalletTransactions P readBlock nTimeFirstKey fUpdate fWritten blocks w =
      (scannedTxs readBlock nTimeFirstKey blocks).foldl (scanTx P fUpdate fWritten) ⟨0, w⟩ := by
  unfold scanForWalletTransactions scannedTxs
  generalize (⟨0, w⟩ : WalletScan) = s
  induction blocks generalizing s with
  | nil => rfl
  | cons e blocks ih =>
    rw [List.foldl_cons, ih]
    cases hb : e.beforeBirthday nTimeFirstKey with
    | true => simp [hb]
    | false => simp [hb, List.foldl_append]

theorem mem_scannedTxs {readBlock : BlockIndex → Block} {nTimeFirstKey : ℤ}
    {blocks : List BlockIndex} {x : Block × Transaction} :
    x ∈ scannedTxs readBlock nTimeFirstKey blocks ↔
      ∃ e ∈ blocks, e.beforeBirthday nTimeFirstKey = false ∧ x.1 = readBlock e ∧
        x.2 ∈ (readBlock e).vtx := by
  simp only [scannedTxs, List.mem_flatMap, List.mem_filter, List.mem_map, Bool.not_eq_true']
  constructor
  · rintro ⟨e, ⟨he, hb⟩, tx, htx, rfl⟩
    exact ⟨e, he, hb, rfl, htx⟩
  · rintro ⟨e, he, hb, hblock, htx⟩
    exact ⟨e, ⟨he, hb⟩, x.2, htx, Prod.ext hblock.symm rfl⟩

namespace Wallet

theorem addToWalletIfInvolvingMe_eq (w : Wallet) (tx : Transaction) (b : Block) (written : Bool) :
    w.addToWalletIfInvolvingMe P tx b false written =
      if w.knows P tx then w else w.hear P ⟨b, tx, true, written⟩ := by
  unfold knows txOf hear sync addToWalletIfInvolvingMe
  cases w.mapWallet.lookup (P.txHash tx) <;> rfl

theorem involvingMeReturns_eq (w : Wallet) (tx : Transaction) (b : Block) (written : Bool) :
    w.involvingMeReturns P tx b false written =
      (!w.knows P tx && (w.isMineTx tx || w.isFromMe tx) && written) := by
  have hin : ((WalletTx.ofTransaction tx).setMerkleBranch P b).tx = tx := by
    unfold WalletTx.setMerkleBranch
    split <;> rfl
  unfold involvingMeReturns addToWalletReturns knows txOf
  rw [hin]
  cases hl : w.mapWallet.lookup (P.txHash tx) with
  | some wtx => rfl
  | none =>
    cases hadds : w.isMineTx tx || w.isFromMe tx with
    | true => simp [hadds, hl]
    | false => simp [hadds]

end Wallet

theorem wallet_scanTx (s : WalletScan) (x : Block × Transaction) :
    (scanTx P false fWritten s x).wallet =
      if s.wallet.knows P x.2 then s.wallet
      else s.wallet.hear P ⟨x.1, x.2, true, fWritten x.1 x.2⟩ :=
  s.wallet.addToWalletIfInvolvingMe_eq x.2 x.1 _

theorem ret_scanTx (s : WalletScan) (x : Block × Transaction) : (scanTx P false fWritten s x).ret =
      if !s.wallet.knows P x.2 && (s.wallet.isMineTx x.2 || s.wallet.isFromMe x.2) &&
        fWritten x.1 x.2 then s.ret + 1 else s.ret := by
  unfold scanTx
  rw [Wallet.involvingMeReturns_eq]

/-- What a scan comes across is added: the wallet lacks it, and it pays to it or from it. -/
def Wallet.Adds (P : Params) (w : Wallet) (tx : Transaction) : Prop :=
  w.knows P tx = false ∧ (w.isMineTx tx || w.isFromMe tx) = true

theorem adds_iff (w : Wallet) (b : Block) (tx : Transaction) (written : Bool) :
    w.Adds P tx ↔ ¬w.NoNews P ⟨b, tx, true, written⟩ := by
  unfold Wallet.Adds Wallet.NoNews
  cases w.knows P tx <;> cases (w.isMineTx tx || w.isFromMe tx) <;> simp

theorem grows_scanTx (s : WalletScan) (x : Block × Transaction) :
    Wallet.Grows s.wallet (scanTx P false fWritten s x).wallet := by
  rw [wallet_scanTx]
  split
  · exact Wallet.Frame.rfl.grows
  · exact Wallet.grows_hear _

theorem grows_foldl_scanTx (xs : List (Block × Transaction)) (s : WalletScan) :
    Wallet.Grows s.wallet (xs.foldl (scanTx P false fWritten) s).wallet := by
  induction xs generalizing s with
  | nil => exact Wallet.Frame.rfl.grows
  | cons x xs ih => exact (grows_scanTx s x).trans (ih _)

theorem Wallet.Grows.knows {w w' : Wallet} (h : Wallet.Grows w w') {tx : Transaction}
    (hk : w.knows P tx = true) : w'.knows P tx = true := by
  obtain ⟨tx', htx'⟩ := Option.isSome_iff_exists.mp hk
  exact Option.isSome_iff_exists.mpr ⟨tx', h.txOf _ _ htx'⟩

theorem Wallet.Grows.isMineTx {w w' : Wallet} (h : Wallet.Grows w w') (tx : Transaction) :
    w'.isMineTx tx = w.isMineTx tx := by
  unfold Wallet.isMineTx
  rw [h.isMine, h.nMinimumInputValue]

/-- What an added transaction is entered as. -/
def WalletTx.fromBlock (P : Params) (b : Block) (tx : Transaction) : WalletTx :=
  (WalletTx.ofTransaction tx).setMerkleBranch P b

theorem WalletTx.fromBlock_eq (P : Params) (b : Block) (tx : Transaction) :
    (fromBlock P b tx).tx = tx ∧ (fromBlock P b tx).hashBlock = b.hash P ∧
      (fromBlock P b tx).fFromMe = false ∧ (fromBlock P b tx).vfSpent = [] := by
  unfold fromBlock setMerkleBranch
  split <;> exact ⟨rfl, rfl, rfl, rfl⟩

theorem inserted_scanTx {s : WalletScan} {x : Block × Transaction} (h : s.wallet.Adds P x.2) :
    Wallet.Inserted P s.wallet (.fromBlock P x.1 x.2) (fWritten x.1 x.2)
      (scanTx P false fWritten s x).wallet := by
  have htx := (WalletTx.fromBlock_eq P x.1 x.2).1
  have hl : s.wallet.mapWallet.lookup (P.txHash x.2) = none := by
    have hk := h.1
    unfold Wallet.knows Wallet.txOf at hk
    rwa [Option.isSome_map, Option.isSome_eq_false_iff, Option.isNone_iff_eq_none] at hk
  have heq : (scanTx P false fWritten s x).wallet =
      s.wallet.addToWallet P (.fromBlock P x.1 x.2) (fWritten x.1 x.2) := by
    unfold scanTx Wallet.addToWalletIfInvolvingMe
    simp only [hl, Option.isSome_none, Bool.false_and, Bool.false_or, Bool.false_eq_true,
      if_false, h.2, if_true]
    rfl
  rw [heq]
  exact Wallet.inserted_addToWallet (htx.symm ▸ hl)

theorem frame_scanTx {s : WalletScan} {x : Block × Transaction} (h : ¬s.wallet.Adds P x.2) :
    Wallet.Frame s.wallet (scanTx P false fWritten s x).wallet := by
  rw [wallet_scanTx]
  split
  · exact .rfl
  · exact (Wallet.heard_hear (not_not.mp fun hnews =>
      h ((adds_iff s.wallet x.1 x.2 (fWritten x.1 x.2)).mpr hnews))).frame

theorem knows_foldl_scanTx_of_isMineTx {xs : List (Block × Transaction)} {s : WalletScan}
    {x : Block × Transaction} (hx : x ∈ xs) (hmine : s.wallet.isMineTx x.2 = true) :
    (xs.foldl (scanTx P false fWritten) s).wallet.knows P x.2 = true := by
  induction xs generalizing s with
  | nil => cases hx
  | cons y xs ih =>
    rw [List.foldl_cons]
    rcases List.mem_cons.mp hx with rfl | hx
    · apply (grows_foldl_scanTx xs _).knows
      by_cases hk : s.wallet.knows P x.2 = true
      · exact (grows_scanTx s x).knows hk
      · have hadds : s.wallet.Adds P x.2 := ⟨Bool.eq_false_iff.mpr hk, by rw [hmine]; rfl⟩
        have hin := (@inserted_scanTx P fWritten s x hadds).txOf (P.txHash x.2)
        rw [(WalletTx.fromBlock_eq P x.1 x.2).1, if_pos rfl] at hin
        exact Option.isSome_iff_exists.mpr ⟨_, hin⟩
    · exact ih hx ((grows_scanTx s y).isMineTx x.2 ▸ hmine)

theorem txOf_foldl_scanTx {xs : List (Block × Transaction)} {s : WalletScan} {hash : Uint256}
    {tx : Transaction}
    (h : (xs.foldl (scanTx P false fWritten) s).wallet.txOf hash = some tx) :
    s.wallet.txOf hash = some tx ∨ hash = P.txHash tx ∧ ∃ b, (b, tx) ∈ xs := by
  induction xs generalizing s with
  | nil => exact Or.inl h
  | cons y xs ih =>
    rw [List.foldl_cons] at h
    rcases ih h with h | ⟨hash_eq, b, hmem⟩
    · by_cases hadds : s.wallet.Adds P y.2
      · rw [(inserted_scanTx hadds).txOf, (WalletTx.fromBlock_eq P y.1 y.2).1] at h
        split at h <;> rename_i hh
        · obtain rfl := Option.some_injective _ h
          exact Or.inr ⟨hh, y.1, List.mem_cons_self⟩
        · exact Or.inl h
      · rw [(frame_scanTx hadds).txOf] at h
        exact Or.inl h
    · exact Or.inr ⟨hash_eq, b, List.mem_cons_of_mem y hmem⟩

end Scan

end Beancash
