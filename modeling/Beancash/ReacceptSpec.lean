import Beancash.Reaccept
import Beancash.ScanNews

namespace Beancash

variable {P : Params} {txindex : Ledger.Index Uint256 TxPos}

/-- Every own output that the index has as spent is marked. -/
def Wallet.AgreesWithIndex (P : Params) (txindex : Ledger.Index Uint256 TxPos) (w : Wallet) :
    Prop :=
  ∀ hash i, w.OwnSpentAt P txindex hash i → w.isSpentAt hash i = true

/-- A pass finds an output to mark, so that the chain is scanned. -/
def Wallet.Rescans (P : Params) (txindex : Ledger.Index Uint256 TxPos) (w : Wallet) : Prop :=
  ∃ hash i, w.OwnSpentAt P txindex hash i ∧ w.skipsReaccept hash = false ∧
    w.isSpentAt hash i = false

/-- The output by which a pass leaves a transaction out. -/
def Transaction.DecidesPass (tx : Transaction) (i : ℕ) : Prop :=
  tx.isBeanBase = true ∧ i = 0 ∨ tx.isBeanStake = true ∧ i = 1

/-- A transaction that the scan looks at spends the output and marks it. -/
def SpentInScan (P : Params) (fWritten : Block → Transaction → Bool)
    (xs : List (Block × Transaction)) (w : Wallet) (hash : Uint256) (i : ℕ) : Prop :=
  ∃ y ∈ markingTxs P fWritten w xs, y.2.SpendsFrom hash i

/-- An added transaction is left out of the pass after the scan. -/
def LeftOut (P : Params) (fWritten : Block → Transaction → Bool)
    (xs : List (Block × Transaction)) (w : Wallet) (tx : Transaction) : Prop :=
  ∃ i, tx.DecidesPass i ∧ ((tx.vout[i]?).any fun txout => w.isMine txout.scriptPubKey) = true ∧
    SpentInScan P fWritten xs w (P.txHash tx) i

/-- What is left out of the passes owes no mark. If nothing of what a scan adds can be written,
there is no further pass, and everything added is left out. -/
structure LeftOutSettled (P : Params) (txindex : Ledger.Index Uint256 TxPos)
    (fWritten : Block → Transaction → Bool) (xs : List (Block × Transaction)) (w : Wallet) :
    Prop where
  known : ∀ hash i, w.OwnSpentAt P txindex hash i → w.skipsReaccept hash = true →
    w.isSpentAt hash i = true ∨ w.Rescans P txindex ∧ SpentInScan P fWritten xs w hash i
  added : w.Rescans P txindex → ∀ x ∈ newTxs P w xs,
    ((∃ y ∈ newTxs P w xs, fWritten y.1 y.2 = true) → LeftOut P fWritten xs w x.2) →
      ∀ i, x.2.OwnSpent P w.isMine txindex i → SpentInScan P fWritten xs w (P.txHash x.2) i

theorem Transaction.DecidesPass.lt {tx : Transaction} {i : ℕ} (h : tx.DecidesPass i) :
    i < tx.vout.length := by
  rcases h with ⟨h, rfl⟩ | ⟨h, rfl⟩
  · unfold Transaction.isBeanBase at h
    split at h
    · rw [Bool.and_eq_true, decide_eq_true_eq] at h
      exact h.2
    · cases h
  · unfold Transaction.isBeanStake at h
    split at h
    · rename_i hvout
      rw [hvout, List.length_cons, List.length_cons]
      omega
    · cases h

namespace Wallet

theorem skipsReaccept_eq_true {w : Wallet} {hash : Uint256} : w.skipsReaccept hash = true ↔
    ∃ tx, w.txOf hash = some tx ∧ ∃ i, tx.DecidesPass i ∧ w.isSpentAt hash i = true := by
  unfold skipsReaccept txOf isSpentAt WalletTx.skipsReaccept Transaction.DecidesPass
  cases w.mapWallet.lookup hash with
  | none => simp
  | some wtx =>
    simp only [Option.any_some, Option.map_some, Bool.or_eq_true, Bool.and_eq_true,
      Option.some.injEq, exists_eq_left']
    constructor
    · rintro (⟨h, hs⟩ | ⟨h, hs⟩)
      · exact ⟨0, Or.inl ⟨h, rfl⟩, hs⟩
      · exact ⟨1, Or.inr ⟨h, rfl⟩, hs⟩
    · rintro ⟨i, ⟨h, rfl⟩ | ⟨h, rfl⟩, hs⟩
      · exact Or.inl ⟨h, hs⟩
      · exact Or.inr ⟨h, hs⟩

theorem OwnSpentAt.isOwn {w : Wallet} {hash : Uint256} {i : ℕ}
    (h : w.OwnSpentAt P txindex hash i) : w.isOwn hash i = true := by
  obtain ⟨tx, htx, record, _, _, hspent⟩ := h
  rw [ownSpentAt, Bool.and_eq_true] at hspent
  rw [Wallet.isOwn, htx, Option.any_some]
  exact hspent.2

namespace Passed

variable {w : Wallet} {pass : ReacceptPass}

theorem missing_ne (h : Passed P txindex w pass) : pass.vMissingTx ≠ [] ↔ w.Rescans P txindex := by
  rw [Ne, h.missing]
  unfold Rescans
  push Not
  simp only [Bool.not_eq_true]

theorem isSpentAt_of_ownSpentAt (h : Passed P txindex w pass) {hash : Uint256} {i : ℕ}
    (hi : w.OwnSpentAt P txindex hash i) : pass.wallet.isSpentAt hash i = true ↔
      w.isSpentAt hash i = true ∨ w.skipsReaccept hash = false := by
  rw [h.isSpentAt hash i hi.hasOutput, and_iff_left hi]

end Passed

end Wallet

section Scan

variable {fWritten : Block → Transaction → Bool} {xs : List (Block × Transaction)}
  {w : Wallet} {pass : ReacceptPass} {w₂ : Wallet}

theorem ownSpentAt_scanned (hpass : Wallet.Passed P txindex w pass)
    (hscan : Scanned P fWritten xs pass.wallet w₂) (hash : Uint256) (i : ℕ) :
    w₂.OwnSpentAt P txindex hash i ↔ w.OwnSpentAt P txindex hash i ∨
      ∃ x ∈ newTxs P w xs, P.txHash x.2 = hash ∧ x.2.OwnSpent P w.isMine txindex i := by
  have hmine := hscan.grows.isMine.trans hpass.frame.isMine
  unfold Wallet.OwnSpentAt
  simp only [hscan.txOf, hpass.frame.txOf, hpass.frame.newTxs, hmine, or_and_right, exists_or]
  refine or_congr_right ⟨?_, ?_⟩
  · rintro ⟨_, ⟨x, hx, hhash, rfl⟩, hspent⟩
    exact ⟨x, hx, hhash, hspent⟩
  · rintro ⟨x, hx, hhash, hspent⟩
    exact ⟨x.2, ⟨x, hx, hhash, rfl⟩, hspent⟩

theorem isSpentAt_scanned (hpass : Wallet.Passed P txindex w pass)
    (hscan : Scanned P fWritten xs pass.wallet w₂) {hash : Uint256} {i : ℕ}
    (hi : w.OwnSpentAt P txindex hash i) : w₂.isSpentAt hash i = true ↔
      (w.isSpentAt hash i = true ∨ w.skipsReaccept hash = false) ∨
        SpentInScan P fWritten xs w hash i := by
  have hi₁ := (hpass.frame.ownSpentAt hash i).mpr hi
  have hown : w₂.isOwn hash i = true := by
    rw [hscan.grows.isOwn hi₁.hasOutput]
    exact hi₁.isOwn
  rw [hscan.isSpentAt hash i (hscan.grows.hasOutput hi₁.hasOutput),
    hpass.isSpentAt_of_ownSpentAt hi, hpass.frame.markingTxs, and_iff_right hown]
  rfl

theorem isSpentAt_of_newTxs (hpass : Wallet.Passed P txindex w pass)
    (hscan : Scanned P fWritten xs pass.wallet w₂) {x : Block × Transaction}
    (hx : x ∈ newTxs P w xs) {i : ℕ} (hi : i < x.2.vout.length) :
    w₂.isSpentAt (P.txHash x.2) i = true ↔
      ((x.2.vout[i]?).any fun txout => w.isMine txout.scriptPubKey) = true ∧
        SpentInScan P fWritten xs w (P.txHash x.2) i := by
  have htx : w₂.txOf (P.txHash x.2) = some x.2 :=
    (hscan.txOf _ _).mpr (Or.inr ⟨x, hpass.frame.newTxs xs ▸ hx, rfl, rfl⟩)
  have hbefore : pass.wallet.isSpentAt (P.txHash x.2) i = false := by
    apply Wallet.isSpentAt_of_txOf
    rw [hpass.frame.txOf]
    exact Wallet.knows_eq_false.mp (knows_of_mem_newTxs hx)
  rw [hscan.isSpentAt _ i ⟨x.2, htx, hi⟩, hbefore, hpass.frame.markingTxs, Wallet.isOwn, htx,
    hscan.grows.isMine, hpass.frame.isMine]
  simp [SpentInScan]

theorem skipsReaccept_scanned (hpass : Wallet.Passed P txindex w pass)
    (hscan : Scanned P fWritten xs pass.wallet w₂) {hash : Uint256}
    (h : w.skipsReaccept hash = true) : w₂.skipsReaccept hash = true := by
  obtain ⟨tx, htx, i, hi, hspent⟩ := Wallet.skipsReaccept_eq_true.mp h
  have htx₁ : pass.wallet.txOf hash = some tx := hpass.frame.txOf ▸ htx
  have ho₂ := hscan.grows.hasOutput (⟨tx, htx₁, hi.lt⟩ : pass.wallet.HasOutput hash i)
  refine Wallet.skipsReaccept_eq_true.mpr ⟨tx, hscan.grows.txOf _ _ htx₁, i, hi, ?_⟩
  exact (hscan.isSpentAt hash i ho₂).mpr
    (Or.inl ((hpass.isSpentAt hash i ⟨tx, htx, hi.lt⟩).mpr (Or.inl hspent)))

theorem skipsReaccept_of_newTxs (hpass : Wallet.Passed P txindex w pass)
    (hscan : Scanned P fWritten xs pass.wallet w₂) {x : Block × Transaction}
    (hx : x ∈ newTxs P w xs) :
    w₂.skipsReaccept (P.txHash x.2) = true ↔ LeftOut P fWritten xs w x.2 := by
  have htx : w₂.txOf (P.txHash x.2) = some x.2 :=
    (hscan.txOf _ _).mpr (Or.inr ⟨x, hpass.frame.newTxs xs ▸ hx, rfl, rfl⟩)
  rw [Wallet.skipsReaccept_eq_true, LeftOut]
  simp only [htx, Option.some.injEq, exists_eq_left']
  refine exists_congr fun i => and_congr_right fun hi => ?_
  exact isSpentAt_of_newTxs hpass hscan hx hi.lt

theorem Transaction.OwnSpent.isOwn {tx : Transaction} {isMine : Script → Bool} {i : ℕ}
    (h : tx.OwnSpent P isMine txindex i) : i < tx.vout.length ∧
      ((tx.vout[i]?).any fun txout => isMine txout.scriptPubKey) = true := by
  obtain ⟨record, _, hlen, hspent⟩ := h
  rw [ownSpentAt, Bool.and_eq_true] at hspent
  refine ⟨?_, hspent.2⟩
  by_contra hge
  rw [List.getElem?_eq_none (Nat.not_lt.mp hge)] at hspent
  cases hspent.2

/-- A scan, and the pass after it if there is one, leave no mark owed exactly if what is left out
owes none. -/
theorem leftOutSettled_iff (hpass : Wallet.Passed P txindex w pass)
    (hscan : Scanned P fWritten xs pass.wallet w₂) (hrescans : w.Rescans P txindex) :
    LeftOutSettled P txindex fWritten xs w ↔ ∀ hash i, w₂.OwnSpentAt P txindex hash i →
      w₂.isSpentAt hash i = true ∨ (∃ y ∈ newTxs P w xs, fWritten y.1 y.2 = true) ∧
        w₂.skipsReaccept hash = false := by
  constructor
  · intro h hash i hi
    rcases (ownSpentAt_scanned hpass hscan hash i).mp hi with hi | ⟨x, hx, rfl, hspent⟩
    · left
      rw [isSpentAt_scanned hpass hscan hi]
      cases hskips : w.skipsReaccept hash with
      | false => exact Or.inl (Or.inr rfl)
      | true => exact (h.known hash i hi hskips).imp Or.inl And.right
    · obtain ⟨hlt, hown⟩ := hspent.isOwn
      by_cases hleft : (∃ y ∈ newTxs P w xs, fWritten y.1 y.2 = true) → LeftOut P fWritten xs w x.2
      · left
        exact (isSpentAt_of_newTxs hpass hscan hx hlt).mpr
          ⟨hown, h.added hrescans x hx hleft i hspent⟩
      · right
        rw [Classical.not_imp, ← skipsReaccept_of_newTxs hpass hscan hx, Bool.not_eq_true] at hleft
        exact hleft
  · intro h
    refine ⟨fun hash i hi hskips => ?_, fun _ x hx hleft i hspent => ?_⟩
    · have hspent := (h hash i ((ownSpentAt_scanned hpass hscan hash i).mpr (Or.inl hi))).resolve_right
        fun hc => by
          rw [skipsReaccept_scanned hpass hscan hskips] at hc
          cases hc.2
      rw [isSpentAt_scanned hpass hscan hi, hskips] at hspent
      exact hspent.imp (fun h => h.resolve_right (by simp)) fun h => ⟨hrescans, h⟩
    · have hspent₂ := (h _ i ((ownSpentAt_scanned hpass hscan _ i).mpr
        (Or.inr ⟨x, hx, rfl, hspent⟩))).resolve_right fun hc => by
          rw [(skipsReaccept_of_newTxs hpass hscan hx).mpr (hleft hc.1)] at hc
          cases hc.2
      exact ((isSpentAt_of_newTxs hpass hscan hx hspent.isOwn.1).mp hspent₂).2

theorem leftOutSettled_iff_of_not_rescans (hpass : Wallet.Passed P txindex w pass)
    (hrescans : ¬w.Rescans P txindex) :
    pass.wallet.AgreesWithIndex P txindex ↔ LeftOutSettled P txindex fWritten xs w := by
  constructor
  · intro h
    refine ⟨fun hash i hi hskips => ?_, fun hc => absurd hc hrescans⟩
    have hspent := h hash i ((hpass.frame.ownSpentAt hash i).mpr hi)
    rw [hpass.isSpentAt_of_ownSpentAt hi, hskips] at hspent
    exact Or.inl (hspent.resolve_right (by simp))
  · intro h hash i hi
    rw [hpass.frame.ownSpentAt] at hi
    rw [hpass.isSpentAt_of_ownSpentAt hi]
    cases hskips : w.skipsReaccept hash with
    | false => exact Or.inr rfl
    | true => exact Or.inl ((h.known hash i hi hskips).resolve_right fun hc => hrescans hc.1)

theorem agreesWithIndex_pass {pass₂ : ReacceptPass} (hpass₂ : Wallet.Passed P txindex w₂ pass₂) :
    pass₂.wallet.AgreesWithIndex P txindex ↔ ∀ hash i, w₂.OwnSpentAt P txindex hash i →
      w₂.isSpentAt hash i = true ∨ w₂.skipsReaccept hash = false := by
  unfold Wallet.AgreesWithIndex
  refine forall₂_congr fun hash i => ?_
  rw [hpass₂.frame.ownSpentAt]
  exact imp_congr_right fun hi => hpass₂.isSpentAt_of_ownSpentAt hi

theorem agreesWithIndex_scan {pass₂ : ReacceptPass} {fWritten' : Block → Transaction → Bool}
    {w₄ : Wallet} (horder : InOrder P xs) (hscan : Scanned P fWritten xs w w₂)
    (hpass₂ : Wallet.Passed P txindex w₂ pass₂)
    (hscan₂ : Scanned P fWritten' xs pass₂.wallet w₄) :
    w₄.AgreesWithIndex P txindex ↔ pass₂.wallet.AgreesWithIndex P txindex := by
  have hnone : newTxs P pass₂.wallet xs = [] :=
    hpass₂.frame.newTxs xs ▸ newTxs_eq_nil horder hscan.grows.isMine
      hscan.grows.nMinimumInputValue hscan.txOf
  have htxOf : w₄.txOf = pass₂.wallet.txOf := by
    funext hash
    refine Option.ext fun tx => ?_
    rw [hscan₂.txOf, hnone]
    simp
  have howed : ∀ hash i, w₄.OwnSpentAt P txindex hash i ↔
      pass₂.wallet.OwnSpentAt P txindex hash i := by
    intro hash i
    unfold Wallet.OwnSpentAt
    rw [htxOf, hscan₂.grows.isMine]
  unfold Wallet.AgreesWithIndex
  refine forall₂_congr fun hash i => ?_
  rw [howed]
  refine imp_congr_right fun hi => ?_
  rw [hscan₂.isSpentAt hash i (hscan₂.grows.hasOutput hi.hasOutput)]
  refine ⟨fun h => h.elim id ?_, Or.inl⟩
  -- what the later scan marks the earlier one has marked
  rintro ⟨_, y, hy, hspends⟩
  have hi₂ := (hpass₂.frame.ownSpentAt hash i).mp hi
  rw [hpass₂.frame.markingTxs] at hy
  refine (hpass₂.isSpentAt_of_ownSpentAt hi₂).mpr (Or.inl ?_)
  exact (hscan.isSpentAt hash i hi₂.hasOutput).mpr
    (Or.inr ⟨hi₂.isOwn, y, hscan.mem_markingTxs hy, hspends⟩)

end Scan

theorem reacceptLoop_agrees_iff {fWritten : ℕ → Block → Transaction → Bool}
    {xs : List (Block × Transaction)} (horder : InOrder P xs) (w : Wallet) :
    ∃ w', reacceptLoop P txindex fWritten xs (xs.length + 1) 0 w = some w' ∧
      (w'.AgreesWithIndex P txindex ↔ LeftOutSettled P txindex (fWritten 0) xs w) := by
  have hpass := Wallet.passed_reacceptPass P txindex w
  unfold reacceptLoop
  by_cases hmissing : (reacceptPass P txindex w).vMissingTx = []
  · refine ⟨_, if_pos hmissing, ?_⟩
    exact leftOutSettled_iff_of_not_rescans hpass fun hc => hpass.missing_ne.mpr hc hmissing
  have hrescans := hpass.missing_ne.mp hmissing
  dsimp only
  rw [if_neg hmissing]
  have hscan : Scanned P (fWritten 0) xs (reacceptPass P txindex w).wallet _ :=
    scanned_foldl (s := ⟨0, _⟩) horder
  have hret := @ret_foldl_scanTx P (fWritten 0) xs
    ⟨0, (reacceptPass P txindex w).wallet⟩
  rw [hpass.frame.newTxs, Nat.zero_add] at hret
  rw [leftOutSettled_iff hpass hscan hrescans]
  by_cases hzero : (xs.foldl (scanTx P false (fWritten 0))
      ⟨0, (reacceptPass P txindex w).wallet⟩).ret = 0
  · refine ⟨_, if_pos hzero, ?_⟩
    have hnone : ¬∃ y ∈ newTxs P w xs, fWritten 0 y.1 y.2 = true := by
      rw [hret, List.countP_eq_zero] at hzero
      rintro ⟨y, hy, hwritten⟩
      exact hzero y hy hwritten
    simp only [hnone, false_and, or_false]
    rfl
  · rw [if_neg hzero]
    have hsome : ∃ y ∈ newTxs P w xs, fWritten 0 y.1 y.2 = true := by
      rw [hret, List.countP_eq_zero] at hzero
      push Not at hzero
      exact hzero
    simp only [hsome, true_and]
    cases hxs : xs.length with
    | zero =>
      rw [List.length_eq_zero_iff.mp hxs] at hzero
      exact absurd rfl hzero
    | succ m =>
      have hpass₂ := Wallet.passed_reacceptPass P txindex (xs.foldl (scanTx P false (fWritten 0))
        ⟨0, (reacceptPass P txindex w).wallet⟩).wallet
      rw [← agreesWithIndex_pass hpass₂]
      unfold reacceptLoop
      dsimp only
      split
      · exact ⟨_, rfl, Iff.rfl⟩
      · have hscan₂ : Scanned P (fWritten (0 + 1)) xs (reacceptPass P txindex
            (xs.foldl (scanTx P false (fWritten 0))
              ⟨0, (reacceptPass P txindex w).wallet⟩).wallet).wallet _ :=
          scanned_foldl (s := ⟨0, _⟩) horder
        refine ⟨_, if_pos ?_, agreesWithIndex_scan horder hscan hpass₂ hscan₂⟩
        rw [ret_foldl_scanTx, hpass₂.frame.newTxs, newTxs_eq_nil horder hscan.grows.isMine
          hscan.grows.nMinimumInputValue hscan.txOf]
        rfl

/-- On a chain in order `ReacceptWalletTransactions` returns, and it leaves no own output that
the index has as spent unmarked exactly if what its passes leave out owes no mark. -/
theorem reacceptWalletTransactions_agrees_iff {readBlock : BlockIndex → Block} {nTimeFirstKey : ℤ}
    {fWritten : ℕ → Block → Transaction → Bool} {blocks : List BlockIndex}
    (horder : InOrder P (scannedTxs readBlock nTimeFirstKey blocks)) (w : Wallet) :
    ∃ w', reacceptWalletTransactions P readBlock nTimeFirstKey txindex fWritten blocks w =
        some w' ∧
      (w'.AgreesWithIndex P txindex ↔ LeftOutSettled P txindex (fWritten 0)
        (scannedTxs readBlock nTimeFirstKey blocks) w) :=
  reacceptLoop_agrees_iff horder w

namespace Sample

/-- A beanbase with two outputs, and a transaction that spends each of them. -/
def twoOutputs : Transaction := beanbase 1 1 [out 500, out 600]

def spendsFirst : Transaction := spend 2 [⟨params.txHash twoOutputs, 0⟩] [out 500]

def spendsSecond : Transaction := spend 3 [⟨params.txHash twoOutputs, 1⟩] [⟨600, []⟩]

def payingTwo : Block := block 1 1 [twoOutputs]

def spendingTwo : Block := block 2 2 [beanbase 4 2 [⟨0, []⟩], spendsFirst, spendsSecond]

def readTwo (e : BlockIndex) : Block :=
  if e.phashBlock = payingTwo.hash params then payingTwo else spendingTwo

/-- The index of this chain: both outputs of the beanbase are spent. -/
def twoIndex : Ledger.Index Uint256 TxPos := fun hash =>
  if hash = params.txHash twoOutputs then
    some ⟨some ⟨⟨1, firstFile_ne⟩, 10000, 10082⟩, [some ⟨⟨1, firstFile_ne⟩, 20000, 20150⟩,
      some ⟨⟨1, firstFile_ne⟩, 20000, 20250⟩]⟩
  else if hash = params.txHash spendsFirst then
    some ⟨some ⟨⟨1, firstFile_ne⟩, 20000, 20150⟩, [none]⟩
  else if hash = params.txHash spendsSecond then
    some ⟨some ⟨⟨1, firstFile_ne⟩, 20000, 20250⟩, [none]⟩
  else none

/-- A wallet that sent the first of the spends. A copy of it sent the second one. -/
def twoWallet (vfSpent : List Bool) : Wallet where
  mapWallet := (((∅ : AList fun _ : Uint256 => WalletTx).insert (params.txHash twoOutputs)
    { WalletTx.fromBlock params payingTwo twoOutputs with vfSpent := vfSpent }).insert
      (params.txHash spendsFirst) (.fromBlock params spendingTwo spendsFirst))
  isMine script := script = [0x51]
  nMinimumInputValue := 0

def twoBlocks : List BlockIndex := [entry payingTwo, entry spendingTwo]

theorem inOrder_two : InOrder params (scannedTxs readTwo 0 twoBlocks) := by
  have hlist : scannedTxs readTwo 0 twoBlocks = [(payingTwo, twoOutputs),
      (spendingTwo, beanbase 4 2 [⟨0, []⟩]), (spendingTwo, spendsFirst),
      (spendingTwo, spendsSecond)] := by decide +kernel
  rw [hlist]
  exact ⟨by decide +kernel, by decide +kernel⟩

end Sample

open Sample

/-- Where nothing is marked yet, nothing is left out. -/
theorem reacceptWalletTransactions_agrees_two :
    ∃ w', reacceptWalletTransactions params readTwo 0 twoIndex (fun _ _ _ => true) twoBlocks
        (twoWallet []) = some w' ∧
      (w'.AgreesWithIndex params twoIndex ↔ LeftOutSettled params twoIndex (fun _ _ => true)
        (scannedTxs readTwo 0 twoBlocks) (twoWallet [])) :=
  reacceptWalletTransactions_agrees_iff inOrder_two (twoWallet [])

/-- The wallet has the first output down as spent, and so it never learns of the second one. -/
theorem reacceptWalletTransactions_leaves_out_two :
    InOrder params (scannedTxs readTwo 0 twoBlocks) ∧
    ∃ w', reacceptWalletTransactions params readTwo 0 twoIndex (fun _ _ _ => true) twoBlocks
        (twoWallet [true, false]) = some w' ∧
      ¬w'.AgreesWithIndex params twoIndex := by
  have hrun : (reacceptWalletTransactions params readTwo 0 twoIndex (fun _ _ _ => true) twoBlocks
      (twoWallet [true, false])).any (fun w' =>
        decide (w'.txOf (params.txHash twoOutputs) = some twoOutputs) &&
          w'.isMine [0x51] && !w'.isSpentAt (params.txHash twoOutputs) 1) = true := by
    decide +kernel
  refine ⟨inOrder_two, ?_⟩
  cases hw : reacceptWalletTransactions params readTwo 0 twoIndex (fun _ _ _ => true) twoBlocks
      (twoWallet [true, false]) with
  | none =>
    rw [hw] at hrun
    cases hrun
  | some w' =>
    rw [hw, Option.any_some, Bool.and_eq_true, Bool.and_eq_true, decide_eq_true_eq,
      Bool.not_eq_true'] at hrun
    obtain ⟨⟨htx, hmine⟩, hunspent⟩ := hrun
    refine ⟨w', rfl, fun hagrees => ?_⟩
    have hspent := hagrees (params.txHash twoOutputs) 1
      ⟨twoOutputs, htx, _, if_pos rfl, rfl, ?_⟩
    · rw [hunspent] at hspent
      cases hspent
    · rw [ownSpentAt, Bool.and_eq_true]
      exact ⟨by decide +kernel, hmine⟩

end Beancash
