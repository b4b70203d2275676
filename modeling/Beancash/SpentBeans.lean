import Beancash.PoolRun
import Beancash.ReacceptSpec

namespace Beancash

open Ledger

/-- A transaction of the wallet, and what `FixSpentBeans` has counted. -/
structure SpentFix where
  wtx : WalletTx
  nMismatchFound : ℤ
  nBalanceInQuestion : Int64

def SpentFix.found (s : SpentFix) (fCheckOnly : Bool) (n : ℕ) (fSpent : Bool) (nValue : Int64) :
    SpentFix where
  wtx := if fCheckOnly then s.wtx else s.wtx.mark n fSpent
  nMismatchFound := s.nMismatchFound + 1
  nBalanceInQuestion := s.nBalanceInQuestion + nValue

/-- The outputs of a transaction, from `n` on, are compared with their marks in the index. -/
def fixSpentOutputs (isMine : Script → Bool) (vSpent : List DiskTxPos) (fCheckOnly : Bool) :
    ℕ → List TxOut → SpentFix → SpentFix
  | _, [], s => s
  | n, txout :: vout, s =>
    let fSpent := (vSpent[n]?).any Option.isSome
    fixSpentOutputs isMine vSpent fCheckOnly (n + 1) vout
      (if isMine txout.scriptPubKey && s.wtx.isSpent n && !fSpent then
        s.found fCheckOnly n false txout.nValue
      else if isMine txout.scriptPubKey && !s.wtx.isSpent n && fSpent then
        s.found fCheckOnly n true txout.nValue
      else s)

structure SpentCheck where
  wallet : Wallet
  nMismatchFound : ℤ
  nBalanceInQuestion : Int64

namespace Wallet

def fixSpentEntry (P : Params) (txindex : Index Uint256 TxPos) (fCheckOnly : Bool) (s : SpentCheck)
    (hash : Uint256) : SpentCheck :=
  match s.wallet.mapWallet.lookup hash with
  | none => s
  | some wtx =>
    match txindex (P.txHash wtx.tx) with
    | none => s
    | some record =>
      let fix := fixSpentOutputs s.wallet.isMine record.spent fCheckOnly 0 wtx.tx.vout
        ⟨wtx, s.nMismatchFound, s.nBalanceInQuestion⟩
      ⟨s.wallet.updateTx hash fun _ => fix.wtx, fix.nMismatchFound, fix.nBalanceInQuestion⟩

def fixSpentBeans (P : Params) (txindex : Index Uint256 TxPos) (fCheckOnly : Bool) (w : Wallet) :
    SpentCheck :=
  w.mapWallet.keys.foldl (fixSpentEntry P txindex fCheckOnly) ⟨w, 0, 0⟩

/-- The inputs of a new transaction are marked; false is the exception of `MarkSpent`. Where the wallet
lacks the transaction `mapWallet[]` makes one without outputs, at the time `nTime`. -/
def markInputs (nTime : UInt32) : List OutPoint → Wallet → Wallet × Bool
  | [], w => (w, true)
  | prevout :: prevouts, w =>
    match w.mapWallet.lookup prevout.hash with
    | none =>
      ({ w with
        mapWallet := w.mapWallet.insert prevout.hash (.ofTransaction ⟨1, nTime, [], [], 0⟩) }, false)
    | some wtx =>
      if wtx.tx.vout.length ≤ prevout.n.toNat then (w, false)
      else markInputs nTime prevouts (w.updateTx prevout.hash fun wtx => wtx.mark prevout.n.toNat true)

/-- The wallet is told of transactions in blocks, as `ConnectBlock` and a scan do it. -/
def hearBlocks (P : Params) (fWritten : Block → Transaction → Bool)
    (xs : List (Block × Transaction)) (w : Wallet) : Wallet :=
  xs.foldl (fun w x => w.addToWalletIfInvolvingMe P x.2 x.1 true (fWritten x.1 x.2)) w

end Wallet

def toldTxs (blocks : List Block) : List (Block × Transaction) :=
  blocks.flatMap fun b => b.vtx.map fun tx => (b, tx)

/-- A node with one wallet. Of the main chain the last block comes first. -/
structure SpendingNode where
  wallet : Wallet
  mempool : TxMemPool
  chain : List Block

/-- What changes the marks, and what they have to follow. -/
inductive SpendCall where
  | addToWallet (wtxIn : WalletTx) (fWritten : Bool)
  | commitTransaction (v : AcceptView) (nTime : UInt32) (wtxNew : WalletTx) (fWritten : Bool)
  | acceptToMemoryPool (v : AcceptView) (tx : Transaction) (fWritten : Bool)
  | removeFromPool (tx : Transaction) (fRecursive : Bool)
  | connectBlock (b : Block) (fWritten : Block → Transaction → Bool)
  | reorganize (nDisconnect : ℕ) (vConnect : List Block) (fWritten : Block → Transaction → Bool)
  | scanForWalletTransactions (readBlock : BlockIndex → Block) (nTimeFirstKey : ℤ)
      (fWritten : Block → Transaction → Bool) (blocks : List BlockIndex)
  | fixSpentBeans (txindex : Index Uint256 TxPos) (fCheckOnly : Bool)

namespace SpendingNode

def commitTransaction (P : Params) (s : SpendingNode) (v : AcceptView) (nTime : UInt32)
    (wtxNew : WalletTx) (fWritten : Bool) : SpendingNode :=
  let marked := Wallet.markInputs nTime wtxNew.tx.prevouts (s.wallet.addToWallet P wtxNew fWritten)
  { s with
    wallet := marked.1
    mempool := if marked.2 then (v.accept P s.mempool wtxNew.tx true).2.2 else s.mempool }

/-- A transaction from a message, of which the wallets are told if it is accepted. -/
def acceptToMemoryPool (P : Params) (s : SpendingNode) (v : AcceptView) (tx : Transaction)
    (fWritten : Bool) : SpendingNode :=
  { s with
    wallet := if (v.accept P s.mempool tx true).1 then
      s.wallet.addIfInvolvingMe P tx none true fWritten else s.wallet
    mempool := (v.accept P s.mempool tx true).2.2 }

/-- `SetBestChainInner` -/
def connectBlock (P : Params) (s : SpendingNode) (b : Block) (fWritten : Block → Transaction → Bool) :
    SpendingNode where
  wallet := s.wallet.hearBlocks P fWritten (toldTxs [b])
  mempool := s.mempool.removeAll P b.vtx
  chain := b :: s.chain

/-- The wallet once the last blocks of the main chain are disconnected. -/
def disconnected (P : Params) (s : SpendingNode) (nDisconnect : ℕ) : Wallet :=
  (toldTxs (s.chain.take nDisconnect)).foldl (fun w x => w.sync P x.1 false false true x.2) s.wallet

def reorganize (P : Params) (s : SpendingNode) (nDisconnect : ℕ) (vConnect : List Block)
    (fWritten : Block → Transaction → Bool) : SpendingNode where
  wallet := (s.disconnected P nDisconnect).hearBlocks P fWritten (toldTxs vConnect)
  mempool := s.mempool.reorganized P
    (resurrectable ((s.chain.take nDisconnect).flatMap Block.vtx)) (vConnect.flatMap Block.vtx)
  chain := vConnect.reverse ++ s.chain.drop nDisconnect

def run (P : Params) (s : SpendingNode) : SpendCall → SpendingNode
  | .addToWallet wtxIn fWritten => { s with wallet := s.wallet.addToWallet P wtxIn fWritten }
  | .commitTransaction v nTime wtxNew fWritten => s.commitTransaction P v nTime wtxNew fWritten
  | .acceptToMemoryPool v tx fWritten => s.acceptToMemoryPool P v tx fWritten
  | .removeFromPool tx fRecursive => { s with mempool := s.mempool.remove P tx fRecursive }
  | .connectBlock b fWritten => s.connectBlock P b fWritten
  | .reorganize nDisconnect vConnect fWritten => s.reorganize P nDisconnect vConnect fWritten
  | .scanForWalletTransactions readBlock nTimeFirstKey fWritten blocks =>
    { s with
      wallet := (Beancash.scanForWalletTransactions P readBlock nTimeFirstKey true fWritten blocks
        s.wallet).wallet }
  | .fixSpentBeans txindex fCheckOnly =>
    { s with wallet := (s.wallet.fixSpentBeans P txindex fCheckOnly).wallet }

/-- A transaction of the pool or of the main chain spends the output. -/
def Spent (P : Params) (s : SpendingNode) (o : OutPoint) : Prop :=
  (∃ tx, s.mempool.Contains P tx ∧ o ∈ tx.spends) ∨ ∃ b ∈ s.chain, ∃ tx ∈ b.vtx, o ∈ tx.spends

/-- The wallet has its outputs that are spent down as spent. -/
def Flagged (P : Params) (s : SpendingNode) : Prop :=
  ∀ o, s.Spent P o → (s.wallet.ownOutput o).isSome = true →
    s.wallet.isSpentAt o.hash o.n.toNat = true

end SpendingNode

namespace TxMemPool

variable {P : Params} {pool : TxMemPool} {u : Transaction}

/-- Taking out transactions leaves nothing else behind. -/
def Within (pool' pool : TxMemPool) : Prop :=
  ∀ hash tx, pool'.mapTx.lookup hash = some tx → pool.mapTx.lookup hash = some tx

theorem Within.trans {pool'' pool' pool : TxMemPool} (h : Within pool'' pool')
    (h' : Within pool' pool) : Within pool'' pool := fun hash tx hl => h' hash tx (h hash tx hl)

theorem within_removeEntry (pool : TxMemPool) (hash : Uint256) (tx : Transaction) :
    Within (pool.removeEntry hash tx) pool := by
  intro h u hl
  change (pool.mapTx.erase hash).lookup h = some u at hl
  by_cases hh : h = hash
  · rw [hh, AList.lookup_erase] at hl
    cases hl
  · rwa [AList.lookup_erase_ne hh] at hl

theorem within_foldl {α : Type} {f : TxMemPool → α → TxMemPool}
    (hf : ∀ pool a, Within (f pool a) pool) (l : List α) (pool : TxMemPool) :
    Within (l.foldl f pool) pool := by
  induction l generalizing pool with
  | nil => exact fun _ _ hl => hl
  | cons a l ih => exact (ih (f pool a)).trans (hf pool a)

theorem within_removeSpender {removeTx : TxMemPool → Transaction → TxMemPool}
    (hremove : ∀ pool tx, Within (removeTx pool tx) pool) (pool : TxMemPool) (o : OutPoint) :
    Within (removeSpender removeTx pool o) pool := by
  unfold removeSpender
  split
  · exact hremove pool _
  · exact fun _ _ hl => hl

theorem within_removeRecursive (P : Params) (fuel : ℕ) (pool : TxMemPool) (tx : Transaction) :
    Within (removeRecursive P fuel pool tx) pool := by
  induction fuel generalizing pool tx with
  | zero => exact fun _ _ hl => hl
  | succ fuel ih =>
    rw [removeRecursive]
    split
    · exact (within_removeEntry _ _ tx).trans (within_foldl (within_removeSpender ih) _ pool)
    · exact fun _ _ hl => hl

theorem within_remove (P : Params) (pool : TxMemPool) (tx : Transaction) (fRecursive : Bool) :
    Within (pool.remove P tx fRecursive) pool := by
  unfold remove
  split_ifs
  · exact within_removeRecursive P _ pool tx
  · exact within_removeEntry pool _ tx
  · exact fun _ _ hl => hl

theorem within_removeConflicts (P : Params) (pool : TxMemPool) (tx : Transaction) :
    Within (pool.removeConflicts P tx) pool := by
  refine within_foldl (within_removeSpender fun pool txConflict => ?_) _ pool
  split
  · exact within_remove P pool txConflict true
  · exact fun _ _ hl => hl

theorem contains_reorganized {vResurrect vDelete : List Transaction}
    (h : Contains P (pool.reorganized P vResurrect vDelete) u) :
    Contains P pool u ∨ u ∈ vResurrect := by
  unfold reorganized at h
  have hstep : ∀ (pool : TxMemPool) tx, Within ((pool.remove P tx false).removeConflicts P tx) pool :=
    fun pool tx => (within_removeConflicts P _ tx).trans (within_remove P pool tx false)
  have hdelete := within_foldl hstep vDelete _ _ _ h
  clear h
  induction vResurrect generalizing pool with
  | nil => exact Or.inl hdelete
  | cons tx vResurrect ih =>
    rcases ih hdelete with hu | hu
    · rcases contains_accept _ hu with hu | rfl
      · exact Or.inl hu
      · exact Or.inr List.mem_cons_self
    · exact Or.inr (List.mem_cons_of_mem _ hu)

end TxMemPool

namespace Wallet

variable {P : Params} {w w' w₁ : Wallet} {spent : OutPoint → Prop} {later : List Transaction}
  {tx : Transaction} {wtxIn : WalletTx} {fWritten : Bool} {o : OutPoint}

/-- The output is down as spent, or a transaction of `later` spends it. -/
def Settled (w : Wallet) (later : List Transaction) (o : OutPoint) : Prop :=
  w.isSpentAt o.hash o.n.toNat = true ∨ ∃ tx ∈ later, o ∈ tx.prevouts

/-- The own outputs that are spent are settled. -/
def Aware (w : Wallet) (spent : OutPoint → Prop) (later : List Transaction) : Prop :=
  ∀ o, spent o → (w.ownOutput o).isSome = true → w.Settled later o

/-- `AddToWallet` comes to clearing the marks of what the transaction pays to the wallet. -/
def Clears (P : Params) (w : Wallet) (wtxIn : WalletTx) (fWritten : Bool) : Prop :=
  wtxIn.hashBlock ≠ 0 ∧ w.addToWalletReturns P wtxIn fWritten = true

/-- The condition on `AddToWallet`: the wallet has no other transaction of that hash, and if the
transaction is new or its marks are cleared, then an own output of it is spent only by transactions that
the same call tells of later, or is down as spent in what is added. -/
structure AddMeets (P : Params) (w : Wallet) (spent : OutPoint → Prop) (later : List Transaction)
    (wtxIn : WalletTx) (fWritten : Bool) : Prop where
  same : ∀ wtx, w.mapWallet.lookup (P.txHash wtxIn.tx) = some wtx → wtx.tx = wtxIn.tx
  unspent : w.Clears P wtxIn fWritten ∨ w.mapWallet.lookup (P.txHash wtxIn.tx) = none →
    ∀ o, spent o → o.hash = P.txHash wtxIn.tx →
      ((wtxIn.tx.vout[o.n.toNat]?).any fun out => w.isMine out.scriptPubKey) = true →
        (¬w.Clears P wtxIn fWritten ∧ wtxIn.isSpent o.n.toNat = true) ∨ ∃ tx ∈ later, o ∈ tx.prevouts

/-- The condition on telling the wallet of a transaction: if it has it or is involved in it, it is added
on that condition, and if it cannot be written, then it spends nothing that is not settled. -/
def Meets (P : Params) (w : Wallet) (spent : OutPoint → Prop) (later : List Transaction)
    (wtxIn : WalletTx) (fWritten : Bool) : Prop :=
  w.knows P wtxIn.tx || w.isMineTx wtxIn.tx || w.isFromMe wtxIn.tx →
    w.AddMeets P spent later wtxIn fWritten ∧ (w.addToWalletReturns P wtxIn fWritten = false →
      ∀ o ∈ wtxIn.tx.prevouts, spent o → (w.ownOutput o).isSome = true → w.Settled later o)

/-- The same for the transactions of blocks, one after the other. -/
def AllMeet (P : Params) (spent : OutPoint → Prop) (fWritten : Block → Transaction → Bool) :
    List (Block × Transaction) → Wallet → Prop
  | [], _ => True
  | x :: xs, w =>
    w.Meets P spent (xs.map Prod.snd) (.fromBlock P x.1 x.2) (fWritten x.1 x.2) ∧
      AllMeet P spent fWritten xs
        (w.addToWalletIfInvolvingMe P x.2 x.1 true (fWritten x.1 x.2))

theorem hasOutput_of_ownOutput (h : (w.ownOutput o).isSome = true) :
    w.HasOutput o.hash o.n.toNat := by
  obtain ⟨out, hout⟩ := Option.isSome_iff_exists.mp h
  rw [Frame.ownOutput_eq] at hout
  obtain ⟨tx, htx, hfilter⟩ := Option.bind_eq_some_iff.mp hout
  exact ⟨tx, htx, (List.getElem?_eq_some_iff.mp (Option.filter_eq_some_iff.mp hfilter).1).1⟩

theorem any_isMine_of_ownOutput (h : (w.ownOutput o).isSome = true) (htx : w.txOf o.hash = some tx) :
    ((tx.vout[o.n.toNat]?).any fun out => w.isMine out.scriptPubKey) = true := by
  rw [Frame.ownOutput_eq, htx, Option.bind_some] at h
  obtain ⟨out, hout⟩ := Option.isSome_iff_exists.mp h
  obtain ⟨hget, hmine⟩ := Option.filter_eq_some_iff.mp hout
  rw [hget]
  exact hmine

theorem spends_of_mem (h : (w.ownOutput o).isSome = true) (hmem : o ∈ tx.prevouts) :
    w.spends tx o.hash o.n.toNat = true :=
  List.any_eq_true.mpr ⟨o, hmem, decide_eq_true ⟨rfl, rfl, h⟩⟩

theorem Aware.walletUpdateSpent (h : w.Aware spent (tx :: later)) {fBlock : Bool}
    (hblock : fBlock = true → ∀ o, spent o → o.hash = P.txHash tx →
      ((tx.vout[o.n.toNat]?).any fun out => w.isMine out.scriptPubKey) = true →
        ∃ tx' ∈ later, o ∈ tx'.prevouts) :
    (w.walletUpdateSpent P tx fBlock).Aware spent later := by
  intro o ho hown
  have hmarked := marked_walletUpdateSpent P w tx fBlock
  rw [hmarked.frame.ownOutput] at hown
  rw [Settled, hmarked.isSpentAt _ _ (hasOutput_of_ownOutput hown), updateSpentWord]
  split_ifs with hcleared hspends
  · exact Or.inr (hblock hcleared.1 o ho hcleared.2.1.symm hcleared.2.2)
  · exact Or.inl rfl
  · rcases h o ho hown with hflag | ⟨tx', htx', hmem⟩
    · exact Or.inl hflag
    · rcases List.mem_cons.mp htx' with rfl | htx'
      · exact absurd (spends_of_mem hown hmem) hspends
      · exact Or.inr ⟨tx', htx', hmem⟩

/-- A transaction has been entered or merged, and its inputs and outputs are not yet looked at. -/
structure Entered (P : Params) (w : Wallet) (wtxIn : WalletTx) (w₁ : Wallet) : Prop where
  isMine : w₁.isMine = w.isMine
  txOf : ∀ hash, w₁.txOf hash = if hash = P.txHash wtxIn.tx then some wtxIn.tx else w.txOf hash
  other : ∀ hash i, hash ≠ P.txHash wtxIn.tx → w₁.isSpentAt hash i = w.isSpentAt hash i
  known : ∀ i, w.isSpentAt (P.txHash wtxIn.tx) i = true → w₁.isSpentAt (P.txHash wtxIn.tx) i = true
  new : ∀ i, w.mapWallet.lookup (P.txHash wtxIn.tx) = none → wtxIn.isSpent i = true →
    w₁.isSpentAt (P.txHash wtxIn.tx) i = true

theorem updateSpent_le {vfSpent vfNewSpent : List Bool} {i : ℕ} (h : vfSpent.getD i false = true) :
    (WalletTx.updateSpent vfSpent vfNewSpent).getD i false = true := by
  induction vfSpent generalizing vfNewSpent i with
  | nil => exact absurd h Bool.false_ne_true
  | cons fSpent vfSpent ih =>
    cases vfNewSpent with
    | nil => exact h
    | cons fNewSpent vfNewSpent =>
      cases i with
      | zero => exact Bool.or_eq_true_iff.mpr (Or.inl h)
      | succ i => exact ih h

theorem tx_merge (wtx wtxIn : WalletTx) : (wtx.merge wtxIn).tx = wtx.tx ∧
    (wtx.merge wtxIn).vfSpent = WalletTx.updateSpent wtx.vfSpent wtxIn.vfSpent := by
  unfold WalletTx.merge
  dsimp only
  constructor <;> split_ifs <;> rfl

/-- `AddToWallet` enters the transaction, and looks at its inputs and outputs if it can be written. -/
theorem exists_entered (hsame : ∀ wtx, w.mapWallet.lookup (P.txHash wtxIn.tx) = some wtx →
    wtx.tx = wtxIn.tx) (fWritten : Bool) :
    ∃ w₁, Entered P w wtxIn w₁ ∧ w.addToWallet P wtxIn fWritten =
      if w.addToWalletReturns P wtxIn fWritten then
        w₁.walletUpdateSpent P wtxIn.tx (decide (wtxIn.hashBlock ≠ 0)) else w₁ := by
  cases hl : w.mapWallet.lookup (P.txHash wtxIn.tx) with
  | none =>
    refine ⟨{ w with mapWallet := w.mapWallet.insert (P.txHash wtxIn.tx) wtxIn }, ?_, ?_⟩
    · have hlookup : ∀ hash, (w.mapWallet.insert (P.txHash wtxIn.tx) wtxIn).lookup hash =
          if hash = P.txHash wtxIn.tx then some wtxIn else w.mapWallet.lookup hash := by
        intro hash
        split <;> rename_i hh
        · rw [hh]
          exact AList.lookup_insert _
        · exact AList.lookup_insert_ne hh
      refine ⟨rfl, fun hash => ?_, fun hash i hh => ?_, fun i hi => ?_, fun i _ hi => ?_⟩
      · unfold txOf
        rw [hlookup]
        split <;> rfl
      · unfold isSpentAt
        rw [hlookup, if_neg hh]
      · rw [isSpentAt, hl] at hi
        exact absurd hi Bool.false_ne_true
      · rw [isSpentAt, hlookup, if_pos rfl]
        exact hi
    · rw [addToWallet_of_lookup_none P fWritten hl, addToWalletReturns, hl]
      cases fWritten <;> rfl
  | some wtx =>
    have htx := hsame wtx hl
    refine ⟨w.updateTx (P.txHash wtxIn.tx) fun wtx => wtx.merge wtxIn, ?_, ?_⟩
    · refine ⟨(updateTx_of_isMine w _ _).1, fun hash => ?_, fun hash i hh => ?_, fun i hi => ?_,
        fun i hnone => absurd (hl.symm.trans hnone) (Option.some_ne_none wtx)⟩
      · rw [txOf, map_lookup_updateTx w _ _ fun wtx => (tx_merge wtx wtxIn).1]
        split <;> rename_i hh
        · rw [hh, hl, Option.map_some, htx]
        · rfl
      · rw [isSpentAt, lookup_updateTx, if_neg hh]
        rfl
      · rw [isSpentAt, lookup_updateTx, if_pos rfl, hl]
        rw [isSpentAt, hl] at hi
        change ((wtx.merge wtxIn).vfSpent.getD i false) = true
        rw [(tx_merge wtx wtxIn).2]
        exact updateSpent_le hi
    · rw [addToWallet_of_lookup P fWritten hl, addToWalletReturns, hl, (tx_merge wtx wtxIn).1, htx]
      have hmerge : ∀ m, (if wtx ≠ m ∧ !fWritten then false else true) =
          (decide (some wtx = some m) || fWritten) := by
        intro m
        by_cases heq : wtx = m <;> cases fWritten <;> simp [heq]
      dsimp only
      rw [← hmerge]
      by_cases hc : wtx ≠ wtx.merge wtxIn ∧ !fWritten
      · rw [if_pos hc, if_pos hc]
        rfl
      · rw [if_neg hc, if_neg hc]
        rfl

theorem Entered.ownOutput_eq {w₁ : Wallet} (he : Entered P w wtxIn w₁)
    (ho : o.hash = P.txHash wtxIn.tx → w.txOf o.hash = some wtxIn.tx) :
    w₁.ownOutput o = w.ownOutput o := by
  rw [Frame.ownOutput_eq, Frame.ownOutput_eq, he.isMine, he.txOf]
  split <;> rename_i hh
  · rw [ho hh]
  · rfl

theorem Aware.entered {l : List Transaction} (h : w.Aware spent l)
    (hm : w.AddMeets P spent later wtxIn fWritten) (hl : ∀ tx ∈ later, tx ∈ l)
    (he : Entered P w wtxIn w₁) : w₁.Aware spent l := by
  intro o ho hown
  by_cases hh : o.hash = P.txHash wtxIn.tx
  · cases hlookup : w.mapWallet.lookup (P.txHash wtxIn.tx) with
    | none =>
      have hmine := any_isMine_of_ownOutput hown ((he.txOf o.hash).trans (if_pos hh))
      rw [he.isMine] at hmine
      rcases hm.unspent (Or.inr hlookup) o ho hh hmine with ⟨-, hspent⟩ | ⟨tx, htx, hmem⟩
      · exact Or.inl (hh ▸ he.new _ hlookup hspent)
      · exact Or.inr ⟨tx, hl tx htx, hmem⟩
    | some wtx =>
      have htx : w.txOf o.hash = some wtxIn.tx := by
        rw [txOf, hh, hlookup, Option.map_some, hm.same wtx hlookup]
      rw [he.ownOutput_eq fun _ => htx] at hown
      exact (h o ho hown).imp_left fun hflag => hh ▸ he.known _ (hh ▸ hflag)
  · rw [he.ownOutput_eq fun hh' => absurd hh' hh] at hown
    exact (h o ho hown).imp_left (he.other _ _ hh).trans

theorem Aware.mono {l : List Transaction} (h : w.Aware spent l) (hl : ∀ tx ∈ l, tx ∈ later) :
    w.Aware spent later := fun o ho hown =>
  (h o ho hown).imp_right fun ⟨tx, htx, hmem⟩ => ⟨tx, hl tx htx, hmem⟩

theorem Aware.addToWallet (h : w.Aware spent (wtxIn.tx :: later))
    (hm : w.AddMeets P spent later wtxIn fWritten)
    (hwritten : w.addToWalletReturns P wtxIn fWritten = false →
      ∀ o ∈ wtxIn.tx.prevouts, spent o → (w.ownOutput o).isSome = true → w.Settled later o) :
    (w.addToWallet P wtxIn fWritten).Aware spent later := by
  obtain ⟨w₁, he, heq⟩ := exists_entered hm.same fWritten
  rw [heq]
  split <;> rename_i hreturns
  · refine (h.entered hm (fun tx => List.mem_cons_of_mem _) he).walletUpdateSpent ?_
    intro hblock o ho hh hmine
    rw [he.isMine] at hmine
    have hclears : w.Clears P wtxIn fWritten := ⟨of_decide_eq_true hblock, hreturns⟩
    exact (hm.unspent (Or.inl hclears) o ho hh hmine).resolve_left fun hc => hc.1 hclears
  · have hlater : w.Aware spent later := by
      intro o ho hown
      rcases h o ho hown with hflag | ⟨tx, htx, hmem⟩
      · exact Or.inl hflag
      · rcases List.mem_cons.mp htx with rfl | htx
        · exact hwritten (Bool.eq_false_iff.mpr hreturns) o hmem ho hown
        · exact Or.inr ⟨tx, htx, hmem⟩
    exact hlater.entered hm (fun _ => id) he

theorem Aware.told (htx : wtxIn.tx = tx) (h : w.Aware spent (tx :: later))
    (hm : w.Meets P spent later wtxIn fWritten) :
    (if w.knows P tx || w.isMineTx tx || w.isFromMe tx then w.addToWallet P wtxIn fWritten
      else w.walletUpdateSpent P tx false).Aware spent later := by
  subst htx
  split <;> rename_i hinvolved
  · exact h.addToWallet (hm hinvolved).1 (hm hinvolved).2
  · exact h.walletUpdateSpent fun hblock => absurd hblock Bool.false_ne_true

theorem addToWalletIfInvolvingMe_update (w : Wallet) (tx : Transaction) (b : Block)
    (fWritten : Bool) : w.addToWalletIfInvolvingMe P tx b true fWritten =
      if w.knows P tx || w.isMineTx tx || w.isFromMe tx then
        w.addToWallet P (.fromBlock P b tx) fWritten else w.walletUpdateSpent P tx false := by
  unfold addToWalletIfInvolvingMe knows txOf
  simp only [Bool.not_true, Bool.and_false, Bool.false_eq_true, if_false, Option.isSome_map]
  rfl

theorem addIfInvolvingMe_update (w : Wallet) (tx : Transaction) (fWritten : Bool) :
    w.addIfInvolvingMe P tx none true fWritten =
      if w.knows P tx || w.isMineTx tx || w.isFromMe tx then
        w.addToWallet P (.ofTransaction tx) fWritten else w.walletUpdateSpent P tx false := by
  unfold addIfInvolvingMe knows txOf
  simp only [Bool.not_true, Bool.and_false, Bool.false_eq_true, if_false, Option.isSome_map]

theorem Aware.hearBlocks {written : Block → Transaction → Bool} {xs : List (Block × Transaction)}
    (h : w.Aware spent (xs.map Prod.snd)) (hm : AllMeet P spent written xs w) :
    (w.hearBlocks P written xs).Aware spent [] := by
  induction xs generalizing w with
  | nil => exact h
  | cons x xs ih =>
    refine ih ?_ hm.2
    beta_reduce
    rw [addToWalletIfInvolvingMe_update]
    exact Aware.told (WalletTx.fromBlock_eq P x.1 x.2).1 h hm.1

theorem Aware.disconnected {b : Block} (h : w.Aware spent later)
    (hm : tx.isBeanStake = true → w.isFromMe tx = true → ∀ o ∈ tx.prevouts, spent o →
      (w.ownOutput o).isSome = true → ∃ tx' ∈ later, o ∈ tx'.prevouts) :
    (w.sync P b false false true tx).Aware spent later ∧ Frame w (w.sync P b false false true tx) := by
  unfold sync
  rw [if_neg Bool.false_ne_true]
  split <;> rename_i hmine
  · have hmarked := marked_disableTransaction w tx
    refine ⟨fun o ho hown => ?_, hmarked.frame⟩
    rw [hmarked.frame.ownOutput] at hown
    rw [Settled, hmarked.isSpentAt _ _ (hasOutput_of_ownOutput hown)]
    split <;> rename_i hspends
    · obtain ⟨o', hmem, heq⟩ := List.any_eq_true.mp hspends.2.2
      obtain ⟨hhash, hn, -⟩ := of_decide_eq_true heq
      have ho' : o' = o := by
        cases o'
        cases o
        exact congrArg₂ OutPoint.mk hhash (UInt32.toNat_inj.mp hn)
      exact Or.inr (hm hspends.1 hspends.2.1 o (ho' ▸ hmem) ho hown)
    · exact h o ho hown
  · exact ⟨h, .rfl⟩

theorem Aware.disconnectedAll {xs : List (Block × Transaction)} (h : w.Aware spent later)
    (hm : ∀ x ∈ xs, x.2.isBeanStake = true → w.isFromMe x.2 = true → ∀ o ∈ x.2.prevouts, spent o →
      (w.ownOutput o).isSome = true → ∃ tx' ∈ later, o ∈ tx'.prevouts) :
    (xs.foldl (fun w x => w.sync P x.1 false false true x.2) w).Aware spent later := by
  induction xs generalizing w with
  | nil => exact h
  | cons x xs ih =>
    obtain ⟨h', hframe⟩ := h.disconnected (P := P) (b := x.1) (hm x List.mem_cons_self)
    refine ih h' fun x' hx' hstake hmine o hmem ho hown => ?_
    rw [hframe.isFromMe] at hmine
    rw [hframe.ownOutput] at hown
    exact hm x' (List.mem_cons_of_mem _ hx') hstake hmine o hmem ho hown

section Replaced

variable {hash : Uint256} {wtx wtx' : WalletTx}

theorem txOf_replaced (hlookup : w.mapWallet.lookup hash = some wtx) (htx : wtx'.tx = wtx.tx) :
    (w.updateTx hash fun _ => wtx').txOf = w.txOf := by
  funext h
  rw [txOf, txOf, lookup_updateTx]
  split <;> rename_i hh
  · rw [hh, hlookup, Option.map_some, Option.map_some, Option.map_some, htx]
  · rfl

theorem ownOutput_replaced (hlookup : w.mapWallet.lookup hash = some wtx) (htx : wtx'.tx = wtx.tx)
    (o : OutPoint) : (w.updateTx hash fun _ => wtx').ownOutput o = w.ownOutput o := by
  rw [Frame.ownOutput_eq, Frame.ownOutput_eq, txOf_replaced hlookup htx,
    (updateTx_of_isMine w hash _).1]

theorem Aware.replaced (h : w.Aware spent later) (hlookup : w.mapWallet.lookup hash = some wtx)
    (htx : wtx'.tx = wtx.tx)
    (hspent : ∀ o, spent o → (w.ownOutput o).isSome = true → o.hash = hash →
      wtx.isSpent o.n.toNat = true → wtx'.isSpent o.n.toNat = true) :
    (w.updateTx hash fun _ => wtx').Aware spent later := by
  intro o ho hown
  rw [ownOutput_replaced hlookup htx] at hown
  refine (h o ho hown).imp_left fun hflag => ?_
  rw [isSpentAt, lookup_updateTx]
  split <;> rename_i hh
  · rw [isSpentAt, hh, hlookup] at hflag
    rw [hlookup]
    exact hspent o ho hown hh hflag
  · exact hflag

end Replaced

theorem tx_found (s : SpentFix) (fCheckOnly : Bool) (n : ℕ) (fSpent : Bool) (nValue : Int64) :
    (s.found fCheckOnly n fSpent nValue).wtx.tx = s.wtx.tx := by
  unfold SpentFix.found
  split <;> rfl

theorem isSpent_found {s : SpentFix} {fCheckOnly fSpent : Bool} {n i : ℕ} (nValue : Int64)
    (hlt : i < s.wtx.tx.vout.length) (h : s.wtx.isSpent i = true)
    (hn : n = i → fCheckOnly = false → fSpent = true) :
    (s.found fCheckOnly n fSpent nValue).wtx.isSpent i = true := by
  unfold SpentFix.found
  cases fCheckOnly with
  | true => exact h
  | false =>
    refine (WalletTx.isSpent_mark _ n fSpent hlt).trans ?_
    split <;> rename_i heq
    · exact hn heq.symm rfl
    · exact h

theorem tx_fixSpentOutputs (isMine : Script → Bool) (vSpent : List DiskTxPos) (fCheckOnly : Bool)
    (n : ℕ) (vout : List TxOut) (s : SpentFix) :
    (fixSpentOutputs isMine vSpent fCheckOnly n vout s).wtx.tx = s.wtx.tx := by
  induction vout generalizing n s with
  | nil => rfl
  | cons txout vout ih =>
    rw [fixSpentOutputs, ih]
    split_ifs
    · exact tx_found s fCheckOnly n false txout.nValue
    · exact tx_found s fCheckOnly n true txout.nValue
    · rfl

theorem isSpent_fixSpentOutputs {isMine : Script → Bool} {vSpent : List DiskTxPos} {fCheckOnly : Bool}
    {i : ℕ} (hi : fCheckOnly = false → (vSpent[i]?).any Option.isSome = true) (n : ℕ)
    (vout : List TxOut) {s : SpentFix} (hlt : i < s.wtx.tx.vout.length)
    (h : s.wtx.isSpent i = true) :
    (fixSpentOutputs isMine vSpent fCheckOnly n vout s).wtx.isSpent i = true := by
  induction vout generalizing n s with
  | nil => exact h
  | cons txout vout ih =>
    rw [fixSpentOutputs]
    split_ifs with hclear
    · refine ih (n + 1) (by rwa [tx_found]) (isSpent_found _ hlt h fun hn hcheck => ?_)
      have hnot := (Bool.and_eq_true_iff.mp hclear).2
      rw [hn, hi hcheck] at hnot
      exact absurd hnot Bool.false_ne_true
    · exact ih (n + 1) (by rwa [tx_found]) (isSpent_found _ hlt h fun _ _ => rfl)
    · exact ih (n + 1) hlt h

/-- The condition on `FixSpentBeans`: what is spent has its mark in the index, as far as the index has
the transaction. -/
def FixMeets (P : Params) (w : Wallet) (spent : OutPoint → Prop) (txindex : Index Uint256 TxPos)
    (fCheckOnly : Bool) : Prop :=
  fCheckOnly = false → ∀ o, spent o → (w.ownOutput o).isSome = true → ∀ tx, w.txOf o.hash = some tx →
    ∀ record, txindex (P.txHash tx) = some record →
      (record.spent[o.n.toNat]?).any Option.isSome = true

theorem Aware.fixSpentEntry {txindex : Index Uint256 TxPos} {fCheckOnly : Bool} {s : SpentCheck}
    (h : s.wallet.Aware spent later) (hm : s.wallet.FixMeets P spent txindex fCheckOnly)
    (hash : Uint256) :
    (fixSpentEntry P txindex fCheckOnly s hash).wallet.Aware spent later ∧
      (fixSpentEntry P txindex fCheckOnly s hash).wallet.FixMeets P spent txindex fCheckOnly := by
  unfold Wallet.fixSpentEntry
  split
  · exact ⟨h, hm⟩
  rename_i wtx hlookup
  split
  · exact ⟨h, hm⟩
  rename_i record hrecord
  dsimp only
  have htx := tx_fixSpentOutputs s.wallet.isMine record.spent fCheckOnly 0 wtx.tx.vout
    ⟨wtx, s.nMismatchFound, s.nBalanceInQuestion⟩
  have htxOf : ∀ o : OutPoint, o.hash = hash → s.wallet.txOf o.hash = some wtx.tx := by
    intro o hh
    rw [txOf, hh, hlookup, Option.map_some]
  refine ⟨h.replaced hlookup htx fun o ho hown hh hspent => ?_, ?_⟩
  · have hout : o.n.toNat < wtx.tx.vout.length := by
      obtain ⟨tx, htx', hlt⟩ := hasOutput_of_ownOutput hown
      rwa [← Option.some.inj ((htxOf o hh).symm.trans htx')] at hlt
    exact isSpent_fixSpentOutputs (s := ⟨wtx, s.nMismatchFound, s.nBalanceInQuestion⟩)
      (fun hcheck => hm hcheck o ho hown wtx.tx (htxOf o hh) record hrecord) 0 _ hout hspent
  · intro hcheck o ho hown
    rw [ownOutput_replaced hlookup htx] at hown
    rw [txOf_replaced hlookup htx]
    exact hm hcheck o ho hown

theorem Aware.fixSpentBeans {txindex : Index Uint256 TxPos} {fCheckOnly : Bool}
    (h : w.Aware spent later) (hm : w.FixMeets P spent txindex fCheckOnly) :
    (w.fixSpentBeans P txindex fCheckOnly).wallet.Aware spent later := by
  have hfold : ∀ (hashes : List Uint256) (s : SpentCheck), s.wallet.Aware spent later →
      s.wallet.FixMeets P spent txindex fCheckOnly →
      (hashes.foldl (Wallet.fixSpentEntry P txindex fCheckOnly) s).wallet.Aware spent later := by
    intro hashes
    induction hashes with
    | nil => exact fun _ h _ => h
    | cons hash hashes ih =>
      intro s h hm
      obtain ⟨h', hm'⟩ := h.fixSpentEntry hm hash
      exact ih _ h' hm'
  exact hfold _ _ h hm

theorem Aware.markPrevout (h : w.Aware spent later) (prevout : OutPoint) :
    (w.updateTx prevout.hash fun wtx => wtx.mark prevout.n.toNat true).Aware
      (fun o => spent o ∨ o = prevout) later := by
  intro o ho hown
  have hmarked := marked_mark w prevout.hash prevout.n.toNat true
  rw [hmarked.frame.ownOutput] at hown
  rw [Settled, hmarked.isSpentAt _ _ (hasOutput_of_ownOutput hown)]
  split <;> rename_i hh
  · exact Or.inl rfl
  · refine h o (ho.resolve_right ?_) hown
    rintro rfl
    exact hh ⟨rfl, rfl⟩

theorem Aware.insertEmpty {hash : Uint256} {wtx : WalletTx} (h : w.Aware spent later)
    (hvout : wtx.tx.vout = []) :
    { w with mapWallet := w.mapWallet.insert hash wtx }.Aware spent later := by
  intro o ho hown
  by_cases hh : o.hash = hash
  · unfold ownOutput at hown
    rw [hh, AList.lookup_insert, Option.bind_some, hvout] at hown
    exact absurd hown Bool.false_ne_true
  · unfold ownOutput at hown
    rw [AList.lookup_insert_ne hh] at hown
    refine (h o ho hown).imp_left fun hflag => ?_
    unfold isSpentAt
    rw [AList.lookup_insert_ne hh]
    exact hflag

theorem Aware.markInputs (nTime : UInt32) {prevouts : List OutPoint} (h : w.Aware spent later) :
    (Wallet.markInputs nTime prevouts w).1.Aware
      (fun o => spent o ∨ (Wallet.markInputs nTime prevouts w).2 = true ∧ o ∈ prevouts) later := by
  induction prevouts generalizing w spent with
  | nil => exact fun o ho => h o (ho.resolve_right fun hc => List.not_mem_nil hc.2)
  | cons prevout prevouts ih =>
    have hfailed : ∀ {w' : Wallet}, w'.Aware spent later →
        w'.Aware (fun o => spent o ∨ false = true ∧ o ∈ prevout :: prevouts) later :=
      fun h' o ho => h' o (ho.resolve_right fun hc => Bool.false_ne_true hc.1)
    unfold Wallet.markInputs
    split
    · exact hfailed (h.insertEmpty rfl)
    · split
      · exact hfailed h
      · refine fun o ho => ih (h.markPrevout prevout) o ?_
        rcases ho with ho | ⟨hall, hmem⟩
        · exact Or.inl (Or.inl ho)
        · rcases List.mem_cons.mp hmem with rfl | hmem
          · exact Or.inl (Or.inr rfl)
          · exact Or.inr ⟨hall, hmem⟩

end Wallet

namespace SpendingNode

variable {P : Params} {s : SpendingNode}

/-- The condition on a call. `DisableTransaction` clears nothing that is spent once the call is over,
unless a block that the call connects spends it. -/
def Meets (P : Params) (s : SpendingNode) (c : SpendCall) : Prop :=
  let spent := (s.run P c).Spent P
  match c with
  | .addToWallet wtxIn fWritten => s.wallet.AddMeets P spent [] wtxIn fWritten
  | .commitTransaction _ _ wtxNew fWritten => s.wallet.AddMeets P (s.Spent P) [] wtxNew fWritten
  | .acceptToMemoryPool v tx fWritten => (v.accept P s.mempool tx true).1 = true →
      s.wallet.Meets P spent [] (.ofTransaction tx) fWritten
  | .removeFromPool _ _ => True
  | .connectBlock b fWritten => s.wallet.AllMeet P spent fWritten (toldTxs [b])
  | .reorganize nDisconnect vConnect fWritten =>
    (∀ x ∈ toldTxs (s.chain.take nDisconnect), x.2.isBeanStake = true → s.wallet.isFromMe x.2 = true →
      ∀ o ∈ x.2.prevouts, spent o → (s.wallet.ownOutput o).isSome = true →
        ∃ tx ∈ (toldTxs vConnect).map Prod.snd, o ∈ tx.prevouts) ∧
    (s.disconnected P nDisconnect).AllMeet P spent fWritten (toldTxs vConnect)
  | .scanForWalletTransactions readBlock nTimeFirstKey fWritten blocks =>
    s.wallet.AllMeet P spent fWritten (scannedTxs readBlock nTimeFirstKey blocks)
  | .fixSpentBeans txindex fCheckOnly => s.wallet.FixMeets P spent txindex fCheckOnly

theorem flagged_iff : s.Flagged P ↔ s.wallet.Aware (s.Spent P) [] := by
  refine forall_congr' fun o => forall_congr' fun _ => forall_congr' fun _ => ?_
  exact ⟨Or.inl, fun h => h.resolve_right fun ⟨_, htx, _⟩ => List.not_mem_nil htx⟩

theorem mem_toldTxs {blocks : List Block} {tx : Transaction} :
    tx ∈ (toldTxs blocks).map Prod.snd ↔ ∃ b ∈ blocks, tx ∈ b.vtx := by
  simp only [toldTxs, List.map_flatMap, List.map_map, List.mem_flatMap, List.mem_map,
    Function.comp_apply, exists_eq_right]

theorem wallet_scan (readBlock : BlockIndex → Block) (nTimeFirstKey : ℤ)
    (fWritten : Block → Transaction → Bool) (blocks : List BlockIndex) (w : Wallet) :
    (scanForWalletTransactions P readBlock nTimeFirstKey true fWritten blocks w).wallet =
      w.hearBlocks P fWritten (scannedTxs readBlock nTimeFirstKey blocks) := by
  rw [scanForWalletTransactions_eq, Wallet.hearBlocks]
  generalize scannedTxs readBlock nTimeFirstKey blocks = xs
  generalize 0 = ret
  induction xs generalizing ret w with
  | nil => rfl
  | cons x xs ih => exact ih _ _

theorem contains_accepted {v : AcceptView} {pool : TxMemPool} {tx u : Transaction}
    (h : TxMemPool.Contains P (v.accept P pool tx true).2.2 u) :
    pool.Contains P u ∨ (v.accept P pool tx true).1 = true ∧ u = tx := by
  unfold AcceptView.accept at h ⊢
  split at h <;> rename_i hfirst
  · exact Or.inl h
  · rw [if_neg hfirst]
    split at h
    · exact Or.inl h
    · exact (TxMemPool.contains_addUnchecked h).imp_right fun hu => ⟨rfl, hu⟩

theorem aware_of_flagged (h : s.Flagged P) (later : List Transaction) :
    s.wallet.Aware (s.Spent P) later := fun o ho hown => Or.inl (h o ho hown)

theorem Flagged.addToWallet (h : s.Flagged P) {wtxIn : WalletTx} {fWritten : Bool}
    (hm : s.wallet.AddMeets P (s.Spent P) [] wtxIn fWritten) :
    (s.wallet.addToWallet P wtxIn fWritten).Aware (s.Spent P) [] :=
  (aware_of_flagged h _).addToWallet hm fun _ o _ ho hown => Or.inl (h o ho hown)

theorem Flagged.commitTransaction (h : s.Flagged P) (v : AcceptView) (nTime : UInt32)
    {wtxNew : WalletTx} {fWritten : Bool}
    (hm : s.wallet.AddMeets P (s.Spent P) [] wtxNew fWritten) :
    (s.commitTransaction P v nTime wtxNew fWritten).Flagged P := by
  refine flagged_iff.mpr fun o ho => (h.addToWallet hm).markInputs nTime o ?_
  rcases ho with ⟨u, hu, hmem⟩ | hchain
  · unfold SpendingNode.commitTransaction at hu
    dsimp only at hu
    split at hu <;> rename_i hmarked
    · rcases contains_accepted hu with hu | ⟨-, rfl⟩
      · exact Or.inl (Or.inl ⟨u, hu, hmem⟩)
      · exact Or.inr ⟨hmarked, TxMemPool.mem_prevouts_of_spends hmem⟩
    · exact Or.inl (Or.inl ⟨u, hu, hmem⟩)
  · exact Or.inl (Or.inr hchain)

theorem Flagged.acceptToMemoryPool (h : s.Flagged P) {v : AcceptView} {tx : Transaction}
    {fWritten : Bool} (hm : (v.accept P s.mempool tx true).1 = true →
      s.wallet.Meets P ((s.acceptToMemoryPool P v tx fWritten).Spent P) [] (.ofTransaction tx)
        fWritten) :
    (s.acceptToMemoryPool P v tx fWritten).Flagged P := by
  have hbefore : s.wallet.Aware ((s.acceptToMemoryPool P v tx fWritten).Spent P)
      (if (v.accept P s.mempool tx true).1 then [tx] else []) := by
    rintro o (⟨u, hu, hmem⟩ | hchain) hown
    · rcases contains_accepted hu with hu | ⟨haccepted, rfl⟩
      · exact Or.inl (h o (Or.inl ⟨u, hu, hmem⟩) hown)
      · rw [if_pos haccepted]
        exact Or.inr ⟨u, List.mem_cons_self, TxMemPool.mem_prevouts_of_spends hmem⟩
    · exact Or.inl (h o (Or.inr hchain) hown)
  rw [flagged_iff]
  generalize (s.acceptToMemoryPool P v tx fWritten).Spent P = spent at hm hbefore ⊢
  unfold SpendingNode.acceptToMemoryPool
  dsimp only
  split <;> rename_i haccepted
  · rw [if_pos haccepted] at hbefore
    rw [Wallet.addIfInvolvingMe_update]
    exact Wallet.Aware.told rfl hbefore (hm haccepted)
  · rwa [if_neg haccepted] at hbefore

theorem Flagged.connectBlock (h : s.Flagged P) {b : Block}
    {fWritten : Block → Transaction → Bool} (hm : Wallet.AllMeet P
      ((s.connectBlock P b fWritten).Spent P) fWritten (toldTxs [b]) s.wallet) :
    (s.connectBlock P b fWritten).Flagged P := by
  refine flagged_iff.mpr (Wallet.Aware.hearBlocks (fun o ho hown => ?_) hm)
  rcases ho with ⟨u, hu, hmem⟩ | ⟨b', hb', tx, htx, hmem⟩
  · have hwithin := TxMemPool.within_foldl (fun pool tx => TxMemPool.within_remove P pool tx false)
      b.vtx s.mempool
    exact Or.inl (h o (Or.inl ⟨u, hwithin _ _ hu, hmem⟩) hown)
  · rcases List.mem_cons.mp hb' with rfl | hb'
    · exact Or.inr ⟨tx, mem_toldTxs.mpr ⟨b', List.mem_singleton_self b', htx⟩,
        TxMemPool.mem_prevouts_of_spends hmem⟩
    · exact Or.inl (h o (Or.inr ⟨b', hb', tx, htx, hmem⟩) hown)

theorem Flagged.reorganize (h : s.Flagged P) {nDisconnect : ℕ} {vConnect : List Block}
    {fWritten : Block → Transaction → Bool}
    (hdisconnect : ∀ x ∈ toldTxs (s.chain.take nDisconnect), x.2.isBeanStake = true →
      s.wallet.isFromMe x.2 = true → ∀ o ∈ x.2.prevouts,
        (s.reorganize P nDisconnect vConnect fWritten).Spent P o →
          (s.wallet.ownOutput o).isSome = true →
            ∃ tx ∈ (toldTxs vConnect).map Prod.snd, o ∈ tx.prevouts)
    (hm : Wallet.AllMeet P ((s.reorganize P nDisconnect vConnect fWritten).Spent P) fWritten
      (toldTxs vConnect) (s.disconnected P nDisconnect)) :
    (s.reorganize P nDisconnect vConnect fWritten).Flagged P := by
  refine flagged_iff.mpr (Wallet.Aware.hearBlocks
    (Wallet.Aware.disconnectedAll (fun o ho hown => ?_) hdisconnect) hm)
  rcases ho with ⟨u, hu, hmem⟩ | ⟨b, hb, tx, htx, hmem⟩
  · rcases TxMemPool.contains_reorganized hu with hu | hu
    · exact Or.inl (h o (Or.inl ⟨u, hu, hmem⟩) hown)
    · obtain ⟨b, hb, htx⟩ := List.mem_flatMap.mp (List.mem_filter.mp hu).1
      exact Or.inl (h o (Or.inr ⟨b, List.mem_of_mem_take hb, u, htx, hmem⟩) hown)
  · rcases List.mem_append.mp hb with hb | hb
    · exact Or.inr ⟨tx, mem_toldTxs.mpr ⟨b, List.mem_reverse.mp hb, htx⟩,
        TxMemPool.mem_prevouts_of_spends hmem⟩
    · exact Or.inl (h o (Or.inr ⟨b, List.mem_of_mem_drop hb, tx, htx, hmem⟩) hown)

theorem Flagged.run (h : s.Flagged P) {c : SpendCall} (hc : s.Meets P c) : (s.run P c).Flagged P := by
  cases c with
  | addToWallet wtxIn fWritten => exact flagged_iff.mpr (h.addToWallet hc)
  | commitTransaction v nTime wtxNew fWritten => exact h.commitTransaction v nTime hc
  | acceptToMemoryPool v tx fWritten => exact h.acceptToMemoryPool hc
  | removeFromPool tx fRecursive =>
    refine fun o ho hown => h o (ho.imp_left fun hpool => ?_) hown
    obtain ⟨u, hu, hmem⟩ := hpool
    exact ⟨u, TxMemPool.within_remove P _ tx fRecursive _ _ hu, hmem⟩
  | connectBlock b fWritten => exact h.connectBlock hc
  | reorganize nDisconnect vConnect fWritten => exact h.reorganize hc.1 hc.2
  | scanForWalletTransactions readBlock nTimeFirstKey fWritten blocks =>
    refine flagged_iff.mpr ?_
    change Wallet.Aware (Beancash.scanForWalletTransactions P readBlock nTimeFirstKey true fWritten
      blocks s.wallet).wallet (s.Spent P) []
    rw [wallet_scan]
    exact (aware_of_flagged h _).hearBlocks hc
  | fixSpentBeans txindex fCheckOnly =>
    exact flagged_iff.mpr ((aware_of_flagged h []).fixSpentBeans hc)

/-- `SpendRun P s`: a run from a wallet without transactions has led to the node `s`, and each of its
calls has met the condition. -/
inductive SpendRun (P : Params) : SpendingNode → Prop
  | start {s : SpendingNode} : (∀ hash, s.wallet.mapWallet.lookup hash = none) → SpendRun P s
  | call {s : SpendingNode} {c : SpendCall} : SpendRun P s → s.Meets P c → SpendRun P (s.run P c)

end SpendingNode

open SpendingNode

/-- An own output that a transaction of the pool or of the main chain spends is down as spent. -/
theorem flagged_of_spendRun {P : Params} {s : SpendingNode} (h : SpendRun P s) : s.Flagged P := by
  induction h with
  | start hnone =>
    intro o _ hown
    rw [Wallet.ownOutput, hnone] at hown
    exact absurd hown Bool.false_ne_true
  | call _ hc ih => exact ih.run hc

namespace Sample

def payee : Wallet := ⟨∅, fun script => script = [0x51], 0⟩

/-- A new wallet at a chain of one block. -/
def payeeNode : SpendingNode := ⟨payee, .empty, [genesis]⟩

def connect (b : Block) : SpendCall := .connectBlock b fun _ _ => true

theorem mem_spends_of_spent {s : SpendingNode} (hpool : s.mempool.mapTx.entries = []) {o : OutPoint}
    (h : s.Spent params o) : o ∈ (s.chain.flatMap Block.vtx).flatMap Transaction.spends := by
  rcases h with ⟨u, hu, -⟩ | ⟨b, hb, tx, htx, hmem⟩
  · rw [TxMemPool.Contains, AList.lookup, hpool] at hu
    cases hu
  · exact List.mem_flatMap.mpr ⟨tx, List.mem_flatMap.mpr ⟨b, hb, htx⟩, hmem⟩

/-- The transactions are new to the wallet, and nothing that they pay is spent. -/
def newTo (spends : List OutPoint) : List (Block × Transaction) → Wallet → Bool
  | [], _ => true
  | x :: xs, w => !w.knows params x.2 && spends.all (fun o => o.hash ≠ params.txHash x.2) &&
    newTo spends xs (w.addToWalletIfInvolvingMe params x.2 x.1 true true)

theorem allMeet_of_newTo {spent : OutPoint → Prop} {spends : List OutPoint}
    (hspent : ∀ o, spent o → o ∈ spends) {xs : List (Block × Transaction)} {w : Wallet}
    (hnew : newTo spends xs w = true) : w.AllMeet params spent (fun _ _ => true) xs := by
  induction xs generalizing w with
  | nil => trivial
  | cons x xs ih =>
    obtain ⟨hx, hxs⟩ := Bool.and_eq_true_iff.mp hnew
    obtain ⟨hknows, hother⟩ := Bool.and_eq_true_iff.mp hx
    refine ⟨fun _ => ⟨⟨fun wtx hlookup => ?_, fun _ o ho hh => ?_⟩, fun hreturns => ?_⟩, ih hxs⟩
    · rw [(WalletTx.fromBlock_eq params x.1 x.2).1] at hlookup
      rw [Wallet.knows, Wallet.txOf, hlookup] at hknows
      cases hknows
    · rw [(WalletTx.fromBlock_eq params x.1 x.2).1] at hh
      exact absurd hh (of_decide_eq_true (List.all_eq_true.mp hother o (hspent o ho)))
    · rw [Wallet.addToWalletReturns, Bool.or_true] at hreturns
      cases hreturns

theorem spendRun_two : SpendRun params
    ((payeeNode.run params (connect payingTwo)).run params (connect spendingTwo)) := by
  refine .call (.call (.start fun _ => rfl) ?_) ?_
  · exact allMeet_of_newTo (fun o => mem_spends_of_spent (by decide +kernel)) (by decide +kernel)
  · exact allMeet_of_newTo (fun o => mem_spends_of_spent (by decide +kernel)) (by decide +kernel)

end Sample

open Sample in
theorem flagged_of_spendRun_two :
    ((payeeNode.run params (connect payingTwo)).run params
      (connect spendingTwo)).wallet.isSpentAt (params.txHash twoOutputs) 1 = true :=
  flagged_of_spendRun spendRun_two ⟨params.txHash twoOutputs, 1⟩ (Or.inr ⟨spendingTwo,
    List.mem_cons_self, spendsSecond, by decide +kernel, by decide +kernel⟩) (by decide +kernel)

namespace Sample

/-- It spends what `rivalSpend` pays. -/
def respend : Transaction := spend 41 [⟨params.txHash rivalSpend, 0⟩] [out 80000]

def respendCalls : List SpendCall :=
  [.acceptToMemoryPool (view (chainNode 11)) rivalSpend true,
    .commitTransaction (view poolNode) 0 { WalletTx.ofTransaction respend with fFromMe := true } true]

/-- A block with `rivalSpend`. -/
def rivalBlock : Block := block 12 12 [beanbase 12 12 [out 100000], rivalSpend]

def respendNode : SpendingNode :=
  respendCalls.foldl (SpendingNode.run params) ⟨payee, .empty, (List.range 12).reverse.map longBlock⟩

end Sample

open Sample in
/-- The wallet was paid by a transaction and has spent the output, and the block with the first
transaction clears the mark while the second one is in the pool. -/
theorem spendRun_lostMark :
    respendNode.wallet.isSpentAt (params.txHash rivalSpend) 0 = true ∧
      let s := respendNode.run params (connect rivalBlock)
      s.Spent params ⟨params.txHash rivalSpend, 0⟩ ∧
        (s.wallet.ownOutput ⟨params.txHash rivalSpend, 0⟩).isSome = true ∧
          s.wallet.isSpentAt (params.txHash rivalSpend) 0 = false := by
  refine ⟨by decide +kernel, ?_⟩
  intro s
  refine ⟨Or.inl ⟨respend, ?_, by decide +kernel⟩, by decide +kernel, by decide +kernel⟩
  unfold TxMemPool.Contains
  decide +kernel

end Beancash
