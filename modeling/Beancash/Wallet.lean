import Beancash.Block
import Mathlib.Data.List.AList

namespace Beancash

structure WalletTx where
  tx : Transaction
  hashBlock : Uint256
  vMerkleBranch : List Uint256
  nIndex : ℤ
  fFromMe : Bool
  vfSpent : List Bool
deriving DecidableEq

namespace WalletTx

/-- `CWalletTx(pwallet, tx)` -/
def ofTransaction (tx : Transaction) : WalletTx := ⟨tx, 0, [], -1, false, []⟩

/-- `IsSpent` of an output that exists. -/
def isSpent (wtx : WalletTx) (nOut : ℕ) : Bool := wtx.vfSpent.getD nOut false

/-- `MarkSpent` and `MarkUnspent` of an output that exists. -/
def mark (wtx : WalletTx) (nOut : ℕ) (fSpent : Bool) : WalletTx :=
  let vfSpent := wtx.vfSpent.take wtx.tx.vout.length ++
    List.replicate (wtx.tx.vout.length - wtx.vfSpent.length) false
  { wtx with vfSpent := vfSpent.set nOut fSpent }

/-- `UpdateSpent`: the marks of `vfNewSpent` are added, as far as `vfSpent` goes. -/
def updateSpent : List Bool → List Bool → List Bool
  | fSpent :: vfSpent, fNewSpent :: vfNewSpent =>
    (fSpent || fNewSpent) :: updateSpent vfSpent vfNewSpent
  | vfSpent, _ => vfSpent

/-- `SetMerkleBranch(pblock)` -/
def setMerkleBranch (P : Params) (wtx : WalletTx) (b : Block) : WalletTx :=
  match b.vtx.findIdx? (· == wtx.tx) with
  | some nIndex =>
    { wtx with
      hashBlock := b.hash P, nIndex := nIndex, vMerkleBranch := getMerkleBranch P b.vtx nIndex }
  | none => { wtx with hashBlock := b.hash P, nIndex := -1, vMerkleBranch := [] }

/-- What `AddToWallet` takes over from a new copy of a transaction it already has. -/
def merge (wtx wtxIn : WalletTx) : WalletTx :=
  let wtx := if wtxIn.hashBlock ≠ 0 then { wtx with hashBlock := wtxIn.hashBlock } else wtx
  let wtx := if wtxIn.nIndex ≠ -1 then
    { wtx with vMerkleBranch := wtxIn.vMerkleBranch, nIndex := wtxIn.nIndex } else wtx
  let wtx := if wtxIn.fFromMe then { wtx with fFromMe := true } else wtx
  { wtx with vfSpent := updateSpent wtx.vfSpent wtxIn.vfSpent }

end WalletTx

structure Wallet where
  mapWallet : AList fun _ : Uint256 => WalletTx
  isMine : Script → Bool
  nMinimumInputValue : Int64

namespace Wallet

def isMineTx (w : Wallet) (tx : Transaction) : Bool :=
  tx.vout.any fun o => w.isMine o.scriptPubKey && decide (w.nMinimumInputValue ≤ o.nValue)

/-- The output of one of its own transactions that an outpoint names, if it is the wallet's. -/
def ownOutput (w : Wallet) (prevout : OutPoint) : Option TxOut :=
  (w.mapWallet.lookup prevout.hash).bind fun prev =>
    (prev.tx.vout[prevout.n.toNat]?).filter fun o => w.isMine o.scriptPubKey

/-- `GetDebit(txin)` -/
def debitOf (w : Wallet) (prevout : OutPoint) : Int64 :=
  match w.ownOutput prevout with
  | some o => o.nValue
  | none => 0

/-- The loop of `GetDebit(tx)`; `none` is the exception it throws. -/
def sumDebit (w : Wallet) : Int64 → List OutPoint → Option Int64
  | nDebit, [] => some nDebit
  | nDebit, prevout :: prevouts =>
    if moneyRange (nDebit + w.debitOf prevout) then sumDebit w (nDebit + w.debitOf prevout) prevouts
    else none

def isFromMe (w : Wallet) (tx : Transaction) : Bool :=
  match w.sumDebit 0 tx.prevouts with
  | some nDebit => 0 < nDebit
  | none => false

def updateTx (w : Wallet) (hash : Uint256) (f : WalletTx → WalletTx) : Wallet :=
  match w.mapWallet.lookup hash with
  | some wtx => { w with mapWallet := w.mapWallet.replace hash (f wtx) }
  | none => w

/-- Mark an own output that some transaction spends. -/
def spendOwn (w : Wallet) (prevout : OutPoint) : Wallet :=
  if (w.ownOutput prevout).isSome then
    w.updateTx prevout.hash fun wtx =>
      if wtx.isSpent prevout.n.toNat then wtx else wtx.mark prevout.n.toNat true
  else w

/-- Clear the mark of every own output of a transaction, from output `i` on. -/
def unspendOutputs (hash : Uint256) : ℕ → List TxOut → Wallet → Wallet
  | _, [], w => w
  | i, o :: os, w =>
    unspendOutputs hash (i + 1) os
      (if w.isMine o.scriptPubKey then w.updateTx hash fun wtx => wtx.mark i false else w)

def walletUpdateSpent (P : Params) (w : Wallet) (tx : Transaction) (fBlock : Bool) : Wallet :=
  let w := tx.prevouts.foldl spendOwn w
  if fBlock then unspendOutputs (P.txHash tx) 0 tx.vout w else w

/-- `AddToWallet`; `fWritten` is what `WriteToDisk` answers. -/
def addToWallet (P : Params) (w : Wallet) (wtxIn : WalletTx) (fWritten : Bool) : Wallet :=
  let hash := P.txHash wtxIn.tx
  let wtx := match w.mapWallet.lookup hash with
    | some wtx => wtx.merge wtxIn
    | none => wtxIn
  let fWrites := w.mapWallet.lookup hash ≠ some wtx
  let w := { w with
    mapWallet := if hash ∈ w.mapWallet then w.mapWallet.replace hash wtx
      else w.mapWallet.insert hash wtx }
  if fWrites ∧ !fWritten then w
  else w.walletUpdateSpent P wtx.tx (decide (wtxIn.hashBlock ≠ 0))

def addToWalletIfInvolvingMe (P : Params) (w : Wallet) (tx : Transaction) (b : Block)
    (fUpdate fWritten : Bool) : Wallet :=
  let fExisted := (w.mapWallet.lookup (P.txHash tx)).isSome
  if fExisted && !fUpdate then w
  else if fExisted || w.isMineTx tx || w.isFromMe tx then
    w.addToWallet P ((WalletTx.ofTransaction tx).setMerkleBranch P b) fWritten
  else w.walletUpdateSpent P tx false

/-- The same for a transaction that need not be in a block. -/
def addIfInvolvingMe (P : Params) (w : Wallet) (tx : Transaction) (pblock : Option Block)
    (fUpdate fWritten : Bool) : Wallet :=
  let fExisted := (w.mapWallet.lookup (P.txHash tx)).isSome
  if fExisted && !fUpdate then w
  else if fExisted || w.isMineTx tx || w.isFromMe tx then
    let wtx := WalletTx.ofTransaction tx
    let wtx := match pblock with
      | some b => wtx.setMerkleBranch P b
      | none => wtx
    w.addToWallet P wtx fWritten
  else w.walletUpdateSpent P tx false

def disableTransaction (w : Wallet) (tx : Transaction) : Wallet :=
  if !tx.isBeanStake || !w.isFromMe tx then w
  else tx.prevouts.foldl (fun w prevout =>
    if (w.ownOutput prevout).isSome then
      w.updateTx prevout.hash fun wtx => wtx.mark prevout.n.toNat false
    else w) w

/-- `SyncWithWallets` for one of the wallets. -/
def sync (P : Params) (b : Block) (fUpdate fConnect fWritten : Bool) (w : Wallet)
    (tx : Transaction) : Wallet :=
  if fConnect then w.addToWalletIfInvolvingMe P tx b fUpdate fWritten
  else if tx.isBeanStake && w.isFromMe tx then w.disableTransaction tx
  else w

/-- What a wallet is told of a block being connected or disconnected. -/
def syncBlock (P : Params) (b : Block) (fUpdate fConnect fWritten : Bool) (w : Wallet) : Wallet :=
  b.vtx.foldl (sync P b fUpdate fConnect fWritten) w

end Wallet

end Beancash
