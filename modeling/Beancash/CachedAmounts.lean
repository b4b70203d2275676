import Beancash.EvalScript
import Beancash.FallibleStep
import Beancash.Solver
import Beancash.Wallet

namespace Beancash

open Fallible

/-- The cached amounts of a `CWalletTx`; where the flag is not set there is none. -/
structure AmountCaches where
  nDebitCached : Option Int64
  nCreditCached : Option Int64
  nAvailableCreditCached : Option Int64
  nChangeCached : Option Int64
deriving DecidableEq

def AmountCaches.empty : AmountCaches := ⟨none, none, none, none⟩

/-- A `CWalletTx` with its caches. -/
structure CachedTx extends WalletTx where
  caches : AmountCaches
deriving DecidableEq

/-- A `CWallet` and what its amounts depend on. -/
structure AmountWallet where
  mapWallet : AList fun _ : Uint256 => CachedTx
  keystore : KeyStore
  mapAddressBook : Finset TxDestination
  /-- the address of the default key, if there is one -/
  vchDefaultKey : Option KeyID
  fFileBacked : Bool

/-- `IsMine` of an address. -/
def KeyStore.isMineDestination (keystore : KeyStore) : TxDestination → Bool
  | .keyID id => decide (id ∈ keystore.keys)
  | .scriptID id => (keystore.mapScripts.lookup id).isSome

/-- The keys `ids` come in. -/
def KeyStore.addKeys (keystore : KeyStore) (ids : List KeyID) : KeyStore :=
  { keystore with keys := keystore.keys ∪ ids.toFinset }

def KeyStore.addCScript (c : Crypto) (keystore : KeyStore) (redeemScript : Script) : KeyStore :=
  if maxScriptElementSize < redeemScript.length then keystore
  else
    let id := (c.hash160 redeemScript).toList
    { keystore with
      mapScripts := (id, redeemScript) :: keystore.mapScripts.filter fun e => e.1 ≠ id }

/-- The loops over what each input or output comes to; `none` is an exception. -/
def sumAmounts : Int64 → List (Option Int64) → Option Int64
  | nSum, [] => some nSum
  | _, none :: _ => none
  | nSum, some nAmount :: amounts =>
    if moneyRange (nSum + nAmount) then sumAmounts (nSum + nAmount) amounts else none

namespace AmountWallet

variable (c : Crypto) (w : AmountWallet)

def isMine (txout : TxOut) : Bool := w.keystore.isMine c txout.scriptPubKey

/-- `GetDebit` of an input. -/
def debitOf (prevout : OutPoint) : Int64 :=
  match w.mapWallet.lookup prevout.hash with
  | none => 0
  | some prev =>
    match prev.tx.vout[prevout.n.toNat]? with
    | none => 0
    | some txout => if w.isMine c txout then txout.nValue else 0

/-- `GetCredit` of an output. -/
def creditOf (txout : TxOut) : Option Int64 :=
  if !moneyRange txout.nValue then none
  else some (if w.isMine c txout then txout.nValue else 0)

/-- `IsChange`: what is paid to an own address that is not in the address book. -/
def isChange (txout : TxOut) : Bool :=
  match extractDestination c txout.scriptPubKey with
  | none => false
  | some address => w.keystore.isMineDestination address && decide (address ∉ w.mapAddressBook)

/-- `GetChange` of an output. -/
def changeOf (txout : TxOut) : Option Int64 :=
  if !moneyRange txout.nValue then none
  else some (if w.isChange c txout then txout.nValue else 0)

/-- `GetDebit` of a transaction. -/
def getDebit (tx : Transaction) : Option Int64 :=
  sumAmounts 0 (tx.prevouts.map fun prevout => some (w.debitOf c prevout))

/-- `GetCredit` of a transaction. -/
def getCredit (tx : Transaction) : Option Int64 := sumAmounts 0 (tx.vout.map (w.creditOf c))

/-- `GetChange` of a transaction. -/
def getChange (tx : Transaction) : Option Int64 := sumAmounts 0 (tx.vout.map (w.changeOf c))

end AmountWallet

/-- The outputs that are not marked as spent. -/
def WalletTx.unspentOutputs (wtx : WalletTx) : List TxOut :=
  (wtx.tx.vout.zipIdx.filter fun p => !wtx.isSpent p.2).map Prod.fst

/-- The loop of `GetAvailableCredit`. -/
def AmountWallet.sumUnspent (c : Crypto) (w : AmountWallet) (wtx : WalletTx) : Option Int64 :=
  sumAmounts 0 (wtx.unspentOutputs.map (w.creditOf c))

/-- What a method that caches returns, and the cache after it: an exception leaves the cache. -/
def useCache (fUseCache : Bool) (nCached nComputed : Option Int64) : Option Int64 × Option Int64 :=
  if fUseCache && nCached.isSome then (nCached, nCached)
  else (nComputed, nComputed.orElse fun _ => nCached)

namespace CachedTx

variable (c : Crypto) (w : AmountWallet) (wtx : CachedTx)

def getDebit : Option Int64 × CachedTx :=
  if wtx.tx.prevouts.isEmpty then (some 0, wtx)
  else
    let r := useCache true wtx.caches.nDebitCached (w.getDebit c wtx.tx)
    (r.1, { wtx with caches := { wtx.caches with nDebitCached := r.2 } })

/-- `GetCredit(fUseCache)`; `fImmature` is whether `GetBlocksToMaturity() > 0`. -/
def getCredit (fUseCache fImmature : Bool) : Option Int64 × CachedTx :=
  if (wtx.tx.isBeanBase || wtx.tx.isBeanStake) && fImmature then (some 0, wtx)
  else
    let r := useCache fUseCache wtx.caches.nCreditCached (w.getCredit c wtx.tx)
    (r.1, { wtx with caches := { wtx.caches with nCreditCached := r.2 } })

/-- `GetAvailableCredit(fUseCache)` -/
def getAvailableCredit (fUseCache fImmature : Bool) : Option Int64 × CachedTx :=
  if (wtx.tx.isBeanBase || wtx.tx.isBeanStake) && fImmature then (some 0, wtx)
  else
    let r := useCache fUseCache wtx.caches.nAvailableCreditCached (w.sumUnspent c wtx.toWalletTx)
    (r.1, { wtx with caches := { wtx.caches with nAvailableCreditCached := r.2 } })

def getChange : Option Int64 × CachedTx :=
  let r := useCache true wtx.caches.nChangeCached (w.getChange c wtx.tx)
  (r.1, { wtx with caches := { wtx.caches with nChangeCached := r.2 } })

def markDirty : CachedTx := { wtx with caches := .empty }

def forgetAvailable : CachedTx :=
  { wtx with caches := { wtx.caches with nAvailableCreditCached := none } }

/-- `MarkSpent` and `MarkUnspent` of an output that exists. -/
def mark (nOut : ℕ) (fSpent : Bool) : CachedTx :=
  let marked := { wtx with toWalletTx := wtx.toWalletTx.mark nOut fSpent }
  if wtx.isSpent nOut = fSpent then marked else marked.forgetAvailable

def updateSpent (vfNewSpent : List Bool) : CachedTx :=
  let vfSpent := WalletTx.updateSpent wtx.vfSpent vfNewSpent
  if vfSpent = wtx.vfSpent then wtx
  else CachedTx.forgetAvailable { wtx with vfSpent := vfSpent }

end CachedTx

namespace AmountWallet

/-- Change a transaction of the wallet. -/
def updateTx (w : AmountWallet) (hash : Uint256) (f : CachedTx → CachedTx) : AmountWallet :=
  match w.mapWallet.lookup hash with
  | some wtx => { w with mapWallet := w.mapWallet.replace hash (f wtx) }
  | none => w

def markDirty (w : AmountWallet) : AmountWallet :=
  w.mapWallet.keys.foldl (fun w hash => w.updateTx hash CachedTx.markDirty) w

/-- `MarkSpent` and `MarkUnspent`, called for a transaction of the wallet. -/
def mark (w : AmountWallet) (hash : Uint256) (nOut : ℕ) (fSpent : Bool) : AmountWallet :=
  w.updateTx hash fun wtx => if wtx.tx.vout.length ≤ nOut then wtx else wtx.mark nOut fSpent

/-- `SetAddressBookName`; the name itself is not looked at. -/
def setAddressBookName (w : AmountWallet) (address : TxDestination) : AmountWallet :=
  { w with mapAddressBook := insert address w.mapAddressBook }

def delAddressBookName (w : AmountWallet) (address : TxDestination) : AmountWallet :=
  { w with mapAddressBook := w.mapAddressBook.erase address }

def eraseFromWallet (w : AmountWallet) (hash : Uint256) : AmountWallet :=
  if !w.fFileBacked then w else { w with mapWallet := w.mapWallet.erase hash }

end AmountWallet

/-- An answer of `GetKeyFromPool`: the keys that it has made, and the key if there is one; `none` is
an exception. Then whether the key can be written as the default key. -/
structure PoolKey where
  newKeys : List KeyID
  newDefaultKey : Option (Option KeyID)
  fWritten : Bool

/-- What `AddToWallet` is answered. -/
structure AddIo where
  fWritten : Bool
  /-- in the graphical wallet the default key is not replaced -/
  fQtGui : Bool
  getKeyFromPool : ℕ → PoolKey
  /-- whether a transaction has `GetBlocksToMaturity() > 0` -/
  immature : Uint256 → Bool

/-- `SetDestination` of a key's address. -/
def Script.ofKeyID (id : KeyID) : Script := [0x76, 0xa9] ++ Script.pushBytes id ++ [0x88, 0xac]

namespace AmountWallet

/-- The transaction is inserted, or merged into the one that is there, and bound to the wallet. -/
def bind (P : Params) (w : AmountWallet) (wtxIn : WalletTx) : AmountWallet :=
  let hash := P.txHash wtxIn.tx
  match w.mapWallet.lookup hash with
  | some wtx =>
    { w with mapWallet := w.mapWallet.replace hash ⟨wtx.toWalletTx.merge wtxIn, .empty⟩ }
  | none => { w with mapWallet := w.mapWallet.insert hash ⟨wtxIn, .empty⟩ }

/-- The default key has been used: a key from the pool takes its place. -/
def replaceDefaultKey (poolKey : PoolKey) : Step AmountWallet Unit := do
  Step.modify fun w => { w with keystore := w.keystore.addKeys poolKey.newKeys }
  match ← Step.ofOption poolKey.newDefaultKey with
  | none => pure ()
  | some newDefaultKey =>
    Step.modify fun w =>
      let w := if poolKey.fWritten then { w with vchDefaultKey := some newDefaultKey } else w
      match w.vchDefaultKey with
      | some id => w.setAddressBookName (.keyID id)
      | none => w

/-- The loop over the outputs that looks for the default key, from the `i`-th on. -/
def replaceDefaultKeys (io : AddIo) (scriptDefaultKey : Script) :
    ℕ → List TxOut → Step AmountWallet Unit
  | _, [] => pure ()
  | i, txout :: vout => do
    if txout.scriptPubKey = scriptDefaultKey then replaceDefaultKey (io.getKeyFromPool i)
    replaceDefaultKeys io scriptDefaultKey (i + 1) vout

/-- An own output that is spent is marked. The line for the log asks for the credit. -/
def spendOwn (c : Crypto) (io : AddIo) (prevout : OutPoint) : Step AmountWallet Unit := fun w =>
  match w.mapWallet.lookup prevout.hash with
  | none => (some (), w)
  | some wtx =>
    match wtx.tx.vout[prevout.n.toNat]? with
    | none => (some (), w)
    | some txout =>
      if !wtx.isSpent prevout.n.toNat && w.isMine c txout then
        let r := wtx.getCredit c w true (io.immature prevout.hash)
        let w := w.updateTx prevout.hash fun _ => r.2
        if r.1.isSome then (some (), w.mark prevout.hash prevout.n.toNat true) else (none, w)
      else (some (), w)

/-- The marks of the own outputs of a transaction are cleared, from the `i`-th on. -/
def unspendOutputs (c : Crypto) (hash : Uint256) : ℕ → List TxOut → AmountWallet → AmountWallet
  | _, [], w => w
  | i, txout :: vout, w =>
    unspendOutputs c hash (i + 1) vout (if w.isMine c txout then w.mark hash i false else w)

def walletUpdateSpent (P : Params) (c : Crypto) (io : AddIo) (tx : Transaction) (fBlock : Bool) :
    Step AmountWallet Unit := do
  Step.forEach (spendOwn c io) tx.prevouts
  if fBlock then Step.modify (unspendOutputs c (P.txHash tx) 0 tx.vout)

/-- `AddToWallet`, up to `WalletUpdateSpent`: the transaction is bound and written, and the default
key is replaced if the transaction pays to it. -/
def addBound (P : Params) (io : AddIo) (wtxIn : WalletTx) : Step AmountWallet WalletTx := do
  let wtx? ← Step.read fun w : AmountWallet => w.mapWallet.lookup (P.txHash wtxIn.tx)
  let wtx := wtx?.elim wtxIn fun wtx => wtx.toWalletTx.merge wtxIn
  Step.modify fun w => w.bind P wtxIn
  Step.guard (wtx?.map CachedTx.toWalletTx = some wtx || io.fWritten)
  match ← Step.read AmountWallet.vchDefaultKey with
  | some id => if !io.fQtGui then replaceDefaultKeys io (Script.ofKeyID id) 0 wtx.tx.vout
  | none => pure ()
  pure wtx

def addToWallet (P : Params) (c : Crypto) (io : AddIo) (wtxIn : WalletTx) :
    Step AmountWallet Unit := do
  let wtx ← addBound P io wtxIn
  walletUpdateSpent P c io wtx.tx (decide (wtxIn.hashBlock ≠ 0))

end AmountWallet

/-- The calls that change what the amounts depend on, and those that ask for them. -/
inductive AmountCall where
  | addToWallet (wtxIn : WalletTx) (io : AddIo)
  | markSpent (hash : Uint256) (nOut : ℕ)
  | markUnspent (hash : Uint256) (nOut : ℕ)
  | updateSpent (hash : Uint256) (vfNewSpent : List Bool)
  | addKey (id : KeyID)
  | addCScript (redeemScript : Script)
  | setAddressBookName (address : TxDestination)
  | delAddressBookName (address : TxDestination)
  | eraseFromWallet (hash : Uint256)
  | markDirty
  | getDebit (hash : Uint256)
  | getCredit (hash : Uint256) (fUseCache fImmature : Bool)
  | getAvailableCredit (hash : Uint256) (fUseCache fImmature : Bool)
  | getChange (hash : Uint256)

/-- The wallet after a call. -/
def AmountWallet.call (P : Params) (c : Crypto) (w : AmountWallet) : AmountCall → AmountWallet
  | .addToWallet wtxIn io => ((addToWallet P c io wtxIn).run w).2
  | .markSpent hash nOut => w.mark hash nOut true
  | .markUnspent hash nOut => w.mark hash nOut false
  | .updateSpent hash vfNewSpent => w.updateTx hash fun wtx => wtx.updateSpent vfNewSpent
  | .addKey id => { w with keystore := w.keystore.addKeys [id] }
  | .addCScript redeemScript => { w with keystore := w.keystore.addCScript c redeemScript }
  | .setAddressBookName address => w.setAddressBookName address
  | .delAddressBookName address => w.delAddressBookName address
  | .eraseFromWallet hash => w.eraseFromWallet hash
  | .markDirty => w.markDirty
  | .getDebit hash => w.updateTx hash fun wtx => (wtx.getDebit c w).2
  | .getCredit hash fUseCache fImmature =>
    w.updateTx hash fun wtx => (wtx.getCredit c w fUseCache fImmature).2
  | .getAvailableCredit hash fUseCache fImmature =>
    w.updateTx hash fun wtx => (wtx.getAvailableCredit c w fUseCache fImmature).2
  | .getChange hash => w.updateTx hash fun wtx => (wtx.getChange c w).2

def AmountWallet.calls (P : Params) (c : Crypto) (w : AmountWallet) (calls : List AmountCall) :
    AmountWallet := calls.foldl (AmountWallet.call P c) w

end Beancash
