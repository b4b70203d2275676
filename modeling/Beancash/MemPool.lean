import Beancash.Inputs

namespace Beancash

structure InPoint where
  ptx : Uint256
  n : ℕ
deriving DecidableEq

structure TxMemPool where
  mapTx : AList fun _ : Uint256 => Transaction
  mapNextTx : AList fun _ : OutPoint => InPoint

namespace TxMemPool

def empty : TxMemPool := ⟨∅, ∅⟩

def lookup (pool : TxMemPool) (hash : Uint256) : Option Transaction := pool.mapTx.lookup hash

/-- `mapNextTx.find(prevout)->second.ptx`, with the transaction it points to. -/
def spenderOf (pool : TxMemPool) (prevout : OutPoint) : Option Transaction :=
  (pool.mapNextTx.lookup prevout).bind fun inpoint => pool.mapTx.lookup inpoint.ptx

/-- Enter the inputs of a transaction from input `i` on. -/
def addInputs (hash : Uint256) : ℕ → List OutPoint → (AList fun _ : OutPoint => InPoint) →
    AList fun _ : OutPoint => InPoint
  | _, [], mapNextTx => mapNextTx
  | i, prevout :: prevouts, mapNextTx =>
    addInputs hash (i + 1) prevouts (mapNextTx.insert prevout ⟨hash, i⟩)

def addUnchecked (pool : TxMemPool) (hash : Uint256) (tx : Transaction) : TxMemPool :=
  ⟨pool.mapTx.insert hash tx, addInputs hash 0 tx.prevouts pool.mapNextTx⟩

/-- The end of `remove`: the transaction itself and its inputs. -/
def removeEntry (pool : TxMemPool) (hash : Uint256) (tx : Transaction) : TxMemPool :=
  ⟨pool.mapTx.erase hash, tx.prevouts.foldl (fun mapNextTx prevout => mapNextTx.erase prevout)
    pool.mapNextTx⟩

/-- The outpoints that name the outputs of a transaction. -/
def outpoints (hash : Uint256) (tx : Transaction) : List OutPoint :=
  (List.range tx.vout.length).map fun i => ⟨hash, UInt32.ofNat i⟩

/-- Remove what spends `o`, if the pool has such a transaction. -/
def removeSpender (removeTx : TxMemPool → Transaction → TxMemPool) (pool : TxMemPool)
    (o : OutPoint) : TxMemPool :=
  match pool.spenderOf o with
  | some txNext => removeTx pool txNext
  | none => pool

/-- `remove(tx, true)`. It calls itself on what it is about to remove, so that the
recursion is bounded by the size of the pool. -/
def removeRecursive (P : Params) : ℕ → TxMemPool → Transaction → TxMemPool
  | 0, pool, _ => pool
  | fuel + 1, pool, tx =>
    let hash := P.txHash tx
    if (pool.lookup hash).isSome then
      ((outpoints hash tx).foldl (removeSpender (removeRecursive P fuel)) pool).removeEntry hash tx
    else pool

def remove (P : Params) (pool : TxMemPool) (tx : Transaction) (fRecursive : Bool) : TxMemPool :=
  if fRecursive then removeRecursive P (pool.mapTx.entries.length + 1) pool tx
  else if (pool.lookup (P.txHash tx)).isSome then pool.removeEntry (P.txHash tx) tx
  else pool

def removeConflicts (P : Params) (pool : TxMemPool) (tx : Transaction) : TxMemPool :=
  tx.prevouts.foldl (removeSpender fun pool txConflict =>
    if txConflict ≠ tx then pool.remove P txConflict true else pool) pool

def clear (_ : TxMemPool) : TxMemPool := empty

end TxMemPool

/-- The node as `accept` sees it: the database, what is on disk, and the rate limiter for
free transactions. -/
structure AcceptView where
  inputs : InputView
  containsTx : Uint256 → Bool
  pindexBest : BlockPtr
  freeLimited : Bool

/-- The checks of `accept` that `fCheckInputs` turns on; the error is `*pfMissingInputs`. -/
def AcceptView.acceptInputs (P : Params) (v : AcceptView) (tx : Transaction) : Except Bool Unit :=
  match v.inputs.fetchInputs ∅ false false tx with
  | .error fInvalid => .error (!fInvalid)
  | .ok mapInputs =>
    if !P.testNet && !P.areInputsStandard tx (tx.prevouts.filterMap (getOutputFor mapInputs)) then
      .error false
    else
      match tx.getValueIn mapInputs, tx.getValueOut with
      | some nValueIn, some nValueOut =>
        if nValueIn - nValueOut < getMinFee tx 1000 .relay then .error false
        else if nValueIn - nValueOut < minRelayTxFee && v.freeLimited then .error false
        else
          match v.inputs.connectInputs P tx mapInputs ∅ TxPos.memory v.pindexBest false false with
          | some _ => .ok ()
          | none => .error false
      | _, _ => .error false

/-- The checks of `accept` before those of the inputs. A transaction that conflicts with
one in the pool is never taken for a newer version of it, which the source has disabled. -/
def AcceptView.acceptFirst (P : Params) (v : AcceptView) (pool : TxMemPool) (tx : Transaction)
    (fCheckInputs : Bool) : Bool :=
  tx.checkTransaction && !tx.isBeanBase && !tx.isBeanStake &&
  decide (tx.nLockTime.toNat ≤ 2 ^ 31 - 1) && (P.testNet || P.isStandard tx) &&
  (pool.lookup (P.txHash tx)).isNone && !(fCheckInputs && v.containsTx (P.txHash tx)) &&
  tx.prevouts.all fun prevout => (pool.mapNextTx.lookup prevout).isNone

/-- `CTxMemPool::accept`: whether the transaction was accepted, `*pfMissingInputs`, and
the pool after it. -/
def AcceptView.accept (P : Params) (v : AcceptView) (pool : TxMemPool) (tx : Transaction)
    (fCheckInputs : Bool) : Bool × Bool × TxMemPool :=
  if !v.acceptFirst P pool tx fCheckInputs then (false, false, pool)
  else
    match if fCheckInputs then v.acceptInputs P tx else .ok () with
    | .error fMissingInputs => (false, fMissingInputs, pool)
    | .ok () => (true, false, pool.addUnchecked (P.txHash tx) tx)

end Beancash
