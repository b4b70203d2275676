import Mathlib.Data.Finset.Max
import Mathlib.Data.Int.Interval
import Mathlib.Logic.Function.Basic

namespace Beancash

/-- What the pool of a wallet depends on: the keys in the order in which they are generated, the
option `-keypool`, the default key, and `HaveKey`. -/
structure KeyPoolEnv (PubKey : Type) where
  newKey : ℕ → PubKey
  keypool : ℕ
  vchDefaultKey : Option PubKey
  haveKey : PubKey → Bool

/-- What goes well in a call: generating the n-th key, and the operations on a record. -/
structure PoolIo where
  generated : ℕ → Bool
  written : ℤ → Bool
  read : ℤ → Bool
  erased : ℤ → Bool

structure KeyPool (PubKey : Type) where
  setKeyPool : Finset ℤ
  pool : ℤ → Option PubKey
  isLocked : Bool
  nGenerated : ℕ

variable {PubKey : Type} (env : KeyPoolEnv PubKey) (io : PoolIo)

namespace KeyPool

/-- `GenerateNewKey`; `none` when it throws. -/
def generateNewKey (s : KeyPool PubKey) : Option PubKey × KeyPool PubKey :=
  (if io.generated s.nGenerated then some (env.newKey s.nGenerated) else none,
    { s with nGenerated := s.nGenerated + 1 })

def nEnd (s : KeyPool PubKey) : ℤ :=
  if h : s.setKeyPool.Nonempty then s.setKeyPool.max' h + 1 else 1

def writePool (s : KeyPool PubKey) (nIndex : ℤ) (pubkey : PubKey) : KeyPool PubKey :=
  { s with pool := if io.written nIndex then Function.update s.pool nIndex (some pubkey) else s.pool }

def erasePool (s : KeyPool PubKey) (nIndex : ℤ) : KeyPool PubKey :=
  { s with pool := if io.erased nIndex then Function.update s.pool nIndex none else s.pool }

def insertIndex (s : KeyPool PubKey) (nIndex : ℤ) : KeyPool PubKey :=
  { s with setKeyPool := insert nIndex s.setKeyPool }

/-- The loop of `TopUpKeyPool`, with the number of keys that are missing. -/
def topUpLoop : ℕ → KeyPool PubKey → Bool × KeyPool PubKey
  | 0, s => (true, s)
  | k + 1, s =>
    let nEnd := s.nEnd
    match s.generateNewKey env io with
    | (none, s) => (false, s)
    | (some pubkey, s) =>
      if !io.written nEnd then (false, s)
      else topUpLoop k ((s.writePool io nEnd pubkey).insertIndex nEnd)

def targetSize (nSize : ℕ) : ℕ := if 0 < nSize then nSize else env.keypool

def topUpKeyPool (nSize : ℕ) (s : KeyPool PubKey) : Bool × KeyPool PubKey :=
  if s.isLocked then (true, s)
  else topUpLoop env io (targetSize env nSize + 1 - s.setKeyPool.card) s

/-- The loop of `NewKeyPool`, from `nIndex` on. Whether the record is written is not looked at. -/
def newKeyLoop : ℕ → ℤ → KeyPool PubKey → Bool × KeyPool PubKey
  | 0, _, s => (true, s)
  | k + 1, nIndex, s =>
    match s.generateNewKey env io with
    | (none, s) => (false, s)
    | (some pubkey, s) =>
      newKeyLoop k (nIndex + 1) ((s.writePool io nIndex pubkey).insertIndex nIndex)

/-- Mark old keypool keys as used. -/
def clear (s : KeyPool PubKey) : KeyPool PubKey :=
  { s with
    setKeyPool := ∅
    pool := fun i => if i ∈ s.setKeyPool ∧ io.erased i then none else s.pool i }

def newKeyPool (s : KeyPool PubKey) : Bool × KeyPool PubKey :=
  let s := s.clear io
  if s.isLocked then (true, s) else newKeyLoop env io env.keypool 1 s

/-- What `ReserveKeyFromKeyPool` leaves in its arguments. -/
structure Reservation (PubKey : Type) where
  nIndex : ℤ
  vchPubKey : Option PubKey
  thrown : Bool

def reserveKeyFromKeyPool (s : KeyPool PubKey) : Reservation PubKey × KeyPool PubKey :=
  let (ok, s) := if !s.isLocked then topUpKeyPool env io 0 s else (true, s)
  if !ok then (⟨-1, none, true⟩, s)
  else if h : s.setKeyPool.Nonempty then
    -- get the oldest key
    let nIndex := s.setKeyPool.min' h
    let s := { s with setKeyPool := s.setKeyPool.erase nIndex }
    match s.pool nIndex with
    | none => (⟨nIndex, none, true⟩, s)
    | some pubkey =>
      (⟨nIndex, some pubkey, !io.read nIndex || !env.haveKey pubkey⟩, s)
  else (⟨-1, none, false⟩, s)

end KeyPool

structure ReserveKey (PubKey : Type) where
  nIndex : ℤ
  vchPubKey : Option PubKey

/-- A wallet and those who take keys from it, with the keys that each of them was given and has not
returned. -/
structure PoolSystem (PubKey : Type) where
  wallet : KeyPool PubKey
  holders : ℕ → ReserveKey PubKey
  given : List (ℕ × PubKey)

namespace PoolSystem

def give (s : PoolSystem PubKey) (h : ℕ) (pubkey : PubKey) : PoolSystem PubKey :=
  { s with given := (h, pubkey) :: s.given }

def setHolder (s : PoolSystem PubKey) (h : ℕ) (nIndex : ℤ) (vchPubKey : Option PubKey) :
    PoolSystem PubKey :=
  { s with holders := Function.update s.holders h ⟨nIndex, vchPubKey⟩ }

@[simp] theorem setHolder_self (s : PoolSystem PubKey) (h : ℕ) (nIndex : ℤ)
    (vchPubKey : Option PubKey) : (s.setHolder h nIndex vchPubKey).holders h = ⟨nIndex, vchPubKey⟩ :=
  Function.update_self _ _ _

theorem setHolder_of_ne (s : PoolSystem PubKey) {h other : ℕ} (hne : other ≠ h) (nIndex : ℤ)
    (vchPubKey : Option PubKey) :
    (s.setHolder h nIndex vchPubKey).holders other = s.holders other :=
  Function.update_of_ne hne _ _

/-- `CReserveKey::GetReservedKey`; `none` is a failed assertion. -/
def getReservedKey (h : ℕ) (s : PoolSystem PubKey) : Option (PoolSystem PubKey) :=
  if (s.holders h).nIndex = -1 then
    let (reserved, wallet) := s.wallet.reserveKeyFromKeyPool env io
    let s := { s with wallet := wallet }
    if reserved.thrown then some (s.setHolder h reserved.nIndex (s.holders h).vchPubKey)
    else if reserved.nIndex ≠ -1 then
      reserved.vchPubKey.map fun pubkey => (s.setHolder h reserved.nIndex pubkey).give h pubkey
    else
      match env.vchDefaultKey with
      | some defaultKey => some ((s.setHolder h (-1) defaultKey).give h defaultKey)
      | none => some s
  else (s.holders h).vchPubKey.map fun pubkey => s.give h pubkey

/-- `CReserveKey::KeepKey` -/
def keepKey (h : ℕ) (s : PoolSystem PubKey) : PoolSystem PubKey :=
  let s' := s.setHolder h (-1) none
  if (s.holders h).nIndex = -1 then s'
  else { s' with wallet := s.wallet.erasePool io (s.holders h).nIndex }

/-- `CReserveKey::ReturnKey` -/
def returnKey [DecidableEq PubKey] (h : ℕ) (s : PoolSystem PubKey) : PoolSystem PubKey :=
  let s' := s.setHolder h (-1) none
  if (s.holders h).nIndex = -1 then s'
  else { s' with
    wallet := s.wallet.insertIndex (s.holders h).nIndex
    given := s.given.filter fun pair =>
      decide ¬(pair.1 = h ∧ some pair.2 = (s.holders h).vchPubKey) }

/-- `GetKeyFromPool`, called by `h`. -/
def getKeyFromPool (h : ℕ) (fAllowReuse : Bool) (s : PoolSystem PubKey) :
    Option (PoolSystem PubKey) :=
  let (reserved, wallet) := s.wallet.reserveKeyFromKeyPool env io
  let s := { s with wallet := wallet }
  if reserved.thrown then some s
  else if reserved.nIndex = -1 then
    match fAllowReuse, env.vchDefaultKey with
    | true, some defaultKey => some (s.give h defaultKey)
    | _, _ =>
      if wallet.isLocked then some s
      else
        match wallet.generateNewKey env io with
        | (none, wallet) => some { s with wallet := wallet }
        | (some pubkey, wallet) => some ({ s with wallet := wallet }.give h pubkey)
  else
    reserved.vchPubKey.map fun pubkey =>
      { s with wallet := wallet.erasePool io reserved.nIndex }.give h pubkey

end PoolSystem

inductive PoolEvent
  | topUpKeyPool (nSize : ℕ)
  | newKeyPool
  | getReservedKey (h : ℕ)
  | keepKey (h : ℕ)
  | returnKey (h : ℕ)
  | getKeyFromPool (h : ℕ) (fAllowReuse : Bool)
  | setLocked (isLocked : Bool)

def PoolEvent.step [DecidableEq PubKey] (e : PoolEvent) (s : PoolSystem PubKey) :
    Option (PoolSystem PubKey) :=
  match e with
  | .topUpKeyPool nSize => some { s with wallet := (s.wallet.topUpKeyPool env io nSize).2 }
  | .newKeyPool => some { s with wallet := (s.wallet.newKeyPool env io).2 }
  | .getReservedKey h => s.getReservedKey env io h
  | .keepKey h => some (s.keepKey io h)
  | .returnKey h => some (s.returnKey h)
  | .getKeyFromPool h fAllowReuse => s.getKeyFromPool env io h fAllowReuse
  | .setLocked isLocked => some { s with wallet := { s.wallet with isLocked := isLocked } }

end Beancash
