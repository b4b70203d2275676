import Beancash.SelectTried
import Beancash.ByteStream
import Mathlib.Data.Finset.Sort
import Mathlib.Data.List.AList

namespace Beancash

/-- The 16 bytes of a `CNetAddr`. -/
abbrev NetAddr := List UInt8

/-- `CService` -/
structure NetService where
  ip : NetAddr
  port : UInt16
deriving DecidableEq

/-- `CAddress`, with what is sent of it. -/
structure NetAddress extends NetService where
  nServices : UInt64
  nTime : UInt32
deriving DecidableEq

structure AddrInfo extends NetAddress where
  source : NetAddr
  nLastTry : ℤ
  nLastSuccess : ℤ
  nAttempts : ℤ
  nRefCount : ℤ
  fInTried : Bool
  nRandomPos : ℤ
deriving DecidableEq

/-- `CAddrInfo(addr, addrSource)` -/
def AddrInfo.ofAddress (addr : NetAddress) (addrSource : NetAddr) : AddrInfo where
  toNetAddress := addr
  source := addrSource
  nLastTry := 0
  nLastSuccess := 0
  nAttempts := 0
  nRefCount := 0
  fInTried := false
  nRandomPos := -1

def AddrInfo.isTerrible (info : AddrInfo) (nNow : ℤ) : Bool :=
  let nTime : ℤ := info.nTime.toNat
  if info.nLastTry ≠ 0 ∧ nNow - 60 ≤ info.nLastTry then false
  else if nNow + 10 * 60 < nTime then true
  else if nTime = 0 ∨ 30 * 86400 < nNow - nTime then true
  else if info.nLastSuccess = 0 ∧ 3 ≤ info.nAttempts then true
  else decide (7 * 86400 < nNow - info.nLastSuccess ∧ 10 ≤ info.nAttempts)

def addrmanTriedBucketCount : ℕ := 64

def addrmanTriedBucketSize : ℕ := 64

def addrmanNewBucketCount : ℕ := 256

def addrmanNewBucketSize : ℕ := 64

def addrmanNewBucketsPerAddress : ℤ := 4

/-- What the manager takes from the rest of the program: the hash of what is written to a
`CHashWriter`, which is byte strings and numbers, and two functions of addresses. -/
structure AddrEnv where
  getHash : List (List UInt8 ⊕ UInt64) → UInt64
  getGroup : NetAddr → List UInt8
  isRoutable : NetAddr → Bool

/-- `CService::GetKey` -/
def NetService.getKey (s : NetService) : List UInt8 :=
  s.ip ++ [(s.port / 0x100).toUInt8, (s.port &&& 0xff).toUInt8]

def getTriedBucket (env : AddrEnv) (nKey : List UInt8) (info : NetService) : ℕ :=
  let hash1 := env.getHash [.inl nKey, .inl info.getKey]
  let hash2 := env.getHash [.inl nKey, .inl (env.getGroup info.ip), .inr (hash1 % 4)]
  hash2.toNat % addrmanTriedBucketCount

def getNewBucket (env : AddrEnv) (nKey : List UInt8) (info : NetService) (src : NetAddr) : ℕ :=
  let vchSourceGroupKey := env.getGroup src
  let hash1 := env.getHash [.inl nKey, .inl (env.getGroup info.ip), .inl vchSourceGroupKey]
  let hash2 := env.getHash [.inl nKey, .inl vchSourceGroupKey, .inr (hash1 % 32)]
  hash2.toNat % addrmanNewBucketCount

structure AddrMan where
  nKey : List UInt8
  nIdCount : ℤ
  mapInfo : AList fun _ : ℤ => AddrInfo
  mapAddr : AList fun _ : NetAddr => ℤ
  vRandom : List ℤ
  nTried : ℤ
  vvTried : List (List ℤ)
  nNew : ℤ
  vvNew : List (Finset ℤ)

/-- What a call draws: `GetRandInt(nMax)` is one of the numbers modulo `nMax`. -/
abbrev Draws := ℕ → ℕ

namespace AddrMan

/-- The constructor. -/
def empty (nKey : List UInt8) : AddrMan where
  nKey := nKey
  nIdCount := 0
  mapInfo := ∅
  mapAddr := ∅
  vRandom := []
  nTried := 0
  vvTried := .replicate addrmanTriedBucketCount []
  nNew := 0
  vvNew := .replicate addrmanNewBucketCount ∅

def setInfo (s : AddrMan) (nId : ℤ) (info : AddrInfo) : AddrMan :=
  { s with mapInfo := s.mapInfo.insert nId info }

/-- `Find`, with the id. -/
def find (s : AddrMan) (addr : NetAddr) : Option (ℤ × AddrInfo) := do
  let nId ← s.mapAddr.lookup addr
  let info ← s.mapInfo.lookup nId
  return (nId, info)

def create (s : AddrMan) (addr : NetAddress) (addrSource : NetAddr) : ℤ × AddrInfo × AddrMan :=
  let nId := s.nIdCount
  let info := { AddrInfo.ofAddress addr addrSource with nRandomPos := s.vRandom.length }
  (nId, info, { s with
    nIdCount := s.nIdCount + 1
    mapInfo := s.mapInfo.insert nId info
    mapAddr := s.mapAddr.insert addr.ip nId
    vRandom := s.vRandom ++ [nId] })

def swapRandom (s : AddrMan) (nRndPos1 nRndPos2 : ℤ) : Option AddrMan :=
  if nRndPos1 = nRndPos2 then some s
  else if nRndPos1 < 0 ∨ nRndPos2 < 0 then none
  else do
    let nId1 ← s.vRandom[nRndPos1.toNat]?
    let nId2 ← s.vRandom[nRndPos2.toNat]?
    let info1 ← s.mapInfo.lookup nId1
    let s := s.setInfo nId1 { info1 with nRandomPos := nRndPos2 }
    let info2 ← s.mapInfo.lookup nId2
    let s := s.setInfo nId2 { info2 with nRandomPos := nRndPos1 }
    return { s with vRandom := (s.vRandom.set nRndPos1.toNat nId2).set nRndPos2.toNat nId1 }

/-- What `ShrinkNew` does with the entry that it takes from a bucket. -/
def removeNew (s : AddrMan) (nUBucket : ℕ) (nId : ℤ) : Option AddrMan := do
  let vNew ← s.vvNew[nUBucket]?
  let info ← s.mapInfo.lookup nId
  let info := { info with nRefCount := info.nRefCount - 1 }
  let s := s.setInfo nId info
  let s ← if info.nRefCount = 0 then do
      let s ← s.swapRandom info.nRandomPos (s.vRandom.length - 1)
      pure { s with
        vRandom := s.vRandom.dropLast
        mapAddr := s.mapAddr.erase info.ip
        mapInfo := s.mapInfo.erase nId
        nNew := s.nNew - 1 }
    else pure s
  return { s with vvNew := s.vvNew.set nUBucket (vNew.erase nId) }

/-- The first of the entries that is terrible, if one is. They are looked at one after the other. -/
def firstTerrible (s : AddrMan) (nNow : ℤ → ℤ) : List ℤ → Option (Option ℤ)
  | [] => some none
  | nId :: vNew => do
    let info ← s.mapInfo.lookup nId
    if info.isTerrible (nNow nId) then return some nId
    else firstTerrible s nNow vNew

/-- The oldest of the entries at certain places, by `nTime`. -/
def oldestOf (s : AddrMan) (n : List ℕ) : ℕ → List ℤ → ℤ → Option ℤ
  | _, [], nOldest => some nOldest
  | nI, nId :: vNew, nOldest =>
    if nI ∈ n then
      if nOldest = -1 then oldestOf s n (nI + 1) vNew nId
      else do
        let info ← s.mapInfo.lookup nId
        let oldest ← s.mapInfo.lookup nOldest
        oldestOf s n (nI + 1) vNew (if info.nTime < oldest.nTime then nId else nOldest)
    else oldestOf s n (nI + 1) vNew nOldest

def shrinkNew (nNow : ℤ → ℤ) (rand : Draws) (s : AddrMan) (nUBucket : ℕ) : Option AddrMan := do
  let vNew ← s.vvNew[nUBucket]?
  let ids := vNew.sort (· ≤ ·)
  match ← s.firstTerrible nNow ids with
  | some nId => s.removeNew nUBucket nId
  | none =>
    -- otherwise the oldest of four that are drawn
    let n := (List.range 4).map fun i => rand i % ids.length
    let nOldest ← s.oldestOf n 0 ids (-1)
    s.removeNew nUBucket nOldest

/-- The ids of a set, as they are gone through. -/
abbrev inOrder (ids : Finset ℤ) : List ℤ := ids.sort (· ≤ ·)

/-- What `SelectTried` reads of the entries. -/
def lastSuccess (s : AddrMan) (nId : ℤ) : Option ℤ := (s.mapInfo.lookup nId).map (·.nLastSuccess)

/-- An entry is taken from all new buckets. -/
def clearNew (s : AddrMan) (nId : ℤ) (info : AddrInfo) : AddrInfo × AddrMan :=
  ({ info with nRefCount := info.nRefCount - (s.vvNew.countP (nId ∈ ·) : ℕ) },
    { s with vvNew := s.vvNew.map (·.erase nId), nNew := s.nNew - 1 })

/-- A tried entry goes back to the bucket that it belongs to, or if that one is full to another
one. -/
def moveBack (env : AddrEnv) (s : AddrMan) (nOld : ℤ) (nOrigin : ℕ) : Option AddrMan := do
  let infoOld ← s.mapInfo.lookup nOld
  let nUBucket := getNewBucket env s.nKey infoOld.toNetService infoOld.source
  let s := s.setInfo nOld { infoOld with fInTried := false, nRefCount := 1 }
  let vNew ← s.vvNew[nUBucket]?
  let vOrigin ← s.vvNew[nOrigin]?
  return { s with
    nNew := s.nNew + 1
    vvNew := if vNew.card < addrmanNewBucketSize then s.vvNew.set nUBucket (insert nOld vNew)
      else s.vvNew.set nOrigin (insert nOld vOrigin) }

def makeTried (env : AddrEnv) (rand : Draws) (s : AddrMan) (info : AddrInfo) (nId : ℤ)
    (nOrigin : ℕ) : Option AddrMan := do
  let vOrigin ← s.vvNew[nOrigin]?
  if nId ∉ vOrigin then none
  else
    let (info, s) := s.clearNew nId info
    if info.nRefCount ≠ 0 then none
    else do
      let nKBucket := getTriedBucket env s.nKey info.toNetService
      let vTried ← s.vvTried[nKBucket]?
      if vTried.length < addrmanTriedBucketSize then
        return { s.setInfo nId { info with fInTried := true } with
          vvTried := s.vvTried.set nKBucket (vTried ++ [nId])
          nTried := s.nTried + 1 }
      else do
        let search ← selectTried s.lastSuccess (fun i => rand i % (vTried.length - i)) vTried
        let nOld ← search.vTried[search.nOldestPos.toNat]?
        let s ← moveBack env (s.setInfo nId info) nOld nOrigin
        return { s.setInfo nId { info with fInTried := true } with
          vvTried := s.vvTried.set nKBucket (search.vTried.set search.nOldestPos.toNat nId) }

/-- The first new bucket that has an entry, from the one that is drawn on. -/
def findBucket (s : AddrMan) (nId : ℤ) (nRnd : ℕ) : Option ℕ :=
  ((List.range s.vvNew.length).map fun n => (n + nRnd) % s.vvNew.length).find? fun nB =>
    decide (nId ∈ s.vvNew.getD nB ∅)

def good (env : AddrEnv) (rand : Draws) (s : AddrMan) (addr : NetService) (nTime : ℤ) :
    Option AddrMan :=
  match s.find addr.ip with
  | none => some s
  | some (nId, info) =>
    if info.toNetService ≠ addr then some s
    else
      let info := { info with
        nLastSuccess := nTime
        nLastTry := nTime
        nTime := .ofInt nTime
        nAttempts := 0 }
      let s := s.setInfo nId info
      if info.fInTried then some s
      else
        match s.findBucket nId (rand 0 % s.vvNew.length) with
        | none => some s
        | some nUBucket => s.makeTried env (fun i => rand (i + 1)) info nId nUBucket

/-- The update of what is known of an address. -/
def update (nNow nTimePenalty : ℤ) (addr : NetAddress) (info : AddrInfo) : AddrInfo :=
  let nTime : ℤ := addr.nTime.toNat
  let fCurrentlyOnline := nNow - nTime < 24 * 60 * 60
  let nUpdateInterval : ℤ := if fCurrentlyOnline then 60 * 60 else 24 * 60 * 60
  { info with
    nTime :=
      if addr.nTime ≠ 0 ∧ (info.nTime = 0 ∨
          (info.nTime.toNat : ℤ) < nTime - nUpdateInterval - nTimePenalty) then
        .ofInt (max 0 (nTime - nTimePenalty))
      else info.nTime
    nServices := info.nServices ||| addr.nServices }

/-- An address goes to a bucket for a source, if it is not there yet. -/
def addToBucket (env : AddrEnv) (nNow : ℤ → ℤ) (rand : Draws) (s : AddrMan) (nId : ℤ)
    (info : AddrInfo) (source : NetAddr) : Option AddrMan := do
  let nUBucket := getNewBucket env s.nKey info.toNetService source
  let vNew ← s.vvNew[nUBucket]?
  if nId ∈ vNew then return s
  else do
    let s := s.setInfo nId { info with nRefCount := info.nRefCount + 1 }
    let s ← if vNew.card = addrmanNewBucketSize then s.shrinkNew nNow rand nUBucket else pure s
    let vNew ← s.vvNew[nUBucket]?
    return { s with vvNew := s.vvNew.set nUBucket (insert nId vNew) }

/-- `Add_`. `nNow` are the times at which `IsTerrible` is asked. -/
def add (env : AddrEnv) (nAdjustedTime : ℤ) (nNow : ℤ → ℤ) (rand : Draws) (s : AddrMan)
    (addr : NetAddress) (source : NetAddr) (nTimePenalty : ℤ) : Option (Bool × AddrMan) :=
  if !env.isRoutable addr.ip then some (false, s)
  else
    match s.find addr.ip with
    | some (nId, info) =>
      let info := update nAdjustedTime nTimePenalty addr info
      let s := s.setInfo nId info
      if addr.nTime = 0 ∨ (info.nTime ≠ 0 ∧ addr.nTime ≤ info.nTime) then some (false, s)
      else if info.fInTried then some (false, s)
      else if info.nRefCount = addrmanNewBucketsPerAddress then some (false, s)
      -- a factor of two for each bucket that it is in already
      else if 1 < 2 ^ info.nRefCount.toNat ∧ rand 0 % 2 ^ info.nRefCount.toNat ≠ 0 then
        some (false, s)
      else (s.addToBucket env nNow (fun i => rand (i + 1)) nId info source).map (false, ·)
    | none =>
      let (nId, info, s) := s.create addr source
      let info := { info with nTime := .ofInt (max 0 ((info.nTime.toNat : ℤ) - nTimePenalty)) }
      let s := { s.setInfo nId info with nNew := s.nNew + 1 }
      (s.addToBucket env nNow rand nId info source).map (true, ·)

def attempt (s : AddrMan) (addr : NetService) (nTime : ℤ) : AddrMan :=
  match s.find addr.ip with
  | none => s
  | some (nId, info) =>
    if info.toNetService ≠ addr then s
    else s.setInfo nId { info with nLastTry := nTime, nAttempts := info.nAttempts + 1 }

def connected (s : AddrMan) (addr : NetService) (nTime : ℤ) : AddrMan :=
  match s.find addr.ip with
  | none => s
  | some (nId, info) =>
    if info.toNetService ≠ addr then s
    else if 20 * 60 < nTime - info.nTime.toNat then s.setInfo nId { info with nTime := .ofInt nTime }
    else s

/-- The loop of `GetAddr_`. -/
def getAddrLoop (rand : Draws) : ℕ → ℕ → AddrMan → Option (List NetAddress × AddrMan)
  | 0, _, s => some ([], s)
  | nNodes + 1, n, s => do
    let nRndPos := rand n % (s.vRandom.length - n) + n
    let s ← s.swapRandom n nRndPos
    let nId ← s.vRandom[n]?
    let info ← s.mapInfo.lookup nId
    let (vAddr, s) ← getAddrLoop rand nNodes (n + 1) s
    return (info.toNetAddress :: vAddr, s)

def getAddr (rand : Draws) (s : AddrMan) : Option (List NetAddress × AddrMan) :=
  getAddrLoop rand (min (23 * s.vRandom.length / 100) 2500) 0 s

end AddrMan

end Beancash
