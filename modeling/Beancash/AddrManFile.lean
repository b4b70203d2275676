import Beancash.AddrManRuns
import Beancash.Serialize

namespace Beancash

open ByteStream

/-- An `int` -/
def serializeInt (n : ℤ) : List UInt8 := littleEndian 4 (Int32.ofInt n).toUInt32.toNat

def unserializeInt : Read ℤ := (fun n => (UInt32.ofNat n).toInt32.toInt) <$> number 4

/-- An `int64_t` -/
def serializeInt64 (n : ℤ) : List UInt8 := littleEndian 8 (Int64.ofInt n).toUInt64.toNat

def unserializeInt64 : Read ℤ := (fun n => (UInt64.ofNat n).toInt64.toInt) <$> number 8

/-- From this version on addresses are sent with a time. -/
def caddrTimeVersion : Int32 := 31402

namespace NetService

/-- The port is in network byte order. -/
def serialize (service : NetService) : List UInt8 :=
  service.ip ++ (littleEndian 2 service.port.toNat).reverse

def unserialize : Read NetService := do
  let ip ← take 16
  let portN ← take 2
  pure ⟨ip, .ofNat (ofLittleEndian portN.reverse)⟩

end NetService

namespace NetAddress

def hasTime (nType : ℕ) (nVersion : Int32) : Bool :=
  nType &&& serDisk != 0 || (decide (caddrTimeVersion ≤ nVersion) && nType &&& serGetHash == 0)

def serialize (nType : ℕ) (nVersion : Int32) (addr : NetAddress) : List UInt8 :=
  (if nType &&& serDisk != 0 then littleEndian 4 nVersion.toUInt32.toNat else []) ++
    (if hasTime nType nVersion then littleEndian 4 addr.nTime.toNat else []) ++
    littleEndian 8 addr.nServices.toNat ++ addr.toNetService.serialize

/-- A version that was written is used for what comes after it. -/
def unserialize (nType : ℕ) (nVersion : Int32) : Read NetAddress := do
  let nVersion ← (if nType &&& serDisk != 0 then (fun n => (UInt32.ofNat n).toInt32) <$> number 4
    else pure nVersion)
  let nTime ← (if hasTime nType nVersion then UInt32.ofNat <$> number 4 else pure 100000000)
  let nServices ← number 8
  let service ← NetService.unserialize
  pure { service with nServices := .ofNat nServices, nTime := nTime }

end NetAddress

namespace AddrInfo

/-- `CAddrInfo()` -/
def init : AddrInfo :=
  .ofAddress { ip := .replicate 16 0, port := 0, nServices := 1, nTime := 100000000 } (.replicate 16 0)

def serialize (nVersion : Int32) (info : AddrInfo) : List UInt8 :=
  info.toNetAddress.serialize serDisk nVersion ++ info.source ++ serializeInt64 info.nLastSuccess ++
    serializeInt info.nAttempts

/-- What is read over an entry, as it is after the constructor. -/
def unserialize (nVersion : Int32) : Read AddrInfo := do
  let addr ← NetAddress.unserialize serDisk nVersion
  let source ← take 16
  let nLastSuccess ← unserializeInt64
  let nAttempts ← unserializeInt
  pure { AddrInfo.ofAddress addr source with nLastSuccess := nLastSuccess, nAttempts := nAttempts }

end AddrInfo

namespace AddrMan

/-- The new entries are written, as many as there should be. Also `mapUnkIds`. -/
def writeNew (nVersion : Int32) (nNew : ℤ) :
    List (ℤ × AddrInfo) → ℤ → (AList fun _ : ℤ => ℤ) → List UInt8 × AList fun _ : ℤ => ℤ
  | [], _, mapUnkIds => ([], mapUnkIds)
  | (nId, info) :: infos, nIds, mapUnkIds =>
    if nIds = nNew then ([], mapUnkIds)
    else if info.nRefCount ≠ 0 then
      let (bytes, mapUnkIds) := writeNew nVersion nNew infos (nIds + 1) (mapUnkIds.insert nId nIds)
      (info.serialize nVersion ++ bytes, mapUnkIds)
    else writeNew nVersion nNew infos nIds (mapUnkIds.insert nId nIds)

/-- So are the tried ones. -/
def writeTried (nVersion : Int32) (nTried : ℤ) : List (ℤ × AddrInfo) → ℤ → List UInt8
  | [], _ => []
  | (_, info) :: infos, nIds =>
    if nIds = nTried then []
    else if info.fInTried then
      info.serialize nVersion ++ writeTried nVersion nTried infos (nIds + 1)
    else writeTried nVersion nTried infos nIds

/-- A new bucket. -/
def writeBucket (mapUnkIds : AList fun _ : ℤ => ℤ) (vNew : Finset ℤ) : List UInt8 :=
  serializeInt vNew.card ++
    (inOrder vNew).flatMap fun nId => serializeInt ((mapUnkIds.lookup nId).getD 0)

/-- `Serialize`. The byte for the version takes the place of the one that is passed along. -/
def serialize (s : AddrMan) : List UInt8 :=
  let nVersion := 0
  let new := writeNew nVersion s.nNew s.infos 0 ∅
  littleEndian 1 nVersion.toUInt32.toNat ++ serializeBytes s.nKey ++ serializeInt s.nNew ++
    serializeInt s.nTried ++ serializeInt addrmanNewBucketCount ++ new.1 ++
    writeTried nVersion s.nTried s.infos 0 ++ s.vvNew.flatMap (writeBucket new.2)

/-- A new entry that was read. If the buckets are others, it is put into the one that it belongs to. -/
def readNewEntry (env : AddrEnv) (fOtherBuckets : Bool) (s : AddrMan) (n : ℤ) (info : AddrInfo) :
    Option AddrMan := do
  let info := { info with nRandomPos := s.vRandom.length }
  let s := { s with
    mapInfo := s.mapInfo.insert n info
    mapAddr := s.mapAddr.insert info.ip n
    vRandom := s.vRandom ++ [n] }
  if fOtherBuckets then
    let nUBucket := getNewBucket env s.nKey info.toNetService info.source
    let vNew ← s.vvNew[nUBucket]?
    return { s.setInfo n { info with nRefCount := info.nRefCount + 1 } with
      vvNew := s.vvNew.set nUBucket (insert n vNew) }
  else return s

/-- The new entries. -/
def readNew (env : AddrEnv) (nVersion : Int32) (fOtherBuckets : Bool) :
    ℕ → ℤ → AddrMan → Read AddrMan
  | 0, _, s => pure s
  | k + 1, n, s => do
    let info ← AddrInfo.unserialize nVersion
    let s ← StateT.lift (readNewEntry env fOtherBuckets s n info)
    readNew env nVersion fOtherBuckets k (n + 1) s

/-- A tried entry that was read, unless its bucket is full. -/
def readTriedEntry (env : AddrEnv) (s : AddrMan) (nLost : ℤ) (info : AddrInfo) :
    Option (AddrMan × ℤ) := do
  let nKBucket := getTriedBucket env s.nKey info.toNetService
  let vTried ← s.vvTried[nKBucket]?
  if vTried.length < addrmanTriedBucketSize then
    return ({ s with
      vRandom := s.vRandom ++ [s.nIdCount]
      mapInfo := s.mapInfo.insert s.nIdCount
        { info with nRandomPos := s.vRandom.length, fInTried := true }
      mapAddr := s.mapAddr.insert info.ip s.nIdCount
      vvTried := s.vvTried.set nKBucket (vTried ++ [s.nIdCount])
      nIdCount := s.nIdCount + 1 }, nLost)
  else return (s, nLost + 1)

/-- The tried entries, and how many were lost. -/
def readTried (env : AddrEnv) (nVersion : Int32) : ℕ → AddrMan → ℤ → Read (AddrMan × ℤ)
  | 0, s, nLost => pure (s, nLost)
  | k + 1, s, nLost => do
    let info ← AddrInfo.unserialize nVersion
    let (s, nLost) ← StateT.lift (readTriedEntry env s nLost info)
    readTried env nVersion k s nLost

/-- The entries of a new bucket. `mapInfo` has an entry for each id that it is asked for. -/
def readBucket (fOtherBuckets : Bool) :
    ℕ → Finset ℤ → (AList fun _ : ℤ => AddrInfo) → Read (Finset ℤ × AList fun _ : ℤ => AddrInfo)
  | 0, vNew, mapInfo => pure (vNew, mapInfo)
  | k + 1, vNew, mapInfo => do
    let nIndex ← unserializeInt
    let info := (mapInfo.lookup nIndex).getD .init
    if !fOtherBuckets ∧ info.nRefCount < addrmanNewBucketsPerAddress then
      readBucket fOtherBuckets k (insert nIndex vNew)
        (mapInfo.insert nIndex { info with nRefCount := info.nRefCount + 1 })
    else readBucket fOtherBuckets k vNew (mapInfo.insert nIndex info)

/-- The new buckets. -/
def readBuckets (fOtherBuckets : Bool) : ℕ → ℕ → AddrMan → Read AddrMan
  | 0, _, s => pure s
  | k + 1, b, s => do
    let vNew ← StateT.lift s.vvNew[b]?
    let nSize ← unserializeInt
    let (vNew, mapInfo) ← readBucket fOtherBuckets nSize.toNat vNew s.mapInfo
    readBuckets fOtherBuckets k (b + 1) { s with vvNew := s.vvNew.set b vNew, mapInfo := mapInfo }

def unserialize (env : AddrEnv) : Read AddrMan := do
  let nVersion ← (fun n => (UInt32.ofNat n).toInt32) <$> number 1
  let nKey ← unserializeBytes
  let nNew ← unserializeInt
  let nTried ← unserializeInt
  let nUBuckets ← unserializeInt
  let fOtherBuckets := decide (nUBuckets ≠ addrmanNewBucketCount)
  let s ← readNew env nVersion fOtherBuckets nNew.toNat 0
    { empty nKey with nNew := nNew, nTried := nTried }
  let (s, nLost) ← readTried env nVersion nTried.toNat { s with nIdCount := nNew } 0
  readBuckets fOtherBuckets nUBuckets.toNat 0 { s with nTried := s.nTried - nLost }

end AddrMan

/-- What the file depends on: the hash and the network. -/
structure AddrDB where
  hash : List UInt8 → Uint256
  messageStart : List UInt8

namespace AddrDB

/-- `Write`, the bytes of the file. -/
def write (db : AddrDB) (s : AddrMan) : List UInt8 :=
  let ssPeers := db.messageStart ++ s.serialize
  ssPeers ++ littleEndian 32 (db.hash ssPeers).toNat

def read (db : AddrDB) (env : AddrEnv) (file : List UInt8) : Option AddrMan := do
  let dataSize := file.length - 32
  let ((vchData, hashIn), _) ← (do
    let vchData ← take dataSize
    let hashIn ← number 32
    pure (vchData, hashIn) : Read (List UInt8 × ℕ)).run file
  if (.ofNat 256 hashIn : Uint256) ≠ db.hash vchData then none
  else do
    let (pchMsgTmp, ssPeers) ← (take 4).run vchData
    if pchMsgTmp ≠ db.messageStart then none
    else do
      let (s, _) ← (AddrMan.unserialize env).run ssPeers
      return s

end AddrDB

end Beancash
