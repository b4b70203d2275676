import Beancash.Base58
import Beancash.BlockByHeight
import Beancash.Destinations
import Beancash.DumpText
import Beancash.KeyStoreRun
import Beancash.StakeModifier
import Beancash.Wallet

namespace Beancash

/-- What a dump reads and an import changes of a wallet. -/
structure DumpedWallet where
  keystore : CryptoKeyStore
  mapScripts : AList fun _ : KeyID => Script
  fFileBacked : Bool
  /-- `nCreateTime` of each key -/
  mapKeyMetadata : AList fun _ : KeyID => ℤ
  mapAddressBook : AList fun _ : TxDestination => List UInt8
  mapWallet : AList fun _ : Uint256 => WalletTx
  setKeyPool : List Int64

/-- The chain, and what else a dump depends on. -/
structure DumpView where
  finder : BlockFinder
  mapBlockIndex : MapBlockIndex
  clientBuild : List UInt8
  clientDate : List UInt8
  getTime : ℤ
  /-- The public key of `ReadPool`, if it can be read. -/
  readPool : Int64 → Option (List UInt8)
  /-- The file can be opened. -/
  fOpened : Bool

/-- `ExtractAffectedKeys`. It follows script hashes, at most so many times. -/
def extractAffectedKeys (c : Crypto) (w : DumpedWallet) : ℕ → Script → Option (List KeyID)
  | 0, _ => none
  | fuel + 1, script =>
    let r := extractDestinations c script 0
    if !r.answer then some []
    else
      (r.addressRet.mapM fun dest : TxDestination =>
        match dest with
        | .keyID keyId => some (if w.keystore.haveKey keyId then [keyId] else [])
        | .scriptID scriptId =>
          match w.mapScripts.lookup scriptId with
          | none => some []
          | some script => extractAffectedKeys c w fuel script).map List.flatten

def CryptoKeyStore.getKeys (s : CryptoKeyStore) : List KeyID :=
  if !s.fUseCrypto then s.mapKeys.keys else s.mapCryptedKeys.keys

/-- A block that affects a key is noted, if it is lower than the one that was. -/
def noteBlock (pindex : BlockPtr) (mapKeyFirstBlock : AList fun _ : KeyID => BlockPtr)
    (keyid : KeyID) : AList fun _ : KeyID => BlockPtr :=
  match mapKeyFirstBlock.lookup keyid with
  | some first =>
    if BlockPtr.nHeight pindex < BlockPtr.nHeight first then mapKeyFirstBlock.insert keyid pindex
    else mapKeyFirstBlock
  | none => mapKeyFirstBlock

/-- The loop body for a transaction of the wallet. -/
def noteTransaction (c : Crypto) (fuel : ℕ) (v : DumpView) (w : DumpedWallet)
    (mapKeyFirstBlock : AList fun _ : KeyID => BlockPtr) (wtx : WalletTx) :
    Option (AList fun _ : KeyID => BlockPtr) :=
  match v.mapBlockIndex wtx.hashBlock with
  | none => some mapKeyFirstBlock
  | some pindex =>
    -- `IsInMainChain`
    if (v.finder.node.pnext (BlockPtr.hash pindex)).isEmpty ∧ pindex ≠ v.finder.node.pindexBest then
      some mapKeyFirstBlock
    else
      wtx.tx.vout.foldlM (fun mapKeyFirstBlock txout =>
        (extractAffectedKeys c w fuel txout.scriptPubKey).map fun vAffected =>
          vAffected.foldl (noteBlock pindex) mapKeyFirstBlock) mapKeyFirstBlock

/-- The times that are recorded. -/
def recordedBirths (mapKeyMetadata : AList fun _ : KeyID => ℤ) : AList fun _ : KeyID => ℤ :=
  mapKeyMetadata.entries.foldl (fun mapKeyBirth it =>
    if it.2 ≠ 0 then mapKeyBirth.insert it.1 it.2 else mapKeyBirth) ∅

/-- `GetKeyBirthTimes`. Where no time is recorded, it is taken from the first block that affects
the key. -/
def getKeyBirthTimes (c : Crypto) (fuel : ℕ) (v : DumpView) (w : DumpedWallet) :
    Option (AList fun _ : KeyID => ℤ) :=
  let mapKeyBirth := recordedBirths w.mapKeyMetadata
  match v.finder.findBlockByHeight fuel (max 0 ((v.finder.node.nBestHeight : ℤ) - 144)) with
  | .found pindexMax =>
    let setKeys := w.keystore.getKeys.filter fun keyid => (mapKeyBirth.lookup keyid).isNone
    if setKeys = [] then some mapKeyBirth
    else do
      let mapKeyFirstBlock ← (w.mapWallet.entries.map Sigma.snd).foldlM
        (noteTransaction c fuel v w)
        (setKeys.foldl (fun mapKeyFirstBlock keyid => mapKeyFirstBlock.insert keyid pindexMax) ∅)
      -- the time of a block is unsigned
      return mapKeyFirstBlock.entries.foldl (fun mapKeyBirth it =>
        mapKeyBirth.insert it.1 ((it.2.blockTime - 7200) % 2 ^ 32)) mapKeyBirth
  | _ => none

/-- `GetAllReserveKeys`, which throws or asserts that every key of the pool is there. -/
def getAllReserveKeys (c : Crypto) (v : DumpView) (w : DumpedWallet) : Option (List KeyID) :=
  w.setKeyPool.mapM fun id => do
    let vchPubKey ← v.readPool id
    if !isValidPubKey vchPubKey || !w.keystore.haveKey (pubKeyID c vchPubKey) then none
    else return pubKeyID c vchPubKey

/-- The order of `vKeyBirth`. Key IDs are compared as numbers. -/
def birthLE (a b : ℤ × KeyID) : Bool :=
  a.1 < b.1 ||
    (a.1 == b.1 && ByteStream.ofLittleEndian a.2 ≤ ByteStream.ofLittleEndian b.2)

/-- `vKeyBirth` when it is sorted. -/
def sortedBirths (mapKeyBirth : AList fun _ : KeyID => ℤ) : List (ℤ × KeyID) :=
  (mapKeyBirth.entries.map fun it => (it.2, it.1)).mergeSort birthLE

/-- What a dump says of a key beside its time. -/
def dumpField (w : DumpedWallet) (setKeyPool : List KeyID) (keyid : KeyID) : List UInt8 :=
  match w.mapAddressBook.lookup (.keyID keyid) with
  | some label => bytesOf "label=" ++ encodeDumpString label
  | none => if keyid ∈ setKeyPool then bytesOf "reserve=1" else bytesOf "change=1"

/-- The line of a key. -/
def dumpKeyLine (P : Base58Prefixes) (c : Crypto) (lib : DateLibrary) (w : DumpedWallet)
    (setKeyPool : List KeyID) (nTime : ℤ) (keyid : KeyID) (key : SecretKey) : List UInt8 :=
  (BitbeanSecret.setKey P key).toString c ++ bytesOf " " ++ encodeDumpTime lib nTime ++
    bytesOf " " ++ dumpField w setKeyPool keyid ++ bytesOf " # addr=" ++
    (BitbeanAddress.set P (.keyID keyid)).toString c

/-- The loop body for a key, which writes at most one line. `CBitbeanSecret` asserts that the key
is valid. -/
def dumpKeyLines (P : Base58Prefixes) (env : KeyEnv) (lib : DateLibrary) (w : DumpedWallet)
    (setKeyPool : List KeyID) (birth : ℤ × KeyID) : Option (List (List UInt8)) :=
  match w.keystore.getKey env birth.2 with
  | none => some []
  | some none => none
  | some (some key) => some [dumpKeyLine P env.crypto lib w setKeyPool birth.1 birth.2 key]

/-- The lines before the keys. -/
def dumpHeader (lib : DateLibrary) (v : DumpView) : List (List UInt8) :=
  let node := v.finder.node
  [bytesOf "# Wallet dump created by Bean Cash Core " ++ v.clientBuild ++ bytesOf " (" ++
      v.clientDate ++ bytesOf ")",
    bytesOf "# * Created on " ++ encodeDumpTime lib v.getTime,
    bytesOf "# * Best block at time of backup was " ++ decimal node.nBestHeight ++ bytesOf " (" ++
      hashString node.hashBestChain ++ bytesOf "),",
    bytesOf "#   mined on " ++ encodeDumpTime lib (BlockPtr.blockTime node.pindexBest),
    []]

/-- The lines behind the keys. -/
def dumpTrailer : List (List UInt8) := [[], bytesOf "# End of dump"]

/-- `DumpWallet`: what it writes, if it does. -/
def dumpWallet (P : Base58Prefixes) (env : KeyEnv) (lib : DateLibrary) (fuel : ℕ) (v : DumpView)
    (w : DumpedWallet) : Option (List UInt8) :=
  if !w.fFileBacked then none
  else do
    let mapKeyBirth ← getKeyBirthTimes env.crypto fuel v w
    let setKeyPool ← getAllReserveKeys env.crypto v w
    -- without a best block there is no time to write
    if !v.fOpened || v.finder.node.pindexBest.isEmpty then none
    else do
      let lines ← (sortedBirths mapKeyBirth).mapM (dumpKeyLines P env lib w setKeyPool)
      return (dumpHeader lib v ++ lines.flatten ++ dumpTrailer).flatMap (· ++ [10])

/-- `AddKey`. The metadata of the key are written with it, and are there from then on. -/
def DumpedWallet.addKey (env : KeyEnv) (fWritten : KeyID → Bool) (key : SecretKey)
    (w : DumpedWallet) : Bool × DumpedWallet :=
  let pubkey := env.getPubKey key
  let keyid := pubKeyID env.crypto pubkey
  let (fAdded, keystore) := w.keystore.addKeyPubKey env key pubkey
  let w := { w with keystore := keystore }
  if !fAdded then (false, w)
  else if !w.fFileBacked then (true, w)
  else
    let nCreateTime := (w.mapKeyMetadata.lookup keyid).getD 0
    (fWritten keyid, { w with mapKeyMetadata := w.mapKeyMetadata.insert keyid nCreateTime })

/-- The loop over what is behind the time in a line: whether there is a label, and which. -/
def readFields (fuel : ℕ) : List (List UInt8) → Bool × List UInt8 → Option (Bool × List UInt8)
  | [], r => some r
  | str :: vstr, (fLabel, strLabel) =>
    if bytesOf "#" <+: str then some (fLabel, strLabel)
    else
      let fLabel := if str = bytesOf "change=1" then false else fLabel
      let fLabel := if str = bytesOf "reserve=1" then false else fLabel
      if bytesOf "label=" <+: str then do
        let strLabel ← decodeDumpString fuel (str.drop 6)
        readFields fuel vstr (true, strLabel)
      else readFields fuel vstr (fLabel, strLabel)

structure DumpImport where
  wallet : DumpedWallet
  nTimeBegin : ℤ
  fGood : Bool

/-- What is done with a key that the wallet does not have. -/
def DumpImport.addKey (env : KeyEnv) (fWritten : KeyID → Bool) (s : DumpImport) (key : SecretKey)
    (nTime : ℤ) (fLabel : Bool) (strLabel : List UInt8) : DumpImport :=
  let keyid := pubKeyID env.crypto (env.getPubKey key)
  match s.wallet.addKey env fWritten key with
  | (false, wallet) => { s with wallet := wallet, fGood := false }
  | (true, wallet) =>
    let wallet := { wallet with mapKeyMetadata := wallet.mapKeyMetadata.insert keyid nTime }
    { s with
      wallet := if fLabel then { wallet with
          mapAddressBook := wallet.mapAddressBook.insert (.keyID keyid) strLabel } else wallet
      nTimeBegin := min s.nTimeBegin nTime }

/-- The loop body for a line; `none` if it does not end, or if a key is not valid and has no
public key. -/
def importDumpLine (P : Base58Prefixes) (env : KeyEnv) (lib : DateLibrary)
    (fWritten : KeyID → Bool) (fuel : ℕ) (s : DumpImport) (line : List UInt8) : Option DumpImport :=
  if line = [] ∨ line.head? = some 35 then some s
  else
    match line.splitOn 32 with
    | vstr0 :: vstr1 :: vstr =>
      let (fSet, vchSecret) := BitbeanSecret.setString P env.crypto vstr0
      if !fSet then some s
      else do
        let key ← BitbeanSecret.getKey vchSecret
        if s.wallet.keystore.haveKey (pubKeyID env.crypto (env.getPubKey key)) then some s
        else do
          let (fLabel, strLabel) ← readFields fuel vstr (true, [])
          return s.addKey env fWritten key (decodeDumpTime lib vstr1) fLabel strLabel
    | _ => some s

/-- `ImportWallet` of a file that can be opened, up to the rescan. -/
def importDump (P : Base58Prefixes) (env : KeyEnv) (lib : DateLibrary) (fWritten : KeyID → Bool)
    (fuel : ℕ) (pindexBest : BlockPtr) (file : List UInt8) (w : DumpedWallet) : Option DumpImport :=
  if !w.fFileBacked then some ⟨w, BlockPtr.blockTime pindexBest, false⟩
  -- without a best block there is no time to begin with
  else if pindexBest = [] then none
  else
    (file.splitOn 10).foldlM (importDumpLine P env lib fWritten fuel)
      ⟨w, BlockPtr.blockTime pindexBest, true⟩

end Beancash
