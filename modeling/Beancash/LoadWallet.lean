import Mathlib.Data.Int.Notation
import Mathlib.Data.List.Basic
import Mathlib.Data.List.Induction
import Mathlib.Logic.Function.Basic

namespace Beancash

inductive DBErrors
  | loadOk | corrupt | noncriticalError | tooNew | loadFail | needRewrite
deriving DecidableEq

def clientVersion : ℤ := 1000000 * 1 + 10000 * 3 + 100 * 0 + 1 * 0

/-- A record of the database as it is unserialized. -/
inductive WalletRecord (PubKey : Type)
  /-- `valid` when it passes `CheckTransaction` and stands under its own hash -/
  | tx (valid : Bool) (nOrderPos : ℤ)
  | acentry (nOrderPos : ℤ)
  /-- "key" or "wkey", `matching` when the public key is that of the private key -/
  | key (vchPubKey : PubKey) (matching : Bool)
  | ckey (vchPubKey : PubKey)
  | keymeta (vchPubKey : PubKey) (nCreateTime : ℤ)
  | pool (nIndex : ℤ) (vchPubKey : PubKey) (nTime : ℤ)
  | mkey (nID : ℕ)
  | version (nFileVersion : ℤ)
  /-- `valid` when it is no longer than a script's element may be -/
  | cscript (valid : Bool)
  /-- "name", "defaultkey", "orderposnext", and types that are not known -/
  | other
  /-- a record that cannot be unserialized -/
  | unreadable (strTypeIsKeyType : Bool)
deriving DecidableEq

/-- The wallet that is loaded, with the fields of `CWalletScanState`. -/
structure LoadingWallet (PubKey : Type) where
  mapKeys : List PubKey
  mapCryptedKeys : List PubKey
  fUseCrypto : Bool
  mapMasterKeys : List ℕ
  mapKeyMetadata : PubKey → Option ℤ
  nTimeFirstKey : ℤ
  setKeyPool : List ℤ
  nKeys : ℕ
  nCKeys : ℕ
  nKeyMeta : ℕ
  fIsEncrypted : Bool
  fAnyUnordered : Bool
  nFileVersion : ℤ

variable {PubKey : Type}

namespace LoadingWallet

/-- A new `CWallet` and a new `CWalletScanState`. -/
def new : LoadingWallet PubKey where
  mapKeys := []
  mapCryptedKeys := []
  fUseCrypto := false
  mapMasterKeys := []
  mapKeyMetadata _ := none
  nTimeFirstKey := 0
  setKeyPool := []
  nKeys := 0
  nCKeys := 0
  nKeyMeta := 0
  fIsEncrypted := false
  fAnyUnordered := false
  nFileVersion := 0

/-- `LoadKey`. A wallet that is crypted is locked while it is loaded. -/
def loadKey (w : LoadingWallet PubKey) (pubkey : PubKey) : Bool × LoadingWallet PubKey :=
  if !w.fUseCrypto then (true, { w with mapKeys := w.mapKeys ++ [pubkey] }) else (false, w)

def setCrypted (w : LoadingWallet PubKey) : Bool × LoadingWallet PubKey :=
  if w.fUseCrypto then (true, w)
  else if w.mapKeys ≠ [] then (false, w)
  else (true, { w with fUseCrypto := true })

def loadCryptedKey (w : LoadingWallet PubKey) (vchPubKey : PubKey) :
    Bool × LoadingWallet PubKey :=
  let (ok, w) := w.setCrypted
  if !ok then (false, w) else (true, { w with mapCryptedKeys := w.mapCryptedKeys ++ [vchPubKey] })

def loadKeyMetadata [DecidableEq PubKey] (w : LoadingWallet PubKey) (pubkey : PubKey)
    (nCreateTime : ℤ) :
    LoadingWallet PubKey :=
  { w with
    nTimeFirstKey := if nCreateTime ≠ 0 ∧ (w.nTimeFirstKey = 0 ∨ nCreateTime < w.nTimeFirstKey)
      then nCreateTime else w.nTimeFirstKey
    mapKeyMetadata := Function.update w.mapKeyMetadata pubkey (some nCreateTime) }

def readKeyValue [DecidableEq PubKey] (w : LoadingWallet PubKey) :
    WalletRecord PubKey → Bool × LoadingWallet PubKey
  | .tx valid nOrderPos =>
    if !valid then (false, w)
    else (true, { w with fAnyUnordered := w.fAnyUnordered || decide (nOrderPos = -1) })
  | .acentry nOrderPos =>
    (true, { w with fAnyUnordered := w.fAnyUnordered || decide (nOrderPos = -1) })
  | .key vchPubKey matching => if !matching then (false, w) else w.loadKey vchPubKey
  | .ckey vchPubKey =>
    let (ok, w) := { w with nCKeys := w.nCKeys + 1 }.loadCryptedKey vchPubKey
    if !ok then (false, w) else (true, { w with fIsEncrypted := true })
  | .keymeta vchPubKey nCreateTime =>
    let w := { w with nKeyMeta := w.nKeyMeta + 1 }.loadKeyMetadata vchPubKey nCreateTime
    -- find earliest key creation time, as wallet birthday
    (true, { w with
      nTimeFirstKey := if w.nTimeFirstKey = 0 ∨ nCreateTime < w.nTimeFirstKey then nCreateTime
        else w.nTimeFirstKey })
  | .pool nIndex vchPubKey nTime =>
    (true, { w with
      setKeyPool := nIndex :: w.setKeyPool
      mapKeyMetadata := if w.mapKeyMetadata vchPubKey = none
        then Function.update w.mapKeyMetadata vchPubKey (some nTime) else w.mapKeyMetadata })
  | .mkey nID =>
    if nID ∈ w.mapMasterKeys then (false, w)
    else (true, { w with mapMasterKeys := nID :: w.mapMasterKeys })
  | .version nFileVersion =>
    (true, { w with nFileVersion := if nFileVersion = 10300 then 300 else nFileVersion })
  | .cscript valid => (valid, w)
  | .other => (true, w)
  | .unreadable _ => (false, w)

end LoadingWallet

def WalletRecord.isKeyType : WalletRecord PubKey → Bool
  | .key _ _ => true
  | .mkey _ => true
  | .ckey _ => true
  | .unreadable strTypeIsKeyType => strTypeIsKeyType
  | _ => false

/-- `LoadWallet` in its loop. -/
structure WalletLoop (PubKey : Type) where
  wallet : LoadingWallet PubKey
  result : DBErrors
  fNoncriticalErrors : Bool

namespace WalletLoop

/-- Losing keys is considered a catastrophic error, anything else we assume the user can live
with. -/
def next [DecidableEq PubKey] (s : WalletLoop PubKey) (record : WalletRecord PubKey) :
    WalletLoop PubKey :=
  let (ok, wallet) := s.wallet.readKeyValue record
  if ok then { s with wallet := wallet }
  else if record.isKeyType then { s with wallet := wallet, result := .corrupt }
  else { s with wallet := wallet, fNoncriticalErrors := true }

end WalletLoop

/-- `CWalletDB::LoadWallet` of a new wallet. `reorderTransactions` is what that function returns for
this wallet. -/
def loadWallet [DecidableEq PubKey] (minversion : Option ℤ) (reorderTransactions : DBErrors)
    (records : List (WalletRecord PubKey)) : DBErrors × LoadingWallet PubKey :=
  if ∃ nMinVersion ∈ minversion, clientVersion < nMinVersion then (.tooNew, .new)
  else
    let s := records.foldl WalletLoop.next ⟨.new, .loadOk, false⟩
    let result := if s.fNoncriticalErrors ∧ s.result = .loadOk then .noncriticalError else s.result
    -- any wallet corruption at all: skip any rewriting or upgrading
    if result ≠ .loadOk then (result, s.wallet)
    else
      -- nTimeFirstKey is only reliable if all keys have metadata
      let w := if s.wallet.nKeys + s.wallet.nCKeys ≠ s.wallet.nKeyMeta
        then { s.wallet with nTimeFirstKey := 1 } else s.wallet
      if w.fIsEncrypted ∧ (w.nFileVersion = 40000 ∨ w.nFileVersion = 50000) then (.needRewrite, w)
      else if w.fAnyUnordered then (reorderTransactions, w)
      else (result, w)

namespace WalletRecord

def plainKey? : WalletRecord PubKey → Option PubKey
  | .key vchPubKey _ => some vchPubKey
  | _ => none

def cryptedKey? : WalletRecord PubKey → Option PubKey
  | .ckey vchPubKey => some vchPubKey
  | _ => none

def keymeta? : WalletRecord PubKey → Option (PubKey × ℤ)
  | .keymeta vchPubKey nCreateTime => some (vchPubKey, nCreateTime)
  | _ => none

end WalletRecord

def plainKeys (records : List (WalletRecord PubKey)) : List PubKey :=
  records.filterMap WalletRecord.plainKey?

def cryptedKeys (records : List (WalletRecord PubKey)) : List PubKey :=
  records.filterMap WalletRecord.cryptedKey?

def keymetas (records : List (WalletRecord PubKey)) : List (PubKey × ℤ) :=
  records.filterMap WalletRecord.keymeta?

theorem filterMap_concat {α β : Type} (f : α → Option β) (l : List α) (a : α) :
    (l ++ [a]).filterMap f = l.filterMap f ++ (f a).toList := by
  rw [List.filterMap_append]
  cases h : f a <;> simp [h]

theorem plainKeys_concat (records : List (WalletRecord PubKey)) (record : WalletRecord PubKey) :
    plainKeys (records ++ [record]) = plainKeys records ++ record.plainKey?.toList :=
  filterMap_concat _ records record

theorem cryptedKeys_concat (records : List (WalletRecord PubKey)) (record : WalletRecord PubKey) :
    cryptedKeys (records ++ [record]) = cryptedKeys records ++ record.cryptedKey?.toList :=
  filterMap_concat _ records record

theorem keymetas_concat (records : List (WalletRecord PubKey)) (record : WalletRecord PubKey) :
    keymetas (records ++ [record]) = keymetas records ++ record.keymeta?.toList :=
  filterMap_concat _ records record

/-- The earliest time so far, as `ReadKeyValue` takes it: 0 is no value, and less than any. -/
def earlier (nTimeFirstKey nCreateTime : ℤ) : ℤ :=
  if nTimeFirstKey = 0 ∨ nCreateTime < nTimeFirstKey then nCreateTime else nTimeFirstKey

theorem earlier_eq (nTimeFirstKey nCreateTime : ℤ) :
    (let first := if nCreateTime ≠ 0 ∧ (nTimeFirstKey = 0 ∨ nCreateTime < nTimeFirstKey)
      then nCreateTime else nTimeFirstKey
    if first = 0 ∨ nCreateTime < first then nCreateTime else first) =
      earlier nTimeFirstKey nCreateTime := by
  unfold earlier
  dsimp only
  split_ifs with h1 h2 h3 <;> omega

/-- What a wallet is after records all of which could be read. -/
structure LoadingWallet.Loaded (records : List (WalletRecord PubKey))
    (w : LoadingWallet PubKey) : Prop where
  nKeys : w.nKeys = 0
  nCKeys : w.nCKeys = (cryptedKeys records).length
  nKeyMeta : w.nKeyMeta = (keymetas records).length
  nTimeFirstKey : w.nTimeFirstKey = ((keymetas records).map Prod.snd).foldl earlier 0
  mapKeys : w.mapKeys = plainKeys records
  mapCryptedKeys : w.mapCryptedKeys = cryptedKeys records
  crypted : w.fUseCrypto = false → cryptedKeys records = []
  plain : w.fUseCrypto = true → plainKeys records = []

namespace LoadingWallet

theorem loaded_new : (new : LoadingWallet PubKey).Loaded [] where
  nKeys := rfl
  nCKeys := rfl
  nKeyMeta := rfl
  nTimeFirstKey := rfl
  mapKeys := rfl
  mapCryptedKeys := rfl
  crypted _ := rfl
  plain _ := rfl

variable {records : List (WalletRecord PubKey)} {w : LoadingWallet PubKey}

theorem Loaded.frame (h : w.Loaded records) {record : WalletRecord PubKey}
    (hplain : record.plainKey? = none) (hcrypted : record.cryptedKey? = none)
    (hmeta : record.keymeta? = none) {w' : LoadingWallet PubKey}
    (hnKeys : w'.nKeys = w.nKeys) (hnCKeys : w'.nCKeys = w.nCKeys)
    (hnKeyMeta : w'.nKeyMeta = w.nKeyMeta) (hfirst : w'.nTimeFirstKey = w.nTimeFirstKey)
    (hkeys : w'.mapKeys = w.mapKeys) (hckeys : w'.mapCryptedKeys = w.mapCryptedKeys)
    (hcrypto : w'.fUseCrypto = w.fUseCrypto) : w'.Loaded (records ++ [record]) := by
  have h1 : plainKeys (records ++ [record]) = plainKeys records := by
    rw [plainKeys_concat, hplain, Option.toList_none, List.append_nil]
  have h2 : cryptedKeys (records ++ [record]) = cryptedKeys records := by
    rw [cryptedKeys_concat, hcrypted, Option.toList_none, List.append_nil]
  have h3 : keymetas (records ++ [record]) = keymetas records := by
    rw [keymetas_concat, hmeta, Option.toList_none, List.append_nil]
  exact {
    nKeys := hnKeys.trans h.nKeys
    nCKeys := by rw [hnCKeys, h2, h.nCKeys]
    nKeyMeta := by rw [hnKeyMeta, h3, h.nKeyMeta]
    nTimeFirstKey := by rw [hfirst, h3, h.nTimeFirstKey]
    mapKeys := by rw [hkeys, h1, h.mapKeys]
    mapCryptedKeys := by rw [hckeys, h2, h.mapCryptedKeys]
    crypted := by rw [hcrypto, h2]; exact h.crypted
    plain := by rw [hcrypto, h1]; exact h.plain }

theorem Loaded.loadKey (h : w.Loaded records) {vchPubKey : PubKey}
    {w' : LoadingWallet PubKey} (hload : w.loadKey vchPubKey = (true, w')) :
    w'.Loaded (records ++ [.key vchPubKey true]) := by
  have h1 : plainKeys (records ++ [.key vchPubKey true]) = plainKeys records ++ [vchPubKey] :=
    plainKeys_concat records _
  have h2 : cryptedKeys (records ++ [.key vchPubKey true]) = cryptedKeys records := by
    rw [cryptedKeys_concat]
    exact List.append_nil _
  have h3 : keymetas (records ++ [.key vchPubKey true]) = keymetas records := by
    rw [keymetas_concat]
    exact List.append_nil _
  rw [LoadingWallet.loadKey] at hload
  cases hcrypto : w.fUseCrypto
  · rw [hcrypto] at hload
    cases hload
    exact {
      nKeys := h.nKeys
      nCKeys := by rw [h2]; exact h.nCKeys
      nKeyMeta := by rw [h3]; exact h.nKeyMeta
      nTimeFirstKey := by rw [h3]; exact h.nTimeFirstKey
      mapKeys := by rw [h1, ← h.mapKeys]
      mapCryptedKeys := by rw [h2]; exact h.mapCryptedKeys
      crypted := fun _ => by rw [h2]; exact h.crypted hcrypto
      plain := fun hplain => absurd hplain Bool.false_ne_true }
  · rw [hcrypto] at hload
    cases hload

theorem setCrypted_eq_true {w' : LoadingWallet PubKey} (hset : w.setCrypted = (true, w')) :
    w' = { w with fUseCrypto := true } ∧ (w.fUseCrypto = false → w.mapKeys = []) := by
  rw [setCrypted] at hset
  cases hcrypto : w.fUseCrypto
  · rw [hcrypto, if_neg Bool.false_ne_true] at hset
    by_cases hkeys : w.mapKeys = []
    · rw [if_neg (not_not.mpr hkeys)] at hset
      cases hset
      exact ⟨rfl, fun _ => hkeys⟩
    · rw [if_pos hkeys] at hset
      cases hset
  · rw [hcrypto, if_pos rfl] at hset
    cases hset
    exact ⟨by rw [← hcrypto], fun hfalse => absurd hfalse Bool.false_ne_true.symm⟩

theorem Loaded.loadCryptedKey (h : w.Loaded records) {vchPubKey : PubKey}
    {w' : LoadingWallet PubKey}
    (hload : { w with nCKeys := w.nCKeys + 1 }.loadCryptedKey vchPubKey = (true, w')) :
    w'.Loaded (records ++ [.ckey vchPubKey]) := by
  have h1 : plainKeys (records ++ [.ckey vchPubKey]) = plainKeys records := by
    rw [plainKeys_concat]
    exact List.append_nil _
  have h2 : cryptedKeys (records ++ [.ckey vchPubKey]) = cryptedKeys records ++ [vchPubKey] :=
    cryptedKeys_concat records _
  have h3 : keymetas (records ++ [.ckey vchPubKey]) = keymetas records := by
    rw [keymetas_concat]
    exact List.append_nil _
  rw [LoadingWallet.loadCryptedKey] at hload
  generalize hset : { w with nCKeys := w.nCKeys + 1 }.setCrypted = set at hload
  obtain ⟨ok, w1⟩ := set
  cases ok
  · cases hload
  · obtain ⟨rfl, hempty⟩ := setCrypted_eq_true hset
    cases hload
    have hplain : plainKeys records = [] := by
      cases hcrypto : w.fUseCrypto
      · rw [← h.mapKeys]
        exact hempty hcrypto
      · exact h.plain hcrypto
    exact {
      nKeys := h.nKeys
      nCKeys := by
        rw [h2, List.length_append]
        exact congrArg (· + 1) h.nCKeys
      nKeyMeta := by rw [h3]; exact h.nKeyMeta
      nTimeFirstKey := by rw [h3]; exact h.nTimeFirstKey
      mapKeys := by rw [h1]; exact h.mapKeys
      mapCryptedKeys := by
        rw [h2]
        exact congrArg (· ++ [vchPubKey]) h.mapCryptedKeys
      crypted := fun hfalse => absurd hfalse Bool.false_ne_true.symm
      plain := fun _ => h1.trans hplain }

theorem Loaded.keymeta [DecidableEq PubKey] (h : w.Loaded records) (vchPubKey : PubKey)
    (nCreateTime : ℤ) :
    (w.readKeyValue (.keymeta vchPubKey nCreateTime)).2.Loaded
      (records ++ [.keymeta vchPubKey nCreateTime]) := by
  have h1 : plainKeys (records ++ [.keymeta vchPubKey nCreateTime]) = plainKeys records := by
    rw [plainKeys_concat]
    exact List.append_nil _
  have h2 : cryptedKeys (records ++ [.keymeta vchPubKey nCreateTime]) = cryptedKeys records := by
    rw [cryptedKeys_concat]
    exact List.append_nil _
  have h3 : keymetas (records ++ [.keymeta vchPubKey nCreateTime]) =
      keymetas records ++ [(vchPubKey, nCreateTime)] :=
    keymetas_concat records _
  exact {
    nKeys := h.nKeys
    nCKeys := by rw [h2]; exact h.nCKeys
    nKeyMeta := by
      rw [h3, List.length_append]
      exact congrArg (· + 1) h.nKeyMeta
    nTimeFirstKey := by
      rw [h3, List.map_append, List.foldl_append, ← h.nTimeFirstKey]
      exact earlier_eq w.nTimeFirstKey nCreateTime
    mapKeys := by rw [h1]; exact h.mapKeys
    mapCryptedKeys := by rw [h2]; exact h.mapCryptedKeys
    crypted := by rw [h2]; exact h.crypted
    plain := by rw [h1]; exact h.plain }

theorem Loaded.readKeyValue [DecidableEq PubKey] (h : w.Loaded records)
    {record : WalletRecord PubKey} {w' : LoadingWallet PubKey}
    (hread : w.readKeyValue record = (true, w')) : w'.Loaded (records ++ [record]) := by
  cases record with
  | tx valid nOrderPos =>
    cases valid
    · cases hread
    · cases hread
      exact h.frame rfl rfl rfl rfl rfl rfl rfl rfl rfl rfl
  | acentry nOrderPos =>
    cases hread
    exact h.frame rfl rfl rfl rfl rfl rfl rfl rfl rfl rfl
  | key vchPubKey matching =>
    cases matching
    · cases hread
    · exact h.loadKey hread
  | ckey vchPubKey =>
    rw [LoadingWallet.readKeyValue] at hread
    generalize hload : { w with nCKeys := w.nCKeys + 1 }.loadCryptedKey vchPubKey = load at hread
    obtain ⟨ok, w1⟩ := load
    cases ok
    · cases hread
    · have h1 := h.loadCryptedKey hload
      cases hread
      exact ⟨h1.nKeys, h1.nCKeys, h1.nKeyMeta, h1.nTimeFirstKey, h1.mapKeys, h1.mapCryptedKeys,
        h1.crypted, h1.plain⟩
  | keymeta vchPubKey nCreateTime =>
    have h1 := h.keymeta vchPubKey nCreateTime
    rwa [hread] at h1
  | pool nIndex vchPubKey nTime =>
    cases hread
    exact h.frame rfl rfl rfl rfl rfl rfl rfl rfl rfl rfl
  | mkey nID =>
    rw [LoadingWallet.readKeyValue] at hread
    by_cases hmem : nID ∈ w.mapMasterKeys
    · rw [if_pos hmem] at hread
      cases hread
    · rw [if_neg hmem] at hread
      cases hread
      exact h.frame rfl rfl rfl rfl rfl rfl rfl rfl rfl rfl
  | version nFileVersion =>
    cases hread
    exact h.frame rfl rfl rfl rfl rfl rfl rfl rfl rfl rfl
  | cscript valid =>
    cases hread
    exact h.frame rfl rfl rfl rfl rfl rfl rfl rfl rfl rfl
  | other =>
    cases hread
    exact h.frame rfl rfl rfl rfl rfl rfl rfl rfl rfl rfl
  | unreadable strTypeIsKeyType => cases hread

end LoadingWallet

theorem loaded_foldl [DecidableEq PubKey] (records : List (WalletRecord PubKey))
    (hresult : (records.foldl WalletLoop.next ⟨.new, .loadOk, false⟩).result = .loadOk)
    (hnoncritical :
      (records.foldl WalletLoop.next ⟨.new, .loadOk, false⟩).fNoncriticalErrors = false) :
    (records.foldl WalletLoop.next ⟨.new, .loadOk, false⟩).wallet.Loaded records := by
  induction records using List.reverseRecOn with
  | nil => exact LoadingWallet.loaded_new
  | append_singleton records record ih =>
    rw [List.foldl_append, List.foldl_cons, List.foldl_nil] at hresult hnoncritical ⊢
    generalize records.foldl WalletLoop.next ⟨.new, .loadOk, false⟩ = s at *
    rw [WalletLoop.next] at hresult hnoncritical ⊢
    generalize hread : s.wallet.readKeyValue record = read at *
    obtain ⟨ok, w⟩ := read
    cases ok
    · cases hkey : record.isKeyType
      · rw [hkey] at hnoncritical
        cases hnoncritical
      · rw [hkey] at hresult
        cases hresult
    · exact (ih hresult hnoncritical).readKeyValue hread

theorem loadWallet_eq_loadOk [DecidableEq PubKey] {minversion : Option ℤ} {reorder : DBErrors}
    {records : List (WalletRecord PubKey)} {w : LoadingWallet PubKey}
    (h : loadWallet minversion reorder records = (.loadOk, w)) :
    ∃ loaded : LoadingWallet PubKey, loaded.Loaded records ∧
      w = if loaded.nKeys + loaded.nCKeys ≠ loaded.nKeyMeta then { loaded with nTimeFirstKey := 1 }
        else loaded := by
  have hloaded := loaded_foldl records
  rw [loadWallet] at h
  generalize records.foldl WalletLoop.next ⟨.new, .loadOk, false⟩ = s at h hloaded
  dsimp only at h
  by_cases hversion : ∃ nMinVersion ∈ minversion, clientVersion < nMinVersion
  · rw [if_pos hversion] at h
    cases h
  rw [if_neg hversion] at h
  by_cases hok : (if s.fNoncriticalErrors = true ∧ s.result = .loadOk then .noncriticalError
      else s.result) = DBErrors.loadOk
  · rw [hok, if_neg (not_not.mpr rfl)] at h
    have herrors : s.result = .loadOk ∧ s.fNoncriticalErrors = false := by
      cases hnoncritical : s.fNoncriticalErrors
      · rw [hnoncritical, if_neg fun hboth => Bool.false_ne_true hboth.1] at hok
        exact ⟨hok, rfl⟩
      · by_cases hresult : s.result = .loadOk
        · rw [hnoncritical, if_pos ⟨rfl, hresult⟩] at hok
          cases hok
        · rw [if_neg fun hboth => hresult hboth.2] at hok
          exact absurd hok hresult
    refine ⟨s.wallet, hloaded herrors.1 herrors.2, ?_⟩
    generalize (if s.wallet.nKeys + s.wallet.nCKeys ≠ s.wallet.nKeyMeta
      then { s.wallet with nTimeFirstKey := 1 } else s.wallet) = checked at h ⊢
    split_ifs at h
    · cases h
    · exact (Prod.mk.inj h).2.symm
    · exact (Prod.mk.inj h).2.symm
  · rw [if_pos hok] at h
    exact absurd (Prod.mk.inj h).1 hok

end Beancash
