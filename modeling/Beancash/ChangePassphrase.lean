import Beancash.KeyStoreRun

namespace Beancash

structure MasterKey where
  vchCryptedKey : List UInt8
  vchSalt : List UInt8
  nDerivationMethod : UInt32
  nDeriveIterations : UInt32
deriving DecidableEq

def setKeyFromPassphrase (env : KeyEnv) (strKeyData : List UInt8) (k : MasterKey) :
    Option (List UInt8 × List UInt8) :=
  if k.nDeriveIterations < 1 ∨ k.vchSalt.length ≠ 8 then none
  else if k.nDerivationMethod = 0 then env.bytesToKey strKeyData k.vchSalt k.nDeriveIterations
  else none

/-- What a passphrase makes of a master key: `SetKeyFromPassphrase`, and then `Decrypt`. -/
def MasterKey.decrypt (env : KeyEnv) (strPassphrase : List UInt8) (k : MasterKey) :
    Option (List UInt8) := do
  let (chKey, chIV) ← setKeyFromPassphrase env strPassphrase k
  env.decrypt chKey chIV k.vchCryptedKey

/-- An encrypted wallet: its store, its master keys, and those that are in the database. -/
structure CryptoWallet extends CryptoKeyStore where
  mapMasterKeys : List (UInt32 × MasterKey)
  storedMasterKeys : UInt32 → Option MasterKey

/-- The loop of `Unlock`. -/
def unlockLoop (env : KeyEnv) (strWalletPassphrase : List UInt8) :
    List (UInt32 × MasterKey) → CryptoKeyStore → Option (Bool × CryptoKeyStore)
  | [], s => some (false, s)
  | (_, k) :: rest, s =>
    match k.decrypt env strWalletPassphrase with
    | none => some (false, s)
    | some vMasterKey => do
      let (fUnlocked, s) ← s.unlock env vMasterKey
      if fUnlocked then return (true, s) else unlockLoop env strWalletPassphrase rest s

namespace CryptoWallet

/-- `CWallet::Unlock` -/
def unlock (env : KeyEnv) (strWalletPassphrase : List UInt8) (w : CryptoWallet) :
    Option (Bool × CryptoWallet) :=
  if !w.isLocked then some (false, w)
  else do
    let (fUnlocked, s) ← unlockLoop env strWalletPassphrase w.mapMasterKeys w.toCryptoKeyStore
    return (fUnlocked, { w with toCryptoKeyStore := s })

def lock (w : CryptoWallet) : CryptoWallet :=
  { w with toCryptoKeyStore := w.toCryptoKeyStore.lock.2 }

end CryptoWallet

/-- What a change of the passphrase depends on: the number of iterations that the timing comes to,
and whether the master key is written. -/
structure ChangeIo where
  nDeriveIterations : MasterKey → UInt32
  fWritten : Bool

/-- The loop of `ChangeWalletPassphrase`, with the master keys that were tried already. -/
def changeLoop (env : KeyEnv) (io : ChangeIo) (strOld strNew : List UInt8) (fWasLocked : Bool) :
    List (UInt32 × MasterKey) → List (UInt32 × MasterKey) → CryptoWallet →
      Option (Bool × CryptoWallet)
  | _, [], w => some (false, w)
  | tried, (nID, k) :: rest, w =>
    match k.decrypt env strOld with
    | none => some (false, w)
    | some vMasterKey => do
      let (fUnlocked, s) ← w.toCryptoKeyStore.unlock env vMasterKey
      let w := { w with toCryptoKeyStore := s }
      if fUnlocked then
        -- the iterations are changed in place
        let nDeriveIterations := io.nDeriveIterations k
        let k := { k with
          nDeriveIterations := if nDeriveIterations < 25000 then 25000 else nDeriveIterations }
        let w := { w with mapMasterKeys := tried ++ (nID, k) :: rest }
        match setKeyFromPassphrase env strNew k with
        | none => return (false, w)
        | some (chKey, chIV) =>
          match env.encrypt chKey chIV vMasterKey with
          | none => return (false, w)
          | some vchCryptedKey =>
            let k := { k with vchCryptedKey := vchCryptedKey }
            let w := { w with
              mapMasterKeys := tried ++ (nID, k) :: rest
              storedMasterKeys :=
                if io.fWritten then Function.update w.storedMasterKeys nID (some k)
                else w.storedMasterKeys }
            return (true, if fWasLocked then w.lock else w)
      else changeLoop env io strOld strNew fWasLocked (tried ++ [(nID, k)]) rest w

def changeWalletPassphrase (env : KeyEnv) (io : ChangeIo) (strOld strNew : List UInt8)
    (w : CryptoWallet) : Option (Bool × CryptoWallet) :=
  changeLoop env io strOld strNew w.isLocked [] w.mapMasterKeys w.lock

namespace CryptoKeyStore

variable {env : KeyEnv} {s : CryptoKeyStore}

/-- Whether a master key is accepted, which it is if it opens the first of the encrypted keys. -/
def opens (env : KeyEnv) (s : CryptoKeyStore) (vMasterKey : List UInt8) : Option Bool :=
  match s.firstCrypted with
  | none => some true
  | some (vchPubKey, vchCryptedSecret) =>
    match decryptSecret env vMasterKey vchCryptedSecret (env.crypto.hash vchPubKey).toList with
    | none => some false
    | some vchSecret =>
      if vchSecret.length ≠ 32 then some false
      else
        (SecretKey.set vchSecret (isCompressedPubKey vchPubKey)).map fun key =>
          decide (env.getPubKey key = vchPubKey)

theorem setCrypted_eq (hcrypted : s.fUseCrypto = true) : s.setCrypted = (true, s) := by
  simp [setCrypted, hcrypted]

theorem lock_eq (hcrypted : s.fUseCrypto = true) : s.lock = (true, { s with vMasterKey := [] }) := by
  simp [lock, setCrypted_eq hcrypted]

theorem unlock_eq (hcrypted : s.fUseCrypto = true) (vMasterKey : List UInt8) :
    s.unlock env vMasterKey = (s.opens env vMasterKey).map fun fUnlocked =>
      (fUnlocked, if fUnlocked then { s with vMasterKey := vMasterKey } else s) := by
  unfold opens unlock
  simp only [setCrypted_eq hcrypted, Bool.not_true, Bool.false_eq_true, if_false]
  cases s.firstCrypted with
  | none => rfl
  | some v =>
    dsimp only
    cases decryptSecret env vMasterKey v.2 (env.crypto.hash v.1).toList with
    | none => rfl
    | some vchSecret =>
      dsimp only
      split
      · rfl
      · cases SecretKey.set vchSecret (isCompressedPubKey v.1) with
        | none => rfl
        | some key =>
          simp only [Option.bind_eq_bind, Option.bind_some, Option.map_some, decide_eq_true_eq]
          split <;> simp_all

theorem opens_vMasterKey (held vMasterKey : List UInt8) :
    opens env { s with vMasterKey := held } vMasterKey = s.opens env vMasterKey := rfl

end CryptoKeyStore

/-- A master key that a passphrase unlocks, between those that were tried before and the others. -/
structure FoundKey where
  tried : List (UInt32 × MasterKey)
  nID : UInt32
  k : MasterKey
  vMasterKey : List UInt8
  rest : List (UInt32 × MasterKey)
deriving DecidableEq

/-- What both loops look for. The search ends without one at a master key that cannot be
decrypted. -/
def findMasterKey (env : KeyEnv) (s : CryptoKeyStore) (strPassphrase : List UInt8) :
    List (UInt32 × MasterKey) → List (UInt32 × MasterKey) → Option (Option FoundKey)
  | _, [] => some none
  | tried, (nID, k) :: rest =>
    match k.decrypt env strPassphrase with
    | none => some none
    | some vMasterKey =>
      match s.opens env vMasterKey with
      | none => none
      | some true => some (some ⟨tried, nID, k, vMasterKey, rest⟩)
      | some false => findMasterKey env s strPassphrase (tried ++ [(nID, k)]) rest

/-- Whether the search gets past some master keys, or ends with one of them. -/
def getsPast (env : KeyEnv) (s : CryptoKeyStore) (strPassphrase : List UInt8) :
    List (UInt32 × MasterKey) → Bool
  | [] => true
  | (_, k) :: rest =>
    match k.decrypt env strPassphrase with
    | none => false
    | some vMasterKey =>
      match s.opens env vMasterKey with
      | none => false
      | some true => true
      | some false => getsPast env s strPassphrase rest

section Loops

variable {env : KeyEnv} {s : CryptoKeyStore} {strPassphrase : List UInt8}

theorem unlockLoop_eq (env : KeyEnv) (strPassphrase : List UInt8) {s : CryptoKeyStore}
    (hcrypted : s.fUseCrypto = true) (tried todo : List (UInt32 × MasterKey)) :
    unlockLoop env strPassphrase todo s =
      (findMasterKey env s strPassphrase tried todo).map fun found =>
        (found.isSome, found.elim s fun found => { s with vMasterKey := found.vMasterKey }) := by
  induction todo generalizing tried with
  | nil => rfl
  | cons e todo ih =>
    obtain ⟨nID, k⟩ := e
    rw [unlockLoop, findMasterKey]
    cases k.decrypt env strPassphrase with
    | none => rfl
    | some vMasterKey =>
      dsimp only
      rw [CryptoKeyStore.unlock_eq hcrypted]
      cases s.opens env vMasterKey with
      | none => rfl
      | some fUnlocked =>
        cases fUnlocked with
        | true => rfl
        | false => exact ih _

theorem findMasterKey_vMasterKey (held : List UInt8) (tried todo : List (UInt32 × MasterKey)) :
    findMasterKey env { s with vMasterKey := held } strPassphrase tried todo =
      findMasterKey env s strPassphrase tried todo := by
  induction todo generalizing tried with
  | nil => rfl
  | cons e todo ih =>
    simp only [findMasterKey, CryptoKeyStore.opens_vMasterKey, ih]

theorem isSome_find_append_iff {tried pre rest : List (UInt32 × MasterKey)} {nID : UInt32}
    {k : MasterKey} {vMasterKey : List UInt8} (hk : k.decrypt env strPassphrase = some vMasterKey)
    (hopens : s.opens env vMasterKey = some true) :
    (findMasterKey env s strPassphrase tried (pre ++ (nID, k) :: rest)).map Option.isSome = some true ↔
      getsPast env s strPassphrase pre = true := by
  induction pre generalizing tried with
  | nil => simp [findMasterKey, getsPast, hk, hopens]
  | cons e pre ih =>
    obtain ⟨_, k'⟩ := e
    rw [List.cons_append, findMasterKey, getsPast]
    cases k'.decrypt env strPassphrase with
    | none => simp
    | some vMasterKey' =>
      dsimp only
      cases s.opens env vMasterKey' with
      | none => simp
      | some fUnlocked =>
        cases fUnlocked with
        | true => simp
        | false => exact ih

end Loops

/-- What is relied on of `EVP_BytesToKey`. -/
structure KeyEnv.Derives (env : KeyEnv) : Prop where
  bytesToKey_eq : ∀ (strKeyData : List UInt8) {chSalt : List UInt8} {nRounds : UInt32},
    1 ≤ nRounds → chSalt.length = 8 → ∃ chKey chIV,
      env.bytesToKey strKeyData chSalt nRounds = some (chKey, chIV) ∧ chKey.length = 32 ∧
        chIV.length = 32

section Change

variable {env : KeyEnv} {io : ChangeIo} {strOld strNew : List UInt8} {fWasLocked : Bool}

/-- A master key that was decrypted can be encrypted with another passphrase, after more rounds. -/
theorem KeyEnv.Sound.reencrypt (henv : env.Sound) (hderives : env.Derives)
    (strNew : List UInt8) {k : MasterKey}
    {vMasterKey : List UInt8} (hk : k.decrypt env strOld = some vMasterKey) {nRounds : UInt32}
    (hrounds : 1 ≤ nRounds) : ∃ chKey chIV vchCryptedKey,
      setKeyFromPassphrase env strNew { k with nDeriveIterations := nRounds } =
        some (chKey, chIV) ∧
      env.encrypt chKey chIV vMasterKey = some vchCryptedKey ∧
      MasterKey.decrypt env strNew
          { k with nDeriveIterations := nRounds, vchCryptedKey := vchCryptedKey } =
        some vMasterKey := by
  obtain ⟨_, hset, -⟩ := Option.bind_eq_some_iff.mp hk
  unfold setKeyFromPassphrase at hset
  split at hset
  · cases hset
  · rename_i hsalt
    split at hset
    · rename_i hmethod
      obtain ⟨chKey, chIV, hbytes, hKey, hIV⟩ :=
        hderives.bytesToKey_eq strNew hrounds (not_not.mp (not_or.mp hsalt).2)
      obtain ⟨c, hencrypt, hdecrypt⟩ := henv.decrypt_encrypt vMasterKey hKey hIV
      have hset' : ∀ vchCryptedKey, setKeyFromPassphrase env strNew
          { k with nDeriveIterations := nRounds, vchCryptedKey := vchCryptedKey } =
            some (chKey, chIV) := by
        intro vchCryptedKey
        rw [setKeyFromPassphrase, if_neg, if_pos hmethod, hbytes]
        rintro (hlt | hne)
        · exact absurd hrounds (UInt32.not_le.mpr hlt)
        · exact hne (not_not.mp (not_or.mp hsalt).2)
      exact ⟨chKey, chIV, c, hset' _, hencrypt, Option.bind_eq_some_iff.mpr ⟨_, hset' c, hdecrypt⟩⟩
    · cases hset

/-- What the loop returns, by what the search finds. -/
def ChangeResult (env : KeyEnv) (strNew : List UInt8) (fWasLocked : Bool) (w : CryptoWallet) :
    Option (Option FoundKey) → Option (Bool × CryptoWallet) → Prop
  | none, r => r = none
  | some none, r => r = some (false, w)
  | some (some found), r => w.opens env found.vMasterKey = some true ∧
    ∃ (k' : MasterKey) (storedMasterKeys : UInt32 → Option MasterKey) (w' : CryptoWallet),
      k'.decrypt env strNew = some found.vMasterKey ∧
      w' = { w with
        vMasterKey := found.vMasterKey
        mapMasterKeys := found.tried ++ (found.nID, k') :: found.rest
        storedMasterKeys := storedMasterKeys } ∧
      r = some (true, if fWasLocked then w'.lock else w')

theorem changeLoop_eq (henv : env.Sound) (hderives : env.Derives) (io : ChangeIo)
    (strOld strNew : List UInt8) (fWasLocked : Bool) {w : CryptoWallet}
    (hcrypted : w.fUseCrypto = true) (tried todo : List (UInt32 × MasterKey)) :
    ChangeResult env strNew fWasLocked w
      (findMasterKey env w.toCryptoKeyStore strOld tried todo)
      (changeLoop env io strOld strNew fWasLocked tried todo w) := by
  induction todo generalizing tried with
  | nil => rfl
  | cons e todo ih =>
    obtain ⟨nID, k⟩ := e
    rw [changeLoop, findMasterKey]
    cases hk : k.decrypt env strOld with
    | none => rfl
    | some vMasterKey =>
      dsimp only
      rw [CryptoKeyStore.unlock_eq hcrypted]
      cases hopens : w.opens env vMasterKey with
      | none => rfl
      | some fUnlocked =>
        cases fUnlocked with
        | false => exact ih _
        | true =>
          have hrounds : 1 ≤ if io.nDeriveIterations k < 25000 then 25000
              else io.nDeriveIterations k := by
            split
            · decide
            · rename_i hmany
              exact UInt32.le_trans (by decide : (1 : UInt32) ≤ 25000) (UInt32.not_lt.mp hmany)
          obtain ⟨chKey, chIV, c, hset, hencrypt, hdecrypt⟩ :=
            henv.reencrypt hderives strNew hk hrounds
          simp only [Option.map_some, Option.bind_eq_bind, Option.bind_some, if_true, hset, hencrypt]
          exact ⟨hopens, _, _, _, hdecrypt, rfl, rfl⟩

/-- The wallet locked, whether a passphrase unlocks it. -/
def CryptoWallet.unlocksWith (env : KeyEnv) (w : CryptoWallet) (strPassphrase : List UInt8) :
    Option Bool :=
  (w.lock.unlock env strPassphrase).map Prod.fst

theorem CryptoWallet.lock_eq {w : CryptoWallet} (hcrypted : w.fUseCrypto = true) :
    w.lock = { w with vMasterKey := [] } := by
  rw [lock, CryptoKeyStore.lock_eq hcrypted]

theorem CryptoWallet.isLocked_lock {w : CryptoWallet} (hcrypted : w.fUseCrypto = true) :
    w.lock.isLocked = true := by
  rw [lock_eq hcrypted]
  simp [CryptoKeyStore.isLocked, hcrypted]

theorem CryptoWallet.unlocksWith_eq {w : CryptoWallet} (hcrypted : w.fUseCrypto = true)
    (strPassphrase : List UInt8) : w.unlocksWith env strPassphrase =
      (findMasterKey env w.toCryptoKeyStore strPassphrase [] w.mapMasterKeys).map
        Option.isSome := by
  have hloop := unlockLoop_eq env strPassphrase (s := { w.toCryptoKeyStore with vMasterKey := [] })
    hcrypted [] w.mapMasterKeys
  rw [findMasterKey_vMasterKey] at hloop
  rw [unlocksWith, unlock, if_neg (by simp [isLocked_lock hcrypted]), lock_eq hcrypted]
  dsimp only
  rw [hloop]
  cases findMasterKey env w.toCryptoKeyStore strPassphrase [] w.mapMasterKeys <;> rfl

/-- What a change of the passphrase should do: when it fails, nothing; when it does not, the new
passphrase unlocks the wallet. The lock stays as it is. -/
structure ChangeRight (env : KeyEnv) (strNew : List UInt8) (w : CryptoWallet) (fRet : Bool)
    (w' : CryptoWallet) : Prop where
  isLocked : w'.isLocked = w.isLocked
  failed : fRet = false → w'.mapMasterKeys = w.mapMasterKeys ∧
    w'.storedMasterKeys = w.storedMasterKeys ∧
    ∀ strPassphrase, w'.unlocksWith env strPassphrase = w.unlocksWith env strPassphrase
  changed : fRet = true → w'.unlocksWith env strNew = some true

/-- Where the old passphrase unlocks no master key, the wallet has to be locked; where it does, the
new one must get past the master keys before, and a wallet that is unlocked needs a master key. -/
def ChangeHolds (env : KeyEnv) (strOld strNew : List UInt8) (w : CryptoWallet) : Prop :=
  match findMasterKey env w.toCryptoKeyStore strOld [] w.mapMasterKeys with
  | none => True
  | some none => w.isLocked = true
  | some (some found) => getsPast env w.toCryptoKeyStore strNew found.tried = true ∧
    (w.isLocked = true ∨ found.vMasterKey ≠ [])

theorem changeRight_failed_iff {w : CryptoWallet} (hcrypted : w.fUseCrypto = true) :
    ChangeRight env strNew w false w.lock ↔ w.isLocked = true := by
  have hlocked := CryptoWallet.isLocked_lock hcrypted
  have hlock := CryptoWallet.lock_eq hcrypted
  constructor
  · intro h
    rw [← h.isLocked]
    exact hlocked
  · intro hwas
    refine ⟨hlocked.trans hwas.symm, fun _ => ⟨by rw [hlock], by rw [hlock], fun p => ?_⟩,
      fun hret => nomatch hret⟩
    rw [CryptoWallet.unlocksWith_eq hcrypted,
      CryptoWallet.unlocksWith_eq (by rw [hlock]; exact hcrypted), hlock, findMasterKey_vMasterKey]

theorem changeRight_changed_iff {w w₁ : CryptoWallet} (hcrypted : w.fUseCrypto = true)
    {tried rest : List (UInt32 × MasterKey)} {nID : UInt32} {k : MasterKey}
    {storedMasterKeys : UInt32 → Option MasterKey} {vMasterKey : List UInt8}
    (hk : k.decrypt env strNew = some vMasterKey) (hopens : w.opens env vMasterKey = some true)
    (hw₁ : w₁ = { w with
      vMasterKey := vMasterKey
      mapMasterKeys := tried ++ (nID, k) :: rest
      storedMasterKeys := storedMasterKeys }) :
    ChangeRight env strNew w true (if w.isLocked then w₁.lock else w₁) ↔
      getsPast env w.toCryptoKeyStore strNew tried = true ∧
        (w.isLocked = true ∨ vMasterKey ≠ []) := by
  have hcrypted₁ : w₁.fUseCrypto = true := by
    rw [hw₁]
    exact hcrypted
  -- locked again or not, the new passphrase unlocks it if it gets that far
  have hnew : ∀ held, CryptoWallet.unlocksWith env { w₁ with vMasterKey := held } strNew = some true ↔
      getsPast env w.toCryptoKeyStore strNew tried = true := by
    intro held
    rw [CryptoWallet.unlocksWith_eq (by exact hcrypted₁), hw₁]
    dsimp only
    rw [findMasterKey_vMasterKey, isSome_find_append_iff hk hopens]
  rcases Bool.eq_false_or_eq_true w.isLocked with hwas | hwas
  · rw [hwas, if_pos rfl, CryptoWallet.lock_eq hcrypted₁]
    constructor
    · intro h
      exact ⟨(hnew []).mp (h.changed rfl), Or.inl rfl⟩
    · rintro ⟨hpast, -⟩
      refine ⟨?_, (fun hret => nomatch hret), fun _ => (hnew []).mpr hpast⟩
      rw [hwas, ← CryptoWallet.lock_eq hcrypted₁]
      exact CryptoWallet.isLocked_lock hcrypted₁
  · have hlocked₁ : w₁.isLocked = vMasterKey.isEmpty := by
      simp [CryptoKeyStore.isLocked, hw₁, hcrypted]
    rw [hwas, if_neg Bool.false_ne_true]
    constructor
    · intro h
      have hsame := h.isLocked
      rw [hlocked₁, hwas, List.isEmpty_eq_false_iff] at hsame
      exact ⟨(hnew w₁.vMasterKey).mp (h.changed rfl), Or.inr hsame⟩
    · rintro ⟨hpast, hkey⟩
      refine ⟨?_, (fun hret => nomatch hret), fun _ => (hnew w₁.vMasterKey).mpr hpast⟩
      rw [hlocked₁, hwas, List.isEmpty_eq_false_iff]
      exact hkey.resolve_left Bool.false_ne_true

end Change

/-- A change of the passphrase of an encrypted wallet does what it should just where
`ChangeHolds`. -/
theorem changeWalletPassphrase_iff (env : KeyEnv) (henv : env.Sound) (hderives : env.Derives)
    (io : ChangeIo) (strOld strNew : List UInt8) (w : CryptoWallet)
    (hcrypted : w.fUseCrypto = true) :
    (∀ fRet w', changeWalletPassphrase env io strOld strNew w = some (fRet, w') →
        ChangeRight env strNew w fRet w') ↔ ChangeHolds env strOld strNew w := by
  have hlock := CryptoWallet.lock_eq hcrypted
  have hresult := changeLoop_eq henv hderives io strOld strNew w.isLocked (w := w.lock)
    (by rw [hlock]; exact hcrypted) [] w.mapMasterKeys
  rw [hlock, findMasterKey_vMasterKey, ← hlock] at hresult
  have hone : ∀ {r : Bool × CryptoWallet}, changeWalletPassphrase env io strOld strNew w = some r →
      ((∀ fRet w', changeWalletPassphrase env io strOld strNew w = some (fRet, w') →
        ChangeRight env strNew w fRet w') ↔ ChangeRight env strNew w r.1 r.2) := by
    intro r hr
    refine ⟨fun h => h r.1 r.2 hr, fun h fRet w' hr' => ?_⟩
    cases hr.symm.trans hr'
    exact h
  unfold ChangeHolds
  cases hfind : findMasterKey env w.toCryptoKeyStore strOld [] w.mapMasterKeys with
  | none =>
    rw [hfind] at hresult
    refine iff_of_true (fun fRet w' h => ?_) trivial
    cases h.symm.trans hresult
  | some found =>
    cases found with
    | none =>
      rw [hfind] at hresult
      exact (hone hresult).trans (changeRight_failed_iff hcrypted)
    | some found =>
      rw [hfind] at hresult
      obtain ⟨hopens, k', storedMasterKeys, w₁, hk', hw₁, hresult⟩ := hresult
      rw [hlock] at hopens hw₁
      exact (hone hresult).trans (changeRight_changed_iff hcrypted hk' hopens hw₁)

namespace Sample

theorem derives_plainKeyEnv : plainKeyEnv.Derives where
  bytesToKey_eq strKeyData chSalt nRounds _ _ := ⟨_, _, rfl, by simp, by simp⟩

def masterKey : MasterKey where
  vchCryptedKey := [1, 2, 3] ++ .replicate 29 0 ++ .replicate 32 9
  vchSalt := .replicate 8 0
  nDerivationMethod := 0
  nDeriveIterations := 25000

/-- A wallet with a key, encrypted with the passphrase `[1, 2, 3]`, and unlocked. -/
def unlockedWallet : CryptoWallet where
  toCryptoKeyStore :=
    let s := (CryptoKeyStore.initial.addKeyPubKey plainKeyEnv firstKey
      (plainKeyEnv.getPubKey firstKey)).2
    { (s.encryptKeys plainKeyEnv (.replicate 32 9)).2 with vMasterKey := .replicate 32 9 }
  mapMasterKeys := [(1, masterKey)]
  storedMasterKeys := Function.update (fun _ => none) 1 (some masterKey)

def changeIo : ChangeIo := ⟨fun _ => 30000, true⟩

end Sample

open Sample in
theorem changeWalletPassphrase_unlocked :
    ∃ w', changeWalletPassphrase plainKeyEnv changeIo [1, 2, 3] [4, 5, 6] unlockedWallet =
        some (true, w') ∧ ChangeRight plainKeyEnv [4, 5, 6] unlockedWallet true w' := by
  have hfind : findMasterKey plainKeyEnv unlockedWallet.toCryptoKeyStore [1, 2, 3] []
      unlockedWallet.mapMasterKeys = some (some ⟨[], 1, masterKey, .replicate 32 9, []⟩) := by
    decide
  have hholds : ChangeHolds plainKeyEnv [1, 2, 3] [4, 5, 6] unlockedWallet := by
    rw [ChangeHolds, hfind]
    exact ⟨rfl, Or.inr (by decide)⟩
  have htrue : (changeWalletPassphrase plainKeyEnv changeIo [1, 2, 3] [4, 5, 6] unlockedWallet).map
      Prod.fst = some true := by
    decide
  obtain ⟨⟨fRet, w'⟩, hchange, rfl⟩ := Option.map_eq_some_iff.mp htrue
  exact ⟨w', hchange, (changeWalletPassphrase_iff plainKeyEnv sound_plainKeyEnv
    derives_plainKeyEnv changeIo [1, 2, 3] [4, 5, 6] unlockedWallet (by decide)).mpr hholds
    true w' hchange⟩

open Sample in
/-- A wrong passphrase locks the wallet. -/
theorem changeWalletPassphrase_locks : ¬∀ (env : KeyEnv) (io : ChangeIo)
    (strOld strNew : List UInt8) (w : CryptoWallet), env.Sound → env.Derives →
    w.fUseCrypto = true → ∀ fRet w',
      changeWalletPassphrase env io strOld strNew w = some (fRet, w') →
        ChangeRight env strNew w fRet w' := by
  intro h
  have hresult : (changeWalletPassphrase plainKeyEnv changeIo [7] [4, 5, 6] unlockedWallet).map
      (fun r => (r.1, r.2.isLocked)) = some (false, true) := by
    decide
  obtain ⟨⟨fRet, w'⟩, hchange, hlocked⟩ := Option.map_eq_some_iff.mp hresult
  have hright := h plainKeyEnv changeIo [7] [4, 5, 6] unlockedWallet sound_plainKeyEnv
    derives_plainKeyEnv (by decide) fRet w' hchange
  have hsame := (congrArg Prod.snd hlocked).symm.trans hright.isLocked
  exact absurd hsame (by decide)

end Beancash
