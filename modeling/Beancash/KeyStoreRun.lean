import Beancash.CryptoKeyStore

namespace Beancash

open ByteStream

/-- What is relied on of OpenSSL: a public key is compressed as its key says, decryption with the
key and the IV of an encryption undoes it, and another key does not give the secret of the same
public key. -/
structure KeyEnv.Sound (env : KeyEnv) : Prop where
  isCompressed_getPubKey : ∀ key, isCompressedPubKey (env.getPubKey key) = key.fCompressed
  decrypt_encrypt : ∀ {chKey chIV : List UInt8} (vchPlaintext : List UInt8), chKey.length = 32 →
    chIV.length = 32 → ∃ vchCiphertext, env.encrypt chKey chIV vchPlaintext = some vchCiphertext ∧
      env.decrypt chKey chIV vchCiphertext = some vchPlaintext
  wrong_key : ∀ {chKey chKey' chIV vchCiphertext : List UInt8} {key key' : SecretKey},
    chKey.length = 32 → chKey'.length = 32 → chKey' ≠ chKey →
    env.encrypt chKey chIV key.vch = some vchCiphertext →
    env.decrypt chKey' chIV vchCiphertext = some key'.vch →
    env.getPubKey key' ≠ env.getPubKey key

/-- A call as it is made: the public key is that of the key, and a master key to encrypt with has
32 bytes. -/
def KeyStoreCall.Proper (env : KeyEnv) : KeyStoreCall → Prop
  | .addKeyPubKey key pubkey => pubkey = env.getPubKey key
  | .encryptKeys vMasterKeyIn => vMasterKeyIn.length = 32
  | _ => True

/-- The IV for a public key. -/
def keyIV (env : KeyEnv) (vchPubKey : List UInt8) : List UInt8 := (env.crypto.hash vchPubKey).toList

theorem length_keyIV (env : KeyEnv) (vchPubKey : List UInt8) : (keyIV env vchPubKey).length = 32 :=
  Vector.length_toList

theorem encryptSecret_eq {env : KeyEnv} {m vchPlaintext vchPubKey : List UInt8}
    (hm : m.length = 32) : encryptSecret env m vchPlaintext (keyIV env vchPubKey) =
      env.encrypt m (keyIV env vchPubKey) vchPlaintext := by
  simp [encryptSecret, setKey, hm, length_keyIV]

theorem decryptSecret_eq {env : KeyEnv} {m vchCiphertext vchPubKey : List UInt8}
    (hm : m.length = 32) : decryptSecret env m vchCiphertext (keyIV env vchPubKey) =
      env.decrypt m (keyIV env vchPubKey) vchCiphertext := by
  simp [decryptSecret, setKey, hm, length_keyIV]

/-- What `mapCryptedKeys` has for a key under a master key. -/
def cryptedKey (env : KeyEnv) (m : List UInt8) (key : SecretKey) : Option (List UInt8 × List UInt8) :=
  (encryptSecret env m key.vch (keyIV env (env.getPubKey key))).map (env.getPubKey key, ·)

theorem KeyEnv.Sound.cryptedKey_eq {env : KeyEnv} (henv : env.Sound) {m : List UInt8}
    (hm : m.length = 32) (key : SecretKey) : ∃ vchCryptedSecret,
      encryptSecret env m key.vch (keyIV env (env.getPubKey key)) = some vchCryptedSecret ∧
      cryptedKey env m key = some (env.getPubKey key, vchCryptedSecret) ∧
      decryptSecret env m vchCryptedSecret (keyIV env (env.getPubKey key)) = some key.vch := by
  obtain ⟨c, hencrypt, hdecrypt⟩ :=
    henv.decrypt_encrypt key.vch hm (length_keyIV env (env.getPubKey key))
  have hsecret := (encryptSecret_eq hm).trans hencrypt
  exact ⟨c, hsecret, by rw [cryptedKey, hsecret]; rfl, (decryptSecret_eq hm).trans hdecrypt⟩

theorem KeyEnv.Sound.eq_of_decryptSecret {env : KeyEnv} (henv : env.Sound)
    {m m' vchPubKey vchCryptedSecret vchSecret : List UInt8} (hm : m.length = 32)
    {key key' : SecretKey} {fCompressed : Bool}
    (hkey : cryptedKey env m key = some (vchPubKey, vchCryptedSecret))
    (hsecret : decryptSecret env m' vchCryptedSecret (keyIV env vchPubKey) = some vchSecret)
    (hset : SecretKey.set vchSecret fCompressed = some key')
    (hpub : env.getPubKey key' = vchPubKey) : m' = m := by
  by_contra hne
  obtain ⟨c, hencrypt, heq⟩ := Option.map_eq_some_iff.mp hkey
  obtain ⟨rfl, rfl⟩ := Prod.mk.inj heq
  rw [encryptSecret_eq hm] at hencrypt
  have hm' : m'.length = 32 := by
    by_contra hlength
    simp [decryptSecret, setKey, hlength] at hsecret
  rw [decryptSecret_eq hm'] at hsecret
  unfold SecretKey.set at hset
  split at hset
  · cases hset
    exact henv.wrong_key hm hm' hne hencrypt hsecret hpub
  · cases hset

theorem CryptoKeyStore.lookup_of_firstCrypted {s : CryptoKeyStore} {v : List UInt8 × List UInt8}
    (h : s.firstCrypted = some v) : ∃ id, s.mapCryptedKeys.lookup id = some v := by
  obtain ⟨e, hmem, rfl⟩ := Option.map_eq_some_iff.mp h
  exact ⟨e.1, AList.mem_lookup_iff.mpr (List.argmin_mem hmem)⟩

theorem CryptoKeyStore.addCryptedKey_eq {env : KeyEnv} {s : CryptoKeyStore}
    (hcrypted : s.fUseCrypto = true) (vchPubKey vchCryptedSecret : List UInt8) :
    s.addCryptedKey env vchPubKey vchCryptedSecret = (true, { s with
      mapCryptedKeys := s.mapCryptedKeys.insert (pubKeyID env.crypto vchPubKey)
        (vchPubKey, vchCryptedSecret) }) := by
  simp [addCryptedKey, setCrypted, hcrypted]

theorem encryptLoop_spec {env : KeyEnv} (henv : env.Sound) {m : List UInt8} (hm : m.length = 32)
    {rest : List (Sigma fun _ : KeyID => SecretKey)} {s : CryptoKeyStore}
    (hcrypted : s.fUseCrypto = true)
    (hkeyed : ∀ e ∈ rest, pubKeyID env.crypto (env.getPubKey e.2) = e.1) (hnodup : rest.NodupKeys) :
    ∃ mapCryptedKeys, CryptoKeyStore.encryptLoop env m rest s =
        (true, { s with mapKeys := ∅, mapCryptedKeys := mapCryptedKeys }) ∧
      ∀ id, mapCryptedKeys.lookup id =
        ((rest.dlookup id).bind (cryptedKey env m)).or (s.mapCryptedKeys.lookup id) := by
  induction rest generalizing s with
  | nil => exact ⟨s.mapCryptedKeys, rfl, fun id => rfl⟩
  | cons e rest ih =>
    obtain ⟨id₀, key⟩ := e
    have hid : pubKeyID env.crypto (env.getPubKey key) = id₀ := hkeyed _ List.mem_cons_self
    rw [List.nodupKeys_cons] at hnodup
    obtain ⟨c, hencrypt, hkey, -⟩ := henv.cryptedKey_eq hm key
    rw [keyIV] at hencrypt
    simp only [CryptoKeyStore.encryptLoop, hencrypt, CryptoKeyStore.addCryptedKey_eq hcrypted,
      hid, if_true]
    obtain ⟨mapCryptedKeys, hloop, hlookup⟩ := ih (s := { s with
      mapCryptedKeys := s.mapCryptedKeys.insert id₀ (env.getPubKey key, c) }) hcrypted
      (fun e he => hkeyed e (List.mem_cons_of_mem _ he)) hnodup.2
    refine ⟨mapCryptedKeys, hloop, fun id => ?_⟩
    rw [hlookup]
    by_cases hsame : id = id₀
    · rw [hsame, List.dlookup_eq_none.mpr hnodup.1, List.dlookup_cons_eq, AList.lookup_insert,
        Option.bind_some, hkey]
      rfl
    · rw [List.dlookup_cons_ne rest ⟨id₀, key⟩ hsame, AList.lookup_insert_ne hsame]

/-- What holds between calls. In the clear the map is what was added; encrypted it is what was added,
under one master key, which is the one that is held if any key is there. -/
structure KeyStoreInv (env : KeyEnv) (s : CryptoKeyStore) (added : AddedKeys) : Prop where
  keyed : ∀ id key, added id = some key → pubKeyID env.crypto (env.getPubKey key) = id
  plain : s.fUseCrypto = false →
    (∀ id, s.mapKeys.lookup id = added id) ∧ s.mapCryptedKeys = ∅ ∧ s.vMasterKey = []
  crypted : s.fUseCrypto = true → s.mapKeys = ∅ ∧ ∃ m : List UInt8, m.length = 32 ∧
    (∀ id, s.mapCryptedKeys.lookup id = (added id).bind (cryptedKey env m)) ∧
    ∀ id key, added id = some key → s.vMasterKey = [] ∨ s.vMasterKey = m

variable {env : KeyEnv} {s : CryptoKeyStore} {added : AddedKeys}

theorem keyStoreInv_initial (env : KeyEnv) : KeyStoreInv env .initial fun _ => none where
  keyed _ _ h := by cases h
  plain _ := ⟨fun _ => rfl, rfl, rfl⟩
  crypted h := by cases h

theorem entries_isEmpty_iff {β : Type} (l : AList fun _ : KeyID => β) :
    l.entries.isEmpty = true ↔ l = ∅ := by
  rw [List.isEmpty_iff]
  exact ⟨fun h => AList.ext h, fun h => h ▸ rfl⟩

namespace KeyStoreInv

theorem setCrypted (h : KeyStoreInv env s added) : KeyStoreInv env s.setCrypted.2 added ∧
    (s.setCrypted = (false, s) ∨ s.setCrypted.1 = true ∧ s.setCrypted.2.fUseCrypto = true) := by
  unfold CryptoKeyStore.setCrypted
  split
  · rename_i hcrypted
    exact ⟨h, Or.inr ⟨rfl, hcrypted⟩⟩
  · rename_i hplain
    rw [Bool.not_eq_true] at hplain
    obtain ⟨hkeys, hcrypted, hmaster⟩ := h.plain hplain
    split
    · exact ⟨h, Or.inl rfl⟩
    · rename_i hempty
      rw [Bool.not_eq_true', Bool.not_eq_false, entries_isEmpty_iff] at hempty
      refine ⟨⟨h.keyed, (fun hfalse => nomatch hfalse), fun _ => ?_⟩, Or.inr ⟨rfl, rfl⟩⟩
      refine ⟨hempty, .replicate 32 0, List.length_replicate, fun id => ?_, fun _ _ _ => Or.inl hmaster⟩
      have hnone := hkeys id
      rw [hempty, AList.lookup_empty] at hnone
      rw [← hnone, hcrypted, AList.lookup_empty, Option.bind_none]

theorem lock (h : KeyStoreInv env s added) : KeyStoreInv env s.lock.2 added := by
  obtain ⟨hset, hcases⟩ := h.setCrypted
  unfold CryptoKeyStore.lock
  dsimp only
  split
  · exact hset
  · refine ⟨hset.keyed, fun hplain => ?_, fun hcrypted => ?_⟩
    · obtain ⟨hkeys, hcrypted, -⟩ := hset.plain hplain
      exact ⟨hkeys, hcrypted, rfl⟩
    · obtain ⟨hkeys, m, hm, hlookup, -⟩ := hset.crypted hcrypted
      exact ⟨hkeys, m, hm, hlookup, fun _ _ _ => Or.inl rfl⟩

theorem added_eq_none (h : KeyStoreInv env s added) (hcrypted : s.fUseCrypto = true)
    (henv : env.Sound) (hempty : s.mapCryptedKeys.entries = []) (id : KeyID) : added id = none := by
  obtain ⟨-, m, hm, hlookup, -⟩ := h.crypted hcrypted
  cases hid : added id with
  | none => rfl
  | some key =>
    obtain ⟨c, -, hkey, -⟩ := henv.cryptedKey_eq hm key
    have hsome := hlookup id
    rw [hid, Option.bind_some, hkey] at hsome
    have hnil : s.mapCryptedKeys = ∅ := AList.ext hempty
    rw [hnil, AList.lookup_empty] at hsome
    cases hsome

/-- A master key is kept that opens the first of the encrypted keys: then it opens them all. -/
theorem unlock (h : KeyStoreInv env s added) (henv : env.Sound) {vMasterKeyIn : List UInt8}
    {r : Bool × CryptoKeyStore} (hr : s.unlock env vMasterKeyIn = some r) :
    KeyStoreInv env r.2 added := by
  obtain ⟨hset, hcases⟩ := h.setCrypted
  unfold CryptoKeyStore.unlock at hr
  dsimp only at hr
  generalize s.setCrypted = set at hr hset hcases
  obtain ⟨fCrypted, s'⟩ := set
  cases fCrypted with
  | false =>
    cases hr
    exact hset
  | true =>
    obtain ⟨-, hcrypted⟩ := hcases.resolve_left (by simp)
    obtain ⟨hkeys, m, hm, hlookup, -⟩ := hset.crypted hcrypted
    have hkept : ∀ {vMasterKey : List UInt8},
        (∀ id key, added id = some key → vMasterKey = [] ∨ vMasterKey = m) →
        KeyStoreInv env { s' with vMasterKey := vMasterKey } added := fun hmaster =>
      ⟨h.keyed, fun hplain => (Bool.eq_false_iff.mp hplain hcrypted).elim,
        fun _ => ⟨hkeys, m, hm, hlookup, hmaster⟩⟩
    simp only [Bool.not_true, Bool.false_eq_true, if_false] at hr
    split at hr
    · rename_i hfirst
      cases hr
      apply hkept
      intro id key hid
      rw [CryptoKeyStore.firstCrypted, Option.map_eq_none_iff, List.argmin_eq_none] at hfirst
      rw [hset.added_eq_none hcrypted henv hfirst] at hid
      cases hid
    · rename_i vchPubKey vchCryptedSecret hfirst
      obtain ⟨id, hid⟩ := CryptoKeyStore.lookup_of_firstCrypted hfirst
      rw [hlookup, Option.bind_eq_some_iff] at hid
      obtain ⟨key, -, hkey⟩ := hid
      split at hr
      · cases hr
        exact hset
      · rename_i vchSecret hsecret
        split at hr
        · cases hr
          exact hset
        · obtain ⟨key', hset', hr⟩ := Option.bind_eq_some_iff.mp hr
          split at hr
          · rename_i hpub
            cases hr
            exact hkept fun _ _ _ =>
              Or.inr (henv.eq_of_decryptSecret hm hkey hsecret hset' hpub)
          · cases hr
            exact hset

theorem addKeyPubKey (h : KeyStoreInv env s added) (key : SecretKey) :
    KeyStoreInv env (s.addKeyPubKey env key (env.getPubKey key)).2
      (KeyStoreCall.added env (s.addKeyPubKey env key (env.getPubKey key)).1 added
        (.addKeyPubKey key (env.getPubKey key))) := by
  have hkeyed : ∀ id k, Function.update added (pubKeyID env.crypto (env.getPubKey key)) (some key) id =
      some k → pubKeyID env.crypto (env.getPubKey k) = id := by
    intro id k hid
    by_cases hsame : id = pubKeyID env.crypto (env.getPubKey key)
    · rw [hsame, Function.update_self] at hid
      cases hid
      exact hsame.symm
    · rw [Function.update_of_ne hsame] at hid
      exact h.keyed id k hid
  unfold CryptoKeyStore.addKeyPubKey
  rcases Bool.eq_false_or_eq_true s.fUseCrypto with hcrypted | hcrypted
  · rw [if_neg (by simp [hcrypted])]
    split
    · exact h
    · rename_i hunlocked
      split
      · exact h
      · rename_i c hencrypt
        obtain ⟨hkeys, m, hm, hlookup, hmaster⟩ := h.crypted hcrypted
        rw [CryptoKeyStore.addCryptedKey_eq hcrypted]
        change KeyStoreInv env _ (Function.update added _ (some key))
        refine ⟨hkeyed, fun hplain => (Bool.eq_false_iff.mp hplain hcrypted).elim, fun _ => ?_⟩
        have hlength : s.vMasterKey.length = 32 := by
          by_contra hlength
          simp [encryptSecret, setKey, hlength] at hencrypt
        refine ⟨hkeys, s.vMasterKey, hlength, fun id => ?_, fun _ _ _ => Or.inr rfl⟩
        by_cases hsame : id = pubKeyID env.crypto (env.getPubKey key)
        · rw [hsame]
          have hcryptedKey : cryptedKey env s.vMasterKey key = some (env.getPubKey key, c) := by
            rw [cryptedKey, keyIV, hencrypt]
            rfl
          rw [Function.update_self, Option.bind_some, hcryptedKey]
          exact AList.lookup_insert _
        · have hold : s.mapCryptedKeys.lookup id = (added id).bind (cryptedKey env s.vMasterKey) := by
            rw [hlookup]
            cases hid : added id with
            | none => rfl
            | some k =>
              rcases hmaster id k hid with hnil | hsame
              · simp [CryptoKeyStore.isLocked, hcrypted, hnil] at hunlocked
              · rw [hsame]
          rw [Function.update_of_ne hsame, ← hold]
          exact AList.lookup_insert_ne hsame
  · obtain ⟨hkeys, hempty, hmaster⟩ := h.plain hcrypted
    rw [if_pos (by simp [hcrypted])]
    change KeyStoreInv env _ (Function.update added _ (some key))
    refine ⟨hkeyed, fun _ => ⟨fun id => ?_, hempty, hmaster⟩,
      fun htrue => (Bool.eq_false_iff.mp hcrypted htrue).elim⟩
    by_cases hsame : id = pubKeyID env.crypto (env.getPubKey key)
    · rw [hsame, Function.update_self]
      exact AList.lookup_insert _
    · rw [Function.update_of_ne hsame, ← hkeys]
      exact AList.lookup_insert_ne hsame

theorem encryptKeys (h : KeyStoreInv env s added) (henv : env.Sound) {m : List UInt8}
    (hm : m.length = 32) : KeyStoreInv env (s.encryptKeys env m).2 added := by
  unfold CryptoKeyStore.encryptKeys
  split
  · exact h
  · rename_i hnot
    have hplain : s.fUseCrypto = false := by
      by_contra hcrypted
      simp [Bool.not_eq_false _ |>.mp hcrypted] at hnot
    obtain ⟨hkeys, hempty, hmaster⟩ := h.plain hplain
    have hkeyed : ∀ e ∈ s.mapKeys.entries, pubKeyID env.crypto (env.getPubKey e.2) = e.1 := by
      intro e he
      exact h.keyed e.1 e.2 ((hkeys e.1).symm.trans (AList.mem_lookup_iff.mpr he))
    obtain ⟨mapCryptedKeys, hloop, hlookup⟩ := encryptLoop_spec henv hm
      (s := { s with fUseCrypto := true }) rfl hkeyed s.mapKeys.nodupKeys
    rw [hloop]
    refine ⟨h.keyed, (fun hfalse => nomatch hfalse),
      fun _ => ⟨rfl, m, hm, fun id => ?_, fun _ _ _ => Or.inl hmaster⟩⟩
    rw [← hkeys]
    refine (hlookup id).trans ?_
    rw [hempty, AList.lookup_empty, Option.or_none]
    rfl

theorem step (h : KeyStoreInv env s added) (henv : env.Sound) {call : KeyStoreCall}
    (hproper : call.Proper env) {r : Bool × CryptoKeyStore} (hr : call.run env s = some r) :
    KeyStoreInv env r.2 (call.added env r.1 added) := by
  cases call with
  | addKeyPubKey key pubkey =>
    obtain rfl := hproper
    obtain rfl := Option.some.inj hr
    exact h.addKeyPubKey key
  | encryptKeys m =>
    obtain rfl := Option.some.inj hr
    exact h.encryptKeys henv hproper
  | lock =>
    obtain rfl := Option.some.inj hr
    exact h.lock
  | unlock m => exact h.unlock henv hr

theorem run (h : KeyStoreInv env s added) (henv : env.Sound) {calls : List KeyStoreCall}
    (hproper : ∀ call ∈ calls, call.Proper env) {s' : CryptoKeyStore} {added' : AddedKeys}
    (hrun : runKeyStore env calls (s, added) = some (s', added')) : KeyStoreInv env s' added' := by
  induction calls generalizing s added with
  | nil =>
    cases hrun
    exact h
  | cons call calls ih =>
    obtain ⟨r, hcall, hrest⟩ := Option.bind_eq_some_iff.mp hrun
    exact ih (h.step henv (hproper call List.mem_cons_self) hcall)
      (fun c hc => hproper c (List.mem_cons_of_mem call hc)) hrest

theorem haveKey_iff (h : KeyStoreInv env s added) (henv : env.Sound) (id : KeyID) :
    s.haveKey id = true ↔ added id ≠ none := by
  unfold CryptoKeyStore.haveKey
  rcases Bool.eq_false_or_eq_true s.fUseCrypto with hcrypted | hcrypted
  · obtain ⟨-, m, hm, hlookup, -⟩ := h.crypted hcrypted
    rw [if_neg (by simp [hcrypted]), decide_eq_true_eq, ← AList.lookup_isSome, hlookup]
    cases added id with
    | none => simp
    | some key =>
      obtain ⟨c, -, hkey, -⟩ := henv.cryptedKey_eq hm key
      simp [hkey]
  · rw [if_pos (by simp [hcrypted]), decide_eq_true_eq, ← AList.lookup_isSome,
      (h.plain hcrypted).1, ne_eq, ← Option.not_isSome_iff_eq_none, not_not]

theorem getKey_eq (h : KeyStoreInv env s added) (henv : env.Sound) (hunlocked : s.isLocked = false)
    {id : KeyID} {key : SecretKey} (hid : added id = some key) :
    s.getKey env id = some (some key) := by
  unfold CryptoKeyStore.getKey
  rcases Bool.eq_false_or_eq_true s.fUseCrypto with hcrypted | hcrypted
  · obtain ⟨-, m, hm, hlookup, hmaster⟩ := h.crypted hcrypted
    have hheld : s.vMasterKey = m := by
      apply (hmaster id key hid).resolve_left
      intro hnil
      simp [CryptoKeyStore.isLocked, hcrypted, hnil] at hunlocked
    obtain ⟨c, -, hkey, hdecrypt⟩ := henv.cryptedKey_eq hm key
    rw [keyIV] at hdecrypt
    rw [if_neg (by simp [hcrypted]), hlookup, hid, Option.bind_some, hkey, hheld]
    simp [hdecrypt, key.length_vch, henv.isCompressed_getPubKey, key.set_vch]
  · rw [if_pos (by simp [hcrypted]), (h.plain hcrypted).1, hid]
    rfl

theorem getKey_eq_none (h : KeyStoreInv env s added) {id : KeyID} (hid : added id = none) :
    s.getKey env id = none := by
  unfold CryptoKeyStore.getKey
  rcases Bool.eq_false_or_eq_true s.fUseCrypto with hcrypted | hcrypted
  · obtain ⟨-, m, -, hlookup, -⟩ := h.crypted hcrypted
    rw [if_neg (by simp [hcrypted]), hlookup, hid]
    rfl
  · rw [if_pos (by simp [hcrypted]), (h.plain hcrypted).1, hid]
    rfl

end KeyStoreInv

/-- In every run of a key store, from the empty one: it has the keys that were added, and in the
clear none that it has encrypted; its encrypted keys are under one master key; and when it is
unlocked, it gives back the keys that were added. -/
theorem cryptoKeyStore_run (env : KeyEnv) (henv : env.Sound) (calls : List KeyStoreCall)
    (hproper : ∀ call ∈ calls, call.Proper env) {s : CryptoKeyStore} {added : AddedKeys}
    (hrun : runKeyStore env calls (.initial, fun _ => none) = some (s, added)) :
    (∀ id, s.haveKey id = true ↔ added id ≠ none) ∧
      (s.fUseCrypto = true → s.mapKeys = ∅) ∧
      (∃ m : List UInt8, ∀ id v, s.mapCryptedKeys.lookup id = some v →
        ∃ key, added id = some key ∧ v.1 = env.getPubKey key ∧
          encryptSecret env m key.vch (keyIV env v.1) = some v.2) ∧
      (s.isLocked = false → ∀ id key, added id = some key → s.getKey env id = some (some key)) := by
  have hinv := (keyStoreInv_initial env).run henv hproper hrun
  refine ⟨hinv.haveKey_iff henv, fun hcrypted => (hinv.crypted hcrypted).1, ?_,
    fun hunlocked id key hid => hinv.getKey_eq henv hunlocked hid⟩
  rcases Bool.eq_false_or_eq_true s.fUseCrypto with hcrypted | hcrypted
  · obtain ⟨-, m, -, hlookup, -⟩ := hinv.crypted hcrypted
    refine ⟨m, fun id v hv => ?_⟩
    rw [hlookup, Option.bind_eq_some_iff] at hv
    obtain ⟨key, hid, hkey⟩ := hv
    obtain ⟨c, hencrypt, rfl⟩ := Option.map_eq_some_iff.mp hkey
    exact ⟨key, hid, rfl, hencrypt⟩
  · refine ⟨[], fun id v hv => ?_⟩
    rw [(hinv.plain hcrypted).2.1, AList.lookup_empty] at hv
    cases hv

namespace Sample

/-- Hashes that are what is hashed, cut to size. -/
def plainCrypto : Crypto where
  sha1 vch := .ofFn fun i => vch.getD i 0
  sha256 vch := .ofFn fun i => vch.getD i 0
  ripemd160 vch := .ofFn fun i => vch.getD i 0
  verify _ _ _ := false

def plainKeyEnv : KeyEnv where
  crypto := plainCrypto
  getPubKey key :=
    if key.fCompressed then 0x02 :: key.vch else 0x04 :: key.vch ++ .replicate 32 0
  encrypt chKey _ vchPlaintext := some (chKey ++ vchPlaintext)
  decrypt chKey _ vchCiphertext :=
    if vchCiphertext.take 32 = chKey then some (vchCiphertext.drop 32) else none
  bytesToKey strKeyData chSalt _ :=
    some ((strKeyData ++ .replicate 32 0).take 32, (chSalt ++ .replicate 32 0).take 32)

theorem sound_plainKeyEnv : plainKeyEnv.Sound where
  isCompressed_getPubKey key := by
    cases hkey : key.fCompressed <;>
      simp [isCompressedPubKey, plainKeyEnv, hkey, key.length_vch]
  decrypt_encrypt {chKey chIV} vchPlaintext hKey _ :=
    ⟨chKey ++ vchPlaintext, rfl, by simp [plainKeyEnv, ← hKey]⟩
  wrong_key {chKey chKey' chIV c key key'} hKey _ hne hencrypt hdecrypt := by
    obtain rfl := Option.some.inj hencrypt
    simp only [plainKeyEnv, ← hKey, List.take_left] at hdecrypt
    rw [if_neg (Ne.symm hne)] at hdecrypt
    cases hdecrypt

def firstKey : SecretKey := ⟨.replicate 32 1, true, by decide⟩

def secondKey : SecretKey := ⟨.replicate 32 2, false, by decide⟩

/-- One key is added before, and one after the encryption. -/
def keyStoreCalls : List KeyStoreCall :=
  [.addKeyPubKey firstKey (plainKeyEnv.getPubKey firstKey), .encryptKeys (.replicate 32 9),
    .unlock (.replicate 32 9), .addKeyPubKey secondKey (plainKeyEnv.getPubKey secondKey), .lock,
    .unlock (.replicate 32 8), .unlock (.replicate 32 9)]

end Sample

open Sample in
theorem cryptoKeyStore_run_keyStoreCalls :
    ∃ s added, runKeyStore plainKeyEnv keyStoreCalls (.initial, fun _ => none) = some (s, added) ∧
      (∀ id, s.haveKey id = true ↔ added id ≠ none) ∧
      (s.fUseCrypto = true → s.mapKeys = ∅) ∧
      (∃ m : List UInt8, ∀ id v, s.mapCryptedKeys.lookup id = some v →
        ∃ key, added id = some key ∧ v.1 = plainKeyEnv.getPubKey key ∧
          encryptSecret plainKeyEnv m key.vch (keyIV plainKeyEnv v.1) = some v.2) ∧
      (s.isLocked = false → ∀ id key, added id = some key →
        s.getKey plainKeyEnv id = some (some key)) := by
  obtain ⟨⟨s, added⟩, hrun⟩ := Option.isSome_iff_exists.mp (by decide :
    (runKeyStore plainKeyEnv keyStoreCalls (.initial, fun _ => none)).isSome = true)
  refine ⟨s, added, hrun,
    cryptoKeyStore_run plainKeyEnv sound_plainKeyEnv keyStoreCalls ?_ hrun⟩
  simp [keyStoreCalls, KeyStoreCall.Proper]

end Beancash
