import Beancash.DumpWallet

namespace Beancash

theorem plain_of_mem_pszBase58 : ∀ ch ∈ pszBase58, 32 < ch ∧ ch ≠ 35 := by decide +kernel

theorem Base58Data.mem_toString (c : Crypto) (d : Base58Data) :
    ∀ ch ∈ d.toString c, ch ∈ pszBase58 := by
  rw [toString, encodeBase58Check, encodeBase58_eq]
  exact mem_charsOf (RadixString.lt_of_mem_changeBase 256 (show 1 < 58 by decide) _)

theorem dumpField_plain (w : DumpedWallet) (setKeyPool : List KeyID) (keyid : KeyID) :
    ∀ ch ∈ dumpField w setKeyPool keyid, 32 < ch := by
  have hfixed : ∀ s ∈ [bytesOf "label=", bytesOf "reserve=1", bytesOf "change=1"],
      ∀ ch ∈ s, 32 < ch := by decide +kernel
  unfold dumpField
  split
  · intro ch hch
    rcases List.mem_append.mp hch with hch | hch
    · exact hfixed _ (by simp) ch hch
    · exact lt_of_mem_encodeDumpString ch hch
  · split
    · exact hfixed _ (by simp)
    · exact hfixed _ (by simp)

section Line

variable (P : Base58Prefixes) (c : Crypto) {lib : DateLibrary} {inRange : ℤ → Prop}
  (w : DumpedWallet) (setKeyPool : List KeyID) (nTime : ℤ) (keyid : KeyID) (key : SecretKey)

/-- What the line of a key is split into. -/
def dumpTokens (lib : DateLibrary) : List (List UInt8) :=
  [(BitbeanSecret.setKey P key).toString c, encodeDumpTime lib nTime, dumpField w setKeyPool keyid,
    bytesOf "#", bytesOf "addr=" ++ (BitbeanAddress.set P (.keyID keyid)).toString c]

theorem dumpTokens_plain (hlib : lib.Sound inRange) :
    ∀ token ∈ dumpTokens P c w setKeyPool nTime keyid key lib, ∀ ch ∈ token, 32 < ch := by
  have hfixed : ∀ s ∈ [bytesOf "#", bytesOf "addr="], ∀ ch ∈ s, 32 < ch := by decide +kernel
  have hbase (d : Base58Data) : ∀ ch ∈ d.toString c, 32 < ch := fun ch hch =>
    (plain_of_mem_pszBase58 ch (d.mem_toString c ch hch)).1
  intro token htoken
  simp only [dumpTokens, List.mem_cons, List.not_mem_nil, or_false] at htoken
  rcases htoken with rfl | rfl | rfl | rfl | rfl
  · exact hbase _
  · exact hlib.plain nTime
  · exact dumpField_plain w setKeyPool keyid
  · exact hfixed _ (by simp)
  · intro ch hch
    rcases List.mem_append.mp hch with hch | hch
    · exact hfixed _ (by simp) ch hch
    · exact hbase _ ch hch

theorem dumpKeyLine_eq : dumpKeyLine P c lib w setKeyPool nTime keyid key =
    [32].intercalate (dumpTokens P c w setKeyPool nTime keyid key lib) := by
  have hspace : bytesOf " " = [32] := by decide
  have haddr : bytesOf " # addr=" = [32] ++ bytesOf "#" ++ [32] ++ bytesOf "addr=" := by decide
  simp only [dumpKeyLine, dumpTokens, hspace, haddr, List.intercalate_cons_cons,
    List.intercalate_singleton, List.append_assoc]

theorem splitOn_dumpKeyLine (hlib : lib.Sound inRange) :
    (dumpKeyLine P c lib w setKeyPool nTime keyid key).splitOn 32 =
      dumpTokens P c w setKeyPool nTime keyid key lib := by
  rw [dumpKeyLine_eq]
  apply List.splitOn_intercalate
  · exact fun token htoken hmem => UInt8.lt_irrefl 32
      (dumpTokens_plain P c w setKeyPool nTime keyid key hlib token htoken 32 hmem)
  · exact List.cons_ne_nil _ _

theorem dumpKeyLine_head :
    ¬(dumpKeyLine P c lib w setKeyPool nTime keyid key = [] ∨
      (dumpKeyLine P c lib w setKeyPool nTime keyid key).head? = some 35) := by
  have hspace : bytesOf " " = [32] := by decide
  have hsecret := ((BitbeanSecret.setKey P key).mem_toString c)
  simp only [dumpKeyLine, hspace, List.append_assoc]
  cases hline : (BitbeanSecret.setKey P key).toString c with
  | nil => simp
  | cons ch str =>
    rw [hline] at hsecret
    have hch := (plain_of_mem_pszBase58 ch (hsecret ch List.mem_cons_self)).2
    simp [hch]

theorem dumpKeyLine_endless (hlib : lib.Sound inRange) :
    10 ∉ dumpKeyLine P c lib w setKeyPool nTime keyid key := by
  have htokens : ∀ token ∈ dumpTokens P c w setKeyPool nTime keyid key lib, 10 ∉ token :=
    fun token htoken hmem => absurd
      (dumpTokens_plain P c w setKeyPool nTime keyid key hlib token htoken 10 hmem) (by decide)
  have hspace : (10 : UInt8) ∉ [32] := by decide
  rw [dumpKeyLine_eq]
  simp only [dumpTokens, List.forall_mem_cons] at htokens
  simp only [dumpTokens, List.intercalate_cons_cons, List.intercalate_singleton, List.mem_append,
    not_or] at htokens ⊢
  obtain ⟨hsecret, htime, hfield, hhash, haddr, -⟩ := htokens
  exact ⟨⟨hsecret, hspace⟩, ⟨htime, hspace⟩, ⟨hfield, hspace⟩, ⟨hhash, hspace⟩, haddr⟩

end Line

theorem dumpField_label {w : DumpedWallet} {keyid : KeyID} {label : List UInt8}
    (setKeyPool : List KeyID) (hlookup : w.mapAddressBook.lookup (.keyID keyid) = some label) :
    dumpField w setKeyPool keyid = bytesOf "label=" ++ encodeDumpString label := by
  rw [dumpField, hlookup]

theorem readFields_label (fuel : ℕ) (label : List UInt8) (vstr : List (List UInt8))
    (r : Bool × List UInt8) :
    readFields fuel ((bytesOf "label=" ++ encodeDumpString label) :: vstr) r =
      (decodeDumpString fuel (encodeDumpString label)).bind fun strLabel =>
        readFields fuel vstr (true, strLabel) := by
  have hcomment : ¬bytesOf "#" <+: bytesOf "label=" ++ encodeDumpString label := by
    rw [show bytesOf "#" = [35] by decide,
      show bytesOf "label=" = [108, 97, 98, 101, 108, 61] by decide]
    simp
  have hdrop : (bytesOf "label=" ++ encodeDumpString label).drop 6 = encodeDumpString label :=
    List.drop_left' (by decide)
  rw [readFields, if_neg hcomment, if_pos (List.prefix_append _ _), hdrop]
  rfl

theorem readFields_dumpField {w : DumpedWallet} {setKeyPool : List KeyID} {keyid : KeyID}
    {fuel : ℕ} (addr : List UInt8)
    (hlabel : ∀ label, w.mapAddressBook.lookup (.keyID keyid) = some label →
      (encodeDumpString label).length < 2 ^ 32 ∧ label.length < fuel) :
    readFields fuel [dumpField w setKeyPool keyid, bytesOf "#", addr] (true, []) =
      some ((w.mapAddressBook.lookup (.keyID keyid)).isSome,
        (w.mapAddressBook.lookup (.keyID keyid)).getD []) := by
  have hend (r : Bool × List UInt8) :
      readFields fuel [bytesOf "#", addr] r = some r := if_pos (List.prefix_refl _)
  cases hlookup : w.mapAddressBook.lookup (.keyID keyid) with
  | none =>
    have hfield : dumpField w setKeyPool keyid = bytesOf "reserve=1" ∨
        dumpField w setKeyPool keyid = bytesOf "change=1" := by
      rw [dumpField, hlookup]
      exact ite_eq_or_eq _ _ _
    rcases hfield with hfield | hfield
    · rw [hfield]
      exact hend (false, [])
    · rw [hfield]
      exact hend (false, [])
  | some label =>
    obtain ⟨hlen, hfuel⟩ := hlabel label hlookup
    rw [dumpField_label setKeyPool hlookup, readFields_label,
      decodeDumpString_encodeDumpString hlen hfuel]
    exact hend (true, label)

theorem readFields_eq_none {w : DumpedWallet} {setKeyPool : List KeyID} {keyid : KeyID} {fuel : ℕ}
    {label : List UInt8} (vstr : List (List UInt8)) {r : Bool × List UInt8}
    (hlookup : w.mapAddressBook.lookup (.keyID keyid) = some label)
    (hlen : 2 ^ 32 ≤ (encodeDumpString label).length) :
    readFields fuel (dumpField w setKeyPool keyid :: vstr) r = none := by
  rw [dumpField_label setKeyPool hlookup, readFields_label, decodeDumpString_eq_none hlen]
  rfl

/-- A key with what its line says of it. -/
structure DumpedKey where
  nTime : ℤ
  keyid : KeyID
  key : SecretKey

/-- What an import does with the line of a key of a wallet. -/
def importKey (env : KeyEnv) (fWritten : KeyID → Bool) (w : DumpedWallet) (s : DumpImport)
    (k : DumpedKey) : DumpImport :=
  if s.wallet.keystore.haveKey k.keyid then s
  else s.addKey env fWritten k.key k.nTime (w.mapAddressBook.lookup (.keyID k.keyid)).isSome
    ((w.mapAddressBook.lookup (.keyID k.keyid)).getD [])

variable {P : Base58Prefixes} {env : KeyEnv} {lib : DateLibrary} {inRange : ℤ → Prop}
  {fWritten : KeyID → Bool} {fuel : ℕ} {w : DumpedWallet} {setKeyPool : List KeyID}

theorem importDumpLine_dumpKeyLine (hlib : lib.Sound inRange) {k : DumpedKey}
    (hrange : inRange k.nTime) (hid : pubKeyID env.crypto (env.getPubKey k.key) = k.keyid)
    (hlabel : ∀ label, w.mapAddressBook.lookup (.keyID k.keyid) = some label →
      (encodeDumpString label).length < 2 ^ 32 ∧ label.length < fuel) (s : DumpImport) :
    importDumpLine P env lib fWritten fuel s
        (dumpKeyLine P env.crypto lib w setKeyPool k.nTime k.keyid k.key) =
      some (importKey env fWritten w s k) := by
  rw [importDumpLine, if_neg (dumpKeyLine_head P env.crypto w setKeyPool k.nTime k.keyid k.key),
    splitOn_dumpKeyLine P env.crypto w setKeyPool k.nTime k.keyid k.key hlib, dumpTokens]
  dsimp only
  rw [BitbeanSecret.setString_toString]
  dsimp only
  rw [if_neg (by decide), BitbeanSecret.getKey_setKey, readFields_dumpField _ hlabel,
    decodeDumpTime_encodeDumpTime hlib hrange]
  simp only [Option.bind_eq_bind, Option.bind_some, hid, importKey]
  split <;> rfl

theorem importDumpLine_eq_none (hlib : lib.Sound inRange) {k : DumpedKey}
    (hid : pubKeyID env.crypto (env.getPubKey k.key) = k.keyid) {label : List UInt8}
    (hlabel : w.mapAddressBook.lookup (.keyID k.keyid) = some label)
    (hlen : 2 ^ 32 ≤ (encodeDumpString label).length) {s : DumpImport}
    (hnew : s.wallet.keystore.haveKey k.keyid = false) :
    importDumpLine P env lib fWritten fuel s
        (dumpKeyLine P env.crypto lib w setKeyPool k.nTime k.keyid k.key) = none := by
  rw [importDumpLine, if_neg (dumpKeyLine_head P env.crypto w setKeyPool k.nTime k.keyid k.key),
    splitOn_dumpKeyLine P env.crypto w setKeyPool k.nTime k.keyid k.key hlib, dumpTokens]
  dsimp only
  rw [BitbeanSecret.setString_toString]
  dsimp only
  rw [if_neg (by decide), BitbeanSecret.getKey_setKey, readFields_eq_none _ hlabel hlen]
  simp only [Option.bind_eq_bind, Option.bind_some, hid, hnew]
  rfl

theorem CryptoKeyStore.isLocked_addKeyPubKey (env : KeyEnv) (s : CryptoKeyStore) (key : SecretKey)
    (pubkey : List UInt8) : (s.addKeyPubKey env key pubkey).2.isLocked = s.isLocked ∧
      ((s.addKeyPubKey env key pubkey).1 = true → s.isLocked = false) := by
  unfold addKeyPubKey
  rcases Bool.eq_false_or_eq_true s.fUseCrypto with hcrypted | hcrypted
  · rw [if_neg (by simp [hcrypted])]
    split
    · exact ⟨rfl, fun h => nomatch h⟩
    · rename_i hunlocked
      split
      · exact ⟨rfl, fun h => nomatch h⟩
      · rw [addCryptedKey_eq hcrypted]
        exact ⟨rfl, fun _ => Bool.eq_false_iff.mpr hunlocked⟩
  · rw [if_pos (by simp [hcrypted])]
    exact ⟨rfl, fun _ => Bool.and_eq_false_imp.mpr fun htrue => absurd htrue (by simp [hcrypted])⟩

theorem DumpedWallet.addKey_spec (env : KeyEnv) (fWritten : KeyID → Bool) (key : SecretKey)
    (w : DumpedWallet) :
    (w.addKey env fWritten key).2.keystore =
        (w.keystore.addKeyPubKey env key (env.getPubKey key)).2 ∧
      (w.addKey env fWritten key).2.mapAddressBook = w.mapAddressBook ∧
      (∀ id, id ≠ pubKeyID env.crypto (env.getPubKey key) →
        (w.addKey env fWritten key).2.mapKeyMetadata.lookup id = w.mapKeyMetadata.lookup id) ∧
      ((w.addKey env fWritten key).1 = true →
        (w.keystore.addKeyPubKey env key (env.getPubKey key)).1 = true) := by
  unfold addKey
  dsimp only
  split
  · exact ⟨rfl, rfl, fun _ _ => rfl, fun h => nomatch h⟩
  · rename_i hadded
    rw [Bool.not_eq_true', Bool.not_eq_false] at hadded
    split
    · exact ⟨rfl, rfl, fun _ _ => rfl, fun _ => hadded⟩
    · exact ⟨rfl, rfl, fun id hid => AList.lookup_insert_ne hid, fun _ => hadded⟩

/-- What an import of keys makes of a wallet, if all of them can be added. -/
structure TookKeys (w : DumpedWallet) (keys : List DumpedKey) (s s' : DumpImport)
    (added' : AddedKeys) : Prop where
  fGood : s.fGood = true
  added : ∀ k ∈ keys, added' k.keyid = some k.key
  nCreateTime : ∀ k ∈ keys, s'.wallet.mapKeyMetadata.lookup k.keyid = some k.nTime
  label : ∀ k ∈ keys, ∀ label, w.mapAddressBook.lookup (.keyID k.keyid) = some label →
    s'.wallet.mapAddressBook.lookup (.keyID k.keyid) = some label
  unlocked : keys ≠ [] → s.wallet.keystore.isLocked = false

/-- What an import of keys leaves as it was. -/
structure KeptOthers (keys : List DumpedKey) (s s' : DumpImport) (added added' : AddedKeys) :
    Prop where
  isLocked : s'.wallet.keystore.isLocked = s.wallet.keystore.isLocked
  added : ∀ id, (∀ k ∈ keys, id ≠ k.keyid) → added' id = added id
  nCreateTime : ∀ id, (∀ k ∈ keys, id ≠ k.keyid) →
    s'.wallet.mapKeyMetadata.lookup id = s.wallet.mapKeyMetadata.lookup id
  label : ∀ dest, (∀ k ∈ keys, dest ≠ .keyID k.keyid) →
    s'.wallet.mapAddressBook.lookup dest = s.wallet.mapAddressBook.lookup dest

theorem importKey_spec (fWritten : KeyID → Bool) (w : DumpedWallet) {k : DumpedKey}
    (hid : pubKeyID env.crypto (env.getPubKey k.key) = k.keyid) {s : DumpImport}
    {added : AddedKeys} (hinv : KeyStoreInv env s.wallet.keystore added)
    (hnew : s.wallet.keystore.haveKey k.keyid = false) :
    ∃ added', KeyStoreInv env (importKey env fWritten w s k).wallet.keystore added' ∧
      KeptOthers [k] s (importKey env fWritten w s k) added added' ∧
      ((importKey env fWritten w s k).fGood = true →
        TookKeys w [k] s (importKey env fWritten w s k) added') := by
  obtain ⟨hstore, hbook, hmeta, hadded⟩ := DumpedWallet.addKey_spec env fWritten k.key s.wallet
  obtain ⟨hsame, hunlocked⟩ := CryptoKeyStore.isLocked_addKeyPubKey env s.wallet.keystore k.key
    (env.getPubKey k.key)
  have hinv' := hinv.addKeyPubKey k.key
  rw [KeyStoreCall.added, hid, ← hstore] at hinv'
  rw [← hstore] at hsame
  rw [hid] at hmeta
  rw [importKey, if_neg (by rw [hnew]; decide), DumpImport.addKey, hid]
  generalize s.wallet.addKey env fWritten k.key = r at *
  generalize (s.wallet.keystore.addKeyPubKey env k.key (env.getPubKey k.key)).1 = fAdded at *
  obtain ⟨fRet, w'⟩ := r
  have hother : ∀ id, (∀ k' ∈ [k], id ≠ k'.keyid) →
      (if fAdded then Function.update added k.keyid (some k.key) else added) id = added id := by
    intro id hne
    split
    · exact Function.update_of_ne (hne k List.mem_cons_self) _ _
    · rfl
  cases fRet with
  | false =>
    refine ⟨_, hinv', ⟨hsame, hother, fun id hne => ?_, fun dest _ => ?_⟩,
      fun hgood => nomatch hgood⟩
    · exact hmeta id (hne k List.mem_cons_self)
    · exact congrArg (AList.lookup dest) hbook
  | true =>
    obtain rfl := hadded rfl
    replace hunlocked := hunlocked rfl
    have hmeta' : ∀ id, (∀ k' ∈ [k], id ≠ k'.keyid) →
        (w'.mapKeyMetadata.insert k.keyid k.nTime).lookup id = s.wallet.mapKeyMetadata.lookup id :=
      fun id hne => (AList.lookup_insert_ne (hne k List.mem_cons_self)).trans
        (hmeta id (hne k List.mem_cons_self))
    have htook : ∀ k' ∈ [k], Function.update added k.keyid (some k.key) k'.keyid = some k'.key := by
      intro k' hk'
      rw [List.mem_singleton.mp hk']
      exact Function.update_self _ _ _
    have htime : ∀ k' ∈ [k], (w'.mapKeyMetadata.insert k.keyid k.nTime).lookup k'.keyid =
        some k'.nTime := by
      intro k' hk'
      rw [List.mem_singleton.mp hk']
      exact AList.lookup_insert _
    cases hlookup : w.mapAddressBook.lookup (.keyID k.keyid) with
    | none =>
      refine ⟨_, hinv', ⟨hsame, hother, hmeta', fun dest _ => congrArg (AList.lookup dest) hbook⟩,
        fun hgood => ⟨hgood, htook, htime, fun k' hk' label hlabel => ?_, fun _ => hunlocked⟩⟩
      rw [List.mem_singleton.mp hk', hlookup] at hlabel
      cases hlabel
    | some label =>
      refine ⟨_, hinv', ⟨hsame, hother, hmeta', fun dest hne => ?_⟩,
        fun hgood => ⟨hgood, htook, htime, fun k' hk' label' hlabel => ?_, fun _ => hunlocked⟩⟩
      · exact (AList.lookup_insert_ne (hne k List.mem_cons_self)).trans
          (congrArg (AList.lookup dest) hbook)
      · rw [List.mem_singleton.mp hk', hlookup] at hlabel
        rw [List.mem_singleton.mp hk', ← hlabel]
        exact AList.lookup_insert _

section Keys

variable {k : DumpedKey} {keys : List DumpedKey} {s s' s'' : DumpImport}
  {added added' added'' : AddedKeys}

theorem KeptOthers.trans (h : KeptOthers [k] s s' added added')
    (h' : KeptOthers keys s' s'' added' added'') : KeptOthers (k :: keys) s s'' added added'' where
  isLocked := h'.isLocked.trans h.isLocked
  added id hne :=
    (h'.added id fun k' hk' => hne k' (List.mem_cons_of_mem k hk')).trans
      (h.added id fun k' hk' => hne k' (List.mem_singleton.mp hk' ▸ List.mem_cons_self))
  nCreateTime id hne :=
    (h'.nCreateTime id fun k' hk' => hne k' (List.mem_cons_of_mem k hk')).trans
      (h.nCreateTime id fun k' hk' => hne k' (List.mem_singleton.mp hk' ▸ List.mem_cons_self))
  label dest hne :=
    (h'.label dest fun k' hk' => hne k' (List.mem_cons_of_mem k hk')).trans
      (h.label dest fun k' hk' => hne k' (List.mem_singleton.mp hk' ▸ List.mem_cons_self))

theorem TookKeys.cons (h : TookKeys w [k] s s' added') (h' : TookKeys w keys s' s'' added'')
    (hkept : KeptOthers keys s' s'' added' added'') (hk : ∀ k' ∈ keys, k.keyid ≠ k'.keyid) :
    TookKeys w (k :: keys) s s'' added'' where
  fGood := h.fGood
  added := by
    rw [List.forall_mem_cons]
    exact ⟨(hkept.added _ hk).trans (h.added k List.mem_cons_self), h'.added⟩
  nCreateTime := by
    rw [List.forall_mem_cons]
    exact ⟨(hkept.nCreateTime _ hk).trans (h.nCreateTime k List.mem_cons_self), h'.nCreateTime⟩
  label := by
    rw [List.forall_mem_cons]
    refine ⟨fun label hlabel => ?_, h'.label⟩
    rw [hkept.label _ fun k' hk' heq => hk k' hk' (TxDestination.keyID.inj heq)]
    exact h.label k List.mem_cons_self label hlabel
  unlocked _ := h.unlocked (List.cons_ne_nil k [])

/-- Keys that the wallet does not have are all added, or the import says that they were not. -/
theorem importKeys_spec (fWritten : KeyID → Bool) (w : DumpedWallet) (s : DumpImport)
    (henv : env.Sound) (hnodup : (keys.map DumpedKey.keyid).Nodup)
    (hid : ∀ k ∈ keys, pubKeyID env.crypto (env.getPubKey k.key) = k.keyid)
    (hinv : KeyStoreInv env s.wallet.keystore added) (hnew : ∀ k ∈ keys, added k.keyid = none) :
    ∃ added', KeyStoreInv env (keys.foldl (importKey env fWritten w) s).wallet.keystore added' ∧
      KeptOthers keys s (keys.foldl (importKey env fWritten w) s) added added' ∧
      ((keys.foldl (importKey env fWritten w) s).fGood = true →
        TookKeys w keys s (keys.foldl (importKey env fWritten w) s) added') := by
  induction keys generalizing s added with
  | nil =>
    exact ⟨added, hinv, ⟨rfl, fun _ _ => rfl, fun _ _ => rfl, fun _ _ => rfl⟩, fun hgood =>
      ⟨hgood, List.forall_mem_nil _, List.forall_mem_nil _, List.forall_mem_nil _,
        fun hne => absurd rfl hne⟩⟩
  | cons k keys ih =>
    rw [List.map_cons, List.nodup_cons] at hnodup
    rw [List.forall_mem_cons] at hid hnew
    have hk : ∀ k' ∈ keys, k.keyid ≠ k'.keyid := fun k' hk' heq =>
      hnodup.1 (heq ▸ List.mem_map_of_mem hk')
    have hhave : s.wallet.keystore.haveKey k.keyid = false := by
      rw [Bool.eq_false_iff]
      exact fun h => (hinv.haveKey_iff henv k.keyid).mp h hnew.1
    obtain ⟨added₁, hinv₁, hkept₁, htook₁⟩ :=
      importKey_spec fWritten w hid.1 hinv hhave
    obtain ⟨added₂, hinv₂, hkept₂, htook₂⟩ := ih _ hnodup.2 hid.2 hinv₁ fun k' hk' => by
      rw [hkept₁.added k'.keyid fun k'' hk'' => List.mem_singleton.mp hk'' ▸ (hk k' hk').symm]
      exact hnew.2 k' hk'
    refine ⟨added₂, hinv₂, hkept₁.trans hkept₂, fun hgood => ?_⟩
    have hrest := htook₂ hgood
    exact (htook₁ hrest.fGood).cons hrest hkept₂ hk

end Keys

theorem lookup_recordedBirths (mapKeyMetadata : AList fun _ : KeyID => ℤ) (id : KeyID) :
    (recordedBirths mapKeyMetadata).lookup id =
      (mapKeyMetadata.lookup id).filter fun nTime => nTime ≠ 0 := by
  have hloop : ∀ (l : List (Sigma fun _ : KeyID => ℤ)) (births : AList fun _ : KeyID => ℤ),
      l.NodupKeys → (l.foldl (fun mapKeyBirth it =>
        if it.2 ≠ 0 then mapKeyBirth.insert it.1 it.2 else mapKeyBirth) births).lookup id =
      ((l.dlookup id).filter fun nTime => nTime ≠ 0).or (births.lookup id) := by
    intro l
    induction l with
    | nil => exact fun _ _ => rfl
    | cons it l ih =>
      intro births hnodup
      rw [List.nodupKeys_cons] at hnodup
      rw [List.foldl_cons, ih _ hnodup.2]
      by_cases hid : id = it.1
      · rw [hid, List.dlookup_eq_none.mpr hnodup.1, List.dlookup_cons_eq]
        by_cases hzero : it.2 ≠ 0
        · rw [if_pos hzero, AList.lookup_insert, Option.filter_some, if_pos (decide_eq_true hzero)]
          rfl
        · rw [if_neg hzero, Option.filter_some, if_neg (by simpa using hzero)]
          rfl
      · rw [List.dlookup_cons_ne l it hid]
        by_cases hzero : it.2 ≠ 0
        · rw [if_pos hzero, AList.lookup_insert_ne hid]
        · rw [if_neg hzero]
  rw [recordedBirths, hloop _ _ mapKeyMetadata.nodupKeys, AList.lookup_empty, Option.or_none]
  rfl

theorem CryptoKeyStore.mem_getKeys (s : CryptoKeyStore) (id : KeyID) :
    id ∈ s.getKeys ↔ s.haveKey id = true := by
  unfold getKeys haveKey
  split <;> exact AList.mem_keys.symm.trans decide_eq_true_iff.symm

theorem getKeyBirthTimes_eq (c : Crypto) (steps : ℕ) (v : DumpView)
    (hrecorded : ∀ id, w.keystore.haveKey id = true →
      ∃ nTime, w.mapKeyMetadata.lookup id = some nTime ∧ nTime ≠ 0) :
    getKeyBirthTimes c steps v w =
      match v.finder.findBlockByHeight steps (max 0 ((v.finder.node.nBestHeight : ℤ) - 144)) with
      | .found _ => some (recordedBirths w.mapKeyMetadata)
      | _ => none := by
  have hnone : w.keystore.getKeys.filter
      (fun keyid => ((recordedBirths w.mapKeyMetadata).lookup keyid).isNone) = [] := by
    rw [List.filter_eq_nil_iff]
    intro id hid
    obtain ⟨nTime, hlookup, hzero⟩ := hrecorded id ((w.keystore.mem_getKeys id).mp hid)
    simp [lookup_recordedBirths, hlookup, hzero]
  unfold getKeyBirthTimes
  cases v.finder.findBlockByHeight steps (max 0 ((v.finder.node.nBestHeight : ℤ) - 144)) with
  | found pindexMax => exact if_pos hnone
  | nullLink => rfl
  | endless => rfl

theorem mem_sortedBirths (births : AList fun _ : KeyID => ℤ) (nTime : ℤ) (id : KeyID) :
    (nTime, id) ∈ sortedBirths births ↔ births.lookup id = some nTime := by
  rw [sortedBirths, List.mem_mergeSort, List.mem_map]
  constructor
  · rintro ⟨it, hmem, heq⟩
    obtain ⟨rfl, rfl⟩ := Prod.mk.inj heq
    exact AList.mem_lookup_iff.mpr hmem
  · exact fun hlookup => ⟨⟨id, nTime⟩, AList.mem_lookup_iff.mp hlookup, rfl⟩

theorem nodup_sortedBirths (births : AList fun _ : KeyID => ℤ) :
    ((sortedBirths births).map Prod.snd).Nodup := by
  have hperm := (List.mergeSort_perm (births.entries.map fun it => (it.2, it.1)) birthLE).map
    Prod.snd
  rw [sortedBirths, hperm.nodup_iff, List.map_map]
  exact births.nodupKeys

/-- The keys that have a line, of those with these birth times. -/
def dumpedKeys (env : KeyEnv) (w : DumpedWallet) (vKeyBirth : List (ℤ × KeyID)) : List DumpedKey :=
  vKeyBirth.filterMap fun birth =>
    (w.keystore.getKey env birth.2).join.map fun key => ⟨birth.1, birth.2, key⟩

theorem mem_dumpedKeys {vKeyBirth : List (ℤ × KeyID)} {k : DumpedKey} :
    k ∈ dumpedKeys env w vKeyBirth ↔
      (k.nTime, k.keyid) ∈ vKeyBirth ∧ w.keystore.getKey env k.keyid = some (some k.key) := by
  rw [dumpedKeys, List.mem_filterMap]
  constructor
  · rintro ⟨birth, hmem, hkey⟩
    obtain ⟨key, hjoin, rfl⟩ := Option.map_eq_some_iff.mp hkey
    exact ⟨hmem, Option.join_eq_some_iff.mp hjoin⟩
  · rintro ⟨hmem, hkey⟩
    refine ⟨_, hmem, ?_⟩
    rw [hkey]
    rfl

theorem nodup_dumpedKeys (env : KeyEnv) (w : DumpedWallet) {vKeyBirth : List (ℤ × KeyID)}
    (hnodup : (vKeyBirth.map Prod.snd).Nodup) :
    ((dumpedKeys env w vKeyBirth).map DumpedKey.keyid).Nodup := by
  rw [List.Nodup, List.pairwise_map] at hnodup ⊢
  rw [dumpedKeys, List.pairwise_filterMap]
  refine hnodup.imp fun hne k hk k' hk' => ?_
  obtain ⟨key, -, rfl⟩ := Option.map_eq_some_iff.mp hk
  obtain ⟨key', -, rfl⟩ := Option.map_eq_some_iff.mp hk'
  exact hne

theorem mem_dumpedKeys_recordedBirths (henv : env.Sound) {added : AddedKeys}
    (hinv : KeyStoreInv env w.keystore added) (hunlocked : w.keystore.isLocked = false)
    (k : DumpedKey) :
    k ∈ dumpedKeys env w (sortedBirths (recordedBirths w.mapKeyMetadata)) ↔
      (w.mapKeyMetadata.lookup k.keyid = some k.nTime ∧ k.nTime ≠ 0) ∧
        added k.keyid = some k.key := by
  have hbirth : (k.nTime, k.keyid) ∈ sortedBirths (recordedBirths w.mapKeyMetadata) ↔
      w.mapKeyMetadata.lookup k.keyid = some k.nTime ∧ k.nTime ≠ 0 := by
    rw [mem_sortedBirths, lookup_recordedBirths, Option.filter_eq_some_iff, decide_eq_true_iff]
  have hkey : w.keystore.getKey env k.keyid = some (some k.key) ↔ added k.keyid = some k.key := by
    constructor
    · intro hget
      cases hid : added k.keyid with
      | none =>
        rw [hinv.getKey_eq_none hid] at hget
        cases hget
      | some key =>
        rw [hinv.getKey_eq henv hunlocked hid] at hget
        exact Option.some.inj hget
    · exact hinv.getKey_eq henv hunlocked
  rw [mem_dumpedKeys, hbirth, hkey]

theorem flatten_of_mapM_dumpKeyLines {vKeyBirth : List (ℤ × KeyID)}
    {lines : List (List (List UInt8))}
    (h : vKeyBirth.mapM (dumpKeyLines P env lib w setKeyPool) = some lines) :
    lines.flatten = (dumpedKeys env w vKeyBirth).map fun k =>
      dumpKeyLine P env.crypto lib w setKeyPool k.nTime k.keyid k.key := by
  induction vKeyBirth generalizing lines with
  | nil =>
    cases h
    rfl
  | cons birth vKeyBirth ih =>
    rw [List.mapM_cons] at h
    obtain ⟨line, hline, h⟩ := Option.bind_eq_some_iff.mp h
    obtain ⟨rest, hrest, h⟩ := Option.bind_eq_some_iff.mp h
    obtain rfl := Option.some.inj h
    rw [List.flatten_cons, ih hrest]
    unfold dumpKeyLines at hline
    rw [dumpedKeys, dumpedKeys, List.filterMap_cons]
    cases hkey : w.keystore.getKey env birth.2 with
    | none =>
      rw [hkey] at hline
      cases hline
      rfl
    | some key =>
      rw [hkey] at hline
      cases key with
      | none => cases hline
      | some key =>
        cases hline
        rfl

theorem dumpWallet_eq_some {v : DumpView} {file : List UInt8}
    (h : dumpWallet P env lib fuel v w = some file) :
    ∃ births setKeyPool, getKeyBirthTimes env.crypto fuel v w = some births ∧
      file = (dumpHeader lib v ++
        (dumpedKeys env w (sortedBirths births)).map
          (fun k => dumpKeyLine P env.crypto lib w setKeyPool k.nTime k.keyid k.key) ++
        dumpTrailer).flatMap (· ++ [10]) := by
  unfold dumpWallet at h
  split at h
  · cases h
  · obtain ⟨births, hbirths, h⟩ := Option.bind_eq_some_iff.mp h
    obtain ⟨setKeyPool, -, h⟩ := Option.bind_eq_some_iff.mp h
    split at h
    · cases h
    · obtain ⟨lines, hlines, h⟩ := Option.bind_eq_some_iff.mp h
      refine ⟨births, setKeyPool, hbirths, ?_⟩
      rw [← flatten_of_mapM_dumpKeyLines hlines]
      exact (Option.some.inj h).symm

/-- The constants of the build are on one line. -/
structure DumpView.OneLine (v : DumpView) : Prop where
  clientBuild : 10 ∉ v.clientBuild
  clientDate : 10 ∉ v.clientDate

theorem not_mem_decimal (n : ℕ) : 10 ∉ decimal n := fun hmem =>
  absurd (isdigit_of_mem_decimal n 10 hmem) (by decide)

theorem not_mem_hashString (hash : Uint256) : 10 ∉ hashString hash := by
  intro hmem
  obtain ⟨i, -, hi⟩ := List.mem_map.mp hmem
  have hall : ∀ d < 16, hexmap.getD d 0 ≠ 10 := by decide
  exact hall _ (Nat.mod_lt _ (by decide)) hi

theorem dumpHeader_plain (hlib : lib.Sound inRange) {v : DumpView} (hv : v.OneLine) :
    ∀ line ∈ dumpHeader lib v ++ dumpTrailer,
      (line = [] ∨ line.head? = some 35) ∧ 10 ∉ line := by
  have hfixed : ∀ s ∈ [bytesOf "# Wallet dump created by Bean Cash Core ",
      bytesOf "# * Created on ", bytesOf "# * Best block at time of backup was ",
      bytesOf "#   mined on ", bytesOf "# End of dump"], s.head? = some 35 ∧ 10 ∉ s := by decide
  have hbrackets : ∀ s ∈ [bytesOf " (", bytesOf ")", bytesOf "),"], 10 ∉ s := by decide
  have htime (nTime : ℤ) : 10 ∉ encodeDumpTime lib nTime := fun hmem =>
    absurd (hlib.plain nTime 10 hmem) (by decide)
  simp only [List.forall_mem_cons] at hfixed hbrackets
  obtain ⟨hcreated, hon, hbest, hmined, hend, -⟩ := hfixed
  obtain ⟨hopen, hclose, hcomma, -⟩ := hbrackets
  simp [dumpHeader, dumpTrailer, List.head?_append, hcreated, hon, hbest, hmined, hend, hopen,
    hclose, hcomma, htime, hv.clientBuild, hv.clientDate, not_mem_decimal, not_mem_hashString]

theorem foldlM_eq_some_of_skipped {lines : List (List UInt8)} {s : DumpImport}
    (h : ∀ line ∈ lines, line = [] ∨ line.head? = some 35) :
    lines.foldlM (importDumpLine P env lib fWritten fuel) s = some s := by
  induction lines with
  | nil => rfl
  | cons line lines ih =>
    rw [List.forall_mem_cons] at h
    rw [List.foldlM_cons, importDumpLine, if_pos h.1]
    exact ih h.2

theorem foldlM_importDumpLine (hlib : lib.Sound inRange) {keys : List DumpedKey}
    (hkeys : ∀ k ∈ keys, inRange k.nTime ∧ pubKeyID env.crypto (env.getPubKey k.key) = k.keyid ∧
      ∀ label, w.mapAddressBook.lookup (.keyID k.keyid) = some label →
        (encodeDumpString label).length < 2 ^ 32 ∧ label.length < fuel) (s : DumpImport) :
    (keys.map fun k => dumpKeyLine P env.crypto lib w setKeyPool k.nTime k.keyid k.key).foldlM
        (importDumpLine P env lib fWritten fuel) s =
      some (keys.foldl (importKey env fWritten w) s) := by
  induction keys generalizing s with
  | nil => rfl
  | cons k keys ih =>
    rw [List.forall_mem_cons] at hkeys
    obtain ⟨⟨hrange, hid, hlabel⟩, hkeys⟩ := hkeys
    rw [List.map_cons, List.foldlM_cons, importDumpLine_dumpKeyLine hlib hrange hid hlabel]
    exact ih hkeys _

theorem splitOn_dump (hlib : lib.Sound inRange) {v : DumpView} (hv : v.OneLine)
    (keys : List DumpedKey) :
    ((dumpHeader lib v ++ (keys.map fun k =>
        dumpKeyLine P env.crypto lib w setKeyPool k.nTime k.keyid k.key) ++
      dumpTrailer).flatMap (· ++ [10])).splitOn 10 =
    dumpHeader lib v ++ ((keys.map fun k =>
        dumpKeyLine P env.crypto lib w setKeyPool k.nTime k.keyid k.key) ++
      (dumpTrailer ++ [[]])) := by
  have hplain := dumpHeader_plain hlib hv
  rw [splitOn_flatMap_concat, List.append_assoc, List.append_assoc]
  intro line hline
  rcases List.mem_append.mp hline with hline | hline
  · rcases List.mem_append.mp hline with hline | hline
    · exact (hplain line (List.mem_append_left _ hline)).2
    · obtain ⟨k, -, rfl⟩ := List.mem_map.mp hline
      exact dumpKeyLine_endless P env.crypto w setKeyPool k.nTime k.keyid k.key hlib
  · exact (hplain line (List.mem_append_right _ hline)).2

theorem importDump_lines (hlib : lib.Sound inRange) {v : DumpView} (hv : v.OneLine)
    {keys : List DumpedKey}
    (hkeys : ∀ k ∈ keys, inRange k.nTime ∧ pubKeyID env.crypto (env.getPubKey k.key) = k.keyid ∧
      ∀ label, w.mapAddressBook.lookup (.keyID k.keyid) = some label →
        (encodeDumpString label).length < 2 ^ 32 ∧ label.length < fuel)
    {w₀ : DumpedWallet} (hbacked : w₀.fFileBacked = true) {pindexBest : BlockPtr}
    (hbest : pindexBest ≠ []) :
    importDump P env lib fWritten fuel pindexBest ((dumpHeader lib v ++ (keys.map fun k =>
        dumpKeyLine P env.crypto lib w setKeyPool k.nTime k.keyid k.key) ++
      dumpTrailer).flatMap (· ++ [10])) w₀ =
    some (keys.foldl (importKey env fWritten w) ⟨w₀, BlockPtr.blockTime pindexBest, true⟩) := by
  have hplain := dumpHeader_plain hlib hv
  rw [importDump, if_neg (by rw [hbacked]; decide), if_neg hbest, splitOn_dump hlib hv,
    List.foldlM_append,
    foldlM_eq_some_of_skipped fun line hline => (hplain line (List.mem_append_left _ hline)).1,
    Option.bind_eq_bind, Option.bind_some, List.foldlM_append,
    foldlM_importDumpLine hlib hkeys, Option.bind_eq_bind, Option.bind_some]
  apply foldlM_eq_some_of_skipped
  intro line hline
  rcases List.mem_append.mp hline with hline | hline
  · exact (hplain line (List.mem_append_right _ hline)).1
  · exact Or.inl (List.mem_singleton.mp hline)

theorem importDump_eq_none (hlib : lib.Sound inRange) {v : DumpView} (hv : v.OneLine)
    {k : DumpedKey} (keys : List DumpedKey)
    (hid : pubKeyID env.crypto (env.getPubKey k.key) = k.keyid) {label : List UInt8}
    (hlabel : w.mapAddressBook.lookup (.keyID k.keyid) = some label)
    (hlen : 2 ^ 32 ≤ (encodeDumpString label).length) {w₀ : DumpedWallet}
    (hbacked : w₀.fFileBacked = true) (hnew : w₀.keystore.haveKey k.keyid = false)
    {pindexBest : BlockPtr} (hbest : pindexBest ≠ []) :
    importDump P env lib fWritten fuel pindexBest ((dumpHeader lib v ++ ((k :: keys).map fun k =>
        dumpKeyLine P env.crypto lib w setKeyPool k.nTime k.keyid k.key) ++
      dumpTrailer).flatMap (· ++ [10])) w₀ = none := by
  have hplain := dumpHeader_plain hlib hv
  rw [importDump, if_neg (by rw [hbacked]; decide), if_neg hbest, splitOn_dump hlib hv,
    List.foldlM_append,
    foldlM_eq_some_of_skipped fun line hline => (hplain line (List.mem_append_left _ hline)).1,
    Option.bind_eq_bind, Option.bind_some, List.foldlM_append, List.map_cons, List.foldlM_cons,
    importDumpLine_eq_none hlib hid hlabel hlen hnew]
  rfl

theorem fGood_importKeys (hwritten : ∀ id, fWritten id = true) {keys : List DumpedKey}
    {s : DumpImport} (hplain : s.wallet.keystore.fUseCrypto = false) :
    (keys.foldl (importKey env fWritten w) s).fGood = s.fGood := by
  induction keys generalizing s with
  | nil => rfl
  | cons k keys ih =>
    have hstep : (importKey env fWritten w s k).wallet.keystore.fUseCrypto = false ∧
        (importKey env fWritten w s k).fGood = s.fGood := by
      unfold importKey
      split
      · exact ⟨hplain, rfl⟩
      · have hstore : ∀ pubkey, s.wallet.keystore.addKeyPubKey env k.key pubkey = (true,
            { s.wallet.keystore with
              mapKeys := s.wallet.keystore.mapKeys.insert (pubKeyID env.crypto pubkey) k.key }) :=
          fun pubkey => if_pos (by rw [hplain]; rfl)
        unfold DumpImport.addKey DumpedWallet.addKey
        simp only [hstore, hwritten]
        cases s.wallet.fFileBacked <;>
          cases (w.mapAddressBook.lookup (.keyID k.keyid)).isSome <;> exact ⟨hplain, rfl⟩
    rw [List.foldl_cons, ih hstep.1, hstep.2]

/-- What a wallet has of the keys of another one. -/
structure RestoredFrom (env : KeyEnv) (w w' : DumpedWallet) : Prop where
  getKey : ∀ id, w'.keystore.getKey env id = w.keystore.getKey env id
  nCreateTime : ∀ id, w.keystore.haveKey id = true →
    w'.mapKeyMetadata.lookup id = w.mapKeyMetadata.lookup id
  label : ∀ id label, w.keystore.haveKey id = true →
    w.mapAddressBook.lookup (.keyID id) = some label →
    w'.mapAddressBook.lookup (.keyID id) = some label

/-- Where all keys of a wallet were added, and no others had been, the wallet is restored. -/
theorem TookKeys.restoredFrom (henv : env.Sound) {keys : List DumpedKey} {s s' : DumpImport}
    {added added₀ added' : AddedKeys} (htook : TookKeys w keys s s' added')
    (hkept : KeptOthers keys s s' added₀ added') (hnone : ∀ id, added₀ id = none)
    (hinv : KeyStoreInv env w.keystore added) (hunlocked : w.keystore.isLocked = false)
    (hinv' : KeyStoreInv env s'.wallet.keystore added')
    (hkeys : ∀ k ∈ keys, added k.keyid = some k.key)
    (hall : ∀ id key, added id = some key → ∃ nTime,
      w.mapKeyMetadata.lookup id = some nTime ∧ ⟨nTime, id, key⟩ ∈ keys) :
    RestoredFrom env w s'.wallet := by
  have hline : ∀ id, w.keystore.haveKey id = true → ∃ k ∈ keys, k.keyid = id ∧
      w.mapKeyMetadata.lookup id = some k.nTime := by
    intro id hid
    obtain ⟨key, hadded⟩ := Option.ne_none_iff_exists'.mp ((hinv.haveKey_iff henv id).mp hid)
    obtain ⟨nTime, hlookup, hmem⟩ := hall id key hadded
    exact ⟨_, hmem, rfl, hlookup⟩
  refine ⟨fun id => ?_, fun id hid => ?_, fun id label hid hlabel => ?_⟩
  · cases hadded : added id with
    | none =>
      have hother : added' id = none := by
        rw [hkept.added id fun k hk heq => ?_, hnone]
        have hkey := hkeys k hk
        rw [← heq, hadded] at hkey
        cases hkey
      rw [hinv.getKey_eq_none hadded, hinv'.getKey_eq_none hother]
    | some key =>
      obtain ⟨nTime, -, hmem⟩ := hall id key hadded
      have hunlocked' : s'.wallet.keystore.isLocked = false :=
        hkept.isLocked.trans (htook.unlocked (List.ne_nil_of_mem hmem))
      rw [hinv.getKey_eq henv hunlocked hadded,
        hinv'.getKey_eq henv hunlocked' (htook.added _ hmem)]
  · obtain ⟨k, hk, rfl, hlookup⟩ := hline id hid
    rw [htook.nCreateTime k hk, hlookup]
  · obtain ⟨k, hk, rfl, -⟩ := hline id hid
    exact htook.label k hk label hlabel

/-- What is dumped of a wallet, an import into a wallet without keys brings back: the keys, their
times and their labels. -/
theorem importDump_dumpWallet (P : Base58Prefixes) (henv : env.Sound) (hlib : lib.Sound inRange)
    {calls : List KeyStoreCall} (hproper : ∀ call ∈ calls, call.Proper env) {added : AddedKeys}
    (hrun : runKeyStore env calls (.initial, fun _ => none) = some (w.keystore, added))
    (hunlocked : w.keystore.isLocked = false)
    (htimes : ∀ id, w.keystore.haveKey id = true →
      ∃ nTime, w.mapKeyMetadata.lookup id = some nTime ∧ nTime ≠ 0 ∧ inRange nTime)
    (hlabels : ∀ id label, w.keystore.haveKey id = true →
      w.mapAddressBook.lookup (.keyID id) = some label →
      (encodeDumpString label).length < 2 ^ 32)
    (hfuel : 2 ^ 32 ≤ fuel) {v : DumpView} (hv : v.OneLine) {steps : ℕ} {file : List UInt8}
    (hdump : dumpWallet P env lib steps v w = some file)
    (w₀ : DumpedWallet) {calls₀ : List KeyStoreCall} (hproper₀ : ∀ call ∈ calls₀, call.Proper env)
    {added₀ : AddedKeys}
    (hrun₀ : runKeyStore env calls₀ (.initial, fun _ => none) = some (w₀.keystore, added₀))
    (hempty : ∀ id, w₀.keystore.haveKey id = false) {pindexBest : BlockPtr}
    (hbest : pindexBest ≠ []) (fWritten : KeyID → Bool) :
    ∃ s, importDump P env lib fWritten fuel pindexBest file w₀ = some s ∧
      (s.fGood = true → RestoredFrom env w s.wallet) ∧
      (w₀.fFileBacked = true → w₀.keystore.fUseCrypto = false → (∀ id, fWritten id = true) →
        s.fGood = true) := by
  have hinv := (keyStoreInv_initial env).run henv hproper hrun
  have hinv₀ := (keyStoreInv_initial env).run henv hproper₀ hrun₀
  have hnone (id : KeyID) : added₀ id = none := by
    by_contra hne
    have hhave := (hinv₀.haveKey_iff henv id).mpr hne
    rw [hempty id] at hhave
    cases hhave
  obtain ⟨births, setKeyPool, hbirths, hfile⟩ := dumpWallet_eq_some hdump
  obtain rfl : births = recordedBirths w.mapKeyMetadata := by
    rw [getKeyBirthTimes_eq env.crypto steps v fun id hid => by
      obtain ⟨nTime, hlookup, hzero, -⟩ := htimes id hid
      exact ⟨nTime, hlookup, hzero⟩] at hbirths
    split at hbirths
    · exact (Option.some.inj hbirths).symm
    · cases hbirths
  have hkeys (k : DumpedKey) := mem_dumpedKeys_recordedBirths henv hinv hunlocked k
  have hnodup := nodup_dumpedKeys env w
    (nodup_sortedBirths (recordedBirths w.mapKeyMetadata))
  generalize dumpedKeys env w (sortedBirths (recordedBirths w.mapKeyMetadata)) = keys at *
  have hhave : ∀ k ∈ keys, w.keystore.haveKey k.keyid = true := fun k hk =>
    (hinv.haveKey_iff henv k.keyid).mpr (((hkeys k).mp hk).2 ▸ Option.some_ne_none k.key)
  have hid : ∀ k ∈ keys, pubKeyID env.crypto (env.getPubKey k.key) = k.keyid := fun k hk =>
    hinv.keyed k.keyid k.key ((hkeys k).mp hk).2
  have hread : ∀ k ∈ keys, inRange k.nTime ∧ pubKeyID env.crypto (env.getPubKey k.key) = k.keyid ∧
      ∀ label, w.mapAddressBook.lookup (.keyID k.keyid) = some label →
        (encodeDumpString label).length < 2 ^ 32 ∧ label.length < fuel := by
    intro k hk
    obtain ⟨nTime, hlookup, -, hrange⟩ := htimes k.keyid (hhave k hk)
    obtain rfl := Option.some.inj (hlookup.symm.trans ((hkeys k).mp hk).1.1)
    refine ⟨hrange, hid k hk, fun label hlabel => ?_⟩
    have hlen := hlabels k.keyid label (hhave k hk) hlabel
    exact ⟨hlen, (length_le_encodeDumpString label).trans_lt (hlen.trans_le hfuel)⟩
  -- every key that was added has a line
  have hall : ∀ id key, added id = some key → ∃ nTime,
      w.mapKeyMetadata.lookup id = some nTime ∧ ⟨nTime, id, key⟩ ∈ keys := by
    intro id key hadded
    have hid := (hinv.haveKey_iff henv id).mpr (hadded ▸ Option.some_ne_none key)
    obtain ⟨nTime, hlookup, hzero, -⟩ := htimes id hid
    exact ⟨nTime, hlookup, (hkeys ⟨nTime, id, key⟩).mpr ⟨⟨hlookup, hzero⟩, hadded⟩⟩
  by_cases hbacked : w₀.fFileBacked = true
  · refine ⟨_, hfile ▸ importDump_lines hlib hv hread hbacked hbest, fun hgood => ?_,
      fun _ hplain hwritten => fGood_importKeys hwritten hplain⟩
    obtain ⟨added', hinv', hkept, htook⟩ :=
      importKeys_spec fWritten w ⟨w₀, BlockPtr.blockTime pindexBest, true⟩ henv hnodup hid hinv₀
        fun k _ => hnone k.keyid
    exact (htook hgood).restoredFrom henv hkept hnone hinv hunlocked hinv'
      (fun k hk => ((hkeys k).mp hk).2) hall
  · refine ⟨⟨w₀, BlockPtr.blockTime pindexBest, false⟩, ?_,
      fun hgood => absurd hgood Bool.false_ne_true, fun hbacked' => absurd hbacked' hbacked⟩
    rw [importDump, if_pos (by simpa using hbacked)]

namespace Sample

def dates : List (ℤ × List UInt8) :=
  [(0, bytesOf "1970-01-01T00:00:00Z"), (1500000000, bytesOf "2017-07-14T02:40:00Z")]

def dateLibrary : DateLibrary where
  strftime _ nTime := (dates.lookup nTime).getD []
  readDate _ str := (dates.find? fun date => date.2 == str).map fun date => date.1 * 1000000
  ticksPerSecond := 1000000
  notADateTime := 0

theorem sound_dateLibrary : dateLibrary.Sound fun nTime => nTime ∈ dates.map Prod.fst where
  ticksPerSecond_ne_zero := by decide
  plain nTime := by
    have hall : ∀ date ∈ dates, ∀ ch ∈ date.2, 32 < ch := by decide +kernel
    intro ch hch
    change ch ∈ (dates.lookup nTime).getD [] at hch
    cases hlookup : dates.lookup nTime with
    | none =>
      rw [hlookup] at hch
      cases hch
    | some date =>
      rw [hlookup] at hch
      obtain ⟨pre, post, heq, -⟩ := List.lookup_eq_some_iff.mp hlookup
      exact hall (nTime, date) (heq ▸ List.mem_append_right _ List.mem_cons_self) ch hch
  readDate_encodeDumpTime := by decide

def dumpView : DumpView where
  finder := ⟨node, []⟩
  mapBlockIndex _ := none
  clientBuild := bytesOf "v1.2.0.0"
  clientDate := bytesOf "Jul 14 2017"
  getTime := 1500000000
  readPool _ := none
  fOpened := true

def firstID : KeyID := pubKeyID plainKeyEnv.crypto (plainKeyEnv.getPubKey firstKey)

def oneKeyWallet (label : List UInt8) : DumpedWallet where
  keystore :=
    (CryptoKeyStore.initial.addKeyPubKey plainKeyEnv firstKey (plainKeyEnv.getPubKey firstKey)).2
  mapScripts := ∅
  fFileBacked := true
  mapKeyMetadata := AList.singleton firstID 1500000000
  mapAddressBook := AList.singleton (.keyID firstID) label
  mapWallet := ∅
  setKeyPool := []

def emptyWallet : DumpedWallet where
  keystore := .initial
  mapScripts := ∅
  fFileBacked := true
  mapKeyMetadata := ∅
  mapAddressBook := ∅
  mapWallet := ∅
  setKeyPool := []

theorem haveKey_oneKeyWallet {label : List UInt8} {id : KeyID}
    (h : (oneKeyWallet label).keystore.haveKey id = true) : id = firstID :=
  ((AList.mem_insert _).mp (of_decide_eq_true h)).resolve_right (AList.notMem_empty id)

theorem dumpWallet_oneKeyWallet (label : List UInt8) : dumpWallet .main plainKeyEnv dateLibrary 0
    dumpView (oneKeyWallet label) = some ((dumpHeader dateLibrary dumpView ++
      [dumpKeyLine .main plainCrypto dateLibrary (oneKeyWallet label) [] 1500000000 firstID
        firstKey] ++ dumpTrailer).flatMap (· ++ [10])) := by
  have hfound : dumpView.finder.findBlockByHeight 0
      (max 0 ((dumpView.finder.node.nBestHeight : ℤ) - 144)) = .found node.pindexBest := by
    decide +kernel
  have hsorted : sortedBirths (recordedBirths (oneKeyWallet label).mapKeyMetadata) =
      [(1500000000, firstID)] := List.mergeSort_singleton _
  rw [dumpWallet, if_neg (by exact Bool.false_ne_true), getKeyBirthTimes_eq, hfound]
  · simp only [Option.bind_eq_bind, Option.bind_some, hsorted]
    rfl
  · intro id hid
    exact ⟨1500000000, haveKey_oneKeyWallet hid ▸ rfl, by decide⟩

theorem runKeyStore_oneKeyWallet (label : List UInt8) : ∃ added,
    runKeyStore plainKeyEnv [.addKeyPubKey firstKey (plainKeyEnv.getPubKey firstKey)]
      (.initial, fun _ => none) = some ((oneKeyWallet label).keystore, added) := ⟨_, rfl⟩

def longLabel : List UInt8 := List.replicate (2 ^ 32) 97

theorem length_longLabel : longLabel.length = 2 ^ 32 := List.length_replicate

theorem oneLine_dumpView : dumpView.OneLine := ⟨by decide, by decide⟩

end Sample

open Sample in
theorem importDump_dumpWallet_labelled : ∃ file s,
    dumpWallet .main plainKeyEnv dateLibrary 0 dumpView (oneKeyWallet [35, 32, 37]) = some file ∧
      importDump .main plainKeyEnv dateLibrary (fun _ => true) (2 ^ 32) node.pindexBest file
        emptyWallet = some s ∧
      RestoredFrom plainKeyEnv (oneKeyWallet [35, 32, 37]) s.wallet := by
  obtain ⟨added, hrun⟩ := runKeyStore_oneKeyWallet [35, 32, 37]
  have hproper : ∀ call ∈ [KeyStoreCall.addKeyPubKey firstKey (plainKeyEnv.getPubKey firstKey)],
      call.Proper plainKeyEnv := List.forall_mem_singleton.mpr rfl
  have hbest : node.pindexBest ≠ [] := by decide
  obtain ⟨s, himport, hrestored, hgood⟩ := importDump_dumpWallet .main sound_plainKeyEnv
    sound_dateLibrary hproper hrun rfl
    (fun id hid => ⟨1500000000, haveKey_oneKeyWallet hid ▸ rfl, by decide, by decide⟩)
    (fun id label hid hlabel => by
      obtain rfl := haveKey_oneKeyWallet hid
      obtain rfl := Option.some.inj hlabel
      decide)
    le_rfl oneLine_dumpView (dumpWallet_oneKeyWallet [35, 32, 37]) emptyWallet
    (List.forall_mem_nil _) rfl (fun id => rfl) hbest (fun _ => true)
  exact ⟨_, s, dumpWallet_oneKeyWallet _, himport, hrestored (hgood rfl rfl fun _ => rfl)⟩

open Sample in
/-- With a label of 4 GiB the import does not end. -/
theorem importDump_longLabel : (oneKeyWallet longLabel).keystore.isLocked = false ∧
    (∀ id, (oneKeyWallet longLabel).keystore.haveKey id = true →
      (oneKeyWallet longLabel).mapKeyMetadata.lookup id = some 1500000000) ∧
    ∃ file, dumpWallet .main plainKeyEnv dateLibrary 0 dumpView (oneKeyWallet longLabel) =
        some file ∧
      ∀ fuel, importDump .main plainKeyEnv dateLibrary (fun _ => true) fuel node.pindexBest file
        emptyWallet = none := by
  have hlen : 2 ^ 32 ≤ (encodeDumpString longLabel).length :=
    length_longLabel.ge.trans (length_le_encodeDumpString longLabel)
  have hbest : node.pindexBest ≠ [] := by decide
  have hlabel : (oneKeyWallet longLabel).mapAddressBook.lookup (.keyID firstID) =
      some longLabel := AList.lookup_insert ∅
  refine ⟨rfl, fun id hid => haveKey_oneKeyWallet hid ▸ rfl, _,
    dumpWallet_oneKeyWallet longLabel, fun fuel => ?_⟩
  exact importDump_eq_none sound_dateLibrary oneLine_dumpView []
    (k := ⟨1500000000, firstID, firstKey⟩) rfl hlabel hlen rfl rfl hbest

end Beancash
