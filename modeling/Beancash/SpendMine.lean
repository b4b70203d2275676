import Beancash.SignSignature

namespace Beancash

open ByteStream StackMachine

/-- A signature, with its hash type, that is good for a script and a key. -/
structure SignsFor (c : Crypto) (script : Script) (txTo : Transaction) (nIn : UInt32)
    (nHashType : Int32) (sig vch : List UInt8) : Prop where
  canonical : isCanonicalSignature sig = true
  pubKey : isCanonicalPubKey vch = true
  verifies : ∃ vchSig, sig = vchSig ++ [hashTypeByte nHashType] ∧
    c.verify vch (sigHash c script txTo nIn nHashType) vchSig = true

section Signs

variable {c : Crypto} {keystore : SigningKeyStore} {script : Script} {txTo : Transaction}
  {nIn : UInt32} {nHashType : Int32} {sig vch : List UInt8}

theorem SignsFor.goodSig (h : SignsFor c script txTo nIn nHashType sig vch)
    (htype : nHashType ∈ hashTypes) (scriptSig : Script) :
    ScriptInput.goodSig ⟨c, txTo.setScriptSig nIn.toNat scriptSig, nIn, 0⟩ script sig vch = true := by
  obtain ⟨vchSig, hsig, hverify⟩ := h.verifies
  have hback : sig.getLast? = some (hashTypeByte nHashType) := by
    rw [hsig, List.getLast?_concat]
  have hfront : sig.dropLast = vchSig := by rw [hsig, List.dropLast_concat]
  have hcheck : checkSig c sig vch script (txTo.setScriptSig nIn.toNat scriptSig) nIn 0 = true := by
    rw [checkSig, (isCanonicalPubKey_spec h.pubKey).2.2.2, hback]
    dsimp only
    rw [hashTypeByte_spec htype, hfront]
    change c.verify vch (sigHash c script (txTo.setScriptSig nIn.toNat scriptSig) nIn nHashType)
      vchSig = true
    rw [sigHash_setScriptSig, hverify]
  rw [ScriptInput.goodSig, h.canonical, h.pubKey]
  exact hcheck

theorem exists_sign1 (hstore : keystore.Unlocked c) (htype : nHashType ∈ hashTypes) {id : KeyID}
    (hid : id ∈ keystore.keys) (script : Script) (txTo : Transaction) (nIn : UInt32) :
    ∃ key sig, keystore.getKey id = some key ∧ key.Works c id ∧
      SignsFor c script txTo nIn nHashType sig key.pubKey ∧ sig ≠ id ∧
      ∀ ret, sign1 keystore id (sigHash c script txTo nIn nHashType) nHashType ret =
        some (ret ++ Script.pushBytes sig) := by
  obtain ⟨key, hkey, hworks⟩ := hstore.keys id hid
  obtain ⟨vchSig, hsign, hverify, hform⟩ := hworks.signs (sigHash c script txTo nIn nHashType)
  obtain ⟨hcanonical, hne⟩ := hform nHashType htype
  refine ⟨key, vchSig ++ [hashTypeByte nHashType], hkey, hworks,
    ⟨hcanonical, hworks.canonical, vchSig, rfl, hverify⟩, hne, fun ret => ?_⟩
  rw [sign1, hkey]
  change (key.sign _ >>= _) = _
  rw [hsign]
  rfl

theorem signKeys_eq (hstore : keystore.Unlocked c) (htype : nHashType ∈ hashTypes)
    (script : Script) (txTo : Transaction) (nIn : UInt32) (nRequired : ℕ)
    {keys : List (List UInt8)} (hkeys : ∀ key ∈ keys, pubKeyID c key ∈ keystore.keys)
    (nSigned : ℕ) (ret : Script) :
    ∃ sigs, List.Forall₂ (SignsFor c script txTo nIn nHashType) sigs
        (keys.take (nRequired - nSigned)) ∧
      signKeys c keystore (sigHash c script txTo nIn nHashType) nHashType nRequired keys nSigned
        ret = (nSigned + sigs.length, ret ++ pushAll sigs) := by
  induction keys generalizing nSigned ret with
  | nil =>
    refine ⟨[], ?_, ?_⟩
    · rw [List.take_nil]
      exact .nil
    · rw [pushAll_nil, List.append_nil]
      rfl
  | cons pubkey keys ih =>
    rw [signKeys]
    split
    · rename_i hlt
      obtain ⟨key, sig, _, hworks, hsigns, _, hsign1⟩ :=
        exists_sign1 hstore htype (hkeys pubkey List.mem_cons_self) script txTo nIn
      obtain rfl := hworks.eq_pubKey
      obtain ⟨sigs, hall, heq⟩ := ih (fun key hkey => hkeys key (List.mem_cons_of_mem _ hkey))
        (nSigned + 1) (ret ++ Script.pushBytes sig)
      refine ⟨sig :: sigs, ?_, ?_⟩
      · rw [show nRequired - nSigned = nRequired - (nSigned + 1) + 1 by omega, List.take_succ_cons]
        exact .cons hsigns hall
      · rw [hsign1]
        dsimp only
        rw [heq, pushAll_cons, List.length_cons, List.append_assoc, Nat.add_right_comm]
        rfl
    · rename_i hlt
      refine ⟨[], ?_, ?_⟩
      · rw [Nat.sub_eq_zero_of_le (Nat.not_lt.mp hlt), List.take_zero]
        exact .nil
      · rw [pushAll_nil, List.append_nil]
        rfl

end Signs

/-- The byte strings that a script signature pushes for a script. -/
structure Satisfies (c : Crypto) (script : Script) (txTo : Transaction) (nIn : UInt32)
    (pushes : List (List UInt8)) : Prop where
  small : ∀ b ∈ pushes, b.length ≤ 73
  few : pushes.length ≤ 17
  eval : ∀ scriptSig, evalScript ⟨c, txTo.setScriptSig nIn.toNat scriptSig, nIn, 0⟩ pushes.reverse
    script = some [vchTrue]

section Solve

variable {c : Crypto} {keystore : SigningKeyStore} {script : Script} {txTo : Transaction}
  {nIn : UInt32} {nHashType : Int32} {vSolutions : List (List UInt8)}

theorem findAndDelete_signature {l : List Instruction} (hparses : Parses script l) {sig : List UInt8}
    (hsig : isCanonicalSignature sig = true)
    (hl : ∀ i ∈ l, i.2 = [] ∨ isCanonicalPubKey i.2 = true ∨ i.2 ≠ sig) :
    script.findAndDelete (Script.pushBytes sig) = script := by
  obtain ⟨hpos, hle, _⟩ := isCanonicalSignature_spec hsig
  apply findAndDelete_pushBytes hparses (by omega)
  intro i hi heq
  rcases hl i hi with hnil | hkey | hne
  · rw [← heq, hnil] at hpos
    exact absurd hpos (by decide)
  · exact signature_ne_pubKey hsig hkey heq
  · exact hne heq

theorem exists_satisfies_pubKey (hstore : keystore.Unlocked c) (htype : nHashType ∈ hashTypes)
    (hsolver : solver script = some (.pubKey, vSolutions))
    (hmine : pubKeyID c (vSolutions.headD []) ∈ keystore.keys) :
    ∃ pushes, signSolver c keystore script (sigHash c script txTo nIn nHashType) nHashType =
      (true, .pubKey, pushAll pushes) ∧ Satisfies c script txTo nIn pushes := by
  obtain ⟨opcode, vch, hne, rfl, hparses⟩ := solver_pubKey hsolver
  rw [List.headD_cons] at hmine
  obtain ⟨key, sig, _, hworks, hsigns, _, hsign1⟩ :=
    exists_sign1 hstore htype hmine script txTo nIn
  obtain rfl := hworks.eq_pubKey
  have hsmall := (isCanonicalPubKey_spec hworks.canonical).2.1
  refine ⟨[sig], ?_, ?_, by simp, fun scriptSig => ?_⟩
  · rw [signSolver, hsolver]
    dsimp only
    rw [List.headD_cons, hsign1, pushAll_cons, pushAll_nil, List.append_nil]
    rfl
  · intro b hb
    rw [List.mem_singleton.mp hb]
    exact (isCanonicalSignature_spec hsigns.canonical).2.1
  · apply evalScript_pubKey hparses hne (Nat.le_trans hsmall (by decide))
    rw [findAndDelete_signature hparses hsigns.canonical]
    · exact hsigns.goodSig htype scriptSig
    · intro i hi
      rcases List.mem_pair.mp hi with rfl | rfl
      · exact Or.inr (Or.inl hworks.canonical)
      · exact Or.inl rfl

theorem exists_satisfies_pubKeyHash (hstore : keystore.Unlocked c) (htype : nHashType ∈ hashTypes)
    (hsolver : solver script = some (.pubKeyHash, vSolutions))
    (hmine : vSolutions.headD [] ∈ keystore.keys) :
    ∃ pushes, signSolver c keystore script (sigHash c script txTo nIn nHashType) nHashType =
      (true, .pubKeyHash, pushAll pushes) ∧ Satisfies c script txTo nIn pushes := by
  obtain ⟨opcode, id, hid, rfl, hparses⟩ := solver_pubKeyHash hsolver
  rw [List.headD_cons] at hmine
  obtain ⟨key, sig, hkey, hworks, hsigns, hne, hsign1⟩ :=
    exists_sign1 hstore htype hmine script txTo nIn
  have hsmall := (isCanonicalPubKey_spec hworks.canonical).2.1
  have hpush : Script.pushPubKey key.pubKey = Script.pushBytes key.pubKey := by
    have hlt : key.pubKey.length < opPushData1.toNat := Nat.lt_of_le_of_lt hsmall (by decide)
    rw [Script.pushPubKey, Script.pushBytes, if_pos hlt]
  refine ⟨[sig, key.pubKey], ?_, ?_, by simp, fun scriptSig => ?_⟩
  · rw [signSolver, hsolver]
    dsimp only
    rw [List.headD_cons, hsign1, SigningKeyStore.getPubKey, hkey]
    dsimp only [Option.elim_some]
    rw [hpush, List.nil_append, pushAll_cons, pushAll_cons, pushAll_nil, List.append_nil]
  · intro b hb
    rcases List.mem_pair.mp hb with rfl | rfl
    · exact (isCanonicalSignature_spec hsigns.canonical).2.1
    · omega
  · apply evalScript_pubKeyHash hparses hid ((hworks.hash160_iff key.pubKey).mpr rfl)
    rw [findAndDelete_signature hparses hsigns.canonical]
    · exact hsigns.goodSig htype scriptSig
    · intro i hi
      simp only [List.mem_cons, List.not_mem_nil, or_false] at hi
      rcases hi with rfl | rfl | rfl | rfl | rfl
      · exact Or.inl rfl
      · exact Or.inl rfl
      · exact Or.inr (Or.inr hne.symm)
      · exact Or.inl rfl
      · exact Or.inl rfl

theorem signN_multisig (c : Crypto) (keystore : SigningKeyStore) (m : UInt8) (n : List UInt8)
    (keys : List (List UInt8)) (hash : Uint256) (nHashType : Int32) (ret : Script) :
    signN c keystore ([m] :: (keys ++ [n])) hash nHashType ret =
      let r := signKeys c keystore hash nHashType m.toNat keys 0 ret
      (decide (r.1 = m.toNat), r.2) := by
  rw [signN, List.tail_cons, List.dropLast_concat]
  rfl

theorem exists_satisfies_multisig (hstore : keystore.Unlocked c) (htype : nHashType ∈ hashTypes)
    (hsolver : solver script = some (.multisig, vSolutions))
    (hmine : ∀ key ∈ vSolutions.tail.dropLast, pubKeyID c key ∈ keystore.keys) :
    ∃ pushes, signSolver c keystore script (sigHash c script txTo nIn nHashType) nHashType =
      (true, .multisig, pushAll pushes) ∧ Satisfies c script txTo nIn pushes := by
  obtain ⟨opcodeM, opcodeN, vchM, vchN, pushes, hM, hM', hN, hN', hle, hlen, rfl, hparses⟩ :=
    solver_multisig hsolver
  rw [List.tail_cons, List.dropLast_concat] at hmine
  have hcanonical : ∀ key ∈ pushes.map Prod.snd, isCanonicalPubKey key = true := by
    intro key hkey
    obtain ⟨_, _, _, hworks, _⟩ := exists_sign1 hstore htype (hmine key hkey) script txTo nIn
    rw [hworks.eq_pubKey]
    exact hworks.canonical
  have hpushes : ∀ i ∈ pushes, i.2 ≠ [] ∧ i.2.length ≤ maxScriptElementSize := by
    intro i hi
    obtain ⟨hne, hsmall, _⟩ := isCanonicalPubKey_spec (hcanonical _ (List.mem_map_of_mem hi))
    exact ⟨hne, Nat.le_trans hsmall (by decide)⟩
  obtain ⟨sigs, hall, heq⟩ := signKeys_eq hstore htype script txTo nIn (opcodeM - 0x50).toNat
    hmine 0 [0x00]
  have hcount : sigs.length = (opcodeM - 0x50).toNat := by
    rw [hall.length_eq, List.length_take, List.length_map]
    omega
  have hsigned : ∀ sig ∈ sigs, isCanonicalSignature sig = true :=
    ((List.forall₂_and_left _ _).mp (hall.imp fun _ _ hsigns => ⟨hsigns.canonical, hsigns⟩)).1
  have hM16 : (opcodeM - 0x50).toNat ≤ 16 := by
    rw [UInt8.toNat_sub_of_le _ _ (UInt8.le_trans (by decide) hM)]
    have h16 : opcodeM.toNat ≤ 0x60 := UInt8.le_iff_toNat_le.mp hM'
    change opcodeM.toNat - 0x50 ≤ 16
    omega
  refine ⟨[] :: sigs, ?_, ?_, ?_, fun scriptSig => ?_⟩
  · rw [signSolver, hsolver]
    dsimp only
    rw [signN_multisig, heq, Nat.zero_add, hcount, pushAll_cons]
    dsimp only
    rw [decide_eq_true rfl]
    rfl
  · intro b hb
    rcases List.mem_cons.mp hb with rfl | hb
    · exact Nat.zero_le _
    · exact (isCanonicalSignature_spec (hsigned b hb)).2.1
  · rw [List.length_cons]
    omega
  · rw [List.reverse_cons]
    apply evalScript_multisig hparses hM hM' hN hN' hcount hlen hpushes
    · have hgood := hall.imp fun _ _ hsigns => hsigns.goodSig htype scriptSig
      exact List.sublistForall₂_iff.mpr ⟨_, hgood, List.take_sublist _ _⟩
    · intro sig hsig
      apply findAndDelete_signature hparses (hsigned sig hsig)
      intro i hi
      have hopcodes := hparses.eq_nil_of_opcode hi
      rcases List.mem_cons.mp hi with rfl | hi'
      · exact Or.inl (hopcodes (UInt8.lt_of_lt_of_le (by decide) hM))
      · rcases List.mem_append.mp hi' with hi' | hi'
        · exact Or.inr (Or.inl (hcanonical _ (List.mem_map_of_mem hi')))
        · rcases List.mem_pair.mp hi' with rfl | rfl
          · exact Or.inl (hopcodes (UInt8.lt_of_lt_of_le (by decide) hN))
          · exact Or.inl rfl

theorem exists_satisfies (hstore : keystore.Unlocked c) (htype : nHashType ∈ hashTypes) {fuel : ℕ}
    (hmine : keystore.isMineScript c (fuel + 1) script = true)
    (hhash : script.isPayToScriptHash = false) (txTo : Transaction) (nIn : UInt32) :
    ∃ type pushes, type ≠ .scriptHash ∧
      signSolver c keystore script (sigHash c script txTo nIn nHashType) nHashType =
        (true, type, pushAll pushes) ∧ Satisfies c script txTo nIn pushes := by
  rw [KeyStore.isMineScript] at hmine
  cases hsolver : solver script with
  | none =>
    rw [hsolver] at hmine
    cases hmine
  | some r =>
    obtain ⟨type, vSolutions⟩ := r
    rw [hsolver] at hmine
    cases type with
    | nonStandard => cases hmine
    | nullData => cases hmine
    | pubKey =>
      obtain ⟨pushes, h⟩ := exists_satisfies_pubKey hstore htype hsolver (of_decide_eq_true hmine)
      exact ⟨_, pushes, by decide, h⟩
    | pubKeyHash =>
      obtain ⟨pushes, h⟩ :=
        exists_satisfies_pubKeyHash hstore htype hsolver (of_decide_eq_true hmine)
      exact ⟨_, pushes, by decide, h⟩
    | scriptHash =>
      rw [(solver_scriptHash_iff.mp hsolver).1] at hhash
      cases hhash
    | multisig =>
      have hkeys : ∀ key ∈ vSolutions.tail.dropLast, pubKeyID c key ∈ keystore.keys :=
        fun key hkey => of_decide_eq_true (List.all_eq_true.mp hmine key hkey)
      obtain ⟨pushes, h⟩ := exists_satisfies_multisig hstore htype hsolver hkeys
      exact ⟨_, pushes, by decide, h⟩

end Solve

section Spend

variable {c : Crypto} {keystore : SigningKeyStore} {fromPubKey script : Script}
  {txTo : Transaction} {nIn : UInt32} {nHashType : Int32}

theorem parses_scriptHash (h : script.isPayToScriptHash = true) :
    ((script.drop 2).take 20).length = 20 ∧
      Parses script [(0xa9, []), (0x14, (script.drop 2).take 20), (0x87, [])] := by
  obtain ⟨hash, hlen, rfl⟩ := Script.isPayToScriptHash_iff.mp h
  have htake : ((0xa9 :: 0x14 :: (hash ++ [0x87]) : Script).drop 2).take 20 = hash :=
    List.take_left' hlen
  rw [htake]
  exact ⟨hlen, parses_payToScriptHash hlen⟩

theorem length_pushAll_satisfies {pushes : List (List UInt8)}
    (h : Satisfies c script txTo nIn pushes) : (pushAll pushes).length ≤ 17 * 78 :=
  Nat.le_trans (length_pushAll_le h.small) (Nat.mul_le_mul_right 78 h.few)

theorem evalScript_pushAll_satisfies {pushes : List (List UInt8)}
    (h : Satisfies c script txTo nIn pushes) (input : ScriptInput) :
    evalScript input [] (pushAll pushes) = some pushes.reverse := by
  have hsize := length_pushAll_satisfies h
  have hfew := h.few
  exact evalScript_pushAll input (fun b hb => Nat.le_trans (h.small b hb) (by decide))
    (by omega) (by omega)

theorem verifyScript_of_satisfies {pushes : List (List UInt8)}
    (h : Satisfies c script txTo nIn pushes) (hhash : script.isPayToScriptHash = false)
    (scriptSig : Script) :
    verifyScript ⟨c, txTo.setScriptSig nIn.toNat scriptSig, nIn, 0⟩ (pushAll pushes) script =
      .ok true := by
  rw [verifyScript, evalScript_pushAll_satisfies h]
  dsimp only
  rw [h.eval scriptSig]
  dsimp only
  rw [hhash]
  rfl

theorem verifyScript_scriptHash {pushes : List (List UInt8)}
    (h : Satisfies c script txTo nIn pushes) (hsize : script.length ≤ maxScriptElementSize)
    (hhash : fromPubKey.isPayToScriptHash = true)
    (hid : (c.hash160 script).toList = (fromPubKey.drop 2).take 20) (scriptSig : Script) :
    verifyScript ⟨c, txTo.setScriptSig nIn.toNat scriptSig, nIn, 0⟩
      (pushAll pushes ++ Script.pushBytes script) fromPubKey = .ok true := by
  have hpushes : pushAll pushes ++ Script.pushBytes script = pushAll (pushes ++ [script]) := by
    rw [pushAll_append, pushAll_cons, pushAll_nil, List.append_nil]
  have hlen : (pushAll (pushes ++ [script])).length ≤ 10000 := by
    have hpush := length_pushBytes_le script
    have hall := length_pushAll_satisfies h
    change script.length ≤ 520 at hsize
    rw [← hpushes, List.length_append]
    omega
  have hfew := h.few
  have hcopy : ∀ input, evalScript input [] (pushAll (pushes ++ [script])) =
      some (script :: pushes.reverse) := by
    intro input
    rw [evalScript_pushAll input _ hlen (by rw [List.length_append, List.length_singleton]; omega),
      List.reverse_append]
    · rfl
    · intro b hb
      rcases List.mem_append.mp hb with hb | hb
      · exact Nat.le_trans (h.small b hb) (by decide)
      · rw [List.mem_singleton.mp hb]
        exact hsize
  obtain ⟨hlen20, hparses⟩ := parses_scriptHash hhash
  have heval : evalScript ⟨c, txTo.setScriptSig nIn.toNat scriptSig, nIn, 0⟩
      (script :: pushes.reverse) fromPubKey = some (vchTrue :: pushes.reverse) :=
    evalScript_scriptHash hparses hlen20 hid (by rw [List.length_reverse]; omega)
  rw [hpushes, verifyScript, hcopy]
  dsimp only
  rw [heval]
  dsimp only
  rw [hhash, isPushOnly_pushAll (by omega)]
  change topVerdict (evalScript _ pushes.reverse script) = _
  rw [h.eval scriptSig]
  rfl

theorem isMine_scriptHash (hhash : fromPubKey.isPayToScriptHash = true)
    (hmine : keystore.isMine c fromPubKey = true) :
    ∃ fuel, ∃ subscript ∈ keystore.mapScripts.lookup ((fromPubKey.drop 2).take 20),
      keystore.isMineScript c (fuel + 1) subscript = true := by
  have hsolver := solver_scriptHash_iff.mpr ⟨hhash, rfl⟩
  rw [KeyStore.isMine, KeyStore.isMineScript, hsolver] at hmine
  dsimp only [List.headD_cons] at hmine
  cases hlookup : keystore.mapScripts.lookup ((fromPubKey.drop 2).take 20) with
  | none =>
    rw [hlookup] at hmine
    cases hmine
  | some subscript =>
    rw [hlookup] at hmine
    cases hlen : keystore.mapScripts.length with
    | zero =>
      rw [hlen] at hmine
      cases hmine
    | succ fuel =>
      rw [hlen] at hmine
      exact ⟨fuel, subscript, rfl, hmine⟩

theorem signSolver_scriptHash (hhash : fromPubKey.isPayToScriptHash = true) {subscript : Script}
    (hlookup : keystore.mapScripts.lookup ((fromPubKey.drop 2).take 20) = some subscript)
    (hash : Uint256) (nHashType : Int32) :
    signSolver c keystore fromPubKey hash nHashType = (true, .scriptHash, subscript) := by
  rw [signSolver, solver_scriptHash_iff.mpr ⟨hhash, rfl⟩]
  dsimp only [List.headD_cons]
  rw [hlookup]

theorem not_canSpend_of_nested (hnested : keystore.NestedScriptHash fromPubKey) :
    ¬CanSpend c keystore fromPubKey txTo nIn nHashType := by
  obtain ⟨hhash, subscript, hlookup, hsubhash⟩ := hnested
  rintro ⟨scriptSig, hsign, _⟩
  have hsub : ∀ hash, (signSolver c keystore subscript hash nHashType).2.1 = .scriptHash := by
    intro hash
    rw [signSolver, solver_scriptHash_iff.mpr ⟨hsubhash, rfl⟩]
    dsimp only
    split <;> rfl
  have hsign' : signSignature c keystore fromPubKey txTo nIn nHashType =
      .ok (false, txTo.setScriptSig nIn.toNat ((signSolver c keystore subscript (sigHash c subscript
        (txTo.setScriptSig nIn.toNat subscript) nIn nHashType) nHashType).2.2 ++
          Script.pushBytes subscript)) := by
    rw [signSignature]
    dsimp only
    rw [signSolver_scriptHash hhash hlookup]
    dsimp only [Bool.not_true, if_true]
    rw [hsub]
    simp only [ne_eq, not_true_eq_false, decide_false, Bool.and_false, Bool.not_false, if_true]
    rfl
  rw [hsign'] at hsign
  cases hsign

theorem canSpend_of_isMine (hstore : keystore.Unlocked c) (htype : nHashType ∈ hashTypes)
    (hmine : keystore.isMine c fromPubKey = true)
    (hnested : ¬keystore.NestedScriptHash fromPubKey) :
    CanSpend c keystore fromPubKey txTo nIn nHashType := by
  cases hhash : fromPubKey.isPayToScriptHash with
  | false =>
    obtain ⟨type, pushes, htype', hsolver, hsat⟩ :=
      exists_satisfies hstore htype hmine hhash txTo nIn
    have hverify := verifyScript_of_satisfies hsat hhash (pushAll pushes)
    refine ⟨pushAll pushes, ?_, hverify⟩
    rw [signSignature]
    dsimp only
    rw [hsolver]
    dsimp only
    rw [if_neg htype']
    dsimp only
    rw [hverify]
    rfl
  | true =>
    obtain ⟨fuel, subscript, hlookup, hsubmine⟩ := isMine_scriptHash hhash hmine
    have hsubhash : subscript.isPayToScriptHash = false := by
      rw [Bool.eq_false_iff]
      exact fun hsub => hnested ⟨hhash, subscript, hlookup, hsub⟩
    obtain ⟨hid, hsize⟩ := hstore.scripts _ subscript hlookup
    obtain ⟨type, pushes, htype', hsolver, hsat⟩ :=
      exists_satisfies hstore htype hsubmine hsubhash txTo nIn
    have hverify := verifyScript_scriptHash hsat hsize hhash hid
      (pushAll pushes ++ Script.pushBytes subscript)
    refine ⟨pushAll pushes ++ Script.pushBytes subscript, ?_, hverify⟩
    rw [signSignature]
    dsimp only
    rw [signSolver_scriptHash hhash hlookup]
    dsimp only
    rw [if_pos rfl, sigHash_setScriptSig, hsolver]
    dsimp only
    rw [decide_eq_true htype', hverify]
    rfl

end Spend

/-- For an unlocked key store, what `IsMine` accepts can be spent if and only if it is no script
hash whose script is a script hash again. -/
theorem signSignature_isMine_iff {c : Crypto} {keystore : SigningKeyStore}
    (hstore : keystore.Unlocked c) (fromPubKey : Script) (txTo : Transaction) (nIn : UInt32)
    {nHashType : Int32} (htype : nHashType ∈ hashTypes) :
    (keystore.isMine c fromPubKey = true → CanSpend c keystore fromPubKey txTo nIn nHashType) ↔
      ¬(keystore.isMine c fromPubKey = true ∧ keystore.NestedScriptHash fromPubKey) := by
  constructor
  · rintro h ⟨hmine, hnested⟩
    exact not_canSpend_of_nested hnested (h hmine)
  · intro h hmine
    exact canSpend_of_isMine hstore htype hmine fun hnested => h ⟨hmine, hnested⟩

namespace Sample

def signingPubKey : List UInt8 := 0x02 :: List.replicate 32 7

/-- The shortest signatures there are, of a hash modulo 100. -/
def shortSignature (hash : Uint256) : List UInt8 :=
  [0x30, 6, 2, 1, .ofNat (hash.toNat % 100 + 1), 2, 1, 1]

/-- Hashes that tell the public key from everything else, and scripts by their length. -/
def signingCrypto : Crypto where
  sha1 _ := .replicate 20 0
  sha256 vch := if vch = signingPubKey then .replicate 32 1
    else .ofFn fun i => if i = 0 then 2 else .ofNat vch.length
  ripemd160 vch := .ofFn fun i => vch.getD i 0
  verify vchPubKey hash vchSig := vchPubKey = signingPubKey && vchSig = shortSignature hash

def hashOf (script : Script) : KeyID := (signingCrypto.hash160 script).toList

def payToSigningKey : Script := Script.pushBytes signingPubKey ++ [0xac]
def payToHash (script : Script) : Script := [0xa9, 0x14] ++ hashOf script ++ [0x87]

/-- A key, a script with it, and a script with the hash of that script. -/
def signingStore : SigningKeyStore where
  keys := {hashOf signingPubKey}
  mapScripts := [(hashOf payToSigningKey, payToSigningKey),
    (hashOf (payToHash payToSigningKey), payToHash payToSigningKey)]
  getKey _ := some ⟨signingPubKey, fun hash => some (shortSignature hash)⟩

theorem works_signingKey : SigningKey.Works signingCrypto (hashOf signingPubKey)
    ⟨signingPubKey, fun hash => some (shortSignature hash)⟩ where
  canonical := by decide +kernel
  hash160_iff vch := by
    constructor
    · intro heq
      by_contra hne
      have hhead := congrArg (fun v : Vector UInt8 20 => v[0]) (Vector.toList_inj.mp heq)
      simp [Crypto.hash160, signingCrypto, hne] at hhead
    · rintro rfl
      rfl
  signs hash := by
    have hbyte : (UInt8.ofNat (hash.toNat % 100 + 1)) < 0x80 := by
      have hlt := Nat.mod_lt hash.toNat (show 100 > 0 by decide)
      refine UInt8.lt_iff_toNat_lt.mpr ?_
      rw [UInt8.toNat_ofNat', show (0x80 : UInt8).toNat = 128 from rfl]
      omega
    have helement : checkSignatureElement [1] = true := by decide
    have hall : hashTypes.all (fun nHashType => decide (1 ≤ hashTypeByte nHashType &&& 0x7f ∧
        hashTypeByte nHashType &&& 0x7f ≤ 3)) = true := by decide
    refine ⟨shortSignature hash, rfl, ?_, fun nHashType htype => ⟨?_, ?_⟩⟩
    · simp [signingCrypto]
    · have htypes := of_decide_eq_true (List.all_eq_true.mp hall nHashType htype)
      rw [shortSignature]
      generalize UInt8.ofNat (hash.toNat % 100 + 1) = b at hbyte
      simp [isCanonicalSignature, hbyte, htypes, helement]
    · intro heq
      exact absurd (show 9 = 20 from congrArg List.length heq) (by decide)

theorem unlocked_signingStore : signingStore.Unlocked signingCrypto where
  keys id hid := by
    rw [Finset.mem_singleton.mp hid]
    exact ⟨_, rfl, works_signingKey⟩
  scripts id script hscript := by
    have hall : ∀ e ∈ signingStore.mapScripts, (signingCrypto.hash160 e.2).toList = e.1 ∧
        e.2.length ≤ maxScriptElementSize := by decide +kernel
    obtain ⟨l, l', heq, _⟩ := List.lookup_eq_some_iff.mp hscript
    exact hall (id, script) (heq ▸ List.mem_append_right _ List.mem_cons_self)

end Sample

open Sample in
theorem signSignature_isMine_iff_payToHash :
    signingStore.isMine signingCrypto (payToHash payToSigningKey) = true ∧
      CanSpend signingCrypto signingStore (payToHash payToSigningKey) (spend 1 [⟨5, 0⟩] [out 7]) 0
        sigHashAll := by
  have hmine : signingStore.isMine signingCrypto (payToHash payToSigningKey) = true := by
    decide +kernel
  have hnested : ¬signingStore.NestedScriptHash (payToHash payToSigningKey) := by
    rintro ⟨_, subscript, hlookup, hhash⟩
    have hsub : signingStore.mapScripts.lookup (((payToHash payToSigningKey).drop 2).take 20) =
        some payToSigningKey := by decide +kernel
    rw [hsub] at hlookup
    cases hlookup
    exact absurd hhash (by decide +kernel)
  exact ⟨hmine, (signSignature_isMine_iff unlocked_signingStore _ _ _ (by decide)).mpr
    (fun h => hnested h.2) hmine⟩

open Sample in
/-- The hash of a script that is a hash itself. -/
theorem isMine_not_canSpend :
    ¬∀ (c : Crypto) (keystore : SigningKeyStore), keystore.Unlocked c →
      ∀ (fromPubKey : Script) (txTo : Transaction) (nIn : UInt32),
        nIn.toNat < txTo.vin.length → keystore.isMine c fromPubKey = true →
          CanSpend c keystore fromPubKey txTo nIn sigHashAll := by
  intro h
  have hmine : signingStore.isMine signingCrypto (payToHash (payToHash payToSigningKey)) = true := by
    decide +kernel
  have hnested : signingStore.NestedScriptHash (payToHash (payToHash payToSigningKey)) :=
    ⟨by decide +kernel, payToHash payToSigningKey, by decide +kernel, by decide +kernel⟩
  exact not_canSpend_of_nested hnested
    (h signingCrypto signingStore unlocked_signingStore _ (spend 1 [⟨5, 0⟩] [out 7]) 0 (by decide)
      hmine)

end Beancash
