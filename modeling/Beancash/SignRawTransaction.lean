import Beancash.CombineSignatures
import Beancash.SignSignature
import Beancash.Inputs
import Beancash.Serialize

namespace Beancash

open StackMachine

/-- What ends a call early. -/
inductive RawTxFault where
  /-- TX decode failed -/
  | txDecodeFailed
  /-- Missing transaction -/
  | missingTransaction
  /-- Previous output scriptPubKey mismatch -/
  | scriptPubKeyMismatch
  | script (halt : Halt ScriptException)
  /-- `txv.vin[i]` is read, and there is no such input. -/
  | noSuchInput
deriving DecidableEq

/-- What a call is given besides the transactions, and what it reads of the node. -/
structure RawTxCall where
  crypto : Crypto
  view : InputView
  keystore : SigningKeyStore
  prevTxs : List (OutPoint × Script)
  nHashType : Int32

/-- The variants, one after the other. -/
def readVariants (L : Layout) : ℕ → List UInt8 → Except RawTxFault (List Transaction)
  | _, [] => .ok []
  | 0, _ :: _ => .error .txDecodeFailed
  | fuel + 1, ssData => do
    let (tx, ssData) ← ((Transaction.unserialize L).run ssData).elim
      (.error .txDecodeFailed) Except.ok
    let txVariants ← readVariants L fuel ssData
    return tx :: txVariants

abbrev MapPrevOut := AList fun _ : OutPoint => Script

/-- Fetch a previous transaction; the others are fetched one at a time too. -/
def RawTxCall.fetchPrevOut (call : RawTxCall) (mapPrevOut : MapPrevOut) (prevout : OutPoint) :
    MapPrevOut :=
  match (call.view.fetchPrev ∅ false false prevout.hash).bind fun prev =>
      prev.2.vout[prevout.n.toNat]? with
  | some o => mapPrevOut.insert prevout o.scriptPubKey
  | none => mapPrevOut

/-- Add a previous output given in the call. -/
def addPrevTx (mapPrevOut : MapPrevOut) (prevTx : OutPoint × Script) :
    Except RawTxFault MapPrevOut :=
  match mapPrevOut.lookup prevTx.1 with
  | some scriptPubKey =>
    if scriptPubKey ≠ prevTx.2 then .error .scriptPubKeyMismatch else .ok mapPrevOut
  | none => .ok (mapPrevOut.insert prevTx.1 prevTx.2)

/-- `mapPrevOut` -/
def RawTxCall.prevOuts (call : RawTxCall) (tx : Transaction) : Except RawTxFault MapPrevOut :=
  call.prevTxs.foldlM addPrevTx (tx.prevouts.foldl call.fetchPrevOut ∅)

/-- Merge in the signature of a variant. -/
def mergeVariant (c : Crypto) (prevPubKey : Script) (i : ℕ) (mergedTx txv : Transaction) :
    Except RawTxFault Transaction :=
  match txv.vin[i]? with
  | none => .error .noSuchInput
  | some txin =>
    let scriptSig := (mergedTx.vin[i]?).elim [] TxIn.scriptSig
    .ok (mergedTx.setScriptSig i
      (combineSignatures c prevPubKey mergedTx (.ofNat i) scriptSig txin.scriptSig))

/-- Sign an input, for `SIGHASH_SINGLE` only if there's a corresponding output. -/
def RawTxCall.sign (call : RawTxCall) (prevPubKey : Script) (mergedTx : Transaction) (i : ℕ) :
    Except RawTxFault Transaction :=
  let fHashSingle := call.nHashType &&& ~~~sigHashAnyoneCanPay = sigHashSingle
  if ¬fHashSingle ∨ i < mergedTx.vout.length then
    ((signSignature call.crypto call.keystore prevPubKey mergedTx (.ofNat i)
      call.nHashType).mapError .script).map Prod.snd
  else .ok mergedTx

/-- One input: sign it, merge in the other signatures, and verify it. -/
def RawTxCall.signInput (call : RawTxCall) (mapPrevOut : MapPrevOut)
    (txVariants : List Transaction) (r : Transaction × Bool) (i : ℕ) :
    Except RawTxFault (Transaction × Bool) := do
  let (mergedTx, fComplete) := r
  match (mergedTx.vin[i]?).bind fun txin => mapPrevOut.lookup txin.prevout with
  | none => return (mergedTx, false)
  | some prevPubKey =>
    let mergedTx ← call.sign prevPubKey (mergedTx.setScriptSig i []) i
    let mergedTx ← txVariants.foldlM (mergeVariant call.crypto prevPubKey i) mergedTx
    let fVerified ← (verifyScript ⟨call.crypto, mergedTx, .ofNat i, 0⟩
      ((mergedTx.vin[i]?).elim [] TxIn.scriptSig) prevPubKey).mapError .script
    return (mergedTx, fComplete && fVerified)

/-- `signrawtransaction` from the variants on: the merged transaction, and `complete`. -/
def RawTxCall.signVariants (call : RawTxCall) (txVariants : List Transaction) :
    Except RawTxFault (Transaction × Bool) :=
  match txVariants with
  | [] => .error .missingTransaction
  | tx :: _ => do
    let mapPrevOut ← call.prevOuts tx
    (List.range tx.vin.length).foldlM (call.signInput mapPrevOut txVariants) (tx, true)

def RawTxCall.signRawTransaction (L : Layout) (call : RawTxCall) (txData : List UInt8) :
    Except RawTxFault (Transaction × Bool) := do
  let txVariants ← readVariants L txData.length txData
  call.signVariants txVariants

def Transaction.clearScriptSigs (tx : Transaction) : Transaction :=
  { tx with vin := tx.vin.map fun txin => { txin with scriptSig := [] } }

/-- The transactions are equal except in their `scriptSig`s. -/
def SameButScriptSigs (tx tx' : Transaction) : Prop := tx'.clearScriptSigs = tx.clearScriptSigs

theorem SameButScriptSigs.trans {a b c : Transaction} (h : SameButScriptSigs a b)
    (h' : SameButScriptSigs b c) : SameButScriptSigs a c := Eq.trans h' h

theorem sameButScriptSigs_setScriptSig (tx : Transaction) (i : ℕ) (scriptSig : Script) :
    SameButScriptSigs tx (tx.setScriptSig i scriptSig) := by
  unfold SameButScriptSigs Transaction.clearScriptSigs Transaction.setScriptSig
  congr 1
  apply List.ext_getElem?
  intro j
  rw [List.getElem?_map, List.getElem?_map, List.getElem?_modify]
  split <;> cases tx.vin[j]? <;> rfl

theorem SameButScriptSigs.prevout {tx tx' : Transaction} (h : SameButScriptSigs tx tx') (i : ℕ) :
    (tx'.vin[i]?).map TxIn.prevout = (tx.vin[i]?).map TxIn.prevout := by
  have hvin := congrArg (fun tx : Transaction => (tx.vin[i]?).map TxIn.prevout) h
  simp only [Transaction.clearScriptSigs, List.getElem?_map, Option.map_map] at hvin
  exact hvin

theorem exists_verifyScript (input : ScriptInput) (scriptSig scriptPubKey : Script) :
    ∃ fVerified, verifyScript input scriptSig scriptPubKey = .ok fVerified := by
  have hsafe := (safe_verifyScript input scriptSig scriptPubKey).ne_underflow
  unfold verifyScript at hsafe ⊢
  split
  · exact ⟨_, rfl⟩
  · rename_i stackCopy hcopy
    rw [hcopy] at hsafe
    split
    · exact ⟨_, rfl⟩
    · exact ⟨_, rfl⟩
    · rename_i back stack hstack
      simp only [hstack] at hsafe
      split
      · exact ⟨_, rfl⟩
      · rename_i hback
        rw [if_neg hback] at hsafe
        split
        · rename_i hhash
          rw [if_pos hhash] at hsafe
          split
          · exact ⟨_, rfl⟩
          · rename_i hpush
            rw [if_neg hpush] at hsafe
            cases stackCopy with
            | nil => exact absurd rfl hsafe
            | cons pubKeySerialized stackCopy =>
              change ∃ fVerified,
                topVerdict (evalScript input stackCopy pubKeySerialized) = .ok fVerified
              unfold topVerdict
              split <;> exact ⟨_, rfl⟩
        · exact ⟨_, rfl⟩

theorem exists_signSignature (c : Crypto) (keystore : SigningKeyStore) (fromPubKey : Script)
    (txTo : Transaction) (nIn : UInt32) (nHashType : Int32) :
    ∃ fSigned tx, signSignature c keystore fromPubKey txTo nIn nHashType = .ok (fSigned, tx) ∧
      SameButScriptSigs txTo tx := by
  unfold signSignature
  dsimp only
  split
  · exact ⟨_, _, rfl, sameButScriptSigs_setScriptSig _ _ _⟩
  · generalize (if _ = TxnOutType.scriptHash then _ else _ : Bool × Script) = solved
    split
    · exact ⟨_, _, rfl, sameButScriptSigs_setScriptSig _ _ _⟩
    · obtain ⟨fVerified, hverified⟩ := exists_verifyScript
        ⟨c, txTo.setScriptSig nIn.toNat solved.2, nIn, 0⟩ solved.2 fromPubKey
      refine ⟨fVerified, txTo.setScriptSig nIn.toNat solved.2, ?_,
        sameButScriptSigs_setScriptSig _ _ _⟩
      rw [hverified]
      rfl

theorem prevOuts_ne_noSuchInput (call : RawTxCall) (tx : Transaction) :
    call.prevOuts tx ≠ .error .noSuchInput := by
  unfold RawTxCall.prevOuts
  generalize tx.prevouts.foldl call.fetchPrevOut ∅ = mapPrevOut
  induction call.prevTxs generalizing mapPrevOut with
  | nil => exact fun h => by cases h
  | cons prevTx prevTxs ih =>
    rw [List.foldlM_cons]
    unfold addPrevTx
    split
    · split
      · exact fun h => by cases h
      · exact ih mapPrevOut
    · exact ih (mapPrevOut.insert prevTx.1 prevTx.2)

theorem foldlM_mergeVariant (c : Crypto) (prevPubKey : Script) (i : ℕ)
    (txVariants : List Transaction) (mergedTx : Transaction) :
    ((∀ txv ∈ txVariants, i < txv.vin.length) →
      ∃ tx, txVariants.foldlM (mergeVariant c prevPubKey i) mergedTx = .ok tx ∧
        SameButScriptSigs mergedTx tx) ∧
    ((∃ txv ∈ txVariants, txv.vin.length ≤ i) →
      txVariants.foldlM (mergeVariant c prevPubKey i) mergedTx = .error .noSuchInput) := by
  induction txVariants generalizing mergedTx with
  | nil => exact ⟨fun _ => ⟨mergedTx, rfl, rfl⟩, fun ⟨_, h, _⟩ => absurd h List.not_mem_nil⟩
  | cons txv txVariants ih =>
    rw [List.foldlM_cons]
    by_cases hlen : i < txv.vin.length
    · obtain ⟨txin, htxin⟩ : ∃ txin, txv.vin[i]? = some txin :=
        ⟨_, List.getElem?_eq_getElem hlen⟩
      have hmerge : mergeVariant c prevPubKey i mergedTx txv = .ok (mergedTx.setScriptSig i
          (combineSignatures c prevPubKey mergedTx (.ofNat i)
            ((mergedTx.vin[i]?).elim [] TxIn.scriptSig) txin.scriptSig)) := by
        rw [mergeVariant, htxin]
      rw [hmerge]
      obtain ⟨hfits, hshort⟩ := ih (mergedTx.setScriptSig i
        (combineSignatures c prevPubKey mergedTx (.ofNat i)
          ((mergedTx.vin[i]?).elim [] TxIn.scriptSig) txin.scriptSig))
      constructor
      · intro hall
        obtain ⟨tx, htx, hsame⟩ := hfits fun t ht => hall t (List.mem_cons_of_mem _ ht)
        exact ⟨tx, htx, (sameButScriptSigs_setScriptSig _ _ _).trans hsame⟩
      · rintro ⟨t, ht, hle⟩
        rcases List.mem_cons.mp ht with rfl | ht
        · omega
        · exact hshort ⟨t, ht, hle⟩
    · have hmerge : mergeVariant c prevPubKey i mergedTx txv = .error .noSuchInput := by
        rw [mergeVariant, List.getElem?_eq_none (not_lt.mp hlen)]
      rw [hmerge]
      exact ⟨fun hall => absurd (hall txv List.mem_cons_self) hlen, fun _ => rfl⟩

/-- All variants have the input that the first one has at a place, or it is not signed. -/
def InputFits (mapPrevOut : MapPrevOut) (txVariants : List Transaction) (tx : Transaction) (i : ℕ) :
    Prop :=
  ∀ txin, tx.vin[i]? = some txin → (mapPrevOut.lookup txin.prevout).isSome = true →
    ∀ txv ∈ txVariants, i < txv.vin.length

theorem signInput_spec (call : RawTxCall) (mapPrevOut : MapPrevOut)
    (txVariants : List Transaction) {tx : Transaction} {r : Transaction × Bool}
    (hsame : SameButScriptSigs tx r.1) (i : ℕ) :
    (InputFits mapPrevOut txVariants tx i →
      ∃ r', call.signInput mapPrevOut txVariants r i = .ok r' ∧ SameButScriptSigs tx r'.1) ∧
    (¬InputFits mapPrevOut txVariants tx i →
      call.signInput mapPrevOut txVariants r i = .error .noSuchInput) := by
  obtain ⟨mergedTx, fComplete⟩ := r
  have hlookup : ((mergedTx.vin[i]?).bind fun txin => mapPrevOut.lookup txin.prevout) =
      (tx.vin[i]?).bind fun txin => mapPrevOut.lookup txin.prevout := by
    have hprev := congrArg (fun o : Option OutPoint => o.bind mapPrevOut.lookup) (hsame.prevout i)
    simp only [Option.bind_map] at hprev
    exact hprev
  unfold RawTxCall.signInput
  dsimp only
  rw [hlookup]
  cases hfound : (tx.vin[i]?).bind fun txin => mapPrevOut.lookup txin.prevout with
  | none =>
    refine ⟨fun _ => ⟨_, rfl, hsame⟩, fun hnot => absurd ?_ hnot⟩
    intro txin htxin hsome
    rw [htxin, Option.bind_some] at hfound
    rw [hfound] at hsome
    cases hsome
  | some prevPubKey =>
    obtain ⟨txin, htxin, hprevPubKey⟩ := Option.bind_eq_some_iff.mp hfound
    -- the input is signed or not, and then the variants are read
    obtain ⟨signedTx, hsigned, hsameSigned⟩ : ∃ signedTx,
        call.sign prevPubKey (mergedTx.setScriptSig i []) i = .ok signedTx ∧
          SameButScriptSigs tx signedTx := by
      have hcleared := hsame.trans (sameButScriptSigs_setScriptSig mergedTx i [])
      unfold RawTxCall.sign
      dsimp only
      split
      · obtain ⟨fSigned, signedTx, hrun, hsameSigned⟩ := exists_signSignature call.crypto
          call.keystore prevPubKey (mergedTx.setScriptSig i []) (.ofNat i) call.nHashType
        exact ⟨signedTx, by rw [hrun]; rfl, hcleared.trans hsameSigned⟩
      · exact ⟨_, rfl, hcleared⟩
    obtain ⟨hfits, hshort⟩ := foldlM_mergeVariant call.crypto prevPubKey i txVariants signedTx
    dsimp only
    rw [hsigned]
    constructor
    · intro hall
      obtain ⟨tx', htx', hsame'⟩ := hfits (hall txin htxin (Option.isSome_iff_exists.mpr
        ⟨prevPubKey, hprevPubKey⟩))
      obtain ⟨fVerified, hverified⟩ := exists_verifyScript ⟨call.crypto, tx', .ofNat i, 0⟩
        ((tx'.vin[i]?).elim [] TxIn.scriptSig) prevPubKey
      refine ⟨(tx', fComplete && fVerified), ?_, hsameSigned.trans hsame'⟩
      change (txVariants.foldlM (mergeVariant call.crypto prevPubKey i) signedTx >>= _) = _
      rw [htx']
      change ((verifyScript ⟨call.crypto, tx', .ofNat i, 0⟩
        ((tx'.vin[i]?).elim [] TxIn.scriptSig) prevPubKey).mapError RawTxFault.script >>= _) = _
      rw [hverified]
      rfl
    · intro hnot
      have hsome : ∃ txv ∈ txVariants, txv.vin.length ≤ i := by
        by_contra hall
        refine hnot fun _ _ _ txv htxv => ?_
        by_contra hlt
        exact hall ⟨txv, htxv, not_lt.mp hlt⟩
      change (txVariants.foldlM (mergeVariant call.crypto prevPubKey i) signedTx >>= _) = _
      rw [hshort hsome]
      rfl

theorem foldlM_signInput (call : RawTxCall) (mapPrevOut : MapPrevOut)
    (txVariants : List Transaction) {tx : Transaction} (is : List ℕ) {r : Transaction × Bool}
    (hsame : SameButScriptSigs tx r.1) :
    ((∀ i ∈ is, InputFits mapPrevOut txVariants tx i) →
      ∃ r', is.foldlM (call.signInput mapPrevOut txVariants) r = .ok r' ∧
        SameButScriptSigs tx r'.1) ∧
    ((∃ i ∈ is, ¬InputFits mapPrevOut txVariants tx i) →
      is.foldlM (call.signInput mapPrevOut txVariants) r = .error .noSuchInput) := by
  induction is generalizing r with
  | nil => exact ⟨fun _ => ⟨r, rfl, hsame⟩, fun ⟨_, h, _⟩ => absurd h List.not_mem_nil⟩
  | cons i is ih =>
    rw [List.foldlM_cons]
    obtain ⟨hfits, hshort⟩ := signInput_spec call mapPrevOut txVariants hsame i
    by_cases hi : InputFits mapPrevOut txVariants tx i
    · obtain ⟨r', hr', hsame'⟩ := hfits hi
      rw [hr']
      obtain ⟨hall, hsome⟩ := ih hsame'
      refine ⟨fun h => hall fun j hj => h j (List.mem_cons_of_mem _ hj), ?_⟩
      rintro ⟨j, hj, hnot⟩
      rcases List.mem_cons.mp hj with rfl | hj
      · exact absurd hi hnot
      · exact hsome ⟨j, hj, hnot⟩
    · rw [hshort hi]
      exact ⟨fun h => absurd (h i List.mem_cons_self) hi, fun _ => rfl⟩

/-- The loop reads no input that a variant does not have, and changes nothing but the scripts of
the first variant, just if each input whose previous output is known is there in all variants. -/
theorem signVariants_iff (call : RawTxCall) (tx : Transaction) (txVariants : List Transaction) :
    (call.signVariants (tx :: txVariants) ≠ .error .noSuchInput ∧
      ∀ mergedTx fComplete, call.signVariants (tx :: txVariants) = .ok (mergedTx, fComplete) →
        SameButScriptSigs tx mergedTx) ↔
    ∀ mapPrevOut, call.prevOuts tx = .ok mapPrevOut → ∀ i txin, tx.vin[i]? = some txin →
      (mapPrevOut.lookup txin.prevout).isSome = true →
        ∀ txv ∈ tx :: txVariants, i < txv.vin.length := by
  have hrun : call.signVariants (tx :: txVariants) = call.prevOuts tx >>= fun mapPrevOut =>
      (List.range tx.vin.length).foldlM (call.signInput mapPrevOut (tx :: txVariants)) (tx, true) :=
    rfl
  rw [hrun]
  cases hprev : call.prevOuts tx with
  | error fault =>
    have hfault : fault ≠ .noSuchInput := by
      rintro rfl
      exact prevOuts_ne_noSuchInput call tx hprev
    refine iff_of_true ⟨fun h => hfault (Except.error.inj h), fun mergedTx fComplete h => ?_⟩ ?_
    · have herror : Except.error fault = Except.ok (mergedTx, fComplete) := h
      cases herror
    · exact fun _ h => by cases h
  | ok mapPrevOut =>
    obtain ⟨hall, hsome⟩ := foldlM_signInput call mapPrevOut (tx :: txVariants)
      (List.range tx.vin.length) (show SameButScriptSigs tx (tx, true).1 from rfl)
    constructor
    · rintro ⟨hread, _⟩ mapPrevOut' hmap i txin htxin hlookup
      cases hmap
      by_contra hnot
      refine hread (hsome ⟨i, List.mem_range.mpr ?_, fun hfits => hnot (hfits txin htxin hlookup)⟩)
      exact (List.getElem?_eq_some_iff.mp htxin).1
    · intro hfits
      obtain ⟨r, hr, hsame⟩ := hall fun i _ => hfits mapPrevOut rfl i
      refine ⟨fun h => ?_, fun mergedTx fComplete h => ?_⟩
      · cases hr.symm.trans h
      · cases hr.symm.trans h
        exact hsame

namespace Sample

/-- Two outputs that anyone can spend are given in the call, and there are no keys. -/
def rawTxCall : RawTxCall where
  crypto := scriptInput.crypto
  view := ⟨fun _ => none, fun _ => none, fun _ => none, 0⟩
  keystore := ⟨⟨∅, []⟩, fun _ => none⟩
  prevTxs := [(⟨5, 0⟩, [0x51]), (⟨6, 0⟩, [0x51])]
  nHashType := 1

end Sample

open Sample in
/-- The second variant lacks the second input of the first one. -/
theorem signVariants_noSuchInput :
    rawTxCall.signVariants [spend 1 [⟨5, 0⟩, ⟨6, 0⟩] [out 7], spend 1 [⟨5, 0⟩] [out 7]] =
      .error .noSuchInput := by decide +kernel

open Sample in
example : rawTxCall.signVariants [spend 1 [⟨5, 0⟩] [out 7], spend 1 [⟨5, 0⟩, ⟨6, 0⟩] [out 7]] =
    .ok (spend 1 [⟨5, 0⟩] [out 7], true) := by decide +kernel

end Beancash
