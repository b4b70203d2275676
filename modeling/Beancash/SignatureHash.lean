import Beancash.Script
import Beancash.SerializeSpec

namespace Beancash

open ByteStream

def sigHashAll : Int32 := 1
def sigHashNone : Int32 := 2
def sigHashSingle : Int32 := 3
def sigHashAnyoneCanPay : Int32 := 0x80

/-- Blank out the signatures of the other inputs. -/
def blankScripts (scriptCode : Script) (nIn : ℕ) (vin : List TxIn) : List TxIn :=
  (vin.map fun i => { i with scriptSig := [] }).modify nIn fun i =>
    { i with scriptSig := scriptCode }

/-- Let the others update at will. -/
def blankSequences (nIn : ℕ) (vin : List TxIn) : List TxIn :=
  vin.mapIdx fun i txin => if i ≠ nIn then { txin with nSequence := 0 } else txin

/-- `CTxOut::SetNull` -/
def TxOut.null : TxOut := ⟨-1, []⟩

/-- The outputs up to `nOut`, the last of which is locked in. -/
def blankOutputs (nOut : ℕ) (vout : List TxOut) : List TxOut :=
  List.replicate nOut TxOut.null ++ (vout.drop nOut).take 1

/-- The edited copy of the transaction, when there is something to sign. -/
def signatureTx (scriptCode : Script) (txTo : Transaction) (nIn : UInt32) (nHashType : Int32) :
    Option Transaction := do
  guard (nIn.toNat < txTo.vin.length)
  -- code separators must not make a difference
  let scriptCode := scriptCode.findAndDelete [opCodeSeparator]
  let txTmp := { txTo with vin := blankScripts scriptCode nIn.toNat txTo.vin }
  let txTmp ←
    if nHashType &&& 0x1f = sigHashNone then
      -- wildcard payee
      some { txTmp with vout := [], vin := blankSequences nIn.toNat txTmp.vin }
    else if nHashType &&& 0x1f = sigHashSingle then
      if nIn.toNat < txTmp.vout.length then
        some { txTmp with
          vout := blankOutputs nIn.toNat txTmp.vout
          vin := blankSequences nIn.toNat txTmp.vin }
      else none
    else some txTmp
  -- blank out the other inputs completely
  return if nHashType &&& sigHashAnyoneCanPay ≠ 0 then
      { txTmp with vin := (txTmp.vin.drop nIn.toNat).take 1 }
    else txTmp

/-- The bytes that are hashed. -/
def signaturePreimage (scriptCode : Script) (txTo : Transaction) (nIn : UInt32)
    (nHashType : Int32) : Option (List UInt8) :=
  (signatureTx scriptCode txTo nIn nHashType).map fun txTmp =>
    txTmp.serialize ++ littleEndian 4 nHashType.toUInt32.toNat

/-- `SignatureHash`; `hash` is `Hash`, of bytes. -/
def signatureHash (hash : List UInt8 → Uint256) (scriptCode : Script) (txTo : Transaction)
    (nIn : UInt32) (nHashType : Int32) : Uint256 :=
  (signaturePreimage scriptCode txTo nIn nHashType).elim 1 hash

/-- The sizes of the vectors are of type `size_t`. -/
structure Transaction.InMemory (tx : Transaction) : Prop where
  vin : tx.vin.length < 2 ^ 64
  vout : tx.vout.length < 2 ^ 64
  scriptSig : ∀ i ∈ tx.vin, i.scriptSig.length < 2 ^ 64
  scriptPubKey : ∀ o ∈ tx.vout, o.scriptPubKey.length < 2 ^ 64

section Serialize

variable {rest rest' : List UInt8}

theorem eq_of_littleEndian_append_eq {n x x' : ℕ} (hx : x < 256 ^ n) (hx' : x' < 256 ^ n)
    (heq : littleEndian n x ++ rest = littleEndian n x' ++ rest') : x = x' ∧ rest = rest' :=
  (reads_number hx).eq_of_append_eq (reads_number hx') heq

theorem eq_of_uint32_append_eq {x x' : UInt32}
    (heq : littleEndian 4 x.toNat ++ rest = littleEndian 4 x'.toNat ++ rest') :
    x = x' ∧ rest = rest' := by
  obtain ⟨hx, hrest⟩ := eq_of_littleEndian_append_eq x.toNat_lt x'.toNat_lt heq
  exact ⟨UInt32.toNat_inj.mp hx, hrest⟩

theorem eq_of_serializeBytes_append_eq {v v' : List UInt8} (hv : v.length < 2 ^ 64)
    (hv' : v'.length < 2 ^ 64) (heq : serializeBytes v ++ rest = serializeBytes v' ++ rest') :
    v = v' ∧ rest = rest' := by
  rw [serializeBytes, serializeBytes, List.append_assoc, List.append_assoc] at heq
  obtain ⟨hlen, heq⟩ := (reads_readSize hv).eq_of_append_eq (reads_readSize hv') heq
  exact List.append_inj heq hlen

theorem eq_of_serializeVector_append_eq {α : Type} {serialize : α → List UInt8} {v v' : List α}
    (hv : v.length < 2 ^ 64) (hv' : v'.length < 2 ^ 64)
    (h : ∀ a ∈ v, ∀ a' ∈ v', ∀ rest rest',
      serialize a ++ rest = serialize a' ++ rest' → a = a' ∧ rest = rest')
    (heq : serializeVector serialize v ++ rest = serializeVector serialize v' ++ rest') :
    v = v' ∧ rest = rest' := by
  rw [serializeVector, serializeVector, List.append_assoc, List.append_assoc] at heq
  obtain ⟨hlen, heq⟩ := (reads_readSize hv).eq_of_append_eq (reads_readSize hv') heq
  exact eq_of_flatMap_append_eq h hlen heq

theorem TxIn.eq_of_serialize_append_eq {i i' : TxIn} (h : i.scriptSig.length < 2 ^ 64)
    (h' : i'.scriptSig.length < 2 ^ 64) (heq : i.serialize ++ rest = i'.serialize ++ rest') :
    i = i' ∧ rest = rest' := by
  simp only [TxIn.serialize, List.append_assoc] at heq
  obtain ⟨hprevout, heq⟩ := i.prevout.reads.eq_of_append_eq i'.prevout.reads heq
  obtain ⟨hscript, heq⟩ := eq_of_serializeBytes_append_eq h h' heq
  obtain ⟨hsequence, hrest⟩ := eq_of_uint32_append_eq heq
  exact ⟨TxIn.mk.injEq .. ▸ ⟨hprevout, hscript, hsequence⟩, hrest⟩

theorem TxOut.eq_of_serialize_append_eq {o o' : TxOut} (h : o.scriptPubKey.length < 2 ^ 64)
    (h' : o'.scriptPubKey.length < 2 ^ 64) (heq : o.serialize ++ rest = o'.serialize ++ rest') :
    o = o' ∧ rest = rest' := by
  simp only [TxOut.serialize, List.append_assoc] at heq
  obtain ⟨hvalue, heq⟩ := eq_of_littleEndian_append_eq o.nValue.toUInt64.toNat_lt
    o'.nValue.toUInt64.toNat_lt heq
  obtain ⟨hscript, hrest⟩ := eq_of_serializeBytes_append_eq h h' heq
  have hvalue' : o.nValue = o'.nValue := congrArg UInt64.toInt64 (UInt64.toNat_inj.mp hvalue)
  exact ⟨TxOut.mk.injEq .. ▸ ⟨hvalue', hscript⟩, hrest⟩

theorem Transaction.eq_of_serialize_append_eq {tx tx' : Transaction} (h : tx.InMemory)
    (h' : tx'.InMemory) (heq : tx.serialize ++ rest = tx'.serialize ++ rest') :
    tx = tx' ∧ rest = rest' := by
  simp only [Transaction.serialize, List.append_assoc] at heq
  obtain ⟨hversion, heq⟩ := eq_of_uint32_append_eq heq
  obtain ⟨htime, heq⟩ := eq_of_uint32_append_eq heq
  obtain ⟨hvin, heq⟩ := eq_of_serializeVector_append_eq h.vin h'.vin (fun i hi i' hi' _ _ =>
    TxIn.eq_of_serialize_append_eq (h.scriptSig i hi) (h'.scriptSig i' hi')) heq
  obtain ⟨hvout, heq⟩ := eq_of_serializeVector_append_eq h.vout h'.vout (fun o ho o' ho' _ _ =>
    TxOut.eq_of_serialize_append_eq (h.scriptPubKey o ho) (h'.scriptPubKey o' ho')) heq
  obtain ⟨hlocktime, hrest⟩ := eq_of_uint32_append_eq heq
  have hversion' : tx.nVersion = tx'.nVersion := congrArg UInt32.toInt32 hversion
  exact ⟨Transaction.mk.injEq .. ▸ ⟨hversion', htime, hvin, hvout, hlocktime⟩, hrest⟩

end Serialize

theorem getElem?_blankScripts (scriptCode : Script) (nIn : ℕ) (vin : List TxIn) (i : ℕ) :
    (blankScripts scriptCode nIn vin)[i]? = vin[i]?.map fun txin =>
      { txin with scriptSig := if nIn = i then scriptCode else [] } := by
  rw [blankScripts, List.getElem?_modify, List.getElem?_map]
  cases vin[i]? with
  | none => rfl
  | some txin =>
    by_cases h : nIn = i
    · simp [h]
    · simp [h]

theorem map_blankScripts {β : Type} {f : TxIn → β}
    (hf : ∀ txin script, f { txin with scriptSig := script } = f txin) (scriptCode : Script)
    (nIn : ℕ) (vin : List TxIn) : (blankScripts scriptCode nIn vin).map f = vin.map f := by
  apply List.ext_getElem?
  intro i
  rw [List.getElem?_map, List.getElem?_map, getElem?_blankScripts, Option.map_map]
  congr 1
  funext txin
  exact hf txin _

theorem eq_of_blankScripts_eq {scriptCode scriptCode' : Script} {nIn nIn' : ℕ}
    {vin vin' : List TxIn} (hIn : nIn < vin.length) (hcode : scriptCode ≠ [])
    (heq : blankScripts scriptCode nIn vin = blankScripts scriptCode' nIn' vin') :
    nIn = nIn' ∧ scriptCode = scriptCode' := by
  have hat := congrArg (fun l => l[nIn]?.map TxIn.scriptSig) heq
  simp only [getElem?_blankScripts, List.getElem?_eq_getElem hIn, Option.map_map] at hat
  cases hvin' : vin'[nIn]? with
  | none =>
    rw [hvin'] at hat
    cases hat
  | some txin' =>
    rw [hvin'] at hat
    have hscript : scriptCode = if nIn' = nIn then scriptCode' else [] := by simpa using hat
    split at hscript
    · rename_i hIn'
      exact ⟨hIn'.symm, hscript⟩
    · exact absurd hscript hcode

theorem Transaction.InMemory.blankScripts {tx : Transaction} (h : tx.InMemory) {scriptCode : Script}
    (hcode : scriptCode.length < 2 ^ 64) (nIn : ℕ) :
    InMemory { tx with vin := Beancash.blankScripts scriptCode nIn tx.vin } where
  vin := by
    rw [Beancash.blankScripts, List.length_modify, List.length_map]
    exact h.vin
  vout := h.vout
  scriptSig i hi := by
    obtain ⟨n, hn⟩ := List.mem_iff_getElem?.mp hi
    rw [getElem?_blankScripts] at hn
    obtain ⟨txin, _, rfl⟩ := Option.map_eq_some_iff.mp hn
    change (if nIn = n then scriptCode else []).length < 2 ^ 64
    split
    · exact hcode
    · exact Nat.two_pow_pos 64
  scriptPubKey := h.scriptPubKey

theorem signaturePreimage_sigHashAll (scriptCode : Script) {txTo : Transaction} {nIn : UInt32}
    (h : nIn.toNat < txTo.vin.length) : signaturePreimage scriptCode txTo nIn sigHashAll =
      some (Transaction.serialize { txTo with
        vin := blankScripts (scriptCode.findAndDelete [opCodeSeparator]) nIn.toNat txTo.vin } ++
          littleEndian 4 sigHashAll.toUInt32.toNat) := by
  have hnone : sigHashAll &&& 0x1f ≠ sigHashNone := by decide
  have hsingle : sigHashAll &&& 0x1f ≠ sigHashSingle := by decide
  have hanyone : ¬sigHashAll &&& sigHashAnyoneCanPay ≠ 0 := by decide
  simp only [signaturePreimage, signatureTx, guard, if_pos h, if_neg hnone, if_neg hsingle,
    if_neg hanyone]
  rfl

/-- With `SIGHASH_ALL` a signature commits to everything in a transaction but the scripts of the
other inputs. -/
theorem signatureHash_injective {hash : List UInt8 → Uint256} {scriptCode scriptCode' : Script}
    {tx tx' : Transaction} {nIn nIn' : UInt32} (htx : tx.InMemory) (htx' : tx'.InMemory)
    (hsize : scriptCode.length < 2 ^ 64) (hsize' : scriptCode'.length < 2 ^ 64)
    (hIn : nIn.toNat < tx.vin.length) (hIn' : nIn'.toNat < tx'.vin.length)
    (hcode : scriptCode.findAndDelete [opCodeSeparator] ≠ [])
    (hinj : ∀ bytes ∈ signaturePreimage scriptCode tx nIn sigHashAll,
      ∀ bytes' ∈ signaturePreimage scriptCode' tx' nIn' sigHashAll,
        hash bytes = hash bytes' → bytes = bytes')
    (heq : signatureHash hash scriptCode tx nIn sigHashAll =
      signatureHash hash scriptCode' tx' nIn' sigHashAll) :
    tx.nVersion = tx'.nVersion ∧ tx.nTime = tx'.nTime ∧ tx.nLockTime = tx'.nLockTime ∧
      tx.prevouts = tx'.prevouts ∧
      tx.vin.map TxIn.nSequence = tx'.vin.map TxIn.nSequence ∧ tx.vout = tx'.vout ∧
      nIn = nIn' ∧
      scriptCode.findAndDelete [opCodeSeparator] =
        scriptCode'.findAndDelete [opCodeSeparator] := by
  have hpre := signaturePreimage_sigHashAll scriptCode hIn
  have hpre' := signaturePreimage_sigHashAll scriptCode' hIn'
  have hbytes := hinj _ hpre _ hpre' (by rwa [signatureHash, signatureHash, hpre, hpre'] at heq)
  have hlen := Nat.lt_of_le_of_lt (scriptCode.length_findAndDelete_le [opCodeSeparator]) hsize
  have hlen' := Nat.lt_of_le_of_lt (scriptCode'.length_findAndDelete_le [opCodeSeparator]) hsize'
  obtain ⟨htmp, _⟩ := Transaction.eq_of_serialize_append_eq (htx.blankScripts hlen nIn.toNat)
    (htx'.blankScripts hlen' nIn'.toNat) hbytes
  obtain ⟨hversion, htime, hvin, hvout, hlocktime⟩ := Transaction.mk.inj htmp
  obtain ⟨hnIn, hscript⟩ := eq_of_blankScripts_eq hIn hcode hvin
  have hprevouts := congrArg (List.map TxIn.prevout) hvin
  rw [map_blankScripts (fun _ _ => rfl), map_blankScripts (fun _ _ => rfl)] at hprevouts
  have hsequences := congrArg (List.map TxIn.nSequence) hvin
  rw [map_blankScripts (fun _ _ => rfl), map_blankScripts (fun _ _ => rfl)] at hsequences
  exact ⟨hversion, htime, hlocktime, hprevouts, hsequences, hvout, UInt32.toNat_inj.mp hnIn,
    hscript⟩

open Sample in
/-- The scripts of the inputs, and code separators in the script code, make no difference. -/
theorem signatureHash_injective_spend :
    let tx := spend 1 [⟨5, 0⟩, ⟨6, 0⟩] [out 7]
    let tx' := { tx with vin := tx.vin.map fun i => { i with scriptSig := [0x51] } }
    let hash : List UInt8 → Uint256 := fun bytes => .ofNat 256 (ofLittleEndian bytes)
    signatureHash hash [0xac] tx 1 sigHashAll = signatureHash hash [0xab, 0xac] tx' 1 sigHashAll ∧
      tx.prevouts = tx'.prevouts := by
  intro tx tx' hash
  have hpre : signaturePreimage [0xac] tx 1 sigHashAll =
      signaturePreimage [0xab, 0xac] tx' 1 sigHashAll := by decide +kernel
  have heq : signatureHash hash [0xac] tx 1 sigHashAll =
      signatureHash hash [0xab, 0xac] tx' 1 sigHashAll := by
    rw [signatureHash, signatureHash, hpre]
  have htx : tx.InMemory := ⟨by decide, by decide, by decide, by decide⟩
  have htx' : tx'.InMemory := ⟨by decide, by decide, by decide, by decide⟩
  have hinj : ∀ bytes ∈ signaturePreimage [0xac] tx 1 sigHashAll,
      ∀ bytes' ∈ signaturePreimage [0xab, 0xac] tx' 1 sigHashAll,
        hash bytes = hash bytes' → bytes = bytes' := by
    intro bytes hbytes bytes' hbytes' _
    rw [hpre] at hbytes
    exact Option.mem_unique hbytes hbytes'
  exact ⟨heq, (signatureHash_injective htx htx' (by decide) (by decide) (by decide) (by decide)
    (by decide) hinj heq).2.2.2.1⟩

end Beancash
