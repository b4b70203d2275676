import Beancash.ByteText
import Beancash.CanonicalSignature
import Beancash.CryptoKeyStore
import Mathlib.Data.List.GetD

namespace Beancash

open ByteStream

def pszBase58 : List UInt8 := bytesOf "123456789ABCDEFGHJKLMNPQRSTUVWXYZabcdefghijkmnopqrstuvwxyz"

/-- The loop of `EncodeBase58`, which ends as `bn` gets smaller. -/
def encodeLoop : ℕ → ℤ → List UInt8
  | fuel + 1, bn =>
    if 0 < bn then pszBase58.getD (bn % 58).toNat 0 :: encodeLoop fuel (bn / 58) else []
  | 0, _ => []

def encodeBase58 (vch : List UInt8) : List UInt8 :=
  -- the zero at the end is the sign
  let bn := setvch (vch.reverse ++ [0])
  let str := encodeLoop bn.toNat bn
  -- leading zeroes encoded as base58 zeros
  (str ++ (vch.takeWhile (· == 0)).map fun _ => pszBase58.getD 0 0).reverse

/-- The loop of `DecodeBase58`. -/
def decodeLoop : List UInt8 → ℤ → Option ℤ
  | [], bn => some bn
  | ch :: p, bn =>
    match pszBase58.idxOf? ch with
    | some i => decodeLoop p (bn * 58 + i)
    | none => if (ch :: p).dropWhile isspace = [] then some bn else none

/-- The number without the byte that only has the sign. -/
def trimSign (vchTmp : List UInt8) : List UInt8 :=
  match vchTmp.reverse with
  | last :: back :: _ => if last = 0 ∧ 0x80 ≤ back then vchTmp.dropLast else vchTmp
  | _ => vchTmp

/-- `DecodeBase58`, which leaves `vchRet` empty where it returns false. -/
def decodeBase58 (str : List UInt8) : Option (List UInt8) := do
  let psz := (cStr str).dropWhile isspace
  let bn ← decodeLoop psz 0
  let vchTmp := trimSign (signedVch bn)
  let nLeadingZeros := (psz.takeWhile (· == pszBase58.getD 0 0)).length
  pure (List.replicate nLeadingZeros 0 ++ vchTmp.reverse)

def encodeBase58Check (c : Crypto) (vchIn : List UInt8) : List UInt8 :=
  encodeBase58 (vchIn ++ (c.hash vchIn).toList.take 4)

/-- `DecodeBase58Check`, which also leaves `vchRet` empty where it returns false. -/
def decodeBase58Check (c : Crypto) (psz : List UInt8) : Option (List UInt8) := do
  let vchRet ← decodeBase58 psz
  if vchRet.length < 4 then none
  else
    let vch := vchRet.take (vchRet.length - 4)
    if (c.hash vch).toList.take 4 ≠ vchRet.drop (vchRet.length - 4) then none else pure vch

inductive Base58Type where
  | pubkeyAddress
  | scriptAddress
  | secretKey
deriving DecidableEq

/-- `base58Prefixes` of a network: a byte for each type, and no two the same. -/
structure Base58Prefixes where
  nVersion : Base58Type → UInt8
  injective : Function.Injective nVersion

namespace Base58Prefixes

def base58Prefix (P : Base58Prefixes) (type : Base58Type) : List UInt8 := [P.nVersion type]

/-- `CMainParams` -/
def main : Base58Prefixes where
  nVersion
    | .pubkeyAddress => 3
    | .scriptAddress => 85
    | .secretKey => 131
  injective := by rintro (_ | _ | _) (_ | _ | _) h <;> first | rfl | cases h

/-- `CTestNetParams` -/
def testNet : Base58Prefixes where
  nVersion
    | .pubkeyAddress => 111
    | .scriptAddress => 196
    | .secretKey => 239
  injective := by rintro (_ | _ | _) (_ | _ | _) h <;> first | rfl | cases h

end Base58Prefixes

structure Base58Data where
  vchVersion : List UInt8
  vchData : List UInt8
deriving DecidableEq

namespace Base58Data

def toString (c : Crypto) (d : Base58Data) : List UInt8 :=
  encodeBase58Check c (d.vchVersion ++ d.vchData)

def setString (c : Crypto) (psz : List UInt8) (nVersionBytes : ℕ) : Bool × Base58Data :=
  let vchTemp := (decodeBase58Check c psz).getD []
  if vchTemp.length < nVersionBytes then (false, ⟨[], []⟩)
  else (true, ⟨vchTemp.take nVersionBytes, vchTemp.drop nVersionBytes⟩)

end Base58Data

namespace BitbeanAddress

def set (P : Base58Prefixes) : TxDestination → Base58Data
  | .keyID id => ⟨P.base58Prefix .pubkeyAddress, id⟩
  | .scriptID id => ⟨P.base58Prefix .scriptAddress, id⟩

/-- The constructor from a string. -/
def ofString (c : Crypto) (strAddress : List UInt8) : Base58Data :=
  (Base58Data.setString c strAddress 1).2

def isValid (P : Base58Prefixes) (d : Base58Data) : Bool :=
  let fCorrectSize := d.vchData.length == 20
  let fKnownVersion := d.vchVersion == P.base58Prefix .pubkeyAddress ||
    d.vchVersion == P.base58Prefix .scriptAddress
  fCorrectSize && fKnownVersion

/-- `Get`; `none` is `CNoDestination`. -/
def get (P : Base58Prefixes) (d : Base58Data) : Option TxDestination :=
  if !isValid P d then none
  else if d.vchVersion = P.base58Prefix .pubkeyAddress then some (.keyID (d.vchData.take 20))
  else if d.vchVersion = P.base58Prefix .scriptAddress then some (.scriptID (d.vchData.take 20))
  else none

def getKeyID (P : Base58Prefixes) (d : Base58Data) : Option KeyID :=
  if !isValid P d || d.vchVersion ≠ P.base58Prefix .pubkeyAddress then none
  else some (d.vchData.take 20)

def isScript (P : Base58Prefixes) (d : Base58Data) : Bool :=
  isValid P d && d.vchVersion == P.base58Prefix .scriptAddress

end BitbeanAddress

namespace BitbeanSecret

def setKey (P : Base58Prefixes) (vchSecret : SecretKey) : Base58Data :=
  ⟨P.base58Prefix .secretKey, vchSecret.vch ++ if vchSecret.fCompressed then [1] else []⟩

def getKey (d : Base58Data) : Option SecretKey :=
  SecretKey.set (d.vchData.take 32) (32 < d.vchData.length && d.vchData[32]? == some 1)

def isValid (P : Base58Prefixes) (d : Base58Data) : Bool :=
  let fExpectedFormat := d.vchData.length == 32 ||
    (d.vchData.length == 33 && d.vchData[32]? == some 1)
  let fCorrectVersion := d.vchVersion == P.base58Prefix .secretKey
  fExpectedFormat && fCorrectVersion

def setString (P : Base58Prefixes) (c : Crypto) (pszSecret : List UInt8) : Bool × Base58Data :=
  let (fDecoded, d) := Base58Data.setString c pszSecret 1
  (fDecoded && isValid P d, d)

end BitbeanSecret

/-- The bytes that stand for digits. -/
def digitsOf (str : List UInt8) : List ℕ := str.map fun ch => pszBase58.idxOf ch

def charsOf (digits : List ℕ) : List UInt8 := digits.map fun i => pszBase58.getD i 0

theorem idxOf_getD {i : ℕ} (hi : i < 58) : pszBase58.idxOf (pszBase58.getD i 0) = i := by
  have hall : ∀ i ∈ List.range 58, pszBase58.idxOf (pszBase58.getD i 0) = i := by decide +kernel
  exact hall i (List.mem_range.mpr hi)

theorem getD_idxOf {ch : UInt8} (h : ch ∈ pszBase58) :
    pszBase58.getD (pszBase58.idxOf ch) 0 = ch := by
  have hlt := List.idxOf_lt_length_iff.mpr h
  rw [List.getD_eq_getElem _ _ hlt, List.getElem_idxOf]

theorem idxOf_lt {ch : UInt8} (h : ch ∈ pszBase58) : pszBase58.idxOf ch < 58 :=
  List.idxOf_lt_length_iff.mpr h

theorem getD_mem {i : ℕ} (hi : i < 58) : pszBase58.getD i 0 ∈ pszBase58 := by
  rw [List.getD_eq_getElem _ _ hi]
  exact List.getElem_mem hi

theorem alphabet_plain : ∀ ch ∈ pszBase58, ch ≠ 0 ∧ isspace ch = false := by
  have hall : pszBase58.all (fun ch => decide (ch ≠ 0 ∧ isspace ch = false)) = true := by
    decide +kernel
  exact fun ch hmem => of_decide_eq_true (List.all_eq_true.mp hall ch hmem)

theorem idxOf?_eq_some :
    ∀ ch ∈ pszBase58, pszBase58.idxOf? ch = some (pszBase58.idxOf ch) := by
  have hall : pszBase58.all (fun ch => decide (pszBase58.idxOf? ch = some (pszBase58.idxOf ch))) =
      true := by decide +kernel
  exact fun ch hmem => of_decide_eq_true (List.all_eq_true.mp hall ch hmem)

theorem digitsOf_charsOf {digits : List ℕ} (h : ∀ d ∈ digits, d < 58) :
    digitsOf (charsOf digits) = digits := by
  induction digits with
  | nil => rfl
  | cons d digits ih =>
    rw [charsOf, digitsOf, List.map_cons, List.map_cons, idxOf_getD (h d List.mem_cons_self)]
    exact congrArg (d :: ·) (ih fun e he => h e (List.mem_cons_of_mem _ he))

theorem charsOf_digitsOf {str : List UInt8} (h : ∀ ch ∈ str, ch ∈ pszBase58) :
    charsOf (digitsOf str) = str := by
  induction str with
  | nil => rfl
  | cons ch str ih =>
    rw [digitsOf, charsOf, List.map_cons, List.map_cons, getD_idxOf (h ch List.mem_cons_self)]
    exact congrArg (ch :: ·) (ih fun e he => h e (List.mem_cons_of_mem _ he))

theorem mem_charsOf {digits : List ℕ} (h : ∀ d ∈ digits, d < 58) :
    ∀ ch ∈ charsOf digits, ch ∈ pszBase58 := by
  intro ch hch
  obtain ⟨d, hd, rfl⟩ := List.mem_map.mp hch
  exact getD_mem (h d hd)

theorem digitsOf_lt {str : List UInt8} (h : ∀ ch ∈ str, ch ∈ pszBase58) :
    ∀ d ∈ digitsOf str, d < 58 := by
  intro d hd
  obtain ⟨ch, hch, rfl⟩ := List.mem_map.mp hd
  exact idxOf_lt (h ch hch)

theorem ofLittleEndian_eq_ofDigits (vch : List UInt8) :
    ofLittleEndian vch = Nat.ofDigits 256 (vch.map UInt8.toNat) := by
  induction vch with
  | nil => rfl
  | cons b vch ih =>
    rw [ofLittleEndian, List.map_cons, Nat.ofDigits_cons, ih]

theorem vchBytes_eq_digits {fuel n : ℕ} (h : n ≤ fuel) :
    vchBytes fuel n = (Nat.digits 256 n).map UInt8.ofNat := by
  induction fuel generalizing n with
  | zero =>
    obtain rfl := Nat.le_zero.mp h
    rfl
  | succ fuel ih =>
    rcases Nat.eq_zero_or_pos n with rfl | hn
    · rfl
    · rw [vchBytes, if_neg hn.ne', ih (by omega), Nat.digits_def' (by decide) hn, List.map_cons]
      congr 1
      exact (UInt8.ofNat_mod_size (x := n)).symm

theorem encodeLoop_eq {fuel n : ℕ} (h : n ≤ fuel) :
    encodeLoop fuel n = charsOf (Nat.digits 58 n) := by
  induction fuel generalizing n with
  | zero =>
    obtain rfl := Nat.le_zero.mp h
    rfl
  | succ fuel ih =>
    rcases Nat.eq_zero_or_pos n with rfl | hn
    · rfl
    · have hdiv : ((n : ℤ) / 58) = ((n / 58 : ℕ) : ℤ) := by omega
      have hmod : ((n : ℤ) % 58).toNat = n % 58 := by omega
      rw [encodeLoop, if_pos (by omega), hdiv, hmod, ih (by omega),
        Nat.digits_def' (by decide) hn, charsOf, charsOf, List.map_cons]

theorem setvch_positive (vch : List UInt8) : setvch (vch ++ [0]) = ofLittleEndian vch := by
  have hsign := setvch_concat vch 0
  simpa using hsign

theorem leadingZeros_bytes (vch : List UInt8) :
    RadixString.leadingZeros (vch.map UInt8.toNat) = (vch.takeWhile (· == 0)).length := by
  rw [RadixString.leadingZeros, List.takeWhile_map, List.length_map]
  congr 2
  funext b
  rw [Bool.eq_iff_iff]
  simp [← UInt8.toNat_inj]

theorem encodeBase58_eq (vch : List UInt8) :
    encodeBase58 vch = charsOf (RadixString.changeBase 256 58 (vch.map UInt8.toNat)) := by
  have hvalue : ofLittleEndian vch.reverse =
      RadixString.value 256 (vch.map UInt8.toNat) := by
    rw [ofLittleEndian_eq_ofDigits, List.map_reverse, RadixString.value]
  rw [encodeBase58, setvch_positive, Int.toNat_natCast, encodeLoop_eq le_rfl, hvalue,
    List.reverse_append, RadixString.changeBase, leadingZeros_bytes, charsOf, charsOf,
    List.map_append, List.map_reverse, List.map_const', List.reverse_replicate,
    List.map_replicate]

theorem cStr_of_alphabet {str : List UInt8} (h : ∀ ch ∈ str, ch ∈ pszBase58) : cStr str = str :=
  cStr_of_ne_zero fun ch hch => (alphabet_plain ch (h ch hch)).1

theorem dropWhile_isspace_of_alphabet {str : List UInt8} (h : ∀ ch ∈ str, ch ∈ pszBase58) :
    str.dropWhile isspace = str := by
  cases str with
  | nil => rfl
  | cons ch str =>
    have hspace := (alphabet_plain ch (h ch List.mem_cons_self)).2
    exact List.dropWhile_cons_of_neg (by simp [hspace])

theorem decodeLoop_eq {str : List UInt8} (h : ∀ ch ∈ str, ch ∈ pszBase58) (bn : ℕ) :
    decodeLoop str bn = some ((Nat.ofDigits 58 ((digitsOf str).reverse ++ [bn]) : ℕ) : ℤ) := by
  induction str generalizing bn with
  | nil => rw [decodeLoop, digitsOf, List.map_nil, List.reverse_nil, List.nil_append,
      Nat.ofDigits_singleton]
  | cons ch str ih =>
    have hch := h ch List.mem_cons_self
    have hnext : (bn : ℤ) * 58 + (pszBase58.idxOf ch : ℤ) =
        ((bn * 58 + pszBase58.idxOf ch : ℕ) : ℤ) := by push_cast; rfl
    rw [decodeLoop, idxOf?_eq_some ch hch]
    dsimp only
    rw [hnext, ih fun e he => h e (List.mem_cons_of_mem _ he),
      RadixString.ofDigits_concat_concat, digitsOf, digitsOf, List.map_cons, List.reverse_cons]

/-- The sign byte is there for a last byte with its top bit set, and then it is trimmed off. -/
theorem trimSign_signedVch (n : ℕ) : trimSign (signedVch n) = vchBytes n n := by
  rw [signedVch, if_neg (by omega), Int.natAbs_natCast, getvch]
  rcases List.eq_nil_or_concat (vchBytes n n) with hnil | ⟨front, back, hvch⟩
  · rw [hnil]
    rfl
  · rw [List.concat_eq_append] at hvch
    rw [hvch, List.getLast?_concat, Option.any_some]
    split
    · rename_i hback
      have hback : (0x80 : UInt8) ≤ back := by simpa using hback
      rw [trimSign, List.reverse_append, List.reverse_append, List.reverse_singleton,
        List.reverse_singleton, List.singleton_append, List.singleton_append]
      dsimp only
      rw [if_pos ⟨rfl, hback⟩, List.dropLast_concat]
    · rename_i hback
      have hne : back ≠ 0 := by
        rintro rfl
        refine getLast?_vchBytes_ne_zero (Nat.le_refl n) ?_
        rw [hvch, List.getLast?_concat]
      rcases List.eq_nil_or_concat front with rfl | ⟨front, back', rfl⟩
      · rfl
      · rw [trimSign, List.concat_eq_append, List.reverse_append, List.reverse_append,
          List.reverse_singleton, List.reverse_singleton, List.singleton_append,
          List.singleton_append]
        dsimp only
        rw [if_neg fun h => hne h.1]

theorem leadingZeros_digitsOf (str : List UInt8) :
    RadixString.leadingZeros (digitsOf str) =
      (str.takeWhile (· == pszBase58.getD 0 0)).length := by
  have hzero : ∀ ch, pszBase58.idxOf ch = 0 ↔ ch = pszBase58.getD 0 0 := by
    intro ch
    constructor
    · intro h
      have hmem : ch ∈ pszBase58 := List.idxOf_lt_length_iff.mp (h ▸ (by decide : 0 < 58))
      rw [← h, getD_idxOf hmem]
    · rintro rfl
      exact idxOf_getD (by decide)
  rw [RadixString.leadingZeros, digitsOf, List.takeWhile_map, List.length_map]
  congr 2
  funext ch
  rw [Bool.eq_iff_iff, Function.comp_apply, decide_eq_true_iff, hzero, beq_iff_eq]

theorem decodeBase58_eq {str : List UInt8} (h : ∀ ch ∈ str, ch ∈ pszBase58) :
    decodeBase58 str =
      some ((RadixString.changeBase 58 256 (digitsOf str)).map UInt8.ofNat) := by
  have hloop : decodeLoop str 0 = some ↑(RadixString.value 58 (digitsOf str)) := by
    have hzero := decodeLoop_eq h 0
    rw [Nat.ofDigits_append_zero] at hzero
    exact hzero
  rw [decodeBase58, cStr_of_alphabet h, dropWhile_isspace_of_alphabet h, hloop]
  simp only [Option.bind_eq_bind, Option.bind_some, Option.pure_def]
  rw [trimSign_signedVch, vchBytes_eq_digits le_rfl, RadixString.changeBase,
    leadingZeros_digitsOf, List.map_append, List.map_replicate, List.map_reverse]
  rfl

theorem decodeBase58_encodeBase58 (vch : List UInt8) :
    decodeBase58 (encodeBase58 vch) = some vch := by
  have hdigits := RadixString.lt_of_mem_changeBase 256 (show 1 < 58 by decide)
    (vch.map UInt8.toNat)
  rw [encodeBase58_eq, decodeBase58_eq (mem_charsOf hdigits), digitsOf_charsOf hdigits,
    RadixString.changeBase_changeBase (by decide) 58 (toNat_lt_of_mem vch), map_ofNat_toNat]

theorem encodeBase58_of_alphabet {str : List UInt8} (h : ∀ ch ∈ str, ch ∈ pszBase58) :
    ∃ vch, decodeBase58 str = some vch ∧ encodeBase58 vch = str := by
  have hdigits := RadixString.lt_of_mem_changeBase 58 (show 1 < 256 by decide) (digitsOf str)
  refine ⟨_, decodeBase58_eq h, ?_⟩
  rw [encodeBase58_eq, map_toNat_ofNat hdigits,
    RadixString.changeBase_changeBase (by decide) 256 (digitsOf_lt h), charsOf_digitsOf h]

theorem decodeBase58Check_encodeBase58Check (c : Crypto) (vch : List UInt8) :
    decodeBase58Check c (encodeBase58Check c vch) = some vch := by
  have hlen : ((c.hash vch).toList.take 4).length = 4 := by simp
  have hsub : (vch ++ (c.hash vch).toList.take 4).length - 4 = vch.length := by
    rw [List.length_append, hlen]
    omega
  rw [decodeBase58Check, encodeBase58Check, decodeBase58_encodeBase58]
  simp only [Option.bind_eq_bind, Option.bind_some]
  rw [if_neg (by rw [List.length_append, hlen]; omega), hsub, List.take_left, List.drop_left,
    if_neg (by simp)]
  rfl

namespace Base58Data

theorem setString_toString (c : Crypto) (d : Base58Data) :
    setString c (d.toString c) d.vchVersion.length = (true, d) := by
  rw [setString, toString, decodeBase58Check_encodeBase58Check, Option.getD_some,
    if_neg (by rw [List.length_append]; omega), List.take_left, List.drop_left]

end Base58Data

namespace BitbeanAddress

theorem ofString_toString (P : Base58Prefixes) (c : Crypto) (dest : TxDestination) :
    ofString c ((set P dest).toString c) = set P dest := by
  have hversion : (set P dest).vchVersion.length = 1 := by cases dest <;> rfl
  rw [ofString, ← hversion, Base58Data.setString_toString]

theorem set_keyID (P : Base58Prefixes) {id : KeyID} (hid : id.length = 20) :
    get P (set P (.keyID id)) = some (.keyID id) ∧ getKeyID P (set P (.keyID id)) = some id ∧
      isScript P (set P (.keyID id)) = false := by
  have hne : ¬P.nVersion .pubkeyAddress = P.nVersion .scriptAddress :=
    fun h => nomatch P.injective h
  simp [get, getKeyID, isScript, isValid, set, Base58Prefixes.base58Prefix, hid, hne,
    List.take_of_length_le hid.le]

theorem set_scriptID (P : Base58Prefixes) {id : KeyID} (hid : id.length = 20) :
    get P (set P (.scriptID id)) = some (.scriptID id) ∧
      getKeyID P (set P (.scriptID id)) = none ∧ isScript P (set P (.scriptID id)) = true := by
  have hne : ¬P.nVersion .scriptAddress = P.nVersion .pubkeyAddress :=
    fun h => nomatch P.injective h
  simp [get, getKeyID, isScript, isValid, set, Base58Prefixes.base58Prefix, hid, hne,
    List.take_of_length_le hid.le]

end BitbeanAddress

namespace BitbeanSecret

theorem isValid_setKey (P : Base58Prefixes) (key : SecretKey) : isValid P (setKey P key) = true := by
  have hlen := key.length_vch
  cases h : key.fCompressed <;> simp [isValid, setKey, h, hlen]

theorem getKey_setKey (P : Base58Prefixes) (key : SecretKey) :
    getKey (setKey P key) = some key := by
  have hlen := key.length_vch
  have hflag : (32 < (setKey P key).vchData.length && (setKey P key).vchData[32]? == some 1) =
      key.fCompressed := by
    cases h : key.fCompressed <;> simp [setKey, h, hlen]
  have htake : (setKey P key).vchData.take 32 = key.vch := by
    rw [setKey, ← hlen, List.take_left]
  rw [getKey, hflag, htake, key.set_vch]

theorem setString_toString (P : Base58Prefixes) (c : Crypto) (key : SecretKey) :
    setString P c ((setKey P key).toString c) = (true, setKey P key) := by
  have hversion : (setKey P key).vchVersion.length = 1 := rfl
  rw [setString, ← hversion, Base58Data.setString_toString]
  dsimp only
  rw [isValid_setKey, Bool.and_true]

theorem not_both (P : Base58Prefixes) (d : Base58Data) :
    ¬(isValid P d = true ∧ BitbeanAddress.isValid P d = true) := by
  rintro ⟨hsecret, haddress⟩
  have hkey : ¬P.nVersion .secretKey = P.nVersion .pubkeyAddress :=
    fun h => nomatch P.injective h
  have hscript : ¬P.nVersion .secretKey = P.nVersion .scriptAddress :=
    fun h => nomatch P.injective h
  have hversion : d.vchVersion = P.base58Prefix .secretKey := by
    simpa using (Bool.and_eq_true_iff.mp hsecret).2
  simp [BitbeanAddress.isValid, hversion, Base58Prefixes.base58Prefix, hkey, hscript] at haddress

end BitbeanSecret

/-- What is encoded is decoded to what it was: bytes, bytes with a check, strings of the alphabet,
and the keys and scripts that addresses and secrets stand for. -/
theorem base58_roundTrips (P : Base58Prefixes) (c : Crypto) :
    (∀ vch, decodeBase58 (encodeBase58 vch) = some vch) ∧
    (∀ vch, decodeBase58Check c (encodeBase58Check c vch) = some vch) ∧
    (∀ str, (∀ ch ∈ str, ch ∈ pszBase58) →
      ∃ vch, decodeBase58 str = some vch ∧ encodeBase58 vch = str) ∧
    (∀ id : Vector UInt8 20,
      let addr := BitbeanAddress.ofString c ((BitbeanAddress.set P (.keyID id.toList)).toString c)
      addr = BitbeanAddress.set P (.keyID id.toList) ∧ BitbeanAddress.isValid P addr = true ∧
        BitbeanAddress.get P addr = some (.keyID id.toList) ∧
        BitbeanAddress.getKeyID P addr = some id.toList ∧
        BitbeanAddress.isScript P addr = false ∧ BitbeanSecret.isValid P addr = false) ∧
    (∀ id : Vector UInt8 20,
      let addr :=
        BitbeanAddress.ofString c ((BitbeanAddress.set P (.scriptID id.toList)).toString c)
      addr = BitbeanAddress.set P (.scriptID id.toList) ∧ BitbeanAddress.isValid P addr = true ∧
        BitbeanAddress.get P addr = some (.scriptID id.toList) ∧
        BitbeanAddress.getKeyID P addr = none ∧
        BitbeanAddress.isScript P addr = true ∧ BitbeanSecret.isValid P addr = false) ∧
    ∀ key : SecretKey,
      let secret := BitbeanSecret.setString P c ((BitbeanSecret.setKey P key).toString c)
      secret = (true, BitbeanSecret.setKey P key) ∧
        BitbeanSecret.getKey secret.2 = some key ∧
        BitbeanAddress.isValid P secret.2 = false := by
  have hvalid : ∀ {d dest}, BitbeanAddress.get P d = some dest →
      BitbeanAddress.isValid P d = true := by
    intro d dest h
    by_contra hnot
    rw [BitbeanAddress.get, if_pos (by simpa using hnot)] at h
    cases h
  refine ⟨decodeBase58_encodeBase58, decodeBase58Check_encodeBase58Check c,
    fun str => encodeBase58_of_alphabet, fun id => ?_, fun id => ?_, fun key => ?_⟩
  · obtain ⟨hget, hkey, hscript⟩ := BitbeanAddress.set_keyID P id.length_toList
    rw [BitbeanAddress.ofString_toString]
    refine ⟨rfl, hvalid hget, hget, hkey, hscript, ?_⟩
    exact Bool.eq_false_iff.mpr fun h => BitbeanSecret.not_both P _ ⟨h, hvalid hget⟩
  · obtain ⟨hget, hkey, hscript⟩ := BitbeanAddress.set_scriptID P id.length_toList
    rw [BitbeanAddress.ofString_toString]
    refine ⟨rfl, hvalid hget, hget, hkey, hscript, ?_⟩
    exact Bool.eq_false_iff.mpr fun h => BitbeanSecret.not_both P _ ⟨h, hvalid hget⟩
  · rw [BitbeanSecret.setString_toString]
    refine ⟨rfl, BitbeanSecret.getKey_setKey P key, Bool.eq_false_iff.mpr fun h => ?_⟩
    exact BitbeanSecret.not_both P _ ⟨BitbeanSecret.isValid_setKey P key, h⟩

theorem base58_roundTrips_leadingZeros :
    let c : Crypto := ⟨fun _ => .replicate 20 0, fun _ => .replicate 32 0,
      fun _ => .replicate 20 0, fun _ _ _ => false⟩
    (∀ ch ∈ bytesOf "11Bean", ch ∈ pszBase58) ∧
      (∃ vch, decodeBase58 (bytesOf "11Bean") = some vch ∧ encodeBase58 vch = bytesOf "11Bean") ∧
      decodeBase58Check c (encodeBase58Check c [0, 0, 200]) = some [0, 0, 200] := by
  intro c
  have hall : (bytesOf "11Bean").all pszBase58.contains = true := by decide
  have halphabet : ∀ ch ∈ bytesOf "11Bean", ch ∈ pszBase58 := fun ch hmem =>
    List.contains_iff_mem.mp (List.all_eq_true.mp hall ch hmem)
  obtain ⟨-, hcheck, hstring, -⟩ := base58_roundTrips .main c
  exact ⟨halphabet, hstring _ halphabet, hcheck [0, 0, 200]⟩

end Beancash
