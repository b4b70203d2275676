import Beancash.BlockTrust

namespace Beancash

open ByteStream

def bigEndian (c : List UInt8) : ℕ := ofLittleEndian c.reverse

/-- The first two loops of `CompareBigEndian`, over the bytes that the other number has none for.
It ends before them all are seen if one is not zero. -/
def skipZeros : ℕ → List UInt8 → Option (Option (List UInt8))
  | 0, c => some (some c)
  | _ + 1, [] => none
  | n + 1, b :: c => if b ≠ 0 then some none else skipZeros n c

/-- The last loop. -/
def compareBytes : ℕ → List UInt8 → List UInt8 → Option ℤ
  | 0, _, _ => some 0
  | n + 1, b1 :: c1, b2 :: c2 =>
    if b2 < b1 then some 1
    else if b1 < b2 then some (-1)
    else compareBytes n c1 c2
  | _ + 1, _, _ => none

/-- `CompareBigEndian`; each number is the memory from a pointer on, with a length. -/
def compareBigEndian (c1 : List UInt8) (c1len : ℕ) (c2 : List UInt8) (c2len : ℕ) : Option ℤ :=
  match skipZeros (c1len - c2len) c1 with
  | none => none
  | some none => some 1
  | some (some c1) =>
    match skipZeros (c2len - c1len) c2 with
    | none => none
    | some none => some (-1)
    | some (some c2) => compareBytes (min c1len c2len) c1 c2

/-- Half of the order of secp256k1's generator minus 1. -/
def vchMaxModHalfOrder : List UInt8 :=
  [0x7F, 0xFF, 0xFF, 0xFF, 0xFF, 0xFF, 0xFF, 0xFF, 0xFF, 0xFF, 0xFF, 0xFF, 0xFF, 0xFF, 0xFF, 0xFF,
   0x5D, 0x57, 0x6E, 0x73, 0x57, 0xA4, 0x50, 0x1D, 0xDF, 0xE9, 0x2F, 0x46, 0x68, 0x1B, 0x20, 0xA0]

/-- `CKey::CheckSignatureElement(vch, len, true)` -/
def readSignatureElement (vch : List UInt8) (len : ℕ) : Option Bool := do
  let zero ← compareBigEndian vch len [] 0
  if 0 < zero then
    let half ← compareBigEndian vch len vchMaxModHalfOrder 32
    return half ≤ 0
  else return false

/-- A value as it has to be encoded: not empty, not negative and not excessively padded. -/
def readSignatureValue (vch : List UInt8) (len : ℕ) : Option Bool := do
  if len = 0 then return false
  else
    let b0 ← vch[0]?
    if b0 &&& 0x80 ≠ 0 then return false
    else if 1 < len ∧ b0 = 0 then
      let b1 ← vch[1]?
      return b1 &&& 0x80 ≠ 0
    else return true

/-- What `IsCanonicalSignature` checks once the lengths of R and S fit. -/
def readSignatureValues (vchSig : List UInt8) (nLenR nLenS : ℕ) : Option Bool := do
  if (← vchSig[2]?) ≠ 0x02 then return false
  else if !(← readSignatureValue (vchSig.drop 4) nLenR) then return false
  else if (← vchSig[4 + nLenR]?) ≠ 0x02 then return false
  else
    let s := vchSig.drop (6 + nLenR)
    if !(← readSignatureValue s nLenS) then return false
    else readSignatureElement s nLenS

/-- What it checks from the length of R on. -/
def readSignatureLengths (vchSig : List UInt8) : Option Bool := do
  let nLenR := (← vchSig[3]?).toNat
  if vchSig.length ≤ 5 + nLenR then return false
  else
    let nLenS := (← vchSig[5 + nLenR]?).toNat
    if nLenR + nLenS + 7 ≠ vchSig.length then return false
    else readSignatureValues vchSig nLenR nLenS

/-- `IsCanonicalSignature` -/
def readCanonicalSignature (vchSig : List UInt8) : Option Bool :=
  if vchSig.length < 9 then some false
  else if 73 < vchSig.length then some false
  else do
    let back ← vchSig[vchSig.length - 1]?
    -- without SIGHASH_ANYONECANPAY
    let nHashType := back &&& 0x7f
    if nHashType < 1 ∨ 3 < nHashType then return false
    else if (← vchSig[0]?) ≠ 0x30 then return false
    else if (← vchSig[1]?).toNat ≠ vchSig.length - 3 then return false
    else readSignatureLengths vchSig

theorem bigEndian_append (c c' : List UInt8) :
    bigEndian (c ++ c') = bigEndian c * 256 ^ c'.length + bigEndian c' := by
  rw [bigEndian, List.reverse_append, ofLittleEndian_append, List.length_reverse, bigEndian,
    bigEndian, Nat.mul_comm, Nat.add_comm]

theorem bigEndian_singleton (b : UInt8) : bigEndian [b] = b.toNat := Nat.add_zero _

theorem bigEndian_cons (b : UInt8) (c : List UInt8) :
    bigEndian (b :: c) = b.toNat * 256 ^ c.length + bigEndian c := by
  rw [← List.singleton_append, bigEndian_append, bigEndian_singleton]

theorem bigEndian_lt (c : List UInt8) : bigEndian c < 256 ^ c.length := by
  have hlt := ofLittleEndian_lt c.reverse
  rwa [List.length_reverse] at hlt

theorem skipZeros_eq {n : ℕ} {c : List UInt8} (h : n ≤ c.length) :
    skipZeros n c = some (if bigEndian (c.take n) = 0 then some (c.drop n) else none) := by
  induction n generalizing c with
  | zero => rfl
  | succ n ih =>
    cases c with
    | nil => exact absurd h (Nat.not_succ_le_zero n)
    | cons b c =>
      have hn : n ≤ c.length := Nat.le_of_succ_le_succ h
      have hpow : 0 < 256 ^ (c.take n).length := Nat.pow_pos (by decide)
      rw [skipZeros, List.take_succ_cons, List.drop_succ_cons, bigEndian_cons]
      split
      · rename_i hb
        have hpos : 0 < b.toNat := Nat.pos_of_ne_zero fun h0 => hb (UInt8.toNat_inj.mp h0)
        have hmul := Nat.mul_pos hpos hpow
        rw [if_neg (by omega)]
      · rename_i hb
        rw [Decidable.not_not.mp hb, ih hn]
        simp

theorem compareBytes_spec {n : ℕ} {c1 c2 : List UInt8} (h1 : n ≤ c1.length) (h2 : n ≤ c2.length) :
    ∃ z, compareBytes n c1 c2 = some z ∧
      (0 < z ↔ bigEndian (c2.take n) < bigEndian (c1.take n)) := by
  induction n generalizing c1 c2 with
  | zero => exact ⟨0, rfl, by simp⟩
  | succ n ih =>
    cases c1 with
    | nil => exact absurd h1 (Nat.not_succ_le_zero n)
    | cons b1 c1 =>
      cases c2 with
      | nil => exact absurd h2 (Nat.not_succ_le_zero n)
      | cons b2 c2 =>
        have hn1 : n ≤ c1.length := Nat.le_of_succ_le_succ h1
        have hn2 : n ≤ c2.length := Nat.le_of_succ_le_succ h2
        have hlt1 := bigEndian_lt (c1.take n)
        have hlt2 := bigEndian_lt (c2.take n)
        rw [List.length_take_of_le hn1] at hlt1
        rw [List.length_take_of_le hn2] at hlt2
        rw [compareBytes, List.take_succ_cons, List.take_succ_cons, bigEndian_cons, bigEndian_cons,
          List.length_take_of_le hn1, List.length_take_of_le hn2]
        -- the first byte that differs decides
        have hstep {x y : ℕ} (hxy : x < y) : x * 256 ^ n + 256 ^ n ≤ y * 256 ^ n := by
          rw [← Nat.succ_mul]
          exact Nat.mul_le_mul_right _ hxy
        split
        · rename_i hb
          have hle := hstep (UInt8.lt_iff_toNat_lt.mp hb)
          exact ⟨1, rfl, iff_of_true Int.one_pos (by omega)⟩
        · split
          · rename_i hb
            have hle := hstep (UInt8.lt_iff_toNat_lt.mp hb)
            exact ⟨-1, rfl, iff_of_false (by decide) (by omega)⟩
          · rename_i hge hle
            obtain ⟨z, hz, hiff⟩ := ih hn1 hn2
            have heq : b1 = b2 := UInt8.le_antisymm (UInt8.not_lt.mp hge) (UInt8.not_lt.mp hle)
            refine ⟨z, hz, hiff.trans ?_⟩
            rw [heq]
            omega

/-- The comparison reads no more than the numbers, and tells which is the greater. -/
theorem compareBigEndian_spec (c1 c2 : List UInt8) {c1len c2len : ℕ} (h1 : c1len ≤ c1.length)
    (h2 : c2len ≤ c2.length) : ∃ z, compareBigEndian c1 c1len c2 c2len = some z ∧
      (0 < z ↔ bigEndian (c2.take c2len) < bigEndian (c1.take c1len)) := by
  have hsplit : ∀ {c : List UInt8} {n k : ℕ}, n ≤ c.length → k ≤ n →
      bigEndian (c.take n) =
        bigEndian (c.take (n - k)) * 256 ^ k + bigEndian ((c.drop (n - k)).take k) := by
    intro c n k hn hk
    have htake : c.take n = c.take (n - k) ++ (c.drop (n - k)).take k := by
      rw [← List.take_add, Nat.sub_add_cancel hk]
    rw [htake, bigEndian_append, List.length_take_of_le (by rw [List.length_drop]; omega)]
  have hlt : ∀ {c : List UInt8} {n : ℕ}, n ≤ c.length → bigEndian (c.take n) < 256 ^ n := by
    intro c n hn
    have hlt := bigEndian_lt (c.take n)
    rwa [List.length_take_of_le hn] at hlt
  unfold compareBigEndian
  rw [skipZeros_eq (by omega), skipZeros_eq (by omega)]
  rcases Nat.le_total c2len c1len with hle | hle
  · rw [Nat.sub_eq_zero_of_le hle, Nat.min_eq_right hle, hsplit h1 hle]
    have hlt2 := hlt h2
    by_cases hzero : bigEndian (c1.take (c1len - c2len)) = 0
    · rw [hzero, Nat.zero_mul, Nat.zero_add]
      exact compareBytes_spec (by rw [List.length_drop]; omega) h2
    · rw [if_neg hzero]
      have hmul := Nat.mul_le_mul_right (256 ^ c2len) (Nat.one_le_iff_ne_zero.mpr hzero)
      exact ⟨1, rfl, iff_of_true Int.one_pos (by omega)⟩
  · rw [Nat.sub_eq_zero_of_le hle, Nat.min_eq_left hle, hsplit h2 hle]
    have hlt1 := hlt h1
    by_cases hzero : bigEndian (c2.take (c2len - c1len)) = 0
    · rw [hzero, Nat.zero_mul, Nat.zero_add]
      exact compareBytes_spec h1 (by rw [List.length_drop]; omega)
    · rw [if_neg hzero]
      have hmul := Nat.mul_le_mul_right (256 ^ c1len) (Nat.one_le_iff_ne_zero.mpr hzero)
      exact ⟨-1, rfl, iff_of_false (by decide) (by omega)⟩

theorem bigEndian_vchMaxModHalfOrder : bigEndian vchMaxModHalfOrder = maxModHalfOrder := by
  decide +kernel

theorem readSignatureElement_eq {vch : List UInt8} {len : ℕ} (h : len ≤ vch.length) :
    readSignatureElement vch len =
      some (decide (0 < bigEndian (vch.take len) ∧ bigEndian (vch.take len) ≤ maxModHalfOrder)) := by
  obtain ⟨zero, hzero, hpos⟩ := compareBigEndian_spec vch [] h (Nat.le_refl 0)
  obtain ⟨half, hhalf, hgt⟩ := compareBigEndian_spec vch vchMaxModHalfOrder h
    (by decide : 32 ≤ vchMaxModHalfOrder.length)
  have htake : vchMaxModHalfOrder.take 32 = vchMaxModHalfOrder := rfl
  rw [htake, bigEndian_vchMaxModHalfOrder] at hgt
  replace hpos : 0 < zero ↔ 0 < bigEndian (vch.take len) := hpos
  unfold readSignatureElement
  rw [hzero, hhalf]
  change (if 0 < zero then some (decide (half ≤ 0)) else some false) = _
  have hle : half ≤ 0 ↔ bigEndian (vch.take len) ≤ maxModHalfOrder := by
    rw [← not_lt, hgt, not_lt]
  split
  · rename_i h0
    exact congrArg some (decide_eq_decide.mpr (hle.trans (and_iff_right (hpos.mp h0)).symm))
  · rename_i h0
    exact congrArg some (decide_eq_false fun hand => h0 (hpos.mpr hand.1)).symm

/-- A number as DER writes it: two's complement, without bytes that could be left out. -/
def derInteger (n : ℕ) : List UInt8 := if n = 0 then [0] else (getvch n).reverse

theorem vchBytes_ofLittleEndian {vch : List UInt8} (h : vch.getLast? ≠ some 0) {fuel : ℕ}
    (hfuel : ofLittleEndian vch ≤ fuel) : vchBytes fuel (ofLittleEndian vch) = vch := by
  induction vch generalizing fuel with
  | nil => cases fuel <;> rfl
  | cons b vch ih =>
    have hlast : vch.getLast? ≠ some 0 := by
      cases vch with
      | nil => simp
      | cons b' vch => rwa [List.getLast?_cons_cons] at h
    have hb := b.toNat_lt
    -- a byte of zero comes before a number that is not zero
    have hpos : 0 < ofLittleEndian (b :: vch) := by
      rw [ofLittleEndian]
      by_contra hzero
      have hb0 : b = 0 := UInt8.toNat_inj.mp (show b.toNat = 0 by omega)
      have hvch0 : ofLittleEndian vch = 0 := by omega
      have hnil := ih hlast hvch0.le
      rw [vchBytes] at hnil
      rw [← hnil, hb0] at h
      exact h rfl
    cases fuel with
    | zero => omega
    | succ fuel =>
      have hdiv : ofLittleEndian (b :: vch) / 256 = ofLittleEndian vch := by
        rw [ofLittleEndian]
        omega
      have hmod : UInt8.ofNat (ofLittleEndian (b :: vch)) = b := by
        rw [← UInt8.toNat_inj, UInt8.toNat_ofNat', ofLittleEndian]
        omega
      have hle : ofLittleEndian vch ≤ fuel := by
        rw [ofLittleEndian] at hfuel hpos
        omega
      rw [vchBytes, if_neg hpos.ne', hmod, hdiv, ih hlast hle]

theorem getLast?_vchBytes_ne_zero {fuel n : ℕ} (h : n ≤ fuel) :
    (vchBytes fuel n).getLast? ≠ some 0 := by
  induction fuel generalizing n with
  | zero => simp [vchBytes]
  | succ fuel ih =>
    by_cases hn : n = 0
    · simp [vchBytes, hn]
    · rw [vchBytes, if_neg hn]
      have hrest := ih (n := n / 256) (by omega)
      by_cases hdiv : n / 256 = 0
      · have hnil : vchBytes fuel (n / 256) = [] := by
          rw [hdiv]
          cases fuel <;> rfl
        rw [hnil, List.getLast?_singleton]
        intro h0
        have hzero := congrArg UInt8.toNat (Option.some_injective _ h0)
        rw [UInt8.toNat_ofNat'] at hzero
        change n % 256 = 0 at hzero
        omega
      · have hne : vchBytes fuel (n / 256) ≠ [] := by
          intro hnil
          have hvalue := vchValue_vchBytes (show n / 256 ≤ fuel by omega)
          rw [hnil] at hvalue
          exact hdiv hvalue.symm
        obtain ⟨b, vch, hvch⟩ := List.exists_cons_of_ne_nil hne
        rw [hvch] at hrest ⊢
        rwa [List.getLast?_cons_cons]

theorem getvch_cases {n : ℕ} (hn : n ≠ 0) : ∃ (front : List UInt8) (back : UInt8), back ≠ 0 ∧
    getvch n = if 0x80 ≤ back then front ++ [back, 0] else front ++ [back] := by
  have hne : vchBytes n n ≠ [] := by
    intro hnil
    have hvalue := vchValue_vchBytes (Nat.le_refl n)
    rw [hnil] at hvalue
    exact hn hvalue.symm
  obtain ⟨front, back, hvch⟩ := (List.eq_nil_or_concat (vchBytes n n)).resolve_left hne
  rw [List.concat_eq_append] at hvch
  have hback := getLast?_vchBytes_ne_zero (Nat.le_refl n)
  rw [hvch, List.getLast?_concat] at hback
  refine ⟨front, back, fun h0 => hback (congrArg some h0), ?_⟩
  simp [getvch, hvch]

theorem derInteger_bigEndian {b : UInt8} {c : List UInt8} (hb : b ≠ 0) :
    derInteger (bigEndian (b :: c)) = if 0x80 ≤ b then 0 :: b :: c else b :: c := by
  have hlast : (c.reverse ++ [b]).getLast? ≠ some 0 := by
    rw [List.getLast?_concat]
    exact fun h0 => hb (Option.some_injective _ h0)
  have hvch : vchBytes (bigEndian (b :: c)) (bigEndian (b :: c)) = c.reverse ++ [b] := by
    rw [bigEndian, List.reverse_cons]
    exact vchBytes_ofLittleEndian hlast (Nat.le_refl _)
  have hne : bigEndian (b :: c) ≠ 0 := by
    intro h0
    rw [h0] at hvch
    exact List.append_ne_nil_of_right_ne_nil _ (List.cons_ne_nil b []) hvch.symm
  rw [derInteger, if_neg hne]
  simp only [getvch, hvch, List.getLast?_concat, Option.any_some, decide_eq_true_eq]
  split
  · rw [List.reverse_append, List.reverse_append, List.reverse_reverse]
    rfl
  · rw [List.reverse_append, List.reverse_reverse]
    rfl

theorem derInteger_iff (b : UInt8) (c : List UInt8) : (∃ n, b :: c = derInteger n) ↔
    b < 0x80 ∧ ∀ b' c', c = b' :: c' → b = 0 → 0x80 ≤ b' := by
  constructor
  · rintro ⟨n, hn⟩
    by_cases h0 : n = 0
    · obtain ⟨rfl, rfl⟩ := List.cons.inj (hn.trans (if_pos h0))
      exact ⟨by decide, fun b' c' hc => by cases hc⟩
    · obtain ⟨front, back, hback, hvch⟩ := getvch_cases h0
      rw [derInteger, if_neg h0, hvch] at hn
      split at hn
      · rename_i hle
        rw [List.reverse_append] at hn
        obtain ⟨rfl, rfl⟩ := List.cons.inj hn
        refine ⟨by decide, fun b' c' hc _ => ?_⟩
        obtain ⟨rfl, _⟩ := List.cons.inj hc
        exact hle
      · rename_i hlt
        rw [List.reverse_append] at hn
        obtain ⟨rfl, _⟩ := List.cons.inj hn
        exact ⟨UInt8.not_le.mp hlt, fun _ _ _ hb0 => absurd hb0 hback⟩
  · rintro ⟨hlt, hpad⟩
    by_cases hb : b = 0
    · cases c with
      | nil => exact ⟨0, by rw [hb]; rfl⟩
      | cons b' c' =>
        have hle := hpad b' c' rfl hb
        have hb' : b' ≠ 0 := by
          rintro rfl
          exact absurd hle (by decide)
        exact ⟨bigEndian (b' :: c'), by rw [derInteger_bigEndian hb', if_pos hle, hb]⟩
    · exact ⟨bigEndian (b :: c), by
        rw [derInteger_bigEndian hb, if_neg (UInt8.not_le.mpr hlt)]⟩

theorem and_0x80_ne_zero_iff (b : UInt8) : b &&& 0x80 ≠ 0 ↔ 0x80 ≤ b := by
  have hall := forall_byte (p := fun b => decide (b &&& 0x80 ≠ 0) == decide (0x80 ≤ b))
    (by decide +kernel) b
  exact decide_eq_decide.mp (beq_iff_eq.mp hall)

theorem derInteger_ne_nil (n : ℕ) : derInteger n ≠ [] := by
  intro hnil
  by_cases hn : n = 0
  · rw [derInteger, if_pos hn] at hnil
    cases hnil
  · obtain ⟨front, back, _, hvch⟩ := getvch_cases hn
    rw [derInteger, if_neg hn, hvch] at hnil
    split at hnil <;> simp at hnil

theorem readSignatureValue_spec (l rest : List UInt8) :
    ∃ answer, readSignatureValue (l ++ rest) l.length = some answer ∧
      (answer = true ↔ ∃ n, l = derInteger n) := by
  cases l with
  | nil => exact ⟨false, rfl, iff_of_false Bool.false_ne_true fun ⟨n, hn⟩ =>
      derInteger_ne_nil n hn.symm⟩
  | cons b c =>
    rw [derInteger_iff]
    change ∃ answer, (if b &&& 0x80 ≠ 0 then some false
      else if 1 < c.length + 1 ∧ b = 0 then
        (c ++ rest)[0]?.bind fun b1 => some (decide (b1 &&& 0x80 ≠ 0))
      else some true) = some answer ∧ _
    simp only [and_0x80_ne_zero_iff]
    split
    · rename_i hle
      exact ⟨false, rfl, iff_of_false Bool.false_ne_true fun h => UInt8.not_lt.mpr hle h.1⟩
    · rename_i hlt
      have hlt := UInt8.not_le.mp hlt
      split
      · rename_i hpad
        cases c with
        | nil => exact absurd hpad.1 (by decide)
        | cons b' c' =>
          refine ⟨decide (0x80 ≤ b'), rfl, ?_⟩
          rw [decide_eq_true_iff]
          constructor
          · intro hle
            refine ⟨hlt, fun b1 c1 hc _ => ?_⟩
            obtain ⟨rfl, _⟩ := List.cons.inj hc
            exact hle
          · exact fun h => h.2 b' c' rfl hpad.2
      · rename_i hpad
        refine ⟨true, rfl, iff_of_true rfl ⟨hlt, fun b' c' hc hb => absurd ⟨?_, hb⟩ hpad⟩⟩
        rw [hc, List.length_cons]
        omega

theorem bigEndian_derInteger (n : ℕ) : bigEndian (derInteger n) = n := by
  rw [bigEndian, derInteger]
  split
  · rename_i hn
    rw [hn]
    rfl
  · rw [List.reverse_reverse, ofLittleEndian_getvch]

/-- `<30> <total len> <02> <len R> <R> <02> <len S> <S> <hashtype>` -/
def signatureForm (R S : List UInt8) (hashtype : UInt8) : List UInt8 :=
  0x30 :: .ofNat (R.length + S.length + 4) :: 0x02 :: .ofNat R.length ::
    (R ++ 0x02 :: .ofNat S.length :: (S ++ [hashtype]))

/-- The parts where the lengths fit, whatever stands for the markers. -/
def signatureParts (b0 b1 b2 b3 : UInt8) (R : List UInt8) (c0 c1 : UInt8) (S : List UInt8)
    (back : UInt8) : List UInt8 :=
  b0 :: b1 :: b2 :: b3 :: (R ++ c0 :: c1 :: (S ++ [back]))

theorem length_signatureParts (b0 b1 b2 b3 : UInt8) (R : List UInt8) (c0 c1 : UInt8)
    (S : List UInt8) (back : UInt8) :
    (signatureParts b0 b1 b2 b3 R c0 c1 S back).length = R.length + S.length + 7 := by
  simp only [signatureParts, List.length_cons, List.length_append, List.length_nil]
  omega

theorem exists_parts {vchSig : List UInt8} {b3 c1 : UInt8} (h3 : vchSig[3]? = some b3)
    (hS : vchSig[5 + b3.toNat]? = some c1) (hlen : b3.toNat + c1.toNat + 7 = vchSig.length) :
    ∃ (b0 b1 b2 c0 back : UInt8) (R S : List UInt8), R.length = b3.toNat ∧ S.length = c1.toNat ∧
      vchSig = signatureParts b0 b1 b2 b3 R c0 c1 S back := by
  obtain ⟨b0, b1, b2, b3', rest, rfl⟩ :
      ∃ b0 b1 b2 b3 rest, vchSig = b0 :: b1 :: b2 :: b3 :: rest := by
    match vchSig, hlen with
    | b0 :: b1 :: b2 :: b3 :: rest, _ => exact ⟨b0, b1, b2, b3, rest, rfl⟩
  cases h3
  simp only [List.length_cons] at hlen
  have hrest : b3.toNat + 2 ≤ rest.length := by omega
  obtain ⟨R, tail, rfl, hR⟩ : ∃ R tail, rest = R ++ tail ∧ R.length = b3.toNat :=
    ⟨rest.take b3.toNat, rest.drop b3.toNat, (List.take_append_drop _ _).symm,
      List.length_take_of_le (by omega)⟩
  rw [List.length_append] at hlen hrest
  obtain ⟨c0, c1', tail, rfl⟩ : ∃ c0 c1 tail', tail = c0 :: c1 :: tail' := by
    match tail, hrest with
    | c0 :: c1 :: tail, _ => exact ⟨c0, c1, tail, rfl⟩
    | [], h => simp only [List.length_nil] at h; omega
    | [c0], h => simp only [List.length_singleton] at h; omega
  rw [show 5 + b3.toNat = b3.toNat + 1 + 4 by omega] at hS
  simp only [List.getElem?_cons_succ] at hS
  rw [List.getElem?_append_right (by omega), hR, Nat.add_sub_cancel_left] at hS
  cases hS
  simp only [List.length_cons] at hlen
  obtain ⟨S, back, htail⟩ := (List.eq_nil_or_concat tail).resolve_left (by
    rintro rfl
    simp only [List.length_nil] at hlen
    omega)
  rw [List.concat_eq_append] at htail
  rw [htail, List.length_append, List.length_singleton] at hlen
  exact ⟨b0, b1, b2, c0, back, R, S, hR, by omega, by rw [htail, signatureParts]⟩

theorem readSignatureValues_parts (b0 b1 b2 b3 : UInt8) (R : List UInt8) (c0 c1 : UInt8)
    (S : List UInt8) (back : UInt8) :
    ∃ answer, readSignatureValues (signatureParts b0 b1 b2 b3 R c0 c1 S back) R.length S.length =
        some answer ∧
      (answer = true ↔ b2 = 0x02 ∧ (∃ r, R = derInteger r) ∧ c0 = 0x02 ∧
        ∃ s, S = derInteger s ∧ 0 < s ∧ s ≤ maxModHalfOrder) := by
  obtain ⟨answerR, hreadR, hR⟩ := readSignatureValue_spec R (c0 :: c1 :: (S ++ [back]))
  obtain ⟨answerS, hreadS, hS⟩ := readSignatureValue_spec S [back]
  have hmark : (signatureParts b0 b1 b2 b3 R c0 c1 S back)[4 + R.length]? = some c0 := by
    rw [signatureParts, Nat.add_comm 4]
    simp only [List.getElem?_cons_succ]
    rw [List.getElem?_append_right (Nat.le_refl _), Nat.sub_self]
    rfl
  have hdrop : (signatureParts b0 b1 b2 b3 R c0 c1 S back).drop (6 + R.length) = S ++ [back] := by
    rw [signatureParts, show 6 + R.length = R.length + 2 + 4 by omega]
    simp only [List.drop_succ_cons]
    rw [List.drop_length_add_append]
    rfl
  have hvalue : readSignatureElement (S ++ [back]) S.length =
      some (decide (0 < bigEndian S ∧ bigEndian S ≤ maxModHalfOrder)) := by
    rw [readSignatureElement_eq (by rw [List.length_append]; omega), List.take_left]
  unfold readSignatureValues
  rw [hmark, hdrop]
  change ∃ answer, (if b2 ≠ 0x02 then some false
    else (readSignatureValue (R ++ c0 :: c1 :: (S ++ [back])) R.length).bind fun r =>
      if !r then some false
      else if c0 ≠ 0x02 then some false
      else (readSignatureValue (S ++ [back]) S.length).bind fun s =>
        if !s then some false else readSignatureElement (S ++ [back]) S.length) =
          some answer ∧ _
  rw [hreadR, hreadS, hvalue, Option.bind_some]
  -- each check in turn, and the part of the form that it is about
  by_cases h2 : b2 = 0x02
  swap
  · exact ⟨false, if_pos h2, iff_of_false Bool.false_ne_true fun h => h2 h.1⟩
  rw [if_neg (not_not.mpr h2)]
  cases answerR with
  | false => exact ⟨false, rfl, iff_of_false Bool.false_ne_true fun h => by
      cases hR.mpr h.2.1⟩
  | true =>
    by_cases h0 : c0 = 0x02
    swap
    · exact ⟨false, if_pos h0, iff_of_false Bool.false_ne_true fun h => h0 h.2.2.1⟩
    rw [if_neg (by decide), if_neg (not_not.mpr h0)]
    cases answerS with
    | false => exact ⟨false, rfl, iff_of_false Bool.false_ne_true fun ⟨_, _, _, s, hs, _⟩ => by
        cases hS.mpr ⟨s, hs⟩⟩
    | true =>
      refine ⟨_, rfl, ?_⟩
      rw [decide_eq_true_iff]
      constructor
      · rintro hrange
        obtain ⟨s, rfl⟩ := hS.mp rfl
        rw [bigEndian_derInteger] at hrange
        exact ⟨h2, hR.mp rfl, h0, s, rfl, hrange⟩
      · rintro ⟨_, _, _, s, rfl, hrange⟩
        rwa [bigEndian_derInteger]

theorem getElem?_signatureParts (b0 b1 b2 b3 : UInt8) (R : List UInt8) (c0 c1 : UInt8)
    (S : List UInt8) (back : UInt8) :
    (signatureParts b0 b1 b2 b3 R c0 c1 S back)[5 + R.length]? = some c1 := by
  rw [signatureParts, show 5 + R.length = R.length + 1 + 4 by omega]
  simp only [List.getElem?_cons_succ]
  rw [List.getElem?_append_right (Nat.le_add_right _ 1), Nat.add_sub_cancel_left]
  rfl

theorem toNat_ofNat_length {l : List UInt8} (h : l.length < 256) :
    (UInt8.ofNat l.length).toNat = l.length := by
  rw [UInt8.toNat_ofNat', Nat.mod_eq_of_lt h]

/-- Of a signature of no more than 73 bytes, what is accepted from the length of R on has its
values where it says. -/
theorem readSignatureLengths_spec {vchSig : List UInt8} (hlo : 4 ≤ vchSig.length)
    (hhi : vchSig.length ≤ 73) :
    ∃ answer, readSignatureLengths vchSig = some answer ∧
      (answer = true ↔ ∃ b0 b1 r s back, vchSig =
          signatureParts b0 b1 0x02 (.ofNat (derInteger r).length) (derInteger r)
            0x02 (.ofNat (derInteger s).length) (derInteger s) back ∧
        0 < s ∧ s ≤ maxModHalfOrder) := by
  obtain ⟨b3, h3⟩ : ∃ b3, vchSig[3]? = some b3 := ⟨_, List.getElem?_eq_getElem (by omega)⟩
  -- what the lengths are in a signature of the form
  have hform : ∀ {b0 b1 r s back}, vchSig =
      signatureParts b0 b1 0x02 (.ofNat (derInteger r).length) (derInteger r)
        0x02 (.ofNat (derInteger s).length) (derInteger s) back →
      b3.toNat = (derInteger r).length ∧
        vchSig[5 + b3.toNat]? = some (.ofNat (derInteger s).length) ∧
        (UInt8.ofNat (derInteger s).length).toNat = (derInteger s).length ∧
        vchSig.length = (derInteger r).length + (derInteger s).length + 7 := by
    intro b0 b1 r s back hsig
    have hlen := congrArg List.length hsig
    rw [length_signatureParts] at hlen
    have hb3 : b3 = .ofNat (derInteger r).length := by
      rw [hsig] at h3
      exact (Option.some_injective _ h3).symm
    have hR : b3.toNat = (derInteger r).length := by
      rw [hb3]
      exact toNat_ofNat_length (by omega)
    refine ⟨hR, ?_, toNat_ofNat_length (by omega), hlen⟩
    rw [hR, hsig, getElem?_signatureParts]
  unfold readSignatureLengths
  rw [h3]
  change ∃ answer, (if vchSig.length ≤ 5 + b3.toNat then some false
    else (vchSig[5 + b3.toNat]?).bind fun c1 =>
      if b3.toNat + c1.toNat + 7 ≠ vchSig.length then some false
      else readSignatureValues vchSig b3.toNat c1.toNat) = some answer ∧ _
  by_cases hplace : vchSig.length ≤ 5 + b3.toNat
  · refine ⟨false, if_pos hplace, iff_of_false Bool.false_ne_true ?_⟩
    rintro ⟨b0, b1, r, s, back, hsig, _⟩
    obtain ⟨hR, _, _, hlen⟩ := hform hsig
    omega
  · rw [if_neg hplace]
    obtain ⟨c1, hc1⟩ : ∃ c1, vchSig[5 + b3.toNat]? = some c1 :=
      ⟨_, List.getElem?_eq_getElem (by omega)⟩
    rw [hc1, Option.bind_some]
    by_cases hsum : b3.toNat + c1.toNat + 7 = vchSig.length
    · rw [if_neg (not_not.mpr hsum)]
      obtain ⟨b0, b1, b2, c0, back, R, S, hR, hS, hsig⟩ := exists_parts h3 hc1 hsum
      obtain ⟨answer, hanswer, hiff⟩ := readSignatureValues_parts b0 b1 b2 b3 R c0 c1 S back
      rw [hR, hS, ← hsig] at hanswer
      refine ⟨answer, hanswer, hiff.trans ?_⟩
      constructor
      · rintro ⟨rfl, ⟨r, rfl⟩, rfl, s, rfl, hrange⟩
        have hb3 : b3 = .ofNat (derInteger r).length := by rw [hR, UInt8.ofNat_toNat]
        have hc : c1 = .ofNat (derInteger s).length := by rw [hS, UInt8.ofNat_toNat]
        exact ⟨b0, b1, r, s, back, by rw [hsig, ← hb3, ← hc], hrange⟩
      · rintro ⟨b0', b1', r, s, back', hsig', hrange⟩
        obtain ⟨hR', hc', hS', _⟩ := hform hsig'
        rw [hsig, signatureParts, signatureParts] at hsig'
        simp only [List.cons.injEq] at hsig'
        obtain ⟨_, _, hb2, _, happ⟩ := hsig'
        obtain ⟨hRr, htail⟩ := List.append_inj happ (hR.trans hR')
        simp only [List.cons.injEq] at htail
        obtain ⟨hc0, hc1S, hlast⟩ := htail
        have hSlen : S.length = (derInteger s).length := by rw [hS, hc1S, hS']
        exact ⟨hb2, ⟨r, hRr⟩, hc0, s, (List.append_inj hlast hSlen).1, hrange⟩
    · refine ⟨false, if_pos hsum, iff_of_false Bool.false_ne_true ?_⟩
      rintro ⟨b0, b1, r, s, back, hsig, _⟩
      obtain ⟨hR, hc, hS, hlen⟩ := hform hsig
      rw [hc1] at hc
      rw [Option.some_injective _ hc, hS] at hsum
      omega

/-- `IsCanonicalSignature` reads no byte outside the signature, whatever the signature is, and it
accepts the encodings of a number that is not negative, one in the lower half of the order that is
not zero, and a hash type of the three known ones. -/
theorem readCanonicalSignature_spec (vchSig : List UInt8) :
    ∃ answer, readCanonicalSignature vchSig = some answer ∧
      (answer = true ↔ 9 ≤ vchSig.length ∧ vchSig.length ≤ 73 ∧ ∃ r s hashtype,
        vchSig = signatureForm (derInteger r) (derInteger s) hashtype ∧
          (1 ≤ hashtype &&& 0x7f ∧ hashtype &&& 0x7f ≤ 3) ∧ 0 < s ∧ s ≤ maxModHalfOrder) := by
  unfold readCanonicalSignature
  by_cases hlo : vchSig.length < 9
  · exact ⟨false, if_pos hlo, iff_of_false Bool.false_ne_true fun h => absurd h.1 (by omega)⟩
  rw [if_neg hlo]
  by_cases hhi : 73 < vchSig.length
  · exact ⟨false, if_pos hhi, iff_of_false Bool.false_ne_true fun h => absurd h.2.1 (by omega)⟩
  rw [if_neg hhi]
  have hread : ∀ i, i < vchSig.length → ∃ b, vchSig[i]? = some b := fun i hi =>
    ⟨vchSig[i], List.getElem?_eq_getElem hi⟩
  obtain ⟨back, hback⟩ := hread (vchSig.length - 1) (by omega)
  obtain ⟨b0, hb0⟩ := hread 0 (by omega)
  obtain ⟨b1, hb1⟩ := hread 1 (by omega)
  -- the first bytes and the last one of a signature of the form
  have hform : ∀ {R S : List UInt8} {hashtype : UInt8}, vchSig = signatureForm R S hashtype →
      b0 = 0x30 ∧ b1.toNat = vchSig.length - 3 ∧ back = hashtype := by
    intro R S hashtype hsig
    have hlen : vchSig.length = R.length + S.length + 7 := by
      rw [hsig]
      exact length_signatureParts _ _ _ _ R _ _ S hashtype
    have h0 := hb0
    have h1 := hb1
    have hlast := hback
    rw [← List.getLast?_eq_getElem?] at hlast
    rw [hsig] at h0 h1 hlast
    refine ⟨(Option.some_injective _ h0).symm, ?_, ?_⟩
    · rw [← Option.some_injective _ h1, UInt8.toNat_ofNat', Nat.mod_eq_of_lt (by omega)]
      omega
    · have hsnoc : signatureForm R S hashtype =
          (0x30 :: .ofNat (R.length + S.length + 4) :: 0x02 :: .ofNat R.length ::
            (R ++ 0x02 :: .ofNat S.length :: S)) ++ [hashtype] := by
        simp [signatureForm]
      rw [hsnoc, List.getLast?_concat] at hlast
      exact (Option.some_injective _ hlast).symm
  obtain ⟨answer, hanswer, hiff⟩ := readSignatureLengths_spec (by omega) (not_lt.mp hhi)
  rw [hback, hb0, hb1]
  change ∃ answer, (if back &&& 0x7f < 1 ∨ 3 < back &&& 0x7f then some false
    else if b0 ≠ 0x30 then some false
    else if b1.toNat ≠ vchSig.length - 3 then some false
    else readSignatureLengths vchSig) = some answer ∧ _
  by_cases htype : back &&& 0x7f < 1 ∨ 3 < back &&& 0x7f
  · refine ⟨false, if_pos htype, iff_of_false Bool.false_ne_true ?_⟩
    rintro ⟨_, _, r, s, hashtype, hsig, ⟨hmin, hmax⟩, _⟩
    rw [(hform hsig).2.2] at htype
    exact htype.elim (UInt8.not_lt.mpr hmin) (UInt8.not_lt.mpr hmax)
  rw [if_neg htype]
  by_cases h0 : b0 = 0x30
  swap
  · refine ⟨false, if_pos h0, iff_of_false Bool.false_ne_true ?_⟩
    rintro ⟨_, _, r, s, hashtype, hsig, _⟩
    exact h0 (hform hsig).1
  rw [if_neg (not_not.mpr h0)]
  by_cases h1 : b1.toNat = vchSig.length - 3
  swap
  · refine ⟨false, if_pos h1, iff_of_false Bool.false_ne_true ?_⟩
    rintro ⟨_, _, r, s, hashtype, hsig, _⟩
    exact h1 (hform hsig).2.1
  rw [if_neg (not_not.mpr h1)]
  refine ⟨answer, hanswer, hiff.trans ?_⟩
  constructor
  · rintro ⟨b0', b1', r, s, hashtype, hsig, hrange⟩
    have hlen := congrArg List.length hsig
    rw [length_signatureParts] at hlen
    have hfirst := hb0
    have hsecond := hb1
    rw [hsig] at hfirst hsecond
    have hb0' : b0' = 0x30 := (Option.some_injective _ hfirst).trans h0
    have hb1' : b1' = .ofNat ((derInteger r).length + (derInteger s).length + 4) := by
      rw [(Option.some_injective _ hsecond : b1' = b1), ← UInt8.ofNat_toNat (x := b1), h1, hlen]
      rfl
    rw [hb0', hb1'] at hsig
    have hsig' : vchSig = signatureForm (derInteger r) (derInteger s) hashtype := hsig
    rw [(hform hsig').2.2, not_or, UInt8.not_lt, UInt8.not_lt] at htype
    exact ⟨not_lt.mp hlo, not_lt.mp hhi, r, s, hashtype, hsig', htype, hrange⟩
  · rintro ⟨_, _, r, s, hashtype, hsig, _, hrange⟩
    exact ⟨0x30, _, r, s, hashtype, hsig, hrange⟩

theorem getElem?_eq_getD {vchSig : List UInt8} {i : ℕ} (h : i < vchSig.length) :
    vchSig[i]? = some (vchSig.getD i 0) := by
  rw [List.getD_eq_getElem?_getD, List.getElem?_eq_getElem h, Option.getD_some]

theorem readSignatureValue_drop {vchSig : List UInt8} {i len : ℕ} (h : i + len < vchSig.length) :
    readSignatureValue (vchSig.drop i) len = some (len ≠ 0 && vchSig.getD i 0 < 0x80 &&
      !(1 < len && vchSig.getD i 0 = 0 && vchSig.getD (i + 1) 0 < 0x80)) := by
  unfold readSignatureValue
  by_cases hlen : len = 0
  · rw [if_pos hlen, decide_eq_false (not_not.mpr hlen)]
    rfl
  rw [if_neg hlen, List.getElem?_drop, Nat.add_zero, getElem?_eq_getD (by omega),
    decide_eq_true hlen, Bool.true_and]
  change (if vchSig.getD i 0 &&& 0x80 ≠ 0 then some false
    else if 1 < len ∧ vchSig.getD i 0 = 0 then
      ((vchSig.drop i)[1]?).bind fun b1 => some (decide (b1 &&& 0x80 ≠ 0))
    else some true) = _
  simp only [and_0x80_ne_zero_iff]
  by_cases hneg : 0x80 ≤ vchSig.getD i 0
  · rw [if_pos hneg, decide_eq_false (UInt8.not_lt.mpr hneg)]
    rfl
  rw [if_neg hneg, decide_eq_true (UInt8.not_le.mp hneg), Bool.true_and, ← Bool.decide_and]
  by_cases hpad : 1 < len ∧ vchSig.getD i 0 = 0
  · rw [if_pos hpad, List.getElem?_drop, getElem?_eq_getD (by omega), decide_eq_true hpad,
      Option.bind_some, Bool.true_and, ← decide_not]
    simp only [UInt8.not_lt]
  · rw [if_neg hpad, decide_eq_false hpad]
    rfl

theorem check_eq (p : Prop) [Decidable p] (b : Bool) :
    (if p then some false else some b) = some (decide (¬ p) && b) := by
  by_cases hp : p
  · rw [if_pos hp, decide_eq_false (not_not.mpr hp), Bool.false_and]
  · rw [if_neg hp, decide_eq_true hp, Bool.true_and]

theorem readSignatureLengths_eq {vchSig : List UInt8} (hlo : 9 ≤ vchSig.length) :
    let byte (i : ℕ) : UInt8 := vchSig.getD i 0
    let nLenR := (byte 3).toNat
    let nLenS := (byte (5 + nLenR)).toNat
    let s := 6 + nLenR
    readSignatureLengths vchSig = some (5 + nLenR < vchSig.length &&
      (nLenR + nLenS + 7 = vchSig.length && (byte 2 = 0x02 &&
        ((nLenR ≠ 0 && byte 4 < 0x80 && !(1 < nLenR && byte 4 = 0 && byte 5 < 0x80)) &&
        (byte (4 + nLenR) = 0x02 &&
        ((nLenS ≠ 0 && byte s < 0x80 && !(1 < nLenS && byte s = 0 && byte (s + 1) < 0x80)) &&
          checkSignatureElement ((vchSig.drop s).take nLenS))))))) := by
  intro byte nLenR nLenS s
  have hread : ∀ {i}, i < vchSig.length → vchSig[i]? = some (byte i) := getElem?_eq_getD
  unfold readSignatureLengths
  rw [hread (by omega : 3 < vchSig.length)]
  change (if vchSig.length ≤ 5 + nLenR then some false
    else (vchSig[5 + nLenR]?).bind fun c1 =>
      if nLenR + c1.toNat + 7 ≠ vchSig.length then some false
      else readSignatureValues vchSig nLenR c1.toNat) = _
  by_cases hplace : vchSig.length ≤ 5 + nLenR
  · rw [if_pos hplace, decide_eq_false (not_lt.mpr hplace)]
    rfl
  rw [if_neg hplace, decide_eq_true (not_le.mp hplace), hread (by omega), Option.bind_some,
    Bool.true_and]
  by_cases hsum : nLenR + nLenS + 7 = vchSig.length
  swap
  · rw [if_pos hsum, decide_eq_false hsum]
    rfl
  rw [if_neg (not_not.mpr hsum), decide_eq_true hsum, Bool.true_and]
  unfold readSignatureValues
  rw [hread (by omega : 2 < vchSig.length), readSignatureValue_drop (by omega), hread (by omega)]
  change (if byte 2 ≠ 0x02 then some false
    else if !(nLenR ≠ 0 && byte 4 < 0x80 && !(1 < nLenR && byte 4 = 0 && byte 5 < 0x80)) then
      some false
    else if byte (4 + nLenR) ≠ 0x02 then some false
    else (readSignatureValue (vchSig.drop s) nLenS).bind fun value =>
      if !value then some false else readSignatureElement (vchSig.drop s) nLenS) = _
  rw [readSignatureValue_drop (by omega), readSignatureElement_eq (by
    rw [List.length_drop]
    omega), Option.bind_some]
  simp only [check_eq, not_not, Bool.not_eq_true, Bool.not_eq_false', Bool.decide_eq_true]
  rfl

theorem readCanonicalSignature_eq (vchSig : List UInt8) :
    readCanonicalSignature vchSig = some (isCanonicalSignature vchSig) := by
  unfold readCanonicalSignature
  by_cases hlo : vchSig.length < 9
  · rw [if_pos hlo, isCanonicalSignature, decide_eq_false (not_le.mpr hlo)]
    rfl
  by_cases hhi : 73 < vchSig.length
  · rw [if_neg hlo, if_pos hhi, isCanonicalSignature, decide_eq_false (not_le.mpr hhi),
      Bool.and_false]
    rfl
  rw [if_neg hlo, if_neg hhi, getElem?_eq_getD (by omega), getElem?_eq_getD (by omega),
    getElem?_eq_getD (by omega), readSignatureLengths_eq (by omega)]
  change (if vchSig.getD (vchSig.length - 1) 0 &&& 0x7f < 1 ∨
      3 < vchSig.getD (vchSig.length - 1) 0 &&& 0x7f then some false
    else if vchSig.getD 0 0 ≠ 0x30 then some false
    else if (vchSig.getD 1 0).toNat ≠ vchSig.length - 3 then some false
    else some _) = _
  simp only [check_eq, not_not, not_or, UInt8.not_lt]
  have hmark : ∀ n, 6 + n - 2 = 4 + n := fun n => by omega
  simp only [isCanonicalSignature, hmark, not_lt.mp hlo, not_lt.mp hhi, Bool.and_assoc,
    decide_true, Bool.true_and, Bool.decide_and]

end Beancash
