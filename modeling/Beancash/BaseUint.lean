import Beancash.ByteStream
import Beancash.ByteText
import Beancash.WordShift

namespace Beancash

open ByteStream WordNumber

/-- `base_uint<BITS>` with its `WIDTH`. -/
structure BaseUint (width : ℕ) where
  pn : List (BitVec 32)
  length_pn : pn.length = width

namespace BaseUint

variable {width : ℕ}

def toNat (a : BaseUint width) : ℕ := value a.pn

/-- `operator=` of a number of 64 bits, which needs two words. -/
def ofUInt64 (b : BitVec 64) : BaseUint width where
  pn := (b.setWidth 32 :: (b >>> 32).setWidth 32 :: List.replicate width 0).take width
  length_pn := by
    rw [List.length_take, List.length_cons, List.length_cons, List.length_replicate]
    omega

def preIncr (a : BaseUint width) : BaseUint width where
  pn := increment a.pn
  length_pn := (length_increment a.pn).trans a.length_pn

/-- What the postfix operator returns, and what the number becomes. -/
def postIncr (a : BaseUint width) : BaseUint width × BaseUint width := (a, a.preIncr)

def preDecr (a : BaseUint width) : BaseUint width where
  pn := decrement a.pn
  length_pn := (length_decrement a.pn).trans a.length_pn

def postDecr (a : BaseUint width) : BaseUint width × BaseUint width := (a, a.preDecr)

def not (a : BaseUint width) : BaseUint width where
  pn := complement a.pn
  length_pn := (length_complement a.pn).trans a.length_pn

def neg (a : BaseUint width) : BaseUint width := a.not.postIncr.2

def addAssign (a b : BaseUint width) : BaseUint width where
  pn := addCarry 0 a.pn b.pn
  length_pn := (length_addCarry 0 (a.length_pn.trans b.length_pn.symm)).trans a.length_pn

def subAssign (a b : BaseUint width) : BaseUint width := a.addAssign b.neg

def addAssign64 (a : BaseUint width) (b64 : BitVec 64) : BaseUint width := a.addAssign (ofUInt64 b64)

def subAssign64 (a : BaseUint width) (b64 : BitVec 64) : BaseUint width :=
  a.addAssign (ofUInt64 b64).neg

def shlAssign (a : BaseUint width) (shift : BitVec 32) : BaseUint width where
  pn := shiftLeft a.pn shift.toNat
  length_pn := (length_shiftLeft a.pn _).trans a.length_pn

def shrAssign (a : BaseUint width) (shift : BitVec 32) : BaseUint width where
  pn := shiftRight a.pn shift.toNat
  length_pn := (length_shiftRight a.pn _).trans a.length_pn

def lt (a b : BaseUint width) : Bool := topDown false (a.pn.zip b.pn).reverse

def le (a b : BaseUint width) : Bool := topDown true (a.pn.zip b.pn).reverse

def gt (a b : BaseUint width) : Bool := topDown false (b.pn.zip a.pn).reverse

def ge (a b : BaseUint width) : Bool := topDown true (b.pn.zip a.pn).reverse

def eq (a b : BaseUint width) : Bool := (a.pn.zip b.pn).all fun p => p.1 == p.2

def ne (a b : BaseUint width) : Bool := !a.eq b

def eq64 (a : BaseUint width) (b : BitVec 64) : Bool :=
  a.pn.getD 0 0 == b.setWidth 32 && a.pn.getD 1 0 == (b >>> 32).setWidth 32 &&
    (a.pn.drop 2).all (· == 0)

def ne64 (a : BaseUint width) (b : BitVec 64) : Bool := !a.eq64 b

/-- The bytes of `pn` as they are in memory. -/
def bytes (a : BaseUint width) : List UInt8 := a.pn.flatMap fun x => littleEndian 4 x.toNat

/-- So many words out of memory. -/
def wordsOf : ℕ → List UInt8 → List (BitVec 32)
  | 0, _ => []
  | n + 1, l => .ofNat 32 (ofLittleEndian (l.take 4)) :: wordsOf n (l.drop 4)

theorem length_wordsOf (n : ℕ) (l : List UInt8) : (wordsOf n l).length = n := by
  induction n generalizing l with
  | zero => rfl
  | succ n ih => rw [wordsOf, List.length_cons, ih]

def hexDigit (n : ℕ) : UInt8 := if n < 10 then .ofNat (48 + n) else .ofNat (87 + n)

/-- What `%02x` prints. -/
def hexByte (byte : UInt8) : List UInt8 := [hexDigit (byte.toNat / 16), hexDigit (byte.toNat % 16)]

def getHex (a : BaseUint width) : List UInt8 := a.bytes.reverse.flatMap hexByte

def phexdigit (ch : UInt8) : UInt8 :=
  if 48 ≤ ch ∧ ch ≤ 57 then ch - 48
  else if 65 ≤ ch ∧ ch ≤ 70 then ch - 55
  else if 97 ≤ ch ∧ ch ≤ 102 then ch - 87
  else 0

/-- The loop of `SetHex` over the digits from the last one on, with so many bytes left to write. -/
def setHexLoop : ℕ → List UInt8 → List UInt8
  | 0, _ => []
  | _ + 1, [] => []
  | _ + 1, [low] => [phexdigit low]
  | room + 1, low :: high :: psz => (phexdigit low ||| phexdigit high <<< 4) :: setHexLoop room psz

/-- The `0x` in front that is passed over. -/
def skipBase : List UInt8 → List UInt8
  | 48 :: ch :: psz => if ch = 120 ∨ ch = 88 then psz else 48 :: ch :: psz
  | psz => psz

/-- `SetHex`, which keeps nothing of the number that was there. -/
def setHex (str : List UInt8) : BaseUint width where
  pn :=
    let psz := skipBase ((cStr str).dropWhile isspace)
    let digits := psz.takeWhile fun ch => phexdigit ch != 0 || ch == 48
    let bytes := setHexLoop (width * 4) digits.reverse
    wordsOf width (bytes ++ .replicate (width * 4 - bytes.length) 0)
  length_pn := length_wordsOf _ _

/-- All operations compute modulo two to the number of bits, the comparisons order the numbers, and
no number is lost in its text. -/
structure ModularArithmetic (width : ℕ) : Prop where
  addAssign : ∀ a b : BaseUint width,
    (a.addAssign b).toNat = (a.toNat + b.toNat) % 2 ^ (32 * width)
  subAssign : ∀ a b : BaseUint width,
    ((a.subAssign b).toNat : ℤ) = ((a.toNat : ℤ) - b.toNat) % 2 ^ (32 * width)
  addAssign64 : ∀ (a : BaseUint width) (b64 : BitVec 64),
    (a.addAssign64 b64).toNat = (a.toNat + b64.toNat) % 2 ^ (32 * width)
  subAssign64 : ∀ (a : BaseUint width) (b64 : BitVec 64),
    ((a.subAssign64 b64).toNat : ℤ) = ((a.toNat : ℤ) - b64.toNat) % 2 ^ (32 * width)
  preIncr : ∀ a : BaseUint width, a.preIncr.toNat = (a.toNat + 1) % 2 ^ (32 * width)
  preDecr : ∀ a : BaseUint width,
    (a.preDecr.toNat : ℤ) = ((a.toNat : ℤ) - 1) % 2 ^ (32 * width)
  postIncr : ∀ a : BaseUint width, a.postIncr = (a, a.preIncr)
  postDecr : ∀ a : BaseUint width, a.postDecr = (a, a.preDecr)
  neg : ∀ a : BaseUint width, (a.neg.toNat : ℤ) = -(a.toNat : ℤ) % 2 ^ (32 * width)
  shlAssign : ∀ (a : BaseUint width) (shift : BitVec 32),
    (a.shlAssign shift).toNat = a.toNat * 2 ^ shift.toNat % 2 ^ (32 * width)
  shrAssign : ∀ (a : BaseUint width) (shift : BitVec 32),
    (a.shrAssign shift).toNat = a.toNat / 2 ^ shift.toNat
  lt : ∀ a b : BaseUint width, a.lt b = true ↔ a.toNat < b.toNat
  le : ∀ a b : BaseUint width, a.le b = true ↔ a.toNat ≤ b.toNat
  gt : ∀ a b : BaseUint width, a.gt b = true ↔ b.toNat < a.toNat
  ge : ∀ a b : BaseUint width, a.ge b = true ↔ b.toNat ≤ a.toNat
  eq : ∀ a b : BaseUint width, a.eq b = true ↔ a.toNat = b.toNat
  ne : ∀ a b : BaseUint width, a.ne b = true ↔ a.toNat ≠ b.toNat
  eq64 : ∀ (a : BaseUint width) (b : BitVec 64), a.eq64 b = true ↔ a.toNat = b.toNat
  ne64 : ∀ (a : BaseUint width) (b : BitVec 64), a.ne64 b = true ↔ a.toNat ≠ b.toNat
  setHex : ∀ a : BaseUint width, setHex a.getHex = a

theorem toNat_lt (a : BaseUint width) : a.toNat < 2 ^ (32 * width) := by
  have hlt := value_lt a.pn
  rwa [a.length_pn] at hlt

theorem toNat_inj {a b : BaseUint width} : a.toNat = b.toNat ↔ a = b := by
  rw [toNat, toNat, value_inj (a.length_pn.trans b.length_pn.symm)]
  cases a
  cases b
  simp

theorem toNat_addAssign (a b : BaseUint width) :
    (a.addAssign b).toNat = (a.toNat + b.toNat) % 2 ^ (32 * width) := by
  rw [toNat, addAssign, value_addCarry 0 (a.length_pn.trans b.length_pn.symm), Nat.zero_add,
    a.length_pn, ← toNat, ← toNat]

theorem toNat_preIncr (a : BaseUint width) : a.preIncr.toNat = (a.toNat + 1) % 2 ^ (32 * width) := by
  rw [toNat, preIncr, value_increment, a.length_pn, ← toNat]

theorem toNat_preDecr (a : BaseUint width) :
    (a.preDecr.toNat : ℤ) = ((a.toNat : ℤ) - 1) % 2 ^ (32 * width) := by
  have hpos := Nat.two_pow_pos (32 * width)
  rw [toNat, preDecr, value_decrement, a.length_pn, ← toNat]
  push_cast [Nat.cast_sub hpos]
  have hsum : (a.toNat : ℤ) + (2 ^ (32 * width) - 1) = 2 ^ (32 * width) + (a.toNat - 1) := by ring
  rw [hsum]
  exact Int.add_emod_left _ _

theorem toNat_neg (a : BaseUint width) :
    (a.neg.toNat : ℤ) = -(a.toNat : ℤ) % 2 ^ (32 * width) := by
  have hsum := value_complement a.pn
  rw [a.length_pn, ← toNat] at hsum
  have hneg : a.neg.toNat = (value (complement a.pn) + 1) % 2 ^ (32 * width) := a.not.toNat_preIncr
  have hcast : ((value (complement a.pn) + 1 : ℕ) : ℤ) = 2 ^ (32 * width) + -(a.toNat : ℤ) := by
    have hint : ((value (complement a.pn) + a.toNat + 1 : ℕ) : ℤ) = 2 ^ (32 * width) := by
      rw [hsum]
      push_cast
      rfl
    push_cast at hint ⊢
    omega
  rw [hneg, Int.natCast_mod, hcast]
  push_cast
  exact Int.add_emod_left _ _

theorem toNat_addAssign_neg (a b : BaseUint width) :
    ((a.addAssign b.neg).toNat : ℤ) = ((a.toNat : ℤ) - b.toNat) % 2 ^ (32 * width) := by
  rw [toNat_addAssign, Int.natCast_mod, Nat.cast_add, toNat_neg]
  push_cast
  rw [Int.add_emod_emod, ← sub_eq_add_neg]

theorem pn_ofUInt64 (b : BitVec 64) (n : ℕ) : (ofUInt64 b : BaseUint (n + 2)).pn =
    b.setWidth 32 :: (b >>> 32).setWidth 32 :: List.replicate n 0 := by
  have hzeros : (List.replicate (n + 2) (0 : BitVec 32)).take n = List.replicate n 0 := by
    rw [List.take_replicate, Nat.min_eq_left (by omega)]
  change List.take (n + 2) _ = _
  rw [List.take_succ_cons, List.take_succ_cons, hzeros]

theorem toNat_ofUInt64 (h : 2 ≤ width) (b : BitVec 64) :
    (ofUInt64 b : BaseUint width).toNat = b.toNat := by
  obtain ⟨n, rfl⟩ := Nat.exists_eq_add_of_le' h
  have hb := b.isLt
  have hzero : value (List.replicate n (0 : BitVec 32)) = 0 := value_replicate_zero n
  rw [toNat, pn_ofUInt64, value, value, hzero, BitVec.toNat_setWidth, BitVec.toNat_setWidth,
    BitVec.toNat_ushiftRight, Nat.shiftRight_eq_div_pow]
  omega

section

variable (a b : BaseUint width)

theorem length_eq : a.pn.length = b.pn.length := a.length_pn.trans b.length_pn.symm

theorem lt_iff : a.lt b = true ↔ a.toNat < b.toNat := by
  rw [lt, topDown_zip false (length_eq a b), ← toNat, ← toNat]
  simp

theorem le_iff : a.le b = true ↔ a.toNat ≤ b.toNat := by
  rw [le, topDown_zip true (length_eq a b), ← toNat, ← toNat, Nat.le_iff_lt_or_eq]
  simp

theorem all_zip_iff {l l' : List (BitVec 32)} (h : l.length = l'.length) :
    ((l.zip l').all fun p => p.1 == p.2) = true ↔ l = l' := by
  induction l generalizing l' with
  | nil => simp [List.length_eq_zero_iff.mp h.symm]
  | cons x l ih =>
    cases l' with
    | nil => exact absurd h (by simp)
    | cons y l' =>
      rw [List.zip_cons_cons, List.all_cons, Bool.and_eq_true, ih (Nat.succ.inj h), beq_iff_eq,
        List.cons.injEq]

theorem eq_iff : a.eq b = true ↔ a.toNat = b.toNat := by
  rw [eq, all_zip_iff (length_eq a b), toNat, toNat, value_inj (length_eq a b)]

theorem eq64_iff (h : 2 ≤ width) (b : BitVec 64) : a.eq64 b = true ↔ a.toNat = b.toNat := by
  have hpn : a.eq64 b = true ↔ a.pn = (ofUInt64 b : BaseUint width).pn := by
    obtain ⟨n, rfl⟩ := Nat.exists_eq_add_of_le' h
    obtain ⟨x, y, l, hl⟩ : ∃ x y l, a.pn = x :: y :: l := by
      have hlen := a.length_pn
      rcases hpn : a.pn with _ | ⟨x, _ | ⟨y, l⟩⟩
      · rw [hpn] at hlen
        simp at hlen
      · rw [hpn] at hlen
        simp at hlen
      · exact ⟨x, y, l, rfl⟩
    have hlen : l.length = n := by
      have hlen := a.length_pn
      rw [hl] at hlen
      simpa using hlen
    have hzeros : (l.all (· == 0)) = true ↔ l = List.replicate n 0 := by
      rw [List.eq_replicate_iff, and_iff_right hlen, List.all_eq_true]
      simp only [beq_iff_eq]
    rw [pn_ofUInt64, eq64, hl, List.cons.injEq, List.cons.injEq, ← hzeros]
    simp [and_assoc]
  rw [hpn, ← toNat_ofUInt64 h b, toNat, toNat, value_inj (length_eq _ _)]

end

theorem hexDigit_plain : ∀ n < 16, phexdigit (hexDigit n) = .ofNat n ∧
    (phexdigit (hexDigit n) != 0 || hexDigit n == 48) = true ∧ hexDigit n ≠ 0 ∧
    isspace (hexDigit n) = false ∧ hexDigit n ≠ 120 ∧ hexDigit n ≠ 88 := by
  decide

theorem or_nibbles : ∀ low < 16, ∀ high < 16,
    (UInt8.ofNat low ||| UInt8.ofNat high <<< 4) = .ofNat (16 * high + low) := by
  decide +kernel

theorem phexdigit_hexByte (byte : UInt8) : (phexdigit (hexDigit (byte.toNat % 16)) |||
    phexdigit (hexDigit (byte.toNat / 16)) <<< 4) = byte := by
  have hlt := byte.toNat_lt
  have hlow : byte.toNat % 16 < 16 := Nat.mod_lt _ (by decide)
  have hhigh : byte.toNat / 16 < 16 := by omega
  rw [(hexDigit_plain _ hlow).1, (hexDigit_plain _ hhigh).1, or_nibbles _ hlow _ hhigh,
    Nat.div_add_mod, UInt8.ofNat_toNat]

theorem setHexLoop_hexBytes {room : ℕ} {l : List UInt8} (h : l.length ≤ room) :
    setHexLoop room (l.flatMap (List.reverse ∘ hexByte)) = l := by
  induction l generalizing room with
  | nil => cases room <;> rfl
  | cons byte l ih =>
    cases room with
    | zero => exact absurd h (by simp)
    | succ room =>
      have hloop : setHexLoop (room + 1) ((byte :: l).flatMap (List.reverse ∘ hexByte)) =
          (phexdigit (hexDigit (byte.toNat % 16)) ||| phexdigit (hexDigit (byte.toNat / 16)) <<< 4) ::
            setHexLoop room (l.flatMap (List.reverse ∘ hexByte)) := rfl
      rw [hloop, phexdigit_hexByte, ih (Nat.le_of_succ_le_succ h)]

theorem mem_hexBytes {l : List UInt8} {ch : UInt8} (h : ch ∈ l.flatMap hexByte) :
    ∃ n < 16, ch = hexDigit n := by
  obtain ⟨byte, -, hch⟩ := List.mem_flatMap.mp h
  have hlt := byte.toNat_lt
  rw [hexByte, List.mem_cons, List.mem_singleton] at hch
  rcases hch with rfl | rfl
  · exact ⟨byte.toNat / 16, by omega, rfl⟩
  · exact ⟨byte.toNat % 16, by omega, rfl⟩

theorem skipBase_of_plain {psz : List UInt8} (h : ∀ ch ∈ psz, ch ≠ 120 ∧ ch ≠ 88) :
    skipBase psz = psz := by
  unfold skipBase
  split
  · rename_i ch psz
    obtain ⟨hlow, hup⟩ := h ch (by simp)
    rw [if_neg (by simp [hlow, hup])]
  · rfl

theorem length_bytes (a : BaseUint width) : a.bytes.length = width * 4 := by
  have hlen : ∀ l : List (BitVec 32), (l.flatMap fun x => littleEndian 4 x.toNat).length =
      l.length * 4 := by
    intro l
    induction l with
    | nil => rfl
    | cons x l ih =>
      rw [List.flatMap_cons, List.length_append, ih, length_littleEndian, List.length_cons]
      ring
  rw [bytes, hlen, a.length_pn]

theorem wordsOf_bytes (a : BaseUint width) : wordsOf width a.bytes = a.pn := by
  have hwords : ∀ l : List (BitVec 32),
      wordsOf l.length (l.flatMap fun x => littleEndian 4 x.toNat) = l := by
    intro l
    induction l with
    | nil => rfl
    | cons x l ih =>
      have hlen := length_littleEndian 4 x.toNat
      have hx : x.toNat < 256 ^ 4 := x.isLt
      rw [List.length_cons, List.flatMap_cons, wordsOf, List.take_left' hlen, List.drop_left' hlen, ih,
        ofLittleEndian_littleEndian hx, BitVec.ofNat_toNat, BitVec.setWidth_eq]
  have hlen := hwords a.pn
  rwa [a.length_pn] at hlen

theorem setHex_getHex (a : BaseUint width) : setHex a.getHex = a := by
  have hplain : ∀ ch ∈ a.getHex, (phexdigit ch != 0 || ch == 48) = true ∧ ch ≠ 0 ∧
      isspace ch = false ∧ ch ≠ 120 ∧ ch ≠ 88 := by
    intro ch hch
    obtain ⟨n, hn, rfl⟩ := mem_hexBytes hch
    exact (hexDigit_plain n hn).2
  have hcStr : cStr a.getHex = a.getHex := cStr_of_ne_zero fun ch hch => (hplain ch hch).2.1
  have hspace : a.getHex.dropWhile isspace = a.getHex := by
    cases hget : a.getHex with
    | nil => rfl
    | cons ch psz =>
      have hch := (hplain ch (hget ▸ List.mem_cons_self)).2.2.1
      rw [List.dropWhile_cons_of_neg (by simp [hch])]
  have hbase : skipBase a.getHex = a.getHex := skipBase_of_plain fun ch hch => (hplain ch hch).2.2.2
  have hdigits : a.getHex.takeWhile (fun ch => phexdigit ch != 0 || ch == 48) = a.getHex :=
    List.takeWhile_eq_self_iff.mpr fun ch hch => (hplain ch hch).1
  have hloop : setHexLoop (width * 4) a.getHex.reverse = a.bytes := by
    rw [getHex, List.reverse_flatMap, List.reverse_reverse]
    exact setHexLoop_hexBytes a.length_bytes.le
  apply toNat_inj.mp
  rw [toNat, toNat, setHex]
  dsimp only
  rw [hcStr, hspace, hbase, hdigits, hloop, a.length_bytes, Nat.sub_self, List.replicate_zero,
    List.append_nil, wordsOf_bytes]

/-- For two words and more, which are what a number of 64 bits takes. -/
theorem modularArithmetic (h : 2 ≤ width) : ModularArithmetic width where
  addAssign := toNat_addAssign
  subAssign := toNat_addAssign_neg
  addAssign64 a b64 := by rw [addAssign64, toNat_addAssign, toNat_ofUInt64 h]
  subAssign64 a b64 := by rw [subAssign64, toNat_addAssign_neg, toNat_ofUInt64 h]
  preIncr := toNat_preIncr
  preDecr := toNat_preDecr
  postIncr _ := rfl
  postDecr _ := rfl
  neg := toNat_neg
  shlAssign a shift := by
    rw [toNat, shlAssign, value_shiftLeft (by decide), a.length_pn, ← toNat]
  shrAssign a shift := value_shiftRight (by decide) a.pn shift.toNat
  lt := lt_iff
  le := le_iff
  gt a b := lt_iff b a
  ge a b := le_iff b a
  eq := eq_iff
  ne a b := by rw [ne, Bool.not_eq_true', ← Bool.not_eq_true, eq_iff]
  eq64 a b := eq64_iff a h b
  ne64 a b := by rw [ne64, Bool.not_eq_true', ← Bool.not_eq_true, eq64_iff a h]
  setHex := setHex_getHex

/-- The widths of `uint160` and `uint256`. -/
theorem modularArithmetic_widths : ModularArithmetic (160 / 32) ∧ ModularArithmetic (256 / 32) :=
  ⟨modularArithmetic (by decide), modularArithmetic (by decide)⟩

end BaseUint

end Beancash
