import Beancash.CanonicalSignature
import Beancash.ScriptPushes
import Mathlib.Data.Nat.Size
import Mathlib.Tactic.IntervalCases

namespace Beancash

open ByteStream

/-- What OpenSSL can hold: the number of bits is an `int`. -/
abbrev BigNum := {bn : ℤ // bn.natAbs.size < 2 ^ 31}

/-- The first four bytes of the format. -/
def mpiSize (nSize : ℕ) : List UInt8 := (littleEndian 4 nSize).reverse

/-- The functions of OpenSSL; `BN_bn2mpi` without a buffer returns only the size of what it writes. -/
structure MpiFunctions where
  BN_bn2mpi : BigNum → List UInt8
  BN_mpi2bn : List UInt8 → Option BigNum

structure MpiFunctions.Documented (ssl : MpiFunctions) : Prop where
  /-- As few bytes are written as hold the number and its sign. -/
  bn2mpi : ∀ bn : BigNum, ssl.BN_bn2mpi bn = mpiSize (bn2mpi bn).length ++ Beancash.bn2mpi bn
  /-- The size has to be right; it is an `int`. -/
  mpi2bn : ∀ (vch : List UInt8) (bn : BigNum), vch.length < 2 ^ 31 - 4 → mpi2bn vch = bn →
    ssl.BN_mpi2bn (mpiSize vch.length ++ vch) = some bn

namespace BigNum

variable (ssl : MpiFunctions) (bn : BigNum)

/-- A number keeps its value where `BN_mpi2bn` fails. -/
def read (vch : List UInt8) : BigNum := (ssl.BN_mpi2bn (mpiSize vch.length ++ vch)).getD bn

def setint64 (sn : Int64) : BigNum :=
  let fNegative : Bool := sn < 0
  let n := if fNegative then (-(sn + 1)).toUInt64 + 1 else sn.toUInt64
  bn.read ssl (CBigNum.setint64Loop fNegative 8 n true [])

def setuint64 (n : UInt64) : BigNum := bn.read ssl (CBigNum.setint64Loop false 8 n true [])

/-- The loop of `setuint256` over the bytes from the top one on. -/
def setuint256Loop : List UInt8 → Bool → List UInt8 → List UInt8
  | [], _, p => p
  | c :: psrc, fLeadingZeroes, p =>
    if fLeadingZeroes then
      if c = 0 then setuint256Loop psrc true p
      else if c &&& 0x80 ≠ 0 then setuint256Loop psrc false (p ++ [0] ++ [c])
      else setuint256Loop psrc false (p ++ [c])
    else setuint256Loop psrc false (p ++ [c])

def setuint256 (n : Uint256) : BigNum :=
  bn.read ssl (setuint256Loop (littleEndian 32 n.toNat).reverse true [])

/-- What `getuint64` and `getuint256` take of a number: at most so many bytes from the end, without
the sign. -/
def getBytes (count : ℕ) : List UInt8 :=
  let vch := ssl.BN_bn2mpi bn
  if vch.length < 4 then []
  else
    let vch := if 4 < vch.length then vch.modify 4 (· &&& 0x7f) else vch
    (vch.drop 4).reverse.take count

def getuint64 : UInt64 := .ofNat (ofLittleEndian (bn.getBytes ssl 8))

def getuint256 : Uint256 := .ofNat 256 (ofLittleEndian (bn.getBytes ssl 32))

def setvch (vch : List UInt8) : BigNum := bn.read ssl vch.reverse

def getvch : List UInt8 :=
  let vch := ssl.BN_bn2mpi bn
  if vch.length ≤ 4 then [] else (vch.drop 4).reverse

def setCompact (nCompact : UInt32) : BigNum :=
  let nSize := (nCompact >>> 24).toNat
  let vch := [(nCompact >>> 16).toUInt8, (nCompact >>> 8).toUInt8, nCompact.toUInt8]
  bn.read ssl (vch.take nSize ++ List.replicate (nSize - 3) 0)

def getCompact : UInt32 :=
  let vch := ssl.BN_bn2mpi bn
  let nSize := UInt32.ofNat vch.length - 4
  let nCompact := nSize <<< 24
  let nCompact := if 1 ≤ nSize then nCompact ||| (vch.getD 4 0).toUInt32 <<< 16 else nCompact
  let nCompact := if 2 ≤ nSize then nCompact ||| (vch.getD 5 0).toUInt32 <<< 8 else nCompact
  if 3 ≤ nSize then nCompact ||| (vch.getD 6 0).toUInt32 else nCompact

end BigNum

/-- What the conversions are meant to do, whatever the number was before it is set. -/
structure MpiFunctions.Converts (ssl : MpiFunctions) : Prop where
  setint64 : ∀ (bn : BigNum) (sn : Int64), (bn.setint64 ssl sn).val = sn.toInt
  setuint64 : ∀ (bn : BigNum) (n : UInt64), (bn.setuint64 ssl n).val = n.toNat
  setuint256 : ∀ (bn : BigNum) (n : Uint256), (bn.setuint256 ssl n).val = n.toNat
  getuint64 : ∀ bn : BigNum, 0 ≤ bn.val → ((bn.getuint64 ssl).toNat : ℤ) = bn.val % 2 ^ 64
  getuint256 : ∀ bn : BigNum, 0 ≤ bn.val → ((bn.getuint256 ssl).toNat : ℤ) = bn.val % 2 ^ 256
  getvch : ∀ bn bn' : BigNum, bn'.setvch ssl (bn.getvch ssl) = bn
  getCompact : ∀ (bn : BigNum) (nCompact : UInt32), nCompact &&& 0x00800000 = 0 →
    3 ≤ (nCompact >>> 24).toNat → 0x008000 ≤ nCompact &&& 0x007fffff →
    (bn.setCompact ssl nCompact).getCompact ssl = nCompact

theorem natAbs_mpi2bn_lt (vch : List UInt8) : (mpi2bn vch).natAbs < 256 ^ vch.length := by
  cases vch with
  | nil => decide
  | cons front p =>
    have hlow := ofLittleEndian_lt p.reverse
    rw [List.length_reverse] at hlow
    have hfront : front.toNat % 128 + 1 ≤ 256 := by omega
    have hmul := Nat.mul_le_mul_left (256 ^ p.length) hfront
    rw [CBigNum.mpi2bn_cons, List.length_cons, pow_succ]
    rw [Nat.mul_succ] at hmul
    split <;> omega

section

variable {ssl : MpiFunctions} (hssl : ssl.Documented) (bn : BigNum)
include hssl

theorem BigNum.read_eq {vch : List UInt8} {bn' : BigNum} (hlen : vch.length < 2 ^ 31 - 4)
    (h : mpi2bn vch = bn'.val) : bn.read ssl vch = bn' := by
  rw [read, hssl.mpi2bn vch bn' hlen h, Option.getD_some]

theorem BigNum.val_read {vch : List UInt8} (hlen : vch.length ≤ 255) :
    (bn.read ssl vch).val = mpi2bn vch := by
  have hlt := natAbs_mpi2bn_lt vch
  rw [show 256 = 2 ^ 8 by rfl, ← pow_mul, ← Nat.size_le] at hlt
  have hsize : (mpi2bn vch).natAbs.size < 2 ^ 31 := by omega
  rw [read_eq hssl bn (by omega) (show mpi2bn vch = (⟨mpi2bn vch, hsize⟩ : BigNum).val from rfl)]

end

theorem length_setint64Loop (fNegative : Bool) (k : ℕ) (n : UInt64) (fLeadingZeroes : Bool)
    (p : List UInt8) :
    (CBigNum.setint64Loop fNegative k n fLeadingZeroes p).length ≤ p.length + k + 1 := by
  have hrest : ∀ k n p, (CBigNum.setint64Loop fNegative k n false p).length = p.length + k := by
    intro k
    induction k with
    | zero => exact fun _ _ => rfl
    | succ k ih =>
      intro n p
      rw [CBigNum.setint64Loop, if_neg Bool.false_ne_true, ih, List.length_append, List.length_singleton]
      omega
  cases fLeadingZeroes with
  | false => exact (hrest k n p).le.trans (Nat.le_succ _)
  | true =>
    induction k generalizing n with
    | zero => exact Nat.le_succ _
    | succ k ih =>
      rw [CBigNum.setint64Loop, if_pos rfl]
      split_ifs
      · exact (ih _).trans (by omega)
      all_goals
        rw [hrest]
        simp only [List.length_append, List.length_singleton]
        omega

theorem setuint256Loop_false (psrc p : List UInt8) :
    BigNum.setuint256Loop psrc false p = p ++ psrc := by
  induction psrc generalizing p with
  | nil => simp [BigNum.setuint256Loop]
  | cons c psrc ih =>
    rw [BigNum.setuint256Loop, if_neg Bool.false_ne_true, ih, List.append_assoc,
      List.singleton_append]

theorem setuint256Loop_spec (psrc : List UInt8) :
    mpi2bn (BigNum.setuint256Loop psrc true []) = ofLittleEndian psrc.reverse ∧
      (BigNum.setuint256Loop psrc true []).length ≤ psrc.length + 1 := by
  induction psrc with
  | nil => exact ⟨rfl, Nat.zero_le _⟩
  | cons c psrc ih =>
    have hvalue : ofLittleEndian (c :: psrc).reverse =
        ofLittleEndian psrc.reverse + 256 ^ psrc.length * c.toNat := by
      rw [List.reverse_cons, ofLittleEndian_append, List.length_reverse]
      rfl
    obtain ⟨hbit, -⟩ := CBigNum.topBit_spec c
    rw [BigNum.setuint256Loop, if_pos rfl]
    by_cases hzero : c = 0
    · rw [if_pos hzero, hvalue, hzero]
      exact ⟨ih.1, ih.2.trans (Nat.le_succ _)⟩
    · rw [if_neg hzero]
      by_cases htop : c &&& 0x80 = 0
      · have hlt := hbit.mp htop
        rw [if_neg (not_not.mpr htop), setuint256Loop_false, List.nil_append, List.singleton_append,
          CBigNum.mpi2bn_cons, if_pos hlt, Nat.mod_eq_of_lt hlt, hvalue]
        exact ⟨rfl, Nat.le_succ _⟩
      · rw [if_pos htop, setuint256Loop_false, List.nil_append, List.append_assoc,
          List.singleton_append, List.singleton_append, CBigNum.mpi2bn_cons, if_pos (by decide)]
        exact ⟨rfl, le_rfl⟩

theorem length_mpiSize (nSize : ℕ) : (mpiSize nSize).length = 4 := by
  rw [mpiSize, List.length_reverse, length_littleEndian]

theorem length_bn2mpi_lt (bn : BigNum) : (bn2mpi bn).length < 2 ^ 31 - 4 := by
  have hlt := Nat.lt_size_self bn.val.natAbs
  have hpow : 2 ^ bn.val.natAbs.size ≤ 256 ^ (bn.val.natAbs.size / 8 + 1) := by
    rw [show 256 = 2 ^ 8 by rfl, ← pow_mul]
    exact Nat.pow_le_pow_right (by decide) (by omega)
  have hle := length_signedVch_le (hlt.trans_le hpow)
  have hsize := bn.property
  rw [bn2mpi, List.length_reverse]
  omega

section

variable {ssl : MpiFunctions} (hssl : ssl.Documented) (bn : BigNum)
include hssl

theorem drop_bn2mpi : (ssl.BN_bn2mpi bn).drop 4 = bn2mpi bn := by
  rw [hssl.bn2mpi]
  exact List.drop_left' (length_mpiSize _)

theorem length_BN_bn2mpi : (ssl.BN_bn2mpi bn).length = (bn2mpi bn).length + 4 := by
  rw [hssl.bn2mpi, List.length_append, length_mpiSize, Nat.add_comm]

theorem BigNum.getvch_eq : bn.getvch ssl = (bn2mpi bn).reverse := by
  rw [getvch, length_BN_bn2mpi hssl]
  split
  · rename_i hle
    have hnil : bn2mpi bn = [] := List.length_eq_zero_iff.mp (by omega)
    rw [hnil]
    rfl
  · rw [drop_bn2mpi hssl]

theorem BigNum.getBytes_eq (count : ℕ) :
    bn.getBytes ssl count = (Beancash.getvch bn.val.natAbs).take count := by
  have hmask := reverse_mask_bn2mpi bn
  have hlen := length_BN_bn2mpi hssl bn
  rw [getBytes, if_neg (by omega)]
  split
  · dsimp only
    rw [List.drop_modify_of_ge _ _ _ _ le_rfl, drop_bn2mpi hssl, hmask]
  · have hnil : bn2mpi bn = [] := List.length_eq_zero_iff.mp (by omega)
    rw [hnil] at hmask
    dsimp only
    rw [drop_bn2mpi hssl, hnil, ← hmask]
    rfl

theorem BigNum.ofLittleEndian_getBytes (count : ℕ) :
    ofLittleEndian (bn.getBytes ssl count) = bn.val.natAbs % 256 ^ count := by
  rw [getBytes_eq hssl, ofLittleEndian_take, ofLittleEndian_getvch]

end

theorem getvch_ofLittleEndian {front : List UInt8} {back : UInt8} (hback : back.toNat < 128)
    (h : back ≠ 0 ∨ ∃ b, front.getLast? = some b ∧ 128 ≤ b.toNat) :
    getvch (ofLittleEndian (front ++ [back])) = front ++ [back] := by
  by_cases hzero : back = 0
  · obtain ⟨b, hlast, hb⟩ := h.resolve_left (not_not.mpr hzero)
    have hvalue : ofLittleEndian (front ++ [back]) = ofLittleEndian front := by
      rw [hzero, ofLittleEndian_append]
      exact Nat.add_zero _
    have hne : front.getLast? ≠ some 0 := by
      rw [hlast]
      rintro heq
      rw [Option.some.inj heq] at hb
      exact absurd hb (by decide)
    rw [hvalue, getvch, vchBytes_ofLittleEndian hne le_rfl, hlast, Option.any_some,
      if_pos (by simpa [UInt8.le_iff_toNat_le] using hb), hzero]
  · have hne : (front ++ [back]).getLast? ≠ some 0 := by
      rw [List.getLast?_concat]
      exact fun heq => hzero (Option.some.inj heq)
    rw [getvch, vchBytes_ofLittleEndian hne le_rfl, List.getLast?_concat, Option.any_some, if_neg]
    simpa [UInt8.le_iff_toNat_le, UInt8.lt_iff_toNat_lt] using hback

theorem bn2mpi_mpi2bn {front : UInt8} {p : List UInt8} (hfront : front.toNat < 128)
    (h : front ≠ 0 ∨ ∃ b, p.head? = some b ∧ 128 ≤ b.toNat) :
    bn2mpi (mpi2bn (front :: p)) = front :: p := by
  have hvalue : mpi2bn (front :: p) = (ofLittleEndian (p.reverse ++ [front]) : ℕ) := by
    have hone : ofLittleEndian [front] = front.toNat := Nat.add_zero _
    rw [CBigNum.mpi2bn_cons, if_pos hfront, Nat.mod_eq_of_lt hfront, ofLittleEndian_append, hone,
      List.length_reverse]
  rw [hvalue, bn2mpi, signedVch_natCast, getvch_ofLittleEndian hfront]
  · rw [List.reverse_append, List.reverse_reverse, List.reverse_singleton, List.singleton_append]
  · rwa [List.getLast?_reverse]

theorem toNat_compactBytes (nCompact : UInt32) :
    (nCompact >>> 24).toNat = nCompact.toNat / 2 ^ 24 ∧
      (nCompact >>> 16).toUInt8.toNat = nCompact.toNat / 2 ^ 16 % 256 ∧
      (nCompact >>> 8).toUInt8.toNat = nCompact.toNat / 2 ^ 8 % 256 ∧
      nCompact.toUInt8.toNat = nCompact.toNat % 256 := by
  refine ⟨?_, ?_, ?_, UInt32.toNat_toUInt8 _⟩
  · rw [UInt32.toNat_shiftRight, Nat.shiftRight_eq_div_pow]
    rfl
  · rw [UInt32.toNat_toUInt8, UInt32.toNat_shiftRight, Nat.shiftRight_eq_div_pow]
    rfl
  · rw [UInt32.toNat_toUInt8, UInt32.toNat_shiftRight, Nat.shiftRight_eq_div_pow]
    rfl

theorem compactBytes_spec {nCompact : UInt32} (hsign : nCompact &&& 0x00800000 = 0)
    (hword : 0x008000 ≤ nCompact &&& 0x007fffff) :
    (nCompact >>> 16).toUInt8.toNat < 128 ∧
      ((nCompact >>> 16).toUInt8 ≠ 0 ∨ 128 ≤ (nCompact >>> 8).toUInt8.toNat) := by
  obtain ⟨-, h1, h2, -⟩ := toNat_compactBytes nCompact
  have hbit : nCompact.toNat / 2 ^ 23 % 2 = 0 := by
    have hand := congrArg UInt32.toNat hsign
    rw [UInt32.toNat_and] at hand
    change nCompact.toNat &&& 2 ^ 23 = 0 at hand
    have htest := congrArg (Nat.testBit · 23) hand
    simp only [Nat.testBit_and, Nat.testBit_two_pow_self, Bool.and_true, Nat.zero_testBit] at htest
    rw [Nat.testBit_eq_decide_div_mod_eq, decide_eq_false_iff_not] at htest
    omega
  have hmod : 2 ^ 15 ≤ nCompact.toNat % 2 ^ 23 := by
    rw [UInt32.le_iff_toNat_le, UInt32.toNat_and] at hword
    change 2 ^ 15 ≤ nCompact.toNat &&& (2 ^ 23 - 1) at hword
    rwa [Nat.and_two_pow_sub_one_eq_mod] at hword
  rw [h1, h2, ne_eq, CBigNum.toNat_toUInt8_eq_zero, h1]
  omega

theorem or_compactBytes (nCompact : UInt32) :
    (nCompact >>> 24) <<< 24 ||| (nCompact >>> 16).toUInt8.toUInt32 <<< 16 |||
      (nCompact >>> 8).toUInt8.toUInt32 <<< 8 ||| nCompact.toUInt8.toUInt32 = nCompact := by
  apply UInt32.toBitVec_inj.mp
  apply BitVec.eq_of_getLsbD_eq
  intro i hi
  interval_cases i <;> simp [-UInt32.toUInt32_toUInt8]

section

variable {ssl : MpiFunctions} (hssl : ssl.Documented) (bn : BigNum)
include hssl

theorem BigNum.getCompact_setCompact {nCompact : UInt32} (hsign : nCompact &&& 0x00800000 = 0)
    (hsize : 3 ≤ (nCompact >>> 24).toNat) (hword : 0x008000 ≤ nCompact &&& 0x007fffff) :
    (bn.setCompact ssl nCompact).getCompact ssl = nCompact := by
  obtain ⟨hfront, hshort⟩ := compactBytes_spec hsign hword
  have hlt : (nCompact >>> 24).toNat ≤ 255 := by
    rw [(toNat_compactBytes nCompact).1]
    have := nCompact.toNat_lt
    omega
  obtain ⟨n, hn⟩ := Nat.exists_eq_add_of_le' hsize
  have hvch : (bn.setCompact ssl nCompact) = bn.read ssl ((nCompact >>> 16).toUInt8 ::
      ((nCompact >>> 8).toUInt8 :: nCompact.toUInt8 :: List.replicate n 0)) := by
    rw [setCompact, hn, List.take_of_length_le (by simp), Nat.add_sub_cancel]
    rfl
  have hvalue := @BigNum.val_read ssl hssl bn ((nCompact >>> 16).toUInt8 ::
    ((nCompact >>> 8).toUInt8 :: nCompact.toUInt8 :: List.replicate n 0)) (by simp; omega)
  have hmpi : ssl.BN_bn2mpi (bn.setCompact ssl nCompact) = mpiSize (n + 3) ++
      ((nCompact >>> 16).toUInt8 :: (nCompact >>> 8).toUInt8 :: nCompact.toUInt8 ::
        List.replicate n 0) := by
    rw [hssl.bn2mpi, hvch, hvalue, bn2mpi_mpi2bn hfront]
    · congr 2
      simp
    · exact hshort.imp_right fun h => ⟨_, rfl, h⟩
  have hcount : UInt32.ofNat (n + 3 + 4) - (4 : UInt32) = nCompact >>> 24 := by
    rw [UInt32.ofNat_add, ← hn, UInt32.ofNat_toNat]
    exact add_sub_cancel_right (nCompact >>> 24) 4
  have hle : ∀ k : UInt32, k.toNat ≤ 3 → k ≤ nCompact >>> 24 := fun k hk =>
    UInt32.le_iff_toNat_le.mpr (hk.trans hsize)
  obtain ⟨a, b, c, d, hhead⟩ : ∃ a b c d, mpiSize (n + 3) = [a, b, c, d] := ⟨_, _, _, _, rfl⟩
  have hlen : (ssl.BN_bn2mpi (bn.setCompact ssl nCompact)).length = n + 3 + 4 := by
    rw [hmpi, hhead]
    simp
  rw [getCompact, hlen, hcount, if_pos (hle 1 (by decide)), if_pos (hle 2 (by decide)),
    if_pos (hle 3 (by decide)), hmpi, hhead]
  exact or_compactBytes nCompact

/-- The conversions do what they are meant to do. -/
theorem MpiFunctions.Documented.converts : ssl.Converts where
  setint64 bn sn := by
    have hlen := length_setint64Loop
    rw [BigNum.setint64, BigNum.val_read hssl bn ((hlen _ _ _ _ _).trans (by decide))]
    exact CBigNum.setint64_eq sn
  setuint64 bn n := by
    have hlen := length_setint64Loop
    rw [BigNum.setuint64, BigNum.val_read hssl bn ((hlen _ _ _ _ _).trans (by decide))]
    exact CBigNum.setuint64_eq n
  setuint256 bn n := by
    obtain ⟨hvalue, hlen⟩ := setuint256Loop_spec (littleEndian 32 n.toNat).reverse
    rw [List.length_reverse, length_littleEndian] at hlen
    rw [BigNum.setuint256, BigNum.val_read hssl bn (hlen.trans (by decide)), hvalue,
      List.reverse_reverse, ofLittleEndian_littleEndian n.isLt]
  getuint64 bn hbn := by
    rw [BigNum.getuint64, UInt64.toNat_ofNat', BigNum.ofLittleEndian_getBytes hssl]
    omega
  getuint256 bn hbn := by
    rw [BigNum.getuint256, BitVec.toNat_ofNat, BigNum.ofLittleEndian_getBytes hssl]
    omega
  getvch bn bn' := by
    rw [BigNum.setvch, BigNum.getvch_eq hssl, List.reverse_reverse]
    apply BigNum.read_eq hssl bn' (length_bn2mpi_lt bn)
    rw [Beancash.mpi2bn, Beancash.bn2mpi, List.reverse_reverse, setvch_signedVch]
  getCompact bn _ hsign hsize hword := BigNum.getCompact_setCompact hssl bn hsign hsize hword

end

/-- Both functions by the documentation. -/
def plainMpi : MpiFunctions where
  BN_bn2mpi bn := mpiSize (bn2mpi bn).length ++ bn2mpi bn
  BN_mpi2bn vch :=
    if hsize : vch.take 4 = mpiSize (vch.drop 4).length ∧
        (mpi2bn (vch.drop 4)).natAbs.size < 2 ^ 31 then
      some ⟨mpi2bn (vch.drop 4), hsize.2⟩
    else none

theorem plainMpi_documented : plainMpi.Documented where
  bn2mpi _ := rfl
  mpi2bn vch bn _ h := by
    have htake : (mpiSize vch.length ++ vch).take 4 = mpiSize vch.length :=
      List.take_left' (length_mpiSize _)
    have hdrop : (mpiSize vch.length ++ vch).drop 4 = vch := List.drop_left' (length_mpiSize _)
    have hsize : (mpiSize vch.length ++ vch).take 4 =
          mpiSize ((mpiSize vch.length ++ vch).drop 4).length ∧
        (mpi2bn ((mpiSize vch.length ++ vch).drop 4)).natAbs.size < 2 ^ 31 := by
      rw [htake, hdrop, h]
      exact ⟨rfl, bn.property⟩
    unfold plainMpi
    dsimp only
    rw [dif_pos hsize, Option.some.injEq]
    apply Subtype.ext
    rw [← h]
    exact congrArg mpi2bn hdrop

theorem converts_plainMpi : plainMpi.Converts := plainMpi_documented.converts

end Beancash
