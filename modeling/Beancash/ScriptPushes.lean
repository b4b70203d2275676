import Beancash.BlockTrust
import Beancash.HeightPrefix
import Beancash.PushOnly

namespace Beancash

open ByteStream

/-- `OP_PUSHDATA1`, `OP_PUSHDATA2` and `OP_PUSHDATA4` -/
inductive PushWidth where
  | one
  | two
  | four
deriving DecidableEq

namespace PushWidth

def bytes : PushWidth → ℕ
  | one => 1
  | two => 2
  | four => 4

def opcode : PushWidth → UInt8
  | one => opPushData1
  | two => opPushData2
  | four => opPushData4

theorem pushSize_opcode (width : PushWidth) : pushSize width.opcode = number width.bytes := by
  cases width <;> rfl

theorem opcode_le (width : PushWidth) : width.opcode ≤ opPushData4 := by
  cases width <;> decide

end PushWidth

/-- The operations by which a script pushes data: `OP_1` to `OP_16`, the direct pushes, of which
`OP_0` is the empty one, and those that spell out the size. -/
inductive PushOp where
  | small (n : ℕ) (hpos : 1 ≤ n) (hle : n ≤ 16)
  | direct (b : List UInt8) (hb : b.length < 0x4c)
  | pushData (width : PushWidth) (b : List UInt8) (hb : b.length < 256 ^ width.bytes)

namespace PushOp

def opcode : PushOp → UInt8
  | small n _ _ => .ofNat (n + 0x50)
  | direct b _ => .ofNat b.length
  | pushData width _ _ => width.opcode

/-- What the operation carries along. -/
def operand : PushOp → List UInt8
  | small _ _ _ => []
  | direct b _ => b
  | pushData _ b _ => b

def size : PushOp → List UInt8
  | small _ _ _ => []
  | direct _ _ => []
  | pushData width b _ => littleEndian width.bytes b.length

def encode (p : PushOp) : Script := p.opcode :: (p.size ++ p.operand)

/-- What it leaves on the stack. -/
def data : PushOp → List UInt8
  | small n _ _ => signedVch n
  | direct b _ => b
  | pushData _ b _ => b

theorem not_ofNat_le {n : ℕ} (hle : n ≤ 16) : ¬UInt8.ofNat (n + 0x50) ≤ opPushData4 := by
  rw [UInt8.le_iff_toNat_le, UInt8.toNat_ofNat_of_lt' (by change n + 0x50 < 256; omega)]
  change ¬n + 0x50 ≤ 0x4e
  omega

theorem getOp_encode (p : PushOp) (rest : Script) : getOp (p.encode ++ rest) =
    if (p.operand ++ rest).length % 2 ^ 32 < p.operand.length then none
    else some (p.opcode, p.operand, rest) := by
  cases p with
  | small n hpos hle =>
    rw [operand, List.length_nil, if_neg (Nat.not_lt_zero _)]
    exact getOp_opcode (not_ofNat_le hle)
  | direct b hb =>
    have hsize : (pushSize (.ofNat b.length)).run (b ++ rest) = some (b.length, b ++ rest) := by
      rw [pushSize, if_pos (ofNat_lt_pushData1 hb), toNat_ofNat_direct hb]
      rfl
    have hop := getOp_of_pushSize (ofNat_le_pushData4 hb) hsize
    rwa [List.take_left, List.drop_left] at hop
  | pushData width b hb =>
    have hsize : (pushSize width.opcode).run (littleEndian width.bytes b.length ++ (b ++ rest)) =
        some (b.length, b ++ rest) := by
      rw [width.pushSize_opcode]
      exact reads_number hb _
    have hop := getOp_of_pushSize width.opcode_le hsize
    rw [List.take_left, List.drop_left] at hop
    rwa [encode, size, List.cons_append, List.append_assoc]

/-- The operation that `operator<<` chooses. -/
def ofBytes (b : List UInt8) (hb : b.length < 2 ^ 32) : PushOp :=
  if hdirect : b.length < 0x4c then .direct b hdirect
  else if hone : b.length ≤ 0xff then .pushData .one b (Nat.lt_succ_of_le hone)
  else if htwo : b.length ≤ 0xffff then .pushData .two b (Nat.lt_succ_of_le htwo)
  else .pushData .four b hb

variable {b : List UInt8}

theorem operand_ofBytes (hb : b.length < 2 ^ 32) : (ofBytes b hb).operand = b := by
  unfold ofBytes
  split_ifs <;> rfl

theorem data_ofBytes (hb : b.length < 2 ^ 32) : (ofBytes b hb).data = b := by
  unfold ofBytes
  split_ifs <;> rfl

theorem encode_ofBytes (hb : b.length < 2 ^ 32) : (ofBytes b hb).encode = Script.pushBytes b := by
  unfold ofBytes Script.pushBytes
  change _ = if b.length < 0x4c then _ else _
  split_ifs <;> rfl

end PushOp

namespace CBigNum

/-- The loop of `setint64` and `setuint64`: so many bytes from the top one on. -/
def setint64Loop (fNegative : Bool) : ℕ → UInt64 → Bool → List UInt8 → List UInt8
  | 0, _, _, p => p
  | i + 1, n, fLeadingZeroes, p =>
    let c := (n >>> 56).toUInt8
    let n := n <<< 8
    if fLeadingZeroes then
      if c = 0 then setint64Loop fNegative i n true p
      else if c &&& 0x80 ≠ 0 then
        setint64Loop fNegative i n false (p ++ [if fNegative then 0x80 else 0] ++ [c])
      else setint64Loop fNegative i n false (p ++ [if fNegative then c ||| 0x80 else c])
    else setint64Loop fNegative i n false (p ++ [c])

def setint64 (sn : Int64) : ℤ :=
  let fNegative : Bool := sn < 0
  let n := if fNegative then (-(sn + 1)).toUInt64 + 1 else sn.toUInt64
  mpi2bn (setint64Loop fNegative 8 n true [])

def setuint64 (n : UInt64) : ℤ := mpi2bn (setint64Loop false 8 n true [])

/-- `setulong`, which is `BN_set_word`. -/
def setulong (n : UInt64) : ℤ := n.toNat

/-- `CBigNum(n)` of an `int64_t`, which is a `long` on some platforms and a `long long` on others. -/
def ofInt64 (fLong : Bool) (n : Int64) : ℤ :=
  if fLong && 0 ≤ n then setulong n.toUInt64 else setint64 n

/-- `CBigNum(n)` of an `uint64_t`. -/
def ofUInt64 (fLong : Bool) (n : UInt64) : ℤ := if fLong then setulong n else setuint64 n

theorem toNat_toUInt64 (n : Int64) : (n.toUInt64.toNat : ℤ) = n.toInt % 2 ^ 64 := by
  have h := BitVec.toInt_eq_toNat_cond n.toBitVec
  have hlt := n.toUInt64.toNat_lt
  change n.toInt = if 2 * n.toUInt64.toNat < 2 ^ 64 then (n.toUInt64.toNat : ℤ)
    else (n.toUInt64.toNat : ℤ) - (2 ^ 64 : ℕ) at h
  split_ifs at h <;> omega

section Value

variable {fNegative : Bool} {n : UInt64} {m k : ℕ}

theorem shift_spec (hk : k < 8) (hn : n.toNat = m * 256 ^ (8 - (k + 1))) :
    (n >>> 56).toUInt8.toNat = m / 256 ^ k ∧
      (n <<< 8).toNat = m % 256 ^ k * 256 ^ (8 - k) := by
  have hlow : 256 ^ 7 = 256 ^ k * 256 ^ (8 - (k + 1)) := by
    rw [← pow_add, show k + (8 - (k + 1)) = 7 by omega]
  have hall : 256 ^ 8 = 256 ^ k * 256 ^ (8 - k) := by
    rw [← pow_add, show k + (8 - k) = 8 by omega]
  have hnext : m * 256 ^ (8 - (k + 1)) * 256 = m * 256 ^ (8 - k) := by
    rw [mul_assoc, ← pow_succ, show 8 - (k + 1) + 1 = 8 - k by omega]
  have hlt := n.toNat_lt
  constructor
  · rw [UInt64.toNat_toUInt8, UInt64.toNat_shiftRight]
    change n.toNat >>> 56 % 256 = _
    rw [Nat.shiftRight_eq_div_pow, Nat.mod_eq_of_lt (by omega)]
    change n.toNat / 256 ^ 7 = _
    rw [hlow, hn, Nat.mul_div_mul_right _ _ (pow_pos (by decide) _)]
  · rw [UInt64.toNat_shiftLeft]
    change n.toNat <<< 8 % 256 ^ 8 = _
    rw [Nat.shiftLeft_eq]
    change n.toNat * 256 % 256 ^ 8 = _
    rw [hn, hnext, hall, Nat.mul_mod_mul_right]

theorem setint64Loop_digits (fNegative : Bool) (hk : k ≤ 8) (hm : m < 256 ^ k) (hn : n.toNat = m * 256 ^ (8 - k))
    (p : List UInt8) : ∃ q, setint64Loop fNegative k n false p = p ++ q ∧ q.length = k ∧
      ofLittleEndian q.reverse = m := by
  induction k generalizing n m p with
  | zero => exact ⟨[], (List.append_nil p).symm, rfl, (Nat.lt_one_iff.mp hm).symm⟩
  | succ k ih =>
    obtain ⟨hc, hnext⟩ := shift_spec hk hn
    obtain ⟨q, hloop, hlen, hq⟩ := ih (by omega) (Nat.mod_lt m (pow_pos (by decide) k)) hnext
      (p ++ [(n >>> 56).toUInt8])
    refine ⟨(n >>> 56).toUInt8 :: q, ?_, congrArg (· + 1) hlen, ?_⟩
    · rw [List.append_cons]
      exact hloop
    · rw [List.reverse_cons, ofLittleEndian_append, hq, List.length_reverse, hlen]
      change m % 256 ^ k + 256 ^ k * ((n >>> 56).toUInt8.toNat + 256 * 0) = m
      rw [hc]
      exact Nat.mod_add_div m (256 ^ k)

theorem toNat_toUInt8_eq_zero {c : UInt8} : c = 0 ↔ c.toNat = 0 := by
  rw [← UInt8.toNat_inj]
  rfl

theorem topBit_spec (c : UInt8) : (c &&& 0x80 = 0 ↔ c.toNat < 128) ∧
    (c.toNat < 128 → (c ||| 0x80).toNat = c.toNat + 128) := by
  have hall := forall_byte (p := fun c => (c &&& 0x80 == 0) == decide (c.toNat < 128) &&
    (decide (128 ≤ c.toNat) || (c ||| 0x80).toNat == c.toNat + 128)) (by decide +kernel) c
  obtain ⟨hclear, hset⟩ := Bool.and_eq_true_iff.mp hall
  constructor
  · rw [← beq_iff_eq, eq_of_beq hclear, decide_eq_true_eq]
  · intro hlt
    rw [decide_eq_false (Nat.not_le.mpr hlt), Bool.false_or] at hset
    exact eq_of_beq hset

theorem mpi2bn_cons (front : UInt8) (p : List UInt8) :
    let magnitude := ofLittleEndian p.reverse + 256 ^ p.length * (front.toNat % 128)
    mpi2bn (front :: p) = if front.toNat < 128 then (magnitude : ℤ) else -magnitude := by
  rw [mpi2bn, List.reverse_cons, setvch_concat, List.length_reverse]

/-- The bytes make up the number. A further one holds the sign where the top bit of the first is
taken. -/
theorem mpi2bn_setint64Loop (hk : k ≤ 8) (hm : m < 256 ^ k) (hn : n.toNat = m * 256 ^ (8 - k)) :
    mpi2bn (setint64Loop fNegative k n true []) = if fNegative then -(m : ℤ) else m := by
  induction k generalizing n m with
  | zero =>
    obtain rfl := Nat.lt_one_iff.mp hm
    split_ifs <;> rfl
  | succ k ih =>
    obtain ⟨hc, hnext⟩ := shift_spec hk hn
    have hmod := Nat.mod_lt m (pow_pos (show 0 < 256 by decide) k)
    have hsplit := Nat.mod_add_div m (256 ^ k)
    rw [← hc] at hsplit
    have hdigits := setint64Loop_digits fNegative (by omega) hmod hnext
    rw [setint64Loop]
    generalize (n >>> 56).toUInt8 = c at hc hsplit
    rw [if_pos rfl]
    obtain ⟨hbit, hor⟩ := topBit_spec c
    by_cases hzero : c = 0
    · rw [toNat_toUInt8_eq_zero.mp hzero, Nat.mul_zero, Nat.add_zero] at hsplit
      rw [hsplit] at hmod hnext
      rw [if_pos hzero]
      exact ih (by omega) hmod hnext
    rw [if_neg hzero]
    by_cases htop : c &&& 0x80 = 0
    · have hlt := hbit.mp htop
      obtain ⟨q, hloop, hlen, hq⟩ := hdigits [if fNegative then c ||| 0x80 else c]
      rw [if_neg (not_not.mpr htop), List.nil_append, hloop, List.singleton_append, mpi2bn_cons, hq,
        hlen]
      cases fNegative with
      | false =>
        simp only [Bool.false_eq_true, if_false]
        rw [if_pos hlt, Nat.mod_eq_of_lt hlt, hsplit]
      | true =>
        simp only [if_true]
        rw [hor hlt, if_neg (by omega), Nat.add_mod_right, Nat.mod_eq_of_lt hlt, hsplit]
    · obtain ⟨q, hloop, hlen, hq⟩ := hdigits ([if fNegative then 0x80 else 0] ++ [c])
      have hall : ofLittleEndian (c :: q).reverse = m := by
        rw [List.reverse_cons, ofLittleEndian_append, hq, List.length_reverse, hlen]
        exact hsplit
      rw [if_pos htop, List.nil_append, hloop, List.append_assoc, List.singleton_append,
        List.singleton_append, mpi2bn_cons, hall]
      cases fNegative with
      | false => exact congrArg Nat.cast (Nat.add_zero m)
      | true => exact congrArg (fun m : ℕ => -(m : ℤ)) (Nat.add_zero m)

theorem setint64_eq (sn : Int64) : setint64 sn = sn.toInt := by
  have hlo := sn.le_toInt
  have hhi := sn.toInt_lt
  have hnat := toNat_toUInt64 sn
  rw [setint64]
  by_cases hneg : sn < 0
  · have hneg' : sn.toInt < 0 := Int64.lt_iff_toInt_lt.mp hneg
    have hinc : (sn + 1).toInt = sn.toInt + 1 := by
      rw [Int64.toInt_add]
      change (sn.toInt + 1).bmod (2 ^ 64) = _
      exact Int.bmod_eq_of_le (by omega) (by omega)
    have hopp : (-(sn + 1)).toInt = -(sn.toInt + 1) := by
      rw [Int64.toInt_neg, hinc]
      exact Int.bmod_eq_of_le (by omega) (by omega)
    have hn := toNat_toUInt64 (-(sn + 1))
    rw [hopp] at hn
    have hsum : ((-(sn + 1)).toUInt64 + 1).toNat = sn.toInt.natAbs := by
      rw [UInt64.toNat_add]
      change ((-(sn + 1)).toUInt64.toNat + 1) % 2 ^ 64 = _
      omega
    rw [decide_eq_true hneg, if_pos rfl,
      mpi2bn_setint64Loop le_rfl (UInt64.toNat_lt _) (Nat.mul_one _).symm, hsum, if_pos rfl]
    omega
  · have hneg' : 0 ≤ sn.toInt := by
      rw [Int64.lt_iff_toInt_lt] at hneg
      exact Int.not_lt.mp hneg
    rw [decide_eq_false hneg, if_neg Bool.false_ne_true,
      mpi2bn_setint64Loop le_rfl (UInt64.toNat_lt _) (Nat.mul_one _).symm,
      if_neg Bool.false_ne_true]
    omega
theorem setuint64_eq (n : UInt64) : setuint64 n = n.toNat :=
  mpi2bn_setint64Loop le_rfl n.toNat_lt (Nat.mul_one _).symm

end Value

theorem ofInt64_eq (fLong : Bool) (n : Int64) : ofInt64 fLong n = n.toInt := by
  rw [ofInt64, setint64_eq]
  split_ifs with h
  · have hpos : 0 ≤ n.toInt :=
      Int64.le_iff_toInt_le.mp (of_decide_eq_true (Bool.and_eq_true_iff.mp h).2)
    have hnat := toNat_toUInt64 n
    have hhi := n.toInt_lt
    rw [setulong]
    omega
  · rfl

theorem ofUInt64_eq (fLong : Bool) (n : UInt64) : ofUInt64 fLong n = n.toNat := by
  rw [ofUInt64, setuint64_eq, setulong, ite_self]

end CBigNum

theorem setvch_signedVch (bn : ℤ) : setvch (signedVch bn) = bn := by
  by_cases hn : bn.natAbs = 0
  · obtain rfl := Int.natAbs_eq_zero.mp hn
    rfl
  · obtain ⟨front, back, hvch, hback⟩ := getvch_eq_concat hn
    have hvalue := ofLittleEndian_getvch bn.natAbs
    rw [hvch, ofLittleEndian_append] at hvalue
    change ofLittleEndian front + 256 ^ front.length * (back.toNat + 256 * 0) = _ at hvalue
    rw [Nat.mul_zero, Nat.add_zero] at hvalue
    have hlt : back.toNat < 128 := UInt8.lt_iff_toNat_lt.mp hback
    rw [signedVch, hvch]
    split_ifs with hneg
    · rw [List.length_append, List.length_singleton, Nat.add_sub_cancel, modify_concat,
        setvch_concat, (CBigNum.topBit_spec back).2 hlt, if_neg (by omega), Nat.add_mod_right,
        Nat.mod_eq_of_lt hlt, hvalue]
      omega
    · rw [setvch_concat, if_pos hlt, Nat.mod_eq_of_lt hlt, hvalue]
      omega

/-- What is appended by `operator<<`. -/
inductive BuildOp where
  | bytes (b : List UInt8) (hb : b.length < 2 ^ 32)
  | int64 (n : Int64)
  | uint64 (n : UInt64)
  | opcode (code : UInt8) (hcode : op16 < code)

namespace BuildOp

/-- What `operator<<` appends: `push_int64`, `push_uint64`, and those of bytes and opcodes. -/
def script (fLong : Bool) : BuildOp → Script
  | bytes b _ => Script.pushBytes b
  | int64 n =>
    if n = -1 ∨ 1 ≤ n ∧ n ≤ 16 then [.ofInt (n.toInt + 0x50)]
    else Script.pushBytes (signedVch (CBigNum.ofInt64 fLong n))
  | uint64 n =>
    if 1 ≤ n ∧ n ≤ 16 then [.ofNat (n.toNat + 0x50)]
    else Script.pushBytes (signedVch (CBigNum.ofUInt64 fLong n))
  | opcode code _ => [code]

theorem script_int64 (fLong : Bool) (n : Int64) : (int64 n).script fLong = Script.pushInt64 n := by
  rw [script, CBigNum.ofInt64_eq, Script.pushInt64]

theorem script_uint64 (fLong : Bool) (n : UInt64) :
    (uint64 n).script fLong = Script.pushUint64 n := by
  rw [script, CBigNum.ofUInt64_eq, Script.pushUint64, signedVch_natCast]

/-- The opcode by which `operator<<` pushes bytes. -/
def pushOpcode (b : List UInt8) : UInt8 :=
  if b.length < 0x4c then .ofNat b.length
  else if b.length ≤ 0xff then opPushData1
  else if b.length ≤ 0xffff then opPushData2
  else opPushData4

/-- The operation that is meant. -/
def instruction : BuildOp → Instruction
  | bytes b _ => (pushOpcode b, b)
  | int64 n =>
    if n = -1 ∨ 1 ≤ n ∧ n ≤ 16 then (.ofInt (n.toInt + 0x50), [])
    else (pushOpcode (signedVch n.toInt), signedVch n.toInt)
  | uint64 n =>
    if 1 ≤ n ∧ n ≤ 16 then (.ofNat (n.toNat + 0x50), [])
    else (pushOpcode (signedVch n.toNat), signedVch n.toNat)
  | opcode code _ => (code, [])

/-- The integer that is pushed. -/
def integer : BuildOp → Option ℤ
  | bytes _ _ => none
  | int64 n => some n.toInt
  | uint64 n => some n.toNat
  | opcode _ _ => none

end BuildOp

/-- `CScript() << a << b` and so on. -/
def buildScript (fLong : Bool) (ops : List BuildOp) : Script :=
  ops.foldl (fun script o => script ++ o.script fLong) []

/-- Wherever bytes are read, what is left of the script is not less than them when it is counted in
32 bits. -/
def Measured (fLong : Bool) : List BuildOp → Prop
  | [] => True
  | o :: ops => o.instruction.2.length ≤
      (o.instruction.2 ++ buildScript fLong ops).length % 2 ^ 32 ∧ Measured fLong ops

theorem getOp_pushBytes_append {b : List UInt8} (hb : b.length < 2 ^ 32) (rest : Script) :
    getOp (Script.pushBytes b ++ rest) =
      if (b ++ rest).length % 2 ^ 32 < b.length then none
      else some (BuildOp.pushOpcode b, b, rest) := by
  have hop := (PushOp.ofBytes b hb).getOp_encode rest
  have hopcode : (PushOp.ofBytes b hb).opcode = BuildOp.pushOpcode b := by
    unfold PushOp.ofBytes BuildOp.pushOpcode
    split_ifs <;> rfl
  rwa [PushOp.encode_ofBytes, PushOp.operand_ofBytes, hopcode] at hop

theorem not_size_lt_nil (rest : Script) :
    ¬(([] : List UInt8) ++ rest).length % 2 ^ 32 < ([] : List UInt8).length := Nat.not_lt_zero _

theorem length_signedVch_lt {bn : ℤ} (h : bn.natAbs < 256 ^ 8) : (signedVch bn).length < 2 ^ 32 :=
  (length_signedVch_le h).trans_lt (by decide)

namespace BuildOp

theorem pushOpcode_le (b : List UInt8) : pushOpcode b ≤ opPushData4 := by
  unfold pushOpcode
  split_ifs with hdirect
  · exact ofNat_le_pushData4 hdirect
  · decide
  · decide
  · decide

theorem smallOpcode_spec {z : ℤ} (hz : z = -1 ∨ 1 ≤ z ∧ z ≤ 16) :
    opPushData4 < .ofInt (z + 0x50) ∧ .ofInt (z + 0x50) ≤ op16 ∧
      pushedBy (.ofInt (z + 0x50)) [] = some (signedVch z) := by
  have hall : ([-1, 1, 2, 3, 4, 5, 6, 7, 8, 9, 10, 11, 12, 13, 14, 15, 16].all fun z : ℤ =>
      opPushData4 < .ofInt (z + 0x50) && UInt8.ofInt (z + 0x50) ≤ op16 &&
        pushedBy (.ofInt (z + 0x50)) [] == some (signedVch z)) = true := by
    decide
  have hmem : z ∈ ([-1, 1, 2, 3, 4, 5, 6, 7, 8, 9, 10, 11, 12, 13, 14, 15, 16] : List ℤ) := by
    simp only [List.mem_cons, List.not_mem_nil, or_false]
    omega
  have hspec := List.all_eq_true.mp hall z hmem
  simpa [and_assoc] using hspec

theorem int64_opcode {n : Int64} (h : n = -1 ∨ 1 ≤ n ∧ n ≤ 16) :
    n.toInt = -1 ∨ 1 ≤ n.toInt ∧ n.toInt ≤ 16 := by
  rwa [← Int64.toInt_inj, Int64.le_iff_toInt_le, Int64.le_iff_toInt_le] at h

theorem uint64_opcode {n : UInt64} (h : 1 ≤ n ∧ n ≤ 16) :
    1 ≤ (n.toNat : ℤ) ∧ (n.toNat : ℤ) ≤ 16 := by
  rw [UInt64.le_iff_toNat_le, UInt64.le_iff_toNat_le] at h
  exact ⟨Nat.cast_le.mpr h.1, Nat.cast_le.mpr h.2⟩

theorem getOp_script (fLong : Bool) (o : BuildOp) (rest : Script) :
    getOp (o.script fLong ++ rest) =
      if (o.instruction.2 ++ rest).length % 2 ^ 32 < o.instruction.2.length then none
      else some (o.instruction.1, o.instruction.2, rest) := by
  cases o with
  | bytes b hb => exact getOp_pushBytes_append hb rest
  | int64 n =>
    have hlo := n.le_toInt
    have hhi := n.toInt_lt
    rw [script, CBigNum.ofInt64_eq, instruction]
    by_cases hsmall : n = -1 ∨ 1 ≤ n ∧ n ≤ 16
    · rw [if_pos hsmall, if_pos hsmall, if_neg (not_size_lt_nil rest)]
      exact getOp_opcode (UInt8.not_le.mpr (smallOpcode_spec (int64_opcode hsmall)).1)
    · rw [if_neg hsmall, if_neg hsmall]
      exact getOp_pushBytes_append (length_signedVch_lt (by omega)) rest
  | uint64 n =>
    have hlt := n.toNat_lt
    rw [script, CBigNum.ofUInt64_eq, instruction]
    by_cases hsmall : 1 ≤ n ∧ n ≤ 16
    · rw [if_pos hsmall, if_pos hsmall, if_neg (not_size_lt_nil rest), ← ofInt_natCast_add]
      exact getOp_opcode (UInt8.not_le.mpr (smallOpcode_spec (.inr (uint64_opcode hsmall))).1)
    · rw [if_neg hsmall, if_neg hsmall]
      exact getOp_pushBytes_append (length_signedVch_lt (by omega)) rest
  | opcode code hcode =>
    rw [instruction, if_neg (not_size_lt_nil rest)]
    exact getOp_opcode (UInt8.not_le.mpr (UInt8.lt_trans (by decide : opPushData4 < op16) hcode))

theorem length_instruction_le (fLong : Bool) (o : BuildOp) :
    o.instruction.2.length ≤ (o.script fLong).length := by
  cases o with
  | bytes b hb => exact length_le_pushBytes b
  | int64 n =>
    rw [script, CBigNum.ofInt64_eq, instruction]
    split_ifs
    · exact Nat.zero_le _
    · exact length_le_pushBytes _
  | uint64 n =>
    rw [script, CBigNum.ofUInt64_eq, instruction]
    split_ifs
    · exact Nat.zero_le _
    · exact length_le_pushBytes _
  | opcode code hcode => exact Nat.zero_le _

theorem script_ne_nil (fLong : Bool) (o : BuildOp) : o.script fLong ≠ [] := by
  cases o with
  | bytes b hb => exact pushBytes_ne_nil b
  | int64 n =>
    rw [script]
    split_ifs
    · exact List.cons_ne_nil _ _
    · exact pushBytes_ne_nil _
  | uint64 n =>
    rw [script]
    split_ifs
    · exact List.cons_ne_nil _ _
    · exact pushBytes_ne_nil _
  | opcode code hcode => exact List.cons_ne_nil _ _

theorem pushedBy_instruction {o : BuildOp} {z : ℤ} (hz : o.integer = some z) :
    o.instruction.1 ≤ op16 ∧ pushedBy o.instruction.1 o.instruction.2 = some (signedVch z) := by
  cases o with
  | bytes b hb => cases hz
  | int64 n =>
    cases hz
    rw [instruction]
    split_ifs with hsmall
    · exact (smallOpcode_spec (int64_opcode hsmall)).2
    · exact ⟨UInt8.le_trans (pushOpcode_le _) (by decide), if_pos (pushOpcode_le _)⟩
  | uint64 n =>
    cases hz
    rw [instruction]
    split_ifs with hsmall
    · rw [← ofInt_natCast_add]
      exact (smallOpcode_spec (.inr (uint64_opcode hsmall))).2
    · exact ⟨UInt8.le_trans (pushOpcode_le _) (by decide), if_pos (pushOpcode_le _)⟩
  | opcode code hcode => cases hz

end BuildOp

theorem buildScript_eq (fLong : Bool) (ops : List BuildOp) :
    buildScript fLong ops = ops.flatMap (BuildOp.script fLong) := List.flatMap_eq_foldl.symm

theorem buildScript_cons (fLong : Bool) (o : BuildOp) (ops : List BuildOp) :
    buildScript fLong (o :: ops) = o.script fLong ++ buildScript fLong ops := by
  rw [buildScript_eq, buildScript_eq, List.flatMap_cons]

theorem eq_of_parses_buildScript {fLong : Bool} {ops : List BuildOp} {l : List Instruction}
    (h : Parses (buildScript fLong ops) l) :
    l = ops.map BuildOp.instruction ∧ Measured fLong ops := by
  induction ops generalizing l with
  | nil =>
    cases h with
    | nil => exact ⟨rfl, trivial⟩
    | cons hop _ => cases hop
  | cons o ops ih =>
    have hop := o.getOp_script fLong (buildScript fLong ops)
    rw [buildScript_cons] at h
    cases l with
    | nil => exact absurd (List.append_eq_nil_iff.mp h.eq_nil).1 (o.script_ne_nil fLong)
    | cons i l =>
      obtain ⟨opcode, vch⟩ := i
      obtain ⟨rest, hread, hrest⟩ := h.exists_rest
      rw [hop] at hread
      split_ifs at hread with hsize
      cases hread
      obtain ⟨rfl, hmeasured⟩ := ih hrest
      exact ⟨rfl, Nat.not_lt.mp hsize, hmeasured⟩

theorem parses_buildScript {fLong : Bool} {ops : List BuildOp} (h : Measured fLong ops) :
    Parses (buildScript fLong ops) (ops.map BuildOp.instruction) := by
  induction ops with
  | nil => exact .nil
  | cons o ops ih =>
    have hop := o.getOp_script fLong (buildScript fLong ops)
    rw [if_neg (Nat.not_lt.mpr h.1)] at hop
    rw [buildScript_cons, List.map_cons]
    exact .cons hop (ih h.2)

theorem measured_of_length_lt {fLong : Bool} {ops : List BuildOp}
    (h : (buildScript fLong ops).length < 2 ^ 32) : Measured fLong ops := by
  induction ops with
  | nil => trivial
  | cons o ops ih =>
    rw [buildScript_cons, List.length_append] at h
    have hsize := o.length_instruction_le fLong
    refine ⟨?_, ih (by omega)⟩
    rw [List.length_append, Nat.mod_eq_of_lt (by omega)]
    exact Nat.le_add_right _ _

/-- A script is read as what it was built from exactly when it is measured right, as it is below
`2^32` bytes. What an integer leaves on the stack stands for it. -/
theorem buildScript_parses (fLong : Bool) (ops : List BuildOp) :
    (Parses (buildScript fLong ops) (ops.map BuildOp.instruction) ↔ Measured fLong ops) ∧
      ((buildScript fLong ops).length < 2 ^ 32 → Measured fLong ops) ∧
      ∀ o ∈ ops, ∀ z, o.integer = some z → ∃ vch, setvch vch = z ∧
        ∀ input s, s.vfExec = [] →
          evalInstruction input s o.instruction.1 o.instruction.2 =
            .ok { s with stack := vch :: s.stack } := by
  refine ⟨⟨fun h => (eq_of_parses_buildScript h).2, parses_buildScript⟩, measured_of_length_lt,
    fun o _ z hz => ?_⟩
  obtain ⟨hle, hpushed⟩ := BuildOp.pushedBy_instruction hz
  refine ⟨signedVch z, setvch_signedVch z, fun input s hexec => ?_⟩
  rw [evalInstruction_push hexec hle, hpushed]
  rfl

theorem buildScript_parses_mixed :
    Parses (buildScript true [.int64 (-2), .uint64 (2 ^ 63), .bytes [7] (by decide),
        .opcode 0xac (by decide)])
      [(1, [0x82]), (9, [0, 0, 0, 0, 0, 0, 0, 0x80, 0]), (1, [7]), (0xac, [])] := by
  obtain ⟨hiff, hmeasured, -⟩ := buildScript_parses true [.int64 (-2), .uint64 (2 ^ 63),
    .bytes [7] (by decide), .opcode 0xac (by decide)]
  have hread := hiff.mpr (hmeasured (by decide +kernel))
  have hops : [BuildOp.int64 (-2), .uint64 (2 ^ 63), .bytes [7] (by decide),
      .opcode 0xac (by decide)].map BuildOp.instruction =
        [(1, [0x82]), (9, [0, 0, 0, 0, 0, 0, 0, 0x80, 0]), (1, [7]), (0xac, [])] := by
    decide +kernel
  rwa [hops] at hread

namespace Sample

def longPush : List UInt8 := List.replicate (2 ^ 32 - 1) 0

theorem length_longPush : longPush.length = 2 ^ 32 - 1 := List.length_replicate

/-- `OP_CHECKSIG` after a push. -/
def pushAndCheck (b : List UInt8) (hb : b.length < 2 ^ 32) : List BuildOp :=
  [.bytes b hb, .opcode 0xac (by decide)]

theorem length_le_of_parses {b : List UInt8} (hb : b.length < 2 ^ 32)
    (h : Parses (buildScript true (pushAndCheck b hb))
      ((pushAndCheck b hb).map BuildOp.instruction)) : b.length ≤ (b.length + 1) % 2 ^ 32 := by
  obtain ⟨-, hsize, -⟩ := eq_of_parses_buildScript h
  change b.length ≤ (b ++ [0xac]).length % 2 ^ 32 at hsize
  rwa [List.length_append] at hsize

def wrappedOps : List BuildOp := pushAndCheck longPush (by rw [length_longPush]; decide)

end Sample

open Sample in
/-- With one byte behind them there are `2^32` bytes from the data of the push on, which are
counted as none. -/
theorem buildScript_wrapped :
    ¬Parses (buildScript true wrappedOps) (wrappedOps.map BuildOp.instruction) := by
  intro h
  have hsize := length_le_of_parses _ h
  rw [length_longPush] at hsize
  exact absurd hsize (by decide)

end Beancash
