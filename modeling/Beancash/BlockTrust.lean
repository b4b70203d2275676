import Beancash.EvalSafe
import Beancash.Kernel
import Beancash.WordNumber

namespace Beancash

open ByteStream WordNumber

/-- `BN_mpi2bn` of what comes after the four bytes of the size: the highest byte first, its top
bit the sign. -/
def mpi2bn (vch : List UInt8) : ℤ := setvch vch.reverse

/-- `BN_bn2mpi` without the four bytes of the size. -/
def bn2mpi (bn : ℤ) : List UInt8 := (signedVch bn).reverse

namespace CBigNum

def setCompact (nCompact : UInt32) : ℤ :=
  let nSize := (nCompact >>> 24).toNat
  let vch := [(nCompact >>> 16).toUInt8, (nCompact >>> 8).toUInt8, nCompact.toUInt8]
  mpi2bn (vch.take nSize ++ List.replicate (nSize - 3) 0)

/-- `getuint256`: the sign is masked, and at most 32 bytes are taken from the end. -/
def getuint256 (bn : ℤ) : Uint256 :=
  let vch := (bn2mpi bn).modify 0 (· &&& 0x7f)
  .ofNat 256 (ofLittleEndian (vch.reverse.take 32))

end CBigNum

def Uint256.pn (a : Uint256) : List (BitVec 32) := words 32 8 a.toNat

/-- `base_uint::operator+=` -/
def Uint256.addAssign (a b : Uint256) : Uint256 := .ofNat 256 (value (addCarry 0 a.pn b.pn))

/-- `CBlockIndex::GetBlockTrust` -/
def BlockIndex.getBlockTrust (e : BlockIndex) : Uint256 :=
  let bnTarget := CBigNum.setCompact e.header.nBits
  if bnTarget ≤ 0 then 0 else CBigNum.getuint256 (2 ^ 256 / (bnTarget + 1))

/-- `nChainTrust` as `AddToBlockIndex` computes it for each block of a chain. -/
def BlockPtr.accumulatedTrust : BlockPtr → Uint256
  | [] => 0
  | e :: pprev => (accumulatedTrust pprev).addAssign e.getBlockTrust

theorem ofLittleEndian_append (vch vch' : List UInt8) :
    ofLittleEndian (vch ++ vch') = ofLittleEndian vch + 256 ^ vch.length * ofLittleEndian vch' := by
  induction vch with
  | nil => simp [ofLittleEndian]
  | cons b vch ih =>
    rw [List.cons_append, ofLittleEndian, ofLittleEndian, ih, List.length_cons, Nat.pow_succ]
    ring

theorem ofLittleEndian_replicate_zero (n : ℕ) : ofLittleEndian (List.replicate n 0) = 0 := by
  induction n with
  | zero => rfl
  | succ n ih =>
    rw [List.replicate_succ, ofLittleEndian, ih]
    rfl

theorem ofLittleEndian_eq_vchValue (vch : List UInt8) : ofLittleEndian vch = vchValue vch := by
  induction vch with
  | nil => rfl
  | cons b vch ih => rw [ofLittleEndian, vchValue, ih]

theorem ofLittleEndian_getvch (n : ℕ) : ofLittleEndian (getvch n) = n := by
  rw [ofLittleEndian_eq_vchValue, vchValue_getvch]

theorem ofLittleEndian_take (n : ℕ) (vch : List UInt8) :
    ofLittleEndian (vch.take n) = ofLittleEndian vch % 256 ^ n := by
  have hsplit := ofLittleEndian_append (vch.take n) (vch.drop n)
  rw [List.take_append_drop] at hsplit
  rcases Nat.lt_or_ge vch.length n with hlt | hle
  · have hbound := ofLittleEndian_lt vch
    have hpow := Nat.pow_le_pow_right (show 0 < 256 by decide) hlt.le
    rw [List.take_of_length_le hlt.le, Nat.mod_eq_of_lt (hbound.trans_le hpow)]
  · have hlen : (vch.take n).length = n := List.length_take_of_le hle
    have hbound := ofLittleEndian_lt (vch.take n)
    rw [hlen] at hsplit hbound
    rw [hsplit, Nat.add_mul_mod_self_left, Nat.mod_eq_of_lt hbound]

theorem forall_byte {p : UInt8 → Bool}
    (h : (List.range 256).all (fun n => p (.ofNat n)) = true) (b : UInt8) : p b = true := by
  have hb := List.all_eq_true.mp h b.toNat (List.mem_range.mpr b.toNat_lt)
  rwa [UInt8.ofNat_toNat] at hb

theorem mask_of_lt {b : UInt8} (h : b < 0x80) : b &&& 0x7f = b ∧ (b ||| 0x80) &&& 0x7f = b := by
  have hall := forall_byte (p := fun b => !decide (b < 0x80) ||
    (b &&& 0x7f == b && (b ||| 0x80) &&& 0x7f == b)) (by decide +kernel) b
  simpa [h] using hall

theorem getvch_eq_concat {n : ℕ} (hn : n ≠ 0) :
    ∃ (front : List UInt8) (back : UInt8), getvch n = front ++ [back] ∧ back < 0x80 := by
  have hne : vchBytes n n ≠ [] := by
    cases n with
    | zero => exact absurd rfl hn
    | succ n => simp [vchBytes]
  obtain ⟨front, back, hvch⟩ := (List.eq_nil_or_concat (vchBytes n n)).resolve_left hne
  rw [List.concat_eq_append] at hvch
  have hany : ((vchBytes n n).getLast?.any fun b => 128 ≤ b) = decide (128 ≤ back) := by
    rw [hvch, List.getLast?_concat, Option.any_some]
  simp only [getvch, hany]
  split
  · exact ⟨vchBytes n n, 0, rfl, by decide⟩
  · rename_i hback
    refine ⟨front, back, hvch, UInt8.not_le.mp ?_⟩
    simpa using hback

theorem modify_concat {α : Type} (front : List α) (back : α) (f : α → α) :
    (front ++ [back]).modify front.length f = front ++ [f back] := by
  induction front with
  | nil => rfl
  | cons a front ih => exact congrArg (List.cons a) ih

theorem modify_reverse_zero {α : Type} (front : List α) (back : α) (f : α → α) :
    ((front ++ [back]).reverse.modify 0 f).reverse = front ++ [f back] := by
  simp

theorem reverse_mask_bn2mpi (bn : ℤ) :
    ((bn2mpi bn).modify 0 (· &&& 0x7f)).reverse = getvch bn.natAbs := by
  by_cases hn : bn.natAbs = 0
  · obtain rfl := Int.natAbs_eq_zero.mp hn
    rfl
  · obtain ⟨front, back, hvch, hback⟩ := getvch_eq_concat hn
    obtain ⟨hclear, hsign⟩ := mask_of_lt hback
    rw [bn2mpi, signedVch, hvch]
    split
    · rw [List.length_append, List.length_singleton, Nat.add_sub_cancel]
      rw [modify_concat, modify_reverse_zero, hsign]
    · rw [modify_reverse_zero, hclear]

theorem CBigNum.getuint256_eq (bn : ℤ) :
    CBigNum.getuint256 bn = .ofNat 256 bn.natAbs := by
  rw [CBigNum.getuint256, reverse_mask_bn2mpi, ofLittleEndian_take, ofLittleEndian_getvch]
  apply BitVec.eq_of_toNat_eq
  rw [BitVec.toNat_ofNat, BitVec.toNat_ofNat, show 256 ^ 32 = 2 ^ 256 by norm_num, Nat.mod_mod]

theorem setvch_concat (front : List UInt8) (back : UInt8) :
    let magnitude := ofLittleEndian front + 256 ^ front.length * (back.toNat % 128)
    setvch (front ++ [back]) = if back.toNat < 128 then (magnitude : ℤ) else -magnitude := by
  have hbyte : ∀ b : UInt8, ofLittleEndian [b] = b.toNat := fun b => Nat.add_zero _
  have hlt : back < 0x80 ↔ back.toNat < 128 := UInt8.lt_iff_toNat_lt
  have hand : (back &&& 0x7f).toNat = back.toNat % 128 := by
    rw [UInt8.toNat_and]
    exact Nat.and_two_pow_sub_one_eq_mod _ 7
  rw [setvch, List.getLast?_concat]
  dsimp only
  split_ifs with h h' h'
  · rw [ofLittleEndian_append, hbyte, Nat.mod_eq_of_lt h']
  · exact absurd (hlt.mp h) h'
  · exact absurd (hlt.mpr h') h
  · rw [List.dropLast_concat, ofLittleEndian_append, hbyte, hand]

theorem CBigNum.setCompact_eq (nCompact : UInt32) :
    CBigNum.setCompact nCompact = Beancash.setCompact nCompact := by
  have hN := nCompact.toNat_lt
  have hsize : (nCompact >>> 24).toNat = nCompact.toNat / 2 ^ 24 := by
    rw [UInt32.toNat_shiftRight, Nat.shiftRight_eq_div_pow]
    rfl
  have h1 : ((nCompact >>> 16).toUInt8).toNat = nCompact.toNat / 2 ^ 16 % 256 := by
    rw [UInt32.toNat_toUInt8, UInt32.toNat_shiftRight, Nat.shiftRight_eq_div_pow]
    rfl
  have h2 : ((nCompact >>> 8).toUInt8).toNat = nCompact.toNat / 2 ^ 8 % 256 := by
    rw [UInt32.toNat_toUInt8, UInt32.toNat_shiftRight, Nat.shiftRight_eq_div_pow]
    rfl
  have h3 : nCompact.toUInt8.toNat = nCompact.toNat % 256 := UInt32.toNat_toUInt8 _
  have hsign : nCompact.toNat / 2 ^ 16 % 256 < 128 ↔ ¬nCompact.toNat / 2 ^ 23 % 2 = 1 := by omega
  have hword : nCompact.toNat % 2 ^ 23 = nCompact.toNat % 256 +
      256 * (nCompact.toNat / 2 ^ 8 % 256) + 65536 * (nCompact.toNat / 2 ^ 16 % 256 % 128) := by
    omega
  unfold CBigNum.setCompact Beancash.setCompact
  dsimp only
  rw [hsize]
  generalize (nCompact >>> 16).toUInt8 = b1 at h1
  generalize (nCompact >>> 8).toUInt8 = b2 at h2
  generalize nCompact.toUInt8 = b3 at h3
  generalize nCompact.toNat / 2 ^ 24 = nSize
  -- a size below three cuts the mantissa off, one above it shifts it
  have hshift : ∀ (front : List UInt8) (magnitude : ℕ),
      ofLittleEndian front + 256 ^ front.length * (b1.toNat % 128) = magnitude →
      setvch (front ++ [b1]) =
        if nCompact.toNat / 2 ^ 23 % 2 = 1 then -(magnitude : ℤ) else magnitude := by
    rintro front _ rfl
    rw [setvch_concat, h1]
    split_ifs with h h' h'
    · exact absurd h' (hsign.mp h)
    · rfl
    · rfl
    · exact absurd (hsign.mpr h') h
  rcases nSize with _ | _ | _ | n
  · have hzero : nCompact.toNat % 2 ^ 23 / 256 ^ 3 = 0 := by omega
    change setvch [] = _
    rw [if_pos (show 0 ≤ 3 from Nat.zero_le 3), Nat.sub_zero, hzero]
    split <;> rfl
  · refine hshift [] _ ?_
    rw [if_pos (by omega), hword, h1]
    simp only [ofLittleEndian, List.length_nil]
    omega
  · refine hshift [b2] _ ?_
    rw [if_pos (by decide), hword, h1]
    simp only [ofLittleEndian, List.length_singleton, h2]
    omega
  · have hvch : ([b1, b2, b3].take (n + 3) ++ List.replicate (n + 3 - 3) 0).reverse =
        (List.replicate n 0 ++ [b3, b2]) ++ [b1] := by
      simp
    rw [mpi2bn, hvch]
    refine hshift _ _ ?_
    rw [ofLittleEndian_append, ofLittleEndian_replicate_zero, List.length_append,
      List.length_replicate]
    simp only [ofLittleEndian, List.length_cons, List.length_nil, h1, h2, h3, hword]
    rw [Nat.pow_add]
    split
    · rename_i hle
      obtain rfl : n = 0 := by omega
      omega
    · rw [show n + 1 + 1 + 1 - 3 = n by omega]
      ring

theorem Uint256.addAssign_eq (a b : Uint256) : a.addAssign b = a + b := by
  have hlen : a.pn.length = b.pn.length := by rw [pn, pn, length_words, length_words]
  apply BitVec.eq_of_toNat_eq
  rw [addAssign, value_addCarry 0 hlen, pn, pn, length_words, value_words, value_words,
    BitVec.toNat_ofNat, BitVec.toNat_add]
  omega

/-- The target that the bits of a block encode. -/
def BlockIndex.target (e : BlockIndex) : ℤ := CBigNum.setCompact e.header.nBits

theorem BlockIndex.getBlockTrust_eq (e : BlockIndex) :
    e.getBlockTrust = blockTrust e.header.nBits := by
  unfold getBlockTrust blockTrust
  rw [CBigNum.setCompact_eq]
  dsimp only
  split
  · rfl
  · rename_i hpos
    have hnonneg : (0 : ℤ) ≤ 2 ^ 256 / (Beancash.setCompact e.header.nBits + 1) :=
      Int.ediv_nonneg (by norm_num) (by omega)
    rw [CBigNum.getuint256_eq]
    obtain ⟨n, hn⟩ := Int.eq_ofNat_of_zero_le hnonneg
    rw [hn]
    rfl

theorem BlockPtr.accumulatedTrust_eq (p : BlockPtr) :
    accumulatedTrust p = nChainTrust p := by
  induction p with
  | nil => rfl
  | cons e p ih =>
    rw [accumulatedTrust, Uint256.addAssign_eq, ih, e.getBlockTrust_eq, nChainTrust, nChainTrust,
      List.map_cons, List.sum_cons, BitVec.add_comm]

theorem BlockIndex.toNat_getBlockTrust {e : BlockIndex} (hpos : 0 < e.target)
    (hlt : e.target < 2 ^ 256) :
    (e.getBlockTrust.toNat : ℤ) = 2 ^ 256 / (e.target + 1) ∧ 0 < e.getBlockTrust.toNat := by
  have hle : 2 ^ 256 / (e.target + 1) < 2 ^ 256 := Int.ediv_lt_of_lt_mul (by omega) (by omega)
  have hone : 1 ≤ 2 ^ 256 / (e.target + 1) := (Int.le_ediv_iff_mul_le (by omega)).mpr (by omega)
  have htrust : (e.getBlockTrust.toNat : ℤ) = 2 ^ 256 / (e.target + 1) := by
    unfold getBlockTrust
    dsimp only
    rw [if_neg (show ¬CBigNum.setCompact e.header.nBits ≤ 0 from not_le.mpr hpos),
      CBigNum.getuint256_eq, BitVec.toNat_ofNat]
    change ((((2 ^ 256 / (e.target + 1)).natAbs % 2 ^ 256 : ℕ)) : ℤ) = _
    omega
  exact ⟨htrust, by omega⟩

theorem BlockIndex.getBlockTrust_lt {e : BlockIndex} (hle : 2 ^ 32 ≤ e.target)
    (hlt : e.target < 2 ^ 256) : e.getBlockTrust.toNat < 2 ^ 224 := by
  have htrust := (toNat_getBlockTrust (by omega) hlt).1
  have hquot : 2 ^ 256 / (e.target + 1) < 2 ^ 224 := Int.ediv_lt_of_lt_mul (by omega) (by omega)
  omega

theorem BlockPtr.sum_getBlockTrust_le {p : BlockPtr}
    (h : ∀ e ∈ p, 2 ^ 32 ≤ e.target ∧ e.target < 2 ^ 256) :
    (p.map fun e => e.getBlockTrust.toNat).sum ≤ p.length * 2 ^ 224 := by
  induction p with
  | nil => exact Nat.zero_le _
  | cons e p ih =>
    have hlt := BlockIndex.getBlockTrust_lt (h e List.mem_cons_self).1 (h e List.mem_cons_self).2
    have hrest := ih fun d hd => h d (List.mem_cons_of_mem e hd)
    rw [List.map_cons, List.sum_cons, List.length_cons, Nat.succ_mul]
    omega

theorem BlockPtr.toNat_accumulatedTrust {p : BlockPtr} (hlen : p.length < 2 ^ 32)
    (h : ∀ e ∈ p, 2 ^ 32 ≤ e.target ∧ e.target < 2 ^ 256) :
    (accumulatedTrust p).toNat = (p.map fun e => e.getBlockTrust.toNat).sum := by
  induction p with
  | nil => rfl
  | cons e p ih =>
    have hle := sum_getBlockTrust_le h
    have hrest := ih (by rw [List.length_cons] at hlen; omega)
      fun d hd => h d (List.mem_cons_of_mem e hd)
    rw [List.map_cons, List.sum_cons] at hle ⊢
    rw [accumulatedTrust, Uint256.addAssign_eq, BitVec.toNat_add, hrest, Nat.add_comm]
    refine Nat.mod_eq_of_lt (hle.trans_lt ?_)
    omega

/-- The trust of a block is the quotient itself, which has 256 bits and is positive; and along a
chain of fewer than `2^32` blocks with targets of at least `2^32` the trust is the sum of the
trusts of its blocks and grows with each of them. -/
theorem blockTrust_exact :
    (∀ e : BlockIndex, 0 < e.target → e.target < 2 ^ 256 →
      (e.getBlockTrust.toNat : ℤ) = 2 ^ 256 / (e.target + 1) ∧
        2 ^ 256 / (e.target + 1) < 2 ^ 256 ∧ 0 < e.getBlockTrust) ∧
    ∀ p : BlockPtr, p.length < 2 ^ 32 → (∀ e ∈ p, 2 ^ 32 ≤ e.target ∧ e.target < 2 ^ 256) →
      ∀ q, q <:+ p →
        (BlockPtr.accumulatedTrust q).toNat = (q.map fun e => e.getBlockTrust.toNat).sum ∧
        ∀ e pprev, q = e :: pprev →
          BlockPtr.accumulatedTrust pprev < BlockPtr.accumulatedTrust q := by
  constructor
  · intro e hpos hlt
    obtain ⟨htrust, hone⟩ := BlockIndex.toNat_getBlockTrust hpos hlt
    have hbits := e.getBlockTrust.isLt
    exact ⟨htrust, by omega, BitVec.lt_def.mpr hone⟩
  · intro p hlen h q hq
    have hq' : ∀ e ∈ q, 2 ^ 32 ≤ e.target ∧ e.target < 2 ^ 256 := fun e he => h e (hq.mem he)
    have hlen' : q.length < 2 ^ 32 := hq.length_le.trans_lt hlen
    have hsum := BlockPtr.toNat_accumulatedTrust hlen' hq'
    refine ⟨hsum, ?_⟩
    rintro e pprev rfl
    have hrest := BlockPtr.toNat_accumulatedTrust (p := pprev)
      (by rw [List.length_cons] at hlen'; omega) fun d hd => hq' d (List.mem_cons_of_mem e hd)
    have hbounds := hq' e List.mem_cons_self
    have hpos := (BlockIndex.toNat_getBlockTrust (e := e) (by omega) hbounds.2).2
    rw [BitVec.lt_def, hsum, hrest, List.map_cons, List.sum_cons]
    omega

open Sample in
/-- The trust in the branch of the first two blocks. -/
theorem blockTrust_exact_first :
    (BlockPtr.accumulatedTrust [entry first, entry genesis]).toNat = 4 ∧
      BlockPtr.accumulatedTrust [entry genesis] <
        BlockPtr.accumulatedTrust [entry first, entry genesis] := by
  have hbounds : ∀ e ∈ [entry first, entry genesis], 2 ^ 32 ≤ e.target ∧ e.target < 2 ^ 256 := by
    intro e he
    have hall : [entry first, entry genesis].all
        (fun e => decide (2 ^ 32 ≤ e.target ∧ e.target < 2 ^ 256)) = true := by decide +kernel
    exact of_decide_eq_true (List.all_eq_true.mp hall e he)
  have hgrows := blockTrust_exact.2 [entry first, entry genesis] (by decide) hbounds _
    List.suffix_rfl
  refine ⟨hgrows.1.trans ?_, hgrows.2 _ _ rfl⟩
  decide +kernel

end Beancash
