import Beancash.BlockValues

namespace Beancash

def GetMinFeeMode.baseFee (mode : GetMinFeeMode) : Int64 :=
  if mode = .relay then minRelayTxFee else minTxFee

/-- The result of an operation on `unsigned int`s, if it does not wrap. -/
def exactUInt32 (x : ℤ) : Option ℤ := if 0 ≤ x ∧ x < 2 ^ 32 then some x else none

/-- The result of an operation on `int64_t`s, if it does not overflow. -/
def exactInt64 (x : ℤ) : Option ℤ := if FitsInt64 x then some x else none

def exactDiv (x y : ℤ) : Option ℤ := if y = 0 then none else some (x.tdiv y)

/-- A fee out of the range of money is all of it. -/
def clampFee (nMinFee : ℤ) : ℤ :=
  if 0 ≤ nMinFee ∧ nMinFee ≤ maxMoney.toInt then nMinFee else maxMoney.toInt

/-- `GetMinFee`, operation by operation. -/
def getMinFeeExact (tx : Transaction) (nBlockSize : UInt32) (mode : GetMinFeeMode) : Option ℤ := do
  let nBaseFee := mode.baseFee.toInt
  let nBytes ← exactUInt32 tx.serializeSize
  let nNewBlockSize ← exactUInt32 (nBlockSize.toNat + nBytes)
  let nKilobytes ← exactDiv nBytes 1000
  let nMinFee ← exactInt64 ((← exactInt64 (1 + nKilobytes)) * nBaseFee)
  let nMinFee := if nMinFee < nBaseFee ∧ tx.vout.any (fun o => o.nValue < cent) then nBaseFee
    else nMinFee
  if nBlockSize ≠ 1 ∧ (maxBlockSizeGen / 2 : ℕ) ≤ nNewBlockSize then
    if (maxBlockSizeGen : ℤ) ≤ nNewBlockSize then pure maxMoney.toInt
    else
      let nLeft ← exactUInt32 (maxBlockSizeGen - nNewBlockSize)
      let nFull ← exactDiv maxBlockSizeGen nLeft
      pure (clampFee (← exactInt64 (nMinFee * nFull)))
  else pure (clampFee nMinFee)

theorem clampFee_of_le {n : ℕ} (h : n ≤ maxMoney.toInt.toNat) : clampFee n = n := by
  have hmax : maxMoney.toInt = (2100000000000000000 : ℕ) := rfl
  rw [clampFee, if_pos ⟨by omega, by omega⟩]

/-- What a transaction of `nBytes` pays in an empty block. -/
def sizeFee (nBytes : ℕ) : ℕ := (1 + nBytes / 1000) * 1000000

/-- What it pays where the block comes to `nNewBlockSize` with it. -/
def crowdedFee (nBytes nNewBlockSize : ℕ) : ℕ :=
  if nNewBlockSize < maxBlockSizeGen / 2 then sizeFee nBytes
  else if nNewBlockSize < maxBlockSizeGen then
    sizeFee nBytes * (maxBlockSizeGen / (maxBlockSizeGen - nNewBlockSize))
  else maxMoney.toInt.toNat

theorem baseFee_eq (mode : GetMinFeeMode) : mode.baseFee = 1000000 := by
  cases mode <;> rfl

theorem sizeFee_le {nBytes : ℕ} (h : nBytes < 2 ^ 32) : sizeFee nBytes ≤ 4294968000000 := by
  unfold sizeFee
  omega

theorem crowded_product_le {nBytes nNewBlockSize : ℕ} (hbytes : nBytes ≤ nNewBlockSize)
    (hnew : nNewBlockSize < maxBlockSizeGen) :
    sizeFee nBytes * (maxBlockSizeGen / (maxBlockSizeGen - nNewBlockSize)) ≤ 10 ^ 17 := by
  have hgen : maxBlockSizeGen = 10000000 := rfl
  have hsize : sizeFee nBytes ≤ 10000000000 := by
    unfold sizeFee
    omega
  calc
    _ ≤ 10000000000 * maxBlockSizeGen := Nat.mul_le_mul hsize (Nat.div_le_self _ _)
    _ = 10 ^ 17 := by rw [hgen]; norm_num

theorem crowdedFee_le {nBytes nNewBlockSize : ℕ} (hbytes : nBytes ≤ nNewBlockSize)
    (hnew : nNewBlockSize < 2 ^ 32) : crowdedFee nBytes nNewBlockSize ≤ maxMoney.toInt.toNat := by
  have hmax : maxMoney.toInt.toNat = 2100000000000000000 := rfl
  unfold crowdedFee
  split_ifs with hhalf hfull
  · have hle := sizeFee_le (lt_of_le_of_lt hbytes hnew)
    omega
  · have hle := crowded_product_le hbytes hfull
    omega
  · exact le_rfl

theorem sizeFee_le_crowdedFee {nBytes nNewBlockSize : ℕ} (hbytes : nBytes ≤ nNewBlockSize)
    (hnew : nNewBlockSize < 2 ^ 32) : sizeFee nBytes ≤ crowdedFee nBytes nNewBlockSize := by
  have hmax : maxMoney.toInt.toNat = 2100000000000000000 := rfl
  unfold crowdedFee
  split_ifs with hhalf hfull
  · exact le_rfl
  · apply Nat.le_mul_of_pos_right
    exact Nat.div_pos (by omega) (by omega)
  · have hle := sizeFee_le (lt_of_le_of_lt hbytes hnew)
    omega

theorem crowdedFee_mono {nBytes a b : ℕ} (hbytes : nBytes ≤ a) (hab : a ≤ b) (hb : b < 2 ^ 32) :
    crowdedFee nBytes a ≤ crowdedFee nBytes b := by
  by_cases hhalf : a < maxBlockSizeGen / 2
  · rw [crowdedFee, if_pos hhalf]
    exact sizeFee_le_crowdedFee (by omega) hb
  · by_cases hfull : b < maxBlockSizeGen
    · rw [crowdedFee, if_neg hhalf, if_pos (by omega), crowdedFee, if_neg (by omega), if_pos hfull]
      apply Nat.mul_le_mul_left
      apply Nat.div_le_div_left
      · omega
      · omega
    · have hlast : crowdedFee nBytes b = maxMoney.toInt.toNat := by
        rw [crowdedFee, if_neg (by omega), if_neg hfull]
      rw [hlast]
      exact crowdedFee_le hbytes (by omega)

/-- The fee that `GetMinFee` is to come to. A block size of 1 stands for no block. -/
def blockFee (nBlockSize nBytes : ℕ) : ℕ :=
  if nBlockSize = 1 then sizeFee nBytes else crowdedFee nBytes (nBlockSize + nBytes)

theorem toInt_mul_of_fits {a b : Int64} (h : FitsInt64 (a.toInt * b.toInt)) :
    (a * b).toInt = a.toInt * b.toInt := by
  obtain ⟨hlow, hhigh⟩ := h
  rw [Int64.toInt_mul]
  exact Int.bmod_eq_of_le (by omega) (by omega)

theorem toInt_sizeFee {nBytes : ℕ} (h : nBytes < 2 ^ 32) :
    ((1 + Int64.ofNat nBytes / 1000) * 1000000 : Int64).toInt = sizeFee nBytes := by
  have hbytes : (Int64.ofNat nBytes).toInt = nBytes := Int64.toInt_ofNat_of_lt (by omega)
  have hdiv : (Int64.ofNat nBytes / 1000).toInt = (nBytes / 1000 : ℕ) := by
    rw [Int64.toInt_div, hbytes]
    have htdiv : (nBytes : ℤ).tdiv (1000 : Int64).toInt = (nBytes / 1000 : ℕ) := by
      rw [show (1000 : Int64).toInt = 1000 from rfl]
      exact Int.tdiv_eq_ediv_of_nonneg (by omega)
    rw [htdiv]
    exact Int.bmod_eq_of_le (by omega) (by omega)
  have hone : (1 + Int64.ofNat nBytes / 1000).toInt = (1 + nBytes / 1000 : ℕ) := by
    rw [toInt_add_of_fits] <;> rw [hdiv, show (1 : Int64).toInt = 1 from rfl]
    · omega
    · exact ⟨by omega, by omega⟩
  rw [toInt_mul_of_fits] <;> rw [hone, show (1000000 : Int64).toInt = 1000000 from rfl]
  · rw [sizeFee]
    omega
  · exact ⟨by omega, by omega⟩

theorem moneyRange_of_toInt {nMinFee : Int64} {n : ℕ} (h : nMinFee.toInt = n)
    (hle : n ≤ maxMoney.toInt.toNat) : moneyRange nMinFee = true := by
  have hmax : maxMoney.toInt = (2100000000000000000 : ℕ) := rfl
  rw [moneyRange, Bool.and_eq_true, decide_eq_true_eq, decide_eq_true_eq, Int64.le_iff_toInt_le,
    Int64.le_iff_toInt_le, h]
  exact ⟨Int.natCast_nonneg n, by omega⟩

variable {tx : Transaction} {nBlockSize : UInt32} {mode : GetMinFeeMode}

theorem getMinFee_eq (h : nBlockSize.toNat + tx.serializeSize < 2 ^ 32) :
    getMinFee tx nBlockSize mode =
      let nMinFee : Int64 := (1 + .ofNat tx.serializeSize / 1000) * 1000000
      if nBlockSize.toNat ≠ 1 ∧ maxBlockSizeGen / 2 ≤ nBlockSize.toNat + tx.serializeSize then
        if maxBlockSizeGen ≤ nBlockSize.toNat + tx.serializeSize then maxMoney
        else
          let nMinFee := nMinFee *
            .ofNat (maxBlockSizeGen / (maxBlockSizeGen - (nBlockSize.toNat + tx.serializeSize)))
          if moneyRange nMinFee then nMinFee else maxMoney
      else nMinFee := by
  have hbytes : (UInt32.ofNat tx.serializeSize).toNat = tx.serializeSize :=
    UInt32.toNat_ofNat_of_lt' (show tx.serializeSize < 2 ^ 32 by omega)
  have hnew : (nBlockSize + .ofNat tx.serializeSize).toNat =
      nBlockSize.toNat + tx.serializeSize := by
    rw [UInt32.toNat_add, hbytes]
    exact Nat.mod_eq_of_lt h
  have hone : (nBlockSize != 1) = decide (nBlockSize.toNat ≠ 1) := by
    simp [bne, BEq.beq, UInt32.ext_iff]
  have hbase : (if mode = .relay then minRelayTxFee else minTxFee) = 1000000 := baseFee_eq mode
  have hfee := toInt_sizeFee (show tx.serializeSize < 2 ^ 32 by omega)
  have hle := sizeFee_le (show tx.serializeSize < 2 ^ 32 by omega)
  have hrange := moneyRange_of_toInt hfee (by
    have hmax : maxMoney.toInt.toNat = 2100000000000000000 := rfl
    omega)
  -- the fee of the size is at least the base fee
  have hlt : ¬ (1 + Int64.ofNat tx.serializeSize / 1000) * 1000000 < (1000000 : Int64) := by
    rw [Int64.lt_iff_toInt_lt, hfee, show (1000000 : Int64).toInt = 1000000 from rfl, sizeFee]
    omega
  unfold getMinFee
  simp only [hbase, hbytes, hnew, hone, decide_eq_false hlt, Bool.false_and, Bool.false_eq_true,
    if_false, hrange, if_true, Bool.and_eq_true, decide_eq_true_eq]

theorem toInt_getMinFee (h : nBlockSize.toNat + tx.serializeSize < 2 ^ 32) :
    (getMinFee tx nBlockSize mode).toInt = blockFee nBlockSize.toNat tx.serializeSize := by
  have hfee := toInt_sizeFee (show tx.serializeSize < 2 ^ 32 by omega)
  rw [getMinFee_eq h, blockFee, crowdedFee]
  dsimp only
  by_cases hone : nBlockSize.toNat = 1
  · rw [if_neg (by simp [hone]), if_pos hone, hfee]
  rw [if_neg hone]
  by_cases hhalf : nBlockSize.toNat + tx.serializeSize < maxBlockSizeGen / 2
  · rw [if_neg (by omega), if_pos hhalf, hfee]
  rw [if_pos ⟨hone, by omega⟩, if_neg hhalf]
  by_cases hfull : nBlockSize.toNat + tx.serializeSize < maxBlockSizeGen
  · have hle := crowded_product_le (Nat.le_add_left tx.serializeSize nBlockSize.toNat) hfull
    have hgen : maxBlockSizeGen = 10000000 := rfl
    have hquotient : (Int64.ofNat (maxBlockSizeGen /
        (maxBlockSizeGen - (nBlockSize.toNat + tx.serializeSize)))).toInt =
        (maxBlockSizeGen / (maxBlockSizeGen - (nBlockSize.toNat + tx.serializeSize)) : ℕ) := by
      apply Int64.toInt_ofNat_of_lt
      exact lt_of_le_of_lt (Nat.div_le_self _ _) (by omega)
    have hproduct := toInt_mul_of_fits (a := (1 + .ofNat tx.serializeSize / 1000) * 1000000)
      (b := .ofNat (maxBlockSizeGen / (maxBlockSizeGen - (nBlockSize.toNat + tx.serializeSize))))
      (by
        rw [hfee, hquotient, ← Nat.cast_mul]
        exact ⟨by omega, by omega⟩)
    rw [hfee, hquotient, ← Nat.cast_mul] at hproduct
    have hmax : maxMoney.toInt.toNat = 2100000000000000000 := rfl
    rw [if_neg (by omega), if_pos hfull, if_pos (moneyRange_of_toInt hproduct (by omega)), hproduct]
  · rw [if_pos (by omega), if_neg hfull]
    rfl

theorem getMinFeeExact_eq (h : nBlockSize.toNat + tx.serializeSize < 2 ^ 32) :
    getMinFeeExact tx nBlockSize mode =
      some (blockFee nBlockSize.toNat tx.serializeSize : ℤ) := by
  have hbytes : exactUInt32 tx.serializeSize = some (tx.serializeSize : ℤ) := if_pos (by omega)
  have hnew : exactUInt32 (nBlockSize.toNat + tx.serializeSize) =
      some (nBlockSize.toNat + tx.serializeSize : ℤ) := if_pos (by omega)
  have hdiv : exactDiv tx.serializeSize 1000 = some ((tx.serializeSize / 1000 : ℕ) : ℤ) := by
    rw [exactDiv, if_neg (by decide), Int.tdiv_eq_ediv_of_nonneg (by omega), Int.natCast_ediv,
      Nat.cast_ofNat]
  have hone : exactInt64 (1 + (tx.serializeSize / 1000 : ℕ)) =
      some ((1 + tx.serializeSize / 1000 : ℕ) : ℤ) := by
    rw [exactInt64, if_pos ⟨by omega, by omega⟩]
    simp
  have hbase : mode.baseFee.toInt = 1000000 := by
    rw [baseFee_eq]
    rfl
  have hfee : exactInt64 ((1 + tx.serializeSize / 1000 : ℕ) * 1000000) =
      some (sizeFee tx.serializeSize : ℤ) := by
    rw [exactInt64, if_pos ⟨by omega, by omega⟩, sizeFee]
    simp
  have hle := sizeFee_le (show tx.serializeSize < 2 ^ 32 by omega)
  have hmax : maxMoney.toInt.toNat = 2100000000000000000 := rfl
  have hgen : maxBlockSizeGen = 10000000 := rfl
  have hlt : ¬ ((sizeFee tx.serializeSize : ℤ) < 1000000 ∧
      (tx.vout.any fun o => decide (o.nValue < cent)) = true) := by
    unfold sizeFee
    omega
  have hone' : nBlockSize ≠ 1 ↔ nBlockSize.toNat ≠ 1 := by
    simp [UInt32.ext_iff]
  unfold getMinFeeExact
  rw [hbytes, hbase, Option.bind_eq_bind, Option.bind_some, hnew, Option.bind_some, hdiv,
    Option.bind_some, hone, Option.bind_some, hfee, Option.bind_some, if_neg hlt]
  simp only [hone']
  rw [blockFee, crowdedFee]
  by_cases hsize : nBlockSize.toNat = 1
  · rw [if_neg (by simp [hsize]), if_pos hsize, clampFee_of_le (by omega), Option.pure_def]
  rw [if_neg hsize]
  by_cases hhalf : nBlockSize.toNat + tx.serializeSize < maxBlockSizeGen / 2
  · rw [if_neg (by omega), if_pos hhalf, clampFee_of_le (by omega), Option.pure_def]
  rw [if_pos ⟨hsize, by omega⟩, if_neg hhalf]
  by_cases hfull : nBlockSize.toNat + tx.serializeSize < maxBlockSizeGen
  · have hproduct := crowded_product_le (Nat.le_add_left tx.serializeSize nBlockSize.toNat) hfull
    have hleft : exactUInt32 (maxBlockSizeGen - (nBlockSize.toNat + tx.serializeSize : ℤ)) =
        some ((maxBlockSizeGen - (nBlockSize.toNat + tx.serializeSize) : ℕ) : ℤ) := by
      rw [exactUInt32, if_pos ⟨by omega, by omega⟩, Nat.cast_sub hfull.le, Nat.cast_add]
    have hquotient : exactDiv maxBlockSizeGen
        (maxBlockSizeGen - (nBlockSize.toNat + tx.serializeSize) : ℕ) =
        some ((maxBlockSizeGen / (maxBlockSizeGen - (nBlockSize.toNat + tx.serializeSize)) : ℕ) :
          ℤ) := by
      rw [exactDiv, if_neg (by omega), Int.tdiv_eq_ediv_of_nonneg (by omega), Int.natCast_ediv]
    rw [if_neg (by omega), if_pos hfull, hleft, Option.bind_some, hquotient, Option.bind_some,
      ← Nat.cast_mul, exactInt64, if_pos ⟨by omega, by omega⟩, Option.bind_some,
      clampFee_of_le (by omega), Option.pure_def]
  · rw [if_pos (by omega), if_neg hfull]
    rfl

/-- For a transaction and blocks that stay below 2^32 bytes together, the fee grows with the block,
lies between the base fee and all the money, and is computed without wrapping. -/
theorem getMinFee_mono (tx : Transaction) (mode : GetMinFeeMode) :
    (∀ a b : UInt32, a ≤ b → a ≠ 1 → b ≠ 1 → b.toNat + tx.serializeSize < 2 ^ 32 →
      getMinFee tx a mode ≤ getMinFee tx b mode) ∧
    ∀ nBlockSize : UInt32, nBlockSize.toNat + tx.serializeSize < 2 ^ 32 →
      (mode.baseFee ≤ getMinFee tx nBlockSize mode ∧ getMinFee tx nBlockSize mode ≤ maxMoney) ∧
      getMinFeeExact tx nBlockSize mode = some (getMinFee tx nBlockSize mode).toInt := by
  constructor
  · intro a b hab ha hb hsize
    have hle : a.toNat ≤ b.toNat := hab
    have ha' : a.toNat ≠ 1 := fun h => ha (UInt32.toNat_inj.mp h)
    have hb' : b.toNat ≠ 1 := fun h => hb (UInt32.toNat_inj.mp h)
    rw [Int64.le_iff_toInt_le, toInt_getMinFee (by omega), toInt_getMinFee hsize, blockFee, blockFee,
      if_neg ha', if_neg hb']
    exact_mod_cast crowdedFee_mono (Nat.le_add_left _ _) (Nat.add_le_add_right hle _) hsize
  · intro nBlockSize hsize
    have hfee : sizeFee tx.serializeSize ≤ blockFee nBlockSize.toNat tx.serializeSize := by
      unfold blockFee
      split
      · exact le_rfl
      · exact sizeFee_le_crowdedFee (Nat.le_add_left _ _) hsize
    have hmax : blockFee nBlockSize.toNat tx.serializeSize ≤ maxMoney.toInt.toNat := by
      have hmoney : maxMoney.toInt.toNat = 2100000000000000000 := rfl
      unfold blockFee
      split
      · have hle := sizeFee_le (show tx.serializeSize < 2 ^ 32 by omega)
        omega
      · exact crowdedFee_le (Nat.le_add_left _ _) hsize
    have hbase : 1000000 ≤ sizeFee tx.serializeSize := by
      unfold sizeFee
      omega
    rw [getMinFeeExact_eq hsize, Int64.le_iff_toInt_le, Int64.le_iff_toInt_le,
      toInt_getMinFee hsize, baseFee_eq]
    refine ⟨⟨?_, ?_⟩, rfl⟩
    · rw [show (1000000 : Int64).toInt = 1000000 from rfl]
      omega
    · have hmoney : maxMoney.toInt = (maxMoney.toInt.toNat : ℕ) := rfl
      omega

open Sample in
/-- A small transaction in a block of nine million bytes pays more than in one of eight million. -/
theorem getMinFee_mono_crowded :
    getMinFee (spend 1 [] [out 1]) 8000000 .block ≤ getMinFee (spend 1 [] [out 1]) 9000000 .block ∧
    (GetMinFeeMode.baseFee .block ≤ getMinFee (spend 1 [] [out 1]) 9000000 .block ∧
      getMinFee (spend 1 [] [out 1]) 9000000 .block ≤ maxMoney) ∧
    getMinFeeExact (spend 1 [] [out 1]) 9000000 .block =
      some (getMinFee (spend 1 [] [out 1]) 9000000 .block).toInt :=
  have h := getMinFee_mono (spend 1 [] [out 1]) .block
  ⟨h.1 8000000 9000000 (by decide) (by decide) (by decide) (by decide), h.2 9000000 (by decide)⟩

end Beancash
