import Beancash.WordArithmetic
import Mathlib.Data.Nat.Bitwise

namespace WordNumber

variable {w : ℕ}

/-- One word of the result gets some more bits. -/
def orAt (i : ℕ) (x : BitVec w) (r : List (BitVec w)) : List (BitVec w) := r.modify i (· ||| x)

/-- What the word `i` comes to `k` words and `shift` bits further up. -/
def shiftLeftStep (l : List (BitVec w)) (k shift i : ℕ) (r : List (BitVec w)) : List (BitVec w) :=
  let r := if i + k + 1 < l.length ∧ shift ≠ 0 then orAt (i + k + 1) (l.getD i 0 >>> (w - shift)) r
    else r
  if i + k < l.length then orAt (i + k) (l.getD i 0 <<< shift) r else r

def shiftLeft (l : List (BitVec w)) (shift : ℕ) : List (BitVec w) :=
  (List.range l.length).foldl (fun r i => shiftLeftStep l (shift / w) (shift % w) i r)
    (List.replicate l.length 0)

/-- What the word `i` comes to `k` words and `shift` bits further down. -/
def shiftRightStep (l : List (BitVec w)) (k shift i : ℕ) (r : List (BitVec w)) : List (BitVec w) :=
  let r := if k + 1 ≤ i ∧ shift ≠ 0 then orAt (i - k - 1) (l.getD i 0 <<< (w - shift)) r else r
  if k ≤ i then orAt (i - k) (l.getD i 0 >>> shift) r else r

def shiftRight (l : List (BitVec w)) (shift : ℕ) : List (BitVec w) :=
  (List.range l.length).foldl (fun r i => shiftRightStep l (shift / w) (shift % w) i r)
    (List.replicate l.length 0)

theorem testBit_value (l : List (BitVec w)) (j : ℕ) {t : ℕ} (ht : t < w) :
    (value l).testBit (w * j + t) = (l.getD j 0).getLsbD t := by
  induction l generalizing j with
  | nil => simp [value]
  | cons x l ih =>
    rw [value, Nat.add_comm, Nat.testBit_two_pow_mul_add _ x.isLt]
    cases j with
    | zero =>
      rw [Nat.mul_zero, Nat.zero_add, if_pos ht, List.getD_cons_zero]
      rfl
    | succ j =>
      have hpos : w * (j + 1) + t - w = w * j + t := by
        rw [Nat.mul_succ]
        omega
      have hnot : ¬ w * (j + 1) + t < w := by
        rw [Nat.mul_succ]
        omega
      rw [if_neg hnot, hpos, ih, List.getD_cons_succ]

theorem value_eq_of_bits (hw : 0 < w) {l : List (BitVec w)} {x : ℕ}
    (h : ∀ j < l.length, ∀ t < w, (l.getD j 0).getLsbD t = x.testBit (w * j + t)) :
    value l = x % 2 ^ (w * l.length) := by
  apply Nat.eq_of_testBit_eq
  intro p
  have hp : w * (p / w) + p % w = p := Nat.div_add_mod p w
  have ht : p % w < w := Nat.mod_lt p hw
  rw [Nat.testBit_mod_two_pow]
  by_cases hlt : p < w * l.length
  · have hj : p / w < l.length := Nat.div_lt_of_lt_mul hlt
    rw [decide_eq_true hlt, Bool.true_and, ← hp, testBit_value l _ ht, h _ hj _ ht, hp]
  · have hge : 2 ^ (w * l.length) ≤ 2 ^ p := Nat.pow_le_pow_right Nat.two_pos (by omega)
    rw [decide_eq_false hlt, Bool.false_and, Nat.testBit_lt_two_pow ((value_lt l).trans_le hge)]

@[simp] theorem length_orAt (i : ℕ) (x : BitVec w) (r : List (BitVec w)) :
    (orAt i x r).length = r.length :=
  List.length_modify _ _ _

theorem getD_orAt {i j : ℕ} (x : BitVec w) {r : List (BitVec w)} (hj : j < r.length) :
    (orAt i x r).getD j 0 = if i = j then r.getD j 0 ||| x else r.getD j 0 := by
  rw [orAt, List.getD_eq_getElem?_getD, List.getD_eq_getElem?_getD, List.getElem?_modify,
    List.getElem?_eq_getElem hj]
  split <;> rfl

section

variable {c : Prop} [Decidable c] {i j : ℕ} (x : BitVec w) {r : List (BitVec w)}

theorem length_orIf : (if c then orAt i x r else r).length = r.length := by
  split
  · exact length_orAt i x r
  · rfl

theorem getD_orIf (hj : j < r.length) : (if c then orAt i x r else r).getD j 0 =
    if c ∧ i = j then r.getD j 0 ||| x else r.getD j 0 := by
  by_cases hc : c
  · rw [if_pos hc, getD_orAt x hj]
    simp [hc]
  · rw [if_neg hc, if_neg fun h => hc h.1]

end

@[simp] theorem length_shiftLeftStep (l : List (BitVec w)) (k shift i : ℕ) (r : List (BitVec w)) :
    (shiftLeftStep l k shift i r).length = r.length := by
  rw [shiftLeftStep]
  split_ifs <;> simp

theorem getD_shiftLeftStep {l r : List (BitVec w)} (k shift i : ℕ) {j : ℕ} (hj : j < l.length)
    (hlen : r.length = l.length) : (shiftLeftStep l k shift i r).getD j 0 =
      if i + k + 1 = j ∧ shift ≠ 0 then r.getD j 0 ||| l.getD i 0 >>> (w - shift)
      else if i + k = j then r.getD j 0 ||| l.getD i 0 <<< shift
      else r.getD j 0 := by
  have hjr : j < r.length := hlen ▸ hj
  have hup : ((i + k + 1 < l.length ∧ shift ≠ 0) ∧ i + k + 1 = j) ↔ (i + k + 1 = j ∧ shift ≠ 0) := by
    omega
  have hat : (i + k < l.length ∧ i + k = j) ↔ i + k = j := by omega
  rw [shiftLeftStep, getD_orIf _ (by rwa [length_orIf]), getD_orIf _ hjr, if_congr hup rfl rfl,
    if_congr hat rfl rfl]
  split_ifs
  · omega
  · rfl
  · rfl
  · rfl

theorem length_foldl_shiftLeft (l : List (BitVec w)) (k shift m : ℕ) :
    ((List.range m).foldl (fun r i => shiftLeftStep l k shift i r)
      (List.replicate l.length 0)).length = l.length := by
  induction m with
  | zero => simp
  | succ m ih => rw [List.range_succ, List.foldl_append, List.foldl_cons, List.foldl_nil,
      length_shiftLeftStep, ih]

theorem getD_foldl_shiftLeft (l : List (BitVec w)) (k shift m : ℕ) {j : ℕ} (hj : j < l.length) :
    ((List.range m).foldl (fun r i => shiftLeftStep l k shift i r)
      (List.replicate l.length 0)).getD j 0 =
      (if k + 1 ≤ j ∧ j - k - 1 < m ∧ shift ≠ 0 then l.getD (j - k - 1) 0 >>> (w - shift) else 0) |||
        (if k ≤ j ∧ j - k < m then l.getD (j - k) 0 <<< shift else 0) := by
  induction m with
  | zero => simp [hj]
  | succ m ih =>
    have hlen := length_foldl_shiftLeft l k shift m
    rw [List.range_succ, List.foldl_append, List.foldl_cons, List.foldl_nil]
    rw [getD_shiftLeftStep k shift m hj hlen, ih]
    by_cases hup : m + k + 1 = j ∧ shift ≠ 0
    · have hm : j - k - 1 = m := by omega
      have hbefore : ¬ (k + 1 ≤ j ∧ j - k - 1 < m ∧ shift ≠ 0) := by omega
      have hafter : k + 1 ≤ j ∧ j - k - 1 < m + 1 ∧ shift ≠ 0 := by omega
      have hat : ¬ (k ≤ j ∧ j - k < m) := by omega
      have hat' : ¬ (k ≤ j ∧ j - k < m + 1) := by omega
      rw [if_pos hup, if_neg hbefore, if_neg hat, if_pos hafter, if_neg hat', hm]
      simp
    · have hsame : (k + 1 ≤ j ∧ j - k - 1 < m + 1 ∧ shift ≠ 0) ↔
          (k + 1 ≤ j ∧ j - k - 1 < m ∧ shift ≠ 0) := by omega
      rw [if_neg hup, if_congr hsame rfl rfl]
      by_cases hat : m + k = j
      · have hm : j - k = m := by omega
        have hbefore : ¬ (k ≤ j ∧ j - k < m) := by omega
        have hafter : k ≤ j ∧ j - k < m + 1 := by omega
        rw [if_pos hat, if_neg hbefore, if_pos hafter, hm]
        simp
      · have hsame' : (k ≤ j ∧ j - k < m + 1) ↔ (k ≤ j ∧ j - k < m) := by omega
        rw [if_neg hat, if_congr hsame' rfl rfl]

@[simp] theorem length_shiftLeft (l : List (BitVec w)) (shift : ℕ) :
    (shiftLeft l shift).length = l.length :=
  length_foldl_shiftLeft l _ _ _

theorem value_shiftLeft (hw : 0 < w) (l : List (BitVec w)) (shift : ℕ) :
    value (shiftLeft l shift) = value l * 2 ^ shift % 2 ^ (w * l.length) := by
  have hshift : w * (shift / w) + shift % w = shift := Nat.div_add_mod shift w
  have hlow : shift % w < w := Nat.mod_lt shift hw
  rw [← Nat.shiftLeft_eq, ← length_shiftLeft l shift]
  apply value_eq_of_bits hw
  intro j hj t ht
  rw [length_shiftLeft] at hj
  rw [shiftLeft, getD_foldl_shiftLeft l _ _ _ hj, Nat.testBit_shiftLeft, BitVec.getLsbD_or]
  generalize shift / w = k at hshift ⊢
  generalize shift % w = low at hshift hlow ⊢
  rcases Nat.lt_or_ge t low with hlt | hge
  · -- the bits that come from the word below
    have hnone : (if k ≤ j ∧ j - k < l.length then l.getD (j - k) 0 <<< low else 0).getLsbD t =
        false := by
      split
      · rw [BitVec.getLsbD_shiftLeft, decide_eq_true hlt]
        simp
      · exact BitVec.getLsbD_zero
    rw [hnone, Bool.or_false]
    rcases Nat.lt_or_ge k j with hkj | hkj
    · obtain ⟨d, rfl⟩ := Nat.exists_eq_add_of_lt hkj
      have hd : k + d + 1 - k - 1 = d := by omega
      have hmul : w * (k + d + 1) = w * k + w * d + w := by ring
      have hpos : w * (k + d + 1) + t - shift = w * d + (w - low + t) := by omega
      rw [if_pos ⟨by omega, by omega, by omega⟩, hd, BitVec.getLsbD_ushiftRight,
        decide_eq_true (by omega), Bool.true_and, hpos, testBit_value l d (by omega)]
    · have hmul : w * j ≤ w * k := Nat.mul_le_mul_left w hkj
      rw [if_neg (by omega), decide_eq_false (by omega), Bool.false_and]
      exact BitVec.getLsbD_zero
  · -- the bits that come from the word itself
    have hnone : (if k + 1 ≤ j ∧ j - k - 1 < l.length ∧ low ≠ 0 then
        l.getD (j - k - 1) 0 >>> (w - low) else 0).getLsbD t = false := by
      split
      · rw [BitVec.getLsbD_ushiftRight]
        exact BitVec.getLsbD_of_ge _ _ (by omega)
      · exact BitVec.getLsbD_zero
    rw [hnone, Bool.false_or]
    rcases Nat.lt_or_ge j k with hkj | hkj
    · have hmul : w * (j + 1) ≤ w * k := Nat.mul_le_mul_left w hkj
      rw [Nat.mul_succ] at hmul
      rw [if_neg (by omega), decide_eq_false (by omega), Bool.false_and]
      exact BitVec.getLsbD_zero
    · obtain ⟨d, rfl⟩ := Nat.exists_eq_add_of_le hkj
      have hd : k + d - k = d := by omega
      have hmul : w * (k + d) = w * k + w * d := by ring
      have hpos : w * (k + d) + t - shift = w * d + (t - low) := by omega
      rw [if_pos ⟨by omega, by omega⟩, hd, BitVec.getLsbD_shiftLeft, decide_eq_true ht,
        decide_eq_false (by omega), decide_eq_true (by omega), hpos, testBit_value l d (by omega)]
      simp

@[simp] theorem length_shiftRightStep (l : List (BitVec w)) (k shift i : ℕ) (r : List (BitVec w)) :
    (shiftRightStep l k shift i r).length = r.length := by
  rw [shiftRightStep]
  split_ifs <;> simp

theorem getD_shiftRightStep {l r : List (BitVec w)} (k shift i : ℕ) {j : ℕ} (hj : j < r.length) :
    (shiftRightStep l k shift i r).getD j 0 =
      if i = j + k + 1 ∧ shift ≠ 0 then r.getD j 0 ||| l.getD i 0 <<< (w - shift)
      else if i = j + k then r.getD j 0 ||| l.getD i 0 >>> shift
      else r.getD j 0 := by
  have hup : ((k + 1 ≤ i ∧ shift ≠ 0) ∧ i - k - 1 = j) ↔ (i = j + k + 1 ∧ shift ≠ 0) := by omega
  have hat : (k ≤ i ∧ i - k = j) ↔ i = j + k := by omega
  rw [shiftRightStep, getD_orIf _ (by rwa [length_orIf]), getD_orIf _ hj, if_congr hup rfl rfl,
    if_congr hat rfl rfl]
  split_ifs
  · omega
  · rfl
  · rfl
  · rfl

theorem length_foldl_shiftRight (l : List (BitVec w)) (k shift m : ℕ) :
    ((List.range m).foldl (fun r i => shiftRightStep l k shift i r)
      (List.replicate l.length 0)).length = l.length := by
  induction m with
  | zero => simp
  | succ m ih => rw [List.range_succ, List.foldl_append, List.foldl_cons, List.foldl_nil,
      length_shiftRightStep, ih]

theorem getD_foldl_shiftRight (l : List (BitVec w)) (k shift m : ℕ) {j : ℕ} (hj : j < l.length) :
    ((List.range m).foldl (fun r i => shiftRightStep l k shift i r)
      (List.replicate l.length 0)).getD j 0 =
      (if j + k + 1 < m ∧ shift ≠ 0 then l.getD (j + k + 1) 0 <<< (w - shift) else 0) |||
        (if j + k < m then l.getD (j + k) 0 >>> shift else 0) := by
  induction m with
  | zero => simp [hj]
  | succ m ih =>
    have hlen := length_foldl_shiftRight l k shift m
    rw [List.range_succ, List.foldl_append, List.foldl_cons, List.foldl_nil]
    generalize (List.range m).foldl _ _ = r at ih hlen ⊢
    rw [getD_shiftRightStep k shift m (hlen ▸ hj), ih]
    by_cases hup : m = j + k + 1 ∧ shift ≠ 0
    · have hbefore : ¬ (j + k + 1 < m ∧ shift ≠ 0) := by omega
      have hafter : j + k + 1 < m + 1 ∧ shift ≠ 0 := by omega
      have hat : j + k < m := by omega
      rw [if_pos hup, if_neg hbefore, if_pos hafter, if_pos hat, if_pos (Nat.lt_succ_of_lt hat),
        BitVec.or_comm, hup.1]
      simp
    · have hsame : (j + k + 1 < m + 1 ∧ shift ≠ 0) ↔ (j + k + 1 < m ∧ shift ≠ 0) := by omega
      rw [if_neg hup, if_congr hsame rfl rfl]
      by_cases hat : m = j + k
      · rw [if_pos hat, if_neg (show ¬ j + k < m by omega), if_pos (show j + k < m + 1 by omega), hat]
        simp
      · have hsame' : j + k < m + 1 ↔ j + k < m := by omega
        rw [if_neg hat, if_congr hsame' rfl rfl]

@[simp] theorem length_shiftRight (l : List (BitVec w)) (shift : ℕ) :
    (shiftRight l shift).length = l.length :=
  length_foldl_shiftRight l _ _ _

theorem getD_shiftRight (l : List (BitVec w)) (shift : ℕ) {j : ℕ} (hj : j < l.length) :
    (shiftRight l shift).getD j 0 =
      (if shift % w ≠ 0 then l.getD (j + shift / w + 1) 0 <<< (w - shift % w) else 0) |||
        l.getD (j + shift / w) 0 >>> (shift % w) := by
  have hout : ∀ i, ¬ i < l.length → l.getD i 0 = 0 := by
    intro i hi
    simp [Nat.not_lt.mp hi]
  rw [shiftRight, getD_foldl_shiftRight l _ _ _ hj]
  congr 1
  · by_cases hi : j + shift / w + 1 < l.length
    · simp only [hi, true_and]
    · rw [hout _ hi]
      simp
  · by_cases hi : j + shift / w < l.length
    · rw [if_pos hi]
    · rw [if_neg hi, hout _ hi]
      simp

theorem value_shiftRight (hw : 0 < w) (l : List (BitVec w)) (shift : ℕ) :
    value (shiftRight l shift) = value l / 2 ^ shift := by
  have hshift : w * (shift / w) + shift % w = shift := Nat.div_add_mod shift w
  have hlow : shift % w < w := Nat.mod_lt shift hw
  have hlt : value l / 2 ^ shift < 2 ^ (w * (shiftRight l shift).length) := by
    rw [length_shiftRight]
    exact (Nat.div_le_self _ _).trans_lt (value_lt l)
  rw [← Nat.mod_eq_of_lt hlt, ← Nat.shiftRight_eq_div_pow]
  apply value_eq_of_bits hw
  intro j hj t ht
  rw [length_shiftRight] at hj
  rw [getD_shiftRight l shift hj, Nat.testBit_shiftRight, BitVec.getLsbD_or,
    BitVec.getLsbD_ushiftRight]
  generalize shift / w = k at hshift ⊢
  generalize shift % w = low at hshift hlow ⊢
  rcases Nat.lt_or_ge (low + t) w with hword | hword
  · -- the bits that come from the word itself
    have hnone : (if low ≠ 0 then l.getD (j + k + 1) 0 <<< (w - low) else 0).getLsbD t = false := by
      split
      · rw [BitVec.getLsbD_shiftLeft, decide_eq_true (show t < w - low by omega)]
        simp
      · exact BitVec.getLsbD_zero
    have hpos : shift + (w * j + t) = w * (j + k) + (low + t) := by
      rw [Nat.mul_add]
      omega
    rw [hnone, Bool.false_or, hpos, testBit_value l _ hword]
  · -- the bits that come from the word above
    have hpos : shift + (w * j + t) = w * (j + k + 1) + (t - (w - low)) := by
      rw [Nat.mul_succ, Nat.mul_add]
      omega
    rw [if_pos (by omega), BitVec.getLsbD_shiftLeft, BitVec.getLsbD_of_ge _ _ hword,
      decide_eq_true ht, decide_eq_false (show ¬ t < w - low by omega), hpos,
      testBit_value l _ (by omega)]
    simp

end WordNumber
