import Mathlib.Algebra.Order.Group.Nat
import Mathlib.Data.Nat.Log
import Mathlib.Tactic.Ring

namespace CompactNumber

/-- The number of bytes of a number and a sign bit; a zero has none. -/
def bytes (n : ℕ) : ℕ := if n = 0 then 0 else (n.log2 + 1) / 8 + 1

/-- The number with all but its first `k` bytes set to zero. -/
def truncate (k n : ℕ) : ℕ := n / 256 ^ (bytes n - k) * 256 ^ (bytes n - k)

variable {k m n b : ℕ}

theorem bytes_le_iff (hb : 0 < b) : bytes n ≤ b ↔ n < 2 ^ (8 * b - 1) := by
  unfold bytes
  by_cases hn : n = 0
  · rw [if_pos hn, hn]
    exact iff_of_true (Nat.zero_le b) (Nat.two_pow_pos _)
  · rw [if_neg hn, ← Nat.log2_lt hn]
    omega

theorem lt_two_pow_bytes (hn : 0 < n) : n < 2 ^ (8 * bytes n - 1) := by
  have hpos : 0 < bytes n := by
    unfold bytes
    rw [if_neg (by omega)]
    omega
  exact (bytes_le_iff hpos).mp le_rfl

theorem two_pow_le (hb : 0 < b) (h : b < bytes n) : 2 ^ (8 * b - 1) ≤ n := by
  by_contra hlt
  have hle := (bytes_le_iff hb).mpr (not_le.mp hlt)
  omega

theorem bytes_mono (h : m ≤ n) : bytes m ≤ bytes n := by
  by_cases hm : m = 0
  · rw [hm]
    exact Nat.zero_le _
  · have hn : 0 < n := by omega
    have hlt := h.trans_lt (lt_two_pow_bytes hn)
    refine (bytes_le_iff ?_).mpr hlt
    unfold bytes
    rw [if_neg (by omega)]
    omega

theorem truncate_le : truncate k n ≤ n := Nat.div_mul_le_self _ _

theorem truncate_eq_self (h : bytes n ≤ k) : truncate k n = n := by
  rw [truncate, Nat.sub_eq_zero_of_le h, pow_zero, Nat.div_one, Nat.mul_one]

theorem two_pow_le_truncate (hk : 2 ≤ k) (hb : 0 < b) (h : b < bytes n) :
    2 ^ (8 * b - 1) ≤ truncate k n := by
  have hle := two_pow_le hb h
  by_cases hkn : bytes n ≤ k
  · rwa [truncate_eq_self hkn]
  · have htop : 2 ^ (8 * (bytes n - 1) - 1) ≤ n := two_pow_le (by omega) (by omega)
    have hsplit : 2 ^ (8 * (bytes n - 1) - 1) =
        2 ^ (8 * k - 9) * 256 ^ (bytes n - k) := by
      rw [show 256 = 2 ^ 8 from rfl, ← pow_mul, ← pow_add]
      congr 1
      omega
    calc 2 ^ (8 * b - 1) ≤ 2 ^ (8 * (bytes n - 1) - 1) :=
          Nat.pow_le_pow_right (by omega) (by omega)
      _ = 2 ^ (8 * k - 9) * 256 ^ (bytes n - k) := hsplit
      _ ≤ truncate k n := by
          refine Nat.mul_le_mul_right _ ?_
          rw [Nat.le_div_iff_mul_le (Nat.pow_pos (by omega)), ← hsplit]
          exact htop

theorem bytes_truncate (hk : 2 ≤ k) : bytes (truncate k n) = bytes n := by
  apply le_antisymm (bytes_mono truncate_le)
  by_contra hlt
  by_cases hkn : bytes n ≤ k
  · rw [truncate_eq_self hkn] at hlt
    omega
  · have hle := two_pow_le_truncate (n := n) (b := bytes n - 1) hk (by omega) (by omega)
    have hle' := (bytes_le_iff (n := truncate k n) (b := bytes n - 1) (by omega)).mp (by omega)
    omega

theorem truncate_truncate (hk : 2 ≤ k) : truncate k (truncate k n) = truncate k n := by
  conv_lhs => rw [truncate, bytes_truncate hk]
  rw [truncate, Nat.mul_div_cancel _ (Nat.pow_pos (by omega))]

theorem truncate_mono (hk : 2 ≤ k) (h : m ≤ n) : truncate k m ≤ truncate k n := by
  rcases (bytes_mono h).eq_or_lt with heq | hlt
  · unfold truncate
    rw [heq]
    exact Nat.mul_le_mul_right _ (Nat.div_le_div_right h)
  · by_cases hm : m = 0
    · rw [hm, truncate_eq_self (by simp [bytes])]
      exact Nat.zero_le _
    · have hpos : 0 < bytes m := by
        unfold bytes
        rw [if_neg hm]
        omega
      calc truncate k m ≤ m := truncate_le
        _ ≤ 2 ^ (8 * bytes m - 1) := (lt_two_pow_bytes (by omega)).le
        _ ≤ truncate k n := two_pow_le_truncate hk hpos hlt

theorem truncate_le_truncate_iff (hk : 2 ≤ k) :
    truncate k m ≤ truncate k n ↔ truncate k m ≤ n := by
  refine ⟨fun h => h.trans truncate_le, fun h => ?_⟩
  rw [← truncate_truncate hk]
  exact truncate_mono hk h

theorem truncate_pos (hk : 2 ≤ k) (hn : 0 < n) : 0 < truncate k n := by
  by_contra h
  have hzero : truncate k n = 0 := by omega
  have hbytes := bytes_truncate (n := n) hk
  rw [hzero] at hbytes
  unfold bytes at hbytes
  rw [if_pos rfl, if_neg (by omega)] at hbytes
  omega

theorem div_lt (hk : 0 < k) (h : k ≤ bytes n) : n / 256 ^ (bytes n - k) < 2 ^ (8 * k - 1) := by
  have hn : 0 < n := by
    by_contra hn
    rw [show n = 0 by omega] at h
    simp only [bytes, if_true] at h
    omega
  rw [Nat.div_lt_iff_lt_mul (Nat.pow_pos (by omega)), show 256 = 2 ^ 8 from rfl, ← pow_mul,
    ← pow_add]
  refine (lt_two_pow_bytes hn).trans_eq ?_
  congr 1
  omega

/-- The least number that is above `n` and is not cut. -/
def next (k n : ℕ) : ℕ := truncate k n + 256 ^ (bytes n - k)

theorem next_eq (k n : ℕ) :
    next k n = (n / 256 ^ (bytes n - k) + 1) * 256 ^ (bytes n - k) := by
  rw [next, truncate, Nat.succ_mul]

theorem lt_next : n < next k n := by
  rw [next_eq, ← Nat.div_lt_iff_lt_mul (Nat.pow_pos (by omega))]
  exact Nat.lt_succ_self _

theorem next_zero (k : ℕ) : next k 0 = 1 := by
  simp [next, truncate, bytes]

theorem next_le (hk : 0 < k) (hn : 0 < n) : next k n ≤ 2 ^ (8 * bytes n - 1) := by
  by_cases hkn : bytes n ≤ k
  · rw [next, truncate_eq_self hkn, Nat.sub_eq_zero_of_le hkn, pow_zero]
    exact lt_two_pow_bytes hn
  · have hlt := div_lt (n := n) (k := k) hk (by omega)
    calc next k n = (n / 256 ^ (bytes n - k) + 1) * 256 ^ (bytes n - k) := next_eq k n
      _ ≤ 2 ^ (8 * k - 1) * 256 ^ (bytes n - k) := Nat.mul_le_mul_right _ hlt
      _ = 2 ^ (8 * bytes n - 1) := by
          rw [show 256 = 2 ^ 8 from rfl, ← pow_mul, ← pow_add]
          congr 1
          omega

theorem truncate_next (hk : 2 ≤ k) : truncate k (next k n) = next k n := by
  by_cases hn : n = 0
  · rw [hn, next_zero]
    exact truncate_eq_self (show 1 ≤ k by omega)
  · rcases (bytes_mono (lt_next (n := n) (k := k)).le).eq_or_lt with heq | hlt
    · rw [truncate, ← heq, next_eq, Nat.mul_div_cancel _ (Nat.pow_pos (by omega))]
    · have hpos : 0 < bytes n := by
        unfold bytes
        rw [if_neg hn]
        omega
      have hpow : next k n = 2 ^ (8 * bytes n - 1) :=
        le_antisymm (next_le (by omega) (by omega)) (two_pow_le hpos hlt)
      have hbytes : bytes (next k n) = bytes n + 1 := by
        refine le_antisymm ((bytes_le_iff (by omega)).mpr ?_) hlt
        rw [hpow]
        exact Nat.pow_lt_pow_right (by omega) (by omega)
      rw [truncate, hbytes, hpow]
      refine Nat.div_mul_cancel ?_
      rw [show 256 = 2 ^ 8 from rfl, ← pow_mul]
      exact Nat.pow_dvd_pow 2 (by omega)

/-- What is left of a number is at most `n` exactly if the number is below the next one. -/
theorem truncate_le_iff (hk : 2 ≤ k) : truncate k m ≤ n ↔ m < next k n := by
  constructor
  · intro h
    by_contra hle
    have hmono := truncate_mono hk (not_lt.mp hle)
    rw [truncate_next hk] at hmono
    have hlt := lt_next (n := n) (k := k)
    omega
  · intro h
    by_contra hlt
    have hm : truncate k m ≤ m := truncate_le
    by_cases hn : n = 0
    · rw [hn, next_zero] at h
      omega
    · rcases (bytes_mono (show n ≤ m by omega)).eq_or_lt with heq | hbytes
      · rw [next_eq, ← Nat.div_lt_iff_lt_mul (Nat.pow_pos (by omega)), heq] at h
        have hle : truncate k m ≤ truncate k n := by
          rw [truncate, truncate, heq]
          exact Nat.mul_le_mul_right _ (Nat.lt_succ_iff.mp h)
        have hcut : truncate k n ≤ n := truncate_le
        omega
      · have hle := two_pow_le (b := bytes n) (by unfold bytes; rw [if_neg hn]; omega) hbytes
        have hnext := next_le (n := n) (k := k) (by omega) (by omega)
        omega

end CompactNumber
