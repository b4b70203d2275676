import Mathlib.Data.List.Basic
import Mathlib.Logic.Function.Iterate
import Beancash.ByteStream

/-!
# Shift registers with feedback

A register is shifted bit by bit, and what is shifted out is fed back, as in a cyclic redundancy
check. Shifting is linear in exclusive or and loses nothing when the highest bit of the feedback is set.
So bytes as many as the register holds can be fed at once (`feed_eq_shifts`), and two messages that
differ in no more than these are told apart (`feed_ne`).
-/

namespace ShiftRegister

open ByteStream

variable {w : ℕ}

/-- One bit is shifted out, and if it was set, `poly` is fed back. -/
def shift (poly l : BitVec w) : BitVec w := (l >>> 1) ^^^ (if l.getLsbD 0 then poly else 0)

def shifts (poly : BitVec w) (n : ℕ) : BitVec w → BitVec w := (shift poly)^[n]

/-- The bytes are fed one after the other. -/
def feed (poly l : BitVec w) (bytes : List UInt8) : BitVec w :=
  bytes.foldl (fun l byte => shifts poly 8 (l ^^^ .ofNat w byte.toNat)) l

variable {poly : BitVec w}

theorem feed_append (l : BitVec w) (bytes bytes' : List UInt8) :
    feed poly l (bytes ++ bytes') = feed poly (feed poly l bytes) bytes' :=
  List.foldl_append

theorem shift_xor (a b : BitVec w) : shift poly (a ^^^ b) = shift poly a ^^^ shift poly b := by
  rw [shift, shift, shift, BitVec.ushiftRight_xor_distrib, BitVec.getLsbD_xor]
  have hswap : ∀ c d : BitVec w, (a >>> 1 ^^^ c) ^^^ (b >>> 1 ^^^ d) =
      (a >>> 1 ^^^ b >>> 1) ^^^ (c ^^^ d) := by
    intro c d
    ac_rfl
  rw [hswap]
  cases a.getLsbD 0 <;> cases b.getLsbD 0 <;> simp

theorem shifts_add (m n : ℕ) (l : BitVec w) :
    shifts poly (m + n) l = shifts poly m (shifts poly n l) :=
  Function.iterate_add_apply _ m n l

theorem shifts_xor (n : ℕ) (a b : BitVec w) :
    shifts poly n (a ^^^ b) = shifts poly n a ^^^ shifts poly n b := by
  induction n generalizing a b with
  | zero => rfl
  | succ n ih =>
    rw [shifts_add n 1, shifts_add n 1, shifts_add n 1, ← ih]
    exact congrArg _ (shift_xor a b)

theorem shifts_low {n : ℕ} {l : BitVec w} (h : ∀ i < n, l.getLsbD i = false) :
    shifts poly n l = l >>> n := by
  induction n with
  | zero => exact (BitVec.ushiftRight_zero l).symm
  | succ n ih =>
    have hbit : (l >>> n).getLsbD 0 = false := by
      rw [BitVec.getLsbD_ushiftRight]
      exact h n (Nat.lt_succ_self n)
    rw [Nat.add_comm n 1, shifts_add 1 n, ih fun i hi => h i (Nat.lt_succ_of_lt hi)]
    change shift poly (l >>> n) = _
    rw [shift, hbit, Nat.add_comm 1 n, BitVec.shiftRight_add]
    exact BitVec.xor_zero

theorem add_mul_eq_xor {n a : ℕ} (h : a < 2 ^ n) (x : ℕ) : a + x * 2 ^ n = a ^^^ x * 2 ^ n := by
  apply Nat.eq_of_testBit_eq
  intro i
  rw [Nat.add_comm, Nat.mul_comm, Nat.testBit_two_pow_mul_add x h, Nat.testBit_xor, Nat.mul_comm,
    Nat.testBit_mul_two_pow]
  split_ifs with hi
  · rw [decide_eq_false (by omega), Bool.false_and, Bool.xor_false]
  · have hpow : 2 ^ n ≤ 2 ^ i := Nat.pow_le_pow_right (by decide) (by omega)
    rw [Nat.testBit_lt_two_pow (Nat.lt_of_lt_of_le h hpow), decide_eq_true (by omega : n ≤ i),
      Bool.true_and, Bool.false_xor]

theorem shifts_shiftLeft {n x : ℕ} (h : x * 2 ^ n < 2 ^ w) :
    shifts poly n (.ofNat w (x * 2 ^ n)) = .ofNat w x := by
  have hpos : 0 < 2 ^ n := Nat.two_pow_pos n
  have hx : x < 2 ^ w := Nat.lt_of_le_of_lt (Nat.le_mul_of_pos_right x hpos) h
  rw [shifts_low]
  · apply BitVec.eq_of_toNat_eq
    rw [BitVec.toNat_ushiftRight, BitVec.toNat_ofNat, BitVec.toNat_ofNat, Nat.mod_eq_of_lt h,
      Nat.mod_eq_of_lt hx, Nat.shiftRight_eq_div_pow, Nat.mul_div_cancel _ hpos]
  · intro i hi
    rw [BitVec.getLsbD_ofNat, Nat.testBit_mul_two_pow, decide_eq_false (by omega : ¬n ≤ i),
      Bool.false_and, Bool.and_false]

theorem shifts_split (n : ℕ) (l : BitVec w) :
    shifts poly n l = shifts poly n (.ofNat w (l.toNat % 2 ^ n)) ^^^ (l >>> n) := by
  have hl : l = .ofNat w (l.toNat % 2 ^ n) ^^^ .ofNat w (l.toNat / 2 ^ n * 2 ^ n) := by
    rw [← BitVec.ofNat_xor, ← add_mul_eq_xor (Nat.mod_lt _ (Nat.two_pow_pos n)), Nat.mod_add_div']
    rw [BitVec.ofNat_toNat, BitVec.setWidth_eq]
  have hlt : l.toNat / 2 ^ n * 2 ^ n < 2 ^ w :=
    Nat.lt_of_le_of_lt (Nat.div_mul_le_self _ _) l.isLt
  have hshift : (.ofNat w (l.toNat / 2 ^ n) : BitVec w) = l >>> n := by
    apply BitVec.eq_of_toNat_eq
    rw [BitVec.toNat_ofNat, BitVec.toNat_ushiftRight, Nat.shiftRight_eq_div_pow,
      Nat.mod_eq_of_lt (Nat.lt_of_le_of_lt (Nat.div_le_self _ _) l.isLt)]
  conv_lhs => rw [hl, shifts_xor, shifts_shiftLeft hlt, hshift]

theorem shifts_add_split (m n : ℕ) (l : BitVec w) :
    shifts poly (m + n) l = shifts poly (m + n) (.ofNat w (l.toNat % 2 ^ n)) ^^^
      shifts poly m (l >>> n) := by
  rw [shifts_add, shifts_split n l, shifts_xor, ← shifts_add]

theorem shift_injective (hpoly : poly.msb = true) : Function.Injective (shift poly) := by
  have hzero : ∀ l : BitVec w, shift poly l = 0 → l = 0 := by
    intro l hl
    have hmsb : (l >>> 1).msb = false := by
      rw [BitVec.msb_ushiftRight]
      rfl
    have hbit : l.getLsbD 0 = false := by
      by_contra hset
      rw [Bool.not_eq_false] at hset
      rw [shift, hset, if_pos rfl] at hl
      have hpoly' : (l >>> 1 ^^^ poly).msb = true := by
        rw [BitVec.msb_xor, hmsb, hpoly]
        rfl
      rw [hl] at hpoly'
      exact absurd hpoly' (by simp)
    rw [shift, hbit, if_neg Bool.false_ne_true, show (0 : BitVec w) = 0#w from rfl,
      BitVec.xor_zero] at hl
    apply BitVec.eq_of_getLsbD_eq
    intro i hi
    rcases Nat.eq_zero_or_pos i with rfl | hpos
    · rw [hbit]
      exact (BitVec.getLsbD_zero).symm
    · have hrest := congrArg (BitVec.getLsbD · (i - 1)) hl
      simp only [BitVec.getLsbD_ushiftRight, BitVec.getLsbD_zero] at hrest
      rw [show 1 + (i - 1) = i by omega] at hrest
      rw [hrest]
      exact (BitVec.getLsbD_zero).symm
  intro a b hab
  have hxor : shift poly (a ^^^ b) = 0 := by
    rw [shift_xor, hab]
    exact BitVec.xor_self
  exact BitVec.xor_eq_zero_iff.mp (hzero _ hxor)

theorem shifts_injective (hpoly : poly.msb = true) (n : ℕ) : Function.Injective (shifts poly n) :=
  (shift_injective hpoly).iterate n

theorem feed_eq_shifts {bytes : List UInt8} (h : 8 * bytes.length ≤ w) (l : BitVec w) :
    feed poly l bytes = shifts poly (8 * bytes.length) (l ^^^ .ofNat w (ofLittleEndian bytes)) := by
  induction bytes generalizing l with
  | nil => exact (BitVec.xor_zero).symm
  | cons byte bytes ih =>
    rw [List.length_cons, Nat.mul_succ] at h
    have hlt : ofLittleEndian bytes * 2 ^ 8 < 2 ^ w := by
      have hpow := Nat.pow_le_pow_right (show 0 < 2 by decide) h
      have hbound : ofLittleEndian bytes < (2 ^ 8) ^ bytes.length := ofLittleEndian_lt bytes
      rw [Nat.pow_add, Nat.pow_mul] at hpow
      exact Nat.lt_of_lt_of_le (Nat.mul_lt_mul_of_pos_right hbound (Nat.two_pow_pos 8)) hpow
    have hword : BitVec.ofNat w (ofLittleEndian (byte :: bytes)) =
        .ofNat w byte.toNat ^^^ .ofNat w (ofLittleEndian bytes * 2 ^ 8) := by
      rw [ofLittleEndian, Nat.mul_comm 256, ← BitVec.ofNat_xor]
      exact congrArg _ (add_mul_eq_xor byte.toNat_lt _)
    have hstep : feed poly l (byte :: bytes) =
        feed poly (shifts poly 8 (l ^^^ .ofNat w byte.toNat)) bytes := rfl
    rw [hstep, ih (by omega), List.length_cons, Nat.mul_succ, shifts_add, hword,
      ← BitVec.xor_assoc, shifts_xor 8 _ (.ofNat w (ofLittleEndian bytes * 2 ^ 8)),
      shifts_shiftLeft hlt]

theorem feed_injective (hpoly : poly.msb = true) (bytes : List UInt8) :
    Function.Injective fun l => feed poly l bytes := by
  induction bytes with
  | nil => exact fun _ _ h => h
  | cons byte bytes ih =>
    intro l l' h
    have hshift := shifts_injective hpoly 8 (ih h)
    exact (BitVec.xor_left_inj _).mp hshift

theorem feed_ne (hpoly : poly.msb = true) {burst burst' : List UInt8}
    (hlength : burst.length = burst'.length) (hsize : 8 * burst.length ≤ w) (hne : burst ≠ burst')
    (l : BitVec w) (front rest : List UInt8) :
    feed poly l (front ++ burst ++ rest) ≠ feed poly l (front ++ burst' ++ rest) := by
  have hburst' : 8 * burst'.length ≤ w := hlength ▸ hsize
  rw [feed_append l (front ++ burst), feed_append l front, feed_append l (front ++ burst'),
    feed_append l front]
  intro heq
  have hfeed := feed_injective hpoly rest heq
  rw [feed_eq_shifts hsize, feed_eq_shifts hburst', ← hlength] at hfeed
  have hword := (BitVec.xor_right_inj _).mp (shifts_injective hpoly _ hfeed)
  have hlt : ∀ bytes : List UInt8, 8 * bytes.length ≤ w → ofLittleEndian bytes < 2 ^ w := by
    intro bytes hbytes
    have hbound : ofLittleEndian bytes < (2 ^ 8) ^ bytes.length := ofLittleEndian_lt bytes
    rw [← Nat.pow_mul] at hbound
    exact Nat.lt_of_lt_of_le hbound (Nat.pow_le_pow_right (by decide) hbytes)
  have hnat := congrArg BitVec.toNat hword
  rw [BitVec.toNat_ofNat, BitVec.toNat_ofNat, Nat.mod_eq_of_lt (hlt _ hsize),
    Nat.mod_eq_of_lt (hlt _ hburst')] at hnat
  exact hne (eq_of_ofLittleEndian_eq hlength hnat)

end ShiftRegister
