import Mathlib.Data.Nat.Notation
import Mathlib.Data.List.Basic
import Mathlib.Tactic.Ring

/-!
# Numbers as words

A number is written as words of `w` bits, the lowest one first. Two numbers of as many words are
added word by word, and what does not fit a word is carried over to the next one; the carry out
of the last word is lost.
-/

namespace WordNumber

variable {w : ℕ}

def value : List (BitVec w) → ℕ
  | [] => 0
  | x :: l => x.toNat + 2 ^ w * value l

/-- The lowest `n` words of a number. -/
def words (w : ℕ) : ℕ → ℕ → List (BitVec w)
  | 0, _ => []
  | n + 1, x => .ofNat w x :: words w n (x / 2 ^ w)

def addCarry : ℕ → List (BitVec w) → List (BitVec w) → List (BitVec w)
  | carry, x :: l, y :: l' =>
    let n := carry + x.toNat + y.toNat
    .ofNat w n :: addCarry (n / 2 ^ w) l l'
  | _, _, _ => []

@[simp] theorem length_words (n x : ℕ) : (words w n x).length = n := by
  induction n generalizing x with
  | zero => rfl
  | succ n ih => rw [words, List.length_cons, ih]

theorem mod_add_mul_mod (m n : ℕ) :
    m % 2 ^ w + 2 ^ w * (m / 2 ^ w % 2 ^ (w * n)) = m % 2 ^ (w * (n + 1)) := by
  rw [Nat.mul_succ, Nat.add_comm, Nat.pow_add, Nat.mul_comm (2 ^ (w * n)), Nat.mod_mul]
  omega

theorem value_words (n x : ℕ) : value (words w n x) = x % 2 ^ (w * n) := by
  induction n generalizing x with
  | zero => rw [Nat.mul_zero, Nat.pow_zero, Nat.mod_one, words, value]
  | succ n ih => rw [words, value, ih, BitVec.toNat_ofNat, mod_add_mul_mod]

theorem value_addCarry (carry : ℕ) {l l' : List (BitVec w)} (h : l.length = l'.length) :
    value (addCarry carry l l') = (carry + value l + value l') % 2 ^ (w * l.length) := by
  induction l generalizing carry l' with
  | nil =>
    obtain rfl := List.length_eq_zero_iff.mp h.symm
    rw [List.length_nil, Nat.mul_zero, Nat.pow_zero, Nat.mod_one]
    rfl
  | cons x l ih =>
    cases l' with
    | nil => cases h
    | cons y l' =>
      have hsum : carry + value (x :: l) + value (y :: l') =
          carry + x.toNat + y.toNat + 2 ^ w * (value l + value l') := by
        rw [value, value]
        ring
      have hcarry : (carry + x.toNat + y.toNat) / 2 ^ w + value l + value l' =
          (carry + value (x :: l) + value (y :: l')) / 2 ^ w := by
        rw [hsum, Nat.add_mul_div_left _ _ (Nat.two_pow_pos w), Nat.add_assoc]
      have hlow : (carry + x.toNat + y.toNat) % 2 ^ w =
          (carry + value (x :: l) + value (y :: l')) % 2 ^ w := by
        rw [hsum, Nat.add_mul_mod_self_left]
      rw [addCarry, value, ih _ (Nat.succ.inj h), BitVec.toNat_ofNat, hcarry, hlow,
        List.length_cons]
      exact mod_add_mul_mod _ _

end WordNumber
