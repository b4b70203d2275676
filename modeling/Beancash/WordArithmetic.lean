import Beancash.WordNumber
import Mathlib.Data.BitVec

/-!
# Arithmetic of words

Numbers of as many words are negated, counted up and down, compared from the top and shifted word by
word. Each operation stands for the one on the numbers, up to what is above the last word.
-/

namespace WordNumber

variable {w : ℕ}

theorem value_lt (l : List (BitVec w)) : value l < 2 ^ (w * l.length) := by
  induction l with
  | nil => simp [value]
  | cons x l ih =>
    have hx := x.isLt
    have hmul : 2 ^ w * (value l + 1) ≤ 2 ^ w * 2 ^ (w * l.length) := Nat.mul_le_mul_left _ ih
    rw [value, List.length_cons, Nat.mul_succ, Nat.add_comm, Nat.add_comm (w * _), Nat.pow_add]
    rw [Nat.mul_succ] at hmul
    omega

theorem value_inj {l l' : List (BitVec w)} (hlen : l.length = l'.length) :
    value l = value l' ↔ l = l' := by
  constructor
  · induction l generalizing l' with
    | nil => exact fun _ => (List.length_eq_zero_iff.mp hlen.symm).symm
    | cons x l ih =>
      cases l' with
      | nil => exact absurd hlen (by simp)
      | cons y l' =>
        intro h
        rw [value, value] at h
        have hlow := congrArg (· % 2 ^ w) h
        simp only [Nat.add_mul_mod_self_left, Nat.mod_eq_of_lt x.isLt, Nat.mod_eq_of_lt y.isLt] at hlow
        have hhigh : value l = value l' := by
          rw [hlow, Nat.add_left_cancel_iff] at h
          exact Nat.eq_of_mul_eq_mul_left (Nat.two_pow_pos w) h
        rw [BitVec.eq_of_toNat_eq hlow, ih (Nat.succ.inj hlen) hhigh]
  · exact congrArg value

@[simp] theorem value_replicate_zero (n : ℕ) : value (List.replicate n 0#w) = 0 := by
  induction n with
  | zero => rfl
  | succ n ih => rw [List.replicate_succ, value, ih]; simp

theorem length_addCarry (carry : ℕ) {l l' : List (BitVec w)} (h : l.length = l'.length) :
    (addCarry carry l l').length = l.length := by
  induction l generalizing carry l' with
  | nil => rfl
  | cons x l ih =>
    cases l' with
    | nil => exact absurd h (by simp)
    | cons y l' => rw [addCarry, List.length_cons, List.length_cons, ih _ (Nat.succ.inj h)]

/-- The carry goes on as long as the words wrap to zero. -/
def increment : List (BitVec w) → List (BitVec w)
  | [] => []
  | x :: l => if x + 1 = 0 then (x + 1) :: increment l else (x + 1) :: l

/-- The borrow goes on as long as the words wrap to the highest one. -/
def decrement : List (BitVec w) → List (BitVec w)
  | [] => []
  | x :: l => if x - 1 = -1 then (x - 1) :: decrement l else (x - 1) :: l

@[simp] theorem length_increment (l : List (BitVec w)) : (increment l).length = l.length := by
  induction l with
  | nil => rfl
  | cons x l ih =>
    rw [increment]
    split
    · rw [List.length_cons, List.length_cons, ih]
    · rfl

@[simp] theorem length_decrement (l : List (BitVec w)) : (decrement l).length = l.length := by
  induction l with
  | nil => rfl
  | cons x l ih =>
    rw [decrement]
    split
    · rw [List.length_cons, List.length_cons, ih]
    · rfl

theorem toNat_add_one (x : BitVec w) : (x + 1).toNat = (x.toNat + 1) % 2 ^ w := by
  rw [BitVec.toNat_add, BitVec.ofNat_eq_ofNat, BitVec.toNat_ofNat, Nat.add_mod_mod]

theorem add_one_eq_zero_iff (x : BitVec w) : x + 1 = 0 ↔ x.toNat + 1 = 2 ^ w := by
  have hx := x.isLt
  have hzero : (0 : BitVec w).toNat = 0 := BitVec.toNat_zero
  constructor
  · intro h
    have hdvd : 2 ^ w ∣ x.toNat + 1 := by
      apply Nat.dvd_of_mod_eq_zero
      rw [← toNat_add_one, h, hzero]
    have hle := Nat.le_of_dvd (Nat.succ_pos _) hdvd
    omega
  · intro h
    apply BitVec.eq_of_toNat_eq
    rw [toNat_add_one, h, Nat.mod_self, hzero]

theorem value_increment (l : List (BitVec w)) :
    value (increment l) = (value l + 1) % 2 ^ (w * l.length) := by
  induction l with
  | nil => simp [increment, value]
  | cons x l ih =>
    rw [increment]
    split
    · rename_i hwraps
      have hlast := (add_one_eq_zero_iff x).mp hwraps
      have hsum : x.toNat + 2 ^ w * value l + 1 = 2 ^ w * (value l + 1) := by
        rw [Nat.mul_succ]
        omega
      have hzero : (0 : BitVec w).toNat = 0 := BitVec.toNat_zero
      rw [value, hwraps, ih, value, List.length_cons, ← mod_add_mul_mod, hsum, Nat.mul_mod_right,
        Nat.mul_div_cancel_left _ (Nat.two_pow_pos w), hzero]
    · rename_i hkeeps
      have hx := x.isLt
      have hnext : (x + 1).toNat = x.toNat + 1 := by
        rw [toNat_add_one]
        apply Nat.mod_eq_of_lt
        have hne := mt (add_one_eq_zero_iff x).mpr hkeeps
        omega
      have hsum : value ((x + 1) :: l) = value (x :: l) + 1 := by
        rw [value, value, hnext]
        omega
      have hlt := value_lt ((x + 1) :: l)
      rw [hsum, List.length_cons] at hlt
      rw [hsum, List.length_cons, Nat.mod_eq_of_lt hlt]

theorem increment_decrement (l : List (BitVec w)) : increment (decrement l) = l := by
  induction l with
  | nil => rfl
  | cons x l ih =>
    have hback : x - 1 + 1 = x := sub_add_cancel x 1
    have hzero : x - 1 = -1 ↔ x = 0 := by rw [sub_eq_iff_eq_add, neg_add_cancel]
    rw [decrement]
    split
    · rename_i hwraps
      rw [increment, hback, if_pos (hzero.mp hwraps), ih]
    · rename_i hkeeps
      rw [increment, hback, if_neg (mt hzero.mpr hkeeps)]

theorem value_decrement (l : List (BitVec w)) :
    value (decrement l) = (value l + (2 ^ (w * l.length) - 1)) % 2 ^ (w * l.length) := by
  have hpos := Nat.two_pow_pos (w * l.length)
  have hlt := value_lt (decrement l)
  have hnext := value_increment (decrement l)
  rw [increment_decrement, length_decrement] at hnext
  rw [length_decrement] at hlt
  rw [hnext, Nat.mod_add_mod, Nat.add_assoc, Nat.add_sub_cancel' hpos, Nat.add_mod_right,
    Nat.mod_eq_of_lt hlt]

/-- All bits turned over. -/
def complement (l : List (BitVec w)) : List (BitVec w) := l.map (~~~ ·)

@[simp] theorem length_complement (l : List (BitVec w)) : (complement l).length = l.length :=
  List.length_map _

theorem value_complement (l : List (BitVec w)) :
    value (complement l) + value l + 1 = 2 ^ (w * l.length) := by
  induction l with
  | nil => rfl
  | cons x l ih =>
    have hx := x.isLt
    have hlow : (~~~ x).toNat + x.toNat + 1 = 2 ^ w := by
      rw [BitVec.toNat_not]
      omega
    calc value (complement (x :: l)) + value (x :: l) + 1
        = (~~~ x).toNat + x.toNat + 1 + 2 ^ w * (value (complement l) + value l) := by
          rw [complement, List.map_cons, value, value, complement]
          ring
      _ = 2 ^ w * (value (complement l) + value l + 1) := by
          rw [hlow]
          ring
      _ = 2 ^ (w * (x :: l).length) := by
          rw [ih, List.length_cons, Nat.mul_succ, Nat.add_comm, Nat.pow_add]

/-- The first pair of different words decides, and `tie` where there is none. -/
def topDown (tie : Bool) : List (BitVec w × BitVec w) → Bool
  | [] => tie
  | (x, y) :: l => if x < y then true else if y < x then false else topDown tie l

theorem topDown_append (tie : Bool) (l l' : List (BitVec w × BitVec w)) :
    topDown tie (l ++ l') = topDown (topDown tie l') l := by
  induction l with
  | nil => rfl
  | cons p l ih => rw [List.cons_append, topDown, topDown, ih]

theorem value_cons_lt_iff {x y : BitVec w} {l l' : List (BitVec w)} :
    value (x :: l) < value (y :: l') ↔ value l < value l' ∨ value l = value l' ∧ x < y := by
  have hx := x.isLt
  have hy := y.isLt
  have hmul : ∀ {a b : ℕ}, a < b → 2 ^ w * a + 2 ^ w ≤ 2 ^ w * b := fun h =>
    (Nat.mul_succ _ _).ge.trans (Nat.mul_le_mul_left _ h)
  rw [value, value, BitVec.lt_def]
  rcases Nat.lt_trichotomy (value l) (value l') with h | h | h
  · have := hmul h
    omega
  · rw [h]
    omega
  · have := hmul h
    omega

theorem value_cons_eq_iff {x y : BitVec w} {l l' : List (BitVec w)} :
    value (x :: l) = value (y :: l') ↔ value l = value l' ∧ x = y := by
  have hlt := @value_cons_lt_iff _ x y l l'
  have hgt := @value_cons_lt_iff _ y x l' l
  rw [BitVec.lt_def] at hlt hgt
  rw [← BitVec.toNat_inj]
  omega

theorem topDown_zip (tie : Bool) {l l' : List (BitVec w)} (hlen : l.length = l'.length) :
    topDown tie (l.zip l').reverse = true ↔ value l < value l' ∨ tie = true ∧ value l = value l' := by
  induction l generalizing tie l' with
  | nil =>
    obtain rfl := List.length_eq_zero_iff.mp hlen.symm
    simp [topDown, value]
  | cons x l ih =>
    cases l' with
    | nil => exact absurd hlen (by simp)
    | cons y l' =>
      have hlast : topDown tie [(x, y)] = true ↔ x < y ∨ tie = true ∧ x = y := by
        rw [topDown, topDown]
        have hx : x = y ↔ ¬ x < y ∧ ¬ y < x := by
          rw [BitVec.lt_def, BitVec.lt_def, ← BitVec.toNat_inj]
          omega
        split_ifs <;> simp_all
      rw [List.zip_cons_cons, List.reverse_cons, topDown_append, ih _ (Nat.succ.inj hlen), hlast,
        value_cons_lt_iff, value_cons_eq_iff]
      tauto

end WordNumber
