import Beancash.RadixString
import Mathlib.Data.Nat.Digits.Defs

namespace Beancash

/-- The bytes of a literal. -/
def bytesOf (s : String) : List UInt8 := s.toList.map fun ch => ch.toNat.toUInt8

/-- What `c_str` shows of a string to those who read it up to the first zero. -/
def cStr (str : List UInt8) : List UInt8 := str.takeWhile (· ≠ 0)

def isspace (ch : UInt8) : Bool := ch == 32 || (9 ≤ ch && ch ≤ 13)

def isdigit (ch : UInt8) : Bool := 48 ≤ ch && ch ≤ 57

theorem map_ofNat_toNat (vch : List UInt8) : (vch.map UInt8.toNat).map UInt8.ofNat = vch := by
  rw [List.map_map]
  exact List.map_id'' (fun b => UInt8.ofNat_toNat) vch

theorem map_toNat_ofNat {digits : List ℕ} (h : ∀ d ∈ digits, d < 256) :
    (digits.map UInt8.ofNat).map UInt8.toNat = digits := by
  rw [List.map_map]
  refine (List.map_congr_left fun d hd => ?_).trans digits.map_id
  exact UInt8.toNat_ofNat_of_lt (h d hd)

theorem toNat_lt_of_mem (vch : List UInt8) : ∀ d ∈ vch.map UInt8.toNat, d < 256 := by
  intro d hd
  obtain ⟨b, -, rfl⟩ := List.mem_map.mp hd
  exact b.toNat_lt

/-- What `printf` makes of `%u`. -/
def decimal (n : ℕ) : List UInt8 :=
  if n = 0 then [48] else (Nat.digits 10 n).reverse.map fun d => .ofNat (48 + d)

def i64tostr (n : Int64) : List UInt8 :=
  if n.toInt < 0 then 45 :: decimal n.toInt.natAbs else decimal n.toInt.natAbs

/-- The digits that `strtoll` goes through. -/
def readDigits (str : List UInt8) : ℕ :=
  (str.takeWhile isdigit).foldl (fun n ch => n * 10 + (ch.toNat - 48)) 0

/-- The sign that `strtoll` looks for. -/
def readSign : List UInt8 → Bool × List UInt8
  | 45 :: str => (true, str)
  | 43 :: str => (false, str)
  | str => (false, str)

/-- `strtoll` to the base 10, which stops at the limits. -/
def atoi64 (str : List UInt8) : Int64 :=
  let (fNegative, digits) := readSign ((cStr str).dropWhile isspace)
  let n : ℤ := readDigits digits
  .ofInt (if fNegative then max (-2 ^ 63) (-n) else min (2 ^ 63 - 1) n)

theorem isdigit_of_mem_decimal (n : ℕ) : ∀ ch ∈ decimal n, isdigit ch = true := by
  intro ch hch
  rw [decimal] at hch
  split at hch
  · rw [List.mem_singleton.mp hch]
    rfl
  · obtain ⟨d, hd, rfl⟩ := List.mem_map.mp hch
    have hlt : d < 10 := Nat.digits_lt_base (by decide) (List.mem_reverse.mp hd)
    interval_cases d <;> rfl

theorem decimal_ne_nil (n : ℕ) : decimal n ≠ [] := by
  rw [decimal]
  split
  · exact List.cons_ne_nil _ _
  · rename_i hn
    simpa using Nat.digits_ne_nil_iff_ne_zero.mpr hn

theorem digit_plain {ch : UInt8} (h : isdigit ch = true) :
    ch ≠ 0 ∧ isspace ch = false ∧ ch ≠ 45 ∧ ch ≠ 43 := by
  simp only [isdigit, Bool.and_eq_true, decide_eq_true_eq, UInt8.le_iff_toNat_le] at h
  have hlow : 48 ≤ ch.toNat := h.1
  refine ⟨?_, ?_, ?_, ?_⟩
  · rintro rfl
    exact absurd hlow (by decide)
  · simp only [isspace, Bool.or_eq_false_iff, Bool.and_eq_false_iff, beq_eq_false_iff_ne,
      decide_eq_false_iff_not, UInt8.le_iff_toNat_le]
    refine ⟨?_, .inr fun hle => ?_⟩
    · rintro rfl
      exact absurd hlow (by decide)
    · have hle : ch.toNat ≤ 13 := hle
      omega
  · rintro rfl
    exact absurd hlow (by decide)
  · rintro rfl
    exact absurd hlow (by decide)

theorem readDigits_decimal (n : ℕ) : readDigits (decimal n) = n := by
  rw [readDigits, List.takeWhile_eq_self_iff.mpr (isdigit_of_mem_decimal n), decimal]
  split
  · rename_i hn
    rw [hn]
    rfl
  · have hfold : ∀ (digits : List ℕ) (_ : ∀ d ∈ digits, d < 10) (m : ℕ),
        (digits.map fun d => UInt8.ofNat (48 + d)).foldl (fun n ch => n * 10 + (ch.toNat - 48)) m =
          Nat.ofDigits 10 (digits.reverse ++ [m]) := by
      intro digits
      induction digits with
      | nil => simp
      | cons d digits ih =>
        intro hlt m
        have hd : (UInt8.ofNat (48 + d)).toNat - 48 = d := by
          have := hlt d List.mem_cons_self
          rw [UInt8.toNat_ofNat']
          omega
        rw [List.map_cons, List.foldl_cons, hd,
          ih fun e he => hlt e (List.mem_cons_of_mem _ he), List.reverse_cons,
          RadixString.ofDigits_concat_concat]
    rw [hfold _ (fun d hd => Nat.digits_lt_base (by decide) (List.mem_reverse.mp hd)),
      List.reverse_reverse, Nat.ofDigits_append_zero, Nat.ofDigits_digits]

theorem cStr_of_ne_zero {str : List UInt8} (h : ∀ ch ∈ str, ch ≠ 0) : cStr str = str := by
  refine List.takeWhile_eq_self_iff.mpr fun ch hch => ?_
  simpa using h ch hch

theorem cStr_decimal (n : ℕ) : cStr (decimal n) = decimal n :=
  cStr_of_ne_zero fun ch hch => (digit_plain (isdigit_of_mem_decimal n ch hch)).1

theorem readSign_digits {digits : List UInt8} (hall : ∀ ch ∈ digits, isdigit ch = true) :
    readSign (digits.dropWhile isspace) = (false, digits) := by
  cases digits with
  | nil => rfl
  | cons ch digits =>
    obtain ⟨-, hspace, hminus, hplus⟩ := digit_plain (hall ch List.mem_cons_self)
    rw [List.dropWhile_cons_of_neg (by rw [hspace]; exact Bool.false_ne_true)]
    unfold readSign
    split
    · rename_i heq
      exact absurd (List.cons.inj heq).1 hminus
    · rename_i heq
      exact absurd (List.cons.inj heq).1 hplus
    · rfl

theorem readSign_decimal (n : ℕ) :
    readSign ((decimal n).dropWhile isspace) = (false, decimal n) :=
  readSign_digits (isdigit_of_mem_decimal n)

theorem atoi64_decimal {n : ℕ} (h : n < 2 ^ 63) : atoi64 (decimal n) = .ofInt n := by
  rw [atoi64, cStr_decimal, readSign_decimal]
  dsimp only
  rw [readDigits_decimal, if_neg Bool.false_ne_true, min_eq_right (by omega)]

theorem atoi64_i64tostr (n : Int64) : atoi64 (i64tostr n) = n := by
  have hlow := n.le_toInt
  have hhigh := n.toInt_lt
  rw [i64tostr]
  split
  · rename_i hneg
    have hcStr : cStr (45 :: decimal n.toInt.natAbs) = 45 :: decimal n.toInt.natAbs := by
      refine cStr_of_ne_zero fun ch hch => ?_
      rcases List.mem_cons.mp hch with rfl | hch
      · decide
      · exact (digit_plain (isdigit_of_mem_decimal _ ch hch)).1
    rw [atoi64, hcStr, List.dropWhile_cons_of_neg (by decide), readSign]
    dsimp only
    rw [readDigits_decimal, if_pos rfl, max_eq_right (by omega),
      show -(n.toInt.natAbs : ℤ) = n.toInt by omega, Int64.ofInt_toInt]
  · rename_i hpos
    rw [atoi64_decimal (by omega), show (n.toInt.natAbs : ℤ) = n.toInt by omega,
      Int64.ofInt_toInt]

end Beancash
