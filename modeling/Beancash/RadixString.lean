import Mathlib.Data.List.TakeWhile
import Mathlib.Data.Nat.Digits.Lemmas

namespace RadixString

/-- How many zeros a string begins with. -/
def leadingZeros (s : List ℕ) : ℕ := (s.takeWhile (· = 0)).length

def value (b : ℕ) (s : List ℕ) : ℕ := Nat.ofDigits b s.reverse

/-- The same string in another base. -/
def changeBase (b c : ℕ) (s : List ℕ) : List ℕ :=
  List.replicate (leadingZeros s) 0 ++ (Nat.digits c (value b s)).reverse

theorem replicate_leadingZeros_append (s : List ℕ) :
    List.replicate (leadingZeros s) 0 ++ s.dropWhile (· = 0) = s := by
  have hzeros : s.takeWhile (· = 0) = List.replicate (leadingZeros s) 0 := by
    refine List.eq_replicate_of_mem fun d hd => ?_
    simpa using List.mem_takeWhile_imp hd
  rw [← hzeros, List.takeWhile_append_dropWhile]

theorem value_replicate_append (b n : ℕ) (s : List ℕ) :
    value b (List.replicate n 0 ++ s) = value b s := by
  rw [value, value, List.reverse_append, List.reverse_replicate,
    Nat.ofDigits_append_replicate_zero]

theorem ofDigits_concat_concat (b d n : ℕ) (l : List ℕ) :
    Nat.ofDigits b (l ++ [n * b + d]) = Nat.ofDigits b (l ++ [d] ++ [n]) := by
  rw [List.append_assoc, List.singleton_append, Nat.ofDigits_append, Nat.ofDigits_append,
    Nat.ofDigits_singleton, Nat.ofDigits_cons, Nat.ofDigits_singleton, Nat.mul_comm n b,
    Nat.add_comm d]

theorem value_digits (b n : ℕ) : value b (Nat.digits b n).reverse = n := by
  rw [value, List.reverse_reverse, Nat.ofDigits_digits]

theorem digits_value {b : ℕ} (hb : 1 < b) {s : List ℕ} (hs : ∀ d ∈ s, d < b) :
    (Nat.digits b (value b s)).reverse = s.dropWhile (· = 0) := by
  have hsplit := replicate_leadingZeros_append s
  have hvalue : value b s = Nat.ofDigits b (s.dropWhile (· = 0)).reverse := by
    rw [← hsplit, value_replicate_append, hsplit, value]
  rw [hvalue, Nat.digits_ofDigits b hb, List.reverse_reverse]
  · exact fun d hd => hs d (List.dropWhile_sublist _ |>.mem (List.mem_reverse.mp hd))
  · intro hne hlast
    rw [List.getLast_reverse] at hlast
    have hfirst := List.head_dropWhile_not (fun d : ℕ => decide (d = 0))
      (List.reverse_ne_nil_iff.mp hne)
    simp [hlast] at hfirst

theorem takeWhile_digits (c n : ℕ) : (Nat.digits c n).reverse.takeWhile (· = 0) = [] := by
  rcases Nat.eq_zero_or_pos n with rfl | hn
  · simp
  · have hne : Nat.digits c n ≠ [] := Nat.digits_ne_nil_iff_ne_zero.mpr hn.ne'
    obtain ⟨front, last, hlast⟩ := (List.eq_nil_or_concat _).resolve_left hne
    rw [List.concat_eq_append] at hlast
    have hback := Nat.getLast_digit_ne_zero c hn.ne'
    simp only [hlast, List.getLast_append_singleton] at hback
    rw [hlast, List.reverse_append, List.reverse_singleton, List.singleton_append,
      List.takeWhile_cons_of_neg (by simpa using hback)]

theorem leadingZeros_changeBase (b c : ℕ) (s : List ℕ) :
    leadingZeros (changeBase b c s) = leadingZeros s := by
  have hzeros : ∀ d ∈ List.replicate (leadingZeros s) 0, decide (d = 0) = true := by
    intro d hd
    exact decide_eq_true (List.eq_of_mem_replicate hd)
  rw [leadingZeros, changeBase, List.takeWhile_append_of_pos hzeros, takeWhile_digits,
    List.append_nil, List.length_replicate]

theorem value_changeBase (b c : ℕ) (s : List ℕ) : value c (changeBase b c s) = value b s := by
  rw [changeBase, value_replicate_append, value_digits]

theorem changeBase_changeBase {b : ℕ} (hb : 1 < b) (c : ℕ) {s : List ℕ} (hs : ∀ d ∈ s, d < b) :
    changeBase c b (changeBase b c s) = s := by
  rw [changeBase, leadingZeros_changeBase, value_changeBase, digits_value hb hs,
    replicate_leadingZeros_append]

theorem lt_of_mem_changeBase (b : ℕ) {c : ℕ} (hc : 1 < c) (s : List ℕ) :
    ∀ d ∈ changeBase b c s, d < c := by
  intro d hd
  rcases List.mem_append.mp hd with hd | hd
  · rw [List.eq_of_mem_replicate hd]
    omega
  · exact Nat.digits_lt_base hc (List.mem_reverse.mp hd)

end RadixString
