import Beancash.RadixString

/-!
# Regrouping bits

A number given by digits of `a` bits, the highest first, is written with digits of `b` bits. So many
digits as are complete are written, and the bits that are left stay in a buffer (`Regrouped`), which
in the end gives one more digit with zeros behind them (`flushed`). Regrouping what was written gives
the first digits again (`unique_back`), and regrouping what was read gives the written ones if no
bits were left but zeros (`flushed_eq`).
-/

namespace DigitRegrouping

open RadixString

/-- Of the bits of the digits `ins`, the digits `out` have the first ones and the buffer `x` has the
other `k`. -/
structure Regrouped (a b : ℕ) (ins out : List ℕ) (k x : ℕ) : Prop where
  value_eq : value (2 ^ b) out * 2 ^ k + x = value (2 ^ a) ins
  length_eq : b * out.length + k = a * ins.length
  buffer_lt : x < 2 ^ k
  digits_lt : ∀ d ∈ out, d < 2 ^ b

/-- The digits written in the end, where the last one has zeros for the bits it lacks. -/
def flushed (b : ℕ) (out : List ℕ) (k x : ℕ) : List ℕ :=
  if k = 0 then out else out ++ [x * 2 ^ (b - k)]

theorem value_concat (b : ℕ) (s : List ℕ) (d : ℕ) : value b (s ++ [d]) = value b s * b + d := by
  rw [value, value, List.reverse_append, List.reverse_singleton, List.singleton_append,
    Nat.ofDigits_cons, Nat.mul_comm, Nat.add_comm]

theorem value_injective {b : ℕ} (hb : 1 < b) {s t : List ℕ} (hlen : s.length = t.length)
    (hs : ∀ d ∈ s, d < b) (ht : ∀ d ∈ t, d < b) (hvalue : value b s = value b t) : s = t := by
  refine List.reverse_injective (Nat.ofDigits_inj_of_len_eq hb ?_ ?_ ?_ hvalue)
  · rw [List.length_reverse, List.length_reverse, hlen]
  · exact fun d hd => hs d (List.mem_reverse.mp hd)
  · exact fun d hd => ht d (List.mem_reverse.mp hd)

section Steps

variable {a b k x : ℕ} {ins out : List ℕ}

theorem regrouped_nil (a b : ℕ) : Regrouped a b [] [] 0 0 where
  value_eq := rfl
  length_eq := rfl
  buffer_lt := Nat.one_pos
  digits_lt := nofun

theorem Regrouped.feed (h : Regrouped a b ins out k x) {d : ℕ} (hd : d < 2 ^ a) :
    Regrouped a b (ins ++ [d]) out (k + a) (x * 2 ^ a + d) where
  value_eq := by
    rw [value_concat, ← h.value_eq, pow_add]
    ring
  length_eq := by
    rw [List.length_append, List.length_singleton, Nat.mul_add, Nat.mul_one, ← h.length_eq,
      Nat.add_assoc]
  buffer_lt := by
    have hmul := Nat.mul_le_mul_right (2 ^ a) (Nat.succ_le_of_lt h.buffer_lt)
    rw [Nat.succ_mul, ← pow_add] at hmul
    omega
  digits_lt := h.digits_lt

theorem Regrouped.emit (h : Regrouped a b ins out (k + b) x) :
    Regrouped a b ins (out ++ [x / 2 ^ k]) k (x % 2 ^ k) where
  value_eq := by
    have hdiv := Nat.div_add_mod' x (2 ^ k)
    rw [← h.value_eq, value_concat, Nat.add_mul, Nat.add_assoc, hdiv, pow_add]
    ring
  length_eq := by
    have hlen := h.length_eq
    rw [List.length_append, List.length_singleton, Nat.mul_add, Nat.mul_one]
    omega
  buffer_lt := Nat.mod_lt _ (Nat.two_pow_pos k)
  digits_lt := by
    intro d hd
    rcases List.mem_append.mp hd with hd | hd
    · exact h.digits_lt d hd
    · rw [List.mem_singleton.mp hd]
      refine Nat.div_lt_of_lt_mul ?_
      rw [← pow_add]
      exact h.buffer_lt

theorem Regrouped.length_flushed (h : Regrouped a b ins out k x) (hk : k < b) :
    b * (flushed b out k x).length = a * ins.length + if k = 0 then 0 else b - k := by
  have hlen := h.length_eq
  rw [flushed]
  split_ifs with hzero
  · omega
  · rw [List.length_append, List.length_singleton, Nat.mul_add]
    omega

theorem Regrouped.value_flushed (h : Regrouped a b ins out k x) (hk : k < b) :
    value (2 ^ b) (flushed b out k x) =
      value (2 ^ a) ins * 2 ^ if k = 0 then 0 else b - k := by
  rw [flushed, ← h.value_eq]
  split_ifs with hzero
  · subst hzero
    have hx := Nat.lt_one_iff.mp h.buffer_lt
    rw [hx, pow_zero, Nat.mul_one, Nat.mul_one, Nat.add_zero]
  · have hsplit : 2 ^ b = 2 ^ k * 2 ^ (b - k) := by rw [← pow_add, Nat.add_sub_cancel' hk.le]
    rw [value_concat, hsplit]
    ring

theorem Regrouped.flushed_lt (h : Regrouped a b ins out k x) (hk : k < b) :
    ∀ d ∈ flushed b out k x, d < 2 ^ b := by
  intro d hd
  rw [flushed] at hd
  split_ifs at hd with hzero
  · exact h.digits_lt d hd
  · rcases List.mem_append.mp hd with hd | hd
    · exact h.digits_lt d hd
    · have hsplit : 2 ^ b = 2 ^ k * 2 ^ (b - k) := by rw [← pow_add, Nat.add_sub_cancel' hk.le]
      rw [List.mem_singleton.mp hd, hsplit]
      exact Nat.mul_lt_mul_of_pos_right h.buffer_lt (Nat.two_pow_pos _)

theorem Regrouped.unique_back (h : Regrouped a b ins out k x) (ha : 0 < a) (hk : k < b) (hba : b ≤ a)
    (hins : ∀ d ∈ ins, d < 2 ^ a) {back : List ℕ} {k' x' : ℕ}
    (h' : Regrouped b a (flushed b out k x) back k' x') (hk' : k' < a) :
    back = ins ∧ k' = (if k = 0 then 0 else b - k) ∧ x' = 0 := by
  have hrest : (if k = 0 then 0 else b - k) < a := by
    split_ifs <;> omega
  have hlength := h'.length_eq
  rw [h.length_flushed hk] at hlength
  have hboth : back.length = ins.length ∧ k' = if k = 0 then 0 else b - k := by
    generalize (if k = 0 then 0 else b - k) = j at hrest hlength
    have hmod := congrArg (· % a) hlength
    simp only [Nat.mul_add_mod, Nat.mod_eq_of_lt hk', Nat.mod_eq_of_lt hrest] at hmod
    exact ⟨Nat.eq_of_mul_eq_mul_left ha (by omega), hmod⟩
  have hvalue := h'.value_eq
  rw [h.value_flushed hk, ← hboth.2] at hvalue
  have hzero : x' = 0 := by
    have hmod := congrArg (· % 2 ^ k') hvalue
    simpa [Nat.mul_add_mod', Nat.mod_eq_of_lt h'.buffer_lt] using hmod
  refine ⟨value_injective (Nat.one_lt_two_pow ha.ne') hboth.1 h'.digits_lt hins ?_, hboth.2, hzero⟩
  rw [hzero, Nat.add_zero] at hvalue
  exact Nat.eq_of_mul_eq_mul_right (Nat.two_pow_pos k') hvalue

theorem Regrouped.flushed_eq {back : List ℕ} {k' : ℕ} (h : Regrouped b a ins out k' 0)
    (hb : 0 < b) (hk' : k' < b) (hins : ∀ d ∈ ins, d < 2 ^ b)
    (h' : Regrouped a b out back k x) (hk : k < b) :
    flushed b back k x = ins := by
  have hlength := h'.length_flushed hk
  have hlength' := h.length_eq
  have hrest : (if k = 0 then 0 else b - k) = k' := by
    have hlt : (if k = 0 then 0 else b - k) < b := by
      split_ifs <;> omega
    generalize (if k = 0 then 0 else b - k) = j at hlt hlength
    have hmod : (a * out.length + j) % b = (a * out.length + k') % b := by
      rw [← hlength, hlength', Nat.mul_mod_right, Nat.mul_mod_right]
    have hcancel := Nat.ModEq.add_left_cancel' (a * out.length) hmod
    rwa [Nat.ModEq, Nat.mod_eq_of_lt hlt, Nat.mod_eq_of_lt hk'] at hcancel
  rw [hrest] at hlength
  refine value_injective (Nat.one_lt_two_pow hb.ne') ?_ (h'.flushed_lt hk) hins ?_
  · exact Nat.eq_of_mul_eq_mul_left hb (by omega)
  · rw [h'.value_flushed hk, hrest, ← h.value_eq, Nat.add_zero]

end Steps

end DigitRegrouping
