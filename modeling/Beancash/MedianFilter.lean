import Mathlib.Data.Int.Order.Basic
import Mathlib.Data.List.GetD
import Mathlib.Data.List.Sort
import Mathlib.Tactic.NormNum

namespace Beancash

/-- The sum of the two middle values of a sorted list of even length. -/
def middleSum (sorted : List ℤ) : ℤ :=
  sorted.getD (sorted.length / 2 - 1) 0 + sorted.getD (sorted.length / 2) 0

/-- The middle value, or the mean of the two middle ones rounded toward zero. -/
def medianOf (values : List ℤ) : ℤ :=
  let sorted := values.insertionSort (· ≤ ·)
  if sorted.length % 2 = 1 then sorted.getD (sorted.length / 2) 0 else (middleSum sorted).tdiv 2

/-- A value of the signed type of `w` bits. -/
def FitsBits (w : ℕ) (x : ℤ) : Prop := -2 ^ (w - 1) ≤ x ∧ x < 2 ^ (w - 1)

instance (w : ℕ) (x : ℤ) : Decidable (FitsBits w x) := inferInstanceAs (Decidable (_ ∧ _))

/-- The last `n` values of a list. -/
def window {α : Type} (n : ℕ) (values : List α) : List α := values.drop (values.length - n)

section Window

variable {α : Type}

theorem length_window (n : ℕ) (values : List α) :
    (window n values).length = min n values.length := by
  rw [window, List.length_drop]
  omega

theorem window_of_le {n : ℕ} {values : List α} (h : values.length ≤ n) :
    window n values = values := by
  rw [window, Nat.sub_eq_zero_of_le h, List.drop_zero]

theorem window_concat {n : ℕ} (hn : 1 ≤ n) (values : List α) (value : α) :
    window n (values ++ [value]) =
      (if (window n values).length = n then (window n values).tail else window n values) ++
        [value] := by
  rw [length_window, window, List.length_append, List.length_singleton]
  split_ifs with hfull
  · have hdrop : values.length + 1 - n = values.length - n + 1 := by omega
    rw [hdrop, List.drop_append_of_le_length (by omega), window, List.tail_drop]
  · have hzero : values.length + 1 - n = 0 := by omega
    rw [hzero, window_of_le (by omega), List.drop_zero]

theorem map_window {β : Type} (f : α → β) (n : ℕ) (values : List α) :
    (window n values).map f = window n (values.map f) := by
  rw [window, window, List.map_drop, List.length_map]

end Window

/-- `CMedianFilter`, over the signed integers of `w` bits. -/
structure MedianFilter (w : ℕ) where
  vValues : List (BitVec w)
  vSorted : List (BitVec w)
  nSize : UInt32

namespace MedianFilter

variable {w : ℕ}

def new (size : UInt32) (initialValue : BitVec w) : MedianFilter w :=
  ⟨[initialValue], [initialValue], size⟩

def input (f : MedianFilter w) (value : BitVec w) : MedianFilter w :=
  let vValues := if f.vValues.length = f.nSize.toNat then f.vValues.tail else f.vValues
  let vValues := vValues ++ [value]
  { f with
    vValues := vValues
    vSorted := vValues.insertionSort fun a b => a.toInt ≤ b.toInt }

/-- `median`, which is `none` where the assertion fails or the sum overflows. -/
def median (f : MedianFilter w) : Option (BitVec w) :=
  let size := (f.vSorted.length : ℤ).bmod (2 ^ 32)
  if size ≤ 0 then none
  else if size % 2 = 1 then f.vSorted[(size / 2).toNat]?
  else do
    let lower ← f.vSorted[(size / 2 - 1).toNat]?
    let upper ← f.vSorted[(size / 2).toNat]?
    if lower.saddOverflow upper then none else some ((lower + upper).sdiv 2)

def size (f : MedianFilter w) : ℤ := (f.vValues.length : ℤ).bmod (2 ^ 32)

def sorted (f : MedianFilter w) : List (BitVec w) := f.vSorted

/-- The last values, as many as a filter of the size holds. -/
def windowInts (nSize : UInt32) (values : List (BitVec w)) : List ℤ :=
  Beancash.window nSize.toNat (values.map BitVec.toInt)

/-- What is promised of a filter that was fed these values, the initial one first. -/
structure Filters (f : MedianFilter w) (values : List (BitVec w)) : Prop where
  window : f.vValues = window f.nSize.toNat values
  perm : f.sorted.Perm f.vValues
  sorted : f.sorted.Pairwise fun a b => a.toInt ≤ b.toInt
  median : ∃ m, f.median = some m ∧ m.toInt = medianOf (f.vValues.map BitVec.toInt)

/-- What the filter has after every input. -/
structure Holds (f : MedianFilter w) (nSize : UInt32) (values : List (BitVec w)) : Prop where
  size : f.nSize = nSize
  ne_nil : f.vValues ≠ []
  window : 1 ≤ nSize.toNat → f.vValues = Beancash.window nSize.toNat values
  sorted : f.vSorted = f.vValues.insertionSort fun a b => a.toInt ≤ b.toInt

theorem holds_new {nSize : UInt32} (initialValue : BitVec w) :
    (new nSize initialValue).Holds nSize [initialValue] where
  size := rfl
  ne_nil := List.cons_ne_nil _ _
  window := fun hpos => (window_of_le hpos).symm
  sorted := rfl

theorem Holds.input {f : MedianFilter w} {nSize : UInt32} {values : List (BitVec w)}
    (h : f.Holds nSize values) (value : BitVec w) :
    (f.input value).Holds nSize (values ++ [value]) where
  size := h.size
  ne_nil := List.append_ne_nil_of_right_ne_nil _ (List.cons_ne_nil _ _)
  window := fun hpos => by rw [window_concat hpos, ← h.window hpos, MedianFilter.input, h.size]
  sorted := rfl

theorem Holds.foldl {f : MedianFilter w} {nSize : UInt32} {values : List (BitVec w)}
    (h : f.Holds nSize values) (inputs : List (BitVec w)) :
    (inputs.foldl MedianFilter.input f).Holds nSize (values ++ inputs) := by
  induction inputs generalizing f values with
  | nil => rwa [List.append_nil]
  | cons value inputs ih =>
    rw [List.append_cons]
    exact ih (h.input value)

theorem map_sorted (values : List (BitVec w)) :
    (values.insertionSort fun a b => a.toInt ≤ b.toInt).map BitVec.toInt =
      (values.map BitVec.toInt).insertionSort (· ≤ ·) :=
  List.map_insertionSort _ _ _ _ fun _ _ _ _ => Iff.rfl

theorem toInt_half (hw : 3 ≤ w) {a b : BitVec w} (h : ¬a.saddOverflow b) :
    ((a + b).sdiv 2).toInt = (a.toInt + b.toInt).tdiv 2 := by
  have htwo : (2 : BitVec w).toInt = 2 := by
    have hpow : (8 : ℤ) ≤ 2 ^ w := by exact_mod_cast Nat.pow_le_pow_right two_pos hw
    rw [BitVec.ofNat_eq_ofNat, BitVec.toInt_ofNat']
    refine Int.bmod_eq_of_le_mul_two ?_ ?_ <;> push_cast <;> omega
  have hne : (2 : BitVec w) ≠ -1#w := by
    intro heq
    rw [heq, BitVec.neg_one_eq_allOnes, BitVec.toInt_allOnes, if_pos (by omega)] at htwo
    omega
  rw [BitVec.toInt_sdiv_of_ne_or_ne _ _ (.inr hne), BitVec.toInt_add_of_not_saddOverflow h, htwo]

theorem saddOverflow_iff (a b : BitVec w) :
    ¬a.saddOverflow b ↔ FitsBits w (a.toInt + b.toInt) := by
  rw [FitsBits, BitVec.saddOverflow, Bool.or_eq_true, decide_eq_true_iff, decide_eq_true_iff]
  omega

theorem ssubOverflow_iff (a b : BitVec w) :
    ¬a.ssubOverflow b ↔ FitsBits w (a.toInt - b.toInt) := by
  rw [FitsBits, BitVec.ssubOverflow, Bool.or_eq_true, decide_eq_true_iff, decide_eq_true_iff]
  omega

theorem bmod_length {n : ℕ} (h : n < 2 ^ 31) : (n : ℤ).bmod (2 ^ 32) = n :=
  Int.bmod_eq_of_le_mul_two (by omega) (by omega)

/-- The median of fewer than `2 ^ 31` values is right if and only if there is an odd number of them
or the two middle ones have a sum of `w` bits. -/
theorem median_iff (hw : 3 ≤ w) {f : MedianFilter w} (hne : f.vValues ≠ [])
    (hsorted : f.vSorted = f.vValues.insertionSort fun a b => a.toInt ≤ b.toInt)
    (hlen : f.vValues.length < 2 ^ 31) :
    (∃ m, f.median = some m ∧ m.toInt = medianOf (f.vValues.map BitVec.toInt)) ↔
      (f.vValues.length % 2 = 0 →
        FitsBits w (middleSum ((f.vValues.map BitVec.toInt).insertionSort (· ≤ ·)))) := by
  have hslen : f.vSorted.length = f.vValues.length := by rw [hsorted, List.length_insertionSort]
  have hpos : 0 < f.vValues.length := List.length_pos_iff.mpr hne
  have hsize : (f.vSorted.length : ℤ).bmod (2 ^ 32) = f.vSorted.length :=
    bmod_length (by omega)
  have hget : ∀ k (hk : k < f.vSorted.length),
      ((f.vValues.map BitVec.toInt).insertionSort (· ≤ ·)).getD k 0 = f.vSorted[k].toInt := by
    intro k hk
    rw [← map_sorted, ← hsorted, List.getD_eq_getElem _ _ (by rwa [List.length_map]),
      List.getElem_map]
  have hmaplen : ((f.vValues.map BitVec.toInt).insertionSort (· ≤ ·)).length = f.vSorted.length := by
    rw [List.length_insertionSort, List.length_map, hslen]
  unfold median medianOf
  dsimp only
  rw [hsize, hmaplen, if_neg (by omega)]
  rcases Nat.mod_two_eq_zero_or_one f.vSorted.length with heven | hodd
  · have hmid : f.vSorted.length / 2 < f.vSorted.length := by omega
    have hlower : ((f.vSorted.length : ℤ) / 2 - 1).toNat = f.vSorted.length / 2 - 1 := by omega
    have hupper : ((f.vSorted.length : ℤ) / 2).toNat = f.vSorted.length / 2 := by omega
    have hsum : middleSum ((f.vValues.map BitVec.toInt).insertionSort (· ≤ ·)) =
        f.vSorted[f.vSorted.length / 2 - 1].toInt + f.vSorted[f.vSorted.length / 2].toInt := by
      rw [middleSum, hmaplen, hget _ (by omega), hget _ hmid]
    rw [if_neg (by omega), if_neg (by omega), hlower, hupper, List.getElem?_eq_getElem hmid,
      List.getElem?_eq_getElem (by omega : f.vSorted.length / 2 - 1 < f.vSorted.length), hsum,
      ← saddOverflow_iff]
    simp only [Option.bind_eq_bind, Option.bind_some]
    constructor
    · rintro ⟨m, hm, -⟩ - hover
      rw [if_pos hover] at hm
      cases hm
    · intro hfits
      have hfits := hfits (by omega)
      exact ⟨_, if_neg hfits, toInt_half hw hfits⟩
  · have hmid : f.vSorted.length / 2 < f.vSorted.length := by omega
    have hmiddle : ((f.vSorted.length : ℤ) / 2).toNat = f.vSorted.length / 2 := by omega
    rw [if_pos (by omega), if_pos hodd, hmiddle, hget _ hmid, List.getElem?_eq_getElem hmid]
    exact ⟨fun _ heven => absurd heven (by omega), fun _ => ⟨_, rfl, rfl⟩⟩

/-- From `2 ^ 31` values on their number is negative as an `int`, and the assertion fails. -/
theorem median_of_many {f : MedianFilter w} (hlen : 2 ^ 31 ≤ f.vSorted.length)
    (hlt : f.vSorted.length < 2 ^ 32) : f.median = none := by
  have hsize : (f.vSorted.length : ℤ).bmod (2 ^ 32) ≤ 0 := by
    have hval : ((f.vSorted.length : ℤ) - (2 ^ 32 : ℕ)).bmod (2 ^ 32) =
        f.vSorted.length - (2 ^ 32 : ℕ) := by
      refine Int.bmod_eq_of_le_mul_two ?_ ?_ <;> push_cast <;> omega
    rw [← Int.sub_bmod_right, hval]
    push_cast
    omega
  unfold median
  dsimp only
  rw [if_pos hsize]

/-- After every sequence of inputs the filter has the last values, sorted, and their median, if and
only if its size is not 0, the values are fewer than `2 ^ 31`, and where their number is even the two
middle ones have a sum of `w` bits. -/
theorem medianFilter_inputs (hw : 3 ≤ w) (nSize : UInt32) (initialValue : BitVec w)
    (inputs : List (BitVec w)) :
    (inputs.foldl input (new nSize initialValue)).Filters (initialValue :: inputs) ↔
      1 ≤ nSize.toNat ∧ (windowInts nSize (initialValue :: inputs)).length < 2 ^ 31 ∧
        ((windowInts nSize (initialValue :: inputs)).length % 2 = 0 →
          FitsBits w (middleSum
            ((windowInts nSize (initialValue :: inputs)).insertionSort (· ≤ ·)))) := by
  set f := inputs.foldl input (new nSize initialValue)
  set values := windowInts nSize (initialValue :: inputs) with hvalues
  have hf : f.Holds nSize (initialValue :: inputs) := (holds_new initialValue).foldl inputs
  have hslen : f.vSorted.length = f.vValues.length := by rw [hf.sorted, List.length_insertionSort]
  have hmap : ∀ _ : 1 ≤ nSize.toNat, f.vValues.map BitVec.toInt = values := by
    intro hpos
    rw [hf.window hpos, map_window, hvalues, windowInts]
  have hlen : ∀ _ : 1 ≤ nSize.toNat, f.vValues.length = values.length := by
    intro hpos
    rw [← hmap hpos, List.length_map]
  constructor
  · intro h
    have hpos : 1 ≤ nSize.toNat := by
      rcases Nat.eq_zero_or_pos nSize.toNat with hzero | hpos
      · have hnil := h.window
        rw [hf.size, hzero, window, Nat.sub_zero, List.drop_length] at hnil
        exact absurd hnil hf.ne_nil
      · exact hpos
    have hlt : values.length < 2 ^ 31 := by
      by_contra hmany
      obtain ⟨m, hm, -⟩ := h.median
      have hbound : values.length ≤ nSize.toNat := by
        rw [hvalues, windowInts, length_window]
        exact Nat.min_le_left _ _
      have hsize := nSize.toNat_lt
      rw [median_of_many (by rw [hslen, hlen hpos]; omega) (by rw [hslen, hlen hpos]; omega)] at hm
      cases hm
    have hiff := median_iff hw hf.ne_nil hf.sorted (by rw [hlen hpos]; exact hlt)
    rw [hmap hpos, hlen hpos] at hiff
    refine ⟨hpos, hlt, hiff.mp ?_⟩
    rw [← hmap hpos]
    exact h.median
  · rintro ⟨hpos, hlt, hfits⟩
    have hiff := median_iff hw hf.ne_nil hf.sorted (by rw [hlen hpos]; exact hlt)
    rw [hmap hpos, hlen hpos] at hiff
    refine ⟨by rw [hf.size]; exact hf.window hpos, ?_, ?_, ?_⟩
    · rw [sorted, hf.sorted]
      exact List.perm_insertionSort _ _
    · have htotal : Std.Total fun a b : BitVec w => a.toInt ≤ b.toInt :=
        ⟨fun a b => le_total a.toInt b.toInt⟩
      have htrans : IsTrans (BitVec w) fun a b => a.toInt ≤ b.toInt := ⟨fun _ _ _ => le_trans⟩
      rw [sorted, hf.sorted]
      exact List.pairwise_insertionSort _ _
    · rw [hmap hpos]
      exact hiff.mpr hfits

theorem medianFilter_inputs_two :
    ([10, 20].foldl input (new 5 0) : MedianFilter 32).Filters [0, 10, 20] :=
  (medianFilter_inputs (by decide) 5 0 [10, 20]).mpr (by decide)

/-- `cPeerBlockCounts`, the heights claimed by the peers. -/
def cPeerBlockCounts : MedianFilter 32 := new 5 0

/-- Three peers claim the height `2 ^ 31 - 1`, and the two middle ones of the four values have no
sum. -/
theorem medianFilter_peers :
    ((List.replicate 3 2147483647).foldl input cPeerBlockCounts).median = none ∧
      ¬((List.replicate 3 2147483647).foldl input cPeerBlockCounts).Filters
        (0 :: List.replicate 3 2147483647) := by
  have hmedian : ((List.replicate 3 2147483647).foldl input cPeerBlockCounts).median = none := by
    decide
  refine ⟨hmedian, fun h => ?_⟩
  obtain ⟨m, hm, -⟩ := h.median
  rw [hmedian] at hm
  cases hm

end MedianFilter

end Beancash
