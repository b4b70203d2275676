import Mathlib.Algebra.Order.Group.Unbundled.Abs
import Mathlib.Data.Finset.Insert
import Beancash.MedianFilter

namespace Beancash

/-- `abs64`, which is `none` where the negation overflows. -/
def abs64 (n : BitVec 64) : Option (BitVec 64) :=
  if 0 ≤ n.toInt then some n else if n.negOverflow then none else some (-n)

/-- What `AddTimeData` reads and changes. -/
structure TimeData (A : Type) where
  setKnown : Finset A
  vTimeOffsets : MedianFilter 64
  nTimeOffset : BitVec 64
  fDone : Bool
  strMiscWarning : String

/-- A call of `AddTimeData`, with the time of `GetTime` when it is made. -/
structure TimeSample (A : Type) where
  ip : A
  nTime : BitVec 64
  now : BitVec 64

/-- What the clock of the peer is ahead. -/
def TimeSample.offset {A : Type} (c : TimeSample A) : ℤ := c.nTime.toInt - c.now.toInt

/-- Does the time differ from ours but stay within 5 minutes of it, or did an earlier one? -/
def isNear (fMatch : Bool) (nOffset : BitVec 64) : Option Bool := do
  if nOffset = 0 then return fMatch
  let n ← abs64 nOffset
  return fMatch || n.toInt < 5 * 60

def nearMatch (vSorted : List (BitVec 64)) : Option Bool := vSorted.foldlM isNear false

namespace TimeData

variable {A : Type} [DecidableEq A]

def start : TimeData A := ⟨∅, .new 200 0, 0, false, ""⟩

/-- The part of `AddTimeData` for an odd number of samples. -/
def update (t : TimeData A) : Option (TimeData A) := do
  let nMedian ← t.vTimeOffsets.median
  let n ← abs64 nMedian
  if n.toInt < 70 * 60 then return { t with nTimeOffset := nMedian }
  let t := { t with nTimeOffset := 0 }
  if t.fDone then return t
  let fMatch ← nearMatch t.vTimeOffsets.sorted
  if fMatch then return t
  return { t with
    fDone := true
    strMiscWarning := "Warning: Please check that your computer's date and time are correct! If " ++
      "your clock is wrong Beancash will not work properly." }

/-- The address and the offset are taken up. -/
def sample (t : TimeData A) (c : TimeSample A) : TimeData A :=
  { t with
    setKnown := insert c.ip t.setKnown
    vTimeOffsets := t.vTimeOffsets.input (c.nTime - c.now) }

def addTimeData (t : TimeData A) (c : TimeSample A) : Option (TimeData A) :=
  if c.nTime.ssubOverflow c.now then none
  else if c.ip ∈ t.setKnown then some t
  else
    let t := t.sample c
    if 5 ≤ t.vTimeOffsets.size ∧ t.vTimeOffsets.size % 2 = 1 then t.update else some t

end TimeData

/-- What a median leads to: other nodes change our time only by so much. -/
def follow (m : ℤ) : ℤ := if |m| < 70 * 60 then m else 0

namespace TimeData

variable {A : Type} [DecidableEq A]

/-- The offset after a call is that of the window after it or of the window before it, once there
are 6 values. -/
def Follows (t : TimeData A) (before after : List ℤ) : Prop :=
  6 ≤ (window 200 after).length → t.nTimeOffset.toInt = follow (medianOf (window 200 after)) ∨
    t.nTimeOffset.toInt = follow (medianOf (window 200 before))

/-- Every call of the sequence returns and leaves such an offset; `values` has the initial 0 and
the offsets of the calls before. -/
def Lawful (t : TimeData A) (values : List ℤ) : List (TimeSample A) → Prop
  | [] => True
  | c :: calls => ∃ t', t.addTimeData c = some t' ∧
    t'.Follows values (values ++ [c.offset]) ∧ t'.Lawful (values ++ [c.offset]) calls

/-- The arithmetic of a call does not overflow, and a full window has the median that the first 199
values had, as far as it leads to an offset. -/
structure Meets (t : TimeData A) (values : List ℤ) (c : TimeSample A) : Prop where
  fits : FitsBits 64 c.offset
  median : 5 ≤ values.length + 1 → values.length + 1 < 200 → (values.length + 1) % 2 = 1 →
    medianOf (values ++ [c.offset]) ≠ -2 ^ 63
  nearby : 5 ≤ values.length + 1 → values.length + 1 < 200 → (values.length + 1) % 2 = 1 →
    70 * 60 ≤ |medianOf (values ++ [c.offset])| → t.fDone = false →
      -2 ^ 63 ∉ values ++ [c.offset]
  full : 200 ≤ values.length →
    follow (medianOf (values.take 199)) =
        follow (medianOf (window 200 (values ++ [c.offset]))) ∨
      follow (medianOf (values.take 199)) = follow (medianOf (window 200 values))

/-- Every call of the sequence is met like this. -/
def AllMeet (t : TimeData A) (values : List ℤ) : List (TimeSample A) → Prop
  | [] => True
  | c :: calls => t.Meets values c ∧
    ∀ t' ∈ t.addTimeData c, t'.AllMeet (values ++ [c.offset]) calls

end TimeData

theorem abs64_eq (n : BitVec 64) :
    (n.toInt = -2 ^ 63 ∧ abs64 n = none) ∨
      (n.toInt ≠ -2 ^ 63 ∧ ∃ a, abs64 n = some a ∧ a.toInt = |n.toInt|) := by
  rw [abs64]
  by_cases hpos : 0 ≤ n.toInt
  · rw [if_pos hpos]
    exact .inr ⟨by omega, n, rfl, (abs_of_nonneg hpos).symm⟩
  · rw [if_neg hpos]
    by_cases hover : n.negOverflow
    · rw [if_pos hover]
      rw [BitVec.negOverflow, beq_iff_eq] at hover
      exact .inl ⟨hover, rfl⟩
    · rw [if_neg hover]
      have hne : n.toInt ≠ -2 ^ 63 := by
        intro heq
        rw [BitVec.negOverflow, beq_iff_eq] at hover
        exact hover heq
      exact .inr ⟨hne, -n, rfl, (BitVec.toInt_neg_of_not_negOverflow hover).trans
        (abs_of_neg (not_le.mp hpos)).symm⟩

theorem isNear_eq (fMatch : Bool) (nOffset : BitVec 64) :
    (nOffset.toInt = -2 ^ 63 ∧ isNear fMatch nOffset = none) ∨
      (nOffset.toInt ≠ -2 ^ 63 ∧ ∃ fMatch', isNear fMatch nOffset = some fMatch') := by
  rw [isNear]
  by_cases hzero : nOffset = 0
  · rw [if_pos hzero, hzero]
    exact .inr ⟨by decide, fMatch, rfl⟩
  · rw [if_neg hzero]
    rcases abs64_eq nOffset with ⟨hmin, hnone⟩ | ⟨hmin, n, hsome, -⟩
    · exact .inl ⟨hmin, by rw [hnone]; rfl⟩
    · exact .inr ⟨hmin, _, by rw [hsome]; rfl⟩

theorem nearMatch_isSome (vSorted : List (BitVec 64)) :
    (∃ fMatch, nearMatch vSorted = some fMatch) ↔ -2 ^ 63 ∉ vSorted.map BitVec.toInt := by
  rw [nearMatch]
  generalize false = fMatch
  induction vSorted generalizing fMatch with
  | nil => exact ⟨fun _ => List.not_mem_nil, fun _ => ⟨fMatch, rfl⟩⟩
  | cons nOffset rest ih =>
    rw [List.map_cons, List.mem_cons, not_or, List.foldlM_cons]
    rcases isNear_eq fMatch nOffset with ⟨hmin, hnone⟩ | ⟨hmin, fMatch', hsome⟩
    · rw [hnone]
      exact ⟨fun ⟨_, h⟩ => (nomatch h), fun h => absurd hmin.symm h.1⟩
    · rw [hsome, and_iff_right (Ne.symm hmin)]
      exact ih fMatch'

theorem medianOf_replicate {n : ℕ} (hn : 0 < n) (a : ℤ) : medianOf (List.replicate n a) = a := by
  have hsorted : (List.replicate n a).insertionSort (· ≤ ·) = List.replicate n a :=
    List.Pairwise.insertionSort_eq (List.pairwise_replicate.mpr (.inr (le_refl a)))
  have hget : ∀ k < n, (List.replicate n a).getD k 0 = a := by
    intro k hk
    rw [List.getD_eq_getElem _ _ (by rwa [List.length_replicate]), List.getElem_replicate]
  unfold medianOf
  dsimp only
  rw [hsorted, List.length_replicate]
  split_ifs with hodd
  · exact hget _ (by omega)
  · rw [middleSum, List.length_replicate, hget _ (by omega), hget _ (by omega), ← two_mul]
    exact Int.mul_tdiv_cancel_left a two_ne_zero

theorem follow_eq {m : ℤ} (h : |m| < 70 * 60) : follow m = m := if_pos h

theorem follow_zero {m : ℤ} (h : ¬|m| < 70 * 60) : follow m = 0 := if_neg h

namespace TimeData

/-- The update needs the absolute values it takes, and then has what the median leads to. -/
theorem update_spec {A : Type} {t : TimeData A} {nMedian : BitVec 64}
    (hmedian : t.vTimeOffsets.median = some nMedian) :
    ((∃ t', t.update = some t') ↔ nMedian.toInt ≠ -2 ^ 63 ∧
        (70 * 60 ≤ |nMedian.toInt| → t.fDone = false →
          -2 ^ 63 ∉ t.vTimeOffsets.sorted.map BitVec.toInt)) ∧
      ∀ t', t.update = some t' → t'.vTimeOffsets = t.vTimeOffsets ∧ t'.setKnown = t.setKnown ∧
        t'.nTimeOffset.toInt = follow nMedian.toInt := by
  rw [update, hmedian]
  simp only [Option.bind_eq_bind, Option.bind_some]
  rcases abs64_eq nMedian with ⟨hmin, hnone⟩ | ⟨hmin, n, hsome, habs⟩
  · rw [hnone]
    exact ⟨⟨fun ⟨_, h⟩ => (nomatch h), fun h => absurd hmin h.1⟩, fun _ h => nomatch h⟩
  · rw [hsome, Option.bind_some, habs]
    by_cases hsmall : |nMedian.toInt| < 70 * 60
    · rw [if_pos hsmall]
      refine ⟨⟨fun _ => ⟨hmin, fun hlarge => absurd hsmall (not_lt.mpr hlarge)⟩,
        fun _ => ⟨_, rfl⟩⟩, ?_⟩
      rintro t' ⟨⟩
      exact ⟨rfl, rfl, (follow_eq hsmall).symm⟩
    · rw [if_neg hsmall]
      cases hdone : t.fDone with
      | true =>
        refine ⟨⟨fun _ => ⟨hmin, fun _ h => nomatch h⟩, fun _ => ⟨_, if_pos rfl⟩⟩, ?_⟩
        rintro t' ht'
        rw [if_pos rfl] at ht'
        cases ht'
        exact ⟨rfl, rfl, (follow_zero hsmall).symm⟩
      | false =>
        rw [if_neg Bool.false_ne_true]
        constructor
        · rw [← nearMatch_isSome]
          constructor
          · rintro ⟨t', ht'⟩
            refine ⟨hmin, fun _ _ => ?_⟩
            obtain ⟨fMatch, hmatch, -⟩ := Option.bind_eq_some_iff.mp ht'
            exact ⟨fMatch, hmatch⟩
          · rintro ⟨-, hnear⟩
            obtain ⟨fMatch, hmatch⟩ := hnear (not_lt.mp hsmall) rfl
            rw [hmatch, Option.bind_some]
            cases fMatch
            · exact ⟨_, if_neg Bool.false_ne_true⟩
            · exact ⟨_, if_pos rfl⟩
        · intro t' ht'
          obtain ⟨fMatch, -, ht'⟩ := Option.bind_eq_some_iff.mp ht'
          cases fMatch <;> cases ht' <;> exact ⟨rfl, rfl, (follow_zero hsmall).symm⟩

/-- Which of the first values are those of the last update. -/
def lastOdd (k : ℕ) : ℕ := if 200 ≤ k then 199 else k - (k + 1) % 2

/-- What holds after the calls that gave these values. -/
structure Holds {A : Type} (t : TimeData A) (values : List ℤ) : Prop where
  filter : ∃ fed : List (BitVec 64), fed.map BitVec.toInt = values ∧ t.vTimeOffsets.Holds 200 fed
  offset : 5 ≤ values.length →
    t.nTimeOffset.toInt = follow (medianOf (values.take (lastOdd values.length)))

theorem holds_start {A : Type} : (start : TimeData A).Holds [0] where
  filter := ⟨[0], rfl, MedianFilter.holds_new 0⟩
  offset := fun h => absurd h (by decide)

end TimeData

section Filter

variable {f : MedianFilter 64} {fed : List (BitVec 64)}

theorem toNat_two_hundred : (200 : UInt32).toNat = 200 := rfl

theorem map_vValues (h : f.Holds 200 fed) :
    f.vValues.map BitVec.toInt = window 200 (fed.map BitVec.toInt) := by
  rw [h.window (by decide), map_window, toNat_two_hundred]

theorem size_eq (h : f.Holds 200 fed) : f.size = (min 200 fed.length : ℕ) := by
  have hlen : f.vValues.length = min 200 fed.length := by
    rw [h.window (by decide), length_window, toNat_two_hundred]
  unfold MedianFilter.size
  rw [hlen]
  exact MedianFilter.bmod_length (by omega)

theorem median_of_odd (h : f.Holds 200 fed) (hodd : fed.length % 2 = 1) (hlt : fed.length < 200) :
    ∃ m, f.median = some m ∧ m.toInt = medianOf (fed.map BitVec.toInt) := by
  have hvalues : f.vValues.map BitVec.toInt = fed.map BitVec.toInt := by
    rw [map_vValues h, window_of_le (by rw [List.length_map]; omega)]
  have hlen : f.vValues.length = fed.length := by simpa using congrArg List.length hvalues
  rw [← hvalues]
  exact (MedianFilter.median_iff (by decide) h.ne_nil h.sorted (by omega)).mpr (by omega)

end Filter

namespace TimeData

variable {A : Type} [DecidableEq A] {t : TimeData A} {values : List ℤ} {c : TimeSample A}

theorem addTimeData_eq (hknown : c.ip ∉ t.setKnown) (hfits : FitsBits 64 c.offset) :
    t.addTimeData c = if 5 ≤ (t.sample c).vTimeOffsets.size ∧ (t.sample c).vTimeOffsets.size % 2 = 1
      then (t.sample c).update else some (t.sample c) := by
  rw [addTimeData, if_neg ((MedianFilter.ssubOverflow_iff _ _).mpr hfits), if_neg hknown]

theorem fits_of_addTimeData {t' : TimeData A} (ht' : t.addTimeData c = some t') :
    FitsBits 64 c.offset := by
  refine (MedianFilter.ssubOverflow_iff _ _).mp fun hover => ?_
  rw [addTimeData, if_pos hover] at ht'
  cases ht'

theorem sample_holds (h : t.Holds values) (hfits : FitsBits 64 c.offset) :
    ∃ fed : List (BitVec 64), fed.map BitVec.toInt = values ++ [c.offset] ∧
      (t.sample c).vTimeOffsets.Holds 200 fed := by
  obtain ⟨fed, hfed, hholds⟩ := h.filter
  refine ⟨fed ++ [c.nTime - c.now], ?_, hholds.input _⟩
  rw [List.map_append, hfed, List.map_singleton, BitVec.toInt_sub_of_not_ssubOverflow
    ((MedianFilter.ssubOverflow_iff _ _).mpr hfits)]
  rfl

/-- The fifth value and every other one after it, up to a full window, make an update. -/
theorem Holds.addTimeData_odd (h : t.Holds values) (hknown : c.ip ∉ t.setKnown)
    (hfits : FitsBits 64 c.offset) (hfive : 5 ≤ values.length + 1) (hroom : values.length + 1 < 200)
    (hodd : (values.length + 1) % 2 = 1) :
    ((∃ t', t.addTimeData c = some t' ∧ t'.Follows values (values ++ [c.offset])) ↔
        t.Meets values c) ∧
      ∀ t', t.addTimeData c = some t' →
        t'.Holds (values ++ [c.offset]) ∧ t'.setKnown = insert c.ip t.setKnown := by
  obtain ⟨fed, hfed, hholds⟩ := sample_holds h hfits
  have hlen : fed.length = values.length + 1 := by simpa using congrArg List.length hfed
  have hsize := size_eq hholds
  have hwindow : window 200 (values ++ [c.offset]) = values ++ [c.offset] := by
    refine window_of_le ?_
    rw [List.length_append, List.length_singleton]
    omega
  obtain ⟨nMedian, hmedian, hvalue⟩ := median_of_odd hholds (by omega) (by omega)
  rw [hfed] at hvalue
  have hsorted : -2 ^ 63 ∈ (t.sample c).vTimeOffsets.sorted.map BitVec.toInt ↔
      -2 ^ 63 ∈ values ++ [c.offset] := by
    rw [MedianFilter.sorted, hholds.sorted, ← hwindow, ← hfed, ← map_vValues hholds]
    exact ((List.perm_insertionSort _ _).map _).mem_iff
  obtain ⟨hiff, hupdate⟩ := update_spec hmedian
  rw [addTimeData_eq hknown hfits, if_pos (by omega)]
  rw [hvalue] at hiff hupdate
  constructor
  · constructor
    · rintro ⟨t', ht', -⟩
      obtain ⟨hmin, hnear⟩ := hiff.mp ⟨t', ht'⟩
      exact ⟨hfits, fun _ _ _ => hmin, fun _ _ _ hlarge hdone => hsorted.not.mp (hnear hlarge hdone),
        fun hfull => absurd hfull (by omega)⟩
    · intro hmeets
      obtain ⟨t', ht'⟩ := hiff.mpr ⟨hmeets.median hfive hroom hodd,
        fun hlarge hdone => hsorted.not.mpr (hmeets.nearby hfive hroom hodd hlarge hdone)⟩
      refine ⟨t', ht', fun _ => .inl ?_⟩
      rw [(hupdate t' ht').2.2, hwindow]
  · intro t' ht'
    obtain ⟨hfilter, hset, hoffset⟩ := hupdate t' ht'
    refine ⟨⟨⟨fed, hfed, by rw [hfilter]; exact hholds⟩, fun _ => ?_⟩, hset⟩
    have hall : lastOdd (values ++ [c.offset]).length = (values ++ [c.offset]).length := by
      rw [List.length_append, List.length_singleton, lastOdd, if_neg (by omega)]
      omega
    rw [hoffset, hall, List.take_length]

theorem Holds.addTimeData_even (h : t.Holds values) (hknown : c.ip ∉ t.setKnown)
    (hfits : FitsBits 64 c.offset)
    (hother : ¬(5 ≤ values.length + 1 ∧ values.length + 1 < 200 ∧ (values.length + 1) % 2 = 1)) :
    ((∃ t', t.addTimeData c = some t' ∧ t'.Follows values (values ++ [c.offset])) ↔
        t.Meets values c) ∧
      ∀ t', t.addTimeData c = some t' →
        t'.Holds (values ++ [c.offset]) ∧ t'.setKnown = insert c.ip t.setKnown := by
  obtain ⟨fed, hfed, hholds⟩ := sample_holds h hfits
  have hlen : fed.length = values.length + 1 := by simpa using congrArg List.length hfed
  have hsize := size_eq hholds
  have hstays : (t.sample c).nTimeOffset = t.nTimeOffset := rfl
  rw [addTimeData_eq hknown hfits, if_neg (by omega)]
  constructor
  · have hlength : (window 200 (values ++ [c.offset])).length = min 200 (values.length + 1) := by
      rw [length_window, List.length_append, List.length_singleton]
    constructor
    · rintro ⟨t', ht', hfollows⟩
      cases ht'
      refine ⟨hfits, fun h₁ h₂ h₃ => absurd ⟨h₁, h₂, h₃⟩ hother,
        fun h₁ h₂ h₃ => absurd ⟨h₁, h₂, h₃⟩ hother, fun hfull => ?_⟩
      have hoffset := h.offset (by omega)
      rw [lastOdd, if_pos hfull] at hoffset
      rw [← hoffset]
      exact hfollows (by omega)
    · intro hmeets
      refine ⟨t.sample c, rfl, fun hsix => ?_⟩
      have hoffset := h.offset (by omega)
      rw [hstays, hoffset]
      rcases Nat.lt_or_ge values.length 200 with hroom | hfull
      · have hall : lastOdd values.length = values.length := by
          rw [lastOdd, if_neg (by omega)]
          omega
        rw [hall, List.take_length, window_of_le (by omega : values.length ≤ 200)]
        exact .inr rfl
      · rw [lastOdd, if_pos hfull]
        exact hmeets.full hfull
  · rintro t' ⟨⟩
    refine ⟨⟨⟨fed, hfed, hholds⟩, fun hfive => ?_⟩, rfl⟩
    rw [List.length_append, List.length_singleton] at hfive ⊢
    have hsame : lastOdd (values.length + 1) = lastOdd values.length := by
      unfold lastOdd
      split_ifs <;> omega
    have hle : lastOdd values.length ≤ values.length := by
      unfold lastOdd
      split_ifs <;> omega
    rw [hstays, h.offset (by omega), hsame, List.take_append_of_le_length hle]

theorem Holds.addTimeData (h : t.Holds values) (hknown : c.ip ∉ t.setKnown) :
    ((∃ t', t.addTimeData c = some t' ∧ t'.Follows values (values ++ [c.offset])) ↔
        t.Meets values c) ∧
      ∀ t', t.addTimeData c = some t' →
        t'.Holds (values ++ [c.offset]) ∧ t'.setKnown = insert c.ip t.setKnown := by
  by_cases hfits : FitsBits 64 c.offset
  · by_cases hcount : 5 ≤ values.length + 1 ∧ values.length + 1 < 200 ∧ (values.length + 1) % 2 = 1
    · exact h.addTimeData_odd hknown hfits hcount.1 hcount.2.1 hcount.2.2
    · exact h.addTimeData_even hknown hfits hcount
  · exact ⟨⟨fun ⟨_, ht', _⟩ => absurd (fits_of_addTimeData ht') hfits,
      fun hmeets => absurd hmeets.fits hfits⟩,
      fun _ ht' => absurd (fits_of_addTimeData ht') hfits⟩

theorem unknown_next {calls : List (TimeSample A)} (hfresh : c.ip ∉ calls.map TimeSample.ip)
    (hknown : ∀ c' ∈ c :: calls, c'.ip ∉ t.setKnown) {t' : TimeData A}
    (hset : t'.setKnown = insert c.ip t.setKnown) : ∀ c' ∈ calls, c'.ip ∉ t'.setKnown := by
  intro c' hc' hmem
  rw [hset, Finset.mem_insert] at hmem
  rcases hmem with heq | hmem
  · exact hfresh (heq ▸ List.mem_map_of_mem hc')
  · exact hknown c' (List.mem_cons_of_mem c hc') hmem

theorem Holds.lawful_iff {calls : List (TimeSample A)} (h : t.Holds values)
    (hknown : ∀ c ∈ calls, c.ip ∉ t.setKnown) (hnodup : (calls.map TimeSample.ip).Nodup) :
    t.Lawful values calls ↔ t.AllMeet values calls := by
  induction calls generalizing t values with
  | nil => exact Iff.rfl
  | cons c calls ih =>
    obtain ⟨hfresh, hnodup⟩ := List.nodup_cons.mp hnodup
    obtain ⟨hiff, hnext⟩ := h.addTimeData (hknown c List.mem_cons_self)
    have hrest := fun t' ht' => unknown_next hfresh hknown (hnext t' ht').2
    constructor
    · rintro ⟨t', ht', hfollows, hlawful⟩
      refine ⟨hiff.mp ⟨t', ht', hfollows⟩, fun t'' ht'' => ?_⟩
      obtain rfl : t' = t'' := Option.some.inj (ht'.symm.trans ht'')
      exact (ih (hnext t' ht').1 (hrest t' ht') hnodup).mp hlawful
    · rintro ⟨hmeets, hall⟩
      obtain ⟨t', ht', hfollows⟩ := hiff.mpr hmeets
      exact ⟨t', ht', hfollows, (ih (hnext t' ht').1 (hrest t' ht') hnodup).mpr (hall t' ht')⟩

theorem Holds.meets_last {before : List (TimeSample A)} (h : t.Holds values)
    (hknown : ∀ c' ∈ before ++ [c], c'.ip ∉ t.setKnown)
    (hnodup : ((before ++ [c]).map TimeSample.ip).Nodup)
    (hlawful : t.Lawful values (before ++ [c])) :
    ∃ t' : TimeData A, t'.Meets (values ++ before.map TimeSample.offset) c := by
  induction before generalizing t values with
  | nil =>
    obtain ⟨t', ht', hfollows, -⟩ := hlawful
    rw [List.map_nil, List.append_nil]
    exact ⟨t, (h.addTimeData (hknown c List.mem_cons_self)).1.mp ⟨t', ht', hfollows⟩⟩
  | cons first before ih =>
    obtain ⟨hfresh, hnodup⟩ := List.nodup_cons.mp hnodup
    obtain ⟨t', ht', -, hlawful⟩ := hlawful
    obtain ⟨hholds, hset⟩ := (h.addTimeData (hknown first List.mem_cons_self)).2 t' ht'
    rw [List.map_cons, List.append_cons]
    exact ih hholds (unknown_next hfresh hknown hset) hnodup hlawful

end TimeData

open TimeData in
/-- From distinct addresses, every call returns and leaves an offset that follows the median after
it or before it if and only if no arithmetic overflows and each median of a full window, after the
call or before it, leads to the same offset as that of the first 199 values. -/
theorem addTimeData_run {A : Type} [DecidableEq A] {calls : List (TimeSample A)}
    (hnodup : (calls.map TimeSample.ip).Nodup) :
    (start : TimeData A).Lawful [0] calls ↔ (start : TimeData A).AllMeet [0] calls :=
  holds_start.lawful_iff (fun _ _ => Finset.notMem_empty _) hnodup

namespace Sample

def ahead (seconds : BitVec 64) (ip : ℕ) : TimeSample ℕ := ⟨ip, 1600000000 + seconds, 1600000000⟩

/-- The clocks of 199 peers agree with ours, and those of the next 200 are ahead of it. -/
def agreeing : List (TimeSample ℕ) :=
  (List.range' 0 199).map (ahead 0) ++ (List.range' 199 200).map (ahead 100)

end Sample

namespace TimeData

theorem meets_of_few {A : Type} {t : TimeData A} {values : List ℤ} {c : TimeSample A}
    (hfits : FitsBits 64 c.offset) (hfew : values.length + 1 < 5) : t.Meets values c where
  fits := hfits
  median := fun hfive => absurd hfive (by omega)
  nearby := fun hfive => absurd hfive (by omega)
  full := fun hfull => absurd hfull (by omega)

end TimeData

open TimeData Sample in
/-- The offset of four peers is followed. -/
theorem addTimeData_run_four :
    (start : TimeData ℕ).Lawful [0] [ahead 10 0, ahead 20 1, ahead 30 2, ahead 40 3] := by
  refine (addTimeData_run (by decide)).mpr ?_
  refine ⟨meets_of_few (by decide) (by decide), fun _ _ => ⟨meets_of_few (by decide) (by decide),
    fun _ _ => ⟨meets_of_few (by decide) (by decide), fun _ _ => ⟨?_, fun _ _ => trivial⟩⟩⟩⟩
  exact ⟨by decide, by decide, fun _ _ _ hlarge => absurd hlarge (by decide), by decide⟩

open TimeData Sample in
/-- When the window is full, 200 peers whose clocks are ahead fill it with their offset, which the
next one has as well. It is not followed. -/
theorem addTimeData_frozen :
    ((agreeing ++ [ahead 100 399]).map TimeSample.ip).Nodup ∧
      ¬(start : TimeData ℕ).Lawful [0] (agreeing ++ [ahead 100 399]) := by
  have hzero : (1600000000 + 0 : BitVec 64).toInt - (1600000000 : BitVec 64).toInt = 0 := by decide
  have hhundred : (1600000000 + 100 : BitVec 64).toInt - (1600000000 : BitVec 64).toInt = 100 := by
    decide
  have hips : (agreeing ++ [ahead 100 399]).map TimeSample.ip = List.range' 0 400 := by
    have hip : ∀ seconds, TimeSample.ip ∘ ahead seconds = id := fun _ => rfl
    have hrange : List.range' 0 199 ++ List.range' 199 200 = List.range' 0 399 :=
      List.range'_append_1
    rw [agreeing, List.map_append, List.map_append, List.map_map, List.map_map, hip, hip, List.map_id,
      List.map_id, hrange]
    exact List.range'_1_concat.symm
  have hnodup : ((agreeing ++ [ahead 100 399]).map TimeSample.ip).Nodup := by
    rw [hips]
    exact List.nodup_range'
  have hvalues : [0] ++ agreeing.map TimeSample.offset =
      List.replicate 200 0 ++ List.replicate 200 100 := by
    have hagree : TimeSample.offset ∘ ahead 0 = fun _ => 0 := funext fun _ => hzero
    have hahead : TimeSample.offset ∘ ahead 100 = fun _ => 100 := funext fun _ => hhundred
    rw [agreeing, List.map_append, List.map_map, List.map_map, hagree, hahead, List.map_const',
      List.map_const', List.length_range', List.length_range', List.singleton_append,
      ← List.cons_append]
    exact congrArg (· ++ List.replicate 200 100) List.replicate_succ.symm
  refine ⟨hnodup, fun hlawful => ?_⟩
  obtain ⟨t', hmeets⟩ := holds_start.meets_last (fun _ _ => Finset.notMem_empty _) hnodup hlawful
  rw [hvalues] at hmeets
  have hlen : (List.replicate 200 (0 : ℤ) ++ List.replicate 200 100).length = 400 := by
    rw [List.length_append, List.length_replicate, List.length_replicate]
  have hfull := hmeets.full (by omega)
  have hbefore : window 200 (List.replicate 200 (0 : ℤ) ++ List.replicate 200 100) =
      List.replicate 200 100 := by
    rw [window, hlen]
    exact List.drop_left' List.length_replicate
  have hafter : window 200 (List.replicate 200 (0 : ℤ) ++ List.replicate 200 100 ++
      [(ahead 100 399).offset]) = List.replicate 200 100 := by
    have hlast : (ahead 100 399).offset = 100 := hhundred
    rw [window_concat (by decide), hbefore, List.length_replicate, if_pos rfl, List.tail_replicate,
      hlast]
    exact List.replicate_succ'.symm
  have hfirst : (List.replicate 200 (0 : ℤ) ++ List.replicate 200 100).take 199 =
      List.replicate 199 0 := rfl
  rw [hbefore, hafter, hfirst, medianOf_replicate (by decide),
    medianOf_replicate (by decide)] at hfull
  exact absurd hfull (by decide)

end Beancash
