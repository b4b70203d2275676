import Mathlib.Tactic.FieldSimp
import Beancash.ByteText
import Beancash.Transaction

namespace Beancash

/-- What `printf` makes of `%08u`, for any width. -/
def padded (width n : ℕ) : List UInt8 :=
  List.replicate (width - (decimal n).length) 48 ++ decimal n

/-- The zeros at the end go while two decimals are left; the string has its last byte first. -/
def trimmed : List UInt8 → List UInt8
  | a :: b :: c :: str => if a = 48 && isdigit c then trimmed (b :: c :: str) else a :: b :: c :: str
  | str => str

/-- `FormatMoney`, which has no absolute value of the least number. -/
def formatMoney (n : Int64) (fPlus : Bool) : Option (List UInt8) :=
  if n = Int64.minValue then none
  else
    let nAbs := if 0 < n then n else -n
    let quotient := nAbs / bean
    let remainder := nAbs % bean
    let str := decimal quotient.toInt.toNat ++ 46 :: padded 8 remainder.toInt.toNat
    let str := (trimmed str.reverse).reverse
    some (if n < 0 then 45 :: str else if fPlus && 0 < n then 43 :: str else str)

/-- The loop over the decimals. -/
def parseUnits : ℕ → ℕ → List UInt8 → ℕ × List UInt8
  | _, nUnits, [] => (nUnits, [])
  | nMult, nUnits, ch :: p =>
    if isdigit ch && 0 < nMult then parseUnits (nMult / 10) (nUnits + nMult * (ch.toNat - 48)) p
    else (nUnits, ch :: p)

/-- The loop up to the end of the number, with the digits in front of the point. -/
def parseWhole : List UInt8 → List UInt8 → Option (List UInt8 × ℕ × List UInt8)
  | strWhole, [] => some (strWhole, 0, [])
  | strWhole, ch :: p =>
    if ch = 46 then some (strWhole, parseUnits (cent.toInt.toNat * 10) 0 p)
    else if isspace ch then some (strWhole, 0, ch :: p)
    else if !isdigit ch then none
    else parseWhole (strWhole ++ [ch]) p

/-- `ParseMoney`, with the amount of a string that it accepts. -/
def parseMoney (str : List UInt8) : Option Int64 := do
  let (strWhole, nUnits, p) ← parseWhole [] ((cStr str).dropWhile isspace)
  if !p.all isspace then none
  else if 10 < strWhole.length then none
  else if bean.toInt < nUnits then none
  else some (atoi64 strWhole * bean + .ofInt nUnits)

/-- The number that a string of digits stands for. -/
def digitsValue (digits : List UInt8) : ℕ := digits.foldl (fun n ch => n * 10 + (ch.toNat - 48)) 0

/-- The text of an amount: digits, and maybe a point with more of them, among spaces. -/
structure MoneyText (text whole fraction : List UInt8) : Prop where
  wholeDigits : ∀ ch ∈ whole, isdigit ch = true
  fractionDigits : ∀ ch ∈ fraction, isdigit ch = true
  split : ∃ before point after : List UInt8, text = before ++ whole ++ point ++ fraction ++ after ∧
    (∀ ch ∈ before, isspace ch = true) ∧ (∀ ch ∈ after, isspace ch = true) ∧
      (point = [46] ∨ point = [] ∧ fraction = [])

/-- The value of the digits around a point. -/
def moneyValue (whole fraction : List UInt8) : ℚ :=
  digitsValue whole + digitsValue fraction / 10 ^ fraction.length

theorem foldl_digits (digits : List UInt8) (n : ℕ) :
    digits.foldl (fun n ch => n * 10 + (ch.toNat - 48)) n =
      n * 10 ^ digits.length + digitsValue digits := by
  induction digits generalizing n with
  | nil => rw [List.foldl_nil, List.length_nil, pow_zero, mul_one]; rfl
  | cons ch digits ih =>
    rw [digitsValue, List.foldl_cons, List.foldl_cons, ih, ih (0 * 10 + _), List.length_cons]
    ring

theorem digitsValue_append (a b : List UInt8) :
    digitsValue (a ++ b) = digitsValue a * 10 ^ b.length + digitsValue b := by
  rw [digitsValue, List.foldl_append, foldl_digits, ← digitsValue]

theorem digitsValue_cons (ch : UInt8) (digits : List UInt8) :
    digitsValue (ch :: digits) = (ch.toNat - 48) * 10 ^ digits.length + digitsValue digits := by
  rw [digitsValue, List.foldl_cons, foldl_digits, Nat.zero_mul, Nat.zero_add]

theorem digitsValue_zeros (k : ℕ) : digitsValue (List.replicate k 48) = 0 := by
  induction k with
  | zero => rfl
  | succ k ih => rw [List.replicate_succ, digitsValue_cons, ih]; simp

theorem readDigits_eq {digits : List UInt8} (h : ∀ ch ∈ digits, isdigit ch = true) :
    readDigits digits = digitsValue digits := by
  rw [readDigits, List.takeWhile_eq_self_iff.mpr h, digitsValue]

theorem digitsValue_decimal (n : ℕ) : digitsValue (decimal n) = n := by
  rw [← readDigits_eq (isdigit_of_mem_decimal n), readDigits_decimal]

theorem digitsValue_lt {digits : List UInt8} (h : ∀ ch ∈ digits, isdigit ch = true) :
    digitsValue digits < 10 ^ digits.length := by
  induction digits with
  | nil => exact Nat.one_pos
  | cons ch digits ih =>
    obtain ⟨hch, hrest⟩ := List.forall_mem_cons.mp h
    simp only [isdigit, Bool.and_eq_true, decide_eq_true_eq, UInt8.le_iff_toNat_le] at hch
    have hhigh : ch.toNat ≤ 57 := hch.2
    have hmul : (ch.toNat - 48) * 10 ^ digits.length ≤ 9 * 10 ^ digits.length :=
      Nat.mul_le_mul_right _ (by omega)
    have ih := ih hrest
    rw [digitsValue_cons, List.length_cons, pow_succ]
    omega

theorem pow_div_ten (k : ℕ) : 10 ^ (k + 1) / 10 = 10 ^ k := by
  rw [pow_succ, Nat.mul_div_cancel _ (by decide)]

theorem parseUnits_split (k nUnits : ℕ) (str : List UInt8) :
    ∃ digits, (∀ ch ∈ digits, isdigit ch = true) ∧ digits.length ≤ k ∧
      str = digits ++ (parseUnits (10 ^ k / 10) nUnits str).2 ∧
      (parseUnits (10 ^ k / 10) nUnits str).1 =
        nUnits + digitsValue digits * 10 ^ (k - digits.length) := by
  induction str generalizing k nUnits with
  | nil =>
    refine ⟨[], nofun, Nat.zero_le k, rfl, ?_⟩
    rw [digitsValue, List.foldl_nil, Nat.zero_mul]
    rfl
  | cons ch str ih =>
    rw [parseUnits]
    split_ifs with hdigit
    · rw [Bool.and_eq_true, decide_eq_true_iff] at hdigit
      cases k with
      | zero => exact absurd hdigit.2 (by decide)
      | succ k =>
        rw [pow_div_ten]
        obtain ⟨digits, hall, hlen, hsplit, hvalue⟩ := ih k (nUnits + 10 ^ k * (ch.toNat - 48))
        refine ⟨ch :: digits, List.forall_mem_cons.mpr ⟨hdigit.1, hall⟩, Nat.succ_le_succ hlen,
          congrArg _ hsplit, ?_⟩
        rw [hvalue, digitsValue_cons, List.length_cons, Nat.succ_sub_succ, Nat.add_mul, Nat.mul_assoc,
          ← pow_add, Nat.add_sub_cancel' hlen]
        ring
    · exact ⟨[], nofun, Nat.zero_le k, rfl, by rw [digitsValue, List.foldl_nil, Nat.zero_mul]; rfl⟩

theorem parseUnits_digits {digits : List UInt8} (hall : ∀ ch ∈ digits, isdigit ch = true) {k : ℕ}
    (hlen : digits.length ≤ k) (nUnits : ℕ) :
    parseUnits (10 ^ k / 10) nUnits digits =
      (nUnits + digitsValue digits * 10 ^ (k - digits.length), []) := by
  induction digits generalizing k nUnits with
  | nil => rw [parseUnits, digitsValue, List.foldl_nil, Nat.zero_mul, Nat.add_zero]
  | cons ch digits ih =>
    obtain ⟨hch, hrest⟩ := List.forall_mem_cons.mp hall
    obtain ⟨k, rfl⟩ : ∃ j, k = j + 1 := ⟨k - 1, by rw [List.length_cons] at hlen; omega⟩
    have hlen : digits.length ≤ k := Nat.le_of_succ_le_succ hlen
    have hpos : decide (0 < 10 ^ k) = true := decide_eq_true (pow_pos (by decide) k)
    rw [parseUnits, pow_div_ten, hch, hpos, Bool.and_self, if_pos rfl, ih hrest hlen, digitsValue_cons,
      List.length_cons, Nat.succ_sub_succ, Nat.add_mul, Nat.mul_assoc, ← pow_add,
      Nat.add_sub_cancel' hlen]
    congr 1
    ring

/-- Up to the end of the number there are digits, and maybe a point with decimals. -/
theorem parseWhole_split {strWhole str : List UInt8} {r : List UInt8 × ℕ × List UInt8}
    (h : parseWhole strWhole str = some r) :
    ∃ digits, (∀ ch ∈ digits, isdigit ch = true) ∧ r.1 = strWhole ++ digits ∧
      ∃ point fraction, (∀ ch ∈ fraction, isdigit ch = true) ∧ fraction.length ≤ 8 ∧
        (point = [46] ∨ point = [] ∧ fraction = []) ∧
        str = digits ++ point ++ fraction ++ r.2.2 ∧
        r.2.1 = digitsValue fraction * 10 ^ (8 - fraction.length) := by
  induction str generalizing strWhole with
  | nil =>
    cases h
    exact ⟨[], nofun, (List.append_nil _).symm, [], [], nofun, Nat.zero_le 8, .inr ⟨rfl, rfl⟩, rfl,
      (Nat.zero_mul _).symm⟩
  | cons ch str ih =>
    rw [parseWhole] at h
    split_ifs at h with hpoint hspace hdigit
    · cases h
      obtain ⟨fraction, hall, hlen, hsplit, hvalue⟩ := parseUnits_split 8 0 str
      refine ⟨[], nofun, (List.append_nil _).symm, [46], fraction, hall, hlen, .inl rfl, ?_, ?_⟩
      · rw [hpoint]
        exact congrArg (46 :: ·) hsplit
      · exact hvalue.trans (Nat.zero_add _)
    · cases h
      exact ⟨[], nofun, (List.append_nil _).symm, [], [], nofun, Nat.zero_le 8, .inr ⟨rfl, rfl⟩, rfl,
        (Nat.zero_mul _).symm⟩
    · rw [Bool.not_eq_true', Bool.not_eq_false] at hdigit
      obtain ⟨digits, hall, hwhole, point, fraction, hfraction, hlen, hpoint', hsplit, hvalue⟩ := ih h
      refine ⟨ch :: digits, List.forall_mem_cons.mpr ⟨hdigit, hall⟩, ?_, point, fraction, hfraction,
        hlen, hpoint', ?_, hvalue⟩
      · rw [hwhole, List.append_assoc, List.singleton_append]
      · rw [hsplit]
        rfl

theorem digitsValue_lt_of_length {digits : List UInt8} (hall : ∀ ch ∈ digits, isdigit ch = true)
    {k : ℕ} (hlen : digits.length ≤ k) : digitsValue digits < 10 ^ k :=
  lt_of_lt_of_le (digitsValue_lt hall) (Nat.pow_le_pow_right (by decide) hlen)

theorem toInt_atoi64 {digits : List UInt8} (hall : ∀ ch ∈ digits, isdigit ch = true)
    (hlen : digits.length ≤ 10) : (atoi64 digits).toInt = digitsValue digits := by
  have hlt := digitsValue_lt_of_length hall hlen
  rw [atoi64, cStr_of_ne_zero fun ch hch => (digit_plain (hall ch hch)).1, readSign_digits hall]
  dsimp only
  rw [readDigits_eq hall, if_neg Bool.false_ne_true, min_eq_right (by omega)]
  exact Int64.toInt_ofInt_of_le (by omega) (by omega)

theorem toInt_amount {digits : List UInt8} (hall : ∀ ch ∈ digits, isdigit ch = true)
    (hlen : digits.length ≤ 10) {nUnits : ℕ} (hunits : nUnits < 10 ^ 8) :
    (atoi64 digits * bean + .ofInt nUnits).toInt = digitsValue digits * 10 ^ 8 + nUnits := by
  have hlt := digitsValue_lt_of_length hall hlen
  have hbean : bean = Int64.ofInt (10 ^ 8) := by decide
  have hwhole : atoi64 digits = Int64.ofInt (digitsValue digits) := by
    rw [← toInt_atoi64 hall hlen, Int64.ofInt_toInt]
  rw [hwhole, hbean, ← Int64.ofInt_mul, ← Int64.ofInt_add]
  exact Int64.toInt_ofInt_of_le (by omega) (by omega)

theorem units_lt {fraction : List UInt8} (hall : ∀ ch ∈ fraction, isdigit ch = true)
    (hlen : fraction.length ≤ 8) : digitsValue fraction * 10 ^ (8 - fraction.length) < 10 ^ 8 := by
  have hmul := Nat.mul_lt_mul_of_pos_right (digitsValue_lt hall)
    (pow_pos (by decide : 0 < 10) (8 - fraction.length))
  rwa [← pow_add, Nat.add_sub_cancel' hlen] at hmul

theorem parseMoney_sound {str : List UInt8} {n : Int64} (h : parseMoney str = some n) :
    ∃ whole fraction, MoneyText (cStr str) whole fraction ∧ fraction.length ≤ 8 ∧
      n.toInt = digitsValue whole * 10 ^ 8 +
        (digitsValue fraction * 10 ^ (8 - fraction.length) : ℕ) := by
  rw [parseMoney] at h
  obtain ⟨⟨strWhole, nUnits, p⟩, hwhole, h⟩ := Option.bind_eq_some_iff.mp h
  dsimp only at h
  split_ifs at h with hspaces hlen hunits
  obtain ⟨digits, hall, hdigits, point, fraction, hfraction, hflen, hpoint, hsplit, hvalue⟩ :=
    parseWhole_split hwhole
  dsimp only at hdigits hsplit hvalue
  rw [List.nil_append] at hdigits
  subst hdigits hvalue
  rw [Bool.not_eq_true', Bool.not_eq_false, List.all_eq_true] at hspaces
  refine ⟨strWhole, fraction, ⟨hall, hfraction, ?_⟩, hflen, ?_⟩
  · refine ⟨(cStr str).takeWhile isspace, point, p, ?_, ?_, hspaces, hpoint⟩
    · have htext :
          (cStr str).takeWhile isspace ++ (strWhole ++ point ++ fraction ++ p) = cStr str := by
        rw [← hsplit, List.takeWhile_append_dropWhile]
      exact htext.symm.trans (by simp only [List.append_assoc])
    · exact fun ch hch => List.mem_takeWhile_imp hch
  · rw [← Option.some.inj h]
    exact toInt_amount hall (not_lt.mp hlen) (units_lt hfraction hflen)

theorem parseWhole_digits {digits : List UInt8} (hall : ∀ ch ∈ digits, isdigit ch = true)
    (strWhole p : List UInt8) : parseWhole strWhole (digits ++ 46 :: p) =
      some (strWhole ++ digits, parseUnits (10 ^ 8 / 10) 0 p) := by
  induction digits generalizing strWhole with
  | nil => rw [List.append_nil]; rfl
  | cons ch digits ih =>
    obtain ⟨hch, hrest⟩ := List.forall_mem_cons.mp hall
    have hspace := (digit_plain hch).2.1
    have hpoint : ch ≠ 46 := by
      rintro rfl
      exact absurd hch (by decide)
    rw [List.cons_append, parseWhole, if_neg hpoint, hspace, hch, if_neg Bool.false_ne_true,
      if_neg (by decide), ih hrest, List.append_assoc]
    rfl

/-- The digits of an amount with at most eight decimals are accepted if there are at most ten in
front of the point. -/
theorem parseMoney_digits {whole fraction : List UInt8} (hwhole : ∀ ch ∈ whole, isdigit ch = true)
    (hfraction : ∀ ch ∈ fraction, isdigit ch = true) (hflen : fraction.length ≤ 8) :
    parseMoney (whole ++ 46 :: fraction) = if 10 < whole.length then none
      else some (atoi64 whole * bean +
        .ofInt (digitsValue fraction * 10 ^ (8 - fraction.length) : ℕ)) := by
  have hcStr : cStr (whole ++ 46 :: fraction) = whole ++ 46 :: fraction := by
    refine cStr_of_ne_zero fun ch hch => ?_
    rcases List.mem_append.mp hch with hch | hch
    · exact (digit_plain (hwhole ch hch)).1
    · rcases List.mem_cons.mp hch with rfl | hch
      · decide
      · exact (digit_plain (hfraction ch hch)).1
  have hstart : (whole ++ 46 :: fraction).dropWhile isspace = whole ++ 46 :: fraction := by
    cases whole with
    | nil => exact List.dropWhile_cons_of_neg (by decide)
    | cons ch whole =>
      have hspace := (digit_plain (hwhole ch List.mem_cons_self)).2.1
      exact List.dropWhile_cons_of_neg (by rw [hspace]; exact Bool.false_ne_true)
  have hunits := units_lt hfraction hflen
  have hbean : ¬bean.toInt < (digitsValue fraction * 10 ^ (8 - fraction.length) : ℕ) := by
    have hvalue : bean.toInt = 10 ^ 8 := by decide
    omega
  rw [parseMoney, hcStr, hstart, parseWhole_digits hwhole, parseUnits_digits hfraction hflen]
  simp only [Option.bind_eq_bind, Option.bind_some, List.nil_append, Nat.zero_add, List.all_nil,
    Bool.not_true, Bool.false_eq_true, if_false, if_neg hbean]

theorem trimmed_split {digits : List UInt8} (hall : ∀ ch ∈ digits, isdigit ch = true)
    (hlen : 2 ≤ digits.length) (front : List UInt8) :
    ∃ k rest, trimmed (digits ++ 46 :: front) = rest ++ 46 :: front ∧
      digits = List.replicate k 48 ++ rest := by
  induction digits with
  | nil => exact absurd hlen (by decide)
  | cons a digits ih =>
    obtain ⟨-, hrest⟩ := List.forall_mem_cons.mp hall
    match digits, hrest, ih with
    | [], _, _ => exact absurd hlen (by simp)
    | [b], _, _ => exact ⟨0, [a, b], if_neg (by simp [isdigit]), rfl⟩
    | b :: c :: digits, hrest, ih =>
      rw [List.cons_append, List.cons_append, List.cons_append, trimmed]
      split_ifs with hzero
      · rw [Bool.and_eq_true, decide_eq_true_iff] at hzero
        obtain ⟨k, rest, htrimmed, hdigits⟩ := ih hrest (by simp)
        exact ⟨k + 1, rest, htrimmed, by rw [hzero.1, hdigits]; rfl⟩
      · exact ⟨0, a :: b :: c :: digits, rfl, rfl⟩

theorem length_decimal_le_iff {n k : ℕ} (hk : 1 ≤ k) : (decimal n).length ≤ k ↔ n < 10 ^ k := by
  rw [decimal]
  split_ifs with hn
  · rw [hn]
    exact iff_of_true hk (pow_pos (by decide) k)
  · rw [List.length_map, List.length_reverse]
    exact Nat.digits_length_le_iff (by decide) n

theorem digitsValue_padded (width n : ℕ) : digitsValue (padded width n) = n := by
  rw [padded, digitsValue_append, digitsValue_zeros, digitsValue_decimal, Nat.zero_mul, Nat.zero_add]

theorem length_padded {width n : ℕ} (hpos : 1 ≤ width) (hn : n < 10 ^ width) :
    (padded width n).length = width := by
  have hlen := (length_decimal_le_iff hpos).mpr hn
  rw [padded, List.length_append, List.length_replicate]
  omega

theorem isdigit_of_mem_padded (width n : ℕ) : ∀ ch ∈ padded width n, isdigit ch = true := by
  intro ch hch
  rcases List.mem_append.mp hch with hch | hch
  · rw [List.eq_of_mem_replicate hch]
    rfl
  · exact isdigit_of_mem_decimal n ch hch

/-- What is written of an amount: the beans, a point, and decimals without most of the zeros at the
end. -/
theorem formatMoney_eq {n : Int64} (hn : 0 ≤ n.toInt) :
    ∃ fraction, formatMoney n false = some (decimal (n.toInt / 10 ^ 8).toNat ++ 46 :: fraction) ∧
      (∀ ch ∈ fraction, isdigit ch = true) ∧ fraction.length ≤ 8 ∧
      digitsValue fraction * 10 ^ (8 - fraction.length) = (n.toInt % 10 ^ 8).toNat := by
  have hmin : n ≠ Int64.minValue := by
    rintro rfl
    exact absurd hn (by decide)
  have hbean : bean.toInt = 10 ^ 8 := by decide
  have habs : (if 0 < n then n else -n) = n := by
    split_ifs with hpos
    · rfl
    · rw [Int64.lt_iff_toInt_lt] at hpos
      have hzero : n = 0 := Int64.toInt_inj.mp (le_antisymm (not_lt.mp hpos) hn)
      rw [hzero]
      rfl
  have hquotient : (n / bean).toInt = n.toInt / 10 ^ 8 := by
    rw [Int64.toInt_div_of_ne_left n bean hmin, hbean, Int.tdiv_eq_ediv_of_nonneg hn]
  have hremainder : (n % bean).toInt = n.toInt % 10 ^ 8 := by
    rw [Int64.toInt_mod, hbean, Int.tmod_eq_emod_of_nonneg hn]
  have hlt : (n.toInt % 10 ^ 8).toNat < 10 ^ 8 := by omega
  have hlen := length_padded (by decide : 1 ≤ 8) hlt
  obtain ⟨k, rest, htrimmed, hdigits⟩ := trimmed_split
    (fun ch hch => isdigit_of_mem_padded 8 (n.toInt % 10 ^ 8).toNat ch (List.mem_reverse.mp hch))
    (by rw [List.length_reverse, hlen]; decide) (decimal (n.toInt / 10 ^ 8).toNat).reverse
  have hpadded : padded 8 (n.toInt % 10 ^ 8).toNat = rest.reverse ++ List.replicate k 48 := by
    rw [← List.reverse_reverse (padded 8 _), hdigits, List.reverse_append, List.reverse_replicate]
  have hnonneg : ¬n < 0 := by
    rw [Int64.lt_iff_toInt_lt]
    exact not_lt.mpr hn
  refine ⟨rest.reverse, ?_, ?_, ?_, ?_⟩
  · rw [formatMoney, if_neg hmin, habs]
    dsimp only
    rw [hquotient, hremainder, if_neg hnonneg, Bool.false_and, if_neg Bool.false_ne_true,
      List.reverse_append, List.reverse_cons, List.append_assoc, List.singleton_append, htrimmed,
      List.reverse_append, List.reverse_cons, List.reverse_reverse, List.append_assoc]
    rfl
  · intro ch hch
    refine isdigit_of_mem_padded 8 (n.toInt % 10 ^ 8).toNat ch ?_
    rw [hpadded]
    exact List.mem_append_left _ hch
  · have htotal := congrArg List.length hpadded
    rw [hlen, List.length_append, List.length_replicate] at htotal
    omega
  · have htotal := congrArg List.length hpadded
    rw [hlen, List.length_append, List.length_replicate] at htotal
    have hvalue := congrArg digitsValue hpadded
    rw [digitsValue_padded, digitsValue_append, digitsValue_zeros, List.length_replicate,
      Nat.add_zero] at hvalue
    rw [hvalue]
    congr 2
    omega

theorem parseMoney_formatMoney {n : Int64} (hn : 0 ≤ n.toInt) :
    (∃ text, formatMoney n false = some text ∧ parseMoney text = some n) ↔ n.toInt < 10 ^ 18 := by
  obtain ⟨fraction, hformat, hall, hlen, hvalue⟩ := formatMoney_eq hn
  have hdigits := isdigit_of_mem_decimal (n.toInt / 10 ^ 8).toNat
  have hwhole : (decimal (n.toInt / 10 ^ 8).toNat).length ≤ 10 ↔ n.toInt < 10 ^ 18 := by
    rw [length_decimal_le_iff (by decide)]
    omega
  rw [hformat]
  constructor
  · rintro ⟨text, ⟨⟩, hparse⟩
    by_contra hlarge
    rw [parseMoney_digits hdigits hall hlen, if_pos (by omega)] at hparse
    cases hparse
  · intro hlt
    refine ⟨_, rfl, ?_⟩
    rw [parseMoney_digits hdigits hall hlen, if_neg (by omega), hvalue]
    refine congrArg some (Int64.toInt_inj.mp ?_)
    rw [toInt_amount hdigits (hwhole.mpr hlt) (by omega), digitsValue_decimal]
    omega

/-- In the range of money, exactly the amounts under ten thousand million beans are read back from
what was written of them. Every string that is accepted is the text of an amount, and the amount is
what the digits say. -/
theorem parseMoney_exact (n : Int64) (hn : moneyRange n = true) (str : List UInt8) (nRet : Int64) :
    ((∃ text, formatMoney n false = some text ∧ parseMoney text = some n) ↔ n.toInt < 10 ^ 18) ∧
      (parseMoney str = some nRet → ∃ whole fraction, MoneyText (cStr str) whole fraction ∧
        (nRet.toInt : ℚ) = moneyValue whole fraction * bean.toInt) := by
  refine ⟨?_, fun h => ?_⟩
  · rw [moneyRange, Bool.and_eq_true, decide_eq_true_iff, Int64.le_iff_toInt_le] at hn
    exact parseMoney_formatMoney hn.1
  · obtain ⟨whole, fraction, htext, hlen, hvalue⟩ := parseMoney_sound h
    refine ⟨whole, fraction, htext, ?_⟩
    have hbean : bean.toInt = 10 ^ 8 := by decide
    have hpow : (100000000 : ℚ) = 10 ^ fraction.length * 10 ^ (8 - fraction.length) := by
      rw [← pow_add, Nat.add_sub_cancel' hlen]
      norm_num
    rw [hvalue, hbean, moneyValue]
    push_cast
    rw [add_mul]
    congr 1
    rw [hpow]
    field_simp

theorem parseMoney_exact_one :
    (∃ text, formatMoney 123450000 false = some text ∧ parseMoney text = some 123450000) ∧
      ∃ whole fraction, MoneyText (cStr (bytesOf " 12.5 ")) whole fraction ∧
        (1250000000 : ℚ) = moneyValue whole fraction * bean.toInt := by
  obtain ⟨hread, hsound⟩ :=
    parseMoney_exact 123450000 (by decide) (bytesOf " 12.5 ") 1250000000
  exact ⟨hread.mpr (by decide), hsound (by decide)⟩

/-- Ten thousand million beans are in the range of money, and what is written of them is refused. -/
theorem parseMoney_refuses :
    moneyRange 1000000000000000000 = true ∧
      formatMoney 1000000000000000000 false = some (bytesOf "10000000000.00") ∧
      parseMoney (bytesOf "10000000000.00") = none := by
  decide

end Beancash
