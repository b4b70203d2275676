import Beancash.MoneyText

namespace Beancash

/-- `find_last_of`: the last place of a character that is not behind `pos`; `none` stands for `npos`. -/
def findLastOf (str : List UInt8) (ch : UInt8) (pos : Option ℕ) : Option ℕ :=
  (List.range str.length).reverse.find? fun i => pos.all (i ≤ ·) && str[i]? == some ch

/-- What a `long` can hold of a number, where it is stopped at the limits. -/
def saturated (z : ℤ) : ℤ := max (-2 ^ 63) (min (2 ^ 63 - 1) z)

/-- `strtol` to the base 10 with a `long` of 64 bits, and what its end pointer points at. Without any
digits that is the whole string. -/
def strtol (str : List UInt8) : Int64 × List UInt8 :=
  let (fNegative, digits) := readSign (str.dropWhile isspace)
  let n : ℤ := readDigits digits
  if (digits.takeWhile isdigit).isEmpty then (0, str)
  else (.ofInt (saturated (if fNegative then -n else n)), digits.dropWhile isdigit)

/-- What is left of `in` once the port is taken off, and the port. -/
def splitPort (str : List UInt8) (portOut : Int32) : Int32 × List UInt8 :=
  match findLastOf str 58 none with
  | none => (portOut, str)
  | some colon =>
    let fBracketed := str[0]? == some 91 && str[colon - 1]? == some 93
    -- `colon - 1` wraps to `npos` for a colon in front
    let fMultiColon := (findLastOf str 58 (if colon = 0 then none else some (colon - 1))).isSome
    if colon = 0 ∨ fBracketed ∨ !fMultiColon then
      let (n, endp) := strtol (cStr (str.drop (colon + 1)))
      let n := n.toInt32
      if endp.isEmpty ∧ 0 ≤ n then
        (if 0 < n ∧ n < 0x10000 then n else portOut, str.take colon)
      else (portOut, str)
    else (portOut, str)

/-- A host without the brackets around it. -/
def withoutBrackets (str : List UInt8) : List UInt8 :=
  if str[0]? = some 91 ∧ str.getLast? = some 93 then (str.drop 1).take (str.length - 2) else str

def splitHostPort (str : List UInt8) (portOut : Int32) : Int32 × List UInt8 :=
  let (portOut, str) := splitPort str portOut
  (portOut, withoutBrackets str)

def IsDecimal (digits : List UInt8) : Prop := digits ≠ [] ∧ ∀ ch ∈ digits, isdigit ch = true

/-- Everything that `strtol` takes for a number, spaces and a sign included. -/
def Numeral (str : List UInt8) (z : ℤ) : Prop :=
  ∃ spaces digits, (∀ ch ∈ spaces, isspace ch = true) ∧ IsDecimal digits ∧
    ((str = spaces ++ digits ∨ str = spaces ++ 43 :: digits) ∧ z = digitsValue digits ∨
      str = spaces ++ 45 :: digits ∧ z = -(digitsValue digits : ℤ))

/-- What an `int` holds of a number that `strtol` has read. -/
def narrowed (z : ℤ) : ℤ := (saturated z).bmod (2 ^ 32)

/-- What may be in front of the last colon if a port comes after it: no other colon, or a host in
brackets. -/
def PortHost (host : List UInt8) : Prop := (∃ h, host = 91 :: (h ++ [93])) ∨ 58 ∉ host

/-- The string ends with a colon and a number, and the colon is where it may be. -/
def NamesPort (str : List UInt8) (n : ℕ) : Prop :=
  ∃ host digits, str = host ++ 58 :: digits ∧ PortHost host ∧ IsDecimal digits ∧
    digitsValue digits = n

structure SplitsRight (str : List UInt8) : Prop where
  /-- Only a colon and a number are split off. -/
  suffix : ∀ portOut, (splitPort str portOut).2 = str ∨
    ∃ digits, str = (splitPort str portOut).2 ++ 58 :: digits ∧
      PortHost (splitPort str portOut).2 ∧ IsDecimal digits
  /-- The port is the number, if it is in range, and else stays what it was. -/
  port : ∀ portOut, (∃ n, NamesPort str n ∧ 1 ≤ n ∧ n ≤ 65535 ∧
      (splitHostPort str portOut).1.toInt = n) ∨
    (∀ n, NamesPort str n → ¬ (1 ≤ n ∧ n ≤ 65535)) ∧ (splitHostPort str portOut).1 = portOut
  /-- A host and a port that were put together come apart again. -/
  together : ∀ portOut host n, 1 ≤ n → n ≤ 65535 →
    (58 ∉ host → 91 ∉ host → 93 ∉ host → str = host ++ 58 :: decimal n →
      splitHostPort str portOut = (.ofNat n, host)) ∧
    (str = 91 :: host ++ 93 :: 58 :: decimal n → splitHostPort str portOut = (.ofNat n, host))

/-- What comes after the last colon is a number that does not wrap to a port, or else something that
`strtol` stops in, or that wraps to a number below zero. -/
def PlainPort (digits : List UInt8) : Prop :=
  (IsDecimal digits ∧ (digitsValue digits ≤ 65535 ∨
    ¬ (1 ≤ narrowed (digitsValue digits) ∧ narrowed (digitsValue digits) ≤ 65535))) ∨
  (¬ IsDecimal digits ∧ cStr digits ≠ [] ∧ ∀ z, Numeral (cStr digits) z → narrowed z < 0)

theorem findLastOf_eq_none {str : List UInt8} {ch : UInt8} {pos : Option ℕ} :
    findLastOf str ch pos = none ↔ ∀ i, (∀ p, pos = some p → i ≤ p) → str[i]? ≠ some ch := by
  rw [findLastOf, List.find?_eq_none]
  constructor
  · intro h i hpos hi
    have hlt : i < str.length := (List.getElem?_eq_some_iff.mp hi).1
    apply h i (by simpa using hlt)
    cases pos with
    | none => simpa using hi
    | some p => simpa [hi] using hpos p rfl
  · intro h i hmem hi
    rw [Bool.and_eq_true, beq_iff_eq] at hi
    apply h i _ hi.2
    rintro p rfl
    simpa using hi.1

theorem findLastOf_none_eq_none {str : List UInt8} {ch : UInt8} :
    findLastOf str ch none = none ↔ ch ∉ str := by
  rw [findLastOf_eq_none, List.mem_iff_getElem?]
  simp

theorem isSome_findLastOf {str : List UInt8} {ch : UInt8} {p : ℕ} :
    (findLastOf str ch (some p)).isSome = true ↔ ∃ i ≤ p, str[i]? = some ch := by
  rw [Option.isSome_iff_ne_none, ne_eq, findLastOf_eq_none]
  push Not
  simp

theorem findLastOf_concat {host digits : List UInt8} {ch : UInt8} (h : ch ∉ digits) :
    findLastOf (host ++ ch :: digits) ch none = some host.length := by
  have hrange : List.range (host ++ ch :: digits).length =
      List.range host.length ++ host.length ::
        (List.range digits.length).map (host.length + 1 + ·) := by
    rw [List.length_append, List.length_cons, ← Nat.add_assoc, Nat.add_right_comm,
      List.range_add, List.range_succ, List.append_assoc, List.singleton_append]
  have hnot : ∀ i ∈ ((List.range digits.length).map (host.length + 1 + ·)).reverse,
      ¬ (Option.all (i ≤ ·) none && (host ++ ch :: digits)[i]? == some ch) = true := by
    intro i hi heq
    obtain ⟨j, -, rfl⟩ := List.mem_map.mp (List.mem_reverse.mp hi)
    have hj : digits[j]? = some ch := by
      have hget : (host ++ ch :: digits)[host.length + 1 + j]? = some ch := by simpa using heq
      rwa [List.getElem?_append_right (by omega), show host.length + 1 + j - host.length = j + 1 by omega,
        List.getElem?_cons_succ] at hget
    exact h (List.mem_of_getElem? hj)
  have hat : (Option.all (host.length ≤ ·) none &&
      (host ++ ch :: digits)[host.length]? == some ch) = true := by simp
  rw [findLastOf, hrange, List.reverse_append, List.reverse_cons, List.append_assoc,
    List.find?_append, List.find?_eq_none.mpr hnot, Option.none_or, List.singleton_append]
  exact List.find?_cons_of_pos hat

theorem lastColon_inj {host host' digits digits' : List UInt8} (h : 58 ∉ digits) (h' : 58 ∉ digits')
    (heq : host ++ 58 :: digits = host' ++ 58 :: digits') : host = host' ∧ digits = digits' := by
  have hlen : host.length = host'.length := by
    have hlast := congrArg (findLastOf · 58 none) heq
    simpa only [findLastOf_concat h, findLastOf_concat h', Option.some.injEq] using hlast
  obtain ⟨hhost, hrest⟩ := List.append_inj heq hlen
  exact ⟨hhost, (List.cons.inj hrest).2⟩

theorem lastColon_cases (str : List UInt8) :
    58 ∉ str ∨ ∃ host digits, str = host ++ 58 :: digits ∧ 58 ∉ digits := by
  by_cases h : 58 ∈ str
  · obtain ⟨back, front, heq, hback⟩ := List.eq_append_cons_of_mem (List.mem_reverse.mpr h)
    refine .inr ⟨front.reverse, back.reverse, ?_, fun hmem => hback (List.mem_reverse.mp hmem)⟩
    rw [← List.reverse_reverse str, heq]
    simp
  · exact .inl h

theorem bracketed_iff {host digits : List UInt8} :
    ((host ++ 58 :: digits)[0]? == some 91 && (host ++ 58 :: digits)[host.length - 1]? == some 93) =
      true ↔ ∃ h, host = 91 :: (h ++ [93]) := by
  rw [Bool.and_eq_true, beq_iff_eq, beq_iff_eq]
  cases host with
  | nil => simp
  | cons ch rest =>
    have hlast : ((ch :: rest) ++ 58 :: digits)[(ch :: rest).length - 1]? = (ch :: rest).getLast? := by
      rw [List.getElem?_append_left (by simp), List.getLast?_eq_getElem?]
    rw [hlast, List.cons_append, List.getElem?_cons_zero, Option.some.injEq]
    constructor
    · rintro ⟨rfl, hrest⟩
      rcases List.eq_nil_or_concat rest with rfl | ⟨h, last, rfl⟩
      · simp at hrest
      · refine ⟨h, ?_⟩
        rw [List.concat_eq_append, ← List.cons_append, List.getLast?_concat, Option.some.injEq] at hrest
        rw [List.concat_eq_append, hrest]
    · rintro ⟨h, heq⟩
      obtain ⟨rfl, rfl⟩ := List.cons.inj heq
      exact ⟨rfl, by rw [← List.cons_append, List.getLast?_concat]⟩

theorem multiColon_iff {host digits : List UInt8} (h : host ≠ []) :
    (findLastOf (host ++ 58 :: digits) 58
      (if host.length = 0 then none else some (host.length - 1))).isSome = true ↔ 58 ∈ host := by
  have hlen : host.length ≠ 0 := by simpa using h
  rw [if_neg hlen, isSome_findLastOf, List.mem_iff_getElem?]
  constructor
  · rintro ⟨i, hi, hget⟩
    exact ⟨i, by rwa [List.getElem?_append_left (by omega)] at hget⟩
  · rintro ⟨i, hget⟩
    have hi : i < host.length := (List.getElem?_eq_some_iff.mp hget).1
    exact ⟨i, by omega, by rwa [List.getElem?_append_left hi]⟩

theorem dropWhile_isspace {spaces rest : List UInt8} (h : ∀ ch ∈ spaces, isspace ch = true) :
    (spaces ++ rest).dropWhile isspace = rest.dropWhile isspace :=
  List.dropWhile_append_of_pos h

theorem strtol_numeral {str : List UInt8} {z : ℤ} (h : Numeral str z) :
    strtol str = (.ofInt (saturated z), []) := by
  obtain ⟨spaces, digits, hspaces, ⟨hne, hall⟩, hstr⟩ := h
  have htake : digits.takeWhile isdigit = digits := List.takeWhile_eq_self_iff.mpr hall
  have hdrop : digits.dropWhile isdigit = [] := List.dropWhile_eq_nil_iff.mpr hall
  have hempty : digits.isEmpty = false := by simpa using hne
  have hread : ∀ fNegative, readSign (str.dropWhile isspace) = (fNegative, digits) →
      strtol str = (.ofInt (saturated (if fNegative then -(digitsValue digits : ℤ)
        else digitsValue digits)), []) := by
    intro fNegative hsign
    rw [strtol, hsign]
    dsimp only
    rw [htake, hempty, if_neg Bool.false_ne_true, hdrop, readDigits_eq hall]
  rcases hstr with ⟨rfl | rfl, rfl⟩ | ⟨rfl, rfl⟩
  · exact hread false (by rw [dropWhile_isspace hspaces, readSign_digits hall])
  · exact hread false (by rw [dropWhile_isspace hspaces]; rfl)
  · exact hread true (by rw [dropWhile_isspace hspaces]; rfl)

theorem readSign_cases (str : List UInt8) :
    ((readSign str).1 = true ∧ str = 45 :: (readSign str).2) ∨
      ((readSign str).1 = false ∧ (str = (readSign str).2 ∨ str = 43 :: (readSign str).2)) := by
  unfold readSign
  split
  · exact .inl ⟨rfl, rfl⟩
  · exact .inr ⟨rfl, .inr rfl⟩
  · exact .inr ⟨rfl, .inl rfl⟩

/-- `strtol` comes to the end of an empty string and of a number, and of nothing else. -/
theorem numeral_of_strtol {str : List UInt8} (h : (strtol str).2 = []) :
    str = [] ∨ ∃ z, Numeral str z := by
  rw [strtol] at h
  dsimp only at h
  split at h
  · exact .inl h
  · rename_i hsome
    have hall := List.dropWhile_eq_nil_iff.mp h
    have hdecimal : IsDecimal (readSign (str.dropWhile isspace)).2 := by
      refine ⟨fun hnil => hsome ?_, hall⟩
      rw [hnil]
      rfl
    have hspaces : ∀ ch ∈ str.takeWhile isspace, isspace ch = true :=
      fun ch hch => List.mem_takeWhile_imp hch
    have hsplit : str.takeWhile isspace ++ str.dropWhile isspace = str :=
      List.takeWhile_append_dropWhile
    refine .inr ?_
    rcases readSign_cases (str.dropWhile isspace) with ⟨-, heq⟩ | ⟨-, heq | heq⟩
    · exact ⟨_, _, _, hspaces, hdecimal, .inr ⟨by rw [← heq, hsplit], rfl⟩⟩
    · exact ⟨_, _, _, hspaces, hdecimal, .inl ⟨.inl (by rw [← heq, hsplit]), rfl⟩⟩
    · exact ⟨_, _, _, hspaces, hdecimal, .inl ⟨.inr (by rw [← heq, hsplit]), rfl⟩⟩

theorem numeral_of_isDecimal {digits : List UInt8} (h : IsDecimal digits) :
    Numeral (cStr digits) (digitsValue digits) := by
  rw [cStr_of_ne_zero fun ch hch => (digit_plain (h.2 ch hch)).1]
  exact ⟨[], digits, by simp, h, .inl ⟨.inl rfl, rfl⟩⟩

theorem toInt_narrowed (z : ℤ) : (Int64.ofInt (saturated z)).toInt32.toInt = narrowed z := by
  rw [Int64.toInt_toInt32, Int64.toInt_ofInt_of_le (by rw [saturated]; omega)
    (by rw [saturated]; omega), narrowed]

theorem narrowed_of_le {n : ℕ} (h : n ≤ 65535) : narrowed n = n := by
  have hsat : saturated n = n := by
    rw [saturated]
    omega
  rw [narrowed, hsat]
  exact Int.bmod_eq_of_le (by omega) (by omega)

/-- The port that `strtol` makes of what comes after the colon; `none` if nothing is split off. -/
def readPort (digits : List UInt8) : Option Int32 :=
  if (strtol (cStr digits)).2.isEmpty ∧ 0 ≤ (strtol (cStr digits)).1.toInt32 then
    some (strtol (cStr digits)).1.toInt32
  else none

theorem splitPort_of_notMem {str : List UInt8} (h : 58 ∉ str) (portOut : Int32) :
    splitPort str portOut = (portOut, str) := by
  rw [splitPort, findLastOf_none_eq_none.mpr h]

theorem portColon_iff {host digits : List UInt8} :
    (host.length = 0 ∨
      ((host ++ 58 :: digits)[0]? == some 91 &&
        (host ++ 58 :: digits)[host.length - 1]? == some 93) = true ∨
      (!(findLastOf (host ++ 58 :: digits) 58
        (if host.length = 0 then none else some (host.length - 1))).isSome) = true) ↔
      PortHost host := by
  rw [PortHost, bracketed_iff]
  by_cases hnil : host = []
  · simp [hnil]
  · have hlen : host.length ≠ 0 := by simpa using hnil
    rw [Bool.not_eq_true', ← Bool.not_eq_true, multiColon_iff hnil]
    simp [hlen]

theorem splitPort_of_portHost {host digits : List UInt8} (h : 58 ∉ digits) (hhost : PortHost host)
    (portOut : Int32) :
    splitPort (host ++ 58 :: digits) portOut =
      (readPort digits).elim (portOut, host ++ 58 :: digits)
        fun n => (if 0 < n ∧ n < 0x10000 then n else portOut, host) := by
  have hdrop : (host ++ 58 :: digits).drop (host.length + 1) = digits := by
    rw [List.drop_append, List.drop_of_length_le (by omega)]
    simp
  rw [splitPort, findLastOf_concat h]
  dsimp only
  rw [if_pos (portColon_iff.mpr hhost), hdrop, List.take_left, readPort]
  split <;> rfl

theorem splitPort_of_not_portHost {host digits : List UInt8} (h : 58 ∉ digits)
    (hhost : ¬ PortHost host) (portOut : Int32) :
    splitPort (host ++ 58 :: digits) portOut = (portOut, host ++ 58 :: digits) := by
  rw [splitPort, findLastOf_concat h]
  dsimp only
  rw [if_neg fun hc => hhost (portColon_iff.mp hc)]

theorem not_mem_of_isDecimal {digits : List UInt8} (h : IsDecimal digits) : 58 ∉ digits :=
  fun hmem => absurd (h.2 58 hmem) (by decide)

theorem namesPort_concat {host digits : List UInt8} (h : 58 ∉ digits) {n : ℕ} :
    NamesPort (host ++ 58 :: digits) n ↔
      PortHost host ∧ IsDecimal digits ∧ digitsValue digits = n := by
  constructor
  · rintro ⟨host', digits', heq, hhost, hdecimal, hn⟩
    obtain ⟨rfl, rfl⟩ := lastColon_inj h (not_mem_of_isDecimal hdecimal) heq
    exact ⟨hhost, hdecimal, hn⟩
  · rintro ⟨hhost, hdecimal, hn⟩
    exact ⟨host, digits, rfl, hhost, hdecimal, hn⟩

theorem readPort_numeral {digits : List UInt8} {z : ℤ} (h : Numeral (cStr digits) z) :
    readPort digits = if 0 ≤ narrowed z then some (Int64.ofInt (saturated z)).toInt32 else none := by
  have hnonneg : (0 ≤ (Int64.ofInt (saturated z)).toInt32) ↔ 0 ≤ narrowed z := by
    rw [Int32.le_iff_toInt_le, toInt_narrowed]
    rfl
  rw [readPort, strtol_numeral h]
  simp only [List.isEmpty_nil, true_and, hnonneg]

theorem readPort_eq_some {digits : List UInt8} {n : Int32} (h : readPort digits = some n) :
    cStr digits = [] ∨ ∃ z, Numeral (cStr digits) z ∧ 0 ≤ narrowed z := by
  rw [readPort] at h
  split at h
  · rename_i hend
    rcases numeral_of_strtol (List.isEmpty_iff.mp hend.1) with hnil | ⟨z, hz⟩
    · exact .inl hnil
    · refine .inr ⟨z, hz, ?_⟩
      have hn : 0 ≤ (strtol (cStr digits)).1.toInt32.toInt := Int32.le_iff_toInt_le.mp hend.2
      rwa [strtol_numeral hz, toInt_narrowed] at hn
  · exact absurd h (by simp)

theorem readPort_nil {digits : List UInt8} (h : cStr digits = []) : readPort digits = some 0 := by
  rw [readPort, h]
  rfl

theorem readPort_isDecimal {digits : List UInt8} (h : IsDecimal digits) :
    readPort digits = if 0 ≤ narrowed (digitsValue digits) then
      some (Int64.ofInt (saturated (digitsValue digits))).toInt32 else none :=
  readPort_numeral (numeral_of_isDecimal h)

theorem fst_splitPort_of_portHost {host digits : List UInt8} (h : 58 ∉ digits)
    (hhost : PortHost host) (portOut : Int32) :
    (splitPort (host ++ 58 :: digits) portOut).1 =
      ((readPort digits).filter fun n => 0 < n ∧ n < 0x10000).getD portOut := by
  rw [splitPort_of_portHost h hhost]
  cases readPort digits with
  | none => rfl
  | some n =>
    rw [Option.filter_some, Option.elim_some]
    simp only [decide_eq_true_eq]
    split <;> rfl

/-- The number after the colon becomes the port if what an `int` holds of it is in range. -/
theorem fst_splitPort_isDecimal {host digits : List UInt8} (hhost : PortHost host)
    (hdecimal : IsDecimal digits) (portOut : Int32) :
    (splitPort (host ++ 58 :: digits) portOut).1.toInt =
      if 1 ≤ narrowed (digitsValue digits) ∧ narrowed (digitsValue digits) ≤ 65535 then
        narrowed (digitsValue digits)
      else portOut.toInt := by
  have hrange : (0 < (Int64.ofInt (saturated (digitsValue digits))).toInt32 ∧
      (Int64.ofInt (saturated (digitsValue digits))).toInt32 < 0x10000) ↔
      (1 ≤ narrowed (digitsValue digits) ∧ narrowed (digitsValue digits) ≤ 65535) := by
    rw [Int32.lt_iff_toInt_lt, Int32.lt_iff_toInt_lt, toInt_narrowed,
      show (0 : Int32).toInt = 0 from rfl, show (0x10000 : Int32).toInt = 65536 from rfl]
    omega
  rw [fst_splitPort_of_portHost (not_mem_of_isDecimal hdecimal) hhost, readPort_isDecimal hdecimal]
  by_cases hport : 1 ≤ narrowed (digitsValue digits) ∧ narrowed (digitsValue digits) ≤ 65535
  · rw [if_pos hport, if_pos (by omega), Option.filter_some, if_pos (by simpa using hrange.mpr hport)]
    exact toInt_narrowed _
  · rw [if_neg hport]
    split
    · rw [Option.filter_some, if_neg (by simpa using fun hlo hhi => hport (hrange.mp ⟨hlo, hhi⟩))]
      rfl
    · rfl

theorem withoutBrackets_of_notMem {host : List UInt8} (h : 91 ∉ host) : withoutBrackets host = host := by
  rw [withoutBrackets, if_neg]
  rintro ⟨hfront, -⟩
  exact h (List.mem_of_getElem? hfront)

theorem withoutBrackets_bracketed (host : List UInt8) :
    withoutBrackets (91 :: (host ++ [93])) = host := by
  have hlast : (91 :: (host ++ [93])).getLast? = some 93 := by
    rw [← List.cons_append, List.getLast?_concat]
  rw [withoutBrackets, if_pos ⟨rfl, hlast⟩]
  simp

theorem isDecimal_decimal (n : ℕ) : IsDecimal (decimal n) :=
  ⟨decimal_ne_nil n, isdigit_of_mem_decimal n⟩

theorem splitHostPort_decimal {host : List UInt8} (hhost : PortHost host) {n : ℕ} (hlo : 1 ≤ n)
    (hhi : n ≤ 65535) (portOut : Int32) :
    splitHostPort (host ++ 58 :: decimal n) portOut = (.ofNat n, withoutBrackets host) := by
  have hnarrowed := narrowed_of_le hhi
  have hread : readPort (decimal n) = some (Int32.ofNat n) := by
    rw [readPort_isDecimal (isDecimal_decimal n), digitsValue_decimal, hnarrowed,
      if_pos (by omega), Option.some.injEq]
    apply Int32.toInt_inj.mp
    rw [toInt_narrowed, hnarrowed, ← Int32.ofInt_eq_ofNat,
      Int32.toInt_ofInt_of_le (by omega) (by omega)]
  have hrange : 0 < Int32.ofNat n ∧ Int32.ofNat n < 0x10000 := by
    rw [Int32.lt_iff_toInt_lt, Int32.lt_iff_toInt_lt, ← Int32.ofInt_eq_ofNat,
      Int32.toInt_ofInt_of_le (by omega) (by omega), show (0 : Int32).toInt = 0 from rfl,
      show (0x10000 : Int32).toInt = 65536 from rfl]
    omega
  rw [splitHostPort, splitPort_of_portHost (not_mem_of_isDecimal (isDecimal_decimal n)) hhost, hread,
    Option.elim_some]
  dsimp only
  rw [if_pos hrange]

theorem plainPort_of_splitsRight {host digits : List UInt8} (h : 58 ∉ digits)
    (hhost : PortHost host) (hright : SplitsRight (host ++ 58 :: digits)) : PlainPort digits := by
  by_cases hdecimal : IsDecimal digits
  · refine .inl ⟨hdecimal, or_iff_not_imp_left.mpr fun hlarge hport => ?_⟩
    have hfst := fst_splitPort_isDecimal hhost hdecimal 0
    rw [if_pos hport] at hfst
    rcases hright.port 0 with ⟨n, hn, -, hle, -⟩ | ⟨-, hsame⟩
    · have hvalue := ((namesPort_concat h).mp hn).2.2
      omega
    · have hzero : (splitPort (host ++ 58 :: digits) 0).1 = 0 := hsame
      rw [hzero, show (0 : Int32).toInt = 0 from rfl] at hfst
      omega
  · have hnone : readPort digits = none := by
      by_contra hread
      obtain ⟨n, hread⟩ := Option.ne_none_iff_exists'.mp hread
      have hsnd : (splitPort (host ++ 58 :: digits) 0).2 = host := by
        rw [splitPort_of_portHost h hhost, hread, Option.elim_some]
      rcases hright.suffix 0 with heq | ⟨digits', heq, -, hdecimal'⟩
      · have hlen := congrArg List.length (hsnd.symm.trans heq)
        simp at hlen
      · rw [hsnd, List.append_cancel_left_eq, List.cons.injEq] at heq
        exact hdecimal (heq.2 ▸ hdecimal')
    refine .inr ⟨hdecimal, fun hnil => ?_, fun z hz => ?_⟩
    · rw [readPort_nil hnil] at hnone
      exact absurd hnone (by simp)
    · by_contra hlarge
      rw [readPort_numeral hz, if_pos (by omega)] at hnone
      exact absurd hnone (by simp)

theorem readPort_eq_none_of_plainPort {digits : List UInt8} (hdecimal : ¬ IsDecimal digits)
    (hplain : PlainPort digits) : readPort digits = none := by
  obtain ⟨-, hne, hwrap⟩ := hplain.resolve_left fun h => hdecimal h.1
  cases hread : readPort digits with
  | none => rfl
  | some n =>
    rcases readPort_eq_some hread with hnil | ⟨z, hz, hnonneg⟩
    · exact absurd hnil hne
    · have := hwrap z hz
      omega

variable {str : List UInt8}
  (hplain : ∀ host digits, str = host ++ 58 :: digits → 58 ∉ digits → PortHost host →
    PlainPort digits)
include hplain

theorem suffix_of_plainPort (portOut : Int32) :
    (splitPort str portOut).2 = str ∨
      ∃ digits, str = (splitPort str portOut).2 ++ 58 :: digits ∧
        PortHost (splitPort str portOut).2 ∧ IsDecimal digits := by
  rcases lastColon_cases str with h | ⟨host, digits, rfl, h⟩
  · exact .inl (by rw [splitPort_of_notMem h])
  · by_cases hhost : PortHost host
    · by_cases hdecimal : IsDecimal digits
      · rw [splitPort_of_portHost h hhost]
        cases readPort digits with
        | none => exact .inl rfl
        | some n => exact .inr ⟨digits, rfl, hhost, hdecimal⟩
      · have hnone := readPort_eq_none_of_plainPort hdecimal (hplain host digits rfl h hhost)
        exact .inl (by rw [splitPort_of_portHost h hhost, hnone, Option.elim_none])
    · exact .inl (by rw [splitPort_of_not_portHost h hhost])

theorem port_of_plainPort (portOut : Int32) :
    (∃ n, NamesPort str n ∧ 1 ≤ n ∧ n ≤ 65535 ∧ (splitHostPort str portOut).1.toInt = n) ∨
      (∀ n, NamesPort str n → ¬ (1 ≤ n ∧ n ≤ 65535)) ∧ (splitHostPort str portOut).1 = portOut := by
  have hfst : (splitHostPort str portOut).1 = (splitPort str portOut).1 := rfl
  rw [hfst]
  rcases lastColon_cases str with h | ⟨host, digits, rfl, h⟩
  · refine .inr ⟨?_, by rw [splitPort_of_notMem h]⟩
    rintro n ⟨host, digits, rfl, -⟩
    exact absurd (List.mem_append_right host List.mem_cons_self) h
  · by_cases hhost : PortHost host
    · by_cases hdecimal : IsDecimal digits
      · have hport := fst_splitPort_isDecimal hhost hdecimal portOut
        by_cases hrange : 1 ≤ digitsValue digits ∧ digitsValue digits ≤ 65535
        · refine .inl ⟨digitsValue digits, (namesPort_concat h).mpr ⟨hhost, hdecimal, rfl⟩,
            hrange.1, hrange.2, ?_⟩
          rw [hport, narrowed_of_le hrange.2, if_pos (by omega)]
        · refine .inr ⟨fun n hn => (((namesPort_concat h).mp hn).2.2) ▸ hrange, ?_⟩
          rw [if_neg] at hport
          · exact Int32.toInt_inj.mp hport
          · rcases (hplain host digits rfl h hhost).resolve_right fun hno => hno.1 hdecimal with
              ⟨-, hsmall | hwrap⟩
            · rw [narrowed_of_le hsmall]
              omega
            · exact hwrap
      · have hnone := readPort_eq_none_of_plainPort hdecimal (hplain host digits rfl h hhost)
        refine .inr ⟨fun n hn => absurd ((namesPort_concat h).mp hn).2.1 hdecimal, ?_⟩
        rw [splitPort_of_portHost h hhost, hnone, Option.elim_none]
    · refine .inr ⟨fun n hn => absurd ((namesPort_concat h).mp hn).1 hhost, ?_⟩
      rw [splitPort_of_not_portHost h hhost]

omit hplain

/-- `SplitHostPort` does what it is meant to do with all strings but those that have no plain number
after a colon in front of a port. -/
theorem splitHostPort_iff (str : List UInt8) :
    SplitsRight str ↔ ∀ host digits, str = host ++ 58 :: digits → 58 ∉ digits → PortHost host →
      PlainPort digits := by
  constructor
  · rintro hright host digits rfl h hhost
    exact plainPort_of_splitsRight h hhost hright
  · intro hplain
    refine ⟨suffix_of_plainPort hplain, port_of_plainPort hplain, ?_⟩
    intro portOut host n hlo hhi
    constructor
    · rintro hcolon hopen - rfl
      rw [splitHostPort_decimal (.inr hcolon) hlo hhi, withoutBrackets_of_notMem hopen]
    · intro heq
      have hstr : str = (91 :: (host ++ [93])) ++ 58 :: decimal n := by rw [heq]; simp
      rw [hstr, splitHostPort_decimal (.inl ⟨host, rfl⟩) hlo hhi, withoutBrackets_bracketed]

/-- `h:4294967376` names no port, and yet the port becomes 80. -/
theorem not_splitsRight_wrapped :
    ¬ SplitsRight [104, 58, 52, 50, 57, 52, 57, 54, 55, 51, 55, 54] := by
  intro h
  have hplain : PlainPort [52, 50, 57, 52, 57, 54, 55, 51, 55, 54] :=
    @plainPort_of_splitsRight [104] _ (by decide) (.inr (by decide)) h
  have hdecimal : IsDecimal [52, 50, 57, 52, 57, 54, 55, 51, 55, 54] :=
    ⟨by simp, by simp [isdigit]⟩
  rcases hplain.resolve_right fun hno => hno.1 hdecimal with ⟨-, hsmall | hwrap⟩
  · exact absurd hsmall (by decide)
  · exact hwrap (by decide)

end Beancash
