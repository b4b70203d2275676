import Beancash.ByteText
import Beancash.Transaction

namespace Beancash

section Lines

variable {α : Type} [DecidableEq α] {sep : α}

theorem splitOn_flatMap_concat {lines : List (List α)} (h : ∀ line ∈ lines, sep ∉ line) :
    (lines.flatMap (· ++ [sep])).splitOn sep = lines ++ [[]] := by
  induction lines with
  | nil => exact List.splitOn_nil sep
  | cons line lines ih =>
    rw [List.flatMap_cons, List.append_assoc]
    change (line ++ sep :: lines.flatMap (· ++ [sep])).splitOn sep = _
    rw [List.splitOn_append_cons_self_of_not_mem (h line List.mem_cons_self),
      ih fun l hl => h l (List.mem_cons_of_mem line hl)]
    rfl

end Lines

/-- What is called of the C library and of `boost::date_time`. A date is a number of ticks since
the beginning of 1970. -/
structure DateLibrary where
  /-- `strftime` of what `gmtime` answers -/
  strftime : (pszFormat : List UInt8) → (nTime : ℤ) → List UInt8
  /-- The date that a stream reads with a `time_input_facet`, if it reads one. -/
  readDate : (format str : List UInt8) → Option ℤ
  ticksPerSecond : ℤ
  /-- What `pt_to_time_t` makes of `not_a_date_time`. -/
  notADateTime : ℤ

def formats : List (List UInt8) :=
  [bytesOf "%Y-%m-%dT%H:%M:%SZ", bytesOf "%Y-%m-%d %H:%M:%S", bytesOf "%Y/%m/%d %H:%M:%S",
    bytesOf "%d.%m.%Y %H:%M:%S", bytesOf "%Y-%m-%d"]

def encodeDumpTime (lib : DateLibrary) (nTime : ℤ) : List UInt8 :=
  lib.strftime (bytesOf "%Y-%m-%dT%H:%M:%SZ") nTime

def ptToTimeT (lib : DateLibrary) : Option ℤ → ℤ
  | some ticks => ticks.tdiv lib.ticksPerSecond
  | none => lib.notADateTime

/-- `DecodeDumpTime`, which tries one format after the other. -/
def decodeDumpTime (lib : DateLibrary) (s : List UInt8) : ℤ :=
  ptToTimeT lib (formats.findSome? fun format => lib.readDate format s)

/-- What is relied on of the libraries: a time is written with digits and what stands between them
in the format, and one in the range of both libraries is read as it was written. -/
structure DateLibrary.Sound (lib : DateLibrary) (inRange : ℤ → Prop) : Prop where
  ticksPerSecond_ne_zero : lib.ticksPerSecond ≠ 0
  plain : ∀ nTime, ∀ ch ∈ encodeDumpTime lib nTime, 32 < ch
  readDate_encodeDumpTime : ∀ nTime, inRange nTime →
    lib.readDate (bytesOf "%Y-%m-%dT%H:%M:%SZ") (encodeDumpTime lib nTime) =
      some (nTime * lib.ticksPerSecond)

theorem decodeDumpTime_encodeDumpTime {lib : DateLibrary} {inRange : ℤ → Prop}
    (hlib : lib.Sound inRange) {nTime : ℤ} (h : inRange nTime) :
    decodeDumpTime lib (encodeDumpTime lib nTime) = nTime := by
  rw [decodeDumpTime, formats, List.findSome?_cons, hlib.readDate_encodeDumpTime nTime h]
  exact Int.mul_tdiv_cancel nTime hlib.ticksPerSecond_ne_zero

def hexmap : List UInt8 := bytesOf "0123456789abcdef"

def hexStr (vch : List UInt8) : List UInt8 :=
  vch.flatMap fun val : UInt8 => [hexmap.getD (val >>> 4).toNat 0, hexmap.getD (val &&& 15).toNat 0]

/-- `ToString` of a hash -/
def hashString (hash : Uint256) : List UInt8 :=
  (List.range 64).map fun i => hexmap.getD (hash.toNat / 16 ^ (63 - i) % 16) 0

/-- What `EncodeDumpString` writes of a character. -/
def encodeDumpChar (c : UInt8) : List UInt8 :=
  if c ≤ 32 ∨ 128 ≤ c ∨ c = 37 then 37 :: hexStr [c] else [c]

def encodeDumpString (str : List UInt8) : List UInt8 := str.flatMap encodeDumpChar

/-- What `DecodeDumpString` takes a character for, as a hexadecimal digit. It is a signed `char`. -/
def dumpDigit (ch : UInt8) : Int32 :=
  let ch := ch.toInt8.toInt32
  (ch >>> 6) * 9 + ((ch - 48) &&& 15)

/-- The character that two digits stand for. -/
def dumpChar (high low : UInt8) : UInt8 :=
  (dumpDigit high <<< 4 ||| dumpDigit low).toUInt32.toUInt8

/-- The loop of `DecodeDumpString`. The position is an `unsigned int`. -/
def decodeDumpLoop (str : List UInt8) : ℕ → UInt32 → Option (List UInt8)
  | 0, _ => none
  | fuel + 1, pos =>
    if pos.toNat < str.length then
      let c := str.getD pos.toNat 0
      if c = 37 ∧ (pos + 2).toNat < str.length then
        let c := dumpChar (str.getD (pos + 1).toNat 0) (str.getD (pos + 2).toNat 0)
        (decodeDumpLoop str fuel (pos + 2 + 1)).map (c :: ·)
      else (decodeDumpLoop str fuel (pos + 1)).map (c :: ·)
    else some []

/-- `DecodeDumpString`, with so many rounds. -/
def decodeDumpString (fuel : ℕ) (str : List UInt8) : Option (List UInt8) :=
  decodeDumpLoop str fuel 0

/-- What is written for the byte of a number, checked by the number of bytes. -/
def isEncodedDumpChar (n : ℕ) : Bool :=
  match encodeDumpChar (.ofNat n) with
  | [c] => c = .ofNat n && 32 < c && c != 37
  | [c, high, low] => c = 37 && 32 < high && 32 < low && dumpChar high low = .ofNat n
  | _ => false

theorem encodeDumpChar_cases (c : UInt8) : (encodeDumpChar c = [c] ∧ 32 < c ∧ c ≠ 37) ∨
    ∃ high low, encodeDumpChar c = [37, high, low] ∧ 32 < high ∧ 32 < low ∧
      dumpChar high low = c := by
  have hall : (List.range 256).all isEncodedDumpChar = true := by
    decide +kernel
  have hc := List.all_eq_true.mp hall c.toNat (List.mem_range.mpr c.toNat_lt)
  rw [isEncodedDumpChar, UInt8.ofNat_toNat] at hc
  split at hc
  · rename_i code heq
    obtain ⟨⟨rfl, hspace⟩, hpercent⟩ : (code = c ∧ 32 < code) ∧ code ≠ 37 := by simpa using hc
    exact .inl ⟨heq, hspace, hpercent⟩
  · rename_i percent high low heq
    obtain ⟨⟨⟨rfl, hhigh⟩, hlow⟩, hchar⟩ :
        ((percent = 37 ∧ 32 < high) ∧ 32 < low) ∧ dumpChar high low = c := by simpa using hc
    exact .inr ⟨high, low, heq, hhigh, hlow, hchar⟩
  · cases hc

theorem lt_of_mem_encodeDumpString {str : List UInt8} : ∀ ch ∈ encodeDumpString str, 32 < ch := by
  intro ch hch
  obtain ⟨c, -, hmem⟩ := List.mem_flatMap.mp hch
  rcases encodeDumpChar_cases c with ⟨hcode, hspace, -⟩ | ⟨high, low, hcode, hhigh, hlow, -⟩
  · rw [hcode, List.mem_singleton] at hmem
    rwa [hmem]
  · rw [hcode] at hmem
    rcases List.mem_cons.mp hmem with rfl | hmem
    · decide
    rcases List.mem_pair.mp hmem with rfl | rfl
    · exact hhigh
    · exact hlow

theorem length_le_encodeDumpString (str : List UInt8) :
    str.length ≤ (encodeDumpString str).length := by
  induction str with
  | nil => exact le_rfl
  | cons c str ih =>
    rw [encodeDumpString, List.flatMap_cons, List.length_append, List.length_cons]
    change str.length + 1 ≤ (encodeDumpChar c).length + (encodeDumpString str).length
    rcases encodeDumpChar_cases c with ⟨hcode, -⟩ | ⟨high, low, hcode, -⟩
    · rw [hcode, List.length_singleton]
      omega
    · rw [hcode]
      change _ ≤ 3 + _
      omega

section Decode

variable {str pre rest : List UInt8} {pos : UInt32} {fuel : ℕ}

theorem getD_append_add (k : ℕ) : (pre ++ rest).getD (pre.length + k) 0 = rest.getD k 0 := by
  rw [List.getD_eq_getElem?_getD, List.getElem?_append_right (Nat.le_add_right _ _),
    Nat.add_sub_cancel_left, ← List.getD_eq_getElem?_getD]

theorem toNat_add {k : UInt32} (h : pos.toNat + k.toNat < 2 ^ 32) :
    (pos + k).toNat = pos.toNat + k.toNat := by
  rw [UInt32.toNat_add, Nat.mod_eq_of_lt h]

theorem decodeDumpLoop_plain {c : UInt8} (hstr : str = pre ++ c :: rest)
    (hpos : pos.toNat = pre.length) (hc : c ≠ 37) :
    decodeDumpLoop str (fuel + 1) pos = (decodeDumpLoop str fuel (pos + 1)).map (c :: ·) := by
  have hlt : pos.toNat < str.length := by
    rw [hpos, hstr, List.length_append, List.length_cons]
    omega
  have hget : str.getD pos.toNat 0 = c := by
    rw [hstr, hpos]
    exact getD_append_add 0
  rw [decodeDumpLoop, if_pos hlt]
  dsimp only
  rw [hget, if_neg (fun h => hc h.1)]

theorem decodeDumpLoop_percent {high low : UInt8} (hstr : str = pre ++ 37 :: high :: low :: rest)
    (hpos : pos.toNat = pre.length) (hlen : str.length < 2 ^ 32) :
    decodeDumpLoop str (fuel + 1) pos =
      (decodeDumpLoop str fuel (pos + 2 + 1)).map (dumpChar high low :: ·) := by
  have hcount : str.length = pre.length + (rest.length + 3) := by
    rw [hstr, List.length_append]
    rfl
  have hone : (pos + 1).toNat = pre.length + 1 := by
    rw [toNat_add (by rw [hpos]; change pre.length + 1 < _; omega), hpos]
    rfl
  have htwo : (pos + 2).toNat = pre.length + 2 := by
    rw [toNat_add (by rw [hpos]; change pre.length + 2 < _; omega), hpos]
    rfl
  have hget : str.getD pos.toNat 0 = 37 := by
    rw [hstr, hpos]
    exact getD_append_add 0
  have hhigh : str.getD (pos + 1).toNat 0 = high := by
    rw [hstr, hone]
    exact getD_append_add 1
  have hlow : str.getD (pos + 2).toNat 0 = low := by
    rw [hstr, htwo]
    exact getD_append_add 2
  rw [decodeDumpLoop, if_pos (by omega)]
  dsimp only
  rw [hget, hhigh, hlow, if_pos ⟨rfl, by omega⟩]

theorem decodeDumpLoop_encodeDumpString (pre : List UInt8) {label : List UInt8}
    (hstr : str = pre ++ encodeDumpString label) (hpos : pos.toNat = pre.length)
    (hlen : str.length < 2 ^ 32) (hfuel : label.length < fuel) :
    decodeDumpLoop str fuel pos = some label := by
  induction label generalizing pre pos fuel with
  | nil =>
    obtain ⟨fuel, rfl⟩ := Nat.exists_eq_add_one_of_ne_zero (Nat.ne_of_gt hfuel)
    have hend : ¬pos.toNat < str.length := by
      rw [hpos, hstr, encodeDumpString, List.flatMap_nil, List.append_nil]
      exact lt_irrefl _
    rw [decodeDumpLoop, if_neg hend]
  | cons c label ih =>
    obtain ⟨fuel, rfl⟩ := Nat.exists_eq_add_one_of_ne_zero (Nat.ne_of_gt (Nat.zero_lt_of_lt hfuel))
    rw [encodeDumpString, List.flatMap_cons] at hstr
    rw [List.length_cons, Nat.add_lt_add_iff_right] at hfuel
    have hcount := congrArg List.length hstr
    rw [List.length_append, List.length_append] at hcount
    rcases encodeDumpChar_cases c with ⟨hcode, -, hpercent⟩ | ⟨high, low, hcode, -, -, hchar⟩
    · rw [hcode] at hstr hcount
      change _ = _ + (1 + _) at hcount
      rw [decodeDumpLoop_plain hstr hpos hpercent, ih (pre ++ [c]) ?_ ?_ hfuel]
      · rfl
      · rw [hstr, List.append_assoc]
        rfl
      · rw [toNat_add (by rw [hpos]; change pre.length + 1 < _; omega), hpos, List.length_append]
        rfl
    · rw [hcode] at hstr hcount
      change _ = _ + (3 + _) at hcount
      rw [decodeDumpLoop_percent hstr hpos hlen,
        ih (pre ++ [37, high, low]) ?_ ?_ hfuel, hchar]
      · rfl
      · rw [hstr, List.append_assoc]
        rfl
      · have htwo : (pos + 2).toNat = pre.length + 2 := by
          rw [toNat_add (by rw [hpos]; change pre.length + 2 < _; omega), hpos]
          rfl
        rw [toNat_add (by rw [htwo]; change pre.length + 2 + 1 < _; omega), htwo,
          List.length_append]
        rfl

theorem decodeDumpString_encodeDumpString {label : List UInt8}
    (hlen : (encodeDumpString label).length < 2 ^ 32) (hfuel : label.length < fuel) :
    decodeDumpString fuel (encodeDumpString label) = some label :=
  decodeDumpLoop_encodeDumpString [] rfl rfl hlen hfuel

theorem decodeDumpString_eq_none (hlen : 2 ^ 32 ≤ str.length) (fuel : ℕ) :
    decodeDumpString fuel str = none := by
  have hloop : ∀ pos, decodeDumpLoop str fuel pos = none := by
    induction fuel with
    | zero => exact fun _ => rfl
    | succ fuel ih =>
      intro pos
      have hlt : pos.toNat < str.length := pos.toNat_lt.trans_le hlen
      rw [decodeDumpLoop, if_pos hlt]
      dsimp only
      rw [ih, ih]
      exact ite_self _
  exact hloop 0

end Decode

end Beancash
