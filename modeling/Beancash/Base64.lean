import Beancash.DigitRegrouping
import Beancash.ByteText
import Mathlib.Data.List.GetD

namespace Beancash

def pbase64 : List UInt8 :=
  bytesOf "ABCDEFGHIJKLMNOPQRSTUVWXYZabcdefghijklmnopqrstuvwxyz0123456789+/"

def pbase32 : List UInt8 := bytesOf "abcdefghijklmnopqrstuvwxyz234567"

/-- `decode64_table`, without the entries that are -1. -/
def decode64Table (ch : UInt8) : Option ℕ :=
  if 65 ≤ ch && ch ≤ 90 then some (ch.toNat - 65)
  else if 97 ≤ ch && ch ≤ 122 then some (ch.toNat - 97 + 26)
  else if 48 ≤ ch && ch ≤ 57 then some (ch.toNat - 48 + 52)
  else if ch = 43 then some 62
  else if ch = 47 then some 63
  else none

/-- `decode32_table`, without the entries that are -1. -/
def decode32Table (ch : UInt8) : Option ℕ :=
  if 65 ≤ ch && ch ≤ 90 then some (ch.toNat - 65)
  else if 97 ≤ ch && ch ≤ 122 then some (ch.toNat - 97)
  else if 50 ≤ ch && ch ≤ 55 then some (ch.toNat - 50 + 26)
  else none

/-- The variables of `EncodeBase64` and `EncodeBase32`. -/
structure EncodeState where
  strRet : List UInt8
  mode : ℕ
  left : ℕ

def encode64Step (s : EncodeState) (enc : ℕ) : EncodeState :=
  match s.mode with
  | 0 => -- we have no bits
    ⟨s.strRet ++ [pbase64.getD (enc >>> 2) 0], 1, (enc &&& 3) <<< 4⟩
  | 1 => -- we have two bits
    ⟨s.strRet ++ [pbase64.getD (s.left ||| enc >>> 4) 0], 2, (enc &&& 15) <<< 2⟩
  | 2 => -- we have four bits
    ⟨s.strRet ++ [pbase64.getD (s.left ||| enc >>> 6) 0] ++ [pbase64.getD (enc &&& 63) 0], 0, s.left⟩
  | _ => s

def encodeBase64 (pch : List UInt8) : List UInt8 :=
  let s := (pch.map UInt8.toNat).foldl encode64Step ⟨[], 0, 0⟩
  if s.mode ≠ 0 then
    let strRet := s.strRet ++ [pbase64.getD s.left 0] ++ [61]
    if s.mode = 1 then strRet ++ [61] else strRet
  else s.strRet

def encode32Step (s : EncodeState) (enc : ℕ) : EncodeState :=
  match s.mode with
  | 0 => -- we have no bits
    ⟨s.strRet ++ [pbase32.getD (enc >>> 3) 0], 1, (enc &&& 7) <<< 2⟩
  | 1 => -- we have three bits
    ⟨s.strRet ++ [pbase32.getD (s.left ||| enc >>> 6) 0] ++ [pbase32.getD (enc >>> 1 &&& 31) 0], 2,
      (enc &&& 1) <<< 4⟩
  | 2 => -- we have one bit
    ⟨s.strRet ++ [pbase32.getD (s.left ||| enc >>> 4) 0], 3, (enc &&& 15) <<< 1⟩
  | 3 => -- we have four bits
    ⟨s.strRet ++ [pbase32.getD (s.left ||| enc >>> 7) 0] ++ [pbase32.getD (enc >>> 2 &&& 31) 0], 4,
      (enc &&& 3) <<< 3⟩
  | 4 => -- we have two bits
    ⟨s.strRet ++ [pbase32.getD (s.left ||| enc >>> 5) 0] ++ [pbase32.getD (enc &&& 31) 0], 0, s.left⟩
  | _ => s

def encodeBase32 (pch : List UInt8) : List UInt8 :=
  let s := (pch.map UInt8.toNat).foldl encode32Step ⟨[], 0, 0⟩
  if s.mode ≠ 0 then
    s.strRet ++ [pbase32.getD s.left 0] ++ List.replicate ([0, 6, 4, 3, 1].getD s.mode 0) 61
  else s.strRet

/-- The variables of `DecodeBase64` and `DecodeBase32`. -/
structure DecodeState where
  vchRet : List UInt8
  mode : ℕ
  left : ℕ

def decode64Step (s : DecodeState) (dec : ℕ) : DecodeState :=
  match s.mode with
  | 0 => -- we have no bits and get 6
    { s with left := dec, mode := 1 }
  | 1 => -- we have 6 bits and keep 4
    ⟨s.vchRet ++ [.ofNat (s.left <<< 2 ||| dec >>> 4)], 2, dec &&& 15⟩
  | 2 => -- we have 4 bits and get 6, we keep 2
    ⟨s.vchRet ++ [.ofNat (s.left <<< 4 ||| dec >>> 2)], 3, dec &&& 3⟩
  | 3 => -- we have 2 bits and get 6
    ⟨s.vchRet ++ [.ofNat (s.left <<< 6 ||| dec)], 0, s.left⟩
  | _ => s

def decode32Step (s : DecodeState) (dec : ℕ) : DecodeState :=
  match s.mode with
  | 0 => -- we have no bits and get 5
    { s with left := dec, mode := 1 }
  | 1 => -- we have 5 bits and keep 2
    ⟨s.vchRet ++ [.ofNat (s.left <<< 3 ||| dec >>> 2)], 2, dec &&& 3⟩
  | 2 => -- we have 2 bits and keep 7
    { s with left := s.left <<< 5 ||| dec, mode := 3 }
  | 3 => -- we have 7 bits and keep 4
    ⟨s.vchRet ++ [.ofNat (s.left <<< 1 ||| dec >>> 4)], 4, dec &&& 15⟩
  | 4 => -- we have 4 bits, and keep 1
    ⟨s.vchRet ++ [.ofNat (s.left <<< 4 ||| dec >>> 1)], 5, dec &&& 1⟩
  | 5 => -- we have 1 bit, and keep 6
    { s with left := s.left <<< 5 ||| dec, mode := 6 }
  | 6 => -- we have 6 bits, and keep 3
    ⟨s.vchRet ++ [.ofNat (s.left <<< 2 ||| dec >>> 3)], 7, dec &&& 7⟩
  | 7 => -- we have 3 bits, and keep 0
    ⟨s.vchRet ++ [.ofNat (s.left <<< 5 ||| dec)], 0, s.left⟩
  | _ => s

/-- The loop, which stops at the first character that is not in the table. -/
def tableLoop (table : UInt8 → Option ℕ) (step : DecodeState → ℕ → DecodeState) :
    DecodeState → List UInt8 → DecodeState × List UInt8
  | s, [] => (s, [])
  | s, ch :: p =>
    match table ch with
    | none => (s, ch :: p)
    | some dec => tableLoop table step (step s dec) p

/-- So many characters of padding, and behind them one that is not in the table. -/
def isPadded (table : UInt8 → Option ℕ) (padding : ℕ) (p : List UInt8) : Bool :=
  (List.range padding).all (fun i => p.getD i 0 = 61) && (table (p.getD padding 0)).isNone

/-- The bytes of `DecodeBase64`, and what it tells of the string by `pfInvalid`. -/
def decodeBase64 (str : List UInt8) : List UInt8 × Bool :=
  let (s, p) := tableLoop decode64Table decode64Step ⟨[], 0, 0⟩ str
  let fInvalid := match s.mode with
    | 0 => false -- 4n base64 characters processed: ok
    | 1 => true -- 4n+1 base64 character processed: impossible
    | 2 => -- 4n+2 base64 characters processed: require '=='
      s.left ≠ 0 || !isPadded decode64Table 2 p
    | 3 => -- 4n+3 base64 characters processed: require '='
      s.left ≠ 0 || !isPadded decode64Table 1 p
    | _ => false
  (s.vchRet, fInvalid)

/-- The bytes of `DecodeBase32`, and what it tells of the string by `pfInvalid`. -/
def decodeBase32 (str : List UInt8) : List UInt8 × Bool :=
  let (s, p) := tableLoop decode32Table decode32Step ⟨[], 0, 0⟩ str
  let fInvalid := match s.mode with
    | 0 => false -- 8n base32 characters processed: ok
    | 1 | 3 | 6 => true -- 8n+1 base32 characters processed: impossible
    | 2 => -- 8n+2 base32 characters processed: require '======'
      s.left ≠ 0 || !isPadded decode32Table 6 p
    | 4 => -- 8n+4 base32 characters processed: require '===='
      s.left ≠ 0 || !isPadded decode32Table 4 p
    | 5 => -- 8n+5 base32 characters processed: require '==='
      s.left ≠ 0 || !isPadded decode32Table 3 p
    | 7 => -- 8n+7 base32 characters processed: require '='
      s.left ≠ 0 || !isPadded decode32Table 1 p
    | _ => false
  (s.vchRet, fInvalid)

/-- An encoding of bytes by characters of `b` bits in groups of `m`. -/
structure Codec where
  b : ℕ
  m : ℕ
  char : ℕ → UInt8
  table : UInt8 → Option ℕ
  encode : List UInt8 → List UInt8
  decode : List UInt8 → List UInt8 × Bool

namespace Codec

open DigitRegrouping

/-- The characters that a string begins with. -/
def accepted (c : Codec) (str : List UInt8) : List ℕ :=
  (str.takeWhile fun ch => (c.table ch).isSome).filterMap c.table

/-- What comes after them. -/
def rest (c : Codec) (str : List UInt8) : List UInt8 :=
  str.dropWhile fun ch => (c.table ch).isSome

/-- How many characters of padding make up whole groups. -/
def padding (c : Codec) (n : ℕ) : ℕ := (c.m - n % c.m) % c.m

/-- The character that is written for one that is read. -/
def canonical (c : Codec) (ch : UInt8) : UInt8 := ((c.table ch).map c.char).getD ch

/-- Both directions regroup the bits, and the flag asks that no bits but zeros are left and that the
padding follows. -/
structure Spec (c : Codec) : Prop where
  pos : 0 < c.b
  le : c.b ≤ 8
  table_char : ∀ d < 2 ^ c.b, c.table (c.char d) = some d
  table_lt : ∀ ch d, c.table ch = some d → d < 2 ^ c.b
  table_pad : c.table 61 = none
  table_end : c.table 0 = none
  encode_eq : ∀ v, ∃ out k x, Regrouped 8 c.b (v.map UInt8.toNat) out k x ∧ k < c.b ∧
    c.encode v = (flushed c.b out k x).map c.char ++
      List.replicate (c.padding (flushed c.b out k x).length) 61
  decode_eq : ∀ str, ∃ out k x, Regrouped c.b 8 (c.accepted str) out k x ∧ k < 8 ∧
    (c.decode str).1 = out.map UInt8.ofNat ∧
      ((c.decode str).2 = false ↔ k < c.b ∧ x = 0 ∧
        (k = 0 ∨ isPadded c.table (c.padding (c.accepted str).length) (c.rest str) = true))

variable {c : Codec}

theorem accepted_lt (h : c.Spec) (str : List UInt8) : ∀ d ∈ c.accepted str, d < 2 ^ c.b := by
  intro d hd
  obtain ⟨ch, -, hch⟩ := List.mem_filterMap.mp hd
  exact h.table_lt ch d hch

theorem accepted_append (h : c.Spec) {digits : List ℕ} (hdigits : ∀ d ∈ digits, d < 2 ^ c.b)
    (padding : ℕ) :
    c.accepted (digits.map c.char ++ List.replicate padding 61) = digits ∧
      c.rest (digits.map c.char ++ List.replicate padding 61) = List.replicate padding 61 := by
  have hstop : ∀ n, (List.replicate n (61 : UInt8)).takeWhile (fun ch => (c.table ch).isSome) = [] ∧
      (List.replicate n (61 : UInt8)).dropWhile (fun ch => (c.table ch).isSome) =
        List.replicate n 61 := by
    intro n
    cases n with
    | zero => exact ⟨rfl, rfl⟩
    | succ n =>
      rw [List.replicate_succ, List.takeWhile_cons_of_neg (by simp [h.table_pad]),
        List.dropWhile_cons_of_neg (by simp [h.table_pad])]
      exact ⟨rfl, rfl⟩
  have hall : ∀ ch ∈ digits.map c.char, (c.table ch).isSome = true := by
    intro ch hch
    obtain ⟨d, hd, rfl⟩ := List.mem_map.mp hch
    rw [h.table_char d (hdigits d hd)]
    rfl
  constructor
  · rw [accepted, List.takeWhile_append_of_pos hall, (hstop padding).1, List.append_nil,
      List.filterMap_map]
    refine (List.filterMap_congr fun d hd => ?_).trans List.filterMap_some
    exact h.table_char d (hdigits d hd)
  · rw [rest, List.dropWhile_append_of_pos hall, (hstop padding).2]

theorem isPadded_replicate (h : c.Spec) (n : ℕ) :
    isPadded c.table n (List.replicate n 61) = true := by
  rw [isPadded, Bool.and_eq_true]
  constructor
  · refine List.all_eq_true.mpr fun i hi => ?_
    have hlt : i < (List.replicate n (61 : UInt8)).length := by
      rw [List.length_replicate]
      exact List.mem_range.mp hi
    rw [List.getD_eq_getElem _ _ hlt, List.getElem_replicate]
    rfl
  · rw [List.getD_eq_default _ _ (by rw [List.length_replicate]), h.table_end]
    rfl

theorem Spec.decode_encode (h : c.Spec) (v : List UInt8) : c.decode (c.encode v) = (v, false) := by
  obtain ⟨out, k, x, hout, hk, hencode⟩ := h.encode_eq v
  obtain ⟨back, k', x', hback, hk', hbytes, hvalid⟩ := h.decode_eq (c.encode v)
  obtain ⟨haccepted, hrest⟩ := accepted_append h (hout.flushed_lt hk)
    (c.padding (flushed c.b out k x).length)
  rw [← hencode] at haccepted hrest
  rw [haccepted] at hback hvalid
  rw [hrest] at hvalid
  have hpos := h.pos
  obtain ⟨rfl, hbits, hzero⟩ :=
    hout.unique_back (by decide) hk h.le (toNat_lt_of_mem v) hback hk'
  refine Prod.ext ?_ ?_
  · rw [hbytes, map_ofNat_toNat]
  · refine hvalid.mpr ⟨?_, hzero, .inr (isPadded_replicate h _)⟩
    rw [hbits]
    split_ifs <;> omega

theorem canonical_eq_pad (h : c.Spec) (ch : UInt8) : c.canonical ch = 61 ↔ ch = 61 := by
  rw [canonical]
  cases htable : c.table ch with
  | none => rfl
  | some d =>
    have hchar := h.table_char d (h.table_lt ch d htable)
    constructor
    · intro heq
      have heq : c.char d = 61 := heq
      rw [heq, h.table_pad] at hchar
      cases hchar
    · rintro rfl
      rw [h.table_pad] at htable
      cases htable

theorem map_canonical {str : List UInt8} (hall : ∀ ch ∈ str, (c.table ch).isSome = true) :
    str.map c.canonical = (str.filterMap c.table).map c.char := by
  induction str with
  | nil => rfl
  | cons ch str ih =>
    obtain ⟨hch, hrest⟩ := List.forall_mem_cons.mp hall
    obtain ⟨d, hd⟩ := Option.isSome_iff_exists.mp hch
    rw [List.map_cons, ih hrest, List.filterMap_cons_some hd, List.map_cons, canonical, hd]
    rfl

theorem Spec.valid_iff (h : c.Spec) {str : List UInt8} (hvalid : (c.decode str).2 = false) :
    c.encode (c.decode str).1 = str.map c.canonical ↔
      c.rest str = List.replicate (c.padding (c.accepted str).length) 61 := by
  obtain ⟨out, k, x, hout, -, hbytes, hiff⟩ := h.decode_eq str
  obtain ⟨hk, rfl, -⟩ := hiff.mp hvalid
  obtain ⟨back, k', x', hback, hk', hencode⟩ := h.encode_eq (c.decode str).1
  rw [hbytes, map_toNat_ofNat hout.digits_lt] at hback
  have hflushed := hout.flushed_eq h.pos hk (accepted_lt h str) hback hk'
  have hpre : (str.takeWhile fun ch => (c.table ch).isSome).map c.canonical =
      (c.accepted str).map c.char := by
    exact map_canonical fun ch hch =>
      List.mem_takeWhile_imp (p := fun ch => (c.table ch).isSome) hch
  have hsplit : str.map c.canonical =
      (c.accepted str).map c.char ++ (c.rest str).map c.canonical := by
    rw [← hpre, rest, ← List.map_append, List.takeWhile_append_dropWhile]
  rw [hencode, hflushed, hsplit, List.append_cancel_left_eq, eq_comm, List.eq_replicate_iff,
    List.eq_replicate_iff, List.length_map, List.forall_mem_map]
  simp only [canonical_eq_pad h]

end Codec

section Machines

open DigitRegrouping

theorem shiftLeft_or {x n y : ℕ} (h : y < 2 ^ n) : x <<< n ||| y = x * 2 ^ n + y := by
  rw [← Nat.shiftLeft_add_eq_or_of_lt h, Nat.shiftLeft_eq]

theorem and_mask (x n : ℕ) : x &&& (2 ^ n - 1) = x % 2 ^ n := Nat.and_two_pow_sub_one_eq_mod x n

/-- The characters of the digits that the bits of `ins` make up, with `k` bits left. -/
def Produced (a b : ℕ) (f : ℕ → UInt8) (ins : List ℕ) (str : List UInt8) (k x : ℕ) : Prop :=
  ∃ out, Regrouped a b ins out k x ∧ str = out.map f

variable {a b k x : ℕ} {f : ℕ → UInt8} {ins : List ℕ} {str : List UInt8}

theorem Produced.feed (h : Produced a b f ins str k x) {d : ℕ} (hd : d < 2 ^ a) :
    Produced a b f (ins ++ [d]) str (k + a) (x * 2 ^ a + d) := by
  obtain ⟨out, hout, hstr⟩ := h
  exact ⟨out, hout.feed hd, hstr⟩

theorem Produced.emit (h : Produced a b f ins str (k + b) x) {d : ℕ} (hd : d = x / 2 ^ k) :
    Produced a b f ins (str ++ [f d]) k (x % 2 ^ k) := by
  obtain ⟨out, hout, hstr⟩ := h
  refine ⟨out ++ [d], hd ▸ hout.emit, ?_⟩
  rw [hstr, List.map_append, List.map_singleton]

theorem Produced.lt (h : Produced a b f ins str k x) : x < 2 ^ k := h.choose_spec.1.buffer_lt

/-- The bits that an encoder has left, which it keeps at the front of the next digit. -/
def Encoding (b : ℕ) (chars : List UInt8) (bits : List ℕ) (ins : List ℕ) (s : EncodeState) : Prop :=
  ∃ k x, Produced 8 b (fun d => chars.getD d 0) ins s.strRet k x ∧ bits[s.mode]? = some k ∧
    (k = 0 ∨ s.left = x <<< (b - k))

theorem left_or (x : ℕ) {d n m w : ℕ} (hw : n + m = w) (hd : d < 2 ^ w) :
    x <<< n ||| d >>> m = (x * 2 ^ w + d) / 2 ^ m := by
  subst hw
  have hlow : d >>> m < 2 ^ n := by
    rw [Nat.shiftRight_eq_div_pow]
    exact Nat.div_lt_of_lt_mul (by rwa [← pow_add, Nat.add_comm m n])
  rw [shiftLeft_or hlow, Nat.shiftRight_eq_div_pow, pow_add, ← Nat.mul_assoc, Nat.add_comm,
    Nat.add_comm _ d, Nat.add_mul_div_right _ _ (Nat.two_pow_pos m)]

theorem and_last (x d : ℕ) {m w : ℕ} (hm : m ≤ w) : d &&& (2 ^ m - 1) = (x * 2 ^ w + d) % 2 ^ m := by
  have hdvd : 2 ^ m ∣ x * 2 ^ w := Dvd.dvd.mul_left (Nat.pow_dvd_pow 2 hm) x
  rw [and_mask, Nat.add_mod, Nat.mod_eq_zero_of_dvd hdvd, Nat.zero_add, Nat.mod_mod]

theorem shiftRight_and (x d : ℕ) {i j m w : ℕ} (hm : i + j = m) (hw : m ≤ w) :
    d >>> i &&& (2 ^ j - 1) = (x * 2 ^ w + d) % 2 ^ m / 2 ^ i := by
  rw [← and_last x d hw, and_mask, and_mask, Nat.shiftRight_eq_div_pow, ← hm, pow_add,
    Nat.mod_mul_right_div_self]

theorem and_last_last (x d : ℕ) {i m w : ℕ} (hi : i ≤ m) (hw : m ≤ w) :
    d &&& (2 ^ i - 1) = (x * 2 ^ w + d) % 2 ^ m % 2 ^ i := by
  rw [Nat.mod_mod_of_dvd _ (Nat.pow_dvd_pow 2 hi)]
  exact and_last x d (hi.trans hw)

theorem encode64Step_spec {s : EncodeState} (h : Encoding 6 pbase64 [0, 2, 4] ins s) {enc : ℕ}
    (henc : enc < 2 ^ 8) : Encoding 6 pbase64 [0, 2, 4] (ins ++ [enc]) (encode64Step s enc) := by
  obtain ⟨strRet, mode, left⟩ := s
  obtain ⟨k, x, hproduced, hmode, hleft⟩ := h
  dsimp only at hproduced hmode hleft
  have hfed := hproduced.feed henc
  have hx := hproduced.lt
  match mode, hmode with
  | 0, hmode =>
    cases hmode
    obtain rfl := Nat.lt_one_iff.mp hx
    have hout := hfed.emit (k := 2) (d := enc >>> 2) (by
      rw [Nat.shiftRight_eq_div_pow, Nat.zero_mul, Nat.zero_add])
    exact ⟨2, _, hout, rfl, .inr (congrArg (· <<< 4) (and_last 0 enc (m := 2) (by decide)))⟩
  | 1, hmode =>
    cases hmode
    obtain rfl := hleft.resolve_left (by decide)
    have hout := hfed.emit (k := 4) (left_or x (n := 4) rfl henc)
    exact ⟨4, _, hout, rfl, .inr (congrArg (· <<< 2) (and_last x enc (m := 4) (by decide)))⟩
  | 2, hmode =>
    cases hmode
    obtain rfl := hleft.resolve_left (by decide)
    have hout := hfed.emit (k := 6) (left_or x (n := 2) rfl henc)
    have hlast := hout.emit (k := 0) (d := enc &&& 63) (by
      rw [pow_zero, Nat.div_one]
      exact and_last x enc (m := 6) (by decide))
    exact ⟨0, _, hlast, rfl, .inl rfl⟩

theorem encode32Step_spec {s : EncodeState} (h : Encoding 5 pbase32 [0, 3, 1, 4, 2] ins s) {enc : ℕ}
    (henc : enc < 2 ^ 8) :
    Encoding 5 pbase32 [0, 3, 1, 4, 2] (ins ++ [enc]) (encode32Step s enc) := by
  obtain ⟨strRet, mode, left⟩ := s
  obtain ⟨k, x, hproduced, hmode, hleft⟩ := h
  dsimp only at hproduced hmode hleft
  have hfed := hproduced.feed henc
  have hx := hproduced.lt
  match mode, hmode with
  | 0, hmode =>
    cases hmode
    obtain rfl := Nat.lt_one_iff.mp hx
    have hout := hfed.emit (k := 3) (d := enc >>> 3) (by
      rw [Nat.shiftRight_eq_div_pow, Nat.zero_mul, Nat.zero_add])
    exact ⟨3, _, hout, rfl, .inr (congrArg (· <<< 2) (and_last 0 enc (m := 3) (by decide)))⟩
  | 1, hmode =>
    cases hmode
    obtain rfl := hleft.resolve_left (by decide)
    have hout := hfed.emit (k := 6) (left_or x (n := 2) rfl henc)
    have hlast := hout.emit (k := 1) (shiftRight_and x enc (j := 5) rfl (by decide))
    exact ⟨1, _, hlast, rfl,
      .inr (congrArg (· <<< 4) (and_last_last x enc (i := 1) (m := 6) (by decide) (by decide)))⟩
  | 2, hmode =>
    cases hmode
    obtain rfl := hleft.resolve_left (by decide)
    have hout := hfed.emit (k := 4) (left_or x (n := 4) rfl henc)
    exact ⟨4, _, hout, rfl, .inr (congrArg (· <<< 1) (and_last x enc (m := 4) (by decide)))⟩
  | 3, hmode =>
    cases hmode
    obtain rfl := hleft.resolve_left (by decide)
    have hout := hfed.emit (k := 7) (left_or x (n := 1) rfl henc)
    have hlast := hout.emit (k := 2) (shiftRight_and x enc (j := 5) rfl (by decide))
    exact ⟨2, _, hlast, rfl,
      .inr (congrArg (· <<< 3) (and_last_last x enc (i := 2) (m := 7) (by decide) (by decide)))⟩
  | 4, hmode =>
    cases hmode
    obtain rfl := hleft.resolve_left (by decide)
    have hout := hfed.emit (k := 5) (left_or x (n := 3) rfl henc)
    have hlast := hout.emit (k := 0) (d := enc &&& 31) (by
      rw [pow_zero, Nat.div_one]
      exact and_last x enc (m := 5) (by decide))
    exact ⟨0, _, hlast, rfl, .inl rfl⟩

/-- The bits that a decoder has left. -/
def Decoding (b : ℕ) (bits : List ℕ) (ins : List ℕ) (s : DecodeState) : Prop :=
  ∃ k x, Produced b 8 UInt8.ofNat ins s.vchRet k x ∧ bits[s.mode]? = some k ∧ (k = 0 ∨ s.left = x)

theorem decode64Step_spec {s : DecodeState} (h : Decoding 6 [0, 6, 4, 2] ins s) {dec : ℕ}
    (hdec : dec < 2 ^ 6) : Decoding 6 [0, 6, 4, 2] (ins ++ [dec]) (decode64Step s dec) := by
  obtain ⟨vchRet, mode, left⟩ := s
  obtain ⟨k, x, hproduced, hmode, hleft⟩ := h
  dsimp only at hproduced hmode hleft
  have hfed := hproduced.feed hdec
  have hx := hproduced.lt
  match mode, hmode with
  | 0, hmode =>
    cases hmode
    obtain rfl := Nat.lt_one_iff.mp hx
    exact ⟨6, _, hfed, rfl, .inr (by rw [Nat.zero_mul, Nat.zero_add]; rfl)⟩
  | 1, hmode =>
    cases hmode
    obtain rfl := hleft.resolve_left (by decide)
    have hout := hfed.emit (k := 4) (left_or left (n := 2) rfl hdec)
    exact ⟨4, _, hout, rfl, .inr (and_last left dec (m := 4) (by decide))⟩
  | 2, hmode =>
    cases hmode
    obtain rfl := hleft.resolve_left (by decide)
    have hout := hfed.emit (k := 2) (left_or left (n := 4) rfl hdec)
    exact ⟨2, _, hout, rfl, .inr (and_last left dec (m := 2) (by decide))⟩
  | 3, hmode =>
    cases hmode
    obtain rfl := hleft.resolve_left (by decide)
    have hout := hfed.emit (k := 0) (d := left <<< 6 ||| dec) (by
      rw [pow_zero, Nat.div_one, shiftLeft_or hdec])
    exact ⟨0, _, hout, rfl, .inl rfl⟩

theorem decode32Step_spec {s : DecodeState} (h : Decoding 5 [0, 5, 2, 7, 4, 1, 6, 3] ins s) {dec : ℕ}
    (hdec : dec < 2 ^ 5) :
    Decoding 5 [0, 5, 2, 7, 4, 1, 6, 3] (ins ++ [dec]) (decode32Step s dec) := by
  obtain ⟨vchRet, mode, left⟩ := s
  obtain ⟨k, x, hproduced, hmode, hleft⟩ := h
  dsimp only at hproduced hmode hleft
  have hfed := hproduced.feed hdec
  have hx := hproduced.lt
  match mode, hmode with
  | 0, hmode =>
    cases hmode
    obtain rfl := Nat.lt_one_iff.mp hx
    exact ⟨5, _, hfed, rfl, .inr (by rw [Nat.zero_mul, Nat.zero_add]; rfl)⟩
  | 1, hmode =>
    cases hmode
    obtain rfl := hleft.resolve_left (by decide)
    have hout := hfed.emit (k := 2) (left_or left (n := 3) rfl hdec)
    exact ⟨2, _, hout, rfl, .inr (and_last left dec (m := 2) (by decide))⟩
  | 2, hmode =>
    cases hmode
    obtain rfl := hleft.resolve_left (by decide)
    exact ⟨7, _, hfed, rfl, .inr (shiftLeft_or hdec)⟩
  | 3, hmode =>
    cases hmode
    obtain rfl := hleft.resolve_left (by decide)
    have hout := hfed.emit (k := 4) (left_or left (n := 1) rfl hdec)
    exact ⟨4, _, hout, rfl, .inr (and_last left dec (m := 4) (by decide))⟩
  | 4, hmode =>
    cases hmode
    obtain rfl := hleft.resolve_left (by decide)
    have hout := hfed.emit (k := 1) (left_or left (n := 4) rfl hdec)
    exact ⟨1, _, hout, rfl, .inr (and_last left dec (m := 1) (by decide))⟩
  | 5, hmode =>
    cases hmode
    obtain rfl := hleft.resolve_left (by decide)
    exact ⟨6, _, hfed, rfl, .inr (shiftLeft_or hdec)⟩
  | 6, hmode =>
    cases hmode
    obtain rfl := hleft.resolve_left (by decide)
    have hout := hfed.emit (k := 3) (left_or left (n := 2) rfl hdec)
    exact ⟨3, _, hout, rfl, .inr (and_last left dec (m := 3) (by decide))⟩
  | 7, hmode =>
    cases hmode
    obtain rfl := hleft.resolve_left (by decide)
    have hout := hfed.emit (k := 0) (d := left <<< 5 ||| dec) (by
      rw [pow_zero, Nat.div_one, shiftLeft_or hdec])
    exact ⟨0, _, hout, rfl, .inl rfl⟩

theorem foldl_spec {σ : Type} {P : List ℕ → σ → Prop} {step : σ → ℕ → σ} {w : ℕ}
    (hstep : ∀ ins s d, P ins s → d < 2 ^ w → P (ins ++ [d]) (step s d)) {ins digits : List ℕ}
    {s : σ}
    (h : P ins s) (hdigits : ∀ d ∈ digits, d < 2 ^ w) :
    P (ins ++ digits) (digits.foldl step s) := by
  induction digits generalizing ins s with
  | nil => rwa [List.append_nil]
  | cons d digits ih =>
    obtain ⟨hd, hrest⟩ := List.forall_mem_cons.mp hdigits
    rw [List.append_cons]
    exact ih (hstep ins s d h hd) hrest

theorem tableLoop_eq (c : Codec) (step : DecodeState → ℕ → DecodeState) (s : DecodeState)
    (str : List UInt8) :
    tableLoop c.table step s str = ((c.accepted str).foldl step s, c.rest str) := by
  induction str generalizing s with
  | nil => rfl
  | cons ch str ih =>
    rw [tableLoop, Codec.accepted, Codec.rest]
    cases htable : c.table ch with
    | none =>
      rw [List.takeWhile_cons_of_neg (by simp [htable]),
        List.dropWhile_cons_of_neg (by simp [htable])]
      rfl
    | some d =>
      rw [List.takeWhile_cons_of_pos (by simp [htable]),
        List.dropWhile_cons_of_pos (by simp [htable]),
        List.filterMap_cons_some htable]
      exact ih (step s d)

theorem encoding_run {chars : List UInt8} {bits : List ℕ} {step : EncodeState → ℕ → EncodeState}
    (hbits : bits[0]? = some 0) (hstep : ∀ ins s d, Encoding b chars bits ins s → d < 2 ^ 8 →
      Encoding b chars bits (ins ++ [d]) (step s d)) (v : List UInt8) :
    Encoding b chars bits (v.map UInt8.toNat) ((v.map UInt8.toNat).foldl step ⟨[], 0, 0⟩) :=
  foldl_spec hstep ⟨0, 0, ⟨[], regrouped_nil 8 b, rfl⟩, hbits, .inl rfl⟩ (toNat_lt_of_mem v)

theorem decoding_run {bits : List ℕ} {step : DecodeState → ℕ → DecodeState}
    (hbits : bits[0]? = some 0) (hstep : ∀ ins s d, Decoding b bits ins s → d < 2 ^ b →
      Decoding b bits (ins ++ [d]) (step s d)) {digits : List ℕ}
    (hdigits : ∀ d ∈ digits, d < 2 ^ b) :
    Decoding b bits digits (digits.foldl step ⟨[], 0, 0⟩) :=
  foldl_spec hstep ⟨0, 0, ⟨[], regrouped_nil b 8, rfl⟩, hbits, .inl rfl⟩ hdigits

theorem Encoding.flushed_eq {chars : List UInt8} {bits : List ℕ} {s : EncodeState}
    (h : Encoding b chars bits ins s)
    (hpos : ∀ k, bits[s.mode]? = some k → k < b ∧ (k = 0 ↔ s.mode = 0)) :
    ∃ out k x, Regrouped 8 b ins out k x ∧ k < b ∧ bits[s.mode]? = some k ∧
      (flushed b out k x).map (fun d => chars.getD d 0) =
        if s.mode = 0 then s.strRet else s.strRet ++ [chars.getD s.left 0] := by
  obtain ⟨k, x, ⟨out, hout, hstr⟩, hmode, hleft⟩ := h
  obtain ⟨hk, hzero⟩ := hpos k hmode
  refine ⟨out, k, x, hout, hk, hmode, ?_⟩
  rw [flushed, hstr]
  split_ifs with hk0 hm0 hm0
  · rfl
  · exact absurd (hzero.mp hk0) hm0
  · exact absurd (hzero.mpr hm0) hk0
  · rw [hleft.resolve_left hk0, Nat.shiftLeft_eq, List.map_append, List.map_singleton]

/-- What a string is reported by. -/
def Codec.Reports (c : Codec) (str : List UInt8) (k x : ℕ) : Prop :=
  k < c.b ∧ x = 0 ∧
    (k = 0 ∨ isPadded c.table (c.padding (c.accepted str).length) (c.rest str) = true)

theorem reports_zero {c : Codec} (hb : 0 < c.b) (hx : x < 2 ^ 0) :
    false = false ↔ c.Reports str 0 x :=
  iff_of_true rfl ⟨hb, Nat.lt_one_iff.mp hx, .inl rfl⟩

theorem not_reports {c : Codec} (hk : c.b ≤ k) : true = false ↔ c.Reports str k x :=
  iff_of_false Bool.true_eq_false_eq_False fun h => absurd h.1 (Nat.not_lt.mpr hk)

theorem reports_padded {c : Codec} {n : ℕ} (hk : k < c.b) (hne : k ≠ 0)
    (hpadding : c.padding (c.accepted str).length = n) :
    (decide (x ≠ 0) || !isPadded c.table n (c.rest str)) = false ↔ c.Reports str k x := by
  rw [Codec.Reports, hpadding, Bool.or_eq_false_iff, decide_eq_false_iff_not, not_not,
    Bool.not_eq_false', and_iff_right hk, or_iff_right hne]

end Machines

def base64 : Codec := ⟨6, 4, fun d => pbase64.getD d 0, decode64Table, encodeBase64, decodeBase64⟩

section Base64

open DigitRegrouping

theorem base64_padding_eq {len n : ℕ} (h : (4 - len % 4) % 4 = n) : base64.padding len = n := h

theorem decode64Table_pbase64 (d : ℕ) (hd : d < 2 ^ 6) :
    decode64Table (pbase64.getD d 0) = some d := by
  have hall : ((List.range 64).all fun d => decode64Table (pbase64.getD d 0) == some d) = true := by
    decide
  simpa using List.all_eq_true.mp hall d (List.mem_range.mpr hd)

theorem pbase64_decode64Table {ch : UInt8} {d : ℕ} (h : decode64Table ch = some d) :
    d < 2 ^ 6 ∧ pbase64.getD d 0 = ch := by
  have hall : ((List.range 256).all fun n => (decode64Table (.ofNat n)).all fun d =>
      d < 64 && pbase64.getD d 0 == .ofNat n) = true := by
    decide +kernel
  have hch := List.all_eq_true.mp hall ch.toNat (List.mem_range.mpr ch.toNat_lt)
  simpa [h] using hch

theorem base64_encode_eq (v : List UInt8) :
    ∃ out k x, Regrouped 8 6 (v.map UInt8.toNat) out k x ∧ k < 6 ∧
      encodeBase64 v = (flushed 6 out k x).map (fun d => pbase64.getD d 0) ++
        List.replicate (base64.padding (flushed 6 out k x).length) 61 := by
  have hrun := encoding_run rfl (fun _ _ _ h hd => encode64Step_spec h hd) v
  rw [encodeBase64]
  generalize (v.map UInt8.toNat).foldl encode64Step ⟨[], 0, 0⟩ = s at hrun
  obtain ⟨strRet, mode, left⟩ := s
  have hbits : ∀ k, [0, 2, 4][mode]? = some k → k < 6 ∧ (k = 0 ↔ mode = 0) := by
    intro k hk
    match mode, hk with
    | 0, hk | 1, hk | 2, hk => cases hk; decide
  obtain ⟨out, k, x, hout, hk, hmode, hflushed⟩ := hrun.flushed_eq hbits
  refine ⟨out, k, x, hout, hk, ?_⟩
  have hlen := hout.length_flushed hk
  rw [hflushed]
  match mode, hmode with
  | 0, hmode =>
    cases hmode
    rw [if_pos rfl] at hlen
    rw [base64_padding_eq (n := 0) (by omega)]
    exact (List.append_nil _).symm
  | 1, hmode =>
    cases hmode
    rw [if_neg (by decide)] at hlen
    rw [base64_padding_eq (n := 2) (by omega)]
    exact List.append_assoc _ [61] [61]
  | 2, hmode =>
    cases hmode
    rw [if_neg (by decide)] at hlen
    rw [base64_padding_eq (n := 1) (by omega)]
    rfl

theorem base64_decode_eq (str : List UInt8) :
    ∃ out k x, Regrouped 6 8 (base64.accepted str) out k x ∧ k < 8 ∧
      (decodeBase64 str).1 = out.map UInt8.ofNat ∧
        ((decodeBase64 str).2 = false ↔ base64.Reports str k x) := by
  have haccepted : ∀ d ∈ base64.accepted str, d < 2 ^ 6 := by
    intro d hd
    obtain ⟨ch, -, hch⟩ := List.mem_filterMap.mp hd
    exact (pbase64_decode64Table hch).1
  have hrun := decoding_run rfl (fun _ _ _ h hd => decode64Step_spec h hd) haccepted
  have hloop : tableLoop decode64Table decode64Step ⟨[], 0, 0⟩ str = _ :=
    tableLoop_eq base64 decode64Step ⟨[], 0, 0⟩ str
  rw [decodeBase64, hloop]
  generalize (base64.accepted str).foldl decode64Step ⟨[], 0, 0⟩ = s at hrun
  obtain ⟨vchRet, mode, left⟩ := s
  obtain ⟨k, x, ⟨out, hout, hstr⟩, hmode, hleft⟩ := hrun
  dsimp only at hstr hmode hleft
  have hlen := hout.length_eq
  match mode, hmode with
  | 0, hmode =>
    cases hmode
    exact ⟨out, 0, x, hout, by decide, hstr, reports_zero (by decide) hout.buffer_lt⟩
  | 1, hmode =>
    cases hmode
    exact ⟨out, 6, x, hout, by decide, hstr, not_reports (by decide)⟩
  | 2, hmode =>
    cases hmode
    obtain rfl := hleft.resolve_left (by decide)
    exact ⟨out, 4, left, hout, by decide, hstr,
      reports_padded (by decide) (by decide) (base64_padding_eq (by omega))⟩
  | 3, hmode =>
    cases hmode
    obtain rfl := hleft.resolve_left (by decide)
    exact ⟨out, 2, left, hout, by decide, hstr,
      reports_padded (by decide) (by decide) (base64_padding_eq (by omega))⟩

theorem base64_spec : base64.Spec where
  pos := by decide
  le := by decide
  table_char := decode64Table_pbase64
  table_lt := fun _ _ h => (pbase64_decode64Table h).1
  table_pad := by decide
  table_end := by decide
  encode_eq := base64_encode_eq
  decode_eq := base64_decode_eq

theorem base64_canonical (ch : UInt8) : base64.canonical ch = ch := by
  rw [Codec.canonical, base64]
  dsimp only
  cases htable : decode64Table ch with
  | none => rfl
  | some d => exact (pbase64_decode64Table htable).2

end Base64

def base32 : Codec := ⟨5, 8, fun d => pbase32.getD d 0, decode32Table, encodeBase32, decodeBase32⟩

def toLower (ch : UInt8) : UInt8 := if 65 ≤ ch && ch ≤ 90 then ch + 32 else ch

section Base32

open DigitRegrouping

theorem base32_padding_eq {len n : ℕ} (h : (8 - len % 8) % 8 = n) : base32.padding len = n := h

theorem decode32Table_pbase32 (d : ℕ) (hd : d < 2 ^ 5) :
    decode32Table (pbase32.getD d 0) = some d := by
  have hall : ((List.range 32).all fun d => decode32Table (pbase32.getD d 0) == some d) = true := by
    decide
  simpa using List.all_eq_true.mp hall d (List.mem_range.mpr hd)

theorem pbase32_decode32Table {ch : UInt8} {d : ℕ} (h : decode32Table ch = some d) :
    d < 2 ^ 5 ∧ pbase32.getD d 0 = toLower ch := by
  have hall : ((List.range 256).all fun n => (decode32Table (.ofNat n)).all fun d =>
      d < 32 && pbase32.getD d 0 == toLower (.ofNat n)) = true := by
    decide +kernel
  have hch := List.all_eq_true.mp hall ch.toNat (List.mem_range.mpr ch.toNat_lt)
  simpa [h] using hch

theorem base32_encode_eq (v : List UInt8) :
    ∃ out k x, Regrouped 8 5 (v.map UInt8.toNat) out k x ∧ k < 5 ∧
      encodeBase32 v = (flushed 5 out k x).map (fun d => pbase32.getD d 0) ++
        List.replicate (base32.padding (flushed 5 out k x).length) 61 := by
  have hrun := encoding_run rfl (fun _ _ _ h hd => encode32Step_spec h hd) v
  rw [encodeBase32]
  generalize (v.map UInt8.toNat).foldl encode32Step ⟨[], 0, 0⟩ = s at hrun
  obtain ⟨strRet, mode, left⟩ := s
  have hbits : ∀ k, [0, 3, 1, 4, 2][mode]? = some k → k < 5 ∧ (k = 0 ↔ mode = 0) := by
    intro k hk
    match mode, hk with
    | 0, hk | 1, hk | 2, hk | 3, hk | 4, hk => cases hk; decide
  obtain ⟨out, k, x, hout, hk, hmode, hflushed⟩ := hrun.flushed_eq hbits
  refine ⟨out, k, x, hout, hk, ?_⟩
  have hlen := hout.length_flushed hk
  rw [hflushed]
  match mode, hmode with
  | 0, hmode =>
    cases hmode
    rw [if_pos rfl] at hlen
    rw [base32_padding_eq (n := 0) (by omega)]
    exact (List.append_nil _).symm
  | 1, hmode =>
    cases hmode
    rw [if_neg (by decide)] at hlen
    rw [base32_padding_eq (n := 6) (by omega)]
    rfl
  | 2, hmode =>
    cases hmode
    rw [if_neg (by decide)] at hlen
    rw [base32_padding_eq (n := 4) (by omega)]
    rfl
  | 3, hmode =>
    cases hmode
    rw [if_neg (by decide)] at hlen
    rw [base32_padding_eq (n := 3) (by omega)]
    rfl
  | 4, hmode =>
    cases hmode
    rw [if_neg (by decide)] at hlen
    rw [base32_padding_eq (n := 1) (by omega)]
    rfl

theorem base32_decode_eq (str : List UInt8) :
    ∃ out k x, Regrouped 5 8 (base32.accepted str) out k x ∧ k < 8 ∧
      (decodeBase32 str).1 = out.map UInt8.ofNat ∧
        ((decodeBase32 str).2 = false ↔ base32.Reports str k x) := by
  have haccepted : ∀ d ∈ base32.accepted str, d < 2 ^ 5 := by
    intro d hd
    obtain ⟨ch, -, hch⟩ := List.mem_filterMap.mp hd
    exact (pbase32_decode32Table hch).1
  have hrun := decoding_run rfl (fun _ _ _ h hd => decode32Step_spec h hd) haccepted
  have hloop : tableLoop decode32Table decode32Step ⟨[], 0, 0⟩ str = _ :=
    tableLoop_eq base32 decode32Step ⟨[], 0, 0⟩ str
  rw [decodeBase32, hloop]
  generalize (base32.accepted str).foldl decode32Step ⟨[], 0, 0⟩ = s at hrun
  obtain ⟨vchRet, mode, left⟩ := s
  obtain ⟨k, x, ⟨out, hout, hstr⟩, hmode, hleft⟩ := hrun
  dsimp only at hstr hmode hleft
  have hlen := hout.length_eq
  match mode, hmode with
  | 0, hmode =>
    cases hmode
    exact ⟨out, 0, x, hout, by decide, hstr, reports_zero (by decide) hout.buffer_lt⟩
  | 1, hmode =>
    cases hmode
    exact ⟨out, 5, x, hout, by decide, hstr, not_reports (by decide)⟩
  | 2, hmode =>
    cases hmode
    obtain rfl := hleft.resolve_left (by decide)
    exact ⟨out, 2, left, hout, by decide, hstr,
      reports_padded (by decide) (by decide) (base32_padding_eq (by omega))⟩
  | 3, hmode =>
    cases hmode
    exact ⟨out, 7, x, hout, by decide, hstr, not_reports (by decide)⟩
  | 4, hmode =>
    cases hmode
    obtain rfl := hleft.resolve_left (by decide)
    exact ⟨out, 4, left, hout, by decide, hstr,
      reports_padded (by decide) (by decide) (base32_padding_eq (by omega))⟩
  | 5, hmode =>
    cases hmode
    obtain rfl := hleft.resolve_left (by decide)
    exact ⟨out, 1, left, hout, by decide, hstr,
      reports_padded (by decide) (by decide) (base32_padding_eq (by omega))⟩
  | 6, hmode =>
    cases hmode
    exact ⟨out, 6, x, hout, by decide, hstr, not_reports (by decide)⟩
  | 7, hmode =>
    cases hmode
    obtain rfl := hleft.resolve_left (by decide)
    exact ⟨out, 3, left, hout, by decide, hstr,
      reports_padded (by decide) (by decide) (base32_padding_eq (by omega))⟩

theorem base32_spec : base32.Spec where
  pos := by decide
  le := by decide
  table_char := decode32Table_pbase32
  table_lt := fun _ _ h => (pbase32_decode32Table h).1
  table_pad := by decide
  table_end := by decide
  encode_eq := base32_encode_eq
  decode_eq := base32_decode_eq

theorem base32_canonical (ch : UInt8) : base32.canonical ch = toLower ch := by
  rw [Codec.canonical, base32]
  dsimp only
  cases htable : decode32Table ch with
  | none =>
    have hupper : (65 ≤ ch && ch ≤ 90) = false := by
      by_contra hupper
      rw [decode32Table, if_pos (Bool.eq_true_of_not_eq_false hupper)] at htable
      cases htable
    rw [toLower, if_neg (Bool.not_eq_true _ ▸ hupper)]
    rfl
  | some d => exact (pbase32_decode32Table htable).2

end Base32

/-- Both encodings are read back as what was written, without a complaint. A string that is accepted
without a complaint is the encoding of what was read from it, for base32 in lower case, exactly when
its characters of the alphabet are followed by the padding of the last group and by nothing else. -/
theorem base64_valid_iff (v str : List UInt8) :
    decodeBase64 (encodeBase64 v) = (v, false) ∧ decodeBase32 (encodeBase32 v) = (v, false) ∧
      ((decodeBase64 str).2 = false →
        (encodeBase64 (decodeBase64 str).1 = str ↔
          base64.rest str = List.replicate (base64.padding (base64.accepted str).length) 61)) ∧
      ((decodeBase32 str).2 = false →
        (encodeBase32 (decodeBase32 str).1 = str.map toLower ↔
          base32.rest str = List.replicate (base32.padding (base32.accepted str).length) 61)) := by
  refine ⟨base64_spec.decode_encode v, base32_spec.decode_encode v, fun hvalid => ?_,
    fun hvalid => ?_⟩
  · have hiff := base64_spec.valid_iff hvalid
    rwa [funext base64_canonical, List.map_id'] at hiff
  · have hiff := base32_spec.valid_iff hvalid
    rwa [funext base32_canonical] at hiff

theorem base64_valid_iff_foob :
    encodeBase64 (decodeBase64 (bytesOf "Zm9vYg==")).1 = bytesOf "Zm9vYg==" ∧
      encodeBase32 (decodeBase32 (bytesOf "MZXW6YQ=")).1 = bytesOf "mzxw6yq=" :=
  ⟨((base64_valid_iff [] (bytesOf "Zm9vYg==")).2.2.1 (by decide)).mpr (by decide),
    ((base64_valid_iff [] (bytesOf "MZXW6YQ=")).2.2.2 (by decide)).mpr (by decide)⟩

/-- The check in mode 0 asks nothing of what follows. -/
theorem base64_trailing :
    (decodeBase64 (bytesOf "QUJD!!")).2 = false ∧
      encodeBase64 (decodeBase64 (bytesOf "QUJD!!")).1 ≠ bytesOf "QUJD!!" := by
  decide

end Beancash
