import Beancash.ByteStream

namespace LevelDB

open ByteStream

def encodeVarint32 (v : UInt32) : List UInt8 :=
  if v < 0x80 then [v.toUInt8]
  else if v < 0x4000 then [(v ||| 128).toUInt8, (v >>> 7).toUInt8]
  else if v < 0x200000 then
    [(v ||| 128).toUInt8, ((v >>> 7) ||| 128).toUInt8, (v >>> 14).toUInt8]
  else if v < 0x10000000 then
    [(v ||| 128).toUInt8, ((v >>> 7) ||| 128).toUInt8, ((v >>> 14) ||| 128).toUInt8,
      (v >>> 21).toUInt8]
  else
    [(v ||| 128).toUInt8, ((v >>> 7) ||| 128).toUInt8, ((v >>> 14) ||| 128).toUInt8,
      ((v >>> 21) ||| 128).toUInt8, (v >>> 28).toUInt8]

/-- The loop of `GetVarint32PtrFallback`, with so many bytes to go. -/
def getVarint32Fallback : ℕ → UInt32 → UInt32 → Read UInt32
  | 0, _, _ => fun _ => none
  | n + 1, shift, result => do
    let byte := UInt32.ofNat (← number 1)
    if byte &&& 128 ≠ 0 then
      getVarint32Fallback n (shift + 7) (result ||| ((byte &&& 127) <<< shift))
    else pure (result ||| (byte <<< shift))

/-- `GetVarint32Ptr` -/
def getVarint32 : Read UInt32 := fun input =>
  match input with
  | result :: rest =>
    if result &&& 128 = 0 then some (result.toUInt32, rest) else getVarint32Fallback 5 0 0 input
  | [] => getVarint32Fallback 5 0 0 input

/-- `PutLengthPrefixedSlice` -/
def lengthPrefixed (value : List UInt8) : List UInt8 := encodeVarint32 (.ofNat value.length) ++ value

def getLengthPrefixedSlice : Read (List UInt8) := do
  let len ← getVarint32
  take len.toNat

/-- A number in as many bytes as it needs. -/
def varint (x : ℕ) : List UInt8 :=
  if x < 128 then [.ofNat x] else .ofNat (x % 128 + 128) :: varint (x / 128)

theorem varint_last {x : ℕ} (h : x < 128) : varint x = [.ofNat x] := by rw [varint, if_pos h]

theorem varint_more {x : ℕ} (h : 128 ≤ x) : varint x = .ofNat (x % 128 + 128) :: varint (x / 128) := by
  rw [varint, if_neg (Nat.not_lt.mpr h)]

theorem toUInt8_more (v : UInt32) : (v ||| 128).toUInt8 = .ofNat (v.toNat % 128 + 128) := by
  have hbyte : ∀ r < 256, r ||| 128 = r % 128 + 128 := by decide +kernel
  apply UInt8.toNat_inj.mp
  rw [UInt32.toNat_toUInt8, UInt32.toNat_or, UInt8.toNat_ofNat', Nat.or_mod_two_pow]
  change v.toNat % 256 ||| 128 = _
  rw [hbyte _ (Nat.mod_lt _ (by decide))]
  omega

theorem toUInt8_eq (v : UInt32) : v.toUInt8 = .ofNat v.toNat := rfl

theorem encodeVarint32_eq (v : UInt32) : encodeVarint32 v = varint v.toNat := by
  have hv := v.toNat_lt
  have h7 : (v >>> 7).toNat = v.toNat / 128 := Nat.shiftRight_eq_div_pow v.toNat 7
  have h14 : (v >>> 14).toNat = v.toNat / 128 / 128 := by
    rw [Nat.div_div_eq_div_mul]
    exact Nat.shiftRight_eq_div_pow v.toNat 14
  have h21 : (v >>> 21).toNat = v.toNat / 128 / 128 / 128 := by
    rw [Nat.div_div_eq_div_mul, Nat.div_div_eq_div_mul]
    exact Nat.shiftRight_eq_div_pow v.toNat 21
  have h28 : (v >>> 28).toNat = v.toNat / 128 / 128 / 128 / 128 := by
    rw [Nat.div_div_eq_div_mul, Nat.div_div_eq_div_mul, Nat.div_div_eq_div_mul]
    exact Nat.shiftRight_eq_div_pow v.toNat 28
  rw [encodeVarint32]
  simp only [UInt32.lt_iff_toNat_lt, toUInt8_more]
  simp only [toUInt8_eq, h7, h14, h21, h28]
  split_ifs with h₁ h₂ h₃ h₄
  · exact (varint_last h₁).symm
  · have h₂' : v.toNat < 0x4000 := h₂
    rw [varint_more (Nat.not_lt.mp h₁), varint_last (by omega)]
  · have h₂' : ¬v.toNat < 0x4000 := h₂
    have h₃' : v.toNat < 0x200000 := h₃
    rw [varint_more (Nat.not_lt.mp h₁), varint_more (by omega), varint_last (by omega)]
  · have h₃' : ¬v.toNat < 0x200000 := h₃
    have h₄' : v.toNat < 0x10000000 := h₄
    rw [varint_more (Nat.not_lt.mp h₁), varint_more (by omega), varint_more (by omega),
      varint_last (by omega)]
  · have h₄' : ¬v.toNat < 0x10000000 := h₄
    rw [varint_more (Nat.not_lt.mp h₁), varint_more (by omega), varint_more (by omega),
      varint_more (by omega), varint_last (by omega)]

theorem or_shiftLeft_toNat {result b shift : UInt32} (hshift : shift.toNat < 32)
    (hresult : result.toNat < 2 ^ shift.toNat) (hfits : b.toNat * 2 ^ shift.toNat < 2 ^ 32) :
    (result ||| (b <<< shift)).toNat = result.toNat + b.toNat * 2 ^ shift.toNat := by
  rw [UInt32.toNat_or, UInt32.toNat_shiftLeft, Nat.mod_eq_of_lt hshift, Nat.shiftLeft_eq,
    Nat.mod_eq_of_lt hfits, Nat.or_comm, Nat.mul_comm, ← Nat.two_pow_add_eq_or_of_lt hresult,
    Nat.add_comm]

theorem and_masks : ∀ b < 128, UInt32.ofNat b &&& 128 = 0 ∧ UInt32.ofNat (b + 128) &&& 128 ≠ 0 ∧
    UInt32.ofNat (b + 128) &&& 127 = .ofNat b := by
  decide +kernel

theorem toNat_ofNat_of_lt {x : ℕ} (h : x < 2 ^ 32) : (UInt32.ofNat x).toNat = x := by
  rw [UInt32.toNat_ofNat']
  exact Nat.mod_eq_of_lt h

theorem reads_byte {b : ℕ} (h : b < 256) : Reads (number 1) [.ofNat b] b :=
  reads_number (n := 1) h

theorem reads_last (n : ℕ) {shift result : UInt32} {x : ℕ} (hx : x < 128)
    (hshift : shift.toNat < 32) (hresult : result.toNat < 2 ^ shift.toNat)
    (hfits : result.toNat + x * 2 ^ shift.toNat < 2 ^ 32) :
    Reads (getVarint32Fallback (n + 1) shift result) [.ofNat x]
      (.ofNat (result.toNat + x * 2 ^ shift.toNat)) := by
  have hor : (result ||| (UInt32.ofNat x <<< shift)).toNat = result.toNat + x * 2 ^ shift.toNat := by
    rw [or_shiftLeft_toNat hshift hresult (by rw [toNat_ofNat_of_lt (by omega)]; omega),
      toNat_ofNat_of_lt (by omega)]
  rw [← hor, UInt32.ofNat_toNat]
  refine (reads_byte (by omega)).bind_nil ?_
  change Reads (if UInt32.ofNat x &&& 128 ≠ 0 then _ else _) _ _
  rw [(and_masks x hx).1, if_neg (by decide)]
  exact .pure _

theorem reads_getVarint32Fallback {n : ℕ} {shift result : UInt32} {x : ℕ} (hx : x < 128 ^ (n + 1))
    (hshift : shift.toNat + 7 * n < 32) (hresult : result.toNat < 2 ^ shift.toNat)
    (hfits : result.toNat + x * 2 ^ shift.toNat < 2 ^ 32) :
    Reads (getVarint32Fallback (n + 1) shift result) (varint x)
      (.ofNat (result.toNat + x * 2 ^ shift.toNat)) := by
  induction n generalizing shift result x with
  | zero =>
    rw [varint_last hx]
    exact reads_last 0 hx hshift hresult hfits
  | succ n ih =>
    rcases Nat.lt_or_ge x 128 with hlt | hge
    · rw [varint_last hlt]
      exact reads_last (n + 1) hlt (by omega) hresult hfits
    · have hb : x % 128 < 128 := Nat.mod_lt _ (by decide)
      obtain ⟨-, hmore, hbits⟩ := and_masks (x % 128) hb
      have hpos : 0 < 2 ^ shift.toNat := Nat.two_pow_pos _
      have hshift' : (shift + 7).toNat = shift.toNat + 7 := by
        rw [UInt32.toNat_add]
        exact Nat.mod_eq_of_lt (by change shift.toNat + 7 < 2 ^ 32; omega)
      have hpow : 2 ^ (shift.toNat + 7) = 128 * 2 ^ shift.toNat := by
        rw [Nat.pow_add, Nat.mul_comm]
      have hsplit : x * 2 ^ shift.toNat =
          x % 128 * 2 ^ shift.toNat + x / 128 * 2 ^ (shift.toNat + 7) := by
        rw [hpow, ← Nat.mul_assoc, ← Nat.add_mul, Nat.mul_comm (x / 128), Nat.mod_add_div]
      have hlow : x % 128 * 2 ^ shift.toNat ≤ 127 * 2 ^ shift.toNat :=
        Nat.mul_le_mul_right _ (Nat.le_of_lt_succ hb)
      have hor : (result ||| (UInt32.ofNat (x % 128) <<< shift)).toNat =
          result.toNat + x % 128 * 2 ^ shift.toNat := by
        rw [or_shiftLeft_toNat (by omega) hresult (by rw [toNat_ofNat_of_lt (by omega)]; omega),
          toNat_ofNat_of_lt (by omega)]
      have hdiv : x / 128 < 128 ^ (n + 1) :=
        Nat.div_lt_of_lt_mul (by rwa [Nat.mul_comm, ← Nat.pow_succ])
      have hrest : Reads (getVarint32Fallback (n + 1) (shift + 7)
          (result ||| (UInt32.ofNat (x % 128) <<< shift))) (varint (x / 128))
          (.ofNat ((result ||| (UInt32.ofNat (x % 128) <<< shift)).toNat +
            x / 128 * 2 ^ (shift + 7).toNat)) :=
        ih hdiv (by omega) (by rw [hor, hshift', hpow]; omega) (by rw [hor, hshift']; omega)
      rw [hor, hshift', Nat.add_assoc, ← hsplit] at hrest
      rw [varint_more hge]
      refine (reads_byte (by omega)).bind ?_
      change Reads (if UInt32.ofNat (x % 128 + 128) &&& 128 ≠ 0 then _ else _) _ _
      rw [if_pos hmore, hbits]
      exact hrest

theorem reads_getVarint32 (v : UInt32) : Reads getVarint32 (encodeVarint32 v) v := by
  have hv := v.toNat_lt
  have hzero : (0 : UInt32).toNat + v.toNat * 2 ^ (0 : UInt32).toNat = v.toNat := by
    change 0 + v.toNat * 2 ^ 0 = v.toNat
    omega
  have hread : Reads (getVarint32Fallback 5 0 0) (varint v.toNat)
      (.ofNat ((0 : UInt32).toNat + v.toNat * 2 ^ (0 : UInt32).toNat)) :=
    reads_getVarint32Fallback (by omega) (by decide) (by decide) (by rw [hzero]; exact hv)
  rw [hzero, UInt32.ofNat_toNat] at hread
  have hbyte : ∀ b < 128, UInt8.ofNat b &&& 128 = 0 ∧ (UInt8.ofNat b).toUInt32 = .ofNat b ∧
      UInt8.ofNat (b + 128) &&& 128 ≠ 0 := by decide +kernel
  rw [encodeVarint32_eq]
  intro rest
  rcases Nat.lt_or_ge v.toNat 128 with hlt | hge
  · obtain ⟨hlast, hvalue, -⟩ := hbyte v.toNat hlt
    rw [varint_last hlt]
    change (if UInt8.ofNat v.toNat &&& 128 = 0 then _ else _) = _
    rw [if_pos hlast, hvalue, UInt32.ofNat_toNat]
    rfl
  · obtain ⟨-, -, hmore⟩ := hbyte (v.toNat % 128) (Nat.mod_lt _ (by decide))
    have hrest := hread rest
    rw [varint_more hge] at hrest ⊢
    change (if UInt8.ofNat (v.toNat % 128 + 128) &&& 128 = 0 then _ else _) = _
    rw [if_neg hmore]
    exact hrest

theorem reads_getLengthPrefixedSlice {value : List UInt8} (h : value.length < 2 ^ 32) :
    Reads getLengthPrefixedSlice (lengthPrefixed value) value := by
  refine (reads_getVarint32 _).bind ?_
  rw [toNat_ofNat_of_lt h]
  exact .take value

end LevelDB
