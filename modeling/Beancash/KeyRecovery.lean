import Beancash.BlockTrust
import Beancash.PubKey
import Beancash.TorsionGroup

namespace Beancash

open ByteStream

/-- The order of secp256k1's generator, one more than `vchMaxModOrder`. -/
def order : ℕ := 0xFFFFFFFFFFFFFFFFFFFFFFFFFFFFFFFEBAAEDCE6AF48A03BBFD25E8CD0364141

/-- The degree of its field. -/
def degree : ℕ := 256

/-- The points of the curve. `ECDSA_do_sign` gets the nonce that it draws; `x` and `odd` are the
coordinate and the parity of the other one, for the documentation only. -/
structure EcFunctions (Point : Type) where
  generator : Point
  field : ℕ
  x : Point → ℕ
  odd : Point → Bool
  EC_POINT_set_compressed_coordinates_GFp : (x : ℕ) → (y_bit : Bool) → Option Point
  i2o_ECPublicKey : (compressed : Bool) → Point → List UInt8
  ECDSA_do_sign : (nonce : ℕ) → (dgst : List UInt8) → (priv_key : ℕ) → Option (ℕ × ℕ)

def BN_bin2bn (s : List UInt8) : ℕ := ofLittleEndian s.reverse

/-- The bytes of a number without leading zeros. -/
def BN_bn2bin (a : ℕ) : List UInt8 := (littleEndian ((a.size + 7) / 8) a).reverse

def BN_mod_sub (a b m : ℕ) : ℕ := ((a - b : ℤ) % m).toNat

def BN_mod_inverse (a n : ℕ) : Option ℕ :=
  if a.Coprime n then some (a.gcdA n % n).toNat else none

section

variable {Point : Type} [AddCommGroup Point]

/-- The documentation, for the group of secp256k1. -/
structure EcFunctions.Documented (ec : EcFunctions Point) : Prop where
  order_nsmul : ∀ P : Point, order • P = 0
  generator : ∀ d, 0 < d → d < order → d • ec.generator ≠ 0
  field_le : ec.field ≤ 2 * order
  field_lt : ec.field < 2 ^ 256
  x_lt : ∀ P, P ≠ 0 → ec.x P < ec.field
  compressed : ∀ x < ec.field, ∀ y_bit P,
    ec.EC_POINT_set_compressed_coordinates_GFp x y_bit = some P ↔
      P ≠ 0 ∧ ec.x P = x ∧ ec.odd P = y_bit
  infinity : ∀ compressed, ec.i2o_ECPublicKey compressed 0 = [0]
  length_octets : ∀ compressed P, P ≠ 0 →
    (ec.i2o_ECPublicKey compressed P).length = if compressed then 33 else 65
  header_octets : ∀ compressed P, P ≠ 0 →
    (ec.i2o_ECPublicKey compressed P).headD 0 =
      if compressed then (if ec.odd P then 3 else 2) else 4
  octets_inj : ∀ P Q, ec.i2o_ECPublicKey true P = ec.i2o_ECPublicKey true Q → P = Q
  /-- The parts of a signature can be inverted modulo the order. -/
  do_sign : ∀ nonce dgst priv_key r s, ec.ECDSA_do_sign nonce dgst priv_key = some (r, s) →
    nonce • ec.generator ≠ 0 ∧ r = ec.x (nonce • ec.generator) % order ∧ s < order ∧
      r.Coprime order ∧ s.Coprime order ∧
      s * nonce ≡ BN_bin2bn dgst + r * priv_key [MOD order]

end

namespace PubKey

/-- A key that was not set: its memory has any bytes after the first, which are never compared. -/
def unset : PubKey := blank 0xFF

def set (k : PubKey) (data : List UInt8) : PubKey :=
  let len := getLen (data.headD 0)
  if len ≠ 0 ∧ len = data.length then k.overwrite data else k.invalidate

def isCompressed (k : PubKey) : Bool := k.size = 33

end PubKey

namespace EcFunctions

variable {Point : Type} [AddCommGroup Point] (ec : EcFunctions Point)

/-- `ECDSA_SIG_recover_key_GFp`; an error is what is returned in place of one. -/
def recoverKey [DecidableEq Point] (r s : ℕ) (msg : List UInt8) (recid : ℕ) (check : Bool) : Except ℤ Point :=
  let x := order * (recid / 2) + r
  if ec.field ≤ x then .error 0
  else
    match ec.EC_POINT_set_compressed_coordinates_GFp x (recid % 2 == 1) with
    | none => .error 0
    | some R =>
      if check && order • R != 0 then .error 0
      else
        let e := BN_bin2bn msg
        let e := if degree < 8 * msg.length then e >>> (8 - (degree &&& 7)) else e
        let e := BN_mod_sub 0 e order
        match BN_mod_inverse r order with
        | none => .error (-1)
        | some rr =>
          let sor := s * rr % order
          let eor := e * rr % order
          .ok (eor • ec.generator + sor • R)

/-- `GetPubKey` into a key that may hold another one. -/
def getPubKey (pkey : Point) (pubkey : PubKey) (fCompressed : Bool) : PubKey :=
  pubkey.set (ec.i2o_ECPublicKey fCompressed pkey)

end EcFunctions

theorem BN_bin2bn_littleEndian {n a : ℕ} (h : a < 256 ^ n) :
    BN_bin2bn (littleEndian n a).reverse = a := by
  rw [BN_bin2bn, List.reverse_reverse, ofLittleEndian_littleEndian h]

theorem BN_mod_sub_zero (e : ℕ) {m : ℕ} (hm : 0 < m) : BN_mod_sub 0 e m + e ≡ 0 [MOD m] := by
  have hnonneg : 0 ≤ ((0 : ℕ) - e : ℤ) % m := Int.emod_nonneg _ (by omega)
  rw [← Int.natCast_modEq_iff, BN_mod_sub, Nat.cast_add, Int.toNat_of_nonneg hnonneg]
  calc ((0 : ℕ) - e : ℤ) % m + e ≡ ((0 : ℕ) - e : ℤ) + e [ZMOD m] :=
        Int.ModEq.add_right _ (Int.mod_modEq _ _)
    _ = (0 : ℕ) := by omega

theorem BN_mod_inverse_eq_some {a n : ℕ} (hn : 0 < n) (h : a.Coprime n) :
    ∃ i, BN_mod_inverse a n = some i ∧ a * i ≡ 1 [MOD n] ∧ i.Coprime n := by
  have hinv : a * (a.gcdA n % n).toNat ≡ 1 [MOD n] := by
    have hbezout := Nat.gcd_eq_gcd_ab a n
    rw [h] at hbezout
    rw [← Int.natCast_modEq_iff, Nat.cast_mul, Int.toNat_of_nonneg (Int.emod_nonneg _ (by omega))]
    calc (a : ℤ) * (a.gcdA n % n) ≡ a * a.gcdA n [ZMOD n] := (Int.mod_modEq _ _).mul_left _
      _ ≡ a * a.gcdA n + n * a.gcdB n [ZMOD n] := by
        rw [Int.modEq_iff_dvd, add_sub_cancel_left]
        exact dvd_mul_right _ _
      _ = (1 : ℕ) := hbezout.symm
  refine ⟨_, if_pos h, hinv, ?_⟩
  exact Nat.coprime_of_mul_modEq_one a (by rwa [Nat.mul_comm])

theorem order_pos : 0 < order := by decide

namespace PubKey

variable {k k' : PubKey} {data data' : List UInt8}

theorem set_eq (h : getLen (data.headD 0) = data.length) (hne : data ≠ []) :
    k.set data = k.overwrite data := by
  have hpos := (List.length_pos_of_ne_nil hne).ne'
  exact if_pos ⟨h ▸ hpos, h⟩

theorem header_set (h : getLen (data.headD 0) = data.length) (hne : data ≠ []) :
    (k.set data).header = data.headD 0 := by
  rw [set_eq h hne, header_overwrite (h ▸ getLen_le _) hne]

theorem size_set (h : getLen (data.headD 0) = data.length) (hne : data ≠ []) :
    (k.set data).size = data.length := by
  rw [size, header_set h hne, h]

theorem take_set (h : getLen (data.headD 0) = data.length) (hne : data ≠ []) :
    (k.set data).vch.take (k.set data).size = data := by
  rw [size_set h hne, set_eq h hne, vch_overwrite (h ▸ getLen_le _), List.take_left]

theorem set_beq_set (h : getLen (data.headD 0) = data.length) (hne : data ≠ [])
    (h' : getLen (data'.headD 0) = data'.length) (hne' : data' ≠ []) :
    (k.set data == k'.set data') = true ↔ data = data' := by
  rw [beq_iff, take_set h hne, header_set h hne, header_set h' hne']
  constructor
  · rintro ⟨hhead, htake⟩
    have hlen : data.length = data'.length := by rw [← h, hhead, h']
    have hsize : (k.set data).size = (k'.set data').size := by
      rw [size_set h hne, size_set h' hne', hlen]
    rw [htake, hsize, take_set h' hne']
  · rintro rfl
    have hsize : (k.set data).size = (k'.set data).size := by rw [size_set h hne, size_set h hne]
    exact ⟨rfl, by rw [hsize, take_set h hne]⟩

end PubKey

namespace EcFunctions

variable {Point : Type} (ec : EcFunctions Point) (R : Point)

/-- The number in the header for the point of a nonce: which of the numbers with its remainder its
coordinate is, and the parity of the other one. -/
def recid : ℕ := 2 * (ec.x R / order) + (ec.odd R).toNat

theorem recid_div_two : ec.recid R / 2 = ec.x R / order := by
  have hodd := (ec.odd R).toNat_le
  rw [recid]
  omega

theorem recid_mod_two : (ec.recid R % 2 == 1) = ec.odd R := by
  rw [recid]
  cases ec.odd R <;> simp

end EcFunctions

section

variable {Point : Type} [AddCommGroup Point] {ec : EcFunctions Point} (hec : ec.Documented)
include hec

namespace EcFunctions

theorem getLen_octets {Q : Point} (hQ : Q ≠ 0) (fCompressed : Bool) :
    PubKey.getLen ((ec.i2o_ECPublicKey fCompressed Q).headD 0) =
      (ec.i2o_ECPublicKey fCompressed Q).length := by
  rw [hec.header_octets fCompressed Q hQ, hec.length_octets fCompressed Q hQ]
  cases fCompressed with
  | false => rfl
  | true => cases ec.odd Q <;> rfl

theorem octets_ne_nil {Q : Point} (hQ : Q ≠ 0) (fCompressed : Bool) :
    ec.i2o_ECPublicKey fCompressed Q ≠ [] := by
  apply List.ne_nil_of_length_pos
  rw [hec.length_octets fCompressed Q hQ]
  split <;> decide

theorem isValid_getPubKey {Q : Point} (hQ : Q ≠ 0) (fCompressed : Bool) (k : PubKey) :
    (ec.getPubKey Q k fCompressed).isValid = true := by
  have hlen := List.length_pos_of_ne_nil (octets_ne_nil hec hQ fCompressed)
  rw [PubKey.isValid, getPubKey,
    PubKey.size_set (getLen_octets hec hQ fCompressed) (octets_ne_nil hec hQ fCompressed)]
  exact decide_eq_true hlen

theorem isCompressed_getPubKey {Q : Point} (hQ : Q ≠ 0) (fCompressed : Bool) (k : PubKey) :
    (ec.getPubKey Q k fCompressed).isCompressed = fCompressed := by
  rw [PubKey.isCompressed, getPubKey,
    PubKey.size_set (getLen_octets hec hQ fCompressed) (octets_ne_nil hec hQ fCompressed),
    hec.length_octets fCompressed Q hQ]
  cases fCompressed <;> rfl

theorem getPubKey_beq_self {Q : Point} (hQ : Q ≠ 0) (fCompressed : Bool) (k k' : PubKey) :
    (ec.getPubKey Q k fCompressed == ec.getPubKey Q k' fCompressed) = true :=
  (PubKey.set_beq_set (getLen_octets hec hQ _) (octets_ne_nil hec hQ _) (getLen_octets hec hQ _)
    (octets_ne_nil hec hQ _)).mpr rfl

theorem getPubKey_beq_iff {P Q : Point} (hQ : Q ≠ 0) (k k' : PubKey) :
    (ec.getPubKey P k true == ec.getPubKey Q k' true) = true ↔ P = Q := by
  by_cases hP : P = 0
  · refine iff_of_false ?_ fun h => hQ (h ▸ hP)
    intro h
    have hhead := ((PubKey.beq_iff _ _).mp h).1
    have hinfinity : ec.getPubKey P k true = k.invalidate := by
      rw [getPubKey, hP, hec.infinity]
      rfl
    rw [hinfinity, getPubKey, PubKey.header_set (getLen_octets hec hQ _) (octets_ne_nil hec hQ _),
      hec.header_octets true Q hQ, PubKey.invalidate,
      PubKey.header_overwrite (by decide) (by decide)] at hhead
    split_ifs at hhead <;> exact absurd hhead (by decide)
  · rw [getPubKey, getPubKey, PubKey.set_beq_set (getLen_octets hec hP _) (octets_ne_nil hec hP _)
      (getLen_octets hec hQ _) (octets_ne_nil hec hQ _)]
    exact ⟨hec.octets_inj P Q, congrArg _⟩

theorem recid_lt {R : Point} (hR : R ≠ 0) : ec.recid R < 4 := by
  have hx := hec.x_lt R hR
  have hfield := hec.field_le
  have hdiv : ec.x R / order < 2 := (Nat.div_lt_iff_lt_mul order_pos).mpr (hx.trans_le hfield)
  have hodd := (ec.odd R).toNat_le
  rw [recid]
  omega

variable [DecidableEq Point]

/-- What `ECDSA_SIG_recover_key_GFp` computes for 32 bytes. All points have the order of the group,
so that its check makes no difference. -/
theorem recoverKey_eq_ok_iff {r s recid : ℕ} {msg : List UInt8} (hmsg : msg.length = 32)
    {check : Bool} {Q : Point} :
    ec.recoverKey r s msg recid check = .ok Q ↔
      ∃ R rr, order * (recid / 2) + r < ec.field ∧ R ≠ 0 ∧ ec.x R = order * (recid / 2) + r ∧
        ec.odd R = (recid % 2 == 1) ∧ BN_mod_inverse r order = some rr ∧
        (BN_mod_sub 0 (BN_bin2bn msg) order * rr % order) • ec.generator +
          (s * rr % order) • R = Q := by
  have hshort : ¬ degree < 8 * msg.length := by
    rw [hmsg]
    decide
  have hcheck : ∀ R : Point, ¬ (check && order • R != 0) = true := by simp [hec.order_nsmul]
  simp only [recoverKey, if_neg hshort, if_neg (hcheck _)]
  constructor
  · intro h
    split_ifs at h with hfield
    cases hset : ec.EC_POINT_set_compressed_coordinates_GFp (order * (recid / 2) + r)
        (recid % 2 == 1) with
    | none =>
      rw [hset] at h
      exact absurd h (by simp)
    | some R =>
      obtain ⟨hR, hx, hodd⟩ := (hec.compressed _ (Nat.not_le.mp hfield) _ _).mp hset
      rw [hset] at h
      cases hinv : BN_mod_inverse r order with
      | none =>
        rw [hinv] at h
        exact absurd h (by simp)
      | some rr =>
        rw [hinv] at h
        exact ⟨R, rr, Nat.not_le.mp hfield, hR, hx, hodd, rfl, Except.ok.inj h⟩
  · rintro ⟨R, rr, hfield, hR, hx, hodd, hinv, rfl⟩
    rw [if_neg (Nat.not_le.mpr hfield),
      (hec.compressed _ hfield (recid % 2 == 1) R).mpr ⟨hR, hx, hodd⟩, hinv]

section

variable {nonce priv_key r s : ℕ} {msg : List UInt8} (hmsg : msg.length = 32)
  (hsign : ec.ECDSA_do_sign nonce msg priv_key = some (r, s))
include hmsg hsign

theorem recoverKey_recid (check : Bool) :
    ec.recoverKey r s msg (ec.recid (nonce • ec.generator)) check =
      .ok (priv_key • ec.generator) := by
  obtain ⟨hR, hr, -, hcoprime, -, heq⟩ := hec.do_sign nonce msg priv_key r s hsign
  obtain ⟨rr, hinv, hmul, -⟩ := BN_mod_inverse_eq_some order_pos hcoprime
  have hx : ec.x (nonce • ec.generator) =
      order * (ec.recid (nonce • ec.generator) / 2) + r := by
    rw [recid_div_two, hr, Nat.div_add_mod]
  rw [recoverKey_eq_ok_iff hec hmsg]
  refine ⟨nonce • ec.generator, rr, hx ▸ hec.x_lt _ hR, hR, hx, (recid_mod_two _ _).symm, hinv, ?_⟩
  exact TorsionGroup.recovered_key (hec.order_nsmul _) (BN_mod_sub_zero _ order_pos) hmul heq

theorem eq_recid_of_recoverKey {i : ℕ} {check : Bool}
    (h : ec.recoverKey r s msg i check = .ok (priv_key • ec.generator)) :
    i = ec.recid (nonce • ec.generator) := by
  obtain ⟨-, hr, -, hcoprime, hs, -⟩ := hec.do_sign nonce msg priv_key r s hsign
  obtain ⟨rr, hinv, -, hrr⟩ := BN_mod_inverse_eq_some order_pos hcoprime
  obtain ⟨R, rr', -, -, hx, hodd, hinv', hQ⟩ := (recoverKey_eq_ok_iff hec hmsg).mp h
  obtain rfl : rr = rr' := Option.some.inj (hinv.symm.trans hinv')
  obtain ⟨R', rr', -, -, hx', hodd', hinv'', hQ'⟩ := (recoverKey_eq_ok_iff hec hmsg).mp
    (recoverKey_recid hec hmsg hsign check)
  obtain rfl : rr = rr' := Option.some.inj (hinv.symm.trans hinv'')
  obtain rfl : R = R' :=
    TorsionGroup.recovered_point hec.order_nsmul hs hrr (hQ.trans hQ'.symm)
  have hhalf : i / 2 = ec.recid (nonce • ec.generator) / 2 :=
    Nat.eq_of_mul_eq_mul_left order_pos (Nat.add_right_cancel (hx.symm.trans hx'))
  have hparity : i % 2 = ec.recid (nonce • ec.generator) % 2 := by
    have hbeq := hodd.symm.trans hodd'
    rw [Bool.eq_iff_iff, beq_iff_eq, beq_iff_eq] at hbeq
    omega
  rw [← Nat.div_add_mod i 2, hhalf, hparity, Nat.div_add_mod]

end

end EcFunctions

end

instance instNeZeroOrder : NeZero order := ⟨by decide⟩

namespace ModularCurve

/-- The size of the field of secp256k1. -/
def field : ℕ := 0xFFFFFFFFFFFFFFFFFFFFFFFFFFFFFFFFFFFFFFFFFFFFFFFFFFFFFFFEFFFFFC2F

/-- A point and its negative have the same coordinate; those next to zero have the largest ones. -/
def x (P : ZMod order) : ℕ := field - min P.val (order - P.val)

def odd (P : ZMod order) : Bool := P.val ≤ order / 2

def setCompressed (x : ℕ) (y_bit : Bool) : Option (ZMod order) :=
  if 0 < field - x ∧ field - x ≤ order / 2 then
    some (if y_bit then ((field - x : ℕ) : ZMod order) else -((field - x : ℕ) : ZMod order))
  else none

def octets (compressed : Bool) (P : ZMod order) : List UInt8 :=
  if P = 0 then [0]
  else if compressed then (if odd P then 3 else 2) :: (littleEndian 32 (x P)).reverse
  else 4 :: ((littleEndian 32 (x P)).reverse ++ (littleEndian 32 (odd P).toNat).reverse)

def sign (nonce : ℕ) (dgst : List UInt8) (priv_key : ℕ) : Option (ℕ × ℕ) :=
  let r := x (nonce : ZMod order) % order
  match BN_mod_inverse nonce order with
  | none => none
  | some i =>
    let s := i * (BN_bin2bn dgst + r * priv_key) % order
    if r.Coprime order ∧ s.Coprime order then some (r, s) else none

/-- The residues modulo the order, with coordinates as a curve has them. -/
def functions : EcFunctions (ZMod order) where
  generator := 1
  field := field
  x := x
  odd := odd
  EC_POINT_set_compressed_coordinates_GFp := setCompressed
  i2o_ECPublicKey := octets
  ECDSA_do_sign := sign

theorem order_eq : order = 2 * (order / 2) + 1 := by decide

theorem order_lt_field : order / 2 < field := by decide

theorem val_of_half {k : ℕ} (hpos : 0 < k) (hle : k ≤ order / 2) :
    ((k : ZMod order)).val = k ∧ (-(k : ZMod order)).val = order - k := by
  have horder := order_eq
  have hval : ((k : ZMod order)).val = k := ZMod.val_natCast_of_lt (by omega)
  have hne : (k : ZMod order) ≠ 0 := by
    rw [Ne, ← ZMod.val_eq_zero, hval]
    omega
  rw [ZMod.neg_val, if_neg hne, hval]
  exact ⟨rfl, rfl⟩

theorem val_pos {P : ZMod order} (hP : P ≠ 0) : 0 < P.val :=
  Nat.pos_of_ne_zero fun h => hP ((ZMod.val_eq_zero P).mp h)

theorem x_lt {P : ZMod order} (hP : P ≠ 0) : x P < field := by
  have hpos := val_pos hP
  have hlt := ZMod.val_lt P
  have hfield := order_lt_field
  rw [x]
  omega

theorem setCompressed_eq_some_iff {a : ℕ} (ha : a < field) (y_bit : Bool) (P : ZMod order) :
    setCompressed a y_bit = some P ↔ P ≠ 0 ∧ x P = a ∧ odd P = y_bit := by
  have horder := order_eq
  have hfield := order_lt_field
  constructor
  · intro h
    rw [setCompressed] at h
    split at h
    · rename_i hk
      obtain ⟨hval, hneg⟩ := val_of_half hk.1 hk.2
      obtain rfl := Option.some.inj h
      cases y_bit with
      | false =>
        rw [if_neg Bool.false_ne_true, Ne, ← ZMod.val_eq_zero, x, odd, hneg, decide_eq_false_iff_not]
        omega
      | true =>
        rw [if_pos rfl, Ne, ← ZMod.val_eq_zero, x, odd, hval, decide_eq_true_iff]
        omega
    · exact absurd h (by simp)
  · rintro ⟨hP, rfl, rfl⟩
    have hpos := val_pos hP
    have hlt := ZMod.val_lt P
    have hmin : field - x P = min P.val (order - P.val) := by
      rw [x]
      omega
    rw [setCompressed, hmin, if_pos (by omega), odd]
    by_cases hodd : P.val ≤ order / 2
    · rw [decide_eq_true hodd, if_pos rfl, Nat.min_eq_left (by omega), ZMod.natCast_zmod_val]
    · rw [decide_eq_false hodd, if_neg Bool.false_ne_true, Nat.min_eq_right (by omega),
        Nat.cast_sub hlt.le, ZMod.natCast_self, ZMod.natCast_zmod_val, zero_sub, neg_neg]

theorem length_octets (compressed : Bool) {P : ZMod order} (hP : P ≠ 0) :
    (octets compressed P).length = if compressed then 33 else 65 := by
  rw [octets, if_neg hP]
  cases compressed <;> simp

theorem head_octets (compressed : Bool) {P : ZMod order} (hP : P ≠ 0) :
    (octets compressed P).headD 0 = if compressed then (if odd P then 3 else 2) else 4 := by
  rw [octets, if_neg hP]
  cases compressed <;> rfl

theorem octets_inj {P Q : ZMod order} (h : octets true P = octets true Q) : P = Q := by
  by_cases hP : P = 0
  · by_cases hQ : Q = 0
    · rw [hP, hQ]
    · have hlen := length_octets true hQ
      rw [← h, octets, if_pos hP] at hlen
      exact absurd hlen (by decide)
  · by_cases hQ : Q = 0
    · have hlen := length_octets true hP
      rw [h, octets, if_pos hQ] at hlen
      exact absurd hlen (by decide)
    · have hhead := congrArg (fun l => l.headD 0) h
      simp only [head_octets true hP, head_octets true hQ, if_true] at hhead
      have hodd : odd P = odd Q := by
        split_ifs at hhead with hp hq hq
        · rw [hp, hq]
        · exact absurd hhead (by decide)
        · exact absurd hhead (by decide)
        · rw [Bool.eq_false_iff.mpr hp, Bool.eq_false_iff.mpr hq]
      rw [octets, octets, if_neg hP, if_neg hQ, if_pos rfl, if_pos rfl, List.cons.injEq] at h
      have hlt : field < 256 ^ 32 := by decide
      have hx : x P = x Q := by
        rw [← BN_bin2bn_littleEndian ((x_lt hP).trans hlt), h.2,
          BN_bin2bn_littleEndian ((x_lt hQ).trans hlt)]
      have hp := (setCompressed_eq_some_iff (x_lt hP) (odd P) P).mpr ⟨hP, rfl, rfl⟩
      have hq := (setCompressed_eq_some_iff (x_lt hQ) (odd Q) Q).mpr ⟨hQ, rfl, rfl⟩
      rw [hx, hodd, hq] at hp
      exact (Option.some.inj hp).symm

theorem x_natCast {k : ℕ} (h : k < order) :
    x (k : ZMod order) = field - min k (order - k) := by
  rw [x, ZMod.val_natCast_of_lt h]

theorem sign_eq {nonce priv_key : ℕ} {dgst : List UInt8} (hnonce : nonce.Coprime order)
    (hr : (x (nonce : ZMod order) % order).Coprime order)
    (hs : (BN_bin2bn dgst + x (nonce : ZMod order) % order * priv_key).Coprime order) :
    ∃ s, sign nonce dgst priv_key = some (x (nonce : ZMod order) % order, s) := by
  obtain ⟨i, hinv, -, hi⟩ := BN_mod_inverse_eq_some order_pos hnonce
  have hcoprime : (i * (BN_bin2bn dgst + x (nonce : ZMod order) % order * priv_key) %
      order).Coprime order := by
    rw [Nat.Coprime, ← Nat.gcd_rec, Nat.gcd_comm]
    exact hi.mul_left hs
  rw [sign, hinv]
  exact ⟨_, if_pos ⟨hr, hcoprime⟩⟩

theorem nsmul_generator (k : ℕ) : k • functions.generator = (k : ZMod order) := nsmul_one k

theorem documented : functions.Documented where
  order_nsmul P := by
    rw [nsmul_eq_mul, ZMod.natCast_self, zero_mul]
  generator d hpos hlt := by
    change d • (1 : ZMod order) ≠ 0
    rw [nsmul_one, Ne, ← ZMod.val_eq_zero, ZMod.val_natCast_of_lt hlt]
    exact hpos.ne'
  field_le := by decide
  field_lt := by decide
  x_lt _ := x_lt
  compressed _ := setCompressed_eq_some_iff
  infinity compressed := by cases compressed <;> rfl
  length_octets compressed _ := length_octets compressed
  header_octets compressed _ := head_octets compressed
  octets_inj _ _ := octets_inj
  do_sign nonce dgst priv_key r s h := by
    change nonce • (1 : ZMod order) ≠ 0 ∧ r = x (nonce • (1 : ZMod order)) % order ∧ _
    rw [nsmul_one]
    by_cases hnonce : nonce.Coprime order
    · obtain ⟨i, hinv, hmul, -⟩ := BN_mod_inverse_eq_some order_pos hnonce
      change sign nonce dgst priv_key = some (r, s) at h
      rw [sign, hinv] at h
      dsimp only at h
      split at h
      · rename_i hcoprime
        obtain ⟨rfl, rfl⟩ := Prod.mk.inj (Option.some.inj h)
        refine ⟨?_, rfl, Nat.mod_lt _ order_pos, hcoprime.1, hcoprime.2, ?_⟩
        · intro hzero
          rw [ZMod.natCast_eq_zero_iff] at hzero
          have hone : order = 1 := Nat.eq_one_of_dvd_coprimes hnonce hzero dvd_rfl
          exact absurd hone (by decide)
        · calc i * (BN_bin2bn dgst + x (nonce : ZMod order) % order * priv_key) % order * nonce ≡
                i * (BN_bin2bn dgst + x (nonce : ZMod order) % order * priv_key) * nonce
                  [MOD order] := (Nat.mod_modEq _ _).mul_right _
            _ = nonce * i * (BN_bin2bn dgst + x (nonce : ZMod order) % order * priv_key) := by ring
            _ ≡ 1 * (BN_bin2bn dgst + x (nonce : ZMod order) % order * priv_key) [MOD order] :=
              hmul.mul_right _
            _ = BN_bin2bn dgst + x (nonce : ZMod order) % order * priv_key := Nat.one_mul _
      · exact absurd h (by simp)
    · change sign nonce dgst priv_key = some (r, s) at h
      rw [sign, BN_mod_inverse, if_neg hnonce] at h
      exact absurd h (by simp)

end ModularCurve

end Beancash
