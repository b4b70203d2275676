import Beancash.CryptoKeyStore
import Beancash.KeyRecovery
import Mathlib.Data.Nat.Size

namespace Beancash

open ByteStream

/-- What a call that signs comes to; it is `aborted` by an assertion. -/
inductive SignResult (α : Type) where
  | refused
  | aborted
  | signed (result : α)

/-- A number in 32 bytes of zeros, at their end. -/
def placed (a : ℕ) : List UInt8 := List.replicate (32 - (a.size + 7) / 8) 0 ++ BN_bn2bin a

section

variable {Point : Type} [AddCommGroup Point] [DecidableEq Point]

namespace EcFunctions

variable (ec : EcFunctions Point)

/-- The loop of `SignCompact`: the first number that gives the key back. -/
def findRec (r s : ℕ) (msg : List UInt8) (pubkey : PubKey) : Option ℕ :=
  (List.range 4).find? fun i =>
    match ec.recoverKey r s msg i true with
    | .error _ => false
    | .ok keyRec => ec.getPubKey keyRec .unset true == pubkey

def signCompact (priv_key : ℕ) (nonce : ℕ) (hash : Uint256) : SignResult (List UInt8 × ℕ) :=
  let msg := littleEndian 32 hash.toNat
  match ec.ECDSA_do_sign nonce msg priv_key with
  | none => .refused
  | some (r, s) =>
    if r.size ≤ 256 ∧ s.size ≤ 256 then
      let pubkey := ec.getPubKey (priv_key • ec.generator) .unset true
      match ec.findRec r s msg pubkey with
      | none => .aborted
      | some rec => .signed (placed r ++ placed s, rec)
    else .refused

def recover (hash : Uint256) (p64 : List UInt8) (rec : ℤ) : Option Point :=
  if rec < 0 ∨ 3 ≤ rec then none
  else
    (ec.recoverKey (BN_bin2bn (p64.take 32)) (BN_bin2bn ((p64.drop 32).take 32))
      (littleEndian 32 hash.toNat) rec.toNat false).toOption

end EcFunctions

namespace SecretKey

variable (ec : EcFunctions Point) (key : SecretKey)

/-- What `SetSecretBytes` sets. -/
def secret : ℕ := BN_bin2bn key.vch

def getPubKey : PubKey := ec.getPubKey (key.secret • ec.generator) .unset key.fCompressed

def signCompact (nonce : ℕ) (hash : Uint256) : SignResult (List UInt8) :=
  match ec.signCompact key.secret nonce hash with
  | .refused => .refused
  | .aborted => .aborted
  | .signed (p64, rec) => .signed (.ofNat (27 + rec + if key.fCompressed then 4 else 0) :: p64)

end SecretKey

/-- `vchSig[0] - 27`, which is an `int`. -/
def headerNumber (vchSig : List UInt8) : BitVec 32 := (vchSig.headD 0).toBitVec.setWidth 32 - 27

namespace PubKey

variable (ec : EcFunctions Point)

def recoverCompact (this : PubKey) (hash : Uint256) (vchSig : List UInt8) : Bool × PubKey :=
  if vchSig.length ≠ 65 then (false, this)
  else
    match ec.recover hash (vchSig.drop 1) (headerNumber vchSig &&& ~~~4).toInt with
    | none => (false, this)
    | some key => (true, ec.getPubKey key this (headerNumber vchSig &&& 4 != 0))

def verifyCompact (this : PubKey) (hash : Uint256) (vchSig : List UInt8) : Bool :=
  if !this.isValid then false
  else if vchSig.length ≠ 65 then false
  else
    match ec.recover hash (vchSig.drop 1) (headerNumber vchSig &&& ~~~4).toInt with
    | none => false
    | some key => this == ec.getPubKey key .unset this.isCompressed

end PubKey

end

theorem length_placed {a : ℕ} (h : a.size ≤ 256) : (placed a).length = 32 := by
  rw [placed, BN_bn2bin, List.length_append, List.length_replicate, List.length_reverse,
    length_littleEndian]
  omega

theorem BN_bin2bn_placed (a : ℕ) : BN_bin2bn (placed a) = a := by
  have hlt : a < 256 ^ ((a.size + 7) / 8) := by
    rw [show 256 = 2 ^ 8 by rfl, ← pow_mul]
    exact (Nat.lt_size_self a).trans_le (Nat.pow_le_pow_right (by decide) (by omega))
  rw [BN_bin2bn, placed, BN_bn2bin, List.reverse_append, List.reverse_reverse,
    List.reverse_replicate, ofLittleEndian_append, ofLittleEndian_replicate_zero,
    ofLittleEndian_littleEndian hlt, Nat.mul_zero, Nat.add_zero]

theorem header_eq : ∀ rec < 4, ∀ fCompressed : Bool,
    (((UInt8.ofNat (27 + rec + if fCompressed then 4 else 0)).toBitVec.setWidth 32 - 27 &&&
      ~~~(4 : BitVec 32)).toInt = rec ∧
    ((UInt8.ofNat (27 + rec + if fCompressed then 4 else 0)).toBitVec.setWidth 32 - 27 &&&
      (4 : BitVec 32) != 0) = fCompressed) := by
  decide

theorem SecretKey.secret_bounds (key : SecretKey) : 0 < key.secret ∧ key.secret < order := by
  have hcheck := key.check
  simp only [checkKey, Bool.and_eq_true, decide_eq_true_eq] at hcheck
  refine ⟨hcheck.1.2, ?_⟩
  rw [order]
  exact Nat.lt_succ_of_le hcheck.2

section

variable {Point : Type} [AddCommGroup Point] {ec : EcFunctions Point} (hec : ec.Documented)
include hec

theorem SecretKey.point_ne_zero (key : SecretKey) : key.secret • ec.generator ≠ 0 :=
  hec.generator _ key.secret_bounds.1 key.secret_bounds.2

theorem size_signature {nonce priv_key r s : ℕ} {msg : List UInt8}
    (hsign : ec.ECDSA_do_sign nonce msg priv_key = some (r, s)) : r.size ≤ 256 ∧ s.size ≤ 256 := by
  obtain ⟨-, hr, hs, -⟩ := hec.do_sign nonce msg priv_key r s hsign
  have hr' : r < order := hr ▸ Nat.mod_lt _ order_pos
  have horder : order < 2 ^ 256 := by decide
  exact ⟨Nat.size_le.mpr (hr'.trans horder), Nat.size_le.mpr (hs.trans horder)⟩

theorem EcFunctions.recid_ne_three_iff {R : Point} (hR : R ≠ 0) :
    ec.recid R ≠ 3 ↔ ec.x R < order ∨ ec.odd R = false := by
  have hlt := recid_lt hec hR
  have hhalf := ec.recid_div_two R
  have hfirst : ec.x R / order = 0 ↔ ec.x R < order := Nat.div_eq_zero_iff_lt order_pos
  have hparity : ec.recid R % 2 = (ec.odd R).toNat := by
    rw [recid]
    have hodd := (ec.odd R).toNat_le
    omega
  rw [← hfirst, ← hhalf]
  cases hodd : ec.odd R with
  | false =>
    rw [hodd, Bool.toNat_false] at hparity
    exact iff_of_true (by omega) (.inr rfl)
  | true =>
    rw [hodd, Bool.toNat_true] at hparity
    rw [or_iff_left (by decide : ¬ true = false)]
    omega

theorem length_signature {key : SecretKey} {nonce r s : ℕ} {hash : Uint256}
    (hsign : ec.ECDSA_do_sign nonce (littleEndian 32 hash.toNat) key.secret = some (r, s))
    (header : UInt8) : (header :: (placed r ++ placed s)).length = 65 := by
  obtain ⟨hr, hs⟩ := size_signature hec hsign
  rw [List.length_cons, List.length_append, length_placed hr, length_placed hs]

variable [DecidableEq Point]

theorem EcFunctions.findRec_eq {nonce priv_key r s : ℕ} {msg : List UInt8}
    (hmsg : msg.length = 32) (hsign : ec.ECDSA_do_sign nonce msg priv_key = some (r, s))
    (hkey : priv_key • ec.generator ≠ 0) :
    ec.findRec r s msg (ec.getPubKey (priv_key • ec.generator) .unset true) =
      some (ec.recid (nonce • ec.generator)) := by
  obtain ⟨hR, -⟩ := hec.do_sign nonce msg priv_key r s hsign
  rw [findRec, List.find?_range_eq_some]
  refine ⟨?_, List.mem_range.mpr (recid_lt hec hR), ?_⟩
  · rw [recoverKey_recid hec hmsg hsign]
    exact (getPubKey_beq_iff hec hkey _ _).mpr rfl
  · intro i hi
    cases hrec : ec.recoverKey r s msg i true with
    | error _ => rfl
    | ok Q =>
      have hne : Q ≠ priv_key • ec.generator := fun hQ =>
        hi.ne (eq_recid_of_recoverKey hec hmsg hsign (hrec.trans (congrArg Except.ok hQ)))
      dsimp only
      rwa [Bool.not_eq_true', Bool.eq_false_iff, Ne, getPubKey_beq_iff hec hkey]

theorem SecretKey.signCompact_eq (key : SecretKey) {nonce r s : ℕ} {hash : Uint256}
    (hsign : ec.ECDSA_do_sign nonce (littleEndian 32 hash.toNat) key.secret = some (r, s)) :
    key.signCompact ec nonce hash =
      .signed (.ofNat (27 + ec.recid (nonce • ec.generator) + if key.fCompressed then 4 else 0) ::
        (placed r ++ placed s)) := by
  rw [SecretKey.signCompact, EcFunctions.signCompact, hsign]
  dsimp only
  rw [if_pos (size_signature hec hsign), EcFunctions.findRec_eq hec (length_littleEndian _ _) hsign
    (key.point_ne_zero hec)]

theorem recover_signature {key : SecretKey} {nonce r s : ℕ} {hash : Uint256}
    (hsign : ec.ECDSA_do_sign nonce (littleEndian 32 hash.toNat) key.secret = some (r, s)) :
    ec.recover hash (placed r ++ placed s) (ec.recid (nonce • ec.generator)) =
      if ec.recid (nonce • ec.generator) = 3 then none else some (key.secret • ec.generator) := by
  obtain ⟨hr, hs⟩ := size_signature hec hsign
  obtain ⟨hR, -⟩ := hec.do_sign _ _ _ _ _ hsign
  have hlt := EcFunctions.recid_lt hec hR
  rw [EcFunctions.recover]
  by_cases hlast : ec.recid (nonce • ec.generator) = 3
  · rw [if_pos (by omega), if_pos hlast]
  · rw [if_neg (by omega), if_neg hlast, List.take_left' (length_placed hr),
      List.drop_left' (length_placed hr), List.take_of_length_le (length_placed hs).le,
      BN_bin2bn_placed, BN_bin2bn_placed, Int.toNat_natCast,
      EcFunctions.recoverKey_recid hec (length_littleEndian _ _) hsign]
    rfl

section

variable {key : SecretKey} {nonce r s : ℕ} {hash : Uint256}
  (hsign : ec.ECDSA_do_sign nonce (littleEndian 32 hash.toNat) key.secret = some (r, s))
include hsign

theorem recoverCompact_signature (this : PubKey) :
    this.recoverCompact ec hash (.ofNat (27 + ec.recid (nonce • ec.generator) +
        if key.fCompressed then 4 else 0) :: (placed r ++ placed s)) =
      if ec.recid (nonce • ec.generator) = 3 then (false, this)
      else (true, ec.getPubKey (key.secret • ec.generator) this key.fCompressed) := by
  obtain ⟨hR, -⟩ := hec.do_sign _ _ _ _ _ hsign
  obtain ⟨hrec, hflag⟩ := header_eq _ (EcFunctions.recid_lt hec hR) key.fCompressed
  rw [PubKey.recoverCompact, length_signature hec hsign, if_neg (by simp), headerNumber,
    List.headD_cons, hrec, hflag, List.drop_one, List.tail_cons, recover_signature hec hsign]
  by_cases hlast : ec.recid (nonce • ec.generator) = 3
  · rw [if_pos hlast, if_pos hlast]
  · rw [if_neg hlast, if_neg hlast]

theorem verifyCompact_signature :
    (key.getPubKey ec).verifyCompact ec hash (.ofNat (27 + ec.recid (nonce • ec.generator) +
        if key.fCompressed then 4 else 0) :: (placed r ++ placed s)) =
      decide (ec.recid (nonce • ec.generator) ≠ 3) := by
  have hkey := key.point_ne_zero hec
  obtain ⟨hR, -⟩ := hec.do_sign _ _ _ _ _ hsign
  obtain ⟨hrec, -⟩ := header_eq _ (EcFunctions.recid_lt hec hR) key.fCompressed
  rw [PubKey.verifyCompact, SecretKey.getPubKey, EcFunctions.isValid_getPubKey hec hkey,
    EcFunctions.isCompressed_getPubKey hec hkey, length_signature hec hsign, if_neg (by simp),
    if_neg (by simp), headerNumber, List.headD_cons, hrec, List.drop_one, List.tail_cons,
    recover_signature hec hsign]
  by_cases hlast : ec.recid (nonce • ec.generator) = 3
  · rw [if_pos hlast, decide_eq_false (not_not_intro hlast)]
  · rw [if_neg hlast, decide_eq_true hlast]
    exact EcFunctions.getPubKey_beq_self hec hkey _ _ _

end

end

/-- The secret key one. -/
def oneKey : SecretKey := ⟨List.replicate 31 0 ++ [1], true, by decide⟩

/-- A signature gives its key back, unless the point of the nonce is the second one with its
coordinate modulo the order and has an odd one beside it. -/
theorem signCompact_recoverCompact {Point : Type} [AddCommGroup Point] [DecidableEq Point]
    {ec : EcFunctions Point} (hec : ec.Documented) (key : SecretKey) (nonce : ℕ) (hash : Uint256)
    (vchSig : List UInt8) (h : key.signCompact ec nonce hash = .signed vchSig) :
    vchSig.length = 65 ∧
      (((∀ this : PubKey, (this.recoverCompact ec hash vchSig).1 = true ∧
          ((this.recoverCompact ec hash vchSig).2 == key.getPubKey ec) = true) ∧
        (key.getPubKey ec).verifyCompact ec hash vchSig = true) ↔
      (ec.x (nonce • ec.generator) < order ∨ ec.odd (nonce • ec.generator) = false)) := by
  obtain ⟨r, s, hsign⟩ : ∃ r s,
      ec.ECDSA_do_sign nonce (littleEndian 32 hash.toNat) key.secret = some (r, s) := by
    cases hsign : ec.ECDSA_do_sign nonce (littleEndian 32 hash.toNat) key.secret with
    | none =>
      rw [SecretKey.signCompact, EcFunctions.signCompact, hsign] at h
      cases h
    | some sig => exact ⟨sig.1, sig.2, rfl⟩
  obtain ⟨hR, -⟩ := hec.do_sign _ _ _ _ _ hsign
  rw [key.signCompact_eq hec hsign] at h
  obtain rfl := SignResult.signed.inj h
  refine ⟨length_signature hec hsign _, ?_⟩
  rw [← EcFunctions.recid_ne_three_iff hec hR, verifyCompact_signature hec hsign, decide_eq_true_iff]
  constructor
  · exact fun hall => hall.2
  · intro hlast
    refine ⟨fun this => ?_, hlast⟩
    rw [recoverCompact_signature hec hsign, if_neg hlast]
    exact ⟨rfl, EcFunctions.getPubKey_beq_self hec (key.point_ne_zero hec) _ _ _⟩

theorem oneKey_sign {k : ℕ} (hk : k < order) (hnonce : k.Coprime order)
    (hr : ((ModularCurve.field - min k (order - k)) % order).Coprime order) :
    ∃ r s, ModularCurve.functions.ECDSA_do_sign k (littleEndian 32 (0 : Uint256).toNat)
      oneKey.secret = some (r, s) := by
  have hsecret : oneKey.secret = 1 := by decide
  have hzero : BN_bin2bn (littleEndian 32 (0 : Uint256).toNat) = 0 := by decide
  rw [← ModularCurve.x_natCast hk] at hr
  refine ⟨_, ModularCurve.sign_eq hnonce hr ?_⟩
  rwa [hsecret, hzero, Nat.zero_add, Nat.mul_one]

/-- The point of the nonce is the negative of the generator, the number in the header is 2. -/
theorem signCompact_recoverCompact_second : ∃ vchSig : List UInt8,
    oneKey.signCompact ModularCurve.functions (order - 1) 0 = .signed vchSig ∧
      ∀ this : PubKey, (this.recoverCompact ModularCurve.functions 0 vchSig).1 = true := by
  have hodd : ModularCurve.functions.odd ((order - 1) • ModularCurve.functions.generator) =
      false := by
    rw [ModularCurve.nsmul_generator]
    change ModularCurve.odd ((order - 1 : ℕ) : ZMod order) = false
    rw [ModularCurve.odd, ZMod.val_natCast_of_lt (by decide)]
    decide
  obtain ⟨r, s, hsign⟩ := @oneKey_sign (order - 1) (by decide) (by decide) (by decide)
  have hsigned := oneKey.signCompact_eq ModularCurve.documented hsign
  have hrecover := signCompact_recoverCompact ModularCurve.documented oneKey (order - 1) 0 _ hsigned
  exact ⟨_, hsigned, fun this => ((hrecover.2.mpr (.inr hodd)).1 this).1⟩

/-- The point of the nonce is the generator, the number in the header is 3. -/
theorem signCompact_recoverCompact_last : ∃ vchSig : List UInt8,
    oneKey.signCompact ModularCurve.functions 1 0 = .signed vchSig ∧
      ∀ this : PubKey, this.recoverCompact ModularCurve.functions 0 vchSig = (false, this) := by
  have hrec : ModularCurve.functions.recid (1 • ModularCurve.functions.generator) = 3 := by
    rw [ModularCurve.nsmul_generator]
    change 2 * (ModularCurve.x ((1 : ℕ) : ZMod order) / order) +
      (ModularCurve.odd ((1 : ℕ) : ZMod order)).toNat = 3
    rw [ModularCurve.x_natCast (by decide), ModularCurve.odd, ZMod.val_natCast_of_lt (by decide)]
    decide
  obtain ⟨r, s, hsign⟩ := @oneKey_sign 1 (by decide) (by decide) (by decide)
  have hsigned := oneKey.signCompact_eq ModularCurve.documented hsign
  refine ⟨_, hsigned, fun this => ?_⟩
  rw [recoverCompact_signature ModularCurve.documented hsign, if_pos hrec]

end Beancash
