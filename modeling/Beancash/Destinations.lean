import Beancash.SolverSpec

namespace Beancash

/-- `EncodeOP_N`, which asserts that its argument is a small integer. -/
def encodeOpN (n : ℤ) : Option UInt8 :=
  if 0 ≤ n ∧ n ≤ 16 then some (if n = 0 then 0 else .ofNat (0x51 + n.toNat - 1)) else none

def setDestination : TxDestination → Script
  | .keyID id => 0x76 :: 0xa9 :: 0x14 :: (id ++ [0x88, 0xac])
  | .scriptID id => 0xa9 :: 0x14 :: (id ++ [0x87])

/-- `operator<<` of a public key, which asserts that a direct push takes it. -/
def pushPubKey (key : List UInt8) : Option Script :=
  if key.length < 0x4c then some (.ofNat key.length :: key) else none

def setMultisig (nRequired : ℤ) (keys : List (List UInt8)) : Option Script := do
  let opcodeM ← encodeOpN nRequired
  let pushes ← keys.mapM pushPubKey
  let opcodeN ← encodeOpN keys.length
  return opcodeM :: (pushes.flatten ++ [opcodeN, 0xae])

/-- What it returns, and its output arguments. -/
structure DestinationsOut where
  answer : Bool
  typeRet : TxnOutType
  addressRet : List TxDestination
  nRequiredRet : ℕ
deriving DecidableEq

/-- `ExtractDestinations`, given what `nRequiredRet` is before. -/
def extractDestinations (c : Crypto) (scriptPubKey : Script) (nRequiredRet : ℕ) :
    DestinationsOut :=
  let r := solverOut scriptPubKey
  if !r.answer then ⟨false, r.typeRet, [], nRequiredRet⟩
  else if r.typeRet = .nullData then ⟨false, r.typeRet, [], nRequiredRet⟩
  else if r.typeRet = .multisig then
    ⟨true, r.typeRet, r.vSolutionsRet.tail.dropLast.map fun vch => .keyID (pubKeyID c vch),
      ((r.vSolutionsRet.headD []).headD 0).toNat⟩
  else
    match extractDestination c scriptPubKey with
    | none => ⟨false, r.typeRet, [], 1⟩
    | some address => ⟨true, r.typeRet, [address], 1⟩

/-- The 20 bytes of a key or a script. -/
def TxDestination.bytes : TxDestination → KeyID
  | .keyID id => id
  | .scriptID id => id

/-- The type of the script for a destination. -/
def TxDestination.type : TxDestination → TxnOutType
  | .keyID _ => .pubKeyHash
  | .scriptID _ => .scriptHash

theorem standardScript_setDestination {dest : TxDestination} (h : dest.bytes.length = 20) :
    StandardScript (setDestination dest) dest.type [dest.bytes] := by
  cases dest with
  | scriptID id => exact .scriptHash h
  | keyID id =>
    have hpush : getOp (0x14 :: (id ++ [0x88, 0xac])) = some (0x14, id, [0x88, 0xac]) :=
      getOp_direct (show 20 < 0x4c by decide) h (by
        replace h : id.length = 20 := h
        rw [List.length_append, h]
        decide)
    exact .pubKeyHash h (.cons (getOp_opcode (by decide)) (.cons (getOp_opcode (by decide))
      (.cons hpush (.cons (getOp_opcode (by decide)) (.cons (getOp_opcode (by decide)) .nil)))))

theorem extractDestinations_setDestination (c : Crypto) {dest : TxDestination}
    (h : dest.bytes.length = 20) (nRequiredRet : ℕ) :
    extractDestinations c (setDestination dest) nRequiredRet = ⟨true, dest.type, [dest], 1⟩ := by
  have hsolver := solverOut_eq_true_iff.mpr (standardScript_setDestination h)
  have hextract : extractDestination c (setDestination dest) = some dest := by
    unfold extractDestination
    rw [solver_eq_solverOut, hsolver]
    cases dest <;> rfl
  unfold extractDestinations
  rw [hsolver, hextract]
  cases dest <;> rfl

theorem encodeOpN_eq {n : ℕ} (hlo : 1 ≤ n) (hhi : n ≤ 16) :
    ∃ opcode, encodeOpN n = some opcode ∧ SmallInteger opcode (.ofNat n) := by
  have hall : ∀ n ∈ List.range' 1 16, encodeOpN n = some (.ofNat (0x50 + n)) ∧
      0x51 ≤ UInt8.ofNat (0x50 + n) ∧ UInt8.ofNat (0x50 + n) ≤ op16 ∧
      UInt8.ofNat n = .ofNat (0x50 + n) - 0x50 := by decide
  obtain ⟨hencode, hmin, hmax, hdiff⟩ := hall n (List.mem_range'_1.mpr (by omega))
  exact ⟨_, hencode, Or.inr ⟨hmin, hmax, hdiff⟩⟩

theorem length_of_isValidPubKey {key : List UInt8} (h : isValidPubKey key = true) :
    key.length = 33 ∨ key.length = 65 := by
  cases key with
  | nil => cases h
  | cons header vch =>
    rw [isValidPubKey, Bool.and_eq_true] at h
    have hne := of_decide_eq_true h.1
    rw [List.length_cons, ← of_decide_eq_true h.2]
    unfold pubKeyLen at hne ⊢
    split_ifs at hne ⊢
    · exact Or.inl rfl
    · exact Or.inr rfl
    · exact absurd rfl hne

theorem pushPubKey_eq {key : List UInt8} (h : isValidPubKey key = true) :
    pushPubKey key = some (.ofNat key.length :: key) := by
  rcases length_of_isValidPubKey h with hlen | hlen <;> exact if_pos (by omega)

/-- The keys of a script, one push after the other. -/
def keyPushes (keys : List (List UInt8)) : Script :=
  (keys.map fun key => UInt8.ofNat key.length :: key).flatten

theorem mapM_pushPubKey {keys : List (List UInt8)} (h : ∀ key ∈ keys, isValidPubKey key = true) :
    keys.mapM pushPubKey = some (keys.map fun key => UInt8.ofNat key.length :: key) := by
  induction keys with
  | nil => rfl
  | cons key keys ih =>
    rw [List.mapM_cons, pushPubKey_eq (h key List.mem_cons_self),
      ih fun k hk => h k (List.mem_cons_of_mem _ hk)]
    rfl

theorem length_keyPushes_le {keys : List (List UInt8)}
    (h : ∀ key ∈ keys, isValidPubKey key = true) : (keyPushes keys).length ≤ 66 * keys.length := by
  induction keys with
  | nil => exact Nat.le_refl 0
  | cons key keys ih =>
    have hrest := ih fun k hk => h k (List.mem_cons_of_mem _ hk)
    rw [keyPushes, List.map_cons, List.flatten_cons, List.length_append, List.length_cons,
      List.length_cons]
    rw [keyPushes] at hrest
    rcases length_of_isValidPubKey (h key List.mem_cons_self) with hlen | hlen <;> omega

theorem parses_keyPushes {keys : List (List UInt8)} (h : ∀ key ∈ keys, isValidPubKey key = true)
    {rest : Script} {l : List Instruction} (hrest : Parses rest l)
    (hlen : 66 * keys.length + rest.length < 2 ^ 32) :
    Parses (keyPushes keys ++ rest)
      ((keys.map fun key => (UInt8.ofNat key.length, key)) ++ l) := by
  induction keys with
  | nil => exact hrest
  | cons key keys ih =>
    have hkeys : ∀ k ∈ keys, isValidPubKey k = true := fun k hk => h k (List.mem_cons_of_mem _ hk)
    have hlenKeys := length_keyPushes_le hkeys
    rw [List.length_cons] at hlen
    have hsize := length_of_isValidPubKey (h key List.mem_cons_self)
    have happend : keyPushes (key :: keys) ++ rest =
        .ofNat key.length :: (key ++ (keyPushes keys ++ rest)) := by
      rw [keyPushes, List.map_cons, List.flatten_cons, List.cons_append, List.cons_append,
        List.append_assoc]
      rfl
    rw [happend]
    refine .cons (getOp_direct (by omega) rfl ?_) (ih hkeys (by omega))
    rw [List.length_append, List.length_append]
    omega

theorem standardScript_setMultisig {m : ℕ} {keys : List (List UInt8)} (hm : 1 ≤ m)
    (hle : m ≤ keys.length) (hn : keys.length ≤ 16)
    (hkeys : ∀ key ∈ keys, isValidPubKey key = true) :
    ∃ script, setMultisig m keys = some script ∧ StandardScript script .multisig
      ([.ofNat m] :: (keys ++ [[.ofNat keys.length]])) := by
  obtain ⟨opcodeM, hencodeM, hsmallM⟩ := encodeOpN_eq hm (hle.trans hn)
  obtain ⟨opcodeN, hencodeN, hsmallN⟩ := encodeOpN_eq (hm.trans hle) hn
  have hopcode : ∀ {opcode : UInt8} {n : ℕ}, SmallInteger opcode (.ofNat n) → 1 ≤ n → n ≤ 16 →
      ¬opcode ≤ opPushData4 := by
    rintro opcode n (⟨_, hzero⟩ | ⟨hlo, _, _⟩) hn1 hn16
    · have hnat := congrArg UInt8.toNat hzero
      rw [UInt8.toNat_ofNat', Nat.mod_eq_of_lt (by omega)] at hnat
      exact absurd (show n = 0 from hnat) (by omega)
    · exact UInt8.not_le.mpr (UInt8.lt_of_lt_of_le (show opPushData4 < 0x51 by decide) hlo)
  refine ⟨opcodeM :: (keyPushes keys ++ [opcodeN, 0xae]), ?_, .multisig ⟨opcodeM, opcodeN,
    keys.map fun key => (UInt8.ofNat key.length, key), hsmallM, hsmallN, ?_, ?_, ?_⟩ ⟨?_, ?_, ?_⟩⟩
  · rw [setMultisig, hencodeM, mapM_pushPubKey hkeys, hencodeN]
    rfl
  · rw [List.map_map]
    exact List.map_id keys
  · intro key hkey
    rcases length_of_isValidPubKey (hkeys key hkey) with hlen | hlen <;> constructor <;> omega
  · refine .cons (getOp_opcode (hopcode hsmallM hm (hle.trans hn))) ?_
    refine parses_keyPushes hkeys (.cons (getOp_opcode (hopcode hsmallN (hm.trans hle) hn))
      (.cons (getOp_opcode (by decide)) .nil)) ?_
    simp only [List.length_cons, List.length_nil]
    omega
  · rw [UInt8.le_iff_toNat_le, UInt8.toNat_ofNat', Nat.mod_eq_of_lt (by omega)]
    exact hm
  · rw [UInt8.le_iff_toNat_le, UInt8.toNat_ofNat', UInt8.toNat_ofNat', Nat.mod_eq_of_lt (by omega),
      Nat.mod_eq_of_lt (by omega)]
    exact hle
  · rw [UInt8.toNat_ofNat', Nat.mod_eq_of_lt (by omega)]

/-- What the builders write is read back: the destination itself, and of a multisig script the
number of signatures and the keys in their order. -/
theorem extractDestinations_built (c : Crypto) (nRequiredRet : ℕ) :
    (∀ dest : TxDestination, dest.bytes.length = 20 →
      extractDestinations c (setDestination dest) nRequiredRet = ⟨true, dest.type, [dest], 1⟩) ∧
    ∀ (m : ℕ) (keys : List (List UInt8)), 1 ≤ m → m ≤ keys.length → keys.length ≤ 16 →
      (∀ key ∈ keys, isValidPubKey key = true) →
      ∃ script, setMultisig m keys = some script ∧
        extractDestinations c script nRequiredRet =
          ⟨true, .multisig, keys.map fun key => .keyID (pubKeyID c key), m⟩ := by
  refine ⟨fun dest h => extractDestinations_setDestination c h nRequiredRet, ?_⟩
  intro m keys hm hle hn hkeys
  obtain ⟨script, hscript, hstandard⟩ := standardScript_setMultisig hm hle hn hkeys
  refine ⟨script, hscript, ?_⟩
  have hmnat : (UInt8.ofNat m).toNat = m := by
    rw [UInt8.toNat_ofNat', Nat.mod_eq_of_lt (by omega)]
  unfold extractDestinations
  rw [solverOut_eq_true_iff.mpr hstandard]
  simp [hmnat]

/-- A key, and one signature of two for it and another one. -/
theorem extractDestinations_built_sample :
    let c : Crypto := ⟨fun _ => .replicate 20 0, fun _ => .replicate 32 0,
      fun _ => .replicate 20 0, fun _ _ _ => false⟩
    let id : KeyID := List.replicate 20 7
    let keys : List (List UInt8) := [2 :: List.replicate 32 1, 4 :: List.replicate 64 1]
    extractDestinations c (setDestination (.keyID id)) 0 = ⟨true, .pubKeyHash, [.keyID id], 1⟩ ∧
      ∃ script, setMultisig (1 : ℕ) keys = some script ∧ extractDestinations c script 0 =
        ⟨true, .multisig, keys.map fun key => .keyID (pubKeyID c key), 1⟩ := by
  intro c id keys
  exact ⟨(extractDestinations_built c 0).1 (.keyID id) (by decide),
    (extractDestinations_built c 0).2 1 keys (by decide) (by decide) (by decide) (by decide)⟩

end Beancash
