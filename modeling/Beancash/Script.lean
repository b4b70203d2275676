import Beancash.ByteStream
import Beancash.Transaction

namespace Beancash

open ByteStream

def opPushData1 : UInt8 := 0x4c
def opPushData2 : UInt8 := 0x4d
def opPushData4 : UInt8 := 0x4e
def op16 : UInt8 := 0x60
def opCodeSeparator : UInt8 := 0xab

/-- How many bytes an instruction up to `OP_PUSHDATA4` pushes, and what comes after that number. -/
def pushSize (opcode : UInt8) : Read ℕ :=
  if opcode < opPushData1 then pure opcode.toNat
  else if opcode = opPushData1 then number 1
  else if opcode = opPushData2 then number 2
  else number 4

/-- `GetOp2`: the opcode, what it pushes, and the rest of the script. What is left of the script
is compared as an `unsigned int`. -/
def getOp : Script → Option (UInt8 × List UInt8 × Script)
  | [] => none
  | opcode :: pc =>
    if opcode ≤ opPushData4 then
      ((pushSize opcode).run pc).bind fun (nSize, pc) =>
        if pc.length % 2 ^ 32 < nSize then none
        else some (opcode, pc.take nSize, pc.drop nSize)
    else some (opcode, [], pc)

theorem suffix_of_pushSize {opcode : UInt8} {pc rest : Script} {nSize : ℕ}
    (h : (pushSize opcode).run pc = some (nSize, rest)) : rest <:+ pc := by
  have hnumber : ∀ n, (number n).run pc = some (nSize, rest) → rest <:+ pc := by
    intro n hn
    rw [run_number] at hn
    split at hn
    · rw [← (Prod.mk.inj (Option.some_injective _ hn)).2]
      exact List.drop_suffix n pc
    · cases hn
  unfold pushSize at h
  split_ifs at h
  · rw [← (Prod.mk.inj (Option.some_injective _ h)).2]
  · exact hnumber 1 h
  · exact hnumber 2 h
  · exact hnumber 4 h

theorem getOp_eq_some {pc rest : Script} {opcode : UInt8} {vch : List UInt8}
    (h : getOp pc = some (opcode, vch, rest)) :
    rest <:+ pc ∧ rest.length < pc.length ∧ (opPushData4 < opcode → vch = []) := by
  cases pc with
  | nil => cases h
  | cons opcode' pc =>
    rw [getOp] at h
    split at h
    · rename_i hle
      obtain ⟨⟨nSize, pc'⟩, hsize, h⟩ := Option.bind_eq_some_iff.mp h
      have hsuffix := suffix_of_pushSize hsize
      dsimp only at h
      split at h
      · cases h
      · obtain ⟨rfl, _, rfl⟩ : _ ∧ _ ∧ _ := by simpa using h
        have hdrop := (List.drop_suffix nSize pc').trans hsuffix
        have hlen := hdrop.length_le
        refine ⟨hdrop.trans (List.suffix_cons _ pc), ?_, fun hlt => ?_⟩
        · rw [List.length_cons]
          omega
        · exact absurd hle (UInt8.not_le.mpr hlt)
    · obtain ⟨rfl, rfl, rfl⟩ : _ ∧ _ ∧ _ := by simpa using h
      exact ⟨List.suffix_cons _ _, Nat.lt_succ_self _, fun _ => rfl⟩

/-- `operator<<` of bytes: the instruction that pushes them. -/
def Script.pushBytes (b : List UInt8) : Script :=
  if b.length < opPushData1.toNat then .ofNat b.length :: b
  else if b.length ≤ 0xff then opPushData1 :: .ofNat b.length :: b
  else if b.length ≤ 0xffff then opPushData2 :: littleEndian 2 b.length ++ b
  else opPushData4 :: littleEndian 4 b.length ++ b

def Script.isPayToScriptHash (script : Script) : Bool :=
  script.length = 23 && script[0]? = some 0xa9 && script[1]? = some 0x14 &&
    script[22]? = some 0x87

/-- `IsPushOnly`. Each round takes off at least a byte. -/
def pushOnlyFrom : ℕ → Script → Bool
  | fuel + 1, pc =>
    if pc = [] then true
    else
      match getOp pc with
      | none => false
      | some (opcode, _, pc) => opcode ≤ op16 && pushOnlyFrom fuel pc
  | 0, _ => true

def Script.isPushOnly (script : Script) : Bool := pushOnlyFrom script.length script

/-- The loop of `FindAndDelete` from an instruction on. Each round takes off at least a byte. -/
def deleteFrom (b : Script) : ℕ → Script → Script
  | fuel + 1, pc =>
    if b.isPrefixOf pc then deleteFrom b fuel (pc.drop b.length)
    else
      match getOp pc with
      | some (_, _, rest) => pc.take (pc.length - rest.length) ++ deleteFrom b fuel rest
      | none => pc
  | 0, pc => pc

def Script.findAndDelete (script b : Script) : Script :=
  if b.isEmpty then script else deleteFrom b script.length script

theorem isPrefixOf_nil {b : Script} (hb : b ≠ []) : b.isPrefixOf [] = false := by
  cases b with
  | nil => exact absurd rfl hb
  | cons x b => rfl

theorem deleteFrom_fuel {b : Script} (hb : b ≠ []) {fuel fuel' : ℕ} {pc : Script}
    (h : pc.length ≤ fuel) (h' : pc.length ≤ fuel') :
    deleteFrom b fuel pc = deleteFrom b fuel' pc := by
  have hblen : 0 < b.length := List.length_pos_iff.mpr hb
  have hnil : ∀ fuel, deleteFrom b fuel [] = [] := by
    intro fuel
    cases fuel with
    | zero => rfl
    | succ fuel =>
      rw [deleteFrom, isPrefixOf_nil hb, if_neg Bool.false_ne_true]
      rfl
  induction fuel generalizing fuel' pc with
  | zero =>
    obtain rfl := List.length_eq_zero_iff.mp (Nat.le_zero.mp h)
    rw [hnil, hnil]
  | succ fuel ih =>
    cases fuel' with
    | zero =>
      obtain rfl := List.length_eq_zero_iff.mp (Nat.le_zero.mp h')
      rw [hnil, hnil]
    | succ fuel' =>
      rw [deleteFrom, deleteFrom]
      split
      · have hlen := (List.length_drop : (pc.drop b.length).length = _)
        exact ih (by omega) (by omega)
      · split
        · rename_i hop
          have hlt := (getOp_eq_some hop).2.1
          exact congrArg _ (ih (by omega) (by omega))
        · rfl

theorem Script.findAndDelete_eq {b : Script} (hb : b ≠ []) (script : Script) :
    script.findAndDelete b =
      if b.isPrefixOf script then findAndDelete (script.drop b.length) b
      else
        match getOp script with
        | some (_, _, rest) => script.take (script.length - rest.length) ++ findAndDelete rest b
        | none => script := by
  have hempty : b.isEmpty = false := by
    cases b with
    | nil => exact absurd rfl hb
    | cons x b => rfl
  have hblen : 0 < b.length := List.length_pos_iff.mpr hb
  simp only [findAndDelete, hempty, Bool.false_eq_true, if_false]
  rw [deleteFrom_fuel hb (Nat.le_refl _) (Nat.le_succ _), deleteFrom]
  split
  · exact deleteFrom_fuel hb (by rw [List.length_drop]; omega) (Nat.le_refl _)
  · split
    · rename_i hop
      rw [deleteFrom_fuel hb (getOp_eq_some hop).2.1.le (Nat.le_refl _)]
    · rfl

theorem length_deleteFrom_le (b : Script) (fuel : ℕ) (pc : Script) :
    (deleteFrom b fuel pc).length ≤ pc.length := by
  induction fuel generalizing pc with
  | zero => exact Nat.le_refl _
  | succ fuel ih =>
    rw [deleteFrom]
    split
    · have hle := ih (pc.drop b.length)
      rw [List.length_drop] at hle
      omega
    · split
      · rename_i rest hop
        have hle := ih rest
        have hlt := (getOp_eq_some hop).2.1
        rw [List.length_append, List.length_take]
        omega
      · exact Nat.le_refl _

theorem Script.length_findAndDelete_le (script b : Script) :
    (script.findAndDelete b).length ≤ script.length := by
  unfold findAndDelete
  split
  · exact Nat.le_refl _
  · exact length_deleteFrom_le b _ script

end Beancash
