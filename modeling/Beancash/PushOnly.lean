import Beancash.CombineSignatures

namespace Beancash

open ByteStream StackMachine

/-- What an instruction up to `OP_16` pushes. `OP_RESERVED` is one of them and pushes nothing. -/
def pushedBy (opcode : UInt8) (vch : List UInt8) : Option (List UInt8) :=
  if opcode ≤ opPushData4 then some vch
  else if opcode = op1Negate ∨ op1 ≤ opcode then
    some (signedVch ((opcode.toNat : ℤ) - (op1.toNat - 1)))
  else none

theorem fits_of_pushedBy {opcode : UInt8} {vch b : List UInt8} (hvch : Fits vch)
    (h : pushedBy opcode vch = some b) : Fits b := by
  unfold pushedBy at h
  split_ifs at h
  · cases h
    exact hvch
  · cases h
    have hlt := opcode.toNat_lt
    have hop1 : op1.toNat = 0x51 := rfl
    exact fits_signedVch (by omega)

section Run

variable {input input' : ScriptInput} {s s' : EvalState} {opcode : UInt8} {vch rest : List UInt8}

theorem toOpcode_eq_none {opcode : UInt8} (hpush : ¬opcode ≤ opPushData4) (hle : opcode ≤ op16)
    (hnumber : ¬(opcode = op1Negate ∨ op1 ≤ opcode)) : toOpcode opcode = none := by
  have hall : ∀ n : ℕ, n < 256 → ¬(UInt8.ofNat n ≤ opPushData4) → UInt8.ofNat n ≤ op16 →
      ¬(UInt8.ofNat n = op1Negate ∨ op1 ≤ UInt8.ofNat n) →
        (toOpcode (UInt8.ofNat n)).isNone = true := by
    decide +kernel
  have hopcode := hall opcode.toNat opcode.toNat_lt
  rw [UInt8.ofNat_toNat] at hopcode
  exact Option.isNone_iff_eq_none.mp (hopcode hpush hle hnumber)

theorem toOpcode_number {opcode : UInt8} (hle : opcode ≤ op16)
    (hnumber : opcode = op1Negate ∨ op1 ≤ opcode) :
    toOpcode opcode = some (.onStack (.opNumber opcode)) :=
  if_pos (hnumber.imp_right fun hlo => ⟨hlo, hle⟩)

theorem evalInstruction_push (hexec : s.vfExec = []) (hle : opcode ≤ op16) :
    evalInstruction input s opcode vch =
      (pushedBy opcode vch).elim (.error .refused) fun b =>
        .ok { s with stack := b :: s.stack } := by
  obtain ⟨pc, pbegincodehash, stack, altstack, vfExec, nOpCount⟩ := s
  obtain rfl : vfExec = [] := hexec
  unfold evalInstruction pushedBy
  simp only [List.all_nil, Bool.true_and, Bool.true_or, if_true, decide_eq_true_eq]
  split
  · rfl
  · rename_i hpush
    by_cases hnumber : opcode = op1Negate ∨ op1 ≤ opcode
    · rw [toOpcode_number hle hnumber, if_pos hnumber]
      rfl
    · rw [toOpcode_eq_none hpush hle hnumber, if_neg hnumber]
      rfl

theorem evalStep_pushOnly (hexec : s.vfExec = []) (hop : getOp s.pc = some (opcode, vch, rest))
    (hle : opcode ≤ op16) : evalStep input s = (do
      require (vch.length ≤ maxScriptElementSize)
      let b ← (pushedBy opcode vch).elim (.error .refused) .ok
      require ((b :: s.stack).length + s.altstack.length ≤ 1000)
      return { s with pc := rest, stack := b :: s.stack }) := by
  have h16 : ¬op16 < opcode := UInt8.not_lt.mpr hle
  unfold evalStep
  rw [hop]
  dsimp only
  rw [if_neg h16, require_of (fun h => absurd h h16), require_of (notMem_disabledOpcodes hle),
    evalInstruction_push (show ({ s with pc := rest } : EvalState).vfExec = [] from hexec) hle]
  cases pushedBy opcode vch <;> rfl

theorem pushOnlyFrom_succ {fuel : ℕ} {pc : Script} (hend : pc ≠ [])
    (h : pushOnlyFrom (fuel + 1) pc = true) :
    ∃ opcode vch rest, getOp pc = some (opcode, vch, rest) ∧ opcode ≤ op16 ∧
      pushOnlyFrom fuel rest = true := by
  rw [pushOnlyFrom, if_neg hend] at h
  cases hop : getOp pc with
  | none =>
    rw [hop] at h
    cases h
  | some r =>
    obtain ⟨opcode, vch, rest⟩ := r
    rw [hop] at h
    obtain ⟨hle, hrest⟩ := Bool.and_eq_true_iff.mp h
    exact ⟨opcode, vch, rest, rfl, of_decide_eq_true hle, hrest⟩

theorem returns_evalStep_pushOnly (hexec : s.vfExec = [])
    (hop : getOp s.pc = some (opcode, vch, rest)) (hle : opcode ≤ op16) :
    Returns (fun s' => s'.vfExec = [] ∧ s'.pc = rest ∧ ∃ b, Fits b ∧ s'.stack = b :: s.stack)
      (evalStep input s) := by
  rw [evalStep_pushOnly hexec hop hle]
  apply Returns.require_bind
  intro hvch
  cases hb : pushedBy opcode vch with
  | none => exact .error _
  | some b =>
    change Returns _ (require ((b :: s.stack).length + s.altstack.length ≤ 1000) >>= _)
    apply Returns.require_bind
    intro _
    exact .pure ⟨hexec, rfl, b, fits_of_pushedBy hvch hb, rfl⟩

theorem evalLoop_pushOnly {fuel : ℕ} (hexec : s.vfExec = [])
    (hpush : pushOnlyFrom fuel s.pc = true) :
    evalLoop input fuel s = evalLoop input' fuel s := by
  induction fuel generalizing s with
  | zero => rfl
  | succ fuel ih =>
    rw [evalLoop, evalLoop]
    split
    · rfl
    · rename_i hend
      obtain ⟨opcode, vch, rest, hop, hle, hrest⟩ := pushOnlyFrom_succ hend hpush
      have hreturns : Returns _ (evalStep input s) := returns_evalStep_pushOnly hexec hop hle
      have hstep : evalStep input s = evalStep input' s := by
        rw [evalStep_pushOnly hexec hop hle, evalStep_pushOnly hexec hop hle]
      rw [← hstep]
      cases ht : evalStep input s with
      | error halt => rfl
      | ok t =>
        obtain ⟨htexec, htpc, _⟩ := hreturns t ht
        exact ih htexec (by rwa [htpc])

theorem fits_leftByStep (hexec : s.vfExec = []) (hop : getOp s.pc = some (opcode, vch, rest))
    (hle : opcode ≤ op16) (hfits : ∀ b ∈ s.stack, Fits b) :
    ∀ b ∈ leftByStep input s, Fits b := by
  have h16 : ¬op16 < opcode := UInt8.not_lt.mpr hle
  unfold leftByStep
  rw [hop]
  dsimp only
  rw [if_neg h16, evalInstruction_push (show ({ s with pc := rest } : EvalState).vfExec = []
    from hexec) hle]
  split
  · exact hfits
  · rename_i hchecks
    have hvch : Fits vch := Nat.not_lt.mp fun hlt => hchecks (Or.inl hlt)
    cases hb : pushedBy opcode vch with
    | some b =>
      intro b' hb'
      rcases List.mem_cons.mp hb' with rfl | hb'
      · exact fits_of_pushedBy hvch hb
      · exact hfits b' hb'
    | none =>
      have hnone : toOpcode opcode = none := by
        unfold pushedBy at hb
        split_ifs at hb with hpush hnumber
        exact toOpcode_eq_none hpush hle hnumber
      rw [hnone]
      exact hfits

theorem fits_leftByLoop {fuel : ℕ} (hexec : s.vfExec = []) (hpush : pushOnlyFrom fuel s.pc = true)
    (hfits : ∀ b ∈ s.stack, Fits b) : ∀ b ∈ leftByLoop input fuel s, Fits b := by
  induction fuel generalizing s with
  | zero => exact hfits
  | succ fuel ih =>
    rw [leftByLoop]
    split
    · exact hfits
    · rename_i hend
      obtain ⟨opcode, vch, rest, hop, hle, hrest⟩ := pushOnlyFrom_succ hend hpush
      have hreturns : Returns _ (evalStep input s) := returns_evalStep_pushOnly hexec hop hle
      cases ht : evalStep input s with
      | error halt => exact fits_leftByStep hexec hop hle hfits
      | ok t =>
        obtain ⟨htexec, htpc, b, hb, hstack⟩ := hreturns t ht
        apply ih htexec (by rwa [htpc])
        rw [hstack]
        exact List.forall_mem_cons.mpr ⟨hb, hfits⟩

end Run

section Scripts

variable {scriptSig : Script}

theorem evalScript_pushOnly (hpush : scriptSig.isPushOnly = true) (input input' : ScriptInput)
    (stack : Stack) : evalScript input stack scriptSig = evalScript input' stack scriptSig := by
  have hloop : evalLoop input scriptSig.length (.start stack scriptSig) =
      evalLoop input' scriptSig.length (.start stack scriptSig) := evalLoop_pushOnly rfl hpush
  unfold evalScript evalThrowing
  rw [hloop]

theorem fits_scriptPushes (c : Crypto) (hpush : scriptSig.isPushOnly = true) :
    ∀ b ∈ scriptPushes c scriptSig, Fits b := by
  intro b hb
  have hmem : b ∈ evalStack ⟨c, .empty, 0, 0⟩ [] scriptSig := List.mem_reverse.mp hb
  unfold evalStack at hmem
  split at hmem
  · cases hmem
  · exact fits_leftByLoop (s := .start [] scriptSig) rfl hpush (fun _ h => nomatch h) b hmem

theorem reverse_scriptPushes {input : ScriptInput} {stack : Stack}
    (hpush : scriptSig.isPushOnly = true) (h : evalScript input [] scriptSig = some stack) :
    (scriptPushes input.crypto scriptSig).reverse = stack := by
  rw [evalScript_pushOnly hpush input ⟨input.crypto, .empty, 0, 0⟩] at h
  rw [scriptPushes, List.reverse_reverse, evalStack_of_evalScript h]

end Scripts

end Beancash
