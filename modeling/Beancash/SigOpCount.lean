import Beancash.TemplateRuns

namespace Beancash

open StackMachine

/-- `DecodeOP_N` of `OP_1` to `OP_16` -/
def decodeOpN (opcode : UInt8) : ℕ := opcode.toNat - (op1.toNat - 1)

/-- What one instruction adds to the count, after the instruction before it. -/
def sigOpsOf (fAccurate : Bool) (lastOpcode opcode : UInt8) : ℕ :=
  if opcode = 0xac ∨ opcode = 0xad then 1
  else if opcode = 0xae ∨ opcode = 0xaf then
    if fAccurate && op1 ≤ lastOpcode && lastOpcode ≤ op16 then decodeOpN lastOpcode else 20
  else 0

/-- The loop of `GetSigOpCount`. Each round takes off at least a byte. -/
def sigOpLoop (fAccurate : Bool) : ℕ → UInt8 → UInt32 → Script → UInt32
  | fuel + 1, lastOpcode, n, pc =>
    if pc = [] then n
    else
      match getOp pc with
      | none => n
      | some (opcode, _, pc) =>
        sigOpLoop fAccurate fuel opcode (n + .ofNat (sigOpsOf fAccurate lastOpcode opcode)) pc
  | 0, _, n, _ => n

/-- `GetSigOpCount(fAccurate)` -/
def Script.getSigOpCount (script : Script) (fAccurate : Bool) : UInt32 :=
  sigOpLoop fAccurate script.length opInvalidOpcode 0 script

/-- What the last instruction of a script pushes; none where the script is cut off or does
anything but push. -/
def lastPush : ℕ → List UInt8 → Script → Option (List UInt8)
  | fuel + 1, data, pc =>
    if pc = [] then some data
    else
      match getOp pc with
      | none => none
      | some (opcode, data, pc) => if op16 < opcode then none else lastPush fuel data pc
  | 0, data, _ => some data

/-- `GetSigOpCount(scriptSig)` -/
def Script.getSigOpCountOf (script scriptSig : Script) : UInt32 :=
  if !script.isPayToScriptHash then script.getSigOpCount true
  else
    match lastPush scriptSig.length [] scriptSig with
    | none => 0
    | some subscript => Script.getSigOpCount subscript true

/-- Whether the opcodes get as far as `CheckSig` with a signature and a key. -/
def callsCheckSig (vchSig vchPubKey : List UInt8) : Bool :=
  isCanonicalSignature vchSig && isCanonicalPubKey vchPubKey

/-- The calls of `OP_CHECKSIG` and `OP_CHECKSIGVERIFY`. -/
def checkSigCallsOnce (stack : Stack) : ScriptEval ℕ := do
  require (2 ≤ stack.length)
  let vchSig ← stacktop stack (-2)
  let vchPubKey ← stacktop stack (-1)
  return (callsCheckSig vchSig vchPubKey).toNat

/-- The calls of the loop of `OP_CHECKMULTISIG`. -/
def checkSigsCalls (good : List UInt8 → List UInt8 → Bool) (stack : Stack) :
    (nKeysCount nSigsCount isig ikey : ℕ) → ScriptEval ℕ
  | _, 0, _, _ => return 0
  | 0, _ + 1, isig, ikey => do
    let vchSig ← stacktop stack (-isig)
    let vchPubKey ← stacktop stack (-ikey)
    return (callsCheckSig vchSig vchPubKey).toNat
  | nKeysCount + 1, nSigsCount + 1, isig, ikey => do
    let vchSig ← stacktop stack (-isig)
    let vchPubKey ← stacktop stack (-ikey)
    let calls := (callsCheckSig vchSig vchPubKey).toNat
    if good vchSig vchPubKey then
      if nKeysCount < nSigsCount then return calls
      else
        let rest ← checkSigsCalls good stack nKeysCount nSigsCount (isig + 1) (ikey + 1)
        return calls + rest
    else
      if nKeysCount < nSigsCount + 1 then return calls
      else
        let rest ← checkSigsCalls good stack nKeysCount (nSigsCount + 1) isig (ikey + 1)
        return calls + rest

/-- The calls of `OP_CHECKMULTISIG` and `OP_CHECKMULTISIGVERIFY`. -/
def checkMultiSigCalls (input : ScriptInput) (codehash : Script) (stack : Stack) (nOpCount : ℕ) :
    ScriptEval ℕ := do
  require (1 ≤ stack.length)
  let vchKeysCount ← stacktop stack (-1)
  let bnKeysCount ← castToBigNum vchKeysCount
  require (0 ≤ getint bnKeysCount ∧ getint bnKeysCount ≤ 20)
  let nKeysCount := (getint bnKeysCount).toNat
  let nOpCount := nOpCount + nKeysCount
  require (nOpCount ≤ 201)
  let ikey := 2
  let i := ikey + nKeysCount
  require (i ≤ stack.length)
  let vchSigsCount ← stacktop stack (-i)
  let bnSigsCount ← castToBigNum vchSigsCount
  require (0 ≤ getint bnSigsCount ∧ getint bnSigsCount ≤ nKeysCount)
  let nSigsCount := (getint bnSigsCount).toNat
  let isig := i + 1
  let i := isig + nSigsCount
  require (i ≤ stack.length)
  let scriptCode ← dropSigs stack isig nSigsCount codehash
  checkSigsCalls (input.goodSig scriptCode) stack nKeysCount nSigsCount isig ikey

/-- The calls that a case of the switch makes. -/
def callsByOpcode (input : ScriptInput) (s : EvalState) : Opcode → ScriptEval ℕ
  | .opCheckSig => checkSigCallsOnce s.stack
  | .opCheckSigVerify => checkSigCallsOnce s.stack
  | .opCheckMultiSig => checkMultiSigCalls input s.pbegincodehash s.stack s.nOpCount
  | .opCheckMultiSigVerify => checkMultiSigCalls input s.pbegincodehash s.stack s.nOpCount
  | _ => return 0

/-- The calls of an instruction; nothing that is pushed or passed over makes any. -/
def callsByInstruction (input : ScriptInput) (s : EvalState) (opcode : UInt8) : ScriptEval ℕ :=
  let fExec := s.vfExec.all id
  if fExec && opcode ≤ opPushData4 then return 0
  else if fExec || (opIfByte ≤ opcode && opcode ≤ opEndIfByte) then
    match toOpcode opcode with
    | some op => callsByOpcode input s op
    | none => return 0
  else return 0

/-- The calls of a round of the loop, also of one that fails after them. -/
def callsByStep (input : ScriptInput) (s : EvalState) : ScriptEval ℕ :=
  match getOp s.pc with
  | none => return 0
  | some (opcode, vchPushValue, pc) => do
    require (vchPushValue.length ≤ maxScriptElementSize)
    let nOpCount := if op16 < opcode then s.nOpCount + 1 else s.nOpCount
    require (op16 < opcode → nOpCount ≤ 201)
    require (opcode ∉ disabledOpcodes)
    callsByInstruction input { s with pc, nOpCount } opcode

/-- The number that was asked for; a round that fails before its calls makes none. -/
def madeCalls : ScriptEval ℕ → ℕ
  | .ok calls => calls
  | .error _ => 0

/-- The calls of the loop, up to its end or to the round that fails. -/
def callsByLoop (input : ScriptInput) : ℕ → EvalState → ℕ
  | fuel + 1, s =>
    if s.pc = [] then 0
    else
      madeCalls (callsByStep input s) +
        match evalStep input s with
        | .ok s => callsByLoop input fuel s
        | .error _ => 0
  | 0, _ => 0

/-- The calls of `CheckSig` that `EvalScript` makes, whether it returns true or not. -/
def evalScriptCalls (input : ScriptInput) (stack : Stack) (script : Script) : ℕ :=
  if script.length ≤ 10000 then callsByLoop input script.length (.start stack script) else 0

/-- The calls that `VerifyScript` makes for the script behind a hash. -/
def redeemScriptCalls (input : ScriptInput) (scriptSig scriptPubKey : Script) : ℕ :=
  match evalScript input [] scriptSig with
  | none => 0
  | some stackCopy =>
    match evalScript input stackCopy scriptPubKey with
    | none => 0
    | some [] => 0
    | some (back :: _) =>
      if !castToBool back then 0
      else if scriptPubKey.isPayToScriptHash then
        if !scriptSig.isPushOnly then 0
        else
          match stackCopy with
          | pubKeySerialized :: stackCopy => evalScriptCalls input stackCopy pubKeySerialized
          | [] => 0
      else 0

theorem decodeOpN_le {opcode : UInt8} (h : opcode ≤ op16) : decodeOpN opcode ≤ 16 := by
  have hnat : opcode.toNat ≤ 96 := h
  change opcode.toNat - 80 ≤ 16
  omega

theorem sigOpsOf_le (fAccurate : Bool) (lastOpcode opcode : UInt8) :
    sigOpsOf fAccurate lastOpcode opcode ≤ 20 := by
  unfold sigOpsOf
  split_ifs with _ _ h
  · decide
  · simp only [Bool.and_eq_true, decide_eq_true_eq] at h
    exact (decodeOpN_le h.2).trans (by decide)
  · exact Nat.le_refl _
  · exact Nat.zero_le _

/-- What the instructions of a script add, without the width of the counter. -/
def sigOps (fAccurate : Bool) : ℕ → UInt8 → Script → ℕ
  | fuel + 1, lastOpcode, pc =>
    if pc = [] then 0
    else
      match getOp pc with
      | none => 0
      | some (opcode, _, pc) =>
        sigOpsOf fAccurate lastOpcode opcode + sigOps fAccurate fuel opcode pc
  | 0, _, _ => 0

theorem toNat_sigOpLoop (fAccurate : Bool) {fuel : ℕ} {n : UInt32}
    (h : n.toNat + 20 * fuel < 2 ^ 32) (lastOpcode : UInt8) (pc : Script) :
    (sigOpLoop fAccurate fuel lastOpcode n pc).toNat =
      n.toNat + sigOps fAccurate fuel lastOpcode pc := by
  induction fuel generalizing n lastOpcode pc with
  | zero => rfl
  | succ fuel ih =>
    rw [sigOpLoop, sigOps]
    split
    · rfl
    · split
      · rfl
      · rename_i opcode _ rest _
        have hop := sigOpsOf_le fAccurate lastOpcode opcode
        have hadd : (n + .ofNat (sigOpsOf fAccurate lastOpcode opcode)).toNat =
            n.toNat + sigOpsOf fAccurate lastOpcode opcode := by
          rw [UInt32.toNat_add, UInt32.toNat_ofNat_of_lt' (by change _ < 2 ^ 32; omega)]
          exact Nat.mod_eq_of_lt (by omega)
        rw [ih (by rw [hadd]; omega), hadd, Nat.add_assoc]

theorem Script.toNat_getSigOpCount {script : Script} (h : 20 * script.length < 2 ^ 32)
    (fAccurate : Bool) : (script.getSigOpCount fAccurate).toNat =
      sigOps fAccurate script.length opInvalidOpcode script := by
  rw [getSigOpCount, toNat_sigOpLoop fAccurate (by change 0 + _ < _; omega)]
  exact Nat.zero_add _

theorem toNat_sigOpLoop_le (fAccurate : Bool) (fuel : ℕ) (n : UInt32) (lastOpcode : UInt8)
    (pc : Script) : (sigOpLoop fAccurate fuel lastOpcode n pc).toNat ≤ n.toNat + 20 * fuel := by
  induction fuel generalizing n lastOpcode pc with
  | zero => exact Nat.le_refl _
  | succ fuel ih =>
    rw [sigOpLoop]
    split
    · omega
    · split
      · omega
      · rename_i opcode _ rest _
        have hop := sigOpsOf_le fAccurate lastOpcode opcode
        have hrest := ih (n + .ofNat (sigOpsOf fAccurate lastOpcode opcode)) opcode rest
        rw [UInt32.toNat_add, UInt32.toNat_ofNat_of_lt' (by change _ < 2 ^ 32; omega)] at hrest
        have hmod := Nat.mod_le (n.toNat + sigOpsOf fAccurate lastOpcode opcode) (2 ^ 32)
        omega

theorem Script.getSigOpCount_le (script : Script) (fAccurate : Bool) :
    (script.getSigOpCount fAccurate).toNat ≤ 20 * script.length := by
  have hle := toNat_sigOpLoop_le fAccurate script.length 0 opInvalidOpcode script
  rw [show (0 : UInt32).toNat = 0 from rfl, Nat.zero_add] at hle
  exact hle

theorem length_vch_of_getOp {pc rest : Script} {opcode : UInt8} {vch : List UInt8}
    (hop : getOp pc = some (opcode, vch, rest)) : vch.length + rest.length < pc.length := by
  cases pc with
  | nil => cases hop
  | cons opcode' pc =>
    rw [getOp] at hop
    split at hop
    · obtain ⟨⟨nSize, pc'⟩, hsize, hop⟩ := Option.bind_eq_some_iff.mp hop
      have hlen := (suffix_of_pushSize hsize).length_le
      dsimp only at hop
      split at hop
      · cases hop
      · obtain ⟨_, rfl, rfl⟩ : _ ∧ _ ∧ _ := by simpa using hop
        rw [List.length_cons, List.length_take, List.length_drop]
        omega
    · obtain ⟨_, rfl, rfl⟩ : _ ∧ _ ∧ _ := by simpa using hop
      rw [List.length_cons, List.length_nil]
      omega

theorem length_lastPush {fuel : ℕ} {data data' : List UInt8} {pc : Script} {n : ℕ}
    (h : lastPush fuel data pc = some data') (hdata : data.length ≤ n) (hpc : pc.length ≤ n) :
    data'.length ≤ n := by
  induction fuel generalizing data pc with
  | zero =>
    obtain rfl := Option.some_injective _ h
    exact hdata
  | succ fuel ih =>
    rw [lastPush] at h
    split at h
    · obtain rfl := Option.some_injective _ h
      exact hdata
    · split at h
      · cases h
      · rename_i hop
        have hlen := length_vch_of_getOp hop
        split at h
        · cases h
        · exact ih h (by omega) (by omega)

/-- The count behind a hash is bounded by the `scriptSig` that the script stands in. -/
theorem Script.getSigOpCountOf_le {scriptPubKey : Script}
    (hhash : scriptPubKey.isPayToScriptHash = true) (scriptSig : Script) :
    (scriptPubKey.getSigOpCountOf scriptSig).toNat ≤ 20 * scriptSig.length := by
  rw [getSigOpCountOf, hhash]
  rw [if_neg (by decide)]
  split
  · exact Nat.zero_le _
  · rename_i subscript h
    have hlen := length_lastPush h (Nat.zero_le _) (Nat.le_refl _)
    have hle := Script.getSigOpCount_le subscript true
    omega

theorem madeCalls_le {x : ScriptEval ℕ} {k : ℕ} (h : Returns (· ≤ k) x) : madeCalls x ≤ k := by
  cases x with
  | ok calls => exact h calls rfl
  | error halt => exact Nat.zero_le _

theorem checkSigCallsOnce_le (stack : Stack) : Returns (· ≤ 1) (checkSigCallsOnce stack) :=
  .after fun _ => .after fun _ => .after fun _ => .pure (Bool.toNat_le _)

theorem checkSigsCalls_le (good : List UInt8 → List UInt8 → Bool) (stack : Stack)
    {nKeysCount nSigsCount : ℕ} (h : nSigsCount ≤ nKeysCount) (isig ikey : ℕ) :
    Returns (· ≤ nKeysCount) (checkSigsCalls good stack nKeysCount nSigsCount isig ikey) := by
  induction nKeysCount generalizing nSigsCount isig ikey with
  | zero =>
    obtain rfl := Nat.le_zero.mp h
    exact .pure (Nat.le_refl _)
  | succ nKeysCount ih =>
    cases nSigsCount with
    | zero => exact .pure (Nat.zero_le _)
    | succ nSigsCount =>
      refine .after fun vchSig => .after fun vchPubKey => ?_
      have hcall := Bool.toNat_le (callsCheckSig vchSig vchPubKey)
      have hadd : ∀ rest, rest ≤ nKeysCount →
          (callsCheckSig vchSig vchPubKey).toNat + rest ≤ nKeysCount + 1 := by
        intro rest hrest
        omega
      dsimp only
      split
      · split
        · exact .pure (hadd 0 (Nat.zero_le _))
        · exact (ih (by omega) _ _).bind fun rest hrest => .pure (hadd rest hrest)
      · split
        · exact .pure (hadd 0 (Nat.zero_le _))
        · exact (ih (by omega) _ _).bind fun rest hrest => .pure (hadd rest hrest)

theorem checkMultiSigCalls_le (input : ScriptInput) (codehash : Script) {stack : Stack}
    (nOpCount : ℕ) {k : ℕ} (h : ∀ vch bn, stacktop stack (-1) = .ok vch →
      castToBigNum vch = .ok bn → getint bn ≤ 20 → getint bn ≤ k) :
    Returns (· ≤ k) (checkMultiSigCalls input codehash stack nOpCount) := by
  refine .after fun _ => (Returns.self _).bind fun vch hvch => ?_
  refine (Returns.self _).bind fun bn hbn => ?_
  refine .require_bind fun hkeys => .after fun _ => .after fun _ => .after fun _ => ?_
  refine .after fun bnSigsCount => .require_bind fun hsigs => .after fun _ => .after fun _ => ?_
  have hle := h vch bn hvch hbn hkeys.2
  intro calls hcalls
  have hcount : calls ≤ (getint bn).toNat :=
    checkSigsCalls_le _ stack (by omega) _ _ calls hcalls
  omega

def Opcode.checksSig : Opcode → Bool
  | .opCheckSig | .opCheckSigVerify => true
  | _ => false

def Opcode.checksMultiSig : Opcode → Bool
  | .opCheckMultiSig | .opCheckMultiSigVerify => true
  | _ => false

/-- The count looks for the opcodes that the switch has the signature checks at. -/
theorem sigOpsOf_of_toOpcode (fAccurate : Bool) (lastOpcode : UInt8) {opcode : UInt8} {op : Opcode}
    (h : toOpcode opcode = some op) : sigOpsOf fAccurate lastOpcode opcode =
      if op.checksSig then 1
      else if op.checksMultiSig then
        if fAccurate && op1 ≤ lastOpcode && lastOpcode ≤ op16 then decodeOpN lastOpcode else 20
      else 0 := by
  have hchecks : (decide (opcode = 0xac ∨ opcode = 0xad) = op.checksSig) ∧
      (decide (opcode = 0xae ∨ opcode = 0xaf) = op.checksMultiSig) := by
    unfold toOpcode at h
    split at h
    · rename_i hnumber
      obtain rfl := Option.some_injective _ h
      -- a number is not one of the four opcodes
      have hne : ∀ o : UInt8, op16 < o → opcode ≠ o := by
        rintro o ho rfl
        rcases hnumber with rfl | ⟨-, hle⟩
        · exact absurd ho (by decide)
        · exact absurd hle (UInt8.not_le.mpr ho)
      exact ⟨decide_eq_false (not_or.mpr ⟨hne _ (by decide), hne _ (by decide)⟩),
        decide_eq_false (not_or.mpr ⟨hne _ (by decide), hne _ (by decide)⟩)⟩
    · have hall : opcodes.all (fun e =>
          (decide (e.1 = 0xac ∨ e.1 = 0xad) == e.2.checksSig) &&
            (decide (e.1 = 0xae ∨ e.1 = 0xaf) == e.2.checksMultiSig)) = true := by
        decide +kernel
      obtain ⟨l, l', heq, -⟩ := List.lookup_eq_some_iff.mp h
      have hop := List.all_eq_true.mp hall (opcode, op)
        (heq ▸ List.mem_append_right _ List.mem_cons_self)
      rwa [Bool.and_eq_true, beq_iff_eq, beq_iff_eq] at hop
  rw [sigOpsOf, ← hchecks.1, ← hchecks.2]
  simp only [decide_eq_true_eq]

/-- Where the instruction before was a number that has been pushed, it is on top of the stack. -/
def NumberOnTop (lastOpcode : UInt8) (s : EvalState) : Prop :=
  op1 ≤ lastOpcode → lastOpcode ≤ op16 → s.vfExec.all id = true →
    ∃ vch, stacktop s.stack (-1) = .ok vch ∧ CountIs vch (decodeOpN lastOpcode)

section Calls

variable (input : ScriptInput) {s : EvalState} {fAccurate : Bool} {lastOpcode opcode : UInt8}

theorem checkMultiSigCalls_le_sigOps
    (htop : fAccurate = true → NumberOnTop lastOpcode s) (hexec : s.vfExec.all id = true) :
    Returns (· ≤ if fAccurate && op1 ≤ lastOpcode && lastOpcode ≤ op16
      then decodeOpN lastOpcode else 20)
      (checkMultiSigCalls input s.pbegincodehash s.stack s.nOpCount) := by
  apply checkMultiSigCalls_le
  intro vch bn hvch hbn h20
  split
  · rename_i h
    simp only [Bool.and_eq_true, decide_eq_true_eq] at h
    obtain ⟨vch', hvch', bn', hbn', hcount⟩ := htop h.1.1 h.1.2 h.2 hexec
    obtain rfl := Except.ok.inj (hvch.symm.trans hvch')
    obtain rfl := Except.ok.inj (hbn.symm.trans hbn')
    exact hcount.le
  · exact h20

theorem callsByOpcode_le {op : Opcode} (h : toOpcode opcode = some op)
    (htop : fAccurate = true → NumberOnTop lastOpcode s) (hexec : s.vfExec.all id = true) :
    Returns (· ≤ sigOpsOf fAccurate lastOpcode opcode) (callsByOpcode input s op) := by
  rw [sigOpsOf_of_toOpcode fAccurate lastOpcode h]
  have hmulti := checkMultiSigCalls_le_sigOps input htop hexec
  cases op with
  | opCheckSig => exact checkSigCallsOnce_le s.stack
  | opCheckSigVerify => exact checkSigCallsOnce_le s.stack
  | opCheckMultiSig => exact hmulti
  | opCheckMultiSigVerify => exact hmulti
  | _ => exact .pure (Nat.zero_le _)

theorem callsByOpcode_conditional {op : Opcode} (h : toOpcode opcode = some op)
    (hendif : opcode ≤ opEndIfByte) : callsByOpcode input s op = .ok 0 := by
  have hadds := sigOpsOf_of_toOpcode false 0 h
  have hne : ∀ o : UInt8, opEndIfByte < o → opcode ≠ o := by
    rintro o ho rfl
    exact absurd hendif (UInt8.not_le.mpr ho)
  rw [sigOpsOf, if_neg (by simp [hne 0xac (by decide), hne 0xad (by decide)]),
    if_neg (by simp [hne 0xae (by decide), hne 0xaf (by decide)])] at hadds
  cases op with
  | opCheckSig => cases hadds
  | opCheckSigVerify => cases hadds
  | opCheckMultiSig => cases hadds
  | opCheckMultiSigVerify => cases hadds
  | _ => rfl

theorem callsByInstruction_le (htop : fAccurate = true → NumberOnTop lastOpcode s) :
    Returns (· ≤ sigOpsOf fAccurate lastOpcode opcode) (callsByInstruction input s opcode) := by
  unfold callsByInstruction
  dsimp only
  split
  · exact .pure (Nat.zero_le _)
  · split
    · rename_i h
      split
      · rename_i op hop
        by_cases hexec : s.vfExec.all id = true
        · exact callsByOpcode_le input hop htop hexec
        · simp only [hexec, Bool.false_or, Bool.and_eq_true, decide_eq_true_eq] at h
          rw [callsByOpcode_conditional input hop h.2]
          exact .pure (Nat.zero_le _)
      · exact .pure (Nat.zero_le _)
    · exact .pure (Nat.zero_le _)

theorem callsByStep_le {vch : List UInt8} {pc : Script} (hop : getOp s.pc = some (opcode, vch, pc))
    (htop : fAccurate = true → NumberOnTop lastOpcode s) :
    Returns (· ≤ sigOpsOf fAccurate lastOpcode opcode) (callsByStep input s) := by
  unfold callsByStep
  rw [hop]
  exact .after fun _ => .after fun _ => .after fun _ => callsByInstruction_le input htop

theorem numberOnTop_evalInstruction (vch : List UInt8) :
    Returns (NumberOnTop opcode) (evalInstruction input s opcode vch) := by
  intro s' h hle1 hle16 hexec'
  have hpush : ¬opcode ≤ opPushData4 :=
    UInt8.not_le.mpr (UInt8.lt_of_lt_of_le (by decide) hle1)
  have hcond : ¬opIfByte ≤ opcode := UInt8.not_le.mpr (UInt8.lt_of_le_of_lt hle16 (by decide))
  have hopcode : toOpcode opcode = some (.onStack (.opNumber opcode)) := if_pos (.inr ⟨hle1, hle16⟩)
  by_cases hexec : s.vfExec.all id = true
  · simp only [evalInstruction, hexec, hpush, decide_false, Bool.and_false, Bool.false_eq_true,
      if_false, Bool.true_or, if_true, hopcode] at h
    obtain rfl : { s with
        stack := signedVch ((opcode.toNat : ℤ) - (op1.toNat - 1)) :: s.stack } = s' :=
      Except.ok.inj h
    refine ⟨_, rfl, ?_⟩
    have hcount := countIs_opNumber hle1 hle16
    rw [UInt8.toNat_sub_of_le _ _ (UInt8.le_trans (by decide) hle1)] at hcount
    exact hcount
  · simp only [evalInstruction, hexec, hcond, decide_false, Bool.false_and, Bool.false_eq_true,
      if_false, Bool.or_false] at h
    obtain rfl : s = s' := Except.ok.inj h
    exact absurd hexec' hexec

theorem evalStep_spec {vch : List UInt8} {pc : Script} (hop : getOp s.pc = some (opcode, vch, pc)) :
    Returns (fun s' => s'.pc = pc ∧ NumberOnTop opcode s') (evalStep input s) := by
  unfold evalStep
  rw [hop]
  refine .after fun _ => .after fun _ => .after fun _ => ?_
  refine (Returns.self _).bind fun s' hs' => .after fun _ => .pure ⟨?_, ?_⟩
  · exact pc_evalInstruction input opcode vch s' hs'
  · exact numberOnTop_evalInstruction input vch s' hs'

theorem callsByLoop_le (fuel : ℕ) (htop : fAccurate = true → NumberOnTop lastOpcode s) :
    callsByLoop input fuel s ≤ sigOps fAccurate fuel lastOpcode s.pc := by
  induction fuel generalizing s lastOpcode with
  | zero => exact Nat.le_refl _
  | succ fuel ih =>
    rw [callsByLoop, sigOps]
    split
    · exact Nat.le_refl _
    · cases hop : getOp s.pc with
      | none =>
        have hcalls : callsByStep input s = .ok 0 := by
          unfold callsByStep
          rw [hop]
          rfl
        have hstep : evalStep input s = .error .refused := by
          unfold evalStep
          rw [hop]
        rw [hcalls, hstep]
        exact Nat.le_refl _
      | some r =>
        obtain ⟨opcode, vch, pc⟩ := r
        have hcalls := madeCalls_le (callsByStep_le input hop htop)
        have hrest : (match evalStep input s with
            | .ok s => callsByLoop input fuel s
            | .error _ => 0) ≤ sigOps fAccurate fuel opcode pc := by
          split
          · rename_i s' hs'
            obtain ⟨rfl, htop'⟩ := evalStep_spec input hop s' hs'
            exact ih fun _ => htop'
          · exact Nat.zero_le _
        exact Nat.add_le_add hcalls hrest

theorem evalScriptCalls_le (fAccurate : Bool) (stack : Stack) (script : Script) :
    evalScriptCalls input stack script ≤ (script.getSigOpCount fAccurate).toNat := by
  unfold evalScriptCalls
  split
  · rename_i hsize
    rw [Script.toNat_getSigOpCount (by omega)]
    apply callsByLoop_le
    intro _ _ hle
    exact absurd hle (by decide)
  · exact Nat.zero_le _

end Calls

/-- What is on top of the stack has the count of `data`, or one of 0. -/
def PushedLast (data : List UInt8) (stack : Stack) : Prop :=
  ∃ top rest, stack = top :: rest ∧ (top = data ∨ Script.getSigOpCount top true = 0)

theorem getSigOpCount_number {opcode : UInt8}
    (h : opcode = op1Negate ∨ (op1 ≤ opcode ∧ opcode ≤ op16)) :
    Script.getSigOpCount (signedVch ((opcode.toNat : ℤ) - (op1.toNat - 1))) true = 0 := by
  have hall : ∀ n : ℕ, n < 256 → (n = 0x4f ∨ (0x51 ≤ n ∧ n ≤ 0x60)) →
      Script.getSigOpCount (signedVch ((n : ℤ) - 0x50)) true = 0 := by
    decide +kernel
  exact hall opcode.toNat opcode.toNat_lt (h.imp_left (congrArg UInt8.toNat))

section PushOnly

variable (input : ScriptInput) {s : EvalState} {opcode : UInt8} {data : List UInt8} {pc : Script}

theorem toOpcode_of_le_op16 {op : Opcode} (hpush : ¬opcode ≤ opPushData4) (h16 : opcode ≤ op16)
    (hop : toOpcode opcode = some op) :
    op = .onStack (.opNumber opcode) ∧ (opcode = op1Negate ∨ (op1 ≤ opcode ∧ opcode ≤ op16)) := by
  unfold toOpcode at hop
  split at hop
  · rename_i h
    exact ⟨(Option.some_injective _ hop).symm, h⟩
  · rename_i h
    have hreserved : ∀ n : ℕ, n < 256 → 0x4e < n → n ≤ 0x60 →
        n = 0x4f ∨ (0x51 ≤ n ∧ n ≤ 0x60) ∨ opcodes.lookup (.ofNat n) = none := by
      decide +kernel
    rcases hreserved opcode.toNat opcode.toNat_lt (UInt8.not_le.mp hpush) h16 with h' | h' | h'
    · exact absurd (.inl (UInt8.toNat_inj.mp h')) h
    · exact absurd (.inr h') h
    · rw [UInt8.ofNat_toNat, hop] at h'
      cases h'

theorem pushedLast_evalInstruction (hexec : s.vfExec = []) (h16 : opcode ≤ op16)
    (vch : List UInt8) :
    Returns (fun s' => s'.vfExec = [] ∧ PushedLast vch s'.stack)
      (evalInstruction input s opcode vch) := by
  have hall : s.vfExec.all id = true := by
    rw [hexec]
    rfl
  unfold evalInstruction
  rw [hall]
  dsimp only
  split
  · exact .pure ⟨hexec, vch, s.stack, rfl, .inl rfl⟩
  · rename_i hpush
    have hpush' : ¬opcode ≤ opPushData4 := by simpa using hpush
    split
    · split
      · rename_i op hop
        obtain ⟨rfl, hnumber⟩ := toOpcode_of_le_op16 hpush' h16 hop
        exact .pure ⟨hexec, _, s.stack, rfl, .inr (getSigOpCount_number hnumber)⟩
      · exact .error _
    · rename_i h
      exact absurd rfl h

theorem pushedLast_evalStep (hexec : s.vfExec = []) {vch : List UInt8}
    (hop : getOp s.pc = some (opcode, vch, pc)) (h16 : opcode ≤ op16) :
    Returns (fun s' => s'.pc = pc ∧ s'.vfExec = [] ∧ PushedLast vch s'.stack)
      (evalStep input s) := by
  unfold evalStep
  rw [hop]
  refine .after fun _ => .after fun _ => .after fun _ => ?_
  refine (Returns.self _).bind fun s' hs' => .after fun _ => .pure ⟨?_, ?_⟩
  · exact pc_evalInstruction input opcode vch s' hs'
  · exact pushedLast_evalInstruction input (s := { s with pc, nOpCount := _ }) hexec h16 vch s' hs'

theorem pushedLast_evalLoop (fuel : ℕ) (hpush : pushOnlyFrom fuel s.pc = true)
    (hexec : s.vfExec = []) (h : s.stack = [] ∨ PushedLast data s.stack) :
    Returns (fun s' => s'.stack = [] ∨
      ∃ data', lastPush fuel data s.pc = some data' ∧ PushedLast data' s'.stack)
      (evalLoop input fuel s) := by
  induction fuel generalizing s data with
  | zero => exact .pure (h.imp_right fun h => ⟨data, rfl, h⟩)
  | succ fuel ih =>
    rw [evalLoop, lastPush]
    rw [pushOnlyFrom] at hpush
    split
    · exact .pure (h.imp_right fun h => ⟨data, rfl, h⟩)
    · rename_i hpc
      rw [if_neg hpc] at hpush
      cases hop : getOp s.pc with
      | none =>
        rw [hop] at hpush
        cases hpush
      | some r =>
        obtain ⟨opcode, vch, pc⟩ := r
        rw [hop] at hpush
        simp only [Bool.and_eq_true, decide_eq_true_eq] at hpush
        refine (pushedLast_evalStep input hexec hop hpush.1).bind fun s' hs' => ?_
        obtain ⟨rfl, hexec', hlast⟩ := hs'
        simp only [UInt8.not_lt.mpr hpush.1, if_false]
        exact ih hpush.2 hexec' (.inr hlast)

theorem pushedLast_evalScript {scriptSig : Script} {stackCopy : Stack}
    (hpush : scriptSig.isPushOnly = true) (h : evalScript input [] scriptSig = some stackCopy) :
    stackCopy = [] ∨ ∃ data, lastPush scriptSig.length [] scriptSig = some data ∧
      PushedLast data stackCopy := by
  have hreturns : Returns (fun stack => stack = [] ∨
      ∃ data, lastPush scriptSig.length [] scriptSig = some data ∧ PushedLast data stack)
      (evalThrowing input [] scriptSig) := by
    unfold evalThrowing
    refine .after fun _ => ?_
    have hloop : Returns (fun s => s.stack = [] ∨ ∃ data,
        lastPush scriptSig.length [] scriptSig = some data ∧ PushedLast data s.stack)
        (evalLoop input scriptSig.length (.start [] scriptSig)) :=
      pushedLast_evalLoop input scriptSig.length hpush rfl (.inl rfl)
    exact hloop.bind fun s hs => .after fun _ => .pure hs
  exact hreturns stackCopy (evalScript_eq_some h)

/-- The script behind a hash makes no more calls than the count of the spend has. -/
theorem redeemScriptCalls_le (scriptSig : Script) {scriptPubKey : Script}
    (hhash : scriptPubKey.isPayToScriptHash = true) :
    redeemScriptCalls input scriptSig scriptPubKey ≤
      (scriptPubKey.getSigOpCountOf scriptSig).toNat := by
  unfold redeemScriptCalls
  cases hcopy : evalScript input [] scriptSig with
  | none => exact Nat.zero_le _
  | some stackCopy =>
    have hredeem : ∀ pubKeySerialized rest, stackCopy = pubKeySerialized :: rest →
        scriptSig.isPushOnly = true → evalScriptCalls input rest pubKeySerialized ≤
          (scriptPubKey.getSigOpCountOf scriptSig).toNat := by
      intro pubKeySerialized rest hstack hpush
      have hle := evalScriptCalls_le input true rest pubKeySerialized
      rcases pushedLast_evalScript input hpush hcopy with hnil | ⟨data, hdata, top, rest', htop, h⟩
      · rw [hstack] at hnil
        cases hnil
      · obtain rfl := (List.cons.inj (hstack.symm.trans htop)).1
        rcases h with rfl | h0
        · simp only [Script.getSigOpCountOf, hhash, hdata]
          exact hle
        · rw [h0] at hle
          exact hle.trans (Nat.zero_le _)
    dsimp only
    split
    · exact Nat.zero_le _
    · exact Nat.zero_le _
    · rw [if_pos hhash]
      split
      · exact Nat.zero_le _
      · split
        · exact Nat.zero_le _
        · rename_i hpush
          split
          · exact hredeem _ _ rfl (by simpa using hpush)
          · exact Nat.zero_le _

end PushOnly

/-- `VerifySignature(txFrom, txTo, nIn, 0)` -/
def Crypto.verifySignature (c : Crypto) (txHash : Transaction → Uint256) (txFrom txTo : Transaction)
    (nIn : ℕ) : Bool :=
  txTo.vin[nIn]?.any fun txin => txFrom.vout[txin.prevout.n.toNat]?.any fun txout =>
    txin.prevout.hash == txHash txFrom &&
      (verifyScript ⟨c, txTo, .ofNat nIn, 0⟩ txin.scriptSig txout.scriptPubKey).toOption.any id

/-- The parameters with the functions of the script interpreter. -/
def Params.withScripts (c : Crypto) (P : Params) : Params :=
  { P with
    verifySignature := c.verifySignature P.txHash
    getSigOpCount := fun script => script.getSigOpCount false
    getP2SHSigOpCount := Script.getSigOpCountOf
    isPayToScriptHash := Script.isPayToScriptHash }

end Beancash
