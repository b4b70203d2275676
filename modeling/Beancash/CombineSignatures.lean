import Beancash.ScriptRun
import Beancash.SolverSpec

namespace Beancash

open ByteStream StackMachine

/-- What a failing opcode leaves: the index of `OP_PICK` is gone already, and of the opcodes that
ask for a truth value it is the value. -/
def leftByStackOp (stack : Stack) : StackOp → Stack
  | .opPick | .opRoll =>
    if 2 ≤ stack.length ∧ (stack.headD []).length ≤ maxNumSize then stack.tail else stack
  | .opEqualVerify =>
    match equal stack false with
    | .ok stack => stack
    | .error _ => stack
  | .binary .opNumEqualVerify =>
    match evalBinary stack .opNumEqual with
    | .ok stack => stack
    | .error _ => stack
  | _ => stack

def leftByOpcode (input : ScriptInput) (s : EvalState) : Opcode → Stack
  | .onStack op => leftByStackOp s.stack op
  | .opCheckSigVerify =>
    match evalCheckSig input s.pbegincodehash s.stack false with
    | .ok stack => stack
    | .error _ => s.stack
  | .opCheckMultiSigVerify =>
    match evalCheckMultiSig input s.pbegincodehash s.stack s.nOpCount false with
    | .ok (_, stack) => stack
    | .error _ => s.stack
  | _ => s.stack

/-- What a round leaves that fails. -/
def leftByStep (input : ScriptInput) (s : EvalState) : Stack :=
  match getOp s.pc with
  | none => s.stack
  | some (opcode, vchPushValue, pc) =>
    let nOpCount := if op16 < opcode then s.nOpCount + 1 else s.nOpCount
    if maxScriptElementSize < vchPushValue.length ∨ (op16 < opcode ∧ 201 < nOpCount) ∨
        opcode ∈ disabledOpcodes then s.stack
    else
      match evalInstruction input { s with pc, nOpCount } opcode vchPushValue with
      -- the size limits come last
      | .ok s => s.stack
      | .error _ => (toOpcode opcode).elim s.stack (leftByOpcode input { s with pc, nOpCount })

def leftByLoop (input : ScriptInput) : ℕ → EvalState → Stack
  | fuel + 1, s =>
    if s.pc = [] then s.stack
    else
      match evalStep input s with
      | .ok s => leftByLoop input fuel s
      | .error _ => leftByStep input s
  | 0, s => s.stack

/-- The stack that `EvalScript` leaves in its argument. -/
def evalStack (input : ScriptInput) (stack : Stack) (script : Script) : Stack :=
  if 10000 < script.length then stack else leftByLoop input script.length (.start stack script)

theorem leftByLoop_of_evalLoop {input : ScriptInput} {fuel : ℕ} {s s' : EvalState}
    (h : evalLoop input fuel s = .ok s') : leftByLoop input fuel s = s'.stack := by
  induction fuel generalizing s with
  | zero =>
    cases h
    rfl
  | succ fuel ih =>
    rw [evalLoop] at h
    rw [leftByLoop]
    split at h
    · rename_i hend
      cases h
      rw [if_pos hend]
    · rename_i hend
      rw [if_neg hend]
      cases hstep : evalStep input s with
      | ok t =>
        rw [hstep] at h
        exact ih h
      | error halt =>
        rw [hstep] at h
        cases h

theorem evalStack_of_evalScript {input : ScriptInput} {stack stack' : Stack} {script : Script}
    (h : evalScript input stack script = some stack') : evalStack input stack script = stack' := by
  have hrun := evalScript_eq_some h
  unfold evalThrowing at hrun
  rw [require] at hrun
  split at hrun
  · rename_i hsize
    cases hloop : evalLoop input script.length (.start stack script) with
    | error halt =>
      rw [hloop] at hrun
      cases hrun
    | ok s =>
      rw [hloop] at hrun
      change (require (s.vfExec = []) >>= fun _ => pure s.stack) = _ at hrun
      rw [require] at hrun
      split at hrun
      · cases hrun
        rw [evalStack, if_neg (not_lt.mpr hsize), leftByLoop_of_evalLoop hloop]
      · cases hrun
  · cases hrun

/-- `set<valtype>` of the signatures that are not empty, in its order. -/
def allSigs (sigs : List (List UInt8)) : List (List UInt8) :=
  (sigs.filter (· ≠ [])).dedup.mergeSort fun a b => decide (a ≤ b)

/-- A signature goes to the first key without one that it verifies under. -/
def assignSig (good : List UInt8 → List UInt8 → Bool) (pubkeys : List (List UInt8))
    (sigs : List (List UInt8 × List UInt8)) (sig : List UInt8) :
    List (List UInt8 × List UInt8) :=
  match pubkeys.find? fun pubkey => (sigs.lookup pubkey).isNone && good sig pubkey with
  | some pubkey => (pubkey, sig) :: sigs
  | none => sigs

def combineMultisig (c : Crypto) (scriptPubKey : Script) (txTo : Transaction) (nIn : UInt32)
    (vSolutions sigs1 sigs2 : List (List UInt8)) : Script :=
  let nSigsRequired := ((vSolutions.headD []).headD 0).toNat
  let pubkeys := vSolutions.tail.dropLast
  let sigs := (allSigs (sigs1 ++ sigs2)).foldl
    (assignSig (fun sig pubkey => checkSig c sig pubkey scriptPubKey txTo nIn 0) pubkeys) []
  let found := (pubkeys.filterMap fun pubkey => sigs.lookup pubkey).take nSigsRequired
  -- pop-one-too-many workaround, and any missing signatures
  0x00 :: (pushAll found ++ List.replicate (nSigsRequired - found.length) 0x00)

/-- `CombineSignatures` of the pushes, the first one first. Each round of the recursion takes the
last push off both. -/
def combineStacks (c : Crypto) (txTo : Transaction) (nIn : UInt32) :
    ℕ → Script → TxnOutType → (vSolutions sigs1 sigs2 : List (List UInt8)) → Script
  -- assume the bigger one is correct
  | _, _, .nonStandard, _, sigs1, sigs2 | _, _, .nullData, _, sigs1, sigs2 =>
    if sigs2.length ≤ sigs1.length then pushAll sigs1 else pushAll sigs2
  -- signatures are bigger than placeholders or empty scripts
  | _, _, .pubKey, _, sigs1, sigs2 | _, _, .pubKeyHash, _, sigs1, sigs2 =>
    if sigs1.headD [] = [] then pushAll sigs2 else pushAll sigs1
  | fuel, _, .scriptHash, _, sigs1, sigs2 =>
    if sigs1.getLastD [] = [] then pushAll sigs2
    else if sigs2.getLastD [] = [] then pushAll sigs1
    else
      match fuel with
      | 0 => []
      | fuel + 1 =>
        let spk := sigs1.getLastD []
        let r := solverOut spk
        combineStacks c txTo nIn fuel spk r.typeRet r.vSolutionsRet sigs1.dropLast
          sigs2.dropLast ++ Script.pushBytes spk
  | _, scriptPubKey, .multisig, vSolutions, sigs1, sigs2 =>
    combineMultisig c scriptPubKey txTo nIn vSolutions sigs1 sigs2

/-- `CTransaction()`; its time is the current one, which nothing here depends on. -/
def Transaction.empty : Transaction where
  nVersion := 1
  nTime := 0
  vin := []
  vout := []
  nLockTime := 0

/-- The pushes of a script, the first one first. -/
def scriptPushes (c : Crypto) (scriptSig : Script) : List (List UInt8) :=
  (evalStack ⟨c, .empty, 0, 0⟩ [] scriptSig).reverse

def combineSignatures (c : Crypto) (scriptPubKey : Script) (txTo : Transaction) (nIn : UInt32)
    (scriptSig1 scriptSig2 : Script) : Script :=
  let r := solverOut scriptPubKey
  let stack1 := scriptPushes c scriptSig1
  let stack2 := scriptPushes c scriptSig2
  combineStacks c txTo nIn stack1.length scriptPubKey r.typeRet r.vSolutionsRet stack1 stack2

end Beancash
