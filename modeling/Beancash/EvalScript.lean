import Beancash.StackMachine
import Beancash.CheckSig
import Beancash.BlockIndex

namespace Beancash

open ByteStream StackMachine

/-- What `EvalScript` may throw by itself: `CastToBigNum() : overflow`. -/
inductive ScriptException where
  | castToBigNumOverflow
deriving DecidableEq

abbrev ScriptEval (α : Type) := Eval ScriptException α

def maxNumSize : ℕ := 4

def maxScriptElementSize : ℕ := 520

def vchFalse : List UInt8 := []
def vchTrue : List UInt8 := [1]

/-- `CBigNum::setvch`: the top bit of the last byte is the sign. -/
def setvch (vch : List UInt8) : ℤ :=
  match vch.getLast? with
  | some back =>
    if back < 0x80 then ofLittleEndian vch
    else -ofLittleEndian (vch.dropLast ++ [back &&& 0x7f])
  | none => 0

/-- `CBigNum::getvch`, also of a negative number. -/
def signedVch (bn : ℤ) : List UInt8 :=
  let vch := getvch bn.natAbs
  if bn < 0 then vch.modify (vch.length - 1) (· ||| 0x80) else vch

/-- `CBigNum::getint`, which stops at the limits of an `int`. -/
def getint (bn : ℤ) : ℤ := max (-2 ^ 31) (min bn (2 ^ 31 - 1))

def castToBigNum (vch : List UInt8) : ScriptEval ℤ :=
  if maxNumSize < vch.length then .error (.thrown .castToBigNumOverflow) else .ok (setvch vch)

def castToBool : List UInt8 → Bool
  | [] => false
  -- can be negative zero
  | [back] => back ≠ 0 && back ≠ 0x80
  | b :: vch => b ≠ 0 || castToBool vch

inductive UnaryOp where
  | op1Add
  | op1Sub
  | opNegate
  | opAbs
  | opNot
  | op0NotEqual

def UnaryOp.eval (bn : ℤ) : UnaryOp → ℤ
  | op1Add => bn + 1
  | op1Sub => bn - 1
  | opNegate => -bn
  | opAbs => if bn < 0 then -bn else bn
  | opNot => if bn = 0 then 1 else 0
  | op0NotEqual => if bn ≠ 0 then 1 else 0

inductive BinaryOp where
  | opAdd
  | opSub
  | opBoolAnd
  | opBoolOr
  | opNumEqual
  | opNumEqualVerify
  | opNumNotEqual
  | opLessThan
  | opGreaterThan
  | opLessThanOrEqual
  | opGreaterThanOrEqual
  | opMin
  | opMax
deriving DecidableEq

def BinaryOp.eval (bn1 bn2 : ℤ) : BinaryOp → ℤ
  | opAdd => bn1 + bn2
  | opSub => bn1 - bn2
  | opBoolAnd => if bn1 ≠ 0 ∧ bn2 ≠ 0 then 1 else 0
  | opBoolOr => if bn1 ≠ 0 ∨ bn2 ≠ 0 then 1 else 0
  | opNumEqual => if bn1 = bn2 then 1 else 0
  | opNumEqualVerify => if bn1 = bn2 then 1 else 0
  | opNumNotEqual => if bn1 ≠ bn2 then 1 else 0
  | opLessThan => if bn1 < bn2 then 1 else 0
  | opGreaterThan => if bn1 > bn2 then 1 else 0
  | opLessThanOrEqual => if bn1 ≤ bn2 then 1 else 0
  | opGreaterThanOrEqual => if bn1 ≥ bn2 then 1 else 0
  | opMin => if bn1 < bn2 then bn1 else bn2
  | opMax => if bn1 > bn2 then bn1 else bn2

inductive HashOp where
  | opRipemd160
  | opSha1
  | opSha256
  | opHash160
  | opHash256

def HashOp.eval (c : Crypto) (vch : List UInt8) : HashOp → List UInt8
  | opRipemd160 => (c.ripemd160 vch).toList
  | opSha1 => (c.sha1 vch).toList
  | opSha256 => (c.sha256 vch).toList
  | opHash160 => (c.hash160 vch).toList
  | opHash256 => (c.hash vch).toList

/-- The opcodes that work on the main stack only. -/
inductive StackOp where
  /-- `OP_1NEGATE` and `OP_1` to `OP_16` -/
  | opNumber (opcode : UInt8)
  | opVerify
  | op2Drop
  | op2Dup
  | op3Dup
  | op2Over
  | op2Rot
  | op2Swap
  | opIfDup
  | opDepth
  | opDrop
  | opDup
  | opNip
  | opOver
  | opPick
  | opRoll
  | opRot
  | opSwap
  | opTuck
  | opSize
  | opEqual
  | opEqualVerify
  | unary (op : UnaryOp)
  | binary (op : BinaryOp)
  | opWithin
  | hash (op : HashOp)

/-- The opcodes that have a case of the switch and are not disabled before it. -/
inductive Opcode where
  | opNop
  | opIf
  | opNotIf
  | opElse
  | opEndIf
  | opReturn
  | opToAltStack
  | opFromAltStack
  | onStack (op : StackOp)
  | opCodeSeparator
  | opCheckSig
  | opCheckSigVerify
  | opCheckMultiSig
  | opCheckMultiSigVerify

/-- The opcodes from `OP_NOP` on. -/
def opcodes : List (UInt8 × Opcode) := [
  (0x61, .opNop), (0x63, .opIf), (0x64, .opNotIf), (0x67, .opElse), (0x68, .opEndIf),
  (0x69, .onStack .opVerify), (0x6a, .opReturn),
  (0x6b, .opToAltStack), (0x6c, .opFromAltStack), (0x6d, .onStack .op2Drop),
  (0x6e, .onStack .op2Dup), (0x6f, .onStack .op3Dup), (0x70, .onStack .op2Over),
  (0x71, .onStack .op2Rot), (0x72, .onStack .op2Swap), (0x73, .onStack .opIfDup),
  (0x74, .onStack .opDepth), (0x75, .onStack .opDrop), (0x76, .onStack .opDup),
  (0x77, .onStack .opNip), (0x78, .onStack .opOver), (0x79, .onStack .opPick),
  (0x7a, .onStack .opRoll), (0x7b, .onStack .opRot), (0x7c, .onStack .opSwap),
  (0x7d, .onStack .opTuck), (0x82, .onStack .opSize),
  (0x87, .onStack .opEqual), (0x88, .onStack .opEqualVerify),
  (0x8b, .onStack (.unary .op1Add)), (0x8c, .onStack (.unary .op1Sub)),
  (0x8f, .onStack (.unary .opNegate)), (0x90, .onStack (.unary .opAbs)),
  (0x91, .onStack (.unary .opNot)), (0x92, .onStack (.unary .op0NotEqual)),
  (0x93, .onStack (.binary .opAdd)), (0x94, .onStack (.binary .opSub)),
  (0x9a, .onStack (.binary .opBoolAnd)), (0x9b, .onStack (.binary .opBoolOr)),
  (0x9c, .onStack (.binary .opNumEqual)), (0x9d, .onStack (.binary .opNumEqualVerify)),
  (0x9e, .onStack (.binary .opNumNotEqual)), (0x9f, .onStack (.binary .opLessThan)),
  (0xa0, .onStack (.binary .opGreaterThan)), (0xa1, .onStack (.binary .opLessThanOrEqual)),
  (0xa2, .onStack (.binary .opGreaterThanOrEqual)), (0xa3, .onStack (.binary .opMin)),
  (0xa4, .onStack (.binary .opMax)), (0xa5, .onStack .opWithin),
  (0xa6, .onStack (.hash .opRipemd160)), (0xa7, .onStack (.hash .opSha1)),
  (0xa8, .onStack (.hash .opSha256)), (0xa9, .onStack (.hash .opHash160)),
  (0xaa, .onStack (.hash .opHash256)), (0xab, .opCodeSeparator), (0xac, .opCheckSig),
  (0xad, .opCheckSigVerify), (0xae, .opCheckMultiSig), (0xaf, .opCheckMultiSigVerify),
  (0xb0, .opNop), (0xb1, .opNop), (0xb2, .opNop), (0xb3, .opNop), (0xb4, .opNop),
  (0xb5, .opNop), (0xb6, .opNop), (0xb7, .opNop), (0xb8, .opNop), (0xb9, .opNop)]

def op1Negate : UInt8 := 0x4f
def op1 : UInt8 := 0x51
def opIfByte : UInt8 := 0x63
def opEndIfByte : UInt8 := 0x68

/-- The case of the switch that an opcode takes, where it is not the `default`. -/
def toOpcode (opcode : UInt8) : Option Opcode :=
  if opcode = op1Negate ∨ (op1 ≤ opcode ∧ opcode ≤ op16) then
    some (.onStack (.opNumber opcode))
  else opcodes.lookup opcode

/-- `OP_CAT`, `OP_SUBSTR`, `OP_LEFT`, `OP_RIGHT`, `OP_INVERT`, `OP_AND`, `OP_OR`, `OP_XOR`,
`OP_2MUL`, `OP_2DIV`, `OP_MUL`, `OP_DIV`, `OP_MOD`, `OP_LSHIFT`, `OP_RSHIFT` -/
def disabledOpcodes : List UInt8 :=
  [0x7e, 0x7f, 0x80, 0x81, 0x83, 0x84, 0x85, 0x86, 0x8d, 0x8e, 0x95, 0x96, 0x97, 0x98, 0x99]

abbrev Stack := List (List UInt8)

abbrev stacktop (stack : Stack) (i : ℤ) : ScriptEval (List UInt8) := peek stack i

abbrev popstack (stack : Stack) : ScriptEval Stack := pop stack

/-- The end of an opcode that leaves a truth value, or with `VERIFY` asks for it. -/
def pushBool (stack : Stack) (fSuccess fVerify : Bool) : ScriptEval Stack := do
  let stack := (if fSuccess then vchTrue else vchFalse) :: stack
  if fVerify then
    require (fSuccess = true)
    popstack stack
  else return stack

/-- `OP_PICK` and `OP_ROLL` -/
def pickOrRoll (stack : Stack) (roll : Bool) : ScriptEval Stack := do
  require (2 ≤ stack.length)
  let vchN ← stacktop stack (-1)
  let bn ← castToBigNum vchN
  let n := getint bn
  let stack ← popstack stack
  require (0 ≤ n ∧ n < stack.length)
  let vch ← stacktop stack (-n - 1)
  let stack ← if roll then eraseAt stack (-n - 1) else pure stack
  return vch :: stack

/-- `OP_EQUAL` and `OP_EQUALVERIFY` -/
def equal (stack : Stack) (fVerify : Bool) : ScriptEval Stack := do
  require (2 ≤ stack.length)
  let vch1 ← stacktop stack (-2)
  let vch2 ← stacktop stack (-1)
  let stack ← popstack stack
  let stack ← popstack stack
  pushBool stack (vch1 = vch2) fVerify

def evalUnary (stack : Stack) (op : UnaryOp) : ScriptEval Stack := do
  require (1 ≤ stack.length)
  let vch ← stacktop stack (-1)
  let bn ← castToBigNum vch
  let stack ← popstack stack
  return signedVch (op.eval bn) :: stack

def evalBinary (stack : Stack) (op : BinaryOp) : ScriptEval Stack := do
  require (2 ≤ stack.length)
  let vch1 ← stacktop stack (-2)
  let bn1 ← castToBigNum vch1
  let vch2 ← stacktop stack (-1)
  let bn2 ← castToBigNum vch2
  let stack ← popstack stack
  let stack ← popstack stack
  let stack := signedVch (op.eval bn1 bn2) :: stack
  if op = .opNumEqualVerify then
    let vch ← stacktop stack (-1)
    require (castToBool vch = true)
    popstack stack
  else return stack

def evalWithin (stack : Stack) : ScriptEval Stack := do
  require (3 ≤ stack.length)
  let vch1 ← stacktop stack (-3)
  let bn1 ← castToBigNum vch1
  let vch2 ← stacktop stack (-2)
  let bn2 ← castToBigNum vch2
  let vch3 ← stacktop stack (-1)
  let bn3 ← castToBigNum vch3
  let stack ← popstack stack
  let stack ← popstack stack
  let stack ← popstack stack
  pushBool stack (bn2 ≤ bn1 ∧ bn1 < bn3) false

/-- The case of an opcode that works on the main stack only. -/
def evalStackOp (c : Crypto) (stack : Stack) : StackOp → ScriptEval Stack
  | .opNumber opcode => return signedVch ((opcode.toNat : ℤ) - (op1.toNat - 1)) :: stack
  | .opVerify => do
    require (1 ≤ stack.length)
    let vch ← stacktop stack (-1)
    require (castToBool vch = true)
    popstack stack
  | .op2Drop => do
    require (2 ≤ stack.length)
    let stack ← popstack stack
    popstack stack
  | .op2Dup => do
    require (2 ≤ stack.length)
    let vch1 ← stacktop stack (-2)
    let vch2 ← stacktop stack (-1)
    return vch2 :: vch1 :: stack
  | .op3Dup => do
    require (3 ≤ stack.length)
    let vch1 ← stacktop stack (-3)
    let vch2 ← stacktop stack (-2)
    let vch3 ← stacktop stack (-1)
    return vch3 :: vch2 :: vch1 :: stack
  | .op2Over => do
    require (4 ≤ stack.length)
    let vch1 ← stacktop stack (-4)
    let vch2 ← stacktop stack (-3)
    return vch2 :: vch1 :: stack
  | .op2Rot => do
    require (6 ≤ stack.length)
    let vch1 ← stacktop stack (-6)
    let vch2 ← stacktop stack (-5)
    let stack ← eraseRange stack 6 4
    return vch2 :: vch1 :: stack
  | .op2Swap => do
    require (4 ≤ stack.length)
    let stack ← swapAt stack (-4) (-2)
    swapAt stack (-3) (-1)
  | .opIfDup => do
    require (1 ≤ stack.length)
    let vch ← stacktop stack (-1)
    return if castToBool vch then vch :: stack else stack
  | .opDepth => return signedVch stack.length :: stack
  | .opDrop => do
    require (1 ≤ stack.length)
    popstack stack
  | .opDup => do
    require (1 ≤ stack.length)
    let vch ← stacktop stack (-1)
    return vch :: stack
  | .opNip => do
    require (2 ≤ stack.length)
    eraseAt stack (-2)
  | .opOver => do
    require (2 ≤ stack.length)
    let vch ← stacktop stack (-2)
    return vch :: stack
  | .opPick => pickOrRoll stack false
  | .opRoll => pickOrRoll stack true
  | .opRot => do
    require (3 ≤ stack.length)
    let stack ← swapAt stack (-3) (-2)
    swapAt stack (-2) (-1)
  | .opSwap => do
    require (2 ≤ stack.length)
    swapAt stack (-2) (-1)
  | .opTuck => do
    require (2 ≤ stack.length)
    let vch ← stacktop stack (-1)
    insertBelow stack 2 vch
  | .opSize => do
    require (1 ≤ stack.length)
    let vch ← stacktop stack (-1)
    return signedVch vch.length :: stack
  | .opEqual => equal stack false
  | .opEqualVerify => equal stack true
  | .unary op => evalUnary stack op
  | .binary op => evalBinary stack op
  | .opWithin => evalWithin stack
  | .hash op => do
    require (1 ≤ stack.length)
    let vch ← stacktop stack (-1)
    let stack ← popstack stack
    return op.eval c vch :: stack

/-- What a script is evaluated for. -/
structure ScriptInput where
  crypto : Crypto
  txTo : Transaction
  nIn : UInt32
  nHashType : Int32

/-- Whether a signature is good, as the opcodes ask it. -/
def ScriptInput.goodSig (input : ScriptInput) (scriptCode : Script)
    (vchSig vchPubKey : List UInt8) : Bool :=
  isCanonicalSignature vchSig && isCanonicalPubKey vchPubKey &&
    checkSig input.crypto vchSig vchPubKey scriptCode input.txTo input.nIn input.nHashType

/-- `OP_CHECKSIG` and `OP_CHECKSIGVERIFY`; `codehash` is the script from the most recent code
separator on. -/
def evalCheckSig (input : ScriptInput) (codehash : Script) (stack : Stack) (fVerify : Bool) :
    ScriptEval Stack := do
  require (2 ≤ stack.length)
  let vchSig ← stacktop stack (-2)
  let vchPubKey ← stacktop stack (-1)
  -- there's no way for a signature to sign itself
  let scriptCode := codehash.findAndDelete (Script.pushBytes vchSig)
  let fSuccess := input.goodSig scriptCode vchSig vchPubKey
  let stack ← popstack stack
  let stack ← popstack stack
  pushBool stack fSuccess fVerify

/-- The signatures are dropped from the script code one after the other. -/
def dropSigs (stack : Stack) (isig : ℕ) : ℕ → Script → ScriptEval Script
  | 0, scriptCode => return scriptCode
  | nSigsCount + 1, scriptCode => do
    let vchSig ← stacktop stack (-isig)
    dropSigs stack (isig + 1) nSigsCount (scriptCode.findAndDelete (Script.pushBytes vchSig))

/-- The loop of `OP_CHECKMULTISIG`. It goes on while there are signatures left, and no more of
them than keys. -/
def checkSigs (good : List UInt8 → List UInt8 → Bool) (stack : Stack) :
    (nKeysCount nSigsCount isig ikey : ℕ) → ScriptEval Bool
  | _, 0, _, _ => return true
  | 0, _ + 1, isig, ikey => do
    let _ ← stacktop stack (-isig)
    let _ ← stacktop stack (-ikey)
    return false
  | nKeysCount + 1, nSigsCount + 1, isig, ikey => do
    let vchSig ← stacktop stack (-isig)
    let vchPubKey ← stacktop stack (-ikey)
    if good vchSig vchPubKey then
      if nKeysCount < nSigsCount then return false
      else checkSigs good stack nKeysCount nSigsCount (isig + 1) (ikey + 1)
    else
      if nKeysCount < nSigsCount + 1 then return false
      else checkSigs good stack nKeysCount (nSigsCount + 1) isig (ikey + 1)

/-- `OP_CHECKMULTISIG` and `OP_CHECKMULTISIGVERIFY`, with the count of operations after it. -/
def evalCheckMultiSig (input : ScriptInput) (codehash : Script) (stack : Stack) (nOpCount : ℕ)
    (fVerify : Bool) : ScriptEval (ℕ × Stack) := do
  require (1 ≤ stack.length)
  let vchKeysCount ← stacktop stack (-1)
  let bnKeysCount ← castToBigNum vchKeysCount
  require (0 ≤ getint bnKeysCount ∧ getint bnKeysCount ≤ 20)
  let nKeysCount := (getint bnKeysCount).toNat
  let nOpCount := nOpCount + nKeysCount
  require (nOpCount ≤ 201)
  let ikey := 2
  let i := ikey + nKeysCount
  require (i ≤ stack.length)
  let vchSigsCount ← stacktop stack (-i)
  let bnSigsCount ← castToBigNum vchSigsCount
  require (0 ≤ getint bnSigsCount ∧ getint bnSigsCount ≤ nKeysCount)
  let nSigsCount := (getint bnSigsCount).toNat
  let isig := i + 1
  let i := isig + nSigsCount
  require (i ≤ stack.length)
  let scriptCode ← dropSigs stack isig nSigsCount codehash
  let fSuccess ← checkSigs (input.goodSig scriptCode) stack nKeysCount nSigsCount isig ikey
  let stack ← popMany i stack
  let stack ← pushBool stack fSuccess fVerify
  return (nOpCount, stack)

/-- The variables of `EvalScript`. The condition stack has its innermost `OP_IF` first. -/
structure EvalState where
  /-- The script from `pc` on. -/
  pc : Script
  /-- The script from `pbegincodehash` on. -/
  pbegincodehash : Script
  stack : Stack
  altstack : Stack
  vfExec : List Bool
  nOpCount : ℕ

def EvalState.start (stack : Stack) (script : Script) : EvalState where
  pc := script
  pbegincodehash := script
  stack := stack
  altstack := []
  vfExec := []
  nOpCount := 0

/-- `OP_IF` and `OP_NOTIF` -/
def evalIf (s : EvalState) (fExec notIf : Bool) : ScriptEval EvalState :=
  if fExec then do
    require (1 ≤ s.stack.length)
    let vch ← stacktop s.stack (-1)
    let fValue := castToBool vch != notIf
    let stack ← popstack s.stack
    return { s with stack, vfExec := fValue :: s.vfExec }
  else return { s with vfExec := false :: s.vfExec }

/-- The switch. -/
def evalOpcode (input : ScriptInput) (s : EvalState) (fExec : Bool) :
    Opcode → ScriptEval EvalState
  | .opNop => return s
  | .opIf => evalIf s fExec false
  | .opNotIf => evalIf s fExec true
  | .opElse => do
    require (s.vfExec ≠ [])
    let back ← peek s.vfExec (-1)
    let vfExec ← put s.vfExec (-1) (!back)
    return { s with vfExec }
  | .opEndIf => do
    require (s.vfExec ≠ [])
    let vfExec ← pop s.vfExec
    return { s with vfExec }
  | .opReturn => .error .refused
  | .opToAltStack => do
    require (1 ≤ s.stack.length)
    let vch ← stacktop s.stack (-1)
    let stack ← popstack s.stack
    return { s with stack, altstack := vch :: s.altstack }
  | .opFromAltStack => do
    require (1 ≤ s.altstack.length)
    let vch ← stacktop s.altstack (-1)
    let altstack ← popstack s.altstack
    return { s with stack := vch :: s.stack, altstack }
  | .onStack op => do
    let stack ← evalStackOp input.crypto s.stack op
    return { s with stack }
  | .opCodeSeparator => return { s with pbegincodehash := s.pc }
  | .opCheckSig => do
    let stack ← evalCheckSig input s.pbegincodehash s.stack false
    return { s with stack }
  | .opCheckSigVerify => do
    let stack ← evalCheckSig input s.pbegincodehash s.stack true
    return { s with stack }
  | .opCheckMultiSig => do
    let (nOpCount, stack) ←
      evalCheckMultiSig input s.pbegincodehash s.stack s.nOpCount false
    return { s with stack, nOpCount }
  | .opCheckMultiSigVerify => do
    let (nOpCount, stack) ←
      evalCheckMultiSig input s.pbegincodehash s.stack s.nOpCount true
    return { s with stack, nOpCount }

/-- What an instruction does after the checks that all have in common. -/
def evalInstruction (input : ScriptInput) (s : EvalState) (opcode : UInt8)
    (vchPushValue : List UInt8) : ScriptEval EvalState :=
  let fExec := s.vfExec.all id
  if fExec && opcode ≤ opPushData4 then return { s with stack := vchPushValue :: s.stack }
  else if fExec || (opIfByte ≤ opcode && opcode ≤ opEndIfByte) then
    match toOpcode opcode with
    | some op => evalOpcode input s fExec op
    | none => .error .refused
  else return s

/-- A round of the loop. -/
def evalStep (input : ScriptInput) (s : EvalState) : ScriptEval EvalState :=
  match getOp s.pc with
  | none => .error .refused
  | some (opcode, vchPushValue, pc) => do
    require (vchPushValue.length ≤ maxScriptElementSize)
    let nOpCount := if op16 < opcode then s.nOpCount + 1 else s.nOpCount
    require (op16 < opcode → nOpCount ≤ 201)
    require (opcode ∉ disabledOpcodes)
    let s ← evalInstruction input { s with pc, nOpCount } opcode vchPushValue
    -- size limits
    require (s.stack.length + s.altstack.length ≤ 1000)
    return s

/-- The loop. Each round takes off at least a byte. -/
def evalLoop (input : ScriptInput) : ℕ → EvalState → ScriptEval EvalState
  | fuel + 1, s =>
    if s.pc = [] then return s
    else do
      let s ← evalStep input s
      evalLoop input fuel s
  | 0, s => return s

/-- `EvalScript` with what it throws. -/
def evalThrowing (input : ScriptInput) (stack : Stack) (script : Script) : ScriptEval Stack := do
  require (script.length ≤ 10000)
  let s ← evalLoop input script.length (.start stack script)
  require (s.vfExec = [])
  return s.stack

/-- `EvalScript`: the stack that it leaves when it returns true. -/
def evalScript (input : ScriptInput) (stack : Stack) (script : Script) : Option Stack :=
  (evalThrowing input stack script).toOption

/-- `VerifyScript`. Nothing catches what it does to the stack copy itself. -/
def verifyScript (input : ScriptInput) (scriptSig scriptPubKey : Script) : ScriptEval Bool :=
  match evalScript input [] scriptSig with
  | none => return false
  | some stackCopy =>
    match evalScript input stackCopy scriptPubKey with
    | none => return false
    | some [] => return false
    | some (back :: _) =>
      if !castToBool back then return false
      else if scriptPubKey.isPayToScriptHash then
        -- literals only
        if !scriptSig.isPushOnly then return false
        else do
          let pubKeySerialized ← stacktop stackCopy (-1)
          let stackCopy ← popstack stackCopy
          match evalScript input stackCopy pubKeySerialized with
          | none => return false
          | some [] => return false
          | some (back :: _) => return castToBool back
      else return true

end Beancash
