import Mathlib.Logic.Relation
import Beancash.EvalScript

namespace Beancash

open ByteStream StackMachine

def Fits (vch : List UInt8) : Prop := vch.length ≤ maxScriptElementSize

theorem length_getvch_le_succ {n k : ℕ} (h : n < 256 ^ k) : (getvch n).length ≤ k + 1 := by
  have hbytes : (vchBytes n n).length ≤ k := length_vchBytes_le h
  simp only [getvch]
  split
  · rw [List.length_append, List.length_singleton]
    omega
  · omega

theorem length_signedVch_le {bn : ℤ} {k : ℕ} (h : bn.natAbs < 256 ^ k) :
    (signedVch bn).length ≤ k + 1 := by
  have hle := length_getvch_le_succ h
  simp only [signedVch]
  split
  · rwa [List.length_modify]
  · exact hle

theorem fits_signedVch {bn : ℤ} (h : bn.natAbs < 256 ^ 5) : Fits (signedVch bn) := by
  have hle := length_signedVch_le h
  exact hle.trans (by decide)

theorem natAbs_setvch_lt {vch : List UInt8} {k : ℕ} (h : vch.length ≤ k) :
    (setvch vch).natAbs < 256 ^ k := by
  have hmono {n : ℕ} (hn : n < 256 ^ vch.length) : n < 256 ^ k :=
    hn.trans_le (Nat.pow_le_pow_right (by decide) h)
  unfold setvch
  split
  · rename_i back hback
    split
    · rw [Int.natAbs_natCast]
      exact hmono (ofLittleEndian_lt vch)
    · rw [Int.natAbs_neg, Int.natAbs_natCast]
      apply hmono
      have hlt := ofLittleEndian_lt (vch.dropLast ++ [back &&& 0x7f])
      have hne : vch ≠ [] := by
        rintro rfl
        cases hback
      have hpos := List.length_pos_iff.mpr hne
      have hlen : (vch.dropLast ++ [back &&& 0x7f]).length = vch.length := by
        rw [List.length_append, List.length_dropLast, List.length_singleton]
        omega
      rwa [hlen] at hlt
  · exact Nat.pow_pos (by decide)

theorem safe_castToBigNum (vch : List UInt8) :
    Safe (fun bn => bn.natAbs < 256 ^ 4) (castToBigNum vch) := by
  unfold castToBigNum
  split
  · exact Safe.thrown _
  · rename_i hle
    exact natAbs_setvch_lt (Nat.not_lt.mp hle)

theorem UnaryOp.natAbs_eval_le (op : UnaryOp) (bn : ℤ) :
    (op.eval bn).natAbs ≤ bn.natAbs + 1 := by
  cases op <;> simp only [UnaryOp.eval] <;> (try split) <;> omega

theorem BinaryOp.natAbs_eval_le (op : BinaryOp) (bn1 bn2 : ℤ) :
    (op.eval bn1 bn2).natAbs ≤ bn1.natAbs + bn2.natAbs + 1 := by
  cases op <;> simp only [BinaryOp.eval] <;> (try split) <;> omega

theorem HashOp.fits_eval (op : HashOp) (c : Crypto) (vch : List UInt8) : Fits (op.eval c vch) := by
  cases op <;> simp only [HashOp.eval, Fits, Vector.length_toList] <;> decide

/-- What an opcode is to keep of the stack, whose size is only checked afterwards. -/
abbrev SafeStack (x : ScriptEval Stack) : Prop := Safe (fun stack => ∀ vch ∈ stack, Fits vch) x

section MainStack

variable {stack : Stack} {n : ℕ}

theorem safeStack_pure (h : Holds Fits n stack) : SafeStack (pure stack) := h.all

theorem safeStack_pop (h : Holds Fits n stack) (hn : 0 < n) : SafeStack (popstack stack) :=
  (h.pop hn).mono fun _ h' => h'.all

theorem safeStack_pushBool (h : Holds Fits n stack) (fSuccess fVerify : Bool) :
    SafeStack (pushBool stack fSuccess fVerify) := by
  have hpush : Holds Fits (n + 1) ((if fSuccess then vchTrue else vchFalse) :: stack) := by
    apply h.push
    split <;> exact Nat.le_of_ble_eq_true rfl
  cases fVerify with
  | false => exact safeStack_pure hpush
  | true =>
    apply Safe.require_bind
    intro _
    exact safeStack_pop hpush (Nat.succ_pos n)

theorem safe_pickOrRoll (h : Holds Fits stack.length stack) (roll : Bool) :
    SafeStack (pickOrRoll stack roll) := by
  apply Safe.require_bind
  intro hsize
  apply (h.peek (by omega) (by omega)).bind
  intro vchN _
  apply (safe_castToBigNum vchN).bind
  intro bn _
  apply (h.pop (by omega)).bind
  intro stack' h'
  -- the count is compared with what is left
  apply Safe.require_bind
  rw [h'.length]
  rintro ⟨hn0, hn⟩
  apply (h'.peek (by omega) (by omega)).bind
  intro vch hvch
  cases roll with
  | false => exact safeStack_pure (h'.push hvch)
  | true =>
    apply (h'.eraseAt (by omega) (by omega)).bind
    intro stack'' h''
    exact safeStack_pure (h''.push hvch)

theorem safe_equal (h : Holds Fits stack.length stack) (fVerify : Bool) :
    SafeStack (equal stack fVerify) := by
  apply Safe.require_bind
  intro hsize
  apply (h.peek (by omega) (by omega)).bind
  intro vch1 _
  apply (h.peek (by omega) (by omega)).bind
  intro vch2 _
  apply (h.pop (by omega)).bind
  intro stack' h'
  apply (h'.pop (by omega)).bind
  intro stack'' h''
  exact safeStack_pushBool h'' _ fVerify

theorem safe_evalUnary (h : Holds Fits stack.length stack) (op : UnaryOp) :
    SafeStack (evalUnary stack op) := by
  apply Safe.require_bind
  intro hsize
  apply (h.peek (by omega) (by omega)).bind
  intro vch _
  apply (safe_castToBigNum vch).bind
  intro bn hbn
  apply (h.pop (by omega)).bind
  intro stack' h'
  have hle := op.natAbs_eval_le bn
  exact safeStack_pure (h'.push (fits_signedVch (by omega)))

theorem safe_evalBinary (h : Holds Fits stack.length stack) (op : BinaryOp) :
    SafeStack (evalBinary stack op) := by
  apply Safe.require_bind
  intro hsize
  apply (h.peek (by omega) (by omega)).bind
  intro vch1 _
  apply (safe_castToBigNum vch1).bind
  intro bn1 hbn1
  apply (h.peek (by omega) (by omega)).bind
  intro vch2 _
  apply (safe_castToBigNum vch2).bind
  intro bn2 hbn2
  apply (h.pop (by omega)).bind
  intro stack' h'
  apply (h'.pop (by omega)).bind
  intro stack'' h''
  have hle := op.natAbs_eval_le bn1 bn2
  have hfits : Fits (signedVch (op.eval bn1 bn2)) := fits_signedVch (by omega)
  have hpush := h''.push hfits
  dsimp only
  split
  · apply (hpush.peek (by omega) (by omega)).bind
    intro vch _
    apply Safe.require_bind
    intro _
    exact safeStack_pop hpush (Nat.succ_pos _)
  · exact safeStack_pure hpush

theorem safe_evalWithin (h : Holds Fits stack.length stack) : SafeStack (evalWithin stack) := by
  apply Safe.require_bind
  intro hsize
  apply (h.peek (by omega) (by omega)).bind
  intro vch1 _
  apply (safe_castToBigNum vch1).bind
  intro bn1 _
  apply (h.peek (by omega) (by omega)).bind
  intro vch2 _
  apply (safe_castToBigNum vch2).bind
  intro bn2 _
  apply (h.peek (by omega) (by omega)).bind
  intro vch3 _
  apply (safe_castToBigNum vch3).bind
  intro bn3 _
  apply (h.pop (by omega)).bind
  intro stack1 h1
  apply (h1.pop (by omega)).bind
  intro stack2 h2
  apply (h2.pop (by omega)).bind
  intro stack3 h3
  exact safeStack_pushBool h3 _ false

theorem safe_evalStackOp (c : Crypto) (h : Holds Fits stack.length stack)
    (hmax : stack.length ≤ 1000) (op : StackOp) : SafeStack (evalStackOp c stack op) := by
  cases op with
  | opNumber opcode =>
    have hlt := opcode.toNat_lt
    have hop1 : op1.toNat = 0x51 := rfl
    exact safeStack_pure (h.push (fits_signedVch (by omega)))
  | opVerify =>
    apply Safe.require_bind
    intro hsize
    apply (h.peek (by omega) (by omega)).bind
    intro vch _
    apply Safe.require_bind
    intro _
    exact safeStack_pop h (by omega)
  | op2Drop =>
    apply Safe.require_bind
    intro hsize
    apply (h.pop (by omega)).bind
    intro stack' h'
    exact safeStack_pop h' (by omega)
  | op2Dup =>
    apply Safe.require_bind
    intro hsize
    apply (h.peek (by omega) (by omega)).bind
    intro vch1 h1
    apply (h.peek (by omega) (by omega)).bind
    intro vch2 h2
    exact safeStack_pure ((h.push h1).push h2)
  | op3Dup =>
    apply Safe.require_bind
    intro hsize
    apply (h.peek (by omega) (by omega)).bind
    intro vch1 h1
    apply (h.peek (by omega) (by omega)).bind
    intro vch2 h2
    apply (h.peek (by omega) (by omega)).bind
    intro vch3 h3
    exact safeStack_pure (((h.push h1).push h2).push h3)
  | op2Over =>
    apply Safe.require_bind
    intro hsize
    apply (h.peek (by omega) (by omega)).bind
    intro vch1 h1
    apply (h.peek (by omega) (by omega)).bind
    intro vch2 h2
    exact safeStack_pure ((h.push h1).push h2)
  | op2Rot =>
    apply Safe.require_bind
    intro hsize
    apply (h.peek (by omega) (by omega)).bind
    intro vch1 h1
    apply (h.peek (by omega) (by omega)).bind
    intro vch2 h2
    apply (h.eraseRange hsize (by omega)).bind
    intro stack' h'
    exact safeStack_pure ((h'.push h1).push h2)
  | op2Swap =>
    apply Safe.require_bind
    intro hsize
    apply (h.swapAt (by omega) (by omega) (by omega) (by omega)).bind
    intro stack' h'
    exact (h'.swapAt (by omega) (by omega) (by omega) (by omega)).mono fun _ => Holds.all
  | opIfDup =>
    apply Safe.require_bind
    intro hsize
    apply (h.peek (by omega) (by omega)).bind
    intro vch hvch
    split
    · exact safeStack_pure (h.push hvch)
    · exact safeStack_pure h
  | opDepth => exact safeStack_pure (h.push (fits_signedVch (by omega)))
  | opDrop =>
    apply Safe.require_bind
    intro hsize
    exact safeStack_pop h hsize
  | opDup =>
    apply Safe.require_bind
    intro hsize
    apply (h.peek (by omega) (by omega)).bind
    intro vch hvch
    exact safeStack_pure (h.push hvch)
  | opNip =>
    apply Safe.require_bind
    intro hsize
    exact (h.eraseAt (by omega) (by omega)).mono fun _ => Holds.all
  | opOver =>
    apply Safe.require_bind
    intro hsize
    apply (h.peek (by omega) (by omega)).bind
    intro vch hvch
    exact safeStack_pure (h.push hvch)
  | opPick => exact safe_pickOrRoll h false
  | opRoll => exact safe_pickOrRoll h true
  | opRot =>
    apply Safe.require_bind
    intro hsize
    apply (h.swapAt (by omega) (by omega) (by omega) (by omega)).bind
    intro stack' h'
    exact (h'.swapAt (by omega) (by omega) (by omega) (by omega)).mono fun _ => Holds.all
  | opSwap =>
    apply Safe.require_bind
    intro hsize
    exact (h.swapAt (by omega) (by omega) (by omega) (by omega)).mono fun _ => Holds.all
  | opTuck =>
    apply Safe.require_bind
    intro hsize
    apply (h.peek (by omega) (by omega)).bind
    intro vch hvch
    exact (h.insertBelow hvch hsize).mono fun _ => Holds.all
  | opSize =>
    apply Safe.require_bind
    intro hsize
    apply (h.peek (by omega) (by omega)).bind
    intro vch hvch
    have hlen : vch.length < 256 ^ 5 := Nat.lt_of_le_of_lt hvch (by decide)
    exact safeStack_pure (h.push (fits_signedVch hlen))
  | opEqual => exact safe_equal h false
  | opEqualVerify => exact safe_equal h true
  | unary op => exact safe_evalUnary h op
  | binary op => exact safe_evalBinary h op
  | opWithin => exact safe_evalWithin h
  | hash op =>
    apply Safe.require_bind
    intro hsize
    apply (h.peek (by omega) (by omega)).bind
    intro vch _
    apply (h.pop (by omega)).bind
    intro stack' h'
    exact safeStack_pure (h'.push (op.fits_eval c vch))

theorem safe_evalCheckSig (input : ScriptInput) (codehash : Script)
    (h : Holds Fits stack.length stack) (fVerify : Bool) :
    SafeStack (evalCheckSig input codehash stack fVerify) := by
  apply Safe.require_bind
  intro hsize
  apply (h.peek (by omega) (by omega)).bind
  intro vchSig _
  apply (h.peek (by omega) (by omega)).bind
  intro vchPubKey _
  apply (h.pop (by omega)).bind
  intro stack' h'
  apply (h'.pop (by omega)).bind
  intro stack'' h''
  exact safeStack_pushBool h'' _ fVerify

theorem safe_dropSigs (h : Holds Fits n stack) {isig nSigsCount : ℕ} (hsig : 0 < isig)
    (hn : isig + nSigsCount ≤ n + 1) (scriptCode : Script) :
    Safe (fun _ => True) (dropSigs stack isig nSigsCount scriptCode) := by
  induction nSigsCount generalizing isig scriptCode with
  | zero => trivial
  | succ nSigsCount ih =>
    apply (h.peek (by omega) (by omega)).bind
    intro vchSig _
    exact ih (Nat.succ_pos isig) (by omega) _

theorem safe_checkSigs (good : List UInt8 → List UInt8 → Bool) (h : Holds Fits n stack)
    {nKeysCount nSigsCount isig ikey : ℕ} (hle : nSigsCount ≤ nKeysCount) (hsig : 0 < isig)
    (hsigs : isig + nSigsCount ≤ n + 1) (hkey : 0 < ikey) (hkeys : ikey + nKeysCount ≤ n + 1) :
    Safe (fun _ => True) (checkSigs good stack nKeysCount nSigsCount isig ikey) := by
  induction nKeysCount generalizing nSigsCount isig ikey with
  | zero =>
    obtain rfl : nSigsCount = 0 := by omega
    trivial
  | succ nKeysCount ih =>
    cases nSigsCount with
    | zero => trivial
    | succ nSigsCount =>
      apply (h.peek (by omega) (by omega)).bind
      intro vchSig _
      apply (h.peek (by omega) (by omega)).bind
      intro vchPubKey _
      split
      · split
        · trivial
        · exact ih (by omega) (by omega) (by omega) (by omega) (by omega)
      · split
        · trivial
        · exact ih (by omega) hsig (by omega) (by omega) (by omega)

theorem safe_evalCheckMultiSig (input : ScriptInput) (codehash : Script)
    (h : Holds Fits stack.length stack) (nOpCount : ℕ) (fVerify : Bool) :
    Safe (fun r => ∀ vch ∈ r.2, Fits vch)
      (evalCheckMultiSig input codehash stack nOpCount fVerify) := by
  apply Safe.require_bind
  intro hsize
  apply (h.peek (by omega) (by omega)).bind
  intro vchKeysCount _
  apply (safe_castToBigNum vchKeysCount).bind
  intro bnKeysCount _
  apply Safe.require_bind
  intro hkeysCount
  apply Safe.require_bind
  intro _
  apply Safe.require_bind
  intro hkeys
  apply (h.peek (by omega) (by omega)).bind
  intro vchSigsCount _
  apply (safe_castToBigNum vchSigsCount).bind
  intro bnSigsCount _
  apply Safe.require_bind
  intro hsigsCount
  apply Safe.require_bind
  intro hsigs
  apply (safe_dropSigs h (by omega) (by omega) codehash).bind
  intro scriptCode _
  apply (safe_checkSigs _ h (by omega) (by omega) (by omega) (by omega) (by omega)).bind
  intro fSuccess _
  apply (h.popMany hsigs).bind
  intro stack' h'
  exact (safeStack_pushBool h' fSuccess fVerify).bind fun stack'' h'' => h''

end MainStack

/-- The elements of both stacks are small. -/
structure EvalState.Fitting (s : EvalState) : Prop where
  stack : ∀ vch ∈ s.stack, Fits vch
  altstack : ∀ vch ∈ s.altstack, Fits vch

/-- What holds between two instructions. -/
structure EvalState.Sized (s : EvalState) : Prop extends s.Fitting where
  size : s.stack.length + s.altstack.length ≤ 1000

theorem EvalState.Sized.start {stack : Stack} (hsize : stack.length ≤ 1000)
    (h : ∀ vch ∈ stack, Fits vch) (script : Script) : (start stack script).Sized where
  stack := h
  altstack := List.forall_mem_nil _
  size := hsize

section Loop

variable (input : ScriptInput) {s : EvalState}

theorem safe_evalIf (h : s.Sized) (fExec notIf : Bool) :
    Safe EvalState.Fitting (evalIf s fExec notIf) := by
  have hs : Holds Fits s.stack.length s.stack := ⟨rfl, h.stack⟩
  unfold evalIf
  split
  · apply Safe.require_bind
    intro hsize
    apply (hs.peek (by omega) (by omega)).bind
    intro vch _
    apply (hs.pop (by omega)).bind
    intro stack' h'
    exact ⟨h'.all, h.altstack⟩
  · exact ⟨h.stack, h.altstack⟩

theorem safe_evalOpcode (h : s.Sized) (fExec : Bool) (op : Opcode) :
    Safe EvalState.Fitting (evalOpcode input s fExec op) := by
  have hs : Holds Fits s.stack.length s.stack := ⟨rfl, h.stack⟩
  have halt : Holds Fits s.altstack.length s.altstack := ⟨rfl, h.altstack⟩
  have hexec : Holds (fun _ => True) s.vfExec.length s.vfExec := ⟨rfl, fun _ _ => trivial⟩
  cases op with
  | opNop => exact h.toFitting
  | opIf => exact safe_evalIf h fExec false
  | opNotIf => exact safe_evalIf h fExec true
  | opElse =>
    apply Safe.require_bind
    intro hne
    have hpos := List.length_pos_iff.mpr hne
    apply (hexec.peek (by omega) (by omega)).bind
    intro back _
    apply (hexec.put trivial (by omega) (by omega)).bind
    intro vfExec _
    exact ⟨h.stack, h.altstack⟩
  | opEndIf =>
    apply Safe.require_bind
    intro hne
    apply (hexec.pop (List.length_pos_iff.mpr hne)).bind
    intro vfExec _
    exact ⟨h.stack, h.altstack⟩
  | opReturn => exact Safe.refused
  | opToAltStack =>
    apply Safe.require_bind
    intro hsize
    apply (hs.peek (by omega) (by omega)).bind
    intro vch hvch
    apply (hs.pop (by omega)).bind
    intro stack' h'
    exact ⟨h'.all, (halt.push hvch).all⟩
  | opFromAltStack =>
    apply Safe.require_bind
    intro hsize
    apply (halt.peek (by omega) (by omega)).bind
    intro vch hvch
    apply (halt.pop (by omega)).bind
    intro altstack' h'
    exact ⟨(hs.push hvch).all, h'.all⟩
  | onStack op =>
    have hsize := h.size
    apply (safe_evalStackOp input.crypto hs (by omega) op).bind
    intro stack' h'
    exact ⟨h', h.altstack⟩
  | opCodeSeparator => exact ⟨h.stack, h.altstack⟩
  | opCheckSig =>
    apply (safe_evalCheckSig input s.pbegincodehash hs false).bind
    intro stack' h'
    exact ⟨h', h.altstack⟩
  | opCheckSigVerify =>
    apply (safe_evalCheckSig input s.pbegincodehash hs true).bind
    intro stack' h'
    exact ⟨h', h.altstack⟩
  | opCheckMultiSig =>
    apply (safe_evalCheckMultiSig input s.pbegincodehash hs s.nOpCount false).bind
    intro r h'
    exact ⟨h', h.altstack⟩
  | opCheckMultiSigVerify =>
    apply (safe_evalCheckMultiSig input s.pbegincodehash hs s.nOpCount true).bind
    intro r h'
    exact ⟨h', h.altstack⟩

theorem safe_evalInstruction (h : s.Sized) (opcode : UInt8) {vchPushValue : List UInt8}
    (hpush : Fits vchPushValue) :
    Safe EvalState.Fitting (evalInstruction input s opcode vchPushValue) := by
  unfold evalInstruction
  dsimp only
  split
  · exact ⟨List.forall_mem_cons.mpr ⟨hpush, h.stack⟩, h.altstack⟩
  · split
    · split
      · exact safe_evalOpcode input h _ _
      · exact Safe.refused
    · exact h.toFitting

theorem safe_evalStep (h : s.Sized) : Safe EvalState.Sized (evalStep input s) := by
  unfold evalStep
  split
  · exact Safe.refused
  · rename_i opcode vchPushValue pc _
    apply Safe.require_bind
    intro hpush
    apply Safe.require_bind
    intro _
    apply Safe.require_bind
    intro _
    have hread (nOpCount : ℕ) : EvalState.Sized { s with pc, nOpCount } :=
      ⟨⟨h.stack, h.altstack⟩, h.size⟩
    apply (safe_evalInstruction input (hread _) opcode hpush).bind
    intro s' h'
    apply Safe.require_bind
    intro hsize
    exact ⟨h', hsize⟩

theorem safe_evalLoop (fuel : ℕ) (h : s.Sized) : Safe EvalState.Sized (evalLoop input fuel s) := by
  induction fuel generalizing s with
  | zero => exact h
  | succ fuel ih =>
    rw [evalLoop]
    split
    · exact h
    · exact (safe_evalStep input h).bind fun s' h' => ih h'

theorem safe_evalThrowing {stack : Stack} (hsize : stack.length ≤ 1000)
    (h : ∀ vch ∈ stack, Fits vch) (script : Script) :
    Safe (fun stack => stack.length ≤ 1000 ∧ ∀ vch ∈ stack, Fits vch)
      (evalThrowing input stack script) := by
  apply Safe.require_bind
  intro _
  apply (safe_evalLoop input script.length (.start hsize h script)).bind
  intro s hs
  apply Safe.require_bind
  intro _
  exact ⟨Nat.le_of_add_right_le hs.size, hs.stack⟩

theorem pc_evalOpcode (fExec : Bool) (op : Opcode) :
    Returns (fun s' => s'.pc = s.pc) (evalOpcode input s fExec op) := by
  have hif (notIf : Bool) : Returns (fun s' => s'.pc = s.pc) (evalIf s fExec notIf) := by
    unfold evalIf
    split
    · exact .after fun _ => .after fun _ => .after fun _ => .pure rfl
    · exact .pure rfl
  cases op with
  | opNop => exact .pure rfl
  | opIf => exact hif false
  | opNotIf => exact hif true
  | opElse => exact .after fun _ => .after fun _ => .after fun _ => .pure rfl
  | opEndIf => exact .after fun _ => .after fun _ => .pure rfl
  | opReturn => exact .error _
  | opToAltStack => exact .after fun _ => .after fun _ => .after fun _ => .pure rfl
  | opFromAltStack => exact .after fun _ => .after fun _ => .after fun _ => .pure rfl
  | onStack op => exact .after fun _ => .pure rfl
  | opCodeSeparator => exact .pure rfl
  | opCheckSig => exact .after fun _ => .pure rfl
  | opCheckSigVerify => exact .after fun _ => .pure rfl
  | opCheckMultiSig => exact .after fun _ => .pure rfl
  | opCheckMultiSigVerify => exact .after fun _ => .pure rfl

theorem pc_evalInstruction (opcode : UInt8) (vchPushValue : List UInt8) :
    Returns (fun s' => s'.pc = s.pc) (evalInstruction input s opcode vchPushValue) := by
  unfold evalInstruction
  dsimp only
  split
  · exact .pure rfl
  · split
    · split
      · exact pc_evalOpcode input _ _
      · exact .error _
    · exact .pure rfl

theorem pc_evalStep :
    Returns (fun s' => s'.pc.length < s.pc.length) (evalStep input s) := by
  unfold evalStep
  split
  · exact .error _
  · rename_i opcode vchPushValue pc hop
    refine .after fun _ => .after fun _ => .after fun _ => ?_
    refine (pc_evalInstruction input opcode vchPushValue).bind fun s' hpc => ?_
    refine .after fun _ => .pure ?_
    rw [hpc]
    exact (getOp_eq_some hop).2.1

theorem pc_evalLoop {fuel : ℕ} (hfuel : s.pc.length ≤ fuel) :
    Returns (fun s' => s'.pc = []) (evalLoop input fuel s) := by
  induction fuel generalizing s with
  | zero => exact .pure (List.length_eq_zero_iff.mp (Nat.le_zero.mp hfuel))
  | succ fuel ih =>
    rw [evalLoop]
    split
    · exact .pure (by assumption)
    · exact (pc_evalStep input).bind fun s' h' => ih (by omega)

end Loop

theorem evalScript_eq_some {input : ScriptInput} {stack stack' : Stack} {script : Script}
    (h : evalScript input stack script = some stack') :
    evalThrowing input stack script = .ok stack' := by
  unfold evalScript at h
  cases heq : evalThrowing input stack script with
  | ok s =>
    rw [heq] at h
    exact congrArg _ (Option.some_injective _ h)
  | error halt =>
    rw [heq] at h
    cases h

theorem evalScript_nil_of_isPayToScriptHash (input : ScriptInput) {script : Script}
    (h : script.isPayToScriptHash = true) : evalScript input [] script = none := by
  cases script with
  | nil => cases h
  | cons opcode script =>
    have hopcode : opcode = 0xa9 := by
      simp only [Script.isPayToScriptHash, Bool.and_eq_true, decide_eq_true_eq] at h
      exact Option.some_injective _ h.1.1.2
    have hstep : evalStep input (.start [] (opcode :: script)) = .error .refused := by
      rw [hopcode]
      rfl
    have hloop : evalLoop input (script.length + 1) (.start [] (opcode :: script)) =
        .error .refused := by
      rw [evalLoop, hstep]
      rfl
    unfold evalScript evalThrowing
    rw [List.length_cons, hloop]
    unfold require
    split <;> rfl

theorem safe_verifyScript (input : ScriptInput) (scriptSig scriptPubKey : Script) :
    Safe (fun _ => True) (verifyScript input scriptSig scriptPubKey) := by
  unfold verifyScript
  split
  · trivial
  · rename_i stackCopy hcopy
    split
    · trivial
    · trivial
    · rename_i back stack hstack
      split
      · trivial
      · split
        · rename_i hhash
          split
          · trivial
          · have hcopyNe : stackCopy ≠ [] := by
              rintro rfl
              rw [evalScript_nil_of_isPayToScriptHash input hhash] at hstack
              cases hstack
            have hfits : Holds (fun _ => True) stackCopy.length stackCopy :=
              ⟨rfl, fun _ _ => trivial⟩
            have hpos := List.length_pos_iff.mpr hcopyNe
            apply (hfits.peek (by omega) (by omega)).bind
            intro pubKeySerialized _
            apply (hfits.pop hpos).bind
            intro stackCopy' _
            split <;> trivial
        · trivial

/-- The rounds of the loop. -/
def EvalStep (input : ScriptInput) (s s' : EvalState) : Prop := evalStep input s = .ok s'

theorem EvalState.Sized.run {input : ScriptInput} {s s' : EvalState} (h : s.Sized)
    (hrun : Relation.ReflTransGen (EvalStep input) s s') : s'.Sized := by
  induction hrun with
  | refl => exact h
  | tail _ hstep ih => exact (safe_evalStep input ih).of_eq_ok hstep

/-- `EvalScript` never reaches below the bottom of a stack, and between two instructions the
stacks are within their bounds. `VerifyScript` never looks for a script on an empty stack copy. -/
theorem evalScript_verifyScript_safe (input : ScriptInput) :
    (∀ (stack : Stack) (script : Script), stack.length ≤ 1000 →
      (∀ vch ∈ stack, vch.length ≤ maxScriptElementSize) →
        evalThrowing input stack script ≠ .error .underflow ∧
        ∀ s, Relation.ReflTransGen (EvalStep input) (.start stack script) s →
          evalStep input s ≠ .error .underflow ∧ s.Sized) ∧
    ∀ scriptSig scriptPubKey, verifyScript input scriptSig scriptPubKey ≠ .error .underflow := by
  refine ⟨fun stack script hsize h => ?_, fun scriptSig scriptPubKey => ?_⟩
  · refine ⟨(safe_evalThrowing input hsize h script).ne_underflow, fun s hrun => ?_⟩
    have hs := (EvalState.Sized.start hsize h script).run hrun
    exact ⟨(safe_evalStep input hs).ne_underflow, hs⟩
  · exact (safe_verifyScript input scriptSig scriptPubKey).ne_underflow

namespace Sample

def scriptInput : ScriptInput where
  crypto := ⟨fun _ => .replicate 20 0, fun _ => .replicate 32 0, fun _ => .replicate 20 0,
    fun _ _ _ => false⟩
  txTo := spend 1 [⟨5, 0⟩] [out 7]
  nIn := 0
  nHashType := 0

end Sample

open Sample in
/-- `OP_DUP`, a count from the stack and `OP_PICK`: one more is refused. -/
theorem evalScript_verifyScript_safe_pick :
    evalScript scriptInput [[5]] [0x76, 0x51, 0x79] = some [[5], [5], [5]] ∧
      evalScript scriptInput [[5]] [0x76, 0x52, 0x79] = none ∧
      evalThrowing scriptInput [[5]] [0x76, 0x52, 0x79] ≠ .error .underflow :=
  ⟨by decide, by decide,
    ((evalScript_verifyScript_safe scriptInput).1 [[5]] [0x76, 0x52, 0x79] (by decide)
      (by decide)).1⟩

end Beancash
