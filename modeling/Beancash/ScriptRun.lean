import Beancash.EvalSafe

namespace Beancash

open ByteStream StackMachine

/-- What the last evaluation of `VerifyScript` comes to. -/
def topVerdict : Option Stack → ScriptEval Bool
  | none => pure false
  | some [] => pure false
  | some (back :: _) => pure (castToBool back)

/-- An opcode, and what it pushes. -/
abbrev Instruction := UInt8 × List UInt8

inductive Parses : Script → List Instruction → Prop where
  | nil : Parses [] []
  | cons {pc rest : Script} {opcode : UInt8} {vch : List UInt8} {l : List Instruction}
      (hop : getOp pc = some (opcode, vch, rest)) (h : Parses rest l) :
      Parses pc ((opcode, vch) :: l)

namespace Parses

theorem eq_nil {pc : Script} (h : Parses pc []) : pc = [] := by
  cases h
  rfl

theorem exists_rest {pc : Script} {opcode : UInt8} {vch : List UInt8} {l : List Instruction}
    (h : Parses pc ((opcode, vch) :: l)) :
    ∃ rest, getOp pc = some (opcode, vch, rest) ∧ Parses rest l := by
  cases h with
  | cons hop h => exact ⟨_, hop, h⟩

theorem eq_nil_of_opcode {pc : Script} {l : List Instruction} (h : Parses pc l) {i : Instruction}
    (hi : i ∈ l) (hopcode : opPushData4 < i.1) : i.2 = [] := by
  induction h with
  | nil => cases hi
  | cons hop _ ih =>
    rcases List.mem_cons.mp hi with rfl | hi
    · exact (getOp_eq_some hop).2.2 hopcode
    · exact ih hi

end Parses

section Direct

variable {n : ℕ} (hn : n < 0x4c)

include hn

theorem toNat_ofNat_direct : (UInt8.ofNat n).toNat = n :=
  UInt8.toNat_ofNat_of_lt' (by change n < 256; omega)

theorem ofNat_lt_pushData1 : UInt8.ofNat n < opPushData1 := by
  rw [UInt8.lt_iff_toNat_lt, toNat_ofNat_direct hn]
  exact hn

theorem ofNat_le_pushData4 : UInt8.ofNat n ≤ opPushData4 := by
  rw [UInt8.le_iff_toNat_le, toNat_ofNat_direct hn]
  change n ≤ 0x4e
  omega

end Direct

theorem getOp_of_pushSize {opcode : UInt8} (hle : opcode ≤ opPushData4) {n : ℕ} {pc pc' : Script}
    (hsize : (pushSize opcode).run pc = some (n, pc')) : getOp (opcode :: pc) =
      if pc'.length % 2 ^ 32 < n then none else some (opcode, pc'.take n, pc'.drop n) := by
  rw [getOp, if_pos hle, hsize]
  rfl

theorem getOp_of_fits {opcode : UInt8} (hle : opcode ≤ opPushData4) {n : ℕ} {pc b rest : Script}
    (hsize : (pushSize opcode).run pc = some (n, b ++ rest)) (hb : b.length = n)
    (hrest : (b ++ rest).length < 2 ^ 32) : getOp (opcode :: pc) = some (opcode, b, rest) := by
  have hfits : ¬(b ++ rest).length % 2 ^ 32 < n := by
    rw [Nat.mod_eq_of_lt hrest, List.length_append]
    omega
  rw [getOp_of_pushSize hle hsize, if_neg hfits, List.take_left' hb, List.drop_left' hb]

theorem getOp_direct {n : ℕ} (hn : n < 0x4c) {b rest : List UInt8} (hb : b.length = n)
    (hrest : (b ++ rest).length < 2 ^ 32) :
    getOp (.ofNat n :: (b ++ rest)) = some (.ofNat n, b, rest) := by
  refine getOp_of_fits (ofNat_le_pushData4 hn) ?_ hb hrest
  rw [pushSize, if_pos (ofNat_lt_pushData1 hn), toNat_ofNat_direct hn]
  rfl

theorem getOp_pushData {opcode : UInt8} (hle : opcode ≤ opPushData4) {k n : ℕ} {b rest : List UInt8}
    (hopcode : pushSize opcode = number k) (hn : n < 256 ^ k) (hb : b.length = n)
    (hrest : (b ++ rest).length < 2 ^ 32) :
    getOp (opcode :: (littleEndian k n ++ (b ++ rest))) = some (opcode, b, rest) := by
  refine getOp_of_fits hle ?_ hb hrest
  rw [hopcode]
  exact reads_number hn _

theorem getOp_pushBytes {b rest : List UInt8} (h : (b ++ rest).length < 2 ^ 32) :
    ∃ opcode, opcode ≤ opPushData4 ∧
      getOp (Script.pushBytes b ++ rest) = some (opcode, b, rest) := by
  have hlen : b.length < 2 ^ 32 := by
    rw [List.length_append] at h
    omega
  unfold Script.pushBytes
  split
  · rename_i hlt
    change b.length < 0x4c at hlt
    exact ⟨.ofNat b.length, ofNat_le_pushData4 hlt, getOp_direct hlt rfl h⟩
  · split
    · rename_i hle
      exact ⟨opPushData1, by decide, getOp_pushData (by decide) (k := 1) (n := b.length) rfl
        (by omega) rfl h⟩
    · split
      · rename_i hle
        refine ⟨opPushData2, by decide, ?_⟩
        rw [List.cons_append, List.cons_append, List.append_assoc]
        exact getOp_pushData (by decide) rfl (by omega) rfl h
      · refine ⟨opPushData4, by decide, ?_⟩
        rw [List.cons_append, List.cons_append, List.append_assoc]
        exact getOp_pushData (by decide) rfl hlen rfl h

theorem eq_of_pushBytes_isPrefixOf {b pc rest : Script} {opcode : UInt8} {vch : List UInt8}
    (hb : b.length < 0x4c) (hop : getOp pc = some (opcode, vch, rest))
    (h : (Script.pushBytes b).isPrefixOf pc = true) : vch = b := by
  obtain ⟨tail, rfl⟩ := List.isPrefixOf_iff_prefix.mp h
  have hpush : Script.pushBytes b = .ofNat b.length :: b := if_pos hb
  rw [hpush, List.cons_append, getOp, if_pos (ofNat_le_pushData4 hb), pushSize,
    if_pos (ofNat_lt_pushData1 hb), toNat_ofNat_direct hb] at hop
  change (if (b ++ tail).length % 2 ^ 32 < b.length then none else _) = _ at hop
  split at hop
  · cases hop
  · rw [List.take_left] at hop
    cases hop
    rfl

theorem pushBytes_ne_nil (b : List UInt8) : Script.pushBytes b ≠ [] := by
  unfold Script.pushBytes
  split_ifs <;> exact List.cons_ne_nil _ _

theorem findAndDelete_pushBytes {script : Script} {l : List Instruction} (h : Parses script l)
    {b : List UInt8} (hb : b.length < 0x4c) (hne : ∀ i ∈ l, i.2 ≠ b) :
    script.findAndDelete (Script.pushBytes b) = script := by
  have hpush := pushBytes_ne_nil b
  induction h with
  | nil =>
    rw [Script.findAndDelete_eq hpush, isPrefixOf_nil hpush]
    rfl
  | @cons pc rest opcode vch l hop _ ih =>
    have hprefix : (Script.pushBytes b).isPrefixOf pc = false := by
      rw [Bool.eq_false_iff]
      intro hprefix
      exact hne _ List.mem_cons_self (eq_of_pushBytes_isPrefixOf hb hop hprefix)
    rw [Script.findAndDelete_eq hpush, hprefix, if_neg Bool.false_ne_true, hop]
    change pc.take (pc.length - rest.length) ++ rest.findAndDelete _ = pc
    rw [ih fun i hi => hne i (List.mem_cons_of_mem _ hi)]
    obtain ⟨front, rfl⟩ := (getOp_eq_some hop).1
    rw [List.length_append, Nat.add_sub_cancel, List.take_left]

/-- In the middle of a script without `OP_IF`, alternative stack and code separators. -/
def EvalState.plain (script pc : Script) (stack : Stack) (nOpCount : ℕ) : EvalState where
  pc := pc
  pbegincodehash := script
  stack := stack
  altstack := []
  vfExec := []
  nOpCount := nOpCount

abbrev EvalRun (input : ScriptInput) : EvalState → EvalState → Prop :=
  Relation.ReflTransGen (EvalStep input)

section Run

variable {input : ScriptInput} {script pc rest : Script} {stack stack' : Stack} {opcode : UInt8}
  {vch : List UInt8} {n n' : ℕ}

theorem require_of {p : Prop} [Decidable p] (hp : p) : (require p : ScriptEval Unit) = .ok () :=
  if_pos hp

theorem evalStep_of_checks {s s' : EvalState} (hop : getOp s.pc = some (opcode, vch, rest))
    (hvch : vch.length ≤ maxScriptElementSize)
    (hn : op16 < opcode → (if op16 < opcode then s.nOpCount + 1 else s.nOpCount) ≤ 201)
    (hdisabled : opcode ∉ disabledOpcodes)
    (heval : evalInstruction input { s with
        pc := rest
        nOpCount := if op16 < opcode then s.nOpCount + 1 else s.nOpCount } opcode vch = .ok s')
    (hsize : s'.stack.length + s'.altstack.length ≤ 1000) : EvalStep input s s' := by
  unfold EvalStep evalStep
  rw [hop]
  dsimp only
  rw [require_of hvch, require_of hn, require_of hdisabled, heval]
  change (do
    require (s'.stack.length + s'.altstack.length ≤ 1000)
    return s') = _
  rw [require_of hsize]
  rfl

theorem op16_lt_of_mem_disabledOpcodes {opcode : UInt8} (h : opcode ∈ disabledOpcodes) :
    op16 < opcode := by
  have hall : disabledOpcodes.all (fun o => decide (op16 < o)) = true := by decide
  exact of_decide_eq_true (List.all_eq_true.mp hall opcode h)

theorem notMem_disabledOpcodes {opcode : UInt8} (h : opcode ≤ op16) : opcode ∉ disabledOpcodes :=
  fun hmem => UInt8.not_lt.mpr h (op16_lt_of_mem_disabledOpcodes hmem)

theorem evalStep_push (hop : getOp pc = some (opcode, vch, rest)) (hpush : opcode ≤ opPushData4)
    (hvch : vch.length ≤ maxScriptElementSize) (hstack : stack.length < 1000) :
    EvalStep input (.plain script pc stack n) (.plain script rest (vch :: stack) n) := by
  have hle : opcode ≤ op16 := UInt8.le_trans hpush (by decide)
  have h16 : ¬op16 < opcode := UInt8.not_lt.mpr hle
  apply evalStep_of_checks hop hvch (fun h => absurd h h16) (notMem_disabledOpcodes hle)
  · rw [if_neg h16]
    simp only [evalInstruction, EvalState.plain, List.all_nil, hpush, decide_true, Bool.and_true,
      if_true]
    rfl
  · exact hstack

/-- An opcode with a case of the switch. `OP_1` to `OP_16` do not count as operations. -/
theorem evalStep_opcode {op : Opcode} (hop : getOp pc = some (opcode, vch, rest))
    (hpush : opPushData4 < opcode) (hn : n < 201) (hdisabled : opcode ∉ disabledOpcodes)
    (hopcode : toOpcode opcode = some op)
    (heval : evalOpcode input (.plain script rest stack (if op16 < opcode then n + 1 else n)) true
      op = .ok (.plain script rest stack' n'))
    (hstack : stack'.length ≤ 1000) :
    EvalStep input (.plain script pc stack n) (.plain script rest stack' n') := by
  have hcount : op16 < opcode → (if op16 < opcode then n + 1 else n) ≤ 201 := by
    intro h
    rw [if_pos h]
    exact hn
  have hvch : vch.length ≤ maxScriptElementSize := by
    rw [(getOp_eq_some hop).2.2 hpush]
    exact Nat.zero_le _
  have hpush' : ¬opcode ≤ opPushData4 := UInt8.not_le.mpr hpush
  apply evalStep_of_checks hop hvch hcount hdisabled
  · change evalInstruction input
      (.plain script rest stack (if op16 < opcode then n + 1 else n)) opcode vch = _
    generalize (if op16 < opcode then n + 1 else n) = k at heval ⊢
    simp only [evalInstruction, show (EvalState.plain script rest stack k).vfExec.all id = true
      from rfl, hpush', decide_false, Bool.and_false, Bool.false_eq_true, if_false, Bool.true_or,
      if_true, hopcode]
    exact heval
  · exact hstack

theorem evalLoop_of_run {s s' : EvalState} (hrun : EvalRun input s s') (hend : s'.pc = [])
    {fuel : ℕ} (hfuel : s.pc.length ≤ fuel) : evalLoop input fuel s = .ok s' := by
  induction hrun using Relation.ReflTransGen.head_induction_on generalizing fuel with
  | refl =>
    cases fuel with
    | zero => rfl
    | succ fuel =>
      rw [evalLoop, if_pos hend]
      rfl
  | @head s t hstep _ ih =>
    have hlt := pc_evalStep input t hstep
    cases fuel with
    | zero => omega
    | succ fuel =>
      have hne : s.pc ≠ [] := by
        intro hnil
        rw [hnil] at hlt
        exact absurd hlt (Nat.not_lt_zero _)
      rw [evalLoop, if_neg hne, show evalStep input s = .ok t from hstep]
      exact ih (by omega)

theorem evalScript_of_run (hsize : script.length ≤ 10000)
    (hrun : EvalRun input (.plain script script stack 0) (.plain script [] stack' n)) :
    evalScript input stack script = some stack' := by
  unfold evalScript evalThrowing
  rw [require, if_pos hsize]
  have hloop : evalLoop input script.length (.start stack script) = .ok _ :=
    evalLoop_of_run hrun rfl (Nat.le_refl _)
  rw [hloop]
  rfl

end Run

/-- The instructions that push so many byte strings. -/
def pushAll (l : List (List UInt8)) : Script := l.flatMap Script.pushBytes

theorem pushAll_nil : pushAll [] = [] := rfl

theorem pushAll_cons (b : List UInt8) (l : List (List UInt8)) :
    pushAll (b :: l) = Script.pushBytes b ++ pushAll l := rfl

theorem pushAll_append (l l' : List (List UInt8)) :
    pushAll (l ++ l') = pushAll l ++ pushAll l' := List.flatMap_append

theorem length_pushBytes_le (b : List UInt8) : (Script.pushBytes b).length ≤ b.length + 5 := by
  unfold Script.pushBytes
  split_ifs <;> simp only [List.length_append, List.length_cons, length_littleEndian] <;> omega

theorem length_le_pushBytes (b : List UInt8) : b.length ≤ (Script.pushBytes b).length := by
  unfold Script.pushBytes
  split_ifs <;> simp only [List.length_append, List.length_cons, length_littleEndian] <;> omega

theorem length_pushAll_le {l : List (List UInt8)} {k : ℕ} (h : ∀ b ∈ l, b.length ≤ k) :
    (pushAll l).length ≤ l.length * (k + 5) := by
  induction l with
  | nil => exact Nat.zero_le _
  | cons b l ih =>
    have hb := h b List.mem_cons_self
    have hl := ih fun b' hb' => h b' (List.mem_cons_of_mem _ hb')
    have hpush := length_pushBytes_le b
    rw [pushAll_cons, List.length_append, List.length_cons, Nat.add_mul]
    omega

theorem length_append_pushAll_le (b : List UInt8) (l : List (List UInt8)) :
    (b ++ pushAll l).length ≤ (pushAll (b :: l)).length := by
  rw [pushAll_cons, List.length_append, List.length_append]
  exact Nat.add_le_add_right (length_le_pushBytes b) _

theorem run_pushAll {input : ScriptInput} {script : Script} {n : ℕ} {l : List (List UInt8)}
    (hl : ∀ b ∈ l, b.length ≤ maxScriptElementSize) (hsize : (pushAll l).length < 2 ^ 32)
    {stack : Stack} (hstack : stack.length + l.length ≤ 1000) :
    EvalRun input (.plain script (pushAll l) stack n)
      (.plain script [] (l.reverse ++ stack) n) := by
  induction l generalizing stack with
  | nil => exact .refl
  | cons b l ih =>
    have hrest := Nat.lt_of_le_of_lt (length_append_pushAll_le b l) hsize
    obtain ⟨opcode, hpush, hop⟩ := getOp_pushBytes hrest
    rw [List.length_cons] at hstack
    have hstep : EvalStep input (.plain script (pushAll (b :: l)) stack n)
        (.plain script (pushAll l) (b :: stack) n) :=
      evalStep_push hop hpush (hl b List.mem_cons_self) (by omega)
    have hlen := (List.length_append : (b ++ pushAll l).length = _)
    have hstack' : (b :: stack).length + l.length ≤ 1000 := by
      rw [List.length_cons]
      omega
    have hrun := ih (fun b' hb' => hl b' (List.mem_cons_of_mem _ hb')) (by omega) hstack'
    rw [List.reverse_cons, List.append_assoc]
    exact .head hstep hrun

theorem evalScript_pushAll (input : ScriptInput) {l : List (List UInt8)}
    (hl : ∀ b ∈ l, b.length ≤ maxScriptElementSize) (hsize : (pushAll l).length ≤ 10000)
    (hlen : l.length ≤ 1000) : evalScript input [] (pushAll l) = some l.reverse := by
  have hstack : ([] : Stack).length + l.length ≤ 1000 := by rwa [List.length_nil, Nat.zero_add]
  have hrun : EvalRun input (.plain (pushAll l) (pushAll l) [] 0)
      (.plain (pushAll l) [] (l.reverse ++ []) 0) := run_pushAll hl (by omega) hstack
  rw [List.append_nil] at hrun
  exact evalScript_of_run hsize hrun

theorem isPushOnly_pushAll {l : List (List UInt8)} (hsize : (pushAll l).length < 2 ^ 32) :
    (pushAll l).isPushOnly = true := by
  have hfrom : ∀ fuel, pushOnlyFrom fuel (pushAll l) = true := by
    intro fuel
    induction l generalizing fuel with
    | nil => cases fuel <;> rfl
    | cons b l ih =>
      cases fuel with
      | zero => rfl
      | succ fuel =>
        have hrest := Nat.lt_of_le_of_lt (length_append_pushAll_le b l) hsize
        obtain ⟨opcode, hpush, hop⟩ := getOp_pushBytes hrest
        have hle : opcode ≤ op16 := UInt8.le_trans hpush (by decide)
        have hlen := (List.length_append : (b ++ pushAll l).length = _)
        rw [pushAll_cons, pushOnlyFrom, hop]
        split
        · rfl
        · simp only [hle, decide_true, Bool.true_and]
          exact ih (by omega) fuel
  exact hfrom _

end Beancash
