import Beancash.TemplateScripts
import Mathlib.Data.List.Forall2

namespace Beancash

open ByteStream StackMachine

theorem peek_of_getElem? {ε α : Type} {stack : List α} {k : ℕ} {a : α}
    (h : stack[k]? = some a) : (peek stack (-(k + 1 : ℕ)) : Eval ε α) = .ok a := by
  change (stack[k]?).elim (.error .underflow) Except.ok = (.ok a : Eval ε α)
  rw [h]
  rfl

theorem popMany_length {ε α : Type} (stack : List α) :
    (popMany stack.length stack : Eval ε (List α)) = .ok [] := by
  induction stack with
  | nil => rfl
  | cons a stack ih => exact ih

section CheckSigs

variable {good : List UInt8 → List UInt8 → Bool} {stack : Stack}

theorem sublistForall₂_of_cons {α β : Type} {R : α → β → Prop} {a : α} {l : List α}
    {l' : List β} (h : List.SublistForall₂ R (a :: l) l') : List.SublistForall₂ R l l' := by
  generalize hl : a :: l = l₁ at h
  induction h with
  | nil => cases hl
  | cons _ h _ =>
    cases hl
    exact .cons_right h
  | cons_right _ ih => exact .cons_right (ih hl)

theorem length_le_of_sublistForall₂ {α β : Type} {R : α → β → Prop} {l : List α} {l' : List β}
    (h : List.SublistForall₂ R l l') : l.length ≤ l'.length := by
  obtain ⟨l'', hall, hsub⟩ := List.sublistForall₂_iff.mp h
  exact hall.length_eq ▸ hsub.length_le

/-- The elements of a list stand on the stack from a place on. -/
def StandsAt (stack : Stack) (i : ℕ) (l : List (List UInt8)) : Prop :=
  ∀ k, ∀ a ∈ l[k]?, stack[i + k]? = some a

theorem StandsAt.tail {i : ℕ} {a : List UInt8} {l : List (List UInt8)}
    (h : StandsAt stack i (a :: l)) : StandsAt stack (i + 1) l := by
  intro k b hb
  have hk := h (k + 1) b hb
  rwa [Nat.add_comm k 1, ← Nat.add_assoc] at hk

theorem StandsAt.peek {i : ℕ} {a : List UInt8} {l : List (List UInt8)}
    (h : StandsAt stack i (a :: l)) : stacktop stack (-(i + 1 : ℕ)) = .ok a :=
  peek_of_getElem? (h 0 a rfl)

theorem standsAt_append (front l back : List (List UInt8)) :
    StandsAt (front ++ (l ++ back)) front.length l := by
  intro k a ha
  obtain ⟨hk, _⟩ := List.getElem?_eq_some_iff.mp ha
  rw [List.getElem?_append_right (Nat.le_add_right _ _), Nat.add_sub_cancel_left,
    List.getElem?_append_left hk]
  exact ha

/-- The places in which `OP_CHECKMULTISIG` finds the number of signatures and the signatures. -/
theorem peek_sigsCount (vchN vchM : List UInt8) (keys : List (List UInt8)) (stack : Stack) :
    stacktop (vchN :: (keys ++ vchM :: stack)) (-((2 + keys.length : ℕ) : ℤ)) = .ok vchM := by
  have hat : StandsAt (vchN :: (keys ++ vchM :: stack)) (keys.length + 1) [vchM] :=
    standsAt_append (vchN :: keys) [vchM] stack
  rw [Nat.add_comm 2]
  exact hat.peek

theorem standsAt_sigs (vchN vchM : List UInt8) (keys sigs : List (List UInt8)) (back : Stack) :
    StandsAt (vchN :: (keys ++ vchM :: (sigs ++ back))) (keys.length + 2) sigs := by
  have hat := standsAt_append (vchN :: (keys ++ [vchM])) sigs back
  rw [List.length_cons, List.length_append, List.cons_append, List.append_assoc] at hat
  exact hat

/-- Each signature is tried with the first key that is left. Where the key does for it, the next
signatures can do with the keys after it; where it does not, they need none of it. -/
theorem checkSigs_of_sublistForall₂ {sigs keys : List (List UInt8)} {isig ikey : ℕ}
    (hsigs : StandsAt stack isig sigs) (hkeys : StandsAt stack ikey keys)
    (h : List.SublistForall₂ (fun sig key => good sig key = true) sigs keys) :
    checkSigs good stack keys.length sigs.length (isig + 1) (ikey + 1) = .ok true := by
  induction keys generalizing sigs isig ikey with
  | nil =>
    cases h
    rfl
  | cons key keys ih =>
    cases sigs with
    | nil => rfl
    | cons sig sigs =>
      rw [List.length_cons, List.length_cons, checkSigs, hsigs.peek, hkeys.peek]
      change (if good sig key then _ else _) = _
      split
      · have hrest : List.SublistForall₂ (fun sig key => good sig key = true) sigs keys := by
          cases h with
          | cons _ h => exact h
          | cons_right h => exact sublistForall₂_of_cons h
        rw [if_neg (Nat.not_lt.mpr (length_le_of_sublistForall₂ hrest))]
        exact ih hsigs.tail hkeys.tail hrest
      · rename_i hgood
        have hrest : List.SublistForall₂ (fun sig key => good sig key = true) (sig :: sigs) keys := by
          cases h with
          | cons h _ => exact absurd h hgood
          | cons_right h => exact h
        have hle : sigs.length + 1 ≤ keys.length := length_le_of_sublistForall₂ hrest
        rw [if_neg (Nat.not_lt.mpr hle)]
        exact ih hsigs hkeys.tail hrest

theorem dropSigs_of_findAndDelete {scriptCode : Script} {sigs : List (List UInt8)} {isig : ℕ}
    (hsigs : StandsAt stack isig sigs)
    (h : ∀ sig ∈ sigs, scriptCode.findAndDelete (Script.pushBytes sig) = scriptCode) :
    dropSigs stack (isig + 1) sigs.length scriptCode = .ok scriptCode := by
  induction sigs generalizing isig with
  | nil => rfl
  | cons sig sigs ih =>
    rw [List.length_cons, dropSigs, hsigs.peek]
    change dropSigs stack (isig + 1 + 1) sigs.length (scriptCode.findAndDelete _) = _
    rw [h sig List.mem_cons_self]
    exact ih hsigs.tail fun sig' hsig' => h sig' (List.mem_cons_of_mem _ hsig')

end CheckSigs

/-- What `OP_CHECKMULTISIG` reads a number as. -/
def CountIs (vch : List UInt8) (n : ℕ) : Prop := ∃ bn, castToBigNum vch = .ok bn ∧ getint bn = n

theorem countIs_opNumber {opcode : UInt8} (h : 0x51 ≤ opcode) (h' : opcode ≤ op16) :
    CountIs (signedVch ((opcode.toNat : ℤ) - (op1.toNat - 1))) (opcode - 0x50).toNat := by
  have hall : ∀ n : ℕ, n < 256 → 0x51 ≤ n → n ≤ 0x60 →
      (castToBigNum (signedVch ((n : ℤ) - 0x50))).map getint = .ok ((n - 0x50 : ℕ) : ℤ) := by
    decide +kernel
  have hnat := hall opcode.toNat opcode.toNat_lt h h'
  rw [UInt8.toNat_sub_of_le _ _ (UInt8.le_trans (by decide) h)]
  change (castToBigNum (signedVch ((opcode.toNat : ℤ) - (op1.toNat - 1)))).map getint = _ at hnat
  cases hcast : castToBigNum (signedVch ((opcode.toNat : ℤ) - (op1.toNat - 1))) with
  | error halt =>
    rw [hcast] at hnat
    cases hnat
  | ok bn =>
    rw [hcast] at hnat
    exact ⟨bn, hcast, Except.ok.inj hnat⟩

theorem le_opPushData4_of_push {pc rest : Script} {opcode : UInt8} {vch : List UInt8}
    (hop : getOp pc = some (opcode, vch, rest)) (hvch : vch ≠ []) : opcode ≤ opPushData4 := by
  rw [← UInt8.not_lt]
  exact fun hlt => hvch ((getOp_eq_some hop).2.2 hlt)

theorem length_le_of_pushSize {opcode : UInt8} {pc rest : Script} {nSize : ℕ}
    (h : (pushSize opcode).run pc = some (nSize, rest)) : pc.length ≤ rest.length + 4 := by
  have hnumber : ∀ n ≤ 4, (number n).run pc = some (nSize, rest) →
      pc.length ≤ rest.length + 4 := by
    intro n hn hrun
    rw [run_number] at hrun
    split at hrun
    · have hrest := (Prod.mk.inj (Option.some_injective _ hrun)).2
      rw [← hrest, List.length_drop]
      omega
    · cases hrun
  unfold pushSize at h
  split_ifs at h
  · have hrest := (Prod.mk.inj (Option.some_injective _ h)).2
    rw [← hrest]
    exact Nat.le_add_right _ _
  · exact hnumber 1 (by decide) h
  · exact hnumber 2 (by decide) h
  · exact hnumber 4 (by decide) h

theorem length_le_of_getOp {pc rest : Script} {opcode : UInt8} {vch : List UInt8}
    (hop : getOp pc = some (opcode, vch, rest)) : pc.length ≤ rest.length + vch.length + 5 := by
  cases pc with
  | nil => cases hop
  | cons opcode' pc =>
    rw [getOp] at hop
    split at hop
    · obtain ⟨⟨nSize, pc'⟩, hsize, hop⟩ := Option.bind_eq_some_iff.mp hop
      have hlen := length_le_of_pushSize hsize
      dsimp only at hop
      split at hop
      · cases hop
      · rename_i hmod
        have hle := Nat.mod_le pc'.length (2 ^ 32)
        obtain ⟨rfl, rfl, rfl⟩ : _ ∧ _ ∧ _ := by simpa using hop
        rw [List.length_cons, List.length_take, List.length_drop]
        omega
    · obtain ⟨rfl, rfl, rfl⟩ : _ ∧ _ ∧ _ := by simpa using hop
      rw [List.length_cons]
      omega

theorem Parses.length_le {script : Script} {l : List Instruction} {k : ℕ}
    (h : Parses script l) (hl : ∀ i ∈ l, i.2.length ≤ k) : script.length ≤ l.length * (k + 5) := by
  induction h with
  | nil => exact Nat.zero_le _
  | cons hop _ ih =>
    have hpc := length_le_of_getOp hop
    have hrest := ih fun i hi => hl i (List.mem_cons_of_mem _ hi)
    have hvch := hl _ List.mem_cons_self
    rw [List.length_cons, Nat.add_mul]
    dsimp only at hvch
    omega

section Templates

variable {input : ScriptInput} {script pc rest : Script} {opcode : UInt8} {vch sig : List UInt8}
  {stack : Stack} {n : ℕ}

theorem evalStep_checkSig (hop : getOp pc = some (0xac, [], rest)) (hn : n < 201)
    (hgood : input.goodSig (script.findAndDelete (Script.pushBytes sig)) sig vch = true)
    (hstack : stack.length < 1000) :
    EvalStep input (.plain script pc (vch :: sig :: stack) n)
      (.plain script rest (vchTrue :: stack) (n + 1)) := by
  apply evalStep_opcode hop (by decide) hn (by decide) (rfl : toOpcode 0xac = some .opCheckSig)
  · change (do
      let stack ← evalCheckSig input script (vch :: sig :: stack) false
      return ({ EvalState.plain script rest stack (n + 1) with stack } : EvalState)) = _
    have heval : evalCheckSig input script (vch :: sig :: stack) false =
        .ok (vchTrue :: stack) := by
      change pushBool stack (input.goodSig _ sig vch) false = _
      rw [hgood]
      rfl
    rw [heval]
    rfl
  · exact hstack

theorem evalStep_stackOp {op : StackOp} {stack' : Stack}
    (hop : getOp pc = some (opcode, vch, rest)) (hpush : op16 < opcode) (hn : n < 201)
    (hdisabled : opcode ∉ disabledOpcodes) (hopcode : toOpcode opcode = some (.onStack op))
    (heval : evalStackOp input.crypto stack op = .ok stack') (hstack : stack'.length ≤ 1000) :
    EvalStep input (.plain script pc stack n) (.plain script rest stack' (n + 1)) := by
  apply evalStep_opcode hop (UInt8.lt_trans (by decide) hpush) hn hdisabled hopcode _ hstack
  rw [if_pos hpush]
  change (do
    let stack ← evalStackOp input.crypto stack op
    return ({ EvalState.plain script rest stack (n + 1) with stack } : EvalState)) = _
  rw [heval]
  rfl

theorem evalScript_pubKey (hparses : Parses script [(opcode, vch), (0xac, [])]) (hvch : vch ≠ [])
    (hsize : vch.length ≤ maxScriptElementSize)
    (hgood : input.goodSig (script.findAndDelete (Script.pushBytes sig)) sig vch = true) :
    evalScript input [sig] script = some [vchTrue] := by
  have hlen : script.length ≤ 2 * (maxScriptElementSize + 5) := hparses.length_le (by
    intro i hi
    rcases List.mem_pair.mp hi with rfl | rfl
    · exact hsize
    · exact Nat.zero_le _)
  obtain ⟨rest, hop, hparses⟩ := hparses.exists_rest
  obtain ⟨rest', hop', hparses⟩ := hparses.exists_rest
  obtain rfl := hparses.eq_nil
  have hpush : EvalStep input (.plain script script [sig] 0) (.plain script rest [vch, sig] 0) :=
    evalStep_push hop (le_opPushData4_of_push hop hvch) hsize (by simp)
  have hcheck : EvalStep input (.plain script rest [vch, sig] 0) (.plain script [] [vchTrue] 1) :=
    evalStep_checkSig hop' (by decide) hgood (by simp)
  exact evalScript_of_run (Nat.le_trans hlen (by decide)) (.head hpush (.single hcheck))

theorem evalScript_pubKeyHash {id : List UInt8}
    (hparses : Parses script
      [(0x76, []), (0xa9, []), (opcode, id), (0x88, []), (0xac, [])])
    (hid : id.length = 20) (hhash : (input.crypto.hash160 vch).toList = id)
    (hgood : input.goodSig (script.findAndDelete (Script.pushBytes sig)) sig vch = true) :
    evalScript input [vch, sig] script = some [vchTrue] := by
  have hlen : script.length ≤ 5 * (20 + 5) := hparses.length_le (by simp [hid])
  obtain ⟨rest1, hop1, hparses⟩ := hparses.exists_rest
  obtain ⟨rest2, hop2, hparses⟩ := hparses.exists_rest
  obtain ⟨rest3, hop3, hparses⟩ := hparses.exists_rest
  obtain ⟨rest4, hop4, hparses⟩ := hparses.exists_rest
  obtain ⟨rest5, hop5, hparses⟩ := hparses.exists_rest
  obtain rfl := hparses.eq_nil
  have hne : id ≠ [] := by
    rintro rfl
    cases hid
  have hdup : EvalStep input (.plain script script [vch, sig] 0)
      (.plain script rest1 [vch, vch, sig] 1) :=
    evalStep_stackOp hop1 (by decide) (by decide) (by decide)
      (rfl : toOpcode 0x76 = some (.onStack .opDup)) rfl (by simp)
  have hhash160 : EvalStep input (.plain script rest1 [vch, vch, sig] 1)
      (.plain script rest2 [id, vch, sig] 2) :=
    evalStep_stackOp hop2 (by decide) (by decide) (by decide)
      (rfl : toOpcode 0xa9 = some (.onStack (.hash .opHash160))) (by rw [← hhash]; rfl) (by simp)
  have hpush : EvalStep input (.plain script rest2 [id, vch, sig] 2)
      (.plain script rest3 [id, id, vch, sig] 2) :=
    evalStep_push hop3 (le_opPushData4_of_push hop3 hne) (hid ▸ (by decide)) (by simp)
  have hequal : EvalStep input (.plain script rest3 [id, id, vch, sig] 2)
      (.plain script rest4 [vch, sig] 3) := by
    apply evalStep_stackOp hop4 (by decide) (by decide) (by decide)
      (rfl : toOpcode 0x88 = some (.onStack .opEqualVerify)) _ (by simp)
    change pushBool [vch, sig] (decide (id = id)) true = _
    rw [decide_eq_true rfl]
    rfl
  have hcheck : EvalStep input (.plain script rest4 [vch, sig] 3)
      (.plain script [] [vchTrue] 4) :=
    evalStep_checkSig hop5 (by decide) hgood (by simp)
  exact evalScript_of_run (Nat.le_trans hlen (by decide))
    (.head hdup (.head hhash160 (.head hpush (.head hequal (.single hcheck)))))

theorem evalScript_scriptHash {id : List UInt8}
    (hparses : Parses script [(0xa9, []), (0x14, id), (0x87, [])]) (hid : id.length = 20)
    (hhash : (input.crypto.hash160 vch).toList = id) (hstack : stack.length < 999) :
    evalScript input (vch :: stack) script = some (vchTrue :: stack) := by
  have hlen : script.length ≤ 3 * (20 + 5) := hparses.length_le (by simp [hid])
  obtain ⟨rest1, hop1, hparses⟩ := hparses.exists_rest
  obtain ⟨rest2, hop2, hparses⟩ := hparses.exists_rest
  obtain ⟨rest3, hop3, hparses⟩ := hparses.exists_rest
  obtain rfl := hparses.eq_nil
  have hhash160 : EvalStep input (.plain script script (vch :: stack) 0)
      (.plain script rest1 (id :: stack) 1) :=
    evalStep_stackOp hop1 (by decide) (by decide) (by decide)
      (rfl : toOpcode 0xa9 = some (.onStack (.hash .opHash160))) (by rw [← hhash]; rfl)
      (by rw [List.length_cons]; omega)
  have hpush : EvalStep input (.plain script rest1 (id :: stack) 1)
      (.plain script rest2 (id :: id :: stack) 1) :=
    evalStep_push hop2 (by decide) (hid ▸ (by decide)) (by rw [List.length_cons]; omega)
  have hequal : EvalStep input (.plain script rest2 (id :: id :: stack) 1)
      (.plain script [] (vchTrue :: stack) 2) := by
    apply evalStep_stackOp hop3 (by decide) (by decide) (by decide)
      (rfl : toOpcode 0x87 = some (.onStack .opEqual)) _ (by rw [List.length_cons]; omega)
    change pushBool stack (decide (id = id)) false = _
    rw [decide_eq_true rfl]
    rfl
  exact evalScript_of_run (Nat.le_trans hlen (by decide))
    (.head hhash160 (.head hpush (.single hequal)))

theorem evalCheckMultiSig_eq {vchN vchM : List UInt8} {keys sigs : List (List UInt8)}
    (hN : CountIs vchN keys.length) (hM : CountIs vchM sigs.length) (hkeys : keys.length ≤ 20)
    (hn : n + keys.length ≤ 201)
    (hsub : List.SublistForall₂ (fun sig key => input.goodSig script sig key = true) sigs keys)
    (hdrop : ∀ sig ∈ sigs, script.findAndDelete (Script.pushBytes sig) = script) :
    evalCheckMultiSig input script (vchN :: (keys ++ vchM :: (sigs ++ [[]]))) n false =
      .ok (n + keys.length, [vchTrue]) := by
  obtain ⟨bnN, hcastN, hgetN⟩ := hN
  obtain ⟨bnM, hcastM, hgetM⟩ := hM
  have hle := length_le_of_sublistForall₂ hsub
  have hatKeys : StandsAt (vchN :: (keys ++ vchM :: (sigs ++ [[]]))) 1 keys :=
    standsAt_append [vchN] keys _
  have hatSigs := standsAt_sigs vchN vchM keys sigs [[]]
  have hlen : (vchN :: (keys ++ vchM :: (sigs ++ [[]]))).length =
      keys.length + 2 + 1 + sigs.length := by
    simp only [List.length_cons, List.length_append, List.length_nil]
    omega
  have hpop : (popMany (keys.length + 2 + 1 + sigs.length)
      (vchN :: (keys ++ vchM :: (sigs ++ [[]]))) : ScriptEval Stack) = .ok [] := by
    rw [← hlen]
    exact popMany_length _
  have hpeekM := peek_sigsCount vchN vchM keys (sigs ++ [[]])
  have hdrops := dropSigs_of_findAndDelete hatSigs hdrop
  have hcheck := checkSigs_of_sublistForall₂ hatSigs hatKeys hsub
  generalize hstack : vchN :: (keys ++ vchM :: (sigs ++ [[]])) = stack
    at hlen hpop hpeekM hdrops hcheck ⊢
  have hpeekN : stacktop stack (-1) = .ok vchN := by
    rw [← hstack]
    rfl
  have hbounds : (0 : ℤ) ≤ keys.length ∧ (keys.length : ℤ) ≤ 20 := by omega
  have hbounds' : (0 : ℤ) ≤ sigs.length ∧ (sigs.length : ℤ) ≤ keys.length := by omega
  have hpos : 1 ≤ stack.length := by omega
  have hsize : 2 + keys.length ≤ stack.length := by omega
  have hsize' : 2 + keys.length + 1 + sigs.length ≤ stack.length := by omega
  rw [Nat.add_comm keys.length 2] at hpop hdrops hcheck
  simp only [evalCheckMultiSig, bind, Except.bind, require_of hpos, hpeekN, hcastN, hgetN,
    require_of hbounds, Int.toNat_natCast, require_of hn, require_of hsize, hpeekM, hcastM, hgetM,
    require_of hbounds', require_of hsize', hdrops, hcheck, hpop]
  rfl

theorem run_pushes {pushes l : List Instruction} (hparses : Parses pc (pushes ++ l))
    (hpushes : ∀ i ∈ pushes, i.2 ≠ [] ∧ i.2.length ≤ maxScriptElementSize)
    (hstack : stack.length + pushes.length ≤ 1000) :
    ∃ rest, Parses rest l ∧ EvalRun input (.plain script pc stack n)
      (.plain script rest ((pushes.map Prod.snd).reverse ++ stack) n) := by
  induction pushes generalizing pc stack with
  | nil => exact ⟨pc, hparses, .refl⟩
  | cons i pushes ih =>
    obtain ⟨opcode, vch⟩ := i
    obtain ⟨hne, hsize⟩ := hpushes _ List.mem_cons_self
    obtain ⟨rest, hop, hrest⟩ := hparses.exists_rest
    rw [List.length_cons] at hstack
    have hstep : EvalStep input (.plain script pc stack n) (.plain script rest (vch :: stack) n) :=
      evalStep_push hop (le_opPushData4_of_push hop hne) hsize (by omega)
    have hstack' : (vch :: stack).length + pushes.length ≤ 1000 := by
      rw [List.length_cons]
      omega
    obtain ⟨rest', hrest', hrun⟩ :=
      ih hrest (fun i hi => hpushes i (List.mem_cons_of_mem _ hi)) hstack'
    refine ⟨rest', hrest', ?_⟩
    rw [List.map_cons, List.reverse_cons, List.append_assoc]
    exact .head hstep hrun

theorem evalStep_opNumber (hop : getOp pc = some (opcode, vch, rest)) (h : 0x51 ≤ opcode)
    (h' : opcode ≤ op16) (hn : n < 201) (hstack : stack.length < 1000) :
    ∃ vchN, CountIs vchN (opcode - 0x50).toNat ∧
      EvalStep input (.plain script pc stack n) (.plain script rest (vchN :: stack) n) := by
  refine ⟨_, countIs_opNumber h h', ?_⟩
  have hpush : opPushData4 < opcode := UInt8.lt_of_lt_of_le (by decide) h
  have hopcode : toOpcode opcode = some (.onStack (.opNumber opcode)) := if_pos (Or.inr ⟨h, h'⟩)
  apply evalStep_opcode hop hpush hn (notMem_disabledOpcodes h') hopcode
  · rw [if_neg (UInt8.not_lt.mpr h')]
    rfl
  · exact hstack

/-- A signature for each of some of the keys in their order, above the element that is popped
with them. -/
theorem evalScript_multisig {opcodeM opcodeN : UInt8} {vchM vchN : List UInt8}
    {pushes : List Instruction} {sigs : List (List UInt8)}
    (hparses : Parses script ((opcodeM, vchM) :: (pushes ++ [(opcodeN, vchN), (0xae, [])])))
    (hM : 0x51 ≤ opcodeM) (hM' : opcodeM ≤ op16) (hN : 0x51 ≤ opcodeN) (hN' : opcodeN ≤ op16)
    (hsigs : sigs.length = (opcodeM - 0x50).toNat) (hkeys : pushes.length = (opcodeN - 0x50).toNat)
    (hpushes : ∀ i ∈ pushes, i.2 ≠ [] ∧ i.2.length ≤ maxScriptElementSize)
    (hsub : List.SublistForall₂ (fun sig key => input.goodSig script sig key = true) sigs
      (pushes.map Prod.snd))
    (hdrop : ∀ sig ∈ sigs, script.findAndDelete (Script.pushBytes sig) = script) :
    evalScript input (sigs.reverse ++ [[]]) script = some [vchTrue] := by
  have h16 : pushes.length ≤ 16 := by
    rw [hkeys, UInt8.toNat_sub_of_le _ _ (UInt8.le_trans (by decide) hN)]
    have hle : opcodeN.toNat ≤ 0x60 := UInt8.le_iff_toNat_le.mp hN'
    change opcodeN.toNat - 0x50 ≤ 16
    omega
  have hle := length_le_of_sublistForall₂ hsub
  rw [List.length_map] at hle
  have hpushM : opPushData4 < opcodeM := UInt8.lt_of_lt_of_le (by decide) hM
  have hpushN : opPushData4 < opcodeN := UInt8.lt_of_lt_of_le (by decide) hN
  obtain ⟨pc1, hop1, hparses1⟩ := hparses.exists_rest
  have hbottom : (sigs.reverse ++ [[]]).length = sigs.length + 1 := by simp
  obtain ⟨m, hm, hopM⟩ : ∃ m, CountIs m (opcodeM - 0x50).toNat ∧
      EvalStep input (.plain script script (sigs.reverse ++ [[]]) 0)
        (.plain script pc1 (m :: (sigs.reverse ++ [[]])) 0) :=
    evalStep_opNumber hop1 hM hM' (by decide) (by omega)
  obtain ⟨pc2, hparses2, hrun⟩ : ∃ rest, Parses rest [(opcodeN, vchN), (0xae, [])] ∧
      EvalRun input (.plain script pc1 (m :: (sigs.reverse ++ [[]])) 0)
        (.plain script rest
          ((pushes.map Prod.snd).reverse ++ m :: (sigs.reverse ++ [[]])) 0) :=
    run_pushes hparses1 hpushes (by rw [List.length_cons]; omega)
  obtain ⟨pc3, hop3, hparses3⟩ := hparses2.exists_rest
  obtain ⟨pc4, hop4, hparses4⟩ := hparses3.exists_rest
  obtain rfl := hparses4.eq_nil
  have hheight : ((pushes.map Prod.snd).reverse ++ m :: (sigs.reverse ++ [[]])).length =
      pushes.length + (sigs.length + 2) := by simp
  obtain ⟨k, hk, hopN⟩ : ∃ k, CountIs k (opcodeN - 0x50).toNat ∧
      EvalStep input
        (.plain script pc2 ((pushes.map Prod.snd).reverse ++ m :: (sigs.reverse ++ [[]])) 0)
        (.plain script pc3
          (k :: ((pushes.map Prod.snd).reverse ++ m :: (sigs.reverse ++ [[]]))) 0) :=
    evalStep_opNumber hop3 hN hN' (by decide) (by omega)
  have hkeys' : (pushes.map Prod.snd).reverse.length = pushes.length := by simp
  have hcheck : EvalStep input
      (.plain script pc3 (k :: ((pushes.map Prod.snd).reverse ++ m :: (sigs.reverse ++ [[]]))) 0)
      (.plain script [] [vchTrue] (1 + (pushes.map Prod.snd).reverse.length)) := by
    apply evalStep_opcode hop4 (by decide) (by decide) (by decide)
      (rfl : toOpcode 0xae = some .opCheckMultiSig)
    · change (do
        let r ← evalCheckMultiSig input script
          (k :: ((pushes.map Prod.snd).reverse ++ m :: (sigs.reverse ++ [[]]))) 1 false
        return ({ EvalState.plain script [] _ _ with stack := r.2, nOpCount := r.1 } :
          EvalState)) = _
      rw [evalCheckMultiSig_eq]
      · rfl
      · rwa [hkeys', hkeys]
      · rwa [List.length_reverse, hsigs]
      · omega
      · omega
      · rw [List.sublistForall₂_iff] at hsub ⊢
        obtain ⟨l, hall, hsublist⟩ := hsub
        exact ⟨l.reverse, List.forall₂_reverse_iff.mpr hall, hsublist.reverse⟩
      · intro sig hsig
        exact hdrop sig (List.mem_reverse.mp hsig)
    · simp
  have hsize : script.length ≤ 10000 := by
    have hall : ∀ i ∈ (opcodeM, vchM) :: (pushes ++ [(opcodeN, vchN), (0xae, [])]),
        i.2.length ≤ maxScriptElementSize := by
      intro i hi
      have hopcodes := hparses.eq_nil_of_opcode hi
      rcases List.mem_cons.mp hi with rfl | hi'
      · rw [hopcodes hpushM]
        exact Nat.zero_le _
      · rcases List.mem_append.mp hi' with hi' | hi'
        · exact (hpushes i hi').2
        · rcases List.mem_pair.mp hi' with rfl | rfl
          · rw [hopcodes hpushN]
            exact Nat.zero_le _
          · exact Nat.zero_le _
    have hlen := hparses.length_le hall
    simp only [List.length_cons, List.length_append, List.length_nil] at hlen
    change script.length ≤ _ * 525 at hlen
    omega
  exact evalScript_of_run hsize (.head hopM (hrun.trans (.head hopN (.single hcheck))))

end Templates

end Beancash
