import Beancash.ScriptRun
import Beancash.Solver

namespace Beancash

open ByteStream

theorem getOp_opcode {opcode : UInt8} {pc : Script} (h : ¬opcode ≤ opPushData4) :
    getOp (opcode :: pc) = some (opcode, [], pc) := if_neg h

theorem Script.isPayToScriptHash_iff {script : Script} : script.isPayToScriptHash = true ↔
    ∃ hash : List UInt8, hash.length = 20 ∧ script = 0xa9 :: 0x14 :: (hash ++ [0x87]) := by
  constructor
  · intro h
    simp only [Script.isPayToScriptHash, Bool.and_eq_true, decide_eq_true_eq] at h
    obtain ⟨⟨⟨hlen, h0⟩, h1⟩, h22⟩ := h
    obtain ⟨b0, b1, rest, rfl⟩ : ∃ b0 b1 rest, script = b0 :: b1 :: rest := by
      cases script with
      | nil => simp at hlen
      | cons b0 script =>
        cases script with
        | nil => simp at hlen
        | cons b1 rest => exact ⟨b0, b1, rest, rfl⟩
    cases h0
    cases h1
    simp only [List.length_cons] at hlen
    obtain ⟨hash, b, hrest⟩ := (List.eq_nil_or_concat rest).resolve_left (by
      rintro rfl
      simp at hlen)
    rw [List.concat_eq_append] at hrest
    rw [hrest, List.length_append, List.length_singleton] at hlen
    refine ⟨hash, by omega, ?_⟩
    simp only [List.getElem?_cons_succ] at h22
    rw [hrest, List.getElem?_append_right (by omega), show 20 - hash.length = 0 by omega] at h22
    rw [hrest, Option.some_injective _ h22]
  · rintro ⟨hash, hlen, rfl⟩
    simp only [Script.isPayToScriptHash, Bool.and_eq_true, decide_eq_true_eq]
    refine ⟨⟨⟨by simp [hlen], rfl⟩, rfl⟩, ?_⟩
    simp only [List.getElem?_cons_succ]
    rw [List.getElem?_append_right (by omega), show 20 - hash.length = 0 by omega]
    rfl

theorem parses_payToScriptHash {hash : List UInt8} (hlen : hash.length = 20) :
    Parses (0xa9 :: 0x14 :: (hash ++ [0x87])) [(0xa9, []), (0x14, hash), (0x87, [])] := by
  have hpush : getOp (0x14 :: (hash ++ [0x87])) = some (0x14, hash, [0x87]) :=
    getOp_direct (n := 0x14) (by decide) hlen (by rw [List.length_append, hlen]; decide)
  exact .cons (getOp_opcode (by decide)) (.cons hpush (.cons (getOp_opcode (by decide)) .nil))

theorem matchTemplate_nil {fuel : ℕ} {pc1 : Script} {vSolutions found : List (List UInt8)}
    (h : matchTemplate fuel pc1 [] vSolutions = some found) : pc1 = [] ∧ found = vSolutions := by
  cases fuel with
  | zero => cases h
  | succ fuel =>
    rw [matchTemplate] at h
    split at h
    · rename_i hpc
      exact ⟨hpc.1, (Option.some_injective _ h).symm⟩
    · cases hop : getOp pc1 with
      | none =>
        rw [hop] at h
        cases h
      | some r =>
        rw [hop] at h
        cases h

theorem matchTemplate_cons {fuel : ℕ} {pc1 pc2 pc2' : Script} {opcode2 : UInt8}
    {vch2 : List UInt8} {vSolutions sols : List (List UInt8)}
    (hop : getOp pc2 = some (opcode2, vch2, pc2')) (hopcode : opcode2 ≠ opPubKeys)
    (h : matchTemplate (fuel + 1) pc1 pc2 vSolutions = some sols) :
    ∃ opcode1 vch1 pc1' found, getOp pc1 = some (opcode1, vch1, pc1') ∧
      matchOpcode opcode1 vch1 opcode2 vch2 = some found ∧
      matchTemplate fuel pc1' pc2' (vSolutions ++ found) = some sols := by
  have hne : ¬(pc1 = [] ∧ pc2 = []) := by
    rintro ⟨_, rfl⟩
    cases hop
  rw [matchTemplate, if_neg hne, hop] at h
  obtain ⟨⟨opcode1, vch1, pc1'⟩, hop1, h⟩ := Option.bind_eq_some_iff.mp h
  change (if opcode2 = opPubKeys then _ else _) = _ at h
  rw [if_neg hopcode] at h
  obtain ⟨found, hfound, h⟩ := Option.bind_eq_some_iff.mp h
  exact ⟨opcode1, vch1, pc1', found, hop1, hfound, h⟩

theorem takePubKeys_eq {fuel : ℕ} {opcode1 opcode : UInt8} {vch1 vch : List UInt8}
    {pc1 pc : Script} {keys : List (List UInt8)}
    (h : takePubKeys fuel (opcode1, vch1, pc1) = (keys, (opcode, vch, pc)))
    (hopcode : opcode ≠ opInvalidOpcode) {l : List Instruction} (hl : Parses pc l) :
    ∃ pushes l', pushes.map Prod.snd = keys ∧
      pushes ++ (opcode, vch) :: l = (opcode1, vch1) :: l' ∧ Parses pc1 l' := by
  induction fuel generalizing opcode1 vch1 pc1 keys with
  | zero =>
    cases h
    exact ⟨[], l, rfl, rfl, hl⟩
  | succ fuel ih =>
    rw [takePubKeys] at h
    split at h
    · cases hop : getOp pc1 with
      | none =>
        -- the script ends within the keys, and nothing comes after them
        have hend : takePubKeys fuel (opInvalidOpcode, [], []) =
            ([], (opInvalidOpcode, [], [])) := by
          cases fuel with
          | zero => rfl
          | succ fuel => rfl
        rw [hop, Option.getD_none, hend] at h
        exact absurd (congrArg (fun r => r.2.1) h).symm hopcode
      | some r =>
        obtain ⟨opcode', vch', pc'⟩ := r
        rw [hop, Option.getD_some] at h
        obtain ⟨hkeys, hrest⟩ := Prod.mk.inj h
        obtain ⟨pushes, l', hpushes, heq, hl'⟩ := ih (Prod.ext rfl hrest)
        refine ⟨(opcode1, vch1) :: pushes, (opcode', vch') :: l', ?_, ?_, .cons hop hl'⟩
        · rw [List.map_cons, hpushes]
          exact hkeys
        · rw [List.cons_append, heq]
    · cases h
      exact ⟨[], l, rfl, rfl, hl⟩

theorem matchTemplate_pubKeys {fuel : ℕ} {pc1 pc2 pc2' pc2'' : Script} {opcode2 : UInt8}
    {vch vch2 : List UInt8} {vSolutions sols : List (List UInt8)}
    (hop : getOp pc2 = some (opPubKeys, vch, pc2'))
    (hop' : getOp pc2' = some (opcode2, vch2, pc2''))
    (h : matchTemplate (fuel + 1) pc1 pc2 vSolutions = some sols) :
    ∃ keys opcode1 vch1 pc1' found,
      matchOpcode opcode1 vch1 opcode2 vch2 = some found ∧
      matchTemplate fuel pc1' pc2'' (vSolutions ++ keys ++ found) = some sols ∧
      ∀ l, opcode1 ≠ opInvalidOpcode → Parses pc1' l →
        ∃ pushes, pushes.map Prod.snd = keys ∧ Parses pc1 (pushes ++ (opcode1, vch1) :: l) := by
  have hne : ¬(pc1 = [] ∧ pc2 = []) := by
    rintro ⟨_, rfl⟩
    cases hop
  rw [matchTemplate, if_neg hne, hop] at h
  obtain ⟨⟨opcode0, vch0, pc0⟩, hop0, h⟩ := Option.bind_eq_some_iff.mp h
  let r := takePubKeys (pc0.length + 2) (opcode0, vch0, pc0)
  replace h : ((getOp pc2').bind fun r2 =>
      (matchOpcode r.2.1 r.2.2.1 r2.1 r2.2.1).bind fun found =>
        matchTemplate fuel r.2.2.2 r2.2.2 (vSolutions ++ r.1 ++ found)) = some sols := h
  cases htake : takePubKeys (pc0.length + 2) (opcode0, vch0, pc0) with
  | mk keys r' =>
    obtain ⟨opcode1, vch1, pc1'⟩ := r'
    rw [show r = (keys, opcode1, vch1, pc1') from htake, hop'] at h
    obtain ⟨_, hfirst, h⟩ := Option.bind_eq_some_iff.mp h
    cases hfirst
    obtain ⟨found, hfound, h⟩ := Option.bind_eq_some_iff.mp h
    refine ⟨keys, opcode1, vch1, pc1', found, hfound, h, fun l hopcode hl => ?_⟩
    obtain ⟨pushes, l', hpushes, heq, hl'⟩ := takePubKeys_eq htake hopcode hl
    exact ⟨pushes, hpushes, heq ▸ .cons hop0 hl'⟩

theorem matchOpcode_pubKey {opcode : UInt8} {vch vch2 : List UInt8} {found : List (List UInt8)}
    (h : matchOpcode opcode vch opPubKey vch2 = some found) : vch ≠ [] ∧ found = [vch] := by
  rw [matchOpcode, if_pos rfl] at h
  split at h
  · cases h
  · rename_i hlen
    refine ⟨?_, (Option.some_injective _ h).symm⟩
    rintro rfl
    exact hlen (Or.inl (by decide))

theorem matchOpcode_pubKeyHash {opcode : UInt8} {vch vch2 : List UInt8}
    {found : List (List UInt8)} (h : matchOpcode opcode vch opPubKeyHash vch2 = some found) :
    vch.length = 20 ∧ found = [vch] := by
  rw [matchOpcode, if_neg (by decide), if_pos rfl] at h
  split at h
  · cases h
  · rename_i hlen
    exact ⟨Decidable.not_not.mp hlen, (Option.some_injective _ h).symm⟩

theorem matchOpcode_smallInteger {opcode : UInt8} {vch vch2 : List UInt8}
    {found : List (List UInt8)} (h : matchOpcode opcode vch opSmallInteger vch2 = some found) :
    (opcode = 0 ∧ found = [[0]]) ∨ (0x51 ≤ opcode ∧ opcode ≤ op16 ∧ found = [[opcode - 0x50]]) := by
  rw [matchOpcode, if_neg (by decide), if_neg (by decide), if_pos rfl] at h
  split at h
  · rename_i h0
    exact Or.inl ⟨h0, (Option.some_injective _ h).symm⟩
  · split at h
    · rename_i hrange
      exact Or.inr ⟨hrange.1, hrange.2, (Option.some_injective _ h).symm⟩
    · cases h

theorem matchOpcode_exact {opcode opcode2 : UInt8} {vch vch2 : List UInt8}
    {found : List (List UInt8)} (hopcode2 : opcode2 < opSmallInteger)
    (h : matchOpcode opcode vch opcode2 vch2 = some found) :
    opcode = opcode2 ∧ vch = vch2 ∧ found = [] := by
  have hne : ∀ o ∈ [opPubKey, opPubKeyHash, opSmallInteger], opcode2 ≠ o := by
    intro o ho heq
    have hall : [opPubKey, opPubKeyHash, opSmallInteger].all (fun o => !decide (o < opSmallInteger))
        = true := by decide
    have hnot := List.all_eq_true.mp hall o ho
    rw [Bool.not_eq_true', decide_eq_false_iff_not] at hnot
    exact hnot (heq ▸ hopcode2)
  rw [matchOpcode, if_neg (hne _ (by decide)), if_neg (hne _ (by decide)),
    if_neg (hne _ (by decide))] at h
  split at h
  · cases h
  · rename_i heq
    obtain ⟨h1, h2⟩ := not_or.mp heq
    exact ⟨Decidable.not_not.mp h1, Decidable.not_not.mp h2, (Option.some_injective _ h).symm⟩

theorem matchTemplate_exact {fuel : ℕ} {pc1 pc2 pc2' : Script} {opcode2 : UInt8}
    {vch2 : List UInt8} {vSolutions sols : List (List UInt8)}
    (hop : getOp pc2 = some (opcode2, vch2, pc2')) (hopcode2 : opcode2 < opSmallInteger)
    (h : matchTemplate (fuel + 1) pc1 pc2 vSolutions = some sols) :
    ∃ pc1', getOp pc1 = some (opcode2, vch2, pc1') ∧
      matchTemplate fuel pc1' pc2' vSolutions = some sols := by
  have hne : opcode2 ≠ opPubKeys := by
    rintro rfl
    exact absurd hopcode2 (by decide)
  obtain ⟨opcode1, vch1, pc1', found, hop1, hfound, h⟩ := matchTemplate_cons hop hne h
  obtain ⟨rfl, rfl, rfl⟩ := matchOpcode_exact hopcode2 hfound
  rw [List.append_nil] at h
  exact ⟨pc1', hop1, h⟩

theorem solveTemplates_eq_some {scriptPubKey : Script} {type : TxnOutType}
    {vSolutions : List (List UInt8)} {templates : List (TxnOutType × Script)}
    (h : solveTemplates scriptPubKey templates = some (type, vSolutions)) :
    ∃ template, (type, template) ∈ templates ∧
      matchTemplate (template.length + 1) scriptPubKey template [] = some vSolutions ∧
      (type = .multisig → checkMultisig vSolutions = true) := by
  induction templates with
  | nil => cases h
  | cons t templates ih =>
    obtain ⟨type', template⟩ := t
    rw [solveTemplates] at h
    split at h
    · rename_i found hmatch
      split at h
      · cases h
      · rename_i hcheck
        obtain ⟨rfl, rfl⟩ := Prod.mk.inj (Option.some_injective _ h)
        refine ⟨template, List.mem_cons_self, hmatch, fun hmultisig => ?_⟩
        by_contra hfalse
        exact hcheck ⟨hmultisig, by simpa using hfalse⟩
    · obtain ⟨template', hmem, hmatch⟩ := ih h
      exact ⟨template', List.mem_cons_of_mem _ hmem, hmatch⟩

theorem solver_eq_some {scriptPubKey : Script} {type : TxnOutType}
    {vSolutions : List (List UInt8)} (h : solver scriptPubKey = some (type, vSolutions))
    (hhash : type ≠ .scriptHash) :
    scriptPubKey.isPayToScriptHash = false ∧
      solveTemplates scriptPubKey mTemplates = some (type, vSolutions) := by
  rw [solver] at h
  split at h
  · exact absurd (Prod.mk.inj (Option.some_injective _ h)).1.symm hhash
  · rename_i hfalse
    exact ⟨Bool.eq_false_iff.mpr hfalse, h⟩

theorem solver_scriptHash_iff {scriptPubKey : Script} {vSolutions : List (List UInt8)} :
    solver scriptPubKey = some (.scriptHash, vSolutions) ↔
      scriptPubKey.isPayToScriptHash = true ∧ vSolutions = [(scriptPubKey.drop 2).take 20] := by
  rw [solver]
  split
  · rename_i hhash
    constructor
    · intro h
      exact ⟨hhash, (Prod.mk.inj (Option.some_injective _ h)).2.symm⟩
    · rintro ⟨_, rfl⟩
      rfl
  · rename_i hhash
    constructor
    · intro h
      obtain ⟨template, hmem, _⟩ := solveTemplates_eq_some h
      exact absurd hmem (by simp [mTemplates])
    · rintro ⟨htrue, _⟩
      exact absurd htrue hhash

theorem checkMultisig_iff {m n : UInt8} {keys : List (List UInt8)} :
    checkMultisig ([m] :: (keys ++ [[n]])) = true ↔
      1 ≤ m ∧ 1 ≤ n ∧ m ≤ n ∧ keys.length = n.toNat := by
  have hlast : ([m] :: (keys ++ [[n]])).getLastD [] = [n] := by
    rw [List.getLastD_cons, List.getLastD_concat]
  have hlen : ([m] :: (keys ++ [[n]])).length - 2 = keys.length := by simp
  rw [checkMultisig, hlast, hlen]
  simp [and_assoc]

theorem solver_pubKey {scriptPubKey : Script} {vSolutions : List (List UInt8)}
    (h : solver scriptPubKey = some (.pubKey, vSolutions)) :
    ∃ opcode vch, vch ≠ [] ∧ vSolutions = [vch] ∧
      Parses scriptPubKey [(opcode, vch), (0xac, [])] := by
  obtain ⟨template, hmem, hmatch, _⟩ := solveTemplates_eq_some (solver_eq_some h (by decide)).2
  obtain rfl : template = [opPubKey, 0xac] := by simpa [mTemplates] using hmem
  obtain ⟨opcode, vch, pc, found, hop, hfound, hmatch⟩ :=
    matchTemplate_cons (getOp_opcode (by decide)) (by decide) hmatch
  obtain ⟨hvch, rfl⟩ := matchOpcode_pubKey hfound
  obtain ⟨pc', hop', hmatch⟩ := matchTemplate_exact (getOp_opcode (by decide)) (by decide) hmatch
  obtain ⟨rfl, rfl⟩ := matchTemplate_nil hmatch
  exact ⟨opcode, vch, hvch, rfl, .cons hop (.cons hop' .nil)⟩

theorem solver_pubKeyHash {scriptPubKey : Script} {vSolutions : List (List UInt8)}
    (h : solver scriptPubKey = some (.pubKeyHash, vSolutions)) :
    ∃ opcode vch, vch.length = 20 ∧ vSolutions = [vch] ∧
      Parses scriptPubKey [(0x76, []), (0xa9, []), (opcode, vch), (0x88, []), (0xac, [])] := by
  obtain ⟨template, hmem, hmatch, _⟩ := solveTemplates_eq_some (solver_eq_some h (by decide)).2
  obtain rfl : template = [0x76, 0xa9, opPubKeyHash, 0x88, 0xac] := by
    simpa [mTemplates] using hmem
  obtain ⟨pc1, hop1, hmatch⟩ := matchTemplate_exact (getOp_opcode (by decide)) (by decide) hmatch
  obtain ⟨pc2, hop2, hmatch⟩ := matchTemplate_exact (getOp_opcode (by decide)) (by decide) hmatch
  obtain ⟨opcode, vch, pc3, found, hop3, hfound, hmatch⟩ :=
    matchTemplate_cons (getOp_opcode (by decide)) (by decide) hmatch
  obtain ⟨hvch, rfl⟩ := matchOpcode_pubKeyHash hfound
  obtain ⟨pc4, hop4, hmatch⟩ := matchTemplate_exact (getOp_opcode (by decide)) (by decide) hmatch
  obtain ⟨pc5, hop5, hmatch⟩ := matchTemplate_exact (getOp_opcode (by decide)) (by decide) hmatch
  obtain ⟨rfl, rfl⟩ := matchTemplate_nil hmatch
  exact ⟨opcode, vch, hvch, rfl,
    .cons hop1 (.cons hop2 (.cons hop3 (.cons hop4 (.cons hop5 .nil))))⟩

theorem solver_multisig {scriptPubKey : Script} {vSolutions : List (List UInt8)}
    (h : solver scriptPubKey = some (.multisig, vSolutions)) :
    ∃ (opcodeM opcodeN : UInt8) (vchM vchN : List UInt8) (pushes : List Instruction),
      0x51 ≤ opcodeM ∧ opcodeM ≤ op16 ∧ 0x51 ≤ opcodeN ∧ opcodeN ≤ op16 ∧
      (opcodeM - 0x50).toNat ≤ pushes.length ∧ pushes.length = (opcodeN - 0x50).toNat ∧
      vSolutions = [opcodeM - 0x50] :: (pushes.map Prod.snd ++ [[opcodeN - 0x50]]) ∧
      Parses scriptPubKey
        ((opcodeM, vchM) :: (pushes ++ [(opcodeN, vchN), (0xae, [])])) := by
  obtain ⟨template, hmem, hmatch, hcheck⟩ :=
    solveTemplates_eq_some (solver_eq_some h (by decide)).2
  obtain rfl : template = [opSmallInteger, opPubKeys, opSmallInteger, 0xae] := by
    simpa [mTemplates] using hmem
  obtain ⟨opcodeM, vchM, pc1, foundM, hopM, hfoundM, hmatch⟩ :=
    matchTemplate_cons (getOp_opcode (by decide)) (by decide) hmatch
  obtain ⟨keys, opcodeN, vchN, pc2, foundN, hfoundN, hmatch, hkeys⟩ :=
    matchTemplate_pubKeys (getOp_opcode (by decide)) (getOp_opcode (by decide)) hmatch
  obtain ⟨pc3, hop3, hmatch⟩ := matchTemplate_exact (getOp_opcode (by decide)) (by decide) hmatch
  obtain ⟨rfl, rfl⟩ := matchTemplate_nil hmatch
  have hcheck := hcheck rfl
  rw [List.nil_append, List.append_assoc] at hcheck
  rcases matchOpcode_smallInteger hfoundM with ⟨_, rfl⟩ | ⟨hM, hM', rfl⟩
  · simp [checkMultisig] at hcheck
  · rcases matchOpcode_smallInteger hfoundN with ⟨_, rfl⟩ | ⟨hN, hN', rfl⟩
    · exact absurd (checkMultisig_iff.mp hcheck).2.1 (by decide)
    · obtain ⟨_, _, hle, hlen⟩ := checkMultisig_iff.mp hcheck
      have hvalid : opcodeN ≠ opInvalidOpcode := by
        rintro rfl
        exact absurd hN' (by decide)
      obtain ⟨pushes, rfl, hparses⟩ := hkeys _ hvalid (.cons hop3 .nil)
      rw [List.length_map] at hlen
      refine ⟨opcodeM, opcodeN, vchM, vchN, pushes, hM, hM', hN, hN', ?_, hlen, rfl,
        .cons hopM hparses⟩
      rw [hlen]
      exact hle

end Beancash
