import Beancash.TemplateScripts

namespace Beancash

/-- What `Solver` returns, and what is in `typeRet` and `vSolutionsRet` then. -/
structure SolverOut where
  answer : Bool
  typeRet : TxnOutType
  vSolutionsRet : List (List UInt8)
deriving DecidableEq

def scanTemplates (scriptPubKey : Script) : List (TxnOutType × Script) → SolverOut
  | [] => ⟨false, .nonStandard, []⟩
  | (type, template) :: templates =>
    match matchTemplate (template.length + 1) scriptPubKey template [] with
    | some vSolutions =>
      -- the return within the loop leaves the type and the solutions as they are
      if type = .multisig ∧ !checkMultisig vSolutions then ⟨false, type, vSolutions⟩
      else ⟨true, type, vSolutions⟩
    | none => scanTemplates scriptPubKey templates

/-- `Solver`, given an empty `vSolutionsRet`. -/
def solverOut (scriptPubKey : Script) : SolverOut :=
  if scriptPubKey.isPayToScriptHash then ⟨true, .scriptHash, [(scriptPubKey.drop 2).take 20]⟩
  else scanTemplates scriptPubKey mTemplates

theorem solveTemplates_eq_scan (scriptPubKey : Script) (templates : List (TxnOutType × Script)) :
    solveTemplates scriptPubKey templates =
      if (scanTemplates scriptPubKey templates).answer then
        some ((scanTemplates scriptPubKey templates).typeRet,
          (scanTemplates scriptPubKey templates).vSolutionsRet)
      else none := by
  induction templates with
  | nil => rfl
  | cons t templates ih =>
    rw [solveTemplates, scanTemplates]
    cases matchTemplate (t.2.length + 1) scriptPubKey t.2 [] with
    | none => exact ih
    | some vSolutions =>
      dsimp only
      split <;> rfl

theorem solver_eq_solverOut (scriptPubKey : Script) :
    solver scriptPubKey = if (solverOut scriptPubKey).answer then
      some ((solverOut scriptPubKey).typeRet, (solverOut scriptPubKey).vSolutionsRet)
    else none := by
  rw [solver, solverOut]
  split
  · rfl
  · exact solveTemplates_eq_scan scriptPubKey mTemplates

/-- The opcode of a small integer. -/
def SmallInteger (opcode n : UInt8) : Prop :=
  opcode = 0 ∧ n = 0 ∨ 0x51 ≤ opcode ∧ opcode ≤ op16 ∧ n = opcode - 0x50

/-- The size of a public key in a script. -/
abbrev KeySize (vch : List UInt8) : Prop := 33 ≤ vch.length ∧ vch.length ≤ 120

/-- `m <keys> n OP_CHECKMULTISIG`, whatever the two numbers are. -/
def MultisigShape (script : Script) (m : UInt8) (keys : List (List UInt8)) (n : UInt8) : Prop :=
  ∃ opcodeM opcodeN pushes, SmallInteger opcodeM m ∧ SmallInteger opcodeN n ∧
    pushes.map Prod.snd = keys ∧ (∀ key ∈ keys, KeySize key) ∧
    Parses script ((opcodeM, []) :: (pushes ++ [(opcodeN, []), (0xae, [])]))

/-- The numbers are those of the signatures and the keys. -/
def MultisigCounts (m : UInt8) (keys : List (List UInt8)) (n : UInt8) : Prop :=
  1 ≤ m ∧ m ≤ n ∧ keys.length = n.toNat

/-- The scripts that `Solver` is meant to accept, with the solutions. Apart from the hash of a
script, the pushes may be written in any way. -/
inductive StandardScript : Script → TxnOutType → List (List UInt8) → Prop
  | scriptHash {hash : List UInt8} : hash.length = 20 →
      StandardScript (0xa9 :: 0x14 :: (hash ++ [0x87])) .scriptHash [hash]
  | pubKey {script : Script} {opcode : UInt8} {key : List UInt8} : KeySize key →
      Parses script [(opcode, key), (0xac, [])] → StandardScript script .pubKey [key]
  | pubKeyHash {script : Script} {opcode : UInt8} {hash : List UInt8} : hash.length = 20 →
      Parses script [(0x76, []), (0xa9, []), (opcode, hash), (0x88, []), (0xac, [])] →
      StandardScript script .pubKeyHash [hash]
  | multisig {script : Script} {m n : UInt8} {keys : List (List UInt8)} :
      MultisigShape script m keys n → MultisigCounts m keys n →
      StandardScript script .multisig ([m] :: (keys ++ [[n]]))
  | nullData : StandardScript [0x6a] .nullData []

theorem matchTemplate_step {fuel : ℕ} {pc1 pc1' pc2 pc2' : Script} {opcode1 opcode2 : UInt8}
    {vch1 vch2 : List UInt8} (vSolutions : List (List UInt8))
    (hop1 : getOp pc1 = some (opcode1, vch1, pc1')) (hop2 : getOp pc2 = some (opcode2, vch2, pc2'))
    (hopcode : opcode2 ≠ opPubKeys) : matchTemplate (fuel + 1) pc1 pc2 vSolutions =
      (matchOpcode opcode1 vch1 opcode2 vch2).bind fun found =>
        matchTemplate fuel pc1' pc2' (vSolutions ++ found) := by
  have hne : ¬(pc1 = [] ∧ pc2 = []) := by
    rintro ⟨_, rfl⟩
    cases hop2
  rw [matchTemplate, if_neg hne, hop1, hop2]
  change (if opcode2 = opPubKeys then _ else _) = _
  rw [if_neg hopcode]
  rfl

theorem matchTemplate_keys {fuel : ℕ} {pc1 pc0 pc2 pc2' pc2'' : Script} {opcode0 opcode2 : UInt8}
    {vch0 vch vch2 : List UInt8} (vSolutions : List (List UInt8))
    (hop1 : getOp pc1 = some (opcode0, vch0, pc0)) (hop2 : getOp pc2 = some (opPubKeys, vch, pc2'))
    (hop2' : getOp pc2' = some (opcode2, vch2, pc2'')) :
    let r := takePubKeys (pc0.length + 2) (opcode0, vch0, pc0)
    matchTemplate (fuel + 1) pc1 pc2 vSolutions =
      (matchOpcode r.2.1 r.2.2.1 opcode2 vch2).bind fun found =>
        matchTemplate fuel r.2.2.2 pc2'' (vSolutions ++ r.1 ++ found) := by
  intro r
  have hne : ¬(pc1 = [] ∧ pc2 = []) := by
    rintro ⟨_, rfl⟩
    cases hop2
  rw [matchTemplate, if_neg hne, hop1, hop2]
  change (if opPubKeys = opPubKeys then (getOp pc2').bind fun next =>
      (matchOpcode r.2.1 r.2.2.1 next.1 next.2.1).bind fun found =>
        matchTemplate fuel r.2.2.2 next.2.2 (vSolutions ++ r.1 ++ found)
    else (matchOpcode opcode0 vch0 opPubKeys vch).bind fun found =>
      matchTemplate fuel pc0 pc2' (vSolutions ++ found)) = _
  rw [if_pos rfl, hop2']
  rfl

theorem matchOpcode_key {opcode : UInt8} {vch vch2 : List UInt8} :
    matchOpcode opcode vch opPubKey vch2 =
      if 33 ≤ vch.length ∧ vch.length ≤ 120 then some [vch] else none := by
  rw [matchOpcode, if_pos rfl]
  split
  · rename_i h
    rw [if_neg (by omega)]
  · rename_i h
    rw [if_pos (by omega)]

theorem matchOpcode_smallInteger_iff {opcode : UInt8} {vch vch2 : List UInt8}
    {found : List (List UInt8)} : matchOpcode opcode vch opSmallInteger vch2 = some found ↔
      ∃ n, SmallInteger opcode n ∧ found = [[n]] := by
  constructor
  · intro h
    rcases matchOpcode_smallInteger h with ⟨h0, rfl⟩ | ⟨hlo, hhi, rfl⟩
    · exact ⟨0, Or.inl ⟨h0, rfl⟩, rfl⟩
    · exact ⟨_, Or.inr ⟨hlo, hhi, rfl⟩, rfl⟩
  · rintro ⟨n, hn, rfl⟩
    rw [matchOpcode, if_neg (by decide), if_neg (by decide), if_pos rfl]
    rcases hn with ⟨rfl, rfl⟩ | ⟨hlo, hhi, rfl⟩
    · exact if_pos rfl
    · have hne : opcode ≠ 0 := by
        rintro rfl
        exact absurd hlo (by decide)
      rw [if_neg hne, if_pos ⟨hlo, hhi⟩]

theorem SmallInteger.not_push {opcode n : UInt8} (h : SmallInteger opcode n) {pc rest : Script}
    {vch : List UInt8} (hop : getOp pc = some (opcode, vch, rest)) : vch = [] := by
  rcases h with ⟨rfl, _⟩ | ⟨hlo, _, _⟩
  · cases pc with
    | nil => cases hop
    | cons b pc =>
      rw [getOp] at hop
      split at hop
      · rename_i hle
        obtain ⟨⟨nSize, pc'⟩, hsize, hop⟩ := Option.bind_eq_some_iff.mp hop
        dsimp only at hop
        split at hop
        · cases hop
        · obtain ⟨rfl, rfl, _⟩ : _ ∧ _ ∧ _ := by simpa using hop
          obtain rfl : nSize = 0 := (Prod.mk.inj (Option.some_injective _ hsize)).1.symm
          rfl
      · cases hop
        rename_i hle
        exact absurd (show (0 : UInt8) ≤ opPushData4 by decide) hle
  · refine (getOp_eq_some hop).2.2 ?_
    exact UInt8.lt_of_lt_of_le (show opPushData4 < 0x51 by decide) hlo

theorem takePubKeys_of_parses {pushes l l' : List Instruction} {opcode0 opcode : UInt8}
    {vch0 : List UInt8} {pc0 : Script} {fuel : ℕ} (hkeys : ∀ i ∈ pushes, KeySize i.2)
    (heq : pushes ++ (opcode, []) :: l = (opcode0, vch0) :: l') (hl : Parses pc0 l')
    (hfuel : pushes.length < fuel) : ∃ pc, Parses pc l ∧
      takePubKeys fuel (opcode0, vch0, pc0) = (pushes.map Prod.snd, (opcode, [], pc)) := by
  induction pushes generalizing opcode0 vch0 pc0 l' fuel with
  | nil =>
    obtain ⟨hfirst, rfl⟩ := List.cons.inj heq
    obtain ⟨rfl, rfl⟩ := Prod.mk.inj hfirst
    cases fuel with
    | zero => exact absurd hfuel (Nat.not_lt_zero _)
    | succ fuel => exact ⟨pc0, hl, if_neg (by decide)⟩
  | cons i pushes ih =>
    obtain ⟨rfl, rfl⟩ := List.cons.inj heq
    cases fuel with
    | zero => exact absurd hfuel (Nat.not_lt_zero _)
    | succ fuel =>
      have hsize : 33 ≤ vch0.length ∧ vch0.length ≤ 120 := hkeys _ List.mem_cons_self
      obtain ⟨opcode1, vch1, l1, hnext⟩ : ∃ opcode1 vch1 l1,
          pushes ++ (opcode, []) :: l = (opcode1, vch1) :: l1 := by
        cases pushes with
        | nil => exact ⟨_, _, _, rfl⟩
        | cons j pushes => exact ⟨_, _, _, rfl⟩
      replace hl : Parses pc0 (pushes ++ (opcode, []) :: l) := hl
      rw [hnext] at hl
      obtain ⟨rest, hop, hrest⟩ := hl.exists_rest
      obtain ⟨pc, hpc, htake⟩ := ih (fun j hj => hkeys j (List.mem_cons_of_mem _ hj)) hnext hrest
        (Nat.lt_of_succ_lt_succ hfuel)
      refine ⟨pc, hpc, ?_⟩
      rw [takePubKeys, if_pos hsize, hop, Option.getD_some, htake]
      rfl

theorem takePubKeys_keySize (fuel : ℕ) (x : UInt8 × List UInt8 × Script) :
    ∀ key ∈ (takePubKeys fuel x).1, KeySize key := by
  induction fuel generalizing x with
  | zero => exact fun key h => absurd h List.not_mem_nil
  | succ fuel ih =>
    obtain ⟨opcode1, vch1, pc1⟩ := x
    rw [takePubKeys]
    split
    · rename_i hsize
      intro key hkey
      rcases List.mem_cons.mp hkey with rfl | hkey
      · exact hsize
      · exact ih _ key hkey
    · exact fun key h => absurd h List.not_mem_nil

theorem Parses.count_le {pc : Script} {l : List Instruction} (h : Parses pc l) :
    l.length ≤ pc.length := by
  induction h with
  | nil => exact Nat.le_refl _
  | cons hop _ ih =>
    have hlt := (getOp_eq_some hop).2.1
    rw [List.length_cons]
    omega

theorem Parses.exists_getOp {pc : Script} {l : List Instruction} (h : Parses pc l)
    {i : Instruction} (hi : i ∈ l) : ∃ pc' rest, getOp pc' = some (i.1, i.2, rest) := by
  induction h with
  | nil => cases hi
  | cons hop _ ih =>
    rcases List.mem_cons.mp hi with rfl | hi
    · exact ⟨_, _, hop⟩
    · exact ih hi

theorem matchTemplate_pubKey_iff {script : Script} {sols : List (List UInt8)} :
    matchTemplate 3 script [opPubKey, 0xac] [] = some sols ↔
      ∃ opcode key, KeySize key ∧ Parses script [(opcode, key), (0xac, [])] ∧ sols = [key] := by
  constructor
  · intro h
    obtain ⟨opcode, vch, pc, found, hop, hfound, h⟩ :=
      matchTemplate_cons (getOp_opcode (by decide)) (by decide) h
    rw [matchOpcode_key] at hfound
    split at hfound
    · rename_i hsize
      obtain rfl := Option.some_injective _ hfound
      obtain ⟨pc', hop', h⟩ := matchTemplate_exact (getOp_opcode (by decide)) (by decide) h
      obtain ⟨rfl, rfl⟩ := matchTemplate_nil h
      exact ⟨opcode, vch, hsize, .cons hop (.cons hop' .nil), rfl⟩
    · cases hfound
  · rintro ⟨opcode, key, hsize, hparses, rfl⟩
    obtain ⟨pc, hop, hrest⟩ := hparses.exists_rest
    obtain ⟨pc', hop', hend⟩ := hrest.exists_rest
    obtain rfl := hend.eq_nil
    rw [matchTemplate_step [] hop (getOp_opcode (by decide)) (by decide), matchOpcode_key,
      if_pos hsize, Option.bind_some,
      matchTemplate_step _ hop' (getOp_opcode (by decide)) (by decide)]
    rfl

theorem matchTemplate_pubKeyHash_iff {script : Script} {sols : List (List UInt8)} :
    matchTemplate 6 script [0x76, 0xa9, opPubKeyHash, 0x88, 0xac] [] = some sols ↔
      ∃ opcode hash, hash.length = 20 ∧
        Parses script [(0x76, []), (0xa9, []), (opcode, hash), (0x88, []), (0xac, [])] ∧
        sols = [hash] := by
  constructor
  · intro h
    obtain ⟨pc1, hop1, h⟩ := matchTemplate_exact (getOp_opcode (by decide)) (by decide) h
    obtain ⟨pc2, hop2, h⟩ := matchTemplate_exact (getOp_opcode (by decide)) (by decide) h
    obtain ⟨opcode, vch, pc3, found, hop3, hfound, h⟩ :=
      matchTemplate_cons (getOp_opcode (by decide)) (by decide) h
    obtain ⟨hvch, rfl⟩ := matchOpcode_pubKeyHash hfound
    obtain ⟨pc4, hop4, h⟩ := matchTemplate_exact (getOp_opcode (by decide)) (by decide) h
    obtain ⟨pc5, hop5, h⟩ := matchTemplate_exact (getOp_opcode (by decide)) (by decide) h
    obtain ⟨rfl, rfl⟩ := matchTemplate_nil h
    exact ⟨opcode, vch, hvch, .cons hop1 (.cons hop2 (.cons hop3 (.cons hop4 (.cons hop5 .nil)))),
      rfl⟩
  · rintro ⟨opcode, hash, hlen, hparses, rfl⟩
    obtain ⟨pc1, hop1, h1⟩ := hparses.exists_rest
    obtain ⟨pc2, hop2, h2⟩ := h1.exists_rest
    obtain ⟨pc3, hop3, h3⟩ := h2.exists_rest
    obtain ⟨pc4, hop4, h4⟩ := h3.exists_rest
    obtain ⟨pc5, hop5, h5⟩ := h4.exists_rest
    obtain rfl := h5.eq_nil
    have hhash : matchOpcode opcode hash opPubKeyHash [] = some [hash] := by
      rw [matchOpcode, if_neg (by decide), if_pos rfl, if_neg (not_not.mpr hlen)]
    have hexact : matchOpcode 0x76 [] 0x76 [] = some [] ∧ matchOpcode 0xa9 [] 0xa9 [] = some [] ∧
        matchOpcode 0x88 [] 0x88 [] = some [] ∧ matchOpcode 0xac [] 0xac [] = some [] := by
      decide
    rw [matchTemplate_step [] hop1 (getOp_opcode (by decide)) (by decide),
      hexact.1, Option.bind_some,
      matchTemplate_step _ hop2 (getOp_opcode (by decide)) (by decide),
      hexact.2.1, Option.bind_some,
      matchTemplate_step _ hop3 (getOp_opcode (by decide)) (by decide), hhash, Option.bind_some,
      matchTemplate_step _ hop4 (getOp_opcode (by decide)) (by decide),
      hexact.2.2.1, Option.bind_some,
      matchTemplate_step _ hop5 (getOp_opcode (by decide)) (by decide),
      hexact.2.2.2, Option.bind_some]
    rfl

theorem matchTemplate_multisig_iff {script : Script} {sols : List (List UInt8)} :
    matchTemplate 5 script [opSmallInteger, opPubKeys, opSmallInteger, 0xae] [] = some sols ↔
      ∃ m keys n, MultisigShape script m keys n ∧ sols = [m] :: (keys ++ [[n]]) := by
  constructor
  · intro h
    obtain ⟨opcodeM, vchM, pc1, foundM, hopM, hfoundM, h⟩ :=
      matchTemplate_cons (getOp_opcode (by decide)) (by decide) h
    obtain ⟨m, hm, rfl⟩ := matchOpcode_smallInteger_iff.mp hfoundM
    obtain rfl := hm.not_push hopM
    cases hop0 : getOp pc1 with
    | none =>
      rw [matchTemplate, if_neg (by simp), hop0] at h
      cases h
    | some r =>
      obtain ⟨opcode0, vch0, pc0⟩ := r
      rw [matchTemplate_keys _ hop0 (getOp_opcode (by decide)) (getOp_opcode (by decide))] at h
      have hsize := takePubKeys_keySize (pc0.length + 2) (opcode0, vch0, pc0)
      obtain ⟨found, hfound, h⟩ := Option.bind_eq_some_iff.mp h
      cases htake : takePubKeys (pc0.length + 2) (opcode0, vch0, pc0) with
      | mk keys r =>
        obtain ⟨opcodeN, vchN, pc2⟩ := r
        rw [htake] at hsize hfound h
        obtain ⟨n, hn, rfl⟩ := matchOpcode_smallInteger_iff.mp hfound
        obtain ⟨pc3, hop3, h⟩ := matchTemplate_exact (getOp_opcode (by decide)) (by decide) h
        obtain ⟨rfl, rfl⟩ := matchTemplate_nil h
        have hvalid : opcodeN ≠ opInvalidOpcode := by
          rintro rfl
          rcases hn with ⟨h0, _⟩ | ⟨_, hhi, _⟩
          · exact absurd (show opInvalidOpcode = 0 from h0) (by decide)
          · exact absurd (show opInvalidOpcode ≤ op16 from hhi) (by decide)
        obtain ⟨pushes, l', hpushes, heq, hl'⟩ := takePubKeys_eq htake hvalid (.cons hop3 .nil)
        have hparses : Parses pc1 (pushes ++ [(opcodeN, vchN), (0xae, [])]) := heq ▸ .cons hop0 hl'
        have hvchN : vchN = [] := by
          have hmem : ((opcodeN, vchN) : Instruction) ∈
              pushes ++ [(opcodeN, vchN), (0xae, [])] := by simp
          obtain ⟨pc, rest, hop⟩ := hparses.exists_getOp hmem
          exact hn.not_push hop
        subst hvchN
        exact ⟨m, keys, n, ⟨opcodeM, opcodeN, pushes, hm, hn, hpushes, hsize, .cons hopM hparses⟩,
          rfl⟩
  · rintro ⟨m, keys, n, ⟨opcodeM, opcodeN, pushes, hm, hn, rfl, hsize, hparses⟩, rfl⟩
    obtain ⟨pc1, hopM, h1⟩ := hparses.exists_rest
    have hM : matchOpcode opcodeM [] opSmallInteger [] = some [[m]] :=
      matchOpcode_smallInteger_iff.mpr ⟨m, hm, rfl⟩
    have hN : matchOpcode opcodeN [] opSmallInteger [] = some [[n]] :=
      matchOpcode_smallInteger_iff.mpr ⟨n, hn, rfl⟩
    obtain ⟨opcode0, vch0, l', heq⟩ : ∃ opcode0 vch0 l',
        pushes ++ [(opcodeN, []), (0xae, [])] = (opcode0, vch0) :: l' := by
      cases pushes with
      | nil => exact ⟨_, _, _, rfl⟩
      | cons i pushes => exact ⟨_, _, _, rfl⟩
    have hlen := congrArg List.length heq
    rw [List.length_append, List.length_cons, List.length_singleton, List.length_cons] at hlen
    rw [heq] at h1
    obtain ⟨pc0, hop0, h0⟩ := h1.exists_rest
    have hle := h0.count_le
    obtain ⟨pc2, h2, htake⟩ := takePubKeys_of_parses
      (fun i hi => hsize i.2 (List.mem_map_of_mem hi)) heq h0 (show pushes.length < pc0.length + 2 by
        omega)
    obtain ⟨pc3, hop3, h3⟩ := h2.exists_rest
    obtain rfl := h3.eq_nil
    rw [matchTemplate_step [] hopM (getOp_opcode (by decide)) (by decide), hM, Option.bind_some,
      matchTemplate_keys _ hop0 (getOp_opcode (by decide)) (getOp_opcode (by decide)), htake, hN,
      Option.bind_some, matchTemplate_step _ hop3 (getOp_opcode (by decide)) (by decide)]
    change some _ = _
    simp

theorem matchTemplate_nullData_iff {script : Script} {sols : List (List UInt8)} :
    matchTemplate 2 script [0x6a] [] = some sols ↔ script = [0x6a] ∧ sols = [] := by
  constructor
  · intro h
    obtain ⟨pc, hop, h⟩ := matchTemplate_exact (getOp_opcode (by decide)) (by decide) h
    obtain ⟨rfl, rfl⟩ := matchTemplate_nil h
    refine ⟨?_, rfl⟩
    cases script with
    | nil => cases hop
    | cons b pc =>
      rw [getOp] at hop
      split at hop
      · rename_i hle
        obtain ⟨⟨nSize, pc'⟩, _, hop⟩ := Option.bind_eq_some_iff.mp hop
        dsimp only at hop
        split at hop
        · cases hop
        · have hopcode := (Prod.mk.inj (Option.some_injective _ hop)).1
          rw [hopcode] at hle
          exact absurd hle (by decide)
      · cases hop
        rfl
  · rintro ⟨rfl, rfl⟩
    rfl

theorem Parses.inj {pc : Script} {l l' : List Instruction} (h : Parses pc l) (h' : Parses pc l') :
    l = l' := by
  induction h generalizing l' with
  | nil =>
    cases h' with
    | nil => rfl
    | cons hop _ => cases hop
  | cons hop _ ih =>
    cases h' with
    | nil => cases hop
    | cons hop' h' =>
      rw [hop] at hop'
      cases hop'
      rw [ih h']

theorem Parses.head_of_isPayToScriptHash {script : Script} {i : Instruction} {l : List Instruction}
    (h : Parses script (i :: l)) (hhash : script.isPayToScriptHash = true) : i = (0xa9, []) := by
  obtain ⟨opcode, vch⟩ := i
  obtain ⟨hash, _, rfl⟩ := Script.isPayToScriptHash_iff.mp hhash
  obtain ⟨rest, hop, _⟩ := h.exists_rest
  rw [getOp_opcode (by decide)] at hop
  cases hop
  rfl

theorem solverOut_of_not_hash {script : Script} (h : script.isPayToScriptHash = false) :
    solverOut script =
      match matchTemplate 3 script [opPubKey, 0xac] [] with
      | some sols => ⟨true, .pubKey, sols⟩
      | none =>
        match matchTemplate 6 script [0x76, 0xa9, opPubKeyHash, 0x88, 0xac] [] with
        | some sols => ⟨true, .pubKeyHash, sols⟩
        | none =>
          match matchTemplate 5 script [opSmallInteger, opPubKeys, opSmallInteger, 0xae] [] with
          | some sols => ⟨checkMultisig sols, .multisig, sols⟩
          | none =>
            match matchTemplate 2 script [0x6a] [] with
            | some sols => ⟨true, .nullData, sols⟩
            | none => ⟨false, .nonStandard, []⟩ := by
  rw [solverOut, h, if_neg Bool.false_ne_true, mTemplates]
  simp only [scanTemplates, List.length_cons, List.length_nil, reduceCtorEq, false_and, if_false,
    true_and]
  cases matchTemplate 3 script [opPubKey, 0xac] [] with
  | some sols => rfl
  | none =>
    cases matchTemplate 6 script [0x76, 0xa9, opPubKeyHash, 0x88, 0xac] [] with
    | some sols => rfl
    | none =>
      cases matchTemplate 5 script [opSmallInteger, opPubKeys, opSmallInteger, 0xae] [] with
      | some sols => cases hcheck : checkMultisig sols <;> simp [hcheck]
      | none => rfl

theorem matchTemplate_pubKey_eq_none {script : Script} {i : Instruction} {l : List Instruction}
    (h : Parses script (i :: l)) (hsize : ¬KeySize i.2) :
    matchTemplate 3 script [opPubKey, 0xac] [] = none := by
  refine Option.eq_none_iff_forall_ne_some.mpr fun sols hsols => ?_
  obtain ⟨opcode, key, hkey, hparses, _⟩ := matchTemplate_pubKey_iff.mp hsols
  obtain ⟨rfl, _⟩ := List.cons.inj (h.inj hparses)
  exact hsize hkey

theorem matchTemplate_pubKeyHash_eq_none {script : Script} {i : Instruction} {l : List Instruction}
    (h : Parses script (i :: l)) (hopcode : i.1 ≠ 0x76) :
    matchTemplate 6 script [0x76, 0xa9, opPubKeyHash, 0x88, 0xac] [] = none := by
  refine Option.eq_none_iff_forall_ne_some.mpr fun sols hsols => ?_
  obtain ⟨opcode, hash, _, hparses, _⟩ := matchTemplate_pubKeyHash_iff.mp hsols
  obtain ⟨rfl, _⟩ := List.cons.inj (h.inj hparses)
  exact hopcode rfl

theorem SmallInteger.ne {opcode n : UInt8} (h : SmallInteger opcode n) {o : UInt8}
    (ho : op16 < o) : opcode ≠ o := by
  rintro rfl
  rcases h with ⟨rfl, _⟩ | ⟨_, hhi, _⟩
  · exact absurd ho (by decide)
  · exact absurd ho (UInt8.not_lt.mpr hhi)

theorem checkMultisig_iff_counts {m n : UInt8} {keys : List (List UInt8)} :
    checkMultisig ([m] :: (keys ++ [[n]])) = true ↔ MultisigCounts m keys n := by
  rw [checkMultisig_iff, MultisigCounts]
  constructor
  · rintro ⟨hm, _, hle, hlen⟩
    exact ⟨hm, hle, hlen⟩
  · rintro ⟨hm, hle, hlen⟩
    exact ⟨hm, UInt8.le_trans hm hle, hle, hlen⟩

theorem solverOut_of_multisigShape {script : Script} {m n : UInt8} {keys : List (List UInt8)}
    (h : MultisigShape script m keys n) :
    solverOut script = ⟨checkMultisig ([m] :: (keys ++ [[n]])), .multisig,
      [m] :: (keys ++ [[n]])⟩ := by
  have hmatch := matchTemplate_multisig_iff.mpr ⟨m, keys, n, h, rfl⟩
  obtain ⟨opcodeM, opcodeN, pushes, hm, _, _, _, hparses⟩ := h
  have hhash : script.isPayToScriptHash = false := by
    rw [← Bool.not_eq_true]
    intro hhash
    exact hm.ne (show op16 < 0xa9 by decide)
      (Prod.mk.inj (hparses.head_of_isPayToScriptHash hhash)).1
  rw [solverOut_of_not_hash hhash,
    matchTemplate_pubKey_eq_none hparses (show ¬KeySize [] by decide),
    matchTemplate_pubKeyHash_eq_none hparses (hm.ne (by decide)), hmatch]

/-- `Solver` succeeds on the standard scripts, with their type and solutions, and on no others. -/
theorem solverOut_eq_true_iff {script : Script} {type : TxnOutType} {sols : List (List UInt8)} :
    solverOut script = ⟨true, type, sols⟩ ↔ StandardScript script type sols := by
  constructor
  · intro h
    by_cases hhash : script.isPayToScriptHash = true
    · obtain ⟨hash, hlen, rfl⟩ := Script.isPayToScriptHash_iff.mp hhash
      rw [solverOut, if_pos hhash] at h
      cases h
      have htake : ((0xa9 :: 0x14 :: (hash ++ [0x87]) : Script).drop 2).take 20 = hash :=
        List.take_left' hlen
      rw [htake]
      exact .scriptHash hlen
    · rw [solverOut_of_not_hash (Bool.not_eq_true _ ▸ hhash)] at h
      split at h
      · rename_i hmatch
        cases h
        obtain ⟨opcode, key, hkey, hparses, rfl⟩ := matchTemplate_pubKey_iff.mp hmatch
        exact .pubKey hkey hparses
      · split at h
        · rename_i hmatch
          cases h
          obtain ⟨opcode, hash, hlen, hparses, rfl⟩ := matchTemplate_pubKeyHash_iff.mp hmatch
          exact .pubKeyHash hlen hparses
        · split at h
          · rename_i hmatch
            injection h with hcheck htype hsols
            subst htype hsols
            obtain ⟨m, keys, n, hshape, rfl⟩ := matchTemplate_multisig_iff.mp hmatch
            exact .multisig hshape (checkMultisig_iff_counts.mp hcheck)
          · split at h
            · rename_i hmatch
              cases h
              obtain ⟨rfl, rfl⟩ := matchTemplate_nullData_iff.mp hmatch
              exact .nullData
            · cases h
  · intro h
    have hnot : ∀ {i : Instruction} {l : List Instruction}, Parses script (i :: l) → i.1 ≠ 0xa9 →
        script.isPayToScriptHash = false := by
      intro i l hparses hopcode
      rw [← Bool.not_eq_true]
      intro hhash
      exact hopcode (congrArg Prod.fst (hparses.head_of_isPayToScriptHash hhash))
    cases h with
    | @scriptHash hash hlen =>
      rw [solverOut, if_pos (Script.isPayToScriptHash_iff.mpr ⟨hash, hlen, rfl⟩)]
      have htake : ((0xa9 :: 0x14 :: (hash ++ [0x87]) : Script).drop 2).take 20 = hash :=
        List.take_left' hlen
      rw [htake]
    | @pubKey _ opcode key hkey hparses =>
      have hopcode : opcode ≠ 0xa9 := by
        rintro rfl
        have hnil := hparses.eq_nil_of_opcode List.mem_cons_self
          (show opPushData4 < (0xa9 : UInt8) by decide)
        replace hnil : key = [] := hnil
        rw [hnil] at hkey
        exact absurd hkey (by decide)
      rw [solverOut_of_not_hash (hnot hparses hopcode),
        matchTemplate_pubKey_iff.mpr ⟨opcode, key, hkey, hparses, rfl⟩]
    | @pubKeyHash _ opcode hash hlen hparses =>
      rw [solverOut_of_not_hash (hnot hparses (by decide)),
        matchTemplate_pubKey_eq_none hparses (by decide),
        matchTemplate_pubKeyHash_iff.mpr ⟨opcode, hash, hlen, hparses, rfl⟩]
    | multisig hshape hcounts =>
      rw [solverOut_of_multisigShape hshape, checkMultisig_iff_counts.mpr hcounts]
    | nullData => rfl

/-- What `Solver` succeeds on is right for every script. Its outputs are cleared when it fails,
unless the script has the shape of a multisig script and its numbers do not fit. -/
theorem solverOut_cleared_iff (script : Script) :
    ((∀ type sols, solverOut script = ⟨true, type, sols⟩ ↔ StandardScript script type sols) ∧
      ((solverOut script).answer = false →
        (solverOut script).typeRet = .nonStandard ∧ (solverOut script).vSolutionsRet = [])) ↔
      ∀ m keys n, MultisigShape script m keys n → MultisigCounts m keys n := by
  constructor
  · rintro ⟨_, hfail⟩ m keys n hshape
    by_contra hcounts
    rw [solverOut_of_multisigShape hshape] at hfail
    have hcheck : checkMultisig ([m] :: (keys ++ [[n]])) = false := by
      rw [← Bool.not_eq_true, checkMultisig_iff_counts]
      exact hcounts
    have htype : TxnOutType.multisig = .nonStandard := (hfail hcheck).1
    cases htype
  · intro hcounts
    refine ⟨fun _ _ => solverOut_eq_true_iff, fun hfail => ?_⟩
    by_cases hhash : script.isPayToScriptHash = true
    · rw [solverOut, if_pos hhash] at hfail
      cases hfail
    · rw [solverOut_of_not_hash (Bool.not_eq_true _ ▸ hhash)] at hfail ⊢
      split at hfail
      · cases hfail
      · split at hfail
        · cases hfail
        · split at hfail
          · rename_i hmatch
            obtain ⟨m, keys, n, hshape, rfl⟩ := matchTemplate_multisig_iff.mp hmatch
            rw [checkMultisig_iff_counts.mpr (hcounts m keys n hshape)] at hfail
            cases hfail
          · split at hfail
            · cases hfail
            · exact ⟨rfl, rfl⟩

/-- One signature of one key, without the key. -/
theorem solverOut_not_cleared : (solverOut [0x51, 0x51, 0xae]).answer = false ∧
    (solverOut [0x51, 0x51, 0xae]).typeRet = .multisig ∧
    (solverOut [0x51, 0x51, 0xae]).vSolutionsRet = [[1], [1]] := by decide

end Beancash
