import Beancash.PushOnly
import Beancash.MultisigRuns

namespace Beancash

open ByteStream StackMachine

/-- The signatures that `CombineMultisig` keeps, in the order of their keys. -/
def foundSigs (c : Crypto) (scriptPubKey : Script) (txTo : Transaction) (nIn : UInt32)
    (vSolutions sigs1 sigs2 : List (List UInt8)) : List (List UInt8) :=
  let pubkeys := vSolutions.tail.dropLast
  let sigs := (allSigs (sigs1 ++ sigs2)).foldl
    (assignSig (fun sig pubkey => checkSig c sig pubkey scriptPubKey txTo nIn 0) pubkeys) []
  (pubkeys.filterMap fun pubkey => sigs.lookup pubkey).take ((vSolutions.headD []).headD 0).toNat

def multisigPushes (c : Crypto) (scriptPubKey : Script) (txTo : Transaction) (nIn : UInt32)
    (vSolutions sigs1 sigs2 : List (List UInt8)) : List (List UInt8) :=
  let found := foundSigs c scriptPubKey txTo nIn vSolutions sigs1 sigs2
  [] :: (found ++ List.replicate (((vSolutions.headD []).headD 0).toNat - found.length) [])

/-- `CombineSignatures`, as what its result pushes. -/
def mergedPushes (c : Crypto) (txTo : Transaction) (nIn : UInt32) (fuel : ℕ)
    (scriptPubKey : Script) (sigs1 sigs2 : List (List UInt8)) : List (List UInt8) :=
  match (solverOut scriptPubKey).typeRet with
  | .nonStandard | .nullData => if sigs2.length ≤ sigs1.length then sigs1 else sigs2
  | .pubKey | .pubKeyHash => if sigs1.headD [] = [] then sigs2 else sigs1
  | .scriptHash =>
    if sigs1.getLastD [] = [] then sigs2
    else if sigs2.getLastD [] = [] then sigs1
    else
      match fuel with
      | 0 => []
      | fuel + 1 =>
        mergedPushes c txTo nIn fuel (sigs1.getLastD []) sigs1.dropLast sigs2.dropLast ++
          [sigs1.getLastD []]
  | .multisig =>
    multisigPushes c scriptPubKey txTo nIn (solverOut scriptPubKey).vSolutionsRet sigs1 sigs2

theorem pushAll_replicate_nil (k : ℕ) : pushAll (List.replicate k []) = List.replicate k 0x00 := by
  induction k with
  | zero => rfl
  | succ k ih =>
    rw [List.replicate_succ, List.replicate_succ, pushAll_cons, ih]
    rfl

theorem combineMultisig_eq_pushAll (c : Crypto) (scriptPubKey : Script) (txTo : Transaction)
    (nIn : UInt32) (vSolutions sigs1 sigs2 : List (List UInt8)) :
    combineMultisig c scriptPubKey txTo nIn vSolutions sigs1 sigs2 =
      pushAll (multisigPushes c scriptPubKey txTo nIn vSolutions sigs1 sigs2) := by
  rw [multisigPushes, pushAll_cons, pushAll_append, pushAll_replicate_nil]
  rfl

theorem combineStacks_eq_pushAll (c : Crypto) (txTo : Transaction) (nIn : UInt32) (fuel : ℕ)
    (scriptPubKey : Script) (sigs1 sigs2 : List (List UInt8)) :
    combineStacks c txTo nIn fuel scriptPubKey (solverOut scriptPubKey).typeRet
      (solverOut scriptPubKey).vSolutionsRet sigs1 sigs2 =
        pushAll (mergedPushes c txTo nIn fuel scriptPubKey sigs1 sigs2) := by
  induction fuel generalizing scriptPubKey sigs1 sigs2 with
  | zero =>
    unfold mergedPushes
    cases (solverOut scriptPubKey).typeRet with
    | multisig => exact combineMultisig_eq_pushAll ..
    | _ =>
      rw [combineStacks]
      split_ifs <;> rfl
  | succ fuel ih =>
    unfold mergedPushes
    cases (solverOut scriptPubKey).typeRet with
    | multisig => exact combineMultisig_eq_pushAll ..
    | scriptHash =>
      rw [combineStacks]
      dsimp only
      split_ifs
      · rfl
      · rfl
      · rw [ih, pushAll_append, pushAll_cons, pushAll_nil, List.append_nil]
    | _ =>
      rw [combineStacks]
      split_ifs <;> rfl

section Assign

variable {good : List UInt8 → List UInt8 → Bool} {keys : List (List UInt8)}

/-- What the tried signatures have come to: those that are kept are good for their keys, and every
key has one that any of them is good for. -/
structure Assigned (good : List UInt8 → List UInt8 → Bool) (keys tried : List (List UInt8))
    (sigs : List (List UInt8 × List UInt8)) : Prop where
  sound : ∀ p ∈ sigs, good p.2 p.1 = true
  complete : ∀ sig ∈ tried, ∀ key ∈ keys, good sig key = true → (sigs.lookup key).isSome = true

theorem isSome_lookup_cons {sigs : List (List UInt8 × List UInt8)} {p : List UInt8 × List UInt8}
    {key : List UInt8} (h : (sigs.lookup key).isSome = true) :
    ((p :: sigs).lookup key).isSome = true := by
  rw [List.lookup_cons]
  split
  · rfl
  · exact h

theorem mem_foldl_assignSig {l : List (List UInt8)} {sigs : List (List UInt8 × List UInt8)} :
    ∀ p ∈ l.foldl (assignSig good keys) sigs, p.2 ∈ l ∨ p ∈ sigs := by
  induction l generalizing sigs with
  | nil => exact fun p hp => Or.inr hp
  | cons sig l ih =>
    intro p hp
    rcases ih p hp with hmem | hmem
    · exact Or.inl (List.mem_cons_of_mem _ hmem)
    · unfold assignSig at hmem
      split at hmem
      · rcases List.mem_cons.mp hmem with rfl | hmem
        · exact Or.inl List.mem_cons_self
        · exact Or.inr hmem
      · exact Or.inr hmem

theorem Assigned.assignSig {tried : List (List UInt8)} {sigs : List (List UInt8 × List UInt8)}
    (h : Assigned good keys tried sigs) (sig : List UInt8)
    (honce : ∀ key ∈ keys, ∀ key' ∈ keys, good sig key = true → good sig key' = true →
      key = key') :
    Assigned good keys (sig :: tried) (assignSig good keys sigs sig) := by
  unfold Beancash.assignSig
  split
  · rename_i pubkey hfind
    have hmem := List.mem_of_find?_eq_some hfind
    have hfound := List.find?_some hfind
    have hgood : good sig pubkey = true := (Bool.and_eq_true_iff.mp hfound).2
    refine ⟨List.forall_mem_cons.mpr ⟨hgood, h.sound⟩, ?_⟩
    intro sig' hsig' key hkey hgood'
    rcases List.mem_cons.mp hsig' with rfl | hsig'
    · obtain rfl : key = pubkey := honce key hkey pubkey hmem hgood' hgood
      rw [List.lookup_cons_self]
      rfl
    · exact isSome_lookup_cons (h.complete sig' hsig' key hkey hgood')
  · rename_i hfind
    refine ⟨h.sound, ?_⟩
    intro sig' hsig' key hkey hgood'
    rcases List.mem_cons.mp hsig' with rfl | hsig'
    · -- the key has one already
      have hnot := List.find?_eq_none.mp hfind key hkey
      rw [hgood', Bool.and_true, Bool.not_eq_true, Option.isNone_eq_false_iff] at hnot
      exact hnot
    · exact h.complete sig' hsig' key hkey hgood'

theorem Assigned.foldl {l tried : List (List UInt8)} {sigs : List (List UInt8 × List UInt8)}
    (h : Assigned good keys tried sigs)
    (honce : ∀ sig ∈ l, ∀ key ∈ keys, ∀ key' ∈ keys, good sig key = true → good sig key' = true →
      key = key') :
    Assigned good keys (l.reverse ++ tried) (l.foldl (Beancash.assignSig good keys) sigs) := by
  induction l generalizing tried sigs with
  | nil => exact h
  | cons sig l ih =>
    have hstep := h.assignSig sig (honce sig List.mem_cons_self)
    have hrest := ih hstep fun sig' hsig' => honce sig' (List.mem_cons_of_mem _ hsig')
    rw [List.reverse_cons, List.append_assoc]
    exact hrest

theorem sublistForall₂_filterMap {α β : Type} {R : β → α → Prop} {f : α → Option β} {l : List α}
    (h : ∀ a ∈ l, ∀ b ∈ f a, R b a) : List.SublistForall₂ R (l.filterMap f) l := by
  induction l with
  | nil => exact .nil
  | cons a l ih =>
    have hrest := ih fun a' ha' => h a' (List.mem_cons_of_mem _ ha')
    rw [List.filterMap_cons]
    cases hb : f a with
    | none => exact .cons_right hrest
    | some b => exact .cons (h a List.mem_cons_self b hb) hrest

theorem sublistForall₂_take {α β : Type} {R : α → β → Prop} {l : List α} {l' : List β}
    (h : List.SublistForall₂ R l l') (k : ℕ) : List.SublistForall₂ R (l.take k) l' := by
  rw [List.sublistForall₂_iff] at h ⊢
  obtain ⟨l'', hall, hsub⟩ := h
  exact ⟨l''.take k, List.forall₂_take k hall, (List.take_sublist k l'').trans hsub⟩

theorem mem_of_lookup {sigs : List (List UInt8 × List UInt8)} {key sig : List UInt8}
    (h : sigs.lookup key = some sig) : (key, sig) ∈ sigs := by
  obtain ⟨l, l', rfl, _⟩ := List.lookup_eq_some_iff.mp h
  simp

theorem mem_allSigs {sigs : List (List UInt8)} {sig : List UInt8} :
    sig ∈ allSigs sigs ↔ sig ∈ sigs ∧ sig ≠ [] := by
  simp [allSigs, List.mem_filter]

theorem mem_of_mem_foldl_allSigs {sigs : List (List UInt8)} :
    ∀ p ∈ (allSigs sigs).foldl (assignSig good keys) [], p.2 ∈ sigs := by
  intro p hp
  rcases mem_foldl_assignSig p hp with hmem | hmem
  · exact (mem_allSigs.mp hmem).1
  · exact absurd hmem List.not_mem_nil

theorem mem_foundSigs {c : Crypto} {scriptPubKey : Script} {txTo : Transaction} {nIn : UInt32}
    {vSolutions sigs1 sigs2 : List (List UInt8)} :
    ∀ sig ∈ foundSigs c scriptPubKey txTo nIn vSolutions sigs1 sigs2, sig ∈ sigs1 ++ sigs2 := by
  intro sig hsig
  obtain ⟨key, _, hlookup⟩ := List.mem_filterMap.mp (List.mem_of_mem_take hsig)
  exact mem_of_mem_foldl_allSigs _ (mem_of_lookup hlookup)

theorem Assigned.length_le {tried sigs' : List (List UInt8)}
    {sigs : List (List UInt8 × List UInt8)} (h : Assigned good keys tried sigs)
    (hsub : List.SublistForall₂ (fun sig key => good sig key = true) sigs' keys)
    (htried : ∀ sig ∈ sigs', sig ∈ tried) :
    sigs'.length ≤ (keys.filterMap fun key => sigs.lookup key).length := by
  obtain ⟨keys', hall, hkeys⟩ := List.sublistForall₂_iff.mp hsub
  have hsome : ∀ key ∈ keys', (sigs.lookup key).isSome = true := by
    intro key hkey
    obtain ⟨i, hi, rfl⟩ := List.getElem_of_mem hkey
    have hi' : i < sigs'.length := hall.length_eq ▸ hi
    have hgood := (List.forall₂_iff_get.mp hall).2 i hi' hi
    exact h.complete _ (htried _ (List.getElem_mem hi')) _ (hkeys.subset hkey) hgood
  have hlen : (keys'.filterMap fun key => sigs.lookup key).length = keys'.length := by
    rw [List.length_filterMap_eq_countP, List.countP_eq_length]
    exact hsome
  rw [hall.length_eq, ← hlen]
  exact (hkeys.filterMap _).length_le

end Assign

/-- `CheckSig`, as the merge asks it. It takes any encoding of signature and key. -/
def mergeCheck (input : ScriptInput) (scriptPubKey : Script) (vchSig vchPubKey : List UInt8) :
    Bool :=
  checkSig input.crypto vchSig vchPubKey scriptPubKey input.txTo input.nIn 0

/-- What the pushes must be for the signatures of a multisig script to be told. -/
structure SigsTold (input : ScriptInput) (scriptPubKey : Script) (keys pushes : List (List UInt8)) :
    Prop where
  /-- The interpreter takes the signatures that the merge takes. -/
  good : ∀ sig ∈ pushes, ∀ key ∈ keys, mergeCheck input scriptPubKey sig key = true →
    input.goodSig scriptPubKey sig key = true
  /-- None of them is in the script. -/
  apart : ∀ sig ∈ pushes, isCanonicalSignature sig = true → sig ∉ keys
  /-- None of them is of two keys. -/
  once : ∀ sig ∈ pushes, ∀ key ∈ keys, ∀ key' ∈ keys, mergeCheck input scriptPubKey sig key = true →
    mergeCheck input scriptPubKey sig key' = true → key = key'

instance (input : ScriptInput) (scriptPubKey : Script) (keys pushes : List (List UInt8)) :
    Decidable (SigsTold input scriptPubKey keys pushes) :=
  decidable_of_iff
    ((∀ sig ∈ pushes, ∀ key ∈ keys, mergeCheck input scriptPubKey sig key = true →
        input.goodSig scriptPubKey sig key = true) ∧
      (∀ sig ∈ pushes, isCanonicalSignature sig = true → sig ∉ keys) ∧
      ∀ sig ∈ pushes, ∀ key ∈ keys, ∀ key' ∈ keys, mergeCheck input scriptPubKey sig key = true →
        mergeCheck input scriptPubKey sig key' = true → key = key')
    ⟨fun h => ⟨h.1, h.2.1, h.2.2⟩, fun h => ⟨h.good, h.apart, h.once⟩⟩

/-- The merge of `sigs1` and `sigs2` goes by its rule for `scriptPubKey` when it keeps `sigs`, which
is one of the two. -/
def KeptBy (input : ScriptInput) (scriptPubKey : Script) (sigs1 sigs2 sigs : List (List UInt8)) :
    Prop :=
  match (solverOut scriptPubKey).typeRet with
  | .nonStandard | .nullData => (if sigs2.length ≤ sigs1.length then sigs1 else sigs2) = sigs
  | .pubKey | .pubKeyHash => (if sigs1.headD [] = [] then sigs2 else sigs1) = sigs
  | .scriptHash =>
    if sigs1.getLastD [] = [] then sigs2 = sigs else sigs.getLastD [] = sigs1.getLastD []
  | .multisig =>
    (solverOut scriptPubKey).answer = true ∧
      SigsTold input scriptPubKey (solverOut scriptPubKey).vSolutionsRet.tail.dropLast
        (sigs1 ++ sigs2)

/-- The rules by which it keeps `sigs`, those for the script that was hashed included. -/
def Kept (input : ScriptInput) (scriptPubKey : Script) (sigs1 sigs2 sigs : List (List UInt8)) :
    Prop :=
  KeptBy input scriptPubKey sigs1 sigs2 sigs ∧
    (scriptPubKey.isPayToScriptHash = true → sigs1.length < 1000 ∧ sigs2.length < 1000 ∧
      (sigs1.getLastD [] ≠ [] → sigs2.getLastD [] ≠ [] →
        KeptBy input (sigs.getLastD []) sigs1.dropLast sigs2.dropLast sigs.dropLast))

/-- These pushes make a script leave true. -/
def Unlocks (input : ScriptInput) (script : Script) (pushes : List (List UInt8)) : Prop :=
  ∃ back rest, evalScript input pushes.reverse script = some (back :: rest) ∧ castToBool back = true

section Accept

variable {input : ScriptInput} {scriptSig scriptPubKey : Script}

theorem reverse_eq_getLastD_cons {pushes : List (List UInt8)} (h : pushes ≠ []) :
    pushes.reverse = pushes.getLastD [] :: pushes.dropLast.reverse := by
  obtain ⟨l, a, rfl⟩ := (List.eq_nil_or_concat pushes).resolve_left h
  simp

theorem pure_eq_ok_iff {b b' : Bool} : (pure b : ScriptEval Bool) = .ok b' ↔ b = b' :=
  ⟨Except.ok.inj, congrArg Except.ok⟩

theorem verifyScript_eq_true_iff {pushes : List (List UInt8)} (hpush : scriptSig.isPushOnly = true)
    (hstack : evalScript input [] scriptSig = some pushes.reverse) :
    verifyScript input scriptSig scriptPubKey = .ok true ↔
      Unlocks input scriptPubKey pushes ∧ (scriptPubKey.isPayToScriptHash = true →
        Unlocks input (pushes.getLastD []) pushes.dropLast) := by
  unfold verifyScript Unlocks
  rw [hstack]
  dsimp only
  cases heval : evalScript input pushes.reverse scriptPubKey with
  | none => simp [pure_eq_ok_iff]
  | some stack =>
    cases stack with
    | nil => simp [pure_eq_ok_iff]
    | cons back rest =>
      dsimp only
      cases hback : castToBool back with
      | false => simp [hback, pure_eq_ok_iff]
      | true =>
        cases hhash : scriptPubKey.isPayToScriptHash with
        | false => simp [hback, pure_eq_ok_iff]
        | true =>
          have hne : pushes ≠ [] := by
            rintro rfl
            rw [List.reverse_nil, evalScript_nil_of_isPayToScriptHash input hhash] at heval
            cases heval
          rw [hpush, reverse_eq_getLastD_cons hne]
          change topVerdict (evalScript input pushes.dropLast.reverse (pushes.getLastD [])) =
            .ok true ↔ _
          cases evalScript input pushes.dropLast.reverse (pushes.getLastD []) with
          | none => simp [topVerdict, pure_eq_ok_iff]
          | some stack =>
            cases stack with
            | nil => simp [topVerdict, pure_eq_ok_iff]
            | cons back' rest' => simp [topVerdict, hback, pure_eq_ok_iff]

theorem verifyScript_pushAll {pushes : List (List UInt8)} (hfits : ∀ b ∈ pushes, Fits b)
    (hsize : (pushAll pushes).length ≤ 10000) (hlen : pushes.length ≤ 1000) :
    verifyScript input (pushAll pushes) scriptPubKey = .ok true ↔
      Unlocks input scriptPubKey pushes ∧ (scriptPubKey.isPayToScriptHash = true →
        Unlocks input (pushes.getLastD []) pushes.dropLast) :=
  verifyScript_eq_true_iff (isPushOnly_pushAll (by omega))
    (evalScript_pushAll input hfits hsize hlen)

theorem hash_of_unlocks {hash : List UInt8} (hlen : hash.length = 20)
    {pushes : List (List UInt8)}
    (h : Unlocks input (0xa9 :: 0x14 :: (hash ++ [0x87])) pushes) :
    pushes ≠ [] ∧ (input.crypto.hash160 (pushes.getLastD [])).toList = hash := by
  obtain ⟨back, rest, heval, hback⟩ := h
  have hhash : Script.isPayToScriptHash (0xa9 :: 0x14 :: (hash ++ [0x87])) = true :=
    Script.isPayToScriptHash_iff.mpr ⟨hash, hlen, rfl⟩
  have hne : pushes ≠ [] := by
    rintro rfl
    rw [List.reverse_nil, evalScript_nil_of_isPayToScriptHash input hhash] at heval
    cases heval
  refine ⟨hne, ?_⟩
  rw [reverse_eq_getLastD_cons hne] at heval
  obtain ⟨s', hrun, hend, hstack⟩ := run_of_evalScript heval
  obtain ⟨pc1, hop1, hparses1⟩ := (parses_payToScriptHash hlen).exists_rest
  obtain ⟨pc2, hop2, hparses2⟩ := hparses1.exists_rest
  obtain ⟨pc3, hop3, hparses3⟩ := hparses2.exists_rest
  obtain rfl := hparses3.eq_nil
  obtain ⟨t1, ht1, hrun⟩ := run_of_getOp hop1 hend hrun
  rw [evalInstruction_opcode (by decide)
    (rfl : toOpcode 0xa9 = some (.onStack (.hash .opHash160)))] at ht1
  cases ht1
  replace hrun := run_of_push hop2 (by decide) hend hrun
  obtain ⟨t2, ht2, hrun⟩ := run_of_getOp hop3 hend hrun
  rw [evalInstruction_opcode (by decide)
    (rfl : toOpcode 0x87 = some (.onStack .opEqual))] at ht2
  cases ht2
  rcases hrun.cases_head with rfl | ⟨t, hstep, _⟩
  · by_contra hdiffer
    have hfalse : decide ((input.crypto.hash160 (pushes.getLastD [])).toList = hash) = false :=
      decide_eq_false hdiffer
    replace hstack : (if decide ((input.crypto.hash160 (pushes.getLastD [])).toList = hash) then
      vchTrue else vchFalse) :: pushes.dropLast.reverse = back :: rest := hstack
    rw [hfalse] at hstack
    rw [← (List.cons.inj hstack).1] at hback
    cases hback
  · cases hstep

theorem unlocks_of_hash {hash : List UInt8} (hlen : hash.length = 20)
    {pushes : List (List UInt8)} (hne : pushes ≠ []) (hcount : pushes.length < 1000)
    (hhash : (input.crypto.hash160 (pushes.getLastD [])).toList = hash) :
    Unlocks input (0xa9 :: 0x14 :: (hash ++ [0x87])) pushes := by
  have hstack : pushes.dropLast.reverse.length < 999 := by
    have hpos := List.length_pos_iff.mpr hne
    rw [List.length_reverse, List.length_dropLast]
    omega
  refine ⟨vchTrue, pushes.dropLast.reverse, ?_, by decide⟩
  rw [reverse_eq_getLastD_cons hne]
  exact evalScript_scriptHash (parses_payToScriptHash hlen) hlen hhash hstack

end Accept

section Keeps

variable {input : ScriptInput} {scriptPubKey : Script} {sigs1 sigs2 sigs : List (List UInt8)}

theorem mergeCheck_of_goodSig {sig key : List UInt8}
    (h : input.goodSig scriptPubKey sig key = true) :
    mergeCheck input scriptPubKey sig key = true := by
  have hcheck := (Bool.and_eq_true_iff.mp h).2
  unfold mergeCheck
  unfold checkSig at hcheck ⊢
  obtain ⟨hvalid, hverify⟩ := Bool.and_eq_true_iff.mp hcheck
  rw [hvalid, Bool.true_and]
  cases hback : sig.getLast? with
  | none =>
    rw [hback] at hverify
    cases hverify
  | some back =>
    rw [hback] at hverify
    exact Bool.and_eq_true_iff.mpr ⟨rfl, (Bool.and_eq_true_iff.mp hverify).2⟩

theorem typeRet_multisig (h : (solverOut scriptPubKey).typeRet = .multisig) :
    ∃ m keys n, MultisigShape scriptPubKey m keys n ∧
      (solverOut scriptPubKey).vSolutionsRet = [m] :: (keys ++ [[n]]) := by
  by_cases hhash : scriptPubKey.isPayToScriptHash = true
  · rw [solverOut, if_pos hhash] at h
    cases h
  · rw [solverOut_of_not_hash (Bool.not_eq_true _ ▸ hhash)] at h ⊢
    split at h
    · cases h
    · split at h
      · cases h
      · split at h
        · rename_i hmatch
          obtain ⟨m, keys, n, hshape, rfl⟩ := matchTemplate_multisig_iff.mp hmatch
          exact ⟨m, keys, n, hshape, rfl⟩
        · split at h <;> cases h

theorem counts_of_answer {m n : UInt8} {keys : List (List UInt8)}
    (hshape : MultisigShape scriptPubKey m keys n) (h : (solverOut scriptPubKey).answer = true) :
    MultisigCounts m keys n := by
  rw [solverOut_of_multisigShape hshape] at h
  exact checkMultisig_iff_counts.mp h

theorem typeRet_scriptHash (h : (solverOut scriptPubKey).typeRet = .scriptHash) :
    scriptPubKey.isPayToScriptHash = true := by
  by_contra hhash
  rw [solverOut_of_not_hash (Bool.not_eq_true _ ▸ hhash)] at h
  split at h
  · cases h
  · split at h
    · cases h
    · split at h
      · cases h
      · split at h <;> cases h

theorem SmallInteger.toNat_le {opcode n : UInt8} (h : SmallInteger opcode n) : n.toNat ≤ 16 := by
  rcases h with ⟨_, rfl⟩ | ⟨hlo, hhi, rfl⟩
  · decide
  · rw [UInt8.toNat_sub_of_le _ _ (UInt8.le_trans (by decide) hlo)]
    have hle : opcode.toNat ≤ 0x60 := UInt8.le_iff_toNat_le.mp hhi
    change opcode.toNat - 0x50 ≤ 16
    omega

theorem length_pushBytes_scriptHash (h : scriptPubKey.isPayToScriptHash = true) :
    (Script.pushBytes scriptPubKey).length = 24 := by
  obtain ⟨hash, hlen, rfl⟩ := Script.isPayToScriptHash_iff.mp h
  have hsize : (0xa9 :: 0x14 :: (hash ++ [0x87]) : Script).length = 23 := by simp [hlen]
  rw [Script.pushBytes, if_pos (by rw [hsize]; decide), List.length_cons, hsize]

theorem length_multisigPushes {c : Crypto} {txTo : Transaction} {nIn : UInt32} {m : UInt8}
    {vSolutions : List (List UInt8)} :
    (multisigPushes c scriptPubKey txTo nIn ([m] :: vSolutions) sigs1 sigs2).length =
      m.toNat + 1 := by
  have hle : (foundSigs c scriptPubKey txTo nIn ([m] :: vSolutions) sigs1 sigs2).length ≤
      m.toNat := List.length_take_le _ _
  have hm : (([m] :: vSolutions).headD []).headD 0 = m := rfl
  rw [multisigPushes, hm, List.length_cons, List.length_append, List.length_replicate]
  omega

theorem multisigPushes_unlock {m n : UInt8} {keys : List (List UInt8)}
    (hshape : MultisigShape scriptPubKey m keys n) (hcounts : MultisigCounts m keys n)
    (htold : SigsTold input scriptPubKey keys (sigs1 ++ sigs2))
    (hsigs : ∀ sig ∈ sigs, sig ∈ sigs1 ++ sigs2) (h : Unlocks input scriptPubKey sigs) :
    Unlocks input scriptPubKey (multisigPushes input.crypto scriptPubKey input.txTo input.nIn
      ([m] :: (keys ++ [[n]])) sigs1 sigs2) := by
  obtain ⟨back, rest, heval, hback⟩ := h
  obtain ⟨sigs', hlen, hmem, hsub⟩ := sigs_of_evalScript hshape hcounts heval hback
    fun sig hsig => htold.apart sig (hsigs sig (List.mem_reverse.mp hsig))
  have hcheck : List.SublistForall₂
      (fun sig key => mergeCheck input scriptPubKey sig key = true) sigs' keys := by
    rw [List.sublistForall₂_iff] at hsub ⊢
    obtain ⟨l, hall, hkeys⟩ := hsub
    exact ⟨l, hall.imp fun _ _ => mergeCheck_of_goodSig, hkeys⟩
  have hempty : Assigned (mergeCheck input scriptPubKey) keys [] [] :=
    ⟨fun _ hp => absurd hp List.not_mem_nil, fun _ hsig => absurd hsig List.not_mem_nil⟩
  have hassigned := hempty.foldl (l := allSigs (sigs1 ++ sigs2)) fun sig hsig =>
    htold.once sig (mem_allSigs.mp hsig).1
  rw [List.append_nil] at hassigned
  have hfound : foundSigs input.crypto scriptPubKey input.txTo input.nIn ([m] :: (keys ++ [[n]]))
      sigs1 sigs2 = (keys.filterMap fun key => ((allSigs (sigs1 ++ sigs2)).foldl
        (assignSig (mergeCheck input scriptPubKey) keys) []).lookup key).take m.toNat := by
    unfold foundSigs
    rw [List.tail_cons, List.dropLast_concat]
    rfl
  have hpushed : ∀ p ∈ (allSigs (sigs1 ++ sigs2)).foldl
      (assignSig (mergeCheck input scriptPubKey) keys) [], p.2 ∈ sigs1 ++ sigs2 :=
    mem_of_mem_foldl_allSigs
  rw [multisigPushes, hfound]
  generalize (allSigs (sigs1 ++ sigs2)).foldl
    (assignSig (mergeCheck input scriptPubKey) keys) [] = σ at hassigned hpushed ⊢
  have hkept : ∀ key sig, σ.lookup key = some sig →
      sig ∈ sigs1 ++ sigs2 ∧ mergeCheck input scriptPubKey sig key = true := by
    intro key sig hsig
    have hmem := mem_of_lookup hsig
    exact ⟨hpushed _ hmem, hassigned.sound _ hmem⟩
  have hle : m.toNat ≤ (keys.filterMap fun key => σ.lookup key).length := by
    rw [← hlen]
    refine hassigned.length_le hcheck fun sig hsig => ?_
    obtain ⟨key, _, hgood⟩ := exists_of_sublistForall₂ hcheck sig hsig
    have hne : sig ≠ [] := by
      rintro rfl
      simp [mergeCheck, checkSig] at hgood
    exact List.mem_reverse.mpr
      (mem_allSigs.mpr ⟨hsigs sig (List.mem_reverse.mp (hmem sig hsig)), hne⟩)
  have hgoodSigs : List.SublistForall₂ (fun sig key => input.goodSig scriptPubKey sig key = true)
      ((keys.filterMap fun key => σ.lookup key).take m.toNat) keys := by
    refine sublistForall₂_take (sublistForall₂_filterMap fun key hkey sig hsig => ?_) _
    obtain ⟨hpush, hgood⟩ := hkept key sig hsig
    exact htold.good sig hpush key hkey hgood
  have htake : ((keys.filterMap fun key => σ.lookup key).take m.toNat).length = m.toNat := by
    rw [List.length_take, Nat.min_eq_left hle]
  have happart : ∀ sig ∈ (keys.filterMap fun key => σ.lookup key).take m.toNat,
      isCanonicalSignature sig = true → sig ∉ keys := by
    intro sig hsig
    obtain ⟨key, _, hlookup⟩ := List.mem_filterMap.mp (List.mem_of_mem_take hsig)
    exact htold.apart sig (hkept key sig hlookup).1
  refine ⟨vchTrue, [], ?_, by decide⟩
  have hnone : (([m] :: (keys ++ [[n]])).headD []).headD 0 = m := rfl
  rw [hnone, htake, Nat.sub_self, List.replicate_zero, List.append_nil, List.reverse_cons]
  exact evalScript_of_multisigShape hshape hcounts htake hgoodSigs happart

theorem typeRet_of_isPayToScriptHash (h : scriptPubKey.isPayToScriptHash = true) :
    (solverOut scriptPubKey).typeRet = .scriptHash := by
  rw [solverOut, if_pos h]

/-- Of a script hash either the pushes are kept as they are, or the script that was hashed stays
where it is and what comes before it is merged. -/
theorem KeptBy.scriptHash_cases (h : KeptBy input scriptPubKey sigs1 sigs2 sigs)
    (hhash : scriptPubKey.isPayToScriptHash = true) (hone : sigs = sigs1 ∨ sigs = sigs2) {fuel : ℕ}
    (hfuel : sigs1.length ≤ fuel) :
    mergedPushes input.crypto input.txTo input.nIn fuel scriptPubKey sigs1 sigs2 = sigs ∨
      sigs1.getLastD [] ≠ [] ∧ sigs2.getLastD [] ≠ [] ∧ ∃ fuel', fuel = fuel' + 1 ∧
        mergedPushes input.crypto input.txTo input.nIn fuel scriptPubKey sigs1 sigs2 =
          mergedPushes input.crypto input.txTo input.nIn fuel' (sigs.getLastD []) sigs1.dropLast
            sigs2.dropLast ++ [sigs.getLastD []] := by
  have htype := typeRet_of_isPayToScriptHash hhash
  unfold KeptBy at h
  rw [htype] at h
  rw [mergedPushes.eq_def, htype]
  dsimp only at h ⊢
  split at h
  · rename_i hlast
    rw [if_pos hlast]
    exact Or.inl h
  · rename_i hlast
    rw [if_neg hlast]
    split
    · rename_i hlast'
      -- the second has no script, so the first is the one
      rcases hone with rfl | rfl
      · exact Or.inl rfl
      · exact absurd (h.symm.trans hlast') hlast
    · rename_i hlast'
      cases fuel with
      | zero =>
        have hnil := List.length_eq_zero_iff.mp (Nat.le_zero.mp hfuel)
        rw [hnil] at hlast
        exact absurd rfl hlast
      | succ fuel => exact Or.inr ⟨hlast, hlast', fuel, rfl, by rw [h]⟩

theorem KeptBy.eq_or_length_le (h : KeptBy input scriptPubKey sigs1 sigs2 sigs)
    (hhash : scriptPubKey.isPayToScriptHash = false) (fuel : ℕ) :
    mergedPushes input.crypto input.txTo input.nIn fuel scriptPubKey sigs1 sigs2 = sigs ∨
      (mergedPushes input.crypto input.txTo input.nIn fuel scriptPubKey sigs1
        sigs2).length ≤ 17 := by
  unfold KeptBy at h
  unfold mergedPushes
  cases htype : (solverOut scriptPubKey).typeRet with
  | nonStandard | nullData | pubKey | pubKeyHash =>
    rw [htype] at h
    exact Or.inl h
  | multisig =>
    obtain ⟨m, keys, n, ⟨opcodeM, _, _, hm, _⟩, hsols⟩ := typeRet_multisig htype
    have hm16 : m.toNat ≤ 16 := hm.toNat_le
    dsimp only
    rw [hsols, length_multisigPushes]
    exact Or.inr (by omega)
  | scriptHash =>
    rw [typeRet_scriptHash htype] at hhash
    cases hhash

theorem mergedPushes_unlock {fuel : ℕ} (hfuel : sigs1.length ≤ fuel)
    (hone : sigs = sigs1 ∨ sigs = sigs2) (hkept : KeptBy input scriptPubKey sigs1 sigs2 sigs)
    (hcount : scriptPubKey.isPayToScriptHash = true →
      (mergedPushes input.crypto input.txTo input.nIn fuel scriptPubKey sigs1 sigs2).length < 1000)
    (h : Unlocks input scriptPubKey sigs) :
    Unlocks input scriptPubKey
      (mergedPushes input.crypto input.txTo input.nIn fuel scriptPubKey sigs1 sigs2) := by
  by_cases hhash : scriptPubKey.isPayToScriptHash = true
  · rcases hkept.scriptHash_cases hhash hone hfuel with hsame | ⟨_, _, fuel', _, hmerged⟩
    · rw [hsame]
      exact h
    · have hshort := hcount hhash
      obtain ⟨hash, hlen, rfl⟩ := Script.isPayToScriptHash_iff.mp hhash
      obtain ⟨_, hid⟩ := hash_of_unlocks hlen h
      refine unlocks_of_hash hlen ?_ hshort ?_
      · rw [hmerged]
        simp
      · rw [hmerged, List.getLastD_concat]
        exact hid
  · unfold KeptBy at hkept
    unfold mergedPushes
    cases htype : (solverOut scriptPubKey).typeRet with
    | nonStandard | nullData | pubKey | pubKeyHash =>
      rw [htype] at hkept
      rw [hkept]
      exact h
    | multisig =>
      rw [htype] at hkept
      obtain ⟨m, keys, n, hshape, hsols⟩ := typeRet_multisig htype
      have hcounts := counts_of_answer hshape hkept.1
      rw [hsols] at hkept ⊢
      have htold : SigsTold input scriptPubKey keys (sigs1 ++ sigs2) := by
        have htold := hkept.2
        rwa [List.tail_cons, List.dropLast_concat] at htold
      have hsigs : ∀ sig ∈ sigs, sig ∈ sigs1 ++ sigs2 := by
        intro sig hsig
        rcases hone with rfl | rfl
        · exact List.mem_append_left _ hsig
        · exact List.mem_append_right _ hsig
      exact multisigPushes_unlock hshape hcounts htold hsigs h
    | scriptHash => exact absurd (typeRet_scriptHash htype) hhash

theorem mem_of_getLastD_ne_nil {l : List (List UInt8)} (h : l.getLastD [] ≠ []) :
    l.getLastD [] ∈ l := by
  cases hlast : l.getLast? with
  | none =>
    rw [List.getLastD_eq_getLast?, hlast] at h
    exact absurd rfl h
  | some b =>
    rw [List.getLastD_eq_getLast?, hlast]
    exact List.mem_of_getLast? hlast

theorem mergedPushes_cases (c : Crypto) (txTo : Transaction) (nIn : UInt32) (fuel : ℕ)
    (scriptPubKey : Script) (sigs1 sigs2 : List (List UInt8)) {l : List (List UInt8)}
    (h : mergedPushes c txTo nIn fuel scriptPubKey sigs1 sigs2 = l) :
    (l = sigs1 ∨ l = sigs2 ∨ l = []) ∨
      ((solverOut scriptPubKey).typeRet = .multisig ∧
        l = multisigPushes c scriptPubKey txTo nIn (solverOut scriptPubKey).vSolutionsRet sigs1
          sigs2) ∨
      ((solverOut scriptPubKey).typeRet = .scriptHash ∧ sigs1.getLastD [] ≠ [] ∧
        sigs2.getLastD [] ≠ [] ∧ ∃ fuel', fuel = fuel' + 1 ∧
          l = mergedPushes c txTo nIn fuel' (sigs1.getLastD []) sigs1.dropLast sigs2.dropLast ++
            [sigs1.getLastD []]) := by
  unfold mergedPushes at h
  cases htype : (solverOut scriptPubKey).typeRet with
  | nonStandard | nullData | pubKey | pubKeyHash =>
    rw [htype] at h
    dsimp only at h
    split at h
    · exact Or.inl (by simp [h])
    · exact Or.inl (by simp [h])
  | multisig =>
    rw [htype] at h
    exact Or.inr (Or.inl ⟨rfl, h.symm⟩)
  | scriptHash =>
    rw [htype] at h
    dsimp only at h
    split at h
    · exact Or.inl (by simp [h])
    · rename_i hlast1
      split at h
      · exact Or.inl (by simp [h])
      · rename_i hlast2
        cases fuel with
        | zero => exact Or.inl (by simp [← h])
        | succ fuel => exact Or.inr (Or.inr ⟨rfl, hlast1, hlast2, fuel, rfl, h.symm⟩)

theorem mem_mergedPushes {c : Crypto} {txTo : Transaction} {nIn : UInt32} {fuel : ℕ} :
    ∀ b ∈ mergedPushes c txTo nIn fuel scriptPubKey sigs1 sigs2,
      b = [] ∨ b ∈ sigs1 ++ sigs2 := by
  induction fuel using Nat.strong_induction_on generalizing scriptPubKey sigs1 sigs2 with
  | _ fuel ih =>
    intro b hb
    generalize hl : mergedPushes c txTo nIn fuel scriptPubKey sigs1 sigs2 = l at hb
    rcases mergedPushes_cases c txTo nIn fuel scriptPubKey sigs1 sigs2 hl with
      (rfl | rfl | rfl) | ⟨_, rfl⟩ | ⟨_, hlast, _, fuel', rfl, rfl⟩
    · exact Or.inr (List.mem_append_left _ hb)
    · exact Or.inr (List.mem_append_right _ hb)
    · cases hb
    · rcases List.mem_cons.mp hb with rfl | hb
      · exact Or.inl rfl
      · rcases List.mem_append.mp hb with hb | hb
        · exact Or.inr (mem_foundSigs b hb)
        · exact Or.inl (List.eq_of_mem_replicate hb)
    · rcases List.mem_append.mp hb with hb | hb
      · rcases ih fuel' (Nat.lt_succ_self _) b hb with rfl | hmem
        · exact Or.inl rfl
        · rcases List.mem_append.mp hmem with hmem | hmem
          · exact Or.inr (List.mem_append_left _ (List.mem_of_mem_dropLast hmem))
          · exact Or.inr (List.mem_append_right _ (List.mem_of_mem_dropLast hmem))
      · rw [List.mem_singleton.mp hb]
        exact Or.inr (List.mem_append_left _ (mem_of_getLastD_ne_nil hlast))

/-- A merge has no more pushes than the longer of the two, or it ends with scripts to be hashed,
which take their bytes, and signatures of sixteen keys at most. -/
theorem length_mergedPushes {c : Crypto} {txTo : Transaction} {nIn : UInt32} {fuel : ℕ}
    {l : List (List UInt8)}
    (hl : mergedPushes c txTo nIn fuel scriptPubKey sigs1 sigs2 = l) :
    l.length ≤ max sigs1.length sigs2.length ∨ (24 * l.length ≤ (pushAll l).length + 24 * 18 ∧
      ((solverOut scriptPubKey).typeRet ≠ .scriptHash → l.length ≤ 17)) := by
  induction fuel using Nat.strong_induction_on generalizing scriptPubKey sigs1 sigs2 l with
  | _ fuel ih =>
    rcases mergedPushes_cases c txTo nIn fuel scriptPubKey sigs1 sigs2 hl with
      (rfl | rfl | rfl) | ⟨htype, rfl⟩ | ⟨htype, hlast1, hlast2, fuel', rfl, rfl⟩
    · exact Or.inl (le_max_left _ _)
    · exact Or.inl (le_max_right _ _)
    · exact Or.inl (Nat.zero_le _)
    · obtain ⟨m, keys, n, ⟨opcodeM, _, _, hm, _⟩, hsols⟩ := typeRet_multisig htype
      have hm16 : m.toNat ≤ 16 := hm.toNat_le
      rw [hsols, length_multisigPushes]
      exact Or.inr ⟨by omega, fun _ => by omega⟩
    · generalize hinner : mergedPushes c txTo nIn fuel' (sigs1.getLastD []) sigs1.dropLast
        sigs2.dropLast = inner at hl ⊢
      rw [List.length_append, List.length_singleton, pushAll_append, pushAll_cons, pushAll_nil,
        List.append_nil, List.length_append]
      have hpos1 := List.length_pos_of_mem (mem_of_getLastD_ne_nil hlast1)
      have hpos2 := List.length_pos_of_mem (mem_of_getLastD_ne_nil hlast2)
      rcases ih fuel' (Nat.lt_succ_self _) hinner with hle | ⟨hbytes, hle⟩
      · rw [List.length_dropLast, List.length_dropLast] at hle
        exact Or.inl (by omega)
      · refine Or.inr ⟨?_, fun hne => absurd htype hne⟩
        by_cases htype' : (solverOut (sigs1.getLastD [])).typeRet = .scriptHash
        · have hpush := length_pushBytes_scriptHash (typeRet_scriptHash htype')
          omega
        · have hshort := hle htype'
          omega

end Keeps

section Merge

variable {input : ScriptInput} {scriptPubKey scriptSig scriptSig1 scriptSig2 : Script}

theorem combineSignatures_eq_pushAll (c : Crypto) (scriptPubKey : Script) (txTo : Transaction)
    (nIn : UInt32) (scriptSig1 scriptSig2 : Script) :
    combineSignatures c scriptPubKey txTo nIn scriptSig1 scriptSig2 =
      pushAll (mergedPushes c txTo nIn (scriptPushes c scriptSig1).length scriptPubKey
        (scriptPushes c scriptSig1) (scriptPushes c scriptSig2)) :=
  combineStacks_eq_pushAll ..

theorem scriptPushes_of_verifyScript (hpush : scriptSig.isPushOnly = true)
    (h : verifyScript input scriptSig scriptPubKey = .ok true) :
    (scriptPushes input.crypto scriptSig).length ≤ 1000 ∧
      Unlocks input scriptPubKey (scriptPushes input.crypto scriptSig) ∧
      (scriptPubKey.isPayToScriptHash = true →
        Unlocks input ((scriptPushes input.crypto scriptSig).getLastD [])
          (scriptPushes input.crypto scriptSig).dropLast) := by
  cases heval : evalScript input [] scriptSig with
  | none =>
    rw [verifyScript, heval] at h
    cases h
  | some stack =>
    have hstack := reverse_scriptPushes hpush heval
    have hlen : stack.length ≤ 1000 :=
      ((safe_evalThrowing input (Nat.zero_le _) (List.forall_mem_nil _) scriptSig).of_eq_ok
        (evalScript_eq_some heval)).1
    rw [← hstack, List.length_reverse] at hlen
    rw [← hstack] at heval
    exact ⟨hlen, (verifyScript_eq_true_iff hpush heval).mp h⟩

/-- A merge keeps a complete script that its rules tell, if it is no longer than a script may be. -/
theorem verifyScript_combineSignatures (hone : scriptSig = scriptSig1 ∨ scriptSig = scriptSig2)
    (hpush1 : scriptSig1.isPushOnly = true) (hpush2 : scriptSig2.isPushOnly = true)
    (hsize : (combineSignatures input.crypto scriptPubKey input.txTo input.nIn scriptSig1
      scriptSig2).length ≤ 10000)
    (hkept : Kept input scriptPubKey (scriptPushes input.crypto scriptSig1)
      (scriptPushes input.crypto scriptSig2) (scriptPushes input.crypto scriptSig))
    (h : verifyScript input scriptSig scriptPubKey = .ok true) :
    verifyScript input (combineSignatures input.crypto scriptPubKey input.txTo input.nIn scriptSig1
      scriptSig2) scriptPubKey = .ok true := by
  have hpush : scriptSig.isPushOnly = true := by
    rcases hone with rfl | rfl
    · exact hpush1
    · exact hpush2
  obtain ⟨hlen, hsat, hredeem⟩ := scriptPushes_of_verifyScript hpush h
  have hone' : scriptPushes input.crypto scriptSig = scriptPushes input.crypto scriptSig1 ∨
      scriptPushes input.crypto scriptSig = scriptPushes input.crypto scriptSig2 :=
    hone.imp (congrArg _) (congrArg _)
  have hfits1 := fits_scriptPushes input.crypto hpush1
  have hfits2 := fits_scriptPushes input.crypto hpush2
  rw [combineSignatures_eq_pushAll] at hsize ⊢
  generalize scriptPushes input.crypto scriptSig1 = sigs1 at hkept hone' hfits1 hsize ⊢
  generalize scriptPushes input.crypto scriptSig2 = sigs2 at hkept hone' hfits2 hsize ⊢
  generalize scriptPushes input.crypto scriptSig = sigs at hkept hone' hlen hsat hredeem
  obtain ⟨hkept, hhashed⟩ := hkept
  have hfits : ∀ b ∈ mergedPushes input.crypto input.txTo input.nIn sigs1.length scriptPubKey sigs1
      sigs2, Fits b := by
    intro b hb
    rcases mem_mergedPushes b hb with rfl | hmem
    · exact Nat.zero_le _
    · exact (List.mem_append.mp hmem).elim (hfits1 b) (hfits2 b)
  by_cases hhash : scriptPubKey.isPayToScriptHash = true
  · obtain ⟨hcount1, hcount2, hinner⟩ := hhashed hhash
    have hcount : (mergedPushes input.crypto input.txTo input.nIn sigs1.length scriptPubKey sigs1
        sigs2).length < 1000 := by
      rcases length_mergedPushes rfl with hle | ⟨hbytes, _⟩
      · exact Nat.lt_of_le_of_lt hle (max_lt hcount1 hcount2)
      · omega
    have htop := mergedPushes_unlock (Nat.le_refl _) hone' hkept (fun _ => hcount) hsat
    refine (verifyScript_pushAll hfits hsize (Nat.le_of_lt hcount)).mpr ⟨htop, fun _ => ?_⟩
    rcases hkept.scriptHash_cases hhash hone' (Nat.le_refl _) with
      hsame | ⟨hlast1, hlast2, fuel, hfuel, hmerged⟩
    · rw [hsame]
      exact hredeem hhash
    · rw [hmerged, List.length_append, List.length_singleton] at hcount
      rw [hmerged, List.getLastD_concat, List.dropLast_concat]
      have hfuel' : sigs1.dropLast.length ≤ fuel := by
        rw [List.length_dropLast]
        omega
      exact mergedPushes_unlock hfuel' (hone'.imp (congrArg _) (congrArg _))
        (hinner hlast1 hlast2) (fun _ => by omega) (hredeem hhash)
  · have hcount : (mergedPushes input.crypto input.txTo input.nIn sigs1.length scriptPubKey sigs1
        sigs2).length ≤ 1000 := by
      rcases hkept.eq_or_length_le (Bool.not_eq_true _ ▸ hhash) sigs1.length with hsame | hle
      · rwa [hsame]
      · omega
    have htop := mergedPushes_unlock (Nat.le_refl _) hone' hkept (fun h => absurd h hhash) hsat
    exact (verifyScript_pushAll hfits hsize hcount).mpr ⟨htop, fun h => absurd h hhash⟩

end Merge

namespace Sample

/-- A signature and the keys that it is good for: two encodings of one key, told by a byte. -/
def sigOf (b : UInt8) : List UInt8 := [0x30, 6, 2, 1, b, 2, 1, 1, 1]

def keyOf (header b : UInt8) : List UInt8 := header :: .replicate 32 b

def mergeInput : ScriptInput where
  crypto := ⟨fun _ => .replicate 20 0, fun vch => .replicate 32 (vch.headD 0),
    fun vch => .replicate 20 (vch.headD 0),
    fun vchPubKey _ vchSig => vchPubKey.getLastD 0 = vchSig.getD 4 0⟩
  txTo := spend 1 [⟨5, 0⟩] [out 7]
  nIn := 0
  nHashType := 0

def merge (scriptPubKey scriptSig1 scriptSig2 : Script) : Script :=
  combineSignatures mergeInput.crypto scriptPubKey mergeInput.txTo mergeInput.nIn scriptSig1
    scriptSig2

def oneOfTwo : Script := [0x51] ++ pushAll [keyOf 2 1, keyOf 2 2] ++ [0x52, 0xae]

/-- Two signatures, of one key in both of its encodings. -/
def bothOfOne : Script := [0x52] ++ pushAll [keyOf 2 1, keyOf 3 1] ++ [0x52, 0xae]

/-- The same as `sigOf 2`, not encoded as a signature. -/
def laxSig : List UInt8 := [0, 0, 0, 0, 2, 1]

def payToKey : Script := pushAll [keyOf 2 1] ++ [0xac]

/-- The hash of a script that starts with `OP_1`. -/
def payToScript : Script := [0xa9, 0x14] ++ .replicate 20 0x51 ++ [0x87]

def longSig (n : ℕ) : List UInt8 :=
  [0x30, .ofNat (n + 6), 2, .ofNat (n + 1), 1] ++ .replicate n 0 ++ [2, 1, 1, 1]

/-- One signature, and the second key has the form of one. -/
def keyedScript : Script := [0x51] ++ pushAll [keyOf 2 1, longSig 24] ++ [0x52, 0xae]

/-- The hash tells how long the script is that was signed. -/
def keyedInput : ScriptInput :=
  { mergeInput with
    crypto := ⟨fun _ => .replicate 20 0,
      fun vch => .replicate 32 (if vch.length = 32 then vch.headD 0 else .ofNat vch.length),
      fun vch => .replicate 20 (vch.headD 0),
      fun vchPubKey sighash vchSig =>
        vchPubKey.getLastD 0 = vchSig.getD 4 0 ∧ sighash.toNat % 256 = 140⟩ }

theorem combineSignatures_multisig {c : Crypto} {scriptPubKey scriptSig1 scriptSig2 merged : Script}
    {txTo : Transaction} {nIn : UInt32} {vSolutions sigs1 sigs2 : List (List UInt8)}
    (hsolver : solverOut scriptPubKey = ⟨true, .multisig, vSolutions⟩)
    (hpushes1 : scriptPushes c scriptSig1 = sigs1) (hpushes2 : scriptPushes c scriptSig2 = sigs2)
    (hmerged : combineMultisig c scriptPubKey txTo nIn vSolutions sigs1 sigs2 = merged) :
    combineSignatures c scriptPubKey txTo nIn scriptSig1 scriptSig2 = merged := by
  unfold combineSignatures
  simp only [hsolver, hpushes1, hpushes2]
  rw [combineStacks, hmerged]

theorem merge_oneOfTwo : merge oneOfTwo (pushAll [[], laxSig]) (pushAll [[], sigOf 2]) =
    pushAll [[], laxSig] := by
  have hall : allSigs ([[], laxSig] ++ [[], sigOf 2]) = [laxSig, sigOf 2] :=
    List.mergeSort_of_pairwise (by decide)
  refine @combineSignatures_multisig _ _ _ _ _ _ _ [[1], keyOf 2 1, keyOf 2 2, [2]] [[], laxSig]
    [[], sigOf 2] (by decide +kernel) (by decide +kernel) (by decide +kernel) ?_
  rw [combineMultisig, hall]
  decide +kernel

theorem combineSignatures_keyedScript : combineSignatures keyedInput.crypto keyedScript
    keyedInput.txTo 0 (pushAll [[], longSig 24]) (pushAll [[], longSig 25]) =
      pushAll [[], longSig 24] := by
  have hall : allSigs ([[], longSig 24] ++ [[], longSig 25]) = [longSig 24, longSig 25] :=
    List.mergeSort_of_pairwise (by decide)
  refine @combineSignatures_multisig _ _ _ _ _ _ _ [[1], keyOf 2 1, longSig 24, [2]] [[], longSig 24]
    [[], longSig 25] (by decide +kernel) (by decide +kernel) (by decide +kernel) ?_
  rw [combineMultisig, hall]
  decide +kernel

end Sample

open Sample in
/-- The other of the two: a longer one for a script of no type, a push before the signature,
another script than the hashed one. Among signatures: one of two keys, one that is not encoded as the
interpreter asks, and one that is a key of the script, where the interpreter deletes it. -/
theorem combineSignatures_destroys :
    (Script.isPushOnly [0x51] = true ∧ Script.isPushOnly [0x00, 0x00] = true ∧
      verifyScript mergeInput [0x51] [0x61] = .ok true ∧
      verifyScript mergeInput (merge [0x61] [0x51] [0x00, 0x00]) [0x61] = .ok false) ∧
    (verifyScript mergeInput (pushAll [sigOf 1]) payToKey = .ok true ∧
      verifyScript mergeInput (merge payToKey [0x51] (pushAll [sigOf 1])) payToKey = .ok false) ∧
    (verifyScript mergeInput (pushAll [[0x51]]) payToScript = .ok true ∧
      verifyScript mergeInput (merge payToScript (pushAll [[0x52]]) (pushAll [[0x51]]))
        payToScript = .ok false) ∧
    (verifyScript mergeInput (pushAll [[], sigOf 1, sigOf 1]) bothOfOne = .ok true ∧
      verifyScript mergeInput (merge bothOfOne (pushAll [[], sigOf 1, sigOf 1]) [])
        bothOfOne = .ok false) ∧
    (verifyScript mergeInput (pushAll [[], sigOf 2]) oneOfTwo = .ok true ∧
      verifyScript mergeInput (merge oneOfTwo (pushAll [[], laxSig]) (pushAll [[], sigOf 2]))
        oneOfTwo = .ok false) ∧
    isCanonicalSignature (longSig 24) = true ∧
      verifyScript keyedInput (pushAll [[], longSig 25]) keyedScript = .ok true ∧
      verifyScript keyedInput (combineSignatures keyedInput.crypto keyedScript keyedInput.txTo 0
        (pushAll [[], longSig 24]) (pushAll [[], longSig 25])) keyedScript = .ok false := by
  rw [merge_oneOfTwo, combineSignatures_keyedScript]
  decide +kernel

open Sample in
/-- A placeholder does not push out a signature. -/
theorem verifyScript_combineSignatures_placeholder :
    verifyScript mergeInput (merge oneOfTwo (pushAll [[], []]) (pushAll [[], sigOf 2])) oneOfTwo =
      .ok true := by
  have htype : (solverOut oneOfTwo).typeRet = .multisig := by decide +kernel
  have hrule : KeptBy mergeInput oneOfTwo (scriptPushes mergeInput.crypto (pushAll [[], []]))
      (scriptPushes mergeInput.crypto (pushAll [[], sigOf 2]))
      (scriptPushes mergeInput.crypto (pushAll [[], sigOf 2])) := by
    unfold KeptBy
    rw [htype]
    exact ⟨by decide +kernel, by decide +kernel⟩
  exact verifyScript_combineSignatures (Or.inr rfl) (by decide +kernel) (by decide +kernel)
    (by decide +kernel) ⟨hrule, fun hhash => absurd hhash (by decide +kernel)⟩ (by decide +kernel)

end Beancash
