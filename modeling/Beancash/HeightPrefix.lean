import Beancash.CheckpointRun
import Beancash.EvalScript

/-!
# The height in the beanbase

`AcceptBlock` looks whether the script of the beanbase starts with the height of the block, pushed
as an `int`; `IncrementExtraNonce` pushes an `unsigned int`. No push of a height starts with that
of another one, so that no two blocks of a chain have the same beanbase
(`acceptedChain_beanbase_ne`).
-/

namespace Beancash

/-- `CScript::push_int64` -/
def Script.pushInt64 (n : Int64) : Script :=
  if n = -1 ∨ 1 ≤ n ∧ n ≤ 16 then [.ofInt (n.toInt + 0x50)]
  else Script.pushBytes (signedVch n.toInt)

/-- `CScript::push_uint64` -/
def Script.pushUint64 (n : UInt64) : Script :=
  if 1 ≤ n ∧ n ≤ 16 then [.ofNat (n.toNat + 0x50)] else Script.pushBytes (getvch n.toNat)

/-- The ways in which a height is pushed: as an `int`, as an `unsigned int`, and as an opcode. -/
inductive HeightPush (nHeight : ℕ) : Script → Prop where
  | int : HeightPush nHeight (Script.pushInt64 (.ofNat nHeight))
  | unsigned : HeightPush nHeight (Script.pushUint64 (.ofNat nHeight))
  | opcode (hpos : 1 ≤ nHeight) (hle : nHeight ≤ 16) :
      HeightPush nHeight [.ofNat (nHeight + 0x50)]

theorem pushBytes_getvch {n : ℕ} (h : n < 2 ^ 31) :
    Script.pushBytes (getvch n) = UInt8.ofNat (getvch n).length :: getvch n := by
  have hlen := length_getvch_le h
  apply if_pos
  exact Nat.lt_of_le_of_lt hlen (by decide)

theorem pushUint64_eq {n : ℕ} (h : n < 2 ^ 31) :
    Script.pushUint64 (.ofNat n) = heightScript n := by
  have hn : (UInt64.ofNat n).toNat = n := by
    rw [UInt64.toNat_ofNat']
    omega
  have hsmall : (1 ≤ UInt64.ofNat n ∧ UInt64.ofNat n ≤ 16) ↔ 1 ≤ n ∧ n ≤ 16 := by
    simp only [UInt64.le_iff_toNat_le, hn]
    exact Iff.rfl
  unfold Script.pushUint64 heightScript
  simp only [hsmall, hn, pushBytes_getvch h]

theorem ofInt_natCast_add (n : ℕ) : UInt8.ofInt ((n : ℤ) + 0x50) = UInt8.ofNat (n + 0x50) := by
  apply UInt8.toNat_inj.mp
  rw [UInt8.ofInt, UInt8.toNat_ofNat', UInt8.toNat_ofNat']
  omega

theorem signedVch_natCast (n : ℕ) : signedVch n = getvch n := by
  rw [signedVch, if_neg (Int.not_lt.mpr (Int.natCast_nonneg n)), Int.natAbs_natCast]

theorem pushInt64_eq {n : ℕ} (h : n < 2 ^ 31) :
    Script.pushInt64 (.ofNat n) = heightScript n := by
  have hn : (Int64.ofNat n).toInt = n := Int64.toInt_ofNat_of_lt (by omega)
  have hsmall : (Int64.ofNat n = -1 ∨ 1 ≤ Int64.ofNat n ∧ Int64.ofNat n ≤ 16) ↔
      1 ≤ n ∧ n ≤ 16 := by
    rw [← Int64.toInt_inj]
    simp only [Int64.le_iff_toInt_le, hn]
    change ((n : ℤ) = -1 ∨ 1 ≤ (n : ℤ) ∧ (n : ℤ) ≤ 16) ↔ _
    omega
  unfold Script.pushInt64 heightScript
  simp only [hsmall, hn, ofInt_natCast_add, signedVch_natCast, pushBytes_getvch h]

theorem HeightPush.eq {n : ℕ} {script : Script} (h : n < 2 ^ 31) (hpush : HeightPush n script) :
    script = heightScript n := by
  cases hpush with
  | int => exact pushInt64_eq h
  | unsigned => exact pushUint64_eq h
  | opcode hpos hle => exact (if_pos ⟨hpos, hle⟩).symm

theorem HeightPush.injective {n m : ℕ} {pushed pushed' script : Script} (hn : n < 2 ^ 31)
    (hm : m < 2 ^ 31) (h : HeightPush n pushed) (h' : HeightPush m pushed')
    (hpushed : pushed <+: script) (hpushed' : pushed' <+: script) : n = m := by
  rw [h.eq hn] at hpushed
  rw [h'.eq hm] at hpushed'
  exact heightScript_injective hn hm hpushed hpushed'

/-- The blocks of a chain in the order of their heights: a first one that starts with its height,
as the genesis block does, and then those that `AcceptBlock` let in, each on the one before. -/
inductive AcceptedChain (P : Params) : List Block → Prop where
  | genesis {b : Block} (h : beanbaseHeightMatches b 0 = true) : AcceptedChain P [b]
  | accept {bs : List Block} {b : Block} {mode : CheckpointsMode} {io : BlockIo} {s : IndexedNode}
      {pindexPrev : BlockPtr} {hashProof : Uint256} (h : AcceptedChain P bs)
      (hprev : s.mapBlockIndex b.header.hashPrevBlock = some pindexPrev)
      (hlen : pindexPrev.length = bs.length)
      (haccept : acceptBlockChecks P mode io s b = some hashProof) : AcceptedChain P (bs ++ [b])

/-- The script with which the beanbase of a block starts. -/
def Block.beanbaseScript (b : Block) : Option Script :=
  (b.vtx.head?.bind fun tx => tx.vin.head?).map TxIn.scriptSig

theorem beanbaseHeightMatches_iff {b : Block} {n : ℕ} :
    beanbaseHeightMatches b n = true ↔ ∃ script, b.beanbaseScript = some script ∧
      heightScript n <+: script := by
  unfold beanbaseHeightMatches Block.beanbaseScript
  cases b.vtx.head?.bind fun tx => tx.vin.head? with
  | none => simp
  | some txin => simp

theorem acceptBlockChecks_beanbase {P : Params} {mode : CheckpointsMode} {io : BlockIo}
    {s : IndexedNode} {b : Block} {hashProof : Uint256} {pindexPrev : BlockPtr}
    (hprev : s.mapBlockIndex b.header.hashPrevBlock = some pindexPrev)
    (h : acceptBlockChecks P mode io s b = some hashProof) :
    beanbaseHeightMatches b (BlockPtr.nHeight pindexPrev + 1) = true := by
  simp only [acceptBlockChecks, Option.bind_eq_bind, Option.bind_eq_some_iff,
    Option.guard_eq_some', Option.pure_def] at h
  obtain ⟨_, _, _, _, pindexPrev', hprev', _, _, _, _, _, _, _, _, _, _, _, _, _, _, _, hbean, _⟩ := h
  rw [hprev] at hprev'
  exact Option.some_injective _ hprev' ▸ hbean

namespace AcceptedChain

variable {P : Params} {bs : List Block}

theorem length_pos (h : AcceptedChain P bs) : 0 < bs.length := by
  cases h <;> simp

theorem beanbase (h : AcceptedChain P bs) {n : ℕ} (hn : n < bs.length) :
    beanbaseHeightMatches bs[n] n = true := by
  induction h with
  | genesis h =>
    obtain rfl : n = 0 := by simpa using hn
    exact h
  | @accept bs b _ _ _ pindexPrev _ h hprev hlen haccept ih =>
    rcases Nat.lt_or_ge n bs.length with hlt | hge
    · rw [List.getElem_append_left hlt]
      exact ih hlt
    · obtain rfl : n = bs.length := by
        rw [List.length_append, List.length_singleton] at hn
        omega
      have hbean := acceptBlockChecks_beanbase hprev haccept
      have hheight : BlockPtr.nHeight pindexPrev + 1 = bs.length := by
        have hpos := h.length_pos
        rw [BlockPtr.nHeight, hlen]
        omega
      rw [hheight] at hbean
      simpa using hbean

end AcceptedChain

/-- The beanbases at two heights of a chain have different scripts and, as far as the hash tells
transactions apart, different ids; and no push of a height starts with that of another one. -/
theorem acceptedChain_beanbase_ne (P : Params) {bs : List Block} (hbs : AcceptedChain P bs)
    (hhash : {tx | ∃ b ∈ bs, tx ∈ b.vtx}.InjOn P.txHash) {n m : ℕ} (hn : n < bs.length)
    (hm : m < bs.length) (hn31 : n < 2 ^ 31) (hm31 : m < 2 ^ 31) (hne : n ≠ m) :
    (∃ script script', bs[n].beanbaseScript = some script ∧ bs[m].beanbaseScript = some script' ∧
      script ≠ script') ∧
    (∃ tx tx', bs[n].vtx.head? = some tx ∧ bs[m].vtx.head? = some tx' ∧
      P.txHash tx ≠ P.txHash tx') ∧
    ∀ pushed pushed', HeightPush n pushed → HeightPush m pushed' → ¬pushed <+: pushed' := by
  obtain ⟨script, hscript, hprefix⟩ := beanbaseHeightMatches_iff.mp (hbs.beanbase hn)
  obtain ⟨script', hscript', hprefix'⟩ := beanbaseHeightMatches_iff.mp (hbs.beanbase hm)
  have hscripts : script ≠ script' := by
    intro heq
    exact hne (heightScript_injective hn31 hm31 hprefix (heq ▸ hprefix'))
  have hbeanbase : ∀ {b : Block} {script : Script}, b.beanbaseScript = some script →
      ∃ tx, b.vtx.head? = some tx ∧ tx.vin.head?.map TxIn.scriptSig = some script := by
    intro b script h
    unfold Block.beanbaseScript at h
    cases hhead : b.vtx.head? with
    | none =>
      rw [hhead] at h
      cases h
    | some tx =>
      rw [hhead] at h
      exact ⟨tx, rfl, h⟩
  refine ⟨⟨script, script', hscript, hscript', hscripts⟩, ?_, ?_⟩
  · obtain ⟨tx, htx, hvin⟩ := hbeanbase hscript
    obtain ⟨tx', htx', hvin'⟩ := hbeanbase hscript'
    have hmem := List.mem_of_mem_head? htx
    have hmem' := List.mem_of_mem_head? htx'
    refine ⟨tx, tx', htx, htx', fun hid => hscripts ?_⟩
    rw [hhash ⟨_, List.getElem_mem hn, hmem⟩ ⟨_, List.getElem_mem hm, hmem'⟩ hid, hvin'] at hvin
    exact (Option.some_injective _ hvin).symm
  · intro pushed pushed' h h' hpushed
    exact hne (h.injective hn31 hm31 h' hpushed List.prefix_rfl)

namespace Sample

theorem acceptedChain_leftBlock : AcceptedChain mainParams [genesis, leftBlock 1] := by
  obtain ⟨hashProof, haccept⟩ : ∃ hashProof, acceptBlockChecks mainParams .strict
      (syncIo.block 0) syncStart (leftBlock 1) = some hashProof :=
    Option.isSome_iff_exists.mp (by decide)
  exact .accept (.genesis (by decide)) (by rfl) (by rfl) haccept

end Sample

open Sample in
theorem acceptedChain_beanbase_ne_leftBlock : ∃ tx tx', genesis.vtx.head? = some tx ∧
    (leftBlock 1).vtx.head? = some tx' ∧ mainParams.txHash tx ≠ mainParams.txHash tx' := by
  refine (acceptedChain_beanbase_ne mainParams acceptedChain_leftBlock ?_ (n := 0) (m := 1)
    (by decide) (by decide) (by decide) (by decide) (by decide)).2.1
  have hall : ([genesis, leftBlock 1].flatMap Block.vtx).all (fun tx =>
      ([genesis, leftBlock 1].flatMap Block.vtx).all fun tx' =>
        decide (mainParams.txHash tx = mainParams.txHash tx' → tx = tx')) = true := by
    decide
  rintro tx ⟨b, hb, htx⟩ tx' ⟨b', hb', htx'⟩
  have hmem := List.mem_flatMap.mpr ⟨b, hb, htx⟩
  have hmem' := List.mem_flatMap.mpr ⟨b', hb', htx'⟩
  exact of_decide_eq_true (List.all_eq_true.mp (List.all_eq_true.mp hall tx hmem) tx' hmem')

end Beancash
