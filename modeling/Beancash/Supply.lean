import Beancash.ChainRun

namespace Beancash

open Fallible Ledger

/-- The most that a block may mint, in the kind of block it is. -/
def subsidy (b : Block) : ℤ := if b.isProofOfStake then 1000 * 10 ^ 8 else 100000 * 10 ^ 8

/-- What the transactions of a block pay out more than they spend, when it is connected to `ix`. -/
def blockMint (P : Params) (value : Valuation) (ix : Index Uint256 TxPos) (pindex : BlockIndex)
    (b : Block) : ℤ :=
  blockSum P value mintOf ix (blockTxs pindex b)

/-- No beansprout of a proof-of-work block pays out more than it spends. -/
def SproutsPayNoMore (P : Params) (value : Valuation) (ix : Index Uint256 TxPos)
    (pindex : BlockIndex) (b : Block) : Prop :=
  b.isProofOfWork = true → ∀ t ∈ blockSpends P value ix (blockTxs pindex b),
    t.1.isBeanStake = true → t.1.valueOut ≤ t.2

instance (P : Params) (value : Valuation) (ix : Index Uint256 TxPos) (pindex : BlockIndex)
    (b : Block) : Decidable (SproutsPayNoMore P value ix pindex b) :=
  inferInstanceAs (Decidable (_ → _))

/-- What the beanbase leaves of the subsidy and the fees is less than what any beansprout gains,
and no beansprout pays out less than it spends. -/
structure NothingMakesUp (P : Params) (value : Valuation) (ix : Index Uint256 TxPos)
    (pindex : BlockIndex) (b : Block) : Prop where
  beanbase : ∀ t ∈ blockSpends P value ix (blockTxs pindex b),
    t.1.isBeanStake = true → t.2 < t.1.valueOut →
      100000 * 10 ^ 8 + blockSum P value feeOf ix (blockTxs pindex b) -
        blockSum P value beanbaseMint ix (blockTxs pindex b) < t.1.valueOut - t.2
  beansprouts : ∀ t ∈ blockSpends P value ix (blockTxs pindex b),
    t.1.isBeanStake = true → t.2 ≤ t.1.valueOut

section Sprouts

variable {P : Params} {value : Valuation} {ix : Index Uint256 TxPos} {pindex : BlockIndex}
  {b : Block}

theorem SproutsPayNoMore.sproutMint_nonpos (h : SproutsPayNoMore P value ix pindex b)
    (hwork : b.isProofOfWork = true) : blockSum P value sproutMint ix (blockTxs pindex b) ≤ 0 := by
  rw [blockSum_eq_sum]
  refine (List.sum_le_card_nsmul _ 0 fun x hx => ?_).trans (nsmul_zero _).le
  obtain ⟨t, ht, rfl⟩ := List.mem_map.mp hx
  unfold sproutMint
  split
  · rename_i hstake
    have hle := h hwork t ht hstake
    omega
  · exact le_rfl

theorem NothingMakesUp.gain_le (h : NothingMakesUp P value ix pindex b) {t : Transaction × ℤ}
    (ht : t ∈ blockSpends P value ix (blockTxs pindex b)) (hstake : t.1.isBeanStake = true) :
    t.1.valueOut - t.2 ≤ blockSum P value sproutMint ix (blockTxs pindex b) := by
  have hnonneg : ∀ x ∈ (blockSpends P value ix (blockTxs pindex b)).map
      (fun t => sproutMint t.1 t.2), 0 ≤ x := by
    intro x hx
    obtain ⟨t', ht', rfl⟩ := List.mem_map.mp hx
    unfold sproutMint
    split
    · rename_i hstake'
      have hle := h.beansprouts t' ht' hstake'
      omega
    · exact le_rfl
  have hle := List.single_le_sum hnonneg (sproutMint t.1 t.2)
    (List.mem_map.mpr ⟨t, ht, rfl⟩)
  rwa [← blockSum_eq_sum, sproutMint, if_pos hstake] at hle

variable {v : InputView} {s : ConnectState}

theorem BlockConnected.blockMint_le (h : BlockConnected P v value pindex b s)
    (hsprouts : SproutsPayNoMore P value v.readTxIndex pindex b) :
    blockMint P value v.readTxIndex pindex b ≤ subsidy b := by
  unfold blockMint subsidy
  cases hkind : b.isProofOfStake with
  | true => exact h.stakeReward hkind
  | false =>
    have hwork : b.isProofOfWork = true := by rw [Block.isProofOfWork, hkind, Bool.not_false]
    have hbeanbase := h.workReward hwork
    have hgain := hsprouts.sproutMint_nonpos hwork
    rw [if_neg Bool.false_ne_true, blockSum_mintOf]
    omega

theorem NothingMakesUp.blockMint_le_iff (h : BlockConnected P v value pindex b s)
    (hup : NothingMakesUp P value v.readTxIndex pindex b) (hwork : b.isProofOfWork = true) :
    blockMint P value v.readTxIndex pindex b ≤ subsidy b ↔
      SproutsPayNoMore P value v.readTxIndex pindex b := by
  refine ⟨fun hle _ t ht hstake => ?_, h.blockMint_le⟩
  have hkind : b.isProofOfStake = false := by
    rwa [Block.isProofOfWork, Bool.not_eq_true'] at hwork
  unfold blockMint subsidy at hle
  rw [hkind, if_neg Bool.false_ne_true, blockSum_mintOf] at hle
  by_contra hgain
  have hleft := hup.beanbase t ht hstake (by omega)
  have hsum := hup.gain_le ht hstake
  omega

end Sprouts

section Chain

variable {P : Params} {files : Files} {tree : BlockTree P files}

/-- What the blocks of a branch mint, but for the genesis block. -/
def chainMint (P : Params) (files : Files) : BlockPtr → ℤ
  | e :: d :: p => chainMint P files (d :: p) + (files.blockOf e).elim 0 fun b =>
      blockMint P files.value (chainIndex P files (d :: p)) e b
  | _ => 0

theorem chainMint_cons {e d : BlockIndex} {p : BlockPtr} {b : Block}
    (hb : files.blockOf e = some b) : chainMint P files (e :: d :: p) =
      chainMint P files (d :: p) + blockMint P files.value (chainIndex P files (d :: p)) e b := by
  rw [chainMint, hb, Option.elim_some]

theorem sum_value_eq_valueOut {pos : TxPos} {tx : Transaction} (h : files.txAt pos = some tx)
    (hash : Uint256) :
    ∑ n ∈ Finset.range tx.vout.length, files.value hash (some pos) n = tx.valueOut := by
  have hlist : ∀ l : List TxOut, ∑ n ∈ Finset.range l.length,
      (l[n]?).elim 0 (fun o => o.nValue.toInt) = (l.map fun o => o.nValue.toInt).sum := by
    intro l
    induction l with
    | nil => rfl
    | cons o l ih =>
      rw [List.length_cons, Finset.sum_range_succ', List.map_cons, List.sum_cons, ← ih, add_comm]
      rfl
  unfold Files.value Transaction.valueOut
  simp only [Option.bind_some, h]
  exact hlist tx.vout

theorem sum_blockLedger_eq_paidOut {e : BlockIndex} {b : Block} (hb : files.blockOf e = some b)
    (ix : Index Uint256 TxPos) : ((blockLedger P e b).map fun tx =>
      ∑ n ∈ Finset.range tx.nOut, files.value tx.id (some tx.pos) n).sum =
        blockSum P files.value paidOut ix (blockTxs e b) := by
  rw [blockSum_paidOut, blockLedger, toLedger, List.map_map]
  congr 1
  refine List.map_congr_left fun tx htx => ?_
  exact sum_value_eq_valueOut (Files.txAt_of_mem hb htx).1 _

/-- The unspent outputs of a connected branch are worth what the branch has minted. -/
theorem total_chainIndex {S : Finset Uint256} {p : BlockPtr} (h : ChainConnectable P files p)
    (hS : ∀ tx ∈ chainLedger P files p, tx.id ∈ S ∧ ∀ o ∈ tx.ins, o.1 ∈ S) :
    total files.value S (chainIndex P files p) = chainMint P files p := by
  have hempty : total files.value S (fun _ => none) = 0 := by simp [total]
  induction p with
  | nil => exact hempty
  | cons e p ih =>
    cases p with
    | nil => exact hempty
    | cons d p =>
      cases hb : files.blockOf e with
      | none =>
        have hledger : chainLedger P files (e :: d :: p) = chainLedger P files (d :: p) := by
          unfold chainLedger
          rw [chainTxs, hb, Option.elim_none, List.append_nil]
        unfold ChainConnectable at h ih
        unfold chainIndex at ih ⊢
        rw [hledger] at h hS ⊢
        rw [chainMint, hb, ih h hS, Option.elim_none, add_zero]
      | some b =>
        obtain ⟨hp, hc⟩ := (chainConnectable_cons hb).mp h
        rw [chainLedger_cons hb, List.forall_mem_append] at hS
        rw [chainIndex_cons hb, total_connectAll hc (fun tx htx => (hS.2 tx htx).1)
          (fun tx htx => (hS.2 tx htx).2), ih hp hS.1, chainMint_cons hb,
          sum_blockLedger_eq_paidOut hb (chainIndex P files (d :: p)), blockLedger,
          ← blockSum_spentIn, add_sub_assoc, ← blockSum_sub]
        rfl

theorem value_nonneg {p : BlockPtr} (hp : p ∈ tree.entries) (h : ChainConnectable P files p)
    {hash : Uint256} {r : TxIndex} (hr : chainIndex P files p hash = some r) (n : ℕ) :
    0 ≤ files.value hash r.pos n := by
  obtain ⟨ltx, hltx, rfl⟩ := (h.describes.known hash).mp (by rw [hr]; exact Option.some_ne_none r)
  obtain ⟨r', hr', hpos, _⟩ := h.describes.record ltx hltx
  obtain rfl : r = r' := Option.some_injective _ (hr.symm.trans hr')
  obtain ⟨tx, htx, rfl⟩ := List.mem_map.mp hltx
  obtain ⟨e, d, q, b, hq, hb, hmem⟩ := mem_chainTxs htx
  have htxb : tx.2 ∈ b.vtx := by
    rw [← blockTxs_map_snd e b]
    exact List.mem_map_of_mem hmem
  have hcheck := (tree.checkedBlock (tree.mem_of_suffix hp hq (by simp)) hb).transactions tx.2 htxb
  simp only [Transaction.checkTransaction, Bool.and_eq_true] at hcheck
  rw [hpos]
  simp only [Files.value, Option.bind_some, (Files.txAt_of_mem hb hmem).1, ledgerTx]
  cases ho : tx.2.vout[n]? with
  | none => exact le_rfl
  | some o => exact nonneg_of_checkTxOuts hcheck.1.1.2 o (List.mem_of_getElem? ho)

theorem chainMint_nonneg {p : BlockPtr} (hp : p ∈ tree.entries) (h : ChainConnectable P files p) :
    0 ≤ chainMint P files p := by
  have hS : ∀ tx ∈ chainLedger P files p,
      tx.id ∈ ((chainLedger P files p).flatMap fun tx => tx.id :: tx.ins.map Prod.fst).toFinset ∧
      ∀ o ∈ tx.ins, o.1 ∈
        ((chainLedger P files p).flatMap fun tx => tx.id :: tx.ins.map Prod.fst).toFinset := by
    intro tx htx
    simp only [List.mem_toFinset, List.mem_flatMap]
    exact ⟨⟨tx, htx, List.mem_cons_self⟩, fun o ho =>
      ⟨tx, htx, List.mem_cons_of_mem _ (List.mem_map_of_mem ho)⟩⟩
  rw [← total_chainIndex h hS]
  exact total_nonneg fun hash r n hr => value_nonneg hp h hr n

/-- `value` off the disk, and what `v` says about the memory pool. -/
def InputView.valueOr (v : InputView) (value : Valuation) : Valuation := fun hash pos n =>
  if pos = some TxPos.memory then v.value hash pos n else value hash pos n

theorem values_valueOr {io : BlockIo} (hio : io.ReadsTxs files) (n : Node) :
    (n.inputView io).Values ((n.inputView io).valueOr files.value) := by
  intro hash pos tx k htx
  unfold InputView.valueOr
  split
  · exact InputView.values_value _ hash pos tx k htx
  · rename_i hne
    rw [InputView.source, if_neg hne] at htx
    obtain ⟨pos, rfl, hread⟩ := Option.bind_eq_some_iff.mp htx
    simp only [Files.value, Option.bind_some, hio hread]

theorem OnBranch.blockMint {io : BlockIo} (hio : io.ReadsTxs files) {e d : BlockIndex}
    {p : BlockPtr} {b : Block} {n : Node} {s : ConnectState} (hb : files.blockOf e = some b)
    (hn : OnBranch P files (d :: p) n)
    (hs : connectBlockChecks P (n.inputView io) io b e (d :: p) false = some s) :
    s.nValueOut - s.nValueIn =
      Int64.ofInt (blockMint P files.value (chainIndex P files (d :: p)) e b) ∧
    (SproutsPayNoMore P files.value (chainIndex P files (d :: p)) e b →
      Beancash.blockMint P files.value (chainIndex P files (d :: p)) e b ≤ subsidy b) := by
  have hc := connectBlockChecks_eq_some (values_valueOr hio n) hs
  have hspends : blockSpends P ((n.inputView io).valueOr files.value)
      (n.inputView io).readTxIndex (blockTxs e b) =
        blockSpends P files.value (chainIndex P files (d :: p)) (blockTxs e b) := by
    rw [show (n.inputView io).readTxIndex = chainIndex P files (d :: p) from hn.index]
    exact blockSpends_congr (fun _ _ _ hne => if_neg hne) hn.connectable.avoids fun tx htx =>
      (Files.txAt_of_mem hb htx).2
  have hle := hc.blockMint_le
  have hminted := hc.minted
  unfold Beancash.blockMint SproutsPayNoMore at hle ⊢
  simp only [blockSum_eq_sum, hspends] at hle hminted ⊢
  exact ⟨hminted, hle⟩

theorem nMoneySupply_writeBlockIndex (n : Node) (pindex : BlockPtr) (hashNext : Uint256) :
    (n.writeBlockIndex pindex hashNext).nMoneySupply = n.nMoneySupply := by
  cases pindex <;> rfl

theorem nMoneySupply_writeQueuedChanges (n : Node) (queue : QueuedChanges) :
    (n.writeQueuedChanges queue).nMoneySupply = n.nMoneySupply := by
  unfold Node.writeQueuedChanges
  generalize queue.entries = changes
  induction changes generalizing n with
  | nil => rfl
  | cons change changes ih => exact ih _

theorem nMoneySupply_connected (io : BlockIo) (b : Block) (e d : BlockIndex) (p : BlockPtr)
    (s : ConnectState) (n : Node) : (n.connected P io b e (d :: p) s).nMoneySupply =
      Function.update n.nMoneySupply e.phashBlock
        (n.nMoneySupply d.phashBlock + s.nValueOut - s.nValueIn) := by
  simp only [Node.connected, Node.syncWithWallets, nMoneySupply_writeBlockIndex,
    nMoneySupply_writeQueuedChanges]
  rfl

theorem nMoneySupply_disconnectBlock {io : BlockIo} {b : Block} {pindex : BlockPtr} {n n' : Node}
    {u : Unit} (h : (disconnectBlock P io b pindex).run n = (some u, n')) :
    n'.nMoneySupply = n.nMoneySupply := by
  have hkeeps : Step.Keeps (Step.Same Node.nMoneySupply) (disconnectBlock P io b pindex) := by
    unfold disconnectBlock
    refine (Step.Keeps.forEach fun tx _ => ?_).bind fun _ =>
      (Step.keeps_modify fun n => nMoneySupply_writeBlockIndex n _ _).bind fun _ =>
        Step.keeps_modify fun _ => rfl
    unfold disconnectInputs
    refine (Step.Keeps.forEach fun prevout _ => ?_).bind fun _ => Step.keeps_modify fun _ => rfl
    unfold disconnectInput
    exact (Step.keeps_read _).bind fun _ => (Step.keeps_ofOption _).bind fun _ =>
      (Step.keeps_guard _).bind fun _ => Step.keeps_modify fun _ => rfl
  exact hkeeps.returnKeeps _ _ _ h

/-- Each block of the branch has on record what the chain up to it has minted, and has minted
more than its subsidy only through its beansprouts. -/
structure SupplyTracked (P : Params) (files : Files) (p : BlockPtr) (n : Node) : Prop where
  onBranch : OnBranch P files p n
  supply : ∀ q, q <:+ p → q ≠ [] →
    n.nMoneySupply (BlockPtr.hash q) = Int64.ofInt (chainMint P files q)
  minted : ∀ {e d q b}, e :: d :: q <:+ p → files.blockOf e = some b →
    SproutsPayNoMore P files.value (chainIndex P files (d :: q)) e b →
      blockMint P files.value (chainIndex P files (d :: q)) e b ≤ subsidy b

theorem supplyTracked_invariant (hnew : tree.BringsNewTxids) :
    BranchInvariant tree (SupplyTracked P files) where
  connect {io e d p b n n'} hio he hb hn h := by
    have hon := (onBranch_invariant hnew).connect hio he hb hn.onBranch h
    obtain ⟨s, hs, rfl, _⟩ := connectBlock_eq_some h
    obtain ⟨hminted, hle⟩ := hn.onBranch.blockMint hio hb hs
    refine ⟨hon, fun q hq hne => ?_, fun {e' d' q b'} hq hb' => ?_⟩
    · rw [nMoneySupply_connected]
      rcases List.suffix_cons_iff.mp hq with rfl | hq
      · have hprev := hn.supply (d :: p) List.suffix_rfl (by simp)
        rw [BlockPtr.hash_cons] at hprev
        rw [BlockPtr.hash_cons, Function.update_self, hprev, chainMint_cons hb, Int64.ofInt_add,
          ← hminted, Int64.sub_eq_add_neg, Int64.sub_eq_add_neg, Int64.add_assoc]
      · rw [Function.update_of_ne (BlockTree.hash_ne_of_suffix he hq hne)]
        exact hn.supply q hq hne
    · rcases List.suffix_cons_iff.mp hq with heq | hq
      · cases heq
        obtain rfl := Option.some_injective _ (hb.symm.trans hb')
        exact hle
      · exact hn.minted hq hb'
  disconnect {io e d p b n n'} he hb hn h := by
    have hon := (onBranch_invariant hnew).disconnect he hb hn.onBranch h
    refine ⟨hon, fun q hq hne => ?_, fun hq => hn.minted (hq.trans (List.suffix_cons e _))⟩
    rw [nMoneySupply_disconnectBlock h]
    exact hn.supply q (hq.trans (List.suffix_cons e _)) hne
  frame hsame hn := ⟨(onBranch_invariant hnew).frame hsame hn.onBranch, fun q hq hne =>
    (hsame.supply q hq).trans (hn.supply q hq hne), hn.minted⟩

theorem ChainRun.supplyTracked (hnew : tree.BringsNewTxids) {p : BlockPtr} {n : Node}
    (h : ChainRun tree p n) : p ∈ tree.entries ∧ SupplyTracked P files p n := by
  refine h.invariant (supplyTracked_invariant hnew) fun {e n} _ hindex hsupply => ?_
  refine ⟨⟨trivial, hindex⟩, fun q hq hne => ?_, fun hq => ?_⟩
  · rcases List.suffix_cons_iff.mp hq with rfl | hq
    · exact hsupply
    · exact absurd (List.suffix_nil.mp hq) hne
  · have hlen := hq.length_le
    simp only [List.length_cons, List.length_nil] at hlen
    omega

theorem toInt_ofInt_eq_iff {x : ℤ} (hx : 0 ≤ x) : (Int64.ofInt x).toInt = x ↔ x < 2 ^ 63 := by
  constructor
  · intro h
    rw [← h]
    exact Int64.toInt_lt _
  · intro h
    exact Int64.toInt_ofInt_of_le (by omega) h

/-- The beansprouts of all proof-of-work blocks of a branch pay out no more than they spend. -/
def ChainPaysNoMore (P : Params) (files : Files) : BlockPtr → Prop
  | e :: d :: p => (∀ b ∈ files.blockOf e,
      SproutsPayNoMore P files.value (chainIndex P files (d :: p)) e b) ∧
        ChainPaysNoMore P files (d :: p)
  | _ => True

theorem ChainPaysNoMore.of_suffix {p : BlockPtr} (h : ChainPaysNoMore P files p) {e d : BlockIndex}
    {q : BlockPtr} (hq : e :: d :: q <:+ p) {b : Block} (hb : files.blockOf e = some b) :
    SproutsPayNoMore P files.value (chainIndex P files (d :: q)) e b := by
  induction p with
  | nil => exact absurd (List.suffix_nil.mp hq) (by simp)
  | cons e' p ih =>
    cases p with
    | nil =>
      have hlen := hq.length_le
      simp only [List.length_cons, List.length_nil] at hlen
      omega
    | cons d' p =>
      rcases List.suffix_cons_iff.mp hq with heq | hq
      · cases heq
        exact h.1 b hb
      · exact ih h.2 hq

/-- A block that `ConnectBlock` connects to whatever index mints at most its subsidy unless it is
a proof-of-work block with a beansprout that pays out more than it spends; such a beansprout does
break the bound where nothing makes up for it. On a chain without them the money supply grows at
each block by at most its subsidy, as long as it fits an `int64_t`. -/
theorem blockMint_le_subsidy (hP : tree.txs.InjOn P.txHash) :
    (∀ {io : BlockIo} {b : Block} {pindex : BlockIndex} {pprev : BlockPtr} {n n' : Node},
      (connectBlock P io b false (pindex :: pprev)).run n = (some (), n') →
      let value := (n.inputView io).value
      let ix := readTxIndex n.txdb
      (SproutsPayNoMore P value ix pindex b → blockMint P value ix pindex b ≤ subsidy b) ∧
        (b.isProofOfWork = true → NothingMakesUp P value ix pindex b →
          (blockMint P value ix pindex b ≤ subsidy b ↔ SproutsPayNoMore P value ix pindex b))) ∧
    ∀ {p : BlockPtr} {n : Node}, ChainRun tree p n → ChainPaysNoMore P files p →
      ∀ {e d : BlockIndex} {q : BlockPtr} {b : Block}, e :: d :: q <:+ p →
        files.blockOf e = some b → chainMint P files (d :: q) < 2 ^ 63 →
        (n.nMoneySupply e.phashBlock).toInt ≤ (n.nMoneySupply d.phashBlock).toInt + subsidy b := by
  refine ⟨fun {io b pindex pprev n n'} h => ?_, fun {p n} h hsprouts {e d q b} hq hb hfits => ?_⟩
  · obtain ⟨s, hs, _⟩ := connectBlock_eq_some h
    have hc := connectBlockChecks_eq_some (InputView.values_value _) hs
    exact ⟨hc.blockMint_le, fun hwork hup => hup.blockMint_le_iff hc hwork⟩
  · obtain ⟨hp, hon, hsupply, hminted⟩ :=
      h.supplyTracked (BlockTree.bringsNewTxids_of_injOn hP)
    have hq' := (List.suffix_cons e (d :: q)).trans hq
    have hle := hminted hq hb (hsprouts.of_suffix hq hb)
    have hd := hsupply (d :: q) hq' (by simp)
    have he := hsupply (e :: d :: q) hq (by simp)
    rw [BlockPtr.hash_cons] at hd he
    rw [hd, he]
    have hnonneg : ∀ q, q <:+ p → q ≠ [] → 0 ≤ chainMint P files q := fun q hq hne =>
      chainMint_nonneg (tree.mem_of_suffix hp hq hne) (hon.connectable.of_suffix hq)
    rw [(toInt_ofInt_eq_iff (hnonneg _ hq' (by simp))).mpr hfits]
    refine (toInt_ofInt_le (hnonneg _ hq (by simp))).trans ?_
    rw [chainMint_cons hb]
    omega

instance decidableChainPaysNoMore (P : Params) (files : Files) :
    (p : BlockPtr) → Decidable (ChainPaysNoMore P files p)
  | [] => isTrue trivial
  | [_] => isTrue trivial
  | _ :: d :: p =>
    have := decidableChainPaysNoMore P files (d :: p)
    inferInstanceAs (Decidable (_ ∧ _))

open Sample in
/-- The chain up to the block before `minting` has no beansprouts; in `minting` each of them gains
more than the fees, which the beanbase leaves. -/
theorem blockMint_le_subsidy_mined :
    let n := longNode 11
    let value := (n.inputView longIo).value
    let ix := readTxIndex n.txdb
    (n.nMoneySupply (entry (longBlock 11)).phashBlock).toInt ≤
        (n.nMoneySupply (entry (longBlock 10)).phashBlock).toInt + subsidy (longBlock 11) ∧
      ¬SproutsPayNoMore params value ix (entry minting) minting ∧
      (blockMint params value ix (entry minting) minting ≤ subsidy minting ↔
        SproutsPayNoMore params value ix (entry minting) minting) := by
  have hP : longTree.txs.InjOn params.txHash := injOn_txs (by decide +kernel)
  obtain ⟨hblock, hchain⟩ := blockMint_le_subsidy hP
  refine ⟨hchain (longRun (by decide)) (by decide +kernel) (List.suffix_refl (longPtr 11)) rfl
    (by decide +kernel), by decide +kernel, ?_⟩
  have hsome : ((connectBlock params longIo minting false (longPtr 12)).run (longNode 11)).1 =
      some () := by decide +kernel
  rcases hrun : (connectBlock params longIo minting false (longPtr 12)).run (longNode 11) with
    ⟨r, n'⟩
  rw [hrun] at hsome
  exact (hblock (hrun.trans (Prod.ext hsome rfl))).2 (by decide +kernel)
    ⟨by decide +kernel, by decide +kernel⟩

open Sample in
/-- The five beansprouts of `minting`, a proof-of-work block, pay out 105 billion beans. -/
theorem blockMint_not_le_subsidy_minting :
    let n := longNode 11
    ((connectBlock params longIo minting false (longPtr 12)).run n).1 = some () ∧
      minting.isProofOfWork = true ∧
      ¬blockMint params (n.inputView longIo).value (readTxIndex n.txdb) (entry minting) minting ≤
        subsidy minting := by
  refine ⟨by decide +kernel, by decide +kernel, by decide +kernel⟩

/-- At every point of a run the money supply of the best block is the worth of the unspent
outputs exactly when what the chain has minted fits an `int64_t`. -/
theorem nMoneySupply_eq_total_iff (hd : tree.DistinctTxids) {p : BlockPtr} {n : Node}
    (h : ChainRun tree p n) {S : Finset Uint256}
    (hS : ∀ hash, readTxIndex n.txdb hash ≠ none → hash ∈ S) :
    (n.nMoneySupply (BlockPtr.hash p)).toInt = total files.value S (readTxIndex n.txdb) ↔
      chainMint P files p < 2 ^ 63 := by
  obtain ⟨hp, hon, hsupply⟩ := h.supplyTracked (BlockTree.bringsNewTxids_of_distinctTxids hd)
  have hdesc := hon.connectable.describes
  rw [hon.index] at hS ⊢
  have hknown : ∀ tx ∈ chainLedger P files p, tx.id ∈ S ∧ ∀ o ∈ tx.ins, o.1 ∈ S := by
    refine fun tx htx => ⟨hS _ ((hdesc.known _).mpr ⟨tx, htx, rfl⟩), fun o ho => hS _ ?_⟩
    obtain ⟨r, hr, _⟩ := hdesc.spender tx htx o ho
    rw [hr]
    exact Option.some_ne_none r
  rw [hsupply p List.suffix_rfl (BlockTree.ne_nil hp), total_chainIndex hon.connectable hknown]
  exact toInt_ofInt_eq_iff (chainMint_nonneg hp hon.connectable)

open Sample in
theorem distinctTxids_long : longTree.DistinctTxids := by
  intro p hp
  have hall : ((List.range 13).map longPtr).all (fun p =>
    decide ((chainLedger params longFiles p).map Tx.id).Nodup) = true := by decide +kernel
  exact of_decide_eq_true (List.all_eq_true.mp hall p hp)

theorem ChainRun.mem_ids (hnew : tree.BringsNewTxids) {p : BlockPtr} {n : Node}
    (h : ChainRun tree p n) {hash : Uint256} (hhash : readTxIndex n.txdb hash ≠ none) :
    hash ∈ ((chainLedger P files p).map Tx.id).toFinset := by
  have hon := h.onBranch hnew
  rw [hon.index] at hhash
  obtain ⟨tx, htx, rfl⟩ := (hon.connectable.describes.known hash).mp hhash
  exact List.mem_toFinset.mpr (List.mem_map_of_mem htx)

open Sample in
theorem nMoneySupply_eq_total_iff_mined :
    ((longNode 11).nMoneySupply (BlockPtr.hash (longPtr 11))).toInt =
      total longFiles.value ((chainLedger params longFiles (longPtr 11)).map Tx.id).toFinset
        (readTxIndex (longNode 11).txdb) := by
  have hnew : longTree.BringsNewTxids :=
    BlockTree.bringsNewTxids_of_distinctTxids distinctTxids_long
  have hrun := longRun (show 11 < 13 by decide)
  exact (nMoneySupply_eq_total_iff distinctTxids_long hrun fun _ => hrun.mem_ids hnew).mpr
    (by decide +kernel)

open Sample in
/-- With the block `minting` the money supply becomes negative. -/
theorem nMoneySupply_ne_total_minting :
    let n := longNode 12
    let S := ((chainLedger params longFiles (longPtr 12)).map Tx.id).toFinset
    longTree.DistinctTxids ∧ ChainRun longTree (longPtr 12) n ∧
      (∀ hash, readTxIndex n.txdb hash ≠ none → hash ∈ S) ∧
      (n.nMoneySupply (BlockPtr.hash (longPtr 12))).toInt < 0 ∧
      (n.nMoneySupply (BlockPtr.hash (longPtr 12))).toInt ≠
        total longFiles.value S (readTxIndex n.txdb) := by
  intro n S
  have hnew : longTree.BringsNewTxids :=
    BlockTree.bringsNewTxids_of_distinctTxids distinctTxids_long
  have hrun : ChainRun longTree (longPtr 12) n := longRun (by decide)
  have hneg : (n.nMoneySupply (BlockPtr.hash (longPtr 12))).toInt < 0 := by decide +kernel
  obtain ⟨hp, hon, _⟩ := hrun.supplyTracked hnew
  have htotal : 0 ≤ total longFiles.value S (readTxIndex n.txdb) := by
    rw [hon.index]
    exact total_nonneg fun _ _ k hr => value_nonneg hp hon.connectable hr k
  exact ⟨distinctTxids_long, hrun, fun _ => hrun.mem_ids hnew, hneg, by omega⟩

end Chain

end Beancash
