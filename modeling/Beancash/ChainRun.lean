import Beancash.BranchSwitch

namespace Beancash

open Fallible Ledger

variable {P : Params} {files : Files} {tree : BlockTree P files}

/-- `ChainRun tree p n`: a run has led to the node `n`, in which the branch `p` is connected. -/
inductive ChainRun (tree : BlockTree P files) : BlockPtr → Node → Prop
  | start {e n} : [e] ∈ tree.entries → (readTxIndex n.txdb = fun _ => none) →
      n.nMoneySupply e.phashBlock = 0 → ChainRun tree [e] n
  | connect {io : BlockIo} {e d p b n n'} : ChainRun tree (d :: p) n → io.ReadsTxs files →
      e :: d :: p ∈ tree.entries → files.blockOf e = some b →
      (connectBlock P io b false (e :: d :: p)).run n = (some (), n') →
      ChainRun tree (e :: d :: p) n'
  | disconnect {io : BlockIo} {e d p b n n'} : ChainRun tree (e :: d :: p) n →
      files.blockOf e = some b →
      (disconnectBlock P io b (e :: d :: p)).run n = (some (), n') → ChainRun tree (d :: p) n'
  | reorganize {io : Io} {q n n'} : ChainRun tree n.pindexBest n → io.ReadsFrom tree →
      q ∈ tree.entries → (reorganize P io q).run n = (some (), n') → ChainRun tree q n'
  /-- anything else that leaves the index and the money supply of the branch alone -/
  | other {p n n'} : ChainRun tree p n → SameLedger p n n' → ChainRun tree p n'

theorem ChainRun.invariant {I : BlockPtr → Node → Prop} (hI : BranchInvariant tree I)
    (hstart : ∀ {e n}, [e] ∈ tree.entries → (readTxIndex n.txdb = fun _ => none) →
      n.nMoneySupply e.phashBlock = 0 → I [e] n)
    {p : BlockPtr} {n : Node} (h : ChainRun tree p n) : p ∈ tree.entries ∧ I p n := by
  induction h with
  | start he hindex hsupply => exact ⟨he, hstart he hindex hsupply⟩
  | connect _ hio he hb hrun ih => exact ⟨he, hI.connect hio he hb ih.2 hrun⟩
  | disconnect _ hb hrun ih => exact ⟨tree.parent ih.1, hI.disconnect ih.1 hb ih.2 hrun⟩
  | reorganize _ hio hq hrun ih => exact ⟨hq, (hI.reorganize hio ih.1 hq ih.2 hrun).1⟩
  | other _ hsame ih => exact ⟨ih.1, hI.frame hsame ih.2⟩

theorem ChainRun.onBranch (hnew : tree.BringsNewTxids) {p : BlockPtr} {n : Node}
    (h : ChainRun tree p n) : OnBranch P files p n :=
  (h.invariant (onBranch_invariant hnew) fun _ hindex _ => ⟨trivial, hindex⟩).2

theorem mem_ledgerTx_ins {pos : TxPos} {tx : Transaction} {o : OutPoint} :
    o.key ∈ (ledgerTx P pos tx).ins ↔ o ∈ tx.spends := by
  unfold ledgerTx
  rw [List.mem_map_of_injective OutPoint.key_injective]

theorem ChainConnectable.pairwise_spends {p : BlockPtr} (h : ChainConnectable P files p) :
    (chainTxs files p).Pairwise fun a b => ∀ o ∈ a.2.spends, o ∉ b.2.spends := by
  have hdisj := h.describes.disjoint
  unfold chainLedger toLedger at hdisj
  rw [List.pairwise_map] at hdisj
  refine hdisj.imp fun {a b} hab o ho ho' => ?_
  exact hab o.key (mem_ledgerTx_ins.mpr ho) (mem_ledgerTx_ins.mpr ho')

/-- At every point of a run: the mark of an output is set exactly when one transaction of the
connected chain spends it, and then it is the position of this one; and no two transactions of
the chain spend the same output. -/
theorem spent_iff_spender (hP : tree.txs.InjOn P.txHash) {p : BlockPtr} {n : Node}
    (h : ChainRun tree p n) :
    (∀ (o : OutPoint) r, readTxIndex n.txdb o.hash = some r →
      ((∃ pos, r.spent[o.n.toNat]? = some (some pos)) ↔
        ∃! tx, tx ∈ chainTxs files p ∧ o ∈ tx.2.spends) ∧
      ∀ tx ∈ chainTxs files p, o ∈ tx.2.spends → r.spent[o.n.toNat]? = some (some tx.1)) ∧
    (chainTxs files p).Pairwise fun a b => ∀ o ∈ a.2.spends, o ∉ b.2.spends := by
  have hon := h.onBranch (BlockTree.bringsNewTxids_of_injOn hP)
  have hdesc := hon.connectable.describes
  have hpair := hon.connectable.pairwise_spends
  rw [← hon.index] at hdesc
  refine ⟨fun o r hr => ?_, hpair⟩
  have hspender : ∀ tx ∈ chainTxs files p, o ∈ tx.2.spends →
      r.spent[o.n.toNat]? = some (some tx.1) := by
    intro tx htx ho
    obtain ⟨r', hr', hmark⟩ := hdesc.spender (ledgerTx P tx.1 tx.2) (List.mem_map_of_mem htx) o.key
      (mem_ledgerTx_ins.mpr ho)
    obtain rfl : r = r' := Option.some_injective _ (hr.symm.trans hr')
    exact hmark
  refine ⟨⟨?_, ?_⟩, hspender⟩
  · rintro ⟨pos, hpos⟩
    obtain ⟨ltx, hltx, hin, _⟩ := hdesc.marked o.hash r o.n.toNat pos hr hpos
    obtain ⟨tx, htx, rfl⟩ := List.mem_map.mp hltx
    have ho : o ∈ tx.2.spends := mem_ledgerTx_ins.mp hin
    exact ⟨tx, ⟨htx, ho⟩, fun tx' htx' => eq_of_pairwise_disjoint hpair htx'.1 htx htx'.2 ho⟩
  · rintro ⟨tx, ⟨htx, ho⟩, _⟩
    exact ⟨tx.1, hspender tx htx ho⟩

namespace Sample

/-- Eleven blocks on top of the genesis block, until the reward of the first is mature. -/
def mined (label : UInt32) : Block :=
  block label (.ofNat 256 label.toNat) [beanbase label label.toNat [out 100000]]

/-- The reward of the first block in five parts, and a beansprout for each of them. -/
def split : Transaction := spend 20 [⟨2, 0⟩] (List.replicate 5 (out 10000))

def sprout (i : UInt32) : Transaction :=
  spend (21 + i) [⟨params.txHash split, i⟩] [⟨0, []⟩, out 21000000000]

def minting : Block :=
  block 12 12 [beanbase 12 12 [out 100000], split, sprout 0, sprout 1, sprout 2, sprout 3, sprout 4]

def longBlock (nHeight : ℕ) : Block :=
  if nHeight = 0 then genesis else if nHeight = 12 then minting else mined (.ofNat nHeight)

def longPtr : ℕ → BlockPtr
  | 0 => [entry (longBlock 0)]
  | nHeight + 1 => entry (longBlock (nHeight + 1)) :: longPtr nHeight

def longFiles : Files := Sample.files ((List.range 13).map longBlock) (by decide +kernel)

def longTree : BlockTree params longFiles :=
  BlockTree.ofList ((List.range 13).map longPtr) (by decide +kernel)

def longIo : BlockIo := { blockIo with readTx := longFiles.txAt }

/-- The node after the blocks up to a height have been connected. -/
def longNode : ℕ → Node
  | 0 => node
  | nHeight + 1 => ((connectBlock params longIo (longBlock (nHeight + 1)) false
      (longPtr (nHeight + 1))).run (longNode nHeight)).2

theorem longRun {nHeight : ℕ} (h : nHeight < 13) :
    ChainRun longTree (longPtr nHeight) (longNode nHeight) := by
  have hrun : ∀ nHeight < 12, ((connectBlock params longIo (longBlock (nHeight + 1)) false
      (longPtr (nHeight + 1))).run (longNode nHeight)).1 = some () := by decide +kernel
  have hstored : ∀ nHeight < 13, longFiles.blockOf (entry (longBlock nHeight)) =
      some (longBlock nHeight) := by decide +kernel
  have hmem : ∀ nHeight < 13, longPtr nHeight ∈ longTree.entries := fun nHeight h =>
    List.mem_map_of_mem (List.mem_range.mpr h)
  induction nHeight with
  | zero => exact .start (hmem 0 h) rfl rfl
  | succ nHeight ih =>
    have ih := ih (by omega)
    have hmem := hmem (nHeight + 1) h
    have hrun := hrun nHeight (by omega)
    cases nHeight with
    | zero => exact .connect ih id hmem (hstored 1 h) (Prod.ext hrun rfl)
    | succ nHeight => exact .connect ih id hmem (hstored _ h) (Prod.ext hrun rfl)

end Sample

open Sample in
/-- The outputs of `split` are spent by one beansprout each. -/
theorem spent_iff_spender_split :
    ∃ r, readTxIndex (longNode 12).txdb (params.txHash split) = some r ∧
      ((∃ pos, r.spent[3]? = some (some pos)) ↔ ∃! tx, tx ∈ chainTxs longFiles (longPtr 12) ∧
        ⟨params.txHash split, 3⟩ ∈ tx.2.spends) := by
  have hP : longTree.txs.InjOn params.txHash := injOn_txs (by decide +kernel)
  have hsome : (readTxIndex (longNode 12).txdb (params.txHash split)).isSome = true := by
    decide +kernel
  obtain ⟨r, hr⟩ := Option.isSome_iff_exists.mp hsome
  have hmarks := (spent_iff_spender hP (longRun (by decide))).1 ⟨params.txHash split, 3⟩ r hr
  exact ⟨r, hr, hmarks.1⟩

end Beancash
