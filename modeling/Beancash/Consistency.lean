import Beancash.BranchSwitch

namespace Beancash

open Fallible Ledger

variable {P : Params} {files : Files} {tree : BlockTree P files}

/-- What `pnext` is when `p` is the main chain: for a block of it its successor. -/
def mainNext : BlockPtr → Uint256 → BlockPtr
  | e :: d :: p => Function.update (mainNext (d :: p)) d.phashBlock (e :: d :: p)
  | _ => fun _ => []

theorem mainNext_eq_nil {p : BlockPtr} {hash : Uint256}
    (h : ∀ q, q <:+ p.tail → q ≠ [] → BlockPtr.hash q ≠ hash) : mainNext p hash = [] := by
  induction p with
  | nil => rfl
  | cons e p ih =>
    cases p with
    | nil => rfl
    | cons d p =>
      have hd : d.phashBlock ≠ hash := h (d :: p) List.suffix_rfl (by simp)
      rw [mainNext, Function.update_of_ne hd.symm]
      exact ih fun q hq hne => h q (hq.trans (List.suffix_cons d p)) hne

theorem mainNext_suffix (p : BlockPtr) (hash : Uint256) : mainNext p hash <:+ p := by
  induction p with
  | nil => exact List.suffix_rfl
  | cons e p ih =>
    cases p with
    | nil => exact List.nil_suffix
    | cons d p =>
      rw [mainNext]
      by_cases heq : hash = d.phashBlock
      · rw [heq, Function.update_self]
      · rw [Function.update_of_ne heq]
        exact ih.trans (List.suffix_cons e _)

theorem mainNext_eq_of_hash_ne {p : BlockPtr}
    (hp : ∀ c r, c :: r <:+ p → ∀ q, q <:+ r → q ≠ [] → BlockPtr.hash q ≠ c.phashBlock)
    {d : BlockIndex} {q : BlockPtr} (hq : d :: q <:+ p) (hne : q ≠ []) :
    mainNext p (BlockPtr.hash q) = d :: q := by
  induction p with
  | nil => exact absurd (List.suffix_nil.mp hq) (List.cons_ne_nil d q)
  | cons e p ih =>
    rcases List.suffix_cons_iff.mp hq with heq | hq
    · obtain ⟨rfl, rfl⟩ := List.cons.inj heq
      obtain ⟨c, q, rfl⟩ := List.exists_cons_of_ne_nil hne
      rw [mainNext, BlockPtr.hash_cons, Function.update_self]
    · have hbelow : ∀ c r, c :: r <:+ p → ∀ q, q <:+ r → q ≠ [] →
          BlockPtr.hash q ≠ c.phashBlock := fun c r hr => hp c r (hr.trans (List.suffix_cons e p))
      cases p with
      | nil => exact absurd (List.suffix_nil.mp hq) (List.cons_ne_nil d q)
      | cons c p =>
        have hlow : q <:+ p := by
          rcases List.suffix_cons_iff.mp hq with heq | hq
          · rw [(List.cons.inj heq).2]
          · exact (List.suffix_cons d q).trans hq
        rw [mainNext, Function.update_of_ne (hbelow c p List.suffix_rfl q hlow hne)]
        exact ih hbelow hq

theorem mainNext_self {e : BlockIndex} {p : BlockPtr} (h : e :: p ∈ tree.entries) :
    mainNext (e :: p) e.phashBlock = [] :=
  mainNext_eq_nil fun _ hq hne => BlockTree.hash_ne_of_suffix h hq hne

theorem pnext_linkParent (n : Node) (e d : BlockIndex) (p pnext : BlockPtr) :
    (n.linkParent (e :: d :: p) pnext).pnext = Function.update n.pnext d.phashBlock pnext := rfl

theorem pnext_foldl_unlink {p q : BlockPtr} {n : Node} (hp : p ∈ tree.entries) (hq : q <:+ p)
    (hne : q ≠ []) (hn : n.pnext = mainNext p) :
    ((BlockPtr.downTo q p).foldl (fun n c => n.linkParent c []) n).pnext = mainNext q := by
  induction p generalizing n with
  | nil => exact absurd rfl (BlockTree.ne_nil hp)
  | cons e p ih =>
    rcases List.suffix_cons_iff.mp hq with rfl | hq
    · rw [BlockPtr.downTo_self]
      exact hn
    · obtain ⟨d, p, rfl, hdown⟩ := BlockPtr.downTo_cons (e := e) hq hne
      rw [hdown, List.foldl_cons]
      refine ih (tree.parent hp) hq ?_
      rw [pnext_linkParent, hn, mainNext, Function.update_idem]
      exact Function.update_eq_self_iff.mpr (mainNext_self (tree.parent hp)).symm

theorem pnext_foldl_link {p q : BlockPtr} {n : Node} (hp : p ∈ tree.entries) (hq : q <:+ p)
    (hne : q ≠ []) (hn : n.pnext = mainNext q) :
    ((BlockPtr.downTo q p).reverse.foldl (fun n c => n.linkParent c c) n).pnext = mainNext p := by
  induction p with
  | nil => exact absurd rfl (BlockTree.ne_nil hp)
  | cons e p ih =>
    rcases List.suffix_cons_iff.mp hq with rfl | hq
    · rw [BlockPtr.downTo_self]
      exact hn
    · obtain ⟨d, p, rfl, hdown⟩ := BlockPtr.downTo_cons (e := e) hq hne
      rw [hdown, List.reverse_cons, List.foldl_append, List.foldl_cons, List.foldl_nil,
        pnext_linkParent, ih (tree.parent hp) hq]
      rfl

/-- The node without what `SetBestChain` sets last. -/
structure Attached (P : Params) (files : Files) (p : BlockPtr) (n : Node) : Prop where
  onBranch : OnBranch P files p n
  activeBatch : n.txdb.activeBatch = none
  bestKey : n.txdb.pdb .hashBestChain = p.head?.map fun e => .hash e.phashBlock
  pnext : n.pnext = mainNext p

/-- The best block in memory, the heights and the first block are the same. -/
structure SameBest (n n' : Node) : Prop where
  pindexGenesisBlock : n'.pindexGenesisBlock = n.pindexGenesisBlock
  pindexBest : n'.pindexBest = n.pindexBest
  hashBestChain : n'.hashBestChain = n.hashBestChain
  nBestHeight : n'.nBestHeight = n.nBestHeight

theorem SameBest.trans {a b c : Node} (h : SameBest a b) (h' : SameBest b c) : SameBest a c where
  pindexGenesisBlock := h'.pindexGenesisBlock.trans h.pindexGenesisBlock
  pindexBest := h'.pindexBest.trans h.pindexBest
  hashBestChain := h'.hashBestChain.trans h.hashBestChain
  nBestHeight := h'.nBestHeight.trans h.nBestHeight

theorem SameMemory.sameBest {n n' : Node} (h : SameMemory n n') : SameBest n n' :=
  ⟨h.pindexGenesisBlock, h.pindexBest, h.hashBestChain, h.nBestHeight⟩

theorem SameButLinksAndPool.sameBest {n n' : Node} (h : SameButLinksAndPool n n') :
    SameBest n n' := by
  unfold SameButLinksAndPool at h
  constructor <;> rw [h]

theorem sameBest_txnBegin (n : Node) : SameBest n n.txnBegin := (sameMemory_txnBegin n).sameBest

theorem Attached.txnBegin {p : BlockPtr} {n : Node} (h : Attached P files p n) :
    OnBranch P files p n.txnBegin := by
  refine ⟨h.onBranch.connectable, ?_⟩
  rw [← h.onBranch.index]
  funext hash
  rw [readTxIndex_eq_view, readTxIndex_eq_view, Node.txnBegin, TxDB.view_txnBegin, TxDB.view,
    h.activeBatch]

/-- After a commit that wrote `p` as the best chain, links and pool may still change. -/
theorem attached_of_committed {e : BlockIndex} {p : BlockPtr} {n n' : Node}
    (hn : OnBranch P files (e :: p) n) (hc : CommittedBest e.phashBlock n)
    (hsame : SameButLinksAndPool n n') (hnext : n'.pnext = mainNext (e :: p)) :
    Attached P files (e :: p) n' := by
  have hdb : n'.txdb = n.txdb := by
    unfold SameButLinksAndPool at hsame
    rw [hsame]
  refine ⟨⟨hn.connectable, (hsame.sameLedger []).index.trans hn.index⟩, ?_, ?_, hnext⟩
  · rw [hdb]
    exact hc.activeBatch
  · rw [hdb]
    exact hc.bestKey

theorem reorganize_attached (hnew : tree.BringsNewTxids) {io : Io} (hio : io.ReadsFrom tree)
    {pindexNew : BlockPtr} {n n' : Node} {u : Unit} (hp : n.pindexBest ∈ tree.entries)
    (hp' : pindexNew ∈ tree.entries) (hn : OnBranch P files n.pindexBest n)
    (hnext : n.pnext = mainNext n.pindexBest)
    (h : (reorganize P io pindexNew).run n = (some u, n')) :
    Attached P files pindexNew n' ∧ SameBest n n' := by
  obtain ⟨hn', q, n₁, vResurrect, vDelete, hq, hq', hne, hr, rfl⟩ :=
    (onBranch_invariant hnew).reorganize hio hp hp' hn h
  obtain ⟨e, p, rfl⟩ := List.exists_cons_of_ne_nil (BlockTree.ne_nil hp')
  have hsame := sameButLinksAndPool_reorganizeMemory P (BlockPtr.downTo q n.pindexBest)
    (BlockPtr.downTo q (e :: p)).reverse vResurrect.flatten vDelete.flatten n₁
  refine ⟨?_, hr.memory.sameBest.trans hsame.sameBest⟩
  have hn₁ : OnBranch P files (e :: p) n₁ :=
    ⟨hn'.connectable, (hsame.sameLedger []).index.symm.trans hn'.index⟩
  refine attached_of_committed hn₁ hr.committed hsame ?_
  rw [pnext_reorganizeMemory]
  exact pnext_foldl_link hp' hq' hne (pnext_foldl_unlink hp hq hne (hr.memory.pnext.trans hnext))

theorem setBestChainInner_attached (hnew : tree.BringsNewTxids) {io : BlockIo}
    (hio : io.ReadsTxs files) {e d : BlockIndex} {p : BlockPtr} {b : Block} {n n' : Node} {u : Unit}
    (he : e :: d :: p ∈ tree.entries) (hb : files.blockOf e = some b)
    (hn : OnBranch P files (d :: p) n) (hnext : n.pnext = mainNext (d :: p))
    (h : (setBestChainInner P io b (e :: d :: p)).run n = (some u, n')) :
    Attached P files (e :: d :: p) n' ∧ SameBest n n' := by
  obtain ⟨n₁, h₁, rfl⟩ := setBestChainInner_eq_some h
  have hmem := connectBlock_memory h₁
  have hn₁ := (onBranch_invariant hnew).connect hio he hb hn h₁
  have hn₂ := (onBranch_invariant hnew).frame (sameLedger_commitBest _ n₁ (b.hash P)) hn₁
  have hcommit := committedBest_commitBest n₁ (b.hash P)
  rw [(tree.linked he hb).1] at hn₂ hcommit ⊢
  have hsame := (sameButLinksAndPool_linkParent (n₁.commitBest e.phashBlock) (e :: d :: p)
    (e :: d :: p)).trans
      (sameButLinksAndPool_foldl (f := Node.removeFromPool P) (fun _ _ => rfl) b.vtx _)
  refine ⟨attached_of_committed hn₂ hcommit hsame ?_,
    hmem.sameBest.trans ((sameMemory_commitBest n₁ _).sameBest.trans hsame.sameBest)⟩
  refine (pnext_foldl (f := Node.removeFromPool P) (fun _ _ => rfl) b.vtx _).trans ?_
  rw [pnext_linkParent, mainNext, ← hnext, ← hmem.pnext]
  rfl

/-- What connecting a block on top of the branch `p` reads, when the index is that of `p`. -/
def chainView (P : Params) (files : Files) (io : BlockIo) (nBestHeight : ℕ) (p : BlockPtr) :
    InputView where
  readTxIndex := chainIndex P files p
  lookup _ := none
  readTx := io.readTx
  nBestHeight := nBestHeight

theorem connectBlock_isSome {io : BlockIo} {e d : BlockIndex} {p : BlockPtr} {b : Block} {n : Node}
    (hb : files.blockOf e = some b) (hn : OnBranch P files (d :: p) n) :
    ((connectBlock P io b false (e :: d :: p)).run n).1.isSome =
      (connectBlockChecks P (chainView P files io n.nBestHeight (d :: p)) io b e (d :: p)
        false).isSome := by
  have hpos : ∀ tx ∈ blockTxs e b, tx.1 ≠ TxPos.memory := fun tx htx =>
    (Files.txAt_of_mem hb htx).2
  have hchecks : connectBlockChecks P (n.inputView io) io b e (d :: p) false =
      connectBlockChecks P (chainView P files io n.nBestHeight (d :: p)) io b e (d :: p) false :=
    connectBlockChecks_congr (chainView P files io n.nBestHeight (d :: p)) (n.inputView io)
      hn.index rfl rfl hn.connectable.avoids hpos
  rw [run_connectBlock, ← hchecks]
  split <;> rename_i hs <;> rw [hs] <;> rfl

theorem setBestChainInner_isSome (io : BlockIo) (b : Block) (pindexNew : BlockPtr) (n : Node) :
    ((setBestChainInner P io b pindexNew).run n).1.isSome =
      (((connectBlock P io b false pindexNew).run n).1.isSome && io.txnCommit) := by
  unfold setBestChainInner
  rcases h : (connectBlock P io b false pindexNew).run n with ⟨_ | u, n₁⟩
  · rw [Step.run_bind_of_none (Step.run_onFail_eq_none.mpr
      ⟨n₁, Step.run_bind_of_none h, rfl⟩)]
    rfl
  · have hwrite : (do
        connectBlock P io b false pindexNew
        Step.modify fun n => n.writeHashBestChain (b.hash P)).run n =
        (some (), n₁.writeHashBestChain (b.hash P)) := Step.run_bind_of_some h
    rw [Step.run_bind_of_some (Step.run_onFail_eq_some.mpr hwrite)]
    cases io.txnCommit <;> rfl

theorem activeBatch_invalidChainFound (n : Node) (pindexNew : BlockPtr) :
    (n.txnAbort.invalidChainFound pindexNew).txdb.activeBatch = none := by
  simp only [Node.invalidChainFound]
  split <;> rfl

theorem activeBatch_setBestChainInner {io : BlockIo} {b : Block} {pindexNew : BlockPtr}
    {n n' : Node} (h : (setBestChainInner P io b pindexNew).run n = (none, n')) :
    n'.txdb.activeBatch = none := by
  unfold setBestChainInner at h
  rcases Step.run_bind_eq_none.mp h with h₁ | ⟨_, n₁, _, h₂⟩
  · obtain ⟨n₂, _, rfl⟩ := Step.run_onFail_eq_none.mp h₁
    exact activeBatch_invalidChainFound n₂ pindexNew
  · rcases Step.run_bind_eq_none.mp h₂ with h₃ | ⟨_, n₂, _, h₄⟩
    · unfold txnCommit at h₃
      rw [Step.run_bind_of_some (Step.run_modify _ _)] at h₃
      obtain rfl := congrArg Prod.snd h₃
      exact TxDB.activeBatch_txnCommit _ _
    · cases h₄

/-- The postponed block can be read, begun, connected on top of its branch and committed. -/
def reconnects (P : Params) (files : Files) (io : Io) (nBestHeight : ℕ) : BlockPtr → Bool
  | [] => false
  | e :: p =>
    let io := io.block e.phashBlock
    (io.readFromDisk P (e :: p)).any fun b => io.txnBegin &&
      ((connectBlockChecks P (chainView P files io nBestHeight p) io b e p false).isSome &&
        io.txnCommit)

theorem reconnect_isSome {io : Io} (hio : io.ReadsFrom tree) {e d : BlockIndex} {p : BlockPtr}
    {n : Node} (he : e :: d :: p ∈ tree.entries) (hn : Attached P files (d :: p) n) :
    ((reconnect P io (e :: d :: p)).run n).1.isSome =
      reconnects P files io n.nBestHeight (e :: d :: p) := by
  unfold reconnect reconnects
  simp only [BlockPtr.hash_cons]
  cases hread : (io.block e.phashBlock).readFromDisk P (e :: d :: p) with
  | none => rfl
  | some b =>
    have hb := hio.readFromDisk he hread
    rw [Step.run_bind_of_some (Step.run_ofOption _ _), Option.any_some]
    cases hbegin : (io.block e.phashBlock).txnBegin with
    | false => rfl
    | true =>
      rw [Step.run_bind_of_some (Step.run_guard _ _), Step.run_bind_of_some (Step.run_modify _ _),
        setBestChainInner_isSome, connectBlock_isSome hb hn.txnBegin]
      rfl

theorem reconnect_attached (hnew : tree.BringsNewTxids) {io : Io} (hio : io.ReadsFrom tree)
    {e d : BlockIndex} {p : BlockPtr} {n n' : Node} {u : Unit} (he : e :: d :: p ∈ tree.entries)
    (hn : Attached P files (d :: p) n) (h : (reconnect P io (e :: d :: p)).run n = (some u, n')) :
    Attached P files (e :: d :: p) n' ∧ SameBest n n' := by
  unfold reconnect at h
  obtain ⟨b, n₁, h₁, h₂⟩ := Step.run_bind_eq_some.mp h
  obtain ⟨hread, rfl⟩ := Step.run_ofOption_eq_some.mp h₁
  obtain ⟨_, n₂, h₃, h₄⟩ := Step.run_bind_eq_some.mp h₂
  obtain ⟨_, rfl⟩ := Step.run_guard_eq_some.mp h₃
  rw [Step.run_bind_of_some (Step.run_modify _ _)] at h₄
  obtain ⟨hn', hbest⟩ := setBestChainInner_attached hnew (hio.readTx _) he
    (hio.readFromDisk he hread) hn.txnBegin hn.pnext h₄
  exact ⟨hn', (sameBest_txnBegin n₂).trans hbest⟩

theorem reconnect_failed {io : Io} {c p : BlockPtr} {n n' : Node} (hn : Attached P files p n)
    (h : (reconnect P io c).run n = (none, n')) : Attached P files p n' ∧ SameBest n n' := by
  unfold reconnect at h
  rcases Step.run_bind_eq_none.mp h with h₁ | ⟨b, n₁, h₁, h₂⟩
  · obtain rfl := congrArg Prod.snd h₁
    exact ⟨hn, ⟨rfl, rfl, rfl, rfl⟩⟩
  · obtain ⟨_, rfl⟩ := Step.run_ofOption_eq_some.mp h₁
    rcases Step.run_bind_eq_none.mp h₂ with h₃ | ⟨_, n₂, h₃, h₄⟩
    · obtain rfl := congrArg Prod.snd h₃
      exact ⟨hn, ⟨rfl, rfl, rfl, rfl⟩⟩
    · obtain ⟨_, rfl⟩ := Step.run_guard_eq_some.mp h₃
      rw [Step.run_bind_of_some (Step.run_modify _ _)] at h₄
      have hd := failKeeps_setBestChainInner P _ b c _ _ h₄
      have hbatch := activeBatch_setBestChainInner h₄
      have hpdb : ∀ k, k ≠ .bnBestInvalidTrust → n'.txdb.pdb k = n₂.txdb.pdb k := hd.pdb rfl
      refine ⟨⟨⟨hn.onBranch.connectable, ?_⟩, hbatch, ?_, hd.memory.pnext.trans hn.pnext⟩,
        (sameBest_txnBegin n₂).trans hd.memory.sameBest⟩
      · rw [← hn.onBranch.index]
        funext hash
        rw [readTxIndex_eq_view, readTxIndex_eq_view, TxDB.view, TxDB.view, hbatch, hn.activeBatch]
        exact congrArg (Option.bind · asTxIndex) (hpdb _ (by simp))
      · rw [hpdb _ (by simp)]
        exact hn.bestKey

/-- The loop over the postponed blocks attaches the last of them or, if one of them fails, a
branch that is shorter. -/
theorem forEachWhile_reconnect (hnew : tree.BringsNewTxids) {io : Io} (hio : io.ReadsFrom tree)
    {i p : BlockPtr} {l : List BlockPtr} {n : Node} (hi : i ≠ []) (hp : p ∈ tree.entries)
    (hasc : BlockPtr.Ascends i l p) (hn : Attached P files i n) :
    SameBest n ((Step.forEachWhile (reconnect P io) l).run n).2 ∧
      ∃ q, q <:+ p ∧ q ≠ [] ∧ Attached P files q ((Step.forEachWhile (reconnect P io) l).run n).2 ∧
        (q = p ↔ l.all (reconnects P files io n.nBestHeight) = true) := by
  induction l generalizing i n with
  | nil =>
    obtain rfl : p = i := hasc
    exact ⟨⟨rfl, rfl, rfl, rfl⟩, p, List.suffix_rfl, hi, hn, by simp⟩
  | cons c l ih =>
    obtain ⟨hc, rfl, hasc⟩ := hasc
    obtain ⟨e, q, rfl⟩ := List.exists_cons_of_ne_nil hc
    obtain ⟨d, q, rfl⟩ := List.exists_cons_of_ne_nil hi
    have hsuf := hasc.suffix
    have he := tree.mem_of_suffix hp hsuf hc
    have hsome := reconnect_isSome hio he hn
    rw [Step.forEachWhile, Step.run_bind_of_some (Step.run_attempt _ _)]
    rcases hrun : (reconnect P io (e :: d :: q)).run n with ⟨_ | u, n₁⟩
    · rw [hrun] at hsome
      obtain ⟨hn₁, hbest⟩ := reconnect_failed hn hrun
      refine ⟨hbest, d :: q, (List.suffix_cons e _).trans hsuf, by simp, hn₁, ?_⟩
      rw [List.all_cons, ← hsome]
      constructor
      · rintro rfl
        have hlen := hsuf.length_le
        simp only [List.length_cons] at hlen
        omega
      · intro h
        cases h
    · rw [hrun] at hsome
      obtain ⟨hn₁, hbest⟩ := reconnect_attached hnew hio he hn hrun
      obtain ⟨hbest', q', hq', hne', hn', hiff⟩ := ih (by simp) hasc hn₁
      refine ⟨hbest.trans hbest', q', hq', hne', hn', ?_⟩
      rw [hiff, List.all_cons, ← hsome, hbest.nBestHeight]
      rfl

/-- The best block in memory, the best chain in the database, the links and the transaction
index all describe the connected branch from the genesis block to `pindexBest`. -/
structure Consistent (tree : BlockTree P files) (n : Node) : Prop where
  best : n.pindexBest = [] ∨ n.pindexBest ∈ tree.entries
  hashBestChain : n.hashBestChain = BlockPtr.hash n.pindexBest
  pindexGenesisBlock : n.pindexGenesisBlock = n.pindexBest.drop (n.pindexBest.length - 1)
  attached : Attached P files n.pindexBest n

namespace BlockTree

theorem genesis_eq {p q : BlockPtr} (hp : p ∈ tree.entries) (hq : q ∈ tree.entries) :
    p.drop (p.length - 1) = q.drop (q.length - 1) := by
  have hroot : ∀ {p : BlockPtr}, p ∈ tree.entries → ∃ g, p.drop (p.length - 1) = [g] ∧
      [g] ∈ tree.entries := by
    intro p hp
    have hlen := List.length_pos_of_ne_nil (ne_nil hp)
    obtain ⟨g, hg⟩ := List.length_eq_one_iff.mp
      (show (p.drop (p.length - 1)).length = 1 by rw [List.length_drop]; omega)
    exact ⟨g, hg, hg ▸ mem_of_suffix hp (List.drop_suffix _ p) (by rw [hg]; simp)⟩
  obtain ⟨g, hg, hgmem⟩ := hroot hp
  obtain ⟨g', hg', hgmem'⟩ := hroot hq
  rw [hg, hg']
  refine tree.hash_injOn hgmem hgmem' ?_
  exact ((tree.genesis hgmem).mpr rfl).trans ((tree.genesis hgmem').mpr rfl).symm

end BlockTree

theorem Consistent.isEmpty_genesis {n : Node} (hn : Consistent tree n) :
    n.pindexGenesisBlock.isEmpty = true ↔ n.pindexBest = [] := by
  rw [hn.pindexGenesisBlock, List.isEmpty_iff, List.drop_eq_nil_iff]
  rcases hn.best with h | h
  · simp [h]
  · have hlen := List.length_pos_of_ne_nil (BlockTree.ne_nil h)
    constructor
    · omega
    · intro hnil
      exact absurd hnil (BlockTree.ne_nil h)

theorem setGenesis_attached {io : Io} {hash : Uint256} {e : BlockIndex} {n n' : Node} {u : Unit}
    (hhash : hash = e.phashBlock) (hn : OnBranch P files [] n) (hnext : n.pnext = mainNext [])
    (h : (setGenesis io hash [e]).run n = (some u, n')) :
    Attached P files [e] n' ∧ n'.pindexGenesisBlock = [e] := by
  unfold setGenesis at h
  rw [Step.run_bind_of_some (Step.run_modify _ _)] at h
  obtain ⟨_, n₁, h₁, h₂⟩ := Step.run_bind_eq_some.mp h
  obtain ⟨_, rfl⟩ := txnCommit_eq_some h₁
  obtain rfl := congrArg Prod.snd h₂
  subst hhash
  have hc := committedBest_commitBest n e.phashBlock
  refine ⟨⟨⟨hn.connectable, ?_⟩, hc.activeBatch, hc.bestKey, hnext⟩, rfl⟩
  exact (sameLedger_commitBest [] n e.phashBlock).index.trans hn.index

theorem switchBranch_attached (hnew : tree.BringsNewTxids) {io : Io} (hio : io.ReadsFrom tree)
    {pindexNew : BlockPtr} {n n' : Node} {u : Unit} (hp : n.pindexBest ∈ tree.entries)
    (hp' : pindexNew ∈ tree.entries) (hn : OnBranch P files n.pindexBest n)
    (hnext : n.pnext = mainNext n.pindexBest)
    (h : (switchBranch P io pindexNew n.pindexBest).run n = (some u, n')) :
    SameBest n n' ∧ ∃ q, q <:+ pindexNew ∧ q ≠ [] ∧ Attached P files q n' ∧
      (q = pindexNew ↔ (BlockPtr.postpone (BlockPtr.nChainTrust n.pindexBest) pindexNew).2.all
        (reconnects P files io n.nBestHeight) = true) := by
  obtain ⟨hsuf, hne, hasc⟩ :=
    BlockPtr.postpone_spec (BlockPtr.nChainTrust n.pindexBest) pindexNew
  have hne := hne (BlockTree.ne_nil hp')
  unfold switchBranch at h
  obtain ⟨_, n₁, h₁, h₂⟩ := Step.run_bind_eq_some.mp h
  obtain ⟨hn₁, hbest⟩ := reorganize_attached hnew hio hp (tree.mem_of_suffix hp' hsuf hne) hn hnext
    (Step.run_onFail_eq_some.mp h₁)
  obtain ⟨hbest', q, hq⟩ := forEachWhile_reconnect hnew hio hne hp' hasc hn₁
  obtain rfl : _ = n' := congrArg Prod.snd h₂
  rw [hbest.nBestHeight] at hq
  exact ⟨hbest.trans hbest', q, hq⟩

/-- How a block is attached to a consistent chain: as its first block, on top of it, or by a
switch to another branch. -/
theorem attach_cases {io : Io} {e : BlockIndex} {p : BlockPtr} {b : Block} {n n' : Node} {u : Unit}
    (he : e :: p ∈ tree.entries) (hb : files.blockOf e = some b) (hn : Consistent tree n)
    (h : (attach P io b (e :: p) n.txnBegin).run n.txnBegin = (some u, n')) :
    (n.pindexBest = [] ∧ p = [] ∧
      (setGenesis io e.phashBlock [e]).run n.txnBegin = (some u, n')) ∨
    (n.pindexBest ∈ tree.entries ∧ p = n.pindexBest ∧
      (setBestChainInner P (io.block (b.hash P)) b (e :: p)).run n.txnBegin = (some u, n')) ∨
    (n.pindexBest ∈ tree.entries ∧ p ≠ n.pindexBest ∧
      (switchBranch P io (e :: p) n.pindexBest).run n.txnBegin = (some u, n')) := by
  obtain ⟨hhash, _, hprev⟩ := tree.linked he hb
  have hfirst : p = [] ↔ b.hash P = P.hashGenesisBlock := by
    rw [hhash]
    exact (tree.genesis he).symm
  unfold attach at h
  by_cases hg : n.txnBegin.pindexGenesisBlock.isEmpty ∧ b.hash P = P.hashGenesisBlock
  · rw [if_pos hg, hhash] at h
    obtain rfl := hfirst.mpr hg.2
    exact Or.inl ⟨hn.isEmpty_genesis.mp hg.1, rfl, h⟩
  · rw [if_neg hg] at h
    have hbest : n.pindexBest ≠ [] ∨ p ≠ [] := by
      by_contra hboth
      rw [not_or, not_not, not_not] at hboth
      exact hg ⟨hn.isEmpty_genesis.mpr hboth.1, hfirst.mp hboth.2⟩
    have hmem : p ≠ [] → p ∈ tree.entries := tree.mem_of_suffix he (List.suffix_cons e p)
    by_cases hext : b.header.hashPrevBlock = n.txnBegin.hashBestChain
    · rw [if_pos hext] at h
      have hlink : BlockPtr.hash p = BlockPtr.hash n.pindexBest :=
        hprev.symm.trans (hext.trans hn.hashBestChain)
      rcases hn.best with hnil | hmem'
      · rw [hnil] at hlink hbest
        exact absurd hlink (tree.hash_ne_zero (hmem (hbest.resolve_left fun h => h rfl)))
      · have hp : p ≠ [] := by
          rintro rfl
          exact tree.hash_ne_zero hmem' hlink.symm
        exact Or.inr (Or.inl ⟨hmem', tree.hash_injOn (hmem hp) hmem' hlink, h⟩)
    · rw [if_neg hext] at h
      have hne : p ≠ n.pindexBest := by
        rintro rfl
        exact hext (hprev.trans hn.hashBestChain.symm)
      rcases hn.best with hnil | hmem'
      · -- without a best block there is no fork
        exfalso
        unfold switchBranch at h
        obtain ⟨_, n₁, h₁, _⟩ := Step.run_bind_eq_some.mp h
        have h₂ := Step.run_onFail_eq_some.mp h₁
        unfold reorganize at h₂
        rw [Step.run_bind_of_some (Step.run_read _ _)] at h₂
        obtain ⟨q, _, hfork, _⟩ := Step.run_bind_eq_some.mp h₂
        have hfork := (Step.run_ofOption_eq_some.mp hfork).1
        rw [show n.txnBegin.pindexBest = [] from hnil] at hfork
        cases hfork
      · exact Or.inr (Or.inr ⟨hmem', hne, h⟩)

theorem attach_attached (hnew : tree.BringsNewTxids) {io : Io} (hio : io.ReadsFrom tree)
    {e : BlockIndex} {p : BlockPtr} {b : Block} {n n' : Node} {u : Unit}
    (he : e :: p ∈ tree.entries) (hb : files.blockOf e = some b) (hn : Consistent tree n)
    (h : (attach P io b (e :: p) n.txnBegin).run n.txnBegin = (some u, n')) :
    n'.pindexGenesisBlock = (e :: p).drop p.length ∧
      ∃ q, q <:+ e :: p ∧ q ≠ [] ∧ Attached P files q n' ∧
        (q = e :: p ↔ (BlockPtr.postpone (BlockPtr.nChainTrust n.pindexBest) (e :: p)).2.all
          (reconnects P files io n.nBestHeight) = true) := by
  have hbegin := hn.attached.txnBegin
  have hnext := hn.attached.pnext
  have hgenesis : n.pindexBest ∈ tree.entries → n.pindexGenesisBlock = (e :: p).drop p.length := by
    intro hbest
    rw [hn.pindexGenesisBlock]
    exact BlockTree.genesis_eq hbest he
  rcases attach_cases he hb hn h with ⟨hnil, rfl, hrun⟩ | ⟨hmem, rfl, hrun⟩ | ⟨hmem, _, hrun⟩
  · rw [hnil] at hbegin hnext
    obtain ⟨hatt, hroot⟩ := setGenesis_attached rfl hbegin hnext hrun
    exact ⟨hroot, [e], List.suffix_rfl, by simp, hatt, by simp [BlockPtr.postpone]⟩
  · have hroot := hgenesis hmem
    obtain ⟨d, p, hdp⟩ := List.exists_cons_of_ne_nil (BlockTree.ne_nil hmem)
    rw [hdp] at hbegin hnext hrun he hroot ⊢
    obtain ⟨hatt, hsame⟩ := setBestChainInner_attached hnew (hio.readTx _) he hb hbegin hnext hrun
    refine ⟨hsame.pindexGenesisBlock.trans hroot, e :: d :: p, List.suffix_rfl, by simp, hatt, ?_⟩
    rw [BlockPtr.postpone, if_neg (BitVec.lt_irrefl _)]
    simp
  · obtain ⟨hsame, q, hq⟩ :=
      switchBranch_attached (n := n.txnBegin) hnew hio hmem he hbegin hnext hrun
    exact ⟨hsame.pindexGenesisBlock.trans (hgenesis hmem), q, hq⟩

theorem setBestChain_eq_some (hnew : tree.BringsNewTxids) {io : Io} (hio : io.ReadsFrom tree)
    {e : BlockIndex} {p : BlockPtr} {b : Block} {n n' : Node} {u : Unit}
    (he : e :: p ∈ tree.entries) (hb : files.blockOf e = some b) (hn : Consistent tree n)
    (h : (setBestChain P io b (e :: p)).run n = (some u, n')) :
    ∃ n₁, (attach P io b (e :: p) n.txnBegin).run n.txnBegin = (some (), n₁) ∧
      n' = n₁.setBest (b.hash P) (e :: p) ∧ n₁.pindexGenesisBlock = (e :: p).drop p.length ∧
      ∃ q, q <:+ e :: p ∧ q ≠ [] ∧ Attached P files q n₁ ∧
        (q = e :: p ↔ (BlockPtr.postpone (BlockPtr.nChainTrust n.pindexBest) (e :: p)).2.all
          (reconnects P files io n.nBestHeight) = true) := by
  unfold setBestChain at h
  obtain ⟨_, n₁, h₁, h₂⟩ := Step.run_bind_eq_some.mp h
  obtain ⟨_, rfl⟩ := Step.run_guard_eq_some.mp h₁
  rw [Step.run_bind_of_some (Step.run_modify _ _), Step.run_bind_of_some (Step.run_read _ _)] at h₂
  obtain ⟨_, n₂, h₃, h₄⟩ := Step.run_bind_eq_some.mp h₂
  exact ⟨n₂, h₃, (congrArg Prod.snd h₄).symm, attach_attached hnew hio he hb hn h₃⟩

theorem Attached.consistent {e : BlockIndex} {p : BlockPtr} {b : Block} {n : Node}
    (he : e :: p ∈ tree.entries) (hb : files.blockOf e = some b) (hn : Attached P files (e :: p) n)
    (hgenesis : n.pindexGenesisBlock = (e :: p).drop p.length) :
    Consistent tree (n.setBest (b.hash P) (e :: p)) :=
  ⟨Or.inr he, (tree.linked he hb).1, hgenesis,
    ⟨⟨hn.onBranch.connectable, hn.onBranch.index⟩, hn.activeBatch, hn.bestKey, hn.pnext⟩⟩

theorem pindexBest_setBestChain {io : Io} {b : Block} {pindexNew : BlockPtr} {n n' : Node}
    {u : Unit} (h : (setBestChain P io b pindexNew).run n = (some u, n')) :
    n'.pindexBest = pindexNew := by
  unfold setBestChain at h
  obtain ⟨_, n₁, _, h₂⟩ := Step.run_bind_eq_some.mp h
  rw [Step.run_bind_of_some (Step.run_modify _ _), Step.run_bind_of_some (Step.run_read _ _)] at h₂
  obtain ⟨_, n₂, _, h₄⟩ := Step.run_bind_eq_some.mp h₂
  obtain rfl := congrArg Prod.snd h₄
  rfl

theorem Consistent.of_setBestChain (hnew : tree.BringsNewTxids) {io : Io}
    (hio : io.ReadsFrom tree) {e : BlockIndex} {p : BlockPtr} {b : Block} {n n' : Node} {u : Unit}
    (he : e :: p ∈ tree.entries) (hb : files.blockOf e = some b) (hn : Consistent tree n)
    (h : (setBestChain P io b (e :: p)).run n = (some u, n'))
    (hrec : (BlockPtr.postpone (BlockPtr.nChainTrust n.pindexBest) (e :: p)).2.all
      (reconnects P files io n.nBestHeight) = true) : Consistent tree n' := by
  obtain ⟨n₁, _, rfl, hgenesis, q, _, _, hatt, hiff⟩ := setBestChain_eq_some hnew hio he hb hn h
  obtain rfl := hiff.mpr hrec
  exact hatt.consistent he hb hgenesis

/-- After a successful `SetBestChain` the node is consistent again exactly when every postponed
block could be reconnected: the new block is taken for the best one in any case. -/
theorem setBestChain_consistent_iff (hP : tree.txs.InjOn P.txHash) {io : Io}
    (hio : io.ReadsFrom tree) {e : BlockIndex} {p : BlockPtr} {b : Block} {n n' : Node}
    (he : e :: p ∈ tree.entries) (hb : files.blockOf e = some b) (hn : Consistent tree n)
    (h : (setBestChain P io b (e :: p)).run n = (some (), n')) :
    Consistent tree n' ↔
      ∀ c ∈ (BlockPtr.postpone (BlockPtr.nChainTrust n.pindexBest) (e :: p)).2,
        reconnects P files io n.nBestHeight c = true := by
  obtain ⟨n₁, _, rfl, hgenesis, q, hq, hne, hatt, hiff⟩ :=
    setBestChain_eq_some (BlockTree.bringsNewTxids_of_injOn hP) hio he hb hn h
  rw [← List.all_eq_true, ← hiff]
  constructor
  · intro hn'
    -- the best chain in the database gives the branch away
    obtain ⟨d, q, rfl⟩ := List.exists_cons_of_ne_nil hne
    have hkey := hn'.attached.bestKey
    change n₁.txdb.pdb .hashBestChain = _ at hkey
    rw [hatt.bestKey] at hkey
    simp only [Node.setBest, List.head?_cons, Option.map_some, Option.some.injEq,
      DbValue.hash.injEq] at hkey
    exact tree.hash_injOn (tree.mem_of_suffix he hq hne) he hkey
  · rintro rfl
    exact hatt.consistent he hb hgenesis

theorem activeBatch_attach {io : Io} {b : Block} {pindexNew : BlockPtr} {m n n' : Node}
    (h : (attach P io b pindexNew m).run n = (none, n')) : n'.txdb.activeBatch = none := by
  unfold attach at h
  split at h
  · unfold setGenesis at h
    rw [Step.run_bind_of_some (Step.run_modify _ _)] at h
    rcases Step.run_bind_eq_none.mp h with h₁ | ⟨_, _, _, h₂⟩
    · unfold txnCommit at h₁
      rw [Step.run_bind_of_some (Step.run_modify _ _)] at h₁
      obtain rfl := congrArg Prod.snd h₁
      exact TxDB.activeBatch_txnCommit _ _
    · cases h₂
  · split at h
    · exact activeBatch_setBestChainInner h
    · unfold switchBranch at h
      rcases Step.run_bind_eq_none.mp h with h₁ | ⟨_, n₁, _, h₂⟩
      · obtain ⟨n₁, _, rfl⟩ := Step.run_onFail_eq_none.mp h₁
        exact activeBatch_invalidChainFound n₁ pindexNew
      · exact absurd h₂ ((Step.total_forEachWhile _ _).not_fails _ _)

theorem Consistent.of_sameMemory {n n' : Node} (hn : Consistent tree n) (hmem : SameMemory n n')
    (hbatch : n'.txdb.activeBatch = none) (hindex : readTxIndex n'.txdb = readTxIndex n.txdb)
    (hkey : n'.txdb.pdb .hashBestChain = n.txdb.pdb .hashBestChain) : Consistent tree n' := by
  obtain ⟨hbest, hhash, hgenesis, ⟨hconn, hix⟩, _, hbestKey, hnext⟩ := hn
  rw [← hmem.pindexBest] at hbest hhash hgenesis hconn hix hbestKey hnext
  exact ⟨hbest, hmem.hashBestChain.trans hhash, hmem.pindexGenesisBlock.trans hgenesis,
    ⟨⟨hconn, hindex.trans hix⟩, hbatch, hkey.trans hbestKey, hmem.pnext.trans hnext⟩⟩

theorem Consistent.of_failed {io : Io} {b : Block} {pindexNew : BlockPtr} {n n' : Node}
    (hn : Consistent tree n) (h : (setBestChain P io b pindexNew).run n = (none, n')) :
    Consistent tree n' := by
  rcases discarded_setBestChain h with rfl | hd
  · exact hn
  have hmem : SameMemory n n' := (sameMemory_txnBegin n).trans hd.memory
  have hpdb : ∀ k, k ≠ .bnBestInvalidTrust → n'.txdb.pdb k = n.txdb.pdb k := hd.pdb rfl
  have hbatch : n'.txdb.activeBatch = none := by
    unfold setBestChain at h
    rcases Step.run_bind_eq_none.mp h with h₁ | ⟨_, n₁, h₁, h₂⟩
    · obtain rfl : n = n' := congrArg Prod.snd h₁
      exact hn.attached.activeBatch
    · rw [Step.run_bind_of_some (Step.run_modify _ _), Step.run_bind_of_some (Step.run_read _ _)]
        at h₂
      rcases Step.run_bind_eq_none.mp h₂ with h₃ | ⟨_, _, _, h₄⟩
      · exact activeBatch_attach h₃
      · cases h₄
  refine hn.of_sameMemory hmem hbatch ?_ (hpdb _ (by simp))
  funext hash
  rw [readTxIndex_eq_view, readTxIndex_eq_view, TxDB.view, TxDB.view, hbatch,
    hn.attached.activeBatch]
  exact congrArg (Option.bind · asTxIndex) (hpdb _ (by simp))

namespace Sample

/-- Two blocks on top of `first`, of which the other pays itself one bean too many. -/
def second : Block := block 2 (first.hash params) [beanbase 2 2 [out 1000]]

def overpaid : Block := block 3 (first.hash params) [beanbase 3 2 [out 100001]]

def forkBlocks : List Block := [genesis, first, second, overpaid]

def forkFiles : Files := Sample.files forkBlocks (by decide +kernel)

def forkTree : BlockTree params forkFiles :=
  BlockTree.ofList [[entry genesis], [entry first, entry genesis],
    [entry second, entry first, entry genesis], [entry overpaid, entry first, entry genesis]]
    (by decide +kernel)

theorem readsFrom_fork : (io forkBlocks forkFiles).ReadsFrom forkTree :=
  readsFrom_io (by decide +kernel)

theorem injOn_fork : forkTree.txs.InjOn params.txHash := injOn_txs (by decide +kernel)

theorem consistent_node : Consistent forkTree node where
  best := Or.inr (BlockTree.mem_ofList.mpr (by decide +kernel))
  hashBestChain := rfl
  pindexGenesisBlock := rfl
  attached := ⟨⟨trivial, rfl⟩, rfl, rfl, rfl⟩

end Sample

open Sample in
/-- The branch of `first` has more trust than the genesis block already, so that `second` is
postponed; its reconnect succeeds. -/
theorem setBestChain_consistent_iff_second :
    let x := setBestChain params (io forkBlocks forkFiles) second
      [entry second, entry first, entry genesis]
    Consistent forkTree (x.run node).2 := by
  intro x
  have hrun : (x.run node).1 = some () := by decide +kernel
  refine (setBestChain_consistent_iff injOn_fork readsFrom_fork
    (BlockTree.mem_ofList.mpr (by decide +kernel)) rfl consistent_node (Prod.ext hrun rfl)).mpr ?_
  decide +kernel

open Sample in
/-- The reconnect of the block that overpays fails, and it is the best block all the same. -/
theorem setBestChain_inconsistent_overpaid :
    let x := setBestChain params (io forkBlocks forkFiles) overpaid
      [entry overpaid, entry first, entry genesis]
    Consistent forkTree node ∧ (x.run node).1 = some () ∧
      (x.run node).2.pindexBest = [entry overpaid, entry first, entry genesis] ∧
      (x.run node).2.txdb.pdb .hashBestChain = some (.hash (entry first).phashBlock) ∧
      ¬Consistent forkTree (x.run node).2 := by
  intro x
  have hkey : (x.run node).2.txdb.pdb .hashBestChain = some (.hash (entry first).phashBlock) := by
    decide +kernel
  refine ⟨consistent_node, by decide +kernel, by decide +kernel, hkey, fun h => ?_⟩
  have hbest := h.attached.bestKey
  rw [hkey] at hbest
  revert hbest
  decide +kernel

end Beancash
