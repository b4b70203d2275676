import Beancash.AcceptBlock
import Beancash.KernelReads

namespace Beancash

open Fallible Ledger

variable {P : Params} {H : SelectionHash} {files : Files} {tree : BlockTree P files}

/-- All transactions that were ever written to the block files. -/
def Files.txs (files : Files) : Set Transaction :=
  {tx | ∃ nFile nBlockPos b, files.block nFile nBlockPos = some b ∧ tx ∈ b.vtx}

namespace BlockTree

theorem txs_subset (tree : BlockTree P files) : tree.txs ⊆ files.txs :=
  fun _ ⟨e, _, b, _, hb, htx⟩ => ⟨e.nFile, e.nBlockPos, b, hb, htx⟩

/-- What is needed of a block for it to join the tree. -/
structure Joins (tree : BlockTree P files) (e : BlockIndex) (p : BlockPtr) (b : Block) : Prop where
  parent : p ∈ tree.entries
  fresh : ∀ q ∈ tree.entries, BlockPtr.hash q ≠ e.phashBlock
  hash_ne_zero : e.phashBlock ≠ 0
  nHeight_lt : p.length < 2 ^ 31
  stored : files.blockOf e = some b
  hash : b.hash P = e.phashBlock
  header : b.header = e.header
  hashPrev : b.header.hashPrevBlock = BlockPtr.hash p
  accepted : Accepted P b p

theorem Joins.ne_genesis {e : BlockIndex} {p : BlockPtr} {b : Block} (h : tree.Joins e p b) :
    e.phashBlock ≠ P.hashGenesisBlock := by
  intro heq
  have hlen := List.length_pos_of_ne_nil (ne_nil h.parent)
  obtain ⟨g, hg⟩ := List.length_eq_one_iff.mp
    (show (p.drop (p.length - 1)).length = 1 by rw [List.length_drop]; omega)
  have hmem : [g] ∈ tree.entries :=
    hg ▸ tree.mem_of_suffix h.parent (List.drop_suffix _ p) (by rw [hg]; simp)
  exact h.fresh _ hmem (((tree.genesis hmem).mpr rfl).trans heq.symm)

def insert (tree : BlockTree P files) {e : BlockIndex} {p : BlockPtr} {b : Block}
    (h : tree.Joins e p b) : BlockTree P files where
  entries := Insert.insert (e :: p) tree.entries
  parent he := by
    rcases he with heq | he
    · exact Or.inr ((List.cons.inj heq).2 ▸ h.parent)
    · exact Or.inr (tree.parent he)
  hash_injOn := by
    intro q hq q' hq' heq
    rcases hq with rfl | hq <;> rcases hq' with rfl | hq'
    · rfl
    · exact absurd heq.symm (h.fresh q' hq')
    · exact absurd heq (h.fresh q hq)
    · exact tree.hash_injOn hq hq' heq
  hash_ne_zero hq := by
    rcases hq with rfl | hq
    · exact h.hash_ne_zero
    · exact tree.hash_ne_zero hq
  genesis he := by
    rcases he with heq | he
    · obtain ⟨rfl, rfl⟩ := List.cons.inj heq
      exact iff_of_false h.ne_genesis (ne_nil h.parent)
    · exact tree.genesis he
  nHeight_lt hq := by
    rcases hq with rfl | hq
    · exact h.nHeight_lt
    · exact tree.nHeight_lt hq
  stored he := by
    rcases he with heq | he
    · obtain ⟨rfl, rfl⟩ := List.cons.inj heq
      rw [h.stored]
      rfl
    · exact tree.stored he
  linked he hb := by
    rcases he with heq | he
    · obtain ⟨rfl, rfl⟩ := List.cons.inj heq
      obtain rfl := Option.some_injective _ (h.stored.symm.trans hb)
      exact ⟨h.hash, h.header, h.hashPrev⟩
    · exact tree.linked he hb
  accepted he hb := by
    rcases he with heq | he
    · obtain ⟨rfl, rfl⟩ := List.cons.inj heq
      obtain rfl := Option.some_injective _ (h.stored.symm.trans hb)
      exact h.accepted
    · exact tree.accepted he hb

theorem mem_insert {e : BlockIndex} {p q : BlockPtr} {b : Block} (h : tree.Joins e p b) :
    q ∈ (tree.insert h).entries ↔ q = e :: p ∨ q ∈ tree.entries := Iff.rfl

theorem IndexedBy.grow {mapBlockIndex : MapBlockIndex} (hmap : tree.IndexedBy mapBlockIndex)
    {tree' : BlockTree P files} {e : BlockIndex} {p : BlockPtr}
    (hmem : ∀ q, q ∈ tree'.entries ↔ q = e :: p ∨ q ∈ tree.entries)
    (hfresh : ∀ q ∈ tree.entries, BlockPtr.hash q ≠ e.phashBlock) :
    tree'.IndexedBy (Function.update mapBlockIndex e.phashBlock (some (e :: p))) := by
  intro hash q
  rw [hmem]
  by_cases heq : hash = e.phashBlock
  · rw [heq, Function.update_self, Option.some_inj]
    constructor
    · rintro rfl
      exact ⟨Or.inl rfl, rfl⟩
    · rintro ⟨rfl | hq, hhash⟩
      · rfl
      · exact absurd hhash (hfresh q hq)
  · rw [Function.update_of_ne heq, hmap hash q]
    constructor
    · exact fun hq => ⟨Or.inr hq.1, hq.2⟩
    · rintro ⟨rfl | hq, hhash⟩
      · exact absurd hhash.symm heq
      · exact ⟨hq, hhash⟩

theorem IndexedBy.insert {mapBlockIndex : MapBlockIndex} (hmap : tree.IndexedBy mapBlockIndex)
    {e : BlockIndex} {p : BlockPtr} {b : Block} (h : tree.Joins e p b) :
    (tree.insert h).IndexedBy (Function.update mapBlockIndex e.phashBlock (some (e :: p))) :=
  hmap.grow (fun _ => mem_insert h) h.fresh

theorem IndexedBy.eq_none {mapBlockIndex : MapBlockIndex} (hmap : tree.IndexedBy mapBlockIndex)
    {hash : Uint256} (h : mapBlockIndex hash = none) : ∀ q ∈ tree.entries, BlockPtr.hash q ≠ hash := by
  intro q hq heq
  rw [(hmap hash q).mpr ⟨hq, heq⟩] at h
  cases h

end BlockTree

theorem Consistent.mono {tree' : BlockTree P files} (h : tree.entries ⊆ tree'.entries) {n : Node}
    (hn : Consistent tree n) : Consistent tree' n :=
  ⟨hn.best.imp_right fun hmem => h hmem, hn.hashBestChain, hn.pindexGenesisBlock, hn.attached⟩

theorem Consistent.of_commit {n : Node} (hn : Consistent tree n) {k : DbKey}
    (hk : ∀ hash, k ≠ .tx hash) (hk' : k ≠ .hashBestChain) (v : DbValue) (ok : Bool) :
    Consistent tree { n with txdb := (n.txdb.txnBegin.write k v).txnCommit ok } := by
  have hpdb : ((n.txdb.txnBegin.write k v).txnCommit ok).pdb =
      if ok then Function.update n.txdb.pdb k (some v) else n.txdb.pdb := by
    cases ok <;> rfl
  have hsame : ∀ k', k' ≠ k →
      ((n.txdb.txnBegin.write k v).txnCommit ok).pdb k' = n.txdb.pdb k' := by
    intro k' hne
    rw [hpdb]
    split
    · exact Function.update_of_ne hne _ _
    · rfl
  have hbatch := TxDB.activeBatch_txnCommit (n.txdb.txnBegin.write k v) ok
  refine hn.of_sameMemory ⟨rfl, rfl, rfl, rfl, rfl, rfl, rfl⟩ hbatch ?_ (hsame _ hk'.symm)
  funext hash
  rw [readTxIndex_eq_view, readTxIndex_eq_view, TxDB.view, TxDB.view, hbatch,
    hn.attached.activeBatch]
  exact congrArg (Option.bind · asTxIndex) (hsame _ (hk hash).symm)

theorem Consistent.pnext_fresh {n : Node} (hn : Consistent tree n) {hash : Uint256}
    (hfresh : ∀ q ∈ tree.entries, BlockPtr.hash q ≠ hash) :
    Function.update n.pnext hash [] = n.pnext := by
  rw [hn.attached.pnext]
  refine Function.update_eq_self_iff.mpr (mainNext_eq_nil fun q hq hne => ?_).symm
  have hbest := hn.best.resolve_left fun hnil => by
    rw [hnil] at hq
    exact hne (List.suffix_nil.mp hq)
  exact hfresh q (tree.mem_of_suffix hbest (hq.trans (List.tail_suffix _)) hne)

theorem Consistent.insertIndex {s : IndexedNode} (hn : Consistent tree s.node) {e : BlockIndex}
    {p : BlockPtr} (hfresh : ∀ q ∈ tree.entries, BlockPtr.hash q ≠ e.phashBlock) :
    Consistent tree (s.insertIndex (e :: p)).node := by
  refine hn.of_sameMemory ⟨hn.pnext_fresh hfresh, rfl, rfl, rfl, rfl, rfl, rfl⟩
    hn.attached.activeBatch rfl rfl

theorem run_writeIndexEntry {ok : Bool} {e : BlockIndex} {p : BlockPtr} (n : Node) :
    (writeIndexEntry ok (e :: p)).run n = (if ok then some () else none,
      { n with txdb := (n.txdb.txnBegin.write (.blockindex e.phashBlock) (.blockIndex
          (n.diskBlockIndex e p (BlockPtr.hash (n.pnext e.phashBlock))))).txnCommit ok }) := rfl

theorem Consistent.writeIndexEntry {n : Node} (hn : Consistent tree n) (ok : Bool) (e : BlockIndex)
    (p : BlockPtr) : Consistent tree ((writeIndexEntry ok (e :: p)).run n).2 :=
  hn.of_commit (by simp) (by simp) _ ok

theorem newBest_cases {io : Io} {b : Block} {pindexNew : BlockPtr} {n n' : Node} {r : Option Unit}
    (h : (newBest P io b pindexNew).run n = (r, n')) :
    ¬n.nBestChainTrust < BlockPtr.nChainTrust pindexNew ∧ r = some () ∧ n' = n ∨
      n.nBestChainTrust < BlockPtr.nChainTrust pindexNew ∧
        (setBestChain P io b pindexNew).run n = (r, n') := by
  unfold newBest at h
  rw [Step.run_bind_of_some (Step.run_read _ _)] at h
  split at h
  · rename_i hlt
    exact Or.inr ⟨hlt, h⟩
  · rename_i hnot
    obtain ⟨rfl, rfl⟩ := Prod.mk.inj h
    exact Or.inl ⟨hnot, rfl, rfl⟩

/-- The entry is made or not; once it is made, it is written or not, and then `SetBestChain` may
be called. -/
theorem addToBlockIndex_cases {io : IndexIo} {nFile : FileNumber} {nBlockPos : UInt32} {b : Block}
    {hashProof : Uint256} {s s' : IndexedNode} {r : Option Unit}
    (h : (addToBlockIndex P H io nFile nBlockPos b hashProof).run s = (r, s')) :
    r = none ∧ s' = s ∨ ∃ pindexNew n', s.mapBlockIndex (b.hash P) = none ∧
      s.newBlockIndex P H nFile nBlockPos b hashProof = some pindexNew ∧
      s' = { s.insertIndex pindexNew with node := n' } ∧
      (r = none ∧ n' = (s.insertIndex pindexNew).node ∨
        r = none ∧
          n' = ((writeIndexEntry io.txnCommit pindexNew).run (s.insertIndex pindexNew).node).2 ∨
        ∃ n₁, (writeIndexEntry io.txnCommit pindexNew).run (s.insertIndex pindexNew).node =
            (some (), n₁) ∧ (newBest P io.chain b pindexNew).run n₁ = (r, n')) := by
  unfold addToBlockIndex at h
  rw [Step.run_bind_of_some (Step.run_read _ _), id_eq] at h
  cases hmap : s.mapBlockIndex (b.hash P) with
  | some p =>
    rw [hmap] at h
    obtain ⟨rfl, rfl⟩ := Prod.mk.inj h
    exact Or.inl ⟨rfl, rfl⟩
  | none =>
    rw [hmap, Step.run_bind_guard (by rfl)] at h
    cases hnew : s.newBlockIndex P H nFile nBlockPos b hashProof with
    | none =>
      rw [hnew] at h
      obtain ⟨rfl, rfl⟩ := Prod.mk.inj h
      exact Or.inl ⟨rfl, rfl⟩
    | some pindexNew =>
      rw [hnew, Step.run_bind_of_some (Step.run_ofOption _ _),
        Step.run_bind_of_some (Step.run_modify _ _)] at h
      refine Or.inr ⟨pindexNew, s'.node, rfl, rfl, ?_⟩
      cases hbegin : io.txnBegin with
      | false =>
        rw [hbegin] at h
        obtain ⟨rfl, rfl⟩ := Prod.mk.inj h
        exact ⟨rfl, Or.inl ⟨rfl, rfl⟩⟩
      | true =>
        rw [hbegin, Step.run_bind_guard rfl] at h
        rcases hwrite : (writeIndexEntry io.txnCommit pindexNew).run
          (s.insertIndex pindexNew).node with ⟨_ | u, n₁⟩
        · rw [Step.run_bind_of_none (show _ = (none, { s.insertIndex pindexNew with node := n₁ }) by
            rw [IndexedNode.run_onNode, hwrite])] at h
          obtain ⟨rfl, rfl⟩ := Prod.mk.inj h
          exact ⟨rfl, Or.inr (Or.inl ⟨rfl, rfl⟩)⟩
        · rw [Step.run_bind_of_some (show _ = (some (), { s.insertIndex pindexNew with node := n₁ })
            by rw [IndexedNode.run_onNode, hwrite])] at h
          obtain ⟨hbest, rfl⟩ := Prod.mk.inj h
          exact ⟨rfl, Or.inr (Or.inr ⟨n₁, rfl, Prod.ext hbest rfl⟩)⟩

theorem newBlockIndex_eq_some {s : IndexedNode} {nFile : FileNumber} {nBlockPos : UInt32}
    {b : Block} {hashProof : Uint256} {pindexNew : BlockPtr}
    (h : s.newBlockIndex P H nFile nBlockPos b hashProof = some pindexNew) :
    ∃ modifier, computeNextStakeModifier P H s.mapBlockIndex (s.pprev b) = .ok modifier ∧
      pindexNew = b.toIndex P nFile nBlockPos hashProof modifier.1 modifier.2 :: s.pprev b := by
  obtain ⟨modifier, hmodifier, rfl⟩ := Option.map_eq_some_iff.mp h
  refine ⟨modifier, ?_, rfl⟩
  cases hnext : computeNextStakeModifier P H s.mapBlockIndex (s.pprev b) with
  | error e =>
    rw [hnext] at hmodifier
    cases hmodifier
  | ok next =>
    rw [hnext] at hmodifier
    rw [Option.some.inj hmodifier]

/-- A block that is not refused is written to the disk before it gets into the index. -/
theorem storeBlock_cases {mode : CheckpointsMode} {io : AcceptIo} {b : Block}
    {s s' : IndexedNode} {r : Option Unit}
    (h : (storeBlock P H mode io b).run s = (r, s')) :
    r = none ∧ s' = s ∨ ∃ hashProof nFile nBlockPos,
      acceptBlockChecks P mode (io.index.chain.block (b.hash P)) s b = some hashProof ∧
      io.writeToDisk = some (nFile, nBlockPos) ∧
      (addToBlockIndex P H io.index nFile nBlockPos b hashProof).run s = (r, s') := by
  unfold storeBlock at h
  rw [Step.run_bind_of_some (Step.run_read _ _), id_eq] at h
  cases hcheck : acceptBlockChecks P mode (io.index.chain.block (b.hash P)) s b with
  | none =>
    rw [hcheck] at h
    obtain ⟨rfl, rfl⟩ := Prod.mk.inj h
    exact Or.inl ⟨rfl, rfl⟩
  | some hashProof =>
    rw [hcheck, Step.run_bind_of_some (Step.run_ofOption _ _)] at h
    cases hspace : io.checkDiskSpace with
    | false =>
      rw [hspace] at h
      obtain ⟨rfl, rfl⟩ := Prod.mk.inj h
      exact Or.inl ⟨rfl, rfl⟩
    | true =>
      rw [hspace, Step.run_bind_guard rfl] at h
      cases hwrite : io.writeToDisk with
      | none =>
        rw [hwrite] at h
        obtain ⟨rfl, rfl⟩ := Prod.mk.inj h
        exact Or.inl ⟨rfl, rfl⟩
      | some pos =>
        rw [hwrite, Step.run_bind_of_some (Step.run_ofOption _ _)] at h
        exact Or.inr ⟨hashProof, pos.1, pos.2, rfl, rfl, h⟩

/-- What is known of a block that is not refused. -/
structure Acceptable (P : Params) (mode : CheckpointsMode) (s : IndexedNode) (b : Block)
    (pindexPrev : BlockPtr) : Prop where
  fresh : s.mapBlockIndex (b.hash P) = none
  prev : s.mapBlockIndex b.header.hashPrevBlock = some pindexPrev
  work : b.isProofOfWork = true → BlockPtr.nHeight pindexPrev + 1 ≤ lastPowBlock
  sync : mode = .strict → s.checkSync P (b.hash P) pindexPrev = true
  beanbase : beanbaseHeightMatches b (BlockPtr.nHeight pindexPrev + 1) = true

theorem acceptBlockChecks_eq_some {mode : CheckpointsMode} {io : BlockIo} {s : IndexedNode}
    {b : Block} {hashProof : Uint256} (h : acceptBlockChecks P mode io s b = some hashProof) :
    ∃ pindexPrev, Acceptable P mode s b pindexPrev := by
  simp only [acceptBlockChecks, Option.bind_eq_bind, Option.bind_eq_some_iff,
    Option.guard_eq_some', Option.pure_def] at h
  obtain ⟨_, _, _, hfresh, pindexPrev, hprev, _, hwork, _, _, _, _, _, _, _, _, _, _, _, hsync,
    _, hbean, _⟩ := h
  rw [Option.isNone_iff_eq_none] at hfresh
  refine ⟨pindexPrev, hfresh, hprev, fun hpow => ?_, fun hmode => ?_, hbean⟩
  · rw [hpow] at hwork
    simpa using hwork
  · rw [hmode] at hsync
    simpa using hsync

end Beancash
