import Beancash.BlockTree
import Beancash.FailedSwitch

/-!
# Switching branches

A reorganisation disconnects the old branch block by block down to the fork and
connects the new one up from it. What connecting and disconnecting a block keeps of
a branch (`BranchInvariant`), a whole reorganisation keeps (`reorganize`). The first such
invariant is that the index is that of the branch (`OnBranch`).
-/

namespace Beancash

open Fallible Ledger

namespace BlockPtr

theorem findFork_eq_some {plonger pfork q : BlockPtr} (h : findFork plonger pfork = some q) :
    q <:+ plonger ∧ q <:+ pfork ∧ q ≠ [] := by
  induction pfork generalizing plonger with
  | nil => cases h
  | cons e pfork ih =>
    simp only [findFork] at h
    have hdrop := List.drop_suffix (plonger.length - (e :: pfork).length) plonger
    split at h
    · rename_i heq
      obtain rfl := Option.some_injective _ h
      exact ⟨heq ▸ hdrop, List.suffix_rfl, by simp⟩
    · obtain ⟨hq, hq', hne⟩ := ih h
      exact ⟨hq.trans hdrop, hq'.trans (List.suffix_cons e pfork), hne⟩

theorem suffix_findFork {plonger pfork q r : BlockPtr} (h : findFork plonger pfork = some q)
    (hr : r <:+ plonger) (hr' : r <:+ pfork) : r <:+ q := by
  induction pfork generalizing plonger with
  | nil => cases h
  | cons e pfork ih =>
    simp only [findFork] at h
    have hlen := hr'.length_le
    have hdrop : r <:+ plonger.drop (plonger.length - (e :: pfork).length) := by
      refine List.suffix_of_suffix_length_le hr (List.drop_suffix _ plonger) ?_
      rw [List.length_drop]
      have hle := hr.length_le
      omega
    split at h
    · obtain rfl := Option.some_injective _ h
      exact hr'
    · rename_i hne
      rcases List.suffix_cons_iff.mp hr' with rfl | hr'
      · refine absurd (hdrop.eq_of_length_le ?_).symm hne
        rw [List.length_drop]
        omega
      · exact ih h hdrop hr'

theorem downTo_self (q : BlockPtr) : downTo q q = [] := by
  cases q with
  | nil => rfl
  | cons e q => rw [downTo, if_pos rfl]

theorem downTo_cons {q p : BlockPtr} {e : BlockIndex} (hq : q <:+ p) (hne : q ≠ []) :
    ∃ d p', p = d :: p' ∧ downTo q (e :: p) = (e :: p) :: downTo q p := by
  cases p with
  | nil => exact absurd (List.suffix_nil.mp hq) hne
  | cons d p =>
    refine ⟨d, p, rfl, ?_⟩
    have hlen := hq.length_le
    rw [downTo, if_neg]
    rintro rfl
    simp only [List.length_cons] at hlen
    omega

/-- The pointers of a list go up, each the child of the one before, from `i` to `p`. -/
def Ascends (i : BlockPtr) : List BlockPtr → BlockPtr → Prop
  | [], p => p = i
  | c :: l, p => c ≠ [] ∧ pprev c = i ∧ Ascends c l p

theorem Ascends.suffix {i p : BlockPtr} {l : List BlockPtr} (h : Ascends i l p) : i <:+ p := by
  induction l generalizing i with
  | nil =>
    obtain rfl : p = i := h
    exact List.suffix_rfl
  | cons c l ih =>
    obtain ⟨_, rfl, hasc⟩ := h
    exact (List.tail_suffix c).trans (ih hasc)

theorem Ascends.concat {i p : BlockPtr} {l : List BlockPtr} (h : Ascends i l p) (e : BlockIndex) :
    Ascends i (l ++ [e :: p]) (e :: p) := by
  induction l generalizing i with
  | nil =>
    obtain rfl : p = i := h
    exact ⟨by simp, rfl, rfl⟩
  | cons c l ih => exact ⟨h.1, h.2.1, ih h.2.2⟩

theorem postpone_spec (nBestTrust : Uint256) (p : BlockPtr) :
    (postpone nBestTrust p).1 <:+ p ∧ (p ≠ [] → (postpone nBestTrust p).1 ≠ []) ∧
      Ascends (postpone nBestTrust p).1 (postpone nBestTrust p).2 p := by
  induction p with
  | nil => exact ⟨List.suffix_rfl, fun h => h, rfl⟩
  | cons e p ih =>
    cases p with
    | nil => exact ⟨List.suffix_rfl, fun h => h, rfl⟩
    | cons d p =>
      rw [postpone]
      split
      · exact ⟨ih.1.trans (List.suffix_cons e _), fun _ => ih.2.1 (by simp), ih.2.2.concat e⟩
      · exact ⟨List.suffix_rfl, fun h => h, rfl⟩

end BlockPtr

variable {P : Params} {files : Files} {tree : BlockTree P files}

/-- Neither the transaction index nor the money supply of the blocks of `p` is touched. -/
structure SameLedger (p : BlockPtr) (n n' : Node) : Prop where
  index : readTxIndex n'.txdb = readTxIndex n.txdb
  supply : ∀ q, q <:+ p → n'.nMoneySupply (BlockPtr.hash q) = n.nMoneySupply (BlockPtr.hash q)

/-- `I p n` holds when the blocks of `p` are connected, as far as `I` is concerned. -/
structure BranchInvariant (tree : BlockTree P files) (I : BlockPtr → Node → Prop) : Prop where
  connect : ∀ {io : BlockIo} {e d p b n n'}, io.ReadsTxs files → e :: d :: p ∈ tree.entries →
    files.blockOf e = some b → I (d :: p) n →
    (connectBlock P io b false (e :: d :: p)).run n = (some (), n') → I (e :: d :: p) n'
  disconnect : ∀ {io : BlockIo} {e d p b n n'}, e :: d :: p ∈ tree.entries →
    files.blockOf e = some b → I (e :: d :: p) n →
    (disconnectBlock P io b (e :: d :: p)).run n = (some (), n') → I (d :: p) n'
  frame : ∀ {p n n'}, SameLedger p n n' → I p n → I p n'

/-- What is read from the disk was written there. -/
structure Io.ReadsFrom (io : Io) (tree : BlockTree P files) : Prop where
  readBlock : ∀ {e p b}, e :: p ∈ tree.entries → (io.block e.phashBlock).readBlock = some b →
    files.blockOf e = some b
  readTx : ∀ hash, (io.block hash).ReadsTxs files

theorem Io.ReadsFrom.readFromDisk {io : Io} (hio : io.ReadsFrom tree) {e : BlockIndex}
    {p : BlockPtr} {b : Block} (he : e :: p ∈ tree.entries)
    (h : (io.block e.phashBlock).readFromDisk P (e :: p) = some b) : files.blockOf e = some b :=
  hio.readBlock he (Option.filter_eq_some_iff.mp h).1

/-- The transactions of the block of an entry. -/
def vtxOf (files : Files) (pindex : BlockPtr) : List Transaction :=
  (pindex.head?.bind files.blockOf).elim [] Block.vtx

theorem vtxOf_cons {e : BlockIndex} {p : BlockPtr} {b : Block} (hb : files.blockOf e = some b) :
    vtxOf files (e :: p) = b.vtx := by
  rw [vtxOf, List.head?_cons, Option.bind_some, hb, Option.elim_some]

def resurrectable (txs : List Transaction) : List Transaction :=
  txs.filter fun tx => !(tx.isBeanBase || tx.isBeanStake)

section Loops

variable {io : Io} (hio : io.ReadsFrom tree)

include hio

theorem disconnectOld_eq_some {e : BlockIndex} {p : BlockPtr} {n n' : Node}
    {txs : List Transaction} (he : e :: p ∈ tree.entries)
    (h : (disconnectOld P io (e :: p)).run n = (some txs, n')) :
    ∃ b, files.blockOf e = some b ∧
      (disconnectBlock P (io.block e.phashBlock) b (e :: p)).run n = (some (), n') ∧
      txs = resurrectable (vtxOf files (e :: p)) := by
  unfold disconnectOld at h
  obtain ⟨b, n₁, h₁, h₂⟩ := Step.run_bind_eq_some.mp h
  obtain ⟨hread, rfl⟩ := Step.run_ofOption_eq_some.mp h₁
  obtain ⟨_, n₂, hrun, h₃⟩ := Step.run_bind_eq_some.mp h₂
  cases h₃
  have hb := hio.readFromDisk he hread
  rw [vtxOf_cons hb]
  exact ⟨b, hb, hrun, rfl⟩

theorem connectNew_eq_some {e : BlockIndex} {p : BlockPtr} {n n' : Node}
    {txs : List Transaction} (he : e :: p ∈ tree.entries)
    (h : (connectNew P io (e :: p)).run n = (some txs, n')) :
    ∃ b, files.blockOf e = some b ∧
      (connectBlock P (io.block e.phashBlock) b false (e :: p)).run n = (some (), n') ∧
      txs = vtxOf files (e :: p) := by
  unfold connectNew at h
  obtain ⟨b, n₁, h₁, h₂⟩ := Step.run_bind_eq_some.mp h
  obtain ⟨hread, rfl⟩ := Step.run_ofOption_eq_some.mp h₁
  obtain ⟨_, n₂, hrun, h₃⟩ := Step.run_bind_eq_some.mp h₂
  cases h₃
  have hb := hio.readFromDisk he hread
  rw [vtxOf_cons hb]
  exact ⟨b, hb, hrun, rfl⟩

end Loops

/-- Down from `p` to `q`: what each block takes a step down, the loop takes all the way. -/
theorem collect_downTo {α : Type} {I : BlockPtr → Node → Prop} {f : BlockPtr → Step Node α}
    {g : BlockPtr → α}
    (hstep : ∀ {e d p n n' a}, e :: d :: p ∈ tree.entries → I (e :: d :: p) n →
      (f (e :: d :: p)).run n = (some a, n') → I (d :: p) n' ∧ a = g (e :: d :: p))
    {p q : BlockPtr} {n n' : Node} {as : List α} (hp : p ∈ tree.entries) (hq : q <:+ p)
    (hne : q ≠ []) (hn : I p n)
    (h : (Step.collect f (BlockPtr.downTo q p)).run n = (some as, n')) :
    I q n' ∧ as = (BlockPtr.downTo q p).map g := by
  induction p generalizing n as with
  | nil => exact absurd rfl (BlockTree.ne_nil hp)
  | cons e p ih =>
    rcases List.suffix_cons_iff.mp hq with rfl | hq
    · rw [BlockPtr.downTo_self] at h ⊢
      cases h
      exact ⟨hn, rfl⟩
    · obtain ⟨d, p, rfl, hdown⟩ := BlockPtr.downTo_cons (e := e) hq hne
      rw [hdown] at h ⊢
      obtain ⟨a, n₁, h₁, h⟩ := Step.run_bind_eq_some.mp h
      obtain ⟨rest, n₂, h₂, h⟩ := Step.run_bind_eq_some.mp h
      cases h
      obtain ⟨hn₁, rfl⟩ := hstep hp hn h₁
      obtain ⟨hn₂, rfl⟩ := ih (tree.parent hp) hq hn₁ h₂
      exact ⟨hn₂, rfl⟩

theorem collect_upTo {α : Type} {I : BlockPtr → Node → Prop} {f : BlockPtr → Step Node α}
    {g : BlockPtr → α} {p q : BlockPtr}
    (hstep : ∀ {e d c n n' a}, e :: d :: c ∈ tree.entries → e :: d :: c <:+ p → q <:+ d :: c →
      I (d :: c) n → (f (e :: d :: c)).run n = (some a, n') →
      I (e :: d :: c) n' ∧ a = g (e :: d :: c))
    {n n' : Node} {as : List α} (hp : p ∈ tree.entries) (hq : q <:+ p) (hne : q ≠ [])
    (hn : I q n) (h : (Step.collect f (BlockPtr.downTo q p).reverse).run n = (some as, n')) :
    I p n' ∧ as = (BlockPtr.downTo q p).reverse.map g := by
  induction p generalizing n' as with
  | nil => exact absurd rfl (BlockTree.ne_nil hp)
  | cons e p ih =>
    rcases List.suffix_cons_iff.mp hq with rfl | hq
    · rw [BlockPtr.downTo_self] at h ⊢
      cases h
      exact ⟨hn, rfl⟩
    · obtain ⟨d, p, rfl, hdown⟩ := BlockPtr.downTo_cons (e := e) hq hne
      rw [hdown, List.reverse_cons] at h ⊢
      obtain ⟨rest, n₁, a, h₁, h₂, rfl⟩ := Step.run_collect_concat_eq_some h
      obtain ⟨hn₁, rfl⟩ := ih (fun hmem hsuf => hstep hmem (hsuf.trans (List.suffix_cons e _)))
        (tree.parent hp) hq h₁
      obtain ⟨hn₂, rfl⟩ := hstep hp List.suffix_rfl hq hn₁ h₂
      exact ⟨hn₂, by rw [List.map_append]; rfl⟩

section Invariant

variable {I : BlockPtr → Node → Prop} (hI : BranchInvariant tree I) {io : Io}
  (hio : io.ReadsFrom tree)

include hI hio

theorem BranchInvariant.disconnectOld {e d : BlockIndex} {p : BlockPtr} {n n' : Node}
    {txs : List Transaction} (he : e :: d :: p ∈ tree.entries) (hn : I (e :: d :: p) n)
    (h : (disconnectOld P io (e :: d :: p)).run n = (some txs, n')) :
    I (d :: p) n' ∧ txs = resurrectable (vtxOf files (e :: d :: p)) := by
  obtain ⟨b, hb, hrun, htxs⟩ := disconnectOld_eq_some hio he h
  exact ⟨hI.disconnect he hb hn hrun, htxs⟩

theorem BranchInvariant.connectNew {e d : BlockIndex} {p : BlockPtr} {n n' : Node}
    {txs : List Transaction} (he : e :: d :: p ∈ tree.entries) (hn : I (d :: p) n)
    (h : (connectNew P io (e :: d :: p)).run n = (some txs, n')) :
    I (e :: d :: p) n' ∧ txs = vtxOf files (e :: d :: p) := by
  obtain ⟨b, hb, hrun, htxs⟩ := connectNew_eq_some hio he h
  exact ⟨hI.connect (hio.readTx _) he hb hn hrun, htxs⟩

theorem BranchInvariant.collect_disconnectOld {p q : BlockPtr} {n n' : Node}
    {vResurrect : List (List Transaction)} (hp : p ∈ tree.entries) (hq : q <:+ p) (hne : q ≠ [])
    (hn : I p n) (h : (Step.collect (Beancash.disconnectOld P io) (BlockPtr.downTo q p)).run n =
      (some vResurrect, n')) :
    I q n' ∧ vResurrect = (BlockPtr.downTo q p).map fun c => resurrectable (vtxOf files c) :=
  collect_downTo (hI.disconnectOld hio) hp hq hne hn h

theorem BranchInvariant.collect_connectNew {p q : BlockPtr} {n n' : Node}
    {vDelete : List (List Transaction)} (hp : p ∈ tree.entries) (hq : q <:+ p) (hne : q ≠ [])
    (hn : I q n) (h : (Step.collect (Beancash.connectNew P io) (BlockPtr.downTo q p).reverse).run n =
      (some vDelete, n')) :
    I p n' ∧ vDelete = (BlockPtr.downTo q p).reverse.map (vtxOf files) :=
  collect_upTo (fun he _ _ => hI.connectNew hio he) hp hq hne hn h

end Invariant

theorem txnCommit_eq_some {ok : Bool} {n n' : Node} {u : Unit}
    (h : (txnCommit ok).run n = (some u, n')) :
    ok = true ∧ n' = { n with txdb := n.txdb.txnCommit true } := by
  unfold txnCommit at h
  rw [Step.run_bind_of_some (Step.run_modify _ _)] at h
  obtain ⟨rfl, rfl⟩ := Step.run_guard_eq_some.mp h
  exact ⟨rfl, rfl⟩

theorem readTxIndex_txnCommit (db : ChainDB) :
    readTxIndex (db.txnCommit true) = readTxIndex db := by
  funext hash
  rw [readTxIndex_eq_view, readTxIndex_eq_view, TxDB.view_txnCommit]

/-- The database after a commit: no batch, and the best chain that was written last. -/
structure CommittedBest (hash : Uint256) (n : Node) : Prop where
  activeBatch : n.txdb.activeBatch = none
  bestKey : n.txdb.pdb .hashBestChain = some (.hash hash)

/-- The node after `WriteHashBestChain` and a commit. -/
def Node.commitBest (n : Node) (hash : Uint256) : Node :=
  { n with txdb := (n.writeHashBestChain hash).txdb.txnCommit true }

theorem sameLedger_commitBest (p : BlockPtr) (n : Node) (hash : Uint256) :
    SameLedger p n (n.commitBest hash) :=
  ⟨(readTxIndex_txnCommit _).trans (readTxIndex_writeHashBestChain n hash), fun _ _ => rfl⟩

theorem committedBest_commitBest (n : Node) (hash : Uint256) :
    CommittedBest hash (n.commitBest hash) := by
  refine ⟨TxDB.activeBatch_txnCommit _ _, ?_⟩
  rw [Node.commitBest, TxDB.pdb_txnCommit, Node.writeHashBestChain, TxDB.view_write,
    Function.update_self]

theorem sameMemory_commitBest (n : Node) (hash : Uint256) : SameMemory n (n.commitBest hash) :=
  ⟨rfl, rfl, rfl, rfl, rfl, rfl, rfl⟩

/-- What `Reorganize` has done when its commit has succeeded. -/
structure Reorganized (files : Files) (pindexNew : BlockPtr) (vDisconnect vConnect : List BlockPtr)
    (vResurrect vDelete : List (List Transaction)) (n n' : Node) : Prop where
  committed : CommittedBest (BlockPtr.hash pindexNew) n'
  memory : SameMemory n n'
  vResurrect : vResurrect = vDisconnect.map fun c => resurrectable (vtxOf files c)
  vDelete : vDelete = vConnect.map (vtxOf files)

theorem BranchInvariant.reorganizeDb {I : BlockPtr → Node → Prop} (hI : BranchInvariant tree I)
    {io : Io} (hio : io.ReadsFrom tree) {p q pindexNew : BlockPtr} {n n' : Node}
    {vResurrect vDelete : List (List Transaction)} (hp : p ∈ tree.entries)
    (hnew : pindexNew ∈ tree.entries) (hq : q <:+ p) (hq' : q <:+ pindexNew) (hne : q ≠ [])
    (hn : I p n)
    (h : (Beancash.reorganizeDb P io pindexNew (BlockPtr.downTo q p)
      (BlockPtr.downTo q pindexNew).reverse).run n = (some (vResurrect, vDelete), n')) :
    I pindexNew n' ∧ Reorganized files pindexNew (BlockPtr.downTo q p)
      (BlockPtr.downTo q pindexNew).reverse vResurrect vDelete n n' := by
  unfold Beancash.reorganizeDb at h
  obtain ⟨_, n₁, h₁, h⟩ := Step.run_bind_eq_some.mp h
  obtain ⟨_, n₂, h₂, h⟩ := Step.run_bind_eq_some.mp h
  rw [Step.run_bind_of_some (Step.run_modify _ _)] at h
  obtain ⟨_, n₃, h₃, h⟩ := Step.run_bind_eq_some.mp h
  cases h
  obtain ⟨_, rfl⟩ := txnCommit_eq_some h₃
  obtain ⟨hn₁, hr⟩ := hI.collect_disconnectOld hio hp hq hne hn h₁
  obtain ⟨hn₂, hd⟩ := hI.collect_connectNew hio hnew hq' hne hn₁ h₂
  have hmem₁ := ((Step.Keeps.collect fun c _ => keeps_disconnectOld P io c).returnKeeps _ _ _ h₁).memory
  have hmem₂ := ((Step.Keeps.collect fun c _ => keeps_connectNew P io c).returnKeeps _ _ _ h₂).memory
  exact ⟨hI.frame (sameLedger_commitBest _ n₂ _) hn₂, committedBest_commitBest n₂ _,
    (hmem₁.trans hmem₂).trans (sameMemory_commitBest n₂ _), hr, hd⟩

/-- Links and pool aside, the node is the same. -/
def SameButLinksAndPool (n n' : Node) : Prop :=
  n' = { n with pnext := n'.pnext, mempool := n'.mempool }

theorem SameButLinksAndPool.trans {a b c : Node} (h : SameButLinksAndPool a b)
    (h' : SameButLinksAndPool b c) : SameButLinksAndPool a c := by
  unfold SameButLinksAndPool at h h' ⊢
  rw [h] at h'
  exact h'

theorem sameButLinksAndPool_foldl {α : Type} {f : Node → α → Node}
    (hf : ∀ n a, SameButLinksAndPool n (f n a)) (l : List α) (n : Node) :
    SameButLinksAndPool n (l.foldl f n) := by
  induction l generalizing n with
  | nil => rfl
  | cons a l ih => exact (hf n a).trans (ih (f n a))

theorem sameButLinksAndPool_linkParent (n : Node) (pindex pnext : BlockPtr) :
    SameButLinksAndPool n (n.linkParent pindex pnext) := by
  unfold Node.linkParent
  split <;> rfl

theorem sameButLinksAndPool_reorganizeMemory (P : Params) (vDisconnect vConnect : List BlockPtr)
    (vResurrect vDelete : List Transaction) (n : Node) :
    SameButLinksAndPool n (reorganizeMemory P vDisconnect vConnect vResurrect vDelete n) := by
  unfold reorganizeMemory
  refine (sameButLinksAndPool_foldl (fun n c => ?_) _ _).trans
    ((sameButLinksAndPool_foldl (fun n c => ?_) _ _).trans
      ((sameButLinksAndPool_foldl (fun n tx => ?_) _ _).trans
        (sameButLinksAndPool_foldl (fun n tx => ?_) _ _)))
  · exact sameButLinksAndPool_linkParent n c []
  · exact sameButLinksAndPool_linkParent n c c
  · rfl
  · rfl

theorem pnext_foldl {α : Type} {f : Node → α → Node} (hf : ∀ n a, (f n a).pnext = n.pnext)
    (l : List α) (n : Node) : (l.foldl f n).pnext = n.pnext := by
  induction l generalizing n with
  | nil => rfl
  | cons a l ih => exact (ih (f n a)).trans (hf n a)

theorem pnext_reorganizeMemory (P : Params) (vDisconnect vConnect : List BlockPtr)
    (vResurrect vDelete : List Transaction) (n : Node) :
    (reorganizeMemory P vDisconnect vConnect vResurrect vDelete n).pnext =
      (vConnect.foldl (fun n c => n.linkParent c c)
        (vDisconnect.foldl (fun n c => n.linkParent c []) n)).pnext := by
  have hdelete : ∀ n (tx : Transaction),
      (Node.removeConflictsFromPool P (Node.removeFromPool P n tx) tx).pnext = n.pnext :=
    fun _ _ => rfl
  have hresurrect : ∀ n (tx : Transaction), (Node.resurrect P n tx).pnext = n.pnext :=
    fun _ _ => rfl
  exact (pnext_foldl hdelete vDelete _).trans (pnext_foldl hresurrect vResurrect _)

theorem SameButLinksAndPool.sameLedger {n n' : Node} (h : SameButLinksAndPool n n')
    (p : BlockPtr) : SameLedger p n n' := by
  unfold SameButLinksAndPool at h
  constructor <;> rw [h]
  exact fun _ _ => rfl

/-- `Reorganize`: the database part up to the fork and down from it, then the memory. -/
theorem BranchInvariant.reorganize {I : BlockPtr → Node → Prop} (hI : BranchInvariant tree I)
    {io : Io} (hio : io.ReadsFrom tree) {pindexNew : BlockPtr} {n n' : Node} {u : Unit}
    (hp : n.pindexBest ∈ tree.entries) (hnew : pindexNew ∈ tree.entries) (hn : I n.pindexBest n)
    (h : (Beancash.reorganize P io pindexNew).run n = (some u, n')) :
    I pindexNew n' ∧ ∃ q n₁ vResurrect vDelete, q <:+ n.pindexBest ∧ q <:+ pindexNew ∧ q ≠ [] ∧
      Reorganized files pindexNew (BlockPtr.downTo q n.pindexBest)
        (BlockPtr.downTo q pindexNew).reverse vResurrect vDelete n n₁ ∧
      n' = reorganizeMemory P (BlockPtr.downTo q n.pindexBest)
        (BlockPtr.downTo q pindexNew).reverse vResurrect.flatten vDelete.flatten n₁ := by
  unfold Beancash.reorganize at h
  rw [Step.run_bind_of_some (Step.run_read _ _)] at h
  obtain ⟨q, n₁, h₁, h₂⟩ := Step.run_bind_eq_some.mp h
  obtain ⟨hfork, rfl⟩ := Step.run_ofOption_eq_some.mp h₁
  obtain ⟨⟨vResurrect, vDelete⟩, n₂, h₃, h₄⟩ := Step.run_bind_eq_some.mp h₂
  cases h₄
  obtain ⟨hq', hq, hne⟩ := BlockPtr.findFork_eq_some hfork
  obtain ⟨hn₂, hr⟩ := hI.reorganizeDb hio hp hnew hq hq' hne hn h₃
  refine ⟨hI.frame ((sameButLinksAndPool_reorganizeMemory P _ _ _ _ n₂).sameLedger _) hn₂, q, n₂,
    vResurrect, vDelete, hq, hq', hne, hr, rfl⟩

/-- `SetBestChainInner` connects the block, commits, and clears the pool of its transactions. -/
theorem setBestChainInner_eq_some {io : BlockIo} {b : Block} {pindexNew : BlockPtr} {n n' : Node}
    {u : Unit} (h : (setBestChainInner P io b pindexNew).run n = (some u, n')) :
    ∃ n₁, (connectBlock P io b false pindexNew).run n = (some (), n₁) ∧
      n' = b.vtx.foldl (Node.removeFromPool P)
        ((n₁.commitBest (b.hash P)).linkParent pindexNew pindexNew) := by
  unfold setBestChainInner at h
  obtain ⟨_, n₁, h₁, h₂⟩ := Step.run_bind_eq_some.mp h
  obtain ⟨_, n₂, h₃, h₄⟩ := Step.run_bind_eq_some.mp (Step.run_onFail_eq_some.mp h₁)
  obtain rfl := congrArg Prod.snd h₄
  obtain ⟨_, n₃, h₅, h₆⟩ := Step.run_bind_eq_some.mp h₂
  obtain ⟨_, rfl⟩ := txnCommit_eq_some h₅
  obtain rfl := congrArg Prod.snd h₆
  exact ⟨n₂, h₃, rfl⟩

theorem connectBlock_memory {io : BlockIo} {b : Block} {pindex : BlockPtr} {n n' : Node} {u : Unit}
    (h : (connectBlock P io b false pindex).run n = (some u, n')) : SameMemory n n' :=
  ((keeps_connectBlock P io b false pindex).returnKeeps _ _ _ h).memory

/-- The index, as a reader of the database sees it, is that of the connected branch `p`. -/
structure OnBranch (P : Params) (files : Files) (p : BlockPtr) (n : Node) : Prop where
  connectable : ChainConnectable P files p
  index : readTxIndex n.txdb = chainIndex P files p

theorem onBranch_invariant (hnew : tree.BringsNewTxids) :
    BranchInvariant tree (OnBranch P files) where
  connect {io e d p b n n'} _ he hb hn h := by
    obtain ⟨s, hs, _, hix⟩ := connectBlock_eq_some h
    have hc := connectBlockChecks_eq_some (InputView.values_value _) hs
    have hspend : SpendableAll (chainIndex P files (d :: p)) (blockLedger P e b) := by
      rw [← hn.index]
      exact hc.spendable
    refine ⟨(chainConnectable_cons hb).mpr ⟨hn.connectable, hnew he hb hn.connectable hspend⟩, ?_⟩
    rw [hix, hn.index, chainIndex_cons hb]
  disconnect {io e d p b n n'} _ hb hn h := by
    obtain ⟨hconn, hc⟩ := (chainConnectable_cons hb).mp hn.connectable
    refine ⟨hconn, ?_⟩
    rw [disconnectBlock_eq_some h, hn.index, chainIndex_cons hb, disconnectAll_connectAll hc]
  frame h hn := ⟨hn.connectable, h.index.trans hn.index⟩

theorem Io.readsFrom_ofListAt {P : Params} {files : Files} {nAdjustedTime : ℤ}
    {l : List BlockPtr} {hl : l.all (entryCheckAt P nAdjustedTime files l) = true} {io : Io}
    (h : l.all (fun p => p.head?.all fun e =>
      decide ((io.block e.phashBlock).readBlock = files.blockOf e)) = true)
    (htx : ∀ hash, (io.block hash).readTx = files.txAt) :
    io.ReadsFrom (BlockTree.ofListAt nAdjustedTime l hl) where
  readBlock he hb := by
    have hsame := List.all_eq_true.mp h _ he
    rw [List.head?_cons, Option.all_some, decide_eq_true_eq] at hsame
    rw [← hsame]
    exact hb
  readTx hash pos tx hread := by
    rw [htx] at hread
    exact hread

namespace Sample

/-- A disk on which all blocks of a list can be read. -/
def io (blocks : List Block) (files : Files) : Io where
  txnBegin := true
  txnCommit := true
  block hash := { blockIo with
    readBlock := blocks.find? fun b => decide (b.hash params = hash)
    readTx := files.txAt }

theorem readsFrom_io {blocks : List Block} {files : Files} {l : List BlockPtr}
    {hl : l.all (entryCheck params files l) = true}
    (h : l.all (fun p => p.head?.all fun e =>
      decide (((io blocks files).block e.phashBlock).readBlock = files.blockOf e)) = true) :
    (io blocks files).ReadsFrom (BlockTree.ofList l hl) :=
  Io.readsFrom_ofListAt h fun _ => rfl

theorem mem_vtx_of_mem_txs {blocks : List Block}
    {hfiles : ∀ b ∈ blocks, (entry b).nBlockPos.toNat + b.serializeSize < 2 ^ 32}
    {tree : BlockTree params (Sample.files blocks hfiles)} {tx : Transaction} (h : tx ∈ tree.txs) :
    tx ∈ blocks.flatMap Block.vtx := by
  obtain ⟨e, p, b, _, hb, htx⟩ := h
  exact List.mem_flatMap.mpr ⟨b, List.mem_of_find?_eq_some hb, htx⟩

theorem injOn_txs {blocks : List Block}
    {hfiles : ∀ b ∈ blocks, (entry b).nBlockPos.toNat + b.serializeSize < 2 ^ 32}
    {tree : BlockTree params (Sample.files blocks hfiles)}
    (h : (blocks.flatMap Block.vtx).all (fun tx => (blocks.flatMap Block.vtx).all fun tx' =>
      decide (params.txHash tx = params.txHash tx' → tx = tx')) = true) :
    tree.txs.InjOn params.txHash := by
  intro tx htx tx' htx' heq
  exact of_decide_eq_true (List.all_eq_true.mp (List.all_eq_true.mp h tx (mem_vtx_of_mem_txs htx))
    tx' (mem_vtx_of_mem_txs htx')) heq

end Sample

end Beancash
