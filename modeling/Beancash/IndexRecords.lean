import Beancash.TreeGrowth

namespace Beancash

open Fallible Ledger

variable {P : Params} {files : Files} {tree : BlockTree P files}

/-- Neither a record of the index nor what the records take from memory is changed. -/
structure SameRecords (n n' : Node) : Prop where
  view : ∀ k, (∀ hash, k ≠ .tx hash) → k ≠ .hashBestChain → n'.txdb.view k = n.txdb.view k
  nMint : n'.nMint = n.nMint
  nMoneySupply : n'.nMoneySupply = n.nMoneySupply

instance : Std.Refl SameRecords := ⟨fun _ => ⟨fun _ _ _ => rfl, rfl, rfl⟩⟩

instance : IsTrans Node SameRecords where
  trans _ _ _ h h' := ⟨fun k hk hk' => (h'.view k hk hk').trans (h.view k hk hk'),
    h'.nMint.trans h.nMint, h'.nMoneySupply.trans h.nMoneySupply⟩

theorem sameRecords_updateTxIndex (n : Node) (hash : Uint256) (txindex : TxIndex) :
    SameRecords n (n.updateTxIndex hash txindex) := by
  refine ⟨fun k hk _ => ?_, rfl, rfl⟩
  rw [Node.updateTxIndex, TxDB.view_write, Function.update_of_ne (hk hash)]

theorem sameRecords_eraseTxIndex (n : Node) (hash : Uint256) :
    SameRecords n (n.eraseTxIndex hash) := by
  refine ⟨fun k hk _ => ?_, rfl, rfl⟩
  rw [Node.eraseTxIndex, TxDB.view_erase, Function.update_of_ne (hk hash)]

theorem sameRecords_writeHashBestChain (n : Node) (hash : Uint256) :
    SameRecords n (n.writeHashBestChain hash) := by
  refine ⟨fun k _ hk => ?_, rfl, rfl⟩
  rw [Node.writeHashBestChain, TxDB.view_write, Function.update_of_ne hk]

theorem sameRecords_writeQueuedChanges (n : Node) (queue : QueuedChanges) :
    SameRecords n (n.writeQueuedChanges queue) := by
  unfold Node.writeQueuedChanges
  generalize queue.entries = changes
  induction changes generalizing n with
  | nil => exact Std.Refl.refl n
  | cons change changes ih =>
    exact Trans.trans (sameRecords_updateTxIndex n change.1 change.2) (ih _)

theorem sameRecords_commitBest (n : Node) (hash : Uint256) :
    SameRecords n (n.commitBest hash) := by
  refine ⟨fun k hk hk' => ?_, rfl, rfl⟩
  rw [Node.commitBest, TxDB.view_txnCommit]
  exact (sameRecords_writeHashBestChain n hash).view k hk hk'

theorem sameRecords_txnBegin {n : Node} (h : n.txdb.activeBatch = none) :
    SameRecords n n.txnBegin := by
  refine ⟨fun k _ _ => ?_, rfl, rfl⟩
  rw [Node.txnBegin, TxDB.view_txnBegin, TxDB.view, h]

theorem SameButLinksAndPool.sameRecords {n n' : Node} (h : SameButLinksAndPool n n') :
    SameRecords n n' := by
  unfold SameButLinksAndPool at h
  refine ⟨fun k _ _ => ?_, ?_, ?_⟩ <;> rw [h]

theorem keeps_disconnectInputs_sameRecords (tx : Transaction) :
    Step.Keeps SameRecords (disconnectInputs P tx) := by
  unfold disconnectInputs
  refine (Step.Keeps.forEach fun prevout _ => ?_).bind fun _ =>
    Step.keeps_modify fun n => sameRecords_eraseTxIndex n (P.txHash tx)
  unfold disconnectInput
  refine (Step.keeps_read _).bind fun _ => (Step.keeps_ofOption _).bind fun txindex => ?_
  exact (Step.keeps_guard _).bind fun _ => Step.keeps_modify fun n =>
    sameRecords_updateTxIndex n prevout.hash (txindex.mark prevout.n.toNat none)

/-- The hash of the block after a block of the branch `p`; there is none after the last. -/
def nextHash (p : BlockPtr) (hash : Uint256) : Uint256 := BlockPtr.hash (mainNext p hash)

/-- Each indexed block has its record, with `next` as the link up, and no other block has one;
the sync-checkpoint is recorded as `sync`. -/
structure Recorded (tree : BlockTree P files) (sync : Option DbValue) (next : Uint256 → Uint256)
    (n : Node) : Prop where
  record : ∀ {e p}, e :: p ∈ tree.entries → n.txdb.view (.blockindex e.phashBlock) =
    some (.blockIndex (n.diskBlockIndex e p (next e.phashBlock)))
  only : ∀ {hash}, (∀ q ∈ tree.entries, BlockPtr.hash q ≠ hash) →
    n.txdb.view (.blockindex hash) = none
  sync : n.txdb.view .hashSyncCheckpoint = sync

namespace Recorded

variable {sync : Option DbValue} {next : Uint256 → Uint256} {n n' : Node}

theorem frame (h : Recorded tree sync next n) (hsame : SameRecords n n') :
    Recorded tree sync next n' where
  record he := by
    rw [hsame.view _ (by simp) (by simp), h.record he, Node.diskBlockIndex, Node.diskBlockIndex,
      hsame.nMint, hsame.nMoneySupply]
  only hfresh := by
    rw [hsame.view _ (by simp) (by simp), h.only hfresh]
  sync := (hsame.view _ (by simp) (by simp)).trans h.sync

theorem writeBlockIndex (h : Recorded tree sync next n) {e : BlockIndex} {p : BlockPtr}
    (he : e :: p ∈ tree.entries) (hview : n'.txdb.view = n.txdb.view)
    (hmint : ∀ hash, hash ≠ e.phashBlock → n'.nMint hash = n.nMint hash)
    (hsupply : ∀ hash, hash ≠ e.phashBlock → n'.nMoneySupply hash = n.nMoneySupply hash)
    (hashNext : Uint256) :
    Recorded tree sync (Function.update next e.phashBlock hashNext)
      (n'.writeBlockIndex (e :: p) hashNext) where
  record {e' p'} he' := by
    rw [Node.writeBlockIndex, TxDB.view_write, hview]
    by_cases heq : e'.phashBlock = e.phashBlock
    · obtain ⟨rfl, rfl⟩ := List.cons.inj (tree.hash_injOn he' he heq)
      rw [Function.update_self, Function.update_self]
      rfl
    · rw [Function.update_of_ne (by simpa using heq), Function.update_of_ne heq, h.record he',
        Node.diskBlockIndex, Node.diskBlockIndex, hmint _ heq, hsupply _ heq]
  only {hash} hfresh := by
    have hne : hash ≠ e.phashBlock := (hfresh _ he).symm
    rw [Node.writeBlockIndex, TxDB.view_write, hview, Function.update_of_ne (by simpa using hne),
      h.only hfresh]
  sync := by
    rw [Node.writeBlockIndex, TxDB.view_write, hview, Function.update_of_ne (by simp), h.sync]

end Recorded

theorem nextHash_connect {e d : BlockIndex} {p : BlockPtr} (h : e :: d :: p ∈ tree.entries) :
    Function.update (Function.update (nextHash (d :: p)) e.phashBlock 0) d.phashBlock e.phashBlock =
      nextHash (e :: d :: p) := by
  have hzero : nextHash (d :: p) e.phashBlock = 0 := by
    rw [nextHash, mainNext_eq_nil fun q hq hne =>
      BlockTree.hash_ne_of_suffix h (hq.trans (List.tail_suffix _)) hne]
    rfl
  have hsame : Function.update (nextHash (d :: p)) e.phashBlock 0 = nextHash (d :: p) :=
    Function.update_eq_self_iff.mpr hzero.symm
  rw [hsame]
  funext hash
  by_cases heq : hash = d.phashBlock
  · rw [heq, Function.update_self, nextHash, mainNext, Function.update_self]
    rfl
  · rw [Function.update_of_ne heq, nextHash, nextHash, mainNext, Function.update_of_ne heq]

theorem nextHash_disconnect {e d : BlockIndex} {p : BlockPtr} (h : d :: p ∈ tree.entries) :
    Function.update (nextHash (e :: d :: p)) d.phashBlock 0 = nextHash (d :: p) := by
  funext hash
  by_cases heq : hash = d.phashBlock
  · rw [heq, Function.update_self, nextHash, mainNext_self h]
    rfl
  · rw [Function.update_of_ne heq, nextHash, nextHash, mainNext, Function.update_of_ne heq]

namespace Recorded

variable {sync : Option DbValue} {n n' : Node}

theorem connectBlock {io : BlockIo} {e d : BlockIndex} {p : BlockPtr} {b : Block}
    (he : e :: d :: p ∈ tree.entries) (hnext : n.pnext e.phashBlock = [])
    (hn : Recorded tree sync (nextHash (d :: p)) n)
    (h : (connectBlock P io b false (e :: d :: p)).run n = (some (), n')) :
    Recorded tree sync (nextHash (e :: d :: p)) n' := by
  rw [run_connectBlock] at h
  split at h
  · rename_i s _
    obtain rfl := (Prod.mk.inj h).2
    have hlinks : nextHash (e :: d :: p) = Function.update (Function.update (nextHash (d :: p))
        e.phashBlock (BlockPtr.hash (n.pnext e.phashBlock))) d.phashBlock e.phashBlock := by
      rw [hnext]
      exact (nextHash_connect he).symm
    rw [hlinks]
    -- first the record of the block, with its mint and supply, then that of its parent
    have hown := hn.writeBlockIndex he
      (show (n.trackMint e (d :: p) s).txdb.view = n.txdb.view from rfl)
      (fun hash hne => Function.update_of_ne hne _ _) (fun hash hne => Function.update_of_ne hne _ _)
      (BlockPtr.hash (n.pnext e.phashBlock))
    have hqueue := hown.frame (sameRecords_writeQueuedChanges _ s.mapQueuedChanges)
    have hparent := hqueue.writeBlockIndex (tree.parent he) rfl (fun _ _ => rfl) (fun _ _ => rfl)
      e.phashBlock
    exact hparent.frame ⟨fun _ _ _ => rfl, rfl, rfl⟩
  · cases h

theorem disconnectBlock {io : BlockIo} {e d : BlockIndex} {p : BlockPtr} {b : Block}
    (he : e :: d :: p ∈ tree.entries) (hn : Recorded tree sync (nextHash (e :: d :: p)) n)
    (h : (disconnectBlock P io b (e :: d :: p)).run n = (some (), n')) :
    Recorded tree sync (nextHash (d :: p)) n' := by
  obtain ⟨n₁, h₁, rfl⟩ := run_disconnectBlock.mp h
  have hkeeps : Step.Keeps SameRecords (Step.forEach (disconnectInputs P) b.vtx.reverse) :=
    Step.Keeps.forEach fun tx _ => keeps_disconnectInputs_sameRecords tx
  have hinputs := hn.frame (hkeeps.returnKeeps _ _ _ h₁)
  have hparent := hinputs.writeBlockIndex (tree.parent he)
    (show n₁.txdb.view = n₁.txdb.view from rfl) (fun _ _ => rfl) (fun _ _ => rfl) 0
  rw [nextHash_disconnect (tree.parent he)] at hparent
  exact hparent.frame ⟨fun _ _ _ => rfl, rfl, rfl⟩

theorem commitBest {next : Uint256 → Uint256} (hn : Recorded tree sync next n) {hash : Uint256}
    (h : SameButLinksAndPool (n.commitBest hash) n') : Recorded tree sync next n' :=
  (hn.frame (sameRecords_commitBest n hash)).frame h.sameRecords

theorem reorganize {io : Io} (hio : io.ReadsFrom tree) {pindexNew : BlockPtr} {u : Unit}
    (hp : n.pindexBest ∈ tree.entries) (hp' : pindexNew ∈ tree.entries)
    (hnext : n.pnext = mainNext n.pindexBest)
    (hn : Recorded tree sync (nextHash n.pindexBest) n)
    (h : (reorganize P io pindexNew).run n = (some u, n')) :
    Recorded tree sync (nextHash pindexNew) n' := by
  unfold Beancash.reorganize at h
  rw [Step.run_bind_of_some (Step.run_read _ _)] at h
  obtain ⟨q, n₀, h₁, h⟩ := Step.run_bind_eq_some.mp h
  obtain ⟨hfork, hsame⟩ := Step.run_ofOption_eq_some.mp h₁
  obtain rfl : n = n₀ := hsame.symm
  obtain ⟨⟨vResurrect, vDelete⟩, n₃, hdb, h⟩ := Step.run_bind_eq_some.mp h
  obtain rfl := congrArg Prod.snd h
  unfold reorganizeDb at hdb
  obtain ⟨_, n₁, hdown, hdb⟩ := Step.run_bind_eq_some.mp hdb
  obtain ⟨_, n₂, hup, hdb⟩ := Step.run_bind_eq_some.mp hdb
  rw [Step.run_bind_of_some (Step.run_modify _ _)] at hdb
  obtain ⟨_, n₄, hcommit, hdb⟩ := Step.run_bind_eq_some.mp hdb
  cases hdb
  obtain ⟨_, rfl⟩ := txnCommit_eq_some hcommit
  obtain ⟨hq', hq, hne⟩ := BlockPtr.findFork_eq_some hfork
  -- in memory nothing follows a block of the new branch above the fork
  have hfree : ∀ {e c}, e :: c <:+ pindexNew → q <:+ c → n.pnext e.phashBlock = [] := by
    intro e c hsuf hqc
    have hmem := tree.mem_of_suffix hp' hsuf (List.cons_ne_nil e c)
    rw [hnext]
    refine mainNext_eq_nil fun r hr hrne hhash => ?_
    have hrbest := hr.trans (List.tail_suffix _)
    obtain rfl := tree.hash_injOn (tree.mem_of_suffix hp hrbest hrne) hmem hhash
    have hlen := (BlockPtr.suffix_findFork hfork hsuf hrbest).length_le
    have hlen' := hqc.length_le
    rw [List.length_cons] at hlen
    omega
  have hmem₁ := ((Step.Keeps.collect fun c _ => keeps_disconnectOld P io c).returnKeeps _ _ _
    hdown).memory
  have hn₁ : Recorded tree sync (nextHash q) n₁ := by
    refine (collect_downTo (I := fun p n => Recorded tree sync (nextHash p) n)
      (g := fun c => resurrectable (vtxOf files c)) ?_ hp hq hne hn hdown).1
    intro e d p n n' txs he hn h
    obtain ⟨b, _, hrun, htxs⟩ := disconnectOld_eq_some hio he h
    exact ⟨hn.disconnectBlock he hrun, htxs⟩
  have hn₂ : Recorded tree sync (nextHash pindexNew) n₂ := by
    refine (collect_upTo (I := fun p m => m.pnext = n.pnext ∧ Recorded tree sync (nextHash p) m)
      (g := vtxOf files) ?_ hp' hq' hne ⟨hmem₁.pnext, hn₁⟩ hup).1.2
    intro e d c m m' txs he hsuf hqc hm h
    obtain ⟨b, _, hrun, htxs⟩ := connectNew_eq_some hio he h
    have hsame := connectBlock_memory hrun
    refine ⟨⟨hsame.pnext.trans hm.1, ?_⟩, htxs⟩
    exact hm.2.connectBlock he ((congrFun hm.1 _).trans (hfree hsuf hqc)) hrun
  exact hn₂.commitBest (sameButLinksAndPool_reorganizeMemory P _ _ _ _ _)

theorem setBestChainInner {io : BlockIo} {e d : BlockIndex} {p : BlockPtr} {b : Block} {u : Unit}
    (he : e :: d :: p ∈ tree.entries) (hnext : n.pnext = mainNext (d :: p))
    (hn : Recorded tree sync (nextHash (d :: p)) n)
    (h : (setBestChainInner P io b (e :: d :: p)).run n = (some u, n')) :
    Recorded tree sync (nextHash (e :: d :: p)) n' := by
  obtain ⟨n₁, h₁, rfl⟩ := setBestChainInner_eq_some h
  have hfree : n.pnext e.phashBlock = [] := by
    rw [hnext]
    exact mainNext_eq_nil fun q hq hne =>
      BlockTree.hash_ne_of_suffix he (hq.trans (List.tail_suffix _)) hne
  exact (hn.connectBlock he hfree h₁).commitBest
    ((sameButLinksAndPool_linkParent _ _ _).trans
      (sameButLinksAndPool_foldl (f := Node.removeFromPool P) (fun _ _ => rfl) b.vtx _))

theorem reconnect {io : Io} {e d : BlockIndex} {p : BlockPtr} {u : Unit}
    (he : e :: d :: p ∈ tree.entries) (hatt : Attached P files (d :: p) n)
    (hn : Recorded tree sync (nextHash (d :: p)) n)
    (h : (reconnect P io (e :: d :: p)).run n = (some u, n')) :
    Recorded tree sync (nextHash (e :: d :: p)) n' := by
  unfold Beancash.reconnect at h
  obtain ⟨b, n₁, h₁, h₂⟩ := Step.run_bind_eq_some.mp h
  obtain ⟨_, rfl⟩ := Step.run_ofOption_eq_some.mp h₁
  obtain ⟨_, n₂, h₃, h₄⟩ := Step.run_bind_eq_some.mp h₂
  obtain ⟨_, rfl⟩ := Step.run_guard_eq_some.mp h₃
  rw [Step.run_bind_of_some (Step.run_modify _ _)] at h₄
  have hbegin := hn.frame (sameRecords_txnBegin hatt.activeBatch)
  exact setBestChainInner (n := n₂.txnBegin) he hatt.pnext hbegin h₄

theorem view_reconnect_failed {io : Io} {c p : BlockPtr} (hatt : Attached P files p n)
    (hn : Recorded tree sync (nextHash p) n) (h : (Beancash.reconnect P io c).run n = (none, n'))
    {hash : Uint256} (hfresh : ∀ q ∈ tree.entries, BlockPtr.hash q ≠ hash) :
    n'.txdb.view (.blockindex hash) = none := by
  have hnone := hn.only hfresh
  unfold Beancash.reconnect at h
  rcases Step.run_bind_eq_none.mp h with h₁ | ⟨b, n₁, h₁, h₂⟩
  · obtain rfl := congrArg Prod.snd h₁
    exact hnone
  · obtain ⟨_, rfl⟩ := Step.run_ofOption_eq_some.mp h₁
    rcases Step.run_bind_eq_none.mp h₂ with h₃ | ⟨_, n₂, h₃, h₄⟩
    · obtain rfl := congrArg Prod.snd h₃
      exact hnone
    · obtain ⟨_, rfl⟩ := Step.run_guard_eq_some.mp h₃
      rw [Step.run_bind_of_some (Step.run_modify _ _)] at h₄
      have hpdb : n'.txdb.pdb (.blockindex hash) = n₂.txdb.pdb (.blockindex hash) :=
        (failKeeps_setBestChainInner P _ b c _ _ h₄).pdb rfl _ (by simp)
      rw [TxDB.view, hatt.activeBatch] at hnone
      rw [TxDB.view, activeBatch_setBestChainInner h₄]
      exact hpdb.trans hnone

theorem forEachWhile_reconnect (hnew : tree.BringsNewTxids) {io : Io} (hio : io.ReadsFrom tree)
    {i p : BlockPtr} {l : List BlockPtr} (hi : i ≠ []) (hp : p ∈ tree.entries)
    (hasc : BlockPtr.Ascends i l p) (hatt : Attached P files i n)
    (hn : Recorded tree sync (nextHash i) n)
    (h : (Step.forEachWhile (Beancash.reconnect P io) l).run n = (some (), n')) :
    (l.all (reconnects P files io n.nBestHeight) = true → Recorded tree sync (nextHash p) n') ∧
      ∀ {hash}, (∀ q ∈ tree.entries, BlockPtr.hash q ≠ hash) →
        n'.txdb.view (.blockindex hash) = none := by
  induction l generalizing i n with
  | nil =>
    obtain rfl : p = i := hasc
    obtain rfl := congrArg Prod.snd h
    exact ⟨fun _ => hn, hn.only⟩
  | cons c l ih =>
    obtain ⟨hc, rfl, hasc⟩ := hasc
    obtain ⟨e, q, rfl⟩ := List.exists_cons_of_ne_nil hc
    obtain ⟨d, q, rfl⟩ := List.exists_cons_of_ne_nil hi
    have he := tree.mem_of_suffix hp hasc.suffix hc
    have hfirst := reconnect_isSome hio he hatt
    rw [List.all_cons, ← hfirst]
    rw [Step.forEachWhile, Step.run_bind_of_some (Step.run_attempt _ _)] at h
    rcases hrun : (Beancash.reconnect P io (e :: d :: q)).run n with ⟨_ | u, n₁⟩ <;>
      rw [hrun] at h
    · obtain rfl := congrArg Prod.snd h
      refine ⟨fun hall => ?_, fun hfresh => hn.view_reconnect_failed hatt hrun hfresh⟩
      cases hall
    · obtain ⟨hatt₁, hbest⟩ := reconnect_attached hnew hio he hatt hrun
      obtain ⟨hrest, hnone⟩ := ih (by simp) hasc hatt₁ (hn.reconnect he hatt hrun) h
      refine ⟨fun hall => hrest ?_, hnone⟩
      rw [hbest.nBestHeight]
      exact hall

/-- Of a consistent node all postponed blocks of which are reconnected, the records are those of
the new best chain; in any case only indexed blocks are recorded. -/
theorem setBestChain (hnew : tree.BringsNewTxids) {io : Io} (hio : io.ReadsFrom tree)
    {e : BlockIndex} {p : BlockPtr} {b : Block} {u : Unit} (he : e :: p ∈ tree.entries)
    (hb : files.blockOf e = some b) (hc : Consistent tree n)
    (hn : Recorded tree sync (nextHash n.pindexBest) n)
    (h : (setBestChain P io b (e :: p)).run n = (some u, n')) :
    ((BlockPtr.postpone (BlockPtr.nChainTrust n.pindexBest) (e :: p)).2.all
      (reconnects P files io n.nBestHeight) = true → Recorded tree sync (nextHash (e :: p)) n') ∧
      ∀ {hash}, (∀ q ∈ tree.entries, BlockPtr.hash q ≠ hash) →
        n'.txdb.view (.blockindex hash) = none := by
  obtain ⟨n₁, hattach, rfl, _⟩ := setBestChain_eq_some hnew hio he hb hc h
  have hbegin := hn.frame (sameRecords_txnBegin hc.attached.activeBatch)
  have hnext : n.txnBegin.pnext = mainNext n.pindexBest := hc.attached.pnext
  have hset : SameRecords n₁ (n₁.setBest (b.hash P) (e :: p)) := ⟨fun _ _ _ => rfl, rfl, rfl⟩
  rcases attach_cases he hb hc hattach with ⟨hnil, rfl, hrun⟩ | ⟨hmem, rfl, hrun⟩ | ⟨hmem, _, hrun⟩
  · unfold setGenesis at hrun
    rw [Step.run_bind_of_some (Step.run_modify _ _)] at hrun
    obtain ⟨_, n₂, h₁, h₂⟩ := Step.run_bind_eq_some.mp hrun
    obtain ⟨_, rfl⟩ := txnCommit_eq_some h₁
    have hlinked : SameRecords (n.txnBegin.commitBest e.phashBlock) n₁ := by
      obtain rfl := congrArg Prod.snd h₂
      exact ⟨fun _ _ _ => rfl, rfl, rfl⟩
    rw [hnil] at hbegin
    have hn₁ := ((hbegin.frame (sameRecords_commitBest _ e.phashBlock)).frame hlinked).frame hset
    exact ⟨fun _ => hn₁, hn₁.only⟩
  · obtain ⟨d, q, hdp⟩ := List.exists_cons_of_ne_nil (BlockTree.ne_nil hmem)
    rw [hdp] at hbegin hnext hrun he hset ⊢
    have hn₁ := (hbegin.setBestChainInner he hnext hrun).frame hset
    exact ⟨fun _ => hn₁, hn₁.only⟩
  · obtain ⟨hsuf, hne, hasc⟩ :=
      BlockPtr.postpone_spec (BlockPtr.nChainTrust n.pindexBest) (e :: p)
    have hne := hne (List.cons_ne_nil e p)
    have hmem' := tree.mem_of_suffix he hsuf hne
    unfold switchBranch at hrun
    obtain ⟨_, n₂, h₁, h₂⟩ := Step.run_bind_eq_some.mp hrun
    have h₁ := Step.run_onFail_eq_some.mp h₁
    obtain ⟨hatt, hbest⟩ := reorganize_attached hnew hio (n := n.txnBegin) hmem hmem'
      hc.attached.txnBegin hnext h₁
    have hn₂ := Recorded.reorganize hio (n := n.txnBegin) hmem hmem' hnext hbegin h₁
    obtain ⟨hall, hnone⟩ := hn₂.forEachWhile_reconnect hnew hio hne he hasc hatt h₂
    refine ⟨fun hrec => (hall ?_).frame hset, fun hfresh => (hset.view _ (by simp) (by simp)).trans
      (hnone hfresh)⟩
    rw [hbest.nBestHeight]
    exact hrec

end Recorded

end Beancash
