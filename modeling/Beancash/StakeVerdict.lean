import Beancash.KernelModifier
import Beancash.OrphanBlocks

namespace Beancash

open Fallible

variable {P : Params} {H : SelectionHash} {mode : CheckpointsMode}

/-- No block of a branch but the first one has generated a modifier. -/
def BlockPtr.Unmodified (p : BlockPtr) : Prop :=
  ∀ e d q, e :: d :: q <:+ p → e.fStakeModifier = false

/-- No link leads to a block that has generated a modifier. -/
def Node.UnmodifiedLinks (n : Node) : Prop :=
  ∀ hash e p, n.pnext hash = e :: p → e.fStakeModifier = false

structure IndexedNode.Unmodified (s : IndexedNode) : Prop where
  index : ∀ hash p, s.mapBlockIndex hash = some p → p.Unmodified
  links : s.node.UnmodifiedLinks

/-- Links to blocks that have generated no modifier stay such links. -/
def KeepsLinks (n n' : Node) : Prop := n.UnmodifiedLinks → n'.UnmodifiedLinks

instance : Std.Refl KeepsLinks := ⟨fun _ h => h⟩

instance : IsTrans Node KeepsLinks := ⟨fun _ _ _ h h' hn => h' (h hn)⟩

/-- The same of the node of an index. -/
def KeepsNodeLinks (s s' : IndexedNode) : Prop := KeepsLinks s.node s'.node

instance : Std.Refl KeepsNodeLinks := ⟨fun s => Std.Refl.refl s.node⟩

instance : IsTrans IndexedNode KeepsNodeLinks := ⟨fun _ _ _ h h' hn => h' (h hn)⟩

theorem keepsLinks_of_pnext {n n' : Node} (h : n'.pnext = n.pnext) : KeepsLinks n n' := by
  intro hn hash e p hnext
  rw [h] at hnext
  exact hn hash e p hnext

theorem keepsLinks_of_pending {α : Type} {x : Step Node α} (h : Step.Keeps Pending x) :
    Step.Keeps KeepsLinks x := fun n => keepsLinks_of_pnext (h n).memory.pnext

theorem BlockPtr.Unmodified.of_suffix {p q : BlockPtr} (h : p.Unmodified) (hq : q <:+ p) :
    q.Unmodified := fun e d r hr => h e d r (hr.trans hq)

theorem keepsLinks_update {n : Node} {pnext : BlockPtr} (hash : Uint256)
    (h : ∀ e p, pnext = e :: p → e.fStakeModifier = false) :
    KeepsLinks n { n with pnext := Function.update n.pnext hash pnext } := by
  intro hn hash' e p hnext
  by_cases heq : hash' = hash
  · rw [heq] at hnext
    exact h e p ((Function.update_self hash pnext n.pnext).symm.trans hnext)
  · exact hn hash' e p ((Function.update_of_ne heq pnext n.pnext).symm.trans hnext)

theorem keepsLinks_linkParent {pindex : BlockPtr} (h : pindex.Unmodified) (n : Node) :
    KeepsLinks n (n.linkParent pindex pindex) := by
  cases pindex with
  | nil => exact Std.Refl.refl n
  | cons e p =>
    cases p with
    | nil => exact Std.Refl.refl n
    | cons d p =>
      refine keepsLinks_update d.phashBlock fun e' p' heq => ?_
      obtain ⟨rfl, rfl⟩ := List.cons.inj heq
      exact h e d p List.suffix_rfl

theorem keepsLinks_unlinkParent (pindex : BlockPtr) (n : Node) :
    KeepsLinks n (n.linkParent pindex []) := by
  unfold Node.linkParent
  split
  · exact Std.Refl.refl n
  · exact keepsLinks_update _ fun e p h => nomatch h

theorem keepsLinks_reorganizeMemory {vDisconnect vConnect : List BlockPtr}
    (h : ∀ pindex ∈ vConnect, pindex.Unmodified) (vResurrect vDelete : List Transaction)
    (n : Node) : KeepsLinks n (reorganizeMemory P vDisconnect vConnect vResurrect vDelete n) := by
  intro hn
  refine keepsLinks_of_pnext (pnext_reorganizeMemory P vDisconnect vConnect vResurrect vDelete n) ?_
  refine List.foldlRecOn (motive := Node.UnmodifiedLinks) vConnect _ ?_ fun n hn pindex hmem =>
    keepsLinks_linkParent (h pindex hmem) n hn
  exact List.foldlRecOn (motive := Node.UnmodifiedLinks) vDisconnect _ hn fun n hn pindex _ =>
    keepsLinks_unlinkParent pindex n hn

theorem keepsLinks_txnCommit (ok : Bool) : Step.Keeps KeepsLinks (txnCommit ok) :=
  Step.Keeps.bind (Step.keeps_modify fun _ => keepsLinks_of_pnext rfl) fun _ => Step.keeps_guard ok

theorem keepsLinks_abort (pindexNew : BlockPtr) (n : Node) :
    KeepsLinks n (n.txnAbort.invalidChainFound pindexNew) := by
  unfold Node.invalidChainFound
  dsimp only
  split <;> exact keepsLinks_of_pnext rfl

theorem mem_downTo_suffix {pfork p q : BlockPtr} (h : q ∈ BlockPtr.downTo pfork p) : q <:+ p := by
  induction p with
  | nil => cases h
  | cons e p ih =>
    rw [BlockPtr.downTo] at h
    split at h
    · cases h
    · rcases List.mem_cons.mp h with rfl | h
      · exact List.suffix_rfl
      · exact (ih h).trans (List.suffix_cons e p)

theorem keepsLinks_reorganize {pindexNew : BlockPtr} (h : pindexNew.Unmodified) (io : Io) :
    Step.Keeps KeepsLinks (reorganize P io pindexNew) := by
  unfold reorganize
  refine (Step.keeps_read _).bind fun pindexBest => (Step.keeps_ofOption _).bind fun pfork => ?_
  refine Step.Keeps.bind ?_ fun txs => Step.keeps_modify (keepsLinks_reorganizeMemory ?_ _ _)
  · unfold reorganizeDb
    refine (keepsLinks_of_pending (Step.Keeps.collect fun pindex _ =>
      keeps_disconnectOld P io pindex)).bind fun _ => ?_
    refine (keepsLinks_of_pending (Step.Keeps.collect fun pindex _ =>
      keeps_connectNew P io pindex)).bind fun _ => ?_
    refine (keepsLinks_of_pending (keeps_writeHashBestChain _)).bind fun _ => ?_
    exact (keepsLinks_txnCommit _).bind fun _ => Step.keeps_pure _
  · intro pindex hmem
    exact h.of_suffix (mem_downTo_suffix (List.mem_reverse.mp hmem))

theorem keepsLinks_setBestChainInner {pindexNew : BlockPtr} (h : pindexNew.Unmodified)
    (io : BlockIo) (b : Block) : Step.Keeps KeepsLinks (setBestChainInner P io b pindexNew) := by
  unfold setBestChainInner
  refine Step.Keeps.bind ?_ fun _ => (keepsLinks_txnCommit _).bind fun _ => ?_
  · exact (keepsLinks_of_pending ((keeps_connectBlock P io b false pindexNew).bind fun _ =>
      keeps_writeHashBestChain _)).onFail (keepsLinks_abort pindexNew)
  · refine (Step.keeps_modify (keepsLinks_linkParent h)).bind fun _ => Step.keeps_modify fun n => ?_
    have hremove : ∀ (n : Node) tx, (n.removeFromPool P tx).pnext = n.pnext := fun _ _ => rfl
    exact keepsLinks_of_pnext (pnext_foldl hremove b.vtx n)

theorem mem_postpone_suffix {nBestTrust : Uint256} {p q : BlockPtr}
    (h : q ∈ (BlockPtr.postpone nBestTrust p).2) : q <:+ p := by
  induction p with
  | nil => cases h
  | cons e p ih =>
    cases p with
    | nil => cases h
    | cons d p =>
      rw [BlockPtr.postpone] at h
      split at h
      · rcases List.mem_append.mp h with h | h
        · exact (ih h).trans (List.suffix_cons e _)
        · rw [List.mem_singleton.mp h]
      · cases h

theorem postpone_suffix (nBestTrust : Uint256) (p : BlockPtr) :
    (BlockPtr.postpone nBestTrust p).1 <:+ p := by
  induction p with
  | nil => exact List.suffix_rfl
  | cons e p ih =>
    cases p with
    | nil => exact List.suffix_rfl
    | cons d p =>
      rw [BlockPtr.postpone]
      split
      · exact ih.trans (List.suffix_cons e _)
      · exact List.suffix_rfl

theorem keepsLinks_setBestChain {pindexNew : BlockPtr} (h : pindexNew.Unmodified) (io : Io)
    (b : Block) : Step.Keeps KeepsLinks (setBestChain P io b pindexNew) := by
  unfold setBestChain
  refine (Step.keeps_guard _).bind fun _ =>
    Step.Keeps.bind (Step.keeps_modify fun _ => keepsLinks_of_pnext rfl) fun _ =>
    (Step.keeps_read _).bind fun n =>
    Step.Keeps.bind ?_ fun _ => Step.keeps_modify fun _ => keepsLinks_of_pnext rfl
  unfold attach
  split
  · exact (keepsLinks_of_pending (keeps_writeHashBestChain _)).bind fun _ =>
      (keepsLinks_txnCommit _).bind fun _ => Step.keeps_modify fun _ => keepsLinks_of_pnext rfl
  · split
    · exact keepsLinks_setBestChainInner h _ b
    · unfold switchBranch
      have hintermediate := h.of_suffix
        (postpone_suffix (BlockPtr.nChainTrust n.pindexBest) pindexNew)
      refine ((keepsLinks_reorganize hintermediate io).onFail (keepsLinks_abort pindexNew)).bind
        fun _ => Step.Keeps.forEachWhile fun pindex hmem => ?_
      refine (Step.keeps_ofOption _).bind fun _ => (Step.keeps_guard _).bind fun _ =>
        Step.Keeps.bind (Step.keeps_modify fun _ => keepsLinks_of_pnext rfl) fun _ => ?_
      exact keepsLinks_setBestChainInner (h.of_suffix (mem_postpone_suffix hmem)) _ _

namespace IndexedNode.Unmodified

variable {s s' : IndexedNode} {b : Block}

theorem newBlockIndex (h : s.Unmodified) {nFile : FileNumber} {nBlockPos : UInt32}
    {hashProof : Uint256} {pindexNew : BlockPtr}
    (hnew : s.newBlockIndex P H nFile nBlockPos b hashProof = some pindexNew) :
    pindexNew.Unmodified := by
  obtain ⟨modifier, hmodifier, rfl⟩ := newBlockIndex_eq_some hnew
  intro e d q hsuf
  rcases List.suffix_cons_iff.mp hsuf with heq | hsuf
  · obtain ⟨rfl, hparent⟩ := List.cons.inj heq
    change modifier.2 = false
    by_contra hgenerated
    have hpair : modifier = (modifier.1, true) :=
      Prod.ext rfl ((Bool.not_eq_false _).mp hgenerated)
    rw [eq_nil_of_generated (hmodifier.trans (congrArg Except.ok hpair))] at hparent
    cases hparent
  · unfold IndexedNode.pprev at hsuf
    cases hprev : s.mapBlockIndex b.header.hashPrevBlock with
    | none =>
      rw [hprev] at hsuf
      exact absurd (List.suffix_nil.mp hsuf) (List.cons_ne_nil _ _)
    | some p =>
      rw [hprev] at hsuf
      exact h.index _ p hprev e d q hsuf

theorem insertIndex (h : s.Unmodified) {pindexNew : BlockPtr} (hnew : pindexNew.Unmodified) :
    (s.insertIndex pindexNew).Unmodified := by
  cases pindexNew with
  | nil => exact h
  | cons e p =>
    refine ⟨fun hash q hq => ?_, ?_⟩
    · change Function.update s.mapBlockIndex e.phashBlock (some (e :: p)) hash = some q at hq
      by_cases heq : hash = e.phashBlock
      · rw [heq, Function.update_self] at hq
        rw [← Option.some.inj hq]
        exact hnew
      · rw [Function.update_of_ne heq] at hq
        exact h.index hash q hq
    · exact keepsLinks_update e.phashBlock (fun e' p' hnil => nomatch hnil) h.links

theorem of_node (h : s.Unmodified) (hmap : s'.mapBlockIndex = s.mapBlockIndex)
    (hnode : KeepsLinks s.node s'.node) : s'.Unmodified :=
  ⟨fun hash p hp => h.index hash p (hmap ▸ hp), hnode h.links⟩

theorem storeBlock (h : s.Unmodified) {io : AcceptIo} {r : Option Unit}
    (hrun : (storeBlock P H mode io b).run s = (r, s')) : s'.Unmodified := by
  rcases storeBlock_cases hrun with ⟨_, rfl⟩ | ⟨hashProof, nFile, nBlockPos, _, _, hadd⟩
  · exact h
  · rcases addToBlockIndex_cases hadd with ⟨_, rfl⟩ | ⟨pindexNew, n', _, hnew, rfl, hcase⟩
    · exact h
    · have hpindex := h.newBlockIndex hnew
      have hinsert := h.insertIndex hpindex
      have hwrite : Step.Keeps KeepsLinks (writeIndexEntry io.index.txnCommit pindexNew) := by
        unfold writeIndexEntry
        refine Step.Keeps.bind (Step.keeps_modify fun _ => keepsLinks_of_pnext rfl) fun _ =>
          Step.Keeps.bind (Step.keeps_modify fun n => ?_) fun _ => keepsLinks_txnCommit _
        exact keepsLinks_of_pnext (pending_writeBlockIndex n pindexNew _).memory.pnext
      have hbest : Step.Keeps KeepsLinks (newBest P io.index.chain b pindexNew) := by
        unfold newBest
        refine (Step.keeps_read _).bind fun _ => ?_
        split
        · exact keepsLinks_setBestChain hpindex _ b
        · exact Step.keeps_pure ()
      refine hinsert.of_node rfl ?_
      rcases hcase with ⟨_, rfl⟩ | ⟨_, rfl⟩ | ⟨n₁, hwritten, hrun⟩
      · exact Std.Refl.refl _
      · exact hwrite _
      · have h₁ := hwrite (s.insertIndex pindexNew).node
        have h₂ := hbest n₁
        rw [hwritten] at h₁
        rw [hrun] at h₂
        exact Trans.trans h₁ h₂

theorem acceptPendingSyncCheckpoint (h : s.Unmodified) (io : CheckpointIo) :
    ((acceptPendingSyncCheckpoint P io).run s).2.Unmodified := by
  refine h.of_node (keeps_acceptPendingSyncCheckpoint io s) ?_
  unfold Beancash.acceptPendingSyncCheckpoint
  rw [Step.run_bind_of_some (Step.run_read _ _), id_eq]
  refine ((Step.keeps_guard (R := KeepsNodeLinks) _).bind fun _ =>
    Step.Keeps.ofOption_bind fun pindex hpindex => ?_) s
  have hvalidate := keeps_validateSyncCheckpoint (f := IndexedNode.node) (fun _ _ => rfl)
    s.hashPendingCheckpoint
  refine Step.Keeps.bind (Step.Keeps.onFail (fun s => keepsLinks_of_pnext
    (congrArg Node.pnext (hvalidate s))) fun _ => keepsLinks_of_pnext rfl) fun _ => ?_
  refine Step.Keeps.bind ?_ fun _ => Step.Keeps.bind ?_ fun _ =>
    Step.keeps_modify fun _ => keepsLinks_of_pnext rfl
  · refine (Step.keeps_read _).bind fun fMain => ?_
    split
    · exact Step.keeps_pure ()
    · refine (Step.keeps_ofOption _).bind fun b => Step.Keeps.onFail (fun s => ?_)
        fun _ => keepsLinks_of_pnext rfl
      exact keepsLinks_setBestChain (h.index _ pindex hpindex) io.chain b s.node
  · refine Step.Keeps.bind (fun _ => keepsLinks_of_pnext rfl) fun _ =>
      Step.Keeps.bind (fun _ => keepsLinks_of_pnext rfl) fun _ =>
      Step.Keeps.bind (fun s => keepsLinks_txnCommit io.txnCommit s.node) fun _ =>
      Step.keeps_modify fun _ => keepsLinks_of_pnext rfl

theorem acceptBlock (h : s.Unmodified) (io : AcceptIo) :
    ((acceptBlock P H mode io b).run s).2.Unmodified := by
  unfold Beancash.acceptBlock
  rcases hstore : (Beancash.storeBlock P H mode io b).run s with ⟨_ | u, s₁⟩
  · rw [Step.run_bind_of_none hstore]
    exact h.storeBlock hstore
  · rw [Step.run_bind_of_some hstore, Step.run_bind_of_some (Step.run_attempt _ _)]
    exact (h.storeBlock hstore).acceptPendingSyncCheckpoint io.pending

end IndexedNode.Unmodified

/-- A node that knows the genesis block at most. -/
structure BlockNode.Fresh (n : BlockNode) : Prop where
  index : ∀ hash p, n.indexed.mapBlockIndex hash = some p → p.length ≤ 1
  links : ∀ hash, n.indexed.node.pnext hash = []

namespace Sample

end Sample

end Beancash
