import Beancash.ChainVerify
import Beancash.ReloadMap

namespace Beancash

open Fallible Ledger

variable {P : Params} {C : ChecksumHash} {files : Files} {tree : BlockTree P files}
  {sync : Option DbValue} {s : IndexedNode}

theorem mem_map_phashBlock {p : BlockPtr} {hash : Uint256} (h : hash ∈ p.map BlockIndex.phashBlock) :
    ∃ q, q <:+ p ∧ q ≠ [] ∧ BlockPtr.hash q = hash := by
  induction p with
  | nil => cases h
  | cons e p ih =>
    rw [List.map_cons] at h
    rcases List.mem_cons.mp h with rfl | h
    · exact ⟨e :: p, List.suffix_rfl, List.cons_ne_nil e p, rfl⟩
    · obtain ⟨q, hq, hrest⟩ := ih h
      exact ⟨q, hq.trans (List.suffix_cons e p), hrest⟩

theorem BlockTree.nodup_map_phashBlock {p : BlockPtr} (hp : p ∈ tree.entries) :
    (p.map BlockIndex.phashBlock).Nodup := by
  induction p with
  | nil => exact List.nodup_nil
  | cons e p ih =>
    rw [List.map_cons, List.nodup_cons]
    constructor
    · intro hmem
      obtain ⟨q, hq, hne, hhash⟩ := mem_map_phashBlock hmem
      exact tree.hash_ne_of_suffix hp hq hne hhash
    · cases p with
      | nil => exact List.nodup_nil
      | cons d p => exact ih (tree.parent hp)

/-- The map in which every entry has been summed up. -/
structure Whole (C : ChecksumHash) (tree : BlockTree P files) (n : Node) (m : LoadedMap) : Prop where
  lookup : ∀ {e p}, e :: p ∈ tree.entries → m.lookup e.phashBlock = some (.summed C n e p)
  mem_iff : ∀ {hash}, hash ∈ m ↔ ∃ q ∈ tree.entries, BlockPtr.hash q = hash
  lookup_zero : m.lookup 0 = none

namespace Whole

variable {n : Node} {m : LoadedMap}

theorem lookup_of_not_indexed (h : Whole C tree n m) {hash : Uint256}
    (hnot : ∀ q ∈ tree.entries, BlockPtr.hash q ≠ hash) : m.lookup hash = none := by
  rw [AList.lookup_eq_none, h.mem_iff]
  rintro ⟨q, hq, hhash⟩
  exact hnot q hq hhash

theorem length_le (h : Whole C tree n m) {p : BlockPtr} (hp : p ∈ tree.entries) :
    p.length ≤ m.keys.length := by
  rw [← List.length_map BlockIndex.phashBlock]
  refine (List.subperm_of_subset (tree.nodup_map_phashBlock hp) fun hash hmem => ?_).length_le
  obtain ⟨q, hq, hne, hhash⟩ := mem_map_phashBlock hmem
  exact AList.mem_keys.mp (h.mem_iff.mpr ⟨q, tree.mem_of_suffix hp hq hne, hhash⟩)

theorem walk_zero (h : Whole C tree n m) (fuel : ℕ) : m.walk fuel 0 = [] := by
  cases fuel with
  | zero => rfl
  | succ fuel => rw [LoadedMap.walk, h.lookup_zero]

theorem walk_hash (h : Whole C tree n m) {e : BlockIndex} {p : BlockPtr}
    (he : e :: p ∈ tree.entries) {fuel : ℕ} (hfuel : p.length < fuel) :
    m.walk fuel e.phashBlock = e :: p := by
  induction p generalizing e fuel with
  | nil =>
    obtain ⟨fuel, rfl⟩ := Nat.exists_eq_succ_of_ne_zero (Nat.ne_of_gt hfuel)
    rw [LoadedMap.walk, h.lookup he]
    exact congrArg _ (h.walk_zero fuel)
  | cons d p ih =>
    obtain ⟨fuel, rfl⟩ := Nat.exists_eq_succ_of_ne_zero (Nat.ne_of_gt (Nat.zero_lt_of_lt hfuel))
    rw [LoadedMap.walk, h.lookup he]
    exact congrArg _ (ih (tree.parent he) (Nat.lt_of_succ_lt_succ hfuel))

theorem pointer_hash (h : Whole C tree n m) {q : BlockPtr} (hq : q ≠ [] → q ∈ tree.entries) :
    m.pointer (BlockPtr.hash q) = q := by
  cases q with
  | nil => exact h.walk_zero _
  | cons e p =>
    have he := hq (List.cons_ne_nil e p)
    exact h.walk_hash he (h.length_le he)

end Whole

/-- The same block tree as before, with the same best block. -/
structure SameIndex (C : ChecksumHash) (s : IndexedNode) (s' : LoadedNode) : Prop where
  mapBlockIndex : s'.mapBlockIndex = s.mapBlockIndex
  pnext : s'.node.pnext = s.node.pnext
  nHeight : ∀ hash p, s.mapBlockIndex hash = some p → s'.nHeight hash = BlockPtr.nHeight p
  nMint : ∀ hash p, s.mapBlockIndex hash = some p → s'.node.nMint hash = s.node.nMint hash
  nMoneySupply : ∀ hash p, s.mapBlockIndex hash = some p →
    s'.node.nMoneySupply hash = s.node.nMoneySupply hash
  nChainTrust : ∀ hash p, s.mapBlockIndex hash = some p →
    s'.nChainTrust hash = BlockPtr.nChainTrust p
  nStakeModifierChecksum : ∀ hash p, s.mapBlockIndex hash = some p →
    some (s'.nStakeModifierChecksum hash) = BlockPtr.nStakeModifierChecksum C p
  setStakeSeen : s'.setStakeSeen = s.setStakeSeen
  pindexGenesisBlock : s'.node.pindexGenesisBlock = s.node.pindexGenesisBlock
  pindexBest : s'.node.pindexBest = s.node.pindexBest
  hashBestChain : s'.node.hashBestChain = s.node.hashBestChain
  nBestHeight : s'.node.nBestHeight = s.node.nBestHeight
  nBestChainTrust : s'.node.nBestChainTrust = s.node.nBestChainTrust
  hashSyncCheckpoint : s'.hashSyncCheckpoint = s.hashSyncCheckpoint
  txdb : s'.node.txdb = s.node.txdb

theorem Durable.sameIndex_toNode (h : Durable C tree sync s) (hbest : s.node.pindexBest ≠ [])
    {m : LoadedMap} (hm : Whole C tree s.node m) {st : LoadState} {done : List DiskBlockIndex}
    (hst : Filled tree s.node done st)
    (hdone : ∀ {e p}, e :: p ∈ tree.entries → s.node.recordOf e p ∈ done)
    (nBestInvalidTrust : Uint256) :
    SameIndex C s (m.toNode st s.node.txdb.pdb (BlockPtr.hash s.node.pindexBest)
      s.hashSyncCheckpoint nBestInvalidTrust) := by
  have hmain := h.mem_of_suffix List.suffix_rfl hbest
  have hentry : ∀ {hash p}, s.mapBlockIndex hash = some p →
      ∃ e q, p = e :: q ∧ e :: q ∈ tree.entries ∧ e.phashBlock = hash := by
    intro hash p hp
    obtain ⟨hmem, hhash⟩ := (h.indexed hash p).mp hp
    obtain ⟨e, q, rfl⟩ := List.exists_cons_of_ne_nil (BlockTree.ne_nil hmem)
    exact ⟨e, q, rfl, hmem, hhash⟩
  obtain ⟨best, pbest, hcons⟩ := List.exists_cons_of_ne_nil hbest
  have hlookup : m.lookup (BlockPtr.hash s.node.pindexBest) = some (.summed C s.node best pbest) := by
    rw [hcons]
    exact hm.lookup (hcons ▸ hmain)
  have hpointer : ∀ {q}, (q ≠ [] → q ∈ tree.entries) → m.pointer (BlockPtr.hash q) = q :=
    hm.pointer_hash
  refine {
    mapBlockIndex := ?_, pnext := ?_, nHeight := ?_, nMint := ?_, nMoneySupply := ?_
    nChainTrust := ?_, nStakeModifierChecksum := ?_, setStakeSeen := ?_, pindexGenesisBlock := ?_
    pindexBest := hpointer fun _ => hmain
    hashBestChain := h.consistent.hashBestChain.symm
    nBestHeight := ?_, nBestChainTrust := ?_
    hashSyncCheckpoint := rfl, txdb := ?_ }
  · funext hash
    change (if hash ∈ m then some (m.pointer hash) else none) = _
    by_cases hmem : hash ∈ m
    · obtain ⟨q, hq, rfl⟩ := hm.mem_iff.mp hmem
      rw [if_pos hmem, hpointer fun _ => hq]
      exact ((h.indexed _ q).mpr ⟨hq, rfl⟩).symm
    · rw [if_neg hmem]
      cases hp : s.mapBlockIndex hash with
      | none => rfl
      | some q => exact absurd (hm.mem_iff.mpr ⟨q, (h.indexed hash q).mp hp⟩) hmem
  · funext hash
    change (m.lookup hash).elim [] (fun pindex => m.pointer pindex.pnext) = _
    by_cases hmem : ∃ q ∈ tree.entries, BlockPtr.hash q = hash
    · obtain ⟨q, hq, rfl⟩ := hmem
      obtain ⟨e, p, rfl⟩ := List.exists_cons_of_ne_nil (BlockTree.ne_nil hq)
      rw [BlockPtr.hash_cons, hm.lookup hq, h.consistent.attached.pnext]
      refine (hpointer fun hne => ?_).trans (congrFun h.consistent.attached.pnext _)
      rw [h.consistent.attached.pnext] at hne ⊢
      exact h.mem_of_suffix (mainNext_suffix _ _) hne
    · have hnot : ∀ q ∈ tree.entries, BlockPtr.hash q ≠ hash := fun q hq hhash => hmem ⟨q, hq, hhash⟩
      rw [hm.lookup_of_not_indexed hnot]
      exact (Function.update_self hash _ _).symm.trans
        (congrFun (h.consistent.pnext_fresh hnot) hash)
  · intro hash p hp
    obtain ⟨e, q, rfl, he, rfl⟩ := hentry hp
    change (m.lookup e.phashBlock).elim 0 LoadedIndex.nHeight = _
    rw [hm.lookup he]
    rfl
  · intro hash p hp
    obtain ⟨e, q, rfl, he, rfl⟩ := hentry hp
    change (m.lookup e.phashBlock).elim 0 LoadedIndex.nMint = _
    rw [hm.lookup he]
    rfl
  · intro hash p hp
    obtain ⟨e, q, rfl, he, rfl⟩ := hentry hp
    change (m.lookup e.phashBlock).elim 0 LoadedIndex.nMoneySupply = _
    rw [hm.lookup he]
    rfl
  · intro hash p hp
    obtain ⟨e, q, rfl, he, rfl⟩ := hentry hp
    change (m.lookup e.phashBlock).elim 0 LoadedIndex.nChainTrust = _
    rw [hm.lookup he]
    rfl
  · intro hash p hp
    obtain ⟨e, q, rfl, he, rfl⟩ := hentry hp
    change some ((m.lookup e.phashBlock).elim 0 LoadedIndex.nStakeModifierChecksum) = _
    rw [hm.lookup he]
    rfl
  · ext stake
    refine (hst.setStakeSeen stake).trans ((h.setStakeSeen stake).trans ?_).symm
    constructor
    · rintro ⟨e, p, he, hrest⟩
      exact ⟨e, p, ⟨he, hdone he⟩, hrest⟩
    · rintro ⟨e, p, ⟨he, _⟩, hrest⟩
      exact ⟨e, p, he, hrest⟩
  · have hroot : s.node.pindexGenesisBlock <:+ s.node.pindexBest := by
      rw [h.consistent.pindexGenesisBlock]
      exact List.drop_suffix _ _
    obtain ⟨g, hg⟩ := List.length_eq_one_iff.mp
      (show s.node.pindexGenesisBlock.length = 1 by
        rw [h.consistent.pindexGenesisBlock, List.length_drop, hcons, List.length_cons]
        omega)
    rw [hg] at hroot ⊢
    have hmem := h.mem_of_suffix hroot (List.cons_ne_nil g [])
    have hgenesis := (tree.genesis hmem).mpr rfl
    change m.pointer st.pindexGenesisBlock = _
    rw [hst.genesis_of_mem hmem (hdone hmem) hgenesis, ← hgenesis]
    exact hpointer (q := [g]) fun _ => hmem
  · change (m.lookup (BlockPtr.hash s.node.pindexBest)).elim 0 LoadedIndex.nHeight = _
    rw [hlookup, h.nBestHeight, hcons]
    rfl
  · change (m.lookup (BlockPtr.hash s.node.pindexBest)).elim 0 LoadedIndex.nChainTrust = _
    rw [hlookup, h.nBestChainTrust, hcons]
    rfl
  · change (⟨s.node.txdb.pdb, none⟩ : ChainDB) = s.node.txdb
    rw [← h.consistent.attached.activeBatch]

theorem Durable.loadBlockIndex (h : Durable C tree (some (.hash s.hashSyncCheckpoint)) s)
    (hbest : s.node.pindexBest ≠ []) (hnull : ∀ tx ∈ files.txs, P.txHash tx ≠ 0) {io : LoadIo}
    (hio : io.Restarts P files s) :
    ∃ s', loadBlockIndex P C io s.node.txdb.pdb = some s' ∧ SameIndex C s s' := by
  have hmain := h.mem_of_suffix List.suffix_rfl hbest
  obtain ⟨st, hrecords, hst⟩ := h.foldlM_loadRecord hio
  have hdone : ∀ {e p}, e :: p ∈ tree.entries → s.node.recordOf e p ∈ io.blockIndexes :=
    fun he => (h.mem_blockIndexes hio).mpr ⟨_, _, he, rfl⟩
  have hfilled : Summed C tree s.node [] st.mapBlockIndex :=
    ⟨fun he => (hst.lookup he (hdone he)).trans (by rw [if_neg List.not_mem_nil]), hst.keys⟩
  obtain ⟨m, hsum, hm⟩ := hfilled.foldlM_calculateChainTrust h.loadable io.address
  have hwhole : Whole C tree s.node m := by
    refine ⟨fun he => ?_, hm.mem_iff, hm.lookup_zero⟩
    rw [hm.lookup he, if_pos]
    rw [LoadedMap.vSortedByHeight, List.mem_insertionSort, ← AList.mem_keys, hfilled.mem_iff]
    exact ⟨_, he, rfl⟩
  obtain ⟨best, pbest, hcons⟩ := List.exists_cons_of_ne_nil hbest
  have hbestKey : (s.node.txdb.pdb .hashBestChain).bind asHash =
      some (BlockPtr.hash s.node.pindexBest) := by
    rw [h.consistent.attached.bestKey, hcons]
    rfl
  have hsyncKey : (s.node.txdb.pdb .hashSyncCheckpoint).bind asHash =
      some s.hashSyncCheckpoint := by
    rw [← h.view_eq_pdb, h.recorded.sync]
    rfl
  have hmem : BlockPtr.hash s.node.pindexBest ∈ m := hwhole.mem_iff.mpr ⟨_, hmain, rfl⟩
  set bnBestInvalidTrust :=
    BitVec.ofInt 256 (((s.node.txdb.pdb .bnBestInvalidTrust).bind asBigNum).getD 0)
  have hsame := h.sameIndex_toNode hbest hwhole hst hdone bnBestInvalidTrust
  set loaded := m.toNode st s.node.txdb.pdb (BlockPtr.hash s.node.pindexBest) s.hashSyncCheckpoint
    bnBestInvalidTrust with hloaded
  have hverify : verifyChain P io m loaded.node loaded.node.pindexBest [] [] = some [] := by
    rw [hsame.pindexBest]
    refine verifyChain_eq_nil hnull hio h.indexed hmain h.consistent.attached.onBranch m hsame.txdb
      List.suffix_rfl fun _ e d q hsuf hle => ?_
    have hlen := (hsuf.trans hle).length_le
    rw [List.length_cons] at hlen
    omega
  have hguard : (guard (BlockPtr.hash s.node.pindexBest ∈ m) : Option Unit) = some () :=
    if_pos hmem
  refine ⟨loaded, ?_, hsame⟩
  unfold Beancash.loadBlockIndex
  simp only [hrecords, hsum, hbestKey, hguard, hsyncKey, Option.bind_eq_bind, Option.bind_some]
  exact (congrArg (Option.bind · _) hverify).trans rfl

end Beancash
