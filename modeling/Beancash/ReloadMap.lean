import Beancash.DurableIndex

namespace Beancash

open Fallible

variable {P : Params} {C : ChecksumHash} {files : Files} {tree : BlockTree P files}
  {sync : Option DbValue} {s : IndexedNode}

/-- What a node finds when it is started again: the iterator yields the records of the database,
the block files can be read, blocks and signatures are checked as before, and the clock is not
behind the best chain. -/
structure LoadIo.Restarts (io : LoadIo) (P : Params) (files : Files) (s : IndexedNode) : Prop where
  blockIndexes : ∀ d, d ∈ io.blockIndexes ↔
    ∃ hash, s.node.txdb.pdb (.blockindex hash) = some (.blockIndex d)
  readBlock : ∀ e p, s.mapBlockIndex e.phashBlock = some (e :: p) →
    (io.chain.block e.phashBlock).readBlock = files.blockOf e
  readTx : ∀ pos tx, files.txAt pos = some tx → io.readTx pos = some tx
  signed : ∀ e ∈ s.node.pindexBest, ∀ b, files.blockOf e = some b → io.signed b = true
  adjustedTime : ∀ e ∈ s.node.pindexBest, e.blockTime ≤ futureDrift io.adjustedTime

/-- The record of an entry, in which the link up is the one in memory. -/
def Node.recordOf (n : Node) (e : BlockIndex) (p : BlockPtr) : DiskBlockIndex :=
  n.diskBlockIndex e p (BlockPtr.hash (n.pnext e.phashBlock))

/-- The entry as its record fills it in. -/
def LoadedIndex.ofEntry (n : Node) (e : BlockIndex) (p : BlockPtr) : LoadedIndex where
  index := e
  pprev := BlockPtr.hash p
  pnext := BlockPtr.hash (n.pnext e.phashBlock)
  nHeight := p.length
  nMint := n.nMint e.phashBlock
  nMoneySupply := n.nMoneySupply e.phashBlock
  nChainTrust := 0
  nStakeModifierChecksum := 0

/-- And with what is summed up for it. -/
def LoadedIndex.summed (C : ChecksumHash) (n : Node) (e : BlockIndex) (p : BlockPtr) :
    LoadedIndex :=
  { ofEntry n e p with
    nChainTrust := BlockPtr.nChainTrust (e :: p)
    nStakeModifierChecksum := stakeModifierChecksum C (BlockPtr.nStakeModifierChecksum C p) e }

namespace Durable

theorem view_eq_pdb (h : Durable C tree sync s) : s.node.txdb.view = s.node.txdb.pdb := by
  rw [TxDB.view, h.consistent.attached.activeBatch]

theorem record_eq (h : Durable C tree sync s) {e : BlockIndex} {p : BlockPtr}
    (he : e :: p ∈ tree.entries) : s.node.txdb.pdb (.blockindex e.phashBlock) =
      some (.blockIndex (s.node.recordOf e p)) := by
  rw [← h.view_eq_pdb, h.recorded.record he, nextHash, ← h.consistent.attached.pnext]
  rfl

theorem mem_blockIndexes (h : Durable C tree sync s) {io : LoadIo} (hio : io.Restarts P files s)
    {d : DiskBlockIndex} :
    d ∈ io.blockIndexes ↔ ∃ e p, e :: p ∈ tree.entries ∧ d = s.node.recordOf e p := by
  rw [hio.blockIndexes]
  constructor
  · rintro ⟨hash, hd⟩
    by_cases hindexed : ∃ q ∈ tree.entries, BlockPtr.hash q = hash
    · obtain ⟨q, hq, rfl⟩ := hindexed
      obtain ⟨e, p, rfl⟩ := List.exists_cons_of_ne_nil (BlockTree.ne_nil hq)
      rw [BlockPtr.hash_cons, h.record_eq hq] at hd
      exact ⟨e, p, hq, (DbValue.blockIndex.inj (Option.some_injective _ hd)).symm⟩
    · have hnone := h.recorded.only fun q hq hhash => hindexed ⟨q, hq, hhash⟩
      rw [h.view_eq_pdb, hd] at hnone
      cases hnone
  · rintro ⟨e, p, he, rfl⟩
    exact ⟨e.phashBlock, h.record_eq he⟩

end Durable

theorem BlockTree.blockHash_recordOf {e : BlockIndex} {p : BlockPtr} (he : e :: p ∈ tree.entries)
    (n : Node) (io : LoadIo) :
    (n.recordOf e p).blockHeader = e.header ∧ (n.recordOf e p).blockHash P io = e.phashBlock := by
  obtain ⟨b, hb⟩ := Option.isSome_iff_exists.mp (tree.stored he)
  obtain ⟨hhash, hheader, hprev⟩ := tree.linked he hb
  have hlink : (n.recordOf e p).blockHeader = e.header := by
    rw [hheader] at hprev
    unfold DiskBlockIndex.blockHeader
    rw [show (n.recordOf e p).hashPrev = e.header.hashPrevBlock from hprev.symm]
    rfl
  refine ⟨hlink, ?_⟩
  unfold DiskBlockIndex.blockHash
  split
  · rfl
  · rw [hlink, ← hheader]
    exact hhash

theorem Durable.toLoaded_recordOf (h : Durable C tree sync s) {e : BlockIndex} {p : BlockPtr}
    (he : e :: p ∈ tree.entries) (io : LoadIo) :
    (s.node.recordOf e p).toLoaded e.phashBlock = .ofEntry s.node e p := by
  have hheader := (tree.blockHash_recordOf he s.node io).1
  unfold DiskBlockIndex.toLoaded LoadedIndex.ofEntry
  rw [hheader]
  obtain ⟨hunstaked, _⟩ := h.loadable he
  cases hstaked : e.fProofOfStake with
  | true =>
    rw [show (s.node.recordOf e p).index.fProofOfStake = true from hstaked]
    rfl
  | false =>
    obtain ⟨hprevout, htime⟩ := hunstaked hstaked
    rw [show (s.node.recordOf e p).index.fProofOfStake = false from hstaked, ← hprevout, ← htime]
    rfl

theorem lookup_insertBlockIndex {m : LoadedMap} {hash k : Uint256} {pindex : LoadedIndex}
    (h : m.lookup k = some pindex) : (insertBlockIndex m hash).lookup k = some pindex := by
  unfold insertBlockIndex
  split
  · exact h
  · rename_i hnew
    rw [AList.lookup_insert_ne, h]
    rintro rfl
    exact hnew (Or.inr (AList.lookup_isSome.mp (by rw [h]; rfl)))

theorem mem_insertBlockIndex {m : LoadedMap} {hash k : Uint256} (h : k ∈ insertBlockIndex m hash) :
    k ∈ m ∨ hash ≠ 0 ∧ k = hash := by
  unfold insertBlockIndex at h
  split at h
  · exact Or.inl h
  · rename_i hnew
    rw [not_or] at hnew
    exact ((AList.mem_insert m).mp h).symm.imp_right fun hk => ⟨hnew.1, hk⟩

/-- The hash of an entry, or that of the null pointer. -/
def BlockTree.Links (tree : BlockTree P files) (hash : Uint256) : Prop :=
  hash = 0 ∨ ∃ q ∈ tree.entries, BlockPtr.hash q = hash

/-- The state after the record of an entry. -/
def LoadState.fill (P : Params) (n : Node) (st : LoadState) (e : BlockIndex) (p : BlockPtr) :
    LoadState where
  mapBlockIndex := (insertBlockIndex (insertBlockIndex (insertBlockIndex st.mapBlockIndex
    e.phashBlock) (BlockPtr.hash p)) (BlockPtr.hash (n.pnext e.phashBlock))).insert e.phashBlock
      (.ofEntry n e p)
  setStakeSeen :=
    if e.fProofOfStake then insert (e.prevoutStake, e.nStakeTime) st.setStakeSeen
    else st.setStakeSeen
  pindexGenesisBlock :=
    if st.pindexGenesisBlock = 0 ∧ e.phashBlock = P.hashGenesisBlock then e.phashBlock
    else st.pindexGenesisBlock

/-- What the loop over the records has filled in of those in `done`. -/
structure Filled (tree : BlockTree P files) (n : Node) (done : List DiskBlockIndex)
    (st : LoadState) : Prop where
  lookup : ∀ {e p}, e :: p ∈ tree.entries → n.recordOf e p ∈ done →
    st.mapBlockIndex.lookup e.phashBlock = some (.ofEntry n e p)
  keys : ∀ {hash}, hash ∈ st.mapBlockIndex → ∃ q ∈ tree.entries, BlockPtr.hash q = hash
  setStakeSeen : ∀ stake, stake ∈ st.setStakeSeen ↔
    ∃ e p, (e :: p ∈ tree.entries ∧ n.recordOf e p ∈ done) ∧ e.fProofOfStake = true ∧
      stake = (e.prevoutStake, e.nStakeTime)
  genesis : st.pindexGenesisBlock = 0 ∨ st.pindexGenesisBlock = P.hashGenesisBlock
  genesis_of_mem : ∀ {e p}, e :: p ∈ tree.entries → n.recordOf e p ∈ done →
    e.phashBlock = P.hashGenesisBlock → st.pindexGenesisBlock = P.hashGenesisBlock

namespace Durable

theorem mem_of_suffix (h : Durable C tree sync s) {q : BlockPtr} (hq : q <:+ s.node.pindexBest)
    (hne : q ≠ []) : q ∈ tree.entries := by
  rcases h.consistent.best with hnil | hmem
  · rw [hnil] at hq
    exact absurd (List.suffix_nil.mp hq) hne
  · exact tree.mem_of_suffix hmem hq hne

theorem links_pnext (h : Durable C tree sync s) (hash : Uint256) :
    tree.Links (BlockPtr.hash (s.node.pnext hash)) := by
  rw [h.consistent.attached.pnext]
  by_cases hnil : mainNext s.node.pindexBest hash = []
  · rw [hnil]
    exact Or.inl rfl
  · exact Or.inr ⟨_, h.mem_of_suffix (mainNext_suffix _ hash) hnil, rfl⟩

theorem loadRecord_recordOf (h : Durable C tree sync s) (io : LoadIo) (st : LoadState)
    {e : BlockIndex} {p : BlockPtr} (he : e :: p ∈ tree.entries) :
    loadRecord P io st (s.node.recordOf e p) = some (st.fill P s.node e p) := by
  unfold loadRecord
  simp only [(tree.blockHash_recordOf he s.node io).2, h.toLoaded_recordOf he io]
  have hguard : (guard (e.phashBlock ≠ 0) : Option Unit) = some () :=
    if_pos (tree.hash_ne_zero he)
  rw [hguard]
  rfl

theorem filled_fill (h : Durable C tree sync s) {done : List DiskBlockIndex} {st : LoadState}
    (hst : Filled tree s.node done st) {e : BlockIndex} {p : BlockPtr}
    (he : e :: p ∈ tree.entries) :
    Filled tree s.node (done ++ [s.node.recordOf e p]) (st.fill P s.node e p) := by
  -- whoever has this hash is this entry
  have hsame : ∀ {e' p'}, e' :: p' ∈ tree.entries → e'.phashBlock = e.phashBlock →
      e' = e ∧ p' = p := fun he' heq => List.cons.inj (tree.hash_injOn he' he heq)
  have hdone : ∀ {e' p'}, e'.phashBlock ≠ e.phashBlock →
      s.node.recordOf e' p' ∈ done ++ [s.node.recordOf e p] → s.node.recordOf e' p' ∈ done := by
    intro e' p' hne hmem
    refine (List.mem_append.mp hmem).resolve_right fun hlast => hne ?_
    exact congrArg (fun d => d.index.phashBlock) (List.mem_singleton.mp hlast)
  have hlinks : ∀ {hash}, tree.Links hash → hash ≠ 0 → ∃ q ∈ tree.entries, BlockPtr.hash q = hash :=
    fun hlink hne => hlink.resolve_left hne
  refine ⟨fun {e' p'} he' hmem => ?_, fun {hash} hkey => ?_, fun stake => ?_, ?_, ?_⟩
  · by_cases heq : e'.phashBlock = e.phashBlock
    · obtain ⟨rfl, rfl⟩ := hsame he' heq
      exact AList.lookup_insert _
    · refine (AList.lookup_insert_ne heq).trans ?_
      exact lookup_insertBlockIndex (lookup_insertBlockIndex (lookup_insertBlockIndex
        (hst.lookup he' (hdone heq hmem))))
  · rcases (AList.mem_insert _).mp hkey with rfl | hkey
    · exact ⟨_, he, rfl⟩
    rcases mem_insertBlockIndex hkey with hkey | ⟨hne, rfl⟩
    · rcases mem_insertBlockIndex hkey with hkey | ⟨hne, rfl⟩
      · rcases mem_insertBlockIndex hkey with hkey | ⟨hne, rfl⟩
        · exact hst.keys hkey
        · exact ⟨_, he, rfl⟩
      · cases p with
        | nil => exact absurd rfl hne
        | cons d p => exact ⟨_, tree.parent he, rfl⟩
    · exact hlinks (h.links_pnext e.phashBlock) hne
  · refine mem_insertStake (p := p) hst.setStakeSeen (fun e' p' => ?_) stake
    constructor
    · rintro ⟨he', hmem⟩
      by_cases heq : e'.phashBlock = e.phashBlock
      · exact Or.inl (hsame he' heq)
      · exact Or.inr ⟨he', hdone heq hmem⟩
    · rintro (⟨rfl, rfl⟩ | ⟨he', hmem⟩)
      · exact ⟨he, List.mem_append_right _ (List.mem_singleton_self _)⟩
      · exact ⟨he', List.mem_append_left _ hmem⟩
  · change (if _ then _ else _) = _ ∨ (if _ then _ else _) = _
    split
    · rename_i hgenesis
      exact Or.inr hgenesis.2
    · exact hst.genesis
  · intro e' p' he' hmem hgenesis
    change (if _ then _ else _) = _
    by_cases heq : e'.phashBlock = e.phashBlock
    · split
      · rename_i hnew
        exact hnew.2
      · rename_i hold
        refine hst.genesis.resolve_left fun hzero => hold ⟨hzero, ?_⟩
        exact heq.symm.trans hgenesis
    · have hold := hst.genesis_of_mem he' (hdone heq hmem) hgenesis
      split
      · rename_i hnew
        exact hnew.2
      · exact hold

theorem foldlM_loadRecord (h : Durable C tree sync s) {io : LoadIo} (hio : io.Restarts P files s) :
    ∃ st, io.blockIndexes.foldlM (loadRecord P io) ⟨∅, ∅, 0⟩ = some st ∧
      Filled tree s.node io.blockIndexes st := by
  refine foldlM_invariant (I := Filled tree s.node) ?_ ?_
  · intro done d rest st hl hst
    have hd : d ∈ io.blockIndexes := hl ▸ List.mem_append_right _ List.mem_cons_self
    obtain ⟨e, p, he, rfl⟩ := (h.mem_blockIndexes hio).mp hd
    exact ⟨_, h.loadRecord_recordOf io st he, h.filled_fill hst he⟩
  · refine ⟨fun _ hmem => ?_, fun hkey => ?_, fun stake => ?_, Or.inl rfl, fun _ hmem => ?_⟩
    · cases hmem
    · exact absurd hkey (AList.notMem_empty _)
    · simp
    · cases hmem

end Durable

/-- The map after the entries in `done` have been summed up. -/
structure Summed (C : ChecksumHash) (tree : BlockTree P files) (n : Node) (done : List Uint256)
    (m : LoadedMap) : Prop where
  lookup : ∀ {e p}, e :: p ∈ tree.entries → m.lookup e.phashBlock =
    some (if e.phashBlock ∈ done then .summed C n e p else .ofEntry n e p)
  keys : ∀ {hash}, hash ∈ m → ∃ q ∈ tree.entries, BlockPtr.hash q = hash

namespace Summed

variable {n : Node} {done : List Uint256} {m : LoadedMap}

theorem mem_iff (h : Summed C tree n done m) {hash : Uint256} :
    hash ∈ m ↔ ∃ q ∈ tree.entries, BlockPtr.hash q = hash := by
  refine ⟨h.keys, ?_⟩
  rintro ⟨q, hq, rfl⟩
  obtain ⟨e, p, rfl⟩ := List.exists_cons_of_ne_nil (BlockTree.ne_nil hq)
  exact AList.lookup_isSome.mp (by rw [BlockPtr.hash_cons, h.lookup hq]; rfl)

theorem lookup_zero (h : Summed C tree n done m) : m.lookup 0 = none := by
  rw [AList.lookup_eq_none]
  intro hzero
  obtain ⟨q, hq, hhash⟩ := h.keys hzero
  exact tree.hash_ne_zero hq hhash

theorem nHeight_eq (h : Summed C tree n done m) {e : BlockIndex} {p : BlockPtr}
    (he : e :: p ∈ tree.entries) : m.nHeight e.phashBlock = p.length := by
  rw [LoadedMap.nHeight, h.lookup he]
  split <;> rfl

theorem lookup_pprev (h : Summed C tree n done m) {p : BlockPtr} (hp : p ≠ [] → p ∈ tree.entries)
    (hparent : ∀ d q, p = d :: q → d.phashBlock ∈ done) :
    (m.lookup (BlockPtr.hash p)).elim 0 LoadedIndex.nChainTrust = BlockPtr.nChainTrust p ∧
      (m.lookup (BlockPtr.hash p)).map LoadedIndex.nStakeModifierChecksum =
        BlockPtr.nStakeModifierChecksum C p := by
  cases p with
  | nil =>
    rw [show BlockPtr.hash [] = 0 from rfl, h.lookup_zero]
    exact ⟨rfl, rfl⟩
  | cons d q =>
    rw [BlockPtr.hash_cons, h.lookup (hp (List.cons_ne_nil d q)), if_pos (hparent d q rfl)]
    exact ⟨rfl, rfl⟩

theorem calculateChainTrust (h : Summed C tree n done m) {e : BlockIndex} {p : BlockPtr}
    (he : e :: p ∈ tree.entries) (hload : Loadable P C e p)
    (hparent : ∀ d q, p = d :: q → d.phashBlock ∈ done) :
    ∃ m', calculateChainTrust P C m e.phashBlock = some m' ∧
      Summed C tree n (done ++ [e.phashBlock]) m' := by
  obtain ⟨htrust, hchecksum⟩ :=
    h.lookup_pprev (tree.mem_of_suffix he (List.suffix_cons e p)) hparent
  have hguard : (guard (checkStakeModifierCheckpoints P p.length
      (stakeModifierChecksum C (BlockPtr.nStakeModifierChecksum C p) e) = true) : Option Unit) =
        some () := if_pos hload.checkpoint
  have htotal : BlockPtr.nChainTrust p + blockTrust e.header.nBits =
      BlockPtr.nChainTrust (e :: p) := BitVec.add_comm _ _
  have hrun : Beancash.calculateChainTrust P C m e.phashBlock =
      some (m.insert e.phashBlock (.summed C n e p)) := by
    unfold Beancash.calculateChainTrust
    rw [h.lookup he]
    -- summed up before or not, the entry comes out the same
    split <;>
    · simp only [LoadedIndex.summed, LoadedIndex.ofEntry, Option.bind_eq_bind, Option.bind_some,
        htrust, hchecksum, hguard, htotal]
      rfl
  refine ⟨_, hrun, fun {e' p'} he' => ?_, fun hkey => ?_⟩
  · by_cases heq : e'.phashBlock = e.phashBlock
    · obtain ⟨rfl, rfl⟩ := List.cons.inj (tree.hash_injOn he' he heq)
      rw [AList.lookup_insert, if_pos (List.mem_append_right _ (List.mem_singleton_self _))]
    · rw [AList.lookup_insert_ne heq, h.lookup he']
      simp only [List.mem_append, List.mem_singleton, heq, or_false]
  · rcases (AList.mem_insert m).mp hkey with rfl | hkey
    · exact ⟨_, he, rfl⟩
    · exact h.keys hkey

end Summed

namespace LoadedMap

variable {m : LoadedMap} {address : Uint256 → ℕ}

instance : Std.Total (byHeight m address) := ⟨fun a b => by
  unfold byHeight
  omega⟩

instance : IsTrans Uint256 (byHeight m address) := ⟨fun a b c hab hbc => by
  unfold byHeight at *
  omega⟩

theorem pairwise_vSortedByHeight : (vSortedByHeight m address).Pairwise (byHeight m address) :=
  List.pairwise_insertionSort _ _

end LoadedMap

theorem Summed.foldlM_calculateChainTrust {n : Node} {m : LoadedMap}
    (h : Summed C tree n [] m) (hload : ∀ {e p}, e :: p ∈ tree.entries → Loadable P C e p)
    (address : Uint256 → ℕ) :
    ∃ m', (m.vSortedByHeight address).foldlM (Beancash.calculateChainTrust P C) m = some m' ∧
      Summed C tree n (m.vSortedByHeight address) m' := by
  have hsorted := @LoadedMap.pairwise_vSortedByHeight m address
  refine foldlM_invariant (I := Summed C tree n) ?_ h
  intro done hash rest m' hl hm'
  have hkeys : ∀ {k}, k ∈ m.vSortedByHeight address ↔ ∃ q ∈ tree.entries, BlockPtr.hash q = k := by
    intro k
    rw [LoadedMap.vSortedByHeight, List.mem_insertionSort, ← AList.mem_keys, h.mem_iff]
  obtain ⟨q, hq, rfl⟩ := hkeys.mp (hl ▸ List.mem_append_right _ List.mem_cons_self)
  obtain ⟨e, p, rfl⟩ := List.exists_cons_of_ne_nil (BlockTree.ne_nil hq)
  refine hm'.calculateChainTrust hq (hload hq) ?_
  rintro d q rfl
  -- the parent is lower, so that it cannot come later
  have hparent : d.phashBlock ∈ m.vSortedByHeight address := hkeys.mpr ⟨_, tree.parent hq, rfl⟩
  rw [hl] at hparent hsorted
  refine (List.mem_append.mp hparent).resolve_right fun hlater => ?_
  have hheight : m.nHeight e.phashBlock = (d :: q).length ∧ m.nHeight d.phashBlock = q.length :=
    ⟨h.nHeight_eq hq, h.nHeight_eq (tree.parent hq)⟩
  rw [List.length_cons] at hheight
  rcases List.mem_cons.mp hlater with heq | hlater
  · rw [heq] at hheight
    change m.nHeight e.phashBlock = _ ∧ m.nHeight e.phashBlock = _ at hheight
    omega
  · have hle := (List.pairwise_cons.mp (List.pairwise_append.mp hsorted).2.1).1 _ hlater
    change m.nHeight e.phashBlock < _ ∨ m.nHeight e.phashBlock = _ ∧ _ at hle
    omega

end Beancash
