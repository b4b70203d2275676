import Beancash.CheckpointSpec

namespace Beancash

/-- The loop of `CBlockLocator::Set`. Each round goes back at least one block, so that there are
at most as many rounds as blocks (`fuel`). -/
def locatorLoop (fuel nStep : ℕ) (vHave : List Uint256) (pindex : BlockPtr) : List Uint256 :=
  match fuel, pindex with
  | fuel + 1, e :: p =>
    let vHave := vHave ++ [e.phashBlock]
    -- exponentially larger steps back
    locatorLoop fuel (if 10 < vHave.length then nStep * 2 else nStep) vHave ((e :: p).drop nStep)
  | _, _ => vHave

/-- `CBlockLocator::Set`. By the time a step does not fit an `int` the walk is at its end. -/
def locatorSet (P : Params) (pindex : BlockPtr) : List Uint256 :=
  locatorLoop pindex.length 1 [] pindex ++ [P.hashGenesisBlock]

/-- The entry of a hash, if it is in the main chain. -/
def IndexedNode.findInMainChain (s : IndexedNode) (hash : Uint256) : Option BlockPtr :=
  (s.mapBlockIndex hash).filter fun pindex => s.isInMainChain pindex

/-- `CBlockLocator::GetBlockIndex` -/
def IndexedNode.getBlockIndex (s : IndexedNode) (vHave : List Uint256) : BlockPtr :=
  (vHave.findSome? s.findInMainChain).getD s.node.pindexGenesisBlock

/-- The blocks that the loop names when `n` are named already. -/
def locatorBlocks (fuel nStep n : ℕ) (pindex : BlockPtr) : List BlockPtr :=
  match fuel, pindex with
  | fuel + 1, e :: p =>
    (e :: p) :: locatorBlocks fuel (if 10 < n + 1 then nStep * 2 else nStep) (n + 1)
      ((e :: p).drop nStep)
  | _, _ => []

theorem locatorLoop_eq (fuel nStep : ℕ) (vHave : List Uint256) (pindex : BlockPtr) :
    locatorLoop fuel nStep vHave pindex =
      vHave ++ (locatorBlocks fuel nStep vHave.length pindex).map BlockPtr.hash := by
  induction fuel generalizing nStep vHave pindex with
  | zero => simp [locatorLoop, locatorBlocks]
  | succ fuel ih =>
    cases pindex with
    | nil => simp [locatorLoop, locatorBlocks]
    | cons e p =>
      simp only [locatorLoop, locatorBlocks]
      rw [ih]
      simp

theorem locatorSet_eq (P : Params) (pindex : BlockPtr) : locatorSet P pindex =
    (locatorBlocks pindex.length 1 0 pindex).map BlockPtr.hash ++ [P.hashGenesisBlock] := by
  rw [locatorSet, locatorLoop_eq]
  rfl

theorem suffix_of_mem_locatorBlocks {fuel nStep n : ℕ} {pindex q : BlockPtr}
    (hq : q ∈ locatorBlocks fuel nStep n pindex) : q <:+ pindex ∧ q ≠ [] := by
  induction fuel generalizing nStep n pindex with
  | zero => simp [locatorBlocks] at hq
  | succ fuel ih =>
    cases pindex with
    | nil => simp [locatorBlocks] at hq
    | cons e p =>
      rcases List.mem_cons.mp hq with rfl | hq
      · exact ⟨List.suffix_rfl, List.cons_ne_nil e p⟩
      · obtain ⟨hsuf, hne⟩ := ih hq
        exact ⟨hsuf.trans (List.drop_suffix _ _), hne⟩

theorem pairwise_locatorBlocks {fuel nStep n : ℕ} {pindex : BlockPtr} (hstep : 0 < nStep) :
    (locatorBlocks fuel nStep n pindex).Pairwise
      fun q r => BlockPtr.nHeight r < BlockPtr.nHeight q := by
  induction fuel generalizing nStep n pindex with
  | zero => exact List.Pairwise.nil
  | succ fuel ih =>
    cases pindex with
    | nil => exact List.Pairwise.nil
    | cons e p =>
      refine List.Pairwise.cons ?_ (ih ?_)
      · intro r hr
        obtain ⟨hsuf, hne⟩ := suffix_of_mem_locatorBlocks hr
        have hle := hsuf.length_le
        have hpos := List.length_pos_of_ne_nil hne
        rw [List.length_drop, List.length_cons] at hle
        simp only [BlockPtr.nHeight, List.length_cons]
        omega
      · split <;> omega

theorem locatorSet_spec {P : Params} {pindex : BlockPtr} (h : pindex ≠ []) : ∃ blocks : List BlockPtr,
    locatorSet P pindex = blocks.map BlockPtr.hash ++ [P.hashGenesisBlock] ∧
      blocks.head? = some pindex ∧ (∀ q ∈ blocks, q <:+ pindex ∧ q ≠ []) ∧
      blocks.Pairwise fun q r => BlockPtr.nHeight r < BlockPtr.nHeight q := by
  refine ⟨_, locatorSet_eq P pindex, ?_, fun q hq => suffix_of_mem_locatorBlocks hq,
    pairwise_locatorBlocks Nat.one_pos⟩
  cases pindex with
  | nil => exact absurd rfl h
  | cons e p => rfl

/-- A node with a main chain in the tree, of which it has all blocks. -/
structure Receiver {P : Params} {files : Files} (tree : BlockTree P files) (s : IndexedNode) :
    Prop where
  best : s.node.pindexBest ∈ tree.entries
  pnext : s.node.pnext = mainNext s.node.pindexBest
  indexed : ∀ {hash q}, s.mapBlockIndex hash = some q → q ∈ tree.entries ∧ BlockPtr.hash q = hash
  main : ∀ {q}, q <:+ s.node.pindexBest → q ≠ [] → s.mapBlockIndex (BlockPtr.hash q) = some q

/-- The last block of a branch that is in the main chain is `d` blocks below its tip. -/
structure LastCommon (s : IndexedNode) (p : BlockPtr) (d : ℕ) : Prop where
  common : p.drop d <:+ s.node.pindexBest
  ne_nil : p.drop d ≠ []
  last : ∀ k < d, ¬p.drop k <:+ s.node.pindexBest

namespace Receiver

variable {P : Params} {files : Files} {tree : BlockTree P files} {s : IndexedNode} {p : BlockPtr}

theorem of_consistent (h : Consistent tree s.node) (hbest : s.node.pindexBest ≠ [])
    (hindexed : tree.IndexedBy s.mapBlockIndex) : Receiver tree s := by
  have hmem := h.best.resolve_left hbest
  refine ⟨hmem, h.attached.pnext, fun hq => (hindexed _ _).mp hq, fun hq hne => ?_⟩
  exact (hindexed _ _).mpr ⟨tree.mem_of_suffix hmem hq hne, rfl⟩

theorem findInMainChain_hash (h : Receiver tree s) {q : BlockPtr} (hq : q ∈ tree.entries) :
    s.findInMainChain (BlockPtr.hash q) =
      if q <:+ s.node.pindexBest then some q else none := by
  have hiff := IndexedNode.isInMainChain_iff h.best h.pnext hq
  unfold IndexedNode.findInMainChain
  by_cases hmain : q <:+ s.node.pindexBest
  · rw [if_pos hmain, h.main hmain (BlockTree.ne_nil hq)]
    simp [hiff.mpr hmain]
  · rw [if_neg hmain, Option.filter_eq_none_iff]
    intro r hr
    obtain ⟨hr, hhash⟩ := h.indexed hr
    obtain rfl := tree.hash_injOn hr hq hhash
    rw [hiff]
    exact hmain

/-- From a block on that is at most twice as far as the last common one, as long as no step is
longer than the way before it, the first block of the main chain is. -/
theorem findSome?_locatorBlocks (h : Receiver tree s) (hp : p ∈ tree.entries) {d : ℕ}
    (hd : LastCommon s p d) {fuel nStep n D : ℕ} (hstep : 0 < nStep) (hle : nStep ≤ D + 1)
    (hfar : D ≤ 2 * d) (hfuel : p.length ≤ fuel + D) :
    (∃ k, d ≤ k ∧ k ≤ 2 * d ∧ k < p.length ∧
      ((locatorBlocks fuel nStep n (p.drop D)).map BlockPtr.hash).findSome? s.findInMainChain =
        some (p.drop k)) ∨
    p.length ≤ 2 * d ∧
      ((locatorBlocks fuel nStep n (p.drop D)).map BlockPtr.hash).findSome? s.findInMainChain =
        none := by
  induction fuel generalizing nStep n D with
  | zero =>
    refine Or.inr ⟨by omega, ?_⟩
    simp [locatorBlocks]
  | succ fuel ih =>
    cases hdrop : p.drop D with
    | nil =>
      rw [List.drop_eq_nil_iff] at hdrop
      exact Or.inr ⟨by omega, rfl⟩
    | cons e q =>
      have hlt : D < p.length := by
        by_contra hge
        rw [List.drop_eq_nil_iff.mpr (by omega)] at hdrop
        cases hdrop
      have hmem := tree.mem_of_suffix hp (List.drop_suffix D p) (by rw [hdrop]; simp)
      have hfind := h.findInMainChain_hash hmem
      simp only [locatorBlocks, List.map_cons, List.findSome?_cons]
      rw [← hdrop]
      rcases Nat.lt_or_ge D d with hbefore | hafter
      · rw [hfind, if_neg (hd.last D hbefore), List.drop_drop]
        apply ih
        · split <;> omega
        · split <;> omega
        · omega
        · omega
      · have hmain : p.drop D <:+ s.node.pindexBest := by
          have hsuf : p.drop D <:+ p.drop d := by
            obtain ⟨k, rfl⟩ := Nat.exists_eq_add_of_le hafter
            rw [← List.drop_drop]
            exact List.drop_suffix k _
          exact hsuf.trans hd.common
        rw [hfind, if_pos hmain]
        exact Or.inl ⟨D, hafter, hfar, hlt, rfl⟩

end Receiver

/-- The locator of a block goes from it down its branch to the genesis block, and a receiver finds
the block of its main chain from which to go on: an ancestor that is at most twice as far away as
the last common one. -/
theorem getBlockIndex_locatorSet {P : Params} {files : Files} (tree : BlockTree P files)
    {p : BlockPtr} (hp : p ∈ tree.entries) :
    (∃ blocks : List BlockPtr,
      locatorSet P p = blocks.map BlockPtr.hash ++ [P.hashGenesisBlock] ∧
      blocks.head? = some p ∧ (∀ q ∈ blocks, q <:+ p ∧ q ≠ []) ∧
      blocks.Pairwise fun q r => BlockPtr.nHeight r < BlockPtr.nHeight q) ∧
    ∀ (s : IndexedNode) (d : ℕ), Receiver tree s → LastCommon s p d →
      ∃ k ≤ 2 * d, k < p.length ∧ s.getBlockIndex (locatorSet P p) = p.drop k ∧
        p.drop k <:+ s.node.pindexBest ∧
        BlockPtr.nHeight (p.drop k) + k = BlockPtr.nHeight p ∧ (d = 0 → p.drop k = p) := by
  refine ⟨locatorSet_spec (BlockTree.ne_nil hp), fun s d h hd => ?_⟩
  have hsuffix : ∀ {k}, d ≤ k → p.drop k <:+ s.node.pindexBest := by
    intro k hk
    obtain ⟨j, rfl⟩ := Nat.exists_eq_add_of_le hk
    rw [← List.drop_drop]
    exact (List.drop_suffix j _).trans hd.common
  have hresult : ∀ {k}, d ≤ k → k ≤ 2 * d → k < p.length →
      s.getBlockIndex (locatorSet P p) = p.drop k →
      ∃ k ≤ 2 * d, k < p.length ∧ s.getBlockIndex (locatorSet P p) = p.drop k ∧
        p.drop k <:+ s.node.pindexBest ∧
        BlockPtr.nHeight (p.drop k) + k = BlockPtr.nHeight p ∧ (d = 0 → p.drop k = p) := by
    intro k hk hle hlt heq
    refine ⟨k, hle, hlt, heq, hsuffix hk, ?_, ?_⟩
    · rw [BlockPtr.nHeight, BlockPtr.nHeight, List.length_drop]
      omega
    · intro hzero
      obtain rfl : k = 0 := by omega
      rfl
  have hfind := h.findSome?_locatorBlocks hp hd (n := 0) Nat.one_pos (Nat.le_refl 1)
    (Nat.zero_le _) (Nat.le_refl p.length)
  rw [List.drop_zero] at hfind
  have hget : s.getBlockIndex (locatorSet P p) =
      ((((locatorBlocks p.length 1 0 p).map BlockPtr.hash).findSome? s.findInMainChain).or
        (s.findInMainChain P.hashGenesisBlock)).getD s.node.pindexGenesisBlock := by
    rw [IndexedNode.getBlockIndex, locatorSet_eq, List.findSome?_append]
    simp
  rcases hfind with ⟨k, hk, hle, hlt, hsome⟩ | ⟨hshort, hnone⟩
  · apply hresult hk hle hlt
    rw [hget, hsome]
    rfl
  · -- the walk went past the genesis block, which is the last that is named
    have hd' : d < p.length := by
      by_contra hge
      exact hd.ne_nil (List.drop_eq_nil_iff.mpr (by omega))
    obtain ⟨g, hg⟩ := List.length_eq_one_iff.mp
      (show (p.drop (p.length - 1)).length = 1 by rw [List.length_drop]; omega)
    have hmem : [g] ∈ tree.entries := by
      rw [← hg]
      exact tree.mem_of_suffix hp (List.drop_suffix _ p) (by rw [hg]; simp)
    have hmain := hsuffix (k := p.length - 1) (by omega)
    have hfound := h.findInMainChain_hash hmem
    rw [BlockPtr.hash_cons, (tree.genesis hmem).mpr rfl, if_pos (hg ▸ hmain)] at hfound
    apply hresult (k := p.length - 1) (by omega) (by omega) (by omega)
    rw [hget, hnone, hfound, hg]
    rfl

namespace Sample

/-- A node that has not heard of `second`. -/
def lagging : IndexedNode where
  node := { node with
    pindexBest := [entry first, entry genesis]
    pnext := mainNext [entry first, entry genesis] }
  mapBlockIndex hash :=
    [[entry first, entry genesis], [entry genesis]].find? fun q => BlockPtr.hash q = hash
  setStakeSeen := ∅
  hashSyncCheckpoint := 1
  hashPendingCheckpoint := 0
  hashInvalidCheckpoint := 0

theorem receiver_lagging : Receiver forkTree lagging where
  best := BlockTree.mem_ofList.mpr (by decide)
  pnext := rfl
  indexed {hash q} hq := by
    have hmem := List.mem_of_find?_eq_some hq
    have hhash := List.find?_some hq
    refine ⟨BlockTree.mem_ofList.mpr ?_, of_decide_eq_true hhash⟩
    rcases List.mem_pair.mp hmem with rfl | rfl <;> decide
  main {q} hq hne := by
    rcases List.suffix_cons_iff.mp hq with rfl | hq
    · decide
    · rcases List.suffix_cons_iff.mp hq with rfl | hq
      · decide
      · exact absurd (List.suffix_nil.mp hq) hne

theorem lastCommon_lagging :
    LastCommon lagging [entry second, entry first, entry genesis] 1 where
  common := List.suffix_rfl
  ne_nil := List.cons_ne_nil _ _
  last k hk hsuf := by
    obtain rfl : k = 0 := by omega
    have hle := hsuf.length_le
    exact absurd hle (by decide)

end Sample

open Sample in
theorem getBlockIndex_locatorSet_second :
    [entry second, entry first, entry genesis] ∈ forkTree.entries ∧ ∃ k ≤ 2 * 1,
      lagging.getBlockIndex (locatorSet params [entry second, entry first, entry genesis]) =
        [entry second, entry first, entry genesis].drop k := by
  have hmem : [entry second, entry first, entry genesis] ∈ forkTree.entries :=
    BlockTree.mem_ofList.mpr (by decide)
  obtain ⟨k, hk, -, hget, -⟩ := (getBlockIndex_locatorSet forkTree hmem).2 lagging 1
    receiver_lagging lastCommon_lagging
  exact ⟨hmem, k, hk, hget⟩

end Beancash
