import Beancash.KernelModifier

namespace Beancash

open Fallible

/-- What a walk along the links comes to. -/
inductive Walk where
  | found (pindex : BlockPtr)
  | nullLink
  /-- There are more links than were allowed for. -/
  | endless
deriving DecidableEq

/-- `while (pblockindex->nHeight > nHeight) pblockindex = pblockindex->pprev;` -/
def walkDown (nHeight : ℤ) : BlockPtr → Walk
  | [] => .nullLink
  | e :: p => if nHeight < p.length then walkDown nHeight p else .found (e :: p)

/-- `while (pblockindex->nHeight < nHeight) pblockindex = pblockindex->pnext;`, for so many
links. -/
def walkUp (pnext : Uint256 → BlockPtr) (nHeight : ℤ) : ℕ → BlockPtr → Walk
  | _, [] => .nullLink
  | 0, e :: p => if (p.length : ℤ) < nHeight then .endless else .found (e :: p)
  | fuel + 1, e :: p =>
    if (p.length : ℤ) < nHeight then walkUp pnext nHeight fuel (pnext e.phashBlock)
    else .found (e :: p)

/-- The chain, and the static variable beside it. -/
structure BlockFinder where
  node : Node
  pblockindexFBBHLast : BlockPtr

namespace BlockFinder

/-- Where `FindBlockByHeight` starts. -/
def startFrom (s : BlockFinder) (nHeight : ℤ) : BlockPtr :=
  let pblockindex := if nHeight < (s.node.nBestHeight : ℤ) / 2 then s.node.pindexGenesisBlock
    else s.node.pindexBest
  let last := s.pblockindexFBBHLast
  if pblockindex ≠ [] ∧ last ≠ [] ∧
      (nHeight - BlockPtr.nHeight last).natAbs < (nHeight - BlockPtr.nHeight pblockindex).natAbs then
    last
  else pblockindex

/-- `FindBlockByHeight`; what it finds is to be stored. -/
def findBlockByHeight (fuel : ℕ) (s : BlockFinder) (nHeight : ℤ) : Walk :=
  match walkDown nHeight (s.startFrom nHeight) with
  | .found pblockindex => walkUp s.node.pnext nHeight fuel pblockindex
  | walk => walk

end BlockFinder

theorem walkDown_of_suffix {e : BlockIndex} {p q : BlockPtr} (hq : e :: q <:+ p) :
    walkDown q.length p = .found (e :: q) := by
  induction p with
  | nil => exact absurd (List.suffix_nil.mp hq) (List.cons_ne_nil e q)
  | cons d p ih =>
    rcases List.suffix_cons_iff.mp hq with heq | hq
    · rw [← heq, walkDown, if_neg (lt_irrefl _)]
    · have hlen := hq.length_le
      rw [List.length_cons] at hlen
      rw [walkDown, if_pos (by omega), ih hq]

theorem walkDown_of_le {e : BlockIndex} {p : BlockPtr} {nHeight : ℤ} (h : (p.length : ℤ) ≤ nHeight) :
    walkDown nHeight (e :: p) = .found (e :: p) := by
  rw [walkDown, if_neg (not_lt.mpr h)]

variable {P : Params} {files : Files} {tree : BlockTree P files}

theorem walkUp_of_suffix {p : BlockPtr} (hp : p ∈ tree.entries) {e c : BlockIndex} {q r : BlockPtr}
    (hr : c :: r <:+ p) (hq : e :: q <:+ c :: r) {fuel : ℕ} (hfuel : r.length ≤ q.length + fuel) :
    walkUp (mainNext p) r.length fuel (e :: q) = .found (c :: r) := by
  induction fuel generalizing e q with
  | zero =>
    have heq := hq.eq_of_length_le (by simp only [List.length_cons]; omega)
    rw [heq, walkUp, if_neg (lt_irrefl _)]
  | succ fuel ih =>
    rw [walkUp]
    by_cases hlow : q.length < r.length
    · -- the next block is not above the one that is looked for
      have hq' : e :: q <:+ r := (List.suffix_cons_iff.mp hq).resolve_left fun heq => by
        rw [(List.cons.inj heq).2] at hlow
        exact lt_irrefl _ hlow
      have hnext : ∃ d, d :: e :: q <:+ c :: r := by
        obtain ⟨front, hfront⟩ := hq'
        rcases List.eq_nil_or_concat (c :: front) with hnil | ⟨init, d, hinit⟩
        · cases hnil
        · exact ⟨d, init, by rw [← List.singleton_append, ← List.append_assoc,
            ← List.concat_eq_append, ← hinit, List.cons_append, hfront]⟩
      obtain ⟨d, hd⟩ := hnext
      have hlink := mainNext_of_suffix hp (hd.trans hr) (List.cons_ne_nil e q)
      rw [BlockPtr.hash_cons] at hlink
      rw [if_pos (by exact_mod_cast hlow), hlink]
      exact ih hd (by rw [List.length_cons]; omega)
    · rw [if_neg (by exact_mod_cast hlow)]
      have heq := hq.eq_of_length_le (by simp only [List.length_cons]; omega)
      rw [heq]

/-- The best block and what was found last are on the chain that the links belong to. -/
structure BlockFinder.Linked (tree : BlockTree P files) (s : BlockFinder) : Prop where
  consistent : Consistent tree s.node
  nBestHeight : s.node.nBestHeight = BlockPtr.nHeight s.node.pindexBest
  last : s.pblockindexFBBHLast <:+ s.node.pindexBest

namespace BlockFinder.Linked

variable {s : BlockFinder}

theorem pindexGenesisBlock (hs : s.Linked tree) : s.node.pindexGenesisBlock <:+ s.node.pindexBest := by
  rw [hs.consistent.pindexGenesisBlock]
  exact List.drop_suffix _ _

theorem startFrom_suffix (hs : s.Linked tree) (nHeight : ℤ) :
    s.startFrom nHeight <:+ s.node.pindexBest := by
  unfold startFrom
  dsimp only
  split_ifs
  · exact hs.last
  · exact hs.pindexGenesisBlock
  · exact hs.last
  · exact List.suffix_rfl

theorem startFrom_ne_nil (hs : s.Linked tree) (hne : s.node.pindexBest ≠ []) (nHeight : ℤ) :
    s.startFrom nHeight ≠ [] := by
  have hgenesis : s.node.pindexGenesisBlock ≠ [] := by
    have hlen := List.length_pos_of_ne_nil hne
    rw [hs.consistent.pindexGenesisBlock, Ne, List.drop_eq_nil_iff]
    omega
  unfold startFrom
  dsimp only
  split_ifs with h₁ h₂ h₂
  · exact h₂.2.1
  · exact hgenesis
  · exact h₂.2.1
  · exact hne

theorem findBlockByHeight (hs : s.Linked tree) (hne : s.node.pindexBest ≠ []) {nHeight : ℕ}
    (h : nHeight ≤ s.node.nBestHeight) {fuel : ℕ} (hfuel : nHeight ≤ fuel) :
    ∃ pindex, pindex <:+ s.node.pindexBest ∧ pindex ≠ [] ∧ BlockPtr.nHeight pindex = nHeight ∧
      s.findBlockByHeight fuel nHeight = .found pindex := by
  have hbest := hs.consistent.best.resolve_left hne
  have hsuf := hs.startFrom_suffix nHeight
  have hsne := hs.startFrom_ne_nil hne nHeight
  -- the block of that height
  have hlen := List.length_pos_of_ne_nil hne
  rw [hs.nBestHeight, BlockPtr.nHeight] at h
  obtain ⟨c, r, hr, hrlen⟩ : ∃ c r, c :: r <:+ s.node.pindexBest ∧ r.length = nHeight := by
    have hdrop : s.node.pindexBest.drop (s.node.pindexBest.length - 1 - nHeight) ≠ [] := by
      rw [Ne, List.drop_eq_nil_iff]
      omega
    obtain ⟨c, r, hcr⟩ := List.exists_cons_of_ne_nil hdrop
    refine ⟨c, r, hcr ▸ List.drop_suffix _ _, ?_⟩
    have hcrlen := congrArg List.length hcr
    rw [List.length_drop, List.length_cons] at hcrlen
    omega
  refine ⟨c :: r, hr, List.cons_ne_nil c r, by rw [BlockPtr.nHeight, List.length_cons]; omega, ?_⟩
  obtain ⟨e, q, heq⟩ := List.exists_cons_of_ne_nil hsne
  rw [heq] at hsuf
  subst hrlen
  unfold BlockFinder.findBlockByHeight
  rw [heq]
  rcases Nat.le_total r.length q.length with hle | hle
  · -- down to it, and there is no way up
    have hdown : c :: r <:+ e :: q := List.suffix_of_suffix_length_le hr hsuf (by
      simp only [List.length_cons]
      omega)
    rw [walkDown_of_suffix hdown]
    dsimp only
    cases fuel <;> rw [walkUp, if_neg (lt_irrefl _)]
  · have hup : e :: q <:+ c :: r := List.suffix_of_suffix_length_le hsuf hr (by
      simp only [List.length_cons]
      omega)
    rw [walkDown_of_le (by exact_mod_cast hle), hs.consistent.attached.pnext]
    exact walkUp_of_suffix hbest hr hup (by omega)

end BlockFinder.Linked

theorem walkDown_suffix {nHeight : ℤ} {p pindex : BlockPtr}
    (h : walkDown nHeight p = .found pindex) : pindex <:+ p := by
  induction p with
  | nil => cases h
  | cons e p ih =>
    rw [walkDown] at h
    split at h
    · exact (ih h).trans (List.suffix_cons e p)
    · rw [← Walk.found.inj h]

theorem walkUp_suffix {p : BlockPtr} {nHeight : ℤ} {fuel : ℕ} {q pindex : BlockPtr} (hq : q <:+ p)
    (h : walkUp (mainNext p) nHeight fuel q = .found pindex) : pindex <:+ p := by
  induction fuel generalizing q with
  | zero =>
    cases q with
    | nil => cases h
    | cons e q =>
      rw [walkUp] at h
      split at h
      · cases h
      · rwa [← Walk.found.inj h]
  | succ fuel ih =>
    cases q with
    | nil => cases h
    | cons e q =>
      rw [walkUp] at h
      split at h
      · exact ih (mainNext_suffix p _) h
      · rwa [← Walk.found.inj h]

theorem BlockFinder.Linked.of_findBlockByHeight {s : BlockFinder} (hs : s.Linked tree) {fuel : ℕ}
    {nHeight : ℤ} {pindex : BlockPtr} (h : s.findBlockByHeight fuel nHeight = .found pindex) :
    BlockFinder.Linked tree ⟨s.node, pindex⟩ := by
  refine ⟨hs.consistent, hs.nBestHeight, ?_⟩
  unfold BlockFinder.findBlockByHeight at h
  split at h
  · rename_i q hq
    rw [hs.consistent.attached.pnext] at h
    exact walkUp_suffix ((walkDown_suffix hq).trans (hs.startFrom_suffix nHeight)) h
  · rename_i hwalk
    exact absurd h (hwalk pindex)

/-- A call of `SetBestChain` with a block of the tree, or one of `FindBlockByHeight` that returns.
`allowed` is a condition on the calls of `SetBestChain`. -/
inductive FinderStep (tree : BlockTree P files) (allowed : Node → Io → BlockPtr → Prop) :
    BlockFinder → BlockFinder → Prop
  | setBestChain {s : BlockFinder} {io : Io} {e p b node'} : io.ReadsFrom tree →
      e :: p ∈ tree.entries → files.blockOf e = some b → allowed s.node io (e :: p) →
      (setBestChain P io b (e :: p)).run s.node = (some (), node') →
      -- it forgets the block
      FinderStep tree allowed s ⟨node', []⟩
  | setBestChainFailed {s : BlockFinder} {io : Io} {e p b node'} : io.ReadsFrom tree →
      e :: p ∈ tree.entries → files.blockOf e = some b →
      (setBestChain P io b (e :: p)).run s.node = (none, node') →
      FinderStep tree allowed s ⟨node', s.pblockindexFBBHLast⟩
  | findBlockByHeight {s : BlockFinder} {fuel : ℕ} {nHeight : ℤ} {pindex} :
      s.findBlockByHeight fuel nHeight = .found pindex →
      FinderStep tree allowed s ⟨s.node, pindex⟩

/-- All blocks that the call postpones can be connected. -/
def Reconnects (P : Params) (files : Files) (n : Node) (io : Io) (pindexNew : BlockPtr) : Prop :=
  ∀ c ∈ (BlockPtr.postpone (BlockPtr.nChainTrust n.pindexBest) pindexNew).2,
    reconnects P files io n.nBestHeight c = true

theorem FinderStep.linked (hP : tree.txs.InjOn P.txHash) {s s' : BlockFinder}
    (hs : s.Linked tree) (h : FinderStep tree (Reconnects P files) s s') : s'.Linked tree := by
  have hnew : tree.BringsNewTxids := BlockTree.bringsNewTxids_of_injOn hP
  cases h with
  | setBestChain hio he hb hrec hrun =>
    have hall := List.all_eq_true.mpr hrec
    refine ⟨hs.consistent.of_setBestChain hnew hio he hb hrun hall, ?_, List.nil_suffix⟩
    obtain ⟨n₁, _, rfl, _⟩ := setBestChain_eq_some hnew hio he hb hs.consistent hrun
    rfl
  | setBestChainFailed hio he hb hrun =>
    refine ⟨hs.consistent.of_failed hrun, ?_, ?_⟩
    · rcases discarded_setBestChain hrun with rfl | hd
      · exact hs.nBestHeight
      · have hmem := (sameMemory_txnBegin s.node).trans hd.memory
        rw [hmem.nBestHeight, hmem.pindexBest, hs.nBestHeight]
    · rcases discarded_setBestChain hrun with rfl | hd
      · exact hs.last
      · rw [((sameMemory_txnBegin s.node).trans hd.memory).pindexBest]
        exact hs.last
  | findBlockByHeight hfound => exact hs.of_findBlockByHeight hfound

/-- In every run whose calls of `SetBestChain` connect all blocks that they postpone, each height
up to the best one is found, in no more steps up than the height. -/
theorem findBlockByHeight_run (hP : tree.txs.InjOn P.txHash) {s s' : BlockFinder}
    (hs : Consistent tree s.node) (hheight : s.node.nBestHeight = BlockPtr.nHeight s.node.pindexBest)
    (hlast : s.pblockindexFBBHLast = [])
    (hrun : Relation.ReflTransGen (FinderStep tree (Reconnects P files)) s s')
    (hne : s'.node.pindexBest ≠ []) {nHeight : ℕ} (h : nHeight ≤ s'.node.nBestHeight) {fuel : ℕ}
    (hfuel : nHeight ≤ fuel) :
    ∃ pindex, pindex <:+ s'.node.pindexBest ∧ pindex ≠ [] ∧ BlockPtr.nHeight pindex = nHeight ∧
      s'.findBlockByHeight fuel nHeight = .found pindex := by
  have hlinked : s'.Linked tree := by
    clear hne h
    induction hrun with
    | refl => exact ⟨hs, hheight, hlast ▸ List.nil_suffix⟩
    | tail _ hstep ih => exact hstep.linked hP ih
  exact hlinked.findBlockByHeight hne h hfuel

namespace Sample

def third : Block := block 4 (overpaid.hash params) [beanbase 4 3 [out 1000]]

def fourth : Block := block 5 (third.hash params) [beanbase 5 4 [out 1000]]

def heightBlocks : List Block := [genesis, first, overpaid, third, fourth]

def heightFiles : Files := Sample.files heightBlocks (by decide +kernel)

def heightPtr : BlockPtr :=
  [entry fourth, entry third, entry overpaid, entry first, entry genesis]

def heightTree : BlockTree params heightFiles :=
  BlockTree.ofList [heightPtr.drop 4, heightPtr.drop 3, heightPtr.drop 2, heightPtr.drop 1,
    heightPtr] (by decide +kernel)

def heightIo : Io := io heightBlocks heightFiles

theorem readsFrom_height : heightIo.ReadsFrom heightTree := readsFrom_io (by decide +kernel)

theorem injOn_height : heightTree.txs.InjOn params.txHash := injOn_txs (by decide +kernel)

theorem consistent_height : Consistent heightTree node where
  best := Or.inr (BlockTree.mem_ofList.mpr (by decide +kernel))
  hashBestChain := rfl
  pindexGenesisBlock := rfl
  attached := ⟨⟨trivial, rfl⟩, rfl, rfl, rfl⟩

/-- The node after the calls for the last three blocks. -/
def calledNode : List (Block × BlockPtr) → Node
  | [] => node
  | (b, pindexNew) :: calls => ((setBestChain params heightIo b pindexNew).run (calledNode calls)).2

def heightCalls : List (Block × BlockPtr) :=
  [(fourth, heightPtr), (third, heightPtr.drop 1), (overpaid, heightPtr.drop 2)]

theorem step_called (calls : List (Block × BlockPtr)) (last : BlockPtr) {b : Block}
    (e : BlockIndex) (p : BlockPtr) (he : e :: p ∈ heightTree.entries)
    (hb : heightFiles.blockOf e = some b)
    (hrun : ((setBestChain params heightIo b (e :: p)).run (calledNode calls)).1 = some ()) :
    FinderStep heightTree (fun _ _ _ => True) ⟨calledNode calls, last⟩
      ⟨calledNode ((b, e :: p) :: calls), []⟩ :=
  .setBestChain readsFrom_height he hb trivial (Prod.ext hrun rfl)

end Sample

open Sample in
theorem findBlockByHeight_run_genesis :
    ∃ pindex, BlockPtr.nHeight pindex = 0 ∧
      BlockFinder.findBlockByHeight 0 ⟨node, []⟩ (0 : ℕ) = .found pindex := by
  obtain ⟨pindex, _, _, hpindex, hfound⟩ := findBlockByHeight_run (s := ⟨node, []⟩) injOn_height
    consistent_height rfl rfl .refl (List.cons_ne_nil _ _) (Nat.zero_le _) (Nat.le_refl 0)
  exact ⟨pindex, hpindex, hfound⟩

open Sample in
/-- The block at height 2 overpays, so that nothing links the blocks above it to the chain. After a
search for the block at height 1 the next one starts from that block. -/
theorem findBlockByHeight_null : Consistent heightTree node ∧ ∃ s : BlockFinder,
    Relation.ReflTransGen (FinderStep heightTree fun _ _ _ => True) ⟨node, []⟩ s ∧
      2 ≤ s.node.nBestHeight ∧ s.node.pindexBest = heightPtr ∧
      ∀ fuel, s.findBlockByHeight (fuel + 1) 2 = .nullLink := by
  have h₁ := step_called [] [] (entry overpaid) (heightPtr.drop 3)
    (BlockTree.mem_ofList.mpr (by decide +kernel))
    (show heightFiles.blockOf (entry overpaid) = some overpaid by rfl) (by decide +kernel)
  have h₂ := step_called [(overpaid, heightPtr.drop 2)] [] (entry third) (heightPtr.drop 2)
    (BlockTree.mem_ofList.mpr (by decide +kernel))
    (show heightFiles.blockOf (entry third) = some third by rfl) (by decide +kernel)
  have h₃ := step_called [(third, heightPtr.drop 1), (overpaid, heightPtr.drop 2)] [] (entry fourth)
    (heightPtr.drop 1) (BlockTree.mem_ofList.mpr (by decide +kernel))
    (show heightFiles.blockOf (entry fourth) = some fourth by rfl) (by decide +kernel)
  have hfound : BlockFinder.findBlockByHeight 1 ⟨calledNode heightCalls, []⟩ 1 =
      .found (heightPtr.drop 3) := by decide +kernel
  refine ⟨consistent_height, ⟨calledNode heightCalls, heightPtr.drop 3⟩,
    .tail (.tail (.tail (.single h₁) h₂) h₃) (.findBlockByHeight hfound), by decide +kernel,
    by decide +kernel, fun fuel => ?_⟩
  have hstart : BlockFinder.startFrom ⟨calledNode heightCalls, heightPtr.drop 3⟩ 2 =
      heightPtr.drop 3 := by decide +kernel
  have hlink : (calledNode heightCalls).pnext (entry first).phashBlock = [] := by decide +kernel
  unfold BlockFinder.findBlockByHeight
  rw [hstart]
  change walkUp (calledNode heightCalls).pnext 2 fuel
    ((calledNode heightCalls).pnext (entry first).phashBlock) = .nullLink
  rw [hlink]
  cases fuel <;> rfl

end Beancash
