import Beancash.KernelReads

namespace Beancash

/-- The blocks of a chain above one of them, from the lowest on. -/
def BlockPtr.above (pindex pindexBest : BlockPtr) : List BlockPtr :=
  (BlockPtr.downTo pindex pindexBest).reverse

namespace BlockPtr

variable {p p' q : BlockPtr}

theorem above_self (p : BlockPtr) : above p p = [] := by
  rw [above, downTo_self]
  rfl

theorem above_cons {e : BlockIndex} (hq : q <:+ p) (hne : q ≠ []) :
    above q (e :: p) = above q p ++ [e :: p] := by
  obtain ⟨_, _, _, hdown⟩ := downTo_cons (e := e) hq hne
  rw [above, hdown, List.reverse_cons]
  rfl

theorem above_prefix (hp : p <:+ p') (hq : q <:+ p) (hne : q ≠ []) : above q p <+: above q p' := by
  induction p' with
  | nil => rw [List.suffix_nil.mp hp]
  | cons e p' ih =>
    rcases List.suffix_cons_iff.mp hp with rfl | hp
    · exact List.prefix_rfl
    · rw [above_cons (hq.trans hp) hne]
      exact (ih hp).trans (List.prefix_append _ _)

theorem ascends_above (hq : q <:+ p) (hne : q ≠ []) : Ascends q (above q p) p := by
  induction p with
  | nil => exact absurd (List.suffix_nil.mp hq) hne
  | cons e p ih =>
    rcases List.suffix_cons_iff.mp hq with rfl | hq
    · rw [above_self]
      rfl
    · rw [above_cons hq hne]
      exact (ih hq).concat e

theorem length_above (hq : q <:+ p) (hne : q ≠ []) :
    (above q p).length + q.length = p.length := by
  induction p with
  | nil => exact absurd (List.suffix_nil.mp hq) hne
  | cons e p ih =>
    rcases List.suffix_cons_iff.mp hq with rfl | hq
    · rw [above_self, List.length_nil, Nat.zero_add]
    · have hlen := ih hq
      rw [above_cons hq hne, List.length_append, List.length_singleton, List.length_cons]
      omega

theorem of_mem_above (hq : q <:+ p) (hne : q ≠ []) :
    ∀ c ∈ above q p, ∃ d r, c = d :: r ∧ r ≠ [] ∧ d :: r <:+ p := by
  induction p with
  | nil => exact absurd (List.suffix_nil.mp hq) hne
  | cons e p ih =>
    rcases List.suffix_cons_iff.mp hq with rfl | hq
    · rw [above_self]
      exact fun c hc => absurd hc List.not_mem_nil
    · rw [above_cons hq hne]
      intro c hc
      rcases List.mem_append.mp hc with hc | hc
      · obtain ⟨d, r, rfl, hr, hsuf⟩ := ih hq c hc
        exact ⟨d, r, rfl, hr, hsuf.trans (List.suffix_cons e p)⟩
      · obtain rfl := List.mem_singleton.mp hc
        refine ⟨e, p, rfl, ?_, List.suffix_rfl⟩
        rintro rfl
        exact hne (List.suffix_nil.mp hq)

end BlockPtr

theorem Indexed.of_suffix {mapBlockIndex : MapBlockIndex} {p q : BlockPtr}
    (h : Indexed mapBlockIndex p) (hq : q <:+ p) : Indexed mapBlockIndex q :=
  fun r hr => h r (hr.trans hq)

theorem Indexed.eq_of_hash_eq {mapBlockIndex : MapBlockIndex} {p q r : BlockPtr}
    (h : Indexed mapBlockIndex p) (hq : q <:+ p) (hr : r <:+ p) (hqne : q ≠ []) (hrne : r ≠ [])
    (hhash : BlockPtr.hash q = BlockPtr.hash r) : q = r := by
  have hfound := h q hq hqne
  rw [hhash, h r hr hrne] at hfound
  exact (Option.some_injective _ hfound).symm

theorem Indexed.hash_ne {mapBlockIndex : MapBlockIndex} {e : BlockIndex} {p q : BlockPtr}
    (h : Indexed mapBlockIndex (e :: p)) (hq : q <:+ p) (hne : q ≠ []) :
    BlockPtr.hash q ≠ e.phashBlock := by
  intro hhash
  have heq := h.eq_of_hash_eq (hq.trans (List.suffix_cons e p)) List.suffix_rfl hne
    (List.cons_ne_nil e p) hhash
  have hlen := hq.length_le
  rw [heq, List.length_cons] at hlen
  omega

theorem Indexed.mainNext_self {mapBlockIndex : MapBlockIndex} {p : BlockPtr}
    (h : Indexed mapBlockIndex p) : mainNext p (BlockPtr.hash p) = [] := by
  cases p with
  | nil => rfl
  | cons e p => exact mainNext_eq_nil fun q hq hne => h.hash_ne hq hne

theorem Indexed.mainNext_eq {mapBlockIndex : MapBlockIndex} {p : BlockPtr}
    (h : Indexed mapBlockIndex p) {d : BlockIndex} {q : BlockPtr} (hq : d :: q <:+ p)
    (hne : q ≠ []) : mainNext p (BlockPtr.hash q) = d :: q :=
  mainNext_eq_of_hash_ne (fun _ _ hr _ hlow hlow0 => (h.of_suffix hr).hash_ne hlow hlow0) hq hne

/-- What a state says of its main chain. -/
structure KernelView.OnMainChain (v : KernelView) : Prop where
  pnext : v.pnext = mainNext v.pindexBest
  indexed : Indexed v.mapBlockIndex v.pindexBest

/-- A generated modifier that is not older than `nTimeStop`. -/
def generatedAfter (nTimeStop : ℤ) : BlockPtr → Bool
  | [] => false
  | e :: _ => e.fStakeModifier && nTimeStop ≤ e.blockTime

def kernelModifier (pindex : BlockPtr) : KernelModifier where
  nStakeModifier := BlockPtr.nStakeModifier pindex
  nStakeModifierHeight := BlockPtr.nHeight pindex
  nStakeModifierTime := BlockPtr.blockTime pindex

variable {P : Params} {nTimeStop : ℤ} {pnext : Uint256 → BlockPtr}

theorem kernelModifierLoop_of_le {pindex : BlockPtr} {nHeight : ℕ} {nTime : ℤ} (fuel : ℕ)
    (h : nTimeStop ≤ nTime) : kernelModifierLoop pnext nTimeStop fuel pindex nHeight nTime =
      some ⟨BlockPtr.nStakeModifier pindex, nHeight, nTime⟩ := by
  cases fuel <;> rw [kernelModifierLoop, if_neg (not_lt.mpr h)]

theorem kernelModifierLoop_ascends {q p : BlockPtr} {l : List BlockPtr}
    (hasc : BlockPtr.Ascends q l p) (hlink : ∀ c ∈ l, pnext (BlockPtr.hash (BlockPtr.pprev c)) = c)
    (hend : pnext (BlockPtr.hash p) = []) {fuel : ℕ} (hfuel : l.length ≤ fuel) {nHeight : ℕ}
    {nTime : ℤ} (htime : nTime < nTimeStop) :
    kernelModifierLoop pnext nTimeStop fuel q nHeight nTime =
      (l.find? (generatedAfter nTimeStop)).map kernelModifier := by
  induction l generalizing q fuel nHeight nTime with
  | nil =>
    obtain rfl : p = q := hasc
    cases fuel with
    | zero => rw [kernelModifierLoop, if_pos htime]; rfl
    | succ fuel => rw [kernelModifierLoop, if_pos htime, hend]; rfl
  | cons c l ih =>
    obtain ⟨hc, rfl, hasc⟩ := hasc
    obtain ⟨e, p', rfl⟩ := List.exists_cons_of_ne_nil hc
    cases fuel with
    | zero => exact absurd hfuel (Nat.not_succ_le_zero _)
    | succ fuel =>
      have hnext := @ih (e :: p') hasc (fun d hd => hlink d (List.mem_cons_of_mem _ hd)) fuel
        (Nat.le_of_succ_le_succ hfuel)
      rw [kernelModifierLoop, if_pos htime, hlink _ List.mem_cons_self]
      dsimp only
      by_cases hgen : e.fStakeModifier
      · rw [if_pos hgen]
        by_cases hlate : nTimeStop ≤ e.blockTime
        · have hfirst : generatedAfter nTimeStop (e :: p') = true := by
            simp [generatedAfter, hgen, hlate]
          rw [kernelModifierLoop_of_le fuel hlate, List.find?_cons_of_pos hfirst]
          rfl
        · have hnot : ¬generatedAfter nTimeStop (e :: p') = true := by
            simp [generatedAfter, hlate]
          rw [hnext (not_le.mp hlate), List.find?_cons_of_neg hnot]
      · have hnot : ¬generatedAfter nTimeStop (e :: p') = true := by
          simp [generatedAfter, hgen]
        rw [if_neg hgen, hnext htime, List.find?_cons_of_neg hnot]

theorem selectionInterval_pos (hP : P.nModifierInterval = 10 * 60) : 0 < selectionInterval P := by
  have heq : selectionInterval P =
      ((List.range 64).map fun nSection =>
        (((10 * 60 * 63 : UInt32) / UInt32.ofNat (63 + (63 - nSection) * 2)).toNat : ℤ)).sum := by
    unfold selectionInterval selectionIntervalSection
    rw [hP]
    rfl
  rw [heq]
  decide +kernel

theorem getKernelStakeModifier_eq_find {v : KernelView} (hP : P.nModifierInterval = 10 * 60)
    (hv : v.OnMainChain) {pindexFrom : BlockPtr} (hfrom : pindexFrom <:+ v.pindexBest)
    (hne : pindexFrom ≠ []) :
    getKernelStakeModifier P v (BlockPtr.hash pindexFrom) =
      ((BlockPtr.above pindexFrom v.pindexBest).find? (generatedAfter
        (BlockPtr.blockTime pindexFrom + selectionInterval P))).map kernelModifier := by
  have hpos := selectionInterval_pos hP
  have hlen := BlockPtr.length_above hfrom hne
  rw [getKernelStakeModifier, hv.indexed pindexFrom hfrom hne, Option.bind_some, hv.pnext]
  refine kernelModifierLoop_ascends (BlockPtr.ascends_above hfrom hne) ?_
    hv.indexed.mainNext_self (by omega) (by omega)
  intro c hc
  obtain ⟨d, r, rfl, hr, hsuf⟩ := BlockPtr.of_mem_above hfrom hne c hc
  exact hv.indexed.mainNext_eq hsuf hr

/-- A modifier that the search finds on a chain it finds on every longer one; and it is that of
the first block above which generated one a selection interval later or more. -/
theorem getKernelStakeModifier_extends (hP : P.nModifierInterval = 10 * 60) {v v' : KernelView}
    (hv : v.OnMainChain) (hv' : v'.OnMainChain) (hext : v.pindexBest <:+ v'.pindexBest)
    {pindexFrom : BlockPtr} (hfrom : pindexFrom <:+ v.pindexBest) (hne : pindexFrom ≠ [])
    {m : KernelModifier} (h : getKernelStakeModifier P v (BlockPtr.hash pindexFrom) = some m) :
    getKernelStakeModifier P v' (BlockPtr.hash pindexFrom) = some m ∧
      ∃ e q below later, BlockPtr.above pindexFrom v.pindexBest = below ++ (e :: q) :: later ∧
        m = ⟨e.nStakeModifier, q.length, e.blockTime⟩ ∧ e.fStakeModifier = true ∧
        BlockPtr.blockTime pindexFrom + selectionInterval P ≤ e.blockTime ∧
        ∀ d r, d :: r ∈ below → d.fStakeModifier = true →
          d.blockTime < BlockPtr.blockTime pindexFrom + selectionInterval P := by
  rw [getKernelStakeModifier_eq_find hP hv hfrom hne] at h
  obtain ⟨pindex, hfind, rfl⟩ := Option.map_eq_some_iff.mp h
  constructor
  · rw [getKernelStakeModifier_eq_find hP hv' (hfrom.trans hext) hne]
    obtain ⟨later, hlater⟩ := BlockPtr.above_prefix hext hfrom hne
    rw [← hlater, List.find?_append, hfind]
    rfl
  · obtain ⟨hgen, below, later, habove, hbelow⟩ := List.find?_eq_some_iff_append.mp hfind
    obtain ⟨e, q, rfl⟩ := List.exists_cons_of_ne_nil (show pindex ≠ [] by
      rintro rfl
      cases hgen)
    rw [generatedAfter, Bool.and_eq_true, decide_eq_true_iff] at hgen
    refine ⟨e, q, below, later, habove, rfl, hgen.1, hgen.2, fun d r hd hmod => ?_⟩
    have hnot := hbelow (d :: r) hd
    rw [generatedAfter, hmod, Bool.true_and, Bool.not_eq_true', decide_eq_false_iff_not] at hnot
    exact not_le.mp hnot

theorem Consistent.onMainChain {files : Files} {tree : BlockTree P files} {n : Node}
    (hn : Consistent tree n) (io : BlockIo) {mapBlockIndex : MapBlockIndex}
    (hmap : tree.IndexedBy mapBlockIndex) : (n.kernelView io mapBlockIndex).OnMainChain where
  pnext := hn.attached.pnext
  indexed := by
    intro q hq hne
    rcases hn.best with hnil | hmem
    · change q <:+ n.pindexBest at hq
      rw [hnil] at hq
      exact absurd (List.suffix_nil.mp hq) hne
    · exact (hmap _ _).mpr ⟨tree.mem_of_suffix hmem hq hne, rfl⟩

namespace Sample

/-- A modifier is generated a day after the genesis block, and two more later on. -/
def dayChain : BlockPtr := [stakeEntry 1 86400 true, stakeEntry 0 0 true]

def laterChain : BlockPtr := stakeEntry 3 87900 true :: stakeEntry 2 87100 true :: dayChain

def chainKernelView (p : BlockPtr) : KernelView where
  readTxIndex _ := none
  readTx _ := none
  readHeader _ _ := none
  mapBlockIndex := indexOf p
  pnext := mainNext p
  pindexBest := p

theorem onMainChain_view {p : BlockPtr} (h : (p.tails.all fun q =>
    q.isEmpty || indexOf p (BlockPtr.hash q) == some q) = true) :
    (chainKernelView p).OnMainChain where
  pnext := rfl
  indexed := by
    intro q hq hne
    have hq' := List.all_eq_true.mp h q ((List.mem_tails _ _).mpr hq)
    rw [Bool.or_eq_true, List.isEmpty_iff, beq_iff_eq] at hq'
    exact hq'.resolve_left hne

end Sample

open Sample in
theorem getKernelStakeModifier_extends_dayChain :
    getKernelStakeModifier params (chainKernelView laterChain) 1 =
      some ⟨(stakeEntry 1 86400 true).nStakeModifier, 1, 86400⟩ := by
  have hrun : getKernelStakeModifier params (chainKernelView dayChain) 1 =
      some ⟨(stakeEntry 1 86400 true).nStakeModifier, 1, 86400⟩ := by decide +kernel
  have hsuf : [stakeEntry 0 0 true] <:+ dayChain := List.suffix_cons _ _
  exact (getKernelStakeModifier_extends rfl (onMainChain_view (by decide +kernel))
    (onMainChain_view (by decide +kernel)) ⟨[_, _], rfl⟩ hsuf (List.cons_ne_nil _ _) hrun).1

end Beancash
