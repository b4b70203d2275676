import Beancash.TreeGrowth

namespace Beancash

open Fallible

variable {P : Params} {H : SelectionHash} {files : Files} {tree : BlockTree P files}

namespace BlockPtr

theorem traceBack_suffix {nHeight : ℕ} {p q : BlockPtr} (h : traceBack nHeight p = some q) :
    q <:+ p ∧ q ≠ [] := by
  induction p with
  | nil => cases h
  | cons e p ih =>
    rw [traceBack] at h
    split at h
    · obtain ⟨hq, hne⟩ := ih h
      exact ⟨hq.trans (List.suffix_cons e p), hne⟩
    · obtain rfl := Option.some_injective _ h
      exact ⟨List.suffix_rfl, List.cons_ne_nil e p⟩

theorem traceBack_of_suffix {c p : BlockPtr} (hc : c <:+ p) (hne : c ≠ []) :
    traceBack (nHeight c) p = some c := by
  induction p with
  | nil => exact absurd (List.suffix_nil.mp hc) hne
  | cons e p ih =>
    rw [traceBack]
    rcases List.suffix_cons_iff.mp hc with rfl | hc
    · rw [if_neg (by simp)]
    · have hlen := hc.length_le
      have hpos := List.length_pos_of_ne_nil hne
      rw [if_pos (by unfold nHeight; omega)]
      exact ih hc

theorem nHeight_lt_of_suffix {c p : BlockPtr} (hc : c <:+ p) (hne : c ≠ []) (hcp : c ≠ p) :
    nHeight c < nHeight p := by
  have hpos := List.length_pos_of_ne_nil hne
  have hlt : c.length < p.length := by
    refine lt_of_le_of_ne hc.length_le fun hlen => ?_
    exact hcp (hc.eq_of_length hlen)
  unfold nHeight
  omega

end BlockPtr

/-- What is in the main chain by its link or as the best block is below the best block. -/
theorem IndexedNode.isInMainChain_iff {s : IndexedNode} {p : BlockPtr}
    (hbest : s.node.pindexBest ∈ tree.entries) (hpnext : s.node.pnext = mainNext s.node.pindexBest)
    (hp : p ∈ tree.entries) : s.isInMainChain p = true ↔ p <:+ s.node.pindexBest := by
  have hpne := BlockTree.ne_nil hp
  unfold IndexedNode.isInMainChain
  rw [hpnext, Bool.or_eq_true, Bool.not_eq_true', beq_iff_eq]
  constructor
  · rintro (hnext | rfl)
    · by_contra hnot
      rw [mainNext_eq_nil] at hnext
      · cases hnext
      · intro q hq hne heq
        have hsuf := hq.trans (List.tail_suffix _)
        obtain rfl := tree.hash_injOn (tree.mem_of_suffix hbest hsuf hne) hp heq
        exact hnot hsuf
    · exact List.suffix_rfl
  · rintro ⟨l, hl⟩
    rcases List.eq_nil_or_concat l with rfl | ⟨l, d, rfl⟩
    · exact Or.inr hl
    · refine Or.inl ?_
      have hsuf : d :: p <:+ s.node.pindexBest := ⟨l, by
        rw [← hl, List.concat_eq_append, List.append_assoc]
        rfl⟩
      rw [mainNext_of_suffix hbest hsuf hpne]
      rfl

/-- The sync-checkpoint is the block `c` of the best chain, which is connected. -/
structure Synced (tree : BlockTree P files) (c : BlockPtr) (s : IndexedNode) : Prop where
  indexed : tree.IndexedBy s.mapBlockIndex
  consistent : Consistent tree s.node
  sync : s.mapBlockIndex s.hashSyncCheckpoint = some c
  main : c <:+ s.node.pindexBest

namespace Synced

variable {c p : BlockPtr} {s : IndexedNode}

theorem mem (h : Synced tree c s) : c ∈ tree.entries := ((h.indexed _ c).mp h.sync).1

theorem hash (h : Synced tree c s) : BlockPtr.hash c = s.hashSyncCheckpoint :=
  ((h.indexed _ c).mp h.sync).2

theorem eq_of_hash (h : Synced tree c s) {q : BlockPtr} (hq : q ∈ tree.entries)
    (hhash : BlockPtr.hash q = s.hashSyncCheckpoint) : q = c :=
  tree.hash_injOn hq h.mem (hhash.trans h.hash.symm)

/-- Only what is descended from the checkpoint passes `CheckSync`, unless it is indexed already. -/
theorem of_checkSync (h : Synced tree c s) (hP : P.testNet = false) {hashBlock : Uint256}
    (hfresh : s.mapBlockIndex hashBlock = none) (hp : p ∈ tree.entries)
    (hcheck : s.checkSync P hashBlock p = true) : c <:+ p := by
  unfold IndexedNode.checkSync at hcheck
  rw [if_neg (by rw [hP]; decide)] at hcheck
  simp only [h.sync] at hcheck
  split at hcheck
  · cases htrace : BlockPtr.traceBack (BlockPtr.nHeight c) p with
    | none =>
      rw [htrace] at hcheck
      cases hcheck
    | some q =>
      obtain ⟨hq, hne⟩ := BlockPtr.traceBack_suffix htrace
      simp only [htrace, Bool.not_or, Bool.and_eq_true, Bool.not_eq_true', bne_eq_false_iff_eq]
        at hcheck
      have heq := h.eq_of_hash (tree.mem_of_suffix hp hq hne) hcheck.2
      rw [← heq]
      exact hq
  · split at hcheck
    · -- a block at the height of the checkpoint with its hash would be indexed
      rw [beq_iff_eq.mp hcheck, h.sync] at hfresh
      cases hfresh
    · rw [hfresh] at hcheck
      cases hcheck

theorem validateSyncCheckpoint_run (h : Synced tree c s) {hashCheckpoint : Uint256}
    (hp : s.mapBlockIndex hashCheckpoint = some p) :
    (c <:+ p ∧ c ≠ p → (validateSyncCheckpoint hashCheckpoint).run s = (some (), s)) ∧
      (¬(c <:+ p ∧ c ≠ p) → ∃ hashInvalid, (validateSyncCheckpoint hashCheckpoint).run s =
        (none, { s with hashInvalidCheckpoint := hashInvalid })) := by
  obtain ⟨hmem, hhash⟩ := (h.indexed _ p).mp hp
  have hcne := BlockTree.ne_nil h.mem
  have hpne := BlockTree.ne_nil hmem
  have hstart : (validateSyncCheckpoint hashCheckpoint).run s =
      (if BlockPtr.nHeight p ≤ BlockPtr.nHeight c then do
        let pindex ← Step.ofOption (BlockPtr.traceBack (BlockPtr.nHeight p) c)
        if BlockPtr.hash pindex = hashCheckpoint then pure ()
        else setInvalidCheckpoint hashCheckpoint
        Step.fail
      else do
        let pindex ← Step.ofOption (BlockPtr.traceBack (BlockPtr.nHeight c) p)
        if BlockPtr.hash pindex = s.hashSyncCheckpoint then pure ()
        else
          setInvalidCheckpoint hashCheckpoint
          Step.fail : Step IndexedNode Unit).run s := by
    unfold validateSyncCheckpoint
    rw [Step.run_bind_of_some (Step.run_read _ _), id_eq, h.sync, hp,
      Step.run_bind_of_some (Step.run_ofOption _ _), Step.run_bind_of_some (Step.run_ofOption _ _)]
  rw [hstart]
  constructor
  · intro hc
    have hlt := BlockPtr.nHeight_lt_of_suffix hc.1 hcne hc.2
    rw [if_neg (by omega), BlockPtr.traceBack_of_suffix hc.1 hcne,
      Step.run_bind_of_some (Step.run_ofOption _ _), if_pos h.hash]
    rfl
  · intro hc
    split
    · cases BlockPtr.traceBack (BlockPtr.nHeight p) c with
      | none => exact ⟨s.hashInvalidCheckpoint, rfl⟩
      | some q =>
        rw [Step.run_bind_of_some (Step.run_ofOption _ _)]
        split
        · exact ⟨s.hashInvalidCheckpoint, rfl⟩
        · exact ⟨hashCheckpoint, rfl⟩
    · rename_i hlt
      cases htrace : BlockPtr.traceBack (BlockPtr.nHeight c) p with
      | none => exact ⟨s.hashInvalidCheckpoint, rfl⟩
      | some q =>
        rw [Step.run_bind_of_some (Step.run_ofOption _ _), if_neg]
        · exact ⟨hashCheckpoint, rfl⟩
        · intro heq
          obtain ⟨hq, hne⟩ := BlockPtr.traceBack_suffix htrace
          obtain rfl := h.eq_of_hash (tree.mem_of_suffix hmem hq hne) heq
          refine hc ⟨hq, ?_⟩
          rintro rfl
          omega

theorem isInMainChain_iff (h : Synced tree c s) (hp : p ∈ tree.entries) :
    s.isInMainChain p = true ↔ p <:+ s.node.pindexBest := by
  have hbest : s.node.pindexBest ∈ tree.entries := h.consistent.best.resolve_left fun hnil => by
    have hmain := h.main
    rw [hnil] at hmain
    exact BlockTree.ne_nil h.mem (List.suffix_nil.mp hmain)
  exact IndexedNode.isInMainChain_iff hbest h.consistent.attached.pnext hp

theorem of_eq {s' : IndexedNode} (h : Synced tree c s) (hnode : s'.node = s.node)
    (hmap : s'.mapBlockIndex = s.mapBlockIndex)
    (hsync : s'.hashSyncCheckpoint = s.hashSyncCheckpoint) : Synced tree c s' := by
  refine ⟨?_, ?_, ?_, ?_⟩
  · rw [hmap]
    exact h.indexed
  · rw [hnode]
    exact h.consistent
  · rw [hmap, hsync]
    exact h.sync
  · rw [hnode]
    exact h.main

end Synced

end Beancash
