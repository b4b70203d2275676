import Beancash.CheckpointRun
import Beancash.FallibleStep
import Beancash.ProcessBlock

namespace Beancash

open Fallible

variable {P : Params} {H : SelectionHash} {mode : CheckpointsMode}

/-- What should hold between calls. -/
structure BlockNode.Right (P : Params) (n : BlockNode) : Prop where
  /-- exactly one entry for each orphan -/
  nodup : n.orphans.mapOrphanBlocksByPrev.Nodup
  entries : ∀ e, e ∈ n.orphans.mapOrphanBlocksByPrev ↔
    n.orphans.mapOrphanBlocks.lookup (e.2.hash P) = some e.2 ∧ e.1 = e.2.header.hashPrevBlock
  waiting : ∀ hash b, n.orphans.mapOrphanBlocks.lookup hash = some b →
    n.indexed.mapBlockIndex b.header.hashPrevBlock = none
  stakes : ∀ stake, stake ∈ n.orphans.setStakeSeenOrphan ↔
    ∃ hash b, n.orphans.mapOrphanBlocks.lookup hash = some b ∧ b.isProofOfStake = true ∧
      b.proofOfStake = stake

/-- The orphans are under their hashes. -/
def OrphanBlocks.Hashed (P : Params) (orphans : OrphanBlocks) : Prop :=
  ∀ hash b, orphans.mapOrphanBlocks.lookup hash = some b → b.hash P = hash

/-- The orphans under their hashes, and their index by their parents. -/
structure OrphanBlocks.Sound (P : Params) (orphans : OrphanBlocks) : Prop where
  hash : orphans.Hashed P
  nodup : orphans.mapOrphanBlocksByPrev.Nodup
  entries : ∀ e, e ∈ orphans.mapOrphanBlocksByPrev ↔
    orphans.mapOrphanBlocks.lookup (e.2.hash P) = some e.2 ∧ e.1 = e.2.header.hashPrevBlock

theorem keeps_onNode {α : Type} (x : Step Node α) :
    Step.Keeps (Step.Same IndexedNode.mapBlockIndex) (IndexedNode.onNode x) := fun _ => rfl

theorem keeps_validateSyncCheckpoint {α : Type} {f : IndexedNode → α}
    (hf : ∀ s hash, f { s with hashInvalidCheckpoint := hash } = f s) (hashCheckpoint : Uint256) :
    Step.Keeps (Step.Same f) (validateSyncCheckpoint hashCheckpoint) := by
  have hmark : Step.Keeps (Step.Same f) (setInvalidCheckpoint hashCheckpoint) :=
    Step.keeps_modify fun s => hf s hashCheckpoint
  refine (Step.keeps_read _).bind fun s => (Step.keeps_ofOption _).bind fun pindexSync =>
    (Step.keeps_ofOption _).bind fun pindexRecv => ?_
  split
  · refine (Step.keeps_ofOption _).bind fun pindex => ?_
    dsimp only
    split
    · exact Step.keeps_fail
    · exact hmark.bind fun _ => Step.keeps_fail
  · refine (Step.keeps_ofOption _).bind fun pindex => ?_
    split
    · exact Step.keeps_pure ()
    · exact hmark.bind fun _ => Step.keeps_fail

theorem keeps_acceptPendingSyncCheckpoint (io : CheckpointIo) :
    Step.Keeps (Step.Same IndexedNode.mapBlockIndex) (acceptPendingSyncCheckpoint P io) := by
  refine (Step.keeps_read _).bind fun s => (Step.keeps_guard _).bind fun _ =>
    (Step.keeps_ofOption _).bind fun pindexCheckpoint =>
    Step.Keeps.bind ((keeps_validateSyncCheckpoint (fun _ _ => rfl) _).onFail fun _ => rfl)
      fun _ => ?_
  refine Step.Keeps.bind ?_ fun _ => Step.Keeps.bind ?_ fun _ => Step.keeps_modify fun _ => rfl
  · refine (Step.keeps_read _).bind fun fMain => ?_
    split
    · exact Step.keeps_pure ()
    · exact (Step.keeps_ofOption _).bind fun b => (keeps_onNode _).onFail fun _ => rfl
  · exact (keeps_onNode _).bind fun _ => (keeps_onNode _).bind fun _ => (keeps_onNode _).bind fun _ =>
      Step.keeps_modify fun _ => rfl

/-- Only the block itself may get into the index, and it does if it is accepted. -/
theorem acceptBlock_index {io : AcceptIo} {b : Block} {s s' : IndexedNode} {r : Option Unit}
    (h : (acceptBlock P H mode io b).run s = (r, s')) :
    (∀ hash, hash ≠ b.hash P → s'.mapBlockIndex hash = s.mapBlockIndex hash) ∧
      (s'.mapBlockIndex (b.hash P) = s.mapBlockIndex (b.hash P) ∧ r = none ∨
        (s'.mapBlockIndex (b.hash P)).isSome) := by
  -- the block is stored, or nothing happens
  have hstored : ∀ {r' s₁}, (storeBlock P H mode io b).run s = (r', s₁) →
      s₁ = s ∧ r' = none ∨ ∃ p, s₁.mapBlockIndex =
        Function.update s.mapBlockIndex (b.hash P) (some p) := by
    intro r' s₁ hstore
    rcases storeBlock_cases hstore with ⟨hr, hs⟩ | ⟨hashProof, nFile, nBlockPos, _, _, hadd⟩
    · exact Or.inl ⟨hs, hr⟩
    · rcases addToBlockIndex_cases hadd with ⟨hr, hs⟩ | ⟨pindexNew, n', _, hnew, hs, _⟩
      · exact Or.inl ⟨hs, hr⟩
      · obtain ⟨modifier, _, rfl⟩ := newBlockIndex_eq_some hnew
        right
        rw [hs]
        exact ⟨_, rfl⟩
  have hindex : s' = s ∧ r = none ∨ ∃ p, s'.mapBlockIndex =
      Function.update s.mapBlockIndex (b.hash P) (some p) := by
    unfold acceptBlock at h
    rcases hstore : (storeBlock P H mode io b).run s with ⟨_ | u, s₁⟩
    · rw [Step.run_bind_of_none hstore] at h
      obtain ⟨rfl, rfl⟩ := Prod.mk.inj h
      exact hstored hstore
    · rw [Step.run_bind_of_some hstore, Step.run_bind_of_some (Step.run_attempt _ _)] at h
      obtain ⟨_, rfl⟩ := Prod.mk.inj h
      rcases hstored hstore with ⟨_, hr⟩ | ⟨p, hp⟩
      · cases hr
      · exact Or.inr ⟨p, (keeps_acceptPendingSyncCheckpoint io.pending s₁).trans hp⟩
  rcases hindex with ⟨rfl, hr⟩ | ⟨p, hp⟩
  · exact ⟨fun _ _ => rfl, Or.inl ⟨rfl, hr⟩⟩
  · refine ⟨fun hash hne => ?_, Or.inr ?_⟩
    · rw [hp, Function.update_of_ne hne]
    · rw [hp, Function.update_self]
      rfl

/-- The hashes that are or have been in the work queue. -/
def Release.answered (P : Params) (r : Release) (top : Uint256) : List Uint256 :=
  top :: ((r.tried.filter Attempt.fAccepted).map fun a => a.block.hash P)

def Release.blocks (r : Release) : List Block := r.tried.map Attempt.block

/-- The loop over the orphans, begun with the orphans `o` and a node `s` that has just accepted the
block `top`; what is in `todo` has not been answered yet. -/
structure Releasing (P : Params) (o : OrphanBlocks) (s : IndexedNode) (top : Uint256)
    (todo : List Uint256) (r : Release) : Prop where
  lookup : ∀ hash b, r.node.orphans.mapOrphanBlocks.lookup hash = some b ↔
    o.mapOrphanBlocks.lookup hash = some b ∧ b ∉ r.blocks
  stakes : ∀ stake, stake ∈ r.node.orphans.setStakeSeenOrphan ↔
    stake ∈ o.setStakeSeenOrphan ∧ ∀ b ∈ r.blocks, b.proofOfStake ≠ stake
  index : ∀ hash, (r.node.indexed.mapBlockIndex hash).isSome ↔ (s.mapBlockIndex hash).isSome ∨
    ∃ a ∈ r.tried, a.fIndexed = true ∧ a.block.hash P = hash
  indexed : ∀ a ∈ r.tried, a.fAccepted = true → a.fIndexed = true
  answered : ∀ hash ∈ todo, hash ∈ r.answered P top
  done : ∀ hash ∈ r.answered P top, hash ∉ todo → ∀ h b,
    r.node.orphans.mapOrphanBlocks.lookup h = some b → b.header.hashPrevBlock ≠ hash
  prev : ∀ a ∈ r.tried, a.block.header.hashPrevBlock ∈ r.answered P top
  nodup : (r.tried.map fun a => a.block.hash P).Nodup
  held : ∀ a ∈ r.tried, o.mapOrphanBlocks.lookup (a.block.hash P) = some a.block

theorem answered_concat (r : Release) (top : Uint256) (a : Attempt) (node : BlockNode) (nCalls : ℕ)
    (vWorkQueue : List Uint256) (fThrown : Bool) :
    Release.answered P ⟨node, nCalls, vWorkQueue, r.tried ++ [a], fThrown⟩ top =
      r.answered P top ++ if a.fAccepted then [a.block.hash P] else [] := by
  unfold Release.answered
  rw [List.filter_append, List.map_append, List.cons_append, List.filter_singleton]
  cases a.fAccepted <;> rfl

section Loop

variable {o : OrphanBlocks} {s : IndexedNode} {top : Uint256} {io : ArrivalIo}

variable (mode io) in
theorem Releasing.tryOrphanBlock (ho : o.Sound P) {todo : List Uint256} {r : Release}
    (h : Releasing P o s top todo r) {orphan : Block}
    (horphan : r.node.orphans.mapOrphanBlocks.lookup (orphan.hash P) = some orphan)
    (hprev : orphan.header.hashPrevBlock ∈ r.answered P top) :
    ∃ extra : List Uint256, extra.length ≤ 1 ∧
      (tryOrphanBlock P H mode io r orphan).vWorkQueue = r.vWorkQueue ++ extra ∧
      Releasing P o s top (todo ++ extra) (tryOrphanBlock P H mode io r orphan) := by
  obtain ⟨hheld, hnew⟩ := (h.lookup _ _).mp horphan
  rcases hrun : (acceptBlock P H mode (io.accept r.nCalls) orphan).run r.node.indexed with ⟨res, s'⟩
  obtain ⟨hother, hself⟩ := acceptBlock_index hrun
  refine ⟨if res.isSome then [orphan.hash P] else [], by split <;> simp, ?_, ?_⟩
  · unfold Beancash.tryOrphanBlock
    rw [hrun]
    dsimp only
    split <;> simp
  · unfold Beancash.tryOrphanBlock
    rw [hrun]
    dsimp only
    generalize (if res.isSome = true then r.vWorkQueue ++ [orphan.hash P] else r.vWorkQueue) = queue
    have hanswered := answered_concat (P := P) r top
      ⟨orphan, res.isSome, (s'.mapBlockIndex (orphan.hash P)).isSome⟩
    have hblocks : ∀ node nCalls vWorkQueue fThrown, Release.blocks ⟨node, nCalls, vWorkQueue,
        r.tried ++ [⟨orphan, res.isSome, (s'.mapBlockIndex (orphan.hash P)).isSome⟩], fThrown⟩ =
          r.blocks ++ [orphan] := fun _ _ _ _ => List.map_append
    have hfresh : ∀ a ∈ r.tried, a.block.hash P ≠ orphan.hash P := by
      intro a ha heq
      have hblock := h.held a ha
      rw [heq, hheld] at hblock
      exact hnew (Option.some_injective _ hblock ▸ List.mem_map_of_mem ha)
    have hlookup : ∀ hash b, (r.node.orphans.mapOrphanBlocks.erase (orphan.hash P)).lookup hash =
        some b ↔ r.node.orphans.mapOrphanBlocks.lookup hash = some b ∧ b ≠ orphan := by
      intro hash b
      by_cases heq : hash = orphan.hash P
      · rw [heq, AList.lookup_erase, horphan]
        simp [eq_comm]
      · rw [AList.lookup_erase_ne heq]
        refine (and_iff_left_of_imp fun hb hbo => heq ?_).symm
        rw [← ho.hash _ _ ((h.lookup _ _).mp hb).1, hbo]
    refine ⟨fun hash b => ?_, fun stake => ?_, fun hash => ?_, fun a ha haccepted => ?_,
      fun hash hmem => ?_, fun hash hmem htodo h' b hb => ?_, fun a ha => ?_, ?_, fun a ha => ?_⟩
    · rw [hblocks, hlookup, h.lookup, List.mem_append, List.mem_singleton, not_or, and_assoc]
    · rw [hblocks, Finset.mem_erase, h.stakes]
      simp only [List.mem_append, List.mem_singleton, or_imp, forall_and, forall_eq]
      tauto
    · simp only [List.mem_append, List.mem_singleton, or_and_right, exists_or, exists_eq_left]
      rw [← or_assoc, ← h.index]
      by_cases heq : orphan.hash P = hash
      · subst heq
        rcases hself with ⟨hsame, _⟩ | hsome
        · rw [hsame]
          simp
        · simp [hsome]
      · rw [hother hash (Ne.symm heq)]
        simp [heq]
    · rcases List.mem_append.mp ha with ha | ha
      · exact h.indexed a ha haccepted
      · rw [List.mem_singleton.mp ha] at haccepted ⊢
        rcases hself with ⟨_, hnone⟩ | hsome
        · rw [hnone] at haccepted
          cases haccepted
        · exact hsome
    · rw [hanswered]
      rcases List.mem_append.mp hmem with hmem | hmem
      · exact List.mem_append_left _ (h.answered hash hmem)
      · exact List.mem_append_right _ hmem
    · rw [List.mem_append, not_or] at htodo
      rw [hanswered, List.mem_append, or_iff_left htodo.2] at hmem
      exact h.done hash hmem htodo.1 h' b ((hlookup h' b).mp hb).1
    · rw [hanswered]
      rcases List.mem_append.mp ha with ha | ha
      · exact List.mem_append_left _ (h.prev a ha)
      · rw [List.mem_singleton.mp ha]
        exact List.mem_append_left _ hprev
    · rw [List.map_append, List.nodup_append]
      refine ⟨h.nodup, List.nodup_singleton _, fun hash hmem hash' hmem' => ?_⟩
      obtain ⟨a, ha, rfl⟩ := List.mem_map.mp hmem
      rw [List.mem_singleton.mp hmem']
      exact hfresh a ha
    · rcases List.mem_append.mp ha with ha | ha
      · exact h.held a ha
      · rw [List.mem_singleton.mp ha]
        exact hheld

variable (mode io) in
theorem blocks_tryOrphanBlock (r : Release) (orphan : Block) :
    (tryOrphanBlock P H mode io r orphan).blocks = r.blocks ++ [orphan] := List.map_append

theorem answered_subset_tryOrphanBlock (r : Release) (orphan : Block) :
    r.answered P top ⊆ (tryOrphanBlock P H mode io r orphan).answered P top := by
  unfold tryOrphanBlock
  dsimp only
  rw [answered_concat]
  exact List.subset_append_left _ _

theorem Releasing.isSome_of_answered {todo : List Uint256} {r : Release}
    (h : Releasing P o s top todo r) (htop : (s.mapBlockIndex top).isSome = true) {hash : Uint256}
    (hmem : hash ∈ r.answered P top) : (r.node.indexed.mapBlockIndex hash).isSome = true := by
  rw [h.index]
  rcases List.mem_cons.mp hmem with rfl | hmem
  · exact Or.inl htop
  · obtain ⟨a, ha, rfl⟩ := List.mem_map.mp hmem
    obtain ⟨ha, haccepted⟩ := List.mem_filter.mp ha
    exact Or.inr ⟨a, ha, h.indexed a ha haccepted, rfl⟩

/-- An exception has left an orphan behind whose parent is in the index. -/
def Release.Stuck (P : Params) (r : Release) : Prop :=
  r.fThrown = true ∧ ∃ orphan,
    r.node.orphans.mapOrphanBlocks.lookup (orphan.hash P) = some orphan ∧
      (r.node.indexed.mapBlockIndex orphan.header.hashPrevBlock).isSome = true

theorem foldl_releaseOrphan_of_thrown {r : Release} (h : r.fThrown = true) (orphans : List Block) :
    orphans.foldl (releaseOrphan P H mode io) r = r := by
  induction orphans with
  | nil => rfl
  | cons orphan orphans ih =>
    rw [List.foldl_cons, releaseOrphan, if_pos h]
    exact ih

variable (mode io) in
theorem Releasing.foldl_releaseOrphan (ho : o.Sound P)
    (htop : (s.mapBlockIndex top).isSome = true) {todo : List Uint256} {r : Release}
    (h : Releasing P o s top todo r) (hgoing : r.fThrown = false) {orphans : List Block}
    (hnodup : orphans.Nodup)
    (hheld : ∀ b ∈ orphans, r.node.orphans.mapOrphanBlocks.lookup (b.hash P) = some b)
    (hprev : ∀ b ∈ orphans, b.header.hashPrevBlock ∈ r.answered P top) :
    let r' := orphans.foldl (Beancash.releaseOrphan P H mode io) r
    r'.Stuck P ∨ r'.fThrown = false ∧ r'.blocks = r.blocks ++ orphans ∧
      r'.node.orphans.mapOrphanBlocksByPrev = r.node.orphans.mapOrphanBlocksByPrev ∧
      ∃ extra : List Uint256, extra.length ≤ orphans.length ∧
        r'.vWorkQueue = r.vWorkQueue ++ extra ∧ Releasing P o s top (todo ++ extra) r' := by
  induction orphans generalizing r todo with
  | nil =>
    refine Or.inr ⟨hgoing, (List.append_nil _).symm, rfl, [], Nat.zero_le _,
      (List.append_nil _).symm, ?_⟩
    rwa [List.append_nil]
  | cons orphan orphans ih =>
    obtain ⟨hnot, hnodup⟩ := List.nodup_cons.mp hnodup
    dsimp only
    rw [List.foldl_cons, releaseOrphan, if_neg (Bool.not_eq_true _ ▸ hgoing)]
    split
    · -- the exception
      rw [foldl_releaseOrphan_of_thrown rfl]
      exact Or.inl ⟨rfl, orphan, hheld orphan List.mem_cons_self,
        h.isSome_of_answered htop (hprev orphan List.mem_cons_self)⟩
    · obtain ⟨extra, hle, hqueue, h₁⟩ := h.tryOrphanBlock (H := H) mode io ho
        (hheld orphan List.mem_cons_self) (hprev orphan List.mem_cons_self)
      have hblocks := blocks_tryOrphanBlock (P := P) (H := H) mode io r orphan
      refine (ih h₁ hgoing hnodup (fun b hb => ?_) fun b hb => ?_).imp_right ?_
      · obtain ⟨hmem, hb'⟩ := (h.lookup _ _).mp (hheld b (List.mem_cons_of_mem _ hb))
        refine (h₁.lookup _ _).mpr ⟨hmem, ?_⟩
        rw [hblocks, List.mem_append, List.mem_singleton, not_or]
        exact ⟨hb', fun heq => hnot (heq ▸ hb)⟩
      · exact answered_subset_tryOrphanBlock r orphan (hprev b (List.mem_cons_of_mem _ hb))
      · rintro ⟨hgoing', hblocks', hbyPrev, extra', hle', hqueue', h₂⟩
        refine ⟨hgoing', ?_, hbyPrev, extra ++ extra', ?_, ?_, ?_⟩
        · rw [hblocks', hblocks, List.append_assoc]
          rfl
        · rw [List.length_append, List.length_cons]
          omega
        · rw [hqueue', hqueue, List.append_assoc]
        · rw [← List.append_assoc]
          exact h₂

theorem mem_children {orphans : OrphanBlocks} (h : orphans.Sound P) {hashPrev : Uint256}
    {b : Block} : b ∈ orphans.children hashPrev ↔
      orphans.mapOrphanBlocks.lookup (b.hash P) = some b ∧ b.header.hashPrevBlock = hashPrev := by
  unfold OrphanBlocks.children
  rw [List.mem_map]
  constructor
  · rintro ⟨e, he, rfl⟩
    obtain ⟨hmem, hkey⟩ := List.mem_filter.mp he
    obtain ⟨hlookup, hprev⟩ := (h.entries e).mp hmem
    exact ⟨hlookup, hprev.symm.trans (of_decide_eq_true hkey)⟩
  · rintro ⟨hlookup, rfl⟩
    refine ⟨(b.header.hashPrevBlock, b), List.mem_filter.mpr ⟨?_, decide_eq_true rfl⟩, rfl⟩
    exact (h.entries _).mpr ⟨hlookup, rfl⟩

theorem nodup_children {orphans : OrphanBlocks} (h : orphans.Sound P) (hashPrev : Uint256) :
    (orphans.children hashPrev).Nodup := by
  refine List.Nodup.map_on (fun e he e' he' heq => Prod.ext ?_ heq) (h.nodup.filter _)
  rw [of_decide_eq_true (List.mem_filter.mp he).2, of_decide_eq_true (List.mem_filter.mp he').2]

variable (mode io) in
theorem Releasing.round (ho : o.Sound P) (htop : (s.mapBlockIndex top).isSome = true) {r : Release}
    {hashPrev : Uint256} {queue : List Uint256} (h : Releasing P o s top (hashPrev :: queue) r)
    (hgoing : r.fThrown = false) (hsound : r.node.orphans.Sound P) :
    let r₁ := (r.node.orphans.children hashPrev).foldl (Beancash.releaseOrphan P H mode io)
      { r with vWorkQueue := queue }
    let r' := r₁.erasePrev hashPrev
    r₁.Stuck P ∨ r₁.fThrown = false ∧ Releasing P o s top r'.vWorkQueue r' ∧
      r'.node.orphans.Sound P ∧
      r'.vWorkQueue.length + r'.node.orphans.mapOrphanBlocksByPrev.length ≤
        queue.length + r.node.orphans.mapOrphanBlocksByPrev.length := by
  have h₀ : Releasing P o s top (hashPrev :: queue) { r with vWorkQueue := queue } :=
    ⟨h.lookup, h.stakes, h.index, h.indexed, h.answered, h.done, h.prev, h.nodup, h.held⟩
  have hchild : ∀ b, b ∈ r.node.orphans.children hashPrev ↔ _ := fun b => mem_children hsound
  refine (h₀.foldl_releaseOrphan (H := H) mode io ho htop hgoing (nodup_children hsound hashPrev)
    (fun b hb => ((hchild b).mp hb).1) fun b hb => ?_).imp_right ?_
  · rw [((hchild b).mp hb).2]
    exact h.answered _ List.mem_cons_self
  rintro ⟨hgoing₁, hblocks, hbyPrev, extra, hle, hqueue, h₁⟩
  refine ⟨hgoing₁, ?_⟩
  generalize ((r.node.orphans.children hashPrev).foldl (Beancash.releaseOrphan P H mode io)
    { r with vWorkQueue := queue }) = r₁ at hblocks hbyPrev hqueue h₁ ⊢
  change r₁.vWorkQueue = queue ++ extra at hqueue
  change r₁.blocks = r.blocks ++ _ at hblocks
  have hheld : ∀ hash b, r₁.node.orphans.mapOrphanBlocks.lookup hash = some b ↔
      r.node.orphans.mapOrphanBlocks.lookup hash = some b ∧ b.header.hashPrevBlock ≠ hashPrev := by
    intro hash b
    rw [h₁.lookup, h.lookup, hblocks, List.mem_append, not_or, hchild, and_assoc]
    refine and_congr_right fun hb => and_congr_right fun hnew => not_congr (and_iff_right ?_)
    rw [ho.hash _ _ hb, h.lookup]
    exact ⟨hb, hnew⟩
  refine ⟨⟨h₁.lookup, h₁.stakes, h₁.index, h₁.indexed, fun hash hmem => ?_,
    fun hash hmem htodo h' b hb => ?_, h₁.prev, h₁.nodup, h₁.held⟩, ⟨fun hash b hb => ?_, ?_, fun e => ?_⟩, ?_⟩
  · change hash ∈ r₁.vWorkQueue at hmem
    rw [hqueue] at hmem
    exact h₁.answered hash (List.mem_cons_of_mem _ hmem)
  · change hash ∉ r₁.vWorkQueue at htodo
    rw [hqueue] at htodo
    by_cases heq : hash = hashPrev
    · rw [heq]
      exact ((hheld h' b).mp hb).2
    · refine h₁.done hash hmem (fun hmem' => ?_) h' b hb
      rcases List.mem_cons.mp hmem' with heq' | hmem'
      · exact heq heq'
      · exact htodo hmem'
  · exact ho.hash _ _ ((h₁.lookup _ _).mp hb).1
  · unfold Release.erasePrev
    dsimp only
    rw [hbyPrev]
    exact hsound.nodup.filter _
  · unfold Release.erasePrev
    dsimp only
    rw [hbyPrev, List.mem_filter, hheld]
    change e ∈ r.node.orphans.mapOrphanBlocksByPrev ∧ _ ↔ _
    rw [hsound.entries, decide_eq_true_eq, and_right_comm]
    exact and_congr_left fun heq => and_congr_right fun _ => by rw [heq]
  · unfold Release.erasePrev
    dsimp only
    rw [hqueue, hbyPrev, List.length_append]
    change _ + (List.filter _ r.node.orphans.mapOrphanBlocksByPrev).length ≤ _
    have hsplit := List.length_eq_length_filter_add (l := r.node.orphans.mapOrphanBlocksByPrev)
      fun e => decide (e.1 = hashPrev)
    unfold OrphanBlocks.children at hle
    rw [List.length_map] at hle
    simp only [ne_eq, decide_not]
    omega

/-- The loop ends, and unless an exception leaves it, everything in the work queue has been
answered. -/
theorem Releasing.releaseOrphans (ho : o.Sound P) (htop : (s.mapBlockIndex top).isSome = true)
    (fuel : ℕ) {r : Release} (h : Releasing P o s top r.vWorkQueue r) (hgoing : r.fThrown = false)
    (hsound : r.node.orphans.Sound P)
    (hfuel : r.vWorkQueue.length + r.node.orphans.mapOrphanBlocksByPrev.length ≤ fuel) :
    let r' := Beancash.releaseOrphans P H mode io fuel r
    r'.Stuck P ∨ r'.fThrown = false ∧ Releasing P o s top [] r' ∧ r'.node.orphans.Sound P := by
  induction fuel generalizing r with
  | zero =>
    have hnil := List.length_eq_zero_iff.mp (show r.vWorkQueue.length = 0 by omega)
    rw [hnil] at h
    exact Or.inr ⟨hgoing, h, hsound⟩
  | succ fuel ih =>
    dsimp only
    rw [Beancash.releaseOrphans]
    split
    · rename_i hnil
      rw [hnil] at h
      exact Or.inr ⟨hgoing, h, hsound⟩
    · rename_i hashPrev queue hqueue
      rw [hqueue] at h hfuel
      dsimp only
      rcases h.round (H := H) mode io ho htop hgoing hsound with hstuck | ⟨hgoing', h', hsound', hle⟩
      · rw [if_pos hstuck.1]
        exact Or.inl hstuck
      · rw [if_neg (Bool.not_eq_true _ ▸ hgoing')]
        exact ih h' hgoing' hsound' (by rw [List.length_cons] at hfuel; omega)

theorem releaseOrphans_invariant {I : Release → Prop}
    (hqueue : ∀ r queue, I r → I { r with vWorkQueue := queue })
    (horphan : ∀ r orphan, I r → I (releaseOrphan P H mode io r orphan))
    (herase : ∀ r hashPrev, I r → I (r.erasePrev hashPrev)) (fuel : ℕ) {r : Release} (h : I r) :
    I (releaseOrphans P H mode io fuel r) := by
  induction fuel generalizing r with
  | zero => exact h
  | succ fuel ih =>
    rw [releaseOrphans]
    split
    · exact h
    · rename_i hashPrev queue _
      have hround := List.foldlRecOn (motive := I) (r.node.orphans.children hashPrev)
        (releaseOrphan P H mode io) (hqueue r queue h) fun r hr orphan _ => horphan r orphan hr
      dsimp only
      split
      · exact hround
      · exact ih (herase _ hashPrev hround)

theorem hashed_releaseOrphan (r : Release) (orphan : Block) (h : r.node.orphans.Hashed P) :
    (releaseOrphan P H mode io r orphan).node.orphans.Hashed P := by
  unfold releaseOrphan
  split
  · exact h
  · split
    · exact h
    · intro hash b hb
      change (r.node.orphans.mapOrphanBlocks.erase (orphan.hash P)).lookup hash = some b at hb
      by_cases heq : hash = orphan.hash P
      · rw [heq, AList.lookup_erase] at hb
        cases hb
      · rw [AList.lookup_erase_ne heq] at hb
        exact h hash b hb

end Loop

/-- The call gets to `AcceptBlock`. -/
def BlockNode.Arrives (P : Params) (io : ArrivalIo) (n : BlockNode) (b : Block) : Prop :=
  processChecks P io n b = true ∧ (n.indexed.mapBlockIndex b.header.hashPrevBlock).isSome = true

/-- No orphan waits for the block. -/
def OrphanBlocks.Childless (orphans : OrphanBlocks) (hashPrev : Uint256) : Prop :=
  ∀ hash b, orphans.mapOrphanBlocks.lookup hash = some b → b.header.hashPrevBlock ≠ hashPrev

/-- No orphan that stays has the stake of one that is released. -/
def OrphanBlocks.Distinct (orphans : OrphanBlocks) (released : List Block) : Prop :=
  ∀ b ∈ released, b.isProofOfStake = true →
    ∀ hash b', orphans.mapOrphanBlocks.lookup hash = some b' → b' ∉ released →
      b'.isProofOfStake = true → b'.proofOfStake ≠ b.proofOfStake

/-- The condition on a call: where `AcceptBlock` fails for a block that it has added to the index, no
orphan waits for that block; for no orphan that is tried it comes to an exception; and the orphans
that are released have other stakes than those that stay. -/
def BlockNode.Meets (P : Params) (H : SelectionHash) (mode : CheckpointsMode) (n : BlockNode)
    (call : ArrivalIo × Block) : Prop :=
  let accepted := (acceptBlock P H mode (call.1.accept 0) call.2).run n.indexed
  let released := releaseChildren P H mode call.1 { n with indexed := accepted.2 } (call.2.hash P)
  n.Arrives P call.1 call.2 →
    if accepted.1.isSome then
      released.fThrown = false ∧
      (∀ a ∈ released.tried, a.fIndexed = true → a.fAccepted = false →
        n.orphans.Childless (a.block.hash P)) ∧
      n.orphans.Distinct released.blocks
    else (accepted.2.mapBlockIndex (call.2.hash P)).isSome = true →
      n.orphans.Childless (call.2.hash P)

/-- The node after a call. -/
def BlockNode.process (P : Params) (H : SelectionHash) (mode : CheckpointsMode) (n : BlockNode)
    (call : ArrivalIo × Block) : BlockNode :=
  ((processBlock P H mode call.1 call.2).run n).2

section Call

variable {n : BlockNode} {io : ArrivalIo} {b : Block}

theorem proofOfStake_ne_null {b b' : Block} (h : b.isProofOfStake = true)
    (h' : b'.isProofOfStake = false) : b'.proofOfStake ≠ b.proofOfStake := by
  have hnull : b'.proofOfStake = (⟨0, 0xffffffff⟩, 0) := by
    unfold Block.proofOfStake
    rw [h']
  rw [hnull]
  unfold Block.proofOfStake
  rw [h]
  unfold Block.isProofOfStake at h
  split at h
  · rename_i tx vtx hvtx
    rw [hvtx]
    unfold Transaction.isBeanStake at h
    split at h
    · rename_i txin vin _ _ _ hvin hvout
      intro heq
      have hprevout : txin.prevout = ⟨0, 0xffffffff⟩ := by
        have hfst := (Prod.mk.inj heq).1
        unfold Transaction.prevouts at hfst
        rw [hvin] at hfst
        exact hfst.symm
      rw [hprevout] at h
      cases h
    · cases h
  · cases h

theorem releasing_start (o : OrphanBlocks) (s : IndexedNode) (top : Uint256) :
    Releasing P o s top [top] ⟨⟨s, o⟩, 1, [top], [], false⟩ where
  lookup hash b := by simp [Release.blocks]
  stakes stake := by simp [Release.blocks]
  index hash := by simp
  indexed a ha := by cases ha
  answered hash hmem := hmem
  done hash hmem htodo := absurd hmem htodo
  prev a ha := by cases ha
  nodup := List.nodup_nil
  held a ha := by cases ha

variable (mode io) in
theorem releasing_releaseChildren (ho : n.orphans.Sound P) {top : Uint256}
    (htop : (n.indexed.mapBlockIndex top).isSome = true) :
    let r := releaseChildren P H mode io n top
    r.Stuck P ∨
      r.fThrown = false ∧ Releasing P n.orphans n.indexed top [] r ∧ r.node.orphans.Sound P :=
  (releasing_start n.orphans n.indexed top).releaseOrphans ho htop _ rfl ho (by
    rw [List.length_singleton, Nat.add_comm])

theorem right_not_accepted_iff (h : n.Right P) {s' : IndexedNode}
    (hother : ∀ hash, hash ≠ b.hash P → s'.mapBlockIndex hash = n.indexed.mapBlockIndex hash) :
    BlockNode.Right P { n with indexed := s' } ↔
      ((s'.mapBlockIndex (b.hash P)).isSome = true → n.orphans.Childless (b.hash P)) := by
  constructor
  · intro h' hsome hash c hc heq
    have hnone := h'.waiting hash c hc
    rw [heq] at hnone
    rw [hnone] at hsome
    cases hsome
  · intro hchildless
    refine ⟨h.nodup, h.entries, fun hash c hc => ?_, h.stakes⟩
    by_cases heq : c.header.hashPrevBlock = b.hash P
    · rw [heq, ← Option.not_isSome_iff_eq_none]
      exact fun hsome => hchildless hsome hash c hc heq
    · rw [hother _ heq]
      exact h.waiting hash c hc

section Accepted

variable {s' : IndexedNode} {r : Release}

/-- The orphans wait for blocks that are not in the index, if none of the blocks that got there
without being accepted has a child. -/
theorem waiting_iff (h : n.Right P) (htop : n.orphans.mapOrphanBlocks.lookup (b.hash P) = none)
    (hother : ∀ hash, hash ≠ b.hash P → s'.mapBlockIndex hash = n.indexed.mapBlockIndex hash)
    (hr : Releasing P n.orphans s' (b.hash P) [] r) :
    (∀ hash c, r.node.orphans.mapOrphanBlocks.lookup hash = some c →
        r.node.indexed.mapBlockIndex c.header.hashPrevBlock = none) ↔
      ∀ a ∈ r.tried, a.fIndexed = true → a.fAccepted = false →
        n.orphans.Childless (a.block.hash P) := by
  have haccepted : ∀ a ∈ r.tried, a.fAccepted = true →
      a.block.hash P ∈ r.answered P (b.hash P) := fun a ha hacc =>
    List.mem_cons_of_mem _ (List.mem_map.mpr ⟨a, List.mem_filter.mpr ⟨ha, hacc⟩, rfl⟩)
  constructor
  · intro hwaiting a ha hindexed hfailed hash c hc heq
    -- `c` is still held, for its parent has never been in the queue
    have hstays : c ∉ r.blocks := by
      intro hmem
      obtain ⟨a', ha', rfl⟩ := List.mem_map.mp hmem
      have hprev := hr.prev a' ha'
      rw [heq] at hprev
      rcases List.mem_cons.mp hprev with hfirst | hmem
      · have hheld := hr.held a ha
        rw [hfirst, htop] at hheld
        cases hheld
      · obtain ⟨a'', ha'', hhash⟩ := List.mem_map.mp hmem
        obtain ⟨ha'', hacc⟩ := List.mem_filter.mp ha''
        rw [List.inj_on_of_nodup_map hr.nodup ha'' ha hhash, hfailed] at hacc
        cases hacc
    have hnone := hwaiting hash c ((hr.lookup hash c).mpr ⟨hc, hstays⟩)
    have hsome := (hr.index (a.block.hash P)).mpr (Or.inr ⟨a, ha, hindexed, rfl⟩)
    rw [← heq, hnone] at hsome
    cases hsome
  · intro hchildless hash c hc
    have hheld := ((hr.lookup hash c).mp hc).1
    rw [← Option.not_isSome_iff_eq_none]
    intro hsome
    rcases (hr.index _).mp hsome with hsome | ⟨a, ha, hindexed, heq⟩
    · by_cases heq : c.header.hashPrevBlock = b.hash P
      · exact hr.done _ List.mem_cons_self (List.not_mem_nil) hash c hc heq
      · rw [hother _ heq, h.waiting hash c hheld] at hsome
        cases hsome
    · cases hacc : a.fAccepted with
      | true => exact hr.done _ (haccepted a ha hacc) List.not_mem_nil hash c hc heq.symm
      | false => exact hchildless a ha hindexed hacc hash c hheld heq.symm

theorem stakes_iff (h : n.Right P) {todo : List Uint256} {top : Uint256}
    (hr : Releasing P n.orphans s' top todo r) :
    (∀ stake, stake ∈ r.node.orphans.setStakeSeenOrphan ↔
        ∃ hash c, r.node.orphans.mapOrphanBlocks.lookup hash = some c ∧ c.isProofOfStake = true ∧
          c.proofOfStake = stake) ↔
      n.orphans.Distinct r.blocks := by
  constructor
  · intro hstakes b' hb' _ hash c hc hstays hstake heq
    have hmem := (hstakes c.proofOfStake).mpr
      ⟨hash, c, (hr.lookup hash c).mpr ⟨hc, hstays⟩, hstake, rfl⟩
    exact ((hr.stakes _).mp hmem).2 b' hb' heq.symm
  · intro hdistinct stake
    rw [hr.stakes, h.stakes]
    constructor
    · rintro ⟨⟨hash, c, hc, hstake, rfl⟩, hnot⟩
      exact ⟨hash, c, (hr.lookup hash c).mpr ⟨hc, fun hmem => hnot c hmem rfl⟩, hstake, rfl⟩
    · rintro ⟨hash, c, hc, hstake, rfl⟩
      obtain ⟨hheld, hstays⟩ := (hr.lookup hash c).mp hc
      refine ⟨⟨hash, c, hheld, hstake, rfl⟩, fun b' hb' => ?_⟩
      cases hproof : b'.isProofOfStake with
      | true => exact (hdistinct b' hb' hproof hash c hheld hstays hstake).symm
      | false => exact proofOfStake_ne_null hstake hproof

end Accepted

theorem process_of_not_checks (h : processChecks P io n b = false) :
    n.process P H mode (io, b) = n := by
  unfold BlockNode.process processBlock
  rw [Step.run_bind_of_some (Step.run_read _ _), id_eq, h]
  rfl

variable (mode) in
theorem process_of_orphan (h : processChecks P io n b = true)
    (hprev : n.indexed.mapBlockIndex b.header.hashPrevBlock = none) :
    n.process P H mode (io, b) = n ∨
      n.process P H mode (io, b) = { n with orphans := n.orphans.insert P b } := by
  unfold BlockNode.process processBlock
  rw [Step.run_bind_of_some (Step.run_read _ _), id_eq, h, Step.run_bind_guard rfl, hprev]
  generalize hdup : (!(b.isProofOfStake && decide (b.proofOfStake ∈ n.orphans.setStakeSeenOrphan) &&
    !n.orphans.hasChild (b.hash P) && !n.wantedByPendingSyncCheckpoint (b.hash P))) = fDuplicate
  cases fDuplicate with
  | true =>
    right
    simp only [Option.isNone_none, if_true, hdup]
    rfl
  | false =>
    left
    simp only [Option.isNone_none, if_true, hdup]
    rfl

theorem process_of_accepted (h : processChecks P io n b = true) {p : BlockPtr}
    (hprev : n.indexed.mapBlockIndex b.header.hashPrevBlock = some p) {u : Unit} {s' : IndexedNode}
    (haccept : (acceptBlock P H mode (io.accept 0) b).run n.indexed = (some u, s')) :
    n.process P H mode (io, b) =
      (releaseChildren P H mode io { n with indexed := s' } (b.hash P)).node := by
  unfold BlockNode.process processBlock
  rw [Step.run_bind_of_some (Step.run_read _ _), id_eq, h, Step.run_bind_guard rfl, hprev]
  simp only [Option.isNone_some, Bool.false_eq_true, if_false, haccept]
  rfl

theorem process_of_not_accepted (h : processChecks P io n b = true) {p : BlockPtr}
    (hprev : n.indexed.mapBlockIndex b.header.hashPrevBlock = some p) {s' : IndexedNode}
    (haccept : (acceptBlock P H mode (io.accept 0) b).run n.indexed = (none, s')) :
    n.process P H mode (io, b) = { n with indexed := s' } := by
  unfold BlockNode.process processBlock
  rw [Step.run_bind_of_some (Step.run_read _ _), id_eq, h, Step.run_bind_guard rfl, hprev]
  simp only [Option.isNone_some, Bool.false_eq_true, if_false, haccept]
  rfl

theorem lookup_of_processChecks (h : processChecks P io n b = true) :
    n.orphans.mapOrphanBlocks.lookup (b.hash P) = none := by
  simp only [processChecks, Bool.and_eq_true, Option.isNone_iff_eq_none] at h
  exact h.1.1.1.2

theorem OrphanBlocks.Hashed.insert {o : OrphanBlocks} (h : o.Hashed P) :
    (o.insert P b).Hashed P := by
  intro hash c hc
  by_cases heq : hash = b.hash P
  · rw [OrphanBlocks.insert, heq, AList.lookup_insert] at hc
    rw [heq, Option.some_injective _ hc]
  · rw [OrphanBlocks.insert, AList.lookup_insert_ne heq] at hc
    exact h hash c hc

theorem OrphanBlocks.Sound.insert {o : OrphanBlocks} (h : o.Sound P)
    (hnew : o.mapOrphanBlocks.lookup (b.hash P) = none) : (o.insert P b).Sound P := by
  refine ⟨h.hash.insert, ?_, fun e => ?_⟩
  · refine List.nodup_append.mpr ⟨h.nodup, List.nodup_singleton _, fun e he e' he' heq => ?_⟩
    rw [heq, List.mem_singleton.mp he', h.entries, hnew] at he
    cases he.1
  · unfold OrphanBlocks.insert
    dsimp only
    rw [List.mem_append, List.mem_singleton, h.entries]
    by_cases heq : e.2.hash P = b.hash P
    · rw [heq, AList.lookup_insert, hnew, Option.some_inj]
      constructor
      · rintro (⟨hnone, _⟩ | rfl)
        · cases hnone
        · exact ⟨rfl, rfl⟩
      · rintro ⟨rfl, hprev⟩
        exact Or.inr (Prod.ext hprev rfl)
    · rw [AList.lookup_insert_ne heq]
      refine or_iff_left fun he => heq ?_
      rw [he]

theorem right_insert (ho : n.orphans.Sound P) (h : n.Right P)
    (hnew : n.orphans.mapOrphanBlocks.lookup (b.hash P) = none)
    (hprev : n.indexed.mapBlockIndex b.header.hashPrevBlock = none) :
    BlockNode.Right P { n with orphans := n.orphans.insert P b } := by
  have hsound := ho.insert hnew
  have hlookup : ∀ hash c, (n.orphans.insert P b).mapOrphanBlocks.lookup hash = some c ↔
      c = b ∧ hash = b.hash P ∨ n.orphans.mapOrphanBlocks.lookup hash = some c := by
    intro hash c
    unfold OrphanBlocks.insert
    by_cases heq : hash = b.hash P
    · rw [heq, AList.lookup_insert, hnew]
      simp [eq_comm]
    · rw [AList.lookup_insert_ne heq]
      simp [heq]
  refine ⟨hsound.nodup, hsound.entries, fun hash c hc => ?_, fun stake => ?_⟩
  · rcases (hlookup hash c).mp hc with ⟨rfl, _⟩ | hc
    · exact hprev
    · exact h.waiting hash c hc
  · have hexists : (∃ hash c, (n.orphans.insert P b).mapOrphanBlocks.lookup hash = some c ∧
        c.isProofOfStake = true ∧ c.proofOfStake = stake) ↔
        b.isProofOfStake = true ∧ b.proofOfStake = stake ∨
          stake ∈ n.orphans.setStakeSeenOrphan := by
      simp only [hlookup, h.stakes, or_and_right, exists_or]
      refine or_congr ⟨?_, fun hb => ⟨_, b, ⟨rfl, rfl⟩, hb⟩⟩ Iff.rfl
      rintro ⟨hash, c, ⟨rfl, _⟩, hc⟩
      exact hc
    rw [hexists]
    change stake ∈ (n.orphans.insert P b).setStakeSeenOrphan ↔ _
    unfold OrphanBlocks.insert
    dsimp only
    split
    · rename_i hstake
      rw [Finset.mem_insert]
      simp [hstake, eq_comm]
    · rename_i hstake
      simp [hstake]

theorem hashed_process (ho : n.orphans.Hashed P) (call : ArrivalIo × Block) :
    (n.process P H mode call).orphans.Hashed P := by
  obtain ⟨io, b⟩ := call
  cases hchecks : processChecks P io n b with
  | false =>
    rw [process_of_not_checks hchecks]
    exact ho
  | true =>
    cases hprev : n.indexed.mapBlockIndex b.header.hashPrevBlock with
    | none =>
      rcases process_of_orphan (H := H) mode hchecks hprev with heq | heq <;> rw [heq]
      · exact ho
      · exact ho.insert
    | some p =>
      rcases haccept : (acceptBlock P H mode (io.accept 0) b).run n.indexed with ⟨_ | u, s'⟩
      · rw [process_of_not_accepted hchecks hprev haccept]
        exact ho
      · rw [process_of_accepted hchecks hprev haccept]
        exact releaseOrphans_invariant (I := fun r => r.node.orphans.Hashed P) (fun _ _ hr => hr)
          hashed_releaseOrphan (fun _ _ hr => hr) _ ho

theorem right_process_iff (hashed : n.orphans.Hashed P) (h : n.Right P)
    (call : ArrivalIo × Block) :
    (n.process P H mode call).Right P ↔ n.Meets P H mode call := by
  obtain ⟨io, b⟩ := call
  cases hchecks : processChecks P io n b with
  | false =>
    rw [process_of_not_checks hchecks]
    exact iff_of_true h fun harrives => absurd (hchecks.symm.trans harrives.1) Bool.false_ne_true
  | true =>
    have ho : n.orphans.Sound P := ⟨hashed, h.nodup, h.entries⟩
    have htop := lookup_of_processChecks hchecks
    cases hprev : n.indexed.mapBlockIndex b.header.hashPrevBlock with
    | none =>
      refine iff_of_true ?_ fun harrives => ?_
      · rcases process_of_orphan (H := H) mode hchecks hprev with heq | heq <;> rw [heq]
        · exact h
        · exact right_insert ho h htop hprev
      · have hsome := harrives.2
        rw [hprev] at hsome
        cases hsome
    | some p =>
      have harrives : n.Arrives P io b := ⟨hchecks, by rw [hprev]; rfl⟩
      unfold BlockNode.Meets
      dsimp only
      rw [imp_iff_right harrives]
      rcases haccept : (acceptBlock P H mode (io.accept 0) b).run n.indexed with ⟨_ | u, s'⟩
      · rw [process_of_not_accepted hchecks hprev haccept]
        exact right_not_accepted_iff h (acceptBlock_index haccept).1
      · rw [process_of_accepted hchecks hprev haccept]
        obtain ⟨hother, hself⟩ := acceptBlock_index haccept
        have hindexed := hself.resolve_left fun hnone => nomatch hnone.2
        change _ ↔ _ ∧ _ ∧ _
        rcases releasing_releaseChildren (H := H) mode io (n := { n with indexed := s' }) ho hindexed
          with ⟨hthrown, orphan, hheld, hsome⟩ | ⟨hgoing, hr, hsound⟩
        · refine iff_of_false (fun h' => ?_) fun hmeets => ?_
          · rw [h'.waiting _ orphan hheld] at hsome
            cases hsome
          · exact absurd (hthrown.symm.trans hmeets.1).symm Bool.false_ne_true
        · have hstakes := stakes_iff h hr
          rw [and_iff_right hgoing, ← waiting_iff h htop hother hr]
          constructor
          · exact fun h' => ⟨h'.waiting, hstakes.mp h'.stakes⟩
          · exact fun h' => ⟨hsound.nodup, hsound.entries, h'.1, hstakes.mpr h'.2⟩

end Call

/-- Whatever blocks arrive in whatever order at a node without orphans, everything is right after
each call if and only if each call meets the condition. -/
theorem orphanBlocks_iff (P : Params) (H : SelectionHash) (mode : CheckpointsMode) (n : BlockNode)
    (hempty : n.orphans = .empty) (calls : List (ArrivalIo × Block)) :
    (∀ done, done <+: calls → (done.foldl (BlockNode.process P H mode) n).Right P) ↔
      EachStep (fun done => (done.foldl (BlockNode.process P H mode) n).Meets P H mode) calls := by
  have hashed : n.orphans.Hashed P := by
    rw [hempty]
    exact fun hash b hb => nomatch hb
  refine eachStep_iff (J := fun n : BlockNode => n.orphans.Hashed P) (I := BlockNode.Right P) ?_
    (fun done => ?_) (fun n call ho h => right_process_iff ho h call) calls
  · refine ⟨?_, fun e => ?_, fun hash b hb => ?_, fun stake => ?_⟩
    · rw [hempty]
      exact List.nodup_nil
    · simp [hempty, OrphanBlocks.empty]
    · rw [hempty] at hb
      cases hb
    · simp [hempty, OrphanBlocks.empty]
  · exact List.foldlRecOn (motive := fun n : BlockNode => n.orphans.Hashed P) done _ hashed
      fun n hn call _ => hashed_process hn call

namespace Sample

def greedyBlock : Block := timed 1 (block 1 1 [beanbase 1 1 [out 100001]])

def arrivalFiles : Files :=
  Sample.files [genesis, greedyBlock, leftBlock 1, leftBlock 2] (by decide +kernel)

def arrivalChain (parent : Block) : Io := io [genesis, parent, leftBlock 2] arrivalFiles

/-- The block arrives; it and its orphans come after `parent`. -/
def arrival (parent b : Block) : ArrivalIo × Block where
  fst :=
    { nAdjustedTime := 1000
      signed := true
      accept := fun k =>
        { acceptIo (if k = 0 then b else leftBlock 2) with
          index := ⟨true, true, arrivalChain parent⟩, pending := ⟨arrivalChain parent, true⟩ } }
  snd := b

/-- A node that knows the genesis block, without orphans. -/
def waitingNode : BlockNode := ⟨syncStart, .empty⟩

def arrivals (parent : Block) : List (ArrivalIo × Block) :=
  [arrival parent (leftBlock 2), arrival parent parent]

def nodeAfter (calls : List (ArrivalIo × Block)) : BlockNode :=
  calls.foldl (BlockNode.process mainParams selectionHash .strict) waitingNode

end Sample

open Sample in
theorem orphanBlocks_iff_released :
    (∀ done, done <+: arrivals (leftBlock 1) → (nodeAfter done).Right mainParams) ∧
      (nodeAfter ((arrivals (leftBlock 1)).take 1)).orphans.mapOrphanBlocks.keys = [3] ∧
      (nodeAfter (arrivals (leftBlock 1))).orphans.mapOrphanBlocks.keys = [] := by
  refine ⟨(orphanBlocks_iff mainParams selectionHash .strict waitingNode rfl _).mpr ?_,
    by decide, by decide⟩
  unfold arrivals
  rw [eachStep_cons, eachStep_cons]
  refine ⟨fun harrives => ?_, fun _ => ?_, eachStep_nil _⟩
  · exact absurd harrives.2 (by decide)
  · have haccepted : ((acceptBlock mainParams selectionHash .strict
        ((arrival (leftBlock 1) (leftBlock 1)).1.accept 0) (leftBlock 1)).run
        (nodeAfter [arrival (leftBlock 1) (leftBlock 2)]).indexed).1.isSome = true := by
      decide
    refine (if_pos haccepted).symm ▸ ?_
    -- the orphan is accepted, and has no stake
    generalize hreleased : releaseChildren mainParams selectionHash .strict
        (arrival (leftBlock 1) (leftBlock 1)).1
        { nodeAfter [arrival (leftBlock 1) (leftBlock 2)] with
          indexed := ((acceptBlock mainParams selectionHash .strict
            ((arrival (leftBlock 1) (leftBlock 1)).1.accept 0) (leftBlock 1)).run
            (nodeAfter [arrival (leftBlock 1) (leftBlock 2)]).indexed).2 } 2 = released
    have hgoing : released.fThrown = false := by
      rw [← hreleased]
      decide
    have htried : released.tried.all (fun a => a.fAccepted && !a.block.isProofOfStake) = true := by
      rw [← hreleased]
      decide
    have hall := List.all_eq_true.mp htried
    refine ⟨hreleased ▸ hgoing, fun a ha _ hfailed => ?_, fun b hb hstake => ?_⟩
    · have h := hall a (hreleased ▸ ha)
      rw [hfailed] at h
      cases h
    · obtain ⟨a, ha, rfl⟩ := List.mem_map.mp hb
      have h := hall a (hreleased ▸ ha)
      rw [hstake, Bool.and_comm] at h
      cases h

open Sample in
/-- The parent is not accepted, but gets into the index, and its child is held on to. -/
theorem orphanBlocks_greedy :
    let n := nodeAfter (arrivals greedyBlock)
    n.orphans.mapOrphanBlocks.lookup 3 = some (leftBlock 2) ∧
      (n.indexed.mapBlockIndex (leftBlock 2).header.hashPrevBlock).isSome = true ∧
      ¬n.Right mainParams := by
  have hheld : (nodeAfter (arrivals greedyBlock)).orphans.mapOrphanBlocks.lookup 3 =
      some (leftBlock 2) := by decide
  have hindexed : ((nodeAfter (arrivals greedyBlock)).indexed.mapBlockIndex
      (leftBlock 2).header.hashPrevBlock).isSome = true := by decide
  refine ⟨hheld, hindexed, fun h => ?_⟩
  rw [h.waiting 3 _ hheld] at hindexed
  cases hindexed

end Beancash
