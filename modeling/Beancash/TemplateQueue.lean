import Beancash.BlockTemplate

namespace Beancash

variable {P : Params} {D : Type} {Q : Transaction → Prop}

/-- All transactions of the queue and all orphans are such. -/
structure PoolOrder.Carries (Q : Transaction → Prop) (order : PoolOrder D) : Prop where
  orphans : ∀ orphan, some orphan ∈ order.vOrphan → Q orphan.ptx
  queue : ∀ p ∈ order.vecPriority, Q p.ptx

theorem PoolOrder.carries_empty : PoolOrder.Carries Q (⟨[], fun _ => [], []⟩ : PoolOrder D) where
  orphans orphan h := by cases h
  queue p h := by cases h

theorem release_carries {hash : Uint256} {porphans : List ℕ}
    {q q' : List (Option (Orphan D)) × List (TxPriority D)}
    (h : release hash porphans q = some q') (horphans : ∀ orphan, some orphan ∈ q.1 → Q orphan.ptx)
    (hqueue : ∀ p ∈ q.2, Q p.ptx) :
    (∀ orphan, some orphan ∈ q'.1 → Q orphan.ptx) ∧ ∀ p ∈ q'.2, Q p.ptx := by
  induction porphans generalizing q with
  | nil =>
    obtain rfl := Option.some_injective _ h
    exact ⟨horphans, hqueue⟩
  | cons i porphans ih =>
    obtain ⟨vOrphan, vecPriority⟩ := q
    rw [release] at h
    split at h
    · cases h
    · next orphan hget =>
      have hmem : some orphan ∈ vOrphan := List.mem_of_getElem? (Option.join_eq_some_iff.mp hget)
      split_ifs at h
      · exact ih h horphans hqueue
      · refine ih h (fun orphan' hmem' => ?_) (fun p hp => ?_)
        · rcases List.mem_or_eq_of_mem_set hmem' with hmem' | heq
          · exact horphans orphan' hmem'
          · rw [Option.some_injective _ heq]
            exact horphans orphan hmem
        · change p ∈ (if _ then _ else _) at hp
          split_ifs at hp
          · rcases List.mem_append.mp hp with hp | hp
            · exact hqueue p hp
            · rw [List.mem_singleton.mp hp]
              exact horphans orphan hmem
          · exact hqueue p hp

theorem BlockAssembly.vtx_connect {v : InputView} {pindexPrev : BlockPtr} {s s' : BlockAssembly}
    {tx : Transaction} (h : s.connect P v pindexPrev tx = some s') : s'.vtx = s.vtx ++ [tx] := by
  unfold BlockAssembly.connect at h
  split at h
  · cases h
  · split at h
    · simp only [] at h
      split_ifs at h
      obtain ⟨_, _, rfl⟩ := Option.map_eq_some_iff.mp h
      rfl
    · cases h

section

variable [IntCast D] [LT D] [DecidableLT D]

theorem MinerTask.step_carries {task : MinerTask} {s s' : MinerState D} {p : TxPriority D}
    (h : task.step P s p = some s') (hs : s.toPoolOrder.Carries Q) (hp : Q p.ptx)
    (hvtx : ∀ tx ∈ s.block.vtx, Q tx) :
    s'.toPoolOrder.Carries Q ∧ ∀ tx ∈ s'.block.vtx, Q tx := by
  unfold MinerTask.step at h
  simp only [] at h
  split_ifs at h
  · obtain rfl := Option.some_injective _ h
    exact ⟨hs, hvtx⟩
  · obtain rfl := Option.some_injective _ h
    exact ⟨hs, hvtx⟩
  · split at h
    · obtain rfl := Option.some_injective _ h
      exact ⟨⟨hs.orphans, hs.queue⟩, hvtx⟩
    · next block hconnect =>
      obtain ⟨q, hrelease, rfl⟩ := Option.map_eq_some_iff.mp h
      obtain ⟨horphans, hqueue⟩ := release_carries hrelease hs.orphans hs.queue
      refine ⟨⟨horphans, hqueue⟩, fun tx htx => ?_⟩
      change tx ∈ block.vtx at htx
      rw [BlockAssembly.vtx_connect hconnect] at htx
      rcases List.mem_append.mp htx with htx | htx
      · exact hvtx tx htx
      · rw [List.mem_singleton.mp htx]
        exact hp

variable [BEq D]

theorem MinerTask.run_carries {heap : StdHeap (TxPriority D)} {task : MinerTask} {fuel : ℕ}
    {s : MinerState D} {block : BlockAssembly} (h : task.run P heap fuel s = some block)
    (hs : s.toPoolOrder.Carries Q) (hvtx : ∀ tx ∈ s.block.vtx, Q tx) :
    ∀ tx ∈ block.vtx, Q tx := by
  induction fuel generalizing s with
  | zero => cases h
  | succ fuel ih =>
    rw [MinerTask.run] at h
    split at h
    · obtain rfl := Option.some_injective _ h
      exact hvtx
    · next p vecPriority hpop =>
      have hperm := heap.perm hpop
      obtain ⟨s', hstep, hrun⟩ := Option.bind_eq_some_iff.mp h
      obtain ⟨hs', hvtx'⟩ := MinerTask.step_carries hstep
        ⟨hs.orphans, fun q hq => hs.queue q (hperm.subset (List.mem_cons_of_mem _ hq))⟩
        (hs.queue p (hperm.subset List.mem_cons_self)) hvtx
      exact ih hrun hs' hvtx'

end

/-- No orphan has been taken off again, and every pointer leads to one. -/
structure PoolOrder.Valid (order : PoolOrder D) : Prop where
  whole : ∀ x ∈ order.vOrphan, x ≠ none
  dependers : ∀ hash, ∀ i ∈ order.mapDependers hash, i < order.vOrphan.length

theorem PoolOrder.valid_empty : PoolOrder.Valid (⟨[], fun _ => [], []⟩ : PoolOrder D) where
  whole x hx := by cases hx
  dependers _ i hi := by cases hi

theorem InputScan.mem_mapDependers_wait {porphan : ℕ} {s : InputScan D} {hash : Uint256}
    {nValueIn : Int64} {h : Uint256} {i : ℕ}
    (hi : i ∈ (s.wait porphan hash nValueIn).mapDependers h) :
    i ∈ s.mapDependers h ∨ i = porphan := by
  change i ∈ Function.update s.mapDependers hash (s.mapDependers hash ++ [porphan]) h at hi
  by_cases heq : h = hash
  · subst heq
    rw [Function.update_self, List.mem_append, List.mem_singleton] at hi
    exact hi
  · rw [Function.update_of_ne heq] at hi
    exact Or.inl hi

def Orphan.waits (orphan : Orphan D) : Bool := decide (orphan.setDependsOn ≠ ∅)

/-- The orphans that still wait for something. -/
def waiting (vOrphan : List (Option (Orphan D))) : ℕ := vOrphan.countP fun x => x.any Orphan.waits

theorem waiting_set {vOrphan : List (Option (Orphan D))} {i : ℕ} (hlt : i < vOrphan.length)
    {orphan : Orphan D} (horphan : vOrphan[i] = some orphan) (hwait : orphan.setDependsOn ≠ ∅)
    (setDependsOn : Finset Uint256) :
    waiting (vOrphan.set i (some { orphan with setDependsOn := setDependsOn })) + 1 =
      waiting vOrphan + if setDependsOn = ∅ then 0 else 1 := by
  have hwaits : (some orphan).any Orphan.waits = true := decide_eq_true hwait
  have hpos : 0 < waiting vOrphan :=
    List.countP_pos_iff.mpr ⟨some orphan, horphan ▸ List.getElem_mem hlt, hwaits⟩
  unfold waiting at hpos ⊢
  rw [List.countP_set hlt, horphan, if_pos hwaits]
  by_cases hdone : setDependsOn = ∅
  · have hnot : (some { orphan with setDependsOn := setDependsOn }).any Orphan.waits = false :=
      decide_eq_false (not_not.mpr hdone)
    rw [hnot, if_pos hdone, if_neg Bool.false_ne_true]
    omega
  · have hstill : (some { orphan with setDependsOn := setDependsOn }).any Orphan.waits = true :=
      decide_eq_true hdone
    rw [hstill, if_neg hdone, if_pos rfl]
    omega

theorem release_some (hash : Uint256) {porphans : List ℕ} {vOrphan : List (Option (Orphan D))}
    (vecPriority : List (TxPriority D)) (hwhole : ∀ x ∈ vOrphan, x ≠ none)
    (hi : ∀ i ∈ porphans, i < vOrphan.length) :
    ∃ vOrphan' vecPriority', release hash porphans (vOrphan, vecPriority) =
        some (vOrphan', vecPriority') ∧ (∀ x ∈ vOrphan', x ≠ none) ∧
      vOrphan'.length = vOrphan.length ∧
      vecPriority'.length + waiting vOrphan' = vecPriority.length + waiting vOrphan := by
  induction porphans generalizing vOrphan vecPriority with
  | nil => exact ⟨vOrphan, vecPriority, rfl, hwhole, rfl, rfl⟩
  | cons i porphans ih =>
    have hlt := hi i List.mem_cons_self
    obtain ⟨orphan, horphan⟩ := Option.ne_none_iff_exists'.mp (hwhole _ (List.getElem_mem hlt))
    have hget : vOrphan[i]?.join = some orphan := by
      rw [List.getElem?_eq_getElem hlt, horphan]
      rfl
    -- what is left when the orphan has been written back
    have hwhole' : ∀ setDependsOn, ∀ x ∈ vOrphan.set i (some { orphan with
        setDependsOn := setDependsOn }), x ≠ none := by
      intro setDependsOn x hx
      rcases List.mem_or_eq_of_mem_set hx with hx | rfl
      · exact hwhole x hx
      · exact Option.some_ne_none _
    have hrest : ∀ x, ∀ j ∈ porphans, j < (vOrphan.set i x).length := by
      intro x j hj
      rw [List.length_set]
      exact hi j (List.mem_cons_of_mem _ hj)
    rw [release, hget]
    simp only []
    split_ifs with hwait hdone
    · exact ih vecPriority hwhole fun j hj => hi j (List.mem_cons_of_mem _ hj)
    · obtain ⟨vOrphan', vecPriority', hrun, hw, hlen, hcount⟩ := ih (vecPriority ++
        [⟨orphan.dPriority, orphan.dFeePerKb, orphan.ptx⟩]) (hwhole' _) (hrest _)
      have hone := waiting_set hlt horphan hwait (orphan.setDependsOn.erase hash)
      rw [if_pos hdone] at hone
      rw [List.length_append, List.length_singleton] at hcount
      exact ⟨vOrphan', vecPriority', hrun, hw, hlen.trans (List.length_set ..), by omega⟩
    · obtain ⟨vOrphan', vecPriority', hrun, hw, hlen, hcount⟩ :=
        ih vecPriority (hwhole' _) (hrest _)
      have hone := waiting_set hlt horphan hwait (orphan.setDependsOn.erase hash)
      rw [if_neg hdone] at hone
      exact ⟨vOrphan', vecPriority', hrun, hw, hlen.trans (List.length_set ..), by omega⟩

section

variable [Add D] [Mul D] [IntCast D] {v : ChainView} {pool : TxMemPool}

theorem scanInputs_found {prevouts : List OutPoint} (porphan : ℕ) (s : InputScan D)
    (h : ∀ o ∈ prevouts, (v.readPrevout o).isSome = true ∨ (pool.lookup o.hash).isSome = true) :
    let r := scanInputs P v pool porphan s prevouts
    r.2 = false ∧ (s.setDependsOn.isSome = true → r.1.setDependsOn.isSome = true) ∧
      ∀ hash, ∀ i ∈ r.1.mapDependers hash, i ∈ s.mapDependers hash ∨
        i = porphan ∧ r.1.setDependsOn.isSome = true := by
  induction prevouts generalizing s with
  | nil => exact ⟨rfl, id, fun _ _ hi => Or.inl hi⟩
  | cons prevout prevouts ih =>
    have hrest := fun s => ih s fun o ho => h o (List.mem_cons_of_mem _ ho)
    have hfirst := h prevout List.mem_cons_self
    rw [scanInputs]
    cases hread : v.readPrevout prevout with
    | some r => exact hrest _
    | none =>
      rw [hread] at hfirst
      obtain ⟨txPrev, hprev⟩ := Option.isSome_iff_exists.mp (hfirst.resolve_left Bool.false_ne_true)
      simp only [hprev]
      obtain ⟨hfound, hsome, hptr⟩ := hrest (s.wait porphan prevout.hash
        ((txPrev.vout[prevout.n.toNat]?).elim 0 TxOut.nValue))
      refine ⟨hfound, fun _ => hsome rfl, fun hash i hi => ?_⟩
      rcases hptr hash i hi with hi | hi
      · exact (InputScan.mem_mapDependers_wait hi).imp_right fun heq => ⟨heq, hsome rfl⟩
      · exact Or.inr hi

variable [Div D]

/-- A transaction that the first loop does not skip. -/
def ChainView.takes (v : ChainView) (tx : Transaction) : Bool :=
  !(tx.isBeanBase || tx.isBeanStake || !tx.isFinal v.nBestHeight v.nAdjustedTime 0 0)

theorem PoolOrder.Carries.add {order order' : PoolOrder D} (ho : order.Carries Q)
    {tx : Transaction} (h : order.add P v pool tx = some order')
    (htx : v.takes tx = true → Q tx) : order'.Carries Q := by
  unfold PoolOrder.add at h
  split_ifs at h with hskip
  · obtain rfl := Option.some_injective _ h
    exact ho
  · rw [Bool.not_eq_true] at hskip
    have hQ : Q tx := htx (by rw [ChainView.takes, hskip]; rfl)
    revert h
    generalize scanInputs P v pool order.vOrphan.length
      (⟨none, order.mapDependers, ((0 : ℤ) : D), 0⟩ : InputScan D) tx.prevouts = r
    obtain ⟨s, fMissingInputs⟩ := r
    intro h
    simp only [] at h
    split_ifs at h
    · obtain rfl := Option.some_injective _ h
      refine ⟨fun orphan hmem => ?_, ho.queue⟩
      rcases List.mem_append.mp hmem with hmem | hmem
      · exact ho.orphans orphan hmem
      · cases List.mem_singleton.mp hmem
    · obtain rfl := Option.some_injective _ h
      exact ⟨ho.orphans, ho.queue⟩
    · obtain ⟨nValueOut, _, rfl⟩ := Option.map_eq_some_iff.mp h
      cases s.setDependsOn with
      | none =>
        refine ⟨ho.orphans, fun p hp => ?_⟩
        rcases List.mem_append.mp hp with hp | hp
        · exact ho.queue p hp
        · rw [List.mem_singleton.mp hp]
          exact hQ
      | some setDependsOn =>
        refine ⟨fun orphan hmem => ?_, ho.queue⟩
        rcases List.mem_append.mp hmem with hmem | hmem
        · exact ho.orphans orphan hmem
        · rw [Option.some_injective _ (List.mem_singleton.mp hmem)]
          exact hQ

theorem PoolOrder.Carries.addAll {order order' : PoolOrder D} (ho : order.Carries Q)
    {txs : List Transaction} (h : PoolOrder.addAll P v pool order txs = some order')
    (htxs : ∀ tx ∈ txs, v.takes tx = true → Q tx) : order'.Carries Q := by
  induction txs generalizing order with
  | nil =>
    obtain rfl := Option.some_injective _ h
    exact ho
  | cons tx txs ih =>
    obtain ⟨order₁, hadd, hall⟩ := Option.bind_eq_some_iff.mp h
    exact ih (ho.add hadd (htxs tx List.mem_cons_self)) hall
      fun tx htx => htxs tx (List.mem_cons_of_mem _ htx)

theorem PoolOrder.Valid.add {order : PoolOrder D} (ho : order.Valid) {tx : Transaction}
    (hsource : ∀ o ∈ tx.prevouts, (v.readPrevout o).isSome = true ∨
      (pool.lookup o.hash).isSome = true) (hout : tx.getValueOut.isSome = true) :
    ∃ order', order.add P v pool tx = some order' ∧ order'.Valid := by
  unfold PoolOrder.add
  split_ifs with hskip
  · exact ⟨order, rfl, ho⟩
  · obtain ⟨nValueOut, hout⟩ := Option.isSome_iff_exists.mp hout
    have hscan := scanInputs_found (P := P) order.vOrphan.length
      (⟨none, order.mapDependers, ((0 : ℤ) : D), 0⟩ : InputScan D) hsource
    revert hscan
    generalize scanInputs P v pool order.vOrphan.length
      (⟨none, order.mapDependers, ((0 : ℤ) : D), 0⟩ : InputScan D) tx.prevouts = r
    obtain ⟨s, fMissingInputs⟩ := r
    rintro ⟨rfl, -, hptr⟩
    simp only [hout, Option.map_some, Bool.false_eq_true, if_false]
    refine ⟨_, rfl, ?_⟩
    cases hdep : s.setDependsOn with
    | none => exact ⟨ho.whole, ho.dependers⟩
    | some setDependsOn =>
      refine ⟨fun x hx => ?_, fun hash i hi => ?_⟩
      · rcases List.mem_append.mp hx with hx | hx
        · exact ho.whole x hx
        · rw [List.mem_singleton.mp hx]
          exact Option.some_ne_none _
      · rw [List.length_append, List.length_singleton]
        rcases hptr hash i hi with hi | ⟨rfl, _⟩
        · exact (ho.dependers hash i hi).trans (Nat.lt_succ_self _)
        · exact Nat.lt_succ_self _

theorem PoolOrder.Valid.addAll {order : PoolOrder D} (ho : order.Valid) {txs : List Transaction}
    (hsource : ∀ tx ∈ txs, ∀ o ∈ tx.prevouts, (v.readPrevout o).isSome = true ∨
      (pool.lookup o.hash).isSome = true) (hout : ∀ tx ∈ txs, tx.getValueOut.isSome = true) :
    ∃ order', PoolOrder.addAll P v pool order txs = some order' ∧ order'.Valid := by
  induction txs generalizing order with
  | nil => exact ⟨order, rfl, ho⟩
  | cons tx txs ih =>
    obtain ⟨order₁, hadd, ho₁⟩ := ho.add (hsource tx List.mem_cons_self) (hout tx List.mem_cons_self)
    obtain ⟨order₂, hall, ho₂⟩ := ih ho₁ (fun tx htx => hsource tx (List.mem_cons_of_mem _ htx))
      fun tx htx => hout tx (List.mem_cons_of_mem _ htx)
    exact ⟨order₂, by rw [PoolOrder.addAll, hadd]; exact hall, ho₂⟩

variable [LT D] [DecidableLT D] [BEq D]

theorem collectTransactions_carries {heap : StdHeap (TxPriority D)} {task : MinerTask}
    {s : BlockAssembly} (h : collectTransactions P heap task v pool = some s)
    (hQ : ∀ tx ∈ pool.transactions, v.takes tx = true → Q tx) : ∀ tx ∈ s.vtx, Q tx := by
  obtain ⟨order, horder, hrun⟩ := Option.bind_eq_some_iff.mp h
  have ho := PoolOrder.carries_empty.addAll horder hQ
  exact MinerTask.run_carries hrun ⟨ho.orphans, ho.queue⟩ fun tx htx => by cases htx

end

end Beancash
