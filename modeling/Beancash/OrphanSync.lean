import Beancash.OrphanTx

namespace Beancash

variable {P : Params}

/-- What `accept` asks of a transaction. -/
def AcceptView.Passes (P : Params) (v : AcceptView) (pool : TxMemPool) (tx : Transaction) : Prop :=
  v.acceptFirst P pool tx true = true ∧ v.acceptInputs P tx = .ok ()

theorem AcceptView.Passes.accept {v : AcceptView} {pool : TxMemPool} {tx : Transaction}
    (h : v.Passes P pool tx) :
    v.accept P pool tx true = (true, false, pool.addUnchecked (P.txHash tx) tx) := by
  simp only [AcceptView.accept, h.1, h.2, Bool.not_true, Bool.false_eq_true, if_false, if_true]

theorem AcceptView.accept_of_not_passes {v : AcceptView} {pool : TxMemPool} {tx : Transaction}
    (h : ¬v.Passes P pool tx) : ∃ fMissingInputs, v.accept P pool tx true =
      (false, fMissingInputs, pool) := by
  unfold AcceptView.accept
  by_cases hfirst : v.acceptFirst P pool tx true = true
  · rw [hfirst]
    cases hinputs : v.acceptInputs P tx with
    | ok _ => exact absurd ⟨hfirst, hinputs⟩ h
    | error fMissingInputs =>
      refine ⟨fMissingInputs, ?_⟩
      simp
  · refine ⟨false, ?_⟩
    rw [Bool.not_eq_true] at hfirst
    simp [hfirst]

theorem AcceptView.Passes.lookup {v : AcceptView} {pool : TxMemPool} {tx : Transaction}
    (h : v.Passes P pool tx) : pool.lookup (P.txHash tx) = none := by
  have hfirst := h.1
  simp only [AcceptView.acceptFirst, Bool.and_eq_true, Option.isNone_iff_eq_none] at hfirst
  exact hfirst.1.1.2

theorem isSome_lookup_addUnchecked (pool : TxMemPool) (hash : Uint256) (tx : Transaction)
    {h : Uint256} : ((pool.addUnchecked hash tx).lookup h).isSome ↔
      h = hash ∨ (pool.lookup h).isSome := by
  unfold TxMemPool.lookup TxMemPool.addUnchecked
  rw [AList.lookup_isSome, AList.mem_insert, AList.lookup_isSome]

namespace TxNode

/-- The node once a transaction has been accepted. -/
def took (P : Params) (n : TxNode) (tx : Transaction) : TxNode :=
  { n with
    mempool := n.mempool.addUnchecked (P.txHash tx) tx
    accepted := n.accepted ++ [tx] }

/-- The transaction would be accepted by the `nCalls`-th call. -/
def Passes (P : Params) (m : TxMessage) (nCalls : ℕ) (n : TxNode) (tx : Transaction) : Prop :=
  (m.acceptView n.mempool nCalls).Passes P n.mempool tx

variable {m : TxMessage} {nCalls : ℕ} {n : TxNode} {tx : Transaction}

theorem Passes.accept (h : n.Passes P m nCalls tx) :
    n.acceptToMemoryPool P m nCalls tx = ⟨true, false, n.took P tx⟩ := by
  have haccept : (m.acceptView n.mempool nCalls).accept P n.mempool tx true = _ :=
    AcceptView.Passes.accept h
  unfold acceptToMemoryPool
  rw [haccept]
  rfl

theorem accept_of_not_passes (h : ¬n.Passes P m nCalls tx) : ∃ fMissingInputs,
    n.acceptToMemoryPool P m nCalls tx = ⟨false, fMissingInputs, n⟩ := by
  obtain ⟨fMissingInputs, haccept⟩ := AcceptView.accept_of_not_passes h
  refine ⟨fMissingInputs, ?_⟩
  unfold acceptToMemoryPool
  rw [haccept]
  rfl

/-- Something was accepted that the wallets were not told of. -/
def Missed (n : TxNode) : Prop := ∃ tx ∈ n.accepted, tx ∉ n.synced.map Prod.fst

/-- What was accepted is in the pool, and the wallets were told of nothing else. -/
structure Logged (P : Params) (n : TxNode) : Prop where
  pool : ∀ tx ∈ n.accepted, (n.mempool.lookup (P.txHash tx)).isSome
  synced : ∀ tx ∈ n.synced.map Prod.fst, tx ∈ n.accepted

theorem Logged.not_mem_accepted (hn : n.Logged P) (h : n.Passes P m nCalls tx) :
    tx ∉ n.accepted := by
  intro hmem
  have hsome := hn.pool tx hmem
  rw [AcceptView.Passes.lookup h] at hsome
  cases hsome

theorem Logged.took (hn : n.Logged P) : (n.took P tx).Logged P where
  pool tx' htx' := by
    rw [TxNode.took, isSome_lookup_addUnchecked]
    rcases List.mem_append.mp htx' with h | h
    · exact Or.inr (hn.pool tx' h)
    · exact Or.inl (congrArg P.txHash (List.mem_singleton.mp h))
  synced tx' htx' := List.mem_append_left _ (hn.synced tx' htx')

theorem map_fst_syncWithWallets : (n.syncWithWallets P m tx).synced.map Prod.fst =
    n.synced.map Prod.fst ++ [tx] := by
  rw [syncWithWallets, List.map_append]
  rfl

theorem Logged.syncWithWallets (hn : n.Logged P) (htx : tx ∈ n.accepted) :
    (n.syncWithWallets P m tx).Logged P where
  pool := hn.pool
  synced tx' htx' := by
    rw [map_fst_syncWithWallets] at htx'
    rcases List.mem_append.mp htx' with h | h
    · exact hn.synced tx' h
    · rw [List.mem_singleton.mp h]
      exact htx

theorem Logged.missed_received (hn : n.Logged P) (h : n.Passes P m nCalls tx) :
    ((n.took P tx).syncWithWallets P m tx).Missed ↔ n.Missed := by
  have hnew := hn.not_mem_accepted h
  unfold Missed
  rw [map_fst_syncWithWallets]
  constructor
  · rintro ⟨tx', htx', hmissed⟩
    rw [List.mem_append, not_or] at hmissed
    rcases List.mem_append.mp htx' with h | h
    · exact ⟨tx', h, hmissed.1⟩
    · exact absurd h hmissed.2
  · rintro ⟨tx', htx', hmissed⟩
    refine ⟨tx', List.mem_append_left _ htx', fun hmem => ?_⟩
    rcases List.mem_append.mp hmem with h | h
    · exact hmissed h
    · rw [List.mem_singleton.mp h] at htx'
      exact hnew htx'

theorem Logged.missed_of_other (hn : n.Logged P) (h : n.Passes P m nCalls tx) {told : Transaction}
    (htold : told ∈ n.synced.map Prod.fst) :
    ((n.took P tx).syncWithWallets P m told).Missed := by
  have hnew := hn.not_mem_accepted h
  refine ⟨tx, List.mem_append_right _ (List.mem_singleton.mpr rfl), fun hmem => ?_⟩
  rw [map_fst_syncWithWallets] at hmem
  rcases List.mem_append.mp hmem with h | h
  · exact hnew (hn.synced tx h)
  · rw [List.mem_singleton.mp h] at hnew
    exact hnew (hn.synced told htold)

end TxNode

/-- While the orphans are processed: what has been accepted is in the pool, and the wallets know
the transaction that has arrived. -/
structure OrphanQueue.Logged (P : Params) (m : TxMessage) (q : OrphanQueue) : Prop where
  node : q.node.Logged P
  told : m.tx ∈ q.node.synced.map Prod.fst

/-- The orphan of that hash would be accepted next. -/
def OrphanQueue.Passes (P : Params) (m : TxMessage) (q : OrphanQueue) (orphanTxHash : Uint256) :
    Prop :=
  q.node.Passes P m q.nCalls (q.node.orphans.orphanTx orphanTxHash)

section Queue

variable {m : TxMessage} {q : OrphanQueue} {orphanTxHash : Uint256}

theorem tryOrphan_of_passes (h : q.Passes P m orphanTxHash) :
    (tryOrphan P m q orphanTxHash).node =
      (q.node.took P (q.node.orphans.orphanTx orphanTxHash)).syncWithWallets P m m.tx := by
  have haccept := TxNode.Passes.accept h
  simp only [tryOrphan, haccept, if_true]

theorem tryOrphan_of_not_passes (h : ¬q.Passes P m orphanTxHash) :
    (tryOrphan P m q orphanTxHash).node = q.node ∧
      (tryOrphan P m q orphanTxHash).nCalls = q.nCalls + 1 ∧
      (tryOrphan P m q orphanTxHash).vWorkQueue = q.vWorkQueue := by
  obtain ⟨fMissingInputs, haccept⟩ := TxNode.accept_of_not_passes h
  simp only [tryOrphan, haccept, Bool.false_eq_true, if_false, and_self]

theorem OrphanQueue.Logged.tryOrphan (hq : q.Logged P m) (orphanTxHash : Uint256) :
    (tryOrphan P m q orphanTxHash).Logged P m ∧
      (q.node.Missed → (Beancash.tryOrphan P m q orphanTxHash).node.Missed) ∧
      (q.Passes P m orphanTxHash → (Beancash.tryOrphan P m q orphanTxHash).node.Missed) := by
  by_cases h : q.Passes P m orphanTxHash
  · have hmissed := hq.node.missed_of_other h hq.told
    rw [← tryOrphan_of_passes h] at hmissed
    refine ⟨⟨?_, ?_⟩, fun _ => hmissed, fun _ => hmissed⟩
    · rw [tryOrphan_of_passes h]
      exact hq.node.took.syncWithWallets (List.mem_append_left _ (hq.node.synced _ hq.told))
    · rw [tryOrphan_of_passes h, TxNode.map_fst_syncWithWallets]
      exact List.mem_append_left _ hq.told
  · have hnode := (tryOrphan_of_not_passes h).1
    refine ⟨⟨?_, ?_⟩, ?_, fun hpasses => absurd hpasses h⟩
    · rw [hnode]
      exact hq.node
    · rw [hnode]
      exact hq.told
    · rw [hnode]
      exact id

theorem OrphanQueue.Logged.foldl_tryOrphan (hq : q.Logged P m) (hashes : List Uint256) :
    (hashes.foldl (Beancash.tryOrphan P m) q).Logged P m ∧
      (q.node.Missed → (hashes.foldl (Beancash.tryOrphan P m) q).node.Missed) := by
  induction hashes generalizing q with
  | nil => exact ⟨hq, id⟩
  | cons hash hashes ih =>
    obtain ⟨hlogged, hmissed, _⟩ := hq.tryOrphan hash
    obtain ⟨hlogged', hmissed'⟩ := ih hlogged
    exact ⟨hlogged', fun h => hmissed' (hmissed h)⟩

theorem foldl_tryOrphan_of_not_passes (hashes : List Uint256)
    (h : ∀ i hash, hashes[i]? = some hash →
      ¬q.node.Passes P m (q.nCalls + i) (q.node.orphans.orphanTx hash)) :
    (hashes.foldl (tryOrphan P m) q).node = q.node ∧
      (hashes.foldl (tryOrphan P m) q).nCalls = q.nCalls + hashes.length ∧
      (hashes.foldl (tryOrphan P m) q).vWorkQueue = q.vWorkQueue := by
  induction hashes generalizing q with
  | nil => exact ⟨rfl, rfl, rfl⟩
  | cons hash hashes ih =>
    obtain ⟨hnode, hcalls, hqueue⟩ := tryOrphan_of_not_passes (q := q) (h 0 hash rfl)
    obtain ⟨hnode', hcalls', hqueue'⟩ := ih (q := tryOrphan P m q hash) (by
      intro i hash' hi
      rw [hnode, hcalls, Nat.add_assoc, Nat.add_comm 1 i]
      exact h (i + 1) hash' hi)
    rw [List.foldl_cons, hnode', hcalls', hqueue', hnode, hcalls, hqueue, List.length_cons]
    exact ⟨rfl, by omega, rfl⟩

theorem OrphanQueue.Logged.missed_of_passes (hq : q.Logged P m) {hashes : List Uint256} {i : ℕ}
    {hash : Uint256} (hi : hashes[i]? = some hash)
    (h : q.node.Passes P m (q.nCalls + i) (q.node.orphans.orphanTx hash)) :
    (hashes.foldl (Beancash.tryOrphan P m) q).node.Missed := by
  induction hashes generalizing q i with
  | nil => cases hi
  | cons hash' hashes ih =>
    obtain ⟨hlogged, _, hpasses⟩ := hq.tryOrphan hash'
    by_cases hfirst : q.Passes P m hash'
    · exact (hlogged.foldl_tryOrphan hashes).2 (hpasses hfirst)
    · obtain ⟨hnode, hcalls, _⟩ := tryOrphan_of_not_passes hfirst
      cases i with
      | zero =>
        obtain rfl := Option.some_injective _ hi
        exact absurd h hfirst
      | succ i =>
        refine ih hlogged (i := i) hi ?_
        rw [hnode, hcalls, Nat.add_assoc, Nat.add_comm 1 i]
        exact h

theorem OrphanQueue.Logged.processQueue (hq : q.Logged P m) (fuel : ℕ) :
    (processQueue P m fuel q).Logged P m ∧
      (q.node.Missed → (Beancash.processQueue P m fuel q).node.Missed) := by
  induction fuel generalizing q with
  | zero => exact ⟨hq, id⟩
  | succ fuel ih =>
    rw [Beancash.processQueue]
    split
    · exact ⟨hq, id⟩
    · rename_i hashPrev vWorkQueue hqueue
      have hq' : OrphanQueue.Logged P m { q with vWorkQueue := vWorkQueue } := ⟨hq.node, hq.told⟩
      obtain ⟨hlogged, hmissed⟩ := hq'.foldl_tryOrphan (q.node.orphans.byPrev hashPrev)
      obtain ⟨hlogged', hmissed'⟩ := ih hlogged
      exact ⟨hlogged', fun h => hmissed' (hmissed h)⟩

end Queue

/-- How many orphans are not in the pool. -/
def OrphanQueue.waiting (q : OrphanQueue) : ℕ :=
  (q.node.orphans.transactions.keys.filter fun h => (q.node.mempool.lookup h).isNone).length

theorem length_filter_lt {α : Type} {p p' : α → Bool} {l : List α}
    (hsub : ∀ a ∈ l, p' a = true → p a = true) {a : α} (ha : a ∈ l) (hp : p a = true)
    (hp' : ¬p' a = true) : (l.filter p').length < (l.filter p).length := by
  have hfilter : l.filter p' = (l.filter p).filter p' := by
    rw [List.filter_filter]
    apply List.filter_congr
    intro b hb
    have hb' := hsub b hb
    cases h : p' b with
    | false => rfl
    | true =>
      rw [h] at hb'
      rw [hb' rfl]
      rfl
  rw [hfilter, List.length_filter_lt_length_iff_exists]
  exact ⟨a, List.mem_filter.mpr ⟨ha, hp⟩, hp'⟩

section Queue

variable {m : TxMessage} {q : OrphanQueue} {orphanTxHash : Uint256}

theorem orphans_tryOrphan :
    (tryOrphan P m q orphanTxHash).node.orphans = q.node.orphans := by
  by_cases h : q.Passes P m orphanTxHash
  · rw [tryOrphan_of_passes h]
    rfl
  · rw [(tryOrphan_of_not_passes h).1]

theorem waiting_tryOrphan (hlinked : q.node.orphans.Linked P)
    (hmem : orphanTxHash ∈ q.node.orphans.transactions) :
    (tryOrphan P m q orphanTxHash).waiting + (tryOrphan P m q orphanTxHash).vWorkQueue.length ≤
      q.waiting + q.vWorkQueue.length := by
  by_cases h : q.Passes P m orphanTxHash
  · obtain ⟨orphanTx, horphan⟩ := Option.isSome_iff_exists.mp (AList.lookup_isSome.mpr hmem)
    have hhash : P.txHash (q.node.orphans.orphanTx orphanTxHash) = orphanTxHash := by
      rw [OrphanMaps.orphanTx, horphan]
      exact hlinked.hash horphan
    have hlookup := AcceptView.Passes.lookup h
    rw [hhash] at hlookup
    have hqueue : (tryOrphan P m q orphanTxHash).vWorkQueue = q.vWorkQueue ++ [orphanTxHash] := by
      have haccept := TxNode.Passes.accept h
      simp only [tryOrphan, haccept, if_true]
    have hadded : ∀ hash, ((tryOrphan P m q orphanTxHash).node.mempool.lookup hash).isSome ↔
        hash = orphanTxHash ∨ (q.node.mempool.lookup hash).isSome := by
      intro hash
      have hiff := isSome_lookup_addUnchecked q.node.mempool
        (P.txHash (q.node.orphans.orphanTx orphanTxHash)) (q.node.orphans.orphanTx orphanTxHash)
        (h := hash)
      rw [tryOrphan_of_passes h]
      exact hiff.trans (by rw [hhash])
    have hlt : (tryOrphan P m q orphanTxHash).waiting < q.waiting := by
      unfold OrphanQueue.waiting
      rw [orphans_tryOrphan]
      apply length_filter_lt (a := orphanTxHash) _ (AList.mem_keys.mp hmem)
      · rw [hlookup]
        rfl
      · rw [Option.isNone_iff_eq_none, ← Option.not_isSome_iff_eq_none, not_not, hadded]
        exact Or.inl rfl
      · intro hash _ hnone
        rw [Option.isNone_iff_eq_none, ← Option.not_isSome_iff_eq_none, hadded, not_or,
          Option.not_isSome_iff_eq_none] at hnone
        rw [hnone.2]
        rfl
    rw [hqueue, List.length_append, List.length_singleton]
    omega
  · obtain ⟨hnode, _, hqueue⟩ := tryOrphan_of_not_passes h
    rw [OrphanQueue.waiting, hnode, hqueue]
    exact le_rfl

theorem waiting_foldl_tryOrphan (hlinked : q.node.orphans.Linked P) (hashes : List Uint256)
    (hmem : ∀ hash ∈ hashes, hash ∈ q.node.orphans.transactions) :
    (hashes.foldl (tryOrphan P m) q).node.orphans = q.node.orphans ∧
      (hashes.foldl (tryOrphan P m) q).waiting +
        (hashes.foldl (tryOrphan P m) q).vWorkQueue.length ≤ q.waiting + q.vWorkQueue.length := by
  induction hashes generalizing q with
  | nil => exact ⟨rfl, le_rfl⟩
  | cons hash hashes ih =>
    have horphans := @orphans_tryOrphan P m q hash
    have hle := waiting_tryOrphan (m := m) hlinked (hmem hash List.mem_cons_self)
    obtain ⟨horphans', hle'⟩ := ih (q := tryOrphan P m q hash) (by rwa [horphans]) (by
      rw [horphans]
      exact fun hash' h => hmem hash' (List.mem_cons_of_mem hash h))
    exact ⟨horphans'.trans horphans, hle'.trans hle⟩

theorem vWorkQueue_processQueue (hlinked : q.node.orphans.Linked P) {fuel : ℕ}
    (hfuel : q.waiting + q.vWorkQueue.length ≤ fuel) :
    (processQueue P m fuel q).vWorkQueue = [] ∧
      (processQueue P m fuel q).node.orphans = q.node.orphans := by
  induction fuel generalizing q with
  | zero =>
    have hlen : q.vWorkQueue.length = 0 := by omega
    exact ⟨List.length_eq_zero_iff.mp hlen, rfl⟩
  | succ fuel ih =>
    rw [processQueue]
    split
    · rename_i hnil
      exact ⟨hnil, rfl⟩
    · rename_i hashPrev vWorkQueue hqueue
      rw [hqueue, List.length_cons] at hfuel
      obtain ⟨horphans, hle⟩ := waiting_foldl_tryOrphan (P := P) (m := m)
        (q := { q with vWorkQueue := vWorkQueue }) hlinked (q.node.orphans.byPrev hashPrev) (by
          intro hash hhash
          obtain ⟨tx, htx, _⟩ := hlinked.byPrev.mp hhash
          exact AList.lookup_isSome.mp (Option.isSome_iff_exists.mpr ⟨tx, htx⟩))
      change _ ≤ q.waiting + vWorkQueue.length at hle
      obtain ⟨hnil, horphans'⟩ := ih (by rwa [horphans]) (by omega)
      exact ⟨hnil, horphans'.trans horphans⟩

end Queue

/-- The transaction that arrives is accepted, and then one of the orphans that were waiting for
it. -/
def TxNode.Followed (P : Params) (n : TxNode) (m : TxMessage) : Prop :=
  n.Passes P m 0 m.tx ∧ ∃ i hash, (n.orphans.byPrev (P.txHash m.tx))[i]? = some hash ∧
    (n.took P m.tx).Passes P m (i + 1) (n.orphans.orphanTx hash)

section Message

variable {m : TxMessage} {n : TxNode}

/-- The loop over the orphans, as it is entered. -/
def TxNode.queue (P : Params) (n : TxNode) (m : TxMessage) : OrphanQueue :=
  ⟨(n.took P m.tx).syncWithWallets P m m.tx, 1, [P.txHash m.tx], [P.txHash m.tx]⟩

theorem processTx_of_passes (h : n.Passes P m 0 m.tx) :
    let q := processQueue P m (n.orphans.transactions.entries.length + 1) (n.queue P m)
    processTx P n m =
      { q.node with orphans := q.vEraseQueue.foldl OrphanMaps.eraseOrphanTx q.node.orphans } := by
  have haccept := TxNode.Passes.accept h
  simp only [processTx, haccept, if_true]
  rfl

theorem processTx_of_not_passes (h : ¬n.Passes P m 0 m.tx) :
    ∃ orphans, processTx P n m = { n with orphans := orphans } := by
  obtain ⟨fMissingInputs, haccept⟩ := TxNode.accept_of_not_passes h
  simp only [processTx, haccept, Bool.false_eq_true, if_false]
  split
  · exact ⟨_, rfl⟩
  · exact ⟨n.orphans, rfl⟩

theorem TxNode.vWorkQueue_queue (h : n.orphans.Linked P) (m : TxMessage) :
    let q := processQueue P m (n.orphans.transactions.entries.length + 1) (n.queue P m)
    q.vWorkQueue = [] ∧ q.node.orphans = n.orphans := by
  refine vWorkQueue_processQueue (q := n.queue P m) h ?_
  have hle : (n.queue P m).waiting ≤ n.orphans.transactions.keys.length := List.length_filter_le _ _
  rw [AList.keys, List.keys, List.length_map] at hle
  exact Nat.add_le_add_right hle 1

theorem linked_processTxs (h : n.orphans.Linked P) (ms : List TxMessage) :
    (processTxs P n ms).orphans.Linked P := by
  refine List.foldlRecOn (motive := fun n : TxNode => n.orphans.Linked P) ms _ h fun n hn m _ => ?_
  by_cases hpasses : n.Passes P m 0 m.tx
  · rw [processTx_of_passes hpasses]
    refine List.foldlRecOn (motive := OrphanMaps.Linked P) _ _ ?_ fun o ho hash _ =>
      ho.eraseOrphanTx hash
    rw [(TxNode.vWorkQueue_queue hn m).2]
    exact hn
  · obtain ⟨fMissingInputs, haccept⟩ := TxNode.accept_of_not_passes hpasses
    simp only [processTx, haccept, Bool.false_eq_true, if_false]
    split
    · exact (hn.addOrphanTx m.tx).limitOrphanTxSize _ _ _
    · exact hn

theorem TxNode.Logged.queue (hn : n.Logged P) (m : TxMessage) : (n.queue P m).Logged P m where
  node := hn.took.syncWithWallets (List.mem_append_right _ (List.mem_singleton.mpr rfl))
  told := by
    rw [TxNode.queue, TxNode.map_fst_syncWithWallets]
    exact List.mem_append_right _ (List.mem_singleton.mpr rfl)

theorem processQueue_queue (fuel : ℕ) : processQueue P m (fuel + 1) (n.queue P m) =
    processQueue P m fuel ((n.orphans.byPrev (P.txHash m.tx)).foldl (tryOrphan P m)
      { n.queue P m with vWorkQueue := [] }) := rfl

theorem processQueue_of_nil {q : OrphanQueue} (h : q.vWorkQueue = []) (fuel : ℕ) :
    processQueue P m fuel q = q := by
  cases fuel with
  | zero => rfl
  | succ fuel => rw [processQueue, h]

theorem processQueue_queue_of_not_followed (h : n.Passes P m 0 m.tx) (hnot : ¬n.Followed P m)
    (fuel : ℕ) : (processQueue P m (fuel + 1) (n.queue P m)).node = (n.queue P m).node := by
  obtain ⟨hnode, _, hqueue⟩ := foldl_tryOrphan_of_not_passes (P := P) (m := m)
    (q := { n.queue P m with vWorkQueue := [] }) (n.orphans.byPrev (P.txHash m.tx)) (by
      intro i hash hi hpasses
      rw [Nat.add_comm] at hpasses
      exact hnot ⟨h, i, hash, hi, hpasses⟩)
  rw [processQueue_queue, processQueue_of_nil hqueue, hnode]

theorem TxNode.Logged.missed_of_followed (hn : n.Logged P) (h : n.Followed P m) (fuel : ℕ) :
    (processQueue P m (fuel + 1) (n.queue P m)).node.Missed := by
  obtain ⟨_, i, hash, hi, hpasses⟩ := h
  have hq : OrphanQueue.Logged P m { n.queue P m with vWorkQueue := [] } :=
    ⟨(hn.queue m).node, (hn.queue m).told⟩
  have hround := (hq.foldl_tryOrphan (n.orphans.byPrev (P.txHash m.tx))).1
  rw [processQueue_queue]
  apply (hround.processQueue fuel).2
  apply hq.missed_of_passes hi
  rw [Nat.add_comm]
  exact hpasses

theorem TxNode.Logged.processTx (hn : n.Logged P) (m : TxMessage) :
    (processTx P n m).Logged P ∧
      ((Beancash.processTx P n m).Missed ↔ n.Missed ∨ n.Followed P m) := by
  by_cases h : n.Passes P m 0 m.tx
  · rw [processTx_of_passes h]
    have hreceived : (n.queue P m).node.Missed ↔ n.Missed := hn.missed_received h
    have hlogged := ((hn.queue m).processQueue (n.orphans.transactions.entries.length + 1)).1.node
    refine ⟨⟨hlogged.pool, hlogged.synced⟩, ?_⟩
    change (processQueue P m _ _).node.Missed ↔ _
    by_cases hfollowed : n.Followed P m
    · have hmissed := hn.missed_of_followed hfollowed n.orphans.transactions.entries.length
      exact ⟨fun _ => Or.inr hfollowed, fun _ => hmissed⟩
    · rw [processQueue_queue_of_not_followed h hfollowed, hreceived]
      exact (or_iff_left hfollowed).symm
  · obtain ⟨orphans, horphans⟩ := processTx_of_not_passes h
    rw [horphans]
    exact ⟨⟨hn.pool, hn.synced⟩, (or_iff_left fun hfollowed => h hfollowed.1).symm⟩

end Message

theorem processTx_of_not_followed {n : TxNode} {m : TxMessage} (h : ¬n.Followed P m) :
    ∃ txs, (processTx P n m).accepted = n.accepted ++ txs ∧
      (processTx P n m).synced.map Prod.fst = n.synced.map Prod.fst ++ txs := by
  by_cases hpasses : n.Passes P m 0 m.tx
  · refine ⟨[m.tx], ?_⟩
    rw [processTx_of_passes hpasses]
    change (processQueue P m _ _).node.accepted = _ ∧ (processQueue P m _ _).node.synced.map _ = _
    rw [processQueue_queue_of_not_followed hpasses h]
    exact ⟨rfl, TxNode.map_fst_syncWithWallets⟩
  · refine ⟨[], ?_⟩
    obtain ⟨orphans, horphans⟩ := processTx_of_not_passes hpasses
    rw [horphans, List.append_nil, List.append_nil]
    exact ⟨rfl, rfl⟩

/-- No transaction of the messages is followed by an orphan. -/
def NeverFollowed (P : Params) (n : TxNode) (ms : List TxMessage) : Prop :=
  ∀ i (h : i < ms.length), ¬(processTxs P n (ms.take i)).Followed P ms[i]

theorem neverFollowed_cons {n : TxNode} {m : TxMessage} {ms : List TxMessage} :
    NeverFollowed P n (m :: ms) ↔ ¬n.Followed P m ∧ NeverFollowed P (processTx P n m) ms := by
  constructor
  · intro h
    refine ⟨h 0 (Nat.succ_pos _), fun i hi => ?_⟩
    exact h (i + 1) (Nat.succ_lt_succ hi)
  · rintro ⟨hfirst, hrest⟩ i hi
    cases i with
    | zero => exact hfirst
    | succ i => exact hrest i (Nat.lt_of_succ_lt_succ hi)

theorem TxNode.Logged.processTxs {n : TxNode} (hn : n.Logged P) (ms : List TxMessage) :
    (processTxs P n ms).Missed ↔ n.Missed ∨ ¬NeverFollowed P n ms := by
  induction ms generalizing n with
  | nil => exact (or_iff_left fun h => h fun i hi => absurd hi (Nat.not_lt_zero i)).symm
  | cons m ms ih =>
    obtain ⟨hlogged, hmissed⟩ := hn.processTx m
    change (Beancash.processTxs P (Beancash.processTx P n m) ms).Missed ↔ _
    rw [ih hlogged, hmissed, neverFollowed_cons, not_and_or, not_not, or_assoc]

theorem processTxs_of_neverFollowed {n : TxNode} {ms : List TxMessage}
    (h : NeverFollowed P n ms) : ∃ txs, (processTxs P n ms).accepted = n.accepted ++ txs ∧
      (processTxs P n ms).synced.map Prod.fst = n.synced.map Prod.fst ++ txs := by
  induction ms generalizing n with
  | nil => exact ⟨[], (List.append_nil _).symm, (List.append_nil _).symm⟩
  | cons m ms ih =>
    obtain ⟨hfirst, hrest⟩ := neverFollowed_cons.mp h
    obtain ⟨txs, haccepted, hsynced⟩ := processTx_of_not_followed hfirst
    obtain ⟨txs', haccepted', hsynced'⟩ := ih hrest
    change ∃ txs, (processTxs P (processTx P n m) ms).accepted = _ ∧
      (processTxs P (processTx P n m) ms).synced.map _ = _
    rw [haccepted', hsynced', haccepted, hsynced, List.append_assoc, List.append_assoc]
    exact ⟨txs ++ txs', rfl, rfl⟩

/-- A wallet that was told of these transactions, each with the answer of its writes. -/
def Wallet.told (P : Params) (w : Wallet) (txs : List (Transaction × Bool)) : Wallet :=
  txs.foldl (fun w t => w.addIfInvolvingMe P t.1 none true t.2) w

/-- The wallets have changed by what they were told only. -/
def TxNode.Heard (P : Params) (ws : List Wallet) (n : TxNode) : Prop :=
  n.setpwalletRegistered = ws.map fun w => w.told P n.synced

section Heard

variable {ws : List Wallet} {n : TxNode}

theorem TxNode.Heard.syncWithWallets (h : n.Heard P ws) (m : TxMessage) (tx : Transaction) :
    (n.syncWithWallets P m tx).Heard P ws := by
  unfold TxNode.Heard TxNode.syncWithWallets
  rw [h, List.map_map]
  apply List.map_congr_left
  intro w _
  simp only [Function.comp_apply, Wallet.told, List.foldl_append, List.foldl_cons, List.foldl_nil]

theorem TxNode.Heard.tryOrphan {m : TxMessage} {q : OrphanQueue} (h : q.node.Heard P ws)
    (orphanTxHash : Uint256) : (tryOrphan P m q orphanTxHash).node.Heard P ws := by
  by_cases hpasses : q.Passes P m orphanTxHash
  · have htook : (q.node.took P (q.node.orphans.orphanTx orphanTxHash)).Heard P ws := h
    rw [tryOrphan_of_passes hpasses]
    exact htook.syncWithWallets m m.tx
  · rw [(tryOrphan_of_not_passes hpasses).1]
    exact h

theorem TxNode.Heard.processQueue {m : TxMessage} {q : OrphanQueue} (h : q.node.Heard P ws)
    (fuel : ℕ) : (processQueue P m fuel q).node.Heard P ws := by
  induction fuel generalizing q with
  | zero => exact h
  | succ fuel ih =>
    rw [Beancash.processQueue]
    split
    · exact h
    · apply ih
      exact List.foldlRecOn (motive := fun q : OrphanQueue => q.node.Heard P ws) _ _ h
        fun q hq hash _ => hq.tryOrphan hash

theorem TxNode.Heard.processTxs (h : n.Heard P ws) (ms : List TxMessage) :
    (processTxs P n ms).Heard P ws := by
  refine List.foldlRecOn (motive := TxNode.Heard P ws) ms _ h fun n hn m _ => ?_
  by_cases hpasses : n.Passes P m 0 m.tx
  · have htook : (n.took P m.tx).Heard P ws := hn
    rw [processTx_of_passes hpasses]
    exact TxNode.Heard.processQueue (q := n.queue P m) (htook.syncWithWallets m m.tx) _
  · obtain ⟨orphans, horphans⟩ := processTx_of_not_passes hpasses
    rw [horphans]
    exact hn

end Heard

/-- Whatever messages arrive in whatever order, the wallets have been told of every transaction
that was accepted exactly if none was followed by an orphan. They are then what becomes of them
when each transaction is added as it is accepted. -/
theorem synced_of_accepted_iff {n : TxNode} (haccepted : n.accepted = []) (hsynced : n.synced = [])
    (ms : List TxMessage) :
    ((∀ tx ∈ (processTxs P n ms).accepted, tx ∈ (processTxs P n ms).synced.map Prod.fst) ↔
      NeverFollowed P n ms) ∧
    (NeverFollowed P n ms → ∃ txs : List (Transaction × Bool),
      txs.map Prod.fst = (processTxs P n ms).accepted ∧
      (processTxs P n ms).setpwalletRegistered =
        n.setpwalletRegistered.map fun w => w.told P txs) := by
  have hn : n.Logged P := by
    refine ⟨fun tx htx => ?_, fun tx htx => ?_⟩
    · rw [haccepted] at htx
      cases htx
    · rw [hsynced] at htx
      cases htx
  have hstart : ¬n.Missed := by
    rintro ⟨tx, htx, _⟩
    rw [haccepted] at htx
    cases htx
  have hheard : n.Heard P n.setpwalletRegistered := by
    rw [TxNode.Heard, hsynced]
    exact (List.map_id' _).symm
  constructor
  · have hmissed := hn.processTxs ms
    rw [or_iff_right hstart] at hmissed
    rw [← not_iff_not, ← hmissed]
    simp only [TxNode.Missed, not_forall, exists_prop]
  · intro h
    obtain ⟨txs, htxs, htold⟩ := processTxs_of_neverFollowed h
    rw [haccepted, List.nil_append] at htxs
    rw [hsynced, List.map_nil, List.nil_append] at htold
    exact ⟨_, htold.trans htxs.symm, hheard.processTxs ms⟩

namespace Sample

/-- A transaction in the chain, with an output to spend. -/
def funding : Transaction := spend 8 [⟨5, 0⟩] [out 1000]

def payer : Transaction := spend 10 [⟨9, 0⟩] [out 900]

/-- It spends the output of `payer` and pays the wallet. -/
def heir : Transaction := spend 11 [⟨11, 0⟩] [⟨800 * bean, [0x52]⟩]

def txMessage (tx : Transaction) : TxMessage where
  tx := tx
  view :=
    { inputs :=
        { readTxIndex := fun hash =>
            if hash = 9 then some (TxIndex.new (some ⟨⟨1, firstFile_ne⟩, 2, 3⟩) 1) else none
          lookup := fun _ => none
          readTx := fun _ => some funding
          nBestHeight := 0 }
      containsTx := fun hash => hash == 9
      pindexBest := [entry genesis]
      freeLimited := false }
  freeLimited _ := false
  writeToDisk := true
  randomHash _ := 0

/-- A node with one wallet, which has heard of nothing yet. -/
def listening : TxNode where
  mempool := .empty
  orphans := .empty
  setpwalletRegistered := [⟨∅, fun script => script == [0x52], 0⟩]
  accepted := []
  synced := []

end Sample

open Sample in
theorem synced_of_accepted_iff_late :
    NeverFollowed params listening [txMessage payer, txMessage heir] ∧
      heir ∈ (processTxs params listening [txMessage payer, txMessage heir]).accepted :=
  ⟨(synced_of_accepted_iff rfl rfl [txMessage payer, txMessage heir]).1.mp (by decide +kernel),
    by decide +kernel⟩

open Sample in
/-- When `heir` comes first, it is accepted with `payer`, but the wallet does not hear of
it. -/
theorem synced_of_accepted_early :
    let early := processTxs params listening [txMessage heir, txMessage payer]
    let late := processTxs params listening [txMessage payer, txMessage heir]
    heir ∈ early.accepted ∧ heir ∉ early.synced.map Prod.fst ∧
      (early.setpwalletRegistered.map fun w => (w.mapWallet.lookup 12).isSome) = [false] ∧
      (late.setpwalletRegistered.map fun w => (w.mapWallet.lookup 12).isSome) = [true] := by
  decide +kernel

end Beancash
