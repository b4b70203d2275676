import Beancash.MemPool
import Beancash.Wallet

namespace Beancash

def maxOrphanTransactions : ℕ := maxBlockSize / 100

/-- `mapOrphanTransactions` and `mapOrphanTransactionsByPrev`, whose sets are in ascending
order. -/
structure OrphanMaps where
  transactions : AList fun _ : Uint256 => Transaction
  byPrev : Uint256 → List Uint256

/-- The null `CTransaction`, but for its time. -/
def Transaction.null : Transaction := ⟨1, 0, [], [], 0⟩

/-- Insert into a set. -/
def insertHash (hash : Uint256) : List Uint256 → List Uint256
  | [] => [hash]
  | h :: set =>
    if hash < h then hash :: h :: set
    else if hash = h then h :: set
    else h :: insertHash hash set

namespace OrphanMaps

def empty : OrphanMaps := ⟨∅, fun _ => []⟩

/-- `mapOrphanTransactions[hash]` -/
def orphanTx (orphans : OrphanMaps) (hash : Uint256) : Transaction :=
  (orphans.transactions.lookup hash).getD Transaction.null

def addOrphanTx (P : Params) (orphans : OrphanMaps) (tx : Transaction) : OrphanMaps :=
  let hash := P.txHash tx
  if (orphans.transactions.lookup hash).isSome then orphans
  else if 5000 < UInt32.ofNat tx.serializeSize then orphans
  else
    { transactions := orphans.transactions.insert hash tx
      byPrev := tx.prevouts.foldl (fun byPrev prevout =>
        Function.update byPrev prevout.hash (insertHash hash (byPrev prevout.hash)))
        orphans.byPrev }

def eraseOrphanTx (orphans : OrphanMaps) (hash : Uint256) : OrphanMaps :=
  match orphans.transactions.lookup hash with
  | none => orphans
  | some tx =>
    { transactions := orphans.transactions.erase hash
      byPrev := tx.prevouts.foldl (fun byPrev prevout =>
        Function.update byPrev prevout.hash ((byPrev prevout.hash).filter (· ≠ hash)))
        orphans.byPrev }

/-- `lower_bound`, or the first one where there is none. -/
def evicted (orphans : OrphanMaps) (randomhash : Uint256) : Option Uint256 :=
  let least (hashes : List Uint256) : Option Uint256 :=
    hashes.foldl (fun least? hash => some (least?.elim hash fun h => if hash < h then hash else h))
      none
  (least (orphans.transactions.keys.filter (randomhash ≤ ·))).orElse fun _ =>
    least orphans.transactions.keys

/-- `LimitOrphanTxSize`; `randomHash` are the answers of `GetRandHash`. -/
def limitOrphanTxSize (nMaxOrphans : ℕ) (randomHash : ℕ → Uint256) : ℕ → OrphanMaps → OrphanMaps
  | fuel + 1, orphans =>
    if nMaxOrphans < orphans.transactions.entries.length then
      match orphans.evicted (randomHash fuel) with
      | some hash => limitOrphanTxSize nMaxOrphans randomHash fuel (orphans.eraseOrphanTx hash)
      | none => orphans
    else orphans
  | 0, orphans => orphans

end OrphanMaps

theorem mem_insertHash {hash h : Uint256} {set : List Uint256} :
    h ∈ insertHash hash set ↔ h = hash ∨ h ∈ set := by
  induction set with
  | nil => simp [insertHash]
  | cons x set ih =>
    rw [insertHash]
    split_ifs with hlt heq
    · rw [List.mem_cons]
    · subst heq
      simp
    · rw [List.mem_cons, ih, List.mem_cons]
      tauto

/-- A transaction names an output of the transaction `hashPrev`. -/
def Transaction.DependsOn (tx : Transaction) (hashPrev : Uint256) : Prop :=
  ∃ o ∈ tx.prevouts, o.hash = hashPrev

namespace OrphanMaps

/-- Each orphan is known by its hash, and is in the set of each transaction it depends on. -/
structure Linked (P : Params) (orphans : OrphanMaps) : Prop where
  hash : ∀ {h tx}, orphans.transactions.lookup h = some tx → P.txHash tx = h
  byPrev : ∀ {hashPrev h}, h ∈ orphans.byPrev hashPrev ↔
    ∃ tx, orphans.transactions.lookup h = some tx ∧ tx.DependsOn hashPrev

theorem mem_foldl_insertHash (hash : Uint256) (prevouts : List OutPoint)
    (byPrev : Uint256 → List Uint256) {hashPrev h : Uint256} :
    h ∈ prevouts.foldl (fun byPrev prevout =>
        Function.update byPrev prevout.hash (insertHash hash (byPrev prevout.hash))) byPrev hashPrev ↔
      h ∈ byPrev hashPrev ∨ h = hash ∧ ∃ o ∈ prevouts, o.hash = hashPrev := by
  induction prevouts generalizing byPrev with
  | nil => simp
  | cons o prevouts ih =>
    rw [List.foldl_cons, ih]
    by_cases ho : hashPrev = o.hash
    · subst ho
      rw [Function.update_self, mem_insertHash]
      simp
      tauto
    · rw [Function.update_of_ne ho]
      simp [Ne.symm ho]

theorem mem_foldl_filter (hash : Uint256) (prevouts : List OutPoint)
    (byPrev : Uint256 → List Uint256) {hashPrev h : Uint256} :
    h ∈ prevouts.foldl (fun byPrev prevout =>
        Function.update byPrev prevout.hash ((byPrev prevout.hash).filter (· ≠ hash)))
        byPrev hashPrev ↔
      h ∈ byPrev hashPrev ∧ ¬(h = hash ∧ ∃ o ∈ prevouts, o.hash = hashPrev) := by
  induction prevouts generalizing byPrev with
  | nil => simp
  | cons o prevouts ih =>
    rw [List.foldl_cons, ih]
    by_cases ho : hashPrev = o.hash
    · subst ho
      rw [Function.update_self, List.mem_filter]
      simp
      tauto
    · rw [Function.update_of_ne ho]
      simp [Ne.symm ho]

theorem linked_empty (P : Params) : empty.Linked P where
  hash h := nomatch h
  byPrev := by
    intro hashPrev h
    simp [empty]

variable {P : Params} {orphans : OrphanMaps}

theorem Linked.addOrphanTx (h : orphans.Linked P) (tx : Transaction) :
    (orphans.addOrphanTx P tx).Linked P := by
  unfold OrphanMaps.addOrphanTx
  dsimp only
  split
  · exact h
  · rename_i hnew
    rw [Option.not_isSome_iff_eq_none] at hnew
    split
    · exact h
    · refine ⟨fun {hash tx'} htx' => ?_, fun {hashPrev hash} => ?_⟩
      · by_cases hhash : hash = P.txHash tx
        · subst hhash
          rw [AList.lookup_insert] at htx'
          rw [Option.some_injective _ htx']
        · rw [AList.lookup_insert_ne hhash] at htx'
          exact h.hash htx'
      · rw [mem_foldl_insertHash, h.byPrev]
        by_cases hhash : hash = P.txHash tx
        · subst hhash
          simp [hnew, Transaction.DependsOn]
        · simp [AList.lookup_insert_ne hhash, hhash]

theorem Linked.eraseOrphanTx (h : orphans.Linked P) (hash : Uint256) :
    (orphans.eraseOrphanTx hash).Linked P := by
  unfold OrphanMaps.eraseOrphanTx
  split
  · exact h
  · rename_i tx htx
    refine ⟨fun {hash' tx'} htx' => ?_, fun {hashPrev hash'} => ?_⟩
    · by_cases hhash : hash' = hash
      · rw [hhash, AList.lookup_erase] at htx'
        cases htx'
      · rw [AList.lookup_erase_ne hhash] at htx'
        exact h.hash htx'
    · rw [mem_foldl_filter, h.byPrev]
      by_cases hhash : hash' = hash
      · subst hhash
        simp [htx, Transaction.DependsOn]
      · simp [AList.lookup_erase_ne hhash, hhash]

theorem Linked.limitOrphanTxSize (h : orphans.Linked P) (nMaxOrphans : ℕ)
    (randomHash : ℕ → Uint256) (fuel : ℕ) :
    (OrphanMaps.limitOrphanTxSize nMaxOrphans randomHash fuel orphans).Linked P := by
  induction fuel generalizing orphans with
  | zero => exact h
  | succ fuel ih =>
    rw [OrphanMaps.limitOrphanTxSize]
    split
    · split
      · rename_i hash _
        exact ih (h.eraseOrphanTx hash)
      · exact h
    · exact h

end OrphanMaps

/-- A `tx` message, and what the world answers while it is processed. -/
structure TxMessage where
  tx : Transaction
  /-- the database and the best chain; the pool and the limiter are those of each call -/
  view : AcceptView
  /-- the rate limiter for free transactions, at each call of `accept` -/
  freeLimited : ℕ → Bool
  writeToDisk : Bool
  randomHash : ℕ → Uint256

def TxMessage.acceptView (m : TxMessage) (pool : TxMemPool) (nCalls : ℕ) : AcceptView :=
  { m.view with
    inputs := { m.view.inputs with lookup := pool.lookup }
    freeLimited := m.freeLimited nCalls }

structure TxNode where
  mempool : TxMemPool
  orphans : OrphanMaps
  setpwalletRegistered : List Wallet
  /-- what `AcceptToMemoryPool` has accepted -/
  accepted : List Transaction
  /-- what was passed to `SyncWithWallets`, and whether the wallets could be written then -/
  synced : List (Transaction × Bool)

/-- What a call of `AcceptToMemoryPool` returns, with `fMissingInputs`, and the node after it. -/
structure AcceptResult where
  fAccepted : Bool
  fMissingInputs : Bool
  node : TxNode

namespace TxNode

/-- `AcceptToMemoryPool(txdb, true, &fMissingInputs)` -/
def acceptToMemoryPool (P : Params) (m : TxMessage) (nCalls : ℕ) (n : TxNode) (tx : Transaction) :
    AcceptResult :=
  let (fAccepted, fMissingInputs, pool) :=
    (m.acceptView n.mempool nCalls).accept P n.mempool tx true
  ⟨fAccepted, fMissingInputs, { n with
    mempool := pool, accepted := if fAccepted then n.accepted ++ [tx] else n.accepted }⟩

/-- `SyncWithWallets(tx, NULL, true)` -/
def syncWithWallets (P : Params) (m : TxMessage) (n : TxNode) (tx : Transaction) : TxNode :=
  { n with
    setpwalletRegistered := n.setpwalletRegistered.map fun w =>
      w.addIfInvolvingMe P tx none true m.writeToDisk
    synced := n.synced ++ [(tx, m.writeToDisk)] }

end TxNode

/-- The queues of the loop over the orphans, and how often `accept` has been called. -/
structure OrphanQueue where
  node : TxNode
  nCalls : ℕ
  /-- the part of `vWorkQueue` that is still to come -/
  vWorkQueue : List Uint256
  vEraseQueue : List Uint256

/-- One orphan that was waiting. -/
def tryOrphan (P : Params) (m : TxMessage) (q : OrphanQueue) (orphanTxHash : Uint256) :
    OrphanQueue :=
  let orphanTx := q.node.orphans.orphanTx orphanTxHash
  let r := q.node.acceptToMemoryPool P m q.nCalls orphanTx
  if r.fAccepted then
    -- the source passes `tx` here, not the orphan
    { node := r.node.syncWithWallets P m m.tx
      nCalls := q.nCalls + 1
      vWorkQueue := q.vWorkQueue ++ [orphanTxHash]
      vEraseQueue := q.vEraseQueue ++ [orphanTxHash] }
  else
    { node := r.node
      nCalls := q.nCalls + 1
      vWorkQueue := q.vWorkQueue
      -- an orphan that is invalid is not kept
      vEraseQueue := if r.fMissingInputs then q.vEraseQueue else q.vEraseQueue ++ [orphanTxHash] }

/-- Process the orphans that depended on what is in the queue. -/
def processQueue (P : Params) (m : TxMessage) : ℕ → OrphanQueue → OrphanQueue
  | fuel + 1, q =>
    match q.vWorkQueue with
    | [] => q
    | hashPrev :: vWorkQueue =>
      processQueue P m fuel ((q.node.orphans.byPrev hashPrev).foldl (tryOrphan P m)
        { q with vWorkQueue := vWorkQueue })
  | 0, q => q

/-- `ProcessMessage` of a `tx` message. -/
def processTx (P : Params) (n : TxNode) (m : TxMessage) : TxNode :=
  let r := n.acceptToMemoryPool P m 0 m.tx
  if r.fAccepted then
    let n := r.node.syncWithWallets P m m.tx
    let hash := P.txHash m.tx
    -- every orphan is accepted at most once
    let q := processQueue P m (n.orphans.transactions.entries.length + 1) ⟨n, 1, [hash], [hash]⟩
    { q.node with orphans := q.vEraseQueue.foldl OrphanMaps.eraseOrphanTx q.node.orphans }
  else if r.fMissingInputs then
    let orphans := r.node.orphans.addOrphanTx P m.tx
    let nOrphans := orphans.transactions.entries.length
    { r.node with
      orphans := OrphanMaps.limitOrphanTxSize maxOrphanTransactions m.randomHash nOrphans orphans }
  else r.node

/-- The messages one after the other. -/
def processTxs (P : Params) (n : TxNode) (ms : List TxMessage) : TxNode := ms.foldl (processTx P) n

end Beancash
