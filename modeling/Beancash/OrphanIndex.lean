import Beancash.FallibleStep
import Beancash.OrphanSync
import Mathlib.Data.Finset.Basic

namespace Beancash

open Fallible

variable {P : Params}

/-- The orphans, with the keys of `mapOrphanTransactionsByPrev`. -/
structure OrphanIndex extends OrphanMaps where
  entries : Finset Uint256

namespace OrphanIndex

def empty : OrphanIndex := ⟨.empty, ∅⟩

def addOrphanTx (P : Params) (ix : OrphanIndex) (tx : Transaction) : OrphanIndex :=
  if (ix.transactions.lookup (P.txHash tx)).isSome then ix
  else if 5000 < UInt32.ofNat tx.serializeSize then ix
  else
    { toOrphanMaps := ix.toOrphanMaps.addOrphanTx P tx
      entries := tx.prevouts.foldl (fun entries prevout => insert prevout.hash entries) ix.entries }

/-- One input of `EraseOrphanTx`: `operator[]` makes an entry, and an empty one is removed. -/
def eraseInput (hash : Uint256) (s : (Uint256 → List Uint256) × Finset Uint256)
    (prevout : OutPoint) : (Uint256 → List Uint256) × Finset Uint256 :=
  let set := (s.1 prevout.hash).filter (· ≠ hash)
  (Function.update s.1 prevout.hash set,
    if set.isEmpty then s.2.erase prevout.hash else insert prevout.hash s.2)

def eraseOrphanTx (ix : OrphanIndex) (hash : Uint256) : OrphanIndex :=
  match ix.transactions.lookup hash with
  | none => ix
  | some tx =>
    let s := tx.prevouts.foldl (eraseInput hash) (ix.byPrev, ix.entries)
    { transactions := ix.transactions.erase hash, byPrev := s.1, entries := s.2 }

def limitOrphanTxSize (nMaxOrphans : ℕ) (randomHash : ℕ → Uint256) : ℕ → OrphanIndex → OrphanIndex
  | fuel + 1, ix =>
    if nMaxOrphans < ix.transactions.entries.length then
      match ix.evicted (randomHash fuel) with
      | some hash => limitOrphanTxSize nMaxOrphans randomHash fuel (ix.eraseOrphanTx hash)
      | none => ix
    else ix
  | 0, ix => ix

end OrphanIndex

/-- The hashes that the loop over the orphans looks up. -/
def queueReads (P : Params) (m : TxMessage) : ℕ → OrphanQueue → List Uint256
  | fuel + 1, q =>
    match q.vWorkQueue with
    | [] => []
    | hashPrev :: vWorkQueue =>
      hashPrev :: queueReads P m fuel ((q.node.orphans.byPrev hashPrev).foldl (tryOrphan P m)
        { q with vWorkQueue := vWorkQueue })
  | 0, _ => []

/-- A node with the entries of the index. -/
structure IndexedTxNode extends TxNode where
  entries : Finset Uint256

namespace IndexedTxNode

def index (n : IndexedTxNode) : OrphanIndex := ⟨n.orphans, n.entries⟩

def withIndex (n : TxNode) (ix : OrphanIndex) : IndexedTxNode :=
  { n with orphans := ix.toOrphanMaps, entries := ix.entries }

/-- `ProcessMessage` of a `tx` message. -/
def processTx (P : Params) (n : IndexedTxNode) (m : TxMessage) : IndexedTxNode :=
  let r := n.acceptToMemoryPool P m 0 m.tx
  if r.fAccepted then
    let node := r.node.syncWithWallets P m m.tx
    let hash := P.txHash m.tx
    let nRounds := node.orphans.transactions.entries.length + 1
    let q := processQueue P m nRounds ⟨node, 1, [hash], [hash]⟩
    -- `operator[]` makes an entry for each hash that is looked up
    let entries := (queueReads P m nRounds ⟨node, 1, [hash], [hash]⟩).foldl
      (fun entries hashPrev => insert hashPrev entries) n.entries
    withIndex q.node (q.vEraseQueue.foldl OrphanIndex.eraseOrphanTx ⟨q.node.orphans, entries⟩)
  else if r.fMissingInputs then
    let ix := OrphanIndex.addOrphanTx P ⟨r.node.orphans, n.entries⟩ m.tx
    withIndex r.node (OrphanIndex.limitOrphanTxSize maxOrphanTransactions m.randomHash
      ix.transactions.entries.length ix)
  else { r.node with entries := n.entries }

end IndexedTxNode

/-- What happens to the orphans. -/
inductive OrphanEvent where
  | tx (m : TxMessage)
  | evict (nMaxOrphans : ℕ) (randomHash : ℕ → Uint256)

namespace IndexedTxNode

def handle (P : Params) (n : IndexedTxNode) : OrphanEvent → IndexedTxNode
  | .tx m => n.processTx P m
  | .evict nMaxOrphans randomHash =>
    withIndex n.toTxNode (OrphanIndex.limitOrphanTxSize nMaxOrphans randomHash
      n.orphans.transactions.entries.length n.index)

def run (P : Params) (n : IndexedTxNode) (events : List OrphanEvent) : IndexedTxNode :=
  events.foldl (handle P) n

end IndexedTxNode

namespace OrphanIndex

theorem toOrphanMaps_addOrphanTx (ix : OrphanIndex) (tx : Transaction) :
    (ix.addOrphanTx P tx).toOrphanMaps = ix.toOrphanMaps.addOrphanTx P tx := by
  unfold addOrphanTx OrphanMaps.addOrphanTx
  dsimp only
  split
  · rfl
  · split <;> rfl

theorem foldl_eraseInput_fst (hash : Uint256) (prevouts : List OutPoint)
    (s : (Uint256 → List Uint256) × Finset Uint256) :
    (prevouts.foldl (eraseInput hash) s).1 = prevouts.foldl (fun byPrev prevout =>
      Function.update byPrev prevout.hash ((byPrev prevout.hash).filter (· ≠ hash))) s.1 := by
  induction prevouts generalizing s with
  | nil => rfl
  | cons o prevouts ih => exact ih _

theorem toOrphanMaps_eraseOrphanTx (ix : OrphanIndex) (hash : Uint256) :
    (ix.eraseOrphanTx hash).toOrphanMaps = ix.toOrphanMaps.eraseOrphanTx hash := by
  unfold eraseOrphanTx OrphanMaps.eraseOrphanTx
  cases ix.transactions.lookup hash with
  | none => rfl
  | some tx =>
    dsimp only
    rw [foldl_eraseInput_fst]

theorem toOrphanMaps_foldl_eraseOrphanTx (ix : OrphanIndex) (hashes : List Uint256) :
    (hashes.foldl eraseOrphanTx ix).toOrphanMaps =
      hashes.foldl OrphanMaps.eraseOrphanTx ix.toOrphanMaps := by
  induction hashes generalizing ix with
  | nil => rfl
  | cons hash hashes ih => rw [List.foldl_cons, List.foldl_cons, ih, toOrphanMaps_eraseOrphanTx]

theorem toOrphanMaps_limitOrphanTxSize (nMaxOrphans : ℕ) (randomHash : ℕ → Uint256) (fuel : ℕ)
    (ix : OrphanIndex) :
    (limitOrphanTxSize nMaxOrphans randomHash fuel ix).toOrphanMaps =
      OrphanMaps.limitOrphanTxSize nMaxOrphans randomHash fuel ix.toOrphanMaps := by
  induction fuel generalizing ix with
  | zero => rfl
  | succ fuel ih =>
    rw [limitOrphanTxSize, OrphanMaps.limitOrphanTxSize]
    split
    · cases ix.evicted (randomHash fuel) with
      | none => rfl
      | some hash =>
        dsimp only
        rw [ih, toOrphanMaps_eraseOrphanTx]
    · rfl

end OrphanIndex

theorem IndexedTxNode.toTxNode_processTx (n : IndexedTxNode) (m : TxMessage) :
    (n.processTx P m).toTxNode = Beancash.processTx P n.toTxNode m := by
  unfold IndexedTxNode.processTx Beancash.processTx
  dsimp only
  split
  · simp only [withIndex, OrphanIndex.toOrphanMaps_foldl_eraseOrphanTx]
  · split
    · simp only [withIndex, OrphanIndex.toOrphanMaps_limitOrphanTxSize,
        OrphanIndex.toOrphanMaps_addOrphanTx]
    · rfl

theorem ne_nil_iff_exists_mem {α : Type} {l : List α} : l ≠ [] ↔ ∃ a, a ∈ l :=
  ⟨List.exists_mem_of_ne_nil l, fun ⟨_, ha⟩ => List.ne_nil_of_mem ha⟩

namespace OrphanIndex

/-- The entries are those that orphans wait for, and some that are empty. -/
structure Keyed (ix : OrphanIndex) (extra : Finset Uint256) : Prop where
  entries : ∀ h, h ∈ ix.entries ↔ ix.byPrev h ≠ [] ∨ h ∈ extra
  empty : ∀ h ∈ extra, ix.byPrev h = []

variable {ix : OrphanIndex} {extra : Finset Uint256}

theorem mem_foldl_insert {α : Type} (f : α → Uint256) (l : List α) (entries : Finset Uint256)
    {h : Uint256} : h ∈ l.foldl (fun entries a => insert (f a) entries) entries ↔
      h ∈ entries ∨ ∃ a ∈ l, f a = h := by
  induction l generalizing entries with
  | nil => simp
  | cons a l ih =>
    rw [List.foldl_cons, ih, Finset.mem_insert]
    simp only [List.mem_cons, exists_eq_or_imp]
    tauto

theorem Keyed.reads (h : ix.Keyed ∅) (reads : List Uint256) :
    Keyed ⟨ix.toOrphanMaps,
        reads.foldl (fun entries hashPrev => insert hashPrev entries) ix.entries⟩
      (reads.toFinset.filter fun hashPrev => ix.byPrev hashPrev = []) := by
  refine ⟨fun hashPrev => ?_, fun hashPrev hmem => (Finset.mem_filter.mp hmem).2⟩
  dsimp only
  rw [mem_foldl_insert (fun hashPrev => hashPrev), h.entries, or_iff_left (Finset.notMem_empty _),
    Finset.mem_filter, List.mem_toFinset]
  simp only [exists_eq_right]
  tauto

theorem Keyed.keyed_empty_iff (h : ix.Keyed extra) : ix.Keyed ∅ ↔ extra = ∅ := by
  constructor
  · intro hempty
    rw [Finset.eq_empty_iff_forall_notMem]
    intro hashPrev hmem
    have hentry := (h.entries hashPrev).mpr (Or.inr hmem)
    rw [hempty.entries, or_iff_left (Finset.notMem_empty _)] at hentry
    exact hentry (h.empty hashPrev hmem)
  · rintro rfl
    exact h

theorem Keyed.addOrphanTx (h : ix.Keyed ∅) (tx : Transaction) : (ix.addOrphanTx P tx).Keyed ∅ := by
  unfold OrphanIndex.addOrphanTx
  split
  · exact h
  · rename_i hnew
    split
    · exact h
    · rename_i hsize
      refine ⟨fun hashPrev => ?_, by simp⟩
      simp only [OrphanMaps.addOrphanTx, hnew, hsize, Bool.false_eq_true, if_false]
      rw [mem_foldl_insert OutPoint.hash, h.entries, ne_nil_iff_exists_mem, ne_nil_iff_exists_mem]
      simp only [OrphanMaps.mem_foldl_insertHash, Finset.notMem_empty, or_false, exists_or,
        exists_eq_left]

/-- An entry that an input names is there just when it is not empty; the others stay. -/
theorem mem_foldl_eraseInput (hash : Uint256) (prevouts : List OutPoint)
    (s : (Uint256 → List Uint256) × Finset Uint256) (h : Uint256) :
    h ∈ (prevouts.foldl (eraseInput hash) s).2 ↔
      if ∃ o ∈ prevouts, o.hash = h then (prevouts.foldl (eraseInput hash) s).1 h ≠ []
      else h ∈ s.2 := by
  induction prevouts using List.reverseRecOn with
  | nil => simp
  | append_singleton prevouts o ih =>
    rw [List.foldl_concat]
    generalize prevouts.foldl (eraseInput hash) s = s' at ih ⊢
    by_cases ho : h = o.hash
    · subst ho
      rw [if_pos ⟨o, by simp, rfl⟩]
      unfold eraseInput
      dsimp only
      rw [Function.update_self]
      split
      · rename_i hnil
        simpa using hnil
      · rename_i hne
        simpa using hne
    · unfold eraseInput
      dsimp only
      rw [Function.update_of_ne ho]
      have hmem : h ∈ (if ((s'.1 o.hash).filter (· ≠ hash)).isEmpty then s'.2.erase o.hash
          else insert o.hash s'.2) ↔ h ∈ s'.2 := by
        split <;> simp [ho]
      rw [hmem, ih]
      simp [Ne.symm ho]

theorem Keyed.eraseOrphanTx (h : ix.Keyed extra) (hlinked : ix.Linked P) (hash : Uint256) :
    (ix.eraseOrphanTx hash).Keyed extra := by
  unfold OrphanIndex.eraseOrphanTx
  cases htx : ix.transactions.lookup hash with
  | none => exact h
  | some tx =>
    dsimp only
    -- an entry that no orphan waits for is not one that this orphan waits for
    have hspent : ∀ hashPrev, (∃ o ∈ tx.prevouts, o.hash = hashPrev) → ix.byPrev hashPrev ≠ [] :=
      fun hashPrev hdepends => List.ne_nil_of_mem (hlinked.byPrev.mpr ⟨tx, htx, hdepends⟩)
    have hkept : ∀ hashPrev, ¬(∃ o ∈ tx.prevouts, o.hash = hashPrev) →
        ((tx.prevouts.foldl (eraseInput hash) (ix.byPrev, ix.entries)).1 hashPrev ≠ [] ↔
          ix.byPrev hashPrev ≠ []) := by
      intro hashPrev hdepends
      rw [foldl_eraseInput_fst, ne_nil_iff_exists_mem, ne_nil_iff_exists_mem]
      simp only [OrphanMaps.mem_foldl_filter, hdepends, and_false, not_false_eq_true, and_true]
    refine ⟨fun hashPrev => ?_, fun hashPrev hextra => ?_⟩
    · dsimp only
      rw [mem_foldl_eraseInput]
      split
      · rename_i hdepends
        have hnot : hashPrev ∉ extra := fun hextra => hspent hashPrev hdepends (h.empty _ hextra)
        exact (or_iff_left hnot).symm
      · rename_i hdepends
        rw [hkept hashPrev hdepends]
        exact h.entries hashPrev
    · have hnil := h.empty hashPrev hextra
      have hdepends := mt (hspent hashPrev) (not_not.mpr hnil)
      exact not_not.mp (mt (hkept hashPrev hdepends).mp (not_not.mpr hnil))

theorem Keyed.foldl_eraseOrphanTx (h : ix.Keyed extra) (hlinked : ix.Linked P)
    (hashes : List Uint256) : (hashes.foldl OrphanIndex.eraseOrphanTx ix).Keyed extra := by
  induction hashes generalizing ix with
  | nil => exact h
  | cons hash hashes ih =>
    refine ih (h.eraseOrphanTx hlinked hash) ?_
    rw [toOrphanMaps_eraseOrphanTx]
    exact hlinked.eraseOrphanTx hash

theorem Keyed.limitOrphanTxSize (h : ix.Keyed extra) (hlinked : ix.Linked P) (nMaxOrphans : ℕ)
    (randomHash : ℕ → Uint256) (fuel : ℕ) :
    (OrphanIndex.limitOrphanTxSize nMaxOrphans randomHash fuel ix).Keyed extra := by
  induction fuel generalizing ix with
  | zero => exact h
  | succ fuel ih =>
    rw [OrphanIndex.limitOrphanTxSize]
    split
    · split
      · rename_i hash _
        refine ih (h.eraseOrphanTx hlinked hash) ?_
        rw [toOrphanMaps_eraseOrphanTx]
        exact hlinked.eraseOrphanTx hash
      · exact h
    · exact h

end OrphanIndex

namespace OrphanMaps

variable {orphans : OrphanMaps}

def size (orphans : OrphanMaps) : ℕ := orphans.transactions.entries.length

theorem size_eraseOrphanTx_of_mem {hash : Uint256} (h : hash ∈ orphans.transactions) :
    (orphans.eraseOrphanTx hash).size + 1 = orphans.size := by
  obtain ⟨tx, htx⟩ := Option.isSome_iff_exists.mp (AList.lookup_isSome.mpr h)
  have hkeys : ∀ o : OrphanMaps, o.size = o.transactions.keys.length := fun o =>
    (List.length_map _).symm
  rw [hkeys, hkeys, eraseOrphanTx, htx]
  dsimp only
  rw [AList.keys_erase, List.length_erase_of_mem (AList.mem_keys.mp h)]
  have hpos := List.length_pos_of_mem (AList.mem_keys.mp h)
  omega

theorem size_eraseOrphanTx_le (hash : Uint256) : (orphans.eraseOrphanTx hash).size ≤ orphans.size := by
  by_cases h : hash ∈ orphans.transactions
  · have hsize := size_eraseOrphanTx_of_mem h
    omega
  · rw [eraseOrphanTx, AList.lookup_eq_none.mpr h]

theorem foldl_least_spec {hashes : List Uint256} (h : hashes ≠ []) : ∃ hash ∈ hashes,
    hashes.foldl (fun least? hash => some (least?.elim hash fun h => if hash < h then hash else h))
      none = some hash := by
  induction hashes using List.reverseRecOn with
  | nil => exact absurd rfl h
  | append_singleton hashes hash ih =>
    rw [List.foldl_concat]
    rcases eq_or_ne hashes [] with rfl | hne
    · exact ⟨hash, by simp, rfl⟩
    · obtain ⟨least, hmem, hleast⟩ := ih hne
      rw [hleast, Option.elim_some]
      split
      · exact ⟨hash, by simp, rfl⟩
      · exact ⟨least, List.mem_append_left _ hmem, rfl⟩

theorem evicted_spec (randomhash : Uint256) (h : 0 < orphans.size) :
    ∃ hash, orphans.evicted randomhash = some hash ∧ hash ∈ orphans.transactions := by
  have hkeys : orphans.transactions.keys ≠ [] := by
    intro hnil
    have hlength := congrArg List.length hnil
    rw [AList.keys, List.keys, List.length_map] at hlength
    exact absurd hlength h.ne'
  unfold evicted
  dsimp only
  rcases eq_or_ne (orphans.transactions.keys.filter (randomhash ≤ ·)) [] with hnil | hne
  · obtain ⟨hash, hmem, hleast⟩ := foldl_least_spec hkeys
    rw [hnil, hleast]
    exact ⟨hash, rfl, AList.mem_keys.mpr hmem⟩
  · obtain ⟨hash, hmem, hleast⟩ := foldl_least_spec hne
    rw [hleast]
    exact ⟨hash, rfl, AList.mem_keys.mpr (List.mem_filter.mp hmem).1⟩

theorem size_limitOrphanTxSize (orphans : OrphanMaps) (nMaxOrphans : ℕ)
    (randomHash : ℕ → Uint256) (fuel : ℕ) :
    (limitOrphanTxSize nMaxOrphans randomHash fuel orphans).size ≤
      max nMaxOrphans (orphans.size - fuel) := by
  induction fuel generalizing orphans with
  | zero => exact le_max_right _ _
  | succ fuel ih =>
    rw [limitOrphanTxSize]
    split
    · rename_i hmany
      obtain ⟨hash, hevicted, hmem⟩ := evicted_spec (randomHash fuel) ((Nat.zero_le _).trans_lt hmany)
      have hsize := size_eraseOrphanTx_of_mem hmem
      have hle := ih (orphans.eraseOrphanTx hash)
      rw [hevicted]
      dsimp only
      omega
    · rename_i hfew
      exact (Nat.not_lt.mp hfew).trans (le_max_left _ _)

theorem size_limitOrphanTxSize_le (orphans : OrphanMaps) (nMaxOrphans : ℕ)
    (randomHash : ℕ → Uint256) (fuel : ℕ) :
    (limitOrphanTxSize nMaxOrphans randomHash fuel orphans).size ≤ orphans.size := by
  induction fuel generalizing orphans with
  | zero => exact le_rfl
  | succ fuel ih =>
    rw [limitOrphanTxSize]
    split
    · split
      · exact (ih _).trans (size_eraseOrphanTx_le _)
      · exact le_rfl
    · exact le_rfl

end OrphanMaps

/-- What should hold between messages: an entry for each transaction that a stored orphan spends,
with the orphans that do, and no more orphans than there may be. -/
structure IndexedTxNode.Right (P : Params) (n : IndexedTxNode) : Prop where
  entries : ∀ hashPrev, hashPrev ∈ n.entries ↔
    ∃ hash tx, n.orphans.transactions.lookup hash = some tx ∧ tx.DependsOn hashPrev
  byPrev : ∀ hashPrev hash, hash ∈ n.orphans.byPrev hashPrev ↔
    ∃ tx, n.orphans.transactions.lookup hash = some tx ∧ tx.DependsOn hashPrev
  size : n.orphans.transactions.entries.length ≤ maxOrphanTransactions

/-- What the loop over the orphans looks up, if the transaction of the message is accepted. -/
def IndexedTxNode.reads (P : Params) (n : IndexedTxNode) (m : TxMessage) : List Uint256 :=
  let r := n.acceptToMemoryPool P m 0 m.tx
  if r.fAccepted then
    let node := r.node.syncWithWallets P m m.tx
    queueReads P m (node.orphans.transactions.entries.length + 1)
      ⟨node, 1, [P.txHash m.tx], [P.txHash m.tx]⟩
  else []

/-- For each hash that is looked up there is an orphan that waits for it. -/
def IndexedTxNode.Meets (P : Params) (n : IndexedTxNode) : OrphanEvent → Prop
  | .tx m => ∀ hashPrev ∈ n.reads P m,
    ∃ hash tx, n.orphans.transactions.lookup hash = some tx ∧ tx.DependsOn hashPrev
  | .evict _ _ => True

namespace IndexedTxNode

variable {n : IndexedTxNode} {m : TxMessage}

theorem byPrev_ne_nil_iff (hlinked : n.orphans.Linked P) (hashPrev : Uint256) :
    n.orphans.byPrev hashPrev ≠ [] ↔
      ∃ hash tx, n.orphans.transactions.lookup hash = some tx ∧ tx.DependsOn hashPrev := by
  rw [ne_nil_iff_exists_mem]
  exact exists_congr fun hash => hlinked.byPrev

theorem right_iff (hlinked : n.orphans.Linked P) (hsize : n.orphans.size ≤ maxOrphanTransactions) :
    n.Right P ↔ n.index.Keyed ∅ := by
  constructor
  · intro h
    refine ⟨fun hashPrev => ?_, by simp⟩
    rw [or_iff_left (Finset.notMem_empty _)]
    exact (h.entries hashPrev).trans (byPrev_ne_nil_iff hlinked hashPrev).symm
  · intro h
    refine ⟨fun hashPrev => ?_, fun hashPrev hash => hlinked.byPrev, hsize⟩
    rw [← byPrev_ne_nil_iff hlinked]
    exact (h.entries hashPrev).trans (or_iff_left (Finset.notMem_empty _))

theorem linked_handle (hlinked : n.orphans.Linked P) (e : OrphanEvent) :
    (n.handle P e).orphans.Linked P := by
  cases e with
  | tx m =>
    rw [handle, toTxNode_processTx]
    exact linked_processTxs hlinked [m]
  | evict nMaxOrphans randomHash =>
    rw [handle, withIndex]
    dsimp only
    rw [OrphanIndex.toOrphanMaps_limitOrphanTxSize]
    exact hlinked.limitOrphanTxSize _ _ _

theorem size_handle (hlinked : n.orphans.Linked P) (hsize : n.orphans.size ≤ maxOrphanTransactions)
    (e : OrphanEvent) : (n.handle P e).orphans.size ≤ maxOrphanTransactions := by
  cases e with
  | evict nMaxOrphans randomHash =>
    have hle := n.orphans.size_limitOrphanTxSize_le nMaxOrphans randomHash
      n.orphans.transactions.entries.length
    rw [handle, withIndex]
    dsimp only
    rw [OrphanIndex.toOrphanMaps_limitOrphanTxSize]
    exact hle.trans hsize
  | tx m =>
    rw [handle, toTxNode_processTx]
    by_cases hpasses : n.Passes P m 0 m.tx
    · rw [processTx_of_passes hpasses]
      dsimp only
      rw [(TxNode.vWorkQueue_queue hlinked m).2]
      refine List.foldlRecOn (motive := fun o : OrphanMaps => o.size ≤ maxOrphanTransactions) _ _
        hsize fun o ho hash _ => (OrphanMaps.size_eraseOrphanTx_le hash).trans ho
    · obtain ⟨fMissingInputs, haccept⟩ := TxNode.accept_of_not_passes hpasses
      simp only [Beancash.processTx, haccept, Bool.false_eq_true, if_false]
      split
      · have hle := (n.orphans.addOrphanTx P m.tx).size_limitOrphanTxSize
          maxOrphanTransactions m.randomHash (n.orphans.addOrphanTx P m.tx).size
        rwa [Nat.sub_self, Nat.max_zero] at hle
      · exact hsize

/-- After an event the entries are right just where the event meets the condition. -/
theorem keyed_handle_iff (hlinked : n.orphans.Linked P) (hkeyed : n.index.Keyed ∅)
    (e : OrphanEvent) : (n.handle P e).index.Keyed ∅ ↔ n.Meets P e := by
  cases e with
  | evict nMaxOrphans randomHash =>
    exact iff_of_true (hkeyed.limitOrphanTxSize hlinked _ _ _) trivial
  | tx m =>
    by_cases hpasses : n.Passes P m 0 m.tx
    · have haccept := TxNode.Passes.accept hpasses
      have hqueue := (TxNode.vWorkQueue_queue hlinked m).2
      simp only [Meets, reads, handle, processTx, haccept, if_true]
      change OrphanIndex.Keyed (List.foldl OrphanIndex.eraseOrphanTx ⟨(processQueue P m
        (n.orphans.transactions.entries.length + 1) (n.queue P m)).node.orphans, _⟩ _) ∅ ↔ _
      rw [hqueue]
      change _ ↔ ∀ hashPrev ∈ queueReads P m (n.orphans.transactions.entries.length + 1)
        (n.queue P m), _
      change OrphanIndex.Keyed (List.foldl OrphanIndex.eraseOrphanTx ⟨n.orphans,
        (queueReads P m (n.orphans.transactions.entries.length + 1) (n.queue P m)).foldl _ _⟩ _) ∅ ↔ _
      generalize queueReads P m (n.orphans.transactions.entries.length + 1) (n.queue P m) = reads
      have hreads := hkeyed.reads reads
      refine (hreads.foldl_eraseOrphanTx hlinked _).keyed_empty_iff.trans ?_
      rw [Finset.filter_eq_empty_iff]
      refine forall_congr' fun hashPrev => ?_
      rw [List.mem_toFinset, ← byPrev_ne_nil_iff hlinked]
      rfl
    · obtain ⟨fMissingInputs, haccept⟩ := TxNode.accept_of_not_passes hpasses
      simp only [Meets, reads, handle, processTx, haccept, Bool.false_eq_true, if_false]
      refine iff_of_true ?_ (by simp)
      split
      · refine OrphanIndex.Keyed.limitOrphanTxSize (P := P) (hkeyed.addOrphanTx m.tx) ?_ _ _ _
        rw [OrphanIndex.toOrphanMaps_addOrphanTx]
        exact hlinked.addOrphanTx m.tx
      · exact hkeyed

end IndexedTxNode

/-- In a run from a node without orphans the index is right after every event if and only if in each
message the loop looks up only what some orphan waits for. -/
theorem orphanIndex_iff (P : Params) (n : IndexedTxNode) (hempty : n.index = .empty)
    (events : List OrphanEvent) :
    (∀ done, done <+: events → (n.run P done).Right P) ↔
      EachStep (fun done e => (n.run P done).Meets P e) events := by
  have horphans : n.orphans = .empty := congrArg OrphanIndex.toOrphanMaps hempty
  have hstored : ∀ done, (n.run P done).orphans.Linked P ∧
      (n.run P done).orphans.size ≤ maxOrphanTransactions := by
    intro done
    refine List.foldlRecOn (motive := fun n : IndexedTxNode =>
      n.orphans.Linked P ∧ n.orphans.size ≤ maxOrphanTransactions) done _ ?_ fun n hn e _ =>
      ⟨IndexedTxNode.linked_handle hn.1 e, IndexedTxNode.size_handle hn.1 hn.2 e⟩
    rw [horphans]
    exact ⟨OrphanMaps.linked_empty P, Nat.zero_le _⟩
  have hstart : n.index.Keyed ∅ := by
    rw [hempty]
    exact ⟨fun hashPrev => by simp [OrphanIndex.empty, OrphanMaps.empty], by simp⟩
  refine eachStep_iff (J := fun n => n.orphans.Linked P ∧ n.orphans.size ≤ maxOrphanTransactions)
    ?_ hstored (fun n e hn hright => ?_) events
  · exact (IndexedTxNode.right_iff (hstored []).1 (hstored []).2).mpr hstart
  · have hkeyed := (IndexedTxNode.right_iff hn.1 hn.2).mp hright
    rw [IndexedTxNode.right_iff (IndexedTxNode.linked_handle hn.1 e)
      (IndexedTxNode.size_handle hn.1 hn.2 e)]
    exact IndexedTxNode.keyed_handle_iff hn.1 hkeyed e

namespace Sample

def attentive : IndexedTxNode := { listening with entries := ∅ }

/-- It spends the output of `payer`, and another one that is not known. -/
def coheir : Transaction := spend 12 [⟨11, 0⟩, ⟨99, 0⟩] [out 800]

end Sample

open Sample in
/-- `payer` is accepted, and its entry stays for the orphan that waits for another input too. -/
theorem orphanIndex_iff_evicted :
    let events := [.tx (txMessage coheir), .tx (txMessage payer), .evict 0 fun _ => 0]
    (∀ done, done <+: events → (attentive.run params done).Right params) ∧
      (attentive.run params (events.take 2)).accepted = [payer] ∧
      (attentive.run params (events.take 2)).entries = {11, 99} ∧
      (attentive.run params events).entries = ∅ := by
  intro events
  have hrun : (attentive.reads params (txMessage coheir) = [] ∧
        (attentive.run params (events.take 1)).reads params (txMessage payer) = [11] ∧
        (attentive.run params (events.take 1)).orphans.transactions.lookup 13 = some coheir) ∧
      (attentive.run params (events.take 2)).accepted = [payer] ∧
      (attentive.run params (events.take 2)).entries = {11, 99} ∧
      (attentive.run params events).entries = ∅ := by
    decide +kernel
  obtain ⟨⟨hcoheir, hpayer, horphan⟩, hlater⟩ := hrun
  refine ⟨(orphanIndex_iff params attentive rfl _).mpr ?_, hlater⟩
  rw [eachStep_cons, eachStep_cons, eachStep_cons]
  refine ⟨fun hashPrev hmem => ?_, fun hashPrev hmem => ?_, trivial, eachStep_nil _⟩
  · change hashPrev ∈ attentive.reads params (txMessage coheir) at hmem
    rw [hcoheir] at hmem
    cases hmem
  · change hashPrev ∈ (attentive.run params (events.take 1)).reads params (txMessage payer) at hmem
    rw [hpayer, List.mem_singleton] at hmem
    rw [hmem]
    exact ⟨13, coheir, horphan, ⟨11, 0⟩, List.mem_cons_self, rfl⟩

open Sample in
/-- When `payer` is accepted, an empty entry is left for it, though there are no orphans. -/
theorem orphanIndex_payer :
    11 ∈ (attentive.run params [.tx (txMessage payer)]).entries ∧
      (attentive.run params [.tx (txMessage payer)]).orphans.size = 0 ∧
      ¬(attentive.run params [.tx (txMessage payer)]).Right params := by
  have hrun : 11 ∈ (attentive.run params [.tx (txMessage payer)]).entries ∧
      (attentive.run params [.tx (txMessage payer)]).orphans.size = 0 ∧
      (attentive.run params [.tx (txMessage payer)]).orphans.transactions.keys = [] := by
    decide +kernel
  obtain ⟨hentry, hsize, hnone⟩ := hrun
  refine ⟨hentry, hsize, fun h => ?_⟩
  obtain ⟨hash, tx, htx, _⟩ := (h.entries 11).mp hentry
  have hmem := AList.lookup_isSome.mp (Option.isSome_of_eq_some htx)
  rw [AList.mem_keys, hnone] at hmem
  cases hmem

end Beancash
