import Beancash.ChainRun
import Beancash.Consistency
import Beancash.PoolInvariant

namespace Beancash

open Fallible Ledger

namespace TxMemPool

variable {P : Params}

/-- No transaction of the pool spends what one of the list spends. -/
def Clear (P : Params) (pool : TxMemPool) (txs : List Transaction) : Prop :=
  ∀ u, Contains P pool u → ∀ tx ∈ txs, ∀ o ∈ tx.spends, o ∉ u.prevouts

theorem clear_append {pool : TxMemPool} {txs txs' : List Transaction} :
    Clear P pool (txs ++ txs') ↔ Clear P pool txs ∧ Clear P pool txs' := by
  constructor
  · intro h
    exact ⟨fun u hu tx htx => h u hu tx (List.mem_append_left _ htx),
      fun u hu tx htx => h u hu tx (List.mem_append_right _ htx)⟩
  · rintro ⟨h, h'⟩ u hu tx htx
    rcases List.mem_append.mp htx with htx | htx
    · exact h u hu tx htx
    · exact h' u hu tx htx

theorem Clear.mono {pool pool' : TxMemPool} {txs : List Transaction} (h : Clear P pool txs)
    (hsub : ∀ u, Contains P pool' u → Contains P pool u) : Clear P pool' txs :=
  fun u hu => h u (hsub u hu)

theorem mem_prevouts_of_spends {tx : Transaction} {o : OutPoint} (h : o ∈ tx.spends) :
    o ∈ tx.prevouts := by
  unfold Transaction.spends at h
  split at h
  · cases h
  · exact h

variable {S : Set Transaction}

theorem contains_addUnchecked {pool : TxMemPool} {tx u : Transaction}
    (h : Contains P (pool.addUnchecked (P.txHash tx) tx) u) : Contains P pool u ∨ u = tx := by
  change (pool.mapTx.insert (P.txHash tx) tx).lookup (P.txHash u) = some u at h
  by_cases he : P.txHash u = P.txHash tx
  · rw [he, AList.lookup_insert] at h
    exact Or.inr (Option.some_injective _ h).symm
  · rw [AList.lookup_insert_ne he] at h
    exact Or.inl h

theorem contains_accept (v : AcceptView) {pool : TxMemPool} {tx u : Transaction}
    {fCheckInputs : Bool} (h : Contains P (v.accept P pool tx fCheckInputs).2.2 u) :
    Contains P pool u ∨ u = tx := by
  rcases v.accept_cases P pool tx fCheckInputs with heq | ⟨heq, _, _⟩ <;> rw [heq] at h
  · exact Or.inl h
  · exact contains_addUnchecked h

theorem WellFormed.contains_remove {pool : TxMemPool} (h : WellFormed P S pool)
    (hS : HashFree P S) {tx : Transaction} (htx : tx ∈ S) {u : Transaction} :
    Contains P (pool.remove P tx false) u ↔ Contains P pool u ∧ u ≠ tx := by
  by_cases hsome : (pool.lookup (P.txHash tx)).isSome = true
  · have hR := h.removes_remove hS (h.contains_of_isSome hS htx hsome) false
    have hiff : Contains P (pool.remove P tx false) u ↔ Contains P pool u ∧ ¬_ := hR.contains_iff
    simpa using hiff
  · rw [remove_of_isNone false hsome]
    refine ⟨fun hu => ⟨hu, ?_⟩, fun hu => hu.1⟩
    rintro rfl
    exact hsome (by rw [lookup, hu]; rfl)

theorem WellFormed.remove {pool : TxMemPool} (h : WellFormed P S pool) (hS : HashFree P S)
    {tx : Transaction} (htx : tx ∈ S) (fRecursive : Bool) :
    WellFormed P S (pool.remove P tx fRecursive) := by
  obtain ⟨R, hR, _⟩ := h.exists_removes_remove hS htx fRecursive
  exact h.removes hR

theorem WellFormed.removeConflicts {pool : TxMemPool} (h : WellFormed P S pool)
    (hS : HashFree P S) (tx : Transaction) : WellFormed P S (pool.removeConflicts P tx) := by
  obtain ⟨R, hR, _⟩ := h.exists_removes_removeConflicts hS tx
  exact h.removes hR

/-- The pool without the transactions of a block, as `SetBestChainInner` leaves it. -/
def removeAll (P : Params) (pool : TxMemPool) (txs : List Transaction) : TxMemPool :=
  txs.foldl (fun pool tx => pool.remove P tx false) pool

theorem WellFormed.removeAll {pool : TxMemPool} (h : WellFormed P S pool) (hS : HashFree P S)
    {txs : List Transaction} (htxs : ∀ tx ∈ txs, tx ∈ S) :
    WellFormed P S (pool.removeAll P txs) ∧
      ∀ u, Contains P (pool.removeAll P txs) u ↔ Contains P pool u ∧ u ∉ txs := by
  unfold TxMemPool.removeAll
  induction txs generalizing pool with
  | nil => exact ⟨h, fun u => by simp⟩
  | cons tx txs ih =>
    have htx := htxs tx List.mem_cons_self
    obtain ⟨hw, hc⟩ := ih (h.remove hS htx false) fun tx' htx' =>
      htxs tx' (List.mem_cons_of_mem _ htx')
    refine ⟨hw, fun u => ?_⟩
    rw [List.foldl_cons, hc, h.contains_remove hS htx, List.mem_cons, not_or, and_assoc]

/-- The pool after `Reorganize` has put back some transactions and deleted others. -/
def reorganized (P : Params) (pool : TxMemPool) (vResurrect vDelete : List Transaction) :
    TxMemPool :=
  let v : AcceptView :=
    ⟨⟨fun _ => none, fun _ => none, fun _ => none, 0⟩, fun _ => false, [], false⟩
  let pool := vResurrect.foldl (fun pool tx => (v.accept P pool tx false).2.2) pool
  vDelete.foldl (fun pool tx => (pool.remove P tx false).removeConflicts P tx) pool

theorem foldl_accept {pool : TxMemPool} (h : WellFormed P S pool) (v : AcceptView)
    {txs : List Transaction} (htxs : ∀ tx ∈ txs, tx ∈ S) :
    let pool' := txs.foldl (fun pool tx => (v.accept P pool tx false).2.2) pool
    WellFormed P S pool' ∧ ∀ u, Contains P pool' u → Contains P pool u ∨ u ∈ txs := by
  induction txs generalizing pool with
  | nil => exact ⟨h, fun u hu => Or.inl hu⟩
  | cons tx txs ih =>
    obtain ⟨hw, hc⟩ := ih (h.accept (htxs tx List.mem_cons_self) v false) fun tx' htx' =>
      htxs tx' (List.mem_cons_of_mem _ htx')
    refine ⟨hw, fun u hu => ?_⟩
    rcases hc u hu with hu | hu
    · rcases contains_accept v hu with hu | rfl
      · exact Or.inl hu
      · exact Or.inr List.mem_cons_self
    · exact Or.inr (List.mem_cons_of_mem _ hu)

theorem foldl_delete {pool : TxMemPool} (h : WellFormed P S pool) (hS : HashFree P S)
    {txs : List Transaction} (htxs : ∀ tx ∈ txs, tx ∈ S) :
    let pool' := txs.foldl (fun pool tx => (pool.remove P tx false).removeConflicts P tx) pool
    WellFormed P S pool' ∧ (∀ u, Contains P pool' u → Contains P pool u) ∧ Clear P pool' txs := by
  induction txs generalizing pool with
  | nil => exact ⟨h, fun u hu => hu, fun _ _ _ htx => absurd htx List.not_mem_nil⟩
  | cons tx txs ih =>
    have htx := htxs tx List.mem_cons_self
    have hrem := h.remove hS htx false
    obtain ⟨R, hR, hfree⟩ := hrem.exists_removes_removeConflicts hS tx
    obtain ⟨hw, hsub, hclear⟩ := ih (hrem.removes hR) fun tx' htx' =>
      htxs tx' (List.mem_cons_of_mem _ htx')
    refine ⟨hw, fun u hu => ?_, fun u hu tx' htx' o ho => ?_⟩
    · exact ((h.contains_remove hS htx).mp (hR.contains_iff.mp (hsub u hu)).1).1
    · rcases List.mem_cons.mp htx' with rfl | htx'
      · have hne := ((h.contains_remove hS htx).mp (hR.contains_iff.mp (hsub u hu)).1).2
        exact hfree u (hsub u hu) hne o (mem_prevouts_of_spends ho)
      · exact hclear u hu tx' htx' o ho

theorem WellFormed.reorganized {pool : TxMemPool} (h : WellFormed P S pool) (hS : HashFree P S)
    {vResurrect vDelete : List Transaction} (hr : ∀ tx ∈ vResurrect, tx ∈ S)
    (hd : ∀ tx ∈ vDelete, tx ∈ S) :
    WellFormed P S (pool.reorganized P vResurrect vDelete) ∧
      (∀ u, Contains P (pool.reorganized P vResurrect vDelete) u →
        Contains P pool u ∨ u ∈ vResurrect) ∧
      Clear P (pool.reorganized P vResurrect vDelete) vDelete := by
  obtain ⟨hw, hc⟩ := foldl_accept h
    ⟨⟨fun _ => none, fun _ => none, fun _ => none, 0⟩, fun _ => false, [], false⟩ hr
  obtain ⟨hw', hsub, hclear⟩ := foldl_delete hw hS hd
  exact ⟨hw', fun u hu => hc u (hsub u hu), hclear⟩

end TxMemPool

theorem spendInputs_unspent {P : Params} {tx : Transaction} {pos : TxPos} {fQueue fVerify : Bool}
    {i : ℕ} {prevouts : List OutPoint} {inputs : MapPrevTx} {queue queue' : QueuedChanges}
    (h : spendInputs P tx pos fQueue fVerify i prevouts inputs queue = some queue') :
    ∀ o ∈ prevouts, ∃ prev, inputs.lookup o.hash = some prev ∧
      prev.1.spent[o.n.toNat]? = some none := by
  induction prevouts generalizing i inputs queue with
  | nil => exact fun _ ho => absurd ho List.not_mem_nil
  | cons prevout prevouts ih =>
    simp only [spendInputs] at h
    split at h
    · cases h
    · rename_i r txPrev hl
      by_cases hfree : r.spent[prevout.n.toNat]? = some none
      · rw [if_neg (not_not.mpr hfree)] at h
        split at h
        · cases h
        intro o ho
        rcases List.mem_cons.mp ho with rfl | ho
        · exact ⟨(r, txPrev), hl, hfree⟩
        · obtain ⟨prev, hprev, hspent⟩ := ih h o ho
          by_cases he : o.hash = prevout.hash
          · -- the copy has one mark more than the record
            rw [he, AList.lookup_insert] at hprev
            obtain rfl := Option.some_injective _ hprev
            refine ⟨(r, txPrev), he ▸ hl, ?_⟩
            rw [Record.mark_spent, List.getElem?_set] at hspent
            by_cases hn : prevout.n.toNat = o.n.toNat
            · exact hn ▸ hfree
            · rwa [if_neg hn] at hspent
          · exact ⟨prev, (AList.lookup_insert_ne he).symm.trans hprev, hspent⟩
      · rw [if_pos hfree] at h
        cases h

/-- What `accept` lets a transaction spend is unspent or not known to the index. -/
theorem acceptInputs_eq_ok {P : Params} {v : AcceptView} {tx : Transaction}
    (hbase : tx.isBeanBase = false) (h : v.acceptInputs P tx = .ok ()) :
    ∀ o ∈ tx.prevouts, v.inputs.readTxIndex o.hash = none ∨
      Unspent v.inputs.readTxIndex o.key := by
  unfold AcceptView.acceptInputs at h
  split at h
  · cases h
  rename_i inputs hfetch
  obtain ⟨fVerify, queue, hspend⟩ : ∃ fVerify queue, spendInputs P tx TxPos.memory false fVerify 0
      tx.prevouts inputs ∅ = some queue := by
    split at h
    · cases h
    split at h
    · split_ifs at h
      split at h
      · rename_i hconnect
        simp only [InputView.connectInputs, hbase, Bool.false_eq_true, if_false,
          Bool.or_false] at hconnect
        split at hconnect
        · cases hconnect
        split at hconnect
        · cases hconnect
        · rename_i hspend
          exact ⟨_, _, hspend⟩
      · cases h
    · cases h
  intro o ho
  obtain ⟨⟨r, txPrev⟩, hl, hspent⟩ := spendInputs_unspent hspend o ho
  rcases fetchPrev_pool (fetchInputs_lookup hfetch hl) with ⟨hix, _⟩ | hix
  · exact Or.inl hix
  · exact Or.inr ⟨r, hix, hspent⟩

theorem TxMemPool.Clear.accept {P : Params} {v : AcceptView} {pool : TxMemPool}
    {txs : List (TxPos × Transaction)}
    (h : pool.Clear P (txs.map Prod.snd)) (hix : Describes v.inputs.readTxIndex (toLedger P txs))
    (tx : Transaction) : (v.accept P pool tx true).2.2.Clear P (txs.map Prod.snd) := by
  rcases v.accept_cases P pool tx true with heq | ⟨heq, hfirst, hin⟩ <;> rw [heq]
  · exact h
  · have hbase : tx.isBeanBase = false := by
      simp only [AcceptView.acceptFirst, Bool.and_eq_true, Bool.not_eq_true'] at hfirst
      exact hfirst.1.1.1.1.1.1.2
    intro u hu tx' htx' o ho
    rcases TxMemPool.contains_addUnchecked hu with hu | rfl
    · exact h u hu tx' htx' o ho
    · intro hou
      obtain ⟨ltx, hltx, rfl⟩ := List.mem_map.mp htx'
      have hmem : ledgerTx P ltx.1 ltx.2 ∈ toLedger P txs := List.mem_map_of_mem hltx
      have hspends : o.key ∈ (ledgerTx P ltx.1 ltx.2).ins := mem_ledgerTx_ins.mpr ho
      rcases acceptInputs_eq_ok hbase (hin rfl) o hou with hnone | hunspent
      · obtain ⟨r, hr, _⟩ := hix.spender _ hmem o.key hspends
        rw [show v.inputs.readTxIndex o.key.1 = none from hnone] at hr
        cases hr
      · exact hix.not_unspent hmem hspends hunspent

variable {P : Params} {files : Files} {tree : BlockTree P files}

def chainVtx (files : Files) (p : BlockPtr) : List Transaction := (chainTxs files p).map Prod.snd

def blocksVtx (files : Files) (l : List BlockPtr) : List Transaction := (l.map (vtxOf files)).flatten

theorem blocksVtx_cons (c : BlockPtr) (l : List BlockPtr) :
    blocksVtx files (c :: l) = vtxOf files c ++ blocksVtx files l := rfl

theorem blocksVtx_append (l l' : List BlockPtr) :
    blocksVtx files (l ++ l') = blocksVtx files l ++ blocksVtx files l' := by
  unfold blocksVtx
  rw [List.map_append, List.flatten_append]

theorem chainVtx_cons {e d : BlockIndex} {p : BlockPtr} (h : e :: d :: p ∈ tree.entries) :
    chainVtx files (e :: d :: p) = chainVtx files (d :: p) ++ vtxOf files (e :: d :: p) := by
  obtain ⟨b, hb⟩ := Option.isSome_iff_exists.mp (tree.stored h)
  rw [vtxOf_cons hb, chainVtx, chainTxs, hb, List.map_append, ← blockTxs_map_snd e b]
  rfl

theorem chainVtx_downTo {p q : BlockPtr} (hp : p ∈ tree.entries) (hq : q <:+ p) (hne : q ≠ []) :
    chainVtx files p = chainVtx files q ++ blocksVtx files (BlockPtr.downTo q p).reverse := by
  induction p with
  | nil => exact absurd rfl (BlockTree.ne_nil hp)
  | cons e p ih =>
    rcases List.suffix_cons_iff.mp hq with rfl | hq
    · rw [BlockPtr.downTo_self]
      exact (List.append_nil _).symm
    · obtain ⟨d, p, rfl, hdown⟩ := BlockPtr.downTo_cons (e := e) hq hne
      rw [chainVtx_cons hp, ih (tree.parent hp) hq, hdown, List.reverse_cons, blocksVtx_append,
        List.append_assoc]
      simp [blocksVtx]

theorem chainVtx_ascends {i p : BlockPtr} {l : List BlockPtr} (hp : p ∈ tree.entries)
    (hi : i ≠ []) (h : BlockPtr.Ascends i l p) :
    chainVtx files p = chainVtx files i ++ blocksVtx files l := by
  induction l generalizing i with
  | nil =>
    obtain rfl : p = i := h
    exact (List.append_nil _).symm
  | cons c l ih =>
    obtain ⟨hc, rfl, hasc⟩ := h
    obtain ⟨e, i, rfl⟩ := List.exists_cons_of_ne_nil hc
    obtain ⟨d, i, rfl⟩ := List.exists_cons_of_ne_nil hi
    have he := tree.mem_of_suffix hp hasc.suffix hc
    rw [ih hc hasc, chainVtx_cons he, blocksVtx_cons, List.append_assoc]
    rfl

theorem blocksVtx_mem {p : BlockPtr} {l : List BlockPtr} (hp : p ∈ tree.entries)
    (hl : ∀ c ∈ l, c <:+ p ∧ c ≠ []) {tx : Transaction} (h : tx ∈ blocksVtx files l) :
    tx ∈ tree.txs := by
  obtain ⟨vtx, hvtx, htx⟩ := List.mem_flatten.mp h
  obtain ⟨c, hc, rfl⟩ := List.mem_map.mp hvtx
  obtain ⟨hsuf, hne⟩ := hl c hc
  obtain ⟨e, q, rfl⟩ := List.exists_cons_of_ne_nil hne
  have he := tree.mem_of_suffix hp hsuf hne
  obtain ⟨b, hb⟩ := Option.isSome_iff_exists.mp (tree.stored he)
  rw [vtxOf_cons hb] at htx
  exact ⟨e, q, b, he, hb, htx⟩

theorem downTo_suffix {p q : BlockPtr} : ∀ c ∈ BlockPtr.downTo q p, c <:+ p ∧ c ≠ [] := by
  induction p with
  | nil => exact fun _ hc => absurd hc List.not_mem_nil
  | cons e p ih =>
    intro c hc
    rw [BlockPtr.downTo] at hc
    split at hc
    · cases hc
    · rcases List.mem_cons.mp hc with rfl | hc
      · exact ⟨List.suffix_rfl, by simp⟩
      · exact ⟨(ih c hc).1.trans (List.suffix_cons e p), (ih c hc).2⟩

theorem ascends_suffix {i p : BlockPtr} {l : List BlockPtr} (h : BlockPtr.Ascends i l p) :
    ∀ c ∈ l, c <:+ p ∧ c ≠ [] := by
  induction l generalizing i with
  | nil => exact fun _ hc => absurd hc List.not_mem_nil
  | cons d l ih =>
    intro c hc
    rcases List.mem_cons.mp hc with rfl | hc
    · exact ⟨h.2.2.suffix, h.1⟩
    · exact ih h.2.2 c hc

/-- Apart from their own transactions, the blocks conflict with none of the pool. -/
def Harmless (P : Params) (files : Files) (pool : TxMemPool) (l : List BlockPtr) : Prop :=
  ∀ u, pool.Contains P u → u ∉ blocksVtx files l →
    ∀ tx ∈ blocksVtx files l, ∀ o ∈ tx.spends, o ∉ u.prevouts

theorem clear_removeAll_iff {S : Set Transaction} (hS : HashFree P S) {pool : TxMemPool}
    (hpool : pool.WellFormed P S) {p i : BlockPtr} {l : List BlockPtr} (hp : p ∈ tree.entries)
    (hi : i ≠ []) (hasc : BlockPtr.Ascends i l p) (hsub : tree.txs ⊆ S)
    (hclear : pool.Clear P (chainVtx files i)) :
    (pool.removeAll P (blocksVtx files l)).Clear P (chainVtx files p) ↔
      Harmless P files pool l := by
  obtain ⟨_, hcontains⟩ := hpool.removeAll hS fun tx htx =>
    hsub (blocksVtx_mem hp (ascends_suffix hasc) htx)
  rw [chainVtx_ascends hp hi hasc, TxMemPool.clear_append]
  constructor
  · intro h u hu hout
    exact h.2 u ((hcontains u).mpr ⟨hu, hout⟩)
  · intro h
    refine ⟨hclear.mono fun u hu => ((hcontains u).mp hu).1, fun u hu => ?_⟩
    exact h u ((hcontains u).mp hu).1 ((hcontains u).mp hu).2

theorem removeAll_append (pool : TxMemPool) (txs txs' : List Transaction) :
    pool.removeAll P (txs ++ txs') = (pool.removeAll P txs).removeAll P txs' :=
  List.foldl_append

theorem mempool_foldl_removeFromPool (n : Node) (txs : List Transaction) :
    (txs.foldl (Node.removeFromPool P) n).mempool = n.mempool.removeAll P txs := by
  unfold TxMemPool.removeAll
  induction txs generalizing n with
  | nil => rfl
  | cons tx txs ih => exact ih (n.removeFromPool P tx)

theorem mempool_linkParent (n : Node) (pindex pnext : BlockPtr) :
    (n.linkParent pindex pnext).mempool = n.mempool := by
  unfold Node.linkParent
  split <;> rfl

theorem mempool_setBestChainInner {io : BlockIo} {b : Block} {pindexNew : BlockPtr} {n n' : Node}
    {u : Unit} (h : (setBestChainInner P io b pindexNew).run n = (some u, n')) :
    n'.mempool = n.mempool.removeAll P b.vtx := by
  obtain ⟨n₁, h₁, rfl⟩ := setBestChainInner_eq_some h
  rw [mempool_foldl_removeFromPool, mempool_linkParent]
  exact congrArg (fun pool => TxMemPool.removeAll P pool b.vtx) (connectBlock_memory h₁).mempool

theorem mempool_reconnect {io : Io} (hio : io.ReadsFrom tree) {c : BlockPtr} {n n' : Node}
    {u : Unit} (hc : c ∈ tree.entries) (h : (reconnect P io c).run n = (some u, n')) :
    n'.mempool = n.mempool.removeAll P (vtxOf files c) := by
  obtain ⟨e, p, rfl⟩ := List.exists_cons_of_ne_nil (BlockTree.ne_nil hc)
  unfold reconnect at h
  obtain ⟨b, n₁, h₁, h₂⟩ := Step.run_bind_eq_some.mp h
  obtain ⟨hread, rfl⟩ := Step.run_ofOption_eq_some.mp h₁
  obtain ⟨_, n₂, h₃, h₄⟩ := Step.run_bind_eq_some.mp h₂
  obtain ⟨_, rfl⟩ := Step.run_guard_eq_some.mp h₃
  rw [Step.run_bind_of_some (Step.run_modify _ _)] at h₄
  have hpool := mempool_setBestChainInner h₄
  rwa [vtxOf_cons (hio.readFromDisk hc hread)]

/-- When all postponed blocks can be reconnected, all their transactions are removed. -/
theorem mempool_forEachWhile_reconnect (hnew : tree.BringsNewTxids) {io : Io}
    (hio : io.ReadsFrom tree) {i p : BlockPtr} {l : List BlockPtr} {n : Node} (hi : i ≠ [])
    (hp : p ∈ tree.entries) (hasc : BlockPtr.Ascends i l p) (hn : Attached P files i n)
    (hall : ∀ c ∈ l, reconnects P files io n.nBestHeight c = true) :
    ((Step.forEachWhile (reconnect P io) l).run n).2.mempool =
      n.mempool.removeAll P (blocksVtx files l) := by
  induction l generalizing i n with
  | nil => rfl
  | cons c l ih =>
    obtain ⟨hc, rfl, hasc⟩ := hasc
    obtain ⟨e, q, rfl⟩ := List.exists_cons_of_ne_nil hc
    obtain ⟨d, q, rfl⟩ := List.exists_cons_of_ne_nil hi
    have he := tree.mem_of_suffix hp hasc.suffix hc
    have hsome := reconnect_isSome hio he hn
    rw [hall _ List.mem_cons_self] at hsome
    rw [Step.forEachWhile, Step.run_bind_of_some (Step.run_attempt _ _), hsome]
    rcases hrun : (reconnect P io (e :: d :: q)).run n with ⟨_ | u, n₁⟩
    · rw [hrun] at hsome
      cases hsome
    · obtain ⟨hn₁, hbest⟩ := reconnect_attached hnew hio he hn hrun
      have hall₁ : ∀ c ∈ l, reconnects P files io n₁.nBestHeight c = true := by
        intro c hc
        rw [hbest.nBestHeight]
        exact hall c (List.mem_cons_of_mem _ hc)
      have hpool := ih (by simp) hasc hn₁ hall₁
      rw [mempool_reconnect hio he hrun] at hpool
      rw [blocksVtx_cons, removeAll_append]
      exact hpool

theorem accept_unchecked (v v' : AcceptView) (pool : TxMemPool) (tx : Transaction) :
    v.accept P pool tx false = v'.accept P pool tx false := by
  simp only [AcceptView.accept, AcceptView.acceptFirst, Bool.false_and, Bool.false_eq_true, if_false]

theorem mempool_reorganizeMemory (vDisconnect vConnect : List BlockPtr)
    (vResurrect vDelete : List Transaction) (n : Node) :
    (reorganizeMemory P vDisconnect vConnect vResurrect vDelete n).mempool =
      n.mempool.reorganized P vResurrect vDelete := by
  have hlink : ∀ (f : BlockPtr → BlockPtr) (l : List BlockPtr) (n : Node),
      (l.foldl (fun n c => n.linkParent c (f c)) n).mempool = n.mempool := by
    intro f l
    induction l with
    | nil => exact fun _ => rfl
    | cons c l ih => exact fun n => (ih _).trans (mempool_linkParent n c (f c))
  have hresurrect : ∀ (v : AcceptView) (l : List Transaction) (n : Node),
      (l.foldl (Node.resurrect P) n).mempool =
        l.foldl (fun pool tx => (v.accept P pool tx false).2.2) n.mempool := by
    intro v l
    induction l with
    | nil => exact fun _ => rfl
    | cons tx l ih =>
      intro n
      rw [List.foldl_cons, List.foldl_cons, ih]
      unfold Node.resurrect
      dsimp only
      rw [accept_unchecked _ v]
  have hdelete : ∀ (l : List Transaction) (n : Node),
      (l.foldl (fun n tx => (Node.removeFromPool P n tx).removeConflictsFromPool P tx) n).mempool =
        l.foldl (fun pool tx => (pool.remove P tx false).removeConflicts P tx) n.mempool := by
    intro l
    induction l with
    | nil => exact fun _ => rfl
    | cons tx l ih => exact fun n => ih _
  unfold reorganizeMemory TxMemPool.reorganized
  dsimp only
  rw [hdelete, hresurrect, hlink (fun c => c), hlink fun _ => []]

/-- The pool that `Reorganize` leaves when it goes from one branch to another. -/
def switchedPool (P : Params) (files : Files) (pool : TxMemPool) (pindexBest pindexNew : BlockPtr) :
    TxMemPool :=
  match BlockPtr.findFork pindexNew pindexBest with
  | none => pool
  | some pfork => pool.reorganized P
    ((BlockPtr.downTo pfork pindexBest).map fun c => resurrectable (vtxOf files c)).flatten
    (blocksVtx files (BlockPtr.downTo pfork pindexNew).reverse)

theorem mempool_reorganize (hnew : tree.BringsNewTxids) {io : Io} (hio : io.ReadsFrom tree)
    {pindexNew : BlockPtr} {n n' : Node} {u : Unit} (hp : n.pindexBest ∈ tree.entries)
    (hp' : pindexNew ∈ tree.entries) (hn : OnBranch P files n.pindexBest n)
    (h : (reorganize P io pindexNew).run n = (some u, n')) :
    BlockPtr.findFork pindexNew n.pindexBest ≠ none ∧
      n'.mempool = switchedPool P files n.mempool n.pindexBest pindexNew := by
  unfold reorganize at h
  rw [Step.run_bind_of_some (Step.run_read _ _)] at h
  obtain ⟨q, n₁, h₁, h₂⟩ := Step.run_bind_eq_some.mp h
  obtain ⟨hfork, rfl⟩ := Step.run_ofOption_eq_some.mp h₁
  obtain ⟨⟨vResurrect, vDelete⟩, n₂, h₃, h₄⟩ := Step.run_bind_eq_some.mp h₂
  obtain rfl := congrArg Prod.snd h₄
  obtain ⟨hq', hq, hne⟩ := BlockPtr.findFork_eq_some hfork
  obtain ⟨_, hr⟩ := (onBranch_invariant hnew).reorganizeDb hio hp hp' hq hq' hne hn h₃
  refine ⟨by rw [hfork]; exact Option.some_ne_none q, ?_⟩
  change (reorganizeMemory P _ _ vResurrect.flatten vDelete.flatten n₂).mempool = _
  rw [mempool_reorganizeMemory, hr.memory.mempool, hr.vResurrect, hr.vDelete, switchedPool, hfork]
  rfl

theorem clear_switchedPool {S : Set Transaction} (hS : HashFree P S) {pool : TxMemPool}
    (hpool : pool.WellFormed P S) (hsub : tree.txs ⊆ S) {p p' q : BlockPtr} (hp : p ∈ tree.entries)
    (hp' : p' ∈ tree.entries) (hconn : ChainConnectable P files p)
    (hfork : BlockPtr.findFork p' p = some q) (hclear : pool.Clear P (chainVtx files p)) :
    (switchedPool P files pool p p').WellFormed P S ∧
      (switchedPool P files pool p p').Clear P (chainVtx files p') := by
  obtain ⟨hq', hq, hne⟩ := BlockPtr.findFork_eq_some hfork
  have hmem : ∀ tx ∈ ((BlockPtr.downTo q p).map fun c => resurrectable (vtxOf files c)).flatten,
      tx ∈ blocksVtx files (BlockPtr.downTo q p).reverse := by
    intro tx htx
    obtain ⟨vtx, hvtx, htx⟩ := List.mem_flatten.mp htx
    obtain ⟨c, hc, rfl⟩ := List.mem_map.mp hvtx
    exact List.mem_flatten.mpr ⟨vtxOf files c,
      List.mem_map_of_mem (List.mem_reverse.mpr hc), (List.mem_filter.mp htx).1⟩
  have hdown : ∀ {p : BlockPtr}, ∀ c ∈ (BlockPtr.downTo q p).reverse, c <:+ p ∧ c ≠ [] :=
    fun c hc => downTo_suffix c (List.mem_reverse.mp hc)
  have hpair : (chainVtx files p).Pairwise fun a b => ∀ o ∈ a.spends, o ∉ b.spends :=
    List.pairwise_map.mpr hconn.pairwise_spends
  rw [chainVtx_downTo hp hq hne] at hpair hclear
  obtain ⟨hw, hsubset, hnew⟩ := hpool.reorganized hS
    (fun tx htx => hsub (blocksVtx_mem hp hdown (hmem tx htx)))
    (fun tx htx => hsub (blocksVtx_mem hp' hdown htx))
  unfold switchedPool
  rw [hfork]
  refine ⟨hw, ?_⟩
  rw [chainVtx_downTo hp' hq' hne, TxMemPool.clear_append]
  refine ⟨fun u hu tx htx o ho => ?_, hnew⟩
  rcases hsubset u hu with hu | hu
  · exact (TxMemPool.clear_append.mp hclear).1 u hu tx htx o ho
  · -- a transaction of the old branch does not spend what the chain below it spends
    have hbase : u.isBeanBase = false := by
      obtain ⟨vtx, hvtx, hmem⟩ := List.mem_flatten.mp hu
      obtain ⟨c, hc, rfl⟩ := List.mem_map.mp hvtx
      have hfilter := (List.mem_filter.mp hmem).2
      rw [Bool.not_eq_true', Bool.or_eq_false_iff] at hfilter
      exact hfilter.1
    have hspends := (List.pairwise_append.mp hpair).2.2 tx htx u (hmem u hu) o ho
    rwa [Transaction.spends, hbase, if_neg Bool.false_ne_true] at hspends

/-- The pool that `SetBestChainInner` finds in a call of `SetBestChain`, and the blocks it
attaches then. -/
def innerWork (P : Params) (files : Files) (n : Node) (pindexNew : BlockPtr) :
    TxMemPool × List BlockPtr :=
  if n.pindexBest = [] then (n.mempool, [])
  else if BlockPtr.pprev pindexNew = n.pindexBest then (n.mempool, [pindexNew])
  else
    let r := BlockPtr.postpone (BlockPtr.nChainTrust n.pindexBest) pindexNew
    (switchedPool P files n.mempool n.pindexBest r.1, r.2)

theorem innerWork_of_pprev {n : Node} {pindexNew : BlockPtr} (hne : n.pindexBest ≠ [])
    (h : BlockPtr.pprev pindexNew = n.pindexBest) :
    innerWork P files n pindexNew = (n.mempool, [pindexNew]) := by
  rw [innerWork, if_neg hne, if_pos h]

/-- How a call of `SetBestChain` goes about it. -/
inductive InnerCase (tree : BlockTree P files) (n : Node) (e : BlockIndex) (p : BlockPtr) : Prop
  | genesis : n.pindexBest = [] → p = [] → InnerCase tree n e p
  | grows : n.pindexBest ∈ tree.entries → p = n.pindexBest → InnerCase tree n e p
  | switches {q} : n.pindexBest ∈ tree.entries → p ≠ n.pindexBest → BlockPtr.findFork
      (BlockPtr.postpone (BlockPtr.nChainTrust n.pindexBest) (e :: p)).1 n.pindexBest = some q →
      InnerCase tree n e p

/-- A call in which every postponed block can be reconnected ends with `SetBestChainInner`, or a
loop of it. -/
theorem mempool_setBestChain (hnew : tree.BringsNewTxids) {io : Io} (hio : io.ReadsFrom tree)
    {e : BlockIndex} {p : BlockPtr} {b : Block} {n n' : Node} (he : e :: p ∈ tree.entries)
    (hb : files.blockOf e = some b) (hn : Consistent tree n)
    (hall : ∀ c ∈ (BlockPtr.postpone (BlockPtr.nChainTrust n.pindexBest) (e :: p)).2,
      reconnects P files io n.nBestHeight c = true)
    (h : (setBestChain P io b (e :: p)).run n = (some (), n')) :
    n'.mempool = (innerWork P files n (e :: p)).1.removeAll P
        (blocksVtx files (innerWork P files n (e :: p)).2) ∧
      InnerCase tree n e p := by
  obtain ⟨n₂, h₃, rfl, _⟩ := setBestChain_eq_some hnew hio he hb hn h
  change n₂.mempool = _ ∧ _
  have hbegin := hn.attached.txnBegin
  rcases attach_cases he hb hn h₃ with ⟨hnil, rfl, hrun⟩ | ⟨hmem, hext, hrun⟩ | ⟨hmem, hne, hrun⟩
  · rw [innerWork, if_pos hnil]
    unfold setGenesis at hrun
    rw [Step.run_bind_of_some (Step.run_modify _ _)] at hrun
    obtain ⟨_, n₃, h₅, h₆⟩ := Step.run_bind_eq_some.mp hrun
    obtain ⟨_, rfl⟩ := txnCommit_eq_some h₅
    obtain rfl := congrArg Prod.snd h₆
    exact ⟨rfl, .genesis hnil rfl⟩
  · rw [innerWork_of_pprev (BlockTree.ne_nil hmem) (show BlockPtr.pprev (e :: p) = _ from hext)]
    have hinner := mempool_setBestChainInner hrun
    rw [← vtxOf_cons (p := p) hb] at hinner
    refine ⟨?_, .grows hmem hext⟩
    rw [hinner, blocksVtx_cons]
    exact congrArg _ (List.append_nil _).symm
  · rw [innerWork, if_neg (BlockTree.ne_nil hmem), if_neg (show BlockPtr.pprev (e :: p) ≠ _ from hne)]
    obtain ⟨hsuf, hi, hasc⟩ := BlockPtr.postpone_spec (BlockPtr.nChainTrust n.pindexBest) (e :: p)
    have hi := hi (by simp)
    have hmem' := tree.mem_of_suffix he hsuf hi
    unfold switchBranch at hrun
    obtain ⟨_, n₃, h₅, h₆⟩ := Step.run_bind_eq_some.mp hrun
    have h₇ := Step.run_onFail_eq_some.mp h₅
    obtain ⟨hfork, hpool₃⟩ := mempool_reorganize (n := n.txnBegin) hnew hio hmem hmem' hbegin h₇
    obtain ⟨hn₃, hbest⟩ := reorganize_attached (n := n.txnBegin) hnew hio hmem hmem' hbegin
      hn.attached.pnext h₇
    have hloop := mempool_forEachWhile_reconnect hnew hio hi he hasc hn₃ fun c hc => by
      rw [hbest.nBestHeight]
      exact hall c hc
    obtain rfl : _ = n₂ := congrArg Prod.snd h₆
    obtain ⟨q, hq⟩ := Option.ne_none_iff_exists'.mp hfork
    refine ⟨?_, .switches hmem hne hq⟩
    rw [hloop, hpool₃]
    rfl

/-- The pool that `SetBestChainInner` finds is clear of the branch below its blocks. -/
theorem innerWork_spec {S : Set Transaction} (hS : HashFree P S) (hsub : tree.txs ⊆ S)
    {e : BlockIndex} {p : BlockPtr} {n : Node} (he : e :: p ∈ tree.entries)
    (hn : Consistent tree n) (hpool : n.mempool.WellFormed P S)
    (hclear : n.mempool.Clear P (chainVtx files n.pindexBest)) (h : InnerCase tree n e p) :
    let w := innerWork P files n (e :: p)
    w.1.WellFormed P S ∧
      ∃ i, i ≠ [] ∧ BlockPtr.Ascends i w.2 (e :: p) ∧ w.1.Clear P (chainVtx files i) := by
  cases h with
  | genesis hnil hp =>
    subst hp
    rw [innerWork, if_pos hnil]
    exact ⟨hpool, [e], by simp, rfl, fun _ _ _ htx => absurd htx List.not_mem_nil⟩
  | grows hmem hext =>
    rw [innerWork_of_pprev (BlockTree.ne_nil hmem) (show BlockPtr.pprev (e :: p) = _ from hext)]
    exact ⟨hpool, p, hext ▸ BlockTree.ne_nil hmem, ⟨by simp, rfl, rfl⟩, hext ▸ hclear⟩
  | switches hmem hne hq =>
    rw [innerWork, if_neg (BlockTree.ne_nil hmem), if_neg (show BlockPtr.pprev (e :: p) ≠ _ from hne)]
    obtain ⟨hsuf, hi, hasc⟩ := BlockPtr.postpone_spec (BlockPtr.nChainTrust n.pindexBest) (e :: p)
    have hi := hi (by simp)
    obtain ⟨hw, hc⟩ := clear_switchedPool hS hpool hsub hmem (tree.mem_of_suffix he hsuf hi)
      hn.attached.onBranch.connectable hq hclear
    exact ⟨hw, _, hi, hasc, hc⟩

/-- After such a call the pool is clear of the new best chain exactly if the blocks that
`SetBestChainInner` attached are harmless. -/
theorem setBestChain_clear_iff {S : Set Transaction} (hS : HashFree P S) (hsub : tree.txs ⊆ S)
    {io : Io} (hio : io.ReadsFrom tree) {e : BlockIndex} {p : BlockPtr} {b : Block} {n n' : Node}
    (he : e :: p ∈ tree.entries) (hb : files.blockOf e = some b) (hn : Consistent tree n)
    (hpool : n.mempool.WellFormed P S) (hclear : n.mempool.Clear P (chainVtx files n.pindexBest))
    (hall : ∀ c ∈ (BlockPtr.postpone (BlockPtr.nChainTrust n.pindexBest) (e :: p)).2,
      reconnects P files io n.nBestHeight c = true)
    (h : (setBestChain P io b (e :: p)).run n = (some (), n')) :
    n'.mempool.WellFormed P S ∧ (n'.mempool.Clear P (chainVtx files (e :: p)) ↔
      Harmless P files (innerWork P files n (e :: p)).1 (innerWork P files n (e :: p)).2) := by
  have hnew : tree.BringsNewTxids := BlockTree.bringsNewTxids_of_injOn (hS.injOn.mono hsub)
  obtain ⟨heq, hcase⟩ := mempool_setBestChain hnew hio he hb hn hall h
  obtain ⟨hw, i, hi, hasc, hc⟩ := innerWork_spec hS hsub he hn hpool hclear hcase
  rw [heq]
  refine ⟨(hw.removeAll hS fun tx htx => ?_).1, clear_removeAll_iff hS hw he hi hasc hsub hc⟩
  exact hsub (blocksVtx_mem he (ascends_suffix hasc) htx)

end Beancash
