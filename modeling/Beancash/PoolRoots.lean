import Beancash.PoolRun
import Beancash.PoolSweep

namespace Beancash

open Fallible Ledger

namespace TxMemPool

variable {P : Params} {S : Set Transaction}

/-- Every input of the pool refers to an output that a transaction of the pool or of the index
has. -/
def Rooted (P : Params) (pool : TxMemPool) (ix : Index Uint256 TxPos) : Prop :=
  ∀ u, Contains P pool u → ∀ o ∈ u.prevouts,
    (∃ tx, Contains P pool tx ∧ o ∈ outpoints (P.txHash tx) tx) ∨ Known ix o.key

/-- The same of a set of transactions, for a chain that is given by its transactions. -/
def RootedOn (P : Params) (A : Transaction → Prop) (txs : List Transaction) : Prop :=
  ∀ u, A u → ∀ o ∈ u.prevouts, ∃ tx, (A tx ∨ tx ∈ txs) ∧ o ∈ outpoints (P.txHash tx) tx

/-- The transactions of a chain: what one of them spends is an output of another, and nothing is
spent twice. -/
structure Linked (P : Params) (txs : List Transaction) : Prop where
  sourced : ∀ tx ∈ txs, ∀ o ∈ tx.spends, ∃ tx' ∈ txs, o ∈ outpoints (P.txHash tx') tx'
  disjoint : txs.Pairwise fun a b => ∀ o ∈ a.spends, o ∉ b.spends

theorem Linked.mem_of_descends {txs : List Transaction} (h : Linked P txs) (hS : HashFree P S)
    (htxs : ∀ tx ∈ txs, tx ∈ S) {A : Transaction → Prop} (hA : ∀ u, A u → u ∈ S ∧ Sane u)
    {c u : Transaction} (hc : A c)
    (hdesc : Relation.ReflTransGen (fun u u' => A u' ∧ SpendsOutputOf P u u') c u) (hu : u ∈ txs) :
    c ∈ txs := by
  induction hdesc with
  | refl => exact hu
  | @tail b u hdesc hstep ih =>
    apply ih
    obtain ⟨hAu, o, ho, hhash, _⟩ := hstep
    have hAb : A b := by
      rcases hdesc.cases_tail with rfl | ⟨_, _, hstep⟩
      · exact hc
      · exact hstep.1
    obtain ⟨tx, htx, hout⟩ := h.sourced u hu o ((hA u hAu).2.spends ▸ ho)
    have hid : P.txHash tx = P.txHash b := (mem_outpoints.mp hout).1.symm.trans hhash
    exact hS.injOn (htxs tx htx) (hA b hAb).1 hid ▸ htx

theorem Offered.mem_and_sane {pool : TxMemPool} {vtxOld : List Transaction}
    (hpool : ∀ u, Contains P pool u → u ∈ S ∧ Sane u) (hold : ∀ tx ∈ vtxOld, tx ∈ S)
    {u : Transaction} (h : Offered P pool vtxOld u) : u ∈ S ∧ Sane u := by
  rcases h with h | ⟨hmem, hadm⟩
  · exact hpool u h
  · exact ⟨hold u hmem, sane_of_acceptFirst hadm⟩

section Switch

variable {pool : TxMemPool} {base old new : List Transaction}

theorem apart_offered (hS : HashFree P S) (hpool : ∀ u, Contains P pool u → u ∈ S ∧ Sane u)
    (hold : ∀ tx ∈ old, tx ∈ S) (hnew : ∀ tx ∈ base ++ new, tx ∈ S)
    (hlinked : Linked P (base ++ new)) : Apart P (Offered P pool old) new := by
  refine ⟨fun tx htx hoff tx' htx' hne o ho' ho => ?_, ?_⟩
  · have hsane := (hoff.mem_and_sane hpool hold).2
    exact hne (eq_of_pairwise_disjoint hlinked.disjoint (List.mem_append_right _ htx)
      (List.mem_append_right _ htx') (hsane.spends.symm ▸ ho) (hsane.mem_spends ho ho'))
  · rintro tx htx ⟨c, hc, ⟨hout, t, ht, o, ho, hoc⟩, hdesc⟩
    have hsane := (hc.mem_and_sane hpool hold).2
    have hmem : c ∈ base ++ new := hlinked.mem_of_descends hS hnew
      (fun u hu => hu.mem_and_sane hpool hold) hc hdesc (List.mem_append_right _ htx)
    obtain rfl := eq_of_pairwise_disjoint hlinked.disjoint hmem (List.mem_append_right _ ht)
      (hsane.spends.symm ▸ hoc) (hsane.mem_spends hoc ho)
    exact hout ht

/-- No transaction that is left in the pool spends an output of one that leaves the chain without
coming back to the pool. -/
def NoneStrandedOn (P : Params) (pool : TxMemPool) (old new chain chain' : List Transaction) :
    Prop :=
  ∀ u, Offered P pool old u → ¬Swept P (Offered P pool old) new u →
    ∀ d ∈ chain, d ∉ chain' → ¬Offered P pool old d → ¬SpendsOutputOf P d u

/-- A pool from which a reorganisation takes what it sweeps and what is in the new chain. -/
theorem rootedOn_switch_iff (hS : HashFree P S)
    (hpool : ∀ u, Contains P pool u → u ∈ S ∧ Sane u)
    {chain' : List Transaction} (hold : ∀ tx ∈ base ++ old, tx ∈ S)
    (hchain' : ∀ tx ∈ chain', tx ∈ S) (hlinked : Linked P (base ++ old)) (hlinked' : Linked P chain')
    (hroot : RootedOn P (Contains P pool) (base ++ old)) {A : Transaction → Prop}
    (hA : ∀ u, A u → Offered P pool old u ∧ ¬Swept P (Offered P pool old) new u)
    (hA' : ∀ u, Offered P pool old u → ¬Swept P (Offered P pool old) new u → u ∉ chain' → A u) :
    RootedOn P A chain' ↔ NoneStrandedOn P pool old new (base ++ old) chain' := by
  have hold' : ∀ tx ∈ old, tx ∈ S := fun tx htx => hold tx (List.mem_append_right _ htx)
  constructor
  · rintro h u hu hns d hd hd' hdoff ⟨o, ho, hhash, hlt⟩
    -- an output of `d` is an output of no other transaction
    have hid : ∀ tx ∈ S, o ∈ outpoints (P.txHash tx) tx → tx = d := fun tx htx hout =>
      hS.injOn htx (hold d hd) ((mem_outpoints.mp hout).1.symm.trans hhash)
    have hu' : u ∉ chain' := by
      intro hmem
      obtain ⟨tx, htx, hout⟩ := hlinked'.sourced u hmem o
        ((hu.mem_and_sane hpool hold').2.spends ▸ ho)
      exact hd' (hid tx (hchain' tx htx) hout ▸ htx)
    obtain ⟨tx, htx | htx, hout⟩ := h u (hA' u hu hns hu') o ho
    · have hoff := (hA tx htx).1
      exact hdoff (hid tx (hoff.mem_and_sane hpool hold').1 hout ▸ hoff)
    · exact hd' (hid tx (hchain' tx htx) hout ▸ htx)
  · intro h u hu o ho
    obtain ⟨hoff, hns⟩ := hA u hu
    obtain ⟨tx, htx, hout⟩ : ∃ tx, (Contains P pool tx ∨ tx ∈ base ++ old) ∧
        o ∈ outpoints (P.txHash tx) tx := by
      rcases hoff with hc | ⟨hmem, hadm⟩
      · exact hroot u hc o ho
      · obtain ⟨tx, htx, hout⟩ := hlinked.sourced u (List.mem_append_right _ hmem) o
          ((sane_of_acceptFirst hadm).spends ▸ ho)
        exact ⟨tx, Or.inr htx, hout⟩
    have hspends : SpendsOutputOf P tx u :=
      ⟨o, ho, (mem_outpoints.mp hout).1, (mem_outpoints.mp hout).2⟩
    refine ⟨tx, ?_, hout⟩
    by_cases hchain : tx ∈ chain'
    · exact Or.inr hchain
    by_cases hofft : Offered P pool old tx
    · refine Or.inl (hA' tx hofft ?_ hchain)
      -- what sweeps `tx` sweeps `u` too
      rintro ⟨c, hc, hconf, hdesc⟩
      exact hns ⟨c, hc, hconf, hdesc.tail ⟨hoff, hspends⟩⟩
    · rcases htx with htx | htx
      · exact absurd (Or.inl htx) hofft
      · exact absurd hspends (h u hoff hns tx htx hchain hofft)

end Switch

theorem RootedOn.extend {pool : TxMemPool} {chain chain' : List Transaction}
    (h : RootedOn P (Contains P pool) chain) (hsub : chain ⊆ chain') {A : Transaction → Prop}
    (hA : ∀ u, A u → Contains P pool u) (hA' : ∀ u, Contains P pool u → u ∉ chain' → A u) :
    RootedOn P A chain' := by
  intro u hu o ho
  obtain ⟨tx, htx, hout⟩ := h u (hA u hu) o ho
  by_cases hchain : tx ∈ chain'
  · exact ⟨tx, Or.inr hchain, hout⟩
  · rcases htx with htx | htx
    · exact ⟨tx, Or.inl (hA' tx htx hchain), hout⟩
    · exact absurd (hsub htx) hchain

theorem fetchInputs_pool {v : InputView} {tx : Transaction} {inputs : MapPrevTx}
    (hbase : tx.isBeanBase = false) (h : v.fetchInputs ∅ false false tx = .ok inputs) :
    ∀ o ∈ tx.prevouts, (∃ txPrev, v.lookup o.hash = some txPrev ∧ o.n.toNat < txPrev.vout.length) ∨
      Known v.readTxIndex o.key := by
  intro o ho
  have hrange : prevoutInRange inputs o = true := by
    unfold InputView.fetchInputs at h
    rw [hbase, if_neg Bool.false_ne_true] at h
    split at h
    · cases h
    · split_ifs at h with hall
      cases h
      exact List.all_eq_true.mp hall o ho
  obtain ⟨⟨r, txPrev⟩, hl, hlt⟩ := (Option.any_eq_true _ _).mp hrange
  rw [decide_eq_true_eq] at hlt
  rcases fetchPrev_pool (fetchInputs_lookup h hl) with ⟨_, htx⟩ | hix
  · exact Or.inl ⟨txPrev, htx, hlt.1⟩
  · exact Or.inr ⟨r, hix, hlt.2⟩

/-- A transaction that is accepted with a look at the pool and the index spends what exists. -/
theorem Rooted.accept {v : AcceptView} {pool : TxMemPool} (hinv : Invariant P pool)
    (h : Rooted P pool v.inputs.readTxIndex) (hlookup : v.inputs.lookup = pool.lookup)
    (tx : Transaction) : Rooted P (v.accept P pool tx true).2.2 v.inputs.readTxIndex := by
  rcases v.accept_cases P pool tx true with heq | ⟨heq, hfirst, hin⟩ <;> rw [heq]
  · exact h
  have hnew : pool.lookup (P.txHash tx) = none := by
    simp only [AcceptView.acceptFirst, Bool.and_eq_true, Option.isNone_iff_eq_none] at hfirst
    exact hfirst.1.1.2
  have hmono : ∀ {u}, Contains P pool u → Contains P (pool.addUnchecked (P.txHash tx) tx) u := by
    intro u hu
    refine (AList.lookup_insert_ne fun he => ?_).trans hu
    rw [Contains, he, show pool.mapTx.lookup (P.txHash tx) = none from hnew] at hu
    cases hu
  obtain ⟨inputs, hfetch⟩ : ∃ inputs, v.inputs.fetchInputs ∅ false false tx = .ok inputs := by
    have hok := hin rfl
    unfold AcceptView.acceptInputs at hok
    split at hok
    · cases hok
    · rename_i inputs hfetch
      exact ⟨inputs, hfetch⟩
  have hknown := fetchInputs_pool (sane_of_acceptFirst hfirst).noBase hfetch
  intro u hu o ho
  rcases contains_addUnchecked hu with hu | rfl
  · refine (h u hu o ho).imp_left ?_
    rintro ⟨tx', htx', hout⟩
    exact ⟨tx', hmono htx', hout⟩
  · refine (hknown o ho).imp_left ?_
    rintro ⟨txPrev, hl, hlt⟩
    rw [hlookup] at hl
    have hid : P.txHash txPrev = o.hash := hinv.hash hl
    exact ⟨txPrev, hmono (hinv.contains hl), mem_outpoints.mpr ⟨hid.symm, hlt⟩⟩

end TxMemPool

variable {P : Params} {files : Files} {tree : BlockTree P files}

theorem ChainConnectable.linked {p : BlockPtr} (h : ChainConnectable P files p) :
    TxMemPool.Linked P (chainVtx files p) := by
  refine ⟨fun tx htx o ho => ?_, List.pairwise_map.mpr h.pairwise_spends⟩
  obtain ⟨ltx, hltx, rfl⟩ := List.mem_map.mp htx
  obtain ⟨r, hr, hn⟩ := h.describes.spender _ (List.mem_map_of_mem hltx) o.key
    (mem_ledgerTx_ins.mpr ho)
  obtain ⟨tx', htx', hid, hlt⟩ := h.describes.known_iff.mp
    ⟨r, hr, (List.getElem?_eq_some_iff.mp hn).1⟩
  obtain ⟨ltx', hltx', rfl⟩ := List.mem_map.mp htx'
  exact ⟨ltx'.2, List.mem_map_of_mem hltx', TxMemPool.mem_outpoints.mpr ⟨hid.symm, hlt⟩⟩

theorem ChainConnectable.known_iff {p : BlockPtr} (h : ChainConnectable P files p) {o : OutPoint} :
    Known (chainIndex P files p) o.key ↔
      ∃ tx ∈ chainVtx files p, o ∈ TxMemPool.outpoints (P.txHash tx) tx := by
  refine h.describes.known_iff.trans ⟨?_, ?_⟩
  · rintro ⟨tx, htx, hid, hlt⟩
    obtain ⟨ltx, hltx, rfl⟩ := List.mem_map.mp htx
    exact ⟨ltx.2, List.mem_map_of_mem hltx, TxMemPool.mem_outpoints.mpr ⟨hid.symm, hlt⟩⟩
  · rintro ⟨tx, htx, hout⟩
    obtain ⟨ltx, hltx, rfl⟩ := List.mem_map.mp htx
    have hmem := TxMemPool.mem_outpoints.mp hout
    exact ⟨_, List.mem_map_of_mem hltx, hmem.1.symm, hmem.2⟩

theorem rooted_iff_rootedOn {n : Node} (hn : Consistent tree n) :
    n.mempool.Rooted P (readTxIndex n.txdb) ↔
      TxMemPool.RootedOn P (n.mempool.Contains P) (chainVtx files n.pindexBest) := by
  refine forall₂_congr fun u hu => forall₂_congr fun o ho => ?_
  rw [hn.attached.onBranch.index, hn.attached.onBranch.connectable.known_iff]
  constructor
  · rintro (⟨tx, htx, hout⟩ | ⟨tx, htx, hout⟩)
    · exact ⟨tx, Or.inl htx, hout⟩
    · exact ⟨tx, Or.inr htx, hout⟩
  · rintro ⟨tx, htx | htx, hout⟩
    · exact Or.inl ⟨tx, htx, hout⟩
    · exact Or.inr ⟨tx, htx, hout⟩

/-- The transactions above the fork on the old branch, in the order of the chain. -/
def disconnectedVtx (files : Files) (pindexBest pindexNew : BlockPtr) : List Transaction :=
  (BlockPtr.findFork pindexNew pindexBest).elim [] fun pfork =>
    blocksVtx files (BlockPtr.downTo pfork pindexBest).reverse

/-- The transactions above the fork on the new branch. -/
def connectedVtx (files : Files) (pindexBest pindexNew : BlockPtr) : List Transaction :=
  (BlockPtr.findFork pindexNew pindexBest).elim [] fun pfork =>
    blocksVtx files (BlockPtr.downTo pfork pindexNew).reverse

/-- Of the transactions that leave the chain when `SetBestChain` makes `pindexNew` the best block,
and do not come back to the pool, nothing is spent by what stays in the pool: that is by what
was there or is put back, and neither conflicts with the branch that `Reorganize` connects nor
descends from such a conflict. -/
def NoneStranded (P : Params) (files : Files) (pool : TxMemPool) (pindexBest pindexNew : BlockPtr) :
    Prop :=
  let pindexIntermediate := (BlockPtr.postpone (BlockPtr.nChainTrust pindexBest) pindexNew).1
  pool.NoneStrandedOn P (disconnectedVtx files pindexBest pindexIntermediate)
    (connectedVtx files pindexBest pindexIntermediate) (chainVtx files pindexBest)
    (chainVtx files pindexNew)

theorem noneStranded_of_subset {pool : TxMemPool} {p p' : BlockPtr}
    (h : chainVtx files p ⊆ chainVtx files p') : NoneStranded P files pool p p' :=
  fun _ _ _ _ hd hd' => absurd (h hd) hd'

/-- The filter of what `Reorganize` puts back leaves out only what `accept` refuses anyway. -/
theorem offered_resurrectable (pool : TxMemPool) (l : List BlockPtr) :
    pool.Offered P (l.map fun c => resurrectable (vtxOf files c)).flatten =
      pool.Offered P (blocksVtx files l.reverse) := by
  funext u
  refine propext (or_congr_right (and_congr_left fun hadm => ?_))
  simp only [TxMemPool.admits, AcceptView.acceptFirst, Bool.and_eq_true, Bool.not_eq_true'] at hadm
  simp [blocksVtx, resurrectable, hadm.1.1.1.1.1.1.2, hadm.1.1.1.1.1.2]

theorem chainVtx_subset {p : BlockPtr} (hp : p ∈ tree.entries) {tx : Transaction}
    (h : tx ∈ chainVtx files p) : tx ∈ tree.txs := by
  obtain ⟨ltx, hltx, rfl⟩ := List.mem_map.mp h
  exact BlockTree.mem_txs_of_mem_chainTxs hp hltx

theorem contains_switchedPool {S : Set Transaction} (hS : HashFree P S) (hsub : tree.txs ⊆ S)
    {pool : TxMemPool} (hpool : pool.WellFormed P S)
    (hsane : ∀ u, pool.Contains P u → TxMemPool.Sane u)
    {p p' q : BlockPtr} (hp : p ∈ tree.entries) (hp' : p' ∈ tree.entries)
    (hconn : ChainConnectable P files p) (hconn' : ChainConnectable P files p')
    (hfork : BlockPtr.findFork p' p = some q) :
    (switchedPool P files pool p p').WellFormed P S ∧ ∀ u,
      ((switchedPool P files pool p p').Contains P u ↔
        pool.Offered P (disconnectedVtx files p p') u ∧ u ∉ connectedVtx files p p' ∧
          ¬TxMemPool.Swept P (pool.Offered P (disconnectedVtx files p p'))
            (connectedVtx files p p') u) := by
  obtain ⟨hq', hq, hne⟩ := BlockPtr.findFork_eq_some hfork
  have hlinked := hconn.linked
  have hlinked' := hconn'.linked
  have hmem : ∀ tx ∈ chainVtx files p, tx ∈ S := fun tx htx => hsub (chainVtx_subset hp htx)
  have hmem' : ∀ tx ∈ chainVtx files p', tx ∈ S := fun tx htx => hsub (chainVtx_subset hp' htx)
  rw [chainVtx_downTo hp hq hne] at hlinked hmem
  rw [chainVtx_downTo hp' hq' hne] at hlinked' hmem'
  have hold : ∀ tx ∈ ((BlockPtr.downTo q p).map fun c => resurrectable (vtxOf files c)).flatten,
      tx ∈ blocksVtx files (BlockPtr.downTo q p).reverse ∧ tx.isBeanBase = false := by
    intro tx htx
    obtain ⟨vtx, hvtx, htx⟩ := List.mem_flatten.mp htx
    obtain ⟨c, hc, rfl⟩ := List.mem_map.mp hvtx
    obtain ⟨htx, hkind⟩ := List.mem_filter.mp htx
    rw [Bool.not_eq_true', Bool.or_eq_false_iff] at hkind
    exact ⟨List.mem_flatten.mpr ⟨vtxOf files c, List.mem_map_of_mem (List.mem_reverse.mpr hc), htx⟩,
      hkind.1⟩
  have hsep : TxMemPool.Separate P
      ((BlockPtr.downTo q p).map fun c => resurrectable (vtxOf files c)).flatten := by
    intro a ha b hb hab
    have ha' := List.mem_append_right (chainVtx files q) (hold a ha).1
    have hb' := List.mem_append_right (chainVtx files q) (hold b hb).1
    refine ⟨fun heq => hab (hS.injOn (hmem a ha') (hmem b hb') heq), fun o hoa hob => hab ?_⟩
    refine eq_of_pairwise_disjoint hlinked.disjoint ha' hb' (o := o) ?_ ?_
    · rwa [Transaction.spends, (hold a ha).2, if_neg Bool.false_ne_true]
    · rwa [Transaction.spends, (hold b hb).2, if_neg Bool.false_ne_true]
  have hapart := TxMemPool.apart_offered hS (fun u hu => ⟨hpool.within u hu, hsane u hu⟩)
    (fun tx htx => hmem tx (List.mem_append_right _ htx)) hmem' hlinked'
  rw [← offered_resurrectable] at hapart
  rw [switchedPool, disconnectedVtx, connectedVtx, hfork, Option.elim_some, Option.elim_some,
    ← offered_resurrectable]
  have hr := fun tx htx => hmem tx (List.mem_append_right _ (hold tx htx).1)
  have hd := fun tx htx => hmem' tx (List.mem_append_right _ htx)
  exact ⟨(hpool.reorganized hS hr hd).1, hpool.contains_reorganized hS hr hd hsep hapart⟩

/-- A node of which the transactions of the pool have been accepted, and spend what exists. -/
structure RootState (tree : BlockTree P files) (S : Set Transaction) (n : Node) : Prop where
  consistent : Consistent tree n
  wellFormed : n.mempool.WellFormed P S
  sane : ∀ u, n.mempool.Contains P u → TxMemPool.Sane u
  rooted : TxMemPool.RootedOn P (n.mempool.Contains P) (chainVtx files n.pindexBest)

/-- After a call in which every postponed block can be reconnected the pool spends what exists
exactly if nothing has been stranded. -/
theorem setBestChain_rootedOn_iff {S : Set Transaction} (hS : HashFree P S) (hsub : tree.txs ⊆ S)
    {io : Io} (hio : io.ReadsFrom tree) {e : BlockIndex} {p : BlockPtr} {b : Block} {n n' : Node}
    (he : e :: p ∈ tree.entries) (hb : files.blockOf e = some b) (hn : RootState tree S n)
    (hconn : ChainConnectable P files (e :: p))
    (hall : ∀ c ∈ (BlockPtr.postpone (BlockPtr.nChainTrust n.pindexBest) (e :: p)).2,
      reconnects P files io n.nBestHeight c = true)
    (h : (setBestChain P io b (e :: p)).run n = (some (), n')) :
    n'.mempool.WellFormed P S ∧ (∀ u, n'.mempool.Contains P u → TxMemPool.Sane u) ∧
      (TxMemPool.RootedOn P (n'.mempool.Contains P) (chainVtx files (e :: p)) ↔
        NoneStranded P files n.mempool n.pindexBest (e :: p)) := by
  have hnew : tree.BringsNewTxids := BlockTree.bringsNewTxids_of_injOn (hS.injOn.mono hsub)
  obtain ⟨hpool, hcase⟩ := mempool_setBestChain hnew hio he hb hn.consistent hall h
  cases hcase with
  | genesis hnil hp =>
    subst hp
    rw [innerWork, if_pos hnil] at hpool
    change n'.mempool = n.mempool at hpool
    have hroot := hn.rooted
    rw [hnil] at hroot
    rw [hpool, hnil]
    exact ⟨hn.wellFormed, hn.sane, fun _ => noneStranded_of_subset fun _ htx => htx,
      fun _ => hroot⟩
  | grows hmem hext =>
    rw [innerWork_of_pprev (BlockTree.ne_nil hmem) (show BlockPtr.pprev (e :: p) = _ from hext)]
      at hpool
    obtain ⟨d, q, rfl⟩ := List.exists_cons_of_ne_nil (hext ▸ BlockTree.ne_nil hmem)
    have hchain := chainVtx_cons he
    have hsubset : chainVtx files n.pindexBest ⊆ chainVtx files (e :: d :: q) := by
      rw [hchain, hext]
      exact List.subset_append_left _ _
    have hblocks : blocksVtx files [e :: d :: q] = vtxOf files (e :: d :: q) := by
      rw [blocksVtx_cons]
      exact List.append_nil _
    rw [hblocks] at hpool
    have hblock : ∀ tx ∈ vtxOf files (e :: d :: q), tx ∈ S := fun tx htx =>
      hsub (chainVtx_subset he (hchain ▸ List.mem_append_right _ htx))
    obtain ⟨hw, hcontains⟩ := hn.wellFormed.removeAll hS hblock
    rw [hpool]
    refine ⟨hw, fun u hu => hn.sane u ((hcontains u).mp hu).1,
      fun _ => noneStranded_of_subset hsubset, fun _ => ?_⟩
    refine hn.rooted.extend hsubset (fun u hu => ((hcontains u).mp hu).1) fun u hu hout => ?_
    exact (hcontains u).mpr ⟨hu, fun hmem => hout (hchain ▸ List.mem_append_right _ hmem)⟩
  | @switches q hmem hne hq =>
    rw [innerWork, if_neg (BlockTree.ne_nil hmem),
      if_neg (show BlockPtr.pprev (e :: p) ≠ _ from hne)] at hpool
    dsimp only at hpool
    obtain ⟨hsuf, hi, hasc⟩ := BlockPtr.postpone_spec (BlockPtr.nChainTrust n.pindexBest) (e :: p)
    have hi := hi (by simp)
    have hmem' := tree.mem_of_suffix he hsuf hi
    unfold NoneStranded
    generalize BlockPtr.postpone (BlockPtr.nChainTrust n.pindexBest) (e :: p) = r at *
    have hold := hn.consistent.attached.onBranch.connectable
    obtain ⟨hw, hswitched⟩ := contains_switchedPool hS hsub hn.wellFormed hn.sane hmem hmem' hold
      (hconn.of_suffix hsuf) hq
    obtain ⟨hw', hcontains⟩ := hw.removeAll hS fun tx htx =>
      hsub (blocksVtx_mem he (ascends_suffix hasc) htx)
    obtain ⟨hq', hqbest, hqne⟩ := BlockPtr.findFork_eq_some hq
    have hbest : chainVtx files n.pindexBest =
        chainVtx files q ++ disconnectedVtx files n.pindexBest r.1 := by
      rw [chainVtx_downTo hmem hqbest hqne, disconnectedVtx, hq, Option.elim_some]
    have hnewer : chainVtx files (e :: p) = (chainVtx files q ++
        connectedVtx files n.pindexBest r.1) ++ blocksVtx files r.2 := by
      rw [chainVtx_ascends he hi hasc, chainVtx_downTo hmem' hq' hqne, connectedVtx, hq,
        Option.elim_some]
    have hsane : ∀ u, n.mempool.Contains P u → u ∈ S ∧ TxMemPool.Sane u := fun u hu =>
      ⟨hn.wellFormed.within u hu, hn.sane u hu⟩
    have holdS : ∀ tx ∈ chainVtx files n.pindexBest, tx ∈ S := fun tx htx =>
      hsub (chainVtx_subset hmem htx)
    have hlinked := hold.linked
    have hroot := hn.rooted
    rw [hbest] at holdS hlinked hroot ⊢
    have hstays : ∀ u, n'.mempool.Contains P u →
        n.mempool.Offered P (disconnectedVtx files n.pindexBest r.1) u ∧
          ¬TxMemPool.Swept P (n.mempool.Offered P (disconnectedVtx files n.pindexBest r.1))
            (connectedVtx files n.pindexBest r.1) u := by
      intro u hu
      rw [hpool, hcontains, hswitched] at hu
      exact ⟨hu.1.1, hu.1.2.2⟩
    refine ⟨hpool ▸ hw', fun u hu => ((hstays u hu).1.mem_and_sane hsane fun tx htx =>
      holdS tx (List.mem_append_right _ htx)).2, ?_⟩
    refine TxMemPool.rootedOn_switch_iff hS hsane holdS
      (fun tx htx => hsub (chainVtx_subset he htx)) hlinked hconn.linked hroot hstays ?_
    intro u hoff hns hout
    rw [hnewer, List.mem_append, List.mem_append, not_or, not_or] at hout
    rw [hpool, hcontains, hswitched]
    exact ⟨⟨hoff, hout.1.2, hns⟩, hout.2⟩

/-- `v` is the node as it is. -/
structure AcceptView.Reads (v : AcceptView) (n : Node) : Prop where
  readTxIndex : v.inputs.readTxIndex = Beancash.readTxIndex n.txdb
  lookup : v.inputs.lookup = n.mempool.lookup

/-- `AcceptRun tree S n`: a run of acceptances and of calls of `SetBestChain` has led to the node
`n` in which every postponed block was attached and none of the calls has stranded anything. -/
inductive AcceptRun (tree : BlockTree P files) (S : Set Transaction) : Node → Prop
  | start {n} : Consistent tree n → n.mempool = .empty → AcceptRun tree S n
  | accept {v : AcceptView} {tx n} : AcceptRun tree S n → tx ∈ S → v.Reads n →
      AcceptRun tree S { n with mempool := (v.accept P n.mempool tx true).2.2 }
  | setBestChain {io e p b n n'} : AcceptRun tree S n → io.ReadsFrom tree → e :: p ∈ tree.entries →
      files.blockOf e = some b → (setBestChain P io b (e :: p)).run n = (some (), n') →
      (∀ c ∈ (BlockPtr.postpone (BlockPtr.nChainTrust n.pindexBest) (e :: p)).2,
        reconnects P files io n.nBestHeight c = true) →
      NoneStranded P files n.mempool n.pindexBest (e :: p) → AcceptRun tree S n'
  | failed {io b pindexNew n n'} : AcceptRun tree S n →
      (setBestChain P io b pindexNew).run n = (none, n') → AcceptRun tree S n'
  /-- anything else that concerns neither the chain nor the pool -/
  | other {n n'} : AcceptRun tree S n → SameMemory n n' → n'.txdb.activeBatch = none →
      readTxIndex n'.txdb = readTxIndex n.txdb →
      n'.txdb.pdb .hashBestChain = n.txdb.pdb .hashBestChain → AcceptRun tree S n'

section

variable {S : Set Transaction}

theorem AcceptRun.rootState (hS : HashFree P S) (hsub : tree.txs ⊆ S) {n : Node}
    (h : AcceptRun tree S n) : RootState tree S n := by
  have hnew : tree.BringsNewTxids := BlockTree.bringsNewTxids_of_injOn (hS.injOn.mono hsub)
  have hsame : ∀ {n n' : Node}, RootState tree S n → Consistent tree n' → SameMemory n n' →
      RootState tree S n' := by
    intro n n' h hn' hmem
    refine ⟨hn', hmem.mempool ▸ h.wellFormed, hmem.mempool ▸ h.sane, ?_⟩
    rw [hmem.mempool, hmem.pindexBest]
    exact h.rooted
  induction h with
  | @start n hn hempty =>
    have hnone : ∀ u, ¬n.mempool.Contains P u := fun u hu => by
      rw [hempty] at hu
      simp [TxMemPool.Contains, TxMemPool.empty] at hu
    exact ⟨hn, hempty ▸ TxMemPool.wellFormed_empty P S, fun u hu => absurd hu (hnone u),
      fun u hu => absurd hu (hnone u)⟩
  | @accept v tx n _ htx hv ih =>
    have hn := ih.consistent
    have hn' : Consistent tree { n with mempool := (v.accept P n.mempool tx true).2.2 } :=
      ⟨hn.best, hn.hashBestChain, hn.pindexGenesisBlock, ⟨⟨hn.attached.onBranch.connectable,
        hn.attached.onBranch.index⟩, hn.attached.activeBatch, hn.attached.bestKey,
        hn.attached.pnext⟩⟩
    refine ⟨hn', ih.wellFormed.accept htx v true, fun u hu => ?_, ?_⟩
    · rcases v.accept_cases P n.mempool tx true with heq | ⟨heq, hfirst, _⟩ <;> rw [heq] at hu
      · exact ih.sane u hu
      · rcases TxMemPool.contains_addUnchecked hu with hu | rfl
        · exact ih.sane u hu
        · exact TxMemPool.sane_of_acceptFirst hfirst
    · have hroot := (rooted_iff_rootedOn hn).mpr ih.rooted
      rw [← hv.readTxIndex] at hroot
      have hroot' := hroot.accept ih.wellFormed.invariant hv.lookup tx
      rw [hv.readTxIndex] at hroot'
      exact (rooted_iff_rootedOn hn').mp hroot'
  | setBestChain _ hio he hb hrun hall hnone ih =>
    have hn' := ih.consistent.of_setBestChain hnew hio he hb hrun (List.all_eq_true.mpr hall)
    have hbest := pindexBest_setBestChain hrun
    obtain ⟨hw, hsane, hiff⟩ := setBestChain_rootedOn_iff hS hsub hio he hb ih
      (hbest ▸ hn'.attached.onBranch.connectable) hall hrun
    exact ⟨hn', hw, hsane, hbest.symm ▸ hiff.mpr hnone⟩
  | @failed io b pindexNew n n' _ hrun ih =>
    refine hsame ih (ih.consistent.of_failed hrun) ?_
    rcases discarded_setBestChain hrun with rfl | hd
    · exact .rfl
    · exact (sameMemory_txnBegin n).trans hd.memory
  | other _ hmem hbatch hindex hkey ih =>
    exact hsame ih (ih.consistent.of_sameMemory hmem hbatch hindex hkey) hmem

/-- In every state that a run reaches, every input of every transaction of the pool refers to an
existing output of a transaction in the pool or in the index, and after the next call of
`SetBestChain` this is so exactly if it has stranded nothing. -/
theorem memPool_rooted (hS : HashFree P S) (hsub : tree.txs ⊆ S) {n : Node}
    (h : AcceptRun tree S n) :
    n.mempool.Rooted P (readTxIndex n.txdb) ∧
    ∀ {io : Io} {e : BlockIndex} {p : BlockPtr} {b : Block} {n' : Node}, io.ReadsFrom tree →
      e :: p ∈ tree.entries → files.blockOf e = some b →
      (setBestChain P io b (e :: p)).run n = (some (), n') →
      (∀ c ∈ (BlockPtr.postpone (BlockPtr.nChainTrust n.pindexBest) (e :: p)).2,
        reconnects P files io n.nBestHeight c = true) →
      (n'.mempool.Rooted P (readTxIndex n'.txdb) ↔
        NoneStranded P files n.mempool n.pindexBest (e :: p)) := by
  have hn := h.rootState hS hsub
  have hnew : tree.BringsNewTxids := BlockTree.bringsNewTxids_of_injOn (hS.injOn.mono hsub)
  refine ⟨(rooted_iff_rootedOn hn.consistent).mpr hn.rooted, fun hio he hb hrun hall => ?_⟩
  have hn' := hn.consistent.of_setBestChain hnew hio he hb hrun (List.all_eq_true.mpr hall)
  have hbest := pindexBest_setBestChain hrun
  obtain ⟨_, _, hiff⟩ := setBestChain_rootedOn_iff hS hsub hio he hb hn
    (hbest ▸ hn'.attached.onBranch.connectable) hall hrun
  rw [rooted_iff_rootedOn hn', hbest]
  exact hiff

end

namespace Sample

/-- The blocks of another branch on top of the genesis block. -/
def sideBlock (nHeight : ℕ) : Block :=
  if nHeight = 0 then genesis
  else block (50 + .ofNat nHeight) (if nHeight = 1 then 1 else .ofNat 256 (50 + nHeight))
    [beanbase (50 + .ofNat nHeight) nHeight [out 1000]]

def sidePtr : ℕ → BlockPtr
  | 0 => [entry (sideBlock 0)]
  | nHeight + 1 => entry (sideBlock (nHeight + 1)) :: sidePtr nHeight

def sideBlocks : List Block :=
  (List.range 12).map longBlock ++ (List.range 12).map fun i => sideBlock (i + 1)

def sideFiles : Files := Sample.files sideBlocks (by decide +kernel)

def sideTree : BlockTree params sideFiles :=
  BlockTree.ofList ((List.range 12).map longPtr ++ (List.range 12).map fun i => sidePtr (i + 1))
    (by decide +kernel)

def sideIo : Io := io sideBlocks sideFiles

/-- The node after `SetBestChain` has been called for the blocks up to a height. -/
def growingNode : ℕ → Node
  | 0 => node
  | nHeight + 1 => ((setBestChain params sideIo (longBlock (nHeight + 1))
      (longPtr (nHeight + 1))).run (growingNode nHeight)).2

/-- The node after eleven blocks, with `rivalSpend` in the pool. -/
def rewardNode : Node :=
  let n := growingNode 11
  { n with mempool := ((view n).accept params n.mempool rivalSpend true).2.2 }

theorem txs_subset_side : sideTree.txs ⊆ {tx | tx ∈ rivalSpend :: sideBlocks.flatMap Block.vtx} :=
  fun _ htx => List.mem_cons_of_mem _ (mem_vtx_of_mem_txs htx)

theorem hashFree_side :
    HashFree params {tx | tx ∈ rivalSpend :: sideBlocks.flatMap Block.vtx} := by
  have hinj : (rivalSpend :: sideBlocks.flatMap Block.vtx).all (fun tx =>
    (rivalSpend :: sideBlocks.flatMap Block.vtx).all fun tx' =>
      decide (params.txHash tx = params.txHash tx' → tx = tx')) = true := by decide +kernel
  have hlt : (rivalSpend :: sideBlocks.flatMap Block.vtx).all (fun tx =>
    (rivalSpend :: sideBlocks.flatMap Block.vtx).all fun tx' => decide ((∃ o ∈ tx'.prevouts,
      o.hash = params.txHash tx ∧ o.n.toNat < tx.vout.length) →
        tx.nLockTime.toNat < tx'.nLockTime.toNat)) = true := by decide +kernel
  simp only [List.all_eq_true, decide_eq_true_eq] at hinj hlt
  exact .of_lt (fun tx => tx.nLockTime.toNat) (fun tx htx tx' htx' => hinj tx htx tx' htx') hlt

theorem readsFrom_sideIo : sideIo.ReadsFrom sideTree := readsFrom_io (by decide +kernel)

theorem growingRun {nHeight : ℕ} (h : nHeight < 12) :
    AcceptRun sideTree {tx | tx ∈ rivalSpend :: sideBlocks.flatMap Block.vtx}
      (growingNode nHeight) := by
  have hrun : ∀ nHeight < 11, ((setBestChain params sideIo (longBlock (nHeight + 1))
      (longPtr (nHeight + 1))).run (growingNode nHeight)).1 = some () := by decide +kernel
  have hbest : ∀ nHeight < 11, (growingNode nHeight).pindexBest = longPtr nHeight ∧
      (BlockPtr.postpone (BlockPtr.nChainTrust (longPtr nHeight)) (longPtr (nHeight + 1))).2 =
        [] := by decide +kernel
  have hstored : ∀ nHeight < 12, sideFiles.blockOf (entry (longBlock nHeight)) =
      some (longBlock nHeight) := by decide +kernel
  have hmem : ∀ nHeight < 12, longPtr nHeight ∈ sideTree.entries := fun nHeight h =>
    List.mem_append_left _ (List.mem_map_of_mem (List.mem_range.mpr h))
  induction nHeight with
  | zero =>
    exact .start ⟨Or.inr (hmem 0 h), rfl, rfl, ⟨trivial, rfl⟩, rfl, rfl, rfl⟩ rfl
  | succ nHeight ih =>
    obtain ⟨hbest, hpostpone⟩ := hbest nHeight (by omega)
    refine .setBestChain (ih (by omega)) readsFrom_sideIo (hmem (nHeight + 1) h)
      (hstored (nHeight + 1) h) (Prod.ext (hrun nHeight (by omega)) rfl) ?_ ?_
    · intro c hc
      rw [hbest] at hc
      change c ∈ (BlockPtr.postpone _ (longPtr (nHeight + 1))).2 at hc
      rw [hpostpone] at hc
      cases hc
    · refine noneStranded_of_subset ?_
      rw [hbest]
      cases nHeight with
      | zero => exact List.nil_subset _
      | succ nHeight =>
        rw [show chainVtx sideFiles (entry (longBlock (nHeight + 2)) :: longPtr (nHeight + 1)) = _
          from chainVtx_cons (hmem (nHeight + 2) h)]
        exact List.subset_append_left _ _

theorem rewardRun :
    AcceptRun sideTree {tx | tx ∈ rivalSpend :: sideBlocks.flatMap Block.vtx} rewardNode :=
  .accept (growingRun (by decide)) List.mem_cons_self ⟨rfl, rfl⟩

end Sample

open Sample in
/-- `rivalSpend` spends the reward of the first of eleven blocks. -/
theorem memPool_rooted_rivalSpend :
    rewardNode.mempool.Contains params rivalSpend ∧
      rewardNode.mempool.Rooted params (readTxIndex rewardNode.txdb) := by
  refine ⟨?_, (memPool_rooted hashFree_side txs_subset_side rewardRun).1⟩
  unfold TxMemPool.Contains
  decide +kernel

open Sample in
/-- When a branch of twelve blocks takes the place of the eleven, `rivalSpend` stays in the pool and
the reward that it spends is nowhere. -/
theorem memPool_stranded_rivalSpend :
    let x := setBestChain params sideIo (sideBlock 12) (sidePtr 12)
    AcceptRun sideTree {tx | tx ∈ rivalSpend :: sideBlocks.flatMap Block.vtx} rewardNode ∧
      BlockPtr.nChainTrust rewardNode.pindexBest < BlockPtr.nChainTrust (sidePtr 12) ∧
      (x.run rewardNode).1 = some () ∧
      ¬(x.run rewardNode).2.mempool.Rooted params (readTxIndex (x.run rewardNode).2.txdb) := by
  intro x
  have hcontains : (x.run rewardNode).2.mempool.Contains params rivalSpend := by
    unfold TxMemPool.Contains
    decide +kernel
  have hpool : (x.run rewardNode).2.mempool.mapTx.lookup 2 = none := by decide +kernel
  have hindex : readTxIndex (x.run rewardNode).2.txdb 2 = none := by decide +kernel
  refine ⟨rewardRun, by decide +kernel, by decide +kernel, fun h => ?_⟩
  rcases h rivalSpend hcontains ⟨2, 0⟩ (by decide +kernel) with ⟨tx, htx, hout⟩ | ⟨r, hr, _⟩
  · rw [TxMemPool.Contains, ← (TxMemPool.mem_outpoints.mp hout).1] at htx
    rw [hpool] at htx
    cases htx
  · exact Option.some_ne_none r (hr.symm.trans hindex)

end Beancash
