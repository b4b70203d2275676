import Beancash.ReloadMap

namespace Beancash

open Fallible Ledger

variable {P : Params} {files : Files} {tree : BlockTree P files}

theorem Block.checkBlock_later {nAdjustedTime nAdjustedTime' : ℤ} {b : Block}
    (h : b.checkBlock P nAdjustedTime true true true true = true)
    (htime : b.blockTime ≤ futureDrift nAdjustedTime') {signed : Bool} (hsigned : signed = true)
    (fCheckSig : Bool) : b.checkBlock P nAdjustedTime' signed true true fCheckSig = true := by
  have hstake : ∀ {f}, checkProofOfStakeBlock b true true = true →
      checkProofOfStakeBlock b f true = true := by
    intro f
    unfold checkProofOfStakeBlock
    split
    · simp only [Bool.and_eq_true, Bool.or_true]
      exact fun h => h
    · exact fun h => h
  subst hsigned
  simp only [Block.checkBlock, Bool.and_eq_true, Bool.or_eq_true, decide_eq_true_eq] at h ⊢
  obtain ⟨⟨⟨⟨⟨⟨⟨⟨hwork, _⟩, hbase⟩, hbasetime⟩, hproof⟩, htxs⟩, hids⟩, hsigops⟩, hroot⟩ := h
  exact ⟨⟨⟨⟨⟨⟨⟨⟨hwork, htime⟩, hbase⟩, hbasetime⟩, hproof.imp_right hstake⟩, htxs⟩, hids⟩, hsigops⟩,
    hroot⟩

theorem Block.work_of_checkBlock {nAdjustedTime : ℤ} {b : Block}
    (h : b.checkBlock P nAdjustedTime true true true true = true) :
    (b.isProofOfWork && !checkProofOfWork P (b.hash P) b.header.nBits) = false := by
  simp only [Block.checkBlock, Bool.and_eq_true] at h
  obtain ⟨⟨⟨⟨⟨⟨⟨⟨⟨_, hwork⟩, _⟩, _⟩, _⟩, _⟩, _⟩, _⟩, _⟩, _⟩ := h
  rw [Bool.true_and] at hwork
  cases hpow : b.isProofOfWork with
  | false => rfl
  | true =>
    rw [hpow] at hwork
    rw [show checkProofOfWork P (b.hash P) b.header.nBits = true from hwork]
    rfl

theorem pos_of_mem_txPositions {nFile : FileNumber} {nBlockPos nTxPos : UInt32}
    {txs : List Transaction} {pos : TxPos} {tx : Transaction}
    (h : (pos, tx) ∈ txPositions nFile nBlockPos nTxPos txs) :
    pos.nFile = nFile ∧ pos.nBlockPos = nBlockPos := by
  induction txs generalizing nTxPos with
  | nil => cases h
  | cons tx' txs ih =>
    rcases List.mem_cons.mp h with heq | h
    · obtain ⟨rfl, _⟩ := Prod.mk.inj heq
      exact ⟨rfl, rfl⟩
    · exact ih h

section Chain

variable {best : BlockPtr} (hbest : best ∈ tree.entries) (hconn : ChainConnectable P files best)
  {e d : BlockIndex} {p : BlockPtr} {b : Block} (hsuf : e :: d :: p <:+ best)
  (hb : files.blockOf e = some b) {io : LoadIo}
  (hread : ∀ pos tx, files.txAt pos = some tx → io.readTx pos = some tx)

include hconn hsuf hb

theorem record_of_mem {pos : TxPos} {tx : Transaction} (hmem : (pos, tx) ∈ blockTxs e b) :
    ledgerTx P pos tx ∈ chainLedger P files best ∧
      ∃ r, chainIndex P files best (P.txHash tx) = some r ∧ r.pos = some pos := by
  have hown : (pos, tx) ∈ chainTxs files (e :: d :: p) := by
    rw [chainTxs, hb]
    exact List.mem_append_right _ hmem
  have hledger : ledgerTx P pos tx ∈ chainLedger P files best :=
    List.mem_map_of_mem (f := fun tx : TxPos × Transaction => ledgerTx P tx.1 tx.2)
      (mem_chainTxs_of_suffix hsuf hown)
  obtain ⟨r, hr, hpos, _⟩ := hconn.describes.record _ hledger
  exact ⟨hledger, r, hr, hpos⟩

theorem not_spent_below {pos : TxPos} {tx : Transaction} (hmem : (pos, tx) ∈ blockTxs e b)
    {i : ℕ} {ltx : Tx Uint256 TxPos} (hltx : ltx ∈ chainLedger P files (d :: p)) :
    (P.txHash tx, i) ∉ ltx.ins := by
  intro hspends
  have hbelow := hconn.of_suffix hsuf
  -- what is spent is known before, and then the block would have its hash again
  have hids := hbelow.describes.ids
  rw [chainLedger_cons hb, List.map_append, List.nodup_append] at hids
  obtain ⟨r, hr, _⟩ :=
    ((chainConnectable_cons hb).mp hbelow).1.describes.spender ltx hltx _ hspends
  obtain ⟨ltx', hltx', hid⟩ :=
    (((chainConnectable_cons hb).mp hbelow).1.describes.known (P.txHash tx)).mp
      (by rw [hr]; exact Option.some_ne_none r)
  refine hids.2.2 _ (List.mem_map_of_mem hltx') _ ?_ hid
  rw [blockLedger_ids, ← blockTxs_map_snd e b]
  exact List.mem_map_of_mem (List.mem_map_of_mem (f := Prod.snd) hmem)

include hbest hread

theorem spentSound_of_mem {mapBlockPos : List (FileNumber × UInt32)}
    (hpos : ∀ e' d' q, e' :: d' :: q <:+ best → e :: d :: p <:+ e' :: d' :: q →
      (e'.nFile, e'.nBlockPos) ∈ mapBlockPos) {pos : TxPos} {tx : Transaction}
    (hmem : (pos, tx) ∈ blockTxs e b) {r : TxIndex}
    (hr : chainIndex P files best (P.txHash tx) = some r) :
    r.spent.zipIdx.all (spentSound io mapBlockPos (P.txHash tx)) = true := by
  rw [List.all_eq_true]
  rintro ⟨_ | txpos, nOutput⟩ hspent
  · rfl
  obtain ⟨ltx, hltx, hins, rfl⟩ := hconn.describes.marked _ r nOutput txpos hr
    (List.mem_zipIdx_iff_getElem?.mp hspent)
  obtain ⟨⟨pos', txSpend⟩, htxs, rfl⟩ := List.mem_map.mp hltx
  obtain ⟨e', d', q, b', hsuf', hb', hmem'⟩ := mem_chainTxs htxs
  have habove : e :: d :: p <:+ e' :: d' :: q := by
    rcases List.suffix_or_suffix_of_suffix hsuf hsuf' with habove | hlow
    · exact habove
    rcases List.suffix_cons_iff.mp hlow with heq | hlow
    · exact heq ▸ List.suffix_rfl
    · have hown : (pos', txSpend) ∈ chainTxs files (e' :: d' :: q) := by
        rw [chainTxs, hb']
        exact List.mem_append_right _ hmem'
      exact absurd hins (not_spent_below hconn hsuf hb hmem
        (List.mem_map_of_mem (mem_chainTxs_of_suffix hlow hown)))
  obtain ⟨hfile, hblock⟩ := pos_of_mem_txPositions hmem'
  have hcontains : mapBlockPos.contains (pos'.nFile, pos'.nBlockPos) = true := by
    rw [hfile, hblock, List.contains_iff_mem]
    exact hpos e' d' q hsuf' habove
  have hcheck : txSpend.checkTransaction = true := by
    have he' := tree.mem_of_suffix hbest hsuf' (List.cons_ne_nil e' _)
    refine (BlockTree.checkedBlock he' hb').transactions txSpend ?_
    rw [← blockTxs_map_snd e' b']
    exact List.mem_map_of_mem (f := Prod.snd) hmem'
  -- it has an input for the output
  have hinput : txSpend.vin.any (fun txin => txin.prevout.hash == P.txHash tx &&
      txin.prevout.n.toNat == nOutput) = true := by
    obtain ⟨o, ho, hkey⟩ := List.mem_map.mp hins
    obtain ⟨hhash, hn⟩ := Prod.mk.inj hkey
    unfold Transaction.spends at ho
    split at ho
    · cases ho
    · obtain ⟨txin, htxin, rfl⟩ := List.mem_map.mp ho
      rw [List.any_eq_true]
      exact ⟨txin, htxin, by rw [hhash, hn, beq_self_eq_true, beq_self_eq_true]; rfl⟩
  simp only [spentSound, ledgerTx, hread _ _ (Files.txAt_of_mem_chainTxs htxs), hcontains, hcheck,
    hinput, Option.any_some, Bool.and_self, Bool.or_true]

omit hbest hread in
/-- What a transaction of the block spends is marked; a beanbase refers to nothing. -/
theorem prevoutSound_of_mem (hnull : ∀ tx ∈ files.txs, P.txHash tx ≠ 0) {pos : TxPos}
    {tx : Transaction} (hmem : (pos, tx) ∈ blockTxs e b) {o : OutPoint} (ho : o ∈ tx.prevouts) :
    prevoutSound (chainIndex P files best) o = true := by
  obtain ⟨hledger, _⟩ := record_of_mem (P := P) hconn hsuf hb hmem
  unfold prevoutSound
  cases hbase : tx.isBeanBase with
  | true =>
    have hzero : o.hash = 0 := by
      unfold Transaction.isBeanBase at hbase
      split at hbase
      · rename_i txin hvin
        rw [Transaction.prevouts, hvin] at ho
        obtain rfl := List.mem_singleton.mp ho
        simp only [OutPoint.isNull, Bool.and_eq_true, beq_iff_eq] at hbase
        exact hbase.1.1
      · cases hbase
    have hnone : chainIndex P files best o.hash = none := by
      by_contra hknown
      obtain ⟨ltx, hltx, hid⟩ := (hconn.describes.known _).mp hknown
      obtain ⟨tx', htx', rfl⟩ := List.mem_map.mp hltx
      obtain ⟨e', d', q, b', _, hb', hmem'⟩ := mem_chainTxs htx'
      refine hnull tx'.2 ⟨e'.nFile, e'.nBlockPos, b', hb', ?_⟩ (hid.trans hzero)
      rw [← blockTxs_map_snd e' b']
      exact List.mem_map_of_mem hmem'
    rw [hnone]
    rfl
  | false =>
    have hins : o.key ∈ (ledgerTx P pos tx).ins := by
      refine List.mem_map_of_mem ?_
      rw [Transaction.spends, hbase]
      exact ho
    obtain ⟨r, hr, hspent⟩ := hconn.describes.spender _ hledger _ hins
    have hr : chainIndex P files best o.hash = some r := hr
    have hspent : r.spent[o.n.toNat]? = some (some pos) := hspent
    rw [hr, Option.all_some, hspent]
    rfl

theorem verifyTx_of_mem (hnull : ∀ tx ∈ files.txs, P.txHash tx ≠ 0)
    {mapBlockPos : List (FileNumber × UInt32)}
    (hpos : ∀ e' d' q, e' :: d' :: q <:+ best → e :: d :: p <:+ e' :: d' :: q →
      (e'.nFile, e'.nBlockPos) ∈ mapBlockPos) {tx : Transaction} (htx : tx ∈ b.vtx) :
    verifyTx P io (chainIndex P files best) e mapBlockPos tx = true := by
  obtain ⟨⟨pos, tx⟩, hmem, rfl⟩ := List.mem_map.mp ((blockTxs_map_snd e b).symm ▸ htx)
  obtain ⟨_, r, hr, hrpos⟩ := record_of_mem (P := P) hconn hsuf hb hmem
  have hposition : positionSound P io e (P.txHash tx) r = true := by
    unfold positionSound
    rw [hrpos, Option.bind_some, hread _ _ (Files.txAt_of_mem hb hmem).1, Option.any_some,
      Option.any_some, beq_self_eq_true, Bool.or_true]
  have hspent := spentSound_of_mem hbest hconn hsuf hb hread hpos hmem hr
  have hprevouts : tx.prevouts.all (prevoutSound (chainIndex P files best)) = true :=
    List.all_eq_true.mpr fun o ho => prevoutSound_of_mem hconn hsuf hb hnull hmem ho
  unfold verifyTx
  rw [hr, Option.all_some, hposition, hspent, hprevouts, Bool.or_true, Bool.or_true]
  rfl

end Chain

theorem verifyChain_eq_nil (hnull : ∀ tx ∈ files.txs, P.txHash tx ≠ 0) {io : LoadIo}
    {s : IndexedNode} (hio : io.Restarts P files s) (hmap : tree.IndexedBy s.mapBlockIndex)
    (hbest : s.node.pindexBest ∈ tree.entries)
    (hbranch : OnBranch P files s.node.pindexBest s.node) (m : LoadedMap) {n : Node}
    (hdb : n.txdb = s.node.txdb) {p : BlockPtr} (hp : p <:+ s.node.pindexBest)
    {mapBlockPos : List (FileNumber × UInt32)}
    (hpos : 1 < io.nCheckLevel → ∀ e d q, e :: d :: q <:+ s.node.pindexBest → p <:+ d :: q →
      (e.nFile, e.nBlockPos) ∈ mapBlockPos) :
    verifyChain P io m n p mapBlockPos [] = some [] := by
  induction p generalizing mapBlockPos with
  | nil => rfl
  | cons e p ih =>
    cases p with
    | nil => rfl
    | cons d p =>
      rw [verifyChain]
      split
      · rfl
      have he := tree.mem_of_suffix hbest hp (List.cons_ne_nil e _)
      have hemem : e ∈ s.node.pindexBest := hp.mem List.mem_cons_self
      obtain ⟨b, hb⟩ := Option.isSome_iff_exists.mp (tree.stored he)
      obtain ⟨hhash, hheader, _⟩ := tree.linked he hb
      obtain ⟨nAdjustedTime, hcheck⟩ := (tree.accepted he hb).checked
      have hread : (io.chain.block e.phashBlock).readFromDisk P (e :: d :: p) = some b := by
        unfold BlockIo.readFromDisk
        rw [hio.readBlock e (d :: p) ((hmap _ _).mpr ⟨he, rfl⟩), hb, Option.filter_eq_some_iff]
        refine ⟨rfl, ?_⟩
        rw [Block.work_of_checkBlock hcheck, hhash, BlockPtr.hash_cons, beq_self_eq_true]
        rfl
      set mapBlockPos' :=
        if 1 < io.nCheckLevel then (e.nFile, e.nBlockPos) :: mapBlockPos else mapBlockPos
        with hmapBlockPos
      -- now the block itself has been met
      have hpos' : 1 < io.nCheckLevel → ∀ e' d' q, e' :: d' :: q <:+ s.node.pindexBest →
          e :: d :: p <:+ e' :: d' :: q → (e'.nFile, e'.nBlockPos) ∈ mapBlockPos' := by
        intro hlevel e' d' q hsuf hle
        rw [hmapBlockPos, if_pos hlevel]
        rcases List.suffix_cons_iff.mp hle with heq | hlow
        · rw [(List.cons.inj heq).1]
          exact List.mem_cons_self
        · exact List.mem_cons_of_mem _ (hpos hlevel e' d' q hsuf hlow)
      have hsound : verifyBlock P io (readTxIndex n.txdb) e mapBlockPos' b = true := by
        have htime : b.blockTime ≤ futureDrift io.adjustedTime := by
          have hclock := hio.adjustedTime e hemem
          unfold BlockIndex.blockTime at hclock
          rw [← hheader] at hclock
          exact hclock
        unfold verifyBlock
        rw [Block.checkBlock_later hcheck htime (hio.signed e hemem b hb), hdb, hbranch.index,
          Bool.or_true, Bool.true_and]
        by_cases hlevel : 1 < io.nCheckLevel
        · rw [List.all_eq_true.mpr fun tx htx => verifyTx_of_mem hbest hbranch.connectable hp hb
            hio.readTx hnull (hpos' hlevel) htx, Bool.or_true]
        · rw [decide_eq_false hlevel]
          rfl
      rw [hread]
      simp only [Option.bind_eq_bind, Option.bind_some, hsound, if_true]
      refine ih ((List.suffix_cons e _).trans hp) fun hlevel e' d' q hsuf hle => ?_
      refine hpos' hlevel e' d' q hsuf ?_
      rcases List.suffix_or_suffix_of_suffix hp hsuf with hup | hlow
      · exact hup
      rcases List.suffix_cons_iff.mp hlow with heq | hlow
      · exact heq ▸ List.suffix_rfl
      · have hlen := (hlow.trans hle).length_le
        rw [List.length_cons] at hlen
        omega

end Beancash
