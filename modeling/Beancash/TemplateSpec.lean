import Beancash.KernelReads
import Beancash.PoolRun
import Beancash.SigOpCount
import Beancash.TemplateQueue

namespace Beancash

open Ledger

variable {P : Params} {v : InputView} {pindexPrev : BlockPtr} {D : Type}

/-- What the pool keeps: its maps agree, its transactions have been checked and are not in the
index, and what they spend can be read or is of another transaction of the pool. -/
structure TxMemPool.SoundFor (P : Params) (v : KernelView) (pool : TxMemPool) : Prop where
  invariant : pool.Invariant P
  checked : ∀ {h tx}, pool.lookup h = some tx → tx.checkTransaction = true
  fresh : ∀ {h tx}, pool.lookup h = some tx → v.readTxIndex h = none
  sourced : ∀ {h tx}, pool.lookup h = some tx → ∀ o ∈ tx.prevouts,
    (v.readPrevout o).isSome = true ∨ (pool.lookup o.hash).isSome = true

/-- A script has at most twenty signature operations for each of its bytes, and so has the script
behind a hash that a `scriptSig` brings with it. -/
structure Params.BoundsSigOps (P : Params) : Prop where
  script : ∀ script, (P.getSigOpCount script).toNat ≤ 20 * script.length
  scriptHash : ∀ scriptPubKey scriptSig, P.isPayToScriptHash scriptPubKey = true →
    (P.getP2SHSigOpCount scriptPubKey scriptSig).toNat ≤ 20 * scriptSig.length

theorem boundsSigOps_withScripts (c : Crypto) (P : Params) : (P.withScripts c).BoundsSigOps where
  script script := script.getSigOpCount_le false
  scriptHash _ scriptSig hhash := Script.getSigOpCountOf_le hhash scriptSig

/-- The transactions of a list can be fetched and connected in their order, which leaves this
copy of the index, and these are their fees and signature operations. -/
inductive ConnectsInOrder (P : Params) (v : InputView) (pindexPrev : BlockPtr) :
    List Transaction → QueuedChanges → Int64 → ℕ → Prop
  | nil : ConnectsInOrder P v pindexPrev [] ∅ 0 0
  | snoc {txs tx mapTestPool mapTestPool' nFees nSigOps mapInputs nValueIn nValueOut nP2SHSigOps} :
    ConnectsInOrder P v pindexPrev txs mapTestPool nFees nSigOps →
    v.fetchInputs mapTestPool false true tx = .ok mapInputs →
    tx.getValueIn mapInputs = some nValueIn → tx.getValueOut = some nValueOut →
    tx.getP2SHSigOpCount P mapInputs = some nP2SHSigOps →
    v.connectInputs P tx mapInputs mapTestPool TxPos.memory pindexPrev false true =
      some mapTestPool' →
    ConnectsInOrder P v pindexPrev (txs ++ [tx])
      (mapTestPool'.insert (P.txHash tx) (TxIndex.new (some TxPos.memory) tx.vout.length))
      (nFees + (nValueIn - nValueOut))
      (nSigOps + ((tx.getLegacySigOpCount P).toNat + nP2SHSigOps.toNat))

theorem fetchInputs_miner (queue : QueuedChanges) (tx : Transaction) :
    v.fetchInputs queue false true tx = v.fetchInputs queue true false tx := by
  have hloop : ∀ prevouts inputs, v.fetchLoop queue false true prevouts inputs =
      v.fetchLoop queue true false prevouts inputs := by
    intro prevouts
    induction prevouts with
    | nil => intro inputs; rfl
    | cons prevout prevouts ih =>
      intro inputs
      rw [InputView.fetchLoop, InputView.fetchLoop, ih]
      have hprev : v.fetchPrev queue false true prevout.hash =
          v.fetchPrev queue true false prevout.hash := rfl
      rw [hprev]
      simp only [ih]
  unfold InputView.fetchInputs
  rw [hloop]

theorem connectInputs_miner {queue queue' : QueuedChanges} {tx : Transaction}
    {inputs : MapPrevTx} (hbase : tx.isBeanBase = false)
    (hfetch : v.fetchInputs queue false true tx = .ok inputs)
    (h : v.connectInputs P tx inputs queue TxPos.memory pindexPrev false true = some queue') :
    Spendable (effective v.readTxIndex queue) (tx.prevouts.map OutPoint.key) ∧
      effective v.readTxIndex queue' = markAll (effective v.readTxIndex queue)
        (tx.prevouts.map OutPoint.key) (some TxPos.memory) := by
  rw [fetchInputs_miner] at hfetch
  simp only [InputView.connectInputs, hbase, Bool.false_eq_true, if_false] at h
  split at h
  · cases h
  · split at h
    · cases h
    · next hspend =>
      split_ifs at h
      obtain rfl := Option.some_injective _ h
      exact spendInputs_eq_some (fun hash prev hl => (fetchInputs_block hfetch hl).1) hspend

/-- Transactions as the ledger sees them, where those of a template are all at the same
position. -/
def templateLedger (P : Params) (txs : List Transaction) : List (Tx Uint256 TxPos) :=
  txs.map (ledgerTx P TxPos.memory)

/-- A transaction that the first loop takes from the pool. -/
structure TxMemPool.Offers (P : Params) (pool : TxMemPool) (tx : Transaction) : Prop where
  contains : pool.Contains P tx
  noBeanBase : tx.isBeanBase = false

section

variable {kv : ChainView} {pool : TxMemPool}

theorem Transaction.prevouts_ne_nil {tx : Transaction} (h : tx.checkTransaction = true) :
    tx.prevouts ≠ [] := by
  intro hnil
  have hvin : tx.vin = [] := List.map_eq_nil_iff.mp hnil
  simp [Transaction.checkTransaction, hvin] at h

/-- The transactions connected are new to the index at their turn, and the copy of the index is
what the ledger makes of it. -/
theorem ConnectsInOrder.connectable (hpool : pool.SoundFor P kv.toKernelView)
    {txs : List Transaction} {mapTestPool : QueuedChanges} {nFees : Int64} {nSigOps : ℕ}
    (h : ConnectsInOrder P (kv.poolInputs pool) pindexPrev txs mapTestPool nFees nSigOps)
    (hoffers : ∀ tx ∈ txs, pool.Offers P tx) :
    ConnectableAll kv.readTxIndex (templateLedger P txs) ∧
      effective kv.readTxIndex mapTestPool = connectAll kv.readTxIndex (templateLedger P txs) := by
  induction h with
  | nil => exact ⟨trivial, rfl⟩
  | @snoc txs tx mapTestPool mapTestPool' nFees nSigOps inputs _ _ _ _ hfetch _ _ _ hconnect ih =>
    obtain ⟨hall, heff⟩ := ih fun tx' htx' => hoffers tx' (List.mem_append_left _ htx')
    have htx := hoffers tx (List.mem_append_right _ List.mem_cons_self)
    obtain ⟨hspend, hmark⟩ := connectInputs_miner htx.noBeanBase hfetch hconnect
    change Spendable (effective kv.readTxIndex mapTestPool) _ at hspend
    change effective kv.readTxIndex mapTestPool' = markAll (effective kv.readTxIndex mapTestPool) _
      _ at hmark
    rw [heff] at hspend hmark
    have hspends : tx.spends = tx.prevouts := by
      rw [Transaction.spends, htx.noBeanBase, if_neg Bool.false_ne_true]
    have hfresh : connectAll kv.readTxIndex (templateLedger P txs) (P.txHash tx) = none := by
      rw [connectAll_eq_none_iff]
      refine ⟨hpool.fresh htx.contains, fun ltx hltx heq => ?_⟩
      -- the transaction itself has been connected already, so that what it spends is spent
      obtain ⟨tx', htx', rfl⟩ := List.mem_map.mp hltx
      obtain rfl : tx = tx' := by
        have hcontains := (hoffers tx' (List.mem_append_left _ htx')).contains
        unfold TxMemPool.Contains at hcontains
        rw [show P.txHash tx' = P.txHash tx from heq.symm, htx.contains] at hcontains
        exact Option.some_injective _ hcontains
      obtain ⟨o, ho⟩ := List.exists_mem_of_ne_nil _
        (Transaction.prevouts_ne_nil (hpool.checked htx.contains))
      have hins : o.key ∈ (ledgerTx P TxPos.memory tx).ins := by
        change o.key ∈ tx.spends.map OutPoint.key
        rw [hspends]
        exact List.mem_map_of_mem ho
      exact (hall.spent hltx hins).not_unspent (hspend.unspent _ (List.mem_map_of_mem ho))
    have hledger : templateLedger P (txs ++ [tx]) =
        templateLedger P txs ++ [ledgerTx P TxPos.memory tx] := List.map_append
    rw [hledger, connectableAll_append, connectAll_append]
    refine ⟨⟨hall, ⟨?_, hfresh⟩, trivial⟩, ?_⟩
    · change Spendable _ (tx.spends.map OutPoint.key)
      rw [hspends]
      exact hspend
    · rw [effective_insert, hmark]
      change _ = connect (connectAll kv.readTxIndex (templateLedger P txs))
        (ledgerTx P TxPos.memory tx)
      unfold connect ledgerTx
      rw [hspends]
      rfl

/-- What a transaction spends of another one of the pool, that one is connected before. -/
theorem ConnectsInOrder.parents (hpool : pool.SoundFor P kv.toKernelView)
    {txs : List Transaction} {mapTestPool : QueuedChanges} {nFees : Int64} {nSigOps : ℕ}
    (h : ConnectsInOrder P (kv.poolInputs pool) pindexPrev txs mapTestPool nFees nSigOps)
    (hoffers : ∀ tx ∈ txs, pool.Offers P tx) {before after : List Transaction} {tx : Transaction}
    (hsplit : txs = before ++ tx :: after) {o : OutPoint} (ho : o ∈ tx.prevouts)
    {txPrev : Transaction} (hprev : pool.lookup o.hash = some txPrev) : txPrev ∈ before := by
  obtain ⟨hall, -⟩ := h.connectable hpool hoffers
  have htx := hoffers tx (hsplit ▸ List.mem_append_right _ List.mem_cons_self)
  have hledger : templateLedger P txs =
      templateLedger P before ++ ledgerTx P TxPos.memory tx :: templateLedger P after := by
    rw [hsplit]
    exact List.map_append
  rw [hledger, connectableAll_append] at hall
  have hins : o.key ∈ (ledgerTx P TxPos.memory tx).ins := by
    change o.key ∈ tx.spends.map OutPoint.key
    rw [Transaction.spends, htx.noBeanBase, if_neg Bool.false_ne_true]
    exact List.mem_map_of_mem ho
  obtain ⟨r, hr, -⟩ := hall.2.1.unspent _ hins
  -- the index does not know the transaction before it has been connected
  obtain ⟨ltx, hltx, hid⟩ : ∃ ltx ∈ templateLedger P before, o.hash = ltx.id := by
    by_contra hne
    have hnone := connectAll_eq_none_iff.mpr
      ⟨hpool.fresh hprev, fun ltx hltx heq => hne ⟨ltx, hltx, heq⟩⟩
    rw [show o.key.1 = o.hash from rfl, hnone] at hr
    cases hr
  obtain ⟨tx', htx', rfl⟩ := List.mem_map.mp hltx
  have hcontains := (hoffers tx' (hsplit ▸ List.mem_append_left _ htx')).contains
  unfold TxMemPool.Contains at hcontains
  rw [show P.txHash tx' = o.hash from hid.symm] at hcontains
  obtain rfl := Option.some_injective _ (hprev.symm.trans hcontains)
  exact htx'

theorem ConnectsInOrder.nodup_prevouts (hpool : pool.SoundFor P kv.toKernelView)
    {txs : List Transaction} {mapTestPool : QueuedChanges} {nFees : Int64} {nSigOps : ℕ}
    (h : ConnectsInOrder P (kv.poolInputs pool) pindexPrev txs mapTestPool nFees nSigOps)
    (hoffers : ∀ tx ∈ txs, pool.Offers P tx) : (txs.flatMap Transaction.prevouts).Nodup := by
  have hnodup := (h.connectable hpool hoffers).1.nodup_ins
  have hins : (templateLedger P txs).flatMap Tx.ins =
      (txs.flatMap Transaction.prevouts).map OutPoint.key := by
    rw [templateLedger, List.flatMap_map, List.map_flatMap]
    refine List.flatMap_congr fun tx htx => ?_
    change tx.spends.map OutPoint.key = _
    rw [Transaction.spends, (hoffers tx htx).noBeanBase, if_neg Bool.false_ne_true]
  rw [hins] at hnodup
  exact hnodup.of_map

theorem ConnectsInOrder.nodup (hpool : pool.SoundFor P kv.toKernelView)
    {txs : List Transaction} {mapTestPool : QueuedChanges} {nFees : Int64} {nSigOps : ℕ}
    (h : ConnectsInOrder P (kv.poolInputs pool) pindexPrev txs mapTestPool nFees nSigOps)
    (hoffers : ∀ tx ∈ txs, pool.Offers P tx) : txs.Nodup := by
  have hdisjoint := (List.nodup_flatMap.mp (h.nodup_prevouts hpool hoffers)).2
  refine (List.Pairwise.imp_of_mem ?_ hdisjoint)
  intro tx tx' htx _ hdis heq
  obtain ⟨o, ho⟩ := List.exists_mem_of_ne_nil _
    (Transaction.prevouts_ne_nil (hpool.checked (hoffers tx htx).contains))
  exact hdis ho (heq ▸ ho)

end

theorem UInt32.toNat_sum_le (l : List UInt32) : l.sum.toNat ≤ (l.map UInt32.toNat).sum := by
  induction l with
  | nil => exact Nat.zero_le _
  | cons a l ih =>
    rw [List.sum_cons, List.map_cons, List.sum_cons, UInt32.toNat_add]
    have hle := Nat.mod_le (a.toNat + l.sum.toNat) (2 ^ 32)
    omega

theorem Transaction.sum_scriptSig_le (tx : Transaction) :
    (tx.vin.map fun i => i.scriptSig.length).sum ≤ (tx.vin.map TxIn.serializeSize).sum := by
  apply List.sum_le_sum
  intro i _
  unfold TxIn.serializeSize
  omega

theorem Transaction.sum_scriptPubKey_le (tx : Transaction) :
    (tx.vout.map fun o => o.scriptPubKey.length).sum ≤ (tx.vout.map TxOut.serializeSize).sum := by
  apply List.sum_le_sum
  intro o _
  unfold TxOut.serializeSize
  omega

theorem Params.BoundsSigOps.legacy (hP : P.BoundsSigOps) (tx : Transaction) :
    (tx.getLegacySigOpCount P).toNat ≤ 20 * tx.serializeSize := by
  have hin := UInt32.toNat_sum_le (tx.vin.map fun i => P.getSigOpCount i.scriptSig)
  have hout := UInt32.toNat_sum_le (tx.vout.map fun o => P.getSigOpCount o.scriptPubKey)
  have hin' : (tx.vin.map fun i => (P.getSigOpCount i.scriptSig).toNat).sum ≤
      (tx.vin.map fun i => 20 * i.scriptSig.length).sum :=
    List.sum_le_sum fun i _ => hP.script i.scriptSig
  have hout' : (tx.vout.map fun o => (P.getSigOpCount o.scriptPubKey).toNat).sum ≤
      (tx.vout.map fun o => 20 * o.scriptPubKey.length).sum :=
    List.sum_le_sum fun o _ => hP.script o.scriptPubKey
  have hvin := tx.sum_scriptSig_le
  have hvout := tx.sum_scriptPubKey_le
  rw [List.map_map] at hin hout
  rw [List.sum_map_mul_left] at hin' hout'
  change _ ≤ (tx.vin.map fun i => (P.getSigOpCount i.scriptSig).toNat).sum at hin
  change _ ≤ (tx.vout.map fun o => (P.getSigOpCount o.scriptPubKey).toNat).sum at hout
  unfold Transaction.getLegacySigOpCount Transaction.serializeSize
  rw [UInt32.toNat_add]
  have hle := Nat.mod_le ((tx.vin.map fun i => P.getSigOpCount i.scriptSig).sum.toNat +
    (tx.vout.map fun o => P.getSigOpCount o.scriptPubKey).sum.toNat) (2 ^ 32)
  omega

theorem Params.BoundsSigOps.sumP2SH (hP : P.BoundsSigOps) {inputs : MapPrevTx} {vin : List TxIn}
    {nSigOps n : UInt32} (h : sumP2SHSigOps P inputs nSigOps vin = some n) :
    n.toNat ≤ nSigOps.toNat + 20 * (vin.map fun i => i.scriptSig.length).sum := by
  induction vin generalizing nSigOps with
  | nil =>
    obtain rfl := Option.some_injective _ h
    omega
  | cons txin vin ih =>
    rw [sumP2SHSigOps] at h
    split at h
    · next o ho =>
      have hrest := ih h
      have hone := hP.scriptHash o.scriptPubKey txin.scriptSig
      have hmod := Nat.mod_le
        (nSigOps.toNat + (P.getP2SHSigOpCount o.scriptPubKey txin.scriptSig).toNat) (2 ^ 32)
      rw [List.map_cons, List.sum_cons]
      split_ifs at hrest with hhash
      · have hle := hone hhash
        rw [UInt32.toNat_add] at hrest
        omega
      · omega
    · cases h

theorem Params.BoundsSigOps.p2sh (hP : P.BoundsSigOps) {tx : Transaction} {inputs : MapPrevTx}
    {n : UInt32} (h : tx.getP2SHSigOpCount P inputs = some n) :
    n.toNat ≤ 20 * tx.serializeSize := by
  unfold Transaction.getP2SHSigOpCount at h
  split_ifs at h
  · obtain rfl := Option.some_injective _ h
    exact Nat.zero_le _
  · have hsum := hP.sumP2SH h
    have hvin := tx.sum_scriptSig_le
    have hzero : (0 : UInt32).toNat = 0 := rfl
    unfold Transaction.serializeSize
    omega

theorem Transaction.serializeSize_le {tx : Transaction} (h : tx.checkTransaction = true) :
    tx.serializeSize ≤ maxBlockSize := by
  simp only [Transaction.checkTransaction, Bool.and_eq_true, decide_eq_true_eq] at h
  exact h.1.1.1.2

/-- What the block so far is like. -/
structure BlockAssembly.Sound (P : Params) (v : InputView) (pindexPrev : BlockPtr)
    (pool : TxMemPool) (args : MinerArgs) (s : BlockAssembly) : Prop where
  offers : ∀ tx ∈ s.vtx, pool.Offers P tx
  connects : ∃ nSigOps, ConnectsInOrder P v pindexPrev s.vtx s.mapTestPool s.nFees nSigOps ∧
    s.nBlockSigOps.toNat = 100 + nSigOps ∧ s.nBlockSigOps.toNat < maxBlockSigops
  size : s.nBlockSize.toNat = 1000 + (s.vtx.map Transaction.serializeSize).sum
  room : s.vtx = [] ∨ s.nBlockSize.toNat < args.nBlockMaxSize.toNat

theorem BlockAssembly.sound_start (pool : TxMemPool) (args : MinerArgs) :
    BlockAssembly.Sound P v pindexPrev pool args ⟨∅, [], 1000, 100, 0⟩ where
  offers tx htx := by cases htx
  connects := ⟨0, .nil, rfl, by decide⟩
  size := rfl
  room := Or.inl rfl

theorem BlockAssembly.Sound.connect {kv : ChainView} {pool : TxMemPool} {args : MinerArgs}
    {nAdjustedTime : ℤ} {fProofOfStake : Bool} {nTimeBeanbase : UInt32} {s s' : BlockAssembly}
    {tx : Transaction} (hpool : pool.SoundFor P kv.toKernelView) (hP : P.BoundsSigOps)
    (hs : s.Sound P v pindexPrev pool args) (htx : pool.Offers P tx)
    (hroom : s.hasRoom P args nAdjustedTime fProofOfStake nTimeBeanbase tx = true)
    (h : s.connect P v pindexPrev tx = some s') : s'.Sound P v pindexPrev pool args := by
  obtain ⟨nSigOps, hconnects, hsigops, hlimit⟩ := hs.connects
  have hsize := Transaction.serializeSize_le (hpool.checked htx.contains)
  have hmax : maxBlockSize = 20000000 := rfl
  have hmaxSigops : maxBlockSigops = 400000 := rfl
  -- the sizes do not wrap
  have hword : (UInt32.ofNat tx.serializeSize).toUInt64.toNat = tx.serializeSize := by
    rw [UInt32.toNat_toUInt64, UInt32.toNat_ofNat']
    exact Nat.mod_eq_of_lt (by omega)
  have hbound : s.nBlockSize.toNat < 2 ^ 32 := by
    rcases hs.room with hnil | hlt
    · rw [hs.size, hnil]
      decide
    · exact hlt.trans args.nBlockMaxSize.toNat_lt
  have hnew : (s.nBlockSize + (UInt32.ofNat tx.serializeSize).toUInt64).toNat =
      s.nBlockSize.toNat + tx.serializeSize := by
    rw [UInt64.toNat_add, hword]
    exact Nat.mod_eq_of_lt (by omega)
  simp only [BlockAssembly.hasRoom, Bool.and_eq_true, decide_eq_true_eq, UInt64.lt_iff_toNat_lt,
    hnew, UInt32.toNat_toUInt64] at hroom
  unfold BlockAssembly.connect at h
  split at h
  · cases h
  · next inputs hfetch =>
    split at h
    · next nValueIn nValueOut nP2SHSigOps hin hout hp2sh =>
      simp only [] at h
      split_ifs at h with _ hfull
      obtain ⟨mapTestPool, hconnect, rfl⟩ := Option.map_eq_some_iff.mp h
      have hlegacy := hP.legacy tx
      have hp2sh' := hP.p2sh hp2sh
      have hcount : (s.nBlockSigOps + (tx.getLegacySigOpCount P + nP2SHSigOps)).toNat =
          100 + (nSigOps + ((tx.getLegacySigOpCount P).toNat + nP2SHSigOps.toNat)) := by
        rw [UInt32.toNat_add, UInt32.toNat_add, hsigops]
        omega
      have hbelow : (s.nBlockSigOps + (tx.getLegacySigOpCount P + nP2SHSigOps)).toNat <
          maxBlockSigops := by omega
      refine ⟨?_, ⟨_, hconnects.snoc hfetch hin hout hp2sh hconnect, hcount, hbelow⟩, ?_,
        Or.inr ?_⟩
      · intro tx' htx'
        rcases List.mem_append.mp htx' with htx' | htx'
        · exact hs.offers tx' htx'
        · rw [List.mem_singleton.mp htx']
          exact htx
      · change (s.nBlockSize + (UInt32.ofNat tx.serializeSize).toUInt64).toNat = _
        rw [hnew, hs.size, List.map_append, List.sum_append, List.map_singleton,
          List.sum_singleton, Nat.add_assoc]
      · change (s.nBlockSize + (UInt32.ofNat tx.serializeSize).toUInt64).toNat < _
        rw [hnew]
        exact hroom.1.1
    · cases h

section

variable {kv : ChainView} {pool : TxMemPool}

theorem TxMemPool.mem_transactions (hinv : pool.Invariant P) {tx : Transaction} :
    tx ∈ pool.transactions ↔ pool.Contains P tx := by
  unfold TxMemPool.transactions
  rw [List.mem_map]
  constructor
  · rintro ⟨⟨h, tx⟩, hmem, rfl⟩
    rw [List.mem_insertionSort] at hmem
    exact hinv.contains (AList.mem_lookup_iff.mpr hmem)
  · intro hl
    exact ⟨⟨_, tx⟩, (List.mem_insertionSort _).mpr (AList.mem_lookup_iff.mp hl), rfl⟩

end

section

variable [IntCast D] [LT D] [DecidableLT D] {kv : ChainView} {pool : TxMemPool}

theorem MinerTask.step_some (task : MinerTask) (hpool : pool.SoundFor P kv.toKernelView)
    (hP : P.BoundsSigOps) {s : MinerState D} {p : TxPriority D} (ho : s.toPoolOrder.Valid)
    (hs : s.block.Sound P task.inputs task.pindexPrev pool task.args)
    (hp : pool.Offers P p.ptx) :
    ∃ s', task.step P s p = some s' ∧ s'.toPoolOrder.Valid ∧
      s'.block.Sound P task.inputs task.pindexPrev pool task.args ∧
      s'.vecPriority.length + waiting s'.vOrphan = s.vecPriority.length + waiting s.vOrphan := by
  unfold MinerTask.step
  simp only []
  split_ifs with hroom
  · exact ⟨s, rfl, ho, hs, rfl⟩
  · exact ⟨s, rfl, ho, hs, rfl⟩
  · rw [Bool.not_eq_true, Bool.not_eq_false'] at hroom
    split
    · exact ⟨_, rfl, ⟨ho.whole, ho.dependers⟩, hs, rfl⟩
    · next block hconnect =>
      obtain ⟨vOrphan, vecPriority, hrelease, hwhole, hlen, hcount⟩ :=
        release_some (P.txHash p.ptx) s.vecPriority ho.whole (ho.dependers (P.txHash p.ptx))
      refine ⟨_, by rw [hrelease]; rfl, ⟨hwhole, ?_⟩,
        hs.connect hpool hP hp hroom hconnect, hcount⟩
      intro hash i hi
      rw [hlen]
      exact ho.dependers hash i hi

variable [BEq D]

theorem MinerTask.run_some (heap : StdHeap (TxPriority D)) (task : MinerTask)
    (hpool : pool.SoundFor P kv.toKernelView) (hP : P.BoundsSigOps) {fuel : ℕ} {s : MinerState D}
    (ho : s.toPoolOrder.Valid) (hcarries : s.toPoolOrder.Carries (pool.Offers P))
    (hs : s.block.Sound P task.inputs task.pindexPrev pool task.args)
    (hfuel : s.vecPriority.length + waiting s.vOrphan < fuel) :
    ∃ block, task.run P heap fuel s = some block ∧
      block.Sound P task.inputs task.pindexPrev pool task.args := by
  induction fuel generalizing s with
  | zero => omega
  | succ fuel ih =>
    rw [MinerTask.run]
    cases hpop : heap.pop (TxPriority.less s.fSortedByFee) s.vecPriority with
    | none => exact ⟨s.block, rfl, hs⟩
    | some r =>
      obtain ⟨p, vecPriority⟩ := r
      have hperm := heap.perm hpop
      have hlen := hperm.length_eq
      rw [List.length_cons] at hlen
      have ho' : ({ s with vecPriority := vecPriority } : MinerState D).toPoolOrder.Valid :=
        ⟨ho.whole, ho.dependers⟩
      have hcarries' : ({ s with vecPriority := vecPriority } : MinerState D).toPoolOrder.Carries
          (pool.Offers P) := ⟨hcarries.orphans, fun q hq =>
        hcarries.queue q (hperm.subset (List.mem_cons_of_mem _ hq))⟩
      have hp := hcarries.queue p (hperm.subset List.mem_cons_self)
      obtain ⟨s', hstep, hv, hsound, hcount⟩ := task.step_some hpool hP ho' hs hp
      obtain ⟨block, hrun, hblock⟩ := ih hv
        (MinerTask.step_carries hstep hcarries' hp hs.offers).1 hsound (by
          change s'.vecPriority.length + waiting s'.vOrphan =
            vecPriority.length + waiting s.vOrphan at hcount
          omega)
      refine ⟨block, ?_, hblock⟩
      simp only [hstep, Option.bind_some]
      exact hrun

variable [Add D] [Mul D] [Div D]

theorem collectTransactions_some (heap : StdHeap (TxPriority D)) (task : MinerTask)
    (hpool : pool.SoundFor P kv.toKernelView) (hP : P.BoundsSigOps) :
    ∃ block, collectTransactions P heap task kv pool = some block ∧
      block.Sound P task.inputs task.pindexPrev pool task.args := by
  have hcontains : ∀ tx ∈ pool.transactions, pool.Contains P tx := fun tx htx =>
    (TxMemPool.mem_transactions hpool.invariant).mp htx
  obtain ⟨order, horder, hv⟩ := (PoolOrder.valid_empty (D := D)).addAll
    (fun tx htx => hpool.sourced (hcontains tx htx))
    (fun tx htx => Transaction.getValueOut_isSome (hpool.checked (hcontains tx htx)))
  have hcarries : order.Carries (pool.Offers P) :=
    PoolOrder.carries_empty.addAll horder fun tx htx htakes => ⟨hcontains tx htx, by
      simp only [ChainView.takes, Bool.not_eq_true', Bool.or_eq_false_iff] at htakes
      exact htakes.1.1⟩
  have hwaiting : waiting order.vOrphan ≤ order.vOrphan.length := List.countP_le_length
  unfold collectTransactions
  rw [horder]
  refine task.run_some heap hpool hP ⟨hv.whole, hv.dependers⟩ ⟨hcarries.orphans, hcarries.queue⟩
    (BlockAssembly.sound_start pool task.args) ?_
  change order.vecPriority.length + waiting order.vOrphan < _
  omega

/-- What the transactions after the beanbase of a template are like. -/
structure SoundTemplate (P : Params) (v : ChainView) (pool : TxMemPool) (args : MinerArgs)
    (txs : List Transaction) (nFees : Int64) : Prop where
  contains : ∀ tx ∈ txs, pool.Contains P tx
  nodup : txs.Nodup
  parents : ∀ before tx after, txs = before ++ tx :: after → ∀ o ∈ tx.prevouts, ∀ txPrev,
    pool.lookup o.hash = some txPrev → txPrev ∈ before
  spendsOnce : (txs.flatMap Transaction.prevouts).Nodup
  connects : ∃ mapTestPool nSigOps, ConnectsInOrder P (v.poolInputs pool) v.pindexBest txs
    mapTestPool nFees nSigOps ∧ 100 + nSigOps < maxBlockSigops
  size : 1000 + (txs.map Transaction.serializeSize).sum < args.nBlockMaxSize.toNat ∨
    txs = [] ∧ args.nBlockMaxSize = 1000

theorem BlockAssembly.Sound.soundTemplate {args : MinerArgs} {s : BlockAssembly}
    (hpool : pool.SoundFor P kv.toKernelView)
    (hs : s.Sound P (kv.poolInputs pool) kv.pindexBest pool args) :
    SoundTemplate P kv pool args s.vtx s.nFees := by
  obtain ⟨nSigOps, hconnects, hsigops, hlimit⟩ := hs.connects
  refine ⟨fun tx htx => (hs.offers tx htx).contains, hconnects.nodup hpool hs.offers, ?_,
    hconnects.nodup_prevouts hpool hs.offers, ⟨_, nSigOps, hconnects, hsigops ▸ hlimit⟩, ?_⟩
  · intro before tx after hsplit o ho txPrev hprev
    exact hconnects.parents hpool hs.offers hsplit ho hprev
  · rw [← hs.size]
    rcases hs.room with hnil | hlt
    · have hmin : (1000 : UInt32) ≤ args.nBlockMaxSize := by
        unfold MinerArgs.nBlockMaxSize
        generalize min (UInt32.ofNat (maxBlockSize - 1000)) _ = nSize
        change 1000 ≤ if (1000 : UInt32) ≤ nSize then nSize else 1000
        split_ifs with hle
        · exact hle
        · exact UInt32.le_refl _
      rcases lt_or_eq_of_le (UInt32.le_iff_toNat_le.mp hmin) with hlt | heq
      · left
        rw [hs.size, hnil]
        exact hlt
      · exact Or.inr ⟨hnil, UInt32.toNat_inj.mp heq.symm⟩
    · exact Or.inl hlt

/-- `CreateNewBlock` fails only for the beanbase, and what it puts after the beanbase connects in
order and stays within the limits. -/
theorem createNewBlock_template (heap : StdHeap (TxPriority D)) (args : MinerArgs)
    (fProofOfStake : Bool) (hpool : pool.SoundFor P kv.toKernelView) (hP : P.BoundsSigOps) :
    (createNewBlock P heap args kv pool fProofOfStake = none ↔
        newBeanbase args kv fProofOfStake = none) ∧
      ∀ block nFees, createNewBlock P heap args kv pool fProofOfStake = some (block, nFees) →
        ∃ beanbase txs, block.vtx = beanbase :: txs ∧ SoundTemplate P kv pool args txs nFees := by
  unfold createNewBlock
  cases newBeanbase args kv fProofOfStake with
  | none =>
    refine ⟨iff_of_true rfl rfl, fun block nFees h => ?_⟩
    cases h
  | some txNew =>
    obtain ⟨s, hcollect, hs⟩ := collectTransactions_some heap ⟨args, kv.poolInputs pool,
      kv.pindexBest, kv.nAdjustedTime, fProofOfStake, txNew.nTime⟩ hpool hP
    simp only [Option.bind_eq_bind, Option.bind_some, hcollect, Option.pure_def]
    refine ⟨iff_of_false (Option.some_ne_none _) (Option.some_ne_none _), fun block nFees h => ?_⟩
    obtain ⟨rfl, rfl⟩ := Prod.mk.inj (Option.some_injective _ h)
    exact ⟨_, s.vtx, rfl, hs.soundTemplate hpool⟩

end

namespace Sample

def minerParams : Params := params.withScripts scriptInput.crypto

def minerArgs (blockMaxSize : Option Int64) : MinerArgs where
  blockMaxSize := blockMaxSize
  blockPrioritySize := none
  blockMinSize := none
  nMinTxFee := minTxFee
  beanbaseFlags := []
  reservedKey := none

def minerView : ChainView where
  toKernelView := (chainNode 11).kernelView (diskIo longFiles)
    (indexOfList ((List.range 13).map longPtr))
  nBestHeight := 11
  nAdjustedTime := 1000
  inMemPool _ := false

/-- It spends the output of `rivalSpend`; its own one counts for 21 signature operations. -/
def childSpend : Transaction := spend 50 [⟨41, 0⟩] [⟨80000 * bean, [0x51, 0x53, 0xae, 0xac]⟩]

def minerPool : TxMemPool :=
  (TxMemPool.empty.addUnchecked (minerParams.txHash rivalSpend) rivalSpend).addUnchecked
    (minerParams.txHash childSpend) childSpend

theorem soundFor_empty : TxMemPool.empty.SoundFor minerParams minerView.toKernelView := by
  refine ⟨TxMemPool.invariant_empty _, ?_, ?_, ?_⟩
  · intro h tx htx
    cases htx
  · intro h tx htx
    cases htx
  · intro h tx htx
    cases htx

theorem soundFor_minerPool : minerPool.SoundFor minerParams minerView.toKernelView := by
  have hentry : ∀ {h tx}, minerPool.lookup h = some tx → (⟨h, tx⟩ : Σ _ : Uint256, Transaction) ∈
      minerPool.mapTx.entries := fun hl => AList.mem_lookup_iff.mp hl
  have hinv : (TxMemPool.empty.addUnchecked (minerParams.txHash rivalSpend)
      rivalSpend).Invariant minerParams :=
    (TxMemPool.invariant_empty minerParams).addUnchecked (by decide) (by decide)
      (by decide)
  refine ⟨hinv.addUnchecked (by decide) (by decide) (by decide), ?_, ?_, ?_⟩
  · intro h tx hl
    have hall : ∀ e ∈ minerPool.mapTx.entries, e.2.checkTransaction = true := by decide
    exact hall _ (hentry hl)
  · intro h tx hl
    have hall : ∀ e ∈ minerPool.mapTx.entries, minerView.readTxIndex e.1 = none := by
      decide
    exact hall _ (hentry hl)
  · intro h tx hl
    have hall : ∀ e ∈ minerPool.mapTx.entries, ∀ o ∈ e.2.prevouts,
        (minerView.readPrevout o).isSome = true ∨ (minerPool.lookup o.hash).isSome = true := by
      decide
    exact hall _ (hentry hl)

end Sample

open Sample

/-- A transaction and one that depends on it go into the block, with their fees. -/
theorem createNewBlock_template_minerPool :
    ∃ block, createNewBlock minerParams (heap (TxPriority ℚ)) (minerArgs none) minerView minerPool
        true = some (block, 20000 * bean) ∧ block.vtx.tail = [rivalSpend, childSpend] ∧
      childSpend.getLegacySigOpCount minerParams = 21 ∧
      SoundTemplate minerParams minerView minerPool (minerArgs none) [rivalSpend, childSpend]
        (20000 * bean) := by
  have hrun : (createNewBlock minerParams (heap (TxPriority ℚ)) (minerArgs none) minerView minerPool
      true).map (fun r => (r.1.vtx.tail, r.2)) = some ([rivalSpend, childSpend], 20000 * bean) := by
    decide +kernel
  obtain ⟨⟨block, nFees⟩, hmade, heq⟩ := Option.map_eq_some_iff.mp hrun
  obtain ⟨hvtx, rfl⟩ := Prod.mk.inj heq
  obtain ⟨beanbase, txs, hsplit, hsound⟩ := (createNewBlock_template (heap (TxPriority ℚ))
    (minerArgs none) true soundFor_minerPool (boundsSigOps_withScripts _ _)).2 block _ hmade
  rw [hsplit, List.tail_cons] at hvtx
  rw [hvtx] at hsplit hsound
  exact ⟨block, hmade, by rw [hsplit, List.tail_cons], by decide, hsound⟩

/-- With the least block size the reserve alone fills the block, which is not below the limit. -/
theorem createNewBlock_least :
    TxMemPool.empty.SoundFor minerParams minerView.toKernelView ∧ minerParams.BoundsSigOps ∧
      ∃ block nFees, createNewBlock minerParams (heap (TxPriority ℚ)) (minerArgs (some 1000))
          minerView TxMemPool.empty true = some (block, nFees) ∧
        ¬1000 + (block.vtx.tail.map Transaction.serializeSize).sum <
          (minerArgs (some 1000)).nBlockMaxSize.toNat := by
  have hrun : (createNewBlock minerParams (heap (TxPriority ℚ)) (minerArgs (some 1000)) minerView
      TxMemPool.empty true).map (fun r => r.1.vtx.tail) = some [] := by decide
  obtain ⟨⟨block, nFees⟩, hmade, hvtx⟩ := Option.map_eq_some_iff.mp hrun
  refine ⟨soundFor_empty, (boundsSigOps_withScripts _ _), block, nFees, hmade, ?_⟩
  rw [show block.vtx.tail = [] from hvtx]
  decide

end Beancash
