import Beancash.ConnectSpec
import Beancash.MemorySentinel

namespace Beancash

open Ledger

/-- What was written to the block files. Every position in one fits a `CDiskTxPos`. -/
structure Files where
  block : FileNumber → UInt32 → Option Block
  bounded : ∀ {nFile nBlockPos b}, block nFile nBlockPos = some b →
    nBlockPos.toNat + b.serializeSize < 2 ^ 32

namespace Files

variable (files : Files)

def blockOf (e : BlockIndex) : Option Block := files.block e.nFile e.nBlockPos

/-- The transaction that starts at a position. -/
def txAt (pos : TxPos) : Option Transaction :=
  (files.block pos.nFile pos.nBlockPos).bind fun b =>
    (txPositions pos.nFile pos.nBlockPos (firstTxPos pos.nBlockPos b) b.vtx).lookup pos

/-- What an output of it is worth. -/
def value : Valuation := fun _ pos n =>
  ((pos.bind files.txAt).bind fun tx => tx.vout[n]?).elim 0 fun o => o.nValue.toInt

end Files

theorem mem_txPositions {nFile : FileNumber} {nBlockPos nTxPos : UInt32} {txs : List Transaction}
    (hsum : nTxPos.toNat + (txs.map Transaction.serializeSize).sum < 2 ^ 32) {pos : TxPos}
    {tx : Transaction} (h : (pos, tx) ∈ txPositions nFile nBlockPos nTxPos txs) :
    pos.nFile = nFile ∧ pos.nBlockPos = nBlockPos ∧ nTxPos ≤ pos.nTxPos ∧
      (txPositions nFile nBlockPos nTxPos txs).lookup pos = some tx := by
  induction txs generalizing nTxPos with
  | nil => cases h
  | cons tx' txs ih =>
    rw [txPositions] at h ⊢
    rw [List.map_cons, List.sum_cons] at hsum
    rcases List.mem_cons.mp h with heq | h
    · obtain ⟨rfl, rfl⟩ := Prod.mk.inj heq
      exact ⟨rfl, rfl, UInt32.le_refl _, List.lookup_cons_self⟩
    · have hsize : 0 < tx'.serializeSize := by
        unfold Transaction.serializeSize
        omega
      have hnext : (nTxPos + UInt32.ofNat tx'.serializeSize).toNat =
          nTxPos.toNat + tx'.serializeSize := by
        rw [UInt32.toNat_add, UInt32.toNat_ofNat']
        omega
      obtain ⟨hf, hb, hle, hlookup⟩ := ih (by omega) h
      rw [UInt32.le_iff_toNat_le, hnext] at hle
      refine ⟨hf, hb, UInt32.le_iff_toNat_le.mpr (by omega), ?_⟩
      -- what comes later starts later
      have hne : (pos == (⟨nFile, nBlockPos, nTxPos⟩ : TxPos)) = false := by
        rw [beq_eq_false_iff_ne]
        rintro rfl
        change nTxPos.toNat + tx'.serializeSize ≤ nTxPos.toNat at hle
        omega
      rw [List.lookup_cons, hne]
      exact hlookup

theorem Files.txAt_of_mem {files : Files} {e : BlockIndex} {b : Block}
    (hb : files.blockOf e = some b) {pos : TxPos} {tx : Transaction}
    (h : (pos, tx) ∈ blockTxs e b) : files.txAt pos = some tx ∧ pos ≠ TxPos.memory := by
  have hbound := files.bounded hb
  unfold Block.serializeSize at hbound
  have hfirst : (firstTxPos e.nBlockPos b).toNat =
      e.nBlockPos.toNat + 80 + getSizeOfCompactSize b.vtx.length := by
    have hzero : getSizeOfCompactSize 0 = 1 := rfl
    rw [firstTxPos, hzero, UInt32.toNat_add, UInt32.toNat_ofNat']
    omega
  obtain ⟨hf, hbp, hle, hlookup⟩ := mem_txPositions (by omega) h
  refine ⟨?_, ?_⟩
  · unfold Files.txAt
    rw [hf, hbp, show files.block e.nFile e.nBlockPos = some b from hb]
    exact hlookup
  · rintro rfl
    rw [UInt32.le_iff_toNat_le, hfirst] at hle
    change _ ≤ 1 at hle
    omega

/-- A transaction is read as it was written. -/
def BlockIo.ReadsTxs (io : BlockIo) (files : Files) : Prop :=
  ∀ {pos tx}, io.readTx pos = some tx → files.txAt pos = some tx

/-- What a block has passed before its entry is made: `CheckBlock`, and of `AcceptBlock` the
checks that the blocks of a branch are kept apart by. -/
structure Accepted (P : Params) (b : Block) (pindexPrev : BlockPtr) : Prop where
  checked : ∃ nAdjustedTime, b.checkBlock P nAdjustedTime true true true true = true
  work : b.isProofOfWork = true → pindexPrev.length ≤ lastPowBlock
  beanbase : beanbaseHeightMatches b pindexPrev.length = true

/-- `mapBlockIndex`: entries with different hashes, none of them null, whose parents are
entries too, up to the genesis block. -/
structure BlockTree (P : Params) (files : Files) where
  entries : Set BlockPtr
  parent : ∀ {e d p}, e :: d :: p ∈ entries → d :: p ∈ entries
  hash_injOn : entries.InjOn BlockPtr.hash
  hash_ne_zero : ∀ {p}, p ∈ entries → BlockPtr.hash p ≠ 0
  genesis : ∀ {e p}, e :: p ∈ entries → (e.phashBlock = P.hashGenesisBlock ↔ p = [])
  nHeight_lt : ∀ {p}, p ∈ entries → BlockPtr.nHeight p < 2 ^ 31
  stored : ∀ {e p}, e :: p ∈ entries → (files.blockOf e).isSome = true
  linked : ∀ {e p b}, e :: p ∈ entries → files.blockOf e = some b →
    b.hash P = e.phashBlock ∧ b.header = e.header ∧ b.header.hashPrevBlock = BlockPtr.hash p
  accepted : ∀ {e d p b}, e :: d :: p ∈ entries → files.blockOf e = some b →
    Accepted P b (d :: p)

/-- The transactions of a branch with their positions, but for those of the genesis block. -/
def chainTxs (files : Files) : BlockPtr → List (TxPos × Transaction)
  | e :: d :: p => chainTxs files (d :: p) ++ (files.blockOf e).elim [] (blockTxs e)
  | _ => []

def chainLedger (P : Params) (files : Files) (p : BlockPtr) : List (Tx Uint256 TxPos) :=
  toLedger P (chainTxs files p)

def chainIndex (P : Params) (files : Files) (p : BlockPtr) : Index Uint256 TxPos :=
  connectAll (fun _ => none) (chainLedger P files p)

/-- All blocks of the branch could be connected one after the other. -/
def ChainConnectable (P : Params) (files : Files) (p : BlockPtr) : Prop :=
  ConnectableAll (fun _ => none) (chainLedger P files p)

section Chain

variable {P : Params} {files : Files}

theorem chainLedger_cons {e d : BlockIndex} {p : BlockPtr} {b : Block}
    (hb : files.blockOf e = some b) : chainLedger P files (e :: d :: p) =
      chainLedger P files (d :: p) ++ blockLedger P e b := by
  unfold chainLedger
  rw [chainTxs, hb, toLedger, List.map_append]
  rfl

theorem chainIndex_cons {e d : BlockIndex} {p : BlockPtr} {b : Block}
    (hb : files.blockOf e = some b) : chainIndex P files (e :: d :: p) =
      connectAll (chainIndex P files (d :: p)) (blockLedger P e b) := by
  unfold chainIndex
  rw [chainLedger_cons hb, connectAll_append]

theorem chainConnectable_cons {e d : BlockIndex} {p : BlockPtr} {b : Block}
    (hb : files.blockOf e = some b) : ChainConnectable P files (e :: d :: p) ↔
      ChainConnectable P files (d :: p) ∧
        ConnectableAll (chainIndex P files (d :: p)) (blockLedger P e b) := by
  unfold ChainConnectable
  rw [chainLedger_cons hb, connectableAll_append]
  rfl

theorem ChainConnectable.describes {p : BlockPtr} (h : ChainConnectable P files p) :
    Describes (chainIndex P files p) (chainLedger P files p) :=
  describes_empty.connectAll h

theorem ChainConnectable.of_suffix {p q : BlockPtr} (h : ChainConnectable P files p)
    (hq : q <:+ p) : ChainConnectable P files q := by
  induction p with
  | nil => exact List.suffix_nil.mp hq ▸ h
  | cons e p ih =>
    rcases List.suffix_cons_iff.mp hq with rfl | hq
    · exact h
    · refine ih ?_ hq
      cases p with
      | nil => trivial
      | cons d p =>
        unfold ChainConnectable chainLedger toLedger at h ⊢
        rw [chainTxs, List.map_append] at h
        exact (connectableAll_append.mp h).1

theorem mem_chainTxs {p : BlockPtr} {tx : TxPos × Transaction} (h : tx ∈ chainTxs files p) :
    ∃ e d q b, e :: d :: q <:+ p ∧ files.blockOf e = some b ∧ tx ∈ blockTxs e b := by
  induction p with
  | nil => cases h
  | cons e p ih =>
    cases p with
    | nil => cases h
    | cons d p =>
      rw [chainTxs] at h
      rcases List.mem_append.mp h with h | h
      · obtain ⟨e', d', q, b, hsuf, hb, hmem⟩ := ih h
        exact ⟨e', d', q, b, hsuf.trans (List.suffix_cons e _), hb, hmem⟩
      · cases hb : files.blockOf e with
        | none =>
          rw [hb] at h
          cases h
        | some b =>
          rw [hb] at h
          exact ⟨e, d, p, b, List.suffix_rfl, hb, h⟩

theorem mem_chainTxs_of_suffix {c p : BlockPtr} (hc : c <:+ p) {tx : TxPos × Transaction}
    (htx : tx ∈ chainTxs files c) : tx ∈ chainTxs files p := by
  induction p with
  | nil => exact List.suffix_nil.mp hc ▸ htx
  | cons e p ih =>
    rcases List.suffix_cons_iff.mp hc with rfl | hc
    · exact htx
    · cases p with
      | nil => exact absurd (ih hc) (by simp [chainTxs])
      | cons d p => exact List.mem_append_left _ (ih hc)

theorem ChainConnectable.avoids {p : BlockPtr} (h : ChainConnectable P files p) :
    Avoids (chainIndex P files p) TxPos.memory := by
  intro hash r hr hpos
  obtain ⟨ltx, hltx, rfl⟩ := (h.describes.known hash).mp (by rw [hr]; exact Option.some_ne_none r)
  obtain ⟨r', hr', hpos', _⟩ := h.describes.record ltx hltx
  obtain rfl : r = r' := Option.some_injective _ (hr.symm.trans hr')
  obtain ⟨tx, htx, rfl⟩ := List.mem_map.mp hltx
  obtain ⟨e, d, q, b, _, hb, hmem⟩ := mem_chainTxs htx
  exact (Files.txAt_of_mem hb hmem).2 (Option.some_injective _ (hpos'.symm.trans hpos))

end Chain

namespace BlockTree

variable {P : Params} {files : Files} {tree : BlockTree P files}

theorem ne_nil {p : BlockPtr} (h : p ∈ tree.entries) : p ≠ [] := by
  rintro rfl
  exact tree.hash_ne_zero h rfl

theorem mem_of_suffix {p q : BlockPtr} (h : p ∈ tree.entries) (hq : q <:+ p) (hne : q ≠ []) :
    q ∈ tree.entries := by
  induction p with
  | nil => exact absurd rfl (ne_nil h)
  | cons e p ih =>
    rcases List.suffix_cons_iff.mp hq with rfl | hq
    · exact h
    · cases p with
      | nil => exact absurd (List.suffix_nil.mp hq) hne
      | cons d p => exact ih (tree.parent h) hq

theorem hash_ne_of_suffix {e : BlockIndex} {p q : BlockPtr} (h : e :: p ∈ tree.entries)
    (hq : q <:+ p) (hne : q ≠ []) : BlockPtr.hash q ≠ e.phashBlock := by
  intro heq
  have hmem := mem_of_suffix h (hq.trans (List.suffix_cons e p)) hne
  obtain rfl := tree.hash_injOn hmem h heq
  have hlen := hq.length_le
  rw [List.length_cons] at hlen
  omega

/-- All transactions of accepted blocks. -/
def txs (tree : BlockTree P files) : Set Transaction :=
  {tx | ∃ e p b, e :: p ∈ tree.entries ∧ files.blockOf e = some b ∧ tx ∈ b.vtx}

theorem mem_txs_of_mem_chainTxs {p : BlockPtr} (hp : p ∈ tree.entries) {tx : TxPos × Transaction}
    (h : tx ∈ chainTxs files p) : tx.2 ∈ tree.txs := by
  obtain ⟨e, d, q, b, hsuf, hb, hmem⟩ := mem_chainTxs h
  refine ⟨e, d :: q, b, tree.mem_of_suffix hp hsuf (by simp), hb, ?_⟩
  rw [← blockTxs_map_snd e b]
  exact List.mem_map_of_mem hmem

/-- A block that can be connected on top of its branch brings new transaction hashes. -/
def BringsNewTxids (tree : BlockTree P files) : Prop :=
  ∀ {e d p b}, e :: d :: p ∈ tree.entries → files.blockOf e = some b →
    ChainConnectable P files (d :: p) →
    SpendableAll (chainIndex P files (d :: p)) (blockLedger P e b) →
    ConnectableAll (chainIndex P files (d :: p)) (blockLedger P e b)

theorem checkedBlock {e d : BlockIndex} {p : BlockPtr} {b : Block}
    (h : e :: d :: p ∈ tree.entries) (hb : files.blockOf e = some b) : CheckedBlock P b := by
  obtain ⟨_, hcheck⟩ := (tree.accepted h hb).checked
  exact Block.checkedBlock hcheck

theorem mem_blockLedger {e : BlockIndex} {b : Block} {ltx : Tx Uint256 TxPos}
    (h : ltx ∈ blockLedger P e b) :
    ∃ tx, tx ∈ blockTxs e b ∧ tx.2 ∈ b.vtx ∧ ltx = ledgerTx P tx.1 tx.2 := by
  obtain ⟨tx, htx, rfl⟩ := List.mem_map.mp h
  refine ⟨tx, htx, ?_, rfl⟩
  rw [← blockTxs_map_snd e b]
  exact List.mem_map_of_mem htx

theorem head?_of_spends_eq_nil {b : Block} (h : CheckedBlock P b) {tx : Transaction}
    (htx : tx ∈ b.vtx) (hspends : tx.spends = []) : b.vtx.head? = some tx := by
  have hbase : tx.isBeanBase = true := by
    by_contra hbase
    rw [Bool.not_eq_true] at hbase
    have hcheck := h.transactions tx htx
    simp only [Transaction.checkTransaction, Bool.and_eq_true, Bool.not_eq_true'] at hcheck
    rw [Transaction.spends, hbase, if_neg Bool.false_ne_true, Transaction.prevouts,
      List.map_eq_nil_iff] at hspends
    rw [hspends] at hcheck
    cases hcheck.1.1.1.1.1
  have hbases := h.beanbases
  cases hvtx : b.vtx with
  | nil => rw [hvtx] at htx; cases htx
  | cons first rest =>
    rw [hvtx] at hbases htx
    simp only [checkBeanBases, Bool.and_eq_true, List.all_eq_true, Bool.not_eq_true'] at hbases
    rcases List.mem_cons.mp htx with rfl | htx
    · rfl
    · rw [hbases.2 tx htx] at hbase
      cases hbase

/-- With a hash that is free of collisions on the transactions of the tree: a transaction that
spends something cannot be connected twice, and two beanbases differ in their heights. -/
theorem bringsNewTxids_of_injOn (hP : tree.txs.InjOn P.txHash) : tree.BringsNewTxids := by
  intro e d p b he hb hconn hs
  have hchecked := checkedBlock he hb
  refine hconn.describes.connectableAll_of_spendableAll hs ?_ fun ltx' hltx' ltx hltx hid => ?_
  · rw [blockLedger_ids]
    exact hchecked.txids
  · obtain ⟨tx', _, htx', rfl⟩ := mem_blockLedger hltx'
    obtain ⟨tx, htx, rfl⟩ := List.mem_map.mp hltx
    obtain ⟨e₁, d₁, q, b₁, hsuf, hb₁, hmem⟩ := mem_chainTxs htx
    have he₁ := mem_of_suffix (tree.parent he) hsuf (by simp)
    have htx₁ : tx.2 ∈ b₁.vtx := by
      rw [← blockTxs_map_snd e₁ b₁]
      exact List.mem_map_of_mem hmem
    have heq : tx.2 = tx'.2 := hP ⟨e₁, d₁ :: q, b₁, he₁, hb₁, htx₁⟩
      ⟨e, d :: p, b, he, hb, htx'⟩ hid
    refine ⟨?_, fun hnil => ?_⟩
    · simp only [ledgerTx, heq]
    · -- a beanbase: it would start with two heights
      have hspends : tx'.2.spends = [] := List.map_eq_nil_iff.mp hnil
      have hhead := head?_of_spends_eq_nil hchecked htx' hspends
      have hhead₁ := head?_of_spends_eq_nil (checkedBlock he₁ hb₁) htx₁ (heq ▸ hspends)
      have hlen := hsuf.length_le
      have hheight := tree.nHeight_lt he
      have hheight₁ := tree.nHeight_lt he₁
      simp only [BlockPtr.nHeight_cons] at hheight hheight₁
      simp only [List.length_cons] at hlen
      refine beanbase_ne_of_heights hheight hheight₁ (tree.accepted he hb).beanbase
        (tree.accepted he₁ hb₁).beanbase ?_ (hhead.trans (heq ▸ hhead₁.symm))
      simp only [List.length_cons]
      omega

/-- The transaction hashes of every branch are pairwise distinct. -/
def DistinctTxids (tree : BlockTree P files) : Prop :=
  ∀ p ∈ tree.entries, ((chainLedger P files p).map Tx.id).Nodup

theorem bringsNewTxids_of_distinctTxids (hd : tree.DistinctTxids) : tree.BringsNewTxids := by
  intro e d p b he hb hconn hs
  have hids := hd _ he
  rw [chainLedger_cons hb, List.map_append, List.nodup_append] at hids
  obtain ⟨_, hids, hdisj⟩ := hids
  refine Ledger.connectableAll_of_spendableAll hs (fun ltx hltx => ?_) hids
  by_contra hknown
  obtain ⟨ltx', hltx', hid⟩ := (hconn.describes.known ltx.id).mp hknown
  exact hdisj _ (List.mem_map_of_mem hltx') _ (List.mem_map_of_mem hltx) hid

end BlockTree

/-- Whether a block has passed what `Accepted` asks for, at some adjusted time. -/
def acceptedCheck (P : Params) (nAdjustedTime : ℤ) (b : Block) (pindexPrev : BlockPtr) : Bool :=
  b.checkBlock P nAdjustedTime true true true true &&
    (!b.isProofOfWork || decide (pindexPrev.length ≤ lastPowBlock)) &&
    beanbaseHeightMatches b pindexPrev.length

theorem accepted_of_acceptedCheck {P : Params} {nAdjustedTime : ℤ} {b : Block}
    {pindexPrev : BlockPtr} (h : acceptedCheck P nAdjustedTime b pindexPrev = true) :
    Accepted P b pindexPrev := by
  simp only [acceptedCheck, Bool.and_eq_true, Bool.or_eq_true, decide_eq_true_eq] at h
  obtain ⟨⟨hcheck, hwork⟩, hheight⟩ := h
  refine ⟨⟨nAdjustedTime, hcheck⟩, fun hpow => hwork.resolve_left ?_, hheight⟩
  rw [hpow]
  decide

/-- Whether one pointer of a list may be in the tree that the list makes up. -/
def entryCheckAt (P : Params) (nAdjustedTime : ℤ) (files : Files) (l : List BlockPtr) :
    BlockPtr → Bool
  | [] => false
  | e :: p =>
    decide (e.phashBlock ≠ 0) && decide (e.phashBlock = P.hashGenesisBlock ↔ p = []) &&
      decide (p.length < 2 ^ 31) && (p.isEmpty || decide (p ∈ l)) &&
      (l.all fun q => decide (BlockPtr.hash q = e.phashBlock → q = e :: p)) &&
      (files.blockOf e).any fun b => decide (b.hash P = e.phashBlock) &&
        decide (b.header = e.header) && decide (b.header.hashPrevBlock = BlockPtr.hash p) &&
        (p.isEmpty || acceptedCheck P nAdjustedTime b p)

/-- The same at the adjusted time 0. -/
abbrev entryCheck (P : Params) (files : Files) (l : List BlockPtr) : BlockPtr → Bool :=
  entryCheckAt P 0 files l

theorem entryCheckAt_cons {P : Params} {nAdjustedTime : ℤ} {files : Files} {l : List BlockPtr}
    {e : BlockIndex} {p : BlockPtr} (h : entryCheckAt P nAdjustedTime files l (e :: p) = true) :
    e.phashBlock ≠ 0 ∧ (e.phashBlock = P.hashGenesisBlock ↔ p = []) ∧ p.length < 2 ^ 31 ∧
      (p = [] ∨ p ∈ l) ∧ (∀ q ∈ l, BlockPtr.hash q = e.phashBlock → q = e :: p) ∧
      ∃ b, files.blockOf e = some b ∧ b.hash P = e.phashBlock ∧ b.header = e.header ∧
        b.header.hashPrevBlock = BlockPtr.hash p ∧ (p = [] ∨ Accepted P b p) := by
  simp only [entryCheckAt, Bool.and_eq_true, Bool.or_eq_true, decide_eq_true_eq,
    List.all_eq_true, List.isEmpty_iff, Option.any_eq_true] at h
  obtain ⟨⟨⟨⟨⟨hne, hgen⟩, hlen⟩, hpar⟩, hinj⟩, b, hb, ⟨⟨hhash, hheader⟩, hprev⟩, hacc⟩ := h
  exact ⟨hne, hgen, hlen, hpar, hinj, b, hb, hhash, hheader, hprev,
    hacc.imp_right accepted_of_acceptedCheck⟩

/-- A list of pointers that passes the check is a tree. -/
def BlockTree.ofListAt {P : Params} {files : Files} (nAdjustedTime : ℤ) (l : List BlockPtr)
    (h : l.all (entryCheckAt P nAdjustedTime files l) = true) : BlockTree P files where
  entries := {p | p ∈ l}
  parent he := by
    obtain ⟨_, _, _, hpar, _⟩ := entryCheckAt_cons (List.all_eq_true.mp h _ he)
    exact hpar.resolve_left (by simp)
  hash_injOn := by
    rintro (_ | ⟨e, p⟩) hp q hq heq
    · cases List.all_eq_true.mp h _ hp
    · obtain ⟨_, _, _, _, hinj, _⟩ := entryCheckAt_cons (List.all_eq_true.mp h _ hp)
      exact (hinj q hq heq.symm).symm
  hash_ne_zero := by
    rintro (_ | ⟨e, p⟩) hp
    · cases List.all_eq_true.mp h _ hp
    · exact (entryCheckAt_cons (List.all_eq_true.mp h _ hp)).1
  genesis he := (entryCheckAt_cons (List.all_eq_true.mp h _ he)).2.1
  nHeight_lt := by
    rintro (_ | ⟨e, p⟩) hp
    · cases List.all_eq_true.mp h _ hp
    · exact (entryCheckAt_cons (List.all_eq_true.mp h _ hp)).2.2.1
  stored he := by
    obtain ⟨_, _, _, _, _, b, hb, _⟩ := entryCheckAt_cons (List.all_eq_true.mp h _ he)
    rw [hb]
    rfl
  linked he hb := by
    obtain ⟨_, _, _, _, _, b, hb', hhash, hheader, hprev, _⟩ :=
      entryCheckAt_cons (List.all_eq_true.mp h _ he)
    obtain rfl := Option.some_injective _ (hb.symm.trans hb')
    exact ⟨hhash, hheader, hprev⟩
  accepted he hb := by
    obtain ⟨_, _, _, _, _, b, hb', _, _, _, hacc⟩ :=
      entryCheckAt_cons (List.all_eq_true.mp h _ he)
    obtain rfl := Option.some_injective _ (hb.symm.trans hb')
    exact hacc.resolve_left (by simp)

def BlockTree.ofList {P : Params} {files : Files} (l : List BlockPtr)
    (h : l.all (entryCheck P files l) = true) : BlockTree P files := ofListAt 0 l h

theorem BlockTree.mem_ofListAt {P : Params} {files : Files} {nAdjustedTime : ℤ}
    {l : List BlockPtr} {h : l.all (entryCheckAt P nAdjustedTime files l) = true} {p : BlockPtr} :
    p ∈ (BlockTree.ofListAt nAdjustedTime l h).entries ↔ p ∈ l := Iff.rfl

theorem BlockTree.mem_ofList {P : Params} {files : Files} {l : List BlockPtr}
    {h : l.all (entryCheck P files l) = true} {p : BlockPtr} :
    p ∈ (BlockTree.ofList l h).entries ↔ p ∈ l := Iff.rfl

namespace Sample

/-- The files that hold the blocks of a list, each where its entry says. -/
def files (blocks : List Block)
    (h : ∀ b ∈ blocks, (entry b).nBlockPos.toNat + b.serializeSize < 2 ^ 32) : Files where
  block nFile nBlockPos := blocks.find? fun b =>
    decide ((entry b).nFile = nFile) && decide ((entry b).nBlockPos = nBlockPos)
  bounded {nFile nBlockPos b} hb := by
    have hpos := List.find?_some hb
    simp only [Bool.and_eq_true, decide_eq_true_eq] at hpos
    rw [← hpos.2]
    exact h b (List.mem_of_find?_eq_some hb)

end Sample

end Beancash
