import Beancash.Consistency
import Beancash.Kernel

namespace Beancash

open Ledger

/-- The whole of the block files can be read. -/
structure BlockIo.ReadsAll (io : BlockIo) (files : Files) : Prop where
  readTx : io.readTx = files.txAt
  readHeader : io.readHeader = fun nFile nBlockPos => (files.block nFile nBlockPos).map Block.header

variable {P : Params} {files : Files} {tree : BlockTree P files} {p : BlockPtr}

/-- The index of a node finds just the blocks of its tree. -/
def BlockTree.IndexedBy (tree : BlockTree P files) (mapBlockIndex : MapBlockIndex) : Prop :=
  ∀ hash q, mapBlockIndex hash = some q ↔ q ∈ tree.entries ∧ BlockPtr.hash q = hash

theorem mainNext_of_suffix (hp : p ∈ tree.entries) {d : BlockIndex} {q : BlockPtr}
    (hq : d :: q <:+ p) (hne : q ≠ []) : mainNext p (BlockPtr.hash q) = d :: q :=
  mainNext_eq_of_hash_ne (fun c r hr _ hlow hlow0 => BlockTree.hash_ne_of_suffix
    (tree.mem_of_suffix hp hr (List.cons_ne_nil c r)) hlow hlow0) hq hne

theorem mainNext_drop (hp : p ∈ tree.entries) {k : ℕ} (hk : k < p.length) :
    mainNext p (BlockPtr.hash (p.drop k)) = if k = 0 then [] else p.drop (k - 1) := by
  cases k with
  | zero =>
    cases p with
    | nil => cases hk
    | cons e p => exact mainNext_self hp
  | succ k =>
    have hdrop := List.drop_eq_getElem_cons (show k < p.length by omega)
    rw [if_neg (Nat.succ_ne_zero k), Nat.add_sub_cancel, hdrop]
    refine mainNext_of_suffix hp (hdrop ▸ List.drop_suffix k p) ?_
    rw [Ne, List.drop_eq_nil_iff]
    omega

theorem Files.txAt_of_mem_chainTxs {pos : TxPos} {tx : Transaction}
    (h : (pos, tx) ∈ chainTxs files p) : files.txAt pos = some tx := by
  obtain ⟨e, d, q, b, _, hb, hmem⟩ := mem_chainTxs h
  exact (Files.txAt_of_mem hb hmem).1

theorem exists_mem_of_readTxIndex {n : Node} (hn : Consistent tree n) {hash : Uint256}
    {r : TxIndex} (h : readTxIndex n.txdb hash = some r) :
    ∃ pos tx, r.pos = some pos ∧ (pos, tx) ∈ chainTxs files n.pindexBest ∧ P.txHash tx = hash := by
  have hdesc := hn.attached.onBranch.connectable.describes
  rw [hn.attached.onBranch.index] at h
  obtain ⟨ltx, hltx, hid⟩ := (hdesc.known hash).mp (by rw [h]; exact Option.some_ne_none r)
  obtain ⟨r', hr', hpos, _⟩ := hdesc.record ltx hltx
  obtain ⟨⟨pos, tx⟩, hmem, rfl⟩ := List.mem_map.mp hltx
  rw [hid, h] at hr'
  obtain rfl := Option.some_injective _ hr'
  exact ⟨pos, tx, hpos, hmem, hid⟩

theorem readPrevout_eq_some_iff {n : Node} {io : BlockIo} (hn : Consistent tree n)
    (hio : io.ReadsAll files) (mapBlockIndex : MapBlockIndex) {prevout : OutPoint} {pos : TxPos}
    {tx : Transaction} {o : TxOut} :
    (n.kernelView io mapBlockIndex).readPrevout prevout = some (pos, tx, o) ↔
      (pos, tx) ∈ chainTxs files n.pindexBest ∧ P.txHash tx = prevout.hash ∧
        tx.vout[prevout.n.toNat]? = some o := by
  have hdesc := hn.attached.onBranch.connectable.describes
  simp only [KernelView.readPrevout, Node.kernelView, hio.readTx, Option.bind_eq_bind,
    Option.bind_eq_some_iff, Option.pure_def, Option.some.injEq, Prod.mk.injEq]
  constructor
  · rintro ⟨r, hr, pos₁, hpos, tx₁, htx, o₁, ho, rfl, rfl, rfl⟩
    obtain ⟨pos₂, tx₂, hpos', hmem, hid⟩ := exists_mem_of_readTxIndex hn hr
    obtain rfl : pos₁ = pos₂ := Option.some_injective _ (hpos.symm.trans hpos')
    rw [Files.txAt_of_mem_chainTxs hmem] at htx
    obtain rfl := Option.some_injective _ htx
    exact ⟨hmem, hid, ho⟩
  · rintro ⟨hmem, hid, ho⟩
    obtain ⟨r, hr, hpos, _⟩ := hdesc.record (ledgerTx P pos tx) (List.mem_map_of_mem hmem)
    change chainIndex P files n.pindexBest (P.txHash tx) = some r at hr
    rw [hid, ← hn.attached.onBranch.index] at hr
    exact ⟨r, hr, pos, hpos, tx, Files.txAt_of_mem_chainTxs hmem, o, ho, rfl, rfl, rfl⟩

namespace Sample

def indexOfList (l : List BlockPtr) : MapBlockIndex := fun hash =>
  l.find? fun q => decide (BlockPtr.hash q = hash)

def diskIo (files : Files) : BlockIo := { blockIo with
  readTx := files.txAt
  readHeader := fun nFile nBlockPos => (files.block nFile nBlockPos).map Block.header }

theorem readsAll_diskIo (files : Files) : (diskIo files).ReadsAll files := ⟨rfl, rfl⟩

end Sample

end Beancash
