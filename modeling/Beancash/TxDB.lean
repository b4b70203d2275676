import Beancash.WriteBatch

namespace Beancash

open KeyValue

structure TxDB (K V : Type) where
  pdb : Store K V
  activeBatch : Option (Batch K V)

/-- `CBatchScanner`, and the flag and the value it points to. -/
structure BatchScanner (V : Type) where
  foundEntry : Bool
  deleted : Bool
  foundValue : Option V

namespace TxDB

variable {K V : Type} [DecidableEq K]

def scanOp (needle : K) (s : BatchScanner V) : WriteOp K V → BatchScanner V
  | .put k v => if k = needle then ⟨true, false, some v⟩ else s
  | .delete k => if k = needle then ⟨true, true, s.foundValue⟩ else s

def scanBatch (b : Batch K V) (k : K) : BatchScanner V :=
  b.foldl (scanOp k) ⟨false, false, none⟩

def read (db : TxDB K V) (k : K) : Option V :=
  match db.activeBatch with
  | none => db.pdb k
  | some b =>
    if (scanBatch b k).deleted then none
    else if (scanBatch b k).foundEntry then (scanBatch b k).foundValue
    else db.pdb k

/-- `Exists`, which falls through to the store also for a key the batch deletes. -/
def contains (db : TxDB K V) (k : K) : Bool :=
  match db.activeBatch with
  | none => (db.pdb k).isSome
  | some b =>
    ((scanBatch b k).foundEntry && !(scanBatch b k).deleted) || (db.pdb k).isSome

/-- Within a batch `Write` and `Erase` are queued, outside of one they go to the store. -/
def perform (db : TxDB K V) (op : WriteOp K V) : TxDB K V :=
  match db.activeBatch with
  | none => { db with pdb := op.apply db.pdb }
  | some b => { db with activeBatch := some (b ++ [op]) }

def write (db : TxDB K V) (k : K) (v : V) : TxDB K V := db.perform (.put k v)

def erase (db : TxDB K V) (k : K) : TxDB K V := db.perform (.delete k)

def txnBegin (db : TxDB K V) : TxDB K V := { db with activeBatch := some [] }

/-- The batch is written as a whole or, when `pdb->Write` fails, not at all; it is gone
in both cases. -/
def txnCommit (db : TxDB K V) (ok : Bool) : TxDB K V :=
  match db.activeBatch with
  | some b => ⟨if ok then applyBatch db.pdb b else db.pdb, none⟩
  | none => db

def txnAbort (db : TxDB K V) : TxDB K V := { db with activeBatch := none }

/-- What a reader of the database sees. -/
def view (db : TxDB K V) : Store K V :=
  match db.activeBatch with
  | none => db.pdb
  | some b => applyBatch db.pdb b

theorem scanBatch_concat (b : Batch K V) (op : WriteOp K V) (k : K) :
    scanBatch (b ++ [op]) k = scanOp k (scanBatch b k) op := by
  simp [scanBatch]

theorem scan_eq_scanBatch (b : Batch K V) (k : K) :
    scan b k = (if (scanBatch b k).foundEntry then
      some (if (scanBatch b k).deleted then none else (scanBatch b k).foundValue) else none) ∧
    ((scanBatch b k).foundEntry = false → (scanBatch b k).deleted = false) := by
  induction b using List.reverseRecOn with
  | nil => exact ⟨rfl, fun _ => rfl⟩
  | append_singleton b op ih =>
    rw [scan_concat, scanBatch_concat]
    cases op with
    | put k' v =>
      by_cases h : k' = k
      · simp [WriteOp.scan, scanOp, h]
      · simpa only [WriteOp.scan, scanOp, h, if_false] using ih
    | delete k' =>
      by_cases h : k' = k
      · simp [WriteOp.scan, scanOp, h]
      · simpa only [WriteOp.scan, scanOp, h, if_false] using ih

theorem scanBatch_foundValue (b : Batch K V) (k : K) :
    (scanBatch b k).foundEntry = true → (scanBatch b k).deleted = false →
      (scanBatch b k).foundValue.isSome = true := by
  induction b using List.reverseRecOn with
  | nil => exact fun h => nomatch h
  | append_singleton b op ih =>
    rw [scanBatch_concat]
    cases op with
    | put k' v =>
      by_cases h : k' = k
      · simp [scanOp, h]
      · simpa only [scanOp, h, if_false] using ih
    | delete k' =>
      by_cases h : k' = k
      · simp [scanOp, h]
      · simpa only [scanOp, h, if_false] using ih

theorem read_eq_view (db : TxDB K V) (k : K) : db.read k = db.view k := by
  rcases db with ⟨pdb, _ | b⟩
  · rfl
  · change _ = applyBatch pdb b k
    rw [← overlay_eq_applyBatch, overlay]
    obtain ⟨hscan, hdel⟩ := scan_eq_scanBatch b k
    rw [hscan]
    simp only [read]
    cases hf : (scanBatch b k).foundEntry with
    | false => simp [hdel hf]
    | true => cases (scanBatch b k).deleted <;> simp

@[simp] theorem view_perform (db : TxDB K V) (op : WriteOp K V) :
    (db.perform op).view = op.apply db.view := by
  rcases db with ⟨pdb, _ | b⟩
  · rfl
  · exact applyBatch_concat pdb b op

@[simp] theorem view_write (db : TxDB K V) (k : K) (v : V) :
    (db.write k v).view = Function.update db.view k (some v) := view_perform _ _

@[simp] theorem view_erase (db : TxDB K V) (k : K) :
    (db.erase k).view = Function.update db.view k none := view_perform _ _

@[simp] theorem view_txnBegin (db : TxDB K V) : db.txnBegin.view = db.pdb := rfl

theorem view_txnCommit (db : TxDB K V) : (db.txnCommit true).view = db.view := by
  rcases db with ⟨pdb, _ | b⟩ <;> rfl

theorem pdb_txnCommit (db : TxDB K V) : (db.txnCommit true).pdb = db.view := by
  rcases db with ⟨pdb, _ | b⟩ <;> rfl

theorem pdb_txnCommit_false (db : TxDB K V) : (db.txnCommit false).pdb = db.pdb := by
  rcases db with ⟨pdb, _ | b⟩ <;> rfl

theorem activeBatch_txnCommit (db : TxDB K V) (ok : Bool) :
    (db.txnCommit ok).activeBatch = none := by
  rcases db with ⟨pdb, _ | b⟩ <;> rfl

theorem pdb_perform {db : TxDB K V} (h : db.activeBatch.isSome = true) (op : WriteOp K V) :
    (db.perform op).pdb = db.pdb ∧ (db.perform op).activeBatch.isSome = true := by
  rcases db with ⟨pdb, _ | b⟩
  · cases h
  · exact ⟨rfl, rfl⟩

/-- A transaction on the store `pdb` in which the operations `ops` were issued. -/
def transaction (pdb : Store K V) (ops : Batch K V) : TxDB K V :=
  ops.foldl perform (txnBegin ⟨pdb, none⟩)

theorem foldl_perform (pdb : Store K V) (ops b : Batch K V) :
    ops.foldl perform ⟨pdb, some b⟩ = ⟨pdb, some (b ++ ops)⟩ := by
  induction ops generalizing b with
  | nil => rw [List.append_nil, List.foldl_nil]
  | cons op ops ih => rw [List.foldl_cons, perform, ih, List.append_assoc, List.singleton_append]

theorem transaction_eq (pdb : Store K V) (ops : Batch K V) :
    transaction pdb ops = ⟨pdb, some ops⟩ := foldl_perform pdb ops []

theorem contains_transaction (pdb : Store K V) (ops : Batch K V) (k : K) :
    (transaction pdb ops).contains k = (((scan ops k).bind id).isSome || (pdb k).isSome) := by
  rw [transaction_eq]
  obtain ⟨hscan, hdel⟩ := scan_eq_scanBatch ops k
  have hval := scanBatch_foundValue ops k
  rw [hscan]
  simp only [contains]
  cases hf : (scanBatch ops k).foundEntry with
  | false => simp
  | true =>
    cases hd : (scanBatch ops k).deleted with
    | true => simp
    | false => simp [hval hf hd]

/-- What `Read` and `Exists` ought to answer of a key: inside the transaction what they
answer once it is committed, and after an abort what the store held before. -/
structure Transparent (pdb : Store K V) (ops : Batch K V) (k : K) : Prop where
  read : (transaction pdb ops).read k = ((transaction pdb ops).txnCommit true).read k
  contains : (transaction pdb ops).contains k = true ↔
    (((transaction pdb ops).txnCommit true).read k).isSome = true
  read_txnAbort : (transaction pdb ops).txnAbort.read k = pdb k
  contains_txnAbort : (transaction pdb ops).txnAbort.contains k = (pdb k).isSome

/-- `Exists` is wrong about just those keys of the store that the transaction erased last. -/
theorem transparent_iff (pdb : Store K V) (ops : Batch K V) (k : K) :
    Transparent pdb ops k ↔ scan ops k ≠ some none ∨ pdb k = none := by
  have hread : ((transaction pdb ops).txnCommit true).read k = (scan ops k).getD (pdb k) := by
    rw [read_eq_view, view_txnCommit, transaction_eq]
    exact (congrFun (overlay_eq_applyBatch pdb ops) k).symm
  have hcontains : ((transaction pdb ops).contains k = true ↔
      (((transaction pdb ops).txnCommit true).read k).isSome = true) ↔
        (scan ops k ≠ some none ∨ pdb k = none) := by
    rw [hread, contains_transaction]
    rcases scan ops k with _ | _ | v <;> simp
  refine ⟨fun h => hcontains.mp h.contains, fun h => ⟨?_, hcontains.mpr h, ?_, ?_⟩⟩
  · rw [read_eq_view, read_eq_view, view_txnCommit]
  · rw [transaction_eq]
    rfl
  · rw [transaction_eq]
    rfl

/-- A key of the store that was erased still exists inside the transaction. -/
theorem not_transparent_erased :
    ¬ Transparent (fun _ : Unit => some true) [.delete ()] () := by
  intro h
  have hread := h.contains.mp rfl
  cases hread

end TxDB

end Beancash
