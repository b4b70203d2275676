import Beancash.LevelCoding
import Beancash.WriteBatch

namespace LevelDB

open ByteStream KeyValue

/-- A write of the database. -/
abbrev LevelOp := WriteOp (List UInt8) (List UInt8)

def kTypeDeletion : UInt8 := 0

def kTypeValue : UInt8 := 1

/-- `WriteBatch`, by its `rep_`. -/
structure LevelBatch where
  rep : List UInt8
deriving DecidableEq

namespace LevelBatch

def kHeader : ℕ := 12

/-- `Clear` -/
def empty : LevelBatch := ⟨List.replicate kHeader 0⟩

def count (b : LevelBatch) : Int32 := (UInt32.ofNat (ofLittleEndian ((b.rep.drop 8).take 4))).toInt32

def setCount (b : LevelBatch) (n : Int32) : LevelBatch :=
  ⟨b.rep.take 8 ++ littleEndian 4 n.toUInt32.toNat ++ b.rep.drop kHeader⟩

def sequence (b : LevelBatch) : UInt64 := .ofNat (ofLittleEndian (b.rep.take 8))

def setSequence (b : LevelBatch) (seq : UInt64) : LevelBatch :=
  ⟨littleEndian 8 seq.toNat ++ b.rep.drop 8⟩

def put (b : LevelBatch) (key value : List UInt8) : LevelBatch :=
  ⟨(b.setCount (b.count + 1)).rep ++ [kTypeValue] ++ lengthPrefixed key ++ lengthPrefixed value⟩

def delete (b : LevelBatch) (key : List UInt8) : LevelBatch :=
  ⟨(b.setCount (b.count + 1)).rep ++ [kTypeDeletion] ++ lengthPrefixed key⟩

def append (dst src : LevelBatch) : LevelBatch :=
  ⟨(dst.setCount (dst.count + src.count)).rep ++ src.rep.drop kHeader⟩

def write (b : LevelBatch) : LevelOp → LevelBatch
  | .put key value => b.put key value
  | .delete key => b.delete key

/-- A batch that is made of operations. -/
def ofOps (ops : List LevelOp) : LevelBatch := ops.foldl write empty

/-- The strings of `Put`. -/
def getPut : Read (List UInt8 × List UInt8) := do
  let key ← getLengthPrefixedSlice
  let value ← getLengthPrefixedSlice
  pure (key, value)

/-- The loop of `Iterate`: what the handler is given, and what is wrong with the batch, if anything.
As each operation takes a byte at least, so many bytes are enough. -/
def iterateRecords (count : Int32) : ℕ → List UInt8 → ℕ → List LevelOp × Option String
  | _, [], found =>
    ([], if (found : ℤ) ≠ count.toInt then some "WriteBatch has wrong count" else none)
  | 0, _ :: _, _ => ([], none)
  | fuel + 1, tag :: input, found =>
    if tag = kTypeValue then
      match getPut.run input with
      | some ((key, value), input) =>
        let rest := iterateRecords count fuel input (found + 1)
        (.put key value :: rest.1, rest.2)
      | none => ([], some "bad WriteBatch Put")
    else if tag = kTypeDeletion then
      match getLengthPrefixedSlice.run input with
      | some (key, input) =>
        let rest := iterateRecords count fuel input (found + 1)
        (.delete key :: rest.1, rest.2)
      | none => ([], some "bad WriteBatch Delete")
    else ([], some "unknown WriteBatch tag")

def iterate (b : LevelBatch) : List LevelOp × Option String :=
  if b.rep.length < kHeader then ([], some "malformed WriteBatch (too small)")
  else iterateRecords b.count (b.rep.drop kHeader).length (b.rep.drop kHeader) 0

/-- An operation as it is written. -/
def opBytes : LevelOp → List UInt8
  | .put key value => kTypeValue :: (lengthPrefixed key ++ lengthPrefixed value)
  | .delete key => kTypeDeletion :: lengthPrefixed key

/-- A batch by its header and its operations. -/
def repOf (seq : UInt64) (n : Int32) (ops : List LevelOp) : LevelBatch :=
  ⟨littleEndian 8 seq.toNat ++ (littleEndian 4 n.toUInt32.toNat ++ ops.flatMap opBytes)⟩

section RepOf

variable (seq : UInt64) (n : Int32) (ops : List LevelOp)

theorem take_eight : (repOf seq n ops).rep.take 8 = littleEndian 8 seq.toNat :=
  List.take_left' (length_littleEndian 8 _)

theorem drop_eight : (repOf seq n ops).rep.drop 8 =
    littleEndian 4 n.toUInt32.toNat ++ ops.flatMap opBytes :=
  List.drop_left' (length_littleEndian 8 _)

theorem drop_header : (repOf seq n ops).rep.drop kHeader = ops.flatMap opBytes := by
  rw [show kHeader = 8 + 4 from rfl, ← List.drop_drop, drop_eight]
  exact List.drop_left' (length_littleEndian 4 _)

theorem header_le : kHeader ≤ (repOf seq n ops).rep.length := by
  rw [repOf, List.length_append, List.length_append, length_littleEndian, length_littleEndian, kHeader]
  omega

@[simp] theorem count_repOf : (repOf seq n ops).count = n := by
  rw [count, drop_eight, List.take_left' (length_littleEndian 4 _),
    ofLittleEndian_littleEndian n.toUInt32.toNat_lt, UInt32.ofNat_toNat, Int32.toInt32_toUInt32]

@[simp] theorem sequence_repOf : (repOf seq n ops).sequence = seq := by
  rw [sequence, take_eight, ofLittleEndian_littleEndian seq.toNat_lt, UInt64.ofNat_toNat]

@[simp] theorem setCount_repOf (n' : Int32) : (repOf seq n ops).setCount n' = repOf seq n' ops := by
  rw [setCount, take_eight, drop_header, List.append_assoc, repOf]

@[simp] theorem setSequence_repOf (seq' : UInt64) :
    (repOf seq n ops).setSequence seq' = repOf seq' n ops := by
  rw [setSequence, drop_eight, repOf]

theorem write_repOf (op : LevelOp) : (repOf seq n ops).write op = repOf seq (n + 1) (ops ++ [op]) := by
  cases op with
  | put key value =>
    rw [write, put, count_repOf, setCount_repOf, repOf, repOf, List.flatMap_append, List.flatMap_singleton,
      opBytes]
    simp
  | delete key =>
    rw [write, delete, count_repOf, setCount_repOf, repOf, repOf, List.flatMap_append,
      List.flatMap_singleton, opBytes]
    simp

theorem append_repOf (seq' : UInt64) (n' : Int32) (ops' : List LevelOp) :
    (repOf seq n ops).append (repOf seq' n' ops') = repOf seq (n + n') (ops ++ ops') := by
  rw [append, count_repOf, count_repOf, setCount_repOf, drop_header, repOf, repOf, List.flatMap_append,
    List.append_assoc, List.append_assoc]

end RepOf

theorem ofOps_eq (ops : List LevelOp) : ofOps ops = repOf 0 (.ofNat ops.length) ops := by
  induction ops using List.reverseRecOn with
  | nil => decide
  | append_singleton ops op ih =>
    rw [ofOps] at ih
    rw [ofOps, List.foldl_append, ih, List.foldl_cons, List.foldl_nil, write_repOf, List.length_append,
      List.length_singleton, Int32.ofNat_add]
    rfl

/-- The strings are short enough for their lengths to be written. -/
def SizedOp : LevelOp → Prop
  | .put key value => key.length < 2 ^ 32 ∧ value.length < 2 ^ 32
  | .delete key => key.length < 2 ^ 32

theorem reads_getPut {key value : List UInt8} (hkey : key.length < 2 ^ 32)
    (hvalue : value.length < 2 ^ 32) :
    Reads getPut (lengthPrefixed key ++ lengthPrefixed value) (key, value) :=
  (reads_getLengthPrefixedSlice hkey).bind
    ((reads_getLengthPrefixedSlice hvalue).bind_nil (.pure (key, value)))

theorem iterateRecords_eq {ops : List LevelOp} (hops : ∀ op ∈ ops, SizedOp op) {n : Int32}
    {fuel found : ℕ} (hfuel : (ops.flatMap opBytes).length ≤ fuel)
    (hn : ((found + ops.length : ℕ) : ℤ) = n.toInt) :
    iterateRecords n fuel (ops.flatMap opBytes) found = (ops, none) := by
  induction ops generalizing fuel found with
  | nil =>
    have hend : iterateRecords n fuel [] found =
        ([], if (found : ℤ) ≠ n.toInt then some "WriteBatch has wrong count" else none) := by
      cases fuel <;> rfl
    rw [List.length_nil, Nat.add_zero] at hn
    rw [List.flatMap_nil, hend, if_neg (not_not.mpr hn)]
  | cons op ops ih =>
    have hop := hops op List.mem_cons_self
    rw [List.length_cons, ← Nat.succ_add_eq_add_succ] at hn
    rw [List.flatMap_cons, List.length_append] at hfuel
    rw [List.flatMap_cons]
    cases op with
    | put key value =>
      have hread := reads_getPut hop.1 hop.2 (ops.flatMap opBytes)
      rw [opBytes, List.length_cons] at hfuel
      obtain ⟨fuel, rfl⟩ : ∃ fuel', fuel = fuel' + 1 := ⟨fuel - 1, by omega⟩
      rw [opBytes, List.cons_append, iterateRecords, if_pos rfl, hread]
      change (_ :: _, _) = _
      rw [ih (fun op' hop' => hops op' (List.mem_cons_of_mem _ hop')) (by omega) hn]
    | delete key =>
      have hread := reads_getLengthPrefixedSlice hop (ops.flatMap opBytes)
      rw [opBytes, List.length_cons] at hfuel
      obtain ⟨fuel, rfl⟩ : ∃ fuel', fuel = fuel' + 1 := ⟨fuel - 1, by omega⟩
      rw [opBytes, List.cons_append, iterateRecords, if_neg (by decide), if_pos rfl, hread]
      change (_ :: _, _) = _
      rw [ih (fun op' hop' => hops op' (List.mem_cons_of_mem _ hop')) (by omega) hn]

theorem iterate_repOf (seq : UInt64) {ops : List LevelOp} (hops : ∀ op ∈ ops, SizedOp op)
    (hcount : ops.length < 2 ^ 31) : (repOf seq (.ofNat ops.length) ops).iterate = (ops, none) := by
  rw [iterate, if_neg (Nat.not_lt.mpr (header_le _ _ _)), count_repOf, drop_header]
  refine iterateRecords_eq hops (Nat.le_refl _) ?_
  rw [Nat.zero_add, Int32.toInt_ofNat_of_lt hcount]

end LevelBatch

end LevelDB
