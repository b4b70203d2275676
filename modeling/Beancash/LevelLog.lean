import Beancash.Crc32c

namespace LevelDB

open ByteStream

def kBlockSize : ℕ := 32768

def kHeaderSize : ℕ := 7

inductive RecordType where
  | full
  | first
  | middle
  | last
deriving DecidableEq

/-- The values of the types. 0 is reserved for preallocated files. -/
def RecordType.toByte : RecordType → UInt8
  | .full => 1
  | .first => 2
  | .middle => 3
  | .last => 4

def RecordType.ofByte (byte : UInt8) : Option RecordType :=
  [RecordType.full, .first, .middle, .last].find? fun t => t.toByte = byte

@[simp] theorem RecordType.ofByte_toByte (t : RecordType) : ofByte t.toByte = some t := by
  cases t <;> rfl

/-- The file and the offset in its last block. -/
structure LogWriter where
  dest : List UInt8
  blockOffset : ℕ
deriving DecidableEq

namespace LogWriter

def empty : LogWriter := ⟨[], 0⟩

/-- The checksum of a fragment; wherever that is in memory, it is the same (`Crc32c.extend_eq`). -/
def recordCrc (t : RecordType) (data : List UInt8) : UInt32 :=
  Crc32c.mask (Crc32c.extend 0 (Crc32c.value 0 [t.toByte]) data)

def emitPhysicalRecord (w : LogWriter) (t : RecordType) (data : List UInt8) : LogWriter where
  dest := w.dest ++ littleEndian 4 (recordCrc t data).toNat ++
    [.ofNat data.length, .ofNat (data.length / 256), t.toByte] ++ data
  blockOffset := w.blockOffset + kHeaderSize + data.length

/-- A block in which there is no room for a header is filled up with zeros. -/
def switchBlock (w : LogWriter) : LogWriter :=
  let leftover := kBlockSize - w.blockOffset
  if leftover < kHeaderSize then ⟨w.dest ++ List.replicate leftover 0, 0⟩ else w

theorem room_switchBlock (w : LogWriter) :
    kHeaderSize ≤ kBlockSize - w.switchBlock.blockOffset ∧
      (kBlockSize - w.switchBlock.blockOffset = kHeaderSize →
        kBlockSize - w.blockOffset = kHeaderSize) := by
  rw [switchBlock]
  split_ifs with h
  · change kHeaderSize ≤ kBlockSize - 0 ∧ (kBlockSize - 0 = kHeaderSize → _)
    exact ⟨by decide, fun hfull => absurd hfull (by decide)⟩
  · exact ⟨Nat.not_lt.mp h, id⟩

/-- The type of a fragment. -/
def fragmentType (begin_ end_ : Bool) : RecordType :=
  if begin_ && end_ then .full else if begin_ then .first else if end_ then .last else .middle

/-- The loop of `AddRecord`, with what is left of the record. -/
def addFragments (w : LogWriter) (begin_ : Bool) (left : List UInt8) : LogWriter :=
  let w' := w.switchBlock
  let avail := kBlockSize - w'.blockOffset - kHeaderSize
  let fragmentLength := min left.length avail
  let end_ := decide (left.length = fragmentLength)
  let w'' := w'.emitPhysicalRecord (fragmentType begin_ end_) (left.take fragmentLength)
  if 0 < (left.drop fragmentLength).length then addFragments w'' false (left.drop fragmentLength)
  else w''
termination_by 2 * left.length + if kBlockSize - w.blockOffset = kHeaderSize then 1 else 0
decreasing_by
  -- a block may have room for a header and for nothing after it, but not two in a row
  obtain ⟨hroom, hsame⟩ := room_switchBlock w
  have hpos : 0 < kHeaderSize := by decide
  have hleft : 0 < left.length - fragmentLength := by rwa [List.length_drop] at *
  change 2 * (left.drop fragmentLength).length +
    (if kBlockSize - (w'.blockOffset + kHeaderSize + (left.take fragmentLength).length) = kHeaderSize
      then 1 else 0) < _
  rw [List.length_drop, List.length_take]
  have hfragment : fragmentLength = min left.length (kBlockSize - w'.blockOffset - kHeaderSize) := rfl
  have hroom' : kHeaderSize ≤ kBlockSize - w'.blockOffset := hroom
  have hsame' : kBlockSize - w'.blockOffset = kHeaderSize → kBlockSize - w.blockOffset = kHeaderSize :=
    hsame
  split_ifs <;> omega

def addRecord (w : LogWriter) (slice : List UInt8) : LogWriter := w.addFragments true slice

end LogWriter

/-- A reader from the start of the file on, with what it has reported. -/
structure LogReader where
  file : List UInt8
  buffer : List UInt8
  eof : Bool
  reports : List (ℕ × String)

/-- What `ReadPhysicalRecord` returns; the type may be `kEof` or `kBadRecord`. -/
structure PhysicalRecord where
  type : UInt32
  fragment : List UInt8
  reader : LogReader

def kFullType : UInt32 := 1

def kFirstType : UInt32 := 2

def kMiddleType : UInt32 := 3

def kLastType : UInt32 := 4

def kEof : UInt32 := 5

def kBadRecord : UInt32 := 6

namespace LogReader

def init (file : List UInt8) : LogReader := ⟨file, [], false, []⟩

def report (r : LogReader) (bytes : ℕ) (reason : String) : LogReader :=
  { r with reports := r.reports ++ [(bytes, reason)] }

/-- The next block is read. -/
def refill (r : LogReader) : LogReader :=
  { r with
    file := r.file.drop kBlockSize
    buffer := r.file.take kBlockSize
    eof := decide ((r.file.take kBlockSize).length < kBlockSize) }

/-- A `char` is signed, also when it becomes an `unsigned int`. -/
def charCode (c : UInt8) : UInt32 := c.toInt8.toInt32.toUInt32

/-- The fragment at the front of the buffer, which has a header. -/
def parse (r : LogReader) : PhysicalRecord :=
  let header := r.buffer
  let length := (header.getD 4 0).toNat + 256 * (header.getD 5 0).toNat
  let type := charCode (header.getD 6 0)
  let data := header.drop 6
  if header.length < kHeaderSize + length then
    if !r.eof then
      ⟨kBadRecord, [], { r with buffer := [] }.report header.length "bad record length"⟩
    -- the writer died in the middle of the record
    else ⟨kEof, [], { r with buffer := [] }⟩
  else if type = 0 ∧ length = 0 then ⟨kBadRecord, [], { r with buffer := [] }⟩
  else if Crc32c.unmask (.ofNat (ofLittleEndian (header.take 4))) ≠
      Crc32c.value 0 (data.take (1 + length)) then
    ⟨kBadRecord, [], { r with buffer := [] }.report header.length "checksum mismatch"⟩
  else
    ⟨type, (data.drop 1).take length, { r with buffer := header.drop (kHeaderSize + length) }⟩

def readPhysicalRecord (r : LogReader) : PhysicalRecord :=
  if r.buffer.length < kHeaderSize then
    if !r.eof then r.refill.readPhysicalRecord
    -- the writer died in the middle of the header
    else ⟨kEof, [], { r with buffer := [] }⟩
  else r.parse
termination_by if r.eof then 0 else r.file.length + 1
decreasing_by
  rename_i _ heof
  rw [Bool.not_eq_true'] at heof
  rw [heof, if_neg Bool.false_ne_true]
  change (if decide ((r.file.take kBlockSize).length < kBlockSize) = true then 0
    else (r.file.drop kBlockSize).length + 1) < _
  rw [List.length_drop]
  split_ifs with hfull
  · exact Nat.succ_pos _
  · rw [List.length_take, decide_eq_true_eq] at hfull
    have hpos : 0 < kBlockSize := by decide
    omega

/-- What is left of the file. -/
def size (r : LogReader) : ℕ := r.file.length + r.buffer.length

theorem size_refill (r : LogReader) : r.refill.size = r.file.length := by
  rw [size, refill, List.length_drop, List.length_take]
  omega

theorem size_parse {r : LogReader} (h : kHeaderSize ≤ r.buffer.length) :
    r.parse.reader.size < r.size := by
  have hpos : 0 < kHeaderSize := by decide
  rw [parse]
  split_ifs <;> simp only [size, report, List.length_nil, List.length_drop] <;> omega

theorem size_readPhysicalRecord (r : LogReader) (h : r.readPhysicalRecord.type ≠ kEof) :
    r.readPhysicalRecord.reader.size < r.size := by
  induction r using readPhysicalRecord.induct with
  | case1 r hsize heof ih =>
    rw [readPhysicalRecord, if_pos hsize, if_pos heof] at h ⊢
    have hrest := ih h
    rw [size_refill] at hrest
    exact Nat.lt_of_lt_of_le hrest (Nat.le_add_right _ _)
  | case2 r hsize heof =>
    rw [readPhysicalRecord, if_pos hsize, if_neg heof] at h
    exact absurd rfl h
  | case3 r hsize =>
    rw [readPhysicalRecord, if_neg hsize]
    exact size_parse (Nat.not_lt.mp hsize)

/-- The loop of `ReadRecord` has come to an end, or it goes on. -/
inductive ReadState where
  | done (record : Option (List UInt8))
  | reading (inFragmentedRecord : Bool) (scratch : List UInt8)

/-- The cases of `ReadRecord`. -/
def onRecord (p : PhysicalRecord) (inFragmentedRecord : Bool) (scratch : List UInt8) :
    ReadState × LogReader :=
  if p.type = kFullType then
    if inFragmentedRecord ∧ scratch ≠ [] then
      (.done (some p.fragment), p.reader.report scratch.length "partial record without end(1)")
    else (.done (some p.fragment), p.reader)
  else if p.type = kFirstType then
    if inFragmentedRecord ∧ scratch ≠ [] then
      (.reading true p.fragment, p.reader.report scratch.length "partial record without end(2)")
    else (.reading true p.fragment, p.reader)
  else if p.type = kMiddleType then
    if !inFragmentedRecord then
      (.reading false scratch,
        p.reader.report p.fragment.length "missing start of fragmented record(1)")
    else (.reading true (scratch ++ p.fragment), p.reader)
  else if p.type = kLastType then
    if !inFragmentedRecord then
      (.reading false scratch,
        p.reader.report p.fragment.length "missing start of fragmented record(2)")
    else (.done (some (scratch ++ p.fragment)), p.reader)
  -- a record that is not there as a whole is ignored
  else if p.type = kEof then (.done none, p.reader)
  else if p.type = kBadRecord then
    if inFragmentedRecord then
      (.reading false [], p.reader.report scratch.length "error in middle of record")
    else (.reading false scratch, p.reader)
  else
    (.reading false [], p.reader.report
      (p.fragment.length + if inFragmentedRecord then scratch.length else 0)
      ("unknown record type " ++ toString p.type.toNat))

theorem size_onRecord (p : PhysicalRecord) (inFragmentedRecord : Bool) (scratch : List UInt8) :
    (onRecord p inFragmentedRecord scratch).2.size = p.reader.size := by
  rw [onRecord]
  split_ifs <;> rfl

theorem size_lt_of_onRecord {r r' : LogReader} {inFragmentedRecord : Bool} {scratch : List UInt8}
    {state : ReadState}
    (h : onRecord r.readPhysicalRecord inFragmentedRecord scratch = (state, r'))
    (hstate : state ≠ .done none) : r'.size < r.size := by
  have htype : r.readPhysicalRecord.type ≠ kEof := by
    intro heof
    have hdone : onRecord r.readPhysicalRecord inFragmentedRecord scratch =
        (.done none, r.readPhysicalRecord.reader) := by
      rw [onRecord, heof]
      rfl
    exact hstate (Prod.mk.inj (h.symm.trans hdone)).1
  have hsize := size_onRecord r.readPhysicalRecord inFragmentedRecord scratch
  rw [h] at hsize
  exact hsize ▸ size_readPhysicalRecord r htype

/-- The loop of `ReadRecord`. -/
def readFragments (r : LogReader) (inFragmentedRecord : Bool) (scratch : List UInt8) :
    Option (List UInt8) × LogReader :=
  match _h : onRecord r.readPhysicalRecord inFragmentedRecord scratch with
  | (.done record, r') => (record, r')
  | (.reading inFragmentedRecord scratch, r') => readFragments r' inFragmentedRecord scratch
termination_by r.size
decreasing_by
  exact size_lt_of_onRecord _h (by simp)

def readRecord (r : LogReader) : Option (List UInt8) × LogReader := r.readFragments false []

theorem readFragments_done {r r' : LogReader} {inFragmentedRecord : Bool} {scratch : List UInt8}
    {record : Option (List UInt8)}
    (h : onRecord r.readPhysicalRecord inFragmentedRecord scratch = (.done record, r')) :
    r.readFragments inFragmentedRecord scratch = (record, r') := by
  rw [readFragments]
  split
  · rename_i hdone
    rw [h] at hdone
    cases hdone
    rfl
  · rename_i hreading
    rw [h] at hreading
    cases hreading

theorem readFragments_reading {r r' : LogReader} {inFragmentedRecord inFragmentedRecord' : Bool}
    {scratch scratch' : List UInt8}
    (h : onRecord r.readPhysicalRecord inFragmentedRecord scratch =
      (.reading inFragmentedRecord' scratch', r')) :
    r.readFragments inFragmentedRecord scratch = r'.readFragments inFragmentedRecord' scratch' := by
  rw [readFragments]
  split
  · rename_i hdone
    rw [h] at hdone
    cases hdone
  · rename_i hreading
    rw [h] at hreading
    cases hreading
    rfl

theorem size_readFragments (r : LogReader) (inFragmentedRecord : Bool) (scratch : List UInt8)
    (h : (r.readFragments inFragmentedRecord scratch).1 ≠ none) :
    (r.readFragments inFragmentedRecord scratch).2.size < r.size := by
  induction r, inFragmentedRecord, scratch using readFragments.induct with
  | case1 r inFragmentedRecord scratch record r' hdone =>
    rw [readFragments_done hdone] at h ⊢
    exact size_lt_of_onRecord hdone fun hnone => h (ReadState.done.inj hnone)
  | case2 r inFragmentedRecord scratch inFragmentedRecord' scratch' r' hreading ih =>
    rw [readFragments_reading hreading] at h ⊢
    exact Nat.lt_trans (ih h) (size_lt_of_onRecord hreading (by simp))

/-- All the records that are found, one after the other. -/
def readAll (r : LogReader) : List (List UInt8) × LogReader :=
  match _h : r.readRecord with
  | (none, r') => ([], r')
  | (some record, r') => (record :: r'.readAll.1, r'.readAll.2)
termination_by r.size
decreasing_by
  all_goals
    have hsize := size_readFragments r false []
    rw [readRecord] at _h
    rw [_h] at hsize
    exact hsize (Option.some_ne_none _)

end LogReader

/-- A fragment of a record. -/
structure Fragment where
  type : RecordType
  data : List UInt8

namespace Fragment

def bytes (f : Fragment) : List UInt8 :=
  littleEndian 4 (LogWriter.recordCrc f.type f.data).toNat ++
    [.ofNat f.data.length, .ofNat (f.data.length / 256), f.type.toByte] ++ f.data

@[simp] theorem length_bytes (f : Fragment) : f.bytes.length = kHeaderSize + f.data.length := by
  rw [bytes, List.length_append, List.length_append, length_littleEndian]
  rfl

end Fragment

/-- How much of a block is filled up with zeros, where a fragment starts in the block, and where it
ends. -/
def trailer (o : ℕ) : ℕ := if kBlockSize - o < kHeaderSize then kBlockSize - o else 0

def startOf (o : ℕ) : ℕ := if kBlockSize - o < kHeaderSize then 0 else o

def endOf (o : ℕ) (f : Fragment) : ℕ := startOf o + kHeaderSize + f.data.length

/-- The fragments take the file from one offset in a block to another. -/
inductive Laid : ℕ → List Fragment → List UInt8 → ℕ → Prop
  | nil (o : ℕ) : Laid o [] [] o
  | cons {o o' : ℕ} {f : Fragment} {fs : List Fragment} {bytes : List UInt8}
      (hfits : endOf o f ≤ kBlockSize) (hrest : Laid (endOf o f) fs bytes o') :
      Laid o (f :: fs) (List.replicate (trailer o) 0 ++ f.bytes ++ bytes) o'

/-- The fragments that a record ends with after its first one. -/
inductive Rest : List UInt8 → List Fragment → Prop
  | last (data : List UInt8) : Rest data [⟨.last, data⟩]
  | middle (data : List UInt8) {record : List UInt8} {fs : List Fragment} (h : Rest record fs) :
      Rest (data ++ record) (⟨.middle, data⟩ :: fs)

/-- The fragments of a record. -/
inductive Whole : List UInt8 → List Fragment → Prop
  | full (data : List UInt8) : Whole data [⟨.full, data⟩]
  | first (data : List UInt8) {record : List UInt8} {fs : List Fragment} (h : Rest record fs) :
      Whole (data ++ record) (⟨.first, data⟩ :: fs)

namespace LogWriter

theorem switchBlock_eq (w : LogWriter) : w.switchBlock =
    ⟨w.dest ++ List.replicate (trailer w.blockOffset) 0, startOf w.blockOffset⟩ := by
  rw [switchBlock, trailer, startOf]
  split_ifs
  · rfl
  · rw [List.replicate_zero, List.append_nil]

theorem emitPhysicalRecord_eq (w : LogWriter) (f : Fragment) : w.emitPhysicalRecord f.type f.data =
    ⟨w.dest ++ f.bytes, w.blockOffset + kHeaderSize + f.data.length⟩ := by
  rw [emitPhysicalRecord, Fragment.bytes, List.append_assoc, List.append_assoc, List.append_assoc]

theorem exists_emit (w : LogWriter) (type : RecordType) (data : List UInt8)
    (h : data.length ≤ kBlockSize - w.switchBlock.blockOffset - kHeaderSize) :
    endOf w.blockOffset ⟨type, data⟩ ≤ kBlockSize ∧ w.switchBlock.emitPhysicalRecord type data =
      ⟨w.dest ++ (List.replicate (trailer w.blockOffset) 0 ++ Fragment.bytes ⟨type, data⟩),
        endOf w.blockOffset ⟨type, data⟩⟩ := by
  obtain ⟨hroom, -⟩ := room_switchBlock w
  have hemit := emitPhysicalRecord_eq w.switchBlock ⟨type, data⟩
  rw [switchBlock_eq] at h hroom hemit
  refine ⟨?_, ?_⟩
  · change startOf w.blockOffset + kHeaderSize + data.length ≤ kBlockSize
    change data.length ≤ kBlockSize - startOf w.blockOffset - kHeaderSize at h
    change kHeaderSize ≤ kBlockSize - startOf w.blockOffset at hroom
    have hpos : 0 < kHeaderSize := by decide
    omega
  · rw [switchBlock_eq, ← List.append_assoc]
    exact hemit

theorem exists_addFragments (w : LogWriter) (begin_ : Bool) (left : List UInt8) :
    ∃ fs bytes, Laid w.blockOffset fs bytes (w.addFragments begin_ left).blockOffset ∧
      (w.addFragments begin_ left).dest = w.dest ++ bytes ∧
      if begin_ then Whole left fs else Rest left fs := by
  induction w, begin_, left using addFragments.induct with
  | case1 w begin_ left w' avail fragmentLength end_ w'' hleft ih =>
    have hlength : (left.take fragmentLength).length ≤ avail := by
      rw [List.length_take]
      omega
    obtain ⟨hfits, hemit⟩ := exists_emit w (fragmentType begin_ end_) (left.take fragmentLength)
      hlength
    have hend : end_ = false := by
      rw [List.length_drop] at hleft
      exact decide_eq_false (by omega)
    have hloop : w.addFragments begin_ left = w''.addFragments false (left.drop fragmentLength) := by
      rw [addFragments]
      exact if_pos hleft
    have hw'' : w'' = _ := hemit
    obtain ⟨fs, bytes, hlaid, hdest, hrest⟩ := ih
    rw [hw''] at hlaid hdest
    rw [hloop, hw'']
    refine ⟨_, _, .cons hfits hlaid, ?_, ?_⟩
    · rw [hdest, List.append_assoc]
    · have hsplit := List.take_append_drop fragmentLength left
      rw [hend]
      cases begin_
      · have hmiddle := Rest.middle (left.take fragmentLength) hrest
        rw [hsplit] at hmiddle
        exact hmiddle
      · have hfirst := Whole.first (left.take fragmentLength) hrest
        rw [hsplit] at hfirst
        exact hfirst
  | case2 w begin_ left w' avail fragmentLength hleft =>
    have hall : left.take fragmentLength = left := by
      rw [List.length_drop] at hleft
      exact List.take_of_length_le (by omega)
    have hlength : left.length ≤ avail := by
      rw [← hall, List.length_take]
      omega
    have hfull : left.length = fragmentLength := (Nat.min_eq_left hlength).symm
    obtain ⟨hfits, hemit⟩ := exists_emit w (fragmentType begin_ true) left hlength
    have hloop : w.addFragments begin_ left =
        w.switchBlock.emitPhysicalRecord (fragmentType begin_ true) left := by
      rw [addFragments]
      refine (if_neg hleft).trans ?_
      rw [hall, decide_eq_true hfull]
    rw [hloop, hemit]
    refine ⟨_, _, .cons hfits (.nil _), ?_, ?_⟩
    · rw [List.append_nil]
    · cases begin_
      · exact .last left
      · exact .full left

end LogWriter

namespace LogReader

/-- The reader is at an offset in a block, and `data` is what is left of the file. -/
def At (r : LogReader) (o : ℕ) (data : List UInt8) : Prop :=
  (r.eof = false ∧ r.buffer.length = kBlockSize - o ∧ r.buffer ++ r.file = data) ∨
    (r.eof = true ∧ r.buffer = data ∧ data.length < kBlockSize - o)

theorem at_refill (r : LogReader) : r.refill.At 0 r.file := by
  rcases Nat.lt_or_ge r.file.length kBlockSize with hlt | hge
  · have htake : r.file.take kBlockSize = r.file := List.take_of_length_le (Nat.le_of_lt hlt)
    refine .inr ⟨?_, htake, hlt⟩
    rw [refill, htake]
    exact decide_eq_true hlt
  · have hlength : (r.file.take kBlockSize).length = kBlockSize := List.length_take_of_le hge
    refine .inl ⟨decide_eq_false ?_, hlength, List.take_append_drop _ _⟩
    rw [hlength]
    exact Nat.lt_irrefl _

theorem readPhysicalRecord_short {r : LogReader} (heof : r.eof = true)
    (h : r.buffer.length < kHeaderSize) :
    r.readPhysicalRecord = ⟨kEof, [], { r with buffer := [] }⟩ := by
  rw [readPhysicalRecord, if_pos h, heof]
  rfl

theorem At.skip {r : LogReader} {o : ℕ} {data : List UInt8} (h : r.At o data)
    (ho : kBlockSize - o < kHeaderSize) (hdata : kBlockSize - o ≤ data.length) :
    ∃ r' : LogReader, r.readPhysicalRecord = r'.readPhysicalRecord ∧
      r'.At 0 (data.drop (kBlockSize - o)) ∧ r'.reports = r.reports := by
  rcases h with ⟨heof, hbuffer, hfile⟩ | ⟨-, -, hlt⟩
  · refine ⟨r.refill, ?_, ?_, rfl⟩
    · rw [readPhysicalRecord, if_pos (hbuffer ▸ ho), heof]
      rfl
    · rw [← hfile, ← hbuffer, List.drop_left]
      exact at_refill r
  · exact absurd hdata (Nat.not_le.mpr hlt)

theorem header_bytes (f : Fragment) (rest : List UInt8) :
    (f.bytes ++ rest).getD 4 0 = .ofNat f.data.length ∧
      (f.bytes ++ rest).getD 5 0 = .ofNat (f.data.length / 256) ∧
      (f.bytes ++ rest).getD 6 0 = f.type.toByte ∧
      (f.bytes ++ rest).take 4 = littleEndian 4 (LogWriter.recordCrc f.type f.data).toNat ∧
      (f.bytes ++ rest).drop 6 = f.type.toByte :: (f.data ++ rest) :=
  ⟨rfl, rfl, rfl, rfl, rfl⟩

theorem length_of_header {n : ℕ} (h : n < 65536) :
    (UInt8.ofNat n).toNat + 256 * (UInt8.ofNat (n / 256)).toNat = n := by
  rw [UInt8.toNat_ofNat', UInt8.toNat_ofNat']
  omega

theorem unmask_header (t : RecordType) (data rest : List UInt8) :
    Crc32c.unmask (.ofNat (ofLittleEndian (littleEndian 4 (LogWriter.recordCrc t data).toNat))) =
      Crc32c.value 0 ((t.toByte :: (data ++ rest)).take (1 + data.length)) := by
  rw [ofLittleEndian_littleEndian (LogWriter.recordCrc t data).toNat_lt, UInt32.ofNat_toNat,
    LogWriter.recordCrc, Crc32c.unmask_mask, Crc32c.extend_value 0 0 0, Nat.add_comm,
    List.take_succ_cons, List.take_left]
  rfl

theorem parse_bytes {r : LogReader} {f : Fragment} {rest : List UInt8}
    (h : r.buffer = f.bytes ++ rest) (hdata : f.data.length < 65536) :
    r.parse = ⟨charCode f.type.toByte, f.data, { r with buffer := rest }⟩ := by
  obtain ⟨h4, h5, h6, hcrc, hpayload⟩ := header_bytes f rest
  have hlength := length_of_header hdata
  have htype : ¬(charCode f.type.toByte = 0 ∧ f.data.length = 0) := by
    cases f.type <;> exact fun h0 => absurd h0.1 (by decide)
  have hdrop : (f.bytes ++ rest).drop (kHeaderSize + f.data.length) = rest := by
    rw [← Fragment.length_bytes, List.drop_left]
  have hfits : ¬(f.bytes ++ rest).length < kHeaderSize + f.data.length := by
    rw [List.length_append, Fragment.length_bytes]
    omega
  rw [parse]
  simp only [h, h4, h5, h6, hcrc, hpayload, hlength, hdrop]
  rw [if_neg hfits, if_neg htype, if_neg (not_not.mpr (unmask_header f.type f.data rest)),
    List.drop_one, List.tail_cons, List.take_left]

theorem parse_cut {r : LogReader} {f : Fragment} {n : ℕ} (h : r.buffer = f.bytes.take n)
    (heof : r.eof = true) (hdata : f.data.length < 65536) (hheader : kHeaderSize ≤ n)
    (hn : n < f.bytes.length) : r.parse = ⟨kEof, [], { r with buffer := [] }⟩ := by
  obtain ⟨h4, h5, -⟩ := header_bytes f []
  rw [List.append_nil] at h4 h5
  have hget : ∀ i < kHeaderSize, (f.bytes.take n).getD i 0 = f.bytes.getD i 0 := by
    intro i hi
    rw [List.getD_eq_getElem?_getD, List.getElem?_take_of_lt (Nat.lt_of_lt_of_le hi hheader),
      ← List.getD_eq_getElem?_getD]
  have hshort : (f.bytes.take n).length < kHeaderSize + f.data.length := by
    rw [List.length_take, ← Fragment.length_bytes]
    omega
  rw [parse]
  simp only [h, hget 4 (by decide), hget 5 (by decide), h4, h5, length_of_header hdata]
  rw [if_pos hshort, heof]
  rfl

theorem At.read_fragment {r : LogReader} {o : ℕ} {f : Fragment} {rest : List UInt8}
    (hfits : o + kHeaderSize + f.data.length ≤ kBlockSize) (h : r.At o (f.bytes ++ rest)) :
    ∃ r' : LogReader, r.readPhysicalRecord = ⟨charCode f.type.toByte, f.data, r'⟩ ∧
      r'.At (o + kHeaderSize + f.data.length) rest ∧ r'.reports = r.reports := by
  have hblock : kBlockSize = 32768 := rfl
  have hsize := Fragment.length_bytes f
  have hbuffer : ∃ rest', r.buffer = f.bytes ++ rest' ∧
      ({ r with buffer := rest' } : LogReader).At (o + kHeaderSize + f.data.length) rest := by
    rcases h with ⟨heof, hlength, hfile⟩ | ⟨heof, hfile, hlt⟩
    · have hprefix : f.bytes <+: r.buffer :=
        List.prefix_of_prefix_length_le (List.prefix_append f.bytes rest)
          (hfile ▸ List.prefix_append r.buffer r.file) (by omega)
      obtain ⟨rest', hrest'⟩ := hprefix
      rw [← hrest', List.append_assoc] at hfile
      rw [← hrest', List.length_append] at hlength
      refine ⟨rest', hrest'.symm, .inl ⟨heof, ?_, List.append_cancel_left hfile⟩⟩
      change rest'.length = _
      omega
    · refine ⟨rest, hfile, .inr ⟨heof, rfl, ?_⟩⟩
      rw [List.length_append] at hlt
      omega
  obtain ⟨rest', hrest', hat⟩ := hbuffer
  refine ⟨_, ?_, hat, rfl⟩
  have hheader : ¬r.buffer.length < kHeaderSize := by
    rw [hrest', List.length_append]
    omega
  rw [readPhysicalRecord, if_neg hheader]
  exact parse_bytes hrest' (by omega)

theorem At.cut_fragment {r : LogReader} {o : ℕ} {f : Fragment} {n : ℕ}
    (hfits : o + kHeaderSize + f.data.length ≤ kBlockSize) (hn : n < f.bytes.length)
    (h : r.At o (f.bytes.take n)) :
    r.readPhysicalRecord = ⟨kEof, [], { r with buffer := [] }⟩ := by
  have hblock : kBlockSize = 32768 := rfl
  have hsize := Fragment.length_bytes f
  have hlength : (f.bytes.take n).length = n := List.length_take_of_le (Nat.le_of_lt hn)
  rcases h with ⟨-, hbuffer, hfile⟩ | ⟨heof, hbuffer, -⟩
  · have hsum := congrArg List.length hfile
    rw [List.length_append, hlength] at hsum
    omega
  · rcases Nat.lt_or_ge n kHeaderSize with hlt | hge
    · exact readPhysicalRecord_short heof (by rw [hbuffer, hlength]; exact hlt)
    · rw [readPhysicalRecord, if_neg (by rw [hbuffer, hlength]; omega)]
      exact parse_cut hbuffer heof (by omega) hge hn

theorem At.read {r : LogReader} {o : ℕ} {f : Fragment} {rest : List UInt8}
    (hfits : endOf o f ≤ kBlockSize)
    (h : r.At o (List.replicate (trailer o) 0 ++ f.bytes ++ rest)) :
    ∃ r' : LogReader, r.readPhysicalRecord = ⟨charCode f.type.toByte, f.data, r'⟩ ∧
      r'.At (endOf o f) rest ∧ r'.reports = r.reports := by
  rw [endOf, startOf] at hfits ⊢
  rw [trailer] at h
  split_ifs at h hfits ⊢ with ho
  · obtain ⟨r₁, hread, hat, hreports⟩ := h.skip ho (by
      rw [List.length_append, List.length_append, List.length_replicate]
      omega)
    rw [List.append_assoc, List.drop_left' List.length_replicate] at hat
    obtain ⟨r', hread', hat', hreports'⟩ := hat.read_fragment hfits
    exact ⟨r', hread.trans hread', hat', hreports'.trans hreports⟩
  · exact h.read_fragment hfits

theorem At.cut {r : LogReader} {o : ℕ} {f : Fragment} {n : ℕ} (hfits : endOf o f ≤ kBlockSize)
    (hn : n < (List.replicate (trailer o) 0 ++ f.bytes).length)
    (h : r.At o ((List.replicate (trailer o) 0 ++ f.bytes).take n)) :
    ∃ r' : LogReader, r.readPhysicalRecord = ⟨kEof, [], r'⟩ ∧ r'.reports = r.reports := by
  rw [endOf, startOf] at hfits
  rw [trailer] at h hn
  split_ifs at h hfits hn with ho
  · rcases Nat.lt_or_ge n (kBlockSize - o) with hlt | hge
    · -- not even the zeros are there
      have hlength : ((List.replicate (kBlockSize - o) (0 : UInt8) ++ f.bytes).take n).length = n :=
        List.length_take_of_le (Nat.le_of_lt hn)
      rcases h with ⟨-, hbuffer, hfile⟩ | ⟨heof, hbuffer, -⟩
      · have hsum := congrArg List.length hfile
        rw [List.length_append, hlength] at hsum
        omega
      · exact ⟨_, readPhysicalRecord_short heof (by rw [hbuffer, hlength]; omega), rfl⟩
    · have htake : (List.replicate (kBlockSize - o) (0 : UInt8) ++ f.bytes).take n =
          List.replicate (kBlockSize - o) 0 ++ f.bytes.take (n - (kBlockSize - o)) := by
        rw [List.take_append, List.length_replicate,
          List.take_of_length_le (by rw [List.length_replicate]; exact hge)]
      rw [htake] at h
      obtain ⟨r₁, hread, hat, hreports⟩ := h.skip ho (by
        rw [List.length_append, List.length_replicate]
        omega)
      rw [List.drop_left' List.length_replicate] at hat
      rw [List.length_append, List.length_replicate] at hn
      exact ⟨_, hread.trans (hat.cut_fragment hfits (by omega)), hreports⟩
  · exact ⟨_, h.cut_fragment hfits hn, rfl⟩

theorem readFragments_eof {r r' : LogReader} (h : r.readPhysicalRecord = ⟨kEof, [], r'⟩)
    (inFragmentedRecord : Bool) (scratch : List UInt8) :
    r.readFragments inFragmentedRecord scratch = (none, r') :=
  readFragments_done (by rw [h]; rfl)

theorem At.read_or_cut {r : LogReader} {o n : ℕ} {f : Fragment} {bytes : List UInt8}
    (hfits : endOf o f ≤ kBlockSize)
    (h : r.At o ((List.replicate (trailer o) 0 ++ f.bytes ++ bytes).take n)) :
    (∃ r' : LogReader, r.readPhysicalRecord = ⟨kEof, [], r'⟩ ∧ r'.reports = r.reports) ∨
      (List.replicate (trailer o) 0 ++ f.bytes).length ≤ n ∧
        ∃ r' : LogReader, r.readPhysicalRecord = ⟨charCode f.type.toByte, f.data, r'⟩ ∧
          r'.At (endOf o f)
            (bytes.take (n - (List.replicate (trailer o) 0 ++ f.bytes).length)) ∧
          r'.reports = r.reports := by
  rcases Nat.lt_or_ge n (List.replicate (trailer o) 0 ++ f.bytes).length with hlt | hge
  · rw [List.take_append_of_le_length (Nat.le_of_lt hlt)] at h
    exact .inl (h.cut hfits hlt)
  · rw [List.take_append, List.take_of_length_le hge] at h
    exact .inr ⟨hge, h.read hfits⟩

theorem read_rest {record : List UInt8} {fs : List Fragment} (h : Rest record fs) {o o' : ℕ}
    {bytes data scratch : List UInt8} {r : LogReader} (hlaid : Laid o fs bytes o')
    (hat : r.At o (bytes ++ data)) :
    ∃ r' : LogReader, r.readFragments true scratch = (some (scratch ++ record), r') ∧
      r'.At o' data ∧ r'.reports = r.reports := by
  induction h generalizing o bytes r scratch with
  | last last =>
    cases hlaid with
    | cons hfits hrest =>
      cases hrest
      rw [List.append_nil] at hat
      obtain ⟨r', hread, hat', hreports⟩ := hat.read hfits
      exact ⟨r', readFragments_done (by rw [hread]; rfl), hat', hreports⟩
  | middle middle _ ih =>
    cases hlaid with
    | cons hfits hrest =>
      rw [List.append_assoc] at hat
      obtain ⟨r₁, hread, hat₁, hreports₁⟩ := hat.read hfits
      obtain ⟨r', hread', hat', hreports⟩ := ih hrest hat₁
      refine ⟨r', ?_, hat', hreports.trans hreports₁⟩
      rw [← List.append_assoc, ← hread']
      exact readFragments_reading (by rw [hread]; rfl)

theorem cut_rest {record : List UInt8} {fs : List Fragment} (h : Rest record fs) {o o' n : ℕ}
    {bytes scratch : List UInt8} {r : LogReader} (hlaid : Laid o fs bytes o')
    (hn : n < bytes.length) (hat : r.At o (bytes.take n)) :
    ∃ r' : LogReader, r.readFragments true scratch = (none, r') ∧ r'.reports = r.reports := by
  induction h generalizing o bytes r scratch n with
  | last last =>
    cases hlaid with
    | cons hfits hrest =>
      cases hrest
      rw [List.append_nil] at hat hn
      obtain ⟨r', hread, hreports⟩ := hat.cut hfits hn
      exact ⟨r', readFragments_eof hread _ _, hreports⟩
  | middle middle _ ih =>
    cases hlaid with
    | cons hfits hrest =>
      rcases hat.read_or_cut hfits with ⟨r', hread, hreports⟩ | ⟨hle, r₁, hread, hat₁, hreports₁⟩
      · exact ⟨r', readFragments_eof hread _ _, hreports⟩
      · rw [List.length_append] at hn
        obtain ⟨r', hread', hreports⟩ := ih hrest (by omega) hat₁
        refine ⟨r', ?_, hreports.trans hreports₁⟩
        rw [← hread']
        exact readFragments_reading (by rw [hread]; rfl)

theorem read_whole {record : List UInt8} {fs : List Fragment} (h : Whole record fs) {o o' : ℕ}
    {bytes data : List UInt8} {r : LogReader} (hlaid : Laid o fs bytes o')
    (hat : r.At o (bytes ++ data)) :
    ∃ r' : LogReader, r.readRecord = (some record, r') ∧ r'.At o' data ∧
      r'.reports = r.reports := by
  cases h with
  | full =>
    cases hlaid with
    | cons hfits hrest =>
      cases hrest
      rw [List.append_nil] at hat
      obtain ⟨r', hread, hat', hreports⟩ := hat.read hfits
      exact ⟨r', readFragments_done (by rw [hread]; rfl), hat', hreports⟩
  | first first hrest =>
    cases hlaid with
    | cons hfits hlaid =>
      rw [List.append_assoc] at hat
      obtain ⟨r₁, hread, hat₁, hreports₁⟩ := hat.read hfits
      obtain ⟨r', hread', hat', hreports⟩ := read_rest hrest hlaid hat₁
      refine ⟨r', ?_, hat', hreports.trans hreports₁⟩
      rw [← hread']
      exact readFragments_reading (by rw [hread]; rfl)

theorem cut_whole {record : List UInt8} {fs : List Fragment} (h : Whole record fs) {o o' n : ℕ}
    {bytes : List UInt8} {r : LogReader} (hlaid : Laid o fs bytes o') (hn : n < bytes.length)
    (hat : r.At o (bytes.take n)) :
    ∃ r' : LogReader, r.readRecord = (none, r') ∧ r'.reports = r.reports := by
  cases h with
  | full =>
    cases hlaid with
    | cons hfits hrest =>
      cases hrest
      rw [List.append_nil] at hat hn
      obtain ⟨r', hread, hreports⟩ := hat.cut hfits hn
      exact ⟨r', readFragments_eof hread _ _, hreports⟩
  | first first hrest =>
    cases hlaid with
    | cons hfits hlaid =>
      rcases hat.read_or_cut hfits with ⟨r', hread, hreports⟩ | ⟨hle, r₁, hread, hat₁, hreports₁⟩
      · exact ⟨r', readFragments_eof hread _ _, hreports⟩
      · rw [List.length_append] at hn
        obtain ⟨r', hread', hreports⟩ := cut_rest hrest hlaid (by omega) hat₁
        refine ⟨r', ?_, hreports.trans hreports₁⟩
        rw [← hread']
        exact readFragments_reading (by rw [hread]; rfl)

theorem read_nil {r : LogReader} {o : ℕ} (hat : r.At o []) :
    ∃ r' : LogReader, r.readRecord = (none, r') ∧ r'.reports = r.reports := by
  have hend : ∀ r₁ : LogReader, r₁.At 0 [] → ∃ r', r₁.readPhysicalRecord = ⟨kEof, [], r'⟩ ∧
      r'.reports = r₁.reports := by
    rintro r₁ (⟨-, hbuffer, hfile⟩ | ⟨heof, hbuffer, -⟩)
    · rw [(List.append_eq_nil_iff.mp hfile).1] at hbuffer
      exact absurd hbuffer (by decide)
    · exact ⟨_, readPhysicalRecord_short heof (by rw [hbuffer]; decide), rfl⟩
  have hread : ∃ r', r.readPhysicalRecord = ⟨kEof, [], r'⟩ ∧ r'.reports = r.reports := by
    rcases id hat with ⟨heof, hbuffer, hfile⟩ | ⟨heof, hbuffer, -⟩
    · rw [(List.append_eq_nil_iff.mp hfile).1] at hbuffer
      obtain ⟨r₁, hread, hat₁, hreports⟩ := hat.skip (by rw [← hbuffer]; decide) (Nat.le_of_eq hbuffer.symm)
      rw [List.drop_nil] at hat₁
      obtain ⟨r', hread', hreports'⟩ := hend r₁ hat₁
      exact ⟨r', hread.trans hread', hreports'.trans hreports⟩
    · exact ⟨_, readPhysicalRecord_short heof (by rw [hbuffer]; decide), rfl⟩
  obtain ⟨r', hread', hreports⟩ := hread
  exact ⟨r', readFragments_eof hread' _ _, hreports⟩

theorem readAll_none {r r' : LogReader} (h : r.readRecord = (none, r')) : r.readAll = ([], r') := by
  rw [readAll]
  split
  · rename_i hnone
    rw [h] at hnone
    cases hnone
    rfl
  · rename_i hsome
    rw [h] at hsome
    cases hsome

theorem readAll_some {r r' : LogReader} {record : List UInt8}
    (h : r.readRecord = (some record, r')) :
    r.readAll = (record :: r'.readAll.1, r'.readAll.2) := by
  rw [readAll]
  split
  · rename_i hnone
    rw [h] at hnone
    cases hnone
  · rename_i hsome
    rw [h] at hsome
    cases hsome
    rfl

/-- These records are found, with nothing to report, and then the file ends. -/
inductive Found : LogReader → List (List UInt8) → Prop
  | nil {r r' : LogReader} (h : r.readRecord = (none, r')) (hreports : r'.reports = r.reports) :
      Found r []
  | cons {r r' : LogReader} {record : List UInt8} {records : List (List UInt8)}
      (h : r.readRecord = (some record, r')) (hreports : r'.reports = r.reports)
      (hrest : Found r' records) : Found r (record :: records)

theorem Found.readAll {r : LogReader} {records : List (List UInt8)} (h : Found r records) :
    r.readAll.1 = records ∧ r.readAll.2.reports = r.reports := by
  induction h with
  | nil h hreports =>
    rw [readAll_none h]
    exact ⟨rfl, hreports⟩
  | cons h hreports _ ih =>
    rw [readAll_some h, ih.1]
    exact ⟨rfl, ih.2.trans hreports⟩

theorem found_init {file : List UInt8} {records : List (List UInt8)}
    (h : Found (init file).refill records) : Found (init file) records := by
  have hread : (init file).readPhysicalRecord = (init file).refill.readPhysicalRecord := by
    rw [readPhysicalRecord]
    rfl
  have hrecord : (init file).readRecord = (init file).refill.readRecord := by
    rw [readRecord, readFragments, readRecord, readFragments, hread]
  cases h with
  | nil h hreports => exact .nil (hrecord.trans h) hreports
  | cons h hreports hrest => exact .cons (hrecord.trans h) hreports hrest

end LogReader

open LogReader LogWriter

theorem exists_dest (w : LogWriter) (records : List (List UInt8)) :
    ∃ bytes, (records.foldl addRecord w).dest = w.dest ++ bytes := by
  induction records generalizing w with
  | nil => exact ⟨[], (List.append_nil _).symm⟩
  | cons record records ih =>
    obtain ⟨fs, bytes, -, hdest, -⟩ := exists_addFragments w true record
    obtain ⟨bytes', hdest'⟩ := ih (w.addRecord record)
    rw [addRecord, hdest, List.append_assoc] at hdest'
    exact ⟨bytes ++ bytes', hdest'⟩

theorem found_cut (records : List (List UInt8)) {w : LogWriter} {r : LogReader} {n : ℕ}
    {bytes : List UInt8} (hdest : (records.foldl addRecord w).dest = w.dest ++ bytes)
    (hat : r.At w.blockOffset (bytes.take n)) :
    ∃ k, Found r (records.take k) ∧ ∀ j ≤ records.length,
      ((records.take j).foldl addRecord w).dest.length ≤ w.dest.length + n ↔ j ≤ k := by
  induction records generalizing w r n bytes with
  | nil =>
    obtain rfl := List.self_eq_append_right.mp hdest
    rw [List.take_nil] at hat
    obtain ⟨r', hread, hreports⟩ := read_nil hat
    refine ⟨0, .nil hread hreports, fun j hj => ?_⟩
    obtain rfl := Nat.le_zero.mp hj
    exact iff_of_true (Nat.le_add_right _ _) (Nat.le_refl _)
  | cons record records ih =>
    obtain ⟨fs, front, hlaid, hfront, hwhole⟩ := exists_addFragments w true record
    obtain ⟨rest, hrest⟩ := exists_dest (w.addRecord record) records
    have hbytes : bytes = front ++ rest := by
      rw [addRecord, hfront, List.append_assoc] at hrest
      exact List.append_cancel_left (hdest.symm.trans hrest)
    have hwritten : ((w.addRecord record).dest).length = w.dest.length + front.length := by
      rw [addRecord, hfront, List.length_append]
    rw [hbytes] at hat
    rcases Nat.lt_or_ge n front.length with hlt | hge
    · rw [List.take_append_of_le_length (Nat.le_of_lt hlt)] at hat
      obtain ⟨r', hread, hreports⟩ := cut_whole hwhole hlaid hlt hat
      refine ⟨0, .nil hread hreports, fun j hj => ?_⟩
      cases j with
      | zero => exact iff_of_true (Nat.le_add_right _ _) (Nat.le_refl _)
      | succ j =>
        obtain ⟨more, hmore⟩ := exists_dest (w.addRecord record) (records.take j)
        refine iff_of_false (fun hle => ?_) (Nat.not_succ_le_zero j)
        rw [List.take_succ_cons, List.foldl_cons, hmore, List.length_append, hwritten] at hle
        omega
    · rw [List.take_append, List.take_of_length_le hge] at hat
      obtain ⟨r', hread, hat', hreports⟩ := read_whole hwhole hlaid hat
      obtain ⟨k, hfound, hk⟩ := ih hrest hat'
      refine ⟨k + 1, .cons hread hreports hfound, fun j hj => ?_⟩
      cases j with
      | zero => exact iff_of_true (Nat.le_add_right _ _) (Nat.zero_le _)
      | succ j =>
        have hiff := hk j (Nat.le_of_succ_le_succ hj)
        rw [List.take_succ_cons, List.foldl_cons, Nat.succ_le_succ_iff, ← hiff, hwritten]
        omega

theorem exists_found (records : List (List UInt8)) (n : ℕ) :
    ∃ k, Found (init ((records.foldl addRecord .empty).dest.take n)) (records.take k) ∧
      ∀ j ≤ records.length, ((records.take j).foldl addRecord .empty).dest.length ≤ n ↔ j ≤ k := by
  obtain ⟨k, hfound, hk⟩ := found_cut records (w := .empty) (n := n) rfl
    (at_refill (init ((records.foldl addRecord .empty).dest.take n)))
  refine ⟨k, found_init hfound, fun j hj => ?_⟩
  rw [← hk j hj]
  exact iff_of_eq (congrArg _ (Nat.zero_add n).symm)

/-- Wherever the file ends, exactly the records that are there as a whole are found, and nothing is
reported. -/
theorem log_recovered (records : List (List UInt8)) (n : ℕ) :
    ∃ k, (init ((records.foldl addRecord .empty).dest.take n)).readAll.1 = records.take k ∧
      (init ((records.foldl addRecord .empty).dest.take n)).readAll.2.reports = [] ∧
      ∀ j ≤ records.length, ((records.take j).foldl addRecord .empty).dest.length ≤ n ↔ j ≤ k := by
  obtain ⟨k, hfound, hk⟩ := exists_found records n
  exact ⟨k, hfound.readAll.1, hfound.readAll.2, hk⟩

end LevelDB
