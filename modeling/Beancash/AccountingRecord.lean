import Beancash.WalletTxRecord
import Mathlib.Algebra.Order.BigOperators.Group.List

namespace Beancash

open ByteStream

/-- What is stored of a `CAccountingEntry`. The account is part of the key. -/
structure AccountingRecord where
  nCreditDebit : Int64
  nTime : Int64
  strOtherAccount : List UInt8
  strComment : List UInt8
  mapValue : MapValue
  nOrderPos : Int64
  ssExtra : List UInt8

/-- The string up to the separator, if there is one. -/
def cutAtSeparator (str : List UInt8) : List UInt8 :=
  match str.idxOf? 0 with
  | some nSepPos => str.take nSepPos
  | none => str

namespace AccountingRecord

/-- A new entry. -/
def null : AccountingRecord := ⟨0, 0, [], [], .empty, -1, []⟩

/-- What is done to the entry before its comment is written. -/
def beforeWrite (me : AccountingRecord) : AccountingRecord :=
  let mapValue := writeOrderPos me.nOrderPos me.mapValue
  let strComment :=
    if mapValue.entries.isEmpty && me.ssExtra.isEmpty then me.strComment
    else me.strComment ++ 0 :: (mapValue.serialize ++ me.ssExtra)
  { me with mapValue := mapValue, strComment := strComment }

/-- What is done to the entry in the end. -/
def afterwards (me : AccountingRecord) : AccountingRecord :=
  { me with
    strComment := cutAtSeparator me.strComment
    mapValue := me.mapValue.erase (bytesOf "n") }

/-- Whether the version is left out. -/
def hashed (nType : ℕ) : Bool := nType &&& serGetHash != 0

/-- What is written, and the entry afterwards. -/
def serialize (nType : ℕ) (nVersion : Int32) (me : AccountingRecord) :
    List UInt8 × AccountingRecord :=
  let version := if hashed nType then [] else littleEndian 4 nVersion.toUInt32.toNat
  (version ++ littleEndian 8 me.nCreditDebit.toUInt64.toNat ++
    littleEndian 8 me.nTime.toUInt64.toNat ++ serializeBytes me.strOtherAccount ++
    serializeBytes me.beforeWrite.strComment, me.beforeWrite.afterwards)

/-- The size, and the entry afterwards. -/
def getSerializeSize (nType : ℕ) (me : AccountingRecord) : UInt32 × AccountingRecord :=
  ((if hashed nType then 0 else 4) + 8 + 8 + getSerializeSizeBytes me.strOtherAccount +
    getSerializeSizeBytes me.beforeWrite.strComment, me.beforeWrite.afterwards)

/-- What is read of the version. -/
def readVersion (nType : ℕ) : Read Unit :=
  if hashed nType then pure () else (fun _ => ()) <$> number 4

/-- The map and the extra data in a comment that was read, if they can be read. Without a separator
there is no map, and the extra data is left as it is. -/
def readExtra (me : AccountingRecord) : Option (MapValue × List UInt8) :=
  match me.strComment.idxOf? 0 with
  | some nSepPos => MapValue.unserialize.run (me.strComment.drop (nSepPos + 1))
  | none => some (.empty, me.ssExtra)

def splitComment (me : AccountingRecord) : Option AccountingRecord :=
  (readExtra me).map fun (mapValue, ssExtra) =>
    { me with mapValue := mapValue, ssExtra := ssExtra, nOrderPos := readOrderPos mapValue }

/-- `Unserialize` into an entry. -/
def unserialize (nType : ℕ) (me : AccountingRecord) : Read AccountingRecord := do
  readVersion nType
  let nCreditDebit ← number 8
  let nTime ← number 8
  let strOtherAccount ← unserializeString
  let strComment ← unserializeString
  let me ← StateT.lift (splitComment { me with
    nCreditDebit := (UInt64.ofNat nCreditDebit).toInt64
    nTime := (UInt64.ofNat nTime).toInt64
    strOtherAccount := strOtherAccount
    strComment := strComment })
  pure me.afterwards

end AccountingRecord

theorem zero_notMem_cutAtSeparator (str : List UInt8) : 0 ∉ cutAtSeparator str := by
  rw [cutAtSeparator]
  split
  · rename_i nSepPos hpos
    obtain ⟨hlt, -, hbefore⟩ := List.idxOf?_eq_some_iff.mp hpos
    intro hmem
    obtain ⟨i, hi, hzero⟩ := List.mem_iff_getElem.mp hmem
    rw [List.length_take] at hi
    rw [List.getElem_take] at hzero
    exact hbefore i (by omega) hzero
  · rename_i hnone
    exact List.idxOf?_eq_none_iff.mp hnone

theorem idxOf?_separator {str : List UInt8} (h : 0 ∉ str) (rest : List UInt8) :
    (str ++ 0 :: rest).idxOf? 0 = some str.length := by
  refine List.idxOf?_eq_some_iff.mpr ⟨by simp, by simp, fun i hi hzero => h ?_⟩
  rw [List.getElem_append_left hi] at hzero
  exact List.mem_iff_getElem.mpr ⟨i, hi, hzero⟩

theorem cutAtSeparator_append {str : List UInt8} (h : 0 ∉ str) (rest : List UInt8) :
    cutAtSeparator (str ++ 0 :: rest) = str := by
  rw [cutAtSeparator, idxOf?_separator h]
  exact List.take_left

theorem cutAtSeparator_of_notMem {str : List UInt8} (h : 0 ∉ str) : cutAtSeparator str = str := by
  rw [cutAtSeparator, List.idxOf?_eq_none_iff.mpr h]

theorem reads_readSize_any (nSize : ℕ) :
    ∃ nSizeRet, Reads readSize (writeCompactSize nSize) nSizeRet := by
  rcases Nat.lt_or_ge nSize (2 ^ 64) with hlt | hge
  · exact ⟨nSize, reads_readSize hlt⟩
  · rw [writeCompactSize, if_neg (by omega), if_neg (by omega), if_neg (by omega)]
    exact ⟨_, (reads_number (by decide)).bind (reads_number_any 8 nSize)⟩

theorem length_of_unserializeString {v w rest rest' : List UInt8}
    (h : unserializeString.run (serializeBytes v ++ rest) = some (w, rest')) :
    w.length ≤ maxSize ∧ w.length + rest'.length = v.length + rest.length := by
  obtain ⟨nSize, hsize⟩ := reads_readSize_any v.length
  rw [unserializeString, readCompactSize, serializeBytes, List.append_assoc, bind_assoc,
    hsize.run_bind] at h
  by_cases hlong : maxSize < nSize
  · rw [if_pos hlong] at h
    cases h
  · rw [if_neg hlong] at h
    change (if nSize ≤ (v ++ rest).length then
      some ((v ++ rest).take nSize, (v ++ rest).drop nSize) else none) = _ at h
    split at h
    · rename_i hle
      obtain ⟨rfl, rfl⟩ := Prod.mk.inj (Option.some_injective _ h)
      have hlen : (v ++ rest).length = v.length + rest.length := List.length_append
      rw [List.length_take, List.length_drop]
      omega
    · cases h

namespace AccountingRecord

/-- The length of the comment with what is appended to it. -/
def commentSize (me : AccountingRecord) : ℕ :=
  let mapValue := writeOrderPos me.nOrderPos me.mapValue
  me.strComment.length +
    if mapValue.entries.isEmpty && me.ssExtra.isEmpty then 0
    else 1 + mapValue.serialize.length + me.ssExtra.length

theorem length_beforeWrite (me : AccountingRecord) :
    me.beforeWrite.strComment.length = me.commentSize := by
  unfold beforeWrite commentSize
  dsimp only
  split_ifs
  · rfl
  · rw [List.length_append, List.length_cons, List.length_append]
    omega

theorem erase_writeOrderPos {nOrderPos : Int64} {mapValue : MapValue}
    (h : mapValue.find (bytesOf "n") = none) :
    (writeOrderPos nOrderPos mapValue).erase (bytesOf "n") = mapValue := by
  refine SortedMap.ext_find fun key => ?_
  rw [SortedMap.find_erase]
  split_ifs with hkey
  · rw [hkey, h]
  · rw [writeOrderPos]
    split_ifs
    · rfl
    · rw [SortedMap.find_insert, if_neg hkey]

theorem readOrderPos_writeOrderPos {nOrderPos : Int64} {mapValue : MapValue}
    (h : mapValue.find (bytesOf "n") = none) :
    readOrderPos (writeOrderPos nOrderPos mapValue) = nOrderPos := by
  rw [readOrderPos, writeOrderPos]
  split_ifs with hpos
  · rw [h]
    exact hpos.symm
  · rw [SortedMap.find_insert, if_pos rfl]
    exact atoi64_i64tostr nOrderPos

theorem afterwards_beforeWrite {me : AccountingRecord} (hkey : me.mapValue.find (bytesOf "n") = none)
    (hcomment : 0 ∉ me.strComment) : me.beforeWrite.afterwards = me := by
  have hcut : cutAtSeparator me.beforeWrite.strComment = me.strComment := by
    unfold beforeWrite
    dsimp only
    split_ifs
    · exact cutAtSeparator_of_notMem hcomment
    · exact cutAtSeparator_append hcomment _
  have hmap : me.beforeWrite.mapValue.erase (bytesOf "n") = me.mapValue := erase_writeOrderPos hkey
  rw [afterwards, hcut, hmap]
  rfl

theorem notMem_of_afterwards_beforeWrite {me : AccountingRecord}
    (h : me.beforeWrite.afterwards = me) : 0 ∉ me.strComment := by
  rw [← h]
  exact zero_notMem_cutAtSeparator me.beforeWrite.strComment

end AccountingRecord

/-- A map that did not take more than so many bytes has nothing in it that is too long. -/
theorem MapValue.readable_of_length {m : MapValue} (h : m.serialize.length ≤ maxSize) :
    m.Readable := by
  have hflat : (m.entries.flatMap serializePair).length ≤ maxSize := by
    rw [serialize, serializeVector, List.length_append] at h
    omega
  have hpair : ∀ e : List UInt8 × List UInt8,
      e.1.length ≤ (serializePair e).length ∧ e.2.length ≤ (serializePair e).length ∧
        1 ≤ (serializePair e).length := by
    intro e
    have hpos : ∀ nSize, 1 ≤ getSizeOfCompactSize nSize := by
      intro nSize
      unfold getSizeOfCompactSize
      split_ifs <;> decide
    have hfirst := hpos e.1.length
    rw [serializePair, List.length_append, length_serializeBytes, length_serializeBytes]
    omega
  rw [List.length_flatMap] at hflat
  refine ⟨?_, fun e he => ?_⟩
  · have hcount : m.entries.length ≤ (m.entries.map fun e => (serializePair e).length).sum := by
      have hone := List.length_le_sum_of_one_le (m.entries.map fun e => (serializePair e).length)
        (by rintro n hn; obtain ⟨e, -, rfl⟩ := List.mem_map.mp hn; exact (hpair e).2.2)
      rwa [List.length_map] at hone
    omega
  · have hmem := List.single_le_sum (fun _ _ => Nat.zero_le _) _
      (List.mem_map_of_mem (f := fun e => (serializePair e).length) he)
    have hfst := (hpair e).1
    have hsnd := (hpair e).2.1
    omega

namespace AccountingRecord

theorem splitComment_beforeWrite {me : AccountingRecord}
    (hkey : me.mapValue.find (bytesOf "n") = none) (hcomment : 0 ∉ me.strComment)
    (hsize : me.commentSize ≤ maxSize) :
    splitComment { me with
      mapValue := .empty
      nOrderPos := -1
      ssExtra := []
      strComment := me.beforeWrite.strComment } = some me.beforeWrite := by
  have hpos : readOrderPos (writeOrderPos me.nOrderPos me.mapValue) = me.nOrderPos :=
    readOrderPos_writeOrderPos hkey
  unfold commentSize at hsize
  unfold splitComment readExtra beforeWrite
  dsimp only at hsize ⊢
  generalize writeOrderPos me.nOrderPos me.mapValue = mapValue at hpos hsize ⊢
  by_cases hplain : (mapValue.entries.isEmpty && me.ssExtra.isEmpty) = true
  · obtain ⟨hentries, hextra⟩ := Bool.and_eq_true_iff.mp hplain
    have hmap : mapValue = .empty := by
      refine SortedMap.ext_find fun key => ?_
      rw [SortedMap.find, List.isEmpty_iff.mp hentries]
      rfl
    rw [if_pos hplain, List.idxOf?_eq_none_iff.mpr hcomment, ← hmap]
    dsimp only [Option.map_some]
    rw [hpos, ← List.isEmpty_iff.mp hextra]
  · rw [if_neg hplain] at hsize
    have hreadable : mapValue.Readable := MapValue.readable_of_length (by omega)
    have hread := MapValue.reads hreadable me.ssExtra
    rw [if_neg hplain, idxOf?_separator hcomment]
    dsimp only
    have hdrop : (me.strComment ++ 0 :: (mapValue.serialize ++ me.ssExtra)).drop
        (me.strComment.length + 1) = mapValue.serialize ++ me.ssExtra := by
      rw [List.drop_append, List.drop_of_length_le (Nat.le_succ _), Nat.add_sub_cancel_left]
      rfl
    rw [hdrop, hread]
    dsimp only [Option.map_some]
    rw [hpos]

theorem reads_readVersion (nType : ℕ) (nVersion : Int32) : Reads (readVersion nType)
    (if hashed nType then [] else littleEndian 4 nVersion.toUInt32.toNat) () := by
  unfold readVersion
  split_ifs
  · exact .pure ()
  · exact (reads_uint32 nVersion.toUInt32).map fun _ => ()

theorem reads_unserialize (nType : ℕ) (nVersion : Int32) {me : AccountingRecord}
    (hkey : me.mapValue.find (bytesOf "n") = none) (hcomment : 0 ∉ me.strComment)
    (hother : me.strOtherAccount.length ≤ maxSize) (hsize : me.commentSize ≤ maxSize) :
    Reads (unserialize nType null) (me.serialize nType nVersion).1 me := by
  rw [serialize]
  dsimp only
  simp only [List.append_assoc]
  refine (reads_readVersion nType nVersion).bind ((reads_uint64 me.nCreditDebit.toUInt64).bind
    ((reads_uint64 me.nTime.toUInt64).bind ((reads_unserializeString hother).bind
    ((reads_unserializeString ((length_beforeWrite me).trans_le hsize)).bind_nil ?_))))
  have hsplit := splitComment_beforeWrite hkey hcomment hsize
  have hread : Reads (do
      let me ← StateT.lift (splitComment { me with
        mapValue := .empty
        nOrderPos := -1
        ssExtra := []
        strComment := me.beforeWrite.strComment })
      pure me.afterwards) [] me := by
    rw [hsplit]
    exact fun rest => congrArg (fun me => some (me, rest)) (afterwards_beforeWrite hkey hcomment)
  simp only [UInt64.ofNat_toNat]
  exact hread

theorem strOtherAccount_of_splitComment {me me' : AccountingRecord}
    (h : splitComment me = some me') : me'.strOtherAccount = me.strOtherAccount := by
  obtain ⟨_, -, rfl⟩ := Option.map_eq_some_iff.mp h
  rfl

theorem lengths_of_unserialize {nType : ℕ} {nVersion : Int32} {me : AccountingRecord}
    (h : (unserialize nType null).run (me.serialize nType nVersion).1 = some (me, [])) :
    me.strOtherAccount.length ≤ maxSize ∧ me.commentSize ≤ maxSize := by
  rw [serialize] at h
  dsimp only at h
  simp only [List.append_assoc] at h
  rw [unserialize, (reads_readVersion nType nVersion).run_bind,
    (reads_uint64 me.nCreditDebit.toUInt64).run_bind, (reads_uint64 me.nTime.toUInt64).run_bind,
    StateT.run_bind] at h
  obtain ⟨⟨strOtherAccount, s⟩, hother, h⟩ := Option.bind_eq_some_iff.mp h
  rw [StateT.run_bind] at h
  obtain ⟨⟨strComment, s'⟩, hcomment, h⟩ := Option.bind_eq_some_iff.mp h
  rw [StateT.run_bind] at h
  obtain ⟨⟨me', s''⟩, hlift, h⟩ := Option.bind_eq_some_iff.mp h
  obtain ⟨hme, rfl⟩ := Prod.mk.inj (Option.some_injective _ h)
  obtain ⟨me'', hsplit, hlift⟩ := Option.bind_eq_some_iff.mp hlift
  obtain ⟨rfl, rfl⟩ := Prod.mk.inj (Option.some_injective _ hlift)
  have hsame : strOtherAccount = me.strOtherAccount := by
    rw [← hme]
    exact (strOtherAccount_of_splitComment hsplit).symm
  have hle : me.strOtherAccount.length ≤ maxSize := by
    rw [← List.append_nil (serializeBytes me.beforeWrite.strComment)] at hother
    exact hsame ▸ (length_of_unserializeString hother).1
  refine ⟨hle, ?_⟩
  rw [reads_unserializeString hle] at hother
  obtain ⟨-, rfl⟩ := Prod.mk.inj (Option.some_injective _ hother)
  dsimp only at hcomment
  rw [← List.append_nil (serializeBytes me.beforeWrite.strComment)] at hcomment
  obtain ⟨hmax, hlen⟩ := length_of_unserializeString hcomment
  rw [← length_beforeWrite]
  simp only [List.length_nil, Nat.add_zero] at hlen
  omega

end AccountingRecord

/-- An entry is left as it was and comes back, whatever comes after it, if and only if its comment
has no zero byte in it and neither the other account nor the comment, with what is appended to it,
is too long to be read. -/
theorem AccountingRecord.restored_iff (nType : ℕ) (nVersion : Int32) (me : AccountingRecord)
    (hkey : me.mapValue.find (bytesOf "n") = none) :
    ((me.serialize nType nVersion).2 = me ∧ (me.getSerializeSize nType).2 = me ∧
      ∀ rest, (unserialize nType null).run ((me.serialize nType nVersion).1 ++ rest) =
        some (me, rest)) ↔
    0 ∉ me.strComment ∧ me.strOtherAccount.length ≤ maxSize ∧ me.commentSize ≤ maxSize := by
  constructor
  · rintro ⟨hsame, -, hread⟩
    have hnil := hread []
    rw [List.append_nil] at hnil
    exact ⟨notMem_of_afterwards_beforeWrite hsame, lengths_of_unserialize hnil⟩
  · rintro ⟨hcomment, hother, hsize⟩
    have hsame := afterwards_beforeWrite hkey hcomment
    exact ⟨hsame, hsame, reads_unserialize nType nVersion hkey hcomment hother hsize⟩

namespace Sample

/-- What `move` writes with this comment. -/
def movedEntry (strComment : List UInt8) : AccountingRecord where
  nCreditDebit := -5
  nTime := 1500000000
  strOtherAccount := bytesOf "rent"
  strComment := strComment
  mapValue := .empty
  nOrderPos := 3
  ssExtra := []

end Sample

open Sample in
theorem AccountingRecord.restored_iff_plain :
    (movedEntry (bytesOf "for May")).mapValue.find (bytesOf "n") = none ∧
      ∀ rest, (unserialize serDisk null).run
        (((movedEntry (bytesOf "for May")).serialize serDisk 1).1 ++ rest) =
          some (movedEntry (bytesOf "for May"), rest) := by
  have hsize : (movedEntry (bytesOf "for May")).commentSize ≤ maxSize := by decide
  exact ⟨rfl, ((restored_iff serDisk 1 (movedEntry (bytesOf "for May")) rfl).mpr
    ⟨by decide, by decide, hsize⟩).2.2⟩

open Sample in
/-- A comment with a zero byte is cut off there, and the entry cannot be read any more. -/
theorem AccountingRecord.not_restored_zero :
    let me := movedEntry (bytesOf "for" ++ 0 :: bytesOf "May")
    me.mapValue.find (bytesOf "n") = none ∧
      (me.serialize serDisk 1).2.strComment = bytesOf "for" ∧
      ((unserialize serDisk null).run (me.serialize serDisk 1).1).isNone ∧
      ¬((me.serialize serDisk 1).2 = me ∧ (me.getSerializeSize serDisk).2 = me ∧
        ∀ rest, (unserialize serDisk null).run ((me.serialize serDisk 1).1 ++ rest) =
          some (me, rest)) := by
  have hcut : ((movedEntry (bytesOf "for" ++ 0 :: bytesOf "May")).serialize serDisk 1).2.strComment =
      bytesOf "for" := by decide
  refine ⟨rfl, hcut, by decide, fun h => ?_⟩
  rw [h.1] at hcut
  revert hcut
  decide

end Beancash
