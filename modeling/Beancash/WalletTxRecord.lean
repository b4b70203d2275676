import Beancash.ByteText
import Beancash.SerializeSpec
import Beancash.SortedMap
import Mathlib.Data.List.Lex

namespace Beancash

open ByteStream

/-- The order of `std::string`. -/
def strLess : List UInt8 → List UInt8 → Prop := List.Lex fun a b => a.toNat < b.toNat

instance : DecidableRel strLess := fun a b => inferInstanceAs (Decidable (List.Lex _ a b))

instance : IsStrictTotalOrder (List UInt8) strLess :=
  have : IsStrictTotalOrder UInt8 fun a b => a.toNat < b.toNat :=
    { trichotomous := fun a b h h' => UInt8.toNat_inj.mp (by omega)
      irrefl := fun a => Nat.lt_irrefl _
      trans := fun a b c => Nat.lt_trans }
  have horder : IsStrictTotalOrder (List UInt8) (List.Lex fun a b => a.toNat < b.toNat) :=
    { isStrictWeakOrder_of_isOrderConnected with }
  horder

/-- `mapValue_t` -/
abbrev MapValue := SortedMap strLess (List UInt8)

def unserializeString : Read (List UInt8) := do
  let nSize ← readCompactSize
  take nSize

def serializePair (item : List UInt8 × List UInt8) : List UInt8 :=
  serializeBytes item.1 ++ serializeBytes item.2

def unserializePair : Read (List UInt8 × List UInt8) := do
  let first ← unserializeString
  let second ← unserializeString
  pure (first, second)

def getSerializeSizePair (item : List UInt8 × List UInt8) : UInt32 :=
  getSerializeSizeBytes item.1 + getSerializeSizeBytes item.2

namespace MapValue

def serialize (m : MapValue) : List UInt8 := serializeVector serializePair m.entries

def unserialize : Read MapValue := do
  let nSize ← readCompactSize
  let items ← many unserializePair nSize
  pure (SortedMap.empty.insertAll items)

def getSerializeSize (m : MapValue) : UInt32 := getSerializeSizeVector getSerializeSizePair m.entries

end MapValue

def readOrderPos (mapValue : MapValue) : Int64 :=
  match mapValue.find (bytesOf "n") with
  | none => -1
  | some str => atoi64 str

def writeOrderPos (nOrderPos : Int64) (mapValue : MapValue) : MapValue :=
  if nOrderPos = -1 then mapValue else mapValue.insert (bytesOf "n") (i64tostr nOrderPos)

/-- `sizeof` of further elements of vectors. -/
structure WalletLayout extends Layout where
  merkleTx : ℕ
  stringPair : ℕ
  merkleTx_bounds : 0 < merkleTx ∧ merkleTx ≤ 5000000
  stringPair_bounds : 0 < stringPair ∧ stringPair ≤ 5000000

structure MerkleTx where
  tx : Transaction
  hashBlock : Uint256
  vMerkleBranch : List Uint256
  nIndex : Int32
deriving DecidableEq

namespace MerkleTx

def serialize (mtx : MerkleTx) : List UInt8 :=
  mtx.tx.serialize ++ littleEndian 32 mtx.hashBlock.toNat ++
    serializeVector (fun hash : Uint256 => littleEndian 32 hash.toNat) mtx.vMerkleBranch ++
    littleEndian 4 mtx.nIndex.toUInt32.toNat

def unserialize (L : Layout) : Read MerkleTx := do
  let tx ← Transaction.unserialize L
  let hashBlock ← number 32
  let vMerkleBranch ← unserializeVector 32 (BitVec.ofNat 256 <$> number 32)
  let nIndex ← number 4
  pure ⟨tx, .ofNat 256 hashBlock, vMerkleBranch, (UInt32.ofNat nIndex).toInt32⟩

def getSerializeSize (mtx : MerkleTx) : UInt32 :=
  mtx.tx.getSerializeSize + 32 + getSerializeSizeVector (fun _ => 32) mtx.vMerkleBranch + 4

end MerkleTx

/-- What is stored of a `CWalletTx`. -/
structure WalletTxRecord extends MerkleTx where
  vtxPrev : List MerkleTx
  mapValue : MapValue
  vOrderForm : List (List UInt8 × List UInt8)
  fTimeReceivedIsTxTime : UInt32
  nTimeReceived : UInt32
  nTimeSmart : UInt32
  fFromMe : UInt8
  strFromAccount : List UInt8
  vfSpent : List Bool
  nOrderPos : Int64

/-- The keys that are erased from `mapValue`. -/
def reservedKeys : List (List UInt8) :=
  [bytesOf "fromaccount", bytesOf "version", bytesOf "spent", bytesOf "n", bytesOf "timesmart"]

namespace WalletTxRecord

/-- What is done to the object unless it is read, and `fSpent`. -/
def beforeWrite (wtx : WalletTxRecord) : WalletTxRecord × Bool :=
  let mapValue := wtx.mapValue.insert (bytesOf "fromaccount") wtx.strFromAccount
  let str := wtx.vfSpent.map fun f => if f then 49 else 48
  let fSpent := wtx.vfSpent.any id
  let mapValue := mapValue.insert (bytesOf "spent") str
  let mapValue := writeOrderPos wtx.nOrderPos mapValue
  let mapValue :=
    if wtx.nTimeSmart ≠ 0 then mapValue.insert (bytesOf "timesmart") (decimal wtx.nTimeSmart.toNat)
    else mapValue
  ({ wtx with mapValue := mapValue }, fSpent)

/-- What is done to the object in the end. -/
def eraseReserved (wtx : WalletTxRecord) : WalletTxRecord :=
  { wtx with mapValue := reservedKeys.foldl SortedMap.erase wtx.mapValue }

/-- What is written, and the object afterwards. -/
def serialize (wtx : WalletTxRecord) : List UInt8 × WalletTxRecord :=
  let (wtx, fSpent) := wtx.beforeWrite
  (wtx.toMerkleTx.serialize ++ serializeVector MerkleTx.serialize wtx.vtxPrev ++
    wtx.mapValue.serialize ++ serializeVector serializePair wtx.vOrderForm ++
    littleEndian 4 wtx.fTimeReceivedIsTxTime.toNat ++ littleEndian 4 wtx.nTimeReceived.toNat ++
    littleEndian 1 wtx.fFromMe.toNat ++ littleEndian 1 fSpent.toNat, wtx.eraseReserved)

/-- The size, and the object afterwards. -/
def getSerializeSize (wtx : WalletTxRecord) : UInt32 × WalletTxRecord :=
  let (wtx, _) := wtx.beforeWrite
  (wtx.toMerkleTx.getSerializeSize + getSerializeSizeVector MerkleTx.getSerializeSize wtx.vtxPrev +
    wtx.mapValue.getSerializeSize + getSerializeSizeVector getSerializeSizePair wtx.vOrderForm +
    4 + 4 + 1 + 1, wtx.eraseReserved)

def unserialize (L : WalletLayout) : Read WalletTxRecord := do
  let mtx ← MerkleTx.unserialize L.toLayout
  let vtxPrev ← unserializeVector L.merkleTx (MerkleTx.unserialize L.toLayout)
  let mapValue ← MapValue.unserialize
  let vOrderForm ← unserializeVector L.stringPair unserializePair
  let fTimeReceivedIsTxTime ← number 4
  let nTimeReceived ← number 4
  let fFromMe ← number 1
  let fSpent ← number 1
  let wtx : WalletTxRecord :=
    { mtx with
      vtxPrev := vtxPrev
      mapValue := mapValue
      vOrderForm := vOrderForm
      fTimeReceivedIsTxTime := .ofNat fTimeReceivedIsTxTime
      nTimeReceived := .ofNat nTimeReceived
      nTimeSmart :=
        match mapValue.find (bytesOf "timesmart") with
        | some str => (atoi64 str).toUInt64.toUInt32
        | none => 0
      fFromMe := .ofNat fFromMe
      strFromAccount := (mapValue.find (bytesOf "fromaccount")).getD []
      vfSpent :=
        match mapValue.find (bytesOf "spent") with
        | some str => str.map fun c => c ≠ 48
        | none => List.replicate mtx.tx.vout.length (fSpent ≠ 0)
      nOrderPos := readOrderPos mapValue }
  pure wtx.eraseReserved

end WalletTxRecord

theorem reads_unserializeString {v : List UInt8} (h : v.length ≤ maxSize) :
    Reads unserializeString (serializeBytes v) v :=
  (reads_readCompactSize h).bind (.take v)

theorem unserializeString_of_long {v : List UInt8} (h : maxSize < v.length) (hsize : v.length < 2 ^ 64)
    (rest : List UInt8) : unserializeString.run (serializeBytes v ++ rest) = none := by
  have hread := reads_readSize hsize (v ++ rest)
  rw [unserializeString, readCompactSize, serializeBytes, List.append_assoc, StateT.run_bind,
    StateT.run_bind, hread]
  simp only [Option.bind_eq_bind, Option.bind_some]
  rw [if_pos h]
  rfl

theorem reads_unserializePair {item : List UInt8 × List UInt8} (h : item.1.length ≤ maxSize)
    (h' : item.2.length ≤ maxSize) : Reads unserializePair (serializePair item) item :=
  (reads_unserializeString h).bind ((reads_unserializeString h').bind_nil (.pure item))

/-- The map and its strings are not too long to be read. -/
structure MapValue.Readable (m : MapValue) : Prop where
  entries : m.entries.length ≤ maxSize
  strings : ∀ e ∈ m.entries, e.1.length ≤ maxSize ∧ e.2.length ≤ maxSize

theorem MapValue.reads {m : MapValue} (h : m.Readable) : Reads unserialize m.serialize m := by
  refine (reads_readCompactSize h.entries).bind (.bind_nil (.many fun e he => ?_) ?_)
  · obtain ⟨hkey, hvalue⟩ := h.strings e he
    exact reads_unserializePair hkey hvalue
  · rw [SortedMap.insertAll_entries]
    exact .pure m

structure MerkleTx.Readable (mtx : MerkleTx) : Prop where
  tx : mtx.tx.Readable
  vMerkleBranch : mtx.vMerkleBranch.length ≤ maxSize

theorem MerkleTx.reads (L : Layout) {mtx : MerkleTx} (h : mtx.Readable) :
    Reads (unserialize L) mtx.serialize mtx := by
  simp only [MerkleTx.serialize, List.append_assoc]
  refine (Transaction.reads L h.tx).bind ((reads_uint256 mtx.hashBlock).bind
    ((reads_unserializeVector (by decide) h.vMerkleBranch fun hash _ => ?_).bind
    ((reads_uint32 mtx.nIndex.toUInt32).bind_nil ?_)))
  · have hread := (reads_uint256 hash).map (BitVec.ofNat 256)
    rwa [BitVec.ofNat_toNat, BitVec.setWidth_eq] at hread
  · simp only [UInt32.ofNat_toNat, BitVec.ofNat_toNat, BitVec.setWidth_eq]
    exact .pure mtx

namespace WalletTxRecord

/-- The user has none of the reserved keys. -/
def Unreserved (wtx : WalletTxRecord) : Prop := ∀ key ∈ reservedKeys, wtx.mapValue.find key = none

theorem find_eraseAll_of_notMem {keys : List (List UInt8)} {key : List UInt8} (h : key ∉ keys)
    (m : MapValue) : (keys.foldl SortedMap.erase m).find key = m.find key := by
  induction keys generalizing m with
  | nil => rfl
  | cons k keys ih =>
    obtain ⟨hk, hkeys⟩ := not_or.mp (mt List.mem_cons.mpr h)
    rw [List.foldl_cons, ih hkeys, SortedMap.find_erase, if_neg hk]

theorem find_eraseAll_of_mem {keys : List (List UInt8)} {key : List UInt8} (h : key ∈ keys)
    (m : MapValue) : (keys.foldl SortedMap.erase m).find key = none := by
  induction keys generalizing m with
  | nil => exact absurd h List.not_mem_nil
  | cons k keys ih =>
    rw [List.foldl_cons]
    by_cases hkeys : key ∈ keys
    · exact ih hkeys _
    · have hk : key = k := (List.mem_cons.mp h).resolve_right hkeys
      rw [find_eraseAll_of_notMem hkeys, SortedMap.find_erase, if_pos hk]

theorem eraseReserved_beforeWrite {wtx : WalletTxRecord} (h : wtx.Unreserved) :
    wtx.beforeWrite.1.eraseReserved = wtx := by
  have hmap : reservedKeys.foldl SortedMap.erase wtx.beforeWrite.1.mapValue = wtx.mapValue := by
    refine SortedMap.ext_find fun key => ?_
    by_cases hkey : key ∈ reservedKeys
    · rw [find_eraseAll_of_mem hkey, h key hkey]
    · rw [find_eraseAll_of_notMem hkey]
      simp only [reservedKeys, List.mem_cons, not_or] at hkey
      obtain ⟨haccount, -, hspent, hn, hsmart, -⟩ := hkey
      unfold beforeWrite writeOrderPos
      dsimp only
      split_ifs <;> simp only [SortedMap.find_insert, if_neg haccount, if_neg hspent, if_neg hn,
        if_neg hsmart]
  rw [eraseReserved, hmap]
  rfl

theorem serialize_unchanged {wtx : WalletTxRecord} (h : wtx.Unreserved) :
    wtx.serialize.2 = wtx ∧ wtx.getSerializeSize.2 = wtx :=
  ⟨eraseReserved_beforeWrite h, eraseReserved_beforeWrite h⟩

theorem find_fromaccount (wtx : WalletTxRecord) :
    wtx.beforeWrite.1.mapValue.find (bytesOf "fromaccount") = some wtx.strFromAccount := by
  have hspent : ¬bytesOf "fromaccount" = bytesOf "spent" := by decide
  have hn : ¬bytesOf "fromaccount" = bytesOf "n" := by decide
  have hsmart : ¬bytesOf "fromaccount" = bytesOf "timesmart" := by decide
  unfold beforeWrite writeOrderPos
  dsimp only
  split_ifs <;> simp only [SortedMap.find_insert, if_neg hspent, if_neg hn, if_neg hsmart, if_true]

theorem find_spent (wtx : WalletTxRecord) : wtx.beforeWrite.1.mapValue.find (bytesOf "spent") =
    some (wtx.vfSpent.map fun f => if f then 49 else 48) := by
  have hn : ¬bytesOf "spent" = bytesOf "n" := by decide
  have hsmart : ¬bytesOf "spent" = bytesOf "timesmart" := by decide
  unfold beforeWrite writeOrderPos
  dsimp only
  split_ifs <;> simp only [SortedMap.find_insert, if_neg hn, if_neg hsmart, if_true]

theorem readOrderPos_beforeWrite {wtx : WalletTxRecord} (h : wtx.Unreserved) :
    readOrderPos wtx.beforeWrite.1.mapValue = wtx.nOrderPos := by
  have haccount : ¬bytesOf "n" = bytesOf "fromaccount" := by decide
  have hspent : ¬bytesOf "n" = bytesOf "spent" := by decide
  have hsmart : ¬bytesOf "n" = bytesOf "timesmart" := by decide
  have hnone : wtx.mapValue.find (bytesOf "n") = none := h _ (by decide)
  have hfind : wtx.beforeWrite.1.mapValue.find (bytesOf "n") =
      if wtx.nOrderPos = -1 then none else some (i64tostr wtx.nOrderPos) := by
    unfold beforeWrite writeOrderPos
    dsimp only
    split_ifs <;> simp only [SortedMap.find_insert, if_neg haccount, if_neg hspent,
      if_neg hsmart, if_true, hnone]
  rw [readOrderPos, hfind]
  split_ifs with hpos
  · exact hpos.symm
  · exact atoi64_i64tostr wtx.nOrderPos

theorem find_timesmart {wtx : WalletTxRecord} (h : wtx.Unreserved) :
    wtx.beforeWrite.1.mapValue.find (bytesOf "timesmart") =
      if wtx.nTimeSmart ≠ 0 then some (decimal wtx.nTimeSmart.toNat) else none := by
  have haccount : ¬bytesOf "timesmart" = bytesOf "fromaccount" := by decide
  have hspent : ¬bytesOf "timesmart" = bytesOf "spent" := by decide
  have hn : ¬bytesOf "timesmart" = bytesOf "n" := by decide
  have hnone : wtx.mapValue.find (bytesOf "timesmart") = none := h _ (by decide)
  unfold beforeWrite writeOrderPos
  dsimp only
  split_ifs <;> simp only [SortedMap.find_insert, if_neg haccount, if_neg hspent, if_neg hn,
    if_true, hnone]

theorem toUInt32_atoi64_decimal (n : UInt32) : (atoi64 (decimal n.toNat)).toUInt64.toUInt32 = n := by
  have hn := n.toNat_lt
  rw [atoi64_decimal (by omega), Int64.ofInt_eq_ofNat, ← UInt64.toInt64_ofNat',
    UInt64.toUInt64_toInt64, UInt64.toUInt32_ofNat', UInt32.ofNat_toNat]

/-- No string, vector or map that is written is too long to be read. -/
structure Readable (wtx : WalletTxRecord) : Prop where
  merkleTx : wtx.toMerkleTx.Readable
  vtxPrev : wtx.vtxPrev.length ≤ maxSize
  prev : ∀ mtx ∈ wtx.vtxPrev, mtx.Readable
  mapValue : wtx.beforeWrite.1.mapValue.Readable
  vOrderForm : wtx.vOrderForm.length ≤ maxSize
  strings : ∀ item ∈ wtx.vOrderForm, item.1.length ≤ maxSize ∧ item.2.length ≤ maxSize

theorem reads (L : WalletLayout) {wtx : WalletTxRecord} (hkeys : wtx.Unreserved)
    (h : wtx.Readable) : Reads (unserialize L) wtx.serialize.1 wtx := by
  rw [serialize]
  dsimp only
  simp only [List.append_assoc]
  refine (MerkleTx.reads L.toLayout h.merkleTx).bind
    ((reads_unserializeVector L.merkleTx_bounds h.vtxPrev fun mtx hmtx =>
      MerkleTx.reads L.toLayout (h.prev mtx hmtx)).bind
    ((MapValue.reads h.mapValue).bind
    ((reads_unserializeVector L.stringPair_bounds h.vOrderForm fun item hitem =>
      reads_unserializePair (h.strings item hitem).1 (h.strings item hitem).2).bind
    ((reads_uint32 _).bind ((reads_uint32 _).bind ((reads_number ?_).bind
    ((reads_number ?_).bind_nil ?_)))))))
  · exact wtx.fFromMe.toNat_lt
  · exact (Bool.toNat_lt _).trans (by decide)
  · rw [find_fromaccount, find_spent, find_timesmart hkeys, readOrderPos_beforeWrite hkeys]
    have hsmart : (match if wtx.nTimeSmart ≠ 0 then some (decimal wtx.nTimeSmart.toNat)
          else none with
        | some str => (atoi64 str).toUInt64.toUInt32
        | none => 0) = wtx.nTimeSmart := by
      split_ifs with hzero
      · exact toUInt32_atoi64_decimal wtx.nTimeSmart
      · exact (not_not.mp hzero).symm
    have hspent : (wtx.vfSpent.map fun f => if f then (49 : UInt8) else 48).map
        (fun c => decide (c ≠ 48)) = wtx.vfSpent := by
      rw [List.map_map]
      exact List.map_id'' (fun f => by cases f <;> rfl) wtx.vfSpent
    have hread : Reads (pure wtx.beforeWrite.1.eraseReserved) [] wtx := by
      rw [eraseReserved_beforeWrite hkeys]
      exact .pure wtx
    rw [hsmart]
    dsimp only [Option.getD_some]
    rw [hspent, UInt32.ofNat_toNat, UInt32.ofNat_toNat, UInt8.ofNat_toNat]
    exact hread

end WalletTxRecord

theorem getSerializeSizeVector_eq_length {α : Type} {getSerializeSize : α → UInt32}
    {serialize : α → List UInt8} (h : ∀ a, getSerializeSize a = .ofNat (serialize a).length)
    (v : List α) :
    getSerializeSizeVector getSerializeSize v = .ofNat (serializeVector serialize v).length := by
  rw [getSerializeSizeVector_eq h, length_serializeVector fun _ => rfl]

theorem getSerializeSizePair_eq (item : List UInt8 × List UInt8) :
    getSerializeSizePair item = .ofNat (serializePair item).length := by
  rw [serializePair, List.length_append, UInt32.ofNat_add, length_serializeBytes,
    length_serializeBytes]
  rfl

theorem MerkleTx.getSerializeSize_eq (mtx : MerkleTx) :
    mtx.getSerializeSize = .ofNat mtx.serialize.length := by
  have hbranch : getSerializeSizeVector (fun _ => 32) mtx.vMerkleBranch = .ofNat
      (serializeVector (fun hash : Uint256 => littleEndian 32 hash.toNat)
        mtx.vMerkleBranch).length :=
    getSerializeSizeVector_eq_length (fun hash => by rw [length_littleEndian]; rfl)
      mtx.vMerkleBranch
  simp only [MerkleTx.serialize, List.length_append, UInt32.ofNat_add, length_littleEndian]
  rw [← hbranch, mtx.tx.length_serialize, ← mtx.tx.getSerializeSize_eq]
  rfl

theorem WalletTxRecord.getSerializeSize_eq (wtx : WalletTxRecord) :
    wtx.getSerializeSize.1 = .ofNat wtx.serialize.1.length := by
  rw [serialize]
  dsimp only
  simp only [List.length_append, UInt32.ofNat_add, length_littleEndian]
  rw [← getSerializeSizeVector_eq_length MerkleTx.getSerializeSize_eq,
    ← getSerializeSizeVector_eq_length getSerializeSizePair_eq, ← MerkleTx.getSerializeSize_eq,
    MapValue.serialize, ← getSerializeSizeVector_eq_length getSerializeSizePair_eq]
  rfl

/-- A wallet transaction is as it was when it has been written or only its size been asked for,
as many bytes are written as the size says, and unless something in it is too long to be read,
all of it is read back. -/
theorem WalletTxRecord.serialize_restored (L : WalletLayout) (wtx : WalletTxRecord)
    (hkeys : wtx.Unreserved) :
    wtx.serialize.2 = wtx ∧ wtx.getSerializeSize.2 = wtx ∧
      wtx.getSerializeSize.1.toNat = wtx.serialize.1.length % 2 ^ 32 ∧
      (wtx.Readable → ∀ rest, (unserialize L).run (wtx.serialize.1 ++ rest) = some (wtx, rest)) := by
  obtain ⟨hwritten, hsized⟩ := serialize_unchanged hkeys
  refine ⟨hwritten, hsized, ?_, fun h => reads L hkeys h⟩
  rw [getSerializeSize_eq, UInt32.toNat_ofNat']

namespace Sample

def walletLayout : WalletLayout where
  toLayout := layout
  merkleTx := 144
  stringPair := 64
  merkleTx_bounds := by decide
  stringPair_bounds := layout.txIn_bounds

def accountTx (strFromAccount : List UInt8) : WalletTxRecord where
  tx := spend 1 [⟨7, 0⟩] [out 3]
  hashBlock := 5
  vMerkleBranch := [6, 7]
  nIndex := -1
  vtxPrev := []
  mapValue := SortedMap.empty.insert (bytesOf "to") (bytesOf "rent")
  vOrderForm := [(bytesOf "Message", [])]
  fTimeReceivedIsTxTime := 1
  nTimeReceived := 1500000000
  nTimeSmart := 1500000001
  fFromMe := 1
  strFromAccount := strFromAccount
  vfSpent := [true]
  nOrderPos := 12

theorem unreserved_accountTx (str : List UInt8) : (accountTx str).Unreserved := by
  have hfind : ∀ key ∈ reservedKeys, (accountTx []).mapValue.find key = none := by decide
  exact hfind

theorem readable_accountTx (str : List UInt8) : (accountTx str).toMerkleTx.Readable := by
  have hreadable : (accountTx []).toMerkleTx.Readable := by
    refine ⟨⟨?_, ?_, ?_, ?_⟩, ?_⟩ <;> decide
  exact hreadable

theorem written_accountTx (str : List UInt8) : (accountTx str).beforeWrite.1.mapValue.entries =
    [(bytesOf "fromaccount", str), (bytesOf "n", i64tostr 12), (bytesOf "spent", [49]),
      (bytesOf "timesmart", decimal 1500000001), (bytesOf "to", bytesOf "rent")] := rfl

end Sample

open Sample in
theorem WalletTxRecord.serialize_restored_account :
    (accountTx (bytesOf "savings")).Unreserved ∧
      (unserialize walletLayout).run ((accountTx (bytesOf "savings")).serialize.1 ++ [1]) =
        some (accountTx (bytesOf "savings"), [1]) := by
  have hkeys := unreserved_accountTx (bytesOf "savings")
  have hmap : (accountTx (bytesOf "savings")).beforeWrite.1.mapValue.Readable := by
    refine ⟨?_, ?_⟩ <;> rw [written_accountTx] <;> decide
  have hreadable : (accountTx (bytesOf "savings")).Readable :=
    ⟨readable_accountTx _, by decide, fun _ h => (nomatch h), hmap, by decide, by decide⟩
  exact ⟨hkeys, (serialize_restored walletLayout _ hkeys).2.2.2 hreadable [1]⟩

open Sample in
/-- An account that has one byte too many. -/
theorem WalletTxRecord.unserialize_longAccount :
    let wtx := accountTx (List.replicate (maxSize + 1) 65)
    wtx.Unreserved ∧ (unserialize walletLayout).run (wtx.serialize.1 ++ []) = none := by
  have hlong : maxSize < (List.replicate (maxSize + 1) (65 : UInt8)).length := by
    rw [List.length_replicate]
    exact Nat.lt_succ_self _
  have hsize : (List.replicate (maxSize + 1) (65 : UInt8)).length < 2 ^ 64 := by
    rw [List.length_replicate]
    decide
  generalize List.replicate (maxSize + 1) (65 : UInt8) = str at hlong hsize
  refine ⟨unreserved_accountTx str, ?_⟩
  have hmtx := MerkleTx.reads walletLayout.toLayout (readable_accountTx str)
  have hprev : Reads (unserializeVector walletLayout.merkleTx
      (MerkleTx.unserialize walletLayout.toLayout)) (serializeVector MerkleTx.serialize []) [] :=
    reads_unserializeVector walletLayout.merkleTx_bounds (Nat.zero_le _) (fun _ h => nomatch h)
  have hmap : ∀ rest, MapValue.unserialize.run
      ((accountTx str).beforeWrite.1.mapValue.serialize ++ rest) = none := by
    intro rest
    have hcount := reads_readCompactSize (show 5 ≤ maxSize by decide)
    have hkey := reads_unserializeString (show (bytesOf "fromaccount").length ≤ maxSize by decide)
    rw [MapValue.serialize, written_accountTx, serializeVector, List.append_assoc,
      MapValue.unserialize]
    refine (hcount.run_bind _ _).trans ?_
    rw [List.flatMap_cons, serializePair, List.append_assoc, List.append_assoc, many,
      unserializePair, bind_assoc, bind_assoc, hkey.run_bind, bind_assoc, StateT.run_bind,
      unserializeString_of_long hlong hsize]
    rfl
  rw [serialize]
  dsimp only
  simp only [List.append_assoc]
  rw [unserialize]
  refine (hmtx.run_bind _ _).trans ((hprev.run_bind _ _).trans ?_)
  rw [StateT.run_bind, hmap]
  rfl

end Beancash
