import Beancash.BeanStake
import Beancash.MemPool
import Beancash.Retarget
import Mathlib.Data.List.Sort

namespace Beancash

/-- `TxPriority`, with a transaction of the pool. -/
structure TxPriority (D : Type) where
  dPriority : D
  dFeePerKb : D
  ptx : Transaction

/-- `COrphan`, a transaction of the pool that waits for others. -/
structure Orphan (D : Type) where
  ptx : Transaction
  setDependsOn : Finset Uint256
  dPriority : D
  dFeePerKb : D

/-- `TxPriorityCompare` -/
def TxPriority.less {D : Type} [LT D] [DecidableLT D] [BEq D] (byFee : Bool)
    (a b : TxPriority D) : Bool :=
  if byFee then
    if a.dFeePerKb == b.dFeePerKb then decide (a.dPriority < b.dPriority)
    else decide (a.dFeePerKb < b.dFeePerKb)
  else if a.dPriority == b.dPriority then decide (a.dFeePerKb < b.dFeePerKb)
  else decide (a.dPriority < b.dPriority)

/-- A heap of the standard library: it gives a greatest element and the others, but does not
say which one of several, nor in which order the others are. -/
structure StdHeap (α : Type) where
  /-- `front`, and what `pop_heap` and `pop_back` leave -/
  pop : (α → α → Bool) → List α → Option (α × List α)
  perm : ∀ {less vec x rest}, pop less vec = some (x, rest) → (x :: rest).Perm vec
  isSome : ∀ less {vec}, vec ≠ [] → (pop less vec).isSome = true
  greatest : ∀ {less vec x rest}, pop less vec = some (x, rest) →
    (∃ y ∈ vec, ∀ z ∈ vec, less y z = false) → ∀ z ∈ vec, less x z = false

section

variable {D : Type} [Add D] [Mul D] [Div D] [IntCast D] [LT D] [DecidableLT D] [BEq D]

/-- `CTxIndex::GetDepthInMainChain` -/
def TxPos.getDepthInMainChain (P : Params) (v : ChainView) (pos : TxPos) : ℤ :=
  match (v.readHeader pos.nFile pos.nBlockPos).bind fun block =>
      v.mapBlockIndex (P.blockHash block) with
  | some pindex =>
    if v.isInMainChain pindex then 1 + v.nBestHeight - BlockPtr.nHeight pindex else 0
  | none => 0

/-- The inputs of one transaction: what it depends on, if it is an orphan, and the entries of
`mapDependers` for it. -/
structure InputScan (D : Type) where
  setDependsOn : Option (Finset Uint256)
  mapDependers : Uint256 → List ℕ
  dPriority : D
  nTotalIn : Int64

/-- An input from the pool: the orphan `porphan` has to wait for the transaction. -/
def InputScan.wait (porphan : ℕ) (s : InputScan D) (hash : Uint256) (nValueIn : Int64) :
    InputScan D :=
  { s with
    setDependsOn := some (insert hash (s.setDependsOn.getD ∅))
    mapDependers := Function.update s.mapDependers hash (s.mapDependers hash ++ [porphan])
    nTotalIn := s.nTotalIn + nValueIn }

/-- The loop over the inputs, where an orphan is the element `porphan` of `vOrphan`; whether an
input is missing. -/
def scanInputs (P : Params) (v : ChainView) (pool : TxMemPool) (porphan : ℕ) :
    InputScan D → List OutPoint → InputScan D × Bool
  | s, [] => (s, false)
  | s, prevout :: prevouts =>
    match v.readPrevout prevout with
    | some (pos, _, o) =>
      let nConf := pos.getDepthInMainChain P v
      scanInputs P v pool porphan { s with
        nTotalIn := s.nTotalIn + o.nValue
        dPriority := s.dPriority + ((o.nValue.toInt : ℤ) : D) * (nConf : D) } prevouts
    | none =>
      match pool.lookup prevout.hash with
      | none => (s, true)
      | some txPrev =>
        scanInputs P v pool porphan (s.wait porphan prevout.hash
          ((txPrev.vout[prevout.n.toNat]?).elim 0 TxOut.nValue)) prevouts

/-- `vOrphan`, in which an element that was taken off again leaves a hole, with `mapDependers`,
which has its elements by their number, and `vecPriority`. -/
structure PoolOrder (D : Type) where
  vOrphan : List (Option (Orphan D))
  mapDependers : Uint256 → List ℕ
  vecPriority : List (TxPriority D)

/-- One pass of the first loop. -/
def PoolOrder.add (P : Params) (v : ChainView) (pool : TxMemPool) (order : PoolOrder D)
    (tx : Transaction) : Option (PoolOrder D) :=
  if tx.isBeanBase || tx.isBeanStake || !tx.isFinal v.nBestHeight v.nAdjustedTime 0 0 then some order
  else
    let (s, fMissingInputs) := scanInputs P v pool order.vOrphan.length
      ⟨none, order.mapDependers, ((0 : ℤ) : D), 0⟩ tx.prevouts
    if fMissingInputs then
      -- the orphan is deleted, but not the pointers to it
      some { order with
        vOrphan := if s.setDependsOn.isSome then order.vOrphan ++ [none] else order.vOrphan
        mapDependers := s.mapDependers }
    else
      tx.getValueOut.map fun nValueOut =>
        let nTxSize : ℤ := tx.serializeSize
        let dPriority := s.dPriority / (nTxSize : D)
        let dFeePerKb := (((s.nTotalIn - nValueOut).toInt : ℤ) : D) /
          ((nTxSize : D) / ((1000 : ℤ) : D))
        match s.setDependsOn with
        | some setDependsOn =>
          { order with
            vOrphan := order.vOrphan ++ [some ⟨tx, setDependsOn, dPriority, dFeePerKb⟩]
            mapDependers := s.mapDependers }
        | none => { order with vecPriority := order.vecPriority ++ [⟨dPriority, dFeePerKb, tx⟩] }

/-- The transactions of the pool in the order of their hashes. -/
def TxMemPool.transactions (pool : TxMemPool) : List Transaction :=
  (pool.mapTx.entries.insertionSort fun a b => a.1.toNat ≤ b.1.toNat).map Sigma.snd

def PoolOrder.addAll (P : Params) (v : ChainView) (pool : TxMemPool) :
    PoolOrder D → List Transaction → Option (PoolOrder D)
  | order, [] => some order
  | order, tx :: txs => (order.add P v pool tx).bind fun order => order.addAll P v pool txs

/-- What `CreateNewBlock` is told from outside. -/
structure MinerArgs where
  /-- `-blockmaxsize`, if it is given, and so on -/
  blockMaxSize : Option Int64
  blockPrioritySize : Option Int64
  blockMinSize : Option Int64
  nMinTxFee : Int64
  beanbaseFlags : Script
  /-- the script that pays to a reserved key of the wallet -/
  reservedKey : Option Script

namespace MinerArgs

/-- A limit to between 1K and `MAX_BLOCK_SIZE` less 1K. -/
def nBlockMaxSize (args : MinerArgs) : UInt32 :=
  max 1000 (min (.ofNat (maxBlockSize - 1000))
    (.ofInt (args.blockMaxSize.getD (.ofNat (maxBlockSizeGen / 2))).toInt))

def nBlockPrioritySize (args : MinerArgs) : UInt32 :=
  min args.nBlockMaxSize (.ofInt (args.blockPrioritySize.getD 27000).toInt)

def nBlockMinSize (args : MinerArgs) : UInt32 :=
  min args.nBlockMaxSize (.ofInt (args.blockMinSize.getD 0).toInt)

end MinerArgs

/-- The block so far, without the beanbase, and the copy of the index. -/
structure BlockAssembly where
  mapTestPool : QueuedChanges
  vtx : List Transaction
  nBlockSize : UInt64
  nBlockSigOps : UInt32
  nFees : Int64

def ChainView.poolInputs (v : ChainView) (pool : TxMemPool) : InputView where
  readTxIndex := v.readTxIndex
  lookup := pool.lookup
  readTx := v.readTx
  nBestHeight := v.nBestHeight

/-- The tests of a transaction that need no inputs. -/
def BlockAssembly.hasRoom (P : Params) (args : MinerArgs) (nAdjustedTime : ℤ) (fProofOfStake : Bool)
    (nTimeBeanbase : UInt32) (s : BlockAssembly) (tx : Transaction) : Bool :=
  let nTxSize : UInt32 := .ofNat tx.serializeSize
  s.nBlockSize + nTxSize.toUInt64 < args.nBlockMaxSize.toUInt64 &&
  (s.nBlockSigOps + tx.getLegacySigOpCount P).toNat < maxBlockSigops &&
  !(decide (nAdjustedTime < tx.nTime.toNat) || fProofOfStake && decide (nTimeBeanbase < tx.nTime))

/-- Connect a transaction to a copy of the index, and put it in the block if that succeeds. -/
def BlockAssembly.connect (P : Params) (v : InputView) (pindexPrev : BlockPtr) (s : BlockAssembly)
    (tx : Transaction) : Option BlockAssembly :=
  match v.fetchInputs s.mapTestPool false true tx with
  | .error _ => none
  | .ok mapInputs =>
    -- none of these throws for inputs that have been fetched and an output sum that is known
    match tx.getValueIn mapInputs, tx.getValueOut, tx.getP2SHSigOpCount P mapInputs with
    | some nValueIn, some nValueOut, some nP2SHSigOps =>
      let nTxFees := nValueIn - nValueOut
      let nTxSigOps := tx.getLegacySigOpCount P + nP2SHSigOps
      if nTxFees < getMinFee tx s.nBlockSize.toUInt32 .block then none
      else if maxBlockSigops ≤ (s.nBlockSigOps + nTxSigOps).toNat then none
      else
        (v.connectInputs P tx mapInputs s.mapTestPool TxPos.memory pindexPrev false true).map
          fun mapTestPool =>
            { mapTestPool := mapTestPool.insert (P.txHash tx)
                (TxIndex.new (some TxPos.memory) tx.vout.length)
              vtx := s.vtx ++ [tx]
              nBlockSize := s.nBlockSize + (UInt32.ofNat tx.serializeSize).toUInt64
              nBlockSigOps := s.nBlockSigOps + nTxSigOps
              nFees := s.nFees + nTxFees }
    | _, _, _ => none

/-- Take a transaction from what its dependers wait for; who waits for nothing more is pushed. -/
def release (hash : Uint256) : List ℕ → List (Option (Orphan D)) × List (TxPriority D) →
    Option (List (Option (Orphan D)) × List (TxPriority D))
  | [], q => some q
  | i :: porphans, (vOrphan, vecPriority) =>
    match vOrphan[i]?.join with
    | none => none
    | some orphan =>
      if orphan.setDependsOn = ∅ then release hash porphans (vOrphan, vecPriority)
      else
        let setDependsOn := orphan.setDependsOn.erase hash
        release hash porphans (vOrphan.set i (some { orphan with setDependsOn := setDependsOn }),
          if setDependsOn = ∅ then
            vecPriority ++ [⟨orphan.dPriority, orphan.dFeePerKb, orphan.ptx⟩]
          else vecPriority)

/-- The state of the second loop. -/
structure MinerState (D : Type) extends PoolOrder D where
  block : BlockAssembly
  fSortedByFee : Bool

/-- What stays the same in the second loop. -/
structure MinerTask where
  args : MinerArgs
  inputs : InputView
  pindexPrev : BlockPtr
  nAdjustedTime : ℤ
  fProofOfStake : Bool
  nTimeBeanbase : UInt32

/-- One pass of the second loop, with what was taken off the queue. -/
def MinerTask.step (P : Params) (task : MinerTask) (s : MinerState D) (p : TxPriority D) :
    Option (MinerState D) :=
  let tx := p.ptx
  let nNewSize := s.block.nBlockSize + (UInt32.ofNat tx.serializeSize).toUInt64
  if !s.block.hasRoom P task.args task.nAdjustedTime task.fProofOfStake task.nTimeBeanbase tx then
    some s
  -- skip free transactions past the minimum block size
  else if s.fSortedByFee && decide (p.dFeePerKb < ((task.args.nMinTxFee.toInt : ℤ) : D)) &&
      decide (task.args.nBlockMinSize.toUInt64 ≤ nNewSize) then some s
  else
    -- prioritize by fee past the priority size or when priorities get low
    let fSortedByFee := s.fSortedByFee ||
      (decide (task.args.nBlockPrioritySize.toUInt64 ≤ nNewSize) ||
        decide (p.dPriority < (((bean * 144 / 250).toInt : ℤ) : D)))
    match s.block.connect P task.inputs task.pindexPrev tx with
    | none => some { s with fSortedByFee := fSortedByFee }
    | some block =>
      (release (P.txHash tx) (s.mapDependers (P.txHash tx)) (s.vOrphan, s.vecPriority)).map
        fun q => { s with
          vOrphan := q.1, vecPriority := q.2, block := block, fSortedByFee := fSortedByFee }

/-- The second loop; it takes at most one pass for each element of the queue and each orphan. -/
def MinerTask.run (P : Params) (heap : StdHeap (TxPriority D)) (task : MinerTask) :
    ℕ → MinerState D → Option BlockAssembly
  | 0, _ => none
  | fuel + 1, s =>
    match heap.pop (TxPriority.less s.fSortedByFee) s.vecPriority with
    | none => some s.block
    | some (p, vecPriority) =>
      (task.step P { s with vecPriority := vecPriority } p).bind fun s => task.run P heap fuel s

/-- `GetMedianTimePast` and `GetPastTimeLimit`: the median of the times of the last blocks. -/
def BlockPtr.getPastTimeLimit (pindex : BlockPtr) : ℤ :=
  let times := ((pindex.take 11).map BlockIndex.blockTime).insertionSort (· ≤ ·)
  times.getD (times.length / 2) 0

def pastDrift (nTime : ℤ) : ℤ := nTime - 10 * 60

def getMaxTransactionTime (vtx : List Transaction) : ℤ :=
  vtx.foldl (fun maxTransactionTime tx => max maxTransactionTime (tx.nTime.toNat : ℤ)) 0

/-- The beanbase, whose output gets its value later. -/
def newBeanbase (args : MinerArgs) (v : ChainView) (fProofOfStake : Bool) : Option Transaction :=
  let tx (scriptSig : Script) (o : TxOut) : Transaction :=
    ⟨1, .ofInt v.nAdjustedTime, [⟨⟨0, 0xffffffff⟩, scriptSig, 0xffffffff⟩], [o], 0⟩
  if fProofOfStake then
    let scriptSig := heightScript (BlockPtr.nHeight v.pindexBest + 1) ++ args.beanbaseFlags
    if scriptSig.length ≤ 100 then some (tx scriptSig ⟨0, []⟩) else none
  else args.reservedKey.map fun scriptPubKey => tx [] ⟨-1, scriptPubKey⟩

/-- The time of a block with these transactions. -/
def newBlockTime (pindexPrev : BlockPtr) (vtx : List Transaction) : UInt32 :=
  let nTime := UInt32.ofInt
    (max (BlockPtr.getPastTimeLimit pindexPrev + 1) (getMaxTransactionTime vtx))
  .ofInt (max nTime.toNat (pastDrift (BlockPtr.blockTime pindexPrev)))

/-- The transactions of the pool that go into a block, with the end of the loop. -/
def collectTransactions (P : Params) (heap : StdHeap (TxPriority D)) (task : MinerTask)
    (v : ChainView) (pool : TxMemPool) : Option BlockAssembly :=
  (PoolOrder.addAll P v pool ⟨[], fun _ => [], []⟩ pool.transactions).bind fun order =>
    task.run P heap (order.vecPriority.length + order.vOrphan.length + 1)
      { order with
        block := ⟨∅, [], 1000, 100, 0⟩, fSortedByFee := decide (task.args.nBlockPrioritySize ≤ 0) }

/-- `CreateNewBlock`: the template and `*pFees`. -/
def createNewBlock (P : Params) (heap : StdHeap (TxPriority D)) (args : MinerArgs) (v : ChainView)
    (pool : TxMemPool) (fProofOfStake : Bool) : Option (Block × Int64) := do
  let txNew ← newBeanbase args v fProofOfStake
  let nBits := getNextTargetRequired P v.pindexBest fProofOfStake
  let s ← collectTransactions P heap
    ⟨args, v.poolInputs pool, v.pindexBest, v.nAdjustedTime, fProofOfStake, txNew.nTime⟩ v pool
  let txNew := if fProofOfStake then txNew else
    { txNew with vout := txNew.vout.map fun o => { o with nValue := getProofOfWorkReward s.nFees } }
  let vtx := txNew :: s.vtx
  let nTime := newBlockTime v.pindexBest vtx
  let nTime := if fProofOfStake then nTime else .ofInt (max nTime.toNat v.nAdjustedTime)
  return (⟨⟨1, BlockPtr.hash v.pindexBest, 0, nTime, nBits, 0⟩, vtx, []⟩, s.nFees)

end

namespace Sample

/-- The heap that gives the first of several greatest elements. -/
def heap (α : Type) : StdHeap α where
  pop less vec :=
    match vec.findIdx? fun x => vec.all fun z => !less x z with
    | some i => (vec[i]?).map fun x => (x, vec.eraseIdx i)
    | none => vec.head?.map fun x => (x, vec.tail)
  perm {less vec x rest} h := by
    split at h
    · obtain ⟨x, hx, heq⟩ := Option.map_eq_some_iff.mp h
      obtain ⟨rfl, rfl⟩ := Prod.mk.inj heq
      obtain ⟨hlt, rfl⟩ := List.getElem?_eq_some_iff.mp hx
      exact List.getElem_cons_eraseIdx_perm hlt
    · cases vec with
      | nil => cases h
      | cons y vec =>
        obtain ⟨rfl, rfl⟩ := Prod.mk.inj (Option.some_injective _ h)
        exact List.Perm.refl _
  isSome less vec hne := by
    split
    · next i hi =>
      obtain ⟨hlt, -⟩ := List.findIdx?_eq_some_iff_getElem.mp hi
      rw [List.getElem?_eq_getElem hlt]
      rfl
    · cases vec with
      | nil => exact absurd rfl hne
      | cons y vec => rfl
  greatest {less vec x rest} h hex := by
    split at h
    · next i hi =>
      obtain ⟨hlt, hall, -⟩ := List.findIdx?_eq_some_iff_getElem.mp hi
      obtain ⟨x, hx, heq⟩ := Option.map_eq_some_iff.mp h
      obtain ⟨rfl, rfl⟩ := Prod.mk.inj heq
      obtain ⟨_, rfl⟩ := List.getElem?_eq_some_iff.mp hx
      simpa using hall
    · next hnone =>
      obtain ⟨y, hy, hgreatest⟩ := hex
      have hnot := List.findIdx?_eq_none_iff.mp hnone y hy
      rw [List.all_eq_false] at hnot
      obtain ⟨z, hz, hlt⟩ := hnot
      rw [hgreatest z hz] at hlt
      exact absurd rfl hlt

end Sample

end Beancash
