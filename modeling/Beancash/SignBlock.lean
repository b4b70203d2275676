import Beancash.StakeAccepted
import Beancash.TemplateSpec

namespace Beancash

variable {P : Params} {D : Type}

/-- The block with the beansprout, before it is signed. -/
def Block.addBeanStake (P : Params) (pindexBest : BlockPtr) (b : Block) (beanbase : Transaction)
    (vtx : List Transaction) (txBeanStake : Transaction) : Block :=
  let vtx := { beanbase with nTime := txBeanStake.nTime } :: vtx
  let nTime := newBlockTime pindexBest vtx
  -- no future timestamps
  let vtx := (vtx.filter fun tx => !decide (nTime < tx.nTime)).insertIdx 1 txBeanStake
  { b with
    header := { b.header with nTime := nTime, hashMerkleRoot := buildMerkleTree P vtx }
    vtx := vtx }

/-- `CBlock::SignBlock`, with `nLastBeanStakeSearchTime` before and after it. -/
def Block.signBlock (P : Params) (v : ChainView) (w : StakingWallet)
    (sign : Key → Uint256 → Option (List UInt8)) (nLastBeanStakeSearchTime : ℤ) (nFees : Int64)
    (b : Block) : Option Block × ℤ :=
  match b.vtx with
  | [] => (none, nLastBeanStakeSearchTime)
  | beanbase :: vtx =>
    if !beanbase.vout.head?.any TxOut.isEmpty then (none, nLastBeanStakeSearchTime)
    else if b.isProofOfStake then (some b, nLastBeanStakeSearchTime)
    else
      let nTime := UInt32.ofInt v.nAdjustedTime
      let nSearchTime : ℤ := nTime.toNat
      if nLastBeanStakeSearchTime < nSearchTime then
        match createBeanStake P v w b.header.nBits (nSearchTime - nLastBeanStakeSearchTime) nFees
            nTime with
        | none => (none, nSearchTime)
        | some (txBeanStake, key) =>
          if max (BlockPtr.getPastTimeLimit v.pindexBest + 1)
              (pastDrift (BlockPtr.blockTime v.pindexBest)) ≤ txBeanStake.nTime.toNat then
            let b := b.addBeanStake P v.pindexBest beanbase vtx txBeanStake
            ((sign key (b.hash P)).map fun vchBlockSig => { b with vchBlockSig := vchBlockSig },
              nLastBeanStakeSearchTime)
          else (none, nSearchTime)
      else (none, nLastBeanStakeSearchTime)

/-- The rules of `CheckBlock` and `AcceptBlock` about the times of a block of proof of bean and
about its height. -/
def Block.meetsTimes (v : ChainView) (b : Block) : Bool :=
  (b.vtx[1]?.any fun tx => checkBeanStakeTimestamp b.blockTime tx.nTime.toNat) &&
  (b.vtx.all fun tx => decide ((tx.nTime.toNat : ℤ) ≤ b.blockTime)) &&
  !(decide (b.blockTime ≤ BlockPtr.getPastTimeLimit v.pindexBest) ||
    decide (futureDrift b.blockTime < BlockPtr.blockTime v.pindexBest)) &&
  (b.vtx.all fun tx => tx.isFinal v.nBestHeight v.nAdjustedTime
    (BlockPtr.nHeight v.pindexBest + 1) b.blockTime) &&
  beanbaseHeightMatches b (BlockPtr.nHeight v.pindexBest + 1)

theorem getMaxTransactionTime_le_iff {vtx : List Transaction} {t : ℤ} :
    getMaxTransactionTime vtx ≤ t ↔ 0 ≤ t ∧ ∀ tx ∈ vtx, (tx.nTime.toNat : ℤ) ≤ t := by
  unfold getMaxTransactionTime
  generalize (0 : ℤ) = a
  induction vtx generalizing a with
  | nil => simp
  | cons tx vtx ih => rw [List.foldl_cons, ih, max_le_iff, List.forall_mem_cons, and_assoc]

theorem nTime_le_getMaxTransactionTime {vtx : List Transaction} {tx : Transaction} (h : tx ∈ vtx) :
    (tx.nTime.toNat : ℤ) ≤ getMaxTransactionTime vtx :=
  (getMaxTransactionTime_le_iff.mp (le_refl _)).2 tx h

theorem nTime_le_getMaxTransactionTime_cons (tx : Transaction) (vtx : List Transaction) :
    (tx.nTime.toNat : ℤ) ≤ getMaxTransactionTime (tx :: vtx) :=
  nTime_le_getMaxTransactionTime List.mem_cons_self

theorem toNat_ofInt {x : ℤ} (h : 0 ≤ x) (h' : x < 2 ^ 32) : ((UInt32.ofInt x).toNat : ℤ) = x := by
  unfold UInt32.ofInt
  rw [UInt32.toNat_ofNat']
  omega

theorem toNat_newBlockTime {pindexPrev : BlockPtr} {vtx : List Transaction} {tx : Transaction}
    (h : tx ∈ vtx) (hpast : BlockPtr.getPastTimeLimit pindexPrev + 1 ≤ tx.nTime.toNat)
    (hdrift : pastDrift (BlockPtr.blockTime pindexPrev) ≤ tx.nTime.toNat) :
    ((newBlockTime pindexPrev vtx).toNat : ℤ) = getMaxTransactionTime vtx := by
  have hle := nTime_le_getMaxTransactionTime h
  have hlt : getMaxTransactionTime vtx ≤ 2 ^ 32 - 1 :=
    getMaxTransactionTime_le_iff.mpr ⟨by decide, fun tx _ => by
      have hword := tx.nTime.toNat_lt
      omega⟩
  have hmax : max (BlockPtr.getPastTimeLimit pindexPrev + 1) (getMaxTransactionTime vtx) =
      getMaxTransactionTime vtx := max_eq_right (hpast.trans hle)
  have hword : ((UInt32.ofInt (getMaxTransactionTime vtx)).toNat : ℤ) =
      getMaxTransactionTime vtx := toNat_ofInt (by omega) (by omega)
  unfold newBlockTime
  simp only []
  rw [hmax, hword, max_eq_left (hdrift.trans hle), hword]

theorem createBeanStake_nLockTime {v : ChainView} {w : StakingWallet} {nBits nTime : UInt32}
    {nSearchInterval : ℤ} {nFees : Int64} {tx : Transaction} {key : Key}
    (h : createBeanStake P v w nBits nSearchInterval nFees nTime = some (tx, key)) :
    tx.nLockTime = 0 := by
  unfold createBeanStake at h
  split_ifs at h
  simp only [] at h
  split at h
  · cases h
  · split_ifs at h
    all_goals
      split at h
      · cases h
      · split_ifs at h
        split at h
        · cases h
        · next hsigned =>
          split_ifs at h
          obtain ⟨rfl, rfl⟩ := Prod.mk.inj (Option.some_injective _ h)
          exact (signInputs_eq_some hsigned).2.2.2

theorem Transaction.isFinal_of_nLockTime {tx : Transaction} (h : tx.nLockTime = 0)
    (nBestHeight : ℕ) (nAdjustedTime : ℤ) (nBlockHeight : ℕ) (nBlockTime : ℤ) :
    tx.isFinal nBestHeight nAdjustedTime nBlockHeight nBlockTime = true := by
  rw [Transaction.isFinal, if_pos h]

section

variable [Add D] [Mul D] [Div D] [IntCast D] [LT D] [DecidableLT D] [BEq D]
  {heap : StdHeap (TxPriority D)} {args : MinerArgs} {v : ChainView} {pool : TxMemPool}

/-- What a template of proof of bean is like, whatever the pool is: an empty beanbase that starts
with the height, and transactions that are no beansprouts. -/
structure StakeTemplate (args : MinerArgs) (v : ChainView) (b : Block) (beanbase : Transaction)
    (vtx : List Transaction) : Prop where
  txs : b.vtx = beanbase :: vtx
  made : newBeanbase args v true = some beanbase
  noBeanStake : ∀ tx ∈ vtx, tx.isBeanStake = false

theorem createNewBlock_stakeTemplate {b : Block} {nFees : Int64}
    (h : createNewBlock P heap args v pool true = some (b, nFees)) :
    ∃ beanbase vtx, StakeTemplate args v b beanbase vtx := by
  unfold createNewBlock at h
  simp only [Option.bind_eq_bind, Option.bind_eq_some_iff, Option.pure_def, if_true] at h
  obtain ⟨beanbase, hbeanbase, s, hcollect, heq⟩ := h
  obtain ⟨rfl, rfl⟩ := Prod.mk.inj (Option.some_injective _ heq)
  refine ⟨beanbase, s.vtx, rfl, hbeanbase, ?_⟩
  apply collectTransactions_carries (Q := fun tx => tx.isBeanStake = false) hcollect
  intro tx _ htakes
  simp only [ChainView.takes, Bool.not_eq_true', Bool.or_eq_false_iff] at htakes
  exact htakes.1.2

variable {v' : ChainView} {w : StakingWallet} {sign : Key → Uint256 → Option (List UInt8)}
  {nLastBeanStakeSearchTime nLast' : ℤ} {nFees : Int64} {b b' : Block} {beanbase : Transaction}
  {vtx : List Transaction}

theorem Block.vtx_addBeanStake {pindexBest : BlockPtr} {txBeanStake : Transaction}
    (h : max (BlockPtr.getPastTimeLimit pindexBest + 1)
      (pastDrift (BlockPtr.blockTime pindexBest)) ≤ txBeanStake.nTime.toNat) :
    (b.addBeanStake P pindexBest beanbase vtx txBeanStake).vtx =
        { beanbase with nTime := txBeanStake.nTime } :: txBeanStake :: vtx ∧
      (b.addBeanStake P pindexBest beanbase vtx txBeanStake).blockTime =
        getMaxTransactionTime ({ beanbase with nTime := txBeanStake.nTime } :: vtx) := by
  have htime : ((newBlockTime pindexBest
      ({ beanbase with nTime := txBeanStake.nTime } :: vtx)).toNat : ℤ) =
      getMaxTransactionTime ({ beanbase with nTime := txBeanStake.nTime } :: vtx) :=
    toNat_newBlockTime List.mem_cons_self ((le_max_left _ _).trans h) ((le_max_right _ _).trans h)
  refine ⟨?_, htime⟩
  unfold Block.addBeanStake
  simp only []
  rw [List.filter_eq_self.mpr]
  · rfl
  · intro tx htx
    have hle := nTime_le_getMaxTransactionTime htx
    rw [← htime, Int.ofNat_le] at hle
    rw [Bool.not_eq_true', decide_eq_false_iff_not, UInt32.not_lt, UInt32.le_iff_toNat_le]
    exact hle

theorem StakeTemplate.signBlock_eq_some (ht : StakeTemplate args v b beanbase vtx)
    (h : b.signBlock P v' w sign nLastBeanStakeSearchTime nFees = (some b', nLast')) :
    ∃ txBeanStake key,
      createBeanStake P v' w b.header.nBits
        ((UInt32.ofInt v'.nAdjustedTime).toNat - nLastBeanStakeSearchTime) nFees
        (.ofInt v'.nAdjustedTime) = some (txBeanStake, key) ∧
      max (BlockPtr.getPastTimeLimit v'.pindexBest + 1)
        (pastDrift (BlockPtr.blockTime v'.pindexBest)) ≤ txBeanStake.nTime.toNat ∧
      b'.vtx = { beanbase with nTime := txBeanStake.nTime } :: txBeanStake :: vtx ∧
      b'.blockTime =
        getMaxTransactionTime ({ beanbase with nTime := txBeanStake.nTime } :: vtx) := by
  have hstake : b.isProofOfStake = false := by
    unfold Block.isProofOfStake
    rw [ht.txs]
    cases hvtx : vtx with
    | nil => rfl
    | cons tx vtx => exact ht.noBeanStake tx (hvtx ▸ List.mem_cons_self)
  unfold Block.signBlock at h
  rw [ht.txs] at h
  simp only [hstake, Bool.false_eq_true, if_false] at h
  split_ifs at h
  · cases h
  · split at h
    · cases h
    · next txBeanStake key hmade =>
      split_ifs at h with htime
      · obtain ⟨hsigned, -⟩ := Prod.mk.inj h
        obtain ⟨vchBlockSig, -, rfl⟩ := Option.map_eq_some_iff.mp hsigned
        exact ⟨txBeanStake, key, hmade, htime, Block.vtx_addBeanStake htime⟩
      · cases h
  · cases h

theorem newBeanbase_eq_some (h : newBeanbase args v true = some beanbase) :
    beanbase.nLockTime = 0 ∧ ∃ txin, beanbase.vin = [txin] ∧
      (heightScript (BlockPtr.nHeight v.pindexBest + 1)).isPrefixOf txin.scriptSig = true := by
  unfold newBeanbase at h
  simp only [if_true] at h
  split_ifs at h
  obtain rfl := Option.some_injective _ h
  exact ⟨rfl, _, rfl, List.isPrefixOf_iff_prefix.mpr (List.prefix_append _ _)⟩

theorem StakeTemplate.meetsTimes_iff (ht : StakeTemplate args v b beanbase vtx)
    (hbest : v'.pindexBest = v.pindexBest) {txBeanStake : Transaction}
    (hlock : txBeanStake.nLockTime = 0)
    (htime : max (BlockPtr.getPastTimeLimit v'.pindexBest + 1)
      (pastDrift (BlockPtr.blockTime v'.pindexBest)) ≤ txBeanStake.nTime.toNat)
    (hvtx : b'.vtx = { beanbase with nTime := txBeanStake.nTime } :: txBeanStake :: vtx)
    (hblock : b'.blockTime =
      getMaxTransactionTime ({ beanbase with nTime := txBeanStake.nTime } :: vtx)) :
    b'.meetsTimes v' = true ↔ b'.blockTime = (txBeanStake.nTime.toNat : ℤ) ∧
      ∀ tx ∈ vtx, tx.isFinal v'.nBestHeight v'.nAdjustedTime (BlockPtr.nHeight v'.pindexBest + 1)
        b'.blockTime = true := by
  obtain ⟨hbase, txin, hvin, hprefix⟩ := newBeanbase_eq_some ht.made
  have hstake : (txBeanStake.nTime.toNat : ℤ) ≤ b'.blockTime := by
    rw [hblock]
    exact nTime_le_getMaxTransactionTime_cons { beanbase with nTime := txBeanStake.nTime } vtx
  have hpast : BlockPtr.getPastTimeLimit v'.pindexBest < b'.blockTime := by
    have hle := (le_max_left _ _).trans htime
    omega
  have hdrift : BlockPtr.blockTime v'.pindexBest ≤ futureDrift b'.blockTime := by
    have hle := (le_max_right _ _).trans htime
    unfold pastDrift at hle
    unfold futureDrift
    omega
  have hlater : ∀ tx ∈ vtx, (tx.nTime.toNat : ℤ) ≤ b'.blockTime := by
    intro tx htx
    rw [hblock]
    exact nTime_le_getMaxTransactionTime (List.mem_cons_of_mem _ htx)
  have hheight : beanbaseHeightMatches b' (BlockPtr.nHeight v'.pindexBest + 1) = true := by
    unfold beanbaseHeightMatches
    rw [hvtx, hbest]
    simp only [List.head?_cons, Option.bind_some, hvin]
    exact hprefix
  have hfinal : ∀ tx : Transaction, tx.nLockTime = 0 → tx.isFinal v'.nBestHeight v'.nAdjustedTime
      (BlockPtr.nHeight v'.pindexBest + 1) b'.blockTime = true :=
    fun tx hlock => Transaction.isFinal_of_nLockTime hlock _ _ _ _
  unfold Block.meetsTimes
  rw [hheight, hvtx]
  simp only [List.all_cons, hfinal _ hlock, hfinal { beanbase with nTime := txBeanStake.nTime } hbase,
    Bool.true_and, Bool.and_true, Bool.and_eq_true, List.all_eq_true, decide_eq_true_eq]
  rw [decide_eq_false (not_le.mpr hpast), decide_eq_false (not_lt.mpr hdrift)]
  constructor
  · rintro ⟨⟨⟨hsame, -⟩, -⟩, hall⟩
    exact ⟨eq_of_beq hsame, hall⟩
  · rintro ⟨hsame, hall⟩
    exact ⟨⟨⟨beq_iff_eq.mpr hsame, hstake, hstake, hlater⟩, rfl⟩, hall⟩

/-- A signed block meets the rules about times if and only if no transaction of the template is
later than the beansprout, and all of them are final at its time. -/
theorem signBlock_meetsTimes_iff {nFees' : Int64}
    (hnew : createNewBlock P heap args v pool true = some (b, nFees'))
    (hbest : v'.pindexBest = v.pindexBest)
    (hsign : b.signBlock P v' w sign nLastBeanStakeSearchTime nFees = (some b', nLast')) :
    b'.meetsTimes v' = true ↔ ∀ txBeanStake key,
      createBeanStake P v' w b.header.nBits
          ((UInt32.ofInt v'.nAdjustedTime).toNat - nLastBeanStakeSearchTime) nFees
          (.ofInt v'.nAdjustedTime) = some (txBeanStake, key) →
        ∀ tx ∈ b.vtx.tail, tx.nTime ≤ txBeanStake.nTime ∧
          tx.isFinal v'.nBestHeight v'.nAdjustedTime (BlockPtr.nHeight v'.pindexBest + 1)
            txBeanStake.nTime.toNat = true := by
  obtain ⟨beanbase, vtx, ht⟩ := createNewBlock_stakeTemplate hnew
  obtain ⟨txBeanStake, key, hmade, htime, hvtx, hblock⟩ := ht.signBlock_eq_some hsign
  rw [ht.meetsTimes_iff hbest (createBeanStake_nLockTime hmade) htime hvtx hblock, ht.txs,
    List.tail_cons]
  -- the block is not later than the beansprout exactly if the template is not
  have htime_iff : b'.blockTime = (txBeanStake.nTime.toNat : ℤ) ↔
      ∀ tx ∈ vtx, tx.nTime ≤ txBeanStake.nTime := by
    have hle : b'.blockTime ≤ (txBeanStake.nTime.toNat : ℤ) ↔
        ∀ tx ∈ vtx, tx.nTime ≤ txBeanStake.nTime := by
      rw [hblock, getMaxTransactionTime_le_iff, List.forall_mem_cons]
      simp only [Int.natCast_nonneg, le_refl, true_and, Int.ofNat_le, UInt32.le_iff_toNat_le]
    have hge : (txBeanStake.nTime.toNat : ℤ) ≤ b'.blockTime := by
      rw [hblock]
      exact nTime_le_getMaxTransactionTime_cons { beanbase with nTime := txBeanStake.nTime } vtx
    rw [← hle]
    exact ⟨le_of_eq, fun h => le_antisymm h hge⟩
  constructor
  · rintro ⟨hsame, hfinal⟩ txBeanStake' key' hmade' tx htx
    rw [hmade] at hmade'
    obtain ⟨rfl, rfl⟩ := Prod.mk.inj (Option.some_injective _ hmade')
    exact ⟨htime_iff.mp hsame tx htx, hsame ▸ hfinal tx htx⟩
  · intro h
    have hsame := htime_iff.mpr fun tx htx => (h txBeanStake key hmade tx htx).1
    refine ⟨hsame, fun tx htx => ?_⟩
    rw [hsame]
    exact (h txBeanStake key hmade tx htx).2

end

namespace Sample

/-- The parameters with proof hashes that meet no target in one second and any target in the
others. -/
def lateParams : Params := { params with
  hashKernel := fun _ _ _ _ _ nTimeTx => if nTimeTx = 22100 then -1 else 0 }

def datedSpend (nTime : UInt32) : Transaction :=
  { spend 40 [⟨3, 0⟩] [out 90000] with nTime := nTime }

def datedPool (nTime : UInt32) : TxMemPool :=
  TxMemPool.empty.addUnchecked (lateParams.txHash (datedSpend nTime)) (datedSpend nTime)

/-- A template with the transaction, and the block that the wallet makes of it at once. -/
def datedTemplate (nTime : UInt32) : Option (Block × Int64) :=
  createNewBlock lateParams (heap (TxPriority ℚ)) (minerArgs none) deepView (datedPool nTime) true

def datedBlock (b : Block) (nFees : Int64) : Option Block × ℤ :=
  b.signBlock lateParams deepView stakingWallet (fun _ _ => some [1]) 22000 nFees

end Sample

open Sample

/-- The block with a transaction of the second in which no kernel is found is later than its
beansprout. -/
theorem signBlock_late :
    ∃ b nFees b' nLast', datedTemplate 22100 = some (b, nFees) ∧
      datedBlock b nFees = (some b', nLast') ∧ b'.meetsTimes deepView = false ∧
      b'.header.nTime = 22100 ∧ b'.vtx[1]?.map Transaction.nTime = some 22099 := by
  have hrun : (datedTemplate 22100).bind (fun r => (datedBlock r.1 r.2).1.map fun b =>
      (b.meetsTimes deepView, b.header.nTime, b.vtx[1]?.map Transaction.nTime)) =
      some (false, 22100, some 22099) := by decide +kernel
  obtain ⟨⟨b, nFees⟩, hnew, hsign⟩ := Option.bind_eq_some_iff.mp hrun
  obtain ⟨b', hb', heq⟩ := Option.map_eq_some_iff.mp hsign
  simp only [Prod.mk.injEq] at heq
  exact ⟨b, nFees, b', (datedBlock b nFees).2, hnew, Prod.ext hb' rfl, heq⟩

/-- A transaction that is as old as the kernels that are found does no harm. -/
theorem signBlock_meetsTimes_iff_early :
    ∃ b nFees b' nLast', datedTemplate 22050 = some (b, nFees) ∧
      datedBlock b nFees = (some b', nLast') ∧ b'.meetsTimes deepView = true ∧
      ∀ txBeanStake key, createBeanStake lateParams deepView stakingWallet b.header.nBits
          ((UInt32.ofInt 22100).toNat - 22000) nFees (.ofInt 22100) = some (txBeanStake, key) →
        ∀ tx ∈ b.vtx.tail, tx.nTime ≤ txBeanStake.nTime ∧
          tx.isFinal 20 22100 21 txBeanStake.nTime.toNat = true := by
  have hrun : (datedTemplate 22050).bind (fun r => (datedBlock r.1 r.2).1.map fun b =>
      b.meetsTimes deepView) = some true := by decide +kernel
  obtain ⟨⟨b, nFees⟩, hnew, hsign⟩ := Option.bind_eq_some_iff.mp hrun
  obtain ⟨b', hb', hmeets⟩ := Option.map_eq_some_iff.mp hsign
  have hpair : datedBlock b nFees = (some b', (datedBlock b nFees).2) := Prod.ext hb' rfl
  have hheight : BlockPtr.nHeight deepView.pindexBest = 20 := by decide +kernel
  have hcondition := (signBlock_meetsTimes_iff hnew rfl hpair).mp hmeets
  rw [hheight] at hcondition
  exact ⟨b, nFees, b', (datedBlock b nFees).2, hnew, hpair, hmeets, hcondition⟩

end Beancash
