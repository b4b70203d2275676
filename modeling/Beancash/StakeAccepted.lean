import Beancash.BeanStake
import Beancash.KernelReads

namespace Beancash

variable {P : Params} {S : Set Transaction}

/-- The wallet holds transactions of `S` under their hashes; their outputs are numbered by a
machine word. -/
structure Wallet.Keyed (P : Params) (S : Set Transaction) (w : Wallet) : Prop where
  hash : ∀ {h wtx}, w.mapWallet.lookup h = some wtx → P.txHash wtx.tx = h
  within : ∀ {h wtx}, w.mapWallet.lookup h = some wtx → wtx.tx ∈ S
  numbered : ∀ {h wtx}, w.mapWallet.lookup h = some wtx → wtx.tx.vout.length < 2 ^ 32

/-- What signing does: the signature is good for its input, and the signatures of other inputs
are not what is signed. -/
structure StakingWallet.Signs (P : Params) (w : StakingWallet) : Prop where
  verifies : ∀ {txFrom txTo nIn scriptSig o}, w.signSignature txFrom txTo nIn = some scriptSig →
    txTo.prevouts[nIn]? = some o → o.hash = P.txHash txFrom → o.n.toNat < txFrom.vout.length →
    P.verifySignature txFrom (txTo.setScriptSig nIn scriptSig) nIn = true
  others : ∀ txFrom txTo {nIn i} scriptSig, i ≠ nIn →
    P.verifySignature txFrom (txTo.setScriptSig i scriptSig) nIn = P.verifySignature txFrom txTo nIn

/-- A bean of the wallet: an output that a transaction of it has. -/
structure Bean.Of (P : Params) (w : Wallet) (bean : Bean) : Prop where
  lookup : w.mapWallet.lookup (P.txHash bean.wtx.tx) = some bean.wtx
  bound : bean.i < bean.wtx.tx.vout.length

theorem Wallet.Keyed.mem_transactions {w : Wallet} (hw : w.Keyed P S) {wtx : WalletTx} :
    wtx ∈ w.transactions ↔ w.mapWallet.lookup (P.txHash wtx.tx) = some wtx := by
  unfold Wallet.transactions
  rw [List.mem_map]
  constructor
  · rintro ⟨⟨h, wtx⟩, hmem, rfl⟩
    rw [List.mem_mergeSort] at hmem
    have hl : w.mapWallet.lookup h = some wtx := AList.mem_lookup_iff.mpr hmem
    rw [hw.hash hl]
    exact hl
  · intro hl
    exact ⟨⟨_, wtx⟩, List.mem_mergeSort.mpr (AList.mem_lookup_iff.mp hl), rfl⟩

theorem Wallet.Keyed.nodup_transactions {w : Wallet} (hw : w.Keyed P S) :
    w.transactions.Nodup := by
  unfold Wallet.transactions
  refine List.Nodup.map_on ?_ ((List.mergeSort_perm _ _).nodup_iff.mpr ?_)
  · rintro ⟨h, wtx⟩ hmem ⟨h', wtx'⟩ hmem' (heq : wtx = wtx')
    subst heq
    rw [List.mem_mergeSort] at hmem hmem'
    have hl : w.mapWallet.lookup h = some wtx := AList.mem_lookup_iff.mpr hmem
    have hl' : w.mapWallet.lookup h' = some wtx := AList.mem_lookup_iff.mpr hmem'
    rw [← hw.hash hl, ← hw.hash hl']
  · exact w.mapWallet.nodupKeys.nodup

theorem Wallet.Keyed.availableBeans {w : Wallet} (hw : w.Keyed P S) (v : ChainView) (nConf : ℤ) :
    (availableBeansMinConf P v w nConf).Nodup ∧
      ∀ bean ∈ availableBeansMinConf P v w nConf, bean.Of P w := by
  unfold availableBeansMinConf
  constructor
  · rw [List.nodup_flatMap]
    constructor
    · intro wtx _
      split_ifs
      · exact List.nodup_nil
      · exact List.nodup_nil
      · refine (List.Nodup.map_on ?_ List.nodup_range).filter _
        intro i _ j _ heq
        exact (Bean.mk.inj heq).2
    · refine hw.nodup_transactions.imp fun {wtx wtx'} hne bean hb hb' => hne ?_
      have hof : ∀ wtx : WalletTx, ∀ bean ∈ (if !wtx.tx.isFinal v.nBestHeight v.nAdjustedTime 0 0
          then [] else if getDepthInMainChain P v wtx < nConf then []
          else ((List.range wtx.tx.vout.length).map fun i => (⟨wtx, i⟩ : Bean)).filter fun bean =>
            !wtx.isSpent bean.i && w.isMine bean.scriptPubKey &&
              decide (w.nMinimumInputValue ≤ bean.nValue)), bean.wtx = wtx := by
        intro wtx bean hb
        split_ifs at hb
        · cases hb
        · cases hb
        · obtain ⟨i, _, rfl⟩ := List.mem_map.mp (List.mem_filter.mp hb).1
          rfl
      exact (hof wtx bean hb).symm.trans (hof wtx' bean hb')
  · intro bean hb
    obtain ⟨wtx, hwtx, hb⟩ := List.mem_flatMap.mp hb
    split_ifs at hb
    · cases hb
    · cases hb
    · obtain ⟨i, hi, rfl⟩ := List.mem_map.mp (List.mem_filter.mp hb).1
      exact ⟨hw.mem_transactions.mp hwtx, List.mem_range.mp hi⟩

theorem selectBeansLoop_eq (nTargetValue : Int64) (nSpendTime : UInt32) (vBeans acc : List Bean)
    (nValueRet : Int64) : ∃ l, selectBeansLoop nTargetValue nSpendTime vBeans acc nValueRet =
      acc ++ l ∧ l.Sublist vBeans := by
  induction vBeans generalizing acc nValueRet with
  | nil => exact ⟨[], (List.append_nil _).symm, List.Sublist.refl _⟩
  | cons bean vBeans ih =>
    rw [selectBeansLoop]
    split_ifs
    · exact ⟨[], (List.append_nil _).symm, List.nil_sublist _⟩
    · obtain ⟨l, hl, hsub⟩ := ih acc nValueRet
      exact ⟨l, hl, hsub.cons bean⟩
    · exact ⟨[bean], rfl, List.singleton_sublist.mpr List.mem_cons_self⟩
    · obtain ⟨l, hl, hsub⟩ := ih (acc ++ [bean]) (nValueRet + bean.nValue)
      exact ⟨bean :: l, by rw [hl, List.append_assoc]; rfl, hsub.cons_cons bean⟩
    · obtain ⟨l, hl, hsub⟩ := ih acc nValueRet
      exact ⟨l, hl, hsub.cons bean⟩

theorem Wallet.Keyed.selectBeansSimple {w : StakingWallet} (hw : w.toWallet.Keyed P S)
    (v : ChainView) (nTargetValue : Int64) (nSpendTime : UInt32) (nMinConf : ℤ) :
    (Beancash.selectBeansSimple P v w nTargetValue nSpendTime nMinConf).Nodup ∧
      ∀ bean ∈ Beancash.selectBeansSimple P v w nTargetValue nSpendTime nMinConf,
        bean.Of P w.toWallet := by
  obtain ⟨hnd, hof⟩ := hw.availableBeans v nMinConf
  obtain ⟨l, hl, hsub⟩ := selectBeansLoop_eq nTargetValue nSpendTime
    (availableBeansMinConf P v w.toWallet nMinConf) [] 0
  unfold Beancash.selectBeansSimple
  rw [hl, List.nil_append]
  exact ⟨(List.mergeSort_perm _ _).nodup_iff.mpr (hsub.nodup hnd),
    fun bean hb => hof bean (hsub.subset (List.mem_mergeSort.mp hb))⟩

theorem checkStakeKernelHash_nTime_le {v : KernelView} {nBits : UInt32} {blockFrom : BlockHeader}
    {nTxPrevOffset : UInt32} {txPrev : Transaction} {o : TxOut} {prevout : OutPoint}
    {nTimeTx : UInt32} {proof : StakeProof} (h : checkStakeKernelHash P v nBits blockFrom
      nTxPrevOffset txPrev o prevout nTimeTx = .ok proof) : txPrev.nTime ≤ nTimeTx := by
  unfold checkStakeKernelHash at h
  split_ifs at h with htime
  exact UInt32.not_lt.mp htime

/-- What has been found of a kernel: its transaction is in the index, and `CheckStakeKernelHash`
accepts it with the wallet's copy. -/
structure FoundKernel.Proven (P : Params) (v : KernelView) (nBits : UInt32) (kernel : FoundKernel)
    (pos : TxPos) (o : TxOut) : Prop where
  indexed : ∃ txindex, v.readTxIndex (P.txHash kernel.bean.wtx.tx) = some txindex ∧
    txindex.pos = some pos
  block : v.readHeader pos.nFile pos.nBlockPos = some kernel.block
  txout : kernel.bean.txout = some o
  proof : ∃ proof, checkStakeKernelHash P v nBits kernel.block (pos.nTxPos - pos.nBlockPos)
    kernel.bean.wtx.tx o (kernel.bean.outPoint P) kernel.nTime = .ok proof

theorem tryKernel_eq_some {v : KernelView} {w : StakingWallet} {nBits nTime : UInt32}
    {nSearchInterval : ℤ} {bean : Bean} {kernel : FoundKernel}
    (h : tryKernel P v w nBits nTime nSearchInterval bean = some kernel) :
    kernel.bean = bean ∧ ∃ pos o, kernel.Proven P v nBits pos o := by
  unfold tryKernel at h
  split at h
  · cases h
  · next txindex hindex =>
    split at h
    · cases h
    · next pos block hblock =>
      split_ifs at h
      simp only [Option.bind_eq_some_iff, Option.map_eq_some_iff, Prod.mk.injEq] at h hblock
      obtain ⟨o, ho, nTimeTx, hkernel, r, _, rfl⟩ := h
      obtain ⟨pos', hpos, block', hread, rfl, rfl⟩ := hblock
      refine ⟨rfl, pos', o, ⟨txindex, hindex, hpos⟩, hread, ho, ?_⟩
      have hok := List.find?_some hkernel
      cases hcheck : checkStakeKernelHash P v nBits block' (pos'.nTxPos - pos'.nBlockPos) bean.wtx.tx
          o (bean.outPoint P) nTimeTx with
      | ok proof => exact ⟨proof, rfl⟩
      | error e =>
        rw [hcheck] at hok
        cases hok

/-- The value of beans added to one, in the order of the inputs. -/
def addValues (nCredit : Int64) (beans : List Bean) : Int64 :=
  beans.foldl (fun nCredit bean => nCredit + bean.nValue) nCredit

/-- Beans that may be added to a kernel: of other transactions, none of them later. -/
def FoundKernel.Admits (P : Params) (kernel : FoundKernel) (bean : Bean) : Prop :=
  P.txHash bean.wtx.tx ≠ P.txHash kernel.bean.wtx.tx ∧ bean.wtx.tx.nTime ≤ kernel.nTime

/-- The inputs and their value, once beans of a list have been added. -/
def FoundKernel.Added (P : Params) (kernel : FoundKernel) (setBeans vin : List Bean)
    (nCredit : Int64) (r : List Bean × Int64) : Prop :=
  ∃ l, r = (vin ++ l, addValues nCredit l) ∧ l.Sublist setBeans ∧ ∀ bean ∈ l, kernel.Admits P bean

namespace FoundKernel.Added

variable {kernel : FoundKernel} {setBeans vin : List Bean} {nCredit : Int64}
  {r : List Bean × Int64} {bean : Bean}

theorem stop : kernel.Added P setBeans vin nCredit (vin, nCredit) :=
  ⟨[], by rw [List.append_nil]; rfl, List.nil_sublist _, fun _ h => by cases h⟩

theorem skip (h : kernel.Added P setBeans vin nCredit r) :
    kernel.Added P (bean :: setBeans) vin nCredit r := by
  obtain ⟨l, hl, hsub, hall⟩ := h
  exact ⟨l, hl, hsub.cons bean, hall⟩

theorem cons (h : kernel.Added P setBeans (vin ++ [bean]) (nCredit + bean.nValue) r)
    (hbean : kernel.Admits P bean) : kernel.Added P (bean :: setBeans) vin nCredit r := by
  obtain ⟨l, hl, hsub, hall⟩ := h
  refine ⟨bean :: l, ?_, hsub.cons_cons bean, ?_⟩
  · rw [hl, List.append_assoc]
    rfl
  · intro bean' hmem
    rcases List.mem_cons.mp hmem with rfl | hmem
    · exact hbean
    · exact hall bean' hmem

end FoundKernel.Added

theorem added_addInputs (kernel : FoundKernel) (nLimit : Int64) (setBeans vin : List Bean)
    (nCredit : Int64) :
    kernel.Added P setBeans vin nCredit (addInputs P kernel nLimit setBeans vin nCredit) := by
  induction setBeans generalizing vin nCredit with
  | nil => exact .stop
  | cons bean setBeans ih =>
    rw [addInputs]
    split_ifs with hsame _ _ _ _ hweight
    · exact .stop
    · exact .stop
    · exact .stop
    · exact (ih vin nCredit).skip
    · exact (ih vin nCredit).skip
    · refine (ih (vin ++ [bean]) (nCredit + bean.nValue)).cons ⟨hsame.2, ?_⟩
      -- an input whose weight is not negative is not later than the kernel
      unfold getWeight at hweight
      rw [UInt32.le_iff_toNat_le]
      omega
    · exact (ih vin nCredit).skip

theorem Transaction.prevouts_setScriptSig (tx : Transaction) (nIn : ℕ) (scriptSig : Script) :
    (tx.setScriptSig nIn scriptSig).prevouts = tx.prevouts := by
  unfold Transaction.prevouts Transaction.setScriptSig
  apply List.ext_getElem?
  intro i
  rw [List.getElem?_map, List.getElem?_map, List.getElem?_modify]
  cases tx.vin[i]? with
  | none => rfl
  | some txin =>
    split_ifs
    · rfl
    · rfl

theorem signInputs_eq_some {w : StakingWallet} {nIn : ℕ} {vwtxPrev : List Bean}
    {tx tx' : Transaction} (h : signInputs w nIn vwtxPrev tx = some tx') :
    tx'.prevouts = tx.prevouts ∧ tx'.vout = tx.vout ∧ tx'.nTime = tx.nTime ∧
      tx'.nLockTime = tx.nLockTime := by
  induction vwtxPrev generalizing nIn tx with
  | nil =>
    obtain rfl := Option.some_injective _ h
    exact ⟨rfl, rfl, rfl, rfl⟩
  | cons bean vwtxPrev ih =>
    rw [signInputs] at h
    split at h
    · next scriptSig hsig =>
      obtain ⟨hprev, hrest⟩ := ih h
      exact ⟨hprev.trans (tx.prevouts_setScriptSig nIn scriptSig), hrest⟩
    · cases h

theorem StakingWallet.Signs.signInputs {w : StakingWallet} (hs : w.Signs P) {nIn i : ℕ}
    {vwtxPrev : List Bean} {tx tx' : Transaction}
    (h : Beancash.signInputs w nIn vwtxPrev tx = some tx') (hi : i < nIn) (txFrom : Transaction) :
    P.verifySignature txFrom tx' i = P.verifySignature txFrom tx i := by
  induction vwtxPrev generalizing nIn tx with
  | nil =>
    obtain rfl := Option.some_injective _ h
    rfl
  | cons bean vwtxPrev ih =>
    rw [Beancash.signInputs] at h
    split at h
    · next scriptSig hsig =>
      rw [ih h (by omega)]
      exact hs.others txFrom tx scriptSig (by omega)
    · cases h

/-- A beansprout is made of a kernel and further beans of the wallet. -/
structure MadeStake (P : Params) (v : KernelView) (w : StakingWallet) (nBits : UInt32)
    (nFees : Int64) (kernel : FoundKernel) (beans : List Bean) (tx : Transaction) : Prop where
  proven : ∃ pos o, kernel.Proven P v nBits pos o
  of : ∀ bean ∈ kernel.bean :: beans, bean.Of P w.toWallet
  nodup : beans.Nodup
  admits : ∀ bean ∈ beans, kernel.Admits P bean
  signed : ∃ fSplit, signInputs w 0 (kernel.bean :: beans) (unsignedStake P kernel.nTime
    (kernel.bean :: beans) (stakeOutputs fSplit kernel.scriptPubKeyOut
      (addValues kernel.bean.nValue beans + (1000 * bean + nFees)))) = some tx

theorem createBeanStake_eq_some {v : ChainView} {w : StakingWallet} {nBits nTime : UInt32}
    {nSearchInterval : ℤ} {nFees : Int64} {tx : Transaction} {key : Key}
    (hw : w.toWallet.Keyed P S)
    (h : createBeanStake P v w nBits nSearchInterval nFees nTime = some (tx, key)) :
    ∃ kernel beans, MadeStake P v.toKernelView w nBits nFees kernel beans tx := by
  unfold createBeanStake at h
  split_ifs at h with hbalance
  simp only [] at h
  obtain ⟨hnd, hof⟩ := hw.selectBeansSimple v (w.getBalance - w.nReserveBalance) nTime
    (P.nBeanbaseMaturity + 10)
  generalize selectBeansSimple P v w (w.getBalance - w.nReserveBalance) nTime
    (P.nBeanbaseMaturity + 10) = setBeans at h hnd hof
  split at h
  · cases h
  · next kernel hfound =>
    obtain ⟨bean, hbean, htry⟩ := List.exists_of_findSome?_eq_some hfound
    obtain ⟨rfl, hproven⟩ := tryKernel_eq_some htry
    by_cases hcredit : kernel.bean.nValue = 0 ∨
        w.getBalance - w.nReserveBalance < kernel.bean.nValue
    · rw [if_pos hcredit] at h
      cases h
    rw [if_neg hcredit] at h
    generalize decide (getWeight P kernel.block.nTime.toNat kernel.nTime.toNat < nStakeSplitAge) =
      fSplit at h
    -- a kernel that is split stays alone
    have hadded : kernel.Added P setBeans [kernel.bean] kernel.bean.nValue
        (if fSplit then ([kernel.bean], kernel.bean.nValue) else
          addInputs P kernel (w.getBalance - w.nReserveBalance) setBeans [kernel.bean]
            kernel.bean.nValue) := by
      split_ifs
      · exact .stop
      · exact added_addInputs _ _ _ _ _
    obtain ⟨beans, heq, hsub, hadmits⟩ := hadded
    rw [heq] at h
    split at h
    · cases h
    · split_ifs at h
      split at h
      · cases h
      · next txNew hsigned =>
        split_ifs at h
        obtain ⟨rfl, rfl⟩ := Prod.mk.inj (Option.some_injective _ h)
        refine ⟨kernel, beans, hproven, ?_, hsub.nodup hnd, hadmits, fSplit, hsigned⟩
        intro bean hmem
        rcases List.mem_cons.mp hmem with rfl | hmem
        · exact hof _ hbean
        · exact hof bean (hsub.subset hmem)

theorem Bean.Of.n_toNat {w : Wallet} (hw : w.Keyed P S) {bean : Bean} (h : bean.Of P w) :
    (bean.outPoint P).n.toNat = bean.i := by
  have hlt := h.bound.trans (hw.numbered h.lookup)
  rw [Bean.outPoint, UInt32.toNat_ofNat']
  exact Nat.mod_eq_of_lt hlt

theorem Bean.Of.outPoint_inj {w : Wallet} (hw : w.Keyed P S) {bean bean' : Bean}
    (h : bean.Of P w) (h' : bean'.Of P w) (heq : bean.outPoint P = bean'.outPoint P) :
    bean = bean' := by
  have hhash : P.txHash bean.wtx.tx = P.txHash bean'.wtx.tx := congrArg OutPoint.hash heq
  have hi : bean.i = bean'.i := by
    rw [← h.n_toNat hw, ← h'.n_toNat hw, heq]
  have hwtx : bean.wtx = bean'.wtx := by
    apply Option.some_injective
    rw [← h.lookup, ← h'.lookup, hhash]
  cases bean
  cases bean'
  exact Bean.mk.injEq .. ▸ ⟨hwtx, hi⟩

namespace MadeStake

variable {v : KernelView} {w : StakingWallet} {nBits : UInt32} {nFees : Int64}
  {kernel : FoundKernel} {beans : List Bean} {tx : Transaction}

theorem prevouts (hm : MadeStake P v w nBits nFees kernel beans tx) :
    tx.prevouts = (kernel.bean :: beans).map (Bean.outPoint P) := by
  obtain ⟨fSplit, hsigned⟩ := hm.signed
  rw [(signInputs_eq_some hsigned).1, Transaction.prevouts, unsignedStake, List.map_map]
  rfl

theorem nTime (hm : MadeStake P v w nBits nFees kernel beans tx) : tx.nTime = kernel.nTime := by
  obtain ⟨fSplit, hsigned⟩ := hm.signed
  exact (signInputs_eq_some hsigned).2.2.1

theorem vout (hm : MadeStake P v w nBits nFees kernel beans tx) :
    ∃ fSplit, tx.vout = ⟨0, []⟩ :: stakeOutputs fSplit kernel.scriptPubKeyOut
      (addValues kernel.bean.nValue beans + (1000 * bean + nFees)) := by
  obtain ⟨fSplit, hsigned⟩ := hm.signed
  exact ⟨fSplit, (signInputs_eq_some hsigned).2.1⟩

theorem nodup_prevouts (hw : w.toWallet.Keyed P S)
    (hm : MadeStake P v w nBits nFees kernel beans tx) : tx.prevouts.Nodup := by
  rw [hm.prevouts]
  apply List.Nodup.map_on
  · intro bean hb bean' hb' heq
    exact Bean.Of.outPoint_inj hw (hm.of bean hb) (hm.of bean' hb') heq
  · rw [List.nodup_cons]
    exact ⟨fun hmem => (hm.admits _ hmem).1 rfl, hm.nodup⟩

theorem isBeanStake (hw : w.toWallet.Keyed P S)
    (hm : MadeStake P v w nBits nFees kernel beans tx) : tx.isBeanStake = true := by
  have hprev := hm.prevouts
  obtain ⟨fSplit, hout⟩ := hm.vout
  have hof := hm.of _ List.mem_cons_self
  have hnull : (kernel.bean.outPoint P).isNull = false := by
    have hn := hof.n_toNat hw
    have hlt := hof.bound
    have hnum := hw.numbered hof.lookup
    rw [OutPoint.isNull, Bool.and_eq_false_iff]
    right
    rw [beq_eq_false_iff_ne]
    intro heq
    rw [heq] at hn
    change 4294967295 = _ at hn
    omega
  rw [List.map_cons, Transaction.prevouts] at hprev
  obtain ⟨txin, vin, hvin, hfirst, -⟩ := List.map_eq_cons_iff.mp hprev
  unfold Transaction.isBeanStake
  rw [hvin, hout]
  cases fSplit with
  | true =>
    change (!txin.prevout.isNull && true) = true
    rw [hfirst, hnull]
    rfl
  | false =>
    change (!txin.prevout.isNull && true) = true
    rw [hfirst, hnull]
    rfl

theorem nTime_le (hm : MadeStake P v w nBits nFees kernel beans tx) :
    ∀ bean ∈ kernel.bean :: beans, bean.wtx.tx.nTime ≤ tx.nTime := by
  intro bean hmem
  rw [hm.nTime]
  rcases List.mem_cons.mp hmem with rfl | hmem
  · obtain ⟨pos, o, hproven⟩ := hm.proven
    obtain ⟨proof, hproof⟩ := hproven.proof
    exact checkStakeKernelHash_nTime_le hproof
  · exact (hm.admits bean hmem).2

end MadeStake

/-- The transactions behind these outpoints are at hand, under their hashes. -/
def HoldsPrevs (P : Params) (S : Set Transaction) (inputs : MapPrevTx)
    (prevouts : List OutPoint) : Prop :=
  ∀ o ∈ prevouts, ∃ txindex txPrev, inputs.lookup o.hash = some (txindex, txPrev) ∧ txPrev ∈ S ∧
    P.txHash txPrev = o.hash

theorem Bean.Of.lookup_eq {w : Wallet} (hw : w.Keyed P S) (hS : S.InjOn P.txHash) {bean : Bean}
    (h : bean.Of P w) {inputs : MapPrevTx} {prevouts : List OutPoint}
    (hin : HoldsPrevs P S inputs prevouts) (hmem : bean.outPoint P ∈ prevouts) :
    ∃ txindex, inputs.lookup (bean.outPoint P).hash = some (txindex, bean.wtx.tx) := by
  obtain ⟨txindex, txPrev, hlookup, hwithin, hhash⟩ := hin _ hmem
  obtain rfl := hS hwithin (hw.within h.lookup) hhash
  exact ⟨txindex, hlookup⟩

theorem sumValueIn_map_outPoint {w : Wallet} (hw : w.Keyed P S) (hS : S.InjOn P.txHash)
    {inputs : MapPrevTx} {prevouts : List OutPoint} (hin : HoldsPrevs P S inputs prevouts)
    {beans : List Bean} (hof : ∀ bean ∈ beans, bean.Of P w)
    (hmem : ∀ bean ∈ beans, bean.outPoint P ∈ prevouts) (nResult : Int64) :
    sumValueIn inputs nResult (beans.map (Bean.outPoint P)) = some (addValues nResult beans) := by
  induction beans generalizing nResult with
  | nil => rfl
  | cons bean beans ih =>
    have hb := hof bean List.mem_cons_self
    have hbound := hb.bound
    obtain ⟨txindex, hlookup⟩ := hb.lookup_eq hw hS hin (hmem bean List.mem_cons_self)
    have hout : getOutputFor inputs (bean.outPoint P) = some bean.wtx.tx.vout[bean.i] := by
      rw [getOutputFor, hlookup, Option.bind_some, hb.n_toNat hw]
      exact List.getElem?_eq_getElem hbound
    have hvalue : bean.nValue = bean.wtx.tx.vout[bean.i].nValue := by
      rw [Bean.nValue, Bean.txout, List.getElem?_eq_getElem hbound]
      rfl
    rw [List.map_cons, sumValueIn, hout]
    simp only []
    rw [← hvalue]
    exact ih (fun b h => hof b (List.mem_cons_of_mem _ h))
      (fun b h => hmem b (List.mem_cons_of_mem _ h)) _

theorem sum_stakeOutputs (fSplit : Bool) (scriptPubKeyOut : Script) (nCredit : Int64) :
    ((stakeOutputs fSplit scriptPubKeyOut nCredit).map TxOut.nValue).sum = nCredit := by
  unfold stakeOutputs
  split_ifs
  · simp only [List.map_cons, List.map_nil, List.sum_cons, List.sum_nil]
    grind
  · simp only [List.map_cons, List.map_nil, List.sum_cons, List.sum_nil]
    grind

theorem MadeStake.values {v : KernelView} {w : StakingWallet} {nBits : UInt32} {nFees : Int64}
    {kernel : FoundKernel} {beans : List Bean} {tx : Transaction} (hw : w.toWallet.Keyed P S)
    (hS : S.InjOn P.txHash) (hm : MadeStake P v w nBits nFees kernel beans tx)
    {inputs : MapPrevTx} (hin : HoldsPrevs P S inputs tx.prevouts) :
    ∃ nValueIn, tx.getValueIn inputs = some nValueIn ∧
      (tx.vout.map TxOut.nValue).sum - nValueIn = 1000 * bean + nFees := by
  have hstake := hm.isBeanStake hw
  have hbase : tx.isBeanBase = false := by
    by_contra h
    rw [Bool.not_eq_false] at h
    rw [Transaction.isBeanStake_of_isBeanBase h] at hstake
    cases hstake
  have hsum := sumValueIn_map_outPoint hw hS hin hm.of
    (fun bean hb => hm.prevouts ▸ List.mem_map_of_mem hb) 0
  refine ⟨addValues kernel.bean.nValue beans, ?_, ?_⟩
  · rw [Transaction.getValueIn, hbase, hm.prevouts, if_neg Bool.false_ne_true, hsum]
    change some (addValues (0 + kernel.bean.nValue) beans) = _
    rw [Int64.zero_add]
  · obtain ⟨fSplit, hout⟩ := hm.vout
    rw [hout, List.map_cons, List.sum_cons, sum_stakeOutputs]
    grind

/-- What has been found with the wallet's copy of the transaction is found through the index. -/
theorem MadeStake.checkProofOfStake {files : Files} {tree : BlockTree P files} {n : Node}
    {io : BlockIo} {mapBlockIndex : MapBlockIndex} {w : StakingWallet} {nBits : UInt32}
    {nFees : Int64} {kernel : FoundKernel} {beans : List Bean} {tx : Transaction}
    (hn : Consistent tree n) (hio : io.ReadsAll files) (hw : w.toWallet.Keyed P S)
    (hs : w.Signs P) (hS : S.InjOn P.txHash) (htree : tree.txs ⊆ S)
    (hm : MadeStake P (n.kernelView io mapBlockIndex) w nBits nFees kernel beans tx) :
    ∃ proof, Beancash.checkProofOfStake P (n.kernelView io mapBlockIndex) tx nBits = .ok proof := by
  have hof := hm.of _ List.mem_cons_self
  obtain ⟨pos, o, hproven⟩ := hm.proven
  obtain ⟨proof, hproof⟩ := hproven.proof
  obtain ⟨txindex, hindex, hpos⟩ := hproven.indexed
  obtain ⟨pos', txPrev, hpos', hmem, hhash⟩ := exists_mem_of_readTxIndex hn hindex
  obtain rfl : pos = pos' := Option.some_injective _ (hpos.symm.trans hpos')
  have hbest : n.pindexBest ∈ tree.entries := hn.best.resolve_left fun hnil => by
    rw [hnil] at hmem
    cases hmem
  obtain rfl := hS (htree (BlockTree.mem_txs_of_mem_chainTxs hbest hmem))
    (hw.within hof.lookup) hhash
  have hread : (n.kernelView io mapBlockIndex).readPrevout (kernel.bean.outPoint P) =
      some (pos, kernel.bean.wtx.tx, o) := by
    rw [readPrevout_eq_some_iff hn hio, hof.n_toNat hw]
    exact ⟨hmem, rfl, hproven.txout⟩
  have hverify : P.verifySignature kernel.bean.wtx.tx tx 0 = true := by
    obtain ⟨fSplit, hsigned⟩ := hm.signed
    rw [signInputs] at hsigned
    split at hsigned
    · next scriptSig hsig =>
      rw [hs.signInputs hsigned Nat.one_pos]
      refine hs.verifies hsig (o := kernel.bean.outPoint P) rfl rfl ?_
      rw [hof.n_toNat hw]
      exact hof.bound
    · cases hsigned
  refine ⟨proof, ?_⟩
  unfold Beancash.checkProofOfStake
  rw [hm.isBeanStake hw, hm.prevouts, List.map_cons]
  simp only [Bool.not_true, Bool.false_eq_true, if_false, hread, hverify, hproven.block, hm.nTime]
  exact hproof

/-- A beansprout that `CreateBeanStake` returns is well formed and spends nothing twice and
nothing later, it pays its inputs and the reward, and its proof is accepted. -/
theorem createBeanStake_accepted {files : Files} {tree : BlockTree P files} {n : Node}
    {io : BlockIo} {mapBlockIndex : MapBlockIndex} {v : ChainView} {w : StakingWallet}
    {nBits nTime : UInt32} {nSearchInterval : ℤ} {nFees : Int64} {tx : Transaction} {key : Key}
    (hn : Consistent tree n) (hio : io.ReadsAll files)
    (hv : v.toKernelView = n.kernelView io mapBlockIndex) (hw : w.toWallet.Keyed P S)
    (hs : w.Signs P) (hS : S.InjOn P.txHash) (htree : tree.txs ⊆ S)
    (h : createBeanStake P v w nBits nSearchInterval nFees nTime = some (tx, key)) :
    tx.isBeanStake = true ∧ tx.prevouts.Nodup ∧
      (∀ inputs, HoldsPrevs P S inputs tx.prevouts →
        (∀ o ∈ tx.prevouts, ∀ txindex txPrev, inputs.lookup o.hash = some (txindex, txPrev) →
          txPrev.nTime ≤ tx.nTime) ∧
        ∃ nValueIn, tx.getValueIn inputs = some nValueIn ∧
          (tx.vout.map TxOut.nValue).sum - nValueIn = 1000 * bean + nFees) ∧
      ∃ proof, checkProofOfStake P v.toKernelView tx nBits = .ok proof := by
  obtain ⟨kernel, beans, hm⟩ := createBeanStake_eq_some hw h
  refine ⟨hm.isBeanStake hw, hm.nodup_prevouts hw, ?_, ?_⟩
  · intro inputs hin
    refine ⟨?_, hm.values hw hS hin⟩
    intro o ho txindex txPrev hlookup
    have hbean := ho
    rw [hm.prevouts] at hbean
    obtain ⟨bean, hb, rfl⟩ := List.mem_map.mp hbean
    obtain ⟨txindex', hlookup'⟩ := (hm.of bean hb).lookup_eq hw hS hin ho
    rw [hlookup] at hlookup'
    obtain ⟨-, rfl⟩ := Prod.mk.inj (Option.some_injective _ hlookup')
    exact hm.nTime_le bean hb
  · rw [hv] at hm ⊢
    exact hm.checkProofOfStake hn hio hw hs hS htree

namespace Sample

def stakeKey : Key := ⟨[2]⟩

/-- A chain of twenty blocks that pay the key, the second of which brings a new stake modifier
six hours after the first. -/
def deepBlock (nHeight : ℕ) : Block :=
  let label : UInt32 := .ofNat nHeight
  let nTime : UInt32 := if nHeight = 1 then 0 else 22000
  if nHeight = 0 then genesis
  else
    let b := block label (.ofNat 256 nHeight)
      [{ beanbase label nHeight [⟨100000 * bean, payToPubKey stakeKey⟩] with nTime := nTime }]
    { b with header := { b.header with nTime := nTime } }

def deepEntry (nHeight : ℕ) : BlockIndex :=
  if nHeight = 2 then { entry (deepBlock 2) with fStakeModifier := true, nStakeModifier := 5 }
  else entry (deepBlock nHeight)

def deepPtr : ℕ → BlockPtr
  | 0 => [deepEntry 0]
  | nHeight + 1 => deepEntry (nHeight + 1) :: deepPtr nHeight

def deepFiles : Files := Sample.files ((List.range 21).map deepBlock) (by decide +kernel)

def deepTree : BlockTree params deepFiles :=
  BlockTree.ofListAt 22000 ((List.range 21).map deepPtr) (by decide +kernel)

def deepIo : Io where
  txnBegin := true
  txnCommit := true
  block hash := { blockIo with
    readBlock := ((List.range 21).map deepBlock).find? fun b => decide (b.hash params = hash)
    readTx := deepFiles.txAt
    adjustedTime := 22000 }

def deepNode : ℕ → Node
  | 0 => node
  | nHeight + 1 => ((setBestChain params deepIo (deepBlock (nHeight + 1))
      (deepPtr (nHeight + 1))).run (deepNode nHeight)).2

theorem mem_deepTree {nHeight : ℕ} (h : nHeight < 21) : deepPtr nHeight ∈ deepTree.entries :=
  List.mem_map_of_mem (List.mem_range.mpr h)

theorem consistent_deepNode {nHeight : ℕ} (h : nHeight < 21) :
    Consistent deepTree (deepNode nHeight) := by
  have hrun : ∀ nHeight < 20, ((setBestChain params deepIo (deepBlock (nHeight + 1))
      (deepPtr (nHeight + 1))).run (deepNode nHeight)).1 = some () := by decide +kernel
  have hpostpone : ∀ nHeight < 20, (BlockPtr.postpone
      (BlockPtr.nChainTrust (deepNode nHeight).pindexBest) (deepPtr (nHeight + 1))).2 = [] := by
    decide +kernel
  have hstored : ∀ nHeight < 21, deepFiles.blockOf (deepEntry nHeight) =
      some (deepBlock nHeight) := by decide +kernel
  have hio : deepIo.ReadsFrom deepTree :=
    Io.readsFrom_ofListAt (by decide +kernel) fun _ => rfl
  induction nHeight with
  | zero => exact ⟨Or.inr (mem_deepTree h), rfl, rfl, ⟨⟨trivial, rfl⟩, rfl, rfl, rfl⟩⟩
  | succ nHeight ih =>
    refine (ih (by omega)).of_setBestChain
      (BlockTree.bringsNewTxids_of_injOn (injOn_txs (by decide +kernel))) hio (mem_deepTree h)
      (hstored _ h) (Prod.ext (hrun nHeight (by omega)) rfl) ?_
    rw [← deepPtr, hpostpone nHeight (by omega)]
    rfl

def deepView : ChainView where
  toKernelView := (deepNode 20).kernelView (diskIo deepFiles)
    (indexOfList ((List.range 21).map deepPtr))
  nBestHeight := 20
  nAdjustedTime := 22100
  inMemPool _ := false

/-- The wallet has been told of the first reward only. -/
def stakingWallet : StakingWallet where
  mapWallet := AList.singleton 2 ((WalletTx.ofTransaction
    (beanbase 1 1 [⟨100000 * bean, payToPubKey stakeKey⟩])).setMerkleBranch params (deepBlock 1))
  isMine script := script = payToPubKey stakeKey
  nMinimumInputValue := 0
  getBalance := 2000000 * bean
  nReserveBalance := 0
  address hash := hash.toNat
  solver script := if script = payToPubKey stakeKey then some (.pubkey stakeKey.pubKey) else none
  hash160 vchPubKey := .ofNat 160 vchPubKey.length
  getKey hash := if hash = 1 then some stakeKey else none
  signSignature _ _ _ := some [1]

theorem keyed_stakingWallet : stakingWallet.toWallet.Keyed params deepTree.txs := by
  have hsingle : ∀ {h wtx}, stakingWallet.mapWallet.lookup h = some wtx →
      h = 2 ∧ wtx.tx = beanbase 1 1 [⟨100000 * bean, payToPubKey stakeKey⟩] := by
    intro h wtx hl
    obtain ⟨rfl, heq⟩ := Sigma.mk.inj (List.mem_singleton.mp (AList.mem_lookup_iff.mp hl))
    rw [eq_of_heq heq]
    exact ⟨rfl, rfl⟩
  constructor
  · intro h wtx hl
    obtain ⟨rfl, htx⟩ := hsingle hl
    rw [htx]
    decide +kernel
  · intro h wtx hl
    rw [(hsingle hl).2]
    have hmem : deepPtr 1 ∈ deepTree.entries := mem_deepTree (by decide)
    exact ⟨deepEntry 1, deepPtr 0, deepBlock 1, hmem, by decide +kernel, List.mem_singleton.mpr rfl⟩
  · intro h wtx hl
    rw [(hsingle hl).2]
    decide

theorem signs_stakingWallet : stakingWallet.Signs params :=
  ⟨fun _ _ _ _ => rfl, fun _ _ _ _ _ _ => rfl⟩

end Sample

open Sample in
/-- The wallet stakes its reward after six hours. -/
theorem createBeanStake_accepted_deepNode :
    ∃ tx key, createBeanStake params deepView stakingWallet 0x207fffff 60 0 22100 = some (tx, key) ∧
      tx.isBeanStake = true ∧ tx.prevouts.Nodup ∧
      ∃ proof, checkProofOfStake params deepView.toKernelView tx 0x207fffff = .ok proof := by
  have hsome : (createBeanStake params deepView stakingWallet 0x207fffff 60 0 22100).isSome =
      true := by decide +kernel
  obtain ⟨⟨tx, key⟩, hmade⟩ := Option.isSome_iff_exists.mp hsome
  obtain ⟨hstake, hnd, -, hproof⟩ := createBeanStake_accepted (consistent_deepNode (by decide))
    (readsAll_diskIo deepFiles) rfl keyed_stakingWallet signs_stakingWallet
    (injOn_txs (by decide +kernel)) (Set.Subset.refl _) hmade
  exact ⟨tx, key, hmade, hstake, hnd, hproof⟩

end Beancash
