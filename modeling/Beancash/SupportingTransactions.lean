import Beancash.TrustedBalance
import Beancash.WorkQueue

namespace Beancash

open WorkQueue

/-- What `AddSupportingTransactions` reads of the node. -/
structure SupportView extends ChainView where
  /-- `CBlock::ReadFromDisk` -/
  readBlock : FileNumber → UInt32 → Option Block

/-- `CTxDB::ReadDiskTx` -/
def SupportView.readDiskTx (v : SupportView) (hash : Uint256) : Option Transaction :=
  (v.readTxIndex hash).bind fun txindex => txindex.pos.bind v.readTx

namespace MerkleTx

/-- `CMerkleTx(tx)` -/
def ofTransaction (tx : Transaction) : MerkleTx := ⟨tx, 0, [], -1⟩

/-- `SetMerkleBranch()`, with what it returns. -/
def setMerkleBranch (P : Params) (v : SupportView) (mtx : MerkleTx) : MerkleTx × ℤ :=
  match v.readTxIndex (P.txHash mtx.tx) with
  | none => (mtx, 0)
  | some txindex =>
    match txindex.pos.bind fun pos => v.readBlock pos.nFile pos.nBlockPos with
    | none => (mtx, 0)
    | some blockTmp =>
      match blockTmp.vtx.findIdx? (· == mtx.tx) with
      | none => ({ mtx with hashBlock := blockTmp.hash P, vMerkleBranch := [], nIndex := -1 }, 0)
      | some nIndex =>
        ({ mtx with
            hashBlock := blockTmp.hash P
            vMerkleBranch := getMerkleBranch P blockTmp.vtx nIndex
            nIndex := .ofNat nIndex },
          -- is it in a block of the main chain?
          match v.mapBlockIndex (blockTmp.hash P) with
          | none => 0
          | some pindex =>
            if !v.isInMainChain pindex then 0
            else (BlockPtr.nHeight v.pindexBest : ℤ) - BlockPtr.nHeight pindex + 1)

end MerkleTx

/-- A `CWalletTx` as the `CMerkleTx` that it is. -/
def AccountTx.toMerkleTx (wtx : AccountTx) : MerkleTx :=
  ⟨wtx.tx, wtx.hashBlock, wtx.vMerkleBranch, .ofInt wtx.nIndex⟩

def copyDepth : ℤ := 3

/-- The loop over the queue, of which what was gone through is left out. -/
structure SupportState where
  vWorkQueue : List Uint256
  mapWalletPrev : AList fun _ : Uint256 => MerkleTx
  setAlreadyDone : List Uint256
  vtxPrev : List MerkleTx

namespace AccountWallet

variable (P : Params) (v : SupportView) (w : AccountWallet)

/-- Where a transaction is looked for; the supporting ones of a wallet transaction are kept. -/
def findSupport (mapWalletPrev : AList fun _ : Uint256 => MerkleTx) (hash : Uint256) :
    Option (MerkleTx × AList fun _ : Uint256 => MerkleTx) :=
  match w.mapWallet.find hash with
  | some wtx => some (wtx.toMerkleTx, wtx.vtxPrev.foldl (fun mapWalletPrev txWalletPrev =>
      mapWalletPrev.insert (P.txHash txWalletPrev.tx) txWalletPrev) mapWalletPrev)
  | none =>
    match mapWalletPrev.lookup hash with
    | some tx => some (tx, mapWalletPrev)
    | none => (v.readDiskTx hash).map fun tx => (.ofTransaction tx, mapWalletPrev)

/-- A round of the loop. -/
def addSupportingRound (s : SupportState) : List MerkleTx ⊕ SupportState :=
  match s.vWorkQueue with
  | [] => .inl s.vtxPrev
  | hash :: vWorkQueue =>
    if s.setAlreadyDone.contains hash then .inr { s with vWorkQueue := vWorkQueue }
    else
      match findSupport P v w s.mapWalletPrev hash with
      -- unsupported transaction
      | none => .inr { s with vWorkQueue := vWorkQueue, setAlreadyDone := hash :: s.setAlreadyDone }
      | some (tx, mapWalletPrev) =>
        let (tx, nDepth) := tx.setMerkleBranch P v
        .inr {
          vWorkQueue :=
            if nDepth < copyDepth then vWorkQueue ++ tx.tx.prevouts.map (·.hash) else vWorkQueue
          mapWalletPrev := mapWalletPrev
          setAlreadyDone := hash :: s.setAlreadyDone
          vtxPrev := s.vtxPrev ++ [tx] }

/-- `AddSupportingTransactions`, which sets `vtxPrev`. The loop goes `nFuel` rounds at most. -/
def addSupportingTransactions (nFuel : ℕ) (wtx : MerkleTx) : Option (List MerkleTx) :=
  if (wtx.setMerkleBranch P v).2 < copyDepth then
    (run (addSupportingRound P v w) nFuel ⟨wtx.tx.prevouts.map (·.hash), ∅, [], []⟩).map
      List.reverse
  else some []

end AccountWallet

/-- The loop of `AcceptWalletTransaction`: what it submits to the memory pool, in this order, and the
pool after it. -/
def submitPrev (P : Params) (v : AcceptView) (fCheckInputs : Bool) :
    TxMemPool → List MerkleTx → List Transaction × TxMemPool
  | pool, [] => ([], pool)
  | pool, tx :: vtxPrev =>
    if !(tx.tx.isBeanBase || tx.tx.isBeanStake) && (pool.lookup (P.txHash tx.tx)).isNone &&
        !v.containsTx (P.txHash tx.tx) then
      let r := submitPrev P v fCheckInputs (v.accept P pool tx.tx fCheckInputs).2.2 vtxPrev
      (tx.tx :: r.1, r.2)
    else submitPrev P v fCheckInputs pool vtxPrev

def acceptWalletTransaction (P : Params) (v : AcceptView) (pool : TxMemPool)
    (vtxPrev : List MerkleTx) (tx : Transaction) (fCheckInputs : Bool) : Bool × TxMemPool :=
  let r := v.accept P (submitPrev P v fCheckInputs pool vtxPrev).2 tx fCheckInputs
  (r.1, r.2.2)

theorem sublist_submitPrev (P : Params) (v : AcceptView) (fCheckInputs : Bool) (pool : TxMemPool)
    (vtxPrev : List MerkleTx) :
    (submitPrev P v fCheckInputs pool vtxPrev).1.Sublist (vtxPrev.map MerkleTx.tx) := by
  induction vtxPrev generalizing pool with
  | nil => exact List.Sublist.refl _
  | cons tx vtxPrev ih =>
    rw [submitPrev, List.map_cons]
    split
    · exact (ih _).cons_cons _
    · exact (ih _).cons _

namespace MerkleTx

variable (P : Params) (v : SupportView)

/-- The depth of a transaction in the main chain, as `SetMerkleBranch` returns it. -/
def depthOf (tx : Transaction) : ℤ := ((ofTransaction tx).setMerkleBranch P v).2

theorem tx_setMerkleBranch (mtx : MerkleTx) : (mtx.setMerkleBranch P v).1.tx = mtx.tx := by
  unfold setMerkleBranch
  repeat' split
  all_goals rfl

theorem setMerkleBranch_depth (mtx : MerkleTx) :
    (mtx.setMerkleBranch P v).2 = depthOf P v mtx.tx := by
  unfold depthOf setMerkleBranch ofTransaction
  dsimp only
  repeat' split
  all_goals rfl

end MerkleTx

def SupportState.search (s : SupportState) :
    State Uint256 MerkleTx (AList fun _ : Uint256 => MerkleTx) :=
  ⟨s.vWorkQueue, s.setAlreadyDone, s.mapWalletPrev, s.vtxPrev⟩

namespace AccountWallet

variable (P : Params) (v : SupportView) (w : AccountWallet)

/-- What the loop looks up and what it puts in the queue. -/
def supportSearch : Search Uint256 MerkleTx (AList fun _ : Uint256 => MerkleTx) where
  find mapWalletPrev hash := (findSupport P v w mapWalletPrev hash).map fun r =>
    ((r.1.setMerkleBranch P v).1, r.2)
  next tx := if MerkleTx.depthOf P v tx.tx < copyDepth then tx.tx.prevouts.map (·.hash) else []

theorem round_search (s : SupportState) : (supportSearch P v w).round s.search =
    (addSupportingRound P v w s).map id SupportState.search := by
  unfold Search.round addSupportingRound SupportState.search
  cases s.vWorkQueue with
  | nil => rfl
  | cons hash vWorkQueue =>
    dsimp only
    by_cases hdone : hash ∈ s.setAlreadyDone
    · rw [if_pos hdone, if_pos (List.contains_iff_mem.mpr hdone)]
      rfl
    · rw [if_neg hdone, if_neg (mt List.contains_iff_mem.mp hdone)]
      cases hfind : findSupport P v w s.mapWalletPrev hash with
      | none =>
        simp only [supportSearch, hfind, Option.map_none]
        rfl
      | some r =>
        simp only [supportSearch, hfind, Option.map_some, MerkleTx.setMerkleBranch_depth,
          MerkleTx.tx_setMerkleBranch]
        by_cases hdepth : MerkleTx.depthOf P v r.1.tx < copyDepth
        · rw [if_pos hdepth, if_pos hdepth]
          rfl
        · rw [if_neg hdepth, if_neg hdepth, List.append_nil]
          rfl

/-- A transaction has an output of another one as an input. -/
def Spends (tx txPrev : Transaction) : Prop := P.txHash txPrev ∈ tx.prevouts.map (·.hash)

/-- The transactions that are found by their hash or are with one that is. -/
def IsKnown (tx : Transaction) : Prop :=
  (∃ hash wtx, w.mapWallet.find hash = some wtx ∧
    (tx = wtx.tx ∨ ∃ prev ∈ wtx.vtxPrev, tx = prev.tx)) ∨
    ∃ hash, v.readDiskTx hash = some tx

/-- The wallet and the index of the transactions on disk are by their hashes. -/
structure Keyed : Prop where
  wallet : ∀ {hash wtx}, w.mapWallet.find hash = some wtx → P.txHash wtx.tx = hash
  disk : ∀ {hash tx}, v.readDiskTx hash = some tx → P.txHash tx = hash

/-- No two transactions have one hash, and none spends itself through others. -/
structure AcyclicSpending (known : Transaction → Prop) (rank : Transaction → ℕ) : Prop where
  injective : ∀ {tx tx'}, known tx → known tx' → P.txHash tx = P.txHash tx' → tx = tx'
  acyclic : ∀ {tx txPrev}, known tx → known txPrev → Spends P tx txPrev → rank txPrev < rank tx

/-- What supports a transaction. The wallet and the disk are always looked at, and what comes with a
transaction of the wallet after that was found. -/
def supportGraph (tx : Transaction) : Graph Uint256 where
  start := if MerkleTx.depthOf P v tx < copyDepth then tx.prevouts.map (·.hash) else []
  edge hash i hash' := ∃ tx, IsKnown v w tx ∧ P.txHash tx = hash ∧
    MerkleTx.depthOf P v tx < copyDepth ∧ (tx.prevouts.map (·.hash))[i]? = some hash'
  base hash := (w.mapWallet.find hash).isSome ∨ (v.readDiskTx hash).isSome
  brings hash hash' := ∃ wtx, w.mapWallet.find hash = some wtx ∧
    ∃ prev ∈ wtx.vtxPrev, P.txHash prev.tx = hash'

/-- What is in `mapWalletPrev` after some hashes were found. -/
def KnowsPrev (mapWalletPrev : AList fun _ : Uint256 => MerkleTx) (hashes : List Uint256) : Prop :=
  (∀ hash tx, mapWalletPrev.lookup hash = some tx → P.txHash tx.tx = hash ∧ IsKnown v w tx.tx) ∧
    ∀ hash, (mapWalletPrev.lookup hash).isSome ↔
      ∃ hash' ∈ hashes, ∃ wtx, w.mapWallet.find hash' = some wtx ∧
        ∃ prev ∈ wtx.vtxPrev, P.txHash prev.tx = hash

variable {P v w}

theorem lookup_foldl_insert {vtxPrev : List MerkleTx}
    {mapWalletPrev : AList fun _ : Uint256 => MerkleTx} {hash : Uint256} {tx : MerkleTx}
    (h : (vtxPrev.foldl (fun mapWalletPrev txWalletPrev =>
      mapWalletPrev.insert (P.txHash txWalletPrev.tx) txWalletPrev) mapWalletPrev).lookup hash =
        some tx) :
    (tx ∈ vtxPrev ∧ P.txHash tx.tx = hash) ∨ mapWalletPrev.lookup hash = some tx := by
  induction vtxPrev generalizing mapWalletPrev with
  | nil => exact .inr h
  | cons prev vtxPrev ih =>
    rcases ih h with ⟨hmem, hhash⟩ | hlookup
    · exact .inl ⟨List.mem_cons_of_mem _ hmem, hhash⟩
    · by_cases heq : P.txHash prev.tx = hash
      · rw [← heq, AList.lookup_insert] at hlookup
        obtain rfl := Option.some.inj hlookup
        exact .inl ⟨List.mem_cons_self, heq⟩
      · rw [AList.lookup_insert_ne (Ne.symm heq)] at hlookup
        exact .inr hlookup

theorem isSome_lookup_foldl_insert (vtxPrev : List MerkleTx)
    (mapWalletPrev : AList fun _ : Uint256 => MerkleTx) (hash : Uint256) :
    ((vtxPrev.foldl (fun mapWalletPrev txWalletPrev =>
      mapWalletPrev.insert (P.txHash txWalletPrev.tx) txWalletPrev) mapWalletPrev).lookup hash).isSome ↔
      (∃ prev ∈ vtxPrev, P.txHash prev.tx = hash) ∨ (mapWalletPrev.lookup hash).isSome := by
  induction vtxPrev generalizing mapWalletPrev with
  | nil => simp
  | cons prev vtxPrev ih =>
    rw [List.foldl_cons, ih]
    by_cases heq : P.txHash prev.tx = hash
    · rw [← heq, AList.lookup_insert]
      simp
    · rw [AList.lookup_insert_ne (Ne.symm heq)]
      simp [heq]

/-- What is found has the hash that was looked up, and is what there is to be found. -/
theorem findSupport_eq_some (hkeyed : Keyed P v w)
    {mapWalletPrev mapWalletPrev' : AList fun _ : Uint256 => MerkleTx} {hashes : List Uint256}
    {hash : Uint256} {tx : MerkleTx} (hprev : KnowsPrev P v w mapWalletPrev hashes)
    (h : findSupport P v w mapWalletPrev hash = some (tx, mapWalletPrev')) :
    P.txHash tx.tx = hash ∧ IsKnown v w tx.tx ∧
      KnowsPrev P v w mapWalletPrev' (hash :: hashes) := by
  unfold findSupport at h
  cases hfind : w.mapWallet.find hash with
  | some wtx =>
    rw [hfind] at h
    obtain ⟨rfl, rfl⟩ := Prod.mk.inj (Option.some.inj h)
    refine ⟨hkeyed.wallet hfind, .inl ⟨hash, wtx, hfind, .inl rfl⟩, ?_, ?_⟩
    · intro hash' tx htx
      rcases lookup_foldl_insert htx with ⟨hmem, hhash⟩ | hlookup
      · exact ⟨hhash, .inl ⟨hash, wtx, hfind, .inr ⟨tx, hmem, rfl⟩⟩⟩
      · exact hprev.1 hash' tx hlookup
    · intro hash'
      rw [isSome_lookup_foldl_insert, hprev.2 hash', List.exists_mem_cons_iff]
      refine or_congr_left ⟨fun hmem => ⟨wtx, hfind, hmem⟩, ?_⟩
      rintro ⟨wtx', hfind', hmem⟩
      rwa [Option.some.inj (hfind.symm.trans hfind')]
  | none =>
    have hcons : KnowsPrev P v w mapWalletPrev (hash :: hashes) := by
      refine ⟨hprev.1, fun hash' => ?_⟩
      rw [hprev.2 hash', List.exists_mem_cons_iff, or_iff_right]
      rintro ⟨wtx, hfind', -⟩
      exact absurd (hfind.symm.trans hfind') (by simp)
    rw [hfind] at h
    cases hlookup : mapWalletPrev.lookup hash with
    | some tx' =>
      rw [hlookup] at h
      obtain ⟨rfl, rfl⟩ := Prod.mk.inj (Option.some.inj h)
      obtain ⟨hhash, hknown⟩ := hprev.1 hash _ hlookup
      exact ⟨hhash, hknown, hcons⟩
    | none =>
      rw [hlookup] at h
      obtain ⟨tx', hdisk, heq⟩ := Option.map_eq_some_iff.mp h
      obtain ⟨rfl, rfl⟩ := Prod.mk.inj heq
      exact ⟨hkeyed.disk hdisk, .inr ⟨hash, hdisk⟩, hcons⟩

theorem isSome_findSupport_iff {mapWalletPrev : AList fun _ : Uint256 => MerkleTx}
    {hashes : List Uint256} {hash : Uint256} (hprev : KnowsPrev P v w mapWalletPrev hashes) :
    (findSupport P v w mapWalletPrev hash).isSome ↔
      ((w.mapWallet.find hash).isSome ∨ (v.readDiskTx hash).isSome) ∨
        ∃ hash' ∈ hashes, ∃ wtx, w.mapWallet.find hash' = some wtx ∧
          ∃ prev ∈ wtx.vtxPrev, P.txHash prev.tx = hash := by
  rw [← hprev.2 hash, findSupport]
  cases w.mapWallet.find hash with
  | some wtx => simp
  | none => cases mapWalletPrev.lookup hash <;> simp

theorem supportSearch_spec (hkeyed : Keyed P v w) {rank : Transaction → ℕ}
    (hspend : AcyclicSpending P (IsKnown v w) rank) (tx : Transaction) :
    (supportSearch P v w).Spec (supportGraph P v w tx) (fun x => P.txHash x.tx)
      (KnowsPrev P v w) where
  find {mapWalletPrev hashes hash x mapWalletPrev'} hprev h := by
    obtain ⟨r, hfind, heq⟩ := Option.map_eq_some_iff.mp h
    obtain ⟨rfl, rfl⟩ := Prod.mk.inj heq
    obtain ⟨hhash, hknown, hnext⟩ := findSupport_eq_some hkeyed hprev hfind
    rw [MerkleTx.tx_setMerkleBranch]
    refine ⟨hhash, hnext, fun i hash' => ?_⟩
    dsimp only [supportSearch]
    rw [MerkleTx.tx_setMerkleBranch]
    constructor
    · intro hi
      split at hi
      · rename_i hdepth
        exact ⟨r.1.tx, hknown, hhash, hdepth, hi⟩
      · exact absurd hi (by simp)
    · rintro ⟨tx', hknown', hhash', hdepth, hi⟩
      obtain rfl := hspend.injective hknown hknown' (hhash.trans hhash'.symm)
      rwa [if_pos hdepth]
  isSome_find {mapWalletPrev hashes hash} hprev := by
    dsimp only [supportSearch]
    rw [Option.isSome_map]
    exact isSome_findSupport_iff hprev
  base {hash hash'} h := by
    obtain ⟨wtx, hfind, -⟩ := h
    exact .inl (by rw [hfind]; rfl)

theorem knowsPrev_empty : KnowsPrev P v w ∅ [] := by
  refine ⟨fun hash tx h => absurd h ?_, fun hash => iff_of_false ?_ ?_⟩
  · simp
  · simp
  · simp

/-- How far up a hash is in what is known. -/
noncomputable def heightOf (P : Params) (known : Transaction → Prop) (rank : Transaction → ℕ)
    (hash : Uint256) : ℕ :=
  open Classical in
  if h : ∃ tx, known tx ∧ P.txHash tx = hash then rank h.choose + 1 else 0

theorem heightOf_known {known : Transaction → Prop} {rank : Transaction → ℕ}
    (hspend : AcyclicSpending P known rank) {tx : Transaction} (h : known tx) :
    heightOf P known rank (P.txHash tx) = rank tx + 1 := by
  have hex : ∃ tx', known tx' ∧ P.txHash tx' = P.txHash tx := ⟨tx, h, rfl⟩
  rw [heightOf, dif_pos hex, hspend.injective hex.choose_spec.1 h hex.choose_spec.2]

theorem heightOf_lt {known : Transaction → Prop} {rank : Transaction → ℕ}
    (hspend : AcyclicSpending P known rank) {tx : Transaction} (h : known tx) {hash : Uint256}
    (hmem : hash ∈ tx.prevouts.map (·.hash)) :
    heightOf P known rank hash < heightOf P known rank (P.txHash tx) := by
  rw [heightOf_known hspend h]
  by_cases hprev : ∃ tx', known tx' ∧ P.txHash tx' = hash
  · obtain ⟨txPrev, hknown, rfl⟩ := hprev
    rw [heightOf_known hspend hknown]
    exact Nat.succ_lt_succ (hspend.acyclic h hknown hmem)
  · rw [heightOf, dif_neg hprev]
    exact Nat.succ_pos _

theorem exists_addSupportingTransactions (hkeyed : Keyed P v w) {rank : Transaction → ℕ}
    (hspend : AcyclicSpending P (IsKnown v w) rank) (wtx : MerkleTx) :
    ∃ nFuel out, run (supportSearch P v w).round nFuel
        ⟨(supportGraph P v w wtx.tx).start, [], ∅, []⟩ = some out ∧
      addSupportingTransactions P v w nFuel wtx = some out.reverse := by
  have hspec := supportSearch_spec hkeyed hspend wtx.tx
  obtain ⟨nFuel, out, hrun⟩ := Search.exists_run_search hspec knowsPrev_empty
    (heightOf P (IsKnown v w) rank) (by
      rintro hash i hash' ⟨tx, hknown, rfl, -, hi⟩
      exact heightOf_lt hspend hknown (List.mem_of_getElem? hi))
  refine ⟨nFuel, out, hrun, ?_⟩
  rw [addSupportingTransactions, MerkleTx.setMerkleBranch_depth]
  dsimp only [supportGraph] at hrun
  split
  · rename_i hdepth
    rw [if_pos hdepth] at hrun
    have hmap := run_map SupportState.search (round_search P v w) nFuel
      ⟨wtx.tx.prevouts.map (·.hash), ∅, [], []⟩
    rw [← hmap]
    exact congrArg (Option.map List.reverse) hrun
  · rename_i hdepth
    rw [if_neg hdepth] at hrun
    cases nFuel with
    | zero => cases hrun
    | succ nFuel =>
      obtain rfl : [] = out := Option.some.inj hrun
      rfl

theorem isKnown_of_mem (hkeyed : Keyed P v w) {rank : Transaction → ℕ}
    (hspend : AcyclicSpending P (IsKnown v w) rank) {tx : Transaction} {nFuel : ℕ}
    {out : List MerkleTx} (h : run (supportSearch P v w).round nFuel
      ⟨(supportGraph P v w tx).start, [], ∅, []⟩ = some out) : ∀ x ∈ out, IsKnown v w x.tx := by
  have hspec := supportSearch_spec hkeyed hspend tx
  obtain ⟨s, ⟨-, hs⟩, hround⟩ := run_induction
    (I := fun s => (∃ hashes, KnowsPrev P v w s.known hashes) ∧ ∀ x ∈ s.out, IsKnown v w x.tx)
    (by
      rintro s s' ⟨⟨hashes, hprev⟩, hout⟩ hround
      obtain ⟨hash, queue, -, hcases⟩ := Search.round_cases hround
      rcases hcases with ⟨-, rfl⟩ | ⟨-, -, rfl⟩ | ⟨x, e, -, hsome, rfl⟩
      · exact ⟨⟨hashes, hprev⟩, hout⟩
      · exact ⟨⟨hashes, hprev⟩, hout⟩
      · obtain ⟨-, hknown, -⟩ := hspec.find hprev hsome
        refine ⟨⟨_, hknown⟩, fun y hy => ?_⟩
        rcases List.mem_append.mp hy with hmem | hlast
        · exact hout y hmem
        · obtain rfl := List.mem_singleton.mp hlast
          obtain ⟨r, hfind, heq⟩ := Option.map_eq_some_iff.mp hsome
          obtain ⟨rfl, rfl⟩ := Prod.mk.inj heq
          rw [MerkleTx.tx_setMerkleBranch]
          exact (findSupport_eq_some hkeyed hprev hfind).2.1)
    ⟨⟨[], knowsPrev_empty⟩, fun x hx => absurd hx List.not_mem_nil⟩ h
  obtain ⟨-, rfl⟩ := Search.round_eq_inl hround
  exact hs

/-- A known transaction that is found along a chain of inputs of transactions that are. -/
def IsSupporting (P : Params) (v : SupportView) (w : AccountWallet) (tx : Transaction)
    (found : Uint256 → Prop) (txPrev : Transaction) : Prop :=
  IsKnown v w txPrev ∧ (∃ p, (supportGraph P v w tx).Chain found p (P.txHash txPrev)) ∧
    found (P.txHash txPrev)

/-- Each supporting transaction has a chain that comes before all chains to what it spends. -/
def FindsParentsLater (P : Params) (v : SupportView) (w : AccountWallet) (tx : Transaction)
    (found : Uint256 → Prop) : Prop :=
  ∀ txChild txParent, IsSupporting P v w tx found txChild → IsSupporting P v w tx found txParent →
    Spends P txChild txParent →
    (supportGraph P v w tx).Before found (P.txHash txChild) (P.txHash txParent)

theorem run_supportSearch (hkeyed : Keyed P v w) {rank : Transaction → ℕ}
    (hspend : AcyclicSpending P (IsKnown v w) rank) {tx : Transaction} {nFuel : ℕ}
    {out : List MerkleTx} (h : run (supportSearch P v w).round nFuel
      ⟨(supportGraph P v w tx).start, [], ∅, []⟩ = some out) {found : Uint256 → Prop}
    (hfound : (supportGraph P v w tx).Consistent found) :
    (out.map fun x => P.txHash x.tx).Nodup ∧
      (∀ txPrev, (∃ x ∈ out, x.tx = txPrev) ↔ IsSupporting P v w tx found txPrev) ∧
      ((out.Pairwise fun x y => ¬ Spends P y.tx x.tx) ↔ FindsParentsLater P v w tx found) := by
  obtain ⟨hnodup, hmem, hpair⟩ :=
    Search.run_spec (supportSearch_spec hkeyed hspend tx) knowsPrev_empty hfound h
  have hknown := isKnown_of_mem hkeyed hspend h
  have hlisted : ∀ txPrev, (∃ x ∈ out, x.tx = txPrev) ↔ IsSupporting P v w tx found txPrev := by
    intro txPrev
    constructor
    · rintro ⟨x, hx, rfl⟩
      exact ⟨hknown x hx, (hmem _).mp (List.mem_map.mpr ⟨x, hx, rfl⟩)⟩
    · rintro ⟨hprev, hchain⟩
      obtain ⟨x, hx, hhash⟩ := List.mem_map.mp ((hmem _).mpr hchain)
      exact ⟨x, hx, hspend.injective (hknown x hx) hprev hhash⟩
  refine ⟨hnodup, hlisted, ?_⟩
  -- the relation of the hashes
  have hrel : ∀ {x y : MerkleTx}, x ∈ out → y ∈ out → ((∃ txChild, IsKnown v w txChild ∧
      P.txHash txChild = P.txHash y.tx ∧ P.txHash x.tx ∈ txChild.prevouts.map (·.hash)) ↔
        Spends P y.tx x.tx) := by
    intro x y hx hy
    constructor
    · rintro ⟨txChild, hchild, hhash, hspends⟩
      rwa [← hspend.injective hchild (hknown y hy) hhash]
    · exact fun hspends => ⟨y.tx, hknown y hy, rfl, hspends⟩
  have hpair' := hpair (fun hash hash' => ∃ txChild, IsKnown v w txChild ∧
    P.txHash txChild = hash ∧ hash' ∈ txChild.prevouts.map (·.hash)) (by
      rintro hash - ⟨txChild, hchild, rfl, hspends⟩
      exact absurd (hspend.acyclic hchild hchild hspends) (lt_irrefl _))
  rw [List.Pairwise.iff_of_mem fun hx hy => not_congr (hrel hx hy)] at hpair'
  rw [hpair']
  constructor
  · intro h txChild txParent hchild hparent hspends
    obtain ⟨x, hx, rfl⟩ := (hlisted txChild).mpr hchild
    obtain ⟨y, hy, rfl⟩ := (hlisted txParent).mpr hparent
    exact h _ (List.mem_map_of_mem hx) _ (List.mem_map_of_mem hy) ((hrel hy hx).mpr hspends)
  · intro h hash hchild hash' hparent hspends
    obtain ⟨x, hx, rfl⟩ := List.mem_map.mp hchild
    obtain ⟨y, hy, rfl⟩ := List.mem_map.mp hparent
    exact h x.tx y.tx ((hlisted _).mp ⟨x, hx, rfl⟩) ((hlisted _).mp ⟨y, hy, rfl⟩)
      ((hrel hy hx).mp hspends)

/-- A round of the loop of `IsTrusted`. -/
def trustedRound (P : Params) (c : Crypto) (v : ChainView) (w : AccountWallet)
    (vtxPrev : List MerkleTx) : List WalletTx → Option Bool ⊕ List WalletTx
  | [] => .inl (some true)
  | ptx :: vWorkQueue =>
    if !ptx.tx.isFinal v.nBestHeight v.nAdjustedTime 0 0 then .inl (some false)
    else
      let nPDepth := getDepthInMainChain P v ptx
      if 1 ≤ nPDepth then .inr vWorkQueue
      else if nPDepth < 0 then .inl (some false)
      else
        match w.amounts.getDebit c ptx.tx with
        | none => .inl none
        | some nDebit =>
          if ¬0 < nDebit then .inl (some false)
          else
            match ptx.tx.prevouts.mapM fun prevout => findPrev P vtxPrev prevout.hash with
            | none => .inl (some false)
            | some prevs => .inr (vWorkQueue ++ prevs.map MerkleTx.toWalletTx)

section Trusted

variable {c : Crypto} {v : ChainView} {vtxPrev : List MerkleTx}

theorem findPrev_eq_some {vtxPrev : List MerkleTx} {hash : Uint256} {tx : MerkleTx}
    (h : findPrev P vtxPrev hash = some tx) : tx ∈ vtxPrev ∧ P.txHash tx.tx = hash := by
  unfold findPrev at h
  have hhash := List.find?_some h
  exact ⟨List.mem_reverse.mp (List.mem_of_find?_eq_some h), of_decide_eq_true hhash⟩

theorem exists_of_mem_mapM {α β : Type} {f : α → Option β} {l : List α} {r : List β}
    (h : l.mapM f = some r) : ∀ b ∈ r, ∃ a ∈ l, f a = some b := by
  induction l generalizing r with
  | nil =>
    obtain rfl := Option.some_injective _ h
    exact fun b hb => absurd hb List.not_mem_nil
  | cons a l ih =>
    rw [List.mapM_cons] at h
    obtain ⟨b, hb, h⟩ := Option.bind_eq_some_iff.mp h
    obtain ⟨r, hr, h⟩ := Option.bind_eq_some_iff.mp h
    obtain rfl := Option.some_injective _ h
    refine List.forall_mem_cons.mpr ⟨⟨a, List.mem_cons_self, hb⟩, fun b' hb' => ?_⟩
    obtain ⟨a', ha', hf⟩ := ih hr b' hb'
    exact ⟨a', List.mem_cons_of_mem a ha', hf⟩

/-- A round takes the first transaction from the queue and puts ones that it spends at the end. -/
theorem trustedRound_eq_inr {vWorkQueue vWorkQueue' : List WalletTx}
    (h : trustedRound P c v w vtxPrev vWorkQueue = .inr vWorkQueue') :
    ∃ ptx queue prevs, vWorkQueue = ptx :: queue ∧ vWorkQueue' = queue ++ prevs ∧
      ∀ ptxPrev ∈ prevs, (∃ prev ∈ vtxPrev, ptxPrev.tx = prev.tx) ∧
        Spends P ptx.tx ptxPrev.tx := by
  cases vWorkQueue with
  | nil => cases h
  | cons ptx queue =>
    rw [trustedRound] at h
    dsimp only at h
    split_ifs at h with hfinal hdeep hneg
    · obtain rfl := Sum.inr.inj h
      exact ⟨ptx, queue, [], rfl, (List.append_nil _).symm, fun _ hmem =>
        absurd hmem List.not_mem_nil⟩
    · cases hdebit : w.amounts.getDebit c ptx.tx with
      | none =>
        rw [hdebit] at h
        cases h
      | some nDebit =>
        rw [hdebit] at h
        dsimp only at h
        split_ifs at h with hpos
        cases hprevs : ptx.tx.prevouts.mapM fun prevout => findPrev P vtxPrev prevout.hash with
        | none =>
          rw [hprevs] at h
          cases h
        | some prevs =>
          rw [hprevs] at h
          obtain rfl := Sum.inr.inj h
          refine ⟨ptx, queue, prevs.map MerkleTx.toWalletTx, rfl, rfl, ?_⟩
          intro ptxPrev hmem
          obtain ⟨prev, hprev, rfl⟩ := List.mem_map.mp hmem
          obtain ⟨prevout, hin, hfind⟩ := exists_of_mem_mapM hprevs prev hprev
          obtain ⟨hmem', hhash⟩ := findPrev_eq_some hfind
          exact ⟨⟨prev, hmem', rfl⟩, List.mem_map.mpr ⟨prevout, hin, hhash.symm⟩⟩

theorem trustedLoop_succ (nFuel : ℕ) (vWorkQueue : List WalletTx) :
    trustedLoop P c v w vtxPrev (nFuel + 1) vWorkQueue =
      (trustedRound P c v w vtxPrev vWorkQueue).elim id (trustedLoop P c v w vtxPrev nFuel) := by
  cases vWorkQueue with
  | nil => rfl
  | cons ptx queue =>
    rw [trustedLoop, trustedRound]
    dsimp only
    split_ifs with hfinal hdeep hneg
    · rfl
    · rfl
    · rfl
    · cases w.amounts.getDebit c ptx.tx with
      | none => rfl
      | some nDebit =>
        dsimp only
        split_ifs with hpos
        · cases ptx.tx.prevouts.mapM fun prevout => findPrev P vtxPrev prevout.hash <;> rfl
        · rfl

theorem trustedLoop_of_run {nFuel : ℕ} {vWorkQueue : List WalletTx} {r : Option Bool}
    (h : run (trustedRound P c v w vtxPrev) nFuel vWorkQueue = some r) :
    trustedLoop P c v w vtxPrev nFuel vWorkQueue = r := by
  induction nFuel generalizing vWorkQueue with
  | zero => cases h
  | succ nFuel ih =>
    rw [trustedLoop_succ]
    cases hround : trustedRound P c v w vtxPrev vWorkQueue with
    | inl b =>
      rw [run_of_inl hround] at h
      exact Option.some.inj h
    | inr vWorkQueue' =>
      rw [run_of_inr hround] at h
      exact ih h

theorem known_of_round {known : Transaction → Prop} (hprev : ∀ prev ∈ vtxPrev, known prev.tx)
    {vWorkQueue vWorkQueue' : List WalletTx} (hknown : ∀ ptx ∈ vWorkQueue, known ptx.tx)
    (h : trustedRound P c v w vtxPrev vWorkQueue = .inr vWorkQueue') :
    ∀ ptx ∈ vWorkQueue', known ptx.tx := by
  obtain ⟨ptx, queue, prevs, rfl, rfl, hprevs⟩ := trustedRound_eq_inr h
  intro ptx' hmem
  rcases List.mem_append.mp hmem with hqueue | hfound
  · exact hknown ptx' (List.mem_cons_of_mem _ hqueue)
  · obtain ⟨⟨prev, hmem', heq⟩, -⟩ := hprevs ptx' hfound
    rw [heq]
    exact hprev prev hmem'

theorem exists_run_trustedRound {known : Transaction → Prop} {rank : Transaction → ℕ}
    (hspend : AcyclicSpending P known rank) (hprev : ∀ prev ∈ vtxPrev, known prev.tx)
    {ptx : WalletTx} (hptx : known ptx.tx) :
    ∃ nFuel r, run (trustedRound P c v w vtxPrev) nFuel [ptx] = some r := by
  refine exists_run (I := fun vWorkQueue => ∀ ptx ∈ vWorkQueue, known ptx.tx)
    (r := fun vWorkQueue => Multiset.ofList (vWorkQueue.map fun ptx => rank ptx.tx)) ?_
    (List.forall_mem_singleton.mpr hptx)
  intro vWorkQueue vWorkQueue' hknown hround
  refine ⟨known_of_round hprev hknown hround, ?_⟩
  obtain ⟨ptx, queue, prevs, rfl, rfl, hprevs⟩ := trustedRound_eq_inr hround
  rw [List.map_append]
  refine isDershowitzMannaLT_append fun b hb => ?_
  obtain ⟨ptxPrev, hmem, rfl⟩ := List.mem_map.mp hb
  have hprevknown := known_of_round hprev hknown hround ptxPrev (List.mem_append_right _ hmem)
  exact hspend.acyclic (hknown ptx List.mem_cons_self) hprevknown (hprevs ptxPrev hmem).2

theorem trustedLoop_isSome {known : Transaction → Prop} {rank : Transaction → ℕ}
    (hspend : AcyclicSpending P known rank) (hprev : ∀ prev ∈ vtxPrev, known prev.tx)
    {ptx : WalletTx} (hptx : known ptx.tx)
    (hdebit : ∀ tx, known tx → (w.amounts.getDebit c tx).isSome = true) :
    ∃ nFuel, (trustedLoop P c v w vtxPrev nFuel [ptx]).isSome = true := by
  obtain ⟨nFuel, r, hrun⟩ := exists_run_trustedRound (c := c) (v := v) (w := w) hspend hprev hptx
  refine ⟨nFuel, ?_⟩
  rw [trustedLoop_of_run hrun]
  obtain ⟨vWorkQueue, hknown, hround⟩ := run_induction
    (I := fun vWorkQueue => ∀ ptx ∈ vWorkQueue, known ptx.tx)
    (fun _ _ hknown hround => known_of_round hprev hknown hround)
    (List.forall_mem_singleton.mpr hptx) hrun
  cases vWorkQueue with
  | nil =>
    obtain rfl := Sum.inl.inj hround
    rfl
  | cons ptx queue =>
    obtain ⟨nDebit, hsome⟩ :=
      Option.isSome_iff_exists.mp (hdebit ptx.tx (hknown ptx List.mem_cons_self))
    rw [trustedRound, hsome] at hround
    dsimp only at hround
    split_ifs at hround with hfinal hdeep hneg hpos
    · obtain rfl := Sum.inl.inj hround
      rfl
    · obtain rfl := Sum.inl.inj hround
      rfl
    · cases hprevs : ptx.tx.prevouts.mapM fun prevout => findPrev P vtxPrev prevout.hash with
      | none =>
        rw [hprevs] at hround
        obtain rfl := Sum.inl.inj hround
        rfl
      | some prevs =>
        rw [hprevs] at hround
        cases hround
    · obtain rfl := Sum.inl.inj hround
      rfl

end Trusted

end AccountWallet

namespace Sample

def emptyDisk : SupportView := { poolView [] with readBlock := fun _ _ => none }

/-- A node that knows no other transactions submits any. -/
def emptyAccept : AcceptView where
  inputs := ⟨fun _ => none, fun _ => none, fun _ => none, 0⟩
  containsTx _ := false
  pindexBest := []
  freeLimited := false

def supportingParent : Transaction := spend 31 [⟨5, 0⟩] [out 1, out 1]

def supportingChild : Transaction := spend 32 [⟨32, 0⟩] [out 1]

/-- A transaction with an input of each of them. -/
def spendsBoth (prevouts : List OutPoint) : Transaction := spend 33 prevouts [out 2]

def supportingWallet : AccountWallet :=
  { savingsWallet supportingParent with
    mapWallet := ⟨[(32, reported supportingParent), (33, reported supportingChild)], by
      refine List.pairwise_pair.mpr ?_
      decide⟩ }

open AccountWallet

theorem find_supportingWallet {hash : Uint256} {wtx : AccountTx}
    (h : supportingWallet.mapWallet.find hash = some wtx) :
    hash = 32 ∧ wtx = reported supportingParent ∨ hash = 33 ∧ wtx = reported supportingChild := by
  change List.lookup hash [(32, reported supportingParent), (33, reported supportingChild)] =
    some wtx at h
  rw [SortedMap.lookup_cons_eq_ite, SortedMap.lookup_cons_eq_ite] at h
  split_ifs at h with hparent hchild
  · exact .inl ⟨hparent, (Option.some.inj h).symm⟩
  · exact .inr ⟨hchild, (Option.some.inj h).symm⟩
  · cases h

theorem keyed_supportingWallet : Keyed params emptyDisk supportingWallet where
  wallet {hash wtx} h := by
    rcases find_supportingWallet h with ⟨rfl, rfl⟩ | ⟨rfl, rfl⟩ <;> rfl
  disk h := by cases h

theorem isKnown_supportingWallet {tx : Transaction} (h : IsKnown emptyDisk supportingWallet tx) :
    tx = supportingParent ∨ tx = supportingChild := by
  rcases h with ⟨hash, wtx, hfind, htx⟩ | ⟨hash, h⟩
  · rcases find_supportingWallet hfind with ⟨-, rfl⟩ | ⟨-, rfl⟩
    · rcases htx with rfl | ⟨prev, hprev, -⟩
      · exact .inl rfl
      · exact absurd hprev List.not_mem_nil
    · rcases htx with rfl | ⟨prev, hprev, -⟩
      · exact .inr rfl
      · exact absurd hprev List.not_mem_nil
  · cases h

/-- The lock times, by which transactions are known here, go down from a transaction to the ones that
it spends. -/
theorem acyclicSpending_supportingWallet {prevouts : List OutPoint}
    (h : ∀ prevout ∈ prevouts, prevout.hash = 32 ∨ prevout.hash = 33) :
    AcyclicSpending params (fun tx => tx = (reported (spendsBoth prevouts)).tx ∨
      (∃ prev ∈ (reported (spendsBoth prevouts)).vtxPrev, tx = prev.tx) ∨
        IsKnown emptyDisk supportingWallet tx) fun tx => tx.nLockTime.toNat := by
  have hcases : ∀ {tx}, (tx = (reported (spendsBoth prevouts)).tx ∨
      (∃ prev ∈ (reported (spendsBoth prevouts)).vtxPrev, tx = prev.tx) ∨
        IsKnown emptyDisk supportingWallet tx) →
      tx = spendsBoth prevouts ∨ tx = supportingParent ∨ tx = supportingChild := by
    rintro tx (rfl | ⟨prev, hprev, -⟩ | hknown)
    · exact .inl rfl
    · exact absurd hprev List.not_mem_nil
    · exact .inr (isKnown_supportingWallet hknown)
  have hhash : params.txHash (spendsBoth prevouts) = 34 := rfl
  constructor
  · intro tx tx' htx htx' heq
    rcases hcases htx with rfl | rfl | rfl <;> rcases hcases htx' with rfl | rfl | rfl
    all_goals first | rfl | exact absurd heq (by rw [hhash]; decide) | exact absurd heq (by decide)
  · intro tx txPrev htx htxPrev hspends
    have hboth : ∀ hash ∈ (spendsBoth prevouts).prevouts.map (·.hash), hash = 32 ∨ hash = 33 := by
      intro hash hmem
      obtain ⟨prevout, hprevout, rfl⟩ := List.mem_map.mp hmem
      obtain ⟨txin, htxin, rfl⟩ := List.mem_map.mp hprevout
      obtain ⟨prevout, hin, rfl⟩ := List.mem_map.mp htxin
      exact h prevout hin
    rcases hcases htx with rfl | rfl | rfl
    · rcases hcases htxPrev with rfl | rfl | rfl
      · exact absurd (hboth _ hspends) (by rw [hhash]; decide)
      · change 31 < 33
        decide
      · change 32 < 33
        decide
    · have hin : params.txHash txPrev = 5 := List.mem_singleton.mp hspends
      rcases hcases htxPrev with rfl | rfl | rfl
      · exact absurd hin (by rw [hhash]; decide)
      · exact absurd hin (by decide)
      · exact absurd hin (by decide)
    · have hin : params.txHash txPrev = 32 := List.mem_singleton.mp hspends
      rcases hcases htxPrev with rfl | rfl | rfl
      · exact absurd hin (by rw [hhash]; decide)
      · decide
      · exact absurd hin (by decide)

end Sample

open AccountWallet in
/-- Both queues end, and each supporting transaction is listed once; what is submitted is in the order
of the list. No transaction is listed before one that it spends exactly if what is spent is found
later. -/
theorem addSupportingTransactions_spec (P : Params) (c : Crypto) (v : SupportView)
    (w : AccountWallet) (wtx : AccountTx) (hkeyed : Keyed P v w) (rank : Transaction → ℕ)
    (hspend : AcyclicSpending P (fun tx => tx = wtx.tx ∨ (∃ prev ∈ wtx.vtxPrev, tx = prev.tx) ∨
      IsKnown v w tx) rank) :
    (∃ nFuel r, run (trustedRound P c v.toChainView w wtx.vtxPrev) nFuel [wtx.toWalletTx] =
      some r) ∧
    ∃ nFuel vtxPrev, addSupportingTransactions P v w nFuel wtx.toMerkleTx = some vtxPrev ∧
      (vtxPrev.map fun tx => P.txHash tx.tx).Nodup ∧
      (∀ u fCheckInputs pool,
        (submitPrev P u fCheckInputs pool vtxPrev).1.Sublist (vtxPrev.map MerkleTx.tx)) ∧
      (∃ found, (supportGraph P v w wtx.tx).Consistent found) ∧
      ∀ found, (supportGraph P v w wtx.tx).Consistent found →
        (∀ txPrev, (∃ tx ∈ vtxPrev, tx.tx = txPrev) ↔ IsSupporting P v w wtx.tx found txPrev) ∧
        ((vtxPrev.Pairwise fun tx tx' => ¬ Spends P tx.tx tx'.tx) ↔
          FindsParentsLater P v w wtx.tx found) := by
  have hknown : AcyclicSpending P (IsKnown v w) rank :=
    { injective := fun h h' => hspend.injective (.inr (.inr h)) (.inr (.inr h'))
      acyclic := fun h h' => hspend.acyclic (.inr (.inr h)) (.inr (.inr h')) }
  refine ⟨exists_run_trustedRound hspend (fun prev hprev => .inr (.inl ⟨prev, hprev, rfl⟩))
    (.inl rfl), ?_⟩
  obtain ⟨nFuel, out, hrun, hlist⟩ := exists_addSupportingTransactions hkeyed hknown wtx.toMerkleTx
  have hexists := Search.exists_consistent (supportSearch_spec hkeyed hknown wtx.tx)
    knowsPrev_empty hrun
  obtain ⟨hnodup, -⟩ := run_supportSearch hkeyed hknown hrun hexists
  refine ⟨nFuel, out.reverse, hlist, ?_, fun u fCheckInputs pool =>
    sublist_submitPrev P u fCheckInputs pool _, ⟨_, hexists⟩, fun found hfound => ?_⟩
  · rw [List.map_reverse]
    exact List.nodup_reverse.mpr hnodup
  · obtain ⟨-, hlisted, hpair⟩ := run_supportSearch hkeyed hknown hrun hfound
    refine ⟨fun txPrev => ?_, ?_⟩
    · simp only [List.mem_reverse]
      exact hlisted txPrev
    · rw [List.pairwise_reverse]
      exact hpair

open Sample AccountWallet in
theorem addSupportingTransactions_spec_ordered :
    ∃ nFuel vtxPrev, addSupportingTransactions params emptyDisk supportingWallet nFuel
      (reported (spendsBoth [⟨33, 0⟩, ⟨32, 1⟩])).toMerkleTx = some vtxPrev ∧
        (vtxPrev.map fun tx => params.txHash tx.tx).Nodup := by
  obtain ⟨-, nFuel, vtxPrev, hlist, hnodup, -⟩ := addSupportingTransactions_spec params anyCrypto
    emptyDisk supportingWallet (reported (spendsBoth [⟨33, 0⟩, ⟨32, 1⟩])) keyed_supportingWallet _
    (acyclicSpending_supportingWallet (by simp))
  exact ⟨nFuel, vtxPrev, hlist, hnodup⟩

open Sample AccountWallet in
/-- The parent is the first input, and is found before the child: turned round, the list has the child
first. -/
theorem addSupportingTransactions_parent_last :
    Keyed params emptyDisk supportingWallet ∧
      AcyclicSpending params (fun tx => tx = (reported (spendsBoth [⟨32, 1⟩, ⟨33, 0⟩])).tx ∨
        (∃ prev ∈ (reported (spendsBoth [⟨32, 1⟩, ⟨33, 0⟩])).vtxPrev, tx = prev.tx) ∨
          IsKnown emptyDisk supportingWallet tx) (fun tx => tx.nLockTime.toNat) ∧
      addSupportingTransactions params emptyDisk supportingWallet 9
        (reported (spendsBoth [⟨32, 1⟩, ⟨33, 0⟩])).toMerkleTx =
          some [.ofTransaction supportingChild, .ofTransaction supportingParent] ∧
      (submitPrev params emptyAccept false .empty
        [.ofTransaction supportingChild, .ofTransaction supportingParent]).1 =
          [supportingChild, supportingParent] ∧
      Spends params supportingChild supportingParent := by
  refine ⟨keyed_supportingWallet, acyclicSpending_supportingWallet (by simp), ?_, ?_, ?_⟩
  · decide
  · decide
  · exact List.mem_singleton_self _

end Beancash
