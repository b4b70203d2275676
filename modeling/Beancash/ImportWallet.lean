import Beancash.BlockTimes
import Beancash.CheckpointRun
import Beancash.KernelReads
import Beancash.Reaccept
import Beancash.Solver

namespace Beancash

/-- What an import reads and changes of a wallet. Labels are only for show. -/
structure KeyWallet where
  keystore : KeyStore
  fFileBacked : Bool
  /-- `nCreateTime` of each key -/
  mapKeyMetadata : KeyID → ℤ
  nTimeFirstKey : ℤ
  nMinimumInputValue : Int64
  mapWallet : AList fun _ : Uint256 => WalletTx

/-- What the transactions of the wallet depend on. -/
def KeyWallet.toWallet (c : Crypto) (kw : KeyWallet) : Wallet where
  mapWallet := kw.mapWallet
  isMine := kw.keystore.isMine c
  nMinimumInputValue := kw.nMinimumInputValue

/-- The dump file and what else an import depends on. -/
structure ImportIo where
  /-- What is in the file, if it can be opened. -/
  file : Option (List Char)
  /-- The key ID of what `CBitbeanSecret` reads as a private key. -/
  secretKeyID : List Char → Option KeyID
  decodeDumpTime : List Char → ℤ
  /-- Whether the key store takes a key: one that is locked does not. -/
  storeKey : KeyID → Bool
  writeKey : KeyID → Bool
  /-- What `WriteToDisk` answers in the scan, and in those of `ReacceptWalletTransactions`. -/
  fWritten : Block → Transaction → Bool
  fWrittenAgain : ℕ → Block → Transaction → Bool

/-- What `getline` reads one by one. -/
def ImportIo.lines (io : ImportIo) : List (List Char) := (io.file.getD []).splitOn '\n'

/-- `AddKey`, with what it returns. -/
def KeyWallet.addKey (io : ImportIo) (kw : KeyWallet) (keyid : KeyID) : Bool × KeyWallet :=
  if io.storeKey keyid then
    (!kw.fFileBacked || io.writeKey keyid,
      { kw with keystore := { kw.keystore with keys := insert keyid kw.keystore.keys } })
  else (false, kw)

/-- The key of a line and its birth time, if the line has one. -/
def dumpKey (io : ImportIo) (line : List Char) : Option (KeyID × ℤ) :=
  if line = [] ∨ line.head? = some '#' then none
  else
    match line.splitOn ' ' with
    | vstr0 :: vstr1 :: _ =>
      (io.secretKeyID vstr0).map fun keyid => (keyid, io.decodeDumpTime vstr1)
    | _ => none

structure ImportState where
  wallet : KeyWallet
  nTimeBegin : ℤ
  fGood : Bool

/-- The loop body for one line. -/
def importLine (io : ImportIo) (s : ImportState) (line : List Char) : ImportState :=
  match dumpKey io line with
  | none => s
  | some (keyid, nTime) =>
    if keyid ∈ s.wallet.keystore.keys then s
    else
      match s.wallet.addKey io keyid with
      | (false, wallet) => { s with wallet := wallet, fGood := false }
      | (true, wallet) =>
        { s with
          wallet := { wallet with
            mapKeyMetadata := Function.update wallet.mapKeyMetadata keyid nTime }
          nTimeBegin := min s.nTimeBegin nTime }

/-- The walk back to the block to scan from. -/
def rescanFrom (nTimeBegin : ℤ) : BlockPtr → BlockPtr
  | e :: d :: p =>
    if nTimeBegin - 7200 < e.blockTime then rescanFrom nTimeBegin (d :: p) else e :: d :: p
  | p => p

/-- The blocks from one on, along `pnext`. The best block is the last of them, so that there are
not more than it has below it. -/
def walkNext (pnext : Uint256 → BlockPtr) : ℕ → BlockPtr → List BlockIndex
  | fuel + 1, e :: _ => e :: walkNext pnext fuel (pnext e.phashBlock)
  | _, _ => []

def importWallet (P : Params) (c : Crypto) (io : ImportIo) (readBlock : BlockIndex → Block)
    (n : Node) (kw : KeyWallet) : Option (Bool × KeyWallet) :=
  if !kw.fFileBacked || io.file.isNone then some (false, kw)
  -- without a best block there is no time to begin with
  else if n.pindexBest = [] then none
  else do
    let s := io.lines.foldl (importLine io) ⟨kw, BlockPtr.blockTime n.pindexBest, true⟩
    let walk := walkNext n.pnext n.pindexBest.length
    let scan := scanForWalletTransactions P readBlock s.wallet.nTimeFirstKey false io.fWritten
      (walk (rescanFrom s.nTimeBegin n.pindexBest)) (s.wallet.toWallet c)
    let w ← reacceptWalletTransactions P readBlock s.wallet.nTimeFirstKey (readTxIndex n.txdb)
      io.fWrittenAgain (walk n.pindexGenesisBlock) scan.wallet
    pure (s.fGood, { s.wallet with mapWallet := w.mapWallet })

theorem importWallet_isSome (P : Params) (c : Crypto) (io : ImportIo)
    (readBlock : BlockIndex → Block) {n : Node} (hbest : n.pindexBest ≠ []) (kw : KeyWallet) :
    (importWallet P c io readBlock n kw).isSome = true := by
  unfold importWallet
  rw [if_neg hbest]
  split
  · rfl
  · simp only [Option.bind_eq_bind, Option.pure_def, Option.isSome_bind, Option.isSome_some,
      Option.any_true]
    exact reacceptWalletTransactions_isSome readBlock _ io.fWrittenAgain _ _

/-- An import of the lines adds this key to these ones, with this birth time. -/
def Imports (io : ImportIo) (keys : Finset KeyID) (lines : List (List Char)) (keyid : KeyID)
    (nTime : ℤ) : Prop :=
  keyid ∉ keys ∧ (lines.filterMap (dumpKey io)).lookup keyid = some nTime

section Lines

variable {io : ImportIo}

/-- What the lines make of the wallet when every key can be added. -/
structure Imported (io : ImportIo) (s : ImportState) (lines : List (List Char))
    (s' : ImportState) : Prop where
  fGood : s.fGood = true
  mapWallet : s'.wallet.mapWallet = s.wallet.mapWallet
  nTimeFirstKey : s'.wallet.nTimeFirstKey = s.wallet.nTimeFirstKey
  nMinimumInputValue : s'.wallet.nMinimumInputValue = s.wallet.nMinimumInputValue
  keys : s.wallet.keystore.keys ⊆ s'.wallet.keystore.keys
  nTimeBegin : s'.nTimeBegin ≤ s.nTimeBegin
  imports : ∀ keyid nTime, Imports io s.wallet.keystore.keys lines keyid nTime →
    keyid ∈ s'.wallet.keystore.keys ∧ s'.nTimeBegin ≤ nTime

theorem imported_foldl {lines : List (List Char)} {s : ImportState}
    (h : (lines.foldl (importLine io) s).fGood = true) :
    Imported io s lines (lines.foldl (importLine io) s) := by
  induction lines generalizing s with
  | nil => exact ⟨h, rfl, rfl, rfl, subset_rfl, le_rfl, fun _ _ himp => by cases himp.2⟩
  | cons line lines ih =>
    rw [List.foldl_cons] at h ⊢
    have hrest := ih h
    unfold importLine at hrest ⊢
    cases hline : dumpKey io line with
    | none =>
      simp only [hline] at hrest ⊢
      refine { hrest with imports := fun keyid nTime himp => hrest.imports keyid nTime ?_ }
      rwa [Imports, List.filterMap_cons_none hline] at himp
    | some key =>
      obtain ⟨keyid, nTime⟩ := key
      simp only [hline] at hrest ⊢
      -- the keys of the other lines are looked up behind this one
      have hother : ∀ {id t}, Imports io s.wallet.keystore.keys (line :: lines) id t →
          id ≠ keyid → (lines.filterMap (dumpKey io)).lookup id = some t := by
        intro id t himp hne
        have hlookup := himp.2
        rwa [List.filterMap_cons_some hline, List.lookup_cons, beq_eq_false_iff_ne.mpr hne]
          at hlookup
      by_cases hhave : keyid ∈ s.wallet.keystore.keys
      · rw [if_pos hhave] at hrest ⊢
        refine { hrest with imports := fun id t himp => hrest.imports id t ⟨himp.1, ?_⟩ }
        apply hother himp
        rintro rfl
        exact himp.1 hhave
      · rw [if_neg hhave] at hrest ⊢
        unfold KeyWallet.addKey at hrest ⊢
        by_cases hstore : io.storeKey keyid = true
        · rw [if_pos hstore] at hrest ⊢
          cases hwritten : !s.wallet.fFileBacked || io.writeKey keyid with
          | false =>
            rw [hwritten] at hrest
            cases hrest.fGood
          | true =>
            rw [hwritten] at hrest
            refine ⟨hrest.fGood, hrest.mapWallet, hrest.nTimeFirstKey, hrest.nMinimumInputValue,
              (Finset.subset_insert _ _).trans hrest.keys,
              hrest.nTimeBegin.trans (min_le_left _ _), fun id t himp => ?_⟩
            by_cases hid : id = keyid
            · have hlookup := himp.2
              rw [List.filterMap_cons_some hline, List.lookup_cons, hid, beq_self_eq_true]
                at hlookup
              obtain rfl : nTime = t := Option.some_injective _ hlookup
              exact ⟨hid ▸ hrest.keys (Finset.mem_insert_self _ _),
                hrest.nTimeBegin.trans (min_le_right _ _)⟩
            · apply hrest.imports id t
              refine ⟨?_, hother himp hid⟩
              rw [Finset.mem_insert]
              exact fun hmem => hmem.elim hid himp.1
        · rw [if_neg hstore] at hrest
          cases hrest.fGood

end Lines

theorem exists_rescanFrom (nTimeBegin : ℤ) {p : BlockPtr} (hp : p ≠ []) :
    ∃ k, ∃ hk : k < p.length, rescanFrom nTimeBegin p = p.drop k ∧
      (k + 1 = p.length ∨ p[k].blockTime ≤ nTimeBegin - 7200) := by
  induction p with
  | nil => exact absurd rfl hp
  | cons e p ih =>
    cases p with
    | nil => exact ⟨0, Nat.one_pos, rfl, Or.inl rfl⟩
    | cons d p =>
      unfold rescanFrom
      split
      · obtain ⟨k, hk, heq, hend⟩ := ih (List.cons_ne_nil d p)
        refine ⟨k + 1, Nat.succ_lt_succ hk, heq, ?_⟩
        exact hend.imp (fun h => congrArg (· + 1) h) id
      · rename_i hle
        exact ⟨0, Nat.succ_pos _, rfl, Or.inr (not_lt.mp hle)⟩

theorem mem_take_of_rescanFrom {nTimeBegin : ℤ} {p : BlockPtr} (htimes : TimesAccepted p) {k : ℕ}
    (hk : k < p.length) (hend : k + 1 = p.length ∨ p[k].blockTime ≤ nTimeBegin - 7200)
    {e : BlockIndex} (he : e ∈ p) (htime : nTimeBegin ≤ e.blockTime) : e ∈ p.take (k + 1) := by
  rw [← List.take_append_drop (k + 1) p, List.mem_append] at he
  refine he.resolve_right fun hbelow => ?_
  have hdrop := List.drop_eq_getElem_cons hk
  have hold := (hdrop ▸ htimes.of_suffix (List.drop_suffix k p)).blockTime_le_of_mem hbelow
  rcases hend with hend | hend
  · rw [hend, List.drop_length] at hbelow
    cases hbelow
  · omega

variable {P : Params} {files : Files} {tree : BlockTree P files}

theorem walkNext_mainNext {p : BlockPtr} (hp : p ∈ tree.entries) {fuel k : ℕ} (hk : k < p.length)
    (hfuel : k < fuel) : walkNext (mainNext p) fuel (p.drop k) = (p.take (k + 1)).reverse := by
  induction k generalizing fuel with
  | zero =>
    obtain ⟨fuel, rfl⟩ := Nat.exists_eq_succ_of_ne_zero (Nat.ne_of_gt hfuel)
    cases p with
    | nil => cases hk
    | cons e p =>
      rw [List.drop_zero, walkNext, mainNext_self hp]
      cases fuel <;> rfl
  | succ k ih =>
    obtain ⟨fuel, rfl⟩ := Nat.exists_eq_succ_of_ne_zero (Nat.ne_of_gt (Nat.zero_lt_of_lt hfuel))
    have hnext : mainNext p p[k + 1].phashBlock = p.drop k := by
      have hdrop := mainNext_drop hp hk
      rwa [List.drop_eq_getElem_cons hk, if_neg (Nat.succ_ne_zero k)] at hdrop
    rw [List.drop_eq_getElem_cons hk, walkNext, hnext, ih (by omega) (Nat.lt_of_succ_lt_succ hfuel),
      List.take_succ_eq_append_getElem hk, List.reverse_append]
    rfl

/-- A transaction pays to a key, in an output that the wallet does not ignore. -/
def Transaction.PaysTo (c : Crypto) (nMinimumInputValue : Int64) (keyid : KeyID)
    (tx : Transaction) : Prop :=
  ∃ txout ∈ tx.vout, extractDestination c txout.scriptPubKey = some (.keyID keyid) ∧
    nMinimumInputValue ≤ txout.nValue

/-- A transaction of the chain that pays to an imported key, in a block no older than the
earliest of the imported keys. -/
def Awaited (c : Crypto) (io : ImportIo) (readBlock : BlockIndex → Block) (p : BlockPtr)
    (kw : KeyWallet) (tx : Transaction) : Prop :=
  (∃ keyid nTime, Imports io kw.keystore.keys io.lines keyid nTime ∧
    tx.PaysTo c kw.nMinimumInputValue keyid) ∧
  ∃ e ∈ p, tx ∈ (readBlock e).vtx ∧
    ∃ keyid nTime, Imports io kw.keystore.keys io.lines keyid nTime ∧ nTime ≤ e.blockTime

theorem importWallet_eq_some {c : Crypto} {io : ImportIo} {readBlock : BlockIndex → Block}
    {n : Node} {kw kw' : KeyWallet}
    (h : importWallet P c io readBlock n kw = some (true, kw')) :
    ∃ s w, n.pindexBest ≠ [] ∧
      Imported io ⟨kw, BlockPtr.blockTime n.pindexBest, true⟩ io.lines s ∧
      reacceptWalletTransactions P readBlock s.wallet.nTimeFirstKey (readTxIndex n.txdb)
        io.fWrittenAgain (walkNext n.pnext n.pindexBest.length n.pindexGenesisBlock)
        (scanForWalletTransactions P readBlock s.wallet.nTimeFirstKey false io.fWritten
          (walkNext n.pnext n.pindexBest.length (rescanFrom s.nTimeBegin n.pindexBest))
          (s.wallet.toWallet c)).wallet = some w ∧
      kw' = { s.wallet with mapWallet := w.mapWallet } := by
  unfold importWallet at h
  split at h
  · cases h
  · split at h
    · cases h
    · rename_i hbest
      simp only [Option.bind_eq_bind, Option.bind_eq_some_iff, Option.pure_def,
        Option.some.injEq, Prod.mk.injEq] at h
      obtain ⟨w, hw, hgood, rfl⟩ := h
      exact ⟨_, w, hbest, imported_foldl hgood, hw, rfl⟩

theorem Imported.isMineTx {c : Crypto} {io : ImportIo} {s s' : ImportState}
    {lines : List (List Char)} (h : Imported io s lines s') {keyid : KeyID} {nTime : ℤ}
    (himp : Imports io s.wallet.keystore.keys lines keyid nTime) {tx : Transaction}
    (hpays : tx.PaysTo c s.wallet.nMinimumInputValue keyid) :
    (s'.wallet.toWallet c).isMineTx tx = true := by
  obtain ⟨txout, htxout, hdest, hvalue⟩ := hpays
  refine List.any_eq_true.mpr ⟨txout, htxout, Bool.and_eq_true_iff.mpr ⟨?_, ?_⟩⟩
  · exact KeyStore.isMine_of_extractDestination hdest (h.imports keyid nTime himp).1
  · refine decide_eq_true (?_ : s'.wallet.nMinimumInputValue ≤ txout.nValue)
    rwa [h.nMinimumInputValue]

/-- An import that succeeds finds what pays to the imported keys exactly if none of it is only
in blocks that are older than the wallet, but for what the wallet had already. -/
theorem importWallet_rescan_iff {c : Crypto} {io : ImportIo} {readBlock : BlockIndex → Block}
    {n : Node} {kw kw' : KeyWallet} (hn : Consistent tree n)
    (htimes : TimesAccepted n.pindexBest)
    (hinj : {tx | ∃ e ∈ n.pindexBest, tx ∈ (readBlock e).vtx}.InjOn P.txHash)
    (h : importWallet P c io readBlock n kw = some (true, kw')) :
    (∀ tx, Awaited c io readBlock n.pindexBest kw tx →
      (kw'.toWallet c).knows P tx = true) ↔
    ∀ tx, Awaited c io readBlock n.pindexBest kw tx → (kw.toWallet c).knows P tx = true ∨
      ∃ e ∈ n.pindexBest, tx ∈ (readBlock e).vtx ∧
        e.beforeBirthday kw.nTimeFirstKey = false := by
  obtain ⟨s, w, hbest, himported, hreaccept, rfl⟩ := importWallet_eq_some h
  have hmem := hn.best.resolve_left hbest
  have hpos := List.length_pos_of_ne_nil hbest
  obtain ⟨k, hk, hfrom, hend⟩ := exists_rescanFrom s.nTimeBegin hbest
  rw [hn.attached.pnext, hn.pindexGenesisBlock, hfrom, walkNext_mainNext hmem hk hk,
    walkNext_mainNext hmem (by omega) (by omega), Nat.sub_add_cancel hpos, List.take_length,
    scanForWalletTransactions_eq, himported.nTimeFirstKey] at hreaccept
  obtain ⟨hgrows, hfound⟩ := reacceptLoop_grows hreaccept
  have hstart : (s.wallet.toWallet c).txOf = (kw.toWallet c).txOf := by
    unfold Wallet.txOf KeyWallet.toWallet
    rw [himported.mapWallet]
  refine forall₂_congr fun tx hawaited => ?_
  obtain ⟨⟨keyid, nTime, himp, hpays⟩, e, he, hmemtx, keyid', nTime', himp', htime⟩ := hawaited
  constructor
  · intro hknows
    obtain ⟨tx', htx'⟩ := Option.isSome_iff_exists.mp hknows
    have hscanned : (kw.toWallet c).txOf (P.txHash tx) = some tx' ∨
        ∃ e' ∈ n.pindexBest, e'.beforeBirthday kw.nTimeFirstKey = false ∧
          tx' ∈ (readBlock e').vtx ∧ P.txHash tx = P.txHash tx' := by
      rcases hfound _ _ htx' with hin | ⟨hhash, b, hscan⟩
      · rcases txOf_foldl_scanTx hin with hin | ⟨hhash, b, hscan⟩
        · exact Or.inl (hstart ▸ hin)
        · obtain ⟨e', he', hbirth, _, hvtx⟩ := mem_scannedTxs.mp hscan
          exact Or.inr ⟨e', List.mem_of_mem_take (List.mem_reverse.mp he'), hbirth, hvtx, hhash⟩
      · obtain ⟨e', he', hbirth, _, hvtx⟩ := mem_scannedTxs.mp hscan
        exact Or.inr ⟨e', List.mem_reverse.mp he', hbirth, hvtx, hhash⟩
    rcases hscanned with hin | ⟨e', he', hbirth, hvtx, hhash⟩
    · exact Or.inl (Option.isSome_iff_exists.mpr ⟨tx', hin⟩)
    · obtain rfl := hinj ⟨e, he, hmemtx⟩ ⟨e', he', hvtx⟩ hhash
      exact Or.inr ⟨e', he', hvtx, hbirth⟩
  · have hbegin := (himported.imports keyid' nTime' himp').2
    intro hcond
    apply hgrows.knows
    rcases hcond with hknows | ⟨e', he', hvtx, hbirth⟩
    · apply (grows_foldl_scanTx _ _).knows
      unfold Wallet.knows at hknows ⊢
      rwa [hstart]
    · -- where the block of `e'` is below the start, the one of `e` is old as well
      have htake : e' ∈ n.pindexBest.take (k + 1) ∨ e.beforeBirthday kw.nTimeFirstKey = false := by
        rcases lt_or_ge e'.blockTime s.nTimeBegin with hold | hyoung
        · right
          rw [BlockIndex.beforeBirthday, Bool.and_eq_false_iff, decide_eq_false_iff_not,
            decide_eq_false_iff_not] at hbirth ⊢
          exact hbirth.imp id fun hlt => by omega
        · exact Or.inl (mem_take_of_rescanFrom htimes hk hend he' hyoung)
      have hscan : ∃ b, (b, tx) ∈ scannedTxs readBlock kw.nTimeFirstKey
          (n.pindexBest.take (k + 1)).reverse := by
        rcases htake with htake | hbirth'
        · exact ⟨readBlock e', mem_scannedTxs.mpr ⟨e', List.mem_reverse.mpr htake, hbirth, rfl, hvtx⟩⟩
        · have hin := mem_take_of_rescanFrom htimes hk hend he (hbegin.trans htime)
          exact ⟨readBlock e, mem_scannedTxs.mpr ⟨e, List.mem_reverse.mpr hin, hbirth', rfl, hmemtx⟩⟩
      obtain ⟨b, hb⟩ := hscan
      exact knows_foldl_scanTx_of_isMineTx hb (himported.isMineTx himp hpays)

namespace Sample

def anyCrypto : Crypto :=
  ⟨fun _ => .replicate 20 0, fun _ => .replicate 32 0, fun _ => .replicate 20 0,
    fun _ _ _ => false⟩

/-- A key, and a block that pays to it after a minute. -/
def dumpedKeyID : KeyID := List.replicate 20 7

def payment : Transaction :=
  beanbase 1 1 [⟨1000, [0x76, 0xa9, 0x14] ++ dumpedKeyID ++ [0x88, 0xac]⟩]

def paying : Block := timed 1 (block 1 1 [payment])

def payingFiles : Files := Sample.files [genesis, paying] (by decide +kernel)

def payingTree : BlockTree params payingFiles :=
  BlockTree.ofListAt 60 [[entry genesis], [entry paying, entry genesis]] (by decide +kernel)

def payingIo : Io where
  txnBegin := true
  txnCommit := true
  block hash := { blockIo with
    readBlock := [genesis, paying].find? fun b => decide (b.hash params = hash)
    readTx := payingFiles.txAt
    adjustedTime := 60 }

def payingNode : Node :=
  ((setBestChain params payingIo paying [entry paying, entry genesis]).run node).2

def readPaying (e : BlockIndex) : Block :=
  if e.phashBlock = paying.hash params then paying else genesis

/-- A dump of the one key, which was made at time 0. -/
def dumpIo : ImportIo where
  file := some ['#', '\n', 'K', ' ', '0', '\n']
  secretKeyID s := if s = ['K'] then some dumpedKeyID else none
  decodeDumpTime _ := 0
  storeKey _ := true
  writeKey _ := true
  fWritten _ _ := true
  fWrittenAgain _ _ _ := true

/-- A wallet of which the one key was made at a time. -/
def walletBornAt (nTimeFirstKey : ℤ) : KeyWallet where
  keystore := ⟨{List.replicate 20 9}, []⟩
  fFileBacked := true
  mapKeyMetadata _ := nTimeFirstKey
  nTimeFirstKey := nTimeFirstKey
  nMinimumInputValue := 0
  mapWallet := ∅

theorem consistent_payingNode : Consistent payingTree payingNode := by
  have hnode : Consistent payingTree node :=
    ⟨Or.inr (BlockTree.mem_ofListAt.mpr (by decide)), rfl, rfl,
      ⟨⟨trivial, rfl⟩, rfl, rfl, rfl⟩⟩
  have hrun : ((setBestChain params payingIo paying [entry paying, entry genesis]).run node).1 =
      some () := by decide
  exact hnode.of_setBestChain (BlockTree.bringsNewTxids_of_injOn (injOn_txs (by decide)))
    (Io.readsFrom_ofListAt (by decide) fun _ => rfl)
    (BlockTree.mem_ofListAt.mpr (by decide)) rfl (Prod.ext hrun rfl) (by decide)

theorem pindexBest_payingNode : payingNode.pindexBest = [entry paying, entry genesis] := by
  decide

theorem timesAccepted_payingNode : TimesAccepted payingNode.pindexBest := by
  rw [pindexBest_payingNode]
  exact ⟨by decide, trivial⟩

theorem imports_dumpIo (nTimeFirstKey : ℤ) :
    Imports dumpIo (walletBornAt nTimeFirstKey).keystore.keys dumpIo.lines dumpedKeyID 0 :=
  ⟨fun h => absurd (Finset.mem_singleton.mp h) (by decide), by decide⟩

theorem awaited_payment (nTimeFirstKey : ℤ) :
    Awaited anyCrypto dumpIo readPaying payingNode.pindexBest
      (walletBornAt nTimeFirstKey) payment := by
  rw [pindexBest_payingNode]
  refine ⟨⟨dumpedKeyID, 0, imports_dumpIo nTimeFirstKey, _, List.mem_singleton_self _,
    by decide, (by decide : (0 : Int64) ≤ 1000)⟩, entry paying, List.mem_cons_self, by decide,
    dumpedKeyID, 0, imports_dumpIo nTimeFirstKey, by decide⟩

theorem injOn_readPaying :
    {tx | ∃ e ∈ payingNode.pindexBest, tx ∈ (readPaying e).vtx}.InjOn params.txHash := by
  have hmem : ∀ tx, (∃ e ∈ payingNode.pindexBest, tx ∈ (readPaying e).vtx) →
      tx ∈ [payment, beanbase 0 0 [out 0]] := by
    rintro tx ⟨e, he, htx⟩
    rw [pindexBest_payingNode] at he
    have hall : ∀ e ∈ [entry paying, entry genesis], ∀ tx ∈ (readPaying e).vtx,
        tx ∈ [payment, beanbase 0 0 [out 0]] := by decide
    exact hall e he tx htx
  have hinj : ∀ tx ∈ [payment, beanbase 0 0 [out 0]], ∀ tx' ∈ [payment, beanbase 0 0 [out 0]],
      params.txHash tx = params.txHash tx' → tx = tx' := by decide
  exact fun tx htx tx' htx' => hinj tx (hmem tx htx) tx' (hmem tx' htx')

theorem importWallet_payment (nTimeFirstKey : ℤ) (found : Bool)
    (h : (importWallet params anyCrypto dumpIo readPaying payingNode
      (walletBornAt nTimeFirstKey)).any (fun r => r.1 &&
        (r.2.toWallet anyCrypto).knows params payment == found) = true) :
    ∃ kw', importWallet params anyCrypto dumpIo readPaying payingNode
        (walletBornAt nTimeFirstKey) = some (true, kw') ∧
      (kw'.toWallet anyCrypto).knows params payment = found := by
  cases hr : importWallet params anyCrypto dumpIo readPaying payingNode
      (walletBornAt nTimeFirstKey) with
  | none =>
    rw [hr] at h
    cases h
  | some r =>
    rw [hr, Option.any_some, Bool.and_eq_true, beq_iff_eq] at h
    exact ⟨r.2, congrArg some (Prod.ext h.1 rfl), h.2⟩

end Sample

open Sample

/-- A wallet without a birthday finds the payment. -/
theorem importWallet_rescan_payment :
    ∃ kw', importWallet params anyCrypto dumpIo readPaying payingNode (walletBornAt 0) =
        some (true, kw') ∧
      ((∀ tx, Awaited anyCrypto dumpIo readPaying payingNode.pindexBest (walletBornAt 0) tx →
        (kw'.toWallet anyCrypto).knows params tx = true) ↔
      ∀ tx, Awaited anyCrypto dumpIo readPaying payingNode.pindexBest (walletBornAt 0) tx →
        ((walletBornAt 0).toWallet anyCrypto).knows params tx = true ∨
        ∃ e ∈ payingNode.pindexBest, tx ∈ (readPaying e).vtx ∧
          e.beforeBirthday (walletBornAt 0).nTimeFirstKey = false) := by
  obtain ⟨kw', hkw', _⟩ := importWallet_payment 0 true (by decide)
  exact ⟨kw', hkw', importWallet_rescan_iff consistent_payingNode timesAccepted_payingNode
    injOn_readPaying hkw'⟩

/-- A wallet of which the first key is younger does not, although the import succeeds. -/
theorem importWallet_misses_payment :
    Consistent payingTree payingNode ∧ TimesAccepted payingNode.pindexBest ∧
    ∃ kw', importWallet params anyCrypto dumpIo readPaying payingNode (walletBornAt 1000000) =
        some (true, kw') ∧
      ¬∀ tx, Awaited anyCrypto dumpIo readPaying payingNode.pindexBest (walletBornAt 1000000) tx →
        (kw'.toWallet anyCrypto).knows params tx = true := by
  refine ⟨consistent_payingNode, timesAccepted_payingNode, ?_⟩
  obtain ⟨kw', hkw', hmissed⟩ := importWallet_payment 1000000 false (by decide)
  refine ⟨kw', hkw', fun hall => ?_⟩
  have hknows := hall payment (awaited_payment 1000000)
  rw [hmissed] at hknows
  cases hknows

end Beancash
