import Beancash.ConnectBlock
import Beancash.WalletScan

namespace Beancash

/-- The outputs from `i` on: one that is spent in the index and the wallet's own gets marked. -/
def reacceptOutputs (isMine : Script → Bool) : ℕ → List DiskTxPos → List TxOut →
    WalletTx × List DiskTxPos → WalletTx × List DiskTxPos
  | i, pos :: vSpent, txout :: vout, s =>
    reacceptOutputs isMine (i + 1) vSpent vout
      (if s.1.isSpent i then s
      else if pos.isSome && isMine txout.scriptPubKey then (s.1.mark i true, s.2 ++ [pos])
      else s)
  | _, _, _, s => s

namespace WalletTx

/-- The transactions that a pass leaves out. -/
def skipsReaccept (wtx : WalletTx) : Bool :=
  (wtx.tx.isBeanBase && wtx.isSpent 0) || (wtx.tx.isBeanStake && wtx.isSpent 1)

/-- A pass for one transaction, with what it adds to `vMissingTx`. That one which is in no block
is accepted again does not matter to the wallet. -/
def reaccept (P : Params) (isMine : Script → Bool) (txindex : Ledger.Index Uint256 TxPos)
    (wtx : WalletTx) : WalletTx × List DiskTxPos :=
  if wtx.skipsReaccept then (wtx, [])
  else
    match txindex (P.txHash wtx.tx) with
    | some record =>
      if record.spent.length ≠ wtx.tx.vout.length then (wtx, [])
      else reacceptOutputs isMine 0 record.spent wtx.tx.vout (wtx, [])
    | none => (wtx, [])

end WalletTx

/-- The wallet and `vMissingTx`. -/
structure ReacceptPass where
  wallet : Wallet
  vMissingTx : List DiskTxPos

/-- The pass for one entry of `mapWallet`. -/
def reacceptEntry (P : Params) (txindex : Ledger.Index Uint256 TxPos) (s : ReacceptPass)
    (hash : Uint256) : ReacceptPass :=
  match s.wallet.mapWallet.lookup hash with
  | some wtx =>
    { wallet := s.wallet.updateTx hash fun wtx => (wtx.reaccept P s.wallet.isMine txindex).1
      vMissingTx := s.vMissingTx ++ (wtx.reaccept P s.wallet.isMine txindex).2 }
  | none => s

def reacceptPass (P : Params) (txindex : Ledger.Index Uint256 TxPos) (w : Wallet) : ReacceptPass :=
  w.mapWallet.keys.foldl (reacceptEntry P txindex) ⟨w, []⟩

/-- The loop; `fWritten` is what `WriteToDisk` answers in each of its scans. -/
def reacceptLoop (P : Params) (txindex : Ledger.Index Uint256 TxPos)
    (fWritten : ℕ → Block → Transaction → Bool) (xs : List (Block × Transaction)) :
    ℕ → ℕ → Wallet → Option Wallet
  | 0, _, _ => none
  | fuel + 1, round, w =>
    let pass := reacceptPass P txindex w
    if pass.vMissingTx = [] then some pass.wallet
    else
      let scan := xs.foldl (scanTx P false (fWritten round)) ⟨0, pass.wallet⟩
      if scan.ret = 0 then some scan.wallet
      else reacceptLoop P txindex fWritten xs fuel (round + 1) scan.wallet

/-- `ReacceptWalletTransactions`; `blocks` are those from `pindexGenesisBlock` on. -/
def reacceptWalletTransactions (P : Params) (readBlock : BlockIndex → Block) (nTimeFirstKey : ℤ)
    (txindex : Ledger.Index Uint256 TxPos) (fWritten : ℕ → Block → Transaction → Bool)
    (blocks : List BlockIndex) (w : Wallet) : Option Wallet :=
  let xs := scannedTxs readBlock nTimeFirstKey blocks
  reacceptLoop P txindex fWritten xs (xs.length + 1) 0 w

/-- An output is spent in the index and pays to the wallet. -/
def ownSpentAt (isMine : Script → Bool) (vSpent : List DiskTxPos) (vout : List TxOut) (i : ℕ) :
    Bool :=
  (vSpent[i]?).any Option.isSome && (vout[i]?).any fun txout => isMine txout.scriptPubKey

/-- The same of a transaction that the index has with as many outputs. -/
def Transaction.OwnSpent (P : Params) (isMine : Script → Bool)
    (txindex : Ledger.Index Uint256 TxPos) (tx : Transaction) (i : ℕ) : Prop :=
  ∃ record, txindex (P.txHash tx) = some record ∧ record.spent.length = tx.vout.length ∧
    ownSpentAt isMine record.spent tx.vout i = true

/-- What becomes of a transaction of the wallet and of `vMissingTx` when those of its outputs
that satisfy `owed` get marked. -/
structure OwedMarked (owed : ℕ → Prop) (s s' : WalletTx × List DiskTxPos) : Prop where
  tx : s'.1.tx = s.1.tx
  fFromMe : s'.1.fFromMe = s.1.fFromMe
  place : s'.1.place = s.1.place
  isSpent : ∀ j < s.1.tx.vout.length,
    (s'.1.isSpent j = true ↔ s.1.isSpent j = true ∨ owed j)
  missing : s'.2 = [] ↔ s.2 = [] ∧ ∀ j, owed j → s.1.isSpent j = true

namespace OwedMarked

variable {owed owed' : ℕ → Prop} {s s' s'' : WalletTx × List DiskTxPos}

theorem none (s : WalletTx × List DiskTxPos) : OwedMarked (fun _ => False) s s :=
  ⟨rfl, rfl, rfl, fun _ _ => by rw [or_false], by simp⟩

theorem congr (h : OwedMarked owed s s') (howed : ∀ j, owed j ↔ owed' j) :
    OwedMarked owed' s s' := by
  obtain rfl : owed = owed' := funext fun j => propext (howed j)
  exact h

theorem trans (h : OwedMarked owed s s') (h' : OwedMarked owed' s' s'')
    (hlt : ∀ j, owed' j → j < s.1.tx.vout.length) (hdisj : ∀ j, owed' j → ¬owed j) :
    OwedMarked (fun j => owed j ∨ owed' j) s s'' where
  tx := h'.tx.trans h.tx
  fFromMe := h'.fFromMe.trans h.fFromMe
  place := h'.place.trans h.place
  isSpent j hj := by
    rw [h'.isSpent j (h.tx ▸ hj), h.isSpent j hj, or_assoc]
  missing := by
    rw [h'.missing, h.missing, and_assoc]
    refine and_congr_right fun _ => ⟨fun hall j hj => ?_, fun hall => ⟨?_, fun j hj => ?_⟩⟩
    · rcases hj with hj | hj
      · exact hall.1 j hj
      · exact ((h.isSpent j (hlt j hj)).mp (hall.2 j hj)).resolve_right (hdisj j hj)
    · exact fun j hj => hall j (Or.inl hj)
    · exact (h.isSpent j (hlt j hj)).mpr (Or.inl (hall j (Or.inr hj)))

end OwedMarked

section Pass

variable {P : Params} {isMine : Script → Bool} {txindex : Ledger.Index Uint256 TxPos}

theorem owedMarked_one (s : WalletTx × List DiskTxPos) (i : ℕ) (pos : DiskTxPos) (c : Bool) :
    OwedMarked (fun j => j = i ∧ c = true) s
      (if s.1.isSpent i then s else if c then (s.1.mark i true, s.2 ++ [pos]) else s) := by
  split
  · rename_i hs
    refine ⟨rfl, rfl, rfl, fun j _ => ?_, ?_⟩
    · exact ⟨Or.inl, fun h => h.elim id fun hj => hj.1 ▸ hs⟩
    · exact ⟨fun h => ⟨h, fun j hj => hj.1 ▸ hs⟩, And.left⟩
  · rename_i hs
    split
    · rename_i hc
      refine ⟨rfl, rfl, rfl, fun j hj => ?_, ?_⟩
      · dsimp only
        rw [s.1.isSpent_mark i true hj]
        by_cases hji : j = i
        · simp [hji, hc]
        · simp [hji]
      · simp [hs, hc]
    · rename_i hc
      exact (OwedMarked.none s).congr fun j => by simp [hc]

theorem owedMarked_reacceptOutputs (i : ℕ) (vSpent : List DiskTxPos) (vout : List TxOut)
    (s : WalletTx × List DiskTxPos) (hlen : i + vSpent.length ≤ s.1.tx.vout.length) :
    OwedMarked (fun j => i ≤ j ∧ ownSpentAt isMine vSpent vout (j - i) = true) s
      (reacceptOutputs isMine i vSpent vout s) := by
  induction vSpent generalizing i vout s with
  | nil => exact (OwedMarked.none s).congr fun j => by simp [ownSpentAt]
  | cons pos vSpent ih =>
    cases vout with
    | nil => exact (OwedMarked.none s).congr fun j => by simp [ownSpentAt]
    | cons txout vout =>
      have hone := owedMarked_one s i pos (pos.isSome && isMine txout.scriptPubKey)
      rw [List.length_cons] at hlen
      have hrest := ih (i + 1) vout _ (by rw [hone.tx]; omega)
      refine (hone.trans hrest (fun j hj => ?_) fun j hj hij => ?_).congr fun j => ?_
      · obtain ⟨hij, hj⟩ := hj
        have hlt : j - (i + 1) < vSpent.length := by
          by_contra hge
          rw [ownSpentAt, List.getElem?_eq_none (Nat.not_lt.mp hge)] at hj
          cases hj
        omega
      · omega
      · rcases Nat.lt_trichotomy j i with hji | rfl | hij
        · have hne : j ≠ i := by omega
          have hlt : ¬i + 1 ≤ j := by omega
          simp [hne, hlt, Nat.not_le.mpr hji]
        · simp [ownSpentAt]
        · have hne : j ≠ i := by omega
          have hj : j - i = j - (i + 1) + 1 := by omega
          simp [hne, hij.le, Nat.succ_le_of_lt hij, hj, ownSpentAt]

theorem owedMarked_reaccept (wtx : WalletTx) :
    OwedMarked (fun j => wtx.skipsReaccept = false ∧ wtx.tx.OwnSpent P isMine txindex j) (wtx, [])
      (wtx.reaccept P isMine txindex) := by
  unfold WalletTx.reaccept
  split
  · rename_i hskips
    exact (OwedMarked.none _).congr fun j => by simp [hskips]
  · rename_i hskips
    split
    · rename_i record hrecord
      split
      · rename_i hlen
        refine (OwedMarked.none _).congr fun j => ⟨False.elim, ?_⟩
        rintro ⟨_, record', hrecord', hlen', _⟩
        rw [hrecord] at hrecord'
        exact hlen ((Option.some_injective _ hrecord') ▸ hlen')
      · rename_i hlen
        rw [not_not] at hlen
        refine (owedMarked_reacceptOutputs 0 record.spent wtx.tx.vout (wtx, [])
          (by rw [Nat.zero_add, hlen])).congr fun j => ?_
        unfold Transaction.OwnSpent
        simp [hskips, hrecord, hlen]
    · rename_i hrecord
      refine (OwedMarked.none _).congr fun j => ⟨False.elim, ?_⟩
      rintro ⟨_, record, hrecord', _⟩
      rw [hrecord] at hrecord'
      cases hrecord'

theorem reacceptEntry_eq (s : ReacceptPass) (hash : Uint256) :
    reacceptEntry P txindex s hash =
      { wallet := s.wallet.updateTx hash fun wtx => (wtx.reaccept P s.wallet.isMine txindex).1
        vMissingTx := s.vMissingTx ++ (s.wallet.mapWallet.lookup hash).elim [] fun wtx =>
          (wtx.reaccept P s.wallet.isMine txindex).2 } := by
  unfold reacceptEntry Wallet.updateTx
  cases s.wallet.mapWallet.lookup hash with
  | some wtx => rfl
  | none => rw [Option.elim_none, List.append_nil]

theorem foldl_reacceptEntry {hashes : List Uint256} (hnodup : hashes.Nodup) (s : ReacceptPass) :
    Wallet.Frame s.wallet (hashes.foldl (reacceptEntry P txindex) s).wallet ∧
    (hashes.foldl (reacceptEntry P txindex) s).wallet.placeOf = s.wallet.placeOf ∧
    (∀ hash, (hashes.foldl (reacceptEntry P txindex) s).wallet.mapWallet.lookup hash =
      if hash ∈ hashes then (s.wallet.mapWallet.lookup hash).map fun wtx =>
        (wtx.reaccept P s.wallet.isMine txindex).1
      else s.wallet.mapWallet.lookup hash) ∧
    ((hashes.foldl (reacceptEntry P txindex) s).vMissingTx = [] ↔ s.vMissingTx = [] ∧
      ∀ hash ∈ hashes, ∀ wtx ∈ s.wallet.mapWallet.lookup hash,
        (wtx.reaccept P s.wallet.isMine txindex).2 = []) := by
  induction hashes generalizing s with
  | nil => exact ⟨.rfl, rfl, by simp, by simp⟩
  | cons hash hashes ih =>
    obtain ⟨hnot, hnodup⟩ := List.nodup_cons.mp hnodup
    rw [List.foldl_cons, reacceptEntry_eq]
    obtain ⟨hframe, hplace, hlookup, hmissing⟩ := ih hnodup _
    have hentry : Wallet.Frame s.wallet (s.wallet.updateTx hash fun wtx =>
        (wtx.reaccept P s.wallet.isMine txindex).1) :=
      Wallet.frame_updateTx _ _ (fun wtx => (owedMarked_reaccept wtx).tx)
        fun wtx => (owedMarked_reaccept wtx).fFromMe
    have hentryPlace := funext (Wallet.map_lookup_updateTx s.wallet hash WalletTx.place
      fun wtx => (@owedMarked_reaccept P s.wallet.isMine txindex wtx).place)
    refine ⟨hentry.trans hframe, hplace.trans hentryPlace, fun h => ?_, ?_⟩
    · rw [hlookup, Wallet.lookup_updateTx, hentry.isMine]
      by_cases hh : h = hash
      · subst hh
        simp [hnot]
      · simp [hh]
    · rw [hmissing, List.append_eq_nil_iff, and_assoc]
      refine and_congr_right fun _ => ?_
      rw [List.forall_mem_cons, hentry.isMine]
      refine and_congr ?_ ?_
      · cases s.wallet.mapWallet.lookup hash <;> simp
      · refine forall₂_congr fun h hmem => ?_
        have hne : h ≠ hash := by
          rintro rfl
          exact hnot hmem
        rw [Wallet.lookup_updateTx, if_neg hne]

end Pass

namespace Wallet

/-- The wallet's copy of a transaction is left out of a pass. -/
def skipsReaccept (w : Wallet) (hash : Uint256) : Bool :=
  (w.mapWallet.lookup hash).any WalletTx.skipsReaccept

/-- An own output of a transaction that the wallet has is spent in the index. -/
def OwnSpentAt (P : Params) (txindex : Ledger.Index Uint256 TxPos) (w : Wallet) (hash : Uint256)
    (i : ℕ) : Prop :=
  ∃ tx, w.txOf hash = some tx ∧ tx.OwnSpent P w.isMine txindex i

theorem OwnSpentAt.hasOutput {P : Params} {txindex : Ledger.Index Uint256 TxPos} {w : Wallet}
    {hash : Uint256} {i : ℕ} (h : w.OwnSpentAt P txindex hash i) : w.HasOutput hash i := by
  obtain ⟨tx, htx, record, _, hlen, hspent⟩ := h
  refine ⟨tx, htx, ?_⟩
  by_contra hge
  rw [← hlen] at hge
  rw [ownSpentAt, List.getElem?_eq_none (Nat.not_lt.mp hge)] at hspent
  cases hspent

theorem Frame.ownSpentAt {P : Params} {txindex : Ledger.Index Uint256 TxPos} {w w' : Wallet}
    (h : Frame w w') (hash : Uint256) (i : ℕ) :
    w'.OwnSpentAt P txindex hash i ↔ w.OwnSpentAt P txindex hash i := by
  unfold OwnSpentAt
  rw [h.txOf, h.isMine]

/-- What a pass makes of a wallet, and whether it found anything to mark. -/
structure Passed (P : Params) (txindex : Ledger.Index Uint256 TxPos) (w : Wallet)
    (pass : ReacceptPass) : Prop where
  frame : Frame w pass.wallet
  placeOf : pass.wallet.placeOf = w.placeOf
  isSpentAt : ∀ hash i, w.HasOutput hash i → (pass.wallet.isSpentAt hash i = true ↔
    w.isSpentAt hash i = true ∨ w.skipsReaccept hash = false ∧ w.OwnSpentAt P txindex hash i)
  missing : pass.vMissingTx = [] ↔ ∀ hash i, w.OwnSpentAt P txindex hash i →
    w.skipsReaccept hash = false → w.isSpentAt hash i = true

theorem passed_reacceptPass (P : Params) (txindex : Ledger.Index Uint256 TxPos) (w : Wallet) :
    Passed P txindex w (reacceptPass P txindex w) := by
  obtain ⟨hframe, hplace, hlookup, hmissing⟩ :=
    @foldl_reacceptEntry P txindex _ w.mapWallet.keys_nodup ⟨w, []⟩
  have hmem : ∀ hash wtx, w.mapWallet.lookup hash = some wtx → hash ∈ w.mapWallet.keys :=
    fun hash wtx hl => AList.mem_keys.mpr (AList.lookup_isSome.mp (by rw [hl]; rfl))
  refine ⟨hframe, hplace, fun hash i ho => ?_, ?_⟩
  · obtain ⟨tx, htx, hi⟩ := ho
    obtain ⟨wtx, hl, rfl⟩ := Option.map_eq_some_iff.mp htx
    unfold isSpentAt skipsReaccept OwnSpentAt
    rw [reacceptPass, hlookup, if_pos (hmem hash wtx hl), htx, hl]
    simp only [Option.map_some, Option.any_some, Option.some.injEq, exists_eq_left']
    exact (owedMarked_reaccept wtx).isSpent i hi
  · rw [reacceptPass, hmissing]
    constructor
    · rintro ⟨_, hall⟩ hash i ⟨tx, htx, hspent⟩ hskips
      obtain ⟨wtx, hl, rfl⟩ := Option.map_eq_some_iff.mp htx
      unfold isSpentAt
      unfold skipsReaccept at hskips
      rw [hl] at hskips ⊢
      exact ((owedMarked_reaccept wtx).missing.mp (hall hash (hmem hash wtx hl) wtx hl)).2 i
        ⟨hskips, hspent⟩
    · intro hall
      refine ⟨rfl, fun hash _ wtx hl => (owedMarked_reaccept wtx).missing.mpr ⟨rfl, fun i hi => ?_⟩⟩
      have hspent := hall hash i ⟨wtx.tx, by rw [txOf, hl]; rfl, hi.2⟩
        (by rw [skipsReaccept, hl]; exact hi.1)
      rw [isSpentAt, hl] at hspent
      exact hspent

end Wallet

section Loop

variable {P : Params} {txindex : Ledger.Index Uint256 TxPos}

/-- The transactions to be scanned that the wallet does not have. -/
def unknownTxs (P : Params) (xs : List (Block × Transaction)) (w : Wallet) :
    List (Block × Transaction) :=
  xs.filter fun x => !w.knows P x.2

theorem exists_added_of_ret {fWritten : Block → Transaction → Bool}
    {xs : List (Block × Transaction)} {s : WalletScan}
    (h : (xs.foldl (scanTx P false fWritten) s).ret ≠ s.ret) :
    ∃ x ∈ xs, s.wallet.knows P x.2 = false ∧
      (xs.foldl (scanTx P false fWritten) s).wallet.knows P x.2 = true := by
  induction xs generalizing s with
  | nil => exact absurd rfl h
  | cons x xs ih =>
    rw [List.foldl_cons] at h ⊢
    by_cases hadds : s.wallet.Adds P x.2
    · refine ⟨x, List.mem_cons_self, hadds.1, (grows_foldl_scanTx xs _).knows ?_⟩
      have hin := (@inserted_scanTx P fWritten s x hadds).txOf (P.txHash x.2)
      rw [(WalletTx.fromBlock_eq P x.1 x.2).1, if_pos rfl] at hin
      exact Option.isSome_iff_exists.mpr ⟨_, hin⟩
    · have hret : (scanTx P false fWritten s x).ret = s.ret := by
        rw [ret_scanTx, if_neg]
        intro hc
        simp only [Bool.and_eq_true, Bool.not_eq_true'] at hc
        exact hadds ⟨hc.1.1, hc.1.2⟩
      rw [← hret] at h
      obtain ⟨y, hy, hunknown, hknown⟩ := ih h
      exact ⟨y, List.mem_cons_of_mem x hy, (frame_scanTx hadds).knows y.2 ▸ hunknown, hknown⟩

theorem length_unknownTxs_lt {xs : List (Block × Transaction)} {w w' : Wallet}
    (hgrows : Wallet.Grows w w') {x : Block × Transaction} (hx : x ∈ xs)
    (hunknown : w.knows P x.2 = false) (hknown : w'.knows P x.2 = true) :
    (unknownTxs P xs w').length < (unknownTxs P xs w).length := by
  have hsub : unknownTxs P xs w' = (unknownTxs P xs w).filter fun x => !w'.knows P x.2 := by
    unfold unknownTxs
    rw [List.filter_filter]
    refine List.filter_congr fun y _ => ?_
    cases hk : w.knows P y.2 with
    | false => rw [Bool.not_false, Bool.and_true]
    | true => rw [hgrows.knows hk]; rfl
  rw [hsub]
  refine List.length_filter_lt_length_iff_exists.mpr ⟨x, List.mem_filter.mpr ⟨hx, ?_⟩, ?_⟩
  · rw [hunknown]
    rfl
  · rw [hknown]
    exact Bool.false_ne_true

theorem reacceptLoop_isSome (fWritten : ℕ → Block → Transaction → Bool)
    (xs : List (Block × Transaction)) (fuel round : ℕ) (w : Wallet)
    (hfuel : (unknownTxs P xs w).length < fuel) :
    (reacceptLoop P txindex fWritten xs fuel round w).isSome = true := by
  induction fuel generalizing round w with
  | zero => cases hfuel
  | succ fuel ih =>
    have hframe := (Wallet.passed_reacceptPass P txindex w).frame
    unfold reacceptLoop
    dsimp only
    split
    · rfl
    · split
      · rfl
      · rename_i hret
        apply ih
        obtain ⟨x, hx, hunknown, hknown⟩ := exists_added_of_ret hret
        have hlt := length_unknownTxs_lt (P := P) (grows_foldl_scanTx xs _) hx hunknown hknown
        have hsame : unknownTxs P xs (reacceptPass P txindex w).wallet = unknownTxs P xs w := by
          unfold unknownTxs
          simp only [hframe.knows]
        dsimp only at hlt
        rw [hsame] at hlt
        omega

theorem reacceptWalletTransactions_isSome (readBlock : BlockIndex → Block) (nTimeFirstKey : ℤ)
    (fWritten : ℕ → Block → Transaction → Bool) (blocks : List BlockIndex) (w : Wallet) :
    (reacceptWalletTransactions P readBlock nTimeFirstKey txindex fWritten blocks w).isSome =
      true := by
  apply reacceptLoop_isSome
  exact Nat.lt_succ_of_le (List.length_filter_le _ _)

theorem reacceptLoop_grows {fWritten : ℕ → Block → Transaction → Bool}
    {xs : List (Block × Transaction)} {fuel round : ℕ} {w w' : Wallet}
    (h : reacceptLoop P txindex fWritten xs fuel round w = some w') :
    Wallet.Grows w w' ∧ ∀ hash tx, w'.txOf hash = some tx →
      w.txOf hash = some tx ∨ hash = P.txHash tx ∧ ∃ b, (b, tx) ∈ xs := by
  induction fuel generalizing round w with
  | zero => cases h
  | succ fuel ih =>
    have hframe := (Wallet.passed_reacceptPass P txindex w).frame
    have hscan := hframe.grows.trans (@grows_foldl_scanTx P (fWritten round) xs ⟨0, _⟩)
    have hadded : ∀ hash tx, (xs.foldl (scanTx P false (fWritten round))
        ⟨0, (reacceptPass P txindex w).wallet⟩).wallet.txOf hash = some tx →
          w.txOf hash = some tx ∨ hash = P.txHash tx ∧ ∃ b, (b, tx) ∈ xs := by
      intro hash tx htx
      rw [← hframe.txOf]
      exact txOf_foldl_scanTx htx
    unfold reacceptLoop at h
    dsimp only at h
    split at h
    · cases h
      exact ⟨hframe.grows, fun hash tx htx => Or.inl (hframe.txOf ▸ htx)⟩
    · split at h
      · cases h
        exact ⟨hscan, hadded⟩
      · obtain ⟨hgrows, hlater⟩ := ih h
        refine ⟨hscan.trans hgrows, fun hash tx htx => ?_⟩
        rcases hlater hash tx htx with htx | htx
        · exact hadded hash tx htx
        · exact Or.inr htx

end Loop

end Beancash
