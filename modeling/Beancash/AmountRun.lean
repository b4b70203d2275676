import Beancash.CachedAmounts
import Beancash.ImportWallet
import Beancash.WalletNotices

namespace Beancash

open Fallible

variable {P : Params} {c : Crypto}

/-- What a transaction of the wallet returns is what it would return without its caches. -/
structure CachedTx.Right (c : Crypto) (w : AmountWallet) (wtx : CachedTx) : Prop where
  debit : (wtx.getDebit c w).1 = (wtx.markDirty.getDebit c w).1
  credit : ∀ fImmature, (wtx.getCredit c w true fImmature).1 = (wtx.getCredit c w false fImmature).1
  availableCredit : ∀ fImmature,
    (wtx.getAvailableCredit c w true fImmature).1 = (wtx.getAvailableCredit c w false fImmature).1
  change : (wtx.getChange c w).1 = (wtx.markDirty.getChange c w).1

def AmountWallet.Right (c : Crypto) (w : AmountWallet) : Prop :=
  ∀ hash wtx, w.mapWallet.lookup hash = some wtx → wtx.Right c w

/-- In `w'` as in `w`, each input or output that a cached amount is made up of comes to the same. -/
structure CachedTx.Undisturbed (c : Crypto) (w w' : AmountWallet) (wtx : CachedTx) : Prop where
  debit : wtx.caches.nDebitCached.isSome →
    ∀ o ∈ wtx.tx.prevouts, w'.debitOf c o = w.debitOf c o
  credit : wtx.caches.nCreditCached.isSome → ∀ o ∈ wtx.tx.vout, w'.creditOf c o = w.creditOf c o
  availableCredit : wtx.caches.nAvailableCreditCached.isSome →
    ∀ o ∈ wtx.unspentOutputs, w'.creditOf c o = w.creditOf c o
  change : wtx.caches.nChangeCached.isSome → ∀ o ∈ wtx.tx.vout, w'.changeOf c o = w.changeOf c o

def AmountWallet.Undisturbed (c : Crypto) (w w' : AmountWallet) : Prop :=
  ∀ hash wtx, w'.mapWallet.lookup hash = some wtx → wtx.Undisturbed c w w'

/-- The condition on a call: with the keys, scripts, names and transactions that it leaves, nothing
that stays cached is made up of other amounts. -/
def AmountWallet.Meets (P : Params) (c : Crypto) (w : AmountWallet) : AmountCall → Prop
  | .addToWallet wtxIn io => w.Undisturbed c ((addBound P io wtxIn).run w).2
  | .addKey id => w.Undisturbed c { w with keystore := w.keystore.addKeys [id] }
  | .addCScript redeemScript =>
    w.Undisturbed c { w with keystore := w.keystore.addCScript c redeemScript }
  | .setAddressBookName address => w.Undisturbed c (w.setAddressBookName address)
  | .delAddressBookName address => w.Undisturbed c (w.delAddressBookName address)
  | .eraseFromWallet hash => w.Undisturbed c (w.eraseFromWallet hash)
  | _ => True

/-- What is cached is what would be computed. -/
structure CachedTx.Fresh (c : Crypto) (w : AmountWallet) (wtx : CachedTx) : Prop where
  debit : ∀ n, wtx.caches.nDebitCached = some n → w.getDebit c wtx.tx = some n
  credit : ∀ n, wtx.caches.nCreditCached = some n → w.getCredit c wtx.tx = some n
  availableCredit : ∀ n, wtx.caches.nAvailableCreditCached = some n →
    w.sumUnspent c wtx.toWalletTx = some n
  change : ∀ n, wtx.caches.nChangeCached = some n → w.getChange c wtx.tx = some n

def AmountWallet.Fresh (c : Crypto) (w : AmountWallet) : Prop :=
  ∀ hash wtx, w.mapWallet.lookup hash = some wtx → wtx.Fresh c w

theorem useCache_fst {nCached nComputed : Option Int64}
    (h : ∀ n, nCached = some n → nComputed = some n) (fUseCache : Bool) :
    (useCache fUseCache nCached nComputed).1 = nComputed := by
  unfold useCache
  split
  · rename_i hused
    obtain ⟨n, hn⟩ := Option.isSome_iff_exists.mp (Bool.and_eq_true_iff.mp hused).2
    rw [hn, h n hn]
  · rfl

theorem useCache_snd {nCached nComputed : Option Int64}
    (h : ∀ n, nCached = some n → nComputed = some n) (fUseCache : Bool) {n : Int64}
    (hn : (useCache fUseCache nCached nComputed).2 = some n) : nComputed = some n := by
  unfold useCache at hn
  split at hn
  · exact h n hn
  · cases hcomputed : nComputed with
    | none =>
      rw [hcomputed] at hn
      exact hcomputed.symm.trans (h n hn)
    | some nComputed =>
      rw [hcomputed] at hn
      exact hn

namespace CachedTx

variable {w w' : AmountWallet} {wtx : CachedTx}

theorem fresh_of_empty (h : wtx.caches = .empty) : wtx.Fresh c w := by
  constructor <;> intro n hn <;> rw [h] at hn <;> cases hn

theorem Fresh.right (h : wtx.Fresh c w) : wtx.Right c w where
  debit := by
    unfold getDebit markDirty
    split
    · rfl
    · rw [useCache_fst h.debit]
      rfl
  credit fImmature := by
    unfold getCredit
    split
    · rfl
    · rw [useCache_fst h.credit, useCache_fst h.credit]
  availableCredit fImmature := by
    unfold getAvailableCredit
    split
    · rfl
    · rw [useCache_fst h.availableCredit, useCache_fst h.availableCredit]
  change := by
    unfold getChange markDirty
    rw [useCache_fst h.change]
    rfl

theorem Fresh.of_undisturbed (h : wtx.Fresh c w) (hw : wtx.Undisturbed c w w') :
    wtx.Fresh c w' where
  debit n hn := by
    rw [← h.debit n hn, AmountWallet.getDebit, AmountWallet.getDebit, List.map_congr_left]
    exact fun o ho => congrArg some (hw.debit (Option.isSome_of_eq_some hn) o ho)
  credit n hn := by
    rw [← h.credit n hn, AmountWallet.getCredit, AmountWallet.getCredit, List.map_congr_left]
    exact hw.credit (Option.isSome_of_eq_some hn)
  availableCredit n hn := by
    rw [← h.availableCredit n hn, AmountWallet.sumUnspent, AmountWallet.sumUnspent,
      List.map_congr_left]
    exact hw.availableCredit (Option.isSome_of_eq_some hn)
  change n hn := by
    rw [← h.change n hn, AmountWallet.getChange, AmountWallet.getChange, List.map_congr_left]
    exact hw.change (Option.isSome_of_eq_some hn)

theorem Fresh.getDebit (h : wtx.Fresh c w) : (wtx.getDebit c w).2.Fresh c w := by
  unfold CachedTx.getDebit
  split
  · exact h
  · exact ⟨fun n hn => useCache_snd h.debit true hn, h.credit, h.availableCredit, h.change⟩

theorem Fresh.getCredit (h : wtx.Fresh c w) (fUseCache fImmature : Bool) :
    (wtx.getCredit c w fUseCache fImmature).2.Fresh c w := by
  unfold CachedTx.getCredit
  split
  · exact h
  · exact ⟨h.debit, fun n hn => useCache_snd h.credit fUseCache hn, h.availableCredit, h.change⟩

theorem Fresh.getAvailableCredit (h : wtx.Fresh c w) (fUseCache fImmature : Bool) :
    (wtx.getAvailableCredit c w fUseCache fImmature).2.Fresh c w := by
  unfold CachedTx.getAvailableCredit
  split
  · exact h
  · exact ⟨h.debit, h.credit, fun n hn => useCache_snd h.availableCredit fUseCache hn, h.change⟩

theorem Fresh.getChange (h : wtx.Fresh c w) : (wtx.getChange c w).2.Fresh c w :=
  ⟨h.debit, h.credit, h.availableCredit, fun _ hn => useCache_snd h.change true hn⟩

theorem unspentOutputs_congr {a b : WalletTx} (htx : a.tx = b.tx)
    (h : ∀ i < b.tx.vout.length, a.isSpent i = b.isSpent i) :
    a.unspentOutputs = b.unspentOutputs := by
  unfold WalletTx.unspentOutputs
  rw [htx]
  refine congrArg (List.map Prod.fst) (List.filter_congr fun p hp => ?_)
  have hlt : p.2 < b.tx.vout.length := by
    have hmem := List.snd_lt_of_mem_zipIdx hp
    omega
  rw [h p.2 hlt]

theorem Fresh.mark (h : wtx.Fresh c w) (nOut : ℕ) (fSpent : Bool) :
    (wtx.mark nOut fSpent).Fresh c w := by
  unfold CachedTx.mark
  dsimp only
  split
  · rename_i hsame
    refine ⟨h.debit, h.credit, fun n hn => ?_, h.change⟩
    have hunspent : (wtx.toWalletTx.mark nOut fSpent).unspentOutputs =
        wtx.toWalletTx.unspentOutputs := by
      refine unspentOutputs_congr rfl fun i hi => ?_
      rw [WalletTx.isSpent_mark _ _ _ hi]
      split
      · rename_i heq
        rw [heq, hsame]
      · rfl
    rw [← h.availableCredit n hn, AmountWallet.sumUnspent, AmountWallet.sumUnspent, hunspent]
  · exact ⟨h.debit, h.credit, (fun _ hn => nomatch hn), h.change⟩

theorem Fresh.updateSpent (h : wtx.Fresh c w) (vfNewSpent : List Bool) :
    (wtx.updateSpent vfNewSpent).Fresh c w := by
  unfold CachedTx.updateSpent
  dsimp only
  split
  · exact h
  · exact ⟨h.debit, h.credit, (fun _ hn => nomatch hn), h.change⟩

end CachedTx

namespace AmountWallet

variable {w w' : AmountWallet}

/-- What the amounts depend on is the same, but for the marks of spent outputs. -/
structure SameView (w w' : AmountWallet) : Prop where
  keystore : w'.keystore = w.keystore
  mapAddressBook : w'.mapAddressBook = w.mapAddressBook
  tx : ∀ hash, (w'.mapWallet.lookup hash).map (fun wtx => wtx.tx) =
    (w.mapWallet.lookup hash).map fun wtx => wtx.tx

theorem SameView.isMine (h : SameView w w') : w'.isMine c = w.isMine c := by
  funext txout
  rw [AmountWallet.isMine, AmountWallet.isMine, h.keystore]

theorem SameView.debitOf (h : SameView w w') : w'.debitOf c = w.debitOf c := by
  funext prevout
  have htx := h.tx prevout.hash
  unfold AmountWallet.debitOf
  rw [h.isMine]
  cases hl : w.mapWallet.lookup prevout.hash with
  | none =>
    rw [hl, Option.map_none, Option.map_eq_none_iff] at htx
    rw [htx]
  | some wtx =>
    rw [hl, Option.map_some, Option.map_eq_some_iff] at htx
    obtain ⟨wtx', hl', htx⟩ := htx
    rw [hl']
    dsimp only
    rw [htx]

theorem SameView.creditOf (h : SameView w w') : w'.creditOf c = w.creditOf c := by
  funext txout
  rw [AmountWallet.creditOf, AmountWallet.creditOf, h.isMine]

theorem SameView.changeOf (h : SameView w w') : w'.changeOf c = w.changeOf c := by
  funext txout
  have hchange : w'.isChange c txout = w.isChange c txout := by
    unfold AmountWallet.isChange
    rw [h.keystore, h.mapAddressBook]
  rw [AmountWallet.changeOf, AmountWallet.changeOf, hchange]

theorem SameView.undisturbed (h : SameView w w') (wtx : CachedTx) : wtx.Undisturbed c w w' where
  debit _ o _ := congrFun h.debitOf o
  credit _ o _ := congrFun h.creditOf o
  availableCredit _ o _ := congrFun h.creditOf o
  change _ o _ := congrFun h.changeOf o

theorem lookup_updateTx (w : AmountWallet) (hash h : Uint256) (f : CachedTx → CachedTx) :
    (w.updateTx hash f).mapWallet.lookup h =
      if h = hash then (w.mapWallet.lookup hash).map f else w.mapWallet.lookup h := by
  unfold updateTx
  split <;> rename_i hl
  · rw [lookup_replace, hl]
    rfl
  · split
    · rename_i heq
      rw [heq, hl]
      rfl
    · rfl

theorem sameView_updateTx {hash : Uint256} {f : CachedTx → CachedTx}
    (hf : ∀ wtx, w.mapWallet.lookup hash = some wtx → (f wtx).tx = wtx.tx) :
    SameView w (w.updateTx hash f) := by
  refine ⟨?_, ?_, fun h => ?_⟩
  · unfold updateTx
    split <;> rfl
  · unfold updateTx
    split <;> rfl
  · rw [lookup_updateTx]
    split
    · rename_i heq
      rw [heq]
      cases hl : w.mapWallet.lookup hash with
      | none => rfl
      | some wtx => exact congrArg some (hf wtx hl)
    · rfl

theorem Fresh.updateTx (h : w.Fresh c) {hash : Uint256} {f : CachedTx → CachedTx}
    (hf : ∀ wtx, w.mapWallet.lookup hash = some wtx → (f wtx).tx = wtx.tx ∧ (f wtx).Fresh c w) :
    (w.updateTx hash f).Fresh c := by
  intro h' wtx hlookup
  have hview := sameView_updateTx fun wtx hl => (hf wtx hl).1
  refine CachedTx.Fresh.of_undisturbed ?_ (hview.undisturbed wtx)
  rw [lookup_updateTx] at hlookup
  split at hlookup
  · obtain ⟨wtx', hl, rfl⟩ := Option.map_eq_some_iff.mp hlookup
    exact (hf wtx' hl).2
  · exact h h' wtx hlookup

theorem Fresh.mark (h : w.Fresh c) (hash : Uint256) (nOut : ℕ) (fSpent : Bool) :
    (w.mark hash nOut fSpent).Fresh c := by
  refine h.updateTx fun wtx hl => ?_
  split
  · exact ⟨rfl, h hash wtx hl⟩
  · refine ⟨?_, (h hash wtx hl).mark nOut fSpent⟩
    unfold CachedTx.mark
    dsimp only
    split <;> rfl

theorem Fresh.markDirty (h : w.Fresh c) : w.markDirty.Fresh c := by
  refine List.foldlRecOn (motive := AmountWallet.Fresh c) _ _ h fun w hw hash _ => ?_
  exact hw.updateTx fun wtx _ => ⟨rfl, CachedTx.fresh_of_empty rfl⟩

/-- However `x` ends, the caches stay right. -/
def KeepsFresh {α : Type} (c : Crypto) (x : Step AmountWallet α) : Prop :=
  Step.Keeps (fun w w' => w.Fresh c → w'.Fresh c) x

instance : Std.Refl fun w w' : AmountWallet => w.Fresh c → w'.Fresh c := ⟨fun _ => id⟩

instance : IsTrans AmountWallet fun w w' => w.Fresh c → w'.Fresh c :=
  ⟨fun _ _ _ h h' hw => h' (h hw)⟩

theorem tx_getCredit (wtx : CachedTx) (fUseCache fImmature : Bool) :
    (wtx.getCredit c w fUseCache fImmature).2.tx = wtx.tx := by
  unfold CachedTx.getCredit
  split <;> rfl

theorem keepsFresh_spendOwn (io : AddIo) (prevout : OutPoint) :
    KeepsFresh c (spendOwn c io prevout) := by
  intro w hw
  unfold Step.run spendOwn
  cases hl : w.mapWallet.lookup prevout.hash with
  | none => exact hw
  | some wtx =>
    dsimp only
    cases wtx.tx.vout[prevout.n.toNat]? with
    | none => exact hw
    | some txout =>
      dsimp only
      split
      · have hcredit : (w.updateTx prevout.hash fun _ =>
            (wtx.getCredit c w true (io.immature prevout.hash)).2).Fresh c := by
          refine hw.updateTx fun wtx' hl' => ?_
          rw [Option.some_injective _ (hl'.symm.trans hl)]
          exact ⟨tx_getCredit wtx _ _, (hw prevout.hash wtx hl).getCredit _ _⟩
        split
        · exact hcredit.mark _ _ _
        · exact hcredit
      · exact hw

theorem Fresh.unspendOutputs (h : w.Fresh c) (hash : Uint256) (i : ℕ) (vout : List TxOut) :
    (unspendOutputs c hash i vout w).Fresh c := by
  induction vout generalizing i w with
  | nil => exact h
  | cons txout vout ih =>
    refine ih ?_ (i + 1)
    split
    · exact h.mark _ _ _
    · exact h

theorem keepsFresh_walletUpdateSpent (io : AddIo) (tx : Transaction) (fBlock : Bool) :
    KeepsFresh c (walletUpdateSpent P c io tx fBlock) := by
  refine Step.Keeps.bind (Step.Keeps.forEach fun prevout _ => keepsFresh_spendOwn io prevout) ?_
  intro _
  cases fBlock with
  | true => exact Step.keeps_modify fun w hw => hw.unspendOutputs _ _ _
  | false => exact Step.keeps_pure ()

/-- Each transaction of `w'` is one of `w`, or caches nothing. -/
def Kept (w w' : AmountWallet) : Prop :=
  ∀ hash wtx, w'.mapWallet.lookup hash = some wtx →
    wtx.caches = .empty ∨ w.mapWallet.lookup hash = some wtx

theorem Fresh.of_kept (h : w.Fresh c) (hkept : Kept w w') (hw : w.Undisturbed c w') :
    w'.Fresh c := by
  intro hash wtx hlookup
  rcases hkept hash wtx hlookup with hempty | hold
  · exact CachedTx.fresh_of_empty hempty
  · exact (h hash wtx hold).of_undisturbed (hw hash wtx hlookup)

theorem kept_bind (w : AmountWallet) (wtxIn : WalletTx) : Kept w (w.bind P wtxIn) := by
  intro hash wtx hlookup
  unfold AmountWallet.bind at hlookup
  dsimp only at hlookup
  split at hlookup
  · rename_i wtx' hl
    rw [lookup_replace, hl] at hlookup
    split at hlookup
    · rw [← Option.some_injective _ hlookup]
      exact Or.inl rfl
    · exact Or.inr hlookup
  · by_cases heq : hash = P.txHash wtxIn.tx
    · rw [heq, AList.lookup_insert] at hlookup
      rw [← Option.some_injective _ hlookup]
      exact Or.inl rfl
    · rw [AList.lookup_insert_ne heq] at hlookup
      exact Or.inr hlookup

theorem kept_eraseFromWallet (w : AmountWallet) (hash : Uint256) :
    Kept w (w.eraseFromWallet hash) := by
  intro h wtx hlookup
  right
  unfold eraseFromWallet at hlookup
  split at hlookup
  · exact hlookup
  · by_cases heq : h = hash
    · rw [heq] at hlookup
      simp at hlookup
    · rwa [AList.lookup_erase_ne heq] at hlookup

theorem keeps_replaceDefaultKeys (io : AddIo) (scriptDefaultKey : Script) (i : ℕ)
    (vout : List TxOut) : Step.Keeps (Step.Same AmountWallet.mapWallet)
      (replaceDefaultKeys io scriptDefaultKey i vout) := by
  have hone : ∀ poolKey, Step.Keeps (Step.Same AmountWallet.mapWallet)
      (replaceDefaultKey poolKey) := by
    intro poolKey
    refine Step.Keeps.bind (Step.keeps_modify fun w => rfl) fun _ => ?_
    refine Step.Keeps.bind (Step.keeps_ofOption _) fun newDefaultKey => ?_
    cases newDefaultKey with
    | none => exact Step.keeps_pure ()
    | some id =>
      refine Step.keeps_modify fun w => ?_
      cases poolKey.fWritten <;> cases hkey : w.vchDefaultKey <;>
        simp [Step.Same, hkey, setAddressBookName]
  induction vout generalizing i with
  | nil => exact Step.keeps_pure ()
  | cons txout vout ih =>
    rw [replaceDefaultKeys]
    split
    · exact (hone _).bind fun _ => ih (i + 1)
    · exact ih (i + 1)

/-- What `addBound` does with the transaction that it has made. -/
def addRest (io : AddIo) (wtx? : Option CachedTx) (wtx : WalletTx) : Step AmountWallet WalletTx := do
  Step.guard (wtx?.map CachedTx.toWalletTx = some wtx || io.fWritten)
  match ← Step.read AmountWallet.vchDefaultKey with
  | some id => if !io.fQtGui then replaceDefaultKeys io (Script.ofKeyID id) 0 wtx.tx.vout
  | none => pure ()
  pure wtx

theorem kept_addBound (io : AddIo) (wtxIn : WalletTx) (w : AmountWallet) :
    Kept w ((addBound P io wtxIn).run w).2 := by
  have hrest : ∀ wtx? : Option CachedTx, ∀ wtx : WalletTx,
      Step.Keeps (Step.Same AmountWallet.mapWallet) (addRest io wtx? wtx) := by
    intro wtx? wtx
    refine Step.Keeps.bind (Step.keeps_guard _) fun _ => ?_
    refine Step.Keeps.bind (Step.keeps_read _) fun vchDefaultKey => ?_
    cases vchDefaultKey with
    | none => exact Step.keeps_pure _
    | some id =>
      dsimp only
      split
      · exact (keeps_replaceDefaultKeys io _ 0 _).bind fun _ => Step.keeps_pure _
      · exact Step.keeps_pure _
  have hmap := hrest (w.mapWallet.lookup (P.txHash wtxIn.tx)) ((w.mapWallet.lookup
    (P.txHash wtxIn.tx)).elim wtxIn fun wtx => wtx.toWalletTx.merge wtxIn) (w.bind P wtxIn)
  intro hash wtx hlookup
  refine kept_bind (P := P) w wtxIn hash wtx ?_
  rw [← hmap]
  exact hlookup

theorem Fresh.call (h : w.Fresh c) {call : AmountCall} (hmeets : w.Meets P c call) :
    (w.call P c call).Fresh c := by
  cases call with
  | addToWallet wtxIn io =>
    have hbound := h.of_kept (kept_addBound io wtxIn w) hmeets
    have hspent := fun wtx : WalletTx => keepsFresh_walletUpdateSpent (P := P) (c := c) io wtx.tx
      (decide (wtxIn.hashBlock ≠ 0))
    rw [AmountWallet.call, addToWallet]
    rcases hrun : (addBound P io wtxIn).run w with ⟨_ | wtx, w₁⟩
    · rw [Step.run_bind_of_none hrun]
      rwa [hrun] at hbound
    · rw [Step.run_bind_of_some hrun]
      rw [hrun] at hbound
      exact hspent wtx w₁ hbound
  | markSpent hash nOut => exact h.mark hash nOut true
  | markUnspent hash nOut => exact h.mark hash nOut false
  | updateSpent hash vfNewSpent =>
    refine h.updateTx fun wtx hl => ⟨?_, (h hash wtx hl).updateSpent vfNewSpent⟩
    unfold CachedTx.updateSpent
    dsimp only
    split <;> rfl
  | addKey id => exact h.of_kept (fun _ _ hl => Or.inr hl) hmeets
  | addCScript redeemScript => exact h.of_kept (fun _ _ hl => Or.inr hl) hmeets
  | setAddressBookName address => exact h.of_kept (fun _ _ hl => Or.inr hl) hmeets
  | delAddressBookName address => exact h.of_kept (fun _ _ hl => Or.inr hl) hmeets
  | eraseFromWallet hash => exact h.of_kept (kept_eraseFromWallet w hash) hmeets
  | markDirty => exact h.markDirty
  | getDebit hash =>
    refine h.updateTx fun wtx hl => ⟨?_, (h hash wtx hl).getDebit⟩
    unfold CachedTx.getDebit
    split <;> rfl
  | getCredit hash fUseCache fImmature =>
    exact h.updateTx fun wtx hl => ⟨tx_getCredit wtx _ _, (h hash wtx hl).getCredit _ _⟩
  | getAvailableCredit hash fUseCache fImmature =>
    refine h.updateTx fun wtx hl => ⟨?_, (h hash wtx hl).getAvailableCredit _ _⟩
    unfold CachedTx.getAvailableCredit
    split <;> rfl
  | getChange hash => exact h.updateTx fun wtx hl => ⟨rfl, (h hash wtx hl).getChange⟩

end AmountWallet

/-- In every run of calls that meet the condition, from a wallet that caches nothing yet, each
transaction returns the amounts that would be computed. -/
theorem amounts_fresh (P : Params) (c : Crypto) (w : AmountWallet)
    (hempty : ∀ hash wtx, w.mapWallet.lookup hash = some wtx → wtx.caches = .empty)
    (calls : List AmountCall)
    (hmeets : EachStep (fun done call => (w.calls P c done).Meets P c call) calls) :
    ∀ done, done <+: calls → (w.calls P c done).Right c := by
  intro done hdone hash wtx hl
  have hstart : w.Fresh c := fun hash wtx hl => CachedTx.fresh_of_empty (hempty hash wtx hl)
  have hfresh : (w.calls P c done).Fresh c :=
    hmeets.invariant hstart (fun w call hw hcall => hw.call hcall) hdone
  exact (hfresh hash wtx hl).right

namespace Sample

/-- A wallet with one key, that has no transactions yet. -/
def keyWallet : AmountWallet where
  mapWallet := ∅
  keystore := ⟨{dumpedKeyID}, []⟩
  mapAddressBook := ∅
  vchDefaultKey := none
  fFileBacked := true

def paysKey : Transaction := spend 20 [⟨5, 0⟩] [⟨3 * bean, Script.ofKeyID dumpedKeyID⟩]

def addIo : AddIo where
  fWritten := true
  fQtGui := false
  getKeyFromPool _ := ⟨[], some none, true⟩
  immature _ := false

def addPaysKey : AmountCall := .addToWallet (.ofTransaction paysKey) addIo

end Sample

open Sample in
theorem amounts_fresh_paysKey :
    let calls := [addPaysKey, .setAddressBookName (.keyID dumpedKeyID), .getChange 21]
    (keyWallet.calls params anyCrypto calls).Right anyCrypto ∧
      ((keyWallet.calls params anyCrypto calls).mapWallet.lookup 21).map
        (fun wtx => wtx.caches.nChangeCached) = some (some 0) := by
  refine ⟨amounts_fresh params anyCrypto keyWallet (fun _ _ hl => nomatch hl) _ ?_ _
    (List.prefix_refl _), by decide⟩
  rw [eachStep_cons, eachStep_cons, eachStep_cons]
  refine ⟨fun hash wtx hl => ?_, fun hash wtx hl => ?_, trivial, eachStep_nil _⟩
  · have hcaches : wtx.caches = .empty :=
      (AmountWallet.kept_addBound addIo (.ofTransaction paysKey) keyWallet hash wtx hl).resolve_right
        fun hold => nomatch hold
    constructor <;> rw [hcaches] <;> exact fun hsome => nomatch hsome
  · -- nothing has been cached yet
    have hempty : ((keyWallet.calls params anyCrypto [addPaysKey]).mapWallet.entries.all
        fun e => decide (e.2.caches = .empty)) = true := by decide
    have hcaches := of_decide_eq_true (List.all_eq_true.mp hempty _ (AList.mem_lookup_iff.mp hl))
    constructor <;> rw [hcaches] <;> exact fun hsome => nomatch hsome

namespace Sample

/-- The change has been computed when the address gets a name. -/
def labelledWallet : AmountWallet :=
  keyWallet.calls params anyCrypto
    [addPaysKey, .getChange 21, .setAddressBookName (.keyID dumpedKeyID)]

end Sample

open Sample in
/-- There would be no change now, but the one from before is returned. -/
theorem amounts_labelled :
    (labelledWallet.mapWallet.lookup 21).map (fun wtx =>
        ((wtx.getChange anyCrypto labelledWallet).1,
          (wtx.markDirty.getChange anyCrypto labelledWallet).1)) =
      some (some (3 * bean), some 0) ∧ ¬labelledWallet.Right anyCrypto := by
  have hchange : (labelledWallet.mapWallet.lookup 21).map (fun wtx =>
      ((wtx.getChange anyCrypto labelledWallet).1,
        (wtx.markDirty.getChange anyCrypto labelledWallet).1)) =
      some (some (3 * bean), some 0) := by decide
  refine ⟨hchange, fun h => ?_⟩
  obtain ⟨wtx, hl, hwtx⟩ := Option.map_eq_some_iff.mp hchange
  have hright := (h 21 wtx hl).change
  rw [(Prod.mk.inj hwtx).1, (Prod.mk.inj hwtx).2] at hright
  exact absurd hright (by decide)

end Beancash
