import Beancash.Wallet

namespace Beancash

namespace WalletTx

/-- Where the wallet believes a transaction to be. -/
def place (wtx : WalletTx) : Uint256 × List Uint256 × ℤ :=
  (wtx.hashBlock, wtx.vMerkleBranch, wtx.nIndex)

theorem isSpent_mark (wtx : WalletTx) (i : ℕ) (f : Bool) {j : ℕ} (hj : j < wtx.tx.vout.length) :
    (wtx.mark i f).isSpent j = if j = i then f else wtx.isSpent j := by
  have hpad : (wtx.vfSpent.take wtx.tx.vout.length ++
      List.replicate (wtx.tx.vout.length - wtx.vfSpent.length) false)[j]?.getD false =
      wtx.vfSpent[j]?.getD false := by
    by_cases h : j < wtx.vfSpent.length
    · rw [List.getElem?_append_left (by rw [List.length_take]; omega), List.getElem?_take_of_lt hj]
    · rw [List.getElem?_append_right (by rw [List.length_take]; omega), List.getElem?_replicate,
        List.getElem?_eq_none (by omega)]
      split <;> rfl
  simp only [mark, isSpent, List.getD_eq_getElem?_getD]
  have hlen : j < (wtx.vfSpent.take wtx.tx.vout.length ++
      List.replicate (wtx.tx.vout.length - wtx.vfSpent.length) false).length := by
    rw [List.length_append, List.length_take, List.length_replicate]
    omega
  rw [List.getElem?_set]
  by_cases h : j = i
  · rw [if_pos h.symm, if_pos (h ▸ hlen), if_pos h]
    rfl
  · rw [if_neg (Ne.symm h), if_neg h, hpad]

theorem eq_of_place {a b : WalletTx} (htx : a.tx = b.tx) (hme : a.fFromMe = b.fFromMe)
    (hspent : a.vfSpent = b.vfSpent) (hplace : a.place = b.place) : a = b := by
  cases a
  cases b
  simp only [place, Prod.mk.injEq] at hplace
  simp only [mk.injEq]
  exact ⟨htx, hplace.1, hplace.2.1, hplace.2.2, hme, hspent⟩

end WalletTx

theorem dlookup_kreplace {α β : Type} [DecidableEq α] (l : List (Sigma fun _ : α => β)) (a k : α)
    (b : β) : (l.kreplace a b).dlookup k =
      if k = a then (l.dlookup a).map fun _ => b else l.dlookup k := by
  induction l with
  | nil => simp [List.kreplace]
  | cons c l ih =>
    obtain ⟨c, d⟩ := c
    by_cases hc : a = c
    · subst hc
      have hl : List.kreplace a b (⟨a, d⟩ :: l) = ⟨a, b⟩ :: l :=
        List.lookmap_cons_some _ _ (if_pos rfl)
      rw [hl]
      by_cases hk : k = a
      · rw [if_pos hk, hk, List.dlookup_cons_eq, List.dlookup_cons_eq]
        rfl
      · rw [if_neg hk, List.dlookup_cons_ne l ⟨a, b⟩ hk, List.dlookup_cons_ne l ⟨a, d⟩ hk]
    · have hl : List.kreplace a b (⟨c, d⟩ :: l) = ⟨c, d⟩ :: l.kreplace a b :=
        List.lookmap_cons_none _ _ (if_neg hc)
      rw [hl, List.dlookup_cons_ne l ⟨c, d⟩ hc]
      by_cases hk : k = c
      · rw [hk, List.dlookup_cons_eq, List.dlookup_cons_eq, if_neg (Ne.symm hc)]
      · rw [List.dlookup_cons_ne (l.kreplace a b) ⟨c, d⟩ hk, List.dlookup_cons_ne l ⟨c, d⟩ hk, ih]

theorem lookup_replace {α β : Type} [DecidableEq α] (s : AList fun _ : α => β) (a k : α) (b : β) :
    (s.replace a b).lookup k = if k = a then (s.lookup a).map fun _ => b else s.lookup k :=
  dlookup_kreplace s.entries a k b

namespace Wallet

/-- The wallet's own copy of a transaction. -/
def txOf (w : Wallet) (hash : Uint256) : Option Transaction :=
  (w.mapWallet.lookup hash).map WalletTx.tx

def placeOf (w : Wallet) (hash : Uint256) : Option (Uint256 × List Uint256 × ℤ) :=
  (w.mapWallet.lookup hash).map WalletTx.place

def fFromMeOf (w : Wallet) (hash : Uint256) : Option Bool :=
  (w.mapWallet.lookup hash).map WalletTx.fFromMe

def isSpentAt (w : Wallet) (hash : Uint256) (i : ℕ) : Bool :=
  (w.mapWallet.lookup hash).any fun wtx => wtx.isSpent i

/-- An output of a transaction that the wallet has. -/
def HasOutput (w : Wallet) (hash : Uint256) (i : ℕ) : Prop :=
  ∃ tx, w.txOf hash = some tx ∧ i < tx.vout.length

/-- Which transactions a wallet has, and which outputs are its own, is the same. -/
structure Frame (w w' : Wallet) : Prop where
  isMine : w'.isMine = w.isMine
  nMinimumInputValue : w'.nMinimumInputValue = w.nMinimumInputValue
  txOf : w'.txOf = w.txOf
  fFromMeOf : w'.fFromMeOf = w.fFromMeOf

/-- The wallet holds the same transactions, believes them to be in the same blocks, and has
the same outputs down as spent. -/
structure Same (w w' : Wallet) : Prop where
  frame : Frame w w'
  placeOf : w'.placeOf = w.placeOf
  isSpentAt : ∀ hash i, w.HasOutput hash i → w'.isSpentAt hash i = w.isSpentAt hash i

namespace Frame

variable {w w' w'' : Wallet}

theorem rfl : Frame w w := ⟨.refl _, .refl _, .refl _, .refl _⟩

theorem trans (h : Frame w w') (h' : Frame w' w'') : Frame w w'' :=
  ⟨h'.isMine.trans h.isMine, h'.nMinimumInputValue.trans h.nMinimumInputValue,
    h'.txOf.trans h.txOf, h'.fFromMeOf.trans h.fFromMeOf⟩

theorem hasOutput (h : Frame w w') (hash : Uint256) (i : ℕ) :
    w'.HasOutput hash i ↔ w.HasOutput hash i := by
  unfold HasOutput
  rw [h.txOf]

theorem isMineTx (h : Frame w w') (tx : Transaction) : w'.isMineTx tx = w.isMineTx tx := by
  unfold Wallet.isMineTx
  rw [h.isMine, h.nMinimumInputValue]

theorem ownOutput_eq (w : Wallet) (prevout : OutPoint) :
    w.ownOutput prevout = (w.txOf prevout.hash).bind fun tx =>
      (tx.vout[prevout.n.toNat]?).filter fun o => w.isMine o.scriptPubKey := by
  unfold ownOutput Wallet.txOf
  cases w.mapWallet.lookup prevout.hash <;> rfl

theorem ownOutput (h : Frame w w') (prevout : OutPoint) :
    w'.ownOutput prevout = w.ownOutput prevout := by
  rw [ownOutput_eq, ownOutput_eq, h.txOf, h.isMine]

theorem isFromMe (h : Frame w w') (tx : Transaction) : w'.isFromMe tx = w.isFromMe tx := by
  have hdebit : ∀ prevout, w'.debitOf prevout = w.debitOf prevout := by
    intro prevout
    unfold debitOf
    rw [h.ownOutput]
  have hsum : ∀ prevouts nDebit, w'.sumDebit nDebit prevouts = w.sumDebit nDebit prevouts := by
    intro prevouts
    induction prevouts with
    | nil => exact fun _ => .refl _
    | cons prevout prevouts ih =>
      intro nDebit
      simp only [sumDebit, hdebit, ih]
  simp only [Wallet.isFromMe, hsum]

end Frame

/-- All that happens from `w` to `w'` is that outputs are marked as spent, or not spent, as
`u` says. -/
structure Marked (u : Uint256 → ℕ → Option Bool) (w w' : Wallet) : Prop where
  frame : Frame w w'
  placeOf : w'.placeOf = w.placeOf
  isSpentAt : ∀ hash i, w.HasOutput hash i →
    w'.isSpentAt hash i = (u hash i).getD (w.isSpentAt hash i)

theorem Marked.none {w : Wallet} : Marked (fun _ _ => .none) w w :=
  ⟨.rfl, .refl _, fun _ _ _ => .refl _⟩

theorem Marked.trans {u v : Uint256 → ℕ → Option Bool} {w w' w'' : Wallet} (h : Marked u w w')
    (h' : Marked v w' w'') : Marked (fun hash i => (v hash i).or (u hash i)) w w'' where
  frame := h.frame.trans h'.frame
  placeOf := h'.placeOf.trans h.placeOf
  isSpentAt hash i ho := by
    rw [h'.isSpentAt hash i ((h.frame.hasOutput hash i).mpr ho), h.isSpentAt hash i ho]
    cases v hash i <;> rfl

theorem Marked.congr {u v : Uint256 → ℕ → Option Bool} {w w' : Wallet} (h : Marked u w w')
    (huv : ∀ hash i, w.HasOutput hash i → u hash i = v hash i) : Marked v w w' where
  frame := h.frame
  placeOf := h.placeOf
  isSpentAt hash i ho := by
    rw [h.isSpentAt hash i ho, huv hash i ho]

theorem lookup_updateTx (w : Wallet) (hash h : Uint256) (f : WalletTx → WalletTx) :
    (w.updateTx hash f).mapWallet.lookup h =
      if h = hash then (w.mapWallet.lookup hash).map f else w.mapWallet.lookup h := by
  unfold updateTx
  split <;> rename_i hl
  · rw [lookup_replace, hl]
    rfl
  · by_cases hh : h = hash
    · rw [if_pos hh, hh, hl]
      rfl
    · rw [if_neg hh]

theorem updateTx_of_isMine (w : Wallet) (hash : Uint256) (f : WalletTx → WalletTx) :
    (w.updateTx hash f).isMine = w.isMine ∧
      (w.updateTx hash f).nMinimumInputValue = w.nMinimumInputValue := by
  unfold updateTx
  split <;> exact ⟨rfl, rfl⟩

theorem map_lookup_updateTx {α : Type} (w : Wallet) (hash : Uint256) {f : WalletTx → WalletTx}
    (g : WalletTx → α) (hf : ∀ wtx, g (f wtx) = g wtx) (h : Uint256) :
    ((w.updateTx hash f).mapWallet.lookup h).map g = (w.mapWallet.lookup h).map g := by
  rw [lookup_updateTx]
  split <;> rename_i hh
  · rw [hh, Option.map_map, show g ∘ f = g from funext hf]
  · rfl

theorem frame_updateTx (w : Wallet) (hash : Uint256) {f : WalletTx → WalletTx}
    (htx : ∀ wtx, (f wtx).tx = wtx.tx) (hme : ∀ wtx, (f wtx).fFromMe = wtx.fFromMe) :
    Frame w (w.updateTx hash f) where
  isMine := (updateTx_of_isMine w hash f).1
  nMinimumInputValue := (updateTx_of_isMine w hash f).2
  txOf := funext (map_lookup_updateTx w hash _ htx)
  fFromMeOf := funext (map_lookup_updateTx w hash _ hme)

theorem marked_updateTx (w : Wallet) (hash : Uint256) (i : ℕ) (f : Bool)
    {g : WalletTx → WalletTx} (htx : ∀ wtx, (g wtx).tx = wtx.tx)
    (hme : ∀ wtx, (g wtx).fFromMe = wtx.fFromMe) (hplace : ∀ wtx, (g wtx).place = wtx.place)
    (hspent : ∀ wtx j, j < wtx.tx.vout.length →
      (g wtx).isSpent j = if j = i then f else wtx.isSpent j) :
    Marked (fun h j => if hash = h ∧ i = j then some f else none) w (w.updateTx hash g) where
  frame := frame_updateTx w hash htx hme
  placeOf := funext (map_lookup_updateTx w hash _ hplace)
  isSpentAt h j ho := by
    obtain ⟨tx, htx, hj⟩ := ho
    unfold isSpentAt
    rw [lookup_updateTx]
    by_cases hh : h = hash
    · obtain ⟨wtx, hl, rfl⟩ := Option.map_eq_some_iff.mp htx
      rw [if_pos hh, ← hh, hl]
      simp only [Option.map_some, Option.any_some, hspent wtx j hj, true_and, eq_comm (a := j)]
      split <;> rfl
    · rw [if_neg hh, if_neg fun hc => hh hc.1.symm]
      rfl

theorem marked_mark (w : Wallet) (hash : Uint256) (i : ℕ) (f : Bool) :
    Marked (fun h j => if hash = h ∧ i = j then some f else none) w
      (w.updateTx hash fun wtx => wtx.mark i f) :=
  marked_updateTx w hash i f (fun _ => rfl) (fun _ => rfl) (fun _ => rfl)
    fun wtx _ hj => wtx.isSpent_mark i f hj

/-- Whether an input of `tx` is output `i`, of the wallet's own ones. -/
def spends (w : Wallet) (tx : Transaction) (hash : Uint256) (i : ℕ) : Bool :=
  tx.prevouts.any fun prevout =>
    prevout.hash = hash ∧ prevout.n.toNat = i ∧ (w.ownOutput prevout).isSome

theorem marked_foldl {g : Wallet → OutPoint → Wallet} (f : Bool)
    (hg : ∀ w prevout, Marked (fun h j => if prevout.hash = h ∧ prevout.n.toNat = j ∧
      (w.ownOutput prevout).isSome then some f else none) w (g w prevout))
    (tx : Transaction) (w : Wallet) :
    Marked (fun h j => if w.spends tx h j then some f else none) w (tx.prevouts.foldl g w) := by
  unfold spends
  generalize tx.prevouts = prevouts
  induction prevouts generalizing w with
  | nil => exact Marked.none
  | cons prevout prevouts ih =>
    refine ((hg w prevout).trans (ih (g w prevout))).congr fun h j _ => ?_
    simp only [(hg w prevout).frame.ownOutput, List.any_cons]
    by_cases hp : prevout.hash = h ∧ prevout.n.toNat = j ∧ (w.ownOutput prevout).isSome
    · simp only [hp, true_and, decide_true, Bool.true_or, if_true]
      split <;> rfl
    · simp only [hp, decide_false, Bool.false_or, if_false, Option.or_none]

theorem marked_of_ownOutput {w : Wallet} {prevout : OutPoint} {f : Bool} {w' : Wallet}
    (h : Marked (fun h j => if prevout.hash = h ∧ prevout.n.toNat = j then some f else none) w w') :
    Marked (fun h j => if prevout.hash = h ∧ prevout.n.toNat = j ∧
      (w.ownOutput prevout).isSome then some f else none) w
      (if (w.ownOutput prevout).isSome then w' else w) := by
  by_cases ho : (w.ownOutput prevout).isSome
  · rw [if_pos ho]
    exact h.congr fun h j _ => by simp only [ho, and_true]
  · rw [if_neg ho]
    exact Marked.none.congr fun h j _ => (if_neg fun hc => ho hc.2.2).symm

theorem marked_spendOwn (w : Wallet) (prevout : OutPoint) :
    Marked (fun h j => if prevout.hash = h ∧ prevout.n.toNat = j ∧
      (w.ownOutput prevout).isSome then some true else none) w (w.spendOwn prevout) := by
  refine marked_of_ownOutput (marked_updateTx w prevout.hash prevout.n.toNat true ?_ ?_ ?_ ?_)
  case refine_4 =>
    intro wtx j hj
    split <;> rename_i hs
    · split <;> rename_i hn
      · rw [hn, hs]
      · rfl
    · exact wtx.isSpent_mark _ _ hj
  all_goals
    intro wtx
    split <;> rfl

theorem marked_disableTransaction (w : Wallet) (tx : Transaction) :
    Marked (fun h j => if tx.isBeanStake ∧ w.isFromMe tx ∧ w.spends tx h j then some false else none)
      w (w.disableTransaction tx) := by
  unfold disableTransaction
  split <;> rename_i hc
  · refine Marked.none.congr fun h j _ => (if_neg fun hd => ?_).symm
    simp [hd.1, hd.2.1] at hc
  · have hd : tx.isBeanStake ∧ w.isFromMe tx := by simpa using hc
    refine (marked_foldl false (fun w prevout => ?_) tx w).congr fun h j _ => ?_
    · exact marked_of_ownOutput (marked_mark w prevout.hash prevout.n.toNat false)
    · simp only [hd.1, hd.2, true_and]

theorem marked_unspendOutputs (hash : Uint256) (i : ℕ) (vout : List TxOut) (w : Wallet) :
    Marked (fun h j => if hash = h ∧ i ≤ j ∧ (vout[j - i]?).any fun o => w.isMine o.scriptPubKey
      then some false else none) w (unspendOutputs hash i vout w) := by
  induction vout generalizing i w with
  | nil => exact Marked.none.congr fun h j _ => (if_neg (by simp)).symm
  | cons o vout ih =>
    have hmark : Marked (fun h j => if hash = h ∧ i = j ∧ w.isMine o.scriptPubKey then some false
        else none) w (if w.isMine o.scriptPubKey then
          w.updateTx hash fun wtx => wtx.mark i false else w) := by
      split <;> rename_i hm
      · exact (marked_mark w hash i false).congr fun h j _ => by simp only [hm, and_true]
      · exact Marked.none.congr fun h j _ => (if_neg fun hc => hm hc.2.2).symm
    refine (hmark.trans (ih (i + 1) _)).congr fun h j _ => ?_
    rw [hmark.frame.isMine]
    -- output `i` is the first of these, and the others come after it
    rcases Nat.lt_trichotomy i j with hij | hij | hij
    · have hj : (o :: vout)[j - i]? = vout[j - (i + 1)]? := by
        rw [show j - i = j - (i + 1) + 1 by omega, List.getElem?_cons_succ]
      simp only [hj, Nat.succ_le_of_lt hij, hij.le, hij.ne, false_and, and_false, if_false,
        Option.or_none]
    · subst hij
      simp
    · simp only [Nat.not_le.mpr hij, hij.ne', show ¬i + 1 ≤ j by omega, false_and, and_false,
        if_false, Option.or_none]

/-- What `WalletUpdateSpent` says. -/
def updateSpentWord (P : Params) (w : Wallet) (tx : Transaction) (fBlock : Bool) (hash : Uint256)
    (i : ℕ) : Option Bool :=
  if fBlock ∧ P.txHash tx = hash ∧ (tx.vout[i]?).any fun o => w.isMine o.scriptPubKey then
    some false
  else if w.spends tx hash i then some true
  else none

theorem marked_walletUpdateSpent (P : Params) (w : Wallet) (tx : Transaction) (fBlock : Bool) :
    Marked (w.updateSpentWord P tx fBlock) w (w.walletUpdateSpent P tx fBlock) := by
  have hspend := marked_foldl true marked_spendOwn tx w
  unfold walletUpdateSpent
  cases fBlock with
  | false => exact hspend.congr fun h j _ => by simp [updateSpentWord]
  | true =>
    refine (hspend.trans (marked_unspendOutputs (P.txHash tx) 0 tx.vout _)).congr fun h j _ => ?_
    simp only [hspend.frame.isMine, updateSpentWord, Nat.zero_le, Nat.sub_zero, true_and]
    split <;> rfl

end Wallet

/-- What a wallet is told of one transaction of a block. -/
structure Notice where
  b : Block
  tx : Transaction
  fConnect : Bool
  fWritten : Bool

namespace Wallet

/-- Also when it is told of a disconnection, it is told not to update, which makes no
difference there. -/
def hear (P : Params) (w : Wallet) (ν : Notice) : Wallet :=
  w.sync P ν.b ν.fConnect ν.fConnect ν.fWritten ν.tx

/-- The wallet has the transaction. -/
def knows (P : Params) (w : Wallet) (tx : Transaction) : Bool := (w.txOf (P.txHash tx)).isSome

/-- The block that a connected transaction is recorded in, by what it was before. -/
def recordPlace (P : Params) (ν : Notice) (place : Uint256 × List Uint256 × ℤ) :
    Uint256 × List Uint256 × ℤ :=
  let wtxIn := (WalletTx.ofTransaction ν.tx).setMerkleBranch P ν.b
  (if wtxIn.hashBlock ≠ 0 then wtxIn.hashBlock else place.1,
    if wtxIn.nIndex ≠ -1 then (wtxIn.vMerkleBranch, wtxIn.nIndex) else place.2)

/-- Where a transaction of the wallet is recorded to be after some notices, the last of
which comes first. -/
def placeAfter (P : Params) (w : Wallet) (hash : Uint256) :
    List Notice → Option (Uint256 × List Uint256 × ℤ)
  | [] => w.placeOf hash
  | ν :: log =>
    if ν.fConnect ∧ P.txHash ν.tx = hash then (placeAfter P w hash log).map (recordPlace P ν)
    else placeAfter P w hash log

/-- When a changed transaction cannot be written, nothing is done about its inputs and
outputs. -/
def heeds (P : Params) (w : Wallet) (ν : Notice) (log : List Notice) : Bool :=
  ν.fWritten || !w.knows P ν.tx ||
    decide (w.placeAfter P (P.txHash ν.tx) (ν :: log) = w.placeAfter P (P.txHash ν.tx) log)

/-- What a notice says of an output: connecting a transaction says that the wallet's own outputs
it spends are spent, and that its own outputs, if it is one of the wallet, are not. Disconnecting
a beansprout of the wallet says that its inputs are not spent. -/
def word (P : Params) (w : Wallet) (ν : Notice) (hash : Uint256) (i : ℕ) : Option Bool :=
  if ν.fConnect then
    w.updateSpentWord P ((w.txOf (P.txHash ν.tx)).getD ν.tx)
      (w.knows P ν.tx && decide (ν.b.hash P ≠ 0)) hash i
  else if ν.tx.isBeanStake ∧ w.isFromMe ν.tx ∧ w.spends ν.tx hash i then some false
  else none

/-- The last that is said of an output. -/
def lastWord (P : Params) (w : Wallet) (hash : Uint256) (i : ℕ) : List Notice → Option Bool
  | [] => none
  | ν :: log =>
    (if w.heeds P ν log then w.word P ν hash i else none).or (lastWord P w hash i log)

/-- The wallet has the transaction, or it does not involve the wallet. -/
def NoNews (P : Params) (w : Wallet) (ν : Notice) : Prop :=
  ν.fConnect = true → w.knows P ν.tx = true ∨ (w.isMineTx ν.tx || w.isFromMe ν.tx) = false

namespace Frame

variable {P : Params} {w w' : Wallet}

theorem knows (h : Frame w w') (tx : Transaction) : w'.knows P tx = w.knows P tx := by
  unfold Wallet.knows
  rw [h.txOf]

theorem spends (h : Frame w w') (tx : Transaction) (hash : Uint256) (i : ℕ) :
    w'.spends tx hash i = w.spends tx hash i := by
  simp only [Wallet.spends, h.ownOutput]

theorem word (h : Frame w w') (ν : Notice) (hash : Uint256) (i : ℕ) :
    w'.word P ν hash i = w.word P ν hash i := by
  simp only [Wallet.word, updateSpentWord, h.txOf, h.isMine, h.knows, h.spends, h.isFromMe]

theorem noNews (h : Frame w w') (ν : Notice) : w'.NoNews P ν ↔ w.NoNews P ν := by
  unfold NoNews
  rw [h.knows, h.isMineTx, h.isFromMe]

end Frame

/-- What one notice makes of a wallet. -/
structure Heard (P : Params) (ν : Notice) (w w' : Wallet) : Prop where
  frame : Frame w w'
  placeOf : ∀ hash, w'.placeOf hash = w.placeAfter P hash [ν]
  isSpentAt : ∀ hash i, w.HasOutput hash i → w'.isSpentAt hash i =
    (if w.heeds P ν [] then w.word P ν hash i else none).getD (w.isSpentAt hash i)

theorem Marked.heard {P : Params} {ν : Notice} {w w' : Wallet} (h : Marked (w.word P ν) w w')
    (hplace : ∀ hash, w.placeAfter P hash [ν] = w.placeOf hash) : Heard P ν w w' where
  frame := h.frame
  placeOf hash := by rw [h.placeOf, hplace]
  isSpentAt hash i ho := by
    have hheeds : w.heeds P ν [] = true := by
      unfold heeds
      rw [hplace]
      simp [placeAfter]
    rw [hheeds, if_pos rfl, h.isSpentAt hash i ho]

theorem merge_setMerkleBranch (P : Params) (ν : Notice) (wtx : WalletTx) :
    let wtx' := wtx.merge ((WalletTx.ofTransaction ν.tx).setMerkleBranch P ν.b)
    wtx'.tx = wtx.tx ∧ wtx'.fFromMe = wtx.fFromMe ∧ wtx'.vfSpent = wtx.vfSpent ∧
      wtx'.place = recordPlace P ν wtx.place := by
  have hme : ((WalletTx.ofTransaction ν.tx).setMerkleBranch P ν.b).fFromMe = false := by
    unfold WalletTx.setMerkleBranch
    split <;> rfl
  have hspent : ((WalletTx.ofTransaction ν.tx).setMerkleBranch P ν.b).vfSpent = [] := by
    unfold WalletTx.setMerkleBranch
    split <;> rfl
  have hnil : ∀ l, WalletTx.updateSpent l [] = l := by
    intro l
    cases l <;> rfl
  unfold recordPlace
  generalize (WalletTx.ofTransaction ν.tx).setMerkleBranch P ν.b = wtxIn at hme hspent
  by_cases hb : wtxIn.hashBlock = 0 <;> by_cases hi : wtxIn.nIndex = -1 <;>
    simp only [WalletTx.merge, WalletTx.place, hme, hspent, hnil, hb, hi, ne_eq, not_true_eq_false,
      not_false_eq_true, if_true, if_false, Bool.false_eq_true, and_self]

theorem addToWallet_of_lookup (P : Params) {w : Wallet} {wtxIn wtx : WalletTx} (fWritten : Bool)
    (hl : w.mapWallet.lookup (P.txHash wtxIn.tx) = some wtx) :
    w.addToWallet P wtxIn fWritten =
      let w₁ := w.updateTx (P.txHash wtxIn.tx) fun wtx => wtx.merge wtxIn
      if wtx ≠ wtx.merge wtxIn ∧ !fWritten then w₁
      else w₁.walletUpdateSpent P (wtx.merge wtxIn).tx (decide (wtxIn.hashBlock ≠ 0)) := by
  have hmem : P.txHash wtxIn.tx ∈ w.mapWallet := AList.lookup_isSome.mp (by rw [hl]; rfl)
  simp only [addToWallet, updateTx, hl, if_pos hmem, ne_eq, Option.some.injEq]

theorem addToWallet_of_lookup_none (P : Params) {w : Wallet} {wtxIn : WalletTx} (fWritten : Bool)
    (hl : w.mapWallet.lookup (P.txHash wtxIn.tx) = none) :
    w.addToWallet P wtxIn fWritten =
      let w₁ := { w with mapWallet := w.mapWallet.insert (P.txHash wtxIn.tx) wtxIn }
      if !fWritten then w₁
      else w₁.walletUpdateSpent P wtxIn.tx (decide (wtxIn.hashBlock ≠ 0)) := by
  have hmem : P.txHash wtxIn.tx ∉ w.mapWallet := AList.lookup_eq_none.mp hl
  simp only [addToWallet, hl, if_neg hmem, ne_eq, reduceCtorEq, not_false_eq_true, true_and]

theorem isSpentAt_eq (w : Wallet) (hash : Uint256) (i : ℕ) : w.isSpentAt hash i =
    ((w.mapWallet.lookup hash).map WalletTx.vfSpent).any fun vfSpent => vfSpent.getD i false := by
  unfold isSpentAt
  cases w.mapWallet.lookup hash <;> rfl

theorem heard_known {P : Params} {ν : Notice} {w : Wallet} (hc : ν.fConnect = true)
    {wtx : WalletTx} (hl : w.mapWallet.lookup (P.txHash ν.tx) = some wtx) :
    Heard P ν w
      (w.addToWallet P ((WalletTx.ofTransaction ν.tx).setMerkleBranch P ν.b) ν.fWritten) := by
  have hin : ((WalletTx.ofTransaction ν.tx).setMerkleBranch P ν.b).tx = ν.tx ∧
      ((WalletTx.ofTransaction ν.tx).setMerkleBranch P ν.b).hashBlock = ν.b.hash P := by
    unfold WalletTx.setMerkleBranch
    split <;> exact ⟨rfl, rfl⟩
  have hmerge := merge_setMerkleBranch P ν
  rw [addToWallet_of_lookup P ν.fWritten (hin.1 ▸ hl), hin.1, hin.2]
  generalize (WalletTx.ofTransaction ν.tx).setMerkleBranch P ν.b = wtxIn at hmerge ⊢
  -- the transaction is updated, and then its inputs and outputs
  obtain ⟨w₁, hw₁⟩ : ∃ w₁, w₁ = w.updateTx (P.txHash ν.tx) fun wtx => wtx.merge wtxIn := ⟨_, rfl⟩
  have hframe : Frame w w₁ := hw₁ ▸ frame_updateTx w _ (fun wtx => (hmerge wtx).1)
    fun wtx => (hmerge wtx).2.1
  have hplace : ∀ hash, w₁.placeOf hash = w.placeAfter P hash [ν] := by
    intro hash
    unfold placeOf
    rw [hw₁, lookup_updateTx]
    simp only [placeAfter, hc, true_and]
    by_cases hh : hash = P.txHash ν.tx
    · rw [if_pos hh, if_pos hh.symm, placeOf, hh, Option.map_map, Option.map_map]
      exact congrArg (Option.map · _) (funext fun wtx => (hmerge wtx).2.2.2)
    · rw [if_neg hh, if_neg (Ne.symm hh)]
      rfl
  have hspent : ∀ hash i, w₁.isSpentAt hash i = w.isSpentAt hash i := by
    intro hash i
    rw [isSpentAt_eq, isSpentAt_eq, hw₁, map_lookup_updateTx w _ _ fun wtx => (hmerge wtx).2.2.1]
  have htxOf : w.txOf (P.txHash ν.tx) = some wtx.tx := by
    rw [txOf, hl]
    rfl
  have hknows : w.knows P ν.tx = true := by
    rw [knows, htxOf]
    rfl
  have heq : recordPlace P ν wtx.place = wtx.place ↔ wtx = wtx.merge wtxIn := by
    obtain ⟨htx, hme, hspent, hplace⟩ := hmerge wtx
    rw [← hplace]
    constructor
    · intro he
      exact (WalletTx.eq_of_place htx hme hspent he).symm
    · intro he
      rw [← he]
  have hheeds : w.heeds P ν [] = !(decide (wtx ≠ wtx.merge wtxIn ∧ !ν.fWritten)) := by
    simp only [heeds, hknows, placeAfter, hc, true_and, if_true, placeOf, hl, Option.map_some,
      Option.some.injEq, heq]
    cases ν.fWritten <;> simp
  simp only [← hw₁]
  split <;> rename_i hw
  · refine ⟨hframe, hplace, fun hash i ho => ?_⟩
    rw [hheeds, hspent, decide_eq_true hw]
    rfl
  · have hmarked := marked_walletUpdateSpent P w₁ (wtx.merge wtxIn).tx (decide (ν.b.hash P ≠ 0))
    have hword : w.word P ν = w₁.updateSpentWord P (wtx.merge wtxIn).tx
        (decide (ν.b.hash P ≠ 0)) := by
      funext hash i
      simp only [word, hc, if_true, htxOf, Option.getD_some, hknows, Bool.true_and,
        updateSpentWord, hframe.isMine, hframe.spends, (hmerge wtx).1]
    refine ⟨hframe.trans hmarked.frame, fun hash => ?_, fun hash i ho => ?_⟩
    · rw [hmarked.placeOf, hplace]
    · rw [hmarked.isSpentAt hash i ((hframe.hasOutput hash i).mpr ho), hheeds, hspent,
        decide_eq_false hw, hword]
      rfl

theorem heard_hear {P : Params} {ν : Notice} {w : Wallet} (h : w.NoNews P ν) :
    Heard P ν w (w.hear P ν) := by
  unfold hear sync
  cases hc : ν.fConnect with
  | false =>
    have hplace : ∀ hash, w.placeAfter P hash [ν] = w.placeOf hash := fun hash => by
      simp [placeAfter, hc]
    have hword : w.word P ν = fun h j => if ν.tx.isBeanStake ∧ w.isFromMe ν.tx ∧
        w.spends ν.tx h j then some false else none := by
      funext h j
      simp [word, hc]
    refine Marked.heard ?_ hplace
    rw [hword]
    simp only [Bool.false_eq_true, if_false]
    split <;> rename_i hs
    · exact marked_disableTransaction w ν.tx
    · refine Marked.none.congr fun h j _ => (if_neg fun hd => hs ?_).symm
      rw [hd.1, hd.2.1]
      rfl
  | true =>
    simp only [if_true, addToWalletIfInvolvingMe, Bool.not_true, Bool.and_false,
      Bool.false_eq_true, if_false]
    cases hl : w.mapWallet.lookup (P.txHash ν.tx) with
    | some wtx => exact heard_known hc hl
    | none =>
      have hk : w.knows P ν.tx = false := by
        unfold knows txOf
        rw [hl]
        rfl
      have hnone := (h hc).resolve_left (by rw [hk]; exact Bool.false_ne_true)
      have hplace : ∀ hash, w.placeAfter P hash [ν] = w.placeOf hash := by
        intro hash
        simp only [placeAfter]
        split <;> rename_i hh
        · rw [← hh.2, placeOf, hl]
          rfl
        · rfl
      have hword : w.word P ν = w.updateSpentWord P ν.tx false := by
        funext hash i
        simp only [word, hc, if_true, hk, Bool.false_and, txOf, hl, Option.map_none,
          Option.getD_none]
      simp only [Option.isSome_none, Bool.false_or, hnone, Bool.false_eq_true, if_false]
      exact Marked.heard (hword ▸ marked_walletUpdateSpent P w ν.tx false) hplace

/-- The wallet after some notices, the last of which comes first. -/
def after (P : Params) (w : Wallet) (log : List Notice) : Wallet :=
  log.foldr (fun ν w => w.hear P ν) w

structure After (P : Params) (w : Wallet) (log : List Notice) (w' : Wallet) : Prop where
  frame : Frame w w'
  placeOf : ∀ hash, w'.placeOf hash = w.placeAfter P hash log
  isSpentAt : ∀ hash i, w.HasOutput hash i →
    w'.isSpentAt hash i = (w.lastWord P hash i log).getD (w.isSpentAt hash i)

theorem after_spec {P : Params} {w : Wallet} {log : List Notice}
    (h : ∀ ν ∈ log, w.NoNews P ν) : After P w log (w.after P log) := by
  induction log with
  | nil => exact ⟨.rfl, fun _ => rfl, fun _ _ _ => rfl⟩
  | cons ν log ih =>
    have hlog := ih fun ν' hν' => h ν' (List.mem_cons_of_mem _ hν')
    have hν : Heard P ν (w.after P log) (w.after P (ν :: log)) :=
      heard_hear ((hlog.frame.noNews ν).mpr (h ν List.mem_cons_self))
    have hplace : ∀ hash, (w.after P log).placeAfter P hash [ν] =
        w.placeAfter P hash (ν :: log) := by
      intro hash
      simp only [placeAfter, hlog.placeOf]
    have hheeds : (w.after P log).heeds P ν [] = w.heeds P ν log := by
      simp only [heeds, hlog.frame.knows, hplace]
      simp only [placeAfter, hlog.placeOf]
    refine ⟨hlog.frame.trans hν.frame, fun hash => ?_, fun hash i ho => ?_⟩
    · rw [hν.placeOf, hplace]
    · rw [hν.isSpentAt hash i ((hlog.frame.hasOutput hash i).mpr ho), hheeds,
        hlog.frame.word, hlog.isSpentAt hash i ho]
      simp only [lastWord]
      split
      · cases w.word P ν hash i <;> rfl
      · rfl

/-- The condition for a series of notices to leave a wallet as it was: no connected transaction
is news to it, every transaction is last put in the block it was in, and what is last said of
an output is what the wallet had down. -/
structure Undisturbed (P : Params) (w : Wallet) (log : List Notice) : Prop where
  noNews : ∀ ν ∈ log, w.NoNews P ν
  place : ∀ hash, w.placeAfter P hash log = w.placeOf hash
  spent : ∀ hash i f, w.HasOutput hash i → w.lastWord P hash i log = some f →
    w.isSpentAt hash i = f

/-- A wallet only gains transactions. -/
structure Grows (w w' : Wallet) : Prop where
  isMine : w'.isMine = w.isMine
  nMinimumInputValue : w'.nMinimumInputValue = w.nMinimumInputValue
  txOf : ∀ hash tx, w.txOf hash = some tx → w'.txOf hash = some tx
  fFromMeOf : ∀ hash f, w.fFromMeOf hash = some f → w'.fFromMeOf hash = some f

namespace Grows

variable {w w' w'' : Wallet}

theorem trans (h : Grows w w') (h' : Grows w' w'') : Grows w w'' :=
  ⟨h'.isMine.trans h.isMine, h'.nMinimumInputValue.trans h.nMinimumInputValue,
    fun hash tx ht => h'.txOf hash tx (h.txOf hash tx ht),
    fun hash f hf => h'.fFromMeOf hash f (h.fFromMeOf hash f hf)⟩

theorem eq_of_some {α β : Type} {f g k : α → Option β} (hfg : ∀ a b, f a = some b → g a = some b)
    (hgk : ∀ a b, g a = some b → k a = some b) (hk : k = f) : g = f := by
  funext a
  cases hg : g a with
  | some b => rw [← hk, hgk a b hg]
  | none =>
    cases hf : f a with
    | none => rfl
    | some b =>
      rw [hfg a b hf] at hg
      cases hg

theorem frame (h : Grows w w') (h' : Grows w' w'') (hframe : Frame w w'') : Frame w w' :=
  ⟨h.isMine, h.nMinimumInputValue, eq_of_some h.txOf h'.txOf hframe.txOf,
    eq_of_some h.fFromMeOf h'.fFromMeOf hframe.fFromMeOf⟩

end Grows

theorem Frame.grows {w w' : Wallet} (h : Frame w w') : Grows w w' :=
  ⟨h.isMine, h.nMinimumInputValue, fun _ _ ht => h.txOf ▸ ht, fun _ _ hf => h.fFromMeOf ▸ hf⟩

theorem grows_insert {w : Wallet} {hash : Uint256} (wtx : WalletTx)
    (hl : w.mapWallet.lookup hash = none) :
    Grows w { w with mapWallet := w.mapWallet.insert hash wtx } := by
  have hmap : ∀ {α : Type} (g : WalletTx → α) h a, (w.mapWallet.lookup h).map g = some a →
      ((w.mapWallet.insert hash wtx).lookup h).map g = some a := by
    intro α g h a ha
    have hh : h ≠ hash := by
      rintro rfl
      rw [hl] at ha
      cases ha
    rw [AList.lookup_insert_ne hh, ha]
  exact ⟨rfl, rfl, hmap _, hmap _⟩

theorem hear_news {P : Params} {w : Wallet} {ν : Notice} (h : ¬w.NoNews P ν) :
    Grows w (w.hear P ν) ∧ w.knows P ν.tx = false ∧ (w.hear P ν).knows P ν.tx = true := by
  simp only [NoNews, Classical.not_imp, not_or, Bool.not_eq_true, Bool.not_eq_false] at h
  obtain ⟨hc, hk, hmine⟩ := h
  have hl : w.mapWallet.lookup (P.txHash ν.tx) = none := by
    unfold knows txOf at hk
    rwa [Option.isSome_map, Option.isSome_eq_false_iff, Option.isNone_iff_eq_none] at hk
  have hin : ((WalletTx.ofTransaction ν.tx).setMerkleBranch P ν.b).tx = ν.tx := by
    unfold WalletTx.setMerkleBranch
    split <;> rfl
  have hhear : w.hear P ν =
      w.addToWallet P ((WalletTx.ofTransaction ν.tx).setMerkleBranch P ν.b) ν.fWritten := by
    unfold hear sync addToWalletIfInvolvingMe
    simp only [hc, hl, if_true, Option.isSome_none, Bool.false_and, Bool.false_eq_true, if_false,
      Bool.false_or, hmine]
  generalize (WalletTx.ofTransaction ν.tx).setMerkleBranch P ν.b = wtxIn at hin hhear
  obtain ⟨w₁, hw₁⟩ : ∃ w₁ : Wallet, w₁ =
      { w with mapWallet := w.mapWallet.insert (P.txHash ν.tx) wtxIn } := ⟨_, rfl⟩
  have hframe : Frame w₁ (w.hear P ν) := by
    rw [hhear, addToWallet_of_lookup_none P ν.fWritten (hin ▸ hl), hin]
    simp only [← hw₁]
    split
    · exact .rfl
    · exact (marked_walletUpdateSpent P w₁ _ _).frame
  refine ⟨(hw₁ ▸ grows_insert wtxIn hl : Grows w w₁).trans hframe.grows, hk, ?_⟩
  rw [hframe.knows, knows, txOf, hw₁, AList.lookup_insert]
  rfl

theorem grows_hear {P : Params} {w : Wallet} (ν : Notice) : Grows w (w.hear P ν) := by
  by_cases h : w.NoNews P ν
  · exact (heard_hear h).frame.grows
  · exact (hear_news h).1

theorem grows_after (P : Params) (w : Wallet) (log : List Notice) :
    Grows w (w.after P log) := by
  induction log with
  | nil => exact Frame.rfl.grows
  | cons ν log ih => exact ih.trans (grows_hear ν)

theorem noNews_of_frame {P : Params} {w : Wallet} {log : List Notice}
    (h : Frame w (w.after P log)) : ∀ ν ∈ log, w.NoNews P ν := by
  induction log with
  | nil => exact fun _ hν => absurd hν List.not_mem_nil
  | cons ν log ih =>
    have hlog : Frame w (w.after P log) := (grows_after P w log).frame (grows_hear ν) h
    intro ν' hν'
    rcases List.mem_cons.mp hν' with rfl | hν'
    · refine (hlog.noNews ν').mp (by_contra fun hnews => ?_)
      obtain ⟨-, hunknown, hknown⟩ := hear_news hnews
      rw [hlog.knows, ← h.knows] at hunknown
      exact Bool.false_ne_true (hunknown.symm.trans hknown)
    · exact ih hlog ν' hν'

theorem same_after_iff (P : Params) (w : Wallet) (log : List Notice) :
    Same w (w.after P log) ↔ w.Undisturbed P log := by
  constructor
  · intro h
    have hnews := noNews_of_frame h.frame
    have hafter := after_spec hnews
    refine ⟨hnews, fun hash => ?_, fun hash i f ho hf => ?_⟩
    · rw [← hafter.placeOf, h.placeOf]
    · rw [← h.isSpentAt hash i ho, hafter.isSpentAt hash i ho, hf]
      rfl
  · intro h
    have hafter := after_spec h.noNews
    refine ⟨hafter.frame, funext fun hash => ?_, fun hash i ho => ?_⟩
    · rw [hafter.placeOf, h.place]
    · rw [hafter.isSpentAt hash i ho]
      cases hf : w.lastWord P hash i log with
      | none => rfl
      | some f => exact (h.spent hash i f ho hf).symm

end Wallet

end Beancash
