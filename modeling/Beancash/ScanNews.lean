import Beancash.WalletScan

namespace Beancash

variable {P : Params}

/-- No transaction spends from itself or from a later one, nor has the hash of a later one. -/
structure InOrder (P : Params) (xs : List (Block × Transaction)) : Prop where
  later : xs.Pairwise fun x y => P.txHash x.2 ≠ P.txHash y.2 ∧
    ∀ prevout ∈ x.2.prevouts, prevout.hash ≠ P.txHash y.2
  itself : ∀ x ∈ xs, ∀ prevout ∈ x.2.prevouts, prevout.hash ≠ P.txHash x.2

theorem InOrder.of_cons {x : Block × Transaction} {xs : List (Block × Transaction)}
    (h : InOrder P (x :: xs)) : InOrder P xs :=
  ⟨(List.pairwise_cons.mp h.later).2, fun y hy => h.itself y (List.mem_cons_of_mem x hy)⟩

/-- One of the outputs of a transaction spends this one. -/
def Transaction.SpendsFrom (tx : Transaction) (hash : Uint256) (i : ℕ) : Prop :=
  ∃ prevout ∈ tx.prevouts, prevout.hash = hash ∧ prevout.n.toNat = i

namespace Wallet

/-- An output of a transaction that the wallet has is its own. -/
def isOwn (w : Wallet) (hash : Uint256) (i : ℕ) : Bool :=
  (w.txOf hash).any fun tx => (tx.vout[i]?).any fun txout => w.isMine txout.scriptPubKey

theorem isSome_ownOutput (w : Wallet) (prevout : OutPoint) :
    (w.ownOutput prevout).isSome = w.isOwn prevout.hash prevout.n.toNat := by
  rw [Frame.ownOutput_eq, Option.isSome_bind]
  unfold isOwn
  congr 1
  funext tx
  cases tx.vout[prevout.n.toNat]? with
  | none => rfl
  | some txout =>
    rw [Option.any_some, Option.filter_some]
    split <;> rename_i h
    · exact h.symm
    · exact (Bool.not_eq_true _ ▸ h).symm

theorem spends_eq_true (w : Wallet) (tx : Transaction) (hash : Uint256) (i : ℕ) :
    w.spends tx hash i = true ↔ w.isOwn hash i = true ∧ tx.SpendsFrom hash i := by
  simp only [spends, List.any_eq_true, decide_eq_true_eq, isSome_ownOutput]
  constructor
  · rintro ⟨prevout, hmem, rfl, rfl, hown⟩
    exact ⟨hown, prevout, hmem, rfl, rfl⟩
  · rintro ⟨hown, prevout, hmem, rfl, rfl⟩
    exact ⟨prevout, hmem, rfl, rfl, hown⟩

theorem Grows.isOwn {w w' : Wallet} (h : Grows w w') {hash : Uint256} {i : ℕ}
    (ho : w.HasOutput hash i) : w'.isOwn hash i = w.isOwn hash i := by
  obtain ⟨tx, htx, _⟩ := ho
  unfold Wallet.isOwn
  rw [h.txOf _ _ htx, htx, h.isMine]

theorem Grows.hasOutput {w w' : Wallet} (h : Grows w w') {hash : Uint256} {i : ℕ}
    (ho : w.HasOutput hash i) : w'.HasOutput hash i := by
  obtain ⟨tx, htx, hi⟩ := ho
  exact ⟨tx, h.txOf _ _ htx, hi⟩

theorem isSpentAt_of_txOf {w : Wallet} {hash : Uint256} (h : w.txOf hash = none) (i : ℕ) :
    w.isSpentAt hash i = false := by
  unfold isSpentAt
  rw [Option.map_eq_none_iff.mp h]
  rfl

theorem knows_eq_false {w : Wallet} {tx : Transaction} :
    w.knows P tx = false ↔ w.txOf (P.txHash tx) = none := by
  rw [knows, Option.isSome_eq_false_iff, Option.isNone_iff_eq_none]

theorem isFromMe_congr {w w' : Wallet} {tx : Transaction} (hmine : w'.isMine = w.isMine)
    (h : ∀ prevout ∈ tx.prevouts, w'.txOf prevout.hash = w.txOf prevout.hash) :
    w'.isFromMe tx = w.isFromMe tx := by
  have hsum : ∀ prevouts : List OutPoint,
      (∀ prevout ∈ prevouts, w'.txOf prevout.hash = w.txOf prevout.hash) →
      ∀ nDebit, w'.sumDebit nDebit prevouts = w.sumDebit nDebit prevouts := by
    intro prevouts hprevouts
    induction prevouts with
    | nil => exact fun _ => rfl
    | cons prevout prevouts ih =>
      intro nDebit
      have hdebit : w'.debitOf prevout = w.debitOf prevout := by
        unfold debitOf
        rw [Frame.ownOutput_eq, Frame.ownOutput_eq, hprevouts prevout List.mem_cons_self, hmine]
      simp only [sumDebit, hdebit, ih fun p hp => hprevouts p (List.mem_cons_of_mem _ hp)]
  unfold isFromMe
  rw [hsum tx.prevouts h]

/-- The wallet with one more transaction. -/
def withTx (P : Params) (w : Wallet) (tx : Transaction) : Wallet :=
  { w with mapWallet := w.mapWallet.insert (P.txHash tx) (.ofTransaction tx) }

theorem txOf_withTx (w : Wallet) (tx : Transaction) (hash : Uint256) :
    (w.withTx P tx).txOf hash = if hash = P.txHash tx then some tx else w.txOf hash := by
  unfold withTx txOf
  split <;> rename_i hh
  · rw [hh, AList.lookup_insert]
    rfl
  · rw [AList.lookup_insert_ne hh]

theorem fFromMeOf_withTx (w : Wallet) (tx : Transaction) (hash : Uint256) :
    (w.withTx P tx).fFromMeOf hash =
      if hash = P.txHash tx then some false else w.fFromMeOf hash := by
  unfold withTx fFromMeOf
  split <;> rename_i hh
  · rw [hh, AList.lookup_insert]
    rfl
  · rw [AList.lookup_insert_ne hh]

end Wallet

/-- The transactions that a scan adds to a wallet: it lacks them, and they pay to it or spend
from what it has by then. -/
def newTxs (P : Params) : Wallet → List (Block × Transaction) → List (Block × Transaction)
  | _, [] => []
  | w, x :: xs =>
    if !w.knows P x.2 && (w.isMineTx x.2 || w.isFromMe x.2) then
      x :: newTxs P (w.withTx P x.2) xs
    else newTxs P w xs

/-- The transactions of a scan that mark what they spend: the wallet lacks them, and they are
not added without being written. -/
def markingTxs (P : Params) (fWritten : Block → Transaction → Bool) (w : Wallet)
    (xs : List (Block × Transaction)) : List (Block × Transaction) :=
  xs.filter fun x => !w.knows P x.2 && (decide (x ∉ newTxs P w xs) || fWritten x.1 x.2)

section News

variable {fWritten : Block → Transaction → Bool} {w : Wallet} {x : Block × Transaction}
  {xs : List (Block × Transaction)}

theorem adds_iff_eq_true : w.Adds P x.2 ↔
    (!w.knows P x.2 && (w.isMineTx x.2 || w.isFromMe x.2)) = true := by
  rw [Bool.and_eq_true, Bool.not_eq_true']
  rfl

theorem newTxs_cons_of_adds (h : w.Adds P x.2) :
    newTxs P w (x :: xs) = x :: newTxs P (w.withTx P x.2) xs :=
  if_pos (adds_iff_eq_true.mp h)

theorem newTxs_cons_of_not_adds (h : ¬w.Adds P x.2) :
    newTxs P w (x :: xs) = newTxs P w xs :=
  if_neg fun hc => h (adds_iff_eq_true.mpr hc)

theorem newTxs_sublist (w : Wallet) (xs : List (Block × Transaction)) :
    (newTxs P w xs).Sublist xs := by
  induction xs generalizing w with
  | nil => exact .slnil
  | cons x xs ih =>
    by_cases h : w.Adds P x.2
    · rw [newTxs_cons_of_adds h]
      exact (ih _).cons_cons x
    · rw [newTxs_cons_of_not_adds h]
      exact (ih w).cons x

theorem mem_markingTxs {y : Block × Transaction} : y ∈ markingTxs P fWritten w xs ↔
    y ∈ xs ∧ w.knows P y.2 = false ∧ (y ∈ newTxs P w xs → fWritten y.1 y.2 = true) := by
  rw [markingTxs, List.mem_filter, Bool.and_eq_true, Bool.not_eq_true', Bool.or_eq_true,
    decide_eq_true_eq, ← imp_iff_not_or]

namespace Wallet.Frame

variable {w' : Wallet}

theorem adds (h : Frame w w') (tx : Transaction) : w'.Adds P tx ↔ w.Adds P tx := by
  unfold Wallet.Adds
  rw [h.knows, h.isMineTx, h.isFromMe]

theorem withTx (h : Frame w w') (tx : Transaction) : Frame (w.withTx P tx) (w'.withTx P tx) where
  isMine := h.isMine
  nMinimumInputValue := h.nMinimumInputValue
  txOf := by
    funext hash
    rw [txOf_withTx, txOf_withTx, h.txOf]
  fFromMeOf := by
    funext hash
    rw [fFromMeOf_withTx, fFromMeOf_withTx, h.fFromMeOf]

theorem newTxs (h : Frame w w') (xs : List (Block × Transaction)) :
    newTxs P w' xs = newTxs P w xs := by
  induction xs generalizing w w' with
  | nil => rfl
  | cons x xs ih =>
    by_cases hadds : w.Adds P x.2
    · rw [newTxs_cons_of_adds hadds, newTxs_cons_of_adds ((h.adds x.2).mpr hadds),
        ih (h.withTx x.2)]
    · rw [newTxs_cons_of_not_adds hadds, newTxs_cons_of_not_adds (mt (h.adds x.2).mp hadds), ih h]

theorem markingTxs (h : Frame w w') (xs : List (Block × Transaction)) :
    markingTxs P fWritten w' xs = markingTxs P fWritten w xs := by
  simp only [Beancash.markingTxs, h.newTxs, h.knows]

end Wallet.Frame

/-- Which transactions the wallet has after a step of a scan. -/
def Wallet.afterNews (P : Params) (w : Wallet) (tx : Transaction) : Wallet :=
  if !w.knows P tx && (w.isMineTx tx || w.isFromMe tx) then w.withTx P tx else w

theorem frame_afterNews (s : WalletScan) :
    Wallet.Frame (s.wallet.afterNews P x.2) (scanTx P false fWritten s x).wallet := by
  unfold Wallet.afterNews
  by_cases hadds : s.wallet.Adds P x.2
  · rw [if_pos (adds_iff_eq_true.mp hadds)]
    have hin := @inserted_scanTx P fWritten s x hadds
    have hfrom := WalletTx.fromBlock_eq P x.1 x.2
    refine ⟨hin.isMine, hin.nMinimumInputValue, funext fun hash => ?_, funext fun hash => ?_⟩
    · rw [hin.txOf, hfrom.1, Wallet.txOf_withTx]
    · rw [hin.fFromMeOf, hfrom.1, hfrom.2.2.1, Wallet.fFromMeOf_withTx]
  · rw [if_neg (mt adds_iff_eq_true.mpr hadds)]
    exact frame_scanTx hadds

theorem newTxs_cons : newTxs P w (x :: xs) =
    (if !w.knows P x.2 && (w.isMineTx x.2 || w.isFromMe x.2) then [x] else []) ++
      newTxs P (w.afterNews P x.2) xs := by
  unfold Wallet.afterNews
  by_cases hadds : w.Adds P x.2
  · rw [newTxs_cons_of_adds hadds, if_pos (adds_iff_eq_true.mp hadds),
      if_pos (adds_iff_eq_true.mp hadds)]
    rfl
  · rw [newTxs_cons_of_not_adds hadds, if_neg (mt adds_iff_eq_true.mpr hadds),
      if_neg (mt adds_iff_eq_true.mpr hadds)]
    rfl

theorem knows_afterNews {tx tx' : Transaction} (hne : P.txHash tx ≠ P.txHash tx') :
    (w.afterNews P tx).knows P tx' = w.knows P tx' := by
  unfold Wallet.afterNews
  split
  · rw [Wallet.knows, Wallet.txOf_withTx, if_neg hne.symm]
    rfl
  · rfl

theorem mem_markingTxs_cons (h : InOrder P (x :: xs)) {y : Block × Transaction} :
    y ∈ markingTxs P fWritten w (x :: xs) ↔
      y = x ∧ w.knows P x.2 = false ∧ (w.Adds P x.2 → fWritten x.1 x.2 = true) ∨
      y ∈ markingTxs P fWritten (w.afterNews P x.2) xs := by
  have hlater := (List.pairwise_cons.mp h.later).1
  have hnot : x ∉ xs := fun hx => (hlater x hx).1 rfl
  have hnew : x ∈ newTxs P w (x :: xs) ↔ w.Adds P x.2 := by
    by_cases hadds : w.Adds P x.2
    · simp [newTxs_cons_of_adds, hadds]
    · simp only [newTxs_cons_of_not_adds hadds, hadds, iff_false]
      exact fun hx => hnot ((newTxs_sublist _ xs).subset hx)
  rw [mem_markingTxs, mem_markingTxs, List.mem_cons, or_and_right]
  refine or_congr ⟨?_, ?_⟩ ?_
  · rintro ⟨rfl, hunknown, hwritten⟩
    exact ⟨rfl, hunknown, fun hadds => hwritten (hnew.mpr hadds)⟩
  · rintro ⟨rfl, hunknown, hwritten⟩
    exact ⟨rfl, hunknown, fun hmem => hwritten (hnew.mp hmem)⟩
  · refine and_congr_right fun hy => ?_
    have hne : y ≠ x := by
      rintro rfl
      exact hnot hy
    have hmem : y ∈ newTxs P w (x :: xs) ↔ y ∈ newTxs P (w.afterNews P x.2) xs := by
      rw [newTxs_cons, List.mem_append]
      split <;> simp [hne]
    rw [knows_afterNews (hlater y hy).1, hmem]

theorem updateSpentWord_of_not {fBlock : Bool} {tx : Transaction} {hash : Uint256} (i : ℕ)
    (h : ¬(fBlock = true ∧ P.txHash tx = hash)) : w.updateSpentWord P tx fBlock hash i =
      if w.spends tx hash i then some true else none :=
  if_neg fun hc => h ⟨hc.1, hc.2.1⟩

/-- A transaction marks what it spends when a scan comes to it. -/
def Marks (P : Params) (fWritten : Block → Transaction → Bool) (w : Wallet)
    (x : Block × Transaction) : Prop :=
  w.knows P x.2 = false ∧ (w.Adds P x.2 → fWritten x.1 x.2 = true)

theorem isSpentAt_scanTx {s : WalletScan} (h : ∀ prevout ∈ x.2.prevouts,
      prevout.hash ≠ P.txHash x.2) {hash : Uint256} {i : ℕ}
    (ho : (scanTx P false fWritten s x).wallet.HasOutput hash i) :
    (scanTx P false fWritten s x).wallet.isSpentAt hash i = true ↔
      s.wallet.isSpentAt hash i = true ∨ Marks P fWritten s.wallet x ∧
        (scanTx P false fWritten s x).wallet.isOwn hash i = true ∧ x.2.SpendsFrom hash i := by
  rw [← Wallet.spends_eq_true]
  unfold Marks
  by_cases hadds : s.wallet.Adds P x.2
  · have hin := @inserted_scanTx P fWritten s x hadds
    have hfrom := WalletTx.fromBlock_eq P x.1 x.2
    have hspent := hin.isSpentAt hash i ho
    rw [hfrom.1] at hspent
    simp only [hadds, hadds.1, true_and, true_implies]
    by_cases hhash : hash = P.txHash x.2
    · -- it does not spend from itself, and its own outputs are not marked
      have hnot : (scanTx P false fWritten s x).wallet.spends x.2 hash i = false := by
        rw [← Bool.not_eq_true, Wallet.spends_eq_true]
        rintro ⟨_, prevout, hmem, heq, _⟩
        exact h prevout hmem (heq.trans hhash)
      have hold : s.wallet.isSpentAt hash i = false :=
        Wallet.isSpentAt_of_txOf (hhash ▸ Wallet.knows_eq_false.mp hadds.1) i
      rw [if_pos hhash, WalletTx.isSpent, hfrom.2.2.2, List.getD_nil] at hspent
      rw [hspent, hnot, hold]
      unfold Wallet.updateSpentWord
      rw [hnot, if_neg Bool.false_ne_true]
      split_ifs <;> simp
    · rw [if_neg hhash, updateSpentWord_of_not i fun hc => hhash hc.2.symm] at hspent
      rw [hspent]
      split_ifs <;> simp [*]
  · simp only [hadds, false_implies, and_true]
    rw [wallet_scanTx] at ho ⊢
    cases hk : s.wallet.knows P x.2 with
    | true => simp
    | false =>
      rw [hk, if_neg Bool.false_ne_true] at ho
      have hheard := Wallet.heard_hear (not_not.mp fun hnews =>
        hadds ((adds_iff s.wallet x.1 x.2 (fWritten x.1 x.2)).mpr hnews))
      have hheeds : s.wallet.heeds P ⟨x.1, x.2, true, fWritten x.1 x.2⟩ [] = true := by
        rw [Wallet.heeds, hk, Bool.not_false, Bool.or_true, Bool.true_or]
      rw [if_neg Bool.false_ne_true, hheard.isSpentAt hash i ((hheard.frame.hasOutput hash i).mp ho),
        hheeds, if_pos rfl, Wallet.word, if_pos rfl, hk, Bool.false_and,
        Wallet.knows_eq_false.mp hk, Option.getD_none, updateSpentWord_of_not i (by simp),
        hheard.frame.spends]
      split_ifs <;> simp [*]

/-- What a scan makes of a wallet. -/
structure Scanned (P : Params) (fWritten : Block → Transaction → Bool)
    (xs : List (Block × Transaction)) (w w' : Wallet) : Prop where
  grows : Wallet.Grows w w'
  txOf : ∀ hash tx, w'.txOf hash = some tx ↔
    w.txOf hash = some tx ∨ ∃ x ∈ newTxs P w xs, P.txHash x.2 = hash ∧ x.2 = tx
  isSpentAt : ∀ hash i, w'.HasOutput hash i → (w'.isSpentAt hash i = true ↔
    w.isSpentAt hash i = true ∨ w'.isOwn hash i = true ∧
      ∃ x ∈ markingTxs P fWritten w xs, x.2.SpendsFrom hash i)

theorem txOf_afterNews {tx : Transaction} {hash : Uint256} {tx' : Transaction} :
    (w.afterNews P tx).txOf hash = some tx' ↔ w.txOf hash = some tx' ∨
      (!w.knows P tx && (w.isMineTx tx || w.isFromMe tx)) = true ∧
        P.txHash tx = hash ∧ tx = tx' := by
  unfold Wallet.afterNews
  by_cases hc : (!w.knows P tx && (w.isMineTx tx || w.isFromMe tx)) = true
  · have hunknown : w.txOf (P.txHash tx) = none := by
      rw [Bool.and_eq_true, Bool.not_eq_true'] at hc
      exact Wallet.knows_eq_false.mp hc.1
    rw [if_pos hc, Wallet.txOf_withTx]
    by_cases hh : hash = P.txHash tx
    · simp [hh, hunknown, hc]
    · simp [hh, Ne.symm hh]
  · simp [hc]

theorem txOf_afterNews_or {hash : Uint256} {tx : Transaction} :
    ((w.afterNews P x.2).txOf hash = some tx ∨
      ∃ y ∈ newTxs P (w.afterNews P x.2) xs, P.txHash y.2 = hash ∧ y.2 = tx) ↔
    w.txOf hash = some tx ∨ ∃ y ∈ newTxs P w (x :: xs), P.txHash y.2 = hash ∧ y.2 = tx := by
  rw [txOf_afterNews, newTxs_cons, or_assoc]
  refine or_congr_right ?_
  simp only [List.mem_append, or_and_right, exists_or]
  refine or_congr_left ?_
  split <;> rename_i hc <;> simp [hc]

theorem knows_of_mem_newTxs {y : Block × Transaction} (h : y ∈ newTxs P w xs) :
    w.knows P y.2 = false := by
  induction xs generalizing w with
  | nil => cases h
  | cons x xs ih =>
    rw [newTxs_cons, List.mem_append] at h
    rcases h with h | h
    · split at h <;> rename_i hc
      · obtain rfl := List.mem_singleton.mp h
        exact (adds_iff_eq_true.mpr hc).1
      · cases h
    · have hafter := ih h
      rw [Wallet.knows_eq_false, Option.eq_none_iff_forall_ne_some] at hafter ⊢
      exact fun tx htx => hafter tx (txOf_afterNews.mpr (Or.inl htx))

theorem scanned_foldl {s : WalletScan} (h : InOrder P xs) :
    Scanned P fWritten xs s.wallet (xs.foldl (scanTx P false fWritten) s).wallet := by
  induction xs generalizing s with
  | nil => exact ⟨Wallet.Frame.rfl.grows, by simp [newTxs], by simp [markingTxs]⟩
  | cons x xs ih =>
    rw [List.foldl_cons]
    have hrest := ih (s := scanTx P false fWritten s x) h.of_cons
    have hframe := @frame_afterNews P fWritten x s
    have hgrows := (@grows_scanTx P fWritten s x).trans hrest.grows
    refine ⟨hgrows, fun hash tx => ?_, fun hash i ho => ?_⟩
    · rw [hrest.txOf, hframe.newTxs, hframe.txOf, txOf_afterNews_or]
    · rw [hrest.isSpentAt hash i ho, hframe.markingTxs]
      simp only [mem_markingTxs_cons h, or_and_right, exists_or, and_assoc, exists_eq_left]
      obtain ⟨tx, htx, hi⟩ := ho
      by_cases hold : (scanTx P false fWritten s x).wallet.txOf hash = some tx
      · have ho₁ : (scanTx P false fWritten s x).wallet.HasOutput hash i := ⟨tx, hold, hi⟩
        rw [isSpentAt_scanTx (h.itself x List.mem_cons_self) ho₁, hrest.grows.isOwn ho₁, or_assoc]
        unfold Marks
        tauto
      · -- what is added later the wallet had not heard of, and `x` does not spend from it
        obtain ⟨y, hy, rfl, rfl⟩ := ((hrest.txOf hash tx).mp htx).resolve_left hold
        have hnone : ∀ v, Wallet.Grows v (xs.foldl (scanTx P false fWritten)
            (scanTx P false fWritten s x)).wallet → v.txOf (P.txHash y.2) ≠ some y.2 →
              v.isSpentAt (P.txHash y.2) i = false := by
          intro v hv hne
          apply Wallet.isSpentAt_of_txOf
          refine Option.eq_none_iff_forall_ne_some.mpr fun tx htx' => hne ?_
          rw [htx', ← hv.txOf _ _ htx', htx]
        have hlater := (List.pairwise_cons.mp h.later).1 y ((newTxs_sublist _ xs).subset hy)
        have hnot : ¬x.2.SpendsFrom (P.txHash y.2) i := by
          rintro ⟨prevout, hmem, heq, _⟩
          exact hlater.2 prevout hmem heq
        rw [hnone _ hrest.grows hold, hnone _ hgrows fun hs =>
          hold ((grows_scanTx s x).txOf _ _ hs)]
        simp [hnot]

theorem ret_foldl_scanTx (s : WalletScan) : (xs.foldl (scanTx P false fWritten) s).ret =
    s.ret + (newTxs P s.wallet xs).countP fun x => fWritten x.1 x.2 := by
  induction xs generalizing s with
  | nil => rfl
  | cons x xs ih =>
    rw [List.foldl_cons, ih, ret_scanTx, (frame_afterNews s).newTxs, newTxs_cons,
      List.countP_append, ← Nat.add_assoc]
    congr 1
    cases (!s.wallet.knows P x.2 && (s.wallet.isMineTx x.2 || s.wallet.isFromMe x.2)) with
    | true => cases hwritten : fWritten x.1 x.2 <;> simp [hwritten]
    | false => rfl

theorem newTxs_eq_nil {v : Wallet} (h : InOrder P xs) (hmine : v.isMine = w.isMine)
    (hmin : v.nMinimumInputValue = w.nMinimumInputValue)
    (htxOf : ∀ hash tx, v.txOf hash = some tx ↔
      w.txOf hash = some tx ∨ ∃ x ∈ newTxs P w xs, P.txHash x.2 = hash ∧ x.2 = tx) :
    newTxs P v xs = [] := by
  induction xs generalizing w with
  | nil => rfl
  | cons x xs ih =>
    have hnot : ¬v.Adds P x.2 := by
      rintro ⟨hunknown, hconcerns⟩
      rw [Wallet.knows_eq_false, Option.eq_none_iff_forall_ne_some] at hunknown
      have hw : w.knows P x.2 = false := by
        rw [Wallet.knows_eq_false, Option.eq_none_iff_forall_ne_some]
        exact fun tx htx => hunknown tx ((htxOf _ tx).mpr (Or.inl htx))
      have hmineTx : v.isMineTx x.2 = w.isMineTx x.2 := by
        unfold Wallet.isMineTx
        rw [hmine, hmin]
      -- of its inputs, which come before it, both wallets have the same
      have hfromMe : v.isFromMe x.2 = w.isFromMe x.2 := by
        refine Wallet.isFromMe_congr hmine fun prevout hprevout => Option.ext fun tx => ?_
        rw [htxOf, or_iff_left]
        rintro ⟨y, hy, hhash, _⟩
        rcases List.mem_cons.mp ((newTxs_sublist _ _).subset hy) with rfl | hy
        · exact h.itself y List.mem_cons_self prevout hprevout hhash.symm
        · exact ((List.pairwise_cons.mp h.later).1 y hy).2 prevout hprevout hhash.symm
      have hadds : w.Adds P x.2 := ⟨hw, by rw [← hmineTx, ← hfromMe]; exact hconcerns⟩
      refine hunknown x.2 ((htxOf _ _).mpr (Or.inr ⟨x, ?_, rfl, rfl⟩))
      rw [newTxs_cons_of_adds hadds]
      exact List.mem_cons_self
    rw [newTxs_cons_of_not_adds hnot]
    refine ih (w := w.afterNews P x.2) h.of_cons ?_ ?_ fun hash tx => ?_
    · unfold Wallet.afterNews
      split <;> exact hmine
    · unfold Wallet.afterNews
      split <;> exact hmin
    · rw [htxOf, txOf_afterNews_or]

theorem Scanned.mem_markingTxs {w' : Wallet} {fWritten' : Block → Transaction → Bool}
    (h : Scanned P fWritten xs w w') {y : Block × Transaction}
    (hy : y ∈ markingTxs P fWritten' w' xs) : y ∈ markingTxs P fWritten w xs := by
  rw [Beancash.mem_markingTxs] at hy ⊢
  obtain ⟨hmem, hunknown, _⟩ := hy
  refine ⟨hmem, ?_, fun hnew => ?_⟩
  · rw [← Bool.not_eq_true] at hunknown ⊢
    exact fun hknown => hunknown (h.grows.knows hknown)
  · rw [Wallet.knows_eq_false, (h.txOf _ y.2).mpr (Or.inr ⟨y, hnew, rfl, rfl⟩)] at hunknown
    cases hunknown

end News

end Beancash
