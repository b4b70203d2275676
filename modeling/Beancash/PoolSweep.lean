import Beancash.PoolConflicts

namespace Beancash

namespace TxMemPool

variable {P : Params} {S : Set Transaction}

/-- What `accept` asks of a transaction for which it need not check the inputs. -/
def admits (P : Params) (pool : TxMemPool) (tx : Transaction) : Bool :=
  AcceptView.acceptFirst P
    ⟨⟨fun _ => none, fun _ => none, fun _ => none, 0⟩, fun _ => false, [], false⟩ pool tx false

theorem acceptFirst_unchecked (v : AcceptView) (pool : TxMemPool) (tx : Transaction) :
    v.acceptFirst P pool tx false = pool.admits P tx := by
  simp only [admits, AcceptView.acceptFirst, Bool.false_and]

/-- What a transaction is like that `accept` takes, whether or not it checks the inputs. -/
structure Sane (tx : Transaction) : Prop where
  checked : tx.checkTransaction = true
  noBase : tx.isBeanBase = false

theorem sane_of_acceptFirst {v : AcceptView} {pool : TxMemPool} {tx : Transaction}
    {fCheckInputs : Bool} (h : v.acceptFirst P pool tx fCheckInputs = true) : Sane tx := by
  simp only [AcceptView.acceptFirst, Bool.and_eq_true, Bool.not_eq_true'] at h
  exact ⟨h.1.1.1.1.1.1.1, h.1.1.1.1.1.1.2⟩

theorem Sane.spends {tx : Transaction} (h : Sane tx) : tx.spends = tx.prevouts := by
  rw [Transaction.spends, h.noBase, if_neg Bool.false_ne_true]

theorem Sane.not_isNull {tx : Transaction} (h : Sane tx) : ∀ o ∈ tx.prevouts, o.isNull = false := by
  have hcheck := h.checked
  simp only [Transaction.checkTransaction, h.noBase, Bool.false_eq_true, if_false,
    Bool.and_eq_true, List.all_eq_true, Bool.not_eq_true'] at hcheck
  exact hcheck.2

theorem Sane.mem_spends {tx tx' : Transaction} (h : Sane tx) {o : OutPoint} (ho : o ∈ tx.prevouts)
    (ho' : o ∈ tx'.prevouts) : o ∈ tx'.spends := by
  unfold Transaction.spends
  by_cases hbase : tx'.isBeanBase = true
  · have hnull : o.isNull = true := by
      unfold Transaction.isBeanBase at hbase
      split at hbase
      · rename_i txin hvin
        rw [Transaction.prevouts, hvin, List.map_singleton, List.mem_singleton] at ho'
        simp only [Bool.and_eq_true] at hbase
        exact ho' ▸ hbase.1
      · cases hbase
    rw [h.not_isNull o ho] at hnull
    cases hnull
  · rw [if_neg hbase]
    exact ho'

theorem contains_accept_unchecked (v : AcceptView) {pool : TxMemPool} {tx u : Transaction} :
    Contains P (v.accept P pool tx false).2.2 u ↔
      Contains P pool u ∨ u = tx ∧ pool.admits P tx = true := by
  unfold AcceptView.accept
  rw [acceptFirst_unchecked]
  cases hadm : pool.admits P tx with
  | false => simp
  | true =>
    simp only [Bool.not_true, Bool.false_eq_true, if_false, and_true]
    constructor
    · exact contains_addUnchecked
    · have hnew : pool.lookup (P.txHash tx) = none := by
        simp only [admits, AcceptView.acceptFirst, Bool.and_eq_true,
          Option.isNone_iff_eq_none] at hadm
        exact hadm.1.1.2
      rintro (hu | rfl)
      · have hne : P.txHash u ≠ P.txHash tx := by
          intro he
          rw [Contains, he, show pool.mapTx.lookup (P.txHash tx) = none from hnew] at hu
          cases hu
        exact (AList.lookup_insert_ne hne).trans hu
      · exact AList.lookup_insert _

/-- Adding a transaction that has another hash and other inputs does not bear on what `accept`
asks of the pool. -/
theorem admits_accept (v : AcceptView) {pool : TxMemPool} {tx u : Transaction}
    (hhash : P.txHash u ≠ P.txHash tx) (hdisj : ∀ o ∈ u.prevouts, o ∉ tx.prevouts) :
    (v.accept P pool tx false).2.2.admits P u = pool.admits P u := by
  unfold AcceptView.accept
  rw [acceptFirst_unchecked]
  cases pool.admits P tx with
  | false => rfl
  | true =>
    have hlookup : (pool.addUnchecked (P.txHash tx) tx).lookup (P.txHash u) =
        pool.lookup (P.txHash u) := AList.lookup_insert_ne hhash
    have hnext : u.prevouts.all (fun o =>
          ((pool.addUnchecked (P.txHash tx) tx).mapNextTx.lookup o).isNone) =
        u.prevouts.all fun o => (pool.mapNextTx.lookup o).isNone := by
      rw [Bool.eq_iff_iff, List.all_eq_true, List.all_eq_true]
      refine forall₂_congr fun o ho => ?_
      rw [addUnchecked, lookup_addInputs_of_notMem (hdisj o ho)]
    simp only [Bool.not_true, Bool.false_eq_true, if_false, admits, AcceptView.acceptFirst, hlookup,
      hnext]

/-- Transactions that differ have different hashes and no input in common. -/
def Separate (P : Params) (txs : List Transaction) : Prop :=
  ∀ a ∈ txs, ∀ b ∈ txs, a ≠ b → P.txHash a ≠ P.txHash b ∧ ∀ o ∈ a.prevouts, o ∉ b.prevouts

theorem contains_foldl_accept (v : AcceptView) {pool : TxMemPool} {txs : List Transaction}
    (hsep : Separate P txs) (u : Transaction) :
    Contains P (txs.foldl (fun pool tx => (v.accept P pool tx false).2.2) pool) u ↔
      Contains P pool u ∨ u ∈ txs ∧ pool.admits P u = true := by
  induction txs generalizing pool with
  | nil => simp
  | cons tx txs ih =>
    rw [List.foldl_cons, ih fun a ha b hb =>
      hsep a (List.mem_cons_of_mem _ ha) b (List.mem_cons_of_mem _ hb), contains_accept_unchecked]
    by_cases hu : u = tx
    · subst hu
      constructor
      · rintro ((hu | ⟨-, hadm⟩) | ⟨hmem, hadm⟩)
        · exact Or.inl hu
        · exact Or.inr ⟨List.mem_cons_self, hadm⟩
        · by_cases hadm' : pool.admits P u = true
          · exact Or.inr ⟨List.mem_cons_self, hadm'⟩
          · -- it was refused, so that the pool is the same
            rw [AcceptView.accept, acceptFirst_unchecked, Bool.not_eq_true _ |>.mp hadm'] at hadm
            exact absurd hadm hadm'
      · rintro (hu | ⟨-, hadm⟩)
        · exact Or.inl (Or.inl hu)
        · exact Or.inl (Or.inr ⟨rfl, hadm⟩)
    · simp only [hu, false_and, or_false, List.mem_cons, false_or]
      refine or_congr_right (and_congr_right fun hmem => ?_)
      obtain ⟨hhash, hdisj⟩ := hsep u (List.mem_cons_of_mem _ hmem) tx List.mem_cons_self hu
      rw [admits_accept v hhash hdisj]

theorem Descends.of_removes {pool pool' : TxMemPool} {R : Transaction → Prop}
    (hR : Removes P pool pool' R) (hclosed : ∀ w w', R w → Child P pool w w' → R w')
    {c u : Transaction} (h : Descends P pool c u) (hu : ¬R u) : Descends P pool' c u := by
  induction h with
  | refl => exact .refl
  | tail _ hchild ih =>
    exact (ih fun hw => hu (hclosed _ _ hw hchild)).tail
      ⟨hR.contains_iff.mpr ⟨hchild.1, hu⟩, hchild.2⟩

theorem WellFormed.removes_removeConflicts {pool : TxMemPool} (h : WellFormed P S pool)
    (hS : HashFree P S) (tx : Transaction) :
    Removes P pool (pool.removeConflicts P tx) fun u => ∃ c, Contains P pool c ∧ c ≠ tx ∧
      (∃ o ∈ tx.prevouts, o ∈ c.prevouts) ∧ Descends P pool c u := by
  unfold TxMemPool.removeConflicts
  generalize tx.prevouts = prevouts
  induction prevouts generalizing pool with
  | nil =>
    refine ⟨h.invariant, fun hash u => ?_⟩
    simp
  | cons o prevouts ih =>
    rw [List.foldl_cons]
    have hrest : (∀ c, Contains P pool c → c ≠ tx → o ∉ c.prevouts) →
        Removes P pool (prevouts.foldl (removeSpender fun pool txConflict =>
          if txConflict ≠ tx then pool.remove P txConflict true else pool) pool) fun u =>
          ∃ c, Contains P pool c ∧ c ≠ tx ∧ (∃ o' ∈ o :: prevouts, o' ∈ c.prevouts) ∧
            Descends P pool c u := by
      intro hfree
      refine ⟨(ih h).invariant, fun hash u => ?_⟩
      rw [(ih h).lookup]
      refine and_congr_right fun _ => not_congr (exists_congr fun c => and_congr_right fun hc =>
        and_congr_right fun hne => and_congr_left fun _ => ?_)
      simp [hfree c hc hne]
    cases hnext : pool.spenderOf o with
    | none =>
      simp only [removeSpender, hnext]
      refine hrest fun c hc _ ho => ?_
      rw [h.invariant.spenderOf_eq_some.mpr ⟨hc, ho⟩] at hnext
      cases hnext
    | some c =>
      obtain ⟨hc, hoc⟩ := h.invariant.spenderOf_eq_some.mp hnext
      simp only [removeSpender, hnext]
      by_cases hne : c = tx
      · rw [if_neg (not_not.mpr hne)]
        exact hrest fun c' hc' hne' ho =>
          hne' ((h.invariant.eq_of_mem_prevouts hc' hc ho hoc).trans hne)
      · rw [if_pos hne]
        have hR : Removes P pool (pool.remove P c true) (Descends P pool c) :=
          h.removes_remove hS hc true
        have hsub : ∀ u, Contains P (pool.remove P c true) u → Contains P pool u := fun u hu =>
          (hR.contains_iff.mp hu).1
        have hrest' := ih (h.removes hR)
        refine ⟨hrest'.invariant, fun hash u => ?_⟩
        rw [hrest'.lookup, hR.lookup, and_assoc, ← not_or]
        refine and_congr_right fun _ => not_congr ⟨?_, ?_⟩
        · rintro (hu | ⟨c', hc', hne', ⟨o', ho', hoc'⟩, hu⟩)
          · exact ⟨c, hc, hne, ⟨o, List.mem_cons_self, hoc⟩, hu⟩
          · exact ⟨c', hsub c' hc', hne', ⟨o', List.mem_cons_of_mem _ ho', hoc'⟩, hu.mono hsub⟩
        · rintro ⟨c', hc', hne', ⟨o', ho', hoc'⟩, hu⟩
          by_cases hdesc : Descends P pool c u
          · exact Or.inl hdesc
          · have hout : ¬Descends P pool c c' := fun hcc' => hdesc (hcc'.trans hu)
            rcases List.mem_cons.mp ho' with rfl | ho'
            · obtain rfl := h.invariant.eq_of_mem_prevouts hc hc' hoc hoc'
              exact absurd hu hdesc
            · exact Or.inr ⟨c', hR.contains_iff.mpr ⟨hc', hout⟩, hne', ⟨o', ho', hoc'⟩,
                hu.of_removes hR (fun w w' hw hchild => hw.tail hchild) hdesc⟩

/-- `c` is none of the transactions and has an input in common with one of them. -/
def ConflictsWith (txs : List Transaction) (c : Transaction) : Prop :=
  c ∉ txs ∧ ∃ tx ∈ txs, ∃ o ∈ tx.prevouts, o ∈ c.prevouts

/-- `u` descends, among the transactions of `A`, from one that conflicts with `txs`. -/
def Swept (P : Params) (A : Transaction → Prop) (txs : List Transaction) (u : Transaction) : Prop :=
  ∃ c, A c ∧ ConflictsWith txs c ∧
    Relation.ReflTransGen (fun u u' => A u' ∧ SpendsOutputOf P u u') c u

/-- The transactions of a branch stand apart from what conflicts with them in the pool: they do
not conflict with each other, nor descend from a conflict. -/
structure Apart (P : Params) (A : Transaction → Prop) (txs : List Transaction) : Prop where
  disjoint : ∀ tx ∈ txs, A tx → ∀ tx' ∈ txs, tx ≠ tx' → ∀ o ∈ tx'.prevouts, o ∉ tx.prevouts
  not_swept : ∀ tx ∈ txs, ¬Swept P A txs tx

theorem swept_iff {pool : TxMemPool} {txs : List Transaction} {u : Transaction} :
    Swept P (Contains P pool) txs u ↔
      ∃ c, Contains P pool c ∧ ConflictsWith txs c ∧ Descends P pool c u := Iff.rfl

/-- Of the transactions of the pool, removing one that does not descend from `c` leaves all that
descend from `c`, if it is not on the way to them either. -/
theorem Descends.of_remove {pool pool' : TxMemPool} {t : Transaction}
    (hR : Removes P pool pool' fun u => u = t) {c u : Transaction} (h : Descends P pool c u)
    (ht : ¬Descends P pool c t) : Descends P pool' c u := by
  induction h with
  | refl => exact .refl
  | tail hw hchild ih =>
    refine ih.tail ⟨hR.contains_iff.mpr ⟨hchild.1, ?_⟩, hchild.2⟩
    rintro rfl
    exact ht (hw.tail hchild)

theorem WellFormed.removes_remove_of_mem {pool : TxMemPool} (h : WellFormed P S pool)
    (hS : HashFree P S) {t : Transaction} (ht : t ∈ S) :
    Removes P pool (pool.remove P t false) fun u => u = t := by
  by_cases hsome : (pool.lookup (P.txHash t)).isSome = true
  · simpa using h.removes_remove hS (h.contains_of_isSome hS ht hsome) false
  · rw [remove_of_isNone false hsome]
    refine ⟨h.invariant, fun hash u => ⟨fun hu => ⟨hu, ?_⟩, fun hu => hu.1⟩⟩
    rintro rfl
    rw [lookup, h.invariant.contains hu] at hsome
    exact hsome rfl

theorem WellFormed.contains_delete {pool : TxMemPool} (h : WellFormed P S pool)
    (hS : HashFree P S) {t : Transaction} (ht : t ∈ S) :
    let pool' := (pool.remove P t false).removeConflicts P t
    WellFormed P S pool' ∧ ∃ R : Transaction → Prop,
      Removes P (pool.remove P t false) pool' R ∧
      (∀ w w', R w → Child P (pool.remove P t false) w w' → R w') ∧
      ∀ u, R u ↔ ∃ c, Contains P pool c ∧ c ≠ t ∧ (∃ o ∈ t.prevouts, o ∈ c.prevouts) ∧
        Descends P (pool.remove P t false) c u := by
  have hrem := h.remove hS ht false
  have hR := hrem.removes_removeConflicts hS t
  refine ⟨hrem.removes hR, _, hR, ?_, fun u => ?_⟩
  · rintro w w' ⟨c, hc, hne, hshare, hw⟩ hchild
    exact ⟨c, hc, hne, hshare, hw.tail hchild⟩
  · refine exists_congr fun c => ?_
    rw [h.contains_remove hS ht, and_assoc]
    exact and_congr_right fun _ => ⟨fun hc => hc.2, fun hc => ⟨hc.1, hc⟩⟩

/-- The loop over the new branch removes exactly its transactions and what descends from a
conflict with them. -/
theorem WellFormed.contains_foldl_delete {pool : TxMemPool} (h : WellFormed P S pool)
    (hS : HashFree P S) {txs : List Transaction} (htxs : ∀ tx ∈ txs, tx ∈ S)
    (hapart : Apart P (Contains P pool) txs) (u : Transaction) :
    Contains P (txs.foldl (fun pool tx => (pool.remove P tx false).removeConflicts P tx) pool) u ↔
      Contains P pool u ∧ u ∉ txs ∧ ¬Swept P (Contains P pool) txs u := by
  induction txs generalizing pool with
  | nil =>
    refine ⟨fun hu => ⟨hu, List.not_mem_nil, ?_⟩, fun hu => hu.1⟩
    rintro ⟨c, _, ⟨_, tx, htx, _⟩, _⟩
    cases htx
  | cons t txs ih =>
    have ht := htxs t List.mem_cons_self
    obtain ⟨hw, R, hR, hclosed, hRiff⟩ := h.contains_delete hS ht
    have hremove := fun u => h.contains_remove hS ht (u := u)
    have hmono : ∀ u, Contains P (pool.remove P t false) u → Contains P pool u := fun u hu =>
      ((hremove u).mp hu).1
    have hmono' : ∀ u, Contains P ((pool.remove P t false).removeConflicts P t) u →
        Contains P pool u := fun u hu => hmono u (hR.contains_iff.mp hu).1
    -- no conflict with the rest of the branch is lost
    have hkeep : ∀ c, Contains P ((pool.remove P t false).removeConflicts P t) c →
        ConflictsWith txs c → ConflictsWith (t :: txs) c := by
      rintro c hc ⟨hout, tx, htx, hshare⟩
      refine ⟨?_, tx, List.mem_cons_of_mem _ htx, hshare⟩
      rw [List.mem_cons, not_or]
      exact ⟨((hremove c).mp (hR.contains_iff.mp hc).1).2, hout⟩
    have hapart' : Apart P (Contains P ((pool.remove P t false).removeConflicts P t)) txs := by
      refine ⟨fun tx htx hc tx' htx' => hapart.disjoint tx (List.mem_cons_of_mem _ htx)
        (hmono' tx hc) tx' (List.mem_cons_of_mem _ htx'), ?_⟩
      rintro tx htx ⟨c, hc, hconf, hdesc⟩
      exact hapart.not_swept tx (List.mem_cons_of_mem _ htx) (swept_iff.mpr
        ⟨c, hmono' c hc, hkeep c hc hconf, Descends.mono hmono' hdesc⟩)
    rw [List.foldl_cons, ih hw (fun tx htx => htxs tx (List.mem_cons_of_mem _ htx)) hapart',
      hR.contains_iff, hremove, List.mem_cons, not_or]
    constructor
    · rintro ⟨⟨⟨hu, hut⟩, hnR⟩, hout, hns⟩
      refine ⟨hu, ⟨hut, hout⟩, fun hsw => ?_⟩
      obtain ⟨c, hc, ⟨hcout, tx, htx, hshare⟩, hdesc⟩ := swept_iff.mp hsw
      rw [List.mem_cons, not_or] at hcout
      -- `t` is not on the way from the conflict
      have hct : ¬Descends P pool c t := fun hct => hapart.not_swept t List.mem_cons_self
        (swept_iff.mpr ⟨c, hc, ⟨by simp [hcout], tx, htx, hshare⟩, hct⟩)
      have hdesc' := hdesc.of_remove (h.removes_remove_of_mem hS ht) hct
      rcases List.mem_cons.mp htx with rfl | htx
      · exact hnR ((hRiff u).mpr ⟨c, hc, hcout.1, hshare, hdesc'⟩)
      · have hcR : ¬R c := by
          intro hcR
          obtain ⟨c', hc', hne, hshare', hdesc''⟩ := (hRiff c).mp hcR
          exact hnR ((hRiff u).mpr ⟨c', hc', hne, hshare', hdesc''.trans hdesc'⟩)
        refine hns (swept_iff.mpr ⟨c, hR.contains_iff.mpr ⟨(hremove c).mpr ⟨hc, hcout.1⟩, hcR⟩,
          ⟨hcout.2, tx, htx, hshare⟩, hdesc'.of_removes hR hclosed hnR⟩)
    · rintro ⟨hu, ⟨hut, hout⟩, hns⟩
      refine ⟨⟨⟨hu, hut⟩, fun hRu => hns ?_⟩, hout, ?_⟩
      · obtain ⟨c, hc, hne, ⟨o, ho, hoc⟩, hdesc⟩ := (hRiff u).mp hRu
        refine swept_iff.mpr ⟨c, hc, ⟨fun hmem => ?_, t, List.mem_cons_self, o, ho, hoc⟩,
          hdesc.mono hmono⟩
        exact hapart.disjoint c hmem hc t List.mem_cons_self hne o ho hoc
      · rintro ⟨c, hc, hconf, hdesc⟩
        exact hns (swept_iff.mpr ⟨c, hmono' c hc, hkeep c hc hconf, Descends.mono hmono' hdesc⟩)

/-- What the pool holds once the old branch has been put back. -/
def Offered (P : Params) (pool : TxMemPool) (vtxOld : List Transaction) (u : Transaction) : Prop :=
  Contains P pool u ∨ u ∈ vtxOld ∧ pool.admits P u = true

/-- The transactions that `Reorganize` leaves in the pool, told from the pool before. -/
theorem WellFormed.contains_reorganized {pool : TxMemPool} (h : WellFormed P S pool)
    (hS : HashFree P S) {vResurrect vDelete : List Transaction} (hr : ∀ tx ∈ vResurrect, tx ∈ S)
    (hd : ∀ tx ∈ vDelete, tx ∈ S) (hsep : Separate P vResurrect)
    (hapart : Apart P (Offered P pool vResurrect) vDelete) (u : Transaction) :
    Contains P (pool.reorganized P vResurrect vDelete) u ↔
      Offered P pool vResurrect u ∧ u ∉ vDelete ∧
        ¬Swept P (Offered P pool vResurrect) vDelete u := by
  let v : AcceptView :=
    ⟨⟨fun _ => none, fun _ => none, fun _ => none, 0⟩, fun _ => false, [], false⟩
  obtain ⟨hw, _⟩ := foldl_accept h v hr
  have hset : Contains P (vResurrect.foldl (fun pool tx => (v.accept P pool tx false).2.2) pool) =
      Offered P pool vResurrect := funext fun u => propext (contains_foldl_accept v hsep u)
  rw [← hset] at hapart
  unfold TxMemPool.reorganized
  dsimp only
  rw [hw.contains_foldl_delete hS hd hapart, hset]

end TxMemPool

end Beancash
