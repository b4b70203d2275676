import Beancash.MemPool
import Mathlib.Data.Set.Card

namespace Beancash

/-- `tx'` spends an output that `tx` has. -/
def SpendsOutputOf (P : Params) (tx tx' : Transaction) : Prop :=
  ∃ o ∈ tx'.prevouts, o.hash = P.txHash tx ∧ o.n.toNat < tx.vout.length

/-- Transactions of `S` have different hashes, and none is, through whatever chain of spends,
among its own inputs. -/
structure HashFree (P : Params) (S : Set Transaction) : Prop where
  injOn : Set.InjOn P.txHash S
  acyclic : ∀ tx, ¬Relation.TransGen
    (fun u u' => u ∈ S ∧ u' ∈ S ∧ SpendsOutputOf P u u') tx tx

theorem HashFree.of_lt {P : Params} {S : Set Transaction} (r : Transaction → ℕ)
    (hinj : S.InjOn P.txHash)
    (hlt : ∀ u ∈ S, ∀ u' ∈ S, SpendsOutputOf P u u' → r u < r u') : HashFree P S := by
  refine ⟨hinj, fun tx htx => ?_⟩
  have hrank : ∀ {u u'}, Relation.TransGen
      (fun u u' => u ∈ S ∧ u' ∈ S ∧ SpendsOutputOf P u u') u u' → r u < r u' := by
    intro u u' h
    induction h with
    | single h => exact hlt _ h.1 _ h.2.1 h.2.2
    | tail _ h ih => exact ih.trans (hlt _ h.1 _ h.2.1 h.2.2)
  exact absurd (hrank htx) (lt_irrefl _)

namespace TxMemPool

variable {P : Params}

def Contains (P : Params) (pool : TxMemPool) (tx : Transaction) : Prop :=
  pool.mapTx.lookup (P.txHash tx) = some tx

structure Invariant (P : Params) (pool : TxMemPool) : Prop where
  hash : ∀ {h tx}, pool.mapTx.lookup h = some tx → P.txHash tx = h
  next : ∀ o inpoint, pool.mapNextTx.lookup o = some inpoint ↔
    ∃ tx, pool.mapTx.lookup inpoint.ptx = some tx ∧ tx.prevouts[inpoint.n]? = some o

theorem invariant_empty (P : Params) : Invariant P empty :=
  ⟨by simp [empty], by simp [empty]⟩

namespace Invariant

variable {pool : TxMemPool}

theorem contains (hinv : Invariant P pool) {h : Uint256} {tx : Transaction}
    (htx : pool.mapTx.lookup h = some tx) : Contains P pool tx := by
  unfold Contains
  rw [hinv.hash htx]
  exact htx

theorem exists_next (hinv : Invariant P pool) {tx : Transaction} (htx : Contains P pool tx)
    {o : OutPoint} (ho : o ∈ tx.prevouts) :
    ∃ i, tx.prevouts[i]? = some o ∧ pool.mapNextTx.lookup o = some ⟨P.txHash tx, i⟩ := by
  obtain ⟨i, hi⟩ := List.getElem?_of_mem ho
  exact ⟨i, hi, (hinv.next o ⟨P.txHash tx, i⟩).mpr ⟨tx, htx, hi⟩⟩

theorem spenderOf_eq_some (hinv : Invariant P pool) {o : OutPoint} {tx : Transaction} :
    pool.spenderOf o = some tx ↔ Contains P pool tx ∧ o ∈ tx.prevouts := by
  unfold spenderOf
  rw [Option.bind_eq_some_iff]
  constructor
  · rintro ⟨inpoint, hnext, htx⟩
    obtain ⟨tx', htx', hi⟩ := (hinv.next o inpoint).mp hnext
    obtain rfl : tx' = tx := Option.some_injective _ (htx'.symm.trans htx)
    exact ⟨hinv.contains htx, List.mem_of_getElem? hi⟩
  · rintro ⟨htx, ho⟩
    obtain ⟨i, _, hnext⟩ := hinv.exists_next htx ho
    exact ⟨_, hnext, htx⟩

theorem eq_of_mem_prevouts (hinv : Invariant P pool) {tx tx' : Transaction}
    (htx : Contains P pool tx) (htx' : Contains P pool tx') {o : OutPoint}
    (ho : o ∈ tx.prevouts) (ho' : o ∈ tx'.prevouts) : tx = tx' :=
  Option.some_injective _ ((hinv.spenderOf_eq_some.mpr ⟨htx, ho⟩).symm.trans
    (hinv.spenderOf_eq_some.mpr ⟨htx', ho'⟩))

end Invariant

theorem lookup_addInputs_of_notMem {hash : Uint256} {i : ℕ} {prevouts : List OutPoint}
    {m : AList fun _ : OutPoint => InPoint} {o : OutPoint} (h : o ∉ prevouts) :
    (addInputs hash i prevouts m).lookup o = m.lookup o := by
  induction prevouts generalizing i m with
  | nil => rfl
  | cons prevout prevouts ih =>
    simp only [List.mem_cons, not_or] at h
    simp only [addInputs]
    rw [ih h.2, AList.lookup_insert_ne h.1]

theorem lookup_addInputs_of_mem {hash : Uint256} {i j : ℕ} {prevouts : List OutPoint}
    {m : AList fun _ : OutPoint => InPoint} {o : OutPoint} (hnd : prevouts.Nodup)
    (h : prevouts[j]? = some o) :
    (addInputs hash i prevouts m).lookup o = some ⟨hash, i + j⟩ := by
  induction prevouts generalizing i j m with
  | nil => simp at h
  | cons prevout prevouts ih =>
    obtain ⟨hno, hnd⟩ := List.nodup_cons.mp hnd
    simp only [addInputs]
    cases j with
    | zero =>
      obtain rfl : prevout = o := by simpa using h
      rw [lookup_addInputs_of_notMem hno, AList.lookup_insert, Nat.add_zero]
    | succ j =>
      rw [ih hnd (by simpa using h)]
      congr 2
      omega

theorem Invariant.addUnchecked {pool : TxMemPool} (hinv : Invariant P pool) {tx : Transaction}
    (hnew : pool.mapTx.lookup (P.txHash tx) = none) (hnd : tx.prevouts.Nodup)
    (hfree : ∀ o ∈ tx.prevouts, pool.mapNextTx.lookup o = none) :
    Invariant P (pool.addUnchecked (P.txHash tx) tx) := by
  have hmap : ∀ h, (pool.mapTx.insert (P.txHash tx) tx).lookup h =
      if h = P.txHash tx then some tx else pool.mapTx.lookup h := by
    intro h
    by_cases he : h = P.txHash tx
    · rw [he, AList.lookup_insert, if_pos rfl]
    · rw [AList.lookup_insert_ne he, if_neg he]
  constructor
  · intro h tx' htx'
    simp only [TxMemPool.addUnchecked, hmap] at htx'
    split at htx'
    · rename_i he
      obtain rfl := Option.some_injective _ htx'
      exact he.symm
    · exact hinv.hash htx'
  · intro o inpoint
    simp only [TxMemPool.addUnchecked, hmap]
    by_cases ho : o ∈ tx.prevouts
    · obtain ⟨j, hj⟩ := List.getElem?_of_mem ho
      have hjlt : j < tx.prevouts.length := (List.getElem?_eq_some_iff.mp hj).1
      rw [lookup_addInputs_of_mem hnd hj, Nat.zero_add]
      constructor
      · intro he
        obtain rfl := Option.some_injective _ he
        exact ⟨tx, if_pos rfl, hj⟩
      · rintro ⟨tx', htx', hi⟩
        split at htx'
        · rename_i hp
          obtain rfl := Option.some_injective _ htx'
          have hij : j = inpoint.n := (List.getElem?_inj hjlt hnd).mp (hj.trans hi.symm)
          rw [hij, ← hp]
        · have hcontra := (hinv.next o inpoint).mpr ⟨tx', htx', hi⟩
          rw [hfree o ho] at hcontra
          cases hcontra
    · rw [lookup_addInputs_of_notMem ho, hinv.next]
      constructor
      · rintro ⟨tx', htx', hi⟩
        have hp : inpoint.ptx ≠ P.txHash tx := by
          intro hp
          rw [hp, hnew] at htx'
          cases htx'
        exact ⟨tx', by rw [if_neg hp]; exact htx', hi⟩
      · rintro ⟨tx', htx', hi⟩
        split at htx'
        · obtain rfl := Option.some_injective _ htx'
          exact absurd (List.mem_of_getElem? hi) ho
        · exact ⟨tx', htx', hi⟩

/-- `pool'` is `pool` without the transactions that satisfy `R`. -/
structure Removes (P : Params) (pool pool' : TxMemPool) (R : Transaction → Prop) : Prop where
  invariant : Invariant P pool'
  lookup : ∀ h tx, pool'.mapTx.lookup h = some tx ↔ pool.mapTx.lookup h = some tx ∧ ¬R tx

theorem Removes.contains_iff {pool pool' : TxMemPool} {R : Transaction → Prop}
    (h : Removes P pool pool' R) {tx : Transaction} :
    Contains P pool' tx ↔ Contains P pool tx ∧ ¬R tx := h.lookup _ _

theorem Removes.trans {pool pool' pool'' : TxMemPool} {R R' : Transaction → Prop}
    (h : Removes P pool pool' R) (h' : Removes P pool' pool'' R') :
    Removes P pool pool'' fun tx => R tx ∨ R' tx := by
  refine ⟨h'.invariant, fun hash tx => ?_⟩
  rw [h'.lookup, h.lookup, and_assoc, not_or]

theorem Invariant.removes_refl {pool : TxMemPool} (hinv : Invariant P pool) :
    Removes P pool pool fun _ => False := ⟨hinv, by simp⟩

theorem lookup_eraseAll {prevouts : List OutPoint} {m : AList fun _ : OutPoint => InPoint}
    {o : OutPoint} {inpoint : InPoint} :
    (prevouts.foldl (fun m prevout => m.erase prevout) m).lookup o = some inpoint ↔
      o ∉ prevouts ∧ m.lookup o = some inpoint := by
  induction prevouts generalizing m with
  | nil => simp
  | cons prevout prevouts ih =>
    rw [List.foldl_cons, ih]
    by_cases ho : o = prevout
    · subst ho
      simp
    · rw [AList.lookup_erase_ne ho]
      simp [ho]

theorem Invariant.removeEntry {pool : TxMemPool} (hinv : Invariant P pool) {tx : Transaction}
    (htx : Contains P pool tx) :
    Removes P pool (pool.removeEntry (P.txHash tx) tx) fun u => u = tx := by
  have hlookup : ∀ h u, (pool.removeEntry (P.txHash tx) tx).mapTx.lookup h = some u ↔
      pool.mapTx.lookup h = some u ∧ u ≠ tx := by
    intro h u
    by_cases he : h = P.txHash tx
    · subst he
      simp only [TxMemPool.removeEntry, AList.lookup_erase, reduceCtorEq, false_iff, not_and, not_not]
      exact fun hu => Option.some_injective _ (hu.symm.trans htx)
    · simp only [TxMemPool.removeEntry, AList.lookup_erase_ne he, iff_self_and]
      rintro hu rfl
      exact he (hinv.hash hu).symm
  refine ⟨⟨fun hu => hinv.hash ((hlookup _ _).mp hu).1, fun o inpoint => ?_⟩, hlookup⟩
  change (tx.prevouts.foldl (fun m prevout => m.erase prevout) pool.mapNextTx).lookup o = _ ↔ _
  rw [lookup_eraseAll, hinv.next]
  constructor
  · rintro ⟨ho, u, hu, hi⟩
    refine ⟨u, (hlookup _ _).mpr ⟨hu, ?_⟩, hi⟩
    rintro rfl
    exact ho (List.mem_of_getElem? hi)
  · rintro ⟨u, hu, hi⟩
    obtain ⟨hu, hne⟩ := (hlookup _ _).mp hu
    exact ⟨fun ho => hne (hinv.eq_of_mem_prevouts (hinv.contains hu) htx
      (List.mem_of_getElem? hi) ho), u, hu, hi⟩

/-- `u'` is in the pool and spends an output that `u` has. -/
def Child (P : Params) (pool : TxMemPool) (u u' : Transaction) : Prop :=
  Contains P pool u' ∧ SpendsOutputOf P u u'

/-- `u'` is `u`, or a chain of spends in the pool leads from `u` to it. -/
def Descends (P : Params) (pool : TxMemPool) : Transaction → Transaction → Prop :=
  Relation.ReflTransGen (Child P pool)

theorem Child.mono {pool pool' : TxMemPool} (hsub : ∀ u, Contains P pool' u → Contains P pool u)
    {u u' : Transaction} (h : Child P pool' u u') : Child P pool u u' := ⟨hsub u' h.1, h.2⟩

theorem Descends.mono {pool pool' : TxMemPool}
    (hsub : ∀ u, Contains P pool' u → Contains P pool u) {u u' : Transaction}
    (h : Descends P pool' u u') : Descends P pool u u' :=
  Relation.ReflTransGen.mono (fun _ _ hchild => Child.mono hsub hchild) _ _ h

theorem mem_outpoints {hash : Uint256} {tx : Transaction} {o : OutPoint} :
    o ∈ outpoints hash tx ↔ o.hash = hash ∧ o.n.toNat < tx.vout.length := by
  unfold outpoints
  rw [List.mem_map]
  constructor
  · rintro ⟨i, hi, rfl⟩
    exact ⟨rfl, (Nat.mod_le _ _).trans_lt (List.mem_range.mp hi)⟩
  · rintro ⟨rfl, hlt⟩
    exact ⟨o.n.toNat, List.mem_range.mpr hlt, by simp⟩

/-- What is removed while the outputs of `tx` are gone through: descendants of `tx`, each
with all of its own children. -/
structure Clearing (P : Params) (pool : TxMemPool) (tx : Transaction) (pool' : TxMemPool)
    (R : Transaction → Prop) : Prop where
  removes : Removes P pool pool' R
  below : ∀ u, R u → Relation.TransGen (Child P pool) tx u
  closed : ∀ u u', R u → Child P pool u u' → R u'

theorem Clearing.step {pool pool' pool'' : TxMemPool} {tx c : Transaction} {R : Transaction → Prop}
    (h : Clearing P pool tx pool' R) (hc : Child P pool tx c)
    (hrem : Removes P pool' pool'' (Descends P pool' c)) :
    Clearing P pool tx pool'' fun u => R u ∨ Descends P pool' c u := by
  have hsub : ∀ u, Contains P pool' u → Contains P pool u := fun u hu =>
    (h.removes.contains_iff.mp hu).1
  refine ⟨h.removes.trans hrem, ?_, ?_⟩
  · rintro u (hu | hu)
    · exact h.below u hu
    · exact .trans_left (.single hc) (hu.mono hsub)
  · rintro u u' (hu | hu) hchild
    · exact Or.inl (h.closed u u' hu hchild)
    · by_cases hR : R u'
      · exact Or.inl hR
      · exact Or.inr (hu.tail ⟨h.removes.contains_iff.mpr ⟨hchild.1, hR⟩, hchild.2⟩)

/-- `removeTx` removes a child of `tx` with its descendants, from whatever is left of the pool. -/
def RemovesChildren (P : Params) (pool : TxMemPool) (tx : Transaction)
    (removeTx : TxMemPool → Transaction → TxMemPool) : Prop :=
  ∀ pool' c, Invariant P pool' → (∀ u, Contains P pool' u → Contains P pool u) →
    Contains P pool' c → Child P pool tx c →
    Removes P pool' (removeTx pool' c) (Descends P pool' c)

theorem Clearing.round {pool pool' : TxMemPool} {tx : Transaction} {R : Transaction → Prop}
    {removeTx : TxMemPool → Transaction → TxMemPool} (hinv : Invariant P pool)
    (hrem : RemovesChildren P pool tx removeTx) (h : Clearing P pool tx pool' R) {o : OutPoint}
    (ho : o ∈ outpoints (P.txHash tx) tx) :
    ∃ R', Clearing P pool tx (removeSpender removeTx pool' o) R' ∧ (∀ u, R u → R' u) ∧
      ∀ c, Contains P pool c → o ∈ c.prevouts → R' c := by
  unfold removeSpender
  cases hnext : pool'.spenderOf o with
  | none =>
    refine ⟨R, h, fun _ hu => hu, fun c hc hoc => ?_⟩
    by_contra hR
    have hsome := h.removes.invariant.spenderOf_eq_some.mpr
      ⟨h.removes.contains_iff.mpr ⟨hc, hR⟩, hoc⟩
    rw [hnext] at hsome
    cases hsome
  | some c =>
    obtain ⟨hc, hoc⟩ := h.removes.invariant.spenderOf_eq_some.mp hnext
    have hpool : ∀ u, Contains P pool' u → Contains P pool u := fun u hu =>
      (h.removes.contains_iff.mp hu).1
    have hchild : Child P pool tx c := ⟨hpool c hc, o, hoc, mem_outpoints.mp ho⟩
    refine ⟨_, h.step hchild (hrem pool' c h.removes.invariant hpool hc hchild),
      fun u hu => Or.inl hu, fun c' hc' hoc' => ?_⟩
    obtain rfl := hinv.eq_of_mem_prevouts (hpool c hc) hc' hoc hoc'
    exact Or.inr .refl

theorem Clearing.rounds {pool pool' : TxMemPool} {tx : Transaction} {R : Transaction → Prop}
    {removeTx : TxMemPool → Transaction → TxMemPool} (hinv : Invariant P pool)
    (hrem : RemovesChildren P pool tx removeTx) (h : Clearing P pool tx pool' R)
    {os : List OutPoint} (hos : ∀ o ∈ os, o ∈ outpoints (P.txHash tx) tx) :
    ∃ R', Clearing P pool tx (os.foldl (removeSpender removeTx) pool') R' ∧ (∀ u, R u → R' u) ∧
      ∀ o ∈ os, ∀ c, Contains P pool c → o ∈ c.prevouts → R' c := by
  induction os generalizing pool' R with
  | nil => exact ⟨R, h, fun _ hu => hu, by simp⟩
  | cons o os ih =>
    obtain ⟨R₁, h₁, hR₁, hc₁⟩ := h.round hinv hrem (hos o List.mem_cons_self)
    obtain ⟨R₂, h₂, hR₂, hc₂⟩ := ih h₁ fun o' ho' => hos o' (List.mem_cons_of_mem _ ho')
    refine ⟨R₂, h₂, fun u hu => hR₂ u (hR₁ u hu), fun o' ho' c hc hoc => ?_⟩
    rcases List.mem_cons.mp ho' with rfl | ho'
    · exact hR₂ c (hc₁ c hc hoc)
    · exact hc₂ o' ho' c hc hoc

/-- When all outputs have been gone through, the descendants of `tx` are gone, and removing
`tx` itself completes its family. -/
theorem Clearing.removeEntry {pool pool' : TxMemPool} {tx : Transaction} {R : Transaction → Prop}
    (h : Clearing P pool tx pool' R) (htx : Contains P pool tx) (htxR : ¬R tx)
    (hchildren : ∀ c, Child P pool tx c → R c) :
    Removes P pool (pool'.removeEntry (P.txHash tx) tx) (Descends P pool tx) := by
  have hend := h.removes.trans (h.removes.invariant.removeEntry
    (h.removes.contains_iff.mpr ⟨htx, htxR⟩))
  have hfamily : ∀ u, R u ∨ u = tx ↔ Descends P pool tx u := by
    intro u
    constructor
    · rintro (hu | rfl)
      · exact (h.below u hu).to_reflTransGen
      · exact .refl
    · intro hu
      induction hu with
      | refl => exact Or.inr rfl
      | tail _ hchild ih =>
        rcases ih with hu | rfl
        · exact Or.inl (h.closed _ _ hu hchild)
        · exact Or.inl (hchildren _ hchild)
  exact ⟨hend.invariant, fun hash u => by rw [hend.lookup, hfamily]⟩

theorem not_transGen_child {S : Set Transaction} (hS : HashFree P S) {pool : TxMemPool}
    (hsub : ∀ u, Contains P pool u → u ∈ S) {tx : Transaction} (htx : tx ∈ S) :
    ¬Relation.TransGen (Child P pool) tx tx := by
  intro h
  refine hS.acyclic tx ?_
  -- every transaction on the way is in the pool but for the first, which is in `S` too
  have hgen : ∀ u, Relation.TransGen (Child P pool) tx u →
      Relation.TransGen (fun u u' => u ∈ S ∧ u' ∈ S ∧ SpendsOutputOf P u u') tx u ∧ u ∈ S := by
    intro u hu
    induction hu with
    | single hchild => exact ⟨.single ⟨htx, hsub _ hchild.1, hchild.2⟩, hsub _ hchild.1⟩
    | tail _ hchild ih => exact ⟨ih.1.tail ⟨ih.2, hsub _ hchild.1, hchild.2⟩, hsub _ hchild.1⟩
  exact (hgen tx h).1

theorem finite_contains (P : Params) (pool : TxMemPool) : {u | Contains P pool u}.Finite := by
  refine (pool.mapTx.entries.map Sigma.snd).toFinset.finite_toSet.subset fun u hu => ?_
  rw [List.coe_toFinset, Set.mem_ofPred_eq, List.mem_map]
  exact ⟨⟨P.txHash u, u⟩, AList.mem_lookup_iff.mp hu, rfl⟩

/-- The transactions of the pool that descend from `tx`. -/
def family (P : Params) (pool : TxMemPool) (tx : Transaction) : Set Transaction :=
  {u | Contains P pool u ∧ Descends P pool tx u}

theorem family_finite (P : Params) (pool : TxMemPool) (tx : Transaction) :
    (family P pool tx).Finite := (finite_contains P pool).subset fun _ hu => hu.1

theorem ncard_family_le (P : Params) (pool : TxMemPool) (tx : Transaction) :
    (family P pool tx).ncard ≤ pool.mapTx.entries.length := by
  have hsub : family P pool tx ⊆ ↑(pool.mapTx.entries.map Sigma.snd).toFinset := by
    intro u hu
    rw [List.coe_toFinset, Set.mem_ofPred_eq, List.mem_map]
    exact ⟨⟨P.txHash u, u⟩, AList.mem_lookup_iff.mp hu.1, rfl⟩
  calc (family P pool tx).ncard
      ≤ (↑(pool.mapTx.entries.map Sigma.snd).toFinset : Set Transaction).ncard :=
        Set.ncard_le_ncard hsub (Finset.finite_toSet _)
    _ = (pool.mapTx.entries.map Sigma.snd).toFinset.card := Set.ncard_coe_finset _
    _ ≤ (pool.mapTx.entries.map Sigma.snd).length := List.toFinset_card_le _
    _ = pool.mapTx.entries.length := List.length_map _

theorem ncard_family_lt {S : Set Transaction} (hS : HashFree P S) {pool pool' : TxMemPool}
    {tx c : Transaction} (hsub : ∀ u, Contains P pool u → u ∈ S) (htx : Contains P pool tx)
    (hpool : ∀ u, Contains P pool' u → Contains P pool u) (hc : Child P pool tx c) :
    (family P pool' c).ncard < (family P pool tx).ncard := by
  have hbelow : ∀ u, Descends P pool' c u → Relation.TransGen (Child P pool) tx u := fun u hu =>
    .trans_left (.single hc) (hu.mono hpool)
  refine Set.ncard_lt_ncard ⟨fun u hu => ⟨hpool u hu.1, (hbelow u hu.2).to_reflTransGen⟩, ?_⟩
    (family_finite P pool tx)
  intro hle
  have hself := hle ⟨htx, .refl⟩
  exact not_transGen_child hS hsub (hsub tx htx) (hbelow tx hself.2)

/-- With fuel for the family of `tx`, `remove(tx, true)` removes exactly this family. -/
theorem removeRecursive_removes {S : Set Transaction} (hS : HashFree P S) (fuel : ℕ)
    {pool : TxMemPool} {tx : Transaction} (hinv : Invariant P pool)
    (hsub : ∀ u, Contains P pool u → u ∈ S) (htx : Contains P pool tx)
    (hfuel : (family P pool tx).ncard ≤ fuel) :
    Removes P pool (removeRecursive P fuel pool tx) (Descends P pool tx) := by
  induction fuel generalizing pool tx with
  | zero =>
    have hpos := (Set.ncard_pos (family_finite P pool tx)).mpr ⟨tx, htx, .refl⟩
    omega
  | succ fuel ih =>
    have hrem : RemovesChildren P pool tx (removeRecursive P fuel) := by
      intro pool' c hinv' hpool hc hchild
      have hcard := ncard_family_lt hS hsub htx hpool hchild
      exact ih hinv' (fun u hu => hsub u (hpool u hu)) hc (by omega)
    have hstart : Clearing P pool tx pool fun _ => False :=
      ⟨hinv.removes_refl, fun _ h => h.elim, fun _ _ h => h.elim⟩
    obtain ⟨R, hclear, _, hR⟩ := hstart.rounds hinv hrem fun o ho => ho
    have hsome : (pool.lookup (P.txHash tx)).isSome = true := by
      rw [show pool.lookup (P.txHash tx) = some tx from htx]
      rfl
    simp only [removeRecursive, if_pos hsome]
    refine hclear.removeEntry htx ?_ ?_
    · exact fun h => not_transGen_child hS hsub (hsub tx htx) (hclear.below tx h)
    · rintro c ⟨hc, o, ho, hout⟩
      exact hR o (mem_outpoints.mpr hout) c hc ho

/-- The maps agree, and the transactions are among those of `S`. -/
structure WellFormed (P : Params) (S : Set Transaction) (pool : TxMemPool) : Prop where
  invariant : Invariant P pool
  within : ∀ u, Contains P pool u → u ∈ S

section Operations

variable {S : Set Transaction} {pool pool' : TxMemPool} {tx : Transaction}

theorem wellFormed_empty (P : Params) (S : Set Transaction) : WellFormed P S empty :=
  ⟨invariant_empty P, by simp [Contains, empty]⟩

theorem WellFormed.removes {R : Transaction → Prop} (h : WellFormed P S pool)
    (hR : Removes P pool pool' R) : WellFormed P S pool' :=
  ⟨hR.invariant, fun u hu => h.within u (hR.contains_iff.mp hu).1⟩

theorem WellFormed.contains_of_isSome (h : WellFormed P S pool) (hS : HashFree P S) (htx : tx ∈ S)
    (hsome : (pool.lookup (P.txHash tx)).isSome = true) : Contains P pool tx := by
  obtain ⟨u, hu⟩ := Option.isSome_iff_exists.mp hsome
  obtain rfl := hS.injOn (h.within u (h.invariant.contains hu)) htx (h.invariant.hash hu)
  exact hu

theorem remove_of_isNone (fRecursive : Bool)
    (hnone : ¬(pool.lookup (P.txHash tx)).isSome = true) : pool.remove P tx fRecursive = pool := by
  cases fRecursive with
  | true => simp only [remove, if_true, removeRecursive, if_neg hnone]
  | false => simp only [remove, Bool.false_eq_true, if_false, if_neg hnone]

theorem WellFormed.removes_remove (h : WellFormed P S pool) (hS : HashFree P S)
    (htx : Contains P pool tx)
    (fRecursive : Bool) : Removes P pool (pool.remove P tx fRecursive) fun u =>
      if fRecursive then Descends P pool tx u else u = tx := by
  cases fRecursive with
  | true =>
    have hcard := ncard_family_le P pool tx
    exact removeRecursive_removes hS _ h.invariant h.within htx (by omega)
  | false =>
    have hsome : (pool.lookup (P.txHash tx)).isSome = true := by
      rw [show pool.lookup (P.txHash tx) = some tx from htx]
      rfl
    simp only [remove, Bool.false_eq_true, if_false, if_pos hsome]
    exact h.invariant.removeEntry htx

/-- Removing a transaction of `S`, whether or not it is in the pool, removes it at least. -/
theorem WellFormed.exists_removes_remove (h : WellFormed P S pool) (hS : HashFree P S) (htx : tx ∈ S)
    (fRecursive : Bool) :
    ∃ R, Removes P pool (pool.remove P tx fRecursive) R ∧ (Contains P pool tx → R tx) := by
  by_cases hsome : (pool.lookup (P.txHash tx)).isSome = true
  · have hc := h.contains_of_isSome hS htx hsome
    refine ⟨_, h.removes_remove hS hc fRecursive, fun _ => ?_⟩
    cases fRecursive with
    | true => exact Relation.ReflTransGen.refl
    | false => exact if_neg Bool.false_ne_true |>.mpr rfl
  · rw [remove_of_isNone fRecursive hsome]
    refine ⟨_, h.invariant.removes_refl, fun hc => hsome ?_⟩
    rw [show pool.lookup (P.txHash tx) = some tx from hc]
    rfl

theorem WellFormed.exists_removes_removeConflicts (h : WellFormed P S pool) (hS : HashFree P S)
    (tx : Transaction) : ∃ R, Removes P pool (pool.removeConflicts P tx) R ∧
      ∀ u, Contains P (pool.removeConflicts P tx) u → u ≠ tx →
        ∀ o ∈ tx.prevouts, o ∉ u.prevouts := by
  unfold removeConflicts
  generalize tx.prevouts = prevouts
  induction prevouts generalizing pool with
  | nil => exact ⟨_, h.invariant.removes_refl, by simp⟩
  | cons o prevouts ih =>
    obtain ⟨R, hR, hfree⟩ : ∃ R, Removes P pool (pool.removeSpender (fun pool txConflict =>
        if txConflict ≠ tx then pool.remove P txConflict true else pool) o) R ∧
        ∀ u, Contains P pool u → ¬R u → u ≠ tx → o ∉ u.prevouts := by
      unfold removeSpender
      cases hnext : pool.spenderOf o with
      | none =>
        refine ⟨_, h.invariant.removes_refl, fun u hu _ _ ho => ?_⟩
        rw [h.invariant.spenderOf_eq_some.mpr ⟨hu, ho⟩] at hnext
        cases hnext
      | some c =>
        obtain ⟨hc, hoc⟩ := h.invariant.spenderOf_eq_some.mp hnext
        by_cases hne : c ≠ tx
        · simp only [if_pos hne]
          refine ⟨_, h.removes_remove hS hc true, fun u hu hnR _ ho => hnR ?_⟩
          obtain rfl := h.invariant.eq_of_mem_prevouts hc hu hoc ho
          exact Relation.ReflTransGen.refl
        · simp only [if_neg hne]
          refine ⟨_, h.invariant.removes_refl, fun u hu _ hutx ho => hutx ?_⟩
          rw [← h.invariant.eq_of_mem_prevouts hc hu hoc ho]
          exact not_not.mp hne
    obtain ⟨R', hR', hfree'⟩ := ih (h.removes hR)
    refine ⟨_, hR.trans hR', fun u hu hne o' ho' => ?_⟩
    rcases List.mem_cons.mp ho' with rfl | ho'
    · have hu' := hR.contains_iff.mp (hR'.contains_iff.mp hu).1
      exact hfree u hu'.1 hu'.2 hne
    · exact hfree' u hu hne o' ho'

end Operations

end TxMemPool

theorem Transaction.nodup_of_checkTransaction {tx : Transaction}
    (h : tx.checkTransaction = true) : tx.prevouts.Nodup := by
  simp only [Transaction.checkTransaction, Bool.and_eq_true, decide_eq_true_eq] at h
  exact h.1.2

theorem AcceptView.accept_cases (P : Params) (v : AcceptView) (pool : TxMemPool)
    (tx : Transaction) (fCheckInputs : Bool) :
    (v.accept P pool tx fCheckInputs).2.2 = pool ∨
      (v.accept P pool tx fCheckInputs).2.2 = pool.addUnchecked (P.txHash tx) tx ∧
        v.acceptFirst P pool tx fCheckInputs = true ∧
        (fCheckInputs = true → v.acceptInputs P tx = .ok ()) := by
  unfold AcceptView.accept
  cases hfirst : v.acceptFirst P pool tx fCheckInputs with
  | false => exact Or.inl rfl
  | true =>
    cases fCheckInputs with
    | false => exact Or.inr ⟨rfl, rfl, fun h => by cases h⟩
    | true =>
      cases hin : v.acceptInputs P tx with
      | error fMissingInputs => exact Or.inl (by simp)
      | ok u => exact Or.inr ⟨by simp, rfl, fun _ => rfl⟩

theorem TxMemPool.WellFormed.accept {P : Params} {S : Set Transaction} {pool : TxMemPool}
    (h : pool.WellFormed P S) {tx : Transaction} (htx : tx ∈ S) (v : AcceptView)
    (fCheckInputs : Bool) : (v.accept P pool tx fCheckInputs).2.2.WellFormed P S := by
  rcases v.accept_cases P pool tx fCheckInputs with heq | ⟨heq, hfirst, _⟩ <;> rw [heq]
  · exact h
  · simp only [AcceptView.acceptFirst, Bool.and_eq_true, List.all_eq_true,
      Option.isNone_iff_eq_none] at hfirst
    obtain ⟨⟨⟨⟨⟨⟨⟨hcheck, _⟩, _⟩, _⟩, _⟩, hnew⟩, _⟩, hfree⟩ := hfirst
    have hnd := Transaction.nodup_of_checkTransaction hcheck
    refine ⟨h.invariant.addUnchecked hnew hnd hfree, fun u hu => ?_⟩
    change (pool.mapTx.insert (P.txHash tx) tx).lookup (P.txHash u) = some u at hu
    by_cases he : P.txHash u = P.txHash tx
    · rw [he, AList.lookup_insert] at hu
      exact Option.some_injective _ hu ▸ htx
    · rw [AList.lookup_insert_ne he] at hu
      exact h.within u hu

/-- An operation on the pool; `accept` comes with the rest of the node as it is then. -/
inductive PoolOp where
  | accept (v : AcceptView) (tx : Transaction) (fCheckInputs : Bool)
  | remove (tx : Transaction) (fRecursive : Bool)
  | removeConflicts (tx : Transaction)
  | clear

namespace PoolOp

/-- The operation is about transactions of `S`. -/
def Within (S : Set Transaction) : PoolOp → Prop
  | accept _ tx _ => tx ∈ S
  | remove tx _ => tx ∈ S
  | removeConflicts tx => tx ∈ S
  | clear => True

def run (P : Params) (pool : TxMemPool) : PoolOp → TxMemPool
  | accept v tx fCheckInputs => (v.accept P pool tx fCheckInputs).2.2
  | remove tx fRecursive => pool.remove P tx fRecursive
  | removeConflicts tx => pool.removeConflicts P tx
  | clear => pool.clear

theorem wellFormed_run {P : Params} {S : Set Transaction} (hS : HashFree P S) {pool : TxMemPool}
    (h : pool.WellFormed P S) {op : PoolOp} (hop : op.Within S) : (op.run P pool).WellFormed P S := by
  cases op with
  | accept v tx fCheckInputs => exact h.accept hop v fCheckInputs
  | remove tx fRecursive =>
    obtain ⟨R, hR, _⟩ := h.exists_removes_remove hS hop fRecursive
    exact h.removes hR
  | removeConflicts tx =>
    obtain ⟨R, hR, _⟩ := h.exists_removes_removeConflicts hS tx
    exact h.removes hR
  | clear => exact TxMemPool.wellFormed_empty P S

theorem wellFormed_foldl_run {P : Params} {S : Set Transaction} (hS : HashFree P S)
    {pool : TxMemPool} (h : pool.WellFormed P S) {ops : List PoolOp}
    (hops : ∀ op ∈ ops, op.Within S) : (ops.foldl (run P) pool).WellFormed P S := by
  induction ops generalizing pool with
  | nil => exact h
  | cons op ops ih =>
    exact ih (wellFormed_run hS h (hops op List.mem_cons_self))
      fun op' hop' => hops op' (List.mem_cons_of_mem _ hop')

end PoolOp

/-- After any sequence of operations on the empty pool, `mapNextTx` says of exactly the inputs
of the transactions in `mapTx` which transaction and which input of it they are, no two
transactions of the pool spend the same outpoint, and `remove` of a transaction of the pool
removes this one alone or, recursively, exactly it and what descends from it. -/
theorem memPool_maps_agree {P : Params} {S : Set Transaction} (hS : HashFree P S)
    {ops : List PoolOp} (hops : ∀ op ∈ ops, op.Within S) :
    let pool := ops.foldl (PoolOp.run P) TxMemPool.empty
    (∀ o inpoint, pool.mapNextTx.lookup o = some inpoint ↔
      ∃ tx, pool.mapTx.lookup inpoint.ptx = some tx ∧ tx.prevouts[inpoint.n]? = some o) ∧
    (∀ h h' tx tx' o, pool.mapTx.lookup h = some tx → pool.mapTx.lookup h' = some tx' →
      o ∈ tx.prevouts → o ∈ tx'.prevouts → h = h' ∧ tx = tx') ∧
    (∀ tx, pool.mapTx.lookup (P.txHash tx) = some tx →
      (∀ h u, (pool.remove P tx false).mapTx.lookup h = some u ↔
        pool.mapTx.lookup h = some u ∧ u ≠ tx) ∧
      ∀ h u, (pool.remove P tx true).mapTx.lookup h = some u ↔
        pool.mapTx.lookup h = some u ∧ ¬pool.Descends P tx u) := by
  intro pool
  have hpool : pool.WellFormed P S :=
    PoolOp.wellFormed_foldl_run hS (TxMemPool.wellFormed_empty P S) hops
  have hinv := hpool.invariant
  refine ⟨hinv.next, fun h h' tx tx' o htx htx' ho ho' => ?_, fun tx htx => ⟨?_, ?_⟩⟩
  · have heq := hinv.eq_of_mem_prevouts (hinv.contains htx) (hinv.contains htx') ho ho'
    exact ⟨by rw [← hinv.hash htx, ← hinv.hash htx', heq], heq⟩
  · simpa using (hpool.removes_remove hS htx false).lookup
  · simpa using (hpool.removes_remove hS htx true).lookup

namespace Sample

def parent : Transaction := spend 1 [⟨7, 0⟩] [out 2]

def child : Transaction := spend 2 [⟨params.txHash parent, 0⟩] [out 1]

theorem hashFree_family : HashFree params {parent, child} := by
  have hspends : ∀ u u', u ∈ ({parent, child} : Set Transaction) ∧
      u' ∈ ({parent, child} : Set Transaction) ∧ SpendsOutputOf params u u' →
      u = parent ∧ u' = child := by
    rintro u u' ⟨rfl | rfl, rfl | rfl, o, ho, hhash, _⟩
    · obtain rfl := List.mem_singleton.mp ho
      exact absurd hhash (by decide)
    · exact ⟨rfl, rfl⟩
    · obtain rfl := List.mem_singleton.mp ho
      exact absurd hhash (by decide)
    · obtain rfl := List.mem_singleton.mp ho
      exact absurd hhash (by decide)
  refine .of_lt (fun tx => tx.nLockTime.toNat) ?_ fun u hu u' hu' h => ?_
  · rintro u (rfl | rfl) u' (rfl | rfl) h
    · rfl
    · exact absurd h (by decide)
    · exact absurd h (by decide)
    · rfl
  · obtain ⟨rfl, rfl⟩ := hspends u u' ⟨hu, hu', h⟩
    decide

end Sample

open Sample in
/-- A pool of two transactions, one of which spends the other. -/
theorem memPool_maps_agree_family :
    let v : AcceptView := ⟨⟨fun _ => none, fun _ => none, fun _ => none, 0⟩, fun _ => false, [], false⟩
    let pool := [PoolOp.accept v parent false, .accept v child false].foldl (PoolOp.run params) .empty
    ∀ h u, (pool.remove params parent true).mapTx.lookup h = some u ↔
      pool.mapTx.lookup h = some u ∧ ¬pool.Descends params parent u := by
  intro v pool
  have hops : ∀ op ∈ [PoolOp.accept v parent false, .accept v child false],
      op.Within {parent, child} := by
    simp [PoolOp.Within]
  have hparent : pool.mapTx.lookup (params.txHash parent) = some parent := by decide +kernel
  exact ((memPool_maps_agree hashFree_family hops).2.2 parent hparent).2

end Beancash
