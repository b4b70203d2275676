import Beancash.BeanAgeBundles
import Beancash.Knapsack

namespace Beancash

open Knapsack

/-- The value of a group in units of the denominator. -/
def itemWeight (denom : ℤ) (item : List Coin) : ℕ := ((coinsValue item).tdiv denom).toNat

section Rows

variable {α : Type} {weight : α → ℕ} {cost : α → UInt64}

/-- Where the best in a column comes from. -/
def backColumn (weight : α → ℕ) (cost : α → UInt64) (items : List α) (a : α) (j : ℕ) : ℕ :=
  if discards weight cost (best weight cost items) a j then j - weight a else j

theorem mapM_eq_some_map {β γ : Type} {f : β → Option γ} {g : β → γ} {l : List β}
    (h : ∀ b ∈ l, f b = some (g b)) : l.mapM f = some (l.map g) := by
  induction l with
  | nil => rfl
  | cons b l ih =>
    rw [List.mapM_cons, h b List.mem_cons_self, ih fun b' hb' => h b' (List.mem_cons_of_mem b hb')]
    rfl

theorem knapsackRow_eq (weight : α → ℕ) (cost : α → UInt64) (items : List α) (a : α)
    (nColumns : ℕ) :
    knapsackRow (weight a) (cost a) ((List.range nColumns).map (best weight cost items)) =
      some ((List.range nColumns).map fun j =>
        (best weight cost (a :: items) j, backColumn weight cost items a j)) := by
  unfold knapsackRow
  rw [List.length_map, List.length_range]
  apply mapM_eq_some_map
  intro j hj
  have hlt := List.mem_range.mp hj
  have hread : ∀ k ≤ j, ((List.range nColumns).map (best weight cost items))[k]? =
      some (best weight cost items k) := by
    intro k hk
    rw [List.getElem?_map, List.getElem?_range (by omega)]
    rfl
  rw [hread j (Nat.le_refl j), hread (j - weight a) (Nat.sub_le _ _)]
  by_cases hle : weight a ≤ j
  · by_cases hbest : best weight cost items (j - weight a) + cost a ≤ best weight cost items j
    · simp [best, backColumn, discards, hle, hbest]
    · simp [best, backColumn, discards, hle, hbest]
  · simp [best, backColumn, discards, hle]

end Rows

theorem knapsackRows_eq (denom : ℤ) (nColumns : ℕ) (done : List (List Coin)) {coins : List Coin}
    {items : List (List Coin)}
    (h : List.Forall₂ (fun (coin : Coin) item => coin.nValue = coinsValue item ∧
      coin.nCost = coinsCost item) coins items) :
    knapsackRows denom coins
        ((List.range nColumns).map (best (itemWeight denom) coinsCost done)) =
      some (items.mapIdx fun i item => (List.range nColumns).map
        (backColumn (itemWeight denom) coinsCost ((items.take i).reverse ++ done) item)) := by
  induction h generalizing done with
  | nil => rfl
  | @cons coin item coins items hcoin hrest ih =>
    have hrow := knapsackRow_eq (itemWeight denom) coinsCost done item nColumns
    have hweight : (coin.nValue.tdiv denom).toNat = itemWeight denom item := by
      rw [hcoin.1]
      rfl
    rw [knapsackRows, hweight, hcoin.2, hrow]
    simp only [Option.bind_eq_bind, Option.bind_some, List.map_map, Function.comp_def]
    rw [ih (item :: done)]
    simp [List.mapIdx_cons]

/-- The rows of `B` over a list of groups. -/
def backRows (denom : ℤ) (nColumns : ℕ) (items : List (List Coin)) : List (List ℕ) :=
  items.mapIdx fun i item => (List.range nColumns).map
    (backColumn (itemWeight denom) coinsCost (items.take i).reverse item)

theorem Arranged.entries {b : Bundling} {items : List (List Coin)} {rest : List Coin}
    (h : Arranged b items rest) {nBeginCoinValues : ℕ} (hbegin : nBeginCoinValues ≤ items.length) :
    ∃ coins, (List.range' nBeginCoinValues (b.nTotalCoinValues - nBeginCoinValues)).mapM
        (fun i => b.vValue[i]?) = some coins ∧
      List.Forall₂ (fun (coin : Coin) item => coin.nValue = coinsValue item ∧
        coin.nCost = coinsCost item) coins (items.drop nBeginCoinValues) := by
  have hread : ∀ k < items.length, ∃ coin, b.vValue[k]? = some coin := by
    intro k hk
    obtain ⟨coin, hcoin, -⟩ := h.entry k _ (List.getElem?_eq_getElem hk)
    exact ⟨coin, hcoin⟩
  have hlen : items.length ≤ b.vValue.length := by
    rcases Nat.eq_zero_or_pos items.length with hzero | hpos
    · omega
    · obtain ⟨coin, hcoin⟩ := hread (items.length - 1) (by omega)
      have hlt := (List.getElem?_eq_some_iff.mp hcoin).1
      omega
  have hlength : ((b.vValue.drop nBeginCoinValues).take (items.length - nBeginCoinValues)).length =
      (items.drop nBeginCoinValues).length := by
    rw [List.length_take, List.length_drop, List.length_drop]
    omega
  rw [h.length]
  refine ⟨_, mapM_getElem? _ (by omega), List.forall₂_iff_get.mpr ⟨hlength, fun k hk hk' => ?_⟩⟩
  rw [List.length_drop] at hk'
  obtain ⟨coin, hcoin, hshown⟩ := h.entry (nBeginCoinValues + k) _
    (List.getElem?_eq_getElem (by omega))
  obtain ⟨hlt, rfl⟩ := List.getElem?_eq_some_iff.mp hcoin
  simpa using hshown

theorem Arranged.knapsackRows {b : Bundling} {items : List (List Coin)} {rest : List Coin}
    (h : Arranged b items rest) (denom : ℤ) {nBeginCoinValues : ℕ}
    (hbegin : nBeginCoinValues ≤ items.length) (nColumns : ℕ) : ∃ coins,
      (List.range' nBeginCoinValues (b.nTotalCoinValues - nBeginCoinValues)).mapM
        (fun i => b.vValue[i]?) = some coins ∧
      coins.length = (items.drop nBeginCoinValues).length ∧
      Beancash.knapsackRows denom coins (.replicate nColumns 0) =
        some (backRows denom nColumns (items.drop nBeginCoinValues)) := by
  obtain ⟨coins, hcoins, hshown⟩ := h.entries hbegin
  refine ⟨coins, hcoins, hshown.length_eq, ?_⟩
  have hrows := knapsackRows_eq denom nColumns [] hshown
  simpa [backRows, best, List.map_const'] using hrows

/-- A group is worth something in units of the denominator, or it is worth nothing and free. -/
def Weighable (denom : ℤ) (item : List Coin) : Prop :=
  denom ≤ coinsValue item ∨ coinsValue item = 0 ∧ coinsCost item = 0

theorem traceBack_eq {b : Bundling} {items : List (List Coin)} {rest : List Coin}
    (h : Arranged b items rest) {denom : ℤ} {nBeginCoinValues nColumns i j : ℕ}
    (hweight : ∀ item ∈ items, 0 < itemWeight denom item ∨ coinsCost item = 0)
    (hi : nBeginCoinValues + i ≤ items.length) (hj : 0 < i → j < nColumns) (s : Selection) :
    traceBack b nBeginCoinValues (backRows denom nColumns (items.drop nBeginCoinValues)) i j s =
      some (s.addCoins (kept (itemWeight denom) coinsCost
        ((items.drop nBeginCoinValues).take i).reverse j).flatten) := by
  induction i generalizing j s with
  | zero => simp [traceBack, kept, Selection.addCoins_nil]
  | succ i ih =>
    have hlt : i < (items.drop nBeginCoinValues).length := by
      rw [List.length_drop]
      omega
    have hcolumn := hj (Nat.succ_pos i)
    obtain ⟨item, hitem⟩ : ∃ item, (items.drop nBeginCoinValues)[i]? = some item :=
      ⟨_, List.getElem?_eq_getElem hlt⟩
    have htake : ((items.drop nBeginCoinValues).take (i + 1)).reverse =
        item :: ((items.drop nBeginCoinValues).take i).reverse := by
      rw [List.take_add_one, hitem]
      simp
    have hpos := hweight item (List.mem_of_mem_drop (List.mem_of_getElem? hitem))
    unfold backRows at ih ⊢
    rw [traceBack, htake, kept]
    have hnonneg : ¬(j : ℤ) < 0 := by omega
    simp only [hnonneg, if_false, Option.bind_eq_bind, Option.bind_some, List.getElem?_mapIdx, hitem,
      Option.map_some, List.getElem?_map, Int.toNat_natCast, List.getElem?_range hcolumn,
      Nat.cast_inj, backColumn]
    split
    · rename_i hdiscards
      obtain ⟨hle, hbest⟩ := Bool.and_eq_true_iff.mp hdiscards
      replace hle : itemWeight denom item ≤ j := of_decide_eq_true hle
      have hlt : 0 < itemWeight denom item := by
        -- without a weight there is a cost
        refine Nat.pos_of_ne_zero fun hzero => ?_
        rw [hpos.resolve_left (by omega), hzero, Nat.sub_zero, UInt64.add_zero,
          decide_eq_true (UInt64.le_refl _)] at hbest
        cases hbest
      rw [if_neg (by omega)]
      exact ih (by omega) (fun _ => by omega) s
    · rw [if_pos rfl]
      rw [List.getElem?_drop] at hitem
      rw [h.pick _ _ hitem, Option.bind_some, ih (by omega) (fun _ => hcolumn), List.flatten_cons,
        Selection.addCoins_append]

section Solve

variable {b : Bundling} {items : List (List Coin)} {rest : List Coin} {denom nTargetValue : ℤ}

/-- The values of groups in units of the denominator. -/
def itemsValue (denom : ℤ) (items : List (List Coin)) : ℤ :=
  (items.map fun item => (coinsValue item).tdiv denom).sum

/-- Some groups in a row are picked, up to the last one or until the others are worth more than
what is missing. -/
theorem Arranged.prepick (h : Arranged b items rest) (denom nTargetValue : ℤ)
    {n nBeginCoinValues : ℕ}
    (hn : nBeginCoinValues + n = items.length) (s : Selection) : ∃ m ≤ n,
    b.prepick denom nTargetValue n nBeginCoinValues
        (itemsValue denom (items.drop nBeginCoinValues)) s =
      some (nBeginCoinValues + m, itemsValue denom (items.drop (nBeginCoinValues + m)),
        s.addCoins ((items.drop nBeginCoinValues).take m).flatten) ∧
    (m = n ∨ (nTargetValue - (s.addCoins ((items.drop nBeginCoinValues).take m).flatten).nValueRet).tdiv
      denom < itemsValue denom (items.drop (nBeginCoinValues + m))) := by
  induction n generalizing nBeginCoinValues s with
  | zero => exact ⟨0, Nat.le_refl 0, by simp [Bundling.prepick, Selection.addCoins_nil], Or.inl rfl⟩
  | succ n ih =>
    rw [Bundling.prepick]
    split
    · obtain ⟨item, hitem⟩ : ∃ item, items[nBeginCoinValues]? = some item :=
        ⟨_, List.getElem?_eq_getElem (by omega)⟩
      obtain ⟨coin, hcoin, hvalue, -⟩ := h.entry _ _ hitem
      have hdrop : items.drop nBeginCoinValues = item :: items.drop (nBeginCoinValues + 1) := by
        obtain ⟨hlt, rfl⟩ := List.getElem?_eq_some_iff.mp hitem
        exact List.drop_eq_getElem_cons hlt
      have hrest : itemsValue denom (items.drop nBeginCoinValues) - coin.nValue.tdiv denom =
          itemsValue denom (items.drop (nBeginCoinValues + 1)) := by
        rw [hdrop, hvalue]
        simp [itemsValue]
      obtain ⟨m, hm, hprepick, hstop⟩ := ih
        (show nBeginCoinValues + 1 + n = items.length by omega) (s.addCoins item)
      have hcoins : (s.addCoins item).addCoins
          ((items.drop (nBeginCoinValues + 1)).take m).flatten =
            s.addCoins ((items.drop nBeginCoinValues).take (m + 1)).flatten := by
        rw [hdrop, List.take_succ_cons, List.flatten_cons, Selection.addCoins_append]
      rw [hcoins, Nat.add_right_comm] at hstop hprepick
      refine ⟨m + 1, by omega, ?_, ?_⟩
      · simp only [hcoin, h.pick _ _ hitem, Option.bind_eq_bind, Option.bind_some, hrest]
        exact hprepick
      · exact hstop.imp_left fun hm => by omega
    · rename_i hstop
      refine ⟨0, Nat.zero_le _, by simp [Selection.addCoins_nil], Or.inr ?_⟩
      simpa [Selection.addCoins_nil] using hstop

theorem Arranged.normalized (h : Arranged b items rest) (denom : ℤ) :
    b.normalized denom = some (itemsValue denom items) := by
  obtain ⟨coins, hcoins, hshown⟩ := h.entries (Nat.zero_le _)
  rw [List.drop_zero] at hshown
  rw [Nat.sub_zero, ← List.range_eq_range'] at hcoins
  have hsum : coins.map (fun coin => coin.nValue.tdiv denom) =
      items.map fun item => (coinsValue item).tdiv denom := by
    clear hcoins h
    induction hshown with
    | nil => rfl
    | cons hcoin _ ih => rw [List.map_cons, List.map_cons, hcoin.1, ih]
  simp [Bundling.normalized, hcoins, hsum, itemsValue]

theorem Selection.insert_eq (s : Selection) (coin : Coin) :
    s.insert (coin.nValue, coin.bean) = s.addCoins [coin] := by
  have hset : Insert.insert coin.bean s.setBeansRet = s.setBeansRet ∪ {coin.bean} := by
    ext bean
    simp
  unfold Selection.insert Selection.addCoins
  dsimp only
  rw [hset]
  simp

theorem addLeftOver_spec (coins : List Coin) (s : Selection)
    (hle : nTargetValue ≤ s.nValueRet + coinsValue coins) : ∃ k,
    addLeftOver nTargetValue coins s = s.addCoins (coins.take k) ∧
      nTargetValue ≤ (s.addCoins (coins.take k)).nValueRet := by
  induction coins generalizing s with
  | nil => exact ⟨0, (Selection.addCoins_nil s).symm, by simpa [Selection.addCoins] using hle⟩
  | cons coin coins ih =>
    rw [addLeftOver]
    split
    · rw [Selection.insert_eq]
      obtain ⟨k, hadd, hreached⟩ := ih (s.addCoins [coin]) (by
        simpa [Selection.addCoins, Int.add_assoc] using hle)
      refine ⟨k + 1, ?_, ?_⟩
      · rw [hadd, ← Selection.addCoins_append]
        rfl
      · rwa [← Selection.addCoins_append] at hreached
    · rename_i hreached
      refine ⟨0, (Selection.addCoins_nil s).symm, ?_⟩
      rw [List.take_zero, Selection.addCoins_nil]
      exact Int.not_lt.mp hreached

/-- What is missing in units of the denominator, rounded up. -/
def unitsNeeded (denom r : ℤ) : ℤ := r.tdiv denom + if r.tmod denom ≠ 0 then 1 else 0

theorem unitsNeeded_spec (hdenom : 0 < denom) {r : ℤ} (hr : 0 ≤ r) :
    r ≤ denom * unitsNeeded denom r ∧ denom * unitsNeeded denom r < r + denom := by
  have hdiv := Int.mul_ediv_add_emod r denom
  have hmod := Int.emod_nonneg r hdenom.ne'
  have hlt := Int.emod_lt_of_pos r hdenom
  rw [unitsNeeded, Int.tdiv_eq_ediv_of_nonneg hr, Int.tmod_eq_emod_of_nonneg hr, Int.mul_add]
  split
  · omega
  · omega

theorem mul_itemWeight_le (hdenom : 0 < denom) {item : List Coin} (hworth : Weighable denom item) :
    denom * itemWeight denom item ≤ coinsValue item ∧
      (itemWeight denom item : ℤ) = (coinsValue item).tdiv denom ∧
        (0 < itemWeight denom item ∨ coinsCost item = 0) := by
  have hnonneg : 0 ≤ coinsValue item := by
    rcases hworth with hworth | ⟨hzero, -⟩
    · exact hdenom.le.trans hworth
    · exact hzero.ge
  have hquot : 0 ≤ coinsValue item / denom := Int.ediv_nonneg hnonneg hdenom.le
  have hweight : (itemWeight denom item : ℤ) = coinsValue item / denom := by
    rw [itemWeight, Int.tdiv_eq_ediv_of_nonneg hnonneg, Int.toNat_of_nonneg hquot]
  refine ⟨?_, ?_, hworth.imp (fun hworth => ?_) And.right⟩
  · rw [hweight]
    exact Int.mul_ediv_self_le hdenom.ne'
  · rw [hweight, Int.tdiv_eq_ediv_of_nonneg hnonneg]
  · have hpos : 0 < coinsValue item / denom := Int.le_ediv_of_mul_le hdenom (by omega)
    omega

theorem itemsValue_eq (hdenom : 0 < denom) {items : List (List Coin)}
    (hworth : ∀ item ∈ items, Weighable denom item) :
    ((items.map (itemWeight denom)).sum : ℤ) = itemsValue denom items ∧
      denom * itemsValue denom items ≤ coinsValue items.flatten := by
  induction items with
  | nil => simp [itemsValue]
  | cons item items ih =>
    obtain ⟨hsum, hle⟩ := ih fun item' hitem' => hworth item' (List.mem_cons_of_mem item hitem')
    obtain ⟨hmul, hweight, -⟩ := mul_itemWeight_le hdenom (hworth item List.mem_cons_self)
    have hcons : itemsValue denom (item :: items) =
        itemWeight denom item + itemsValue denom items := by
      rw [hweight]
      rfl
    refine ⟨?_, ?_⟩
    · rw [hcons, ← hsum]
      simp
    · rw [hcons, Int.mul_add, List.flatten_cons, coinsValue_append]
      omega

/-- When the groups are worth what is missing, those that the knapsack keeps reach the target. -/
theorem Arranged.solve_kept (h : Arranged b items rest) (nTargetValue : ℤ) (hdenom : 0 < denom)
    (hworth : ∀ item ∈ items, Weighable denom item) {nBeginCoinValues : ℕ}
    (hbegin : nBeginCoinValues ≤ items.length) (s : Selection)
    (hmissing : s.nValueRet ≤ nTargetValue)
    (hneeded : unitsNeeded denom (nTargetValue - s.nValueRet) ≤
      itemsValue denom (items.drop nBeginCoinValues))
    (hcolumns : itemsValue denom (items.drop nBeginCoinValues) -
      unitsNeeded denom (nTargetValue - s.nValueRet) + 1 < 2 ^ 32) :
    solve b denom nTargetValue nBeginCoinValues (itemsValue denom (items.drop nBeginCoinValues)) s =
      some (s.addCoins (kept (itemWeight denom) coinsCost (items.drop nBeginCoinValues).reverse
        (itemsValue denom (items.drop nBeginCoinValues) -
          unitsNeeded denom (nTargetValue - s.nValueRet)).toNat).flatten) ∧
      nTargetValue ≤ (s.addCoins (kept (itemWeight denom) coinsCost
        (items.drop nBeginCoinValues).reverse (itemsValue denom (items.drop nBeginCoinValues) -
          unitsNeeded denom (nTargetValue - s.nValueRet)).toNat).flatten).nValueRet := by
  have hworth' : ∀ item ∈ items.drop nBeginCoinValues, Weighable denom item :=
    fun item hitem => hworth item (List.mem_of_mem_drop hitem)
  generalize hr : nTargetValue - s.nValueRet = r at hneeded hcolumns ⊢
  generalize hj : (itemsValue denom (items.drop nBeginCoinValues) - unitsNeeded denom r).toNat = j
  have hjcast : (j : ℤ) = itemsValue denom (items.drop nBeginCoinValues) - unitsNeeded denom r := by
    omega
  -- what is kept weighs at least what is needed
  have hreached : nTargetValue ≤ (s.addCoins (kept (itemWeight denom) coinsCost
      (items.drop nBeginCoinValues).reverse j).flatten).nValueRet := by
    have hsublist := kept_sublist (itemWeight denom) coinsCost
      (items.drop nBeginCoinValues).reverse j
    have hroom := weight_le_kept (itemWeight denom) coinsCost
      (items.drop nBeginCoinValues).reverse j
    rw [List.map_reverse, List.sum_reverse] at hroom
    obtain ⟨hkept, hvalue⟩ := itemsValue_eq hdenom fun item hitem =>
      hworth' item (List.mem_reverse.mp (hsublist.subset hitem))
    have htotal := (itemsValue_eq hdenom hworth').1
    have hle : unitsNeeded denom r ≤ itemsValue denom (kept (itemWeight denom) coinsCost
        (items.drop nBeginCoinValues).reverse j) := by
      rw [← hkept]
      omega
    have hmul := Int.mul_le_mul_of_nonneg_left hle hdenom.le
    have hspec := (unitsNeeded_spec hdenom (r := r) (by omega)).1
    simp only [Selection.addCoins]
    omega
  refine ⟨?_, hreached⟩
  have hnColumns : itemsValue denom (items.drop nBeginCoinValues) - r.tdiv denom +
      (if r.tmod denom ≠ 0 then 0 else 1) = (j + 1 : ℕ) := by
    rw [unitsNeeded] at hjcast
    split at hjcast <;> rename_i hmod
    · rw [if_pos hmod]
      omega
    · rw [if_neg hmod]
      omega
  obtain ⟨coins, hcoins, hlength, hrows⟩ := h.knapsackRows denom hbegin (j + 1)
  have hlength' : nBeginCoinValues + (items.drop nBeginCoinValues).length ≤ items.length := by
    rw [List.length_drop]
    omega
  have htrace := traceBack_eq h
    (fun item hitem => (mul_itemWeight_le hdenom (hworth item hitem)).2.2) hlength'
    (fun _ => Nat.lt_succ_self j) s
  rw [List.take_length] at htrace
  have hpred : ((j + 1 : ℕ) : ℤ) - 1 = j := by omega
  have hrange : ¬(((j + 1 : ℕ) : ℤ) < 0 ∨ 2 ^ 32 ≤ ((j + 1 : ℕ) : ℤ)) := by omega
  unfold solve
  simp only [hr, hnColumns]
  rw [if_neg hrange]
  simp only [hcoins, hlength, hrows, Int.toNat_natCast, hpred, htrace, Option.bind_eq_bind,
    Option.bind_some]
  split
  · rw [if_neg (Int.not_lt.mpr hreached)]
    rfl
  · rfl

/-- When all groups are picked and less than the denominator is missing, the coins that are left
over make it up. -/
theorem Arranged.solve_leftOver (h : Arranged b items rest) (nTargetValue : ℤ)
    {nBeginCoinValues : ℕ}
    (hbegin : nBeginCoinValues = items.length) (s : Selection)
    (hneeded : unitsNeeded denom (nTargetValue - s.nValueRet) = 1)
    (hmissing : s.nValueRet < nTargetValue)
    (hrest : nTargetValue ≤ s.nValueRet + coinsValue rest) :
    ∃ k, solve b denom nTargetValue nBeginCoinValues (itemsValue denom (items.drop nBeginCoinValues))
        s = some (s.addCoins (rest.take k)) ∧
      nTargetValue ≤ (s.addCoins (rest.take k)).nValueRet := by
  obtain ⟨k, hadd, hreached⟩ := addLeftOver_spec rest s hrest
  refine ⟨k, ?_, hreached⟩
  obtain ⟨coins, hcoins, hlength, hrows⟩ := h.knapsackRows denom hbegin.le 0
  have hdrop : items.drop nBeginCoinValues = [] := List.drop_eq_nil_iff.mpr hbegin.ge
  rw [hdrop] at hlength ⊢
  rw [List.length_nil] at hlength
  have hnColumns : itemsValue denom [] - (nTargetValue - s.nValueRet).tdiv denom +
      (if (nTargetValue - s.nValueRet).tmod denom ≠ 0 then 0 else 1) = 0 := by
    have hzero : itemsValue denom [] = 0 := rfl
    rw [unitsNeeded] at hneeded
    rw [hzero]
    split at hneeded <;> rename_i hmod
    · rw [if_pos hmod]
      omega
    · rw [if_neg hmod]
      omega
  unfold solve
  simp only [hnColumns, hcoins, hlength, Option.bind_eq_bind, Option.bind_some]
  rw [Int.toNat_zero, hrows]
  have hback := h.rest
  cases hlast : b.vZeroValueBundles.getLast? with
  | none =>
    rw [hlast] at hback
    rw [← hback] at hrest
    simp at hrest
    omega
  | some back =>
    rw [hlast] at hback
    simp only [Option.elim_some] at hback
    simp [traceBack, hmissing, hback, hadd]

end Solve

end Beancash
