import Beancash.BeanAgeProgram
import Beancash.SelectBeansSpec
import Mathlib.Data.List.Sort

namespace Beancash

open Knapsack

theorem walletGcd_natCast {fuel n m : ℕ} (h : m < fuel) :
    walletGcd fuel n m = (Nat.gcd n m : ℕ) := by
  induction fuel generalizing n m with
  | zero => omega
  | succ fuel ih =>
    rw [walletGcd]
    rcases Nat.eq_zero_or_pos m with rfl | hpos
    · rw [if_pos Nat.cast_zero, Nat.gcd_zero_right]
    · have hmod : (n : ℤ).tmod m = (n % m : ℕ) := rfl
      have hlt := Nat.mod_lt n hpos
      rw [if_neg (by omega), hmod, ih (by omega), Nat.gcd_comm m, ← Nat.gcd_rec, Nat.gcd_comm]

theorem gcdOf_eq {n m : ℤ} (hn : 0 ≤ n) (hm : 0 ≤ m) : gcdOf n m = Int.gcd n m := by
  obtain ⟨n, rfl⟩ := Int.eq_ofNat_of_zero_le hn
  obtain ⟨m, rfl⟩ := Int.eq_ofNat_of_zero_le hm
  exact walletGcd_natCast (Nat.lt_succ_self m)

theorem coinsGcd_spec {nTargetValue : ℤ} {vValue : List Coin} (hne : vValue ≠ [])
    (hnonneg : ∀ coin ∈ vValue, 0 ≤ coin.nValue) (htarget : 0 < nTargetValue) :
    ∃ nGCD, coinsGcd nTargetValue vValue = some nGCD ∧ 0 < nGCD ∧ nGCD ∣ nTargetValue ∧
      ∀ coin ∈ vValue, nGCD ∣ coin.nValue := by
  have hfold : ∀ (coins : List Coin) (g : ℤ), 0 ≤ g → (∀ coin ∈ coins, 0 ≤ coin.nValue) →
      0 ≤ coins.foldl (fun nGCD coin => gcdOf coin.nValue nGCD) g ∧
        coins.foldl (fun nGCD coin => gcdOf coin.nValue nGCD) g ∣ g ∧
        ∀ coin ∈ coins, coins.foldl (fun nGCD coin => gcdOf coin.nValue nGCD) g ∣ coin.nValue := by
    intro coins
    induction coins with
    | nil => exact fun g hg _ => ⟨hg, dvd_rfl, by simp⟩
    | cons coin coins ih =>
      intro g hg hcoins
      have hcoin := hcoins coin List.mem_cons_self
      have hgcd := gcdOf_eq hcoin hg
      have hgcdNonneg : 0 ≤ gcdOf coin.nValue g := by
        rw [hgcd]
        exact Int.natCast_nonneg _
      obtain ⟨h₁, h₂, h₃⟩ := ih _ hgcdNonneg fun c hc => hcoins c (List.mem_cons_of_mem coin hc)
      rw [List.foldl_cons]
      refine ⟨h₁, h₂.trans (hgcd ▸ Int.gcd_dvd_right ..), ?_⟩
      intro c hc
      rcases List.mem_cons.mp hc with rfl | hc
      · exact h₂.trans (hgcd ▸ Int.gcd_dvd_left ..)
      · exact h₃ c hc
  cases vValue with
  | nil => exact absurd rfl hne
  | cons coin coins =>
    obtain ⟨hg, hdvd, hall⟩ := hfold coins coin.nValue (hnonneg coin List.mem_cons_self)
      fun c hc => hnonneg c (List.mem_cons_of_mem coin hc)
    have hgcd := gcdOf_eq htarget.le hg
    refine ⟨_, rfl, ?_, ?_, ?_⟩
    · rw [hgcd]
      exact_mod_cast Int.gcd_pos_of_ne_zero_left _ htarget.ne'
    · rw [hgcd]
      exact Int.gcd_dvd_left ..
    · intro c hc
      have hright := hgcd ▸ Int.gcd_dvd_right nTargetValue _
      rcases List.mem_cons.mp hc with rfl | hc
      · exact hright.trans hdvd
      · exact hright.trans (hall c hc)

section Solve

variable {nTargetValue denom : ℤ} {vValue : List Coin}

theorem subperm_flatten_reverse {α : Type} {l l' : List (List α)} (h : l'.Sublist l.reverse) :
    l'.flatten.Subperm l.flatten := by
  have hreverse := h.reverse
  rw [List.reverse_reverse] at hreverse
  exact ⟨_, (List.reverse_perm l').flatten, hreverse.flatten⟩

theorem subperm_take_append {α : Type} {items l' : List (List α)} {rest : List α} {m : ℕ}
    (h : l'.Sublist (items.drop m).reverse) :
    ((items.take m).flatten ++ l'.flatten).Subperm (items.flatten ++ rest) := by
  have hsplit : items.flatten ++ rest = (items.take m).flatten ++
      ((items.drop m).flatten ++ rest) := by
    rw [← List.append_assoc, ← List.flatten_append, List.take_append_drop]
  rw [hsplit, List.subperm_append_left]
  exact (subperm_flatten_reverse h).trans (List.sublist_append_left _ rest).subperm

theorem Selection.value_addCoins (s : Selection) (coins : List Coin) :
    (s.addCoins coins).nValueRet = s.nValueRet + coinsValue coins := rfl

/-- A coin that is worth nothing costs nothing. -/
def Coin.Fair (coin : Coin) : Prop := 0 < coin.nValue ∨ coin.nValue = 0 ∧ coin.nCost = 0

theorem Coin.Fair.nonneg {coin : Coin} (h : coin.Fair) : 0 ≤ coin.nValue := by
  rcases h with hpos | ⟨hzero, -⟩
  · exact hpos.le
  · exact hzero.ge

/-- Without an approximation the coins are weighed in units of the common divisor. -/
theorem solve_single {nGCD : ℤ} (hGCD : 0 < nGCD) (htarget : nGCD ∣ nTargetValue)
    (hdvd : ∀ coin ∈ vValue, nGCD ∣ coin.nValue) (hfair : ∀ coin ∈ vValue, coin.Fair)
    (hnonneg : 0 ≤ nTargetValue) (hle : nTargetValue ≤ coinsValue vValue)
    (hcolumns : (coinsValue vValue - nTargetValue) / nGCD + 1 < 2 ^ 32) :
    solve (.single vValue) nGCD nTargetValue 0 ((coinsValue vValue).tdiv nGCD) ⟨true, ∅, 0⟩ =
      some ((⟨true, ∅, 0⟩ : Selection).addCoins (kept (itemWeight nGCD) coinsCost
        (vValue.map fun coin => [coin]).reverse
        ((coinsValue vValue - nTargetValue) / nGCD).toNat).flatten) ∧
      nTargetValue ≤ coinsValue (kept (itemWeight nGCD) coinsCost
        (vValue.map fun coin => [coin]).reverse
        ((coinsValue vValue - nTargetValue) / nGCD).toNat).flatten := by
  have hworth : ∀ item ∈ vValue.map fun coin => [coin], Weighable nGCD item := by
    intro item hitem
    obtain ⟨coin, hcoin, rfl⟩ := List.mem_map.mp hitem
    refine (hfair coin hcoin).imp (fun hpos => ?_) fun ⟨hzero, hfree⟩ => ?_
    · simpa using Int.le_of_dvd hpos (hdvd coin hcoin)
    · simp [coinsValue, coinsCost, hzero, hfree]
  have hvalue : itemsValue nGCD (vValue.map fun coin => [coin]) = coinsValue vValue / nGCD ∧
      nGCD ∣ coinsValue vValue ∧ 0 ≤ coinsValue vValue := by
    clear hle hcolumns hworth
    induction vValue with
    | nil => simp [itemsValue]
    | cons coin vValue ih =>
      obtain ⟨hvalue, hall, hsum⟩ := ih (fun c hc => hdvd c (List.mem_cons_of_mem coin hc))
        fun c hc => hfair c (List.mem_cons_of_mem coin hc)
      have hcoin := (hfair coin List.mem_cons_self).nonneg
      have hdiv := hdvd coin List.mem_cons_self
      refine ⟨?_, ?_, ?_⟩
      · rw [coinsValue_cons, Int.add_ediv_of_dvd_left hdiv, ← hvalue]
        simp [itemsValue, Int.tdiv_eq_ediv_of_nonneg hcoin]
      · exact Dvd.dvd.add hdiv hall
      · rw [coinsValue_cons]
        omega
  obtain ⟨hitems, hall, hsum⟩ := hvalue
  have hneeded : unitsNeeded nGCD nTargetValue = nTargetValue / nGCD := by
    rw [unitsNeeded, Int.tdiv_eq_ediv_of_nonneg hnonneg, Int.tmod_eq_emod_of_nonneg hnonneg,
      Int.emod_eq_zero_of_dvd htarget, if_neg (not_not.mpr rfl), Int.add_zero]
  have hsub : (coinsValue vValue - nTargetValue) / nGCD =
      coinsValue vValue / nGCD - nTargetValue / nGCD := Int.sub_ediv_of_dvd _ htarget
  have hquot : nTargetValue / nGCD ≤ coinsValue vValue / nGCD :=
    Int.ediv_le_ediv hGCD hle
  have hsolve := (arranged_single vValue).solve_kept nTargetValue hGCD hworth
    (Nat.zero_le _) ⟨true, ∅, 0⟩ hnonneg
  simp only [List.drop_zero, Int.sub_zero, hneeded, hitems, ← hsub] at hsolve
  obtain ⟨hresult, hreached⟩ := hsolve hquot hcolumns
  rw [Int.tdiv_eq_ediv_of_nonneg hsum]
  rw [Selection.value_addCoins, Int.zero_add] at hreached
  exact ⟨hresult, hreached⟩

/-- When the first groups are picked, but do not reach the target, the dynamic program or the coins
that are left over do. -/
theorem Arranged.solve_reaches {b : Bundling} {items : List (List Coin)} {rest : List Coin}
    (h : Arranged b items rest) (nTargetValue : ℤ) (hdenom : 0 < denom)
    (hworth : ∀ item ∈ items, denom ≤ coinsValue item) (hrest : coinsValue rest < denom)
    (hnonneg : 0 ≤ coinsValue rest) (hle : nTargetValue ≤ coinsValue (items.flatten ++ rest))
    (hcolumns : coinsValue (items.flatten ++ rest) - nTargetValue < denom * (2 ^ 32 - 1)) {m : ℕ}
    (hm : m ≤ items.length) (hmissing : coinsValue (items.take m).flatten < nTargetValue)
    (hstop : m = items.length ∨ (nTargetValue - coinsValue (items.take m).flatten).tdiv denom <
      itemsValue denom (items.drop m)) :
    ∃ coins : List Coin, solve b denom nTargetValue m (itemsValue denom (items.drop m))
        ((⟨true, ∅, 0⟩ : Selection).addCoins (items.take m).flatten) =
          some ((⟨true, ∅, 0⟩ : Selection).addCoins coins) ∧
      coins.Subperm (items.flatten ++ rest) ∧ nTargetValue ≤ coinsValue coins := by
  have hvalue : ((⟨true, ∅, 0⟩ : Selection).addCoins (items.take m).flatten).nValueRet =
      coinsValue (items.take m).flatten := Int.zero_add _
  have hsplit : coinsValue items.flatten =
      coinsValue (items.take m).flatten + coinsValue (items.drop m).flatten := by
    rw [← coinsValue_append, ← List.flatten_append, List.take_append_drop]
  rw [coinsValue_append, hsplit] at hle hcolumns
  have hdrop := (itemsValue_eq hdenom fun item hitem =>
    Or.inl (hworth item (List.mem_of_mem_drop hitem)) : _ ∧ denom * itemsValue denom (items.drop m) ≤ _).2
  have hunits := unitsNeeded_spec hdenom
    (r := nTargetValue - coinsValue (items.take m).flatten) (by omega)
  by_cases hneeded : unitsNeeded denom (nTargetValue - coinsValue (items.take m).flatten) ≤
      itemsValue denom (items.drop m)
  · have hroom : itemsValue denom (items.drop m) -
        unitsNeeded denom (nTargetValue - coinsValue (items.take m).flatten) < 2 ^ 32 - 1 := by
      apply Int.lt_of_mul_lt_mul_left _ hdenom.le
      rw [Int.mul_sub]
      omega
    obtain ⟨hsolve, hreached⟩ := h.solve_kept nTargetValue hdenom
      (fun item hitem => Or.inl (hworth item hitem)) hm
      ((⟨true, ∅, 0⟩ : Selection).addCoins (items.take m).flatten) (by omega)
      (by rwa [hvalue]) (by rw [hvalue]; omega)
    rw [← Selection.addCoins_append] at hsolve hreached
    refine ⟨_, hsolve, subperm_take_append (kept_sublist _ _ _ _), ?_⟩
    rwa [Selection.value_addCoins, Int.zero_add] at hreached
  · rcases hstop with rfl | hstop
    · rw [List.drop_length, List.flatten_nil, coinsValue_nil] at hle
      have hone : unitsNeeded denom (nTargetValue - coinsValue (items.take items.length).flatten) =
          1 := by
        have hlt : unitsNeeded denom
            (nTargetValue - coinsValue (items.take items.length).flatten) < 2 := by
          apply Int.lt_of_mul_lt_mul_left _ hdenom.le
          omega
        have hpos : 0 < unitsNeeded denom
            (nTargetValue - coinsValue (items.take items.length).flatten) := by
          apply Int.lt_of_mul_lt_mul_left _ hdenom.le
          omega
        omega
      obtain ⟨k, hsolve, hreached⟩ := h.solve_leftOver nTargetValue rfl
        ((⟨true, ∅, 0⟩ : Selection).addCoins (items.take items.length).flatten)
        (by rwa [hvalue]) (by omega) (by omega)
      rw [← Selection.addCoins_append] at hsolve hreached
      refine ⟨_, hsolve, ?_, ?_⟩
      · rw [List.take_length]
        exact ((List.Sublist.refl _).append (List.take_sublist k rest)).subperm
      · rwa [Selection.value_addCoins, Int.zero_add] at hreached
    · rw [unitsNeeded] at hneeded
      split at hneeded <;> omega

theorem solveBundled_reaches (hdenom : 0 < denom) (hvalue : ∀ coin ∈ vValue, 0 ≤ coin.nValue)
    (htarget : 0 < nTargetValue) (hle : nTargetValue ≤ coinsValue vValue)
    (hcolumns : coinsValue vValue - nTargetValue < denom * (2 ^ 32 - 1)) :
    ∃ coins : List Coin, solveBundled denom nTargetValue vValue =
        some ((⟨true, ∅, 0⟩ : Selection).addCoins coins) ∧
      coins.Subperm vValue ∧ nTargetValue ≤ coinsValue coins := by
  obtain ⟨b, items, rest, hmake, harr, hperm, hworth, hrest⟩ := arranged_makeBundles hdenom vValue
  have htotal : coinsValue (items.flatten ++ rest) = coinsValue vValue :=
    (hperm.map Coin.nValue).sum_eq
  have hnonneg : 0 ≤ coinsValue rest := by
    apply List.sum_nonneg
    intro n hn
    obtain ⟨coin, hcoin, rfl⟩ := List.mem_map.mp hn
    exact hvalue coin (hperm.subset (List.mem_append_right _ hcoin))
  have hsubperm : ∀ {coins : List Coin}, coins.Subperm (items.flatten ++ rest) →
      coins.Subperm vValue := fun h => h.trans hperm.subperm
  have hsolve := fun {m : ℕ} => harr.solve_reaches nTargetValue hdenom hworth
    hrest hnonneg (by rwa [htotal]) (by rwa [htotal]) (m := m)
  unfold solveBundled
  simp only [hmake, harr.normalized, Option.bind_eq_bind, Option.bind_some]
  split
  · obtain ⟨m, hm, hprepick, hstop⟩ := harr.prepick denom nTargetValue
      (n := items.length) (Nat.zero_add _) ⟨true, ∅, 0⟩
    simp only [List.drop_zero, Nat.zero_add] at hprepick hstop
    rw [harr.length, hprepick]
    simp only [Option.bind_some]
    split
    · rename_i hreached
      refine ⟨_, rfl, hsubperm ?_, ?_⟩
      · have htake := (List.take_sublist m items).flatten
        exact (htake.trans (List.sublist_append_left _ rest)).subperm
      · rwa [Selection.value_addCoins, Int.zero_add] at hreached
    · rename_i hmissing
      rw [Selection.value_addCoins, Int.zero_add] at hmissing hstop
      obtain ⟨coins, hresult, hcoins, hreached⟩ := hsolve hm (Int.not_le.mp hmissing) hstop
      exact ⟨coins, hresult, hsubperm hcoins, hreached⟩
  · rename_i henough
    obtain ⟨coins, hresult, hcoins, hreached⟩ := hsolve (m := 0) (Nat.zero_le _)
      (by simpa using htarget) (Or.inr (by simpa using henough))
    refine ⟨coins, ?_, hsubperm hcoins, hreached⟩
    rw [← hresult]
    simp [Selection.addCoins_nil]

end Solve

/-- The coin of an output and its cost. -/
def coinOf (output : Output × UInt64) : Coin := ⟨output.1.nValue, output.2, output.1.bean⟩

/-- The lists are those of the outputs so far. Where there is no larger coin, every output that
could be one costs as much as the mark of none. -/
structure Weighed (limits : SelectionLimits) (outputs : List (Output × UInt64)) (lists : CoinLists) :
    Prop where
  vValue : lists.vValue =
    (outputs.filter fun o => decide (o.1.nValue < limits.nEnough)).map coinOf
  nTotalLower : lists.nTotalLower = coinsValue lists.vValue
  larger : match lists.coinLowestLarger with
    | none => ∀ o ∈ outputs, limits.nEnough ≤ o.1.nValue → 2 ^ 63 - 1 ≤ o.2
    | some coin => ∃ o ∈ outputs, coinOf o = coin ∧ limits.nEnough ≤ o.1.nValue ∧ o.2 < 2 ^ 63 - 1

theorem weighed_initial (limits : SelectionLimits) : Weighed limits [] .initial where
  vValue := rfl
  nTotalLower := rfl
  larger _ h := by cases h

theorem Weighed.concat {limits : SelectionLimits} {outputs : List (Output × UInt64)}
    {lists : CoinLists} (h : Weighed limits outputs lists) (o : Output × UInt64) :
    Weighed limits (outputs ++ [o])
      (if o.1.nValue < limits.nEnough then { lists with
          vValue := lists.vValue ++ [coinOf o]
          nTotalLower := lists.nTotalLower + o.1.nValue }
        else if o.2 < lists.lowestCost then { lists with coinLowestLarger := some (coinOf o) }
        else lists) := by
  have hlarger := h.larger
  split
  · rename_i hsmall
    refine ⟨?_, ?_, ?_⟩
    · rw [h.vValue]
      simp [hsmall]
    · simp [h.nTotalLower, coinsValue, coinOf]
    · dsimp only
      split <;> rename_i hl <;> rw [hl] at hlarger
      · intro o' ho' hle
        rcases List.mem_append.mp ho' with ho' | ho'
        · exact hlarger o' ho' hle
        · rw [List.mem_singleton.mp ho'] at hle
          exact absurd hsmall (Int.not_lt.mpr hle)
      · obtain ⟨o', ho', hcoin⟩ := hlarger
        exact ⟨o', List.mem_append_left _ ho', hcoin⟩
  · rename_i hlarge
    have hvValue : lists.vValue =
        ((outputs ++ [o]).filter fun o => decide (o.1.nValue < limits.nEnough)).map coinOf := by
      rw [h.vValue]
      simp [hlarge]
    split
    · rename_i hcost
      refine ⟨hvValue, h.nTotalLower, o, by simp, rfl, Int.not_lt.mp hlarge, ?_⟩
      unfold CoinLists.lowestCost at hcost
      split at hcost <;> rename_i hl
      · rw [hl] at hlarger
        obtain ⟨o', -, rfl, -, hlt⟩ := hlarger
        exact UInt64.lt_trans hcost hlt
      · exact hcost
    · rename_i hcost
      refine ⟨hvValue, h.nTotalLower, ?_⟩
      unfold CoinLists.lowestCost at hcost
      split <;> rename_i hl <;> rw [hl] at hlarger hcost
      · intro o' ho' hle
        rcases List.mem_append.mp ho' with ho' | ho'
        · exact hlarger o' ho' hle
        · rw [List.mem_singleton.mp ho']
          exact UInt64.not_lt.mp hcost
      · obtain ⟨o', ho', hcoin⟩ := hlarger
        exact ⟨o', List.mem_append_left _ ho', hcoin⟩

theorem byBeanAgeLoop_spec (limits : SelectionLimits) {outputs mCoins : List (Output × UInt64)}
    {lists : CoinLists} (h : Weighed limits outputs lists) :
    Weighed limits (outputs ++ mCoins.filter fun o => limits.takes o.1)
      (byBeanAgeLoop limits mCoins lists) := by
  induction mCoins generalizing outputs lists with
  | nil => simpa [byBeanAgeLoop] using h
  | cons o mCoins ih =>
    rw [byBeanAgeLoop]
    cases htakes : limits.takes o.1 with
    | false =>
      rw [List.filter_cons_of_neg (by simp [htakes])]
      exact ih h
    | true =>
      have hnext := ih (h.concat o)
      rw [List.append_assoc, List.singleton_append] at hnext
      rw [List.filter_cons_of_pos (by exact htakes)]
      simp only [Bool.not_true, Bool.false_eq_true, if_false,
        ← apply_ite (byBeanAgeLoop limits mCoins)]
      exact hnext

theorem denominator_spec {size : ℕ} {nTotalValue nTargetValue nGCD : ℤ} (hsize : 0 < size)
    (hGCD : 0 < nGCD) (hlt : nTargetValue < nTotalValue)
    (hproduct : size * (nTotalValue - nTargetValue) < 2 ^ 63) :
    0 < denominator size nTotalValue nTargetValue nGCD ∧
      nTotalValue - nTargetValue < denominator size nTotalValue nTargetValue nGCD * 50 := by
  have hle : nTotalValue - nTargetValue ≤ size * (nTotalValue - nTargetValue) := by
    have hmul := Int.mul_le_mul_of_nonneg_right (a := 1) (b := size)
      (c := nTotalValue - nTargetValue) (by omega) (by omega)
    rwa [Int.one_mul] at hmul
  have hwrap : wrap64 (size * (nTotalValue - nTargetValue)) =
      size * (nTotalValue - nTargetValue) := by
    apply Int.bmod_eq_of_le <;> omega
  unfold denominator
  dsimp only
  rw [hwrap, Int.tdiv_eq_ediv_of_nonneg (by omega)]
  split <;> omega

theorem addCoins_eq_foldl (coins : List Coin) :
    (⟨true, ∅, 0⟩ : Selection).addCoins coins =
      (coins.map fun coin => (coin.nValue, coin.bean)).foldl Selection.insert ⟨true, ∅, 0⟩ := by
  rw [foldl_insert, List.map_map, List.map_map]
  rfl

theorem subperm_map {α β : Type} (f : α → β) {l l' : List α} (h : l.Subperm l') :
    (l.map f).Subperm (l'.map f) := by
  obtain ⟨p, hperm, hsub⟩ := h
  exact ⟨p.map f, hperm.map f, hsub.map f⟩

section Finish

variable {limits : SelectionLimits} {outputs : List (Output × UInt64)} {lists : CoinLists}

/-- Where the smaller coins are worth more than the target, some of them are returned that reach
it. -/
theorem finishByBeanAge_reaches (hfair : ∀ coin ∈ lists.vValue, coin.Fair)
    (htotal : lists.nTotalLower = coinsValue lists.vValue) {nTargetValue : ℤ}
    (htarget : 0 < nTargetValue) (hle : nTargetValue ≤ coinsValue lists.vValue)
    (hproduct : lists.vValue.length * (coinsValue lists.vValue - nTargetValue) < 2 ^ 63) :
    ∃ coins : List Coin, finishByBeanAge nTargetValue lists =
        some ((⟨true, ∅, 0⟩ : Selection).addCoins coins) ∧
      coins.Subperm lists.vValue ∧ nTargetValue ≤ coinsValue coins := by
  have hne : lists.vValue ≠ [] := by
    intro hnil
    rw [hnil, coinsValue_nil] at hle
    omega
  have hnonneg : ∀ coin ∈ lists.vValue, 0 ≤ coin.nValue := fun coin hcoin => (hfair coin hcoin).nonneg
  obtain ⟨nGCD, hnGCD, hGCD, hdvdTarget, hdvd⟩ := coinsGcd_spec hne hnonneg htarget
  have hvalue : (lists.vValue.map Coin.nValue).sum = coinsValue lists.vValue := rfl
  rw [finishByBeanAge, if_neg (by omega), hnGCD]
  simp only [Option.bind_eq_bind, Option.bind_some, hvalue]
  split
  · rename_i heq
    refine ⟨lists.vValue, ?_, List.Subperm.refl _, hle⟩
    simp [Selection.addCoins]
  · rename_i hexact
    obtain ⟨hdenom, hcoarse⟩ := denominator_spec (List.length_pos_of_ne_nil hne) hGCD
      (lt_of_le_of_ne hle (Ne.symm hexact)) hproduct
    split
    · exact solveBundled_reaches hdenom hnonneg htarget hle (by omega)
    · rename_i hsame
      rw [not_not.mp hsame] at hcoarse ⊢
      have hcolumns : (coinsValue lists.vValue - nTargetValue) / nGCD < 50 :=
        Int.ediv_lt_of_lt_mul hGCD (by omega)
      obtain ⟨hsolve, hreached⟩ := solve_single hGCD hdvdTarget hdvd hfair htarget.le hle (by omega)
      refine ⟨_, hsolve, ?_, hreached⟩
      have hsubperm := subperm_flatten_reverse (kept_sublist (itemWeight nGCD)
        coinsCost (lists.vValue.map fun coin => [coin]).reverse
        ((coinsValue lists.vValue - nTargetValue) / nGCD).toNat)
      rwa [← List.flatMap_def, List.flatMap_singleton'] at hsubperm

theorem Weighed.selects_addCoins (h : Weighed limits outputs lists)
    (hnodup : ((outputs.map Prod.fst).map Output.bean).Nodup)
    (hnonneg : ∀ o ∈ outputs, 0 ≤ o.1.nValue) {coins : List Coin}
    (hsub : coins.Subperm lists.vValue) {nTargetValue : ℤ} (hle : nTargetValue ≤ coinsValue coins) :
    ((⟨true, ∅, 0⟩ : Selection).addCoins coins).Selects (outputs.map Prod.fst) nTargetValue := by
  have hlisted : (lists.vValue.map fun coin => (coin.nValue, coin.bean)).Sublist
      ((outputs.map Prod.fst).map Output.valued) := by
    rw [h.vValue, List.map_map, List.map_map]
    exact List.filter_sublist.map _
  have hvalued := (subperm_map (fun coin => (coin.nValue, coin.bean)) hsub).trans hlisted.subperm
  have hvalue : coinsValue coins =
      ((coins.map fun coin => (coin.nValue, coin.bean)).map Prod.fst).sum := by
    rw [List.map_map]
    rfl
  have hvalues : ((outputs.map Prod.fst).map Output.valued).map Prod.fst =
      (outputs.map Prod.fst).map Output.nValue := by
    rw [List.map_map]
    rfl
  rw [hvalue] at hle
  rw [addCoins_eq_foldl]
  apply selects_foldl_insert hvalued hnodup hle
  obtain ⟨l, hperm, hsublist⟩ := subperm_map Prod.fst hvalued
  rw [hvalues] at hsublist
  refine hle.trans (hperm.sum_eq.symm.le.trans (hsublist.sum_le_sum ?_))
  intro n hn
  rw [List.map_map] at hn
  obtain ⟨o, ho, rfl⟩ := List.mem_map.mp hn
  exact hnonneg o ho

theorem Weighed.coinLowestLarger_eq_none_iff (h : Weighed limits outputs lists) :
    lists.coinLowestLarger = none ↔
      ∀ o ∈ outputs, limits.nEnough ≤ o.1.nValue → 2 ^ 63 - 1 ≤ o.2 := by
  have hlarger := h.larger
  cases hl : lists.coinLowestLarger with
  | none =>
    rw [hl] at hlarger
    exact iff_of_true rfl hlarger
  | some coin =>
    rw [hl] at hlarger
    obtain ⟨o, ho, -, hle, hlt⟩ := hlarger
    exact iff_of_false (by simp) fun hall => absurd hlt (UInt64.not_lt.mpr (hall o ho hle))

theorem Weighed.values_perm (h : Weighed limits outputs lists) {outs : List Output}
    {cost : Output → UInt64} (hperm : outputs.Perm (outs.map fun o => (o, cost o))) :
    (lists.vValue.map Coin.nValue).Perm
      ((outs.filter fun o => decide (o.nValue < limits.nEnough)).map Output.nValue) := by
  have hvalues := ((hperm.filter fun o => decide (o.1.nValue < limits.nEnough)).map
    fun o : Output × UInt64 => o.1.nValue)
  rw [List.filter_map, List.map_map] at hvalues
  rw [h.vValue, List.map_map]
  exact hvalues

theorem Weighed.coinsValue_eq (h : Weighed limits outputs lists)
    (hsmall : ∀ o ∈ outputs, o.1.nValue < limits.nEnough) :
    coinsValue lists.vValue = ((outputs.map Prod.fst).map Output.nValue).sum := by
  rw [h.vValue, List.filter_eq_self.mpr fun o ho => decide_eq_true (hsmall o ho), coinsValue,
    List.map_map, List.map_map]
  rfl

/-- Where a larger coin is found if there is one, or none is needed, the selection is right. -/
theorem Weighed.selects_finish (h : Weighed limits outputs lists)
    (hnodup : ((outputs.map Prod.fst).map Output.bean).Nodup)
    (hfair : ∀ o ∈ outputs, (coinOf o).Fair) {nTargetValue : ℤ} (htarget : 0 < nTargetValue)
    (henough : nTargetValue ≤ limits.nEnough)
    (hproduct : lists.vValue.length * (coinsValue lists.vValue - nTargetValue) < 2 ^ 63)
    (hfound : coinsValue lists.vValue < nTargetValue → (∃ o ∈ outputs, limits.nEnough ≤ o.1.nValue) →
      ∃ o ∈ outputs, limits.nEnough ≤ o.1.nValue ∧ o.2 < 2 ^ 63 - 1) :
    ∃ s, finishByBeanAge nTargetValue lists = some s ∧
      s.Selects (outputs.map Prod.fst) nTargetValue := by
  have hnonneg : ∀ o ∈ outputs, 0 ≤ o.1.nValue := fun o ho => (hfair o ho).nonneg
  by_cases hle : nTargetValue ≤ coinsValue lists.vValue
  · obtain ⟨coins, hfinish, hsub, hreached⟩ := finishByBeanAge_reaches (by
      intro coin hcoin
      rw [h.vValue] at hcoin
      obtain ⟨o, ho, rfl⟩ := List.mem_map.mp hcoin
      exact hfair o (List.mem_filter.mp ho).1) h.nTotalLower htarget hle hproduct
    exact ⟨_, hfinish, h.selects_addCoins hnodup hnonneg hsub hreached⟩
  · have hlt := Int.not_le.mp hle
    have hlarger := h.larger
    rw [finishByBeanAge, if_pos (h.nTotalLower ▸ hlt)]
    split <;> rename_i hl <;> rw [hl] at hlarger
    · obtain ⟨o, ho, rfl, hlarge, -⟩ := hlarger
      refine ⟨_, rfl, ?_⟩
      exact selects_insert hnodup
        (by simpa using fun o n ho => hnonneg (o, n) ho) (List.mem_map_of_mem ho)
        (henough.trans hlarge)
    · -- all outputs are smaller ones
      have hsmall : ∀ o ∈ outputs, o.1.nValue < limits.nEnough := by
        intro o ho
        by_contra hlarge
        obtain ⟨o', ho', hle', hcost⟩ := hfound hlt ⟨o, ho, Int.not_lt.mp hlarge⟩
        exact absurd hcost (UInt64.not_lt.mpr (hlarger o' ho' hle'))
      have htotal := h.coinsValue_eq hsmall
      refine ⟨_, rfl, iff_of_false Bool.false_ne_true (by omega), ?_, ?_, ?_⟩ <;> intro hret <;>
        cases hret

theorem nValue_le_sum (hpos : ∀ o ∈ outputs, 0 < o.1.nValue) {o : Output × UInt64}
    (ho : o ∈ outputs) : o.1.nValue ≤ ((outputs.map Prod.fst).map Output.nValue).sum := by
  apply List.single_le_sum
  · intro n hn
    rw [List.map_map] at hn
    obtain ⟨o', ho', rfl⟩ := List.mem_map.mp hn
    exact (hpos o' ho').le
  · exact List.mem_map_of_mem (List.mem_map_of_mem ho)

theorem Weighed.selects_iff (h : Weighed limits outputs lists)
    (hnodup : ((outputs.map Prod.fst).map Output.bean).Nodup)
    (hpos : ∀ o ∈ outputs, 0 < o.1.nValue) {nTargetValue : ℤ} (htarget : 0 < nTargetValue)
    (henough : nTargetValue ≤ limits.nEnough)
    (hproduct : lists.vValue.length * (coinsValue lists.vValue - nTargetValue) < 2 ^ 63) :
    (∃ s, finishByBeanAge nTargetValue lists = some s ∧
        s.Selects (outputs.map Prod.fst) nTargetValue) ↔
      (coinsValue lists.vValue < nTargetValue → (∃ o ∈ outputs, limits.nEnough ≤ o.1.nValue) →
        ∃ o ∈ outputs, limits.nEnough ≤ o.1.nValue ∧ o.2 < 2 ^ 63 - 1) := by
  refine ⟨?_, h.selects_finish hnodup (fun o ho => Or.inl (hpos o ho)) htarget henough hproduct⟩
  rintro ⟨s, hs, hselects⟩ hlt ⟨o, ho, hlarge⟩
  by_contra hpassed
  have hnone := h.coinLowestLarger_eq_none_iff.mpr fun o ho hle =>
    UInt64.not_lt.mp fun hcost => hpassed ⟨o, ho, hle, hcost⟩
  rw [finishByBeanAge, if_pos (h.nTotalLower ▸ hlt), hnone] at hs
  cases hs
  -- the larger output alone reaches the target
  exact absurd (hselects.ret_iff.mpr ((henough.trans hlarge).trans (nValue_le_sum hpos ho)))
    Bool.false_ne_true

theorem Weighed.selects_iff_of_neg (h : Weighed limits outputs lists) (hneg : limits.nEnough < 0)
    (hpos : ∀ o ∈ outputs, 0 < o.1.nValue) {nTargetValue : ℤ}
    (htarget : 0 < nTargetValue)
    (htotal : ((outputs.map Prod.fst).map Output.nValue).sum < nTargetValue) :
    (∃ s, finishByBeanAge nTargetValue lists = some s ∧
        s.Selects (outputs.map Prod.fst) nTargetValue) ↔
      ∀ o ∈ outputs, 2 ^ 63 - 1 ≤ o.2 := by
  have hlarge : ∀ o ∈ outputs, limits.nEnough ≤ o.1.nValue := fun o ho =>
    hneg.le.trans (hpos o ho).le
  have hnil : lists.vValue = [] := by
    rw [h.vValue, List.map_eq_nil_iff, List.filter_eq_nil_iff]
    intro o ho
    simpa using hlarge o ho
  have hnone := h.coinLowestLarger_eq_none_iff
  have hlarger := h.larger
  rw [finishByBeanAge, if_pos (by rwa [h.nTotalLower, hnil])]
  cases hl : lists.coinLowestLarger with
  | none =>
    refine iff_of_true ⟨_, rfl, iff_of_false Bool.false_ne_true (Int.not_le.mpr htotal), ?_, ?_, ?_⟩
      fun o ho => hnone.mp hl o ho (hlarge o ho)
    all_goals intro hret; cases hret
  | some coin =>
    rw [hl] at hlarger
    obtain ⟨o, ho, rfl, -, hlt⟩ := hlarger
    refine iff_of_false ?_ fun hall => absurd hlt (UInt64.not_lt.mpr (hall o ho))
    rintro ⟨s, hs, hselects⟩
    cases hs
    have hle := hselects.target_le rfl
    have hvalue := nValue_le_sum hpos ho
    simp only [Selection.insert, coinOf] at hle
    omega

end Finish

/-- The outputs that may be taken and are below the target plus a cent. -/
def smallerOutputs (limits : SelectionLimits) (vCoins : List Output) : List Output :=
  (vCoins.filter limits.takes).filter fun o => decide (o.nValue < limits.nTargetValue + cent.toInt)

theorem exists_weighed (P : Params) (limits : SelectionLimits) (draws : BeanAgeDraws)
    (vCoins : List Output) : ∃ outputs : List (Output × UInt64),
    outputs.Perm ((vCoins.filter limits.takes).map fun o =>
      (o, coinWeightCost P (draws.getTime o) o)) ∧
    Weighed limits outputs (byBeanAgeLoop limits
      (draws.sort (vCoins.map fun o => (o, coinWeightCost P (draws.getTime o) o))) .initial) := by
  refine ⟨_, ?_, byBeanAgeLoop_spec limits (weighed_initial limits)⟩
  rw [List.nil_append]
  refine ((draws.sort_perm _).filter _).trans (.of_eq ?_)
  rw [List.filter_map]
  rfl

/-- For outputs of positive values, `SelectBeansMinConfByBeanAge` selects what it should, as long as
neither the target plus a cent nor the product in the denominator overflows, and a larger output
that is needed is not passed over for its age. Where the target plus a cent overflows, only outputs
that are all passed over leave the result right. -/
theorem selectByBeanAge_selects_iff (P : Params) (limits : SelectionLimits) (draws : BeanAgeDraws)
    (vCoins : List Output) (hdistinct : (vCoins.map fun o => o.bean.outPoint P).Nodup)
    (hvalues : ∀ o ∈ vCoins, 0 < o.nValue) (htotal : (vCoins.map Output.nValue).sum < 2 ^ 62)
    (hpos : 0 < limits.nTargetValue) (hlt : limits.nTargetValue < 2 ^ 63)
    (hproduct : (smallerOutputs limits vCoins).length *
      (((smallerOutputs limits vCoins).map Output.nValue).sum - limits.nTargetValue) < 2 ^ 63) :
    (∃ s, selectBeansMinConfByBeanAge P limits draws vCoins = some s ∧
        s.Selects (vCoins.filter limits.takes) limits.nTargetValue) ↔
      limits.nTargetValue + cent.toInt < 2 ^ 63 ∧
        (((smallerOutputs limits vCoins).map Output.nValue).sum < limits.nTargetValue →
          (∃ o ∈ vCoins.filter limits.takes, limits.nTargetValue + cent.toInt ≤ o.nValue) →
          ∃ o ∈ vCoins.filter limits.takes, limits.nTargetValue + cent.toInt ≤ o.nValue ∧
            coinWeightCost P (draws.getTime o) o < 2 ^ 63 - 1) ∨
      2 ^ 63 ≤ limits.nTargetValue + cent.toInt ∧ ∀ o ∈ vCoins.filter limits.takes,
        2 ^ 63 - 1 ≤ coinWeightCost P (draws.getTime o) o := by
  obtain ⟨outputs, hperm, hweighed⟩ := exists_weighed P limits draws vCoins
  unfold selectBeansMinConfByBeanAge
  dsimp only
  generalize byBeanAgeLoop limits (draws.sort (vCoins.map fun o =>
    (o, coinWeightCost P (draws.getTime o) o))) .initial = lists at hweighed ⊢
  have hvaluesPerm := hweighed.values_perm hperm
  rw [show smallerOutputs limits vCoins = (vCoins.filter limits.takes).filter fun o =>
    decide (o.nValue < limits.nTargetValue + cent.toInt) from rfl] at hproduct ⊢
  have houts : ∀ o ∈ vCoins.filter limits.takes, 0 < o.nValue := fun o ho =>
    hvalues o (List.mem_filter.mp ho).1
  have hsum : ((vCoins.filter limits.takes).map Output.nValue).sum < 2 ^ 62 := by
    refine lt_of_le_of_lt ((List.filter_sublist.map _).sum_le_sum ?_) htotal
    intro n hn
    obtain ⟨o, ho, rfl⟩ := List.mem_map.mp hn
    exact (hvalues o ho).le
  have hnodup : ((vCoins.filter limits.takes).map Output.bean).Nodup := by
    have hbeans : (vCoins.map Output.bean).Nodup := by
      apply List.Nodup.of_map fun bean : Bean => bean.outPoint P
      rwa [List.map_map]
    exact hbeans.sublist (List.filter_sublist.map _)
  generalize vCoins.filter limits.takes = outs at *
  have hfst : (outputs.map Prod.fst).Perm outs := by
    have hmap := hperm.map Prod.fst
    rwa [List.map_map, Function.comp_def, List.map_id'] at hmap
  have hmem : ∀ o n, (o, n) ∈ outputs ↔ o ∈ outs ∧ coinWeightCost P (draws.getTime o) o = n := by
    intro o n
    rw [hperm.mem_iff, List.mem_map]
    constructor
    · rintro ⟨o', ho', heq⟩
      cases heq
      exact ⟨ho', rfl⟩
    · rintro ⟨ho, rfl⟩
      exact ⟨o, ho, rfl⟩
  have hswap : ∀ {s : Selection}, s.Selects outs limits.nTargetValue ↔
      s.Selects (outputs.map Prod.fst) limits.nTargetValue :=
    ⟨fun h => h.perm hfst.symm, fun h => h.perm hfst⟩
  have hpositive : ∀ o ∈ outputs, 0 < o.1.nValue := fun o ho =>
    houts o.1 (hfst.subset (List.mem_map_of_mem ho))
  replace hnodup := (hfst.map Output.bean).nodup_iff.mpr hnodup
  simp only [hswap]
  rcases lt_or_ge (limits.nTargetValue + cent.toInt) (2 ^ 63) with hover | hover
  · have henough := nEnough_eq hover hpos.le
    have hcent : limits.nTargetValue ≤ limits.nEnough := by
      rw [henough, cent_toInt]
      omega
    rw [← henough, ← hvaluesPerm.sum_eq, ← List.length_map (f := Output.nValue),
      ← hvaluesPerm.length_eq, List.length_map] at hproduct
    rw [hweighed.selects_iff hnodup hpositive hpos hcent hproduct, ← henough, ← hvaluesPerm.sum_eq,
      or_iff_left (fun h => absurd (henough ▸ hover) (Int.not_lt.mpr h.1)),
      and_iff_right (henough ▸ hover)]
    simp only [Prod.exists, hmem]
    simp [coinsValue]
  · have hneg := nEnough_neg hover hlt
    rw [← (hfst.map Output.nValue).sum_eq] at hsum
    rw [hweighed.selects_iff_of_neg hneg hpositive hpos (by rw [cent_toInt] at hover; omega),
      and_iff_right hover, or_iff_right fun h => absurd h.1 (Int.not_lt.mpr hover)]
    simp only [Prod.forall, hmem]
    simp

namespace Sample

def ageDraws : BeanAgeDraws where
  getTime _ := 60 * 60
  sort mCoins := mCoins.insertionSort fun a b => a.2 ≤ b.2
  sort_perm mCoins := List.perm_insertionSort _ mCoins
  sort_sorted mCoins := by
    have : Std.Total fun a b : Output × UInt64 => a.2 ≤ b.2 := ⟨fun a b => UInt64.le_total a.2 b.2⟩
    have : IsTrans (Output × UInt64) fun a b => a.2 ≤ b.2 := ⟨fun _ _ _ => UInt64.le_trans⟩
    exact List.pairwise_insertionSort _ mCoins

/-- Sixteen outputs that are worth about half of all money. -/
def hoard : List Output :=
  (List.range 16).map fun i =>
    ⟨⟨.ofTransaction (spend (.ofNat i) [] [⟨2 ^ 56 - 1, [0x51]⟩]), 0⟩, 5⟩

end Sample

open Sample in
theorem selectByBeanAge_selects_purse :
    ∃ s, selectBeansMinConfByBeanAge params (limits 60000000000) ageDraws purse = some s ∧
      s.Selects (purse.filter (limits 60000000000).takes) 60000000000 :=
  (selectByBeanAge_selects_iff params (limits 60000000000) ageDraws purse (by decide +kernel)
    (by decide +kernel) (by decide +kernel) (by decide) (by decide) (by decide +kernel)).mpr
    (Or.inl ⟨by decide, fun hlt => absurd hlt (by decide +kernel)⟩)

open Sample in
/-- The product is negative, and so the denominator stays one. -/
theorem selectByBeanAge_hoard : ¬∀ (P : Params) (limits : SelectionLimits) (draws : BeanAgeDraws)
    (vCoins : List Output), (vCoins.map fun o => o.bean.outPoint P).Nodup →
    (∀ o ∈ vCoins, 0 < o.nValue) → (vCoins.map Output.nValue).sum < 2 ^ 62 →
    0 < limits.nTargetValue → limits.nTargetValue < 2 ^ 63 →
    ∃ s, selectBeansMinConfByBeanAge P limits draws vCoins = some s ∧
      s.Selects (vCoins.filter limits.takes) limits.nTargetValue := by
  intro h
  obtain ⟨s, hs, -⟩ := h params (limits (2 ^ 56 - 2)) ageDraws hoard (by decide +kernel)
    (by decide +kernel) (by decide +kernel) (by decide) (by decide)
  have hnone : selectBeansMinConfByBeanAge params (limits (2 ^ 56 - 2)) ageDraws hoard = none := by
    decide +kernel
  cases hnone.symm.trans hs

end Beancash
