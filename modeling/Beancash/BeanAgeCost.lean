import Beancash.BeanAgeSpec

namespace Beancash

open Knapsack

section Solve

variable {nTargetValue nGCD : ℤ} {vValue : List Coin}

/-- The age of some coins, as a number. -/
def coinsAge (coins : List Coin) : ℕ := (coins.map fun coin => coin.nCost.toNat).sum

theorem coinsValue_reverse (coins : List Coin) : coinsValue coins.reverse = coinsValue coins :=
  ((List.reverse_perm coins).map Coin.nValue).sum_eq

theorem coinsAge_reverse (coins : List Coin) : coinsAge coins.reverse = coinsAge coins :=
  ((List.reverse_perm coins).map _).sum_eq

theorem mul_itemWeight_sum (hGCD : 0 < nGCD) {coins : List Coin}
    (hpos : ∀ coin ∈ coins, 0 < coin.nValue) (hdvd : ∀ coin ∈ coins, nGCD ∣ coin.nValue) :
    nGCD * ((coins.map fun coin => [coin]).map (itemWeight nGCD)).sum = coinsValue coins := by
  induction coins with
  | nil => exact Int.mul_zero nGCD
  | cons coin coins ih =>
    have hcoin := hpos coin List.mem_cons_self
    have hrest := ih (fun c hc => hpos c (List.mem_cons_of_mem coin hc))
      fun c hc => hdvd c (List.mem_cons_of_mem coin hc)
    have hunits := Int.mul_ediv_cancel' (hdvd coin List.mem_cons_self)
    have hnonneg : 0 ≤ coin.nValue / nGCD := Int.ediv_nonneg hcoin.le hGCD.le
    have hweight : (itemWeight nGCD [coin] : ℤ) = coin.nValue / nGCD := by
      rw [itemWeight, coinsValue_cons, coinsValue_nil, Int.add_zero,
        Int.tdiv_eq_ediv_of_nonneg hcoin.le, Int.toNat_of_nonneg hnonneg]
    rw [List.map_cons, List.map_cons, List.sum_cons, Nat.cast_add, hweight, Int.mul_add, hunits,
      hrest, coinsValue_cons]

theorem sum_coinsCost_toNat (coins : List Coin) :
    ((coins.map fun coin => [coin]).map fun item => (coinsCost item).toNat).sum =
      coinsAge coins := by
  rw [List.map_map, coinsAge]
  congr 2
  funext coin
  simp [coinsCost]

theorem solve_single_lowest (hGCD : 0 < nGCD) (htarget : nGCD ∣ nTargetValue)
    (hdvd : ∀ coin ∈ vValue, nGCD ∣ coin.nValue) (hpos : ∀ coin ∈ vValue, 0 < coin.nValue)
    (hnonneg : 0 ≤ nTargetValue) (hle : nTargetValue ≤ coinsValue vValue)
    (hcolumns : (coinsValue vValue - nTargetValue) / nGCD + 1 < 2 ^ 32)
    (hage : coinsAge vValue < 2 ^ 64) : ∃ coins : List Coin, coins.Sublist vValue.reverse ∧
      solve (.single vValue) nGCD nTargetValue 0 ((coinsValue vValue).tdiv nGCD) ⟨true, ∅, 0⟩ =
        some ((⟨true, ∅, 0⟩ : Selection).addCoins coins) ∧
      nTargetValue ≤ coinsValue coins ∧
      ∀ other : List Coin, other.Sublist vValue.reverse → nTargetValue ≤ coinsValue other →
        coinsAge coins ≤ coinsAge other := by
  obtain ⟨hsolve, hreached⟩ := solve_single hGCD htarget hdvd
    (fun coin hcoin => Or.inl (hpos coin hcoin)) hnonneg hle hcolumns
  have htotal := coinsValue_reverse vValue
  have hitems : ((vValue.map fun coin => [coin]).reverse.map fun item => (coinsCost item).toNat).sum <
      2 ^ 64 := by
    rw [List.map_reverse, List.sum_reverse, sum_coinsCost_toNat]
    exact hage
  have hmem : ∀ coin ∈ vValue.reverse, 0 < coin.nValue ∧ nGCD ∣ coin.nValue := fun coin hcoin =>
    ⟨hpos coin (List.mem_reverse.mp hcoin), hdvd coin (List.mem_reverse.mp hcoin)⟩
  have hsublist := kept_sublist (itemWeight nGCD) coinsCost
    (vValue.map fun coin => [coin]).reverse ((coinsValue vValue - nTargetValue) / nGCD).toNat
  have hlowest := fun {s : List (List Coin)} (h : s.Sublist (vValue.map fun coin => [coin]).reverse) =>
    cost_kept_le (itemWeight nGCD) (fun item => (coinsCost item).toNat) h
      (j := ((coinsValue vValue - nTargetValue) / nGCD).toNat)
  rw [← kept_toNat hitems] at hlowest
  rw [← List.map_reverse] at hsolve hreached hsublist hlowest
  obtain ⟨coins, hcoins, hkept⟩ := List.sublist_map_iff.mp hsublist
  rw [hkept, ← List.flatMap_def, List.flatMap_singleton'] at hsolve hreached
  refine ⟨coins, hcoins, hsolve, hreached, ?_⟩
  intro other hother hothers
  have hcost := hlowest (hother.map fun coin => [coin])
  rw [hkept, sum_coinsCost_toNat, sum_coinsCost_toNat] at hcost
  apply hcost
  -- in units of the divisor, what is left out has room
  have hall := mul_itemWeight_sum hGCD (fun c hc => (hmem c hc).1) fun c hc => (hmem c hc).2
  have hsome := mul_itemWeight_sum hGCD (fun c hc => (hmem c (hother.subset hc)).1)
    fun c hc => (hmem c (hother.subset hc)).2
  have hdvdTotal : nGCD ∣ coinsValue vValue := by
    rw [← htotal, ← hall]
    exact Int.dvd_mul_right ..
  have hroom := Int.mul_ediv_cancel' (Int.dvd_sub hdvdTotal htarget)
  have hquotient : 0 ≤ (coinsValue vValue - nTargetValue) / nGCD :=
    Int.ediv_nonneg (by omega) hGCD.le
  apply Int.ofNat_le.mp
  apply Int.le_of_mul_le_mul_left _ hGCD
  rw [Int.natCast_add, Int.mul_add, hall, hsome, Int.toNat_of_nonneg hquotient, hroom, htotal]
  omega

end Solve

section Finish

variable {limits : SelectionLimits} {outputs : List (Output × UInt64)} {lists : CoinLists}
  {nTargetValue : ℤ}

/-- The dynamic program is reached, and the denominator is the common divisor. -/
def CoinLists.ReachesExact (nTargetValue : ℤ) (lists : CoinLists) : Prop :=
  nTargetValue < lists.nTotalLower ∧ ∃ nGCD ∈ coinsGcd nTargetValue lists.vValue,
    denominator lists.vValue.length (lists.vValue.map Coin.nValue).sum nTargetValue nGCD = nGCD

/-- What is returned are coins of the lowest age, if the product in the denominator fits. -/
theorem finishByBeanAge_lowest (hpos : ∀ coin ∈ lists.vValue, 0 < coin.nValue)
    (htotal : lists.nTotalLower = coinsValue lists.vValue) (htarget : 0 < nTargetValue)
    (hexact : lists.ReachesExact nTargetValue)
    (hproduct : lists.vValue.length * (coinsValue lists.vValue - nTargetValue) < 2 ^ 63)
    (hage : coinsAge lists.vValue < 2 ^ 64) :
    ∃ coins : List Coin, coins.Sublist lists.vValue.reverse ∧
      finishByBeanAge nTargetValue lists = some ((⟨true, ∅, 0⟩ : Selection).addCoins coins) ∧
      nTargetValue ≤ coinsValue coins ∧
      ∀ other : List Coin, other.Sublist lists.vValue.reverse → nTargetValue ≤ coinsValue other →
        coinsAge coins ≤ coinsAge other := by
  obtain ⟨hlt, nGCD, hmem, hdenom⟩ := hexact
  rw [htotal] at hlt
  have hne : lists.vValue ≠ [] := by
    intro hnil
    rw [hnil, coinsValue_nil] at hlt
    omega
  obtain ⟨n, hnGCD, hGCD, hdvdTarget, hdvd⟩ := coinsGcd_spec hne
    (fun coin hcoin => (hpos coin hcoin).le) htarget
  obtain rfl : n = nGCD := Option.some.inj (hnGCD.symm.trans hmem)
  have hvalue : (lists.vValue.map Coin.nValue).sum = coinsValue lists.vValue := rfl
  rw [hvalue] at hdenom
  have hcoarse := (denominator_spec (List.length_pos_of_ne_nil hne) hGCD hlt hproduct).2
  rw [hdenom] at hcoarse
  have hcolumns : (coinsValue lists.vValue - nTargetValue) / n < 50 :=
    Int.ediv_lt_of_lt_mul hGCD (by omega)
  obtain ⟨coins, hcoins, hsolve, hreached, hlowest⟩ :=
    solve_single_lowest hGCD hdvdTarget hdvd hpos htarget.le hlt.le (by omega) hage
  refine ⟨coins, hcoins, ?_, hreached, hlowest⟩
  rw [finishByBeanAge, if_neg (by omega), hnGCD]
  simp only [Option.bind_eq_bind, Option.bind_some, hvalue, hdenom, hlt.ne', if_false, ne_eq,
    not_true_eq_false]
  exact hsolve

theorem Weighed.exists_outputs (h : Weighed limits outputs lists) {coins : List Coin}
    (hcoins : coins.Sublist lists.vValue.reverse) : ∃ chosen : List (Output × UInt64),
      chosen.Subperm (outputs.filter fun o => decide (o.1.nValue < limits.nEnough)) ∧
      coins = chosen.map coinOf := by
  rw [h.vValue, ← List.map_reverse, List.sublist_map_iff] at hcoins
  obtain ⟨chosen, hchosen, hmap⟩ := hcoins
  exact ⟨chosen, hchosen.subperm.trans (List.reverse_perm _).subperm, hmap⟩

theorem sums_chosen {outs : List Output} (hnodup : outs.Nodup) {cost : Output → UInt64}
    {chosen : List (Output × UInt64)} (h : chosen.Subperm (outs.map fun o => (o, cost o))) :
    coinsValue (chosen.map coinOf) = ∑ o ∈ (chosen.map Prod.fst).toFinset, o.nValue ∧
      coinsAge (chosen.map coinOf) = ∑ o ∈ (chosen.map Prod.fst).toFinset, (cost o).toNat := by
  have hfst := subperm_map Prod.fst h
  rw [List.map_map, Function.comp_def, List.map_id'] at hfst
  obtain ⟨l, hperm, hsub⟩ := hfst
  have hchosen : (chosen.map Prod.fst).Nodup := hperm.nodup_iff.mp (hnodup.sublist hsub)
  have hcost : ∀ o ∈ chosen, o.2 = cost o.1 := by
    intro o ho
    obtain ⟨o', -, rfl⟩ := List.mem_map.mp (h.subset ho)
    rfl
  rw [List.sum_toFinset _ hchosen, List.sum_toFinset _ hchosen, coinsValue, coinsAge, List.map_map,
    List.map_map, List.map_map, List.map_map]
  refine ⟨rfl, congrArg List.sum (List.map_congr_left fun o ho => ?_)⟩
  exact congrArg UInt64.toNat (hcost o ho)

end Finish

/-- Those of the outputs whose beans are returned. -/
def Selection.outputs (s : Selection) (outputs : List Output) : Finset Output :=
  outputs.toFinset.filter fun o => o.bean ∈ s.setBeansRet

/-- What is returned are some of the outputs, which reach the target, and no others that reach it
are of a lower age. -/
structure Selection.LowestAge (age : Output → ℕ) (outputs : List Output) (nTargetValue : ℤ)
    (s : Selection) : Prop where
  beans : s.setBeansRet = (s.outputs outputs).image Output.bean
  target_le : nTargetValue ≤ ∑ o ∈ s.outputs outputs, o.nValue
  lowest : ∀ other ⊆ outputs.toFinset, nTargetValue ≤ ∑ o ∈ other, o.nValue →
    ∑ o ∈ s.outputs outputs, age o ≤ ∑ o ∈ other, age o

/-- The lists of a selection, when the outputs are sorted. -/
def coinLists (P : Params) (limits : SelectionLimits) (draws : BeanAgeDraws)
    (vCoins : List Output) : CoinLists :=
  byBeanAgeLoop limits
    (draws.sort (vCoins.map fun o => (o, coinWeightCost P (draws.getTime o) o))) .initial

theorem outputs_addCoins {outs : List Output} (hnodup : (outs.map Output.bean).Nodup)
    {cost : Output → UInt64} {chosen : List (Output × UInt64)}
    (h : chosen.Subperm (outs.map fun o => (o, cost o))) :
    Selection.outputs ((⟨true, ∅, 0⟩ : Selection).addCoins (chosen.map coinOf)) outs =
      (chosen.map Prod.fst).toFinset := by
  have hmem : ∀ c ∈ chosen, c.1 ∈ outs := by
    intro c hc
    obtain ⟨o, ho, rfl⟩ := List.mem_map.mp (h.subset hc)
    exact ho
  ext o
  simp only [Selection.outputs, Selection.addCoins, Finset.empty_union, Finset.mem_filter,
    List.mem_toFinset, List.map_map, List.mem_map, Function.comp_apply]
  constructor
  · rintro ⟨ho, c, hc, hbean⟩
    exact ⟨c, hc, List.inj_on_of_nodup_map hnodup (hmem c hc) ho hbean⟩
  · rintro ⟨c, hc, rfl⟩
    exact ⟨hmem c hc, c, hc, rfl⟩

/-- Where the values, the product in the denominator and the ages of the smaller outputs fit, what
is returned without an approximation has the lowest age of all smaller outputs that reach the
target. -/
theorem selectByBeanAge_lowestAge (P : Params) (limits : SelectionLimits) (draws : BeanAgeDraws)
    (vCoins : List Output) (hdistinct : (vCoins.map fun o => o.bean.outPoint P).Nodup)
    (hvalues : ∀ o ∈ vCoins, 0 < o.nValue) (htotal : (vCoins.map Output.nValue).sum < 2 ^ 62)
    (hpos : 0 < limits.nTargetValue)
    (hproduct : (smallerOutputs limits vCoins).length *
      (((smallerOutputs limits vCoins).map Output.nValue).sum - limits.nTargetValue) < 2 ^ 63)
    (hage : ((smallerOutputs limits vCoins).map fun o =>
      (coinWeightCost P (draws.getTime o) o).toNat).sum < 2 ^ 64)
    (hexact : (coinLists P limits draws vCoins).ReachesExact limits.nTargetValue) :
    ∃ s, selectBeansMinConfByBeanAge P limits draws vCoins = some s ∧
      s.LowestAge (fun o => (coinWeightCost P (draws.getTime o) o).toNat)
        (smallerOutputs limits vCoins) limits.nTargetValue := by
  obtain ⟨outputs, hperm, hweighed⟩ := exists_weighed P limits draws vCoins
  change Weighed limits outputs (coinLists P limits draws vCoins) at hweighed
  change ∃ s, finishByBeanAge limits.nTargetValue (coinLists P limits draws vCoins) = some s ∧ _
  generalize coinLists P limits draws vCoins = lists at hexact hweighed ⊢
  have hpositive : ∀ o ∈ outputs, 0 < o.1.nValue := by
    intro o ho
    obtain ⟨o', ho', rfl⟩ := List.mem_map.mp (hperm.subset ho)
    exact hvalues o' (List.mem_filter.mp ho').1
  have hvaluesPerm := hweighed.values_perm hperm
  have hover : limits.nTargetValue + cent.toInt < 2 ^ 63 := by
    have hsub : (((vCoins.filter limits.takes).filter fun o =>
        decide (o.nValue < limits.nEnough)).map Output.nValue).Sublist (vCoins.map Output.nValue) :=
      (List.filter_sublist.trans List.filter_sublist).map _
    have hle := hsub.sum_le_sum fun n hn => by
      obtain ⟨o, ho, rfl⟩ := List.mem_map.mp hn
      exact (hvalues o ho).le
    have hlt := hexact.1
    rw [hweighed.nTotalLower, coinsValue, hvaluesPerm.sum_eq] at hlt
    rw [cent_toInt]
    omega
  have henough := nEnough_eq hover hpos.le
  rw [show smallerOutputs limits vCoins = (vCoins.filter limits.takes).filter fun o =>
    decide (o.nValue < limits.nTargetValue + cent.toInt) from rfl, ← henough,
    ← hvaluesPerm.sum_eq, ← List.length_map (f := Output.nValue), ← hvaluesPerm.length_eq,
    List.length_map] at hproduct
  have hsmaller : (outputs.filter fun o => decide (o.1.nValue < limits.nEnough)).Perm
      ((smallerOutputs limits vCoins).map fun o => (o, coinWeightCost P (draws.getTime o) o)) := by
    refine (hperm.filter _).trans (.of_eq ?_)
    rw [List.filter_map, smallerOutputs, henough]
    rfl
  have hnodup : ((smallerOutputs limits vCoins).map Output.bean).Nodup := by
    have hbeans : (vCoins.map Output.bean).Nodup := by
      apply List.Nodup.of_map fun bean : Bean => bean.outPoint P
      rwa [List.map_map]
    exact hbeans.sublist ((List.filter_sublist.trans List.filter_sublist).map _)
  generalize smallerOutputs limits vCoins = outs at *
  have hcoinsPos : ∀ coin ∈ lists.vValue, 0 < coin.nValue := by
    intro coin hcoin
    rw [hweighed.vValue] at hcoin
    obtain ⟨o, ho, rfl⟩ := List.mem_map.mp hcoin
    exact hpositive o (List.mem_filter.mp ho).1
  have hcoinsAge : coinsAge lists.vValue < 2 ^ 64 := by
    have hages := (hsmaller.map fun o : Output × UInt64 => o.2.toNat).sum_eq
    rw [List.map_map] at hages
    rw [hweighed.vValue, coinsAge, List.map_map]
    exact hages.trans_lt hage
  obtain ⟨coins, hcoins, hfinish, hreached, hlowest⟩ :=
    finishByBeanAge_lowest hcoinsPos hweighed.nTotalLower hpos hexact hproduct hcoinsAge
  refine ⟨_, hfinish, ?_⟩
  obtain ⟨chosen, hchosen, rfl⟩ := hweighed.exists_outputs hcoins
  have hchosen := hchosen.trans hsmaller.subperm
  obtain ⟨hvalue, hcost⟩ := sums_chosen hnodup.of_map hchosen
  have houtputs := outputs_addCoins hnodup hchosen
  refine ⟨?_, ?_, ?_⟩
  · rw [houtputs]
    ext bean
    simp [Selection.addCoins, coinOf]
  · rwa [houtputs, ← hvalue]
  · intro other hother hothers
    have hsub := List.filter_sublist (p := fun o : Output × UInt64 => decide (o.1 ∈ other))
      (l := outputs.filter fun o => decide (o.1.nValue < limits.nEnough))
    obtain ⟨hvalues', hcosts'⟩ :=
      sums_chosen hnodup.of_map (hsub.subperm.trans hsmaller.subperm)
    have hfst : (((outputs.filter fun o => decide (o.1.nValue < limits.nEnough)).filter
        fun o => decide (o.1 ∈ other)).map Prod.fst).toFinset = other := by
      ext o
      rw [List.mem_toFinset, List.mem_map]
      constructor
      · rintro ⟨c, hc, rfl⟩
        exact of_decide_eq_true (List.mem_filter.mp hc).2
      · intro ho
        refine ⟨(o, coinWeightCost P (draws.getTime o) o), List.mem_filter.mpr ⟨?_, ?_⟩, rfl⟩
        · exact hsmaller.mem_iff.mpr (List.mem_map_of_mem (List.mem_toFinset.mp (hother ho)))
        · exact decide_eq_true ho
    rw [hfst] at hvalues' hcosts'
    rw [houtputs, ← hcost, ← hcosts']
    refine (hlowest _ ?_ ?_).trans_eq (coinsAge_reverse _)
    · rw [hweighed.vValue]
      exact (hsub.map coinOf).reverse
    · rwa [coinsValue_reverse, hvalues']

open Sample in
theorem selectByBeanAge_lowestAge_purse :
    ∃ s, selectBeansMinConfByBeanAge params (limits 60000000000) ageDraws purse = some s ∧
      s.LowestAge (fun o => (coinWeightCost params (ageDraws.getTime o) o).toNat)
        (smallerOutputs (limits 60000000000) purse) 60000000000 :=
  selectByBeanAge_lowestAge params (limits 60000000000) ageDraws purse (by decide +kernel)
    (by decide +kernel) (by decide +kernel) (by decide) (by decide +kernel) (by decide +kernel)
    ⟨by decide +kernel, 10000000000, by decide +kernel, by decide +kernel⟩

namespace Sample

/-- Outputs of one value, of which the last two are dated sixteen days ahead. -/
def datedAhead : List Output :=
  [(1, 0), (2, 1382400), (3, 1382400)].map fun (label, ahead) =>
    ⟨⟨.ofTransaction { spend label [] [⟨2 ^ 59, [0x51]⟩] with nTime := 3600 + ahead }, 0⟩, 5⟩

def aheadLimits : SelectionLimits := ⟨fun _ => false, 2 ^ 59, 0xffffffff, 1, 1⟩

end Sample

open Sample in
/-- The two ages of 2^63 sum to nothing, and so one of them is kept beside the first output, which
is enough and of no age. -/
theorem selectByBeanAge_datedAhead :
    (coinLists params aheadLimits ageDraws datedAhead).ReachesExact (2 ^ 59) ∧
      datedAhead.map (fun o => (coinWeightCost params (ageDraws.getTime o) o).toNat) =
        [0, 2 ^ 63, 2 ^ 63] ∧
      ∃ s, selectBeansMinConfByBeanAge params aheadLimits ageDraws datedAhead = some s ∧
        s.nValueRet = 2 ^ 60 ∧
        ¬s.LowestAge (fun o => (coinWeightCost params (ageDraws.getTime o) o).toNat)
          (smallerOutputs aheadLimits datedAhead) (2 ^ 59) := by
  refine ⟨⟨by decide +kernel, 2 ^ 59, by decide +kernel, by decide +kernel⟩, by decide +kernel,
    ⟨true, ((datedAhead.eraseIdx 1).map Output.bean).toFinset, 2 ^ 60⟩, by decide +kernel, rfl, ?_⟩
  intro h
  have hlowest := h.lowest (datedAhead.take 1).toFinset (by decide +kernel) (by decide +kernel)
  exact absurd hlowest (by decide +kernel)

end Beancash
