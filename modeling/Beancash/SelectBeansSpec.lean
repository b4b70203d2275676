import Beancash.InputSpec
import Beancash.SelectBeans
import Mathlib.Algebra.Order.BigOperators.Group.List

namespace Beancash

def Output.nValue (output : Output) : ℤ := output.bean.nValue.toInt

/-- The pair of value and bean that the lists hold. -/
def Output.valued (output : Output) : ℤ × Bean := (output.nValue, output.bean)

/-- What a selection should be: it succeeds if the outputs suffice, and then takes some of them
that sum to what it says, which reaches the target. -/
structure Selection.Selects (outputs : List Output) (nTargetValue : ℤ) (s : Selection) : Prop where
  ret_iff : s.fRet = true ↔ nTargetValue ≤ (outputs.map Output.nValue).sum
  subset : s.fRet = true → ∀ bean ∈ s.setBeansRet, bean ∈ outputs.map Output.bean
  sum : s.fRet = true → ∑ bean ∈ s.setBeansRet, bean.nValue.toInt = s.nValueRet
  target_le : s.fRet = true → nTargetValue ≤ s.nValueRet

theorem Selection.Selects.perm {outputs outputs' : List Output} {nTargetValue : ℤ} {s : Selection}
    (h : s.Selects outputs nTargetValue) (hperm : outputs.Perm outputs') :
    s.Selects outputs' nTargetValue where
  ret_iff := by
    rw [← (hperm.map Output.nValue).sum_eq]
    exact h.ret_iff
  subset hret bean hbean := (hperm.map Output.bean).subset (h.subset hret bean hbean)
  sum := h.sum
  target_le := h.target_le

theorem foldl_insert (vValue : List (ℤ × Bean)) (s : Selection) :
    vValue.foldl Selection.insert s = ⟨s.fRet, s.setBeansRet ∪ (vValue.map Prod.snd).toFinset,
      s.nValueRet + (vValue.map Prod.fst).sum⟩ := by
  induction vValue generalizing s with
  | nil => simp
  | cons v vValue ih =>
    rw [List.foldl_cons, ih]
    have hset : Insert.insert v.2 s.setBeansRet ∪ (vValue.map Prod.snd).toFinset =
        s.setBeansRet ∪ ((v :: vValue).map Prod.snd).toFinset := by
      ext bean
      simp
    simp [Selection.insert, hset, Int.add_assoc]

theorem selects_foldl_insert {outputs : List Output} {nTargetValue : ℤ} {vValue : List (ℤ × Bean)}
    (hsub : vValue.Subperm (outputs.map Output.valued)) (hnodup : (outputs.map Output.bean).Nodup)
    (hle : nTargetValue ≤ (vValue.map Prod.fst).sum)
    (htotal : nTargetValue ≤ (outputs.map Output.nValue).sum) :
    (vValue.foldl Selection.insert ⟨true, ∅, 0⟩).Selects outputs nTargetValue := by
  have hbeans : (outputs.map Output.valued).map Prod.snd = outputs.map Output.bean := by
    rw [List.map_map]
    rfl
  have hvalue : ∀ v ∈ vValue, v.1 = v.2.nValue.toInt := by
    intro v hv
    obtain ⟨o, -, rfl⟩ := List.mem_map.mp (hsub.subset hv)
    rfl
  obtain ⟨l, hperm, hsublist⟩ := hsub
  have hmap := hperm.map Prod.snd
  have hsub := hsublist.map Prod.snd
  rw [hbeans] at hsub
  rw [foldl_insert, Finset.empty_union, Int.zero_add]
  refine ⟨iff_of_true rfl htotal, fun _ bean hbean => ?_, fun _ => ?_, fun _ => hle⟩
  · exact hsub.subset (hmap.mem_iff.mpr (List.mem_toFinset.mp hbean))
  · rw [List.sum_toFinset _ (hmap.nodup_iff.mp (hnodup.sublist hsub)), List.map_map]
    exact congrArg List.sum (List.map_congr_left fun v hv => (hvalue v hv).symm)

/-- The sum of the values that are included. -/
def picked : List ℤ → List Bool → ℤ
  | n :: ns, f :: vf => (if f then n else 0) + picked ns vf
  | _, _ => 0

theorem picked_set_true {ns : List ℤ} {vf : List Bool} {i : ℕ} {n : ℤ} (hn : ns[i]? = some n)
    (hf : vf[i]? = some false) : picked ns (vf.set i true) = picked ns vf + n := by
  induction ns generalizing vf i with
  | nil => cases hn
  | cons m ns ih =>
    cases vf with
    | nil => cases hf
    | cons f vf =>
      cases i with
      | zero =>
        simp only [List.getElem?_cons_zero, Option.some.injEq] at hn hf
        simp [picked, hn, hf, Int.add_comm]
      | succ i =>
        simp only [List.getElem?_cons_succ] at hn hf
        simp only [List.set_cons_succ, picked, ih hn hf]
        omega

theorem picked_replicate (ns : List ℤ) (f : Bool) :
    picked ns (.replicate ns.length f) = if f then ns.sum else 0 := by
  induction ns with
  | nil => cases f <;> rfl
  | cons n ns ih =>
    rw [List.length_cons, List.replicate_succ, picked, ih]
    cases f <;> simp

/-- A subset of the values with its sum, which reaches the target. -/
structure Reaches (nTargetValue : ℤ) (ns : List ℤ) (best : List Bool × ℤ) : Prop where
  length : best.1.length = ns.length
  sum : picked ns best.1 = best.2
  target_le : nTargetValue ≤ best.2

/-- What holds between two positions of a pass. -/
structure Searching (nTargetValue : ℤ) (ns : List ℤ) (s : SubsetSearch) : Prop where
  length : s.vfIncluded.length = ns.length
  sum : picked ns s.vfIncluded = s.nTotal
  best : Reaches nTargetValue ns (s.vfBest, s.nBest)

namespace Searching

variable {nTargetValue n : ℤ} {ns : List ℤ} {s : SubsetSearch} {i : ℕ}

theorem addValue (h : Searching nTargetValue ns s) (hn : ns[i]? = some n)
    (hf : s.vfIncluded[i]? = some false) :
    Searching nTargetValue ns (s.addValue nTargetValue i n) ∧
      ∀ j ≠ i, (s.addValue nTargetValue i n).vfIncluded[j]? = s.vfIncluded[j]? := by
  have hset := picked_set_true hn hf
  rw [h.sum] at hset
  have hback : (s.vfIncluded.set i true).set i false = s.vfIncluded := by
    rw [List.set_set]
    obtain ⟨hi, hf⟩ := List.getElem?_eq_some_iff.mp hf
    rw [← hf, List.set_getElem_self]
  unfold SubsetSearch.addValue
  dsimp only
  split
  · rename_i hreached
    rw [hback]
    refine ⟨⟨h.length, by simpa using h.sum, ?_⟩, fun j _ => rfl⟩
    split
    · exact ⟨by simpa using h.length, hset, hreached⟩
    · exact h.best
  · refine ⟨⟨by simpa using h.length, hset, h.best⟩, fun j hj => ?_⟩
    rw [List.getElem?_set_ne (Ne.symm hj)]

theorem pass_rand (h : Searching nTargetValue ns s) (rand : ℕ → Bool) {rest : List ℤ}
    (hrest : ns.drop i = rest) (hf : ∀ j, i ≤ j → j < ns.length → s.vfIncluded[j]? = some false) :
    Searching nTargetValue ns (subsetPass nTargetValue (some rand) i rest s) := by
  induction rest generalizing i s with
  | nil => exact h
  | cons n rest ih =>
    have hn : ns[i]? = some n := by
      rw [← List.head?_drop, hrest]
      rfl
    have hi : i < ns.length := (List.getElem?_eq_some_iff.mp hn).1
    have hdrop : ns.drop (i + 1) = rest := by
      rw [← List.tail_drop, hrest]
      rfl
    rw [subsetPass]
    split
    · obtain ⟨hs, hkept⟩ := h.addValue hn (hf i (Nat.le_refl i) hi)
      apply ih hs hdrop
      intro j hj hlen
      rw [hkept j (by omega)]
      exact hf j (by omega) hlen
    · exact ih h hdrop fun j hj => hf j (by omega)

theorem pass_rest (h : Searching nTargetValue ns s) {rest : List ℤ} (hrest : ns.drop i = rest) :
    Searching nTargetValue ns (subsetPass nTargetValue none i rest s) := by
  induction rest generalizing i s with
  | nil => exact h
  | cons n rest ih =>
    have hn : ns[i]? = some n := by
      rw [← List.head?_drop, hrest]
      rfl
    have hdrop : ns.drop (i + 1) = rest := by
      rw [← List.tail_drop, hrest]
      rfl
    rw [subsetPass]
    split
    · rename_i htake
      have hi : i < s.vfIncluded.length := by
        rw [h.length]
        exact (List.getElem?_eq_some_iff.mp hn).1
      have hf : s.vfIncluded[i]? = some false := by
        rw [List.getD_eq_getElem?_getD, List.getElem?_eq_getElem hi] at htake
        rw [List.getElem?_eq_getElem hi]
        simpa using htake
      exact ih (h.addValue hn hf).1 hdrop
    · exact ih h hdrop

end Searching

theorem reaches_subsetRound {nTargetValue : ℤ} {ns : List ℤ} {best : List Bool × ℤ}
    (h : Reaches nTargetValue ns best) (rand : ℕ → Bool) :
    Reaches nTargetValue ns (subsetRound nTargetValue ns rand best) := by
  have hstart : Searching nTargetValue ns
      ⟨.replicate ns.length false, 0, false, best.1, best.2⟩ :=
    ⟨List.length_replicate, picked_replicate ns false, h⟩
  have hrand := hstart.pass_rand rand (i := 0) rfl fun j _ hj => by simp [hj]
  unfold subsetRound
  dsimp only
  split
  · exact hrand.best
  · exact (hrand.pass_rest (i := 0) rfl).best

theorem reaches_subsetRounds {nTargetValue : ℤ} {ns : List ℤ} {rand : ℕ → ℕ → Bool}
    {iterations nRep : ℕ} {best : List Bool × ℤ} (h : Reaches nTargetValue ns best) :
    Reaches nTargetValue ns (subsetRounds nTargetValue ns rand iterations nRep best) := by
  induction iterations generalizing nRep best with
  | zero => exact h
  | succ iterations ih =>
    rw [subsetRounds]
    split
    · exact h
    · exact ih (reaches_subsetRound h (rand nRep))

theorem approximateBestSubset_spec {vValue : List (ℤ × Bean)} {nTotalLower nTargetValue : ℤ}
    (htotal : (vValue.map Prod.fst).sum = nTotalLower) (h : nTargetValue ≤ nTotalLower)
    (rand : ℕ → ℕ → Bool) (iterations : ℕ) : Reaches nTargetValue (vValue.map Prod.fst)
      (approximateBestSubset vValue nTotalLower nTargetValue rand iterations) := by
  apply reaches_subsetRounds
  refine ⟨by simp, ?_, h⟩
  have hall := picked_replicate (vValue.map Prod.fst) true
  rw [List.length_map] at hall
  rw [hall, if_pos rfl, htotal]

theorem sum_filter_zip (vValue : List (ℤ × Bean)) (vf : List Bool) :
    ((((vValue.zip vf).filter Prod.snd).map Prod.fst).map Prod.fst).sum =
      picked (vValue.map Prod.fst) vf := by
  induction vValue generalizing vf with
  | nil => rfl
  | cons v vValue ih =>
    cases vf with
    | nil => rfl
    | cons f vf =>
      have h := ih vf
      cases f <;> simp_all [picked]

theorem sublist_filter_zip (vValue : List (ℤ × Bean)) (vf : List Bool) :
    (((vValue.zip vf).filter Prod.snd).map Prod.fst).Sublist vValue := by
  induction vValue generalizing vf with
  | nil => exact List.Sublist.refl _
  | cons v vValue ih =>
    cases vf with
    | nil => exact List.nil_sublist _
    | cons f vf =>
      cases f with
      | false => exact (ih vf).cons v
      | true => exact (ih vf).cons_cons v

/-- The lists are those of the outputs so far. The larger bean, if there is one, has a value that no
smaller one comes up to. -/
structure Listed (limits : SelectionLimits) (outputs : List Output) (lists : BeanLists) : Prop where
  vValue : lists.vValue =
    (outputs.filter fun o => decide (o.nValue < limits.nEnough)).map Output.valued
  nTotalLower : lists.nTotalLower = (lists.vValue.map Prod.fst).sum
  larger : match lists.beanLowestLarger with
    | (nLarger, none) => nLarger = 2 ^ 63 - 1 ∧ ∀ o ∈ outputs, o.nValue < limits.nEnough
    | (nLarger, some bean) => ∃ o ∈ outputs, o.valued = (nLarger, bean) ∧ limits.nEnough ≤ nLarger

theorem listed_initial (limits : SelectionLimits) : Listed limits [] .initial where
  vValue := rfl
  nTotalLower := rfl
  larger := ⟨rfl, fun _ h => by cases h⟩

theorem Listed.concat {limits : SelectionLimits} {outputs : List Output} {lists : BeanLists}
    (h : Listed limits outputs lists) {o : Output} (hmax : o.nValue < 2 ^ 63 - 1) :
    Listed limits (outputs ++ [o])
      (if o.nValue < limits.nEnough then { lists with
          vValue := lists.vValue ++ [(o.nValue, o.bean)]
          nTotalLower := lists.nTotalLower + o.nValue }
        else if o.nValue < lists.beanLowestLarger.1 then
          { lists with beanLowestLarger := (o.nValue, some o.bean) }
        else lists) := by
  have hlarger := h.larger
  split
  · rename_i hsmall
    refine ⟨?_, ?_, ?_⟩
    · rw [h.vValue]
      simp [hsmall, Output.valued]
    · simp [h.nTotalLower]
    · dsimp only
      split <;> rename_i hl <;> rw [hl] at hlarger
      · refine ⟨hlarger.1, fun o' ho' => ?_⟩
        rcases List.mem_append.mp ho' with ho' | ho'
        · exact hlarger.2 o' ho'
        · rw [List.mem_singleton.mp ho']
          exact hsmall
      · obtain ⟨o', ho', hvalued, hle⟩ := hlarger
        exact ⟨o', List.mem_append_left _ ho', hvalued, hle⟩
  · rename_i hlarge
    have hvValue : lists.vValue =
        ((outputs ++ [o]).filter fun o => decide (o.nValue < limits.nEnough)).map Output.valued := by
      rw [h.vValue]
      simp [hlarge]
    split
    · refine ⟨hvValue, h.nTotalLower, ?_⟩
      exact ⟨o, by simp, rfl, Int.not_lt.mp hlarge⟩
    · rename_i hnot
      refine ⟨hvValue, h.nTotalLower, ?_⟩
      split <;> rename_i hl <;> rw [hl] at hlarger hnot
      · rw [hlarger.1] at hnot
        exact absurd hmax hnot
      · obtain ⟨o', ho', hvalued, hle⟩ := hlarger
        exact ⟨o', List.mem_append_left _ ho', hvalued, hle⟩

/-- How the loop ends: with an output of the value of the target, or with the lists. -/
def LoopEnds (limits : SelectionLimits) (outputs : List Output) : Bean ⊕ BeanLists → Prop
  | .inl bean => ∃ o ∈ outputs, o.valued = (limits.nTargetValue, bean)
  | .inr lists => Listed limits outputs lists

theorem minConfLoop_spec (limits : SelectionLimits) {outputs vBeans : List Output}
    {lists : BeanLists} (h : Listed limits outputs lists)
    (hmax : ∀ o ∈ vBeans, o.nValue < 2 ^ 63 - 1) :
    LoopEnds limits (outputs ++ vBeans.filter limits.takes) (minConfLoop limits vBeans lists) := by
  induction vBeans generalizing outputs lists with
  | nil => simpa [minConfLoop, LoopEnds] using h
  | cons o vBeans ih =>
    have hrest : ∀ o ∈ vBeans, o.nValue < 2 ^ 63 - 1 := fun o' ho' =>
      hmax o' (List.mem_cons_of_mem o ho')
    rw [minConfLoop]
    cases htakes : limits.takes o with
    | false =>
      rw [List.filter_cons_of_neg (by simp [htakes])]
      exact ih h hrest
    | true =>
      have hvalue : o.bean.nValue.toInt = o.nValue := rfl
      rw [List.filter_cons_of_pos htakes]
      simp only [Bool.not_true, Bool.false_eq_true, if_false, hvalue]
      by_cases hexact : o.nValue = limits.nTargetValue
      · rw [if_pos hexact]
        exact ⟨o, by simp, Prod.ext hexact rfl⟩
      · rw [if_neg hexact]
        have hnext := ih (h.concat (hmax o List.mem_cons_self)) hrest
        rw [List.append_assoc, List.singleton_append] at hnext
        simp only [← apply_ite (minConfLoop limits vBeans)]
        exact hnext

section Result

variable {limits : SelectionLimits} {outputs : List Output} {lists : BeanLists}

theorem selects_insert {nTargetValue : ℤ} (hnodup : (outputs.map Output.bean).Nodup)
    (hnonneg : ∀ o ∈ outputs, 0 ≤ o.nValue) {o : Output} (ho : o ∈ outputs)
    (hle : nTargetValue ≤ o.nValue) :
    ((⟨true, ∅, 0⟩ : Selection).insert o.valued).Selects outputs nTargetValue := by
  have hnonneg' : ∀ n ∈ outputs.map Output.nValue, 0 ≤ n := by
    intro n hn
    obtain ⟨o', ho', rfl⟩ := List.mem_map.mp hn
    exact hnonneg o' ho'
  have hsingle := List.single_le_sum hnonneg' _ (List.mem_map_of_mem ho)
  have hvalued : [o.valued].Subperm (outputs.map Output.valued) :=
    (List.singleton_sublist.mpr (List.mem_map_of_mem ho)).subperm
  exact selects_foldl_insert hvalued hnodup
    (by simpa [Output.valued] using hle) (hle.trans hsingle)

theorem Listed.sublist (h : Listed limits outputs lists) :
    lists.vValue.Sublist (outputs.map Output.valued) := by
  rw [h.vValue]
  exact List.filter_sublist.map _

theorem Listed.nTotalLower_le (h : Listed limits outputs lists)
    (hnonneg : ∀ o ∈ outputs, 0 ≤ o.nValue) :
    lists.nTotalLower ≤ (outputs.map Output.nValue).sum := by
  have hfst : (outputs.map Output.valued).map Prod.fst = outputs.map Output.nValue := by
    rw [List.map_map]
    rfl
  rw [h.nTotalLower, ← hfst]
  apply (h.sublist.map Prod.fst).sum_le_sum
  intro n hn
  rw [hfst] at hn
  obtain ⟨o, ho, rfl⟩ := List.mem_map.mp hn
  exact hnonneg o ho

theorem Listed.nTotalLower_eq (h : Listed limits outputs lists) {nLarger : ℤ}
    (hnone : lists.beanLowestLarger = (nLarger, none)) :
    lists.nTotalLower = (outputs.map Output.nValue).sum := by
  have hlarger := h.larger
  rw [hnone] at hlarger
  rw [h.nTotalLower, h.vValue, List.filter_eq_self.mpr, List.map_map]
  · rfl
  · intro o ho
    exact decide_eq_true (hlarger.2 o ho)

/-- The subset or the larger bean, when the smaller values are more than the target. -/
theorem selects_selectSubset (h : Listed limits outputs lists) (draws : SelectionDraws)
    (hnodup : (outputs.map Output.bean).Nodup) (hnonneg : ∀ o ∈ outputs, 0 ≤ o.nValue)
    (henough : limits.nTargetValue ≤ limits.nEnough)
    (hlt : limits.nTargetValue < lists.nTotalLower) :
    (selectSubset limits draws lists).Selects outputs limits.nTargetValue := by
  have htotal := hlt.le.trans (h.nTotalLower_le hnonneg)
  have hperm := draws.sortDown_perm lists.vValue
  have hsum : ((draws.sortDown lists.vValue).map Prod.fst).sum = lists.nTotalLower := by
    rw [(hperm.map Prod.fst).sum_eq, h.nTotalLower]
  have hsubset : ∀ {best : List Bool × ℤ},
      Reaches limits.nTargetValue ((draws.sortDown lists.vValue).map Prod.fst) best →
      Selection.Selects outputs limits.nTargetValue
        (((((draws.sortDown lists.vValue).zip best.1).filter Prod.snd).map Prod.fst).foldl
          Selection.insert ⟨true, ∅, 0⟩) := by
    intro best hbest
    apply selects_foldl_insert _ hnodup _ htotal
    · exact (sublist_filter_zip _ _).subperm.trans (hperm.subperm.trans h.sublist.subperm)
    · rw [sum_filter_zip, hbest.sum]
      exact hbest.target_le
  have hbest₀ := approximateBestSubset_spec hsum hlt.le (draws.rand 0) 1000
  unfold selectSubset
  dsimp only
  generalize hfirst : approximateBestSubset (draws.sortDown lists.vValue) lists.nTotalLower
    limits.nTargetValue (draws.rand 0) 1000 = first at hbest₀ ⊢
  have hbest : Reaches limits.nTargetValue ((draws.sortDown lists.vValue).map Prod.fst)
      (if first.2 ≠ limits.nTargetValue ∧ limits.nEnough ≤ lists.nTotalLower then
        approximateBestSubset (draws.sortDown lists.vValue) lists.nTotalLower limits.nEnough
          (draws.rand 1) 1000
      else first) := by
    split
    · rename_i hagain
      obtain ⟨hlength, hpicked, hle⟩ :=
        approximateBestSubset_spec hsum hagain.2 (draws.rand 1) 1000
      exact ⟨hlength, hpicked, henough.trans hle⟩
    · exact hbest₀
  revert hbest
  generalize (if first.2 ≠ limits.nTargetValue ∧ limits.nEnough ≤ lists.nTotalLower then
    approximateBestSubset (draws.sortDown lists.vValue) lists.nTotalLower limits.nEnough
      (draws.rand 1) 1000 else first) = best
  intro hbest
  have hlarger := h.larger
  split <;> rename_i hl <;> rw [hl] at hlarger
  · split
    · obtain ⟨o, ho, hvalued, hle⟩ := hlarger
      rw [← hvalued]
      apply selects_insert hnodup hnonneg ho
      rw [← (Prod.mk.inj hvalued).1] at hle
      exact henough.trans hle
    · exact hsubset hbest
  · exact hsubset hbest

theorem cent_toInt : cent.toInt = 1000000 := by decide

theorem nEnough_eq (h : limits.nTargetValue + cent.toInt < 2 ^ 63) (hpos : 0 ≤ limits.nTargetValue) :
    limits.nEnough = limits.nTargetValue + cent.toInt := by
  rw [SelectionLimits.nEnough, wrap64]
  rw [cent_toInt] at *
  apply Int.bmod_eq_of_le <;> omega

theorem nEnough_neg (h : 2 ^ 63 ≤ limits.nTargetValue + cent.toInt)
    (hlt : limits.nTargetValue < 2 ^ 63) : limits.nEnough < 0 := by
  rw [SelectionLimits.nEnough, wrap64]
  rw [cent_toInt] at *
  have hwrapped : (limits.nTargetValue + 1000000 - (2 ^ 64 : ℕ)).bmod (2 ^ 64) =
      limits.nTargetValue + 1000000 - (2 ^ 64 : ℕ) := by
    apply Int.bmod_eq_of_le <;> omega
  rw [← Int.sub_bmod_right, hwrapped]
  omega

/-- Where a cent more than the target is more, if there are outputs, the selection is right. -/
theorem selects_finishMinConf {ends : Bean ⊕ BeanLists} (h : LoopEnds limits outputs ends)
    (draws : SelectionDraws) (hnodup : (outputs.map Output.bean).Nodup)
    (hnonneg : ∀ o ∈ outputs, 0 ≤ o.nValue) (hpos : 0 ≤ limits.nTargetValue)
    (henough : outputs ≠ [] → limits.nTargetValue ≤ limits.nEnough) :
    (finishMinConf limits draws ends).Selects outputs limits.nTargetValue := by
  cases ends with
  | inl bean =>
    obtain ⟨o, ho, hvalued⟩ := h
    obtain ⟨hvalue, rfl⟩ := Prod.mk.inj hvalued
    exact selects_insert hnodup hnonneg ho hvalue.ge
  | inr lists =>
    have hle := h.nTotalLower_le hnonneg
    rw [finishMinConf]
    rcases lt_trichotomy lists.nTotalLower limits.nTargetValue with hlt | heq | hgt
    · rw [if_neg hlt.ne, if_pos hlt]
      have hlarger := h.larger
      split <;> rename_i hl
      · rw [hl] at hlarger
        obtain ⟨o, ho, hvalued, hle⟩ := hlarger
        rw [← (Prod.mk.inj hvalued).1] at hle
        rw [← hvalued]
        exact selects_insert hnodup hnonneg ho ((henough (List.ne_nil_of_mem ho)).trans hle)
      · -- all outputs are smaller ones
        have htotal := h.nTotalLower_eq hl
        refine ⟨iff_of_false Bool.false_ne_true (by omega), ?_, ?_, ?_⟩ <;> intro hret <;> cases hret
    · rw [if_pos heq]
      apply selects_foldl_insert h.sublist.subperm hnodup
      · rw [← h.nTotalLower]
        exact heq.ge
      · omega
    · rw [if_neg hgt.ne', if_neg (by omega)]
      refine selects_selectSubset h draws hnodup hnonneg (henough ?_) hgt
      rintro rfl
      rw [h.nTotalLower, h.vValue] at hgt
      exact absurd hgt (Int.not_lt.mpr hpos)

theorem finishMinConf_of_large {ends : Bean ⊕ BeanLists} (h : LoopEnds limits outputs ends)
    (draws : SelectionDraws) (hne : outputs ≠ []) (hpos : 0 < limits.nTargetValue)
    (hlarge : ∀ o ∈ outputs, limits.nEnough ≤ o.nValue) :
    (finishMinConf limits draws ends).fRet = true ∧
      ∃ o ∈ outputs, (finishMinConf limits draws ends).nValueRet = o.nValue := by
  cases ends with
  | inl bean =>
    obtain ⟨o, ho, hvalued⟩ := h
    obtain ⟨hvalue, rfl⟩ := Prod.mk.inj hvalued
    exact ⟨rfl, o, ho, Int.zero_add _⟩
  | inr lists =>
    have hvValue : lists.vValue = [] := by
      rw [h.vValue, List.map_eq_nil_iff, List.filter_eq_nil_iff]
      intro o ho
      simpa using hlarge o ho
    have hzero : lists.nTotalLower = 0 := by
      rw [h.nTotalLower, hvValue]
      rfl
    rw [finishMinConf, if_neg (by omega), if_pos (by omega)]
    have hlarger := h.larger
    split <;> rename_i hl <;> rw [hl] at hlarger
    · obtain ⟨o, ho, hvalued, hle⟩ := hlarger
      refine ⟨rfl, o, ho, ?_⟩
      rw [← (Prod.mk.inj hvalued).1]
      exact Int.zero_add _
    · obtain ⟨o, ho⟩ := List.exists_mem_of_ne_nil _ hne
      exact absurd (hlarger.2 o ho) (Int.not_lt.mpr (hlarge o ho))

end Result

/-- For outputs with values in money range, `SelectBeansMinConf` selects what it should, as long as
a cent more than the target does not overflow; past that it does so only when it may take none. -/
theorem selectBeansMinConf_selects_iff (P : Params) (limits : SelectionLimits)
    (draws : SelectionDraws) (vBeans : List Output)
    (hdistinct : (vBeans.map fun o => o.bean.outPoint P).Nodup)
    (hrange : ∀ o ∈ vBeans, moneyRange o.bean.nValue = true) (hpos : 0 ≤ limits.nTargetValue)
    (hlt : limits.nTargetValue < 2 ^ 63) :
    (selectBeansMinConf limits draws vBeans).Selects (vBeans.filter limits.takes)
        limits.nTargetValue ↔
      limits.nTargetValue + cent.toInt < 2 ^ 63 ∨ vBeans.filter limits.takes = [] := by
  have hperm := (draws.shuffle_perm vBeans).filter limits.takes
  have hvalue : ∀ o ∈ vBeans, 0 ≤ o.nValue ∧ o.nValue ≤ 2100000000000000000 := fun o ho =>
    moneyRange_iff.mp (hrange o ho)
  have hnodup : ((vBeans.filter limits.takes).map Output.bean).Nodup := by
    have hbeans : (vBeans.map Output.bean).Nodup := by
      apply List.Nodup.of_map fun bean : Bean => bean.outPoint P
      rwa [List.map_map]
    exact hbeans.sublist (List.filter_sublist.map _)
  have hends := minConfLoop_spec limits (listed_initial limits) fun o ho =>
    (hvalue o ((draws.shuffle_perm vBeans).subset ho)).2.trans_lt (by decide)
  rw [List.nil_append] at hends
  have hswap : ∀ {s : Selection}, s.Selects (vBeans.filter limits.takes) limits.nTargetValue ↔
      s.Selects ((draws.shuffle vBeans).filter limits.takes) limits.nTargetValue :=
    ⟨fun h => h.perm hperm.symm, fun h => h.perm hperm⟩
  have hempty : vBeans.filter limits.takes = [] ↔
      (draws.shuffle vBeans).filter limits.takes = [] :=
    ⟨fun h => (h ▸ hperm).eq_nil, fun h => (h ▸ hperm.symm).eq_nil⟩
  rw [hswap, hempty]
  replace hnodup := (hperm.map Output.bean).nodup_iff.mpr hnodup
  replace hvalue : ∀ o ∈ (draws.shuffle vBeans).filter limits.takes,
      0 ≤ o.nValue ∧ o.nValue ≤ 2100000000000000000 := fun o ho =>
    hvalue o (List.mem_filter.mp (hperm.subset ho)).1
  generalize (draws.shuffle vBeans).filter limits.takes = outputs at hends hnodup hvalue ⊢
  unfold selectBeansMinConf
  generalize minConfLoop limits (draws.shuffle vBeans) .initial = ends at hends ⊢
  constructor
  · intro h
    by_contra hnot
    obtain ⟨hover, hne⟩ := not_or.mp hnot
    have hneg := nEnough_neg (Int.not_lt.mp hover) hlt
    rw [cent_toInt] at hover
    obtain ⟨hret, o, ho, hvalueRet⟩ := finishMinConf_of_large hends draws hne (by omega)
      fun o ho => hneg.le.trans (hvalue o ho).1
    have hle := h.target_le hret
    have hmax := (hvalue o ho).2
    omega
  · intro h
    apply selects_finishMinConf hends draws hnodup (fun o ho => (hvalue o ho).1) hpos
    intro hne
    have hover := h.resolve_right hne
    rw [nEnough_eq hover hpos, cent_toInt]
    omega

namespace Sample

def draws : SelectionDraws where
  shuffle := id
  shuffle_perm := List.Perm.refl
  sortDown vValue := vValue.mergeSort fun a b => decide (b.1 ≤ a.1)
  sortDown_perm _ := List.mergeSort_perm _ _
  sortDown_sorted vValue := by
    have h : (vValue.mergeSort fun a b => decide (b.1 ≤ a.1)).Pairwise
        fun a b => decide (b.1 ≤ a.1) = true :=
      List.pairwise_mergeSort (by simp only [decide_eq_true_eq]; omega)
        (by simp only [Bool.or_eq_true, decide_eq_true_eq]; omega) vValue
    exact h.imp of_decide_eq_true
  rand _ _ i := i % 2 == 0

def output (label : UInt32) (nBeans : ℕ) : Output :=
  ⟨⟨.ofTransaction (spend label [] [out nBeans]), 0⟩, 5⟩

def limits (nTargetValue : ℤ) : SelectionLimits := ⟨fun _ => false, nTargetValue, 0, 1, 1⟩

def purse : List Output := [output 1 300, output 2 500, output 3 200]

end Sample

open Sample in
theorem selectBeansMinConf_selects_purse :
    (selectBeansMinConf (limits 60000000000) draws purse).Selects purse 60000000000 :=
  (selectBeansMinConf_selects_iff params (limits 60000000000) draws purse (by decide +kernel)
    (by decide +kernel) (by decide) (by decide)).mpr (Or.inl (by decide))

open Sample in
/-- A cent more than the largest target is less than nothing. -/
theorem selectBeansMinConf_overflow : ¬∀ (P : Params) (limits : SelectionLimits)
    (draws : SelectionDraws) (vBeans : List Output),
    (vBeans.map fun o => o.bean.outPoint P).Nodup →
    (∀ o ∈ vBeans, moneyRange o.bean.nValue = true) → (vBeans.map Output.nValue).sum < 2 ^ 63 →
    0 ≤ limits.nTargetValue → limits.nTargetValue < 2 ^ 63 →
    (selectBeansMinConf limits draws vBeans).Selects (vBeans.filter limits.takes)
      limits.nTargetValue := by
  intro h
  have hselects := h params (limits (2 ^ 63 - 1)) draws purse (by decide +kernel) (by decide +kernel)
    (by decide +kernel) (by decide) (by decide)
  exact absurd (hselects.ret_iff.mp (by decide +kernel)) (by decide +kernel)

end Beancash
