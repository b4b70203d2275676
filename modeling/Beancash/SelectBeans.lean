import Beancash.BeanStake
import Mathlib.Algebra.BigOperators.Group.Finset.Basic

namespace Beancash

/-- What an `int64_t` holds after an overflow. -/
def wrap64 (n : ℤ) : ℤ := n.bmod (2 ^ 64)

structure Output where
  bean : Bean
  nDepth : ℤ
deriving DecidableEq

/-- How a call of a selection is limited; `isFromMe` is `CWalletTx::IsFromMe`. -/
structure SelectionLimits where
  isFromMe : WalletTx → Bool
  nTargetValue : ℤ
  nSpendTime : UInt32
  nConfMine : ℤ
  nConfTheirs : ℤ

namespace SelectionLimits

/-- Whether an output is deep enough, and not younger than the spend. -/
def takes (limits : SelectionLimits) (output : Output) : Bool :=
  !decide (output.nDepth <
    if limits.isFromMe output.bean.wtx then limits.nConfMine else limits.nConfTheirs) &&
  !decide (limits.nSpendTime < output.bean.wtx.tx.nTime)

/-- `nTargetValue + CENT` -/
def nEnough (limits : SelectionLimits) : ℤ := wrap64 (limits.nTargetValue + cent.toInt)

end SelectionLimits

/-- What a selection returns: `setBeansRet` and `nValueRet` with the result. -/
structure Selection where
  fRet : Bool
  setBeansRet : Finset Bean
  nValueRet : ℤ
deriving DecidableEq

/-- A bean with its value is put into the set. -/
def Selection.insert (s : Selection) (v : ℤ × Bean) : Selection :=
  { s with setBeansRet := Insert.insert v.2 s.setBeansRet, nValueRet := s.nValueRet + v.1 }

/-- What chance and unspecified order do in a call: the permutations of `random_shuffle` and, among
equal values, of `sort`, and the bits of `rand` by search, round and position. -/
structure SelectionDraws where
  shuffle : List Output → List Output
  shuffle_perm : ∀ vBeans, (shuffle vBeans).Perm vBeans
  sortDown : List (ℤ × Bean) → List (ℤ × Bean)
  sortDown_perm : ∀ vValue, (sortDown vValue).Perm vValue
  sortDown_sorted : ∀ vValue, (sortDown vValue).Pairwise fun a b => b.1 ≤ a.1
  rand : ℕ → ℕ → ℕ → Bool

/-- The variables of a round of the search. -/
structure SubsetSearch where
  vfIncluded : List Bool
  nTotal : ℤ
  fReachedTarget : Bool
  vfBest : List Bool
  nBest : ℤ

/-- The value at a position is included, and left out again once the target is reached. -/
def SubsetSearch.addValue (nTargetValue : ℤ) (i : ℕ) (n : ℤ) (s : SubsetSearch) : SubsetSearch :=
  let nTotal := s.nTotal + n
  let vfIncluded := s.vfIncluded.set i true
  if nTargetValue ≤ nTotal then
    { s with
      fReachedTarget := true
      nBest := if nTotal < s.nBest then nTotal else s.nBest
      vfBest := if nTotal < s.nBest then vfIncluded else s.vfBest
      nTotal := nTotal - n
      vfIncluded := vfIncluded.set i false }
  else { s with nTotal := nTotal, vfIncluded := vfIncluded }

/-- A pass over the values from position `i` on: the first takes some of them by chance, the second
those that are not included. -/
def subsetPass (nTargetValue : ℤ) (rand : Option (ℕ → Bool)) : ℕ → List ℤ → SubsetSearch →
    SubsetSearch
  | _, [], s => s
  | i, n :: ns, s =>
    let fTake := match rand with
      | some rand => rand i
      | none => !s.vfIncluded.getD i false
    subsetPass nTargetValue rand (i + 1) ns (if fTake then s.addValue nTargetValue i n else s)

/-- One round, with what is the best so far. -/
def subsetRound (nTargetValue : ℤ) (ns : List ℤ) (rand : ℕ → Bool) (best : List Bool × ℤ) :
    List Bool × ℤ :=
  let s := subsetPass nTargetValue (some rand) 0 ns
    ⟨.replicate ns.length false, 0, false, best.1, best.2⟩
  let s := if s.fReachedTarget then s else subsetPass nTargetValue none 0 ns s
  (s.vfBest, s.nBest)

/-- The rounds from `nRep` on, as many as are left. -/
def subsetRounds (nTargetValue : ℤ) (ns : List ℤ) (rand : ℕ → ℕ → Bool) :
    ℕ → ℕ → List Bool × ℤ → List Bool × ℤ
  | 0, _, best => best
  | iterations + 1, nRep, best =>
    if best.2 = nTargetValue then best
    else subsetRounds nTargetValue ns rand iterations (nRep + 1)
      (subsetRound nTargetValue ns (rand nRep) best)

/-- `ApproximateBestSubset`: the best subset and its value. -/
def approximateBestSubset (vValue : List (ℤ × Bean)) (nTotalLower nTargetValue : ℤ)
    (rand : ℕ → ℕ → Bool) (iterations : ℕ) : List Bool × ℤ :=
  subsetRounds nTargetValue (vValue.map Prod.fst) rand iterations 0
    (.replicate vValue.length true, nTotalLower)

/-- What the loop over the outputs fills. -/
structure BeanLists where
  vValue : List (ℤ × Bean)
  nTotalLower : ℤ
  beanLowestLarger : ℤ × Option Bean

def BeanLists.initial : BeanLists := ⟨[], 0, (2 ^ 63 - 1, none)⟩

/-- The loop over the shuffled outputs, which ends with one that has the value of the target. -/
def minConfLoop (limits : SelectionLimits) : List Output → BeanLists → Bean ⊕ BeanLists
  | [], lists => .inr lists
  | output :: vBeans, lists =>
    let n := output.bean.nValue.toInt
    if !limits.takes output then minConfLoop limits vBeans lists
    else if n = limits.nTargetValue then .inl output.bean
    else if n < limits.nEnough then
      minConfLoop limits vBeans { lists with
        vValue := lists.vValue ++ [(n, output.bean)]
        nTotalLower := lists.nTotalLower + n }
    else if n < lists.beanLowestLarger.1 then
      minConfLoop limits vBeans { lists with beanLowestLarger := (n, some output.bean) }
    else minConfLoop limits vBeans lists

/-- The end of `SelectBeansMinConf`, when the smaller values are more than the target. -/
def selectSubset (limits : SelectionLimits) (draws : SelectionDraws) (lists : BeanLists) :
    Selection :=
  let vValue := draws.sortDown lists.vValue
  let best := approximateBestSubset vValue lists.nTotalLower limits.nTargetValue (draws.rand 0) 1000
  let best :=
    if best.2 ≠ limits.nTargetValue ∧ limits.nEnough ≤ lists.nTotalLower then
      approximateBestSubset vValue lists.nTotalLower limits.nEnough (draws.rand 1) 1000
    else best
  match lists.beanLowestLarger with
  | (nLarger, some bean) =>
    -- the larger bean, unless the subset is exact or far enough above the target, and closer
    if best.2 ≠ limits.nTargetValue ∧ best.2 < limits.nEnough ∨ nLarger ≤ best.2 then
      (⟨true, ∅, 0⟩ : Selection).insert (nLarger, bean)
    else (((vValue.zip best.1).filter Prod.snd).map Prod.fst).foldl Selection.insert ⟨true, ∅, 0⟩
  | (_, none) =>
    (((vValue.zip best.1).filter Prod.snd).map Prod.fst).foldl Selection.insert ⟨true, ∅, 0⟩

/-- `SelectBeansMinConf` after the loop. -/
def finishMinConf (limits : SelectionLimits) (draws : SelectionDraws) : Bean ⊕ BeanLists → Selection
  | .inl bean => (⟨true, ∅, 0⟩ : Selection).insert (bean.nValue.toInt, bean)
  | .inr lists =>
    if lists.nTotalLower = limits.nTargetValue then
      lists.vValue.foldl Selection.insert ⟨true, ∅, 0⟩
    else if lists.nTotalLower < limits.nTargetValue then
      match lists.beanLowestLarger with
      | (nLarger, some bean) => (⟨true, ∅, 0⟩ : Selection).insert (nLarger, bean)
      | (_, none) => ⟨false, ∅, 0⟩
    else selectSubset limits draws lists

/-- `CWallet::SelectBeansMinConf` -/
def selectBeansMinConf (limits : SelectionLimits) (draws : SelectionDraws) (vBeans : List Output) :
    Selection :=
  finishMinConf limits draws (minConfLoop limits (draws.shuffle vBeans) .initial)

end Beancash
