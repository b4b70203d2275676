import Beancash.SelectBeans

namespace Beancash

/-- `CoinWeightCost` at the time that `GetTime` gives. -/
def coinWeightCost (P : Params) (nTime : ℤ) (output : Output) : UInt64 :=
  let nTimeWeight := min (nTime - output.bean.wtx.tx.nTime.toNat) P.nStakeMaxAge.toNat
  .ofNat ((output.bean.nValue.toInt * nTimeWeight).tdiv (24 * 60 * 60)).natAbs

/-- An element of `vValue`: a value and a cost with the output that they are of. -/
structure Coin where
  nValue : ℤ
  nCost : UInt64
  bean : Bean
deriving DecidableEq

/-- The time at which the age of each output is taken, and how `sort` orders equal ages. -/
structure BeanAgeDraws where
  getTime : Output → ℤ
  sort : List (Output × UInt64) → List (Output × UInt64)
  sort_perm : ∀ mCoins, (sort mCoins).Perm mCoins
  sort_sorted : ∀ mCoins, (sort mCoins).Pairwise fun a b => a.2 ≤ b.2

/-- What the loop over the outputs fills. -/
structure CoinLists where
  vValue : List Coin
  nTotalLower : ℤ
  coinLowestLarger : Option Coin

namespace CoinLists

def initial : CoinLists := ⟨[], 0, none⟩

/-- The cost that a larger coin has to be below: first that of no coin. -/
def lowestCost (lists : CoinLists) : UInt64 :=
  match lists.coinLowestLarger with
  | some coin => coin.nCost
  | none => 2 ^ 63 - 1

end CoinLists

def byBeanAgeLoop (limits : SelectionLimits) : List (Output × UInt64) → CoinLists → CoinLists
  | [], lists => lists
  | (output, nCost) :: mCoins, lists =>
    let coin : Coin := ⟨output.bean.nValue.toInt, nCost, output.bean⟩
    if !limits.takes output then byBeanAgeLoop limits mCoins lists
    else if coin.nValue < limits.nEnough then
      byBeanAgeLoop limits mCoins { lists with
        vValue := lists.vValue ++ [coin]
        nTotalLower := lists.nTotalLower + coin.nValue }
    else if nCost < lists.lowestCost then
      byBeanAgeLoop limits mCoins { lists with coinLowestLarger := some coin }
    else byBeanAgeLoop limits mCoins lists

/-- `gcd`; `fuel` is more than `m`. -/
def walletGcd : ℕ → ℤ → ℤ → ℤ
  | fuel + 1, n, m => if m = 0 then n else walletGcd fuel m (n.tmod m)
  | 0, n, _ => n

def gcdOf (n m : ℤ) : ℤ := walletGcd (m.natAbs + 1) n m

/-- The greatest common divisor of the values and the target. -/
def coinsGcd (nTargetValue : ℤ) : List Coin → Option ℤ
  | [] => none
  | coin :: coins =>
    some (gcdOf nTargetValue (coins.foldl (fun nGCD coin => gcdOf coin.nValue nGCD) coin.nValue))

/-- `denom`: the approximation if it is coarser. The product may overflow. -/
def denominator (size : ℕ) (nTotalValue nTargetValue nGCD : ℤ) : ℤ :=
  let approx := (wrap64 (size * (nTotalValue - nTargetValue))).tdiv 25
  if nGCD < approx then approx else nGCD

/-- The list of values, the first of which are the columns of the dynamic program: coins, and from
`nBeginBundles` on bundles, whose coins are between two of the positions `vZeroValueBundles`. -/
structure Bundling where
  vValue : List Coin
  nBeginBundles : ℕ
  nTotalCoinValues : ℕ
  vZeroValueBundles : List ℕ

/-- The loop that makes the bundles, from position `it` on with `n` coins to go. The value and the
cost of a bundle replace those of a coin that is in a bundle already. -/
def bundleLoop (denom : ℤ) : ℕ → ℕ → ℤ × UInt64 → Bundling → Option Bundling
  | 0, _, _, b => some b
  | n + 1, it, pBundle, b => do
    let coin ← b.vValue[it]?
    let pBundle := (pBundle.1 + coin.nValue, pBundle.2 + coin.nCost)
    if denom ≤ pBundle.1 then
      let entry ← b.vValue[b.nTotalCoinValues]?
      bundleLoop denom n (it + 1) (0, 0) { b with
        vValue := b.vValue.set b.nTotalCoinValues
          { entry with nValue := pBundle.1, nCost := pBundle.2 }
        nTotalCoinValues := b.nTotalCoinValues + 1
        vZeroValueBundles := b.vZeroValueBundles ++ [it + 1] }
    else bundleLoop denom n (it + 1) pBundle b

/-- The coins below the denominator go to the end, in their order, and into bundles. -/
def makeBundles (denom : ℤ) (vValue : List Coin) : Option Bundling :=
  let nBeginBundles := (vValue.filter fun coin => decide (denom ≤ coin.nValue)).length
  bundleLoop denom (vValue.length - nBeginBundles) nBeginBundles (0, 0) {
    vValue := vValue.filter (fun coin => decide (denom ≤ coin.nValue)) ++
      vValue.filter fun coin => !decide (denom ≤ coin.nValue)
    nBeginBundles := nBeginBundles
    nTotalCoinValues := nBeginBundles
    vZeroValueBundles := [nBeginBundles] }

namespace Bundling

/-- Without an approximation every coin is on its own. -/
def single (vValue : List Coin) : Bundling := ⟨vValue, vValue.length, vValue.length, []⟩

/-- The coins from one position to another. -/
def between (b : Bundling) (first last : ℕ) : Option (List Coin) :=
  if first ≤ last then (List.range' first (last - first)).mapM fun it => b.vValue[it]? else none

/-- Pick the coin or the bundle at a position. -/
def pick (b : Bundling) (nValue : ℕ) (s : Selection) : Option Selection := do
  let coin ← b.vValue[nValue]?
  let coins ←
    if b.nBeginBundles ≤ nValue then do
      let first ← b.vZeroValueBundles[nValue - b.nBeginBundles]?
      let last ← b.vZeroValueBundles[nValue - b.nBeginBundles + 1]?
      b.between first last
    else some [coin]
  return { s with
    setBeansRet := coins.foldl (fun setCoinsRet coin => Insert.insert coin.bean setCoinsRet)
      s.setBeansRet
    nValueRet := s.nValueRet + coin.nValue }

/-- The values in units of the denominator. -/
def normalized (b : Bundling) (denom : ℤ) : Option ℤ := do
  let coins ← (List.range b.nTotalCoinValues).mapM fun i => b.vValue[i]?
  return (coins.map fun coin => coin.nValue.tdiv denom).sum

/-- While too much value is lost by the division, the next coin or bundle is picked; `n` are
left. -/
def prepick (b : Bundling) (denom nTargetValue : ℤ) : ℕ → ℕ → ℤ → Selection →
    Option (ℕ × ℤ × Selection)
  | 0, nBeginCoinValues, nTotalValue, s => some (nBeginCoinValues, nTotalValue, s)
  | n + 1, nBeginCoinValues, nTotalValue, s =>
    if nTotalValue ≤ (nTargetValue - s.nValueRet).tdiv denom then do
      let coin ← b.vValue[nBeginCoinValues]?
      let s ← b.pick nBeginCoinValues s
      prepick b denom nTargetValue n (nBeginCoinValues + 1)
        (nTotalValue - coin.nValue.tdiv denom) s
    else some (nBeginCoinValues, nTotalValue, s)

end Bundling

/-- A row of the matrices `M` and `B` from the one before of `M`: the highest cost that can be left
out with the value of the column, and the column from which it comes. -/
def knapsackRow (nWeight : ℕ) (nCost : UInt64) (row : List UInt64) : Option (List (UInt64 × ℕ)) :=
  (List.range row.length).mapM fun j => do
    let nBest ← row[j]?
    if nWeight ≤ j then
      let nPrev ← row[j - nWeight]?
      let nStep := nPrev + nCost
      if nStep ≤ nBest then return (nBest, j) else return (nStep, j - nWeight)
    else return (nBest, j)

/-- The rows of `B`, one for each of the values. -/
def knapsackRows (denom : ℤ) : List Coin → List UInt64 → Option (List (List ℕ))
  | [], _ => some []
  | coin :: coins, row => do
    let next ← knapsackRow (coin.nValue.tdiv denom).toNat coin.nCost row
    let rows ← knapsackRows denom coins (next.map Prod.fst)
    return next.map Prod.snd :: rows

/-- Trace back the optimal solution over the first `i` rows: what comes from its own column is
picked. -/
def traceBack (b : Bundling) (nBeginCoinValues : ℕ) (rows : List (List ℕ)) : ℕ → ℤ → Selection →
    Option Selection
  | 0, _, s => some s
  | i + 1, nPrev, s => do
    if nPrev < 0 then none
    let row ← rows[i]?
    let nNext ← row[nPrev.toNat]?
    let s ← if nPrev = nNext then b.pick (nBeginCoinValues + i) s else some s
    traceBack b nBeginCoinValues rows i nNext s

/-- Small outputs that could not be bundled are added until the target is reached. -/
def addLeftOver (nTargetValue : ℤ) : List Coin → Selection → Selection
  | [], s => s
  | coin :: coins, s =>
    if s.nValueRet < nTargetValue then
      addLeftOver nTargetValue coins (s.insert (coin.nValue, coin.bean))
    else s

/-- The dynamic program over the values from `nBeginCoinValues` on. The number of columns is the
value that may be left out. -/
def solve (b : Bundling) (denom nTargetValue : ℤ) (nBeginCoinValues : ℕ) (nTotalValue : ℤ)
    (s : Selection) : Option Selection := do
  let nAppend := if (nTargetValue - s.nValueRet).tmod denom ≠ 0 then 0 else 1
  let nColumns := nTotalValue - (nTargetValue - s.nValueRet).tdiv denom + nAppend
  -- neither negative nor more than the loops over the columns can count
  if nColumns < 0 ∨ 2 ^ 32 ≤ nColumns then none
  let coins ← (List.range' nBeginCoinValues (b.nTotalCoinValues - nBeginCoinValues)).mapM
    fun i => b.vValue[i]?
  let rows ← knapsackRows denom coins (.replicate nColumns.toNat 0)
  let s ← traceBack b nBeginCoinValues rows coins.length (nColumns - 1) s
  match b.vZeroValueBundles.getLast? with
  | some back =>
    if s.nValueRet < nTargetValue then return addLeftOver nTargetValue (b.vValue.drop back) s
    else return s
  | none => return s

/-- The approximation: what is left of the values must be worth more than the target, or some are
picked before the dynamic program. -/
def solveBundled (denom nTargetValue : ℤ) (vValue : List Coin) : Option Selection := do
  let b ← makeBundles denom vValue
  let nTotalValue ← b.normalized denom
  if nTotalValue ≤ nTargetValue.tdiv denom then
    let (nBeginCoinValues, nTotalValue, s) ←
      b.prepick denom nTargetValue b.nTotalCoinValues 0 nTotalValue ⟨true, ∅, 0⟩
    if nTargetValue ≤ s.nValueRet then return s
    else solve b denom nTargetValue nBeginCoinValues nTotalValue s
  else solve b denom nTargetValue 0 nTotalValue ⟨true, ∅, 0⟩

/-- `SelectBeansMinConfByBeanAge` after the loop. -/
def finishByBeanAge (nTargetValue : ℤ) (lists : CoinLists) : Option Selection :=
  if lists.nTotalLower < nTargetValue then
    match lists.coinLowestLarger with
    | some coin => some ((⟨true, ∅, 0⟩ : Selection).insert (coin.nValue, coin.bean))
    | none => some ⟨false, ∅, 0⟩
  else do
    let nGCD ← coinsGcd nTargetValue lists.vValue
    let nTotalValue := (lists.vValue.map Coin.nValue).sum
    let denom := denominator lists.vValue.length nTotalValue nTargetValue nGCD
    if nTotalValue = nTargetValue then
      return ⟨true, (lists.vValue.map Coin.bean).toFinset, nTotalValue⟩
    else if denom ≠ nGCD then solveBundled denom nTargetValue lists.vValue
    else solve (.single lists.vValue) denom nTargetValue 0 (nTotalValue.tdiv denom) ⟨true, ∅, 0⟩

/-- `CWallet::SelectBeansMinConfByBeanAge` -/
def selectBeansMinConfByBeanAge (P : Params) (limits : SelectionLimits) (draws : BeanAgeDraws)
    (vCoins : List Output) : Option Selection :=
  let mCoins := vCoins.map fun output => (output, coinWeightCost P (draws.getTime output) output)
  finishByBeanAge limits.nTargetValue (byBeanAgeLoop limits (draws.sort mCoins) .initial)

end Beancash
