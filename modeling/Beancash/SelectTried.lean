import Mathlib.Logic.Equiv.Basic
import Mathlib.Algebra.Group.End
import Mathlib.Data.List.GetD

namespace Beancash

def addrmanTriedEntriesInspectOnEvict : ℕ := 4

/-- The variables of the loop of `SelectTried`. -/
structure TriedSearch where
  vTried : List ℤ
  nOldest : ℤ
  nOldestPos : ℤ

/-- Is the last success of an entry older than that of the oldest so far? `mapInfo` has the
`nLastSuccess` of the known entries. -/
def isOlder (mapInfo : ℤ → Option ℤ) (nTemp nOldest : ℤ) : Option Bool :=
  if nOldest = -1 then some true
  else do
    let last ← mapInfo nTemp
    let oldest ← mapInfo nOldest
    return decide (last < oldest)

/-- One round, with what `GetRandInt` returned in it. -/
def TriedSearch.round (mapInfo : ℤ → Option ℤ) (rand : ℕ → ℕ) (s : TriedSearch) (i : ℕ) :
    Option TriedSearch := do
  let nPos := rand i + i
  let nTemp ← s.vTried[nPos]?
  let front ← s.vTried[i]?
  let vTried := (s.vTried.set nPos front).set i nTemp
  guard (s.nOldest = -1 ∨ (mapInfo nTemp).isSome)
  let older ← isOlder mapInfo nTemp s.nOldest
  return if older then ⟨vTried, nTemp, nPos⟩ else { s with vTried := vTried }

/-- `SelectTried`, with the bucket it leaves. -/
def selectTried (mapInfo : ℤ → Option ℤ) (rand : ℕ → ℕ) (vTried : List ℤ) : Option TriedSearch :=
  (List.range (min addrmanTriedEntriesInspectOnEvict vTried.length)).foldlM
    (TriedSearch.round mapInfo rand) ⟨vTried, -1, -1⟩

/-- The bucket has the ids of known entries, none of them twice. -/
structure TriedBucket (mapInfo : ℤ → Option ℤ) (vTried : List ℤ) : Prop where
  nonneg : ∀ id ∈ vTried, 0 ≤ id
  known : ∀ id ∈ vTried, (mapInfo id).isSome
  nodup : vTried.Nodup

/-- Which position the entries had that stand at each position after `n` exchanges. -/
def exchanged (nPos : ℕ → ℕ) : ℕ → Equiv.Perm ℕ
  | 0 => 1
  | i + 1 => exchanged nPos i * Equiv.swap i (nPos i)

section Exchanged

variable {nPos : ℕ → ℕ} {size : ℕ}

theorem exchanged_lt (hpos : ∀ i < size, nPos i < size) {n k : ℕ} (hn : n ≤ size) (hk : k < size) :
    exchanged nPos n k < size := by
  induction n generalizing k with
  | zero => exact hk
  | succ i ih =>
    refine ih (by omega) ?_
    rw [Equiv.swap_apply_def]
    split_ifs
    · exact hpos i hn
    · exact hn
    · exact hk

theorem exchanged_of_lt (hpos : ∀ i, i ≤ nPos i) {n i : ℕ} (hi : i < n) :
    exchanged nPos n i = exchanged nPos i (nPos i) := by
  induction n with
  | zero => exact absurd hi (Nat.not_lt_zero i)
  | succ n ih =>
    rcases Nat.lt_succ_iff_lt_or_eq.mp hi with hlt | rfl
    · have hle := hpos n
      rw [exchanged, Equiv.Perm.mul_apply, Equiv.swap_apply_of_ne_of_ne (by omega) (by omega)]
      exact ih hlt
    · rw [exchanged, Equiv.Perm.mul_apply, Equiv.swap_apply_left]

theorem getElem?_exchange {α : Type} {l : List α} {i p : ℕ} {a b : α} (ha : l[p]? = some a)
    (hb : l[i]? = some b) (k : ℕ) : ((l.set p b).set i a)[k]? = l[Equiv.swap i p k]? := by
  have hi : i < l.length := (List.getElem?_eq_some_iff.mp hb).1
  have hp : p < l.length := (List.getElem?_eq_some_iff.mp ha).1
  rw [Equiv.swap_apply_def]
  split_ifs with hki hkp
  · rw [hki, ha, List.getElem?_set_self (by rwa [List.length_set])]
  · rw [hkp, hb, List.getElem?_set_ne (fun h => hki (hkp.trans h.symm)), List.getElem?_set_self hp]
  · rw [List.getElem?_set_ne (Ne.symm hki), List.getElem?_set_ne (Ne.symm hkp)]

end Exchanged

/-- The round `i` is the first of `m` rounds to come to the least of the times. -/
structure FirstOldest (time : ℕ → ℤ) (m i : ℕ) : Prop where
  lt : i < m
  first : ∀ j < i, time i < time j
  le : ∀ j < m, time i ≤ time j

theorem FirstOldest.unique {time : ℕ → ℤ} {m i i' : ℕ} (h : FirstOldest time m i)
    (h' : FirstOldest time m i') : i = i' := by
  rcases Nat.lt_trichotomy i i' with hlt | heq | hlt
  · exact absurd (h'.first i hlt) (not_lt.mpr (h.le i' h'.lt))
  · exact heq
  · exact absurd (h.first i' hlt) (not_lt.mpr (h'.le i h.lt))

theorem FirstOldest.succ {time : ℕ → ℤ} {m i : ℕ} (h : FirstOldest time m i) :
    FirstOldest time (m + 1) (if time m < time i then m else i) := by
  split_ifs with hlt
  · refine ⟨Nat.lt_succ_self m, fun j hj => lt_of_lt_of_le hlt (h.le j hj), fun j hj => ?_⟩
    rcases Nat.lt_succ_iff_lt_or_eq.mp hj with hj | rfl
    · exact le_of_lt (lt_of_lt_of_le hlt (h.le j hj))
    · exact le_refl _
  · refine ⟨Nat.lt_succ_of_lt h.lt, h.first, fun j hj => ?_⟩
    rcases Nat.lt_succ_iff_lt_or_eq.mp hj with hj | rfl
    · exact h.le j hj
    · exact not_lt.mp hlt

/-- The entry that the bucket had at first where the round `i` finds the one it inspects. -/
def inspected (rand : ℕ → ℕ) (vTried : List ℤ) (i : ℕ) : ℤ :=
  vTried.getD (exchanged (fun i => rand i + i) i (rand i + i)) (-1)

/-- The last success of the entry inspected in the round `i`. -/
def inspectedTime (mapInfo : ℤ → Option ℤ) (rand : ℕ → ℕ) (vTried : List ℤ) (i : ℕ) : ℤ :=
  (mapInfo (inspected rand vTried i)).getD 0

section Loop

variable {mapInfo : ℤ → Option ℤ} {rand : ℕ → ℕ} {vTried : List ℤ}

/-- What holds after `n` rounds. -/
structure TriedSearch.Reached (mapInfo : ℤ → Option ℤ) (rand : ℕ → ℕ) (vTried : List ℤ) (n : ℕ)
    (s : TriedSearch) : Prop where
  perm : s.vTried.Perm vTried
  getElem? : ∀ k : ℕ, s.vTried[k]? = vTried[exchanged (fun i => rand i + i) n k]?
  start : n = 0 → s.nOldest = -1 ∧ s.nOldestPos = -1
  oldest : 0 < n → ∃ i, FirstOldest (inspectedTime mapInfo rand vTried) n i ∧
    s.nOldest = inspected rand vTried i ∧ s.nOldestPos = (rand i + i : ℕ)

theorem getElem?_inspected (hrand : ∀ i < vTried.length, rand i < vTried.length - i) {i : ℕ}
    (hi : i < vTried.length) :
    vTried[exchanged (fun i => rand i + i) i (rand i + i)]? = some (inspected rand vTried i) := by
  have hpos : ∀ i < vTried.length, rand i + i < vTried.length := by
    intro i hi
    have := hrand i hi
    omega
  have hlt := exchanged_lt hpos (le_of_lt hi) (hpos i hi)
  rw [inspected, List.getD_eq_getElem _ _ hlt, List.getElem?_eq_getElem hlt]

theorem TriedBucket.inspected_mem (hrand : ∀ i < vTried.length, rand i < vTried.length - i) {i : ℕ}
    (hi : i < vTried.length) : inspected rand vTried i ∈ vTried :=
  List.mem_of_getElem? (getElem?_inspected hrand hi)

theorem TriedBucket.mapInfo_inspected (hb : TriedBucket mapInfo vTried)
    (hrand : ∀ i < vTried.length, rand i < vTried.length - i) {i : ℕ} (hi : i < vTried.length) :
    mapInfo (inspected rand vTried i) = some (inspectedTime mapInfo rand vTried i) := by
  obtain ⟨last, hlast⟩ :=
    Option.isSome_iff_exists.mp (hb.known _ (TriedBucket.inspected_mem hrand hi))
  rw [inspectedTime, hlast, Option.getD_some]

theorem TriedSearch.Reached.round (hb : TriedBucket mapInfo vTried)
    (hrand : ∀ i < vTried.length, rand i < vTried.length - i) {n : ℕ} (hn : n < vTried.length)
    {s : TriedSearch} (h : s.Reached mapInfo rand vTried n) :
    ∃ s', s.round mapInfo rand n = some s' ∧ s'.Reached mapInfo rand vTried (n + 1) := by
  have htemp : s.vTried[rand n + n]? = some (inspected rand vTried n) :=
    (h.getElem? _).trans (getElem?_inspected hrand hn)
  have hlen : s.vTried.length = vTried.length := h.perm.length_eq
  have hfront : s.vTried[n]? = some s.vTried[n] := List.getElem?_eq_getElem (by omega)
  have hpos : rand n + n < s.vTried.length := (List.getElem?_eq_some_iff.mp htemp).1
  have hperm : ((s.vTried.set (rand n + n) s.vTried[n]).set n (inspected rand vTried n)).Perm
      vTried := by
    have hval : s.vTried[rand n + n] = inspected rand vTried n :=
      (List.getElem?_eq_some_iff.mp htemp).2
    rw [← hval]
    exact (List.set_set_perm hpos (by omega)).trans h.perm
  have hget : ∀ k : ℕ,
      ((s.vTried.set (rand n + n) s.vTried[n]).set n (inspected rand vTried n))[k]? =
      vTried[exchanged (fun i => rand i + i) (n + 1) k]? := by
    intro k
    rw [getElem?_exchange htemp hfront, h.getElem?]
    rfl
  have hknown := hb.mapInfo_inspected hrand hn
  have hguard : guard (s.nOldest = -1 ∨ (mapInfo (inspected rand vTried n)).isSome) = some () := by
    rw [hknown]
    exact if_pos (.inr rfl)
  have hround : ∀ older, isOlder mapInfo (inspected rand vTried n) s.nOldest = some older →
      s.round mapInfo rand n = some (if older then
        ⟨(s.vTried.set (rand n + n) s.vTried[n]).set n (inspected rand vTried n),
          inspected rand vTried n, (rand n + n : ℕ)⟩
        else { s with vTried :=
          (s.vTried.set (rand n + n) s.vTried[n]).set n (inspected rand vTried n) }) := by
    intro older holder
    simp only [TriedSearch.round, htemp, hfront, Option.bind_eq_bind, Option.bind_some, hguard,
      holder]
    rfl
  rcases Nat.eq_zero_or_pos n with rfl | hpositive
  · refine ⟨_, hround true (if_pos (h.start rfl).1), hperm, hget, fun heq => absurd heq (by omega),
      fun _ =>
        ⟨0, ⟨Nat.one_pos, fun j hj => absurd hj (Nat.not_lt_zero j), fun j hj => ?_⟩, rfl, rfl⟩⟩
    rw [Nat.lt_one_iff.mp hj]
  · obtain ⟨i, hi, holdest, hpos'⟩ := h.oldest hpositive
    have hilt : i < vTried.length := hi.lt.trans hn
    have hne : s.nOldest ≠ -1 := by
      have hnonneg := hb.nonneg _ (TriedBucket.inspected_mem hrand hilt)
      rw [holdest]
      omega
    have holder : isOlder mapInfo (inspected rand vTried n) s.nOldest =
        some (decide (inspectedTime mapInfo rand vTried n <
          inspectedTime mapInfo rand vTried i)) := by
      rw [isOlder, if_neg hne, hknown, holdest, hb.mapInfo_inspected hrand hilt]
      rfl
    have hsucc := hi.succ
    by_cases hlt : inspectedTime mapInfo rand vTried n < inspectedTime mapInfo rand vTried i
    · rw [if_pos hlt] at hsucc
      rw [decide_eq_true hlt] at holder
      exact ⟨_, hround true holder, hperm, hget, fun heq => absurd heq (by omega),
        fun _ => ⟨n, hsucc, rfl, rfl⟩⟩
    · rw [if_neg hlt] at hsucc
      rw [decide_eq_false hlt] at holder
      exact ⟨_, hround false holder, hperm, hget, fun heq => absurd heq (by omega),
        fun _ => ⟨i, hsucc, holdest, hpos'⟩⟩

theorem TriedSearch.reached (hb : TriedBucket mapInfo vTried)
    (hrand : ∀ i < vTried.length, rand i < vTried.length - i) {n : ℕ} (hn : n ≤ vTried.length) :
    ∃ s, (List.range n).foldlM (TriedSearch.round mapInfo rand) ⟨vTried, -1, -1⟩ = some s ∧
      s.Reached mapInfo rand vTried n := by
  induction n with
  | zero =>
    exact ⟨_, rfl, List.Perm.refl vTried, fun _ => rfl, fun _ => ⟨rfl, rfl⟩,
      fun h => absurd h (Nat.lt_irrefl 0)⟩
  | succ n ih =>
    obtain ⟨s, hs, hreached⟩ := ih (by omega)
    obtain ⟨s', hs', hreached'⟩ := hreached.round hb hrand hn
    refine ⟨s', ?_, hreached'⟩
    rw [List.range_succ, List.foldlM_append, hs]
    simp only [List.foldlM_cons, List.foldlM_nil, Option.bind_eq_bind, Option.bind_some, hs']
    rfl

end Loop

/-- The bucket is left a permutation of itself. The position returned has an inspected entry with
the oldest success of those inspected if and only if the first round that inspects such an entry
takes it from a position among the inspected ones, and the round of that position inspects one that
is as old. -/
theorem selectTried_evicts {mapInfo : ℤ → Option ℤ} {vTried : List ℤ}
    (hb : TriedBucket mapInfo vTried) {rand : ℕ → ℕ}
    (hrand : ∀ i < vTried.length, rand i < vTried.length - i) :
    let m := min addrmanTriedEntriesInspectOnEvict vTried.length
    let time := inspectedTime mapInfo rand vTried
    ∃ s, selectTried mapInfo rand vTried = some s ∧ s.vTried.Perm vTried ∧
      ((∃ j < m, ∃ k : ℕ, s.nOldestPos = k ∧ s.vTried[k]? = some (inspected rand vTried j) ∧
          ∀ i < m, time j ≤ time i) ↔
        ∃ i, FirstOldest time m i ∧ rand i + i < m ∧ time (rand i + i) ≤ time i) := by
  intro m time
  obtain ⟨s, hs, hreached⟩ := TriedSearch.reached hb hrand (Nat.min_le_right 4 vTried.length)
  refine ⟨s, hs, hreached.perm, ?_⟩
  -- after the rounds the inspected entries are in front, in their order
  have hfront : ∀ j < m, s.vTried[j]? = some (inspected rand vTried j) := by
    intro j hj
    have hstays := exchanged_of_lt (fun i => Nat.le_add_left i (rand i)) hj
    have hjlen : j < vTried.length := lt_of_lt_of_le hj (Nat.min_le_right _ _)
    exact ((hreached.getElem? j).trans (congrArg _ hstays)).trans (getElem?_inspected hrand hjlen)
  constructor
  · rintro ⟨j, hj, k, hk, hget, hle⟩
    obtain ⟨i, hi, -, hpos⟩ := hreached.oldest (by omega : 0 < m)
    have hki : k = rand i + i := by omega
    have hkj : k = j := by
      have hnodup : s.vTried.Nodup := hreached.perm.nodup_iff.mpr hb.nodup
      have hklen : k < s.vTried.length := (List.getElem?_eq_some_iff.mp hget).1
      exact (List.getElem?_inj hklen hnodup).mp (hget.trans (hfront j hj).symm)
    subst hki
    exact ⟨i, hi, hkj ▸ hj, hkj ▸ hle i hi.lt⟩
  · rintro ⟨i, hi, hlt, hle⟩
    obtain ⟨i', hi', -, hpos⟩ := hreached.oldest (by omega : 0 < m)
    obtain rfl := hi.unique hi'
    exact ⟨rand i + i, hlt, rand i + i, hpos, hfront _ hlt, fun j hj => hle.trans (hi.le j hj)⟩

namespace Sample

def triedIds : List ℤ := (List.range 64).map Int.ofNat

/-- The last entry of the bucket has the oldest success. -/
def triedTimes (id : ℤ) : Option ℤ :=
  if id = 63 then some 1 else if 0 ≤ id ∧ id < 63 then some 2 else none

/-- The first round inspects the last entry, and the others the entry of their position. -/
def triedDraws (i : ℕ) : ℕ := if i = 0 then 63 else 0

theorem triedIds_bucket : TriedBucket triedTimes triedIds where
  nonneg := by decide
  known := by decide
  nodup := by decide

end Sample

open Sample in
/-- When every round inspects the entry of its own position, an oldest of them is found. -/
theorem selectTried_evicts_first :
    ∃ s, selectTried triedTimes (fun _ => 0) triedIds = some s ∧ s.vTried.Perm triedIds ∧
      ∃ j < 4, ∃ k : ℕ, s.nOldestPos = k ∧
        s.vTried[k]? = some (inspected (fun _ => 0) triedIds j) := by
  obtain ⟨s, hs, hperm, hiff⟩ := @selectTried_evicts _ _ triedIds_bucket (fun _ => 0) (by decide)
  obtain ⟨j, hj, k, hk, hget, -⟩ :=
    hiff.mpr ⟨0, ⟨by decide, by decide, by decide⟩, by decide, by decide⟩
  exact ⟨s, hs, hperm, j, hj, k, hk, hget⟩

open Sample in
/-- Of the entries 63, 1, 2 and 3 the first is the oldest, and the position returned has the entry
0, which was not inspected. -/
theorem selectTried_newer :
    (∀ i < triedIds.length, triedDraws i < triedIds.length - i) ∧
      (List.range 4).map (inspected triedDraws triedIds) = [63, 1, 2, 3] ∧
      FirstOldest (inspectedTime triedTimes triedDraws triedIds) 4 0 ∧
      ∃ s, selectTried triedTimes triedDraws triedIds = some s ∧ s.nOldestPos = 63 ∧
        s.vTried[63]? = some 0 ∧ triedTimes 63 = some 1 ∧ triedTimes 0 = some 2 := by
  refine ⟨by decide, by decide, ⟨by decide, by decide, by decide⟩, _, rfl, ?_, ?_, rfl, rfl⟩
  · decide
  · decide

end Beancash
