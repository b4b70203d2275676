import Beancash.Retarget
import Mathlib.Algebra.BigOperators.Group.List.Basic
import Mathlib.Algebra.Order.Ring.Int

namespace Beancash

open CompactNumber

/-- The loop of `ComputeMaxBits`; a pass takes a day of the time, so that as many passes as
there are seconds are enough. -/
def computeMaxBitsLoop (limit : ℤ) : ℕ → ℤ → ℤ → ℤ
  | fuel + 1, bnResult, nTime =>
    if 0 < nTime ∧ bnResult < limit then
      computeMaxBitsLoop limit fuel (bnResult * 2) (nTime - 24 * 60 * 60)
    else bnResult
  | 0, bnResult, _ => bnResult

def computeMaxBits (limit : ℤ) (nBase : UInt32) (nTime : ℤ) : UInt32 :=
  let bnResult := computeMaxBitsLoop limit nTime.toNat (setCompact nBase * 2) nTime
  getCompact (if limit < bnResult then limit else bnResult)

def computeMinStake (nBase : UInt32) (nTime : ℤ) : UInt32 :=
  computeMaxBits bnProofOfStakeLimit nBase nTime

def computeMinWork (P : Params) (nBase : UInt32) (nTime : ℤ) : UInt32 :=
  computeMaxBits P.bnProofOfWorkLimit nBase nTime

/-- The check of `ProcessBlock` that calls a block one with too little proof. -/
def tooLittleProof (P : Params) (pcheckpoint : BlockPtr) (b : Block) : Bool :=
  let deltaTime := b.blockTime - BlockPtr.blockTime pcheckpoint
  let bnNewBlock := setCompact b.header.nBits
  let bnRequired := setCompact (if b.isProofOfStake then
    computeMinStake (BlockPtr.nBits (getLastBlockIndex true pcheckpoint)) deltaTime
    else computeMinWork P (BlockPtr.nBits (getLastBlockIndex false pcheckpoint)) deltaTime)
  bnRequired < bnNewBlock

/-- How many days of a time have begun. -/
def daysBegun (nTime : ℤ) : ℕ := ((nTime + 86399) / 86400).toNat

theorem daysBegun_of_pos {nTime : ℤ} (h : 0 < nTime) :
    daysBegun nTime = daysBegun (nTime - 86400) + 1 := by
  unfold daysBegun
  omega

theorem daysBegun_of_nonpos {nTime : ℤ} (h : nTime ≤ 0) : daysBegun nTime = 0 := by
  unfold daysBegun
  omega

theorem min_computeMaxBitsLoop {limit : ℤ} {fuel : ℕ} {bnResult nTime : ℤ} (h : 0 ≤ bnResult)
    (hfuel : nTime.toNat ≤ fuel) :
    min limit (computeMaxBitsLoop limit fuel bnResult nTime) =
      min limit (bnResult * 2 ^ daysBegun nTime) := by
  induction fuel generalizing bnResult nTime with
  | zero =>
    rw [daysBegun_of_nonpos (by omega), pow_zero, mul_one]
    rfl
  | succ fuel ih =>
    rw [computeMaxBitsLoop]
    by_cases htime : 0 < nTime
    · by_cases hlimit : bnResult < limit
      · have hstep : min limit (computeMaxBitsLoop limit fuel (bnResult * 2) (nTime - 24 * 60 * 60)) =
            min limit (bnResult * 2 * 2 ^ daysBegun (nTime - 24 * 60 * 60)) :=
          ih (by omega) (by omega)
        rw [if_pos ⟨htime, hlimit⟩, hstep, daysBegun_of_pos htime, pow_succ', mul_assoc]
        rfl
      · rw [if_neg (by omega), min_eq_left (not_lt.mp hlimit), min_eq_left]
        calc limit ≤ bnResult := not_lt.mp hlimit
          _ ≤ bnResult * 2 ^ daysBegun nTime :=
            le_mul_of_one_le_right h (one_le_pow₀ (by norm_num))
    · rw [if_neg (by omega), daysBegun_of_nonpos (not_lt.mp htime), pow_zero, mul_one]

/-- The bound on targets a time after a target was in force. -/
def maxTarget (nBase : UInt32) (nTime : ℤ) : ℤ := setCompact nBase * 2 ^ (daysBegun nTime + 1)

theorem computeMaxBits_eq {limit : ℤ} {nBase : UInt32} (h : 0 ≤ setCompact nBase) (nTime : ℤ) :
    computeMaxBits limit nBase nTime = getCompact (min limit (maxTarget nBase nTime)) := by
  have hloop : min limit (computeMaxBitsLoop limit nTime.toNat (setCompact nBase * 2) nTime) =
      min limit (setCompact nBase * 2 * 2 ^ daysBegun nTime) :=
    min_computeMaxBitsLoop (by omega) le_rfl
  rw [mul_assoc, ← pow_succ'] at hloop
  rw [maxTarget, ← hloop, computeMaxBits]
  simp only [min_def]
  congr 1
  split <;> split <;> omega

section Chain

variable {P : Params} {fProofOfStake : Bool} {p c : BlockPtr}

theorem getLastBlockIndex_suffix (fProofOfStake : Bool) (p : BlockPtr) :
    getLastBlockIndex fProofOfStake p <:+ p := by
  induction p with
  | nil => exact List.suffix_rfl
  | cons e p ih =>
    cases p with
    | nil => exact List.suffix_rfl
    | cons d p =>
      rw [getLastBlockIndex]
      split
      · exact ih.trans (List.suffix_cons e _)
      · exact List.suffix_rfl

theorem getLastBlockIndex_ne_nil (fProofOfStake : Bool) (hp : p ≠ []) :
    getLastBlockIndex fProofOfStake p ≠ [] := by
  induction p with
  | nil => exact absurd rfl hp
  | cons e p ih =>
    cases p with
    | nil => exact hp
    | cons d p =>
      rw [getLastBlockIndex]
      split
      · exact ih (List.cons_ne_nil d p)
      · exact List.cons_ne_nil _ _

/-- The bits of the last block of a kind, as the checks take them. -/
def lastBits (fProofOfStake : Bool) (p : BlockPtr) : UInt32 :=
  BlockPtr.nBits (getLastBlockIndex fProofOfStake p)

theorem lastBits_cons_of_ne {e : BlockIndex} (he : e.fProofOfStake ≠ fProofOfStake)
    (hp : p ≠ []) : lastBits fProofOfStake (e :: p) = lastBits fProofOfStake p := by
  cases p with
  | nil => exact absurd rfl hp
  | cons d p => rw [lastBits, getLastBlockIndex, if_pos (bne_iff_ne.mpr he), lastBits]

theorem lastBits_cons_of_eq {e : BlockIndex} (he : e.fProofOfStake = fProofOfStake) :
    lastBits fProofOfStake (e :: p) = e.header.nBits := by
  cases p with
  | nil => rfl
  | cons d p =>
    rw [lastBits, getLastBlockIndex, bne, beq_iff_eq.mpr he, if_neg (by decide)]
    rfl

theorem lastBits_pos (hP : P.HasWorkLimit) (hp : CarriesRequired P p) (hne : p ≠ []) :
    0 < setCompact (lastBits fProofOfStake p) := by
  have hsuf := getLastBlockIndex_suffix fProofOfStake p
  have hlast := getLastBlockIndex_ne_nil fProofOfStake hne
  unfold lastBits
  cases h : getLastBlockIndex fProofOfStake p with
  | nil => exact absurd h hlast
  | cons e q =>
    rw [h] at hsuf
    rw [BlockPtr.nBits, (hp.of_suffix hsuf).1]
    exact (setCompact_getNextTargetRequired hP q e.fProofOfStake).1

theorem lastBits_of_lastTwoOfKind {x y : BlockIndex}
    (h : lastTwoOfKind fProofOfStake p = some (x, y)) :
    lastBits fProofOfStake p = x.header.nBits := by
  unfold lastTwoOfKind at h
  unfold lastBits
  split at h
  · rename_i hlast
    split at h
    · cases h
      rw [hlast]
      rfl
    · cases h
  · cases h

/-- By how many 3660ths the target of the kind moves at the next block, unless it is set to
the limit. -/
def multiplier (fProofOfStake : Bool) (p : BlockPtr) : Option ℤ :=
  (lastTwoOfKind fProofOfStake p).bind fun pair =>
    let nActualSpacing := actualSpacing pair.1 pair.2
    if retarget pair.1.header.nBits nActualSpacing ≤ 0 then none
    else some (3540 + 2 * nActualSpacing)

theorem actualSpacing_nonneg (x y : BlockIndex) : 0 ≤ actualSpacing x y := by
  have hspacing : 0 ≤ nTargetSpacing := by decide
  simp only [actualSpacing]
  split <;> omega

theorem multiplier_pos {m : ℤ} (h : multiplier fProofOfStake p = some m) : 0 < m := by
  obtain ⟨pair, _, hm⟩ := Option.bind_eq_some_iff.mp h
  have hspacing := actualSpacing_nonneg pair.1 pair.2
  simp only at hm
  split at hm
  · cases hm
  · rw [← Option.some_injective _ hm]
    omega

theorem getNextTargetRequired_of_multiplier_none (P : Params)
    (h : multiplier fProofOfStake p = none) :
    getNextTargetRequired P p fProofOfStake = getCompact (bnTargetLimit P fProofOfStake) := by
  unfold getNextTargetRequired
  cases htwo : lastTwoOfKind fProofOfStake p with
  | none => rfl
  | some pair =>
    simp only [multiplier, htwo, Option.bind_some, ite_eq_left_iff, reduceCtorEq, imp_false,
      not_not] at h
    simp only [clampTarget, if_pos (Or.inl h)]

theorem getNextTargetRequired_of_multiplier {m : ℤ} (hP : P.HasWorkLimit)
    (hp : CarriesRequired P p) (hne : p ≠ []) (h : multiplier fProofOfStake p = some m) :
    getNextTargetRequired P p fProofOfStake = getCompact (min (bnTargetLimit P fProofOfStake)
      (setCompact (lastBits fProofOfStake p) * m / 3660)) ∧
      0 < setCompact (lastBits fProofOfStake p) * m / 3660 := by
  have hm := multiplier_pos h
  have hlast : 0 < setCompact (lastBits fProofOfStake p) := lastBits_pos hP hp hne
  obtain ⟨⟨x, y⟩, htwo, hsome⟩ := Option.bind_eq_some_iff.mp h
  simp only at hsome
  split at hsome
  · cases hsome
  · rename_i hpos
    have hquot : retarget x.header.nBits (actualSpacing x y) =
        setCompact (lastBits fProofOfStake p) * m / 3660 := by
      rw [← lastBits_of_lastTwoOfKind htwo, retarget_eq, Option.some_injective _ hsome]
      exact Int.tdiv_eq_ediv_of_nonneg (Int.mul_nonneg hlast.le hm.le)
    rw [hquot] at hpos
    refine ⟨?_, not_le.mp hpos⟩
    unfold getNextTargetRequired
    simp only [htwo, hquot, clampTarget, min_def]
    congr 1
    split <;> split <;> omega

theorem setCompact_getCompact_le_iff {n bound : ℤ} (hn : 0 ≤ n) (hlt : n < 2 ^ 256)
    (hbound : 0 ≤ bound) : setCompact (getCompact n) ≤ bound ↔ n < next 3 bound.toNat := by
  lift n to ℕ using hn
  lift bound to ℕ using hbound
  rw [setCompact_getCompact (bytes_le_of_lt (by omega)), Nat.cast_le, Int.toNat_natCast,
    Nat.cast_lt]
  exact truncate_le_iff (by omega)

theorem setCompact_getCompact_le_iff_le {m n : ℤ} (hm : 0 ≤ m) (hmlt : m < 2 ^ 256) (hn : 0 ≤ n)
    (hnlt : n < 2 ^ 256) :
    setCompact (getCompact m) ≤ setCompact (getCompact n) ↔ setCompact (getCompact m) ≤ n := by
  lift m to ℕ using hm
  lift n to ℕ using hn
  rw [setCompact_getCompact (bytes_le_of_lt (by omega)),
    setCompact_getCompact (bytes_le_of_lt (by omega)), Nat.cast_le, Nat.cast_le]
  exact truncate_le_truncate_iff (by omega)

/-- The bound of the last target at `c`, after the time from `c` to `b`. -/
def boundSince (c : BlockPtr) (b : Block) : ℤ :=
  maxTarget (lastBits b.isProofOfStake c) (b.blockTime - BlockPtr.blockTime c)

/-- The next target on `p` is below what can be written above the bound, or the limit is. -/
def WithinBound (P : Params) (c p : BlockPtr) (b : Block) : Prop :=
  bnTargetLimit P b.isProofOfStake < next 3 (boundSince c b).toNat ∨
    ∃ m, multiplier b.isProofOfStake p = some m ∧
      setCompact (lastBits b.isProofOfStake p) * m < 3660 * next 3 (boundSince c b).toNat

theorem getNextTargetRequired_le_iff (hP : P.HasWorkLimit) (hp : CarriesRequired P p)
    (hne : p ≠ []) {bound : ℤ} (hbound : 0 ≤ bound) :
    setCompact (getNextTargetRequired P p fProofOfStake) ≤ bound ↔
      bnTargetLimit P fProofOfStake < next 3 bound.toNat ∨
        ∃ m, multiplier fProofOfStake p = some m ∧
          setCompact (lastBits fProofOfStake p) * m < 3660 * next 3 bound.toNat := by
  have hpos := bnTargetLimit_pos hP fProofOfStake
  have hlt := bnTargetLimit_lt hP fProofOfStake
  cases hm : multiplier fProofOfStake p with
  | none =>
    rw [getNextTargetRequired_of_multiplier_none P hm,
      setCompact_getCompact_le_iff hpos.le hlt hbound]
    simp only [reduceCtorEq, false_and, exists_false, or_false]
  | some m =>
    obtain ⟨heq, hquot⟩ := getNextTargetRequired_of_multiplier hP hp hne hm
    rw [heq, setCompact_getCompact_le_iff (le_min hpos.le hquot.le)
      ((min_le_left _ _).trans_lt hlt) hbound, min_lt_iff, Int.ediv_lt_iff_lt_mul (by omega),
      mul_comm (next 3 bound.toNat : ℤ)]
    simp only [Option.some.injEq, exists_eq_left']

theorem maxTarget_pos {nBase : UInt32} (h : 0 < setCompact nBase) (nTime : ℤ) :
    0 < maxTarget nBase nTime := Int.mul_pos h (Int.pow_pos (by omega))

/-- A block that carries the bits required of it is below the bound of `ComputeMaxBits` exactly
if the next target is within the bound. -/
theorem le_computeMaxBits_iff (hP : P.HasWorkLimit) (hp : CarriesRequired P p) (hc : c <:+ p)
    (hne : c ≠ []) {b : Block}
    (hb : b.header.nBits = getNextTargetRequired P p b.isProofOfStake) :
    setCompact b.header.nBits ≤ setCompact (computeMaxBits (bnTargetLimit P b.isProofOfStake)
      (lastBits b.isProofOfStake c) (b.blockTime - BlockPtr.blockTime c)) ↔
        WithinBound P c p b := by
  have hlast : 0 < setCompact (lastBits b.isProofOfStake c) :=
    lastBits_pos hP (hp.of_suffix hc) hne
  have hbound : 0 < boundSince c b := maxTarget_pos hlast _
  have hpos := bnTargetLimit_pos hP b.isProofOfStake
  have hlt := bnTargetLimit_lt hP b.isProofOfStake
  have hpne : p ≠ [] := by
    rintro rfl
    exact hne (List.suffix_nil.mp hc)
  obtain ⟨n, hn, hle, hnlt, heq⟩ := getNextTargetRequired_eq hP p b.isProofOfStake
  have hlimit := (setCompact_getNextTargetRequired hP p b.isProofOfStake).2.1
  rw [WithinBound, ← getNextTargetRequired_le_iff hP hp hpne hbound.le, hb,
    computeMaxBits_eq hlast.le, ← boundSince]
  rw [heq] at hlimit ⊢
  rw [setCompact_getCompact_le_iff_le (by omega) (by omega) (le_min hpos.le hbound.le)
    ((min_le_left _ _).trans_lt hlt), le_min_iff, and_iff_right hlimit]

/-- The check of `ProcessBlock` compares with the bits that `ComputeMaxBits` gives. -/
theorem tooLittleProof_eq_false_iff (P : Params) (c : BlockPtr) (b : Block) :
    tooLittleProof P c b = false ↔
      setCompact b.header.nBits ≤ setCompact (computeMaxBits (bnTargetLimit P b.isProofOfStake)
        (lastBits b.isProofOfStake c) (b.blockTime - BlockPtr.blockTime c)) := by
  rw [tooLittleProof, decide_eq_false_iff_not, not_lt]
  cases b.isProofOfStake <;> rfl

/-- The multipliers of the blocks of the kind after `c`, the last one first. -/
def multipliersSince (fProofOfStake : Bool) (c : BlockPtr) : BlockPtr → List (Option ℤ)
  | [] => []
  | e :: p =>
    if e :: p = c then []
    else if e.fProofOfStake = fProofOfStake then
      multiplier fProofOfStake p :: multipliersSince fProofOfStake c p
    else multipliersSince fProofOfStake c p

/-- Where the last multipliers start from: the target at `c`, unless there are earlier blocks of
the kind, after which it is the limit at most. -/
def startTarget (P : Params) (fProofOfStake : Bool) (c : BlockPtr)
    (earlier : List (Option ℤ)) : ℤ :=
  if earlier = [] then setCompact (lastBits fProofOfStake c) else bnTargetLimit P fProofOfStake

theorem lastBits_mul_le (hP : P.HasWorkLimit) (hp : CarriesRequired P p) (hc : c <:+ p)
    (hne : c ≠ []) {ms : List ℤ} {earlier : List (Option ℤ)}
    (h : multipliersSince fProofOfStake c p = ms.map some ++ earlier) :
    setCompact (lastBits fProofOfStake p) * 3660 ^ ms.length ≤
      startTarget P fProofOfStake c earlier * ms.prod := by
  induction p generalizing ms with
  | nil => exact absurd (List.suffix_nil.mp hc) hne
  | cons e p ih =>
    rw [multipliersSince] at h
    by_cases heq : e :: p = c
    · rw [if_pos heq] at h
      obtain ⟨hms, hearlier⟩ := List.append_eq_nil_iff.mp h.symm
      rw [List.map_eq_nil_iff.mp hms, hearlier, startTarget, if_pos rfl, heq]
      simp only [List.length_nil, pow_zero, List.prod_nil, le_refl]
    · rw [if_neg heq] at h
      have hsuf := (List.suffix_cons_iff.mp hc).resolve_left fun hcp => heq hcp.symm
      have hpne : p ≠ [] := by
        rintro rfl
        exact hne (List.suffix_nil.mp hsuf)
      by_cases hkind : e.fProofOfStake = fProofOfStake
      · rw [if_pos hkind] at h
        rw [lastBits_cons_of_eq hkind, hp.1, hkind]
        cases ms with
        | nil =>
          have hearlier : earlier ≠ [] := by
            rw [← List.nil_append earlier, ← List.map_nil (f := some), ← h]
            exact List.cons_ne_nil _ _
          rw [startTarget, if_neg hearlier, List.length_nil, pow_zero, mul_one, List.prod_nil,
            mul_one]
          exact (setCompact_getNextTargetRequired hP p fProofOfStake).2.1
        | cons m ms =>
          rw [List.map_cons, List.cons_append] at h
          obtain ⟨hm, htail⟩ := List.cons.inj h
          have hprev := ih hp.2 hsuf htail
          obtain ⟨hreq, hquot⟩ := getNextTargetRequired_of_multiplier hP hp.2 hpne hm
          have hle : setCompact (getNextTargetRequired P p fProofOfStake) ≤
              setCompact (lastBits fProofOfStake p) * m / 3660 := by
            rw [getNextTargetRequired_le_iff hP hp.2 hpne hquot.le]
            refine Or.inr ⟨m, hm, ?_⟩
            have hnext := lt_next (k := 3)
              (n := (setCompact (lastBits fProofOfStake p) * m / 3660).toNat)
            omega
          calc setCompact (getNextTargetRequired P p fProofOfStake) * 3660 ^ (m :: ms).length
              = setCompact (getNextTargetRequired P p fProofOfStake) * 3660 * 3660 ^ ms.length := by
                rw [List.length_cons, pow_succ']
                ring
            _ ≤ setCompact (lastBits fProofOfStake p) * m * 3660 ^ ms.length :=
                Int.mul_le_mul_of_nonneg_right (by omega) (Int.pow_nonneg (by omega))
            _ = setCompact (lastBits fProofOfStake p) * 3660 ^ ms.length * m := by ring
            _ ≤ startTarget P fProofOfStake c earlier * ms.prod * m :=
                Int.mul_le_mul_of_nonneg_right hprev (multiplier_pos hm).le
            _ = startTarget P fProofOfStake c earlier * (m :: ms).prod := by
                rw [List.prod_cons]
                ring
      · rw [if_neg hkind] at h
        rw [lastBits_cons_of_ne hkind hpne]
        exact ih hp.2 hsuf h

/-- From `c`, or from the limit at some block of the kind after it, the multipliers up to the
next target stay below what the bound allows. -/
def BoundedGrowth (P : Params) (c p : BlockPtr) (b : Block) : Prop :=
  ∃ (ms : List ℤ) (earlier : List (Option ℤ)),
    multiplier b.isProofOfStake p :: multipliersSince b.isProofOfStake c p = ms.map some ++ earlier ∧
    startTarget P b.isProofOfStake c earlier * ms.prod ≤ 3660 ^ ms.length * boundSince c b

theorem BoundedGrowth.withinBound (hP : P.HasWorkLimit) (hp : CarriesRequired P p)
    (hc : c <:+ p) (hne : c ≠ []) {b : Block} (h : BoundedGrowth P c p b) :
    WithinBound P c p b := by
  have hlast : 0 < setCompact (lastBits b.isProofOfStake c) :=
    lastBits_pos hP (hp.of_suffix hc) hne
  have hbound : 0 < boundSince c b := maxTarget_pos hlast _
  have hnext := lt_next (k := 3) (n := (boundSince c b).toNat)
  obtain ⟨ms, earlier, heq, hle⟩ := h
  cases ms with
  | nil =>
    have hearlier : earlier ≠ [] := by
      rw [← List.nil_append earlier, ← List.map_nil (f := some), ← heq]
      exact List.cons_ne_nil _ _
    rw [startTarget, if_neg hearlier, List.length_nil, List.prod_nil, pow_zero] at hle
    exact Or.inl (by omega)
  | cons m ms =>
    rw [List.map_cons, List.cons_append] at heq
    obtain ⟨hm, htail⟩ := List.cons.inj heq
    have hprev := lastBits_mul_le hP hp hc hne htail
    refine Or.inr ⟨m, hm, ?_⟩
    have hmul : setCompact (lastBits b.isProofOfStake p) * m * 3660 ^ ms.length ≤
        3660 * boundSince c b * 3660 ^ ms.length := by
      calc setCompact (lastBits b.isProofOfStake p) * m * 3660 ^ ms.length
          = setCompact (lastBits b.isProofOfStake p) * 3660 ^ ms.length * m := by ring
        _ ≤ startTarget P b.isProofOfStake c earlier * ms.prod * m :=
            Int.mul_le_mul_of_nonneg_right hprev (multiplier_pos hm).le
        _ = startTarget P b.isProofOfStake c earlier * (m :: ms).prod := by
            rw [List.prod_cons]
            ring
        _ ≤ 3660 ^ (m :: ms).length * boundSince c b := hle
        _ = 3660 * boundSince c b * 3660 ^ ms.length := by
            rw [List.length_cons, pow_succ']
            ring
    have hstep := Int.le_of_mul_le_mul_right hmul (Int.pow_pos (by omega))
    omega

end Chain

/-- The bound of `ComputeMaxBits` holds of a block, and `ProcessBlock` does not refuse it, exactly
if the target before it and the spacing keep the next target within the bound; it is enough that
the multipliers since the checkpoint do not multiply up to more. -/
theorem not_tooLittleProof_iff {P : Params} (hP : P.HasWorkLimit) {c p : BlockPtr}
    (hp : CarriesRequired P p) (hc : c <:+ p) (hne : c ≠ []) {b : Block}
    (hb : b.header.nBits = getNextTargetRequired P p b.isProofOfStake) :
    (setCompact b.header.nBits ≤ setCompact (computeMaxBits (bnTargetLimit P b.isProofOfStake)
      (lastBits b.isProofOfStake c) (b.blockTime - BlockPtr.blockTime c)) ↔
        WithinBound P c p b) ∧
    (tooLittleProof P c b = false ↔ WithinBound P c p b) ∧
    (BoundedGrowth P c p b → WithinBound P c p b) := by
  have hiff := le_computeMaxBits_iff hP hp hc hne hb
  exact ⟨hiff, (tooLittleProof_eq_false_iff P c b).trans hiff,
    fun h => h.withinBound hP hp hc hne⟩

namespace Sample

/-- A block of proof of work on a chain, with the bits required of it. -/
def timedBlock (p : BlockPtr) (nTime : UInt32) : Block where
  header := (timedEntry params p nTime).header
  vtx := [beanbase 0 p.length [out 0]]
  vchBlockSig := []

theorem nBits_timedBlock (p : BlockPtr) (nTime : UInt32) : (timedBlock p nTime).header.nBits =
    getNextTargetRequired params p (timedBlock p nTime).isProofOfStake := rfl

/-- Seventy blocks of which each comes a second after the one before. -/
def quickTimes : List UInt32 := (List.range 71).map UInt32.ofNat

/-- The block after them comes three hours late. -/
def lateTimes : List UInt32 := quickTimes ++ [10870]

end Sample

/-- A block after a gap of three hours carries the bits required of it and is refused. -/
theorem tooLittleProof_late :
    Sample.timedChain Sample.params Sample.quickTimes <:+
      Sample.timedChain Sample.params Sample.lateTimes ∧
    CarriesRequired Sample.params (Sample.timedChain Sample.params Sample.lateTimes) ∧
    (Sample.timedBlock (Sample.timedChain Sample.params Sample.lateTimes) 10930).header.nBits =
      getNextTargetRequired Sample.params (Sample.timedChain Sample.params Sample.lateTimes) false ∧
    tooLittleProof Sample.params (Sample.timedChain Sample.params Sample.quickTimes)
      (Sample.timedBlock (Sample.timedChain Sample.params Sample.lateTimes) 10930) = true ∧
    setCompact (computeMaxBits (bnTargetLimit Sample.params false)
      (lastBits false (Sample.timedChain Sample.params Sample.quickTimes)) (10930 - 70)) <
        setCompact (getNextTargetRequired Sample.params
          (Sample.timedChain Sample.params Sample.lateTimes) false) := by
  refine ⟨?_, Sample.carriesRequired_timedChain _ _, rfl, by decide +kernel, by decide +kernel⟩
  rw [Sample.lateTimes, Sample.timedChain, Sample.timedChain, List.foldl_append]
  exact List.suffix_cons _ _

/-- A block that comes a second after them is not refused. -/
theorem not_tooLittleProof_iff_quick :
    tooLittleProof Sample.params (Sample.timedChain Sample.params Sample.quickTimes)
      (Sample.timedBlock (Sample.timedChain Sample.params Sample.quickTimes) 71) = false := by
  have hiff := not_tooLittleProof_iff Sample.hasWorkLimit_params
    (Sample.carriesRequired_timedChain Sample.params Sample.quickTimes) List.suffix_rfl
    (by decide)
    (Sample.nBits_timedBlock (Sample.timedChain Sample.params Sample.quickTimes) 71)
  refine hiff.2.1.mpr (hiff.2.2 ⟨[3542], [], by decide +kernel, ?_⟩)
  decide +kernel

end Beancash
