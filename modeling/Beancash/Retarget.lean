import Beancash.BlockIndex
import Beancash.CompactNumber

namespace Beancash

open CompactNumber

/-- `CBigNum::GetCompact` -/
def getCompact (n : ℤ) : UInt32 :=
  let nSize := bytes n.natAbs
  let word := if nSize ≤ 3 then n.natAbs * 256 ^ (3 - nSize) else n.natAbs / 256 ^ (nSize - 3)
  .ofNat (nSize * 2 ^ 24 + (if n < 0 then 2 ^ 23 else 0) + word)

theorem toNat_getCompact {n : ℕ} (h : bytes n ≤ 255) : ∃ word < 2 ^ 23,
    (getCompact n).toNat = bytes n * 2 ^ 24 + word ∧
      (word = if bytes n ≤ 3 then n * 256 ^ (3 - bytes n) else n / 256 ^ (bytes n - 3)) := by
  have hword : (if bytes n ≤ 3 then n * 256 ^ (3 - bytes n) else n / 256 ^ (bytes n - 3)) <
      2 ^ 23 := by
    split
    · rename_i hsize
      by_cases hn : n = 0
      · rw [hn, Nat.zero_mul]
        omega
      · have hlt := lt_two_pow_bytes (n := n) (by omega)
        have hpos : 0 < bytes n := by
          unfold bytes
          rw [if_neg hn]
          omega
        calc n * 256 ^ (3 - bytes n)
            < 2 ^ (8 * bytes n - 1) * 256 ^ (3 - bytes n) :=
              Nat.mul_lt_mul_of_pos_right hlt (Nat.pow_pos (by omega))
          _ = 2 ^ 23 := by
              rw [show 256 = 2 ^ 8 from rfl, ← pow_mul, ← pow_add]
              congr 1
              omega
    · exact div_lt (by omega) (by omega)
  refine ⟨_, hword, ?_, rfl⟩
  simp only [getCompact, Int.natAbs_natCast, if_neg (Int.not_lt.mpr (Int.natCast_nonneg n)),
    Nat.add_zero, UInt32.toNat_ofNat']
  omega

theorem setCompact_getCompact {n : ℕ} (h : bytes n ≤ 255) :
    setCompact (getCompact n) = truncate 3 n := by
  obtain ⟨word, hlt, hnat, hword⟩ := toNat_getCompact h
  have hsize : (getCompact n).toNat / 2 ^ 24 = bytes n := by omega
  have hmod : (getCompact n).toNat % 2 ^ 23 = word := by omega
  have hsign : ¬(getCompact n).toNat / 2 ^ 23 % 2 = 1 := by omega
  simp only [setCompact, hsize, hmod, if_neg hsign, Nat.cast_inj]
  by_cases h3 : bytes n ≤ 3
  · rw [if_pos h3, hword, if_pos h3, truncate_eq_self h3,
      Nat.mul_div_cancel _ (Nat.pow_pos (by omega))]
  · rw [if_neg h3, hword, if_neg h3, truncate]

theorem getCompact_truncate (n : ℕ) : getCompact (truncate 3 n : ℕ) = getCompact n := by
  simp only [getCompact, Int.natAbs_natCast, bytes_truncate (k := 3) (n := n) (by omega),
    if_neg (Int.not_lt.mpr (Int.natCast_nonneg _))]
  by_cases h3 : bytes n ≤ 3
  · rw [truncate_eq_self h3]
  · rw [if_neg h3, if_neg h3, truncate, Nat.mul_div_cancel _ (Nat.pow_pos (by omega))]

theorem bytes_le_of_lt {n : ℕ} (h : n < 2 ^ 256) : bytes n ≤ 255 := by
  unfold bytes
  split
  · omega
  · rename_i hn
    have hlog := (Nat.log2_lt hn).mpr h
    omega

theorem setCompact_getCompact_mono {m n : ℤ} (hm : 0 < m) (h : m ≤ n) (hn : n < 2 ^ 256) :
    setCompact (getCompact m) ≤ setCompact (getCompact n) := by
  lift m to ℕ using hm.le
  lift n to ℕ using by omega
  rw [setCompact_getCompact (bytes_le_of_lt (by omega)),
    setCompact_getCompact (bytes_le_of_lt (by omega)), Nat.cast_le]
  exact truncate_mono (by omega) (by omega)

def nTargetTimespan : ℤ := 60 * 60

def nTargetSpacing : ℤ := 1 * 60

def bnProofOfStakeLimit : ℤ := ((~~~(0 : Uint256)) >>> 20).toNat

def bnTargetLimit (P : Params) (fProofOfStake : Bool) : ℤ :=
  if fProofOfStake then bnProofOfStakeLimit else P.bnProofOfWorkLimit

/-- `GetLastBlockIndex`, which stops at the genesis block whatever its kind is. -/
def getLastBlockIndex (fProofOfStake : Bool) : BlockPtr → BlockPtr
  | e :: d :: p =>
    if e.fProofOfStake != fProofOfStake then getLastBlockIndex fProofOfStake (d :: p)
    else e :: d :: p
  | p => p

/-- The last two blocks of the kind; there are none for the first and the second block of it. -/
def lastTwoOfKind (fProofOfStake : Bool) (pindexLast : BlockPtr) :
    Option (BlockIndex × BlockIndex) :=
  match getLastBlockIndex fProofOfStake pindexLast with
  | pindexPrev :: d :: p =>
    match getLastBlockIndex fProofOfStake (d :: p) with
    | pindexPrevPrev :: _ :: _ => some (pindexPrev, pindexPrevPrev)
    | _ => none
  | _ => none

/-- The spacing that is used: a negative one is replaced. -/
def actualSpacing (pindexPrev pindexPrevPrev : BlockIndex) : ℤ :=
  let nActualSpacing := pindexPrev.blockTime - pindexPrevPrev.blockTime
  if nActualSpacing < 0 then nTargetSpacing else nActualSpacing

/-- The quotient before it is clamped. -/
def retarget (nBits : UInt32) (nActualSpacing : ℤ) : ℤ :=
  let nInterval := nTargetTimespan / nTargetSpacing
  (setCompact nBits * ((nInterval - 1) * nTargetSpacing + nActualSpacing + nActualSpacing)).tdiv
    ((nInterval + 1) * nTargetSpacing)

def clampTarget (limit bnNew : ℤ) : ℤ := if bnNew ≤ 0 ∨ limit < bnNew then limit else bnNew

def getNextTargetRequired (P : Params) (pindexLast : BlockPtr) (fProofOfStake : Bool) : UInt32 :=
  match lastTwoOfKind fProofOfStake pindexLast with
  | none => getCompact (bnTargetLimit P fProofOfStake)
  | some (pindexPrev, pindexPrevPrev) =>
    getCompact (clampTarget (bnTargetLimit P fProofOfStake)
      (retarget pindexPrev.header.nBits (actualSpacing pindexPrev pindexPrevPrev)))

/-- Every block of the chain has the bits that are required of it. -/
def CarriesRequired (P : Params) : BlockPtr → Prop
  | [] => True
  | e :: p => e.header.nBits = getNextTargetRequired P p e.fProofOfStake ∧ CarriesRequired P p

/-- The limit of a network is `~uint256(0)` shifted to the right, which leaves something of it. -/
structure Params.HasWorkLimit (P : Params) : Prop where
  pos : 0 < P.bnProofOfWorkLimit
  lt : P.bnProofOfWorkLimit < 2 ^ 256

theorem bnTargetLimit_pos {P : Params} (hP : P.HasWorkLimit) (fProofOfStake : Bool) :
    0 < bnTargetLimit P fProofOfStake := by
  cases fProofOfStake with
  | false => exact hP.pos
  | true => exact show (0 : ℤ) < bnProofOfStakeLimit by decide

theorem bnTargetLimit_lt {P : Params} (hP : P.HasWorkLimit) (fProofOfStake : Bool) :
    bnTargetLimit P fProofOfStake < 2 ^ 256 := by
  cases fProofOfStake with
  | false => exact hP.lt
  | true => exact show bnProofOfStakeLimit < 2 ^ 256 by decide

theorem clampTarget_pos {limit : ℤ} (h : 0 < limit) (bnNew : ℤ) : 0 < clampTarget limit bnNew := by
  unfold clampTarget
  split <;> omega

theorem clampTarget_le (limit bnNew : ℤ) : clampTarget limit bnNew ≤ limit := by
  unfold clampTarget
  split <;> omega

theorem clampTarget_mono {limit m n : ℤ} (hm : 0 < m) (h : m ≤ n) :
    clampTarget limit m ≤ clampTarget limit n := by
  unfold clampTarget
  split <;> split <;> omega

theorem getNextTargetRequired_eq {P : Params} (hP : P.HasWorkLimit) (p : BlockPtr)
    (fProofOfStake : Bool) : ∃ n : ℕ, 0 < n ∧ (n : ℤ) ≤ bnTargetLimit P fProofOfStake ∧
      n < 2 ^ 256 ∧ getNextTargetRequired P p fProofOfStake = getCompact n := by
  have hpos := bnTargetLimit_pos hP fProofOfStake
  have hlt := bnTargetLimit_lt hP fProofOfStake
  have hrange : ∀ target : ℤ, 0 < target → target ≤ bnTargetLimit P fProofOfStake →
      ∃ n : ℕ, 0 < n ∧ (n : ℤ) ≤ bnTargetLimit P fProofOfStake ∧ n < 2 ^ 256 ∧
        getCompact target = getCompact n := by
    intro target htarget hle
    lift target to ℕ using htarget.le
    exact ⟨target, by omega, hle, by omega, rfl⟩
  unfold getNextTargetRequired
  cases lastTwoOfKind fProofOfStake p with
  | none => exact hrange _ hpos le_rfl
  | some pair => exact hrange _ (clampTarget_pos hpos _) (clampTarget_le _ _)

theorem setCompact_getNextTargetRequired {P : Params} (hP : P.HasWorkLimit) (p : BlockPtr)
    (fProofOfStake : Bool) :
    0 < setCompact (getNextTargetRequired P p fProofOfStake) ∧
      setCompact (getNextTargetRequired P p fProofOfStake) ≤ bnTargetLimit P fProofOfStake ∧
      getCompact (setCompact (getNextTargetRequired P p fProofOfStake)) =
        getNextTargetRequired P p fProofOfStake := by
  obtain ⟨n, hpos, hle, hlt, heq⟩ := getNextTargetRequired_eq hP p fProofOfStake
  have hcut : truncate 3 n ≤ n := truncate_le
  have hcutpos : 0 < truncate 3 n := truncate_pos (by omega) hpos
  rw [heq, setCompact_getCompact (bytes_le_of_lt hlt)]
  exact ⟨by omega, by omega, getCompact_truncate n⟩

theorem CarriesRequired.of_suffix {P : Params} {p q : BlockPtr} (h : CarriesRequired P p)
    (hq : q <:+ p) : CarriesRequired P q := by
  induction p with
  | nil => exact List.suffix_nil.mp hq ▸ h
  | cons e p ih =>
    rcases List.suffix_cons_iff.mp hq with rfl | hq
    · exact h
    · exact ih h.2 hq

theorem getLastBlockIndex_of_filter {fProofOfStake : Bool} {p l : BlockPtr} {e : BlockIndex}
    (h : p.filter (fun d => d.fProofOfStake == fProofOfStake) = e :: l) :
    ∃ q, getLastBlockIndex fProofOfStake p = e :: q ∧ e :: q <:+ p ∧
      q.filter (fun d => d.fProofOfStake == fProofOfStake) = l := by
  induction p with
  | nil => cases h
  | cons d p ih =>
    rw [List.filter_cons] at h
    by_cases hd : (d.fProofOfStake == fProofOfStake) = true
    · rw [if_pos hd] at h
      obtain ⟨rfl, hl⟩ := List.cons.inj h
      refine ⟨p, ?_, List.suffix_rfl, hl⟩
      cases p with
      | nil => rfl
      | cons d' p => rw [getLastBlockIndex, bne, hd, if_neg (by decide)]
    · rw [if_neg hd] at h
      obtain ⟨q, hlast, hsuf, hl⟩ := ih h
      refine ⟨q, ?_, hsuf.trans (List.suffix_cons d p), hl⟩
      cases p with
      | nil => cases h
      | cons d' p =>
        rw [getLastBlockIndex, bne, Bool.eq_false_iff.mpr hd, if_pos (by decide)]
        exact hlast

theorem retarget_eq (nBits : UInt32) (nActualSpacing : ℤ) : retarget nBits nActualSpacing =
    (setCompact nBits * (3540 + 2 * nActualSpacing)).tdiv 3660 := by
  have hmul : (nTargetTimespan / nTargetSpacing - 1) * nTargetSpacing + nActualSpacing +
      nActualSpacing = 3540 + 2 * nActualSpacing := by
    simp only [nTargetTimespan, nTargetSpacing]
    omega
  simp only [retarget, hmul]
  rfl

theorem retarget_nTargetSpacing (nBits : UInt32) :
    retarget nBits nTargetSpacing = setCompact nBits := by
  rw [retarget_eq]
  exact Int.mul_tdiv_cancel _ (by decide)

theorem retarget_mono {nBits : UInt32} {s s' : ℤ} (hs : 0 ≤ s) (h : s ≤ s')
    (hpos : 0 < retarget nBits s) : retarget nBits s ≤ retarget nBits s' := by
  simp only [retarget_eq] at hpos ⊢
  have hbits : 0 < setCompact nBits := by
    by_contra hneg
    have hmul : setCompact nBits * (3540 + 2 * s) ≤ 0 :=
      Int.mul_nonpos_of_nonpos_of_nonneg (not_lt.mp hneg) (by omega)
    have hquot := Int.tdiv_nonneg (Int.neg_nonneg.mpr hmul) (show (0 : ℤ) ≤ 3660 by omega)
    rw [Int.neg_tdiv] at hquot
    omega
  have hle : setCompact nBits * (3540 + 2 * s) ≤ setCompact nBits * (3540 + 2 * s') :=
    Int.mul_le_mul_of_nonneg_left (by omega) hbits.le
  have hnonneg : 0 ≤ setCompact nBits * (3540 + 2 * s) := Int.mul_nonneg hbits.le (by omega)
  rw [Int.tdiv_eq_ediv_of_nonneg hnonneg, Int.tdiv_eq_ediv_of_nonneg (hnonneg.trans hle)]
  exact Int.ediv_le_ediv (by omega) hle

/-- The target stays when the last two blocks of the kind are as far apart as they should. -/
theorem getNextTargetRequired_spacing {P : Params} (hP : P.HasWorkLimit) {p l : BlockPtr}
    (hp : CarriesRequired P p) {fProofOfStake : Bool} {e e' : BlockIndex}
    (hkind : p.filter (fun d => d.fProofOfStake == fProofOfStake) = e :: e' :: l)
    (hspacing : e.blockTime - e'.blockTime = nTargetSpacing) :
    setCompact (getNextTargetRequired P p fProofOfStake) = setCompact e.header.nBits := by
  obtain ⟨q, hlast, hsuf, hq⟩ := getLastBlockIndex_of_filter hkind
  obtain ⟨q', hlast', _, _⟩ := getLastBlockIndex_of_filter hq
  have he : e.fProofOfStake = fProofOfStake := by
    have hmem := List.mem_filter.mp (hkind ▸ List.mem_cons_self (a := e) (l := e' :: l))
    exact beq_iff_eq.mp hmem.2
  have hbits : e.header.nBits = getNextTargetRequired P q fProofOfStake := by
    rw [(hp.of_suffix hsuf).1, he]
  cases q with
  | nil => cases hq
  | cons d r =>
    cases q' with
    | nil =>
      -- the earlier one is the genesis block, so that both targets are the limit
      have htwo : lastTwoOfKind fProofOfStake p = none := by
        rw [lastTwoOfKind, hlast]
        simp only [hlast']
      have htwo' : lastTwoOfKind fProofOfStake (d :: r) = none := by
        rw [lastTwoOfKind, hlast']
      rw [hbits, getNextTargetRequired, getNextTargetRequired, htwo, htwo']
    | cons d' r' =>
      have htwo : lastTwoOfKind fProofOfStake p = some (e, e') := by
        rw [lastTwoOfKind, hlast]
        simp only [hlast']
      have hactual : actualSpacing e e' = nTargetSpacing := by
        simp only [actualSpacing, hspacing]
        decide
      obtain ⟨hpos, hle, hcut⟩ := setCompact_getNextTargetRequired hP (d :: r) fProofOfStake
      rw [← hbits] at hpos hle hcut
      simp only [getNextTargetRequired, htwo, hactual, retarget_nTargetSpacing]
      rw [clampTarget, if_neg (by omega), hcut]

theorem getNextTargetRequired_mono {P : Params} (hP : P.HasWorkLimit) {p p' : BlockPtr}
    {fProofOfStake : Bool} {e f e' f' : BlockIndex}
    (h : lastTwoOfKind fProofOfStake p = some (e, f))
    (h' : lastTwoOfKind fProofOfStake p' = some (e', f'))
    (hbits : setCompact e.header.nBits = setCompact e'.header.nBits)
    (hspacing : 0 ≤ e.blockTime - f.blockTime)
    (hle : e.blockTime - f.blockTime ≤ e'.blockTime - f'.blockTime)
    (hpos : 0 < retarget e.header.nBits (e.blockTime - f.blockTime)) :
    setCompact (getNextTargetRequired P p fProofOfStake) ≤
      setCompact (getNextTargetRequired P p' fProofOfStake) := by
  have hlimit := bnTargetLimit_pos hP fProofOfStake
  have hmono := retarget_mono hspacing hle hpos
  have hswap : retarget e.header.nBits (e'.blockTime - f'.blockTime) =
      retarget e'.header.nBits (e'.blockTime - f'.blockTime) := by
    rw [retarget_eq, retarget_eq, hbits]
  have hclamp : clampTarget (bnTargetLimit P fProofOfStake)
        (retarget e.header.nBits (e.blockTime - f.blockTime)) ≤
      clampTarget (bnTargetLimit P fProofOfStake)
        (retarget e'.header.nBits (e'.blockTime - f'.blockTime)) :=
    clampTarget_mono hpos (hswap ▸ hmono)
  have hactual : actualSpacing e f = e.blockTime - f.blockTime := if_neg (by omega)
  have hactual' : actualSpacing e' f' = e'.blockTime - f'.blockTime := if_neg (by omega)
  simp only [getNextTargetRequired, h, h', hactual, hactual']
  exact setCompact_getCompact_mono (clampTarget_pos hlimit _) hclamp
    ((clampTarget_le _ _).trans_lt (bnTargetLimit_lt hP _))

/-- The required target is positive and at most the limit, its bits are those it is written
with, it stays at the target spacing, and it grows with the spacing. -/
theorem getNextTargetRequired_target {P : Params} (hP : P.HasWorkLimit) {p : BlockPtr}
    (hp : CarriesRequired P p) (fProofOfStake : Bool) :
    (0 < setCompact (getNextTargetRequired P p fProofOfStake) ∧
      setCompact (getNextTargetRequired P p fProofOfStake) ≤ bnTargetLimit P fProofOfStake ∧
      getCompact (setCompact (getNextTargetRequired P p fProofOfStake)) =
        getNextTargetRequired P p fProofOfStake) ∧
    (∀ e e' l, p.filter (fun d => d.fProofOfStake == fProofOfStake) = e :: e' :: l →
      e.blockTime - e'.blockTime = nTargetSpacing →
      setCompact (getNextTargetRequired P p fProofOfStake) = setCompact e.header.nBits) ∧
    ∀ p' e f e' f', CarriesRequired P p' → lastTwoOfKind fProofOfStake p = some (e, f) →
      lastTwoOfKind fProofOfStake p' = some (e', f') →
      setCompact e.header.nBits = setCompact e'.header.nBits →
      0 ≤ e.blockTime - f.blockTime →
      e.blockTime - f.blockTime ≤ e'.blockTime - f'.blockTime →
      0 < retarget e.header.nBits (e.blockTime - f.blockTime) →
      setCompact (getNextTargetRequired P p fProofOfStake) ≤
        setCompact (getNextTargetRequired P p' fProofOfStake) := by
  refine ⟨setCompact_getNextTargetRequired hP p fProofOfStake, ?_, ?_⟩
  · intro e e' l hkind hspacing
    exact getNextTargetRequired_spacing hP hp hkind hspacing
  · intro p' e f e' f' _ h h' hbits hspacing hle hpos
    exact getNextTargetRequired_mono hP h h' hbits hspacing hle hpos

namespace Sample

/-- A block of proof of work that carries the bits required of it. -/
def timedEntry (P : Params) (p : BlockPtr) (nTime : UInt32) : BlockIndex :=
  let header : BlockHeader :=
    ⟨1, BlockPtr.hash p, 0, nTime, getNextTargetRequired P p false, .ofNat p.length⟩
  { entry genesis with
    phashBlock := P.blockHash header
    nBlockPos := .ofNat (10000 * p.length)
    header := header
    fProofOfStake := false }

/-- A chain of blocks with these times, the genesis block first. -/
def timedChain (P : Params) (times : List UInt32) : BlockPtr :=
  times.foldl (fun p nTime => timedEntry P p nTime :: p) []

theorem carriesRequired_timedChain (P : Params) (times : List UInt32) :
    CarriesRequired P (timedChain P times) := by
  induction times using List.reverseRecOn with
  | nil => trivial
  | append_singleton times nTime ih =>
    rw [timedChain, List.foldl_append]
    exact ⟨rfl, ih⟩

theorem hasWorkLimit_params : params.HasWorkLimit := ⟨by decide, by decide⟩

end Sample

theorem getNextTargetRequired_target_timed :
    setCompact (getNextTargetRequired Sample.params
        (Sample.timedChain Sample.params [0, 60, 90, 150]) false) =
      setCompact (Sample.timedEntry Sample.params
        (Sample.timedChain Sample.params [0, 60, 90]) 150).header.nBits := by
  refine (getNextTargetRequired_target Sample.hasWorkLimit_params
    (Sample.carriesRequired_timedChain Sample.params [0, 60, 90, 150]) false).2.1 _
      (Sample.timedEntry Sample.params (Sample.timedChain Sample.params [0, 60]) 90)
      (Sample.timedChain Sample.params [0, 60]) ?_ ?_
  · simp only [Sample.timedChain, List.foldl_cons, List.foldl_nil, Sample.timedEntry, beq_self_eq_true,
      List.filter_cons_of_pos, List.filter_nil]
  · simp only [BlockIndex.blockTime, Sample.timedEntry]
    decide

end Beancash
