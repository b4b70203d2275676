import Mathlib.Algebra.Order.Ring.Nat
import Mathlib.Data.List.Chain
import Mathlib.Data.List.Count
import Mathlib.Tactic.Ring
import Mathlib.Tactic.NormNum

namespace Beancash

/-- A call of the locker for a page. -/
structure LockerCall (w : ℕ) where
  addr : BitVec w
  lock : Bool

/-- What `LockedPageManagerBase` changes, and what it asked of the locker so far. -/
structure LockedPages (w : ℕ) where
  histogram : BitVec w → Option ℤ
  calls : List (LockerCall w)

/-- The page size, which the constructor asserts to be a power of two. -/
structure PageSize (w : ℕ) where
  size : BitVec w
  ne_zero : size ≠ 0
  power : size &&& (size - 1) = 0

def PageSize.mask {w : ℕ} (m : PageSize w) : BitVec w := ~~~(m.size - 1)

namespace LockedPages

variable {w : ℕ}

/-- The body of the loop of `LockRange`, where the count of a page is an `int`. -/
def lockPage (s : LockedPages w) (page : BitVec w) : Option (LockedPages w) :=
  match s.histogram page with
  | none => some ⟨Function.update s.histogram page (some 1), s.calls ++ [⟨page, true⟩]⟩
  | some count =>
    if count + 1 < 2 ^ 31 then
      some { s with histogram := Function.update s.histogram page (some (count + 1)) }
    else none

/-- The body of the loop of `UnlockRange`. -/
def unlockPage (s : LockedPages w) (page : BitVec w) : Option (LockedPages w) :=
  match s.histogram page with
  | none => none
  | some count =>
    if count - 1 = 0 then
      some ⟨Function.update s.histogram page none, s.calls ++ [⟨page, false⟩]⟩
    else some { s with histogram := Function.update s.histogram page (some (count - 1)) }

/-- The loop over the pages, of as many rounds as there is fuel. -/
def pageLoop (m : PageSize w) (body : LockedPages w → BitVec w → Option (LockedPages w))
    (endPage : BitVec w) : ℕ → BitVec w → LockedPages w → Option (LockedPages w)
  | 0, _, _ => none
  | fuel + 1, page, s =>
    if page ≤ endPage then do
      let s ← body s page
      pageLoop m body endPage fuel (page + m.size) s
    else some s

/-- What `LockRange` and `UnlockRange` have in common. -/
def forPages (m : PageSize w) (body : LockedPages w → BitVec w → Option (LockedPages w))
    (fuel : ℕ) (s : LockedPages w) (p size : BitVec w) : Option (LockedPages w) :=
  if size = 0 then some s
  else
    let startPage := p &&& m.mask
    let endPage := (p + size - 1) &&& m.mask
    pageLoop m body endPage fuel startPage s

def lockRange (m : PageSize w) : ℕ → LockedPages w → BitVec w → BitVec w → Option (LockedPages w) :=
  forPages m lockPage

def unlockRange (m : PageSize w) :
    ℕ → LockedPages w → BitVec w → BitVec w → Option (LockedPages w) :=
  forPages m unlockPage

end LockedPages

theorem toNat_sub_one {w : ℕ} {a : BitVec w} (ha : a ≠ 0) : (a - 1).toNat = a.toNat - 1 := by
  have hne : a.toNat ≠ 0 := fun h => ha (BitVec.eq_of_toNat_eq h)
  have hone : (1 : BitVec w).toNat = 1 := by
    rw [BitVec.ofNat_eq_ofNat, BitVec.toNat_ofNat]
    exact Nat.mod_eq_of_lt (lt_of_le_of_lt (Nat.one_le_iff_ne_zero.mpr hne) a.isLt)
  have hle : (1 : BitVec w) ≤ a := by
    rw [BitVec.le_def, hone]
    omega
  rw [BitVec.toNat_sub_of_le hle, hone]

namespace PageSize

variable {w : ℕ} (m : PageSize w)

theorem exists_pow : ∃ j, m.size.toNat = 2 ^ j := by
  have hne : m.size.toNat ≠ 0 := fun h => m.ne_zero (BitVec.eq_of_toNat_eq h)
  have hpower := congrArg BitVec.toNat m.power
  rw [BitVec.toNat_and, toNat_sub_one m.ne_zero] at hpower
  exact (Nat.and_sub_one_eq_zero_iff_isPowerOfTwo hne).mp hpower

theorem pos : 0 < m.size.toNat := by
  obtain ⟨j, hj⟩ := m.exists_pow
  rw [hj]
  exact Nat.two_pow_pos j

theorem dvd : m.size.toNat ∣ 2 ^ w := by
  obtain ⟨j, hj⟩ := m.exists_pow
  have hlt := m.size.isLt
  rw [hj] at hlt ⊢
  exact Nat.pow_dvd_pow 2 (le_of_lt ((Nat.pow_lt_pow_iff_right (by decide)).mp hlt))

theorem toNat_and_mask (a : BitVec w) :
    (a &&& m.mask).toNat = a.toNat / m.size.toNat * m.size.toNat := by
  have hparts : (a &&& (m.size - 1)) + (a &&& m.mask) = a := by
    rw [BitVec.add_eq_or_of_and_eq_zero]
    · ext i
      simp only [mask, BitVec.getElem_or, BitVec.getElem_and, BitVec.getElem_not]
      cases a[i] <;> cases (m.size - 1)[i] <;> rfl
    · ext i
      simp only [mask, BitVec.getElem_and, BitVec.getElem_not, BitVec.getElem_zero]
      cases a[i] <;> cases (m.size - 1)[i] <;> rfl
  have hmod : (a &&& (m.size - 1)).toNat = a.toNat % m.size.toNat := by
    obtain ⟨j, hj⟩ := m.exists_pow
    rw [BitVec.toNat_and, toNat_sub_one m.ne_zero, hj, Nat.and_two_pow_sub_one_eq_mod]
  have hmask : a &&& m.mask = a - (a &&& (m.size - 1)) :=
    BitVec.eq_sub_iff_add_eq.mpr (by rw [BitVec.add_comm, hparts])
  have hle : a &&& (m.size - 1) ≤ a := by
    rw [BitVec.le_def, hmod]
    exact Nat.mod_le _ _
  rw [hmask, BitVec.toNat_sub_of_le hle, hmod]
  have hdiv := Nat.div_add_mod' a.toNat m.size.toNat
  omega

end PageSize

/-- A range of memory. -/
structure MemRange (w : ℕ) where
  p : BitVec w
  size : BitVec w
  deriving DecidableEq

/-- The page has an address of the range. -/
def MemRange.Touches {w : ℕ} (m : PageSize w) (r : MemRange w) (page : BitVec w) : Prop :=
  r.size ≠ 0 ∧ m.size.toNat ∣ page.toNat ∧ page.toNat < r.p.toNat + r.size.toNat ∧
    r.p.toNat < page.toNat + m.size.toNat

instance {w : ℕ} (m : PageSize w) (r : MemRange w) (page : BitVec w) :
    Decidable (r.Touches m page) := inferInstanceAs (Decidable (_ ∧ _))

/-- The pages from one on, so many after it. -/
def PageSize.Among {w : ℕ} (m : PageSize w) (page : BitVec w) (n : ℕ) (q : BitVec w) : Prop :=
  ∃ i ≤ n, q.toNat = page.toNat + i * m.size.toNat

section Range

variable {w : ℕ} {m : PageSize w} {r : MemRange w}

/-- How many pages a range has after its first. -/
def MemRange.morePages (m : PageSize w) (r : MemRange w) : ℕ :=
  (r.p.toNat + r.size.toNat - 1) / m.size.toNat - r.p.toNat / m.size.toNat

theorem MemRange.toNat_endPage (hsize : r.size ≠ 0) (hwrap : r.p.toNat + r.size.toNat ≤ 2 ^ w) :
    ((r.p + r.size - 1) &&& m.mask).toNat =
      (r.p.toNat + r.size.toNat - 1) / m.size.toNat * m.size.toNat := by
  have hne : r.size.toNat ≠ 0 := fun h => hsize (BitVec.eq_of_toNat_eq h)
  have hlast : (r.p + r.size - 1).toNat = r.p.toNat + r.size.toNat - 1 := by
    rw [BitVec.sub_eq_add_neg, BitVec.add_assoc, ← BitVec.sub_eq_add_neg, BitVec.toNat_add,
      toNat_sub_one hsize, Nat.mod_eq_of_lt (by omega)]
    omega
  rw [m.toNat_and_mask, hlast]

theorem MemRange.div_le (m : PageSize w) (hsize : r.size ≠ 0) :
    r.p.toNat / m.size.toNat ≤ (r.p.toNat + r.size.toNat - 1) / m.size.toNat := by
  have hne : r.size.toNat ≠ 0 := fun h => hsize (BitVec.eq_of_toNat_eq h)
  exact Nat.div_le_div_right (by omega)

theorem MemRange.among_iff (hsize : r.size ≠ 0) (q : BitVec w) :
    m.Among (r.p &&& m.mask) (r.morePages m) q ↔ r.Touches m q := by
  have hpos := m.pos
  have hle := r.div_le m hsize
  have hne : r.size.toNat ≠ 0 := fun h => hsize (BitVec.eq_of_toNat_eq h)
  rw [PageSize.Among, m.toNat_and_mask, Touches, morePages]
  constructor
  · rintro ⟨i, hi, hq⟩
    rw [← Nat.add_mul] at hq
    refine ⟨hsize, ⟨_, hq.trans (Nat.mul_comm _ _)⟩, ?_, ?_⟩
    · have hk : r.p.toNat / m.size.toNat + i ≤ (r.p.toNat + r.size.toNat - 1) / m.size.toNat := by
        omega
      have := (Nat.le_div_iff_mul_le hpos).mp hk
      omega
    · have hk : r.p.toNat / m.size.toNat < r.p.toNat / m.size.toNat + i + 1 := by omega
      have := (Nat.div_lt_iff_lt_mul hpos).mp hk
      rw [Nat.add_mul _ 1, Nat.one_mul] at this
      omega
  · rintro ⟨-, ⟨k, hk⟩, hupper, hlower⟩
    rw [Nat.mul_comm] at hk
    rw [hk] at hupper hlower
    have hfirst : r.p.toNat / m.size.toNat < k + 1 :=
      (Nat.div_lt_iff_lt_mul hpos).mpr (by rw [Nat.add_mul, Nat.one_mul]; exact hlower)
    have hlast : k ≤ (r.p.toNat + r.size.toNat - 1) / m.size.toNat :=
      (Nat.le_div_iff_mul_le hpos).mpr (by omega)
    refine ⟨k - r.p.toNat / m.size.toNat, by omega, ?_⟩
    rw [hk, ← Nat.add_mul]
    congr 1
    omega

end Range

namespace LockedPages

variable {w : ℕ}

/-- What the locker was asked for a page. -/
def events (calls : List (LockerCall w)) (page : BitVec w) : List Bool :=
  (calls.filter (·.addr = page)).map LockerCall.lock

/-- The count and the events of a page. -/
def view (s : LockedPages w) (page : BitVec w) : Option ℤ × List Bool :=
  (s.histogram page, events s.calls page)

/-- What a body does is what it does to the view of its page. -/
def ActsAs (body : LockedPages w → BitVec w → Option (LockedPages w))
    (act : Option ℤ × List Bool → Option (Option ℤ × List Bool)) : Prop :=
  ∀ s page, (act (s.view page) = none → body s page = none) ∧
    ∀ v, act (s.view page) = some v →
      ∃ s', body s page = some s' ∧ s'.view = Function.update s.view page v

variable {m : PageSize w} {body : LockedPages w → BitVec w → Option (LockedPages w)}
  {act : Option ℤ × List Bool → Option (Option ℤ × List Bool)}

theorem among_zero {page q : BitVec w} : m.Among page 0 q ↔ q = page := by
  rw [PageSize.Among]
  constructor
  · rintro ⟨i, hi, hq⟩
    rw [Nat.le_zero.mp hi, Nat.zero_mul, Nat.add_zero] at hq
    exact BitVec.eq_of_toNat_eq hq
  · rintro rfl
    exact ⟨0, le_refl 0, by rw [Nat.zero_mul, Nat.add_zero]⟩

theorem among_succ {page q : BitVec w} {n : ℕ} (hlt : page.toNat + m.size.toNat < 2 ^ w) :
    m.Among page (n + 1) q ↔ q = page ∨ m.Among (page + m.size) n q := by
  have hnext : (page + m.size).toNat = page.toNat + m.size.toNat := by
    rw [BitVec.toNat_add, Nat.mod_eq_of_lt hlt]
  rw [PageSize.Among, PageSize.Among, hnext]
  constructor
  · rintro ⟨i, hi, hq⟩
    cases i with
    | zero =>
      rw [Nat.zero_mul, Nat.add_zero] at hq
      exact .inl (BitVec.eq_of_toNat_eq hq)
    | succ i =>
      rw [Nat.succ_mul] at hq
      exact .inr ⟨i, by omega, by omega⟩
  · rintro (rfl | ⟨i, hi, hq⟩)
    · exact ⟨0, Nat.zero_le _, by rw [Nat.zero_mul, Nat.add_zero]⟩
    · exact ⟨i + 1, by omega, by rw [Nat.succ_mul]; omega⟩

theorem not_among_next {page : BitVec w} {n : ℕ} (hlt : page.toNat + m.size.toNat < 2 ^ w) :
    ¬m.Among (page + m.size) n page := by
  rintro ⟨i, -, hq⟩
  rw [BitVec.toNat_add, Nat.mod_eq_of_lt hlt] at hq
  have hpos := m.pos
  omega

theorem pageLoop_round (hacts : ActsAs body act) {endPage page : BitVec w} (hle : page ≤ endPage)
    {s : LockedPages w} {v : Option ℤ × List Bool} (hv : act (s.view page) = some v) (fuel : ℕ) :
    ∃ s₁, pageLoop m body endPage (fuel + 1) page s =
        pageLoop m body endPage fuel (page + m.size) s₁ ∧
      s₁.view = Function.update s.view page v := by
  obtain ⟨s₁, hs₁, hview⟩ := (hacts s page).2 v hv
  refine ⟨s₁, ?_, hview⟩
  rw [pageLoop, if_pos hle, hs₁]
  rfl

theorem pageLoop_fails (hacts : ActsAs body act) {endPage page : BitVec w} (hle : page ≤ endPage)
    {s : LockedPages w} (hv : act (s.view page) = none) (fuel : ℕ) :
    pageLoop m body endPage fuel page s = none := by
  cases fuel with
  | zero => rfl
  | succ fuel =>
    rw [pageLoop, if_pos hle, (hacts s page).1 hv]
    rfl

/-- With enough fuel the loop acts on each page up to the end, if that is not the last one. -/
theorem pageLoop_some (hacts : ActsAs body act) {endPage : BitVec w}
    (hlast : endPage.toNat + m.size.toNat < 2 ^ w) {n fuel : ℕ} (hfuel : n + 1 < fuel)
    {page : BitVec w} (hend : endPage.toNat = page.toNat + n * m.size.toNat) {s : LockedPages w}
    (hact : ∀ q, m.Among page n q → (act (s.view q)).isSome) :
    ∃ s', pageLoop m body endPage fuel page s = some s' ∧
      ∀ q, (m.Among page n q → act (s.view q) = some (s'.view q)) ∧
        (¬m.Among page n q → s'.view q = s.view q) := by
  have hpos := m.pos
  induction n generalizing fuel page s with
  | zero =>
    obtain ⟨fuel, rfl⟩ : ∃ k, fuel = k + 1 + 1 := ⟨fuel - 2, by omega⟩
    rw [Nat.zero_mul, Nat.add_zero] at hend
    obtain ⟨v, hv⟩ := Option.isSome_iff_exists.mp (hact page (among_zero.mpr rfl))
    obtain ⟨s', hloop, hview⟩ :=
      pageLoop_round (m := m) hacts (BitVec.le_def.mpr (ge_of_eq hend)) hv (fuel + 1)
    have hbehind : ¬page + m.size ≤ endPage := by
      rw [BitVec.le_def, BitVec.toNat_add, Nat.mod_eq_of_lt (by omega)]
      omega
    refine ⟨s', by rw [hloop, pageLoop, if_neg hbehind], fun q => ?_⟩
    rw [among_zero, hview]
    refine ⟨?_, fun hq => Function.update_of_ne hq _ _⟩
    rintro rfl
    rw [Function.update_self, hv]
  | succ n ih =>
    rw [Nat.succ_mul] at hend
    have hlt : page.toNat + m.size.toNat < 2 ^ w := by omega
    obtain ⟨fuel, rfl⟩ : ∃ k, fuel = k + 1 := ⟨fuel - 1, by omega⟩
    obtain ⟨v, hv⟩ := Option.isSome_iff_exists.mp (hact page ((among_succ hlt).mpr (.inl rfl)))
    have hle : page ≤ endPage := BitVec.le_def.mpr (by omega)
    obtain ⟨s₁, hloop, hview⟩ := pageLoop_round (m := m) hacts hle hv fuel
    have hother : ∀ q, m.Among (page + m.size) n q → s₁.view q = s.view q := by
      intro q hq
      rw [hview, Function.update_of_ne]
      rintro rfl
      exact not_among_next hlt hq
    have hnext : (page + m.size).toNat = page.toNat + m.size.toNat := by
      rw [BitVec.toNat_add, Nat.mod_eq_of_lt hlt]
    have hend' : endPage.toNat = (page + m.size).toNat + n * m.size.toNat := by omega
    have hact' : ∀ q, m.Among (page + m.size) n q → (act (s₁.view q)).isSome := by
      intro q hq
      rw [hother q hq]
      exact hact q ((among_succ hlt).mpr (.inr hq))
    obtain ⟨s', hs', hafter⟩ := ih (by omega : n + 1 < fuel) hend' hact'
    refine ⟨s', hloop.trans hs', fun q => ⟨fun hq => ?_, fun hq => ?_⟩⟩
    · rcases (among_succ hlt).mp hq with rfl | hq
      · rw [(hafter _).2 (not_among_next hlt), hview, Function.update_self, hv]
      · rw [← (hafter q).1 hq, hother q hq]
    · rw [among_succ hlt, not_or] at hq
      rw [(hafter q).2 hq.2, hview, Function.update_of_ne hq.1]

theorem pageLoop_none (hacts : ActsAs body act) {endPage : BitVec w} {n : ℕ} (fuel : ℕ)
    {page : BitVec w} (hend : endPage.toNat = page.toNat + n * m.size.toNat) {s : LockedPages w}
    {q : BitVec w} (hq : m.Among page n q) (hact : act (s.view q) = none) :
    pageLoop m body endPage fuel page s = none := by
  induction n generalizing fuel page s with
  | zero =>
    obtain rfl := among_zero.mp hq
    exact pageLoop_fails hacts (BitVec.le_def.mpr (by omega)) hact fuel
  | succ n ih =>
    rw [Nat.succ_mul] at hend
    have hpos := m.pos
    have hle : page ≤ endPage := BitVec.le_def.mpr (by omega)
    have hlt : page.toNat + m.size.toNat < 2 ^ w := by
      have := endPage.isLt
      omega
    cases fuel with
    | zero => rfl
    | succ fuel =>
      cases hv : act (s.view page) with
      | none => exact pageLoop_fails hacts hle hv _
      | some v =>
        rcases (among_succ hlt).mp hq with rfl | hq
        · rw [hv] at hact
          cases hact
        · obtain ⟨s₁, hloop, hview⟩ := pageLoop_round (m := m) hacts hle hv fuel
          have hother : s₁.view q = s.view q := by
            rw [hview, Function.update_of_ne]
            rintro rfl
            exact not_among_next hlt hq
          have hnext : (page + m.size).toNat = page.toNat + m.size.toNat := by
            rw [BitVec.toNat_add, Nat.mod_eq_of_lt hlt]
          rw [hloop]
          exact ih fuel (by omega) hq (by rwa [hother])

theorem pageLoop_last {endPage : BitVec w} (hlast : endPage.toNat + m.size.toNat = 2 ^ w)
    (fuel : ℕ) {page : BitVec w} (hpage : m.size.toNat ∣ page.toNat) (s : LockedPages w) :
    pageLoop m body endPage fuel page s = none := by
  induction fuel generalizing page s with
  | zero => rfl
  | succ fuel ih =>
    have hle : page ≤ endPage := by
      rw [BitVec.le_def]
      obtain ⟨k, hk⟩ := hpage
      obtain ⟨l, hl⟩ := m.dvd
      have hlt := page.isLt
      rw [hk, hl] at hlt
      have hkl : k < l := lt_of_mul_lt_mul_left' hlt
      have hmul := Nat.mul_le_mul_left m.size.toNat (Nat.succ_le_of_lt hkl)
      rw [Nat.mul_succ] at hmul
      omega
    rw [pageLoop, if_pos hle]
    cases hbody : body s page with
    | none => rfl
    | some s₁ =>
      refine ih ?_ s₁
      rw [BitVec.toNat_add]
      exact (Nat.dvd_mod_iff m.dvd).mpr (Nat.dvd_add hpage (Nat.dvd_refl _))

variable {r : MemRange w}

theorem endPage_eq (hsize : r.size ≠ 0) (hwrap : r.p.toNat + r.size.toNat ≤ 2 ^ w) :
    ((r.p + r.size - 1) &&& m.mask).toNat =
      (r.p &&& m.mask).toNat + r.morePages m * m.size.toNat := by
  have hle := r.div_le m hsize
  rw [r.toNat_endPage hsize hwrap, m.toNat_and_mask, MemRange.morePages, ← Nat.add_mul]
  congr 1
  omega

theorem page_add_le (m : PageSize w) {k : ℕ} (h : k * m.size.toNat < 2 ^ w) :
    (k + 1) * m.size.toNat ≤ 2 ^ w := by
  obtain ⟨l, hl⟩ := m.dvd
  rw [hl, Nat.mul_comm] at h ⊢
  exact Nat.mul_le_mul_left _ (Nat.lt_of_mul_lt_mul_left h)

theorem endPage_le (hsize : r.size ≠ 0) (hwrap : r.p.toNat + r.size.toNat ≤ 2 ^ w) :
    ((r.p + r.size - 1) &&& m.mask).toNat + m.size.toNat ≤ 2 ^ w := by
  have hne : r.size.toNat ≠ 0 := fun h => hsize (BitVec.eq_of_toNat_eq h)
  have hdiv := Nat.div_mul_le_self (r.p.toNat + r.size.toNat - 1) m.size.toNat
  have hlt : (r.p.toNat + r.size.toNat - 1) / m.size.toNat * m.size.toNat < 2 ^ w := by omega
  have hpage := page_add_le m hlt
  rw [r.toNat_endPage hsize hwrap, ← Nat.succ_mul]
  exact hpage

theorem endPage_lt (hsize : r.size ≠ 0) (hwrap : r.p.toNat + r.size.toNat ≤ 2 ^ w) :
    ((r.p + r.size - 1) &&& m.mask).toNat + m.size.toNat < 2 ^ w ↔
      r.p.toNat + r.size.toNat + m.size.toNat ≤ 2 ^ w := by
  have hne : r.size.toNat ≠ 0 := fun h => hsize (BitVec.eq_of_toNat_eq h)
  have hdiv := Nat.div_add_mod' (r.p.toNat + r.size.toNat - 1) m.size.toNat
  have hmod := Nat.mod_lt (r.p.toNat + r.size.toNat - 1) m.pos
  rw [r.toNat_endPage hsize hwrap]
  constructor
  · intro hlt
    rw [← Nat.succ_mul] at hlt
    have hpage := page_add_le m hlt
    rw [Nat.succ_mul, Nat.succ_mul] at hpage
    omega
  · intro hle
    omega

theorem forPages_some (hacts : ActsAs body act) {fuel : ℕ} (hfuel : 2 ^ w ≤ fuel)
    (hsize : r.size ≠ 0) (hfits : r.p.toNat + r.size.toNat + m.size.toNat ≤ 2 ^ w)
    {s : LockedPages w} (hact : ∀ q, r.Touches m q → (act (s.view q)).isSome) :
    ∃ s', forPages m body fuel s r.p r.size = some s' ∧
      ∀ q, (r.Touches m q → act (s.view q) = some (s'.view q)) ∧
        (¬r.Touches m q → s'.view q = s.view q) := by
  have hwrap : r.p.toNat + r.size.toNat ≤ 2 ^ w := by omega
  have hlast := (endPage_lt (m := m) hsize hwrap).mpr hfits
  have hend := endPage_eq (m := m) hsize hwrap
  have hrounds : r.morePages m + 1 < fuel := by
    have hpos := m.pos
    have hmul := Nat.le_mul_of_pos_right (r.morePages m) hpos
    omega
  rw [forPages, if_neg hsize]
  obtain ⟨s', hs', hafter⟩ := pageLoop_some hacts hlast hrounds hend
    (fun q hq => hact q ((r.among_iff hsize q).mp hq))
  refine ⟨s', hs', fun q => ?_⟩
  rw [← r.among_iff hsize q]
  exact hafter q

theorem forPages_none (hacts : ActsAs body act) (fuel : ℕ) (hsize : r.size ≠ 0)
    (hwrap : r.p.toNat + r.size.toNat ≤ 2 ^ w) {s : LockedPages w} {q : BitVec w}
    (hq : r.Touches m q) (hact : act (s.view q) = none) :
    forPages m body fuel s r.p r.size = none := by
  rw [forPages, if_neg hsize]
  exact pageLoop_none hacts fuel (endPage_eq hsize hwrap) ((r.among_iff hsize q).mpr hq) hact

theorem forPages_last (fuel : ℕ) (hsize : r.size ≠ 0) (hwrap : r.p.toNat + r.size.toNat ≤ 2 ^ w)
    (hlast : ¬r.p.toNat + r.size.toNat + m.size.toNat ≤ 2 ^ w) (s : LockedPages w) :
    forPages m body fuel s r.p r.size = none := by
  rw [forPages, if_neg hsize]
  have hle := endPage_le (m := m) hsize hwrap
  have hlt := (endPage_lt (m := m) hsize hwrap).not.mpr hlast
  refine pageLoop_last (by omega) fuel ?_ s
  rw [m.toNat_and_mask]
  exact Nat.dvd_mul_left _ _

/-- What a lock does to the view of a page. -/
def lockAct : Option ℤ × List Bool → Option (Option ℤ × List Bool)
  | (none, events) => some (some 1, events ++ [true])
  | (some count, events) => if count + 1 < 2 ^ 31 then some (some (count + 1), events) else none

/-- What an unlock does to the view of a page. -/
def unlockAct : Option ℤ × List Bool → Option (Option ℤ × List Bool)
  | (none, _) => none
  | (some count, events) =>
    some (if count - 1 = 0 then (none, events ++ [false]) else (some (count - 1), events))

theorem view_update_call (s : LockedPages w) (page : BitVec w) (count : Option ℤ) (lock : Bool) :
    (⟨Function.update s.histogram page count, s.calls ++ [⟨page, lock⟩]⟩ : LockedPages w).view =
      Function.update s.view page (count, events s.calls page ++ [lock]) := by
  funext q
  by_cases hq : q = page
  · subst hq
    simp [view, events]
  · have hne : page ≠ q := Ne.symm hq
    simp [view, events, hq, hne]

theorem view_update (s : LockedPages w) (page : BitVec w) (count : Option ℤ) :
    ({ s with histogram := Function.update s.histogram page count } : LockedPages w).view =
      Function.update s.view page (count, events s.calls page) := by
  funext q
  by_cases hq : q = page
  · subst hq
    simp [view]
  · simp [view, hq]

theorem lockPage_acts : ActsAs (lockPage : LockedPages w → BitVec w → _) lockAct := by
  intro s page
  rw [view, lockPage]
  cases s.histogram page with
  | none =>
    refine ⟨fun h => (nomatch h), ?_⟩
    rintro v ⟨⟩
    exact ⟨_, rfl, view_update_call s page (some 1) true⟩
  | some count =>
    rw [lockAct]
    dsimp only
    split_ifs with hlt
    · refine ⟨fun h => (nomatch h), ?_⟩
      rintro v ⟨⟩
      exact ⟨_, rfl, view_update s page (some (count + 1))⟩
    · exact ⟨fun _ => rfl, fun v h => nomatch h⟩

theorem unlockPage_acts : ActsAs (unlockPage : LockedPages w → BitVec w → _) unlockAct := by
  intro s page
  rw [view, unlockPage]
  cases s.histogram page with
  | none => exact ⟨fun _ => rfl, fun v h => nomatch h⟩
  | some count =>
    rw [unlockAct]
    dsimp only
    split_ifs with hzero
    · refine ⟨fun h => (nomatch h), ?_⟩
      rintro v ⟨⟩
      exact ⟨_, rfl, view_update_call s page none false⟩
    · refine ⟨fun h => (nomatch h), ?_⟩
      rintro v ⟨⟩
      exact ⟨_, rfl, view_update s page (some (count - 1))⟩

/-- The view of a page that so many ranges touch. -/
structure PageHolds (ranges : ℕ) (v : Option ℤ × List Bool) : Prop where
  count : v.1 = if ranges = 0 then none else some (ranges : ℤ)
  lt : ranges < 2 ^ 31
  chain : v.2.IsChain (· ≠ ·)
  first : v.2.head? ≠ some false
  last : v.2.getLast? = some true ↔ ranges ≠ 0

theorem PageHolds.lock {count : ℕ} {v : Option ℤ × List Bool} (h : PageHolds count v)
    (hlt : count + 1 < 2 ^ 31) : ∃ v', lockAct v = some v' ∧ PageHolds (count + 1) v' := by
  obtain ⟨c, events⟩ := v
  obtain ⟨hcount, -, hchain, hfirst, hlast⟩ := h
  dsimp only at hcount hchain hfirst hlast
  subst hcount
  rcases Nat.eq_zero_or_pos count with rfl | hpos
  · refine ⟨_, rfl, rfl, hlt, ?_, ?_, ?_⟩
    · refine List.isChain_append.mpr ⟨hchain, List.isChain_singleton true, ?_⟩
      rintro x hx y hy
      cases hy
      rintro rfl
      exact hlast.mp hx rfl
    · cases events with
      | nil => exact fun h => nomatch h
      | cons e events => exact hfirst
    · rw [List.getLast?_concat]
      exact ⟨fun _ => Nat.succ_ne_zero 0, fun _ => rfl⟩
  · have hroom : (count : ℤ) + 1 < 2 ^ 31 := by exact_mod_cast hlt
    rw [if_neg (by omega), lockAct, if_pos hroom]
    refine ⟨_, rfl, ?_, hlt, hchain, hfirst, hlast.trans (by omega)⟩
    rw [if_neg (Nat.succ_ne_zero count), Nat.cast_succ]

theorem PageHolds.lock_full {count : ℕ} {v : Option ℤ × List Bool} (h : PageHolds count v)
    (hlt : ¬count + 1 < 2 ^ 31) : lockAct v = none := by
  obtain ⟨c, events⟩ := v
  have hcount := h.count
  dsimp only at hcount
  have hfull : ¬(count : ℤ) + 1 < 2 ^ 31 := by exact_mod_cast hlt
  rw [hcount, if_neg (by omega), lockAct, if_neg hfull]

theorem PageHolds.unlock {count : ℕ} {v : Option ℤ × List Bool} (h : PageHolds (count + 1) v) :
    ∃ v', unlockAct v = some v' ∧ PageHolds count v' := by
  obtain ⟨c, events⟩ := v
  obtain ⟨hcount, hlt, hchain, hfirst, hlast⟩ := h
  dsimp only at hcount hchain hfirst hlast
  subst hcount
  rw [if_neg (Nat.succ_ne_zero count)]
  refine ⟨_, rfl, ?_⟩
  rcases Nat.eq_zero_or_pos count with rfl | hpos
  · rw [if_pos (by norm_num)]
    have hlocked := hlast.mpr (Nat.succ_ne_zero 0)
    refine ⟨rfl, by omega, ?_, ?_, ?_⟩
    · refine List.isChain_append.mpr ⟨hchain, List.isChain_singleton false, ?_⟩
      rintro x hx y hy
      cases hy
      rintro rfl
      exact absurd (hlocked.symm.trans hx) (by decide)
    · cases events with
      | nil => exact nomatch hlocked
      | cons e events => exact hfirst
    · rw [List.getLast?_concat]
      exact ⟨fun h => (nomatch h), fun h => absurd rfl h⟩
  · have hne : ((count + 1 : ℕ) : ℤ) - 1 ≠ 0 := by omega
    rw [if_neg hne]
    refine ⟨?_, by omega, hchain, hfirst, hlast.trans (by omega)⟩
    rw [if_neg (by omega)]
    dsimp only
    congr 1
    omega

end LockedPages

/-- A call of `LockRange` or `UnlockRange`. -/
inductive RangeCall (w : ℕ) where
  | lock (r : MemRange w)
  | unlock (r : MemRange w)

namespace RangeCall

variable {w : ℕ}

/-- The ranges outstanding after a call. -/
def next (out : List (MemRange w)) : RangeCall w → List (MemRange w)
  | lock r => r :: out
  | unlock r => out.erase r

/-- Each unlock is of a range that is outstanding. -/
def Matched (out : List (MemRange w)) : List (RangeCall w) → Prop
  | [] => True
  | lock r :: calls => Matched (r :: out) calls
  | unlock r :: calls => r ∈ out ∧ Matched (out.erase r) calls

end RangeCall

namespace LockedPages

variable {w : ℕ}

def start : LockedPages w := ⟨fun _ => none, []⟩

def call (m : PageSize w) (fuel : ℕ) (s : LockedPages w) : RangeCall w → Option (LockedPages w)
  | .lock r => lockRange m fuel s r.p r.size
  | .unlock r => unlockRange m fuel s r.p r.size

/-- The system has a page locked after the calls of the locker. -/
def IsLocked (calls : List (LockerCall w)) (page : BitVec w) : Prop :=
  (events calls page).getLast? = some true

/-- What is promised while these ranges are outstanding: the pages that they touch are locked and no
others, and each page was locked and unlocked in turn. -/
structure Keeps (m : PageSize w) (s : LockedPages w) (out : List (MemRange w)) : Prop where
  locked : ∀ page, IsLocked s.calls page ↔ ∃ r ∈ out, r.Touches m page
  once : ∀ page, (events s.calls page).IsChain (· ≠ ·) ∧ (events s.calls page).head? ≠ some false

/-- Every call of the sequence returns and keeps what is promised. -/
def Lawful (m : PageSize w) (fuel : ℕ) (s : LockedPages w) (out : List (MemRange w)) :
    List (RangeCall w) → Prop
  | [] => True
  | c :: calls => ∃ s', s.call m fuel c = some s' ∧ s'.Keeps m (c.next out) ∧
    s'.Lawful m fuel (c.next out) calls

/-- How many of the ranges touch a page. -/
def touching (m : PageSize w) (out : List (MemRange w)) (page : BitVec w) : ℕ :=
  out.countP (·.Touches m page)

/-- A range to be locked ends before the last page, and its pages are touched by so few ranges that
an `int` counts them. -/
def Meets (m : PageSize w) (out : List (MemRange w)) : RangeCall w → Prop
  | .lock r => r.size ≠ 0 → r.p.toNat + r.size.toNat + m.size.toNat ≤ 2 ^ w ∧
      ∀ page, r.Touches m page → touching m out page + 1 < 2 ^ 31
  | .unlock _ => True

/-- Every call of the sequence is like this. -/
def AllMeet (m : PageSize w) (out : List (MemRange w)) : List (RangeCall w) → Prop
  | [] => True
  | c :: calls => Meets m out c ∧ AllMeet m (c.next out) calls

/-- The counts are right, and no outstanding range reaches into the last page. -/
structure Holds (m : PageSize w) (s : LockedPages w) (out : List (MemRange w)) : Prop where
  page : ∀ page, PageHolds (touching m out page) (s.view page)
  fits : ∀ r ∈ out, r.size ≠ 0 → r.p.toNat + r.size.toNat + m.size.toNat ≤ 2 ^ w

variable {m : PageSize w} {s : LockedPages w} {out : List (MemRange w)} {r : MemRange w}

theorem holds_start : (start : LockedPages w).Holds m [] where
  page := fun _ => ⟨rfl, Nat.two_pow_pos 31, List.isChain_nil, nofun, nofun, fun h => absurd rfl h⟩
  fits := fun _ hr => absurd hr List.not_mem_nil

theorem Holds.keeps (h : s.Holds m out) : s.Keeps m out where
  locked := fun page => (h.page page).last.trans <| by
    rw [touching, Nat.ne_zero_iff_zero_lt, List.countP_pos_iff]
    simp only [decide_eq_true_eq]
  once := fun page => ⟨(h.page page).chain, (h.page page).first⟩

theorem touching_cons_of_touches {page : BitVec w} (h : r.Touches m page) :
    touching m (r :: out) page = touching m out page + 1 :=
  List.countP_cons_of_pos (decide_eq_true h)

theorem touching_cons_of_not {page : BitVec w} (h : ¬r.Touches m page) :
    touching m (r :: out) page = touching m out page :=
  List.countP_cons_of_neg (by rwa [decide_eq_true_iff])

theorem touching_erase (hr : r ∈ out) (page : BitVec w) :
    touching m out page = touching m (r :: out.erase r) page :=
  (List.perm_cons_erase hr).countP_eq _

theorem Holds.cons_empty (h : s.Holds m out) (hsize : r.size = 0) : s.Holds m (r :: out) where
  page := fun page => by
    rw [touching_cons_of_not fun htouches => htouches.1 hsize]
    exact h.page page
  fits := List.forall_mem_cons.mpr ⟨fun hne => absurd hsize hne, h.fits⟩

theorem Holds.lock {fuel : ℕ} (hfuel : 2 ^ w ≤ fuel) (h : s.Holds m out)
    (hmeets : Meets m out (.lock r)) :
    ∃ s', lockRange m fuel s r.p r.size = some s' ∧ s'.Holds m (r :: out) := by
  by_cases hsize : r.size = 0
  · exact ⟨s, if_pos hsize, h.cons_empty hsize⟩
  · obtain ⟨hfits, hcount⟩ := hmeets hsize
    have hact : ∀ q, r.Touches m q →
        ∃ v, lockAct (s.view q) = some v ∧ PageHolds (touching m out q + 1) v :=
      fun q hq => (h.page q).lock (hcount q hq)
    obtain ⟨s', hs', hview⟩ := forPages_some lockPage_acts hfuel hsize hfits (s := s) fun q hq => by
      obtain ⟨v, hv, -⟩ := hact q hq
      rw [hv]
      rfl
    refine ⟨s', hs', fun q => ?_, List.forall_mem_cons.mpr ⟨fun _ => hfits, h.fits⟩⟩
    by_cases hq : r.Touches m q
    · obtain ⟨v, hv, hholds⟩ := hact q hq
      obtain rfl := Option.some.inj (hv.symm.trans ((hview q).1 hq))
      rwa [touching_cons_of_touches hq]
    · rw [touching_cons_of_not hq, (hview q).2 hq]
      exact h.page q

theorem Holds.meets_of_lock {fuel : ℕ} (h : s.Holds m out)
    (hwrap : r.p.toNat + r.size.toNat ≤ 2 ^ w) {s' : LockedPages w}
    (hs' : lockRange m fuel s r.p r.size = some s') : Meets m out (.lock r) := by
  intro hsize
  constructor
  · by_contra hlast
    rw [lockRange, forPages_last fuel hsize hwrap hlast] at hs'
    cases hs'
  · intro q hq
    by_contra hfull
    rw [lockRange,
      forPages_none lockPage_acts fuel hsize hwrap hq ((h.page q).lock_full hfull)] at hs'
    cases hs'

theorem Holds.unlock {fuel : ℕ} (hfuel : 2 ^ w ≤ fuel) (h : s.Holds m out) (hr : r ∈ out) :
    ∃ s', unlockRange m fuel s r.p r.size = some s' ∧ s'.Holds m (out.erase r) := by
  have hrest : ∀ r' ∈ out.erase r, r'.size ≠ 0 →
      r'.p.toNat + r'.size.toNat + m.size.toNat ≤ 2 ^ w :=
    fun r' hr' => h.fits r' (List.mem_of_mem_erase hr')
  by_cases hsize : r.size = 0
  · refine ⟨s, if_pos hsize, fun q => ?_, hrest⟩
    rw [← touching_cons_of_not fun htouches : r.Touches m q => htouches.1 hsize, ← touching_erase hr]
    exact h.page q
  · have hact : ∀ q, r.Touches m q →
        ∃ v, unlockAct (s.view q) = some v ∧ PageHolds (touching m (out.erase r) q) v := by
      intro q hq
      have hpage := h.page q
      rw [touching_erase hr, touching_cons_of_touches hq] at hpage
      exact hpage.unlock
    obtain ⟨s', hs', hview⟩ :=
      forPages_some unlockPage_acts hfuel hsize (h.fits r hr hsize) (s := s) fun q hq => by
        obtain ⟨v, hv, -⟩ := hact q hq
        rw [hv]
        rfl
    refine ⟨s', hs', fun q => ?_, hrest⟩
    by_cases hq : r.Touches m q
    · obtain ⟨v, hv, hholds⟩ := hact q hq
      obtain rfl := Option.some.inj (hv.symm.trans ((hview q).1 hq))
      exact hholds
    · rw [← touching_cons_of_not hq, ← touching_erase hr, (hview q).2 hq]
      exact h.page q

/-- None of the ranges to be locked wraps around the address space. -/
def NonWrapping (calls : List (RangeCall w)) : Prop :=
  ∀ r, .lock r ∈ calls → r.p.toNat + r.size.toNat ≤ 2 ^ w

theorem Holds.lawful_iff {fuel : ℕ} (hfuel : 2 ^ w ≤ fuel) {calls : List (RangeCall w)}
    (h : s.Holds m out) (hmatched : RangeCall.Matched out calls) (hwrap : NonWrapping calls) :
    s.Lawful m fuel out calls ↔ AllMeet m out calls := by
  induction calls generalizing s out with
  | nil => exact Iff.rfl
  | cons c calls ih =>
    have hrest : NonWrapping calls := fun r hr => hwrap r (List.mem_cons_of_mem c hr)
    cases c with
    | lock r =>
      constructor
      · rintro ⟨s', hs', -, hlawful⟩
        have hmeets := h.meets_of_lock (hwrap r List.mem_cons_self) hs'
        obtain ⟨s'', hs'', hholds⟩ := h.lock hfuel hmeets
        obtain rfl : s' = s'' := Option.some.inj (hs'.symm.trans hs'')
        exact ⟨hmeets, (ih hholds hmatched hrest).mp hlawful⟩
      · rintro ⟨hmeets, hall⟩
        obtain ⟨s', hs', hholds⟩ := h.lock hfuel hmeets
        exact ⟨s', hs', hholds.keeps, (ih hholds hmatched hrest).mpr hall⟩
    | unlock r =>
      obtain ⟨hr, hmatched⟩ := hmatched
      obtain ⟨s', hs', hholds⟩ := h.unlock hfuel hr
      constructor
      · rintro ⟨s'', hs'', -, hlawful⟩
        obtain rfl : s'' = s' := Option.some.inj (hs''.symm.trans hs')
        exact ⟨trivial, (ih hholds hmatched hrest).mp hlawful⟩
      · rintro ⟨-, hall⟩
        exact ⟨s', hs', hholds.keeps, (ih hholds hmatched hrest).mpr hall⟩

/-- With enough fuel for the loops, every call of a sequence returns and keeps what is promised if
and only if no range that is locked reaches into the last page and no page is touched by more ranges
than an `int` counts. -/
theorem lockedPages_run (m : PageSize w) {calls : List (RangeCall w)}
    (hmatched : RangeCall.Matched [] calls) (hwrap : NonWrapping calls) :
    ∃ enough, ∀ fuel ≥ enough,
      ((start : LockedPages w).Lawful m fuel [] calls ↔ AllMeet m [] calls) :=
  ⟨2 ^ w, fun _ hfuel => holds_start.lawful_iff hfuel hmatched hwrap⟩

end LockedPages

namespace Sample

def smallPages : PageSize 64 := ⟨4096, by decide, by decide⟩

def secret : MemRange 64 := ⟨4000, 5000⟩

def lastPage : MemRange 64 := ⟨18446744073709547520, 1⟩

end Sample

namespace LockedPages

open Sample in
theorem lockedPages_run_secret :
    ∃ enough, ∀ fuel ≥ enough,
      (start : LockedPages 64).Lawful smallPages fuel [] [.lock secret, .unlock secret] := by
  have hwrap : NonWrapping [RangeCall.lock secret, .unlock secret] := by
    intro r hr
    rcases List.mem_cons.mp hr with heq | hr
    · cases heq
      decide
    · cases List.mem_singleton.mp hr
  have hmatched : RangeCall.Matched [] [RangeCall.lock secret, .unlock secret] :=
    ⟨List.mem_singleton_self secret, trivial⟩
  obtain ⟨enough, hiff⟩ := lockedPages_run smallPages hmatched hwrap
  refine ⟨enough, fun fuel hfuel =>
    (hiff fuel hfuel).mpr ⟨fun _ => ⟨by decide, ?_⟩, trivial, trivial⟩⟩
  exact fun page _ => (by decide : 0 + 1 < 2 ^ 31)

open Sample in
/-- The loop over the last page does not come to an end. -/
theorem lockedPages_last :
    lastPage.p.toNat + lastPage.size.toNat ≤ 2 ^ 64 ∧
      ∀ fuel, lockRange smallPages fuel start lastPage.p lastPage.size = none ∧
        ¬(start : LockedPages 64).Lawful smallPages fuel [] [.lock lastPage] := by
  have hnone : ∀ fuel, lockRange smallPages fuel start lastPage.p lastPage.size = none :=
    fun fuel => forPages_last fuel (by decide) (by decide) (by decide) start
  refine ⟨by decide, fun fuel => ⟨hnone fuel, ?_⟩⟩
  rintro ⟨s', hs', -⟩
  exact nomatch (hnone fuel).symm.trans hs'

end LockedPages

end Beancash
