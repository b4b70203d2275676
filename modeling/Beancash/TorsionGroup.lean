import Mathlib.Data.ZMod.Basic
import Mathlib.GroupTheory.OrderOfElement
import Mathlib.Tactic.LinearCombination

/-!
# Multiples in a torsion group

In a group that a number annihilates a multiple depends on its scalar modulo that number, and a scalar
that is coprime to it cancels. So the equation of a signature gives back the key (`recovered_key`),
and does so with one point only (`recovered_point`).
-/

namespace TorsionGroup

variable {P : Type*} [AddCommGroup P] {n : ℕ}

theorem nsmul_congr {x : P} (hx : n • x = 0) {a b : ℕ} (h : a ≡ b [MOD n]) : a • x = b • x :=
  nsmul_eq_nsmul_iff_modEq.mpr (h.of_dvd (addOrderOf_dvd_iff_nsmul_eq_zero.mpr hx))

theorem nsmul_cancel (hn : ∀ x : P, n • x = 0) {s : ℕ} (hs : s.Coprime n) {x y : P}
    (h : s • x = s • y) : x = y := by
  have hzero : s • (x - y) = 0 := by rw [nsmul_sub, h, sub_self]
  have hdvd : addOrderOf (x - y) ∣ s.gcd n :=
    Nat.dvd_gcd (addOrderOf_dvd_iff_nsmul_eq_zero.mpr hzero)
      (addOrderOf_dvd_iff_nsmul_eq_zero.mpr (hn _))
  rw [hs, Nat.dvd_one, AddMonoid.addOrderOf_eq_one_iff] at hdvd
  exact sub_eq_zero.mp hdvd

theorem recovered_key {g : P} (hg : n • g = 0) {e e' s r rr k d : ℕ} (hneg : e' + e ≡ 0 [MOD n])
    (hr : r * rr ≡ 1 [MOD n]) (hs : s * k ≡ e + r * d [MOD n]) :
    (e' * rr % n) • g + (s * rr % n) • k • g = d • g := by
  rw [← mul_nsmul', ← add_nsmul]
  apply nsmul_congr hg
  simp only [← ZMod.natCast_eq_natCast_iff] at hneg hr hs ⊢
  push_cast [ZMod.natCast_mod] at hneg hr hs ⊢
  linear_combination (rr : ZMod n) * hneg + (rr : ZMod n) * hs + (d : ZMod n) * hr

theorem recovered_point (hn : ∀ x : P, n • x = 0) {s rr : ℕ} (hs : s.Coprime n)
    (hrr : rr.Coprime n) {q x y : P} (h : q + (s * rr % n) • x = q + (s * rr % n) • y) : x = y := by
  have hcoprime : (s * rr % n).Coprime n := by
    rw [Nat.Coprime, ← Nat.gcd_rec, Nat.gcd_comm]
    exact hs.mul_left hrr
  exact nsmul_cancel hn hcoprime (add_left_cancel h)

end TorsionGroup
