import Mathlib.Algebra.BigOperators.Group.List.Basic
import Mathlib.Algebra.GroupWithZero.Nat
import Mathlib.Data.UInt
import Mathlib.Algebra.Order.BigOperators.Group.List

/-!
# The knapsack in complement form

Of a list of items, each with a weight and a cost, some are discarded: those of the highest total
cost that have room in a capacity. The others are kept, and they have the lowest total cost of all
selections that leave out no more than has room (`cost_kept_le`).
-/

namespace Knapsack

variable {α κ : Type}

section Recurrence

variable (weight : α → ℕ) (cost : α → κ) [Add κ] [Zero κ] [LE κ] [DecidableLE κ]

/-- Whether an item is discarded, when `best` is the best without it. On a tie it is kept. -/
def discards (best : ℕ → κ) (a : α) (j : ℕ) : Bool :=
  decide (weight a ≤ j) && !decide (best (j - weight a) + cost a ≤ best j)

/-- The highest cost that has room in a capacity. The items are listed from the last one. -/
def best : List α → ℕ → κ
  | [], _ => 0
  | a :: items, j =>
    if discards weight cost (best items) a j then best items (j - weight a) + cost a
    else best items j

/-- The items that are kept when the best choice is traced back. -/
def kept : List α → ℕ → List α
  | [], _ => []
  | a :: items, j =>
    if discards weight cost (best weight cost items) a j then kept items (j - weight a)
    else a :: kept items j

theorem kept_sublist (items : List α) (j : ℕ) : (kept weight cost items j).Sublist items := by
  induction items generalizing j with
  | nil => exact List.Sublist.refl []
  | cons a items ih =>
    rw [kept]
    split
    · exact (ih _).cons a
    · exact (ih j).cons_cons a

theorem weight_le_kept (items : List α) (j : ℕ) :
    (items.map weight).sum ≤ ((kept weight cost items j).map weight).sum + j := by
  induction items generalizing j with
  | nil => exact Nat.zero_le _
  | cons a items ih =>
    rw [kept, List.map_cons, List.sum_cons]
    split
    · rename_i hdiscards
      have hle : weight a ≤ j := of_decide_eq_true (Bool.and_eq_true_iff.mp hdiscards).1
      have h := ih (j - weight a)
      omega
    · have h := ih j
      rw [List.map_cons, List.sum_cons]
      omega

end Recurrence

theorem exists_complement {s l : List α} (h : s.Sublist l) :
    ∃ d : List α, d.Sublist l ∧ (s ++ d).Perm l := by
  induction h with
  | slnil => exact ⟨[], List.Sublist.refl [], List.Perm.refl []⟩
  | cons a _ ih =>
    obtain ⟨d, hd, hperm⟩ := ih
    exact ⟨a :: d, hd.cons_cons a, List.perm_middle.trans (hperm.cons a)⟩
  | cons_cons a _ ih =>
    obtain ⟨d, hd, hperm⟩ := ih
    exact ⟨d, hd.cons a, hperm.cons a⟩

section Optimality

variable {weight : α → ℕ} {cost : α → κ} [AddCommMonoid κ] [LinearOrder κ]

theorem best_le_cons (a : α) (items : List α) (j : ℕ) :
    best weight cost items j ≤ best weight cost (a :: items) j := by
  rw [best]
  split
  · rename_i hdiscards
    have hnot := (Bool.and_eq_true_iff.mp hdiscards).2
    rw [Bool.not_eq_true', decide_eq_false_iff_not, not_le] at hnot
    exact hnot.le
  · exact le_rfl

theorem add_cost_le_cons {a : α} {items : List α} {j : ℕ} (h : weight a ≤ j) :
    best weight cost items (j - weight a) + cost a ≤ best weight cost (a :: items) j := by
  rw [best]
  split
  · exact le_rfl
  · rename_i hdiscards
    rw [discards, decide_eq_true h, Bool.true_and, Bool.not_eq_true', decide_eq_false_iff_not,
      not_not] at hdiscards
    exact hdiscards

theorem cost_kept_add_best (weight : α → ℕ) (cost : α → κ) (items : List α) (j : ℕ) :
    ((kept weight cost items j).map cost).sum + best weight cost items j =
      (items.map cost).sum := by
  induction items generalizing j with
  | nil => exact add_zero _
  | cons a items ih =>
    rw [kept, best, List.map_cons, List.sum_cons]
    split
    · rw [← add_assoc, ih, add_comm]
    · rw [List.map_cons, List.sum_cons, add_assoc, ih]

variable [IsOrderedCancelAddMonoid κ]

theorem cost_le_best {d items : List α} (h : d.Sublist items) {j : ℕ}
    (hroom : (d.map weight).sum ≤ j) : (d.map cost).sum ≤ best weight cost items j := by
  induction h generalizing j with
  | slnil => exact le_rfl
  | cons a _ ih => exact (ih hroom).trans (best_le_cons a _ j)
  | cons_cons a _ ih =>
    rw [List.map_cons, List.sum_cons] at hroom
    have hrest := ih (j := j - weight a) (by omega)
    rw [List.map_cons, List.sum_cons, add_comm]
    exact (add_le_add_left hrest (cost a)).trans (add_cost_le_cons (by omega))

theorem cost_kept_le (weight : α → ℕ) (cost : α → κ) {s items : List α} (h : s.Sublist items) {j : ℕ}
    (hroom : (items.map weight).sum ≤ (s.map weight).sum + j) :
    ((kept weight cost items j).map cost).sum ≤ (s.map cost).sum := by
  obtain ⟨d, hd, hperm⟩ := exists_complement h
  have hweight := (hperm.map weight).sum_eq
  have hcost := (hperm.map cost).sum_eq
  rw [List.map_append, List.sum_append] at hweight hcost
  have hbest : (d.map cost).sum ≤ best weight cost items j := cost_le_best hd (by omega)
  have hsum := cost_kept_add_best weight cost items j
  rw [← hcost] at hsum
  have hle : ((kept weight cost items j).map cost).sum + best weight cost items j ≤
      (s.map cost).sum + best weight cost items j := by
    rw [hsum]
    exact add_le_add_right hbest _
  exact le_of_add_le_add_right hle

end Optimality

section Words

variable {weight : α → ℕ} {cost : α → UInt64}

theorem add_cost_toNat {items : List α} {a : α}
    (hbest : ∀ j, (best weight cost items j).toNat = best weight (fun a => (cost a).toNat) items j)
    (h : ((a :: items).map fun a => (cost a).toNat).sum < 2 ^ 64) (j : ℕ) :
    (best weight cost items j + cost a).toNat =
      best weight (fun a => (cost a).toNat) items j + (cost a).toNat := by
  have hle := (Nat.le_add_left _ _).trans_eq
    (cost_kept_add_best weight (fun a => (cost a).toNat) items j)
  rw [List.map_cons, List.sum_cons] at h
  rw [UInt64.toNat_add, hbest, Nat.mod_eq_of_lt (by omega)]

theorem discards_toNat {items : List α} {a : α}
    (hbest : ∀ j, (best weight cost items j).toNat = best weight (fun a => (cost a).toNat) items j)
    (h : ((a :: items).map fun a => (cost a).toNat).sum < 2 ^ 64) (j : ℕ) :
    discards weight cost (best weight cost items) a j =
      discards weight (fun a => (cost a).toNat) (best weight (fun a => (cost a).toNat) items) a j := by
  simp only [discards, UInt64.le_iff_toNat_le, add_cost_toNat hbest h, hbest]

theorem best_toNat {items : List α} (h : (items.map fun a => (cost a).toNat).sum < 2 ^ 64) (j : ℕ) :
    (best weight cost items j).toNat = best weight (fun a => (cost a).toNat) items j := by
  induction items generalizing j with
  | nil => rfl
  | cons a items ih =>
    have hbest := ih ((Nat.le_add_left _ _).trans_lt h)
    rw [best, best, discards_toNat hbest h]
    split
    · exact add_cost_toNat hbest h _
    · exact hbest j

theorem kept_toNat {items : List α} (h : (items.map fun a => (cost a).toNat).sum < 2 ^ 64) (j : ℕ) :
    kept weight cost items j = kept weight (fun a => (cost a).toNat) items j := by
  induction items generalizing j with
  | nil => rfl
  | cons a items ih =>
    have hrest := (Nat.le_add_left _ _).trans_lt h
    rw [kept, kept, discards_toNat (best_toNat hrest) h, ih hrest, ih hrest]

end Words

end Knapsack
