import Mathlib.Order.Lattice
import Mathlib.Data.List.Basic

/-!
# Scanning timed candidates for the least key

A list of candidates in the order of their times is scanned for the one with the
least key among those that are not excluded. The scan stops at the first
candidate after a stop time, but not before it has found one, so that a candidate
that is too late is taken only when all others are.
-/

namespace CandidateScan

variable {α κ τ : Type*} [LinearOrder κ] [LinearOrder τ] (time : α → τ) (key : α → κ)
  (excluded : α → Bool) (stop : τ)

def better (a : α) : Option α → Option α
  | some b => if key a < key b then some a else some b
  | none => some a

/-- The scan of a list with the best candidate so far. -/
def scan : List α → Option α → Option α
  | [], best => best
  | a :: l, best =>
    if best.isSome ∧ stop < time a then best
    else if excluded a then scan l best
    else scan l (better key a best)

/-- The candidate has the least key of those that are in time, or is the first one of all if
none is in time. -/
structure IsChoice (l : List α) (a : α) : Prop where
  mem : a ∈ l
  free : excluded a = false
  least : ∀ b ∈ l, excluded b = false → time b ≤ stop → time a ≤ stop ∧ key a ≤ key b
  first : (∀ b ∈ l, excluded b = false → stop < time b) →
    l.find? (fun b => !excluded b) = some a

variable {time key excluded stop} {l : List α} {a b : α}

/-- Once a candidate is found, the scan takes the least key of it and of those in time. -/
theorem scan_some (hsorted : l.Pairwise fun a b => time a ≤ time b) :
    ∃ b, scan time key excluded stop l (some a) = some b ∧ key b ≤ key a ∧
      (b = a ∨ b ∈ l ∧ excluded b = false ∧ time b ≤ stop) ∧
      ∀ d ∈ l, excluded d = false → time d ≤ stop → key b ≤ key d := by
  induction l generalizing a with
  | nil => exact ⟨a, rfl, le_rfl, Or.inl rfl, fun d hd => nomatch hd⟩
  | cons e l ih =>
    obtain ⟨hle, hsorted⟩ := List.pairwise_cons.mp hsorted
    rw [scan]
    by_cases hlate : stop < time e
    · -- all that is left is too late
      rw [if_pos ⟨rfl, hlate⟩]
      refine ⟨a, rfl, le_rfl, Or.inl rfl, fun d hd _ htime => ?_⟩
      rcases List.mem_cons.mp hd with rfl | hd
      · exact absurd htime (not_le.mpr hlate)
      · exact absurd (le_trans (hle d hd) htime) (not_le.mpr hlate)
    · rw [if_neg (fun h => hlate h.2)]
      by_cases he : excluded e = true
      · rw [if_pos he]
        obtain ⟨b, hb, hkey, hor, hleast⟩ := ih (a := a) hsorted
        refine ⟨b, hb, hkey, hor.imp_right fun h => ⟨List.mem_cons_of_mem e h.1, h.2⟩, ?_⟩
        intro d hd hfree htime
        rcases List.mem_cons.mp hd with rfl | hd
        · rw [he] at hfree
          cases hfree
        · exact hleast d hd hfree htime
      · rw [if_neg he, better]
        rw [Bool.not_eq_true] at he
        by_cases hkey : key e < key a
        · rw [if_pos hkey]
          obtain ⟨b, hb, hbkey, hor, hleast⟩ := ih (a := e) hsorted
          refine ⟨b, hb, le_trans hbkey (le_of_lt hkey), Or.inr ?_, ?_⟩
          · rcases hor with rfl | hor
            · exact ⟨List.mem_cons_self, he, not_lt.mp hlate⟩
            · exact ⟨List.mem_cons_of_mem e hor.1, hor.2⟩
          · intro d hd hfree htime
            rcases List.mem_cons.mp hd with rfl | hd
            · exact hbkey
            · exact hleast d hd hfree htime
        · rw [if_neg hkey]
          obtain ⟨b, hb, hbkey, hor, hleast⟩ := ih (a := a) hsorted
          refine ⟨b, hb, hbkey, hor.imp_right fun h => ⟨List.mem_cons_of_mem e h.1, h.2⟩, ?_⟩
          intro d hd hfree htime
          rcases List.mem_cons.mp hd with rfl | hd
          · exact le_trans hbkey (not_lt.mp hkey)
          · exact hleast d hd hfree htime

/-- A scan that starts with nothing finds the choice, unless all candidates are excluded. -/
theorem scan_none (hsorted : l.Pairwise fun a b => time a ≤ time b)
    (hfree : ∃ a ∈ l, excluded a = false) :
    ∃ b, scan time key excluded stop l none = some b ∧
      IsChoice time key excluded stop l b := by
  induction l with
  | nil =>
    obtain ⟨a, ha, _⟩ := hfree
    cases ha
  | cons e l ih =>
    obtain ⟨hle, hsorted⟩ := List.pairwise_cons.mp hsorted
    rw [scan, if_neg (by simp)]
    by_cases he : excluded e = true
    · rw [if_pos he]
      have hrest : ∃ a ∈ l, excluded a = false := by
        obtain ⟨a, ha, hfree⟩ := hfree
        rcases List.mem_cons.mp ha with rfl | ha
        · rw [he] at hfree
          cases hfree
        · exact ⟨a, ha, hfree⟩
      obtain ⟨b, hb, hchoice⟩ := ih hsorted hrest
      refine ⟨b, hb, List.mem_cons_of_mem e hchoice.mem, hchoice.free, ?_, ?_⟩
      · intro d hd hdfree htime
        rcases List.mem_cons.mp hd with rfl | hd
        · rw [he] at hdfree
          cases hdfree
        · exact hchoice.least d hd hdfree htime
      · intro hlate
        rw [List.find?_cons_of_neg (by rw [he]; decide)]
        exact hchoice.first fun d hd => hlate d (List.mem_cons_of_mem e hd)
    · rw [if_neg he, better]
      rw [Bool.not_eq_true] at he
      obtain ⟨b, hb, hbkey, hor, hleast⟩ : ∃ b, scan time key excluded stop l (some e) = some b ∧
          key b ≤ key e ∧ (b = e ∨ b ∈ l ∧ excluded b = false ∧ time b ≤ stop) ∧
          ∀ d ∈ l, excluded d = false → time d ≤ stop → key b ≤ key d := scan_some hsorted
      refine ⟨b, hb, ?_, ?_, ?_, ?_⟩
      · exact hor.elim (fun h => h ▸ List.mem_cons_self) fun h => List.mem_cons_of_mem e h.1
      · exact hor.elim (fun h => h ▸ he) fun h => h.2.1
      · intro d hd hfree htime
        -- the first one is in time if any is
        have hetime : time e ≤ stop := by
          rcases List.mem_cons.mp hd with rfl | hd
          · exact htime
          · exact le_trans (hle d hd) htime
        refine ⟨hor.elim (fun h => h ▸ hetime) fun h => h.2.2, ?_⟩
        rcases List.mem_cons.mp hd with rfl | hd
        · exact hbkey
        · exact hleast d hd hfree htime
      · intro hlate
        rcases hor with rfl | ⟨hmem, hbfree, htime⟩
        · rw [List.find?_cons_of_pos (by rw [he]; decide)]
        · exact absurd htime (not_le.mpr (hlate b (List.mem_cons_of_mem e hmem) hbfree))

end CandidateScan
