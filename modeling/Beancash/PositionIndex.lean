import Beancash.SelectTried
import Mathlib.Data.List.Nodup

/-!
# A list with an index of its positions

The entries of a list may each be told their position, so that one can be taken out in no time: it
changes places with the last one first. `Indexes` says that the positions are right.
-/

namespace Beancash

variable {κ : Type} {l : List κ} {pos : κ → Option ℤ}

/-- The positions are those in the list, and nothing else has one. -/
structure Indexes (l : List κ) (pos : κ → Option ℤ) : Prop where
  exists_of_pos : ∀ k z, pos k = some z → ∃ i : ℕ, z = i ∧ l[i]? = some k
  pos_of_getElem : ∀ (i : ℕ) k, l[i]? = some k → pos k = some (i : ℤ)

namespace Indexes

theorem mem_iff (h : Indexes l pos) (k : κ) : k ∈ l ↔ (pos k).isSome = true := by
  rw [Option.isSome_iff_exists]
  constructor
  · intro hk
    obtain ⟨i, hi⟩ := List.mem_iff_getElem?.mp hk
    exact ⟨i, h.pos_of_getElem i k hi⟩
  · rintro ⟨z, hz⟩
    obtain ⟨i, -, hi⟩ := h.exists_of_pos k z hz
    exact List.mem_of_getElem? hi

theorem nodup (h : Indexes l pos) : l.Nodup := by
  rw [List.nodup_iff_getElem?_ne_getElem?]
  intro i j hij hj heq
  have hlast : l[j]? = some l[j] := List.getElem?_eq_getElem hj
  have hi := h.pos_of_getElem i _ (heq.trans hlast)
  rw [h.pos_of_getElem j _ hlast, Option.some.injEq, Int.ofNat_inj] at hi
  omega

theorem nil (h : ∀ k, pos k = none) : Indexes [] pos where
  exists_of_pos k z hz := by
    rw [h k] at hz
    cases hz
  pos_of_getElem i k hi := by cases hi

theorem concat [DecidableEq κ] (h : Indexes l pos) {k : κ} (hk : pos k = none) :
    Indexes (l ++ [k]) (Function.update pos k (some (l.length : ℤ))) where
  exists_of_pos k' z hz := by
    by_cases hsame : k' = k
    · subst hsame
      rw [Function.update_self, Option.some.injEq] at hz
      exact ⟨l.length, hz.symm, List.getElem?_concat_length⟩
    · rw [Function.update_of_ne hsame] at hz
      obtain ⟨i, rfl, hi⟩ := h.exists_of_pos k' z hz
      have hlt := (List.getElem?_eq_some_iff.mp hi).1
      exact ⟨i, rfl, (List.getElem?_append_left hlt).trans hi⟩
  pos_of_getElem i k' hi := by
    by_cases hlt : i < l.length
    · rw [List.getElem?_append_left hlt] at hi
      have hpos := h.pos_of_getElem i k' hi
      have hne : k' ≠ k := by
        rintro rfl
        rw [hk] at hpos
        cases hpos
      rw [Function.update_of_ne hne, hpos]
    · have hle : i < (l ++ [k]).length := (List.getElem?_eq_some_iff.mp hi).1
      rw [List.length_append, List.length_singleton] at hle
      obtain rfl : i = l.length := by omega
      rw [List.getElem?_concat_length, Option.some.injEq] at hi
      rw [← hi, Function.update_self]

theorem dropLast [DecidableEq κ] {k : κ} (h : Indexes (l ++ [k]) pos) : Indexes l (Function.update pos k none) where
  exists_of_pos k' z hz := by
    by_cases hsame : k' = k
    · rw [hsame, Function.update_self] at hz
      cases hz
    · rw [Function.update_of_ne hsame] at hz
      obtain ⟨i, rfl, hi⟩ := h.exists_of_pos k' z hz
      have hlt := (List.getElem?_eq_some_iff.mp hi).1
      rw [List.length_append, List.length_singleton] at hlt
      refine ⟨i, rfl, ?_⟩
      by_cases hi' : i < l.length
      · rwa [List.getElem?_append_left hi'] at hi
      · obtain rfl : i = l.length := by omega
        rw [List.getElem?_concat_length, Option.some.injEq] at hi
        exact absurd hi.symm hsame
  pos_of_getElem i k' hi := by
    have hlt := (List.getElem?_eq_some_iff.mp hi).1
    have hi' : (l ++ [k])[i]? = some k' := (List.getElem?_append_left hlt).trans hi
    have hne : k' ≠ k := by
      rintro rfl
      have hnodup := h.nodup
      rw [List.nodup_append] at hnodup
      exact hnodup.2.2 k' (List.mem_of_getElem? hi) k' (List.mem_singleton_self k') rfl
    rw [Function.update_of_ne hne, h.pos_of_getElem i k' hi']

theorem swap [DecidableEq κ] (h : Indexes l pos) {i j : ℕ} {a b : κ} (ha : l[i]? = some a)
    (hb : l[j]? = some b) : Indexes ((l.set i b).set j a)
      (Function.update (Function.update pos a (some (j : ℤ))) b (some (i : ℤ))) := by
  have hget (n : ℕ) : ((l.set i b).set j a)[n]? = l[Equiv.swap j i n]? :=
    getElem?_exchange ha hb n
  have hother : ∀ n k, l[n]? = some k → k ≠ a → k ≠ b → Equiv.swap j i n = n := by
    intro n k hk hka hkb
    refine Equiv.swap_apply_of_ne_of_ne ?_ ?_
    · rintro rfl
      exact hkb (Option.some.inj (hk.symm.trans hb))
    · rintro rfl
      exact hka (Option.some.inj (hk.symm.trans ha))
  refine ⟨fun k z hz => ?_, fun n k hk => ?_⟩
  · by_cases hkb : k = b
    · rw [hkb, Function.update_self, Option.some.injEq] at hz
      exact ⟨i, hz.symm, by rw [hget, Equiv.swap_apply_right, hb, hkb]⟩
    · rw [Function.update_of_ne hkb] at hz
      by_cases hka : k = a
      · rw [hka, Function.update_self, Option.some.injEq] at hz
        exact ⟨j, hz.symm, by rw [hget, Equiv.swap_apply_left, ha, hka]⟩
      · rw [Function.update_of_ne hka] at hz
        obtain ⟨n, rfl, hn⟩ := h.exists_of_pos k z hz
        exact ⟨n, rfl, by rw [hget, hother n k hn hka hkb, hn]⟩
  · rw [hget] at hk
    have hpos := h.pos_of_getElem _ k hk
    by_cases hkb : k = b
    · rw [hkb, h.pos_of_getElem j b hb, Option.some.injEq, Int.ofNat_inj, eq_comm,
        ← Equiv.eq_symm_apply, Equiv.symm_swap, Equiv.swap_apply_left] at hpos
      rw [hkb, Function.update_self, hpos]
    · rw [Function.update_of_ne hkb]
      by_cases hka : k = a
      · rw [hka, h.pos_of_getElem i a ha, Option.some.injEq, Int.ofNat_inj, eq_comm,
          ← Equiv.eq_symm_apply, Equiv.symm_swap, Equiv.swap_apply_right] at hpos
        rw [hka, Function.update_self, hpos]
      · rw [Function.update_of_ne hka, hpos]
        have hback := hother _ k hk hka hkb
        rw [Equiv.swap_apply_self] at hback
        rw [← hback]

end Indexes

end Beancash
