import Mathlib.Data.Finset.Disjoint
import Mathlib.Data.Set.Insert
import Mathlib.Logic.Relation

/-!
# Merging sets that overlap

Elements are connected through a family of sets if a chain of its sets leads from one to the other.
The components of a family are kept up when a set is added to it: the components that the set meets
are merged with it, and the others stay (`Components.merge`).
-/

namespace SetMerging

variable {α : Type} {G Q : Set (Finset α)} {a b : α}

/-- In one of the sets. -/
def Together (G : Set (Finset α)) (a b : α) : Prop := ∃ g ∈ G, a ∈ g ∧ b ∈ g

theorem Together.trans {c : α} (h : ∀ s ∈ Q, ∀ t ∈ Q, s ≠ t → Disjoint s t)
    (hab : Together Q a b) (hbc : Together Q b c) : Together Q a c := by
  obtain ⟨s, hs, has, hbs⟩ := hab
  obtain ⟨t, ht, hbt, hct⟩ := hbc
  by_cases hst : s = t
  · exact ⟨t, ht, hst ▸ has, hct⟩
  · exact (Finset.disjoint_left.mp (h s hs t ht hst) hbs hbt).elim

/-- Connected through the sets. -/
def Connected (G : Set (Finset α)) : α → α → Prop := Relation.TransGen (Together G)

theorem Together.symm (h : Together G a b) : Together G b a := by
  obtain ⟨g, hg, ha, hb⟩ := h
  exact ⟨g, hg, hb, ha⟩

theorem Together.mono {G' : Set (Finset α)} (hsub : G ⊆ G') (h : Together G a b) :
    Together G' a b := by
  obtain ⟨g, hg, ha, hb⟩ := h
  exact ⟨g, hsub hg, ha, hb⟩

theorem Connected.symm (h : Connected G a b) : Connected G b a := by
  induction h with
  | single hab => exact .single hab.symm
  | tail _ hbc ih => exact .head hbc.symm ih

theorem Connected.mono {G' : Set (Finset α)} (hsub : G ⊆ G') (h : Connected G a b) :
    Connected G' a b :=
  Relation.TransGen.lift id (fun _ _ => Together.mono hsub) a b h

/-- `Q` are the components of `G`. -/
structure Components (G Q : Set (Finset α)) : Prop where
  disjoint : ∀ s ∈ Q, ∀ t ∈ Q, s ≠ t → Disjoint s t
  together_iff : ∀ a b, Together Q a b ↔ Connected G a b

theorem components_empty : Components (∅ : Set (Finset α)) ∅ where
  disjoint s hs := absurd hs (Set.notMem_empty s)
  together_iff a b := by
    constructor
    · rintro ⟨g, hg, -⟩
      exact absurd hg (Set.notMem_empty g)
    · intro h
      obtain ⟨c, ⟨g, hg, -⟩, -⟩ := Relation.TransGen.head'_iff.mp h
      exact absurd hg (Set.notMem_empty g)

theorem Components.exists_mem_iff (h : Components G Q) :
    (∃ t ∈ Q, a ∈ t) ↔ ∃ g ∈ G, a ∈ g := by
  constructor
  · rintro ⟨t, ht, ha⟩
    obtain ⟨c, ⟨g, hg, hag, -⟩, -⟩ :=
      Relation.TransGen.head'_iff.mp ((h.together_iff a a).mp ⟨t, ht, ha, ha⟩)
    exact ⟨g, hg, hag⟩
  · rintro ⟨g, hg, ha⟩
    obtain ⟨t, ht, hat, -⟩ := (h.together_iff a a).mpr (.single ⟨g, hg, ha, ha⟩)
    exact ⟨t, ht, hat⟩

theorem Components.merge (h : Components G Q) {g merged : Finset α}
    (hmerged : ∀ a, a ∈ merged ↔ a ∈ g ∨ ∃ t ∈ Q, ¬Disjoint t g ∧ a ∈ t) :
    Components (insert g G) (insert merged {t ∈ Q | Disjoint t g}) := by
  have hsub : G ⊆ insert g G := Set.subset_insert g G
  have hdisjoint : ∀ t ∈ Q, Disjoint t g → Disjoint merged t := by
    intro t ht hdis
    refine Finset.disjoint_left.mpr fun a ha hat => ?_
    rcases (hmerged a).mp ha with hg | ⟨s, hs, hmeets, has⟩
    · exact Finset.disjoint_left.mp hdis hat hg
    · have hst : s ≠ t := fun heq => hmeets (heq ▸ hdis)
      exact Finset.disjoint_left.mp (h.disjoint s hs t ht hst) has hat
  have hall : ∀ s ∈ insert merged {t ∈ Q | Disjoint t g},
      ∀ t ∈ insert merged {t ∈ Q | Disjoint t g}, s ≠ t → Disjoint s t := by
    rintro s (rfl | hs) t (rfl | ht) hne
    · exact absurd rfl hne
    · exact hdisjoint t ht.1 ht.2
    · exact (hdisjoint s hs.1 hs.2).symm
    · exact h.disjoint s hs.1 t ht.1 hne
  -- from each element of the new component a chain leads into `g`
  have hreach : ∀ a ∈ merged, ∃ y ∈ g, Connected (insert g G) a y := by
    intro a ha
    rcases (hmerged a).mp ha with hg | ⟨t, ht, hmeets, hat⟩
    · exact ⟨a, hg, .single ⟨g, Set.mem_insert g G, hg, hg⟩⟩
    · obtain ⟨y, hyt, hyg⟩ := Finset.not_disjoint_iff.mp hmeets
      exact ⟨y, hyg, ((h.together_iff a y).mp ⟨t, ht, hat, hyt⟩).mono hsub⟩
  refine ⟨hall, fun a b => ⟨?_, fun hconn => ?_⟩⟩
  · rintro ⟨t, rfl | ht, ha, hb⟩
    · obtain ⟨x, hx, hax⟩ := hreach a ha
      obtain ⟨y, hy, hby⟩ := hreach b hb
      exact (hax.tail ⟨g, Set.mem_insert g G, hx, hy⟩).trans hby.symm
    · exact ((h.together_iff a b).mp ⟨t, ht.1, ha, hb⟩).mono hsub
  · have hstep : ∀ {a b : α}, Together (insert g G) a b →
        Together (insert merged {t ∈ Q | Disjoint t g}) a b := by
      rintro a b ⟨s, rfl | hs, ha, hb⟩
      · exact ⟨merged, Set.mem_insert _ _, (hmerged a).mpr (.inl ha), (hmerged b).mpr (.inl hb)⟩
      · obtain ⟨t, ht, hat, hbt⟩ := (h.together_iff a b).mpr (.single ⟨s, hs, ha, hb⟩)
        by_cases hdis : Disjoint t g
        · exact ⟨t, Set.mem_insert_of_mem _ ⟨ht, hdis⟩, hat, hbt⟩
        · exact ⟨merged, Set.mem_insert _ _, (hmerged a).mpr (.inr ⟨t, ht, hdis, hat⟩),
            (hmerged b).mpr (.inr ⟨t, ht, hdis, hbt⟩)⟩
    induction hconn with
    | single hab => exact hstep hab
    | tail _ hbc ih => exact ih.trans hall (hstep hbc)

end SetMerging
