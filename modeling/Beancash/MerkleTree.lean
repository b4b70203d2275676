import Mathlib.Data.List.Nodup
import Mathlib.Data.Set.Function
import Mathlib.Logic.Relation

namespace MerkleTree

open Relation

variable {α : Type*}

/-- The neighbours that are hashed together. -/
def pairs : List α → List (α × α)
  | a :: b :: l => (a, b) :: pairs l
  | [a] => [(a, a)]
  | [] => []

theorem length_pairs (l : List α) : (pairs l).length = (l.length + 1) / 2 := by
  induction l using pairs.induct with
  | case1 a b l ih =>
    rw [pairs, List.length_cons, ih, List.length_cons, List.length_cons]
    omega
  | case2 a => simp [pairs]
  | case3 => simp [pairs]

theorem getElem?_pairs {l : List α} {k : ℕ} {a b : α} (ha : l[2 * k]? = some a)
    (hb : l[min (2 * k + 1) (l.length - 1)]? = some b) : (pairs l)[k]? = some (a, b) := by
  induction l using pairs.induct generalizing k with
  | case1 c d l ih =>
    cases k with
    | zero =>
      have hmin : min (2 * 0 + 1) ((c :: d :: l).length - 1) = 1 := by
        rw [List.length_cons, List.length_cons]
        omega
      rw [hmin] at hb
      rw [← Option.some_injective _ ha, ← Option.some_injective _ hb]
      rfl
    | succ k =>
      have hlt : 2 * k < l.length := (List.getElem?_eq_some_iff.mp ha).1 |> fun h => by
        rw [List.length_cons, List.length_cons] at h
        omega
      have hmin : min (2 * (k + 1) + 1) ((c :: d :: l).length - 1) =
          min (2 * k + 1) (l.length - 1) + 2 := by
        rw [List.length_cons, List.length_cons]
        omega
      rw [hmin] at hb
      exact ih ha hb
  | case2 c =>
    obtain rfl : k = 0 := by
      have h := (List.getElem?_eq_some_iff.mp ha).1
      rw [List.length_singleton] at h
      omega
    rw [← Option.some_injective _ ha, ← Option.some_injective _ hb]
    rfl
  | case3 => cases ha

theorem fst_mem_of_mem_pairs {l : List α} {x : α × α} (h : x ∈ pairs l) : x.1 ∈ l := by
  induction l using pairs.induct with
  | case1 a b l ih =>
    rcases List.mem_cons.mp h with rfl | h
    · exact List.mem_cons_self
    · exact List.mem_cons_of_mem _ (List.mem_cons_of_mem _ (ih h))
  | case2 a =>
    rw [List.mem_singleton.mp h]
    exact List.mem_cons_self
  | case3 => cases h

theorem nodup_pairs {l : List α} (h : l.Nodup) : (pairs l).Nodup := by
  induction l using pairs.induct with
  | case1 a b l ih =>
    obtain ⟨ha, hl⟩ := List.nodup_cons.mp h
    refine List.nodup_cons.mpr ⟨fun hmem => ha ?_, ih (List.nodup_cons.mp hl).2⟩
    exact List.mem_cons_of_mem _ (fst_mem_of_mem_pairs hmem)
  | case2 a => exact List.nodup_singleton _
  | case3 => exact List.nodup_nil

theorem eq_of_pairs_eq {l l' : List α} (hl : l.Nodup) (hl' : l'.Nodup) (h : pairs l = pairs l') :
    l = l' := by
  induction l using pairs.induct generalizing l' with
  | case1 a b l ih =>
    match l' with
    | [] => cases h
    | [c] =>
      obtain ⟨rfl, rfl⟩ := Prod.mk.inj (List.cons.inj h).1
      exact absurd List.mem_cons_self (List.nodup_cons.mp hl).1
    | c :: d :: l' =>
      obtain ⟨hhead, htail⟩ := List.cons.inj h
      obtain ⟨rfl, rfl⟩ := Prod.mk.inj hhead
      rw [ih (List.nodup_cons.mp (List.nodup_cons.mp hl).2).2
        (List.nodup_cons.mp (List.nodup_cons.mp hl').2).2 htail]
  | case2 a =>
    match l' with
    | [] => cases h
    | [c] =>
      obtain ⟨rfl, _⟩ := Prod.mk.inj (List.cons.inj h).1
      rfl
    | c :: d :: l' =>
      obtain ⟨rfl, rfl⟩ := Prod.mk.inj (List.cons.inj h).1
      exact absurd List.mem_cons_self (List.nodup_cons.mp hl').1
  | case3 =>
    match l' with
    | [] => rfl
    | [c] => cases h
    | c :: d :: l' => cases h

variable {f : α × α → α}

/-- The level above. -/
def parents (f : α × α → α) (l : List α) : List α := (pairs l).map f

/-- One level up, as long as there is more than one node. -/
def Climbs (f : α × α → α) (l l' : List α) : Prop := 1 < l.length ∧ l' = parents f l

/-- What is hashed on the way up to the root. -/
def Hashed (f : α × α → α) (l : List α) : Set (α × α) :=
  {x | ∃ m, ReflTransGen (Climbs f) l m ∧ 1 < m.length ∧ x ∈ pairs m}

/-- The same as a list. -/
def hashed (f : α × α → α) : ℕ → List α → List (α × α)
  | fuel + 1, l => if 1 < l.length then pairs l ++ hashed f fuel (parents f l) else []
  | 0, _ => []

theorem length_parents (l : List α) : (parents f l).length = (l.length + 1) / 2 := by
  rw [parents, List.length_map, length_pairs]

theorem Climbs.length_lt {l m : List α} (h : Climbs f l m) : m.length < l.length := by
  obtain ⟨hlt, rfl⟩ := h
  rw [length_parents]
  omega

theorem mem_hashed {fuel : ℕ} {l : List α} (hfuel : l.length ≤ fuel) {x : α × α}
    (h : x ∈ Hashed f l) : x ∈ hashed f fuel l := by
  obtain ⟨m, hm, hlt, hx⟩ := h
  induction hm using ReflTransGen.head_induction_on generalizing fuel with
  | refl =>
    cases fuel with
    | zero => omega
    | succ fuel =>
      rw [hashed, if_pos hlt]
      exact List.mem_append_left _ hx
  | head hstep _ ih =>
    have hdec := hstep.length_lt
    obtain ⟨hl, rfl⟩ := hstep
    cases fuel with
    | zero => omega
    | succ fuel =>
      rw [hashed, if_pos hl]
      exact List.mem_append_right _ (ih (by omega))

theorem hashed_climbs {l m : List α} (h : Climbs f l m) : Hashed f m ⊆ Hashed f l := by
  rintro x ⟨m', hm', hx⟩
  exact ⟨m', .head h hm', hx⟩

theorem nodup_parents {l : List α} (hl : l.Nodup) (hlt : 1 < l.length)
    (hinj : (Hashed f l).InjOn f) : (parents f l).Nodup :=
  (nodup_pairs hl).map_on fun _ hx _ hy => hinj ⟨l, .refl, hlt, hx⟩ ⟨l, .refl, hlt, hy⟩

theorem nodup_of_climbs {l m : List α} (hl : l.Nodup) (hinj : (Hashed f l).InjOn f)
    (h : ReflTransGen (Climbs f) l m) : m.Nodup ∧ Hashed f m ⊆ Hashed f l := by
  induction h with
  | refl => exact ⟨hl, subset_rfl⟩
  | tail _ hstep ih =>
    obtain ⟨hm, hsub⟩ := ih
    have hclimb := hashed_climbs hstep
    obtain ⟨hlt, rfl⟩ := hstep
    exact ⟨nodup_parents hm hlt (hinj.mono hsub), fun x hx => hsub (hclimb hx)⟩

theorem eq_of_map_eq {β γ : Type*} {g : β → γ} {l l' : List β}
    (hinj : {x | x ∈ l ∨ x ∈ l'}.InjOn g) (h : l.map g = l'.map g) : l = l' := by
  induction l generalizing l' with
  | nil => exact (List.map_eq_nil_iff.mp h.symm).symm
  | cons a l ih =>
    cases l' with
    | nil => cases h
    | cons b l' =>
      obtain ⟨hab, htail⟩ := List.cons.inj h
      rw [hinj (Or.inl List.mem_cons_self) (Or.inr List.mem_cons_self) hab]
      refine congrArg _ (ih (hinj.mono fun x hx => ?_) htail)
      exact hx.imp (List.mem_cons_of_mem a) (List.mem_cons_of_mem b)

theorem eq_of_parents_eq {l l' : List α} (hl : l.Nodup) (hl' : l'.Nodup) (hlt : 1 < l.length)
    (hlt' : 1 < l'.length) (hinj : (Hashed f l ∪ Hashed f l').InjOn f)
    (h : parents f l = parents f l') : l = l' := by
  refine eq_of_pairs_eq hl hl' (eq_of_map_eq ?_ h)
  rintro x (hx | hx) y (hy | hy) heq
  · exact hinj (Or.inl ⟨l, .refl, hlt, hx⟩) (Or.inl ⟨l, .refl, hlt, hy⟩) heq
  · exact hinj (Or.inl ⟨l, .refl, hlt, hx⟩) (Or.inr ⟨l', .refl, hlt', hy⟩) heq
  · exact hinj (Or.inr ⟨l', .refl, hlt', hx⟩) (Or.inl ⟨l, .refl, hlt, hy⟩) heq
  · exact hinj (Or.inr ⟨l', .refl, hlt', hx⟩) (Or.inr ⟨l', .refl, hlt', hy⟩) heq

theorem climbs_comparable {l l' : List α} {r : α} (hl : l.Nodup) (hl' : l'.Nodup)
    (hinj : (Hashed f l ∪ Hashed f l').InjOn f) (h : ReflTransGen (Climbs f) l [r])
    (h' : ReflTransGen (Climbs f) l' [r]) :
    ReflTransGen (Climbs f) l' l ∨ ReflTransGen (Climbs f) l l' := by
  induction h using ReflTransGen.head_induction_on with
  | refl => exact Or.inl h'
  | @head l m hstep _ ih =>
    have hsub := hashed_climbs hstep
    have hm : m.Nodup := by
      rw [hstep.2]
      exact nodup_parents hl hstep.1 (hinj.mono Set.subset_union_left)
    rcases ih hm (hinj.mono (Set.union_subset_union_left _ hsub)) with hup | hdown
    · -- the level of the other tree below `m` is `l`, too, or `m` is the other tree
      rcases ReflTransGen.cases_tail hup with rfl | ⟨k, hk, hkm⟩
      · exact Or.inr (.single hstep)
      · obtain ⟨hknodup, hksub⟩ := nodup_of_climbs hl' (hinj.mono Set.subset_union_right) hk
        have heq : l = k := eq_of_parents_eq hl hknodup hstep.1 hkm.1
          (hinj.mono (Set.union_subset_union_right _ hksub)) (hstep.2.symm.trans hkm.2)
        exact Or.inl (heq ▸ hk)
    · exact Or.inr (.head hstep hdown)

theorem exists_hashed_of_climbs {l m : List α} (h : ReflTransGen (Climbs f) l m) :
    m = l ∨ ∀ a ∈ m, ∃ x ∈ Hashed f l, a = f x := by
  rcases ReflTransGen.cases_tail h with rfl | ⟨k, hk, hlt, rfl⟩
  · exact Or.inl rfl
  · refine Or.inr fun a ha => ?_
    obtain ⟨x, hx, rfl⟩ := List.mem_map.mp ha
    exact ⟨x, ⟨k, hk, hlt, hx⟩, rfl⟩

theorem eq_of_root_eq {l l' : List α} {r : α} (hl : l.Nodup) (hl' : l'.Nodup)
    (hinj : (Hashed f l ∪ Hashed f l').InjOn f)
    (hleaf : ∀ x ∈ Hashed f l ∪ Hashed f l', f x ∉ l ∧ f x ∉ l')
    (h : ReflTransGen (Climbs f) l [r]) (h' : ReflTransGen (Climbs f) l' [r]) : l = l' := by
  have hne : ∀ {m : List α}, ReflTransGen (Climbs f) m [r] → ∃ a, a ∈ m := by
    intro m hm
    refine List.exists_mem_of_ne_nil m ?_
    rintro rfl
    rcases ReflTransGen.cases_head hm with heq | ⟨_, hstep, _⟩
    · cases heq
    · exact absurd hstep.1 (Nat.not_lt_zero 1)
  obtain ⟨a, ha⟩ := hne h
  obtain ⟨a', ha'⟩ := hne h'
  rcases climbs_comparable hl hl' hinj h h' with hup | hup
  · rcases exists_hashed_of_climbs hup with heq | hhash
    · exact heq
    · obtain ⟨x, hx, rfl⟩ := hhash a ha
      exact absurd ha (hleaf x (Or.inr hx)).1
  · rcases exists_hashed_of_climbs hup with heq | hhash
    · exact heq.symm
    · obtain ⟨x, hx, rfl⟩ := hhash a' ha'
      exact absurd ha' (hleaf x (Or.inl hx)).2

end MerkleTree
