import Mathlib.Data.Finset.Card
import Mathlib.Data.List.Nodup
import Mathlib.Data.List.Perm.Basic

/-!
# Entries in buckets

An entry is either in some shared buckets, and counts in how many, or it is in the one bucket that has
it for its own. The buckets of both kinds are limited in size, and so is the count.
-/

namespace BucketTable

section Lists

variable {α : Type*} {lists : List (List α)} {l l' : List α} {b : ℕ} {a : α}

theorem mem_set {p : α → Prop} (h : ∀ x ∈ l, p x) (ha : p a) (b : ℕ) :
    ∀ x ∈ l.set b a, p x := by
  intro x hx
  rcases List.mem_or_eq_of_mem_set hx with hmem | rfl
  · exact h x hmem
  · exact ha

theorem length_flatten_le {n : ℕ} (h : ∀ l ∈ lists, l.length ≤ n) :
    lists.flatten.length ≤ lists.length * n := by
  induction lists with
  | nil => exact Nat.zero_le _
  | cons l lists ih =>
    obtain ⟨hl, htail⟩ := List.forall_mem_cons.mp h
    rw [List.flatten_cons, List.length_append, List.length_cons, Nat.succ_mul, Nat.add_comm]
    exact Nat.add_le_add (ih htail) hl

theorem exists_rest (hb : lists[b]? = some l) :
    ∃ rest, lists.flatten.Perm (l ++ rest) ∧ ∀ l', (lists.set b l').flatten.Perm (l' ++ rest) := by
  induction lists generalizing b with
  | nil => cases hb
  | cons x lists ih =>
    cases b with
    | zero =>
      obtain rfl := Option.some.inj hb
      exact ⟨lists.flatten, List.Perm.refl _, fun l' => List.Perm.refl _⟩
    | succ b =>
      obtain ⟨rest, hperm, hset⟩ := ih hb
      exact ⟨x ++ rest, (hperm.append_left x).trans (List.perm_append_comm_assoc x l rest),
        fun l' => ((hset l').append_left x).trans (List.perm_append_comm_assoc x l' rest)⟩

theorem cons_set_perm {i : ℕ} (hi : l[i]? = some a) (c : α) :
    (a :: l.set i c).Perm (c :: l) := by
  induction l generalizing i with
  | nil => cases hi
  | cons x l ih =>
    cases i with
    | zero =>
      obtain rfl := Option.some.inj hi
      exact List.Perm.swap _ _ _
    | succ i =>
      exact (List.Perm.swap _ _ _).trans (((ih hi).cons x).trans (List.Perm.swap _ _ _))

theorem flatten_set_concat (hb : lists[b]? = some l) (c : α) :
    (lists.set b (l ++ [c])).flatten.Perm (c :: lists.flatten) := by
  obtain ⟨rest, hperm, hset⟩ := exists_rest hb
  have hmiddle : (l ++ [c] ++ rest).Perm (c :: (l ++ rest)) := by
    rw [List.append_assoc]
    exact List.perm_middle
  exact (hset _).trans (hmiddle.trans (hperm.symm.cons c))

theorem flatten_set_exchange (hb : lists[b]? = some l) (hperm : l'.Perm l) {i : ℕ}
    (hi : l'[i]? = some a) (c : α) :
    (a :: (lists.set b (l'.set i c)).flatten).Perm (c :: lists.flatten) := by
  obtain ⟨rest, hrest, hset⟩ := exists_rest hb
  have hexchange : (a :: (l'.set i c ++ rest)).Perm (c :: (l' ++ rest)) :=
    (cons_set_perm hi c).append_right rest
  exact ((hset _).cons a).trans
    (hexchange.trans (((hperm.append_right rest).trans hrest.symm).cons c))

end Lists

/-- What an entry knows of itself. -/
structure Entry where
  own : Bool
  refs : ℤ

/-- How many entries a bucket of each kind may have, and in how many shared ones an entry may be. -/
structure Limits where
  shared : ℕ
  own : ℕ
  refs : ℕ

variable {κ : Type*} [DecidableEq κ]

/-- In how many shared buckets an entry is. One may be counted that is yet to be put into a bucket. -/
def refCount (shared : List (Finset κ)) (pending : Option κ) (k : κ) : ℕ :=
  shared.countP (k ∈ ·) + if pending = some k then 1 else 0

/-- What an entry says that is in `n` shared buckets. -/
structure Counted (L : Limits) (e : Option Entry) (n : ℕ) : Prop where
  refs : ∀ r, e = some ⟨false, r⟩ → r = n ∧ 1 ≤ n ∧ n ≤ L.refs
  zero : (∀ r, e ≠ some ⟨false, r⟩) → n = 0

theorem Counted.le {L : Limits} {e : Option Entry} {n : ℕ} (h : Counted L e n) : n ≤ L.refs := by
  by_cases hex : ∃ r, e = some ⟨false, r⟩
  · obtain ⟨r, hr⟩ := hex
    exact (h.refs r hr).2.2
  · rw [h.zero fun r hr => hex ⟨r, hr⟩]
    exact Nat.zero_le _

structure SharedBuckets (L : Limits) (entry : κ → Option Entry) (shared : List (Finset κ))
    (pending : Option κ) : Prop where
  size : ∀ c ∈ shared, c.card ≤ L.shared
  counted : ∀ k, Counted L (entry k) (refCount shared pending k)

structure OwnBuckets (L : Limits) (entry : κ → Option Entry) (own : List (List κ)) : Prop where
  size : ∀ l ∈ own, l.length ≤ L.own
  mem : ∀ k, k ∈ own.flatten ↔ ∃ r, entry k = some ⟨true, r⟩
  nodup : own.flatten.Nodup
  refs : ∀ k r, entry k = some ⟨true, r⟩ → r = 0

variable {L : Limits} {entry : κ → Option Entry} {shared : List (Finset κ)} {own : List (List κ)}
  {pending : Option κ} {k k' : κ} {b : ℕ} {c c' : Finset κ} {l l' : List κ} {r : ℤ}

theorem refCount_set (hb : shared[b]? = some c) (c' : Finset κ) (pending : Option κ) (k : κ) :
    refCount (shared.set b c') pending k + (if k ∈ c then 1 else 0) =
      refCount shared pending k + if k ∈ c' then 1 else 0 := by
  obtain ⟨hlt, rfl⟩ := List.getElem?_eq_some_iff.mp hb
  have hle : (if k ∈ shared[b] then 1 else 0) ≤ shared.countP (k ∈ ·) := by
    split_ifs with hk
    · exact List.countP_pos_iff.mpr ⟨_, List.getElem_mem hlt, decide_eq_true hk⟩
    · exact Nat.zero_le _
  have hset := List.countP_set (p := fun x => decide (k ∈ x)) (a := c') hlt
  simp only [decide_eq_true_eq] at hset
  rw [refCount, refCount, hset]
  omega

theorem refCount_pos (h : c ∈ shared) (hk : k ∈ c) : 0 < refCount shared pending k := by
  have hpos : 0 < shared.countP (k ∈ ·) := List.countP_pos_iff.mpr ⟨c, h, decide_eq_true hk⟩
  exact Nat.add_pos_left hpos _

theorem refCount_some_of_ne (h : k' ≠ k) : refCount shared (some k) k' = refCount shared none k' := by
  rw [refCount, refCount, if_neg (mt Option.some.inj h.symm), if_neg (by simp)]

theorem refCount_some_self : refCount shared (some k) k = refCount shared none k + 1 := by
  rw [refCount, refCount, if_pos rfl, if_neg (by simp)]

theorem refCount_map_erase (k k' : κ) : refCount (shared.map (·.erase k)) none k' =
    if k' = k then 0 else refCount shared none k' := by
  rw [refCount, refCount, List.countP_map, if_neg (by simp), Nat.add_zero, Nat.add_zero]
  split_ifs with heq
  · rw [List.countP_eq_zero]
    intro c _
    simp [heq]
  · apply List.countP_congr
    intro c _
    simp [heq]

namespace SharedBuckets

theorem empty (L : Limits) (n : ℕ) :
    SharedBuckets L (fun _ : κ => none) (List.replicate n ∅) none where
  size c hc := by
    rw [List.eq_of_mem_replicate hc, Finset.card_empty]
    exact Nat.zero_le _
  counted k := by
    refine ⟨fun r hr => (by cases hr), fun _ => ?_⟩
    rw [refCount, if_neg (by simp), Nat.add_zero, List.countP_eq_zero]
    intro c hc
    rw [List.eq_of_mem_replicate hc]
    simp

theorem exists_of_mem (h : SharedBuckets L entry shared pending) (hc : c ∈ shared) (hk : k ∈ c) :
    ∃ r, entry k = some ⟨false, r⟩ := by
  by_contra hnot
  have hzero := (h.counted k).zero fun r hr => hnot ⟨r, hr⟩
  exact absurd hzero (refCount_pos hc hk).ne'

theorem update (h : SharedBuckets L entry shared pending) {e : Option Entry}
    {shared' : List (Finset κ)} {pending' : Option κ} (hsize : ∀ c ∈ shared', c.card ≤ L.shared)
    (hother : ∀ k' ≠ k, refCount shared' pending' k' = refCount shared pending k')
    (hk : Counted L e (refCount shared' pending' k)) :
    SharedBuckets L (Function.update entry k e) shared' pending' where
  size := hsize
  counted k' := by
    by_cases heq : k' = k
    · rw [heq, Function.update_self]
      exact hk
    · rw [Function.update_of_ne heq, hother k' heq]
      exact h.counted k'

theorem put (h : SharedBuckets L entry shared (some k)) (hb : shared[b]? = some c) (hk : k ∉ c)
    (hlt : c.card < L.shared) : SharedBuckets L entry (shared.set b (insert k c)) none where
  size := by
    refine mem_set h.size ?_ b
    rw [Finset.card_insert_of_notMem hk]
    exact hlt
  counted k' := by
    have hcount : refCount (shared.set b (insert k c)) none k' = refCount shared (some k) k' := by
      have hset := refCount_set hb (insert k c) none k'
      by_cases heq : k' = k
      · rw [heq, refCount_some_self]
        rw [heq, if_neg hk, if_pos (Finset.mem_insert_self k c)] at hset
        exact hset
      · rw [refCount_some_of_ne heq]
        simp only [Finset.mem_insert, heq, false_or] at hset
        exact Nat.add_right_cancel hset
    rw [hcount]
    exact h.counted k'

theorem refCount_erase (hb : shared[b]? = some c) (hk : k ∈ c) (pending : Option κ) (k' : κ) :
    refCount (shared.set b (c.erase k)) pending k' + (if k' = k then 1 else 0) =
      refCount shared pending k' := by
  have hset := refCount_set hb (c.erase k) pending k'
  by_cases heq : k' = k
  · rw [heq, if_pos hk, if_neg (Finset.notMem_erase k c)] at hset
    rw [heq, if_pos rfl]
    exact hset
  · simp only [Finset.mem_erase, ne_eq, heq, not_false_eq_true, true_and] at hset
    rw [if_neg heq]
    exact Nat.add_right_cancel hset

theorem take (h : SharedBuckets L entry shared pending) (hb : shared[b]? = some c) (hk : k ∈ c)
    (hr : entry k = some ⟨false, r⟩) :
    SharedBuckets L (Function.update entry k (if r - 1 = 0 then none else some ⟨false, r - 1⟩))
      (shared.set b (c.erase k)) pending := by
  obtain ⟨hrefs, -, hle⟩ := (h.counted k).refs r hr
  have hone := refCount_erase hb hk pending k
  rw [if_pos rfl] at hone
  refine h.update (mem_set h.size ?_ b) (fun k' hne => ?_) ⟨fun r' hr' => ?_, fun hnone => ?_⟩
  · exact (Finset.card_erase_le).trans (h.size c (List.mem_of_getElem? hb))
  · have hset := refCount_erase hb hk pending k'
    rwa [if_neg hne] at hset
  · split_ifs at hr' with hzero
    obtain rfl := (Entry.mk.inj (Option.some.inj hr')).2
    omega
  · by_contra hne
    have hzero : r - 1 ≠ 0 := by omega
    rw [if_neg hzero] at hnone
    exact hnone _ rfl

theorem ask (h : SharedBuckets L entry shared none) (hr : entry k = some ⟨false, r⟩)
    (hlt : r < L.refs) :
    SharedBuckets L (Function.update entry k (some ⟨false, r + 1⟩)) shared (some k) := by
  obtain ⟨hrefs, -, -⟩ := (h.counted k).refs r hr
  refine h.update h.size (fun k' hne => refCount_some_of_ne hne) ⟨fun r' hr' => ?_, fun hnone => ?_⟩
  · obtain rfl := (Entry.mk.inj (Option.some.inj hr')).2
    rw [refCount_some_self]
    omega
  · exact absurd rfl (hnone (r + 1))

theorem new (h : SharedBuckets L entry shared none) (hk : ∀ r, entry k ≠ some ⟨false, r⟩)
    (hrefs : 1 ≤ L.refs) :
    SharedBuckets L (Function.update entry k (some ⟨false, 1⟩)) shared (some k) := by
  have hzero := (h.counted k).zero hk
  refine h.update h.size (fun k' hne => refCount_some_of_ne hne) ⟨fun r' hr' => ?_, fun hnone => ?_⟩
  · obtain rfl := (Entry.mk.inj (Option.some.inj hr')).2
    rw [refCount_some_self, hzero]
    exact ⟨rfl, le_rfl, hrefs⟩
  · exact absurd rfl (hnone 1)

theorem clear (h : SharedBuckets L entry shared none) (k : κ) (r : ℤ) :
    SharedBuckets L (Function.update entry k (some ⟨true, r⟩)) (shared.map (·.erase k)) none := by
  refine h.update (fun c hc => ?_) (fun k' hne => ?_) ⟨fun r' hr' => ?_, fun _ => ?_⟩
  · obtain ⟨c', hc', rfl⟩ := List.mem_map.mp hc
    exact (Finset.card_erase_le).trans (h.size c' hc')
  · rw [refCount_map_erase, if_neg hne]
  · cases (Entry.mk.inj (Option.some.inj hr')).1
  · rw [refCount_map_erase, if_pos rfl]

end SharedBuckets

namespace OwnBuckets

omit [DecidableEq κ]

theorem empty (L : Limits) (n : ℕ) : OwnBuckets L (fun _ : κ => none) (List.replicate n []) where
  size l hl := by
    rw [List.eq_of_mem_replicate hl]
    exact Nat.zero_le _
  mem k := by simp
  nodup := by simp
  refs k r hr := by cases hr

theorem not_mem (h : OwnBuckets L entry own) (hk : ∀ r, entry k ≠ some ⟨true, r⟩) :
    k ∉ own.flatten := fun hmem => by
  obtain ⟨r, hr⟩ := (h.mem k).mp hmem
  exact hk r hr

variable [DecidableEq κ]

theorem update (h : OwnBuckets L entry own) {e : Option Entry}
    (hk : ∀ r, entry k ≠ some ⟨true, r⟩) (he : ∀ r, e ≠ some ⟨true, r⟩) :
    OwnBuckets L (Function.update entry k e) own where
  size := h.size
  nodup := h.nodup
  mem k' := by
    by_cases heq : k' = k
    · rw [heq, Function.update_self]
      refine iff_of_false (h.not_mem hk) ?_
      rintro ⟨r, hr⟩
      exact he r hr
    · rw [Function.update_of_ne heq]
      exact h.mem k'
  refs k' r hr := by
    by_cases heq : k' = k
    · rw [heq, Function.update_self] at hr
      exact absurd hr (he r)
    · rw [Function.update_of_ne heq] at hr
      exact h.refs k' r hr

theorem mem_update (h : OwnBuckets L entry own) {F : List κ} (hF : F.Perm (k :: own.flatten))
    (k' : κ) :
    k' ∈ F ↔ ∃ r, Function.update entry k (some ⟨true, 0⟩) k' = some ⟨true, r⟩ := by
  rw [hF.mem_iff, List.mem_cons]
  by_cases heq : k' = k
  · rw [heq, Function.update_self]
    exact iff_of_true (.inl rfl) ⟨0, rfl⟩
  · rw [Function.update_of_ne heq, or_iff_right heq]
    exact h.mem k'

theorem refs_update (h : OwnBuckets L entry own) (k k' : κ) (r : ℤ)
    (hr : Function.update entry k (some ⟨true, 0⟩) k' = some ⟨true, r⟩) : r = 0 := by
  by_cases heq : k' = k
  · rw [heq, Function.update_self] at hr
    exact (Entry.mk.inj (Option.some.inj hr)).2.symm
  · rw [Function.update_of_ne heq] at hr
    exact h.refs k' r hr

theorem keep (h : OwnBuckets L entry own) (hk : ∀ r, entry k ≠ some ⟨true, r⟩)
    (hb : own[b]? = some l) (hlt : l.length < L.own) :
    OwnBuckets L (Function.update entry k (some ⟨true, 0⟩)) (own.set b (l ++ [k])) where
  size := by
    refine mem_set h.size ?_ b
    rw [List.length_append, List.length_singleton]
    exact hlt
  mem := h.mem_update (flatten_set_concat hb k)
  nodup := (flatten_set_concat hb k).nodup_iff.mpr (List.nodup_cons.mpr ⟨h.not_mem hk, h.nodup⟩)
  refs := h.refs_update k

theorem exchange (h : OwnBuckets L entry own) (hk : ∀ r, entry k ≠ some ⟨true, r⟩)
    (hb : own[b]? = some l) (hperm : l'.Perm l) {i : ℕ} (hi : l'[i]? = some k') :
    OwnBuckets L (Function.update (Function.update entry k' (some ⟨false, 1⟩)) k (some ⟨true, 0⟩))
      (own.set b (l'.set i k)) := by
  have hflat := flatten_set_exchange hb hperm hi k
  have hnodup := hflat.nodup_iff.mpr (List.nodup_cons.mpr ⟨h.not_mem hk, h.nodup⟩)
  obtain ⟨hk', hnodup⟩ := List.nodup_cons.mp hnodup
  have hne : k' ≠ k := by
    rintro rfl
    have hmem : k' ∈ own.flatten :=
      List.mem_flatten.mpr ⟨l, List.mem_of_getElem? hb, hperm.subset (List.mem_of_getElem? hi)⟩
    exact h.not_mem hk hmem
  refine ⟨mem_set h.size ?_ b, fun j => ?_, hnodup, fun j r hr => ?_⟩
  · rw [List.length_set, hperm.length_eq]
    exact h.size l (List.mem_of_getElem? hb)
  · have hmem : j ∈ k' :: (own.set b (l'.set i k)).flatten ↔ j ∈ k :: own.flatten := hflat.mem_iff
    rw [List.mem_cons, List.mem_cons] at hmem
    by_cases hj : j = k'
    · rw [hj, Function.update_of_ne hne, Function.update_self]
      refine iff_of_false hk' ?_
      rintro ⟨r, ⟨⟩⟩
    · rw [or_iff_right hj] at hmem
      rw [hmem]
      by_cases hjk : j = k
      · rw [hjk, Function.update_self]
        exact iff_of_true (.inl rfl) ⟨0, rfl⟩
      · rw [Function.update_of_ne hjk, Function.update_of_ne hj, or_iff_right hjk]
        exact h.mem j
  · by_cases hjk : j = k
    · rw [hjk, Function.update_self] at hr
      exact (Entry.mk.inj (Option.some.inj hr)).2.symm
    · rw [Function.update_of_ne hjk] at hr
      by_cases hj : j = k'
      · rw [hj, Function.update_self] at hr
        cases hr
      · rw [Function.update_of_ne hj] at hr
        exact h.refs j r hr

end OwnBuckets

end BucketTable
