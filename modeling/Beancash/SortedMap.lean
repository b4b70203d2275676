import Mathlib.Data.List.Nodup
import Mathlib.Data.List.Perm.Basic
import Mathlib.Data.Option.Basic
import Mathlib.Order.Defs.Unbundled

/-!
# Maps that are sorted by their keys

A map lists its entries in the order of their keys, no key twice. It is determined by what is found
in it (`ext_find`), so that what is found after an operation is all there is to know about the
operation.
-/

structure SortedMap {κ : Type} (r : κ → κ → Prop) (ν : Type) where
  entries : List (κ × ν)
  sorted : entries.Pairwise fun e e' => r e.1 e'.1

namespace SortedMap

variable {κ ν : Type} {r : κ → κ → Prop}

def empty : SortedMap r ν := ⟨[], .nil⟩

section Insert

variable [DecidableRel r]

/-- The entry takes the place of its key among the others. -/
def insertEntry (k : κ) (v : ν) : List (κ × ν) → List (κ × ν)
  | [] => [(k, v)]
  | e :: l =>
    if r k e.1 then (k, v) :: e :: l
    else if r e.1 k then e :: insertEntry k v l
    else (k, v) :: l

theorem mem_insertEntry {k : κ} {v : ν} {l : List (κ × ν)} {e : κ × ν}
    (he : e ∈ insertEntry (r := r) k v l) : e = (k, v) ∨ e ∈ l := by
  induction l with
  | nil => exact .inl (List.mem_singleton.mp he)
  | cons e' l ih =>
    rw [insertEntry] at he
    split_ifs at he with hlt hgt
    · exact List.mem_cons.mp he
    · rcases List.mem_cons.mp he with rfl | he
      · exact .inr List.mem_cons_self
      · exact (ih he).imp_right (List.mem_cons_of_mem e')
    · exact (List.mem_cons.mp he).imp_right (List.mem_cons_of_mem e')

variable [IsStrictTotalOrder κ r]

theorem sorted_insertEntry (k : κ) (v : ν) {l : List (κ × ν)}
    (h : l.Pairwise fun e e' => r e.1 e'.1) :
    (insertEntry (r := r) k v l).Pairwise fun e e' => r e.1 e'.1 := by
  induction l with
  | nil => exact List.pairwise_singleton _ _
  | cons e l ih =>
    obtain ⟨hfirst, hrest⟩ := List.pairwise_cons.mp h
    rw [insertEntry]
    split_ifs with hlt hgt
    · refine List.pairwise_cons.mpr ⟨fun e' he' => ?_, h⟩
      rcases List.mem_cons.mp he' with rfl | he'
      · exact hlt
      · exact trans_of r hlt (hfirst e' he')
    · refine List.pairwise_cons.mpr ⟨fun e' he' => ?_, ih hrest⟩
      rcases mem_insertEntry he' with rfl | he'
      · exact hgt
      · exact hfirst e' he'
    · have hk : k = e.1 := ((trichotomous_of r k e.1).resolve_left hlt).resolve_right hgt
      refine List.pairwise_cons.mpr ⟨fun e' he' => ?_, hrest⟩
      rw [hk]
      exact hfirst e' he'

omit [IsStrictTotalOrder κ r] in
theorem length_insertEntry_le (k : κ) (v : ν) (l : List (κ × ν)) :
    (insertEntry (r := r) k v l).length ≤ l.length + 1 := by
  induction l with
  | nil => exact Nat.le_refl _
  | cons e l ih =>
    rw [insertEntry]
    split_ifs
    · exact Nat.le_refl _
    · exact Nat.succ_le_succ ih
    · exact Nat.le_succ _

/-- The assignment to the value of a key. -/
def insert (m : SortedMap r ν) (k : κ) (v : ν) : SortedMap r ν :=
  ⟨insertEntry k v m.entries, sorted_insertEntry k v m.sorted⟩

omit [IsStrictTotalOrder κ r] in
theorem eq_or_lt_of_find? {l : List (κ × ν)} (h : l.Pairwise fun e e' => r e.1 e'.1) {k : κ}
    {e e' : κ × ν} (hfind : l.find? (fun e => decide (¬r e.1 k)) = some e) (hmem : e' ∈ l)
    (hk : ¬r e'.1 k) : e' = e ∨ r e.1 e'.1 := by
  induction l with
  | nil => cases hmem
  | cons a l ih =>
    obtain ⟨hfirst, hrest⟩ := List.pairwise_cons.mp h
    by_cases ha : r a.1 k
    · rw [List.find?_cons_of_neg (by simpa using ha)] at hfind
      rcases List.mem_cons.mp hmem with rfl | hmem
      · exact absurd ha hk
      · exact ih hrest hfind hmem
    · rw [List.find?_cons_of_pos (by simpa using ha), Option.some.injEq] at hfind
      rw [← hfind]
      exact (List.mem_cons.mp hmem).imp_right (hfirst e')

end Insert

section Find

variable [DecidableEq κ]

def find (m : SortedMap r ν) (k : κ) : Option ν := m.entries.lookup k

def contains (m : SortedMap r ν) (k : κ) : Bool := (m.find k).isSome

def erase (m : SortedMap r ν) (k : κ) : SortedMap r ν :=
  ⟨m.entries.filter fun e => e.1 ≠ k, m.sorted.filter _⟩

variable [DecidableRel r] [IsStrictTotalOrder κ r]

/-- An insertion that leaves an entry of the key as it is. -/
def insertNew (m : SortedMap r ν) (k : κ) (v : ν) : SortedMap r ν :=
  if m.contains k then m else m.insert k v

theorem length_insertNew_le (m : SortedMap r ν) (k : κ) (v : ν) :
    (m.insertNew k v).entries.length ≤ m.entries.length + 1 := by
  rw [insertNew]
  split_ifs
  · exact Nat.le_succ _
  · exact length_insertEntry_le k v m.entries

def insertAll (l : List (κ × ν)) (m : SortedMap r ν) : SortedMap r ν :=
  l.foldl (fun m e => m.insertNew e.1 e.2) m

end Find

section Lookup

variable [DecidableEq κ]

theorem lookup_cons_eq_ite (k : κ) (e : κ × ν) (l : List (κ × ν)) :
    (e :: l).lookup k = if k = e.1 then some e.2 else l.lookup k := by
  rw [List.lookup_cons]
  split
  · rename_i heq
    rw [if_pos (eq_of_beq heq)]
  · rename_i hne
    rw [if_neg (by simpa using hne)]

theorem lookup_filter_ne (k k' : κ) (l : List (κ × ν)) :
    (l.filter fun e => e.1 ≠ k).lookup k' = if k' = k then none else l.lookup k' := by
  induction l with
  | nil => exact (ite_self _).symm
  | cons e l ih =>
    rw [lookup_cons_eq_ite]
    by_cases he : e.1 = k
    · rw [List.filter_cons_of_neg (by simpa using he), ih]
      split_ifs with hk hk' <;> first | rfl | exact absurd (hk'.trans he) hk
    · rw [List.filter_cons_of_pos (by simpa using he), lookup_cons_eq_ite, ih]
      split_ifs with hk hk' <;> first | rfl | exact absurd (hk.symm.trans hk') he

variable [IsStrictTotalOrder κ r]

theorem lookup_eq_some_iff_mem {l : List (κ × ν)} (h : l.Pairwise fun e e' => r e.1 e'.1) {k : κ}
    {v : ν} : l.lookup k = some v ↔ (k, v) ∈ l := by
  induction l with
  | nil => simp
  | cons e l ih =>
    obtain ⟨hfirst, hrest⟩ := List.pairwise_cons.mp h
    rw [lookup_cons_eq_ite, List.mem_cons]
    split_ifs with hk
    · constructor
      · intro hv
        exact .inl (Prod.ext hk (Option.some_injective _ hv).symm)
      · rintro (rfl | hmem)
        · rfl
        · exact absurd (hfirst _ hmem) (by rw [hk]; exact irrefl_of r _)
    · rw [ih hrest]
      exact (or_iff_right fun hv => hk (congrArg Prod.fst hv)).symm

variable [DecidableRel r]

theorem lookup_insertEntry (k k' : κ) (v : ν) {l : List (κ × ν)}
    (h : l.Pairwise fun e e' => r e.1 e'.1) :
    (insertEntry (r := r) k v l).lookup k' = if k' = k then some v else l.lookup k' := by
  induction l with
  | nil => exact lookup_cons_eq_ite k' (k, v) []
  | cons e l ih =>
    rw [insertEntry]
    by_cases hlt : r k e.1
    · rw [if_pos hlt, lookup_cons_eq_ite]
    · rw [if_neg hlt]
      by_cases hgt : r e.1 k
      · rw [if_pos hgt, lookup_cons_eq_ite, lookup_cons_eq_ite, ih (List.pairwise_cons.mp h).2]
        split_ifs with he hk <;> try rfl
        rw [← he, hk] at hgt
        exact absurd hgt (irrefl_of r _)
      · have hke : k = e.1 := ((trichotomous_of r k e.1).resolve_left hlt).resolve_right hgt
        rw [if_neg hgt, lookup_cons_eq_ite, lookup_cons_eq_ite, ← hke]
        split_ifs <;> rfl

end Lookup

variable [DecidableEq κ]

@[simp] theorem find_empty (k : κ) : (empty : SortedMap r ν).find k = none := rfl

@[simp] theorem find_erase (m : SortedMap r ν) (k k' : κ) :
    (m.erase k).find k' = if k' = k then none else m.find k' := lookup_filter_ne k k' m.entries

variable [IsStrictTotalOrder κ r]

theorem find_eq_some_iff {m : SortedMap r ν} {k : κ} {v : ν} :
    m.find k = some v ↔ (k, v) ∈ m.entries := lookup_eq_some_iff_mem m.sorted

theorem ext_find {m m' : SortedMap r ν} (h : ∀ k, m.find k = m'.find k) : m = m' := by
  have hmem : ∀ e : κ × ν, e ∈ m.entries ↔ e ∈ m'.entries := by
    rintro ⟨k, v⟩
    rw [← find_eq_some_iff, ← find_eq_some_iff, h]
  have hnodup : ∀ m : SortedMap r ν, m.entries.Nodup := by
    intro m
    refine m.sorted.imp fun {e e'} hr heq => ?_
    rw [heq] at hr
    exact irrefl_of r _ hr
  have hentries : m.entries = m'.entries := by
    refine ((List.perm_ext_iff_of_nodup (hnodup m) (hnodup m')).mpr hmem).eq_of_pairwise ?_
      m.sorted m'.sorted
    intro e e' _ _ hr hr'
    exact absurd (trans_of r hr hr') (irrefl_of r _)
  cases m
  cases m'
  cases hentries
  rfl

variable [DecidableRel r]

@[simp] theorem find_insert (m : SortedMap r ν) (k k' : κ) (v : ν) :
    (m.insert k v).find k' = if k' = k then some v else m.find k' :=
  lookup_insertEntry k k' v m.sorted

theorem mem_insert_of_new {m : SortedMap r ν} {k : κ} (hnew : ∀ e ∈ m.entries, e.1 ≠ k) (v : ν)
    (e : κ × ν) : e ∈ (m.insert k v).entries ↔ e = (k, v) ∨ e ∈ m.entries := by
  obtain ⟨k', v'⟩ := e
  rw [← find_eq_some_iff, find_insert, Prod.mk.injEq]
  split_ifs with hk
  · rw [Option.some.injEq]
    refine ⟨fun hv => .inl ⟨hk, hv.symm⟩, fun hor => ?_⟩
    exact (hor.resolve_right fun hold => hnew _ hold hk).2.symm
  · rw [find_eq_some_iff]
    exact (or_iff_right fun heq => hk heq.1).symm

theorem find_insertNew (m : SortedMap r ν) (k k' : κ) (v : ν) :
    (m.insertNew k v).find k' = (m.find k').or (if k' = k then some v else none) := by
  unfold insertNew contains
  split_ifs with hfound hk hk
  · obtain ⟨v', hv'⟩ := Option.isSome_iff_exists.mp hfound
    rw [hk, hv', Option.some_or]
  · rw [Option.or_none]
  · rw [find_insert, if_pos hk, hk, Option.not_isSome_iff_eq_none.mp hfound, Option.none_or]
  · rw [find_insert, if_neg hk, Option.or_none]

theorem find_insertAll (l : List (κ × ν)) (m : SortedMap r ν) (k : κ) :
    (m.insertAll l).find k = (m.find k).or (l.lookup k) := by
  induction l generalizing m with
  | nil => exact Option.or_none.symm
  | cons e l ih =>
    change ((m.insertNew e.1 e.2).insertAll l).find k = _
    rw [ih, find_insertNew, lookup_cons_eq_ite, Option.or_assoc]
    split_ifs <;> rfl

theorem insertAll_entries (m : SortedMap r ν) : empty.insertAll m.entries = m := by
  refine ext_find fun k => ?_
  rw [find_insertAll, find_empty, Option.none_or]
  rfl

end SortedMap
