import Mathlib.Data.List.AList
import Mathlib.Data.List.Sort

namespace Beancash

/-- `limitedmap`: an iterator of `map` is the key it points to. -/
structure LimitedMap (K V : Type) where
  map : AList fun _ : K => V
  rmap : List (V × K)
  nMaxSize : ℕ

namespace LimitedMap

/-- The entries of a map under their values. -/
def byValue {K V : Type} (map : AList fun _ : K => V) : List (V × K) :=
  map.entries.map fun e => (e.2, e.1)

variable {K V : Type} [DecidableEq K] [LinearOrder V]

def empty (nMaxSizeIn : ℕ) : LimitedMap K V := ⟨∅, [], nMaxSizeIn⟩

/-- `std::multimap::insert`, behind the entries with the same value. -/
def insertEntry (v : V) (k : K) (rmap : List (V × K)) : List (V × K) :=
  rmap.orderedInsert (fun e e' => e.1 < e'.1) (v, k)

/-- The loop over the equal range of `v`, which has to come to the key. -/
def eraseEntry (v : V) (k : K) (rmap : List (V × K)) : Option (List (V × K)) :=
  if (v, k) ∈ rmap then some (rmap.erase (v, k)) else none

/-- The two containers lose the entry with the lowest value, which has to be there. -/
def evict (s : LimitedMap K V) : Option (LimitedMap K V) :=
  match s.rmap with
  | [] => none
  | (_, k) :: rmap => some { s with map := s.map.erase k, rmap := rmap }

def insert (s : LimitedMap K V) (k : K) (v : V) : Option (LimitedMap K V) :=
  if k ∈ s.map then some s
  else do
    let s := { s with map := s.map.insert k v }
    let s ← if s.nMaxSize ≠ 0 ∧ s.map.entries.length = s.nMaxSize then s.evict else some s
    return { s with rmap := insertEntry v k s.rmap }

def erase (s : LimitedMap K V) (k : K) : Option (LimitedMap K V) :=
  match s.map.lookup k with
  | none => some s
  | some w => do
    let rmap ← eraseEntry w k s.rmap
    return { s with map := s.map.erase k, rmap := rmap }

/-- `update`, by an iterator that points to the key. -/
def update (s : LimitedMap K V) (k : K) (v : V) : Option (LimitedMap K V) :=
  match s.map.lookup k with
  | none => some s
  | some w => do
    let rmap ← eraseEntry w k s.rmap
    return { s with map := s.map.insert k v, rmap := insertEntry v k rmap }

/-- The loop of `max_size`. -/
def evictLoop (size : ℕ) : List (V × K) → (AList fun _ : K => V) →
    Option (List (V × K) × AList fun _ : K => V)
  | [], map => if size < map.entries.length then none else some ([], map)
  | (v, k) :: rmap, map =>
    if size < map.entries.length then evictLoop size rmap (map.erase k)
    else some ((v, k) :: rmap, map)

def maxSize (s : LimitedMap K V) (size : ℕ) : Option (LimitedMap K V) := do
  let r ← if size ≠ 0 then evictLoop size s.rmap s.map else some (s.rmap, s.map)
  return ⟨r.2, r.1, size⟩

/-- `rmap` has the entries of `map`, by value. -/
structure Inverse (s : LimitedMap K V) : Prop where
  perm : s.rmap.Perm (byValue s.map)
  sorted : s.rmap.Pairwise fun e e' => e.1 ≤ e'.1

/-- No more elements than the maximum size, if there is one. -/
def Within (s : LimitedMap K V) : Prop := s.nMaxSize = 0 ∨ s.map.entries.length ≤ s.nMaxSize

end LimitedMap

/-- A call on a `limitedmap`. -/
inductive LimitedCall (K V : Type) where
  | insert (k : K) (v : V)
  | erase (k : K)
  | update (k : K) (v : V)
  | maxSize (size : ℕ)

namespace LimitedMap

variable {K V : Type} [DecidableEq K] [LinearOrder V]

def call (s : LimitedMap K V) : LimitedCall K V → Option (LimitedMap K V)
  | .insert k v => s.insert k v
  | .erase k => s.erase k
  | .update k v => s.update k v
  | .maxSize size => s.maxSize size

/-- What the insertion of a new key removes: nothing while there is room, and one element with the
lowest value of all from a full map. -/
structure Inserts (s : LimitedMap K V) (k : K) (v : V) (s' : LimitedMap K V) : Prop where
  room : s.nMaxSize = 0 ∨ s.map.entries.length < s.nMaxSize →
    s'.map.entries.Perm (⟨k, v⟩ :: s.map.entries)
  full : s.nMaxSize ≠ 0 → s.map.entries.length = s.nMaxSize →
    ∃ e : (_ : K) × V, (∀ e' ∈ (⟨k, v⟩ : (_ : K) × V) :: s.map.entries, e.2 ≤ e'.2) ∧
      (e :: s'.map.entries).Perm (⟨k, v⟩ :: s.map.entries)

/-- What is promised of a call that leads from `s` to `s'`. -/
structure Keeps (s : LimitedMap K V) (c : LimitedCall K V) (s' : LimitedMap K V) : Prop where
  inverse : s'.Inverse
  within : s'.Within
  inserts : ∀ k v, c = .insert k v → k ∉ s.map → s.Inserts k v s'

/-- Every call of the sequence returns and keeps what is promised. -/
def Lawful (s : LimitedMap K V) : List (LimitedCall K V) → Prop
  | [] => True
  | c :: calls => ∃ s', s.call c = some s' ∧ s.Keeps c s' ∧ s'.Lawful calls

/-- A new key comes only to a map that has room for two. -/
def HasRoom (s : LimitedMap K V) : LimitedCall K V → Prop
  | .insert k _ => k ∈ s.map ∨ s.nMaxSize = 0 ∨ s.map.entries.length + 1 < s.nMaxSize
  | _ => True

/-- Every call of the sequence finds this room. -/
def Roomy (s : LimitedMap K V) : List (LimitedCall K V) → Prop
  | [] => True
  | c :: calls => s.HasRoom c ∧ ∀ s' ∈ s.call c, s'.Roomy calls

end LimitedMap

namespace LimitedMap

section Reverse

variable {K V : Type} [LinearOrder V]

theorem perm_insertEntry (v : V) (k : K) (rmap : List (V × K)) :
    (insertEntry v k rmap).Perm ((v, k) :: rmap) :=
  List.perm_orderedInsert _ (v, k) rmap

theorem sorted_insertEntry (v : V) (k : K) {rmap : List (V × K)}
    (h : rmap.Pairwise fun e e' => e.1 ≤ e'.1) :
    (insertEntry v k rmap).Pairwise fun e e' => e.1 ≤ e'.1 := by
  induction rmap with
  | nil => exact List.pairwise_singleton _ _
  | cons e rmap ih =>
    obtain ⟨he, hrest⟩ := List.pairwise_cons.mp h
    rw [insertEntry, List.orderedInsert_cons]
    split_ifs with hv
    · refine List.pairwise_cons.mpr ⟨fun e' he' => ?_, h⟩
      rcases List.mem_cons.mp he' with rfl | he'
      · exact le_of_lt hv
      · exact le_of_lt (lt_of_lt_of_le hv (he e' he'))
    · refine List.pairwise_cons.mpr ⟨fun e' he' => ?_, ih hrest⟩
      rcases (List.mem_orderedInsert _).mp he' with rfl | he'
      · exact not_lt.mp hv
      · exact he e' he'

theorem inverse_empty (nMaxSize : ℕ) : (empty nMaxSize : LimitedMap K V).Inverse where
  perm := List.Perm.refl []
  sorted := List.Pairwise.nil

end Reverse

section Entries

variable {K V : Type} [DecidableEq K] {map : AList fun _ : K => V} {k : K} {v : V}

theorem mem_byValue : (v, k) ∈ byValue map ↔ map.lookup k = some v := by
  rw [byValue, List.mem_map, ← Option.mem_def, AList.mem_lookup_iff]
  constructor
  · rintro ⟨e, he, heq⟩
    rw [Prod.mk.injEq] at heq
    rwa [← heq.1, ← heq.2]
  · exact fun he => ⟨_, he, rfl⟩

theorem perm_erase_of_lookup (h : map.lookup k = some v) :
    map.entries.Perm (⟨k, v⟩ :: (map.erase k).entries) := by
  have hmem : k ∈ map.entries.keys := AList.lookup_isSome.mp (by rw [h]; rfl)
  obtain ⟨w, front, back, -, hsplit, herase⟩ := List.exists_of_kerase hmem
  have hw : map.lookup k = some w := by
    rw [← Option.mem_def, AList.mem_lookup_iff, hsplit]
    exact List.mem_append_right front List.mem_cons_self
  rw [h, Option.some.injEq] at hw
  have hrest : (map.erase k).entries = front ++ back := herase
  rw [hrest, hsplit, hw]
  exact List.perm_middle

theorem byValue_erase (h : map.lookup k = some v) :
    (byValue map).Perm ((v, k) :: byValue (map.erase k)) :=
  (perm_erase_of_lookup h).map _

theorem length_erase (h : map.lookup k = some v) :
    (map.erase k).entries.length + 1 = map.entries.length :=
  (perm_erase_of_lookup h).length_eq.symm

end Entries

section Step

variable {K V : Type} [DecidableEq K] [LinearOrder V] {s : LimitedMap K V}

theorem Inverse.eraseEntry (h : s.Inverse) {k : K} {w : V} (hlookup : s.map.lookup k = some w) :
    ∃ rmap, eraseEntry w k s.rmap = some rmap ∧ rmap.Perm (byValue (s.map.erase k)) ∧
      rmap.Pairwise fun e e' => e.1 ≤ e'.1 := by
  have hmem : (w, k) ∈ s.rmap := h.perm.mem_iff.mpr (mem_byValue.mpr hlookup)
  refine ⟨s.rmap.erase (w, k), if_pos hmem, ?_, h.sorted.sublist List.erase_sublist⟩
  have hperm := ((List.perm_cons_erase hmem).symm.trans h.perm).trans (byValue_erase hlookup)
  exact List.perm_cons (w, k) |>.mp hperm

theorem Inverse.erase (h : s.Inverse) (k : K) :
    ∃ s', s.erase k = some s' ∧ s'.Inverse ∧ s'.nMaxSize = s.nMaxSize ∧
      s'.map.entries.length ≤ s.map.entries.length := by
  rw [LimitedMap.erase]
  cases hlookup : s.map.lookup k with
  | none => exact ⟨s, rfl, h, rfl, le_refl _⟩
  | some w =>
    obtain ⟨rmap, hrmap, hperm, hsorted⟩ := h.eraseEntry hlookup
    refine ⟨⟨s.map.erase k, rmap, s.nMaxSize⟩, by simp only [hrmap]; rfl, ⟨hperm, hsorted⟩, rfl, ?_⟩
    have hlen := length_erase hlookup
    dsimp only
    omega

theorem Inverse.update (h : s.Inverse) (k : K) (v : V) :
    ∃ s', s.update k v = some s' ∧ s'.Inverse ∧ s'.nMaxSize = s.nMaxSize ∧
      s'.map.entries.length ≤ s.map.entries.length := by
  rw [LimitedMap.update]
  cases hlookup : s.map.lookup k with
  | none => exact ⟨s, rfl, h, rfl, le_refl _⟩
  | some w =>
    obtain ⟨rmap, hrmap, hperm, hsorted⟩ := h.eraseEntry hlookup
    refine ⟨⟨s.map.insert k v, insertEntry v k rmap, s.nMaxSize⟩, by simp only [hrmap]; rfl,
      ⟨?_, sorted_insertEntry v k hsorted⟩, rfl, ?_⟩
    · exact (perm_insertEntry v k rmap).trans (hperm.cons (v, k))
    · have hlen := length_erase hlookup
      exact le_of_eq hlen

theorem evictLoop_spec (size : ℕ) {rmap : List (V × K)} {map : AList fun _ : K => V}
    (hperm : rmap.Perm (byValue map)) (hsorted : rmap.Pairwise fun e e' => e.1 ≤ e'.1) :
    ∃ r, evictLoop size rmap map = some r ∧ r.1.Perm (byValue r.2) ∧
      (r.1.Pairwise fun e e' => e.1 ≤ e'.1) ∧ r.2.entries.length ≤ size := by
  induction rmap generalizing map with
  | nil =>
    have hlen : map.entries.length = 0 := by simpa [byValue] using hperm.length_eq.symm
    exact ⟨([], map), if_neg (by omega), hperm, hsorted, by dsimp only; omega⟩
  | cons e rmap ih =>
    obtain ⟨v, k⟩ := e
    rw [evictLoop]
    split_ifs with hsize
    · have hlookup : map.lookup k = some v := mem_byValue.mp (hperm.mem_iff.mp List.mem_cons_self)
      exact ih (List.perm_cons _ |>.mp (hperm.trans (byValue_erase hlookup))) hsorted.of_cons
    · exact ⟨((v, k) :: rmap, map), rfl, hperm, hsorted, not_lt.mp hsize⟩

theorem Inverse.maxSize (h : s.Inverse) (size : ℕ) :
    ∃ s', s.maxSize size = some s' ∧ s'.Inverse ∧ s'.Within := by
  by_cases hsize : size = 0
  · refine ⟨⟨s.map, s.rmap, size⟩, ?_, ⟨h.perm, h.sorted⟩, .inl hsize⟩
    rw [LimitedMap.maxSize, if_neg (not_not.mpr hsize)]
    rfl
  · obtain ⟨r, hr, hperm, hsorted, hlen⟩ := evictLoop_spec size h.perm h.sorted
    refine ⟨⟨r.2, r.1, size⟩, ?_, ⟨hperm, hsorted⟩, .inr hlen⟩
    rw [LimitedMap.maxSize, if_pos hsize, hr]
    rfl

theorem Inverse.insert (h : s.Inverse) {k : K} (hk : k ∉ s.map) (v : V)
    (hmax : s.nMaxSize ≠ 0 → s.map.entries.length + 1 ≠ s.nMaxSize) :
    ∃ s', s.insert k v = some s' ∧ s'.Inverse ∧ s'.nMaxSize = s.nMaxSize ∧
      s'.map.entries = ⟨k, v⟩ :: s.map.entries := by
  have hentries : (s.map.insert k v).entries = ⟨k, v⟩ :: s.map.entries :=
    AList.entries_insert_of_notMem hk
  refine ⟨⟨s.map.insert k v, insertEntry v k s.rmap, s.nMaxSize⟩, ?_, ⟨?_, ?_⟩, rfl, hentries⟩
  · rw [LimitedMap.insert, if_neg hk]
    dsimp only
    rw [if_neg]
    · rfl
    · rw [hentries]
      exact fun hfull => hmax hfull.1 hfull.2
  · refine (perm_insertEntry v k s.rmap).trans ((h.perm.cons (v, k)).trans ?_)
    rw [byValue, byValue, hentries, List.map_cons]
  · exact sorted_insertEntry v k h.sorted

/-- One that does makes the map lose an element, which is missing where there was none. -/
theorem Inverse.insert_last (h : s.Inverse) {k : K} (hk : k ∉ s.map) (v : V)
    (hmax : s.map.entries.length + 1 = s.nMaxSize) {s' : LimitedMap K V}
    (hinsert : s.insert k v = some s') : s'.map.entries.length = s.map.entries.length := by
  have hentries : (s.map.insert k v).entries = ⟨k, v⟩ :: s.map.entries :=
    AList.entries_insert_of_notMem hk
  rw [LimitedMap.insert, if_neg hk] at hinsert
  dsimp only at hinsert
  rw [if_pos ⟨by omega, by rw [hentries]; exact hmax⟩, evict] at hinsert
  cases hrmap : s.rmap with
  | nil =>
    rw [hrmap] at hinsert
    cases hinsert
  | cons e rmap =>
    obtain ⟨w, k'⟩ := e
    rw [hrmap] at hinsert
    cases hinsert
    have hlookup : s.map.lookup k' = some w :=
      mem_byValue.mp (h.perm.mem_iff.mp (by rw [hrmap]; exact List.mem_cons_self))
    have hne : k' ≠ k := by
      rintro rfl
      exact hk (AList.lookup_isSome.mp (by rw [hlookup]; rfl))
    have hlookup' : (s.map.insert k v).lookup k' = some w :=
      (AList.lookup_insert_ne hne).trans hlookup
    have hlen := length_erase hlookup'
    rw [hentries, List.length_cons] at hlen
    exact Nat.succ.inj hlen

theorem Inverse.keeps_iff (h : s.Inverse) (hwithin : s.Within) (c : LimitedCall K V) :
    (∃ s', s.call c = some s' ∧ s.Keeps c s') ↔ s.HasRoom c := by
  cases c with
  | erase k =>
    obtain ⟨s', hs', hinverse, hmax, hlen⟩ := h.erase k
    refine ⟨fun _ => trivial, fun _ => ⟨s', hs', hinverse, ?_, fun _ _ heq => nomatch heq⟩⟩
    rw [Within, hmax]
    exact hwithin.imp id hlen.trans
  | update k v =>
    obtain ⟨s', hs', hinverse, hmax, hlen⟩ := h.update k v
    refine ⟨fun _ => trivial, fun _ => ⟨s', hs', hinverse, ?_, fun _ _ heq => nomatch heq⟩⟩
    rw [Within, hmax]
    exact hwithin.imp id hlen.trans
  | maxSize size =>
    obtain ⟨s', hs', hinverse, hwithin'⟩ := h.maxSize size
    exact ⟨fun _ => trivial, fun _ => ⟨s', hs', hinverse, hwithin', fun _ _ heq => nomatch heq⟩⟩
  | insert k v =>
    by_cases hk : k ∈ s.map
    · refine ⟨fun _ => .inl hk, fun _ => ⟨s, if_pos hk, h, hwithin, ?_⟩⟩
      intro k' v' heq hk'
      cases heq
      exact absurd hk hk'
    · constructor
      · rintro ⟨s', hs', hkeeps⟩
        have hinserts := hkeeps.inserts k v rfl hk
        by_contra hroom
        rw [HasRoom, not_or, not_or, not_lt] at hroom
        have hle := hwithin.resolve_left hroom.2.1
        rcases Nat.lt_or_eq_of_le hle with hlt | heq
        · -- the map comes to its maximum size and loses an element although it had room
          have hlast := h.insert_last hk v (by omega) hs'
          have hall := (hinserts.room (.inr hlt)).length_eq
          rw [List.length_cons] at hall
          omega
        · -- the map is full and takes one more
          obtain ⟨s'', hs'', -, hmax, hentries⟩ := h.insert hk v (by omega)
          obtain rfl : s' = s'' := Option.some.inj (hs'.symm.trans hs'')
          have hover := hkeeps.within.resolve_left (by rw [hmax]; exact hroom.2.1)
          rw [hentries, hmax, List.length_cons] at hover
          omega
      · intro hroom
        have hroom : s.nMaxSize = 0 ∨ s.map.entries.length + 1 < s.nMaxSize :=
          Or.resolve_left hroom hk
        obtain ⟨s', hs', hinverse, hmax, hentries⟩ := h.insert hk v (by omega)
        refine ⟨s', hs', hinverse, ?_, ?_⟩
        · rw [Within, hmax, hentries, List.length_cons]
          omega
        · intro k' v' heq _
          cases heq
          exact ⟨fun _ => by rw [hentries], fun hne hfull => absurd hfull (by omega)⟩

end Step

theorem Inverse.lawful_iff {K V : Type} [DecidableEq K] [LinearOrder V] {s : LimitedMap K V}
    (h : s.Inverse) (hwithin : s.Within) (calls : List (LimitedCall K V)) :
    s.Lawful calls ↔ s.Roomy calls := by
  induction calls generalizing s with
  | nil => exact Iff.rfl
  | cons c calls ih =>
    constructor
    · rintro ⟨s', hs', hkeeps, hrest⟩
      refine ⟨(h.keeps_iff hwithin c).mp ⟨s', hs', hkeeps⟩, fun s'' hs'' => ?_⟩
      obtain rfl : s' = s'' := Option.some.inj (hs'.symm.trans hs'')
      exact (ih hkeeps.inverse hkeeps.within).mp hrest
    · rintro ⟨hroom, hrest⟩
      obtain ⟨s', hs', hkeeps⟩ := (h.keeps_iff hwithin c).mpr hroom
      exact ⟨s', hs', hkeeps, (ih hkeeps.inverse hkeeps.within).mpr (hrest s' hs')⟩

/-- From an empty map of any maximum size, every call returns and keeps what is promised if and
only if every new key comes to a map that has room for two. -/
theorem limitedmap_run {K V : Type} [DecidableEq K] [LinearOrder V] (nMaxSize : ℕ)
    (calls : List (LimitedCall K V)) :
    (empty nMaxSize : LimitedMap K V).Lawful calls ↔ (empty nMaxSize).Roomy calls :=
  (inverse_empty nMaxSize).lawful_iff (.inr (Nat.zero_le nMaxSize)) calls

end LimitedMap

open LimitedMap in
/-- With room for two, the second of two elements takes the place of the first. -/
theorem limitedmap_evicts :
    ∃ s s' : LimitedMap ℕ ℕ, (empty 2).call (.insert 1 10) = some s ∧
      s.call (.insert 2 20) = some s' ∧ s.map.entries.length = 1 ∧ s'.map.entries = [⟨2, 20⟩] ∧
      ¬(empty 2 : LimitedMap ℕ ℕ).Lawful [.insert 1 10, .insert 2 20] := by
  refine ⟨_, _, rfl, rfl, rfl, rfl, ?_⟩
  rintro ⟨s, hs, -, s', hs', hkeeps, -⟩
  cases hs
  cases hs'
  have hall := ((hkeeps.inserts 2 20 rfl (by decide)).room (.inr (by decide))).length_eq
  exact absurd hall (by decide)

end Beancash
