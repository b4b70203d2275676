import Mathlib.Data.Finset.Basic
import Mathlib.Data.Finset.Lattice.Lemmas
import Mathlib.Data.List.Infix

namespace Beancash

structure MruSet (T : Type) where
  set : Finset T
  queue : List T
  nMaxSize : ℕ

namespace MruSet

variable {T : Type} [DecidableEq T]

def empty (nMaxSizeIn : ℕ) : MruSet T := ⟨∅, [], nMaxSizeIn⟩

/-- The element at the front of the queue is erased from both. -/
def popFront (s : MruSet T) : MruSet T :=
  match s.queue with
  | [] => s
  | x :: queue => { s with set := s.set.erase x, queue := queue }

/-- `insert`, and whether the element is new. -/
def insert (s : MruSet T) (x : T) : Bool × MruSet T :=
  if x ∈ s.set then (false, s)
  else
    let s := { s with set := Insert.insert x s.set }
    let s := if s.nMaxSize ≠ 0 ∧ s.queue.length = s.nMaxSize then s.popFront else s
    (true, { s with queue := s.queue ++ [x] })

/-- The loop of `max_size`. -/
def popLoop (size : ℕ) : List T → Finset T → List T × Finset T
  | [], set => ([], set)
  | x :: queue, set =>
    if size < (x :: queue).length then popLoop size queue (set.erase x) else (x :: queue, set)

def maxSize (s : MruSet T) (size : ℕ) : MruSet T :=
  let r := if size ≠ 0 then popLoop size s.queue s.set else (s.queue, s.set)
  ⟨r.2, r.1, size⟩

end MruSet

/-- A call on a `mruset`. -/
inductive MruCall (T : Type) where
  | insert (x : T)
  | maxSize (size : ℕ)

/-- A `mruset` with its history: the elements in the order in which they were newly inserted, and
for each former maximum size the sum of this size and of how many were newly inserted since. -/
structure MruHistory (T : Type) where
  mru : MruSet T
  inserted : List T
  former : List ℕ

namespace MruHistory

variable {T : Type} [DecidableEq T]

def start (nMaxSize : ℕ) : MruHistory T := ⟨.empty nMaxSize, [], []⟩

def call (h : MruHistory T) : MruCall T → MruHistory T
  | .insert x =>
    match h.mru.insert x with
    | (true, mru) => ⟨mru, h.inserted ++ [x], h.former.map (· + 1)⟩
    | (false, mru) => { h with mru := mru }
  | .maxSize size => ⟨h.mru.maxSize size, h.inserted, h.mru.nMaxSize :: h.former⟩

/-- How many elements are left by all the maximum sizes that there were. -/
def kept (h : MruHistory T) : ℕ := min h.mru.nMaxSize (h.former.foldr min h.inserted.length)

/-- What holds after every call. -/
structure Holds (h : MruHistory T) : Prop where
  pos : 1 ≤ h.mru.nMaxSize
  set : h.mru.set = h.mru.queue.toFinset
  nodup : h.mru.queue.Nodup
  suffix : h.mru.queue <:+ h.inserted
  length : h.mru.queue.length = h.kept

end MruHistory

theorem foldr_min_map_succ (l : List ℕ) (k : ℕ) :
    (l.map (· + 1)).foldr min (k + 1) = l.foldr min k + 1 := by
  induction l with
  | nil => rfl
  | cons a l ih => rw [List.map_cons, List.foldr_cons, List.foldr_cons, ih, Nat.add_min_add_right]

namespace MruSet

variable {T : Type} [DecidableEq T]

theorem popLoop_spec (size : ℕ) {queue : List T} (hnodup : queue.Nodup) :
    ∃ queue', popLoop size queue queue.toFinset = (queue', queue'.toFinset) ∧ queue' <:+ queue ∧
      queue'.length = min size queue.length := by
  induction queue with
  | nil => exact ⟨[], rfl, List.suffix_rfl, (Nat.min_zero size).symm⟩
  | cons x queue ih =>
    obtain ⟨hx, hnodup⟩ := List.nodup_cons.mp hnodup
    rw [popLoop]
    split_ifs with hsize
    · have herase : (x :: queue).toFinset.erase x = queue.toFinset := by
        rw [List.toFinset_cons, Finset.erase_insert (by rwa [List.mem_toFinset])]
      obtain ⟨queue', hloop, hsuffix, hlen⟩ := ih hnodup
      refine ⟨queue', by rw [herase, hloop], hsuffix.trans (List.suffix_cons x queue), ?_⟩
      rw [List.length_cons] at hsize ⊢
      omega
    · exact ⟨x :: queue, rfl, List.suffix_rfl, by omega⟩

end MruSet

namespace MruHistory

variable {T : Type} [DecidableEq T] {h : MruHistory T}

theorem holds_start {nMaxSize : ℕ} (hpos : 1 ≤ nMaxSize) :
    (start nMaxSize : MruHistory T).Holds where
  pos := hpos
  set := rfl
  nodup := List.nodup_nil
  suffix := List.suffix_rfl
  length := (Nat.min_zero nMaxSize).symm

/-- A new element goes to the end, and the first goes if there is no room for it. -/
theorem Holds.insert (hh : h.Holds) (x : T) : (h.call (.insert x)).Holds := by
  obtain ⟨⟨set, queue, nMaxSize⟩, inserted, former⟩ := h
  obtain ⟨hpos, hset, hnodup, hsuffix, hlen⟩ := hh
  dsimp only at hpos hset hnodup hsuffix
  subst hset
  unfold call MruSet.insert
  dsimp only
  by_cases hx : x ∈ queue
  · rw [if_pos (List.mem_toFinset.mpr hx)]
    exact ⟨hpos, rfl, hnodup, hsuffix, hlen⟩
  · rw [if_neg (by rwa [List.mem_toFinset])]
    have hkept : (kept ⟨⟨queue.toFinset, queue, nMaxSize⟩, inserted, former⟩) =
      min nMaxSize (former.foldr min inserted.length) := rfl
    rw [hkept] at hlen
    have hbound : ∀ mru : MruSet T, mru.nMaxSize = nMaxSize →
        kept ⟨mru, inserted ++ [x], former.map (· + 1)⟩ =
          min nMaxSize (former.foldr min inserted.length + 1) := by
      intro mru hmax
      rw [kept, hmax, List.length_append, List.length_singleton, foldr_min_map_succ]
    have hfresh : ∀ q : List T, q <:+ queue → (q ++ [x]).Nodup := by
      intro q hq
      refine List.nodup_append.mpr ⟨hnodup.sublist hq.sublist, List.nodup_singleton x, ?_⟩
      intro a ha b hb hab
      rw [hab, List.mem_singleton.mp hb] at ha
      exact hx (hq.subset ha)
    have hends : ∀ q : List T, q <:+ queue → (q ++ [x]) <:+ inserted ++ [x] := by
      intro q hq
      obtain ⟨front, hfront⟩ := hq.trans hsuffix
      exact ⟨front, by rw [← hfront, List.append_assoc]⟩
    by_cases hfull : nMaxSize ≠ 0 ∧ queue.length = nMaxSize
    · rw [if_pos hfull]
      cases queue with
      | nil => exact absurd hfull.2.symm hfull.1
      | cons y queue =>
        have hy : y ∉ queue := (List.nodup_cons.mp hnodup).1
        have hyx : y ≠ x := fun heq => hx (heq ▸ List.mem_cons_self)
        have hrest : queue <:+ y :: queue := List.suffix_cons y queue
        refine ⟨hpos, ?_, hfresh queue hrest, hends queue hrest, ?_⟩
        · ext a
          simp only [MruSet.popFront, List.mem_toFinset, Finset.mem_erase, Finset.mem_insert,
            List.mem_cons, List.mem_append, List.toFinset_cons]
          constructor
          · rintro ⟨hne, rfl | rfl | ha⟩
            · exact .inr (.inl rfl)
            · exact absurd rfl hne
            · exact .inl ha
          · rintro (ha | rfl | hnil)
            · exact ⟨fun heq => hy (heq ▸ ha), .inr (.inr ha)⟩
            · exact ⟨hyx.symm, .inl rfl⟩
            · cases hnil
        · rw [hbound _ rfl]
          simp only [MruSet.popFront, List.length_append, List.length_cons, List.length_nil]
          have hlen' : queue.length + 1 = nMaxSize := hfull.2
          have hmin : queue.length + 1 = min nMaxSize (former.foldr min inserted.length) := hlen
          omega
    · rw [if_neg hfull]
      have hroom : queue.length ≠ nMaxSize := fun heq => hfull ⟨by omega, heq⟩
      refine ⟨hpos, ?_, hfresh queue List.suffix_rfl, hends queue List.suffix_rfl, ?_⟩
      · rw [List.toFinset_append, List.toFinset_cons, List.toFinset_nil, Finset.union_comm,
          Finset.insert_union, Finset.empty_union]
      · rw [hbound _ rfl, List.length_append, List.length_singleton]
        dsimp only
        have hmin : queue.length = min nMaxSize (former.foldr min inserted.length) := hlen
        omega

theorem Holds.maxSize (hh : h.Holds) {size : ℕ} (hsize : 1 ≤ size) :
    (h.call (.maxSize size)).Holds := by
  obtain ⟨queue', hloop, hsuffix, hlen⟩ := MruSet.popLoop_spec size hh.nodup
  have hmax : h.mru.maxSize size = ⟨queue'.toFinset, queue', size⟩ := by
    rw [MruSet.maxSize, if_pos (by omega), hh.set, hloop]
  rw [call, hmax]
  refine ⟨hsize, rfl, hh.nodup.sublist hsuffix.sublist, hsuffix.trans hh.suffix, ?_⟩
  exact hlen.trans (by rw [hh.length]; rfl)

theorem Holds.run (hh : h.Holds) {calls : List (MruCall T)}
    (hsizes : ∀ size, MruCall.maxSize size ∈ calls → 1 ≤ size) : (calls.foldl call h).Holds := by
  induction calls generalizing h with
  | nil => exact hh
  | cons c calls ih =>
    have hrest := fun size hmem => hsizes size (List.mem_cons_of_mem c hmem)
    cases c with
    | insert x => exact ih (hh.insert x) hrest
    | maxSize size => exact ih (hh.maxSize (hsizes size List.mem_cons_self)) hrest

/-- The maximum size of a call. -/
def sizeOf : MruCall T → Option ℕ
  | .insert _ => none
  | .maxSize size => some size

/-- While the maximum size is not raised, the former ones leave no less than it does. -/
theorem le_former {calls : List (MruCall T)} (hformer : ∀ b ∈ h.former, h.mru.nMaxSize ≤ b)
    (hlower : (h.mru.nMaxSize :: calls.filterMap sizeOf).Pairwise (· ≥ ·)) :
    ∀ b ∈ (calls.foldl call h).former, (calls.foldl call h).mru.nMaxSize ≤ b := by
  induction calls generalizing h with
  | nil => exact hformer
  | cons c calls ih =>
    cases c with
    | insert x =>
      rw [List.filterMap_cons_none rfl] at hlower
      have hcall : (h.call (.insert x)).mru.nMaxSize = h.mru.nMaxSize ∧
          ∀ b ∈ (h.call (.insert x)).former, h.mru.nMaxSize ≤ b := by
        rw [call, MruSet.insert]
        by_cases hx : x ∈ h.mru.set
        · rw [if_pos hx]
          exact ⟨rfl, hformer⟩
        · rw [if_neg hx]
          refine ⟨?_, fun b hb => ?_⟩
          · dsimp only
            split_ifs
            · unfold MruSet.popFront
              cases h.mru.queue <;> rfl
            · rfl
          · obtain ⟨b', hb', rfl⟩ := List.mem_map.mp hb
            exact (hformer b' hb').trans (Nat.le_succ b')
      exact ih (by rw [hcall.1]; exact hcall.2) (by rwa [hcall.1])
    | maxSize size =>
      have hsizeOf : sizeOf (.maxSize size : MruCall T) = some size := rfl
      rw [List.filterMap_cons_some hsizeOf] at hlower
      obtain ⟨hle, hlower⟩ := List.pairwise_cons.mp hlower
      refine ih (fun b hb => ?_) hlower
      have hsize : size ≤ h.mru.nMaxSize := hle size List.mem_cons_self
      rcases List.mem_cons.mp hb with rfl | hb
      · exact hsize
      · exact hsize.trans (hformer b hb)

end MruHistory

theorem foldr_min_eq {l : List ℕ} {n k : ℕ} (h : ∀ b ∈ l, n ≤ b) :
    min n (l.foldr min k) = min n k := by
  induction l with
  | nil => rfl
  | cons b l ih =>
    obtain ⟨hb, hrest⟩ := List.forall_mem_cons.mp h
    have ih := ih hrest
    rw [List.foldr_cons]
    omega

open MruHistory in
/-- After every sequence of calls the set and the queue have the same elements, none of them twice,
and these are the last that were newly inserted: of `k` as many as are left by all the maximum sizes
that there were, which is `min N k` if the maximum size was never raised. -/
theorem mruset_run {T : Type} [DecidableEq T] {nMaxSize : ℕ} (hpos : 1 ≤ nMaxSize)
    (calls : List (MruCall T)) (hsizes : ∀ size, MruCall.maxSize size ∈ calls → 1 ≤ size) :
    let h := calls.foldl call (start nMaxSize)
    h.mru.set = h.mru.queue.toFinset ∧ h.mru.queue.Nodup ∧
      h.mru.queue = h.inserted.drop (h.inserted.length - h.kept) ∧
      ((nMaxSize :: calls.filterMap sizeOf).Pairwise (· ≥ ·) →
        h.kept = min h.mru.nMaxSize h.inserted.length) := by
  intro h
  have hh : h.Holds := (holds_start hpos).run hsizes
  refine ⟨hh.set, hh.nodup, ?_, fun hlower => ?_⟩
  · rw [← hh.length]
    exact List.suffix_iff_eq_drop.mp hh.suffix
  · exact foldr_min_eq (le_former (fun _ hb => absurd hb List.not_mem_nil) hlower)

open MruHistory in
theorem mruset_run_shrunk :
    let h := [.insert 1, .insert 2, .insert 1, .insert 3, .maxSize 2, .insert 1].foldl call
      (start 3 : MruHistory ℕ)
    h.inserted = [1, 2, 3, 1] ∧ h.mru.queue = h.inserted.drop (h.inserted.length - h.kept) ∧
      h.kept = min 2 h.inserted.length := by
  have hrun := mruset_run (show 1 ≤ 3 by decide)
    [.insert 1, .insert 2, .insert 1, .insert 3, .maxSize 2, .insert (1 : ℕ)] (by simp)
  exact ⟨by decide, hrun.2.2.1, hrun.2.2.2 (by decide)⟩

open MruHistory in
/-- With room for two, the first of three elements is dropped, and then the room is raised. -/
theorem mruset_raised :
    let h := [.insert 1, .insert 2, .insert 3, .maxSize 3].foldl call (start 2 : MruHistory ℕ)
    h.mru.nMaxSize = 3 ∧ h.inserted = [1, 2, 3] ∧ h.mru.queue = [2, 3] ∧
      h.mru.queue ≠ h.inserted.drop (h.inserted.length - min h.mru.nMaxSize h.inserted.length) := by
  decide

end Beancash
