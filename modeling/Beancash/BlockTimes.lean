import Beancash.TreeGrowth

namespace Beancash

theorem le_median {a : ℤ} {l : List ℤ} (h : l.length < 2 * l.countP fun t => decide (a ≤ t)) :
    a ≤ (l.insertionSort (· ≤ ·)).getD ((l.insertionSort (· ≤ ·)).length / 2) 0 := by
  have hperm := l.perm_insertionSort (· ≤ ·)
  have hsorted : (l.insertionSort (· ≤ ·)).Pairwise (· ≤ ·) := l.pairwise_insertionSort (· ≤ ·)
  have hlen := hperm.length_eq
  rw [← hperm.countP_eq] at h
  generalize l.insertionSort (· ≤ ·) = s at h hlen hsorted
  rw [← hlen] at h
  have hpos : 0 < s.length := by
    have hle := s.countP_le_length (p := fun t => decide (a ≤ t))
    omega
  have hmid : s.length / 2 < s.length := by omega
  rw [List.getD_eq_getElem?_getD, List.getElem?_eq_getElem hmid, Option.getD_some]
  by_contra hlt
  -- then all the elements up to the middle are smaller
  have hsmall : (s.take (s.length / 2 + 1)).countP (fun t => decide (a ≤ t)) = 0 := by
    rw [List.countP_eq_zero]
    intro t ht hle
    obtain ⟨i, hi, rfl⟩ := List.mem_take_iff_getElem.mp ht
    have hi' : i < s.length := by omega
    have hle' : s[i] ≤ s[s.length / 2] := by
      rcases Nat.lt_or_ge i (s.length / 2) with him | him
      · exact List.pairwise_iff_getElem.mp hsorted i _ hi' hmid him
      · have heq : i = s.length / 2 := by omega
        simp [heq]
    exact hlt ((of_decide_eq_true hle).trans hle')
  have hsplit := @List.countP_append _ (fun t => decide (a ≤ t)) (s.take (s.length / 2 + 1))
    (s.drop (s.length / 2 + 1))
  rw [List.take_append_drop, hsmall] at hsplit
  have hle := (s.drop (s.length / 2 + 1)).countP_le_length (p := fun t => decide (a ≤ t))
  rw [List.length_drop] at hle
  omega

/-- Every block of a chain passed the check of its timestamp. -/
def TimesAccepted : BlockPtr → Prop
  | e :: d :: p =>
    (BlockPtr.getPastTimeLimit (d :: p) < e.blockTime ∧ d.blockTime ≤ futureDrift e.blockTime) ∧
      TimesAccepted (d :: p)
  | _ => True

theorem TimesAccepted.of_cons {e : BlockIndex} {p : BlockPtr} (h : TimesAccepted (e :: p)) :
    TimesAccepted p := by
  cases p with
  | nil => trivial
  | cons d p => exact h.2

theorem TimesAccepted.of_suffix {p q : BlockPtr} (h : TimesAccepted p) (hq : q <:+ p) :
    TimesAccepted q := by
  induction p with
  | nil =>
    rw [List.suffix_nil.mp hq]
    trivial
  | cons e p ih =>
    rcases List.suffix_cons_iff.mp hq with rfl | hq
    · exact h
    · exact ih h.of_cons hq

theorem TimesAccepted.getElem_le {p : BlockPtr} (h : TimesAccepted p) {k : ℕ}
    (hk : k < p.length) :
    p[k].blockTime ≤ (p.get ⟨0, Nat.zero_lt_of_lt hk⟩).blockTime + 600 * min k 5 := by
  induction k using Nat.strong_induction_on generalizing p with
  | _ k ih =>
    match p, h, hk with
    | [e], _, hk =>
      obtain rfl : k = 0 := by simpa using hk
      simp
    | e :: d :: p, h, hk =>
      rcases Nat.lt_or_ge k 6 with hk6 | hk6
      · cases k with
        | zero => simp
        | succ k =>
          have hprev := ih k (Nat.lt_succ_self k) h.of_cons (Nat.lt_of_succ_lt_succ hk)
          have hdrift := h.1.2
          simp only [futureDrift] at hdrift
          simp only [List.get_eq_getElem, List.getElem_cons_succ, List.getElem_cons_zero] at hprev ⊢
          omega
      · -- six of the blocks that the median is taken of are above the old one
        have hlen : k ≤ (d :: p).length := Nat.le_of_lt_succ hk
        have hyoung : ∀ j, (hj : j < 6) → ((e :: d :: p)[k]).blockTime - 3000 ≤
            ((d :: p).get ⟨j, by omega⟩).blockTime := by
          intro j hj
          have hbelow := ih (k - (j + 1)) (by omega) (h.of_suffix (List.drop_suffix (j + 1) _))
            (by rw [List.length_drop]; omega)
          simp only [List.getElem_drop, show j + 1 + (k - (j + 1)) = k by omega, Nat.add_zero,
            List.getElem_cons_succ, List.get_eq_getElem] at hbelow
          simp only [List.get_eq_getElem]
          omega
        have hmedian : ((e :: d :: p)[k]).blockTime - 3000 ≤
            BlockPtr.getPastTimeLimit (d :: p) := by
          apply le_median
          have hsix : (((d :: p).take 11).map BlockIndex.blockTime).take 6 =
              ((d :: p).take 6).map BlockIndex.blockTime := by
            rw [← List.map_take, List.take_take]
            rfl
          have hcount : (((d :: p).take 6).map BlockIndex.blockTime).countP
              (fun t => decide (((e :: d :: p)[k]).blockTime - 3000 ≤ t)) = 6 := by
            rw [List.countP_eq_length.mpr, List.length_map, List.length_take]
            · omega
            · intro t ht
              obtain ⟨c, hc, rfl⟩ := List.mem_map.mp ht
              obtain ⟨j, hj, rfl⟩ := List.mem_take_iff_getElem.mp hc
              exact decide_eq_true (hyoung j (by omega))
          have hsub := (List.take_sublist 6 (((d :: p).take 11).map BlockIndex.blockTime)).countP_le
            (p := fun t => decide (((e :: d :: p)[k]).blockTime - 3000 ≤ t))
          rw [hsix, hcount] at hsub
          rw [List.length_map, List.length_take]
          omega
        have hlimit := h.1.1
        simp only [List.get_eq_getElem, List.getElem_cons_zero]
        omega

theorem TimesAccepted.blockTime_le_of_mem {e : BlockIndex} {p : BlockPtr}
    (h : TimesAccepted (e :: p)) {d : BlockIndex} (hd : d ∈ p) :
    d.blockTime ≤ e.blockTime + 3000 := by
  obtain ⟨k, hk, rfl⟩ := List.mem_iff_getElem.mp (List.mem_cons_of_mem e hd)
  have hle := h.getElem_le hk
  simp only [List.get_eq_getElem, List.getElem_cons_zero] at hle
  omega

theorem acceptBlockChecks_times {P : Params} {mode : CheckpointsMode} {io : BlockIo}
    {s : IndexedNode} {b : Block} {hashProof : Uint256}
    (h : acceptBlockChecks P mode io s b = some hashProof) {pindexPrev : BlockPtr}
    (hprev : s.mapBlockIndex b.header.hashPrevBlock = some pindexPrev) :
    BlockPtr.getPastTimeLimit pindexPrev < b.blockTime ∧
      BlockPtr.blockTime pindexPrev ≤ futureDrift b.blockTime := by
  simp only [acceptBlockChecks, Option.bind_eq_bind, Option.bind_eq_some_iff,
    Option.guard_eq_some', Option.pure_def] at h
  obtain ⟨_, _, _, _, pindexPrev', hprev', _, _, _, _, _, htime, _⟩ := h
  rw [hprev] at hprev'
  obtain rfl := Option.some_injective _ hprev'
  simpa using htime

/-- Storing a block keeps it so that the timestamps of all chains of the index were checked. -/
theorem timesAccepted_storeBlock {P : Params} {H : SelectionHash} {mode : CheckpointsMode}
    {io : AcceptIo} {b : Block} {s s' : IndexedNode} {r : Option Unit}
    (hs : ∀ hash p, s.mapBlockIndex hash = some p → TimesAccepted p)
    (h : (storeBlock P H mode io b).run s = (r, s')) :
    ∀ hash p, s'.mapBlockIndex hash = some p → TimesAccepted p := by
  rcases storeBlock_cases h with ⟨_, rfl⟩ | ⟨hashProof, nFile, nBlockPos, hcheck, _, hadd⟩
  · exact hs
  · rcases addToBlockIndex_cases hadd with ⟨_, rfl⟩ | ⟨pindexNew, n', _, hnew, rfl, _⟩
    · exact hs
    · obtain ⟨modifier, _, rfl⟩ := newBlockIndex_eq_some hnew
      obtain ⟨pindexPrev, hacc⟩ := acceptBlockChecks_eq_some hcheck
      have htimes := acceptBlockChecks_times hcheck hacc.prev
      have hpprev : s.pprev b = pindexPrev := by
        rw [IndexedNode.pprev, hacc.prev, Option.getD_some]
      have hprevTimes := hs _ _ hacc.prev
      intro hash p hp
      simp only [IndexedNode.insertIndex] at hp
      rw [Function.update_apply] at hp
      split at hp
      · obtain rfl := Option.some_injective _ hp
        rw [hpprev]
        cases pindexPrev with
        | nil => trivial
        | cons d q => exact ⟨htimes, hprevTimes⟩
      · exact hs hash p hp

end Beancash
