import Beancash.KeyPool

namespace Beancash

variable {PubKey : Type} {env : KeyPoolEnv PubKey} {io : PoolIo}

namespace PoolSystem

def Reserved (s : PoolSystem PubKey) (i : ℤ) : Prop := i ≠ -1 ∧ ∃ h, (s.holders h).nIndex = i

def Live (s : PoolSystem PubKey) (i : ℤ) : Prop := i ∈ s.wallet.setKeyPool ∨ s.Reserved i

/-- A key that is not the default key has a record of its own, or was given to one holder. -/
structure Inv (env : KeyPoolEnv PubKey) (s : PoolSystem PubKey) : Prop where
  pos : ∀ i, s.Live i → 0 < i
  record : ∀ i, s.Live i → s.wallet.pool i ≠ none
  notMem : ∀ i, s.Reserved i → i ∉ s.wallet.setKeyPool
  unique : ∀ h h', (s.holders h).nIndex ≠ -1 → (s.holders h).nIndex = (s.holders h').nIndex → h = h'
  inj : ∀ i j, s.Live i → s.Live j → s.wallet.pool i = s.wallet.pool j → i = j
  held : ∀ h k, (s.holders h).vchPubKey = some k → some k ≠ env.vchDefaultKey →
    (s.holders h).nIndex ≠ -1 ∧ s.wallet.pool (s.holders h).nIndex = some k
  free : ∀ h k i, (h, k) ∈ s.given → some k ≠ env.vchDefaultKey → s.Live i →
    s.wallet.pool i = some k → (s.holders h).nIndex = i ∧ (s.holders h).vchPubKey = some k
  given : ∀ h h' k, (h, k) ∈ s.given → (h', k) ∈ s.given → some k ≠ env.vchDefaultKey → h = h'
  fresh : ∀ n, s.wallet.nGenerated ≤ n →
    (∀ i, s.Live i → s.wallet.pool i ≠ some (env.newKey n)) ∧
      (some (env.newKey n) ≠ env.vchDefaultKey → ∀ h, (h, env.newKey n) ∉ s.given)

variable {s : PoolSystem PubKey}

theorem Inv.shrink (h : s.Inv env) {w : KeyPool PubKey}
    (hset : w.setKeyPool ⊆ s.wallet.setKeyPool)
    (hpool : ∀ i, Live { s with wallet := w } i → w.pool i = s.wallet.pool i)
    (hn : s.wallet.nGenerated ≤ w.nGenerated) : Inv env { s with wallet := w } := by
  have hlive : ∀ i, Live { s with wallet := w } i → s.Live i := by
    intro i hi
    exact hi.imp_left fun hmem => hset hmem
  refine ⟨?_, ?_, ?_, h.unique, ?_, ?_, ?_, h.given, ?_⟩
  · intro i hi
    exact h.pos i (hlive i hi)
  · intro i hi
    change w.pool i ≠ none
    rw [hpool i hi]
    exact h.record i (hlive i hi)
  · intro i hi hmem
    exact h.notMem i hi (hset hmem)
  · intro i j hi hj heq
    change w.pool i = w.pool j at heq
    rw [hpool i hi, hpool j hj] at heq
    exact h.inj i j (hlive i hi) (hlive j hj) heq
  · intro holder k hk hdefault
    obtain ⟨hindex, hrecord⟩ := h.held holder k hk hdefault
    exact ⟨hindex, (hpool _ (.inr ⟨hindex, holder, rfl⟩)).trans hrecord⟩
  · intro holder k i hgiven hdefault hi hrecord
    change w.pool i = some k at hrecord
    rw [hpool i hi] at hrecord
    exact h.free holder k i hgiven hdefault (hlive i hi) hrecord
  · intro n hle
    obtain ⟨hrecord, hgiven⟩ := h.fresh n (hn.trans hle)
    refine ⟨?_, hgiven⟩
    intro i hi
    change w.pool i ≠ some (env.newKey n)
    rw [hpool i hi]
    exact hrecord i (hlive i hi)

theorem Inv.insertIndex (h : s.Inv env) {i : ℤ} (hi : 0 < i) (hlive : ¬s.Live i) {key : PubKey}
    (hkey : s.wallet.pool i = some key)
    (hother : ∀ j, s.Live j → s.wallet.pool j ≠ some key)
    (hgiven : ∀ holder, (holder, key) ∈ s.given → some key ≠ env.vchDefaultKey → False)
    (hfresh : ∀ n, s.wallet.nGenerated ≤ n → env.newKey n ≠ key) :
    Inv env { s with wallet := s.wallet.insertIndex i } := by
  have hcases : ∀ j, Live { s with wallet := s.wallet.insertIndex i } j → j = i ∨ s.Live j := by
    rintro j (hj | hj)
    · exact (Finset.mem_insert.mp hj).imp_right .inl
    · exact .inr (.inr hj)
  refine ⟨?_, ?_, ?_, h.unique, ?_, h.held, ?_, h.given, ?_⟩
  · intro j hj
    rcases hcases j hj with rfl | hj
    · exact hi
    · exact h.pos j hj
  · intro j hj
    rcases hcases j hj with rfl | hj
    · change s.wallet.pool j ≠ none
      rw [hkey]
      exact Option.some_ne_none key
    · exact h.record j hj
  · intro j hj hmem
    rcases Finset.mem_insert.mp hmem with rfl | hmem
    · exact hlive (.inr hj)
    · exact h.notMem j hj hmem
  · intro j j' hj hj' heq
    change s.wallet.pool j = s.wallet.pool j' at heq
    rcases hcases j hj with hi1 | hlive1
    · rcases hcases j' hj' with hi2 | hlive2
      · rw [hi1, hi2]
      · rw [hi1] at heq
        exact absurd (heq.symm.trans hkey) (hother j' hlive2)
    · rcases hcases j' hj' with hi2 | hlive2
      · rw [hi2] at heq
        exact absurd (heq.trans hkey) (hother j hlive1)
      · exact h.inj j j' hlive1 hlive2 heq
  · intro holder k j hmem hdefault hj hrecord
    rcases hcases j hj with rfl | hj
    · have heq : key = k := Option.some.inj (hkey.symm.trans hrecord)
      rw [← heq] at hmem hdefault
      exact (hgiven holder hmem hdefault).elim
    · exact h.free holder k j hmem hdefault hj hrecord
  · intro n hle
    obtain ⟨hrecord, hgiven⟩ := h.fresh n hle
    refine ⟨?_, hgiven⟩
    intro j hj heq
    rcases hcases j hj with rfl | hj
    · exact hfresh n hle (Option.some.inj (hkey.symm.trans heq)).symm
    · exact hrecord j hj heq

theorem Inv.addKey (hnew : Function.Injective env.newKey) (h : s.Inv env) {i : ℤ} (hi : 0 < i)
    (hlive : ¬s.Live i) :
    Inv env { s with wallet := { s.wallet with
      setKeyPool := insert i s.wallet.setKeyPool
      pool := Function.update s.wallet.pool i (some (env.newKey s.wallet.nGenerated))
      nGenerated := s.wallet.nGenerated + 1 } } := by
  obtain ⟨hfreshPool, hfreshGiven⟩ := h.fresh s.wallet.nGenerated le_rfl
  have hother : ∀ j, s.Live j → Function.update s.wallet.pool i
      (some (env.newKey s.wallet.nGenerated)) j = s.wallet.pool j := by
    intro j hj
    have hne : j ≠ i := by
      intro heq
      exact hlive (heq ▸ hj)
    exact Function.update_of_ne hne _ _
  -- first the record, while the index is not in the set
  have hwritten : Inv env { s with wallet := { s.wallet with
      pool := Function.update s.wallet.pool i (some (env.newKey s.wallet.nGenerated))
      nGenerated := s.wallet.nGenerated + 1 } } :=
    h.shrink (Finset.Subset.refl _) hother (Nat.le_succ _)
  refine hwritten.insertIndex hi hlive (Function.update_self _ _ _) ?_ ?_ ?_
  · intro j hj heq
    exact hfreshPool j hj ((hother j hj).symm.trans heq)
  · intro holder hmem hdefault
    exact hfreshGiven hdefault holder hmem
  · intro n hle heq
    have hsame := hnew heq
    change s.wallet.nGenerated + 1 ≤ n at hle
    omega

/-- A key is given to `holder`: the default key, or one that no other has and that is in the pool at
most as the holder's own. -/
theorem Inv.give (h : s.Inv env) {holder : ℕ} {k : PubKey}
    (hk : some k ≠ env.vchDefaultKey →
      (∀ i, s.Live i → s.wallet.pool i = some k →
        (s.holders holder).nIndex = i ∧ (s.holders holder).vchPubKey = some k) ∧
      (∀ other, (other, k) ∈ s.given → other = holder) ∧
      ∀ n, s.wallet.nGenerated ≤ n → env.newKey n ≠ k) : Inv env (s.give holder k) := by
  refine ⟨h.pos, h.record, h.notMem, h.unique, h.inj, h.held, ?_, ?_, ?_⟩
  · intro other k' i hgiven hdefault hi hrecord
    rcases List.mem_cons.mp hgiven with heq | hgiven
    · obtain ⟨rfl, rfl⟩ := Prod.mk.inj heq
      exact (hk hdefault).1 i hi hrecord
    · exact h.free other k' i hgiven hdefault hi hrecord
  · intro h1 h2 k' hgiven1 hgiven2 hdefault
    rcases List.mem_cons.mp hgiven1 with heq1 | hgiven1
    · obtain ⟨rfl, rfl⟩ := Prod.mk.inj heq1
      rcases List.mem_cons.mp hgiven2 with heq2 | hgiven2
      · exact (Prod.mk.inj heq2).1.symm
      · exact ((hk hdefault).2.1 h2 hgiven2).symm
    · rcases List.mem_cons.mp hgiven2 with heq2 | hgiven2
      · obtain ⟨hh, hkey⟩ := Prod.mk.inj heq2
        rw [hkey] at hgiven1 hdefault
        exact ((hk hdefault).2.1 h1 hgiven1).trans hh.symm
      · exact h.given h1 h2 k' hgiven1 hgiven2 hdefault
  · intro n hle
    obtain ⟨hrecord, hgiven⟩ := h.fresh n hle
    refine ⟨hrecord, ?_⟩
    intro hdefault other hmem
    rcases List.mem_cons.mp hmem with heq | hmem
    · obtain ⟨-, hkey⟩ := Prod.mk.inj heq
      exact (hk (hkey ▸ hdefault)).2.2 n hle hkey
    · exact hgiven hdefault other hmem

theorem Inv.reserve (h : s.Inv env) {holder : ℕ} {i : ℤ} (hi : i ∈ s.wallet.setKeyPool)
    (hnone : (s.holders holder).nIndex = -1) (vchPubKey : Option PubKey)
    (hkey : ∀ k, vchPubKey = some k → some k ≠ env.vchDefaultKey → s.wallet.pool i = some k) :
    Inv env ({ s with wallet := { s.wallet with
      setKeyPool := s.wallet.setKeyPool.erase i } }.setHolder holder i vchPubKey) := by
  obtain ⟨s', hs'⟩ : ∃ s', s' = { s with wallet := { s.wallet with
      setKeyPool := s.wallet.setKeyPool.erase i } }.setHolder holder i vchPubKey := ⟨_, rfl⟩
  have hself : s'.holders holder = ⟨i, vchPubKey⟩ := by rw [hs', setHolder_self]
  have hothers : ∀ other, other ≠ holder → s'.holders other = s.holders other := by
    intro other hne
    rw [hs', setHolder_of_ne _ hne]
  have hset : s'.wallet.setKeyPool = s.wallet.setKeyPool.erase i := by rw [hs']; rfl
  have hpool : s'.wallet.pool = s.wallet.pool := by rw [hs']; rfl
  have hgiven : s'.given = s.given := by rw [hs']; rfl
  have hn : s'.wallet.nGenerated = s.wallet.nGenerated := by rw [hs']; rfl
  rw [← hs']
  have hpos := h.pos i (.inl hi)
  have hreserved : ∀ j, s'.Reserved j → j = i ∨ (s.Reserved j ∧ j ≠ i) := by
    rintro j ⟨hj, other, hother⟩
    by_cases hne : other = holder
    · rw [hne, hself] at hother
      exact .inl hother.symm
    · rw [hothers other hne] at hother
      refine .inr ⟨⟨hj, other, hother⟩, ?_⟩
      rintro rfl
      exact h.notMem j ⟨hj, other, hother⟩ hi
  have hlive : ∀ j, s'.Live j → s.Live j := by
    rintro j (hj | hj)
    · rw [hset] at hj
      exact .inl (Finset.mem_of_mem_erase hj)
    · rcases hreserved j hj with rfl | hj
      · exact .inl hi
      · exact .inr hj.1
  refine ⟨fun j hj => h.pos j (hlive j hj), ?_, ?_, ?_, ?_, ?_, ?_, ?_, ?_⟩
  · intro j hj
    rw [hpool]
    exact h.record j (hlive j hj)
  · intro j hj hmem
    rw [hset] at hmem
    rcases hreserved j hj with rfl | hj
    · exact Finset.notMem_erase j _ hmem
    · exact h.notMem j hj.1 (Finset.mem_of_mem_erase hmem)
  · intro h1 h2 hindex heq
    by_cases h1eq : h1 = holder
    · by_cases h2eq : h2 = holder
      · rw [h1eq, h2eq]
      · rw [h1eq, hself, hothers h2 h2eq] at heq
        exact absurd hi (h.notMem i ⟨by omega, h2, heq.symm⟩)
    · rw [hothers h1 h1eq] at hindex heq
      by_cases h2eq : h2 = holder
      · rw [h2eq, hself] at heq
        exact absurd hi (h.notMem i ⟨by omega, h1, heq⟩)
      · rw [hothers h2 h2eq] at heq
        exact h.unique h1 h2 hindex heq
  · intro j j' hj hj' heq
    rw [hpool] at heq
    exact h.inj j j' (hlive j hj) (hlive j' hj') heq
  · intro other k hk hdefault
    rw [hpool]
    by_cases hne : other = holder
    · rw [hne, hself] at hk ⊢
      exact ⟨by dsimp only; omega, hkey k hk hdefault⟩
    · rw [hothers other hne] at hk ⊢
      exact h.held other k hk hdefault
  · intro other k j hmem hdefault hj hrecord
    rw [hgiven] at hmem
    rw [hpool] at hrecord
    obtain ⟨hindex, hk⟩ := h.free other k j hmem hdefault (hlive j hj) hrecord
    have hne : other ≠ holder := by
      rintro rfl
      have := h.pos j (hlive j hj)
      omega
    rw [hothers other hne]
    exact ⟨hindex, hk⟩
  · rw [hgiven]
    exact h.given
  · intro n hle
    rw [hn] at hle
    obtain ⟨hrecord, hfresh⟩ := h.fresh n hle
    rw [hpool, hgiven]
    exact ⟨fun j hj => hrecord j (hlive j hj), hfresh⟩

theorem Inv.release (h : s.Inv env) (holder : ℕ) (vchPubKey : Option PubKey)
    (hkey : ∀ k, vchPubKey = some k → some k = env.vchDefaultKey) {given : List (ℕ × PubKey)}
    (hgiven : ∀ pair ∈ given, pair ∈ s.given) :
    Inv env { s.setHolder holder (-1) vchPubKey with given := given } := by
  obtain ⟨s', hs'⟩ : ∃ s', s' = { s.setHolder holder (-1) vchPubKey with given := given } :=
    ⟨_, rfl⟩
  have hself : s'.holders holder = ⟨-1, vchPubKey⟩ := by
    rw [hs']
    exact setHolder_self _ _ _ _
  have hothers : ∀ other, other ≠ holder → s'.holders other = s.holders other := by
    intro other hne
    rw [hs']
    exact setHolder_of_ne _ hne _ _
  have hwallet : s'.wallet = s.wallet := by rw [hs']; rfl
  have hsub : ∀ pair ∈ s'.given, pair ∈ s.given := by rw [hs']; exact hgiven
  rw [← hs']
  have hreserved : ∀ j, s'.Reserved j → s.Reserved j := by
    rintro j ⟨hj, other, hother⟩
    by_cases hne : other = holder
    · rw [hne, hself] at hother
      exact absurd hother.symm hj
    · rw [hothers other hne] at hother
      exact ⟨hj, other, hother⟩
  have hlive : ∀ j, s'.Live j → s.Live j := by
    intro j hj
    refine hj.imp ?_ (hreserved j)
    rw [hwallet]
    exact id
  refine ⟨fun j hj => h.pos j (hlive j hj), ?_, ?_, ?_, ?_, ?_, ?_, ?_, ?_⟩
  · intro j hj
    rw [hwallet]
    exact h.record j (hlive j hj)
  · intro j hj
    rw [hwallet]
    exact h.notMem j (hreserved j hj)
  · intro h1 h2 hindex heq
    have h1ne : h1 ≠ holder := by
      rintro rfl
      rw [hself] at hindex
      exact hindex rfl
    rw [hothers h1 h1ne] at hindex heq
    have h2ne : h2 ≠ holder := by
      rintro rfl
      rw [hself] at heq
      exact hindex heq
    rw [hothers h2 h2ne] at heq
    exact h.unique h1 h2 hindex heq
  · intro j j' hj hj' heq
    rw [hwallet] at heq
    exact h.inj j j' (hlive j hj) (hlive j' hj') heq
  · intro other k hk hdefault
    have hne : other ≠ holder := by
      rintro rfl
      rw [hself] at hk
      exact hdefault (hkey k hk)
    rw [hothers other hne] at hk ⊢
    rw [hwallet]
    exact h.held other k hk hdefault
  · intro other k j hmem hdefault hj hrecord
    rw [hwallet] at hrecord
    obtain ⟨hindex, hk⟩ := h.free other k j (hsub _ hmem) hdefault (hlive j hj) hrecord
    -- the index of the holder is not in use any more
    have hne : other ≠ holder := by
      rintro rfl
      have hj1 := h.pos j (hlive j hj)
      rcases hj with hj | ⟨hj, third, hthird⟩
      · rw [hwallet] at hj
        exact h.notMem j ⟨by omega, other, hindex⟩ hj
      · by_cases hsame : third = other
        · rw [hsame, hself] at hthird
          exact hj hthird.symm
        · rw [hothers third hsame] at hthird
          exact hsame (h.unique third other (hthird ▸ hj) (hthird.trans hindex.symm))
    rw [hothers other hne]
    exact ⟨hindex, hk⟩
  · intro h1 h2 k hmem1 hmem2
    exact h.given h1 h2 k (hsub _ hmem1) (hsub _ hmem2)
  · intro n hle
    rw [hwallet] at hle ⊢
    obtain ⟨hrecord, hfresh⟩ := h.fresh n hle
    refine ⟨fun j hj => hrecord j (hlive j hj), ?_⟩
    intro hdefault other hmem
    exact hfresh hdefault other (hsub _ hmem)

/-- No reserved index is among the next `k` from `nIndex` on. -/
def Clear (s : PoolSystem PubKey) (nIndex : ℤ) (k : ℕ) : Prop :=
  ∀ i, s.Reserved i → i < nIndex ∨ nIndex + k ≤ i

/-- The records of the indexes that are reserved are what they were. -/
def Kept (s : PoolSystem PubKey) (w : KeyPool PubKey) : Prop :=
  ∀ i, s.Reserved i → w.pool i = s.wallet.pool i

end PoolSystem

namespace KeyPool

open PoolSystem

variable {s : PoolSystem PubKey} {w : KeyPool PubKey}

theorem lt_nEnd {i : ℤ} (hi : i ∈ w.setKeyPool) : i < w.nEnd := by
  have hne : w.setKeyPool.Nonempty := ⟨i, hi⟩
  rw [nEnd, dif_pos hne]
  have hmax := Finset.le_max' w.setKeyPool i hi
  omega

theorem nEnd_pos (hpos : ∀ i ∈ w.setKeyPool, 0 < i) : 0 < w.nEnd := by
  rw [nEnd]
  split
  · have hmax := hpos _ (Finset.max'_mem w.setKeyPool ‹_›)
    omega
  · decide

theorem nEnd_insert {w' : KeyPool PubKey} (hset : w'.setKeyPool = insert w.nEnd w.setKeyPool) :
    w'.nEnd = w.nEnd + 1 := by
  have hne : w'.setKeyPool.Nonempty := by
    rw [hset]
    exact Finset.insert_nonempty _ _
  rw [nEnd, dif_pos hne]
  congr 1
  apply le_antisymm
  · apply Finset.max'_le
    intro i hi
    rw [hset] at hi
    rcases Finset.mem_insert.mp hi with rfl | hi
    · exact le_rfl
    · exact (lt_nEnd hi).le
  · apply Finset.le_max'
    rw [hset]
    exact Finset.mem_insert_self _ _

theorem writePool_inv (hnew : Function.Injective env.newKey) (h : Inv env { s with wallet := w })
    {i : ℤ} (hi : 0 < i) (hmem : i ∉ w.setKeyPool) (hreserved : ¬s.Reserved i)
    (hwritten : io.written i = true) :
    Inv env { s with wallet := (({ w with nGenerated := w.nGenerated + 1 }.writePool io i
      (env.newKey w.nGenerated)).insertIndex i) } ∧
    ∀ j, s.Reserved j → (({ w with nGenerated := w.nGenerated + 1 }.writePool io i
      (env.newKey w.nGenerated)).insertIndex i).pool j = w.pool j := by
  have hlive : ¬Live { s with wallet := w } i := by
    rintro (hset | hres)
    · exact hmem hset
    · exact hreserved hres
  have hadd := h.addKey hnew hi hlive
  rw [writePool, hwritten, if_pos rfl]
  refine ⟨hadd, ?_⟩
  intro j hj
  have hne : j ≠ i := by
    rintro rfl
    exact hreserved hj
  exact Function.update_of_ne hne _ _

theorem skipKey_inv (h : Inv env { s with wallet := w }) :
    Inv env { s with wallet := { w with nGenerated := w.nGenerated + 1 } } :=
  h.shrink (Finset.Subset.refl _) (fun _ _ => rfl) (Nat.le_succ _)

theorem topUpLoop_inv (hnew : Function.Injective env.newKey) (k : ℕ)
    (h : Inv env { s with wallet := w }) (hclear : s.Clear w.nEnd k) :
    Inv env { s with wallet := (topUpLoop env io k w).2 } ∧
      ∀ i, s.Reserved i → (topUpLoop env io k w).2.pool i = w.pool i := by
  induction k generalizing w with
  | zero => exact ⟨h, fun _ _ => rfl⟩
  | succ k ih =>
    rw [topUpLoop]
    dsimp only [generateNewKey]
    by_cases hgenerated : io.generated w.nGenerated = true
    · rw [if_pos hgenerated]
      dsimp only
      by_cases hwritten : io.written w.nEnd = true
      · rw [hwritten, Bool.not_true, if_neg Bool.false_ne_true]
        have hpos := nEnd_pos fun i hi => h.pos i (.inl hi)
        have hreserved : ¬s.Reserved w.nEnd := by
          intro hres
          rcases hclear _ hres with hlt | hle <;> omega
        obtain ⟨hinv, hkept⟩ := writePool_inv hnew h hpos
          (fun hmem => lt_irrefl _ (lt_nEnd hmem)) hreserved hwritten
        obtain ⟨hinv', hkept'⟩ := ih hinv (by
          intro i hi
          rw [nEnd_insert (w := w) rfl]
          have := hclear i hi
          omega)
        exact ⟨hinv', fun i hi => (hkept' i hi).trans (hkept i hi)⟩
      · rw [Bool.eq_false_of_not_eq_true hwritten, Bool.not_false, if_pos rfl]
        exact ⟨skipKey_inv h, fun _ _ => rfl⟩
    · rw [if_neg hgenerated]
      exact ⟨skipKey_inv h, fun _ _ => rfl⟩

theorem newKeyLoop_inv (hnew : Function.Injective env.newKey) (k : ℕ) {nIndex : ℤ}
    (hpos : 0 < nIndex) (h : Inv env { s with wallet := w })
    (hset : ∀ i ∈ w.setKeyPool, i < nIndex) (hclear : s.Clear nIndex k)
    (hwritten : ∀ i, nIndex ≤ i → i < nIndex + k → io.written i = true) :
    Inv env { s with wallet := (newKeyLoop env io k nIndex w).2 } ∧
      ∀ i, s.Reserved i → (newKeyLoop env io k nIndex w).2.pool i = w.pool i := by
  induction k generalizing w nIndex with
  | zero => exact ⟨h, fun _ _ => rfl⟩
  | succ k ih =>
    rw [newKeyLoop]
    dsimp only [generateNewKey]
    by_cases hgenerated : io.generated w.nGenerated = true
    · rw [if_pos hgenerated]
      dsimp only
      have hreserved : ¬s.Reserved nIndex := by
        intro hres
        rcases hclear _ hres with hlt | hle <;> omega
      obtain ⟨hinv, hkept⟩ := writePool_inv hnew h hpos
        (fun hmem => lt_irrefl _ (hset nIndex hmem)) hreserved
        (hwritten nIndex le_rfl (by omega))
      have hpos' : 0 < nIndex + 1 := by omega
      obtain ⟨hinv', hkept'⟩ := ih hpos' hinv (by
          intro i hi
          rcases Finset.mem_insert.mp hi with rfl | hi
          · omega
          · have := hset i hi
            omega) (by
          intro i hi
          have := hclear i hi
          omega) (by
          intro i hle hlt
          exact hwritten i (by omega) (by omega))
      exact ⟨hinv', fun i hi => (hkept' i hi).trans (hkept i hi)⟩
    · rw [if_neg hgenerated]
      exact ⟨skipKey_inv h, fun _ _ => rfl⟩

theorem clear_inv (h : s.Inv env) :
    Inv env { s with wallet := s.wallet.clear io } ∧ s.Kept (s.wallet.clear io) := by
  have hkept : s.Kept (s.wallet.clear io) := by
    intro i hi
    exact if_neg fun hboth => h.notMem i hi hboth.1
  refine ⟨h.shrink (Finset.empty_subset _) ?_ le_rfl, hkept⟩
  rintro i (hi | hi)
  · exact absurd hi (Finset.notMem_empty i)
  · exact hkept i hi

end KeyPool

namespace PoolSystem

variable {s : PoolSystem PubKey}

/-- The keys that a `TopUpKeyPool` is to add come under indexes that are not reserved. -/
def TopUpFree (env : KeyPoolEnv PubKey) (nSize : ℕ) (s : PoolSystem PubKey) : Prop :=
  s.wallet.isLocked = false →
    s.Clear s.wallet.nEnd (KeyPool.targetSize env nSize + 1 - s.wallet.setKeyPool.card)

/-- So do those of `NewKeyPool`, and all of them are written. -/
def NewKeysFree (env : KeyPoolEnv PubKey) (io : PoolIo) (s : PoolSystem PubKey) : Prop :=
  s.wallet.isLocked = false →
    s.Clear 1 env.keypool ∧ ∀ i, 1 ≤ i → i < 1 + (env.keypool : ℤ) → io.written i = true

theorem topUpKeyPool_inv (hnew : Function.Injective env.newKey) (h : s.Inv env) {nSize : ℕ}
    (hfree : TopUpFree env nSize s) :
    Inv env { s with wallet := (s.wallet.topUpKeyPool env io nSize).2 } ∧
      s.Kept (s.wallet.topUpKeyPool env io nSize).2 := by
  rw [KeyPool.topUpKeyPool]
  cases hlocked : s.wallet.isLocked with
  | true => exact ⟨h, fun _ _ => rfl⟩
  | false =>
    rw [if_neg Bool.false_ne_true]
    exact KeyPool.topUpLoop_inv hnew _ h (hfree hlocked)

theorem newKeyPool_inv (hnew : Function.Injective env.newKey) (h : s.Inv env)
    (hfree : NewKeysFree env io s) :
    Inv env { s with wallet := (s.wallet.newKeyPool env io).2 } ∧
      s.Kept (s.wallet.newKeyPool env io).2 := by
  obtain ⟨hinv, hkept⟩ := KeyPool.clear_inv h
  rw [KeyPool.newKeyPool]
  cases hlocked : s.wallet.isLocked with
  | true =>
    rw [show (s.wallet.clear io).isLocked = true from hlocked]
    exact ⟨hinv, hkept⟩
  | false =>
    obtain ⟨hclear, hwritten⟩ := hfree hlocked
    rw [show (s.wallet.clear io).isLocked = false from hlocked, if_neg Bool.false_ne_true]
    obtain ⟨hinv', hkept'⟩ := KeyPool.newKeyLoop_inv hnew env.keypool Int.one_pos hinv
      (fun i hi => absurd hi (Finset.notMem_empty i)) hclear hwritten
    exact ⟨hinv', fun i hi => (hkept' i hi).trans (hkept i hi)⟩

/-- After the pool was filled up, either there is no index, or the first one is taken from it. -/
theorem reserveKeyFromKeyPool_cases (hnew : Function.Injective env.newKey) (h : s.Inv env)
    (hfree : TopUpFree env 0 s) :
    ∃ w, Inv env { s with wallet := w } ∧ s.Kept w ∧
      (((s.wallet.reserveKeyFromKeyPool env io).1.nIndex = -1 ∧
          (s.wallet.reserveKeyFromKeyPool env io).2 = w) ∨
        ∃ i ∈ w.setKeyPool, (s.wallet.reserveKeyFromKeyPool env io).1.nIndex = i ∧
          (s.wallet.reserveKeyFromKeyPool env io).1.vchPubKey = w.pool i ∧
          (s.wallet.reserveKeyFromKeyPool env io).2 =
            { w with setKeyPool := w.setKeyPool.erase i }) := by
  have hfilled : ∃ ok w, (if !s.wallet.isLocked then s.wallet.topUpKeyPool env io 0
      else (true, s.wallet)) = (ok, w) ∧ Inv env { s with wallet := w } ∧ s.Kept w := by
    cases s.wallet.isLocked with
    | true => exact ⟨_, _, rfl, h, fun _ _ => rfl⟩
    | false => exact ⟨_, _, rfl, topUpKeyPool_inv hnew h hfree⟩
  obtain ⟨ok, w, hw, hinv, hkept⟩ := hfilled
  refine ⟨w, hinv, hkept, ?_⟩
  rw [KeyPool.reserveKeyFromKeyPool, hw]
  dsimp only
  cases ok with
  | false => exact .inl ⟨rfl, rfl⟩
  | true =>
    rw [Bool.not_true, if_neg Bool.false_ne_true]
    by_cases hne : w.setKeyPool.Nonempty
    · rw [dif_pos hne]
      refine .inr ⟨_, Finset.min'_mem w.setKeyPool hne, ?_⟩
      cases hpool : w.pool (w.setKeyPool.min' hne) with
      | none => exact ⟨rfl, rfl, rfl⟩
      | some pubkey => exact ⟨rfl, rfl, rfl⟩
    · rw [dif_neg hne]
      exact .inl ⟨rfl, rfl⟩

/-- A holder that keeps the index finds its record as it was. -/
def RecordsKept (s s' : PoolSystem PubKey) : Prop :=
  ∀ h, (s.holders h).nIndex ≠ -1 → (s'.holders h).nIndex = (s.holders h).nIndex →
    s'.wallet.pool (s.holders h).nIndex = s.wallet.pool (s.holders h).nIndex

theorem Kept.records {w : KeyPool PubKey} (h : s.Kept w) {s' : PoolSystem PubKey}
    (hpool : s'.wallet.pool = w.pool) : RecordsKept s s' := by
  intro holder hindex _
  rw [hpool]
  exact h _ ⟨hindex, holder, rfl⟩

theorem Inv.notGiven (h : s.Inv env) {i : ℤ} (hi : i ∈ s.wallet.setKeyPool) {k : PubKey}
    (hk : s.wallet.pool i = some k) (hdefault : some k ≠ env.vchDefaultKey) (holder : ℕ) :
    (holder, k) ∉ s.given := by
  intro hmem
  have hpos := h.pos i (.inl hi)
  obtain ⟨hindex, -⟩ := h.free holder k i hmem hdefault (.inl hi) hk
  exact h.notMem i ⟨by omega, holder, hindex⟩ hi

theorem setHolder_same (s : PoolSystem PubKey) (holder : ℕ) :
    s.setHolder holder (s.holders holder).nIndex (s.holders holder).vchPubKey = s := by
  unfold setHolder
  rw [show (⟨(s.holders holder).nIndex, (s.holders holder).vchPubKey⟩ : ReserveKey PubKey) =
    s.holders holder from rfl, Function.update_eq_self]

theorem getReservedKey_inv (hnew : Function.Injective env.newKey) (h : s.Inv env) {holder : ℕ}
    (hfree : (s.holders holder).nIndex = -1 → TopUpFree env 0 s) {s' : PoolSystem PubKey}
    (hstep : s.getReservedKey env io holder = some s') : Inv env s' ∧ RecordsKept s s' := by
  rw [getReservedKey] at hstep
  by_cases hnone : (s.holders holder).nIndex = -1
  · rw [if_pos hnone] at hstep
    obtain ⟨w, hinv, hkept, hcases⟩ := reserveKeyFromKeyPool_cases hnew h (hfree hnone)
    generalize s.wallet.reserveKeyFromKeyPool env io = reservation at hstep hcases
    obtain ⟨⟨nIndex, vchPubKey, thrown⟩, wallet⟩ := reservation
    dsimp only at hstep hcases
    rcases hcases with ⟨rfl, rfl⟩ | ⟨i, hi, rfl, rfl, rfl⟩
    · cases thrown with
      | true =>
        rw [if_pos rfl, Option.some.injEq] at hstep
        subst hstep
        have hsame := setHolder_same { s with wallet := wallet } holder
        dsimp only at hsame
        rw [hnone] at hsame
        rw [hsame]
        exact ⟨hinv, hkept.records rfl⟩
      | false =>
        rw [if_neg Bool.false_ne_true, if_neg (not_not.mpr rfl)] at hstep
        cases hdefaultKey : env.vchDefaultKey with
        | none =>
          rw [hdefaultKey] at hstep
          cases hstep
          exact ⟨hinv, hkept.records rfl⟩
        | some defaultKey =>
          rw [hdefaultKey] at hstep
          cases hstep
          have hrelease := hinv.release holder (some defaultKey)
            (fun k hk => by rw [← hk, hdefaultKey]) (fun pair hpair => hpair)
          exact ⟨hrelease.give fun hne => absurd hdefaultKey.symm hne, hkept.records rfl⟩
    · have hpos : 0 < nIndex := hinv.pos nIndex (.inl hi)
      cases thrown with
      | true =>
        rw [if_pos rfl, Option.some.injEq] at hstep
        subst hstep
        refine ⟨hinv.reserve hi hnone _ ?_, hkept.records rfl⟩
        intro k hk hdefault
        exact absurd hnone (h.held holder k hk hdefault).1
      | false =>
        rw [if_neg Bool.false_ne_true, if_pos (by omega)] at hstep
        obtain ⟨k, hk, hstep⟩ := Option.map_eq_some_iff.mp hstep
        subst hstep
        have hreserved := hinv.reserve hi hnone (some k) (fun k' hk' _ => by
          rw [← hk']
          exact hk)
        refine ⟨hreserved.give ?_, hkept.records rfl⟩
        intro hdefault
        refine ⟨?_, ?_, ?_⟩
        · intro j hj hrecord
          have hlive : Live { s with wallet := w } j := by
            rcases hj with hj | ⟨hj, other, hother⟩
            · exact .inl (Finset.mem_of_mem_erase hj)
            · by_cases hsame : other = holder
              · rw [hsame, setHolder_self] at hother
                exact .inl (hother ▸ hi)
              · rw [setHolder_of_ne _ hsame] at hother
                exact .inr ⟨hj, other, hother⟩
          rw [hinv.inj j nIndex hlive (.inl hi) (hrecord.trans hk.symm), setHolder_self]
          exact ⟨rfl, rfl⟩
        · intro other hmem
          exact absurd hmem (hinv.notGiven hi hk hdefault other)
        · intro n hle heq
          rw [← heq] at hk
          exact (hinv.fresh n hle).1 nIndex (.inl hi) hk
  · rw [if_neg hnone] at hstep
    obtain ⟨k, hk, rfl⟩ := Option.map_eq_some_iff.mp hstep
    refine ⟨h.give ?_, fun _ _ _ => rfl⟩
    intro hdefault
    obtain ⟨hindex, hrecord⟩ := h.held holder k hk hdefault
    have hlive : s.Live (s.holders holder).nIndex := .inr ⟨hindex, holder, rfl⟩
    refine ⟨?_, ?_, ?_⟩
    · intro j hj hrecord'
      exact ⟨h.inj _ _ hlive hj (hrecord.trans hrecord'.symm), hk⟩
    · intro other hmem
      obtain ⟨hother, -⟩ := h.free other k _ hmem hdefault hlive hrecord
      exact h.unique other holder (hother ▸ hindex) hother
    · intro n hle heq
      rw [← heq] at hrecord
      exact (h.fresh n hle).1 _ hlive hrecord

theorem keepKey_inv (h : s.Inv env) (holder : ℕ) :
    Inv env (s.keepKey io holder) ∧ RecordsKept s (s.keepKey io holder) := by
  have hrelease := h.release holder none (fun k hk => absurd hk (Option.some_ne_none k).symm)
    (fun pair hpair => hpair)
  rw [keepKey]
  by_cases hnone : (s.holders holder).nIndex = -1
  · rw [if_pos hnone]
    exact ⟨hrelease, fun _ _ _ => rfl⟩
  · rw [if_neg hnone]
    have hne : ∀ i, Live (s.setHolder holder (-1) none) i → i ≠ (s.holders holder).nIndex := by
      rintro i hi rfl
      rcases hi with hi | ⟨hi, other, hother⟩
      · exact h.notMem _ ⟨hnone, holder, rfl⟩ hi
      · by_cases hsame : other = holder
        · rw [hsame, setHolder_self] at hother
          exact hi hother.symm
        · rw [setHolder_of_ne _ hsame] at hother
          exact hsame (h.unique other holder (hother ▸ hnone) hother)
    have herased : ∀ i, i ≠ (s.holders holder).nIndex →
        (s.wallet.erasePool io (s.holders holder).nIndex).pool i = s.wallet.pool i := by
      intro i hi
      rw [KeyPool.erasePool]
      dsimp only
      split
      · exact Function.update_of_ne hi _ _
      · rfl
    refine ⟨hrelease.shrink (Finset.Subset.refl _) (fun i hi => herased i (hne i hi)) le_rfl, ?_⟩
    intro other hindex hkeeps
    have hother : other ≠ holder := by
      rintro rfl
      have hself : (((s.setHolder other (-1) none).holders other).nIndex) =
          (s.holders other).nIndex := hkeeps
      rw [setHolder_self] at hself
      exact hnone hself.symm
    apply herased
    intro heq
    exact hother (h.unique other holder hindex heq)

theorem returnKey_inv [DecidableEq PubKey] (h : s.Inv env) (holder : ℕ) :
    Inv env (s.returnKey holder) ∧ RecordsKept s (s.returnKey holder) := by
  rw [returnKey]
  by_cases hnone : (s.holders holder).nIndex = -1
  · rw [if_pos hnone]
    exact ⟨h.release holder none (fun k hk => absurd hk (Option.some_ne_none k).symm)
      (fun pair hpair => hpair), fun _ _ _ => rfl⟩
  · rw [if_neg hnone]
    refine ⟨?_, fun _ _ _ => rfl⟩
    have hlive : s.Live (s.holders holder).nIndex := .inr ⟨hnone, holder, rfl⟩
    obtain ⟨key, hkey⟩ := Option.ne_none_iff_exists'.mp (h.record _ hlive)
    have hrelease := h.release holder none (fun k hk => absurd hk (Option.some_ne_none k).symm)
      (fun pair (hpair : pair ∈ s.given.filter fun pair =>
        decide ¬(pair.1 = holder ∧ some pair.2 = (s.holders holder).vchPubKey)) =>
        List.mem_of_mem_filter hpair)
    have hcases : ∀ i, Live { s.setHolder holder (-1) none with
        given := s.given.filter fun pair =>
          decide ¬(pair.1 = holder ∧ some pair.2 = (s.holders holder).vchPubKey) } i →
        s.Live i ∧ i ≠ (s.holders holder).nIndex := by
      rintro i (hi | ⟨hi, other, hother⟩)
      · refine ⟨.inl hi, ?_⟩
        rintro rfl
        exact h.notMem _ ⟨hnone, holder, rfl⟩ hi
      · by_cases hsame : other = holder
        · have hself : ((s.setHolder holder (-1) none).holders other).nIndex = i := hother
          rw [hsame, setHolder_self] at hself
          exact absurd hself.symm hi
        · have hold : ((s.setHolder holder (-1) none).holders other).nIndex = i := hother
          rw [setHolder_of_ne _ hsame] at hold
          refine ⟨.inr ⟨hi, other, hold⟩, ?_⟩
          rintro rfl
          exact hsame (h.unique other holder (by rw [hold]; exact hi) hold)
    refine hrelease.insertIndex (h.pos _ hlive) ?_ hkey ?_ ?_ ?_
    · intro hi
      exact (hcases _ hi).2 rfl
    · intro i hi hrecord
      exact (hcases i hi).2 (h.inj _ _ (hcases i hi).1 hlive (hrecord.trans hkey.symm))
    · intro other hmem hdefault
      obtain ⟨hmem, hfilter⟩ := List.mem_filter.mp hmem
      obtain ⟨hindex, hk⟩ := h.free other key _ hmem hdefault hlive hkey
      have hsame := h.unique other holder (hindex ▸ hnone) hindex
      rw [decide_eq_true_iff] at hfilter
      exact hfilter ⟨hsame, by rw [← hsame]; exact hk.symm⟩
    · intro n hle heq
      rw [← heq] at hkey
      exact (h.fresh n hle).1 _ hlive hkey

/-- What `GetKeyFromPool` does when the pool has no key for it. -/
def giveGenerated (env : KeyPoolEnv PubKey) (io : PoolIo) (s : PoolSystem PubKey)
    (wallet : KeyPool PubKey) (holder : ℕ) : Option (PoolSystem PubKey) :=
  if wallet.isLocked then some { s with wallet := wallet }
  else
    match wallet.generateNewKey env io with
    | (none, wallet) => some { s with wallet := wallet }
    | (some pubkey, wallet) => some ({ s with wallet := wallet }.give holder pubkey)

theorem getKeyFromPool_inv (hnew : Function.Injective env.newKey) (h : s.Inv env) {holder : ℕ}
    {fAllowReuse : Bool} (hfree : TopUpFree env 0 s) {s' : PoolSystem PubKey}
    (hstep : s.getKeyFromPool env io holder fAllowReuse = some s') :
    Inv env s' ∧ RecordsKept s s' := by
  rw [getKeyFromPool] at hstep
  obtain ⟨w, hinv, hkept, hcases⟩ := reserveKeyFromKeyPool_cases hnew h hfree
  generalize s.wallet.reserveKeyFromKeyPool env io = reservation at hstep hcases
  obtain ⟨⟨nIndex, vchPubKey, thrown⟩, wallet⟩ := reservation
  dsimp only at hstep hcases
  rcases hcases with ⟨rfl, rfl⟩ | ⟨i, hi, rfl, rfl, rfl⟩
  · cases thrown with
    | true =>
      cases hstep
      exact ⟨hinv, hkept.records rfl⟩
    | false =>
      rw [if_neg Bool.false_ne_true, if_pos rfl] at hstep
      have hgenerate : s.giveGenerated env io wallet holder = some s' →
          Inv env s' ∧ RecordsKept s s' := by
        intro hstep
        rw [giveGenerated] at hstep
        cases hlocked : wallet.isLocked with
        | true =>
          rw [hlocked] at hstep
          cases hstep
          exact ⟨hinv, hkept.records rfl⟩
        | false =>
          rw [hlocked, if_neg Bool.false_ne_true] at hstep
          dsimp only [KeyPool.generateNewKey] at hstep
          have hskip := KeyPool.skipKey_inv hinv
          by_cases hgenerated : io.generated wallet.nGenerated = true
          · rw [if_pos hgenerated] at hstep
            cases hstep
            obtain ⟨hrecord, hgiven⟩ := hinv.fresh wallet.nGenerated le_rfl
            refine ⟨hskip.give fun hdefault => ⟨?_, ?_, ?_⟩, hkept.records rfl⟩
            · intro i hi hkey
              exact absurd hkey (hrecord i hi)
            · intro other hmem
              exact absurd hmem (hgiven hdefault other)
            · intro n hle heq
              have hsame := hnew heq
              change wallet.nGenerated + 1 ≤ n at hle
              omega
          · rw [if_neg hgenerated] at hstep
            cases hstep
            exact ⟨hskip, hkept.records rfl⟩
      cases fAllowReuse with
      | false => exact hgenerate hstep
      | true =>
        cases hdefaultKey : env.vchDefaultKey with
        | none =>
          rw [hdefaultKey] at hstep
          exact hgenerate hstep
        | some defaultKey =>
          rw [hdefaultKey] at hstep
          cases hstep
          exact ⟨hinv.give fun hne => absurd hdefaultKey.symm hne, hkept.records rfl⟩
  · have hpos : 0 < nIndex := hinv.pos nIndex (.inl hi)
    have hnotReserved : ¬s.Reserved nIndex := fun hres => hinv.notMem nIndex hres hi
    cases thrown with
    | true =>
      cases hstep
      refine ⟨hinv.shrink (Finset.erase_subset _ _) (fun _ _ => rfl) le_rfl, hkept.records rfl⟩
    | false =>
      rw [if_neg Bool.false_ne_true, if_neg (by omega)] at hstep
      obtain ⟨k, hk, rfl⟩ := Option.map_eq_some_iff.mp hstep
      obtain ⟨w2, hw2⟩ : ∃ w2, w2 =
          KeyPool.erasePool io { w with setKeyPool := w.setKeyPool.erase nIndex } nIndex := ⟨_, rfl⟩
      rw [← hw2]
      have hset : w2.setKeyPool = w.setKeyPool.erase nIndex := by rw [hw2]; rfl
      have hn : w.nGenerated ≤ w2.nGenerated := by rw [hw2]; exact le_rfl
      have herased : ∀ j, j ≠ nIndex → w2.pool j = w.pool j := by
        intro j hj
        rw [hw2, KeyPool.erasePool]
        dsimp only
        split
        · exact Function.update_of_ne hj _ _
        · rfl
      have hcases : ∀ j, Live { s with wallet := w2 } j →
          Live { s with wallet := w } j ∧ j ≠ nIndex := by
        rintro j (hj | hj)
        · change j ∈ w2.setKeyPool at hj
          rw [hset] at hj
          exact ⟨.inl (Finset.mem_of_mem_erase hj), Finset.ne_of_mem_erase hj⟩
        · refine ⟨.inr hj, ?_⟩
          rintro rfl
          exact hnotReserved hj
      have hshrink : Inv env { s with wallet := w2 } :=
        hinv.shrink (hset ▸ Finset.erase_subset nIndex w.setKeyPool)
          (fun j hj => herased j (hcases j hj).2) hn
      refine ⟨hshrink.give fun hdefault => ⟨?_, ?_, ?_⟩, ?_⟩
      · intro j hj hrecord
        obtain ⟨hlive, hne⟩ := hcases j hj
        exact absurd (hinv.inj j nIndex hlive (.inl hi)
          ((herased j hne).symm.trans (hrecord.trans hk.symm))) hne
      · intro other hmem
        exact absurd hmem (hinv.notGiven hi hk hdefault other)
      · intro n hle heq
        rw [← heq] at hk
        exact (hinv.fresh n (hn.trans hle)).1 nIndex (.inl hi) hk
      · intro other hindex _
        have hne : (s.holders other).nIndex ≠ nIndex := by
          intro heq
          exact hnotReserved (heq ▸ ⟨hindex, other, rfl⟩)
        exact (herased _ hne).trans (hkept _ ⟨hindex, other, rfl⟩)

end PoolSystem

open PoolSystem

/-- The condition on the state before a step: no new key comes under a reserved index, and the keys of
`NewKeyPool` are written. -/
def PoolEvent.Free (env : KeyPoolEnv PubKey) (io : PoolIo) (s : PoolSystem PubKey) :
    PoolEvent → Prop
  | .topUpKeyPool nSize => TopUpFree env nSize s
  | .newKeyPool => NewKeysFree env io s
  | .getReservedKey h => (s.holders h).nIndex = -1 → TopUpFree env 0 s
  | .getKeyFromPool _ _ => TopUpFree env 0 s
  | .keepKey _ => True
  | .returnKey _ => True
  | .setLocked _ => True

theorem PoolEvent.step_inv [DecidableEq PubKey] (hnew : Function.Injective env.newKey)
    {s s' : PoolSystem PubKey} (h : s.Inv env) {e : PoolEvent} (hfree : e.Free env io s)
    (hstep : e.step env io s = some s') : Inv env s' ∧ RecordsKept s s' := by
  cases e with
  | topUpKeyPool nSize =>
    cases hstep
    obtain ⟨hinv, hkept⟩ := topUpKeyPool_inv hnew h hfree
    exact ⟨hinv, hkept.records rfl⟩
  | newKeyPool =>
    cases hstep
    obtain ⟨hinv, hkept⟩ := newKeyPool_inv hnew h hfree
    exact ⟨hinv, hkept.records rfl⟩
  | getReservedKey holder => exact getReservedKey_inv hnew h hfree hstep
  | keepKey holder =>
    cases hstep
    exact keepKey_inv h holder
  | returnKey holder =>
    cases hstep
    exact returnKey_inv h holder
  | getKeyFromPool holder fAllowReuse => exact getKeyFromPool_inv hnew h hfree hstep
  | setLocked isLocked =>
    cases hstep
    exact ⟨h.shrink (Finset.Subset.refl _) (fun _ _ => rfl) le_rfl, fun _ _ _ => rfl⟩

/-- The states that are reached from `s`, where no step writes under a reserved index. -/
inductive KeyPoolRun [DecidableEq PubKey] (env : KeyPoolEnv PubKey) (s : PoolSystem PubKey) :
    PoolSystem PubKey → Prop
  | refl : KeyPoolRun env s s
  | step {s1 s2 : PoolSystem PubKey} (e : PoolEvent) (io : PoolIo) (run : KeyPoolRun env s s1)
      (free : e.Free env io s1) (hstep : e.step env io s1 = some s2) : KeyPoolRun env s s2

/-- A wallet as it was loaded: every index has a record with a key of its own, and the keys to be
generated are new. Nobody holds a key. -/
structure PoolSystem.Initial (env : KeyPoolEnv PubKey) (s : PoolSystem PubKey) : Prop where
  pos : ∀ i ∈ s.wallet.setKeyPool, 0 < i
  record : ∀ i ∈ s.wallet.setKeyPool, s.wallet.pool i ≠ none
  inj : ∀ i ∈ s.wallet.setKeyPool, ∀ j ∈ s.wallet.setKeyPool,
    s.wallet.pool i = s.wallet.pool j → i = j
  fresh : ∀ n, s.wallet.nGenerated ≤ n → ∀ i ∈ s.wallet.setKeyPool,
    s.wallet.pool i ≠ some (env.newKey n)
  holders : ∀ h, s.holders h = ⟨-1, none⟩
  given : s.given = []

theorem PoolSystem.Initial.inv {s : PoolSystem PubKey} (h : s.Initial env) : s.Inv env := by
  have hreserved : ∀ i, ¬s.Reserved i := by
    rintro i ⟨hi, holder, hholder⟩
    rw [h.holders] at hholder
    exact hi hholder.symm
  have hlive : ∀ i, s.Live i → i ∈ s.wallet.setKeyPool := by
    intro i hi
    exact hi.resolve_right (hreserved i)
  have hgiven : ∀ pair, pair ∉ s.given := by
    intro pair
    rw [h.given]
    exact List.not_mem_nil
  refine ⟨fun i hi => h.pos i (hlive i hi), fun i hi => h.record i (hlive i hi),
    fun i hi => absurd hi (hreserved i), ?_, fun i j hi hj => h.inj i (hlive i hi) j (hlive j hj),
    ?_, fun _ _ _ hmem => absurd hmem (hgiven _), fun _ _ _ hmem => absurd hmem (hgiven _), ?_⟩
  · intro h1 h2 hindex
    rw [h.holders] at hindex
    exact absurd rfl hindex
  · intro holder k hk
    rw [h.holders] at hk
    cases hk
  · intro n hle
    exact ⟨fun i hi => h.fresh n hle i (hlive i hi), fun _ _ => hgiven _⟩

theorem KeyPoolRun.inv [DecidableEq PubKey] (hnew : Function.Injective env.newKey)
    {s s' : PoolSystem PubKey} (h : s.Initial env) (hrun : KeyPoolRun env s s') : s'.Inv env := by
  induction hrun with
  | refl => exact h.inv
  | step e io _ hfree hstep ih => exact (e.step_inv hnew ih hfree hstep).1

/-- Every index in the set has its record, a reserved index is in nobody else's hands and keeps its
record as long as it is reserved, and a key other than the default key goes to one holder only. -/
theorem keyPoolRun_safe [DecidableEq PubKey] (hnew : Function.Injective env.newKey)
    {s0 s : PoolSystem PubKey} (hinitial : s0.Initial env) (hrun : KeyPoolRun env s0 s) :
    (∀ i ∈ s.wallet.setKeyPool, s.wallet.pool i ≠ none) ∧
      (∀ h, (s.holders h).nIndex ≠ -1 → (s.holders h).nIndex ∉ s.wallet.setKeyPool ∧
        (∀ h', (s.holders h').nIndex = (s.holders h).nIndex → h' = h) ∧
        ∀ (e : PoolEvent) (io : PoolIo) (s' : PoolSystem PubKey), e.Free env io s →
          e.step env io s = some s' → (s'.holders h).nIndex = (s.holders h).nIndex →
          s'.wallet.pool (s.holders h).nIndex = s.wallet.pool (s.holders h).nIndex) ∧
      ∀ h h' k, (h, k) ∈ s.given → (h', k) ∈ s.given → some k ≠ env.vchDefaultKey → h = h' := by
  have hinv := hrun.inv hnew hinitial
  refine ⟨fun i hi => hinv.record i (.inl hi), ?_, hinv.given⟩
  intro h hindex
  refine ⟨hinv.notMem _ ⟨hindex, h, rfl⟩, ?_, ?_⟩
  · intro h' heq
    exact (hinv.unique h h' hindex heq.symm).symm
  · intro e io s' hfree hstep hkeeps
    exact (e.step_inv hnew hinv hfree hstep).2 h hindex hkeeps

namespace Sample

def poolEnv (keypool : ℕ) : KeyPoolEnv ℕ where
  newKey n := n + 100
  keypool := keypool
  vchDefaultKey := some 7
  haveKey _ := true

theorem injective_newKey (keypool : ℕ) : Function.Injective (poolEnv keypool).newKey :=
  fun _ _ h => Nat.add_right_cancel h

def poolIo : PoolIo := ⟨fun _ => true, fun _ => true, fun _ => true, fun _ => true⟩

/-- A wallet without a pool, and holders without a key. -/
def emptyPool (isLocked : Bool) : PoolSystem ℕ where
  wallet := ⟨∅, fun _ => none, isLocked, 0⟩
  holders _ := ⟨-1, none⟩
  given := []

theorem initial_emptyPool (keypool : ℕ) (isLocked : Bool) :
    (emptyPool isLocked).Initial (poolEnv keypool) where
  pos i hi := absurd hi (Finset.notMem_empty i)
  record i hi := absurd hi (Finset.notMem_empty i)
  inj i hi := absurd hi (Finset.notMem_empty i)
  fresh _ _ i hi := absurd hi (Finset.notMem_empty i)
  holders _ := rfl
  given := rfl

end Sample

open Sample in
/-- A first key is reserved from a pool of two. -/
theorem keyPoolRun_safe_reserve : ∃ s : PoolSystem ℕ,
    (PoolEvent.getReservedKey 3).step (poolEnv 1) poolIo (emptyPool false) = some s ∧
      ∀ i ∈ s.wallet.setKeyPool, s.wallet.pool i ≠ none := by
  obtain ⟨s, hs⟩ : ∃ s, (PoolEvent.getReservedKey 3).step (poolEnv 1) poolIo (emptyPool false) =
      some s := Option.isSome_iff_exists.mp (by decide +kernel)
  have hfree : (PoolEvent.getReservedKey 3).Free (poolEnv 1) poolIo (emptyPool false) := by
    rintro - - i ⟨hi, holder, hholder⟩
    exact absurd hholder.symm hi
  have hrun : KeyPoolRun (poolEnv 1) (emptyPool false) s := .step _ _ .refl hfree hs
  exact ⟨s, hs, (keyPoolRun_safe (injective_newKey 1) (initial_emptyPool 1 false) hrun).1⟩

open Sample in
/-- Two holders are given the default key of a locked wallet. And with `-keypool=0` the index of the
first is also that of the second, which gets another key under it. -/
theorem getReservedKey_twice :
    (((PoolEvent.getReservedKey 0).step (poolEnv 1) poolIo (emptyPool true)).bind fun s =>
      (PoolEvent.getReservedKey 1).step (poolEnv 1) poolIo s).map PoolSystem.given =
        some [(1, 7), (0, 7)] ∧
    (((PoolEvent.getReservedKey 0).step (poolEnv 0) poolIo (emptyPool false)).bind fun s =>
      (PoolEvent.getReservedKey 1).step (poolEnv 0) poolIo s).map (fun s =>
        ((s.holders 0).nIndex, (s.holders 0).vchPubKey, (s.holders 1).nIndex,
          (s.holders 1).vchPubKey, s.wallet.pool 1)) =
        some (1, some 100, 1, some 101, some 101) := by
  constructor
  · decide +kernel
  · decide +kernel

end Beancash
