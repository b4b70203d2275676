import Beancash.AddrManIndex

namespace Beancash

open BucketTable

namespace AddrMan

variable {env : AddrEnv} {newSize : ℕ} {K K' : AddrRecord → Prop} {s : AddrMan} {pending : Option ℤ}
  {n : ℤ}
  {info info' : AddrInfo}
  {vNew : Finset ℤ}

theorem Agrees.exists_of_mem (h : Agrees env newSize K s pending) (hvNew : vNew ∈ s.vvNew)
    (hn : n ∈ vNew) :
    ∃ info, s.mapInfo.lookup n = some info ∧ info.fInTried = false := by
  obtain ⟨r, hr⟩ := h.shared.exists_of_mem hvNew hn
  obtain ⟨info, hinfo, hentry⟩ := infoOf_eq_some.mp hr
  exact ⟨info, hinfo, congrArg Entry.own hentry⟩

theorem entry_of_new (hinfo : s.mapInfo.lookup n = some info) (hnew : info.fInTried = false) :
    infoOf AddrInfo.entry s.mapInfo n = some ⟨false, info.nRefCount⟩ := by
  rw [infoOf_of_lookup hinfo, AddrInfo.entry, hnew]

theorem Holds.own_update_new (h : Holds env K s pending) (hinfo : s.mapInfo.lookup n = some info)
    (hnew : info.fInTried = false) {e : Option Entry} (he : ∀ r, e ≠ some ⟨true, r⟩) :
    OwnBuckets (bucketLimits addrmanNewBucketSize)
      (Function.update (infoOf AddrInfo.entry s.mapInfo) n e) s.vvTried := by
  refine h.own.update (fun r hr => ?_) he
  rw [entry_of_new hinfo hnew] at hr
  cases hr

/-- An entry that no bucket has goes, after it was taken to the end of the random order. -/
theorem Holds.drop (h : Holds env K s pending) (hinfo : s.mapInfo.lookup n = some info)
    (hnew : info.fInTried = false) {vvNew : List (Finset ℤ)}
    {mapInfo : AList fun _ : ℤ => AddrInfo} {vRandom : List ℤ}
    (hrandom : Indexes vRandom (infoOf (·.nRandomPos) mapInfo))
    (hlength : vRandom.length = s.vRandom.length)
    (hlast : vRandom[s.vRandom.length - 1]? = some n)
    (hplaceless : infoOf AddrInfo.placeless mapInfo =
      infoOf AddrInfo.placeless (s.mapInfo.insert n info'))
    (hshared : SharedBuckets (bucketLimits addrmanNewBucketSize)
      (Function.update (infoOf AddrInfo.entry s.mapInfo) n none) vvNew
      pending) (hvvNew : vvNew.length = s.vvNew.length) :
    Holds env K { s with
      mapInfo := mapInfo.erase n
      mapAddr := s.mapAddr.erase info.ip
      vRandom := vRandom.dropLast
      nNew := s.nNew - 1
      vvNew := vvNew } pending := by
  have hinfoOf : ∀ {β : Type} (g : AddrInfo → β), infoOf (fun info => g info.placeless)
      (mapInfo.erase n) = Function.update (infoOf (fun info => g info.placeless) s.mapInfo) n none := by
    intro β g
    rw [infoOf_erase, infoOf_placeless hplaceless g, infoOf_insert, Function.update_idem]
  have hentry : infoOf AddrInfo.entry (mapInfo.erase n) =
      Function.update (infoOf AddrInfo.entry s.mapInfo) n none := hinfoOf AddrInfo.entry
  have hip : infoOf (·.ip) (mapInfo.erase n) = Function.update (infoOf (·.ip) s.mapInfo) n none :=
    hinfoOf (·.ip)
  have hservice : infoOf (·.toNetService) (mapInfo.erase n) =
      Function.update (infoOf (·.toNetService) s.mapInfo) n none := hinfoOf (·.toNetService)
  have hkeeps : infoOf (AddrInfo.Keeps K) (mapInfo.erase n) =
      Function.update (infoOf (AddrInfo.Keeps K) s.mapInfo) n none := hinfoOf (AddrInfo.Keeps K)
  have hne : vRandom ≠ [] := by
    rintro rfl
    cases hlast
  have hdrop : vRandom.dropLast ++ [n] = vRandom := by
    rw [← hlength, ← List.getLast?_eq_getElem?] at hlast
    rw [List.getLast?_eq_some_getLast hne] at hlast
    rw [← Option.some.inj hlast]
    exact List.dropLast_append_getLast hne
  refine
    { key := h.key, addr := fun a m => ?_, random := ?_,
      shared := hentry ▸ hshared,
      own := hentry ▸ h.own_update_new hinfo hnew fun r hr => (by cases hr),
      newLength := hvvNew.trans h.newLength, triedLength := h.triedLength, nTried := h.nTried,
      nNew := ?_, keeps := fun m p hm => ?_, placed := ?_,
      nIdCount := h.nIdCount, id := fun m a hm => ?_ }
  · change (s.mapAddr.erase info.ip).lookup a = some m ↔ infoOf (·.ip) (mapInfo.erase n) m = some a
    have hn : s.mapAddr.lookup info.ip = some n := (h.addr _ n).mpr (infoOf_of_lookup hinfo)
    rw [hip]
    by_cases heq : m = n
    · rw [heq, Function.update_self]
      refine iff_of_false (fun ha => ?_) (by simp)
      by_cases haddr : a = info.ip
      · rw [haddr, AList.lookup_erase] at ha
        cases ha
      · rw [AList.lookup_erase_ne haddr, h.addr, infoOf_of_lookup hinfo] at ha
        exact haddr (Option.some.inj ha).symm
    · rw [Function.update_of_ne heq]
      by_cases haddr : a = info.ip
      · rw [haddr, AList.lookup_erase]
        refine iff_of_false (by simp) fun hm => heq ?_
        exact Option.some.inj (((h.addr _ m).mpr hm).symm.trans hn)
      · rw [AList.lookup_erase_ne haddr]
        exact h.addr a m
  · change Indexes vRandom.dropLast (infoOf (·.nRandomPos) (mapInfo.erase n))
    rw [infoOf_erase]
    rw [← hdrop] at hrandom
    exact hrandom.dropLast
  · change s.nTried + (s.nNew - 1) = (vRandom.dropLast.length : ℤ)
    have hpos := List.length_pos_of_ne_nil hne
    rw [List.length_dropLast, hlength]
    have hcount := h.nNew
    omega
  · rw [hkeeps] at hm
    by_cases heq : m = n
    · rw [heq, Function.update_self] at hm
      cases hm
    · rw [Function.update_of_ne heq] at hm
      exact h.keeps m p hm
  · change InHashedBucket env s.nKey (infoOf (·.toNetService) (mapInfo.erase n)) s.vvTried
    rw [hservice]
    intro b vTried hb m hm x hx
    by_cases heq : m = n
    · rw [heq, Function.update_self] at hx
      cases hx
    · rw [Function.update_of_ne heq] at hx
      exact h.placed b vTried hb m hm x hx
  · rw [hip] at hm
    by_cases heq : m = n
    · rw [heq, Function.update_self] at hm
      cases hm
    · rw [Function.update_of_ne heq] at hm
      exact h.id m a hm

/-- An entry is taken out of a bucket, and if it was in no other one, out of the manager. -/
theorem Holds.exists_removeNew (h : Holds env K s pending) {b : ℕ} (hb : s.vvNew[b]? = some vNew)
    (hn : n ∈ vNew) : ∃ s', s.removeNew b n = some s' ∧ Holds env K s' pending ∧
      s'.vvNew[b]? = some (vNew.erase n) := by
  obtain ⟨info, hinfo, hnew⟩ := h.exists_of_mem (List.mem_of_getElem? hb) hn
  have htake := h.shared.take hb hn (entry_of_new hinfo hnew)
  have hset : (s.vvNew.set b (vNew.erase n))[b]? = some (vNew.erase n) :=
    List.getElem?_set_self (List.getElem?_eq_some_iff.mp hb).1
  by_cases hzero : info.nRefCount - 1 = 0
  · rw [if_pos hzero] at htake
    obtain ⟨i, hpos, hi⟩ := h.random.exists_of_pos n _ (infoOf_of_lookup hinfo)
    have hlt : s.vRandom.length - 1 < s.vRandom.length := by
      have := (List.getElem?_eq_some_iff.mp hi).1
      omega
    have hlast : (s.vRandom.length : ℤ) - 1 = (s.vRandom.length - 1 : ℕ) := by omega
    have hrandom : Indexes s.vRandom
        (infoOf (·.nRandomPos) (s.mapInfo.insert n { info with nRefCount := info.nRefCount - 1 })) := by
      have hsame : infoOf (·.nRandomPos)
          (s.mapInfo.insert n { info with nRefCount := info.nRefCount - 1 }) =
            infoOf (·.nRandomPos) s.mapInfo := infoOf_insert_same hinfo rfl
      rw [hsame]
      exact h.random
    obtain ⟨mapInfo, vRandom, hswap, hrandom, hlength, hend, hplaceless⟩ :=
      exists_swapRandom (s := s.setInfo n { info with nRefCount := info.nRefCount - 1 }) hrandom hi
        (List.getElem?_eq_getElem hlt)
    refine ⟨_, ?_, h.drop hinfo hnew hrandom hlength hend hplaceless htake List.length_set, hset⟩
    rw [removeNew]
    rw [← hpos, ← hlast] at hswap
    simp only [hb, hinfo, Option.bind_eq_bind, Option.bind_some, if_pos hzero, setInfo_vRandom, hswap]
    rfl
  · rw [if_neg hzero] at htake
    have hentry : AddrInfo.entry { info with nRefCount := info.nRefCount - 1 } =
        ⟨false, info.nRefCount - 1⟩ := by
      rw [AddrInfo.entry, hnew]
    obtain ⟨hsuccess, htimes⟩ := h.keeps_of_lookup hinfo
    refine ⟨_, ?_, h.changeInfo hinfo { info with nRefCount := info.nRefCount - 1 } rfl rfl
      ⟨hsuccess, htimes⟩ (hentry ▸ htake)
      (hentry ▸ h.own_update_new hinfo hnew fun r hr => (by cases hr)) List.length_set rfl h.nTried
      rfl h.placed, hset⟩
    rw [removeNew]
    simp only [hb, hinfo, Option.bind_eq_bind, Option.bind_some, if_neg hzero]
    rfl

theorem exists_firstTerrible (nNow : ℤ → ℤ) {ids : List ℤ}
    (hids : ∀ n ∈ ids, ∃ info, s.mapInfo.lookup n = some info) :
    ∃ r, s.firstTerrible nNow ids = some r ∧ ∀ n, r = some n → n ∈ ids := by
  induction ids with
  | nil => exact ⟨none, rfl, fun n hn => by cases hn⟩
  | cons m ids ih =>
    obtain ⟨⟨info, hinfo⟩, htail⟩ := List.forall_mem_cons.mp hids
    obtain ⟨r, hr, hmem⟩ := ih htail
    rw [firstTerrible, hinfo, Option.bind_eq_bind, Option.bind_some]
    split
    · refine ⟨some m, rfl, fun n hn => ?_⟩
      obtain rfl := Option.some.inj hn
      exact List.mem_cons_self
    · exact ⟨r, hr, fun n hn => List.mem_cons_of_mem _ (hmem n hn)⟩

theorem exists_oldestOf {draws : List ℕ} {nI : ℕ} {ids : List ℤ} {nOldest : ℤ} {p : ℤ → Prop}
    (hp : ∀ n, p n → n ≠ -1 ∧ ∃ info, s.mapInfo.lookup n = some info) (hids : ∀ n ∈ ids, p n)
    (hOldest : nOldest ≠ -1 → p nOldest)
    (h : nOldest ≠ -1 ∨ ∃ i < ids.length, nI + i ∈ draws) :
    ∃ r, s.oldestOf draws nI ids nOldest = some r ∧ p r := by
  induction ids generalizing nI nOldest with
  | nil =>
    have hne : nOldest ≠ -1 := by
      rcases h with hne | ⟨i, hi, -⟩
      · exact hne
      · exact absurd hi (Nat.not_lt_zero i)
    exact ⟨nOldest, by rw [oldestOf], hOldest hne⟩
  | cons m ids ih =>
    obtain ⟨hm, htail⟩ := List.forall_mem_cons.mp hids
    obtain ⟨hmne, infoM, hinfoM⟩ := hp m hm
    rw [oldestOf]
    by_cases hdrawn : nI ∈ draws
    · rw [if_pos hdrawn]
      by_cases hnone : nOldest = -1
      · rw [if_pos hnone]
        exact ih htail (fun _ => hm) (.inl hmne)
      · obtain ⟨hne, infoO, hinfoO⟩ := hp nOldest (hOldest hnone)
        rw [if_neg hnone, hinfoM, hinfoO, Option.bind_eq_bind, Option.bind_some, Option.bind_some]
        split
        · exact ih htail (fun _ => hm) (.inl hmne)
        · exact ih htail hOldest (.inl hne)
    · rw [if_neg hdrawn]
      refine ih htail hOldest (h.imp_right ?_)
      rintro ⟨i, hi, hmem⟩
      cases i with
      | zero => exact absurd hmem hdrawn
      | succ i =>
        refine ⟨i, Nat.lt_of_succ_lt_succ hi, ?_⟩
        rwa [Nat.add_right_comm, Nat.add_assoc]

theorem Holds.exists_shrinkNew (h : Holds env K s pending) (nNow : ℤ → ℤ) (rand : Draws) {b : ℕ}
    (hb : s.vvNew[b]? = some vNew) (hne : vNew.Nonempty) :
    ∃ s' n, s.shrinkNew nNow rand b = some s' ∧ Holds env K s' pending ∧ n ∈ vNew ∧
      s'.vvNew[b]? = some (vNew.erase n) := by
  have hp : ∀ n ∈ vNew, n ≠ -1 ∧ ∃ info, s.mapInfo.lookup n = some info := by
    intro n hn
    obtain ⟨info, hinfo, -⟩ := h.exists_of_mem (List.mem_of_getElem? hb) hn
    have hnonneg := (h.id n _ (infoOf_of_lookup hinfo)).1
    exact ⟨by omega, info, hinfo⟩
  have hids : ∀ n ∈ vNew.sort (· ≤ ·), n ∈ vNew := fun n hn => (Finset.mem_sort _).mp hn
  obtain ⟨r, hr, hmem⟩ := exists_firstTerrible nNow fun n hn => (hp n (hids n hn)).2
  rw [shrinkNew, hb, Option.bind_eq_bind, Option.bind_some]
  dsimp only
  rw [hr, Option.bind_eq_bind, Option.bind_some]
  cases r with
  | some n =>
    have hn := hids n (hmem n rfl)
    obtain ⟨s', hs', h', hb'⟩ := h.exists_removeNew hb hn
    exact ⟨s', n, hs', h', hn, hb'⟩
  | none =>
    have hpos : 0 < (vNew.sort (· ≤ ·)).length := by
      rw [Finset.length_sort]
      exact hne.card_pos
    obtain ⟨n, hoff, hn⟩ := @exists_oldestOf s
      ((List.range 4).map fun i => rand i % (vNew.sort (· ≤ ·)).length) 0 (vNew.sort (· ≤ ·)) (-1)
      (· ∈ vNew) hp hids (fun hne => absurd rfl hne) (.inr ⟨_, Nat.mod_lt (rand 0) hpos, by
        rw [Nat.zero_add]
        exact List.mem_map.mpr ⟨0, by decide, rfl⟩⟩)
    obtain ⟨s', hs', h', hb'⟩ := h.exists_removeNew hb hn
    refine ⟨s', n, ?_, h', hn, hb'⟩
    dsimp only
    rw [hoff, Option.bind_eq_bind, Option.bind_some]
    exact hs'

theorem Holds.put (h : Holds env K s (some n)) {b : ℕ} (hb : s.vvNew[b]? = some vNew) (hn : n ∉ vNew)
    (hlt : vNew.card < addrmanNewBucketSize) :
    Holds env K { s with vvNew := s.vvNew.set b (insert n vNew) } none :=
  h.change rfl rfl h.keeps (h.shared.put hb hn hlt) h.own List.length_set rfl h.nTried rfl h.placed

theorem getNewBucket_lt (env : AddrEnv) (nKey : List UInt8) (info : NetService) (src : NetAddr) :
    getNewBucket env nKey info src < addrmanNewBucketCount :=
  Nat.mod_lt _ (by decide)

theorem exists_addToBucket (env : AddrEnv) (nNow : ℤ → ℤ) (rand : Draws) (source : NetAddr)
    (hlength : s.vvNew.length = addrmanNewBucketCount)
    (hin : ∀ c ∈ s.vvNew, n ∈ c → Holds env K s none)
    (hout : Holds env K (s.setInfo n { info with nRefCount := info.nRefCount + 1 }) (some n)) :
    ∃ s', s.addToBucket env nNow rand n info source = some s' ∧ Holds env K s' none := by
  rw [addToBucket]
  dsimp only
  generalize hbucket : getNewBucket env s.nKey info.toNetService source = b
  have hlt : b < s.vvNew.length := hlength ▸ hbucket ▸ getNewBucket_lt _ _ _ _
  have hb : s.vvNew[b]? = some s.vvNew[b] := List.getElem?_eq_getElem hlt
  rw [hb, Option.bind_eq_bind, Option.bind_some]
  by_cases hn : n ∈ s.vvNew[b]
  · rw [if_pos hn]
    exact ⟨s, rfl, hin _ (List.getElem_mem hlt) hn⟩
  rw [if_neg hn]
  by_cases hfull : s.vvNew[b].card = addrmanNewBucketSize
  · obtain ⟨s', m, hs', h', hm, hb'⟩ :=
      hout.exists_shrinkNew nNow rand hb (Finset.card_pos.mp (hfull ▸ (by decide)))
    have hcard : (s.vvNew[b].erase m).card < addrmanNewBucketSize := by
      rw [Finset.card_erase_of_mem hm, hfull]
      decide
    refine ⟨_, ?_, h'.put hb' (fun hmem => hn (Finset.mem_of_mem_erase hmem)) hcard⟩
    rw [if_pos hfull, hs', Option.bind_eq_bind, Option.bind_some, hb', Option.bind_some]
    rfl
  · have hle : s.vvNew[b].card ≤ addrmanNewBucketSize := hout.shared.size _ (List.getElem_mem hlt)
    refine ⟨_, ?_, hout.put hb hn (lt_of_le_of_ne hle hfull)⟩
    rw [if_neg hfull]
    change (s.vvNew[b]?).bind _ = _
    rw [hb, Option.bind_some]
    rfl

theorem Holds.infoOf_nIdCount (h : Holds env K s pending) {β : Type} (f : AddrInfo → β) :
    infoOf f s.mapInfo s.nIdCount = none := by
  by_contra hne
  obtain ⟨x, hx⟩ := Option.ne_none_iff_exists'.mp hne
  obtain ⟨info, hinfo, -⟩ := infoOf_eq_some.mp hx
  exact absurd (h.id _ _ (infoOf_of_lookup hinfo)).2 (lt_irrefl _)

theorem Holds.create (h : Holds env K s none) (info : AddrInfo)
    (haddr : s.mapAddr.lookup info.ip = none) (hpos : info.nRandomPos = s.vRandom.length)
    (hentry : info.entry = ⟨false, 1⟩) (ht : info.Keeps K) :
    Holds env K { s with
      nIdCount := s.nIdCount + 1
      mapInfo := s.mapInfo.insert s.nIdCount info
      mapAddr := s.mapAddr.insert info.ip s.nIdCount
      vRandom := s.vRandom ++ [s.nIdCount]
      nNew := s.nNew + 1 } (some s.nIdCount) := by
  have hnot : ∀ own r, infoOf AddrInfo.entry s.mapInfo s.nIdCount ≠ some ⟨own, r⟩ := by
    intro own r hr
    rw [h.infoOf_nIdCount] at hr
    cases hr
  refine
    { key := h.key, addr := fun a m => ?_,
      random := ?_, shared := ?_, own := ?_, newLength := h.newLength,
      triedLength := h.triedLength, nTried := h.nTried, nNew := ?_,
      keeps := h.keeps_insert _ ht, placed := ?_,
      nIdCount := Int.le_add_one h.nIdCount, id := fun m a hm => ?_ }
  · change (s.mapAddr.insert info.ip s.nIdCount).lookup a = some m ↔
      infoOf (·.ip) (s.mapInfo.insert s.nIdCount info) m = some a
    rw [infoOf_insert]
    by_cases heq : m = s.nIdCount
    · rw [heq, Function.update_self]
      by_cases ha : a = info.ip
      · rw [ha, AList.lookup_insert]
        exact iff_of_true rfl rfl
      · rw [AList.lookup_insert_ne ha]
        refine iff_of_false (fun hlookup => ?_) fun hsame => ha (Option.some.inj hsame).symm
        rw [h.addr, h.infoOf_nIdCount] at hlookup
        cases hlookup
    · rw [Function.update_of_ne heq]
      by_cases ha : a = info.ip
      · rw [ha, AList.lookup_insert, ← h.addr, haddr]
        exact iff_of_false (fun hsame => heq (Option.some.inj hsame).symm) (by simp)
      · rw [AList.lookup_insert_ne ha]
        exact h.addr a m
  · change Indexes (s.vRandom ++ [s.nIdCount])
      (infoOf (·.nRandomPos) (s.mapInfo.insert s.nIdCount info))
    rw [infoOf_insert, hpos]
    exact h.random.concat (h.infoOf_nIdCount _)
  · change SharedBuckets (bucketLimits addrmanNewBucketSize)
      (infoOf AddrInfo.entry (s.mapInfo.insert s.nIdCount info)) s.vvNew _
    rw [infoOf_insert, hentry]
    exact h.shared.new (hnot false) (by decide)
  · change OwnBuckets (bucketLimits addrmanNewBucketSize)
      (infoOf AddrInfo.entry (s.mapInfo.insert s.nIdCount info)) s.vvTried
    rw [infoOf_insert, hentry]
    exact h.own.update (hnot true) fun r hr => (by cases hr)
  · change s.nTried + (s.nNew + 1) = ((s.vRandom ++ [s.nIdCount]).length : ℤ)
    have hcount := h.nNew
    rw [List.length_append, List.length_singleton]
    omega
  · change InHashedBucket env s.nKey (infoOf (·.toNetService) (s.mapInfo.insert s.nIdCount info)) s.vvTried
    rw [infoOf_insert]
    intro b vTried hb m hm x hx
    have hne : m ≠ s.nIdCount := by
      rintro rfl
      obtain ⟨r, hr⟩ := (h.own.mem _).mp (List.mem_flatten.mpr ⟨vTried, List.mem_of_getElem? hb, hm⟩)
      exact hnot true r hr
    rw [Function.update_of_ne hne] at hx
    exact h.placed b vTried hb m hm x hx
  · change 0 ≤ m ∧ m < s.nIdCount + 1
    rw [infoOf_insert] at hm
    by_cases heq : m = s.nIdCount
    · have hnonneg := h.nIdCount
      omega
    · rw [Function.update_of_ne heq] at hm
      have hid := h.id m a hm
      omega

theorem Holds.ask (h : Holds env K s none) (hn : s.mapInfo.lookup n = some info)
    (hnew : info.fInTried = false) (hne : info.nRefCount ≠ addrmanNewBucketsPerAddress) :
    Holds env K (s.setInfo n { info with nRefCount := info.nRefCount + 1 }) (some n) := by
  have hentry := entry_of_new hn hnew
  obtain ⟨hcount, -, hle⟩ := (h.shared.counted n).refs _ hentry
  have hlt : info.nRefCount < (bucketLimits addrmanNewBucketSize).refs := by
    refine lt_of_le_of_ne ?_ hne
    rw [hcount]
    exact_mod_cast hle
  have hinsert : AddrInfo.entry { info with nRefCount := info.nRefCount + 1 } =
      ⟨false, info.nRefCount + 1⟩ := by
    rw [AddrInfo.entry, hnew]
  have hkeeps := h.keeps_of_lookup hn
  exact h.changeInfo hn { info with nRefCount := info.nRefCount + 1 } rfl rfl hkeeps
    (hinsert ▸ h.shared.ask hentry hlt)
    (hinsert ▸ h.own_update_new hn hnew fun r hr => (by cases hr)) rfl rfl h.nTried rfl h.placed

theorem exists_map {x : Option AddrMan} (fNew : Bool) (h : ∃ s', x = some s' ∧ Holds env K s' none) :
    ∃ r s', x.map (fNew, ·) = some (r, s') ∧ Holds env K s' none := by
  obtain ⟨s', rfl, h'⟩ := h
  exact ⟨fNew, s', rfl, h'⟩

theorem Holds.exists_add (h : Holds env K s none) (nAdjustedTime : ℤ) (nNow : ℤ → ℤ)
    (rand : Draws) (addr : NetAddress) (source : NetAddr) (nTimePenalty : ℤ)
    (hK : K ⟨addr.toNetService, source, 0, 0, 0⟩) :
    ∃ fNew s', s.add env nAdjustedTime nNow rand addr source nTimePenalty = some (fNew, s') ∧
      Holds env K s' none := by
  unfold AddrMan.add
  split
  · exact ⟨false, s, rfl, h⟩
  split
  · rename_i n info hfind
    have hn := find_eq_some hfind
    have hkeeps := h.keeps_of_lookup hn
    have h₁ : Holds env K (s.setInfo n (update nAdjustedTime nTimePenalty addr info)) none :=
      h.setInfo hn rfl rfl rfl hkeeps
    have hn₁ : (s.setInfo n (update nAdjustedTime nTimePenalty addr info)).mapInfo.lookup n =
        some (update nAdjustedTime nTimePenalty addr info) := AList.lookup_insert _
    dsimp only
    split_ifs with htime htried hfour hdraw
    · exact ⟨false, _, rfl, h₁⟩
    · exact ⟨false, _, rfl, h₁⟩
    · exact ⟨false, _, rfl, h₁⟩
    · exact ⟨false, _, rfl, h₁⟩
    · exact exists_map false (exists_addToBucket env nNow (fun i => rand (i + 1)) source h₁.newLength
        (fun _ _ _ => h₁) (h₁.ask hn₁ (Bool.eq_false_iff.mpr htried) hfour))
  · rename_i hfind
    unfold AddrMan.create
    dsimp only
    generalize UInt32.ofInt _ = nTime
    have hout := h.create { AddrInfo.ofAddress addr source with
      nRandomPos := s.vRandom.length, nTime := nTime, nRefCount := 0 + 1 }
      (h.find_eq_none hfind) rfl rfl ⟨fun htried => absurd htried Bool.false_ne_true, hK⟩
    have hin : ∀ c ∈ s.vvNew, s.nIdCount ∈ c → False := by
      intro c hc hmem
      obtain ⟨info, hinfo, -⟩ := h.exists_of_mem hc hmem
      exact absurd (h.id _ _ (infoOf_of_lookup hinfo)).2 (lt_irrefl _)
    refine exists_map true (exists_addToBucket env nNow rand source h.newLength
      (fun c hc hmem => (hin c hc hmem).elim) ?_)
    rw [AddrMan.setInfo, AddrMan.setInfo]
    dsimp only
    rw [AList.insert_insert, AList.insert_insert]
    exact hout

theorem not_own_of_new (hinfo : s.mapInfo.lookup n = some info) (hnew : info.fInTried = false)
    (r : ℤ) : infoOf AddrInfo.entry s.mapInfo n ≠ some ⟨true, r⟩ := by
  rw [entry_of_new hinfo hnew]
  exact fun h => by cases h

theorem nRefCount_sub_countP (h : Holds env K s none) (hinfo : s.mapInfo.lookup n = some info)
    (hnew : info.fInTried = false) :
    info.nRefCount - (s.vvNew.countP (n ∈ ·) : ℕ) = 0 := by
  obtain ⟨hcount, -, -⟩ := (h.shared.counted n).refs _ (entry_of_new hinfo hnew)
  rw [refCount, if_neg (by simp), Nat.add_zero] at hcount
  omega

theorem Holds.keep (h : Holds env K s none) (hinfo : s.mapInfo.lookup n = some info)
    (hnew : info.fInTried = false) (hsuccess : info.nLastSuccess ≠ 0) {b : ℕ} {vTried : List ℤ}
    (hb : s.vvTried[b]? = some vTried) (hlt : vTried.length < addrmanTriedBucketSize)
    (hbucket : getTriedBucket env s.nKey info.toNetService = b) :
    Holds env K { s.setInfo n { info with
        nRefCount := info.nRefCount - (s.vvNew.countP (n ∈ ·) : ℕ), fInTried := true } with
      vvNew := s.vvNew.map (·.erase n)
      vvTried := s.vvTried.set b (vTried ++ [n])
      nTried := s.nTried + 1
      nNew := s.nNew - 1 } none := by
  have hentry : AddrInfo.entry { info with
      nRefCount := info.nRefCount - (s.vvNew.countP (n ∈ ·) : ℕ), fInTried := true } =
        ⟨true, 0⟩ := by
    rw [AddrInfo.entry, nRefCount_sub_countP h hinfo hnew]
  refine h.changeInfo hinfo { info with
      nRefCount := info.nRefCount - (s.vvNew.countP (n ∈ ·) : ℕ), fInTried := true } rfl rfl
    ⟨fun _ => hsuccess, (h.keeps_of_lookup hinfo).2⟩ ?_ ?_ (List.length_map _) List.length_set ?_ ?_
    (h.placed.set hb fun m hm => (List.mem_append.mp hm).imp_right fun hlast => ?_)
  · rw [hentry]
    exact h.shared.clear n 0
  · rw [hentry]
    exact h.own.keep (not_own_of_new hinfo hnew) hb hlt
  · rw [(flatten_set_concat hb n).length_eq, List.length_cons, h.nTried]
    rfl
  · omega
  · obtain rfl := List.mem_singleton.mp hlast
    intro x hx
    rw [infoOf_of_lookup hinfo] at hx
    rw [← Option.some.inj hx]
    exact hbucket

/-- An entry takes the place of another one in a tried bucket, and that one is to be put into a new
bucket. -/
theorem Holds.exchange (h : Holds env K s none) (hinfo : s.mapInfo.lookup n = some info)
    (hnew : info.fInTried = false) (hsuccess : info.nLastSuccess ≠ 0) {b i : ℕ}
    {vTried vTried' : List ℤ} (hb : s.vvTried[b]? = some vTried) (hperm : vTried'.Perm vTried)
    {nOld : ℤ} {infoOld : AddrInfo} (hi : vTried'[i]? = some nOld)
    (hOld : s.mapInfo.lookup nOld = some infoOld) (hTried : infoOld.fInTried = true)
    {nNew : ℤ} (hnNew : nNew = s.nNew)
    (hbucket : getTriedBucket env s.nKey info.toNetService = b) :
    Holds env K { s with
      mapInfo := ((s.mapInfo.insert n
        { info with nRefCount := info.nRefCount - (s.vvNew.countP (n ∈ ·) : ℕ) }).insert nOld
        { infoOld with fInTried := false, nRefCount := 1 }).insert n
        { info with
          nRefCount := info.nRefCount - (s.vvNew.countP (n ∈ ·) : ℕ), fInTried := true }
      vvNew := s.vvNew.map (·.erase n)
      vvTried := s.vvTried.set b (vTried'.set i n)
      nTried := s.nTried
      nNew := nNew } (some nOld) := by
  have hne : n ≠ nOld := by
    rintro rfl
    obtain rfl := Option.some.inj (hinfo.symm.trans hOld)
    exact absurd hTried (by rw [hnew]; exact Bool.false_ne_true)
  have hzero := nRefCount_sub_countP h hinfo hnew
  generalize info.nRefCount - (s.vvNew.countP (n ∈ ·) : ℕ) = nRefCount at hzero ⊢
  subst hzero
  have hinfoOf : ∀ {β : Type} (f : AddrInfo → β), infoOf f (((s.mapInfo.insert n
      { info with nRefCount := 0 }).insert nOld { infoOld with fInTried := false, nRefCount := 1 }).insert
        n { info with nRefCount := 0, fInTried := true }) =
      Function.update (Function.update (infoOf f s.mapInfo) nOld
        (some (f { infoOld with fInTried := false, nRefCount := 1 }))) n
          (some (f { info with nRefCount := 0, fInTried := true })) := by
    intro β f
    rw [infoOf_insert, infoOf_insert, infoOf_insert, Function.update_comm hne, Function.update_idem]
  have hsame : ∀ {β : Type} (f : AddrInfo → β),
      f { infoOld with fInTried := false, nRefCount := 1 } = f infoOld →
      f { info with nRefCount := 0, fInTried := true } = f info →
      infoOf f (((s.mapInfo.insert n { info with nRefCount := 0 }).insert nOld
        { infoOld with fInTried := false, nRefCount := 1 }).insert n
          { info with nRefCount := 0, fInTried := true }) = infoOf f s.mapInfo := by
    intro β f hfOld hf
    rw [hinfoOf, hfOld, hf, ← infoOf_of_lookup (f := f) hOld, Function.update_eq_self,
      ← infoOf_of_lookup (f := f) hinfo, Function.update_eq_self]
  refine h.change (hsame _ rfl rfl) (hsame _ rfl rfl) (fun m p hm => ?_) ?_ ?_ (List.length_map _)
    List.length_set ?_ (by rw [hnNew])
    (h.placed.set hb fun m hm => (List.mem_or_eq_of_mem_set hm).imp (hperm.subset ·) fun hlast => ?_)
  · rw [hinfoOf] at hm
    by_cases hmn : m = n
    · rw [hmn, Function.update_self] at hm
      exact (Option.some.inj hm) ▸ ⟨fun _ => hsuccess, (h.keeps_of_lookup hinfo).2⟩
    · rw [Function.update_of_ne hmn] at hm
      by_cases hmOld : m = nOld
      · rw [hmOld, Function.update_self] at hm
        exact (Option.some.inj hm) ▸
          ⟨fun htried => absurd htried Bool.false_ne_true, (h.keeps_of_lookup hOld).2⟩
      · rw [Function.update_of_ne hmOld] at hm
        exact h.keeps m p hm
  · rw [hinfoOf, Function.update_comm hne.symm]
    have hnot : ∀ r, Function.update (infoOf AddrInfo.entry s.mapInfo) n (some ⟨true, 0⟩) nOld ≠
        some ⟨false, r⟩ := by
      intro r hr
      rw [Function.update_of_ne hne.symm, infoOf_of_lookup hOld, AddrInfo.entry, hTried] at hr
      cases hr
    exact (h.shared.clear n 0).new hnot (by decide)
  · rw [hinfoOf]
    exact h.own.exchange (not_own_of_new hinfo hnew) hb hperm hi
  · have hlength := (flatten_set_exchange hb hperm hi n).length_eq
    rw [List.length_cons, List.length_cons] at hlength
    rw [h.nTried, Nat.succ.inj hlength]
  · obtain rfl := hlast
    intro x hx
    rw [infoOf_of_lookup hinfo] at hx
    rw [← Option.some.inj hx]
    exact hbucket

theorem getTriedBucket_lt (env : AddrEnv) (nKey : List UInt8) (info : NetService) :
    getTriedBucket env nKey info < addrmanTriedBucketCount :=
  Nat.mod_lt _ (by decide)

theorem Agrees.exists_of_mem_tried (h : Agrees env newSize K s pending) {vTried : List ℤ}
    (hvTried : vTried ∈ s.vvTried) (hn : n ∈ vTried) :
    ∃ info, s.mapInfo.lookup n = some info ∧ info.fInTried = true := by
  obtain ⟨r, hr⟩ := (h.own.mem n).mp (List.mem_flatten.mpr ⟨vTried, hvTried, hn⟩)
  obtain ⟨info, hinfo, hentry⟩ := infoOf_eq_some.mp hr
  exact ⟨info, hinfo, congrArg Entry.own hentry⟩

theorem Holds.triedBucket (h : Holds env K s pending) {vTried : List ℤ} (hvTried : vTried ∈ s.vvTried) :
    TriedBucket s.lastSuccess vTried where
  nonneg n hn := by
    obtain ⟨info, hinfo, -⟩ := h.exists_of_mem_tried hvTried hn
    exact (h.id n _ (infoOf_of_lookup hinfo)).1
  known n hn := by
    obtain ⟨info, hinfo, -⟩ := h.exists_of_mem_tried hvTried hn
    rw [lastSuccess, hinfo]
    rfl
  nodup := (List.nodup_flatten.mp h.own.nodup).1 vTried hvTried

theorem exists_selectTried {mapInfo : ℤ → Option ℤ} {vTried : List ℤ} (rand : Draws)
    (hb : TriedBucket mapInfo vTried) (hpos : 0 < vTried.length) :
    ∃ search nOld, selectTried mapInfo (fun i => rand i % (vTried.length - i)) vTried = some search ∧
      search.vTried.Perm vTried ∧ search.vTried[search.nOldestPos.toNat]? = some nOld := by
  have hrand : ∀ i < vTried.length, rand i % (vTried.length - i) < vTried.length - i :=
    fun i hi => Nat.mod_lt _ (Nat.sub_pos_of_lt hi)
  obtain ⟨search, hsearch, hreached⟩ :=
    TriedSearch.reached hb hrand (Nat.min_le_right addrmanTriedEntriesInspectOnEvict vTried.length)
  obtain ⟨i, hfirst, -, hposition⟩ :=
    hreached.oldest (Nat.lt_min.mpr ⟨by decide, hpos⟩)
  have hi : i < vTried.length := lt_of_lt_of_le hfirst.lt (Nat.min_le_right _ _)
  have hlt : search.nOldestPos.toNat < search.vTried.length := by
    rw [hposition, Int.toNat_natCast, hreached.perm.length_eq]
    have hdraw := hrand i hi
    omega
  exact ⟨search, _, hsearch, hreached.perm, List.getElem?_eq_getElem hlt⟩

/-- The entry that lost its place goes to the bucket that it belongs to, or where the other one was. -/
theorem exists_moveBack (env : AddrEnv) (hinfo : s.mapInfo.lookup n = some info)
    (hlength : s.vvNew.length = addrmanNewBucketCount) {nOrigin : ℕ} {vOrigin : Finset ℤ}
    (hOrigin : s.vvNew[nOrigin]? = some vOrigin) :
    ∃ (b : ℕ) (vNew : Finset ℤ), s.vvNew[b]? = some vNew ∧
      (vNew.card < addrmanNewBucketSize ∨ b = nOrigin) ∧
      s.moveBack env n nOrigin = some { s.setInfo n { info with fInTried := false, nRefCount := 1 } with
        nNew := s.nNew + 1
        vvNew := s.vvNew.set b (insert n vNew) } := by
  rw [moveBack, hinfo, Option.bind_eq_bind, Option.bind_some]
  dsimp only
  generalize hbucket : getNewBucket env s.nKey info.toNetService info.source = nUBucket
  have hlt : nUBucket < s.vvNew.length := hlength ▸ hbucket ▸ getNewBucket_lt _ _ _ _
  have hb : s.vvNew[nUBucket]? = some s.vvNew[nUBucket] := List.getElem?_eq_getElem hlt
  change ∃ (b : ℕ) (vNew : Finset ℤ), s.vvNew[b]? = some vNew ∧ _ ∧
    (s.vvNew[nUBucket]?).bind _ = _
  rw [hb, Option.bind_some]
  change ∃ (b : ℕ) (vNew : Finset ℤ), s.vvNew[b]? = some vNew ∧ _ ∧ (s.vvNew[nOrigin]?).bind _ = _
  rw [hOrigin, Option.bind_some]
  by_cases hfree : s.vvNew[nUBucket].card < addrmanNewBucketSize
  · refine ⟨nUBucket, _, hb, .inl hfree, ?_⟩
    rw [if_pos hfree]
    rfl
  · refine ⟨nOrigin, vOrigin, hOrigin, .inr rfl, ?_⟩
    rw [if_neg hfree]
    rfl

theorem Holds.exists_makeTried (h : Holds env K s none) (rand : Draws)
    (hinfo : s.mapInfo.lookup n = some info) (hnew : info.fInTried = false)
    (hsuccess : info.nLastSuccess ≠ 0) {nOrigin : ℕ} {vOrigin : Finset ℤ}
    (hOrigin : s.vvNew[nOrigin]? = some vOrigin) (hmem : n ∈ vOrigin) :
    ∃ s', s.makeTried env rand info n nOrigin = some s' ∧ Holds env K s' none := by
  have hzero := nRefCount_sub_countP h hinfo hnew
  rw [makeTried, hOrigin, Option.bind_eq_bind, Option.bind_some, if_neg (not_not.mpr hmem)]
  unfold clearNew
  dsimp only
  rw [if_neg (not_not.mpr hzero)]
  generalize hbucket : getTriedBucket env s.nKey info.toNetService = nKBucket
  have hlt : nKBucket < s.vvTried.length := h.triedLength ▸ hbucket ▸ getTriedBucket_lt _ _ _
  have hb : s.vvTried[nKBucket]? = some s.vvTried[nKBucket] := List.getElem?_eq_getElem hlt
  rw [hb, Option.bind_eq_bind, Option.bind_some]
  by_cases hfree : s.vvTried[nKBucket].length < addrmanTriedBucketSize
  · rw [if_pos hfree]
    exact ⟨_, rfl, h.keep hinfo hnew hsuccess hb hfree hbucket⟩
  rw [if_neg hfree]
  -- otherwise, find an item to evict
  have hpos : 0 < s.vvTried[nKBucket].length := lt_of_lt_of_le (by decide) (not_lt.mp hfree)
  obtain ⟨search, nOld, hsearch, hperm, hOld⟩ :=
    exists_selectTried rand (h.triedBucket (List.getElem_mem hlt)) hpos
  have hOldMem : nOld ∈ s.vvTried[nKBucket] := hperm.subset (List.mem_of_getElem? hOld)
  obtain ⟨infoOld, hinfoOld, hTried⟩ := h.exists_of_mem_tried (List.getElem_mem hlt) hOldMem
  have hne : nOld ≠ n := by
    rintro rfl
    obtain rfl := Option.some.inj (hinfo.symm.trans hinfoOld)
    exact absurd hTried (by rw [hnew]; exact Bool.false_ne_true)
  have hmap : ∀ b, (s.vvNew.map (·.erase n))[b]? =
      (s.vvNew[b]?).map fun c : Finset ℤ => c.erase n :=
    fun b => List.getElem?_map
  obtain ⟨b, vNew, hvNew, hplace, hmove⟩ := exists_moveBack (n := nOld) env
    (s := { s with
      mapInfo := s.mapInfo.insert n
        { info with nRefCount := info.nRefCount - (s.vvNew.countP (n ∈ ·) : ℕ) }
      vvNew := s.vvNew.map (·.erase n)
      nNew := s.nNew - 1 })
    ((AList.lookup_insert_ne hne).trans hinfoOld) ((List.length_map _).trans h.newLength)
    ((hmap nOrigin).trans (congrArg _ hOrigin))
  obtain ⟨c, hc, rfl⟩ := Option.map_eq_some_iff.mp ((hmap b).symm.trans hvNew)
  have hnot : nOld ∉ c.erase n := by
    intro hmemOld
    obtain ⟨info', hinfo', hnew'⟩ :=
      h.exists_of_mem (List.mem_of_getElem? hc) (Finset.mem_of_mem_erase hmemOld)
    obtain rfl := Option.some.inj (hinfo'.symm.trans hinfoOld)
    exact absurd hTried (by rw [hnew']; exact Bool.false_ne_true)
  have hcard : (c.erase n).card < addrmanNewBucketSize := by
    rcases hplace with hlt | rfl
    · exact hlt
    · obtain rfl := Option.some.inj (hc.symm.trans hOrigin)
      rw [Finset.card_erase_of_mem hmem]
      have hle : c.card ≤ addrmanNewBucketSize := h.shared.size c (List.mem_of_getElem? hc)
      have hone : 0 < c.card := Finset.card_pos.mpr ⟨n, hmem⟩
      omega
  have hput := (h.exchange hinfo hnew hsuccess hb hperm hOld hinfoOld hTried
    (Int.sub_add_cancel s.nNew 1) hbucket).put hvNew hnot hcard
  refine ⟨_, ?_, hput⟩
  change (selectTried s.lastSuccess _ _).bind _ = _
  rw [hsearch, Option.bind_some, hOld]
  change (moveBack env { s with
      mapInfo := s.mapInfo.insert n
        { info with nRefCount := info.nRefCount - (s.vvNew.countP (n ∈ ·) : ℕ) }
      vvNew := s.vvNew.map (·.erase n)
      nNew := s.nNew - 1 } nOld nOrigin).bind _ = _
  rw [hmove, Option.bind_some]
  rfl

theorem findBucket_eq_some {nRnd b : ℕ} (h : s.findBucket n nRnd = some b) :
    ∃ vNew, s.vvNew[b]? = some vNew ∧ n ∈ vNew := by
  have hmem := List.find?_some h
  have hrange := List.mem_of_find?_eq_some h
  obtain ⟨m, hm, rfl⟩ := List.mem_map.mp hrange
  have hlt : (m + nRnd) % s.vvNew.length < s.vvNew.length :=
    Nat.mod_lt _ (Nat.zero_lt_of_lt (List.mem_range.mp hm))
  rw [decide_eq_true_iff, List.getD_eq_getElem _ _ hlt] at hmem
  exact ⟨_, List.getElem?_eq_getElem hlt, hmem⟩

theorem Holds.exists_good (h : Holds env K s none) (rand : Draws) (addr : NetService)
    {nTime : ℤ} (hne : nTime ≠ 0) (hmono : ∀ r, K r → K' r)
    (hK : ∀ r, K r → K' { r with nLastTry := nTime, nLastSuccess := nTime, nAttempts := 0 }) :
    ∃ s', s.good env rand addr nTime = some s' ∧ Holds env K' s' none := by
  unfold AddrMan.good
  split
  · exact ⟨s, rfl, h.mono hmono⟩
  rename_i n info hfind
  have hn := find_eq_some hfind
  split
  · exact ⟨s, rfl, h.mono hmono⟩
  dsimp only
  have h₁ : Holds env K' (s.setInfo n { info with
      nLastSuccess := nTime, nLastTry := nTime, nTime := .ofInt nTime, nAttempts := 0 }) none :=
    (h.mono hmono).setInfo hn rfl rfl rfl ⟨fun _ => hne, hK _ (h.keeps_of_lookup hn).2⟩
  split
  · exact ⟨_, rfl, h₁⟩
  rename_i htried
  split
  · exact ⟨_, rfl, h₁⟩
  · rename_i nUBucket hbucket
    obtain ⟨vNew, hvNew, hmem⟩ := findBucket_eq_some hbucket
    exact h₁.exists_makeTried _ (AList.lookup_insert _) (Bool.eq_false_iff.mpr htried) hne hvNew
      hmem

end AddrMan

end Beancash
