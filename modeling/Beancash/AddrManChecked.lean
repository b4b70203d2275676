import Beancash.AddrManSessions
import Mathlib.Algebra.Order.BigOperators.Group.List

namespace Beancash

open BucketTable ByteStream

namespace AddrMan

/-- What `Check_` leaves out: how many buckets there are, how large a tried one may be and which of them
an entry belongs to, that nothing else is in `mapAddr`, and the sizes of the fields. The new buckets may
be of any size, as it is not looked at when they are read. -/
structure Shaped (env : AddrEnv) (s : AddrMan) : Prop where
  key : s.nKey.length = 32
  newLength : s.vvNew.length = addrmanNewBucketCount
  triedLength : s.vvTried.length = addrmanTriedBucketCount
  randomSize : s.vRandom.length < 2 ^ 31
  triedSize : ∀ vTried ∈ s.vvTried, vTried.length ≤ addrmanTriedBucketSize
  addr : ∀ a n, s.mapAddr.lookup a = some n ↔ infoOf (·.ip) s.mapInfo n = some a
  placed : InHashedBucket env s.nKey (infoOf (·.toNetService) s.mapInfo) s.vvTried
  sized : ∀ n info, s.mapInfo.lookup n = some info →
    info.record.Sized ∧ -2 ^ 31 ≤ info.nAttempts ∧ info.nAttempts < 2 ^ 31

/-- What is known of the records then. -/
def Timed (r : AddrRecord) : Prop :=
  (r.Sized ∧ -2 ^ 31 ≤ r.nAttempts ∧ r.nAttempts < 2 ^ 31) ∧ 0 ≤ r.nLastTry ∧ 0 ≤ r.nLastSuccess

theorem Timed.reload {r : AddrRecord} (hr : Timed r) : Timed { r with nLastTry := 0 } :=
  ⟨⟨⟨hr.1.1.ip, hr.1.1.source, hr.1.1.nLastSuccess⟩, hr.1.2⟩, le_refl _, hr.2.2⟩

variable {env : AddrEnv} {s : AddrMan} {n : ℤ} {info : AddrInfo}

theorem checkTried_eq_some {setTried left : Finset ℤ} {vTried : List ℤ}
    (h : checkTried setTried vTried = some left) :
    vTried.Nodup ∧ (∀ n ∈ vTried, n ∈ setTried) ∧ left = setTried \ vTried.toFinset := by
  induction vTried generalizing setTried with
  | nil =>
    obtain rfl := Option.some.inj h
    exact ⟨List.nodup_nil, fun n hn => absurd hn List.not_mem_nil, by simp⟩
  | cons m vTried ih =>
    rw [checkTried] at h
    split_ifs at h with hm
    obtain ⟨hnodup, hmem, hleft⟩ := ih h
    refine ⟨List.nodup_cons.mpr ⟨fun hin => ?_, hnodup⟩, ?_, ?_⟩
    · exact Finset.notMem_erase m setTried (hmem m hin)
    · exact List.forall_mem_cons.mpr ⟨hm, fun n hn => Finset.mem_of_mem_erase (hmem n hn)⟩
    · rw [hleft, List.toFinset_cons, Finset.sdiff_insert, Finset.erase_sdiff_comm]

theorem count_of_checkNew {mapNew left : AList fun _ : ℤ => ℤ} {vNew : List ℤ}
    (h : checkNew mapNew vNew = some left) (n : ℤ) :
    (vNew.count n : ℤ) + (left.lookup n).getD 0 = (mapNew.lookup n).getD 0 := by
  induction vNew generalizing mapNew with
  | nil =>
    obtain rfl := Option.some.inj h
    exact zero_add _
  | cons m vNew ih =>
    rw [checkNew] at h
    cases hlookup : mapNew.lookup m with
    | none =>
      rw [hlookup] at h
      cases h
    | some nRefCount =>
      rw [hlookup] at h
      have htail := ih h
      by_cases heq : n = m
      · subst heq
        have hless : ((if nRefCount - 1 = 0 then mapNew.erase n
            else mapNew.insert n (nRefCount - 1)).lookup n).getD 0 = nRefCount - 1 := by
          split_ifs with hzero
          · rw [AList.lookup_erase, Option.getD_none, hzero]
          · rw [AList.lookup_insert, Option.getD_some]
        rw [hless] at htail
        rw [List.count_cons_self, hlookup, Option.getD_some]
        omega
      · have hsame : (if nRefCount - 1 = 0 then mapNew.erase m
            else mapNew.insert m (nRefCount - 1)).lookup n = mapNew.lookup n := by
          split_ifs
          · exact AList.lookup_erase_ne heq
          · exact AList.lookup_insert_ne heq
        rw [hsame] at htail
        rw [List.count_cons_of_ne (Ne.symm heq), htail]

/-- Nothing is wrong with an entry. -/
structure Checked (s : AddrMan) (n : ℤ) (info : AddrInfo) : Prop where
  tried : info.fInTried = true → info.nLastSuccess ≠ 0 ∧ info.nRefCount = 0
  new : info.fInTried = false → 1 ≤ info.nRefCount ∧ info.nRefCount ≤ 4
  place : 0 ≤ info.nRandomPos ∧ s.vRandom[info.nRandomPos.toNat]? = some n
  times : 0 ≤ info.nLastTry ∧ 0 ≤ info.nLastSuccess

theorem checked_of_checkEntry (h : s.checkEntry n info = 0) : s.Checked n info := by
  rw [checkEntry, addrmanNewBucketsPerAddress] at h
  split_ifs at h with h1 h2 h3 h4 h5 h6 h7 h8
  simp only [not_or, not_lt, not_and, not_not, not_le, ne_eq] at h1 h2 h3 h4 h6 h7 h8
  refine ⟨fun htried => ⟨h1 htried, h2 htried⟩, fun hnew => ?_, ⟨h6.1, h6.2.2⟩, h7, h8⟩
  have hnot : ¬info.fInTried = true := by rw [hnew]; decide
  have hle := h3 hnot
  have hne := h4 hnot
  omega

theorem checked_of_check (h : s.check = 0) :
    (s.vRandom.length : ℤ) = s.nTried + s.nNew ∧
      (∀ n info, s.mapInfo.lookup n = some info → s.Checked n info) ∧ s.checkBuckets = 0 := by
  rw [check] at h
  split_ifs at h with hlength
  cases hfind : (s.infos.map fun p => s.checkEntry p.1 p.2).find? (· ≠ 0) with
  | some nError =>
    rw [hfind] at h
    have hne := List.find?_some hfind
    exact absurd h (of_decide_eq_true hne)
  | none =>
    rw [hfind] at h
    refine ⟨not_not.mp hlength, fun n info hinfo => checked_of_checkEntry ?_, h⟩
    have hentry := List.find?_eq_none.mp hfind _
      (List.mem_map.mpr ⟨(n, info), mem_infos.mpr hinfo, rfl⟩)
    exact not_not.mp fun hne => hentry (decide_eq_true hne)

/-- The entries are counted right, and each is in as many buckets as it says. -/
structure CheckedBuckets (s : AddrMan) : Prop where
  nTried : ((s.infos.filter (·.2.fInTried)).length : ℤ) = s.nTried
  nNew : ((s.infos.filter (!·.2.fInTried)).length : ℤ) = s.nNew
  nodup : s.vvTried.flatten.Nodup
  mem : ∀ n, n ∈ s.vvTried.flatten ↔ n ∈ (s.infos.filter (·.2.fInTried)).map Prod.fst
  count : ∀ n, (s.vvNew.countP (n ∈ ·) : ℤ) =
    (((s.mapInfo.lookup n).filter (!·.fInTried)).map (·.nRefCount)).getD 0

theorem nodup_map_filter (s : AddrMan) (p : ℤ × AddrInfo → Bool) :
    ((s.infos.filter p).map Prod.fst).Nodup :=
  (nodup_infos s).sublist (List.filter_sublist.map Prod.fst)

theorem checkedBuckets_of_checkBuckets (h : s.checkBuckets = 0) : s.CheckedBuckets := by
  rw [checkBuckets] at h
  split_ifs at h with hcard hlength
  cases hset : checkTried ((s.infos.filter (·.2.fInTried)).map Prod.fst).toFinset
      s.vvTried.flatten with
  | none =>
    rw [hset] at h
    cases h
  | some setTried =>
    rw [hset] at h
    dsimp only at h
    split at h
    · cases h
    · rename_i left hleft
      split_ifs at h with hsome hentries
      obtain ⟨hnodup, hmem, hdiff⟩ := checkTried_eq_some hset
      rw [not_not.mp hsome] at hdiff
      have hnone : ∀ n, left.lookup n = none := fun n => by
        rw [AList.lookup_eq_none, AList.mem_keys, AList.keys, not_not.mp hentries]
        exact List.not_mem_nil
      refine ⟨?_, ?_, hnodup, fun n => ⟨fun hn => ?_, fun hn => ?_⟩, fun n => ?_⟩
      · rw [not_not, List.toFinset_card_of_nodup (nodup_map_filter s _), List.length_map] at hcard
        exact hcard
      · rw [not_not, length_foldl_refs (nodup_map_filter s _) fun p _ hin => by simp at hin] at hlength
        rw [← hlength]
        exact congrArg _ (Nat.zero_add _).symm
      · exact List.mem_toFinset.mp (hmem n hn)
      · exact List.mem_toFinset.mp
          ((Finset.sdiff_eq_empty_iff_subset.mp hdiff.symm) (List.mem_toFinset.mpr hn))
      · have hcount := count_of_checkNew hleft n
        rw [hnone, Option.getD_none, add_zero, lookup_refs, count_flatMap_inOrder] at hcount
        exact hcount

theorem indexes_of_checked
    (hcheck : ∀ n info, s.mapInfo.lookup n = some info → s.Checked n info)
    (hlength : s.infos.length = s.vRandom.length) :
    Indexes s.vRandom (infoOf (·.nRandomPos) s.mapInfo) := by
  have hplace : ∀ n info, s.mapInfo.lookup n = some info →
      ∃ i : ℕ, info.nRandomPos = i ∧ s.vRandom[i]? = some n := by
    intro n info hinfo
    obtain ⟨hnonneg, hplace⟩ := (hcheck n info hinfo).place
    exact ⟨info.nRandomPos.toNat, (Int.toNat_of_nonneg hnonneg).symm, hplace⟩
  -- the ids are as many as the places, and each has one
  have hperm : (s.infos.map Prod.fst).Perm s.vRandom := by
    refine (List.subperm_of_subset (nodup_infos s) fun n hn => ?_).perm_of_length_le
      (by rw [List.length_map, hlength])
    obtain ⟨p, hp, rfl⟩ := List.mem_map.mp hn
    obtain ⟨i, -, hi⟩ := hplace p.1 p.2 (mem_infos.mp hp)
    exact List.mem_of_getElem? hi
  have hnodup : s.vRandom.Nodup := hperm.nodup_iff.mp (nodup_infos s)
  refine ⟨fun n z hz => ?_, fun i n hi => ?_⟩
  · obtain ⟨info, hinfo, rfl⟩ := infoOf_eq_some.mp hz
    exact hplace n info hinfo
  · obtain ⟨p, hp, rfl⟩ := List.mem_map.mp (hperm.mem_iff.mpr (List.mem_of_getElem? hi))
    obtain ⟨j, hj, hplaced⟩ := hplace p.1 p.2 (mem_infos.mp hp)
    have hlt := (List.getElem?_eq_some_iff.mp hi).1
    obtain rfl : i = j := (List.getElem?_inj hlt hnodup).mp (hi.trans hplaced.symm)
    rw [infoOf_of_lookup (mem_infos.mp hp), hj]

theorem sharedBuckets_of_checked
    (hcheck : ∀ n info, s.mapInfo.lookup n = some info → s.Checked n info)
    (hbuckets : s.CheckedBuckets) :
    SharedBuckets (bucketLimits (s.vvNew.map Finset.card).sum) (infoOf AddrInfo.entry s.mapInfo)
      s.vvNew none where
  size vNew hvNew :=
    List.single_le_sum (fun _ _ => Nat.zero_le _) _ (List.mem_map_of_mem hvNew)
  counted n := by
    have hcount := hbuckets.count n
    rw [refCount, if_neg (by simp), Nat.add_zero]
    refine ⟨fun r hr => ?_, fun hnone => ?_⟩
    · obtain ⟨info, hinfo, hentry⟩ := infoOf_eq_some.mp hr
      have hnew : info.fInTried = false := congrArg Entry.own hentry
      obtain rfl : info.nRefCount = r := congrArg Entry.refs hentry
      obtain ⟨hone, hle⟩ := (hcheck n info hinfo).new hnew
      simp only [hinfo, Option.filter_some, hnew, Bool.not_false, if_true, Option.map_some,
        Option.getD_some] at hcount
      exact ⟨hcount.symm, by omega, by change s.vvNew.countP (n ∈ ·) ≤ 4; omega⟩
    · cases hinfo : s.mapInfo.lookup n with
      | none =>
        rw [hinfo] at hcount
        exact Int.natCast_eq_zero.mp hcount
      | some info =>
        cases hnew : info.fInTried with
        | false => exact absurd (entry_of_new hinfo hnew) (hnone _)
        | true =>
          simp only [hinfo, Option.filter_some, hnew, Bool.not_true] at hcount
          exact Int.natCast_eq_zero.mp hcount

theorem ownBuckets_of_checked {newSize : ℕ}
    (hcheck : ∀ n info, s.mapInfo.lookup n = some info → s.Checked n info)
    (hbuckets : s.CheckedBuckets)
    (hsize : ∀ vTried ∈ s.vvTried, vTried.length ≤ addrmanTriedBucketSize) :
    OwnBuckets (bucketLimits newSize) (infoOf AddrInfo.entry s.mapInfo) s.vvTried where
  size := hsize
  nodup := hbuckets.nodup
  mem n := by
    rw [hbuckets.mem n, List.mem_map]
    constructor
    · rintro ⟨p, hp, rfl⟩
      obtain ⟨hmem, htried⟩ := List.mem_filter.mp hp
      exact ⟨p.2.nRefCount, by rw [infoOf_of_lookup (mem_infos.mp hmem), AddrInfo.entry, htried]⟩
    · rintro ⟨r, hr⟩
      obtain ⟨info, hinfo, hentry⟩ := infoOf_eq_some.mp hr
      exact ⟨(n, info), List.mem_filter.mpr ⟨mem_infos.mpr hinfo, congrArg Entry.own hentry⟩, rfl⟩
  refs n r hr := by
    obtain ⟨info, hinfo, hentry⟩ := infoOf_eq_some.mp hr
    obtain rfl : info.nRefCount = r := congrArg Entry.refs hentry
    exact ((hcheck n info hinfo).tried (congrArg Entry.own hentry)).2

theorem Agrees.of_check (h : s.Shaped env) (hcheck : s.check = 0) :
    s.Agrees env (s.vvNew.map Finset.card).sum Timed none := by
  obtain ⟨hlength, hchecked, hzero⟩ := checked_of_check hcheck
  have hbuckets := checkedBuckets_of_checkBuckets hzero
  have hinfos : s.infos.length = s.vRandom.length := by
    have hsplit := List.length_eq_length_filter_add (l := s.infos) (·.2.fInTried)
    have htried := hbuckets.nTried
    have hnew := hbuckets.nNew
    omega
  have hflatten : s.vvTried.flatten.Perm ((s.infos.filter (·.2.fInTried)).map Prod.fst) :=
    (List.perm_ext_iff_of_nodup hbuckets.nodup (nodup_map_filter s _)).mpr hbuckets.mem
  exact
    { key := h.key
      addr := h.addr
      random := indexes_of_checked hchecked hinfos
      shared := sharedBuckets_of_checked hchecked hbuckets
      own := ownBuckets_of_checked hchecked hbuckets h.triedSize
      newLength := h.newLength
      triedLength := h.triedLength
      nTried := by rw [hflatten.length_eq, List.length_map, hbuckets.nTried]
      nNew := hlength.symm
      keeps := fun n p hp => by
        obtain ⟨info, hinfo, rfl⟩ := infoOf_eq_some.mp hp
        exact ⟨fun htried => ((hchecked n info hinfo).tried htried).1, h.sized n info hinfo,
          (hchecked n info hinfo).times⟩
      placed := h.placed }

theorem Agrees.exists_copied {newSize : ℕ} (h : s.Agrees env newSize Timed none)
    (hsize : s.vRandom.length < 2 ^ 31) :
    ∃ ρ s', Reads (unserialize env) s.serialize s' ∧ Copied ρ s s' ∧
      s'.Agrees env newSize Timed none := by
  have hlength : s.order.length = s.vRandom.length := ((order_perm s).trans h.infos_perm).length_eq
  obtain ⟨ρ, s', hread, hcopied, h', -⟩ := h.exists_unserialize (hlength ▸ hsize)
    (fun r hr => hr.reload) fun r hr => hr.1
  exact ⟨ρ, s', hread, hcopied, h'⟩

end AddrMan

open AddrMan

/-- A manager in which `Check_` finds nothing wrong is read back from what is written of it under other
ids. -/
theorem unserialize_of_check {env : AddrEnv} {s : AddrMan} (h : s.Shaped env) (hcheck : s.check = 0) :
    ∃ ρ s', Reads (unserialize env) s.serialize s' ∧ Copied ρ s s' ∧ s'.check = 0 := by
  obtain ⟨ρ, s', hread, hcopied, h'⟩ := (Agrees.of_check h hcheck).exists_copied h.randomSize
  exact ⟨ρ, s', hread, hcopied, h'.check_eq fun r hr => hr.2⟩

namespace Sample

def triedInfo : AddrInfo :=
  { attemptedInfo with
    nLastTry := 200, nLastSuccess := 200, nAttempts := 0, nRefCount := 0, fInTried := true }

/-- The one address is in a tried bucket, which may be another one than it belongs to. -/
def triedManager (b : ℕ) : AddrMan where
  nKey := .replicate 32 0
  nIdCount := 1
  mapInfo := AList.singleton 0 triedInfo
  mapAddr := AList.singleton (.replicate 16 1) 0
  vRandom := [0]
  nTried := 1
  vvTried := (List.replicate addrmanTriedBucketCount []).set b [0]
  nNew := 0
  vvNew := .replicate addrmanNewBucketCount ∅

theorem infos_triedManager (b : ℕ) : (triedManager b).infos = [(0, triedInfo)] := by
  have hids : (triedManager b).ids = [0] := Finset.sort_singleton _ _
  rw [infos, hids]
  rfl

theorem flatMap_inOrder_triedManager (b : ℕ) : (triedManager b).vvNew.flatMap inOrder = [] := by
  rw [List.flatMap_eq_nil_iff]
  intro vNew hvNew
  rw [List.eq_of_mem_replicate hvNew]
  exact Finset.sort_empty _

theorem check_triedManager {b : ℕ} (hb : (triedManager b).vvTried.flatten = [0]) :
    (triedManager b).check = 0 := by
  rw [check, infos_triedManager, checkBuckets, infos_triedManager, flatMap_inOrder_triedManager, hb]
  rfl

theorem lookup_triedManager {b : ℕ} {n : ℤ} {info : AddrInfo}
    (h : (triedManager b).mapInfo.lookup n = some info) : n = 0 ∧ info = triedInfo := by
  have hmem := mem_infos (s := triedManager b) (p := (n, info)).mpr h
  rw [infos_triedManager, List.mem_singleton] at hmem
  exact Prod.mk.inj hmem

theorem infoOf_triedManager {β : Type} {f : AddrInfo → β} {b : ℕ} {n : ℤ} {x : β} :
    infoOf f (triedManager b).mapInfo n = some x ↔ n = 0 ∧ f triedInfo = x := by
  rw [infoOf_eq_some]
  constructor
  · rintro ⟨info, hinfo, hx⟩
    obtain ⟨hn, rfl⟩ := lookup_triedManager hinfo
    exact ⟨hn, hx⟩
  · rintro ⟨rfl, hx⟩
    exact ⟨triedInfo, AList.mem_lookup_iff.mpr List.mem_cons_self, hx⟩

theorem shaped_triedManager : (triedManager 0).Shaped oneBucket where
  key := List.length_replicate
  newLength := List.length_replicate
  triedLength := by rw [triedManager, List.length_set, List.length_replicate]
  randomSize := by decide
  triedSize vTried hvTried := by
    rcases List.mem_or_eq_of_mem_set hvTried with hmem | rfl
    · rw [List.eq_of_mem_replicate hmem]
      exact Nat.zero_le _
    · decide
  addr a n := by
    rw [infoOf_triedManager, ← Option.mem_def, AList.mem_lookup_iff]
    constructor
    · intro h
      obtain ⟨rfl, rfl⟩ := Sigma.mk.inj_iff.mp (List.mem_singleton.mp h)
      exact ⟨rfl, rfl⟩
    · rintro ⟨rfl, rfl⟩
      exact List.mem_cons_self
  placed b vTried hb n hn x hx := by
    rcases Nat.eq_zero_or_pos b with rfl | hpos
    · rfl
    · rw [triedManager, List.getElem?_set_ne hpos.ne, List.getElem?_replicate] at hb
      split_ifs at hb
      obtain rfl := Option.some.inj hb
      exact absurd hn List.not_mem_nil
  sized n info hinfo := by
    obtain ⟨-, rfl⟩ := lookup_triedManager hinfo
    exact ⟨⟨rfl, rfl, by decide⟩, by decide⟩

end Sample

open Sample in
theorem unserialize_of_check_tried : ∃ ρ s',
    Reads (unserialize oneBucket) (triedManager 0).serialize s' ∧ Copied ρ (triedManager 0) s' ∧
      s'.check = 0 :=
  unserialize_of_check shaped_triedManager (check_triedManager rfl)

open Sample in
/-- `Check_` takes no notice of the bucket a tried address is in, and the address is read back into the
one it belongs to. -/
theorem unserialize_misplaced : (triedManager 1).check = 0 ∧
    ∃ s', Reads (unserialize oneBucket) (triedManager 1).serialize s' ∧
      ¬∃ ρ, Copied ρ (triedManager 1) s' := by
  refine ⟨check_triedManager rfl, ?_⟩
  obtain ⟨ρ, s', hread, hcopied, -⟩ :=
    (Agrees.of_check shaped_triedManager (check_triedManager rfl)).exists_copied (by decide)
  have hserialize : (triedManager 1).serialize = (triedManager 0).serialize := rfl
  refine ⟨s', hserialize ▸ hread, ?_⟩
  rintro ⟨ρ', hcopied'⟩
  have hfirst : (triedManager 0).vvTried = [0] :: List.replicate 63 [] := rfl
  have hsecond : (triedManager 1).vvTried = [] :: [0] :: List.replicate 62 [] := rfl
  obtain ⟨vTried, tl, hperm, -, hs'⟩ := List.forall₂_cons_right_iff.mp (hfirst ▸ hcopied.tried)
  obtain ⟨vTried', tl', hempty, -, hs''⟩ := List.forall₂_cons_right_iff.mp (hsecond ▸ hcopied'.tried)
  obtain ⟨rfl, -⟩ := List.cons.inj (hs'.symm.trans hs'')
  exact absurd (hperm.symm.trans hempty).length_eq Nat.one_ne_zero

end Beancash
