import Beancash.AddrManReload

namespace Beancash

open ByteStream BucketTable

namespace AddrMan

/-- `s'` is `s` under other ids. The times of the last tries are forgotten, and the order of the entries
is another one. -/
structure Copied (ρ : ℤ → ℤ) (s s' : AddrMan) : Prop where
  nKey : s'.nKey = s.nKey
  nTried : s'.nTried = s.nTried
  nNew : s'.nNew = s.nNew
  inj : ∀ m ∈ s.mapInfo, ∀ n ∈ s.mapInfo, ρ m = ρ n → m = n
  info : ∀ z info', s'.mapInfo.lookup z = some info' ↔ ∃ n info, s.mapInfo.lookup n = some info ∧
    z = ρ n ∧ info' = { info with nLastTry := 0, nRandomPos := ρ n }
  addr : ∀ a z, s'.mapAddr.lookup a = some z ↔ ∃ n, s.mapAddr.lookup a = some n ∧ z = ρ n
  random : s'.vRandom.Perm (s.vRandom.map ρ)
  new : s'.vvNew = s.vvNew.map (·.image ρ)
  tried : List.Forall₂ (fun vTried' vTried => vTried'.Perm (vTried.map ρ)) s'.vvTried s.vvTried

theorem flatten_perm {lists lists' : List (List ℤ)} {ρ : ℤ → ℤ}
    (h : List.Forall₂ (fun l' l => l'.Perm (l.map ρ)) lists' lists) :
    lists'.flatten.Perm (lists.flatten.map ρ) := by
  induction h with
  | nil => exact List.Perm.refl _
  | cons hl _ ih =>
    rw [List.flatten_cons, List.flatten_cons, List.map_append]
    exact hl.append ih

section Copied

variable {env : AddrEnv} {newSize : ℕ} {K : AddrRecord → Prop} {ρ : ℤ → ℤ} {s s' : AddrMan} {n z : ℤ}

theorem mem_of_infoOf {β : Type} {f : AddrInfo → β} {x : β} (h : infoOf f s.mapInfo n = some x) :
    n ∈ s.mapInfo := by
  obtain ⟨info, hinfo, -⟩ := infoOf_eq_some.mp h
  exact AList.lookup_isSome.mp (hinfo ▸ rfl)

namespace Copied

theorem infoOf (h : Copied ρ s s') {β : Type} {f : AddrInfo → β}
    (hf : ∀ info nRandomPos, f { info with nLastTry := 0, nRandomPos := nRandomPos } = f info) (x : β) :
    infoOf f s'.mapInfo z = some x ↔ ∃ n, Beancash.infoOf f s.mapInfo n = some x ∧ z = ρ n := by
  rw [infoOf_eq_some]
  constructor
  · rintro ⟨info', hinfo', rfl⟩
    obtain ⟨n, info, hinfo, rfl, rfl⟩ := (h.info z info').mp hinfo'
    exact ⟨n, infoOf_eq_some.mpr ⟨info, hinfo, (hf info _).symm⟩, rfl⟩
  · rintro ⟨n, hn, rfl⟩
    obtain ⟨info, hinfo, rfl⟩ := infoOf_eq_some.mp hn
    exact ⟨_, (h.info _ _).mpr ⟨n, info, hinfo, rfl, rfl⟩, hf info _⟩

theorem mem_new (h : Copied ρ s s') (hs : s.Agrees env newSize K none) {c : Finset ℤ} (hc : c ∈ s.vvNew)
    (hn : n ∈ s.mapInfo) : ρ n ∈ c.image ρ ↔ n ∈ c := by
  rw [Finset.mem_image]
  constructor
  · rintro ⟨m, hm, heq⟩
    obtain ⟨info, hinfo, -⟩ := hs.exists_of_mem hc hm
    rwa [← h.inj m (AList.lookup_isSome.mp (hinfo ▸ rfl)) n hn heq]
  · exact fun hmem => ⟨n, hmem, rfl⟩

theorem refCount_eq (h : Copied ρ s s') (hs : s.Agrees env newSize K none) (hn : n ∈ s.mapInfo) :
    refCount s'.vvNew none (ρ n) = refCount s.vvNew none n := by
  rw [refCount, refCount, if_neg (by simp), if_neg (by simp), h.new, List.countP_map]
  refine congrArg (· + 0) (List.countP_congr fun c hc => ?_)
  simpa using h.mem_new hs hc hn

theorem sharedBuckets (h : Copied ρ s s') (hs : s.Agrees env newSize K none) :
    SharedBuckets (bucketLimits newSize) (Beancash.infoOf AddrInfo.entry s'.mapInfo) s'.vvNew none where
  size c' hc' := by
    rw [h.new] at hc'
    obtain ⟨c, hc, rfl⟩ := List.mem_map.mp hc'
    exact Finset.card_image_le.trans (hs.shared.size c hc)
  counted z := by
    refine ⟨fun r hr => ?_, fun hnone => ?_⟩
    · obtain ⟨n, hn, rfl⟩ := (h.infoOf (fun _ _ => rfl) _).mp hr
      rw [h.refCount_eq hs (mem_of_infoOf hn)]
      exact (hs.shared.counted n).refs r hn
    · rw [refCount, if_neg (by simp), Nat.add_zero, List.countP_eq_zero]
      intro c' hc' hz
      rw [h.new] at hc'
      obtain ⟨c, hc, rfl⟩ := List.mem_map.mp hc'
      obtain ⟨n, hn, rfl⟩ := Finset.mem_image.mp (of_decide_eq_true hz)
      obtain ⟨r, hr⟩ := hs.shared.exists_of_mem hc hn
      exact hnone r ((h.infoOf (fun _ _ => rfl) _).mpr ⟨n, hr, rfl⟩)

theorem ownBuckets (h : Copied ρ s s') (hs : s.Agrees env newSize K none) :
    OwnBuckets (bucketLimits newSize) (Beancash.infoOf AddrInfo.entry s'.mapInfo) s'.vvTried where
  size l' hl' := by
    obtain ⟨b, hb⟩ := List.mem_iff_getElem?.mp hl'
    obtain ⟨hlt', rfl⟩ := List.getElem?_eq_some_iff.mp hb
    have hlt : b < s.vvTried.length := h.tried.length_eq ▸ hlt'
    have hperm : s'.vvTried[b].Perm (s.vvTried[b].map ρ) := h.tried.get hlt' hlt
    rw [hperm.length_eq, List.length_map]
    exact hs.own.size _ (List.getElem_mem hlt)
  mem z := by
    rw [(flatten_perm h.tried).mem_iff, List.mem_map]
    constructor
    · rintro ⟨n, hn, rfl⟩
      obtain ⟨r, hr⟩ := (hs.own.mem n).mp hn
      exact ⟨r, (h.infoOf (fun _ _ => rfl) _).mpr ⟨n, hr, rfl⟩⟩
    · rintro ⟨r, hr⟩
      obtain ⟨n, hn, rfl⟩ := (h.infoOf (fun _ _ => rfl) _).mp hr
      exact ⟨n, (hs.own.mem n).mpr ⟨r, hn⟩, rfl⟩
  nodup := by
    refine (flatten_perm h.tried).nodup_iff.mpr (hs.own.nodup.map_on fun m hm n hn heq => ?_)
    obtain ⟨r, hr⟩ := (hs.own.mem m).mp hm
    obtain ⟨r', hr'⟩ := (hs.own.mem n).mp hn
    exact h.inj m (mem_of_infoOf hr) n (mem_of_infoOf hr') heq
  refs z r hr := by
    obtain ⟨n, hn, rfl⟩ := (h.infoOf (fun _ _ => rfl) _).mp hr
    exact hs.own.refs n r hn

theorem inHashedBucket (h : Copied ρ s s') (hs : s.Agrees env newSize K none) :
    InHashedBucket env s'.nKey (Beancash.infoOf (·.toNetService) s'.mapInfo) s'.vvTried := by
  intro b l' hl' z hz x hx
  obtain ⟨hlt', rfl⟩ := List.getElem?_eq_some_iff.mp hl'
  have hlt : b < s.vvTried.length := h.tried.length_eq ▸ hlt'
  obtain ⟨n, hn, rfl⟩ := List.mem_map.mp ((h.tried.get hlt' hlt).mem_iff.mp hz)
  obtain ⟨m, hm, heq⟩ := (h.infoOf (fun _ _ => rfl) _).mp hx
  obtain ⟨r, hr⟩ := (hs.own.mem n).mp (List.mem_flatten.mpr ⟨_, List.getElem_mem hlt, hn⟩)
  obtain rfl := h.inj n (mem_of_infoOf hr) m (mem_of_infoOf hm) heq
  rw [h.nKey]
  exact hs.placed b _ (List.getElem?_eq_getElem hlt) n hn x hm

theorem agrees (h : Copied ρ s s') (hs : s.Agrees env newSize K none)
    (hK : ∀ r, K r → K { r with nLastTry := 0 }) {order : List ℤ} (hρ : Renames ρ order)
    (horder : ∀ n, n ∈ order ↔ n ∈ s.mapInfo) (hrandom : s'.vRandom = order.map ρ) :
    s'.Agrees env newSize K none where
  key := h.nKey ▸ hs.key
  addr a z := by
    rw [h.addr, h.infoOf fun _ _ => rfl]
    exact exists_congr fun n => and_congr_left fun _ => hs.addr a n
  random := by
    rw [hrandom]
    constructor
    · intro z p hz
      obtain ⟨info', hinfo', rfl⟩ := infoOf_eq_some.mp hz
      obtain ⟨n, info, hinfo, rfl, rfl⟩ := (h.info z info').mp hinfo'
      obtain ⟨i, hi⟩ := List.mem_iff_getElem?.mp
        ((horder n).mpr (AList.lookup_isSome.mp (hinfo ▸ rfl)))
      exact ⟨i, hρ.pos i n hi, by rw [List.getElem?_map, hi]; rfl⟩
    · intro i z hz
      rw [List.getElem?_map] at hz
      obtain ⟨n, hn, rfl⟩ := Option.map_eq_some_iff.mp hz
      obtain ⟨info, hinfo⟩ := Option.isSome_iff_exists.mp
        (AList.lookup_isSome.mpr ((horder n).mp (List.mem_of_getElem? hn)))
      rw [infoOf_of_lookup ((h.info _ _).mpr ⟨n, info, hinfo, rfl, rfl⟩), hρ.pos i n hn]
  shared := h.sharedBuckets hs
  own := h.ownBuckets hs
  newLength := by rw [h.new, List.length_map, hs.newLength]
  triedLength := h.tried.length_eq.trans hs.triedLength
  nTried := by
    rw [h.nTried, hs.nTried, (flatten_perm h.tried).length_eq, List.length_map]
  nNew := by
    rw [h.nTried, h.nNew, hs.nNew, h.random.length_eq, List.length_map]
  keeps z p hz := by
    obtain ⟨info', hinfo', rfl⟩ := infoOf_eq_some.mp hz
    obtain ⟨n, info, hinfo, rfl, rfl⟩ := (h.info z info').mp hinfo'
    obtain ⟨hsuccess, hrecord⟩ := hs.keeps_of_lookup hinfo
    exact ⟨hsuccess, hK _ hrecord⟩
  placed := h.inHashedBucket hs

theorem id (h : Copied ρ s s') {order : List ℤ} (hρ : Renames ρ order)
    (horder : ∀ n, n ∈ order ↔ n ∈ s.mapInfo) (a : NetAddr)
    (hz : Beancash.infoOf (·.ip) s'.mapInfo z = some a) : 0 ≤ z ∧ z < order.length := by
  obtain ⟨n, hn, rfl⟩ := (h.infoOf (fun _ _ => rfl) _).mp hz
  obtain ⟨i, hi⟩ := List.mem_iff_getElem?.mp ((horder n).mpr (mem_of_infoOf hn))
  have hlt := (List.getElem?_eq_some_iff.mp hi).1
  rw [hρ.pos i n hi]
  omega

end Copied

end Copied

section Order

variable {env : AddrEnv} {newSize : ℕ} {K : AddrRecord → Prop} {s : AddrMan} {n : ℤ} {info : AddrInfo}

theorem Agrees.filter_refs (h : s.Agrees env newSize K none) :
    s.infos.filter (·.2.nRefCount ≠ 0) = s.infos.filter (!·.2.fInTried) := by
  refine List.filter_congr fun p hp => ?_
  have hinfo := mem_infos.mp hp
  cases htried : p.2.fInTried with
  | true =>
    have hzero : p.2.nRefCount = 0 :=
      h.own.refs p.1 _ (by rw [infoOf_of_lookup hinfo, AddrInfo.entry, htried])
    simp [hzero]
  | false =>
    obtain ⟨hcount, hone, -⟩ := (h.shared.counted p.1).refs _ (entry_of_new hinfo htried)
    have hne : p.2.nRefCount ≠ 0 := by omega
    simp [hne]

/-- The ids in the order of the file. -/
def order (s : AddrMan) : List ℤ :=
  (s.infos.filter (!·.2.fInTried)).map Prod.fst ++ (s.infos.filter (·.2.fInTried)).map Prod.fst

theorem order_perm (s : AddrMan) : s.order.Perm (s.infos.map Prod.fst) := by
  rw [order, ← List.map_append]
  have hperm := List.filter_append_perm (fun p : ℤ × AddrInfo => p.2.fInTried) s.infos
  exact (List.perm_append_comm.trans hperm).map Prod.fst

theorem nodup_order (s : AddrMan) : s.order.Nodup := (order_perm s).nodup_iff.mpr (nodup_infos s)

theorem mem_order : n ∈ s.order ↔ n ∈ s.mapInfo := by
  rw [(order_perm s).mem_iff, List.mem_map]
  constructor
  · rintro ⟨p, hp, rfl⟩
    exact AList.lookup_isSome.mp (mem_infos.mp hp ▸ rfl)
  · intro hn
    obtain ⟨info, hinfo⟩ := Option.isSome_iff_exists.mp (AList.lookup_isSome.mpr hn)
    exact ⟨(n, info), mem_infos.mpr hinfo, rfl⟩

theorem Agrees.triedOf_perm (h : s.Agrees env newSize K none) {b : ℕ} {vTried : List ℤ}
    (hb : s.vvTried[b]? = some vTried) : (triedOf env s b s.order).Perm vTried := by
  have hnodup : vTried.Nodup := (List.nodup_flatten.mp h.own.nodup).1 vTried (List.mem_of_getElem? hb)
  have hfile : (triedOf env s b s.order).Nodup := (nodup_order s).filter _
  refine (List.perm_ext_iff_of_nodup hfile hnodup).mpr fun n => ?_
  rw [triedOf, List.mem_filter, mem_order, Option.any_eq_true]
  constructor
  · rintro ⟨-, info, hinfo, htried⟩
    rw [Bool.and_eq_true, beq_iff_eq] at htried
    have hflat : n ∈ s.vvTried.flatten := (h.own.mem n).mpr
      ⟨info.nRefCount, by rw [infoOf_of_lookup hinfo, AddrInfo.entry, htried.1]⟩
    obtain ⟨l, hl, hn⟩ := List.mem_flatten.mp hflat
    obtain ⟨b', hb'⟩ := List.mem_iff_getElem?.mp hl
    have hplaced := h.placed b' l hb' n hn _ (infoOf_of_lookup hinfo)
    rw [← hplaced, htried.2, hb] at hb'
    rwa [Option.some.inj hb']
  · intro hn
    obtain ⟨info, hinfo, htried⟩ := h.exists_of_mem_tried (List.mem_of_getElem? hb) hn
    have hplaced := h.placed b vTried hb n hn _ (infoOf_of_lookup hinfo)
    exact ⟨AList.lookup_isSome.mp (hinfo ▸ rfl), info, hinfo,
      by rw [htried, hplaced, beq_self_eq_true]; rfl⟩

theorem Agrees.length_triedOf_le (h : s.Agrees env newSize K none) (b : ℕ) :
    (triedOf env s b s.order).length ≤ addrmanTriedBucketSize := by
  by_cases hb : b < s.vvTried.length
  · rw [(h.triedOf_perm (List.getElem?_eq_getElem hb)).length_eq]
    exact h.own.size _ (List.getElem_mem hb)
  · have hnil : triedOf env s b s.order = [] := by
      rw [triedOf, List.filter_eq_nil_iff]
      intro n _ htried
      obtain ⟨info, -, hinfo⟩ := (Option.any_eq_true _ _).mp htried
      rw [Bool.and_eq_true, beq_iff_eq] at hinfo
      rw [h.triedLength, ← hinfo.2] at hb
      exact hb (getTriedBucket_lt env s.nKey info.toNetService)
    rw [hnil]
    exact Nat.zero_le _

theorem Holds.length_order_le (h : s.Holds env K none) : s.order.length ≤ 256 * 64 + 64 * 64 := by
  have htried : ((s.infos.filter (·.2.fInTried)).map Prod.fst).length ≤ 64 * 64 := by
    rw [h.tried_perm.length_eq]
    exact (length_flatten_le h.own.size).trans_eq (congrArg (· * 64) h.triedLength)
  have hsub : ((s.infos.filter (!·.2.fInTried)).map Prod.fst) ⊆
      (s.vvNew.map inOrder).flatten := by
    intro n hn
    obtain ⟨p, hp, rfl⟩ := List.mem_map.mp hn
    obtain ⟨hinfo, hnew⟩ := List.mem_filter.mp hp
    rw [Bool.not_eq_true'] at hnew
    obtain ⟨hcount, hone, -⟩ :=
      (h.shared.counted p.1).refs _ (entry_of_new (mem_infos.mp hinfo) hnew)
    rw [refCount, if_neg (by simp), Nat.add_zero] at hone
    obtain ⟨c, hc, hmem⟩ := List.countP_pos_iff.mp hone
    exact List.mem_flatten.mpr ⟨_, List.mem_map.mpr ⟨c, hc, rfl⟩,
      (Finset.mem_sort _).mpr (of_decide_eq_true hmem)⟩
  have hnodup : ((s.infos.filter (!·.2.fInTried)).map Prod.fst).Nodup :=
    (nodup_infos s).sublist (List.filter_sublist.map Prod.fst)
  have hflat : (s.vvNew.map inOrder).flatten.length ≤ 256 * 64 := by
    refine (length_flatten_le (n := 64) fun l hl => ?_).trans_eq ?_
    · obtain ⟨c, hc, rfl⟩ := List.mem_map.mp hl
      rw [Finset.length_sort]
      exact h.shared.size c hc
    · rw [List.length_map, h.newLength]
      rfl
  have hnew := (hnodup.subperm hsub).length_le.trans hflat
  rw [order, List.length_append]
  omega

theorem Agrees.card_le (h : s.Agrees env newSize K none) {c : Finset ℤ} (hc : c ∈ s.vvNew) :
    c.card ≤ s.order.length := by
  have hsub : c ⊆ s.order.toFinset := fun n hn => by
    obtain ⟨info, hinfo, -⟩ := h.exists_of_mem hc hn
    exact List.mem_toFinset.mpr (mem_order.mpr (AList.lookup_isSome.mp (hinfo ▸ rfl)))
  exact (Finset.card_le_card hsub).trans s.order.toFinset_card_le

end Order

section Unserialize

variable {env : AddrEnv} {newSize : ℕ} {K : AddrRecord → Prop} {s : AddrMan}

theorem reread_empty (ρ : ℤ → ℤ) (s : AddrMan) (nTried nNew : ℤ) :
    Reread ρ s [] { empty s.nKey with nTried := nTried, nNew := nNew } where
  nKey := rfl
  info z info' := by
    refine iff_of_false (fun h => by cases h) ?_
    rintro ⟨n, hn, -⟩
    exact List.not_mem_nil hn
  addr a z := by
    refine iff_of_false (fun h => by cases h) ?_
    rintro ⟨n, hn, -⟩
    exact List.not_mem_nil hn
  random := rfl

theorem rereadTried_new (env : AddrEnv) (ρ : ℤ → ℤ) (s : AddrMan) :
    rereadTried env ρ s ((s.infos.filter (!·.2.fInTried)).map Prod.fst) =
      List.replicate addrmanTriedBucketCount [] := by
  refine List.eq_replicate_iff.mpr ⟨by rw [rereadTried, List.length_map, List.length_range], ?_⟩
  intro l hl
  obtain ⟨b, -, rfl⟩ := List.mem_map.mp hl
  rw [List.map_eq_nil_iff, triedOf, List.filter_eq_nil_iff]
  intro n hn
  obtain ⟨p, hp, rfl⟩ := List.mem_map.mp hn
  obtain ⟨hinfo, hnew⟩ := List.mem_filter.mp hp
  rw [Bool.not_eq_true'] at hnew
  simp [mem_infos.mp hinfo, hnew]

theorem Agrees.lookup_mapUnkIds (h : s.Agrees env newSize K none) (nVersion : Int32) {c : Finset ℤ}
    (hc : c ∈ s.vvNew) {n : ℤ} (hn : n ∈ c) :
    (writeNew nVersion s.nNew s.infos 0 ∅).2.lookup n = some (s.order.idxOf n : ℤ) := by
  obtain ⟨info, hinfo, hnew⟩ := h.exists_of_mem hc hn
  have hmem : n ∈ (s.infos.filter (!·.2.fInTried)).map Prod.fst :=
    List.mem_map.mpr ⟨(n, info), List.mem_filter.mpr ⟨mem_infos.mpr hinfo, by simp [hnew]⟩, rfl⟩
  obtain ⟨i, hi⟩ := List.mem_iff_getElem?.mp hmem
  have hlength : 0 + ((s.infos.filter (·.2.nRefCount ≠ 0)).length : ℤ) = s.nNew := by
    rw [h.filter_refs, Int.zero_add, h.length_new]
  have hpos : s.order[i]? = some n :=
    (List.getElem?_append_left (List.getElem?_eq_some_iff.mp hi).1).trans hi
  rw [(writeNew_eq nVersion (nodup_infos s) 0 hlength ∅).2 i n (by rw [h.filter_refs]; exact hi),
    Int.zero_add]
  exact congrArg some ((renames_idxOf (nodup_order s)).pos i n hpos).symm

theorem Agrees.nRefCount_eq (h : s.Agrees env newSize K none) {n : ℤ} {info : AddrInfo}
    (hinfo : s.mapInfo.lookup n = some info) : info.nRefCount = refCount s.vvNew none n := by
  cases htried : info.fInTried with
  | true =>
    have hentry : infoOf AddrInfo.entry s.mapInfo n = some ⟨true, info.nRefCount⟩ := by
      rw [infoOf_of_lookup hinfo, AddrInfo.entry, htried]
    rw [(h.shared.counted n).zero fun r hr => by rw [hentry] at hr; cases hr]
    exact h.own.refs n _ hentry
  | false => exact ((h.shared.counted n).refs _ (entry_of_new hinfo htried)).1

theorem Agrees.forall₂_rereadTried (h : s.Agrees env newSize K none) (ρ : ℤ → ℤ) :
    List.Forall₂ (fun vTried' vTried => vTried'.Perm (vTried.map ρ)) (rereadTried env ρ s s.order)
      s.vvTried := by
  have hlength : (rereadTried env ρ s s.order).length = s.vvTried.length := by
    rw [rereadTried, List.length_map, List.length_range, h.triedLength]
  refine List.forall₂_iff_get.mpr ⟨hlength, fun b hb hb' => ?_⟩
  have hget : (rereadTried env ρ s s.order)[b]? = some ((triedOf env s b s.order).map ρ) :=
    rereadTried_getElem? (h.triedLength ▸ hb')
  rw [List.getElem?_eq_getElem hb, Option.some.injEq] at hget
  rw [List.get_eq_getElem, List.get_eq_getElem, hget]
  exact (h.triedOf_perm (List.getElem?_eq_getElem hb')).map ρ

theorem Agrees.exists_unserialize (h : s.Agrees env newSize K none) (hlt : s.order.length < 2 ^ 31)
    (hK : ∀ r, K r → K { r with nLastTry := 0 })
    (hsized : ∀ r, K r → r.Sized ∧ -2 ^ 31 ≤ r.nAttempts ∧ r.nAttempts < 2 ^ 31) :
    ∃ ρ s', Reads (unserialize env) s.serialize s' ∧ Copied ρ s s' ∧ s'.Agrees env newSize K none ∧
      0 ≤ s'.nIdCount ∧
        ∀ z a, infoOf (·.ip) s'.mapInfo z = some a → 0 ≤ z ∧ z < s'.nIdCount := by
  have hρ := renames_idxOf (nodup_order s)
  generalize hdef : (fun n => (s.order.idxOf n : ℤ)) = ρ at hρ
  have hstorable : ∀ p ∈ s.infos, Storable s p := fun p hp => by
    obtain ⟨hlookup, hAttempts⟩ := hsized _ (h.keeps_of_lookup (mem_infos.mp hp)).2
    exact ⟨mem_infos.mp hp, hlookup, hAttempts⟩
  have hint : ∀ n ∈ s.order, -2 ^ 31 ≤ ρ n ∧ ρ n < 2 ^ 31 := by
    intro n hn
    obtain ⟨i, hi⟩ := List.mem_iff_getElem?.mp hn
    have hilt := (List.getElem?_eq_some_iff.mp hi).1
    rw [hρ.pos i n hi]
    omega
  have hnNew := h.length_new
  have hnTried := h.length_tried
  have horder : s.order.length =
      (s.infos.filter (!·.2.fInTried)).length + (s.infos.filter (·.2.fInTried)).length := by
    rw [order, List.length_append, List.length_map, List.length_map]
  -- the entries
  obtain ⟨mapInfo₁, mapAddr₁, vRandom₁, hread₁, h₁⟩ := exists_readNew 0 h hρ
    (s.infos.filter (!·.2.fInTried)) ((s.infos.filter (·.2.fInTried)).map Prod.fst)
    (fun p hp => hstorable p (List.mem_filter.mp hp).1)
    (fun p hp => (Bool.not_eq_true' _).mp (List.mem_filter.mp hp).2)
    (reread_empty ρ s s.nTried s.nNew) rfl
  rw [List.nil_append] at h₁
  obtain ⟨mapInfo₂, mapAddr₂, vRandom₂, hread₂, h₂⟩ := exists_readTried 0 h hρ h.length_triedOf_le
    (s.infos.filter (·.2.fInTried)) [] { empty s.nKey with
      nTried := s.nTried, nNew := s.nNew, mapInfo := mapInfo₁, mapAddr := mapAddr₁,
      vRandom := vRandom₁, nIdCount := s.nNew }
    (fun p hp => hstorable p (List.mem_filter.mp hp).1) (fun p hp => (List.mem_filter.mp hp).2)
    ⟨h₁.nKey, h₁.info, h₁.addr, h₁.random⟩
    (by rw [List.append_nil]; rfl) (by rw [List.length_map, hnNew]) (rereadTried_new env ρ s).symm
  -- the buckets
  have hcountP : ∀ n, ((0 : ℤ) + s.vvNew.countP (n ∈ ·)) = refCount s.vvNew none n := by
    intro n
    rw [refCount, if_neg (by simp), Nat.add_zero, Int.zero_add]
  obtain ⟨mapInfo₃, hread₃, h₃⟩ := exists_readBuckets (writeNew 0 s.nNew s.infos 0 ∅).2 s.vvNew []
    { empty s.nKey with
      nTried := s.nTried - 0, nNew := s.nNew, mapInfo := mapInfo₂, mapAddr := mapAddr₂,
      vRandom := vRandom₂, nIdCount := s.order.length, vvTried := rereadTried env ρ s s.order }
    (fun c hc n hn => by
      obtain ⟨info, hinfo, -⟩ := h.exists_of_mem hc hn
      refine ⟨mem_order.mpr (AList.lookup_isSome.mp (hinfo ▸ rfl)), ?_⟩
      rw [← hdef]
      exact h.lookup_mapUnkIds 0 hc hn)
    (fun n hn => Option.isSome_iff_exists.mp (AList.lookup_isSome.mpr (mem_order.mp hn)))
    (fun k hk n hn => hρ.inj hk hn) hint
    (fun c hc => lt_of_le_of_lt (h.card_le hc) hlt)
    (fun n hn => by
      have hle : refCount s.vvNew none n ≤ 4 := (h.shared.counted n).le
      rw [hcountP, addrmanNewBucketsPerAddress]
      omega) h₂.info (by rw [h.newLength]; rfl)
  have hreread : ∀ n info, s.mapInfo.lookup n = some info →
      info.reread (ρ n) ((0 : ℤ) + s.vvNew.countP (n ∈ ·)) =
        { info with nLastTry := 0, nRandomPos := ρ n } := by
    intro n info hinfo
    rw [AddrInfo.reread, hcountP, ← h.nRefCount_eq hinfo]
  have hinfo₃ : ∀ z info', mapInfo₃.lookup z = some info' ↔ ∃ n info,
      s.mapInfo.lookup n = some info ∧ z = ρ n ∧
        info' = { info with nLastTry := 0, nRandomPos := ρ n } := by
    intro z info'
    rw [h₃ z info']
    constructor
    · rintro ⟨n, -, info, hinfo, rfl, rfl⟩
      exact ⟨n, info, hinfo, rfl, hreread n info hinfo⟩
    · rintro ⟨n, info, hinfo, rfl, rfl⟩
      exact ⟨n, mem_order.mpr (AList.lookup_isSome.mp (hinfo ▸ rfl)), info, hinfo, rfl,
        (hreread n info hinfo).symm⟩
  have hcopied : Copied ρ s { empty s.nKey with
      nTried := s.nTried - 0, nNew := s.nNew, mapInfo := mapInfo₃, mapAddr := mapAddr₂,
      vRandom := vRandom₂, nIdCount := s.order.length, vvTried := rereadTried env ρ s s.order,
      vvNew := [] ++ s.vvNew.map (·.image ρ) } :=
    { nKey := rfl
      nTried := Int.sub_zero _
      nNew := rfl
      inj := fun m hm n hn => hρ.inj (mem_order.mpr hm) (mem_order.mpr hn)
      info := hinfo₃
      addr := by
        intro a z
        refine (h₂.addr a z).trans ⟨?_, ?_⟩
        · rintro ⟨n, -, hn⟩
          exact ⟨n, hn⟩
        · rintro ⟨n, hn, hz⟩
          exact ⟨n, mem_order.mpr (mem_of_infoOf ((h.addr a n).mp hn)), hn, hz⟩
      random := by
        change vRandom₂.Perm _
        have hrandom : vRandom₂ = s.order.map ρ := h₂.random
        rw [hrandom]
        exact ((order_perm s).trans h.infos_perm).map ρ
      new := rfl
      tried := h.forall₂_rereadTried ρ }
  refine ⟨ρ, _, ?_, hcopied, hcopied.agrees h hK hρ (fun n => mem_order) h₂.random,
    Int.natCast_nonneg _, fun z => hcopied.id hρ fun n => mem_order⟩
  have hfilter := h.filter_refs
  have hkey : s.nKey.length ≤ maxSize := by
    rw [h.key]
    decide
  have hnew := (writeNew_eq 0 (nodup_infos s) 0
    (by rw [hfilter, Int.zero_add, hnNew]) ∅).1
  rw [hfilter] at hnew
  rw [serialize]
  dsimp only
  rw [hnew, writeTried_eq 0 (by rw [Int.zero_add, hnTried])]
  simp only [List.append_assoc]
  refine ((reads_number (by decide)).map _).bind ((reads_unserializeBytes hkey).bind
    ((reads_int (by omega)).bind ((reads_int (by omega)).bind ((reads_int (by decide)).bind ?_))))
  have hother : decide ((addrmanNewBucketCount : ℤ) ≠ addrmanNewBucketCount) = false := by simp
  rw [hother, ← hnNew, ← hnTried, Int.toNat_natCast, Int.toNat_natCast, Int.toNat_natCast, hnNew, hnTried]
  refine Reads.bind hread₁ (Reads.bind hread₂ ?_)
  rw [h.newLength] at hread₃
  exact hread₃

end Unserialize

end AddrMan

open AddrMan

namespace AddrDB

/-- The calls of a session, after which the manager is written and read back. -/
def session (db : AddrDB) (env : AddrEnv) (s : AddrMan) (calls : List (AddrCall × AddrOutcome)) :
    Option AddrMan := do
  let s ← calls.foldlM (AddrMan.step env) s
  db.read env (db.write s)

variable {db : AddrDB} {env : AddrEnv} {T : Prop} {s s' : AddrMan}

theorem run_checksum (db : AddrDB) (data : List UInt8) :
    (do let vchData ← take ((data ++ littleEndian 32 (db.hash data).toNat).length - 32)
        let hashIn ← number 32
        pure (vchData, hashIn) : Read (List UInt8 × ℕ)).run
      (data ++ littleEndian 32 (db.hash data).toNat) = some ((data, (db.hash data).toNat), []) := by
  have hlength : (data ++ littleEndian 32 (db.hash data).toNat).length - 32 = data.length := by
    rw [List.length_append, length_littleEndian, Nat.add_sub_cancel]
  have hread : Reads (do
      let vchData ← take data.length
      let hashIn ← number 32
      pure (vchData, hashIn)) (data ++ littleEndian 32 (db.hash data).toNat)
      (data, (db.hash data).toNat) :=
    (Reads.take data).bind ((reads_uint256 (db.hash data)).bind_nil (.pure _))
  have hfile := hread []
  rw [List.append_nil] at hfile
  rw [hlength]
  exact hfile

theorem read_write (hstart : db.messageStart.length = 4)
    (h : Reads (AddrMan.unserialize env) s.serialize s') : db.read env (db.write s) = some s' := by
  have hdata := (reads_take hstart) s.serialize
  have hmanager := h []
  rw [List.append_nil] at hmanager
  rw [read, write]
  dsimp only
  rw [run_checksum, Option.bind_eq_bind, Option.bind_some]
  dsimp only
  rw [BitVec.ofNat_toNat, BitVec.setWidth_eq, if_neg (not_not.mpr rfl), hdata, Option.bind_eq_bind,
    Option.bind_some]
  dsimp only
  rw [if_neg (not_not.mpr rfl), hmanager]
  rfl

theorem exists_read (hstart : db.messageStart.length = 4) {i : ℕ} (hi : i < 2 ^ 31)
    (h : s.Holds env (WithinCalls T True i) none) :
    ∃ ρ s', db.read env (db.write s) = some s' ∧ Copied ρ s s' ∧
      s'.Holds env (WithinCalls T True i) none := by
  obtain ⟨ρ, s', hread, hcopied, h', hnIdCount, hid⟩ := h.exists_unserialize
    (lt_of_le_of_lt h.length_order_le (by decide))
    (fun r hr => ⟨fun hT => ⟨le_refl _, (hr.times hT).2⟩, fun _ => ⟨(hr.sized trivial).ip,
      (hr.sized trivial).source, (hr.sized trivial).nLastSuccess⟩, hr.nAttempts⟩)
    fun r hr => by
      have hAttempts := hr.nAttempts
      exact ⟨hr.sized trivial, by omega, by omega⟩
  exact ⟨ρ, s', read_write hstart hread, hcopied, h', hnIdCount, hid⟩

theorem exists_sessions (hstart : db.messageStart.length = 4) {i : ℕ}
    (h : s.Holds env (WithinCalls T True i) none) {sessions : List (List (AddrCall × AddrOutcome))}
    (hi : i + sessions.flatten.length < 2 ^ 31)
    (hcalls : ∀ x ∈ sessions.flatten, x.1.HasTime ∧ x.1.Sized ∧ (T → x.1.Nonneg)) :
    ∃ s', sessions.foldlM (db.session env) s = some s' ∧
      s'.Holds env (WithinCalls T True (i + sessions.flatten.length)) none := by
  induction sessions generalizing s i with
  | nil => exact ⟨s, rfl, h⟩
  | cons calls sessions ih =>
    rw [List.flatten_cons] at hcalls hi ⊢
    rw [List.length_append] at hi ⊢
    have hhead := fun x hx => hcalls x (List.mem_append_left _ hx)
    obtain ⟨s₁, hs₁, h₁⟩ := Holds.exists_run (WithinCalls.mono T True) h
      (fun x hx => (hhead x hx).1) fun x hx j =>
        x.1.keeps_withinCalls (hhead x hx).2.2 fun _ => (hhead x hx).2.1
    obtain ⟨ρ, s₂, hs₂, -, h₂⟩ := exists_read hstart (by omega) h₁
    obtain ⟨s', hs', h'⟩ := ih h₂ (by omega) fun x hx => hcalls x (List.mem_append_right _ hx)
    refine ⟨s', ?_, by rwa [Nat.add_assoc] at h'⟩
    rw [List.foldlM_cons, session, hs₁]
    change (db.read env (db.write s₁)).bind _ = _
    rw [hs₂, Option.bind_some]
    exact hs'

end AddrDB

/-- Over any number of sessions the file is read back each time, and what is read is a copy of what was
written, in which `Check_` finds nothing wrong either. -/
theorem addrMan_sessions {db : AddrDB} (hstart : db.messageStart.length = 4) (env : AddrEnv)
    {nKey : List UInt8} (hkey : nKey.length = 32)
    {sessions : List (List (AddrCall × AddrOutcome))} {calls : List (AddrCall × AddrOutcome)}
    (hcalls : ∀ x ∈ sessions.flatten ++ calls, x.1.HasTime ∧ x.1.Sized)
    (hlength : (sessions.flatten ++ calls).length < 2 ^ 31) :
    ∃ s s₁ s' ρ, sessions.foldlM (db.session env) (empty nKey) = some s ∧
      calls.foldlM (AddrMan.step env) s = some s₁ ∧ db.read env (db.write s₁) = some s' ∧
      Copied ρ s₁ s' ∧
      ((∀ x ∈ sessions.flatten ++ calls, x.1.Nonneg) → s₁.check = 0 ∧ s'.check = 0) := by
  rw [List.length_append] at hlength
  have hleft := fun x hx => hcalls x (List.mem_append_left _ hx)
  have hright := fun x hx => hcalls x (List.mem_append_right _ hx)
  obtain ⟨s, hs, h⟩ := AddrDB.exists_sessions (T := ∀ x ∈ sessions.flatten ++ calls, x.1.Nonneg)
    hstart (i := 0) (holds_empty env _ hkey) (by omega) fun x hx =>
      ⟨(hleft x hx).1, (hleft x hx).2, fun hT => hT x (List.mem_append_left _ hx)⟩
  obtain ⟨s₁, hs₁, h₁⟩ := Holds.exists_run (WithinCalls.mono _ True) h
    (fun x hx => (hright x hx).1) fun x hx j =>
      x.1.keeps_withinCalls (fun hT => hT x (List.mem_append_right _ hx)) fun _ => (hright x hx).2
  obtain ⟨ρ, s', hs', hcopied, h'⟩ := AddrDB.exists_read hstart (by omega) h₁
  exact ⟨s, s₁, s', ρ, hs, hs₁, hs', hcopied, fun hT =>
    ⟨h₁.check_eq fun r hr => hr.times hT, h'.check_eq fun r hr => hr.times hT⟩⟩

namespace Sample

def addrDB : AddrDB := ⟨fun _ => 0, [1, 2, 3, 4]⟩

def sizedCalls : List (AddrCall × AddrOutcome) :=
  [(.add ⟨⟨.replicate 16 1, 8333⟩, 1, 100⟩ (.replicate 16 2) 0, outcome),
    (.add ⟨⟨.replicate 16 3, 8333⟩, 1, 90⟩ (.replicate 16 2) 0, outcome),
    (.good ⟨.replicate 16 1, 8333⟩ 200, outcome)]

end Sample

open Sample in
theorem addrMan_sessions_two :
    ∃ s s₁ s' ρ, [sizedCalls, sizedCalls].foldlM (addrDB.session oneBucket)
        (empty (.replicate 32 0)) = some s ∧
      sizedCalls.foldlM (AddrMan.step oneBucket) s = some s₁ ∧
      addrDB.read oneBucket (addrDB.write s₁) = some s' ∧ Copied ρ s₁ s' := by
  obtain ⟨s, s₁, s', ρ, hs, hs₁, hs', hcopied, -⟩ := @addrMan_sessions addrDB rfl oneBucket
    (.replicate 32 0) rfl [sizedCalls, sizedCalls] sizedCalls (by
      simp [sizedCalls, AddrCall.HasTime, AddrCall.Sized]) (by
      simp [sizedCalls])
  exact ⟨s, s₁, s', ρ, hs, hs₁, hs', hcopied⟩

end Beancash
