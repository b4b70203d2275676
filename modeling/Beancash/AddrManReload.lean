import Beancash.AddrManFile
import Beancash.SerializeSpec

namespace Beancash

open ByteStream BucketTable

theorem reads_int {n : ℤ} (h : -2 ^ 31 ≤ n ∧ n < 2 ^ 31) :
    Reads unserializeInt (serializeInt n) n := by
  have hread := (reads_uint32 (Int32.ofInt n).toUInt32).map fun x => (UInt32.ofNat x).toInt32.toInt
  rwa [UInt32.ofNat_toNat, Int32.toInt32_toUInt32, Int32.toInt_ofInt_of_le h.1 h.2] at hread

theorem reads_int64 {n : ℤ} (h : -2 ^ 63 ≤ n ∧ n < 2 ^ 63) :
    Reads unserializeInt64 (serializeInt64 n) n := by
  have hread := (reads_uint64 (Int64.ofInt n).toUInt64).map fun x => (UInt64.ofNat x).toInt64.toInt
  rwa [UInt64.ofNat_toNat, Int64.toInt64_toUInt64, Int64.toInt_ofInt_of_le h.1 h.2] at hread

theorem reads_take {n : ℕ} {bytes : List UInt8} (h : bytes.length = n) :
    Reads (take n) bytes bytes :=
  h ▸ Reads.take bytes

theorem NetService.reads {service : NetService} (h : service.ip.length = 16) :
    Reads NetService.unserialize service.serialize service := by
  refine (reads_take h).bind ((reads_take ?_).bind_nil ?_)
  · rw [List.length_reverse, length_littleEndian]
  · rw [List.reverse_reverse, ofLittleEndian_littleEndian service.port.toNat_lt, UInt16.ofNat_toNat]
    exact .pure service

theorem NetAddress.reads {nType : ℕ} {nVersion : Int32} {addr : NetAddress}
    (h : addr.ip.length = 16) (htime : hasTime nType nVersion = true) :
    Reads (NetAddress.unserialize nType nVersion) (addr.serialize nType nVersion) addr := by
  have hversion : Reads (if nType &&& serDisk != 0 then (fun n => (UInt32.ofNat n).toInt32) <$> number 4
      else pure nVersion)
      (if nType &&& serDisk != 0 then littleEndian 4 nVersion.toUInt32.toNat else []) nVersion := by
    split
    · have hread := (reads_uint32 nVersion.toUInt32).map fun n => (UInt32.ofNat n).toInt32
      rwa [UInt32.ofNat_toNat, Int32.toInt32_toUInt32] at hread
    · exact .pure nVersion
  rw [NetAddress.serialize, if_pos htime, List.append_assoc, List.append_assoc]
  refine hversion.bind ?_
  rw [if_pos htime]
  refine ((reads_uint32 addr.nTime).map UInt32.ofNat).bind
    ((reads_uint64 addr.nServices).bind ((NetService.reads h).bind_nil ?_))
  rw [UInt32.ofNat_toNat, UInt64.ofNat_toNat]
  exact .pure addr

/-- What is not stored of an entry is as after the constructor. -/
def AddrInfo.stored (info : AddrInfo) : AddrInfo :=
  { info with nLastTry := 0, nRefCount := 0, fInTried := false, nRandomPos := -1 }

theorem AddrInfo.reads (nVersion : Int32) {info : AddrInfo} (h : info.record.Sized)
    (hAttempts : -2 ^ 31 ≤ info.nAttempts ∧ info.nAttempts < 2 ^ 31) :
    Reads (AddrInfo.unserialize nVersion) (info.serialize nVersion) info.stored := by
  rw [AddrInfo.serialize, List.append_assoc, List.append_assoc]
  exact (NetAddress.reads h.ip rfl).bind ((reads_take h.source).bind
    ((reads_int64 h.nLastSuccess).bind ((reads_int hAttempts).bind_nil (.pure _))))

namespace AddrMan

theorem lookup_writeNew_of_notMem (nVersion : Int32) {nNew : ℤ} {infos : List (ℤ × AddrInfo)} {n : ℤ}
    (h : n ∉ infos.map Prod.fst) (nIds : ℤ) (mapUnkIds : AList fun _ : ℤ => ℤ) :
    (writeNew nVersion nNew infos nIds mapUnkIds).2.lookup n = mapUnkIds.lookup n := by
  induction infos generalizing nIds mapUnkIds with
  | nil => rfl
  | cons p infos ih =>
    rw [List.map_cons, List.mem_cons, not_or] at h
    have hinsert : (mapUnkIds.insert p.1 nIds).lookup n = mapUnkIds.lookup n :=
      AList.lookup_insert_ne h.1
    rw [writeNew]
    split_ifs
    · rfl
    · exact (ih h.2 _ _).trans hinsert
    · exact (ih h.2 _ _).trans hinsert

theorem writeNew_eq (nVersion : Int32) {nNew : ℤ} {infos : List (ℤ × AddrInfo)}
    (hnodup : (infos.map Prod.fst).Nodup) (nIds : ℤ)
    (hlength : nIds + (infos.filter (·.2.nRefCount ≠ 0)).length = nNew)
    (mapUnkIds : AList fun _ : ℤ => ℤ) :
    (writeNew nVersion nNew infos nIds mapUnkIds).1 =
        ((infos.filter (·.2.nRefCount ≠ 0)).map Prod.snd).flatMap (AddrInfo.serialize nVersion) ∧
      ∀ (i : ℕ) n, ((infos.filter (·.2.nRefCount ≠ 0)).map Prod.fst)[i]? = some n →
        (writeNew nVersion nNew infos nIds mapUnkIds).2.lookup n = some (nIds + i) := by
  induction infos generalizing nIds mapUnkIds with
  | nil => exact ⟨rfl, fun i n h => by cases h⟩
  | cons p infos ih =>
    obtain ⟨hp, htail⟩ := List.nodup_cons.mp hnodup
    rw [writeNew]
    by_cases hrefs : p.2.nRefCount ≠ 0
    · rw [List.filter_cons_of_pos (by simpa using hrefs)] at hlength ⊢
      rw [List.length_cons] at hlength
      obtain ⟨hbytes, hids⟩ := ih htail (nIds + 1) (by omega) (mapUnkIds.insert p.1 nIds)
      rw [if_neg (by omega), if_pos hrefs]
      refine ⟨congrArg (p.2.serialize nVersion ++ ·) hbytes, fun i n hi => ?_⟩
      cases i with
      | zero =>
        obtain rfl := Option.some.inj hi
        refine (lookup_writeNew_of_notMem nVersion hp _ _).trans ?_
        rw [AList.lookup_insert]
        simp
      | succ i =>
        refine (hids i n hi).trans ?_
        push_cast
        rw [Int.add_assoc, Int.add_comm 1]
    · rw [List.filter_cons_of_neg (by simpa using hrefs)] at hlength ⊢
      by_cases hstop : nIds = nNew
      · rw [if_pos hstop]
        have hnil : infos.filter (·.2.nRefCount ≠ 0) = [] := List.length_eq_zero_iff.mp (by omega)
        rw [hnil]
        exact ⟨rfl, fun i n h => by cases h⟩
      · rw [if_neg hstop, if_neg hrefs]
        exact ih htail nIds hlength _

theorem writeTried_eq (nVersion : Int32) {nTried : ℤ} {infos : List (ℤ × AddrInfo)} {nIds : ℤ}
    (hlength : nIds + (infos.filter (·.2.fInTried)).length = nTried) :
    writeTried nVersion nTried infos nIds =
      ((infos.filter (·.2.fInTried)).map Prod.snd).flatMap (AddrInfo.serialize nVersion) := by
  induction infos generalizing nIds with
  | nil => rfl
  | cons p infos ih =>
    rw [writeTried]
    by_cases htried : p.2.fInTried = true
    · rw [List.filter_cons_of_pos (by simpa using htried)] at hlength ⊢
      rw [List.length_cons] at hlength
      rw [if_neg (by omega), if_pos htried, ih (by omega)]
      rfl
    · rw [List.filter_cons_of_neg (by simpa using htried)] at hlength ⊢
      by_cases hstop : nIds = nTried
      · rw [if_pos hstop]
        have hnil : infos.filter (·.2.fInTried) = [] := List.length_eq_zero_iff.mp (by omega)
        rw [hnil]
        rfl
      · rw [if_neg hstop, if_neg htried]
        exact ih hlength

/-- The ids get the numbers that they have in `order`. -/
structure Renames (ρ : ℤ → ℤ) (order : List ℤ) : Prop where
  nodup : order.Nodup
  pos : ∀ (i : ℕ) n, order[i]? = some n → ρ n = i

theorem Renames.eq_length {ρ : ℤ → ℤ} {order l rest : List ℤ} {n : ℤ} (h : Renames ρ order)
    (horder : order = l ++ n :: rest) : ρ n = l.length :=
  h.pos l.length n (by rw [horder, List.getElem?_append_right le_rfl, Nat.sub_self]; rfl)

theorem Renames.inj {ρ : ℤ → ℤ} {order : List ℤ} (h : Renames ρ order) {m n : ℤ} (hm : m ∈ order)
    (hn : n ∈ order) (heq : ρ m = ρ n) : m = n := by
  obtain ⟨i, hi⟩ := List.mem_iff_getElem?.mp hm
  obtain ⟨j, hj⟩ := List.mem_iff_getElem?.mp hn
  rw [h.pos i m hi, h.pos j n hj, Int.ofNat_inj] at heq
  rw [heq, hj] at hi
  exact (Option.some.inj hi).symm

theorem renames_idxOf {order : List ℤ} (h : order.Nodup) :
    Renames (fun n => (order.idxOf n : ℤ)) order where
  nodup := h
  pos i n hi := by
    obtain ⟨hlt, rfl⟩ := List.getElem?_eq_some_iff.mp hi
    rw [h.idxOf_getElem]

end AddrMan

/-- An entry as it is read back. -/
def AddrInfo.reread (info : AddrInfo) (nRandomPos nRefCount : ℤ) : AddrInfo :=
  { info with nLastTry := 0, nRefCount := nRefCount, nRandomPos := nRandomPos }

namespace AddrMan

/-- `mapInfo` has what was read of the entries in `l`, each with so many references. -/
def RereadInfo (ρ : ℤ → ℤ) (s : AddrMan) (l : List ℤ) (refs : ℤ → ℤ)
    (mapInfo : AList fun _ : ℤ => AddrInfo) : Prop :=
  ∀ z info', mapInfo.lookup z = some info' ↔ ∃ n ∈ l, ∃ info,
    s.mapInfo.lookup n = some info ∧ z = ρ n ∧ info' = info.reread (ρ n) (refs n)

/-- `s'` has what was read of the entries in `l`, before the buckets are. -/
structure Reread (ρ : ℤ → ℤ) (s : AddrMan) (l : List ℤ) (s' : AddrMan) : Prop where
  nKey : s'.nKey = s.nKey
  info : RereadInfo ρ s l (fun _ => 0) s'.mapInfo
  addr : ∀ a z, s'.mapAddr.lookup a = some z ↔ ∃ n ∈ l, s.mapAddr.lookup a = some n ∧ z = ρ n
  random : s'.vRandom = l.map ρ

variable {env : AddrEnv} {newSize : ℕ} {K : AddrRecord → Prop} {ρ : ℤ → ℤ} {s s' : AddrMan} {n : ℤ}
  {info : AddrInfo}
  {order l rest : List ℤ} {refs : ℤ → ℤ} {mapInfo : AList fun _ : ℤ => AddrInfo}

theorem RereadInfo.insert (h : RereadInfo ρ s l refs mapInfo) (l' : List ℤ) (refs' : ℤ → ℤ)
    (hinfo : s.mapInfo.lookup n = some info) (hinj : ∀ k ∈ l, ρ k = ρ n → k = n) (hl : ∀ k, k ∈ l' ↔ k = n ∨ k ∈ l)
    (hrefs : ∀ k ≠ n, refs' k = refs k) :
    RereadInfo ρ s l' refs' (mapInfo.insert (ρ n) (info.reread (ρ n) (refs' n))) := by
  intro z info'
  by_cases hz : z = ρ n
  · subst hz
    rw [AList.lookup_insert, Option.some.injEq]
    constructor
    · rintro rfl
      exact ⟨n, (hl n).mpr (.inl rfl), info, hinfo, rfl, rfl⟩
    · rintro ⟨k, hk, infoK, hinfoK, heq, rfl⟩
      have hkn : k = n := ((hl k).mp hk).elim id fun hmem => hinj k hmem heq.symm
      subst hkn
      rw [hinfo] at hinfoK
      rw [Option.some.inj hinfoK]
  · rw [AList.lookup_insert_ne hz, h z info']
    constructor
    · rintro ⟨k, hk, infoK, hinfoK, rfl, rfl⟩
      have hkn : k ≠ n := fun heq => hz (congrArg ρ heq)
      exact ⟨k, (hl k).mpr (.inr hk), infoK, hinfoK, rfl, by rw [hrefs k hkn]⟩
    · rintro ⟨k, hk, infoK, hinfoK, rfl, rfl⟩
      have hkn : k ≠ n := fun heq => hz (congrArg ρ heq)
      exact ⟨k, ((hl k).mp hk).resolve_left hkn, infoK, hinfoK, rfl, by rw [hrefs k hkn]⟩

theorem Reread.concat (h : Reread ρ s l s') (hs : s.Agrees env newSize K none) (hρ : Renames ρ order)
    (horder : order = l ++ n :: rest) (hinfo : s.mapInfo.lookup n = some info)
    (nIdCount nTried nNew : ℤ) (vvTried : List (List ℤ)) (vvNew : List (Finset ℤ)) :
    Reread ρ s (l ++ [n]) { s' with
      mapInfo := s'.mapInfo.insert (ρ n) (info.reread (ρ n) 0)
      mapAddr := s'.mapAddr.insert info.ip (ρ n)
      vRandom := s'.vRandom ++ [ρ n]
      nIdCount := nIdCount, nTried := nTried, nNew := nNew, vvTried := vvTried, vvNew := vvNew } where
  nKey := h.nKey
  info := by
    refine h.info.insert _ _ hinfo (fun k hk => ?_) (fun k => ?_) fun _ _ => rfl
    · refine hρ.inj ?_ ?_
      · rw [horder]
        exact List.mem_append_left _ hk
      · rw [horder]
        exact List.mem_append_right _ List.mem_cons_self
    · rw [List.mem_append, List.mem_singleton, or_comm]
  addr a z := by
    have haddr : s.mapAddr.lookup info.ip = some n := (hs.addr _ n).mpr (infoOf_of_lookup hinfo)
    change (s'.mapAddr.insert info.ip (ρ n)).lookup a = some z ↔ _
    by_cases ha : a = info.ip
    · subst ha
      rw [AList.lookup_insert, Option.some.injEq, haddr]
      constructor
      · rintro rfl
        exact ⟨n, List.mem_append_right _ List.mem_cons_self, rfl, rfl⟩
      · rintro ⟨k, -, heq, rfl⟩
        rw [Option.some.inj heq]
    · rw [AList.lookup_insert_ne ha, h.addr]
      have hne : s.mapAddr.lookup a ≠ some n := fun heq => by
        have hip := (hs.addr a n).mp heq
        rw [infoOf_of_lookup hinfo] at hip
        exact ha (Option.some.inj hip).symm
      constructor
      · rintro ⟨k, hk, hlookup, rfl⟩
        exact ⟨k, List.mem_append_left _ hk, hlookup, rfl⟩
      · rintro ⟨k, hk, hlookup, rfl⟩
        rcases List.mem_append.mp hk with hmem | hlast
        · exact ⟨k, hmem, hlookup, rfl⟩
        · exact absurd (List.mem_singleton.mp hlast ▸ hlookup) hne
  random := by
    change s'.vRandom ++ [ρ n] = (l ++ [n]).map ρ
    rw [h.random, List.map_append]
    rfl

theorem reads_lift {α : Type} (a : α) : Reads (StateT.lift (some a)) [] a := fun _ => rfl

/-- What is written of an entry can be read. -/
structure Storable (s : AddrMan) (p : ℤ × AddrInfo) : Prop where
  lookup : s.mapInfo.lookup p.1 = some p.2
  sized : p.2.record.Sized
  nAttempts : -2 ^ 31 ≤ p.2.nAttempts ∧ p.2.nAttempts < 2 ^ 31

theorem exists_readNew (nVersion : Int32) (hs : s.Agrees env newSize K none) (hρ : Renames ρ order)
    (es : List (ℤ × AddrInfo)) (rest : List ℤ) (hes : ∀ p ∈ es, Storable s p) (hnew : ∀ p ∈ es, p.2.fInTried = false)
    (h : Reread ρ s l s') (horder : order = l ++ (es.map Prod.fst ++ rest)) :
    ∃ mapInfo mapAddr vRandom,
      Reads (readNew env nVersion false es.length l.length s')
        ((es.map Prod.snd).flatMap (AddrInfo.serialize nVersion))
        { s' with mapInfo := mapInfo, mapAddr := mapAddr, vRandom := vRandom } ∧
      Reread ρ s (l ++ es.map Prod.fst)
        { s' with mapInfo := mapInfo, mapAddr := mapAddr, vRandom := vRandom } := by
  induction es generalizing l s' with
  | nil =>
    refine ⟨s'.mapInfo, s'.mapAddr, s'.vRandom, .pure s', ?_⟩
    rw [List.map_nil, List.append_nil]
    exact h
  | cons p es ih =>
    obtain ⟨hp, htail⟩ := List.forall_mem_cons.mp hes
    obtain ⟨hpNew, htailNew⟩ := List.forall_mem_cons.mp hnew
    have hpos : ρ p.1 = l.length := hρ.eq_length horder
    have hstep := h.concat hs hρ horder hp.lookup s'.nIdCount s'.nTried s'.nNew s'.vvTried s'.vvNew
    have hread : readNewEntry env false s' l.length p.2.stored = some { s' with
        mapInfo := s'.mapInfo.insert (ρ p.1) (p.2.reread (ρ p.1) 0)
        mapAddr := s'.mapAddr.insert p.2.ip (ρ p.1)
        vRandom := s'.vRandom ++ [ρ p.1] } := by
      rw [hpos, AddrInfo.reread, ← hpNew]
      have hlength : s'.vRandom.length = l.length := by rw [h.random, List.length_map]
      rw [readNewEntry, hlength]
      simp only [AddrInfo.stored, hpNew]
      rfl
    obtain ⟨mapInfo, mapAddr, vRandom, hrest, hreread⟩ := ih htail htailNew hstep (by
      rw [horder, List.append_assoc]
      rfl)
    refine ⟨mapInfo, mapAddr, vRandom, ?_, ?_⟩
    · refine (p.2.reads nVersion hp.sized hp.nAttempts).bind ?_
      rw [hread]
      have hlength : ((l ++ [p.1]).length : ℤ) = l.length + 1 := by
        rw [List.length_append, List.length_singleton, Nat.cast_add, Nat.cast_one]
      rw [hlength] at hrest
      exact (reads_lift _).bind hrest
    · rw [List.append_assoc] at hreread
      exact hreread

/-- The tried entries of `l` that belong to a bucket. -/
def triedOf (env : AddrEnv) (s : AddrMan) (b : ℕ) (l : List ℤ) : List ℤ :=
  l.filter fun n => (s.mapInfo.lookup n).any fun info =>
    info.fInTried && getTriedBucket env s.nKey info.toNetService == b

/-- The buckets of the tried entries that were read. -/
def rereadTried (env : AddrEnv) (ρ : ℤ → ℤ) (s : AddrMan) (l : List ℤ) : List (List ℤ) :=
  (List.range addrmanTriedBucketCount).map fun b => (triedOf env s b l).map ρ

theorem triedOf_concat (b : ℕ) (hinfo : s.mapInfo.lookup n = some info) (htried : info.fInTried = true) :
    triedOf env s b (l ++ [n]) =
      if getTriedBucket env s.nKey info.toNetService = b then triedOf env s b l ++ [n]
      else triedOf env s b l := by
  rw [triedOf, List.filter_append, triedOf]
  split_ifs with hb
  · rw [List.filter_cons_of_pos (by simp [hinfo, htried, hb]), List.filter_nil]
  · rw [List.filter_cons_of_neg (by simp [hinfo, hb]), List.filter_nil, List.append_nil]

theorem rereadTried_getElem? {b : ℕ} (hb : b < addrmanTriedBucketCount) :
    (rereadTried env ρ s l)[b]? = some ((triedOf env s b l).map ρ) := by
  rw [rereadTried, List.getElem?_map, List.getElem?_range hb, Option.map_some]

theorem rereadTried_concat (hinfo : s.mapInfo.lookup n = some info) (htried : info.fInTried = true) :
    (rereadTried env ρ s l).set (getTriedBucket env s.nKey info.toNetService)
        ((triedOf env s (getTriedBucket env s.nKey info.toNetService) l).map ρ ++ [ρ n]) =
      rereadTried env ρ s (l ++ [n]) := by
  have hlt := getTriedBucket_lt env s.nKey info.toNetService
  refine List.ext_getElem? fun b => ?_
  by_cases hb : b < addrmanTriedBucketCount
  · rw [rereadTried_getElem? hb, triedOf_concat b hinfo htried]
    by_cases heq : getTriedBucket env s.nKey info.toNetService = b
    · rw [if_pos heq, heq, List.getElem?_set_self (by simpa [rereadTried] using hb), List.map_append]
      rfl
    · rw [if_neg heq, List.getElem?_set_ne heq, rereadTried_getElem? hb]
  · rw [List.getElem?_eq_none (by simpa [rereadTried] using hb),
      List.getElem?_eq_none (by simpa [rereadTried] using hb)]

theorem exists_readTried (nVersion : Int32) (hs : s.Agrees env newSize K none) (hρ : Renames ρ order)
    (hsize : ∀ b, (triedOf env s b order).length ≤ addrmanTriedBucketSize)
    (es : List (ℤ × AddrInfo)) (rest : List ℤ) (s' : AddrMan) (hes : ∀ p ∈ es, Storable s p) (htried : ∀ p ∈ es, p.2.fInTried = true)
    (h : Reread ρ s l s') (horder : order = l ++ (es.map Prod.fst ++ rest))
    (hcount : s'.nIdCount = l.length) (hvvTried : s'.vvTried = rereadTried env ρ s l) :
    ∃ mapInfo mapAddr vRandom,
      Reads (readTried env nVersion es.length s' 0)
        ((es.map Prod.snd).flatMap (AddrInfo.serialize nVersion))
        ({ s' with mapInfo := mapInfo, mapAddr := mapAddr, vRandom := vRandom,
                   nIdCount := (l ++ es.map Prod.fst).length,
                   vvTried := rereadTried env ρ s (l ++ es.map Prod.fst) }, 0) ∧
      Reread ρ s (l ++ es.map Prod.fst)
        { s' with mapInfo := mapInfo, mapAddr := mapAddr, vRandom := vRandom,
                  nIdCount := (l ++ es.map Prod.fst).length,
                  vvTried := rereadTried env ρ s (l ++ es.map Prod.fst) } := by
  induction es generalizing l s' with
  | nil =>
    refine ⟨s'.mapInfo, s'.mapAddr, s'.vRandom, ?_, ?_⟩
    · simp only [List.map_nil, List.append_nil, ← hcount, ← hvvTried]
      exact .pure (s', 0)
    · simp only [List.map_nil, List.append_nil, ← hcount, ← hvvTried]
      exact h
  | cons p es ih =>
    obtain ⟨hp, htail⟩ := List.forall_mem_cons.mp hes
    obtain ⟨hpTried, htailTried⟩ := List.forall_mem_cons.mp htried
    have hpos : ρ p.1 = l.length := hρ.eq_length horder
    have hbucket : getTriedBucket env s.nKey p.2.toNetService < addrmanTriedBucketCount :=
      getTriedBucket_lt env s.nKey p.2.toNetService
    have hlt : (triedOf env s (getTriedBucket env s.nKey p.2.toNetService) l).length <
        addrmanTriedBucketSize := by
      have hconcat : triedOf env s (getTriedBucket env s.nKey p.2.toNetService) (l ++ [p.1]) =
          triedOf env s (getTriedBucket env s.nKey p.2.toNetService) l ++ [p.1] := by
        rw [triedOf_concat _ hp.lookup hpTried, if_pos rfl]
      have hsublist : (l ++ [p.1]).Sublist order := by
        rw [horder]
        exact List.Sublist.append_left (List.singleton_sublist.mpr List.mem_cons_self) l
      have hle := (hsublist.filter _).length_le.trans
        (hsize (getTriedBucket env s.nKey p.2.toNetService))
      rw [← triedOf, hconcat, List.length_append, List.length_singleton] at hle
      exact hle
    have hstep := h.concat hs hρ horder hp.lookup (s'.nIdCount + 1) s'.nTried s'.nNew
      (rereadTried env ρ s (l ++ [p.1])) s'.vvNew
    have hlength : ((l ++ [p.1]).length : ℤ) = s'.nIdCount + 1 := by
      rw [hcount, List.length_append, List.length_singleton, Nat.cast_add, Nat.cast_one]
    have hread : readTriedEntry env s' 0 p.2.stored = some ({ s' with
        mapInfo := s'.mapInfo.insert (ρ p.1) (p.2.reread (ρ p.1) 0)
        mapAddr := s'.mapAddr.insert p.2.ip (ρ p.1)
        vRandom := s'.vRandom ++ [ρ p.1]
        nIdCount := s'.nIdCount + 1
        vvTried := rereadTried env ρ s (l ++ [p.1]) }, 0) := by
      rw [hpos, ← hcount, AddrInfo.reread, hpTried, ← rereadTried_concat hp.lookup hpTried, hpos,
        ← hcount]
      have hrandom : (s'.vRandom.length : ℤ) = s'.nIdCount := by
        rw [h.random, List.length_map, hcount]
      have hb : s'.vvTried[getTriedBucket env s'.nKey p.2.stored.toNetService]? =
          some ((triedOf env s (getTriedBucket env s.nKey p.2.toNetService) l).map ρ) := by
        rw [h.nKey, hvvTried]
        exact rereadTried_getElem? hbucket
      rw [readTriedEntry, hb, Option.bind_eq_bind, Option.bind_some,
        if_pos (by rwa [List.length_map]), hrandom, h.nKey, hvvTried]
      rfl
    obtain ⟨mapInfo, mapAddr, vRandom, hrest, hreread⟩ := ih _ htail htailTried hstep (by
      rw [horder, List.append_assoc]
      rfl) hlength.symm rfl
    have happend : l ++ [p.1] ++ es.map Prod.fst = l ++ (p :: es).map Prod.fst := by
      rw [List.append_assoc]
      rfl
    rw [happend] at hrest hreread
    refine ⟨mapInfo, mapAddr, vRandom, ?_, hreread⟩
    refine (p.2.reads nVersion hp.sized hp.nAttempts).bind ?_
    rw [hread]
    exact (reads_lift _).bind hrest

theorem exists_readBucket {ids : List ℤ} (hnodup : ids.Nodup) (hmem : ∀ n ∈ ids, n ∈ l)
    (hinj : ∀ k ∈ l, ∀ n ∈ ids, ρ k = ρ n → k = n)
    (hknown : ∀ n ∈ ids, ∃ info, s.mapInfo.lookup n = some info)
    (hint : ∀ n ∈ ids, -2 ^ 31 ≤ ρ n ∧ ρ n < 2 ^ 31)
    (hlt : ∀ n ∈ ids, refs n < addrmanNewBucketsPerAddress)
    (h : RereadInfo ρ s l refs mapInfo) (vNew : Finset ℤ) :
    ∃ mapInfo', Reads (readBucket false ids.length vNew mapInfo)
        (ids.flatMap fun n => serializeInt (ρ n)) (vNew ∪ (ids.map ρ).toFinset, mapInfo') ∧
      RereadInfo ρ s l (fun n => refs n + if n ∈ ids then 1 else 0) mapInfo' := by
  induction ids generalizing refs mapInfo vNew with
  | nil =>
    refine ⟨mapInfo, ?_, ?_⟩
    · rw [List.map_nil, List.toFinset_nil, Finset.union_empty]
      exact .pure (vNew, mapInfo)
    · simpa using h
  | cons n ids ih =>
    obtain ⟨hn, hnodup⟩ := List.nodup_cons.mp hnodup
    obtain ⟨hmemN, hmem⟩ := List.forall_mem_cons.mp hmem
    obtain ⟨⟨info, hinfo⟩, hknown⟩ := List.forall_mem_cons.mp hknown
    obtain ⟨hintN, hint⟩ := List.forall_mem_cons.mp hint
    obtain ⟨hltN, hlt⟩ := List.forall_mem_cons.mp hlt
    have hlookup : mapInfo.lookup (ρ n) = some (info.reread (ρ n) (refs n)) :=
      (h _ _).mpr ⟨n, hmemN, info, hinfo, rfl, rfl⟩
    have hstep := h.insert l (Function.update refs n (refs n + 1)) hinfo
      (fun k hk => hinj k hk n List.mem_cons_self)
      (fun k => ⟨fun hk => .inr hk, fun hk => hk.elim (fun heq => heq ▸ hmemN) id⟩)
      fun k hk => Function.update_of_ne hk _ _
    rw [Function.update_self] at hstep
    have hother : ∀ k ∈ ids, Function.update refs n (refs n + 1) k = refs k := fun k hk =>
      Function.update_of_ne (ne_of_mem_of_not_mem hk hn) _ _
    obtain ⟨mapInfo', hrest, hreread⟩ := ih hnodup hmem
      (fun k hk m hm => hinj k hk m (List.mem_cons_of_mem _ hm)) hknown hint
      (fun k hk => by rw [hother k hk]; exact hlt k hk) hstep (insert (ρ n) vNew)
    refine ⟨mapInfo', ?_, ?_⟩
    · refine (reads_int hintN).bind ?_
      rw [hlookup, Option.getD_some, if_pos ⟨rfl, hltN⟩, List.map_cons, List.toFinset_cons,
        Finset.union_insert, ← Finset.insert_union]
      exact hrest
    · convert hreread using 2 with k
      by_cases hk : k = n
      · subst hk
        rw [Function.update_self, if_pos List.mem_cons_self, if_neg hn]
        omega
      · rw [Function.update_of_ne hk]
        simp [hk]

theorem exists_readBuckets (mapUnkIds : AList fun _ : ℤ => ℤ) (cs done : List (Finset ℤ))
    (s' : AddrMan)
    (hids : ∀ c ∈ cs, ∀ n ∈ c, n ∈ l ∧ mapUnkIds.lookup n = some (ρ n))
    (hknown : ∀ n ∈ l, ∃ info, s.mapInfo.lookup n = some info)
    (hinj : ∀ k ∈ l, ∀ n ∈ l, ρ k = ρ n → k = n)
    (hint : ∀ n ∈ l, -2 ^ 31 ≤ ρ n ∧ ρ n < 2 ^ 31) (hcard : ∀ c ∈ cs, c.card < 2 ^ 31)
    (hrefs : ∀ n ∈ l, refs n + cs.countP (n ∈ ·) ≤ addrmanNewBucketsPerAddress)
    (h : RereadInfo ρ s l refs s'.mapInfo)
    (hvvNew : s'.vvNew = done ++ List.replicate cs.length ∅) :
    ∃ mapInfo', Reads (readBuckets false cs.length done.length s') (cs.flatMap (writeBucket mapUnkIds))
        { s' with vvNew := done ++ cs.map (·.image ρ), mapInfo := mapInfo' } ∧
      RereadInfo ρ s l (fun n => refs n + cs.countP (n ∈ ·)) mapInfo' := by
  induction cs generalizing refs done s' with
  | nil =>
    refine ⟨s'.mapInfo, ?_, ?_⟩
    · rw [List.map_nil, List.append_nil]
      rw [List.length_nil, List.replicate_zero, List.append_nil] at hvvNew
      rw [← hvvNew]
      exact .pure s'
    · simpa using h
  | cons c cs ih =>
    obtain ⟨hc, hids⟩ := List.forall_mem_cons.mp hids
    obtain ⟨hcardC, hcard⟩ := List.forall_mem_cons.mp hcard
    have hmem : ∀ n ∈ inOrder c, n ∈ c := fun n hn => (Finset.mem_sort _).mp hn
    have hcons : ∀ n : ℤ, ((c :: cs).countP (n ∈ ·) : ℤ) = cs.countP (n ∈ ·) + if n ∈ c then 1 else 0 := by
      intro n
      rw [List.countP_cons]
      by_cases hn : n ∈ c
      · simp [hn]
      · simp [hn]
    obtain ⟨mapInfo₁, hbucket, h₁⟩ := exists_readBucket (Finset.sort_nodup c (· ≤ ·))
      (fun n hn => (hc n (hmem n hn)).1)
      (fun k hk n hn => hinj k hk n (hc n (hmem n hn)).1)
      (fun n hn => hknown n (hc n (hmem n hn)).1) (fun n hn => hint n (hc n (hmem n hn)).1)
      (fun n hn => by
        have hle := hrefs n (hc n (hmem n hn)).1
        rw [hcons, if_pos (hmem n hn)] at hle
        omega) h ∅
    have hrefs₁ : (fun n => refs n + if n ∈ inOrder c then 1 else 0) =
        fun n => refs n + if n ∈ c then (1 : ℤ) else 0 := by
      funext n
      simp only [Finset.mem_sort]
    have himage : ∅ ∪ ((inOrder c).map ρ).toFinset = c.image ρ := by
      ext z
      simp
    rw [hrefs₁] at h₁
    rw [himage, Finset.length_sort] at hbucket
    obtain ⟨mapInfo', hrest, h'⟩ := ih (done ++ [c.image ρ]) { s' with
        vvNew := s'.vvNew.set done.length (c.image ρ), mapInfo := mapInfo₁ } hids hcard
      (fun n hn => by
        have hle := hrefs n hn
        rw [hcons] at hle
        omega) h₁ (by
        dsimp only
        rw [hvvNew, List.set_append_right _ _ le_rfl, Nat.sub_self, List.length_cons,
          List.replicate_succ, List.set_cons_zero, List.append_assoc]
        rfl)
    refine ⟨mapInfo', ?_, ?_⟩
    · have hget : s'.vvNew[done.length]? = some ∅ := by
        rw [hvvNew, List.getElem?_append_right le_rfl, Nat.sub_self]
        rfl
      have hwrite : (inOrder c).flatMap (fun n => serializeInt ((mapUnkIds.lookup n).getD 0)) =
          (inOrder c).flatMap fun n => serializeInt (ρ n) :=
        List.flatMap_congr fun n hn => by rw [(hc n (hmem n hn)).2, Option.getD_some]
      rw [List.flatMap_cons, writeBucket, hwrite, List.append_assoc]
      rw [List.length_cons, readBuckets, hget]
      refine (reads_lift _).bind ((reads_int (by omega)).bind ?_)
      rw [Int.toNat_natCast]
      refine hbucket.bind ?_
      rw [List.length_append, List.length_singleton, List.append_assoc] at hrest
      exact hrest
    · convert h' using 2 with n
      rw [hcons]
      omega

end AddrMan

end Beancash
