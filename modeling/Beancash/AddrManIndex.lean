import Beancash.AddrMan
import Beancash.PositionIndex
import Beancash.BucketTable

namespace Beancash

open BucketTable

/-- What is known of the entry with an id. -/
def infoOf {β : Type} (f : AddrInfo → β) (mapInfo : AList fun _ : ℤ => AddrInfo) (n : ℤ) :
    Option β :=
  (mapInfo.lookup n).map f

/-- What the calls say of an address. -/
structure AddrRecord where
  service : NetService
  source : NetAddr
  nLastTry : ℤ
  nLastSuccess : ℤ
  nAttempts : ℤ

namespace AddrInfo

/-- What the buckets know. -/
def entry (info : AddrInfo) : Entry := ⟨info.fInTried, info.nRefCount⟩

/-- What only the calls say of it. -/
def record (info : AddrInfo) : AddrRecord :=
  ⟨info.toNetService, info.source, info.nLastTry, info.nLastSuccess, info.nAttempts⟩

/-- The time of the last success is known if it is tried, and `K` is kept of its record. -/
def Keeps (K : AddrRecord → Prop) (info : AddrInfo) : Prop :=
  (info.fInTried = true → info.nLastSuccess ≠ 0) ∧ K info.record

/-- All but the position in the random order. -/
def placeless (info : AddrInfo) : AddrInfo := { info with nRandomPos := 0 }

end AddrInfo

section InfoOf

variable {β : Type} {f : AddrInfo → β} {mapInfo mapInfo' : AList fun _ : ℤ => AddrInfo} {n : ℤ}
  {info info' : AddrInfo}

theorem infoOf_eq_some {x : β} :
    infoOf f mapInfo n = some x ↔ ∃ info, mapInfo.lookup n = some info ∧ f info = x :=
  Option.map_eq_some_iff

theorem infoOf_of_lookup (h : mapInfo.lookup n = some info) : infoOf f mapInfo n = some (f info) := by
  rw [infoOf, h, Option.map_some]

theorem infoOf_insert (f : AddrInfo → β) (mapInfo : AList fun _ : ℤ => AddrInfo) (n : ℤ)
    (info : AddrInfo) :
    infoOf f (mapInfo.insert n info) = Function.update (infoOf f mapInfo) n (some (f info)) := by
  funext m
  by_cases heq : m = n
  · rw [heq, infoOf, AList.lookup_insert, Function.update_self, Option.map_some]
  · rw [infoOf, AList.lookup_insert_ne heq, Function.update_of_ne heq, infoOf]

theorem infoOf_erase (f : AddrInfo → β) (mapInfo : AList fun _ : ℤ => AddrInfo) (n : ℤ) :
    infoOf f (mapInfo.erase n) = Function.update (infoOf f mapInfo) n none := by
  funext m
  by_cases heq : m = n
  · rw [heq, infoOf, AList.lookup_erase, Function.update_self, Option.map_none]
  · rw [infoOf, AList.lookup_erase_ne heq, Function.update_of_ne heq, infoOf]

theorem infoOf_insert_same (h : mapInfo.lookup n = some info) (hf : f info' = f info) :
    infoOf f (mapInfo.insert n info') = infoOf f mapInfo := by
  rw [infoOf_insert, hf, ← infoOf_of_lookup (f := f) h, Function.update_eq_self]

theorem infoOf_placeless (h : infoOf AddrInfo.placeless mapInfo' = infoOf AddrInfo.placeless mapInfo)
    (g : AddrInfo → β) :
    infoOf (fun info => g info.placeless) mapInfo' = infoOf (fun info => g info.placeless) mapInfo := by
  funext m
  have hm := congrArg (Option.map g) (congrFun h m)
  rw [infoOf, infoOf, Option.map_map, Option.map_map] at hm
  exact hm

theorem infoOf_ip (h : infoOf (·.toNetService) mapInfo' = infoOf (·.toNetService) mapInfo) :
    infoOf (·.ip) mapInfo' = infoOf (·.ip) mapInfo := by
  funext m
  have hm := congrArg (Option.map NetService.ip) (congrFun h m)
  rw [infoOf, infoOf, Option.map_map, Option.map_map] at hm
  exact hm

end InfoOf

def bucketLimits (newSize : ℕ) : Limits := ⟨newSize, addrmanTriedBucketSize, 4⟩

/-- Each tried entry is in the bucket that its address belongs to. -/
def InHashedBucket (env : AddrEnv) (nKey : List UInt8) (service : ℤ → Option NetService)
    (vvTried : List (List ℤ)) : Prop :=
  ∀ b vTried, vvTried[b]? = some vTried → ∀ n ∈ vTried, ∀ x, service n = some x →
    getTriedBucket env nKey x = b

/-- The indexes and the buckets agree on the entries. One of them may be about to be put into a new
bucket. -/
structure AddrMan.Agrees (env : AddrEnv) (newSize : ℕ) (K : AddrRecord → Prop) (s : AddrMan)
    (pending : Option ℤ) : Prop where
  key : s.nKey.length = 32
  addr : ∀ a n, s.mapAddr.lookup a = some n ↔ infoOf (·.ip) s.mapInfo n = some a
  random : Indexes s.vRandom (infoOf (·.nRandomPos) s.mapInfo)
  shared : SharedBuckets (bucketLimits newSize) (infoOf AddrInfo.entry s.mapInfo) s.vvNew pending
  own : OwnBuckets (bucketLimits newSize) (infoOf AddrInfo.entry s.mapInfo) s.vvTried
  newLength : s.vvNew.length = addrmanNewBucketCount
  triedLength : s.vvTried.length = addrmanTriedBucketCount
  nTried : s.nTried = s.vvTried.flatten.length
  nNew : s.nTried + s.nNew = s.vRandom.length
  keeps : ∀ n p, infoOf (AddrInfo.Keeps K) s.mapInfo n = some p → p
  placed : InHashedBucket env s.nKey (infoOf (·.toNetService) s.mapInfo) s.vvTried

/-- They do, and the next id is a new one. -/
structure AddrMan.Holds (env : AddrEnv) (K : AddrRecord → Prop) (s : AddrMan) (pending : Option ℤ) :
    Prop extends AddrMan.Agrees env addrmanNewBucketSize K s pending where
  nIdCount : 0 ≤ s.nIdCount
  id : ∀ n a, infoOf (·.ip) s.mapInfo n = some a → 0 ≤ n ∧ n < s.nIdCount

theorem InHashedBucket.set {env : AddrEnv} {nKey : List UInt8} {service : ℤ → Option NetService}
    {vvTried : List (List ℤ)} (h : InHashedBucket env nKey service vvTried) {b : ℕ} {l l' : List ℤ}
    (hb : vvTried[b]? = some l)
    (hl : ∀ n ∈ l', n ∈ l ∨ ∀ x, service n = some x → getTriedBucket env nKey x = b) :
    InHashedBucket env nKey service (vvTried.set b l') := by
  intro b' vTried hb' n hn x hx
  by_cases heq : b = b'
  · subst heq
    rw [List.getElem?_set_self (List.getElem?_eq_some_iff.mp hb).1] at hb'
    obtain rfl := Option.some.inj hb'
    rcases hl n hn with hmem | hnew
    · exact h b l hb n hmem x hx
    · exact hnew x hx
  · rw [List.getElem?_set_ne heq] at hb'
    exact h b' vTried hb' n hn x hx

namespace AddrMan

variable {env : AddrEnv} {newSize : ℕ} {K K' : AddrRecord → Prop} {s : AddrMan}
  {pending pending' : Option ℤ} {n : ℤ}
  {info info' : AddrInfo}

theorem holds_empty (env : AddrEnv) (K : AddrRecord → Prop) {nKey : List UInt8}
    (hkey : nKey.length = 32) : (empty nKey).Holds env K none where
  key := hkey
  nIdCount := le_refl _
  id n a h := by cases h
  addr a n := by simp [empty, infoOf]
  random := Indexes.nil fun n => rfl
  shared := SharedBuckets.empty (bucketLimits addrmanNewBucketSize) _
  own := OwnBuckets.empty (bucketLimits addrmanNewBucketSize) _
  newLength := List.length_replicate
  triedLength := List.length_replicate
  nTried := by simp [empty]
  nNew := rfl
  keeps n p h := by cases h
  placed b vTried hb n hn x hx := by cases hx

theorem Agrees.keeps_of_lookup (h : Agrees env newSize K s pending)
    (hn : s.mapInfo.lookup n = some info) :
    info.Keeps K :=
  h.keeps n _ (infoOf_of_lookup hn)

namespace Holds

theorem mono (h : Holds env K s pending) (hK : ∀ r, K r → K' r) : Holds env K' s pending :=
  { h with
    keeps := fun n p hp => by
      obtain ⟨info, hinfo, rfl⟩ := infoOf_eq_some.mp hp
      obtain ⟨hsuccess, hrecord⟩ := h.keeps_of_lookup hinfo
      exact ⟨hsuccess, hK _ hrecord⟩ }

theorem change (h : Holds env K s pending) {mapInfo : AList fun _ : ℤ => AddrInfo}
    (hservice : infoOf (·.toNetService) mapInfo = infoOf (·.toNetService) s.mapInfo)
    (hpos : infoOf (·.nRandomPos) mapInfo = infoOf (·.nRandomPos) s.mapInfo)
    (hkeeps : ∀ n p, infoOf (AddrInfo.Keeps K) mapInfo n = some p → p)
    {vvNew : List (Finset ℤ)} {vvTried : List (List ℤ)} {nTried nNew : ℤ}
    (hshared : SharedBuckets (bucketLimits addrmanNewBucketSize) (infoOf AddrInfo.entry mapInfo) vvNew
      pending')
    (hown : OwnBuckets (bucketLimits addrmanNewBucketSize) (infoOf AddrInfo.entry mapInfo) vvTried)
    (hnewLength : vvNew.length = s.vvNew.length) (htriedLength : vvTried.length = s.vvTried.length)
    (hnTried : nTried = vvTried.flatten.length) (hnNew : nTried + nNew = s.nTried + s.nNew)
    (hplaced : InHashedBucket env s.nKey (infoOf (·.toNetService) s.mapInfo) vvTried) :
    Holds env K { s with
      mapInfo := mapInfo, vvNew := vvNew, vvTried := vvTried, nTried := nTried, nNew := nNew }
      pending' where
  key := h.key
  nIdCount := h.nIdCount
  id n a hn := h.id n a (by rwa [infoOf_ip hservice] at hn)
  addr a n := (h.addr a n).trans (by rw [infoOf_ip hservice])
  random := by
    change Indexes s.vRandom (infoOf (·.nRandomPos) mapInfo)
    rw [hpos]
    exact h.random
  shared := hshared
  own := hown
  newLength := hnewLength.trans h.newLength
  triedLength := htriedLength.trans h.triedLength
  nTried := hnTried
  nNew := hnNew.trans h.nNew
  keeps := hkeeps
  placed := by
    change InHashedBucket env s.nKey (infoOf (·.toNetService) mapInfo) vvTried
    rw [hservice]
    exact hplaced

theorem keeps_insert (h : Holds env K s pending) (n : ℤ) (ht : info'.Keeps K) :
    ∀ m p, infoOf (AddrInfo.Keeps K) (s.mapInfo.insert n info') m = some p → p := by
  intro m p hm
  rw [infoOf_insert] at hm
  by_cases heq : m = n
  · rw [heq, Function.update_self] at hm
    exact (Option.some.inj hm) ▸ ht
  · rw [Function.update_of_ne heq] at hm
    exact h.keeps m p hm

theorem changeInfo (h : Holds env K s pending) (hn : s.mapInfo.lookup n = some info) (info' : AddrInfo)
    (hservice : info'.toNetService = info.toNetService) (hpos : info'.nRandomPos = info.nRandomPos)
    (ht : info'.Keeps K) {vvNew : List (Finset ℤ)} {vvTried : List (List ℤ)} {nTried nNew : ℤ}
    (hshared : SharedBuckets (bucketLimits addrmanNewBucketSize)
      (Function.update (infoOf AddrInfo.entry s.mapInfo) n (some info'.entry)) vvNew pending')
    (hown : OwnBuckets (bucketLimits addrmanNewBucketSize)
      (Function.update (infoOf AddrInfo.entry s.mapInfo) n (some info'.entry)) vvTried)
    (hnewLength : vvNew.length = s.vvNew.length) (htriedLength : vvTried.length = s.vvTried.length)
    (hnTried : nTried = vvTried.flatten.length) (hnNew : nTried + nNew = s.nTried + s.nNew)
    (hplaced : InHashedBucket env s.nKey (infoOf (·.toNetService) s.mapInfo) vvTried) :
    Holds env K { s.setInfo n info' with
      vvNew := vvNew, vvTried := vvTried, nTried := nTried, nNew := nNew } pending' := by
  rw [← infoOf_insert] at hshared hown
  exact h.change (infoOf_insert_same hn hservice) (infoOf_insert_same hn hpos) (h.keeps_insert n ht)
    hshared hown hnewLength htriedLength hnTried hnNew hplaced

theorem setInfo (h : Holds env K s pending) (hn : s.mapInfo.lookup n = some info)
    (hservice : info'.toNetService = info.toNetService) (hpos : info'.nRandomPos = info.nRandomPos)
    (hentry : info'.entry = info.entry) (ht : info'.Keeps K) :
    Holds env K (s.setInfo n info') pending := by
  have hsame : Function.update (infoOf AddrInfo.entry s.mapInfo) n (some info'.entry) =
      infoOf AddrInfo.entry s.mapInfo := by
    rw [hentry, ← infoOf_of_lookup (f := AddrInfo.entry) hn, Function.update_eq_self]
  refine h.changeInfo hn info' hservice hpos ht ?_ ?_ rfl rfl h.nTried rfl h.placed
  · rw [hsame]
    exact h.shared
  · rw [hsame]
    exact h.own

end Holds

theorem find_eq_some {a : NetAddr} (h : s.find a = some (n, info)) :
    s.mapInfo.lookup n = some info := by
  obtain ⟨m, -, hm⟩ := Option.bind_eq_some_iff.mp h
  obtain ⟨info', hinfo, heq⟩ := Option.bind_eq_some_iff.mp hm
  obtain ⟨rfl, rfl⟩ := Prod.mk.inj (Option.some.inj heq)
  exact hinfo

theorem Holds.find_eq_none (h : Holds env K s pending) {a : NetAddr} (hnone : s.find a = none) :
    s.mapAddr.lookup a = none := by
  by_contra hne
  obtain ⟨n, hn⟩ := Option.ne_none_iff_exists'.mp hne
  obtain ⟨info, hinfo, -⟩ := infoOf_eq_some.mp ((h.addr a n).mp hn)
  rw [find, hn, Option.bind_eq_bind, Option.bind_some, hinfo] at hnone
  cases hnone

theorem Holds.attempt (h : Holds env K s pending) (addr : NetService) {nTime : ℤ}
    (hmono : ∀ r, K r → K' r)
    (hK : ∀ r, K r → K' { r with nLastTry := nTime, nAttempts := r.nAttempts + 1 }) :
    Holds env K' (s.attempt addr nTime) pending := by
  unfold AddrMan.attempt
  split
  · exact h.mono hmono
  · rename_i n info hfind
    split
    · exact h.mono hmono
    · have hn := find_eq_some hfind
      obtain ⟨hsuccess, hrecord⟩ := h.keeps_of_lookup hn
      exact (h.mono hmono).setInfo hn rfl rfl rfl ⟨hsuccess, hK _ hrecord⟩

theorem Holds.connected (h : Holds env K s pending) (addr : NetService) (nTime : ℤ) :
    Holds env K (s.connected addr nTime) pending := by
  unfold AddrMan.connected
  split
  · exact h
  · rename_i n info hfind
    split
    · exact h
    · split
      · have hn := find_eq_some hfind
        have hkeeps := h.keeps_of_lookup hn
        exact h.setInfo hn rfl rfl rfl hkeeps
      · exact h

theorem setInfo_vRandom (s : AddrMan) (n : ℤ) (info : AddrInfo) :
    (s.setInfo n info).vRandom = s.vRandom := rfl

theorem exists_swapRandom (h : Indexes s.vRandom (infoOf (·.nRandomPos) s.mapInfo)) {i j : ℕ}
    {m n : ℤ} (hi : s.vRandom[i]? = some m) (hj : s.vRandom[j]? = some n) :
    ∃ mapInfo vRandom, s.swapRandom i j = some { s with mapInfo := mapInfo, vRandom := vRandom } ∧
      Indexes vRandom (infoOf (·.nRandomPos) mapInfo) ∧ vRandom.length = s.vRandom.length ∧
      vRandom[j]? = some m ∧
      infoOf AddrInfo.placeless mapInfo = infoOf AddrInfo.placeless s.mapInfo := by
  by_cases hij : i = j
  · subst hij
    exact ⟨s.mapInfo, s.vRandom, if_pos rfl, h, rfl, hi, rfl⟩
  · obtain ⟨infoM, hm, -⟩ := infoOf_eq_some.mp (h.pos_of_getElem i m hi)
    obtain ⟨infoN, hn, -⟩ := infoOf_eq_some.mp (h.pos_of_getElem j n hj)
    have hne : n ≠ m := by
      rintro rfl
      have hlt : i < s.vRandom.length := (List.getElem?_eq_some_iff.mp hi).1
      exact hij ((List.getElem?_inj hlt h.nodup).mp (hi.trans hj.symm))
    have hn' : (s.mapInfo.insert m { infoM with nRandomPos := j }).lookup n = some infoN := by
      rw [AList.lookup_insert_ne hne, hn]
    have hlt : j < (s.vRandom.set i n).length := by
      rw [List.length_set]
      exact (List.getElem?_eq_some_iff.mp hj).1
    refine ⟨(s.mapInfo.insert m { infoM with nRandomPos := j }).insert n
        { infoN with nRandomPos := i }, (s.vRandom.set i n).set j m, ?_, ?_, ?_,
      List.getElem?_set_self hlt, ?_⟩
    · rw [swapRandom, if_neg (by omega), if_neg (by omega), Int.toNat_natCast, Int.toNat_natCast, hi,
        hj]
      simp only [Option.bind_eq_bind, Option.bind_some, hm, AddrMan.setInfo, hn']
      rfl
    · rw [infoOf_insert, infoOf_insert]
      exact h.swap hi hj
    · rw [List.length_set, List.length_set]
    · have hplaceless : infoOf AddrInfo.placeless
          (s.mapInfo.insert m { infoM with nRandomPos := j }) = infoOf AddrInfo.placeless s.mapInfo :=
        infoOf_insert_same hm rfl
      rw [← hplaceless]
      exact infoOf_insert_same hn' rfl

theorem Holds.swapRandom (h : Holds env K s pending) {i j : ℕ} {m n : ℤ} (hi : s.vRandom[i]? = some m)
    (hj : s.vRandom[j]? = some n) : ∃ s', s.swapRandom i j = some s' ∧ Holds env K s' pending ∧
      s'.vRandom.length = s.vRandom.length := by
  obtain ⟨mapInfo, vRandom, hswap, hrandom, hlength, -, hplaceless⟩ := exists_swapRandom h.random hi hj
  refine ⟨_, hswap, ?_, hlength⟩
  have hentry : infoOf AddrInfo.entry mapInfo = infoOf AddrInfo.entry s.mapInfo :=
    infoOf_placeless hplaceless AddrInfo.entry
  have hservice : infoOf (·.toNetService) mapInfo = infoOf (·.toNetService) s.mapInfo :=
    infoOf_placeless hplaceless (·.toNetService)
  have hkeeps : infoOf (AddrInfo.Keeps K) mapInfo = infoOf (AddrInfo.Keeps K) s.mapInfo :=
    infoOf_placeless hplaceless (AddrInfo.Keeps K)
  exact
    { key := h.key
      nIdCount := h.nIdCount
      id := fun n a hn => h.id n a (by rwa [infoOf_ip hservice] at hn)
      addr := fun a n => (h.addr a n).trans (by rw [infoOf_ip hservice])
      random := hrandom
      shared := hentry ▸ h.shared
      own := hentry ▸ h.own
      newLength := h.newLength
      triedLength := h.triedLength
      nTried := h.nTried
      nNew := h.nNew.trans (congrArg _ hlength.symm)
      keeps := fun n p hn => h.keeps n p (by rwa [hkeeps] at hn)
      placed := hservice ▸ h.placed }

theorem Holds.exists_getAddrLoop (h : Holds env K s pending) (rand : Draws) (nNodes n : ℕ)
    (hle : n + nNodes ≤ s.vRandom.length) :
    ∃ vAddr s', getAddrLoop rand nNodes n s = some (vAddr, s') ∧ Holds env K s' pending := by
  induction nNodes generalizing n s with
  | zero => exact ⟨[], s, rfl, h⟩
  | succ nNodes ih =>
    have hlt : n < s.vRandom.length := by omega
    have hdraw : rand n % (s.vRandom.length - n) < s.vRandom.length - n := Nat.mod_lt _ (by omega)
    have hpos : rand n % (s.vRandom.length - n) + n < s.vRandom.length := by omega
    obtain ⟨s₁, hswap, h₁, hlength⟩ :=
      h.swapRandom (List.getElem?_eq_getElem hlt) (List.getElem?_eq_getElem hpos)
    have hlt₁ : n < s₁.vRandom.length := by omega
    obtain ⟨info, hinfo, -⟩ := infoOf_eq_some.mp
      (h₁.random.pos_of_getElem n _ (List.getElem?_eq_getElem hlt₁))
    obtain ⟨vAddr, s', hloop, h'⟩ := ih h₁ (n + 1) (by omega)
    refine ⟨info.toNetAddress :: vAddr, s', ?_, h'⟩
    rw [getAddrLoop]
    dsimp only
    simp only [hswap, Option.bind_eq_bind, Option.bind_some, List.getElem?_eq_getElem hlt₁, hinfo,
      hloop]
    rfl

theorem Holds.exists_getAddr (h : Holds env K s pending) (rand : Draws) :
    ∃ vAddr s', s.getAddr rand = some (vAddr, s') ∧ Holds env K s' pending := by
  refine h.exists_getAddrLoop rand _ 0 ?_
  omega

end AddrMan

end Beancash
