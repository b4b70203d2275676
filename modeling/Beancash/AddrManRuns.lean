import Beancash.AddrManBuckets
import Mathlib.Algebra.Order.Group.Int

namespace Beancash

open BucketTable

namespace AddrMan

/-- What `Check_` finds wrong with an entry, or 0. -/
def checkEntry (s : AddrMan) (n : ℤ) (info : AddrInfo) : ℤ :=
  if info.fInTried ∧ info.nLastSuccess = 0 then -1
  else if info.fInTried ∧ info.nRefCount ≠ 0 then -2
  else if ¬info.fInTried ∧ (info.nRefCount < 0 ∨ addrmanNewBucketsPerAddress < info.nRefCount) then -3
  else if ¬info.fInTried ∧ info.nRefCount = 0 then -4
  else if (s.mapAddr.lookup info.ip).getD 0 ≠ n then -5
  else if info.nRandomPos < 0 ∨ (s.vRandom.length : ℤ) ≤ info.nRandomPos ∨
      s.vRandom[info.nRandomPos.toNat]? ≠ some n then -14
  else if info.nLastTry < 0 then -6
  else if info.nLastSuccess < 0 then -8
  else 0

/-- The ids, in the order of the map. -/
def ids (s : AddrMan) : List ℤ := inOrder s.mapInfo.keys.toFinset

/-- The entries, in this order. -/
def infos (s : AddrMan) : List (ℤ × AddrInfo) :=
  s.ids.filterMap fun n => (s.mapInfo.lookup n).map fun info => (n, info)

/-- The entries of the tried buckets are taken from the set. -/
def checkTried (setTried : Finset ℤ) : List ℤ → Option (Finset ℤ)
  | [] => some setTried
  | n :: vTried => if n ∉ setTried then none else checkTried (setTried.erase n) vTried

/-- The entries of the new buckets are counted down. -/
def checkNew (mapNew : AList fun _ : ℤ => ℤ) : List ℤ → Option (AList fun _ : ℤ => ℤ)
  | [] => some mapNew
  | n :: vNew =>
    match mapNew.lookup n with
    | none => none
    | some nRefCount =>
      checkNew (if nRefCount - 1 = 0 then mapNew.erase n else mapNew.insert n (nRefCount - 1)) vNew

/-- The rest of `Check_`: the entries are counted, and looked for in the buckets. -/
def checkBuckets (s : AddrMan) : ℤ :=
  let setTried := ((s.infos.filter (·.2.fInTried)).map Prod.fst).toFinset
  let mapNew := (s.infos.filter (!·.2.fInTried)).foldl
    (fun mapNew p => mapNew.insert p.1 p.2.nRefCount) (∅ : AList fun _ : ℤ => ℤ)
  if (setTried.card : ℤ) ≠ s.nTried then -9
  else if (mapNew.entries.length : ℤ) ≠ s.nNew then -10
  else
    match checkTried setTried s.vvTried.flatten with
    | none => -11
    | some setTried =>
      match checkNew mapNew (s.vvNew.flatMap inOrder) with
      | none => -12
      | some mapNew =>
        if setTried ≠ ∅ then -13 else if mapNew.entries ≠ [] then -15 else 0

def check (s : AddrMan) : ℤ :=
  if (s.vRandom.length : ℤ) ≠ s.nTried + s.nNew then -7
  else
    match (s.infos.map fun p => s.checkEntry p.1 p.2).find? (· ≠ 0) with
    | some nError => nError
    | none => s.checkBuckets

end AddrMan

/-- The calls of the manager. -/
inductive AddrCall
  | add (addr : NetAddress) (source : NetAddr) (nTimePenalty : ℤ)
  | good (addr : NetService) (nTime : ℤ)
  | attempt (addr : NetService) (nTime : ℤ)
  | connected (addr : NetService) (nTime : ℤ)
  | getAddr

/-- `Good_` is called with a time. -/
def AddrCall.HasTime : AddrCall → Prop
  | .good _ nTime => nTime ≠ 0
  | _ => True

/-- The times of `Good_` and `Attempt_` are not negative. -/
def AddrCall.Nonneg : AddrCall → Prop
  | .good _ nTime => 0 ≤ nTime
  | .attempt _ nTime => 0 ≤ nTime
  | _ => True

/-- What a call finds: the clocks, and the draws. -/
structure AddrOutcome where
  nAdjustedTime : ℤ
  nNow : ℤ → ℤ
  rand : Draws

namespace AddrMan

/-- What a call makes of the manager; `none` is a failed assertion. -/
def step (env : AddrEnv) (s : AddrMan) (x : AddrCall × AddrOutcome) : Option AddrMan :=
  match x.1 with
  | .add addr source nTimePenalty =>
    (s.add env x.2.nAdjustedTime x.2.nNow x.2.rand addr source nTimePenalty).map Prod.snd
  | .good addr nTime => s.good env x.2.rand addr nTime
  | .attempt addr nTime => some (s.attempt addr nTime)
  | .connected addr nTime => some (s.connected addr nTime)
  | .getAddr => (s.getAddr x.2.rand).map Prod.snd

end AddrMan

/-- What the call says of an address is kept, from `K` to `K'`. -/
def AddrCall.Keeps (K K' : AddrRecord → Prop) : AddrCall → Prop
  | .add addr source _ => K' ⟨addr.toNetService, source, 0, 0, 0⟩
  | .good _ nTime =>
    ∀ r, K r → K' { r with nLastTry := nTime, nLastSuccess := nTime, nAttempts := 0 }
  | .attempt _ nTime => ∀ r, K r → K' { r with nLastTry := nTime, nAttempts := r.nAttempts + 1 }
  | _ => True

namespace AddrMan

variable {env : AddrEnv} {newSize : ℕ} {K K' : AddrRecord → Prop} {s : AddrMan} {pending : Option ℤ}
  {n : ℤ}
  {info : AddrInfo}

theorem Holds.exists_step (h : Holds env K s none) {x : AddrCall × AddrOutcome}
    (htime : x.1.HasTime) (hmono : ∀ r, K r → K' r) (hcall : x.1.Keeps K K') :
    ∃ s', s.step env x = some s' ∧ Holds env K' s' none := by
  obtain ⟨call, outcome⟩ := x
  cases call with
  | add addr source nTimePenalty =>
    obtain ⟨fNew, s', hs', h'⟩ := (h.mono hmono).exists_add outcome.nAdjustedTime outcome.nNow
      outcome.rand addr source nTimePenalty hcall
    exact ⟨s', congrArg (Option.map Prod.snd) hs', h'⟩
  | good addr nTime => exact h.exists_good outcome.rand addr htime hmono hcall
  | attempt addr nTime => exact ⟨_, rfl, h.attempt addr hmono hcall⟩
  | connected addr nTime => exact ⟨_, rfl, (h.mono hmono).connected addr nTime⟩
  | getAddr =>
    obtain ⟨vAddr, s', hs', h'⟩ := (h.mono hmono).exists_getAddr outcome.rand
    exact ⟨s', congrArg (Option.map Prod.snd) hs', h'⟩

theorem Holds.exists_run {K : ℕ → AddrRecord → Prop} (hmono : ∀ i r, K i r → K (i + 1) r) {i : ℕ}
    (h : Holds env (K i) s none) {calls : List (AddrCall × AddrOutcome)}
    (htime : ∀ x ∈ calls, x.1.HasTime) (hcalls : ∀ x ∈ calls, ∀ i, x.1.Keeps (K i) (K (i + 1))) :
    ∃ s', calls.foldlM (step env) s = some s' ∧ Holds env (K (i + calls.length)) s' none := by
  induction calls generalizing s i with
  | nil => exact ⟨s, rfl, h⟩
  | cons x calls ih =>
    obtain ⟨hx, htail⟩ := List.forall_mem_cons.mp htime
    obtain ⟨hcall, hcalls⟩ := List.forall_mem_cons.mp hcalls
    obtain ⟨s₁, hs₁, h₁⟩ := h.exists_step hx (hmono i) (hcall i)
    obtain ⟨s', hs', h'⟩ := ih h₁ htail hcalls
    refine ⟨s', by rw [List.foldlM_cons, hs₁]; exact hs', ?_⟩
    rwa [List.length_cons, Nat.add_comm calls.length, ← Nat.add_assoc]

section Ids

variable {s' : AddrMan} {rand : Draws} {nNow : ℤ → ℤ} {b : ℕ}

theorem nIdCount_swapRandom {i j : ℤ} (h : s.swapRandom i j = some s') : s'.nIdCount = s.nIdCount := by
  simp only [swapRandom, setInfo, Option.bind_eq_bind] at h
  split_ifs at h
  · cases h
    rfl
  · obtain ⟨nId₁, -, h⟩ := Option.bind_eq_some_iff.mp h
    obtain ⟨nId₂, -, h⟩ := Option.bind_eq_some_iff.mp h
    obtain ⟨info₁, -, h⟩ := Option.bind_eq_some_iff.mp h
    obtain ⟨info₂, -, h⟩ := Option.bind_eq_some_iff.mp h
    cases h
    rfl

theorem nIdCount_removeNew (h : s.removeNew b n = some s') : s'.nIdCount = s.nIdCount := by
  obtain ⟨vNew, -, h⟩ := Option.bind_eq_some_iff.mp h
  obtain ⟨info, -, h⟩ := Option.bind_eq_some_iff.mp h
  dsimp only at h
  split_ifs at h
  · obtain ⟨s₁, hs₁, h⟩ := Option.bind_eq_some_iff.mp h
    cases h
    exact (nIdCount_swapRandom hs₁).trans rfl
  · cases h
    rfl

theorem nIdCount_shrinkNew (h : s.shrinkNew nNow rand b = some s') : s'.nIdCount = s.nIdCount := by
  obtain ⟨vNew, -, h⟩ := Option.bind_eq_some_iff.mp h
  obtain ⟨terrible, -, h⟩ := Option.bind_eq_some_iff.mp h
  cases terrible with
  | some nId => exact nIdCount_removeNew h
  | none =>
    obtain ⟨nOldest, -, h⟩ := Option.bind_eq_some_iff.mp h
    exact nIdCount_removeNew h

theorem nIdCount_addToBucket {info : AddrInfo} {source : NetAddr}
    (h : s.addToBucket env nNow rand n info source = some s') : s'.nIdCount = s.nIdCount := by
  obtain ⟨vNew, -, h⟩ := Option.bind_eq_some_iff.mp h
  split_ifs at h
  · cases h
    rfl
  · obtain ⟨s₁, hs₁, h⟩ := Option.bind_eq_some_iff.mp h
    obtain ⟨vNew₁, -, h⟩ := Option.bind_eq_some_iff.mp h
    cases h
    exact (nIdCount_shrinkNew hs₁).trans rfl
  · obtain ⟨s₁, hs₁, h⟩ := Option.bind_eq_some_iff.mp h
    obtain ⟨vNew₁, -, h⟩ := Option.bind_eq_some_iff.mp h
    cases hs₁
    cases h
    rfl

theorem nIdCount_add_le {nAdjustedTime nTimePenalty : ℤ} {addr : NetAddress} {source : NetAddr}
    {r : Bool × AddrMan} (h : s.add env nAdjustedTime nNow rand addr source nTimePenalty = some r) :
    r.2.nIdCount ≤ s.nIdCount + 1 := by
  rw [add] at h
  split_ifs at h
  · cases h
    exact Int.le_add_one le_rfl
  · cases hfind : s.find addr.ip with
    | none =>
      rw [hfind] at h
      obtain ⟨s', hs', rfl⟩ := Option.map_eq_some_iff.mp h
      exact le_of_eq ((nIdCount_addToBucket hs').trans rfl)
    | some p =>
      rw [hfind] at h
      dsimp only at h
      split_ifs at h
      iterate 4
        · cases h
          exact Int.le_add_one le_rfl
      · obtain ⟨s', hs', rfl⟩ := Option.map_eq_some_iff.mp h
        exact Int.le_add_one (le_of_eq ((nIdCount_addToBucket hs').trans rfl))

theorem nIdCount_moveBack (h : s.moveBack env n b = some s') : s'.nIdCount = s.nIdCount := by
  obtain ⟨info, -, h⟩ := Option.bind_eq_some_iff.mp h
  obtain ⟨vNew, -, h⟩ := Option.bind_eq_some_iff.mp h
  obtain ⟨vOrigin, -, h⟩ := Option.bind_eq_some_iff.mp h
  cases h
  rfl

theorem nIdCount_makeTried {info : AddrInfo} (h : s.makeTried env rand info n b = some s') :
    s'.nIdCount = s.nIdCount := by
  obtain ⟨vOrigin, -, h⟩ := Option.bind_eq_some_iff.mp h
  dsimp only [clearNew] at h
  split_ifs at h
  obtain ⟨vTried, -, h⟩ := Option.bind_eq_some_iff.mp h
  split_ifs at h
  · cases h
    rfl
  · obtain ⟨search, -, h⟩ := Option.bind_eq_some_iff.mp h
    obtain ⟨nOld, -, h⟩ := Option.bind_eq_some_iff.mp h
    obtain ⟨s₁, hs₁, h⟩ := Option.bind_eq_some_iff.mp h
    cases h
    exact (nIdCount_moveBack hs₁).trans rfl

theorem nIdCount_good {addr : NetService} {nTime : ℤ} (h : s.good env rand addr nTime = some s') :
    s'.nIdCount = s.nIdCount := by
  rw [good] at h
  cases hfind : s.find addr.ip with
  | none =>
    rw [hfind] at h
    cases h
    rfl
  | some p =>
    rw [hfind] at h
    dsimp only at h
    split_ifs at h
    · cases h
      rfl
    · cases h
      rfl
    · split at h
      · cases h
        rfl
      · exact (nIdCount_makeTried h).trans rfl

theorem nIdCount_getAddrLoop {nNodes i : ℕ} {r : List NetAddress × AddrMan}
    (h : getAddrLoop rand nNodes i s = some r) : r.2.nIdCount = s.nIdCount := by
  induction nNodes generalizing i s r with
  | zero =>
    cases h
    rfl
  | succ nNodes ih =>
    obtain ⟨s₁, hs₁, h⟩ := Option.bind_eq_some_iff.mp h
    obtain ⟨nId, -, h⟩ := Option.bind_eq_some_iff.mp h
    obtain ⟨info, -, h⟩ := Option.bind_eq_some_iff.mp h
    obtain ⟨r₁, hr₁, h⟩ := Option.bind_eq_some_iff.mp h
    cases h
    exact (ih hr₁).trans (nIdCount_swapRandom hs₁)

theorem nIdCount_attempt (s : AddrMan) (addr : NetService) (nTime : ℤ) :
    (s.attempt addr nTime).nIdCount = s.nIdCount := by
  rw [attempt]
  split
  · rfl
  · split_ifs <;> rfl

theorem nIdCount_connected (s : AddrMan) (addr : NetService) (nTime : ℤ) :
    (s.connected addr nTime).nIdCount = s.nIdCount := by
  rw [connected]
  split
  · rfl
  · split_ifs <;> rfl

theorem nIdCount_step_le {x : AddrCall × AddrOutcome} (h : s.step env x = some s') :
    s'.nIdCount ≤ s.nIdCount + 1 := by
  obtain ⟨call, outcome⟩ := x
  cases call with
  | add addr source nTimePenalty =>
    obtain ⟨r, hr, rfl⟩ := Option.map_eq_some_iff.mp h
    exact nIdCount_add_le hr
  | good addr nTime => exact Int.le_add_one (le_of_eq (nIdCount_good h))
  | attempt addr nTime =>
    obtain rfl := Option.some.inj h
    exact Int.le_add_one (le_of_eq (nIdCount_attempt s addr nTime))
  | connected addr nTime =>
    obtain rfl := Option.some.inj h
    exact Int.le_add_one (le_of_eq (nIdCount_connected s addr nTime))
  | getAddr =>
    obtain ⟨r, hr, rfl⟩ := Option.map_eq_some_iff.mp h
    exact Int.le_add_one (le_of_eq (nIdCount_getAddrLoop hr))

theorem nIdCount_run_le {calls : List (AddrCall × AddrOutcome)}
    (h : calls.foldlM (step env) s = some s') : s'.nIdCount ≤ s.nIdCount + calls.length := by
  induction calls generalizing s with
  | nil =>
    obtain rfl := Option.some.inj h
    simp
  | cons x calls ih =>
    rw [List.foldlM_cons] at h
    obtain ⟨s₁, hs₁, hrest⟩ := Option.bind_eq_some_iff.mp h
    have hstep := nIdCount_step_le hs₁
    have htail := ih hrest
    rw [List.length_cons]
    omega

end Ids

theorem checkTried_eq {setTried : Finset ℤ} {vTried : List ℤ} (hnodup : vTried.Nodup)
    (h : ∀ n, n ∈ vTried ↔ n ∈ setTried) : checkTried setTried vTried = some ∅ := by
  induction vTried generalizing setTried with
  | nil =>
    have hempty : setTried = ∅ :=
      Finset.eq_empty_of_forall_notMem fun n hn => List.not_mem_nil ((h n).mpr hn)
    rw [checkTried, hempty]
  | cons m vTried ih =>
    obtain ⟨hm, htail⟩ := List.nodup_cons.mp hnodup
    have hmem : m ∈ setTried := (h m).mp List.mem_cons_self
    rw [checkTried, if_neg (not_not.mpr hmem)]
    refine ih htail fun n => ?_
    rw [Finset.mem_erase, ← h n, List.mem_cons]
    constructor
    · exact fun hn => ⟨fun heq => hm (heq ▸ hn), .inr hn⟩
    · rintro ⟨hne, hn⟩
      exact hn.resolve_left hne

theorem exists_checkNew {mapNew : AList fun _ : ℤ => ℤ} {vNew : List ℤ}
    (hpos : ∀ n r, mapNew.lookup n = some r → 0 < r)
    (hcount : ∀ n, (vNew.count n : ℤ) = (mapNew.lookup n).getD 0) :
    ∃ left, checkNew mapNew vNew = some left ∧ left.entries = [] := by
  induction vNew generalizing mapNew with
  | nil =>
    refine ⟨mapNew, rfl, ?_⟩
    cases hentries : mapNew.entries with
    | nil => rfl
    | cons e entries =>
      have hmem : e.1 ∈ mapNew := by
        rw [AList.mem_keys, AList.keys, hentries]
        exact List.mem_cons_self
      obtain ⟨r, hr⟩ := Option.isSome_iff_exists.mp (AList.lookup_isSome.mpr hmem)
      have hzero := hcount e.1
      rw [hr, List.count_nil] at hzero
      have hlt := hpos e.1 r hr
      rw [Option.getD_some] at hzero
      omega
  | cons m vNew ih =>
    have hm := hcount m
    rw [List.count_cons_self] at hm
    cases hlookup : mapNew.lookup m with
    | none =>
      rw [hlookup, Option.getD_none] at hm
      omega
    | some r =>
      rw [hlookup, Option.getD_some] at hm
      rw [checkNew, hlookup]
      dsimp only
      have hother : ∀ n, n ≠ m → (vNew.count n : ℤ) = (mapNew.lookup n).getD 0 := by
        intro n hne
        rw [← hcount n, List.count_cons_of_ne (Ne.symm hne)]
      by_cases hzero : r - 1 = 0
      · rw [if_pos hzero]
        refine ih (fun n r' hr' => ?_) fun n => ?_
        · by_cases heq : n = m
          · rw [heq, AList.lookup_erase] at hr'
            cases hr'
          · rw [AList.lookup_erase_ne heq] at hr'
            exact hpos n r' hr'
        · by_cases heq : n = m
          · rw [heq, AList.lookup_erase, Option.getD_none]
            omega
          · rw [AList.lookup_erase_ne heq, hother n heq]
      · rw [if_neg hzero]
        refine ih (fun n r' hr' => ?_) fun n => ?_
        · by_cases heq : n = m
          · rw [heq, AList.lookup_insert] at hr'
            obtain rfl := Option.some.inj hr'
            omega
          · rw [AList.lookup_insert_ne heq] at hr'
            exact hpos n r' hr'
        · by_cases heq : n = m
          · rw [heq, AList.lookup_insert, Option.getD_some]
            omega
          · rw [AList.lookup_insert_ne heq, hother n heq]

theorem count_flatMap_inOrder (vvNew : List (Finset ℤ)) (n : ℤ) :
    (vvNew.flatMap inOrder).count n = vvNew.countP (n ∈ ·) := by
  induction vvNew with
  | nil => rfl
  | cons c vvNew ih =>
    rw [List.flatMap_cons, List.count_append, ih, List.countP_cons, Nat.add_comm,
      (Finset.sort_nodup c (· ≤ ·)).count]
    simp

theorem lookup_foldl_refs {infos : List (ℤ × AddrInfo)} (hnodup : (infos.map Prod.fst).Nodup)
    (mapNew : AList fun _ : ℤ => ℤ) (n : ℤ) :
    (infos.foldl (fun mapNew p => mapNew.insert p.1 p.2.nRefCount) mapNew).lookup n =
      ((infos.find? (·.1 = n)).map (·.2.nRefCount)).or (mapNew.lookup n) := by
  induction infos generalizing mapNew with
  | nil => rfl
  | cons p infos ih =>
    obtain ⟨hp, htail⟩ := List.nodup_cons.mp hnodup
    rw [List.foldl_cons, ih htail, List.find?_cons]
    by_cases heq : p.1 = n
    · have hnone : infos.find? (·.1 = n) = none := by
        rw [List.find?_eq_none]
        intro q hq
        rw [decide_eq_true_iff]
        exact fun hqn => hp (List.mem_map.mpr ⟨q, hq, hqn.trans heq.symm⟩)
      rw [hnone, heq, AList.lookup_insert]
      simp
    · rw [AList.lookup_insert_ne (Ne.symm heq)]
      simp [heq]

theorem length_foldl_refs {infos : List (ℤ × AddrInfo)} (hnodup : (infos.map Prod.fst).Nodup)
    {mapNew : AList fun _ : ℤ => ℤ} (hfresh : ∀ p ∈ infos, p.1 ∉ mapNew) :
    (infos.foldl (fun mapNew p => mapNew.insert p.1 p.2.nRefCount) mapNew).entries.length =
      mapNew.entries.length + infos.length := by
  induction infos generalizing mapNew with
  | nil => rfl
  | cons p infos ih =>
    obtain ⟨hp, htail⟩ := List.nodup_cons.mp hnodup
    obtain ⟨hhead, hfresh⟩ := List.forall_mem_cons.mp hfresh
    rw [List.foldl_cons, ih htail fun q hq => ?_, AList.entries_insert_of_notMem hhead,
      List.length_cons, List.length_cons]
    · omega
    · rw [AList.mem_insert]
      rintro (heq | hmem)
      · exact hp (List.mem_map.mpr ⟨q, hq, heq⟩)
      · exact hfresh q hq hmem

theorem mem_infos {p : ℤ × AddrInfo} : p ∈ s.infos ↔ s.mapInfo.lookup p.1 = some p.2 := by
  rw [infos, List.mem_filterMap]
  constructor
  · rintro ⟨n, -, hp⟩
    obtain ⟨info, hinfo, rfl⟩ := Option.map_eq_some_iff.mp hp
    exact hinfo
  · intro hp
    refine ⟨p.1, ?_, by rw [hp]; rfl⟩
    have hmem : p.1 ∈ s.mapInfo := AList.lookup_isSome.mp (by rw [hp]; rfl)
    exact (Finset.mem_sort _).mpr (List.mem_toFinset.mpr (AList.mem_keys.mp hmem))

theorem nodup_infos (s : AddrMan) : (s.infos.map Prod.fst).Nodup := by
  have hsublist : ∀ ids : List ℤ, ((ids.filterMap fun n =>
      (s.mapInfo.lookup n).map fun info => (n, info)).map Prod.fst).Sublist ids := by
    intro ids
    induction ids with
    | nil => exact List.Sublist.refl _
    | cons n ids ih =>
      rw [List.filterMap_cons]
      cases s.mapInfo.lookup n with
      | none => exact ih.cons n
      | some info => exact ih.cons_cons n
  exact (Finset.sort_nodup _ _).sublist (hsublist s.ids)

theorem Agrees.tried_perm (h : Agrees env newSize K s pending) :
    ((s.infos.filter (·.2.fInTried)).map Prod.fst).Perm s.vvTried.flatten := by
  have hsublist := (List.filter_sublist (p := fun p : ℤ × AddrInfo => p.2.fInTried)
    (l := s.infos)).map Prod.fst
  refine (List.perm_ext_iff_of_nodup ((nodup_infos s).sublist hsublist) h.own.nodup).mpr fun n => ?_
  rw [h.own.mem, List.mem_map]
  constructor
  · rintro ⟨p, hp, rfl⟩
    obtain ⟨hmem, htried⟩ := List.mem_filter.mp hp
    refine ⟨p.2.nRefCount, ?_⟩
    rw [infoOf_of_lookup (mem_infos.mp hmem), AddrInfo.entry, htried]
  · rintro ⟨r, hr⟩
    obtain ⟨info, hinfo, hentry⟩ := infoOf_eq_some.mp hr
    exact ⟨(n, info), List.mem_filter.mpr ⟨mem_infos.mpr hinfo, congrArg Entry.own hentry⟩, rfl⟩

theorem Agrees.infos_perm (h : Agrees env newSize K s pending) :
    (s.infos.map Prod.fst).Perm s.vRandom := by
  refine (List.perm_ext_iff_of_nodup (nodup_infos s) h.random.nodup).mpr fun n => ?_
  rw [h.random.mem_iff, Option.isSome_iff_exists, List.mem_map]
  constructor
  · rintro ⟨p, hp, rfl⟩
    exact ⟨_, infoOf_of_lookup (mem_infos.mp hp)⟩
  · rintro ⟨z, hz⟩
    obtain ⟨info, hinfo, -⟩ := infoOf_eq_some.mp hz
    exact ⟨(n, info), mem_infos.mpr hinfo, rfl⟩

theorem Agrees.length_tried (h : Agrees env newSize K s pending) :
    ((s.infos.filter (·.2.fInTried)).length : ℤ) = s.nTried := by
  have hlength := h.tried_perm.length_eq
  rw [List.length_map] at hlength
  rw [hlength, h.nTried]

theorem Agrees.length_new (h : Agrees env newSize K s pending) :
    ((s.infos.filter (!·.2.fInTried)).length : ℤ) = s.nNew := by
  have hsplit := List.length_eq_length_filter_add (l := s.infos) (·.2.fInTried)
  have htried := h.length_tried
  have hall := h.infos_perm.length_eq
  have hnNew := h.nNew
  rw [List.length_map] at hall
  omega

theorem Agrees.checkEntry_eq (h : Agrees env newSize K s none) (hinfo : s.mapInfo.lookup n = some info) :
    s.checkEntry n info =
      if info.nLastTry < 0 then -6 else if info.nLastSuccess < 0 then -8 else 0 := by
  obtain ⟨hsuccess, -⟩ := h.keeps_of_lookup hinfo
  obtain ⟨i, hpos, hi⟩ := h.random.exists_of_pos n _ (infoOf_of_lookup hinfo)
  have hlt : i < s.vRandom.length := (List.getElem?_eq_some_iff.mp hi).1
  have haddr : s.mapAddr.lookup info.ip = some n := (h.addr _ n).mpr (infoOf_of_lookup hinfo)
  have hrandom : ¬(info.nRandomPos < 0 ∨ (s.vRandom.length : ℤ) ≤ info.nRandomPos ∨
      s.vRandom[info.nRandomPos.toNat]? ≠ some n) := by
    rw [hpos, Int.toNat_natCast, hi]
    simp only [ne_eq, not_true_eq_false, or_false]
    omega
  have hown : info.fInTried = true → info.nRefCount = 0 := fun htried =>
    h.own.refs n _ (by rw [infoOf_of_lookup hinfo, AddrInfo.entry, htried])
  have hshared : info.fInTried = false → 1 ≤ info.nRefCount ∧ info.nRefCount ≤ 4 := fun hnew => by
    obtain ⟨hcount, hone, hle⟩ := (h.shared.counted n).refs _ (entry_of_new hinfo hnew)
    have hle : refCount s.vvNew none n ≤ 4 := hle
    omega
  rw [checkEntry, if_neg fun hbad => hsuccess hbad.1 hbad.2, if_neg fun hbad => hbad.2 (hown hbad.1),
    if_neg ?_, if_neg ?_, haddr, Option.getD_some, if_neg (not_not.mpr rfl), if_neg hrandom]
  · rintro ⟨hnew, hzero⟩
    have hbounds := hshared (Bool.eq_false_iff.mpr hnew)
    omega
  · rintro ⟨hnew, hbad⟩
    have hbounds := hshared (Bool.eq_false_iff.mpr hnew)
    rw [addrmanNewBucketsPerAddress] at hbad
    omega

theorem lookup_refs (n : ℤ) : ((s.infos.filter (!·.2.fInTried)).foldl
    (fun mapNew p => mapNew.insert p.1 p.2.nRefCount) (∅ : AList fun _ : ℤ => ℤ)).lookup n =
      ((s.mapInfo.lookup n).filter (!·.fInTried)).map (·.nRefCount) := by
  have hnodup : ((s.infos.filter (!·.2.fInTried)).map Prod.fst).Nodup :=
    (nodup_infos s).sublist (List.filter_sublist.map Prod.fst)
  have hfind : (s.infos.filter (!·.2.fInTried)).find? (·.1 = n) =
      ((s.mapInfo.lookup n).filter (!·.fInTried)).map fun info => (n, info) := by
    cases hfind : (s.infos.filter (!·.2.fInTried)).find? (·.1 = n) with
    | none =>
      rw [List.find?_eq_none] at hfind
      cases hinfo : s.mapInfo.lookup n with
      | none => rfl
      | some info =>
        cases htried : info.fInTried with
        | true => simp [Option.filter, htried]
        | false =>
          have hmem : (n, info) ∈ s.infos.filter (!·.2.fInTried) :=
            List.mem_filter.mpr ⟨mem_infos.mpr hinfo, by simp [htried]⟩
          exact absurd (decide_eq_true rfl) (hfind _ hmem)
    | some p =>
      obtain ⟨hmem, hnew⟩ := List.mem_filter.mp (List.mem_of_find?_eq_some hfind)
      have hsome := List.find?_some hfind
      obtain rfl : p.1 = n := of_decide_eq_true hsome
      rw [mem_infos.mp hmem]
      simp only [Option.filter, hnew]
      rfl
  rw [lookup_foldl_refs hnodup, hfind, Option.map_map, AList.lookup_empty, Option.or_none]
  rfl

theorem Agrees.refs_pos (h : Agrees env newSize K s none) {r : ℤ}
    (hr : ((s.mapInfo.lookup n).filter (!·.fInTried)).map (·.nRefCount) = some r) : 0 < r := by
  obtain ⟨info, hinfo, rfl⟩ := Option.map_eq_some_iff.mp hr
  obtain ⟨hlookup, hnew⟩ := Option.filter_eq_some_iff.mp hinfo
  rw [Bool.not_eq_true'] at hnew
  obtain ⟨hcount, hone, -⟩ := (h.shared.counted n).refs _ (entry_of_new hlookup hnew)
  omega

theorem Agrees.count_eq (h : Agrees env newSize K s none) (n : ℤ) :
    ((s.vvNew.flatMap inOrder).count n : ℤ) =
      (((s.mapInfo.lookup n).filter (!·.fInTried)).map (·.nRefCount)).getD 0 := by
  have hcounted := h.shared.counted n
  rw [refCount, if_neg (by simp), Nat.add_zero] at hcounted
  rw [count_flatMap_inOrder]
  cases hinfo : s.mapInfo.lookup n with
  | none =>
    have hzero := hcounted.zero fun r hr => by
      rw [infoOf, hinfo] at hr
      cases hr
    rw [hzero]
    rfl
  | some info =>
    cases hnew : info.fInTried with
    | true =>
      have hzero := hcounted.zero fun r hr => by
        rw [infoOf_of_lookup hinfo, AddrInfo.entry, hnew] at hr
        cases hr
      rw [hzero]
      simp [Option.filter, hnew]
    | false =>
      obtain ⟨hcount, -, -⟩ := hcounted.refs _ (entry_of_new hinfo hnew)
      simp [Option.filter, hnew, hcount]

theorem Agrees.checkBuckets_eq (h : Agrees env newSize K s none) : s.checkBuckets = 0 := by
  have hset : ∀ n, n ∈ s.vvTried.flatten ↔
      n ∈ ((s.infos.filter (·.2.fInTried)).map Prod.fst).toFinset := by
    intro n
    rw [List.mem_toFinset, h.tried_perm.mem_iff]
  have hcard : (((s.infos.filter (·.2.fInTried)).map Prod.fst).toFinset.card : ℤ) = s.nTried := by
    rw [List.toFinset_card_of_nodup (h.tried_perm.nodup_iff.mpr h.own.nodup), h.tried_perm.length_eq,
      h.nTried]
  have hnodup : ((s.infos.filter (!·.2.fInTried)).map Prod.fst).Nodup :=
    (nodup_infos s).sublist (List.filter_sublist.map Prod.fst)
  have hlength : (((s.infos.filter (!·.2.fInTried)).foldl
      (fun mapNew p => mapNew.insert p.1 p.2.nRefCount) (∅ : AList fun _ : ℤ => ℤ)).entries.length :
        ℤ) = s.nNew := by
    rw [length_foldl_refs hnodup fun p _ hmem => by simp at hmem, ← h.length_new]
    exact congrArg _ (Nat.zero_add _)
  have hsetEq := checkTried_eq h.own.nodup hset
  obtain ⟨left, hleft, hnil⟩ := exists_checkNew (fun n r hr => h.refs_pos (lookup_refs (s := s) n ▸ hr))
    fun n => (h.count_eq n).trans (by rw [lookup_refs])
  rw [checkBuckets, if_neg (not_not.mpr hcard), if_neg (not_not.mpr hlength), hsetEq]
  dsimp only
  rw [hleft]
  dsimp only
  rw [if_neg (not_not.mpr rfl), if_neg (not_not.mpr hnil)]

theorem Agrees.check_eq (h : Agrees env newSize K s none)
    (hT : ∀ r, K r → 0 ≤ r.nLastTry ∧ 0 ≤ r.nLastSuccess) : s.check = 0 := by
  have hentries : (s.infos.map fun p => s.checkEntry p.1 p.2).find? (· ≠ 0) = none := by
    rw [List.find?_eq_none]
    intro nError hmem
    obtain ⟨p, hp, rfl⟩ := List.mem_map.mp hmem
    obtain ⟨-, hrecord⟩ := h.keeps_of_lookup (mem_infos.mp hp)
    have htimes : 0 ≤ p.2.nLastTry ∧ 0 ≤ p.2.nLastSuccess := hT _ hrecord
    rw [h.checkEntry_eq (mem_infos.mp hp), if_neg (not_lt.mpr htimes.1),
      if_neg (not_lt.mpr htimes.2)]
    decide
  rw [check, if_neg (not_not.mpr h.nNew.symm), hentries]
  exact h.checkBuckets_eq

end AddrMan

/-- The addresses and times are of the size that they have in memory. -/
structure AddrRecord.Sized (r : AddrRecord) : Prop where
  ip : r.service.ip.length = 16
  source : r.source.length = 16
  nLastSuccess : -2 ^ 63 ≤ r.nLastSuccess ∧ r.nLastSuccess < 2 ^ 63

/-- The addresses and times of a call are. -/
def AddrCall.Sized : AddrCall → Prop
  | .add addr source _ => addr.ip.length = 16 ∧ source.length = 16
  | .good _ nTime => -2 ^ 63 ≤ nTime ∧ nTime < 2 ^ 63
  | _ => True

/-- What is kept of a record in `i` calls, where `T` says that no time is negative and `F` that
addresses and times are of the right size. -/
structure WithinCalls (T F : Prop) (i : ℕ) (r : AddrRecord) : Prop where
  times : T → 0 ≤ r.nLastTry ∧ 0 ≤ r.nLastSuccess
  sized : F → r.Sized
  nAttempts : 0 ≤ r.nAttempts ∧ r.nAttempts ≤ i

theorem WithinCalls.mono (T F : Prop) (i : ℕ) (r : AddrRecord) (h : WithinCalls T F i r) :
    WithinCalls T F (i + 1) r :=
  { h with nAttempts := ⟨h.nAttempts.1, h.nAttempts.2.trans (by omega)⟩ }

theorem AddrCall.keeps_withinCalls (call : AddrCall) {T F : Prop} (hT : T → call.Nonneg)
    (hF : F → call.Sized) {i : ℕ} : call.Keeps (WithinCalls T F i) (WithinCalls T F (i + 1)) := by
  cases call with
  | add addr source nTimePenalty =>
    exact ⟨fun _ => ⟨le_refl _, le_refl _⟩,
      fun h => ⟨(hF h).1, (hF h).2, by dsimp only; omega⟩, by dsimp only; omega⟩
  | good addr nTime =>
    intro r hr
    exact ⟨fun h => ⟨hT h, hT h⟩, fun h => ⟨(hr.sized h).ip, (hr.sized h).source, hF h⟩,
      by dsimp only; omega⟩
  | attempt addr nTime =>
    intro r hr
    have hAttempts := hr.nAttempts
    exact ⟨fun h => ⟨hT h, (hr.times h).2⟩, fun h => ⟨(hr.sized h).ip, (hr.sized h).source,
      (hr.sized h).nLastSuccess⟩, by dsimp only; omega⟩
  | connected addr nTime => trivial
  | getAddr => trivial

section Run

open AddrMan

variable (env : AddrEnv) {nKey : List UInt8} {calls : List (AddrCall × AddrOutcome)}

theorem AddrMan.exists_run_empty (hkey : nKey.length = 32) (htime : ∀ x ∈ calls, x.1.HasTime) :
    ∃ s, calls.foldlM (step env) (empty nKey) = some s ∧
      s.Holds env (WithinCalls (∀ x ∈ calls, x.1.Nonneg) False calls.length) none := by
  obtain ⟨s, hs, h⟩ := Holds.exists_run (WithinCalls.mono (∀ x ∈ calls, x.1.Nonneg) False)
    (holds_empty env _ hkey) htime fun x hx i => x.1.keeps_withinCalls (fun hT => hT x hx) False.elim
  exact ⟨s, hs, by rwa [Nat.zero_add] at h⟩

/-- Whatever is drawn and whatever the hashes are, no assertion fails in a run, no bucket is ever
larger than it may be, `Check_` finds nothing wrong, and the counters stay below the number of calls. -/
theorem addrMan_run (hkey : nKey.length = 32) (htime : ∀ x ∈ calls, x.1.HasTime) :
    ∃ s, calls.foldlM (step env) (empty nKey) = some s ∧
      (∀ vNew ∈ s.vvNew, vNew.card ≤ addrmanNewBucketSize) ∧
      (∀ vTried ∈ s.vvTried, vTried.length ≤ addrmanTriedBucketSize) ∧
      ((∀ x ∈ calls, x.1.Nonneg) → s.check = 0) ∧
      s.nIdCount ≤ calls.length ∧ ∀ p ∈ s.infos, p.2.nAttempts ≤ calls.length := by
  obtain ⟨s, hs, h⟩ := exists_run_empty env hkey htime
  refine ⟨s, hs, h.shared.size, h.own.size, fun hT => h.check_eq fun r hr => hr.times hT, ?_,
    fun p hp => (h.keeps_of_lookup (mem_infos.mp hp)).2.nAttempts.2⟩
  have hcount := nIdCount_run_le hs
  rwa [show (empty nKey).nIdCount = 0 from rfl, Int.zero_add] at hcount

end Run

namespace Sample

def oneBucket : AddrEnv := ⟨fun _ => 0, fun _ => [], fun _ => true⟩

def outcome : AddrOutcome := ⟨100, fun _ => 100, fun _ => 0⟩

def addrCalls : List (AddrCall × AddrOutcome) :=
  [(.add ⟨⟨.replicate 16 1, 8333⟩, 1, 100⟩ (.replicate 16 2) 0, outcome),
    (.add ⟨⟨.replicate 16 3, 8333⟩, 1, 90⟩ (.replicate 16 2) 0, outcome),
    (.good ⟨.replicate 16 1, 8333⟩ 200, outcome), (.attempt ⟨.replicate 16 3, 8333⟩ 210, outcome),
    (.getAddr, outcome)]

end Sample

open Sample AddrMan in
theorem addrMan_run_calls :
    ∃ s, addrCalls.foldlM (step oneBucket) (empty (.replicate 32 0)) = some s ∧ s.check = 0 := by
  obtain ⟨s, hs, -, -, hcheck, -⟩ := @addrMan_run oneBucket (.replicate 32 0) addrCalls rfl (by
    simp [addrCalls, AddrCall.HasTime])
  exact ⟨s, hs, hcheck (by simp [addrCalls, AddrCall.Nonneg])⟩

namespace Sample

def attemptedInfo : AddrInfo where
  ip := .replicate 16 1
  port := 8333
  nServices := 1
  nTime := 100
  source := .replicate 16 2
  nLastTry := -5
  nLastSuccess := 0
  nAttempts := 1
  nRefCount := 1
  fInTried := false
  nRandomPos := 0

end Sample

end Beancash
