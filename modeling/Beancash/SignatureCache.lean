import Beancash.AddressGroupings
import Beancash.CheckSig

namespace Beancash

/-- `sigdata_type`: the hash, the signature and the public key. -/
abbrev SigData := Uint256 × List UInt8 × List UInt8

def sigLess : SigData → SigData → Prop :=
  Prod.Lex (fun a b => a.toNat < b.toNat) (Prod.Lex strLess strLess)

instance : DecidableRel sigLess := fun a b => inferInstanceAs (Decidable (Prod.Lex _ _ a b))

instance : IsStrictTotalOrder SigData sigLess :=
  have horder : IsStrictTotalOrder SigData
      (Prod.Lex (fun a b => a.toNat < b.toNat) (Prod.Lex strLess strLess)) := { }
  horder

/-- `setValid` -/
abbrev SignatureCache := SortedMap sigLess Unit

namespace SignatureCache

def get (setValid : SignatureCache) (k : SigData) : Bool := setValid.contains k

/-- The first entry that is not before a random hash is evicted, or the first of all. -/
def evict (randomHash : Uint256) (setValid : SignatureCache) : SignatureCache :=
  -- a public key made of nothing is invalid
  let lower := setValid.entries.find? fun e => decide (¬sigLess e.1 (randomHash, [], [0xFF]))
  match lower.or setValid.entries.head? with
  | none => setValid
  | some e => setValid.erase e.1

/-- The loop of `Set`. -/
def evictLoop (nMaxCacheSize : ℤ) : ℕ → (ℕ → Uint256) → SignatureCache → SignatureCache
  | 0, _, setValid => setValid
  | k + 1, rand, setValid =>
    if nMaxCacheSize < setValid.entries.length then
      evictLoop nMaxCacheSize k (fun i => rand (i + 1)) (setValid.evict (rand 0))
    else setValid

def set (nMaxCacheSize : ℤ) (rand : ℕ → Uint256) (setValid : SignatureCache) (k : SigData) :
    SignatureCache :=
  if nMaxCacheSize ≤ 0 then setValid
  else (evictLoop nMaxCacheSize setValid.entries.length rand setValid).insertNew k ()

end SignatureCache

/-- What `CheckSig` is called with. -/
structure SigCheck where
  vchSig : List UInt8
  vchPubKey : List UInt8
  scriptCode : Script
  txTo : Transaction
  nIn : UInt32
  nHashType : Int32

def Crypto.verifies (c : Crypto) (k : SigData) : Bool := c.verify k.2.2 k.1 k.2.1

namespace SigCheck

/-- What is looked up, unless the check fails before. -/
def data (c : Crypto) (x : SigCheck) : Option SigData :=
  if !isValidPubKey x.vchPubKey then none
  else
    match x.vchSig.getLast? with
    | none => none
    | some back =>
      let hashByte := Int32.ofNat back.toNat
      if x.nHashType ≠ 0 ∧ x.nHashType ≠ hashByte then none
      else
        let sighash := signatureHash (fun bytes => .ofNat 256 (ByteStream.ofLittleEndian
          (c.hash bytes).toList)) x.scriptCode x.txTo x.nIn hashByte
        some (sighash, x.vchSig.dropLast, x.vchPubKey)

/-- The answer without a cache. -/
def answer (c : Crypto) (x : SigCheck) : Bool :=
  checkSig c x.vchSig x.vchPubKey x.scriptCode x.txTo x.nIn x.nHashType

theorem answer_eq (c : Crypto) (x : SigCheck) : x.answer c = (x.data c).any c.verifies := by
  rw [answer, checkSig, data]
  cases isValidPubKey x.vchPubKey with
  | false => rfl
  | true =>
    cases x.vchSig.getLast? with
    | none => rfl
    | some back =>
      by_cases hzero : x.nHashType = 0
      · simp [hzero, Crypto.verifies]
      · by_cases htype : x.nHashType = Int32.ofNat back.toNat
        · simp [htype, Crypto.verifies]
        · simp [hzero, htype]

end SigCheck

/-- The cache, the checks under way with what they verify, and those that are done. -/
structure SigChecks where
  setValid : SignatureCache
  working : List (SigCheck × SigData)
  done : List (SigCheck × Bool)

/-- A check looks its signature up, or it goes on after it was not found. -/
inductive SigEvent where
  | start (x : SigCheck)
  | finish (i : ℕ) (rand : ℕ → Uint256)

namespace SigChecks

def empty : SigChecks := ⟨.empty, [], []⟩

def step (c : Crypto) (nMaxCacheSize : ℤ) (s : SigChecks) : SigEvent → SigChecks
  | .start x =>
    match x.data c with
    | none => { s with done := s.done ++ [(x, false)] }
    | some k =>
      if s.setValid.get k then { s with done := s.done ++ [(x, true)] }
      else { s with working := s.working ++ [(x, k)] }
  | .finish i rand =>
    match s.working[i]? with
    | none => s
    | some (x, k) =>
      if !c.verifies k then
        { s with working := s.working.eraseIdx i, done := s.done ++ [(x, false)] }
      else
        { setValid := s.setValid.set nMaxCacheSize rand k
          working := s.working.eraseIdx i
          done := s.done ++ [(x, true)] }

end SigChecks

/-- The checks that were started. -/
def startedChecks (events : List SigEvent) : List SigCheck :=
  events.filterMap fun event =>
    match event with
    | .start x => some x
    | .finish _ _ => none

namespace SignatureCache

variable {c : Crypto} {setValid : SignatureCache} {k : SigData} {nMaxCacheSize : ℤ}

/-- Only what verifies is in the cache. -/
def Verified (c : Crypto) (setValid : SignatureCache) : Prop :=
  ∀ k, setValid.get k = true → c.verifies k = true

theorem get_iff : setValid.get k = true ↔ setValid.find k = some () := by
  rw [get, SortedMap.contains, Option.isSome_iff_exists]
  exact Unique.exists_iff

theorem Verified.erase (h : Verified c setValid) (k : SigData) : Verified c (setValid.erase k) := by
  intro k' hk'
  rw [get_iff, SortedMap.find_erase] at hk'
  split_ifs at hk'
  exact h k' (get_iff.mpr hk')

theorem Verified.insertNew (h : Verified c setValid) (hk : c.verifies k = true) :
    Verified c (setValid.insertNew k ()) := by
  intro k' hk'
  rw [get_iff, SortedMap.find_insertNew, Option.or_eq_some_iff] at hk'
  rcases hk' with hold | ⟨-, hnew⟩
  · exact h k' (get_iff.mpr hold)
  · split_ifs at hnew with heq
    rwa [heq]

theorem exists_evict (randomHash : Uint256) (h : 0 < setValid.entries.length) :
    ∃ e ∈ setValid.entries, setValid.evict randomHash = setValid.erase e.1 := by
  rw [evict]
  cases hlower : setValid.entries.find? fun e => decide (¬sigLess e.1 (randomHash, [], [0xFF])) with
  | some e => exact ⟨e, List.mem_of_find?_eq_some hlower, rfl⟩
  | none =>
    obtain ⟨e, entries, hentries⟩ := List.exists_cons_of_length_pos h
    exact ⟨e, hentries ▸ List.mem_cons_self, by rw [hentries]; rfl⟩

theorem length_erase {e : SigData × Unit} (he : e ∈ setValid.entries) :
    (setValid.erase e.1).entries.length + 1 ≤ setValid.entries.length := by
  have hlt : (setValid.entries.filter fun e' => e'.1 ≠ e.1).length < setValid.entries.length :=
    List.length_filter_lt_length_iff_exists.mpr ⟨e, he, by simp⟩
  exact hlt

theorem evictLoop_spec (hpos : 0 ≤ nMaxCacheSize) {n : ℕ} (rand : ℕ → Uint256)
    (h : Verified c setValid) (hn : setValid.entries.length ≤ n) :
    Verified c (evictLoop nMaxCacheSize n rand setValid) ∧
      ((evictLoop nMaxCacheSize n rand setValid).entries.length : ℤ) ≤ nMaxCacheSize := by
  induction n generalizing rand setValid with
  | zero => exact ⟨h, by rw [evictLoop]; omega⟩
  | succ n ih =>
    rw [evictLoop]
    split_ifs with hlarge
    · obtain ⟨e, he, hevict⟩ := exists_evict (rand 0) (show 0 < setValid.entries.length by omega)
      have hlength := length_erase he
      rw [hevict]
      exact ih _ (h.erase e.1) (by omega)
    · exact ⟨h, by omega⟩

theorem set_spec (rand : ℕ → Uint256) (h : Verified c setValid)
    (hsize : (setValid.entries.length : ℤ) ≤ max 0 (nMaxCacheSize + 1)) (hk : c.verifies k = true) :
    Verified c (setValid.set nMaxCacheSize rand k) ∧
      ((setValid.set nMaxCacheSize rand k).entries.length : ℤ) ≤ max 0 (nMaxCacheSize + 1) := by
  rw [set]
  split_ifs with hnone
  · exact ⟨h, hsize⟩
  · have hpos : 0 ≤ nMaxCacheSize := by omega
    obtain ⟨hverified, hlength⟩ := evictLoop_spec hpos rand h le_rfl
    have hinsert := SortedMap.length_insertNew_le
      (evictLoop nMaxCacheSize setValid.entries.length rand setValid) k ()
    exact ⟨hverified.insertNew hk, by omega⟩

end SignatureCache

namespace SigChecks

variable {c : Crypto} {nMaxCacheSize : ℤ} {s : SigChecks} {started : List SigCheck}

/-- What holds after each step. -/
structure Sound (c : Crypto) (nMaxCacheSize : ℤ) (s : SigChecks) (started : List SigCheck) :
    Prop where
  verified : s.setValid.Verified c
  size : (s.setValid.entries.length : ℤ) ≤ max 0 (nMaxCacheSize + 1)
  working : ∀ p ∈ s.working, p.1.data c = some p.2
  done : ∀ p ∈ s.done, p.2 = p.1.answer c
  perm : (s.done.map Prod.fst ++ s.working.map Prod.fst).Perm started

theorem sound_empty (c : Crypto) (nMaxCacheSize : ℤ) : empty.Sound c nMaxCacheSize [] where
  verified k hk := by cases hk
  size := le_max_left _ _
  working p hp := by cases hp
  done p hp := by cases hp
  perm := List.Perm.refl _

theorem Sound.start (h : s.Sound c nMaxCacheSize started) (x : SigCheck) :
    (s.step c nMaxCacheSize (.start x)).Sound c nMaxCacheSize (started ++ [x]) := by
  have hdone : ∀ answer, (s.done.map Prod.fst ++ s.working.map Prod.fst).Perm started →
      ((s.done ++ [(x, answer)]).map Prod.fst ++ s.working.map Prod.fst).Perm (started ++ [x]) := by
    intro answer hperm
    rw [List.map_append, List.append_assoc]
    exact (List.perm_middle.trans (hperm.cons x)).trans (List.perm_append_singleton x started).symm
  have hanswer : ∀ answer, answer = x.answer c → ∀ p ∈ s.done ++ [(x, answer)], p.2 = p.1.answer c := by
    intro answer heq p hp
    rcases List.mem_append.mp hp with hold | hnew
    · exact h.done p hold
    · rw [List.mem_singleton.mp hnew]
      exact heq
  rw [step]
  split
  · rename_i hdata
    exact { h with
      done := hanswer false (by rw [SigCheck.answer_eq, hdata]; rfl)
      perm := hdone false h.perm }
  · rename_i k hdata
    split_ifs with hget
    · exact { h with
        done := hanswer true (by rw [SigCheck.answer_eq, hdata]; exact (h.verified k hget).symm)
        perm := hdone true h.perm }
    · refine { h with working := fun p hp => ?_, perm := ?_ }
      · rcases List.mem_append.mp hp with hold | hnew
        · exact h.working p hold
        · rw [List.mem_singleton.mp hnew]
          exact hdata
      · change (s.done.map Prod.fst ++ (s.working ++ [(x, k)]).map Prod.fst).Perm (started ++ [x])
        rw [List.map_append, ← List.append_assoc]
        exact h.perm.append_right [x]

theorem Sound.finish (h : s.Sound c nMaxCacheSize started) (i : ℕ) (rand : ℕ → Uint256) :
    (s.step c nMaxCacheSize (.finish i rand)).Sound c nMaxCacheSize started := by
  rw [step]
  split
  · exact h
  rename_i x k hi
  obtain ⟨hlt, hget⟩ := List.getElem?_eq_some_iff.mp hi
  have hdata : x.data c = some k := h.working (x, k) (List.mem_of_getElem? hi)
  have hanswer : x.answer c = c.verifies k := by
    rw [SigCheck.answer_eq, hdata]
    rfl
  have hworking : ∀ p ∈ s.working.eraseIdx i, p.1.data c = some p.2 :=
    fun p hp => h.working p (List.mem_of_mem_eraseIdx hp)
  have hdone : ∀ p ∈ s.done ++ [(x, c.verifies k)], p.2 = p.1.answer c := by
    intro p hp
    rcases List.mem_append.mp hp with hold | hnew
    · exact h.done p hold
    · rw [List.mem_singleton.mp hnew]
      exact hanswer.symm
  have hperm : ((s.done ++ [(x, c.verifies k)]).map Prod.fst ++
      (s.working.eraseIdx i).map Prod.fst).Perm started := by
    have herase : (s.working[i] :: s.working.eraseIdx i).Perm s.working :=
      List.getElem_cons_eraseIdx_perm hlt
    rw [hget] at herase
    rw [List.map_append, List.append_assoc]
    exact ((herase.map Prod.fst).append_left _).trans h.perm
  split_ifs with hverifies
  · rw [Bool.not_eq_true'] at hverifies
    rw [hverifies] at hdone hperm
    exact ⟨h.verified, h.size, hworking, hdone, hperm⟩
  · rw [Bool.not_eq_true', Bool.not_eq_false] at hverifies
    rw [hverifies] at hdone hperm
    obtain ⟨hverified, hsize⟩ := SignatureCache.set_spec rand h.verified h.size hverifies
    exact ⟨hverified, hsize, hworking, hdone, hperm⟩

theorem Sound.run (h : s.Sound c nMaxCacheSize started) (events : List SigEvent) :
    (events.foldl (step c nMaxCacheSize) s).Sound c nMaxCacheSize
      (started ++ startedChecks events) := by
  induction events generalizing s started with
  | nil =>
    rw [startedChecks, List.filterMap_nil, List.append_nil]
    exact h
  | cons event events ih =>
    cases event with
    | start x =>
      have hrest := ih (h.start x)
      rw [List.append_assoc] at hrest
      exact hrest
    | finish i rand => exact ih (h.finish i rand)

end SigChecks

open SigChecks in
/-- Whatever else is checked at the same time and whatever is evicted, each check that was started is
under way or done once, those done were answered as without the cache, and the cache is never larger
than it may be by more than one. -/
theorem signatureCache_run (c : Crypto) (nMaxCacheSize : ℤ) (events : List SigEvent) :
    ((events.foldl (step c nMaxCacheSize) empty).done.map Prod.fst ++
        (events.foldl (step c nMaxCacheSize) empty).working.map Prod.fst).Perm
        (startedChecks events) ∧
      (∀ p ∈ (events.foldl (step c nMaxCacheSize) empty).done, p.2 = checkSig c p.1.vchSig
        p.1.vchPubKey p.1.scriptCode p.1.txTo p.1.nIn p.1.nHashType) ∧
      ((events.foldl (step c nMaxCacheSize) empty).setValid.entries.length : ℤ) ≤
        max 0 (nMaxCacheSize + 1) := by
  have hsound := (sound_empty c nMaxCacheSize).run events
  exact ⟨hsound.perm, hsound.done, hsound.size⟩

end Beancash
